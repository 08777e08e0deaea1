/-
The machine instructions that compiled expressions consist of: arithmetic,
bitwise operations and moves of 16-byte vector registers, and the few steps on
general registers that record a choice.

A constant operand is the constant itself. Where it is placed is decided when
the instructions are put together.
-/
import ScalarField.Fault

namespace ScalarField

/-- The number of a vector register, below 16. -/
abbrev Xmm := UInt8

/-- The number of a general register, below 16. -/
abbrev Gpr := UInt8

namespace Gpr

def rax : Gpr := 0
/-- The array of choices. -/
def rcx : Gpr := 1
/-- The spill area. -/
def rdx : Gpr := 2
/-- The results. -/
def rsi : Gpr := 6
/-- The inputs. -/
def rdi : Gpr := 7
def r8 : Gpr := 8

/-- Whether the low byte of a register cannot be named without more: the same
number means a high byte. -/
def lacksLowByte (r : Gpr) : Bool := 4 ≤ r && r ≤ 7

end Gpr

/-- What a vector instruction works on: every lane or the lowest, of single or
double precision. -/
inductive Form where
  | ps
  | pd
  | ss
  | sd
  deriving DecidableEq

namespace Form

def ofCode? (c : UInt8) : Option Form := [Form.ps, .pd, .ss, .sd][c.toNat]?

/-- The form that works on every lane of the same precision. -/
def packed : Form → Form
  | .ps | .ss => .ps
  | .pd | .sd => .pd

end Form

/-- A 16-byte value. -/
abbrev Vec128 := BitVec 128

namespace Vec128

/-- Two quadwords, the low one first. -/
def ofQuads (lo hi : BitVec 64) : Vec128 := hi ++ lo

/-- Four doublewords, the lowest first. -/
def ofWords (a b c d : BitVec 32) : Vec128 := (d ++ c) ++ (b ++ a)

def bytes (v : Vec128) : Bytes := Bytes.littleEndian 16 v.toNat

end Vec128

/-- A place in memory. -/
inductive Mem where
  /-- The address in a register, plus a displacement. -/
  | ptr (base : Gpr) (disp : Int32)
  /-- A constant that stands behind the code. -/
  | const (value : Vec128)
  deriving DecidableEq

/-! Operation codes of arithmetic. -/

namespace ArithCode

def sqrt : UInt8 := 0x51
def add : UInt8 := 0x58
def mul : UInt8 := 0x59
def sub : UInt8 := 0x5C
/-- The second operand where the operands are equal or unordered. -/
def min : UInt8 := 0x5D
def div : UInt8 := 0x5E
/-- The second operand where the operands are equal or unordered. -/
def max : UInt8 := 0x5F

end ArithCode

/-! Operation codes of bitwise operations. -/

namespace BitCode

def and : UInt8 := 0x54
/-- The complement of the first operand, and the second. -/
def andNot : UInt8 := 0x55
def or : UInt8 := 0x56
def xor : UInt8 := 0x57

end BitCode

/-! Predicates of comparisons. -/

namespace Predicate

def lt : UInt8 := 1
def le : UInt8 := 2
def unordered : UInt8 := 3

end Predicate

/-! Directions of rounding, the inexact result not being reported. -/

namespace Rounding

def nearest : UInt8 := 0x08
def floor : UInt8 := 0x09
def ceil : UInt8 := 0x0A

end Rounding

inductive Insn where
  /-- `dst := dst op src`. -/
  | arith (f : Form) (op : UInt8) (dst src : Xmm)
  /-- `dst := dst op src`, bit by bit. -/
  | bit (f : Form) (op : UInt8) (dst src : Xmm)
  | bitMem (f : Form) (op : UInt8) (dst : Xmm) (src : Mem)
  /-- Each lane of `dst` becomes all ones where the predicate holds, and zero
  elsewhere. -/
  | cmp (f : Form) (pred : UInt8) (dst src : Xmm)
  | round (f : Form) (mode : UInt8) (dst src : Xmm)
  /-- The whole register; a register moved to itself takes no code. -/
  | movaps (dst src : Xmm)
  | load (f : Form) (dst : Xmm) (src : Mem)
  | store (f : Form) (dst : Mem) (src : Xmm)
  /-- The lowest lane, the others staying. -/
  | movLow (f : Form) (dst src : Xmm)
  /-- The low quadword, the high one becoming zero. -/
  | movq (dst src : Xmm)
  | shuf (f : Form) (dst src : Xmm) (sel : UInt8)
  /-- The low quadwords of both. -/
  | unpackLow (dst src : Xmm)
  /-- The high quadwords of both. -/
  | unpackHigh (dst src : Xmm)
  /-- The signs of the two doubles. -/
  | moveMask (dst : Gpr) (src : Xmm)
  | movImm (dst : Gpr) (imm : UInt32)
  | test (x y : Gpr)
  | cmovz (dst src : Gpr)
  /-- The low byte of a register. -/
  | storeByte (base : Gpr) (disp : Int32) (src : Gpr)
  | ret
  deriving DecidableEq

namespace Insn

/-- The rounding of a form given by its code, if there is one. -/
def roundOf (form : UInt8) (mode : UInt8) (dst src : Xmm) : Except Fault Insn :=
  match Form.ofCode? form with
  | some f => .ok (.round f mode dst src)
  | none => .error .range

/-- The store of a byte, if the place and the register allow it. -/
def storeByteTo (dst : Mem) (src : Gpr) : Except Fault Insn :=
  match dst with
  | .const _ => .error .constantStore
  | .ptr base disp =>
    if src.lacksLowByte then .error (.byteStore src) else .ok (.storeByte base disp src)

end Insn

end ScalarField
