/-
The bytes of an instruction: a mandatory prefix that tells the form, a REX
prefix if a register number has four bits, the operation code, the operands,
and an immediate.

A constant operand is addressed relative to the end of the instruction. That
distance stands in the last four bytes, and is left open here.
-/
import ScalarField.Code.Insn

namespace ScalarField

/-- The bytes of an instruction, and the constant that its last four bytes are
to point to. -/
structure Encoding where
  bytes : Bytes
  const : Option Vec128 := none

namespace Encoding

/-- The byte that tells the form. -/
def ofForm : Form → Bytes
  | .ps => []
  | .pd => [0x66]
  | .ss => [0xF3]
  | .sd => [0xF2]

/-- The fourth bits of two register numbers. -/
def rex (reg rm : UInt8) : Bytes :=
  let r := (if reg &&& 8 = 0 then 0 else 4) ||| (if rm &&& 8 = 0 then 0 else 1)
  if r = 0 then [] else [0x40 ||| r]

/-- The byte of two operands: `mode` tells what the second one is. -/
def modRM (mode reg rm : UInt8) : UInt8 := mode ||| (reg &&& 7) <<< 3 ||| (rm &&& 7)

/-- Two registers. -/
def regs (lead op : Bytes) (reg rm : UInt8) (imm : Bytes) : Encoding :=
  ⟨lead ++ rex reg rm ++ op ++ [modRM 0xC0 reg rm] ++ imm, none⟩

/-- The four bytes of a displacement. -/
def disp32 (d : Int32) : Bytes := Bytes.littleEndian 4 d.toUInt32.toNat

/-- How a displacement is written: not at all, in one byte or in four. A base
whose low bits are those of `rbp` always has one. -/
def displacement (base : Gpr) (d : Int32) : UInt8 × Bytes :=
  if d = 0 ∧ base &&& 7 ≠ 5 then (0x00, [])
  else if -128 ≤ d ∧ d ≤ 127 then (0x40, [d.toInt8.toUInt8])
  else (0x80, disp32 d)

/-- A base whose low bits are those of `rsp` takes one more byte. -/
def scaled (base : Gpr) : Bytes := if base &&& 7 = 4 then [0x24] else []

/-- A register and an address. -/
def ptr (lead op : Bytes) (reg : UInt8) (base : Gpr) (d : Int32) : Encoding :=
  let (mode, disp) := displacement base d
  ⟨lead ++ rex reg base ++ op ++ [modRM mode reg base] ++ scaled base ++ disp, none⟩

/-- A register and a place in memory. -/
def mem (lead op : Bytes) (reg : UInt8) : Mem → Encoding
  | .ptr base d => ptr lead op reg base d
  | .const v => ⟨lead ++ rex reg 0 ++ op ++ [modRM 0 reg 5] ++ [0, 0, 0, 0], some v⟩

/-- The form in which whole registers are moved. -/
def moving : Form → Form
  | .pd => .ps
  | f => f

/-- The operation code of a rounding. -/
def roundCode : Form → UInt8
  | .ps => 0x08
  | .pd => 0x09
  | .ss => 0x0A
  | .sd => 0x0B

end Encoding

open Encoding in
/-- The bytes of an instruction. -/
def Insn.encode : Insn → Encoding
  | .arith f op d s => regs (ofForm f) [0x0F, op] d s []
  | .bit f op d s => regs (ofForm f) [0x0F, op] d s []
  | .bitMem f op d m => mem (ofForm f) [0x0F, op] d m
  | .cmp f p d s => regs (ofForm f) [0x0F, 0xC2] d s [p]
  | .round f mode d s => regs [0x66] [0x0F, 0x3A, roundCode f] d s [mode]
  | .movaps d s => if d = s then ⟨[], none⟩ else regs [] [0x0F, 0x28] d s []
  | .load f d m => mem (ofForm (moving f)) [0x0F, 0x10] d m
  | .store f m s => mem (ofForm (moving f)) [0x0F, 0x11] s m
  | .movLow f d s => regs (ofForm f) [0x0F, 0x10] d s []
  | .movq d s => regs [0xF3] [0x0F, 0x7E] d s []
  | .shuf f d s sel => regs (ofForm f) [0x0F, 0xC6] d s [sel]
  | .unpackLow d s => regs [0x66] [0x0F, 0x14] d s []
  | .unpackHigh d s => regs [0x66] [0x0F, 0x15] d s []
  | .moveMask d s => regs [0x66] [0x0F, 0x50] d s []
  | .movImm d imm => ⟨rex 0 d ++ [0xB8 + (d &&& 7)] ++ Bytes.littleEndian 4 imm.toNat, none⟩
  | .test x y => regs [] [0x85] y x []
  | .cmovz d s => regs [] [0x0F, 0x44] d s []
  | .storeByte base d s => ptr [] [0x88] s base d
  | .ret => ⟨[0xC3], none⟩

end ScalarField
