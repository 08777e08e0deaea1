/-
Templates: the instructions that compute an operator in one mode.

A template reads the registers `a` and `b` of the operands and writes the
register `d` of the result and the registers `tmp0`, `tmp1` and `tmp2`. It
changes no other register, and `d` is never that of an operand.
-/
import ScalarField.Code.Insn
import ScalarField.Code.Level
import ScalarField.Number.Arith

namespace ScalarField

/-- Registers that values can be assigned to; the others are scratch. -/
def assignable : Nat := 10

namespace Xmm

/-- A spilled result on its way to its cell. -/
def spilled : Xmm := 10
/-- A spilled first operand. -/
def spilledLeft : Xmm := 11
/-- A spilled second operand. -/
def spilledRight : Xmm := 12
def tmp0 : Xmm := 13
def tmp1 : Xmm := 14
def tmp2 : Xmm := 15

end Xmm

/-- The code generator of a mode. -/
structure Template where
  /-- Bytes of an input or a result. -/
  stride : Int32
  /-- The form in which a whole value is moved. -/
  form : Form
  /-- Loads a constant. -/
  const : Xmm → Binary64 → List Insn
  /-- Computes an operator of one operand, if the level has a way. -/
  unary : Level → UnaryOp → Xmm → Xmm → Option (List Insn)
  /-- Computes the operator at a position, if there is a way. -/
  binary : Nat → BinaryOp → Xmm → Xmm → Xmm → Option (List Insn)

namespace Template

/-! ## Constants -/

/-- Two doubles. -/
def doubles (lo hi : Binary64) : Mem := .const (.ofQuads (.ofNat 64 lo.bits) (.ofNat 64 hi.bits))

/-- Four singles. -/
def singles (a b c d : Binary32) : Mem :=
  .const (.ofWords (.ofNat 32 a.bits) (.ofNat 32 b.bits) (.ofNat 32 c.bits) (.ofNat 32 d.bits))

/-- Four times the same single. -/
def allSingles (a : Binary32) : Mem := singles a a a a

/-- The signs of two doubles. -/
def signs64 : Mem := .const (.ofQuads 0x8000000000000000 0x8000000000000000)

/-- All but the signs of two doubles. -/
def magnitudes64 : Mem := .const (.ofQuads 0x7FFFFFFFFFFFFFFF 0x7FFFFFFFFFFFFFFF)

/-- The signs of four singles. -/
def signs32 : Mem :=
  .const (.ofWords 0x80000000 0x80000000 0x80000000 0x80000000)

/-- All but the signs of four singles. -/
def magnitudes32 : Mem :=
  .const (.ofWords 0x7FFFFFFF 0x7FFFFFFF 0x7FFFFFFF 0x7FFFFFFF)

/-! ## Shared sequences -/

/-- `d := a op b`. -/
def binop (f : Form) (op : UInt8) (d a b : Xmm) : List Insn := [.movaps d a, .arith f op d b]

/-- `d := a op b` for the smaller or greater of two; a NaN in either operand
gives a NaN. -/
def extreme (f : Form) (op : UInt8) (d a b : Xmm) : List Insn :=
  binop f op d a b ++
    [.movaps .tmp0 a, .cmp f Predicate.unordered .tmp0 b, .bit f.packed BitCode.or d .tmp0]

/-- `d := a` rounded, if the level has rounding. -/
def rounding (f : Form) (mode : UInt8) (l : Level) (d a : Xmm) : Option (List Insn) :=
  if l.allows .sse41 then some [.round f mode d a] else none

end Template

end ScalarField
