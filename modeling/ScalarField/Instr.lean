/-
An operation with everything it may refer to. Which fields count depends on
the operator, but all of them are kept, compared and encoded.
-/
import ScalarField.Op
import ScalarField.Number.Format

namespace ScalarField

/-- An operator code with its operands, constant and variable. -/
structure Instr where
  code : UInt8
  left : Nat := 0
  right : Nat := 0
  imm : Binary64 := .zero
  var : Int := 0
  deriving DecidableEq

namespace Instr

/-- The operator, if the code is one. -/
def op? (i : Instr) : Option Op := Op.ofCode? i.code

def arity (i : Instr) : Nat := Op.arityOfCode i.code

/-- The operands that the operator takes. -/
def args (i : Instr) : List Nat := [i.left, i.right].take i.arity

/-- Whether the operator yields one of its operands. -/
def isChoice (i : Instr) : Bool := i.op?.any Op.isChoice

end Instr

end ScalarField
