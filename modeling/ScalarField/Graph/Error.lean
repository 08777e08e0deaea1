/-
What can go wrong with a graph and with its text form, and the words for it.
-/
import ScalarField.Op
import ScalarField.Text.Display

namespace ScalarField

/-- Why a node, an output or a text line is refused. -/
inductive GraphError where
  | badOp (code : UInt8)
  | badVariable (index : Int)
  | notUnary (code : UInt8)
  | notBinary (code : UInt8)
  /-- An operand that has not been inserted; a cycle could only arise so. -/
  | cycle (child size : Nat)
  | full
  | badOutput (id size : Nat)
  | absent (id : Nat)
  deriving DecidableEq

namespace GraphError

/-- Whether the node itself is malformed. -/
def isMalformed : GraphError → Bool
  | .badOp _ | .badVariable _ | .notUnary _ | .notBinary _ => true
  | _ => false

def malformed (s : Bytes) : Bytes := utf8 "graph: malformed node: " ++ s

def message : GraphError → Bytes
  | .badOp c => malformed (utf8 "op " ++ Bytes.ofNat c.toNat)
  | .badVariable i => malformed (utf8 "variable index " ++ Bytes.ofInt i ++ utf8 " out of range")
  | .notUnary c => malformed (utf8 (Op.nameOfCode c) ++ utf8 " is not unary")
  | .notBinary c => malformed (utf8 (Op.nameOfCode c) ++ utf8 " is not binary")
  | .cycle child size =>
    utf8 "graph: reference to node " ++ Bytes.ofNat child ++
      utf8 " which has not been inserted (graph has " ++ Bytes.ofNat size ++ utf8 " nodes)"
  | .full => utf8 "graph: too many nodes"
  | .badOutput id size =>
    utf8 "graph: output " ++ Bytes.ofNat id ++ utf8 " not present (graph has " ++
      Bytes.ofNat size ++ utf8 " nodes)"
  | .absent id => utf8 "graph: node " ++ Bytes.ofNat id ++ utf8 " not present"

end GraphError

/-- Why a line of a text is refused. -/
inductive LineFault where
  | shape
  | redefined (name : Bytes)
  | badVariable (word : Bytes)
  | constArity
  | badConstant (word : Bytes)
  | unknownOp (word : Bytes)
  | opArity (op : Op) (found : Nat)
  | undefined (name : Bytes)
  | node (cause : GraphError)
  /-- The text ends without a definition. -/
  | noDefinition
  deriving DecidableEq

def LineFault.message : LineFault → Bytes
  | .shape => utf8 "expected '<name> <op> <args...>'"
  | .redefined name => name.quoted ++ utf8 " redefined"
  | .badVariable w => utf8 "malformed variable " ++ w.quoted
  | .constArity => utf8 "const takes one argument"
  | .badConstant w => utf8 "bad constant " ++ w.quoted
  | .unknownOp w => utf8 "unknown opcode " ++ w.quoted
  | .opArity op found =>
    utf8 op.name ++ utf8 " takes " ++ Bytes.ofNat op.arity ++ utf8 " arguments, found " ++
      Bytes.ofNat found
  | .undefined name => utf8 "undefined name " ++ name.quoted
  | .node e => e.message
  | .noDefinition => utf8 "no expressions"

/-- Why a text is refused. -/
inductive TextError where
  /-- The first line at fault, counted from one. -/
  | line (number : Nat) (fault : LineFault)
  | tooLong
  deriving DecidableEq

def TextError.message : TextError → Bytes
  | .line n f => utf8 "graph: line " ++ Bytes.ofNat n ++ utf8 ": " ++ f.message
  | .tooLong => utf8 "graph: reading text: bufio.Scanner: token too long"

end ScalarField
