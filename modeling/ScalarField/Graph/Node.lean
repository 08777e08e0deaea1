/-
The nodes of an expression graph, in canonical form: operands that may be
swapped stand in ascending order, and one constant stands for every NaN.
-/
import ScalarField.Instr
import ScalarField.Number.Print

namespace ScalarField

/-- The number of a node, in the order of insertion. -/
abbrev NodeId := Nat

/-- A hash of 128 bits, the lower half first. -/
abbrev Hashcode := UInt64 × UInt64

inductive Node where
  | input (var : Nat)
  | const (value : Binary64)
  | unary (op : UnaryOp) (a : NodeId)
  | binary (op : BinaryOp) (a b : NodeId)
  deriving DecidableEq

namespace Node

/-- The operands. -/
def args : Node → List NodeId
  | .input _ | .const _ => []
  | .unary _ a => [a]
  | .binary _ a b => [a, b]

def op : Node → Op
  | .input _ => .input
  | .const _ => .const
  | .unary u _ => .unary u
  | .binary b _ _ => .binary b

/-- The node as an instruction; fields that it does not use are zero. -/
def toInstr (n : Node) : Instr :=
  match n with
  | .input v => { code := n.op.code, var := v }
  | .const c => { code := n.op.code, imm := c }
  | .unary _ a => { code := n.op.code, left := a }
  | .binary _ a b => { code := n.op.code, left := a, right := b }

/-- The form that equal expressions share. -/
def canonical : Node → Node
  | .const c => .const (if c.isNaN then .nan else c)
  | .binary op a b => if op.isCommutative && b < a then .binary op b a else .binary op a b
  | n => n

/-- Nodes in canonical form. -/
def IsCanonical (n : Node) : Prop := n.canonical = n

/-- The name of a node in texts. -/
def ref (id : NodeId) : Bytes := Bytes.ofChar '_' :: Bytes.hex id

/-- The node as text. -/
def print : Node → Bytes
  | .input v => utf8 "input " ++ Bytes.ofNat v
  | .const c => utf8 "const " ++ c.print
  | .unary op a => utf8 op.name ++ utf8 " " ++ ref a
  | .binary op a b => utf8 op.name ++ utf8 " " ++ ref a ++ utf8 " " ++ ref b

/-- A hash that equal nodes share; different nodes may share it too. -/
def fingerprint (n : Node) : Hashcode :=
  let i := n.toInstr
  (mixHash (hash i.code) (mixHash (hash i.left) (hash i.right)),
    mixHash (hash i.imm.bits) (hash i.var))

end Node

end ScalarField
