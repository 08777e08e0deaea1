/-
Random expressions, boxes and points.
-/
import ScalarField.Random
import ScalarField.Tape.OfGraph

namespace ScalarField

/-- The operators to draw from, by their codes. -/
structure OpSet where
  unary : List UInt8
  binary : List UInt8

/-- Operators that are total on finite numbers and compiled at every level. -/
def OpSet.total : OpSet where
  unary := [UnaryOp.neg, .abs, .square].map UnaryOp.code
  binary := [BinaryOp.add, .sub, .mul, .min, .max].map BinaryOp.code

/-- Why there is no sample. -/
inductive SampleError where
  | fault (cause : Fault)
  | graph (cause : GraphError)
  | tape (cause : TapeError)
  deriving DecidableEq

/-- Drawing from a generator. -/
abbrev Sampler := StateT Random (Except SampleError)

namespace Sampler

/-- A number below `n`. -/
def below (n : Nat) : Sampler Nat := fun r => (r.below n).mapError .fault

/-- A number from 0 up to but not including 1. -/
def unit : Sampler Binary64 := fun r => .ok r.unit

/-- An item of a list. -/
def pick {α : Type} (default : α) (xs : List α) : Sampler α := do
  let i ← below xs.length
  return xs.getD i default

/-- A step of building that is to succeed. -/
def lift {α : Type} : Except GraphError α → Sampler α
  | .ok x => return x
  | .error e => throw (.graph e)

/-- A random node over the nodes in `ids`: a constant, an operator of one
operand or one of two. -/
def node (ops : OpSet) (g : Graph) (ids : List NodeId) : Sampler (NodeId × Graph) := do
  let k ← below 6
  if k = 0 then
    let n ← below 9
    lift (g.const ((Binary.ofInt ((n : Int) - 4)).div (.ofInt 2)))
  else if k = 1 ∧ ops.unary ≠ [] then
    let op ← pick 0 ops.unary
    let a ← pick 0 ids
    lift (g.unary op a)
  else
    let op ← pick 0 ops.binary
    let a ← pick 0 ids
    let b ← pick 0 ids
    lift (g.binary op a b)

/-- Adds random nodes, `n` of them. -/
def nodes (ops : OpSet) (g : Graph) (ids : List NodeId) : Nat → Sampler (List NodeId × Graph)
  | 0 => return (ids, g)
  | n + 1 => do
    let (id, g) ← node ops g ids
    nodes ops g (ids ++ [id]) n

/-- The smallest of a node and others, taken one after the other. -/
def least (g : Graph) (root : NodeId) : List NodeId → Sampler (NodeId × Graph)
  | [] => return (root, g)
  | id :: rest => do
    let (root, g) ← lift (g.binary BinaryOp.min.code root id)
    least g root rest

/-- A graph of about `n` nodes, and the smallest value of the later half of
them. -/
def graph (n : Nat) (ops : OpSet) : Sampler (Graph × NodeId) := do
  let (x, g) ← lift (Graph.empty.input 0)
  let (y, g) ← lift (g.input 1)
  let (z, g) ← lift (g.input 2)
  let (ids, g) ← nodes ops g [x, y, z] (n - 3)
  let later := (ids.drop (ids.length / 2)).reverse
  let (root, g) ← least g (later.headD x) (later.drop 1)
  return (g, root)

/-- The tape of a random graph. -/
def tape (n : Nat) (ops : OpSet) : Sampler Tape := do
  let (g, root) ← graph n ops
  match Tape.build g [root] with
  | .ok t => return t
  | .error e => throw (.tape e)

/-- A number from `-scale` to `scale`. -/
def coordinate (scale : Binary64) : Sampler Binary64 := do
  let u ← unit
  return ((u.mul (.ofInt 2)).sub .one).mul scale

/-- A random box with sides from `-scale` to `scale`. -/
def box (scale : Binary64) : Nat → Sampler (List (Binary64 × Binary64))
  | 0 => return []
  | dims + 1 => do
    let a ← coordinate scale
    let b ← coordinate scale
    let rest ← box scale dims
    return (if b.lt a then (b, a) else (a, b)) :: rest

/-- A random point in a box. -/
def point : List (Binary64 × Binary64) → Sampler (List Binary64)
  | [] => return []
  | (lo, hi) :: rest => do
    let u ← unit
    let v := lo.add (u.mul (hi.sub lo))
    let vs ← point rest
    return (if hi.lt v then hi else v) :: vs

end Sampler

end ScalarField
