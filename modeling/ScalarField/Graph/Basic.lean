/-
Expression graphs. A node refers only to nodes inserted before it, so a graph
has no cycle, and equal nodes are one node.

Equal nodes are found through `buckets`, the nodes by their hash. The hash is
part of the graph: nothing depends on which one it is.
-/
import Std.Data.HashMap
import ScalarField.Graph.Node
import ScalarField.Graph.Error

namespace ScalarField

structure Graph where
  hash : Node → Hashcode
  nodes : Array Node
  /-- The numbers of the nodes, by hash. -/
  buckets : Std.HashMap Hashcode (List NodeId)
  /-- The names of the variables. -/
  vars : Array Bytes
  varIndex : Std.HashMap Bytes Nat
  /-- The nodes marked as results, in the order of marking. -/
  outputs : Array NodeId

namespace Graph

/-- A graph without nodes and variables. -/
def bare (hash : Node → Hashcode) : Graph := ⟨hash, #[], ∅, #[], ∅, #[]⟩

/-- The index of a variable, which is new if its name is. -/
def register (g : Graph) (name : Bytes) : Nat × Graph :=
  match g.varIndex[name]? with
  | some i => (i, g)
  | none =>
    (g.vars.size,
      { g with vars := g.vars.push name, varIndex := g.varIndex.insert name g.vars.size })

/-- The variables of a new graph. -/
def axes : List Bytes := [utf8 "x", utf8 "y", utf8 "z"]

/-- A graph without nodes, whose hash is `hash`. -/
def emptyWith (hash : Node → Hashcode) : Graph :=
  axes.foldl (fun g name => (g.register name).2) (bare hash)

/-- A graph without nodes. -/
def empty : Graph := emptyWith Node.fingerprint

/-- The number of a node, if it has been inserted. -/
def find? (g : Graph) (n : Node) : Option NodeId :=
  ((g.buckets[g.hash n]?).getD []).find? fun id => g.nodes[id]? == some n

/-- Nodes that a graph can hold. -/
def capacity : Nat := 0xFFFFFFFF

/-- Adds a node, or finds the one that is equal to it. -/
def intern (g : Graph) (n : Node) : Except GraphError (NodeId × Graph) :=
  match g.find? n with
  | some id => .ok (id, g)
  | none =>
    if capacity ≤ g.nodes.size then .error .full
    else
      let id := g.nodes.size
      let h := g.hash n
      .ok (id, { g with
        nodes := g.nodes.push n
        buckets := g.buckets.insert h ((g.buckets[h]?).getD [] ++ [id]) })

/-- The node that an instruction describes in this graph, if its operator,
variable and operands exist. -/
def node? (g : Graph) (i : Instr) : Except GraphError Node :=
  match i.op? with
  | none => .error (.badOp i.code)
  | some .input =>
    if 0 ≤ i.var ∧ i.var < g.vars.size then .ok (.input i.var.toNat)
    else .error (.badVariable i.var)
  | some .const => .ok (.const i.imm)
  | some (.unary u) =>
    if g.nodes.size ≤ i.left then .error (.cycle i.left g.nodes.size) else .ok (.unary u i.left)
  | some (.binary b) =>
    if g.nodes.size ≤ i.left then .error (.cycle i.left g.nodes.size)
    else if g.nodes.size ≤ i.right then .error (.cycle i.right g.nodes.size)
    else .ok (.binary b i.left i.right)

/-- Adds the canonical form of a node, or finds it. -/
def insert (g : Graph) (i : Instr) : Except GraphError (NodeId × Graph) :=
  match g.node? i with
  | .error e => .error e
  | .ok n => g.intern n.canonical

/-- Adds the node of a variable given by its index. -/
def input (g : Graph) (i : Int) : Except GraphError (NodeId × Graph) :=
  g.insert { code := Op.input.code, var := i }

/-- Adds the node of a variable given by its name. The name stays registered
even if the node cannot be added, which happens in a full graph only. A program
that takes the node for granted stops there; here it is given the error. -/
def var (g : Graph) (name : Bytes) : Except GraphError NodeId × Graph :=
  let (i, g) := g.register name
  match g.input i with
  | .ok (id, g) => (.ok id, g)
  | .error e => (.error e, g)

def const (g : Graph) (v : Binary64) : Except GraphError (NodeId × Graph) :=
  g.insert { code := Op.const.code, imm := v }

def unary (g : Graph) (code : UInt8) (a : NodeId) : Except GraphError (NodeId × Graph) :=
  if Op.arityOfCode code = 1 then g.insert { code, left := a } else .error (.notUnary code)

def binary (g : Graph) (code : UInt8) (a b : NodeId) : Except GraphError (NodeId × Graph) :=
  if Op.arityOfCode code = 2 then g.insert { code, left := a, right := b }
  else .error (.notBinary code)

/-- Marks a node as a result; marking it twice has no effect. -/
def output (g : Graph) (id : NodeId) : Except GraphError Graph :=
  if g.nodes.size ≤ id then .error (.badOutput id g.nodes.size)
  else if g.outputs.contains id then .ok g
  else .ok { g with outputs := g.outputs.push id }

/-- Marks the operands of every marked node below `n`, the highest node
first. -/
def sweep (g : Graph) : Nat → Array Bool → Array Bool
  | 0, live => live
  | n + 1, live =>
    if live[n]?.getD false then
      let args := (g.nodes[n]?.map Node.args).getD []
      g.sweep n (args.foldl (fun live a => live.setIfInBounds a true) live)
    else g.sweep n live

/-- Which nodes some root is computed from. Operands come before the nodes
that use them, so one sweep is enough. -/
def reachable (g : Graph) (roots : List NodeId) : Array Bool :=
  let live := Array.replicate g.nodes.size false
  g.sweep g.nodes.size (roots.foldl (fun live r => live.setIfInBounds r true) live)

end Graph

/-- Building a graph step by step; a failing step leaves what was built. -/
abbrev Build := ExceptT GraphError (StateM Graph)

namespace Build

/-- A step that changes nothing if it fails. -/
def step (f : Graph → Except GraphError (NodeId × Graph)) : Build NodeId := fun g =>
  match f g with
  | .ok (id, g) => (.ok id, g)
  | .error e => (.error e, g)

def input (i : Int) : Build NodeId := step (·.input i)
def const (v : Binary64) : Build NodeId := step (·.const v)
def unary (u : UnaryOp) (a : NodeId) : Build NodeId := step (·.unary u.code a)
def binary (b : BinaryOp) (x y : NodeId) : Build NodeId := step (·.binary b.code x y)

/-- The difference of the variable `i` and a constant. -/
def offset (i : Int) (c : Binary64) : Build NodeId := do
  let v ← input i
  let k ← const c
  binary .sub v k

/-- The signed distance to a circle in the plane of the first two variables:
`sqrt ((x - cx) ^ 2 + (y - cy) ^ 2) - r`. -/
def circle (cx cy r : Binary64) : Build NodeId := do
  let dx ← offset 0 cx
  let dy ← offset 1 cy
  let sx ← unary .square dx
  let sy ← unary .square dy
  let sum ← binary .add sx sy
  let root ← unary .sqrt sum
  let k ← const r
  binary .sub root k

/-- The signed distance to a sphere. -/
def sphere (cx cy cz r : Binary64) : Build NodeId := do
  let dx ← offset 0 cx
  let dy ← offset 1 cy
  let dz ← offset 2 cz
  let sx ← unary .square dx
  let sy ← unary .square dy
  let plane ← binary .add sx sy
  let sz ← unary .square dz
  let sum ← binary .add plane sz
  let root ← unary .sqrt sum
  let k ← const r
  binary .sub root k

end Build

end ScalarField
