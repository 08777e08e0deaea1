/-
Writing a graph: the definitions that a node is computed from, in the form
that can be read back, and a drawing of the whole graph for `dot`.
-/
import ScalarField.Graph.Basic
import ScalarField.Text.Display

namespace ScalarField

namespace Graph

/-- The name of a variable. -/
def varName (g : Graph) (i : Nat) : Bytes := g.vars[i]?.getD []

/-- What the definition of a node says. -/
def definition (g : Graph) : Node → Bytes
  | .input v => utf8 "var-" ++ g.varName v
  | n => n.print

/-- The nodes, each with its number. -/
def numbered (g : Graph) : List (NodeId × Node) := g.nodes.toList.zipIdx.map fun (n, i) => (i, n)

/-- The definitions that the root is computed from, the root last. -/
def write (g : Graph) (root : NodeId) : Except GraphError Bytes :=
  if g.nodes.size ≤ root then .error (.absent root)
  else
    let live := g.reachable [root]
    .ok ((g.numbered.take (root + 1)).flatMap fun (i, n) =>
      if live[i]?.getD false then Bytes.line (Node.ref i ++ utf8 " " ++ g.definition n) else [])

/-- What the drawing says about a node. -/
def label (g : Graph) : Node → Bytes
  | .input v => g.varName v
  | n => n.print

/-- The drawing of one node and of the edges to it. -/
def drawNode (g : Graph) (id : NodeId) (n : Node) : Bytes :=
  let name := Node.ref id
  Bytes.line (utf8 "\t" ++ name.quoted ++ utf8 " [label=" ++
      (name ++ utf8 " = " ++ g.label n).quoted ++ utf8 "];") ++
    n.args.flatMap fun a =>
      Bytes.line (utf8 "\t" ++ (Node.ref a).quoted ++ utf8 " -> " ++ name.quoted ++ utf8 ";")

/-- The whole graph as a drawing. -/
def draw (g : Graph) : Bytes :=
  Bytes.line (utf8 "digraph expr \x7b") ++
    (g.numbered.flatMap fun (i, n) => g.drawNode i n) ++
    (g.outputs.toList.flatMap fun o =>
      Bytes.line (utf8 "\t" ++ (Node.ref o).quoted ++ utf8 " -> ret;")) ++
    Bytes.line (utf8 "\x7d")

end Graph

end ScalarField
