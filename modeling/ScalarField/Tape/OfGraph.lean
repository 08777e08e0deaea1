/-
The tape of a graph: the nodes that the outputs are computed from, in the
order of insertion, which already puts operands before their uses.
-/
import ScalarField.Graph.Basic
import ScalarField.Tape.Basic

namespace ScalarField

namespace Tape

/-- A tape being built: the slot of each node so far, and the instructions. -/
structure Layout where
  slots : Array Nat
  instrs : Array Instr

namespace Layout

/-- The instruction of a node, its operands given as slots. -/
def instrOf (l : Layout) (n : Node) : Instr :=
  let slot (a : NodeId) : Nat := l.slots[a]?.getD 0
  match n with
  | .unary _ a => { n.toInstr with left := slot a }
  | .binary _ a b => { n.toInstr with left := slot a, right := slot b }
  | _ => n.toInstr

/-- Adds a node. -/
def place (l : Layout) (id : NodeId) (n : Node) : Layout :=
  ⟨l.slots.setIfInBounds id l.instrs.size, l.instrs.push (l.instrOf n)⟩

/-- Instructions that a tape can have. -/
def capacity : Nat := 0xFFFFFFFF

/-- Adds the nodes that are needed, the first one having number `id`. -/
def placeAll (live : Array Bool) (l : Layout) : NodeId → List Node → Except TapeError Layout
  | _, [] => .ok l
  | id, n :: rest =>
    if live[id]?.getD false then
      if l.instrs.size = capacity then .error .tooLarge
      else placeAll live (l.place id n) (id + 1) rest
    else placeAll live l (id + 1) rest

end Layout

/-- The tape that computes the given nodes. -/
def build (g : Graph) (outputs : List NodeId) : Except TapeError Tape :=
  if outputs.isEmpty then .error .noOutputs
  else
    match outputs.find? (g.nodes.size ≤ ·) with
    | some o => .error (.absentOutput o g.nodes.size)
    | none =>
      match Layout.placeAll (g.reachable outputs) ⟨Array.replicate g.nodes.size 0, #[]⟩ 0
          g.nodes.toList with
      | .error e => .error e
      | .ok l =>
        .ok {
          instrs := l.instrs
          outputs := (outputs.map fun o => l.slots[o]?.getD 0).toArray
          vars := g.vars }

/-- The tape that computes the outputs of a graph. -/
def buildOutputs (g : Graph) : Except TapeError Tape := build g g.outputs.toList

end Tape

end ScalarField
