/-
Live ranges: from the position that writes a slot to the last one that reads
it. Outputs are live to the end.
-/
import ScalarField.Tape.Basic

namespace ScalarField

/-- The positions from `first` to `last`, both included. -/
structure LiveRange where
  first : Int
  last : Int
  deriving DecidableEq

/-- Whether two ranges share a position. -/
def LiveRange.overlaps (r s : LiveRange) : Bool := r.first ≤ s.last && s.first ≤ r.last

namespace Tape

/-- Moves the ends of the ranges of `slots` to `pos`. -/
def extendRanges (pos : Nat) : Array LiveRange → List Nat → Except Fault (Array LiveRange)
  | rs, [] => .ok rs
  | rs, s :: rest =>
    match rs[s]? with
    | none => .error .range
    | some r => extendRanges pos (rs.setIfInBounds s { r with last := pos }) rest

/-- Enters the instructions that start at `pos`. -/
def rangesFrom (rs : Array LiveRange) : Nat → List Instr → Except Fault (Array LiveRange)
  | _, [] => .ok rs
  | pos, i :: rest =>
    match extendRanges pos (rs.setIfInBounds pos ⟨pos, pos⟩) i.args with
    | .error e => .error e
    | .ok rs => rangesFrom rs (pos + 1) rest

/-- The live range of every slot. -/
def liveRanges (t : Tape) : Except Fault (Array LiveRange) :=
  match rangesFrom (Array.replicate t.size ⟨0, 0⟩) 0 t.instrs.toList with
  | .error e => .error e
  | .ok rs => extendRanges t.size rs t.outputs.toList

/-- Adds `step` at a position. -/
def bump (step : Int) (delta : Array Int) (pos : Int) : Array Int :=
  delta.modify pos.toNat (· + step)

/-- The greatest sum of a beginning of the list, or `peak`; `cur` is the sum
before it. -/
def peakFrom (cur peak : Int) : List Int → Int
  | [] => peak
  | d :: rest => peakFrom (cur + d) (max peak (cur + d)) rest

/-- The greatest number of slots that are live at one position. -/
def pressure (t : Tape) : Except Fault Int :=
  match t.liveRanges with
  | .error e => .error e
  | .ok rs =>
    let delta := rs.foldl (fun d r => bump (-1) (bump 1 d r.first) (r.last + 1))
      (Array.replicate (t.size + 2) 0)
    .ok (peakFrom 0 0 delta.toList)

end Tape

end ScalarField
