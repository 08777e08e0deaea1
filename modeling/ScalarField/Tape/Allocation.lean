/-
Register allocation: every slot of a tape is given a register or a spill cell
by one scan in tape order.

At each definition the lowest free register is taken; if none is free, the
value is spilled into the lowest free cell. A location is free again once the
last use of its value has passed, so a result never shares a location with
its operands.
-/
import ScalarField.Heap
import ScalarField.Tape.Liveness
import ScalarField.Words

namespace ScalarField

/-- Where the value of a slot is kept. -/
inductive Loc where
  | reg (n : Nat)
  | spill (n : Nat)
  deriving DecidableEq

namespace Loc

/-- The number of the register or cell. -/
def index : Loc → Nat
  | .reg n | .spill n => n

def isSpill : Loc → Bool
  | .reg _ => false
  | .spill _ => true

/-- The location in one word, the highest bit of which marks a spill. -/
def ofWord (w : UInt32) : Loc :=
  if w.toNat < 0x80000000 then .reg w.toNat else .spill (w.toNat - 0x80000000)

def print : Loc → Bytes
  | .reg n => Bytes.ofChar 'r' :: Bytes.ofNat n
  | .spill n => utf8 "[" ++ Bytes.ofNat n ++ utf8 "]"

end Loc

/-- The locations of the slots of a tape. -/
structure Assignment where
  /-- Registers that may be used. -/
  regs : Int
  locs : Array Loc
  /-- Spill cells that may be used. -/
  spills : Int
  deriving DecidableEq

namespace Assignment

/-- Bytes of a spill cell; a value of every mode fits. -/
def cellBytes : Nat := 16

/-- Bytes of all spill cells. -/
def spillBytes (a : Assignment) : Int := a.spills * cellBytes

/-- Registers that can be allocated at most. -/
def maxRegs : Int := 64

/-! ## The scan -/

/-- The spill area: cells that have been used, and those of them that are
free. -/
structure Cells where
  used : Nat
  free : Heap Nat

namespace Cells

def start : Cells := ⟨0, .empty (· < ·)⟩

/-- The lowest free cell, or a new one. -/
def take (c : Cells) : Nat × Cells :=
  match c.free.pop? with
  | some (n, free) => (n, { c with free })
  | none => (c.used, { c with used := c.used + 1 })

def release (c : Cells) (n : Nat) : Cells := { c with free := c.free.push n }

end Cells

/-- The state of the scan. -/
structure Scan where
  /-- Which registers are free. -/
  free : WordSet
  cells : Cells
  locs : Array Loc
  /-- The slots by the position of their last use. -/
  expiring : Array (List Nat)

namespace Scan

/-- Frees the location of a slot. -/
def release (s : Scan) (slot : Nat) : Scan :=
  match s.locs[slot]? with
  | some (.reg n) => { s with free := s.free.insert n }
  | some (.spill n) => { s with cells := s.cells.release n }
  | none => s

/-- Frees the locations of the slots last used at `pos`. -/
def expire (s : Scan) (pos : Nat) : Scan := ((s.expiring[pos]?).getD []).foldl release s

/-- Gives the next slot a location. -/
def assign (s : Scan) : Scan :=
  match s.free.lowest? with
  | some n => { s with free := s.free.erase n, locs := s.locs.push (.reg n) }
  | none =>
    let (n, cells) := s.cells.take
    { s with cells, locs := s.locs.push (.spill n) }

/-- Handles the definition of slot `pos`, which is live to `last`. -/
def define (s : Scan) (pos last : Nat) : Scan :=
  let s := if pos = 0 then s else s.expire (pos - 1)
  let s := s.assign
  { s with expiring := s.expiring.modify last (· ++ [pos]) }

/-- Handles the definitions from slot `pos` on. -/
def run (s : Scan) : Nat → List LiveRange → Scan
  | _, [] => s
  | pos, r :: rest => (s.define pos r.last.toNat).run (pos + 1) rest

end Scan

/-- Assigns the slots of a tape to `regs` registers. -/
def allocate (t : Tape) (regs : Int) : Except TapeError Assignment :=
  if regs < 1 ∨ maxRegs < regs then .error (.registerCount regs)
  else
    match t.liveRanges with
    | .error e => .error (.fault e)
    | .ok rs =>
      let s : Scan := {
        free := .below regs.toNat
        cells := .start
        locs := #[]
        expiring := Array.replicate (t.size + 1) [] }
      let s := s.run 0 rs.toList
      .ok { regs, locs := s.locs, spills := s.cells.used }

/-! ## The check -/

/-- Why an assignment does not fit a tape. -/
inductive Misfit where
  | coverage (slots size : Nat)
  | spill (slot index : Nat)
  | register (slot index : Nat)
  /-- Two slots share a location while both are live. -/
  | shared (owner slot : Nat) (loc : Loc)
  | fault (cause : Fault)
  deriving DecidableEq

def Misfit.message : Misfit → Bytes
  | .coverage slots size =>
    utf8 "tape: assignment covers " ++ Bytes.ofNat slots ++ utf8 " slots, tape has " ++
      Bytes.ofNat size
  | .spill slot n =>
    utf8 "tape: slot " ++ Bytes.ofNat slot ++ utf8 ": spill slot " ++ Bytes.ofNat n ++
      utf8 " out of range"
  | .register slot n =>
    utf8 "tape: slot " ++ Bytes.ofNat slot ++ utf8 ": register " ++ Bytes.ofNat n ++
      utf8 " out of range"
  | .shared owner slot loc =>
    utf8 "tape: slots " ++ Bytes.ofNat owner ++ utf8 " and " ++ Bytes.ofNat slot ++
      utf8 " are both live in " ++ loc.print ++ utf8 " at " ++ Bytes.ofNat slot
  | .fault f => f.message.getD []

/-- The slot that a location was given to last, and the end of its range. -/
structure Owner where
  slot : Nat
  last : Int

/-- The owners of locations. -/
abbrev Owners := List (Loc × Owner)

/-- Whether a location exists. -/
def fits (a : Assignment) (slot : Nat) : Loc → Except Misfit Unit
  | .spill n => if a.spills ≤ n then .error (.spill slot n) else .ok ()
  | .reg n => if a.regs ≤ n then .error (.register slot n) else .ok ()

/-- Checks the slots from `slot` on against the owners so far. -/
def checkFrom (a : Assignment) (owners : Owners) :
    Nat → List (Loc × LiveRange) → Except Misfit Unit
  | _, [] => .ok ()
  | slot, (l, r) :: rest =>
    match a.fits slot l with
    | .error e => .error e
    | .ok () =>
      match owners.lookup l with
      | some o =>
        if (slot : Int) ≤ o.last then .error (.shared o.slot slot l)
        else a.checkFrom ((l, ⟨slot, r.last⟩) :: owners) (slot + 1) rest
      | none => a.checkFrom ((l, ⟨slot, r.last⟩) :: owners) (slot + 1) rest

/-- Checks that slots that are live at the same time have different
locations, all of which exist. -/
def validate (a : Assignment) (t : Tape) : Except Misfit Unit :=
  if a.locs.size ≠ t.size then .error (.coverage a.locs.size t.size)
  else
    match t.liveRanges with
    | .error e => .error (.fault e)
    | .ok rs => a.checkFrom [] 0 (a.locs.toList.zip rs.toList)

end Assignment

end ScalarField
