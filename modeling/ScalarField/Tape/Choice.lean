/-
Choices, and how they simplify a tape.

A choice says which operand a `min`, `max`, `and` or `or` yields over a whole
region. An instruction whose choice is known is replaced by that operand,
what the outputs no longer need is dropped, and the slots are numbered anew in
the same order.
-/
import ScalarField.Tape.Basic
import ScalarField.Words

namespace ScalarField

inductive Choice where
  /-- No choice is made. -/
  | unknown
  | left
  | right
  /-- Either operand may be the result. -/
  | both
  /-- A code that stands for no choice. -/
  | other (code : UInt8)
  deriving DecidableEq

namespace Choice

def ofCode (c : UInt8) : Choice :=
  if c = 0 then .unknown else if c = 1 then .left else if c = 2 then .right
  else if c = 3 then .both else .other c

def code : Choice → UInt8
  | .unknown => 0
  | .left => 1
  | .right => 2
  | .both => 3
  | .other c => c

def name : Choice → Bytes
  | .unknown => utf8 "unknown"
  | .left => utf8 "left"
  | .right => utf8 "right"
  | .both => utf8 "both"
  | .other c => utf8 "Choice(" ++ Bytes.ofNat c.toNat ++ utf8 ")"

/-- Whether the choice picks exactly one operand. -/
def isResolved : Choice → Bool
  | .left | .right => true
  | _ => false

end Choice

namespace Tape

/-- The number of choice instructions that are resolved. -/
def resolved (t : Tape) (choices : List Choice) : Nat :=
  (t.instrs.toList.zip choices).countP fun (i, c) => i.isChoice && c.isResolved

/-- A tape being simplified: the slot that holds the value of each slot once
resolved choices are passed over, and the operands of each instruction among
those slots. -/
structure Forwarding where
  forward : Array Nat
  args : Array (List Nat)

namespace Forwarding

/-- The slot that holds the value of an instruction at `slot`. -/
def target (slot : Nat) (i : Instr) (c : Choice) (args : List Nat) : Nat :=
  if i.isChoice then
    match c with
    | .left => args.getD 0 0
    | .right => args.getD 1 0
    | _ => slot
  else slot

/-- Enters the instructions that start at `slot`. -/
def enter (f : Forwarding) : Nat → List (Instr × Choice) → Except Fault Forwarding
  | _, [] => .ok f
  | slot, (i, c) :: rest =>
    match lookupAll f.forward i.args with
    | .error e => .error e
    | .ok args =>
      enter ⟨f.forward.setIfInBounds slot (target slot i c args), f.args.push args⟩ (slot + 1) rest

/-- Adds slots to a set. -/
def mark (live : Bitmap) : List Nat → Except Fault Bitmap
  | [] => .ok live
  | s :: rest =>
    match live.set (UInt64.ofNat s) with
    | .error e => .error e
    | .ok live => mark live rest

/-- Adds the operands of every instruction below `n` that is in the set, the
highest one first. -/
def sweep (f : Forwarding) : Nat → Bitmap → Except Fault Bitmap
  | 0, live => .ok live
  | n + 1, live =>
    match live.test (UInt64.ofNat n) with
    | .error e => .error e
    | .ok false => f.sweep n live
    | .ok true =>
      match mark live ((f.args[n]?).getD []) with
      | .error e => .error e
      | .ok live => f.sweep n live

/-- The instruction with the operands in front replaced. -/
def withArgs (i : Instr) : List Nat → Instr
  | [] => i
  | [a] => { i with left := a }
  | a :: b :: _ => { i with left := a, right := b }

/-- The part of a tape that is kept: the new number of each slot, and the
instructions. -/
structure Kept where
  numbers : Array Nat
  instrs : Array Instr

/-- Keeps the instructions in the set, from `slot` on. -/
def keep (f : Forwarding) (live : Bitmap) (k : Kept) : Nat → List Instr → Except Fault Kept
  | _, [] => .ok k
  | slot, i :: rest =>
    match live.test (UInt64.ofNat slot) with
    | .error e => .error e
    | .ok false => f.keep live k (slot + 1) rest
    | .ok true =>
      match lookupAll k.numbers ((f.args[slot]?).getD []) with
      | .error e => .error e
      | .ok args =>
        f.keep live ⟨k.numbers.setIfInBounds slot k.instrs.size, k.instrs.push (withArgs i args)⟩
          (slot + 1) rest

/-- The tape that is left once slots are forwarded. -/
def finish (f : Forwarding) (t : Tape) : Except Fault Tape :=
  match lookupAll f.forward t.outputs.toList with
  | .error e => .error e
  | .ok outputs =>
    match mark (.zeros t.size) outputs with
    | .error e => .error e
    | .ok roots =>
      match f.sweep t.size roots with
      | .error e => .error e
      | .ok live =>
        match f.keep live ⟨Array.replicate t.size 0, #[]⟩ 0 t.instrs.toList with
        | .error e => .error e
        | .ok k =>
          match lookupAll k.numbers outputs with
          | .error e => .error e
          | .ok outputs => .ok ⟨k.instrs, outputs.toArray, t.vars⟩

end Forwarding

/-- Simplifies a tape by one choice for each position. -/
def simplify (t : Tape) (choices : List Choice) : Except TapeError Tape :=
  if choices.length ≠ t.size then .error (.choiceCount choices.length t.size)
  else
    match Forwarding.enter ⟨Array.replicate t.size 0, #[]⟩ 0 (t.instrs.toList.zip choices) with
    | .error e => .error (.fault e)
    | .ok f =>
      match f.finish t with
      | .error e => .error (.fault e)
      | .ok s => .ok s

end Tape

end ScalarField
