/-
Faults: a step that its data do not allow. A tape that has been checked, and a
caller that keeps to the sizes it is told, never cause one.
-/
import ScalarField.Op

namespace ScalarField

inductive Fault where
  /-- An index outside its table, a division by zero or memory given back. -/
  | range
  /-- An instruction without an operator reached an evaluator. -/
  | unexpectedOp (code : UInt8)
  /-- A byte stored into a constant of the code. -/
  | constantStore
  /-- A byte stored from a register without a plain low byte. -/
  | byteStore (register : UInt8)
  /-- A random choice among nothing. -/
  | emptyChoice
  deriving DecidableEq

/-- The words for a fault, where it has any. -/
def Fault.message : Fault → Option Bytes
  | .range => none
  | .unexpectedOp c => some (utf8 "eval: unexpected op " ++ utf8 (Op.nameOfCode c))
  | .constantStore => some (utf8 "amd64: store to constant pool")
  | .byteStore r => some (utf8 "amd64: byte store from " ++ Bytes.ofNat r.toNat)
  | .emptyChoice => some (utf8 "invalid argument to Intn")

/-- The entry of a table. -/
def lookup {α : Type} (table : Array α) (i : Nat) : Except Fault α :=
  match table[i]? with
  | some x => .ok x
  | none => .error .range

/-- The entries of a table. -/
def lookupAll {α : Type} (table : Array α) : List Nat → Except Fault (List α)
  | [] => .ok []
  | i :: rest =>
    match lookup table i, lookupAll table rest with
    | .ok x, .ok xs => .ok (x :: xs)
    | .error e, _ => .error e
    | _, .error e => .error e

/-- The table with one entry replaced. -/
def update {α : Type} (table : Array α) (i : Nat) (x : α) : Except Fault (Array α) :=
  if i < table.size then .ok (table.setIfInBounds i x) else .error .range

end ScalarField
