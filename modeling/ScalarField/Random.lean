/-
A generator of random numbers, and drawing from it.

The state moves on by an odd constant and is then mixed, so the generator goes
through every state before it returns to the first. A draw that is repeated
until it succeeds therefore succeeds within `period` attempts, if any does.
-/
import ScalarField.Fault
import ScalarField.Number.Arith

namespace ScalarField

/-- The state of the generator. -/
structure Random where
  state : UInt64

namespace Random

/-- The number of states. -/
def period : Nat := 0x10000000000000000

/-- Scrambles a state. -/
def mix (z : UInt64) : UInt64 :=
  let z := (z ^^^ (z >>> 30)) * 0xbf58476d1ce4e5b9
  let z := (z ^^^ (z >>> 27)) * 0x94d049bb133111eb
  z ^^^ (z >>> 31)

/-- The next number below `2 ^ 63`. -/
def next (r : Random) : Nat × Random :=
  let s := r.state + 0x9e3779b97f4a7c15
  ((mix s >>> 1).toNat, ⟨s⟩)

/-- The next number below `2 ^ 31` that is at most `limit`. -/
def upTo (limit : Nat) : Nat → Random → Nat × Random
  | 0, r => (0, r)
  | fuel + 1, r =>
    let (v, r) := r.next
    if v / 0x100000000 ≤ limit then (v / 0x100000000, r) else upTo limit fuel r

/-- A number below `n`, every one being as likely: draws beyond the greatest
multiple of `n` are repeated. A power of two needs no repetition. -/
def below (r : Random) (n : Nat) : Except Fault (Nat × Random) :=
  if n = 0 then .error .emptyChoice
  else
    let (v, r) := upTo (0x7FFFFFFF - 0x80000000 % n) period r
    .ok (v % n, r)

/-- The next number from 0 up to but not including 1. -/
def unitFrom : Nat → Random → Binary64 × Random
  | 0, r => (.zero, r)
  | fuel + 1, r =>
    let (v, r) := r.next
    let x : Binary64 := (Binary.ofInt v).div (.ofInt 0x8000000000000000)
    if x.eq .one then unitFrom fuel r else (x, r)

/-- A number from 0 up to but not including 1. -/
def unit (r : Random) : Binary64 × Random := unitFrom period r

end Random

end ScalarField
