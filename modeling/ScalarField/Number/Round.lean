/-
Rounding to nearest, ties to even, of an exact quotient of naturals.

Every operation on finite numbers is an exact quotient of naturals in units
followed by one `Binary.round`. A magnitude between two powers of two is a
multiple of a fixed step, so rounding is division by that step.
-/
import ScalarField.Number.Format

namespace ScalarField

/-- What becomes of a remainder `r` of a division by `d` whose quotient is
`q`: whether the quotient is increased by one. -/
abbrev Tie := Nat → Nat → Nat → Bool

/-- To the nearest; halfway to the even quotient. -/
def Tie.toEven : Tie := fun q r d => d < 2 * r || (2 * r == d && q % 2 == 1)

/-- To the nearest; halfway to the greater quotient. -/
def Tie.up : Tie := fun _ r d => d ≤ 2 * r

/-- Never. -/
def Tie.down : Tie := fun _ _ _ => false

/-- Whenever something is left over. -/
def Tie.over : Tie := fun _ r _ => r != 0

/-- `n / d` as a natural, `t` deciding on the remainder. -/
def roundDiv (t : Tie) (n d : Nat) : Nat :=
  if t (n / d) (n % d) d then n / d + 1 else n / d

namespace Format

/-- The power of two that is the step between neighbours at `n / d` units. -/
def step (f : Format) (n d : Nat) : Nat := (n / d).log2 - f.fraction

/-- The magnitude nearest to `n / d` units, infinity not excluded. -/
def magnitudeOf (f : Format) (n d : Nat) : Nat :=
  let s := f.step n d
  s * Nat.pow 2 f.fraction + roundDiv .toEven n (d * Nat.pow 2 s)

end Format

/-- The number of the given sign nearest to `n / d` units. -/
def Binary.round {f : Format} (negative : Bool) (n d : Nat) : Binary f :=
  .ofMagnitude negative (f.magnitudeOf n d)

/-- The integer part of the square root of a number of at most `k` digits in
base four. -/
def natSqrtOf : Nat → Nat → Nat
  | 0, _ => 0
  | k + 1, n =>
    let r := 2 * natSqrtOf k (n / 4)
    if (r + 1) * (r + 1) ≤ n then r + 1 else r

/-- The integer part of the square root. -/
def natSqrt (n : Nat) : Nat := natSqrtOf (n.log2 / 2 + 1) n

end ScalarField
