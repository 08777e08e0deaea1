/-
The shortest decimal that reads back as a given number.

The reals that round to a number form an interval around it, ends included
when its magnitude is even. Among the decimals in that interval, the ones on
the coarsest grid of powers of ten are shortest; only the number's two
neighbours on a grid have to be looked at, and of two the nearer wins.
-/
import ScalarField.Number.Round

namespace ScalarField

/-- The number `coefficient * 10 ^ exponent`. -/
structure Decimal where
  coefficient : Nat
  exponent : Int
  deriving DecidableEq

/-- A positive rational `value / scale` with the interval around it that a
decimal has to hit. -/
structure Target where
  low : Nat
  value : Nat
  high : Nat
  scale : Nat
  closed : Bool

namespace Target

/-- The reals that round to the finite positive magnitude `m`. -/
def ofMagnitude (f : Format) (m : Nat) : Target where
  low := f.units (m - 1) + f.units m
  value := 2 * f.units m
  high := f.units m + f.units (m + 1)
  scale := 2 * f.one
  closed := m % 2 == 0

/-- The target in units of `10 ^ p`. -/
def inUnitsOf (t : Target) (p : Int) : Target :=
  if p < 0 then
    let k := Nat.pow 10 (-p).toNat
    { t with low := t.low * k, value := t.value * k, high := t.high * k }
  else { t with scale := t.scale * Nat.pow 10 p.toNat }

/-- Whether the integer `c` lies in the interval. -/
def hits (t : Target) (c : Nat) : Bool :=
  if t.closed then t.low ≤ c * t.scale && c * t.scale ≤ t.high
  else t.low < c * t.scale && c * t.scale < t.high

/-- The integer next to the value that lies in the interval, if one does. -/
def neighbour? (t : Target) : Option Nat :=
  let c := t.value / t.scale
  match t.hits c, t.hits (c + 1) with
  | true, true => some (roundDiv .toEven t.value t.scale)
  | true, false => some c
  | false, true => some (c + 1)
  | false, false => none

/-- The first hit among the grids `10 ^ p`, `10 ^ (p - 1)`, …, at most `n` of
them; if there is none, the value cut off on the last grid. -/
def search (t : Target) : Nat → Int → Decimal
  | 0, p => ⟨(t.inUnitsOf p).value / (t.inUnitsOf p).scale, p⟩
  | n + 1, p =>
    match (t.inUnitsOf p).neighbour? with
    | some c => ⟨c, p⟩
    | none => search t n (p - 1)

/-- An exponent of ten above the value. -/
def above (t : Target) : Int :=
  ((t.value.log2 : Int) - t.scale.log2) * 30103 / 100000 + 2

/-- The shortest decimal in the interval, the one nearest to the value. -/
def shortest (t : Target) : Decimal := t.search 24 t.above

end Target

end ScalarField
