/-
Binary floating-point numbers of any interchange format.

A number is a sign and a magnitude: the bits below the sign, read as one
natural number. Magnitudes are ordered as the absolute values they stand for,
so comparing two numbers is comparing two integers (`key`). The value of a
finite magnitude is counted in `units`, the smallest positive number of the
format being one unit; then every finite number is an integer and `one` is
the number 1.
-/
namespace ScalarField

/-- The widths of a binary interchange format. -/
structure Format where
  /-- Bits of the significand that are stored. -/
  fraction : Nat
  /-- Bits of the exponent. -/
  exponent : Nat
  deriving DecidableEq

namespace Format

def binary32 : Format := ⟨23, 8⟩
def binary64 : Format := ⟨52, 11⟩

/-- Bits below the sign. -/
def below (f : Format) : Nat := f.fraction + f.exponent

/-- The magnitude of infinity; greater ones are not numbers. -/
def infinity (f : Format) : Nat := (Nat.pow 2 f.exponent - 1) * Nat.pow 2 f.fraction

/-- The number 1 in units. -/
def one (f : Format) : Nat := Nat.pow 2 (Nat.pow 2 (f.exponent - 1) - 2 + f.fraction)

/-- The value of a finite magnitude in units. -/
def units (f : Format) (m : Nat) : Nat :=
  let e := m / Nat.pow 2 f.fraction
  let r := m % Nat.pow 2 f.fraction
  if e = 0 then r else (Nat.pow 2 f.fraction + r) * Nat.pow 2 (e - 1)

theorem infinity_lt (f : Format) : f.infinity < Nat.pow 2 f.below := by
  have h : 0 < Nat.pow 2 f.fraction := Nat.pow_pos (by decide)
  have he : 0 < Nat.pow 2 f.exponent := Nat.pow_pos (by decide)
  have hb : Nat.pow 2 f.below = Nat.pow 2 f.exponent * Nat.pow 2 f.fraction := by
    rw [below, Nat.add_comm]
    exact Nat.pow_add 2 f.exponent f.fraction
  rw [hb]
  exact Nat.mul_lt_mul_of_pos_right (Nat.sub_lt he Nat.one_pos) h

end Format

/-- A floating-point number of format `f`, with every bit of it. -/
structure Binary (f : Format) where
  negative : Bool
  magnitude : Nat
  bound : magnitude < Nat.pow 2 f.below
  deriving DecidableEq

/-- Double precision. -/
abbrev Binary64 := Binary .binary64

/-- Single precision. -/
abbrev Binary32 := Binary .binary32

namespace Binary

variable {f : Format}

/-- The number whose bits are the lowest ones of `n`. -/
def ofBits (n : Nat) : Binary f where
  negative := (n / Nat.pow 2 f.below) % 2 == 1
  magnitude := n % Nat.pow 2 f.below
  bound := Nat.mod_lt _ (Nat.pow_pos (by decide))

/-- All bits of a number, the sign on top. -/
def bits (x : Binary f) : Nat := (if x.negative then Nat.pow 2 f.below else 0) + x.magnitude

/-- The number with the given sign and magnitude; from infinity on it is
infinity. -/
def ofMagnitude (negative : Bool) (m : Nat) : Binary f where
  negative := negative
  magnitude := min m f.infinity
  bound := Nat.lt_of_le_of_lt (Nat.min_le_right _ _) f.infinity_lt

def zero : Binary f := ofMagnitude false 0

def infinity (negative : Bool) : Binary f := ofMagnitude negative f.infinity

/-- The one value that stands for no number wherever an operation has none. -/
def nan : Binary f := ofBits (f.infinity + Nat.pow 2 (f.fraction - 1))

def isNaN (x : Binary f) : Bool := f.infinity < x.magnitude

def isInf (x : Binary f) : Bool := x.magnitude == f.infinity

def isZero (x : Binary f) : Bool := x.magnitude == 0

/-- The absolute value in units, of a finite number. -/
def units (x : Binary f) : Nat := f.units x.magnitude

/-- The integer that a number compares by. -/
def key (x : Binary f) : Int := if x.negative then -x.magnitude else x.magnitude

/-- Whether two numbers compare at all. -/
def ordered (x y : Binary f) : Bool := !x.isNaN && !y.isNaN

def lt (x y : Binary f) : Bool := ordered x y && x.key < y.key

def le (x y : Binary f) : Bool := ordered x y && x.key ≤ y.key

/-- Equality of values: both zeros are equal, and nothing equals a NaN. -/
def eq (x y : Binary f) : Bool := ordered x y && x.key == y.key

/-- The number with the other sign. -/
def neg (x : Binary f) : Binary f := { x with negative := !x.negative }

def abs (x : Binary f) : Binary f := { x with negative := false }

instance : Inhabited (Binary f) := ⟨zero⟩

end Binary

end ScalarField
