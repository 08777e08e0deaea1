/-
The operators on plain numbers.

`Arith` is the arithmetic that the operators need of a number type, and
`Analytic` adds the functions that are computed at one precision only: a
narrower type widens its operands, applies the function and narrows the
result (`Precision`). Points use doubles for both; lanes and gradients use
singles and widen them to doubles.
-/
import ScalarField.Number.Elementary
import ScalarField.Op

namespace ScalarField

/-- Arithmetic and comparison. -/
class Arith (α : Type) where
  ofInt : Int → α
  nan : α
  isNaN : α → Bool
  lt : α → α → Bool
  eq : α → α → Bool
  neg : α → α
  abs : α → α
  add : α → α → α
  sub : α → α → α
  mul : α → α → α
  div : α → α → α

/-- Functions beyond arithmetic. -/
class Analytic (α : Type) extends Arith α where
  sqrt : α → α
  floor : α → α
  ceil : α → α
  roundEven : α → α
  roundAway : α → α
  sin : α → α
  cos : α → α
  tan : α → α
  asin : α → α
  acos : α → α
  atan : α → α
  exp : α → α
  ln : α → α
  mod : α → α → α
  atan2 : α → α → α

/-- Numbers of type `α` whose functions are computed in `ω`. -/
class Precision (α : Type) (ω : outParam Type) where
  widen : α → ω
  narrow : ω → α

instance {f : Format} : Arith (Binary f) where
  ofInt := .ofInt
  nan := .nan
  isNaN := Binary.isNaN
  lt := Binary.lt
  eq := Binary.eq
  neg := .neg
  abs := .abs
  add := .add
  sub := .sub
  mul := .mul
  div := .div

instance : Analytic Binary64 where
  sqrt := .sqrt
  floor := .floor
  ceil := .ceil
  roundEven := .roundEven
  roundAway := .roundAway
  sin := .sin
  cos := .cos
  tan := .tan
  asin := .asin
  acos := .acos
  atan := .atan
  exp := .exp
  ln := .ln
  mod := .mod
  atan2 := .atan2

instance : Precision Binary64 Binary64 := ⟨id, id⟩

instance : Precision Binary32 Binary64 := ⟨.convert, .convert⟩

namespace Scalar

section

variable {α : Type} [Arith α]

/-- The smaller operand; the second one where they are equal or unordered. -/
def lesser (a b : α) : α := if Arith.lt a b then a else b

/-- The greater operand; the second one where they are equal or unordered. -/
def greater (a b : α) : α := if Arith.lt b a then a else b

/-- The smaller operand, and a NaN if either is one. -/
def min (a b : α) : α := if Arith.isNaN a || Arith.isNaN b then Arith.nan else lesser a b

/-- The greater operand, and a NaN if either is one. -/
def max (a b : α) : α := if Arith.isNaN a || Arith.isNaN b then Arith.nan else greater a b

/-- Minus one, zero or one, and a NaN if either operand is one. -/
def compare (a b : α) : α :=
  if Arith.isNaN a || Arith.isNaN b then Arith.nan
  else if Arith.lt a b then Arith.ofInt (-1)
  else if Arith.lt b a then Arith.ofInt 1
  else Arith.ofInt 0

def isZero (a : α) : Bool := Arith.eq a (Arith.ofInt 0)

/-- One if the operand is zero, zero otherwise. -/
def not (a : α) : α := if isZero a then Arith.ofInt 1 else Arith.ofInt 0

end

section

variable {α ω : Type} [Arith α] [Analytic ω] [Precision α ω]

/-- A function of the wider type. -/
def via (fn : ω → ω) (a : α) : α := Precision.narrow (fn (Precision.widen a))

/-- The euclidean remainder of `a / b`. -/
def mod (a b : α) : α :=
  let r : α := Precision.narrow (Analytic.mod (Precision.widen a) (Precision.widen b))
  if Arith.lt r (Arith.ofInt 0) then Arith.add r (Arith.abs b) else r

def unary : UnaryOp → α → α
  | .neg, a => Arith.neg a
  | .abs, a => Arith.abs a
  | .recip, a => Arith.div (Arith.ofInt 1) a
  | .sqrt, a => via Analytic.sqrt a
  | .square, a => Arith.mul a a
  | .floor, a => via Analytic.floor a
  | .ceil, a => via Analytic.ceil a
  | .round, a => via Analytic.roundEven a
  | .sin, a => via Analytic.sin a
  | .cos, a => via Analytic.cos a
  | .tan, a => via Analytic.tan a
  | .asin, a => via Analytic.asin a
  | .acos, a => via Analytic.acos a
  | .atan, a => via Analytic.atan a
  | .exp, a => via Analytic.exp a
  | .ln, a => via Analytic.ln a
  | .not, a => not a

def binary : BinaryOp → α → α → α
  | .add, a, b => Arith.add a b
  | .sub, a, b => Arith.sub a b
  | .mul, a, b => Arith.mul a b
  | .div, a, b => Arith.div a b
  | .min, a, b => min a b
  | .max, a, b => max a b
  | .mod, a, b => mod a b
  | .atan2, a, b => Precision.narrow (Analytic.atan2 (Precision.widen a) (Precision.widen b))
  | .compare, a, b => compare a b
  | .and, a, b => if isZero a then a else b
  | .or, a, b => if isZero a then b else a

end

end Scalar

end ScalarField
