/-
Values with their partial derivatives, and the rules by which the operators
carry derivatives forward.

The rules are stated for every number type, so that they can be read at single
precision, where each operation rounds, and over the reals, where they are the
rules of calculus.
-/
import ScalarField.Eval.Scalar

namespace ScalarField

/-- A value with its derivatives by the first three variables. -/
structure Grad (α : Type) where
  v : α
  dx : α
  dy : α
  dz : α
  deriving DecidableEq

namespace Grad

section

variable {α : Type} [Arith α]

/-- A value that does not vary. -/
def const (v : α) : Grad α := ⟨v, Arith.ofInt 0, Arith.ofInt 0, Arith.ofInt 0⟩

/-- The value `v`, with `fn` applied to each derivative. -/
def derive (v : α) (fn : α → α) (a : Grad α) : Grad α := ⟨v, fn a.dx, fn a.dy, fn a.dz⟩

/-- The value `v`, with `fn` applied to each pair of derivatives. -/
def derive₂ (v : α) (fn : α → α → α) (a b : Grad α) : Grad α :=
  ⟨v, fn a.dx b.dx, fn a.dy b.dy, fn a.dz b.dz⟩

/-- The value `v`, with the derivatives of `a` times the slope `k`. -/
def scale (v k : α) (a : Grad α) : Grad α := derive v (Arith.mul · k) a

def neg (a : Grad α) : Grad α := derive (Arith.neg a.v) Arith.neg a

def nan : Grad α := ⟨Arith.nan, Arith.nan, Arith.nan, Arith.nan⟩

/-- The operand that `min` yields. -/
def min (a b : Grad α) : Grad α :=
  if Arith.isNaN a.v || Arith.isNaN b.v then nan
  else if Arith.lt a.v b.v then a else b

/-- The operand that `max` yields. -/
def max (a b : Grad α) : Grad α :=
  if Arith.isNaN a.v || Arith.isNaN b.v then nan
  else if Arith.lt b.v a.v then a else b

/-- The inputs of a point: the first three variables vary with themselves, the
others with none. -/
def seed (x y z : α) (rest : List α) : List (Grad α) :=
  let zero : α := Arith.ofInt 0
  let one : α := Arith.ofInt 1
  ⟨x, one, zero, zero⟩ :: ⟨y, zero, one, zero⟩ :: ⟨z, zero, zero, one⟩ :: rest.map const

end

section

variable {α ω : Type} [Arith α] [Analytic ω] [Precision α ω]

/-- `1 / sqrt (1 - v ^ 2)`. -/
def asinSlope (v : ω) : ω :=
  Arith.div (Arith.ofInt 1) (Analytic.sqrt (Arith.sub (Arith.ofInt 1) (Arith.mul v v)))

/-- `-1 / sqrt (1 - v ^ 2)`. -/
def acosSlope (v : ω) : ω :=
  Arith.div (Arith.ofInt (-1)) (Analytic.sqrt (Arith.sub (Arith.ofInt 1) (Arith.mul v v)))

/-- `1 / (1 + v ^ 2)`. -/
def atanSlope (v : ω) : ω :=
  Arith.div (Arith.ofInt 1) (Arith.add (Arith.ofInt 1) (Arith.mul v v))

/-- `1 / cos v ^ 2`. -/
def tanSlope (v : ω) : ω :=
  Arith.div (Arith.ofInt 1) (Arith.mul (Analytic.cos v) (Analytic.cos v))

/-- A function of the wider type and its slope. -/
def analytic (fn slope : ω → ω) (a : Grad α) : Grad α :=
  a.scale (Scalar.via fn a.v) (Scalar.via slope a.v)

/-- `a` times `b`: each derivative is `a' * b + a * b'`. -/
def mul (a b : Grad α) : Grad α :=
  derive₂ (Arith.mul a.v b.v)
    (fun da db => Arith.add (Arith.mul da b.v) (Arith.mul a.v db)) a b

/-- `a` by `b`: each derivative is `(a' * b - a * b') / b ^ 2`. -/
def div (a b : Grad α) : Grad α :=
  derive₂ (Arith.div a.v b.v)
    (fun da db =>
      Arith.div (Arith.sub (Arith.mul da b.v) (Arith.mul a.v db)) (Arith.mul b.v b.v)) a b

/-- The remainder: the derivative of the quotient, an integer, is zero. -/
def mod (a b : Grad α) : Grad α :=
  let v := Scalar.mod a.v b.v
  let q : α := Scalar.via Analytic.roundAway (Arith.div (Arith.sub a.v v) b.v)
  derive₂ v (fun da db => Arith.sub da (Arith.mul q db)) a b

/-- The angle: each derivative is `(b * a' - a * b') / (a ^ 2 + b ^ 2)`. -/
def atan2 (a b : Grad α) : Grad α :=
  let square := Arith.add (Arith.mul a.v a.v) (Arith.mul b.v b.v)
  derive₂ (Precision.narrow (Analytic.atan2 (Precision.widen a.v) (Precision.widen b.v)))
    (fun da db => Arith.div (Arith.sub (Arith.mul b.v da) (Arith.mul a.v db)) square) a b

def unary : UnaryOp → Grad α → Grad α
  | .neg, a => a.neg
  | .abs, a => if Arith.lt a.v (Arith.ofInt 0) then a.neg else a
  | .recip, a =>
    derive (Arith.div (Arith.ofInt 1) a.v)
      (fun da => Arith.div (Arith.neg da) (Arith.mul a.v a.v)) a
  | .sqrt, a =>
    let v := Scalar.via Analytic.sqrt a.v
    derive v (Arith.div · (Arith.add v v)) a
  | .square, a => a.scale (Arith.mul a.v a.v) (Arith.add a.v a.v)
  | .floor, a => const (Scalar.via Analytic.floor a.v)
  | .ceil, a => const (Scalar.via Analytic.ceil a.v)
  | .round, a => const (Scalar.via Analytic.roundEven a.v)
  | .sin, a => a.analytic Analytic.sin Analytic.cos
  | .cos, a => a.analytic Analytic.cos fun v => Arith.neg (Analytic.sin v)
  | .tan, a => a.analytic Analytic.tan tanSlope
  | .asin, a => a.analytic Analytic.asin asinSlope
  | .acos, a => a.analytic Analytic.acos acosSlope
  | .atan, a => a.analytic Analytic.atan atanSlope
  | .exp, a => a.analytic Analytic.exp Analytic.exp
  | .ln, a => a.scale (Scalar.via Analytic.ln a.v) (Arith.div (Arith.ofInt 1) a.v)
  | .not, a => const (Scalar.not a.v)

def binary : BinaryOp → Grad α → Grad α → Grad α
  | .add, a, b => derive₂ (Arith.add a.v b.v) Arith.add a b
  | .sub, a, b => derive₂ (Arith.sub a.v b.v) Arith.sub a b
  | .mul, a, b => a.mul b
  | .div, a, b => a.div b
  | .min, a, b => a.min b
  | .max, a, b => a.max b
  | .mod, a, b => a.mod b
  | .atan2, a, b => a.atan2 b
  | .compare, a, b => const (Scalar.compare a.v b.v)
  | .and, a, b => if Scalar.isZero a.v then a else b
  | .or, a, b => if Scalar.isZero a.v then b else a

end

end Grad

end ScalarField
