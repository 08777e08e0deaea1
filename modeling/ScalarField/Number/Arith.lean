/-
Arithmetic: each operation is its exact result, rounded once.
-/
import ScalarField.Number.Round

namespace ScalarField

namespace Binary

variable {f g : Format}

/-- The finite number of `n` units; an exact zero takes the sign `zeroSign`. -/
def ofUnits (zeroSign : Bool) (n : Int) : Binary f :=
  if n = 0 then ofMagnitude zeroSign 0 else round (n < 0) n.natAbs 1

/-- The value of a finite number in units. -/
def toUnits (x : Binary f) : Int := if x.negative then -x.units else x.units

def add (x y : Binary f) : Binary f :=
  if x.isNaN || y.isNaN then nan
  else if x.isInf then (if y.isInf && x.negative != y.negative then nan else x)
  else if y.isInf then y
  else ofUnits (x.negative && y.negative) (x.toUnits + y.toUnits)

def sub (x y : Binary f) : Binary f := add x y.neg

def mul (x y : Binary f) : Binary f :=
  let s := x.negative != y.negative
  if x.isNaN || y.isNaN then nan
  else if x.isInf || y.isInf then (if x.isZero || y.isZero then nan else infinity s)
  else round s (x.units * y.units) f.one

def div (x y : Binary f) : Binary f :=
  let s := x.negative != y.negative
  if x.isNaN || y.isNaN then nan
  else if x.isInf then (if y.isInf then nan else infinity s)
  else if y.isInf then ofMagnitude s 0
  else if y.isZero then (if x.isZero then nan else infinity s)
  else round s (x.units * f.one) y.units

/-- The square root, read off the integer square root of four quarters of the
exact one; a last digit stands for what that root leaves over. -/
def sqrt (x : Binary f) : Binary f :=
  if x.isNaN then nan
  else if x.isZero then x
  else if x.negative then nan
  else if x.isInf then x
  else
    let n := x.units * f.one * 16
    let r := natSqrt n
    round false (if r * r = n then 2 * r else 2 * r + 1) 8

/-- The number of `n` ones. -/
def ofInt (n : Int) : Binary f := ofUnits false (n * f.one)

def one : Binary f := ofInt 1

/-- The integer next to a number, `t` deciding on what stands behind the
point of its absolute value. The sign stays, also on a zero. -/
def toIntegral (t : Bool → Tie) (x : Binary f) : Binary f :=
  if x.isNaN then nan
  else if x.isInf then x
  else round x.negative (roundDiv (t x.negative) x.units f.one * f.one) 1

def floor (x : Binary f) : Binary f := x.toIntegral fun s => if s then .over else .down

def ceil (x : Binary f) : Binary f := x.toIntegral fun s => if s then .down else .over

/-- To the nearest integer, halfway to the even one. -/
def roundEven (x : Binary f) : Binary f := x.toIntegral fun _ => .toEven

/-- To the nearest integer, halfway away from zero. -/
def roundAway (x : Binary f) : Binary f := x.toIntegral fun _ => .up

/-- The exact remainder of the division truncated toward zero; it has the
sign of `x`. -/
def mod (x y : Binary f) : Binary f :=
  if x.isNaN || y.isNaN || x.isInf || y.isZero then nan
  else if y.isInf then x
  else round x.negative (x.units % y.units) 1

/-- The same value in another format, rounded if it has to be. -/
def convert (x : Binary f) : Binary g :=
  if x.isNaN then nan
  else if x.isInf then infinity x.negative
  else round x.negative (x.units * g.one) f.one

/-- The smaller number; of the two zeros, the negative one. A negative
infinity wins over everything, then a NaN. -/
def minimum (x y : Binary f) : Binary f :=
  if (x.isInf && x.negative) || (y.isInf && y.negative) then infinity true
  else if x.isNaN || y.isNaN then nan
  else if x.isZero && y.isZero then (if x.negative then x else y)
  else if x.lt y then x else y

/-- The greater number; of the two zeros, the positive one. A positive
infinity wins over everything, then a NaN. -/
def maximum (x y : Binary f) : Binary f :=
  if (x.isInf && !x.negative) || (y.isInf && !y.negative) then infinity false
  else if x.isNaN || y.isNaN then nan
  else if x.isZero && y.isZero then (if x.negative then y else x)
  else if y.lt x then x else y

end Binary

end ScalarField
