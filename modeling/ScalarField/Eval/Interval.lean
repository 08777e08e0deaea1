/-
The operators on intervals of doubles, and the choices they make.

A sum or product of bounds is taken in the order in which packed arithmetic
takes it, so that both give the same bits. An interval with a NaN bound, or
an indeterminate corner, makes no promise about the values it stands for.
-/
import ScalarField.Eval.Scalar
import ScalarField.Number.Print
import ScalarField.Tape.Choice

namespace ScalarField

/-- The numbers from `lo` to `hi`. -/
structure Interval where
  lo : Binary64
  hi : Binary64
  deriving DecidableEq

namespace Interval

/-- The interval of one number. -/
def splat (v : Binary64) : Interval := ⟨v, v⟩

def zero : Interval := splat .zero

def contains (a : Interval) (v : Binary64) : Bool := a.lo.le v && v.le a.hi

/-- Whether a bound is no number. -/
def hasNaN (a : Interval) : Bool := a.lo.isNaN || a.hi.isNaN

def width (a : Interval) : Binary64 := a.hi.sub a.lo

/-- The middle of the interval. -/
def mid (a : Interval) : Binary64 := a.lo.add ((a.hi.sub a.lo).div (.ofInt 2))

def print (a : Interval) : Bytes := utf8 "[" ++ a.lo.print ++ utf8 ", " ++ a.hi.print ++ utf8 "]"

/-- No interval. -/
def nan : Interval := ⟨.nan, .nan⟩

/-- All numbers. -/
def everything : Interval := ⟨.infinity true, .infinity false⟩

/-- Whether zero lies in the interval. -/
def straddles (a : Interval) : Bool := a.lo.le .zero && Binary.zero.le a.hi

/-- Whether the interval is zero alone. -/
def isZero (a : Interval) : Bool := a.lo.eq .zero && a.hi.eq .zero

/-- Whether zero lies outside the interval. -/
def isNonzero (a : Interval) : Bool := Binary.zero.lt a.lo || a.hi.lt .zero

/-- The smallest interval around two. -/
def hull (a b : Interval) : Interval := ⟨Scalar.min a.lo b.lo, Scalar.max a.hi b.hi⟩

/-- The smallest interval around the four bounds, or everything if one of them
is indeterminate. -/
def corners (p q : Interval) : Interval :=
  if p.hasNaN || q.hasNaN then everything
  else
    ⟨Scalar.lesser (Scalar.lesser p.lo q.lo) (Scalar.lesser p.hi q.hi),
      Scalar.greater (Scalar.greater p.lo q.lo) (Scalar.greater p.hi q.hi)⟩

/-- Absolute values. -/
def abs (a : Interval) : Interval :=
  ⟨Scalar.greater (Scalar.greater a.lo a.hi.neg) .zero,
    Scalar.greater (Scalar.greater a.hi a.lo.neg) .zero⟩

def recip (a : Interval) : Interval :=
  if a.straddles then everything
  else
    let p := Binary.one.div a.lo
    let q := Binary.one.div a.hi
    ⟨Scalar.lesser p q, Scalar.greater q p⟩

def sqrt (a : Interval) : Interval :=
  if a.hi.lt .zero then nan
  else ⟨(Scalar.greater .zero a.lo).sqrt, (Scalar.greater .zero a.hi).sqrt⟩

def square (a : Interval) : Interval := ⟨a.abs.lo.mul a.abs.lo, a.abs.hi.mul a.abs.hi⟩

/-- Both bounds through a function that keeps their order. -/
def map (fn : Binary64 → Binary64) (a : Interval) : Interval := ⟨fn a.lo, fn a.hi⟩

def twoPi : Binary64 := Binary.pi.mul (.ofInt 2)

def halfPi : Binary64 := Binary.pi.div (.ofInt 2)

/-- Whether an angle that differs from `c` by full turns lies in the
interval. -/
def hasPhase (a : Interval) (c : Binary64) : Bool :=
  let k := ((a.lo.sub c).div twoPi).ceil
  (c.add ((k.mul (.ofInt 2)).mul .pi)).le a.hi

/-- A function of period a full turn that is 1 at `top`, -1 at `bottom` and
monotone between them. -/
def periodic (fn : Binary64 → Binary64) (top bottom : Binary64) (a : Interval) : Interval :=
  if a.hasNaN then nan
  else if a.lo.isInf || a.hi.isInf || twoPi.le (a.hi.sub a.lo) then ⟨.ofInt (-1), .one⟩
  else
    let p := fn a.lo
    let q := fn a.hi
    ⟨if a.hasPhase bottom then .ofInt (-1) else p.minimum q,
      if a.hasPhase top then .one else p.maximum q⟩

/-- The tangent has a pole at a quarter turn and at every half turn from
there. -/
def tan (a : Interval) : Interval :=
  if a.hasNaN then nan
  else if a.lo.isInf || a.hi.isInf || Binary.pi.le (a.hi.sub a.lo) then everything
  else
    let k := ((a.lo.sub halfPi).div .pi).ceil
    if (halfPi.add (k.mul .pi)).le a.hi then everything else ⟨a.lo.tan, a.hi.tan⟩

/-- Whether a function defined from -1 to 1 has no value in the interval. -/
def offUnit (a : Interval) : Bool :=
  a.hasNaN || a.hi.lt (.ofInt (-1)) || Binary.one.lt a.lo

def asin (a : Interval) : Interval :=
  if a.offUnit then nan
  else ⟨(a.lo.maximum (.ofInt (-1))).asin, (a.hi.minimum .one).asin⟩

def acos (a : Interval) : Interval :=
  if a.offUnit then nan
  else ⟨(a.hi.minimum .one).acos, (a.lo.maximum (.ofInt (-1))).acos⟩

def ln (a : Interval) : Interval :=
  if a.hasNaN || a.hi.lt .zero then nan
  else if a.lo.le .zero then ⟨.infinity true, a.hi.ln⟩
  else ⟨a.lo.ln, a.hi.ln⟩

def not (a : Interval) : Interval :=
  if a.isZero then splat .one else if a.isNonzero then splat .zero else ⟨.zero, .one⟩

def add (a b : Interval) : Interval := ⟨a.lo.add b.lo, a.hi.add b.hi⟩

def sub (a b : Interval) : Interval := ⟨a.lo.add b.hi.neg, a.hi.add b.lo.neg⟩

def mul (a b : Interval) : Interval :=
  corners ⟨a.lo.mul b.lo, a.hi.mul b.hi⟩ ⟨a.lo.mul b.hi, a.hi.mul b.lo⟩

def div (a b : Interval) : Interval :=
  if b.straddles then everything
  else corners ⟨a.lo.div b.lo, a.hi.div b.hi⟩ ⟨a.lo.div b.hi, a.hi.div b.lo⟩

def min (a b : Interval) : Interval := ⟨Scalar.min a.lo b.lo, Scalar.min a.hi b.hi⟩

def max (a b : Interval) : Interval := ⟨Scalar.max a.lo b.lo, Scalar.max a.hi b.hi⟩

/-- Remainders: those of one period if the divisor is one number and the
dividends do not leave a period, and any remainder otherwise. -/
def mod (a b : Interval) : Interval :=
  if a.hasNaN || b.hasNaN then nan
  else
    let m := b.lo.abs.maximum b.hi.abs
    if b.lo.eq b.hi && !m.eq .zero && !m.isInf && !a.lo.isInf && !a.hi.isInf &&
        (a.lo.div m).floor.eq (a.hi.div m).floor then
      ⟨Scalar.mod a.lo b.lo, Scalar.mod a.hi b.lo⟩
    else ⟨.zero, m⟩

/-- Angles of the points with ordinate in `y` and abscissa in `x`: to the right
of the axis the extremes are at corners. -/
def atan2 (y x : Interval) : Interval :=
  if y.hasNaN || x.hasNaN then nan
  else if Binary.zero.lt x.lo then
    let c := y.lo.atan2 x.lo
    let rest := [y.lo.atan2 x.hi, y.hi.atan2 x.lo, y.hi.atan2 x.hi]
    ⟨rest.foldl .minimum c, rest.foldl .maximum c⟩
  else ⟨Binary.pi.neg, .pi⟩

def compare (a b : Interval) : Interval :=
  if a.hasNaN || b.hasNaN then nan
  else if a.hi.lt b.lo then splat (.ofInt (-1))
  else if b.hi.lt a.lo then splat .one
  else
    ⟨if a.lo.lt b.hi then .ofInt (-1) else .zero, if b.lo.lt a.hi then .one else .zero⟩

def and (a b : Interval) : Interval :=
  if a.hasNaN then hull a b
  else if a.isZero then a
  else if a.isNonzero then b
  else hull b zero

def or (a b : Interval) : Interval :=
  if a.hasNaN then hull a b
  else if a.isNonzero then a
  else if a.isZero then b
  else hull a b

def unary : UnaryOp → Interval → Interval
  | .neg, a => ⟨a.hi.neg, a.lo.neg⟩
  | .abs, a => a.abs
  | .recip, a => a.recip
  | .sqrt, a => a.sqrt
  | .square, a => a.square
  | .floor, a => a.map .floor
  | .ceil, a => a.map .ceil
  | .round, a => a.map .roundEven
  | .sin, a => a.periodic .sin halfPi halfPi.neg
  | .cos, a => a.periodic .cos .zero .pi
  | .tan, a => a.tan
  | .asin, a => a.asin
  | .acos, a => a.acos
  | .atan, a => a.map .atan
  | .exp, a => a.map .exp
  | .ln, a => a.ln
  | .not, a => a.not

def binary : BinaryOp → Interval → Interval → Interval
  | .add, a, b => a.add b
  | .sub, a, b => a.sub b
  | .mul, a, b => a.mul b
  | .div, a, b => a.div b
  | .min, a, b => a.min b
  | .max, a, b => a.max b
  | .mod, a, b => a.mod b
  | .atan2, a, b => a.atan2 b
  | .compare, a, b => a.compare b
  | .and, a, b => a.and b
  | .or, a, b => a.or b

/-! ## Choices -/

/-- Left if `a` lies below `b`, else right if it lies above. -/
def below (a b : Interval) : Choice :=
  if a.hi.lt b.lo then .left else if b.hi.lt a.lo then .right else .both

/-- Left if `a` lies above `b`, else right if it lies below. -/
def above (a b : Interval) : Choice :=
  if b.hi.lt a.lo then .left else if a.hi.lt b.lo then .right else .both

/-- The operand that an operator yields over the whole intervals. -/
def choice : BinaryOp → Interval → Interval → Choice
  | .min, a, b => a.below b
  | .max, a, b => a.above b
  | .and, a, _ =>
    if a.hasNaN then .both
    else if a.isZero then .left
    else if a.isNonzero then .right
    else .both
  | .or, a, _ =>
    if a.hasNaN then .both
    else if a.isNonzero then .left
    else if a.isZero then .right
    else .both
  | _, _, _ => .unknown

/-- The choice as two bits that are found apart, neither meaning either
operand. -/
def choiceOfBits (left right : Bool) : Choice :=
  match left, right with
  | true, false => .left
  | false, true => .right
  | _, _ => .both

/-- The choice that compiled code records. -/
def compiledChoice : BinaryOp → Interval → Interval → Choice
  | .min, a, b => choiceOfBits (a.hi.lt b.lo) (b.hi.lt a.lo)
  | .max, a, b => choiceOfBits (b.hi.lt a.lo) (a.hi.lt b.lo)
  | _, _, _ => .unknown

end Interval

end ScalarField
