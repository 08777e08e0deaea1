/-
Intervals: the two bounds as doubles, the lower one in the lowest lane. The
code of `min` and `max` also records which operand it yields.
-/
import ScalarField.Code.Template
import ScalarField.Tape.Choice

namespace ScalarField

namespace Template

namespace Bounds

/-- `d := max (max a (-swap a)) 0`, the absolute values. -/
def abs (d a : Xmm) : List Insn :=
  [.movaps .tmp0 a, .shuf .pd .tmp0 .tmp0 1, .bitMem .pd BitCode.xor .tmp0 signs64, .movaps d a,
    .arith .pd ArithCode.max d .tmp0, .bit .pd BitCode.xor .tmp0 .tmp0,
    .arith .pd ArithCode.max d .tmp0]

/-- Both lanes of `tmp0` become all ones if zero lies in `x`, and zero
otherwise. -/
def straddle (x : Xmm) : List Insn :=
  [.movq .tmp0 x, .movaps .tmp1 x,
    .bitMem .pd BitCode.and .tmp1 (.const (.ofQuads 0 (.allOnes 64))),
    .cmp .pd Predicate.le .tmp0 .tmp1, .movaps .tmp1 .tmp0, .shuf .pd .tmp1 .tmp1 1,
    .bit .pd BitCode.and .tmp0 .tmp1]

/-- `d` becomes everything where the mask `m` is set. -/
def unbounded (d m : Xmm) : List Insn :=
  [.movaps .tmp1 m, .bitMem .pd BitCode.and .tmp1 (doubles (.infinity true) (.infinity false)),
    .bit .pd BitCode.andNot m d, .bit .pd BitCode.or m .tmp1, .movaps d m]

/-- The smallest interval around the four corners of a product or quotient, or
everything if a corner is no number or a divisor may be zero. -/
def corners (op : UInt8) (d a b : Xmm) : List Insn :=
  binop .pd op d a b ++
    [.movaps .tmp0 b, .shuf .pd .tmp0 .tmp0 1, .movaps .tmp1 a, .arith .pd op .tmp1 .tmp0,
      .movaps .tmp2 d, .cmp .pd Predicate.unordered .tmp2 .tmp1, .movaps .tmp0 d,
      .arith .pd ArithCode.max .tmp0 .tmp1, .arith .pd ArithCode.min d .tmp1, .movaps .tmp1 d,
      .shuf .pd .tmp1 .tmp1 1, .arith .sd ArithCode.min d .tmp1, .movaps .tmp1 .tmp0,
      .shuf .pd .tmp1 .tmp1 1, .arith .sd ArithCode.max .tmp0 .tmp1, .unpackLow d .tmp0,
      .movaps .tmp1 .tmp2, .shuf .pd .tmp1 .tmp1 1, .bit .pd BitCode.or .tmp2 .tmp1] ++
    (if op = ArithCode.div then straddle b ++ [.bit .pd BitCode.or .tmp2 .tmp0] else []) ++
    unbounded d .tmp2

/-- Records the choice at a position: bit 0 if `x` lies below `y`, bit 1 if `y`
lies below `x`, and both bits if neither does. -/
def record (pos : Nat) (x y : Xmm) : List Insn :=
  [.movaps .tmp0 x, .unpackHigh .tmp0 y, .movaps .tmp1 y, .unpackLow .tmp1 x,
    .cmp .pd Predicate.lt .tmp0 .tmp1, .moveMask .rax .tmp0,
    .movImm .r8 Choice.both.code.toUInt32, .test .rax .rax, .cmovz .rax .r8,
    .storeByte .rcx (.ofNat pos) .rax]

/-- `d := [-a.hi, -a.lo]`. -/
def neg (d a : Xmm) : List Insn :=
  [.movaps d a, .shuf .pd d d 1, .bitMem .pd BitCode.xor d signs64]

/-- The roots of the bounds, and no number if the upper bound is negative. -/
def sqrt (d a : Xmm) : List Insn :=
  [.bit .pd BitCode.xor d d, .arith .pd ArithCode.max d a, .arith .pd ArithCode.sqrt d d,
    .movaps .tmp0 a, .shuf .pd .tmp0 .tmp0 3, .bit .pd BitCode.xor .tmp1 .tmp1,
    .cmp .pd Predicate.lt .tmp0 .tmp1, .bit .pd BitCode.or d .tmp0]

def recip (d a : Xmm) : List Insn :=
  [.load .pd d (doubles .one .one), .arith .pd ArithCode.div d a, .movaps .tmp0 d,
    .shuf .pd .tmp0 .tmp0 1, .movaps .tmp1 d, .arith .pd ArithCode.min .tmp1 .tmp0,
    .arith .pd ArithCode.max d .tmp0, .movLow .sd d .tmp1] ++
    straddle a ++ unbounded d .tmp0

/-- `d := [a.lo + -b.hi, a.hi + -b.lo]`. -/
def sub (d a b : Xmm) : List Insn :=
  [.movaps .tmp0 b, .shuf .pd .tmp0 .tmp0 1, .bitMem .pd BitCode.xor .tmp0 signs64] ++
    binop .pd ArithCode.add d a .tmp0

def unary (l : Level) (op : UnaryOp) (d a : Xmm) : Option (List Insn) :=
  match op with
  | .neg => some (neg d a)
  | .abs => some (abs d a)
  | .recip => some (recip d a)
  | .sqrt => some (sqrt d a)
  | .square => some (abs d a ++ [.arith .pd ArithCode.mul d d])
  | .floor => rounding .pd Rounding.floor l d a
  | .ceil => rounding .pd Rounding.ceil l d a
  | .round => rounding .pd Rounding.nearest l d a
  | _ => none

def binary (pos : Nat) (op : BinaryOp) (d a b : Xmm) : Option (List Insn) :=
  match op with
  | .add => some (binop .pd ArithCode.add d a b)
  | .sub => some (sub d a b)
  | .mul => some (corners ArithCode.mul d a b)
  | .div => some (corners ArithCode.div d a b)
  | .min => some (extreme .pd ArithCode.min d a b ++ record pos a b)
  | .max => some (extreme .pd ArithCode.max d a b ++ record pos b a)
  | _ => none

end Bounds

def interval : Template where
  stride := 16
  form := .pd
  const d v := [.load .pd d (doubles v v)]
  unary := Bounds.unary
  binary := Bounds.binary

end Template

end ScalarField
