/-
Gradients: the value in the lowest lane and the three derivatives above it, as
singles. Most rules compute the derivatives in all lanes and then replace the
lowest one by the value.
-/
import ScalarField.Code.Template

namespace ScalarField

namespace Template

namespace Derivatives

/-- The value of `src` in every lane of `dst`. -/
def broadcast (dst src : Xmm) : List Insn := [.movaps dst src, .shuf .ps dst dst 0]

/-- The sign of every lane changes where the value is negative. -/
def abs (d a : Xmm) : List Insn :=
  broadcast .tmp0 a ++
    [.bit .ps BitCode.xor .tmp1 .tmp1, .cmp .ps Predicate.lt .tmp0 .tmp1,
      .bitMem .ps BitCode.and .tmp0 signs32, .movaps d a, .bit .ps BitCode.xor d .tmp0]

/-- `a' * b` in `d` and `a * b'` in `tmp1`, with `b` in every lane of
`tmp0`. -/
def products (d a b : Xmm) : List Insn :=
  broadcast .tmp0 b ++ binop .ps ArithCode.mul d a .tmp0 ++ broadcast .tmp1 a ++
    [.arith .ps ArithCode.mul .tmp1 b]

def mul (d a b : Xmm) : List Insn :=
  products d a b ++
    [.arith .ps ArithCode.add d .tmp1, .movaps .tmp0 a, .arith .ss ArithCode.mul .tmp0 b,
      .movLow .ss d .tmp0]

def div (d a b : Xmm) : List Insn :=
  products d a b ++
    [.arith .ps ArithCode.sub d .tmp1, .arith .ps ArithCode.mul .tmp0 .tmp0,
      .arith .ps ArithCode.div d .tmp0, .movaps .tmp0 a, .arith .ss ArithCode.div .tmp0 b,
      .movLow .ss d .tmp0]

/-- Each derivative is `-a' / a ^ 2`. -/
def recip (d a : Xmm) : List Insn :=
  broadcast .tmp0 a ++
    [.arith .ps ArithCode.mul .tmp0 .tmp0, .movaps d a, .bitMem .ps BitCode.xor d signs32,
      .arith .ps ArithCode.div d .tmp0, .load .ss .tmp1 (singles .one .zero .zero .zero),
      .arith .ss ArithCode.div .tmp1 a, .movLow .ss d .tmp1]

/-- Each derivative is `a' / (2 * sqrt a)`. -/
def sqrt (d a : Xmm) : List Insn :=
  [.arith .ss ArithCode.sqrt .tmp1 a] ++ broadcast .tmp0 .tmp1 ++
    [.arith .ps ArithCode.add .tmp0 .tmp0] ++ binop .ps ArithCode.div d a .tmp0 ++
    [.movLow .ss d .tmp1]

/-- Each derivative is `a' * (2 * a)`. -/
def square (d a : Xmm) : List Insn :=
  broadcast .tmp0 a ++ [.arith .ps ArithCode.add .tmp0 .tmp0] ++
    binop .ps ArithCode.mul d a .tmp0 ++
    [.movaps .tmp1 a, .arith .ss ArithCode.mul .tmp1 a, .movLow .ss d .tmp1]

/-- `a` if the value of `x` is less than that of `y`, and `b` otherwise; no
number if either is none. The values of `a` and `b` are in `tmp0` and
`tmp1`. -/
def select (x y : Xmm) (d a b : Xmm) : List Insn :=
  broadcast .tmp0 a ++ broadcast .tmp1 b ++
    [.movaps .tmp2 x, .cmp .ps Predicate.lt .tmp2 y, .movaps d a, .bit .ps BitCode.and d .tmp2,
      .bit .ps BitCode.andNot .tmp2 b, .bit .ps BitCode.or d .tmp2,
      .cmp .ps Predicate.unordered .tmp0 .tmp1, .bit .ps BitCode.or d .tmp0]

/-- The value rounded, the derivatives zero. -/
def step (mode : UInt8) (l : Level) (d a : Xmm) : Option (List Insn) :=
  (rounding .ss mode l d a).map
    (· ++ [.bitMem .ps BitCode.and d (.const (.ofWords (.allOnes 32) 0 0 0))])

def unary (l : Level) (op : UnaryOp) (d a : Xmm) : Option (List Insn) :=
  match op with
  | .neg => some [.movaps d a, .bitMem .ps BitCode.xor d signs32]
  | .abs => some (abs d a)
  | .recip => some (recip d a)
  | .sqrt => some (sqrt d a)
  | .square => some (square d a)
  | .floor => step Rounding.floor l d a
  | .ceil => step Rounding.ceil l d a
  | .round => step Rounding.nearest l d a
  | _ => none

def binary (_ : Nat) (op : BinaryOp) (d a b : Xmm) : Option (List Insn) :=
  match op with
  | .add => some (binop .ps ArithCode.add d a b)
  | .sub => some (binop .ps ArithCode.sub d a b)
  | .mul => some (mul d a b)
  | .div => some (div d a b)
  | .min => some (select .tmp0 .tmp1 d a b)
  | .max => some (select .tmp1 .tmp0 d a b)
  | _ => none

end Derivatives

def grad : Template where
  stride := 16
  form := .ps
  const d v := [.load .ps d (singles v.convert .zero .zero .zero)]
  unary := Derivatives.unary
  binary := Derivatives.binary

end Template

end ScalarField
