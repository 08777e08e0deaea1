/-
Lanes: four singles.
-/
import ScalarField.Code.Template

namespace ScalarField

namespace Template

namespace FourLanes

def unary (l : Level) (op : UnaryOp) (d a : Xmm) : Option (List Insn) :=
  match op with
  | .neg => some [.movaps d a, .bitMem .ps BitCode.xor d signs32]
  | .abs => some [.movaps d a, .bitMem .ps BitCode.and d magnitudes32]
  | .recip => some [.load .ps d (allSingles .one), .arith .ps ArithCode.div d a]
  | .sqrt => some [.arith .ps ArithCode.sqrt d a]
  | .square => some (binop .ps ArithCode.mul d a a)
  | .floor => rounding .ps Rounding.floor l d a
  | .ceil => rounding .ps Rounding.ceil l d a
  | .round => rounding .ps Rounding.nearest l d a
  | _ => none

def binary (_ : Nat) (op : BinaryOp) (d a b : Xmm) : Option (List Insn) :=
  match op with
  | .add => some (binop .ps ArithCode.add d a b)
  | .sub => some (binop .ps ArithCode.sub d a b)
  | .mul => some (binop .ps ArithCode.mul d a b)
  | .div => some (binop .ps ArithCode.div d a b)
  | .min => some (extreme .ps ArithCode.min d a b)
  | .max => some (extreme .ps ArithCode.max d a b)
  | _ => none

end FourLanes

def simd4 : Template where
  stride := 16
  form := .ps
  const d v := [.load .ps d (allSingles v.convert)]
  unary := FourLanes.unary
  binary := FourLanes.binary

end Template

end ScalarField
