/-
Points: one double in the lowest lane.
-/
import ScalarField.Code.Template

namespace ScalarField

namespace Template

namespace Point

def unary (l : Level) (op : UnaryOp) (d a : Xmm) : Option (List Insn) :=
  match op with
  | .neg => some [.movaps d a, .bitMem .pd BitCode.xor d signs64]
  | .abs => some [.movaps d a, .bitMem .pd BitCode.and d magnitudes64]
  | .recip => some [.load .sd d (doubles .one .one), .arith .sd ArithCode.div d a]
  | .sqrt => some [.arith .sd ArithCode.sqrt d a]
  | .square => some (binop .sd ArithCode.mul d a a)
  | .floor => rounding .sd Rounding.floor l d a
  | .ceil => rounding .sd Rounding.ceil l d a
  | .round => rounding .sd Rounding.nearest l d a
  | _ => none

def binary (_ : Nat) (op : BinaryOp) (d a b : Xmm) : Option (List Insn) :=
  match op with
  | .add => some (binop .sd ArithCode.add d a b)
  | .sub => some (binop .sd ArithCode.sub d a b)
  | .mul => some (binop .sd ArithCode.mul d a b)
  | .div => some (binop .sd ArithCode.div d a b)
  | .min => some (extreme .sd ArithCode.min d a b)
  | .max => some (extreme .sd ArithCode.max d a b)
  | _ => none

end Point

def point : Template where
  stride := 8
  form := .sd
  const d v := [.load .sd d (doubles v .zero)]
  unary := Point.unary
  binary := Point.binary

end Template

end ScalarField
