/-
The elementary functions at double precision. They are those of the machine;
nothing is known of them here but that they are NaN where an argument is.
-/
import ScalarField.Number.Arith

namespace ScalarField

namespace Binary

def toFloat (x : Binary64) : Float := Float.ofBits (UInt64.ofNat x.bits)

def ofFloat (x : Float) : Binary64 := if x.isNaN then nan else ofBits x.toBits.toNat

/-- A machine function on doubles. -/
def elementary (fn : Float → Float) (x : Binary64) : Binary64 :=
  if x.isNaN then nan else ofFloat (fn x.toFloat)

def sin : Binary64 → Binary64 := elementary Float.sin
def cos : Binary64 → Binary64 := elementary Float.cos
def tan : Binary64 → Binary64 := elementary Float.tan
def asin : Binary64 → Binary64 := elementary Float.asin
def acos : Binary64 → Binary64 := elementary Float.acos
def atan : Binary64 → Binary64 := elementary Float.atan
def exp : Binary64 → Binary64 := elementary Float.exp
def ln : Binary64 → Binary64 := elementary Float.log

/-- The angle of the point `(x, y)`. -/
def atan2 (y x : Binary64) : Binary64 :=
  if y.isNaN || x.isNaN then nan else ofFloat (Float.atan2 y.toFloat x.toFloat)

/-- The double nearest to the circle constant. -/
def pi : Binary64 := ofBits 0x400921FB54442D18

end Binary

end ScalarField
