/-
The modes of evaluation, by what one value is.
-/
import ScalarField.Text.Display

namespace ScalarField

inductive Mode where
  /-- One double. -/
  | point
  /-- An interval of doubles. -/
  | interval
  /-- Four independent singles. -/
  | simd4
  /-- A single with its partial derivatives. -/
  | grad
  /-- A code that stands for no mode. -/
  | other (code : UInt8)
  deriving DecidableEq

namespace Mode

/-- The modes that exist, in the order of their codes. -/
def all : List Mode := [.point, .interval, .simd4, .grad]

def ofCode (c : UInt8) : Mode := all.getD c.toNat (.other c)

def code : Mode → UInt8
  | .point => 0
  | .interval => 1
  | .simd4 => 2
  | .grad => 3
  | .other c => c

def name : Mode → Bytes
  | .point => utf8 "point"
  | .interval => utf8 "interval"
  | .simd4 => utf8 "simd4"
  | .grad => utf8 "grad"
  | .other c => utf8 "Mode(" ++ Bytes.ofNat c.toNat ++ utf8 ")"

/-- The mode of a given name. -/
def ofName? (s : Bytes) : Option Mode := all.find? (·.name == s)

/-- The words for a name that is no mode's. -/
def unknown (s : Bytes) : Bytes := utf8 "eval: unknown mode " ++ s.quoted

end Mode

end ScalarField
