/-
Numbers as text: the shortest digits that read back, positional for exponents
from -4 to 5 and with an exponent of at least two digits otherwise.
-/
import ScalarField.Bytes
import ScalarField.Number.Shortest

namespace ScalarField

/-- How a decimal is laid out. -/
structure DecimalLayout where
  /-- Exponents of the first digit below this one are written out. -/
  low : Int
  /-- Exponents of the first digit from this one on are written out. -/
  high : Int
  /-- Digits of a written exponent at least. -/
  exponentWidth : Nat

/-- The layout of every number the program prints. -/
def DecimalLayout.general : DecimalLayout := ⟨-4, 6, 2⟩

namespace Decimal

/-- The digits with a point after the first one, if more follow. -/
def scientific (width : Nat) (digits : Bytes) (e : Int) : Bytes :=
  let tail := digits.drop 1
  digits.take 1 ++ (if tail.isEmpty then [] else Bytes.ofChar '.' :: tail) ++
    [Bytes.ofChar 'e', Bytes.ofChar (if e < 0 then '-' else '+')] ++
    Bytes.padLeft (Bytes.ofChar '0') width (Bytes.ofNat e.natAbs)

/-- The digits with the point where the exponent `e` of the first one puts
it. -/
def positional (digits : Bytes) (e : Int) : Bytes :=
  if e < 0 then
    utf8 "0." ++ List.replicate ((-e).toNat - 1) (Bytes.ofChar '0') ++ digits
  else
    let whole := Bytes.padRight (Bytes.ofChar '0') (e.toNat + 1) (digits.take (e.toNat + 1))
    let part := digits.drop (e.toNat + 1)
    whole ++ (if part.isEmpty then [] else Bytes.ofChar '.' :: part)

/-- The decimal as text. -/
def print (l : DecimalLayout) (d : Decimal) : Bytes :=
  let digits := Bytes.ofNat d.coefficient
  let e := d.exponent + (digits.length - 1 : Nat)
  if e < l.low || l.high ≤ e then scientific l.exponentWidth digits e else positional digits e

end Decimal

/-- The number as text. -/
def Binary.print {f : Format} (x : Binary f) : Bytes :=
  if x.isNaN then utf8 "NaN"
  else
    let sign := if x.negative then [Bytes.ofChar '-'] else []
    if x.isInf then (if x.negative then utf8 "-Inf" else utf8 "+Inf")
    else if x.isZero then sign ++ [Bytes.ofChar '0']
    else sign ++ (Target.ofMagnitude f x.magnitude).shortest.print .general

end ScalarField
