/-
What is read from a text: words in lower case, the fields that white space
divides it into, its lines, and the lines of a text as it is typed.

Lower case is for words compared with a fixed list of ASCII words. White space
is the Unicode property White_Space. Lines have a bound on their length: a line
as long as the limit or longer, its newline not counted, stops the reading; the
lines before it stand, and nothing after it is looked at. In typed lines there
is no bound, and a byte that is part of no character counts as U+FFFD.
-/
import ScalarField.Text.Utf8

namespace ScalarField

/-! ## Lower case -/

/-- The lower case of a character, where it is an ASCII letter. Two characters
outside ASCII have one, the dotted capital I and the Kelvin sign. -/
def lowerChar (c : Char) : Char :=
  if c.toNat = 0x130 then 'i' else if c.toNat = 0x212A then 'k' else c.toLower

/-- The lower case of one step of a text. -/
def Rune.lower : Rune → Rune
  | .char c => .char (lowerChar c)
  | .stray b => .stray b

/-- The text in lower case. -/
def Bytes.lower (s : Bytes) : Bytes := Rune.write ((Rune.read s).map Rune.lower)

/-! ## White space -/

/-- White_Space of Unicode. -/
def isBlankChar (c : Char) : Bool :=
  let n := c.toNat
  (0x09 ≤ n && n ≤ 0x0D) || n == 0x20 || n == 0x85 || n == 0xA0 || n == 0x1680 ||
    (0x2000 ≤ n && n ≤ 0x200A) || n == 0x2028 || n == 0x2029 || n == 0x202F ||
    n == 0x205F || n == 0x3000

/-- A byte that starts no character is not white space. -/
def Rune.isBlank : Rune → Bool
  | .char c => isBlankChar c
  | .stray _ => false

namespace Bytes

/-- The text without white space at its ends. -/
def trim (s : Bytes) : Bytes :=
  let front := (Rune.read s).dropWhile Rune.isBlank
  Rune.write (front.reverse.dropWhile Rune.isBlank).reverse

/-- Adds the field read last, whose steps are `cur` from its end, to the
fields before it, which are in reverse too. -/
def closeField (cur : List Rune) (done : List Bytes) : List Bytes :=
  if cur.isEmpty then done else Rune.write cur.reverse :: done

/-- Reads fields on: `cur` is the open field and `done` the closed ones, both
from their end. -/
def fieldsFrom (cur : List Rune) (done : List Bytes) : List Rune → List Bytes
  | [] => (closeField cur done).reverse
  | r :: rest =>
    if r.isBlank then fieldsFrom [] (closeField cur done) rest
    else fieldsFrom (r :: cur) done rest

/-- The maximal runs of text without white space. -/
def fields (s : Bytes) : List Bytes := fieldsFrom [] [] (Rune.read s)

end Bytes

/-! ## Lines -/

/-- The lines read, and whether a line too long stopped the reading. A line ends
at a newline, and one carriage return before the newline is dropped. A last line
without a newline counts, an empty rest does not. -/
structure Lines where
  lines : List Bytes
  tooLong : Bool

namespace Lines

/-- A line given from its end, without a carriage return at that end. -/
def ofReversed : Bytes → Bytes
  | 13 :: rest => rest.reverse
  | cur => cur.reverse

/-- Reads on: `cur` is the open line from its end, `n` its length and `done`
the lines before it, last one first. -/
def readFrom (limit : Nat) (cur : Bytes) (n : Nat) (done : List Bytes) : Bytes → Lines
  | [] =>
    if limit ≤ n then ⟨done.reverse, true⟩
    else if n = 0 then ⟨done.reverse, false⟩
    else ⟨(ofReversed cur :: done).reverse, false⟩
  | b :: rest =>
    if b = 10 then
      if limit ≤ n then ⟨done.reverse, true⟩
      else readFrom limit [] 0 (ofReversed cur :: done) rest
    else readFrom limit (b :: cur) (n + 1) done rest

/-- The lines of a text, each shorter than `limit`. -/
def read (limit : Nat) (s : Bytes) : Lines := readFrom limit [] 0 [] s

end Lines

/-! ## Typed lines -/

/-- The line that is still open, from its end. Typed lines end at a newline or a
carriage return. -/
structure Typed where
  pending : Bytes := []

namespace Typed

/-- A line with U+FFFD for every byte that is part of no character. -/
def lineOf (s : Bytes) : Bytes :=
  (Rune.read s).flatMap fun r =>
    match r with
    | .char c => String.utf8EncodeChar c
    | .stray _ => String.utf8EncodeChar '\uFFFD'

/-- Types on: `cur` is the open line from its end, `done` the lines that have
ended, last one first. -/
def feedFrom (cur : Bytes) (done : List Bytes) : Bytes → List Bytes × Bytes
  | [] => (done.reverse, cur)
  | b :: rest =>
    if b = 10 ∨ b = 13 then feedFrom [] (lineOf cur.reverse :: done) rest
    else feedFrom (b :: cur) done rest

/-- The lines that a piece of text ends, and what it leaves open. -/
def feed (t : Typed) (s : Bytes) : List Bytes × Typed :=
  let (lines, cur) := feedFrom t.pending [] s
  (lines, ⟨cur⟩)

/-- The line that the end of the text ends. -/
def close (t : Typed) : List Bytes :=
  if t.pending.isEmpty then [] else [lineOf t.pending.reverse]

/-- All lines of a text. -/
def lines (s : Bytes) : List Bytes :=
  let (lines, t) := feed {} s
  lines ++ t.close

end Typed

end ScalarField
