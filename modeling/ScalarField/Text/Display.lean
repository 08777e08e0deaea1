/-
Texts as messages and listings show them.

In quotes, printable characters stand for themselves, the others are written as
escapes, and a byte that starts no character is written as its two hexadecimal
digits. Bytes are laid out sixteen on a line, in hexadecimal digits and as
characters, with the offset of the first one in front. Sizes have four digits
and a unit that is a power of a thousand.
-/
import ScalarField.Number.Arith
import ScalarField.Number.Print
import ScalarField.Text.Printable
import ScalarField.Text.Utf8

namespace ScalarField

/-! ## Quotes -/

/-- The letter that escapes a control character, if it has one of its own. -/
def escapeLetter (c : Char) : Option Char :=
  match c.toNat with
  | 0x07 => some 'a'
  | 0x08 => some 'b'
  | 0x09 => some 't'
  | 0x0A => some 'n'
  | 0x0B => some 'v'
  | 0x0C => some 'f'
  | 0x0D => some 'r'
  | 0x22 => some '"'
  | 0x5C => some '\\'
  | _ => none

/-- What stands for one step of the text between the quotes. -/
def Rune.escaped : Rune → Bytes
  | .stray b => utf8 "\\x" ++ Bytes.hexPadded 2 b.toNat
  | .char c =>
    match escapeLetter c with
    | some l => [Bytes.ofChar '\\', Bytes.ofChar l]
    | none =>
      if isPrintable c then String.utf8EncodeChar c
      else if c.toNat < 0x80 then utf8 "\\x" ++ Bytes.hexPadded 2 c.toNat
      else if c.toNat < 0x10000 then utf8 "\\u" ++ Bytes.hexPadded 4 c.toNat
      else utf8 "\\U" ++ Bytes.hexPadded 8 c.toNat

/-- The text in quotes. -/
def Bytes.quoted (s : Bytes) : Bytes :=
  Bytes.ofChar '"' :: (Rune.read s).flatMap Rune.escaped ++ [Bytes.ofChar '"']

/-! ## Bytes on lines -/

namespace HexDump

/-- Bytes on a line. -/
def width : Nat := 16

/-- The cell of column `i`; one more blank follows the eighth. -/
def cell (i : Nat) (b : Option UInt8) : Bytes :=
  (match b with
    | some b => Bytes.hexPadded 2 b.toNat
    | none => utf8 "  ") ++ utf8 (if i = 7 then "  " else " ")

/-- The character of a byte, a dot if it has none that is printed. -/
def glyph (b : UInt8) : UInt8 := if b < 32 || 126 < b then Bytes.ofChar '.' else b

/-- The line of the bytes at an offset. -/
def line (offset : Nat) (s : Bytes) : Bytes :=
  Bytes.hexPadded 8 offset ++ utf8 "  " ++
    (List.range width).flatMap (fun i => cell i s[i]?) ++
    utf8 " |" ++ s.map glyph ++ utf8 "|\n"

/-- The lines of the bytes from `offset` on; there are at most `n`. -/
def lines (offset : Nat) : Nat → Bytes → Bytes
  | 0, _ => []
  | n + 1, s =>
    if s.isEmpty then []
    else line offset (s.take width) ++ lines (offset + width) n (s.drop width)

end HexDump

/-- The bytes laid out for reading. -/
def Bytes.dump (s : Bytes) : Bytes := HexDump.lines 0 s.length s

/-! ## Sizes -/

namespace SizeText

def units : List String := ["B", "kB", "MB", "GB", "TB", "PB", "EB", "ZB", "YB"]

/-- The decimal without zeros at its end, at most `n` of which are looked
at. -/
def trimmed : Nat → Decimal → Decimal
  | 0, d => d
  | n + 1, d =>
    if d.coefficient % 10 = 0 ∧ d.coefficient ≠ 0 then
      trimmed n ⟨d.coefficient / 10, d.exponent + 1⟩
    else d

/-- A number from 0 to 1000, rounded to four digits. -/
def fourDigits (x : Binary64) : Bytes :=
  let n := x.units
  let d := Format.binary64.one
  let places := 4 - (Nat.toDigits 10 (n / d)).length
  let c := roundDiv .toEven (n * Nat.pow 10 places) d
  if c = 0 then utf8 "0" else (trimmed 4 ⟨c, -(places : Int)⟩).print ⟨-4, 4, 2⟩

/-- The size in the first of the units in which it has at most three digits
before the point. -/
def scaled (x : Binary64) : List String → Bytes
  | [] => fourDigits x
  | [u] => fourDigits x ++ utf8 u
  | u :: rest =>
    if (Binary.ofInt 1000).le x then scaled (x.div (.ofInt 1000)) rest
    else fourDigits x ++ utf8 u

end SizeText

/-- A number of bytes as text. -/
def Bytes.ofSize (n : Nat) : Bytes := SizeText.scaled (.ofInt n) SizeText.units

end ScalarField
