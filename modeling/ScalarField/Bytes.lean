/-
Byte strings and the digits written into them.

Names, texts and encodings may hold any bytes, so they are lists of bytes and
not `String`s. A text that the program itself writes is given as a `String`
and turned into its UTF-8 bytes by `utf8`.
-/
namespace ScalarField

/-- A string of bytes. -/
abbrev Bytes := List UInt8

/-- The UTF-8 bytes of a string. -/
def utf8 (s : String) : Bytes := s.toList.flatMap String.utf8EncodeChar

namespace Bytes

/-- The byte of an ASCII character. -/
def ofChar (c : Char) : UInt8 := UInt8.ofNat c.toNat

/-- A number in decimal digits. -/
def ofNat (n : Nat) : Bytes := (Nat.toDigits 10 n).map ofChar

/-- An integer in decimal digits, with a sign if it is negative. -/
def ofInt : Int → Bytes
  | .ofNat n => ofNat n
  | .negSucc n => ofChar '-' :: ofNat (n + 1)

/-- A number in lower-case hexadecimal digits. -/
def hex (n : Nat) : Bytes := (Nat.toDigits 16 n).map ofChar

/-- `s` with copies of `c` in front, up to a length of `width`. -/
def padLeft (c : UInt8) (width : Nat) (s : Bytes) : Bytes :=
  List.replicate (width - s.length) c ++ s

/-- `s` with copies of `c` behind it, up to a length of `width`. -/
def padRight (c : UInt8) (width : Nat) (s : Bytes) : Bytes :=
  s ++ List.replicate (width - s.length) c

/-- A number in at least `width` hexadecimal digits. -/
def hexPadded (width n : Nat) : Bytes := padLeft (ofChar '0') width (hex n)

/-- Two hexadecimal digits per byte. -/
def toHex (s : Bytes) : Bytes := s.flatMap fun b => hexPadded 2 b.toNat

/-- The parts with `sep` between neighbours. -/
def join (sep : Bytes) (parts : List Bytes) : Bytes := (parts.intersperse sep).flatten

/-- The text up to the first `sep` and the text behind it, if there is one. -/
def cut (sep : UInt8) (s : Bytes) : Bytes × Option Bytes :=
  match s.span (· != sep) with
  | (front, []) => (front, none)
  | (front, _ :: rest) => (front, some rest)

/-- The parts that `sep` divides a text into. -/
def split (sep : UInt8) (s : Bytes) : List Bytes :=
  s.foldr (fun b parts =>
    if b = sep then [] :: parts
    else
      match parts with
      | [] => [[b]]
      | part :: rest => (b :: part) :: rest) [[]]

/-- The line with its end. -/
def line (s : Bytes) : Bytes := s ++ [ofChar '\n']

/-- The `n` lowest bytes of `v`, lowest first. -/
def littleEndian : Nat → Nat → Bytes
  | 0, _ => []
  | n + 1, v => UInt8.ofNat v :: littleEndian n (v / 256)

/-- The number whose bytes, lowest first, are given. -/
def ofLittleEndian : Bytes → Nat
  | [] => 0
  | b :: s => b.toNat + 256 * ofLittleEndian s

end Bytes

end ScalarField
