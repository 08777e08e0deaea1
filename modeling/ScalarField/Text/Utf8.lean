/-
Text as a sequence of characters, with the bytes that start no character kept
as they are.
-/
import ScalarField.Bytes

namespace ScalarField

/-- One step of reading a text: a character, or a byte at which no character
starts. -/
inductive Rune where
  | char (c : Char)
  | stray (b : UInt8)
  deriving DecidableEq

namespace Rune

/-- The bytes that the step covers. -/
def bytes : Rune → Bytes
  | .char c => String.utf8EncodeChar c
  | .stray b => [b]

/-- Whether `b` is the second or a later byte of a character. -/
def isTail (b : UInt8) : Bool := b &&& 0xC0 == 0x80

/-- The six bits that a later byte carries. -/
def tailBits (b : UInt8) : Nat := (b &&& 0x3F).toNat

/-- The character with code point `n` if `n` has `low` as a lower bound and is
a code point; the bound rules out encodings longer than needed. -/
def charAbove (low n : Nat) : Option Char :=
  if h : low ≤ n ∧ n.isValidChar then some (Char.ofNatAux n h.2) else none

/-- The character that starts with byte `b`, the next bytes being `rest`, and
the number of later bytes that it takes. -/
def first (b : UInt8) (rest : Bytes) : Option (Char × Nat) :=
  if b < 0x80 then (charAbove 0 b.toNat).map (·, 0)
  else if b &&& 0xE0 == 0xC0 then
    match rest with
    | b1 :: _ =>
      if isTail b1 then
        (charAbove 0x80 ((b &&& 0x1F).toNat * 64 + tailBits b1)).map (·, 1)
      else none
    | _ => none
  else if b &&& 0xF0 == 0xE0 then
    match rest with
    | b1 :: b2 :: _ =>
      if isTail b1 && isTail b2 then
        (charAbove 0x800 (((b &&& 0x0F).toNat * 64 + tailBits b1) * 64 + tailBits b2)).map (·, 2)
      else none
    | _ => none
  else if b &&& 0xF8 == 0xF0 then
    match rest with
    | b1 :: b2 :: b3 :: _ =>
      if isTail b1 && isTail b2 && isTail b3 then
        (charAbove 0x10000
          ((((b &&& 0x07).toNat * 64 + tailBits b1) * 64 + tailBits b2) * 64 + tailBits b3)).map (·, 3)
      else none
    | _ => none
  else none

/-- Reads on, `skip` bytes belonging to the character read last; `done` holds
the steps so far, last one first. -/
def readFrom (done : List Rune) : Nat → Bytes → List Rune
  | _, [] => done.reverse
  | skip + 1, _ :: rest => readFrom done skip rest
  | 0, b :: rest =>
    match first b rest with
    | some (c, n) => readFrom (.char c :: done) n rest
    | none => readFrom (.stray b :: done) 0 rest

/-- The steps of reading a text from its start. -/
def read (s : Bytes) : List Rune := readFrom [] 0 s

/-- The text that the steps were read from. -/
def write (rs : List Rune) : Bytes := rs.flatMap bytes

end Rune

/-- Whether every byte of a text belongs to a character. -/
def Bytes.isUtf8 (s : Bytes) : Bool :=
  (Rune.read s).all fun
    | .char _ => true
    | .stray _ => false

end ScalarField
