/-
Integers as text: a sign, a base mark (`0x`, `0o`, `0b`, or a single zero for
octal digits) and digits, with underscores between them. The number has to fit
into 64 bits.
-/
import ScalarField.Number.Read

namespace ScalarField

namespace IntegerText

/-- The base of a text without its sign, and the digits. -/
def base (s : Bytes) : Nat × Bytes :=
  match s with
  | 48 :: x :: d :: rest =>
    let l := x ||| 0x20
    if l = 98 then (2, d :: rest)
    else if l = 111 then (8, d :: rest)
    else if l = 120 then (16, d :: rest)
    else (8, x :: d :: rest)
  | 48 :: rest => (8, rest)
  | _ => (10, s)

/-- The value of a digit or letter, in bases up to 36. -/
def digit? (b : UInt8) : Option Nat :=
  let l := b ||| 0x20
  if 48 ≤ b && b ≤ 57 then some (b.toNat - 48)
  else if 97 ≤ l && l ≤ 122 then some (l.toNat - 87)
  else none

/-- The digits that follow those with the value `n`. The first digit that does
not belong to the base or is one too many decides on the error. -/
def readDigits (base : Nat) (n : Nat) : Bytes → Except ReadError Nat
  | [] => .ok n
  | b :: rest =>
    if b = 95 then readDigits base n rest
    else
      match digit? b with
      | none => .error .syntactic
      | some d =>
        if base ≤ d then .error .syntactic
        else if 0x10000000000000000 ≤ n * base + d then .error .range
        else readDigits base (n * base + d) rest

/-- A number without a sign. -/
def readNat (s : Bytes) : Except ReadError Nat :=
  if s.isEmpty then .error .syntactic
  else
    let (b, digits) := base s
    match readDigits b 0 digits with
    | .error e => .error e
    | .ok n => if s.contains 95 && !Numeral.separated s then .error .syntactic else .ok n

end IntegerText

/-- Reads an integer of 64 bits. -/
def readInteger (s : Bytes) : Except ReadError Int :=
  let (negative, digits) :=
    match s with
    | 43 :: rest => (false, rest)
    | 45 :: rest => (true, rest)
    | _ => (false, s)
  match IntegerText.readNat digits with
  | .error e => .error e
  | .ok n =>
    if n < 0x8000000000000000 then .ok (if negative then -(n : Int) else n)
    else if negative && n == 0x8000000000000000 then .ok (-(n : Int))
    else .error .range

end ScalarField
