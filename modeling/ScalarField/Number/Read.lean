/-
Reading numbers: decimals and hexadecimal numerals with a binary exponent,
infinities and NaN in any case, and underscores between digits.

A numeral is read into a coefficient, a power of its base and an exponent,
and rounded once. Digits beyond a fixed number are folded into one digit that
says whether something was left; that many digits decide every rounding.
-/
import ScalarField.Bytes
import ScalarField.Number.Arith

namespace ScalarField

/-- Why a text is not a number. -/
inductive ReadError where
  | syntactic
  | range
  deriving DecidableEq

/-- The part of a numeral before its exponent. -/
structure Mantissa where
  /-- The digits that are kept. -/
  coefficient : Nat := 0
  /-- How many they are, zeros in front not counted. -/
  kept : Nat := 0
  /-- Digits not kept. -/
  dropped : Nat := 0
  /-- Whether a digit not kept differs from zero. -/
  sticky : Bool := false
  /-- Digits behind the point. -/
  places : Nat := 0
  sawPoint : Bool := false
  sawDigit : Bool := false

/-- A numeral without its sign: `coefficient * base ^ power` times two or ten
to the `exponent`. -/
structure Numeral where
  hexadecimal : Bool
  coefficient : Nat
  power : Int
  exponent : Int

namespace Numeral

def base (hexadecimal : Bool) : Nat := if hexadecimal then 16 else 10

def isDigit (b : UInt8) : Bool := 48 ≤ b && b ≤ 57

/-- The value of a digit of the base. -/
def digit? (hexadecimal : Bool) (b : UInt8) : Option Nat :=
  if isDigit b then some (b.toNat - 48)
  else
    let l := b ||| 0x20
    if hexadecimal && 97 ≤ l && l ≤ 102 then some (l.toNat - 87) else none

/-- Digits that are kept; no rounding depends on more. -/
def precision : Nat := 800

/-- One more digit. -/
def Mantissa.push (hexadecimal : Bool) (m : Mantissa) (d : Nat) : Mantissa :=
  let m := { m with sawDigit := true, places := if m.sawPoint then m.places + 1 else m.places }
  if m.kept < precision then
    let c := m.coefficient * base hexadecimal + d
    { m with coefficient := c, kept := if c = 0 then 0 else m.kept + 1 }
  else { m with dropped := m.dropped + 1, sticky := m.sticky || d != 0 }

/-- Reads digits, underscores and at most one point; gives what follows. -/
def readMantissa (hexadecimal : Bool) (m : Mantissa) : Bytes → Mantissa × Bytes
  | [] => (m, [])
  | b :: rest =>
    if b = 95 then readMantissa hexadecimal m rest
    else if b = 46 && !m.sawPoint then readMantissa hexadecimal { m with sawPoint := true } rest
    else
      match digit? hexadecimal b with
      | some d => readMantissa hexadecimal (Mantissa.push hexadecimal m d) rest
      | none => (m, b :: rest)

/-- Reads the digits of an exponent; from ten thousand on it stops growing. -/
def readExponent (e : Nat) : Bytes → Nat × Bytes
  | [] => (e, [])
  | b :: rest =>
    if b = 95 then readExponent e rest
    else if isDigit b then readExponent (if e < 10000 then e * 10 + (b.toNat - 48) else e) rest
    else (e, b :: rest)

/-- The exponent after its mark. -/
def exponent? (s : Bytes) : Option (Int × Bytes) :=
  let (negative, s) :=
    match s with
    | 43 :: rest => (false, rest)
    | 45 :: rest => (true, rest)
    | _ => (false, s)
  match s with
  | b :: _ =>
    if isDigit b then
      let (e, rest) := readExponent 0 s
      some (if negative then -(e : Int) else e, rest)
    else none
  | [] => none

/-- The numeral whose mantissa has been read, the digits that were dropped
folded into one. -/
def close (hexadecimal : Bool) (m : Mantissa) (e : Int) : Numeral where
  hexadecimal := hexadecimal
  coefficient := if m.sticky then m.coefficient * base hexadecimal + 1 else m.coefficient
  power := (m.dropped : Int) - m.places - (if m.sticky then 1 else 0)
  exponent := e

/-- The numeral that makes up the whole text. A hexadecimal one needs an
exponent. -/
def ofBytes? (s : Bytes) : Option Numeral :=
  let (hexadecimal, s) :=
    match s with
    | 48 :: x :: b :: rest => if x ||| 0x20 = 120 then (true, b :: rest) else (false, s)
    | _ => (false, s)
  let (m, rest) := readMantissa hexadecimal {} s
  if !m.sawDigit then none
  else
    match rest with
    | [] => if hexadecimal then none else some (close hexadecimal m 0)
    | b :: rest =>
      if b ||| 0x20 = (if hexadecimal then 112 else 101) then
        match exponent? rest with
        | some (e, []) => some (close hexadecimal m e)
        | _ => none
      else none

/-- What an underscore may follow: a digit, an underscore, or neither. -/
inductive Last where
  | digit
  | underscore
  | other
  deriving DecidableEq

/-- Whether every underscore stands after a digit and before one. -/
def separatedFrom (hexadecimal : Bool) : Last → Bytes → Bool
  | l, [] => l != .underscore
  | l, b :: rest =>
    if (digit? hexadecimal b).isSome then separatedFrom hexadecimal .digit rest
    else if b = 95 then l == .digit && separatedFrom hexadecimal .underscore rest
    else l != .underscore && separatedFrom hexadecimal .other rest

/-- Whether underscores stand only between digits, a base mark counting as
one. -/
def separated (s : Bytes) : Bool :=
  match s with
  | 48 :: x :: rest =>
    let l := x ||| 0x20
    if l = 98 || l = 111 || l = 120 then separatedFrom (l = 120) .digit rest
    else separatedFrom false .other s
  | _ => separatedFrom false .other s

/-- A decimal of this many digits before the point or more is out of range of
every format. -/
def hugeDigits : Int := 310

/-- A decimal whose digits all stand this far behind the point is zero in
every format. -/
def tinyDigits : Int := -330

/-- The number nearest to the numeral, infinity for one out of range. -/
def round (f : Format) (negative : Bool) (n : Numeral) : Binary f :=
  if n.coefficient = 0 then .ofMagnitude negative 0
  else if n.hexadecimal then
    let e := 4 * n.power + n.exponent
    if 1100 < n.coefficient.log2 + e then .infinity negative
    else if n.coefficient.log2 + e < -1200 then .ofMagnitude negative 0
    else if e < 0 then .round negative (n.coefficient * f.one) (Nat.pow 2 (-e).toNat)
    else .round negative (n.coefficient * Nat.pow 2 e.toNat * f.one) 1
  else
    let e := n.power + n.exponent
    let digits := (Nat.toDigits 10 n.coefficient).length + e
    if hugeDigits < digits then .infinity negative
    else if digits < tinyDigits then .ofMagnitude negative 0
    else if e < 0 then .round negative (n.coefficient * f.one) (Nat.pow 10 (-e).toNat)
    else .round negative (n.coefficient * Nat.pow 10 e.toNat * f.one) 1

end Numeral

namespace Binary

/-- Whether a text is the given lower-case word in any case. -/
def isWord (w : String) (s : Bytes) : Bool :=
  s.map (fun b => if 65 ≤ b && b ≤ 90 then b + 32 else b) == utf8 w

/-- Reads a number. A text that is out of range is refused, one too close to
zero is zero. -/
def read (f : Format) (s : Bytes) : Except ReadError (Binary f) :=
  let (signed, negative, t) :=
    match s with
    | 43 :: rest => (true, false, rest)
    | 45 :: rest => (true, true, rest)
    | _ => (false, false, s)
  if isWord "inf" t || isWord "infinity" t then .ok (infinity negative)
  else if !signed && isWord "nan" t then .ok nan
  else
    match Numeral.ofBytes? t with
    | none => .error .syntactic
    | some n =>
      if t.contains 95 && !Numeral.separated t then .error .syntactic
      else
        let x := n.round f negative
        if x.isInf then .error .range else .ok x

end Binary

end ScalarField
