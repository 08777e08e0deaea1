/-
Settings files: YAML mappings with one `key: value` a line.

A value is a plain word or a quoted text. Plain words may stand for nothing, a
truth value or a number. Comments and blank lines are passed over. Nested
collections, anchors, tags and values of several lines are refused.
-/
import ScalarField.Number.Integer
import ScalarField.Text.Utf8

namespace ScalarField

namespace Yaml

/-- A value. -/
inductive Scalar where
  | null
  | bool (b : Bool)
  | int (n : Int)
  | float (x : Binary64)
  | str (s : Bytes)
  deriving DecidableEq

/-- What separates words on a line. -/
def isBlank (b : UInt8) : Bool := b == 32 || b == 9

/-- Whether a text begins with a blank or is empty. -/
def isGap : Bytes → Bool
  | [] => true
  | b :: _ => isBlank b

/-! ## Plain words -/

def nullWords : List String := ["", "~", "null", "Null", "NULL"]

def trueWords : List String :=
  ["y", "Y", "yes", "Yes", "YES", "true", "True", "TRUE", "on", "On", "ON"]

def falseWords : List String :=
  ["n", "N", "no", "No", "NO", "false", "False", "FALSE", "off", "Off", "OFF"]

/-- The digits that a text starts with, and the rest. -/
def digits (s : Bytes) : Bytes × Bytes := s.span Numeral.isDigit

/-- The text without a sign in front. -/
def unsigned : Bytes → Bytes
  | 43 :: rest => rest
  | 45 :: rest => rest
  | s => s

/-- Whether a text is empty or an exponent of ten. -/
def isExponent : Bytes → Bool
  | [] => true
  | b :: rest =>
    let ds := unsigned rest
    b ||| 0x20 == 101 && !ds.isEmpty && ds.all Numeral.isDigit

/-- Whether a word is a decimal fraction: digits with a point before, between
or behind them, and perhaps an exponent. -/
def isFraction (s : Bytes) : Bool :=
  match digits (unsigned s) with
  | ([], 46 :: rest) =>
    let (ds, rest) := digits rest
    !ds.isEmpty && isExponent rest
  | (_ :: _, 46 :: rest) => isExponent (digits rest).2
  | (_ :: _, rest) => isExponent rest
  | ([], _) => false

/-- Whether a number can start with a byte. -/
def startsNumber : Bytes → Bool
  | [] => false
  | b :: _ => Numeral.isDigit b || b == 43 || b == 45 || b == 46

/-- What a plain word stands for. -/
def resolve (s : Bytes) : Scalar :=
  if nullWords.any (utf8 · == s) then .null
  else if trueWords.any (utf8 · == s) then .bool true
  else if falseWords.any (utf8 · == s) then .bool false
  else if startsNumber s then
    let plain := s.filter (· != 95)
    match readInteger plain with
    | .ok n => .int n
    | .error _ =>
      if isFraction plain then
        match Binary.read .binary64 plain with
        | .ok x => .float x
        | .error _ => .str s
      else .str s
  else .str s

/-- Whether the rest of a line says nothing: blanks, and perhaps a comment
behind them. -/
def isEnd (s : Bytes) : Bool :=
  match s.dropWhile isBlank with
  | [] => true
  | b :: _ => b == 35 && isGap s

/-- The plain word at the front of a text, read up to a comment; `cur` is what
stands before, from its end. A colon inside would start a mapping. -/
def plain? (cur : Bytes) : Bytes → Option Bytes
  | [] => some (cur.dropWhile isBlank).reverse
  | b :: rest =>
    if b = 58 && isGap rest then none
    else if b = 35 && cur.head?.any isBlank then some (cur.dropWhile isBlank).reverse
    else plain? (b :: cur) rest

/-- Characters that no plain word starts with. -/
def indicators : Bytes := utf8 "[]\x7b\x7d,#&*!|>%@\x60\"'"

/-- Whether a plain word can start so. -/
def startsPlain : Bytes → Bool
  | [] => false
  | b :: rest => !indicators.contains b && !((b == 45 || b == 63) && isGap rest)

/-! ## Quoted texts -/

/-- The text up to the closing single quote, and the rest; a doubled quote
stands for one. -/
def single? (cur : Bytes) : Bytes → Option (Bytes × Bytes)
  | [] => none
  | 39 :: 39 :: rest => single? (39 :: cur) rest
  | 39 :: rest => some (cur.reverse, rest)
  | b :: rest => single? (b :: cur) rest

/-- What an escape of one character stands for. -/
def escapes : List (Char × Nat) :=
  [('0', 0), ('a', 7), ('b', 8), ('t', 9), ('\t', 9), ('n', 10), ('v', 11), ('f', 12), ('r', 13),
    ('e', 27), (' ', 32), ('"', 34), ('/', 47), ('\\', 92), ('N', 0x85), ('_', 0xA0),
    ('L', 0x2028), ('P', 0x2029)]

/-- The number of digits of a numeric escape. -/
def escapeWidth? (b : UInt8) : Option Nat :=
  if b = 120 then some 2 else if b = 117 then some 4 else if b = 85 then some 8 else none

/-- The number with the given hexadecimal digits. -/
def hexValue? (s : Bytes) : Option Nat :=
  s.foldl (fun n b => n.bind fun n => (Numeral.digit? true b).map (16 * n + ·)) (some 0)

/-- The character of an escape, and what follows it. -/
def escape? : Bytes → Option (Bytes × Bytes)
  | [] => none
  | b :: rest =>
    match escapeWidth? b with
    | some width =>
      if rest.length < width then none
      else
        (hexValue? (rest.take width)).bind fun n =>
          if n.isValidChar then some (String.utf8EncodeChar (Char.ofNat n), rest.drop width)
          else none
    | none =>
      (escapes.find? fun e => Bytes.ofChar e.1 == b).map fun e =>
        (String.utf8EncodeChar (Char.ofNat e.2), rest)

/-- The text up to the closing double quote, and the rest; `fuel` bounds its
length. -/
def double? (cur : Bytes) : Nat → Bytes → Option (Bytes × Bytes)
  | 0, _ => none
  | _ + 1, [] => none
  | fuel + 1, b :: rest =>
    if b = 34 then some (cur.reverse, rest)
    else if b = 92 then
      match escape? rest with
      | some (s, rest) => double? (s.reverse ++ cur) fuel rest
      | none => none
    else double? (b :: cur) fuel rest

/-- The quoted text at the front, if there is a quote. -/
def quoted? : Bytes → Option (Option (Bytes × Bytes))
  | 39 :: rest => some (single? [] rest)
  | 34 :: rest => some (double? [] (rest.length + 1) rest)
  | _ => none

/-! ## Lines -/

/-- The value behind a colon. -/
def value? (s : Bytes) : Option Scalar :=
  let t := s.dropWhile isBlank
  match quoted? t with
  | some none => none
  | some (some (text, rest)) => if isEnd rest then some (.str text) else none
  | none =>
    if isEnd s then some .null
    else if startsPlain t then (plain? [] t).map resolve
    else none

/-- The text before the first colon that a blank follows, and the rest. -/
def plainKey? (cur : Bytes) : Bytes → Option (Bytes × Bytes)
  | [] => none
  | b :: rest =>
    if b = 58 && isGap rest then some ((cur.dropWhile isBlank).reverse, rest)
    else plainKey? (b :: cur) rest

/-- The key of a line, and the text behind its colon. -/
def key? (s : Bytes) : Option (Bytes × Bytes) :=
  match quoted? s with
  | some none => none
  | some (some (key, rest)) =>
    match rest.dropWhile isBlank with
    | 58 :: rest => if isGap rest then some (key, rest) else none
    | _ => none
  | none => if startsPlain s then plainKey? [] s else none

/-- Whether a line says nothing. -/
def isSkipped (line : Bytes) : Bool :=
  match line.dropWhile (· == 32) with
  | [] => true
  | b :: _ => b == 35

/-- The lines of a text. -/
def lines (s : Bytes) : List Bytes :=
  (s.split 10).map fun l => if l.getLast? == some 13 then l.dropLast else l

/-- The entries of lines that are all indented by `indent`. -/
def entries? (indent : Nat) : List Bytes → Option (List (Bytes × Scalar))
  | [] => some []
  | l :: rest =>
    if (l.takeWhile (· == 32)).length ≠ indent then none
    else
      match key? (l.drop indent) with
      | none => none
      | some (key, text) =>
        match value? text, entries? indent rest with
        | some v, some es => some ((key, v) :: es)
        | _, _ => none

/-- Whether a line marks where a document begins or ends. -/
def isMark (l : Bytes) : Bool :=
  ((utf8 "---").isPrefixOf l || (utf8 "...").isPrefixOf l) && isEnd (l.drop 3)

/-- The lines of the first document. -/
def firstDocument : List Bytes → List Bytes
  | [] => []
  | l :: rest => if isMark l then rest.takeWhile (!isMark ·) else (l :: rest).takeWhile (!isMark ·)

/-- The entries of a mapping. -/
def read? (s : Bytes) : Option (List (Bytes × Scalar)) :=
  if !s.isUtf8 then none
  else
    match firstDocument ((lines s).filter fun l => !isSkipped l) with
    | [] => some []
    | l :: rest => entries? (l.takeWhile (· == 32)).length (l :: rest)

end Yaml

end ScalarField
