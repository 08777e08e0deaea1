/-
What a user can set, and the files that set it.

A file gives some of the settings by name, in upper or lower case; the others
keep their values. A name that is no setting, a name that occurs twice, and a
value of another kind than the setting make the whole file bad.
-/
import ScalarField.Code.Level
import ScalarField.Code.Program
import ScalarField.Number.Print
import ScalarField.Yaml

namespace ScalarField

structure Settings where
  mode : Bytes := utf8 "point"
  backend : Bytes := utf8 "auto"
  level : Bytes := utf8 "detect"
  registers : Int := assignable
  verbose : Bool := false
  /-- The file that tapes are saved to; none if it is empty. -/
  output : Bytes := []
  /-- The file that remembers the lines of sessions; none if it is empty. -/
  history : Bytes := utf8 ".shapevm-history.tmp"

/-- The integer of 64 bits that a number is. -/
def Binary.toInt64? (x : Binary64) : Option Int :=
  if x.isNaN || x.isInf || x.units % Format.binary64.one ≠ 0 then none
  else
    let n := x.toUnits / Format.binary64.one
    if -0x8000000000000000 ≤ n ∧ n < 0x8000000000000000 then some n else none

namespace Settings

/-- A setting that takes any text takes numbers and truth values by their
texts. -/
def textOf (now : Bytes) : Yaml.Scalar → Bytes
  | .null => now
  | .bool true => utf8 "true"
  | .bool false => utf8 "false"
  | .int n => Bytes.ofInt n
  | .float x => x.print
  | .str s => s

def integerOf (now : Int) : Yaml.Scalar → Option Int
  | .null => some now
  | .int n => some n
  | .float x => x.toInt64?
  | _ => none

def switchOf (now : Bool) : Yaml.Scalar → Option Bool
  | .null => some now
  | .bool b => some b
  | _ => none

/-- The letters `A` to `Z` as `a` to `z`. -/
def lowerCase (s : Bytes) : Bytes := s.map fun b => if 65 ≤ b ∧ b ≤ 90 then b + 32 else b

/-- Changes the setting of a name. -/
def assign? (s : Settings) (name : Bytes) (v : Yaml.Scalar) : Option Settings :=
  let name := lowerCase name
  if name == utf8 "mode" then some { s with mode := textOf s.mode v }
  else if name == utf8 "backend" then some { s with backend := textOf s.backend v }
  else if name == utf8 "level" then some { s with level := textOf s.level v }
  else if name == utf8 "output" then some { s with output := textOf s.output v }
  else if name == utf8 "history" then some { s with history := textOf s.history v }
  else if name == utf8 "registers" then
    (integerOf s.registers v).map fun n => { s with registers := n }
  else if name == utf8 "verbose" then (switchOf s.verbose v).map fun b => { s with verbose := b }
  else none

/-- Changes settings in turn. -/
def assignAll? (s : Settings) : List (Bytes × Yaml.Scalar) → Option Settings
  | [] => some s
  | (name, v) :: rest => (s.assign? name v).bind (·.assignAll? rest)

/-- Makes the settings of a file. They are made in the order of their names, so
that of two spellings of a name the one in lower case counts. -/
def configure? (s : Settings) (text : Bytes) : Option Settings :=
  (Yaml.read? text).bind fun entries =>
    if (entries.map (·.1)).Nodup then
      s.assignAll? (entries.mergeSort fun a b => !decide (b.1 < a.1))
    else none

end Settings

end ScalarField
