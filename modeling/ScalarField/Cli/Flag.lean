/-
Flags of the command line.

A word that starts with one dash or two is a flag, up to the first word that
does not or to two dashes alone. The value of a flag stands behind an equals
sign or is the next word; a switch has one only behind an equals sign.
-/
import ScalarField.Shell.Settings
import ScalarField.Text.Display

namespace ScalarField

inductive Flag where
  | backend
  | config
  | help
  | level
  | mode
  | output
  | registers
  | verbose
  deriving DecidableEq

namespace Flag

/-- All flags in the order of their names. -/
def all : List Flag := [.backend, .config, .help, .level, .mode, .output, .registers, .verbose]

def name : Flag → Bytes
  | .backend => utf8 "backend"
  | .config => utf8 "config"
  | .help => utf8 "h"
  | .level => utf8 "level"
  | .mode => utf8 "mode"
  | .output => utf8 "o"
  | .registers => utf8 "regs"
  | .verbose => utf8 "v"

def ofName? (s : Bytes) : Option Flag := all.find? (·.name == s)

/-- What is said about a flag. -/
def about : Flag → Bytes
  | .backend => utf8 "evaluation backend (auto, interp, jit)"
  | .config => utf8 "YAML file with default settings"
  | .help => utf8 "show usage help"
  | .level => utf8 "JIT instruction set level (none, sse2, sse41, detect)"
  | .mode => utf8 "evaluation mode (point, interval, simd4, grad)"
  | .output => utf8 "file to save the (compressed) tape to"
  | .registers => utf8 "number of registers given to the JIT register allocator"
  | .verbose => utf8 "verbose"

/-- Whether a flag stands for itself and needs no value. -/
def isSwitch : Flag → Bool
  | .help | .verbose => true
  | _ => false

/-- The kind of value, as the list of flags has it. -/
def kind : Flag → Bytes
  | .help | .verbose => []
  | .registers => utf8 " int"
  | _ => utf8 " string"

/-- The value of a flag that is not given, as the list of flags has it. -/
def usual : Flag → Bytes
  | .backend => quotedUsual ({} : Settings).backend
  | .level => quotedUsual ({} : Settings).level
  | .mode => quotedUsual ({} : Settings).mode
  | .registers => utf8 " (default " ++ Bytes.ofInt ({} : Settings).registers ++ utf8 ")"
  | _ => []
where
  quotedUsual (s : Bytes) : Bytes := utf8 " (default " ++ s.quoted ++ utf8 ")"

/-- The entry of a flag: what is said about a switch stands on its line. -/
def describe (f : Flag) : Bytes :=
  Bytes.line (utf8 "  -" ++ f.name ++ f.kind ++ utf8 (if f.isSwitch then "\t" else "\n    \t") ++
    f.about ++ f.usual)

/-- The list of flags. -/
def listing : Bytes := all.flatMap describe

end Flag

/-! ## Reading -/

inductive FlagError where
  /-- Help is wanted under a name that is no flag. -/
  | help
  | malformed (word : Bytes)
  | undefined (name : Bytes)
  | noValue (flag : Flag)
  | badSwitch (flag : Flag) (value : Bytes)
  | badValue (flag : Flag) (value : Bytes) (cause : ReadError)
  deriving DecidableEq

namespace FlagError

def message : FlagError → Bytes
  | .help => []
  | .malformed w => utf8 "bad flag syntax: " ++ w
  | .undefined n => utf8 "flag provided but not defined: -" ++ n
  | .noValue f => utf8 "flag needs an argument: -" ++ f.name
  | .badSwitch f v =>
    utf8 "invalid boolean value " ++ v.quoted ++ utf8 " for -" ++ f.name ++ utf8 ": parse error"
  | .badValue f v e =>
    utf8 "invalid value " ++ v.quoted ++ utf8 " for flag -" ++ f.name ++ utf8 ": " ++
      match e with
      | .syntactic => utf8 "parse error"
      | .range => utf8 "value out of range"

/-- What the user sees: the message, if there is one, and the list of flags. -/
def report (e : FlagError) : Bytes :=
  (if e = .help then [] else Bytes.line e.message) ++ Bytes.line (utf8 "Usage of shapevm:") ++
    Flag.listing

/-- Asking for help is no failure. -/
def exitCode (e : FlagError) : Nat := if e = .help then 0 else 2

end FlagError

/-- The flags given. -/
structure Given where
  help : Bool := false
  config : Bytes := []
  backend : Option Bytes := none
  level : Option Bytes := none
  mode : Option Bytes := none
  output : Option Bytes := none
  registers : Option Int := none
  verbose : Option Bool := none

namespace Given

def trueWords : List String := ["1", "t", "T", "true", "TRUE", "True"]

def falseWords : List String := ["0", "f", "F", "false", "FALSE", "False"]

/-- The value of a switch. -/
def readSwitch (f : Flag) (v : Bytes) : Except FlagError Bool :=
  if trueWords.any (utf8 · == v) then .ok true
  else if falseWords.any (utf8 · == v) then .ok false
  else .error (.badSwitch f v)

/-- Gives a flag its value; of two values the later counts. -/
def set (g : Given) (f : Flag) (v : Bytes) : Except FlagError Given :=
  match f with
  | .backend => .ok { g with backend := some v }
  | .config => .ok { g with config := v }
  | .help => (readSwitch f v).map fun b => { g with help := b }
  | .level => .ok { g with level := some v }
  | .mode => .ok { g with mode := some v }
  | .output => .ok { g with output := some v }
  | .registers =>
    ((readInteger v).mapError (.badValue f v)).map fun n => { g with registers := some n }
  | .verbose => (readSwitch f v).map fun b => { g with verbose := some b }

/-- The settings with those of the flags in front. -/
def applyTo (g : Given) (s : Settings) : Settings :=
  { s with
    mode := g.mode.getD s.mode
    backend := g.backend.getD s.backend
    level := g.level.getD s.level
    registers := g.registers.getD s.registers
    verbose := g.verbose.getD s.verbose
    output := g.output.getD s.output }

/-- What a word is among flags. -/
inductive Word where
  | plain
  /-- The flags end behind it. -/
  | stop
  | malformed
  | flag (name : Bytes) (value : Option Bytes)

/-- The name of a flag and its value, given what stands behind the dashes. -/
def Word.ofBody (s : Bytes) : Word :=
  match s with
  | [] => .malformed
  | b :: rest =>
    if b = Bytes.ofChar '-' ∨ b = Bytes.ofChar '=' then .malformed
    else
      let (name, value) := Bytes.cut (Bytes.ofChar '=') rest
      .flag (b :: name) value

def Word.ofBytes (w : Bytes) : Word :=
  match w with
  | b :: c :: rest =>
    if b ≠ Bytes.ofChar '-' then .plain
    else if c ≠ Bytes.ofChar '-' then .ofBody (c :: rest)
    else if rest.isEmpty then .stop
    else .ofBody rest
  | _ => .plain

/-- Takes the flags from the front of words, and leaves the rest. -/
def parseFrom (g : Given) : List Bytes → Except FlagError (Given × List Bytes)
  | [] => .ok (g, [])
  | w :: rest =>
    match Word.ofBytes w with
    | .plain => .ok (g, w :: rest)
    | .stop => .ok (g, rest)
    | .malformed => .error (.malformed w)
    | .flag name value =>
      match Flag.ofName? name with
      | none => .error (if name = utf8 "help" then .help else .undefined name)
      | some f =>
        match value, f.isSwitch, rest with
        | some v, _, rest => (g.set f v).bind fun g => g.parseFrom rest
        | none, true, rest => (g.set f (utf8 "true")).bind fun g => g.parseFrom rest
        | none, false, v :: rest => (g.set f v).bind fun g => g.parseFrom rest
        | none, false, [] => .error (.noValue f)

def parse (words : List Bytes) : Except FlagError (Given × List Bytes) := parseFrom {} words

end Given

end ScalarField
