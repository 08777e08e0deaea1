/-
What can go wrong when expressions are loaded, shown and evaluated on behalf
of a user, and the words for it.
-/
import ScalarField.Engine
import ScalarField.Graph.Error
import ScalarField.Number.Read

namespace ScalarField

/-- Why a file cannot be read or written. -/
inductive FileError where
  | missing (path : Bytes)
  /-- Anything else, in the words of the system. -/
  | other (words : Bytes)
  deriving DecidableEq

def FileError.message : FileError → Bytes
  | .missing path => utf8 "open " ++ path ++ utf8 ": no such file or directory"
  | .other s => s

/-- Why a word is no number, in words. -/
def ReadError.message (word : Bytes) (e : ReadError) : Bytes :=
  utf8 "strconv.ParseFloat: parsing " ++ word.quoted ++ utf8 ": " ++
    match e with
    | .syntactic => utf8 "invalid syntax"
    | .range => utf8 "value out of range"

inductive ShellError where
  | unknownMode (word : Bytes)
  | unknownBackend (word : Bytes)
  | unknownLevel (word : Bytes)
  | number (word : Bytes) (cause : ReadError)
  | badInterval (word : Bytes)
  | laneCount (word : Bytes)
  | valueCount (vars : List Bytes) (found : Nat)
  | intervalCount (want found : Nat)
  /-- A gradient of fewer than three variables. -/
  | tooFewAxes
  | noMode (mode : Mode)
  | text (cause : TextError)
  | tape (cause : TapeError)
  | engine (cause : EngineError)
  | region (cause : RegionError)
  | routine (cause : RoutineError)
  | code (cause : CodeError)
  | fault (cause : Fault)
  | file (cause : FileError)
  /-- A file that does not hold what it should. -/
  | content (path : Bytes) (cause : ShellError)
  | longLine
  /-- A command on the expression before there is one. -/
  | empty
  | noGraph
  | modeUsage
  | badConfig
  | unknownCommand (word : Bytes)
  | usage (name help : Bytes)
  deriving DecidableEq

namespace ShellError

def message : ShellError → Bytes
  | .unknownMode w => Mode.unknown w
  | .unknownBackend w => Backend.unknown w
  | .unknownLevel w => Level.unknown w
  | .number w e => e.message w
  | .badInterval w => utf8 "bad interval " ++ w.quoted
  | .laneCount w => utf8 "expected 4 lanes in " ++ w.quoted
  | .valueCount vars found =>
    utf8 "expected " ++ Bytes.ofNat vars.length ++ utf8 " values (" ++
      Bytes.join (utf8 " ") vars ++ utf8 "), found " ++ Bytes.ofNat found
  | .intervalCount want found =>
    utf8 "expected " ++ Bytes.ofNat want ++ utf8 " intervals, found " ++ Bytes.ofNat found
  | .tooFewAxes => utf8 "grad mode needs x, y and z"
  | .noMode m => utf8 "unknown mode " ++ m.name
  | .text e => e.message
  | .tape e => e.message
  | .engine e => e.message
  | .region e => e.message
  | .routine e => e.message
  | .code e => e.message
  | .fault f => f.message.getD []
  | .file e => e.message
  | .content path e => path ++ utf8 ": " ++ e.message
  | .longLine => utf8 "bufio.Scanner: token too long"
  | .empty => utf8 "no expression defined yet"
  | .noGraph => utf8 "a saved tape has no graph; use the text form"
  | .modeUsage => utf8 "usage: mode <mode>"
  | .badConfig => utf8 "bad config"
  | .unknownCommand w => utf8 "unknown command " ++ w.quoted
  | .usage name help => utf8 "usage: " ++ name ++ utf8 " " ++ help

end ShellError

end ScalarField
