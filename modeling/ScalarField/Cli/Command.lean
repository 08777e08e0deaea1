/-
Commands of the command line, and what they are told to work on.
-/
import ScalarField.Cli.Flag
import ScalarField.Graph.Writer
import ScalarField.Shell.Session
import ScalarField.Tape.Archive

namespace ScalarField

inductive Verb where
  | eval
  | tape
  | simplify
  | dot
  | compile
  | repl
  deriving DecidableEq

namespace Verb

def all : List Verb := [.eval, .tape, .simplify, .dot, .compile, .repl]

def name : Verb → Bytes
  | .eval => utf8 "eval"
  | .tape => utf8 "tape"
  | .simplify => utf8 "simplify"
  | .dot => utf8 "dot"
  | .compile => utf8 "compile"
  | .repl => utf8 "repl"

/-- The words that follow, as the usage has them. -/
def operands : Verb → Bytes
  | .eval => utf8 "<expr> <value>..."
  | .tape | .dot | .compile => utf8 "<expr>"
  | .simplify => utf8 "<expr> <lo:hi>..."
  | .repl => utf8 "[expr]"

def about : Verb → Bytes
  | .eval => utf8 ("evaluate an expression once; values are \"v\" (point, grad), " ++
      "\"lo:hi\" (interval) or \"a,b,c,d\" (simd4)")
  | .tape => utf8 "print the tape and its register pressure (and save it with -o)"
  | .simplify => utf8 "simplify the tape over a region, one interval per variable"
  | .dot => utf8 "print the expression graph for dot(1)"
  | .compile => utf8 "assemble the tape in every mode and report the code size (-v dumps it)"
  | .repl => utf8 "define and evaluate expressions interactively (type \"help\")"

def describe (v : Verb) : Bytes :=
  Bytes.line (utf8 "    shapevm [flags] " ++ v.name ++ utf8 " " ++ v.operands) ++
    Bytes.line (utf8 "        " ++ v.about)

end Verb

/-- What the user is told about the program. -/
def usage : Bytes :=
  Bytes.line (utf8 "usage:") ++ Verb.all.flatMap Verb.describe ++
    Bytes.line (utf8 "flag usage:") ++ Flag.listing

/-- A verb with its words. -/
inductive Command where
  | eval (path : Bytes) (values : List Bytes)
  | tape (path : Bytes)
  | simplify (path : Bytes) (region : List Bytes)
  | dot (path : Bytes)
  | compile (path : Bytes)
  | repl (path : Option Bytes)
  deriving DecidableEq

namespace Command

/-- The command of a verb and its words, if they are as many as it takes. -/
def ofVerb? : Verb → List Bytes → Option Command
  | .eval, path :: values => some (.eval path values)
  | .tape, [path] => some (.tape path)
  | .simplify, path :: region => some (.simplify path region)
  | .dot, [path] => some (.dot path)
  | .compile, [path] => some (.compile path)
  | .repl, [] => some (.repl none)
  | .repl, [path] => some (.repl (some path))
  | _, _ => none

def parse (word : Bytes) (words : List Bytes) : Except ShellError Command :=
  match Verb.all.find? (·.name == word) with
  | none => .error (.unknownCommand word)
  | some v =>
    match ofVerb? v words with
    | none => .error (.usage v.name v.operands)
    | some c => .ok c

end Command

/-- An expression as a command finds it: a graph with its tape, or only the
tape. -/
structure Source where
  graph : Option Graph
  tape : Tape

namespace Source

/-- The name for the standard input. -/
def inputName : Bytes := utf8 "-"

/-- Whether a file holds a saved tape and not a text. -/
def isSaved (path : Bytes) : Bool := (utf8 ".zst").isSuffixOf path

/-- The expression in a file. -/
def ofBytes (path content : Bytes) : Except ShellError Source :=
  if isSaved path then
    match Tape.decompress content with
    | .error e => .error (.content path (.tape e))
    | .ok t => .ok ⟨none, t⟩
  else
    match Graph.read content with
    | .error e => .error (.content path (.text e))
    | .ok (g, _) =>
      match Tape.buildOutputs g with
      | .error e => .error (.tape e)
      | .ok t => .ok ⟨some g, t⟩

/-- The drawing of the graph. -/
def draw (s : Source) : Reply :=
  match s.graph with
  | some g => { out := g.draw }
  | none => .failed .noGraph

end Source

end ScalarField
