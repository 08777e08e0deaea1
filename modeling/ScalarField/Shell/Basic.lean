/-
A shell evaluates, shows and simplifies tapes under settings that a user has
made, and compiles through one cache.
-/
import ScalarField.Shell.Settings
import ScalarField.Shell.Values
import ScalarField.Text.Display

namespace ScalarField

structure Shell where
  mode : Mode
  backend : Backend
  options : CodeOptions
  compiler : Compiler
  output : Bytes
  verbose : Bool

/-- A tape on its way to a file. -/
structure Saving where
  path : Bytes
  tape : Tape

/-- What a command says: its output, whether it failed after that, and what is
to be saved if it did not. -/
structure Reply where
  out : Bytes := []
  result : Except ShellError Unit := .ok ()
  saving : Option Saving := none

namespace Reply

def failed (e : ShellError) : Reply := { result := .error e }

/-- Output in front of a reply. -/
def after (out : Bytes) (r : Reply) : Reply := { r with out := out ++ r.out }

/-- The reply of a step that may fail, or of the rest. -/
def step {ε α : Type} (cause : ε → ShellError) (r : Except ε α) (rest : α → Reply) : Reply :=
  match r with
  | .ok x => rest x
  | .error e => failed (cause e)

end Reply

namespace Shell

/-- The shell of settings, on a host. -/
def start (host : Host) (s : Settings) : Except ShellError Shell :=
  match Mode.ofName? s.mode, Backend.ofName? s.backend, Level.ofName? s.level with
  | none, _, _ => .error (.unknownMode s.mode)
  | _, none, _ => .error (.unknownBackend s.backend)
  | _, _, none => .error (.unknownLevel s.level)
  | some mode, some backend, some level =>
    let options : CodeOptions :=
      { regs := s.registers, level := if level = .detect then none else some level }
    .ok {
      mode
      backend
      options
      compiler := { host, cache := { options } }
      output := s.output
      verbose := s.verbose }

def log (sh : Shell) (s : Bytes) : Shell := { sh with compiler := sh.compiler.note (.log s) }

/-- An engine of the shell. -/
def engine (sh : Shell) (t : Tape) : Engine :=
  { tape := t, backend := sh.backend, supply := .cache }

/-- Choice instructions of a tape. -/
def choiceCount (t : Tape) : Nat := t.instrs.countP Instr.isChoice

/-- `n of m choices resolved`. -/
def resolvedText (t : Tape) (choices : List Choice) : Bytes :=
  utf8 "# " ++ Bytes.ofNat (t.resolved choices) ++ utf8 " of " ++ Bytes.ofNat (choiceCount t) ++
    utf8 " choices resolved"

/-! ## Evaluating -/

/-- The results of an evaluation, one a line; for intervals, how many choices
were made as well. -/
def report {α : Type} (d : Domain α) (print : α → Bytes) (t : Tape) (out : List α)
    (choices : List Choice) : Bytes :=
  out.flatMap (fun v => Bytes.line (print v)) ++
    if d.mode = .interval ∧ 0 < choiceCount t then Bytes.line (resolvedText t choices) else []

/-- Evaluates a tape once on inputs. -/
def evaluateOn {α : Type} (sh : Shell) (d : Domain α) (print : α → Bytes) (t : Tape)
    (inputs : Array α) : Reply × Shell :=
  match (sh.engine t).func sh.compiler d.mode with
  | (.error e, engine, c) =>
    (.failed (.engine e), { sh with compiler := (engine.close c).2.2 })
  | (.ok f, engine, c) =>
    let c := c.note (.log (utf8 "evaluating " ++ Bytes.ofNat t.size ++ utf8 " instructions in " ++
      d.mode.name ++ utf8 " mode (" ++ f.backend.name ++ utf8 ")"))
    let (out, choices) := f.eval c d t inputs t.outputs.size
    (.step .routine out fun out => { out := report d print t out choices },
      { sh with compiler := (engine.close c).2.2 })

/-- Evaluates a tape once on the values of words. -/
def evaluateWith {α : Type} (sh : Shell) (d : Domain α) (print : α → Bytes) (t : Tape)
    (inputs : Except ShellError (List α)) : Reply × Shell :=
  match inputs with
  | .error e => (.failed e, sh)
  | .ok vs => sh.evaluateOn d print t vs.toArray

/-- Evaluates a tape once in the mode of the shell, on one word for each
variable. -/
def evaluate (sh : Shell) (t : Tape) (words : List Bytes) : Reply × Shell :=
  if words.length ≠ t.vars.size then (.failed (.valueCount t.vars.toList words.length), sh)
  else
    match sh.mode with
    | .point => sh.evaluateWith .point Binary.print t (readAll (readNumber .binary64) words)
    | .interval => sh.evaluateWith .interval Interval.print t (readAll readInterval words)
    | .simd4 => sh.evaluateWith .simd4 printLanes t (readAll readLanes words)
    | .grad => sh.evaluateWith .grad printGrad t (readGrads words)
    | .other c => (.failed (.noMode (.other c)), sh)

/-! ## Showing -/

/-- The tape is to be saved if there is a file for it. -/
def save (sh : Shell) (t : Tape) : Reply :=
  if sh.output.isEmpty then {} else { saving := some ⟨sh.output, t⟩ }

/-- The log line of a tape saved in `n` bytes. -/
def savedText (s : Saving) (n : Nat) : Bytes :=
  utf8 "saved " ++ Bytes.ofNat s.tape.size ++ utf8 " instructions to " ++ s.path ++ utf8 " (" ++
    Bytes.ofSize n ++ utf8 ")"

/-- The listing of a tape, then more. -/
def list (t : Tape) (rest : Reply) : Reply := .step .fault t.listing fun s => .after s rest

/-- Shows a tape and how many registers it takes. -/
def showTape (sh : Shell) (t : Tape) : Reply :=
  list t <|
    .step .tape (Assignment.allocate t sh.options.regs) fun a =>
      .step .fault t.pressure fun p =>
        .after (Bytes.line (utf8 "# " ++ Bytes.ofNat t.size ++ utf8 " instructions, pressure " ++
          Bytes.ofInt p ++ utf8 ", " ++ Bytes.ofInt a.spills ++ utf8 " spill slots with " ++
          Bytes.ofInt a.regs ++ utf8 " registers")) (sh.save t)

/-- Shows a tape simplified over a region, one word for each variable. -/
def simplify (sh : Shell) (t : Tape) (words : List Bytes) : Reply :=
  if words.length ≠ t.vars.size then .failed (.intervalCount t.vars.size words.length)
  else
    .step id (readAll readInterval words) fun region =>
      .step .region (t.simplifyOver region.toArray) fun (s, choices) =>
        .after (Bytes.line (resolvedText t choices ++ utf8 ", " ++ Bytes.ofNat t.size ++
          utf8 " -> " ++ Bytes.ofNat s.size ++ utf8 " instructions")) (list s (sh.save s))

/-- What is said about the code of a tape in one mode. -/
def describeCode (sh : Shell) (mode : Mode) (p : Program) : Bytes :=
  let code : Bytes := p.code.toList
  Bytes.line (Bytes.padRight (Bytes.ofChar ' ') 8 mode.name ++ utf8 " " ++
    Bytes.ofSize code.length ++ utf8 " of code, " ++ Bytes.ofInt p.assignment.spills ++
    utf8 " spill slots") ++ if sh.verbose then code.dump else []

/-- Shows how much code a tape takes in each of the modes. -/
def showCodeOf (sh : Shell) (t : Tape) : List Mode → Reply × Shell
  | [] => ({}, sh)
  | mode :: rest =>
    let (result, warnings) := sh.compiler.host.assemble sh.options t mode
    let sh := { sh with compiler := sh.compiler.warn warnings }
    match result with
    | .ok p =>
      let (reply, sh) := sh.showCodeOf t rest
      (.after (sh.describeCode mode p) reply, sh)
    | .error e =>
      if e.isUnsupported then
        let (reply, sh) := sh.showCodeOf t rest
        (.after (Bytes.line (Bytes.padRight (Bytes.ofChar ' ') 8 mode.name ++ utf8 " " ++
          e.message)) reply, sh)
      else (.failed (.code e), sh)

/-- Shows how much code a tape takes in every mode. -/
def showCode (sh : Shell) (t : Tape) : Reply × Shell := sh.showCodeOf t Mode.all

/-- Ends a shell: says how the cache was used, and gives its code back. -/
def close (sh : Shell) : Shell :=
  let cache := sh.compiler.cache
  let sh :=
    if cache.hits + cache.misses = 0 then sh
    else
      sh.log (utf8 "jit cache: " ++ Bytes.ofNat cache.hits ++ utf8 " hits, " ++
        Bytes.ofNat cache.misses ++ utf8 " misses, " ++ Bytes.ofSize sh.compiler.cacheSize ++
        utf8 " of code")
  { sh with compiler := sh.compiler.closeCache.2 }

end Shell

end ScalarField
