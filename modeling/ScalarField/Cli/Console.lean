/-
The program itself, against whatever carries out its effects.
-/
import ScalarField.Cli.Command

namespace ScalarField

/-- What carries out the effects of the program. -/
structure Console (m : Type → Type) where
  /-- The content of a file. -/
  read : Bytes → m (Except FileError Bytes)
  /-- Makes a file, or writes over it. -/
  write : Bytes → Bytes → m (Except FileError Unit)
  /-- Adds to a file, and makes it if it is missing; a failure is passed over. -/
  append : Bytes → Bytes → m Unit
  /-- All of the standard input. -/
  input : m Bytes
  /-- Takes a step for each line of the standard input. -/
  eachLine : {σ : Type} → (σ → Bytes → m σ) → σ → m σ
  /-- Output. -/
  print : Bytes → m Unit
  /-- A line of the log. -/
  log : Bytes → m Unit
  /-- What the user is told about a failure. -/
  complain : Bytes → m Unit

namespace Console

variable {m : Type → Type} [Monad m] (c : Console m)

/-- Passes the notes of a shell on to the log, if the user wants them. -/
def logNotes (sh : Shell) : m Shell := do
  let (notes, compiler) := sh.compiler.takeNotes
  if sh.verbose then notes.forM fun n => c.log n.text
  return { sh with compiler }

/-- Saves a tape. The file is made even if the tape cannot be encoded. -/
def save (sh : Shell) (s : Saving) : m (Except ShellError Unit × Shell) := do
  let content := s.tape.compress
  match ← c.write s.path (content.toOption.getD []), content with
  | .error e, _ => return (.error (.file e), sh)
  | .ok _, .error e => return (.error (.tape e), sh)
  | .ok _, .ok bytes => return (.ok (), sh.log (Shell.savedText s bytes.length))

/-- Saves what a reply leaves to be saved, and says whether all went well. -/
def complete (sh : Shell) (r : Reply) : m (Except ShellError Unit × Shell) :=
  match r.result, r.saving with
  | .ok _, some s => c.save sh s
  | result, _ => return (result, sh)

/-! ## Sessions -/

/-- What stands in front of output in a session. -/
def resultMark : Bytes := utf8 "\x1b[31m=\x1b[0m "

/-- The line of a session remembered last. -/
def lastOf (history : Bytes) : Bytes :=
  (((history.split 10).dropLast.map Bytes.trim).filter fun l => !l.isEmpty).getLast?.getD []

/-- Remembers a line unless it is empty or the same as the last. -/
def remember (path last line : Bytes) : m Bytes := do
  if line.isEmpty ∨ line = last then return last
  unless path.isEmpty do c.append path (Bytes.line line)
  return line

/-- Answers a line of a session. -/
def answer (s : Session) (line : Bytes) : m Session := do
  let (reply, s) := s.exec line
  let (result, shell) ← c.complete s.shell reply
  let shell ← c.logNotes shell
  match result with
  | .error e => c.print (Bytes.line (utf8 "error: " ++ e.message))
  | .ok _ => unless reply.out.isEmpty do c.print (resultMark ++ reply.out)
  return { s with shell }

/-- Answers the lines of the standard input and remembers them. -/
def converse (history : Bytes) (s : Session) : m Shell := do
  let last ←
    if history.isEmpty then pure []
    else do
      c.append history []
      pure (lastOf ((← c.read history).toOption.getD []))
  let (s, _) ← c.eachLine
    (fun (s, last) line => do
      let s ← c.answer s line
      return (s, ← c.remember history last line)) (s, last)
  return s.shell

/-- A session, with the definitions of a file if one is given. -/
def runSession (history : Bytes) (sh : Shell) (path : Option Bytes) :
    m (Except ShellError Unit × Shell) := do
  match path with
  | none => return (.ok (), ← c.converse history { shell := sh })
  | some path =>
    match ← c.read path with
    | .error e => return (.error (.file e), sh)
    | .ok content =>
      let (reply, s) := Session.preload { shell := sh } content
      match reply.result with
      | .error e => return (.error e, s.shell)
      | .ok _ => return (.ok (), ← c.converse history s)

/-! ## Commands -/

/-- The expression that a path names. -/
def load (path : Bytes) : m (Except ShellError Source) := do
  if path = Source.inputName then return Source.ofBytes path (← c.input)
  match ← c.read path with
  | .error e => return .error (.file e)
  | .ok content => return Source.ofBytes path content

/-- Carries out a command on an expression and prints what it says. -/
def onSource (sh : Shell) (path : Bytes) (f : Source → Reply × Shell) :
    m (Except ShellError Unit × Shell) := do
  match ← c.load path with
  | .error e => return (.error e, sh)
  | .ok source =>
    let (reply, sh) := f source
    c.print reply.out
    c.complete sh reply

def runCommand (history : Bytes) (sh : Shell) : Command → m (Except ShellError Unit × Shell)
  | .eval path values => c.onSource sh path fun s => sh.evaluate s.tape values
  | .tape path => c.onSource sh path fun s => (sh.showTape s.tape, sh)
  | .simplify path region => c.onSource sh path fun s => (sh.simplify s.tape region, sh)
  | .dot path => c.onSource sh path fun s => (s.draw, sh)
  | .compile path => c.onSource sh path fun s => sh.showCode s.tape
  | .repl path => c.runSession history sh path

/-- The settings of the user, with those of the settings file behind the flags. -/
def settings (g : Given) : m (Except ShellError Settings) := do
  if g.config.isEmpty then return .ok (g.applyTo {})
  match ← c.read g.config with
  | .error e => return .error (.file e)
  | .ok content =>
    match ({} : Settings).configure? content with
    | none => return .error (.content g.config .badConfig)
    | some s => return .ok (g.applyTo s)

/-- Tells the user why the program failed. -/
def fail (e : ShellError) : m Nat := do
  c.complain (Bytes.line e.message)
  return 1

/-- Runs the command that words make, and gives the exit code. -/
def runWords (host : Host) (s : Settings) (word : Bytes) (words : List Bytes) : m Nat := do
  match Shell.start host s with
  | .error e => c.fail e
  | .ok sh =>
    let (result, sh) ←
      match Command.parse word words with
      | .error e => pure (.error e, sh)
      | .ok command => c.runCommand s.history sh command
    let _ ← c.logNotes sh.close
    match result with
    | .error e => c.fail e
    | .ok _ => return 0

/-- Runs the program on the words of the command line, and gives the exit
code. -/
def run (host : Host) (words : List Bytes) : m Nat := do
  match Given.parse words with
  | .error e =>
    c.complain e.report
    return e.exitCode
  | .ok (g, rest) =>
    match g.help, rest with
    | false, word :: words =>
      match ← c.settings g with
      | .error e => c.fail e
      | .ok s => c.runWords host s word words
    | _, _ =>
      c.complain usage
      return 1

end Console

end ScalarField
