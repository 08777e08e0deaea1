/-
Sessions: definitions entered line by line, and commands on the expression
defined last.

Every definition is read anew together with the lines before it, so the tape
of a session is always that of its lines; a line that is refused leaves the
session as it was.
-/
import ScalarField.Graph.Reader
import ScalarField.Shell.Basic
import ScalarField.Tape.OfGraph

namespace ScalarField

structure Session where
  shell : Shell
  /-- The lines accepted so far. -/
  lines : List Bytes := []
  /-- Their tape, once there is one. -/
  tape : Option Tape := none

namespace Session

/-- What the user is told about the commands. -/
def help : Bytes := utf8 (
  "definitions use the text format, e.g. \"_0 var-x\" or \"_2 mul _0 _1\";\n" ++
  "the last definition is the expression. Commands:\n" ++
  "    eval <value>...      evaluate in the current mode\n" ++
  "    mode <mode>          switch to point, interval, simd4 or grad\n" ++
  "    simplify <lo:hi>...  print the tape simplified over a region\n" ++
  "    tape                 print the tape\n" ++
  "    text                 print the definitions\n" ++
  "    reset                forget every definition\n")

/-- The tape of lines. -/
def tapeOf (lines : List Bytes) : Except ShellError Tape :=
  match Graph.read (Bytes.join (utf8 "\n") lines) with
  | .error e => .error (.text e)
  | .ok (g, _) => (Tape.buildOutputs g).mapError .tape

/-- Adds lines, all or none of them. -/
def define (s : Session) (lines : List Bytes) : Reply × Session :=
  match tapeOf (s.lines ++ lines) with
  | .error e => (.failed e, s)
  | .ok t => ({}, { s with lines := s.lines ++ lines, tape := some t })

/-- Switches the mode. -/
def switch (s : Session) : List Bytes → Reply × Session
  | [w] =>
    match Mode.ofName? w with
    | some mode => ({}, { s with shell := { s.shell with mode } })
    | none => (.failed (.unknownMode w), s)
  | _ => (.failed .modeUsage, s)

/-- A command on the tape, if there is one. -/
def onTape (s : Session) (f : Tape → Reply × Session) : Reply × Session :=
  match s.tape with
  | some t => f t
  | none => (.failed .empty, s)

/-- Obeys a line: a command if it starts with the name of one, nothing if it is
blank or a comment, and a definition otherwise. -/
def exec (s : Session) (line : Bytes) : Reply × Session :=
  match line.fields with
  | [] => ({}, s)
  | word :: args =>
    if word.head? == some (Bytes.ofChar '#') then ({}, s)
    else if word == utf8 "help" then ({ out := help }, s)
    else if word == utf8 "reset" then ({}, { s with lines := [], tape := none })
    else if word == utf8 "mode" then s.switch args
    else if word == utf8 "text" then ({ out := s.lines.flatMap Bytes.line }, s)
    else if word == utf8 "eval" then
      s.onTape fun t =>
        let (reply, shell) := s.shell.evaluate t args
        (reply, { s with shell })
    else if word == utf8 "tape" then s.onTape fun t => (Shell.list t {}, s)
    else if word == utf8 "simplify" then s.onTape fun t => (s.shell.simplify t args, s)
    else s.define [line]

/-- A line of a file that is loaded into a session has fewer bytes. -/
def lineLimit : Nat := 65536

/-- Defines the lines of a text. -/
def preload (s : Session) (text : Bytes) : Reply × Session :=
  let ls := Lines.read lineLimit text
  if ls.tooLong then (.failed .longLine, s) else s.define ls.lines

end Session

end ScalarField
