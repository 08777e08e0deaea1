/-
The text form of a graph: one definition a line, `<name> <op> <args...>`.
Blank lines and lines that start with `#` are passed over. A definition is a
variable `var-<name>`, a constant or an operator applied to names defined on
earlier lines. The last definition is the result.
-/
import ScalarField.Graph.Basic
import ScalarField.Number.Read
import ScalarField.Text.Reading

namespace ScalarField

/-- What the lines read so far define. -/
structure Reader where
  graph : Graph
  /-- The nodes by the names that stand for them. -/
  names : Std.HashMap Bytes NodeId
  /-- The node defined last. -/
  last : Option NodeId

namespace Reader

def start : Reader := ⟨.empty, ∅, none⟩

/-- Whether a line defines nothing. -/
def isSkipped (line : Bytes) : Bool :=
  match line.trim with
  | [] => true
  | b :: _ => b == Bytes.ofChar '#'

/-- The mark of a variable. -/
def varMark : Bytes := utf8 "var-"

/-- The nodes that names stand for. -/
def lookup (names : Std.HashMap Bytes NodeId) : List Bytes → Except LineFault (List NodeId)
  | [] => .ok []
  | a :: rest =>
    match names[a]? with
    | none => .error (.undefined a)
    | some id =>
      match lookup names rest with
      | .ok ids => .ok (id :: ids)
      | .error e => .error e

/-- A node added under the line's own account of what went wrong. -/
def adding : Except GraphError (NodeId × Graph) → Except LineFault (NodeId × Graph)
  | .ok r => .ok r
  | .error e => .error (.node e)

/-- The node that an operator word and its arguments define. In a full graph a
new node is an error of the line, also that of a variable or a constant, at
which a program that takes these for granted stops. -/
def define (r : Reader) (word : Bytes) (args : List Bytes) : Except LineFault (NodeId × Graph) :=
  if varMark.isPrefixOf word then
    let name := word.drop varMark.length
    if name.isEmpty || !args.isEmpty then .error (.badVariable word)
    else
      match r.graph.var name with
      | (.ok id, g) => .ok (id, g)
      | (.error e, _) => .error (.node e)
  else if word == utf8 "const" then
    match args with
    | [a] =>
      match Binary.read .binary64 a with
      | .ok v => adding (r.graph.const v)
      | .error _ => .error (.badConstant a)
    | _ => .error .constArity
  else
    match Op.ofName? word with
    | none => .error (.unknownOp word)
    | some op =>
      if args.length ≠ op.arity then .error (.opArity op args.length)
      else
        match lookup r.names args with
        | .error e => .error e
        | .ok ids =>
          adding (r.graph.insert
            { code := op.code, left := ids.getD 0 0, right := ids.getD 1 0 })

/-- Reads one line. -/
def line (r : Reader) (s : Bytes) : Except LineFault Reader :=
  if isSkipped s then .ok r
  else
    match s.fields with
    | name :: word :: args =>
      if r.names.contains name then .error (.redefined name)
      else
        match r.define word args with
        | .error e => .error e
        | .ok (id, g) => .ok ⟨g, r.names.insert name id, some id⟩
    | _ => .error .shape

/-- Reads lines on; `n` lines stand before them. -/
def lines (r : Reader) (n : Nat) : List Bytes → Except TextError Reader
  | [] => .ok r
  | s :: rest =>
    match r.line s with
    | .error e => .error (.line (n + 1) e)
    | .ok r => r.lines (n + 1) rest

end Reader

namespace Graph

/-- A line of a text has fewer bytes. -/
def lineLimit : Nat := 1048576

/-- Reads a graph and its result. -/
def read (s : Bytes) : Except TextError (Graph × NodeId) :=
  let ls := Lines.read lineLimit s
  match Reader.start.lines 0 ls.lines with
  | .error e => .error e
  | .ok r =>
    if ls.tooLong then .error .tooLong
    else
      match r.last with
      | none => .error (.line ls.lines.length .noDefinition)
      | some id =>
        match r.graph.output id with
        | .ok g => .ok (g, id)
        | .error e => .error (.line ls.lines.length (.node e))

end Graph

end ScalarField
