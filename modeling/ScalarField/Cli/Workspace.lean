/-
The program run in memory, on files that are values.

A file is named by its path from the working directory, in which steps to the
same directory count for nothing. A directory is there if it holds a file.
-/
import ScalarField.Cli.Console
import ScalarField.Text.Reading

namespace ScalarField

/-- What the program tells the user beside its output. -/
inductive Remark where
  | log (s : Bytes)
  | complaint (s : Bytes)
  deriving DecidableEq

/-- The files of a working directory, and what the program has said so far. -/
structure Workspace where
  files : List (Bytes × Bytes) := []
  out : Bytes := []
  /-- The remarks, last one first. -/
  remarks : List Remark := []

namespace Workspace

/-- The name of the file that a path leads to. -/
def nameOf (path : Bytes) : Bytes :=
  Bytes.join (utf8 "/") ((path.split (Bytes.ofChar '/')).filter fun p => p != utf8 ".")

/-- The directory in a name, with the stroke behind it; empty for the working
directory. -/
def directoryOf (name : Bytes) : Bytes :=
  (name.reverse.dropWhile (· != Bytes.ofChar '/')).reverse

def hasDirectory (w : Workspace) (dir : Bytes) : Bool :=
  dir.isEmpty || w.files.any fun f => dir.isPrefixOf f.1

def read (w : Workspace) (path : Bytes) : Except FileError Bytes :=
  match w.files.lookup (nameOf path) with
  | some s => .ok s
  | none => .error (.missing path)

/-- Makes a file, or writes over it. -/
def write (w : Workspace) (path s : Bytes) : Except FileError Unit × Workspace :=
  let name := nameOf path
  if !name.isEmpty && w.hasDirectory (directoryOf name) then
    (.ok (), { w with files := (name, s) :: w.files.filter (·.1 != name) })
  else (.error (.missing path), w)

/-- Adds to a file. -/
def append (w : Workspace) (path s : Bytes) : Workspace :=
  (w.write path ((w.read path).toOption.getD [] ++ s)).2

def remark (w : Workspace) (r : Remark) : Workspace := { w with remarks := r :: w.remarks }

/-- The console of a workspace, with a standard input. -/
def console (stdin : Bytes) : Console (StateM Workspace) where
  read path := do return (← get).read path
  write path s := modifyGet (·.write path s)
  append path s := modify (·.append path s)
  input := pure stdin
  eachLine step s := (Typed.lines stdin).foldlM step s
  print s := modify fun w => { w with out := w.out ++ s }
  log s := modify (·.remark (.log s))
  complain s := modify (·.remark (.complaint s))

/-- Runs the program on files: its exit code, what it said, and the files that
it leaves. -/
def run (host : Host) (files : List (Bytes × Bytes)) (stdin : Bytes) (words : List Bytes) :
    Nat × Workspace :=
  ((console stdin).run host words).run { files }

end Workspace

end ScalarField
