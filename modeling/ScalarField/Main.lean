/-
The command line program.
-/
import ScalarField.Cli.Console
import ScalarField.Text.Reading
import Std.Time.Format

namespace ScalarField

namespace Main

/-- The text of bytes, with U+FFFD for what is no character. -/
def textOf (s : Bytes) : String := String.fromUTF8? (.mk s.toArray) |>.getD (lossy s)
where
  lossy (s : Bytes) : String :=
    String.ofList ((Rune.read s).map fun r =>
      match r with
      | .char c => c
      | .stray _ => '\uFFFD')

def fileError (path : Bytes) : IO.Error → FileError
  | .noFileOrDirectory _ _ _ => .missing path
  | e => .other (utf8 (toString e))

/-- A file operation with its failure as a value. -/
def attempt {α : Type} (path : Bytes) (act : IO α) : IO (Except FileError α) := do
  match ← act.toBaseIO with
  | .ok a => return .ok a
  | .error e => return .error (fileError path e)

/-- Takes a step for each line of a stream, as soon as the line has ended. -/
partial def eachLine {σ : Type} (input : IO.FS.Stream) (step : σ → Bytes → IO σ) (s : σ)
    (t : Typed) : IO σ := do
  let piece ← input.read 4096
  if piece.isEmpty then t.close.foldlM step s
  else
    let (lines, t) := t.feed piece.toList
    eachLine input step (← lines.foldlM step s) t

/-- Reads a stream to its end. -/
partial def readAll (input : IO.FS.Stream) (done : ByteArray) : IO Bytes := do
  let piece ← input.read 65536
  if piece.isEmpty then return done.toList else readAll input (done ++ piece)

def put (output : IO.FS.Stream) (s : Bytes) : IO Unit := do
  output.write (.mk s.toArray)
  output.flush

/-- Adds to a file. -/
def appendTo (path s : Bytes) : IO Unit :=
  IO.FS.withFile (textOf path) .append fun h => h.write (.mk s.toArray)

/-- The console of the process; `id` tells the logs of runs apart. -/
def console (id : Bytes) (input output errors : IO.FS.Stream) : Console IO where
  read path := attempt path do return (← IO.FS.readBinFile (textOf path)).toList
  write path s := attempt path (IO.FS.writeBinFile (textOf path) (.mk s.toArray))
  append path s := do let _ ← attempt path (appendTo path s)
  input := readAll input .empty
  eachLine step s := eachLine input step s {}
  print := put output
  log s := do
    let now ← Std.Time.PlainDateTime.now
    put errors (Bytes.line (utf8 (now.format "uuuu/MM/dd HH:mm:ss") ++ utf8 " shapevm[" ++ id ++
      utf8 "] " ++ s))
  complain := put errors

/-- Runs the program on its arguments. -/
def runArgs (args : List String) : IO UInt32 := do
  let setting ← IO.getEnv (textOf Host.settingName)
  let id := Bytes.toHex (← IO.getRandomBytes 4).toList
  let c := console id (← IO.getStdin) (← IO.getStdout) (← IO.getStderr)
  let (host, _) := Host.start (utf8 (setting.getD ""))
  return UInt32.ofNat (← c.run host (args.map utf8))

end Main

end ScalarField

def main (args : List String) : IO UInt32 := ScalarField.Main.runArgs args
