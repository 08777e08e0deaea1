/-
Routines: programs loaded into memory, counted by the references to them. The
memory is given back when the last reference is dropped.

A system may refuse to map memory, or to take it back. Neither happens here:
loading gives a routine, and closing fails only for want of a reference.
-/
import ScalarField.Code.Program
import ScalarField.Eval.Interp

namespace ScalarField

/-- Why a routine does not do what it is asked. -/
inductive RoutineError where
  /-- An evaluation after the last reference was dropped. -/
  | closed
  /-- A reference dropped that nobody had. -/
  | released
  | otherMode (own asked : Mode)
  | eval (cause : EvalError)
  deriving DecidableEq

def RoutineError.message : RoutineError → Bytes
  | .closed => utf8 "jit: routine closed"
  | .released => utf8 "jit: Close called on a released routine"
  | .otherMode own asked =>
    utf8 "jit: routine for " ++ own.name ++ utf8 " mode used as " ++ asked.name
  | .eval e => e.message

structure Routine where
  program : Program
  /-- The number of references. -/
  refs : Int32
  /-- How often the last reference was dropped, which gives the memory back. -/
  unmapped : Nat

namespace Routine

/-- A program loaded, with one reference. Mapping the memory for it does not
fail. -/
def load (p : Program) : Routine := ⟨p, 1, 0⟩

/-- Whether the code is in memory. -/
def mapped (r : Routine) : Bool := r.unmapped == 0

def retain (r : Routine) : Routine := { r with refs := r.refs + 1 }

/-- Drops a reference; the last one gives the memory back, and unmapping it does
not fail. -/
def close (r : Routine) : Except RoutineError Unit × Routine :=
  let refs := r.refs - 1
  if refs = 0 then (.ok (), { r with refs, unmapped := r.unmapped + 1 })
  else if refs < 0 then (.error .released, { r with refs })
  else (.ok (), { r with refs })

def pageBytes : Nat := 4096

/-- Bytes of memory that the code takes. -/
def size (r : Routine) : Nat :=
  if r.mapped then (r.program.code.size + (pageBytes - 1)) / pageBytes * pageBytes else 0

/-- Whether the routine can be used in a mode. -/
def checkMode (r : Routine) (m : Mode) : Except RoutineError Unit :=
  if m = r.program.mode then .ok () else .error (.otherMode r.program.mode m)

/-- Evaluates the routine. `e` is an evaluator of its tape, in which its choices
are kept. -/
def eval {α : Type} (r : Routine) (e : Evaluator α) (inputs : Array α) (outputs : Nat) :
    Except RoutineError (List α) × Evaluator α :=
  match r.program.tape.checkArity inputs.size outputs with
  | .error err => (.error (.eval err), e)
  | .ok () =>
    if r.refs ≤ 0 then (.error .closed, e)
    else if !r.mapped then (.error (.eval (.fault .range)), e)
    else
      let (out, e) := e.eval inputs outputs
      (out.mapError .eval, e)

end Routine

end ScalarField
