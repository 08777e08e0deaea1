/-
Engines: one tape, evaluated in any mode by compiled code or by the
interpreter.

What evaluates a mode is settled when it is first asked for. The automatic
backend compiles where it can and interprets elsewhere.
-/
import ScalarField.Code.Compiler
import ScalarField.Eval.Domain
import ScalarField.Eval.Region

namespace ScalarField

/-- How an engine evaluates. -/
inductive Backend where
  /-- Compiled code where it is possible. -/
  | auto
  | interp
  /-- Compiled code only. -/
  | jit
  | other (name : Bytes)
  deriving DecidableEq

namespace Backend

def name : Backend → Bytes
  | .auto => utf8 "auto"
  | .interp => utf8 "interp"
  | .jit => utf8 "jit"
  | .other s => s

/-- The backend of exactly this name. -/
def ofExact (s : Bytes) : Backend := ([Backend.auto, .interp, .jit].find? (·.name == s)).getD (.other s)

/-- The backend of a name, in any case; an empty one is automatic. -/
def ofName? (s : Bytes) : Option Backend :=
  match ofExact s.lower with
  | .other [] => some .auto
  | .other _ => none
  | b => some b

/-- The words for a name that is no backend's. -/
def unknown (s : Bytes) : Bytes := utf8 "engine: unknown backend " ++ s.quoted

end Backend

/-- What evaluates a tape in one mode. -/
inductive Func where
  | interpreted
  | compiled (routine : RoutineId)
  deriving DecidableEq

/-- The backend that a function belongs to. -/
def Func.backend : Func → Backend
  | .interpreted => .interp
  | .compiled _ => .jit

/-- Evaluates a tape once; with the choices made. -/
def Func.eval {α : Type} (f : Func) (c : Compiler) (d : Domain α) (t : Tape) (inputs : Array α)
    (outputs : Nat) : Except RoutineError (List α) × List Choice :=
  match f with
  | .interpreted =>
    let (out, e) := (Evaluator.new d.interp t).eval inputs outputs
    (out.mapError .eval, e.choices)
  | .compiled id =>
    match c.routines[id]? with
    | none => (.error .closed, [])
    | some r =>
      let (out, e) := r.eval (.new d.compiled r.program.tape) inputs outputs
      (out, e.choices)

inductive EngineError where
  | closed
  | compiling (mode : Mode) (cause : SupplyError)
  /-- The code does not fit the mode. -/
  | routine (cause : RoutineError)
  | unknownBackend (name : Bytes)
  deriving DecidableEq

def EngineError.message : EngineError → Bytes
  | .closed => utf8 "engine: closed"
  | .compiling m e => utf8 "engine: compiling " ++ m.name ++ utf8 " mode: " ++ e.message
  | .routine e => e.message
  | .unknownBackend s => Backend.unknown s

/-- Where the compiled code of an engine comes from. -/
inductive Supply where
  | cache
  | direct (options : CodeOptions)

structure Engine where
  tape : Tape
  backend : Backend := .auto
  supply : Supply := .direct {}
  closed : Bool := false
  /-- What has been settled so far. -/
  funcs : List (Mode × Func) := []
  /-- The routines that the engine has a reference to. -/
  routines : List RoutineId := []

namespace Engine

/-- Asks for compiled code. -/
def obtain (e : Engine) (c : Compiler) (mode : Mode) : Except SupplyError RoutineId × Compiler :=
  match e.supply with
  | .cache => c.get e.tape mode
  | .direct o =>
    let (result, c) := c.compile o e.tape mode
    (result.mapError .code, c)

/-- Settles what evaluates a mode. -/
def settle (e : Engine) (mode : Mode) (f : Func) : Engine :=
  { e with funcs := (mode, f) :: e.funcs }

/-- Settles on compiled code, which is given back if it is for another mode, or
on the interpreter if that is allowed and compiling is not possible. -/
def compiled (e : Engine) (c : Compiler) (mode : Mode) :
    Except EngineError Func × Engine × Compiler :=
  match e.obtain c mode with
  | (.ok id, c) =>
    match c.checkMode id mode with
    | .error err => (.error (.routine err), e, (c.close id).2)
    | .ok () =>
      (.ok (.compiled id), { e.settle mode (.compiled id) with routines := e.routines ++ [id] }, c)
  | (.error err, c) =>
    if e.backend = .jit ∨ !err.isUnsupported then (.error (.compiling mode err), e, c)
    else
      (.ok .interpreted, e.settle mode .interpreted,
        c.note (.log (mode.name ++ utf8 " mode: interpreting: " ++ err.message)))

/-- What evaluates a mode. -/
def func (e : Engine) (c : Compiler) (mode : Mode) : Except EngineError Func × Engine × Compiler :=
  if e.closed then (.error .closed, e, c)
  else
    match e.funcs.lookup mode with
    | some f => (.ok f, e, c)
    | none =>
      match e.backend with
      | .auto | .jit => e.compiled c mode
      | .interp => (.ok .interpreted, e.settle mode .interpreted, c)
      | .other s => (.error (.unknownBackend s), e, c)

/-- A new engine for the tape simplified over a region. -/
def simplify (e : Engine) (c : Compiler) (region : Array Interval) :
    Except RegionError Engine × Compiler :=
  match e.tape.simplifyOver region with
  | .error err => (.error err, c)
  | .ok (t, _) =>
    (.ok { tape := t, backend := e.backend, supply := e.supply },
      c.note (.log (utf8 "simplified " ++ Bytes.ofNat e.tape.size ++ utf8 " instructions to " ++
        Bytes.ofNat t.size)))

/-- Drops the references of an engine; with the errors on the way. -/
def close (e : Engine) (c : Compiler) : List RoutineError × Engine × Compiler :=
  if e.closed then ([], e, c)
  else
    let (errors, c) := c.closeAll e.routines
    (errors, { e with closed := true, funcs := [], routines := [] }, c)

end Engine

end ScalarField
