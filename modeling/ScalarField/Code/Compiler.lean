/-
The compiler of a process: every routine loaded so far, a cache of them, and
what was noted on the way.

The cache holds routines by the digest of their tape and their mode, so that
equal tapes are compiled once. Failures are kept too. The cache has a
reference of its own to each routine, and gives one to every client.
-/
import ScalarField.Code.Routine
import ScalarField.Tape.Archive

namespace ScalarField

/-- What goes to the log. -/
inductive Note where
  /-- What the compiler wants to be known. -/
  | warning (text : Bytes)
  /-- What its clients do. -/
  | log (text : Bytes)
  deriving DecidableEq

def Note.text : Note → Bytes
  | .warning s | .log s => s

/-- The number of a routine, in the order of loading. -/
abbrev RoutineId := Nat

/-- What a routine is found by. -/
structure CacheKey where
  digest : Bytes
  mode : Mode
  deriving DecidableEq

structure Cache where
  options : CodeOptions := {}
  entries : List (CacheKey × Except CodeError RoutineId) := []
  closed : Bool := false
  hits : Nat := 0
  misses : Nat := 0

/-- Why a client gets no routine. -/
inductive SupplyError where
  | cacheClosed
  | code (cause : CodeError)
  deriving DecidableEq

namespace SupplyError

def message : SupplyError → Bytes
  | .cacheClosed => utf8 "jit: cache closed"
  | .code e => e.message

def isUnsupported : SupplyError → Bool
  | .cacheClosed => false
  | .code e => e.isUnsupported

end SupplyError

structure Compiler where
  host : Host := {}
  routines : Array Routine := #[]
  cache : Cache := {}
  /-- The notes so far, the latest first. -/
  notes : List Note := []

namespace Compiler

def note (c : Compiler) (n : Note) : Compiler := { c with notes := n :: c.notes }

/-- Adds warnings, the first one first. -/
def warn (c : Compiler) (warnings : List Bytes) : Compiler :=
  warnings.foldl (fun c w => c.note (.warning w)) c

/-- The notes in order, and the compiler without them. -/
def takeNotes (c : Compiler) : List Note × Compiler := (c.notes.reverse, { c with notes := [] })

/-- Loads a program. There is always memory for it, as `Routine.load` takes it to
be. -/
def load (c : Compiler) (p : Program) : RoutineId × Compiler :=
  (c.routines.size, { c with routines := c.routines.push (.load p) })

def retain (c : Compiler) (id : RoutineId) : Compiler :=
  { c with routines := c.routines.modify id .retain }

/-- Drops a reference to a routine. -/
def close (c : Compiler) (id : RoutineId) : Except RoutineError Unit × Compiler :=
  match c.routines[id]? with
  | none => (.ok (), c)
  | some r =>
    let (result, r) := r.close
    (result, { c with routines := c.routines.setIfInBounds id r })

/-- Whether a routine can be used in a mode. -/
def checkMode (c : Compiler) (id : RoutineId) (mode : Mode) : Except RoutineError Unit :=
  match c.routines[id]? with
  | none => .ok ()
  | some r => r.checkMode mode

/-- Drops a reference to each routine; with the errors on the way. -/
def closeAll (c : Compiler) : List RoutineId → List RoutineError × Compiler
  | [] => ([], c)
  | id :: rest =>
    let (result, c) := c.close id
    let (errors, c) := c.closeAll rest
    (match result with
      | .ok () => errors
      | .error e => e :: errors, c)

/-- Compiles and loads a tape; the client has the one reference. -/
def compile (c : Compiler) (o : CodeOptions) (t : Tape) (mode : Mode) :
    Except CodeError RoutineId × Compiler :=
  let (result, warnings) := c.host.compile o t mode
  let c := c.warn warnings
  match result with
  | .error e => (.error e, c)
  | .ok p =>
    let (id, c) := c.load p
    (.ok id, c)

/-! ## The cache -/

/-- Compiles a tape that the cache does not have. -/
def fetch (c : Compiler) (t : Tape) (mode : Mode) (key : CacheKey) :
    Except SupplyError RoutineId × Compiler :=
  let c := { c with cache.misses := c.cache.misses + 1 }
  let (result, c) := c.compile c.cache.options t mode
  let c := { c with cache.entries := (key, result) :: c.cache.entries }
  match result with
  | .ok id => (.ok id, c.retain id)
  | .error e =>
    (.error (.code e), c.warn [utf8 "jit: caching failure for " ++ mode.name ++ utf8 " tape of " ++
      Bytes.ofNat t.size ++ utf8 " instructions: " ++ e.message])

/-- The routine of a tape in a mode, compiled when first asked for. The client
has a reference of its own. -/
def get (c : Compiler) (t : Tape) (mode : Mode) : Except SupplyError RoutineId × Compiler :=
  let key : CacheKey := ⟨t.digest, mode⟩
  if c.cache.closed then (.error .cacheClosed, c)
  else
    match c.cache.entries.lookup key with
    | none => c.fetch t mode key
    | some result =>
      let c := { c with cache.hits := c.cache.hits + 1 }
      match result with
      | .ok id => (.ok id, c.retain id)
      | .error e => (.error (.code e), c)

/-- The routines that the cache holds. -/
def cached (c : Compiler) : List RoutineId := c.cache.entries.filterMap (·.2.toOption)

/-- Bytes of memory that a routine takes. -/
def sizeOf (c : Compiler) (id : RoutineId) : Nat := ((c.routines[id]?).map Routine.size).getD 0

/-- Bytes of memory that the routines of the cache take. -/
def cacheSize (c : Compiler) : Nat := c.cached.foldl (fun n id => n + c.sizeOf id) 0

/-- Drops the references of the cache; with the errors on the way. -/
def closeCache (c : Compiler) : List RoutineError × Compiler :=
  if c.cache.closed then ([], c)
  else
    let (errors, d) := c.closeAll c.cached
    (errors, { d with cache := { d.cache with entries := [], closed := true } })

end Compiler

end ScalarField
