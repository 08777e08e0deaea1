/-
Engines and clients that share a compiler and its cache never lose a reference
and never use one that is gone (`World.references_counted`).

A `World` is what they share and what they hold. Each step of it is one request
of a client or an engine, done as a whole; a run is any interleaving of such
steps in which clients retain and drop only references that they hold. The
invariant is `World.Sound`: the count of every routine is the number of its
holders. Every step keeps it (`World.Sound.step`), and so does every run.
-/
import Mathlib.Data.List.Nodup
import ScalarField.Engine
import ScalarField.Proofs.Code.References

namespace ScalarField

/-! ## What the cache keeps -/

namespace Compiler

variable {c d : Compiler} {outside : List RoutineId}

/-- The cache finds the routine by the key, as long as it is open. -/
def Keeps (c : Compiler) (key : CacheKey) (id : RoutineId) : Prop :=
  c.cache.closed = true ∨ c.cache.entries.lookup key = some (.ok id)

/-- What one cache keeps, the other keeps too. -/
def Extends (c d : Compiler) : Prop := ∀ key id, c.Keeps key id → d.Keeps key id

theorem Extends.refl (c : Compiler) : c.Extends c := fun _ _ h => h

theorem Extends.of_cache_eq (h : d.cache = c.cache) : c.Extends d := fun _ _ hkeeps => by
  rwa [Keeps, h]

theorem Extends.of_closed (h : d.cache.closed = true) : c.Extends d := fun _ _ _ => .inl h

theorem Gets.extends {key : CacheKey} {result : Except SupplyError RoutineId}
    (hget : c.Gets key result d) : c.Extends d := by
  intro k id hkeeps
  rcases hkeeps with hclosed | hlookup
  · cases hget with
    | closed => exact .inl hclosed
    | hit hopen => rw [hopen] at hclosed; cases hclosed
    | failed hopen => rw [hopen] at hclosed; cases hclosed
    | miss hopen => rw [hopen] at hclosed; cases hclosed
  · exact .inr (hget.lookup_eq hlookup)

theorem compile_cache (c : Compiler) (o : CodeOptions) (t : Tape) (mode : Mode) :
    (c.compile o t mode).2.cache = c.cache := by
  rcases c.compile_cases o t mode with ⟨_, _, _, h⟩ | ⟨_, _, _, _, _, h⟩ <;> exact h

theorem checkMode_eq_ok {id : RoutineId} {mode : Mode} {p : Program} (hp : c.programs[id]? = some p)
    (hmode : p.mode = mode) : c.checkMode id mode = .ok () := by
  obtain ⟨r, hr, rfl⟩ := programs_getElem?.1 hp
  simp [checkMode, hr, Routine.checkMode, hmode]

end Compiler

/-! ## Engines -/

namespace Engine

variable {e : Engine} {c : Compiler} {outside : List RoutineId} {mode : Mode}

/-- The compiled code of an engine is its own, and that of the cache if it comes
from there. A closed engine has none. -/
structure Sound (e : Engine) (c : Compiler) : Prop where
  owned : ∀ (mode : Mode) (id : RoutineId), (mode, .compiled id) ∈ e.funcs → id ∈ e.routines
  kept : e.supply = .cache → ∀ (mode : Mode) (id : RoutineId), (mode, .compiled id) ∈ e.funcs →
    c.Keeps ⟨e.tape.digest, mode⟩ id
  closed : e.closed = true → e.routines = []

theorem Sound.mono {d : Compiler} (h : e.Sound c) (hext : c.Extends d) : e.Sound d :=
  ⟨h.owned, fun hs mode id hmem => hext _ _ (h.kept hs mode id hmem), h.closed⟩

theorem new_sound (tape : Tape) (backend : Backend) (supply : Supply) :
    ({ tape, backend, supply } : Engine).Sound c :=
  ⟨fun _ _ h => absurd h List.not_mem_nil, fun _ _ _ h => absurd h List.not_mem_nil, fun _ => rfl⟩

/-- What an engine asks for is the engine's, for the mode, and kept by the cache
if it comes from there. -/
structure Obtained (e : Engine) (c : Compiler) (mode : Mode) (outside : List RoutineId)
    (result : Except SupplyError RoutineId) (d : Compiler) : Prop where
  cache : d.CacheSound
  counts : Compiler.Fits (result.toOption.toList ++ outside ++ d.cached) →
    d.Counts (result.toOption.toList ++ outside ++ d.cached)
  ext : c.Extends d
  program : ∀ id, result = .ok id → ∃ p, d.programs[id]? = some p ∧ p.mode = mode
  kept : e.supply = .cache → ∀ id, result = .ok id → d.Keeps ⟨e.tape.digest, mode⟩ id

theorem obtain_obtained (e : Engine) (h : c.Sound outside) (mode : Mode) :
    Obtained e c mode outside (e.obtain c mode).1 (e.obtain c mode).2 := by
  unfold Engine.obtain
  split
  · have hget := c.get_gets e.tape mode
    refine ⟨hget.cacheSound h, hget.counts h, hget.extends, fun id hid => ?_, fun _ id hid => ?_⟩
    · obtain ⟨-, p, hp, hmode, -⟩ := hget.found h.cache hid
      exact ⟨p, hp, hmode⟩
    · exact .inr (hget.found h.cache hid).1
  · rename_i o hsupply
    obtain ⟨hsound, hprogram⟩ := h.compile o e.tape mode
    have hcache := c.compile_cache o e.tape mode
    dsimp only
    generalize c.compile o e.tape mode = r at hsound hprogram hcache
    obtain ⟨result, d⟩ := r
    cases result with
    | error err =>
      exact ⟨hsound.cache, fun _ => hsound.counts, .of_cache_eq hcache,
        fun _ hid => (by cases hid), fun _ _ hid => (by cases hid)⟩
    | ok id =>
      exact ⟨hsound.cache, fun _ => hsound.counts, .of_cache_eq hcache,
        fun j hj => hprogram j (by cases hj; rfl), fun hs => by rw [hsupply] at hs; cases hs⟩

/-- What a request for a mode does: the engine has one more reference, or none
more, and the function it gives is its own. -/
structure Requested (e : Engine) (c : Compiler) (mode : Mode) (outside : List RoutineId)
    (result : Except EngineError Func) (e' : Engine) (d : Compiler) : Prop where
  cache : d.CacheSound
  counts : Compiler.Fits (e'.routines ++ outside ++ d.cached) →
    d.Counts (e'.routines ++ outside ++ d.cached)
  ext : c.Extends d
  engine : e'.Sound d
  tape : e'.tape = e.tape
  supply : e'.supply = e.supply
  kept : e.supply = .cache → ∀ id, result = .ok (.compiled id) → d.Keeps ⟨e.tape.digest, mode⟩ id

/-- A request by which the engine gets no reference. -/
theorem Requested.of_same {e' : Engine} {d : Compiler} {result : Except EngineError Func}
    (he : e.Sound c) (hext : c.Extends d) (hd : d.CacheSound)
    (hcounts : Compiler.Fits (e.routines ++ outside ++ d.cached) →
      d.Counts (e.routines ++ outside ++ d.cached))
    (hkept : e.supply = .cache → ∀ id, result = .ok (.compiled id) →
      d.Keeps ⟨e.tape.digest, mode⟩ id)
    (heq : e' = e ∨ e' = e.settle mode .interpreted) :
    Requested e c mode outside result e' d := by
  have hfuncs : ∀ m id, (m, Func.compiled id) ∈ e'.funcs → (m, Func.compiled id) ∈ e.funcs := by
    rcases heq with rfl | rfl
    · exact fun _ _ hmem => hmem
    · exact fun m id hmem => (List.mem_cons.1 hmem).resolve_left (by simp)
  obtain ⟨hroutines, htape, hsupply, hclosed⟩ : e'.routines = e.routines ∧ e'.tape = e.tape ∧
      e'.supply = e.supply ∧ e'.closed = e.closed := by
    rcases heq with rfl | rfl <;> exact ⟨rfl, rfl, rfl, rfl⟩
  refine ⟨hd, hroutines ▸ hcounts, hext, ⟨fun m id hmem => ?_, fun hs m id hmem => ?_,
    fun hc => ?_⟩, htape, hsupply, hkept⟩
  · exact hroutines ▸ he.owned m id (hfuncs m id hmem)
  · rw [htape]
    exact hext _ _ (he.kept (hsupply ▸ hs) m id (hfuncs m id hmem))
  · rw [hroutines]
    exact he.closed (hclosed ▸ hc)

/-- A request that ends in compiled code if it can. -/
theorem compiled_requested (h : c.Sound (e.routines ++ outside)) (he : e.Sound c)
    (hopen : e.closed = false) (mode : Mode) :
    Requested e c mode outside (e.compiled c mode).1 (e.compiled c mode).2.1
      (e.compiled c mode).2.2 := by
  have hobtained := e.obtain_obtained h mode
  unfold Engine.compiled
  generalize e.obtain c mode = r at hobtained
  obtain ⟨result, d⟩ := r
  cases result with
  | ok id =>
    obtain ⟨p, hp, hmode⟩ := hobtained.program id rfl
    simp only [Compiler.checkMode_eq_ok hp hmode]
    -- The engine's list grows at the end, the list of owners at the front.
    have hperm : (id :: (e.routines ++ outside) ++ d.cached).Perm
        (e.routines ++ [id] ++ outside ++ d.cached) := by
      simpa using (List.perm_middle (a := id)).symm
    refine ⟨hobtained.cache, fun hfit => (hobtained.counts (hfit.perm hperm.symm)).perm hperm,
      hobtained.ext, ⟨fun m j hmem => ?_, fun hs m j hmem => ?_, fun hc => ?_⟩, rfl, rfl,
      fun hs j hj => ?_⟩
    · rcases List.mem_cons.1 hmem with heq | hmem
      · obtain ⟨rfl, rfl⟩ : m = mode ∧ j = id := by simpa using heq
        simp
      · exact List.mem_append_left _ (he.owned m j hmem)
    · rcases List.mem_cons.1 hmem with heq | hmem
      · obtain ⟨rfl, rfl⟩ : m = mode ∧ j = id := by simpa using heq
        exact hobtained.kept hs j rfl
      · exact hobtained.ext _ _ (he.kept hs m j hmem)
    · exact absurd (show e.closed = true from hc) (by simp [hopen])
    · obtain rfl : id = j := by simpa using hj
      exact hobtained.kept hs id rfl
  | error err =>
    dsimp only
    split
    · exact .of_same he hobtained.ext hobtained.cache hobtained.counts
        (fun _ _ hid => by cases hid) (.inl rfl)
    · exact .of_same he hobtained.ext
        (hobtained.cache.of_eq rfl rfl rfl) (fun hfit => (hobtained.counts hfit).of_routines_eq rfl)
        (fun _ _ hid => by cases hid) (.inr rfl)

/-- What a request for a mode does, whatever the engine. -/
theorem func_requested (h : c.Sound (e.routines ++ outside)) (he : e.Sound c) (mode : Mode) :
    Requested e c mode outside (e.func c mode).1 (e.func c mode).2.1 (e.func c mode).2.2 := by
  have hcounts : Compiler.Fits (e.routines ++ outside ++ c.cached) →
      c.Counts (e.routines ++ outside ++ c.cached) := fun _ => h.counts
  unfold Engine.func
  split
  · exact .of_same he (.refl c) h.cache hcounts (fun _ _ hid => by cases hid) (.inl rfl)
  · rename_i hclosed
    split
    · rename_i f hf
      refine .of_same he (.refl c) h.cache hcounts (fun hs id hid => ?_) (.inl rfl)
      obtain rfl : f = .compiled id := by simpa using hid
      exact he.kept hs mode id (mem_of_lookup hf)
    · split
      · exact compiled_requested h he (by simpa using hclosed) mode
      · exact compiled_requested h he (by simpa using hclosed) mode
      · exact .of_same he (.refl c) h.cache hcounts (fun _ _ hid => by cases hid) (.inr rfl)
      · exact .of_same he (.refl c) h.cache hcounts (fun _ _ hid => by cases hid) (.inl rfl)

/-- Closing an engine drops its references and no other. -/
theorem close_released (h : c.Sound (e.routines ++ outside)) (he : e.Sound c)
    (hfit : Compiler.Fits (e.routines ++ outside ++ c.cached)) :
    (e.close c).1 = [] ∧ (e.close c).2.2.Sound ((e.close c).2.1.routines ++ outside) ∧
      (e.close c).2.2.cache = c.cache ∧ (e.close c).2.1.Sound (e.close c).2.2 ∧
      (e.close c).2.1.tape = e.tape ∧ (e.close c).2.1.supply = e.supply := by
  unfold Engine.close
  split
  · exact ⟨rfl, h, rfl, he, rfl, rfl⟩
  · obtain ⟨hok, hsound⟩ := h.closeAll hfit
    exact ⟨hok, hsound, c.closeAll_cache e.routines, ⟨fun _ _ h => absurd h List.not_mem_nil,
      fun _ _ _ h => absurd h List.not_mem_nil, fun _ => rfl⟩, rfl, rfl⟩

end Engine

/-! ## Worlds -/

/-- Engines and clients that share a compiler; each client is a number, and
stands with a routine once for each reference to it that the client holds. -/
structure World where
  compiler : Compiler
  engines : Array Engine := #[]
  held : List (Nat × RoutineId) := []

namespace World

/-- What a client, or the user of an engine, can ask for. -/
inductive Action where
  | compile (client : Nat) (options : CodeOptions) (tape : Tape) (mode : Mode)
  | get (client : Nat) (tape : Tape) (mode : Mode)
  | retain (client : Nat) (id : RoutineId)
  | close (client : Nat) (id : RoutineId)
  | closeCache
  | start (tape : Tape) (backend : Backend) (supply : Supply)
  | simplify (engine : Nat) (region : Array Interval)
  | request (engine : Nat) (mode : Mode)
  | closeEngine (engine : Nat)
  /-- The level is set anew for the whole process. -/
  | configure (host : Host)

/-- What the asker is told. -/
inductive Report where
  | supplied (result : Except SupplyError RoutineId)
  | released (errors : List RoutineError)
  | settled (result : Except EngineError Func)
  | done

/-- Hands what the compiler gives to a client. -/
def give {ε : Type} (w : World) (client : Nat) (r : Except ε RoutineId × Compiler) : World :=
  { w with compiler := r.2, held := r.1.toOption.toList.map (client, ·) ++ w.held }

/-- An engine after a request to it. -/
def setEngine (w : World) (k : Nat) (e : Engine) (c : Compiler) : World :=
  { w with compiler := c, engines := w.engines.setIfInBounds k e }

/-- One request, done as a whole. -/
def act (w : World) : Action → Report × World
  | .compile client o t mode =>
    let r := w.compiler.compile o t mode
    (.supplied (r.1.mapError .code), w.give client r)
  | .get client t mode =>
    let r := w.compiler.get t mode
    (.supplied r.1, w.give client r)
  | .retain client id =>
    (.done, { w with compiler := w.compiler.retain id, held := (client, id) :: w.held })
  | .close client id =>
    let r := w.compiler.close id
    (.released (match r.1 with
      | .ok () => []
      | .error e => [e]), { w with compiler := r.2, held := w.held.erase (client, id) })
  | .closeCache =>
    let r := w.compiler.closeCache
    (.released r.1, { w with compiler := r.2 })
  | .start tape backend supply =>
    (.done, { w with engines := w.engines.push { tape, backend, supply } })
  | .simplify k region =>
    match w.engines[k]? with
    | none => (.done, w)
    | some e =>
      match e.simplify w.compiler region with
      | (.error _, c) => (.done, { w with compiler := c })
      | (.ok e', c) => (.done, { w with compiler := c, engines := w.engines.push e' })
  | .request k mode =>
    match w.engines[k]? with
    | none => (.done, w)
    | some e =>
      let r := e.func w.compiler mode
      (.settled r.1, w.setEngine k r.2.1 r.2.2)
  | .closeEngine k =>
    match w.engines[k]? with
    | none => (.done, w)
    | some e =>
      let r := e.close w.compiler
      (.released r.1, w.setEngine k r.2.1 r.2.2)
  | .configure host => (.done, { w with compiler := { w.compiler with host } })

/-- Clients retain and drop references that they hold. -/
def Allows (w : World) : Action → Prop
  | .retain client id | .close client id => (client, id) ∈ w.held
  | _ => True

instance (w : World) : (a : Action) → Decidable (w.Allows a)
  | .retain client id | .close client id => inferInstanceAs (Decidable ((client, id) ∈ w.held))
  | .compile _ _ _ _ | .get _ _ _ | .closeCache | .start _ _ _ | .simplify _ _ | .request _ _
  | .closeEngine _ | .configure _ => inferInstanceAs (Decidable True)

/-- The number of references to a routine: those of clients, those of engines,
and one if the cache is open and holds it. -/
def references (w : World) (id : RoutineId) : Nat :=
  (w.held.map Prod.snd).count id + (w.engines.toList.flatMap Engine.routines).count id +
    if w.compiler.cache.closed = false ∧ id ∈ w.compiler.cached then 1 else 0

/-- All references can be counted. -/
def Fits (w : World) : Prop := ∀ id, w.references id < 2 ^ 31

/-- A run: requests that are allowed, with what was told, the latest first. -/
inductive Run (w₀ : World) : List (Action × Report) → World → Prop
  | nil : Run w₀ [] w₀
  | step {log : List (Action × Report)} {w : World} (a : Action) (h : Run w₀ log w)
      (hallow : w.Allows a) (hfit : (w.act a).2.Fits) :
      Run w₀ ((a, (w.act a).1) :: log) (w.act a).2

/-- Nothing is loaded and nobody is there yet. -/
def start (host : Host) (options : CodeOptions) : World where
  compiler := { host, cache := { options } }

/-- The cache has given a routine to a client, or to an engine that takes its
code from the cache. -/
def HasSupplied (w : World) (log : List (Action × Report)) (key : CacheKey) (id : RoutineId) :
    Prop :=
  (∃ client t, t.digest = key.digest ∧
    (.get client t key.mode, .supplied (.ok id)) ∈ log) ∨
  ∃ k e, w.engines[k]? = some e ∧ e.supply = .cache ∧ e.tape.digest = key.digest ∧
    (.request k key.mode, .settled (.ok (.compiled id))) ∈ log

/-! ## The invariant -/

variable {w : World}

/-- The references that are not the cache's. -/
def outside (w : World) : List RoutineId :=
  w.held.map Prod.snd ++ w.engines.toList.flatMap Engine.routines

/-- Every reference is counted, and every engine has what it uses. -/
structure Sound (w : World) : Prop where
  compiler : w.compiler.Sound w.outside
  engine : ∀ e ∈ w.engines, e.Sound w.compiler

theorem references_eq (h : w.compiler.CacheSound) (id : RoutineId) :
    w.references id = (w.outside ++ w.compiler.cached).count id := by
  have hcache : (if w.compiler.cache.closed = false ∧ id ∈ w.compiler.cached then 1 else 0) =
      w.compiler.cached.count id := by
    by_cases hmem : id ∈ w.compiler.cached
    · have hopen : w.compiler.cache.closed = false := by
        rw [← Bool.not_eq_true]
        intro hclosed
        simp [Compiler.cached, h.closed hclosed] at hmem
      rw [if_pos ⟨hopen, hmem⟩, List.count_eq_one_of_mem h.nodup hmem]
    · rw [if_neg (fun hand => hmem hand.2), List.count_eq_zero_of_not_mem hmem]
  rw [references, hcache, outside, List.count_append, List.count_append]

theorem Fits.owners (hfit : w.Fits) (h : w.compiler.CacheSound) :
    Compiler.Fits (w.outside ++ w.compiler.cached) := fun id => references_eq h id ▸ hfit id

theorem fits_of_length (h : w.outside.length + 1 < 2 ^ 31) : w.Fits := by
  intro id
  have h1 : (w.held.map Prod.snd).count id ≤ (w.held.map Prod.snd).length := List.count_le_length
  have h2 : (w.engines.toList.flatMap Engine.routines).count id ≤
      (w.engines.toList.flatMap Engine.routines).length := List.count_le_length
  rw [outside, List.length_append] at h
  rw [references]
  split <;> omega

/-- The references of one engine, and those of the others. -/
theorem outside_perm {k : Nat} {e : Engine} (he : w.engines[k]? = some e) :
    ∃ rest, w.outside.Perm (e.routines ++ rest) ∧
      ∀ e' c, (w.setEngine k e' c).outside.Perm (e'.routines ++ rest) := by
  have hk : k < w.engines.toList.length := by simpa using (Array.getElem?_eq_some_iff.1 he).1
  have hget : w.engines.toList[k] = e := by simpa using (Array.getElem?_eq_some_iff.1 he).2
  -- Replacing an engine replaces its part of the list.
  have hset : ∀ e' : Engine, ((w.engines.toList.set k e').flatMap Engine.routines) =
      (w.engines.toList.take k).flatMap Engine.routines ++
        (e'.routines ++ (w.engines.toList.drop (k + 1)).flatMap Engine.routines) := fun e' => by
    rw [List.set_eq_take_append_cons_drop, if_pos hk]
    simp
  have hself : w.engines.toList.set k e = w.engines.toList := by rw [← hget, List.set_getElem_self]
  have hwhole := hset e
  rw [hself] at hwhole
  have hperm : ∀ {xs as bs cs : List RoutineId},
      (xs ++ (as ++ (bs ++ cs))).Perm (bs ++ (xs ++ (as ++ cs))) := fun {xs as bs cs} => by
    simpa using (List.perm_append_comm_assoc (xs ++ as) bs cs)
  refine ⟨w.held.map Prod.snd ++ ((w.engines.toList.take k).flatMap Engine.routines ++
    (w.engines.toList.drop (k + 1)).flatMap Engine.routines), ?_, fun e' c => ?_⟩
  · rw [outside, hwhole]
    exact hperm
  · rw [outside, setEngine, Array.toList_setIfInBounds, hset]
    exact hperm

/-! ## Steps -/

/-- What the answer to a request promises: the cache keeps what it has given, and
nothing was dropped that is gone. -/
def Honours (w : World) : Action → Report → Prop
  | .get _ t mode, .supplied (.ok id) => w.compiler.Keeps ⟨t.digest, mode⟩ id
  | .request k mode, .settled (.ok (.compiled id)) =>
    ∃ e, w.engines[k]? = some e ∧ (e.supply = .cache → w.compiler.Keeps ⟨e.tape.digest, mode⟩ id)
  | _, .released errors => errors = []
  | _, _ => True

/-- Engines evaluate the tape they were made for, and take their code from where
they did. -/
def EnginesStay (w w' : World) : Prop :=
  ∀ (k : Nat) (e : Engine), w.engines[k]? = some e →
    ∃ e', w'.engines[k]? = some e' ∧ e'.tape = e.tape ∧ e'.supply = e.supply

/-- What is true of every step: references stay counted, engines stay what they
are, and the answer is honoured. -/
structure Step (w : World) (a : Action) (report : Report) (w' : World) : Prop where
  sound : w'.Sound
  ext : w.compiler.Extends w'.compiler
  engines : w.EnginesStay w'
  honours : w'.Honours a report

theorem honours_done {a : Action} : w.Honours a .done := by
  cases a <;> exact trivial

theorem Honours.released {a : Action} {errors : List RoutineError}
    (h : w.Honours a (.released errors)) : errors = [] := by
  cases a <;> exact h

theorem Honours.mono {w' : World} {a : Action} {report : Report} (h : w.Honours a report)
    (hext : w.compiler.Extends w'.compiler) (hengines : w.EnginesStay w') :
    w'.Honours a report := by
  unfold Honours at h ⊢
  split at h
  · exact hext _ _ h
  · rename_i k mode id
    obtain ⟨e, he, hkeeps⟩ := h
    obtain ⟨e', he', htape, hsupply⟩ := hengines k e he
    refine ⟨e', he', fun hs => ?_⟩
    rw [htape]
    exact hext _ _ (hkeeps (hsupply ▸ hs))
  · exact h
  · exact trivial

theorem Sound.of_compiler {w' : World} (h : w.Sound) (hengines : w'.engines = w.engines)
    (hext : w.compiler.Extends w'.compiler) (hsound : w'.compiler.Sound w'.outside) : w'.Sound :=
  ⟨hsound, fun e he => (h.engine e (hengines ▸ he)).mono hext⟩

theorem EnginesStay.of_eq {w' : World} (hengines : w'.engines = w.engines) : w.EnginesStay w' :=
  fun _ e he => ⟨e, hengines ▸ he, rfl, rfl⟩

theorem give_outside {ε : Type} (w : World) (client : Nat) (r : Except ε RoutineId × Compiler) :
    (w.give client r).outside = r.1.toOption.toList ++ w.outside := by
  simp [give, outside, List.map_map, Function.comp_def]

/-- The step of a client that is given a reference. -/
theorem Sound.give {ε : Type} (h : w.Sound) (client : Nat) (r : Except ε RoutineId × Compiler)
    (hext : w.compiler.Extends r.2) (hcache : r.2.CacheSound)
    (hcounts : Compiler.Fits (r.1.toOption.toList ++ w.outside ++ r.2.cached) →
      r.2.Counts (r.1.toOption.toList ++ w.outside ++ r.2.cached))
    (hfit : (w.give client r).Fits) : (w.give client r).Sound := by
  have hfit' := hfit.owners hcache
  rw [give_outside] at hfit'
  refine h.of_compiler rfl hext ⟨?_, hcache⟩
  rw [give_outside]
  exact hcounts hfit'

theorem Sound.setEngine {k : Nat} {e' : Engine} {c : Compiler} (h : w.Sound)
    (hext : w.compiler.Extends c) (he' : e'.Sound c)
    (hsound : c.Sound (w.setEngine k e' c).outside) : (w.setEngine k e' c).Sound := by
  refine ⟨hsound, fun x hx => ?_⟩
  rcases Array.mem_or_eq_of_mem_setIfInBounds hx with hx | rfl
  · exact (h.engine x hx).mono hext
  · exact he'

theorem EnginesStay.setEngine {k : Nat} {e e' : Engine} {c : Compiler}
    (he : w.engines[k]? = some e) (htape : e'.tape = e.tape) (hsupply : e'.supply = e.supply) :
    w.EnginesStay (w.setEngine k e' c) := by
  intro j x hx
  simp only [World.setEngine, Array.getElem?_setIfInBounds]
  by_cases hkj : k = j
  · subst hkj
    obtain rfl : e = x := by simpa [he] using hx
    have hk : k < w.engines.size := (Array.getElem?_eq_some_iff.1 he).1
    exact ⟨e', by simp [hk], htape, hsupply⟩
  · exact ⟨x, by simp [hkj, hx], rfl, rfl⟩

theorem Step.push {a : Action} {e : Engine} {c : Compiler} (h : w.Sound)
    (hroutines : c.routines = w.compiler.routines) (hcache : c.cache = w.compiler.cache)
    (he : e.Sound c) (hnone : e.routines = []) :
    w.Step a .done { w with compiler := c, engines := w.engines.push e } where
  sound := by
    refine ⟨?_, fun x hx => ?_⟩
    · have hout : World.outside { w with compiler := c, engines := w.engines.push e } =
          w.outside := by
        simp [outside, hnone]
      rw [hout]
      exact h.compiler.of_same hroutines hcache
    · rcases Array.mem_push.1 hx with hx | rfl
      · exact (h.engine x hx).mono (.of_cache_eq hcache)
      · exact he
  ext := .of_cache_eq hcache
  engines _ x hx := ⟨x, getElem?_push_of_eq_some hx e, rfl, rfl⟩
  honours := honours_done

theorem Step.of_same {a : Action} {c : Compiler} (h : w.Sound)
    (hroutines : c.routines = w.compiler.routines) (hcache : c.cache = w.compiler.cache) :
    w.Step a .done { w with compiler := c } where
  sound := h.of_compiler rfl (.of_cache_eq hcache) (h.compiler.of_same hroutines hcache)
  ext := .of_cache_eq hcache
  engines := .of_eq rfl
  honours := honours_done

theorem Sound.compile (h : w.Sound) (client : Nat) (o : CodeOptions) (t : Tape) (mode : Mode)
    (hfit : (w.act (.compile client o t mode)).2.Fits) :
    w.Step (.compile client o t mode) (w.act (.compile client o t mode)).1
      (w.act (.compile client o t mode)).2 := by
  obtain ⟨hsound, -⟩ := h.compiler.compile o t mode
  have hext : w.compiler.Extends (w.compiler.compile o t mode).2 :=
    .of_cache_eq (w.compiler.compile_cache o t mode)
  exact {
    sound := h.give client _ hext hsound.cache (fun _ => hsound.counts) hfit
    ext := hext
    engines := .of_eq rfl
    honours := trivial }

theorem Sound.get (h : w.Sound) (client : Nat) (t : Tape) (mode : Mode)
    (hfit : (w.act (.get client t mode)).2.Fits) :
    w.Step (.get client t mode) (w.act (.get client t mode)).1 (w.act (.get client t mode)).2 := by
  have hget := w.compiler.get_gets t mode
  refine {
    sound := h.give client _ hget.extends (hget.cacheSound h.compiler) (hget.counts h.compiler) hfit
    ext := hget.extends
    engines := .of_eq rfl
    honours := ?_ }
  simp only [act]
  cases hresult : (w.compiler.get t mode).1 with
  | error e => exact trivial
  | ok id => exact .inr (hget.found h.compiler.cache hresult).1

theorem Sound.retain (h : w.Sound) {client : Nat} {id : RoutineId} (hheld : (client, id) ∈ w.held)
    (hfit : (w.act (.retain client id)).2.Fits) :
    w.Step (.retain client id) (w.act (.retain client id)).1 (w.act (.retain client id)).2 := by
  have hmem : id ∈ w.outside := List.mem_append_left _ (List.mem_map.2 ⟨_, hheld, rfl⟩)
  have hcache : (w.act (.retain client id)).2.compiler.CacheSound :=
    h.compiler.cache.of_eq rfl rfl (Compiler.programs_modify_retain _ _)
  exact {
    sound := h.of_compiler rfl (.of_cache_eq rfl) (h.compiler.retain hmem (hfit.owners hcache))
    ext := .of_cache_eq rfl
    engines := .of_eq rfl
    honours := trivial }

theorem Sound.close (h : w.Sound) (hfit : w.Fits) {client : Nat} {id : RoutineId}
    (hheld : (client, id) ∈ w.held) :
    w.Step (.close client id) (w.act (.close client id)).1 (w.act (.close client id)).2 := by
  have hperm : w.outside.Perm (id :: (w.act (.close client id)).2.outside) :=
    (((List.perm_cons_erase hheld).map Prod.snd).append_right _ : _)
  have hfit' := (hfit.owners h.compiler.cache).perm (hperm.append_right _)
  obtain ⟨hok, hsound⟩ := (h.compiler.perm hperm).close hfit'
  have hext : w.compiler.Extends (w.compiler.close id).2 := .of_cache_eq (w.compiler.close_cache id)
  exact {
    sound := h.of_compiler rfl hext hsound
    ext := hext
    engines := .of_eq rfl
    honours := by simp only [act, hok, Honours] }

theorem Sound.closeCache (h : w.Sound) (hfit : w.Fits) :
    w.Step .closeCache (w.act .closeCache).1 (w.act .closeCache).2 := by
  obtain ⟨hok, hsound, hclosed⟩ := h.compiler.closeCache (hfit.owners h.compiler.cache)
  have hext : w.compiler.Extends w.compiler.closeCache.2 := .of_closed hclosed
  exact {
    sound := h.of_compiler rfl hext hsound
    ext := hext
    engines := .of_eq rfl
    honours := hok }

theorem Sound.simplify (h : w.Sound) (k : Nat) (region : Array Interval) :
    w.Step (.simplify k region) (w.act (.simplify k region)).1 (w.act (.simplify k region)).2 := by
  simp only [act]
  split
  · exact .of_same h rfl rfl
  · rename_i e he
    unfold Engine.simplify
    split
    · rename_i hs
      split at hs
      · obtain ⟨-, rfl⟩ := Prod.mk.inj hs
        exact .of_same h rfl rfl
      · cases (Prod.mk.inj hs).1
    · rename_i hs
      split at hs
      · cases (Prod.mk.inj hs).1
      · obtain ⟨heq, rfl⟩ := Prod.mk.inj hs
        obtain rfl := Except.ok.inj heq
        exact .push h rfl rfl (Engine.new_sound _ _ _) rfl

theorem Sound.request (h : w.Sound) (k : Nat) (mode : Mode)
    (hfit : (w.act (.request k mode)).2.Fits) :
    w.Step (.request k mode) (w.act (.request k mode)).1 (w.act (.request k mode)).2 := by
  simp only [act] at hfit ⊢
  split
  · exact .of_same h rfl rfl
  · rename_i e he
    simp only [he] at hfit
    obtain ⟨rest, hperm, hset⟩ := outside_perm he
    have hreq := Engine.func_requested (h.compiler.perm hperm)
      (h.engine e (Array.mem_of_getElem? he)) mode
    have hset' := hset (e.func w.compiler mode).2.1 (e.func w.compiler mode).2.2
    have howners := (hfit.owners hreq.cache).perm (hset'.append_right _)
    have hsound : (e.func w.compiler mode).2.2.Sound
        (w.setEngine k (e.func w.compiler mode).2.1 (e.func w.compiler mode).2.2).outside :=
      ⟨(hreq.counts howners).perm (hset'.symm.append_right _), hreq.cache⟩
    have hk : k < w.engines.size := (Array.getElem?_eq_some_iff.1 he).1
    refine {
      sound := h.setEngine hreq.ext hreq.engine hsound
      ext := hreq.ext
      engines := .setEngine he hreq.tape hreq.supply
      honours := ?_ }
    cases hresult : (e.func w.compiler mode).1 with
    | error err => exact trivial
    | ok f =>
      cases f with
      | interpreted => exact trivial
      | compiled id =>
        refine ⟨(e.func w.compiler mode).2.1, by simp [World.setEngine, hk], fun hs => ?_⟩
        rw [hreq.tape]
        exact hreq.kept (hreq.supply ▸ hs) id hresult

theorem Sound.closeEngine (h : w.Sound) (hfit : w.Fits) (k : Nat) :
    w.Step (.closeEngine k) (w.act (.closeEngine k)).1 (w.act (.closeEngine k)).2 := by
  simp only [act]
  split
  · exact .of_same h rfl rfl
  · rename_i e he
    obtain ⟨rest, hperm, hset⟩ := outside_perm he
    obtain ⟨hok, hsound, hcache, hengine, htape, hsupply⟩ :=
      Engine.close_released (h.compiler.perm hperm) (h.engine e (Array.mem_of_getElem? he))
        ((hfit.owners h.compiler.cache).perm (hperm.append_right _))
    have hext : w.compiler.Extends (e.close w.compiler).2.2 := .of_cache_eq hcache
    exact {
      sound := h.setEngine hext hengine (hsound.perm (hset _ _).symm)
      ext := hext
      engines := .setEngine he htape hsupply
      honours := hok }

/-- Every step that is allowed keeps the references counted. -/
theorem Sound.step (h : w.Sound) (hfit : w.Fits) {a : Action} (hallow : w.Allows a)
    (hfit' : (w.act a).2.Fits) : w.Step a (w.act a).1 (w.act a).2 := by
  cases a with
  | compile client o t mode => exact h.compile client o t mode hfit'
  | get client t mode => exact h.get client t mode hfit'
  | retain client id => exact h.retain hallow hfit'
  | close client id => exact h.close hfit hallow
  | closeCache => exact h.closeCache hfit
  | start t backend supply =>
    exact .push h rfl rfl (Engine.new_sound t backend supply) rfl
  | simplify k region => exact h.simplify k region
  | request k mode => exact h.request k mode hfit'
  | closeEngine k => exact h.closeEngine hfit k
  | configure host => exact .of_same h rfl rfl

/-! ## Runs -/

/-- All that was promised along a run is true of the world it leads to. -/
def Accounts (w : World) (log : List (Action × Report)) : Prop :=
  ∀ a report, (a, report) ∈ log → w.Honours a report

theorem Accounts.step {log : List (Action × Report)} {a : Action} {report : Report} {w' : World}
    (h : w.Accounts log) (hstep : w.Step a report w') : w'.Accounts ((a, report) :: log) := by
  intro b r hmem
  rcases List.mem_cons.1 hmem with heq | hmem
  · obtain ⟨rfl, rfl⟩ := Prod.mk.inj heq
    exact hstep.honours
  · exact (h b r hmem).mono hstep.ext hstep.engines

theorem start_sound (host : Host) (options : CodeOptions) : (start host options).Sound :=
  ⟨⟨⟨fun _ _ h => by simp [start] at h, fun _ h => absurd h List.not_mem_nil⟩,
      fun _ _ h => absurd h List.not_mem_nil, List.nodup_nil, fun _ => rfl⟩,
    fun _ h => by simp [start] at h⟩

/-- Along every run, by induction on its steps. -/
theorem Run.sound {host : Host} {options : CodeOptions} {log : List (Action × Report)}
    (h : Run (start host options) log w) : w.Sound ∧ w.Fits ∧ w.Accounts log := by
  induction h with
  | nil =>
    exact ⟨start_sound host options, fits_of_length (show 0 + 1 < 2 ^ 31 by decide),
      fun _ _ h => absurd h List.not_mem_nil⟩
  | step a _ hallow hfit ih =>
    obtain ⟨hsound, hfit₀, haccounts⟩ := ih
    have hstep := hsound.step hfit₀ hallow hfit
    exact ⟨hstep.sound, hfit, haccounts.step hstep⟩

theorem Sound.heldBy (h : w.Sound) {id : RoutineId} {r : Routine}
    (hr : w.compiler.routines[id]? = some r) : r.HeldBy (w.references id) := by
  rw [references_eq h.compiler.cache]
  exact h.compiler.counts.heldBy id r hr

/-- What has a reference is in memory. -/
theorem Sound.mapped (h : w.Sound) {id : RoutineId} (hid : id ∈ w.outside ++ w.compiler.cached) :
    ∃ r, w.compiler.routines[id]? = some r ∧ r.mapped = true := by
  have hr := Array.getElem?_eq_getElem (h.compiler.counts.loaded id hid)
  exact ⟨_, hr, (h.compiler.counts.heldBy id _ hr).mapped_iff.2 (List.count_pos_iff.2 hid)⟩

/-- What the cache keeps, it gives out as long as it is open. -/
theorem Sound.get_kept (h : w.Sound) {t : Tape} {mode : Mode} {id : RoutineId}
    (hkeeps : w.compiler.Keeps ⟨t.digest, mode⟩ id) (hopen : w.compiler.cache.closed = false) :
    (w.compiler.get t mode).1 = .ok id ∧
      ∃ r, w.compiler.routines[id]? = some r ∧ r.mapped = true := by
  have hlookup := hkeeps.resolve_left (by simp [hopen])
  refine ⟨by simp [Compiler.get, hopen, hlookup], h.mapped (List.mem_append_right _ ?_)⟩
  exact Compiler.mem_cached.2 ⟨_, mem_of_lookup hlookup⟩

/-- **References are counted, so code in use is never freed and none is leaked.**
In every run of engines and clients that share a compiler and its cache:
- the count of each routine is the number of its references;
- its memory is in place exactly while there is one, and is given back once;
- code that a client holds or an engine evaluates is in memory;
- dropping references reports no error;
- an open cache gives out again what it has given for a digest and a mode, still
  in memory;
- when the cache and all engines are closed and clients hold nothing, nothing is
  in memory. -/
theorem references_counted (host : Host) (options : CodeOptions) (log : List (Action × Report))
    (w : World) (hrun : Run (start host options) log w) :
    (∀ (id : RoutineId) (r : Routine), w.compiler.routines[id]? = some r →
      r.refs.toInt = w.references id ∧ (r.mapped = true ↔ 0 < w.references id) ∧
        r.unmapped = if w.references id = 0 then 1 else 0) ∧
    (∀ (client : Nat) (id : RoutineId), (client, id) ∈ w.held →
      ∃ r, w.compiler.routines[id]? = some r ∧ r.mapped = true) ∧
    (∀ e ∈ w.engines, ∀ (mode : Mode) (id : RoutineId), (mode, .compiled id) ∈ e.funcs →
      ∃ r, w.compiler.routines[id]? = some r ∧ r.mapped = true) ∧
    (∀ a errors, (a, .released errors) ∈ log → errors = []) ∧
    (∀ t mode id, w.HasSupplied log ⟨t.digest, mode⟩ id → w.compiler.cache.closed = false →
      (w.compiler.get t mode).1 = .ok id ∧
        ∃ r, w.compiler.routines[id]? = some r ∧ r.mapped = true) ∧
    (w.compiler.cache.closed = true → (∀ e ∈ w.engines, e.closed = true) → w.held = [] →
      ∀ r ∈ w.compiler.routines, r.mapped = false) := by
  obtain ⟨hsound, -, haccounts⟩ := hrun.sound
  refine ⟨fun id r hr => ?_, fun client id hheld => ?_, fun e he mode id hmem => ?_,
    fun a errors hmem => (haccounts a _ hmem).released, fun t mode id hsupplied hopen => ?_,
    fun hclosed hengines hheld r hr => ?_⟩
  · have hheld := hsound.heldBy hr
    exact ⟨hheld.refs, hheld.mapped_iff, hheld.unmapped⟩
  · exact hsound.mapped (List.mem_append_left _
      (List.mem_append_left _ (List.mem_map.2 ⟨_, hheld, rfl⟩)))
  · have hid := (hsound.engine e he).owned mode id hmem
    exact hsound.mapped (List.mem_append_left _
      (List.mem_append_right _ (List.mem_flatMap.2 ⟨e, by simpa using he, hid⟩)))
  · refine hsound.get_kept ?_ hopen
    rcases hsupplied with ⟨client, t', hdigest, hmem⟩ | ⟨k, e, he, hs, hdigest, hmem⟩
    · rw [← show t'.digest = t.digest from hdigest]
      exact haccounts _ _ hmem
    · obtain ⟨e', he', hkeeps⟩ := haccounts _ _ hmem
      obtain rfl : e = e' := by simpa [he] using he'
      rw [← show e.tape.digest = t.digest from hdigest]
      exact hkeeps hs
  · obtain ⟨id, hid, rfl⟩ := Array.mem_iff_getElem.1 hr
    have hnone : w.references id = 0 := by
      have hflat : w.engines.toList.flatMap Engine.routines = [] :=
        List.flatMap_eq_nil_iff.2 fun e he =>
          (hsound.engine e (by simpa using he)).closed (hengines e (by simpa using he))
      simp [references, hheld, hflat, hclosed]
    have hmapped := (hsound.heldBy (Array.getElem?_eq_getElem hid)).mapped_iff
    rw [← Bool.not_eq_true, hmapped, hnone]
    exact Nat.lt_irrefl 0

/-- The requests one after the other, the log so far given. -/
def play (w : World) (log : List (Action × Report)) : List Action → List (Action × Report) × World
  | [] => (log, w)
  | a :: rest => (w.act a).2.play ((a, (w.act a).1) :: log) rest

/-- Whether all requests are allowed, and leave few references. -/
def admits (w : World) : List Action → Bool
  | [] => true
  | a :: rest =>
    decide (w.Allows a) && decide ((w.act a).2.outside.length + 1 < 2 ^ 31) &&
      (w.act a).2.admits rest

theorem Run.play {w₀ : World} {log : List (Action × Report)} (h : Run w₀ log w)
    {as : List Action} (has : w.admits as = true) :
    Run w₀ (w.play log as).1 (w.play log as).2 := by
  induction as generalizing w log with
  | nil => exact h
  | cons a rest ih =>
    simp only [admits, Bool.and_eq_true, decide_eq_true_eq] at has
    exact ih (h.step a has.1.1 (fits_of_length has.1.2)) has.2

/-- `x + y`. -/
def sumOfInputs : Tape where
  instrs := #[{ code := Op.input.code, var := 0 }, { code := Op.input.code, var := 1 },
    { code := BinaryOp.add.code, left := 0, right := 1 }]
  outputs := #[2]
  vars := #[utf8 "x", utf8 "y"]

/-- A client and an engine get a routine from the cache, and the client retains
it. -/
def sharing : List Action :=
  [.get 7 sumOfInputs .point, .start sumOfInputs .auto .cache, .request 0 .point, .retain 7 0]

/-- All of them drop it, the client last. -/
def dropping : List Action :=
  [.closeCache, .closeEngine 0, .close 7 0, .close 7 0]

def shared : List (Action × Report) × World := (start {} {}).play [] sharing

def dropped : List (Action × Report) × World := shared.2.play shared.1 dropping

/-- With two references of the client, one of the engine and one of the cache
there are four. When all are dropped the memory has been given back once. -/
theorem references_counted_sumOfInputs :
    (Run (start {} {}) shared.1 shared.2 ∧ shared.2.references 0 = 4 ∧
      ∃ r, shared.2.compiler.routines[0]? = some r ∧ r.refs.toInt = 4 ∧ r.mapped = true) ∧
    Run (start {} {}) dropped.1 dropped.2 ∧
      (∀ a errors, (a, .released errors) ∈ dropped.1 → errors = []) ∧
      ∃ r, dropped.2.compiler.routines[0]? = some r ∧ r.mapped = false ∧ r.unmapped = 1 := by
  -- The digest of the tape is expensive, so the run is evaluated once.
  obtain ⟨hsharing, hdropping, hfour, hnone, hsize, hsize'⟩ :
      (start {} {}).admits sharing = true ∧ shared.2.admits dropping = true ∧
      shared.2.references 0 = 4 ∧ dropped.2.references 0 = 0 ∧
      0 < shared.2.compiler.routines.size ∧ 0 < dropped.2.compiler.routines.size := by
    decide +kernel
  have hshared : Run (start {} {}) shared.1 shared.2 := Run.nil.play hsharing
  have hdropped : Run (start {} {}) dropped.1 dropped.2 := hshared.play hdropping
  constructor
  · obtain ⟨hcounts, -⟩ := references_counted {} {} _ _ hshared
    obtain ⟨hrefs, hmapped, -⟩ := hcounts 0 _ (Array.getElem?_eq_getElem hsize)
    rw [hfour] at hrefs hmapped
    exact ⟨hshared, hfour, _, Array.getElem?_eq_getElem hsize, hrefs, hmapped.2 (by decide)⟩
  · obtain ⟨hcounts, -, -, hreleased, -⟩ := references_counted {} {} _ _ hdropped
    obtain ⟨-, hmapped, hunmapped⟩ := hcounts 0 _ (Array.getElem?_eq_getElem hsize')
    rw [hnone] at hmapped hunmapped
    refine ⟨hdropped, hreleased, _, Array.getElem?_eq_getElem hsize', ?_, hunmapped⟩
    rw [← Bool.not_eq_true, hmapped]
    exact Nat.lt_irrefl 0

end World

end ScalarField
