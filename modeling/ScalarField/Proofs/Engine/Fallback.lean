/-
Where the automatic backend compiles and where it interprets
(`World.request_compiles`).

What an engine is given for a mode is what compiling some tape gives: its own,
or, through the cache, one of the same digest that was in use before. The cache
keeps failures too, so this is an invariant of its entries and of everything
that engines have settled on, kept by every step of a run (`World.Faithful.act`)
in which the settings stay as they are. As long as no other tape in use has the
digest of the engine's, the answer is that of `Host.compile_cases`.

A tape that is not valid may have the bytes of one that is. Asked for first, its
failure is what the cache answers for the other (`World.failure_of_another`).
-/
import ScalarField.Proofs.Code.Compilable
import ScalarField.Proofs.Engine.Provenance

namespace ScalarField

namespace Compiler

variable {c d : Compiler} {o : CodeOptions} {t : Tape} {mode : Mode}
  {result : Except CodeError RoutineId}

/-! ## What stays the same -/

/-- The settings stay as they are, and programs where they are. -/
structure Continues (c d : Compiler) : Prop where
  host : d.host = c.host
  options : d.cache.options = c.cache.options
  programs : ∀ (id : RoutineId) (p : Program), c.programs[id]? = some p → d.programs[id]? = some p

theorem Continues.refl (c : Compiler) : c.Continues c := ⟨rfl, rfl, fun _ _ h => h⟩

theorem Continues.trans {c' : Compiler} (h : c.Continues d) (h' : d.Continues c') :
    c.Continues c' :=
  ⟨h'.host.trans h.host, h'.options.trans h.options, fun id p hp =>
    h'.programs id p (h.programs id p hp)⟩

theorem Continues.of_programs_eq (hhost : d.host = c.host)
    (hoptions : d.cache.options = c.cache.options) (hprograms : d.programs = c.programs) :
    c.Continues d := ⟨hhost, hoptions, fun _ _ hp => hprograms ▸ hp⟩

@[simp] theorem warn_host (c : Compiler) (ws : List Bytes) : (c.warn ws).host = c.host := by
  unfold warn
  induction ws generalizing c with
  | nil => rfl
  | cons w rest ih => exact ih (c.note (.warning w))

theorem warn_continues (c : Compiler) (ws : List Bytes) : c.Continues (c.warn ws) :=
  .of_programs_eq (c.warn_host ws) (by rw [warn_cache]) (by rw [programs, warn_routines, programs])

theorem retain_continues (c : Compiler) (id : RoutineId) : c.Continues (c.retain id) :=
  .of_programs_eq rfl rfl (programs_modify_retain _ _)

theorem close_host (c : Compiler) (id : RoutineId) : (c.close id).2.host = c.host := by
  unfold close
  split <;> rfl

theorem close_continues (c : Compiler) (id : RoutineId) : c.Continues (c.close id).2 :=
  .of_programs_eq (c.close_host id) (by rw [close_cache]) (c.close_programs id)

theorem closeAll_continues (c : Compiler) (ids : List RoutineId) :
    c.Continues (c.closeAll ids).2 := by
  induction ids generalizing c with
  | nil => exact .refl c
  | cons id rest ih => exact (c.close_continues id).trans (ih (c.close id).2)

theorem closeCache_continues (c : Compiler) : c.Continues c.closeCache.2 := by
  unfold closeCache
  split
  · exact .refl c
  · have hall := c.closeAll_continues c.cached
    exact ⟨hall.host, hall.options, hall.programs⟩

theorem closeCache_entries (c : Compiler) :
    ∀ x ∈ c.closeCache.2.cache.entries, x ∈ c.cache.entries := by
  unfold closeCache
  split
  · exact fun _ hx => hx
  · exact fun _ hx => absurd hx List.not_mem_nil

/-! ## What compiling gives -/

/-- A result is that of compiling a tape. -/
def Answers (c : Compiler) (o : CodeOptions) (t : Tape) (mode : Mode) :
    Except CodeError RoutineId → Prop
  | .ok id => ∃ p, (c.host.compile o t mode).1 = .ok p ∧ c.programs[id]? = some p
  | .error e => (c.host.compile o t mode).1 = .error e

theorem Answers.mono (h : c.Answers o t mode result) (hcd : c.Continues d) :
    d.Answers o t mode result := by
  cases result with
  | ok id =>
    obtain ⟨p, hcompile, hp⟩ := h
    exact ⟨p, by rw [hcd.host, hcompile], hcd.programs id p hp⟩
  | error e => exact (by rw [hcd.host]; exact h : (d.host.compile o t mode).1 = .error e)

theorem Answers.program {id : RoutineId} (h : c.Answers o t mode (.ok id)) :
    ∃ p, c.programs[id]? = some p ∧ p.mode = mode ∧ p.tape = t := by
  obtain ⟨p, hcompile, hp⟩ := h
  exact ⟨p, hp, Host.compile_eq_ok hcompile⟩

theorem compile_answers (c : Compiler) (o : CodeOptions) (t : Tape) (mode : Mode) :
    c.Continues (c.compile o t mode).2 ∧
      (c.compile o t mode).2.Answers o t mode (c.compile o t mode).1 := by
  unfold compile
  rcases hresult : (c.host.compile o t mode).1 with e | p
  · simp only [hresult]
    refine ⟨c.warn_continues _, ?_⟩
    simp only [Answers, warn_host, hresult]
  · simp only [hresult, load]
    refine ⟨⟨by simp, by simp, fun id q hq => ?_⟩, p, by simp [hresult], ?_⟩
    · rw [programs, warn_routines, Array.map_push]
      exact getElem?_push_of_eq_some hq _
    · have hsize : c.routines.size = (c.routines.map Routine.program).size := by simp
      rw [programs, warn_routines, Array.map_push, hsize, Array.getElem?_push_size]
      rfl

/-- What the cache keeps is what compiling tapes in `S` gave. -/
def CacheAnswers (c : Compiler) (S : Tape → Prop) : Prop :=
  ∀ key result, (key, result) ∈ c.cache.entries →
    ∃ u, S u ∧ u.digest = key.digest ∧ c.Answers c.cache.options u key.mode result

/-- An open cache answers with what it keeps, or compiles and keeps that. -/
theorem get_cases (c : Compiler) (t : Tape) (mode : Mode) (hopen : c.cache.closed = false) :
    c.Continues (c.get t mode).2 ∧ ∃ result, (c.get t mode).1 = result.mapError .code ∧
      ((⟨t.digest, mode⟩, result) ∈ c.cache.entries ∧
          (c.get t mode).2.cache.entries = c.cache.entries ∨
        (c.get t mode).2.Answers c.cache.options t mode result ∧
          (c.get t mode).2.cache.entries = (⟨t.digest, mode⟩, result) :: c.cache.entries) := by
  unfold get
  simp only [hopen, Bool.false_eq_true, if_false]
  split
  · unfold fetch
    dsimp only
    generalize hd :
      ({ c with cache := { c.cache with misses := c.cache.misses + 1 } } : Compiler) = d
    have hcd : c.Continues d := by rw [← hd]; exact ⟨rfl, rfl, fun _ _ h => h⟩
    have hentries : d.cache.entries = c.cache.entries := by rw [← hd]
    obtain ⟨hcontinues, hanswers⟩ := d.compile_answers c.cache.options t mode
    have hcache := d.compile_cache c.cache.options t mode
    generalize d.compile c.cache.options t mode = r at hcontinues hanswers hcache
    obtain ⟨result, d'⟩ := r
    generalize hkept : ({ d' with cache :=
      { d'.cache with entries := (⟨t.digest, mode⟩, result) :: d'.cache.entries } } : Compiler) = k
    have hk : d'.Continues k := by rw [← hkept]; exact ⟨rfl, rfl, fun _ _ h => h⟩
    have hkentries : k.cache.entries = (⟨t.digest, mode⟩, result) :: c.cache.entries := by
      rw [← hkept, hcache, hentries]
    cases result with
    | ok id =>
      have hretain := k.retain_continues id
      exact ⟨((hcd.trans hcontinues).trans hk).trans hretain, .ok id, rfl,
        .inr ⟨(hanswers.mono hk).mono hretain, hkentries⟩⟩
    | error e =>
      have hwarn := k.warn_continues
      refine ⟨((hcd.trans hcontinues).trans hk).trans (hwarn _), .error e, rfl,
        .inr ⟨(hanswers.mono hk).mono (hwarn _), ?_⟩⟩
      rw [warn_cache]
      exact hkentries
  · rename_i result hlookup
    have hmem := mem_of_lookup hlookup
    cases result with
    | ok id =>
      exact ⟨.of_programs_eq rfl rfl (programs_modify_retain _ _), .ok id, rfl, .inl ⟨hmem, rfl⟩⟩
    | error e => exact ⟨⟨rfl, rfl, fun _ _ hp => hp⟩, .error e, rfl, .inl ⟨hmem, rfl⟩⟩

theorem CacheAnswers.mono {S S' : Tape → Prop} (h : c.CacheAnswers S) (hS : ∀ u, S u → S' u)
    (hcd : c.Continues d) (hentries : ∀ x ∈ d.cache.entries, x ∈ c.cache.entries) :
    d.CacheAnswers S' := by
  intro key result hmem
  obtain ⟨u, hu, hdigest, hanswers⟩ := h key result (hentries _ hmem)
  exact ⟨u, hS u hu, hdigest, hcd.options ▸ hanswers.mono hcd⟩

/-- An open cache answers with what compiling a tape of the same digest gives. -/
theorem CacheAnswers.get {S : Tape → Prop} (h : c.CacheAnswers S) (ht : S t)
    (hopen : c.cache.closed = false) (mode : Mode) :
    (c.get t mode).2.CacheAnswers S ∧ ∃ u result, S u ∧ u.digest = t.digest ∧
      (c.get t mode).1 = result.mapError .code ∧
      (c.get t mode).2.Answers c.cache.options u mode result := by
  obtain ⟨hcontinues, result, hresult, ⟨hmem, hentries⟩ | ⟨hanswers, hentries⟩⟩ :=
    c.get_cases t mode hopen
  · obtain ⟨u, hu, hdigest, hanswers⟩ := h _ _ hmem
    exact ⟨h.mono (fun _ hu => hu) hcontinues fun x hx => hentries ▸ hx, u, result, hu, hdigest,
      hresult, hanswers.mono hcontinues⟩
  · refine ⟨fun key r hmem => ?_, t, result, ht, rfl, hresult, hanswers⟩
    rw [hcontinues.options]
    rw [hentries, List.mem_cons] at hmem
    rcases hmem with heq | hmem
    · obtain ⟨rfl, rfl⟩ := Prod.mk.inj heq
      exact ⟨t, ht, rfl, hanswers⟩
    · obtain ⟨u, hu, hdigest, hold⟩ := h key r hmem
      exact ⟨u, hu, hdigest, hold.mono hcontinues⟩

theorem get_of_closed (h : c.cache.closed = true) (t : Tape) (mode : Mode) :
    c.get t mode = (.error .cacheClosed, c) := if_pos h

end Compiler

/-! ## What engines settle on -/

/-- The function is code of the tape for the mode. -/
def Func.IsCodeOf (f : Func) (c : Compiler) (t : Tape) (mode : Mode) : Prop :=
  ∃ id p, f = .compiled id ∧ c.programs[id]? = some p ∧ p.tape = t ∧ p.mode = mode

namespace Engine

variable {e : Engine} {c d : Compiler} {S S' : Tape → Prop} {u : Tape} {mode : Mode}
  {result : Except EngineError Func}

/-- The options that the code of an engine is compiled with. -/
def options (e : Engine) (c : Compiler) : CodeOptions :=
  match e.supply with
  | .cache => c.cache.options
  | .direct o => o

theorem options_eq (e : Engine) (h : c.Continues d) : e.options d = e.options c := by
  unfold options
  split
  · exact h.options
  · rfl

/-- The engine asks for compiled code. -/
def Compiling (e : Engine) : Prop := e.backend = .auto ∨ e.backend = .jit

/-- A tape whose code the engine can be given: its own, or one in `S` that the
cache takes for it. -/
structure Stands (e : Engine) (S : Tape → Prop) (u : Tape) : Prop where
  mem : S u
  digest : u.digest = e.tape.digest
  own : u = e.tape ∨ e.supply = .cache

/-- What comes of a request, by what compiling `u` gives. -/
inductive Outcome (e : Engine) (c : Compiler) (u : Tape) (mode : Mode) :
    Except EngineError Func → Prop
  | compiled {id : RoutineId} (h : c.Answers (e.options c) u mode (.ok id)) :
    Outcome e c u mode (.ok (.compiled id))
  | interpreted {err : CodeError} (h : c.Answers (e.options c) u mode (.error err))
    (hbackend : e.backend ≠ .jit) (hwhy : err.isUnsupported = true) :
    Outcome e c u mode (.ok .interpreted)
  | failed {err : CodeError} (h : c.Answers (e.options c) u mode (.error err))
    (hwhy : e.backend = .jit ∨ err.isUnsupported = false) :
    Outcome e c u mode (.error (.compiling mode (.code err)))

theorem Outcome.mono (h : e.Outcome c u mode result) (hcd : c.Continues d) :
    e.Outcome d u mode result := by
  have hoptions := e.options_eq hcd
  cases h with
  | compiled h => exact .compiled (hoptions ▸ h.mono hcd)
  | interpreted h hbackend hwhy => exact .interpreted (hoptions ▸ h.mono hcd) hbackend hwhy
  | failed h hwhy => exact .failed (hoptions ▸ h.mono hcd) hwhy

/-- All that an engine has settled on came of requests for compiled code. -/
def Settled (e : Engine) (c : Compiler) (S : Tape → Prop) : Prop :=
  e.Compiling → ∀ mode f, (mode, f) ∈ e.funcs → ∃ u, e.Stands S u ∧ e.Outcome c u mode (.ok f)

theorem Settled.mono (h : e.Settled c S) (hS : ∀ u, S u → S' u) (hcd : c.Continues d) :
    e.Settled d S' := by
  intro hcompiling mode f hmem
  obtain ⟨u, hu, houtcome⟩ := h hcompiling mode f hmem
  exact ⟨u, ⟨hS u hu.mem, hu.digest, hu.own⟩, houtcome.mono hcd⟩

/-- What an engine has settled on and what it does settle on now. -/
theorem Settled.settle {f : Func} (h : e.Settled c S) (hu : e.Stands S u)
    (houtcome : e.Outcome c u mode (.ok f)) (ids : List RoutineId) :
    Settled { e.settle mode f with routines := ids } c S := by
  -- Neither what can stand for its tape nor what comes of a request depends on it.
  have hsame : ∀ {u m g}, e.Stands S u ∧ e.Outcome c u m (.ok g) →
      Stands { e.settle mode f with routines := ids } S u ∧
        Outcome { e.settle mode f with routines := ids } c u m (.ok g) := by
    rintro u m g ⟨hu, houtcome⟩
    refine ⟨⟨hu.mem, hu.digest, hu.own⟩, ?_⟩
    cases houtcome with
    | compiled h => exact .compiled h
    | interpreted h hbackend hwhy => exact .interpreted h hbackend hwhy
  intro hcompiling m g hmem
  rcases List.mem_cons.1 hmem with heq | hmem
  · obtain ⟨rfl, rfl⟩ := Prod.mk.inj heq
    exact ⟨u, hsame ⟨hu, houtcome⟩⟩
  · obtain ⟨v, hv⟩ := h hcompiling m g hmem
    exact ⟨v, hsame hv⟩

theorem settled_of_nil (h : e.funcs = []) : e.Settled c S := fun _ mode f hmem => by
  rw [h] at hmem
  exact absurd hmem List.not_mem_nil

theorem obtain_answers (h : c.CacheAnswers S) (htape : S e.tape)
    (hopen : e.supply = .cache → c.cache.closed = false) (mode : Mode) :
    c.Continues (e.obtain c mode).2 ∧ (e.obtain c mode).2.CacheAnswers S ∧
      ∃ u result, e.Stands S u ∧ (e.obtain c mode).1 = result.mapError .code ∧
        (e.obtain c mode).2.Answers (e.options c) u mode result := by
  unfold Engine.obtain options
  cases hsupply : e.supply with
  | cache =>
    obtain ⟨hcontinues, -⟩ := c.get_cases e.tape mode (hopen hsupply)
    obtain ⟨hkept, u, result, hu, hdigest, hresult, hanswers⟩ := h.get htape (hopen hsupply) mode
    exact ⟨hcontinues, hkept, u, result, ⟨hu, hdigest, .inr hsupply⟩, hresult, hanswers⟩
  | direct o =>
    obtain ⟨hcontinues, hanswers⟩ := c.compile_answers o e.tape mode
    have hcache := c.compile_cache o e.tape mode
    exact ⟨hcontinues, h.mono (fun _ hu => hu) hcontinues fun x hx => hcache ▸ hx, e.tape, _,
      ⟨htape, rfl, .inl rfl⟩, rfl, hanswers⟩

theorem compiled_outcome (h : c.CacheAnswers S) (htape : S e.tape)
    (hopen : e.supply = .cache → c.cache.closed = false) (mode : Mode) :
    c.Continues (e.compiled c mode).2.2 ∧ (e.compiled c mode).2.2.CacheAnswers S ∧
      ∃ u, e.Stands S u ∧ e.Outcome (e.compiled c mode).2.2 u mode (e.compiled c mode).1 := by
  obtain ⟨hcontinues, hkept, u, result, hu, hresult, hanswers⟩ := obtain_answers h htape hopen mode
  rw [← e.options_eq hcontinues] at hanswers
  unfold Engine.compiled
  generalize e.obtain c mode = r at hcontinues hkept hresult hanswers
  obtain ⟨result', d⟩ := r
  obtain rfl : result' = result.mapError .code := hresult
  cases result with
  | ok id =>
    obtain ⟨p, hp, hmode, -⟩ := hanswers.program
    simp only [Except.mapError, Compiler.checkMode_eq_ok hp hmode]
    exact ⟨hcontinues, hkept, u, hu, .compiled hanswers⟩
  | error err =>
    simp only [Except.mapError]
    split
    · rename_i hwhy
      have hwhy' : e.backend = .jit ∨ err.isUnsupported = false := by
        simpa [SupplyError.isUnsupported] using hwhy
      exact ⟨hcontinues, hkept, u, hu, .failed hanswers hwhy'⟩
    · rename_i hwhy
      obtain ⟨hbackend, hunsupported⟩ : e.backend ≠ .jit ∧ err.isUnsupported = true := by
        simpa [SupplyError.isUnsupported] using hwhy
      have hnote : ∀ n, d.Continues (d.note n) := fun n => ⟨rfl, rfl, fun _ _ hp => hp⟩
      exact ⟨hcontinues.trans (hnote _), hkept.mono (fun _ hu => hu) (hnote _) fun _ hx => hx, u,
        hu, .mono (.interpreted hanswers hbackend hunsupported) (hnote _)⟩

/-- A request changes nothing about an engine but what it has settled on. -/
theorem compiled_engine (e : Engine) (c : Compiler) (mode : Mode) :
    (e.compiled c mode).2.1 = e ∨ ∃ f ids, (e.compiled c mode).1 = .ok f ∧
      (e.compiled c mode).2.1 = { e.settle mode f with routines := ids } := by
  unfold Engine.compiled
  split
  · split
    · exact .inl rfl
    · exact .inr ⟨_, _, rfl, rfl⟩
  · split
    · exact .inl rfl
    · exact .inr ⟨_, e.routines, rfl, rfl⟩

theorem func_engine (e : Engine) (c : Compiler) (mode : Mode) :
    (e.func c mode).2.1 = e ∨ ∃ f ids, (e.func c mode).1 = .ok f ∧
      (e.func c mode).2.1 = { e.settle mode f with routines := ids } := by
  unfold Engine.func
  split
  · exact .inl rfl
  · split
    · exact .inl rfl
    · split
      · exact e.compiled_engine c mode
      · exact e.compiled_engine c mode
      · exact .inr ⟨_, e.routines, rfl, rfl⟩
      · exact .inl rfl

theorem compiled_of_closed (hsupply : e.supply = .cache) (hclosed : c.cache.closed = true) :
    e.compiled c mode = (.error (.compiling mode .cacheClosed), e, c) := by
  simp [Engine.compiled, Engine.obtain, hsupply, Compiler.get_of_closed hclosed,
    SupplyError.isUnsupported]

/-- A request for compiled code leaves the cache and the engine with what
compiling gave. -/
theorem compiled_settled (h : c.CacheAnswers S) (htape : S e.tape) (he : e.Settled c S)
    (mode : Mode) :
    c.Continues (e.compiled c mode).2.2 ∧ (e.compiled c mode).2.2.CacheAnswers S ∧
      (e.compiled c mode).2.1.Settled (e.compiled c mode).2.2 S := by
  by_cases hopen : e.supply = .cache → c.cache.closed = false
  · obtain ⟨hcontinues, hkept, u, hu, houtcome⟩ := compiled_outcome h htape hopen mode
    refine ⟨hcontinues, hkept, ?_⟩
    have hold := he.mono (fun _ hu => hu) hcontinues
    rcases e.compiled_engine c mode with hsame | ⟨f, ids, hresult, hsettled⟩
    · rw [hsame]
      exact hold
    · rw [hresult] at houtcome
      rw [hsettled]
      exact hold.settle hu houtcome ids
  · obtain ⟨hsupply, hclosed⟩ : e.supply = .cache ∧ c.cache.closed = true := by
      simpa using hopen
    rw [compiled_of_closed hsupply hclosed]
    exact ⟨.refl c, h, he⟩

theorem func_settled (h : c.CacheAnswers S) (htape : S e.tape) (he : e.Settled c S)
    (mode : Mode) :
    c.Continues (e.func c mode).2.2 ∧ (e.func c mode).2.2.CacheAnswers S ∧
      (e.func c mode).2.1.Settled (e.func c mode).2.2 S := by
  have hsame : c.Continues c ∧ c.CacheAnswers S ∧ e.Settled c S := ⟨.refl c, h, he⟩
  unfold Engine.func
  split
  · exact hsame
  · split
    · exact hsame
    · split
      · exact compiled_settled h htape he mode
      · exact compiled_settled h htape he mode
      · rename_i hbackend
        refine ⟨.refl c, h, fun hcompiling => ?_⟩
        rcases hcompiling with hauto | hjit
        · cases hbackend.symm.trans hauto
        · cases hbackend.symm.trans hjit
      · exact hsame

/-- What comes of a request to an open engine, for the first time or again. -/
theorem func_outcome (h : c.CacheAnswers S) (htape : S e.tape) (he : e.Settled c S)
    (hclosed : e.closed = false) (hopen : e.supply = .cache → c.cache.closed = false)
    (hcompiling : e.Compiling) (mode : Mode) :
    ∃ u, e.Stands S u ∧ e.Outcome (e.func c mode).2.2 u mode (e.func c mode).1 := by
  obtain ⟨-, -, hcompiled⟩ := compiled_outcome h htape hopen mode
  unfold Engine.func
  simp only [hclosed, Bool.false_eq_true, if_false]
  split
  · rename_i f hlookup
    exact he hcompiling mode f (mem_of_lookup hlookup)
  · rcases hcompiling with hbackend | hbackend
    · simp only [hbackend]
      exact hcompiled
    · simp only [hbackend]
      exact hcompiled

theorem close_settled (e : Engine) (c : Compiler) :
    c.Continues (e.close c).2.2 ∧ (e.close c).2.2.cache = c.cache ∧
      (e.close c).2.1.tape = e.tape ∧ (e.close c).2.1.supply = e.supply ∧
      ((e.close c).2.1 = e ∨ (e.close c).2.1.funcs = []) := by
  unfold Engine.close
  split
  · exact ⟨.refl c, rfl, rfl, rfl, .inl rfl⟩
  · exact ⟨c.closeAll_continues e.routines, c.closeAll_cache e.routines, rfl, rfl, .inr rfl⟩

theorem simplify_settled (e : Engine) (c : Compiler) (region : Array Interval) :
    c.Continues (e.simplify c region).2 ∧ (e.simplify c region).2.cache = c.cache ∧
      ∀ e', (e.simplify c region).1 = .ok e' → e'.funcs = [] := by
  unfold Engine.simplify
  split
  · exact ⟨.refl c, rfl, fun _ h => by cases h⟩
  · exact ⟨⟨rfl, rfl, fun _ _ hp => hp⟩, rfl, fun _ h => by cases h; rfl⟩

/-- With a valid tape of its own, an engine gets code if there is any, and else
falls back or says why there is none. -/
theorem Outcome.of_valid (h : e.Outcome c e.tape mode result) (hvalid : e.tape.validate = .ok ())
    (hmode : mode ∈ Mode.all)
    (hregs : 1 ≤ (e.options c).regs ∧ (e.options c).regs ≤ assignable) :
    c.host.Compiles (e.options c) e.tape ∧
        (∃ id p, result = .ok (.compiled id) ∧ c.programs[id]? = some p ∧ p.mode = mode ∧
          p.tape = e.tape) ∨
      ¬c.host.Compiles (e.options c) e.tape ∧
        (e.backend ≠ .jit ∧ result = .ok .interpreted ∨
          e.backend = .jit ∧ ∃ err, result = .error (.compiling mode (.code err)) ∧
            c.host.Blames (e.options c) e.tape mode err) := by
  rcases Host.compile_cases (h := c.host) hvalid hmode hregs with
    ⟨hcompiles, p, hp⟩ | ⟨hnot, err, herr, hunsupported, hblames⟩
  · -- Compiling does not fail, so there is code.
    cases h with
    | compiled h =>
      obtain ⟨q, hq⟩ := h.program
      exact .inl ⟨hcompiles, _, q, rfl, hq⟩
    | interpreted h => cases hp.symm.trans h
    | failed h => cases hp.symm.trans h
  · refine .inr ⟨hnot, ?_⟩
    cases h with
    | compiled h =>
      obtain ⟨p, hp, -⟩ := h
      cases herr.symm.trans hp
    | interpreted h hbackend => exact .inl ⟨hbackend, rfl⟩
    | failed h hwhy =>
      obtain rfl := Except.error.inj (herr.symm.trans h)
      rw [hunsupported] at hwhy
      exact .inr ⟨by simpa using hwhy, err, rfl, hblames⟩

end Engine

/-! ## Runs -/

namespace World

variable {host : Host} {options : CodeOptions} {log : List (Action × Report)} {w w' : World}
  {a : Action}

theorem act_request {k : Nat} {e : Engine} (he : w.engines[k]? = some e) (mode : Mode) :
    w.act (.request k mode) = (.settled (e.func w.compiler mode).1,
      w.setEngine k (e.func w.compiler mode).2.1 (e.func w.compiler mode).2.2) := by
  simp only [act, he]

theorem act_enginesStay (w : World) (a : Action) : w.EnginesStay (w.act a).2 := by
  cases a with
  | compile | get | retain | close | closeCache | configure => exact .of_eq rfl
  | start tape backend supply => exact fun _ x hx => ⟨x, getElem?_push_of_eq_some hx _, rfl, rfl⟩
  | simplify k region =>
    simp only [act]
    split
    · exact .of_eq rfl
    · split
      · exact .of_eq rfl
      · exact fun _ x hx => ⟨x, getElem?_push_of_eq_some hx _, rfl, rfl⟩
  | request k mode =>
    cases he : w.engines[k]? with
    | none => exact .of_eq (by simp only [act, he])
    | some e =>
      rw [act_request he]
      rcases e.func_engine w.compiler mode with hsame | ⟨f, ids, -, hsettled⟩
      · exact .setEngine he (by rw [hsame]) (by rw [hsame])
      · exact .setEngine he (by rw [hsettled]; rfl) (by rw [hsettled]; rfl)
  | closeEngine k =>
    simp only [act]
    split
    · exact .of_eq rfl
    · rename_i e he
      obtain ⟨-, -, htape, hsupply, -⟩ := e.close_settled w.compiler
      exact .setEngine he htape hsupply

/-- What the cache keeps and what engines have settled on is what compiling tapes
in use gives, with the settings that there were at the start. -/
structure Faithful (host : Host) (options : CodeOptions) (log : List (Action × Report))
    (w : World) : Prop where
  host : w.compiler.host = host
  options : w.compiler.cache.options = options
  entries : w.compiler.CacheAnswers (w.InUse log)
  funcs : ∀ e ∈ w.engines, e.Settled w.compiler (w.InUse log)

theorem start_faithful (host : Host) (options : CodeOptions) :
    (start host options).Faithful host options [] where
  host := rfl
  options := rfl
  entries _ _ hmem := absurd hmem List.not_mem_nil
  funcs e he := absurd he (Array.not_mem_empty e)

/-- A step by which the cache and the engines get nothing new. -/
theorem Faithful.of_old (h : w.Faithful host options log) (entry : Action × Report)
    (hstay : w.EnginesStay w') (hcontinues : w.compiler.Continues w'.compiler)
    (hentries : ∀ x ∈ w'.compiler.cache.entries, x ∈ w.compiler.cache.entries)
    (hengines : ∀ e ∈ w'.engines, e ∈ w.engines ∨ e.funcs = []) :
    w'.Faithful host options (entry :: log) := by
  have huse : ∀ u, w.InUse log u → w'.InUse (entry :: log) u := fun u hu => hu.step hstay entry
  refine ⟨hcontinues.host.trans h.host, hcontinues.options.trans h.options,
    h.entries.mono huse hcontinues hentries, fun e he => ?_⟩
  rcases hengines e he with hold | hnone
  · exact (h.funcs e hold).mono huse hcontinues
  · exact Engine.settled_of_nil hnone

theorem Faithful.idle (h : w.Faithful host options log) (entry : Action × Report) :
    w.Faithful host options (entry :: log) :=
  h.of_old entry (.of_eq rfl) (.refl _) (fun _ hx => hx) fun _ he => .inl he

theorem Faithful.get (h : w.Faithful host options log) (client : Nat) (t : Tape) (mode : Mode) :
    (w.act (.get client t mode)).2.Faithful host options
      ((.get client t mode, (w.act (.get client t mode)).1) :: log) := by
  have hstay := w.act_enginesStay (.get client t mode)
  cases hclosed : w.compiler.cache.closed with
  | true =>
    have hget := Compiler.get_of_closed hclosed t mode
    refine h.of_old _ hstay ?_ ?_ fun e he => .inl he
    · simp only [act, hget]
      exact .refl _
    · simp only [act, hget]
      exact fun _ hx => hx
  | false =>
    obtain ⟨hcontinues, -⟩ := w.compiler.get_cases t mode hclosed
    have huse : ∀ u, w.InUse log u → InUse (w.act (.get client t mode)).2
        ((.get client t mode, (w.act (.get client t mode)).1) :: log) u :=
      fun u hu => hu.step hstay _
    have hold := h.entries.mono huse (.refl _) fun _ hx => hx
    obtain ⟨hkept, -⟩ := hold.get (.inl ⟨client, mode, _, List.mem_cons_self⟩) hclosed mode
    exact ⟨hcontinues.host.trans h.host, hcontinues.options.trans h.options, hkept,
      fun e he => (h.funcs e he).mono huse hcontinues⟩

theorem Faithful.request (h : w.Faithful host options log) (k : Nat) (mode : Mode) :
    (w.act (.request k mode)).2.Faithful host options
      ((.request k mode, (w.act (.request k mode)).1) :: log) := by
  have hstay := w.act_enginesStay (.request k mode)
  cases he : w.engines[k]? with
  | none =>
    simp only [World.act, he]
    exact h.idle _
  | some e =>
    rw [act_request he] at hstay ⊢
    have hmem := Array.mem_of_getElem? he
    obtain ⟨hcontinues, hkept, hsettled⟩ :=
      Engine.func_settled h.entries (.inr ⟨e, hmem, rfl⟩) (h.funcs e hmem) mode
    have huse := fun u (hu : w.InUse log u) => hu.step hstay
      (.request k mode, .settled (e.func w.compiler mode).1)
    refine ⟨hcontinues.host.trans h.host, hcontinues.options.trans h.options,
      hkept.mono huse (.refl _) fun _ hx => hx, fun x hx => ?_⟩
    rcases Array.mem_or_eq_of_mem_setIfInBounds hx with hold | rfl
    · exact (h.funcs x hold).mono huse hcontinues
    · exact hsettled.mono huse (.refl _)

/-- Every step keeps this, as long as the settings stay as they are. -/
theorem Faithful.act (h : w.Faithful host options log) (hfixed : ∀ host', a ≠ .configure host') :
    (w.act a).2.Faithful host options ((a, (w.act a).1) :: log) := by
  have hstay := w.act_enginesStay a
  cases a with
  | compile client o t mode =>
    obtain ⟨hcontinues, -⟩ := w.compiler.compile_answers o t mode
    have hcache := w.compiler.compile_cache o t mode
    exact h.of_old _ hstay hcontinues (fun x hx => hcache ▸ hx) fun e he => .inl he
  | get client t mode => exact h.get client t mode
  | retain client id =>
    exact h.of_old _ hstay (w.compiler.retain_continues id) (fun _ hx => hx) fun e he => .inl he
  | close client id =>
    have hcache := w.compiler.close_cache id
    exact h.of_old _ hstay (w.compiler.close_continues id) (fun x hx => hcache ▸ hx)
      fun e he => .inl he
  | closeCache =>
    exact h.of_old _ hstay w.compiler.closeCache_continues w.compiler.closeCache_entries
      fun e he => .inl he
  | start t backend supply =>
    refine h.of_old _ hstay (.refl _) (fun _ hx => hx) fun e he => ?_
    rcases Array.mem_push.1 he with hold | rfl
    · exact .inl hold
    · exact .inr rfl
  | simplify k region =>
    revert hstay
    simp only [World.act]
    split
    · exact fun _ => h.idle _
    · rename_i e he
      obtain ⟨hcontinues, hcache, hnew⟩ := e.simplify_settled w.compiler region
      split <;> rename_i hsimplify <;> rw [hsimplify] at hcontinues hcache hnew <;> intro hstay
      · exact h.of_old _ hstay hcontinues (fun x hx => hcache ▸ hx) fun e he => .inl he
      · refine h.of_old _ hstay hcontinues (fun x hx => hcache ▸ hx) fun x hx => ?_
        rcases Array.mem_push.1 hx with hold | rfl
        · exact .inl hold
        · exact .inr (hnew _ rfl)
  | request k mode => exact h.request k mode
  | closeEngine k =>
    revert hstay
    simp only [World.act]
    split
    · exact fun _ => h.idle _
    · rename_i e he
      obtain ⟨hcontinues, hcache, -, -, hfuncs⟩ := e.close_settled w.compiler
      intro hstay
      refine h.of_old _ hstay hcontinues (fun x hx => hcache ▸ hx) fun x hx => ?_
      rcases Array.mem_or_eq_of_mem_setIfInBounds hx with hold | rfl
      · exact .inl hold
      · rcases hfuncs with hsame | hnone
        · exact .inl (hsame.symm ▸ Array.mem_of_getElem? he)
        · exact .inr hnone
  | configure host' => exact absurd rfl (hfixed host')

theorem Faithful.play (h : w.Faithful host options log) {as : List Action}
    (hfixed : ∀ host', .configure host' ∉ as) :
    (w.play log as).2.Faithful host options (w.play log as).1 := by
  induction as generalizing w log with
  | nil => exact h
  | cons a rest ih =>
    have hhead : ∀ host', a ≠ .configure host' := by
      rintro host' rfl
      exact hfixed host' List.mem_cons_self
    exact ih (h.act hhead) fun host' hmem => hfixed host' (List.mem_cons_of_mem a hmem)

/-- A request for compiled code of a valid tape for which no other stands. -/
theorem Faithful.request_cases (h : w.Faithful host options log) {k : Nat} {e : Engine}
    {mode : Mode} (he : w.engines[k]? = some e) (hclosed : e.closed = false)
    (hopen : e.supply = .cache → w.compiler.cache.closed = false)
    (hown : e.supply = .cache → ∀ u, w.InUse log u → u.digest = e.tape.digest → u = e.tape)
    (hvalid : e.tape.validate = .ok ()) (hmode : mode ∈ Mode.all)
    (hregs : 1 ≤ (e.options w.compiler).regs ∧ (e.options w.compiler).regs ≤ assignable)
    (hcompiling : e.Compiling) :
    host.Compiles (e.options w.compiler) e.tape ∧
        (∃ id p, (e.func w.compiler mode).1 = .ok (.compiled id) ∧
          (w.act (.request k mode)).2.compiler.programs[id]? = some p ∧ p.mode = mode ∧
          p.tape = e.tape) ∨
      ¬host.Compiles (e.options w.compiler) e.tape ∧
        (e.backend ≠ .jit ∧ (e.func w.compiler mode).1 = .ok .interpreted ∨
          e.backend = .jit ∧ ∃ err,
            (e.func w.compiler mode).1 = .error (.compiling mode (.code err)) ∧
            host.Blames (e.options w.compiler) e.tape mode err) := by
  have hmem := Array.mem_of_getElem? he
  have huse : w.InUse log e.tape := .inr ⟨e, hmem, rfl⟩
  have hsettled := h.funcs e hmem
  obtain ⟨hcontinues, -⟩ := Engine.func_settled h.entries huse hsettled mode
  obtain ⟨u, hu, houtcome⟩ :=
    Engine.func_outcome h.entries huse hsettled hclosed hopen hcompiling mode
  obtain rfl : u = e.tape := hu.own.elim id fun hs => hown hs u hu.mem hu.digest
  have hoptions := e.options_eq hcontinues
  have hcases := houtcome.of_valid hvalid hmode (hoptions ▸ hregs)
  rw [hoptions, hcontinues.host, h.host] at hcases
  rw [act_request he]
  exact hcases

/-- **The automatic backend does not fail on a valid tape, and compiles it if it
can be compiled.** After any run of engines and clients in which the settings
stay as they are, an open engine is asked for a mode. If it takes its code from
the cache, the cache is open, and no other tape in use has the digest of its
own. Then the automatic backend gives code of the tape for the mode if the level
is not `none`, the processor has it and all operators have code at it, and the
interpreter otherwise; and the backend that only compiles gives code in the same
cases, and otherwise names the first operator without code if the level is not
the reason. -/
theorem request_compiles (host : Host) (options : CodeOptions) (as : List Action)
    (hfixed : ∀ host', .configure host' ∉ as) (log : List (Action × Report)) (w : World)
    (hplay : (start host options).play [] as = (log, w)) (k : Nat) (e : Engine) (mode : Mode)
    (he : w.engines[k]? = some e) (hclosed : e.closed = false)
    (hopen : e.supply = .cache → w.compiler.cache.closed = false)
    (hown : e.supply = .cache → ∀ u, w.InUse log u → u.digest = e.tape.digest → u = e.tape)
    (hvalid : e.tape.validate = .ok ()) (hmode : mode ∈ Mode.all)
    (hregs : 1 ≤ (e.options w.compiler).regs ∧ (e.options w.compiler).regs ≤ 10) :
    w.EnginesStay (w.act (.request k mode)).2 ∧
    (e.backend = .auto → ∃ f, (w.act (.request k mode)).1 = .settled (.ok f) ∧
      (host.Compiles (e.options w.compiler) e.tape →
        f.IsCodeOf (w.act (.request k mode)).2.compiler e.tape mode) ∧
      (¬host.Compiles (e.options w.compiler) e.tape → f = .interpreted)) ∧
    (e.backend = .jit →
      (host.Compiles (e.options w.compiler) e.tape →
        ∃ f, (w.act (.request k mode)).1 = .settled (.ok f) ∧
          f.IsCodeOf (w.act (.request k mode)).2.compiler e.tape mode) ∧
      (¬host.Compiles (e.options w.compiler) e.tape →
        ∃ err, (w.act (.request k mode)).1 = .settled (.error (.compiling mode (.code err))) ∧
          host.Blames (e.options w.compiler) e.tape mode err)) := by
  have hfaithful := (start_faithful host options).play hfixed
  rw [hplay] at hfaithful
  have hcases := hfaithful.request_cases he hclosed hopen hown hvalid hmode hregs
  have hstay := w.act_enginesStay (.request k mode)
  rw [act_request he] at hcases hstay ⊢
  refine ⟨hstay, fun hauto => ?_, fun hjit => ?_⟩
  · rcases hcases (.inl hauto) with ⟨hcompiles, id, p, hresult, hp, hpmode, htape⟩ |
      ⟨hnot, ⟨-, hresult⟩ | ⟨hjit, -⟩⟩
    · exact ⟨.compiled id, by rw [hresult], fun _ => ⟨id, p, rfl, hp, htape, hpmode⟩,
        fun hnot => absurd hcompiles hnot⟩
    · exact ⟨.interpreted, by rw [hresult], fun hcompiles => absurd hcompiles hnot, fun _ => rfl⟩
    · cases hauto.symm.trans hjit
  · rcases hcases (.inr hjit) with ⟨hcompiles, id, p, hresult, hp, hpmode, htape⟩ |
      ⟨hnot, ⟨hnotJit, -⟩ | ⟨-, err, hresult, hblames⟩⟩
    · exact ⟨fun _ => ⟨.compiled id, by rw [hresult], id, p, rfl, hp, htape, hpmode⟩,
        fun hnot => absurd hcompiles hnot⟩
    · exact absurd hjit hnotJit
    · exact ⟨fun hcompiles => absurd hcompiles hnot, fun _ => ⟨err, by rw [hresult], hblames⟩⟩

/-- The input rounded down. -/
def floorOfInput : Tape where
  instrs := #[{ code := Op.input.code, var := 0 }, { code := UnaryOp.floor.code, left := 0 }]
  outputs := #[1]
  vars := #[utf8 "x"]

/-- Options for a level that has no code for rounding. -/
def baseline : CodeOptions := { level := some .sse2 }

/-- An engine that can compile its tape, and two that cannot. -/
def rounders : List Action :=
  [.start floorOfInput .auto .cache, .start floorOfInput .auto (.direct baseline),
    .start floorOfInput .jit (.direct baseline)]

def rounding : List (Action × Report) × World := (start {} {}).play [] rounders

/-- The first gets code, the second interprets, and the third is told of the
second instruction. -/
theorem request_compiles_floorOfInput :
    floorOfInput.validate = .ok () ∧
    (∃ f, (rounding.2.act (.request 0 .grad)).1 = .settled (.ok f) ∧
      f.IsCodeOf (rounding.2.act (.request 0 .grad)).2.compiler floorOfInput .grad) ∧
    (rounding.2.act (.request 1 .grad)).1 = .settled (.ok .interpreted) ∧
    (rounding.2.act (.request 2 .grad)).1 =
      .settled (.error (.compiling .grad (.code (.unsupported .grad (.unary .floor) 1)))) := by
  have hvalid : floorOfInput.validate = .ok () := by decide
  have hfixed : ∀ host', .configure host' ∉ rounders := by simp [rounders]
  have huse : ∀ u, rounding.2.InUse rounding.1 u → u = floorOfInput := by
    rintro u (⟨client, mode, report, hmem⟩ | ⟨e, he, rfl⟩)
    · simp [rounding, rounders, play] at hmem
    · simp only [rounding, rounders, play, act, start, List.push_toArray, List.nil_append,
        List.cons_append, List.mem_toArray, List.mem_cons, List.not_mem_nil, or_false] at he
      rcases he with rfl | rfl | rfl <;> rfl
  have hrequest := request_compiles {} {} rounders hfixed rounding.1 rounding.2 rfl
  obtain ⟨-, hcached, -⟩ := hrequest 0 { tape := floorOfInput, supply := .cache } .grad rfl rfl
    (fun _ => rfl) (fun _ u hu _ => huse u hu) hvalid (by decide) (by decide)
  obtain ⟨-, hauto, -⟩ := hrequest 1 { tape := floorOfInput, supply := .direct baseline } .grad rfl
    rfl (fun h => by cases h) (fun h => by cases h) hvalid (by decide) (by decide)
  obtain ⟨-, -, hjit⟩ := hrequest 2
    { tape := floorOfInput, backend := .jit, supply := .direct baseline } .grad rfl rfl
    (fun h => by cases h) (fun h => by cases h) hvalid (by decide) (by decide)
  obtain ⟨f, hf, hcode, -⟩ := hcached rfl
  obtain ⟨g, hg, -, hinterpreted⟩ := hauto rfl
  obtain ⟨err, herr, hblames⟩ := (hjit rfl).2 (by decide)
  obtain ⟨pos, op, hblocked, rfl⟩ := hblames (by decide) (by decide)
  obtain ⟨rfl, rfl⟩ : pos = 1 ∧ op = .unary .floor := by
    refine hblocked.unique ⟨⟨_, rfl, rfl⟩, by decide, fun k hk i o hi ho => ?_⟩
    obtain rfl : k = 0 := Nat.lt_one_iff.1 hk
    obtain rfl := Option.some.inj hi
    obtain rfl : Op.input = o := Option.some.inj ho
    decide
  refine ⟨hvalid, ⟨f, hf, hcode (by decide)⟩, ?_, herr⟩
  rw [hg, hinterpreted (by decide)]

/-! ## Failures of other tapes -/

/-- Reads a variable that it does not have. -/
def readBeyond : Tape where
  instrs := #[{ code := Op.input.code, var := 2 ^ 32 }]
  outputs := #[0]
  vars := #[utf8 "x", utf8 "y", utf8 "z"]

/-- Has the same bytes: four of them tell the variable. -/
def readWithin : Tape := { readBeyond with instrs := #[{ code := Op.input.code, var := 0 }] }

/-- A client asks the cache for the one, and there is an engine for the other. -/
def misled : List (Action × Report) × World :=
  (start {} {}).play [] [.get 7 readBeyond .point, .start readWithin .auto .cache]

/-- **The automatic backend fails on a valid tape that can be compiled** if the
cache was asked before for one of the same bytes that is not valid. -/
theorem failure_of_another :
    readBeyond.bytes = readWithin.bytes ∧ readWithin.validate = .ok () ∧
    Host.Compiles {} {} readWithin ∧
    (misled.2.act (.request 0 .point)).1 =
      .settled (.error (.compiling .point (.code (.tape (.invalid (.absentVar 0 (2 ^ 32))))))) := by
  have hengine : misled.2.engines[0]? = some { tape := readWithin, supply := .cache } := rfl
  have hfailed : (Engine.func { tape := readWithin, supply := .cache } misled.2.compiler .point).1 =
      .error (.compiling .point (.code (.tape (.invalid (.absentVar 0 (2 ^ 32)))))) := by
    decide +kernel
  refine ⟨by decide, by decide, by decide, ?_⟩
  rw [act_request hengine, hfailed]

end World

end ScalarField
