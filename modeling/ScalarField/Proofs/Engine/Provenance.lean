/-
Which tape stands behind a digest.

The length of a name takes two bytes, so the bytes of a tape tell the tape if
no name is longer than two bytes can say, and its tables can be counted
(`Tape.Measured.bytes_inj`). With such tapes, and as long as the hash keeps
their bytes apart, the cache gives out code of the very tape that it is asked
for, after any run of engines and clients (`World.cache_gives_own_tape`). What
carries this is that the cache only ever holds code of tapes that it was asked
for (`World.Run.stored`).

With longer names it fails: the length wraps, and what one tape counts as the
rest of a name another counts as the next name (`Tape.bytes_coincide`).
-/
import ScalarField.Proofs.Engine.Ownership
import ScalarField.Proofs.Tape.Obtained

namespace ScalarField

/-! ## Tapes that their bytes tell -/

namespace Tape

/-- A tape that was obtained in any way, whose names and tables are no longer
than their lengths can tell. -/
structure Measured (t : Tape) : Prop where
  obtained : t.Obtained
  names : ∀ name ∈ t.vars, name.length ≤ maxName
  vars_lt : t.vars.size < 2 ^ 32
  outputs_lt : t.outputs.size < 2 ^ 32

theorem Measured.bytes_inj {t u : Tape} (ht : t.Measured) (hu : u.Measured)
    (h : t.bytes = u.bytes) : t = u := by
  have htfits := ht.obtained.regular.encodable ht.vars_lt ht.outputs_lt ht.names
  have hufits := hu.obtained.regular.encodable hu.vars_lt hu.outputs_lt hu.names
  exact (htfits.bytes_inj hufits (s := []) (by rw [List.append_nil, h])).1

end Tape

/-! ## Names that are too long -/

/-- A graph with the inputs of two named variables. -/
def History.ofNames (first second : Bytes) : History :=
  (History.start Node.fingerprint).calls [.var first, .var second]

namespace Tape

/-- The value of the first of two named variables. -/
def readFirst (first second : Bytes) : Tape where
  instrs := #[{ code := Op.input.code, var := 3 }]
  outputs := #[0]
  vars := Graph.axes.toArray ++ #[first, second]

theorem build_ofNames {first second : Bytes} (hfirst : first ∉ Graph.axes)
    (hsecond : second ∉ Graph.axes) (hne : first ≠ second) :
    build (History.ofNames first second).graph [0] = .ok (readFirst first second) := by
  obtain ⟨hvars, hnodes, -⟩ := Graph.emptyWith_eq Node.fingerprint
  have hwf := Graph.wellFormed_emptyWith Node.fingerprint
  obtain ⟨hvars₁, hnodes₁⟩ := hwf.call_var_of_fresh first (by simpa [hvars] using hfirst)
    (by simp [hnodes, Graph.capacity])
  obtain ⟨hvars₂, hnodes₂⟩ := (hwf.call (.var first)).wellFormed.call_var_of_fresh second
    (by simpa [hvars₁, hvars] using ⟨hsecond, hne.symm⟩) (by simp [hnodes₁, hnodes, Graph.capacity])
  have hgraph : (History.ofNames first second).graph =
      (((Graph.emptyWith Node.fingerprint).call (.var first)).2.call (.var second)).2 := by
    simp [History.ofNames, History.calls, History.call_graph, History.start]
  rw [← hgraph, hvars₁, hvars] at hvars₂
  rw [← hgraph, hnodes₁, hnodes, hvars₁, hvars] at hnodes₂
  have hnodes₂ : (History.ofNames first second).graph.nodes = #[.input 3, .input 4] := hnodes₂
  simp [build, hnodes₂, hvars₂, Graph.reachable, Graph.sweep, Layout.placeAll, Layout.place,
    Layout.capacity, Layout.instrOf, Node.args, Node.toInstr, readFirst, Node.op]

/-- A length of two bytes does not tell `1` from `65537`. -/
theorem bytes_readFirst_wrap {tail : Bytes} (htail : tail.length = 65534) :
    (readFirst (97 :: 1 :: 0 :: tail) [98]).bytes =
      (readFirst [97] (tail ++ [1, 0, 98])).bytes := by
  have hwrap : Bytes.littleEndian 2 65537 = [1, 0] := by decide
  have hone : Bytes.littleEndian 2 1 = [1, 0] := by decide
  have hfirst : encodeName (97 :: 1 :: 0 :: tail) = 1 :: 0 :: 97 :: 1 :: 0 :: tail := by
    simp [encodeName, htail, hwrap]
  have hsecond : encodeName (tail ++ [1, 0, 98]) = 1 :: 0 :: (tail ++ [1, 0, 98]) := by
    simp [encodeName, htail, hwrap]
  have hshort : encodeName [97] = [1, 0, 97] ∧ encodeName [98] = [1, 0, 98] := by
    simp [encodeName, hone]
  simp [bytes, readFirst, hfirst, hsecond, hshort]

/-- Names of 65537 bytes are none of the axes, and differ from names of one. -/
theorem readFirst_wrap {tail : Bytes} (htail : tail.length = 65534) :
    build (History.ofNames (97 :: 1 :: 0 :: tail) [98]).graph [0] =
        .ok (readFirst (97 :: 1 :: 0 :: tail) [98]) ∧
      build (History.ofNames [97] (tail ++ [1, 0, 98])).graph [0] =
        .ok (readFirst [97] (tail ++ [1, 0, 98])) ∧
      readFirst (97 :: 1 :: 0 :: tail) [98] ≠ readFirst [97] (tail ++ [1, 0, 98]) := by
  have haxes : ∀ name ∈ Graph.axes, name.length = 1 := by decide +kernel
  have hfirst : (97 :: 1 :: 0 :: tail).length = 65537 := by simp [htail]
  have hsecond : (tail ++ [1, 0, 98]).length = 65537 := by simp [htail]
  refine ⟨build_ofNames ?_ (by decide +kernel) ?_, build_ofNames (by decide +kernel) ?_ ?_, ?_⟩
  · exact fun hmem => absurd (haxes _ hmem) (by simp [hfirst])
  · exact fun heq => absurd (congrArg List.length heq) (by simp [hfirst])
  · exact fun hmem => absurd (haxes _ hmem) (by simp [hsecond])
  · exact fun heq => absurd (congrArg List.length heq) (by simp [hsecond])
  · intro heq
    have hnames := congrArg (fun t => t.vars.toList.map List.length) heq
    simp [readFirst, htail] at hnames

/-- Bytes that fill a name up to the length that wraps. -/
def filler : Bytes := List.replicate 65534 99

/-- **Different tapes can have the same bytes and the same digest.** One has a
name of 65537 bytes and then one of one byte, the other one of one byte and then
one of 65537. -/
theorem bytes_coincide :
    build (History.ofNames (97 :: 1 :: 0 :: filler) [98]).graph [0] =
        .ok (readFirst (97 :: 1 :: 0 :: filler) [98]) ∧
      build (History.ofNames [97] (filler ++ [1, 0, 98])).graph [0] =
        .ok (readFirst [97] (filler ++ [1, 0, 98])) ∧
      (readFirst (97 :: 1 :: 0 :: filler) [98]).bytes =
        (readFirst [97] (filler ++ [1, 0, 98])).bytes ∧
      (readFirst (97 :: 1 :: 0 :: filler) [98]).digest =
        (readFirst [97] (filler ++ [1, 0, 98])).digest ∧
      readFirst (97 :: 1 :: 0 :: filler) [98] ≠ readFirst [97] (filler ++ [1, 0, 98]) := by
  have hlength : filler.length = 65534 := List.length_replicate
  have hbytes := bytes_readFirst_wrap hlength
  obtain ⟨hfirst, hsecond, hne⟩ := readFirst_wrap hlength
  exact ⟨hfirst, hsecond, hbytes, congrArg Blake2b.digest hbytes, hne⟩

end Tape

/-! ## What the cache comes to hold -/

namespace Compiler

variable {c d : Compiler} {P Q : Tape → Prop}

/-- Programs stay where they are, and what is new in the cache is code of a tape
in `P`. -/
structure Draws (c d : Compiler) (P : Tape → Prop) : Prop where
  programs : ∀ (id : RoutineId) (p : Program), c.programs[id]? = some p →
    d.programs[id]? = some p
  entries : ∀ (key : CacheKey) (id : RoutineId), (key, .ok id) ∈ d.cache.entries →
    (key, .ok id) ∈ c.cache.entries ∨ ∃ p, d.programs[id]? = some p ∧ P p.tape

theorem Draws.mono (h : c.Draws d P) (hPQ : ∀ t, P t → Q t) : c.Draws d Q := by
  refine ⟨h.programs, fun key id hmem => ?_⟩
  rcases h.entries key id hmem with hold | ⟨p, hp, htape⟩
  · exact .inl hold
  · exact .inr ⟨p, hp, hPQ _ htape⟩

theorem Draws.of_programs_eq (hprograms : d.programs = c.programs)
    (hentries : d.cache.entries = c.cache.entries) : c.Draws d P :=
  ⟨fun _ _ hp => hprograms ▸ hp, fun _ _ hmem => .inl (hentries ▸ hmem)⟩

theorem Draws.of_routines_eq (hroutines : d.routines = c.routines)
    (hentries : d.cache.entries = c.cache.entries) : c.Draws d P :=
  .of_programs_eq (by rw [Compiler.programs, hroutines, Compiler.programs]) hentries

theorem compile_draws (c : Compiler) (o : CodeOptions) (t : Tape) (mode : Mode) :
    c.Draws (c.compile o t mode).2 P := by
  rcases c.compile_cases o t mode with ⟨-, -, hroutines, hcache⟩ |
    ⟨p, -, -, -, hroutines, hcache⟩
  · exact .of_routines_eq hroutines (by rw [hcache])
  · refine ⟨fun id q hq => ?_, fun key id hmem => .inl (hcache ▸ hmem)⟩
    rw [Compiler.programs, hroutines, Array.map_push]
    exact getElem?_push_of_eq_some hq _

/-- The cache gets no code but that of the tape it is asked for. -/
theorem get_draws (c : Compiler) (t : Tape) (mode : Mode) :
    c.Draws (c.get t mode).2 (· = t) := by
  refine ⟨fun id p hp => (c.get_gets t mode).programs_eq hp, fun key id hmem => ?_⟩
  revert hmem
  unfold get
  dsimp only
  split
  · exact .inl
  · split
    · unfold fetch
      dsimp only
      generalize hd :
        ({ c with cache := { c.cache with misses := c.cache.misses + 1 } } : Compiler) = d
      have hdentries : d.cache.entries = c.cache.entries := by rw [← hd]
      rcases d.compile_cases c.cache.options t mode with ⟨e, hresult, -, hcache⟩ |
        ⟨p, -, htape, hresult, hroutines, hcache⟩
      · rw [hresult]
        intro hmem
        exact .inl (by simpa [hcache, hdentries] using hmem)
      · rw [hresult]
        simp only [Compiler.retain, hcache, hdentries, List.mem_cons, Prod.mk.injEq,
          Except.ok.injEq]
        rintro (⟨-, rfl⟩ | hold)
        · refine .inr ⟨p, ?_, htape⟩
          have hsize : d.routines.size = (d.routines.map Routine.program).size := by simp
          rw [Compiler.programs, hroutines, programs_modify_retain, Array.map_push, hsize,
            Array.getElem?_push_size]
          rfl
        · exact .inl hold
    · split <;> exact .inl

theorem closeCache_draws (c : Compiler) : c.Draws c.closeCache.2 P := by
  unfold closeCache
  split
  · exact .of_programs_eq rfl rfl
  · refine ⟨fun id p hp => ?_, fun key id hmem => absurd hmem List.not_mem_nil⟩
    exact (c.closeAll_programs c.cached) ▸ hp

end Compiler

namespace Engine

variable {c : Compiler}

theorem obtain_draws (e : Engine) (c : Compiler) (mode : Mode) :
    c.Draws (e.obtain c mode).2 (· = e.tape) := by
  unfold Engine.obtain
  split
  · exact c.get_draws e.tape mode
  · exact c.compile_draws _ e.tape mode

theorem func_draws (e : Engine) (c : Compiler) (mode : Mode) :
    c.Draws (e.func c mode).2.2 (· = e.tape) := by
  have hsame : c.Draws c (· = e.tape) := .of_programs_eq rfl rfl
  have hcompiled : c.Draws (e.compiled c mode).2.2 (· = e.tape) := by
    have hobtain := e.obtain_draws c mode
    unfold Engine.compiled
    generalize e.obtain c mode = r at hobtain
    obtain ⟨_ | id, d⟩ := r
    · dsimp only
      split
      · exact hobtain
      · exact ⟨hobtain.programs, hobtain.entries⟩
    · dsimp only
      split
      · refine ⟨fun j p hp => ?_, fun key j hmem => ?_⟩
        · rw [Compiler.close_programs]
          exact hobtain.programs j p hp
        · rw [Compiler.close_cache] at hmem
          rw [Compiler.close_programs]
          exact hobtain.entries key j hmem
      · exact hobtain
  unfold Engine.func
  split
  · exact hsame
  · split
    · exact hsame
    · split
      · exact hcompiled
      · exact hcompiled
      · exact hsame
      · exact hsame

theorem close_draws (e : Engine) (c : Compiler) {P : Tape → Prop} :
    c.Draws (e.close c).2.2 P := by
  unfold Engine.close
  split
  · exact .of_programs_eq rfl rfl
  · exact .of_programs_eq (c.closeAll_programs e.routines) (by rw [c.closeAll_cache e.routines])

end Engine

/-! ## Runs -/

namespace World

variable {w : World} {log : List (Action × Report)}

/-- The tape of an engine, or one that a client asked the cache for. -/
def InUse (w : World) (log : List (Action × Report)) (t : Tape) : Prop :=
  (∃ client mode report, (.get client t mode, report) ∈ log) ∨ ∃ e ∈ w.engines, e.tape = t

theorem InUse.step {w' : World} {t : Tape} (h : w.InUse log t) (hengines : w.EnginesStay w')
    (entry : Action × Report) : w'.InUse (entry :: log) t := by
  rcases h with ⟨client, mode, report, hmem⟩ | ⟨e, he, rfl⟩
  · exact .inl ⟨client, mode, report, List.mem_cons_of_mem entry hmem⟩
  · obtain ⟨k, hk⟩ := Array.mem_iff_getElem?.1 he
    obtain ⟨e', hk', htape, -⟩ := hengines k e hk
    exact .inr ⟨e', Array.mem_of_getElem? hk', htape⟩

/-- What a request adds to the cache is code of the tape that it asks for, or of
that of an engine. -/
theorem act_draws (w : World) (a : Action) :
    w.compiler.Draws (w.act a).2.compiler fun t =>
      (∃ client mode, a = .get client t mode) ∨ ∃ e ∈ w.engines, e.tape = t := by
  have hsame {P : Tape → Prop} : w.compiler.Draws w.compiler P := .of_programs_eq rfl rfl
  cases a with
  | compile client o t mode => exact w.compiler.compile_draws o t mode
  | get client t mode =>
    exact (w.compiler.get_draws t mode).mono fun u hu => .inl ⟨client, mode, by rw [hu]⟩
  | retain client id => exact .of_programs_eq (Compiler.programs_modify_retain _ _) rfl
  | close client id =>
    exact .of_programs_eq (w.compiler.close_programs id) (by rw [act, w.compiler.close_cache id])
  | closeCache => exact w.compiler.closeCache_draws
  | start t backend supply => exact hsame
  | simplify k region =>
    simp only [act]
    split
    · exact hsame
    · unfold Engine.simplify
      split <;> rename_i hs <;> split at hs <;> obtain ⟨hres, rfl⟩ := Prod.mk.inj hs
      · exact hsame
      · cases hres
      · cases hres
      · exact .of_routines_eq rfl rfl
  | request k mode =>
    simp only [act]
    split
    · exact hsame
    · rename_i e he
      exact (e.func_draws w.compiler mode).mono fun u hu =>
        .inr ⟨e, Array.mem_of_getElem? he, hu.symm⟩
  | closeEngine k =>
    simp only [act]
    split
    · exact hsame
    · exact Engine.close_draws _ _
  | configure host => exact .of_routines_eq rfl rfl

/-- Along every run the cache holds code of tapes in use only. -/
theorem Run.stored {host : Host} {options : CodeOptions} (h : Run (start host options) log w) :
    ∀ (key : CacheKey) (id : RoutineId), (key, .ok id) ∈ w.compiler.cache.entries →
      ∃ p, w.compiler.programs[id]? = some p ∧ w.InUse log p.tape := by
  induction h with
  | nil => exact fun _ _ hmem => absurd hmem List.not_mem_nil
  | @step log w a hrun hallow hfit ih =>
    obtain ⟨hsound, hfit₀, -⟩ := hrun.sound
    have hstay := (hsound.step hfit₀ hallow hfit).engines
    have hdraws := w.act_draws a
    intro key id hmem
    rcases hdraws.entries key id hmem with hold | ⟨p, hp, ⟨client, mode, rfl⟩ | ⟨e, he, htape⟩⟩
    · obtain ⟨p, hp, huse⟩ := ih key id hold
      exact ⟨p, hdraws.programs id p hp, huse.step hstay _⟩
    · exact ⟨p, hp, .inl ⟨client, mode, _, List.mem_cons_self⟩⟩
    · have huse : w.InUse log p.tape := .inr ⟨e, he, htape⟩
      exact ⟨p, hp, huse.step hstay _⟩

/-- What the cache gives out was compiled for the mode, from a tape in use or the
one asked for, with the digest of the one asked for. -/
theorem Run.get_origin {host : Host} {options : CodeOptions}
    (h : Run (start host options) log w) {t : Tape} {mode : Mode} {id : RoutineId}
    (hget : (w.compiler.get t mode).1 = .ok id) :
    ∃ p, (w.compiler.get t mode).2.programs[id]? = some p ∧ p.mode = mode ∧
      p.tape.digest = t.digest ∧ (p.tape = t ∨ w.InUse log p.tape) := by
  obtain ⟨hsound, -⟩ := h.sound
  obtain ⟨hlookup, p, hp, hmode, hdigest⟩ :=
    (w.compiler.get_gets t mode).found hsound.compiler.cache hget
  have hdraws := w.compiler.get_draws t mode
  refine ⟨p, hp, hmode, hdigest, ?_⟩
  rcases hdraws.entries _ id (mem_of_lookup hlookup) with hold | ⟨q, hq, htape⟩
  · obtain ⟨q, hq, huse⟩ := h.stored _ id hold
    obtain rfl : p = q := Option.some.inj (hp.symm.trans (hdraws.programs id q hq))
    exact .inr huse
  · obtain rfl : p = q := Option.some.inj (hp.symm.trans hq)
    exact .inl htape

/-- **Digests tell tapes apart, and the cache does not mix them up.** Tapes whose
names and tables are no longer than their lengths can tell are equal if their
bytes are. If the hash tells the bytes of such tapes apart, they are equal if
their digests are; and after any run of engines and clients that use no other
tapes, the code that the cache gives out for one of them was compiled from it,
for the mode asked for. -/
theorem cache_gives_own_tape (S : Tape → Prop) (hmeasured : ∀ t, S t → t.Measured)
    (hcollide : ∀ t u, S t → S u → Blake2b.digest t.bytes = Blake2b.digest u.bytes →
      t.bytes = u.bytes) :
    (∀ t u : Tape, t.Measured → u.Measured → t.bytes = u.bytes → t = u) ∧
    (∀ t u, S t → S u → t.digest = u.digest → t = u) ∧
    ∀ host options log w, Run (start host options) log w → (∀ t, w.InUse log t → S t) →
      ∀ t mode id, S t → (w.compiler.get t mode).1 = .ok id →
        ∃ r, (w.compiler.get t mode).2.routines[id]? = some r ∧ r.program.tape = t ∧
          r.program.mode = mode := by
  have hdigest : ∀ t u, S t → S u → t.digest = u.digest → t = u := fun t u ht hu h =>
    (hmeasured t ht).bytes_inj (hmeasured u hu) (hcollide t u ht hu h)
  refine ⟨fun t u ht hu h => ht.bytes_inj hu h, hdigest,
    fun host options log w hrun huse t mode id ht hget => ?_⟩
  obtain ⟨p, hp, hmode, hsame, horigin⟩ := hrun.get_origin hget
  have hS : S p.tape := by
    rcases horigin with heq | hin
    · rw [heq]
      exact ht
    · exact huse _ hin
  obtain ⟨r, hr, rfl⟩ := Compiler.programs_getElem?.1 hp
  exact ⟨r, hr, hdigest _ t hS ht hsame, hmode⟩

/-- A client gets code of `sumOfInputs` from the cache. -/
def served : List (Action × Report) × World :=
  (start {} {}).play [] [.get 7 sumOfInputs .point]

/-- Then the cache has code of the one tape, and compiles another one whose
digest differs. -/
theorem cache_gives_own_tape_sumOfInputs :
    Run (start {} {}) served.1 served.2 ∧
      ((served.2.compiler.get sumOfInputs .point).1 = .ok 0 ∧
        ∃ r, (served.2.compiler.get sumOfInputs .point).2.routines[0]? = some r ∧
          r.program.tape = sumOfInputs ∧ r.program.mode = .point) ∧
      (served.2.compiler.get (.readFirst [97] [98]) .point).1 = .ok 1 ∧
        ∃ r, (served.2.compiler.get (.readFirst [97] [98]) .point).2.routines[1]? = some r ∧
          r.program.tape = .readFirst [97] [98] ∧ r.program.mode = .point := by
  -- Digests are expensive, so all that needs them is evaluated at once.
  obtain ⟨hadmits, hdecode, hopen, hdigests, hfirst, hget'⟩ :
      (start {} {}).admits [.get 7 sumOfInputs .point] = true ∧
      Tape.decode sumOfInputs.bytes = .ok sumOfInputs ∧
      served.2.compiler.cache.closed = false ∧
      sumOfInputs.digest ≠ (Tape.readFirst [97] [98]).digest ∧
      ((start {} {}).compiler.get sumOfInputs .point).1 = .ok 0 ∧
      (served.2.compiler.get (.readFirst [97] [98]) .point).1 = .ok 1 := by
    decide +kernel
  have hrun : Run (start {} {}) served.1 served.2 := Run.nil.play hadmits
  obtain ⟨hsound, -, haccounts⟩ := hrun.sound
  have hget : (served.2.compiler.get sumOfInputs .point).1 = .ok 0 := by
    refine (hsound.get_kept (haccounts (.get 7 sumOfInputs .point) (.supplied (.ok 0)) ?_) hopen).1
    simp [served, play, act, hfirst]
  have hmeasured : ∀ t, t = sumOfInputs ∨ t = .readFirst [97] [98] → t.Measured := by
    rintro t (rfl | rfl)
    · exact ⟨.decoded hdecode, by decide +kernel, by decide, by decide⟩
    · exact ⟨.built (Tape.build_ofNames (by decide +kernel) (by decide +kernel) (by decide)),
        by decide +kernel, by decide, by decide⟩
  obtain ⟨-, -, hserves⟩ := cache_gives_own_tape _ hmeasured (by
    rintro t u (rfl | rfl) (rfl | rfl) h
    · rfl
    · exact absurd h hdigests
    · exact absurd h.symm hdigests
    · rfl)
  have huse : ∀ t, served.2.InUse served.1 t → t = sumOfInputs ∨ t = .readFirst [97] [98] := by
    rintro t (⟨client, mode, report, hmem⟩ | ⟨e, he, rfl⟩)
    · simp only [served, play, List.mem_singleton, Prod.mk.injEq, Action.get.injEq] at hmem
      exact .inl hmem.1.2.1
    · simp [served, play, act, give, start] at he
  exact ⟨hrun, ⟨hget, hserves _ _ _ _ hrun huse _ _ _ (.inl rfl) hget⟩, hget',
    hserves _ _ _ _ hrun huse _ _ _ (.inr rfl) hget'⟩

end World

end ScalarField
