/-
References to routines are counted.

`Compiler.Counts` relates the counts of all routines to a list of owners, in
which a routine stands once for each reference to it: the count is the number
of times that it does, and its memory has been given back, once, if it does
not. Every operation of the compiler keeps the relation with the list that the
operation leaves: what is handed out is added to it, and what is dropped is
removed. The owners other than the cache are those of `Compiler.Sound`.
-/
import Mathlib.Data.List.Perm.Basic
import Mathlib.Data.Nat.Bitwise
import ScalarField.Code.Compiler

namespace ScalarField

/-! ## One routine -/

namespace Routine

/-- The routine has `n` references: its count says so, and its memory was given
back, once, if there are none. -/
structure HeldBy (r : Routine) (n : Nat) : Prop where
  refs : r.refs.toInt = n
  unmapped : r.unmapped = if n = 0 then 1 else 0

variable {r : Routine} {n : Nat}

theorem load_heldBy (p : Program) : (load p).HeldBy 1 := ⟨rfl, rfl⟩

theorem HeldBy.mapped_iff (h : r.HeldBy n) : r.mapped = true ↔ 0 < n := by
  rw [mapped, h.unmapped]
  by_cases hn : n = 0
  · simp [hn]
  · simp [hn, Nat.pos_of_ne_zero hn]

theorem one_toInt : (1 : Int32).toInt = 1 := rfl

theorem HeldBy.retain (h : r.HeldBy n) (hn : 0 < n) (hfit : n + 1 < 2 ^ 31) :
    r.retain.HeldBy (n + 1) := by
  constructor
  · rw [Routine.retain, Int32.toInt_add, h.refs, one_toInt, Int.bmod_eq_of_le] <;> omega
  · rw [Routine.retain, h.unmapped, if_neg (by omega), if_neg (by omega)]

/-- Dropping a reference that exists is no error; the memory is given back with
the last one. -/
theorem HeldBy.close (h : r.HeldBy (n + 1)) (hfit : n + 1 < 2 ^ 31) :
    r.close.1 = .ok () ∧ r.close.2.HeldBy n := by
  have hrefs : (r.refs - 1).toInt = n := by
    rw [Int32.toInt_sub, h.refs, one_toInt, Int.bmod_eq_of_le] <;> omega
  have hunmapped : r.unmapped = 0 := h.unmapped
  have hzero : r.refs - 1 = 0 ↔ n = 0 := by
    rw [← Int32.toInt_inj, hrefs]
    exact Int.natCast_eq_zero
  have hpos : ¬r.refs - 1 < 0 := by
    rw [Int32.lt_iff_toInt_lt, hrefs]
    exact Int.not_lt.2 (Int.natCast_nonneg n)
  unfold Routine.close
  by_cases hn : n = 0
  · simp only [if_pos (hzero.2 hn)]
    exact ⟨trivial, hrefs, by simp [hunmapped, hn]⟩
  · simp only [if_neg (fun h => hn (hzero.1 h)), if_neg hpos]
    exact ⟨trivial, hrefs, by simp [hunmapped, hn]⟩

theorem close_program (r : Routine) : r.close.2.program = r.program := by
  unfold close
  dsimp only
  split
  · rfl
  · split <;> rfl

end Routine

theorem mem_of_lookup {α β : Type} [BEq α] [LawfulBEq α] {l : List (α × β)} {a : α} {b : β}
    (h : l.lookup a = some b) : (a, b) ∈ l := by
  obtain ⟨l₁, l₂, rfl, -⟩ := List.lookup_eq_some_iff.1 h
  simp

theorem getElem?_push_of_eq_some {α : Type} {xs : Array α} {i : Nat} {a : α} (h : xs[i]? = some a)
    (b : α) : (xs.push b)[i]? = some a := by
  obtain ⟨hi, rfl⟩ := Array.getElem?_eq_some_iff.1 h
  exact Array.getElem?_push_lt hi

/-! ## Programs -/

theorem Program.generate_eq_ok {level : Level} {regs : Int} {t : Tape} {mode : Mode} {p : Program}
    (h : Program.generate level regs t mode = .ok p) : p.mode = mode ∧ p.tape = t := by
  unfold Program.generate at h
  split at h
  · simp at h
  · split at h
    · simp at h
    · split at h
      · simp at h
      · split at h
        · simp at h
        · split at h
          · simp at h
          · obtain rfl := Except.ok.inj h
            exact ⟨rfl, rfl⟩

theorem Host.compile_eq_ok {h : Host} {o : CodeOptions} {t : Tape} {mode : Mode} {p : Program}
    (hp : (h.compile o t mode).1 = .ok p) : p.mode = mode ∧ p.tape = t := by
  unfold Host.compile at hp
  split at hp
  · simp at hp
  · split at hp
    · simp only [Host.assemble] at hp
      split at hp
      · simp at hp
      · split at hp
        · simp at hp
        · rename_i hgen
          obtain rfl := Except.ok.inj hp
          exact Program.generate_eq_ok hgen
    · simp at hp

/-! ## All routines -/

namespace Compiler

variable {c : Compiler} {owners outside : List RoutineId} {id : RoutineId}

/-- No routine has more references than can be counted. -/
def Fits (owners : List RoutineId) : Prop := ∀ id, owners.count id < 2 ^ 31

theorem Fits.perm {owners' : List RoutineId} (h : Fits owners) (hp : owners.Perm owners') :
    Fits owners' := fun id => hp.count_eq id ▸ h id

theorem Fits.of_cons (h : Fits (id :: owners)) : Fits owners := fun j =>
  Nat.lt_of_le_of_lt List.count_le_count_cons (h j)

/-- Each routine has the references of the owners. -/
structure Counts (c : Compiler) (owners : List RoutineId) : Prop where
  heldBy : ∀ (id : RoutineId) (r : Routine), c.routines[id]? = some r → r.HeldBy (owners.count id)
  loaded : ∀ id ∈ owners, id < c.routines.size

theorem Counts.perm {owners' : List RoutineId} (h : c.Counts owners) (hp : owners.Perm owners') :
    c.Counts owners' :=
  ⟨fun id r hr => hp.count_eq id ▸ h.heldBy id r hr, fun id hid => h.loaded id (hp.mem_iff.2 hid)⟩

theorem Counts.of_routines_eq {d : Compiler} (h : c.Counts owners) (heq : d.routines = c.routines) :
    d.Counts owners :=
  ⟨fun id r hr => h.heldBy id r (heq ▸ hr), fun id hid => heq ▸ h.loaded id hid⟩

theorem Counts.load {d : Compiler} {p : Program} (h : c.Counts owners)
    (hd : d.routines = c.routines.push (.load p)) : d.Counts (c.routines.size :: owners) := by
  have hnew : c.routines.size ∉ owners := fun hmem => Nat.lt_irrefl _ (h.loaded _ hmem)
  constructor
  · intro id r hr
    rw [hd, Array.getElem?_push] at hr
    split at hr
    · rename_i hid
      obtain rfl : Routine.load p = r := by simpa using hr
      rw [hid, List.count_cons_self, List.count_eq_zero_of_not_mem hnew]
      exact Routine.load_heldBy p
    · rename_i hid
      rw [List.count_cons_of_ne (Ne.symm hid)]
      exact h.heldBy id r hr
  · intro id hid
    rw [hd, Array.size_push]
    rcases List.mem_cons.1 hid with rfl | hid
    · exact Nat.lt_succ_self _
    · exact Nat.lt_succ_of_lt (h.loaded id hid)

theorem Counts.retain {d : Compiler} (h : c.Counts owners) (hmem : id ∈ owners)
    (hfit : Fits (id :: owners)) (hd : d.routines = c.routines.modify id .retain) :
    d.Counts (id :: owners) := by
  constructor
  · intro j r hr
    rw [hd, Array.getElem?_modify] at hr
    split at hr
    · rename_i hj
      subst hj
      obtain ⟨r, hr', rfl⟩ := Option.map_eq_some_iff.1 hr
      have hcount := hfit id
      rw [List.count_cons_self] at hcount ⊢
      exact (h.heldBy id r hr').retain (List.count_pos_iff.2 hmem) hcount
    · rename_i hj
      rw [List.count_cons_of_ne hj]
      exact h.heldBy j r hr
  · intro j hj
    rw [hd, Array.size_modify]
    rcases List.mem_cons.1 hj with rfl | hj
    · exact h.loaded j hmem
    · exact h.loaded j hj

/-- An owner drops its reference. -/
theorem Counts.close (h : c.Counts (id :: owners)) (hfit : Fits (id :: owners)) :
    (c.close id).1 = .ok () ∧ (c.close id).2.Counts owners := by
  have hid : id < c.routines.size := h.loaded id List.mem_cons_self
  have hr : c.routines[id]? = some c.routines[id] := Array.getElem?_eq_getElem hid
  have hcount := hfit id
  have hheld := h.heldBy id _ hr
  rw [List.count_cons_self] at hcount hheld
  obtain ⟨hok, hheld'⟩ := hheld.close hcount
  simp only [Compiler.close, hr]
  refine ⟨hok, fun j r hj => ?_, fun j hj => ?_⟩
  · rw [Array.getElem?_setIfInBounds] at hj
    split at hj
    · rename_i heq
      subst heq
      obtain rfl : c.routines[id].close.2 = r := by simpa [hid] using hj
      exact hheld'
    · rename_i hne
      have hheld := h.heldBy j r hj
      rwa [List.count_cons_of_ne hne] at hheld
  · simpa using h.loaded j (List.mem_cons_of_mem id hj)

theorem Counts.closeAll {ids : List RoutineId} (h : c.Counts (ids ++ owners))
    (hfit : Fits (ids ++ owners)) :
    (c.closeAll ids).1 = [] ∧ (c.closeAll ids).2.Counts owners := by
  induction ids generalizing c with
  | nil => exact ⟨rfl, h⟩
  | cons id rest ih =>
    obtain ⟨hok, hrest⟩ := h.close hfit
    obtain ⟨hnone, hdone⟩ := ih hrest hfit.of_cons
    simp only [Compiler.closeAll, hok]
    exact ⟨hnone, hdone⟩

/-! ## What stays the same -/

/-- The code of the routines, in the order of loading. -/
def programs (c : Compiler) : Array Program := c.routines.map Routine.program

theorem programs_getElem? {p : Program} :
    c.programs[id]? = some p ↔ ∃ r, c.routines[id]? = some r ∧ r.program = p := by
  simp [programs]

theorem close_programs (c : Compiler) (id : RoutineId) : (c.close id).2.programs = c.programs := by
  unfold close
  split
  · rfl
  · rename_i r hr
    refine Array.ext_getElem? fun j => ?_
    simp only [programs, Array.getElem?_map, Array.getElem?_setIfInBounds]
    split
    · rename_i heq
      subst heq
      split
      · simp [hr, Routine.close_program]
      · rename_i hge
        simp [Array.getElem?_eq_none (Nat.not_lt.1 hge)]
    · rfl

theorem close_cache (c : Compiler) (id : RoutineId) : (c.close id).2.cache = c.cache := by
  unfold close
  split <;> rfl

theorem closeAll_cache (c : Compiler) (ids : List RoutineId) :
    (c.closeAll ids).2.cache = c.cache := by
  induction ids generalizing c with
  | nil => rfl
  | cons id rest ih => exact (ih (c.close id).2).trans (c.close_cache id)

theorem closeAll_programs (c : Compiler) (ids : List RoutineId) :
    (c.closeAll ids).2.programs = c.programs := by
  induction ids generalizing c with
  | nil => rfl
  | cons id rest ih => exact (ih (c.close id).2).trans (c.close_programs id)

theorem programs_modify_retain (rs : Array Routine) (id : RoutineId) :
    (rs.modify id .retain).map Routine.program = rs.map Routine.program := by
  refine Array.ext_getElem? fun j => ?_
  simp only [Array.getElem?_map, Array.getElem?_modify]
  split
  · cases rs[j]? <;> rfl
  · rfl

@[simp] theorem warn_routines (c : Compiler) (ws : List Bytes) :
    (c.warn ws).routines = c.routines := by
  unfold warn
  induction ws generalizing c with
  | nil => rfl
  | cons w rest ih => exact ih (c.note (.warning w))

@[simp] theorem warn_cache (c : Compiler) (ws : List Bytes) : (c.warn ws).cache = c.cache := by
  unfold warn
  induction ws generalizing c with
  | nil => rfl
  | cons w rest ih => exact ih (c.note (.warning w))

/-! ## Compiling -/

/-- Compiling fails and loads nothing, or loads one more routine. -/
theorem compile_cases (c : Compiler) (o : CodeOptions) (t : Tape) (mode : Mode) :
    (∃ e, (c.compile o t mode).1 = .error e ∧ (c.compile o t mode).2.routines = c.routines ∧
      (c.compile o t mode).2.cache = c.cache) ∨
    ∃ p, p.mode = mode ∧ p.tape = t ∧ (c.compile o t mode).1 = .ok c.routines.size ∧
      (c.compile o t mode).2.routines = c.routines.push (.load p) ∧
      (c.compile o t mode).2.cache = c.cache := by
  unfold compile
  rcases hresult : (c.host.compile o t mode).1 with e | p
  · exact .inl ⟨e, by simp [hresult]⟩
  · obtain ⟨hmode, htape⟩ := Host.compile_eq_ok hresult
    exact .inr ⟨p, hmode, htape, by simp [hresult, load]⟩

/-! ## The cache -/

/-- What is in the cache can be found there: the routine is loaded, for the mode
and from a tape with the digest that it is found by. A closed cache is empty. -/
structure CacheSound (c : Compiler) : Prop where
  entry : ∀ (key : CacheKey) (id : RoutineId), (key, .ok id) ∈ c.cache.entries →
    ∃ p, c.programs[id]? = some p ∧ p.mode = key.mode ∧ p.tape.digest = key.digest
  nodup : c.cached.Nodup
  closed : c.cache.closed = true → c.cache.entries = []

/-- The references are those of the owners outside and of the cache. -/
structure Sound (c : Compiler) (outside : List RoutineId) : Prop where
  counts : c.Counts (outside ++ c.cached)
  cache : c.CacheSound

theorem Sound.perm {outside' : List RoutineId} (h : c.Sound outside) (hp : outside.Perm outside') :
    c.Sound outside' := ⟨h.counts.perm (hp.append_right _), h.cache⟩

theorem mem_cached : id ∈ c.cached ↔ ∃ key, (key, .ok id) ∈ c.cache.entries := by
  simp only [cached, List.mem_filterMap]
  constructor
  · rintro ⟨⟨key, result⟩, hmem, heq⟩
    rcases result with e | j
    · simp [Except.toOption] at heq
    · obtain rfl : j = id := by simpa [Except.toOption] using heq
      exact ⟨key, hmem⟩
  · rintro ⟨key, hmem⟩
    exact ⟨_, hmem, rfl⟩

theorem CacheSound.of_eq {d : Compiler} (h : c.CacheSound)
    (hentries : d.cache.entries = c.cache.entries) (hclosed : d.cache.closed = c.cache.closed)
    (hprograms : d.programs = c.programs) : d.CacheSound where
  entry key id hmem := by
    rw [hprograms]
    exact h.entry key id (hentries ▸ hmem)
  nodup := by
    rw [cached, hentries]
    exact h.nodup
  closed hc := by
    rw [hentries]
    exact h.closed (hclosed ▸ hc)

theorem CacheSound.push {d : Compiler} {r : Routine} (h : c.CacheSound) (hcache : d.cache = c.cache)
    (hroutines : d.routines = c.routines.push r) : d.CacheSound where
  entry key id hmem := by
    obtain ⟨p, hp, hkey⟩ := h.entry key id (hcache ▸ hmem)
    refine ⟨p, ?_, hkey⟩
    rw [programs, hroutines, Array.map_push]
    exact getElem?_push_of_eq_some hp _
  nodup := by
    rw [cached, hcache]
    exact h.nodup
  closed := hcache ▸ h.closed

theorem Sound.of_same {d : Compiler} (h : c.Sound outside) (hroutines : d.routines = c.routines)
    (hcache : d.cache = c.cache) : d.Sound outside := by
  have hprograms : d.programs = c.programs := by rw [programs, hroutines, programs]
  refine ⟨?_, h.cache.of_eq (by rw [hcache]) (by rw [hcache]) hprograms⟩
  rw [cached, hcache]
  exact h.counts.of_routines_eq hroutines

/-- A client retains a routine through a reference that it has. -/
theorem Sound.retain (h : c.Sound outside) (hmem : id ∈ outside)
    (hfit : Fits (id :: outside ++ c.cached)) : (c.retain id).Sound (id :: outside) :=
  ⟨h.counts.retain (List.mem_append_left _ hmem) hfit rfl,
    h.cache.of_eq rfl rfl (programs_modify_retain _ _)⟩

/-- An owner outside the cache drops its reference. -/
theorem Sound.close (h : c.Sound (id :: outside)) (hfit : Fits (id :: outside ++ c.cached)) :
    (c.close id).1 = .ok () ∧ (c.close id).2.Sound outside := by
  obtain ⟨hok, hcounts⟩ := h.counts.close hfit
  have hcache := c.close_cache id
  refine ⟨hok, ?_, h.cache.of_eq (by rw [hcache]) (by rw [hcache]) (c.close_programs id)⟩
  rwa [cached, hcache]

theorem Sound.closeAll {ids : List RoutineId} (h : c.Sound (ids ++ outside))
    (hfit : Fits (ids ++ outside ++ c.cached)) :
    (c.closeAll ids).1 = [] ∧ (c.closeAll ids).2.Sound outside := by
  have hcounts := h.counts
  rw [List.append_assoc] at hcounts hfit
  obtain ⟨hok, hcounts⟩ := hcounts.closeAll hfit
  have hcache := c.closeAll_cache ids
  refine ⟨hok, ?_, h.cache.of_eq (by rw [hcache]) (by rw [hcache]) (c.closeAll_programs ids)⟩
  rwa [cached, hcache]

/-- Closing the cache drops its references and no other. -/
theorem Sound.closeCache (h : c.Sound outside) (hfit : Fits (outside ++ c.cached)) :
    c.closeCache.1 = [] ∧ c.closeCache.2.Sound outside ∧ c.closeCache.2.cache.closed = true := by
  unfold Compiler.closeCache
  split
  · rename_i hclosed
    exact ⟨rfl, h, hclosed⟩
  · obtain ⟨hok, hcounts⟩ := (h.counts.perm List.perm_append_comm).closeAll
      (hfit.perm List.perm_append_comm)
    refine ⟨hok, ⟨?_, ?_, ?_, ?_⟩, rfl⟩
    · show Counts _ (outside ++ [])
      rw [List.append_nil]
      exact hcounts.of_routines_eq rfl
    · exact fun _ _ hmem => absurd hmem (List.not_mem_nil)
    · exact List.nodup_nil
    · exact fun _ => rfl

/-- The client of the compiler gets the one reference to a new routine. -/
theorem Sound.compile (h : c.Sound outside) (o : CodeOptions) (t : Tape) (mode : Mode) :
    (c.compile o t mode).2.Sound ((c.compile o t mode).1.toOption.toList ++ outside) ∧
      ∀ id, (c.compile o t mode).1 = .ok id →
        ∃ p, (c.compile o t mode).2.programs[id]? = some p ∧ p.mode = mode := by
  rcases c.compile_cases o t mode with ⟨e, hresult, hroutines, hcache⟩ |
    ⟨p, hmode, -, hresult, hroutines, hcache⟩
  · rw [hresult]
    exact ⟨h.of_same hroutines hcache, fun id hid => by simp at hid⟩
  · rw [hresult]
    refine ⟨⟨?_, h.cache.push hcache hroutines⟩, fun id hid => ⟨p, ?_, hmode⟩⟩
    · rw [cached, hcache]
      exact h.counts.load hroutines
    · obtain rfl : c.routines.size = id := by simpa using hid
      exact programs_getElem?.2 ⟨_, by rw [hroutines, Array.getElem?_push_size], rfl⟩

/-! ## Getting a routine from the cache -/

/-- What a request to the cache can do: nothing if the cache is closed; hand out
what it has; keep a failure; or compile, keep the new routine and hand it
out. -/
inductive Gets (c : Compiler) (key : CacheKey) : Except SupplyError RoutineId → Compiler → Prop
  | closed (h : c.cache.closed = true) : Gets c key (.error .cacheClosed) c
  | hit {d : Compiler} {id : RoutineId} (hopen : c.cache.closed = false)
      (h : c.cache.entries.lookup key = some (.ok id))
      (hentries : d.cache.entries = c.cache.entries) (hclosed : d.cache.closed = false)
      (hroutines : d.routines = c.routines.modify id .retain) : Gets c key (.ok id) d
  | failed {d : Compiler} {e : SupplyError} (hopen : c.cache.closed = false)
      (hcached : d.cached = c.cached) (hclosed : d.cache.closed = false)
      (hentries : d.cache.entries = c.cache.entries ∨ c.cache.entries.lookup key = none ∧
        ∃ cause, d.cache.entries = (key, .error cause) :: c.cache.entries)
      (hroutines : d.routines = c.routines) : Gets c key (.error e) d
  | miss {d : Compiler} {p : Program} (hopen : c.cache.closed = false)
      (h : c.cache.entries.lookup key = none) (hmode : p.mode = key.mode)
      (hdigest : p.tape.digest = key.digest)
      (hentries : d.cache.entries = (key, .ok c.routines.size) :: c.cache.entries)
      (hclosed : d.cache.closed = false)
      (hroutines : d.routines =
        (c.routines.push (.load p)).modify c.routines.size .retain) :
      Gets c key (.ok c.routines.size) d

theorem get_gets (c : Compiler) (t : Tape) (mode : Mode) :
    c.Gets ⟨t.digest, mode⟩ (c.get t mode).1 (c.get t mode).2 := by
  unfold get
  dsimp only
  split
  · rename_i hclosed
    exact .closed hclosed
  · rename_i hclosed
    have hopen : c.cache.closed = false := by simpa using hclosed
    split
    · rename_i hlookup
      unfold fetch
      dsimp only
      generalize hd :
        ({ c with cache := { c.cache with misses := c.cache.misses + 1 } } : Compiler) = d
      have hdroutines : d.routines = c.routines := by rw [← hd]
      have hdentries : d.cache.entries = c.cache.entries := by rw [← hd]
      have hdclosed : d.cache.closed = false := by rw [← hd]; exact hopen
      rcases d.compile_cases c.cache.options t mode with ⟨e, hresult, hroutines, hcache⟩ |
        ⟨p, hmode, htape, hresult, hroutines, hcache⟩
      · rw [hresult]
        refine .failed hopen ?_ ?_ (.inr ⟨hlookup, e, ?_⟩) ?_
        · simp [cached, hcache, hdentries, Except.toOption]
        · simpa [hcache] using hdclosed
        · simp [hcache, hdentries]
        · simpa using hroutines.trans hdroutines
      · rw [hresult, hdroutines]
        refine .miss hopen hlookup hmode (by rw [htape]) ?_ ?_ ?_
        · simp [Compiler.retain, hcache, hdentries]
        · simpa [Compiler.retain, hcache] using hdclosed
        · simp [Compiler.retain, hroutines, hdroutines]
    · rename_i result hlookup
      split
      · exact .hit hopen hlookup rfl hopen rfl
      · exact .failed hopen rfl hopen (.inl rfl) rfl

variable {key : CacheKey} {result : Except SupplyError RoutineId} {d : Compiler}

theorem Sound.size_not_mem_cached (h : c.Sound outside) : c.routines.size ∉ c.cached := fun hmem =>
  Nat.lt_irrefl _ (h.counts.loaded _ (List.mem_append_right _ hmem))

theorem Gets.cached_eq (hget : c.Gets key result d) :
    d.cached = c.cached ∨ d.cached = c.routines.size :: c.cached := by
  cases hget with
  | closed => exact .inl rfl
  | hit _ _ hentries => exact .inl (by rw [cached, hentries, cached])
  | failed _ hcached => exact .inl hcached
  | miss _ _ _ _ hentries => exact .inr (by simp [cached, hentries, Except.toOption])

/-- Programs stay where they are, and a request adds at most one. -/
theorem Gets.programs_eq (hget : c.Gets key result d) {p : Program}
    (hp : c.programs[id]? = some p) : d.programs[id]? = some p := by
  have hsame : d.routines = c.routines → d.programs[id]? = some p := fun heq => by
    rwa [programs, heq]
  cases hget with
  | closed => exact hp
  | hit _ _ _ _ hroutines => rwa [programs, hroutines, programs_modify_retain]
  | failed _ _ _ _ hroutines => exact hsame hroutines
  | miss _ _ _ _ _ _ hroutines =>
    rw [programs, hroutines, programs_modify_retain, Array.map_push]
    exact getElem?_push_of_eq_some hp _

theorem Gets.found (hget : c.Gets key result d) (h : c.CacheSound) (hid : result = .ok id) :
    d.cache.entries.lookup key = some (.ok id) ∧
      ∃ p, d.programs[id]? = some p ∧ p.mode = key.mode ∧ p.tape.digest = key.digest := by
  have hget' := hget
  cases hget with
  | closed => simp at hid
  | hit _ hlookup hentries =>
    obtain ⟨⟩ := hid
    obtain ⟨p, hp, hkey⟩ := h.entry key id (mem_of_lookup hlookup)
    exact ⟨hentries ▸ hlookup, p, hget'.programs_eq hp, hkey⟩
  | failed => simp at hid
  | miss _ _ hmode hdigest hentries _ hroutines =>
    obtain ⟨⟩ := hid
    refine ⟨by rw [hentries, List.lookup_cons_self], _, ?_, hmode, hdigest⟩
    have hsize : c.routines.size = (c.routines.map Routine.program).size := by simp
    rw [programs, hroutines, programs_modify_retain, Array.map_push, hsize,
      Array.getElem?_push_size]
    rfl

theorem Gets.cacheSound (hget : c.Gets key result d) (h : c.Sound outside) : d.CacheSound := by
  have hfound : ∀ {k : CacheKey} {id : RoutineId}, (k, .ok id) ∈ d.cache.entries →
      (k, .ok id) ∈ c.cache.entries ∨ k = key ∧ result = .ok id := by
    intro k id hmem
    cases hget with
    | closed => exact .inl hmem
    | hit _ _ hentries => exact .inl (hentries ▸ hmem)
    | failed _ _ _ hentries =>
      rcases hentries with heq | ⟨-, cause, heq⟩
      · exact .inl (heq ▸ hmem)
      · rw [heq] at hmem
        exact .inl ((List.mem_cons.1 hmem).resolve_left (by simp))
    | miss _ _ _ _ hentries =>
      rw [hentries] at hmem
      rcases List.mem_cons.1 hmem with hhead | hmem
      · obtain ⟨rfl, rfl⟩ : k = key ∧ id = c.routines.size := by simpa using hhead
        exact .inr ⟨rfl, rfl⟩
      · exact .inl hmem
  refine ⟨fun k id hmem => ?_, ?_, fun hclosed => ?_⟩
  · rcases hfound hmem with hmem | ⟨rfl, hid⟩
    · obtain ⟨p, hp, hkey⟩ := h.cache.entry k id hmem
      exact ⟨p, hget.programs_eq hp, hkey⟩
    · exact (hget.found h.cache hid).2
  · rcases hget.cached_eq with heq | heq
    · exact heq ▸ h.cache.nodup
    · exact heq ▸ List.nodup_cons.2 ⟨h.size_not_mem_cached, h.cache.nodup⟩
  · cases hget with
    | closed hc => exact h.cache.closed hc
    | hit _ _ _ hopen => rw [hopen] at hclosed; cases hclosed
    | failed _ _ hopen => rw [hopen] at hclosed; cases hclosed
    | miss _ _ _ _ _ hopen => rw [hopen] at hclosed; cases hclosed

/-- What the cache hands out is added to the owners. -/
theorem Gets.counts (hget : c.Gets key result d) (h : c.Sound outside)
    (hfit : Fits (result.toOption.toList ++ outside ++ d.cached)) :
    d.Counts (result.toOption.toList ++ outside ++ d.cached) := by
  cases hget with
  | closed => exact h.counts
  | hit _ hlookup hentries _ hroutines =>
    have hcached : d.cached = c.cached := by rw [cached, hentries, cached]
    rw [hcached] at hfit ⊢
    have hmem := mem_cached.2 ⟨key, mem_of_lookup hlookup⟩
    exact h.counts.retain (List.mem_append_right _ hmem) hfit hroutines
  | failed _ hcached _ _ hroutines =>
    rw [hcached]
    exact h.counts.of_routines_eq hroutines
  | @miss _ p _ _ _ _ hentries _ hroutines =>
    -- The routine is loaded with a reference for the cache, and retained for the client.
    have hcached : d.cached = c.routines.size :: c.cached := by
      simp [cached, hentries, Except.toOption]
    rw [hcached] at hfit ⊢
    have hloaded : ({ c with routines := c.routines.push (.load p) } : Compiler).Counts
        (c.routines.size :: (outside ++ c.cached)) := h.counts.load rfl
    have hmiddle : (c.routines.size :: (outside ++ c.cached)).Perm
        (outside ++ c.routines.size :: c.cached) := List.perm_middle.symm
    exact (hloaded.perm hmiddle).retain (by simp) hfit hroutines

theorem Gets.lookup_eq (hget : c.Gets key result d) {k : CacheKey} {id : RoutineId}
    (h : c.cache.entries.lookup k = some (.ok id)) : d.cache.entries.lookup k = some (.ok id) := by
  have hcons : ∀ {r : Except CodeError RoutineId}, c.cache.entries.lookup key = none →
      d.cache.entries = (key, r) :: c.cache.entries → d.cache.entries.lookup k = some (.ok id) := by
    intro r hnone heq
    have hne : (k == key) = false := by
      rw [beq_eq_false_iff_ne]
      rintro rfl
      simp [h] at hnone
    rw [heq, List.lookup_cons, hne]
    exact h
  cases hget with
  | closed => exact h
  | hit _ _ hentries => exact hentries ▸ h
  | failed _ _ _ hentries =>
    rcases hentries with heq | ⟨hnone, cause, heq⟩
    · exact heq ▸ h
    · exact hcons hnone heq
  | miss _ hnone _ _ hentries => exact hcons hnone hentries

end Compiler

end ScalarField
