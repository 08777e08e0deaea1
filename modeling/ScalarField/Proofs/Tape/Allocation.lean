/-
Allocation keeps apart what is live at the same time
(`Assignment.allocate_separates`).

The scan holds, at each definition, the slots whose last use has not passed.
No two slots that are held share a location, and no location of one is free
(`Scan.Keeps`). Releasing a slot and giving a new slot a location keep this,
whichever slots are held; the lists of expiring slots release exactly the slots
whose last use has passed.
-/
import ScalarField.Proofs.Bitmap
import ScalarField.Proofs.Heap
import ScalarField.Proofs.Tape.Liveness
import ScalarField.Tape.Allocation

namespace ScalarField

namespace Assignment

namespace Scan

/-- The locations of the slots that are held are their own. -/
structure Keeps (regs : Nat) (s : Scan) (held : Nat → Prop) : Prop where
  regs_le : regs ≤ 64
  free_lt : ∀ n, s.free.has n = true → n < regs
  reg_lt : ∀ k n : Nat, s.locs[k]? = some (.reg n) → n < regs
  spill_lt : ∀ k n : Nat, s.locs[k]? = some (.spill n) → n < s.cells.used
  cell_lt : ∀ n ∈ s.cells.free.items.toList, n < s.cells.used
  nodup : s.cells.free.items.toList.Nodup
  apart : ∀ j k l, held j → held k → s.locs[j]? = some l → s.locs[k]? = some l → j = k
  reg_taken : ∀ k n : Nat, held k → s.locs[k]? = some (.reg n) → s.free.has n = false
  spill_taken : ∀ k n : Nat, held k → s.locs[k]? = some (.spill n) →
    n ∉ s.cells.free.items.toList

variable {regs : Nat} {s : Scan} {held : Nat → Prop}

theorem Keeps.release (h : s.Keeps regs held) {slot : Nat} (hslot : held slot) :
    (s.release slot).Keeps regs (fun k => held k ∧ k ≠ slot) ∧
      (s.release slot).locs = s.locs ∧ (s.release slot).expiring = s.expiring := by
  unfold Scan.release
  split
  · rename_i n hloc
    have hn : n < regs := h.reg_lt slot n hloc
    have hhas := WordSet.has_insert (s := s.free) (Nat.lt_of_lt_of_le hn h.regs_le)
    refine ⟨⟨h.regs_le, ?_, h.reg_lt, h.spill_lt, h.cell_lt, h.nodup, ?_, ?_, ?_⟩, rfl, rfl⟩
    · intro m hm
      rw [hhas, Bool.or_eq_true, decide_eq_true_eq] at hm
      rcases hm with hm | rfl
      · exact h.free_lt m hm
      · exact hn
    · exact fun j k l hj hk => h.apart j k l hj.1 hk.1
    · intro k m hk hm
      -- The register that becomes free is no other slot's.
      have hne : n ≠ m := fun heq => hk.2 (h.apart k slot _ hk.1 hslot hm (heq ▸ hloc))
      rw [hhas, h.reg_taken k m hk.1 hm, decide_eq_false hne]
      rfl
    · exact fun k m hk => h.spill_taken k m hk.1
  · rename_i n hloc
    have hperm := Heap.push_perm s.cells.free n
    have hmem : ∀ m, m ∈ (s.cells.free.push n).items.toList ↔ m = n ∨
        m ∈ s.cells.free.items.toList := fun m => by rw [hperm.mem_iff, List.mem_cons]
    refine ⟨⟨h.regs_le, h.free_lt, h.reg_lt, h.spill_lt, ?_, ?_, ?_, ?_, ?_⟩, rfl, rfl⟩
    · intro m hm
      rcases (hmem m).1 hm with rfl | hm
      · exact h.spill_lt slot m hloc
      · exact h.cell_lt m hm
    · exact hperm.nodup_iff.2 (List.nodup_cons.2 ⟨h.spill_taken slot n hslot hloc, h.nodup⟩)
    · exact fun j k l hj hk => h.apart j k l hj.1 hk.1
    · exact fun k m hk => h.reg_taken k m hk.1
    · intro k m hk hm hin
      rcases (hmem m).1 hin with rfl | hin
      · exact hk.2 (h.apart k slot _ hk.1 hslot hm hloc)
      · exact h.spill_taken k m hk.1 hm hin
  · refine ⟨⟨h.regs_le, h.free_lt, h.reg_lt, h.spill_lt, h.cell_lt, h.nodup, ?_, ?_, ?_⟩, rfl, rfl⟩
    · exact fun j k l hj hk => h.apart j k l hj.1 hk.1
    · exact fun k m hk => h.reg_taken k m hk.1
    · exact fun k m hk => h.spill_taken k m hk.1

theorem Keeps.releaseAll : ∀ {slots : List Nat} {s : Scan} {held : Nat → Prop},
    s.Keeps regs held → slots.Nodup → (∀ k ∈ slots, held k) →
      (slots.foldl Scan.release s).Keeps regs (fun k => held k ∧ k ∉ slots) ∧
        (slots.foldl Scan.release s).locs = s.locs ∧
        (slots.foldl Scan.release s).expiring = s.expiring
  | [], s, held, h, _, _ => by simpa using h
  | slot :: rest, s, held, h, hnd, hheld => by
    obtain ⟨hfirst, hlocs, hexp⟩ := h.release (hheld slot List.mem_cons_self)
    obtain ⟨hnot, hnd'⟩ := List.nodup_cons.1 hnd
    obtain ⟨hrest, hlocs', hexp'⟩ := hfirst.releaseAll hnd' fun k hk =>
      ⟨hheld k (List.mem_cons_of_mem slot hk), fun heq => hnot (heq ▸ hk)⟩
    refine ⟨?_, hlocs'.trans hlocs, hexp'.trans hexp⟩
    simpa only [List.foldl_cons, List.mem_cons, not_or, and_assoc] using hrest

theorem getElem?_push_cases {locs : Array Loc} {l x : Loc} {k : Nat}
    (h : (locs.push l)[k]? = some x) : k ≠ locs.size ∧ locs[k]? = some x ∨
      k = locs.size ∧ x = l := by
  rw [Array.getElem?_push] at h
  split at h
  · exact .inr ⟨‹_›, (Option.some.inj h).symm⟩
  · exact .inl ⟨‹_›, h⟩

/-- A location that no slot has that is held may be given to the next one. -/
theorem Keeps.apart_push (h : s.Keeps regs held) {l : Loc}
    (hfresh : ∀ k, held k → s.locs[k]? ≠ some l) :
    ∀ j k x, held j ∨ j = s.locs.size → held k ∨ k = s.locs.size →
      (s.locs.push l)[j]? = some x → (s.locs.push l)[k]? = some x → j = k := by
  intro j k x hj hk hjx hkx
  rcases getElem?_push_cases hjx with ⟨hj', hjl⟩ | ⟨rfl, rfl⟩
  · have hheld := hj.resolve_right hj'
    rcases getElem?_push_cases hkx with ⟨hk', hkl⟩ | ⟨rfl, rfl⟩
    · exact h.apart j k x hheld (hk.resolve_right hk') hjl hkl
    · exact absurd hjl (hfresh j hheld)
  · rcases getElem?_push_cases hkx with ⟨hk', hkl⟩ | ⟨rfl, -⟩
    · exact absurd hkl (hfresh k (hk.resolve_right hk'))
    · rfl

theorem Keeps.assign_reg (h : s.Keeps regs held) {n : Nat}
    (hn : s.free.has n = true) :
    Keeps regs { s with free := s.free.erase n, locs := s.locs.push (.reg n) }
      (fun k => held k ∨ k = s.locs.size) := by
  have hhas := WordSet.has_erase (s := s.free) (WordSet.has_lt hn)
  have hfresh : ∀ k, held k → s.locs[k]? ≠ some (.reg n) := fun k hk hloc => by
    have := h.reg_taken k n hk hloc
    simp [hn] at this
  refine ⟨h.regs_le, ?_, ?_, ?_, h.cell_lt, h.nodup, h.apart_push hfresh, ?_, ?_⟩
  · intro m hm
    rw [hhas, Bool.and_eq_true] at hm
    exact h.free_lt m hm.1
  · intro k m hm
    rcases getElem?_push_cases hm with ⟨-, hm⟩ | ⟨-, heq⟩
    · exact h.reg_lt k m hm
    · obtain rfl : m = n := by simpa using heq
      exact h.free_lt m hn
  · intro k m hm
    rcases getElem?_push_cases hm with ⟨-, hm⟩ | ⟨-, heq⟩
    · exact h.spill_lt k m hm
    · simp at heq
  · intro k m hk hm
    rw [hhas]
    rcases getElem?_push_cases hm with ⟨hk', hm⟩ | ⟨-, heq⟩
    · rw [h.reg_taken k m (hk.resolve_right hk') hm]
      rfl
    · obtain rfl : m = n := by simpa using heq
      simp
  · intro k m hk hm
    rcases getElem?_push_cases hm with ⟨hk', hm⟩ | ⟨-, heq⟩
    · exact h.spill_taken k m (hk.resolve_right hk') hm
    · simp at heq

/-- The next slot is given a cell: one that was free, or a new one. -/
theorem Keeps.assign_spill (h : s.Keeps regs held) {n : Nat}
    {cells : Cells} (htake : s.cells.take = (n, cells)) :
    Keeps regs { s with cells, locs := s.locs.push (.spill n) }
      (fun k => held k ∨ k = s.locs.size) := by
  -- The cell is one of the area, no longer free, and no slot's that is held.
  obtain ⟨hused, hn, hsub, hnd, hnot, hfresh⟩ : s.cells.used ≤ cells.used ∧ n < cells.used ∧
      (∀ m ∈ cells.free.items.toList, m ∈ s.cells.free.items.toList) ∧
      cells.free.items.toList.Nodup ∧ n ∉ cells.free.items.toList ∧
      ∀ k, held k → s.locs[k]? ≠ some (.spill n) := by
    unfold Cells.take at htake
    split at htake
    · rename_i m free hpop
      simp only [Prod.mk.injEq] at htake
      obtain ⟨rfl, rfl⟩ := htake
      have hperm := Heap.pop?_perm hpop
      obtain ⟨hnot, hnd⟩ := List.nodup_cons.1 (hperm.nodup_iff.1 h.nodup)
      have hmem := hperm.mem_iff.2 List.mem_cons_self
      exact ⟨Nat.le_refl _, h.cell_lt m hmem,
        fun k hk => hperm.mem_iff.2 (List.mem_cons_of_mem m hk), hnd, hnot,
        fun k hk hloc => h.spill_taken k m hk hloc hmem⟩
    · rename_i hpop
      simp only [Prod.mk.injEq] at htake
      obtain ⟨rfl, rfl⟩ := htake
      have hempty := Heap.pop?_eq_none hpop
      refine ⟨Nat.le_succ _, Nat.lt_succ_self _, fun k hk => hk, h.nodup, by simp [hempty], ?_⟩
      exact fun k _ hloc => Nat.lt_irrefl _ (h.spill_lt k _ hloc)
  refine ⟨h.regs_le, h.free_lt, ?_, ?_, ?_, hnd, h.apart_push hfresh, ?_, ?_⟩
  · intro k m hm
    rcases getElem?_push_cases hm with ⟨-, hm⟩ | ⟨-, heq⟩
    · exact h.reg_lt k m hm
    · simp at heq
  · intro k m hm
    rcases getElem?_push_cases hm with ⟨-, hm⟩ | ⟨-, heq⟩
    · exact Nat.lt_of_lt_of_le (h.spill_lt k m hm) hused
    · obtain rfl : m = n := by simpa using heq
      exact hn
  · exact fun m hm => Nat.lt_of_lt_of_le (h.cell_lt m (hsub m hm)) hused
  · intro k m hk hm
    rcases getElem?_push_cases hm with ⟨hk', hm⟩ | ⟨-, heq⟩
    · exact h.reg_taken k m (hk.resolve_right hk') hm
    · simp at heq
  · intro k m hk hm hin
    rcases getElem?_push_cases hm with ⟨hk', hm⟩ | ⟨-, heq⟩
    · exact h.spill_taken k m (hk.resolve_right hk') hm (hsub m hin)
    · obtain rfl : m = n := by simpa using heq
      exact hnot hin

/-- The next slot is given a location that no slot has that is held. -/
theorem Keeps.assign (h : s.Keeps regs held) :
    s.assign.Keeps regs (fun k => held k ∨ k = s.locs.size) ∧
      (∃ l, s.assign.locs = s.locs.push l) ∧ s.assign.expiring = s.expiring := by
  unfold Scan.assign
  split
  · rename_i n hn
    exact ⟨h.assign_reg (WordSet.lowest?_eq_some hn).1, ⟨_, rfl⟩, rfl⟩
  · exact ⟨h.assign_spill rfl, ⟨_, rfl⟩, rfl⟩

theorem Keeps.mono {held' : Nat → Prop} (h : s.Keeps regs held) (hsub : ∀ k, held' k → held k) :
    s.Keeps regs held' :=
  { h with
    apart := fun j k l hj hk => h.apart j k l (hsub j hj) (hsub k hk)
    reg_taken := fun k n hk => h.reg_taken k n (hsub k hk)
    spill_taken := fun k n hk => h.spill_taken k n (hsub k hk) }

/-- The scan before the definition of slot `pos`: the slots whose last use is
not before the position of the latest definition are held, and are listed by
their last use. -/
structure Before (regs size : Nat) (last : Nat → Nat) (s : Scan) (pos : Nat) : Prop where
  locs_size : s.locs.size = pos
  keeps : s.Keeps regs (fun k => k < pos ∧ pos ≤ last k + 1)
  expiring : ∀ p ≤ size, ∃ slots, s.expiring[p]? = some slots ∧ slots.Nodup ∧
    ∀ k, k ∈ slots ↔ k < pos ∧ last k = p
  apart : ∀ j k, j < k → k < pos → k ≤ last j → s.locs[j]? ≠ s.locs[k]?

variable {size pos : Nat} {last : Nat → Nat}

/-- What has had its last use is released before a definition. -/
theorem Before.expire (h : s.Before regs size last pos) (hpos : pos ≤ size) :
    ∃ s', (if pos = 0 then s else s.expire (pos - 1)) = s' ∧
      s'.Keeps regs (fun k => k < pos ∧ pos ≤ last k) ∧ s'.locs = s.locs ∧
      s'.expiring = s.expiring := by
  refine ⟨_, rfl, ?_⟩
  split
  · exact ⟨h.keeps.mono fun k hk => ⟨hk.1, by omega⟩, rfl, rfl⟩
  · obtain ⟨slots, hslots, hnd, hmem⟩ := h.expiring (pos - 1) (by omega)
    obtain ⟨hkeeps, hlocs, hexp⟩ := h.keeps.releaseAll hnd fun k hk => by
      have := (hmem k).1 hk
      omega
    simp only [Scan.expire, hslots, Option.getD_some]
    refine ⟨hkeeps.mono fun k hk => ⟨⟨hk.1, by omega⟩, fun hin => ?_⟩, hlocs, hexp⟩
    have := (hmem k).1 hin
    omega

theorem Before.define (h : s.Before regs size last pos) (hle : pos ≤ last pos)
    (hsize : last pos ≤ size) : (s.define pos (last pos)).Before regs size last (pos + 1) := by
  obtain ⟨s₁, hs₁, hkeeps, hlocs, hexp⟩ := h.expire (Nat.le_trans hle hsize)
  obtain ⟨hnew, ⟨l, hl⟩, hexp'⟩ := hkeeps.assign
  rw [hlocs, h.locs_size] at hnew
  rw [hlocs] at hl
  have hsame : ∀ k < pos, s₁.assign.locs[k]? = s.locs[k]? := fun k hk => by
    rw [hl, Array.getElem?_push_lt (by rw [h.locs_size]; exact hk),
      Array.getElem?_eq_getElem (by rw [h.locs_size]; exact hk)]
  have hlast : s₁.assign.locs[pos]? = some l := by
    rw [hl, ← h.locs_size]
    exact Array.getElem?_push_size
  simp only [Scan.define, hs₁]
  refine ⟨by simp [hl, h.locs_size], ?_, ?_, ?_⟩
  · exact Keeps.mono { hnew with } fun k hk => by omega
  · intro p hp
    obtain ⟨slots, hslots, hnd, hmem⟩ := h.expiring p hp
    simp only
    rw [hexp', hexp, Array.getElem?_modify, hslots]
    by_cases heq : last pos = p
    · refine ⟨slots ++ [pos], by simp [heq], ?_, fun k => ?_⟩
      · exact List.nodup_append.2 ⟨hnd, by simp, fun k hk j hj => by
          have := (hmem k).1 hk
          obtain rfl : j = pos := by simpa using hj
          omega⟩
      · rw [List.mem_append, hmem, List.mem_singleton]
        constructor
        · rintro (⟨hk, hp'⟩ | rfl) <;> omega
        · rintro ⟨hk, hp'⟩
          rcases Nat.lt_succ_iff_lt_or_eq.1 hk with hlt | rfl
          · exact .inl ⟨hlt, hp'⟩
          · exact .inr rfl
    · refine ⟨slots, by simp [heq], hnd, fun k => ?_⟩
      rw [hmem]
      constructor
      · rintro ⟨hk, hp'⟩
        exact ⟨by omega, hp'⟩
      · rintro ⟨hk, hp'⟩
        rcases Nat.lt_succ_iff_lt_or_eq.1 hk with hlt | rfl
        · exact ⟨hlt, hp'⟩
        · exact absurd hp' heq
  · intro j k hjk hk hlive
    rcases Nat.lt_succ_iff_lt_or_eq.1 hk with hlt | rfl
    · simp only
      rw [hsame j (by omega), hsame k hlt]
      exact h.apart j k hjk hlt hlive
    · intro heq
      simp only [hlast] at heq
      exact Nat.ne_of_lt hjk
        (hnew.apart j k l (.inl ⟨hjk, hlive⟩) (.inr rfl) heq hlast)

/-- What every definition keeps holds once the remaining ones are handled. -/
theorem run_keeps {P : Scan → Nat → Prop}
    (hstep : ∀ s pos, P s pos → pos ≤ last pos → last pos ≤ size →
      P (s.define pos (last pos)) (pos + 1)) :
    ∀ (rest : List LiveRange) {s : Scan} {pos : Nat}, P s pos →
      (∀ k r, rest[k]? = some r → r.last.toNat = last (pos + k) ∧ pos + k ≤ last (pos + k) ∧
        last (pos + k) ≤ size) →
      P (s.run pos rest) (pos + rest.length)
  | [], s, pos, h, _ => h
  | r :: rest, s, pos, h, hlast => by
    obtain ⟨heq, hle, hsize⟩ := hlast 0 r rfl
    have hnext := hstep s pos h hle hsize
    rw [Scan.run, heq, List.length_cons, show pos + (rest.length + 1) = pos + 1 + rest.length by omega]
    refine run_keeps hstep rest hnext fun k r' hr' => ?_
    have := hlast (k + 1) r' (by simpa using hr')
    rwa [show pos + (k + 1) = pos + 1 + k by omega] at this

end Scan

/-- The position of the last use of a slot. -/
def lastOf (rs : Array LiveRange) (k : Nat) : Nat := ((rs[k]?).map (·.last.toNat)).getD 0

theorem lastOf_eq {t : Tape} {rs : Array LiveRange} (h : t.LastUses rs) {k : Nat} {r : LiveRange}
    (hr : rs[k]? = some r) : r.first = k ∧ r.last = (lastOf rs k : Int) ∧ k ≤ lastOf rs k ∧
      lastOf rs k ≤ t.size := by
  obtain ⟨r', hr', hfirst, hle, hmax, -⟩ :=
    h.range k (h.size ▸ (Array.getElem?_eq_some_iff.1 hr).1)
  obtain rfl : r = r' := by simpa [hr] using hr'
  have : lastOf rs k = r.last.toNat := by simp [lastOf, hr]
  omega

theorem toNat_le_of_le_maxRegs {regs : Int} (h : regs ≤ maxRegs) : regs.toNat ≤ 64 := by
  rw [maxRegs] at h
  omega

/-- The scan before the first definition. -/
def Scan.start (regs size : Nat) : Scan where
  free := .below regs
  cells := .start
  locs := #[]
  expiring := Array.replicate (size + 1) []

/-- The scan once every slot of a tape has a location. -/
def Scan.done (t : Tape) (regs : Int) (rs : Array LiveRange) : Scan :=
  (Scan.start regs.toNat t.size).run 0 rs.toList

theorem allocate_eq {t : Tape} {regs : Int} {rs : Array LiveRange} (hregs : 1 ≤ regs)
    (hmax : regs ≤ maxRegs) (hrs : t.liveRanges = .ok rs) :
    allocate t regs = .ok ⟨regs, (Scan.done t regs rs).locs, (Scan.done t regs rs).cells.used⟩ := by
  have hok : ¬(regs < 1 ∨ maxRegs < regs) := by omega
  simp only [allocate, if_neg hok, hrs]
  rfl

/-- What holds before the first definition and is kept by every definition
holds in the end. -/
theorem Scan.done_keeps {t : Tape} {regs : Int} {rs : Array LiveRange} {P : Scan → Nat → Prop}
    (h : t.LastUses rs) (hstart : P (.start regs.toNat t.size) 0)
    (hstep : ∀ s pos, P s pos → pos ≤ lastOf rs pos → lastOf rs pos ≤ t.size →
      P (s.define pos (lastOf rs pos)) (pos + 1)) : P (.done t regs rs) t.size := by
  have hrun := run_keeps hstep rs.toList hstart fun k r hr => by
    have := lastOf_eq h (k := k) (by simpa using hr)
    simp only [Nat.zero_add]
    omega
  rwa [Nat.zero_add, Array.length_toList, h.size] at hrun

theorem Scan.start_before {regs : Nat} (hmax : regs ≤ 64) (size : Nat) (last : Nat → Nat) :
    (Scan.start regs size).Before regs size last 0 :=
  ⟨rfl, ⟨hmax, fun n hn => by simpa [start, WordSet.has_below hmax] using hn, by simp [start],
    by simp [start], by simp [start, Cells.start, Heap.empty],
    by simp [start, Cells.start, Heap.empty], by simp, by simp, by simp⟩,
    fun p hp => ⟨[], by simp [start, Nat.lt_succ_of_le hp]⟩, by simp⟩

/-- Slots of a tape that are live at the same time have different locations,
all of which exist. -/
structure Separates (a : Assignment) (t : Tape) (rs : Array LiveRange) : Prop where
  size : a.locs.size = t.size
  reg_lt : ∀ k n : Nat, a.locs[k]? = some (.reg n) → n < a.regs
  spill_lt : ∀ k n : Nat, a.locs[k]? = some (.spill n) → n < a.spills
  apart : ∀ (j k : Nat) (r : LiveRange), j < k → k < t.size → rs[j]? = some r → k ≤ r.last →
    a.locs[j]? ≠ a.locs[k]?

/-- The scan of a tape keeps apart what is live at the same time. -/
theorem Scan.done_separates {t : Tape} {regs : Int} {rs : Array LiveRange} (hregs : 1 ≤ regs)
    (hmax : regs ≤ maxRegs) (h : t.LastUses rs) :
    Separates ⟨regs, (done t regs rs).locs, (done t regs rs).cells.used⟩ t rs := by
  have hrun : (done t regs rs).Before regs.toNat t.size (lastOf rs) t.size :=
    done_keeps h (start_before (toNat_le_of_le_maxRegs hmax) _ _) fun s pos hbefore => hbefore.define
  refine ⟨hrun.locs_size, ?_, ?_, ?_⟩
  · intro k n hloc
    have := hrun.keeps.reg_lt k n hloc
    simp only
    omega
  · intro k n hloc
    have := hrun.keeps.spill_lt k n hloc
    simp only
    omega
  · intro j k r hjk hk hr hlive
    have := lastOf_eq h hr
    exact hrun.apart j k hjk hk (by omega)

/-- An allocation of a valid tape is found, and keeps apart what is live at
the same time. -/
theorem allocate_separates {t : Tape} (hwf : t.WellFormed) {regs : Int} (hregs : 1 ≤ regs)
    (hmax : regs ≤ maxRegs) :
    ∃ a rs, allocate t regs = .ok a ∧ a.regs = regs ∧ t.LastUses rs ∧ a.Separates t rs := by
  obtain ⟨rs, hrs, hlast⟩ := hwf.liveRanges_eq
  exact ⟨_, rs, allocate_eq hregs hmax hrs, rfl, hlast, Scan.done_separates hregs hmax hlast⟩

end Assignment

end ScalarField
