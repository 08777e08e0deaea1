/-
Allocation wastes nothing: what is not free is in use
(`Assignment.Scan.Fills`). So a definition that is spilled finds the value of a
live slot in every register, and one that is not takes the lowest register
without one (`Assignment.allocate_apart`).

With the other direction, that the locations of live slots are their own
(`Assignment.Scan.Keeps`), the live slots and the locations in use correspond
one to one. Counting them gives the number of spill cells: a new cell is taken
where all others are in use, so the cells are as many as the live slots at some
position exceed the registers (`Assignment.Scan.Exact`).
-/
import Mathlib.Data.Finset.Card
import Mathlib.Data.Finset.Lattice.Fold
import Mathlib.Order.Lattice.Nat
import ScalarField.Proofs.Tape.Registers

namespace ScalarField

namespace Assignment

namespace Scan

/-! ## What is in use -/

/-- Every register and every cell that is not free is the location of a slot
that is held. -/
structure Fills (regs : Nat) (s : Scan) (held : Nat → Prop) : Prop where
  regs_le : regs ≤ 64
  reg : ∀ n < regs, s.free.has n = false → ∃ k, held k ∧ s.locs[k]? = some (.reg n)
  cell : ∀ n < s.cells.used, n ∉ s.cells.free.items.toList →
    ∃ k, held k ∧ s.locs[k]? = some (.spill n)

variable {regs size pos : Nat} {last : Nat → Nat} {s : Scan} {held : Nat → Prop}

theorem Fills.mono {held' : Nat → Prop} (h : s.Fills regs held) (hsub : ∀ k, held k → held' k) :
    s.Fills regs held' := by
  refine ⟨h.regs_le, ?_, ?_⟩
  · intro n hn hnot
    obtain ⟨k, hk, hloc⟩ := h.reg n hn hnot
    exact ⟨k, hsub k hk, hloc⟩
  · intro n hn hnot
    obtain ⟨k, hk, hloc⟩ := h.cell n hn hnot
    exact ⟨k, hsub k hk, hloc⟩

/-- Releasing a slot frees its location and no other. -/
theorem Fills.release (h : s.Fills regs held) (slot : Nat) :
    (s.release slot).Fills regs (fun k => held k ∧ k ≠ slot) := by
  have hreg : ∀ n < regs, s.free.has n = false → s.locs[slot]? ≠ some (.reg n) →
      ∃ k, (held k ∧ k ≠ slot) ∧ s.locs[k]? = some (.reg n) := by
    intro n hn hnot hne
    obtain ⟨k, hk, hloc⟩ := h.reg n hn hnot
    exact ⟨k, ⟨hk, fun heq => hne (heq ▸ hloc)⟩, hloc⟩
  have hcell : ∀ n < s.cells.used, n ∉ s.cells.free.items.toList →
      s.locs[slot]? ≠ some (.spill n) →
      ∃ k, (held k ∧ k ≠ slot) ∧ s.locs[k]? = some (.spill n) := by
    intro n hn hnot hne
    obtain ⟨k, hk, hloc⟩ := h.cell n hn hnot
    exact ⟨k, ⟨hk, fun heq => hne (heq ▸ hloc)⟩, hloc⟩
  unfold Scan.release
  split
  · rename_i n hloc
    refine ⟨h.regs_le, fun m hm hnot => ?_, fun m hm hnot => hcell m hm hnot (by simp [hloc])⟩
    obtain ⟨hold, hne⟩ := WordSet.of_has_insert (Nat.lt_of_lt_of_le hm h.regs_le) hnot
    exact hreg m hm hold (by simpa [hloc] using hne)
  · rename_i n hloc
    refine ⟨h.regs_le, fun m hm hnot => hreg m hm hnot (by simp [hloc]), fun m hm hnot => ?_⟩
    have hboth : m ≠ n ∧ m ∉ s.cells.free.items.toList := by
      simpa only [Cells.release, (Heap.push_perm s.cells.free n).mem_iff, List.mem_cons,
        not_or] using hnot
    exact hcell m hm hboth.2 (by simpa [hloc] using Ne.symm hboth.1)
  · rename_i hloc
    exact ⟨h.regs_le, fun m hm hnot => hreg m hm hnot (by simp [hloc]),
      fun m hm hnot => hcell m hm hnot (by simp [hloc])⟩

theorem Fills.releaseAll : ∀ {slots : List Nat} {s : Scan} {held : Nat → Prop}, s.Fills regs held →
    (slots.foldl Scan.release s).Fills regs (fun k => held k ∧ k ∉ slots)
  | [], s, held, h => h.mono fun k hk => ⟨hk, List.not_mem_nil⟩
  | slot :: rest, s, held, h => by
    have hrest : (rest.foldl Scan.release (s.release slot)).Fills regs _ := (h.release slot).releaseAll
    simpa only [List.foldl_cons, List.mem_cons, not_or, and_assoc] using hrest

theorem getElem?_push_of_eq {locs : Array Loc} {k : Nat} {l l' : Loc} (h : locs[k]? = some l) :
    (locs.push l')[k]? = some l := by
  obtain ⟨hk, rfl⟩ := Array.getElem?_eq_some_iff.1 h
  exact Array.getElem?_push_lt hk

/-- Where a new slot is put: the lowest register that is free, and otherwise a
cell, a new one only if none is free. -/
theorem assign_cases (s : Scan) :
    (∃ n, s.free.has n = true ∧ (∀ m < n, s.free.has m = false) ∧
      s.assign = { s with free := s.free.erase n, locs := s.locs.push (.reg n) }) ∨
    ((∀ n, s.free.has n = false) ∧
      ((∃ n free, s.cells.free.pop? = some (n, free) ∧
          s.assign = { s with cells := { s.cells with free }, locs := s.locs.push (.spill n) }) ∨
        (s.cells.free.items = #[] ∧
          s.assign = { s with
            cells := { s.cells with used := s.cells.used + 1 }
            locs := s.locs.push (.spill s.cells.used) }))) := by
  cases hlow : s.free.lowest? with
  | none =>
    refine .inr ⟨WordSet.lowest?_eq_none hlow, ?_⟩
    rcases hpop : s.cells.free.pop? with _ | ⟨n, free⟩
    · exact .inr ⟨Heap.pop?_eq_none hpop, by simp only [assign, hlow, Cells.take, hpop]⟩
    · exact .inl ⟨n, free, rfl, by simp only [assign, hlow, Cells.take, hpop]⟩
  | some n =>
    obtain ⟨hn, hbelow⟩ := WordSet.lowest?_eq_some hlow
    exact .inl ⟨n, hn, hbelow, by simp only [assign, hlow]⟩

theorem Fills.assign (h : s.Fills regs held) :
    s.assign.Fills regs (fun k => held k ∨ k = s.locs.size) := by
  have hreg : ∀ l : Loc, ∀ n < regs, s.free.has n = false →
      ∃ k, (held k ∨ k = s.locs.size) ∧ (s.locs.push l)[k]? = some (.reg n) := by
    intro l n hn hnot
    obtain ⟨k, hk, hloc⟩ := h.reg n hn hnot
    exact ⟨k, .inl hk, getElem?_push_of_eq hloc⟩
  have hcell : ∀ (l : Loc), ∀ n < s.cells.used, n ∉ s.cells.free.items.toList →
      ∃ k, (held k ∨ k = s.locs.size) ∧ (s.locs.push l)[k]? = some (.spill n) := by
    intro l n hn hnot
    obtain ⟨k, hk, hloc⟩ := h.cell n hn hnot
    exact ⟨k, .inl hk, getElem?_push_of_eq hloc⟩
  have hnew : ∀ l : Loc, ∃ k, (held k ∨ k = s.locs.size) ∧ (s.locs.push l)[k]? = some l :=
    fun l => ⟨s.locs.size, .inr rfl, Array.getElem?_push_size⟩
  rcases s.assign_cases with ⟨n, hn, -, heq⟩ | ⟨-, ⟨n, free, hpop, heq⟩ | ⟨-, heq⟩⟩
  · rw [heq]
    refine ⟨h.regs_le, fun m hm hnot => ?_, fun m hm hnot => hcell _ m hm hnot⟩
    by_cases hnm : n = m
    · subst hnm
      exact hnew _
    · rw [WordSet.has_erase (WordSet.has_lt hn), decide_eq_false hnm, Bool.not_false,
        Bool.and_true] at hnot
      exact hreg _ m hm hnot
  · rw [heq]
    refine ⟨h.regs_le, fun m hm hnot => hreg _ m hm hnot, fun m hm hnot => ?_⟩
    by_cases hnm : m = n
    · subst hnm
      exact hnew _
    · refine hcell _ m hm fun hmem => hnot ?_
      exact (List.mem_cons.1 ((Heap.pop?_perm hpop).mem_iff.1 hmem)).resolve_left hnm
  · rw [heq]
    refine ⟨h.regs_le, fun m hm hnot => hreg _ m hm hnot, fun m hm hnot => ?_⟩
    rcases Nat.lt_succ_iff_lt_or_eq.1 hm with hlt | rfl
    · exact hcell _ m hlt hnot
    · exact hnew _

/-- What had its last use is freed before a definition. -/
theorem Fills.expire (hf : s.Fills regs (fun k => k < pos ∧ pos ≤ last k + 1))
    (h : s.Before regs size last pos) (hpos : pos ≤ size) :
    (if pos = 0 then s else s.expire (pos - 1)).Fills regs (fun k => k < pos ∧ pos ≤ last k) := by
  split
  · exact hf.mono fun k hk => by omega
  · obtain ⟨slots, hslots, -, hmem⟩ := h.expiring (pos - 1) (by omega)
    simp only [Scan.expire, hslots, Option.getD_some]
    refine hf.releaseAll.mono fun k hk => ?_
    have := mt (hmem k).2 hk.2
    omega

/-! ## Counting -/

end Scan

end Assignment

namespace Loc

/-- Locations in a row: the registers, and the cells after them. -/
def rank (regs : Nat) : Loc → Nat
  | .reg n => n
  | .spill n => regs + n

/-- The number of registers that are passed over for a location: those below
it, or all for a cell. -/
def passed (regs : Nat) : Loc → Nat
  | .reg n => n
  | .spill _ => regs

end Loc

namespace Assignment

namespace Scan

variable {regs size pos : Nat} {last : Nat → Nat} {s : Scan} {held : Nat → Prop} {live : Finset Nat}

/-- The place of the location of a slot in that row. -/
def rankOf (s : Scan) (regs k : Nat) : Nat := ((s.locs[k]?).map (Loc.rank regs)).getD 0

theorem rankOf_eq {k : Nat} {l : Loc} (h : s.locs[k]? = some l) : s.rankOf regs k = l.rank regs := by
  simp only [rankOf, h, Option.map_some, Option.getD_some]

/-- Slots that are held are no more than there are locations. -/
theorem Keeps.card_le (h : s.Keeps regs held)
    (hlive : ∀ k ∈ live, held k ∧ ∃ l, s.locs[k]? = some l) :
    live.card ≤ regs + s.cells.used := by
  have hrange : ∀ k ∈ live, s.rankOf regs k ∈ Finset.range (regs + s.cells.used) := by
    intro k hk
    obtain ⟨-, l, hl⟩ := hlive k hk
    rw [rankOf_eq hl, Finset.mem_range]
    cases l with
    | reg n => exact Nat.lt_add_right _ (h.reg_lt k n hl)
    | spill n => exact Nat.add_lt_add_left (h.spill_lt k n hl) regs
  have hinj : Set.InjOn (s.rankOf regs) live := by
    intro j hj k hk heq
    obtain ⟨hj, l, hl⟩ := hlive j hj
    obtain ⟨hk, l', hl'⟩ := hlive k hk
    rw [rankOf_eq hl, rankOf_eq hl'] at heq
    -- A register comes before every cell, so that equal places are equal locations.
    obtain rfl : l = l' := by
      cases l with
      | reg n =>
        have := h.reg_lt j n hl
        cases l' with
        | reg m => exact congrArg Loc.reg heq
        | spill m =>
          simp only [Loc.rank] at heq
          omega
      | spill n =>
        cases l' with
        | reg m =>
          have := h.reg_lt k m hl'
          simp only [Loc.rank] at heq
          omega
        | spill m => exact congrArg Loc.spill (Nat.add_left_cancel heq)
    exact h.apart j k l hj hk hl hl'
  simpa using Finset.card_le_card_of_injOn _ hrange hinj

/-- Where nothing is free, the slots that are held are no fewer than there are
locations. -/
theorem Fills.le_card (h : s.Fills regs held) (hreg : ∀ n < regs, s.free.has n = false)
    (hcell : s.cells.free.items = #[]) (hlive : ∀ k, held k → k ∈ live) :
    regs + s.cells.used ≤ live.card := by
  have hsurj : Set.SurjOn (s.rankOf regs) live (Finset.range (regs + s.cells.used)) := by
    intro i hi
    rw [Finset.mem_coe, Finset.mem_range] at hi
    by_cases hlt : i < regs
    · obtain ⟨k, hk, hloc⟩ := h.reg i hlt (hreg i hlt)
      exact ⟨k, hlive k hk, rankOf_eq hloc⟩
    · obtain ⟨k, hk, hloc⟩ := h.cell (i - regs) (by omega) (by simp [hcell])
      refine ⟨k, hlive k hk, (rankOf_eq hloc).trans ?_⟩
      simp only [Loc.rank]
      omega
  simpa using Finset.card_le_card_of_surjOn _ hsurj

/-! ## The scan -/

/-- The slots that are live at `pos`: they have been defined by then, and their
last use has not passed. -/
def liveSlots (last : Nat → Nat) (pos : Nat) : Finset Nat :=
  {k ∈ Finset.range (pos + 1) | pos ≤ last k}

/-- The scan before the definition of slot `pos` has put every slot as low as
it could, and has taken no more cells than the positions so far needed. -/
structure Exact (regs size : Nat) (last : Nat → Nat) (s : Scan) (pos : Nat) : Prop where
  before : s.Before regs size last pos
  fills : s.Fills regs (fun k => k < pos ∧ pos ≤ last k + 1)
  passed : ∀ k l, s.locs[k]? = some l → ∀ m < l.passed regs,
    ∃ j, (j < k ∧ k ≤ last j) ∧ s.locs[j]? = some (.reg m)
  used : s.cells.used = (Finset.range pos).sup fun q => (liveSlots last q).card - regs

theorem expire_used (s : Scan) (pos : Nat) :
    (if pos = 0 then s else s.expire (pos - 1)).cells.used = s.cells.used := by
  split
  · rfl
  · exact releaseAll_used _ _

/-- The registers passed over for a new slot are in use, and a new cell is
taken only if every location is. -/
theorem Fills.assign_full (h : s.Fills regs held) (hfree : ∀ n, s.free.has n = true → n < regs) :
    ∃ l, s.assign.locs = s.locs.push l ∧
      (∀ m < l.passed regs, ∃ j, held j ∧ s.locs[j]? = some (.reg m)) ∧
      (s.assign.cells.used = s.cells.used ∨ s.assign.cells.used = s.cells.used + 1 ∧
        (∀ n < regs, s.assign.free.has n = false) ∧ s.assign.cells.free.items = #[]) := by
  rcases s.assign_cases with ⟨n, hn, hbelow, heq⟩ | ⟨hnone, ⟨n, free, -, heq⟩ | ⟨hempty, heq⟩⟩
  · refine ⟨.reg n, by rw [heq], fun m hm => ?_, .inl (by rw [heq])⟩
    exact h.reg m (Nat.lt_trans hm (hfree n hn)) (hbelow m hm)
  · exact ⟨.spill n, by rw [heq], fun m hm => h.reg m hm (hnone m), .inl (by rw [heq])⟩
  · refine ⟨.spill s.cells.used, by rw [heq], fun m hm => h.reg m hm (hnone m), .inr ?_⟩
    rw [heq]
    exact ⟨rfl, fun n _ => hnone n, hempty⟩

theorem Exact.define (h : s.Exact regs size last pos) (hle : pos ≤ last pos)
    (hsize : last pos ≤ size) : (s.define pos (last pos)).Exact regs size last (pos + 1) := by
  have hbefore := h.before.define hle hsize
  obtain ⟨s₁, hs₁, hkeeps, hlocs, -⟩ := h.before.expire (Nat.le_trans hle hsize)
  have hfills := h.fills.expire h.before (Nat.le_trans hle hsize)
  have hused := expire_used s pos
  rw [hs₁] at hfills hused
  obtain ⟨l, hl, hpassed, hcells⟩ := hfills.assign_full hkeeps.free_lt
  have hnew := hfills.assign
  rw [hlocs] at hl hpassed hnew
  rw [h.before.locs_size] at hnew
  have hdefine : s.define pos (last pos) =
      { s₁.assign with expiring := s₁.assign.expiring.modify (last pos) (· ++ [pos]) } := by
    simp only [Scan.define, hs₁]
  have hfills' : (s.define pos (last pos)).Fills regs (fun k => k < pos + 1 ∧ pos + 1 ≤ last k + 1) := by
    rw [hdefine]
    refine Fills.mono { hnew with } fun k hk => ?_
    rcases hk with hk | rfl
    · exact ⟨Nat.lt_succ_of_lt hk.1, Nat.succ_le_succ hk.2⟩
    · exact ⟨Nat.lt_succ_self k, Nat.succ_le_succ hle⟩
  have hcard : (liveSlots last pos).card ≤ regs + (s.define pos (last pos)).cells.used := by
    refine hbefore.keeps.card_le fun k hk => ?_
    rw [liveSlots, Finset.mem_filter, Finset.mem_range] at hk
    exact ⟨by omega, _, Array.getElem?_eq_getElem (by rw [hbefore.locs_size]; exact hk.1)⟩
  refine ⟨hbefore, hfills', fun k l' hk m hm => ?_, ?_⟩
  · have hpush : (s.define pos (last pos)).locs = s.locs.push l := by rw [hdefine, hl]
    rw [hpush] at hk ⊢
    rcases getElem?_push_cases hk with ⟨-, hk⟩ | ⟨rfl, rfl⟩
    · obtain ⟨j, hj, hloc⟩ := h.passed k l' hk m hm
      exact ⟨j, hj, getElem?_push_of_eq hloc⟩
    · obtain ⟨j, hj, hloc⟩ := hpassed m hm
      rw [h.before.locs_size]
      exact ⟨j, hj, getElem?_push_of_eq hloc⟩
  · rw [Finset.range_add_one, Finset.sup_insert, ← h.used]
    have hused' : (s.define pos (last pos)).cells.used = s₁.assign.cells.used := by rw [hdefine]
    rcases hcells with hsame | ⟨hmore, hregs, hempty⟩
    · rw [max_eq_right (by omega)]
      omega
    · have hheld : ∀ k, k < pos + 1 ∧ pos + 1 ≤ last k + 1 → k ∈ liveSlots last pos := by
        intro k hk
        rw [liveSlots, Finset.mem_filter, Finset.mem_range]
        omega
      have hfull := hfills'.le_card (by rw [hdefine]; exact hregs) (by rw [hdefine]; exact hempty) hheld
      rw [max_eq_left (by omega)]
      omega

theorem start_exact {regs : Nat} (hmax : regs ≤ 64) (size : Nat) (last : Nat → Nat) :
    (Scan.start regs size).Exact regs size last 0 := by
  refine ⟨start_before hmax size last, ⟨hmax, fun n hn hnot => ?_, fun n hn => ?_⟩,
    by simp [start], rfl⟩
  · rw [start, WordSet.has_below hmax, decide_eq_true hn] at hnot
    cases hnot
  · simp [start, Cells.start] at hn

theorem done_exact {t : Tape} {regs : Int} {rs : Array LiveRange} (hmax : regs ≤ maxRegs)
    (h : t.LastUses rs) : (Scan.done t regs rs).Exact regs.toNat t.size (lastOf rs) t.size :=
  done_keeps h (start_exact (toNat_le_of_le_maxRegs hmax) _ _) fun _ _ hexact => hexact.define

end Scan

/-! ## Locations -/

/-- A register holds, where slot `k` is defined, the value of another slot that
is live there. -/
def Occupied (a : Assignment) (rs : Array LiveRange) (k n : Nat) : Prop :=
  ∃ (j : Nat) (r : LiveRange), j ≠ k ∧ rs[j]? = some r ∧ r.first ≤ k ∧ k ≤ r.last ∧
    a.locs[j]? = some (.reg n)

/-- Where a slot of a valid tape is put, the registers passed over hold slots
that are live there. -/
theorem allocate_passed {t : Tape} (hwf : t.WellFormed) {regs : Int} (hregs : 1 ≤ regs)
    (hmax : regs ≤ maxRegs) :
    ∃ a rs, allocate t regs = .ok a ∧ t.liveRanges = .ok rs ∧ a.regs = regs ∧ t.LastUses rs ∧
      a.Separates t rs ∧ ∀ (k : Nat) (l : Loc), a.locs[k]? = some l → ∀ m < l.passed regs.toNat,
        ∃ j, (j < k ∧ k ≤ lastOf rs j) ∧ a.locs[j]? = some (.reg m) := by
  obtain ⟨rs, hrs, huses⟩ := hwf.liveRanges_eq
  exact ⟨_, rs, allocate_eq hregs hmax hrs, hrs, rfl, huses, Scan.done_separates hregs hmax huses,
    (Scan.done_exact hmax huses).passed⟩

theorem Separates.of_overlaps {a : Assignment} {t : Tape} {rs : Array LiveRange}
    (h : a.Separates t rs) (huses : t.LastUses rs) {j k : Nat} {r q : LiveRange} (hne : j ≠ k)
    (hr : rs[j]? = some r) (hq : rs[k]? = some q) (hover : r.overlaps q = true) :
    a.locs[j]? ≠ a.locs[k]? := by
  have hj := lastOf_eq huses hr
  have hk := lastOf_eq huses hq
  have hjk : r.first ≤ q.last ∧ q.first ≤ r.last := by simpa [LiveRange.overlaps] using hover
  rcases Nat.lt_or_gt_of_ne hne with hlt | hlt
  · have hsize : k < t.size := huses.size ▸ (Array.getElem?_eq_some_iff.1 hq).1
    exact h.apart j k r hlt hsize hr (by omega)
  · have hsize : j < t.size := huses.size ▸ (Array.getElem?_eq_some_iff.1 hr).1
    exact (h.apart k j q hlt hsize hq (by omega)).symm

/-- **Live values never share a location.** A valid tape of fewer than `2 ^ 31`
instructions is allocated to any number of registers from 1 to 64. Every slot
has a register below that number or a spill cell below the number of cells, and
its word tells which. Two slots whose live ranges overlap have different
locations; so the result of an instruction is never put over an operand. A slot
is spilled only if every register holds the value of a slot that is live there,
and otherwise it has the lowest register that does not. -/
theorem allocate_apart (t : Tape) (regs : Int) (hvalid : t.validate = .ok ())
    (hsize : t.size < 2 ^ 31) (hregs : 1 ≤ regs) (hmax : regs ≤ 64) :
    ∃ a rs, allocate t regs = .ok a ∧ t.liveRanges = .ok rs ∧ a.regs = regs ∧
      a.locs.size = t.size ∧ rs.size = t.size ∧
      (∀ (k : Nat) (l : Loc), a.locs[k]? = some l → Loc.ofWord l.word = l ∧
        ((∃ n : Nat, l = .reg n ∧ n < regs) ∨ ∃ n : Nat, l = .spill n ∧ n < a.spills)) ∧
      (∀ (j k : Nat) (r q : LiveRange), j ≠ k → rs[j]? = some r → rs[k]? = some q →
        r.overlaps q = true → a.locs[j]? ≠ a.locs[k]?) ∧
      (∀ (k : Nat) (i : Instr), t.instrs[k]? = some i → ∀ o ∈ i.args, a.locs[k]? ≠ a.locs[o]?) ∧
      (∀ k n : Nat, a.locs[k]? = some (.spill n) → ∀ m : Nat, m < regs → a.Occupied rs k m) ∧
      ∀ k n : Nat, a.locs[k]? = some (.reg n) →
        ¬a.Occupied rs k n ∧ ∀ m < n, a.Occupied rs k m := by
  obtain ⟨-, hwf⟩ := Tape.validate_eq_ok.1 hvalid
  obtain ⟨a, rs, ha, hrs, rfl, huses, hsep, hpassed⟩ := allocate_passed hwf hregs hmax
  have hspills : a.spills ≤ t.size := spills_le_size ha hrs huses.size
  have hoccupied : ∀ (k : Nat) (l : Loc), a.locs[k]? = some l → ∀ m < l.passed a.regs.toNat,
      a.Occupied rs k m := by
    intro k l hl m hm
    obtain ⟨j, ⟨hjk, hlive⟩, hloc⟩ := hpassed k l hl m hm
    have hj : j < rs.size := by
      rw [huses.size, ← hsep.size]
      exact (Array.getElem?_eq_some_iff.1 hloc).1
    have hr := Array.getElem?_eq_getElem hj
    have := lastOf_eq huses hr
    exact ⟨j, rs[j], by omega, hr, by omega, by omega, hloc⟩
  refine ⟨a, rs, ha, hrs, rfl, hsep.size, huses.size, ?_, ?_, ?_, ?_, ?_⟩
  · intro k l hl
    cases l with
    | reg n =>
      have hlt := hsep.reg_lt k n hl
      exact ⟨Loc.ofWord_word (by simp only [Loc.index]; omega), .inl ⟨n, rfl, hlt⟩⟩
    | spill n =>
      have hlt := hsep.spill_lt k n hl
      exact ⟨Loc.ofWord_word (by simp only [Loc.index]; omega), .inr ⟨n, rfl, hlt⟩⟩
  · exact fun j k r q hne hr hq hover => hsep.of_overlaps huses hne hr hq hover
  · intro k i hi o ho
    have hk : k < t.size := (Array.getElem?_eq_some_iff.1 hi).1
    have hlt : o < k := (hwf.instr hi).args o ho
    obtain ⟨r, hr, -, -, -, hreads, -⟩ := huses.range o (Nat.lt_trans hlt hk)
    exact (hsep.apart o k r hlt hk hr (hreads k i hi ho)).symm
  · intro k n hloc m hm
    exact hoccupied k _ hloc m (by simp only [Loc.passed]; omega)
  · intro k n hloc
    refine ⟨fun hocc => ?_, fun m hm => hoccupied k _ hloc m hm⟩
    obtain ⟨j, r, hne, hr, hfirst, hlast, hj⟩ := hocc
    have hk : k < rs.size := by
      rw [huses.size, ← hsep.size]
      exact (Array.getElem?_eq_some_iff.1 hloc).1
    have hq := Array.getElem?_eq_getElem hk
    have := lastOf_eq huses hq
    refine hsep.of_overlaps huses hne hr hq ?_ (hj.trans hloc.symm)
    simp only [LiveRange.overlaps, Bool.and_eq_true, decide_eq_true_eq]
    omega

/-- With two registers the difference and the sum are spilled, for `x` and `y`
are needed up to the sum; the product is put where `x` was. -/
theorem allocate_apart_differenceOfSquares :
    (allocate differenceOfSquares 2).toOption.map Assignment.locs =
        some #[.reg 0, .reg 1, .spill 0, .spill 1, .reg 0] ∧
      ∃ a rs, allocate differenceOfSquares 2 = .ok a ∧ differenceOfSquares.liveRanges = .ok rs ∧
        (∀ (j k : Nat) (r q : LiveRange), j ≠ k → rs[j]? = some r → rs[k]? = some q →
          r.overlaps q = true → a.locs[j]? ≠ a.locs[k]?) ∧
        (∀ k n : Nat, a.locs[k]? = some (.spill n) →
          ∀ m : Nat, (m : Int) < 2 → a.Occupied rs k m) ∧
        ∀ k n : Nat, a.locs[k]? = some (.reg n) →
          ¬a.Occupied rs k n ∧ ∀ m < n, a.Occupied rs k m := by
  obtain ⟨a, rs, ha, hrs, -, -, -, -, hover, -, hspill, hreg⟩ :=
    allocate_apart differenceOfSquares 2 (by decide +kernel) (by decide +kernel) (by decide)
      (by decide)
  exact ⟨by decide +kernel, a, rs, ha, hrs, hover, hspill, hreg⟩

end Assignment

end ScalarField
