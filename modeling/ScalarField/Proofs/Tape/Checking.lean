/-
The check of an assignment decides what it is meant to: every location exists,
and slots that are live at the same time have different ones
(`Assignment.validate_eq_ok_iff`).

The check looks at each slot once, and only at the latest slot with the same
location. That is enough, for a slot that had the location before was checked
against that one: its range had ended there already
(`Assignment.Latest.clear_succ`).
-/
import ScalarField.Proofs.Tape.Registers

namespace ScalarField

namespace Assignment

/-- Whether a location is one of those that may be used. -/
def Has (a : Assignment) : Loc → Prop
  | .reg n => n < a.regs
  | .spill n => n < a.spills

theorem fits_eq_ok {a : Assignment} (slot : Nat) {l : Loc} : a.fits slot l = .ok () ↔ a.Has l := by
  cases l <;> simp [fits, Has]

/-! ## Slots below a bound -/

/-- Among the first `n` slots, one that shares its location with a later one
has ended before it. -/
def Clear (slots : List (Loc × LiveRange)) (n : Nat) : Prop :=
  ∀ (j k : Nat) (l : Loc) (r q : LiveRange), j < k → k < n → slots[j]? = some (l, r) →
    slots[k]? = some (l, q) → r.last < k

theorem Clear.mono {slots : List (Loc × LiveRange)} {m n : Nat} (h : Clear slots n) (hmn : m ≤ n) :
    Clear slots m :=
  fun j k l r q hjk hk => h j k l r q hjk (Nat.lt_of_lt_of_le hk hmn)

/-- The owners are, for each location, the latest of the first `n` slots that
has it. -/
structure Latest (slots : List (Loc × LiveRange)) (n : Nat) (owners : Owners) : Prop where
  owned : ∀ (l : Loc) (o : Owner), owners.lookup l = some o →
    o.slot < n ∧ (∃ r, slots[o.slot]? = some (l, r) ∧ r.last = o.last) ∧
      ∀ (j : Nat) (r : LiveRange), o.slot < j → j < n → slots[j]? ≠ some (l, r)
  unowned : ∀ l, owners.lookup l = none → ∀ (j : Nat) (r : LiveRange), j < n → slots[j]? ≠ some (l, r)

variable {slots : List (Loc × LiveRange)} {n : Nat} {owners : Owners} {l : Loc} {r : LiveRange}

theorem Latest.nil : Latest slots 0 [] :=
  ⟨fun _ _ h => (nomatch h), fun _ _ j _ hj => absurd hj (Nat.not_lt_zero j)⟩

theorem Latest.cons (h : Latest slots n owners) (hn : slots[n]? = some (l, r)) :
    Latest slots (n + 1) ((l, ⟨n, r.last⟩) :: owners) := by
  have hother {l' : Loc} (hne : l' ≠ l) (q : LiveRange) : slots[n]? ≠ some (l', q) := by
    rw [hn]
    exact fun heq => hne (congrArg Prod.fst (Option.some.inj heq)).symm
  refine ⟨fun l' o ho => ?_, fun l' ho j q hj => ?_⟩
  · by_cases hl : l' = l
    · subst hl
      obtain rfl : ⟨n, r.last⟩ = o := by simpa using ho
      exact ⟨Nat.lt_succ_self n, ⟨r, hn, rfl⟩, fun j _ hlt hle => by simp only at hlt; omega⟩
    · have ho' : owners.lookup l' = some o := by
        simpa [List.lookup_cons, beq_eq_false_iff_ne.2 hl] using ho
      obtain ⟨hslot, hat, hlater⟩ := h.owned l' o ho'
      refine ⟨Nat.lt_succ_of_lt hslot, hat, fun j q hlt hj => ?_⟩
      rcases Nat.lt_succ_iff_lt_or_eq.1 hj with hj | rfl
      · exact hlater j q hlt hj
      · exact hother hl q
  · by_cases hl : l' = l
    · simp [hl] at ho
    · have ho' : owners.lookup l' = none := by
        simpa [List.lookup_cons, beq_eq_false_iff_ne.2 hl] using ho
      rcases Nat.lt_succ_iff_lt_or_eq.1 hj with hj | rfl
      · exact h.unowned l' ho' j q hj
      · exact hother hl q

/-- A slot is clear of all slots before it if it is clear of the owner of its
location. -/
theorem Latest.clear_succ (h : Latest slots n owners) (hclear : Clear slots n)
    (hn : slots[n]? = some (l, r)) :
    Clear slots (n + 1) ↔ ∀ o, owners.lookup l = some o → o.last < n := by
  constructor
  · intro hnext o ho
    obtain ⟨hslot, ⟨q, hq, hlast⟩, -⟩ := h.owned l o ho
    exact hlast ▸ hnext o.slot n l q r hslot (Nat.lt_succ_self n) hq hn
  · intro howner j k l' q q' hjk hk hj hat
    rcases Nat.lt_succ_iff_lt_or_eq.1 hk with hk | rfl
    · exact hclear j k l' q q' hjk hk hj hat
    obtain ⟨rfl, rfl⟩ : l = l' ∧ r = q' := by simpa [hn] using hat
    cases ho : owners.lookup l with
    | none => exact absurd hj (h.unowned l ho j q hjk)
    | some o =>
      obtain ⟨hslot, ⟨p, hp, hlast⟩, hlater⟩ := h.owned l o ho
      have hend := howner o ho
      rcases Nat.lt_trichotomy j o.slot with hlt | heq | hgt
      · -- The owner was clear of `j` when it took the location over.
        have := hclear j o.slot l q p hlt hslot hj hp
        omega
      · obtain rfl : q = p := by
          rw [heq, hp] at hj
          exact (congrArg Prod.snd (Option.some.inj hj)).symm
        omega
      · exact absurd hj (hlater j q hgt hjk)

/-! ## The whole check -/

theorem checkFrom_cons {a : Assignment} {owners : Owners} {slot : Nat} {l : Loc} {r : LiveRange}
    {rest : List (Loc × LiveRange)} :
    a.checkFrom owners slot ((l, r) :: rest) = .ok () ↔
      a.Has l ∧ (∀ o, owners.lookup l = some o → o.last < slot) ∧
        a.checkFrom ((l, ⟨slot, r.last⟩) :: owners) (slot + 1) rest = .ok () := by
  rw [← fits_eq_ok slot, checkFrom]
  cases hfits : a.fits slot l with
  | error e => simp
  | ok =>
    cases ho : owners.lookup l with
    | none => simp
    | some o =>
      by_cases hle : (slot : Int) ≤ o.last
      · simp [hle]
      · simp [hle, Int.not_le.1 hle]

/-- Checking the slots from `n` on, the others being clear of each other. -/
theorem checkFrom_eq_ok {a : Assignment} {slots : List (Loc × LiveRange)} :
    ∀ {rest : List (Loc × LiveRange)} {owners : Owners} {n : Nat}, slots.drop n = rest →
      Latest slots n owners → Clear slots n →
      (a.checkFrom owners n rest = .ok () ↔ (∀ s ∈ rest, a.Has s.1) ∧ Clear slots slots.length)
  | [], owners, n, hd, _, hclear => by
    have hle : slots.length ≤ n := List.drop_eq_nil_iff.1 hd
    simp [checkFrom, hclear.mono hle]
  | (l, r) :: rest, owners, n, hd, hlatest, hclear => by
    have hn : slots[n]? = some (l, r) := by rw [← List.head?_drop, hd, List.head?_cons]
    have hlt : n < slots.length := (List.getElem?_eq_some_iff.1 hn).1
    have hd' : slots.drop (n + 1) = rest := by rw [← List.drop_drop, hd]; rfl
    rw [checkFrom_cons, ← hlatest.clear_succ hclear hn, List.forall_mem_cons, and_assoc]
    refine and_congr_right fun _ => ⟨fun ⟨hnext, hrest⟩ => ?_, fun ⟨hhas, hall⟩ => ?_⟩
    · exact (checkFrom_eq_ok hd' (hlatest.cons hn) hnext).1 hrest
    · have hnext := hall.mono (Nat.succ_le_of_lt hlt)
      exact ⟨hnext, (checkFrom_eq_ok hd' (hlatest.cons hn) hnext).2 ⟨hhas, hall⟩⟩

/-- The later of two slots is defined while the earlier is live, or they do not
overlap. -/
theorem overlaps_iff {t : Tape} {rs : Array LiveRange} (huses : t.LastUses rs) {j k : Nat}
    {r q : LiveRange} (hjk : j < k) (hr : rs[j]? = some r) (hq : rs[k]? = some q) :
    r.overlaps q = true ↔ (k : Int) ≤ r.last := by
  have hk : k < t.size := huses.size ▸ (Array.getElem?_eq_some_iff.1 hq).1
  obtain ⟨r', hr', hfirst, -⟩ := huses.range j (Nat.lt_trans hjk hk)
  obtain ⟨q', hq', hfirst', hle, -⟩ := huses.range k hk
  obtain rfl : r = r' := Option.some.inj (hr.symm.trans hr')
  obtain rfl : q = q' := Option.some.inj (hq.symm.trans hq')
  simp only [LiveRange.overlaps, Bool.and_eq_true, decide_eq_true_eq]
  omega

theorem overlaps_comm (r q : LiveRange) : r.overlaps q = q.overlaps r := by
  simp only [LiveRange.overlaps, Bool.and_comm]

/-- Slots that are clear of each other are those that do not share a location
while both are live. -/
theorem clear_iff {a : Assignment} {t : Tape} {rs : Array LiveRange} (huses : t.LastUses rs)
    (hsize : a.locs.size = t.size) :
    Clear (a.locs.toList.zip rs.toList) t.size ↔
      ∀ (j k : Nat) (r q : LiveRange), j ≠ k → rs[j]? = some r → rs[k]? = some q →
        r.overlaps q = true → a.locs[j]? ≠ a.locs[k]? := by
  have hslot (k : Nat) (l : Loc) (r : LiveRange) :
      (a.locs.toList.zip rs.toList)[k]? = some (l, r) ↔ a.locs[k]? = some l ∧ rs[k]? = some r := by
    simp [List.getElem?_zip_eq_some]
  constructor
  · intro hclear j k r q hne hr hq hover heq
    -- The condition is the same for both orders of the slots.
    wlog hjk : j < k generalizing j k r q
    · exact this k j q r hne.symm hq hr (overlaps_comm r q ▸ hover) heq.symm (by omega)
    have hk : k < t.size := huses.size ▸ (Array.getElem?_eq_some_iff.1 hq).1
    have hl := Array.getElem?_eq_getElem (hsize ▸ hk : k < a.locs.size)
    have hend := hclear j k _ r q hjk hk ((hslot j _ r).2 ⟨heq.trans hl, hr⟩) ((hslot k _ q).2 ⟨hl, hq⟩)
    have := (overlaps_iff huses hjk hr hq).1 hover
    omega
  · intro happart j k l r q hjk hk hj hat
    obtain ⟨hl, hr⟩ := (hslot j l r).1 hj
    obtain ⟨hl', hq⟩ := (hslot k l q).1 hat
    by_contra hend
    have hover := (overlaps_iff huses hjk hr hq).2 (Int.not_lt.1 hend)
    exact happart j k r q (Nat.ne_of_lt hjk) hr hq hover (hl.trans hl'.symm)

/-- **The check of an assignment is sound and complete.** Whatever locations an
assignment gives the slots of a valid tape, the check accepts it if and only if
there is one location for each slot, all of them may be used, and no two
different slots whose live ranges overlap have the same one. -/
theorem validate_eq_ok_iff (t : Tape) (h : t.validate = .ok ()) (a : Assignment) :
    ∃ rs, t.liveRanges = .ok rs ∧ rs.size = t.size ∧
      (a.validate t = .ok () ↔
        a.locs.size = t.size ∧
          (∀ l ∈ a.locs, a.Has l) ∧
          ∀ (j k : Nat) (r q : LiveRange), j ≠ k → rs[j]? = some r → rs[k]? = some q →
            r.overlaps q = true → a.locs[j]? ≠ a.locs[k]?) := by
  obtain ⟨rs, hrs, huses⟩ := (Tape.validate_eq_ok.1 h).2.liveRanges_eq
  refine ⟨rs, hrs, huses.size, ?_⟩
  by_cases hsize : a.locs.size = t.size
  · have hlen : (a.locs.toList.zip rs.toList).length = t.size := by simp [hsize, huses.size]
    have hmem : (∀ s ∈ a.locs.toList.zip rs.toList, a.Has s.1) ↔ ∀ l ∈ a.locs, a.Has l := by
      have hfst : (a.locs.toList.zip rs.toList).map Prod.fst = a.locs.toList :=
        List.map_fst_zip (by simp [hsize, huses.size])
      rw [← List.forall_mem_map, hfst]
      simp
    have hcheck := checkFrom_eq_ok (a := a) (List.drop_zero (l := a.locs.toList.zip rs.toList))
      .nil (fun j k _ _ _ _ hk => absurd hk (Nat.not_lt_zero k))
    rw [hmem, hlen, clear_iff huses hsize] at hcheck
    simpa only [validate, hsize, hrs, ne_eq, not_true_eq_false, if_false, true_and] using hcheck
  · simp [validate, hsize]

/-- Locations that no scan gives: the highest register comes first, and a cell
is taken while registers are free. -/
theorem validate_eq_ok_iff_differenceOfSquares :
    let a : Assignment := ⟨5, #[.reg 4, .spill 1, .reg 0, .reg 2, .spill 1], 2⟩
    differenceOfSquares.validate = .ok () ∧ a.validate differenceOfSquares = .ok () ∧
      ∃ rs, differenceOfSquares.liveRanges = .ok rs ∧
        ∀ (j k : Nat) (r q : LiveRange), j ≠ k → rs[j]? = some r → rs[k]? = some q →
          r.overlaps q = true → a.locs[j]? ≠ a.locs[k]? := by
  intro a
  have haccepted : a.validate differenceOfSquares = .ok () := by decide +kernel
  obtain ⟨rs, hrs, -, hiff⟩ := validate_eq_ok_iff differenceOfSquares (by decide +kernel) a
  exact ⟨by decide +kernel, haccepted, rs, hrs, (hiff.1 haccepted).2.2⟩

end Assignment

end ScalarField
