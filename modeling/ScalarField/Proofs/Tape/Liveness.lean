/-
Live ranges of a valid tape: they are found without a fault, and the range of
a slot reaches from the slot to every instruction that reads it, and to the
end of the tape if the slot is an output (`Tape.WellFormed.liveRanges_eq`).
-/
import ScalarField.Proofs.Tape.Meaning
import ScalarField.Tape.Liveness

namespace ScalarField

namespace Tape

/-- Extending ranges moves the ends of exactly the ranges named. -/
theorem extendRanges_eq (pos : Nat) : ∀ (slots : List Nat) (rs : Array LiveRange),
    (∀ s ∈ slots, s < rs.size) →
    ∃ rs', extendRanges pos rs slots = .ok rs' ∧ rs'.size = rs.size ∧
      ∀ k r, rs[k]? = some r →
        rs'[k]? = some (if k ∈ slots then { r with last := (pos : Int) } else r)
  | [], rs, _ => ⟨rs, rfl, rfl, fun k r hr => by simpa using hr⟩
  | s :: rest, rs, h => by
    have hs := h s List.mem_cons_self
    obtain ⟨q, hq⟩ : ∃ q, rs[s]? = some q := ⟨_, Array.getElem?_eq_getElem hs⟩
    obtain ⟨rs', heq, hsize, hget⟩ := extendRanges_eq pos rest
      (rs.setIfInBounds s { q with last := (pos : Int) })
      fun k hk => by simpa using h k (List.mem_cons_of_mem s hk)
    refine ⟨rs', by simp only [extendRanges, hq, heq], by simpa using hsize, fun k r hr => ?_⟩
    by_cases hk : s = k
    · subst hk
      obtain rfl : q = r := by simpa [hq] using hr
      rw [hget s _ (Array.getElem?_setIfInBounds_self_of_lt hs)]
      simp
    · rw [hget k r (by rw [Array.getElem?_setIfInBounds_ne hk, hr])]
      simp [Ne.symm hk]

/-- The ranges once `n` instructions have been entered: that of a slot starts
at the slot and reaches to all of them that read it. -/
structure Reach (t : Tape) (rs : Array LiveRange) (n : Nat) : Prop where
  size : rs.size = t.size
  range : ∀ k < n, ∃ r, rs[k]? = some r ∧ r.first = k ∧ (k : Int) ≤ r.last ∧ r.last < n ∧
    ∀ (j : Nat) (i : Instr), j < n → t.instrs[j]? = some i → k ∈ i.args → (j : Int) ≤ r.last

theorem Reach.step {t : Tape} {rs : Array LiveRange} {n : Nat} {i : Instr} (h : t.Reach rs n)
    (hwf : t.WellFormed) (hi : t.instrs[n]? = some i) :
    ∃ rs', extendRanges n (rs.setIfInBounds n ⟨n, n⟩) i.args = .ok rs' ∧ t.Reach rs' (n + 1) := by
  have hn : n < rs.size := h.size ▸ (Array.getElem?_eq_some_iff.1 hi).1
  obtain ⟨rs', heq, hsize, hget⟩ := extendRanges_eq n i.args (rs.setIfInBounds n ⟨n, n⟩)
    fun a ha => by simpa using Nat.lt_trans ((hwf.instr hi).args a ha) hn
  refine ⟨rs', heq, by simpa [h.size] using hsize, fun k hk => ?_⟩
  rcases Nat.lt_succ_iff_lt_or_eq.1 hk with hlt | rfl
  · obtain ⟨r, hr, hfirst, hle, hlast, hreads⟩ := h.range k hlt
    have hr' := hget k r (by rw [Array.getElem?_setIfInBounds_ne (by omega), hr])
    by_cases hmem : k ∈ i.args
    · -- The new end is past all ends before.
      rw [if_pos hmem] at hr'
      exact ⟨_, hr', hfirst, by simp only; omega, by simp only; omega,
        fun j _ hj _ _ => by simp only; omega⟩
    · rw [if_neg hmem] at hr'
      refine ⟨r, hr', hfirst, hle, by omega, fun j i' hj hi' hread => ?_⟩
      rcases Nat.lt_succ_iff_lt_or_eq.1 hj with hlt' | rfl
      · exact hreads j i' hlt' hi' hread
      · obtain rfl : i = i' := by simpa [hi] using hi'
        exact absurd hread hmem
  · have hself := hget k ⟨k, k⟩ (Array.getElem?_setIfInBounds_self_of_lt hn)
    rw [if_neg fun hmem => Nat.lt_irrefl k ((hwf.instr hi).args k hmem)] at hself
    exact ⟨_, hself, rfl, Int.le_refl _, by simp only; omega,
      fun j _ hj _ _ => by simp only; omega⟩

theorem Reach.run {t : Tape} (hwf : t.WellFormed) :
    ∀ {is : List Instr} {rs : Array LiveRange} {n : Nat}, t.Reach rs n → n ≤ t.size →
      t.instrs.toList.drop n = is → ∃ rs', rangesFrom rs n is = .ok rs' ∧ t.Reach rs' t.size
  | [], rs, n, h, hn, hd => by
    obtain rfl : n = t.size := Nat.le_antisymm hn (by simpa [Tape.size] using hd)
    exact ⟨rs, rfl, h⟩
  | i :: rest, rs, n, h, hn, hd => by
    obtain ⟨hi, hd'⟩ := of_drop_eq_cons hd
    obtain ⟨rs₁, h₁, hstep⟩ := h.step hwf hi
    obtain ⟨rs', hrs', hreach⟩ := hstep.run hwf (Array.getElem?_eq_some_iff.1 hi).1 hd'
    exact ⟨rs', by simp only [rangesFrom, h₁, hrs'], hreach⟩

/-- The position after which the value of a slot is needed no more. -/
structure LastUses (t : Tape) (rs : Array LiveRange) : Prop where
  size : rs.size = t.size
  range : ∀ k < t.size, ∃ r, rs[k]? = some r ∧ r.first = k ∧ (k : Int) ≤ r.last ∧
    r.last ≤ t.size ∧
    (∀ (j : Nat) (i : Instr), t.instrs[j]? = some i → k ∈ i.args → (j : Int) ≤ r.last) ∧
    (k ∈ t.outputs → r.last = t.size)

theorem WellFormed.liveRanges_eq {t : Tape} (hwf : t.WellFormed) :
    ∃ rs, t.liveRanges = .ok rs ∧ t.LastUses rs := by
  have hstart : t.Reach (Array.replicate t.size ⟨0, 0⟩) 0 := ⟨by simp, by simp⟩
  obtain ⟨rs, hrs, hreach⟩ := hstart.run hwf (Nat.zero_le _) rfl
  rw [List.drop_zero] at hrs
  obtain ⟨rs', heq, hsize, hget⟩ := extendRanges_eq t.size t.outputs.toList rs
    fun o ho => by rw [hreach.size]; exact hwf.output o (by simpa using ho)
  refine ⟨rs', by simp only [liveRanges, hrs, heq], hsize.trans hreach.size, fun k hk => ?_⟩
  obtain ⟨r, hr, hfirst, hle, hlast, hreads⟩ := hreach.range k hk
  have hr' := hget k r hr
  have hreads' : ∀ (j : Nat) (i : Instr), t.instrs[j]? = some i → k ∈ i.args → (j : Int) ≤ r.last :=
    fun j i hi => hreads j i (Array.getElem?_eq_some_iff.1 hi).1 hi
  by_cases hmem : k ∈ t.outputs
  · rw [if_pos (by simpa using hmem)] at hr'
    refine ⟨_, hr', hfirst, by simp only; omega, Int.le_refl _, fun j i hi hread => ?_, fun _ => rfl⟩
    have := hreads' j i hi hread
    simp only
    omega
  · rw [if_neg (by simpa using hmem)] at hr'
    exact ⟨r, hr', hfirst, hle, by omega, hreads', fun h => absurd h hmem⟩

end Tape

end ScalarField
