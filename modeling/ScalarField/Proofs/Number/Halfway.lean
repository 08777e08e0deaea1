/-
Rounding to nearest by intervals: the quotients that round to a magnitude are
those between the points halfway to its neighbours, and the halfway points
belong to the even one (`Format.magnitudeOf_eq_iff`).
-/
import ScalarField.Proofs.Number.Value

namespace ScalarField

/-- Rounding moves by at most a half, and by a half only to an even natural. -/
theorem roundDiv_toEven_spec (n : Nat) {d : Nat} (hd : 0 < d) :
    2 * (roundDiv .toEven n d * d) ≤ 2 * n + d ∧ 2 * n ≤ 2 * (roundDiv .toEven n d * d) + d ∧
      (roundDiv .toEven n d % 2 = 1 →
        2 * (roundDiv .toEven n d * d) < 2 * n + d ∧
          2 * n < 2 * (roundDiv .toEven n d * d) + d) := by
  have hn := Nat.div_add_mod n d
  have hr := Nat.mod_lt n hd
  rw [Nat.mul_comm] at hn
  unfold roundDiv
  generalize n / d = q at *
  generalize n % d = r at *
  simp only [Tie.toEven, Bool.or_eq_true, Bool.and_eq_true, decide_eq_true_eq, beq_iff_eq]
  split
  · have hsucc : (q + 1) * d = q * d + d := Nat.succ_mul q d
    refine ⟨by omega, by omega, by omega⟩
  · refine ⟨by omega, by omega, by omega⟩

namespace Format

variable {f : Format} {m m' n d : Nat}

/-- The quotient `n / d`, in units, lies between the points halfway from `m` to
its neighbours, and on one of them only if `m` is even. -/
structure Rounds (f : Format) (m n d : Nat) : Prop where
  low : 0 < m → (f.units (m - 1) + f.units m) * d ≤ 2 * n
  high : 2 * n ≤ (f.units m + f.units (m + 1)) * d
  odd : m % 2 = 1 →
    (f.units (m - 1) + f.units m) * d < 2 * n ∧ 2 * n < (f.units m + f.units (m + 1)) * d

/-- A magnitude whose significand is `q` and whose step is `2 ^ s`. -/
theorem units_eq {s q : Nat} (hq : q ≤ 2 ^ (f.fraction + 1)) (hs : s = 0 ∨ 2 ^ f.fraction ≤ q) :
    f.units (s * 2 ^ f.fraction + q) = q * 2 ^ s := by
  have hpos : 0 < 2 ^ f.fraction := Nat.pow_pos (by decide)
  rw [Nat.pow_succ] at hq
  simp only [units, Nat.pow_eq]
  generalize 2 ^ f.fraction = w at *
  by_cases hlow : q < w
  · -- Below the least significand of a step the step is one unit.
    obtain rfl : s = 0 := by omega
    simp [Nat.div_eq_of_lt hlow, Nat.mod_eq_of_lt hlow]
  obtain ⟨r, rfl⟩ := Nat.exists_eq_add_of_le (Nat.le_of_not_lt hlow)
  have hsum : s * w + (w + r) = r + (s + 1) * w := by ring
  rw [hsum, Nat.add_mul_div_right r (s + 1) hpos, Nat.add_mul_mod_self_right]
  by_cases hlast : r < w
  · simp [Nat.div_eq_of_lt hlast, Nat.mod_eq_of_lt hlast]
  · -- The significand after the last one is the first one of the next step.
    obtain rfl : r = w := by omega
    have hdiv : r / r + (s + 1) = s + 2 := by rw [Nat.div_self hpos]; omega
    rw [hdiv, Nat.mod_self, if_neg (by omega), show s + 2 - 1 = s + 1 by omega, Nat.pow_succ]
    ring

theorem units_pred {s q : Nat} (hq : q ≤ 2 ^ (f.fraction + 1)) (hpos : 0 < s * 2 ^ f.fraction + q)
    (hfirst : s = 0 ∨ 2 ^ f.fraction < q) :
    ∃ p, q = p + 1 ∧ f.units (s * 2 ^ f.fraction + q - 1) = p * 2 ^ s := by
  obtain ⟨p, rfl⟩ : ∃ p, q = p + 1 := Nat.exists_eq_succ_of_ne_zero (by
    rcases hfirst with rfl | hlt
    · omega
    · exact Nat.ne_of_gt (Nat.lt_of_le_of_lt (Nat.zero_le _) hlt))
  refine ⟨p, rfl, ?_⟩
  rw [show s * 2 ^ f.fraction + (p + 1) - 1 = s * 2 ^ f.fraction + p by omega]
  exact units_eq (Nat.le_of_succ_le hq) (hfirst.imp_right Nat.le_of_lt_succ)

theorem Rounds.not_lt (hd : 0 < d) (h : f.Rounds m n d) (h' : f.Rounds m' n d) : ¬m < m' := by
  intro hlt
  have hhigh := h.high
  have hlow := h'.low (by omega)
  rcases Nat.lt_or_eq_of_le (Nat.succ_le_of_lt hlt) with hgap | heq
  · have h1 : f.units m < f.units (m' - 1) := units_lt_units (by omega)
    have h2 : f.units (m + 1) < f.units m' := units_lt_units hgap
    have h3 := Nat.mul_lt_mul_of_pos_right (Nat.add_lt_add h1 h2) hd
    omega
  · -- The halfway point between neighbours belongs to the even one.
    obtain rfl : m' = m + 1 := heq.symm
    rw [Nat.add_sub_cancel] at hlow
    rcases Nat.mod_two_eq_zero_or_one m with heven | hodd
    · have hstrict := (h'.odd (by omega)).1
      rw [Nat.add_sub_cancel] at hstrict
      omega
    · have hstrict := (h.odd hodd).2
      omega

theorem Rounds.unique (hd : 0 < d) (h : f.Rounds m n d) (h' : f.Rounds m' n d) : m = m' :=
  Nat.le_antisymm (Nat.le_of_not_lt (h'.not_lt hd h)) (Nat.le_of_not_lt (h.not_lt hd h'))

theorem le_units_succ {s q : Nat} (hq : q ≤ 2 ^ (f.fraction + 1))
    (hs : s = 0 ∨ 2 ^ f.fraction ≤ q) :
    (q + 1) * 2 ^ s ≤ f.units (s * 2 ^ f.fraction + q + 1) := by
  have hpos : 0 < 2 ^ f.fraction := Nat.pow_pos (by decide)
  rcases Nat.lt_or_eq_of_le hq with hlt | rfl
  · rw [Nat.add_assoc, units_eq hlt (hs.imp_right Nat.le_succ_of_le)]
  · have hsum : s * 2 ^ f.fraction + 2 ^ (f.fraction + 1) + 1 =
        (s + 1) * 2 ^ f.fraction + (2 ^ f.fraction + 1) := by ring
    rw [hsum, units_eq (by rw [Nat.pow_succ]; omega) (.inr (Nat.le_succ _)), Nat.pow_succ 2 s,
      Nat.pow_succ 2 f.fraction]
    nlinarith [Nat.pow_pos (n := s) (show 0 < 2 by decide)]

/-- The point halfway to the magnitude before is half a step away, or the quotient
is above it. -/
theorem halfway_below {s q : Nat} (hd : 0 < d) (hq : q ≤ 2 ^ (f.fraction + 1))
    (hs : s = 0 ∨ 2 ^ f.fraction ≤ q) (hpos : 0 < s * 2 ^ f.fraction + q)
    (hlow : s = 0 ∨ d * 2 ^ s * 2 ^ f.fraction ≤ n) :
    (f.units (s * 2 ^ f.fraction + q - 1) + f.units (s * 2 ^ f.fraction + q)) * d < 2 * n ∨
      (f.units (s * 2 ^ f.fraction + q - 1) + f.units (s * 2 ^ f.fraction + q)) * d + d * 2 ^ s =
        2 * (q * (d * 2 ^ s)) := by
  have hm := units_eq hq hs
  by_cases hfirst : s = 0 ∨ 2 ^ f.fraction < q
  · obtain ⟨p, rfl, hp⟩ := units_pred hq hpos hfirst
    right
    rw [hp, hm]
    ring
  · -- The quotient is not below the power of two that it is rounded to.
    left
    have hq' : q = 2 ^ f.fraction := by omega
    have hprev := units_lt_units (f := f) (Nat.sub_lt hpos Nat.one_pos)
    have hle : f.units (s * 2 ^ f.fraction + q) * d ≤ n := by
      rw [hm, hq', Nat.mul_assoc, Nat.mul_comm, Nat.mul_comm (2 ^ s) d]
      exact hlow.resolve_left fun h => hfirst (.inl h)
    calc _ < 2 * (f.units (s * 2 ^ f.fraction + q) * d) := by nlinarith
      _ ≤ 2 * n := by omega

theorem magnitudeOf_rounds (hf : 0 < f.fraction) (n : Nat) (hd : 0 < d) :
    f.Rounds (f.magnitudeOf n d) n d := by
  obtain ⟨-, hlow⟩ := step_spec (f := f) (n := n) hd
  have hq := significand_le (f := f) (n := n) hd
  have hs := or_iff_not_imp_left.2 (le_significand (f := f) (n := n) hd)
  have hD : 0 < d * 2 ^ f.step n d := Nat.mul_pos hd (Nat.pow_pos (by decide))
  obtain ⟨hdown, hup, hodd⟩ := roundDiv_toEven_spec n hD
  have hparity : f.magnitudeOf n d % 2 = roundDiv .toEven n (d * 2 ^ f.step n d) % 2 := by
    obtain ⟨k, hk⟩ := Nat.exists_eq_add_of_lt hf
    rw [magnitudeOf, Nat.pow_eq, Nat.pow_eq, hk, Nat.pow_succ, ← Nat.mul_assoc]
    omega
  rw [show f.magnitudeOf n d = f.step n d * 2 ^ f.fraction +
    roundDiv .toEven n (d * 2 ^ f.step n d) from rfl] at hparity ⊢
  generalize f.step n d = s at *
  generalize roundDiv .toEven n (d * 2 ^ s) = q at *
  have hupper : 2 * (q * (d * 2 ^ s)) + d * 2 ^ s ≤
      (f.units (s * 2 ^ f.fraction + q) + f.units (s * 2 ^ f.fraction + q + 1)) * d :=
    calc 2 * (q * (d * 2 ^ s)) + d * 2 ^ s = (q * 2 ^ s + (q + 1) * 2 ^ s) * d := by ring
      _ ≤ _ := Nat.mul_le_mul_right d (Nat.add_le_add (units_eq hq hs).ge (le_units_succ hq hs))
  refine ⟨fun hpos => ?_, hup.trans hupper, fun h => ?_⟩
  · rcases halfway_below hd hq hs hpos hlow with h | h <;> omega
  · obtain ⟨hdown', hup'⟩ := hodd (hparity.symm.trans h)
    refine ⟨?_, Nat.lt_of_lt_of_le hup' hupper⟩
    rcases halfway_below hd hq hs (by omega) hlow with h | h <;> omega

/-- What a quotient is rounded to. -/
theorem magnitudeOf_eq_iff (hf : 0 < f.fraction) (hd : 0 < d) :
    f.magnitudeOf n d = m ↔ f.Rounds m n d :=
  ⟨fun h => h ▸ magnitudeOf_rounds hf n hd, fun h => (magnitudeOf_rounds hf n hd).unique hd h⟩

end Format

end ScalarField
