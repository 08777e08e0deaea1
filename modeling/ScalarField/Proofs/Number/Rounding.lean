/-
Rounding keeps order: a quotient that is not greater is not rounded to a
greater natural (`roundDiv_mono`), nor to a greater magnitude
(`Format.magnitudeOf_mono`).
-/
import Mathlib.Data.Nat.Log
import Mathlib.Tactic.Linarith
import Mathlib.Tactic.Ring
import ScalarField.Number.Arith

namespace ScalarField

/-! ## To a natural -/

/-- A decision on remainders that leaves an exact quotient alone and goes up
for every remainder greater than one for which it does. -/
structure Tie.Monotone (t : Tie) : Prop where
  exact : ∀ q d : Nat, 0 < d → t q 0 d = false
  up : ∀ q r d r' d' : Nat, 0 < d → 0 < d' → r * d' ≤ r' * d → t q r d = true → t q r' d' = true

theorem Tie.toEven_monotone : Tie.toEven.Monotone where
  exact q d hd := by
    simp [toEven, hd.ne]
  up q r d r' d' hd hd' h ht := by
    simp only [toEven, Bool.or_eq_true, Bool.and_eq_true, decide_eq_true_eq, beq_iff_eq] at ht ⊢
    rcases ht with hlt | ⟨heq, hodd⟩
    · have : d * d' < 2 * r' * d := by nlinarith
      exact .inl (Nat.lt_of_mul_lt_mul_left (a := d) (by linarith))
    · have hle : d * d' ≤ 2 * r' * d := by nlinarith
      have hle' : d' ≤ 2 * r' := Nat.le_of_mul_le_mul_left (by linarith) hd
      rcases Nat.lt_or_eq_of_le hle' with hlt | heq'
      · exact .inl hlt
      · exact .inr ⟨heq'.symm, hodd⟩

theorem Tie.down_monotone : Tie.down.Monotone where
  exact _ _ _ := rfl
  up q r d r' d' _ _ _ ht := by simp [down] at ht

theorem Tie.over_monotone : Tie.over.Monotone where
  exact _ _ _ := rfl
  up q r d r' d' hd hd' h ht := by
    simp only [Tie.over, bne_iff_ne, ne_eq] at ht ⊢
    rintro rfl
    have : r * d' = 0 := by omega
    rcases Nat.mul_eq_zero.1 this with hr | hd0
    · exact ht hr
    · omega

theorem roundDiv_zero {t : Tie} (ht : t.Monotone) {d : Nat} (hd : 0 < d) :
    roundDiv t 0 d = 0 := by
  simp [roundDiv, ht.exact 0 d hd]

theorem le_roundDiv (t : Tie) (n d : Nat) : n / d ≤ roundDiv t n d := by
  unfold roundDiv
  split <;> omega

theorem roundDiv_le (t : Tie) (n d : Nat) : roundDiv t n d ≤ n / d + 1 := by
  unfold roundDiv
  split <;> omega

theorem roundDiv_mono {t : Tie} (ht : t.Monotone) {n d n' d' : Nat} (hd : 0 < d) (hd' : 0 < d')
    (h : n * d' ≤ n' * d) : roundDiv t n d ≤ roundDiv t n' d' := by
  have hq : n / d ≤ n' / d' := by
    rw [Nat.le_div_iff_mul_le hd']
    have := Nat.div_mul_le_self n d
    exact Nat.le_of_mul_le_mul_right (c := d) (by nlinarith) hd
  rcases Nat.lt_or_eq_of_le hq with hlt | heq
  · have h1 := roundDiv_le t n d
    have h2 := le_roundDiv t n' d'
    omega
  · -- Equal integer parts: the remainders are in order.
    have hn := Nat.div_add_mod n d
    have hn' := Nat.div_add_mod n' d'
    have hr : n % d * d' ≤ n' % d' * d := by
      rw [heq] at hn
      nlinarith
    unfold roundDiv
    rw [heq]
    by_cases hup : t (n' / d') (n % d) d = true
    · rw [if_pos hup, if_pos (ht.up _ _ _ _ _ hd hd' hr hup)]
    · rw [if_neg hup]
      split <;> omega

/-! ## To a magnitude -/

namespace Format

variable {f : Format}

/-- The step is the one at which the quotient has `fraction + 1` digits, or
zero where it has fewer. -/
theorem step_spec {n d : Nat} (hd : 0 < d) :
    n < d * 2 ^ (f.step n d) * 2 ^ (f.fraction + 1) ∧
      (f.step n d = 0 ∨ d * 2 ^ (f.step n d) * 2 ^ f.fraction ≤ n) := by
  have hlog : n / d < 2 ^ ((n / d).log2 + 1) := Nat.lt_log2_self
  have hpow : ∀ k s : Nat, d * 2 ^ s * 2 ^ k = d * 2 ^ (s + k) := fun k s => by
    rw [Nat.mul_assoc, Nat.pow_add]
  rw [hpow, hpow]
  constructor
  · have hle : (n / d).log2 + 1 ≤ f.step n d + (f.fraction + 1) := by
      unfold step
      omega
    have := Nat.lt_of_lt_of_le hlog (Nat.pow_le_pow_right (by decide) hle)
    rw [Nat.mul_comm]
    exact (Nat.div_lt_iff_lt_mul hd).1 this
  · by_cases hs : f.step n d = 0
    · exact .inl hs
    · right
      have hsum : f.step n d + f.fraction = (n / d).log2 := by
        unfold step at hs ⊢
        omega
      have hne : n / d ≠ 0 := by
        rintro h0
        simp [step, h0] at hs
      rw [hsum, Nat.mul_comm, ← Nat.le_div_iff_mul_le hd]
      exact Nat.log2_self_le hne

theorem step_mono {n d n' d' : Nat} (hd : 0 < d) (hd' : 0 < d') (h : n * d' ≤ n' * d) :
    f.step n d ≤ f.step n' d' := by
  by_contra hlt
  have hlt : f.step n' d' < f.step n d := Nat.lt_of_not_le hlt
  obtain ⟨-, hlow⟩ := step_spec (f := f) (n := n) hd
  obtain ⟨hhigh, -⟩ := step_spec (f := f) (n := n') hd'
  have hlow := hlow.resolve_left (by omega)
  have hpow : 2 ^ (f.step n' d') * 2 ^ (f.fraction + 1) ≤ 2 ^ (f.step n d) * 2 ^ f.fraction := by
    rw [← Nat.pow_add, ← Nat.pow_add]
    exact Nat.pow_le_pow_right (by decide) (by omega)
  have h1 : d * (2 ^ (f.step n d) * 2 ^ f.fraction) * d' ≤ n * d' :=
    Nat.mul_le_mul_right d' (by rw [← Nat.mul_assoc]; exact hlow)
  have h2 : n' * d < d' * (2 ^ (f.step n' d') * 2 ^ (f.fraction + 1)) * d :=
    Nat.mul_lt_mul_of_pos_right (by rw [← Nat.mul_assoc]; exact hhigh) hd
  have h3 : d' * (2 ^ (f.step n' d') * 2 ^ (f.fraction + 1)) * d ≤
      d' * (2 ^ (f.step n d) * 2 ^ f.fraction) * d :=
    Nat.mul_le_mul_right d (Nat.mul_le_mul_left d' hpow)
  nlinarith

/-- The significand of a rounded quotient has at most `fraction + 1` digits, or
is the next power of two. -/
theorem significand_le {n d : Nat} (hd : 0 < d) :
    roundDiv .toEven n (d * 2 ^ f.step n d) ≤ 2 ^ (f.fraction + 1) := by
  obtain ⟨hhigh, -⟩ := step_spec (f := f) (n := n) hd
  have hq : n / (d * 2 ^ f.step n d) < 2 ^ (f.fraction + 1) := by
    rw [Nat.div_lt_iff_lt_mul (Nat.mul_pos hd (Nat.pow_pos (by decide))), Nat.mul_comm]
    exact hhigh
  exact Nat.le_trans (roundDiv_le _ _ _) hq

/-- Where the step is not the least one, it has exactly that many. -/
theorem le_significand {n d : Nat} (hd : 0 < d) (hs : f.step n d ≠ 0) :
    2 ^ f.fraction ≤ roundDiv .toEven n (d * 2 ^ f.step n d) := by
  obtain ⟨-, hlow⟩ := step_spec (f := f) (n := n) hd
  refine Nat.le_trans ?_ (le_roundDiv _ _ _)
  rw [Nat.le_div_iff_mul_le (Nat.mul_pos hd (Nat.pow_pos (by decide))), Nat.mul_comm]
  exact hlow.resolve_left hs

/-- Rounding a quotient to a magnitude keeps order. -/
theorem magnitudeOf_mono {n d n' d' : Nat} (hd : 0 < d) (hd' : 0 < d') (h : n * d' ≤ n' * d) :
    f.magnitudeOf n d ≤ f.magnitudeOf n' d' := by
  have hstep : f.step n d ≤ f.step n' d' := step_mono hd hd' h
  have hpos : ∀ s : Nat, 0 < 2 ^ s := fun s => Nat.pow_pos (by decide)
  simp only [magnitudeOf, Nat.pow_eq]
  rcases Nat.lt_or_eq_of_le hstep with hlt | heq
  · -- A smaller step: the lower magnitude ends where the next step begins.
    have h1 := significand_le (f := f) (n := n) hd
    have h2 := le_significand (f := f) (n := n') hd' (by omega)
    have h3 : (f.step n d + 1) * 2 ^ f.fraction ≤ f.step n' d' * 2 ^ f.fraction :=
      Nat.mul_le_mul_right _ hlt
    rw [Nat.pow_succ] at h1
    linarith
  · rw [heq]
    refine Nat.add_le_add_left (roundDiv_mono Tie.toEven_monotone (Nat.mul_pos hd (hpos _))
      (Nat.mul_pos hd' (hpos _)) ?_) _
    calc n * (d' * 2 ^ f.step n' d') = n * d' * 2 ^ f.step n' d' := by ring
      _ ≤ n' * d * 2 ^ f.step n' d' := Nat.mul_le_mul_right _ h
      _ = n' * (d * 2 ^ f.step n' d') := by ring

end Format

end ScalarField
