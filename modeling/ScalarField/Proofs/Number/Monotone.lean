/-
Functions of one number that keep order: rounding to an integer
(`Binary.toIntegral_key_le`), the square root (`Binary.sqrt_key_le`), and the
selection of the smaller and the greater of two numbers.
-/
import ScalarField.Eval.Scalar
import ScalarField.Proofs.Number.Value

namespace ScalarField

/-! ## Integer square roots -/

theorem natSqrtOf_spec : ∀ {k n : Nat}, n < 4 ^ k →
    natSqrtOf k n * natSqrtOf k n ≤ n ∧ n < (natSqrtOf k n + 1) * (natSqrtOf k n + 1)
  | 0, n, h => by
    obtain rfl : n = 0 := by simpa using h
    simp [natSqrtOf]
  | k + 1, n, h => by
    have hq : n / 4 < 4 ^ k := by
      rw [Nat.pow_succ] at h
      omega
    obtain ⟨hlow, hhigh⟩ := natSqrtOf_spec hq
    simp only [natSqrtOf]
    generalize natSqrtOf k (n / 4) = r at *
    have hlow : 4 * (r * r) ≤ n := by omega
    have hhigh : n < 4 * ((r + 1) * (r + 1)) := by omega
    split
    · rename_i hle
      exact ⟨hle, by nlinarith⟩
    · rename_i hgt
      exact ⟨by nlinarith, by nlinarith⟩

theorem natSqrt_spec (n : Nat) :
    natSqrt n * natSqrt n ≤ n ∧ n < (natSqrt n + 1) * (natSqrt n + 1) := by
  refine natSqrtOf_spec (Nat.lt_of_lt_of_le Nat.lt_log2_self ?_)
  rw [show (4 : Nat) = 2 ^ 2 by decide, ← Nat.pow_mul]
  exact Nat.pow_le_pow_right (by decide) (by omega)

/-- Twice the root, with a last digit for what it leaves over. -/
def stickyRoot (n : Nat) : Nat :=
  if natSqrt n * natSqrt n = n then 2 * natSqrt n else 2 * natSqrt n + 1

theorem stickyRoot_mono {n m : Nat} (h : n ≤ m) : stickyRoot n ≤ stickyRoot m := by
  obtain ⟨hn, hn'⟩ := natSqrt_spec n
  obtain ⟨hm, hm'⟩ := natSqrt_spec m
  have hroot : natSqrt n ≤ natSqrt m := by
    by_contra hlt
    have : natSqrt m + 1 ≤ natSqrt n := by omega
    have := Nat.mul_le_mul this this
    omega
  unfold stickyRoot
  rcases Nat.lt_or_eq_of_le hroot with hlt | heq
  · split <;> split <;> omega
  · rw [heq] at hn ⊢
    split
    · split <;> omega
    · split <;> omega

namespace Binary

variable {f : Format}

theorem units_le_units {x y : Binary f} (h : x.magnitude ≤ y.magnitude) : x.units ≤ y.units :=
  Format.units_le_units_iff.2 h

theorem key_cases (x : Binary f) :
    (x.negative = false ∧ x.key = x.magnitude) ∨ (x.negative = true ∧ x.key = -x.magnitude) := by
  rcases hs : x.negative with _ | _ <;> simp [key, hs]

theorem round_key_le (s : Bool) {n n' d : Nat} (hd : 0 < d) (h : n ≤ n') :
    if s then (round s n' d : Binary f).key ≤ (round s n d : Binary f).key
    else (round s n d : Binary f).key ≤ (round s n' d : Binary f).key := by
  have := Format.magnitudeOf_mono (f := f) hd hd (Nat.mul_le_mul_right d h)
  rw [round_key, round_key]
  cases s <;> simp <;> omega

theorem round_key_nonneg (n d : Nat) : 0 ≤ (round false n d : Binary f).key := by
  rw [round_key]
  simp

theorem round_key_nonpos (n d : Nat) : (round true n d : Binary f).key ≤ 0 := by
  rw [round_key]
  simp

/-! ## To an integer -/

theorem toIntegral_of_isInf (t : Bool → Tie) {x : Binary f} (hx : x.isNaN = false)
    (hi : x.isInf = true) : x.toIntegral t = x := by
  simp [toIntegral, hx, hi]

theorem toIntegral_of_finite (t : Bool → Tie) {x : Binary f} (hx : x.isNaN = false)
    (hi : x.isInf = false) :
    x.toIntegral t = round x.negative (roundDiv (t x.negative) x.units f.one * f.one) 1 := by
  simp [toIntegral, hx, hi]

theorem toIntegral_isNaN (t : Bool → Tie) {x : Binary f} (hx : x.isNaN = false) :
    (x.toIntegral t).isNaN = false := by
  rcases hi : x.isInf with _ | _
  · rw [toIntegral_of_finite t hx hi]
    exact round_isNaN _ _ _
  · rwa [toIntegral_of_isInf t hx hi]

theorem toIntegral_sign (t : Bool → Tie) {x : Binary f} (hx : x.isNaN = false) :
    if x.negative then (x.toIntegral t).key ≤ 0 else 0 ≤ (x.toIntegral t).key := by
  rcases hi : x.isInf with _ | _
  · rw [toIntegral_of_finite t hx hi]
    rcases x.negative with _ | _
    · exact round_key_nonneg _ _
    · exact round_key_nonpos _ _
  · rw [toIntegral_of_isInf t hx hi]
    rcases x.key_cases with ⟨hs, hk⟩ | ⟨hs, hk⟩ <;> simp [hs, hk]

theorem toIntegral_zero {t : Bool → Tie} (ht : ∀ s, (t s).Monotone) {x : Binary f}
    (hx : x.isNaN = false) (h0 : x.magnitude = 0) : (x.toIntegral t).key = 0 := by
  rcases hi : x.isInf with _ | _
  · have hu : x.units = 0 := by rw [units, h0, Format.units_zero]
    rw [toIntegral_of_finite t hx hi, hu, roundDiv_zero (ht _) Format.one_pos, Nat.zero_mul,
      round_key, magnitudeOf_zero]
    simp
  · rw [toIntegral_of_isInf t hx hi]
    rcases x.key_cases with ⟨-, hk⟩ | ⟨-, hk⟩ <;> simp [hk, h0]

/-- Rounding to an integer keeps order, whatever becomes of what stands behind
the point. -/
theorem toIntegral_key_le {t : Bool → Tie} (ht : ∀ s, (t s).Monotone) {x y : Binary f}
    (hx : x.isNaN = false) (hy : y.isNaN = false) (h : x.key ≤ y.key) :
    (x.toIntegral t).key ≤ (y.toIntegral t).key := by
  have hxs := toIntegral_sign t hx
  have hys := toIntegral_sign t hy
  -- Of one sign, the magnitudes are in order, and so are their roundings.
  have same : ∀ {a b : Binary f}, a.isNaN = false → b.isNaN = false → a.negative = b.negative →
      a.magnitude ≤ b.magnitude →
      if b.negative then (b.toIntegral t).key ≤ (a.toIntegral t).key
      else (a.toIntegral t).key ≤ (b.toIntegral t).key := by
    intro a b ha hb hs hm
    have hbound := key_bounds (toIntegral_isNaN t ha)
    rcases hbi : b.isInf with _ | _
    · have hai : a.isInf = false := by
        have hbm := isNaN_eq_false.1 hb
        have hbne : b.magnitude ≠ f.infinity := by simpa [isInf] using hbi
        simp only [isInf, beq_eq_false_iff_ne]
        omega
      rw [toIntegral_of_finite t ha hai, toIntegral_of_finite t hb hbi, hs]
      refine round_key_le b.negative one_pos (Nat.mul_le_mul_right _ ?_)
      exact roundDiv_mono (ht _) Format.one_pos Format.one_pos
        (Nat.mul_le_mul_right _ (units_le_units hm))
    · have hbm := isInf_eq_true.1 hbi
      rw [toIntegral_of_isInf t hb hbi]
      rcases b.key_cases with ⟨hbs, hk⟩ | ⟨hbs, hk⟩ <;> simp only [hbs, hk, hbm] <;>
        simp <;> omega
  rcases x.key_cases with ⟨hxn, hxk⟩ | ⟨hxn, hxk⟩ <;>
    rcases y.key_cases with ⟨hyn, hyk⟩ | ⟨hyn, hyk⟩
  · simpa [hyn] using same hx hy (hxn.trans hyn.symm) (by omega)
  · rw [toIntegral_zero ht hx (by omega), toIntegral_zero ht hy (by omega)]
  · simp only [hxn, hyn, if_true, Bool.false_eq_true, if_false] at hxs hys
    omega
  · simpa [hxn] using same hy hx (hyn.trans hxn.symm) (by omega)

theorem floor_monotone (s : Bool) : (if s then Tie.over else Tie.down).Monotone := by
  cases s
  · exact Tie.down_monotone
  · exact Tie.over_monotone

theorem ceil_monotone (s : Bool) : (if s then Tie.down else Tie.over).Monotone := by
  cases s
  · exact Tie.over_monotone
  · exact Tie.down_monotone

/-! ## The square root -/

/-- A root that is a number is that of a zero or infinity, which is its own
root, or of a positive number. -/
theorem sqrt_cases {x : Binary64} (h : x.sqrt.isNaN = false) :
    (x.magnitude = 0 ∧ x.sqrt = x) ∨
      (0 < x.magnitude ∧ x.negative = false ∧
        (x.isInf = true ∧ x.sqrt = x ∨
          x.isInf = false ∧
            x.sqrt = round false (stickyRoot (x.units * Format.binary64.one * 16)) 8)) := by
  unfold sqrt at h ⊢
  split at h
  · simp [nan_isNaN] at h
  · rename_i hn
    rw [if_neg hn]
    split at h
    · rename_i hz
      exact .inl ⟨by simpa [isZero] using hz, if_pos hz⟩
    · rename_i hz
      rw [if_neg hz]
      split at h
      · simp [nan_isNaN] at h
      · rename_i hs
        rw [if_neg hs]
        have hpos : 0 < x.magnitude := by
          have : x.magnitude ≠ 0 := by simpa [isZero] using hz
          omega
        refine .inr ⟨hpos, by simpa using hs, ?_⟩
        rcases hi : x.isInf with _ | _
        · exact .inr ⟨rfl, rfl⟩
        · exact .inl ⟨rfl, rfl⟩

theorem sqrt_key_nonneg {x : Binary64} (h : x.sqrt.isNaN = false) : 0 ≤ x.sqrt.key := by
  rcases sqrt_cases h with ⟨h0, heq⟩ | ⟨-, hs, ⟨-, heq⟩ | ⟨-, heq⟩⟩ <;> rw [heq]
  · rcases x.key_cases with ⟨-, hk⟩ | ⟨-, hk⟩ <;> omega
  · simp [key, hs]
  · exact round_key_nonneg _ _

theorem sqrt_key_le {x y : Binary64} (hx : x.sqrt.isNaN = false) (hy : y.sqrt.isNaN = false)
    (h : x.le y = true) : x.sqrt.key ≤ y.sqrt.key := by
  obtain ⟨hxn, hyn, hkey⟩ := le_eq_true.1 h
  have hxm := isNaN_eq_false.1 hxn
  have hym := isNaN_eq_false.1 hyn
  have hy0 := sqrt_key_nonneg hy
  have hbound := (key_bounds hx).2
  rcases sqrt_cases hx with ⟨h0, heq⟩ | ⟨hpos, hs, hx'⟩
  · have hzero : x.key = 0 := by rcases x.key_cases with ⟨-, hk⟩ | ⟨-, hk⟩ <;> omega
    rw [heq, hzero]
    exact hy0
  · have hxk : x.key = x.magnitude := by simp [key, hs]
    rcases sqrt_cases hy with ⟨h0, -⟩ | ⟨-, hys, hy'⟩
    · -- Nothing positive lies below zero.
      exfalso
      rcases y.key_cases with ⟨-, hk⟩ | ⟨-, hk⟩ <;> omega
    · have hyk : y.key = y.magnitude := by simp [key, hys]
      rcases hy' with ⟨hyi, hyeq⟩ | ⟨hyi, hyeq⟩
      · rw [hyeq, hyk, isInf_eq_true.1 hyi]
        exact hbound
      · have hyne : y.magnitude ≠ Format.binary64.infinity := by simpa [isInf] using hyi
        rcases hx' with ⟨hxi, -⟩ | ⟨-, hxeq⟩
        · have := isInf_eq_true.1 hxi
          omega
        · rw [hxeq, hyeq]
          have hm : x.magnitude ≤ y.magnitude := by omega
          have hroot := stickyRoot_mono (Nat.mul_le_mul_right 16
            (Nat.mul_le_mul_right Format.binary64.one (units_le_units hm)))
          simpa using round_key_le (f := .binary64) false (d := 8) (by decide) hroot

end Binary

/-! ## The smaller and the greater -/

namespace Scalar

variable {a b c : Binary64}

theorem lesser_eq : lesser a b = if a.lt b then a else b := rfl

theorem greater_eq : greater a b = if b.lt a then a else b := rfl

theorem lesser_isNaN (ha : a.isNaN = false) (hb : b.isNaN = false) :
    (lesser a b).isNaN = false := by
  rw [lesser_eq]
  split <;> assumption

theorem greater_isNaN (ha : a.isNaN = false) (hb : b.isNaN = false) :
    (greater a b).isNaN = false := by
  rw [greater_eq]
  split <;> assumption

theorem lesser_key (ha : a.isNaN = false) (hb : b.isNaN = false) :
    (lesser a b).key = Min.min a.key b.key := by
  rw [lesser_eq]
  by_cases h : a.lt b = true
  · have := (Binary.lt_eq_true.1 h).2.2
    rw [if_pos h]
    omega
  · have : ¬a.key < b.key := fun hk => h (Binary.lt_eq_true.2 ⟨ha, hb, hk⟩)
    rw [if_neg h]
    omega

theorem greater_key (ha : a.isNaN = false) (hb : b.isNaN = false) :
    (greater a b).key = Max.max a.key b.key := by
  rw [greater_eq]
  by_cases h : b.lt a = true
  · have := (Binary.lt_eq_true.1 h).2.2
    rw [if_pos h]
    omega
  · have : ¬b.key < a.key := fun hk => h (Binary.lt_eq_true.2 ⟨hb, ha, hk⟩)
    rw [if_neg h]
    omega

end Scalar

end ScalarField
