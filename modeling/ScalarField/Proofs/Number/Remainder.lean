/-
Remainders are exact. The remainder of two finite numbers is again a number of
the format (`Format.exists_units_mod`), so the truncated one is not rounded
(`Binary.mod_toUnits`), and the euclidean one is the number nearest to the exact
one (`Scalar.mod_nearest`).
-/
import ScalarField.Eval.Scalar
import ScalarField.Proofs.Number.Halfway

namespace ScalarField

namespace Format

variable {f : Format}

theorem magnitudeOf_units (hf : 0 < f.fraction) (m : Nat) : f.magnitudeOf (f.units m) 1 = m := by
  have hnext : f.units m < f.units (m + 1) := units_lt_units (Nat.lt_succ_self m)
  have hprev : 0 < m → f.units (m - 1) < f.units m := fun hm => units_lt_units (by omega)
  refine (magnitudeOf_eq_iff hf Nat.one_pos).2 ⟨fun hm => ?_, by omega, fun hodd => ?_⟩
  · have hlt := hprev hm
    omega
  · have hlt := hprev (by omega)
    omega

/-- A significand of at most one more digit, times a power of two, is a
magnitude. -/
theorem exists_units_eq {k : Nat} (hk : k < 2 ^ (f.fraction + 1)) (s : Nat) :
    ∃ m, f.units m = k * 2 ^ s := by
  induction s generalizing k with
  | zero => exact ⟨_, units_eq (Nat.le_of_lt hk) (.inl rfl)⟩
  | succ s ih =>
    by_cases hfirst : 2 ^ f.fraction ≤ k
    · exact ⟨_, units_eq (Nat.le_of_lt hk) (.inr hfirst)⟩
    · -- There is room for one digit of the power in the significand.
      have hdouble : 2 * k < 2 ^ (f.fraction + 1) := by
        rw [Nat.pow_succ]
        omega
      obtain ⟨m, hm⟩ := ih hdouble
      exact ⟨m, by rw [hm, Nat.pow_succ]; ring⟩

theorem units_form (f : Format) (m : Nat) :
    ∃ k s, f.units m = k * 2 ^ s ∧ k < 2 ^ (f.fraction + 1) := by
  have hr : m % 2 ^ f.fraction < 2 ^ f.fraction := Nat.mod_lt m (Nat.pow_pos (by decide))
  simp only [units, Nat.pow_eq]
  split
  · exact ⟨_, 0, (Nat.mul_one _).symm, by rw [Nat.pow_succ]; omega⟩
  · exact ⟨_, _, rfl, by rw [Nat.pow_succ]; omega⟩

/-- The remainder of two magnitudes is a magnitude: it is a multiple of the
smaller of the two powers of two, and less than the magnitude that has it. -/
theorem exists_units_mod (m : Nat) {n : Nat} (hn : 0 < f.units n) :
    ∃ r, f.units r = f.units m % f.units n := by
  obtain ⟨k, s, hm, hk⟩ := f.units_form m
  obtain ⟨l, t, hn', hl⟩ := f.units_form n
  rw [hn'] at hn
  rw [hm, hn']
  rcases Nat.le_total s t with hst | hts
  · obtain ⟨d, rfl⟩ := Nat.exists_eq_add_of_le hst
    rw [Nat.pow_add, ← Nat.mul_assoc, Nat.mul_right_comm, Nat.mul_mod_mul_right]
    exact exists_units_eq (Nat.lt_of_le_of_lt (Nat.mod_le _ _) hk) s
  · obtain ⟨d, rfl⟩ := Nat.exists_eq_add_of_le hts
    rw [Nat.pow_add, ← Nat.mul_assoc, Nat.mul_right_comm, Nat.mul_mod_mul_right]
    have hpos : 0 < l := Nat.pos_of_mul_pos_right hn
    exact exists_units_eq (Nat.lt_trans (Nat.mod_lt _ hpos) hl) t

end Format

namespace Binary

variable {f : Format} {x y : Binary f}

/-- Neither infinite nor NaN. -/
def IsFinite (x : Binary f) : Prop := x.magnitude < f.infinity

instance (x : Binary f) : Decidable x.IsFinite := inferInstanceAs (Decidable (_ < _))

theorem IsFinite.isNaN (h : x.IsFinite) : x.isNaN = false := isNaN_eq_false.2 (Nat.le_of_lt h)

theorem IsFinite.isInf (h : x.IsFinite) : x.isInf = false := by
  have hne : x.magnitude ≠ f.infinity := Nat.ne_of_lt h
  simpa [Binary.isInf] using hne

theorem IsFinite.between {z : Binary f} (hx : x.IsFinite) (hz : z.IsFinite) (hxy : x.key ≤ y.key)
    (hyz : y.key ≤ z.key) : y.IsFinite := by
  unfold IsFinite at *
  unfold key at hxy hyz
  split at hxy <;> split at hyz <;> split at hxy <;> omega

theorem IsFinite.round_units (hf : 0 < f.fraction) (h : x.IsFinite) :
    round x.negative x.units 1 = x := by
  obtain ⟨s, m, hm⟩ := x
  have hmin : min m f.infinity = m := Nat.min_eq_left (Nat.le_of_lt h)
  simp [round, units, Format.magnitudeOf_units hf, ofMagnitude, hmin]

theorem IsFinite.nearest (hf : 0 < f.fraction) (h : x.IsFinite) :
    Nearest ((x.toUnits / f.one : ℝ) : EReal) x := by
  refine .inr (.inr ⟨x.negative, x.units, 1, Nat.one_pos, ?_, (h.round_units hf).symm⟩)
  rw [EReal.coe_eq_coe_iff, quotient, toUnits]
  split <;> simp [neg_div]

theorem Nearest.key_le {n n' : Int} {z z' : Binary f}
    (h : Nearest ((n / f.one : ℝ) : EReal) z) (h' : Nearest ((n' / f.one : ℝ) : EReal) z')
    (hle : n ≤ n') : z.key ≤ z'.key := by
  refine h.mono h' (EReal.coe_le_coe_iff.2 ?_)
  exact div_le_div_of_nonneg_right (by exact_mod_cast hle) (Nat.cast_nonneg _)

theorem zero_units_nearest :
    Nearest (((0 : Int) / f.one : ℝ) : EReal) (ofMagnitude false 0 : Binary f) := by
  simpa using zero_nearest (f := f) false

theorem add_of_finite (hx : x.IsFinite) (hy : y.IsFinite) :
    x.add y = ofUnits (x.negative && y.negative) (x.toUnits + y.toUnits) := by
  simp [add, hx.isNaN, hy.isNaN, hx.isInf, hy.isInf]

/-- The truncated remainder is exact. -/
theorem mod_toUnits (hf : 0 < f.fraction) (hx : x.IsFinite) (hy : y.IsFinite)
    (hz : y.isZero = false) :
    (x.mod y).IsFinite ∧ (x.mod y).toUnits = x.toUnits.tmod y.toUnits := by
  have hmod : x.mod y = round x.negative (x.units % y.units) 1 := by
    simp [mod, hx.isNaN, hy.isNaN, hx.isInf, hy.isInf, hz]
  obtain ⟨r, hr⟩ := Format.exists_units_mod (f := f) x.magnitude (units_pos hz)
  have hle : r ≤ x.magnitude := Format.units_le_units_iff.1 (hr ▸ Nat.mod_le _ _)
  have hfin : r < f.infinity := Nat.lt_of_le_of_lt hle hx
  have hmag : (x.mod y).magnitude = r := by
    have hround : f.magnitudeOf (x.units % y.units) 1 = r := by
      rw [units, units, ← hr, Format.magnitudeOf_units hf]
    rw [hmod, round, ofMagnitude, hround]
    exact Nat.min_eq_left (Nat.le_of_lt hfin)
  have hneg : (x.mod y).negative = x.negative := by rw [hmod, round, ofMagnitude]
  have hunits : (x.mod y).units = x.units % y.units := by rw [units, hmag, hr, units, units]
  refine ⟨by rwa [IsFinite, hmag], ?_⟩
  have htmod : ((x.units % y.units : Nat) : Int) = (x.units : Int).tmod y.units := rfl
  rw [toUnits, toUnits, toUnits, hneg, hunits, htmod]
  cases x.negative <;> cases y.negative <;> simp

theorem toUnits_eq_or_neg (x : Binary f) : x.toUnits = x.units ∨ x.toUnits = -x.units := by
  unfold toUnits
  split
  · exact .inr rfl
  · exact .inl rfl

theorem toUnits_abs (x : Binary f) : x.abs.toUnits = x.units := by simp [toUnits, abs, units]

theorem zero_le_toUnits : 0 ≤ x.toUnits ↔ 0 ≤ x.key := by
  have hzero := toUnits_le_toUnits (x := .zero) (y := x)
  have hunits : (zero : Binary f).toUnits = 0 := by
    simp [zero, ofMagnitude, toUnits, units, Format.units_zero]
  have hkey : (zero : Binary f).key = 0 := by simp [zero, ofMagnitude, key]
  rwa [hunits, hkey] at hzero

end Binary

theorem emod_of_tmod {a b : Int} (hb : b ≠ 0) :
    a % b = if a.tmod b < 0 then a.tmod b + b.natAbs else a.tmod b := by
  rw [Int.emod_eq_tmod]
  by_cases hcases : 0 ≤ a ∨ b ∣ a
  · have hnonneg : 0 ≤ a.tmod b := by
      rcases hcases with ha | hdvd
      · exact Int.tmod_nonneg b ha
      · rw [Int.tmod_eq_zero_of_dvd hdvd]
    rw [if_pos hcases, if_neg (by omega)]
    simp
  · have hlt := Int.emod_lt a hb
    rw [Int.emod_eq_tmod, if_neg hcases] at hlt
    rw [if_neg hcases, if_pos (by omega)]

/-- The euclidean remainder is the number nearest to the exact one. -/
theorem Scalar.mod_nearest {x y : Binary64} (hx : x.IsFinite) (hy : y.IsFinite)
    (hz : y.isZero = false) :
    Binary.Nearest (((x.toUnits % y.units : Int) / Format.binary64.one : ℝ) : EReal)
      (Scalar.mod x y) := by
  have hf : 0 < Format.binary64.fraction := by decide
  obtain ⟨hr, htmod⟩ := Binary.mod_toUnits hf hx hy hz
  have hlt : (x.mod y).lt (.ofInt 0) = decide ((x.mod y).toUnits < 0) := by
    have hsign := Binary.zero_le_toUnits (x := x.mod y)
    rw [Binary.lt_ofInt_zero hr.isNaN, decide_eq_decide]
    omega
  have hpos := Binary.units_pos hz
  have hsign : x.toUnits.tmod y.toUnits = x.toUnits.tmod y.units := by
    rcases y.toUnits_eq_or_neg with h | h <;> simp [h]
  have hexact : x.toUnits % y.units = if (x.mod y).toUnits < 0
      then (x.mod y).toUnits + y.abs.toUnits else (x.mod y).toUnits := by
    rw [htmod, hsign, y.toUnits_abs, emod_of_tmod (by omega), Int.natAbs_natCast]
  show Binary.Nearest _
    (if (x.mod y).lt (.ofInt 0) then (x.mod y).add y.abs else x.mod y)
  rw [hexact, hlt]
  by_cases hneg : (x.mod y).toUnits < 0
  · simp only [hneg, decide_true, if_true]
    rw [Binary.add_of_finite hr (y := y.abs) hy]
    exact Binary.ofUnits_nearest _ _
  · simp only [hneg, decide_false, Bool.false_eq_true, if_false]
    exact hr.nearest hf

namespace Scalar

variable {x x' y : Binary64}

/-- Within one period the remainder grows with the dividend. -/
theorem mod_key_le (hx : x.IsFinite) (hx' : x'.IsFinite) (hy : y.IsFinite) (hz : y.isZero = false)
    (hle : x.key ≤ x'.key) (hperiod : x.toUnits / (y.units : Int) = x'.toUnits / (y.units : Int)) :
    (mod x y).key ≤ (mod x' y).key := by
  refine (mod_nearest hx hy hz).key_le (mod_nearest hx' hy hz) ?_
  have hunits := Binary.toUnits_le_toUnits.2 hle
  rw [Int.emod_def, Int.emod_def, hperiod]
  omega

/-- A remainder is a number from zero to the absolute value of the divisor. -/
theorem mod_key_bounds (hx : x.IsFinite) (hy : y.IsFinite) (hz : y.isZero = false) :
    (mod x y).isNaN = false ∧ 0 ≤ (mod x y).key ∧ (mod x y).key ≤ y.abs.key := by
  have hmod := mod_nearest hx hy hz
  have hpos : (0 : Int) < y.units := by exact_mod_cast Binary.units_pos hz
  have hself : Binary.Nearest ((y.abs.toUnits / Format.binary64.one : ℝ) : EReal) y.abs :=
    Binary.IsFinite.nearest (x := y.abs) (by decide) hy
  rw [y.toUnits_abs] at hself
  refine ⟨hmod.isNaN, ?_, hmod.key_le hself (Int.emod_lt_of_pos _ hpos).le⟩
  have hnonneg := Binary.zero_units_nearest.key_le hmod (Int.emod_nonneg _ hpos.ne')
  simpa [Binary.ofMagnitude, Binary.key] using hnonneg

end Scalar

end ScalarField
