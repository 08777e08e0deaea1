/-
The values of numbers, as extended reals. Numbers compare as their values do
(`Binary.value_le_value`), and each operation gives the number nearest to its
exact result on the values (`Binary.add_nearest`, `mul_nearest`,
`div_nearest`); the number nearest to a greater value is not smaller
(`Binary.Nearest.mono`). An extended product of zero and infinity is zero, so
that the exact result is defined and monotone even where the operation is not.
-/
import Mathlib.Data.EReal.Inv
import ScalarField.Proofs.Number.Rounding

namespace ScalarField

/-! ## Magnitudes -/

namespace Format

variable {f : Format}

theorem one_pos : 0 < f.one := Nat.pow_pos (by decide)

theorem units_lt_units {m n : Nat} (h : m < n) : f.units m < f.units n := by
  have hpos : 0 < 2 ^ f.fraction := Nat.pow_pos (by decide)
  have hm := Nat.div_add_mod m (2 ^ f.fraction)
  have hn := Nat.div_add_mod n (2 ^ f.fraction)
  have hrm := Nat.mod_lt m hpos
  have hrn := Nat.mod_lt n hpos
  have hle : m / 2 ^ f.fraction ≤ n / 2 ^ f.fraction := Nat.div_le_div_right h.le
  simp only [units, Nat.pow_eq]
  generalize m / 2 ^ f.fraction = e at *
  generalize n / 2 ^ f.fraction = e' at *
  generalize m % 2 ^ f.fraction = r at *
  generalize n % 2 ^ f.fraction = r' at *
  rcases Nat.lt_or_eq_of_le hle with hlt | rfl
  · -- The next exponent starts where twice the significands end.
    have hone : 1 ≤ 2 ^ (e' - 1) := Nat.one_le_two_pow
    rw [if_neg (by omega : e' ≠ 0)]
    by_cases he : e = 0
    · rw [if_pos he]
      nlinarith
    · rw [if_neg he]
      have hpow : 2 ^ (e - 1) * 2 ≤ 2 ^ (e' - 1) := by
        rw [← Nat.pow_succ]
        exact Nat.pow_le_pow_right (by decide) (by omega)
      have hpos' : 0 < 2 ^ (e - 1) := Nat.pow_pos (by decide)
      calc (2 ^ f.fraction + r) * 2 ^ (e - 1) < 2 ^ f.fraction * (2 ^ (e - 1) * 2) := by nlinarith
        _ ≤ 2 ^ f.fraction * 2 ^ (e' - 1) := Nat.mul_le_mul_left _ hpow
        _ ≤ (2 ^ f.fraction + r') * 2 ^ (e' - 1) := Nat.mul_le_mul_right _ (by omega)
  · have hr : r < r' := by omega
    by_cases he : e = 0
    · rwa [if_pos he, if_pos he]
    · rw [if_neg he, if_neg he]
      exact Nat.mul_lt_mul_of_pos_right (by omega) (Nat.pow_pos (by decide))

theorem units_le_units_iff {m n : Nat} : f.units m ≤ f.units n ↔ m ≤ n := by
  constructor
  · intro h
    by_contra hlt
    exact absurd (units_lt_units (f := f) (Nat.lt_of_not_le hlt)) (by omega)
  · intro h
    rcases Nat.lt_or_eq_of_le h with hlt | rfl
    · exact (units_lt_units hlt).le
    · exact le_rfl

theorem units_zero : f.units 0 = 0 := by simp [units]

end Format

/-! ## Values -/

namespace Binary

variable {f : Format}

/-- The value of a number; a NaN has none, and what is said of it here means
nothing. -/
noncomputable def value (x : Binary f) : EReal :=
  if x.isInf then (if x.negative then ⊥ else ⊤) else ((x.toUnits / f.one : ℝ) : EReal)

theorem isNaN_eq_false {x : Binary f} : x.isNaN = false ↔ x.magnitude ≤ f.infinity := by
  simp [isNaN]

theorem isInf_eq_true {x : Binary f} : x.isInf = true ↔ x.magnitude = f.infinity := by
  simp [isInf]

theorem value_of_finite {x : Binary f} (h : x.isInf = false) :
    x.value = ((x.toUnits / f.one : ℝ) : EReal) := by
  simp [value, h]

theorem value_of_isInf {x : Binary f} (h : x.isInf = true) :
    x.value = if x.negative then ⊥ else ⊤ := by
  simp [value, h]

theorem toUnits_le_toUnits {x y : Binary f} : x.toUnits ≤ y.toUnits ↔ x.key ≤ y.key := by
  have h1 := Format.units_le_units_iff (f := f) (m := x.magnitude) (n := y.magnitude)
  have h2 := Format.units_le_units_iff (f := f) (m := y.magnitude) (n := x.magnitude)
  have h3 := Format.units_le_units_iff (f := f) (m := x.magnitude) (n := 0)
  have h4 := Format.units_le_units_iff (f := f) (m := y.magnitude) (n := 0)
  have h0 := Format.units_zero (f := f)
  simp only [toUnits, key, units]
  cases x.negative <;> cases y.negative <;> simp <;> omega

theorem le_eq_true {x y : Binary f} :
    x.le y = true ↔ x.isNaN = false ∧ y.isNaN = false ∧ x.key ≤ y.key := by
  simp [le, ordered, and_assoc]

theorem lt_eq_true {x y : Binary f} :
    x.lt y = true ↔ x.isNaN = false ∧ y.isNaN = false ∧ x.key < y.key := by
  simp [lt, ordered, and_assoc]

theorem eq_eq_true {x y : Binary f} :
    x.eq y = true ↔ x.isNaN = false ∧ y.isNaN = false ∧ x.key = y.key := by
  simp [eq, ordered, and_assoc]

theorem lt_ofInt_zero {x : Binary f} (h : x.isNaN = false) :
    x.lt (.ofInt 0) = decide (x.key < 0) := by
  have hnum : (ofInt 0 : Binary f).isNaN = false := by simp [ofInt, ofUnits, ofMagnitude, isNaN]
  have hkey : (ofInt 0 : Binary f).key = 0 := by simp [ofInt, ofUnits, ofMagnitude, key]
  simp [lt, ordered, h, hnum, hkey]

theorem key_bounds {x : Binary f} (h : x.isNaN = false) :
    -(f.infinity : Int) ≤ x.key ∧ x.key ≤ f.infinity := by
  have := isNaN_eq_false.1 h
  unfold key
  split <;> omega

theorem value_le_value {x y : Binary64} (h : x.le y = true) : x.value ≤ y.value := by
  obtain ⟨hx, hy, hkey⟩ := le_eq_true.1 h
  have hone : (0 : ℝ) < Format.binary64.one := by exact_mod_cast Format.one_pos
  have hinf : 0 < Format.binary64.infinity := by decide
  have hxm := isNaN_eq_false.1 hx
  have hym := isNaN_eq_false.1 hy
  rcases hxi : x.isInf with _ | _
  · have hxne : x.magnitude ≠ Format.binary64.infinity := by simpa [isInf] using hxi
    rcases hyi : y.isInf with _ | _
    · rw [value_of_finite hxi, value_of_finite hyi, EReal.coe_le_coe_iff]
      exact div_le_div_of_nonneg_right (by exact_mod_cast toUnits_le_toUnits.2 hkey) hone.le
    · have hye := isInf_eq_true.1 hyi
      rcases hyn : y.negative with _ | _
      · rw [value_of_isInf hyi, hyn]
        exact le_top
      · -- Nothing finite lies below negative infinity.
        exfalso
        simp only [key, hyn, if_true, hye] at hkey
        split at hkey <;> omega
  · have hxe := isInf_eq_true.1 hxi
    rcases hxn : x.negative with _ | _
    · have hyt : y.value = ⊤ := by
        simp only [key, hxn, hxe] at hkey
        have hyn : y.negative = false := by
          cases hyn : y.negative with
          | false => rfl
          | true => simp [hyn] at hkey; omega
        have hyi : y.isInf = true := isInf_eq_true.2 (by simp [hyn] at hkey; omega)
        simp [value, hyi, hyn]
      rw [hyt]
      exact le_top
    · rw [value_of_isInf hxi, hxn]
      exact bot_le

/-! ## The nearest number -/

theorem round_isNaN (s : Bool) (n d : Nat) : (round s n d : Binary f).isNaN = false := by
  simp [isNaN, round, ofMagnitude]

theorem infinity_isNaN (s : Bool) : (infinity s : Binary f).isNaN = false := by
  simp [isNaN, infinity, ofMagnitude]

theorem round_key (s : Bool) (n d : Nat) : (round s n d : Binary f).key =
    if s then -((min (f.magnitudeOf n d) f.infinity : Nat) : Int)
    else ((min (f.magnitudeOf n d) f.infinity : Nat) : Int) := rfl

theorem infinity_key (s : Bool) : (infinity s : Binary f).key =
    if s then -(f.infinity : Int) else (f.infinity : Int) := by
  simp [infinity, ofMagnitude, key]

/-- The signed quotient `n / d`, in units, as a real. -/
noncomputable def quotient (f : Format) (s : Bool) (n d : Nat) : ℝ :=
  (if s then -1 else 1) * ((n : ℝ) / d / f.one)

/-- A number is the rounding of a value: infinite if the value is, and the
rounding of a quotient that is the value otherwise. -/
def Nearest (e : EReal) (z : Binary f) : Prop :=
  (e = ⊤ ∧ z = infinity false) ∨ (e = ⊥ ∧ z = infinity true) ∨
    ∃ (s : Bool) (n d : Nat), 0 < d ∧ e = (quotient f s n d : EReal) ∧ z = round s n d

theorem Nearest.isNaN {e : EReal} {z : Binary f} (h : Nearest e z) : z.isNaN = false := by
  rcases h with ⟨-, rfl⟩ | ⟨-, rfl⟩ | ⟨s, n, d, -, -, rfl⟩
  · exact infinity_isNaN false
  · exact infinity_isNaN true
  · exact round_isNaN s n d

theorem magnitudeOf_zero (d : Nat) : f.magnitudeOf 0 d = 0 := by
  simp [Format.magnitudeOf, Format.step, roundDiv, Tie.toEven]

theorem round_key_mono {s s' : Bool} {n d n' d' : Nat} (hd : 0 < d) (hd' : 0 < d')
    (h : quotient f s n d ≤ quotient f s' n' d') :
    (round s n d : Binary f).key ≤ (round s' n' d' : Binary f).key := by
  have hone : (0 : ℝ) < f.one := by exact_mod_cast Format.one_pos
  have cross : ∀ {a b a' b' : Nat}, 0 < b → 0 < b' →
      (a : ℝ) / b / f.one ≤ (a' : ℝ) / b' / f.one → a * b' ≤ a' * b := by
    intro a b a' b' hb hb' hab
    have hb : (0 : ℝ) < b := by exact_mod_cast hb
    have hb' : (0 : ℝ) < b' := by exact_mod_cast hb'
    rw [div_le_div_iff_of_pos_right hone, div_le_div_iff₀ hb hb'] at hab
    exact_mod_cast hab
  rw [round_key, round_key]
  cases s <;> cases s' <;> simp only [quotient, if_true, Bool.false_eq_true, if_false, one_mul,
    neg_mul] at h ⊢
  · have := Format.magnitudeOf_mono (f := f) hd hd' (cross hd hd' h)
    omega
  · -- A quotient that is at most a negative one is zero, and so is the other.
    have h1 : 0 ≤ (n : ℝ) / d / f.one := by positivity
    have h2 : 0 ≤ (n' : ℝ) / d' / f.one := by positivity
    have hz : n * 1 ≤ 0 * d := cross hd one_pos (by simpa using h.trans (neg_nonpos.2 h2))
    have hz' : n' * 1 ≤ 0 * d' := cross hd' one_pos (by simpa using neg_nonneg.1 (h1.trans h))
    obtain rfl : n = 0 := by omega
    obtain rfl : n' = 0 := by omega
    simp [magnitudeOf_zero]
  · omega
  · have := Format.magnitudeOf_mono (f := f) hd' hd (cross hd' hd (neg_le_neg_iff.1 h))
    omega

/-- The number nearest to a greater value is not smaller. -/
theorem Nearest.mono {e e' : EReal} {z z' : Binary f} (h : Nearest e z) (h' : Nearest e' z')
    (hle : e ≤ e') : z.key ≤ z'.key := by
  have hz := key_bounds h.isNaN
  have hz' := key_bounds h'.isNaN
  rcases h with ⟨rfl, rfl⟩ | ⟨rfl, rfl⟩ | ⟨s, n, d, hd, rfl, rfl⟩
  · rcases h' with ⟨-, rfl⟩ | ⟨rfl, -⟩ | ⟨s', n', d', hd', rfl, rfl⟩
    · exact le_rfl
    · simp at hle
    · simp at hle
  · rw [infinity_key]
    simpa using hz'.1
  · rcases h' with ⟨-, rfl⟩ | ⟨rfl, -⟩ | ⟨s', n', d', hd', rfl, rfl⟩
    · rw [infinity_key]
      simpa using hz.2
    · simp at hle
    · exact round_key_mono hd hd' (EReal.coe_le_coe_iff.1 hle)

/-! ## Operations -/

theorem neg_key (x : Binary f) : x.neg.key = -x.key := by
  rcases hs : x.negative with _ | _ <;> simp [key, neg, hs]

theorem toUnits_neg (x : Binary f) : x.neg.toUnits = -x.toUnits := by
  rcases hs : x.negative with _ | _ <;> simp [toUnits, neg, units, hs]

theorem value_neg (x : Binary f) : x.neg.value = -x.value := by
  have hinf : x.neg.isInf = x.isInf := rfl
  rcases hx : x.isInf with _ | _
  · rw [value_of_finite hx, value_of_finite (hinf.trans hx), toUnits_neg, ← EReal.coe_neg,
      EReal.coe_eq_coe_iff]
    push_cast
    rw [neg_div]
  · have hneg : x.neg.negative = !x.negative := rfl
    rcases hs : x.negative with _ | _ <;> simp [value, hinf, hx, hneg, hs]

theorem zero_nearest (s : Bool) : Nearest 0 (ofMagnitude s 0 : Binary f) := by
  refine .inr (.inr ⟨s, 0, 1, one_pos, by simp [quotient], ?_⟩)
  rw [round, magnitudeOf_zero]

theorem ofUnits_nearest (z : Bool) (n : Int) :
    Nearest ((n / f.one : ℝ) : EReal) (ofUnits z n : Binary f) := by
  unfold ofUnits
  split
  · rename_i h
    simpa [h] using zero_nearest z
  · refine .inr (.inr ⟨_, _, 1, one_pos, ?_, rfl⟩)
    have habs : ((n.natAbs : Nat) : ℝ) = |(n : ℝ)| := by simp
    rw [EReal.coe_eq_coe_iff, quotient, habs]
    rcases lt_or_ge n 0 with hneg | hpos
    · have : (n : ℝ) < 0 := by exact_mod_cast hneg
      simp [hneg, abs_of_neg this, neg_div]
    · have : (0 : ℝ) ≤ n := by exact_mod_cast hpos
      simp [not_lt.2 hpos, abs_of_nonneg this]

theorem units_pos {x : Binary f} (h : x.isZero = false) : 0 < x.units := by
  have hne : 0 < x.magnitude := by
    have : x.magnitude ≠ 0 := by simpa [isZero] using h
    omega
  simpa [units, Format.units_zero] using Format.units_lt_units (f := f) hne

theorem nan_isNaN : (nan : Binary64).isNaN = true := by decide +kernel

theorem eq_infinity {x : Binary f} (h : x.isInf = true) : x = infinity x.negative := by
  obtain ⟨s, m, hm⟩ := x
  obtain rfl : m = f.infinity := by simpa [isInf] using h
  simp [infinity, ofMagnitude]

theorem infinity_nearest (s : Bool) : Nearest (if s then ⊥ else ⊤) (infinity s : Binary f) := by
  cases s
  · exact .inl ⟨rfl, rfl⟩
  · exact .inr (.inl ⟨rfl, rfl⟩)

theorem nearest_of_isInf {x : Binary f} (h : x.isInf = true) : Nearest x.value x := by
  have hinf := infinity_nearest (f := f) x.negative
  rwa [← value_of_isInf h, ← eq_infinity h] at hinf

/-- A sum that is a number is the one nearest to the sum of the values. -/
theorem add_nearest {x y : Binary64} (h : (x.add y).isNaN = false) :
    Nearest (x.value + y.value) (x.add y) := by
  unfold add at h ⊢
  split at h
  · simp [nan_isNaN] at h
  · rename_i hnan
    rw [if_neg hnan]
    rcases hx : x.isInf with _ | _
    · rcases hy : y.isInf with _ | _
      · simp only [Bool.false_eq_true, if_false, value_of_finite hx, value_of_finite hy,
          ← EReal.coe_add, ← add_div]
        exact_mod_cast ofUnits_nearest _ _
      · simp only [Bool.false_eq_true, if_false, if_true]
        have hsum : x.value + y.value = y.value := by
          obtain ⟨u, hu⟩ : ∃ u : ℝ, x.value = u := ⟨_, value_of_finite hx⟩
          rw [hu, value_of_isInf hy]
          cases y.negative <;> simp
        rw [hsum]
        exact nearest_of_isInf hy
    · have hsum : x.value + y.value = x.value ∧
          ¬(y.isInf && x.negative != y.negative) = true := by
        rw [value_of_isInf hx]
        rcases hy : y.isInf with _ | _
        · obtain ⟨u, hu⟩ : ∃ u : ℝ, y.value = u := ⟨_, value_of_finite hy⟩
          rw [hu]
          cases x.negative <;> simp
        · rw [value_of_isInf hy]
          rcases hxs : x.negative with _ | _ <;> rcases hys : y.negative with _ | _ <;>
            simp [hx, hy, hxs, hys, nan_isNaN] at h ⊢
      simp only [if_true, if_neg hsum.2]
      rw [hsum.1]
      exact nearest_of_isInf hx

theorem value_eq_zero {x : Binary f} (hi : x.isInf = false) (hz : x.isZero = true) :
    x.value = 0 := by
  have hm : x.magnitude = 0 := by simpa [isZero] using hz
  simp [value_of_finite hi, toUnits, units, hm, Format.units_zero]

theorem value_sign {x : Binary f} (hz : x.isZero = false) :
    if x.negative then x.value < 0 else 0 < x.value := by
  have hone : (0 : ℝ) < f.one := by exact_mod_cast Format.one_pos
  have hpos : (0 : ℝ) < x.units := by exact_mod_cast units_pos hz
  rcases hi : x.isInf with _ | _
  · rw [value_of_finite hi]
    rcases hs : x.negative with _ | _
    · simpa [toUnits, hs] using div_pos hpos hone
    · simp only [toUnits, hs, if_true, Int.cast_neg, Int.cast_natCast, neg_div]
      exact_mod_cast neg_neg_of_pos (div_pos hpos hone)
  · rw [value_of_isInf hi]
    rcases x.negative with _ | _ <;> simp

/-- A product that is a number is the one nearest to the product of the
values. -/
theorem mul_nearest {x y : Binary64} (h : (x.mul y).isNaN = false) :
    Nearest (x.value * y.value) (x.mul y) := by
  unfold mul at h ⊢
  simp only at h ⊢
  split at h
  · simp [nan_isNaN] at h
  · rename_i hnan
    rw [if_neg hnan]
    split at h
    · rename_i hinf
      rw [if_pos hinf]
      split at h
      · simp [nan_isNaN] at h
      · rename_i hz
        rw [if_neg hz]
        simp only [Bool.or_eq_true, not_or, Bool.not_eq_true] at hz
        have hprod : x.value * y.value =
            if (x.negative != y.negative) = true then ⊥ else ⊤ := by
          have hxs := value_sign hz.1
          have hys := value_sign hz.2
          rcases Bool.or_eq_true_iff.1 hinf with hi | hi
          · rw [value_of_isInf hi] at hxs ⊢
            rcases hx : x.negative with _ | _ <;> rcases hy : y.negative with _ | _ <;>
              simp only [hy, if_true, Bool.false_eq_true, if_false] at hys ⊢ <;>
              simp [EReal.top_mul_of_pos, EReal.top_mul_of_neg, EReal.bot_mul_of_pos,
                EReal.bot_mul_of_neg, hys]
          · rw [value_of_isInf hi] at hys ⊢
            rcases hx : x.negative with _ | _ <;> rcases hy : y.negative with _ | _ <;>
              simp only [hx, if_true, Bool.false_eq_true, if_false] at hxs ⊢ <;>
              simp [EReal.mul_top_of_pos, EReal.mul_top_of_neg, EReal.mul_bot_of_pos,
                EReal.mul_bot_of_neg, hxs]
        rw [hprod]
        exact infinity_nearest _
    · rename_i hinf
      rw [if_neg hinf]
      simp only [Bool.or_eq_true, not_or, Bool.not_eq_true] at hinf
      refine .inr (.inr ⟨_, _, _, Format.one_pos, ?_, rfl⟩)
      rw [value_of_finite hinf.1, value_of_finite hinf.2, ← EReal.coe_mul, EReal.coe_eq_coe_iff]
      simp only [quotient, toUnits]
      generalize Format.binary64.one = u
      rcases hx : x.negative with _ | _ <;> rcases hy : y.negative with _ | _ <;> simp <;> ring

/-- A quotient that is a number, of a divisor that is not zero, is the one
nearest to the quotient of the values. -/
theorem div_nearest {x y : Binary64} (hz : y.isZero = false) (h : (x.div y).isNaN = false) :
    Nearest (x.value / y.value) (x.div y) := by
  have hys := value_sign hz
  unfold div at h ⊢
  simp only at h ⊢
  split at h
  · simp [nan_isNaN] at h
  · rename_i hnan
    rw [if_neg hnan]
    rcases hx : x.isInf with _ | _
    · rcases hy : y.isInf with _ | _
      · simp only [Bool.false_eq_true, if_false, hz]
        refine .inr (.inr ⟨_, _, _, units_pos hz, ?_, rfl⟩)
        have hone : (Format.binary64.one : ℝ) ≠ 0 := by exact_mod_cast Format.one_pos.ne'
        have hu : (y.units : ℝ) ≠ 0 := by exact_mod_cast (units_pos hz).ne'
        rw [value_of_finite hx, value_of_finite hy, ← EReal.coe_div, EReal.coe_eq_coe_iff]
        simp only [quotient, toUnits]
        generalize Format.binary64.one = u at hone ⊢
        rcases hxn : x.negative with _ | _ <;> rcases hyn : y.negative with _ | _ <;> simp <;>
          field_simp
      · simp only [Bool.false_eq_true, if_false, if_true]
        have hquot : x.value / y.value = 0 := by
          rw [value_of_isInf hy]
          cases y.negative <;> simp
        rw [hquot]
        exact zero_nearest _
    · rcases hy : y.isInf with _ | _
      · simp only [Bool.false_eq_true, if_false, if_true]
        have hquot : x.value / y.value =
            if (x.negative != y.negative) = true then ⊥ else ⊤ := by
          rw [value_of_isInf hx]
          have htop : y.value ≠ ⊤ := by rw [value_of_finite hy]; exact EReal.coe_ne_top _
          have hbot : y.value ≠ ⊥ := by rw [value_of_finite hy]; exact EReal.coe_ne_bot _
          rcases hxn : x.negative with _ | _ <;> rcases hyn : y.negative with _ | _ <;>
            simp only [hyn, if_true, Bool.false_eq_true, if_false] at hys ⊢ <;>
            simp [EReal.top_div_of_pos_ne_top, EReal.top_div_of_neg_ne_bot,
              EReal.bot_div_of_pos_ne_top, EReal.bot_div_of_neg_ne_bot, hys, htop, hbot]
        rw [hquot]
        exact infinity_nearest _
      · simp [hx, hy, nan_isNaN] at h

end Binary

end ScalarField
