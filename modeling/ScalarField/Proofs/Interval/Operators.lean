/-
Operators on intervals enclose the operators on numbers: if the operands lie
in the intervals, the result lies in the interval of the result, as long as
that interval has no NaN bound and the result is a number. Bounds are compared
exactly; no operator needs a tolerance, because rounding keeps order.
-/
import ScalarField.Eval.Interval
import ScalarField.Proofs.Number.Monotone

namespace ScalarField

namespace Interval

theorem contains_iff {a : Interval} {v : Binary64} :
    a.contains v = true ↔ a.lo.isNaN = false ∧ a.hi.isNaN = false ∧ v.isNaN = false ∧
      a.lo.key ≤ v.key ∧ v.key ≤ a.hi.key := by
  simp only [contains, Bool.and_eq_true, Binary.le_eq_true]
  tauto

theorem hasNaN_eq_false {a : Interval} :
    a.hasNaN = false ↔ a.lo.isNaN = false ∧ a.hi.isNaN = false := by
  simp [hasNaN]

theorem hasNaN_of_contains {a : Interval} {v : Binary64} (h : a.contains v = true) :
    a.hasNaN = false := by
  obtain ⟨hlo, hhi, -⟩ := contains_iff.1 h
  exact hasNaN_eq_false.2 ⟨hlo, hhi⟩

theorem zero_key : (Binary.zero : Binary64).key = 0 := by decide

theorem zero_isNaN : (Binary.zero : Binary64).isNaN = false := by decide

theorem one_eq : (Binary.one : Binary64) = .ofMagnitude false 0x3ff0000000000000 := by
  decide +kernel

theorem one_key_pos : 0 < (Binary.one : Binary64).key := by
  rw [one_eq]
  decide

theorem one_isNaN : (Binary.one : Binary64).isNaN = false := by
  rw [one_eq]
  decide

theorem one_isInf : (Binary.one : Binary64).isInf = false := by
  rw [one_eq]
  decide

theorem ofInt_zero : (Arith.ofInt 0 : Binary64) = .zero := by decide +kernel

theorem ofInt_one : (Arith.ofInt 1 : Binary64) = .one := rfl

theorem everything_contains {v : Binary64} (hv : v.isNaN = false) :
    everything.contains v = true := by
  have hb := Binary.key_bounds hv
  refine contains_iff.2 ⟨Binary.infinity_isNaN _, Binary.infinity_isNaN _, hv, ?_, ?_⟩
  · simpa [everything, Binary.infinity_key] using hb.1
  · simpa [everything, Binary.infinity_key] using hb.2

theorem straddles_iff {a : Interval} (h : a.hasNaN = false) :
    a.straddles = true ↔ a.lo.key ≤ 0 ∧ 0 ≤ a.hi.key := by
  obtain ⟨hlo, hhi⟩ := hasNaN_eq_false.1 h
  simp [straddles, Binary.le_eq_true, hlo, hhi, zero_isNaN, zero_key]

theorem isZero_iff {a : Interval} (h : a.hasNaN = false) :
    a.isZero = true ↔ a.lo.key = 0 ∧ a.hi.key = 0 := by
  obtain ⟨hlo, hhi⟩ := hasNaN_eq_false.1 h
  simp [isZero, Binary.eq_eq_true, hlo, hhi, zero_isNaN, zero_key]

theorem isNonzero_iff {a : Interval} (h : a.hasNaN = false) :
    a.isNonzero = true ↔ 0 < a.lo.key ∨ a.hi.key < 0 := by
  obtain ⟨hlo, hhi⟩ := hasNaN_eq_false.1 h
  simp [isNonzero, Binary.lt_eq_true, hlo, hhi, zero_isNaN, zero_key]

/-! ## Operators of one operand -/

section

variable {a : Interval} {v : Binary64}

theorem neg_contains (h : a.contains v = true) :
    (⟨a.hi.neg, a.lo.neg⟩ : Interval).contains v.neg = true := by
  obtain ⟨hlo, hhi, hv, h1, h2⟩ := contains_iff.1 h
  refine contains_iff.2 ⟨hhi, hlo, hv, ?_, ?_⟩ <;> simp only [Binary.neg_key] <;> omega

theorem abs_key (v : Binary64) : v.abs.key = Max.max v.key (-v.key) := by
  have habs : v.abs.key = v.magnitude := by simp [Binary.abs, Binary.key]
  rcases v.key_cases with ⟨-, hk⟩ | ⟨-, hk⟩ <;> omega

theorem abs_keys (hlo : a.lo.isNaN = false) (hhi : a.hi.isNaN = false) :
    a.abs.hasNaN = false ∧ a.abs.lo.key = Max.max (Max.max a.lo.key (-a.hi.key)) 0 ∧
      a.abs.hi.key = Max.max (Max.max a.hi.key (-a.lo.key)) 0 := by
  have h1 : (Scalar.greater a.lo a.hi.neg).isNaN = false := Scalar.greater_isNaN hlo hhi
  have h2 : (Scalar.greater a.hi a.lo.neg).isNaN = false := Scalar.greater_isNaN hhi hlo
  refine ⟨hasNaN_eq_false.2 ⟨Scalar.greater_isNaN h1 zero_isNaN, Scalar.greater_isNaN h2 zero_isNaN⟩,
    ?_, ?_⟩
  · rw [Interval.abs, Scalar.greater_key h1 zero_isNaN, Scalar.greater_key (b := a.hi.neg) hlo hhi,
      Binary.neg_key, zero_key]
  · rw [Interval.abs, Scalar.greater_key h2 zero_isNaN, Scalar.greater_key (b := a.lo.neg) hhi hlo,
      Binary.neg_key, zero_key]

theorem abs_contains (h : a.contains v = true) : a.abs.contains v.abs = true := by
  obtain ⟨hlo, hhi, hv, h1, h2⟩ := contains_iff.1 h
  obtain ⟨hnan, hl, hh⟩ := abs_keys hlo hhi
  obtain ⟨hnl, hnh⟩ := hasNaN_eq_false.1 hnan
  refine contains_iff.2 ⟨hnl, hnh, hv, ?_, ?_⟩
  · rw [hl, abs_key]
    omega
  · rw [hh, abs_key]
    omega

theorem map_contains {t : Bool → Tie} (ht : ∀ s, (t s).Monotone) (h : a.contains v = true) :
    (a.map (·.toIntegral t)).contains (v.toIntegral t) = true := by
  obtain ⟨hlo, hhi, hv, h1, h2⟩ := contains_iff.1 h
  exact contains_iff.2 ⟨Binary.toIntegral_isNaN t hlo, Binary.toIntegral_isNaN t hhi,
    Binary.toIntegral_isNaN t hv, Binary.toIntegral_key_le ht hlo hv h1,
    Binary.toIntegral_key_le ht hv hhi h2⟩

theorem sqrt_contains (h : a.contains v = true) (ha : a.sqrt.hasNaN = false)
    (hv : v.sqrt.isNaN = false) : a.sqrt.contains v.sqrt = true := by
  obtain ⟨hlo, hhi, hvn, h1, h2⟩ := contains_iff.1 h
  unfold sqrt at ha ⊢
  split at ha
  · simp [hasNaN, nan, Binary.nan_isNaN] at ha
  · rename_i hneg
    rw [if_neg hneg]
    obtain ⟨hnl, hnh⟩ := hasNaN_eq_false.1 ha
    have hv0 : 0 ≤ v.key := by
      rcases Binary.sqrt_cases hv with ⟨h0, -⟩ | ⟨-, hs, -⟩
      · rcases v.key_cases with ⟨-, hk⟩ | ⟨-, hk⟩ <;> omega
      · rcases v.key_cases with ⟨-, hk⟩ | ⟨hs', -⟩
        · omega
        · simp [hs] at hs'
    refine contains_iff.2 ⟨hnl, hnh, hv, ?_, ?_⟩
    · refine Binary.sqrt_key_le hnl hv (Binary.le_eq_true.2
        ⟨Scalar.greater_isNaN zero_isNaN hlo, hvn, ?_⟩)
      rw [Scalar.greater_key zero_isNaN hlo, zero_key]
      omega
    · refine Binary.sqrt_key_le hv hnh (Binary.le_eq_true.2
        ⟨hvn, Scalar.greater_isNaN zero_isNaN hhi, ?_⟩)
      rw [Scalar.greater_key zero_isNaN hhi, zero_key]
      omega

theorem isZero_scalar (hv : v.isNaN = false) : Scalar.isZero v = true ↔ v.key = 0 := by
  simp only [Scalar.isZero, ofInt_zero]
  exact Binary.eq_eq_true.trans (by simp [hv, zero_isNaN, zero_key])

theorem isZero_of_contains (h : a.contains v = true) (hz : a.isZero = true) :
    Scalar.isZero v = true := by
  obtain ⟨-, -, hv, h1, h2⟩ := contains_iff.1 h
  have := (isZero_iff (hasNaN_of_contains h)).1 hz
  exact (isZero_scalar hv).2 (by omega)

theorem not_isZero_of_contains (h : a.contains v = true) (hnz : a.isNonzero = true) :
    ¬Scalar.isZero v = true := by
  obtain ⟨-, -, hv, h1, h2⟩ := contains_iff.1 h
  have := (isNonzero_iff (hasNaN_of_contains h)).1 hnz
  rw [isZero_scalar hv]
  omega

theorem splat_contains (hv : v.isNaN = false) : (splat v).contains v = true :=
  contains_iff.2 ⟨hv, hv, hv, le_rfl, le_rfl⟩

theorem bounds_contains {w : Binary64} (hv : v.isNaN = false) (hw : w.isNaN = false)
    (h : v.key ≤ w.key) :
    (mk v w).contains v = true ∧ (mk v w).contains w = true :=
  ⟨contains_iff.2 ⟨hv, hw, hv, le_rfl, h⟩, contains_iff.2 ⟨hv, hw, hw, h, le_rfl⟩⟩

theorem not_contains (h : a.contains v = true) : a.not.contains (Scalar.not v) = true := by
  have hle : (Binary.zero : Binary64).key ≤ (Binary.one : Binary64).key := by
    rw [zero_key]
    exact one_key_pos.le
  have hone : ∀ {b : Interval}, b = splat .one ∨ b = ⟨.zero, .one⟩ →
      b.contains (Arith.ofInt 1) = true := by
    rw [ofInt_one]
    rintro b (rfl | rfl)
    · exact splat_contains one_isNaN
    · exact (bounds_contains zero_isNaN one_isNaN hle).2
  have hzero : ∀ {b : Interval}, b = splat .zero ∨ b = ⟨.zero, .one⟩ →
      b.contains (Arith.ofInt 0) = true := by
    rw [ofInt_zero]
    rintro b (rfl | rfl)
    · exact splat_contains zero_isNaN
    · exact (bounds_contains zero_isNaN one_isNaN hle).1
  unfold Interval.not Scalar.not
  by_cases hvz : Scalar.isZero v = true
  · have hnz : ¬a.isNonzero = true := fun hnz => not_isZero_of_contains h hnz hvz
    rw [if_pos hvz, if_neg hnz]
    split
    · exact hone (.inl rfl)
    · exact hone (.inr rfl)
  · have hz : ¬a.isZero = true := fun hz => hvz (isZero_of_contains h hz)
    rw [if_neg hvz, if_neg hz]
    split
    · exact hzero (.inl rfl)
    · exact hzero (.inr rfl)

end

/-! ## Sums and selections -/

section

variable {a b : Interval} {v w : Binary64}

theorem add_key_le {x x' y y' : Binary64} (h : (x.add y).isNaN = false)
    (h' : (x'.add y').isNaN = false) (hx : x.le x' = true) (hy : y.le y' = true) :
    (x.add y).key ≤ (x'.add y').key :=
  (Binary.add_nearest h).mono (Binary.add_nearest h')
    (add_le_add (Binary.value_le_value hx) (Binary.value_le_value hy))

theorem contains_le {a : Interval} {v : Binary64} (h : a.contains v = true) :
    a.lo.le v = true ∧ v.le a.hi = true := by
  simpa [contains] using h

theorem add_contains (ha : a.contains v = true) (hb : b.contains w = true)
    (hI : (a.add b).hasNaN = false) (hv : (v.add w).isNaN = false) :
    (a.add b).contains (v.add w) = true := by
  obtain ⟨hlo, hhi⟩ := hasNaN_eq_false.1 hI
  obtain ⟨ha1, ha2⟩ := contains_le ha
  obtain ⟨hb1, hb2⟩ := contains_le hb
  exact contains_iff.2 ⟨hlo, hhi, hv, add_key_le hlo hv ha1 hb1, add_key_le hv hhi ha2 hb2⟩

theorem sub_contains (ha : a.contains v = true) (hb : b.contains w = true)
    (hI : (a.sub b).hasNaN = false) (hv : (v.sub w).isNaN = false) :
    (a.sub b).contains (v.sub w) = true := by
  have hsub : a.sub b = a.add ⟨b.hi.neg, b.lo.neg⟩ := by rw [Interval.sub, Interval.add]
  rw [hsub] at hI ⊢
  rw [Binary.sub] at hv ⊢
  exact add_contains ha (neg_contains hb) hI hv

theorem min_eq_lesser {x y : Binary64} (h : (Scalar.min x y).isNaN = false) :
    x.isNaN = false ∧ y.isNaN = false ∧ Scalar.min x y = Scalar.lesser x y := by
  unfold Scalar.min at h ⊢
  split at h
  · exact absurd h (by decide)
  · rename_i hn
    have hn' : x.isNaN = false ∧ y.isNaN = false := by simpa [Arith.isNaN] using hn
    exact ⟨hn'.1, hn'.2, if_neg hn⟩

theorem max_eq_greater {x y : Binary64} (h : (Scalar.max x y).isNaN = false) :
    x.isNaN = false ∧ y.isNaN = false ∧ Scalar.max x y = Scalar.greater x y := by
  unfold Scalar.max at h ⊢
  split at h
  · exact absurd h (by decide)
  · rename_i hn
    have hn' : x.isNaN = false ∧ y.isNaN = false := by simpa [Arith.isNaN] using hn
    exact ⟨hn'.1, hn'.2, if_neg hn⟩

theorem min_key {x y : Binary64} (h : (Scalar.min x y).isNaN = false) :
    (Scalar.min x y).key = Min.min x.key y.key := by
  obtain ⟨hx, hy, heq⟩ := min_eq_lesser h
  rw [heq, Scalar.lesser_key hx hy]

theorem max_key {x y : Binary64} (h : (Scalar.max x y).isNaN = false) :
    (Scalar.max x y).key = Max.max x.key y.key := by
  obtain ⟨hx, hy, heq⟩ := max_eq_greater h
  rw [heq, Scalar.greater_key hx hy]

theorem min_contains (ha : a.contains v = true) (hb : b.contains w = true)
    (hI : (a.min b).hasNaN = false) (hv : (Scalar.min v w).isNaN = false) :
    (a.min b).contains (Scalar.min v w) = true := by
  obtain ⟨hlo, hhi⟩ := hasNaN_eq_false.1 hI
  obtain ⟨-, -, -, ha1, ha2⟩ := contains_iff.1 ha
  obtain ⟨-, -, -, hb1, hb2⟩ := contains_iff.1 hb
  refine contains_iff.2 ⟨hlo, hhi, hv, ?_, ?_⟩
  · rw [Interval.min, min_key hlo, min_key hv]
    omega
  · rw [Interval.min, min_key hhi, min_key hv]
    omega

theorem max_contains (ha : a.contains v = true) (hb : b.contains w = true)
    (hI : (a.max b).hasNaN = false) (hv : (Scalar.max v w).isNaN = false) :
    (a.max b).contains (Scalar.max v w) = true := by
  obtain ⟨hlo, hhi⟩ := hasNaN_eq_false.1 hI
  obtain ⟨-, -, -, ha1, ha2⟩ := contains_iff.1 ha
  obtain ⟨-, -, -, hb1, hb2⟩ := contains_iff.1 hb
  refine contains_iff.2 ⟨hlo, hhi, hv, ?_, ?_⟩
  · rw [Interval.max, max_key hlo, max_key hv]
    omega
  · rw [Interval.max, max_key hhi, max_key hv]
    omega

theorem lt_iff {x y : Binary64} (hx : x.isNaN = false) (hy : y.isNaN = false) :
    x.lt y = true ↔ x.key < y.key := by
  simp [Binary.lt_eq_true, hx, hy]

theorem compare_contains (ha : a.contains v = true) (hb : b.contains w = true) :
    (a.compare b).contains (Scalar.compare v w) = true := by
  obtain ⟨hal, hah, hv, ha1, ha2⟩ := contains_iff.1 ha
  obtain ⟨hbl, hbh, hw, hb1, hb2⟩ := contains_iff.1 hb
  have hnan : ¬(a.hasNaN || b.hasNaN) = true := by simp [hasNaN, hal, hah, hbl, hbh]
  have hnan' : ¬(Arith.isNaN v || Arith.isNaN w) = true := by simp [Arith.isNaN, hv, hw]
  have hlt : ∀ x y : Binary64, Arith.lt x y = x.lt y := fun _ _ => rfl
  unfold Interval.compare Scalar.compare
  rw [if_neg hnan, if_neg hnan', hlt, hlt]
  simp only [lt_iff hah hbl, lt_iff hbh hal, lt_iff hal hbh, lt_iff hbl hah, lt_iff hv hw,
    lt_iff hw hv]
  -- The sign of the difference decides; a sign that the bounds exclude is contradictory.
  rcases lt_trichotomy v.key w.key with h | h | h
  · rw [if_pos h]
    by_cases h1 : a.hi.key < b.lo.key
    · rw [if_pos h1]
      decide +kernel
    · rw [if_neg h1, if_neg (by omega : ¬b.hi.key < a.lo.key),
        if_pos (by omega : a.lo.key < b.hi.key)]
      split <;> decide +kernel
  · rw [if_neg (by omega : ¬v.key < w.key), if_neg (by omega : ¬w.key < v.key),
      if_neg (by omega : ¬a.hi.key < b.lo.key), if_neg (by omega : ¬b.hi.key < a.lo.key)]
    split <;> split <;> decide +kernel
  · rw [if_neg (by omega : ¬v.key < w.key), if_pos h, if_neg (by omega : ¬a.hi.key < b.lo.key)]
    by_cases h1 : b.hi.key < a.lo.key
    · rw [if_pos h1]
      decide +kernel
    · rw [if_neg h1, if_pos (by omega : b.lo.key < a.hi.key)]
      split <;> decide +kernel

theorem hull_contains (hI : (a.hull b).hasNaN = false)
    (h : a.contains v = true ∨ b.contains v = true) : (a.hull b).contains v = true := by
  obtain ⟨hlo, hhi⟩ := hasNaN_eq_false.1 hI
  have hv : v.isNaN = false := by
    rcases h with h | h <;> exact (contains_iff.1 h).2.2.1
  refine contains_iff.2 ⟨hlo, hhi, hv, ?_, ?_⟩
  · rw [hull, min_key hlo]
    rcases h with h | h <;> obtain ⟨-, -, -, h1, h2⟩ := contains_iff.1 h <;> omega
  · rw [hull, max_key hhi]
    rcases h with h | h <;> obtain ⟨-, -, -, h1, h2⟩ := contains_iff.1 h <;> omega

theorem zero_contains (hv : v.isNaN = false) (hk : v.key = 0) : zero.contains v = true :=
  contains_iff.2 ⟨zero_isNaN, zero_isNaN, hv, by simp [zero, splat, zero_key, hk],
    by simp [zero, splat, zero_key, hk]⟩

theorem and_contains (ha : a.contains v = true) (hb : b.contains w = true)
    (hI : (a.and b).hasNaN = false) :
    (a.and b).contains (if Scalar.isZero v then v else w) = true := by
  obtain ⟨-, -, hv, -⟩ := contains_iff.1 ha
  unfold Interval.and at hI ⊢
  rw [if_neg (by simp [hasNaN_of_contains ha])] at hI ⊢
  by_cases hvz : Scalar.isZero v = true
  · have hnz : ¬a.isNonzero = true := fun hnz => not_isZero_of_contains ha hnz hvz
    rw [if_pos hvz]
    rw [if_neg hnz] at hI ⊢
    by_cases hz : a.isZero = true
    · rwa [if_pos hz]
    · rw [if_neg hz] at hI ⊢
      exact hull_contains hI (.inr (zero_contains hv ((isZero_scalar hv).1 hvz)))
  · have hz : ¬a.isZero = true := fun hz => hvz (isZero_of_contains ha hz)
    rw [if_neg hvz]
    rw [if_neg hz] at hI ⊢
    by_cases hnz : a.isNonzero = true
    · rwa [if_pos hnz]
    · rw [if_neg hnz] at hI ⊢
      exact hull_contains hI (.inl hb)

theorem or_contains (ha : a.contains v = true) (hb : b.contains w = true)
    (hI : (a.or b).hasNaN = false) :
    (a.or b).contains (if Scalar.isZero v then w else v) = true := by
  unfold Interval.or at hI ⊢
  rw [if_neg (by simp [hasNaN_of_contains ha])] at hI ⊢
  by_cases hvz : Scalar.isZero v = true
  · have hnz : ¬a.isNonzero = true := fun hnz => not_isZero_of_contains ha hnz hvz
    rw [if_pos hvz]
    rw [if_neg hnz] at hI ⊢
    by_cases hz : a.isZero = true
    · rwa [if_pos hz]
    · rw [if_neg hz] at hI ⊢
      exact hull_contains hI (.inr hb)
  · have hz : ¬a.isZero = true := fun hz => hvz (isZero_of_contains ha hz)
    rw [if_neg hvz]
    by_cases hnz : a.isNonzero = true
    · rwa [if_pos hnz]
    · rw [if_neg hnz, if_neg hz] at hI ⊢
      exact hull_contains hI (.inl ha)

end

/-! ## Products and quotients -/

section

variable {a b : Interval} {v w : Binary64}

/-- A product of values between bounds lies between two products of the
bounds. -/
theorem mul_corners {A B C D X Y : EReal} (hA : A ≤ X) (hB : X ≤ B) (hC : C ≤ Y) (hD : Y ≤ D) :
    (A * C ≤ X * Y ∨ B * D ≤ X * Y ∨ A * D ≤ X * Y ∨ B * C ≤ X * Y) ∧
      (X * Y ≤ A * C ∨ X * Y ≤ B * D ∨ X * Y ≤ A * D ∨ X * Y ≤ B * C) := by
  have left : ∀ {P Q R : EReal}, P ≤ Q → 0 ≤ R → P * R ≤ Q * R := fun h hR =>
    mul_le_mul_of_nonneg_right h hR
  have left' : ∀ {P Q R : EReal}, P ≤ Q → R ≤ 0 → Q * R ≤ P * R := fun {P Q R} h hR => by
    have := left h (EReal.neg_nonneg.2 hR)
    rwa [mul_neg, mul_neg, EReal.neg_le_neg_iff] at this
  have right : ∀ {P Q R : EReal}, P ≤ Q → 0 ≤ R → R * P ≤ R * Q := fun {P Q R} h hR => by
    rw [mul_comm R P, mul_comm R Q]
    exact left h hR
  have right' : ∀ {P Q R : EReal}, P ≤ Q → R ≤ 0 → R * Q ≤ R * P := fun {P Q R} h hR => by
    rw [mul_comm R P, mul_comm R Q]
    exact left' h hR
  rcases le_total 0 Y with hY | hY
  · constructor
    · have hXY := left hA hY
      rcases le_total 0 A with h | h
      · exact .inl ((right hC h).trans hXY)
      · exact .inr (.inr (.inl ((right' hD h).trans hXY)))
    · have hXY := left hB hY
      rcases le_total 0 B with h | h
      · exact .inr (.inl (hXY.trans (right hD h)))
      · exact .inr (.inr (.inr (hXY.trans (right' hC h))))
  · constructor
    · have hXY := left' hB hY
      rcases le_total 0 B with h | h
      · exact .inr (.inr (.inr ((right hC h).trans hXY)))
      · exact .inr (.inl ((right' hD h).trans hXY))
    · have hXY := left' hA hY
      rcases le_total 0 A with h | h
      · exact .inr (.inr (.inl (hXY.trans (right hD h))))
      · exact .inl (hXY.trans (right' hC h))

/-- The hull of four corners contains a number that is the nearest to a value
between two of those that the corners are nearest to. -/
theorem corners_contains {p q : Interval} {z : Binary64} {E P₁ P₂ Q₁ Q₂ : EReal}
    (hp₁ : p.lo.isNaN = false → Binary.Nearest P₁ p.lo)
    (hp₂ : p.hi.isNaN = false → Binary.Nearest P₂ p.hi)
    (hq₁ : q.lo.isNaN = false → Binary.Nearest Q₁ q.lo)
    (hq₂ : q.hi.isNaN = false → Binary.Nearest Q₂ q.hi)
    (hz : Binary.Nearest E z) (hlow : P₁ ≤ E ∨ P₂ ≤ E ∨ Q₁ ≤ E ∨ Q₂ ≤ E)
    (hhigh : E ≤ P₁ ∨ E ≤ P₂ ∨ E ≤ Q₁ ∨ E ≤ Q₂) : (corners p q).contains z = true := by
  unfold corners
  split
  · exact everything_contains hz.isNaN
  · rename_i hnan
    have hnan' : (p.lo.isNaN = false ∧ p.hi.isNaN = false) ∧
        (q.lo.isNaN = false ∧ q.hi.isNaN = false) := by simpa [hasNaN] using hnan
    obtain ⟨⟨h1, h2⟩, h3, h4⟩ := hnan'
    refine contains_iff.2 ⟨Scalar.lesser_isNaN (Scalar.lesser_isNaN h1 h3)
      (Scalar.lesser_isNaN h2 h4), Scalar.greater_isNaN (Scalar.greater_isNaN h1 h3)
      (Scalar.greater_isNaN h2 h4), hz.isNaN, ?_, ?_⟩
    · rw [Scalar.lesser_key (Scalar.lesser_isNaN h1 h3) (Scalar.lesser_isNaN h2 h4),
        Scalar.lesser_key h1 h3, Scalar.lesser_key h2 h4]
      rcases hlow with h | h | h | h
      · have := (hp₁ h1).mono hz h
        omega
      · have := (hp₂ h2).mono hz h
        omega
      · have := (hq₁ h3).mono hz h
        omega
      · have := (hq₂ h4).mono hz h
        omega
    · rw [Scalar.greater_key (Scalar.greater_isNaN h1 h3) (Scalar.greater_isNaN h2 h4),
        Scalar.greater_key h1 h3, Scalar.greater_key h2 h4]
      rcases hhigh with h | h | h | h
      · have := hz.mono (hp₁ h1) h
        omega
      · have := hz.mono (hp₂ h2) h
        omega
      · have := hz.mono (hq₁ h3) h
        omega
      · have := hz.mono (hq₂ h4) h
        omega

theorem mul_contains (ha : a.contains v = true) (hb : b.contains w = true)
    (hv : (v.mul w).isNaN = false) : (a.mul b).contains (v.mul w) = true := by
  obtain ⟨ha1, ha2⟩ := contains_le ha
  obtain ⟨hb1, hb2⟩ := contains_le hb
  obtain ⟨hlow, hhigh⟩ := mul_corners (Binary.value_le_value ha1) (Binary.value_le_value ha2)
    (Binary.value_le_value hb1) (Binary.value_le_value hb2)
  exact corners_contains Binary.mul_nearest Binary.mul_nearest Binary.mul_nearest
    Binary.mul_nearest (Binary.mul_nearest hv) hlow hhigh

theorem value_pos {x : Binary64} (h : 0 < x.key) : x.isZero = false ∧ 0 < x.value := by
  rcases x.key_cases with ⟨hs, hk⟩ | ⟨hs, hk⟩
  · have hz : x.isZero = false := by
      simp only [Binary.isZero, beq_eq_false_iff_ne]
      omega
    exact ⟨hz, by simpa [hs] using Binary.value_sign hz⟩
  · omega

theorem value_neg {x : Binary64} (h : x.key < 0) : x.isZero = false ∧ x.value < 0 := by
  rcases x.key_cases with ⟨hs, hk⟩ | ⟨hs, hk⟩
  · omega
  · have hz : x.isZero = false := by
      simp only [Binary.isZero, beq_eq_false_iff_ne]
      omega
    exact ⟨hz, by simpa [hs] using Binary.value_sign hz⟩

theorem inv_le_inv {X Y : EReal} (h : X ≤ Y) (hs : 0 < X ∨ Y < 0) : Y⁻¹ ≤ X⁻¹ := by
  have pos : ∀ {P Q : EReal}, P ≤ Q → 0 < P → Q⁻¹ ≤ P⁻¹ := fun hPQ hP =>
    EReal.inv_strictAntiOn.antitoneOn hP (lt_of_lt_of_le hP hPQ) hPQ
  rcases hs with hX | hY
  · exact pos h hX
  · have := pos (EReal.neg_le_neg_iff.2 h) (EReal.neg_pos.2 hY)
    rwa [EReal.inv_neg, EReal.inv_neg, EReal.neg_le_neg_iff] at this

/-- An interval that does not reach zero: neither do its bounds and members,
and the inverses of the members lie between those of the bounds. -/
theorem inverses (hb : b.contains w = true) (hs : ¬b.straddles = true) :
    b.lo.isZero = false ∧ b.hi.isZero = false ∧ w.isZero = false ∧
      b.hi.value⁻¹ ≤ w.value⁻¹ ∧ w.value⁻¹ ≤ b.lo.value⁻¹ := by
  obtain ⟨hlo, hhi, hw, h1, h2⟩ := contains_iff.1 hb
  obtain ⟨hle1, hle2⟩ := contains_le hb
  rw [straddles_iff (hasNaN_of_contains hb)] at hs
  by_cases hpos : 0 < b.lo.key
  · have hl := value_pos hpos
    have hm := value_pos (x := w) (by omega)
    have hh := value_pos (x := b.hi) (by omega)
    exact ⟨hl.1, hh.1, hm.1, inv_le_inv (Binary.value_le_value hle2) (.inl hm.2),
      inv_le_inv (Binary.value_le_value hle1) (.inl hl.2)⟩
  · have hh := value_neg (x := b.hi) (by omega)
    have hm := value_neg (x := w) (by omega)
    have hl := value_neg (x := b.lo) (by omega)
    exact ⟨hl.1, hh.1, hm.1, inv_le_inv (Binary.value_le_value hle2) (.inr hh.2),
      inv_le_inv (Binary.value_le_value hle1) (.inr hm.2)⟩

theorem div_contains (ha : a.contains v = true) (hb : b.contains w = true)
    (hv : (v.div w).isNaN = false) : (a.div b).contains (v.div w) = true := by
  unfold Interval.div
  by_cases hs : b.straddles = true
  · rw [if_pos hs]
    exact everything_contains hv
  · rw [if_neg hs]
    obtain ⟨ha1, ha2⟩ := contains_le ha
    obtain ⟨hl, hh, hw, hi1, hi2⟩ := inverses hb hs
    obtain ⟨hlow, hhigh⟩ := mul_corners (Binary.value_le_value ha1) (Binary.value_le_value ha2)
      hi1 hi2
    -- The corners of the product with the inverses, in the other order.
    exact corners_contains (Binary.div_nearest hl) (Binary.div_nearest hh) (Binary.div_nearest hh)
      (Binary.div_nearest hl) (Binary.div_nearest hw hv)
      (by simp only [div_eq_mul_inv]; tauto) (by simp only [div_eq_mul_inv]; tauto)

theorem one_div_isNaN {x : Binary64} (hx : x.isNaN = false) (hz : x.isZero = false) :
    (Binary.one.div x).isNaN = false := by
  simp only [Binary.div, one_isNaN, one_isInf, hx, hz, Bool.or_self, Bool.false_eq_true, if_false]
  split
  · simp [Binary.isNaN, Binary.ofMagnitude]
  · exact Binary.round_isNaN _ _ _

theorem recip_contains (ha : a.contains v = true) (hv : (Binary.one.div v).isNaN = false) :
    a.recip.contains (Binary.one.div v) = true := by
  obtain ⟨hlo, hhi, hvn, -, -⟩ := contains_iff.1 ha
  by_cases hs : a.straddles = true
  · rw [Interval.recip, if_pos hs]
    exact everything_contains hv
  · have hrecip : a.recip = ⟨Scalar.lesser (Binary.one.div a.lo) (Binary.one.div a.hi),
        Scalar.greater (Binary.one.div a.hi) (Binary.one.div a.lo)⟩ := by
      simp only [Interval.recip, if_neg hs]
    rw [hrecip]
    obtain ⟨hl, hh, hz, hi1, hi2⟩ := inverses ha hs
    have hone : (0 : EReal) ≤ (Binary.one : Binary64).value := (value_pos one_key_pos).2.le
    have hp := one_div_isNaN hlo hl
    have hq := one_div_isNaN hhi hh
    have hlow := (Binary.div_nearest hh hq).mono (Binary.div_nearest hz hv)
      (by simp only [div_eq_mul_inv]; exact mul_le_mul_of_nonneg_left hi1 hone)
    have hhigh := (Binary.div_nearest hz hv).mono (Binary.div_nearest hl hp)
      (by simp only [div_eq_mul_inv]; exact mul_le_mul_of_nonneg_left hi2 hone)
    generalize Binary.one.div a.lo = p, Binary.one.div a.hi = q at *
    refine contains_iff.2 ⟨Scalar.lesser_isNaN hp hq, Scalar.greater_isNaN hq hp, hv, ?_, ?_⟩
    · rw [Scalar.lesser_key hp hq]
      omega
    · rw [Scalar.greater_key hq hp]
      omega

theorem mul_self_abs (x : Binary64) : x.mul x = x.abs.mul x.abs := by
  have hnan : x.abs.isNaN = x.isNaN := rfl
  have hinf : x.abs.isInf = x.isInf := rfl
  have hzero : x.abs.isZero = x.isZero := rfl
  have hunits : x.abs.units = x.units := rfl
  simp only [Binary.mul, bne_self_eq_false, hnan, hinf, hzero, hunits]

theorem value_nonneg {x : Binary64} (hx : x.isNaN = false) (h : 0 ≤ x.key) : 0 ≤ x.value := by
  have hzero : (Binary.zero : Binary64).value = 0 :=
    Binary.value_eq_zero (by decide) (by decide)
  rw [← hzero]
  exact Binary.value_le_value (Binary.le_eq_true.2 ⟨zero_isNaN, hx, by rwa [zero_key]⟩)

theorem mul_self_key_le {x y : Binary64} (h : (x.mul x).isNaN = false)
    (h' : (y.mul y).isNaN = false) (hle : x.le y = true) (hx : 0 ≤ x.key) :
    (x.mul x).key ≤ (y.mul y).key := by
  have h0 := value_nonneg (Binary.le_eq_true.1 hle).1 hx
  have hv := Binary.value_le_value hle
  exact (Binary.mul_nearest h).mono (Binary.mul_nearest h') (mul_le_mul hv hv h0 (h0.trans hv))

theorem square_contains (ha : a.contains v = true) (hI : a.square.hasNaN = false)
    (hv : (v.mul v).isNaN = false) : a.square.contains (v.mul v) = true := by
  obtain ⟨hlo, hhi, -⟩ := contains_iff.1 ha
  obtain ⟨hle1, hle2⟩ := contains_le (abs_contains ha)
  unfold Interval.square at hI ⊢
  obtain ⟨hl, hh⟩ := hasNaN_eq_false.1 hI
  have hpos : 0 ≤ a.abs.lo.key := by
    rw [(abs_keys hlo hhi).2.1]
    omega
  have hpos' : 0 ≤ v.abs.key := by
    rw [abs_key]
    omega
  rw [mul_self_abs v] at hv ⊢
  exact contains_iff.2 ⟨hl, hh, hv, mul_self_key_le hl hv hle1 hpos,
    mul_self_key_le hv hh hle2 hpos'⟩

end

end Interval

end ScalarField
