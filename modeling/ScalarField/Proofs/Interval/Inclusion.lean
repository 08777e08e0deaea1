/-
Smaller regions give smaller intervals: if each interval of a region lies in
that of another, so does the interval of every slot
(`Tape.WellFormed.within`), and a choice that the larger region resolves is
resolved in the same way over the smaller one (`Tape.choices_inherited`), which
is what the check of choices looks for (`Tape.verifyChoices_eq_ok_iff`).

The bounds of a result are values of the operator at bounds of its operands,
which lie in the larger operands, so that enclosure places them in the larger
result. Where a corner of a product or quotient is indeterminate the result is
everything; then so is the larger result, since it has that corner too, or
reaches both infinities.
-/
import ScalarField.Proofs.Interval.Order
import ScalarField.Proofs.Interval.Region

namespace ScalarField

namespace Interval

/-- The interval is one, and lies in `b`. -/
structure Within (a b : Interval) : Prop where
  lower : b.lo.le a.lo = true
  order : a.lo.le a.hi = true
  upper : a.hi.le b.hi = true

instance (a b : Interval) : Decidable (a.Within b) :=
  decidable_of_iff (b.lo.le a.lo = true ∧ a.lo.le a.hi = true ∧ a.hi.le b.hi = true)
    ⟨fun ⟨h1, h2, h3⟩ => ⟨h1, h2, h3⟩, fun ⟨h1, h2, h3⟩ => ⟨h1, h2, h3⟩⟩

namespace Within

variable {a b : Interval}

theorem keys (h : a.Within b) : b.lo.key ≤ a.lo.key ∧ a.lo.key ≤ a.hi.key ∧ a.hi.key ≤ b.hi.key :=
  ⟨(Binary.le_eq_true.1 h.lower).2.2, (Binary.le_eq_true.1 h.order).2.2,
    (Binary.le_eq_true.1 h.upper).2.2⟩

theorem hasNaN (h : a.Within b) : a.hasNaN = false :=
  hasNaN_eq_false.2 ⟨(Binary.le_eq_true.1 h.order).1, (Binary.le_eq_true.1 h.order).2.1⟩

theorem hasNaN_right (h : a.Within b) : b.hasNaN = false :=
  hasNaN_eq_false.2 ⟨(Binary.le_eq_true.1 h.lower).1, (Binary.le_eq_true.1 h.upper).2.1⟩

theorem isInverted (h : a.Within b) : a.isInverted = false := isInverted_of_le h.order

theorem contains (h : a.Within b) {v : Binary64} (hv : a.contains v = true) :
    b.contains v = true := by
  obtain ⟨h1, -, h3⟩ := h.keys
  obtain ⟨hbl, hbh⟩ := hasNaN_eq_false.1 h.hasNaN_right
  obtain ⟨-, -, hvn, hl, hh⟩ := contains_iff.1 hv
  exact contains_iff.2 ⟨hbl, hbh, hvn, by omega, by omega⟩

theorem contains_lo (h : a.Within b) : b.contains a.lo = true := by
  obtain ⟨hal, hah⟩ := hasNaN_eq_false.1 h.hasNaN
  exact h.contains (contains_iff.2 ⟨hal, hah, hal, le_refl _, h.keys.2.1⟩)

theorem contains_hi (h : a.Within b) : b.contains a.hi = true := by
  obtain ⟨hal, hah⟩ := hasNaN_eq_false.1 h.hasNaN
  exact h.contains (contains_iff.2 ⟨hal, hah, hah, h.keys.2.1, le_refl _⟩)

theorem of_contains (ha : a.isInverted = false) (hlo : b.contains a.lo = true)
    (hhi : b.contains a.hi = true) : a.Within b := by
  obtain ⟨-, -, hal, -⟩ := contains_iff.1 hlo
  obtain ⟨-, -, hah, -⟩ := contains_iff.1 hhi
  exact ⟨(contains_le hlo).1, lo_le_hi (hasNaN_eq_false.2 ⟨hal, hah⟩) ha, (contains_le hhi).2⟩

end Within

/-! ## Operators of one operand -/

section

variable {a b : Interval}

theorem isZero_of_within (h : a.Within b) (hb : b.isZero = true) : a.isZero = true := by
  have hkeys := h.keys
  have := (isZero_iff h.hasNaN_right).1 hb
  exact (isZero_iff h.hasNaN).2 (by omega)

theorem isNonzero_of_within (h : a.Within b) (hb : b.isNonzero = true) : a.isNonzero = true := by
  have hkeys := h.keys
  have := (isNonzero_iff h.hasNaN_right).1 hb
  exact (isNonzero_iff h.hasNaN).2 (by omega)

theorem straddles_of_within (h : a.Within b) (ha : a.straddles = true) : b.straddles = true := by
  have hkeys := h.keys
  have := (straddles_iff h.hasNaN).1 ha
  exact (straddles_iff h.hasNaN_right).2 (by omega)

theorem not_isZero_of_isNonzero (h : a.Within b) (ha : a.isNonzero = true) : ¬a.isZero = true := by
  intro hz
  have h1 := (isNonzero_iff h.hasNaN).1 ha
  have h2 := (isZero_iff h.hasNaN).1 hz
  omega

theorem lesser_contains {x y : Binary64} (hx : b.contains x = true) (hy : b.contains y = true) :
    b.contains (Scalar.lesser x y) = true := by
  rw [Scalar.lesser_eq]
  split <;> assumption

theorem greater_contains {x y : Binary64} (hx : b.contains x = true) (hy : b.contains y = true) :
    b.contains (Scalar.greater x y) = true := by
  rw [Scalar.greater_eq]
  split <;> assumption

theorem abs_within (h : a.Within b) :
    b.abs.contains a.abs.lo = true ∧ b.abs.contains a.abs.hi = true := by
  have hkeys := h.keys
  obtain ⟨hal, hah⟩ := hasNaN_eq_false.1 h.hasNaN
  obtain ⟨hbl, hbh⟩ := hasNaN_eq_false.1 h.hasNaN_right
  obtain ⟨hnan, hl, hh⟩ := abs_keys hal hah
  obtain ⟨hnan', hl', hh'⟩ := abs_keys hbl hbh
  obtain ⟨h1, h2⟩ := hasNaN_eq_false.1 hnan
  obtain ⟨h1', h2'⟩ := hasNaN_eq_false.1 hnan'
  exact ⟨contains_iff.2 ⟨h1', h2', h1, by omega, by omega⟩,
    contains_iff.2 ⟨h1', h2', h2, by omega, by omega⟩⟩

theorem recip_within (h : a.Within b) (ha : a.recip.hasNaN = false) :
    b.recip.contains a.recip.lo = true ∧ b.recip.contains a.recip.hi = true := by
  obtain ⟨hlo, hhi⟩ := hasNaN_eq_false.1 ha
  by_cases hb : b.straddles = true
  · rw [Interval.recip, if_pos hb]
    exact ⟨everything_contains hlo, everything_contains hhi⟩
  · have hs : ¬a.straddles = true := fun hs => hb (straddles_of_within h hs)
    have hrecip : a.recip = ⟨Scalar.lesser (Binary.one.div a.lo) (Binary.one.div a.hi),
        Scalar.greater (Binary.one.div a.hi) (Binary.one.div a.lo)⟩ := by
      simp only [Interval.recip, if_neg hs]
    obtain ⟨hal, hah⟩ := hasNaN_eq_false.1 h.hasNaN
    obtain ⟨-, -, hzl, -⟩ := inverses h.contains_lo hb
    obtain ⟨-, -, hzh, -⟩ := inverses h.contains_hi hb
    have hp := recip_contains h.contains_lo (one_div_isNaN hal hzl)
    have hq := recip_contains h.contains_hi (one_div_isNaN hah hzh)
    rw [hrecip]
    generalize Binary.one.div a.lo = p, Binary.one.div a.hi = q at hp hq ⊢
    exact ⟨lesser_contains hp hq, greater_contains hq hp⟩

theorem sqrt_within (h : a.Within b) (ha : a.sqrt.hasNaN = false) (hb : b.sqrt.hasNaN = false) :
    b.sqrt.contains a.sqrt.lo = true ∧ b.sqrt.contains a.sqrt.hi = true := by
  obtain ⟨hal, hah⟩ := hasNaN_eq_false.1 h.hasNaN
  obtain ⟨hbl, hbh⟩ := hasNaN_eq_false.1 h.hasNaN_right
  have hkeys := h.keys
  have hneg : ¬a.hi.lt .zero = true := by
    intro hneg
    rw [Interval.sqrt, if_pos hneg] at ha
    exact absurd ha (by decide)
  have hpos : 0 ≤ a.hi.key := by
    rw [lt_iff hah zero_isNaN, zero_key] at hneg
    omega
  have hsqrt : a.sqrt = ⟨(Scalar.greater .zero a.lo).sqrt, (Scalar.greater .zero a.hi).sqrt⟩ := by
    rw [Interval.sqrt, if_neg hneg]
  rw [hsqrt] at ha ⊢
  obtain ⟨hl, hh⟩ := hasNaN_eq_false.1 ha
  have hlo : b.contains (Scalar.greater .zero a.lo) = true := by
    refine contains_iff.2 ⟨hbl, hbh, Scalar.greater_isNaN zero_isNaN hal, ?_, ?_⟩ <;>
      rw [Scalar.greater_key zero_isNaN hal, zero_key] <;> omega
  have hhi : b.contains (Scalar.greater .zero a.hi) = true := by
    refine contains_iff.2 ⟨hbl, hbh, Scalar.greater_isNaN zero_isNaN hah, ?_, ?_⟩ <;>
      rw [Scalar.greater_key zero_isNaN hah, zero_key] <;> omega
  exact ⟨sqrt_contains hlo hb hl, sqrt_contains hhi hb hh⟩

theorem square_within (h : a.Within b) (ha : a.square.hasNaN = false)
    (hb : b.square.hasNaN = false) :
    b.square.contains a.square.lo = true ∧ b.square.contains a.square.hi = true := by
  obtain ⟨hal, hah⟩ := hasNaN_eq_false.1 h.hasNaN
  obtain ⟨hbl, hbh⟩ := hasNaN_eq_false.1 h.hasNaN_right
  obtain ⟨hl, hh⟩ := hasNaN_eq_false.1 ha
  obtain ⟨hl', hh'⟩ := hasNaN_eq_false.1 hb
  obtain ⟨hlo, hhi⟩ := abs_within h
  have hpos : ∀ {c : Interval}, c.lo.isNaN = false → c.hi.isNaN = false → 0 ≤ c.abs.lo.key ∧
      0 ≤ c.abs.hi.key := fun h1 h2 => by
    obtain ⟨-, hl, hh⟩ := abs_keys h1 h2
    omega
  have hbound : ∀ {x : Binary64}, b.abs.contains x = true → 0 ≤ x.key → (x.mul x).isNaN = false →
      b.square.contains (x.mul x) = true := fun hx hx0 hn =>
    contains_iff.2 ⟨hl', hh', hn, mul_self_key_le hl' hn (contains_le hx).1 (hpos hbl hbh).1,
      mul_self_key_le hn hh' (contains_le hx).2 hx0⟩
  exact ⟨hbound hlo (hpos hal hah).1 hl, hbound hhi (hpos hal hah).2 hh⟩

theorem not_within (h : a.Within b) :
    b.not.contains a.not.lo = true ∧ b.not.contains a.not.hi = true := by
  unfold Interval.not
  by_cases hz : b.isZero = true
  · rw [if_pos hz, if_pos (isZero_of_within h hz)]
    decide +kernel
  · rw [if_neg hz]
    by_cases hnz : b.isNonzero = true
    · have ha := isNonzero_of_within h hnz
      rw [if_pos hnz, if_neg (not_isZero_of_isNonzero h ha), if_pos ha]
      decide +kernel
    · rw [if_neg hnz]
      split
      · decide +kernel
      · split <;> decide +kernel

/-- An operator of one operand on a smaller interval gives a smaller interval. -/
theorem unary_within {u : UnaryOp} (hu : (Op.unary u).isArithmetic = true) (h : a.Within b)
    (ha : (unary u a).hasNaN = false) (hb : (unary u b).hasNaN = false) :
    (unary u a).Within (unary u b) := by
  have hhalf : a.isHalfNegative = false := by
    simp [isHalfNegative, (hasNaN_eq_false.1 h.hasNaN).1]
  obtain ⟨hlo, hhi⟩ : (unary u b).contains (unary u a).lo = true ∧
      (unary u b).contains (unary u a).hi = true := by
    cases u with
    | neg => exact ⟨neg_contains h.contains_hi, neg_contains h.contains_lo⟩
    | abs => exact abs_within h
    | recip => exact recip_within h ha
    | sqrt => exact sqrt_within h ha hb
    | square => exact square_within h ha hb
    | floor => exact ⟨map_contains Binary.floor_monotone h.contains_lo,
        map_contains Binary.floor_monotone h.contains_hi⟩
    | ceil => exact ⟨map_contains Binary.ceil_monotone h.contains_lo,
        map_contains Binary.ceil_monotone h.contains_hi⟩
    | round => exact ⟨map_contains (fun _ => Tie.toEven_monotone) h.contains_lo,
        map_contains (fun _ => Tie.toEven_monotone) h.contains_hi⟩
    | not => exact not_within h
    | _ => cases hu
  exact .of_contains (unary_isInverted hu h.isInverted fun _ => hhalf) hlo hhi

end

/-! ## Products and quotients -/

section

variable {a a' b b' : Interval}

/-- One of the four bounds that the hull of corners is taken of. -/
def IsCorner (p q : Interval) (r : Binary64) : Prop := r = p.lo ∨ r = p.hi ∨ r = q.lo ∨ r = q.hi

variable {p q : Interval} {r : Binary64}

theorem corners_of_isNaN (h : IsCorner p q r) (hr : r.isNaN = true) : corners p q = everything := by
  rw [corners, if_pos]
  rcases h with rfl | rfl | rfl | rfl <;> simp [hasNaN, hr]

theorem corners_contains_corner (h : IsCorner p q r) (hr : r.isNaN = false) :
    (corners p q).contains r = true := by
  unfold corners
  split
  · exact everything_contains hr
  · rename_i hnan
    have hnan' : (p.lo.isNaN = false ∧ p.hi.isNaN = false) ∧
        (q.lo.isNaN = false ∧ q.hi.isNaN = false) := by simpa [hasNaN] using hnan
    obtain ⟨⟨h1, h2⟩, h3, h4⟩ := hnan'
    have hl1 := Scalar.lesser_isNaN h1 h3
    have hl2 := Scalar.lesser_isNaN h2 h4
    have hg1 := Scalar.greater_isNaN h1 h3
    have hg2 := Scalar.greater_isNaN h2 h4
    refine contains_iff.2 ⟨Scalar.lesser_isNaN hl1 hl2, Scalar.greater_isNaN hg1 hg2, hr, ?_, ?_⟩
    · rw [Scalar.lesser_key hl1 hl2, Scalar.lesser_key h1 h3, Scalar.lesser_key h2 h4]
      rcases h with rfl | rfl | rfl | rfl <;> omega
    · rw [Scalar.greater_key hg1 hg2, Scalar.greater_key h1 h3, Scalar.greater_key h2 h4]
      rcases h with rfl | rfl | rfl | rfl <;> omega

/-- Corners that lie in an interval have their hull in it, as long as the
interval is everything where a corner is indeterminate. -/
theorem contains_corners {c : Interval}
    (h : ∀ r, IsCorner p q r → r.isNaN = false → c.contains r = true)
    (hnan : ∀ r, IsCorner p q r → r.isNaN = true → ∀ z : Binary64, z.isNaN = false →
      c.contains z = true) :
    c.contains (corners p q).lo = true ∧ c.contains (corners p q).hi = true := by
  unfold corners
  split
  · rename_i hn
    obtain ⟨r, hr, hrn⟩ : ∃ r, IsCorner p q r ∧ r.isNaN = true := by
      have hn' : (p.lo.isNaN = true ∨ p.hi.isNaN = true) ∨
          (q.lo.isNaN = true ∨ q.hi.isNaN = true) := by simpa [hasNaN] using hn
      rcases hn' with (h | h) | (h | h)
      · exact ⟨_, .inl rfl, h⟩
      · exact ⟨_, .inr (.inl rfl), h⟩
      · exact ⟨_, .inr (.inr (.inl rfl)), h⟩
      · exact ⟨_, .inr (.inr (.inr rfl)), h⟩
    exact ⟨hnan r hr hrn _ (Binary.infinity_isNaN true),
      hnan r hr hrn _ (Binary.infinity_isNaN false)⟩
  · rename_i hn
    have hn' : (p.lo.isNaN = false ∧ p.hi.isNaN = false) ∧
        (q.lo.isNaN = false ∧ q.hi.isNaN = false) := by simpa [hasNaN] using hn
    have h1 := h p.lo (.inl rfl) hn'.1.1
    have h2 := h p.hi (.inr (.inl rfl)) hn'.1.2
    have h3 := h q.lo (.inr (.inr (.inl rfl))) hn'.2.1
    have h4 := h q.hi (.inr (.inr (.inr rfl))) hn'.2.2
    exact ⟨lesser_contains (lesser_contains h1 h3) (lesser_contains h2 h4),
      greater_contains (greater_contains h1 h3) (greater_contains h2 h4)⟩

theorem eq_bound_of_isInf {y : Binary64} (h : a.contains y = true) (hy : y.isInf = true) :
    a.lo = y ∨ a.hi = y := by
  obtain ⟨hlo, hhi, -, h1, h2⟩ := contains_iff.1 h
  have hpos : 0 < Format.binary64.infinity := by decide
  have hm := Binary.isInf_eq_true.1 hy
  have hext : ∀ {x : Binary64}, x.negative = y.negative → x.magnitude = y.magnitude → x = y := by
    rintro ⟨s, m, hm⟩ hs hmag
    obtain ⟨s', m', hm'⟩ := y
    simp_all
  have hlom := Binary.isNaN_eq_false.1 hlo
  have hhim := Binary.isNaN_eq_false.1 hhi
  rcases y.key_cases with ⟨hs, hk⟩ | ⟨hs, hk⟩
  · right
    rcases a.hi.key_cases with ⟨hs', hk'⟩ | ⟨hs', hk'⟩
    · exact hext (hs'.trans hs.symm) (by omega)
    · omega
  · left
    rcases a.lo.key_cases with ⟨hs', hk'⟩ | ⟨hs', hk'⟩
    · omega
    · exact hext (hs'.trans hs.symm) (by omega)

theorem contains_of_infinities (h : a.contains (.infinity true) = true)
    (h' : a.contains (.infinity false) = true) {z : Binary64} (hz : z.isNaN = false) :
    a.contains z = true := by
  obtain ⟨hlo, hhi, -, h1, -⟩ := contains_iff.1 h
  obtain ⟨-, -, -, -, h2⟩ := contains_iff.1 h'
  have hb := Binary.key_bounds hz
  rw [Binary.infinity_key] at h1 h2
  exact contains_iff.2 ⟨hlo, hhi, hz, h1.trans hb.1, hb.2.trans h2⟩

theorem mul_isNaN {x y : Binary64} (hx : x.isNaN = false) (hy : y.isNaN = false)
    (h : (x.mul y).isNaN = true) :
    x.isZero = true ∧ y.isInf = true ∨ x.isInf = true ∧ y.isZero = true := by
  unfold Binary.mul at h
  simp only [hx, hy, Bool.or_self, Bool.false_eq_true, if_false] at h
  split at h
  · rename_i hinf
    split at h
    · rename_i hzero
      have hdisjoint : ∀ z : Binary64, z.isZero = true → z.isInf = false := by
        intro z hz
        have hm : z.magnitude = 0 := by simpa [Binary.isZero] using hz
        rw [Binary.isInf, hm]
        decide
      have h1 := hdisjoint x
      have h2 := hdisjoint y
      rcases hxz : x.isZero with _ | _ <;> rcases hyz : y.isZero with _ | _ <;> simp_all
    · simp [Binary.infinity_isNaN] at h
  · simp [Binary.round_isNaN] at h

theorem isNaN_zero_mul_inf {x y : Binary64} (hx : x.isZero = true) (hy : y.isInf = true) :
    (x.mul y).isNaN = true ∧ (y.mul x).isNaN = true := by
  simp [Binary.mul, hx, hy, Binary.nan_isNaN]

theorem mul_infinity {x y : Binary64} (hx : x.isNaN = false) (hz : x.isZero = false)
    (hy : y.isInf = true) :
    x.mul y = .infinity (x.negative != y.negative) ∧
      y.mul x = .infinity (x.negative != y.negative) := by
  have hyn : y.isNaN = false := by
    have := Binary.isInf_eq_true.1 hy
    exact Binary.isNaN_eq_false.2 this.le
  have hyz : y.isZero = false := by
    have := Binary.isInf_eq_true.1 hy
    rw [Binary.isZero, this]
    decide
  simp [Binary.mul, hx, hz, hy, hyn, hyz, bne_comm]

/-- Corners that are the bounds around zero times infinity, or infinity times
them: their hull is everything. -/
theorem corners_contains_all {x y : Binary64} (ha : a.contains x = true) (hx : x.isZero = true)
    (hy : y.isInf = true)
    (hcorner : (IsCorner p q (a.lo.mul y) ∧ IsCorner p q (a.hi.mul y)) ∨
      (IsCorner p q (y.mul a.lo) ∧ IsCorner p q (y.mul a.hi)))
    {z : Binary64} (hz : z.isNaN = false) : (corners p q).contains z = true := by
  obtain ⟨hlo, hhi, -, h1, h2⟩ := contains_iff.1 ha
  have hx0 : x.key = 0 := by
    have : x.magnitude = 0 := by simpa [Binary.isZero] using hx
    rcases x.key_cases with ⟨-, hk⟩ | ⟨-, hk⟩ <;> omega
  -- A bound that is zero is an indeterminate corner; otherwise the bounds have both signs.
  have zero_bound : ∀ {w : Binary64}, w.isZero = true →
      IsCorner p q (w.mul y) ∨ IsCorner p q (y.mul w) → (corners p q).contains z = true := by
    intro w hw hc
    obtain ⟨hn, hn'⟩ := isNaN_zero_mul_inf hw hy
    rcases hc with hc | hc
    · rw [corners_of_isNaN hc hn]
      exact everything_contains hz
    · rw [corners_of_isNaN hc hn']
      exact everything_contains hz
  rcases hzl : a.lo.isZero with _ | _
  · rcases hzh : a.hi.isZero with _ | _
    · have hne : ∀ {w : Binary64}, w.isZero = false → w.magnitude ≠ 0 := fun h => by
        simpa [Binary.isZero] using h
      have hnl := hne hzl
      have hnh := hne hzh
      have hsl : a.lo.negative = true := by
        rcases a.lo.key_cases with ⟨-, hk⟩ | ⟨hs, -⟩
        · omega
        · exact hs
      have hsh : a.hi.negative = false := by
        rcases a.hi.key_cases with ⟨hs, -⟩ | ⟨-, hk⟩
        · exact hs
        · omega
      obtain ⟨hml, hml'⟩ := mul_infinity hlo hzl hy
      obtain ⟨hmh, hmh'⟩ := mul_infinity hhi hzh hy
      rw [hml, hml', hmh, hmh', hsl, hsh] at hcorner
      obtain ⟨hl, hh⟩ : IsCorner p q (.infinity (true != y.negative)) ∧
          IsCorner p q (.infinity (false != y.negative)) := by tauto
      have hcl := corners_contains_corner hl (Binary.infinity_isNaN _)
      have hch := corners_contains_corner hh (Binary.infinity_isNaN _)
      cases hyn : y.negative <;> simp only [hyn] at hcl hch
      · exact contains_of_infinities hcl hch hz
      · exact contains_of_infinities hch hcl hz
    · exact zero_bound hzh (by tauto)
  · exact zero_bound hzl (by tauto)

theorem mul_within (ha : a.Within a') (hb : b.Within b') :
    (a'.mul b').contains (a.mul b).lo = true ∧ (a'.mul b').contains (a.mul b).hi = true := by
  have corner : ∀ {c d : Interval} {x y : Binary64}, (x = c.lo ∨ x = c.hi) → (y = d.lo ∨ y = d.hi) →
      IsCorner ⟨c.lo.mul d.lo, c.hi.mul d.hi⟩ ⟨c.lo.mul d.hi, c.hi.mul d.lo⟩ (x.mul y) := by
    rintro c d x y (rfl | rfl) (rfl | rfl)
    · exact .inl rfl
    · exact .inr (.inr (.inl rfl))
    · exact .inr (.inr (.inr rfl))
    · exact .inr (.inl rfl)
  have operands : ∀ {r : Binary64},
      IsCorner ⟨a.lo.mul b.lo, a.hi.mul b.hi⟩ ⟨a.lo.mul b.hi, a.hi.mul b.lo⟩ r →
      ∃ x y, r = x.mul y ∧ a'.contains x = true ∧ b'.contains y = true := by
    rintro r (rfl | rfl | rfl | rfl)
    · exact ⟨_, _, rfl, ha.contains_lo, hb.contains_lo⟩
    · exact ⟨_, _, rfl, ha.contains_hi, hb.contains_hi⟩
    · exact ⟨_, _, rfl, ha.contains_lo, hb.contains_hi⟩
    · exact ⟨_, _, rfl, ha.contains_hi, hb.contains_lo⟩
  refine contains_corners (fun r hr hn => ?_) fun r hr hn z hz => ?_
  · obtain ⟨x, y, rfl, hx, hy⟩ := operands hr
    exact mul_contains hx hy hn
  · obtain ⟨x, y, rfl, hx, hy⟩ := operands hr
    obtain ⟨-, -, hxn, -⟩ := contains_iff.1 hx
    obtain ⟨-, -, hyn, -⟩ := contains_iff.1 hy
    rw [Interval.mul]
    rcases mul_isNaN hxn hyn hn with ⟨hx0, hyi⟩ | ⟨hxi, hy0⟩
    · have hbound := (eq_bound_of_isInf hy hyi).imp Eq.symm Eq.symm
      exact corners_contains_all hx hx0 hyi
        (.inl ⟨corner (.inl rfl) hbound, corner (.inr rfl) hbound⟩) hz
    · have hbound := (eq_bound_of_isInf hx hxi).imp Eq.symm Eq.symm
      exact corners_contains_all hy hy0 hxi
        (.inr ⟨corner hbound (.inl rfl), corner hbound (.inr rfl)⟩) hz

theorem div_isNaN {x y : Binary64} (hx : x.isNaN = false) (hy : y.isNaN = false)
    (hz : y.isZero = false) (h : (x.div y).isNaN = true) : x.isInf = true ∧ y.isInf = true := by
  unfold Binary.div at h
  simp only [hx, hy, hz, Bool.or_self, Bool.false_eq_true, if_false] at h
  rcases hxi : x.isInf with _ | _
  · rcases hyi : y.isInf with _ | _
    · simp [hxi, hyi, Binary.round_isNaN] at h
    · simp only [hxi, hyi, Bool.false_eq_true, if_false, if_true] at h
      exact absurd h (by simp [Binary.isNaN, Binary.ofMagnitude])
  · rcases hyi : y.isInf with _ | _
    · simp [hxi, hyi, Binary.infinity_isNaN] at h
    · exact ⟨rfl, rfl⟩

theorem div_within (ha : a.Within a') (hb : b.Within b') :
    (a'.div b').contains (a.div b).lo = true ∧ (a'.div b').contains (a.div b).hi = true := by
  by_cases hs : b'.straddles = true
  · have hdiv : a'.div b' = everything := if_pos hs
    have hnan : (a.div b).hasNaN = false := by
      unfold Interval.div
      split
      · decide
      · obtain ⟨h1, h2⟩ := contains_corners (p := ⟨a.lo.div b.lo, a.hi.div b.hi⟩)
          (q := ⟨a.lo.div b.hi, a.hi.div b.lo⟩) (c := everything)
          (fun r _ hr => everything_contains hr) fun _ _ _ z hz => everything_contains hz
        exact hasNaN_eq_false.2 ⟨(contains_iff.1 h1).2.2.1, (contains_iff.1 h2).2.2.1⟩
    rw [hdiv]
    obtain ⟨h1, h2⟩ := hasNaN_eq_false.1 hnan
    exact ⟨everything_contains h1, everything_contains h2⟩
  · have hs' : ¬b.straddles = true := fun h => hs (straddles_of_within hb h)
    have hdiv : a.div b = corners ⟨a.lo.div b.lo, a.hi.div b.hi⟩ ⟨a.lo.div b.hi, a.hi.div b.lo⟩ :=
      if_neg hs'
    have operands : ∀ {r : Binary64},
        IsCorner ⟨a.lo.div b.lo, a.hi.div b.hi⟩ ⟨a.lo.div b.hi, a.hi.div b.lo⟩ r →
        ∃ x y, r = x.div y ∧ a'.contains x = true ∧ b'.contains y = true := by
      rintro r (rfl | rfl | rfl | rfl)
      · exact ⟨_, _, rfl, ha.contains_lo, hb.contains_lo⟩
      · exact ⟨_, _, rfl, ha.contains_hi, hb.contains_hi⟩
      · exact ⟨_, _, rfl, ha.contains_lo, hb.contains_hi⟩
      · exact ⟨_, _, rfl, ha.contains_hi, hb.contains_lo⟩
    rw [hdiv]
    refine contains_corners (fun r hr hn => ?_) fun r hr hn z hz => ?_
    · obtain ⟨x, y, rfl, hx, hy⟩ := operands hr
      exact div_contains hx hy hn
    · -- Infinite operands are bounds of the larger operands, which have the same corner.
      obtain ⟨x, y, rfl, hx, hy⟩ := operands hr
      obtain ⟨-, -, hxn, -⟩ := contains_iff.1 hx
      obtain ⟨-, -, hyn, -⟩ := contains_iff.1 hy
      obtain ⟨-, -, hyz, -⟩ := inverses hy hs
      obtain ⟨hxi, hyi⟩ := div_isNaN hxn hyn hyz hn
      rw [Interval.div, if_neg hs]
      have hcorner : IsCorner ⟨a'.lo.div b'.lo, a'.hi.div b'.hi⟩ ⟨a'.lo.div b'.hi, a'.hi.div b'.lo⟩
          (x.div y) := by
        rcases eq_bound_of_isInf hx hxi with rfl | rfl <;>
          rcases eq_bound_of_isInf hy hyi with rfl | rfl
        · exact .inl rfl
        · exact .inr (.inr (.inl rfl))
        · exact .inr (.inr (.inr rfl))
        · exact .inr (.inl rfl)
      rw [corners_of_isNaN hcorner hn]
      exact everything_contains hz

end

/-! ## Selections -/

section

variable {a a' b b' : Interval}

theorem compare_eq (ha : a.lo.le a.hi = true) (hb : b.lo.le b.hi = true) :
    a.compare b = ⟨Scalar.compare a.lo b.hi, Scalar.compare a.hi b.lo⟩ := by
  obtain ⟨hal, hah, ha⟩ := Binary.le_eq_true.1 ha
  obtain ⟨hbl, hbh, hb⟩ := Binary.le_eq_true.1 hb
  have hnan : ¬(a.hasNaN || b.hasNaN) = true := by simp [hasNaN, hal, hah, hbl, hbh]
  have hscalar : ∀ {x y : Binary64}, x.isNaN = false → y.isNaN = false → Scalar.compare x y =
      if x.key < y.key then .ofInt (-1) else if y.key < x.key then .one else .zero := by
    intro x y hx hy
    have hlt : ∀ x y : Binary64, Arith.lt x y = x.lt y := fun _ _ => rfl
    rw [Scalar.compare, if_neg (by simp [Arith.isNaN, hx, hy]), hlt, hlt, ofInt_one, ofInt_zero]
    simp only [lt_iff hx hy, lt_iff hy hx]
    rfl
  rw [hscalar hal hbh, hscalar hah hbl, Interval.compare, if_neg hnan]
  simp only [lt_iff hah hbl, lt_iff hbh hal, lt_iff hal hbh, lt_iff hbl hah]
  -- Each bound is decided by one comparison, once the intervals are known to overlap or not.
  by_cases h1 : a.hi.key < b.lo.key
  · rw [if_pos h1, if_pos (by omega : a.lo.key < b.hi.key), if_pos h1]
    rfl
  · rw [if_neg h1]
    by_cases h2 : b.hi.key < a.lo.key
    · rw [if_pos h2, if_neg (by omega : ¬a.lo.key < b.hi.key), if_pos h2, if_neg h1,
        if_pos (by omega : b.lo.key < a.hi.key)]
      rfl
    · rw [if_neg h2, if_neg h2, if_neg h1]

theorem compare_within (ha : a.Within a') (hb : b.Within b') :
    (a'.compare b').contains (a.compare b).lo = true ∧
      (a'.compare b').contains (a.compare b).hi = true := by
  rw [compare_eq ha.order hb.order]
  exact ⟨compare_contains ha.contains_lo hb.contains_hi,
    compare_contains ha.contains_hi hb.contains_lo⟩

theorem hull_within (ha : a.Within a') (hb : b.Within b') (h : (a.hull b).hasNaN = false)
    (h' : (a'.hull b').hasNaN = false) :
    (a'.hull b').contains (a.hull b).lo = true ∧ (a'.hull b').contains (a.hull b).hi = true := by
  have hak := ha.keys
  have hbk := hb.keys
  obtain ⟨h1, h2⟩ := hasNaN_eq_false.1 h
  obtain ⟨h1', h2'⟩ := hasNaN_eq_false.1 h'
  constructor <;> refine contains_iff.2 ⟨h1', h2', by assumption, ?_, ?_⟩ <;>
    simp only [hull, min_key h1, min_key h1', max_key h2, max_key h2'] <;> omega

theorem Within.refl_zero : zero.Within zero := by decide

theorem and_within (ha : a.Within a') (hb : b.Within b') (h : (a.and b).hasNaN = false)
    (h' : (a'.and b').hasNaN = false) :
    (a'.and b').contains (a.and b).lo = true ∧ (a'.and b').contains (a.and b).hi = true := by
  simp only [Interval.and, ha.hasNaN, ha.hasNaN_right, Bool.false_eq_true, if_false] at h h' ⊢
  by_cases hz' : a'.isZero = true
  · rw [if_pos hz', if_pos (isZero_of_within ha hz')]
    exact ⟨ha.contains_lo, ha.contains_hi⟩
  · rw [if_neg hz'] at h' ⊢
    by_cases hnz' : a'.isNonzero = true
    · have hnz := isNonzero_of_within ha hnz'
      rw [if_pos hnz', if_neg (not_isZero_of_isNonzero ha hnz), if_pos hnz]
      exact ⟨hb.contains_lo, hb.contains_hi⟩
    · rw [if_neg hnz'] at h' ⊢
      by_cases hz : a.isZero = true
      · -- A zero lies in the hull with zero.
        rw [if_pos hz]
        obtain ⟨hal, hah⟩ := hasNaN_eq_false.1 ha.hasNaN
        obtain ⟨hk, hk'⟩ := (isZero_iff ha.hasNaN).1 hz
        exact ⟨hull_contains h' (.inr (zero_contains hal hk)),
          hull_contains h' (.inr (zero_contains hah hk'))⟩
      · rw [if_neg hz] at h ⊢
        by_cases hnz : a.isNonzero = true
        · rw [if_pos hnz]
          exact ⟨hull_contains h' (.inl hb.contains_lo), hull_contains h' (.inl hb.contains_hi)⟩
        · rw [if_neg hnz] at h ⊢
          exact hull_within hb .refl_zero h h'

theorem or_within (ha : a.Within a') (hb : b.Within b') (h : (a.or b).hasNaN = false)
    (h' : (a'.or b').hasNaN = false) :
    (a'.or b').contains (a.or b).lo = true ∧ (a'.or b').contains (a.or b).hi = true := by
  simp only [Interval.or, ha.hasNaN, ha.hasNaN_right, Bool.false_eq_true, if_false] at h h' ⊢
  by_cases hnz' : a'.isNonzero = true
  · rw [if_pos hnz', if_pos (isNonzero_of_within ha hnz')]
    exact ⟨ha.contains_lo, ha.contains_hi⟩
  · rw [if_neg hnz'] at h' ⊢
    by_cases hz' : a'.isZero = true
    · have hz := isZero_of_within ha hz'
      rw [if_pos hz', if_neg (fun hnz => not_isZero_of_isNonzero ha hnz hz), if_pos hz]
      exact ⟨hb.contains_lo, hb.contains_hi⟩
    · rw [if_neg hz'] at h' ⊢
      by_cases hnz : a.isNonzero = true
      · rw [if_pos hnz]
        exact ⟨hull_contains h' (.inl ha.contains_lo), hull_contains h' (.inl ha.contains_hi)⟩
      · rw [if_neg hnz] at h ⊢
        by_cases hz : a.isZero = true
        · rw [if_pos hz]
          exact ⟨hull_contains h' (.inr hb.contains_lo), hull_contains h' (.inr hb.contains_hi)⟩
        · rw [if_neg hz] at h ⊢
          exact hull_within ha hb h h'

/-- An operator of two operands on smaller intervals gives a smaller interval. -/
theorem binary_within {o : BinaryOp} (ho : (Op.binary o).isArithmetic = true) (ha : a.Within a')
    (hb : b.Within b') (h : (binary o a b).hasNaN = false) (h' : (binary o a' b').hasNaN = false) :
    (binary o a b).Within (binary o a' b') := by
  have number := hasNaN_eq_false.1 h
  obtain ⟨hlo, hhi⟩ : (binary o a' b').contains (binary o a b).lo = true ∧
      (binary o a' b').contains (binary o a b).hi = true := by
    cases o with
    | add => exact ⟨add_contains ha.contains_lo hb.contains_lo h' number.1,
        add_contains ha.contains_hi hb.contains_hi h' number.2⟩
    | sub => exact ⟨sub_contains ha.contains_lo hb.contains_hi h' number.1,
        sub_contains ha.contains_hi hb.contains_lo h' number.2⟩
    | mul => exact mul_within ha hb
    | div => exact div_within ha hb
    | min => exact ⟨min_contains ha.contains_lo hb.contains_lo h' number.1,
        min_contains ha.contains_hi hb.contains_hi h' number.2⟩
    | max => exact ⟨max_contains ha.contains_lo hb.contains_lo h' number.1,
        max_contains ha.contains_hi hb.contains_hi h' number.2⟩
    | compare => exact compare_within ha hb
    | and => exact and_within ha hb h h'
    | or => exact or_within ha hb h h'
    | mod => cases ho
    | atan2 => cases ho
  exact .of_contains (binary_isInverted ho ha.isInverted hb.isInverted) hlo hhi

/-- A choice that larger intervals resolve is resolved in the same way by
smaller ones. -/
theorem choice_within {o : BinaryOp} (ha : a.Within a') (hb : b.Within b')
    (h : (choice o a' b').isResolved = true) : choice o a b = choice o a' b' := by
  have hak := ha.keys
  have hbk := hb.keys
  obtain ⟨hal, hah⟩ := hasNaN_eq_false.1 ha.hasNaN
  obtain ⟨hal', hah'⟩ := hasNaN_eq_false.1 ha.hasNaN_right
  obtain ⟨hbl, hbh⟩ := hasNaN_eq_false.1 hb.hasNaN
  obtain ⟨hbl', hbh'⟩ := hasNaN_eq_false.1 hb.hasNaN_right
  cases o with
  | min =>
    simp only [choice, below, lt_iff hah hbl, lt_iff hbh hal, lt_iff hah' hbl', lt_iff hbh' hal']
      at h ⊢
    by_cases h1 : a'.hi.key < b'.lo.key
    · rw [if_pos h1, if_pos (by omega)]
    · rw [if_neg h1] at h ⊢
      by_cases h2 : b'.hi.key < a'.lo.key
      · rw [if_pos h2, if_neg (by omega), if_pos (by omega)]
      · rw [if_neg h2] at h
        cases h
  | max =>
    simp only [choice, above, lt_iff hah hbl, lt_iff hbh hal, lt_iff hah' hbl', lt_iff hbh' hal']
      at h ⊢
    by_cases h1 : b'.hi.key < a'.lo.key
    · rw [if_pos h1, if_pos (by omega)]
    · rw [if_neg h1] at h ⊢
      by_cases h2 : a'.hi.key < b'.lo.key
      · rw [if_pos h2, if_neg (by omega), if_pos (by omega)]
      · rw [if_neg h2] at h
        cases h
  | and =>
    simp only [choice, ha.hasNaN, ha.hasNaN_right, Bool.false_eq_true, if_false] at h ⊢
    by_cases hz : a'.isZero = true
    · rw [if_pos hz, if_pos (isZero_of_within ha hz)]
    · rw [if_neg hz] at h ⊢
      by_cases hnz : a'.isNonzero = true
      · have ha' := isNonzero_of_within ha hnz
        rw [if_pos hnz, if_neg (not_isZero_of_isNonzero ha ha'), if_pos ha']
      · rw [if_neg hnz] at h
        cases h
  | or =>
    simp only [choice, ha.hasNaN, ha.hasNaN_right, Bool.false_eq_true, if_false] at h ⊢
    by_cases hnz : a'.isNonzero = true
    · rw [if_pos hnz, if_pos (isNonzero_of_within ha hnz)]
    · rw [if_neg hnz] at h ⊢
      by_cases hz : a'.isZero = true
      · have hz' := isZero_of_within ha hz
        rw [if_pos hz, if_neg (fun h => not_isZero_of_isNonzero ha h hz'), if_pos hz']
      · rw [if_neg hz] at h
        cases h
  | _ => cases h

/-- A region within another: each interval lies in that of its variable. -/
def Inside (sub region : Array Interval) : Prop :=
  List.Forall₂ Within sub.toList region.toList

theorem Inside.size {sub region : Array Interval} (h : Inside sub region) :
    sub.size = region.size := by
  simpa using h.length_eq

theorem Inside.getElem? {sub region : Array Interval} (h : Inside sub region) {j : Nat}
    {a b : Interval} (ha : sub[j]? = some a) (hb : region[j]? = some b) : a.Within b :=
  forall₂_getElem? h ha hb

end

end Interval

/-! ## Instructions -/

section

variable {sub region : Array Interval} {reads reads' : Nat → Option Interval} {i : Instr}
  {a b : Interval} {c d : Option Choice}

/-- One step of inclusion: an instruction whose operands lie within those of
another region has its interval within, unless a bound is NaN. -/
theorem Instr.outcome_within (hin : Interval.Inside sub region) (harith : i.isArithmetic = true)
    (hargs : ∀ k ∈ i.args, ∀ x y, reads k = some x → reads' k = some y → x.Within y)
    (ha : i.outcome? .interval sub reads = some (a, c))
    (hb : i.outcome? .interval region reads' = some (b, d))
    (hnan : a.hasNaN = false) (hnan' : b.hasNaN = false) : a.Within b := by
  have harith' : ∀ {op : Op}, i.op? = some op → op.isArithmetic = true := fun hop => by
    simpa [isArithmetic, hop] using harith
  refine outcome?_rel (R := fun a b => a.hasNaN = false → b.hasNaN = false → a.Within b)
    ?_ ?_ ?_ ?_ ha hb hnan hnan'
  · intro k x y hx hy _ _
    exact hin.getElem? hx hy
  · intro himm _
    have himm : i.imm.isNaN = false := (Interval.hasNaN_eq_false.1 himm).1
    have hle : i.imm.le i.imm = true := Binary.le_eq_true.2 ⟨himm, himm, Int.le_refl _⟩
    exact ⟨hle, hle, hle⟩
  · intro u x y hop hx hy
    have hxy := hargs i.left (by simp [args_unary hop]) x y hx hy
    exact Interval.unary_within (harith' hop) hxy
  · intro o x y x' y' hop hx hy hx' hy'
    have hleft := hargs i.left (by simp [args_binary hop]) x y hx hy
    have hright := hargs i.right (by simp [args_binary hop]) x' y' hx' hy'
    exact Interval.binary_within (harith' hop) hleft hright

theorem Instr.choice_within
    (hargs : ∀ k ∈ i.args, ∀ x y, reads k = some x → reads' k = some y → x.Within y)
    (ha : i.outcome? .interval sub reads = some (a, c))
    (hb : i.outcome? .interval region reads' = some (b, d))
    (hd : (d.getD .unknown).isResolved = true) : c.getD .unknown = d.getD .unknown := by
  rcases hop : i.op? with _ | op
  · simp [outcome?, hop] at ha
  cases op with
  | input =>
    simp only [outcome?, hop] at hb
    split at hb
    · simp at hb
    · simp only [Option.map_eq_some_iff, Prod.mk.injEq] at hb
      obtain ⟨-, -, -, rfl⟩ := hb
      cases hd
  | const =>
    simp only [outcome?, hop, Option.some.injEq, Prod.mk.injEq] at hb
    obtain ⟨-, rfl⟩ := hb
    cases hd
  | unary u =>
    simp only [outcome?, hop, Option.map_eq_some_iff, Prod.mk.injEq] at hb
    obtain ⟨-, -, -, rfl⟩ := hb
    cases hd
  | binary o =>
    simp only [outcome?, hop, Option.bind_eq_some_iff, Option.map_eq_some_iff,
      Prod.mk.injEq] at ha hb
    obtain ⟨x, hx, x', hx', -, rfl⟩ := ha
    obtain ⟨y, hy, y', hy', -, rfl⟩ := hb
    have hleft := hargs i.left (by simp [args_binary hop]) x y hx hy
    have hright := hargs i.right (by simp [args_binary hop]) x' y' hx' hy'
    exact Interval.choice_within hleft hright hd

end

/-! ## Tapes -/

namespace Tape

variable {t : Tape} {sub region : Array Interval}

/-- The slot's interval over `sub` lies in that over `region`. -/
def WithinAt (t : Tape) (sub region : Array Interval) (k : Nat) : Prop :=
  ∃ a b, (t.slotValues .interval sub)[k]? = some a ∧ (t.slotValues .interval region)[k]? = some b ∧
    a.Within b

/-- Inclusion passes to every slot: by induction on slots, since operands come
before. -/
theorem WellFormed.within (hwf : t.WellFormed) (harith : ∀ i ∈ t.instrs, i.isArithmetic = true)
    (hvars : region.size = t.vars.size) (hin : Interval.Inside sub region)
    (hnan : ∀ a ∈ t.slotValues .interval region, a.hasNaN = false)
    (hnan' : ∀ a ∈ t.slotValues .interval sub, a.hasNaN = false) :
    ∀ k < t.size, t.WithinAt sub region k := by
  have hsub := hin.size.trans hvars
  have hall := hwf.slots_rel (I := .interval) (J := .interval) (R := Interval.Within) hsub hvars
    fun k i a b c d hi ha hb hsa hsb hargs =>
      Instr.outcome_within hin (harith i (Array.mem_of_getElem? hi)) hargs hsa hsb
        (hnan' a (Array.mem_of_getElem? ha)) (hnan b (Array.mem_of_getElem? hb))
  intro k hk
  have hi : t.instrs[k]? = some t.instrs[k] := Array.getElem?_eq_getElem hk
  obtain ⟨a, c, ha, -⟩ := (hwf.means (I := .interval) hsub).outcome hi
  obtain ⟨b, d, hb, -⟩ := (hwf.means (I := .interval) hvars).outcome hi
  exact ⟨a, b, ha, hb, hall k a b ha hb⟩

theorem mismatch?_eq_none_iff {want got : List Choice} (pos : Nat)
    (hlen : want.length = got.length) :
    mismatch? pos want got = none ↔
      ∀ (k : Nat) (c : Choice), want[k]? = some c → c.isResolved = true → got[k]? = some c := by
  induction want generalizing got pos with
  | nil => simp [mismatch?]
  | cons w want ih =>
    cases got with
    | nil => cases hlen
    | cons g got =>
      have htail := ih (pos + 1) (Nat.succ.inj hlen)
      by_cases hw : (w.isResolved && g != w) = true
      · rw [mismatch?, if_pos hw]
        simp only [Bool.and_eq_true, bne_iff_ne, ne_eq] at hw
        refine iff_of_false (by simp) fun h => hw.2 ?_
        exact Option.some.inj (h 0 w rfl hw.1)
      · rw [mismatch?, if_neg hw, htail]
        refine ⟨fun h k c hc hresolved => ?_, fun h k => h (k + 1)⟩
        cases k with
        | zero =>
          cases hc
          simpa [hresolved] using hw
        | succ k => exact h k c hc hresolved

/-- **What the check of choices checks.** Choices pass over a region if and only
if there is one for each that the tape makes there, and those that are resolved
are the ones made. -/
theorem verifyChoices_eq_ok_iff {want : List Choice} :
    t.verifyChoices region want = .ok () ↔
      ∃ out got, t.choicesOver region = .ok (out, got) ∧ want.length = got.length ∧
        ∀ (k : Nat) (c : Choice), want[k]? = some c → c.isResolved = true → got[k]? = some c := by
  unfold verifyChoices
  split
  · rename_i e he
    simp [he]
  · rename_i out got hgot
    by_cases hlen : want.length = got.length
    · rw [if_neg (not_not_intro hlen)]
      have hiff := mismatch?_eq_none_iff 0 hlen
      split
      · rename_i e he
        rw [he] at hiff
        simpa [hgot, hlen] using hiff
      · rename_i hnone
        exact iff_of_true rfl ⟨out, got, hgot, hlen, hiff.1 hnone⟩
    · simp [hgot, hlen]

/-- The choices over a region are found again over every region within it. -/
theorem WellFormed.verifyChoices_within (hwf : t.WellFormed) (hvars : region.size = t.vars.size)
    (hsub : sub.size = t.vars.size) (hwithin : ∀ k < t.size, t.WithinAt sub region k)
    {out : List Interval} {cs : List Choice} (hcs : t.choicesOver region = .ok (out, cs)) :
    t.verifyChoices sub cs = .ok () := by
  obtain ⟨_, _, hcs', hlen, hslot⟩ := hwf.choicesOver_outcome hvars
  obtain ⟨rfl, rfl⟩ : _ ∧ _ := by simpa [hcs] using hcs'.symm
  obtain ⟨out', got, hgot, hlen', hslot'⟩ := hwf.choicesOver_outcome hsub
  rw [verifyChoices_eq_ok_iff]
  refine ⟨out', got, hgot, hlen.trans hlen'.symm, fun k w hw hresolved => ?_⟩
  have hk : k < t.size := hlen ▸ (List.getElem?_eq_some_iff.1 hw).1
  have hi : t.instrs[k]? = some t.instrs[k] := Array.getElem?_eq_getElem hk
  obtain ⟨b, d, hb, hd⟩ := hslot k _ hi
  obtain ⟨a, c, ha, hc⟩ := hslot' k _ hi
  obtain rfl : w = d.getD .unknown := by simpa [hw] using hd
  rw [hc, Option.some.injEq]
  refine Instr.choice_within (fun j hj x y hx hy => ?_) ha hb hresolved
  have hlt := (hwf.instr hi).args j hj
  obtain ⟨x', y', hx', hy', hw'⟩ := hwithin j (hlt.trans hk)
  obtain rfl : x' = x := by simpa [hx] using hx'.symm
  obtain rfl : y' = y := by simpa [hy] using hy'.symm
  exact hw'

/-- **Resolved choices are inherited by smaller regions.** A valid tape without
elementary functions and remainders is evaluated over a region and over one
within it. If no slot has a NaN bound over either, then each slot's interval
over the smaller region lies in that over the larger one. The choices that the
tape is simplified by over the larger region pass the check over the smaller
one: whatever they resolve is the choice made there, too. -/
theorem choices_inherited (t : Tape) (sub region : Array Interval)
    (hvalid : t.validate = .ok ()) (harith : ∀ i ∈ t.instrs, i.isArithmetic = true)
    (hvars : region.size = t.vars.size) (hin : Interval.Inside sub region)
    (hnan : ∀ a ∈ t.slotValues .interval region, a.hasNaN = false)
    (hnan' : ∀ a ∈ t.slotValues .interval sub, a.hasNaN = false) :
    (∀ k < t.size, ∃ a b, (t.slotValues .interval sub)[k]? = some a ∧
        (t.slotValues .interval region)[k]? = some b ∧
        b.lo.le a.lo = true ∧ a.lo.le a.hi = true ∧ a.hi.le b.hi = true) ∧
      (t.size ≤ 2 ^ 32 → ∃ s cs, t.simplifyOver region = .ok (s, cs)) ∧
      ∀ s cs, t.simplifyOver region = .ok (s, cs) → t.verifyChoices sub cs = .ok () ∧
        ∃ out got, t.choicesOver sub = .ok (out, got) ∧ cs.length = got.length ∧
          ∀ (k : Nat) (c : Choice), cs[k]? = some c → c.isResolved = true →
            got[k]? = some c := by
  obtain ⟨-, hwf⟩ := validate_eq_ok.1 hvalid
  have hwithin := hwf.within harith hvars hin hnan hnan'
  obtain ⟨out, cs, hcs, hlen, -⟩ := hwf.choicesOver_outcome hvars
  refine ⟨fun k hk => ?_, fun ht => ?_, fun s cs' hs => ?_⟩
  · obtain ⟨a, b, ha, hb, h⟩ := hwithin k hk
    exact ⟨a, b, ha, hb, h.lower, h.order, h.upper⟩
  · obtain ⟨s, _, _, hs, -⟩ := hwf.simplify_eq hlen ht
    exact ⟨s, cs, by simp only [simplifyOver, hcs, hs]⟩
  · have heq : cs' = cs := by
      simp only [simplifyOver, hcs] at hs
      split at hs <;> simp_all
    have hok := hwf.verifyChoices_within hvars (hin.size.trans hvars) hwithin hcs
    rw [heq]
    exact ⟨hok, verifyChoices_eq_ok_iff.1 hok⟩

/-- `min (x * y) 10 and x / y`. -/
def clampedProduct : Tape where
  instrs := #[{ code := Op.input.code, var := 0 }, { code := Op.input.code, var := 1 },
    { code := BinaryOp.mul.code, left := 0, right := 1 },
    { code := Op.const.code, imm := .ofInt 10 },
    { code := BinaryOp.min.code, left := 2, right := 3 },
    { code := BinaryOp.div.code, left := 0, right := 1 },
    { code := BinaryOp.and.code, left := 4, right := 5 }]
  outputs := #[6]
  vars := #[utf8 "x", utf8 "y"]

/-- From 1 to 4 and from -3 to 2 the product is below 10, which resolves the
`min`; the smaller region from 2 to 3 and from 1 to 2 inherits it, and resolves
the `and` too. -/
theorem choices_inherited_clampedProduct :
    ((∀ k < clampedProduct.size, ∃ a b,
        (clampedProduct.slotValues .interval #[⟨.ofInt 2, .ofInt 3⟩, ⟨.ofInt 1, .ofInt 2⟩])[k]? =
          some a ∧
        (clampedProduct.slotValues .interval #[⟨.ofInt 1, .ofInt 4⟩, ⟨.ofInt (-3), .ofInt 2⟩])[k]? =
          some b ∧
        b.lo.le a.lo = true ∧ a.lo.le a.hi = true ∧ a.hi.le b.hi = true) ∧
      (clampedProduct.size ≤ 2 ^ 32 → ∃ s cs, clampedProduct.simplifyOver
        #[⟨.ofInt 1, .ofInt 4⟩, ⟨.ofInt (-3), .ofInt 2⟩] = .ok (s, cs)) ∧
      ∀ s cs, clampedProduct.simplifyOver #[⟨.ofInt 1, .ofInt 4⟩, ⟨.ofInt (-3), .ofInt 2⟩] =
          .ok (s, cs) →
        clampedProduct.verifyChoices #[⟨.ofInt 2, .ofInt 3⟩, ⟨.ofInt 1, .ofInt 2⟩] cs = .ok () ∧
        ∃ out got, clampedProduct.choicesOver #[⟨.ofInt 2, .ofInt 3⟩, ⟨.ofInt 1, .ofInt 2⟩] =
            .ok (out, got) ∧ cs.length = got.length ∧
          ∀ (k : Nat) (c : Choice), cs[k]? = some c → c.isResolved = true →
            got[k]? = some c) ∧
    (clampedProduct.simplifyOver #[⟨.ofInt 1, .ofInt 4⟩, ⟨.ofInt (-3), .ofInt 2⟩]).toOption.map
        (·.2) = some [.unknown, .unknown, .unknown, .unknown, .left, .unknown, .both] ∧
    (clampedProduct.choicesOver #[⟨.ofInt 2, .ofInt 3⟩, ⟨.ofInt 1, .ofInt 2⟩]).toOption.map
        (·.2) = some [.unknown, .unknown, .unknown, .unknown, .left, .unknown, .right] :=
  ⟨choices_inherited clampedProduct _ _ (by decide +kernel) (by decide +kernel) (by decide +kernel)
    (.cons (by decide +kernel) (.cons (by decide +kernel) .nil)) (by decide +kernel)
    (by decide +kernel), by decide +kernel, by decide +kernel⟩

end Tape

end ScalarField
