/-
The interval of remainders encloses the remainders, if what it takes for one
period is one (`Interval.mod_encloses`).

Within a period the exact remainder grows with the dividend, and rounding keeps
order; everywhere else a remainder lies between zero and the divisor. Whether
two dividends lie in one period is decided by the floors of quotients that have
been rounded. A quotient just below an integer may be rounded up to it, a small
one to zero and a great one to infinity; then the interval can miss the
remainders (`Interval.mod_misses`).
-/
import ScalarField.Proofs.Interval.Operators
import ScalarField.Proofs.Number.Operands
import ScalarField.Proofs.Number.Remainder

namespace ScalarField

namespace Binary

variable {f : Format} {x y : Binary f}

theorem maximum_self (hx : x.IsFinite) : x.maximum x = x := by
  simp [maximum, hx.isNaN, hx.isInf]

theorem maximum_key (hx : x.IsFinite) (hy : y.IsFinite) :
    (x.maximum y).IsFinite ∧ (x.maximum y).key = max x.key y.key := by
  simp only [maximum, hx.isNaN, hy.isNaN, hx.isInf, hy.isInf, Bool.false_and, Bool.or_false,
    Bool.false_eq_true, if_false, Bool.and_eq_true]
  split
  · rename_i hzero
    have hkey : ∀ {z : Binary f}, z.isZero = true → z.key = 0 := fun hz => by
      simp_all [isZero, key]
    rw [hkey hzero.1, hkey hzero.2]
    split
    · exact ⟨hy, by rw [hkey hzero.2]; rfl⟩
    · exact ⟨hx, by rw [hkey hzero.1]; rfl⟩
  · split
    · rename_i hlt
      have hkey := (lt_eq_true.1 hlt).2.2
      exact ⟨hx, by omega⟩
    · rename_i hlt
      have hkey : ¬y.key < x.key := fun h => hlt (lt_eq_true.2 ⟨hy.isNaN, hx.isNaN, h⟩)
      exact ⟨hy, by omega⟩

end Binary

namespace Interval

variable {a b : Interval} {u v : Binary64}

def IsFinite (a : Interval) : Prop := a.lo.IsFinite ∧ a.hi.IsFinite

instance (a : Interval) : Decidable a.IsFinite := inferInstanceAs (Decidable (_ ∧ _))

theorem IsFinite.contains (ha : a.IsFinite) (hu : a.contains u = true) : u.IsFinite := by
  obtain ⟨-, -, -, hlo, hhi⟩ := contains_iff.1 hu
  exact ha.1.between ha.2 hlo hhi

/-- If the rounded quotients of the bounds by the one divisor have the same
floor, then so have the exact ones. -/
def FloorsExact (a b : Interval) : Prop :=
  b.lo.eq b.hi = true → (a.lo.div b.lo.abs).floor.eq (a.hi.div b.lo.abs).floor = true →
    a.lo.toUnits / (b.lo.units : Int) = a.hi.toUnits / (b.lo.units : Int)

instance (a b : Interval) : Decidable (a.FloorsExact b) :=
  inferInstanceAs (Decidable (_ → _ → _))

/-- Either the bounds of the remainders of one period, or those of all. -/
theorem mod_cases (ha : a.IsFinite) (hb : b.IsFinite) :
    (b.lo = b.hi ∧ b.lo.isZero = false ∧
      (a.lo.div b.lo.abs).floor.eq (a.hi.div b.lo.abs).floor = true ∧
      a.mod b = ⟨Scalar.mod a.lo b.lo, Scalar.mod a.hi b.lo⟩) ∨
    a.mod b = ⟨.zero, b.lo.abs.maximum b.hi.abs⟩ := by
  have hnan : (a.hasNaN || b.hasNaN) = false := by
    simp [hasNaN, ha.1.isNaN, ha.2.isNaN, hb.1.isNaN, hb.2.isNaN]
  unfold mod
  simp only [hnan, Bool.false_eq_true, if_false, Bool.and_eq_true, Bool.not_eq_true', and_assoc]
  split
  · rename_i h
    obtain ⟨heq, hm, -, -, -, hfloor⟩ := h
    have hkey := (Binary.eq_eq_true.1 heq).2.2
    obtain ⟨hmax, hmaxkey⟩ := Binary.maximum_key (x := b.lo.abs) (y := b.hi.abs) hb.1 hb.2
    -- A divisor of zero is not taken for one number.
    have hzero : b.lo.isZero = false := by
      by_contra hz
      have hlo : b.lo.key = 0 := by simp_all [Binary.isZero, Binary.key]
      have hmz : (b.lo.abs.maximum b.hi.abs).eq .zero = true := by
        refine Binary.eq_eq_true.2 ⟨hmax.isNaN, zero_isNaN, ?_⟩
        rw [hmaxkey, abs_key, abs_key, zero_key]
        omega
      rw [hmz] at hm
      cases hm
    have hone : b.lo = b.hi := Binary.eq_of_key_eq hkey fun h => by
      have hlo := h.1
      rw [hzero] at hlo
      cases hlo
    rw [← hone, Binary.maximum_self (x := b.lo.abs) hb.1] at hfloor
    exact .inl ⟨hone, hzero, hfloor, rfl⟩
  · exact .inr rfl

theorem mod_contains_of_period (ha : a.IsFinite) (hv : v.IsFinite) (hz : v.isZero = false)
    (hperiod : a.lo.toUnits / (v.units : Int) = a.hi.toUnits / (v.units : Int))
    (hu : a.contains u = true) :
    (⟨Scalar.mod a.lo v, Scalar.mod a.hi v⟩ : Interval).contains (Scalar.mod u v) = true := by
  obtain ⟨-, -, -, hlo, hhi⟩ := contains_iff.1 hu
  have hufin := ha.contains hu
  have hnan : ∀ {x : Binary64}, x.IsFinite → (Scalar.mod x v).isNaN = false :=
    fun hx => (Scalar.mod_key_bounds hx hv hz).1
  have hfloor : a.lo.toUnits / (v.units : Int) = u.toUnits / (v.units : Int) := by
    have hpos : (0 : Int) < v.units := Int.natCast_pos.2 (Binary.units_pos hz)
    have hle := Int.ediv_le_ediv hpos (Binary.toUnits_le_toUnits.2 hlo)
    have hle' := Int.ediv_le_ediv hpos (Binary.toUnits_le_toUnits.2 hhi)
    omega
  exact contains_iff.2 ⟨hnan ha.1, hnan ha.2, hnan hufin,
    Scalar.mod_key_le ha.1 hufin hv hz hlo hfloor,
    Scalar.mod_key_le hufin ha.2 hv hz hhi (hfloor.symm.trans hperiod)⟩

/-- **The interval of remainders encloses them, where the floors are exact.** Of
intervals with finite bounds, those of the dividends in order, the interval of
remainders has its bounds in order and contains the euclidean remainder of any
two numbers of theirs with a divisor that is not zero, unless the floors of the
rounded quotients of the bounds are the same and those of the exact ones are
not. -/
theorem mod_encloses (a b : Interval) (ha : a.IsFinite) (hb : b.IsFinite)
    (horder : a.lo.le a.hi = true) (hexact : a.FloorsExact b) :
    (a.mod b).lo.le (a.mod b).hi = true ∧
      ∀ u v, a.contains u = true → b.contains v = true → v.isZero = false →
        (a.mod b).contains (Scalar.mod u v) = true := by
  have hkey := (Binary.le_eq_true.1 horder).2.2
  rcases mod_cases ha hb with ⟨hone, hz, hfloor, hmod⟩ | hmod
  · have hperiod := hexact (Binary.eq_eq_true.2 ⟨hb.1.isNaN, hb.2.isNaN, hone ▸ rfl⟩) hfloor
    have hlo := (Scalar.mod_key_bounds ha.1 hb.1 hz).1
    have hhi := (Scalar.mod_key_bounds ha.2 hb.1 hz).1
    rw [hmod]
    refine ⟨Binary.le_eq_true.2 ⟨hlo, hhi, Scalar.mod_key_le ha.1 ha.2 hb.1 hz hkey hperiod⟩, ?_⟩
    intro u v hu hv hvz
    obtain ⟨-, -, -, hvlo, hvhi⟩ := contains_iff.1 hv
    obtain rfl : v = b.lo := by
      refine Binary.eq_of_key_eq ?_ fun h => by simp [h.1] at hvz
      rw [← hone] at hvhi
      omega
    exact mod_contains_of_period ha hb.1 hz hperiod hu
  · obtain ⟨hmax, hmaxkey⟩ := Binary.maximum_key (x := b.lo.abs) (y := b.hi.abs) hb.1 hb.2
    generalize b.lo.abs.maximum b.hi.abs = m at hmod hmax hmaxkey
    rw [abs_key, abs_key] at hmaxkey
    have hm : 0 ≤ m.key := by omega
    rw [hmod]
    refine ⟨Binary.le_eq_true.2 ⟨zero_isNaN, hmax.isNaN, zero_key.le.trans hm⟩, ?_⟩
    intro u v hu hv hvz
    obtain ⟨-, -, -, hvlo, hvhi⟩ := contains_iff.1 hv
    obtain ⟨hnan, hpos, hle⟩ := Scalar.mod_key_bounds (ha.contains hu) (hb.contains hv) hvz
    have hvm : v.abs.key ≤ m.key := by
      rw [abs_key]
      omega
    exact contains_iff.2 ⟨zero_isNaN, hmax.isNaN, hnan, zero_key.le.trans hpos, hle.trans hvm⟩

/-- From -5 to -4 by 3, which is one period. -/
theorem mod_encloses_minusFive :
    (⟨.ofInt (-5), .ofInt (-4)⟩ : Interval).FloorsExact (splat (.ofInt 3)) ∧
      (⟨.ofInt (-5), .ofInt (-4)⟩ : Interval).mod (splat (.ofInt 3)) = ⟨.ofInt 1, .ofInt 2⟩ ∧
      ((⟨.ofInt (-5), .ofInt (-4)⟩ : Interval).mod (splat (.ofInt 3))).contains
        (Scalar.mod (.ofInt (-5)) (.ofInt 3)) = true := by
  have hexact : (⟨.ofInt (-5), .ofInt (-4)⟩ : Interval).FloorsExact (splat (.ofInt 3)) := by
    decide +kernel
  obtain ⟨-, hall⟩ := mod_encloses ⟨.ofInt (-5), .ofInt (-4)⟩ (splat (.ofInt 3))
    (by decide +kernel) (by decide +kernel) (by decide +kernel) hexact
  exact ⟨hexact, by decide +kernel,
    hall _ _ (by decide +kernel) (by decide +kernel) (by decide +kernel)⟩

/-- The remainders by `d` of an interval with finite bounds in order are given an
interval whose bounds are not, and which does not contain that of its least
number. -/
def MissesRemainder (a : Interval) (d : Binary64) : Prop :=
  a.IsFinite ∧ a.lo.le a.hi = true ∧ d.IsFinite ∧ d.isZero = false ∧
    (a.mod (splat d)).lo.le (a.mod (splat d)).hi = false ∧
    (a.mod (splat d)).contains (Scalar.mod a.lo d) = false

instance (a : Interval) (d : Binary64) : Decidable (a.MissesRemainder d) :=
  inferInstanceAs (Decidable (_ ∧ _))

/-- From 0.9 to 0.95 by 0.1, where the first quotient is rounded up to 9; from the
greatest negative number to zero by 1e308, where it is rounded to zero; and from
1e308 to 1.1e308 by 1e-308, where both are rounded to infinity. -/
theorem mod_misses :
    (⟨.ofBits 0x3feccccccccccccd, .ofBits 0x3fee666666666666⟩ : Interval).MissesRemainder
        (.ofBits 0x3fb999999999999a) ∧
      (⟨.ofBits 0x8000000000000001, .zero⟩ : Interval).MissesRemainder
        (.ofBits 0x7fe1ccf385ebc8a0) ∧
      (⟨.ofBits 0x7fe1ccf385ebc8a0, .ofBits 0x7fe394a579b68fe3⟩ : Interval).MissesRemainder
        (.ofBits 0x000730d67819e8d2) := by
  decide +kernel

end Interval

end ScalarField
