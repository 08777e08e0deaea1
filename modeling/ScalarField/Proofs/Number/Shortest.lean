/-
The search for the shortest decimal ends with one that rounds back
(`Target.shortest_rounds`).

Whatever the search finds lies in the interval (`Target.search_spec`). It finds
something, because on the last grid that it looks at the steps are no longer
than the gap to the next lower number, so that the number cut off is in the
interval. That compares a power of ten with one of two: `30103 / 100000` is
close enough to the logarithm for all exponents that occur
(`ten_pow_le_two_pow`, `two_pow_le_ten_pow`).
-/
import ScalarField.Number.Shortest
import ScalarField.Proofs.Number.Halfway

namespace ScalarField

/-! ## Powers of two and of ten -/

theorem ten_pow_le_two_pow {q l : Nat} (h : 100000 * q ≤ 30103 * l) (hl : l ≤ 1100) :
    10 ^ q ≤ 2 ^ 14 * 2 ^ l := by
  have hq := Nat.div_add_mod q 3
  have hr := Nat.mod_lt q (show 0 < 3 by decide)
  generalize q / 3 = i at hq
  generalize q % 3 = r at hq hr
  calc 10 ^ q = (10 ^ 3) ^ i * 10 ^ r := by rw [← hq, Nat.pow_add, Nat.pow_mul]
    _ ≤ (2 ^ 10) ^ i * 10 ^ 2 :=
      Nat.mul_le_mul (Nat.pow_le_pow_left (by decide) i)
        (Nat.pow_le_pow_right (by decide) (by omega))
    _ ≤ 2 ^ (10 * i) * 2 ^ 7 := Nat.mul_le_mul (Nat.pow_mul 2 10 i).ge (by decide)
    _ = 2 ^ (10 * i + 7) := (Nat.pow_add 2 _ _).symm
    _ ≤ 2 ^ (14 + l) := Nat.pow_le_pow_right (by decide) (by omega)
    _ = 2 ^ 14 * 2 ^ l := Nat.pow_add 2 14 l

theorem two_pow_le_ten_pow {q l : Nat} (h : 30103 * l ≤ 100000 * q) (hl : l ≤ 1100) :
    2 ^ l ≤ 2 ^ 14 * 10 ^ q := by
  have hq := Nat.div_add_mod q 28
  have hr := Nat.mod_lt q (show 0 < 28 by decide)
  generalize q / 28 = i at hq
  generalize q % 28 = r at hq hr
  calc 2 ^ l ≤ 2 ^ (14 + (93 * i + 3 * r)) := Nat.pow_le_pow_right (by decide) (by omega)
    _ = 2 ^ 14 * ((2 ^ 93) ^ i * (2 ^ 3) ^ r) := by
      rw [Nat.pow_add, Nat.pow_add, Nat.pow_mul, Nat.pow_mul]
    _ ≤ 2 ^ 14 * ((10 ^ 28) ^ i * 10 ^ r) :=
      Nat.mul_le_mul_left _ (Nat.mul_le_mul (Nat.pow_le_pow_left (by decide) i)
        (Nat.pow_le_pow_left (by decide) r))
    _ = 2 ^ 14 * 10 ^ q := by rw [← hq, Nat.pow_add, Nat.pow_mul]

/-! ## Hits -/

namespace Target

variable {t : Target} {c : Nat} {p : Int}

theorem neighbour?_hits (h : t.neighbour? = some c) : t.hits c = true := by
  unfold neighbour? at h
  dsimp only at h
  split at h
  · rename_i hlow hhigh
    obtain rfl := Option.some.inj h
    unfold roundDiv
    split
    · exact hhigh
    · exact hlow
  · rename_i hlow _
    exact Option.some.inj h ▸ hlow
  · rename_i _ hhigh
    exact Option.some.inj h ▸ hhigh
  · simp at h

/-- The search finds a decimal in the interval, on one of its grids, or there is
none next to the value on any of them. -/
theorem search_spec (t : Target) : ∀ (n : Nat) (p : Int),
    ((t.inUnitsOf (t.search n p).exponent).hits (t.search n p).coefficient = true ∧
      (t.search n p).exponent ≤ p ∧ p < (t.search n p).exponent + n) ∨
    ∀ j : Nat, j < n → (t.inUnitsOf (p - j)).neighbour? = none
  | 0, _ => .inr fun _ h => absurd h (Nat.not_lt_zero _)
  | n + 1, p => by
    unfold search
    cases hnext : (t.inUnitsOf p).neighbour? with
    | some c =>
      simp only
      exact .inl ⟨neighbour?_hits hnext, Int.le_refl p, by omega⟩
    | none =>
      simp only
      rcases search_spec t n (p - 1) with ⟨hhits, hle, hlt⟩ | hnone
      · exact .inl ⟨hhits, by omega, by omega⟩
      · refine .inr fun j hj => ?_
        cases j with
        | zero => simpa using hnext
        | succ j =>
          have := hnone j (by omega)
          rwa [show p - 1 - (j : Int) = p - ((j + 1 : Nat) : Int) by omega] at this

/-- A grid whose steps are no longer than the interval below the value has a hit. -/
theorem neighbour?_ne_none (hscale : 0 < t.scale) (hlow : t.low + t.scale ≤ t.value)
    (hhigh : t.value < t.high) : t.neighbour? ≠ none := by
  have hdiv := Nat.div_add_mod t.value t.scale
  have hmod := Nat.mod_lt t.value hscale
  rw [Nat.mul_comm] at hdiv
  have hhits : t.hits (t.value / t.scale) = true := by
    unfold hits
    split <;> simp only [Bool.and_eq_true, decide_eq_true_eq] <;> omega
  unfold neighbour?
  simp only [hhits]
  split <;> simp_all

theorem inUnitsOf_eq (t : Target) (p : Int) : t.inUnitsOf p =
    { low := t.low * 10 ^ (-p).toNat, value := t.value * 10 ^ (-p).toNat,
      high := t.high * 10 ^ (-p).toNat, scale := t.scale * 10 ^ p.toNat, closed := t.closed } := by
  unfold inUnitsOf
  split
  · have hp : p.toNat = 0 := by omega
    simp [hp]
  · have hp : (-p).toNat = 0 := by omega
    simp [hp]

end Target

namespace Decimal

/-- A decimal in units is the quotient of its numerator and its denominator. -/
def numerator (f : Format) (d : Decimal) : Nat := d.coefficient * 10 ^ d.exponent.toNat * f.one

def denominator (d : Decimal) : Nat := 10 ^ (-d.exponent).toNat

theorem denominator_pos (d : Decimal) : 0 < d.denominator := Nat.pow_pos (by decide)

theorem rounds_of_hits {f : Format} {m : Nat} {d : Decimal}
    (h : ((Target.ofMagnitude f m).inUnitsOf d.exponent).hits d.coefficient = true) :
    f.Rounds m (d.numerator f) d.denominator := by
  have hscale : d.coefficient * (2 * f.one * 10 ^ d.exponent.toNat) = 2 * d.numerator f := by
    unfold numerator
    ring
  rw [Target.inUnitsOf_eq] at h
  simp only [Target.hits, Target.ofMagnitude, hscale] at h
  change (if (m % 2 == 0) = true then
    decide ((f.units (m - 1) + f.units m) * d.denominator ≤ 2 * d.numerator f) &&
      decide (2 * d.numerator f ≤ (f.units m + f.units (m + 1)) * d.denominator)
    else decide ((f.units (m - 1) + f.units m) * d.denominator < 2 * d.numerator f) &&
      decide (2 * d.numerator f < (f.units m + f.units (m + 1)) * d.denominator)) = true at h
  split at h
  · rename_i heven
    have heven : m % 2 = 0 := by simpa using heven
    simp only [Bool.and_eq_true, decide_eq_true_eq] at h
    exact ⟨fun _ => h.1, h.2, fun hodd => by omega⟩
  · simp only [Bool.and_eq_true, decide_eq_true_eq] at h
    exact ⟨fun _ => h.1.le, h.2.le, fun _ => h⟩

end Decimal

namespace Format

variable {f : Format} {m : Nat}

theorem exists_significand (f : Format) (m : Nat) : ∃ s q, m = s * 2 ^ f.fraction + q ∧
    q < 2 ^ (f.fraction + 1) ∧ (s = 0 ∨ 2 ^ f.fraction ≤ q) := by
  have hpos : 0 < 2 ^ f.fraction := Nat.pow_pos (by decide)
  have hdiv := Nat.div_add_mod m (2 ^ f.fraction)
  have hmod := Nat.mod_lt m hpos
  rw [Nat.mul_comm] at hdiv
  rw [Nat.pow_succ]
  generalize m % 2 ^ f.fraction = r at *
  cases he : m / 2 ^ f.fraction with
  | zero =>
    rw [he] at hdiv
    exact ⟨0, r, hdiv.symm, by omega, .inl rfl⟩
  | succ e =>
    rw [he, Nat.succ_mul] at hdiv
    exact ⟨e, 2 ^ f.fraction + r, by omega, by omega, .inr (Nat.le_add_right _ _)⟩

/-- The gap below a number is not small against it. -/
theorem units_lt_gap (hm : 0 < m) :
    f.units m < (f.units m - f.units (m - 1)) * 2 ^ (f.fraction + 2) := by
  have hpos : 0 < 2 ^ f.fraction := Nat.pow_pos (by decide)
  obtain ⟨s, q, rfl, hq, hs⟩ := f.exists_significand m
  have hunits := units_eq hq.le hs
  have hstep : 0 < 2 ^ s := Nat.pow_pos (by decide)
  by_cases hfirst : s = 0 ∨ 2 ^ f.fraction < q
  · obtain ⟨p, rfl, hprev⟩ := units_pred hq.le hm hfirst
    rw [hunits, hprev, Nat.succ_mul, Nat.add_sub_cancel_left, ← Nat.succ_mul, Nat.mul_comm]
    refine Nat.mul_lt_mul_of_pos_left (Nat.lt_of_lt_of_le hq ?_) hstep
    exact Nat.pow_le_pow_right (by decide) (by omega)
  · -- Below a power of two the gap is half a step.
    obtain ⟨e, rfl⟩ : ∃ e, s = e + 1 := Nat.exists_eq_succ_of_ne_zero fun h => hfirst (.inl h)
    obtain rfl : q = 2 ^ f.fraction := by omega
    have hprev := units_eq (f := f) (s := e) (q := 2 ^ (f.fraction + 1) - 1) (Nat.sub_le _ _)
      (.inr (by rw [Nat.pow_succ]; omega))
    have hlast : (e + 1) * 2 ^ f.fraction + 2 ^ f.fraction - 1 =
        e * 2 ^ f.fraction + (2 ^ (f.fraction + 1) - 1) := by
      rw [Nat.pow_succ, Nat.succ_mul]
      omega
    have hunits' : 2 ^ f.fraction * 2 ^ (e + 1) = 2 ^ (f.fraction + 1) * 2 ^ e := by ring
    have hgap : 2 ^ (f.fraction + 1) * 2 ^ e - (2 ^ (f.fraction + 1) - 1) * 2 ^ e = 2 ^ e := by
      rw [← Nat.sub_mul, Nat.sub_sub_self Nat.one_le_two_pow, Nat.one_mul]
    rw [hlast, hunits, hprev, hunits', hgap, Nat.mul_comm]
    exact Nat.mul_lt_mul_of_pos_left (Nat.pow_lt_pow_right (by decide) (by omega))
      (Nat.pow_pos (by decide))

/-! ## The shortest decimal -/

theorem units_infinity : binary64.units binary64.infinity = 2 ^ 1024 * binary64.one := by
  decide +kernel

theorem exists_log2_one : ∃ b, 2 * binary64.one = 2 ^ b ∧ b = 1075 :=
  ⟨1075, by decide +kernel, rfl⟩

end Format

namespace Target

open Format (binary64)

/-- The last grid of the search is finer than the value by fifty-five binary
digits; `a` and `b` are the logarithms of the value and the scale. -/
theorem grid_fine {a b : Nat} (ha : a ≤ b + 1100) (hb : b ≤ a + 1100) :
    2 ^ 55 * 2 ^ b * 10 ^ (((a : Int) - b) * 30103 / 100000 + 2 - 23).toNat ≤
      2 ^ a * 10 ^ (-(((a : Int) - b) * 30103 / 100000 + 2 - 23)).toNat := by
  have hten : 2 ^ 14 * 2 ^ 55 ≤ 10 ^ 21 := by decide
  rcases Nat.le_total b a with hle | hle
  · obtain ⟨l, rfl⟩ := Nat.exists_eq_add_of_le hle
    obtain ⟨q, hq⟩ : ∃ q : Nat, ((b + l : Nat) - b : Int) * 30103 / 100000 = q :=
      Int.eq_ofNat_of_zero_le (by omega)
    have hpow := ten_pow_le_two_pow (q := q) (l := l) (by omega) (by omega)
    rw [hq, show ((q : Int) + 2 - 23).toNat = q - 21 by omega,
      show (-((q : Int) + 2 - 23)).toNat = 21 - q by omega]
    have hscaled : 2 ^ 14 * (2 ^ 55 * 2 ^ b * 10 ^ (q - 21)) ≤
        2 ^ 14 * (2 ^ (b + l) * 10 ^ (21 - q)) :=
      calc 2 ^ 14 * (2 ^ 55 * 2 ^ b * 10 ^ (q - 21))
        _ = 2 ^ b * (2 ^ 14 * 2 ^ 55 * 10 ^ (q - 21)) := by ring
        _ ≤ 2 ^ b * (10 ^ 21 * 10 ^ (q - 21)) :=
          Nat.mul_le_mul_left _ (Nat.mul_le_mul_right _ hten)
        _ = 2 ^ b * (10 ^ q * 10 ^ (21 - q)) := by
          rw [← Nat.pow_add, ← Nat.pow_add, show 21 + (q - 21) = q + (21 - q) by omega]
        _ ≤ 2 ^ b * (2 ^ 14 * 2 ^ l * 10 ^ (21 - q)) :=
          Nat.mul_le_mul_left _ (Nat.mul_le_mul_right _ hpow)
        _ = 2 ^ 14 * (2 ^ (b + l) * 10 ^ (21 - q)) := by ring
    exact Nat.le_of_mul_le_mul_left hscaled (by decide)
  · obtain ⟨l, rfl⟩ := Nat.exists_eq_add_of_le hle
    obtain ⟨k, hk⟩ : ∃ k : Nat, -(((a : Int) - (a + l : Nat)) * 30103 / 100000) = k :=
      Int.eq_ofNat_of_zero_le (by omega)
    have hpow := two_pow_le_ten_pow (q := k) (l := l) (by omega) (by omega)
    rw [show (((a : Int) - (a + l : Nat)) * 30103 / 100000 + 2 - 23).toNat = 0 by omega,
      show (-(((a : Int) - (a + l : Nat)) * 30103 / 100000 + 2 - 23)).toNat = k + 21 by omega]
    calc 2 ^ 55 * 2 ^ (a + l) * 10 ^ 0
      _ = 2 ^ 55 * 2 ^ a * 2 ^ l := by ring
      _ ≤ 2 ^ 55 * 2 ^ a * (2 ^ 14 * 10 ^ k) := Nat.mul_le_mul_left _ hpow
      _ = 2 ^ a * (2 ^ 14 * 2 ^ 55 * 10 ^ k) := by ring
      _ ≤ 2 ^ a * (10 ^ 21 * 10 ^ k) := Nat.mul_le_mul_left _ (Nat.mul_le_mul_right _ hten)
      _ = 2 ^ a * 10 ^ (k + 21) := by ring

theorem exists_above {m : Nat} (hm : 0 < m) (hinf : m < binary64.infinity) :
    ∃ a b : Nat, 2 ^ a ≤ 2 * binary64.units m ∧ 2 * binary64.one = 2 ^ b ∧ b = 1075 ∧
      a ≤ b + 1023 ∧
      (ofMagnitude binary64 m).above = ((a : Int) - b) * 30103 / 100000 + 2 := by
  obtain ⟨b, hone, hb⟩ := Format.exists_log2_one
  have hpos : 0 < binary64.units m := by
    simpa [Format.units] using Format.units_lt_units (f := binary64) hm
  have hne : 2 * binary64.units m ≠ 0 := by omega
  refine ⟨(2 * binary64.units m).log2, b, Nat.log2_self_le hne, hone, hb, ?_, ?_⟩
  · have hlt := Format.units_lt_units (f := binary64) hinf
    rw [Format.units_infinity] at hlt
    refine Nat.le_of_lt_succ ((Nat.log2_lt hne).2 ?_)
    calc 2 * binary64.units m < 2 * (2 ^ 1024 * binary64.one) := by omega
      _ = 2 ^ 1024 * (2 * binary64.one) := Nat.mul_left_comm _ _ _
      _ = 2 ^ (b + 1024) := by rw [hone, Nat.add_comm, Nat.pow_add]
  · have hlog : (2 * binary64.one).log2 = b := by rw [hone, Nat.log2_two_pow]
    simp only [above, ofMagnitude, hlog]

/-- The steps of the last grid are no longer than the gap below the number. -/
theorem last_grid {m : Nat} (hm : 0 < m) (hinf : m < binary64.infinity) {p : Int}
    (hp : p = (ofMagnitude binary64 m).above - 23) :
    2 * binary64.one * 10 ^ p.toNat ≤
      (binary64.units m - binary64.units (m - 1)) * 10 ^ (-p).toNat := by
  obtain ⟨a, b, ha, hone, hb, hle, habove⟩ := exists_above hm hinf
  have hfine := grid_fine (a := a) (b := b) (by omega) (by omega)
  rw [← habove, ← hp, ← hone] at hfine
  have hgap := Format.units_lt_gap (f := binary64) hm
  have hk : 0 < 10 ^ (-p).toNat := Nat.pow_pos (by decide)
  have hscaled : 2 ^ 55 * (2 * binary64.one * 10 ^ p.toNat) ≤
      2 ^ 55 * ((binary64.units m - binary64.units (m - 1)) * 10 ^ (-p).toNat) :=
    calc 2 ^ 55 * (2 * binary64.one * 10 ^ p.toNat)
      _ = 2 ^ 55 * (2 * binary64.one) * 10 ^ p.toNat := (Nat.mul_assoc _ _ _).symm
      _ ≤ 2 ^ a * 10 ^ (-p).toNat := hfine
      _ ≤ 2 * binary64.units m * 10 ^ (-p).toNat := Nat.mul_le_mul_right _ ha
      _ ≤ 2 ^ 55 * (binary64.units m - binary64.units (m - 1)) * 10 ^ (-p).toNat := by
        refine Nat.mul_le_mul_right _ ?_
        rw [show binary64.fraction + 2 = 54 from rfl] at hgap
        omega
      _ = 2 ^ 55 * ((binary64.units m - binary64.units (m - 1)) * 10 ^ (-p).toNat) :=
        Nat.mul_assoc _ _ _
  exact Nat.le_of_mul_le_mul_left hscaled (by decide)

/-- The shortest decimal of a finite number rounds back to it. -/
theorem shortest_rounds {m : Nat} (hm : 0 < m) (hinf : m < binary64.infinity) :
    binary64.Rounds m ((ofMagnitude binary64 m).shortest.numerator binary64)
        (ofMagnitude binary64 m).shortest.denominator ∧
      -350 ≤ (ofMagnitude binary64 m).shortest.exponent ∧
      (ofMagnitude binary64 m).shortest.exponent ≤ 350 := by
  obtain ⟨a, b, -, -, hb, hle, habove⟩ := exists_above hm hinf
  rcases (ofMagnitude binary64 m).search_spec 24 (ofMagnitude binary64 m).above with
    ⟨hhits, hlow, hhigh⟩ | hnone
  · exact ⟨Decimal.rounds_of_hits hhits, by unfold shortest; omega, by unfold shortest; omega⟩
  · -- The last grid has a hit.
    refine absurd (hnone 23 (by decide)) ?_
    have hlast := last_grid hm hinf (p := (ofMagnitude binary64 m).above - (23 : Nat)) rfl
    rw [inUnitsOf_eq]
    generalize (ofMagnitude binary64 m).above - (23 : Nat) = p at hlast
    have hprev := Format.units_lt_units (f := binary64) (Nat.sub_lt hm Nat.one_pos)
    have hnext : binary64.units m < binary64.units (m + 1) :=
      Format.units_lt_units (Nat.lt_succ_self m)
    have hgap : 2 * binary64.units m = (binary64.units (m - 1) + binary64.units m) +
        (binary64.units m - binary64.units (m - 1)) := by
      omega
    refine neighbour?_ne_none (Nat.mul_pos (Nat.mul_pos (by decide) Format.one_pos)
      (Nat.pow_pos (by decide))) ?_ (Nat.mul_lt_mul_of_pos_right ?_ (Nat.pow_pos (by decide)))
    · simp only [ofMagnitude, hgap, Nat.add_mul]
      simpa only [Nat.add_mul] using Nat.add_le_add_left hlast _
    · simp only [ofMagnitude]
      omega

end Target

end ScalarField
