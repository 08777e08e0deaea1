/-
What a number is printed as: visible ASCII (`Binary.print_graphic`) that reads
back as the number (`Binary.read_print`).

Every layout of a decimal spells a numeral that stands for it
(`Decimal.print_spells`), and the shortest decimal of a number rounds to it.
-/
import ScalarField.Number.Print
import ScalarField.Proofs.Number.Numeral

namespace ScalarField

open Format (binary64)
open Numeral (Digits Spells precision)

namespace Decimal

variable {digits : Bytes}

/-- The numeral has the value of the decimal. -/
structure Denotes (n : Numeral) (d : Decimal) : Prop where
  decimal : n.hexadecimal = false
  numerator : n.decimal.numerator binary64 = d.numerator binary64
  denominator : n.decimal.denominator = d.denominator

theorem Denotes.of_eq {n : Numeral} {d : Decimal} (hten : n.hexadecimal = false)
    (h : n.decimal = d) : Denotes n d :=
  ⟨hten, by rw [h], by rw [h]⟩

theorem scientific_spells (hds : Digits digits) (hne : digits ≠ [])
    (hlen : digits.length ≤ precision) {e : Int} (he : e.natAbs < 10000) (width : Nat) :
    Spells (scientific width digits e)
      ⟨false, Numeral.value 0 digits, -(digits.length - 1 : Nat), e⟩ := by
  have hpadded : Digits (Bytes.padLeft (Bytes.ofChar '0') width (Bytes.ofNat e.natAbs)) :=
    (Numeral.digits_replicate _).append (Numeral.digits_ofNat _)
  have hvalue : Numeral.value 0
      (Bytes.padLeft (Bytes.ofChar '0') width (Bytes.ofNat e.natAbs)) = e.natAbs := by
    rw [Bytes.padLeft, Numeral.value_append, Numeral.value_replicate, Nat.zero_mul,
      Numeral.value_ofNat]
  have hexponent : (if decide (e < 0) = true then -(e.natAbs : Int) else e.natAbs) = e := by
    simp only [decide_eq_true_eq]
    split <;> omega
  have hspells := Numeral.spells_exponent (hds.take 1) (hds.drop 1) (by simpa using hne)
    (by rw [← List.length_append, List.take_append_drop]; exact hlen) hpadded
    (by simp [Bytes.padLeft, Bytes.ofNat]) (by rwa [hvalue]) (decide (e < 0))
  rw [hvalue, List.take_append_drop, List.length_drop, hexponent] at hspells
  simp only [decide_eq_true_eq] at hspells
  exact hspells

section

variable (hds : Digits digits) (hne : digits ≠ []) {e : Int}
include hds hne

theorem positional_spells_small (hlow : -4 ≤ e) (hneg : e < 0)
    (hlen : digits.length + 6 ≤ precision) :
    Spells (positional digits e)
      ⟨false, Numeral.value 0 digits, -((-e).toNat - 1 + digits.length : Nat), 0⟩ := by
  have hpart : Digits (List.replicate ((-e).toNat - 1) (Bytes.ofChar '0') ++ digits) :=
    (Numeral.digits_replicate _).append hds
  have hspells := Numeral.spells_plain (Numeral.digits_replicate 1) hpart (by simp)
    (by simp only [List.length_append, List.length_replicate]; omega)
  have hvalue : Numeral.value 0 (List.replicate 1 (Bytes.ofChar '0') ++
      (List.replicate ((-e).toNat - 1) (Bytes.ofChar '0') ++ digits)) =
      Numeral.value 0 digits := by
    rw [Numeral.value_append, Numeral.value_append, Numeral.value_replicate,
      Numeral.value_replicate, Nat.zero_mul, Nat.zero_mul]
  rw [Numeral.point, if_neg (by simp [hne]), hvalue, List.length_append,
    List.length_replicate] at hspells
  rw [positional, if_pos hneg]
  exact hspells

theorem positional_spells_cut (hnonneg : 0 ≤ e) (hcut : e.toNat + 1 < digits.length)
    (hlen : digits.length ≤ precision) :
    Spells (positional digits e)
      ⟨false, Numeral.value 0 digits, -(digits.length - (e.toNat + 1) : Nat), 0⟩ := by
  have hspells := Numeral.spells_plain (hds.take (e.toNat + 1)) (hds.drop (e.toNat + 1))
    (by simpa using hne) (by rw [← List.length_append, List.take_append_drop]; exact hlen)
  rw [List.take_append_drop, List.length_drop] at hspells
  have hpad : Bytes.padRight (Bytes.ofChar '0') (e.toNat + 1) (digits.take (e.toNat + 1)) =
      digits.take (e.toNat + 1) := by
    rw [Bytes.padRight, List.length_take, Nat.min_eq_left hcut.le, Nat.sub_self]
    exact List.append_nil _
  rw [positional, if_neg (Int.not_lt.2 hnonneg), hpad]
  exact hspells

theorem positional_spells_whole (hnonneg : 0 ≤ e) (hhigh : e < 6)
    (hwhole : digits.length ≤ e.toNat + 1) :
    Spells (positional digits e)
      ⟨false, Numeral.value 0 digits * 10 ^ (e.toNat + 1 - digits.length), 0, 0⟩ := by
  have hpad : Bytes.padRight (Bytes.ofChar '0') (e.toNat + 1) (digits.take (e.toNat + 1)) =
      digits ++ List.replicate (e.toNat + 1 - digits.length) (Bytes.ofChar '0') := by
    rw [Bytes.padRight, List.take_of_length_le hwhole]
  have hnil : Digits [] := List.forall_mem_nil _
  have hspells := Numeral.spells_plain
    (hds.append (Numeral.digits_replicate (e.toNat + 1 - digits.length))) hnil (by simp [hne])
    (by
      simp only [List.length_append, List.length_replicate, List.length_nil, precision]
      omega)
  rw [List.append_nil, Numeral.value_append, Numeral.value_replicate] at hspells
  rw [positional, if_neg (Int.not_lt.2 hnonneg), hpad, List.drop_eq_nil_of_le hwhole]
  exact hspells

theorem positional_spells (hlow : -4 ≤ e) (hhigh : e < 6) (hlen : digits.length + 6 ≤ precision) :
    ∃ n, Spells (positional digits e) n ∧
      Denotes n ⟨Numeral.value 0 digits, e - (digits.length - 1 : Nat)⟩ := by
  have hpos := List.length_pos_iff.2 hne
  rcases Int.lt_or_le e 0 with hneg | hnonneg
  · refine ⟨_, positional_spells_small hds hne hlow hneg hlen, Denotes.of_eq rfl ?_⟩
    simp only [Numeral.decimal, Decimal.mk.injEq, true_and]
    omega
  rcases Nat.lt_or_ge (e.toNat + 1) digits.length with hcut | hwhole
  · refine ⟨_, positional_spells_cut hds hne hnonneg hcut (by omega), Denotes.of_eq rfl ?_⟩
    simp only [Numeral.decimal, Decimal.mk.injEq, true_and]
    omega
  · -- The zeros are part of the coefficient here, and of the power of ten there.
    have hexponent : (e - (digits.length - 1 : Nat)).toNat = e.toNat + 1 - digits.length ∧
        (-(e - (digits.length - 1 : Nat))).toNat = 0 := by
      omega
    refine ⟨_, positional_spells_whole hds hne hnonneg hhigh hwhole, rfl, ?_, ?_⟩
    · simp [Numeral.decimal, numerator, hexponent.1]
    · rw [denominator, denominator, hexponent.2]
      rfl

end

/-- A decimal is printed as a numeral of its value. -/
theorem print_spells {d : Decimal} (hwidth : d.width ≤ 700) (hexponent : d.exponent.natAbs ≤ 400) :
    ∃ n, Spells (d.print .general) n ∧ Denotes n d := by
  have hds := Numeral.digits_ofNat d.coefficient
  have hne : Bytes.ofNat d.coefficient ≠ [] := by simp [Bytes.ofNat]
  have hlen : (Bytes.ofNat d.coefficient).length = d.width := by simp [Bytes.ofNat, width]
  have hvalue := Numeral.value_ofNat d.coefficient
  unfold print
  simp only
  generalize Bytes.ofNat d.coefficient = digits at *
  split
  · have hprecision : digits.length ≤ precision := hlen ▸ hwidth.trans (by decide)
    refine ⟨_, scientific_spells hds hne hprecision (by omega) _, Denotes.of_eq rfl ?_⟩
    rw [Numeral.decimal, hvalue]
    simp
  · rename_i hinside
    simp only [Bool.or_eq_true, decide_eq_true_eq, not_or, Int.not_lt, Int.not_le] at hinside
    obtain ⟨n, hspells, hn⟩ := positional_spells hds hne hinside.1 hinside.2
      (by rw [hlen]; exact (Nat.add_le_add_right hwidth 6).trans (by decide))
    rw [hvalue, Int.add_sub_cancel] at hn
    exact ⟨n, hspells, hn⟩

theorem length_scientific_le (digits : Bytes) {e : Int} (he : e.natAbs < 10000) :
    (scientific 2 digits e).length ≤ digits.length + 7 := by
  have hexponent : (Bytes.ofNat e.natAbs).length ≤ 4 := by
    rw [Bytes.ofNat, List.length_map]
    exact (Nat.length_toDigits_le_iff (by decide) (by decide)).2 he
  simp only [scientific, Bytes.padLeft, List.length_append, List.length_replicate, List.length_take,
    List.length_cons, List.length_nil]
  split
  · simp only [List.length_nil]
    omega
  · simp only [List.length_cons, List.length_drop]
    omega

theorem length_positional_le (digits : Bytes) {e : Int} (hlow : -4 ≤ e) (hhigh : e < 6) :
    (positional digits e).length ≤ digits.length + 7 := by
  have hpoint : (utf8 "0.").length = 2 := by decide
  unfold positional
  split
  · simp only [List.length_append, List.length_replicate, hpoint]
    omega
  · simp only [Bytes.padRight, List.length_append, List.length_replicate, List.length_take]
    split
    · simp only [List.length_nil]
      omega
    · simp only [List.length_cons, List.length_drop]
      omega

theorem length_print_le {d : Decimal} (hwidth : d.width ≤ 700)
    (hexponent : d.exponent.natAbs ≤ 400) :
    (d.print .general).length ≤ d.width + 7 := by
  have hlen : (Bytes.ofNat d.coefficient).length = d.width := by simp [Bytes.ofNat, width]
  rw [← hlen]
  unfold print
  simp only
  generalize Bytes.ofNat d.coefficient = digits at *
  split
  · exact length_scientific_le digits (by omega)
  · rename_i hinside
    simp only [Bool.or_eq_true, decide_eq_true_eq, not_or, Int.not_lt, Int.not_le] at hinside
    exact length_positional_le digits hinside.1 hinside.2

end Decimal

namespace Numeral

variable {s : Bytes} {n : Numeral}

theorem Spells.exists_cons (h : Spells s n) : ∃ b rest, s = b :: rest ∧ isDigit b = true := by
  cases s with
  | nil => exact absurd h.read nofun
  | cons b rest => exact ⟨b, rest, rfl, h.first b rfl⟩

theorem first_of_isDigit : ∀ b : UInt8, isDigit b = true →
    b ≠ 43 ∧ b ≠ 45 ∧ (if 65 ≤ b && b ≤ 90 then b + 32 else b) = b :=
  Rune.forall_byte (by decide +kernel)

theorem Spells.not_word (h : Spells s n) {w : String}
    (hw : ∀ b ∈ (utf8 w).head?, isDigit b = false) : Binary.isWord w s = false := by
  obtain ⟨b, rest, rfl, hb⟩ := h.exists_cons
  refine beq_eq_false_iff_ne.2 fun heq => ?_
  rw [List.map_cons, (first_of_isDigit b hb).2.2] at heq
  exact absurd ((hw b (by rw [← heq]; rfl)).symm.trans hb) Bool.false_ne_true

theorem words_not_digit : ∀ w ∈ ["inf", "infinity", "nan"],
    ∀ b ∈ (utf8 w).head?, isDigit b = false := by
  decide +kernel

/-- A text that spells a numeral is read as the numeral is rounded. -/
theorem Spells.read_signed (h : Spells s n) {f : Format} {negative : Bool}
    (hfinite : (n.round f negative).isInf = false) :
    Binary.read f ((if negative then [Bytes.ofChar '-'] else []) ++ s) =
      .ok (n.round f negative) := by
  have hscore : s.contains 95 = false := by
    refine Bool.eq_false_iff.2 fun hmem => ?_
    have hmem : 95 ∈ s := by simpa using hmem
    exact (of_isMark 95 (h.marks 95 hmem)).2.1 rfl
  have hinf := h.not_word (words_not_digit "inf" (by simp))
  have hinfinity := h.not_word (words_not_digit "infinity" (by simp))
  have hnan := h.not_word (words_not_digit "nan" (by simp))
  unfold Binary.read
  cases negative with
  | true =>
    simp only [if_true, List.singleton_append, show Bytes.ofChar '-' = 45 from rfl, hinf, hinfinity,
      h.read, hscore, hfinite]
    rfl
  | false =>
    obtain ⟨b, rest, rfl, hb⟩ := h.exists_cons
    obtain ⟨hplus, hminus, -⟩ := first_of_isDigit b hb
    simp only [Bool.false_eq_true, if_false, List.nil_append]
    split
    · rename_i hfirst
      exact absurd (List.cons.inj hfirst).1 hplus
    · rename_i hfirst
      exact absurd (List.cons.inj hfirst).1 hminus
    · simp only [hinf, hinfinity, hnan, h.read, hscore, hfinite]
      rfl

end Numeral

namespace Binary

variable {x : Binary64}

theorem ofMagnitude_eq (hx : x.isNaN = false) : .ofMagnitude x.negative x.magnitude = x := by
  have hle : x.magnitude ≤ binary64.infinity := by simpa [isNaN] using hx
  obtain ⟨negative, magnitude, bound⟩ := x
  simp only [ofMagnitude, Nat.min_eq_left hle]

/-- The shortest decimal of a finite number has few digits and a small exponent. -/
theorem shortest_bounds {m : Nat} (hpos : 0 < m) (hlt : m < binary64.infinity) :
    (Target.ofMagnitude binary64 m).shortest.width ≤ 700 ∧
      (Target.ofMagnitude binary64 m).shortest.exponent.natAbs ≤ 400 := by
  obtain ⟨hrounds, hlow, hhigh⟩ := Target.shortest_rounds hpos hlt
  obtain ⟨-, hwidth⟩ := Decimal.width_of_rounds hrounds hpos hlt
  unfold Numeral.hugeDigits at hwidth
  omega

/-- A finite number other than zero is printed as a sign and a numeral that is
rounded to it. -/
theorem print_spells (hnan : x.isNaN = false) (hinf : x.isInf = false) (hzero : x.isZero = false) :
    ∃ s n, x.print = (if x.negative then [Bytes.ofChar '-'] else []) ++ s ∧ Numeral.Spells s n ∧
      n.round binary64 x.negative = x := by
  have hpos : 0 < x.magnitude := Nat.pos_of_ne_zero (by simpa [isZero] using hzero)
  have hlt : x.magnitude < binary64.infinity :=
    Nat.lt_of_le_of_ne (by simpa [isNaN] using hnan) (by simpa [isInf] using hinf)
  obtain ⟨hrounds, -⟩ := Target.shortest_rounds hpos hlt
  obtain ⟨hwidth, hexponent⟩ := shortest_bounds hpos hlt
  obtain ⟨n, hspells, hn⟩ := Decimal.print_spells hwidth hexponent
  refine ⟨_, n, ?_, hspells, ?_⟩
  · simp [print, hnan, hinf, hzero]
  · rw [← hn.numerator, ← hn.denominator] at hrounds
    rw [Numeral.round_of_rounds hpos hlt hn.decimal hrounds, ofMagnitude_eq hnan]

theorem read_print_extreme : ∀ negative : Bool, ∀ m ∈ [binary64.infinity, 0],
    read binary64 (ofMagnitude negative m : Binary64).print = .ok (.ofMagnitude negative m) := by
  decide

theorem read_print_nan : read binary64 (nan : Binary64).print = .ok nan := by decide

/-- A number reads back from its text. -/
theorem read_print (hnan : x.isNaN = false) : read binary64 x.print = .ok x := by
  cases hinf : x.isInf with
  | true =>
    have hmagnitude : x.magnitude = binary64.infinity := by simpa [isInf] using hinf
    rw [← ofMagnitude_eq hnan, hmagnitude]
    exact read_print_extreme x.negative _ (by simp)
  | false =>
  cases hzero : x.isZero with
  | true =>
    have hmagnitude : x.magnitude = 0 := by simpa [isZero] using hzero
    rw [← ofMagnitude_eq hnan, hmagnitude]
    exact read_print_extreme x.negative _ (by simp)
  | false =>
    obtain ⟨s, n, hprint, hspells, hround⟩ := print_spells hnan hinf hzero
    rw [hprint, hspells.read_signed (by rw [hround, hinf]), hround]

/-- A number is not printed on more than a line. -/
theorem length_print_le (x : Binary64) : x.print.length ≤ 708 := by
  have hwords : ∀ w ∈ ["NaN", "-Inf", "+Inf"], (utf8 w).length ≤ 4 := by decide
  have hsign : (if x.negative then [Bytes.ofChar '-'] else []).length ≤ 1 := by
    cases x.negative <;> decide
  unfold print
  split
  · exact (hwords "NaN" (by simp)).trans (by decide)
  rename_i hnan
  simp only
  split
  · split
    · exact (hwords "-Inf" (by simp)).trans (by decide)
    · exact (hwords "+Inf" (by simp)).trans (by decide)
  rename_i hinf
  split
  · rw [List.length_append, List.length_singleton]
    omega
  rename_i hzero
  have hpos : 0 < x.magnitude := Nat.pos_of_ne_zero (by simpa [isZero] using hzero)
  have hlt : x.magnitude < binary64.infinity :=
    Nat.lt_of_le_of_ne (by simpa [isNaN] using hnan) (by simpa [isInf] using hinf)
  obtain ⟨hwidth, hexponent⟩ := shortest_bounds hpos hlt
  have hprint := Decimal.length_print_le hwidth hexponent
  rw [List.length_append]
  omega

theorem print_graphic (x : Binary64) : ∀ b ∈ x.print, Bytes.isGraphic b = true := by
  have hwords : ∀ w ∈ ["NaN", "-Inf", "+Inf"], ∀ b ∈ utf8 w, Bytes.isGraphic b = true := by
    decide +kernel
  obtain ⟨hminus, hzeroDigit⟩ : Bytes.isGraphic (Bytes.ofChar '-') = true ∧
      Bytes.isGraphic (Bytes.ofChar '0') = true := by
    decide
  have hsign : ∀ b ∈ (if x.negative then [Bytes.ofChar '-'] else []), Bytes.isGraphic b = true := by
    cases x.negative
    · exact List.forall_mem_nil _
    · simpa using hminus
  cases hnan : x.isNaN with
  | true => simpa [print, hnan] using hwords "NaN" (by simp)
  | false =>
  cases hinf : x.isInf with
  | true =>
    simp only [print, hnan, hinf, Bool.false_eq_true, if_false, if_true]
    split
    · exact hwords "-Inf" (by simp)
    · exact hwords "+Inf" (by simp)
  | false =>
  cases hzero : x.isZero with
  | true =>
    simp only [print, hnan, hinf, hzero, Bool.false_eq_true, if_false, if_true]
    exact List.forall_mem_append.2 ⟨hsign, by simpa using hzeroDigit⟩
  | false =>
    obtain ⟨s, n, hprint, hspells, -⟩ := print_spells hnan hinf hzero
    rw [hprint]
    exact List.forall_mem_append.2
      ⟨hsign, fun b hb => (Numeral.of_isMark b (hspells.marks b hb)).2.2⟩

end Binary

end ScalarField
