/-
Reading numerals: digits with a point among them, and an exponent behind them,
are read as the numeral they spell (`Numeral.spells_plain`,
`Numeral.spells_exponent`), and a numeral in the interval of a number is rounded
to it (`Numeral.round_of_rounds`).
-/
import ScalarField.Number.Read
import ScalarField.Proofs.Number.Shortest
import ScalarField.Proofs.Text.Digits

namespace ScalarField

namespace Numeral

variable {ds whole part rest s : Bytes}

/-! ## Digits -/

/-- A text of decimal digits. -/
def Digits (ds : Bytes) : Prop := ∀ b ∈ ds, isDigit b = true

theorem Digits.append (hds : Digits ds) (hpart : Digits part) : Digits (ds ++ part) :=
  List.forall_mem_append.2 ⟨hds, hpart⟩

theorem Digits.take (hds : Digits ds) (n : Nat) : Digits (ds.take n) :=
  fun b hb => hds b (List.mem_of_mem_take hb)

theorem Digits.drop (hds : Digits ds) (n : Nat) : Digits (ds.drop n) :=
  fun b hb => hds b (List.mem_of_mem_drop hb)

/-- The number with the digits of `c` and then those of `ds`. -/
def value (c : Nat) (ds : Bytes) : Nat := ds.foldl (fun c b => c * 10 + (b.toNat - 48)) c

theorem value_append (c : Nat) (ds es : Bytes) : value c (ds ++ es) = value (value c ds) es :=
  List.foldl_append

theorem value_replicate (c n : Nat) :
    value c (List.replicate n (Bytes.ofChar '0')) = c * 10 ^ n := by
  induction n generalizing c with
  | zero => rw [Nat.pow_zero, Nat.mul_one]; rfl
  | succ n ih =>
    calc value c (List.replicate (n + 1) (Bytes.ofChar '0'))
      _ = value (c * 10) (List.replicate n (Bytes.ofChar '0')) := rfl
      _ = c * 10 ^ (n + 1) := by rw [ih, Nat.pow_succ', Nat.mul_assoc]

theorem isDigit_digit : ∀ d < 10, isDigit (Bytes.ofChar (Nat.digitChar d)) = true ∧
    (Bytes.ofChar (Nat.digitChar d)).toNat - 48 = d := by
  decide

theorem digits_ofNat (n : Nat) : Digits (Bytes.ofNat n) := by
  intro b hb
  obtain ⟨c, hc, rfl⟩ := List.mem_map.1 hb
  obtain ⟨d, hd, rfl⟩ := Bytes.mem_toDigits (by decide) hc
  exact (isDigit_digit d hd).1

theorem digits_replicate (n : Nat) : Digits (List.replicate n (Bytes.ofChar '0')) := by
  intro b hb
  rw [(List.mem_replicate.1 hb).2]
  exact (isDigit_digit 0 (by decide)).1

theorem value_ofNat (n : Nat) : value 0 (Bytes.ofNat n) = n := by
  induction n using Nat.strongRecOn with
  | _ n ih =>
  unfold Bytes.ofNat
  rw [Nat.toDigits_eq_if (by decide)]
  split
  · rename_i hn
    simp [value, (isDigit_digit n hn).2]
  · have hdigit := (isDigit_digit (n % 10) (Nat.mod_lt n (by decide))).2
    rw [List.map_append, value_append, show (Nat.toDigits 10 (n / 10)).map Bytes.ofChar =
      Bytes.ofNat (n / 10) from rfl, ih (n / 10) (by omega)]
    simp only [value, List.map_cons, List.map_nil, List.foldl_cons, List.foldl_nil, hdigit]
    omega

theorem le_value (c : Nat) (ds : Bytes) : c ≤ value c ds := by
  induction ds generalizing c with
  | nil => exact Nat.le_refl c
  | cons b ds ih =>
    have hstep : c ≤ c * 10 + (b.toNat - 48) := by omega
    exact hstep.trans (ih _)

/-! ## Mantissa -/

theorem of_isDigit : ∀ b : UInt8, isDigit b = true →
    b ≠ 95 ∧ b ≠ 46 ∧ digit? false b = some (b.toNat - 48) :=
  Rune.forall_byte (by decide +kernel)

/-- The mantissa with more digits. -/
def pushes (m : Mantissa) (ds : Bytes) : Mantissa :=
  ds.foldl (fun m b => Mantissa.push false m (b.toNat - 48)) m

theorem readMantissa_digits (hds : Digits ds) (m : Mantissa) (rest : Bytes) :
    readMantissa false m (ds ++ rest) = readMantissa false (pushes m ds) rest := by
  induction ds generalizing m with
  | nil => rfl
  | cons b ds ih =>
    obtain ⟨hscore, hpoint, hdigit⟩ := of_isDigit b (hds b List.mem_cons_self)
    rw [List.cons_append, readMantissa, if_neg hscore]
    simp only [hpoint, decide_false, Bool.false_and, Bool.false_eq_true, if_false, hdigit]
    exact ih (fun c hc => hds c (List.mem_cons_of_mem b hc)) _

theorem pushes_eq (ds : Bytes) (m : Mantissa) (h : m.kept + ds.length ≤ precision) :
    ∃ k ≤ m.kept + ds.length, pushes m ds =
      { m with coefficient := value m.coefficient ds, kept := k,
               places := m.places + if m.sawPoint then ds.length else 0,
               sawDigit := m.sawDigit || !ds.isEmpty } := by
  induction ds generalizing m with
  | nil => exact ⟨m.kept, Nat.le_refl _, by simp [pushes, value]⟩
  | cons b ds ih =>
    rw [List.length_cons] at h
    have hroom : m.kept < precision := by omega
    obtain ⟨k, hk, hpushes⟩ := ih (Mantissa.push false m (b.toNat - 48)) (by
      simp only [Mantissa.push, hroom, if_true]
      split <;> omega)
    have hstep : pushes m (b :: ds) = pushes (Mantissa.push false m (b.toNat - 48)) ds := rfl
    refine ⟨k, hk.trans ?_, hstep.trans (hpushes.trans ?_)⟩
    · simp only [Mantissa.push, hroom, if_true, List.length_cons]
      split <;> omega
    · simp only [Mantissa.push, hroom, if_true, value, base, List.foldl_cons, List.length_cons]
      cases m.sawPoint <;> simp
      omega

/-- A point and digits behind it, if there are any. -/
def point (part : Bytes) : Bytes := if part.isEmpty then [] else Bytes.ofChar '.' :: part

/-- What may stand behind a mantissa: nothing or an exponent. -/
def Ends (rest : Bytes) : Prop := ∀ b ∈ rest.head?, b = Bytes.ofChar 'e'

theorem readMantissa_ends (h : Ends rest) (m : Mantissa) :
    readMantissa false m rest = (m, rest) := by
  cases rest with
  | nil => rfl
  | cons b rest =>
    obtain rfl := h b rfl
    rfl

theorem readMantissa_mark {m : Mantissa} (hm : m.sawPoint = false) (rest : Bytes) :
    readMantissa false m (Bytes.ofChar '.' :: rest) =
      readMantissa false { m with sawPoint := true } rest := by
  rw [readMantissa, if_neg (by decide), hm, if_pos (by decide)]

theorem readMantissa_point (hwhole : Digits whole) (hpart : Digits part) (hne : whole ≠ [])
    (hlen : whole.length + part.length ≤ precision) (hrest : Ends rest) :
    ∃ m : Mantissa, readMantissa false {} (whole ++ point part ++ rest) = (m, rest) ∧
      m.sawDigit = true ∧
      ∀ e, close false m e = ⟨false, value 0 (whole ++ part), -part.length, e⟩ := by
  obtain ⟨k, hk, hpushes⟩ := pushes_eq whole {} (by simp only; omega)
  replace hpushes : pushes {} whole =
      { coefficient := value 0 whole, kept := k, sawDigit := true } := by
    simpa [List.isEmpty_eq_false_iff.2 hne] using hpushes
  rw [List.append_assoc, readMantissa_digits hwhole, hpushes, point]
  split
  · -- No point.
    rename_i hempty
    obtain rfl := List.isEmpty_iff.1 hempty
    exact ⟨_, readMantissa_ends hrest _, rfl, fun e => by simp [close]⟩
  · obtain ⟨k', -, hpushes'⟩ := pushes_eq part
      { coefficient := value 0 whole, kept := k, sawPoint := true, sawDigit := true }
      (by simp only at hk ⊢; omega)
    rw [List.cons_append, readMantissa_mark rfl, readMantissa_digits hpart, hpushes']
    exact ⟨_, readMantissa_ends hrest _, rfl, fun e => by simp [close, value_append]⟩

/-! ## Whole numerals -/

/-- A byte of a printed number. -/
def isMark (b : UInt8) : Bool := isDigit b || b == 46 || b == 101 || b == 43 || b == 45

theorem of_isMark : ∀ b : UInt8, isMark b = true →
    b ||| 0x20 ≠ 120 ∧ b ≠ 95 ∧ Bytes.isGraphic b = true :=
  Rune.forall_byte (by decide +kernel)

theorem isMark_of_isDigit {b : UInt8} (h : isDigit b = true) : isMark b = true := by
  simp [isMark, h]

theorem ofBytes?_of_marks (h : ∀ b ∈ s, isMark b = true) :
    ofBytes? s =
      if !(readMantissa false {} s).1.sawDigit then none
      else
        match (readMantissa false {} s).2 with
        | [] => some (close false (readMantissa false {} s).1 0)
        | b :: rest =>
          if b ||| 0x20 = 101 then
            match exponent? rest with
            | some (e, []) => some (close false (readMantissa false {} s).1 e)
            | _ => none
          else none := by
  unfold ofBytes?
  split
  rename_i heq
  split at heq
  · rename_i x b rest
    rw [if_neg (of_isMark x (h x (by simp))).1] at heq
    cases heq
    rfl
  · cases heq
    rfl

/-- The text spells the numeral: it is one that starts with a digit. -/
structure Spells (s : Bytes) (n : Numeral) : Prop where
  first : ∀ b ∈ s.head?, isDigit b = true
  marks : ∀ b ∈ s, isMark b = true
  read : ofBytes? s = some n

theorem readExponent_digits (hds : Digits ds) (e : Nat) (h : value e ds < 10000) :
    readExponent e ds = (value e ds, []) := by
  induction ds generalizing e with
  | nil => rfl
  | cons b ds ih =>
    have hb := hds b List.mem_cons_self
    have he : e < 10000 := Nat.lt_of_le_of_lt (le_value e (b :: ds)) h
    rw [readExponent, if_neg (of_isDigit b hb).1, if_pos hb, if_pos he]
    exact ih (fun c hc => hds c (List.mem_cons_of_mem b hc)) _ h

theorem mark_point (hwhole : Digits whole) (hpart : Digits part) :
    ∀ b ∈ whole ++ point part, isMark b = true := by
  rw [List.forall_mem_append]
  refine ⟨fun b hb => isMark_of_isDigit (hwhole b hb), ?_⟩
  unfold point
  split
  · exact List.forall_mem_nil _
  · exact List.forall_mem_cons.2 ⟨by decide, fun b hb => isMark_of_isDigit (hpart b hb)⟩

theorem first_append (hwhole : Digits whole) (hne : whole ≠ []) (rest : Bytes) :
    ∀ b ∈ (whole ++ rest).head?, isDigit b = true := by
  obtain ⟨a, whole, rfl⟩ := List.exists_cons_of_ne_nil hne
  intro b hb
  obtain rfl : a = b := by simpa using hb
  exact hwhole a List.mem_cons_self

theorem spells_plain (hwhole : Digits whole) (hpart : Digits part) (hne : whole ≠ [])
    (hlen : whole.length + part.length ≤ precision) :
    Spells (whole ++ point part) ⟨false, value 0 (whole ++ part), -part.length, 0⟩ := by
  have hmarks := mark_point hwhole hpart
  have hnil : Ends [] := fun _ h => absurd h (by simp)
  obtain ⟨m, hread, hdigit, hclose⟩ := readMantissa_point hwhole hpart hne hlen hnil
  rw [List.append_nil] at hread
  exact ⟨first_append hwhole hne _, hmarks,
    by simp only [ofBytes?_of_marks hmarks, hread, hdigit, hclose]; rfl⟩

theorem spells_exponent (hwhole : Digits whole) (hpart : Digits part) (hne : whole ≠ [])
    (hlen : whole.length + part.length ≤ precision) (hds : Digits ds) (hds' : ds ≠ [])
    (hsmall : value 0 ds < 10000) (negative : Bool) :
    Spells (whole ++ point part ++
        [Bytes.ofChar 'e', Bytes.ofChar (if negative then '-' else '+')] ++ ds)
      ⟨false, value 0 (whole ++ part), -part.length,
        if negative then -(value 0 ds : Int) else value 0 ds⟩ := by
  have hmarks : ∀ b ∈ whole ++ point part ++
      ([Bytes.ofChar 'e', Bytes.ofChar (if negative then '-' else '+')] ++ ds),
      isMark b = true := by
    have hmark : isMark (Bytes.ofChar 'e') = true ∧
        isMark (Bytes.ofChar (if negative then '-' else '+')) = true := by
      cases negative <;> decide
    exact List.forall_mem_append.2 ⟨mark_point hwhole hpart, List.forall_mem_append.2
      ⟨by simpa using hmark, fun b hb => isMark_of_isDigit (hds b hb)⟩⟩
  have hends : Ends ([Bytes.ofChar 'e', Bytes.ofChar (if negative then '-' else '+')] ++ ds) :=
    fun b h => (Option.some.inj h).symm
  obtain ⟨m, hread, hdigit, hclose⟩ := readMantissa_point hwhole hpart hne hlen hends
  have hexponent : exponent? (Bytes.ofChar (if negative then '-' else '+') :: ds) =
      some (if negative then -(value 0 ds : Int) else value 0 ds, []) := by
    obtain ⟨d, ds, rfl⟩ := List.exists_cons_of_ne_nil hds'
    have hd := hds d List.mem_cons_self
    have hdigits := readExponent_digits hds 0 hsmall
    cases negative
    · rw [show Bytes.ofChar (if false = true then '-' else '+') = 43 from rfl]
      simp [exponent?, hd, hdigits]
    · rw [show Bytes.ofChar (if true = true then '-' else '+') = 45 from rfl]
      simp [exponent?, hd, hdigits]
  rw [List.append_assoc]
  refine ⟨by rw [List.append_assoc]; exact first_append hwhole hne _, hmarks, ?_⟩
  rw [ofBytes?_of_marks hmarks, hread]
  simp only [hdigit, List.cons_append, List.nil_append, hexponent, hclose]
  rfl

/-! ## Rounding -/

/-- The decimal that a numeral stands for. -/
def decimal (n : Numeral) : Decimal := ⟨n.coefficient, n.power + n.exponent⟩

end Numeral

namespace Decimal

open Format (binary64)

variable {d : Decimal} {m : Nat}

/-- The finite numbers between powers of ten. -/
theorem range_le : binary64.units binary64.infinity ≤ 10 ^ 309 * binary64.one ∧
    2 * binary64.one ≤ 10 ^ 330 := by
  decide +kernel

/-- How many digits the coefficient has. -/
def width (d : Decimal) : Nat := (Nat.toDigits 10 d.coefficient).length

theorem coefficient_lt (d : Decimal) : d.coefficient < 10 ^ d.width :=
  (Nat.length_toDigits_le_iff (by decide) Nat.length_toDigits_pos).1 (Nat.le_refl _)

theorem le_coefficient (h : 0 < d.coefficient) : 10 ^ (d.width - 1) ≤ d.coefficient := by
  rcases Nat.eq_zero_or_pos (d.width - 1) with hone | hmore
  · rwa [hone]
  · refine Nat.le_of_not_lt fun hlt => ?_
    have hlen : d.width ≤ d.width - 1 := (Nat.length_toDigits_le_iff (by decide) hmore).2 hlt
    omega

section

variable (h : binary64.Rounds m (d.numerator binary64) d.denominator)
include h

/-- A decimal that rounds to a positive number is at least half a unit. -/
theorem denominator_le_of_rounds (hm : 0 < m) : d.denominator ≤ 2 * d.numerator binary64 := by
  have hpos : 0 < binary64.units m := by
    simpa only [Format.units_zero] using Format.units_lt_units (f := binary64) hm
  calc d.denominator ≤ (binary64.units (m - 1) + binary64.units m) * d.denominator :=
        Nat.le_mul_of_pos_left _ (Nat.add_pos_right _ hpos)
    _ ≤ 2 * d.numerator binary64 := h.low hm

/-- A decimal that rounds to a finite number is not above the power of two that
infinity stands for. -/
theorem coefficient_le_of_rounds (hinf : m < binary64.infinity) :
    d.coefficient * 10 ^ d.exponent.toNat ≤ 10 ^ 309 * d.denominator := by
  have hm : binary64.units m ≤ 10 ^ 309 * binary64.one :=
    (Format.units_le_units_iff.2 hinf.le).trans range_le.1
  have hnext : binary64.units (m + 1) ≤ 10 ^ 309 * binary64.one :=
    (Format.units_le_units_iff.2 hinf).trans range_le.1
  have hsum := h.high.trans (Nat.mul_le_mul_right d.denominator (Nat.add_le_add hm hnext))
  rw [← Nat.two_mul, Nat.mul_assoc] at hsum
  refine Nat.le_of_mul_le_mul_right ?_ (Format.one_pos (f := binary64))
  calc d.coefficient * 10 ^ d.exponent.toNat * binary64.one
    _ ≤ 10 ^ 309 * binary64.one * d.denominator := Nat.le_of_mul_le_mul_left hsum (by decide)
    _ = 10 ^ 309 * d.denominator * binary64.one := Nat.mul_right_comm _ _ _

theorem coefficient_pos_of_rounds (hm : 0 < m) : 0 < d.coefficient := by
  refine Nat.pos_of_ne_zero fun hzero => ?_
  have hle := denominator_le_of_rounds h hm
  have hpos := d.denominator_pos
  simp only [numerator, hzero, Nat.zero_mul, Nat.mul_zero] at hle
  omega

/-- The digits of a decimal that rounds to a finite positive number start neither
far in front of the point nor far behind it. -/
theorem width_of_rounds (hm : 0 < m) (hinf : m < binary64.infinity) :
    Numeral.tinyDigits ≤ d.width + d.exponent ∧ d.width + d.exponent ≤ Numeral.hugeDigits := by
  have hc := coefficient_pos_of_rounds h hm
  unfold Numeral.tinyDigits Numeral.hugeDigits
  constructor
  · have hpow : 10 ^ (-d.exponent).toNat ≤ 10 ^ (d.width + d.exponent.toNat + 330) :=
      calc 10 ^ (-d.exponent).toNat ≤ 2 * d.numerator binary64 := denominator_le_of_rounds h hm
        _ = d.coefficient * 10 ^ d.exponent.toNat * (2 * binary64.one) := Nat.mul_left_comm _ _ _
        _ ≤ 10 ^ d.width * 10 ^ d.exponent.toNat * 10 ^ 330 :=
          Nat.mul_le_mul (Nat.mul_le_mul_right _ d.coefficient_lt.le) range_le.2
        _ = 10 ^ (d.width + d.exponent.toNat + 330) := by rw [Nat.pow_add, Nat.pow_add]
    have := (Nat.pow_le_pow_iff_right (by decide)).1 hpow
    omega
  · have hpow : 10 ^ (d.width - 1 + d.exponent.toNat) ≤ 10 ^ (309 + (-d.exponent).toNat) :=
      calc 10 ^ (d.width - 1 + d.exponent.toNat) = 10 ^ (d.width - 1) * 10 ^ d.exponent.toNat :=
            Nat.pow_add _ _ _
        _ ≤ d.coefficient * 10 ^ d.exponent.toNat := Nat.mul_le_mul_right _ (le_coefficient hc)
        _ ≤ 10 ^ 309 * d.denominator := coefficient_le_of_rounds h hinf
        _ = 10 ^ (309 + (-d.exponent).toNat) := by rw [denominator, ← Nat.pow_add]
    have := (Nat.pow_le_pow_iff_right (by decide)).1 hpow
    omega

end

end Decimal

namespace Numeral

open Format (binary64)

theorem round_decimal {n : Numeral} (hten : n.hexadecimal = false) {f : Format} (negative : Bool) :
    n.round f negative =
      if n.decimal.coefficient = 0 then .ofMagnitude negative 0
      else if hugeDigits < n.decimal.width + n.decimal.exponent then .infinity negative
      else if n.decimal.width + n.decimal.exponent < tinyDigits then .ofMagnitude negative 0
      else .round negative (n.decimal.numerator f) n.decimal.denominator := by
  have hsplit : (if n.decimal.exponent < 0 then
      Binary.round negative (n.coefficient * f.one) (10 ^ (-n.decimal.exponent).toNat)
      else Binary.round negative (n.coefficient * 10 ^ n.decimal.exponent.toNat * f.one) 1) =
      (.round negative (n.decimal.numerator f) n.decimal.denominator : Binary f) := by
    unfold Decimal.numerator Decimal.denominator
    split
    · rw [show n.decimal.exponent.toNat = 0 by omega, Nat.pow_zero, Nat.mul_one]
      rfl
    · rw [show (-n.decimal.exponent).toNat = 0 by omega, Nat.pow_zero]
      rfl
  rw [← hsplit]
  unfold round
  rw [hten, if_neg Bool.false_ne_true]
  rfl

/-- A numeral in the interval of a finite positive number is rounded to it. -/
theorem round_of_rounds {n : Numeral} {m : Nat} (hm : 0 < m) (hinf : m < binary64.infinity)
    (hten : n.hexadecimal = false)
    (h : binary64.Rounds m (n.decimal.numerator binary64) n.decimal.denominator)
    (negative : Bool) : n.round binary64 negative = .ofMagnitude negative m := by
  obtain ⟨htiny, hhuge⟩ := Decimal.width_of_rounds h hm hinf
  have hc := Decimal.coefficient_pos_of_rounds h hm
  rw [round_decimal hten, if_neg (Nat.ne_of_gt hc), if_neg (Int.not_lt.2 hhuge),
    if_neg (Int.not_lt.2 htiny), Binary.round,
    (Format.magnitudeOf_eq_iff (by decide) n.decimal.denominator_pos).2 h]

end Numeral

end ScalarField
