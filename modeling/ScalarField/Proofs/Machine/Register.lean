/-
Vector registers as lanes of numbers. A register is 128 bits; a format cuts
them into lanes, the lowest first, and each lane is the number with those bits.
Bitwise operations act on each lane, so masks, signs and magnitudes can be
read off a lane without looking at its bits again.
-/
import Mathlib.Data.Nat.Bitwise
import Mathlib.Tactic.Common
import Mathlib.Tactic.Ring
import ScalarField.Code.Insn
import ScalarField.Number.Arith

namespace ScalarField

/-- Bits of a number. -/
def Format.width (f : Format) : Nat := f.below + 1

/-- Numbers in a register. -/
def Format.lanes (f : Format) : Nat := 128 / f.width

@[simp]
theorem Format.lanes_binary32 : Format.binary32.lanes = 4 := by decide

@[simp]
theorem Format.lanes_binary64 : Format.binary64.lanes = 2 := by decide

/-! ## The bits of a number -/

namespace Binary

variable {f : Format}

theorem bits_lt (x : Binary f) : x.bits < 2 ^ f.width := by
  have h : x.magnitude < 2 ^ f.below := x.bound
  have hpow : 2 ^ f.width = 2 ^ f.below + 2 ^ f.below := by rw [Format.width, pow_succ]; ring
  unfold bits
  rw [hpow]
  split
  · exact Nat.add_lt_add_left h _
  · omega

theorem ofBits_bits (x : Binary f) : ofBits x.bits = x := by
  obtain ⟨s, m, h⟩ := x
  have hmod : m % 2 ^ f.below = m := Nat.mod_eq_of_lt h
  have hdiv : m / 2 ^ f.below = 0 := Nat.div_eq_of_lt h
  cases s <;> simp [ofBits, bits, hmod, hdiv]

theorem ofBits_mod (n : Nat) : (ofBits (n % 2 ^ f.width) : Binary f) = ofBits n := by
  have hdvd : 2 ^ f.below ∣ 2 ^ f.width := Nat.pow_dvd_pow 2 (Nat.le_succ _)
  have hdiv : n % 2 ^ f.width / 2 ^ f.below = n / 2 ^ f.below % 2 := by
    rw [Format.width, pow_succ, Nat.mod_mul_right_div_self]
  have h1 : n % 2 ^ f.width % Nat.pow 2 f.below = n % Nat.pow 2 f.below := Nat.mod_mod_of_dvd n hdvd
  have h2 : n % 2 ^ f.width / Nat.pow 2 f.below % 2 = n / Nat.pow 2 f.below % 2 := by
    rw [show Nat.pow 2 f.below = 2 ^ f.below from rfl, hdiv, Nat.mod_mod]
  simp only [ofBits, h1, h2]

theorem bits_ofBits (n : Nat) : (ofBits n : Binary f).bits = n % 2 ^ f.width := by
  have hdiv : n % 2 ^ f.width = 2 ^ f.below * (n / 2 ^ f.below % 2) + n % 2 ^ f.below := by
    rw [Format.width, pow_succ, Nat.mod_mul]
    ring
  rw [hdiv]
  rcases Nat.mod_two_eq_zero_or_one (n / 2 ^ f.below) with h | h <;>
    simp [ofBits, bits, h]

/-! ## Bitwise operations -/

def bitAnd (x y : Binary f) : Binary f := ofBits (x.bits &&& y.bits)

def bitOr (x y : Binary f) : Binary f := ofBits (x.bits ||| y.bits)

def bitXor (x y : Binary f) : Binary f := ofBits (x.bits ^^^ y.bits)

/-- What `y` has and `x` has not. -/
def bitAndNot (x y : Binary f) : Binary f := (x.bitOr y).bitXor x

theorem ofBits_and (m n : Nat) : (ofBits (m &&& n) : Binary f) = (ofBits m).bitAnd (ofBits n) := by
  rw [bitAnd, bits_ofBits, bits_ofBits, ← Nat.and_mod_two_pow, ofBits_mod]

theorem ofBits_or (m n : Nat) : (ofBits (m ||| n) : Binary f) = (ofBits m).bitOr (ofBits n) := by
  rw [bitOr, bits_ofBits, bits_ofBits, ← Nat.or_mod_two_pow, ofBits_mod]

theorem ofBits_xor (m n : Nat) : (ofBits (m ^^^ n) : Binary f) = (ofBits m).bitXor (ofBits n) := by
  rw [bitXor, bits_ofBits, bits_ofBits, ← Nat.xor_mod_two_pow, ofBits_mod]

/-- Every bit set, which is a NaN. -/
def ones : Binary f := ofBits (2 ^ f.width - 1)

/-- Every bit set if `p` holds, none otherwise. -/
def mask (p : Bool) : Binary f := if p then ones else zero

theorem zero_bits : (zero : Binary f).bits = 0 := by
  simp [zero, ofMagnitude, bits]

theorem ones_bits : (ones : Binary f).bits = 2 ^ f.width - 1 := by
  rw [ones, bits_ofBits, Nat.mod_eq_of_lt (Nat.sub_lt (Nat.two_pow_pos _) Nat.one_pos)]

@[simp]
theorem zero_bitAnd (x : Binary f) : zero.bitAnd x = zero := by
  rw [bitAnd, zero_bits, Nat.zero_and, ← zero_bits, ofBits_bits]

@[simp]
theorem ones_bitAnd (x : Binary f) : ones.bitAnd x = x := by
  rw [bitAnd, ones_bits, Nat.and_comm, Nat.and_two_pow_sub_one_eq_mod,
    Nat.mod_eq_of_lt x.bits_lt, ofBits_bits]

theorem bitAnd_comm (x y : Binary f) : x.bitAnd y = y.bitAnd x := by
  rw [bitAnd, Nat.and_comm, ← bitAnd]

@[simp]
theorem bitAnd_zero (x : Binary f) : x.bitAnd zero = zero := by rw [bitAnd_comm, zero_bitAnd]

@[simp]
theorem bitAnd_ones (x : Binary f) : x.bitAnd ones = x := by rw [bitAnd_comm, ones_bitAnd]

@[simp]
theorem bitOr_zero (x : Binary f) : x.bitOr zero = x := by
  rw [bitOr, zero_bits, Nat.or_zero, ofBits_bits]

theorem bitOr_comm (x y : Binary f) : x.bitOr y = y.bitOr x := by
  rw [bitOr, Nat.or_comm, ← bitOr]

@[simp]
theorem zero_bitOr (x : Binary f) : zero.bitOr x = x := by rw [bitOr_comm, bitOr_zero]

@[simp]
theorem bitOr_ones (x : Binary f) : x.bitOr ones = ones := by
  have h : x.bits ||| (2 ^ f.width - 1) = 2 ^ f.width - 1 := by
    refine Nat.eq_of_testBit_eq fun i => ?_
    rw [Nat.testBit_or, Nat.testBit_two_pow_sub_one]
    by_cases hi : i < f.width
    · simp [hi]
    · have hlt := Nat.lt_of_lt_of_le x.bits_lt (Nat.pow_le_pow_right (by decide) (Nat.not_lt.1 hi))
      simp [hi, Nat.testBit_lt_two_pow hlt]
  rw [bitOr, ones_bits, h, ← ones_bits, ofBits_bits]

@[simp]
theorem ones_bitOr (x : Binary f) : ones.bitOr x = ones := by rw [bitOr_comm, bitOr_ones]

@[simp]
theorem bitXor_self (x : Binary f) : x.bitXor x = zero := by
  rw [bitXor, Nat.xor_self, ← zero_bits, ofBits_bits]

theorem bitXor_zero (x : Binary f) : x.bitXor zero = x := by
  rw [bitXor, zero_bits, Nat.xor_zero, ofBits_bits]

@[simp]
theorem mask_bitAnd (p : Bool) (x : Binary f) : (mask p).bitAnd x = if p then x else zero := by
  cases p <;> simp [mask]

@[simp]
theorem bitAnd_mask (p : Bool) (x : Binary f) : x.bitAnd (mask p) = if p then x else zero := by
  rw [bitAnd_comm, mask_bitAnd]

@[simp]
theorem bitOr_mask (p : Bool) (x : Binary f) : x.bitOr (mask p) = if p then ones else x := by
  cases p <;> simp [mask]

@[simp]
theorem ite_mask_zero (p q : Bool) :
    (if p = true then (mask q : Binary f) else zero) = mask (p && q) := by
  cases p <;> rfl

@[simp]
theorem ite_ones_mask (p q : Bool) :
    (if p = true then ones else (mask q : Binary f)) = mask (p || q) := by
  cases p <;> rfl

@[simp]
theorem mask_bitAndNot (p : Bool) (x : Binary f) : (mask p).bitAndNot x = if p then zero else x := by
  cases p
  · simp [mask, bitAndNot, bitXor_zero]
  · simp [mask, bitAndNot]

theorem xor_two_pow {b m : Nat} (hm : m < 2 ^ b) : m ^^^ 2 ^ b = 2 ^ b + m := by
  have hor : 2 ^ b + m = 2 ^ b ||| m := by simpa using Nat.two_pow_add_eq_or_of_lt hm 1
  rw [hor]
  refine Nat.eq_of_testBit_eq fun i => ?_
  rw [Nat.testBit_xor, Nat.testBit_or, Nat.testBit_two_pow]
  by_cases hi : b = i
  · subst hi
    simp [Nat.testBit_lt_two_pow hm]
  · simp [hi]

/-- Changing the bit of a negative zero changes the sign. -/
@[simp]
theorem bitXor_neg_zero (x : Binary f) : x.bitXor zero.neg = x.neg := by
  have hzero : (zero.neg : Binary f).bits = 2 ^ f.below := by
    simp [zero, ofMagnitude, neg, bits]
  have h : x.bits ^^^ 2 ^ f.below = x.neg.bits := by
    have hm := xor_two_pow (show x.magnitude < 2 ^ f.below from x.bound)
    cases hs : x.negative
    · simp [bits, neg, hs, hm]
    · have hbits : x.bits = x.magnitude ^^^ 2 ^ f.below := by simp [bits, hs, hm]
      rw [hbits, Nat.xor_assoc, Nat.xor_self, Nat.xor_zero]
      simp [bits, neg, hs]
  rw [bitXor, hzero, h, ofBits_bits]

/-- Every bit set but that of the sign. -/
def positiveOnes : Binary f := ofBits (2 ^ f.below - 1)

@[simp]
theorem bitAnd_positiveOnes (x : Binary f) : x.bitAnd positiveOnes = x.abs := by
  have hlt : 2 ^ f.below - 1 < 2 ^ f.width :=
    Nat.lt_of_le_of_lt (Nat.sub_le _ _) (Nat.pow_lt_pow_right (by decide) (Nat.lt_succ_self _))
  have hones : (positiveOnes : Binary f).bits = 2 ^ f.below - 1 := by
    rw [positiveOnes, bits_ofBits, Nat.mod_eq_of_lt hlt]
  have h : x.bits &&& (2 ^ f.below - 1) = x.abs.bits := by
    have hm : x.magnitude % 2 ^ f.below = x.magnitude := Nat.mod_eq_of_lt x.bound
    rw [Nat.and_two_pow_sub_one_eq_mod]
    cases hs : x.negative <;> simp [bits, abs, hs, hm]
  rw [bitAnd, hones, h, ofBits_bits]

end Binary

/-! ## Lanes -/

namespace Vec128

variable {f : Format}

/-- The number in a lane. -/
def lane (f : Format) (v : Vec128) (i : Nat) : Binary f := .ofBits (v.toNat / 2 ^ (f.width * i))

/-- The first `n` of a family of numbers, side by side. -/
def packed (f : Format) (g : Nat → Binary f) : Nat → Nat
  | 0 => 0
  | n + 1 => packed f g n + (g n).bits * 2 ^ (f.width * n)

/-- The register that holds a family of numbers. -/
def ofLanes (f : Format) (g : Nat → Binary f) : Vec128 := .ofNat 128 (packed f g f.lanes)

theorem packed_lt (g : Nat → Binary f) : ∀ n, packed f g n < 2 ^ (f.width * n)
  | 0 => by simp [packed]
  | n + 1 => by
    have ih := packed_lt g n
    have hb : (g n).bits + 1 ≤ 2 ^ f.width := (g n).bits_lt
    calc packed f g n + (g n).bits * 2 ^ (f.width * n)
      _ < 2 ^ (f.width * n) + (g n).bits * 2 ^ (f.width * n) := Nat.add_lt_add_right ih _
      _ = ((g n).bits + 1) * 2 ^ (f.width * n) := by ring
      _ ≤ 2 ^ f.width * 2 ^ (f.width * n) := Nat.mul_le_mul_right _ hb
      _ = 2 ^ (f.width * (n + 1)) := by rw [← pow_add]; congr 1; ring

theorem packed_div (g : Nat → Binary f) : ∀ {n i : Nat}, i < n →
    packed f g n / 2 ^ (f.width * i) % 2 ^ f.width = (g i).bits
  | n + 1, i, hi => by
    rcases Nat.lt_succ_iff_lt_or_eq.1 hi with hlt | rfl
    · have hsplit : 2 ^ (f.width * n) =
          2 ^ (f.width * i) * (2 ^ f.width * 2 ^ (f.width * (n - i - 1))) := by
        rw [← pow_add, ← pow_add]
        congr 1
        obtain ⟨k, rfl⟩ : ∃ k, n = i + 1 + k := ⟨n - i - 1, by omega⟩
        rw [show i + 1 + k - i - 1 = k by omega]
        ring
      have hdiv : packed f g (n + 1) / 2 ^ (f.width * i) = packed f g n / 2 ^ (f.width * i) +
          2 ^ f.width * ((g n).bits * 2 ^ (f.width * (n - i - 1))) := by
        rw [packed, hsplit, show ∀ p b q r : Nat, p + b * (q * r) = p + q * (b * r) from
          fun p b q r => by ring, Nat.add_mul_div_left _ _ (Nat.two_pow_pos _)]
        ring
      rw [hdiv, Nat.add_mul_mod_self_left, packed_div g hlt]
    · rw [packed, Nat.add_mul_div_right _ _ (Nat.two_pow_pos _), Nat.div_eq_of_lt (packed_lt g i),
        Nat.zero_add, Nat.mod_eq_of_lt (g i).bits_lt]

@[simp]
theorem lane_ofLanes (g : Nat → Binary f) {i : Nat} (hi : i < f.lanes) :
    (ofLanes f g).lane f i = g i := by
  have hlt : packed f g f.lanes < 2 ^ 128 :=
    Nat.lt_of_lt_of_le (packed_lt g _) (Nat.pow_le_pow_right (by decide) (Nat.mul_div_le 128 _))
  rw [lane, ofLanes, BitVec.toNat_ofNat, Nat.mod_eq_of_lt hlt, ← Binary.ofBits_mod,
    packed_div g hi, Binary.ofBits_bits]

@[simp]
theorem lane_and (x y : Vec128) (i : Nat) :
    (x &&& y).lane f i = (x.lane f i).bitAnd (y.lane f i) := by
  rw [lane, BitVec.toNat_and, Nat.and_div_two_pow, Binary.ofBits_and, ← lane, ← lane]

@[simp]
theorem lane_or (x y : Vec128) (i : Nat) :
    (x ||| y).lane f i = (x.lane f i).bitOr (y.lane f i) := by
  rw [lane, BitVec.toNat_or, Nat.or_div_two_pow, Binary.ofBits_or, ← lane, ← lane]

@[simp]
theorem lane_xor (x y : Vec128) (i : Nat) :
    (x ^^^ y).lane f i = (x.lane f i).bitXor (y.lane f i) := by
  rw [lane, BitVec.toNat_xor, Nat.xor_div_two_pow, Binary.ofBits_xor, ← lane, ← lane]

/-- What `y` has and `x` has not. -/
def andNot (x y : Vec128) : Vec128 := ~~~x &&& y

@[simp]
theorem lane_andNot (x y : Vec128) (i : Nat) :
    (x.andNot y).lane f i = (x.lane f i).bitAndNot (y.lane f i) := by
  have h : x.andNot y = (x ||| y) ^^^ x := by
    ext j hj
    simp only [andNot, BitVec.getElem_and, BitVec.getElem_not, BitVec.getElem_xor,
      BitVec.getElem_or]
    cases x[j] <;> cases y[j] <;> rfl
  rw [h, lane_xor, lane_or, Binary.bitAndNot]

@[simp]
theorem lane_zero (i : Nat) : lane f 0#128 i = .zero := by
  rw [lane, BitVec.toNat_ofNat, Nat.zero_mod, Nat.zero_div, ← Binary.zero_bits (f := f),
    Binary.ofBits_bits]

end Vec128

end ScalarField
