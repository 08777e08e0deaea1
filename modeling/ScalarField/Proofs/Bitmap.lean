/-
Bitmaps as sets: a bitmap for `n` numbers answers for each of them without a
fault, and adding a number adds exactly that number. A set in one word gains
and loses exactly the number that is added or removed, and gives its lowest
one.
-/
import Mathlib.Data.Nat.Bitwise
import ScalarField.Words

namespace ScalarField

namespace Bitmap

/-- A number is in the set. -/
def Has (b : Bitmap) (k : Nat) : Prop := b.test (.ofNat k) = .ok true

/-- The bitmap has a word for every number below `n`. -/
def Covers (b : Bitmap) (n : Nat) : Prop := ∀ k < n, k / 64 < b.words.size

theorem word_index {k : Nat} (hk : k < 2 ^ 64) : (UInt64.ofNat k / 64).toNat = k / 64 := by
  rw [UInt64.toNat_div, UInt64.toNat_ofNat_of_lt' hk]
  rfl

theorem bit_toNat {k : Nat} (hk : k < 2 ^ 64) : (bit (.ofNat k)).toNat = 2 ^ (k % 64) := by
  have hlt : 2 ^ (k % 64) < 2 ^ 64 :=
    Nat.pow_lt_pow_right (by decide) (Nat.mod_lt _ (by decide))
  have hplace : (UInt64.ofNat k % 64).toNat = k % 64 := by
    rw [UInt64.toNat_mod, UInt64.toNat_ofNat_of_lt' hk]
    rfl
  rw [bit, UInt64.toNat_shiftLeft, hplace, Nat.mod_mod, Nat.shiftLeft_eq]
  simpa using hlt

theorem and_bit_ne_zero {k : Nat} (hk : k < 2 ^ 64) (w : UInt64) :
    (w &&& bit (.ofNat k) != 0) = w.toNat.testBit (k % 64) := by
  have hand : (w &&& bit (.ofNat k)).toNat = w.toNat &&& 2 ^ (k % 64) := by
    rw [UInt64.toNat_and, bit_toNat hk]
  have hzero : (w &&& bit (.ofNat k) = 0) ↔ w.toNat &&& 2 ^ (k % 64) = 0 := by
    rw [← hand, ← UInt64.toNat_inj]; rfl
  rw [Nat.and_two_pow] at hzero
  cases hb : w.toNat.testBit (k % 64) <;> simp_all

theorem test_mk {ws : Array UInt64} {k : Nat} (hk : k < 2 ^ 64) {w : UInt64}
    (hw : ws[k / 64]? = some w) : (mk ws).test (.ofNat k) = .ok (w.toNat.testBit (k % 64)) := by
  simp only [test, word_index hk, hw, and_bit_ne_zero hk]

theorem test_of_covers {b : Bitmap} {n k : Nat} (hb : b.Covers n) (hk : k < n) (hn : n ≤ 2 ^ 64) :
    ∃ r, b.test (.ofNat k) = .ok r :=
  ⟨_, test_mk (by omega) (Array.getElem?_eq_getElem (hb k hk))⟩

/-- Adding a number that is covered adds it and nothing else. -/
theorem set_of_covers {b : Bitmap} {n k : Nat} (hb : b.Covers n) (hk : k < n) (hn : n ≤ 2 ^ 64) :
    ∃ b', b.set (.ofNat k) = .ok b' ∧ b'.Covers n ∧ ∀ j < n, b'.Has j ↔ j = k ∨ b.Has j := by
  obtain ⟨ws⟩ := b
  have hk64 : k < 2 ^ 64 := by omega
  obtain ⟨w, hw⟩ : ∃ w, ws[k / 64]? = some w := ⟨_, Array.getElem?_eq_getElem (hb k hk)⟩
  refine ⟨⟨ws.setIfInBounds (k / 64) (w ||| bit (.ofNat k))⟩, ?_, ?_, ?_⟩
  · simp only [set, word_index hk64, hw]
  · intro j hj
    simpa using hb j hj
  · intro j hj
    have hj64 : j < 2 ^ 64 := by omega
    obtain ⟨v, hv⟩ : ∃ v, ws[j / 64]? = some v := ⟨_, Array.getElem?_eq_getElem (hb j hj)⟩
    by_cases hsame : k / 64 = j / 64
    · -- The same word: the numbers are equal exactly if their places are.
      have hplace : k % 64 = j % 64 ↔ j = k := by omega
      have hvw : v = w := by simpa [← hsame, hw] using hv.symm
      have hget : (ws.setIfInBounds (k / 64) (w ||| bit (.ofNat k)))[j / 64]? =
          some (w ||| bit (.ofNat k)) := by
        rw [hsame, Array.getElem?_setIfInBounds_self_of_lt (hb j hj)]
      rw [Has, Has, test_mk hj64 hget, test_mk hj64 hv, hvw]
      simp only [UInt64.toNat_or, bit_toNat hk64, Nat.testBit_or, Nat.testBit_two_pow,
        Except.ok.injEq, Bool.or_eq_true, decide_eq_true_eq, hplace]
      exact or_comm
    · have hne : j ≠ k := fun h => hsame (h ▸ rfl)
      have hget : (ws.setIfInBounds (k / 64) (w ||| bit (.ofNat k)))[j / 64]? = some v := by
        rw [Array.getElem?_setIfInBounds_ne hsame, hv]
      rw [Has, Has, test_mk hj64 hget, test_mk hj64 hv]
      simp only [hne, false_or]

theorem zeros_covers {n : Nat} (hn : n ≤ 2 ^ 63) : (zeros n).Covers n := by
  intro k hk
  have hsum : n + 63 < 2 ^ 64 := by omega
  have hwords : (wordsFor (.ofNat n)).toNat = (n + 63) / 64 := by
    have hn64 : (UInt64.ofNat n).toNat = n := UInt64.toNat_ofNat_of_lt' (show n < 2 ^ 64 by omega)
    rw [wordsFor, UInt64.toNat_div, UInt64.toNat_add, hn64]
    exact congrArg (· / 64) (Nat.mod_eq_of_lt hsum)
  simp only [zeros, Array.size_replicate, hwords]
  omega

theorem not_zeros_has (n k : Nat) : ¬(zeros n).Has k := by
  simp only [Has, test, zeros, Array.getElem?_replicate]
  split
  · rename_i w hw
    obtain rfl : 0 = w := by
      split at hw <;> simp_all
    simp
  · simp

end Bitmap

namespace WordSet

/-- A number is in the set. -/
def has (s : WordSet) (n : Nat) : Bool := s.bits.toNat.testBit n

variable {s : WordSet} {n : Nat}

theorem has_lt (h : s.has n = true) : n < 64 := by
  by_contra hge
  have hlt : s.bits.toNat < 2 ^ n :=
    Nat.lt_of_lt_of_le s.bits.toNat_lt (Nat.pow_le_pow_right (by decide) (Nat.le_of_not_lt hge))
  rw [has, Nat.testBit_lt_two_pow hlt] at h
  cases h

theorem bit_eq (hn : n < 64) : (Bitmap.bit (.ofNat n)).toNat = 2 ^ n := by
  rw [Bitmap.bit_toNat (by omega), Nat.mod_eq_of_lt hn]

theorem has_below (hn : n ≤ 64) (k : Nat) : (below n).has k = decide (k < n) := by
  have hbits : (below n).bits.toNat = 2 ^ n - 1 := by
    unfold below
    by_cases hlt : n < 64
    · have hone : (1 : UInt64) ≤ Bitmap.bit (.ofNat n) := by
        rw [UInt64.le_iff_toNat_le, bit_eq hlt]
        exact Nat.one_le_two_pow
      rw [if_pos hlt, UInt64.toNat_sub_of_le _ _ hone, bit_eq hlt]
      rfl
    · obtain rfl : n = 64 := by omega
      rfl
  rw [has, hbits, Nat.testBit_two_pow_sub_one]

theorem has_insert (hn : n < 64) (k : Nat) : (s.insert n).has k = (s.has k || decide (n = k)) := by
  rw [has, insert, UInt64.toNat_or, bit_eq hn, Nat.testBit_or, Nat.testBit_two_pow, has]

theorem of_has_insert {k : Nat} (hk : k < 64) (h : (s.insert n).has k = false) :
    s.has k = false ∧ n ≠ k := by
  constructor
  · rw [has, insert, UInt64.toNat_or, Nat.testBit_or, Bool.or_eq_false_iff] at h
    exact h.1
  · rintro rfl
    rw [has_insert hk, decide_eq_true rfl, Bool.or_true] at h
    cases h

theorem has_erase (hn : n < 64) (k : Nat) : (s.erase n).has k = (s.has k && !decide (n = k)) := by
  have hnot : (~~~Bitmap.bit (.ofNat n)).toNat = 2 ^ 64 - (2 ^ n + 1) := by
    rw [UInt64.toNat_not, bit_eq hn, Nat.sub_sub, Nat.add_comm]
    rfl
  have hlt : 2 ^ n < 2 ^ 64 := Nat.pow_lt_pow_right (by decide) hn
  rw [has, erase, UInt64.toNat_and, hnot, Nat.testBit_and, Nat.testBit_two_pow_sub_succ hlt,
    Nat.testBit_two_pow, ← has]
  cases hk : s.has k with
  | false => rfl
  | true => simp [has_lt hk]

theorem lowest?_eq_none (h : s.lowest? = none) (k : Nat) : s.has k = false := by
  unfold lowest? at h
  split at h
  · next hzero =>
    rw [has, hzero]
    exact Nat.zero_testBit k
  · cases h

theorem lowest?_eq_some (h : s.lowest? = some n) : s.has n = true ∧ ∀ k < n, s.has k = false := by
  unfold lowest? at h
  split at h
  · cases h
  · next hne =>
    have hpos : s.bits.toNat ≠ 0 := fun hzero => hne (UInt64.toNat_inj.1 hzero)
    obtain ⟨k, hk⟩ := Nat.exists_testBit_of_ne_zero hpos
    have hsome : ((List.range 64).find? s.bits.toNat.testBit).isSome = true := by
      rw [List.find?_isSome]
      exact ⟨k, List.mem_range.2 (has_lt hk), hk⟩
    obtain ⟨m, hm⟩ := Option.isSome_iff_exists.1 hsome
    rw [Option.some.injEq, trailingZeros, hm, Option.getD_some] at h
    subst h
    obtain ⟨htrue, -, hbelow⟩ := List.find?_range_eq_some.1 hm
    exact ⟨htrue, fun k hk => by simpa [has] using hbelow k hk⟩

end WordSet

end ScalarField
