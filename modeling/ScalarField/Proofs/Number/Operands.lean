/-
Operators on numbers do not look at payloads: operands that are the same give
results that are the same (`Scalar.unary_same`, `Scalar.binary_same`). And on
points, operands of `add`, `mul`, `min` and `max` may be swapped
(`Scalar.binary_swap`), except that a `min` or `max` of the two zeros is the
one it is given second.
-/
import ScalarField.Op
import ScalarField.Proofs.Number.Payload
import ScalarField.Proofs.Number.Value

namespace ScalarField

namespace Binary

variable {f : Format}

/-! ## Swapping -/

theorem add_comm (x y : Binary f) : x.add y = y.add x := by
  unfold add
  rw [Bool.or_comm x.isNaN]
  by_cases hnan : (y.isNaN || x.isNaN) = true
  · rw [if_pos hnan, if_pos hnan]
  rw [if_neg hnan, if_neg hnan]
  by_cases hx : x.isInf = true
  · by_cases hy : y.isInf = true
    · by_cases hs : x.negative = y.negative
      · rw [eq_infinity hx, eq_infinity hy, hs]
      · simp [hx, hy, hs, Ne.symm hs]
    · simp [hx, hy]
  · by_cases hy : y.isInf = true
    · simp [hx, hy]
    · simp only [hx, hy, Bool.false_eq_true, if_false]
      rw [Bool.and_comm, Int.add_comm]

theorem mul_comm (x y : Binary f) : x.mul y = y.mul x := by
  simp only [mul, Bool.or_comm y.isNaN, Bool.or_comm y.isInf, Bool.or_comm y.isZero,
    Nat.mul_comm y.units, bne_comm (a := y.negative)]

/-- Both are zeros, but not the same. -/
def OppositeZeros (x y : Binary f) : Prop :=
  x.isZero = true ∧ y.isZero = true ∧ x.negative ≠ y.negative

instance (x y : Binary f) : Decidable (OppositeZeros x y) :=
  inferInstanceAs (Decidable (_ ∧ _ ∧ _))

/-- Numbers that compare equal are equal, zeros apart. -/
theorem eq_of_key_eq {x y : Binary f} (hkey : x.key = y.key) (hzero : ¬OppositeZeros x y) :
    x = y := by
  obtain ⟨s, m, hm⟩ := x
  obtain ⟨s', m', hm'⟩ := y
  simp only [key, OppositeZeros, isZero, beq_iff_eq] at hkey hzero
  cases s <;> cases s' <;> simp_all

end Binary

namespace Binary.Same

variable {f : Format} {x y x' y' : Binary f}

theorem eq (h : Same x x') (h' : Same y y') : x.eq y = x'.eq y' :=
  compare (p := Binary.eq) (fun _ _ ho => by simp [Binary.eq, ho]) h h'

theorem mod [f.HasNaN] (h : Same x x') (h' : Same y y') : Same (x.mod y) (x'.mod y') :=
  h.map₂ (fun x y hnan => by simp [Binary.mod, hnan, Format.HasNaN.nan_isNaN]) h'

theorem elementary {x y : Binary64} (fn : Float → Float) (h : Same x y) :
    Same (Binary.elementary fn x) (Binary.elementary fn y) :=
  h.map fun x hnan => by simp [Binary.elementary, hnan, Format.HasNaN.nan_isNaN]

theorem atan2 {x y x' y' : Binary64} (h : Same x x') (h' : Same y y') :
    Same (x.atan2 y) (x'.atan2 y') :=
  h.map₂ (fun x y hnan => by simp [Binary.atan2, hnan, Format.HasNaN.nan_isNaN]) h'

end Binary.Same

/-- Passing to the type in which functions are computed and back does not look
at payloads. -/
class Precision.IgnoresPayload (f : Format) [Precision (Binary f) Binary64] : Prop where
  widen_same {x y : Binary f} (h : x.Same y) :
    Binary.Same (Precision.widen x : Binary64) (Precision.widen y)
  narrow_same {x y : Binary64} (h : x.Same y) :
    Binary.Same (Precision.narrow x : Binary f) (Precision.narrow y)

instance : Precision.IgnoresPayload .binary64 := ⟨id, id⟩

instance : Precision.IgnoresPayload .binary32 := ⟨Binary.Same.convert, Binary.Same.convert⟩

namespace Scalar

section

variable {f : Format} {x y x' y' : Binary f}

theorem isZero_same (h : x.Same x') : isZero x = isZero x' := by
  simp only [isZero, Arith.eq]
  exact h.eq (.refl _)

variable [Precision (Binary f) Binary64] [Precision.IgnoresPayload f]

theorem via_same {fn : Binary64 → Binary64}
    (hfn : ∀ {v w : Binary64}, v.Same w → (fn v).Same (fn w)) (h : x.Same x') :
    Binary.Same (via fn x : Binary f) (via fn x') :=
  Precision.IgnoresPayload.narrow_same (hfn (Precision.IgnoresPayload.widen_same h))

variable [f.HasNaN]

theorem unary_same (u : UnaryOp) (h : x.Same x') : (unary u x).Same (unary u x') := by
  cases u with
  | neg => exact h.neg
  | abs => exact h.abs
  | recip =>
    simp only [unary, Arith.div]
    exact Binary.Same.div (.refl _) h
  | sqrt => exact via_same Binary.Same.sqrt h
  | square => exact h.mul h
  | floor => exact via_same Binary.Same.floor h
  | ceil => exact via_same Binary.Same.ceil h
  | round => exact via_same Binary.Same.roundEven h
  | sin | cos | tan | asin | acos | atan | exp | ln => exact via_same (Binary.Same.elementary _) h
  | not =>
    simp only [unary, not, isZero_same h]
    exact .refl _

theorem mod_same (h : x.Same x') (h' : y.Same y') : (mod x y).Same (mod x' y') := by
  have hr := Precision.IgnoresPayload.narrow_same (f := f)
    ((Precision.IgnoresPayload.widen_same h).mod (Precision.IgnoresPayload.widen_same h'))
  unfold mod
  simp only [Arith.lt, Arith.add, Arith.abs, Analytic.mod, hr.lt (.refl _)]
  split
  · exact hr.add h'.abs
  · exact hr

theorem binary_same (o : BinaryOp) (h : x.Same x') (h' : y.Same y') :
    (binary o x y).Same (binary o x' y') := by
  cases o with
  | add => exact h.add h'
  | sub => exact h.sub h'
  | mul => exact h.mul h'
  | div => exact h.div h'
  | min =>
    simp only [binary, min, Arith.isNaN, h.isNaN, h'.isNaN]
    split
    · exact .refl _
    · exact h.lesser h'
  | max =>
    simp only [binary, max, Arith.isNaN, h.isNaN, h'.isNaN]
    split
    · exact .refl _
    · exact h.greater h'
  | mod => exact mod_same h h'
  | atan2 =>
    exact Precision.IgnoresPayload.narrow_same
      ((Precision.IgnoresPayload.widen_same h).atan2 (Precision.IgnoresPayload.widen_same h'))
  | compare =>
    simp only [binary, compare, Arith.isNaN, Arith.lt, h.isNaN, h'.isNaN, h.lt h', h'.lt h]
    exact .refl _
  | and =>
    simp only [binary, isZero_same h]
    split
    · exact h
    · exact h'
  | or =>
    simp only [binary, isZero_same h]
    split
    · exact h'
    · exact h

end

variable {x y : Binary64}

theorem lt_or_eq (hx : x.isNaN = false) (hy : y.isNaN = false) (hzero : ¬x.OppositeZeros y) :
    x.lt y = true ∧ y.lt x = false ∨ y.lt x = true ∧ x.lt y = false ∨ x = y := by
  have hlt : ∀ {a b : Binary64}, a.isNaN = false → b.isNaN = false →
      a.lt b = decide (a.key < b.key) := fun ha hb => by simp [Binary.lt, Binary.ordered, ha, hb]
  rw [hlt hx hy, hlt hy hx]
  rcases Int.lt_trichotomy x.key y.key with h | h | h
  · exact .inl ⟨by simpa using h, by simpa using Int.le_of_lt h⟩
  · exact .inr (.inr (Binary.eq_of_key_eq h hzero))
  · exact .inr (.inl ⟨by simpa using h, by simpa using Int.le_of_lt h⟩)

/-- What may be swapped: for `min` and `max`, anything but opposite zeros. -/
theorem binary_swap {o : BinaryOp} (ho : o.isCommutative = true)
    (hzero : o = .min ∨ o = .max → ¬x.OppositeZeros y) : binary o x y = binary o y x := by
  have hextreme : ∀ {a b : Binary64}, (x.isNaN = false → y.isNaN = false → a = b) →
      (if Arith.isNaN x || Arith.isNaN y then Arith.nan else a) =
        if Arith.isNaN y || Arith.isNaN x then Arith.nan else b := by
    intro a b h
    rw [Bool.or_comm]
    split
    · rfl
    · rename_i hnan
      simp only [Arith.isNaN, Bool.or_eq_true, not_or, Bool.not_eq_true] at hnan
      exact h hnan.2 hnan.1
  cases o with
  | add => exact Binary.add_comm x y
  | mul => exact Binary.mul_comm x y
  | min =>
    refine hextreme fun hx hy => ?_
    rcases lt_or_eq hx hy (hzero (.inl rfl)) with ⟨h, h'⟩ | ⟨h, h'⟩ | rfl
    · simp [lesser, Arith.lt, h, h']
    · simp [lesser, Arith.lt, h, h']
    · rfl
  | max =>
    refine hextreme fun hx hy => ?_
    rcases lt_or_eq hx hy (hzero (.inr rfl)) with ⟨h, h'⟩ | ⟨h, h'⟩ | rfl
    · simp [greater, Arith.lt, h, h']
    · simp [greater, Arith.lt, h, h']
    · rfl
  | _ => simp [BinaryOp.isCommutative] at ho

end Scalar

end ScalarField
