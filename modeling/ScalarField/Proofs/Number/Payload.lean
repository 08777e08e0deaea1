/-
Numbers up to the payload of a NaN. Nothing looks at a payload: operations on
numbers that are the same in this sense give numbers that are the same.
-/
import Mathlib.Tactic.Common
import ScalarField.Eval.Scalar

namespace ScalarField

/-- A format in which there is a NaN. -/
class Format.HasNaN (f : Format) : Prop where
  nan_isNaN : (Binary.nan : Binary f).isNaN = true

instance : Format.binary32.HasNaN := ⟨by decide +kernel⟩

instance : Format.binary64.HasNaN := ⟨by decide +kernel⟩

namespace Binary

variable {f g : Format} {x y x' y' : Binary f}

/-- The same number, or both no number. -/
def Same (x y : Binary f) : Prop := x = y ∨ x.isNaN = true ∧ y.isNaN = true

namespace Same

@[refl]
theorem refl (x : Binary f) : Same x x := .inl rfl

theorem symm (h : Same x y) : Same y x := h.imp Eq.symm And.symm

theorem trans {z : Binary f} (h : Same x y) (h' : Same y z) : Same x z := by
  rcases h with rfl | ⟨hx, hy⟩
  · exact h'
  · rcases h' with rfl | ⟨-, hz⟩
    · exact .inr ⟨hx, hy⟩
    · exact .inr ⟨hx, hz⟩

theorem isNaN (h : Same x y) : x.isNaN = y.isNaN := by
  rcases h with rfl | ⟨hx, hy⟩
  · rfl
  · rw [hx, hy]

theorem of_isNaN (hx : x.isNaN = true) (hy : y.isNaN = true) : Same x y := .inr ⟨hx, hy⟩

/-- A function that is no number where its operand is none. -/
theorem map {fn : Binary f → Binary g} (hfn : ∀ x, x.isNaN = true → (fn x).isNaN = true)
    (h : Same x y) : Same (fn x) (fn y) := by
  rcases h with rfl | ⟨hx, hy⟩
  · exact .refl _
  · exact .inr ⟨hfn x hx, hfn y hy⟩

theorem map₂ {fn : Binary f → Binary f → Binary g}
    (hfn : ∀ x y, (x.isNaN || y.isNaN) = true → (fn x y).isNaN = true)
    (h : Same x x') (h' : Same y y') : Same (fn x y) (fn x' y') := by
  rcases h with rfl | ⟨hx, hx'⟩
  · rcases h' with rfl | ⟨hy, hy'⟩
    · exact .refl _
    · exact .inr ⟨hfn x y (by simp [hy]), hfn x y' (by simp [hy'])⟩
  · exact .inr ⟨hfn x y (by simp [hx]), hfn x' y' (by simp [hx'])⟩

/-! ## Comparisons -/

theorem ordered (h : Same x x') (h' : Same y y') : Binary.ordered x y = Binary.ordered x' y' := by
  rw [Binary.ordered, Binary.ordered, h.isNaN, h'.isNaN]

/-- What holds only of numbers that compare holds of numbers that are the
same. -/
theorem compare {p : Binary f → Binary f → Bool}
    (hp : ∀ x y, Binary.ordered x y = false → p x y = false) (h : Same x x') (h' : Same y y') :
    p x y = p x' y' := by
  cases ho : Binary.ordered x y with
  | false => rw [hp x y ho, hp x' y' (by rw [← h.ordered h', ho])]
  | true =>
    simp only [Binary.ordered, Bool.and_eq_true, Bool.not_eq_true'] at ho
    rcases h with rfl | ⟨hx, -⟩
    · rcases h' with rfl | ⟨hy, -⟩
      · rfl
      · simp [hy] at ho
    · simp [hx] at ho

theorem lt (h : Same x x') (h' : Same y y') : x.lt y = x'.lt y' :=
  compare (p := Binary.lt) (fun _ _ ho => by simp [Binary.lt, ho]) h h'

theorem le (h : Same x x') (h' : Same y y') : x.le y = x'.le y' :=
  compare (p := Binary.le) (fun _ _ ho => by simp [Binary.le, ho]) h h'

theorem lesser (h : Same x x') (h' : Same y y') : Same (Scalar.lesser x y) (Scalar.lesser x' y') := by
  simp only [Scalar.lesser, Arith.lt, h.lt h']
  split
  · exact h
  · exact h'

theorem greater (h : Same x x') (h' : Same y y') :
    Same (Scalar.greater x y) (Scalar.greater x' y') := by
  simp only [Scalar.greater, Arith.lt, h'.lt h]
  split
  · exact h
  · exact h'

/-! ## Arithmetic -/

theorem neg (h : Same x y) : Same x.neg y.neg := h.map fun _ hx => hx

theorem abs (h : Same x y) : Same x.abs y.abs := h.map fun _ hx => hx

theorem convert [g.HasNaN] (h : Same x y) : Same (x.convert : Binary g) y.convert :=
  h.map fun x hnan => by simp [Binary.convert, hnan, Format.HasNaN.nan_isNaN]

variable [f.HasNaN]

theorem add (h : Same x x') (h' : Same y y') : Same (x.add y) (x'.add y') :=
  h.map₂ (fun x y hnan => by simp [Binary.add, hnan, Format.HasNaN.nan_isNaN]) h'

theorem sub (h : Same x x') (h' : Same y y') : Same (x.sub y) (x'.sub y') := h.add h'.neg

theorem mul (h : Same x x') (h' : Same y y') : Same (x.mul y) (x'.mul y') :=
  h.map₂ (fun x y hnan => by simp [Binary.mul, hnan, Format.HasNaN.nan_isNaN]) h'

theorem div (h : Same x x') (h' : Same y y') : Same (x.div y) (x'.div y') :=
  h.map₂ (fun x y hnan => by simp [Binary.div, hnan, Format.HasNaN.nan_isNaN]) h'

theorem sqrt (h : Same x y) : Same x.sqrt y.sqrt :=
  h.map fun x hnan => by simp [Binary.sqrt, hnan, Format.HasNaN.nan_isNaN]

theorem toIntegral {t : Bool → Tie} (h : Same x y) : Same (x.toIntegral t) (y.toIntegral t) :=
  h.map fun x hnan => by simp [Binary.toIntegral, hnan, Format.HasNaN.nan_isNaN]

theorem floor (h : Same x y) : Same x.floor y.floor := h.toIntegral

theorem ceil (h : Same x y) : Same x.ceil y.ceil := h.toIntegral

theorem roundEven (h : Same x y) : Same x.roundEven y.roundEven := h.toIntegral

end Same

end Binary

end ScalarField
