/-
The value of a gradient is computed as a lane is (`Tape.grad_value_same_lane`).

Operator by operator the value does not depend on the derivatives, and it is
what the operator gives on plain numbers (`Grad.unary_v`, `Grad.binary_v`). The
exception is `abs`, which keeps a number that is not below zero: of a negative
zero it is the negative zero, where a lane has the positive one. A quotient by
it then differs by more than the sign of a zero (`Tape.grad_value_ne_lane`).
-/
import ScalarField.Proofs.Number.Operands
import ScalarField.Proofs.Tape.Meaning

namespace ScalarField

namespace Grad

variable {α ω : Type} [Arith α] [Analytic ω] [Precision α ω]

theorem unary_v {u : UnaryOp} (hu : u ≠ .abs) (a : Grad α) :
    (Grad.unary u a).v = Scalar.unary u a.v := by
  cases u with
  | abs => exact absurd rfl hu
  | _ => rfl

theorem abs_v (a : Grad α) :
    (Grad.unary .abs a).v = if Arith.lt a.v (Arith.ofInt 0) then Arith.neg a.v else a.v := by
  simp only [Grad.unary]
  split <;> rfl

theorem binary_v (o : BinaryOp) (a b : Grad α) :
    (Grad.binary o a b).v = Scalar.binary o a.v b.v := by
  cases o with
  | min =>
    simp only [Grad.binary, Scalar.binary, Grad.min, Scalar.min, Scalar.lesser]
    split
    · rfl
    · split <;> rfl
  | max =>
    simp only [Grad.binary, Scalar.binary, Grad.max, Scalar.max, Scalar.greater]
    split
    · rfl
    · split <;> rfl
  | and | or =>
    simp only [Grad.binary, Scalar.binary]
    split <;> rfl
  | _ => rfl

end Grad

namespace Binary

variable {f : Format} {x y : Binary f}

def IsNegativeZero (x : Binary f) : Prop := x.isZero = true ∧ x.negative = true

instance (x : Binary f) : Decidable x.IsNegativeZero := inferInstanceAs (Decidable (_ ∧ _))

/-- To negate what is below zero is to clear the sign, of a negative zero
apart. -/
theorem Same.abs_of_lt (h : x.Same y) (hy : ¬y.IsNegativeZero) :
    (if x.lt (.ofInt 0) then x.neg else x).Same y.abs := by
  have hnan : ∀ {z : Binary f}, z.isNaN = true →
      (if z.lt (.ofInt 0) then z.neg else z).isNaN = true := fun hz => by split <;> exact hz
  rcases h with rfl | ⟨hx, hy⟩
  · cases hx : x.isNaN with
    | true => exact .of_isNaN (hnan hx) hx
    | false =>
      have hlt := lt_ofInt_zero hx
      obtain ⟨s, m, hm⟩ := x
      cases s with
      | false =>
        have hpos : ¬((⟨false, m, hm⟩ : Binary f).key < 0) := by simp [Binary.key]
        simp [hlt, hpos, Binary.abs, Same.refl]
      | true =>
        have hm0 : m ≠ 0 := fun h0 => hy ⟨by simp [isZero, h0], rfl⟩
        have hneg : (⟨true, m, hm⟩ : Binary f).key < 0 := by
          simp [Binary.key]
          omega
        simp [hlt, hneg, Binary.abs, Binary.neg, Same.refl]
  · exact .of_isNaN (hnan hx) hy

end Binary

namespace Lanes

variable {l : Fin 4}

theorem splat_lane (v : Binary32) : (splat v)[l] = v := by simp [splat]

theorem unary_lane (u : UnaryOp) (a : Lanes) : (unary u a)[l] = Scalar.unary u a[l] := by
  simp [unary]

theorem binary_lane (o : BinaryOp) (a b : Lanes) :
    (binary o a b)[l] = Scalar.binary o a[l] b[l] := by
  simp [binary]

end Lanes

namespace Tape

/-- In one lane, no absolute value is taken of a negative zero. -/
def NoNegativeZeroAbs (t : Tape) (lanes : Array Lanes) (l : Fin 4) : Prop :=
  ∀ i ∈ t.instrs, i.op? = some (.unary .abs) →
    ∀ v ∈ (t.slotValues .simd4 lanes)[i.left]?, ¬v[l].IsNegativeZero

instance (t : Tape) (lanes : Array Lanes) (l : Fin 4) : Decidable (t.NoNegativeZeroAbs lanes l) :=
  inferInstanceAs (Decidable (∀ i ∈ t.instrs, _ → ∀ v ∈ _, _))

variable {t : Tape} {grads : Array (Grad Binary32)} {lanes : Array Lanes} {l : Fin 4}

/-- Every slot of a valid tape has the value that it has in the lane: by
induction on slots, the operands being the same. -/
theorem WellFormed.grad_same_lane (hwf : t.WellFormed) (hgrads : grads.size = t.vars.size)
    (hlanes : lanes.size = t.vars.size)
    (hin : List.Forall₂ (fun g v => g.v.Same v[l]) grads.toList lanes.toList)
    (habs : t.NoNegativeZeroAbs lanes l) :
    ∀ (k : Nat) g v, (t.slotValues .grad grads)[k]? = some g →
      (t.slotValues .simd4 lanes)[k]? = some v → g.v.Same v[l] := by
  refine hwf.slots_rel hgrads hlanes fun k i a b c d hi _ _ ha hb hargs => ?_
  refine Instr.outcome?_rel (R := fun g v => g.v.Same v[l])
    (fun k x y => forall₂_getElem? hin) ?_ ?_ ?_ ha hb
  · show (Binary.convert i.imm : Binary32).Same (Lanes.splat i.imm.convert)[l]
    rw [Lanes.splat_lane]
  · intro u x y hop hx hy
    have hxy := hargs i.left (by simp [Instr.args_unary hop]) x y hx hy
    show (Grad.unary u x).v.Same (Lanes.unary u y)[l]
    rw [Lanes.unary_lane]
    by_cases hu : u = .abs
    · subst hu
      rw [Grad.abs_v]
      exact hxy.abs_of_lt (habs i (Array.mem_of_getElem? hi) hop y hy)
    · rw [Grad.unary_v hu]
      exact Scalar.unary_same u hxy
  · intro o x y x' y' hop hx hy hx' hy'
    have hleft := hargs i.left (by simp [Instr.args_binary hop]) x y hx hy
    have hright := hargs i.right (by simp [Instr.args_binary hop]) x' y' hx' hy'
    show (Grad.binary o x x').v.Same (Lanes.binary o y y')[l]
    rw [Lanes.binary_lane, Grad.binary_v]
    exact Scalar.binary_same o hleft hright

/-- **The value of a gradient is that of a lane, absolute values of a negative
zero apart.** A valid tape is evaluated with derivatives and in lanes, on inputs
whose values are those of the lane `l`, whatever the derivatives and the other
lanes are. Both give results. If in that lane no `abs` has a negative zero for
its operand, then the value of every result is that of the lane, up to the
payload of a NaN. -/
theorem grad_value_same_lane (t : Tape) (l : Fin 4) (grads : Array (Grad Binary32))
    (lanes : Array Lanes) (hvalid : t.validate = .ok ()) (hvars : grads.size = t.vars.size)
    (hin : List.Forall₂ (fun g v => g.v.Same v[l]) grads.toList lanes.toList)
    (habs : t.NoNegativeZeroAbs lanes l) :
    ∃ out out', t.eval .grad grads = .ok out ∧ t.eval .simd4 lanes = .ok out' ∧
      List.Forall₂ (fun g v => g.v.Same v[l]) out out' := by
  obtain ⟨-, hwf⟩ := validate_eq_ok.1 hvalid
  have hlanes : lanes.size = t.vars.size := by
    rw [← hvars]
    simpa using hin.length_eq.symm
  exact hwf.eval_rel hvars hlanes (hwf.grad_same_lane hvars hlanes hin habs)

/-- `1 / |x|`. -/
def reciprocalOfAbs : Tape where
  instrs := #[{ code := Op.input.code, var := 0 }, { code := UnaryOp.abs.code, left := 0 },
    { code := UnaryOp.recip.code, left := 1 }]
  outputs := #[2]
  vars := #[utf8 "x", utf8 "y", utf8 "z"]

/-- The inputs with the derivatives of the axes, and the same in every lane. -/
def axisGrads (x : Binary32) : Array (Grad Binary32) :=
  #[⟨x, .one, .zero, .zero⟩, ⟨.zero, .zero, .one, .zero⟩, ⟨.zero, .zero, .zero, .one⟩]

def axisLanes (x : Binary32) : Array Lanes := #[.splat x, .splat .zero, .splat .zero]

/-- At `x = -2`. -/
theorem grad_value_same_lane_reciprocalOfAbs :
    reciprocalOfAbs.NoNegativeZeroAbs (axisLanes (.ofInt (-2))) 0 ∧
      ∃ out out', reciprocalOfAbs.eval .grad (axisGrads (.ofInt (-2))) = .ok out ∧
        reciprocalOfAbs.eval .simd4 (axisLanes (.ofInt (-2))) = .ok out' ∧
        List.Forall₂ (fun g v => g.v.Same v[(0 : Fin 4)]) out out' := by
  have habs : reciprocalOfAbs.NoNegativeZeroAbs (axisLanes (.ofInt (-2))) 0 := by decide +kernel
  refine ⟨habs, grad_value_same_lane reciprocalOfAbs 0 _ _ (by decide +kernel) rfl ?_ habs⟩
  exact .cons (.refl _) (.cons (.refl _) (.cons (.refl _) .nil))

/-- At a negative zero, the gradient has the negative infinity for its value and
the lanes have the positive one. -/
theorem grad_value_ne_lane :
    reciprocalOfAbs.validate = .ok () ∧
      (∃ g, reciprocalOfAbs.eval .grad (axisGrads Binary.zero.neg) = .ok [g] ∧
        g.v = .infinity true) ∧
      reciprocalOfAbs.eval .simd4 (axisLanes Binary.zero.neg) =
        .ok [.splat (.infinity false)] := by
  exact ⟨by decide +kernel, ⟨_, rfl, by decide +kernel⟩, by decide +kernel⟩

end Tape

end ScalarField
