/-
The operators read over the real numbers, where nothing is rounded.

`Arith` and `Analytic` are read as the functions they stand for, so that the
rules for derivatives can be read over the reals, too. Beside them stand the
operators themselves as functions (`UnaryOp.exact`, `BinaryOp.exact`), the
numbers at which they can be differentiated (`UnaryOp.Regular`,
`BinaryOp.Regular`), and their slopes there. The rules carry derivatives forward
by exactly these slopes (`Grad.unary_eq`, `Grad.binary_eq`).
-/
import Mathlib.Analysis.Calculus.Deriv.Abs
import Mathlib.Analysis.SpecialFunctions.Complex.Arg
import Mathlib.Analysis.SpecialFunctions.Log.Deriv
import Mathlib.Analysis.SpecialFunctions.Sqrt
import Mathlib.Analysis.SpecialFunctions.Trigonometric.ArctanDeriv
import Mathlib.Analysis.SpecialFunctions.Trigonometric.InverseDeriv
import ScalarField.Eval.Grad

namespace ScalarField

/-! ## Arithmetic -/

/-- Every real number is a number. -/
noncomputable instance : Arith ℝ where
  ofInt n := n
  nan := 0
  isNaN _ := false
  lt a b := decide (a < b)
  eq a b := decide (a = b)
  neg a := -a
  abs a := |a|
  add a b := a + b
  sub a b := a - b
  mul a b := a * b
  div a b := a / b

/-- The number without its fraction. -/
noncomputable def towardZero (a : ℝ) : ℤ := if a < 0 then ⌈a⌉ else ⌊a⌋

/-- The nearest integer; halfway between two, the upper one if `up` holds of the
lower one. -/
noncomputable def nearestBy (up : ℤ → Prop) [DecidablePred up] (a : ℝ) : ℤ :=
  if Int.fract a < 1 / 2 then ⌊a⌋
  else if 1 / 2 < Int.fract a then ⌊a⌋ + 1
  else if up ⌊a⌋ then ⌊a⌋ + 1 else ⌊a⌋

noncomputable instance : Analytic ℝ where
  sqrt := Real.sqrt
  floor a := ⌊a⌋
  ceil a := ⌈a⌉
  roundEven a := nearestBy (fun n => ¬Even n) a
  roundAway a := nearestBy (fun n => 0 ≤ n) a
  sin := Real.sin
  cos := Real.cos
  tan := Real.tan
  asin := Real.arcsin
  acos := Real.arccos
  atan := Real.arctan
  exp := Real.exp
  ln := Real.log
  mod a b := a - b * towardZero (a / b)
  atan2 a b := Complex.arg ⟨b, a⟩

instance : Precision ℝ ℝ := ⟨id, id⟩

section

variable (a b : ℝ)

@[simp] theorem real_ofInt (n : Int) : (Arith.ofInt n : ℝ) = n := rfl
@[simp] theorem real_isNaN : Arith.isNaN a = false := rfl
@[simp] theorem real_lt : Arith.lt a b = decide (a < b) := rfl
@[simp] theorem real_neg : Arith.neg a = -a := rfl
@[simp] theorem real_add : Arith.add a b = a + b := rfl
@[simp] theorem real_sub : Arith.sub a b = a - b := rfl
@[simp] theorem real_mul : Arith.mul a b = a * b := rfl
@[simp] theorem real_div : Arith.div a b = a / b := rfl
@[simp] theorem real_sqrt : Analytic.sqrt a = √a := rfl
@[simp] theorem real_cos : Analytic.cos a = Real.cos a := rfl
@[simp] theorem real_sin : Analytic.sin a = Real.sin a := rfl
@[simp] theorem real_via (fn : ℝ → ℝ) : Scalar.via fn a = fn a := rfl

end

/-! ## Operators with a slope -/

namespace UnaryOp

/-- Whether the operator has a slope. The others only jump. -/
def hasSlope : UnaryOp → Bool
  | .floor | .ceil | .round | .not => false
  | _ => true

/-- The operator as a function. -/
noncomputable def exact : UnaryOp → ℝ → ℝ
  | .neg, a => -a
  | .abs, a => |a|
  | .recip, a => a⁻¹
  | .sqrt, a => √a
  | .square, a => a ^ 2
  | .sin, a => Real.sin a
  | .cos, a => Real.cos a
  | .tan, a => Real.tan a
  | .asin, a => Real.arcsin a
  | .acos, a => Real.arccos a
  | .atan, a => Real.arctan a
  | .exp, a => Real.exp a
  | .ln, a => Real.log a
  | u, a => Scalar.unary u a

/-- The operands at which the operator can be differentiated. -/
def Regular : UnaryOp → ℝ → Prop
  | .abs, a | .recip, a => a ≠ 0
  | .sqrt, a | .ln, a => 0 < a
  | .tan, a => Real.cos a ≠ 0
  | .asin, a | .acos, a => |a| < 1
  | _, _ => True

noncomputable def slope : UnaryOp → ℝ → ℝ
  | .neg, _ => -1
  | .abs, a => if a < 0 then -1 else 1
  | .recip, a => -1 / a ^ 2
  | .sqrt, a => 1 / (2 * √a)
  | .square, a => 2 * a
  | .sin, a => Real.cos a
  | .cos, a => -Real.sin a
  | .tan, a => 1 / Real.cos a ^ 2
  | .asin, a => 1 / √(1 - a ^ 2)
  | .acos, a => -(1 / √(1 - a ^ 2))
  | .atan, a => 1 / (1 + a ^ 2)
  | .exp, a => Real.exp a
  | .ln, a => a⁻¹
  | _, _ => 0

/-- The slope of an operator is its derivative. -/
theorem hasDerivAt_exact {u : UnaryOp} (hu : u.hasSlope = true) {a : ℝ} (h : u.Regular a) :
    HasDerivAt u.exact (u.slope a) a := by
  have hid := hasDerivAt_id a
  have hinner (h : |a| < 1) : a ≠ -1 ∧ a ≠ 1 := ⟨(abs_lt.1 h).1.ne', (abs_lt.1 h).2.ne⟩
  cases u with
  | neg => exact hid.fun_neg
  | abs =>
    rcases lt_or_gt_of_ne h with hneg | hpos
    · exact (hasDerivAt_abs_neg hneg).congr_deriv (by simp [slope, hneg])
    · exact (hasDerivAt_abs_pos hpos).congr_deriv (by simp [slope, not_lt.2 hpos.le])
  | recip => exact hid.fun_inv h
  | sqrt => exact hid.sqrt (ne_of_gt h)
  | square => exact (hid.fun_pow 2).congr_deriv (by simp [slope])
  | sin => exact Real.hasDerivAt_sin a
  | cos => exact Real.hasDerivAt_cos a
  | tan => exact Real.hasDerivAt_tan h
  | asin => exact Real.hasDerivAt_arcsin (hinner h).1 (hinner h).2
  | acos => exact Real.hasDerivAt_arccos (hinner h).1 (hinner h).2
  | atan => exact Real.hasDerivAt_arctan a
  | exp => exact Real.hasDerivAt_exp a
  | ln => exact Real.hasDerivAt_log (ne_of_gt h)
  | floor | ceil | round | not => cases hu

end UnaryOp

namespace BinaryOp

/-- Whether `slopes` holds the slopes of the operator. -/
def hasSlope : BinaryOp → Bool
  | .add | .sub | .mul | .div | .min | .max => true
  | _ => false

/-- The operator as a function. -/
noncomputable def exact : BinaryOp → ℝ → ℝ → ℝ
  | .add, a, b => a + b
  | .sub, a, b => a - b
  | .mul, a, b => a * b
  | .div, a, b => a / b
  | .min, a, b => Min.min a b
  | .max, a, b => Max.max a b
  | o, a, b => Scalar.binary o a b

/-- The operands at which the operator can be differentiated. -/
def Regular : BinaryOp → ℝ → ℝ → Prop
  | .div, _, b => b ≠ 0
  | .min, a, b | .max, a, b => a ≠ b
  | _, _, _ => True

/-- The slope by the first operand and that by the second. -/
noncomputable def slopes : BinaryOp → ℝ → ℝ → ℝ × ℝ
  | .add, _, _ => (1, 1)
  | .sub, _, _ => (1, -1)
  | .mul, a, b => (b, a)
  | .div, a, b => (1 / b, -a / b ^ 2)
  | .min, a, b => if a < b then (1, 0) else (0, 1)
  | .max, a, b => if b < a then (1, 0) else (0, 1)
  | _, _, _ => (0, 0)

variable {f g : ℝ → ℝ} {d e s : ℝ}

/-- While one function lies below another, the smaller of both is the first. -/
theorem hasDerivAt_min (hlt : f s < g s) (hf : HasDerivAt f d s) (hg : HasDerivAt g e s) :
    HasDerivAt (fun x => Min.min (f x) (g x)) d s := by
  refine hf.congr_of_eventuallyEq ?_
  filter_upwards [hf.continuousAt.eventually_lt hg.continuousAt hlt] with x hx
  exact min_eq_left hx.le

theorem hasDerivAt_max (hlt : f s < g s) (hf : HasDerivAt f d s) (hg : HasDerivAt g e s) :
    HasDerivAt (fun x => Max.max (f x) (g x)) e s := by
  refine hg.congr_of_eventuallyEq ?_
  filter_upwards [hf.continuousAt.eventually_lt hg.continuousAt hlt] with x hx
  exact max_eq_right hx.le

/-- Along two functions, an operator changes by its slopes. -/
theorem hasDerivAt_exact {o : BinaryOp} (ho : o.hasSlope = true) (h : o.Regular (f s) (g s))
    (hf : HasDerivAt f d s) (hg : HasDerivAt g e s) :
    HasDerivAt (fun x => o.exact (f x) (g x))
      (d * (o.slopes (f s) (g s)).1 + e * (o.slopes (f s) (g s)).2) s := by
  cases o with
  | add => exact (hf.fun_add hg).congr_deriv (by simp [slopes])
  | sub => exact (hf.fun_sub hg).congr_deriv (by simp [slopes, sub_eq_add_neg])
  | mul => exact (hf.fun_mul hg).congr_deriv (by simp [slopes, mul_comm])
  | div =>
    have hne : g s ≠ 0 := h
    exact (hf.fun_div hg h).congr_deriv (by simp only [slopes]; field_simp; ring)
  | min =>
    rcases lt_or_gt_of_ne h with hlt | hgt
    · exact (hasDerivAt_min hlt hf hg).congr_deriv (by simp [slopes, hlt])
    · have := hasDerivAt_min hgt hg hf
      simp only [min_comm (g _)] at this
      exact this.congr_deriv (by simp [slopes, not_lt.2 hgt.le])
  | max =>
    rcases lt_or_gt_of_ne h with hlt | hgt
    · exact (hasDerivAt_max hlt hf hg).congr_deriv (by simp [slopes, not_lt.2 hlt.le])
    · have := hasDerivAt_max hgt hg hf
      simp only [max_comm (g _)] at this
      exact this.congr_deriv (by simp [slopes, hgt])
  | mod | atan2 | compare | and | or => cases ho

end BinaryOp

/-! ## The rules -/

namespace Grad

variable {v w : ℝ}

theorem derive_congr {fn gn : ℝ → ℝ} (hv : v = w) (hfn : ∀ d, fn d = gn d) (a : Grad ℝ) :
    derive v fn a = derive w gn a := by
  rw [hv, funext hfn]

theorem derive₂_congr {fn gn : ℝ → ℝ → ℝ} (hv : v = w) (hfn : ∀ d e, fn d e = gn d e)
    (a b : Grad ℝ) : derive₂ v fn a b = derive₂ w gn a b := by
  rw [hv, funext fun d => funext (hfn d)]

theorem scale_eq {k m : ℝ} (hv : v = w) (hk : k = m) (a : Grad ℝ) :
    a.scale v k = derive w (· * m) a :=
  derive_congr hv (fun d => by rw [real_mul, hk]) a

theorem analytic_eq {fn slope : ℝ → ℝ} {m : ℝ} (a : Grad ℝ) (hv : fn a.v = w)
    (hk : slope a.v = m) : a.analytic fn slope = derive w (· * m) a :=
  scale_eq hv hk a

/-- Over the reals, every rule for one operand scales derivatives by the
slope. -/
theorem unary_eq {u : UnaryOp} (hu : u.hasSlope = true) (a : Grad ℝ) :
    Grad.unary u a = derive (u.exact a.v) (· * u.slope a.v) a := by
  unfold Grad.unary
  cases u with
  | neg => exact derive_congr rfl (fun d => by simp [UnaryOp.slope]) a
  | abs =>
    simp only [real_lt, real_ofInt, Int.cast_zero, decide_eq_true_eq]
    split
    next hneg =>
      exact derive_congr (abs_of_neg hneg).symm (fun d => by simp [UnaryOp.slope, hneg]) a
    next hneg =>
      have hself : a = derive a.v id a := rfl
      exact hself.trans <| derive_congr (abs_of_nonneg (not_lt.1 hneg)).symm
        (fun d => by simp [UnaryOp.slope, hneg]) a
  | recip => exact derive_congr (by simp [UnaryOp.exact]) (fun d => by simp [UnaryOp.slope]; ring) a
  | sqrt => exact derive_congr (by rfl) (fun d => by simp [UnaryOp.slope]; ring) a
  | square => exact scale_eq (sq a.v).symm (two_mul a.v).symm a
  | sin | cos | exp => exact analytic_eq a rfl rfl
  | tan => exact analytic_eq a rfl (by simp [tanSlope, UnaryOp.slope, sq])
  | asin => exact analytic_eq a rfl (by simp [asinSlope, UnaryOp.slope, sq])
  | acos => exact analytic_eq a rfl (by simp [acosSlope, UnaryOp.slope, sq, neg_div])
  | atan => exact analytic_eq a rfl (by simp [atanSlope, UnaryOp.slope, sq])
  | ln => exact scale_eq rfl (by simp [UnaryOp.slope]) a
  | floor | ceil | round | not => cases hu

/-- Over the reals, every rule for two operands adds derivatives by the
slopes. -/
theorem binary_eq {o : BinaryOp} (ho : o.hasSlope = true) (a b : Grad ℝ)
    (h : o.Regular a.v b.v) :
    Grad.binary o a b = derive₂ (o.exact a.v b.v)
      (fun d e => d * (o.slopes a.v b.v).1 + e * (o.slopes a.v b.v).2) a b := by
  have hleft : a = derive₂ a.v (fun d _ => d) a b := rfl
  have hright : b = derive₂ b.v (fun _ e => e) a b := rfl
  unfold Grad.binary
  cases o with
  | add => exact derive₂_congr rfl (fun d e => by simp [BinaryOp.slopes]) a b
  | sub => exact derive₂_congr rfl (fun d e => by simp [BinaryOp.slopes, sub_eq_add_neg]) a b
  | mul => exact derive₂_congr rfl (fun d e => by simp [BinaryOp.slopes, mul_comm]) a b
  | div =>
    have hne : b.v ≠ 0 := h
    exact derive₂_congr rfl (fun d e => by simp [BinaryOp.slopes]; field_simp; ring) a b
  | min =>
    simp only [Grad.min, real_isNaN, Bool.or_false, Bool.false_eq_true, if_false, real_lt,
      decide_eq_true_eq]
    split
    next hlt =>
      exact hleft.trans <| derive₂_congr (min_eq_left hlt.le).symm
        (fun d e => by simp [BinaryOp.slopes, hlt]) a b
    next hlt =>
      exact hright.trans <| derive₂_congr (min_eq_right (not_lt.1 hlt)).symm
        (fun d e => by simp [BinaryOp.slopes, hlt]) a b
  | max =>
    simp only [Grad.max, real_isNaN, Bool.or_false, Bool.false_eq_true, if_false, real_lt,
      decide_eq_true_eq]
    split
    next hlt =>
      exact hleft.trans <| derive₂_congr (max_eq_left hlt.le).symm
        (fun d e => by simp [BinaryOp.slopes, hlt]) a b
    next hlt =>
      exact hright.trans <| derive₂_congr (max_eq_right (not_lt.1 hlt)).symm
        (fun d e => by simp [BinaryOp.slopes, hlt]) a b
  | mod | atan2 | compare | and | or => cases ho

end Grad

end ScalarField
