/-
Points and lanes: code that computes an operator on every lane it covers.

The templates of the two modes are one template at different forms, with
constants that hold the sign bit, all other bits and the number one in every
lane.
-/
import ScalarField.Code.Template.Lanes
import ScalarField.Code.Template.Point
import ScalarField.Proofs.Machine.Sequence

namespace ScalarField

/-! ## Payloads -/

namespace Form

instance (φ : Form) : φ.format.HasNaN := by
  cases φ <;> infer_instance

theorem ones_isNaN (φ : Form) : (Binary.ones : Binary φ.format).isNaN = true := by
  cases φ <;> decide +kernel

/-- A function of the wider precision does not look at payloads if it does not
there. -/
theorem same_via (φ : Form) {fn : Binary64 → Binary64} (hfn : ∀ x y, x.Same y → (fn x).Same (fn y))
    {x y : Binary φ.format} (h : x.Same y) : (Scalar.via fn x).Same (Scalar.via fn y) := by
  cases φ with
  | ps | ss => exact (hfn _ _ h.convert).convert
  | pd | sd => exact hfn _ _ h

end Form

namespace Template

/-! ## The common template -/

/-- Constants for the lanes of a form. -/
structure LaneConstants (φ : Form) where
  signs : Vec128
  magnitudes : Vec128
  ones : Vec128
  lane_signs : ∀ i < φ.format.lanes, signs.lane φ.format i = Binary.zero.neg
  lane_magnitudes : ∀ i < φ.format.lanes, magnitudes.lane φ.format i = .positiveOnes
  lane_ones : ∀ i < φ.format.lanes, ones.lane φ.format i = .one

/-- The code of an operator that acts on each lane for itself. -/
def lanewise (φ : Form) (k : LaneConstants φ) (l : Level) (op : UnaryOp) (d a : Xmm) :
    Option (List Insn) :=
  match op with
  | .neg => some [.movaps d a, .bitMem φ.packed BitCode.xor d (.const k.signs)]
  | .abs => some [.movaps d a, .bitMem φ.packed BitCode.and d (.const k.magnitudes)]
  | .recip => some [.load φ d (.const k.ones), .arith φ ArithCode.div d a]
  | .sqrt => some [.arith φ ArithCode.sqrt d a]
  | .square => some (binop φ ArithCode.mul d a a)
  | .floor => rounding φ Rounding.floor l d a
  | .ceil => rounding φ Rounding.ceil l d a
  | .round => rounding φ Rounding.nearest l d a
  | _ => none

/-- The code of an operator of two operands that acts on each lane for
itself. -/
def lanewise₂ (φ : Form) (op : BinaryOp) (d a b : Xmm) : Option (List Insn) :=
  match op with
  | .add => some (binop φ ArithCode.add d a b)
  | .sub => some (binop φ ArithCode.sub d a b)
  | .mul => some (binop φ ArithCode.mul d a b)
  | .div => some (binop φ ArithCode.div d a b)
  | .min => some (extreme φ ArithCode.min d a b)
  | .max => some (extreme φ ArithCode.max d a b)
  | _ => none

variable {c : Cpu} {r : Xmm → Vec128} {d a b : Xmm} {φ : Form} {code : List Insn}

theorem lane_apply_of_covers {g : Binary φ.format → Binary φ.format → Binary φ.format} {i : Nat}
    (hi : i < φ.format.lanes) (hc : φ.covers i = true) (x y : Vec128) :
    (φ.apply g x y).lane φ.format i = g (x.lane φ.format i) (y.lane φ.format i) := by
  rw [Form.lane_apply φ g x y hi, if_pos hc]

theorem lanewise_confined {k : LaneConstants φ} {l : Level} {u : UnaryOp}
    (h : lanewise φ k l u d a = some code) : Confined d code := by
  cases u with
  | floor | ceil | round =>
    rw [rounding_eq h]
    simp [Confined, Insn.target?]
  | neg | abs | recip | sqrt | square =>
    cases h
    simp [Confined, binop, Insn.target?]
  | _ => cases h

theorem lanewise₂_confined {o : BinaryOp} (h : lanewise₂ φ o d a b = some code) :
    Confined d code := by
  cases o with
  | add | sub | mul | div | min | max =>
    cases h
    simp [Confined, extreme, binop, Insn.target?]
  | _ => cases h

/-! ## Lanes of shared sequences -/

theorem binop_lanes {op : UInt8} {g g' : Binary φ.format → Binary φ.format → Binary φ.format}
    (hg : (c.arith φ).arith? op = some g) (hdb : d ≠ b)
    (hsame : ∀ {x y v w}, x.Same v → y.Same w → (g x y).Same (g' v w)) :
    ∃ r', c.vectors r (binop φ op d a b) = some r' ∧
      ∀ i < φ.format.lanes, φ.covers i = true → ∀ v w, ((r a).lane φ.format i).Same v →
        ((r b).lane φ.format i).Same w → ((r' d).lane φ.format i).Same (g' v w) := by
  refine ⟨_, vectors_binop hg hdb, fun i hi hc v w hv hw => ?_⟩
  rw [Function.update_self, lane_apply_of_covers hi hc]
  exact hsame hv hw

/-- The lesser or greater of two acts on the covered lanes, with a NaN where one
of them is none. -/
theorem extreme_lanes {op : UInt8} {g : Binary φ.format → Binary φ.format → Binary φ.format}
    (hg : (c.arith φ).arith? op = some g) (h : Apart d a b)
    (hsame : ∀ {x y v w}, x.Same v → y.Same w → (g x y).Same (g v w)) :
    ∃ r', c.vectors r (extreme φ op d a b) = some r' ∧
      ∀ i < φ.format.lanes, φ.covers i = true → ∀ v w, ((r a).lane φ.format i).Same v →
        ((r b).lane φ.format i).Same w → ((r' d).lane φ.format i).Same
          (if (v.isNaN || w.isNaN) = true then .nan else g v w) := by
  obtain ⟨r', hr', hlane⟩ := vectors_extreme (r := r) hg h
  refine ⟨r', hr', fun i hi hc v w hv hw => ?_⟩
  rw [hlane i hi hc, hv.isNaN, hw.isNaN]
  split
  · exact .of_isNaN φ.ones_isNaN Format.HasNaN.nan_isNaN
  · exact hsame hv hw

theorem rounding_lanes {mode : UInt8} {u : UnaryOp} {l : Level} {fn : Binary64 → Binary64}
    (h : rounding φ mode l d a = some code) (hu : Rounding.op? mode = some u)
    (hfn : ∀ v : Binary φ.format, Scalar.unary u v = Scalar.via fn v)
    (hsame : ∀ x y, x.Same y → (fn x).Same (fn y)) :
    ∃ r', c.vectors r code = some r' ∧
      ∀ i < φ.format.lanes, φ.covers i = true → ∀ v, ((r a).lane φ.format i).Same v →
        ((r' d).lane φ.format i).Same (Scalar.unary u v) := by
  rw [rounding_eq h]
  refine ⟨_, by simp [Cpu.vectors, Cpu.vector?, hu]; rfl, fun i hi hc v hv => ?_⟩
  rw [Function.update_self, lane_apply_of_covers hi hc, hfn]
  have hunit := (c.arith φ).unary_same u ((r a).lane φ.format i)
  rw [hfn] at hunit
  exact hunit.trans (φ.same_via hsame hv)

/-! ## Lanes of operators -/

/-- Every covered lane of the result is the operator on that lane. -/
theorem vectors_lanewise {k : LaneConstants φ} {l : Level} {u : UnaryOp}
    (h : lanewise φ k l u d a = some code) (ha : Apart d a a) :
    ∃ r', c.vectors r code = some r' ∧
      ∀ i < φ.format.lanes, φ.covers i = true → ∀ v, ((r a).lane φ.format i).Same v →
        ((r' d).lane φ.format i).Same (Scalar.unary u v) := by
  cases u with
  | neg =>
    cases h
    refine ⟨_, by simp [Cpu.vectors, Cpu.vector?]; rfl, fun i hi hc v hv => ?_⟩
    simp only [Function.update_self, Vec128.lane_xor, k.lane_signs i hi, Binary.bitXor_neg_zero]
    exact hv.neg
  | abs =>
    cases h
    refine ⟨_, by simp [Cpu.vectors, Cpu.vector?]; rfl, fun i hi hc v hv => ?_⟩
    simp only [Function.update_self, Vec128.lane_and, k.lane_magnitudes i hi,
      Binary.bitAnd_positiveOnes]
    exact hv.abs
  | recip =>
    cases h
    refine ⟨_, by simp [Cpu.vectors, Cpu.vector?, ha.left.symm]; rfl, fun i hi hc v hv => ?_⟩
    rw [Function.update_self, lane_apply_of_covers hi hc, Vec128.lane_moved hc, k.lane_ones i hi]
    exact (c.arith φ).div_same (.refl _) hv
  | sqrt =>
    cases h
    refine ⟨_, by simp [Cpu.vectors, Cpu.vector?]; rfl, fun i hi hc v hv => ?_⟩
    rw [Function.update_self, lane_apply_of_covers hi hc]
    exact ((c.arith φ).unary_same .sqrt _).trans (φ.same_via (fun _ _ h => h.sqrt) hv)
  | square =>
    cases h
    obtain ⟨r', hr', hlane⟩ := binop_lanes (r := r) (FloatUnit.arith?_mul (c.arith φ)) ha.right
      (FloatUnit.mul_same _)
    exact ⟨r', hr', fun i hi hc v hv => hlane i hi hc v v hv hv⟩
  | floor => exact rounding_lanes h rfl (fun _ => rfl) fun _ _ h => h.floor
  | ceil => exact rounding_lanes h rfl (fun _ => rfl) fun _ _ h => h.ceil
  | round => exact rounding_lanes h rfl (fun _ => rfl) fun _ _ h => h.roundEven
  | _ => cases h

theorem vectors_lanewise₂ {o : BinaryOp} (h : lanewise₂ φ o d a b = some code)
    (hab : Apart d a b) :
    ∃ r', c.vectors r code = some r' ∧
      ∀ i < φ.format.lanes, φ.covers i = true → ∀ v w, ((r a).lane φ.format i).Same v →
        ((r b).lane φ.format i).Same w → ((r' d).lane φ.format i).Same (Scalar.binary o v w) := by
  have hdb := hab.right
  cases o with
  | add => cases h; exact binop_lanes (FloatUnit.arith?_add _) hdb (FloatUnit.add_same _)
  | sub => cases h; exact binop_lanes (FloatUnit.arith?_sub _) hdb (FloatUnit.sub_same _)
  | mul => cases h; exact binop_lanes (FloatUnit.arith?_mul _) hdb (FloatUnit.mul_same _)
  | div => cases h; exact binop_lanes (FloatUnit.arith?_div _) hdb (FloatUnit.div_same _)
  | min => cases h; exact extreme_lanes (FloatUnit.arith?_min _) hab Binary.Same.lesser
  | max => cases h; exact extreme_lanes (FloatUnit.arith?_max _) hab Binary.Same.greater
  | _ => cases h

/-! ## One double -/

/-- The value is in the lowest lane; the other lane does not matter. -/
def HoldsPoint (x : Vec128) (v : Binary64) : Prop := (x.lane .binary64 0).Same v

def LaneConstants.point : LaneConstants .sd where
  signs := .ofQuads 0x8000000000000000 0x8000000000000000
  magnitudes := .ofQuads 0x7FFFFFFFFFFFFFFF 0x7FFFFFFFFFFFFFFF
  ones := .ofQuads (.ofNat 64 (.one : Binary64).bits) (.ofNat 64 (.one : Binary64).bits)
  lane_signs := by decide +kernel
  lane_magnitudes := by decide +kernel
  lane_ones := by decide +kernel

theorem point_unary_eq (l : Level) (u : UnaryOp) (d a : Xmm) :
    point.unary l u d a = lanewise .sd .point l u d a := by
  cases u <;> rfl

theorem point_binary_eq (pos : Nat) (o : BinaryOp) (d a b : Xmm) :
    point.binary pos o d a b = lanewise₂ .sd o d a b := by
  cases o <;> rfl

theorem point_computes (c : Cpu) : point.Computes c .point HoldsPoint where
  moved := by
    intro x v h
    simpa [HoldsPoint, point] using h
  const r d v := ⟨_, by simp [point, doubles, Cpu.vectors, Cpu.vector?]; rfl, by
    simp [HoldsPoint, Interp.point, Binary.Same.refl]⟩
  unary {_ _ _ _ _} h ha {r v} hv := by
    rw [point_unary_eq] at h
    obtain ⟨r', hr', hlane⟩ := vectors_lanewise h ha (c := c) (r := r)
    exact ⟨r', hr', hlane 0 (by decide) rfl v hv, (lanewise_confined h).frame hr'⟩
  binary {_ _ _ _ _ _} h hab {s v w} hv hw := by
    rw [point_binary_eq] at h
    obtain ⟨r', hr', hlane⟩ := vectors_lanewise₂ h hab (c := c) (r := s.xmm)
    exact ⟨_, Cpu.execAll_of_vectors hr', hlane 0 (by decide) rfl v w hv hw,
      (lanewise₂_confined h).frame hr', fun _ _ _ => rfl, rfl⟩

/-! ## Four singles -/

/-- Every lane of a value is in the lane of the register. -/
def HoldsLanes (x : Vec128) (v : Lanes) : Prop := ∀ i (hi : i < 4), (x.lane .binary32 i).Same v[i]

def LaneConstants.simd4 : LaneConstants .ps where
  signs := .ofWords 0x80000000 0x80000000 0x80000000 0x80000000
  magnitudes := .ofWords 0x7FFFFFFF 0x7FFFFFFF 0x7FFFFFFF 0x7FFFFFFF
  ones := .ofWords (.ofNat 32 (.one : Binary32).bits) (.ofNat 32 (.one : Binary32).bits)
    (.ofNat 32 (.one : Binary32).bits) (.ofNat 32 (.one : Binary32).bits)
  lane_signs := by decide +kernel
  lane_magnitudes := by decide +kernel
  lane_ones := by decide +kernel

theorem simd4_unary_eq (l : Level) (u : UnaryOp) (d a : Xmm) :
    simd4.unary l u d a = lanewise .ps .simd4 l u d a := by
  cases u <;> rfl

theorem simd4_binary_eq (pos : Nat) (o : BinaryOp) (d a b : Xmm) :
    simd4.binary pos o d a b = lanewise₂ .ps o d a b := by
  cases o <;> rfl

theorem simd4_computes (c : Cpu) : simd4.Computes c .simd4 HoldsLanes where
  moved := by
    intro x v h
    simpa [simd4] using h
  const r d v := ⟨_, by simp [simd4, allSingles, singles, Cpu.vectors, Cpu.vector?]; rfl, by
    intro i hi
    have : i = 0 ∨ i = 1 ∨ i = 2 ∨ i = 3 := by omega
    rcases this with rfl | rfl | rfl | rfl <;>
      simp [Interp.simd4, Lanes.splat, Binary.Same.refl]⟩
  unary {_ _ _ _ _} h ha {r v} hv := by
    rw [simd4_unary_eq] at h
    obtain ⟨r', hr', hlane⟩ := vectors_lanewise h ha (c := c) (r := r)
    refine ⟨r', hr', fun i hi => ?_, (lanewise_confined h).frame hr'⟩
    simpa [Interp.simd4, Lanes.unary] using hlane i hi rfl v[i] (hv i hi)
  binary {_ _ _ _ _ _} h hab {s v w} hv hw := by
    rw [simd4_binary_eq] at h
    obtain ⟨r', hr', hlane⟩ := vectors_lanewise₂ h hab (c := c) (r := s.xmm)
    refine ⟨_, Cpu.execAll_of_vectors hr', fun i hi => ?_,
      (lanewise₂_confined h).frame hr', fun _ _ _ => rfl, rfl⟩
    simpa [Interp.simd4, Lanes.binary] using hlane i hi rfl v[i] w[i] (hv i hi) (hw i hi)

end Template

end ScalarField
