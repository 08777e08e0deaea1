/-
Gradients: code that computes a value in the lowest lane and its derivatives
above it.

Most rules act on each derivative for itself, with the value of an operand
broadcast to all lanes, and put the value of the result into the lowest lane
last. So each is read off as one formula for the lanes, with an exception for
the lowest one.
-/
import ScalarField.Code.Template.Grad
import ScalarField.Proofs.Machine.Lanewise

namespace ScalarField

namespace Template

/-- The value is in the lowest lane, the derivatives are in the others. -/
structure HoldsGrad (x : Vec128) (g : Grad Binary32) : Prop where
  v : (x.lane .binary32 0).Same g.v
  dx : (x.lane .binary32 1).Same g.dx
  dy : (x.lane .binary32 2).Same g.dy
  dz : (x.lane .binary32 3).Same g.dz

variable {x y z : Vec128} {g g' : Grad Binary32}

theorem HoldsGrad.derive₂ (hx : HoldsGrad x g) (hy : HoldsGrad y g') {v : Binary32}
    {fn : Binary32 → Binary32 → Binary32} (hv : (z.lane .binary32 0).Same v)
    (hz : ∀ i < 4, i ≠ 0 → ∀ p q, (x.lane .binary32 i).Same p → (y.lane .binary32 i).Same q →
      (z.lane .binary32 i).Same (fn p q)) :
    HoldsGrad z (Grad.derive₂ v fn g g') :=
  ⟨hv, hz 1 (by decide) (by decide) _ _ hx.dx hy.dx, hz 2 (by decide) (by decide) _ _ hx.dy hy.dy,
    hz 3 (by decide) (by decide) _ _ hx.dz hy.dz⟩

theorem HoldsGrad.derive (hx : HoldsGrad x g) {v : Binary32} {fn : Binary32 → Binary32}
    (hv : (z.lane .binary32 0).Same v)
    (hz : ∀ i < 4, i ≠ 0 → ∀ p, (x.lane .binary32 i).Same p → (z.lane .binary32 i).Same (fn p)) :
    HoldsGrad z (Grad.derive v fn g) :=
  ⟨hv, hz 1 (by decide) (by decide) _ hx.dx, hz 2 (by decide) (by decide) _ hx.dy,
    hz 3 (by decide) (by decide) _ hx.dz⟩

theorem ofInt_zero : (Binary.ofInt 0 : Binary32) = .zero := by decide +kernel

namespace Derivatives

variable {c : Cpu} {r : Xmm → Vec128} {d a b : Xmm} {code : List Insn}

theorem signs32_eq : signs32 = .const LaneConstants.simd4.signs := rfl

@[simp]
theorem lane_signs {i : Nat} (hi : i < 4) :
    LaneConstants.simd4.signs.lane .binary32 i = Binary.zero.neg :=
  LaneConstants.simd4.lane_signs i hi

/-- The sign of every lane changes if the value is negative. -/
theorem vectors_abs (h : Apart d a a) (hg : HoldsGrad (r a) g) :
    ∃ r', c.vectors r (abs d a) = some r' ∧ HoldsGrad (r' d) (Grad.unary .abs g) := by
  obtain ⟨r', hr', hlane⟩ : ∃ r', c.vectors r (abs d a) = some r' ∧
      ∀ i < 4, (r' d).lane .binary32 i =
        if ((r a).lane .binary32 0).lt .zero = true then ((r a).lane .binary32 i).neg
        else (r a).lane .binary32 i := by
    refine ⟨_, by
      simp [abs, broadcast, signs32_eq, Cpu.vectors, Cpu.vector?, h.ne, Form.shuffle?]
      rfl, fun i hi => ?_⟩
    cases hlt : ((r a).lane .binary32 0).lt .zero <;> simp [hi, hlt, Binary.bitXor_zero]
  refine ⟨r', hr', ?_⟩
  rw [hg.v.lt (.refl .zero)] at hlane
  have habs : Grad.unary .abs g = if g.v.lt .zero then g.neg else g := by
    simp [Grad.unary, Arith.lt, Arith.ofInt, ofInt_zero]
  rw [habs]
  split
  · rename_i hlt
    simp only [hlt, if_true] at hlane
    exact ⟨hlane 0 (by decide) ▸ hg.v.neg, hlane 1 (by decide) ▸ hg.dx.neg,
      hlane 2 (by decide) ▸ hg.dy.neg, hlane 3 (by decide) ▸ hg.dz.neg⟩
  · rename_i hlt
    simp only [hlt] at hlane
    exact ⟨hlane 0 (by decide) ▸ hg.v, hlane 1 (by decide) ▸ hg.dx,
      hlane 2 (by decide) ▸ hg.dy, hlane 3 (by decide) ▸ hg.dz⟩

theorem vectors_mul (h : Apart d a b) (hg : HoldsGrad (r a) g) (hg' : HoldsGrad (r b) g') :
    ∃ r', c.vectors r (mul d a b) = some r' ∧ HoldsGrad (r' d) (g.mul g') := by
  have hmul := @(c.arith .ps).mul_same
  refine ⟨_, by
    simp [mul, products, broadcast, binop, Cpu.vectors, Cpu.vector?, h.ne, Form.shuffle?]
    rfl, hg.derive₂ hg' ?_ fun i hi h0 p q hp hq => ?_⟩
  · simpa [Arith.mul] using (c.arith .ss).mul_same hg.v hg'.v
  · simpa [hi, h0, Arith.add, Arith.mul] using
      (c.arith .ps).add_same (hmul hp hg'.v) (hmul hg.v hq)

theorem vectors_div (h : Apart d a b) (hg : HoldsGrad (r a) g) (hg' : HoldsGrad (r b) g') :
    ∃ r', c.vectors r (div d a b) = some r' ∧ HoldsGrad (r' d) (g.div g') := by
  have hmul := @(c.arith .ps).mul_same
  refine ⟨_, by
    simp [div, products, broadcast, binop, Cpu.vectors, Cpu.vector?, h.ne, Form.shuffle?]
    rfl, hg.derive₂ hg' ?_ fun i hi h0 p q hp hq => ?_⟩
  · simpa [Arith.div] using (c.arith .ss).div_same hg.v hg'.v
  · simpa [hi, h0, Arith.div, Arith.sub, Arith.mul] using (c.arith .ps).div_same
      ((c.arith .ps).sub_same (hmul hp hg'.v) (hmul hg.v hq)) (hmul hg'.v hg'.v)

theorem vectors_recip (h : Apart d a a) (hg : HoldsGrad (r a) g) :
    ∃ r', c.vectors r (recip d a) = some r' ∧ HoldsGrad (r' d) (Grad.unary .recip g) := by
  refine ⟨_, by
    simp [recip, broadcast, signs32_eq, singles, Cpu.vectors, Cpu.vector?, h.ne, Form.shuffle?]
    rfl, ?_⟩
  rw [Grad.unary]
  refine hg.derive ?_ fun i hi h0 p hp => ?_
  · simpa [Arith.div, Arith.ofInt, Binary.one] using (c.arith .ss).div_same (.refl .one) hg.v
  · simpa [hi, h0, Arith.div, Arith.mul, Arith.neg] using
      (c.arith .ps).div_same hp.neg ((c.arith .ps).mul_same hg.v hg.v)

theorem root_same {p q : Binary32} (hp : p.Same q) :
    ((c.arith .ss).unary .sqrt p).Same (Scalar.via Analytic.sqrt q) :=
  ((c.arith .ss).unary_same .sqrt p).trans (Form.ss.same_via (fun _ _ h => h.sqrt) hp)

theorem vectors_sqrt (h : Apart d a a) (hg : HoldsGrad (r a) g) :
    ∃ r', c.vectors r (sqrt d a) = some r' ∧ HoldsGrad (r' d) (Grad.unary .sqrt g) := by
  have hroot := root_same (c := c) hg.v
  refine ⟨_, by
    simp [sqrt, broadcast, binop, Cpu.vectors, Cpu.vector?, h.ne, Form.shuffle?]
    rfl, ?_⟩
  rw [Grad.unary]
  refine hg.derive ?_ fun i hi h0 p hp => ?_
  · simpa using hroot
  · simpa [hi, h0, Arith.div, Arith.add] using
      (c.arith .ps).div_same hp ((c.arith .ps).add_same hroot hroot)

theorem vectors_square (h : Apart d a a) (hg : HoldsGrad (r a) g) :
    ∃ r', c.vectors r (square d a) = some r' ∧ HoldsGrad (r' d) (Grad.unary .square g) := by
  refine ⟨_, by
    simp [square, broadcast, binop, Cpu.vectors, Cpu.vector?, h.ne, Form.shuffle?]
    rfl, ?_⟩
  rw [Grad.unary]
  refine hg.derive ?_ fun i hi h0 p hp => ?_
  · simpa [Arith.mul] using (c.arith .ss).mul_same hg.v hg.v
  · simpa [hi, h0, Arith.mul, Arith.add] using
      (c.arith .ps).mul_same hp ((c.arith .ps).add_same hg.v hg.v)

theorem lane_lowest_mask {i : Nat} (hi : i < 4) :
    (Vec128.ofWords (.allOnes 32) 0 0 0).lane .binary32 i = if i = 0 then .ones else .zero := by
  have : i = 0 ∨ i = 1 ∨ i = 2 ∨ i = 3 := by omega
  rcases this with rfl | rfl | rfl | rfl <;> decide +kernel

theorem step_eq {mode : UInt8} {l : Level} (h : step mode l d a = some code) :
    code = [.round .ss mode d a,
      .bitMem .ps BitCode.and d (.const (.ofWords (.allOnes 32) 0 0 0))] := by
  obtain ⟨rounded, hr, rfl⟩ := Option.map_eq_some_iff.1 h
  rw [rounding_eq hr]
  rfl

/-- A value that is rounded, with derivatives that vanish. -/
theorem vectors_step {mode : UInt8} {l : Level} {u : UnaryOp} {fn : Binary64 → Binary64}
    (h : step mode l d a = some code) (hu : Rounding.op? mode = some u)
    (hfn : ∀ v : Binary32, Scalar.unary u v = Scalar.via fn v)
    (hsame : ∀ x y, x.Same y → (fn x).Same (fn y)) (hg : HoldsGrad (r a) g) :
    ∃ r', c.vectors r code = some r' ∧ HoldsGrad (r' d) (Grad.const (Scalar.via fn g.v)) := by
  obtain ⟨rounded, hround, rfl⟩ := Option.map_eq_some_iff.1 h
  obtain ⟨r₁, hr₁, hlane⟩ := rounding_lanes (c := c) (r := r) hround hu hfn hsame
  have hv := hlane 0 (by decide) rfl _ hg.v
  rw [hfn] at hv
  have hmasked : ∀ i < 4, (r₁ d &&& Vec128.ofWords (.allOnes 32) 0 0 0).lane .binary32 i =
      if i = 0 then (r₁ d).lane .binary32 0 else .zero := fun i hi => by
    rw [Vec128.lane_and, lane_lowest_mask hi]
    split <;> simp [*]
  have hzero : ∀ p : Binary32, p = .zero → p.Same (Arith.ofInt 0) := fun p hp => by
    rw [hp]
    exact .inl ofInt_zero.symm
  refine ⟨Function.update r₁ d (r₁ d &&& Vec128.ofWords (.allOnes 32) 0 0 0), ?_, ?_⟩
  · rw [Cpu.vectors_append hr₁]
    rfl
  · rw [Function.update_self]
    exact ⟨hmasked 0 (by decide) ▸ hv, hzero _ (hmasked 1 (by decide)),
      hzero _ (hmasked 2 (by decide)), hzero _ (hmasked 3 (by decide))⟩

/-- The derivatives of the operand with the lesser or greater value. -/
theorem vectors_select {p : Bool} {x y : Xmm} (h : Apart d a b)
    (hxy : x = .tmp0 ∧ y = .tmp1 ∧ p = ((r a).lane .binary32 0).lt ((r b).lane .binary32 0) ∨
      x = .tmp1 ∧ y = .tmp0 ∧ p = ((r b).lane .binary32 0).lt ((r a).lane .binary32 0)) :
    ∃ r', c.vectors r (select x y d a b) = some r' ∧ ∀ i < 4, (r' d).lane .binary32 i =
      if (((r a).lane .binary32 0).isNaN || ((r b).lane .binary32 0).isNaN) = true then .ones
      else if p = true then (r a).lane .binary32 i else (r b).lane .binary32 i := by
  rcases hxy with ⟨rfl, rfl, rfl⟩ | ⟨rfl, rfl, rfl⟩
  · refine ⟨_, by
      simp [select, broadcast, Cpu.vectors, Cpu.vector?, h.ne, Form.shuffle?]
      rfl, fun i hi => ?_⟩
    cases hlt : ((r a).lane .binary32 0).lt ((r b).lane .binary32 0) <;> simp [hi, hlt]
  · refine ⟨_, by
      simp [select, broadcast, Cpu.vectors, Cpu.vector?, h.ne, Form.shuffle?]
      rfl, fun i hi => ?_⟩
    cases hlt : ((r b).lane .binary32 0).lt ((r a).lane .binary32 0) <;> simp [hi, hlt]

theorem holdsGrad_ite {p n : Bool} (hg : HoldsGrad x g) (hg' : HoldsGrad y g')
    (hz : ∀ i < 4, z.lane .binary32 i =
      if n = true then .ones else if p = true then x.lane .binary32 i else y.lane .binary32 i) :
    HoldsGrad z (if n = true then .nan else if p = true then g else g') := by
  have h0 := hz 0 (by decide)
  have h1 := hz 1 (by decide)
  have h2 := hz 2 (by decide)
  have h3 := hz 3 (by decide)
  have hnan : (Binary.ones : Binary32).Same Binary.nan :=
    .of_isNaN (Form.ones_isNaN .ps) Format.HasNaN.nan_isNaN
  cases n with
  | true => exact ⟨h0 ▸ hnan, h1 ▸ hnan, h2 ▸ hnan, h3 ▸ hnan⟩
  | false =>
    cases p with
    | true => exact ⟨h0 ▸ hg.v, h1 ▸ hg.dx, h2 ▸ hg.dy, h3 ▸ hg.dz⟩
    | false => exact ⟨h0 ▸ hg'.v, h1 ▸ hg'.dx, h2 ▸ hg'.dy, h3 ▸ hg'.dz⟩

theorem vectors_min (h : Apart d a b) (hg : HoldsGrad (r a) g) (hg' : HoldsGrad (r b) g') :
    ∃ r', c.vectors r (select .tmp0 .tmp1 d a b) = some r' ∧ HoldsGrad (r' d) (g.min g') := by
  obtain ⟨r', hr', hlane⟩ := vectors_select (c := c) h (.inl ⟨rfl, rfl, rfl⟩)
  rw [hg.v.isNaN, hg'.v.isNaN, hg.v.lt hg'.v] at hlane
  exact ⟨r', hr', holdsGrad_ite hg hg' hlane⟩

theorem vectors_max (h : Apart d a b) (hg : HoldsGrad (r a) g) (hg' : HoldsGrad (r b) g') :
    ∃ r', c.vectors r (select .tmp1 .tmp0 d a b) = some r' ∧ HoldsGrad (r' d) (g.max g') := by
  obtain ⟨r', hr', hlane⟩ := vectors_select (c := c) h (.inr ⟨rfl, rfl, rfl⟩)
  rw [hg.v.isNaN, hg'.v.isNaN, hg'.v.lt hg.v] at hlane
  exact ⟨r', hr', holdsGrad_ite hg hg' hlane⟩

/-! ## The template -/

theorem unary_confined {l : Level} {u : UnaryOp} (h : unary l u d a = some code) :
    Confined d code := by
  cases u with
  | floor | ceil | round =>
    rw [step_eq h]
    simp [Confined, Insn.target?]
  | neg | abs | recip | sqrt | square =>
    cases h
    simp [Confined, abs, recip, sqrt, square, broadcast, binop, Insn.target?]
  | _ => cases h

theorem binary_confined (pos : Nat) {o : BinaryOp} (h : binary pos o d a b = some code) :
    Confined d code := by
  cases o with
  | add | sub | mul | div | min | max =>
    cases h
    simp [Confined, mul, div, products, select, broadcast, binop, Insn.target?]
  | _ => cases h

theorem vectors_unary {l : Level} {u : UnaryOp} (h : unary l u d a = some code) (ha : Apart d a a)
    (hg : HoldsGrad (r a) g) :
    ∃ r', c.vectors r code = some r' ∧ HoldsGrad (r' d) (Grad.unary u g) := by
  cases u with
  | neg =>
    obtain ⟨r', hr', hlane⟩ := vectors_lanewise (c := c) (r := r) (k := .simd4) (l := l) (u := .neg) h ha
    exact ⟨r', hr', hlane 0 (by decide) rfl _ hg.v, hlane 1 (by decide) rfl _ hg.dx,
      hlane 2 (by decide) rfl _ hg.dy, hlane 3 (by decide) rfl _ hg.dz⟩
  | abs => cases h; exact vectors_abs ha hg
  | recip => cases h; exact vectors_recip ha hg
  | sqrt => cases h; exact vectors_sqrt ha hg
  | square => cases h; exact vectors_square ha hg
  | floor => exact vectors_step h rfl (fun _ => rfl) (fun _ _ h => h.floor) hg
  | ceil => exact vectors_step h rfl (fun _ => rfl) (fun _ _ h => h.ceil) hg
  | round => exact vectors_step h rfl (fun _ => rfl) (fun _ _ h => h.roundEven) hg
  | _ => cases h

theorem vectors_binary (pos : Nat) {o : BinaryOp} (h : binary pos o d a b = some code)
    (hab : Apart d a b) (hg : HoldsGrad (r a) g) (hg' : HoldsGrad (r b) g') :
    ∃ r', c.vectors r code = some r' ∧ HoldsGrad (r' d) (Grad.binary o g g') := by
  cases o with
  | add =>
    have h' : lanewise₂ .ps .add d a b = some code := h
    obtain ⟨r', hr', hlane⟩ := vectors_lanewise₂ (c := c) (r := r) h' hab
    exact ⟨r', hr', hlane 0 (by decide) rfl _ _ hg.v hg'.v, hlane 1 (by decide) rfl _ _ hg.dx hg'.dx,
      hlane 2 (by decide) rfl _ _ hg.dy hg'.dy, hlane 3 (by decide) rfl _ _ hg.dz hg'.dz⟩
  | sub =>
    have h' : lanewise₂ .ps .sub d a b = some code := h
    obtain ⟨r', hr', hlane⟩ := vectors_lanewise₂ (c := c) (r := r) h' hab
    exact ⟨r', hr', hlane 0 (by decide) rfl _ _ hg.v hg'.v, hlane 1 (by decide) rfl _ _ hg.dx hg'.dx,
      hlane 2 (by decide) rfl _ _ hg.dy hg'.dy, hlane 3 (by decide) rfl _ _ hg.dz hg'.dz⟩
  | mul => cases h; exact vectors_mul hab hg hg'
  | div => cases h; exact vectors_div hab hg hg'
  | min => cases h; exact vectors_min hab hg hg'
  | max => cases h; exact vectors_max hab hg hg'
  | _ => cases h

end Derivatives

theorem grad_computes (c : Cpu) : grad.Computes c .grad HoldsGrad where
  moved := by
    intro x v h
    simpa [grad] using h
  const r d v := ⟨_, by simp [grad, singles, Cpu.vectors, Cpu.vector?]; rfl, by
    constructor <;> simp [Interp.grad, Interp.forward, Grad.const, Arith.ofInt, ofInt_zero,
      Binary.Same.refl]⟩
  unary {_ _ _ _ _} h ha {_ _} hv := by
    obtain ⟨r', hr', hd'⟩ := Derivatives.vectors_unary (c := c) h ha hv
    exact ⟨r', hr', hd', (Derivatives.unary_confined h).frame hr'⟩
  binary {pos _ _ _ _ _} h hab {_ _ _} hv hw := by
    obtain ⟨r', hr', hd'⟩ := Derivatives.vectors_binary (c := c) pos h hab hv hw
    exact ⟨_, Cpu.execAll_of_vectors hr', hd', (Derivatives.binary_confined pos h).frame hr',
      fun _ _ _ => rfl, rfl⟩

end Template

end ScalarField
