/-
Intervals: code that computes the bounds of a result from the bounds of its
operands, and records which operand a `min` or `max` yields.
-/
import ScalarField.Code.Template.Interval
import ScalarField.Proofs.Machine.Lanewise

namespace ScalarField

namespace Interval

/-- The same bounds, up to payloads. -/
structure Same (a b : Interval) : Prop where
  lo : a.lo.Same b.lo
  hi : a.hi.Same b.hi

variable {a b a' b' : Interval}

theorem Same.hasNaN (h : a.Same b) : a.hasNaN = b.hasNaN := by
  rw [Interval.hasNaN, Interval.hasNaN, h.lo.isNaN, h.hi.isNaN]

theorem Same.straddles (h : a.Same b) : a.straddles = b.straddles := by
  rw [Interval.straddles, Interval.straddles, h.lo.le (.refl _), (Binary.Same.refl _).le h.hi]

theorem Same.corners (h : a.Same a') (h' : b.Same b') :
    (Interval.corners a b).Same (Interval.corners a' b') := by
  unfold Interval.corners
  rw [h.hasNaN, h'.hasNaN]
  split
  · exact ⟨.refl _, .refl _⟩
  · exact ⟨(h.lo.lesser h'.lo).lesser (h.hi.lesser h'.hi),
      (h.lo.greater h'.lo).greater (h.hi.greater h'.hi)⟩

theorem Same.abs (h : a.Same b) : a.abs.Same b.abs :=
  ⟨(h.lo.greater h.hi.neg).greater (.refl _), (h.hi.greater h.lo.neg).greater (.refl _)⟩

end Interval

/-- The two doubles of a register. -/
def Vec128.bounds (x : Vec128) : Interval := ⟨x.lane .binary64 0, x.lane .binary64 1⟩

namespace Template

namespace Bounds

variable {c : Cpu} {r : Xmm → Vec128} {d a b m : Xmm} {code : List Insn}

def constants : LaneConstants .pd := { LaneConstants.point with }

theorem signs64_eq : signs64 = .const constants.signs := rfl

@[simp]
theorem lane_signs {i : Nat} (hi : i < 2) : constants.signs.lane .binary64 i = Binary.zero.neg :=
  constants.lane_signs i hi

@[simp]
theorem lane_upper :
    (Vec128.ofQuads 0#64 18446744073709551615#64).lane .binary64 0 = .zero ∧
      (Vec128.ofQuads 0#64 18446744073709551615#64).lane .binary64 1 = .ones := by
  decide +kernel

/-- Whether zero lies in the interval, as a mask. -/
theorem vectors_straddle (ha : a < .tmp0) :
    ∃ r', c.vectors r (straddle a) = some r' ∧
      (∀ i < 2, (r' .tmp0).lane .binary64 i = .mask (r a).bounds.straddles) ∧
      ∀ x, x ≠ .tmp0 → x ≠ .tmp1 → r' x = r x := by
  refine ⟨_, by
    simp [straddle, Cpu.vectors, Cpu.vector?, ne_scratch ha, scratch_ne, Form.shuffle?]
    rfl, fun i hi => ?_, fun x h0 h1 => by simp [h0, h1]⟩
  have : i = 0 ∨ i = 1 := by omega
  rcases this with rfl | rfl
  · simp [Interval.straddles, Vec128.bounds]
    rw [Bool.and_comm]
  · simp [Interval.straddles, Vec128.bounds]

/-- Everything where the mask is set, and what was there elsewhere. -/
theorem vectors_unbounded {p : Bool} (hd : d < .tmp0) (hm : m ≠ .tmp1)
    (hmask : ∀ i < 2, (r m).lane .binary64 i = .mask p) :
    ∃ r', c.vectors r (unbounded d m) = some r' ∧
      (r' d).bounds = if p then .everything else (r d).bounds := by
  refine ⟨_, by
    simp [unbounded, doubles, Cpu.vectors, Cpu.vector?, ne_scratch hd, hm, hm.symm]
    rfl, ?_⟩
  cases p <;> simp [Vec128.bounds, Interval.everything, hmask]

theorem vectors_neg :
    ∃ r', c.vectors r (neg d a) = some r' ∧
      (r' d).bounds = ⟨(r a).bounds.hi.neg, (r a).bounds.lo.neg⟩ := by
  refine ⟨_, by
    simp [neg, signs64_eq, Cpu.vectors, Cpu.vector?, Form.shuffle?]
    rfl, ?_⟩
  simp [Vec128.bounds]

theorem vectors_abs (h : Apart d a a) :
    ∃ r', c.vectors r (abs d a) = some r' ∧ (r' d).bounds = (r a).bounds.abs := by
  refine ⟨_, by
    simp [abs, signs64_eq, Cpu.vectors, Cpu.vector?, h.ne, Form.shuffle?]
    rfl, ?_⟩
  simp [Vec128.bounds, Interval.abs]

theorem vectors_sqrt (h : Apart d a a) {v : Interval} (hv : (r a).bounds.Same v) :
    ∃ r', c.vectors r (sqrt d a) = some r' ∧ (r' d).bounds.Same v.sqrt := by
  have hroot : ∀ {x y : Binary64}, x.Same y →
      ((c.arith .pd).unary .sqrt (Scalar.greater .zero x)).Same (Scalar.greater .zero y).sqrt :=
    fun h => ((c.arith .pd).unary_same .sqrt _).trans ((Binary.Same.refl _).greater h).sqrt
  obtain ⟨r', hr', hd'⟩ : ∃ r', c.vectors r (sqrt d a) = some r' ∧
      (r' d).bounds = if (r a).bounds.hi.lt .zero then ⟨.ones, .ones⟩
        else ⟨(c.arith .pd).unary .sqrt (Scalar.greater .zero (r a).bounds.lo),
          (c.arith .pd).unary .sqrt (Scalar.greater .zero (r a).bounds.hi)⟩ := by
    refine ⟨_, by
      simp [sqrt, Cpu.vectors, Cpu.vector?, h.ne, Form.shuffle?]
      rfl, ?_⟩
    cases hlt : (r a).bounds.hi.lt .zero <;> simp [Vec128.bounds] at hlt ⊢ <;> simp [hlt]
  refine ⟨r', hr', ?_⟩
  rw [hd', hv.hi.lt (.refl _), Interval.sqrt]
  split
  · exact ⟨.of_isNaN (Form.ones_isNaN .pd) Format.HasNaN.nan_isNaN,
      .of_isNaN (Form.ones_isNaN .pd) Format.HasNaN.nan_isNaN⟩
  · exact ⟨hroot hv.lo, hroot hv.hi⟩

theorem vectors_recip (h : Apart d a a) {v : Interval} (hv : (r a).bounds.Same v) :
    ∃ r', c.vectors r (recip d a) = some r' ∧ (r' d).bounds.Same v.recip := by
  have hquot : ∀ {x y : Binary64}, x.Same y →
      ((c.arith .pd).binary .div .one x).Same (Binary.one.div y) :=
    fun h => (c.arith .pd).div_same (.refl _) h
  obtain ⟨r₁, hr₁, hd₁, ha₁⟩ : ∃ r₁, c.vectors r [.load .pd d (doubles .one .one),
      .arith .pd ArithCode.div d a, .movaps .tmp0 d, .shuf .pd .tmp0 .tmp0 1, .movaps .tmp1 d,
      .arith .pd ArithCode.min .tmp1 .tmp0, .arith .pd ArithCode.max d .tmp0,
      .movLow .sd d .tmp1] = some r₁ ∧
      (r₁ d).bounds.Same ⟨Scalar.lesser (Binary.one.div v.lo) (Binary.one.div v.hi),
        Scalar.greater (Binary.one.div v.hi) (Binary.one.div v.lo)⟩ ∧ r₁ a = r a := by
    refine ⟨_, by
      simp [doubles, Cpu.vectors, Cpu.vector?, h.ne, Form.shuffle?]
      rfl, ?_, by simp [h.ne]⟩
    have hlo := hquot hv.lo
    have hhi := hquot hv.hi
    simp only [Vec128.bounds] at hlo hhi
    constructor
    · simpa [Vec128.bounds] using hlo.lesser hhi
    · simpa [Vec128.bounds] using hhi.greater hlo
  obtain ⟨r₂, hr₂, hmask, hframe⟩ := vectors_straddle (c := c) (r := r₁) h.left_lt
  obtain ⟨r', hr', hd'⟩ := vectors_unbounded (c := c) h.result_lt scratch_ne.1 hmask
  refine ⟨r', ?_, ?_⟩
  · rw [recip, List.append_assoc, Cpu.vectors_append hr₁, Cpu.vectors_append hr₂, hr']
  · rw [hd', ha₁, hv.straddles, Interval.recip, hframe d h.ne.2.1.1 h.ne.2.1.2.1]
    split
    · exact ⟨.refl _, .refl _⟩
    · exact hd₁

/-- The corners of an operation: the bounds with each other, and crosswise. -/
theorem vectors_cornerwise {op : UInt8} {g : Binary64 → Binary64 → Binary64}
    (hg : (c.arith .pd).arith? op = some g) (h : Apart d a b) {p q : Interval}
    (hp : p = ⟨g (r a).bounds.lo (r b).bounds.lo, g (r a).bounds.hi (r b).bounds.hi⟩)
    (hq : q = ⟨g (r a).bounds.lo (r b).bounds.hi, g (r a).bounds.hi (r b).bounds.lo⟩) :
    ∃ r', c.vectors r (binop .pd op d a b ++
    [.movaps .tmp0 b, .shuf .pd .tmp0 .tmp0 1, .movaps .tmp1 a, .arith .pd op .tmp1 .tmp0,
      .movaps .tmp2 d, .cmp .pd Predicate.unordered .tmp2 .tmp1, .movaps .tmp0 d,
      .arith .pd ArithCode.max .tmp0 .tmp1, .arith .pd ArithCode.min d .tmp1, .movaps .tmp1 d,
      .shuf .pd .tmp1 .tmp1 1, .arith .sd ArithCode.min d .tmp1, .movaps .tmp1 .tmp0,
      .shuf .pd .tmp1 .tmp1 1, .arith .sd ArithCode.max .tmp0 .tmp1, .unpackLow d .tmp0,
      .movaps .tmp1 .tmp2, .shuf .pd .tmp1 .tmp1 1, .bit .pd BitCode.or .tmp2 .tmp1]) = some r' ∧
      (∀ i < 2, (r' .tmp2).lane .binary64 i = .mask (p.hasNaN || q.hasNaN)) ∧
      ((p.hasNaN || q.hasNaN) = false → (r' d).bounds = p.corners q) ∧ r' b = r b := by
  rw [Cpu.vectors_append (vectors_binop hg h.right)]
  refine ⟨_, by
    simp [Cpu.vectors, Cpu.vector?, hg, h.ne, Form.shuffle?]
    rfl, ?_, ?_, ?_⟩
  · intro i hi
    have : i = 0 ∨ i = 1 := by omega
    rcases this with rfl | rfl
    · simp [hp, hq, Vec128.bounds, Interval.hasNaN]
      grind [Binary.mask]
    · simp [hp, hq, Vec128.bounds, Interval.hasNaN]
      grind [Binary.mask]
  · intro hn
    rw [Interval.corners, hn]
    simp [hp, hq, Vec128.bounds, h.ne]
  · simp [h.ne]

/-- The smallest interval around the corners, or everything if one of them is
no number or the divisor may be zero. -/
theorem vectors_corners {op : UInt8} {g : Binary64 → Binary64 → Binary64}
    (hg : (c.arith .pd).arith? op = some g) (h : Apart d a b) {p q : Interval}
    (hp : p = ⟨g (r a).bounds.lo (r b).bounds.lo, g (r a).bounds.hi (r b).bounds.hi⟩)
    (hq : q = ⟨g (r a).bounds.lo (r b).bounds.hi, g (r a).bounds.hi (r b).bounds.lo⟩) :
    ∃ r', c.vectors r (corners op d a b) = some r' ∧
      (r' d).bounds = if op = ArithCode.div ∧ (r b).bounds.straddles = true then .everything
        else p.corners q := by
  obtain ⟨r₁, hr₁, hmask, hd, hb⟩ := vectors_cornerwise hg h hp hq
  have hcorners : (if (p.hasNaN || q.hasNaN) = true then .everything else (r₁ d).bounds) =
      p.corners q := by
    cases hn : p.hasNaN || q.hasNaN
    · simp [hd hn]
    · simp [Interval.corners, hn]
  rw [corners, List.append_assoc, Cpu.vectors_append hr₁]
  by_cases hop : op = ArithCode.div
  · obtain ⟨r₂, hr₂, hmask₂, hframe⟩ := vectors_straddle (c := c) (r := r₁) h.right_lt
    obtain ⟨r₃, hr₃, hmask₃, hd₃⟩ : ∃ r₃,
        c.vectors r₁ (straddle b ++ [.bit .pd BitCode.or .tmp2 .tmp0]) = some r₃ ∧
        (∀ i < 2, (r₃ .tmp2).lane .binary64 i =
          .mask ((r b).bounds.straddles || (p.hasNaN || q.hasNaN))) ∧ r₃ d = r₁ d := by
      refine ⟨_, by rw [Cpu.vectors_append hr₂]; simp [Cpu.vectors, Cpu.vector?]; rfl, ?_, ?_⟩
      · intro i hi
        simp [hmask₂ i hi, hmask i hi, hframe .tmp2 (by decide) (by decide), hb]
      · simp [h.ne, hframe]
    obtain ⟨r', hr', hd'⟩ := vectors_unbounded (c := c) h.result_lt scratch_ne.2.2.2.2.2 hmask₃
    refine ⟨r', by rw [if_pos hop, Cpu.vectors_append hr₃, hr'], ?_⟩
    rw [hd', hd₃]
    cases hs : (r b).bounds.straddles
    · simpa [hop] using hcorners
    · simp [hop]
  · obtain ⟨r', hr', hd'⟩ := vectors_unbounded (c := c) h.result_lt scratch_ne.2.2.2.2.2 hmask
    refine ⟨r', by rw [if_neg hop, List.nil_append, hr'], ?_⟩
    rw [hd', hcorners, if_neg fun hdiv => hop hdiv.1]

/-! ## Choices -/

/-- The two comparisons that a choice rests on, as masks. -/
theorem vectors_compared (ha : a < .tmp0) (hb : b < .tmp0) :
    ∃ r', c.vectors r [.movaps .tmp0 a, .unpackHigh .tmp0 b, .movaps .tmp1 b, .unpackLow .tmp1 a,
        .cmp .pd Predicate.lt .tmp0 .tmp1] = some r' ∧
      (r' .tmp0).bounds = ⟨.mask ((r a).bounds.hi.lt (r b).bounds.lo),
        .mask ((r b).bounds.hi.lt (r a).bounds.lo)⟩ ∧ ∀ x < .tmp0, r' x = r x := by
  refine ⟨_, by simp [Cpu.vectors, Cpu.vector?, ne_scratch hb]; rfl, ?_, ?_⟩
  · simp [Vec128.bounds, ne_scratch ha, ne_scratch hb, scratch_ne]
  · intro x hx
    simp [ne_scratch hx]

theorem mask_negative (p : Bool) : (Binary.mask p : Binary64).negative = p := by
  cases p <;> decide +kernel

theorem gpr_ne : Gpr.rcx ≠ .rax ∧ Gpr.rcx ≠ .r8 ∧ Gpr.rax ≠ .r8 ∧ Gpr.r8 ≠ .rax := by decide

/-- Two masks become the byte of a choice: a bit for each, and both bits where
neither is set. -/
theorem execAll_store {s : State} (pos : Nat) {p q : Bool}
    (hmask : (s.xmm .tmp0).bounds = ⟨.mask p, .mask q⟩) :
    ∃ s', c.execAll s [.moveMask .rax .tmp0, .movImm .r8 Choice.both.code.toUInt32,
        .test .rax .rax, .cmovz .rax .r8, .storeByte .rcx (.ofNat pos) .rax] = some s' ∧
      s'.xmm = s.xmm ∧ (∀ g, g ≠ .rax → g ≠ .r8 → s'.gpr g = s.gpr g) ∧
      s'.memory = s.memory.write (s.address .rcx (.ofNat pos)) 1
        (Interval.choiceOfBits p q).code.toNat := by
  simp only [Vec128.bounds, Interval.mk.injEq] at hmask
  have hbyte : Gpr.rax.lacksLowByte = false := by decide
  refine ⟨_, by
    simp only [Cpu.execAll, Cpu.exec, Cpu.vector?, Cpu.other?, hmask.1, hmask.2, mask_negative,
      hbyte, Bool.false_eq_true, if_false]
    rfl, ?_, fun g h0 h8 => by simp [State.setGpr, h0, h8], ?_⟩
  · rfl
  cases p <;> cases q <;> simp [State.setGpr, State.address, gpr_ne] <;> rfl

theorem execAll_record {s : State} (pos : Nat) (ha : a < .tmp0) (hb : b < .tmp0) :
    ∃ s', c.execAll s (record pos a b) = some s' ∧ (∀ x < .tmp0, s'.xmm x = s.xmm x) ∧
      (∀ g, g ≠ .rax → g ≠ .r8 → s'.gpr g = s.gpr g) ∧
      s'.memory = s.memory.write (s.address .rcx (.ofNat pos)) 1
        (Interval.choiceOfBits ((s.xmm a).bounds.hi.lt (s.xmm b).bounds.lo)
          ((s.xmm b).bounds.hi.lt (s.xmm a).bounds.lo)).code.toNat := by
  obtain ⟨r', hr', hmask, hframe⟩ := vectors_compared (c := c) (r := s.xmm) ha hb
  obtain ⟨s', hs', hxmm, hgpr, hmem⟩ := execAll_store (c := c) (s := { s with xmm := r' }) pos hmask
  refine ⟨s', ?_, fun x hx => (congrFun hxmm x).trans (hframe x hx), hgpr, hmem⟩
  rw [← hs', ← Cpu.execAll_append (Cpu.execAll_of_vectors hr')]
  rfl

/-! ## The template -/

theorem unary_confined {l : Level} {u : UnaryOp} (h : unary l u d a = some code) :
    Confined d code := by
  cases u with
  | floor | ceil | round =>
    rw [rounding_eq h]
    simp [Confined, Insn.target?]
  | neg | abs | recip | sqrt | square =>
    cases h
    simp [Confined, neg, abs, recip, sqrt, straddle, unbounded, Insn.target?]
  | _ => cases h

theorem corners_confined {op : UInt8} : Confined d (corners op d a b) := by
  unfold corners
  split <;> simp [Confined, binop, straddle, unbounded, Insn.target?]

theorem vectors_unary {l : Level} {u : UnaryOp} (h : unary l u d a = some code) (ha : Apart d a a)
    {v : Interval} (hv : (r a).bounds.Same v) :
    ∃ r', c.vectors r code = some r' ∧ (r' d).bounds.Same (Interval.unary u v) := by
  -- Roundings act on each bound.
  have hround : ∀ {u : UnaryOp}, lanewise .pd constants l u d a = some code →
      ∃ r', c.vectors r code = some r' ∧
        (r' d).bounds.Same ⟨Scalar.unary u v.lo, Scalar.unary u v.hi⟩ := fun h => by
    obtain ⟨r', hr', hlane⟩ := vectors_lanewise (c := c) (r := r) h ha
    exact ⟨r', hr', hlane 0 (by decide) rfl _ hv.lo, hlane 1 (by decide) rfl _ hv.hi⟩
  cases u with
  | neg =>
    cases h
    obtain ⟨r', hr', hd'⟩ := vectors_neg (c := c) (r := r) (d := d) (a := a)
    exact ⟨r', hr', hd' ▸ ⟨hv.hi.neg, hv.lo.neg⟩⟩
  | abs =>
    cases h
    obtain ⟨r', hr', hd'⟩ := vectors_abs (c := c) (r := r) ha
    exact ⟨r', hr', hd' ▸ hv.abs⟩
  | recip =>
    cases h
    exact vectors_recip ha hv
  | sqrt =>
    cases h
    exact vectors_sqrt ha hv
  | square =>
    cases h
    obtain ⟨r₁, hr₁, hd₁⟩ := vectors_abs (c := c) (r := r) ha
    have habs : (r₁ d).bounds.Same v.abs := hd₁ ▸ hv.abs
    refine ⟨_, by rw [Cpu.vectors_append hr₁]; simp [Cpu.vectors, Cpu.vector?]; rfl, ?_⟩
    simp only [Vec128.bounds, Function.update_self, Vec128.lane_apply_pd, Nat.zero_lt_two,
      Nat.one_lt_two]
    exact ⟨(c.arith .pd).mul_same habs.lo habs.lo, (c.arith .pd).mul_same habs.hi habs.hi⟩
  | floor => exact hround (u := .floor) h
  | ceil => exact hround (u := .ceil) h
  | round => exact hround (u := .round) h
  | _ => cases h

theorem vectors_sub (h : Apart d a b) {v w : Interval} (hv : (r a).bounds.Same v)
    (hw : (r b).bounds.Same w) :
    ∃ r', c.vectors r (sub d a b) = some r' ∧ (r' d).bounds.Same (v.sub w) := by
  have hlo := (c.arith .pd).add_same hv.lo hw.hi.neg
  have hhi := (c.arith .pd).add_same hv.hi hw.lo.neg
  refine ⟨_, by
    simp [sub, binop, signs64_eq, Cpu.vectors, Cpu.vector?, h.ne, Form.shuffle?]
    rfl, ?_⟩
  simp only [Vec128.bounds] at hlo hhi
  constructor
  · simpa [Vec128.bounds, Interval.sub] using hlo
  · simpa [Vec128.bounds, Interval.sub] using hhi

theorem vectors_mul (h : Apart d a b) {v w : Interval} (hv : (r a).bounds.Same v)
    (hw : (r b).bounds.Same w) :
    ∃ r', c.vectors r (corners ArithCode.mul d a b) = some r' ∧ (r' d).bounds.Same (v.mul w) := by
  have hu := @(c.arith .pd).mul_same
  obtain ⟨r', hr', hd'⟩ := vectors_corners (r := r) (FloatUnit.arith?_mul (c.arith .pd)) h rfl rfl
  refine ⟨r', hr', ?_⟩
  rw [hd', if_neg fun hdiv => absurd hdiv.1 (by decide), Interval.mul]
  exact Interval.Same.corners ⟨hu hv.lo hw.lo, hu hv.hi hw.hi⟩ ⟨hu hv.lo hw.hi, hu hv.hi hw.lo⟩

theorem vectors_div (h : Apart d a b) {v w : Interval} (hv : (r a).bounds.Same v)
    (hw : (r b).bounds.Same w) :
    ∃ r', c.vectors r (corners ArithCode.div d a b) = some r' ∧ (r' d).bounds.Same (v.div w) := by
  have hu := @(c.arith .pd).div_same
  obtain ⟨r', hr', hd'⟩ := vectors_corners (r := r) (FloatUnit.arith?_div (c.arith .pd)) h rfl rfl
  refine ⟨r', hr', ?_⟩
  rw [hd', hw.straddles, Interval.div]
  cases w.straddles with
  | true => exact ⟨.refl _, .refl _⟩
  | false =>
    exact Interval.Same.corners ⟨hu hv.lo hw.lo, hu hv.hi hw.hi⟩ ⟨hu hv.lo hw.hi, hu hv.hi hw.lo⟩

theorem recorded_choiceOfBits (m : Memory) (x : BitVec 64) (p q : Bool) :
    recorded m x (Interval.choiceOfBits p q) =
      m.write x 1 (Interval.choiceOfBits p q).code.toNat := by
  cases p <;> cases q <;> rfl

/-- The lesser or greater bounds, and the choice recorded. -/
theorem execAll_extreme {s : State} {o : BinaryOp} {x y : Xmm} (pos : Nat)
    (h : lanewise₂ .pd o d a b = some code) (hab : Apart d a b) (hx : x < .tmp0) (hy : y < .tmp0)
    (hdx : x ≠ d) (hdy : y ≠ d) {v w : Interval}
    (hv : (s.xmm a).bounds.Same v) (hw : (s.xmm b).bounds.Same w) :
    ∃ s', c.execAll s (code ++ record pos x y) = some s' ∧
      (s'.xmm d).bounds.Same ⟨Scalar.binary o v.lo w.lo, Scalar.binary o v.hi w.hi⟩ ∧
      (∀ x, x ≠ d → x < .tmp0 → s'.xmm x = s.xmm x) ∧
      (∀ g, g ≠ .rax → g ≠ .r8 → s'.gpr g = s.gpr g) ∧
      s'.memory = s.memory.write (s.address .rcx (.ofNat pos)) 1
        (Interval.choiceOfBits ((s.xmm x).bounds.hi.lt (s.xmm y).bounds.lo)
          ((s.xmm y).bounds.hi.lt (s.xmm x).bounds.lo)).code.toNat := by
  obtain ⟨r₁, hr₁, hlane⟩ := vectors_lanewise₂ (c := c) (r := s.xmm) h hab
  have hframe := (lanewise₂_confined h).frame hr₁
  obtain ⟨s', hs', hxmm, hgpr, hmem⟩ :=
    execAll_record (c := c) (s := { s with xmm := r₁ }) pos hx hy
  refine ⟨s', by rw [Cpu.execAll_append (Cpu.execAll_of_vectors hr₁), hs'], ?_, ?_, hgpr, ?_⟩
  · rw [hxmm d hab.result_lt]
    exact ⟨hlane 0 (by decide) rfl _ _ hv.lo hw.lo, hlane 1 (by decide) rfl _ _ hv.hi hw.hi⟩
  · intro z hz hlt
    rw [hxmm z hlt]
    exact hframe z hz hlt
  · rw [hmem]
    simp only [hframe x hdx hx, hframe y hdy hy]
    rfl

end Bounds

/-- The bounds are in the two lanes. -/
def HoldsInterval (x : Vec128) (v : Interval) : Prop := x.bounds.Same v

theorem interval_computes (c : Cpu) : interval.Computes c .compiledInterval HoldsInterval where
  moved := by
    intro x v h
    simpa [interval] using h
  const r d v := ⟨_, by simp [interval, doubles, Cpu.vectors, Cpu.vector?]; rfl, by
    simp only [HoldsInterval, Vec128.bounds, Vec128.lane_ofQuads_bits]
    exact ⟨.refl _, .refl _⟩⟩
  unary {_ _ _ _ _} h ha {r v} hv := by
    obtain ⟨r', hr', hd'⟩ := Bounds.vectors_unary (c := c) h ha hv
    exact ⟨r', hr', hd', (Bounds.unary_confined h).frame hr'⟩
  binary {pos o d a b code} h hab {s v w} hv hw := by
    -- What only computes a vector records nothing.
    have hpure : ∀ {r' : Xmm → Vec128} {v' : Interval}, Confined d code →
        c.vectors s.xmm code = some r' → (r' d).bounds.Same v' →
        ∃ s', c.execAll s code = some s' ∧ HoldsInterval (s'.xmm d) v' ∧
          (∀ x, x ≠ d → x < .tmp0 → s'.xmm x = s.xmm x) ∧
          (∀ g, g ≠ .rax → g ≠ .r8 → s'.gpr g = s.gpr g) ∧ s'.memory = s.memory :=
      fun hc hr' hd' => ⟨_, Cpu.execAll_of_vectors hr', hd', hc.frame hr',
        fun _ _ _ => rfl, rfl⟩
    cases o with
    | add =>
      have h' : lanewise₂ .pd .add d a b = some code := h
      obtain ⟨r', hr', hlane⟩ := vectors_lanewise₂ (c := c) (r := s.xmm) h' hab
      exact hpure (lanewise₂_confined h') hr'
        ⟨hlane 0 (by decide) rfl _ _ hv.lo hw.lo, hlane 1 (by decide) rfl _ _ hv.hi hw.hi⟩
    | sub =>
      cases h
      obtain ⟨r', hr', hd'⟩ := Bounds.vectors_sub (c := c) hab hv hw
      exact hpure (by simp [Confined, Bounds.sub, binop, Insn.target?]) hr' hd'
    | mul =>
      cases h
      obtain ⟨r', hr', hd'⟩ := Bounds.vectors_mul (c := c) hab hv hw
      exact hpure Bounds.corners_confined hr' hd'
    | div =>
      cases h
      obtain ⟨r', hr', hd'⟩ := Bounds.vectors_div (c := c) hab hv hw
      exact hpure Bounds.corners_confined hr' hd'
    | min =>
      cases h
      obtain ⟨s', hs', hd', hxmm, hgpr, hmem⟩ := Bounds.execAll_extreme (c := c) (o := .min) pos rfl
        hab hab.left_lt hab.right_lt hab.left.symm hab.right.symm hv hw
      refine ⟨s', hs', hd', hxmm, hgpr, ?_⟩
      rw [hmem, hv.hi.lt hw.lo, hw.hi.lt hv.lo, ← Bounds.recorded_choiceOfBits]
      rfl
    | max =>
      cases h
      obtain ⟨s', hs', hd', hxmm, hgpr, hmem⟩ := Bounds.execAll_extreme (c := c) (o := .max) pos rfl
        hab hab.right_lt hab.left_lt hab.right.symm hab.left.symm hv hw
      refine ⟨s', hs', hd', hxmm, hgpr, ?_⟩
      rw [hmem, hv.hi.lt hw.lo, hw.hi.lt hv.lo, ← Bounds.recorded_choiceOfBits]
      rfl
    | _ => cases h

end Template

end ScalarField
