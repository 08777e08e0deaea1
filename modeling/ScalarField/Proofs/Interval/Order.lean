/-
Bounds in order: whether an operator can give an interval whose upper bound
lies below the lower one.

A NaN bound is in no order with the other, and most operators pass it on, so
that nothing is out of order as long as the operands are not
(`Interval.unary_isInverted`, `Interval.binary_isInverted`). Only the absolute
value drops a NaN bound, and where the other bound is negative it then turns
the interval around (`Interval.abs_isInverted`). A tape that never does this to
an operand has all its slots in order over a region that is
(`Tape.WellFormed.not_isInverted`).
-/
import ScalarField.Proofs.Interval.Enclosure

namespace ScalarField

namespace Interval

variable {a b : Interval}

/-- Whether the bounds are numbers in the wrong order. -/
def isInverted (a : Interval) : Bool := a.hi.lt a.lo

/-- Whether the lower bound is no number and the upper one is negative. -/
def isHalfNegative (a : Interval) : Bool := a.lo.isNaN && a.hi.lt .zero

theorem isInverted_eq_false :
    a.isInverted = false ↔ (a.hasNaN = false → a.lo.key ≤ a.hi.key) := by
  rw [isInverted, ← Bool.not_eq_true, Binary.lt_eq_true, hasNaN_eq_false]
  constructor
  · intro h hnan
    by_contra hlt
    exact h ⟨hnan.2, hnan.1, by omega⟩
  · rintro h ⟨hhi, hlo, hlt⟩
    have := h ⟨hlo, hhi⟩
    omega

theorem lo_le_hi (hnan : a.hasNaN = false) (h : a.isInverted = false) : a.lo.le a.hi = true := by
  obtain ⟨hlo, hhi⟩ := hasNaN_eq_false.1 hnan
  exact Binary.le_eq_true.2 ⟨hlo, hhi, isInverted_eq_false.1 h hnan⟩

theorem isInverted_of_le (h : a.lo.le a.hi = true) : a.isInverted = false :=
  isInverted_eq_false.2 fun _ => (Binary.le_eq_true.1 h).2.2

theorem splat_isInverted (v : Binary64) : (splat v).isInverted = false :=
  isInverted_eq_false.2 fun _ => le_refl v.key

theorem everything_isInverted : everything.isInverted = false := by decide

/-! ## Operators of one operand -/

theorem neg_isInverted (h : a.isInverted = false) :
    (⟨a.hi.neg, a.lo.neg⟩ : Interval).isInverted = false := by
  refine isInverted_eq_false.2 fun hnan => ?_
  obtain ⟨hhi, hlo⟩ := hasNaN_eq_false.1 hnan
  have := isInverted_eq_false.1 h (hasNaN_eq_false.2 ⟨hlo, hhi⟩)
  simp only [Binary.neg_key]
  omega

theorem greater_of_isNaN_right {x y : Binary64} (h : y.isNaN = true) : Scalar.greater x y = y := by
  rw [Scalar.greater_eq, if_neg]
  simp [Binary.lt_eq_true, h]

theorem greater_of_isNaN_left {x y : Binary64} (h : x.isNaN = true) : Scalar.greater x y = y := by
  rw [Scalar.greater_eq, if_neg]
  simp [Binary.lt_eq_true, h]

theorem abs_of_lo_isNaN (h : a.lo.isNaN = true) :
    a.abs = ⟨Scalar.greater a.hi.neg .zero, .zero⟩ := by
  have hneg : a.lo.neg.isNaN = true := h
  rw [Interval.abs, greater_of_isNaN_left h, greater_of_isNaN_right hneg,
    greater_of_isNaN_left hneg]

theorem abs_of_hi_isNaN (h : a.hi.isNaN = true) :
    a.abs = ⟨.zero, Scalar.greater a.lo.neg .zero⟩ := by
  have hneg : a.hi.neg.isNaN = true := h
  rw [Interval.abs, greater_of_isNaN_right hneg, greater_of_isNaN_left hneg,
    greater_of_isNaN_left h]

theorem abs_hasNaN (a : Interval) : a.abs.hasNaN = false := by
  have greater_zero : ∀ x : Binary64, (Scalar.greater x .zero).isNaN = false := fun x => by
    rcases hx : x.isNaN with _ | _
    · exact Scalar.greater_isNaN hx zero_isNaN
    · rw [greater_of_isNaN_left hx]
      exact zero_isNaN
  exact hasNaN_eq_false.2 ⟨greater_zero _, greater_zero _⟩

/-- Absolute values of an interval in order are out of order exactly where the
lower bound is no number and the upper one is negative. -/
theorem abs_isInverted (h : a.isInverted = false) : a.abs.isInverted = a.isHalfNegative := by
  rw [Bool.eq_iff_iff, isInverted, isHalfNegative, Binary.lt_eq_true]
  obtain ⟨hnl, hnh⟩ := hasNaN_eq_false.1 a.abs_hasNaN
  simp only [hnl, hnh, true_and, Bool.and_eq_true, Binary.lt_eq_true, zero_isNaN, zero_key]
  rcases hlo : a.lo.isNaN with _ | _
  · rcases hhi : a.hi.isNaN with _ | _
    · have hle := isInverted_eq_false.1 h (hasNaN_eq_false.2 ⟨hlo, hhi⟩)
      obtain ⟨-, hl, hh⟩ := abs_keys hlo hhi
      rw [hl, hh]
      simp only [Bool.false_eq_true, false_and, iff_false]
      omega
    · have hneg : a.lo.neg.isNaN = false := hlo
      rw [abs_of_hi_isNaN hhi, zero_key, Scalar.greater_key hneg zero_isNaN, zero_key]
      simp
  · rcases hhi : a.hi.isNaN with _ | _
    · have hneg : a.hi.neg.isNaN = false := hhi
      rw [abs_of_lo_isNaN hlo, zero_key, Scalar.greater_key hneg zero_isNaN, zero_key,
        Binary.neg_key]
      simp
    · rw [abs_of_hi_isNaN hhi, greater_of_isNaN_left (show a.lo.neg.isNaN = true from hlo)]
      simp

theorem square_isInverted (h : a.isInverted = false) (hhalf : a.isHalfNegative = false) :
    a.square.isInverted = false := by
  refine isInverted_eq_false.2 fun hnan => ?_
  obtain ⟨hl, hh⟩ := hasNaN_eq_false.1 hnan
  have hle := lo_le_hi a.abs_hasNaN ((abs_isInverted h).trans hhalf)
  refine mul_self_key_le hl hh hle ?_
  -- A greater of anything and zero is not negative.
  rcases hx : (Scalar.greater a.lo a.hi.neg).isNaN with _ | _
  · rw [Interval.abs, Scalar.greater_key hx zero_isNaN, zero_key]
    omega
  · rw [Interval.abs, greater_of_isNaN_left hx, zero_key]

theorem recip_isInverted (a : Interval) : a.recip.isInverted = false := by
  rw [Interval.recip]
  split
  · exact everything_isInverted
  · dsimp only
    generalize Binary.one.div a.lo = p, Binary.one.div a.hi = q
    refine isInverted_eq_false.2 fun hnan => ?_
    rcases hp : p.isNaN with _ | _
    · rcases hq : q.isNaN with _ | _
      · rw [Scalar.lesser_key hp hq, Scalar.greater_key hq hp]
        omega
      · simp [hasNaN, Scalar.lesser_eq, Binary.lt, Binary.ordered, hq] at hnan
    · simp [hasNaN, greater_of_isNaN_right hp, hp] at hnan

theorem sqrt_isNaN_of_isNaN {x : Binary64} (h : x.isNaN = true) : x.sqrt.isNaN = true := by
  simp [Binary.sqrt, h, Binary.nan_isNaN]

theorem sqrt_isInverted (h : a.isInverted = false) : a.sqrt.isInverted = false := by
  unfold Interval.sqrt
  split
  · decide
  · refine isInverted_eq_false.2 fun hnan => ?_
    obtain ⟨hl, hh⟩ := hasNaN_eq_false.1 hnan
    -- A root that is a number is that of a number.
    have number : ∀ {x : Binary64}, (Scalar.greater .zero x).sqrt.isNaN = false →
        x.isNaN = false := by
      intro x hx
      by_contra hxn
      have hxn : x.isNaN = true := by simpa using hxn
      rw [greater_of_isNaN_right hxn, sqrt_isNaN_of_isNaN hxn] at hx
      exact absurd hx (by decide)
    have hlo := number hl
    have hhi := number hh
    have hle := isInverted_eq_false.1 h (hasNaN_eq_false.2 ⟨hlo, hhi⟩)
    refine Binary.sqrt_key_le hl hh (Binary.le_eq_true.2 ⟨Scalar.greater_isNaN zero_isNaN hlo,
      Scalar.greater_isNaN zero_isNaN hhi, ?_⟩)
    rw [Scalar.greater_key zero_isNaN hlo, Scalar.greater_key zero_isNaN hhi, zero_key]
    omega

theorem map_isInverted {t : Bool → Tie} (ht : ∀ s, (t s).Monotone) (h : a.isInverted = false) :
    (a.map (·.toIntegral t)).isInverted = false := by
  refine isInverted_eq_false.2 fun hnan => ?_
  have number : ∀ {x : Binary64}, (x.toIntegral t).isNaN = false → x.isNaN = false := by
    intro x hx
    by_contra hxn
    rw [Binary.toIntegral, if_pos (by simpa using hxn), Binary.nan_isNaN] at hx
    exact absurd hx (by decide)
  obtain ⟨hl, hh⟩ := hasNaN_eq_false.1 hnan
  have hle := isInverted_eq_false.1 h (hasNaN_eq_false.2 ⟨number hl, number hh⟩)
  exact Binary.toIntegral_key_le ht (number hl) (number hh) hle

theorem not_isInverted (a : Interval) : a.not.isInverted = false := by
  unfold Interval.not
  split
  · decide +kernel
  · split <;> decide +kernel

/-- An operator of one operand keeps bounds in order; absolute values and
squares do if the operand has not lost its lower bound below zero. -/
theorem unary_isInverted {u : UnaryOp} (hu : (Op.unary u).isArithmetic = true)
    (h : a.isInverted = false) (hhalf : u = .abs ∨ u = .square → a.isHalfNegative = false) :
    (unary u a).isInverted = false := by
  cases u with
  | neg => exact neg_isInverted h
  | abs => exact (abs_isInverted h).trans (hhalf (.inl rfl))
  | recip => exact a.recip_isInverted
  | sqrt => exact sqrt_isInverted h
  | square => exact square_isInverted h (hhalf (.inr rfl))
  | floor => exact map_isInverted Binary.floor_monotone h
  | ceil => exact map_isInverted Binary.ceil_monotone h
  | round => exact map_isInverted (fun _ => Tie.toEven_monotone) h
  | not => exact a.not_isInverted
  | _ => cases hu

/-! ## Operators of two operands -/

theorem add_isNaN_of_isNaN {x y : Binary64} (h : (x.add y).isNaN = false) :
    x.isNaN = false ∧ y.isNaN = false := by
  by_contra hxy
  have hnan : (x.isNaN || y.isNaN) = true := by
    rcases hx : x.isNaN with _ | _ <;> rcases hy : y.isNaN with _ | _ <;> simp_all
  rw [Binary.add, if_pos hnan, Binary.nan_isNaN] at h
  exact absurd h (by decide)

theorem add_isInverted (ha : a.isInverted = false) (hb : b.isInverted = false) :
    (a.add b).isInverted = false := by
  refine isInverted_eq_false.2 fun hnan => ?_
  obtain ⟨hl, hh⟩ := hasNaN_eq_false.1 hnan
  obtain ⟨hal, hbl⟩ := add_isNaN_of_isNaN hl
  obtain ⟨hah, hbh⟩ := add_isNaN_of_isNaN hh
  exact add_key_le hl hh (lo_le_hi (hasNaN_eq_false.2 ⟨hal, hah⟩) ha)
    (lo_le_hi (hasNaN_eq_false.2 ⟨hbl, hbh⟩) hb)

theorem sub_isInverted (ha : a.isInverted = false) (hb : b.isInverted = false) :
    (a.sub b).isInverted = false := by
  have hsub : a.sub b = a.add ⟨b.hi.neg, b.lo.neg⟩ := by rw [Interval.sub, Interval.add]
  rw [hsub]
  exact add_isInverted ha (neg_isInverted hb)

theorem corners_isInverted (p q : Interval) : (corners p q).isInverted = false := by
  unfold corners
  split
  · exact everything_isInverted
  · rename_i hnan
    have hnan' : (p.lo.isNaN = false ∧ p.hi.isNaN = false) ∧
        (q.lo.isNaN = false ∧ q.hi.isNaN = false) := by simpa [hasNaN] using hnan
    obtain ⟨⟨h1, h2⟩, h3, h4⟩ := hnan'
    refine isInverted_eq_false.2 fun _ => ?_
    rw [Scalar.lesser_key (Scalar.lesser_isNaN h1 h3) (Scalar.lesser_isNaN h2 h4),
      Scalar.lesser_key h1 h3, Scalar.lesser_key h2 h4,
      Scalar.greater_key (Scalar.greater_isNaN h1 h3) (Scalar.greater_isNaN h2 h4),
      Scalar.greater_key h1 h3, Scalar.greater_key h2 h4]
    omega

theorem mul_isInverted (a b : Interval) : (a.mul b).isInverted = false := by
  rw [Interval.mul]
  exact corners_isInverted _ _

theorem div_isInverted (a b : Interval) : (a.div b).isInverted = false := by
  unfold Interval.div
  split
  · exact everything_isInverted
  · exact corners_isInverted _ _

theorem min_isInverted (ha : a.isInverted = false) (hb : b.isInverted = false) :
    (a.min b).isInverted = false := by
  refine isInverted_eq_false.2 fun hnan => ?_
  obtain ⟨hl, hh⟩ := hasNaN_eq_false.1 hnan
  obtain ⟨hal, hbl, -⟩ := min_eq_lesser hl
  obtain ⟨hah, hbh, -⟩ := min_eq_lesser hh
  have h1 := isInverted_eq_false.1 ha (hasNaN_eq_false.2 ⟨hal, hah⟩)
  have h2 := isInverted_eq_false.1 hb (hasNaN_eq_false.2 ⟨hbl, hbh⟩)
  rw [Interval.min, min_key hl, min_key hh]
  omega

theorem max_isInverted (ha : a.isInverted = false) (hb : b.isInverted = false) :
    (a.max b).isInverted = false := by
  refine isInverted_eq_false.2 fun hnan => ?_
  obtain ⟨hl, hh⟩ := hasNaN_eq_false.1 hnan
  obtain ⟨hal, hbl, -⟩ := max_eq_greater hl
  obtain ⟨hah, hbh, -⟩ := max_eq_greater hh
  have h1 := isInverted_eq_false.1 ha (hasNaN_eq_false.2 ⟨hal, hah⟩)
  have h2 := isInverted_eq_false.1 hb (hasNaN_eq_false.2 ⟨hbl, hbh⟩)
  rw [Interval.max, max_key hl, max_key hh]
  omega

theorem hull_isInverted (ha : a.isInverted = false) (b : Interval) :
    (a.hull b).isInverted = false := by
  refine isInverted_eq_false.2 fun hnan => ?_
  obtain ⟨hl, hh⟩ := hasNaN_eq_false.1 hnan
  obtain ⟨hal, -, -⟩ := min_eq_lesser hl
  obtain ⟨hah, -, -⟩ := max_eq_greater hh
  have h1 := isInverted_eq_false.1 ha (hasNaN_eq_false.2 ⟨hal, hah⟩)
  rw [hull, min_key hl, max_key hh]
  omega

theorem compare_isInverted (a b : Interval) : (a.compare b).isInverted = false := by
  unfold Interval.compare
  split
  · decide
  · split
    · decide +kernel
    · split
      · decide +kernel
      · split <;> split <;> decide +kernel

theorem and_isInverted (ha : a.isInverted = false) (hb : b.isInverted = false) :
    (a.and b).isInverted = false := by
  unfold Interval.and
  split
  · exact hull_isInverted ha b
  · split
    · exact ha
    · split
      · exact hb
      · exact hull_isInverted hb zero

theorem or_isInverted (ha : a.isInverted = false) (hb : b.isInverted = false) :
    (a.or b).isInverted = false := by
  unfold Interval.or
  split
  · exact hull_isInverted ha b
  · split
    · exact ha
    · split
      · exact hb
      · exact hull_isInverted ha b

theorem binary_isInverted {o : BinaryOp} (ho : (Op.binary o).isArithmetic = true)
    (ha : a.isInverted = false) (hb : b.isInverted = false) :
    (binary o a b).isInverted = false := by
  cases o with
  | add => exact add_isInverted ha hb
  | sub => exact sub_isInverted ha hb
  | mul => exact mul_isInverted a b
  | div => exact div_isInverted a b
  | min => exact min_isInverted ha hb
  | max => exact max_isInverted ha hb
  | compare => exact compare_isInverted a b
  | and => exact and_isInverted ha hb
  | or => exact or_isInverted ha hb
  | mod => cases ho
  | atan2 => cases ho

end Interval

/-! ## Tapes -/

namespace Tape

variable {t : Tape}

/-- What every instruction of a valid tape passes on from its operands to its
value holds in every slot: by induction on slots, since operands come before. -/
theorem WellFormed.slot_induction {α : Type} {I : Interp α} {inputs : Array α} {P : α → Prop}
    (hwf : t.WellFormed) (hin : inputs.size = t.vars.size)
    (hstep : ∀ (i : Instr) (v : α) (c : Option Choice), i ∈ t.instrs →
      i.outcome? I inputs ((t.slotValues I inputs)[·]?) = some (v, c) →
      (∀ k ∈ i.args, ∀ x, (t.slotValues I inputs)[k]? = some x → P x) → P v) :
    ∀ v ∈ t.slotValues I inputs, P v := by
  have hmeans := hwf.means (I := I) hin
  have hall : ∀ (k : Nat) (v : α), (t.slotValues I inputs)[k]? = some v → P v := by
    intro k
    induction k using Nat.strongRecOn with
    | _ k ih =>
      intro v hv
      have hk : k < t.size := hmeans.size ▸ (Array.getElem?_eq_some_iff.1 hv).1
      have hi : t.instrs[k]? = some t.instrs[k] := Array.getElem?_eq_getElem hk
      obtain ⟨w, c, hw, hout⟩ := hmeans.outcome hi
      obtain rfl : w = v := by simpa [hv] using hw.symm
      exact hstep _ w c (Array.getElem_mem hk) hout fun j hj =>
        ih j ((hwf.instr hi).args j hj)
  intro v hv
  obtain ⟨k, hk, rfl⟩ := Array.mem_iff_getElem.1 hv
  exact hall k _ (Array.getElem?_eq_getElem hk)

/-- No absolute value or square is taken of an interval that has lost its lower
bound below zero. -/
def KeepsOrder (t : Tape) (region : Array Interval) : Prop :=
  ∀ i ∈ t.instrs, i.op? = some (.unary .abs) ∨ i.op? = some (.unary .square) →
    ∀ a, (t.slotValues .interval region)[i.left]? = some a → a.isHalfNegative = false

/-- Over a region with bounds in order, the bounds of every slot are in order
unless an absolute value turns them around. -/
theorem WellFormed.not_isInverted (hwf : t.WellFormed) {region : Array Interval}
    (hvars : region.size = t.vars.size) (harith : ∀ i ∈ t.instrs, i.isArithmetic = true)
    (hregion : ∀ a ∈ region, a.isInverted = false) (hkeeps : t.KeepsOrder region) :
    ∀ a ∈ t.slotValues .interval region, a.isInverted = false := by
  refine hwf.slot_induction hvars fun i v c hi hout hargs => ?_
  rcases hop : i.op? with _ | op
  · simp [Instr.outcome?, hop] at hout
  have harith : op.isArithmetic = true := by simpa [Instr.isArithmetic, hop] using harith i hi
  cases op with
  | input =>
    simp only [Instr.outcome?, hop] at hout
    split at hout
    · simp at hout
    · simp only [Option.map_eq_some_iff, Prod.mk.injEq] at hout
      obtain ⟨x, hx, rfl, -⟩ := hout
      exact hregion x (Array.mem_of_getElem? hx)
  | const =>
    simp only [Instr.outcome?, hop, Option.some.injEq, Prod.mk.injEq] at hout
    obtain ⟨rfl, -⟩ := hout
    exact Interval.splat_isInverted i.imm
  | unary u =>
    simp only [Instr.outcome?, hop, Option.map_eq_some_iff, Prod.mk.injEq] at hout
    obtain ⟨x, hx, rfl, -⟩ := hout
    refine Interval.unary_isInverted harith (hargs i.left (by simp [Instr.args_unary hop]) x hx) ?_
    rintro (rfl | rfl)
    · exact hkeeps i hi (.inl hop) x hx
    · exact hkeeps i hi (.inr hop) x hx
  | binary o =>
    simp only [Instr.outcome?, hop, Option.bind_eq_some_iff, Option.map_eq_some_iff,
      Prod.mk.injEq] at hout
    obtain ⟨x, hx, y, hy, rfl, -⟩ := hout
    exact Interval.binary_isInverted harith (hargs i.left (by simp [Instr.args_binary hop]) x hx)
      (hargs i.right (by simp [Instr.args_binary hop]) y hy)

theorem keepsOrder_of_hasNaN {region : Array Interval}
    (hnan : ∀ a ∈ t.slotValues .interval region, a.hasNaN = false) : t.KeepsOrder region := by
  intro i _ _ a ha
  have hlo := (Interval.hasNaN_eq_false.1 (hnan a (Array.mem_of_getElem? ha))).1
  simp [Interval.isHalfNegative, hlo]

end Tape

end ScalarField
