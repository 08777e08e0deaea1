/-
Simplifying a tape over a region keeps its results at the points of the region
where the intervals enclose the values (`Tape.simplifyOver_keeps_results`).

A choice is resolved by comparing bounds, so it is right wherever the operands
lie between their bounds, and then the simplified tape gives the same bits.
Two things can put an operand outside, and both do change results
(`Tape.simplifyOver_changes_results`): a NaN bound that a later operator drops,
and a remainder over an interval that crosses a period by less than rounding
shows.
-/
import ScalarField.Eval.Region
import ScalarField.Proofs.Interval.Enclosure
import ScalarField.Proofs.Tape.Rewrite

namespace ScalarField

/-! ## Choices -/

namespace Interval

variable {a b : Interval} {v w : Binary64}

theorem scalar_min_eq (hv : v.isNaN = false) (hw : w.isNaN = false) :
    Scalar.min v w = if v.lt w then v else w := by
  simp only [Scalar.min, Arith.isNaN, hv, hw, Bool.or_self, Bool.false_eq_true, if_false,
    Scalar.lesser_eq]

theorem scalar_max_eq (hv : v.isNaN = false) (hw : w.isNaN = false) :
    Scalar.max v w = if w.lt v then v else w := by
  simp only [Scalar.max, Arith.isNaN, hv, hw, Bool.or_self, Bool.false_eq_true, if_false,
    Scalar.greater_eq]

/-- An operand that the bounds choose is the result at every point that they
enclose. -/
theorem choice_picks {o : BinaryOp} (ha : a.contains v = true) (hb : b.contains w = true) :
    (choice o a b = .left → Scalar.binary o v w = v) ∧
      (choice o a b = .right → Scalar.binary o v w = w) := by
  obtain ⟨hal, hah, hv, ha1, ha2⟩ := contains_iff.1 ha
  obtain ⟨hbl, hbh, hw, hb1, hb2⟩ := contains_iff.1 hb
  have hnan := hasNaN_of_contains ha
  cases o with
  | min =>
    show (below a b = _ → Scalar.min v w = v) ∧ (below a b = _ → Scalar.min v w = w)
    rw [scalar_min_eq hv hw, below]
    simp only [lt_iff hah hbl, lt_iff hbh hal, lt_iff hv hw]
    constructor
    · intro h
      split_ifs at h with h1
      exact if_pos (by omega)
    · intro h
      split_ifs at h with h1 h2
      exact if_neg (by omega)
  | max =>
    show (above a b = _ → Scalar.max v w = v) ∧ (above a b = _ → Scalar.max v w = w)
    rw [scalar_max_eq hv hw, above]
    simp only [lt_iff hah hbl, lt_iff hbh hal, lt_iff hw hv]
    constructor
    · intro h
      split_ifs at h with h1
      exact if_pos (by omega)
    · intro h
      split_ifs at h with h1 h2
      exact if_neg (by omega)
  | and =>
    simp only [choice, hnan, Bool.false_eq_true, if_false]
    constructor
    · intro h
      split_ifs at h with hz
      exact if_pos (isZero_of_contains ha hz)
    · intro h
      split_ifs at h with hz hnz
      exact if_neg (not_isZero_of_contains ha hnz)
  | or =>
    simp only [choice, hnan, Bool.false_eq_true, if_false]
    constructor
    · intro h
      split_ifs at h with hnz
      exact if_neg (not_isZero_of_contains ha hnz)
    · intro h
      split_ifs at h with hnz hz
      exact if_pos (isZero_of_contains ha hz)
  | _ => simp [choice]

end Interval

/-! ## Tapes -/

namespace Tape

variable {t : Tape} {region : Array Interval} {point : Array Binary64}

/-- The choice of a binary operator is made by the intervals of its
operands. -/
def DecidedBy (t : Tape) (region : Array Interval) (cs : List Choice) : Prop :=
  ∀ (k : Nat) (i : Instr) (o : BinaryOp) (a b : Interval),
    t.instrs[k]? = some i → i.op? = some (.binary o) →
    (t.slotValues .interval region)[i.left]? = some a →
    (t.slotValues .interval region)[i.right]? = some b → cs[k]? = some (Interval.choice o a b)

/-- The choices over a region are those of the instructions, position by
position. -/
theorem WellFormed.choicesOver_outcome (hwf : t.WellFormed) (hin : region.size = t.vars.size) :
    ∃ out cs, t.choicesOver region = .ok (out, cs) ∧ cs.length = t.size ∧
      ∀ (k : Nat) (i : Instr), t.instrs[k]? = some i → ∃ v c,
        i.outcome? .interval region ((t.slotValues .interval region)[·]?) = some (v, c) ∧
          cs[k]? = some (c.getD .unknown) := by
  obtain ⟨out, hout, -, hdone⟩ := hwf.eval_eq (I := .interval) hin
  have heval : (Evaluator.new Interp.interval t).eval region t.outputs.size =
      (.ok out, t.evaluated .interval region) := Prod.ext hout rfl
  refine ⟨out, (t.evaluated .interval region).choices, by simp only [choicesOver, heval],
    by simpa [Evaluator.choices] using hdone.choices_size, fun k i hi => ?_⟩
  have hk : k < t.size := (Array.getElem?_eq_some_iff.1 hi).1
  obtain ⟨v, c, hv, -, hc⟩ := hdone.slot k hk i hi
  refine ⟨v, c, hv, ?_⟩
  rw [Evaluator.choices, Array.getElem?_toList]
  exact hc .unknown (by simp [hk])

theorem WellFormed.choicesOver_eq (hwf : t.WellFormed) (hin : region.size = t.vars.size) :
    ∃ out cs, t.choicesOver region = .ok (out, cs) ∧ cs.length = t.size ∧
      t.DecidedBy region cs := by
  obtain ⟨out, cs, hcs, hlen, hslot⟩ := hwf.choicesOver_outcome hin
  refine ⟨out, cs, hcs, hlen, fun k i o a b hi hop ha hb => ?_⟩
  obtain ⟨v, c, hv, hc⟩ := hslot k i hi
  simp only [Instr.outcome?, hop, ha, hb, Option.bind_some, Option.map_some, Option.some.injEq,
    Prod.mk.injEq] at hv
  obtain ⟨-, rfl⟩ := hv
  exact hc

/-- Where both operands of every `min`, `max`, `and` and `or` are enclosed, the
choices over the region hold at the point. -/
theorem WellFormed.choicesHold (hwf : t.WellFormed) (hvars : point.size = t.vars.size)
    {cs : List Choice} (hcs : t.DecidedBy region cs)
    (henc : ∀ i ∈ t.instrs, i.isChoice = true → ∀ j ∈ i.args, t.EnclosedAt region point j) :
    t.ChoicesHold cs (t.slotValues .point point) := by
  intro k i hi hchoice
  obtain ⟨o, hop⟩ : ∃ o, i.op? = some (.binary o) := by
    rcases hop : i.op? with _ | _ | _ | u | o <;> simp [Instr.isChoice, hop, Op.isChoice] at hchoice
    exact ⟨o, rfl⟩
  have hmem := Array.mem_of_getElem? hi
  obtain ⟨a, v, ha, hv, hav⟩ := henc i hmem hchoice i.left (by simp [Instr.args_binary hop])
  obtain ⟨b, w, hb, hw, hbw⟩ := henc i hmem hchoice i.right (by simp [Instr.args_binary hop])
  have hslot : (t.slotValues .point point)[k]? = some (Scalar.binary o v w) := by
    rw [← (hwf.means (I := .point) hvars).slot hi]
    simp only [Instr.outcome?, hop, hv, hw, Option.bind_some, Option.map_some]
    rfl
  obtain ⟨hleft, hright⟩ := Interval.choice_picks (o := o) hav hbw
  rw [hcs k i o a b hi hop ha hb, hslot, hv, hw]
  simp only [Option.some.injEq]
  exact ⟨hleft, hright⟩

/-- Simplifying over a region keeps the results at a point that encloses the
operands of every choice. -/
theorem WellFormed.simplifyOver_eq (hwf : t.WellFormed) (ht : t.size ≤ 2 ^ 32)
    (hregion : region.size = t.vars.size) (hvars : point.size = t.vars.size)
    (henc : ∀ i ∈ t.instrs, i.isChoice = true → ∀ j ∈ i.args, t.EnclosedAt region point j) :
    ∃ s cs, t.simplifyOver region = .ok (s, cs) ∧ s.eval .point point = t.eval .point point := by
  obtain ⟨_, cs, hcs, hlen, hdecided⟩ := hwf.choicesOver_eq hregion
  obtain ⟨s, f, src, hs, hfwd, hred⟩ := hwf.simplify_eq hlen ht
  have hold := hwf.choicesHold hvars hdecided henc
  exact ⟨s, cs, by simp only [simplifyOver, hcs, hs],
    hwf.eval_simplified hlen hfwd hred hvars hold⟩

/-- **Simplifying over a region keeps the results at its points.** For a valid
tape, a region and a point of it: if no slot has a NaN bound over the region,
none is NaN at the point, every elementary function lies within its interval
there, and so does every remainder, then the tape is simplified, and it and the
simplified tape evaluate to the same results, bit for bit. -/
theorem simplifyOver_keeps_results (t : Tape) (region : Array Interval) (point : Array Binary64)
    (hvalid : t.validate = .ok ()) (ht : t.size ≤ 2 ^ 32) (hvars : point.size = t.vars.size)
    (hin : Interval.Holds region point) (hnan : t.NaNFree region point)
    (helementary : ∀ (k : Nat) (hk : k < t.size), t.instrs[k].isElementary = true →
      t.EnclosedAt region point k)
    (hmod : ∀ (k : Nat) (hk : k < t.size), t.instrs[k].op? = some (.binary .mod) →
      t.EnclosedAt region point k) :
    ∃ s cs out, t.simplifyOver region = .ok (s, cs) ∧ t.eval .point point = .ok out ∧
      s.eval .point point = .ok out := by
  obtain ⟨-, hwf⟩ := validate_eq_ok.1 hvalid
  have hregion := hin.size.trans hvars
  have hslots := hwf.enclosed hin hvars hnan fun k hk h =>
    (Instr.isElementary_or_mod h).elim (helementary k hk) (hmod k hk)
  obtain ⟨s, cs, hs, heq⟩ := hwf.simplifyOver_eq ht hregion hvars fun i hi _ j hj => by
    obtain ⟨k, hk, rfl⟩ := Array.mem_iff_getElem.1 hi
    exact hslots j (((hwf.instr (Array.getElem?_eq_getElem hk)).args j hj).trans hk)
  obtain ⟨out, hout, -⟩ := hwf.eval_eq (I := .point) hvars
  exact ⟨s, cs, out, hs, hout, heq.trans hout⟩

/-- The number `n / 100`, rounded. -/
def hundredths (n : Int) : Binary64 := (Binary.ofInt n).div (.ofInt 100)

/-- The remainder of `x` by 0.1, but at most `bound`. -/
def boundedRemainder (bound : Binary64) : Tape where
  instrs := #[{ code := Op.input.code, var := 0 }, { code := Op.const.code, imm := hundredths 10 },
    { code := BinaryOp.mod.code, left := 0, right := 1 }, { code := Op.const.code, imm := bound },
    { code := BinaryOp.min.code, left := 2, right := 3 }]
  outputs := #[4]
  vars := #[utf8 "x"]

/-- Remainders of numbers from 0.92 to 0.95 stay below 0.06, so that the choice
is resolved; at 0.93 nothing changes. -/
theorem simplifyOver_keeps_results_boundedRemainder :
    (∃ s cs out, (boundedRemainder (hundredths 6)).simplifyOver
        #[⟨hundredths 92, hundredths 95⟩] = .ok (s, cs) ∧
      (boundedRemainder (hundredths 6)).eval .point #[hundredths 93] = .ok out ∧
      s.eval .point #[hundredths 93] = .ok out) ∧
    ((boundedRemainder (hundredths 6)).simplifyOver
      #[⟨hundredths 92, hundredths 95⟩]).toOption.map (·.1.size) = some 3 :=
  ⟨simplifyOver_keeps_results _ _ _ (by decide +kernel) (by decide +kernel) (by decide +kernel)
    (.cons (by decide +kernel) .nil) ⟨by decide +kernel, by decide +kernel⟩
    (by decide +kernel) (by decide +kernel),
    by decide +kernel⟩

/-- The absolute value of `1 / x + ∞`, but at most 1. -/
def boundedReciprocal : Tape where
  instrs := #[{ code := Op.input.code, var := 0 }, { code := UnaryOp.recip.code, left := 0 },
    { code := Op.const.code, imm := .infinity false },
    { code := BinaryOp.add.code, left := 1, right := 2 }, { code := UnaryOp.abs.code, left := 3 },
    { code := Op.const.code, imm := .one }, { code := BinaryOp.min.code, left := 4, right := 5 }]
  outputs := #[6]
  vars := #[utf8 "x"]

/-- Neither the condition on remainders nor that on NaN bounds can go. From 0.9
to 0.95 the quotients by 0.1 have the same floor once rounded, though 0.9 is less
than nine times the double nearest to 0.1: its remainder is near 0.1, above the
interval. From -1 to 1 the sum has a NaN bound, and its absolute value the
interval from 0 to 0. -/
theorem simplifyOver_changes_results :
    ((boundedRemainder (hundredths 6)).validate = .ok () ∧
      Interval.Holds #[⟨hundredths 90, hundredths 95⟩] #[hundredths 90] ∧
      (boundedRemainder (hundredths 6)).NaNFree #[⟨hundredths 90, hundredths 95⟩]
        #[hundredths 90] ∧
      ((boundedRemainder (hundredths 6)).eval .point #[hundredths 90]).toOption =
        some [hundredths 6] ∧
      ((boundedRemainder (hundredths 6)).simplifyOver
        #[⟨hundredths 90, hundredths 95⟩]).toOption.map
          (fun r => (r.1.eval .point #[hundredths 90]).toOption) =
        some (some [Scalar.mod (hundredths 90) (hundredths 10)]) ∧
      (hundredths 6).lt (Scalar.mod (hundredths 90) (hundredths 10)) = true) ∧
    (boundedReciprocal.validate = .ok () ∧
      Interval.Holds #[⟨.ofInt (-1), .one⟩] #[hundredths 50] ∧
      (∀ i ∈ boundedReciprocal.instrs, i.isArithmetic = true) ∧
      (∀ v ∈ boundedReciprocal.slotValues .point #[hundredths 50], v.isNaN = false) ∧
      (boundedReciprocal.eval .point #[hundredths 50]).toOption = some [.one] ∧
      (boundedReciprocal.simplifyOver #[⟨.ofInt (-1), .one⟩]).toOption.map
          (fun r => (r.1.eval .point #[hundredths 50]).toOption) =
        some (some [.infinity false])) := by
  refine ⟨⟨?_, .cons ?_ .nil, ⟨?_, ?_⟩, ?_, ?_, ?_⟩, ?_, .cons ?_ .nil, ?_, ?_, ?_, ?_⟩
  all_goals decide +kernel

end Tape

end ScalarField
