/-
What a valid tape means under an interpretation: one value for each slot,
each the value of its instruction on the values of the slots before
(`Tape.Means`). Evaluating a valid tape finds these values and never faults
(`Tape.WellFormed.means`), whatever the slots held before, and they are the
only ones (`Tape.Means.unique`).
-/
import Mathlib.Data.List.Forall2
import Mathlib.Tactic.Common
import ScalarField.Eval.Interp

namespace ScalarField

/-! ## Validity -/

namespace Tape

/-- What an instruction at `slot` may be in a tape of `vars` variables. -/
structure Admits (vars slot : Nat) (i : Instr) : Prop where
  op : ∃ op, i.op? = some op
  var : i.op? = some .input → 0 ≤ i.var ∧ i.var < vars
  args : ∀ a ∈ i.args, a < slot

/-- Operands come before their use, and variables and outputs exist. -/
structure WellFormed (t : Tape) : Prop where
  instr : ∀ {slot i}, t.instrs[slot]? = some i → Admits t.vars.size slot i
  output : ∀ o ∈ t.outputs, o < t.size

theorem violation?_eq_none {vars slot : Nat} {i : Instr} :
    violation? vars slot i = none ↔ Admits vars slot i := by
  have hleaf : i.op? = some .input → i.args = [] := fun h => by
    simp [Instr.args, Instr.arity, Op.arityOfCode, show Op.ofCode? i.code = some .input from h,
      Op.arity]
  constructor
  · intro h
    unfold violation? at h
    split at h
    · simp at h
    · rename_i hop
      refine ⟨⟨_, hop⟩, fun _ => ?_, by simp [hleaf hop]⟩
      by_contra hv
      simp [hv] at h
    · rename_i op hne hop
      refine ⟨⟨_, hop⟩, fun hin => absurd (hop.symm.trans hin) (by simpa using hne), fun a ha => ?_⟩
      simp only [Option.map_eq_none_iff, List.find?_eq_none, decide_eq_true_eq] at h
      exact Nat.lt_of_not_le (h a ha)
  · rintro ⟨⟨op, hop⟩, hvar, hargs⟩
    have hfind : i.args.find? (slot ≤ ·) = none := by
      simpa only [List.find?_eq_none, decide_eq_true_eq, Nat.not_le] using hargs
    unfold violation?
    split
    · simp_all
    · rename_i hin
      simp [hvar hin]
    · simp only [hfind, Option.map_none]

theorem firstViolation?_eq_none (vars : Nat) : ∀ (slot : Nat) (is : List Instr),
    firstViolation? vars slot is = none ↔ ∀ k i, is[k]? = some i → Admits vars (slot + k) i
  | slot, [] => by simp [firstViolation?]
  | slot, i :: rest => by
    have ih := firstViolation?_eq_none vars (slot + 1) rest
    constructor
    · intro h k j hj
      simp only [firstViolation?] at h
      split at h
      · simp at h
      · rename_i hv
        cases k with
        | zero =>
          simp only [List.getElem?_cons_zero, Option.some.injEq] at hj
          exact hj ▸ violation?_eq_none.1 hv
        | succ k =>
          have := ih.1 h k j (by simpa using hj)
          rwa [show slot + (k + 1) = slot + 1 + k by omega]
    · intro h
      have hv : violation? vars slot i = none := violation?_eq_none.2 (by simpa using h 0 i rfl)
      simp only [firstViolation?, hv]
      refine ih.2 fun k j hj => ?_
      have := h (k + 1) j (by simpa using hj)
      rwa [show slot + (k + 1) = slot + 1 + k by omega] at this

/-- The check of tapes accepts exactly the tapes that have outputs and are well
formed. -/
theorem validate_eq_ok {t : Tape} :
    t.validate = .ok () ↔ t.outputs.isEmpty = false ∧ t.WellFormed := by
  have hfirst := firstViolation?_eq_none t.vars.size 0 t.instrs.toList
  simp only [Array.getElem?_toList, Nat.zero_add] at hfirst
  have hout : t.outputs.find? (t.size ≤ ·) = none ↔ ∀ o ∈ t.outputs, o < t.size := by
    simp [Array.find?_eq_none]
  unfold validate
  constructor
  · intro h
    split at h
    · simp at h
    · rename_i hne
      split at h
      · simp at h
      · rename_i hv
        split at h
        · simp at h
        · rename_i ho
          exact ⟨by simpa using hne, fun {k i} => hfirst.1 hv k i, hout.1 ho⟩
  · rintro ⟨hne, hwf⟩
    simp [hne, hfirst.2 fun k i => hwf.instr, hout.2 hwf.output]

end Tape

/-! ## Tables -/

theorem lookup_eq_ok {α : Type} {table : Array α} {i : Nat} {x : α} :
    lookup table i = .ok x ↔ table[i]? = some x := by
  unfold lookup
  split <;> simp_all

theorem lookupAll_eq_ok {α : Type} {table : Array α} : ∀ {is : List Nat} {xs : List α},
    lookupAll table is = .ok xs ↔ List.Forall₂ (fun i x => table[i]? = some x) is xs
  | [], xs => by
    rw [List.forall₂_nil_left_iff]
    simp [lookupAll, eq_comm]
  | i :: is, xs => by
    unfold lookupAll
    constructor
    · intro h
      split at h
      · rename_i x ys hx hys
        obtain rfl : x :: ys = xs := by simpa using h
        exact .cons (lookup_eq_ok.1 hx) (lookupAll_eq_ok.1 hys)
      · simp at h
      · simp at h
    · rintro (_ | ⟨hx, hxs⟩)
      simp only [lookup_eq_ok.2 hx, lookupAll_eq_ok.2 hxs]

theorem lookupAll_of_forall_lt {α : Type} (table : Array α) : ∀ (is : List Nat),
    (∀ i ∈ is, i < table.size) → ∃ xs, lookupAll table is = .ok xs
  | [], _ => ⟨[], rfl⟩
  | i :: is, h => by
    obtain ⟨xs, hxs⟩ := lookupAll_of_forall_lt table is fun j hj => h j (List.mem_cons_of_mem i hj)
    have hi := Array.getElem?_eq_getElem (h i List.mem_cons_self)
    exact ⟨_, lookupAll_eq_ok.2 (.cons hi (lookupAll_eq_ok.1 hxs))⟩

theorem of_drop_eq_cons {α : Type} {table : Array α} {n : Nat} {x : α} {rest : List α}
    (h : table.toList.drop n = x :: rest) :
    table[n]? = some x ∧ table.toList.drop (n + 1) = rest := by
  constructor
  · rw [← Array.getElem?_toList, ← List.head?_drop, h, List.head?_cons]
  · rw [← List.drop_drop, h]
    rfl

theorem forall₂_getElem? {α β : Type} {R : α → β → Prop} {xs : Array α} {ys : Array β}
    (h : List.Forall₂ R xs.toList ys.toList) {j : Nat} {x : α} {y : β} (hx : xs[j]? = some x)
    (hy : ys[j]? = some y) : R x y := by
  obtain ⟨hj, rfl⟩ := Array.getElem?_eq_some_iff.1 hx
  obtain ⟨hj', rfl⟩ := Array.getElem?_eq_some_iff.1 hy
  exact h.get (by simpa using hj) (by simpa using hj')

theorem forall₂_comp {α β γ : Type} {R : α → β → Prop} {S : β → γ → Prop} :
    ∀ {as : List α} {bs : List β} {cs : List γ}, List.Forall₂ R as bs → List.Forall₂ S bs cs →
      List.Forall₂ (fun a c => ∃ b, R a b ∧ S b c) as cs
  | _, _, _, .nil, .nil => .nil
  | _, _, _, .cons hr hrs, .cons hs hss => .cons ⟨_, hr, hs⟩ (forall₂_comp hrs hss)

/-! ## Instructions -/

namespace Instr

theorem args_leaf {i : Instr} (h : i.op? = some .input ∨ i.op? = some .const) : i.args = [] := by
  rcases h with h | h <;> simp only [op?] at h <;> simp [args, arity, Op.arityOfCode, h, Op.arity]

theorem args_unary {i : Instr} {u : UnaryOp} (h : i.op? = some (.unary u)) : i.args = [i.left] := by
  simp only [op?] at h
  simp [args, arity, Op.arityOfCode, h, Op.arity]

theorem args_binary {i : Instr} {b : BinaryOp} (h : i.op? = some (.binary b)) :
    i.args = [i.left, i.right] := by
  simp only [op?] at h
  simp [args, arity, Op.arityOfCode, h, Op.arity]

variable {α : Type}

/-- The value of an instruction and the choice it makes, given what slots
hold. -/
def outcome? (I : Interp α) (inputs : Array α) (read : Nat → Option α) (i : Instr) :
    Option (α × Option Choice) :=
  match i.op? with
  | some .input => if i.var < 0 then none else (inputs[i.var.toNat]?).map (·, none)
  | some .const => some (I.const i.imm, none)
  | some (.unary u) => (read i.left).map fun x => (I.unary u x, none)
  | some (.binary b) =>
    (read i.left).bind fun x => (read i.right).map fun y => (I.binary b x y, some (I.choice b x y))
  | none => none

theorem outcome?_congr {I : Interp α} {inputs : Array α} {read read' : Nat → Option α} {i : Instr}
    (h : ∀ a ∈ i.args, read a = read' a) : i.outcome? I inputs read = i.outcome? I inputs read' := by
  unfold outcome?
  split
  case h_3 u hop => rw [h i.left (by simp [args_unary hop])]
  case h_4 b hop => rw [h i.left (by simp [args_binary hop]), h i.right (by simp [args_binary hop])]
  all_goals rfl

theorem valueOf_eq_ok {I : Interp α} {inputs : Array α} {s : Slots α} {i : Instr}
    {r : α × Option Choice} :
    s.valueOf I inputs i = .ok r ↔ i.outcome? I inputs (s.values[·]?) = some r := by
  rcases hop : i.op? with _ | _ | _ | u | b
  · cases hx : s.values[i.left]? <;> simp [Slots.valueOf, outcome?, hop, lookup, hx]
  · by_cases hv : i.var < 0
    · simp [Slots.valueOf, outcome?, hop, Slots.inputOf, hv, Except.map]
    · cases hx : inputs[i.var.toNat]? <;>
        simp [Slots.valueOf, outcome?, hop, Slots.inputOf, hv, lookup, hx, Except.map]
  · simp [Slots.valueOf, outcome?, hop]
  · cases hx : s.values[i.left]? <;> simp [Slots.valueOf, outcome?, hop, lookup, hx, Except.map]
  · cases hx : s.values[i.left]? <;> cases hy : s.values[i.right]? <;>
      simp [Slots.valueOf, outcome?, hop, lookup, hx, hy]

theorem outcome?_of_admits {I : Interp α} {inputs : Array α} {read : Nat → Option α} {slot : Nat}
    {i : Instr} (hi : Tape.Admits inputs.size slot i) (h : ∀ a < slot, ∃ x, read a = some x) :
    ∃ r, i.outcome? I inputs read = some r := by
  obtain ⟨op, hop⟩ := hi.op
  unfold outcome?
  cases op with
  | input =>
    obtain ⟨h0, hlt⟩ := hi.var hop
    have hlt' : i.var.toNat < inputs.size := by omega
    simp [hop, Int.not_lt.2 h0, hlt']
  | const => simp [hop]
  | unary u =>
    obtain ⟨x, hx⟩ := h i.left (hi.args _ (by simp [args_unary hop]))
    simp [hop, hx]
  | binary b =>
    obtain ⟨x, hx⟩ := h i.left (hi.args _ (by simp [args_binary hop]))
    obtain ⟨y, hy⟩ := h i.right (hi.args _ (by simp [args_binary hop]))
    simp [hop, hx, hy]

/-- What holds of two outcomes of one instruction: of inputs, of constants, and
of the results of an operator on what it reads. -/
theorem outcome?_rel {β : Type} {I : Interp α} {J : Interp β} {inputs : Array α}
    {inputs' : Array β} {read : Nat → Option α} {read' : Nat → Option β} {i : Instr}
    {R : α → β → Prop}
    (hinput : ∀ (k : Nat) x y, inputs[k]? = some x → inputs'[k]? = some y → R x y)
    (hconst : R (I.const i.imm) (J.const i.imm))
    (hunary : ∀ u x y, i.op? = some (.unary u) → read i.left = some x → read' i.left = some y →
      R (I.unary u x) (J.unary u y))
    (hbinary : ∀ o x y x' y', i.op? = some (.binary o) → read i.left = some x →
      read' i.left = some y → read i.right = some x' → read' i.right = some y' →
      R (I.binary o x x') (J.binary o y y'))
    {a : α} {b : β} {c d : Option Choice} (ha : i.outcome? I inputs read = some (a, c))
    (hb : i.outcome? J inputs' read' = some (b, d)) : R a b := by
  rcases hop : i.op? with _ | op
  · simp [outcome?, hop] at ha
  cases op with
  | input =>
    simp only [outcome?, hop] at ha hb
    split at ha
    · simp at ha
    · rename_i hpos
      simp only [if_neg hpos, Option.map_eq_some_iff, Prod.mk.injEq] at ha hb
      obtain ⟨x, hx, rfl, -⟩ := ha
      obtain ⟨y, hy, rfl, -⟩ := hb
      exact hinput _ x y hx hy
  | const =>
    simp only [outcome?, hop, Option.some.injEq, Prod.mk.injEq] at ha hb
    obtain ⟨rfl, -⟩ := ha
    obtain ⟨rfl, -⟩ := hb
    exact hconst
  | unary u =>
    simp only [outcome?, hop, Option.map_eq_some_iff, Prod.mk.injEq] at ha hb
    obtain ⟨x, hx, rfl, -⟩ := ha
    obtain ⟨y, hy, rfl, -⟩ := hb
    exact hunary u x y hop hx hy
  | binary o =>
    simp only [outcome?, hop, Option.bind_eq_some_iff, Option.map_eq_some_iff,
      Prod.mk.injEq] at ha hb
    obtain ⟨x, hx, x', hx', rfl, -⟩ := ha
    obtain ⟨y, hy, y', hy', rfl, -⟩ := hb
    exact hbinary o x y x' y' hop hx hy hx' hy'

end Instr

/-! ## Evaluation -/

namespace Slots

variable {α : Type} {I : Interp α} {inputs : Array α} {t : Tape}

/-- The first `n` instructions have been executed: their slots hold their
values, and their choices are recorded over those that stood there `before`. -/
structure Done (I : Interp α) (inputs : Array α) (t : Tape) (before : Array Choice) (s : Slots α)
    (n : Nat) : Prop where
  values_size : s.values.size = t.size
  choices_size : s.choices.size = t.size
  slot : ∀ k < n, ∀ i, t.instrs[k]? = some i → ∃ v c,
    i.outcome? I inputs (s.values[·]?) = some (v, c) ∧ s.values[k]? = some v ∧
      ∀ d, before[k]? = some d → s.choices[k]? = some (c.getD d)
  rest : ∀ k ≥ n, s.choices[k]? = before[k]?

theorem Done.step {before : Array Choice} {s : Slots α} {n : Nat} {i : Instr}
    (h : s.Done I inputs t before n) (hwf : t.WellFormed) (hin : inputs.size = t.vars.size)
    (hi : t.instrs[n]? = some i) :
    ∃ v c, s.valueOf I inputs i = .ok (v, c) ∧ (s.write n v c).Done I inputs t before (n + 1) := by
  have hn : n < t.size := (Array.getElem?_eq_some_iff.1 hi).1
  have hread : ∀ a < n, ∃ x, s.values[a]? = some x := fun a ha =>
    ⟨_, Array.getElem?_eq_getElem (show a < s.values.size by rw [h.values_size]; omega)⟩
  obtain ⟨⟨v, c⟩, hv⟩ := Instr.outcome?_of_admits (I := I) (hin ▸ hwf.instr hi) hread
  refine ⟨v, c, Instr.valueOf_eq_ok.2 hv, ?_⟩
  -- What is written at `n` is not read by an instruction up to `n`.
  have hsame : ∀ a < n, (s.write n v c).values[a]? = s.values[a]? := fun a ha =>
    Array.getElem?_setIfInBounds_ne (by omega)
  have hself : (s.write n v c).values[n]? = some v :=
    Array.getElem?_setIfInBounds_self_of_lt (by rw [h.values_size]; exact hn)
  have hchoice : ∀ k, k ≠ n → (s.write n v c).choices[k]? = s.choices[k]? := fun k hk => by
    cases c with
    | none => rfl
    | some c => exact Array.getElem?_setIfInBounds_ne (Ne.symm hk)
  have hout : ∀ k ≤ n, ∀ j, t.instrs[k]? = some j →
      j.outcome? I inputs ((s.write n v c).values[·]?) = j.outcome? I inputs (s.values[·]?) :=
    fun k hk j hj => Instr.outcome?_congr fun a ha =>
      hsame a (Nat.lt_of_lt_of_le ((hwf.instr hj).args a ha) hk)
  refine ⟨by simp [write, h.values_size], ?_, ?_, ?_⟩
  · cases c <;> simp [write, h.choices_size]
  · intro k hk j hj
    rcases Nat.lt_succ_iff_lt_or_eq.1 hk with hlt | rfl
    · obtain ⟨w, d, h1, h2, h3⟩ := h.slot k hlt j hj
      exact ⟨w, d, by rw [hout k (Nat.le_of_lt hlt) j hj, h1], by rw [hsame k hlt, h2],
        by rw [hchoice k (Nat.ne_of_lt hlt)]; exact h3⟩
    · obtain rfl : i = j := by simpa [hi] using hj
      refine ⟨v, c, by rw [hout k (Nat.le_refl k) i hj, hv], hself, fun d hd => ?_⟩
      cases c with
      | none => exact (h.rest k (Nat.le_refl k)).trans hd
      | some c => exact Array.getElem?_setIfInBounds_self_of_lt (by rw [h.choices_size]; exact hn)
  · intro k hk
    rw [hchoice k (by omega), h.rest k (by omega)]

theorem Done.exec {before : Array Choice} (hwf : t.WellFormed)
    (hin : inputs.size = t.vars.size) : ∀ {is : List Instr} {s : Slots α} {n : Nat},
    s.Done I inputs t before n → n ≤ t.size → t.instrs.toList.drop n = is →
      ∃ s', s.exec I inputs n is = (s', .ok ()) ∧ s'.Done I inputs t before t.size
  | [], s, n, h, hn, hd => by
    obtain rfl : n = t.size := Nat.le_antisymm hn (by simpa [Tape.size] using hd)
    exact ⟨s, rfl, h⟩
  | i :: rest, s, n, h, hn, hd => by
    obtain ⟨hi, hd'⟩ := of_drop_eq_cons hd
    have hlt : n < t.size := (Array.getElem?_eq_some_iff.1 hi).1
    obtain ⟨v, c, hv, hstep⟩ := h.step hwf hin hi
    obtain ⟨s', hs', hdone⟩ := hstep.exec hwf hin hlt hd'
    exact ⟨s', by simp only [Slots.exec, hv, hs'], hdone⟩

/-- Executing a valid tape never faults, whatever the slots hold. -/
theorem exec_done (hwf : t.WellFormed) (hin : inputs.size = t.vars.size) {s : Slots α}
    (hv : s.values.size = t.size) (hc : s.choices.size = t.size) :
    ∃ s', s.exec I inputs 0 t.instrs.toList = (s', .ok ()) ∧
      s'.Done I inputs t s.choices t.size :=
  Done.exec hwf hin ⟨hv, hc, by simp, fun _ _ => rfl⟩ (Nat.zero_le _) rfl

end Slots

namespace Tape

variable {α : Type} {I : Interp α} {inputs : Array α} {t : Tape}

/-- One value for each slot, each that of its instruction on the others. -/
structure Means (I : Interp α) (t : Tape) (inputs values : Array α) : Prop where
  size : values.size = t.size
  slot : ∀ {k : Nat} {i : Instr}, t.instrs[k]? = some i →
    (i.outcome? I inputs (values[·]?)).map Prod.fst = values[k]?

theorem Means.outcome {values : Array α} (h : t.Means I inputs values) {k : Nat} {i : Instr}
    (hi : t.instrs[k]? = some i) :
    ∃ v c, values[k]? = some v ∧ i.outcome? I inputs (values[·]?) = some (v, c) := by
  have hk : k < values.size := h.size ▸ (Array.getElem?_eq_some_iff.1 hi).1
  have hv := Array.getElem?_eq_getElem hk
  obtain ⟨⟨v, c⟩, hout, rfl⟩ := Option.map_eq_some_iff.1 ((h.slot hi).trans hv)
  exact ⟨_, c, hv, hout⟩

/-- The evaluator once the tape has been evaluated. -/
def evaluated (I : Interp α) (t : Tape) (inputs : Array α) : Evaluator α :=
  ((Evaluator.new I t).eval inputs t.outputs.size).2

/-- What the slots hold once the tape has been evaluated. -/
def slotValues (I : Interp α) (t : Tape) (inputs : Array α) : Array α :=
  (t.evaluated I inputs).slots.values

/-- Evaluating a valid tape executes all of it and reads the outputs. -/
theorem WellFormed.eval_eq (hwf : t.WellFormed) (hin : inputs.size = t.vars.size) :
    ∃ out, t.eval I inputs = .ok out ∧
      List.Forall₂ (fun o v => (t.slotValues I inputs)[o]? = some v) t.outputs.toList out ∧
      (t.evaluated I inputs).slots.Done I inputs t (Array.replicate t.size .unknown) t.size := by
  obtain ⟨s, hs, hdone⟩ := Slots.exec_done (I := I) (s := .blank I t) hwf hin
    (by simp [Slots.blank]) (by simp [Slots.blank])
  obtain ⟨out, hout⟩ := lookupAll_of_forall_lt s.values t.outputs.toList
    fun o ho => by rw [hdone.values_size]; exact hwf.output o (by simpa using ho)
  have heval : (Evaluator.new I t).eval inputs t.outputs.size = (.ok out, ⟨I, t, s⟩) := by
    simp only [Evaluator.eval, Evaluator.new, checkArity, hin, ne_eq, not_true_eq_false, if_false,
      hs, hout]
  refine ⟨out, by simp only [eval, heval], ?_, ?_⟩
  · simp only [slotValues, evaluated, heval]
    exact lookupAll_eq_ok.1 hout
  · simp only [evaluated, heval]
    exact hdone

theorem means_of_done {before : Array Choice} {s : Slots α}
    (h : s.Done I inputs t before t.size) : t.Means I inputs s.values := by
  refine ⟨h.values_size, fun {k i} hi => ?_⟩
  obtain ⟨v, c, h1, h2, -⟩ := h.slot k (Array.getElem?_eq_some_iff.1 hi).1 i hi
  rw [h1, h2]
  rfl

theorem WellFormed.means (hwf : t.WellFormed) (hin : inputs.size = t.vars.size) :
    t.Means I inputs (t.slotValues I inputs) := by
  obtain ⟨_, _, _, hdone⟩ := hwf.eval_eq (I := I) hin
  exact means_of_done hdone

/-- A valid tape has one meaning: by induction on slots, each is computed from
those before. -/
theorem Means.unique (hwf : t.WellFormed) {v w : Array α} (hv : t.Means I inputs v)
    (hw : t.Means I inputs w) : v = w := by
  have key : ∀ k : Nat, v[k]? = w[k]? := by
    intro k
    induction k using Nat.strongRecOn with
    | _ k ih =>
      rcases hi : t.instrs[k]? with _ | i
      · have hk : t.size ≤ k := by simpa [Tape.size] using hi
        rw [Array.getElem?_eq_none (hv.size ▸ hk), Array.getElem?_eq_none (hw.size ▸ hk)]
      · rw [← hv.slot hi, ← hw.slot hi,
          Instr.outcome?_congr fun a ha => ih a ((hwf.instr hi).args a ha)]
  exact Array.ext_getElem? key

/-- Two evaluations of a valid tape side by side: what every instruction passes
on from its operands to its values holds of the values in every slot. -/
theorem WellFormed.slots_rel {β : Type} {J : Interp β} {inputs' : Array β} {R : α → β → Prop}
    (hwf : t.WellFormed) (hin : inputs.size = t.vars.size) (hin' : inputs'.size = t.vars.size)
    (hstep : ∀ (k : Nat) (i : Instr) (a : α) (b : β) (c d : Option Choice), t.instrs[k]? = some i →
      (t.slotValues I inputs)[k]? = some a → (t.slotValues J inputs')[k]? = some b →
      i.outcome? I inputs ((t.slotValues I inputs)[·]?) = some (a, c) →
      i.outcome? J inputs' ((t.slotValues J inputs')[·]?) = some (b, d) →
      (∀ j ∈ i.args, ∀ x y, (t.slotValues I inputs)[j]? = some x →
        (t.slotValues J inputs')[j]? = some y → R x y) → R a b) :
    ∀ (k : Nat) (x : α) (y : β), (t.slotValues I inputs)[k]? = some x →
      (t.slotValues J inputs')[k]? = some y → R x y := by
  have hI := hwf.means (I := I) hin
  have hJ := hwf.means (I := J) hin'
  intro k
  induction k using Nat.strongRecOn with
  | _ k ih =>
    intro x y hx hy
    have hk : k < t.size := hI.size ▸ (Array.getElem?_eq_some_iff.1 hx).1
    have hi : t.instrs[k]? = some t.instrs[k] := Array.getElem?_eq_getElem hk
    obtain ⟨a, c, ha, hout⟩ := hI.outcome hi
    obtain ⟨b, d, hb, hout'⟩ := hJ.outcome hi
    obtain rfl : a = x := by simpa [hx] using ha.symm
    obtain rfl : b = y := by simpa [hy] using hb.symm
    exact hstep k _ a b c d hi hx hy hout hout' fun j hj => ih j ((hwf.instr hi).args j hj)

theorem WellFormed.eval_rel {β : Type} {J : Interp β} {inputs' : Array β} {R : α → β → Prop}
    (hwf : t.WellFormed) (hin : inputs.size = t.vars.size) (hin' : inputs'.size = t.vars.size)
    (hslots : ∀ (k : Nat) (x : α) (y : β), (t.slotValues I inputs)[k]? = some x →
      (t.slotValues J inputs')[k]? = some y → R x y) :
    ∃ out out', t.eval I inputs = .ok out ∧ t.eval J inputs' = .ok out' ∧
      List.Forall₂ R out out' := by
  obtain ⟨out, hout, hall, -⟩ := hwf.eval_eq (I := I) hin
  obtain ⟨out', hout', hall', -⟩ := hwf.eval_eq (I := J) hin'
  refine ⟨out, out', hout, hout', (forall₂_comp hall.flip hall').imp ?_⟩
  intro x y ⟨k, hx, hy⟩
  exact hslots k x y hx hy

end Tape

end ScalarField
