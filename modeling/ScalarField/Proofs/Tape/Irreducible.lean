/-
What simplifying leaves is as small as its choices allow
(`Tape.simplify_leaves`): some instructions of the tape in their order, all of
them needed and none of them a choice that is resolved. Where no choice is
resolved nothing is forwarded, and it is the tape cut down to the slots that are
needed.

So a tape that has nothing to simplify simplifies to itself
(`Tape.WellFormed.simplify_self`): every slot is an output or an operand, and no
choice is resolved. Going down from the last slot, every slot is needed then, and
the slots keep their numbers.
-/
import Mathlib.Data.List.Sort
import ScalarField.Proofs.Tape.Restriction

namespace ScalarField

namespace Tape

/-- No instruction that makes a choice has it resolved. -/
def Unresolved (t : Tape) (choices : List Choice) : Prop :=
  ∀ (k : Nat) (i : Instr) (c : Choice), t.instrs[k]? = some i → i.isChoice = true →
    choices[k]? = some c → c.isResolved = false

instance (t : Tape) (choices : List Choice) : Decidable (t.Unresolved choices) :=
  decidable_of_iff (∀ (k : Nat) (h : k < t.instrs.size), t.instrs[k].isChoice = true →
      ∀ c ∈ choices[k]?, c.isResolved = false)
    ⟨fun h k i c hi hch hc => by
      obtain ⟨hk, rfl⟩ := Array.getElem?_eq_some_iff.1 hi
      exact h k hk hch c hc,
    fun h k hk hch c hc => h k _ c (Array.getElem?_eq_getElem hk) hch hc⟩

namespace Forwarding

variable {t s : Tape} {choices : List Choice} {f : Forwarding} {src : List Nat}

theorem Forwards.unresolved (h : f.Forwards t choices t.size) (hwf : t.WellFormed)
    (hlen : choices.length = t.size) {k : Nat} {i : Instr} {c : Choice}
    (hi : t.instrs[k]? = some i) (hch : i.isChoice = true) (hself : f.forward[k]? = some k)
    (hc : choices[k]? = some c) : c.isResolved = false := by
  have hk : k < t.size := (Array.getElem?_eq_some_iff.1 hi).1
  obtain ⟨args, hargs, hall⟩ := h.args hk hi
  have htarget := h.target hk hi hc hargs
  obtain ⟨o, ho⟩ := isChoice_binary hch
  have hbelow : ∀ {a b : Nat}, a ∈ i.args → f.forward[a]? = some b → b < k := fun ha hab =>
    Nat.lt_of_le_of_lt (h.le hwf hlen _ _ hab) ((hwf.instr hi).args _ ha)
  have hlr := Instr.args_binary ho
  rw [hlr] at hall hbelow
  obtain _ | ⟨hl, _ | ⟨hr, _ | _⟩⟩ := hall
  -- A resolved choice forwards to an operand, which lies before.
  cases c with
  | left =>
    have hlt := hbelow (by simp) hl
    simp [hself, Forwarding.target, hch] at htarget
    omega
  | right =>
    have hlt := hbelow (by simp) hr
    simp [hself, Forwarding.target, hch] at htarget
    omega
  | unknown | both | other _ => rfl

/-- Nothing is forwarded if no choice is resolved. -/
theorem Forwards.idle (h : f.Forwards t choices t.size) (hlen : choices.length = t.size)
    (hun : t.Unresolved choices) : f.Idle := by
  intro a b hab
  have ha : a < t.size := h.forward_size ▸ (Array.getElem?_eq_some_iff.1 hab).1
  have hi : t.instrs[a]? = some t.instrs[a] := Array.getElem?_eq_getElem ha
  rcases h.cases hlen hi with hself | ⟨hch, hc, -⟩ | ⟨hch, hc, -⟩
  · exact Option.some.inj (hab.symm.trans hself)
  · cases hun a _ _ hi hch hc
  · cases hun a _ _ hi hch hc

end Forwarding

/-- **A tape with nothing to simplify simplifies to itself.** -/
theorem WellFormed.simplify_self {t : Tape} (hwf : t.WellFormed) (ht : t.size ≤ 2 ^ 32)
    {choices : List Choice} (hlen : choices.length = t.size) (hused : t.AllUsed)
    (hun : t.Unresolved choices) : t.simplify choices = .ok t := by
  obtain ⟨s, f, src, hs, hfwd, hred, hess⟩ := hwf.simplify_essential hlen ht
  have hidle := hfwd.idle hlen hun
  have hsrc : src = List.range t.size := by
    refine hess.sorted.eq_of_mem_iff List.pairwise_lt_range fun j => ?_
    rw [List.mem_range]
    refine ⟨fun hj => ?_, fun hj => hred.mem_src hidle (hwf.needs_of_allUsed hused hj)⟩
    obtain ⟨m, hm⟩ := List.mem_iff_getElem?.1 hj
    exact (hred.instr hm).1
  rw [hsrc] at hred
  rw [hs, hred.eq_restrict hidle List.nodup_range, Forwarding.restrict_range hwf]

/-- `s` is what is left of `t` without its resolved choices: instructions of the
slots `src` in their order, with nothing changed but the operands, none of them
a choice that is resolved and all of them needed. -/
structure Leaves (t : Tape) (choices : List Choice) (s : Tape) (src : List Nat) : Prop where
  vars : s.vars = t.vars
  outputs : s.outputs.size = t.outputs.size
  ascending : src.Pairwise (· < ·)
  length : src.length = s.size
  instr : ∀ {m j : Nat}, src[m]? = some j → ∃ i i', t.instrs[j]? = some i ∧
    s.instrs[m]? = some i' ∧ i'.code = i.code ∧ i'.imm = i.imm ∧ i'.var = i.var
  unresolved : ∀ j ∈ src, ∀ i c, t.instrs[j]? = some i → i.isChoice = true →
    choices[j]? = some c → c.isResolved = false
  needed : ∀ m < s.size, s.Needs m

theorem Forwarding.Reduces.leaves {t s : Tape} {choices : List Choice} {f : Forwarding}
    {src : List Nat} (h : Reduces t f s src) (hess : Essential f s src) (hwf : t.WellFormed)
    (hlen : choices.length = t.size) (hfwd : Forwards t choices f t.size) :
    t.Leaves choices s src where
  vars := h.vars
  outputs := h.outputs_size
  ascending := hess.sorted
  length := h.length
  instr hm := by
    obtain ⟨-, i, args, hi, hs, -⟩ := h.instr hm
    exact ⟨i, _, hi, hs, withArgs_code i args, withArgs_imm i args, withArgs_var i args⟩
  unresolved j hj i c hi hch hc := hfwd.unresolved hwf hlen hi hch (hess.fixed j hj) hc
  needed m hm := (h.wellFormed hwf).needs_of_allUsed hess.used hm

/-- **Simplifying leaves a valid tape with nothing in it to spare.** By any
choices, one for each position, a valid tape simplifies to a valid tape with the
same variables and as many outputs. Its instructions are some of those of the
tape, in their order and with operands numbered anew; none is a choice marked
left or right, and the outputs need every one. If no choice is marked left or
right, they are all that the outputs of the tape need, and nothing else has
changed. -/
theorem simplify_leaves (t : Tape) (choices : List Choice) (hvalid : t.validate = .ok ())
    (ht : t.size ≤ 2 ^ 32) (hlen : choices.length = t.size) :
    ∃ s src, t.simplify choices = .ok s ∧ s.validate = .ok () ∧ t.Leaves choices s src ∧
      (t.Unresolved choices → (∀ j, j ∈ src ↔ t.Needs j) ∧ s = t.restrict src) := by
  obtain ⟨-, hwf⟩ := validate_eq_ok.1 hvalid
  obtain ⟨s, f, src, hs, hfwd, hred, hess⟩ := hwf.simplify_essential hlen ht
  have hleaves := hred.leaves hess hwf hlen hfwd
  refine ⟨s, src, hs, hred.validate hvalid, hleaves, fun hun => ?_⟩
  have hidle := hfwd.idle hlen hun
  have hnodup : src.Nodup := hess.sorted.imp Nat.ne_of_lt
  exact ⟨fun j => hred.mem_src_iff hidle hleaves.needed, hred.eq_restrict hidle hnodup⟩

/-- `max (min x y) y` and `min x y`, with a product that nothing reads. -/
def deadProduct : Tape where
  instrs := #[{ code := Op.input.code, var := 0 }, { code := Op.input.code, var := 1 },
    { code := BinaryOp.min.code, left := 0, right := 1 },
    { code := BinaryOp.mul.code, left := 2, right := 1 },
    { code := BinaryOp.max.code, left := 2, right := 1 }]
  outputs := #[4, 2]
  vars := #[utf8 "x", utf8 "y"]

/-- With the `min` marked left, `x`, `y` and the `max` of both are left. With
nothing marked, all but the product is. -/
theorem simplify_leaves_deadProduct :
    deadProduct.validate = .ok () ∧
      (∃ s src, deadProduct.simplify [.unknown, .unknown, .left, .right, .both] = .ok s ∧
        s.validate = .ok () ∧
        deadProduct.Leaves [.unknown, .unknown, .left, .right, .both] s src ∧ s.size = 3) ∧
      ∃ src, deadProduct.simplify [.unknown, .unknown, .both, .left, .unknown] =
          .ok (deadProduct.restrict src) ∧ ∀ j, j ∈ src ↔ deadProduct.Needs j := by
  have hvalid : deadProduct.validate = .ok () := by decide +kernel
  refine ⟨hvalid, ?_, ?_⟩
  · obtain ⟨s, src, hs, hsv, hleaves, -⟩ := simplify_leaves deadProduct
      [.unknown, .unknown, .left, .right, .both] hvalid (by decide) rfl
    have hsize : (deadProduct.simplify [.unknown, .unknown, .left, .right, .both]).toOption.map
        Tape.size = some 3 := by decide +kernel
    refine ⟨s, src, hs, hsv, hleaves, ?_⟩
    rw [hs] at hsize
    exact Option.some.inj hsize
  · obtain ⟨s, src, hs, -, -, hun⟩ := simplify_leaves deadProduct
      [.unknown, .unknown, .both, .left, .unknown] hvalid (by decide) rfl
    obtain ⟨hneeds, rfl⟩ := hun (by decide +kernel)
    exact ⟨src, hs, hneeds⟩

end Tape

end ScalarField
