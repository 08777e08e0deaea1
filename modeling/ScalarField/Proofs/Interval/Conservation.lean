/-
Simplifying a tape over a region changes no interval over it
(`Tape.simplifyOver_keeps_intervals`), where the bounds of all slots are in
order.

Each instruction that is kept traces back to one of the tape. It has the same
interval, bit for bit, and makes the same choice, which is to keep both
operands. What is not kept had its choice resolved, and then the operand picked
has the very interval of the result, or is not needed by the outputs.
-/
import ScalarField.Proofs.Interval.Fixpoint

namespace ScalarField

/-! ## Choices -/

theorem Interval.choice_cases {o : BinaryOp} (a b : Interval) (ho : o.isChoice = true) :
    choice o a b = .left ∨ choice o a b = .right ∨ choice o a b = .both := by
  cases o with
  | min =>
    simp only [choice, below]
    split_ifs <;> simp
  | max =>
    simp only [choice, above]
    split_ifs <;> simp
  | and | or =>
    simp only [choice]
    split_ifs <;> simp
  | _ => cases ho

theorem Interval.choice_eq_both {o : BinaryOp} {a b : Interval} (ho : o.isChoice = true)
    (hopen : (choice o a b).isResolved = false) : choice o a b = .both := by
  rcases choice_cases a b ho with h | h | h
  · rw [h] at hopen
    cases hopen
  · rw [h] at hopen
    cases hopen
  · exact h

/-! ## Tapes -/

namespace Tape

variable {t s : Tape} {region : Array Interval}

theorem eval_of_choicesOver {out : List Interval} {cs : List Choice}
    (h : t.choicesOver region = .ok (out, cs)) : t.eval .interval region = .ok out := by
  unfold choicesOver at h
  split at h
  · rename_i out' e heval
    obtain ⟨rfl, -⟩ : out' = out ∧ _ := by simpa using h
    exact congrArg Prod.fst heval
  · cases h

theorem WellFormed.choicesOver_both (hwf : t.WellFormed) (hvars : region.size = t.vars.size)
    {out : List Interval} {cs : List Choice} (hcs : t.choicesOver region = .ok (out, cs))
    {k : Nat} {i : Instr} (hi : t.instrs[k]? = some i) (hch : i.isChoice = true)
    (hopen : ∀ c, cs[k]? = some c → c.isResolved = false) : cs[k]? = some .both := by
  obtain ⟨_, _, hcs', -, hslot⟩ := hwf.choicesOver_outcome hvars
  obtain ⟨rfl, rfl⟩ : _ ∧ _ := by simpa [hcs] using hcs'.symm
  obtain ⟨v, c, hout, hc⟩ := hslot k i hi
  obtain ⟨o, hop⟩ := Forwarding.isChoice_binary hch
  simp only [Instr.outcome?, hop, Option.bind_eq_some_iff, Option.map_eq_some_iff,
    Prod.mk.injEq] at hout
  obtain ⟨a, -, b, -, -, rfl⟩ := hout
  have ho : o.isChoice = true := by simpa [Instr.isChoice, hop, Op.isChoice] using hch
  rw [hc]
  exact congrArg some (Interval.choice_eq_both ho (hopen _ hc))

/-- If forwarding changes no value, each slot of a reduced tape holds what the
slot holds that it traces back to. -/
theorem Forwarding.Reduces.slotValues_eq {α : Type} {I : Interp α} {inputs : Array α}
    {f : Forwarding} {src : List Nat} (h : Reduces t f s src) (hwf : t.WellFormed)
    (hin : inputs.size = t.vars.size)
    (hval : ∀ a b : Nat, f.forward[a]? = some b →
      (t.slotValues I inputs)[b]? = (t.slotValues I inputs)[a]?)
    {m j : Nat} (hm : src[m]? = some j) :
    (s.slotValues I inputs)[m]? = (t.slotValues I inputs)[j]? := by
  have hswf := h.wellFormed hwf
  obtain ⟨values, hmeans, hread⟩ := h.means (hwf.means (I := I) hin) hval
  obtain rfl : values = s.slotValues I inputs := hmeans.unique hswf (hswf.means (h.vars ▸ hin))
  exact hread hm

/-- **Simplifying over a region changes no interval over it.** A valid tape is
simplified over a region where every slot has its bounds in order. Over the
same region the simplified tape gives the same results, bit for bit. Its slots
trace back to slots of the tape, in order: to the ones that resolved choices
forward to and the outputs need. They hold the intervals of these slots, and
the choices made there are made again; each is to keep both operands. -/
theorem simplifyOver_keeps_intervals (t : Tape) (region : Array Interval)
    (hvalid : t.validate = .ok ()) (ht : t.size ≤ 2 ^ 32) (hvars : region.size = t.vars.size)
    (hord : ∀ a ∈ t.slotValues .interval region, a.lo.le a.hi = true) :
    ∃ out cs s cs' f src, t.choicesOver region = .ok (out, cs) ∧
      t.simplifyOver region = .ok (s, cs) ∧ s.choicesOver region = .ok (out, cs') ∧
      Forwarding.Forwards t cs f t.size ∧ Forwarding.Reduces t f s src ∧
      Forwarding.Essential f s src ∧
      ∀ (m : Nat) (i : Instr), s.instrs[m]? = some i → ∃ j i', src[m]? = some j ∧
        t.instrs[j]? = some i' ∧ i'.op? = i.op? ∧
        (s.slotValues .interval region)[m]? = (t.slotValues .interval region)[j]? ∧
        cs'[m]? = cs[j]? ∧ (i.isChoice = true → cs'[m]? = some .both) := by
  obtain ⟨-, hwf⟩ := validate_eq_ok.1 hvalid
  obtain ⟨out, cs, hcs, hlen, hdecided⟩ := hwf.choicesOver_eq hvars
  obtain ⟨s, f, src, hs, hfwd, hred, hess⟩ := hwf.simplify_essential hlen ht
  have hval := hfwd.value hwf hlen
    (hwf.choicesHold_intervals hvars hdecided (resolvesInOrder_of_le hord))
  obtain ⟨out', cs', hcs', -, hsame⟩ := hred.choicesOver_eq hwf hvars hval hcs
  obtain rfl : out' = out := by
    have heval := hred.eval_eq hwf hvars hval
    simpa [eval_of_choicesOver hcs, eval_of_choicesOver hcs'] using heval
  refine ⟨out', cs, s, cs', f, src, hcs, by simp only [simplifyOver, hcs, hs], hcs', hfwd, hred,
    hess, fun m i hi => ?_⟩
  have hm : m < src.length := hred.length ▸ (Array.getElem?_eq_some_iff.1 hi).1
  have hsrc := List.getElem?_eq_getElem hm
  obtain ⟨-, i', args, hi', hs', -⟩ := hred.instr hsrc
  obtain rfl : Forwarding.withArgs i' args = i := by simpa [hs'] using hi
  refine ⟨src[m], i', hsrc, hi', (Forwarding.withArgs_op? i' args).symm,
    hred.slotValues_eq hwf hvars hval hsrc, hsame hsrc, fun hch => ?_⟩
  have hch' : i'.isChoice = true := by
    simpa [Instr.isChoice, Forwarding.withArgs_op?] using hch
  rw [hsame hsrc]
  exact hwf.choicesOver_both hvars hcs hi' hch'
    fun c => hfwd.unresolved hwf hlen hi' hch' (hess.fixed _ (List.getElem_mem hm))

/-- `min (max (min x y) (-1)) z`. -/
def boundedMinimum : Tape where
  instrs := #[{ code := Op.input.code, var := 0 }, { code := Op.input.code, var := 1 },
    { code := BinaryOp.min.code, left := 0, right := 1 },
    { code := Op.const.code, imm := .ofInt (-1) },
    { code := BinaryOp.max.code, left := 2, right := 3 }, { code := Op.input.code, var := 2 },
    { code := BinaryOp.min.code, left := 4, right := 5 }]
  outputs := #[6]
  vars := #[utf8 "x", utf8 "y", utf8 "z"]

/-- With `x` from 0 to 2, `y` from 1 to 3 and `z` from -1 to 1 the `max` is
resolved to the inner `min`. Both `min` are kept, the outer one with the inner
one as its operand. -/
theorem simplifyOver_keeps_intervals_boundedMinimum :
    (∃ out cs s cs', boundedMinimum.choicesOver
          #[⟨.ofInt 0, .ofInt 2⟩, ⟨.ofInt 1, .ofInt 3⟩, ⟨.ofInt (-1), .ofInt 1⟩] = .ok (out, cs) ∧
        boundedMinimum.simplifyOver
          #[⟨.ofInt 0, .ofInt 2⟩, ⟨.ofInt 1, .ofInt 3⟩, ⟨.ofInt (-1), .ofInt 1⟩] = .ok (s, cs) ∧
        s.choicesOver
          #[⟨.ofInt 0, .ofInt 2⟩, ⟨.ofInt 1, .ofInt 3⟩, ⟨.ofInt (-1), .ofInt 1⟩] = .ok (out, cs')) ∧
      (boundedMinimum.simplifyOver
          #[⟨.ofInt 0, .ofInt 2⟩, ⟨.ofInt 1, .ofInt 3⟩, ⟨.ofInt (-1), .ofInt 1⟩]).toOption.map
        (fun r => (r.1.size, r.2)) =
        some (5, [.unknown, .unknown, .both, .unknown, .left, .unknown, .both]) := by
  obtain ⟨out, cs, s, cs', f, src, hcs, hs, hcs', -⟩ := simplifyOver_keeps_intervals boundedMinimum
    #[⟨.ofInt 0, .ofInt 2⟩, ⟨.ofInt 1, .ofInt 3⟩, ⟨.ofInt (-1), .ofInt 1⟩] (by decide +kernel)
    (by decide +kernel) (by decide +kernel) (by decide +kernel)
  exact ⟨⟨out, cs, s, cs', hcs, hs, hcs'⟩, by decide +kernel⟩

end Tape

end ScalarField
