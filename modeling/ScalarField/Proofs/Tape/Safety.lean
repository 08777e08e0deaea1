/-
A valid tape is safe to use: whatever is done with it, no table is looked at or
written out of range and no instruction without an operator is met
(`Tape.uses_in_range`).

Simplifying is done here with every access checked, as the scan of a tape is in
CheckedScan and evaluating in Reuse. Forwarded slots and new slot numbers are
kept in 32 bits; on any valid tape they stay below its size
(`Tape.Forwarding.Bounded`), and on tapes whose slots fit in 32 bits the outcome
is that of `Tape.simplify`.
-/
import ScalarField.Proofs.Tape.CheckedScan
import ScalarField.Proofs.Tape.Rewrite

namespace ScalarField

namespace Tape

namespace Forwarding

/-- Enters the instructions that start at `slot`. -/
def enterChecked (f : Forwarding) (choices : Array Choice) :
    Nat → List Instr → Except Fault Forwarding
  | _, [] => pure f
  | slot, i :: rest => do
    let operands ← lookupAll f.forward i.args
    let args ← update f.args slot operands
    let c ← lookup choices slot
    let forward ← update f.forward slot (target (slotWord slot) i c operands)
    enterChecked ⟨forward, args⟩ choices (slot + 1) rest

/-- Adds the operands of every instruction below `n` that is in the set, the
highest one first. -/
def sweepChecked (f : Forwarding) : Nat → Bitmap → Except Fault Bitmap
  | 0, live => pure live
  | n + 1, live => do
    if ← live.test (.ofNat n) then
      let operands ← lookup f.args n
      let live ← mark live operands
      f.sweepChecked n live
    else f.sweepChecked n live

/-- Keeps the instructions in the set, from `slot` on. -/
def keepChecked (f : Forwarding) (live : Bitmap) (k : Kept) : Nat → List Instr → Except Fault Kept
  | _, [] => pure k
  | slot, i :: rest => do
    if ← live.test (.ofNat slot) then
      let operands ← lookup f.args slot
      let operands ← lookupAll k.numbers operands
      let numbers ← update k.numbers slot (slotWord k.instrs.size)
      f.keepChecked live ⟨numbers, k.instrs.push (withArgs i operands)⟩ (slot + 1) rest
    else f.keepChecked live k (slot + 1) rest

/-- The tape that is left once slots are forwarded. -/
def finishChecked (f : Forwarding) (t : Tape) : Except Fault Tape := do
  let outputs ← lookupAll f.forward t.outputs.toList
  let roots ← mark (.zeros t.size) outputs
  let live ← f.sweepChecked t.size roots
  let k ← f.keepChecked live ⟨Array.replicate t.size 0, #[]⟩ 0 t.instrs.toList
  let outputs ← lookupAll k.numbers outputs
  pure ⟨k.instrs, outputs.toArray, t.vars⟩

end Forwarding

/-- Simplifies a tape by one choice for each position. -/
def simplifyChecked (t : Tape) (choices : List Choice) : Except TapeError Tape :=
  if choices.length ≠ t.size then .error (.choiceCount choices.length t.size)
  else
    match Forwarding.enterChecked ⟨Array.replicate t.size 0, Array.replicate t.size []⟩
        choices.toArray 0 t.instrs.toList >>= (·.finishChecked t) with
    | .error e => .error (.fault e)
    | .ok s => .ok s

/-! ## Bounds -/

namespace Forwarding

/-- A table for each slot, and only slots in them. -/
structure Bounded (n : Nat) (f : Forwarding) : Prop where
  forward_size : f.forward.size = n
  args_size : f.args.size = n
  forward : ∀ {k b : Nat}, f.forward[k]? = some b → b < n
  args : ∀ {k : Nat} {operands : List Nat}, f.args[k]? = some operands → ∀ a ∈ operands, a < n

theorem bounded_blank (n : Nat) : Bounded n ⟨Array.replicate n 0, Array.replicate n []⟩ := by
  refine ⟨by simp, by simp, fun {k b} hb => ?_, fun {k operands} hoperands => ?_⟩
  · obtain ⟨hk, rfl⟩ : k < n ∧ 0 = b := by simpa [Array.getElem?_replicate] using hb
    exact Nat.zero_lt_of_lt hk
  · obtain ⟨-, rfl⟩ : k < n ∧ [] = operands := by
      simpa [Array.getElem?_replicate] using hoperands
    simp

theorem target_lt {n slot : Nat} {i : Instr} {c : Choice} {operands : List Nat} (hslot : slot < n)
    (hoperands : ∀ a ∈ operands, a < n) : target slot i c operands < n := by
  have hget : ∀ j, operands.getD j 0 < n := by
    intro j
    rw [List.getD_eq_getElem?_getD]
    rcases hj : operands[j]? with _ | a
    · exact Nat.lt_of_le_of_lt (Nat.zero_le slot) hslot
    · exact hoperands a (List.mem_of_getElem? hj)
  unfold target
  split
  · split
    · exact hget 0
    · exact hget 1
    · exact hslot
  · exact hslot

theorem Bounded.lookupAll {n : Nat} {f : Forwarding} (h : f.Bounded n) {slots : List Nat}
    (hslots : ∀ s ∈ slots, s < n) :
    ∃ operands, ScalarField.lookupAll f.forward slots = .ok operands ∧ ∀ a ∈ operands, a < n := by
  obtain ⟨operands, hall⟩ := lookupAll_of_forall_lt f.forward slots
    fun s hs => h.forward_size.symm ▸ hslots s hs
  refine ⟨operands, hall, fun a ha => ?_⟩
  obtain ⟨s, -, hs⟩ := exists_of_mem_right (lookupAll_eq_ok.1 hall) ha
  exact h.forward hs

theorem Bounded.step {n slot : Nat} {f : Forwarding} {i : Instr} {c : Choice} {operands : List Nat}
    (h : f.Bounded n) (hslot : slot < n) (hoperands : ∀ a ∈ operands, a < n) :
    Bounded n ⟨f.forward.setIfInBounds slot (target (slotWord slot) i c operands),
      f.args.setIfInBounds slot operands⟩ := by
  refine ⟨by simp [h.forward_size], by simp [h.args_size], fun {k b} hb => ?_,
    fun {k bs} hbs => ?_⟩
  · rcases getElem?_setIfInBounds_cases hb with rfl | hb
    · exact target_lt (Nat.lt_of_le_of_lt (slotWord_le slot) hslot) hoperands
    · exact h.forward hb
  · rcases getElem?_setIfInBounds_cases hbs with rfl | hbs
    · exact hoperands
    · exact h.args hbs

theorem Bounded.enter {t : Tape} (hwf : t.WellFormed) {choices : Array Choice}
    (hchoices : choices.size = t.size) : ∀ {is : List Instr} {f : Forwarding} {slot : Nat},
    f.Bounded t.size → t.instrs.toList.drop slot = is →
      ∃ f', f.enterChecked choices slot is = .ok f' ∧ f'.Bounded t.size
  | [], f, _, h, _ => ⟨f, rfl, h⟩
  | i :: rest, f, slot, h, hd => by
    obtain ⟨hi, hd'⟩ := of_drop_eq_cons hd
    have hslot : slot < t.size := (Array.getElem?_eq_some_iff.1 hi).1
    obtain ⟨operands, hall, hoperands⟩ := h.lookupAll fun a ha =>
      Nat.lt_trans ((hwf.instr hi).args a ha) hslot
    rw [enterChecked, hall, ok_bind, update_eq_ok (h.args_size.symm ▸ hslot), ok_bind,
      lookup_of_lt (hchoices.symm ▸ hslot), ok_bind, update_eq_ok (h.forward_size.symm ▸ hslot),
      ok_bind]
    exact (h.step hslot hoperands).enter hwf hchoices hd'

theorem Bounded.sweep {m : Nat} {f : Forwarding} (h : f.Bounded m) (hm : m ≤ 2 ^ 64) :
    ∀ {n : Nat} {live : Bitmap}, n ≤ m → live.Covers m →
      ∃ live', f.sweepChecked n live = .ok live' ∧ live'.Covers m
  | 0, live, _, hlive => ⟨live, rfl, hlive⟩
  | n + 1, live, hn, hlive => by
    obtain ⟨b, hb⟩ := Bitmap.test_of_covers hlive hn hm
    rw [sweepChecked, hb, ok_bind]
    cases b with
    | false => exact h.sweep hm (Nat.le_of_lt hn) hlive
    | true =>
      have hargs : n < f.args.size := h.args_size.symm ▸ hn
      obtain ⟨live₁, hmark, hlive₁, -⟩ :=
        mark_eq hm hlive (h.args (Array.getElem?_eq_getElem hargs))
      rw [if_pos rfl, lookup_of_lt hargs, ok_bind, hmark, ok_bind]
      exact h.sweep hm (Nat.le_of_lt hn) hlive₁

theorem Bounded.keep {t : Tape} {f : Forwarding} (h : f.Bounded t.size) (ht : t.size ≤ 2 ^ 64)
    {live : Bitmap} (hlive : live.Covers t.size) : ∀ {is : List Instr} {k : Kept} {slot : Nat},
    k.numbers.size = t.size → t.instrs.toList.drop slot = is →
      ∃ k', f.keepChecked live k slot is = .ok k' ∧ k'.numbers.size = t.size
  | [], k, _, hk, _ => ⟨k, rfl, hk⟩
  | i :: rest, k, slot, hk, hd => by
    obtain ⟨hi, hd'⟩ := of_drop_eq_cons hd
    have hslot : slot < t.size := (Array.getElem?_eq_some_iff.1 hi).1
    obtain ⟨b, hb⟩ := Bitmap.test_of_covers hlive hslot ht
    rw [keepChecked, hb, ok_bind]
    cases b with
    | false => exact h.keep ht hlive hk hd'
    | true =>
      have hargs : slot < f.args.size := h.args_size.symm ▸ hslot
      obtain ⟨operands, hall⟩ := lookupAll_of_forall_lt k.numbers f.args[slot] fun a ha =>
        hk.symm ▸ h.args (Array.getElem?_eq_getElem hargs) a ha
      rw [if_pos rfl, lookup_of_lt hargs, ok_bind, hall, ok_bind, update_eq_ok (hk.symm ▸ hslot),
        ok_bind]
      exact h.keep ht hlive (by simpa using hk) hd'

/-- What is left of a tape is found without a look out of range. -/
theorem Bounded.finish {t : Tape} {f : Forwarding} (h : f.Bounded t.size) (hwf : t.WellFormed)
    (ht : t.size ≤ 2 ^ 63) : ∃ s, f.finishChecked t = .ok s := by
  have ht64 : t.size ≤ 2 ^ 64 := Nat.le_trans ht (by decide)
  obtain ⟨outputs, houtputs, hlt⟩ := h.lookupAll (show ∀ o ∈ t.outputs.toList, o < t.size from
    fun o ho => hwf.output o (by simpa using ho))
  obtain ⟨roots, hroots, hcovers, -⟩ := mark_eq ht64 (Bitmap.zeros_covers ht) hlt
  obtain ⟨live, hlive, hcovers'⟩ := h.sweep ht64 (Nat.le_refl _) hcovers
  obtain ⟨k, hk, hnumbers⟩ := h.keep ht64 hcovers' (k := ⟨Array.replicate t.size 0, #[]⟩)
    (by simp) List.drop_zero
  obtain ⟨numbers, hnumbers'⟩ := lookupAll_of_forall_lt k.numbers outputs
    fun o ho => hnumbers.symm ▸ hlt o ho
  exact ⟨_, by rw [finishChecked, houtputs, ok_bind, hroots, ok_bind, hlive, ok_bind, hk, ok_bind,
    hnumbers', ok_bind]; rfl⟩

/-! ## Numbers that fit -/

/-- Instructions entered in tables that have their size from the start. -/
structure Prefills (n : Nat) (f g : Forwarding) : Prop where
  forward : f.forward = g.forward
  args : Filled n f.args g.args

theorem Prefills.step {n b : Nat} {f g : Forwarding} {operands : List Nat} (h : Prefills n f g)
    (hn : n < f.args.size) :
    Prefills (n + 1) ⟨f.forward.setIfInBounds n b, f.args.setIfInBounds n operands⟩
      ⟨g.forward.setIfInBounds n b, g.args.push operands⟩ :=
  ⟨by rw [h.forward], h.args.push hn operands⟩

theorem Prefills.enter {choices : List Choice} :
    ∀ {is : List Instr} {f g f' : Forwarding} {slot : Nat}, Prefills slot f g →
      slot + is.length ≤ UInt32.size → f.enterChecked choices.toArray slot is = .ok f' →
      ∃ g', g.enter slot (is.zip (choices.drop slot)) = .ok g' ∧
        Prefills (slot + is.length) f' g'
  | [], f, g, f', slot, h, _, hf => by
    obtain rfl := Except.ok.inj hf
    exact ⟨g, rfl, h⟩
  | i :: rest, f, g, f', slot, h, hsize, hf => by
    rw [List.length_cons] at hsize
    simp only [enterChecked, bind_eq_ok] at hf
    obtain ⟨operands, hall, args, hargs, c, hc, forward, hforward, hf⟩ := hf
    obtain ⟨hslot, rfl⟩ := of_update_eq_ok hargs
    obtain ⟨-, rfl⟩ := of_update_eq_ok hforward
    rw [lookup_eq_ok, List.getElem?_toArray] at hc
    obtain ⟨hlt, rfl⟩ := List.getElem?_eq_some_iff.1 hc
    -- the entry was made where the other table grows
    rw [slotWord_eq (by omega)] at hf
    obtain ⟨g', hg', h'⟩ := (h.step hslot).enter (by omega) hf
    refine ⟨g', ?_, by rwa [List.length_cons, Nat.add_comm rest.length, ← Nat.add_assoc]⟩
    rw [List.drop_eq_getElem_cons hlt, List.zip_cons_cons, Forwarding.enter, ← h.forward, hall,
      h.forward]
    exact hg'

theorem Prefills.eq {n : Nat} {f g : Forwarding} (h : Prefills n f g) (hf : f.args.size = n) :
    f = g := by
  cases f
  cases g
  exact congrArg₂ Forwarding.mk h.forward (h.args.eq hf)

theorem sweep_of_checked {f : Forwarding} : ∀ {n : Nat} {live live' : Bitmap},
    f.sweepChecked n live = .ok live' → f.sweep n live = .ok live'
  | 0, _, _, h => h
  | n + 1, live, live', h => by
    rw [sweepChecked, bind_eq_ok] at h
    obtain ⟨b, hb, h⟩ := h
    change live.test (UInt64.ofNat n) = .ok b at hb
    cases b with
    | false => simpa only [sweep, hb] using sweep_of_checked h
    | true =>
      simp only [if_true, bind_eq_ok] at h
      obtain ⟨operands, hargs, live₁, hmark, h⟩ := h
      simpa only [sweep, hb, lookup_eq_ok.1 hargs, Option.getD_some, hmark] using
        sweep_of_checked h

theorem keep_of_checked {f : Forwarding} {live : Bitmap} :
    ∀ {is : List Instr} {k k' : Kept} {slot : Nat}, k.instrs.size ≤ slot →
      slot + is.length ≤ UInt32.size → f.keepChecked live k slot is = .ok k' →
      f.keep live k slot is = .ok k'
  | [], _, _, _, _, _, h => h
  | i :: rest, k, k', slot, hk, hsize, h => by
    rw [List.length_cons] at hsize
    rw [keepChecked, bind_eq_ok] at h
    obtain ⟨b, hb, h⟩ := h
    change live.test (UInt64.ofNat slot) = .ok b at hb
    cases b with
    | false =>
      simpa only [keep, hb] using keep_of_checked (Nat.le_succ_of_le hk) (by omega) h
    | true =>
      simp only [if_true, bind_eq_ok] at h
      obtain ⟨operands, hargs, numbers, hall, table, htable, h⟩ := h
      obtain ⟨-, rfl⟩ := of_update_eq_ok htable
      -- no more instructions are kept than were passed, so their number fits too
      rw [slotWord_eq (by omega)] at h
      simpa only [keep, hb, lookup_eq_ok.1 hargs, Option.getD_some, hall] using
        keep_of_checked (by simpa using hk) (by omega) h

theorem finish_of_checked {t s : Tape} {f : Forwarding} (ht : t.size ≤ UInt32.size)
    (h : f.finishChecked t = .ok s) : f.finish t = .ok s := by
  simp only [finishChecked, bind_eq_ok] at h
  obtain ⟨outputs, houtputs, roots, hroots, live, hlive, k, hk, numbers, hnumbers, h⟩ := h
  have hkeep := keep_of_checked (Nat.le_refl 0) (by simpa [Tape.size] using ht) hk
  simp only [finish, houtputs, hroots, sweep_of_checked hlive, hkeep, hnumbers]
  exact h

end Forwarding

/-- Simplifying a valid tape makes no access out of range. -/
theorem WellFormed.simplifyChecked_eq {t : Tape} (hwf : t.WellFormed) (ht : t.size ≤ 2 ^ 63)
    {choices : List Choice} (hlen : choices.length = t.size) :
    ∃ s, t.simplifyChecked choices = .ok s ∧ (t.size ≤ 2 ^ 32 → t.simplify choices = .ok s) := by
  obtain ⟨f, hf, hbounded⟩ := (Forwarding.bounded_blank t.size).enter hwf
    (show choices.toArray.size = t.size from hlen) List.drop_zero
  obtain ⟨s, hs⟩ := hbounded.finish hwf ht
  refine ⟨s, by simp only [simplifyChecked, hlen, ne_eq, not_true_eq_false, if_false, hf, ok_bind,
    hs], fun hfits => ?_⟩
  have hprefills : Forwarding.Prefills 0 ⟨Array.replicate t.size 0, Array.replicate t.size []⟩
      ⟨Array.replicate t.size 0, #[]⟩ := ⟨rfl, filled_empty _⟩
  obtain ⟨g, hg, hfull⟩ := hprefills.enter (by simpa [Tape.size] using hfits) hf
  obtain rfl : f = g := hfull.eq (by simpa [Tape.size] using hbounded.args_size)
  rw [List.drop_zero] at hg
  simp only [simplify, hlen, ne_eq, not_true_eq_false, if_false, hg,
    Forwarding.finish_of_checked hfits hs]

/-- **A valid tape is safe to use.** Whatever tape passes validation, no step
that is taken with it is a fault: every look at a slot, a variable, a word of a
bitmap or a location and every store into one is in range, and no instruction
without an operator is reached.
- Live ranges and pressure are found, and are those that `liveRanges` and
  `pressure` give.
- With any number of registers from 1 to 64 there is an assignment, and its
  validation makes no fault either.
- By any choices, one for each instruction, the tape is simplified.
- Under any interpretation an evaluator called any number of times evaluates it
  whenever there is an input for each variable and room for each output.

Slots and locations are kept in words of 32 bits, and a tape may be longer than
that; the assignment and the simplified tape are those of `allocate` and
`simplify` where nothing wraps around. -/
theorem uses_in_range (t : Tape) (hvalid : t.validate = .ok ()) (hsize : t.size < 2 ^ 63) :
    (∃ ranges, t.liveRangesChecked = .ok ranges ∧ t.liveRanges = .ok ranges) ∧
    (∃ peak, t.pressureChecked = .ok peak ∧ t.pressure = .ok peak) ∧
    (∀ regs : Int, 1 ≤ regs → regs ≤ 64 → ∃ a, Assignment.allocateChecked t regs = .ok a ∧
      a.validateChecked t = a.validate t ∧ (∀ f, a.validateChecked t ≠ .error (.fault f)) ∧
      (t.size ≤ 2 ^ 31 → Assignment.allocate t regs = .ok a)) ∧
    (∀ choices : List Choice, choices.length = t.size → ∃ s, t.simplifyChecked choices = .ok s ∧
      (t.size ≤ 2 ^ 32 → t.simplify choices = .ok s)) ∧
    (∀ (α : Type) (I : Interp α) (before : List (Array α × Array α)) (inputs buffer : Array α),
      inputs.size = t.vars.size → buffer.size = t.outputs.size → ∃ results e',
        ((Evaluator.new I t).afterCalls before).evalInto inputs buffer = (.ok (), results, e') ∧
        ((Evaluator.new I t).after (before.map fun call => (call.1, call.2.size))).eval inputs
          buffer.size = (.ok results.toList, e')) := by
  obtain ⟨-, hwf⟩ := validate_eq_ok.1 hvalid
  obtain ⟨ranges, hranges, huses⟩ := hwf.liveRanges_eq
  refine ⟨⟨ranges, by rw [liveRangesChecked_eq, hranges], hranges⟩,
    ⟨_, by rw [hwf.pressureChecked_eq, huses.pressure_eq hranges], huses.pressure_eq hranges⟩,
    fun regs hregs hmax => ?_, fun choices hlen => ?_,
    fun α I before inputs buffer hin hout => ?_⟩
  · obtain ⟨a, ha, hallocate⟩ := Assignment.allocateChecked_eq hwf hregs hmax
    have heq := Assignment.validateChecked_eq a t
    exact ⟨a, ha, heq, fun f => heq ▸ Assignment.validate_ne_fault hwf a f, hallocate⟩
  · exact hwf.simplifyChecked_eq (Nat.le_of_lt hsize) hlen
  · have hused := (Evaluator.new_ready I t).after (before.map fun call => (call.1, call.2.size))
    obtain ⟨results, hresults, -⟩ := hwf.eval_eq (I := I) hin
    have heval : (Evaluator.new I t).eval inputs t.outputs.size =
        (.ok results, t.evaluated I inputs) := Prod.ext hresults rfl
    refine ⟨results.toArray, t.evaluated I inputs, ?_, ?_⟩
    · rw [(Evaluator.new_ready I t).afterCalls_eq before]
      exact hused.evalInto_accepted hwf hin hout heval
    · rw [hout, hused.eval_eq_new hwf hin, heval]

/-- With one register, by the choice of `x`, and for an evaluator that has been
called without inputs. -/
theorem uses_in_range_lesserMagnitude :
    lesserMagnitude.validate = .ok () ∧
      (∃ a, Assignment.allocateChecked lesserMagnitude 1 = .ok a ∧
        Assignment.allocate lesserMagnitude 1 = .ok a ∧
        ∀ f, a.validateChecked lesserMagnitude ≠ .error (.fault f)) ∧
      (∃ s, lesserMagnitude.simplifyChecked [.unknown, .unknown, .left] = .ok s ∧
        lesserMagnitude.simplify [.unknown, .unknown, .left] = .ok s) ∧
      ∃ results e', ((Evaluator.new .interval lesserMagnitude).afterCalls
        [(#[], #[.zero])]).evalInto #[⟨.ofInt (-3), .ofInt (-2)⟩] #[.zero] =
          (.ok (), results, e') := by
  have hvalid : lesserMagnitude.validate = .ok () := by decide
  obtain ⟨-, -, hallocate, hsimplify, heval⟩ := uses_in_range lesserMagnitude hvalid (by decide)
  obtain ⟨a, hchecked, -, hfault, ha⟩ := hallocate 1 (by decide) (by decide)
  obtain ⟨s, hs, hs'⟩ := hsimplify [.unknown, .unknown, .left] rfl
  obtain ⟨results, e', hcall, -⟩ := heval Interval .interval [(#[], #[.zero])]
    #[⟨.ofInt (-3), .ofInt (-2)⟩] #[.zero] rfl rfl
  exact ⟨hvalid, ⟨a, hchecked, ha (by decide), hfault⟩, ⟨s, hs, hs' (by decide)⟩, results, e',
    hcall⟩

end Tape

end ScalarField
