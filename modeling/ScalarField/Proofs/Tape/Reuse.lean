/-
Evaluators that are used again: nothing of earlier evaluations shows in a later
one (`Evaluator.calls_independent`).

An evaluator keeps its slots and choices from one evaluation to the next and
never clears them. A valid tape writes every slot before it is read, so that
what a slot held does not matter. A choice is written in every evaluation or in
none: where an instruction makes no choice there is `unknown` from the start
(`Slots.Settled`).

`Evaluator.evalInto` is an evaluation with all that it stores: the slots, the
choices, and the results, which go into a buffer of the caller's. Every store is
checked. It ends as `Evaluator.eval` does (`Evaluator.Ready.evalInto_eq`).
-/
import ScalarField.Proofs.Tape.Meaning

namespace ScalarField

theorem update_eq_ok {α : Type} {table : Array α} {i : Nat} (hi : i < table.size) (x : α) :
    update table i x = .ok (table.setIfInBounds i x) := if_pos hi

/-- An instruction makes a choice exactly if it has two operands. -/
theorem Instr.outcome?_choice {α : Type} {I : Interp α} {inputs : Array α} {read : Nat → Option α}
    {i : Instr} {v : α} {c : Option Choice} (h : i.outcome? I inputs read = some (v, c)) :
    (c = none ∧ ∀ b, i.op? ≠ some (.binary b)) ∨ ∃ d b, c = some d ∧ i.op? = some (.binary b) := by
  rcases hop : i.op? with _ | op
  · simp [outcome?, hop] at h
  cases op with
  | input =>
    simp only [outcome?, hop] at h
    split at h
    · cases h
    · simp only [Option.map_eq_some_iff, Prod.mk.injEq] at h
      obtain ⟨x, -, -, rfl⟩ := h
      exact .inl ⟨rfl, by simp⟩
  | const =>
    simp only [outcome?, hop, Option.some.injEq, Prod.mk.injEq] at h
    exact .inl ⟨h.2.symm, by simp⟩
  | unary u =>
    simp only [outcome?, hop, Option.map_eq_some_iff, Prod.mk.injEq] at h
    obtain ⟨x, -, -, rfl⟩ := h
    exact .inl ⟨rfl, by simp⟩
  | binary b =>
    simp only [outcome?, hop, Option.bind_eq_some_iff, Option.map_eq_some_iff, Prod.mk.injEq] at h
    obtain ⟨x, -, y, -, -, rfl⟩ := h
    exact .inr ⟨_, b, rfl, rfl⟩

/-! ## Slots between evaluations -/

namespace Slots

variable {α : Type} {I : Interp α} {inputs : Array α} {t : Tape} {s : Slots α}

/-- One slot and one choice for each instruction, and no choice where none is
ever made. -/
structure Settled (t : Tape) (s : Slots α) : Prop where
  values : s.values.size = t.size
  choices : s.choices.size = t.size
  unchosen : ∀ {k : Nat} {i : Instr}, t.instrs[k]? = some i →
    (∀ b, i.op? ≠ some (.binary b)) → s.choices[k]? = some .unknown

theorem blank_settled (I : Interp α) (t : Tape) : (blank I t).Settled t := by
  refine ⟨by simp [blank], by simp [blank], fun {k i} hi _ => ?_⟩
  have hk : k < t.size := (Array.getElem?_eq_some_iff.1 hi).1
  simp [blank, hk]

theorem Settled.write (h : s.Settled t) {slot : Nat} {i : Instr} {v : α} {c : Option Choice}
    (hi : t.instrs[slot]? = some i) (hv : s.valueOf I inputs i = .ok (v, c)) :
    (s.write slot v c).Settled t := by
  refine ⟨by simp [Slots.write, h.values], by cases c <;> simp [Slots.write, h.choices],
    fun {k j} hj hnone => ?_⟩
  rcases Instr.outcome?_choice (Instr.valueOf_eq_ok.1 hv) with ⟨rfl, -⟩ | ⟨d, b, rfl, hop⟩
  · exact h.unchosen hj hnone
  · have hne : slot ≠ k := by
      rintro rfl
      obtain rfl : i = j := by simpa [hi] using hj
      exact hnone b hop
    exact (Array.getElem?_setIfInBounds_ne hne).trans (h.unchosen hj hnone)

theorem Settled.exec : ∀ {is : List Instr} {s : Slots α} {n : Nat}, s.Settled t →
    t.instrs.toList.drop n = is → (s.exec I inputs n is).1.Settled t
  | [], _, _, h, _ => h
  | i :: rest, s, n, h, hd => by
    obtain ⟨hi, hd'⟩ := of_drop_eq_cons hd
    unfold Slots.exec
    split
    · exact h
    · rename_i v c hv
      exact (h.write hi hv).exec hd'

/-- Executing a valid tape leaves the same slots and choices, whatever the slots
held before. -/
theorem Settled.exec_eq (h : s.Settled t) (hwf : t.WellFormed) (hin : inputs.size = t.vars.size) :
    s.exec I inputs 0 t.instrs.toList = (blank I t).exec I inputs 0 t.instrs.toList := by
  have hblank := blank_settled I t
  obtain ⟨s₁, hs₁, hdone₁⟩ := exec_done (I := I) hwf hin h.values h.choices
  obtain ⟨s₂, hs₂, hdone₂⟩ := exec_done (I := I) hwf hin hblank.values hblank.choices
  have hvalues : s₁.values = s₂.values :=
    (Tape.means_of_done hdone₁).unique hwf (Tape.means_of_done hdone₂)
  have hchoices : s₁.choices = s₂.choices := by
    refine Array.ext_getElem? fun k => ?_
    rcases hi : t.instrs[k]? with _ | i
    · have hk : t.size ≤ k := by simpa [Tape.size] using hi
      rw [Array.getElem?_eq_none (hdone₁.choices_size ▸ hk),
        Array.getElem?_eq_none (hdone₂.choices_size ▸ hk)]
    · have hk : k < t.size := (Array.getElem?_eq_some_iff.1 hi).1
      obtain ⟨v, c, hout, -, hc₁⟩ := hdone₁.slot k hk i hi
      obtain ⟨w, d, hout', -, hc₂⟩ := hdone₂.slot k hk i hi
      obtain ⟨rfl, rfl⟩ : v = w ∧ c = d := by simpa [hvalues, hout'] using hout.symm
      rcases Instr.outcome?_choice hout with ⟨-, hnone⟩ | ⟨d, -, rfl, -⟩
      · rw [hc₁ _ (h.unchosen hi hnone), hc₂ _ (hblank.unchosen hi hnone)]
      · have hold₁ := Array.getElem?_eq_getElem (show k < s.choices.size from h.choices.symm ▸ hk)
        have hold₂ := Array.getElem?_eq_getElem (hblank.choices.symm ▸ hk)
        rw [hc₁ _ hold₁, hc₂ _ hold₂]
        rfl
  obtain ⟨values₁, choices₁⟩ := s₁
  obtain ⟨values₂, choices₂⟩ := s₂
  obtain rfl : values₁ = values₂ := hvalues
  obtain rfl : choices₁ = choices₂ := hchoices
  rw [hs₁, hs₂]

/-! ## Checked stores -/

/-- Stores what an instruction yields: its value, and its choice unless it has
no operands. -/
def store (s : Slots α) (slot : Nat) (i : Instr) (v : α) (c : Option Choice) :
    Except Fault (Slots α) :=
  match update s.values slot v with
  | .error e => .error e
  | .ok values =>
    if i.args.isEmpty then .ok ⟨values, s.choices⟩
    else
      match update s.choices slot (c.getD .unknown) with
      | .error e => .error e
      | .ok choices => .ok ⟨values, choices⟩

/-- Executes the instructions that start at `slot`, every store being checked. -/
def execInto (I : Interp α) (inputs : Array α) (s : Slots α) :
    Nat → List Instr → Slots α × Except Fault Unit
  | _, [] => (s, .ok ())
  | slot, i :: rest =>
    match valueOf I inputs s i with
    | .error e => (s, .error e)
    | .ok (v, c) =>
      match s.store slot i v c with
      | .error e => (s, .error e)
      | .ok s => execInto I inputs s (slot + 1) rest

/-- Copies the values of some slots into a buffer, from position `pos` on. -/
def copyInto (values : Array α) (buffer : Array α) : Nat → List Nat → Array α × Except Fault Unit
  | _, [] => (buffer, .ok ())
  | pos, o :: rest =>
    match lookup values o with
    | .error e => (buffer, .error e)
    | .ok v =>
      match update buffer pos v with
      | .error e => (buffer, .error e)
      | .ok buffer => copyInto values buffer (pos + 1) rest

theorem Settled.store_eq (h : s.Settled t) {slot : Nat} {i : Instr} {v : α} {c : Option Choice}
    (hi : t.instrs[slot]? = some i) (hv : s.valueOf I inputs i = .ok (v, c)) :
    s.store slot i v c = .ok (s.write slot v c) := by
  have hslot : slot < t.size := (Array.getElem?_eq_some_iff.1 hi).1
  have hvalues := update_eq_ok (show slot < s.values.size from h.values.symm ▸ hslot) v
  have hchoices := update_eq_ok (show slot < s.choices.size from h.choices.symm ▸ hslot)
    (c.getD .unknown)
  simp only [store, hvalues, hchoices]
  rcases Instr.outcome?_choice (Instr.valueOf_eq_ok.1 hv) with ⟨rfl, hnone⟩ | ⟨d, b, rfl, hop⟩
  · -- Where `unknown` is written, there is `unknown` already.
    have hsame : s.choices.setIfInBounds slot .unknown = s.choices := by
      refine Array.ext_getElem? fun k => ?_
      by_cases hk : slot = k
      · subst hk
        rw [Array.getElem?_setIfInBounds_self_of_lt (h.choices.symm ▸ hslot),
          h.unchosen hi hnone]
      · rw [Array.getElem?_setIfInBounds_ne hk]
    simp only [Option.getD_none, hsame, ite_self]
    rfl
  · rw [if_neg (by simp [Instr.args_binary hop])]
    rfl

theorem Settled.execInto_eq : ∀ {is : List Instr} {s : Slots α} {n : Nat}, s.Settled t →
    t.instrs.toList.drop n = is → s.execInto I inputs n is = s.exec I inputs n is
  | [], _, _, _, _ => rfl
  | i :: rest, s, n, h, hd => by
    obtain ⟨hi, hd'⟩ := of_drop_eq_cons hd
    unfold execInto Slots.exec
    cases hv : s.valueOf I inputs i with
    | error e => rfl
    | ok r =>
      simp only [h.store_eq hi hv]
      exact (h.write hi hv).execInto_eq hd'

/-- Copying into what is left of a buffer puts the values in the place of what
was there, or finds the fault that looking them up finds. -/
theorem copyInto_eq {values : Array α} : ∀ {slots : List Nat} {old done : List α},
    old.length = slots.length →
    (copyInto values (done ++ old).toArray done.length slots).2 =
        (lookupAll values slots).map (fun _ => ()) ∧
      ∀ xs, lookupAll values slots = .ok xs →
        (copyInto values (done ++ old).toArray done.length slots).1 = (done ++ xs).toArray
  | [], old, done, hlen => by
    obtain rfl : old = [] := List.length_eq_zero_iff.1 hlen
    refine ⟨rfl, fun xs hxs => ?_⟩
    obtain rfl : [] = xs := by simpa [lookupAll] using hxs
    rfl
  | o :: rest, [], done, hlen => by simp at hlen
  | o :: rest, y :: old, done, hlen => by
    cases ho : lookup values o with
    | error e => simp [copyInto, lookupAll, ho, Except.map]
    | ok v =>
      have hupdate : update (done ++ y :: old).toArray done.length v =
          .ok ((done ++ [v]) ++ old).toArray := by
        rw [update_eq_ok (by simp)]
        simp
      have hnext : done.length + 1 = (done ++ [v]).length := by simp
      have hlen' : old.length = rest.length := by simpa using hlen
      obtain ⟨hfault, hcopied⟩ := @copyInto_eq values rest old (done ++ [v]) hlen'
      simp only [copyInto, lookupAll, ho, hupdate, hnext]
      refine ⟨?_, fun xs hxs => ?_⟩
      · rw [hfault]
        cases lookupAll values rest <;> rfl
      · cases hrest : lookupAll values rest with
        | error e => simp [hrest] at hxs
        | ok ys =>
          obtain rfl : v :: ys = xs := by simpa [hrest] using hxs
          rw [hcopied ys hrest, List.append_assoc, List.singleton_append]

end Slots

/-! ## Evaluators between evaluations -/

namespace Evaluator

variable {α : Type} {I : Interp α} {t : Tape} {e : Evaluator α}

/-- An evaluator after some evaluations, each given by its inputs and by the
number of results that it is asked for. -/
def after (e : Evaluator α) (calls : List (Array α × Nat)) : Evaluator α :=
  calls.foldl (fun e call => (e.eval call.1 call.2).2) e

/-- An evaluator of a tape, whatever its slots hold. -/
structure Of (I : Interp α) (t : Tape) (e : Evaluator α) : Prop where
  interp : e.interp = I
  tape : e.tape = t
  values : e.slots.values.size = t.size
  choices : e.slots.choices.size = t.size

/-- An evaluator of a tape between two evaluations. -/
structure Ready (I : Interp α) (t : Tape) (e : Evaluator α) : Prop where
  interp : e.interp = I
  tape : e.tape = t
  slots : e.slots.Settled t

theorem Ready.of (h : e.Ready I t) : e.Of I t :=
  ⟨h.interp, h.tape, h.slots.values, h.slots.choices⟩

theorem new_ready (I : Interp α) (t : Tape) : (new I t).Ready I t :=
  ⟨rfl, rfl, Slots.blank_settled I t⟩

theorem Ready.eval (h : e.Ready I t) (inputs : Array α) (n : Nat) :
    (e.eval inputs n).2.Ready I t := by
  obtain ⟨interp, tape, slots⟩ := e
  obtain ⟨rfl, rfl, hslots⟩ := h
  have hexec : (⟨interp, tape, (slots.exec interp inputs 0 tape.instrs.toList).1⟩ :
      Evaluator α).Ready interp tape := ⟨rfl, rfl, hslots.exec rfl⟩
  unfold Evaluator.eval
  split
  · exact ⟨rfl, rfl, hslots⟩
  · split
    · rename_i hs
      rwa [hs] at hexec
    · rename_i hs
      rw [hs] at hexec
      split <;> exact hexec

theorem Ready.after (calls : List (Array α × Nat)) :
    ∀ {e : Evaluator α}, e.Ready I t → (e.after calls).Ready I t := by
  induction calls with
  | nil => exact fun h => h
  | cons call calls ih => exact fun h => ih (h.eval call.1 call.2)

theorem after_of (I : Interp α) (t : Tape) (calls : List (Array α × Nat)) :
    ((new I t).after calls).Of I t :=
  ((new_ready I t).after calls).of

/-- Nothing of earlier evaluations shows: the slots of a valid tape have one
meaning. -/
theorem Of.eval_eq (h : e.Of I t) (hwf : t.WellFormed) {inputs : Array α}
    (hin : inputs.size = t.vars.size) :
    (e.eval inputs t.outputs.size).1 = t.eval I inputs := by
  obtain ⟨interp, tape, slots⟩ := e
  obtain ⟨rfl, rfl, hvalues, hchoices⟩ := h
  obtain ⟨s, hs, hdone⟩ := Slots.exec_done (I := interp) hwf hin hvalues hchoices
  obtain ⟨s', hs', hdone'⟩ := Slots.exec_done (I := interp) (s := .blank interp tape) hwf hin
    (by simp [Slots.blank]) (by simp [Slots.blank])
  have hsame : s.values = s'.values :=
    (Tape.means_of_done hdone).unique hwf (Tape.means_of_done hdone')
  simp only [Tape.eval, Evaluator.eval, new, Tape.checkArity, hin, ne_eq, not_true_eq_false,
    if_false, hs, hs', hsame]
  cases lookupAll s'.values tape.outputs.toList <;> rfl

theorem checkArity_eq_ok {inputs outputs : Nat} :
    t.checkArity inputs outputs = .ok () ↔ inputs = t.vars.size ∧ outputs = t.outputs.size := by
  unfold Tape.checkArity
  split
  · rename_i hin
    simp [hin]
  · split
    · rename_i hout
      simp [hout]
    · simp_all

/-- An evaluation of a valid tape leaves an evaluator as it leaves a fresh one. -/
theorem Ready.eval_eq_new (h : e.Ready I t) (hwf : t.WellFormed) {inputs : Array α}
    (hin : inputs.size = t.vars.size) :
    e.eval inputs t.outputs.size = (new I t).eval inputs t.outputs.size := by
  obtain ⟨interp, tape, slots⟩ := e
  obtain ⟨rfl, rfl, hslots⟩ := h
  simp only [Evaluator.eval, new, checkArity_eq_ok.2 ⟨hin, rfl⟩, hslots.exec_eq hwf hin]

/-! ## Calls -/

/-- Evaluates the tape into a buffer of the caller's, every store being checked:
the error if there is one, the buffer, and the evaluator. -/
def evalInto (e : Evaluator α) (inputs buffer : Array α) :
    Except EvalError Unit × Array α × Evaluator α :=
  match e.tape.checkArity inputs.size buffer.size with
  | .error err => (.error err, buffer, e)
  | .ok () =>
    match e.slots.execInto e.interp inputs 0 e.tape.instrs.toList with
    | (s, .error f) => (.error (.fault f), buffer, { e with slots := s })
    | (s, .ok ()) =>
      match Slots.copyInto s.values buffer 0 e.tape.outputs.toList with
      | (buffer, .error f) => (.error (.fault f), buffer, { e with slots := s })
      | (buffer, .ok ()) => (.ok (), buffer, { e with slots := s })

/-- Evaluating into a buffer is evaluating: no store is out of range, whatever the
tape is, and the results are in the buffer if there are results. -/
theorem Ready.evalInto_eq (h : e.Ready I t) (inputs buffer : Array α) :
    ∃ buffer', e.evalInto inputs buffer =
        ((e.eval inputs buffer.size).1.map (fun _ => ()), buffer', (e.eval inputs buffer.size).2) ∧
      ∀ results, (e.eval inputs buffer.size).1 = .ok results → buffer' = results.toArray := by
  obtain ⟨interp, tape, slots⟩ := e
  obtain ⟨rfl, rfl, hslots⟩ := h
  have hinto : slots.execInto interp inputs 0 tape.instrs.toList =
      slots.exec interp inputs 0 tape.instrs.toList := hslots.execInto_eq rfl
  cases harity : tape.checkArity inputs.size buffer.size with
  | error err =>
    simp only [evalInto, Evaluator.eval, harity]
    exact ⟨buffer, rfl, by simp⟩
  | ok u =>
    obtain ⟨-, hsize⟩ := checkArity_eq_ok.1 harity
    rcases hexec : slots.exec interp inputs 0 tape.instrs.toList with ⟨s, f | u'⟩
    · simp only [evalInto, Evaluator.eval, harity, hinto, hexec]
      exact ⟨buffer, rfl, by simp⟩
    · obtain ⟨hfault, hcopied⟩ :=
        @Slots.copyInto_eq α s.values tape.outputs.toList buffer.toList [] (by simpa using hsize)
      simp only [List.nil_append, List.length_nil, Array.toArray_toList] at hfault hcopied
      rcases hcopy : Slots.copyInto s.values buffer 0 tape.outputs.toList with ⟨buffer', r⟩
      rw [hcopy] at hfault hcopied
      cases hall : lookupAll s.values tape.outputs.toList with
      | error f =>
        obtain rfl : r = .error f := by simpa [hall, Except.map] using hfault
        simp only [evalInto, Evaluator.eval, harity, hinto, hexec, hcopy, hall]
        exact ⟨buffer', rfl, by simp⟩
      | ok results =>
        obtain rfl : r = .ok () := by simpa [hall, Except.map] using hfault
        simp only [evalInto, Evaluator.eval, harity, hinto, hexec, hcopy, hall]
        refine ⟨buffer', rfl, fun results' hresults => ?_⟩
        obtain rfl : results = results' := by simpa using hresults
        exact hcopied results hall

/-- An evaluator after some calls, each given by its inputs and its buffer. -/
def afterCalls (e : Evaluator α) (calls : List (Array α × Array α)) : Evaluator α :=
  calls.foldl (fun e call => (e.evalInto call.1 call.2).2.2) e

theorem Ready.afterCalls_eq (calls : List (Array α × Array α)) : ∀ {e : Evaluator α},
    e.Ready I t → e.afterCalls calls = e.after (calls.map fun call => (call.1, call.2.size)) := by
  induction calls with
  | nil => exact fun _ => rfl
  | cons call calls ih =>
    intro e h
    obtain ⟨buffer', hcall, -⟩ := h.evalInto_eq call.1 call.2
    have hnext : (e.evalInto call.1 call.2).2.2 = (e.eval call.1 call.2.size).2 := by rw [hcall]
    simp only [afterCalls, List.foldl_cons, hnext, List.map_cons]
    exact ih (h.eval call.1 call.2.size)

/-- A call that is accepted leaves the buffer and the evaluator as a call of a
fresh evaluator does, whatever was in the buffer. -/
theorem Ready.evalInto_accepted (h : e.Ready I t) (hwf : t.WellFormed) {inputs buffer : Array α}
    (hin : inputs.size = t.vars.size) (hout : buffer.size = t.outputs.size) {results : List α}
    {e' : Evaluator α} (heval : (new I t).eval inputs t.outputs.size = (.ok results, e')) :
    e.evalInto inputs buffer = (.ok (), results.toArray, e') := by
  obtain ⟨buffer', hcall, hbuffer⟩ := h.evalInto_eq inputs buffer
  rw [hout, h.eval_eq_new hwf hin, heval] at hcall hbuffer
  rw [hcall, hbuffer results rfl]
  rfl

/-- **An evaluator carries nothing from one call to the next.** A valid tape is
evaluated, under any interpretation, by an evaluator that has been called any
number of times, with any inputs and into any buffers, also such of a wrong size.
- A call with one input for each variable and a buffer for one result for each
  output is accepted. The buffer then holds the results, and results and
  evaluator, with the choices that it has recorded, are those of the same call of
  a fresh evaluator into any other buffer.
- Any other call is rejected for its sizes and leaves the buffer and the
  evaluator as they were. -/
theorem calls_independent (I : Interp α) (t : Tape) (hvalid : t.validate = .ok ())
    (before : List (Array α × Array α)) (inputs buffer : Array α) :
    (inputs.size = t.vars.size → buffer.size = t.outputs.size → ∃ results e',
      ((new I t).afterCalls before).evalInto inputs buffer = (.ok (), results, e') ∧
      (∀ buffer' : Array α, buffer'.size = t.outputs.size →
        (new I t).evalInto inputs buffer' = (.ok (), results, e')) ∧
      ((new I t).after (before.map fun call => (call.1, call.2.size))).eval inputs buffer.size =
        (.ok results.toList, e')) ∧
    (¬(inputs.size = t.vars.size ∧ buffer.size = t.outputs.size) → ∃ err,
      t.checkArity inputs.size buffer.size = .error err ∧
      ((new I t).afterCalls before).evalInto inputs buffer =
        (.error err, buffer, (new I t).afterCalls before)) := by
  have hnew := new_ready I t
  have hused := hnew.after (before.map fun call => (call.1, call.2.size))
  rw [hnew.afterCalls_eq before]
  obtain ⟨-, hwf⟩ := Tape.validate_eq_ok.1 hvalid
  refine ⟨fun hin hout => ?_, fun hsizes => ?_⟩
  · obtain ⟨results, hresults, -⟩ := hwf.eval_eq (I := I) hin
    have heval : (new I t).eval inputs t.outputs.size = (.ok results, t.evaluated I inputs) :=
      Prod.ext hresults rfl
    refine ⟨results.toArray, t.evaluated I inputs, hused.evalInto_accepted hwf hin hout heval,
      fun buffer' hout' => hnew.evalInto_accepted hwf hin hout' heval, ?_⟩
    rw [hout, hused.eval_eq_new hwf hin, heval]
  · cases harity : t.checkArity inputs.size buffer.size with
    | ok u => exact absurd (checkArity_eq_ok.1 harity) hsizes
    | error err => exact ⟨err, rfl, by simp only [evalInto, hused.tape, harity]⟩

end Evaluator

/-- The lesser of `x` and its magnitude. -/
def Tape.lesserMagnitude : Tape where
  instrs := #[{ code := Op.input.code, var := 0 }, { code := UnaryOp.abs.code, left := 0 },
    { code := BinaryOp.min.code, left := 0, right := 1 }]
  outputs := #[2]
  vars := #[utf8 "x"]

/-- Over `[-3, -2]`, after a region where the choice is another one and a call
without inputs; and another such call. -/
theorem Evaluator.calls_independent_lesserMagnitude :
    Tape.lesserMagnitude.validate = .ok () ∧
      (∃ results e', ((new .interval .lesserMagnitude).afterCalls
          [(#[⟨.ofInt 2, .ofInt 3⟩], #[.zero]), (#[], #[.zero])]).evalInto
            #[⟨.ofInt (-3), .ofInt (-2)⟩] #[.splat .one] = (.ok (), results, e') ∧
        (new .interval .lesserMagnitude).evalInto #[⟨.ofInt (-3), .ofInt (-2)⟩] #[.zero] =
          (.ok (), results, e')) ∧
      ∃ err, ((new .interval .lesserMagnitude).afterCalls
          [(#[⟨.ofInt 2, .ofInt 3⟩], #[.zero])]).evalInto #[] #[.splat .one] =
        (.error err, #[.splat .one], (new .interval .lesserMagnitude).afterCalls
          [(#[⟨.ofInt 2, .ofInt 3⟩], #[.zero])]) := by
  have hvalid : Tape.lesserMagnitude.validate = .ok () := by decide
  obtain ⟨results, e', hused, hfresh, -⟩ := (calls_independent .interval _ hvalid
    [(#[⟨.ofInt 2, .ofInt 3⟩], #[.zero]), (#[], #[.zero])] #[⟨.ofInt (-3), .ofInt (-2)⟩]
    #[.splat .one]).1 rfl rfl
  obtain ⟨err, -, hrejected⟩ := (calls_independent .interval _ hvalid
    [(#[⟨.ofInt 2, .ofInt 3⟩], #[.zero])] #[] #[.splat .one]).2 (by decide)
  exact ⟨hvalid, ⟨results, e', hused, hfresh _ rfl⟩, err, hrejected⟩

end ScalarField
