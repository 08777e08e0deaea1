/-
Programs record the choices that evaluation records
(`Host.assemble_records_choices`).

A program in interval mode leaves a byte for each `min` and `max`, made of two
comparisons. Evaluation makes the second comparison only where the first does
not hold, so that the two differ where both hold, and then an operand has its
bounds inverted. Over a region in order, only the absolute value or the square
of a negative interval that has lost its lower bound is inverted; there the
bytes do differ (`Host.assemble_records_other_choices`).
-/
import ScalarField.Proofs.Interval.Order
import ScalarField.Proofs.Interval.Region
import ScalarField.Proofs.Machine.Program

namespace ScalarField

/-! ## Two ways to choose -/

namespace Interval

variable {a b : Interval}

theorem not_lt_of_lt (ha : a.isInverted = false) (hb : b.isInverted = false)
    (h : a.hi.lt b.lo = true) : b.hi.lt a.lo = false := by
  rw [← Bool.not_eq_true]
  intro h'
  obtain ⟨hah, hbl, hlt⟩ := Binary.lt_eq_true.1 h
  obtain ⟨hbh, hal, hlt'⟩ := Binary.lt_eq_true.1 h'
  have hle := isInverted_eq_false.1 ha (hasNaN_eq_false.2 ⟨hal, hah⟩)
  have hle' := isInverted_eq_false.1 hb (hasNaN_eq_false.2 ⟨hbl, hbh⟩)
  omega

theorem choiceOfBits_eq {p q : Bool} (h : p = true → q = false) :
    choiceOfBits p q = if p then .left else if q then .right else .both := by
  cases p
  · cases q <;> rfl
  · rw [h rfl]
    rfl

/-- Intervals in order choose alike in both ways. -/
theorem compiledChoice_eq {o : BinaryOp} (hand : o ≠ .and) (hor : o ≠ .or)
    (ha : a.isInverted = false) (hb : b.isInverted = false) :
    compiledChoice o a b = choice o a b := by
  cases o with
  | min => exact choiceOfBits_eq (not_lt_of_lt ha hb)
  | max => exact choiceOfBits_eq (not_lt_of_lt hb ha)
  | and => exact absurd rfl hand
  | or => exact absurd rfl hor
  | _ => rfl

theorem choiceOfBits_ne_unknown (p q : Bool) : choiceOfBits p q ≠ .unknown := by
  cases p <;> cases q <;> decide

end Interval

/-! ## Operators with a template -/

/-- The operators that have a template on intervals, some at a high level
only. -/
def Op.isCompiled : Op → Bool
  | .input | .const => true
  | .unary u => !u.isElementary && u != .not
  | .binary .add | .binary .sub | .binary .mul | .binary .div | .binary .min | .binary .max => true
  | .binary _ => false

theorem Op.isArithmetic_of_isCompiled {op : Op} (h : op.isCompiled = true) :
    op.isArithmetic = true := by
  cases op with
  | input | const => rfl
  | unary u =>
    simp only [Op.isCompiled, Bool.and_eq_true] at h
    exact h.1
  | binary o =>
    cases o with
    | mod | atan2 => cases h
    | _ => rfl

theorem Codegen.isCompiled_of_compute {g : Codegen} (hg : g.template = .interval) {pos : Nat}
    {i : Instr} {op : Op} {d : Xmm} {code : List Insn} (h : g.compute pos i op d = some code) :
    op.isCompiled = true := by
  cases op with
  | input | const => rfl
  | unary u =>
    obtain ⟨_, hu, -⟩ := Option.map_eq_some_iff.1 h
    rw [hg] at hu
    cases u with
    | neg | abs | recip | sqrt | square | floor | ceil | round => rfl
    | _ => cases hu
  | binary o =>
    obtain ⟨_, ho, -⟩ := Option.map_eq_some_iff.1 h
    rw [hg] at ho
    cases o with
    | add | sub | mul | div | min | max => rfl
    | _ => cases ho

theorem Codegen.instrs_eq_ok {g : Codegen} : ∀ {is : List Instr} {pos : Nat} {code : List Insn},
    g.instrs pos is = .ok code → ∀ {k : Nat} {i : Instr}, is[k]? = some i →
      ∃ code', g.instr (pos + k) i = .ok code'
  | [], _, _, _, _, _, hi => by simp at hi
  | i :: rest, pos, code, h, k, j, hj => by
    obtain ⟨first, code', hfirst, hcode', -⟩ := instrs_cons_eq_ok h
    cases k with
    | zero =>
      obtain rfl : i = j := by simpa using hj
      exact ⟨first, hfirst⟩
    | succ k =>
      rw [show pos + (k + 1) = pos + 1 + k by omega]
      exact instrs_eq_ok hcode' (by simpa using hj)

namespace Setting

variable {α : Type} {c : Cpu} {g : Codegen} {I : Interp α} {Rep : Vec128 → α → Prop} {t : Tape}
  {rs : Array LiveRange} {inputs values : Array α} {choices : Nat → Choice} {s : State}

theorem isCompiled (S : Setting c g I Rep t rs inputs values choices s)
    (hg : g.template = .interval) {insns : List Insn} (hcode : g.tape t = .ok insns) {i : Instr}
    (hi : i ∈ t.instrs) : ∃ op, i.op? = some op ∧ op.isCompiled = true := by
  obtain ⟨k, hk, rfl⟩ := Array.mem_iff_getElem.1 hi
  obtain ⟨code, hinstrs, -⟩ := Codegen.tape_eq_ok hcode
  obtain ⟨code', hcode'⟩ := Codegen.instrs_eq_ok hinstrs (k := k) (i := t.instrs[k]) (by simp [hk])
  rw [Nat.zero_add] at hcode'
  obtain ⟨l, hl⟩ : ∃ l, g.assignment.locs[k]? = some l :=
    ⟨_, Array.getElem?_eq_getElem (by rw [S.separates.size]; exact hk)⟩
  obtain ⟨op, first, hop, hfirst, -⟩ := Codegen.instr_eq_ok hcode' hl
  exact ⟨op, hop, Codegen.isCompiled_of_compute hg hfirst⟩

/-- Every byte for a choice holds it once the code has been run, if those that
no choice is made for were cleared. -/
theorem run_tape_choices (S : Setting c g I Rep t rs inputs values choices s) {insns : List Insn}
    (hcode : g.tape t = .ok insns)
    (hout : (s.outputArea t g.template.form).Disjoint (s.choiceArea t))
    (hclear : ∀ k < t.size, choices k = .unknown → s.memory (s.gpr .rcx + .ofNat 64 k) = 0) :
    ∃ s', c.run s insns = some s' ∧
      ∀ k < t.size, s'.memory (s.gpr .rcx + .ofNat 64 k) = .ofNat 8 (choices k).code.toNat := by
  obtain ⟨s', hrun, -, hmem, hrecorded⟩ := S.run_tape hcode
  have hsize := S.call.size_lt
  refine ⟨s', hrun, fun k hk => ?_⟩
  have hhas := S.choice_has hk
  have hnone : ¬(s.outputArea t g.template.form).Has (s.gpr .rcx + .ofNat 64 k) :=
    fun h => hout _ h hhas
  by_cases hk' : choices k = .unknown
  · rw [hmem _ hnone (fun h => S.call.spills_choices _ h hhas), hclear k hk hk', hk']
    · rfl
    · intro j hj hknown heq
      obtain rfl : k = j := by bv_omega
      exact hknown hk'
  · exact hrecorded k hk hk' hnone

end Setting

/-! ## Choices along a tape -/

/-- An instruction whose operands are in order records the same choice in both
ways. -/
theorem Instr.choice_compiled {region : Array Interval} {reads : Nat → Option Interval} {i : Instr}
    (hop : ∀ op, i.op? = some op → op.isCompiled = true)
    (hargs : ∀ k ∈ i.args, ∀ x, reads k = some x → x.isInverted = false) {v w : Interval}
    {c d : Option Choice} (hc : i.outcome? .interval region reads = some (v, c))
    (hd : i.outcome? .compiledInterval region reads = some (w, d)) : c = d := by
  rcases hi : i.op? with _ | op
  · simp [outcome?, hi] at hc
  cases op with
  | input =>
    simp only [outcome?, hi] at hc hd
    split at hc <;> simp_all
  | const =>
    simp only [outcome?, hi, Option.some.injEq, Prod.mk.injEq] at hc hd
    exact hc.2.symm.trans hd.2
  | unary u =>
    simp only [outcome?, hi, Option.map_eq_some_iff, Prod.mk.injEq] at hc hd
    obtain ⟨-, -, -, rfl⟩ := hc
    obtain ⟨-, -, -, rfl⟩ := hd
    rfl
  | binary o =>
    simp only [outcome?, hi, Option.bind_eq_some_iff, Option.map_eq_some_iff,
      Prod.mk.injEq] at hc hd
    obtain ⟨x, hx, y, hy, -, rfl⟩ := hc
    obtain ⟨x', hx', y', hy', -, rfl⟩ := hd
    obtain rfl : x = x' := by simpa [hx] using hx'
    obtain rfl : y = y' := by simpa [hy] using hy'
    have ho := hop _ hi
    have hne : o ≠ .and ∧ o ≠ .or := by
      constructor <;> rintro rfl <;> cases ho
    have hxo := hargs i.left (by simp [args_binary hi]) x hx
    have hyo := hargs i.right (by simp [args_binary hi]) y hy
    exact congrArg some (Interval.compiledChoice_eq hne.1 hne.2 hxo hyo).symm

/-- Over a region that keeps all bounds in order, evaluation records the choices
of compiled code. -/
theorem Tape.WellFormed.choicesOver_compiled {t : Tape} (hwf : t.WellFormed)
    {region : Array Interval} (hvars : region.size = t.vars.size)
    (hops : ∀ i ∈ t.instrs, ∃ op, i.op? = some op ∧ op.isCompiled = true)
    (hord : ∀ a ∈ t.slotValues .interval region, a.isInverted = false) :
    ∃ out cs, t.choicesOver region = .ok (out, cs) ∧ cs.length = t.size ∧
      ∀ k < t.size, cs[k]? = some (t.choiceAt .compiledInterval region k) := by
  obtain ⟨out, cs, hcs, hlen, hslot⟩ := hwf.choicesOver_outcome hvars
  obtain ⟨-, -, -, hdone⟩ := hwf.eval_eq (I := .compiledInterval) hvars
  refine ⟨out, cs, hcs, hlen, fun k hk => ?_⟩
  have hi : t.instrs[k]? = some t.instrs[k] := Array.getElem?_eq_getElem hk
  obtain ⟨v, c, hc, hcsk⟩ := hslot k _ hi
  obtain ⟨w, d, hd, -, hchoice⟩ := hdone.slot k hk _ hi
  have hvalues : (t.evaluated .compiledInterval region).slots.values =
      t.slotValues .interval region := (Domain.Compiles.interval.slotValues_eq hwf hvars).symm
  rw [hvalues] at hd
  obtain rfl : c = d := by
    refine Instr.choice_compiled (fun op hop => ?_)
      (fun j _ x hx => hord x (Array.mem_of_getElem? hx)) hc hd
    obtain ⟨op', hop', hcompiled⟩ := hops _ (Array.getElem_mem hk)
    obtain rfl : op' = op := by simpa [hop] using hop'.symm
    exact hcompiled
  rw [hcsk, choiceAt, hchoice .unknown (by simp [hk]), Option.getD_some]

/-! ## Programs -/

variable {c : Cpu} {h : Host} {o : CodeOptions} {t : Tape} {p : Program} {s : State}
  {region : Array Interval}

/-- A program in interval mode leaves the choices of compiled code in the bytes
for choices. -/
theorem Host.assemble_records (c : Cpu) (hp : (h.assemble o t .interval).1 = .ok p)
    (hcall : Call t p.assignment .pd s) (hsize : region.size = t.vars.size)
    (hin : ∀ (k : Nat) (v : Interval), region[k]? = some v → Template.HoldsInterval
      (s.memory.load .pd (s.gpr .rdi + .ofNat 64 (k * Form.pd.bytes))) v)
    (hout : (s.outputArea t .pd).Disjoint (s.choiceArea t))
    (hclear : ∀ (k : Nat) (i : Instr), t.instrs[k]? = some i → i.op? ≠ some (.binary .min) →
      i.op? ≠ some (.binary .max) → s.memory (s.gpr .rcx + .ofNat 64 k) = 0) :
    (∀ i ∈ t.instrs, ∃ op, i.op? = some op ∧ op.isCompiled = true) ∧ t.WellFormed ∧
      ∃ s', c.run s p.insns = some s' ∧ ∀ k < t.size,
        s'.memory (s.gpr .rcx + .ofNat 64 k) =
          .ofNat 8 (t.choiceAt .compiledInterval region k).code.toNat := by
  obtain ⟨level, rs, hcode, S⟩ := Domain.Compiles.interval.setting c hp hcall hsize
    fun {k v} => hin k v
  refine ⟨fun i hi => S.isCompiled rfl hcode hi, S.wellFormed,
    S.run_tape_choices hcode hout fun k hk hunknown => ?_⟩
  -- A `min` or `max` always records a choice, so that no byte is left as it was found.
  have hi : t.instrs[k]? = some t.instrs[k] := Array.getElem?_eq_getElem hk
  obtain ⟨v, ch, -, hch, heq⟩ := S.slot hi
  have hknown : ∀ b : BinaryOp, b = .min ∨ b = .max → t.instrs[k].op? ≠ some (.binary b) := by
    rintro b hb hop
    simp only [Instr.outcome?, hop, Option.bind_eq_some_iff, Option.map_eq_some_iff,
      Prod.mk.injEq] at hch
    obtain ⟨x, -, y, -, -, rfl⟩ := hch
    rw [hunknown, Option.getD_some] at heq
    rcases hb with rfl | rfl
    · exact Interval.choiceOfBits_ne_unknown _ _ heq.symm
    · exact Interval.choiceOfBits_ne_unknown _ _ heq.symm
  exact hclear k _ hi (hknown _ (.inl rfl)) (hknown _ (.inr rfl))

/-- **Compiled code records the choices of evaluation.** For every tape, level
and number of registers for which there is a program in interval mode, every
call of it with a region in place whose bounds are in order, the bytes of
choices apart from the results and cleared where there is no `min` or `max`: if
no absolute value or square is taken of an interval below zero that has a NaN
for its lower bound, then evaluation over the region succeeds, the program
returns, and the byte of every position holds the choice that evaluation
records there. -/
theorem Host.assemble_records_choices (c : Cpu) (hp : (h.assemble o t .interval).1 = .ok p)
    (hcall : Call t p.assignment .pd s) (hsize : region.size = t.vars.size)
    (hin : ∀ (k : Nat) (v : Interval), region[k]? = some v → Template.HoldsInterval
      (s.memory.load .pd (s.gpr .rdi + .ofNat 64 (k * Form.pd.bytes))) v)
    (hout : (s.outputArea t .pd).Disjoint (s.choiceArea t))
    (hclear : ∀ (k : Nat) (i : Instr), t.instrs[k]? = some i → i.op? ≠ some (.binary .min) →
      i.op? ≠ some (.binary .max) → s.memory (s.gpr .rcx + .ofNat 64 k) = 0)
    (hregion : ∀ a ∈ region, a.lo.le a.hi = true) (hkeeps : t.KeepsOrder region) :
    ∃ out cs s', t.choicesOver region = .ok (out, cs) ∧ cs.length = t.size ∧
      c.run s p.insns = some s' ∧ ∀ (k : Nat) (ch : Choice), cs[k]? = some ch →
        s'.memory (s.gpr .rcx + .ofNat 64 k) = .ofNat 8 ch.code.toNat := by
  obtain ⟨hops, hwf, s', hrun, hbytes⟩ := Host.assemble_records c hp hcall hsize hin hout hclear
  have harith : ∀ i ∈ t.instrs, i.isArithmetic = true := by
    intro i hi
    obtain ⟨op, hop, hcompiled⟩ := hops i hi
    simpa [Instr.isArithmetic, hop] using Op.isArithmetic_of_isCompiled hcompiled
  have hord := hwf.not_isInverted hsize harith
    (fun a ha => Interval.isInverted_of_le (hregion a ha)) hkeeps
  obtain ⟨out, cs, hcs, hlen, hslot⟩ := hwf.choicesOver_compiled hsize hops hord
  refine ⟨out, cs, s', hcs, hlen, hrun, fun k ch hch => ?_⟩
  have hk : k < t.size := hlen ▸ (List.getElem?_eq_some_iff.1 hch).1
  obtain rfl : t.choiceAt .compiledInterval region k = ch := by simpa [hch] using (hslot k hk).symm
  exact hbytes k hk

/-! ## A call -/

/-- `min |min (1 / y + ∞) (-5)| x`. -/
def Tape.cappedDistance : Tape where
  instrs := #[{ code := Op.input.code, var := 0 }, { code := Op.input.code, var := 1 },
    { code := UnaryOp.recip.code, left := 1 }, { code := Op.const.code, imm := .infinity false },
    { code := BinaryOp.add.code, left := 2, right := 3 },
    { code := Op.const.code, imm := .ofInt (-5) },
    { code := BinaryOp.min.code, left := 4, right := 5 }, { code := UnaryOp.abs.code, left := 6 },
    { code := BinaryOp.min.code, left := 7, right := 0 }]
  outputs := #[8]
  vars := #[utf8 "x", utf8 "y"]

/-- A caller with two intervals as inputs, all other memory cleared. -/
def State.callingOver (x y : Interval) : State where
  xmm _ := .allOnes 128
  gpr r :=
    if r = .rdi then 0x1000 else if r = .rsi then 0x2000 else if r = .rdx then 0x3000
    else if r = .rcx then 0x4000 else 0
  zero := false
  memory :=
    Memory.store
      (Memory.store (fun _ => 0) .pd 0x1000 (.ofQuads (.ofNat 64 x.lo.bits) (.ofNat 64 x.hi.bits)))
      .pd 0x1010 (.ofQuads (.ofNat 64 y.lo.bits) (.ofNat 64 y.hi.bits))

/-- There is a program for the tape, and it can be called with any two
intervals. -/
theorem Host.assemble_cappedDistance :
    ∃ p, (Host.assemble {} {} .cappedDistance .interval).1 = .ok p ∧
      ∀ x y, Call .cappedDistance p.assignment .pd (.callingOver x y) ∧
        ((State.callingOver x y).outputArea .cappedDistance .pd).Disjoint
          ((State.callingOver x y).choiceArea .cappedDistance) := by
  have hassigned : ((Host.assemble {} {} .cappedDistance .interval).1.toOption.map
      (Assignment.spillBytes ∘ Program.assignment)) = some 0 := by
    decide +kernel
  generalize (Host.assemble {} {} .cappedDistance .interval).1 = result at hassigned
  cases result with
  | error e => simp [Except.toOption] at hassigned
  | ok p =>
    have hspills : p.assignment.spillBytes = 0 := by simpa [Except.toOption] using hassigned
    have hempty : ∀ (s : State) (x : BitVec 64), ¬(s.spillArea p.assignment).Has x := by
      intro s x hx
      simp [Area.Has, State.spillArea, hspills] at hx
    refine ⟨p, rfl, fun x y => ⟨⟨by decide, by decide, by decide, by rw [hspills]; decide,
      fun z _ hz => hempty _ z hz, ?_, fun z hz => absurd hz (hempty _ z),
      fun z hz => absurd hz (hempty _ z)⟩, ?_⟩⟩
    · exact fun z (hz : (z - 0x1000#64).toNat < 32) (hz' : (z - 0x4000#64).toNat < 9) => by bv_omega
    · exact fun z (hz : (z - 0x2000#64).toNat < 16) (hz' : (z - 0x4000#64).toNat < 9) => by bv_omega

/-- What the caller has put into memory, by looking. -/
theorem State.callingOver_ready {x y : Interval}
    (hload : ∀ k < 2, some ((callingOver x y).memory.load .pd
      ((callingOver x y).gpr .rdi + .ofNat 64 (k * Form.pd.bytes))).bounds = #[x, y][k]?)
    (hzero : ∀ k < 9, (callingOver x y).memory ((callingOver x y).gpr .rcx + .ofNat 64 k) = 0) :
    (∀ (k : Nat) (v : Interval), #[x, y][k]? = some v → Template.HoldsInterval
      ((callingOver x y).memory.load .pd
        ((callingOver x y).gpr .rdi + .ofNat 64 (k * Form.pd.bytes))) v) ∧
    ∀ (k : Nat) (i : Instr), Tape.cappedDistance.instrs[k]? = some i →
      i.op? ≠ some (.binary .min) → i.op? ≠ some (.binary .max) →
      (callingOver x y).memory ((callingOver x y).gpr .rcx + .ofNat 64 k) = 0 := by
  refine ⟨fun k v hv => ?_, fun k i hi _ _ => hzero k (Array.getElem?_eq_some_iff.1 hi).1⟩
  have hk : k < 2 := (Array.getElem?_eq_some_iff.1 hv).1
  rw [← hload k hk, Option.some.injEq] at hv
  exact hv ▸ ⟨.refl _, .refl _⟩

/-- With `x` from 2 to 3 and `y` from 1 to 2 both choices are the right
operand. -/
theorem Host.assemble_records_choices_cappedDistance :
    ∃ p s', (Host.assemble {} {} .cappedDistance .interval).1 = .ok p ∧
      Cpu.plain.run (.callingOver ⟨.ofInt 2, .ofInt 3⟩ ⟨.ofInt 1, .ofInt 2⟩) p.insns = some s' ∧
      (Tape.cappedDistance.choicesOver
          #[⟨.ofInt 2, .ofInt 3⟩, ⟨.ofInt 1, .ofInt 2⟩]).toOption.map (·.2) =
        some [.unknown, .unknown, .unknown, .unknown, .unknown, .unknown, .right, .unknown,
          .right] ∧
      s'.memory 0x4006 = 2 ∧ s'.memory 0x4007 = 0 ∧ s'.memory 0x4008 = 2 := by
  obtain ⟨p, hp, hcall⟩ := Host.assemble_cappedDistance
  obtain ⟨hin, hclear⟩ := State.callingOver_ready (x := ⟨.ofInt 2, .ofInt 3⟩)
    (y := ⟨.ofInt 1, .ofInt 2⟩) (by decide +kernel) (by decide +kernel)
  obtain ⟨out, cs, s', hcs, -, hrun, hbytes⟩ := Host.assemble_records_choices .plain hp
    (hcall _ _).1 rfl hin (hcall _ _).2 hclear (by decide +kernel)
    (Tape.keepsOrder_of_hasNaN (by decide +kernel))
  have hcs' : (Tape.cappedDistance.choicesOver
      #[⟨.ofInt 2, .ofInt 3⟩, ⟨.ofInt 1, .ofInt 2⟩]).toOption.map (·.2) =
      some [.unknown, .unknown, .unknown, .unknown, .unknown, .unknown, .right, .unknown,
        .right] := by
    decide +kernel
  obtain rfl : cs = _ := by simpa [hcs, Except.toOption] using hcs'
  exact ⟨p, s', hp, hrun, hcs', hbytes 6 .right rfl, hbytes 7 .unknown rfl, hbytes 8 .right rfl⟩

/-- With `y` from -1 to 1 the sum has a NaN bound and is, at most -5, an
interval below zero without a lower bound; its absolute value goes from 5 down
to 0. Against `x` from 2 to 3 evaluation records the left operand, and the
program either one. -/
theorem Host.assemble_records_other_choices :
    ∃ p s', (Host.assemble {} {} .cappedDistance .interval).1 = .ok p ∧
      (∀ a ∈ #[(⟨.ofInt 2, .ofInt 3⟩ : Interval), ⟨.ofInt (-1), .ofInt 1⟩],
        a.lo.le a.hi = true) ∧
      Cpu.plain.run (.callingOver ⟨.ofInt 2, .ofInt 3⟩ ⟨.ofInt (-1), .ofInt 1⟩) p.insns =
        some s' ∧
      (Tape.cappedDistance.choicesOver
          #[⟨.ofInt 2, .ofInt 3⟩, ⟨.ofInt (-1), .ofInt 1⟩]).toOption.map (·.2[8]?) =
        some (some .left) ∧
      s'.memory 0x4008 = .ofNat 8 Choice.both.code.toNat := by
  obtain ⟨p, hp, hcall⟩ := Host.assemble_cappedDistance
  obtain ⟨hin, hclear⟩ := State.callingOver_ready (x := ⟨.ofInt 2, .ofInt 3⟩)
    (y := ⟨.ofInt (-1), .ofInt 1⟩) (by decide +kernel) (by decide +kernel)
  obtain ⟨-, -, s', hrun, hbytes⟩ :=
    Host.assemble_records .plain hp (hcall _ _).1 rfl hin (hcall _ _).2 hclear
  have hboth : Tape.cappedDistance.choiceAt .compiledInterval
      #[⟨.ofInt 2, .ofInt 3⟩, ⟨.ofInt (-1), .ofInt 1⟩] 8 = .both := by
    decide +kernel
  exact ⟨p, s', hp, by decide +kernel, hrun, by decide +kernel, hboth ▸ hbytes 8 (by decide)⟩

end ScalarField
