/-
Programs compute what evaluation computes.

Whatever the tape, the mode, the number of registers and the level, if there is
a program at all then calling it returns, and leaves the results of evaluating
the tape where the caller looks for them. Nothing else changes but spill cells
and the choices of `min` and `max`.
-/
import ScalarField.Eval.Domain
import ScalarField.Proofs.Machine.Bounds
import ScalarField.Proofs.Machine.Derivatives
import ScalarField.Proofs.Machine.Simulation

namespace ScalarField

/-! ## Domains -/

/-- The template of a domain, and what it means that a register holds one of its
values. -/
inductive Domain.Compiles : {α : Type} → Domain α → Template → (Vec128 → α → Prop) → Prop
  | point : Compiles .point .point Template.HoldsPoint
  | interval : Compiles .interval .interval Template.HoldsInterval
  | simd4 : Compiles .simd4 .simd4 Template.HoldsLanes
  | grad : Compiles .grad .grad Template.HoldsGrad

namespace Domain.Compiles

variable {α : Type} {D : Domain α} {τ : Template} {Holds : Vec128 → α → Prop}

theorem ofMode_eq (hD : D.Compiles τ Holds) : Template.ofMode? D.mode = some τ := by
  cases hD <;> rfl

theorem computes (hD : D.Compiles τ Holds) (c : Cpu) : τ.Computes c D.compiled Holds := by
  cases hD with
  | point => exact Template.point_computes c
  | interval => exact Template.interval_computes c
  | simd4 => exact Template.simd4_computes c
  | grad => exact Template.grad_computes c

theorem stride_eq (hD : D.Compiles τ Holds) : τ.stride = .ofNat τ.form.bytes := by
  cases hD <;> rfl

theorem isExtreme (hD : D.Compiles τ Holds) {o : BinaryOp} {x y : α}
    (h : D.compiled.choice o x y ≠ .unknown) : o = .min ∨ o = .max := by
  cases hD with
  | interval => cases o <;> simp_all [Domain.interval, Interp.compiledInterval, Interval.compiledChoice]
  | _ => exact absurd rfl h

/-- The values that compiled code is compared with are those of evaluation. -/
theorem outcome_eq (hD : D.Compiles τ Holds) (inputs : Array α) (read : Nat → Option α) (i : Instr) :
    (i.outcome? D.interp inputs read).map Prod.fst =
      (i.outcome? D.compiled inputs read).map Prod.fst := by
  cases hD with
  | interval =>
    unfold Instr.outcome?
    split
    case h_4 =>
      cases read i.left <;> cases read i.right <;> rfl
    all_goals rfl
  | _ => rfl

end Domain.Compiles

/-! ## Programs -/

theorem Host.assemble_eq_ok {h : Host} {o : CodeOptions} {t : Tape} {m : Mode} {p : Program}
    (hp : (h.assemble o t m).1 = .ok p) :
    ∃ (level : Level) (regs : Int) (τ : Template), 1 ≤ regs ∧ regs ≤ assignable ∧ t.WellFormed ∧
      Template.ofMode? m = some τ ∧ Assignment.allocate t regs = .ok p.assignment ∧
      Codegen.tape ⟨τ, m, level, p.assignment⟩ t = .ok p.insns := by
  obtain ⟨level, regs, hregs, hgen⟩ : ∃ (level : Level) (regs : Int), (1 ≤ regs ∧ regs ≤ assignable) ∧
      Program.generate level regs t m = .ok p := by
    unfold assemble at hp
    split at hp
    · simp at hp
    · rename_i level regs warnings hconf
      refine ⟨level, regs, ?_, ?_⟩
      · unfold configure at hconf
        dsimp only at hconf
        split at hconf
        · simp at hconf
        · simp only [Prod.mk.injEq, Except.ok.injEq] at hconf
          omega
      · split at hp
        · simp at hp
        · rename_i p' hp'
          obtain rfl : p' = p := by simpa using hp
          exact hp'
  refine ⟨level, regs, ?_⟩
  unfold Program.generate at hgen
  split at hgen
  · simp at hgen
  · split at hgen
    · simp at hgen
    · rename_i hvalid
      split at hgen
      · simp at hgen
      · rename_i τ hτ
        split at hgen
        · simp at hgen
        · rename_i a ha
          split at hgen
          · simp at hgen
          · rename_i insns hinsns
            obtain rfl : _ = p := by simpa using hgen
            exact ⟨τ, hregs.1, hregs.2, (Tape.validate_eq_ok.1 hvalid).2, hτ, ha, hinsns⟩

/-- The choices of the latest evaluation, one for each slot. -/
def Tape.choiceAt {α : Type} (I : Interp α) (t : Tape) (inputs : Array α) (k : Nat) : Choice :=
  ((t.evaluated I inputs).slots.choices[k]?).getD .unknown

variable {α : Type} {D : Domain α} {τ : Template} {Holds : Vec128 → α → Prop}

/-- A program that is called with its inputs in place. -/
theorem Domain.Compiles.setting (hD : D.Compiles τ Holds) (c : Cpu) {h : Host} {o : CodeOptions}
    {t : Tape} {p : Program} (hp : (h.assemble o t D.mode).1 = .ok p) {s : State}
    (hcall : Call t p.assignment τ.form s) {inputs : Array α} (hsize : inputs.size = t.vars.size)
    (hin : ∀ {k : Nat} {v : α}, inputs[k]? = some v →
      Holds (s.memory.load τ.form (s.gpr .rdi + .ofNat 64 (k * τ.form.bytes))) v) :
    ∃ level rs, Codegen.tape ⟨τ, D.mode, level, p.assignment⟩ t = .ok p.insns ∧
      Setting c ⟨τ, D.mode, level, p.assignment⟩ D.compiled Holds t rs inputs
        (t.slotValues D.compiled inputs) (t.choiceAt D.compiled inputs) s := by
  obtain ⟨level, regs, τ', hlow, hhigh, hwf, hτ, ha, hcode⟩ := Host.assemble_eq_ok hp
  obtain rfl : τ = τ' := by simpa [hD.ofMode_eq] using hτ
  obtain ⟨a, rs, ha', hregs, huses, hsep⟩ := Assignment.allocate_separates hwf hlow
    (hhigh.trans (by decide))
  obtain rfl : a = p.assignment := by simpa [ha] using ha'.symm
  obtain ⟨-, -, -, hdone⟩ := hwf.eval_eq (I := D.compiled) hsize
  refine ⟨level, rs, hcode, ⟨hD.computes c, hD.stride_eq, hwf, fun {k i} hi => ?_, huses, hsep,
    hregs.le.trans hhigh, hcall, hsize, hin⟩⟩
  have hk : k < t.size := (Array.getElem?_eq_some_iff.1 hi).1
  obtain ⟨v, ch, hout, hv, hch⟩ := hdone.slot k hk i hi
  refine ⟨v, ch, hv, hout, ?_⟩
  rw [Tape.choiceAt, hch .unknown (by simp [hk]), Option.getD_some]

theorem Domain.Compiles.slotValues_eq (hD : D.Compiles τ Holds) {t : Tape} (hwf : t.WellFormed)
    {inputs : Array α} (hsize : inputs.size = t.vars.size) :
    t.slotValues D.interp inputs = t.slotValues D.compiled inputs := by
  have hmeans := hwf.means (I := D.interp) hsize
  refine Tape.Means.unique hwf ⟨hmeans.size, fun hi => ?_⟩ (hwf.means hsize)
  rw [← hD.outcome_eq, hmeans.slot hi]

theorem Domain.Compiles.extreme_of_choice (hD : D.Compiles τ Holds) {c : Cpu} {g : Codegen} {t : Tape}
    {rs : Array LiveRange} {inputs values : Array α} {choices : Nat → Choice} {s : State}
    (S : Setting c g D.compiled Holds t rs inputs values choices s) {k : Nat} (hk : k < t.size)
    (hchoice : choices k ≠ .unknown) :
    ∃ i, t.instrs[k]? = some i ∧ (i.op? = some (.binary .min) ∨ i.op? = some (.binary .max)) := by
  obtain ⟨i, hi⟩ : ∃ i, t.instrs[k]? = some i := ⟨_, Array.getElem?_eq_getElem hk⟩
  obtain ⟨v, ch, -, hout, heq⟩ := S.slot hi
  refine ⟨i, hi, ?_⟩
  rw [heq] at hchoice
  obtain ⟨ch, rfl⟩ : ∃ ch', ch = some ch' := by
    cases ch with
    | none => exact absurd rfl hchoice
    | some ch => exact ⟨ch, rfl⟩
  unfold Instr.outcome? at hout
  split at hout
  case h_4 o hop =>
    obtain ⟨x, -, y, -, -, rfl⟩ : ∃ x, values[i.left]? = some x ∧ ∃ y, values[i.right]? = some y ∧
        D.compiled.binary o x y = v ∧ D.compiled.choice o x y = ch := by
      simpa [Option.bind_eq_some_iff] using hout
    rcases hD.isExtreme hchoice with rfl | rfl
    · exact .inl hop
    · exact .inr hop
  all_goals simp at hout

/-- **Compiled code computes what evaluation computes.** For every tape, mode,
level and number of registers for which there is a program, and every call of it
with the inputs in place: evaluation succeeds, the program returns, and the
results of evaluation are in the output area, up to the payload of a NaN.
Nothing changes outside the output area, the spill area and the choices of `min`
and `max`. -/
theorem Host.assemble_computes (hD : D.Compiles τ Holds) (c : Cpu) {h : Host} {o : CodeOptions}
    {t : Tape} {p : Program} (hp : (h.assemble o t D.mode).1 = .ok p) {s : State}
    (hcall : Call t p.assignment τ.form s) {inputs : Array α} (hsize : inputs.size = t.vars.size)
    (hin : ∀ (k : Nat) (v : α), inputs[k]? = some v →
      Holds (s.memory.load τ.form (s.gpr .rdi + .ofNat 64 (k * τ.form.bytes))) v) :
    ∃ out s', t.eval D.interp inputs = .ok out ∧ c.run s p.insns = some s' ∧
      out.length = t.outputs.size ∧
      (∀ (k : Nat) (v : α), out[k]? = some v →
        Holds (s'.memory.load τ.form (s.gpr .rsi + .ofNat 64 (k * τ.form.bytes))) v) ∧
      ∀ x, s'.memory x ≠ s.memory x →
        (s.outputArea t τ.form).Has x ∨ (s.spillArea p.assignment).Has x ∨
        ∃ k i, t.instrs[k]? = some i ∧
          (i.op? = some (.binary .min) ∨ i.op? = some (.binary .max)) ∧
          x = s.gpr .rcx + .ofNat 64 k := by
  obtain ⟨level, rs, hcode, S⟩ := hD.setting c hp hcall hsize fun {k v} => hin k v
  obtain ⟨out, heval, hout, -⟩ := S.wellFormed.eval_eq (I := D.interp) hsize
  obtain ⟨s', hrun, hresult, hmem, -⟩ := S.run_tape hcode
  rw [hD.slotValues_eq S.wellFormed hsize] at hout
  have hlength : t.outputs.size = out.length := by simpa using hout.length_eq
  refine ⟨out, s', heval, hrun, hlength.symm, fun k v hv => ?_, fun x hx => ?_⟩
  · obtain ⟨hk, rfl⟩ := List.getElem?_eq_some_iff.1 hv
    have hk' : k < t.outputs.size := hlength ▸ hk
    exact hresult (Array.getElem?_eq_getElem hk') (by simpa using hout.get (by simpa using hk') hk)
  · by_contra hnone
    simp only [not_or, not_exists, not_and] at hnone
    refine hx (hmem x hnone.1 hnone.2.1 fun k hk hknown heq => ?_)
    obtain ⟨i, hi, hop⟩ := hD.extreme_of_choice S hk hknown
    exact hnone.2.2 k i hi hop heq

/-! ## A call -/

/-- `min x y * x`. -/
def Tape.cappedProduct : Tape where
  instrs := #[{ code := Op.input.code, var := 0 }, { code := Op.input.code, var := 1 },
    { code := BinaryOp.min.code, left := 0, right := 1 },
    { code := BinaryOp.mul.code, left := 2, right := 0 }]
  outputs := #[3]
  vars := #[utf8 "x", utf8 "y"]

/-- The processor whose arithmetic is that of the operators. -/
def Cpu.plain : Cpu where
  arith _ := ⟨Scalar.unary, Scalar.binary, fun _ _ => .refl _, fun _ _ _ => .refl _⟩

/-- A caller with the intervals `[1, 2]` and `[-1, 3]` as inputs. -/
def State.calling : State where
  xmm _ := .allOnes 128
  gpr r :=
    if r = .rdi then 0x1000 else if r = .rsi then 0x2000 else if r = .rdx then 0x3000
    else if r = .rcx then 0x4000 else 0
  zero := false
  memory :=
    Memory.store
      (Memory.store (fun _ => 0xAA) .pd 0x1000
        (.ofQuads (.ofNat 64 (.ofInt 1 : Binary64).bits) (.ofNat 64 (.ofInt 2 : Binary64).bits)))
      .pd 0x1010
      (.ofQuads (.ofNat 64 (.ofInt (-1) : Binary64).bits) (.ofNat 64 (.ofInt 3 : Binary64).bits))

/-- The program of `min x y * x` with one register, called from a state with
arbitrary registers, leaves `[-2, 4]` in the output area. -/
theorem Host.assemble_computes_cappedProduct :
    ∃ p s' v, (Host.assemble {} { regs := 1 } .cappedProduct .interval).1 = .ok p ∧
      p.assignment.spills = 2 ∧ Cpu.plain.run .calling p.insns = some s' ∧
      Tape.cappedProduct.eval .interval #[⟨.ofInt 1, .ofInt 2⟩, ⟨.ofInt (-1), .ofInt 3⟩] = .ok [v] ∧
      v = ⟨.ofInt (-2), .ofInt 4⟩ ∧ Template.HoldsInterval (s'.memory.load .pd 0x2000) v := by
  have hassigned : ((Host.assemble {} { regs := 1 } .cappedProduct .interval).1.toOption.map
      Program.assignment) = some ⟨1, #[.reg 0, .spill 0, .spill 1, .spill 0], 2⟩ := by
    decide +kernel
  have heval : Tape.cappedProduct.eval .interval #[⟨.ofInt 1, .ofInt 2⟩, ⟨.ofInt (-1), .ofInt 3⟩] =
      .ok [⟨.ofInt (-2), .ofInt 4⟩] := by
    decide +kernel
  generalize hresult : (Host.assemble {} { regs := 1 } .cappedProduct .interval).1 = result
    at hassigned
  cases result with
  | error e => simp [Except.toOption] at hassigned
  | ok p =>
    have ha : p.assignment = ⟨1, #[.reg 0, .spill 0, .spill 1, .spill 0], 2⟩ := by
      simpa [Except.toOption] using hassigned
    have hcall : Call .cappedProduct p.assignment .pd .calling := by
      rw [ha]
      refine ⟨by decide, by decide, by decide, by decide, ?_, ?_, ?_, ?_⟩
      · exact fun x (hx : (x - 0x1000#64).toNat < 32) (hx' : (x - 0x3000#64).toNat < 32) => by
          bv_omega
      · exact fun x (hx : (x - 0x1000#64).toNat < 32) (hx' : (x - 0x4000#64).toNat < 4) => by
          bv_omega
      · exact fun x (hx : (x - 0x3000#64).toNat < 32) (hx' : (x - 0x4000#64).toNat < 4) => by
          bv_omega
      · exact fun x (hx : (x - 0x3000#64).toNat < 32) (hx' : (x - 0x2000#64).toNat < 16) => by
          bv_omega
    have hin : ∀ (k : Nat) (v : Interval),
        #[(⟨.ofInt 1, .ofInt 2⟩ : Interval), ⟨.ofInt (-1), .ofInt 3⟩][k]? = some v →
        Template.HoldsInterval (State.calling.memory.load .pd
          (State.calling.gpr .rdi + .ofNat 64 (k * Form.pd.bytes))) v := by
      have hload : ∀ k < 2, some (State.calling.memory.load .pd
          (State.calling.gpr .rdi + .ofNat 64 (k * Form.pd.bytes))).bounds =
          #[(⟨.ofInt 1, .ofInt 2⟩ : Interval), ⟨.ofInt (-1), .ofInt 3⟩][k]? := by
        decide +kernel
      intro k v hv
      have hk : k < 2 := (Array.getElem?_eq_some_iff.1 hv).1
      rw [← hload k hk, Option.some.injEq] at hv
      exact hv ▸ ⟨.refl _, .refl _⟩
    obtain ⟨out, s', heval', hrun, -, hout, -⟩ :=
      Host.assemble_computes .interval .plain hresult hcall rfl hin
    obtain rfl : [⟨.ofInt (-2), .ofInt 4⟩] = out := by
      simpa using heval.symm.trans heval'
    exact ⟨p, s', _, rfl, by rw [ha], hrun, heval, rfl, hout 0 _ rfl⟩

end ScalarField
