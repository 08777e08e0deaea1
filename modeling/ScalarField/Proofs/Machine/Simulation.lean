/-
Code runs along its tape.

After the code of the first instructions, every value that is still needed is
where the allocation puts it, and memory has changed in spill cells and
recorded choices only (`Reached`). One instruction loads its operands, computes
its value and saves it, which overwrites no value that is still needed because
the allocation keeps those apart.
-/
import ScalarField.Proofs.Machine.Call
import ScalarField.Proofs.Tape.Allocation

namespace ScalarField

/-! ## Running along a tape -/

/-- Code of a tape about to be called: its template computes an interpretation,
under which the slots have the given values and choices; its assignment keeps
live slots apart; and the state is that of a call with the given inputs. -/
structure Setting {α : Type} (c : Cpu) (g : Codegen) (I : Interp α) (Rep : Vec128 → α → Prop)
    (t : Tape) (rs : Array LiveRange) (inputs values : Array α) (choices : Nat → Choice)
    (s₀ : State) : Prop where
  computes : g.template.Computes c I Rep
  stride : g.template.stride = .ofNat g.template.form.bytes
  wellFormed : t.WellFormed
  slot : ∀ {k : Nat} {i : Instr}, t.instrs[k]? = some i → ∃ v ch, values[k]? = some v ∧
    i.outcome? I inputs (values[·]?) = some (v, ch) ∧ choices k = ch.getD .unknown
  uses : t.LastUses rs
  separates : g.assignment.Separates t rs
  regs_le : g.assignment.regs ≤ assignable
  call : Call t g.assignment g.template.form s₀
  inputs_size : inputs.size = t.vars.size
  input : ∀ {k : Nat} {v : α}, inputs[k]? = some v → Rep (s₀.memory.load g.template.form
    (s₀.gpr .rdi + .ofNat 64 (k * g.template.form.bytes))) v

/-- The code of the instructions before `pos` has been run. -/
structure Reached {α : Type} (g : Codegen) (Rep : Vec128 → α → Prop) (rs : Array LiveRange)
    (values : Array α) (choices : Nat → Choice) (s₀ : State) (pos : Nat) (s : State) : Prop where
  /-- What is still needed is in its location. -/
  held : ∀ {k : Nat} {v : α} {l : Loc} {r : LiveRange}, k < pos → rs[k]? = some r →
    (pos : Int) ≤ r.last → values[k]? = some v → g.assignment.locs[k]? = some l →
    Rep (l.content g.template.form s) v
  gpr : ∀ x, x ≠ .rax → x ≠ .r8 → s.gpr x = s₀.gpr x
  unchanged : ∀ x, ¬(s₀.spillArea g.assignment).Has x →
    (∀ k < pos, choices k ≠ .unknown → x ≠ s₀.gpr .rcx + .ofNat 64 k) → s.memory x = s₀.memory x
  recorded : ∀ k < pos, choices k ≠ .unknown →
    s.memory (s₀.gpr .rcx + .ofNat 64 k) = .ofNat 8 (choices k).code.toNat

namespace Setting

variable {α : Type} {c : Cpu} {g : Codegen} {I : Interp α} {Rep : Vec128 → α → Prop} {t : Tape}
  {rs : Array LiveRange} {inputs values : Array α} {choices : Nat → Choice} {s₀ s s' : State}
  {pos : Nat}

theorem exists_loc (S : Setting c g I Rep t rs inputs values choices s₀) {k : Nat} {l : Loc}
    (hl : g.assignment.locs[k]? = some l) : l.Exists g.assignment := by
  cases l with
  | reg n =>
    have h1 := S.separates.reg_lt k n hl
    have h2 := S.regs_le
    simp only [Loc.Exists]
    omega
  | spill n => exact S.separates.spill_lt k n hl

theorem cell_has (S : Setting c g I Rep t rs inputs values choices s₀) {n : Nat}
    (hn : (n : Int) < g.assignment.spills) {x : BitVec 64}
    (hx : (Area.mk (s₀.gpr .rdx + .ofNat 64 (n * Assignment.cellBytes)) g.template.form.bytes).Has x) :
    (s₀.spillArea g.assignment).Has x := by
  have hbytes := Memory.bytes_le g.template.form
  have hle := S.call.spills_le
  simp only [Assignment.spillBytes] at hle
  refine Area.Has.of_part (A := s₀.spillArea g.assignment) hx ?_ ?_ <;>
    simp only [State.spillArea, Assignment.spillBytes, Assignment.cellBytes] at * <;> omega

theorem cell_address (S : Setting c g I Rep t rs inputs values choices s₀) {n : Nat}
    (hn : (n : Int) < g.assignment.spills) (s : State) :
    s.address .rdx (.ofNat (n * Assignment.cellBytes)) =
      s.gpr .rdx + .ofNat 64 (n * Assignment.cellBytes) := by
  have hle := S.call.spills_le
  simp only [Assignment.spillBytes, Assignment.cellBytes] at *
  exact State.address_ofNat (by omega)

/-- The operand of an instruction is loaded into the register that the code
takes it from. -/
theorem execAll_operand (S : Setting c g I Rep t rs inputs values choices s₀) {k : Nat} {l : Loc}
    (hl : g.assignment.locs[k]? = some l) (scratch : Xmm) {v : α}
    (hv : Rep (l.content g.template.form s) v) :
    ∃ r', c.execAll s (g.operand k scratch).1 = some { s with xmm := r' } ∧
      Rep (r' (g.operand k scratch).2) v ∧ ∀ x ≠ scratch, r' x = s.xmm x := by
  cases l with
  | reg n =>
    simp only [Codegen.operand, hl]
    exact ⟨s.xmm, rfl, hv, fun _ _ => rfl⟩
  | spill n =>
    simp only [Codegen.operand, hl, Codegen.cell]
    refine ⟨_, by simp only [Cpu.execAll, Cpu.exec, Cpu.vector?, Cpu.other?, State.setXmm]; rfl, ?_,
      fun x hx => by simp [hx]⟩
    rw [Function.update_self, S.cell_address (S.exists_loc hl)]
    exact hv

/-- The register of an operand is the scratch register, or one that values are
assigned to and that is not that of the result. -/
theorem operand_register (S : Setting c g I Rep t rs inputs values choices s₀) {k : Nat}
    {l l' : Loc} (hl : g.assignment.locs[k]? = some l) (hl' : l'.Exists g.assignment) (hne : l ≠ l')
    (scratch : Xmm) :
    (g.operand k scratch).2 = scratch ∨
      (g.operand k scratch).2 < .spilled ∧ l'.target ≠ (g.operand k scratch).2 := by
  cases l with
  | spill n => exact .inl (by simp only [Codegen.operand, hl])
  | reg n =>
    have hn : n < assignable := S.exists_loc hl
    simp only [Codegen.operand, hl]
    refine .inr ⟨reg_lt hn, ?_⟩
    cases l' with
    | reg m => exact fun h => hne (by rw [reg_inj hl' hn h])
    | spill m => exact fun h => UInt8.lt_irrefl Xmm.spilled (lt_of_eq_of_lt h (reg_lt hn))

/-- Locations are not affected by what happens to scratch registers. -/
theorem content_of_scratch {l : Loc} (hl : l.Exists g.assignment) {φ : Form} {r : Xmm → Vec128}
    (hr : ∀ x < .spilled, r x = s.xmm x) : l.content φ { s with xmm := r } = l.content φ s := by
  cases l with
  | reg n => exact hr _ (reg_lt hl)
  | spill n => rfl

/-- What an instruction reads is still there, and not where its result goes. -/
theorem operand_held (S : Setting c g I Rep t rs inputs values choices s₀)
    (R : Reached g Rep rs values choices s₀ pos s) {i : Instr} (hi : t.instrs[pos]? = some i)
    {k : Nat} (hk : k ∈ i.args) {x : α} (hx : values[k]? = some x) {l' : Loc}
    (hl' : g.assignment.locs[pos]? = some l') :
    ∃ l, g.assignment.locs[k]? = some l ∧ l ≠ l' ∧ Rep (l.content g.template.form s) x := by
  have hpos : pos < t.size := (Array.getElem?_eq_some_iff.1 hi).1
  have hlt : k < pos := (S.wellFormed.instr hi).args k hk
  obtain ⟨r, hr, -, -, -, hread, -⟩ := S.uses.range k (by omega)
  obtain ⟨l, hl⟩ : ∃ l, g.assignment.locs[k]? = some l :=
    ⟨_, Array.getElem?_eq_getElem (by rw [S.separates.size]; omega)⟩
  refine ⟨l, hl, fun heq => ?_, R.held hlt hr (hread pos i hi hk) hx hl⟩
  exact S.separates.apart k pos r hlt hpos hr (hread pos i hi hk) (by rw [hl, hl', heq])

/-! ## One instruction -/

/-- A value has been computed in a register, and its choice recorded. -/
structure Computed (Rep : Vec128 → α → Prop) (pos : Nat) (d : Xmm) (v : α) (choice : Choice)
    (s s' : State) : Prop where
  value : Rep (s'.xmm d) v
  xmm : ∀ x, x ≠ d → x < .spilled → s'.xmm x = s.xmm x
  gpr : ∀ x, x ≠ .rax → x ≠ .r8 → s'.gpr x = s.gpr x
  memory : s'.memory = Template.recorded s.memory (s.address .rcx (.ofNat pos)) choice

theorem target_lt {l : Loc} (hl : l.Exists g.assignment) : l.target < .spilledLeft := by
  cases l with
  | reg n => exact UInt8.lt_trans (reg_lt hl) (by decide)
  | spill n => exact (by decide : Xmm.spilled < .spilledLeft)

theorem register_apart {a d scratch : Xmm} (hd : d < .spilledLeft) (hs : .spilledLeft ≤ scratch)
    (hs' : scratch < .tmp0) (h : a = scratch ∨ a < .spilled ∧ d ≠ a) : d ≠ a ∧ a < .tmp0 := by
  rcases h with rfl | ⟨hlt, hne⟩
  · exact ⟨UInt8.ne_of_lt (UInt8.lt_of_lt_of_le hd hs), hs'⟩
  · exact ⟨hne, lt_tmp0_of_lt_spilled hlt⟩

theorem choice_has (S : Setting c g I Rep t rs inputs values choices s₀) {k : Nat} (hk : k < t.size) :
    (s₀.choiceArea t).Has (s₀.gpr .rcx + .ofNat 64 k) := by
  have hsize := S.call.size_lt
  rw [Area.Has, State.choiceArea, Memory.address_sub _ (by omega)]
  exact hk

theorem input_load (S : Setting c g I Rep t rs inputs values choices s₀)
    (R : Reached g Rep rs values choices s₀ pos s) (hpos : pos ≤ t.size) {k : Nat} {v : α}
    (hv : inputs[k]? = some v) :
    Rep (s.memory.load g.template.form
      (s₀.gpr .rdi + .ofNat 64 (k * g.template.form.bytes))) v := by
  have hk : k < t.vars.size := S.inputs_size ▸ (Array.getElem?_eq_some_iff.1 hv).1
  have hle := S.call.inputs_le
  have hend := element_end g.template.form.bytes hk
  have hload : s.memory.load g.template.form
      (s₀.gpr .rdi + .ofNat 64 (k * g.template.form.bytes)) = s₀.memory.load g.template.form
      (s₀.gpr .rdi + .ofNat 64 (k * g.template.form.bytes)) := by
    refine Memory.load_congr fun x hx => ?_
    have hin : (s₀.inputArea t g.template.form).Has x :=
      .of_part hx hend (by simp only [State.inputArea]; omega)
    refine R.unchanged x (S.call.inputs_spills x hin) fun j hj _ heq => ?_
    exact S.call.inputs_choices x hin (heq ▸ S.choice_has (by omega))
  rw [hload]
  exact S.input hv

theorem input_computed (S : Setting c g I Rep t rs inputs values choices s₀)
    (R : Reached g Rep rs values choices s₀ pos s) {i : Instr} (hi : t.instrs[pos]? = some i)
    (hop : i.op? = some .input) {d : Xmm} {code : List Insn}
    (hcode : g.compute pos i .input d = some code) {v : α} {ch : Option Choice}
    (hout : i.outcome? I inputs (values[·]?) = some (v, ch)) :
    ∃ s', c.execAll s code = some s' ∧ Computed Rep pos d v (ch.getD .unknown) s s' := by
  obtain ⟨h0, hlt⟩ := (S.wellFormed.instr hi).var hop
  obtain ⟨k, hk⟩ : ∃ k : Nat, i.var = k := ⟨i.var.toNat, by omega⟩
  obtain ⟨hv, rfl⟩ : inputs[k]? = some v ∧ none = ch := by
    have hnat : ¬(k : Int) < 0 := by omega
    simpa [Instr.outcome?, hop, hk, hnat] using hout
  have hbytes : k * g.template.form.bytes < 2 ^ 31 := by
    have hle := S.call.inputs_le
    have hpos := g.template.form.bytes_pos
    have hend := element_end g.template.form.bytes (show k < t.vars.size by omega)
    omega
  cases hcode
  refine ⟨s.setXmm d _, by simp only [Cpu.execAll, Cpu.exec, Cpu.vector?, Cpu.other?]; rfl, ?_,
    fun y hy _ => by simp [State.setXmm, hy], fun _ _ _ => rfl, rfl⟩
  rw [hk, Int32.ofInt_eq_ofNat, State.address_mul S.stride hbytes, R.gpr _ (by decide) (by decide)]
  simpa [State.setXmm] using S.input_load R (Array.getElem?_eq_some_iff.1 hi).1.le hv

theorem unary_computed (S : Setting c g I Rep t rs inputs values choices s₀)
    (R : Reached g Rep rs values choices s₀ pos s) {i : Instr} (hi : t.instrs[pos]? = some i)
    {u : UnaryOp} (hop : i.op? = some (.unary u)) {l : Loc} (hl : g.assignment.locs[pos]? = some l)
    {code : List Insn} (hcode : g.compute pos i (.unary u) l.target = some code) {v : α}
    {ch : Option Choice} (hout : i.outcome? I inputs (values[·]?) = some (v, ch)) :
    ∃ s', c.execAll s code = some s' ∧ Computed Rep pos l.target v (ch.getD .unknown) s s' := by
  obtain ⟨x, hx, rfl, rfl⟩ : ∃ x, values[i.left]? = some x ∧ I.unary u x = v ∧ none = ch := by
    simpa [Instr.outcome?, hop] using hout
  obtain ⟨k, hk, hne, hheld⟩ := S.operand_held R hi (by simp [Instr.args_unary hop]) hx hl
  obtain ⟨body, hbody, rfl⟩ := Option.map_eq_some_iff.1 hcode
  obtain ⟨r₁, hr₁, hrep, hframe⟩ := S.execAll_operand hk .spilledLeft hheld
  have hd := target_lt (S.exists_loc hl)
  obtain ⟨hda, ha⟩ := register_apart hd (by decide) (by decide)
    (S.operand_register hk (S.exists_loc hl) hne .spilledLeft)
  obtain ⟨r₂, hr₂, hrep', hframe'⟩ := S.computes.unary hbody
    ⟨hda, hda, UInt8.lt_trans hd (by decide), ha, ha⟩ hrep
  refine ⟨{ s with xmm := r₂ }, ?_, hrep', fun y hy hlt => ?_, fun _ _ _ => rfl, rfl⟩
  · rw [Cpu.execAll_append hr₁, Cpu.execAll_of_vectors hr₂]
  · exact (hframe' y hy (lt_tmp0_of_lt_spilled hlt)).trans (hframe y (ne_of_lt_spilled hlt (by decide)))

theorem binary_computed (S : Setting c g I Rep t rs inputs values choices s₀)
    (R : Reached g Rep rs values choices s₀ pos s) {i : Instr} (hi : t.instrs[pos]? = some i)
    {o : BinaryOp} (hop : i.op? = some (.binary o)) {l : Loc}
    (hl : g.assignment.locs[pos]? = some l) {code : List Insn}
    (hcode : g.compute pos i (.binary o) l.target = some code) {v : α}
    {ch : Option Choice} (hout : i.outcome? I inputs (values[·]?) = some (v, ch)) :
    ∃ s', c.execAll s code = some s' ∧ Computed Rep pos l.target v (ch.getD .unknown) s s' := by
  obtain ⟨x, hx, y, hy, rfl, rfl⟩ : ∃ x, values[i.left]? = some x ∧
      ∃ y, values[i.right]? = some y ∧ I.binary o x y = v ∧ some (I.choice o x y) = ch := by
    simpa [Instr.outcome?, hop, Option.bind_eq_some_iff] using hout
  obtain ⟨k, hk, hne, hheld⟩ := S.operand_held R hi (by simp [Instr.args_binary hop]) hx hl
  obtain ⟨m, hm, hne', hheld'⟩ := S.operand_held R hi (by simp [Instr.args_binary hop]) hy hl
  obtain ⟨body, hbody, rfl⟩ := Option.map_eq_some_iff.1 hcode
  have hd := target_lt (S.exists_loc hl)
  have hleft := S.operand_register hk (S.exists_loc hl) hne .spilledLeft
  have hright := S.operand_register hm (S.exists_loc hl) hne' .spilledRight
  obtain ⟨hda, ha⟩ := register_apart hd (by decide) (by decide) hleft
  obtain ⟨hdb, hb⟩ := register_apart hd (by decide) (by decide) hright
  obtain ⟨r₁, hr₁, hrep, hframe⟩ := S.execAll_operand hk .spilledLeft hheld
  have hlow : ∀ z < .spilled, r₁ z = s.xmm z := fun z hz =>
    hframe z (ne_of_lt_spilled hz (by decide))
  rw [← content_of_scratch (S.exists_loc hm) hlow] at hheld'
  obtain ⟨r₂, hr₂, hrep', hframe'⟩ := S.execAll_operand hm .spilledRight hheld'
  -- The second load leaves the register of the first operand alone.
  have hkeep : r₂ (g.operand i.left .spilledLeft).2 = r₁ (g.operand i.left .spilledLeft).2 := by
    refine hframe' _ ?_
    rcases hleft with heq | ⟨hlt, -⟩
    · rw [heq]; decide
    · exact ne_of_lt_spilled hlt (by decide)
  obtain ⟨s', hs', hvalue, hxmm, hgpr, hmem⟩ := S.computes.binary (s := { s with xmm := r₂ }) hbody
    ⟨hda, hdb, UInt8.lt_trans hd (by decide), ha, hb⟩ (hkeep ▸ hrep) hrep'
  refine ⟨s', ?_, hvalue, fun z hz hlt => ?_, hgpr, hmem⟩
  · rw [List.append_assoc, Cpu.execAll_append hr₁, Cpu.execAll_append hr₂, hs']
  · rw [hxmm z hz (lt_tmp0_of_lt_spilled hlt)]
    exact (hframe' z (ne_of_lt_spilled hlt (by decide))).trans (hlow z hlt)

/-- The operands are loaded, and the operator is computed. -/
theorem compute_computed (S : Setting c g I Rep t rs inputs values choices s₀)
    (R : Reached g Rep rs values choices s₀ pos s) {i : Instr} (hi : t.instrs[pos]? = some i)
    {op : Op} (hop : i.op? = some op) {l : Loc} (hl : g.assignment.locs[pos]? = some l)
    {code : List Insn} (hcode : g.compute pos i op l.target = some code) {v : α}
    {ch : Option Choice} (hout : i.outcome? I inputs (values[·]?) = some (v, ch)) :
    ∃ s', c.execAll s code = some s' ∧ Computed Rep pos l.target v (ch.getD .unknown) s s' := by
  cases op with
  | input => exact S.input_computed R hi hop hcode hout
  | const =>
    obtain ⟨rfl, rfl⟩ : I.const i.imm = v ∧ none = ch := by
      simpa [Instr.outcome?, hop] using hout
    obtain ⟨x, hx, hv⟩ := S.computes.const s.xmm l.target i.imm
    cases hcode
    exact ⟨_, Cpu.execAll_of_vectors hx, by simpa using hv, fun y hy _ => by simp [hy],
      fun _ _ _ => rfl, rfl⟩
  | unary u => exact S.unary_computed R hi hop hl hcode hout
  | binary o => exact S.binary_computed R hi hop hl hcode hout

/-- Moving a value to its location leaves all other locations alone. -/
theorem execAll_save (S : Setting c g I Rep t rs inputs values choices s₀) {l : Loc}
    (hl : l.Exists g.assignment) (hrdx : s.gpr .rdx = s₀.gpr .rdx) {v : α}
    (hv : Rep (s.xmm l.target) v) :
    ∃ m, c.execAll s (l.save g.template.form) = some { s with memory := m } ∧
      Rep (l.content g.template.form { s with memory := m }) v ∧
      (∀ l', l'.Exists g.assignment → l' ≠ l →
        l'.content g.template.form { s with memory := m } = l'.content g.template.form s) ∧
      ∀ x, ¬(s₀.spillArea g.assignment).Has x → m x = s.memory x := by
  cases l with
  | reg n => exact ⟨s.memory, rfl, hv, fun _ _ _ => rfl, fun _ _ => rfl⟩
  | spill n =>
    have haddress := S.cell_address hl s
    refine ⟨_, by
      simp only [Loc.save, Codegen.cell, Cpu.execAll, Cpu.exec, Cpu.vector?, Cpu.other?, haddress]
      rfl, ?_, fun l' hl' hne => ?_, fun x hx => ?_⟩
    · simp only [Loc.content]
      rw [Memory.load_store]
      exact S.computes.moved hv
    · cases l' with
      | reg m => rfl
      | spill m =>
        have hmn : m ≠ n := fun h => hne (by rw [h])
        have hbytes := Memory.bytes_le g.template.form
        have hle := S.call.spills_le
        have hn : (n : Int) < g.assignment.spills := hl
        have hm : (m : Int) < g.assignment.spills := hl'
        simp only [Assignment.spillBytes, Assignment.cellBytes] at hle
        refine Memory.load_congr fun x hx => Memory.store_of_not_has fun hx' => ?_
        refine (s.spillArea g.assignment).part_disjoint (i := m * 16) (j := n * 16) ?_ ?_ ?_ x hx hx' <;>
          omega
    · refine Memory.store_of_not_has fun hx' => hx (S.cell_has hl ?_)
      rwa [← hrdx]

theorem Computed.content_eq (S : Setting c g I Rep t rs inputs values choices s₀)
    {l l' : Loc} {v : α} {choice : Choice} (C : Computed Rep pos l.target v choice s s')
    (hpos : pos < t.size) (hl : l.Exists g.assignment) (hl' : l'.Exists g.assignment) (hne : l' ≠ l)
    (hgpr : ∀ x, x ≠ .rax → x ≠ .r8 → s.gpr x = s₀.gpr x) :
    l'.content g.template.form s' = l'.content g.template.form s := by
  cases l' with
  | reg n =>
    refine C.xmm _ (fun heq => ?_) (reg_lt hl')
    cases l with
    | reg m => exact hne (by rw [reg_inj hl' hl heq])
    | spill m => exact UInt8.lt_irrefl Xmm.spilled (lt_of_eq_of_lt heq.symm (reg_lt hl'))
  | spill n =>
    have hsize := S.call.size_lt
    simp only [Loc.content, C.gpr .rdx (by decide) (by decide)]
    rw [hgpr .rdx (by decide) (by decide)]
    refine Memory.load_congr fun x hx => ?_
    rw [C.memory, State.address_ofNat (by omega), hgpr .rcx (by decide) (by decide)]
    refine Template.recorded_of_ne _ (fun heq => ?_) _
    exact S.call.spills_choices x (S.cell_has hl' hx) (heq ▸ S.choice_has hpos)

theorem step (S : Setting c g I Rep t rs inputs values choices s₀)
    (R : Reached g Rep rs values choices s₀ pos s) {i : Instr} (hi : t.instrs[pos]? = some i)
    {code : List Insn} (hcode : g.instr pos i = .ok code) :
    ∃ s', c.execAll s code = some s' ∧ Reached g Rep rs values choices s₀ (pos + 1) s' := by
  have hpos : pos < t.size := (Array.getElem?_eq_some_iff.1 hi).1
  have hsize := S.call.size_lt
  obtain ⟨l, hl⟩ : ∃ l, g.assignment.locs[pos]? = some l :=
    ⟨_, Array.getElem?_eq_getElem (by rw [S.separates.size]; exact hpos)⟩
  have hexists := S.exists_loc hl
  obtain ⟨v, ch, hv, hout, hchoice⟩ := S.slot hi
  obtain ⟨op, first, hop, hfirst, rfl⟩ := Codegen.instr_eq_ok hcode hl
  obtain ⟨s₁, hs₁, C⟩ := S.compute_computed R hi hop hl hfirst hout
  rw [← hchoice] at C
  have hgpr : ∀ x, x ≠ .rax → x ≠ .r8 → s₁.gpr x = s₀.gpr x := fun x h0 h8 =>
    (C.gpr x h0 h8).trans (R.gpr x h0 h8)
  obtain ⟨m, hs', hrep, hother, hmem⟩ :=
    S.execAll_save hexists (hgpr .rdx (by decide) (by decide)) C.value
  have hrecord : s₁.memory =
      Template.recorded s.memory (s₀.gpr .rcx + .ofNat 64 pos) (choices pos) := by
    rw [C.memory, State.address_ofNat (by omega), R.gpr .rcx (by decide) (by decide)]
  refine ⟨{ s₁ with memory := m }, by rw [Cpu.execAll_append hs₁, hs'], ?_, hgpr, ?_, ?_⟩
  · intro k w l' r hk hr hlast hw hl'
    rcases Nat.lt_succ_iff_lt_or_eq.1 hk with hlt | rfl
    · -- A value that is needed later is not in the location that is overwritten.
      have hne : l' ≠ l := fun heq =>
        S.separates.apart k pos r hlt hpos hr (by omega) (by rw [hl, hl', heq])
      rw [hother l' (S.exists_loc hl') hne,
        Computed.content_eq S C hpos hexists (S.exists_loc hl') hne R.gpr]
      exact R.held hlt hr (by omega) hw hl'
    · obtain rfl : l = l' := by simpa [hl] using hl'
      obtain rfl : v = w := by simpa [hv] using hw
      exact hrep
  · intro x hx hchoices
    simp only [hmem x hx, hrecord]
    by_cases hu : choices pos = .unknown
    · rw [hu]
      exact R.unchanged x hx fun k hk => hchoices k (by omega)
    · rw [Template.recorded_of_ne _ (hchoices pos (by omega) hu)]
      exact R.unchanged x hx fun k hk => hchoices k (by omega)
  · intro k hk hknown
    have hspill : ¬(s₀.spillArea g.assignment).Has (s₀.gpr .rcx + .ofNat 64 k) := fun h =>
      S.call.spills_choices _ h (S.choice_has (by omega))
    simp only [hmem _ hspill, hrecord]
    rcases Nat.lt_succ_iff_lt_or_eq.1 hk with hlt | rfl
    · rw [Template.recorded_of_ne _ (by bv_omega)]
      exact R.recorded k hlt hknown
    · exact Template.recorded_self _ _ hknown

theorem run (S : Setting c g I Rep t rs inputs values choices s₀) :
    ∀ {rest : List Instr} {pos : Nat} {s : State} {code : List Insn},
    Reached g Rep rs values choices s₀ pos s → t.instrs.toList.drop pos = rest →
    g.instrs pos rest = .ok code →
    ∃ s', c.execAll s code = some s' ∧ Reached g Rep rs values choices s₀ (pos + rest.length) s'
  | [], pos, s, code, R, _, hcode => by
    obtain rfl : [] = code := by simpa [Codegen.instrs] using hcode
    exact ⟨s, rfl, R⟩
  | i :: rest, pos, s, code, R, hdrop, hcode => by
    have hi : t.instrs[pos]? = some i := by
      have := congrArg List.head? hdrop
      simpa using this
    have hdrop' : t.instrs.toList.drop (pos + 1) = rest := by
      rw [← List.drop_drop, hdrop, List.drop_one, List.tail_cons]
    obtain ⟨first, code', hfirst, hcode', rfl⟩ := Codegen.instrs_cons_eq_ok hcode
    obtain ⟨s₁, hs₁, R₁⟩ := S.step R hi hfirst
    obtain ⟨s', hs', R'⟩ := S.run R₁ hdrop' hcode'
    refine ⟨s', by rw [Cpu.execAll_append hs₁, hs'], ?_⟩
    rwa [Nat.add_assoc, Nat.add_comm 1] at R'

/-! ## Results -/

/-- The results before number `j` have been stored since state `s₁`. -/
structure Stored (g : Codegen) (Rep : Vec128 → α → Prop) (t : Tape) (values : Array α)
    (s₀ s₁ : State) (j : Nat) (s : State) : Prop where
  xmm : ∀ x < .spilled, s.xmm x = s₁.xmm x
  gpr : s.gpr = s₁.gpr
  memory : ∀ x, ¬(s₀.outputArea t g.template.form).Has x → s.memory x = s₁.memory x
  result : ∀ {k o : Nat} {v : α}, k < j → t.outputs[k]? = some o → values[o]? = some v →
    Rep (s.memory.load g.template.form
      (s₀.gpr .rsi + .ofNat 64 (k * g.template.form.bytes))) v

theorem Stored.content_eq (S : Setting c g I Rep t rs inputs values choices s₀) {s₁ : State} {j : Nat}
    (E : Stored g Rep t values s₀ s₁ j s) (hrdx : s₁.gpr .rdx = s₀.gpr .rdx) {l : Loc}
    (hl : l.Exists g.assignment) : l.content g.template.form s = l.content g.template.form s₁ := by
  cases l with
  | reg n => exact E.xmm _ (reg_lt hl)
  | spill n =>
    simp only [Loc.content, E.gpr]
    rw [hrdx]
    exact Memory.load_congr fun x hx =>
      E.memory x (S.call.spills_outputs x (S.cell_has hl hx))

theorem output_end (S : Setting c g I Rep t rs inputs values choices s₀) {k : Nat}
    (hk : k < t.outputs.size) :
    k * g.template.form.bytes + g.template.form.bytes ≤ (s₀.outputArea t g.template.form).size ∧
      k * g.template.form.bytes < 2 ^ 31 := by
  have hle := S.call.outputs_le
  have hpos := g.template.form.bytes_pos
  have hend := element_end g.template.form.bytes hk
  exact ⟨hend, by omega⟩

theorem store (S : Setting c g I Rep t rs inputs values choices s₀) {s₁ : State}
    (R : Reached g Rep rs values choices s₀ t.size s₁) {j o : Nat}
    (E : Stored g Rep t values s₀ s₁ j s) (ho : t.outputs[j]? = some o) :
    ∃ s', c.execAll s ((g.operand o .spilledLeft).1 ++ [.store g.template.form
        (.ptr .rsi (.ofNat j * g.template.stride)) (g.operand o .spilledLeft).2]) = some s' ∧
      Stored g Rep t values s₀ s₁ (j + 1) s' := by
  obtain ⟨hj, -⟩ := Array.getElem?_eq_some_iff.1 ho
  obtain ⟨hend, hlt⟩ := S.output_end hj
  have hmem : o ∈ t.outputs := Array.mem_of_getElem? ho
  have hsize : o < t.size := S.wellFormed.output o hmem
  obtain ⟨r, hr, -, -, -, -, hlast⟩ := S.uses.range o hsize
  obtain ⟨l, hl⟩ : ∃ l, g.assignment.locs[o]? = some l :=
    ⟨_, Array.getElem?_eq_getElem (by rw [S.separates.size]; exact hsize)⟩
  obtain ⟨v, -, hv, -⟩ := S.slot (Array.getElem?_eq_getElem hsize)
  have hheld : Rep (l.content g.template.form s) v := by
    rw [Stored.content_eq S E (R.gpr .rdx (by decide) (by decide)) (S.exists_loc hl)]
    exact R.held hsize hr (hlast hmem).ge hv hl
  obtain ⟨r', hr', hrep, hframe⟩ := S.execAll_operand hl .spilledLeft hheld
  have haddress : s.address .rsi (.ofNat j * g.template.stride) =
      s₀.gpr .rsi + .ofNat 64 (j * g.template.form.bytes) := by
    rw [State.address_mul S.stride hlt, E.gpr, R.gpr .rsi (by decide) (by decide)]
  refine ⟨{ s with
      xmm := r'
      memory := s.memory.store g.template.form
        (s₀.gpr .rsi + .ofNat 64 (j * g.template.form.bytes))
        (r' (g.operand o .spilledLeft).2) }, ?_, ?_, E.gpr, ?_, ?_⟩
  · rw [Cpu.execAll_append hr', ← haddress]
    rfl
  · intro x hx
    rw [← E.xmm x hx]
    exact hframe x (ne_of_lt_spilled hx (by decide))
  · intro x hx
    rw [← E.memory x hx]
    exact Memory.store_of_not_has fun h => hx (.of_part h hend (by
      have := S.call.outputs_le
      simp only [State.outputArea]
      omega))
  · intro k o' w hk ho' hw
    rcases Nat.lt_succ_iff_lt_or_eq.1 hk with hkj | rfl
    · have hbefore := element_end g.template.form.bytes hkj
      have hbytes := Memory.bytes_le g.template.form
      have hload : (s.memory.store g.template.form
          (s₀.gpr .rsi + .ofNat 64 (j * g.template.form.bytes))
          (r' (g.operand o .spilledLeft).2)).load g.template.form
          (s₀.gpr .rsi + .ofNat 64 (k * g.template.form.bytes)) =
          s.memory.load g.template.form (s₀.gpr .rsi + .ofNat 64 (k * g.template.form.bytes)) :=
        Memory.load_congr fun x hx => Memory.store_of_not_has fun hx' =>
          (s₀.outputArea t g.template.form).part_disjoint (.inl hbefore) (by omega) (by omega) x hx hx'
      simp only [hload]
      exact E.result hkj ho' hw
    · obtain rfl : o = o' := by simpa [ho] using ho'
      obtain rfl : v = w := by simpa [hv] using hw
      rw [Memory.load_store]
      exact S.computes.moved hrep

theorem storeAll (S : Setting c g I Rep t rs inputs values choices s₀) {s₁ : State}
    (R : Reached g Rep rs values choices s₀ t.size s₁) :
    ∀ {rest : List Nat} {j : Nat} {s : State}, Stored g Rep t values s₀ s₁ j s →
    t.outputs.toList.drop j = rest →
    ∃ s', c.execAll s (g.outputs j rest) = some s' ∧
      Stored g Rep t values s₀ s₁ (j + rest.length) s'
  | [], j, s, E, _ => ⟨s, rfl, E⟩
  | o :: rest, j, s, E, hdrop => by
    have ho : t.outputs[j]? = some o := by
      have := congrArg List.head? hdrop
      simpa using this
    have hdrop' : t.outputs.toList.drop (j + 1) = rest := by
      rw [← List.drop_drop, hdrop, List.drop_one, List.tail_cons]
    obtain ⟨s₂, hs₂, E₂⟩ := S.store R E ho
    obtain ⟨s', hs', E'⟩ := S.storeAll R E₂ hdrop'
    refine ⟨s', ?_, ?_⟩
    · rw [Codegen.outputs, Cpu.execAll_append hs₂, hs']
    · rwa [Nat.add_assoc, Nat.add_comm 1] at E'

/-- **Code of a tape returns with the results in place.** Memory has changed in
the areas of results and of spilled values and in the choices that were made
only. -/
theorem run_tape (S : Setting c g I Rep t rs inputs values choices s₀) {insns : List Insn}
    (hcode : g.tape t = .ok insns) :
    ∃ s', c.run s₀ insns = some s' ∧
      (∀ {k o : Nat} {v : α}, t.outputs[k]? = some o → values[o]? = some v →
        Rep (s'.memory.load g.template.form
          (s₀.gpr .rsi + .ofNat 64 (k * g.template.form.bytes))) v) ∧
      (∀ x, ¬(s₀.outputArea t g.template.form).Has x → ¬(s₀.spillArea g.assignment).Has x →
        (∀ k < t.size, choices k ≠ .unknown → x ≠ s₀.gpr .rcx + .ofNat 64 k) →
        s'.memory x = s₀.memory x) ∧
      ∀ k < t.size, choices k ≠ .unknown →
        ¬(s₀.outputArea t g.template.form).Has (s₀.gpr .rcx + .ofNat 64 k) →
        s'.memory (s₀.gpr .rcx + .ofNat 64 k) = .ofNat 8 (choices k).code.toNat := by
  obtain ⟨code, hinstrs, rfl⟩ := Codegen.tape_eq_ok hcode
  have hstart : Reached g Rep rs values choices s₀ 0 s₀ :=
    ⟨fun h => absurd h (Nat.not_lt_zero _), fun _ _ _ => rfl, fun _ _ _ => rfl,
      fun _ h => absurd h (Nat.not_lt_zero _)⟩
  obtain ⟨s₁, hs₁, R⟩ := S.run hstart List.drop_zero hinstrs
  rw [Nat.zero_add, Array.length_toList] at R
  obtain ⟨s', hs', E⟩ := S.storeAll R (j := 0) (s := s₁)
    ⟨fun _ _ => rfl, rfl, fun _ _ => rfl, fun h => absurd h (Nat.not_lt_zero _)⟩ List.drop_zero
  rw [Nat.zero_add, Array.length_toList] at E
  refine ⟨s', ?_, fun {k o v} ho hv => ?_, fun x hout hspill hchoices => ?_, fun k hk hknown hout => ?_⟩
  · rw [List.append_assoc, Cpu.run_append hs₁, Cpu.run_append hs']
    rfl
  · exact E.result (Array.getElem?_eq_some_iff.1 ho).1 ho hv
  · rw [E.memory x hout]
    exact R.unchanged x hspill hchoices
  · rw [E.memory _ hout]
    exact R.recorded k hk hknown

end Setting

end ScalarField
