/-
Which tapes can be compiled, and for which the compiler gives up where.

The templates of all modes have code for the same operators
(`Template.unary_isSome_iff`, `Template.binary_isSome_iff`), so whether a tape
can be compiled depends on the level alone, and the first operator without a
template is the one that the compiler names (`Codegen.instrs_cases`). Everything
else that can go wrong with a valid tape is the level itself
(`Host.compile_cases`).
-/
import ScalarField.Code.Program
import ScalarField.Proofs.Tape.Allocation

namespace ScalarField

/-! ## Operators -/

namespace Op

/-- The operators that have code at every level. -/
def basic : List Op :=
  [.input, .const, .unary .neg, .unary .abs, .unary .recip, .unary .sqrt, .unary .square,
    .binary .add, .binary .sub, .binary .mul, .binary .div, .binary .min, .binary .max]

/-- The operators that need an instruction for rounding. -/
def rounding : List Op := [.unary .floor, .unary .ceil, .unary .round]

/-- An operator that has code at a level. -/
def Compilable (l : Level) (op : Op) : Prop :=
  op ∈ basic ∨ l.allows .sse41 = true ∧ op ∈ rounding

instance (l : Level) (op : Op) : Decidable (op.Compilable l) :=
  inferInstanceAs (Decidable (_ ∨ _))

end Op

namespace Template

variable {mode : Mode} {t : Template}

theorem rounding_isSome {f : Form} {m : UInt8} {l : Level} {d a : Xmm} :
    (rounding f m l d a).isSome = l.allows .sse41 := by
  unfold rounding
  split
  · rename_i h
    exact h.symm
  · rename_i h
    exact (Bool.eq_false_iff.2 h).symm

theorem unary_isSome_iff (h : ofMode? mode = some t) (l : Level) (u : UnaryOp) (d a : Xmm) :
    (t.unary l u d a).isSome = true ↔ (Op.unary u).Compilable l := by
  cases mode with
  | other code => cases h
  | _ =>
    obtain rfl := Option.some.inj h
    cases u <;>
      simp [point, interval, simd4, grad, Point.unary, Bounds.unary, FourLanes.unary,
        Derivatives.unary, Derivatives.step, rounding_isSome, Op.Compilable, Op.basic, Op.rounding]

theorem binary_isSome_iff (h : ofMode? mode = some t) (l : Level) (pos : Nat) (o : BinaryOp)
    (d a b : Xmm) : (t.binary pos o d a b).isSome = true ↔ (Op.binary o).Compilable l := by
  cases mode with
  | other code => cases h
  | _ =>
    obtain rfl := Option.some.inj h
    cases o <;>
      simp [point, interval, simd4, grad, Point.binary, Bounds.binary, FourLanes.binary,
        Derivatives.binary, Op.Compilable, Op.basic, Op.rounding]

end Template

/-! ## Tapes -/

namespace Tape

/-- The operators of a tape have code at a level. -/
def Compilable (t : Tape) (l : Level) : Prop :=
  ∀ (k : Nat) (i : Instr) (op : Op), t.instrs[k]? = some i → i.op? = some op → op.Compilable l

theorem compilable_iff {t : Tape} {l : Level} :
    t.Compilable l ↔ ∀ i ∈ t.instrs, ∀ op ∈ i.op?, op.Compilable l := by
  constructor
  · intro h i hi op hop
    obtain ⟨k, hk⟩ := Array.mem_iff_getElem?.1 hi
    exact h k i op hk hop
  · exact fun h k i op hi hop => h i (Array.mem_of_getElem? hi) op hop

instance (t : Tape) (l : Level) : Decidable (t.Compilable l) := decidable_of_iff' _ compilable_iff

/-- The first operator of a tape that has no code at a level. -/
structure BlockedAt (t : Tape) (l : Level) (pos : Nat) (op : Op) : Prop where
  at_pos : ∃ i, t.instrs[pos]? = some i ∧ i.op? = some op
  blocked : ¬op.Compilable l
  before : ∀ k < pos, ∀ (i : Instr) (o : Op), t.instrs[k]? = some i → i.op? = some o →
    o.Compilable l

theorem BlockedAt.not_compilable {t : Tape} {l : Level} {pos : Nat} {op : Op}
    (h : t.BlockedAt l pos op) : ¬t.Compilable l := by
  intro hall
  obtain ⟨i, hi, hop⟩ := h.at_pos
  exact h.blocked (hall pos i op hi hop)

theorem BlockedAt.unique {t : Tape} {l : Level} {pos pos' : Nat} {op op' : Op}
    (h : t.BlockedAt l pos op) (h' : t.BlockedAt l pos' op') : pos = pos' ∧ op = op' := by
  obtain ⟨i, hi, hop⟩ := h.at_pos
  obtain ⟨i', hi', hop'⟩ := h'.at_pos
  obtain rfl : pos = pos' := by
    rcases Nat.lt_trichotomy pos pos' with hlt | heq | hgt
    · exact absurd (h'.before pos hlt i op hi hop) h.blocked
    · exact heq
    · exact absurd (h.before pos' hgt i' op' hi' hop') h'.blocked
  obtain rfl := Option.some.inj (hi.symm.trans hi')
  exact ⟨rfl, Option.some.inj (hop.symm.trans hop')⟩

end Tape

namespace Codegen

variable {c : Codegen} {i : Instr} {op : Op}

theorem result_isSome_iff {compute : Xmm → Option (List Insn)} {p : Prop}
    (h : ∀ d, (compute d).isSome = true ↔ p) (slot : Nat) :
    (c.result slot compute).isSome = true ↔ p := by
  unfold result
  split
  · exact h _
  · rw [Option.isSome_map]
    exact h _
  · exact h _

/-- An instruction is compiled if its operator has code, and is named otherwise. -/
theorem instr_cases (h : Template.ofMode? c.mode = some c.template) (hop : i.op? = some op)
    (pos : Nat) :
    op.Compilable c.level ∧ (∃ code, c.instr pos i = .ok code) ∨
      ¬op.Compilable c.level ∧ c.instr pos i = .error (.unsupported c.mode op pos) := by
  unfold instr
  simp only [hop]
  generalize hresult : c.result pos _ = result
  -- Whether there is code does not depend on the registers.
  have hiff : result.isSome = true ↔ op.Compilable c.level := by
    rw [← hresult]
    refine result_isSome_iff (fun d => ?_) pos
    cases op with
    | input | const => simp [Op.Compilable, Op.basic]
    | unary u => rw [Option.isSome_map, Template.unary_isSome_iff h]
    | binary o => rw [Option.isSome_map, Template.binary_isSome_iff h]
  cases result with
  | some code => exact .inl ⟨hiff.1 rfl, code, rfl⟩
  | none => exact .inr ⟨fun hcompilable => Bool.false_ne_true (hiff.2 hcompilable), rfl⟩

theorem instrs_cases (h : Template.ofMode? c.mode = some c.template) (is : List Instr)
    (hops : ∀ i ∈ is, ∃ op, i.op? = some op) (pos : Nat) :
    (∃ code, c.instrs pos is = .ok code) ∧
        (∀ (k : Nat) (i : Instr) (op : Op), is[k]? = some i → i.op? = some op →
          op.Compilable c.level) ∨
      ∃ k i op, is[k]? = some i ∧ i.op? = some op ∧ ¬op.Compilable c.level ∧
        (∀ j < k, ∀ (i : Instr) (o : Op), is[j]? = some i → i.op? = some o →
          o.Compilable c.level) ∧
        c.instrs pos is = .error (.unsupported c.mode op (pos + k)) := by
  induction is generalizing pos with
  | nil => exact .inl ⟨⟨[], rfl⟩, fun k i op hi => by simp at hi⟩
  | cons i rest ih =>
    obtain ⟨⟨op, hop⟩, hrest⟩ := List.forall_mem_cons.1 hops
    rcases instr_cases h hop pos with ⟨hcompilable, code, hcode⟩ | ⟨hblocked, herror⟩
    · rcases ih hrest (pos + 1) with ⟨⟨more, hmore⟩, hall⟩ |
        ⟨k, j, o, hj, ho, hblocked, hbefore, herror⟩
      · refine .inl ⟨⟨code ++ more, by simp [instrs, hcode, hmore, Except.map]⟩, ?_⟩
        rintro (_ | k) j o hj ho
        · obtain rfl : i = j := by simpa using hj
          obtain rfl := Option.some.inj (hop.symm.trans ho)
          exact hcompilable
        · exact hall k j o (by simpa using hj) ho
      · refine .inr ⟨k + 1, j, o, by simpa using hj, ho, hblocked, ?_, ?_⟩
        · rintro (_ | m) hm n q hn hq
          · obtain rfl : i = n := by simpa using hn
            obtain rfl := Option.some.inj (hop.symm.trans hq)
            exact hcompilable
          · exact hbefore m (Nat.lt_of_succ_lt_succ hm) n q (by simpa using hn) hq
        · rw [Nat.add_right_comm, Nat.add_assoc] at herror
          simp [instrs, hcode, herror, Except.map]
    · exact .inr ⟨0, i, op, rfl, hop, hblocked, fun j hj => absurd hj (Nat.not_lt_zero j),
        by simp [instrs, herror]⟩

theorem tape_cases (h : Template.ofMode? c.mode = some c.template) {t : Tape} (hwf : t.WellFormed) :
    t.Compilable c.level ∧ (∃ code, c.tape t = .ok code) ∨
      ∃ pos op, t.BlockedAt c.level pos op ∧ c.tape t = .error (.unsupported c.mode op pos) := by
  have hops : ∀ i ∈ t.instrs.toList, ∃ op, i.op? = some op := by
    intro i hi
    obtain ⟨k, hk⟩ := List.mem_iff_getElem?.1 hi
    exact (hwf.instr (by simpa using hk)).op
  rcases instrs_cases h t.instrs.toList hops 0 with ⟨⟨code, hcode⟩, hall⟩ |
    ⟨k, i, op, hi, hop, hblocked, hbefore, herror⟩
  · refine .inl ⟨fun k i op hi hop => hall k i op (by simpa using hi) hop, ?_⟩
    exact ⟨_, by rw [tape, hcode]; rfl⟩
  · refine .inr ⟨k, op, ⟨⟨i, by simpa using hi, hop⟩, hblocked, fun j hj i o hi ho => ?_⟩, ?_⟩
    · exact hbefore j hj i o (by simpa using hi) ho
    · rw [Nat.zero_add] at herror
      rw [tape, herror]
      rfl

end Codegen

namespace Program

variable {level : Level} {regs : Int} {t : Tape} {mode : Mode}

theorem generate_cases (hvalid : t.validate = .ok ()) (hmode : mode ∈ Mode.all) (hregs : 1 ≤ regs)
    (hmax : regs ≤ Assignment.maxRegs) :
    level = .none ∧ generate level regs t mode = .error .disabled ∨
      level ≠ .none ∧ (t.Compilable level ∧ (∃ p, generate level regs t mode = .ok p) ∨
        ∃ pos op, t.BlockedAt level pos op ∧
          generate level regs t mode = .error (.unsupported mode op pos)) := by
  obtain ⟨-, hwf⟩ := Tape.validate_eq_ok.1 hvalid
  obtain ⟨rs, hrs, -⟩ := hwf.liveRanges_eq
  obtain ⟨template, htemplate⟩ : ∃ template, Template.ofMode? mode = some template := by
    cases mode with
    | other code => simp [Mode.all] at hmode
    | _ => exact ⟨_, rfl⟩
  have hassignment := Assignment.allocate_eq hregs hmax hrs
  by_cases hlevel : level = .none
  · exact .inl ⟨hlevel, if_pos hlevel⟩
  refine .inr ⟨hlevel, ?_⟩
  simp only [generate, if_neg hlevel, hvalid, htemplate, hassignment]
  generalize hc : (⟨template, mode, level, _⟩ : Codegen) = c
  rcases Codegen.tape_cases (c := c) (by rw [← hc]; exact htemplate) hwf with
    ⟨hcompilable, code, hcode⟩ | ⟨pos, op, hblocked, herror⟩
  · rw [hcode]
    exact .inl ⟨by rw [← hc] at hcompilable; exact hcompilable, _, rfl⟩
  · rw [herror]
    rw [← hc] at hblocked ⊢
    exact .inr ⟨pos, op, hblocked, rfl⟩

end Program

/-! ## Hosts -/

namespace Host

variable {h : Host} {o : CodeOptions} {t : Tape} {mode : Mode}

/-- The level that a tape is compiled for: the one asked for, or that of the
process, found out if need be. -/
def effective (h : Host) (o : CodeOptions) : Level := (h.resolve (o.level.getD h.level)).1

/-- A tape can be compiled and run: compiling is not disabled, the processor has
the level, and the operators have code. -/
structure Compiles (h : Host) (o : CodeOptions) (t : Tape) : Prop where
  enabled : h.effective o ≠ .none
  allowed : h.cpu.allows (h.effective o) = true
  templates : t.Compilable (h.effective o)

theorem compiles_iff :
    h.Compiles o t ↔ h.effective o ≠ .none ∧ h.cpu.allows (h.effective o) = true ∧
      t.Compilable (h.effective o) :=
  ⟨fun hc => ⟨hc.enabled, hc.allowed, hc.templates⟩, fun ⟨hon, hallowed, hall⟩ =>
    ⟨hon, hallowed, hall⟩⟩

instance (h : Host) (o : CodeOptions) (t : Tape) : Decidable (h.Compiles o t) :=
  decidable_of_iff' _ compiles_iff

/-- An error that does not come from the level names the first operator without
code. -/
def Blames (h : Host) (o : CodeOptions) (t : Tape) (mode : Mode) (e : CodeError) : Prop :=
  h.effective o ≠ .none → h.cpu.allows (h.effective o) = true →
    ∃ pos op, t.BlockedAt (h.effective o) pos op ∧ e = .unsupported mode op pos

/-- **A valid tape is compiled if it can be, and otherwise the error says that it
can be interpreted.** -/
theorem compile_cases (hvalid : t.validate = .ok ()) (hmode : mode ∈ Mode.all)
    (hregs : 1 ≤ o.regs ∧ o.regs ≤ assignable) :
    h.Compiles o t ∧ (∃ p, (h.compile o t mode).1 = .ok p) ∨
      ¬h.Compiles o t ∧ ∃ e, (h.compile o t mode).1 = .error e ∧ e.isUnsupported = true ∧
        h.Blames o t mode e := by
  have hbounds : ¬(o.regs < 1 ∨ assignable < o.regs) := by omega
  have hconfigure : h.configure o =
      (.ok (h.effective o, o.regs), (h.resolve (o.level.getD h.level)).2) := by
    simp only [configure, if_neg hbounds]
    rfl
  have hmax : o.regs ≤ Assignment.maxRegs :=
    Int.le_trans hregs.2 (show (assignable : Int) ≤ Assignment.maxRegs by decide)
  simp only [compile, hconfigure]
  split
  · rename_i hallowed
    simp only [assemble, hconfigure]
    rcases Program.generate_cases hvalid hmode hregs.1 hmax with ⟨hnone, hdisabled⟩ |
      ⟨hlevel, ⟨hcompilable, p, hp⟩ | ⟨pos, op, hblocked, herror⟩⟩
    · rw [hdisabled]
      exact .inr ⟨fun hcompiles => hcompiles.enabled hnone, _, rfl, rfl,
        fun hne => absurd hnone hne⟩
    · rw [hp]
      exact .inl ⟨⟨hlevel, hallowed, hcompilable⟩, p, rfl⟩
    · rw [herror]
      exact .inr ⟨fun hcompiles => hblocked.not_compilable hcompiles.templates, _, rfl, rfl,
        fun _ _ => ⟨pos, op, hblocked, rfl⟩⟩
  · rename_i hallowed
    exact .inr ⟨fun hcompiles => hallowed hcompiles.allowed, _, rfl, rfl,
      fun _ hall => absurd hall hallowed⟩

end Host

end ScalarField
