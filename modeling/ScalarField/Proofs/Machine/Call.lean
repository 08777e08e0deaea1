/-
Calls: what a program finds when it is called, and where it keeps values.

A caller hands over four areas of memory in registers. A value is kept in a
register or in a cell of the spill area; the code of an instruction computes
its value in a register and, if it belongs into a cell, saves it there.
-/
import ScalarField.Code.Program
import ScalarField.Proofs.Machine.Sequence

namespace ScalarField

/-! ## Areas -/

namespace State

variable (s : State) (t : Tape) (φ : Form)

/-- Where a caller puts the inputs. -/
def inputArea : Area := ⟨s.gpr .rdi, t.vars.size * φ.bytes⟩

/-- Where a caller finds the results. -/
def outputArea : Area := ⟨s.gpr .rsi, t.outputs.size * φ.bytes⟩

def spillArea (a : Assignment) : Area := ⟨s.gpr .rdx, a.spillBytes.toNat⟩

/-- A byte for the choice of each instruction. -/
def choiceArea : Area := ⟨s.gpr .rcx, t.size⟩

end State

/-- The areas that a caller hands over: all within reach of a displacement, and
apart where code still reads one while it writes the other. -/
structure Call (t : Tape) (a : Assignment) (φ : Form) (s : State) : Prop where
  size_lt : t.size < 2 ^ 31
  inputs_le : t.vars.size * φ.bytes ≤ 2 ^ 31
  outputs_le : t.outputs.size * φ.bytes ≤ 2 ^ 31
  spills_le : a.spillBytes ≤ 2 ^ 31
  inputs_spills : (s.inputArea t φ).Disjoint (s.spillArea a)
  inputs_choices : (s.inputArea t φ).Disjoint (s.choiceArea t)
  spills_choices : (s.spillArea a).Disjoint (s.choiceArea t)
  spills_outputs : (s.spillArea a).Disjoint (s.outputArea t φ)

/-! ## Choices -/

namespace Template

theorem recorded_of_ne (m : Memory) {a x : BitVec 64} (h : x ≠ a) (choice : Choice) :
    recorded m a choice x = m x := by
  have hne : ¬(x - a).toNat < 1 := fun hlt => h (by bv_omega)
  cases choice with
  | unknown => rfl
  | _ => exact if_neg hne

theorem recorded_self (m : Memory) (a : BitVec 64) {choice : Choice} (h : choice ≠ .unknown) :
    recorded m a choice a = .ofNat 8 choice.code.toNat := by
  cases choice with
  | unknown => exact absurd rfl h
  | _ => simp [recorded, Memory.write]

end Template

/-! ## Displacements -/

theorem element_end {k n : Nat} (bytes : Nat) (hk : k < n) : k * bytes + bytes ≤ n * bytes := by
  rw [← Nat.succ_mul]
  exact Nat.mul_le_mul_right _ hk

theorem Form.bytes_pos (φ : Form) : 0 < φ.bytes := by cases φ <;> decide

namespace State

variable {s : State} {b : Gpr}

theorem address_ofNat {n : Nat} (hn : n < 2 ^ 31) :
    s.address b (.ofNat n) = s.gpr b + .ofNat 64 n := by
  have hext : (Int32.ofNat n).toBitVec.signExtend 64 = BitVec.ofNat 64 n := by
    rw [Int32.toBitVec_ofNat', BitVec.signExtend_eq_setWidth_of_msb_false]
    · apply BitVec.eq_of_toNat_eq
      simp
      omega
    · rw [BitVec.msb_eq_false_iff_two_mul_lt, BitVec.toNat_ofNat]
      omega
  rw [address, hext]

theorem address_mul {k n : Nat} {stride : Int32} (hs : stride = .ofNat n) (h : k * n < 2 ^ 31) :
    s.address b (.ofNat k * stride) = s.gpr b + .ofNat 64 (k * n) := by
  rw [hs, ← Int32.ofNat_mul, address_ofNat h]

end State

/-! ## Locations -/

namespace Loc

/-- What a location holds. -/
def content (φ : Form) (s : State) : Loc → Vec128
  | .reg n => s.xmm (.ofNat n)
  | .spill n => s.memory.load φ (s.gpr .rdx + .ofNat 64 (n * Assignment.cellBytes))

/-- The register in which the value of a location is computed. -/
def target : Loc → Xmm
  | .reg n => .ofNat n
  | .spill _ => .spilled

/-- The code that moves a computed value to its location. -/
def save (φ : Form) : Loc → List Insn
  | .reg _ => []
  | .spill n => [.store φ (Codegen.cell n) .spilled]

/-- The location exists. -/
def Exists (a : Assignment) : Loc → Prop
  | .reg n => n < assignable
  | .spill n => (n : Int) < a.spills

end Loc

theorem ne_of_lt_spilled {x y : Xmm} (hx : x < .spilled) (hy : .spilled ≤ y) : x ≠ y :=
  UInt8.ne_of_lt (UInt8.lt_of_lt_of_le hx hy)

theorem lt_tmp0_of_lt_spilled {x : Xmm} (hx : x < .spilled) : x < .tmp0 :=
  UInt8.lt_trans hx (by decide)

theorem reg_lt {n : Nat} (hn : n < assignable) : UInt8.ofNat n < Xmm.spilled := by
  have hn' : n < 10 := hn
  rw [UInt8.lt_iff_toNat_lt, UInt8.toNat_ofNat_of_lt' (by omega : n < 2 ^ 8)]
  exact hn

theorem reg_inj {m n : Nat} (hm : m < assignable) (hn : n < assignable)
    (h : UInt8.ofNat m = UInt8.ofNat n) : m = n := by
  have hm' : m < 10 := hm
  have hn' : n < 10 := hn
  have := congrArg UInt8.toNat h
  rwa [UInt8.toNat_ofNat_of_lt' (by omega : m < 2 ^ 8),
    UInt8.toNat_ofNat_of_lt' (by omega : n < 2 ^ 8)] at this

namespace Codegen

/-- The code of an operator, the register of its result given. -/
def compute (g : Codegen) (pos : Nat) (i : Instr) (op : Op) (d : Xmm) : Option (List Insn) :=
  match op with
  | .input => some [.load g.template.form d (.ptr .rdi (.ofInt i.var * g.template.stride))]
  | .const => some (g.template.const d i.imm)
  | .unary u =>
    (g.template.unary g.level u d (g.operand i.left .spilledLeft).2).map
      ((g.operand i.left .spilledLeft).1 ++ ·)
  | .binary o =>
    (g.template.binary pos o d (g.operand i.left .spilledLeft).2
      (g.operand i.right .spilledRight).2).map
      ((g.operand i.left .spilledLeft).1 ++ (g.operand i.right .spilledRight).1 ++ ·)

variable {g : Codegen} {pos : Nat} {i : Instr} {code : List Insn}

theorem instr_eq_ok (h : g.instr pos i = .ok code) {l : Loc} (hl : g.assignment.locs[pos]? = some l) :
    ∃ op first, i.op? = some op ∧ g.compute pos i op l.target = some first ∧
      code = first ++ l.save g.template.form := by
  unfold instr at h
  split at h
  · simp at h
  · rename_i op hop
    dsimp only at h
    split at h
    · rename_i code' hcode
      obtain rfl : code' = code := by simpa using h
      refine ⟨op, ?_⟩
      have hresult : g.result pos (g.compute pos i op) = some code' := hcode
      rw [result, hl] at hresult
      cases l with
      | reg n => exact ⟨code', hop, hresult, by simp [Loc.save]⟩
      | spill n =>
        obtain ⟨first, hfirst, rfl⟩ := Option.map_eq_some_iff.1 hresult
        exact ⟨first, hop, hfirst, rfl⟩
    · simp at h

theorem instrs_cons_eq_ok {rest : List Instr} (h : g.instrs pos (i :: rest) = .ok code) :
    ∃ first more, g.instr pos i = .ok first ∧ g.instrs (pos + 1) rest = .ok more ∧
      first ++ more = code := by
  simp only [instrs] at h
  split at h
  · cases h
  · rename_i first hfirst
    cases hmore : g.instrs (pos + 1) rest <;> simp [hmore, Except.map] at h ⊢
    exact ⟨first, hfirst, h⟩

/-- The code of a tape is that of its instructions and that of its outputs. -/
theorem tape_eq_ok {t : Tape} (h : g.tape t = .ok code) :
    ∃ first, g.instrs 0 t.instrs.toList = .ok first ∧
      first ++ g.outputs 0 t.outputs.toList ++ [.ret] = code := by
  cases hfirst : g.instrs 0 t.instrs.toList <;> simp [tape, hfirst, Except.map] at h ⊢
  exact h

end Codegen

end ScalarField
