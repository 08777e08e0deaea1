/-
What programs access in memory, and where.

The tape and its allocation tell what its code loads and stores, in order: the
inputs, the results, the spill cells and the recorded choices, each at an offset
from the start of its area (`Tape.accesses`). The code does just that
(`Host.assemble_reaches`): its instructions reach memory through the register of
the area, with the offset as their displacement. Offsets stay within their
areas, but a displacement has 32 bits, so that it is the offset only if that is
below `2 ^ 31` (`Host.assemble_accesses`).
-/
import ScalarField.Proofs.Machine.Program

namespace ScalarField

/-! ## Displacements -/

/-- A displacement tells an offset if and only if the offset is less than half
of what 32 bits can tell. -/
theorem toInt_ofInt_eq_iff {x : Int} (hx : 0 ≤ x) : (Int32.ofInt x).toInt = x ↔ x < 2 ^ 31 := by
  rw [Int32.toInt_ofInt]
  simp only [Int.bmod]
  norm_num
  omega

/-- How an instruction reaches memory through a register. -/
structure Reach where
  writes : Bool
  bytes : Nat
  base : Gpr
  disp : Int32
  deriving DecidableEq

/-- The memory that an instruction reaches, constants apart. -/
def Insn.reach? : Insn → Option Reach
  | .load φ _ (.ptr base disp) => some ⟨false, φ.bytes, base, disp⟩
  | .store φ (.ptr base disp) _ => some ⟨true, φ.bytes, base, disp⟩
  | .bitMem _ _ _ (.ptr base disp) => some ⟨false, 16, base, disp⟩
  | .storeByte base disp _ => some ⟨true, 1, base, disp⟩
  | _ => none

/-! ## Accesses -/

/-- A load or a store in one of the areas that a caller hands over. -/
inductive Access where
  | loadInput (v : Nat)
  | storeOutput (j : Nat)
  | loadCell (n : Nat)
  | storeCell (n : Nat)
  | storeChoice (pos : Nat)
  deriving DecidableEq

namespace Access

def writes : Access → Bool
  | .loadInput _ | .loadCell _ => false
  | _ => true

def bytes (φ : Form) : Access → Nat
  | .storeChoice _ => 1
  | _ => φ.bytes

/-- The register that holds the start of the area. -/
def base : Access → Gpr
  | .loadInput _ => .rdi
  | .storeOutput _ => .rsi
  | .loadCell _ | .storeCell _ => .rdx
  | .storeChoice _ => .rcx

/-- The offset from the start of the area, inputs and results being `stride`
bytes apart. -/
def offset (stride : Int) : Access → Int
  | .loadInput v => v * stride
  | .storeOutput j => j * stride
  | .loadCell n | .storeCell n => n * Assignment.cellBytes
  | .storeChoice pos => pos

/-- The size of the area. -/
def area (stride : Int) (t : Tape) (a : Assignment) : Access → Int
  | .loadInput _ => t.vars.size * stride
  | .storeOutput _ => t.outputs.size * stride
  | .loadCell _ | .storeCell _ => a.spillBytes
  | .storeChoice _ => t.size

/-- How an instruction accesses it: the displacement is the offset in 32
bits. -/
def reach (τ : Template) (x : Access) : Reach :=
  ⟨x.writes, x.bytes τ.form, x.base, .ofInt (x.offset τ.stride.toInt)⟩

end Access

/-- The access to the cell of a slot, if it has one. -/
def Assignment.spilled (a : Assignment) (access : Nat → Access) (slot : Nat) : List Access :=
  match a.locs[slot]? with
  | some (.spill n) => [access n]
  | _ => []

namespace Instr

/-- What computing an instruction accesses. -/
def computing (m : Mode) (pos : Nat) (i : Instr) : List Access :=
  match i.op? with
  | some .input => [.loadInput i.var.toNat]
  | some (.binary o) => if m = .interval ∧ (o = .min ∨ o = .max) then [.storeChoice pos] else []
  | _ => []

/-- What the code of the instruction at a position accesses: the operands that
are spilled, what computing it takes, and its cell if it is spilled itself. -/
def accesses (m : Mode) (a : Assignment) (pos : Nat) (i : Instr) : List Access :=
  i.args.flatMap (a.spilled .loadCell) ++ i.computing m pos ++ a.spilled .storeCell pos

end Instr

/-- What the code of a tape accesses. -/
def Tape.accesses (m : Mode) (a : Assignment) (t : Tape) : List Access :=
  (t.instrs.toList.zipIdx.flatMap fun (i, pos) => i.accesses m a pos) ++
    t.outputs.toList.zipIdx.flatMap fun (o, j) => a.spilled .loadCell o ++ [.storeOutput j]

/-! ## Templates -/

/-- A template reaches memory only to record the choices of `min` and `max` of
intervals. -/
structure Template.Reaches (τ : Template) (m : Mode) : Prop where
  const : ∀ d v, (τ.const d v).filterMap Insn.reach? = []
  unary : ∀ {l u d a code}, τ.unary l u d a = some code → code.filterMap Insn.reach? = []
  binary : ∀ {pos o d a b code}, τ.binary pos o d a b = some code →
    code.filterMap Insn.reach? =
      if m = .interval ∧ (o = .min ∨ o = .max) then [⟨true, 1, .rcx, .ofNat pos⟩] else []

namespace Template

theorem rounding_reach {φ : Form} {mode : UInt8} {l : Level} {d a : Xmm} {code : List Insn}
    (h : rounding φ mode l d a = some code) : code.filterMap Insn.reach? = [] := by
  unfold rounding at h
  split at h
  · cases h; rfl
  · cases h

theorem step_reach {mode : UInt8} {l : Level} {d a : Xmm} {code : List Insn}
    (h : Derivatives.step mode l d a = some code) : code.filterMap Insn.reach? = [] := by
  obtain ⟨first, hfirst, rfl⟩ := Option.map_eq_some_iff.1 h
  rw [List.filterMap_append, rounding_reach hfirst]
  rfl

theorem ofMode_reaches {m : Mode} {τ : Template} (hτ : ofMode? m = some τ) : τ.Reaches m := by
  cases m with
  | point | interval | simd4 =>
    cases hτ
    refine ⟨fun _ _ => rfl, fun {l u d a code} h => ?_, fun {pos o d a b code} h => ?_⟩
    · cases u with
      | floor | ceil | round => exact rounding_reach h
      | neg | abs | recip | sqrt | square => cases h; rfl
      | _ => cases h
    · cases o with
      | add | sub | mul | div | min | max => cases h; rfl
      | _ => cases h
  | grad =>
    cases hτ
    refine ⟨fun _ _ => rfl, fun {l u d a code} h => ?_, fun {pos o d a b code} h => ?_⟩
    · cases u with
      | floor | ceil | round => exact step_reach h
      | neg | abs | recip | sqrt | square => cases h; rfl
      | _ => cases h
    · cases o with
      | add | sub | mul | div | min | max => cases h; rfl
      | _ => cases h
  | other _ => cases hτ

theorem ofMode_stride {m : Mode} {τ : Template} (hτ : ofMode? m = some τ) :
    τ.stride.toInt = τ.form.bytes := by
  cases m with
  | point | interval | simd4 | grad => cases hτ; rfl
  | other _ => cases hτ

end Template

/-! ## Code -/

namespace Codegen

variable {g : Codegen}

theorem cell_eq (n : Nat) : cell n = .ptr .rdx (.ofInt (n * Assignment.cellBytes)) := by
  rw [cell, ← Int32.ofInt_eq_ofNat, Int.natCast_mul]

theorem operand_reach (slot : Nat) (scratch : Xmm) :
    (g.operand slot scratch).1.filterMap Insn.reach? =
      (g.assignment.spilled .loadCell slot).map (·.reach g.template) := by
  unfold operand Assignment.spilled
  rcases g.assignment.locs[slot]? with _ | _ | n
  · rfl
  · rfl
  · dsimp only
    rw [cell_eq]
    rfl

theorem save_reach {slot : Nat} {l : Loc} (hl : g.assignment.locs[slot]? = some l) :
    (l.save g.template.form).filterMap Insn.reach? =
      (g.assignment.spilled .storeCell slot).map (·.reach g.template) := by
  rw [Assignment.spilled, hl]
  cases l with
  | reg n => rfl
  | spill n =>
    rw [Loc.save, cell_eq]
    rfl

theorem ofInt_mul (x : Int) (stride : Int32) :
    Int32.ofInt x * stride = .ofInt (x * stride.toInt) := by
  rw [Int32.ofInt_mul, Int32.ofInt_toInt]

theorem compute_reach (hτ : g.template.Reaches g.mode) {pos : Nat} {i : Instr} {op : Op}
    (hop : i.op? = some op) (hvar : op = .input → 0 ≤ i.var) {d : Xmm} {code : List Insn}
    (h : g.compute pos i op d = some code) :
    code.filterMap Insn.reach? =
      (i.args.flatMap (g.assignment.spilled .loadCell) ++ i.computing g.mode pos).map
        (·.reach g.template) := by
  cases op with
  | input =>
    obtain ⟨v, hv⟩ := Int.eq_ofNat_of_zero_le (hvar rfl)
    cases h
    rw [Instr.args_leaf (.inl hop), Instr.computing, hop, hv, ofInt_mul]
    rfl
  | const =>
    cases h
    rw [Instr.args_leaf (.inr hop), Instr.computing, hop]
    exact hτ.const d i.imm
  | unary u =>
    obtain ⟨body, hbody, rfl⟩ := Option.map_eq_some_iff.1 h
    rw [Instr.args_unary hop, Instr.computing, hop, List.filterMap_append, hτ.unary hbody,
      operand_reach]
    simp
  | binary o =>
    obtain ⟨body, hbody, rfl⟩ := Option.map_eq_some_iff.1 h
    have hchoice : body.filterMap Insn.reach? =
        (i.computing g.mode pos).map (·.reach g.template) := by
      rw [hτ.binary hbody, Instr.computing, hop, ← Int32.ofInt_eq_ofNat]
      dsimp only
      split <;> rfl
    rw [Instr.args_binary hop, List.filterMap_append, List.filterMap_append, hchoice,
      operand_reach, operand_reach]
    simp

/-- The code of an instruction reaches what the instruction accesses. -/
theorem instr_reach (hτ : g.template.Reaches g.mode) {t : Tape} (hwf : t.WellFormed)
    (hsize : g.assignment.locs.size = t.size) {pos : Nat} {i : Instr}
    (hi : t.instrs[pos]? = some i) {code : List Insn} (h : g.instr pos i = .ok code) :
    code.filterMap Insn.reach? =
      (i.accesses g.mode g.assignment pos).map (·.reach g.template) := by
  have hpos : pos < g.assignment.locs.size := hsize ▸ (Array.getElem?_eq_some_iff.1 hi).1
  have hl := Array.getElem?_eq_getElem hpos
  obtain ⟨op, first, hop, hfirst, rfl⟩ := instr_eq_ok h hl
  have hvar : op = .input → 0 ≤ i.var := fun hin => ((hwf.instr hi).var (hin ▸ hop)).1
  rw [List.filterMap_append, compute_reach hτ hop hvar hfirst, save_reach hl]
  exact List.map_append.symm

theorem instrs_reach (hτ : g.template.Reaches g.mode) {t : Tape} (hwf : t.WellFormed)
    (hsize : g.assignment.locs.size = t.size) : ∀ {is : List Instr} {pos : Nat} {code : List Insn},
    t.instrs.toList.drop pos = is → g.instrs pos is = .ok code →
      code.filterMap Insn.reach? =
        ((is.zipIdx pos).flatMap fun p => p.1.accesses g.mode g.assignment p.2).map
          (·.reach g.template)
  | [], _, _, _, h => by cases h; rfl
  | i :: rest, pos, code, hdrop, h => by
    have hi : t.instrs[pos]? = some i := by
      rw [← Array.getElem?_toList, ← List.head?_drop, hdrop, List.head?_cons]
    have hdrop' : t.instrs.toList.drop (pos + 1) = rest := by rw [← List.drop_drop, hdrop]; rfl
    obtain ⟨first, more, hfirst, hmore, rfl⟩ := instrs_cons_eq_ok h
    rw [List.filterMap_append, instr_reach hτ hwf hsize hi hfirst,
      instrs_reach hτ hwf hsize hdrop' hmore, List.zipIdx_cons, List.flatMap_cons, List.map_append]

theorem outputs_reach (os : List Nat) (j : Nat) :
    (g.outputs j os).filterMap Insn.reach? =
      ((os.zipIdx j).flatMap fun p => g.assignment.spilled .loadCell p.1 ++ [.storeOutput p.2]).map
        (·.reach g.template) := by
  induction os generalizing j with
  | nil => rfl
  | cons o os ih =>
    have hstore : Insn.reach? (.store g.template.form (.ptr .rsi (.ofNat j * g.template.stride))
        (g.operand o .spilledLeft).2) = some ((Access.storeOutput j).reach g.template) := by
      rw [← Int32.ofInt_eq_ofNat, ofInt_mul]
      rfl
    simp only [outputs, List.filterMap_append, operand_reach, ih, List.filterMap_cons, hstore,
      List.filterMap_nil, List.zipIdx_cons, List.flatMap_cons, List.map_append, List.map_cons,
      List.map_nil]

theorem tape_reach (hτ : g.template.Reaches g.mode) {t : Tape} (hwf : t.WellFormed)
    (hsize : g.assignment.locs.size = t.size) {code : List Insn} (h : g.tape t = .ok code) :
    code.filterMap Insn.reach? =
      (t.accesses g.mode g.assignment).map (·.reach g.template) := by
  obtain ⟨first, hfirst, rfl⟩ := tape_eq_ok h
  rw [List.filterMap_append, List.filterMap_append, instrs_reach hτ hwf hsize rfl hfirst,
    outputs_reach, Tape.accesses, List.map_append]
  exact List.append_nil _

end Codegen

/-! ## Programs -/

/-- The variable, output, cell or position exists. -/
def Access.Exists (t : Tape) (a : Assignment) : Access → Prop
  | .loadInput v => v < t.vars.size
  | .storeOutput j => j < t.outputs.size
  | .loadCell n | .storeCell n => (n : Int) < a.spills
  | .storeChoice pos => pos < t.size

theorem Access.Exists.in_area {t : Tape} {a : Assignment} {x : Access} (h : x.Exists t a)
    (φ : Form) :
    0 ≤ x.offset φ.bytes ∧ x.offset φ.bytes + x.bytes φ ≤ x.area φ.bytes t a := by
  have helement {k n : Nat} (hk : k < n) :
      (0 : Int) ≤ k * φ.bytes ∧ (k * φ.bytes + φ.bytes : Int) ≤ n * φ.bytes :=
    ⟨by exact_mod_cast Nat.zero_le (k * φ.bytes), by exact_mod_cast element_end φ.bytes hk⟩
  have hbytes := Memory.bytes_le φ
  cases x with
  | loadInput v | storeOutput j => exact helement h
  | loadCell n | storeCell n =>
    simp only [Access.Exists, offset, bytes, area, Assignment.spillBytes,
      Assignment.cellBytes] at h ⊢
    omega
  | storeChoice pos =>
    simp only [Access.Exists, offset, bytes, area] at h ⊢
    omega

namespace Tape

variable {t : Tape} {a : Assignment} {rs : Array LiveRange}

theorem exists_cell (ha : a.Separates t rs) {access : Nat → Access} {slot : Nat} {x : Access}
    (hx : x ∈ a.spilled access slot) : ∃ n : Nat, (n : Int) < a.spills ∧ x = access n := by
  unfold Assignment.spilled at hx
  split at hx
  · rename_i n hn
    exact ⟨n, ha.spill_lt slot n hn, List.mem_singleton.1 hx⟩
  · cases hx

theorem WellFormed.exists_of_mem_accesses (hwf : t.WellFormed) (ha : a.Separates t rs) (m : Mode)
    {x : Access} (hx : x ∈ t.accesses m a) : x.Exists t a := by
  simp only [accesses, List.mem_append, List.mem_flatMap] at hx
  rcases hx with ⟨⟨i, pos⟩, hi, hx⟩ | ⟨⟨o, j⟩, ho, hx⟩
  · have hi : t.instrs[pos]? = some i := by
      simpa using List.mem_zipIdx_iff_getElem?.1 hi
    simp only [Instr.accesses, List.mem_append, List.mem_flatMap] at hx
    rcases hx with (⟨slot, -, hx⟩ | hx) | hx
    · obtain ⟨n, hn, rfl⟩ := exists_cell ha hx
      exact hn
    · unfold Instr.computing at hx
      split at hx
      · rename_i hop
        obtain rfl := List.mem_singleton.1 hx
        have := (hwf.instr hi).var hop
        simp only [Access.Exists]
        omega
      · split at hx
        · obtain rfl := List.mem_singleton.1 hx
          exact (Array.getElem?_eq_some_iff.1 hi).1
        · cases hx
      · cases hx
    · obtain ⟨n, hn, rfl⟩ := exists_cell ha hx
      exact hn
  · have ho : t.outputs[j]? = some o := by
      simpa using List.mem_zipIdx_iff_getElem?.1 ho
    rcases hx with hx | hx
    · obtain ⟨n, hn, rfl⟩ := exists_cell ha hx
      exact hn
    · obtain rfl := List.mem_singleton.1 hx
      exact (Array.getElem?_eq_some_iff.1 ho).1

end Tape

/-- The code of a program reaches what its tape accesses. -/
theorem Host.assemble_reaches {h : Host} {o : CodeOptions} {t : Tape} {m : Mode} {p : Program}
    (hp : (h.assemble o t m).1 = .ok p) :
    ∃ (τ : Template) (rs : Array LiveRange), Template.ofMode? m = some τ ∧ t.WellFormed ∧
      p.assignment.Separates t rs ∧
      p.insns.filterMap Insn.reach? = (t.accesses m p.assignment).map (·.reach τ) := by
  obtain ⟨level, regs, τ, hlow, hhigh, hwf, hτ, ha, hcode⟩ := Host.assemble_eq_ok hp
  obtain ⟨a, rs, ha', -, -, hsep⟩ := Assignment.allocate_separates hwf hlow
    (hhigh.trans (by decide))
  obtain rfl : a = p.assignment := by simpa [ha] using ha'.symm
  exact ⟨τ, rs, hτ, hwf, hsep,
    Codegen.tape_reach (Template.ofMode_reaches hτ) hwf hsep.size hcode⟩

/-- **Where programs access memory.** For every tape, mode, level and number of
registers for which there is a program, its instructions load and store what the
tape accesses and nothing else: input `v` at `v` times the stride, result `j` at
`j` times the stride, spill cell `n` at `n` times the size of a cell, and the
choice of position `k` at `k`, each as a displacement of 32 bits. Every such
offset lies in its area with all bytes accessed there. The displacement is the
offset if and only if the offset is below `2 ^ 31`; nothing that is checked
keeps it there. -/
theorem Host.assemble_accesses {h : Host} {o : CodeOptions} {t : Tape} {m : Mode} {p : Program}
    (hp : (h.assemble o t m).1 = .ok p) :
    ∃ τ, Template.ofMode? m = some τ ∧
      p.insns.filterMap Insn.reach? = (t.accesses m p.assignment).map (·.reach τ) ∧
      ∀ x ∈ t.accesses m p.assignment, 0 ≤ x.offset τ.stride.toInt ∧
        x.offset τ.stride.toInt + x.bytes τ.form ≤ x.area τ.stride.toInt t p.assignment ∧
        ((x.reach τ).disp.toInt = x.offset τ.stride.toInt ↔ x.offset τ.stride.toInt < 2 ^ 31) := by
  obtain ⟨τ, rs, hτ, hwf, hsep, hreach⟩ := assemble_reaches hp
  refine ⟨τ, hτ, hreach, fun x hx => ?_⟩
  have hstride := Template.ofMode_stride hτ
  obtain ⟨hpos, harea⟩ := (hwf.exists_of_mem_accesses hsep m hx).in_area τ.form
  rw [← hstride] at hpos harea
  exact ⟨hpos, harea, toInt_ofInt_eq_iff hpos⟩

/-- The program of `min x y * x` with one register. -/
theorem Host.assemble_accesses_cappedProduct :
    ∃ p τ, (Host.assemble {} { regs := 1 } .cappedProduct .interval).1 = .ok p ∧
      Tape.cappedProduct.accesses .interval p.assignment =
        [.loadInput 0, .loadInput 1, .storeCell 0, .loadCell 0, .storeChoice 2, .storeCell 1,
          .loadCell 1, .storeCell 0, .loadCell 0, .storeOutput 0] ∧
      Template.ofMode? .interval = some τ ∧
      p.insns.filterMap Insn.reach? =
        (Tape.cappedProduct.accesses .interval p.assignment).map (·.reach τ) ∧
      ∀ x ∈ Tape.cappedProduct.accesses .interval p.assignment, 0 ≤ x.offset τ.stride.toInt ∧
        x.offset τ.stride.toInt + x.bytes τ.form ≤
          x.area τ.stride.toInt .cappedProduct p.assignment ∧
        ((x.reach τ).disp.toInt = x.offset τ.stride.toInt ↔ x.offset τ.stride.toInt < 2 ^ 31) := by
  have haccesses : (Host.assemble {} { regs := 1 } .cappedProduct .interval).1.toOption.map
      (fun p => Tape.cappedProduct.accesses .interval p.assignment) =
        some [.loadInput 0, .loadInput 1, .storeCell 0, .loadCell 0, .storeChoice 2, .storeCell 1,
          .loadCell 1, .storeCell 0, .loadCell 0, .storeOutput 0] := by
    decide +kernel
  generalize hp : (Host.assemble {} { regs := 1 } .cappedProduct .interval).1 = result at haccesses
  cases result with
  | error e => cases haccesses
  | ok p =>
    obtain ⟨τ, hτ, hreach, hall⟩ := Host.assemble_accesses hp
    exact ⟨p, τ, rfl, Option.some.inj haccesses, hτ, hreach, hall⟩

/-! ## A tape out of reach -/

namespace Tape

/-- The last of `n + 1` variables. -/
def lastInput (n : Nat) : Tape where
  instrs := #[{ code := Op.input.code, var := n }]
  outputs := #[0]
  vars := Array.replicate (n + 1) []

variable (n : Nat)

theorem validate_lastInput : (lastInput n).validate = .ok () := by
  refine validate_eq_ok.2 ⟨rfl, fun {slot i} hi => ?_, by simp [lastInput, size]⟩
  cases slot with
  | zero =>
    cases hi
    exact ⟨⟨.input, rfl⟩, fun _ => by simp [lastInput], fun _ h => by cases h⟩
  | succ slot => cases hi

theorem allocate_lastInput : Assignment.allocate (lastInput n) 10 = .ok ⟨10, #[.reg 0], 0⟩ := by
  have hranges (n : Nat) : (lastInput n).liveRanges = .ok #[⟨0, 1⟩] := rfl
  have hzero : Assignment.allocate (lastInput 0) 10 = .ok ⟨10, #[.reg 0], 0⟩ := by decide +kernel
  -- The scan sees the ranges and the size of a tape only.
  rw [← hzero]
  simp only [Assignment.allocate, hranges]
  rfl

end Tape

theorem Host.assemble_lastInput (n : Nat) :
    (Host.assemble {} {} (.lastInput n) .interval).1 = .ok {
      mode := .interval
      tape := .lastInput n
      assignment := ⟨10, #[.reg 0], 0⟩
      insns := [.load .pd 0 (.ptr .rdi (.ofInt n * 16)), .store .pd (.ptr .rsi 0) 0, .ret] } := by
  have hconf : Host.configure {} {} = (.ok (.sse41, 10), []) := rfl
  simp only [assemble, hconf, Program.generate, Tape.validate_lastInput, Tape.allocate_lastInput]
  rfl

/-- The last of `2 ^ 27 + 1` intervals is loaded from far before the inputs: its
offset is `2 ^ 31`, and the displacement of the load is `-2 ^ 31`. -/
theorem Host.assemble_wraps_lastInput :
    ∃ p disp, (Host.assemble {} {} (.lastInput (2 ^ 27)) .interval).1 = .ok p ∧
      p.insns = [.load .pd 0 (.ptr .rdi disp), .store .pd (.ptr .rsi 0) 0, .ret] ∧
      (Access.loadInput (2 ^ 27)).offset Template.interval.stride.toInt = 2 ^ 31 ∧
      disp.toInt = -2 ^ 31 :=
  ⟨_, _, assemble_lastInput (2 ^ 27), rfl, by decide, by decide⟩

end ScalarField
