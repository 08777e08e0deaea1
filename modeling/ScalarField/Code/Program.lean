/-
Programs: the code of a tape in one mode.

The instructions of the tape are compiled in order. A value stays in the
location that the allocation gives it; one that is spilled is loaded into a
scratch register before it is used, and stored after it is computed. The code
finds its inputs, its results, the spill area and the array of choices through
registers that the caller sets.
-/
import ScalarField.Code.Asm
import ScalarField.Code.Template.Grad
import ScalarField.Code.Template.Interval
import ScalarField.Code.Template.Lanes
import ScalarField.Code.Template.Point
import ScalarField.Eval.Mode
import ScalarField.Tape.Allocation

namespace ScalarField

/-- Why a tape is not compiled. -/
inductive CodeError where
  | registers (n : Int)
  | disabled
  | tape (cause : TapeError)
  | unknownMode (mode : Mode)
  /-- The first operator without a template. -/
  | unsupported (mode : Mode) (op : Op) (pos : Nat)
  /-- More is asked for than the processor has. -/
  | exceeds (level limit : Level)
  deriving DecidableEq

namespace CodeError

def message : CodeError → Bytes
  | .registers n =>
    utf8 "jit: " ++ Bytes.ofInt n ++ utf8 " registers requested, need 1 to " ++
      Bytes.ofNat assignable
  | .disabled => utf8 "jit: disabled"
  | .tape e => e.message
  | .unknownMode m => utf8 "jit: unknown mode " ++ m.name
  | .unsupported m op pos =>
    utf8 "jit: cannot compile " ++ utf8 op.name ++ utf8 " in " ++ m.name ++
      utf8 " mode (position " ++ Bytes.ofNat pos ++ utf8 ")"
  | .exceeds l limit =>
    utf8 "jit: level " ++ l.name ++ utf8 " exceeds " ++ limit.name ++
      utf8 ": jit: unsupported architecture"

/-- Whether the tape cannot be compiled here, while it may well be
interpreted. -/
def isUnsupported : CodeError → Bool
  | .disabled | .unsupported _ _ _ | .exceeds _ _ => true
  | _ => false

/-- The warning that comes with an error. -/
def warnings : CodeError → List Bytes
  | .unsupported m op _ =>
    [utf8 "jit: " ++ m.name ++ utf8 " mode has no template for " ++ utf8 op.name]
  | _ => []

end CodeError

/-- The code generator of a mode. -/
def Template.ofMode? : Mode → Option Template
  | .point => some .point
  | .interval => some .interval
  | .simd4 => some .simd4
  | .grad => some .grad
  | .other _ => none

/-- What the code of a tape is generated from. -/
structure Codegen where
  template : Template
  mode : Mode
  level : Level
  assignment : Assignment

namespace Codegen

/-- The place of a spill cell. -/
def cell (n : Nat) : Mem := .ptr .rdx (.ofNat (n * Assignment.cellBytes))

/-- The register that holds a slot, `scratch` if it has to be loaded. -/
def operand (c : Codegen) (slot : Nat) (scratch : Xmm) : List Insn × Xmm :=
  match c.assignment.locs[slot]? with
  | some (.reg n) => ([], .ofNat n)
  | some (.spill n) => ([.load c.template.form scratch (cell n)], scratch)
  | none => ([], scratch)

/-- Puts `compute`, which writes a register, in front of the store that a
spilled slot needs. -/
def result (c : Codegen) (slot : Nat) (compute : Xmm → Option (List Insn)) :
    Option (List Insn) :=
  match c.assignment.locs[slot]? with
  | some (.reg n) => compute (.ofNat n)
  | some (.spill n) => (compute .spilled).map (· ++ [.store c.template.form (cell n) .spilled])
  | none => compute .spilled

/-- The code of the instruction at a position. -/
def instr (c : Codegen) (pos : Nat) (i : Instr) : Except CodeError (List Insn) :=
  match i.op? with
  | none => .error (.tape (.invalid (.op pos i.code)))
  | some op =>
    let code := c.result pos fun d =>
      match op with
      | .input =>
        some [.load c.template.form d (.ptr .rdi (.ofInt i.var * c.template.stride))]
      | .const => some (c.template.const d i.imm)
      | .unary u =>
        let (load, a) := c.operand i.left .spilledLeft
        (c.template.unary c.level u d a).map (load ++ ·)
      | .binary o =>
        let (loadLeft, a) := c.operand i.left .spilledLeft
        let (loadRight, b) := c.operand i.right .spilledRight
        (c.template.binary pos o d a b).map (loadLeft ++ loadRight ++ ·)
    match code with
    | some code => .ok code
    | none => .error (.unsupported c.mode op pos)

/-- The code of the instructions from `pos` on. -/
def instrs (c : Codegen) : Nat → List Instr → Except CodeError (List Insn)
  | _, [] => .ok []
  | pos, i :: rest =>
    match c.instr pos i with
    | .error e => .error e
    | .ok code => (c.instrs (pos + 1) rest).map (code ++ ·)

/-- The code that stores the results, the first of which is number `j`. -/
def outputs (c : Codegen) : Nat → List Nat → List Insn
  | _, [] => []
  | j, o :: rest =>
    let (load, r) := c.operand o .spilledLeft
    load ++ [.store c.template.form (.ptr .rsi (.ofNat j * c.template.stride)) r] ++
      c.outputs (j + 1) rest

/-- The code of a tape. -/
def tape (c : Codegen) (t : Tape) : Except CodeError (List Insn) :=
  (c.instrs 0 t.instrs.toList).map (· ++ c.outputs 0 t.outputs.toList ++ [.ret])

end Codegen

/-- The code of a tape in one mode. -/
structure Program where
  mode : Mode
  tape : Tape
  assignment : Assignment
  insns : List Insn

namespace Program

/-- The bytes of the instructions, with their constants. -/
def code (p : Program) : Array UInt8 := Asm.assemble p.insns

/-- Bytes of the spill area that the code needs. -/
def spillBytes (p : Program) : Int := p.assignment.spillBytes

/-- Compiles a valid tape. -/
def generate (level : Level) (regs : Int) (t : Tape) (mode : Mode) : Except CodeError Program :=
  if level = .none then .error .disabled
  else
    match t.validate with
    | .error e => .error (.tape e)
    | .ok () =>
      match Template.ofMode? mode with
      | none => .error (.unknownMode mode)
      | some template =>
        match Assignment.allocate t regs with
        | .error e => .error (.tape e)
        | .ok assignment =>
          match Codegen.tape { template, mode, level, assignment } t with
          | .error e => .error e
          | .ok insns => .ok { mode, tape := t, assignment, insns }

end Program

/-- What a client asks of the compiler. -/
structure CodeOptions where
  /-- Registers for values. -/
  regs : Int := assignable
  /-- The level, if not that of the process. -/
  level : Option Level := none

namespace Host

/-- The level and the number of registers to compile with. -/
def configure (h : Host) (o : CodeOptions) : Except CodeError (Level × Int) × List Bytes :=
  let (level, warnings) := h.resolve (o.level.getD h.level)
  if o.regs < 1 ∨ assignable < o.regs then (.error (.registers o.regs), warnings)
  else (.ok (level, o.regs), warnings)

/-- Compiles a tape, whether or not the processor can run the code; with the
warnings on the way. -/
def assemble (h : Host) (o : CodeOptions) (t : Tape) (mode : Mode) :
    Except CodeError Program × List Bytes :=
  match h.configure o with
  | (.error e, warnings) => (.error e, warnings)
  | (.ok (level, regs), warnings) =>
    match Program.generate level regs t mode with
    | .error e => (.error e, warnings ++ e.warnings)
    | .ok p => (.ok p, warnings)

/-- Compiles a tape for the processor. The level is found out once to see
whether the processor has it, and once to compile. -/
def compile (h : Host) (o : CodeOptions) (t : Tape) (mode : Mode) :
    Except CodeError Program × List Bytes :=
  match h.configure o with
  | (.error e, warnings) => (.error e, warnings)
  | (.ok (level, _), warnings) =>
    if h.cpu.allows level then
      let (r, more) := h.assemble o t mode
      (r, warnings ++ more)
    else (.error (.exceeds level h.cpu), warnings)

end Host

end ScalarField
