/-
Machine code read back: the rules by which a processor in 64-bit mode takes
instructions from bytes.

An instruction is, in this order, a mandatory prefix, a REX prefix with the
fourth bits of register numbers, an operation code out of one of three maps, a
byte of two operands with the bytes of an address behind it, and an immediate.
`Fields.read` takes these apart, and `Fields.insn?` looks up what they mean.
Neither knows how the instructions were written, and what is not an instruction
of `Insn` has no reading.
-/
import ScalarField.Code.Insn

namespace ScalarField

/-! ## Prefixes -/

/-- The form that a mandatory prefix tells. -/
def Form.ofPrefix? : UInt8 → Option Form
  | 0x66 => some .pd
  | 0xF3 => some .ss
  | 0xF2 => some .sd
  | _ => none

/-- A REX prefix, if there is one. -/
abbrev Rex := Option UInt8

namespace Rex

/-- Whether a bit is set; one that is not written is not. -/
def bit (r : Rex) (mask : UInt8) : Bool := r.getD 0 &&& mask != 0

/-- Operands of 64 bits. -/
def wide (r : Rex) : Bool := r.bit 8

/-- The register with the given low bits, as the first operand. -/
def reg (r : Rex) (low : UInt8) : UInt8 := if r.bit 4 then low + 8 else low

/-- The register with the given low bits, as an index. -/
def index (r : Rex) (low : UInt8) : UInt8 := if r.bit 2 then low + 8 else low

/-- The register with the given low bits, as the second operand or a base. -/
def base (r : Rex) (low : UInt8) : UInt8 := if r.bit 1 then low + 8 else low

end Rex

/-! ## Operands -/

/-- The second operand of an instruction. -/
inductive Operand where
  | register (number : UInt8)
  /-- The sum of a base, an index by a power of two, and a displacement. -/
  | address (base : Option Gpr) (index : Option (Gpr × UInt8)) (disp : Int32)
  /-- A distance from the end of the instruction. -/
  | relative (disp : Int32)
  deriving DecidableEq

namespace Operand

/-- The place in memory that an operand is; `constant` tells what stands at a
distance from the end of the instruction. -/
def mem? (constant : Int32 → Option Vec128) : Operand → Option Mem
  | .address (some base) none disp => some (.ptr base disp)
  | .relative disp => (constant disp).map .const
  | _ => none

end Operand

/-- A set of operation codes. -/
inductive OpcodeMap where
  /-- Codes of one byte. -/
  | primary
  /-- Codes behind `0F`. -/
  | secondary
  /-- Codes behind `0F 3A`. -/
  | tertiary
  deriving DecidableEq

/-- What an instruction consists of. -/
structure Fields where
  form : Form
  rex : Rex
  map : OpcodeMap
  code : UInt8
  operands : Option (UInt8 × Operand)
  imm : Bytes
  deriving DecidableEq

namespace Fields

/-! ## Reading -/

/-- The first `n` bytes and the others. -/
def split? (n : Nat) (s : Bytes) : Option (Bytes × Bytes) :=
  if n ≤ s.length then some (s.take n, s.drop n) else none

/-- No mandatory prefix is a form, too. -/
def readForm : Bytes → Form × Bytes
  | [] => (.ps, [])
  | b :: s =>
    match Form.ofPrefix? b with
    | some f => (f, s)
    | none => (.ps, b :: s)

def readRex : Bytes → Rex × Bytes
  | [] => (none, [])
  | b :: s => if b &&& 0xF0 = 0x40 then (some b, s) else (none, b :: s)

def readOpcode : Bytes → Option (OpcodeMap × UInt8 × Bytes)
  | 0x0F :: 0x38 :: _ => none
  | 0x0F :: 0x3A :: c :: s => some (.tertiary, c, s)
  | 0x0F :: c :: s => some (.secondary, c, s)
  | c :: s => some (.primary, c, s)
  | [] => none

/-- A displacement of four bytes. -/
def readDisp32 (s : Bytes) : Option (Int32 × Bytes) :=
  (split? 4 s).map fun (d, s) => ((UInt32.ofNat (Bytes.ofLittleEndian d)).toInt32, s)

/-- A displacement: none, or of one or four bytes, its sign continued. -/
def readDisp (mode : UInt8) (s : Bytes) : Option (Int32 × Bytes) :=
  match mode with
  | 0 => some (0, s)
  | 1 =>
    match s with
    | [] => none
    | b :: s => some (b.toInt8.toInt32, s)
  | _ => readDisp32 s

/-- An address with the byte of a scaled index. Number four is no index, and
number five no base where there would be no displacement. -/
def readScaled (rex : Rex) (mode : UInt8) : Bytes → Option (Operand × Bytes)
  | [] => none
  | b :: s =>
    let number := rex.index ((b >>> 3) &&& 7)
    let index := if number = 4 then none else some (number, b >>> 6)
    if mode = 0 ∧ b &&& 7 = 5 then
      (readDisp32 s).map fun (d, s) => (.address none index d, s)
    else
      (readDisp mode s).map fun (d, s) => (.address (some (rex.base (b &&& 7))) index d, s)

/-- Two operands. The low bits four of the second one tell that a scaled index
follows, and the low bits five, without a displacement, a distance. -/
def readOperands (rex : Rex) : Bytes → Option ((UInt8 × Operand) × Bytes)
  | [] => none
  | b :: s =>
    let mode := b >>> 6
    let reg := rex.reg ((b >>> 3) &&& 7)
    let low := b &&& 7
    if mode = 3 then some ((reg, .register (rex.base low)), s)
    else if low = 4 then
      (readScaled rex mode s).map fun (o, s) => ((reg, o), s)
    else if mode = 0 ∧ low = 5 then
      (readDisp32 s).map fun (d, s) => ((reg, .relative d), s)
    else
      (readDisp mode s).map fun (d, s) => ((reg, .address (some (rex.base low)) none d), s)

/-- Whether a code has operands, and the bytes of its immediate. -/
def layout? (map : OpcodeMap) (code : UInt8) : Option (Bool × Nat) :=
  match map with
  | .primary =>
    if code = 0x85 ∨ code = 0x88 then some (true, 0)
    else if code = 0xC3 then some (false, 0)
    else if 0xB8 ≤ code ∧ code ≤ 0xBF then some (false, 4)
    else none
  | .secondary =>
    if code = 0xC2 ∨ code = 0xC6 then some (true, 1)
    else if code ∈ [0x10, 0x11, 0x14, 0x15, 0x28, 0x44, 0x7E] ∨ 0x50 ≤ code ∧ code ≤ 0x5F then
      some (true, 0)
    else none
  | .tertiary => some (true, 1)

/-- An instruction and the bytes behind it. -/
def read (s : Bytes) : Option (Fields × Bytes) := do
  let (form, s) := readForm s
  let (rex, s) := readRex s
  let (map, code, s) ← readOpcode s
  let (twoOperands, width) ← layout? map code
  let (operands, s) ←
    if twoOperands then (readOperands rex s).map fun (o, s) => (some o, s) else some (none, s)
  let (imm, s) ← split? width s
  some (⟨form, rex, map, code, operands, imm⟩, s)

/-! ## Meaning -/

/-- The code of an instruction without operands. The number of a register is
in the code. -/
def plain? (f : Fields) : Option Insn :=
  match f.map, f.form with
  | .primary, .ps =>
    if f.code = 0xC3 then some .ret
    else some (.movImm (f.rex.base (f.code &&& 7)) (.ofNat (Bytes.ofLittleEndian f.imm)))
  | _, _ => none

/-- The form that the code of a rounding tells. -/
def roundForm? : UInt8 → Option Form
  | 0x08 => some .ps
  | 0x09 => some .pd
  | 0x0A => some .ss
  | 0x0B => some .sd
  | _ => none

/-- An instruction on two registers. -/
def registers? (f : Fields) (reg rm : UInt8) : Option Insn :=
  match f.map, f.imm with
  | .primary, [] => if f.code = 0x85 ∧ f.form = .ps then some (.test rm reg) else none
  | .secondary, [] =>
    match f.code, f.form with
    | 0x10, .ss | 0x10, .sd => some (.movLow f.form reg rm)
    | 0x14, .pd => some (.unpackLow reg rm)
    | 0x15, .pd => some (.unpackHigh reg rm)
    | 0x28, .ps => some (.movaps reg rm)
    | 0x44, .ps => some (.cmovz reg rm)
    | 0x50, .pd => some (.moveMask reg rm)
    | 0x7E, .ss => some (.movq reg rm)
    | 0x54, .ps | 0x54, .pd | 0x55, .ps | 0x55, .pd | 0x56, .ps | 0x56, .pd | 0x57, .ps
    | 0x57, .pd => some (.bit f.form f.code reg rm)
    | c, _ =>
      if c ∈ [0x51, 0x58, 0x59, 0x5C, 0x5D, 0x5E, 0x5F] then some (.arith f.form c reg rm)
      else none
  | .secondary, [b] =>
    match f.code, f.form with
    | 0xC2, _ => some (.cmp f.form b reg rm)
    | 0xC6, .ps | 0xC6, .pd => some (.shuf f.form reg rm b)
    | _, _ => none
  | .tertiary, [b] =>
    if f.form = .pd then (roundForm? f.code).map fun form => .round form b reg rm else none
  | _, _ => none

/-- An instruction on a register and a place in memory. Without a REX prefix
the numbers four to seven are high bytes. -/
def memory? (f : Fields) (reg : UInt8) (m : Mem) : Option Insn :=
  match f.map, f.code, f.form, m with
  | .primary, 0x88, .ps, .ptr base disp =>
    if f.rex = none ∧ 4 ≤ reg then none else some (.storeByte base disp reg)
  | .secondary, 0x10, _, _ => some (.load f.form reg m)
  | .secondary, 0x11, _, _ => some (.store f.form m reg)
  | .secondary, c, .ps, _ | .secondary, c, .pd, _ =>
    if 0x54 ≤ c ∧ c ≤ 0x57 then some (.bitMem f.form c reg m) else none
  | _, _, _, _ => none

/-- The instruction that the fields are. None of `Insn` works on 64 bits. -/
def insn? (constant : Int32 → Option Vec128) (f : Fields) : Option Insn :=
  if f.rex.wide then none
  else
    match f.operands with
    | none => f.plain?
    | some (reg, .register rm) => f.registers? reg rm
    | some (reg, o) => (o.mem? constant).bind (f.memory? reg)

end Fields

/-- The instructions that bytes from place `pos` on are. What stands at a
distance from the end of an instruction is told by `constant`. -/
def Insn.decode (constant : Nat → Int32 → Option Vec128) (pos : Nat) (s : Bytes) :
    Option (List Insn) :=
  if s = [] then some []
  else
    match Fields.read s with
    | none => none
    | some (f, rest) =>
      if _h : rest.length < s.length then do
        let stop := pos + (s.length - rest.length)
        let i ← f.insn? (constant stop)
        let is ← decode constant stop rest
        some (i :: is)
      else none
  termination_by s.length

end ScalarField
