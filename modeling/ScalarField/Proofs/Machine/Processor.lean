/-
What instructions do, as the processor documents it.

Arithmetic is that of the operators, each lane for itself, except that a NaN
may come with any payload: a processor is whatever computes so
(`FloatUnit`). The lesser and the greater of two numbers, comparisons, moves
and bitwise operations are exact. A form that works on the lowest lane leaves
the other lanes of its target as they are.

An instruction that only reads and writes vector registers is a new value for
one of them (`Cpu.vector?`); the others also touch memory, general registers or
the flag. Running ends at the first `ret`.
-/
import Mathlib.Logic.Function.Basic
import ScalarField.Proofs.Machine.Register
import ScalarField.Proofs.Number.Payload

namespace ScalarField

namespace Form

/-- The format of the lanes. -/
@[reducible]
def format : Form → Format
  | .ps | .ss => .binary32
  | .pd | .sd => .binary64

/-- Whether a form works on a lane. -/
def covers : Form → Nat → Bool
  | .ps, _ | .pd, _ => true
  | .ss, i | .sd, i => i == 0

/-- Bytes moved between a register and memory. -/
def bytes : Form → Nat
  | .ps | .pd => 16
  | .ss => 4
  | .sd => 8

instance : (φ : Form) → Precision (Binary φ.format) Binary64
  | .ps | .ss => inferInstanceAs (Precision Binary32 Binary64)
  | .pd | .sd => inferInstanceAs (Precision Binary64 Binary64)

/-- What a load leaves of a value: the bytes moved, and zeros above. -/
def moved (φ : Form) (v : Vec128) : Vec128 := .ofNat 128 (v.toNat % 2 ^ (8 * φ.bytes))

/-- An operation on the lanes that the form works on; the others are those of
the first operand. -/
def apply (φ : Form) (g : Binary φ.format → Binary φ.format → Binary φ.format) (x y : Vec128) :
    Vec128 :=
  .ofLanes φ.format fun i =>
    if φ.covers i then g (x.lane φ.format i) (y.lane φ.format i) else x.lane φ.format i

/-- The lanes that a selector picks, the lower half from the first operand. -/
def shuffle? (φ : Form) (sel : UInt8) (x y : Vec128) : Option Vec128 :=
  match φ with
  | .pd => some (.ofLanes .binary64 fun i =>
      (if i = 0 then x else y).lane .binary64 (sel.toNat / 2 ^ i % 2))
  | .ps => some (.ofLanes .binary32 fun i =>
      (if i < 2 then x else y).lane .binary32 (sel.toNat / 4 ^ i % 4))
  | _ => none

end Form

/-- Arithmetic of a format, the same as that of the operators. -/
structure FloatUnit (f : Format) [Precision (Binary f) Binary64] where
  unary : UnaryOp → Binary f → Binary f
  binary : BinaryOp → Binary f → Binary f → Binary f
  unary_same : ∀ u x, (unary u x).Same (Scalar.unary u x)
  binary_same : ∀ o x y, (binary o x y).Same (Scalar.binary o x y)

namespace FloatUnit

variable {f : Format} [Precision (Binary f) Binary64]

/-- The arithmetic instruction of a given code, on one lane. -/
def arith? (u : FloatUnit f) (op : UInt8) : Option (Binary f → Binary f → Binary f) :=
  if op = ArithCode.sqrt then some fun _ y => u.unary .sqrt y
  else if op = ArithCode.add then some (u.binary .add)
  else if op = ArithCode.mul then some (u.binary .mul)
  else if op = ArithCode.sub then some (u.binary .sub)
  else if op = ArithCode.min then some Scalar.lesser
  else if op = ArithCode.div then some (u.binary .div)
  else if op = ArithCode.max then some Scalar.greater
  else none

end FloatUnit

/-- The bitwise instruction of a given code. -/
def BitCode.operation? (op : UInt8) : Option (Vec128 → Vec128 → Vec128) :=
  if op = and then some fun x y => x &&& y
  else if op = andNot then some Vec128.andNot
  else if op = or then some fun x y => x ||| y
  else if op = xor then some fun x y => x ^^^ y
  else none

/-- The comparison of a given predicate. -/
def Predicate.holds? {f : Format} (p : UInt8) : Option (Binary f → Binary f → Bool) :=
  if p = lt then some Binary.lt
  else if p = le then some Binary.le
  else if p = unordered then some fun x y => x.isNaN || y.isNaN
  else none

/-- The operator that rounds in a given direction. -/
def Rounding.op? (mode : UInt8) : Option UnaryOp :=
  if mode = nearest then some .round
  else if mode = floor then some .floor
  else if mode = ceil then some .ceil
  else none

/-- A processor: its arithmetic for every form. -/
structure Cpu where
  arith : (φ : Form) → FloatUnit φ.format

namespace Cpu

/-- The vector register that an instruction writes and what it writes there,
for the instructions that touch nothing else. -/
def vector? (c : Cpu) (r : Xmm → Vec128) : Insn → Option (Xmm × Vec128)
  | .arith φ op d s => ((c.arith φ).arith? op).map fun g => (d, φ.apply g (r d) (r s))
  | .bit _ op d s => (BitCode.operation? op).map fun g => (d, g (r d) (r s))
  | .bitMem _ op d (.const v) => (BitCode.operation? op).map fun g => (d, g (r d) v)
  | .cmp φ p d s =>
    (Predicate.holds? p).map fun g => (d, φ.apply (fun x y => .mask (g x y)) (r d) (r s))
  | .round φ mode d s =>
    (Rounding.op? mode).map fun u => (d, φ.apply (fun _ y => (c.arith φ).unary u y) (r d) (r s))
  | .movaps d s => some (d, r s)
  | .load φ d (.const v) => some (d, φ.moved v)
  | .movLow φ d s => some (d, φ.apply (fun _ y => y) (r d) (r s))
  | .movq d s => some (d, Form.sd.moved (r s))
  | .shuf φ d s sel => (φ.shuffle? sel (r d) (r s)).map (d, ·)
  | .unpackLow d s => some (d, .ofLanes .binary64 fun i => (r (if i = 0 then d else s)).lane _ 0)
  | .unpackHigh d s => some (d, .ofLanes .binary64 fun i => (r (if i = 0 then d else s)).lane _ 1)
  | _ => none

/-- The vector registers after instructions that touch nothing else. -/
def vectors (c : Cpu) (r : Xmm → Vec128) : List Insn → Option (Xmm → Vec128)
  | [] => some r
  | i :: rest =>
    match c.vector? r i with
    | some (d, v) => c.vectors (Function.update r d v) rest
    | none => none

end Cpu

/-! ## Memory -/

/-- The bytes at all addresses. -/
abbrev Memory := BitVec 64 → BitVec 8

namespace Memory

/-- The number in `n` bytes from an address on, the lowest first. -/
def read (m : Memory) (a : BitVec 64) : Nat → Nat
  | 0 => 0
  | n + 1 => (m a).toNat + 256 * read m (a + 1) n

/-- Puts a number into `n` bytes. -/
def write (m : Memory) (a : BitVec 64) (n v : Nat) : Memory := fun x =>
  if (x - a).toNat < n then .ofNat 8 (v / 256 ^ (x - a).toNat) else m x

/-- The value that a form loads from an address. -/
def load (m : Memory) (φ : Form) (a : BitVec 64) : Vec128 := .ofNat 128 (m.read a φ.bytes)

/-- What memory is after a form has stored a value. -/
def store (m : Memory) (φ : Form) (a : BitVec 64) (v : Vec128) : Memory :=
  m.write a φ.bytes v.toNat

end Memory

/-! ## Execution -/

/-- What a program can see and change. -/
structure State where
  xmm : Xmm → Vec128
  gpr : Gpr → BitVec 64
  /-- The flag that `test` sets. -/
  zero : Bool
  memory : Memory

namespace State

def setXmm (s : State) (d : Xmm) (v : Vec128) : State := { s with xmm := Function.update s.xmm d v }

def setGpr (s : State) (d : Gpr) (v : BitVec 64) : State :=
  { s with gpr := Function.update s.gpr d v }

/-- The address that a register and a displacement give. -/
def address (s : State) (base : Gpr) (disp : Int32) : BitVec 64 :=
  s.gpr base + disp.toBitVec.signExtend 64

end State

namespace Cpu

/-- The effect of an instruction that touches more than vector registers. The
general registers are written as doublewords, which clears their upper half. -/
def other? (s : State) : Insn → Option State
  | .load φ d (.ptr base disp) => some (s.setXmm d (s.memory.load φ (s.address base disp)))
  | .bitMem φ op d (.ptr base disp) =>
    (BitCode.operation? op).map fun g =>
      s.setXmm d (g (s.xmm d) (s.memory.load φ.packed (s.address base disp)))
  | .store φ (.ptr base disp) x =>
    some { s with memory := s.memory.store φ (s.address base disp) (s.xmm x) }
  | .moveMask d x =>
    some (s.setGpr d (.ofNat 64 (((s.xmm x).lane .binary64 0).negative.toNat +
      2 * ((s.xmm x).lane .binary64 1).negative.toNat)))
  | .movImm d imm => some (s.setGpr d (imm.toBitVec.setWidth 64))
  | .test x y => some { s with zero := (s.gpr x &&& s.gpr y).setWidth 32 == 0 }
  | .cmovz d x =>
    some (s.setGpr d (((if s.zero then s.gpr x else s.gpr d).setWidth 32).setWidth 64))
  | .storeByte base disp x =>
    if x.lacksLowByte then none
    else some { s with memory := s.memory.write (s.address base disp) 1 (s.gpr x).toNat }
  | _ => none

/-- The state after one instruction. -/
def exec (c : Cpu) (s : State) (i : Insn) : Option State :=
  match c.vector? s.xmm i with
  | some (d, v) => some (s.setXmm d v)
  | none => other? s i

/-- The state after a sequence of instructions. -/
def execAll (c : Cpu) : State → List Insn → Option State
  | s, [] => some s
  | s, i :: rest =>
    match c.exec s i with
    | some s' => c.execAll s' rest
    | none => none

/-- The state in which code returns, if it does. -/
def run (c : Cpu) : State → List Insn → Option State
  | _, [] => none
  | s, .ret :: _ => some s
  | s, i :: rest =>
    match c.exec s i with
    | some s' => c.run s' rest
    | none => none

end Cpu

end ScalarField
