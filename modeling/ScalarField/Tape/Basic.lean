/-
Tapes: expressions as a sequence of instructions. Instruction `i` writes slot
`i` and reads slots written before it; some slots are the results.
-/
import ScalarField.Instr
import ScalarField.Number.Print
import ScalarField.Tape.Error

namespace ScalarField

structure Tape where
  instrs : Array Instr
  /-- The slots that hold the results. -/
  outputs : Array Nat
  /-- The names of the variables; an evaluation takes one input each. -/
  vars : Array Bytes
  deriving DecidableEq

namespace Tape

def size (t : Tape) : Nat := t.instrs.size

/-! ## Validity -/

/-- What is wrong with instruction `slot`, first thing first. -/
def violation? (vars slot : Nat) (i : Instr) : Option Violation :=
  match i.op? with
  | none => some (.op slot i.code)
  | some .input =>
    if 0 ≤ i.var ∧ i.var < vars then none else some (.absentVar slot i.var)
  | some _ => (i.args.find? (slot ≤ ·)).map (.operand slot ·)

/-- The first violation among instructions that start at `slot`. -/
def firstViolation? (vars : Nat) : Nat → List Instr → Option Violation
  | _, [] => none
  | slot, i :: rest =>
    match violation? vars slot i with
    | some v => some v
    | none => firstViolation? vars (slot + 1) rest

/-- Checks a tape: it has outputs, every instruction has an operator, every
variable exists, every operand comes before its use and every output
exists. -/
def validate (t : Tape) : Except TapeError Unit :=
  if t.outputs.isEmpty then .error .noOutputs
  else
    match firstViolation? t.vars.size 0 t.instrs.toList with
    | some v => .error (.invalid v)
    | none =>
      match t.outputs.find? (t.size ≤ ·) with
      | some o => .error (.invalid (.output o))
      | none => .ok ()

/-- How many instructions have a code. -/
def count (t : Tape) (code : UInt8) : Nat := t.instrs.countP (·.code == code)

/-- Whether an instruction is an elementary function of the machine. -/
def hasElementary (t : Tape) : Bool := t.instrs.any fun i => i.op?.any Op.isElementary

/-! ## Listing -/

/-- The name of a slot. -/
def slotName (i : Nat) : Bytes := Bytes.ofChar 's' :: Bytes.ofNat i

/-- An instruction as text. -/
def describe (t : Tape) (i : Instr) : Except Fault Bytes :=
  match i.op? with
  | some .input =>
    if i.var < t.vars.size then
      if i.var < 0 then .error .range
      else (lookup t.vars i.var.toNat).map (utf8 "input " ++ ·)
    else .ok (utf8 "input #" ++ Bytes.ofInt i.var)
  | some .const => .ok (utf8 "const " ++ i.imm.print)
  | _ =>
    .ok (utf8 (Op.nameOfCode i.code) ++ i.args.flatMap fun a => utf8 " " ++ slotName a)

/-- The line of instruction `slot`. -/
def lineOf (t : Tape) (slot : Nat) (i : Instr) : Except Fault Bytes :=
  (t.describe i).map fun s => Bytes.line (slotName slot ++ utf8 " = " ++ s)

/-- The pieces that a listing is written in: a line for each instruction, the
mark of the outputs, each output, and the end of the line. -/
def pieces (t : Tape) : List (Except Fault Bytes) :=
  (t.instrs.toList.zipIdx.map fun (i, slot) => t.lineOf slot i) ++
    .ok (utf8 "ret:") ::
      (t.outputs.toList.map fun o => .ok (utf8 " " ++ slotName o)) ++ [.ok (utf8 "\n")]

/-- What a writer has taken, and whether it took everything. -/
structure Written where
  text : Bytes
  complete : Bool

/-- Hands pieces to a writer that takes `room` of them; `done` has been taken,
last piece first. -/
def writePieces (done : List Bytes) : Nat → List (Except Fault Bytes) → Except Fault Written
  | _, [] => .ok ⟨done.reverse.flatten, true⟩
  | _, .error e :: _ => .error e
  | 0, .ok _ :: _ => .ok ⟨done.reverse.flatten, false⟩
  | room + 1, .ok s :: rest => writePieces (s :: done) room rest

/-- Writes the listing to a writer that takes `room` pieces. -/
def writeTo (t : Tape) (room : Nat) : Except Fault Written := writePieces [] room t.pieces

/-- The whole listing. -/
def listing (t : Tape) : Except Fault Bytes :=
  (t.writeTo t.pieces.length).map Written.text

end Tape

end ScalarField
