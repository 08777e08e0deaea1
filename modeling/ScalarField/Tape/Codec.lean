/-
The binary form of a tape, lowest bytes first:

  magic     four bytes
  version   one byte
  variables count of four bytes, then length of two bytes and name each
  instrs    count of four bytes, then code, two operands of four bytes, eight
            bytes of constant and four of variable each
  outputs   count of four bytes, then four bytes each

Decoding accepts nothing but the encodings of valid tapes.
-/
import ScalarField.Tape.Basic

namespace ScalarField

namespace Tape

def magic : Bytes := utf8 "SVTP"

def version : UInt8 := 1

/-- Bytes of an instruction. -/
def instrBytes : Nat := 21

/-- The longest name that the length of a name can tell. -/
def maxName : Nat := 65535

/-! ## Encoding -/

/-- A count of four bytes. -/
def encodeCount (n : Nat) : Bytes := Bytes.littleEndian 4 n

def encodeName (name : Bytes) : Bytes := Bytes.littleEndian 2 name.length ++ name

/-- The lowest 32 bits of an integer, as a natural. -/
def low32 (n : Int) : Nat := (n % 0x100000000).toNat

def encodeInstr (i : Instr) : Bytes :=
  i.code :: Bytes.littleEndian 4 i.left ++ Bytes.littleEndian 4 i.right ++
    Bytes.littleEndian 8 i.imm.bits ++ Bytes.littleEndian 4 (low32 i.var)

/-- The bytes of a tape, whatever its names. -/
def bytes (t : Tape) : Bytes :=
  magic ++ [version] ++
    (encodeCount t.vars.size ++ t.vars.toList.flatMap encodeName) ++
    (encodeCount t.instrs.size ++ t.instrs.toList.flatMap encodeInstr) ++
    (encodeCount t.outputs.size ++ t.outputs.toList.flatMap (Bytes.littleEndian 4))

/-- The bytes of a tape whose names are not too long. -/
def encode (t : Tape) : Except TapeError Bytes :=
  match t.vars.find? (maxName < ·.length) with
  | some name => .error (.longName name.length)
  | none => .ok t.bytes

/-! ## Decoding -/

/-- Reads something off the front of the bytes. -/
abbrev Decoder := StateT Bytes (Except TapeError)

namespace Decoder

/-- Moves `n` bytes over to `done`, which is in reverse. -/
def split (done : Bytes) : Nat → Bytes → Option (Bytes × Bytes)
  | 0, s => some (done.reverse, s)
  | _ + 1, [] => none
  | n + 1, b :: s => split (b :: done) n s

/-- The next `n` bytes. -/
def take (n : Nat) : Decoder Bytes := fun s =>
  match split [] n s with
  | some r => .ok r
  | none => .error (.corrupt .truncated)

/-- The next number of `n` bytes. -/
def word (n : Nat) : Decoder Nat := do
  let b ← take n
  return Bytes.ofLittleEndian b

/-- The next count, for items of `least` bytes or more. -/
def count (least : Nat) : Decoder Nat := do
  let n ← word 4
  let rest ← get
  if rest.length / least < n then throw (.corrupt (.count n)) else return n

/-- `n` more items, `done` being in reverse. -/
def repeated {α : Type} (item : Decoder α) (done : List α) : Nat → Decoder (List α)
  | 0 => return done.reverse
  | n + 1 => do
    let x ← item
    repeated item (x :: done) n

/-- Items of `least` bytes or more with their count in front. -/
def counted {α : Type} (least : Nat) (item : Decoder α) : Decoder (List α) := do
  let n ← count least
  repeated item [] n

def name : Decoder Bytes := do
  let n ← word 2
  take n

def instr : Decoder Instr := do
  let code ← word 1
  let left ← word 4
  let right ← word 4
  let imm ← word 8
  let var ← word 4
  return { code := UInt8.ofNat code, left, right, imm := .ofBits imm, var }

/-- The bytes in front of the tape itself. -/
def header : Decoder Unit := fun s =>
  match split [] magic.length s with
  | some (m, s) =>
    if m ≠ magic then .error (.corrupt .magic)
    else
      match s with
      | [] => .error (.corrupt .truncated)
      | v :: s => if v = version then .ok ((), s) else .error (.corrupt (.version v))
  | none => .error (.corrupt .magic)

/-- The end of the bytes. -/
def ending : Decoder Unit := fun s =>
  if s.isEmpty then .ok ((), s) else .error (.corrupt (.trailing s.length))

/-- A tape, not checked yet. -/
def tape : Decoder Tape := do
  header
  let vars ← counted 2 name
  let instrs ← counted instrBytes instr
  let outputs ← counted 4 (word 4)
  ending
  return ⟨instrs.toArray, outputs.toArray, vars.toArray⟩

end Decoder

/-- The valid tape whose bytes are given. -/
def decode (s : Bytes) : Except TapeError Tape := do
  let (t, _) ← Decoder.tape s
  t.validate
  return t

end Tape

end ScalarField
