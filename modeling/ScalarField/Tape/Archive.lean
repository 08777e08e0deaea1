/-
Tapes by their bytes: the digest that stands for a tape, and the compressed
form that is kept in files.

What a file holds may be far longer than the file, so that it is kept in an
array. The names of variables are read off the array, and what follows them is
decoded as other bytes are.
-/
import ScalarField.Hash.Blake2b
import ScalarField.Tape.Codec
import ScalarField.Zstandard

namespace ScalarField

namespace Tape

/-- The digest of the bytes of a tape. -/
def digest (t : Tape) : Bytes := Blake2b.digest t.bytes

/-- The compressed form. -/
def compress (t : Tape) : Except TapeError Bytes := t.encode.map Zstandard.write

namespace Buffer

/-- The `n` bytes from `pos` on, in front of `rest`. -/
def slice (b : ByteArray) (pos : Nat) : Nat → Bytes → Bytes
  | 0, rest => rest
  | n + 1, rest => slice b pos n (b.get! (pos + n) :: rest)

/-- `n` more names from `pos` on, and the position behind them. -/
def names (b : ByteArray) : Nat → Nat → Array Bytes → Except TapeError (Array Bytes × Nat)
  | 0, pos, done => .ok (done, pos)
  | n + 1, pos, done =>
    if b.size < pos + 2 then .error (.corrupt .truncated)
    else
      let length := (b.get! pos).toNat + 256 * (b.get! (pos + 1)).toNat
      if b.size < pos + 2 + length then .error (.corrupt .truncated)
      else names b n (pos + 2 + length) (done.push (slice b (pos + 2) length []))

/-- Bytes in front of the first name. -/
def start : Nat := magic.length + 5

/-- What these are: the header, and the number of names. -/
def front : Decoder Nat := do
  Decoder.header
  Decoder.word 4

/-- The number of names, each of which takes two bytes at least. -/
def count (b : ByteArray) : Except TapeError Nat := do
  let (n, _) ← front (slice b 0 (min start b.size) [])
  if (b.size - start) / 2 < n then throw (.corrupt (.count n)) else return n

/-- What follows the names. -/
def body (vars : Array Bytes) : Decoder Tape := do
  let instrs ← Decoder.counted instrBytes Decoder.instr
  let outputs ← Decoder.counted 4 (Decoder.word 4)
  Decoder.ending
  return ⟨instrs.toArray, outputs.toArray, vars⟩

end Buffer

/-- The valid tape whose bytes an array holds. -/
def decodeBuffer (b : ByteArray) : Except TapeError Tape := do
  let n ← Buffer.count b
  let (vars, pos) ← Buffer.names b n Buffer.start (.emptyWithCapacity n)
  let (t, _) ← Buffer.body vars (Buffer.slice b pos (b.size - pos) [])
  t.validate
  return t

/-- The tape of a compressed form. -/
def decompress (s : Bytes) : Except TapeError Tape :=
  match Zstandard.read? s with
  | none => .error .undecompressible
  | some raw => decodeBuffer raw

end Tape

end ScalarField
