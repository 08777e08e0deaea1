/-
Sizes and bitmaps in machine words: alignment in unsigned arithmetic of a
fixed width, and sets of small numbers as bits of 64-bit words.
-/
import ScalarField.Fault

namespace ScalarField

/-- Unsigned integers of a number of bits; arithmetic wraps around. -/
structure Width where
  bits : Nat
  deriving DecidableEq

namespace Width

/-- The value that is kept of `n`. -/
def wrap (w : Width) (n : Nat) : Nat := n % Nat.pow 2 w.bits

/-- One less. -/
def pred (w : Width) (n : Nat) : Nat := w.wrap (n + (Nat.pow 2 w.bits - 1))

/-- Whether `v` is a multiple of the alignment. -/
def isAligned (_ : Width) (v alignment : Nat) : Except Fault Bool :=
  if alignment = 0 then .error .range else .ok (v % alignment == 0)

/-- The number of chunks that hold `n` items. -/
def chunkCount (w : Width) (n chunk : Nat) : Except Fault Nat :=
  if chunk = 0 then .error .range else .ok (w.pred (w.wrap (n + chunk)) / chunk)

/-- `v` aligned up. -/
def alignUp (w : Width) (v alignment : Nat) : Except Fault Nat :=
  (w.chunkCount v alignment).map fun n => w.wrap (n * alignment)

end Width

/-- A set of numbers: `k` is in it if bit `k % 64` of word `k / 64` is set. -/
structure Bitmap where
  words : Array UInt64
  deriving DecidableEq

namespace Bitmap

/-- The number of words for `n` bits. -/
def wordsFor (n : UInt64) : UInt64 := (n + 63) / 64

/-- The empty set of numbers below `n`. -/
def zeros (n : Nat) : Bitmap := ⟨Array.replicate (wordsFor (UInt64.ofNat n)).toNat 0⟩

/-- The bit of a number within its word. -/
def bit (k : UInt64) : UInt64 := 1 <<< (k % 64)

/-- Whether a number is in the set. -/
def test (b : Bitmap) (k : UInt64) : Except Fault Bool :=
  match b.words[(k / 64).toNat]? with
  | some w => .ok (w &&& bit k != 0)
  | none => .error .range

/-- The set with a number added. -/
def set (b : Bitmap) (k : UInt64) : Except Fault Bitmap :=
  match b.words[(k / 64).toNat]? with
  | some w => .ok ⟨b.words.setIfInBounds (k / 64).toNat (w ||| bit k)⟩
  | none => .error .range

end Bitmap

/-- A set of numbers below 64: `n` is in it if bit `n` of the word is set. -/
structure WordSet where
  bits : UInt64

namespace WordSet

/-- The numbers below `n`; one word has no room for more than 64. -/
def below (n : Nat) : WordSet := ⟨if n < 64 then Bitmap.bit (.ofNat n) - 1 else ~~~0⟩

/-- The set with a number added. -/
def insert (s : WordSet) (n : Nat) : WordSet := ⟨s.bits ||| Bitmap.bit (.ofNat n)⟩

/-- The set without a number. -/
def erase (s : WordSet) (n : Nat) : WordSet := ⟨s.bits &&& ~~~Bitmap.bit (.ofNat n)⟩

/-- The zeros below the lowest bit that is set, or 64 if none is. -/
def trailingZeros (w : UInt64) : Nat := ((List.range 64).find? w.toNat.testBit).getD 64

/-- The lowest number of the set. -/
def lowest? (s : WordSet) : Option Nat :=
  if s.bits = 0 then none else some (trailingZeros s.bits)

end WordSet

end ScalarField
