/-
The part of the Zstandard format that holds its data as they are: frames of
raw blocks and of blocks of one repeated byte, and frames to skip. Frames with
compressed blocks, a dictionary or a checksum are refused.
-/
import ScalarField.Bytes

namespace ScalarField

namespace Zstandard

/-- The largest block. -/
def maxBlock : Nat := 128 * 1024

/-- The largest window. -/
def maxWindow : Nat := 0x20000000

/-- The smallest window. -/
def minWindow : Nat := 1024

def frameMagic : Bytes := [0x28, 0xB5, 0x2F, 0xFD]

/-- The first `n` bytes and the rest, if there are that many. -/
def take? (n : Nat) (s : Bytes) : Option (Bytes × Bytes) :=
  let front := s.take n
  if front.length = n then some (front, s.drop n) else none

/-- The number in the first `n` bytes. -/
def word? (n : Nat) (s : Bytes) : Option (Nat × Bytes) :=
  (take? n s).map fun (b, s) => (Bytes.ofLittleEndian b, s)

/-- What the header of a frame says. -/
structure Header where
  window : Nat
  /-- The size of the content, if it is told. -/
  content : Option Nat

/-- The size of the content, which is told in a field of 0, 1, 2, 4 or 8
bytes. -/
def contentSize? (flag : Nat) (single : Bool) (s : Bytes) : Option (Option Nat × Bytes) :=
  match flag with
  | 0 => if single then (word? 1 s).map fun (n, s) => (some n, s) else some (none, s)
  | 1 => (word? 2 s).map fun (n, s) => (some (n + 256), s)
  | k => (word? (Nat.pow 2 k) s).map fun (n, s) => (some n, s)

/-- The window that a descriptor tells. -/
def windowOf (d : Nat) : Nat :=
  let base := Nat.pow 2 (10 + d / 8)
  base + base / 8 * (d % 8)

/-- Reads the header of a frame after its magic. -/
def header? (s : Bytes) : Option (Header × Bytes) := do
  let (d, s) ← word? 1 s
  let single := d / 32 % 2 = 1
  let dictionary := [0, 1, 2, 4].getD (d % 4) 0
  if d / 8 % 2 = 1 || d / 4 % 2 = 1 then none
  else
    let (window, s) ←
      if single then some (none, s)
      else (word? 1 s).map fun (w, s) => (some (windowOf w), s)
    let (id, s) ← word? dictionary s
    let (content, s) ← contentSize? (d / 64) single s
    let window := window.getD (max (content.getD 0) minWindow)
    if id ≠ 0 || maxWindow < window then none else some (⟨window, content⟩, s)

/-- `n` more copies of a byte. -/
def fill (done : ByteArray) (v : UInt8) : Nat → ByteArray
  | 0 => done
  | n + 1 => fill (done.push v) v n

/-- One block, with its content behind `done`, and whether it is the last
one. -/
def block? (h : Header) (done : ByteArray) (s : Bytes) : Option ((ByteArray × Bool) × Bytes) := do
  let (b, s) ← word? 3 s
  let last := b % 2 = 1
  let size := b / 8
  if maxBlock < size || h.window < size then none
  else
    match b / 2 % 4 with
    | 0 => (take? size s).map fun (c, s) => ((c.foldl .push done, last), s)
    | 1 =>
      match s with
      | v :: s => some ((fill done v size, last), s)
      | [] => none
    | _ => none

/-- Blocks up to the last one, at most `fuel` of them, with their contents
behind `done`; the frame starts at `start`. -/
def blocks? (h : Header) (start : Nat) (done : ByteArray) :
    Nat → Bytes → Option (ByteArray × Bytes)
  | 0, _ => none
  | fuel + 1, s =>
    match block? h done s with
    | none => none
    | some ((done, last), s) =>
      let size := done.size - start
      if h.content.any (· < size) then none
      else if last then
        if h.content.all (· = size) then some (done, s) else none
      else blocks? h start done fuel s

/-- The size of a frame to skip, if one starts here. -/
def skippable? (m : Bytes) : Bool :=
  match m with
  | [a, 0x2A, 0x4D, 0x18] => a &&& 0xF0 == 0x50
  | _ => false

/-- Frames up to the end of the bytes, at most `fuel` of them, with their
contents behind `done`. -/
def frames? (done : ByteArray) : Nat → Bytes → Option ByteArray
  | _, [] => some done
  | 0, _ => none
  | fuel + 1, s =>
    match take? 4 s with
    | none => none
    | some (m, s) =>
      if skippable? m then
        match word? 4 s with
        | none => none
        | some (n, s) =>
          match take? n s with
          | none => none
          | some (_, s) => frames? done fuel s
      else if m ≠ frameMagic then none
      else
        match header? s with
        | none => none
        | some (h, s) =>
          match blocks? h done.size done (s.length + 1) s with
          | none => none
          | some (done, s) => frames? done fuel s

/-- The content of all frames. -/
def read? (s : Bytes) : Option ByteArray := frames? .empty (s.length + 1) s

/-- The data as raw blocks, at most `fuel` of them. -/
def rawBlocks : Nat → Bytes → Bytes
  | 0, _ => []
  | fuel + 1, s =>
    let c := s.take maxBlock
    let rest := s.drop maxBlock
    Bytes.littleEndian 3 (c.length * 8 + (if rest.isEmpty then 1 else 0)) ++ c ++
      (if rest.isEmpty then [] else rawBlocks fuel rest)

/-- One frame of raw blocks with the data, the size of which it tells. -/
def write (s : Bytes) : Bytes :=
  frameMagic ++ [0xE0] ++ Bytes.littleEndian 8 s.length ++ rawBlocks (s.length + 1) s

end Zstandard

end ScalarField
