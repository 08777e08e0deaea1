/-
The hash function BLAKE2b with a digest of 32 bytes and no key.
-/
import ScalarField.Bytes

namespace ScalarField

namespace Blake2b

/-- The state between blocks. -/
def initial : Array UInt64 :=
  #[0x6a09e667f3bcc908, 0xbb67ae8584caa73b, 0x3c6ef372fe94f82b, 0xa54ff53a5f1d36f1,
    0x510e527fade682d1, 0x9b05688c2b3e6c1f, 0x1f83d9abfb41bd6b, 0x5be0cd19137e2179]

/-- The order in which a round takes the words of a block. -/
def schedule : List (List Nat) :=
  [[0, 1, 2, 3, 4, 5, 6, 7, 8, 9, 10, 11, 12, 13, 14, 15],
    [14, 10, 4, 8, 9, 15, 13, 6, 1, 12, 0, 2, 11, 7, 5, 3],
    [11, 8, 12, 0, 5, 2, 15, 13, 10, 14, 3, 6, 7, 1, 9, 4],
    [7, 9, 3, 1, 13, 12, 11, 14, 2, 6, 5, 10, 4, 0, 15, 8],
    [9, 0, 5, 7, 2, 4, 10, 15, 14, 1, 11, 12, 6, 8, 3, 13],
    [2, 12, 6, 10, 0, 11, 8, 3, 4, 13, 7, 5, 15, 14, 1, 9],
    [12, 5, 1, 15, 14, 13, 4, 10, 0, 7, 6, 3, 9, 2, 8, 11],
    [13, 11, 7, 14, 12, 1, 3, 9, 5, 0, 15, 4, 8, 6, 2, 10],
    [6, 15, 14, 9, 11, 3, 0, 8, 12, 2, 13, 7, 1, 4, 10, 5],
    [10, 2, 8, 4, 7, 6, 1, 5, 15, 11, 9, 14, 3, 12, 13, 0],
    [0, 1, 2, 3, 4, 5, 6, 7, 8, 9, 10, 11, 12, 13, 14, 15],
    [14, 10, 4, 8, 9, 15, 13, 6, 1, 12, 0, 2, 11, 7, 5, 3]]

/-- The positions that the eight mixings of a round work on. -/
def mixings : List (Nat × Nat × Nat × Nat) :=
  [(0, 4, 8, 12), (1, 5, 9, 13), (2, 6, 10, 14), (3, 7, 11, 15),
    (0, 5, 10, 15), (1, 6, 11, 12), (2, 7, 8, 13), (3, 4, 9, 14)]

def rotateRight (x n : UInt64) : UInt64 := (x >>> n) ||| (x <<< (64 - n))

/-- Mixes two words of a block into four words of the state. -/
def mix (v : Array UInt64) (places : Nat × Nat × Nat × Nat) (x y : UInt64) : Array UInt64 :=
  let (ia, ib, ic, id) := places
  let a := v.getD ia 0
  let b := v.getD ib 0
  let c := v.getD ic 0
  let d := v.getD id 0
  let a := a + b + x
  let d := rotateRight (d ^^^ a) 32
  let c := c + d
  let b := rotateRight (b ^^^ c) 24
  let a := a + b + y
  let d := rotateRight (d ^^^ a) 16
  let c := c + d
  let b := rotateRight (b ^^^ c) 63
  (((v.setIfInBounds ia a).setIfInBounds ib b).setIfInBounds ic c).setIfInBounds id d

/-- One round: eight mixings with two words each. -/
def round (m : Array UInt64) (v : Array UInt64) (order : List Nat) : Array UInt64 :=
  mixings.zipIdx.foldl (fun v (p, i) =>
    mix v p (m.getD (order.getD (2 * i) 0) 0) (m.getD (order.getD (2 * i + 1) 0) 0)) v

/-- Works a block into the state; `total` bytes have been read, this block
included. -/
def compress (h : Array UInt64) (block : Bytes) (total : Nat) (last : Bool) : Array UInt64 :=
  let m := (List.range 16).map fun i =>
    UInt64.ofNat (Bytes.ofLittleEndian ((block.drop (8 * i)).take 8))
  let v := h ++ initial
  let v := v.modify 12 (· ^^^ UInt64.ofNat total)
  let v := v.modify 13 (· ^^^ UInt64.ofNat (total / 0x10000000000000000))
  let v := if last then v.modify 14 (~~~ ·) else v
  let v := schedule.foldl (round m.toArray) v
  Array.ofFn fun (i : Fin 8) => h.getD i 0 ^^^ v.getD i 0 ^^^ v.getD (i + 8) 0

/-- Works in blocks of 128 bytes, at most `n` of them; `total` bytes stand
before them. -/
def absorb (h : Array UInt64) (total : Nat) : Nat → Bytes → Array UInt64
  | 0, s => compress h s (total + s.length) true
  | n + 1, s =>
    if s.length ≤ 128 then compress h s (total + s.length) true
    else absorb (compress h (s.take 128) (total + 128) false) (total + 128) n (s.drop 128)

/-- The digest of 32 bytes. -/
def digest (s : Bytes) : Bytes :=
  let h := initial.modify 0 (· ^^^ 0x01010020)
  ((absorb h 0 (s.length / 128) s).toList.take 4).flatMap fun w => Bytes.littleEndian 8 w.toNat

end Blake2b

end ScalarField
