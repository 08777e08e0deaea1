/-
Code under construction: the bytes emitted so far, the constants they refer
to, each kept once, and the places that are to point to a constant.

Finishing puts the constants behind the code, from the next multiple of 16
bytes on, and fills in the distances.
-/
import ScalarField.Code.Encoding

namespace ScalarField

/-- A place of four bytes that is to point to a constant. -/
structure Fixup where
  pos : Nat
  /-- The number of the constant. -/
  const : Nat
  deriving DecidableEq

structure Asm where
  code : Array UInt8 := #[]
  pool : Array Vec128 := #[]
  fixups : Array Fixup := #[]

namespace Asm

/-- No code. -/
def empty : Asm := {}

def size (a : Asm) : Nat := a.code.size

/-- Discards code and constants. -/
def reset (a : Asm) : Asm :=
  { a with code := a.code.take 0, pool := a.pool.take 0, fixups := a.fixups.take 0 }

/-- The number of a constant, which is new if the constant is. -/
def intern (a : Asm) (v : Vec128) : Nat × Asm :=
  match a.pool.idxOf? v with
  | some k => (k, a)
  | none => (a.pool.size, { a with pool := a.pool.push v })

/-- Adds bytes. -/
def append (a : Asm) (s : Bytes) : Asm := { a with code := a.code ++ s }

/-- Adds an instruction. -/
def emit (a : Asm) (i : Insn) : Asm :=
  let e := i.encode
  match e.const with
  | none => a.append e.bytes
  | some v =>
    let (k, a) := a.intern v
    let a := a.append e.bytes
    { a with fixups := a.fixups.push ⟨a.size - 4, k⟩ }

/-- A place in memory as text; a constant is given a number. -/
def describe (a : Asm) : Mem → Bytes × Asm
  | .ptr base d =>
    let sign := if d < 0 then [] else utf8 "+"
    (utf8 "[r" ++ Bytes.ofNat base.toNat ++ sign ++ Bytes.ofInt d.toInt ++ utf8 "]", a)
  | .const v =>
    let (k, a) := a.intern v
    (utf8 "[rip+const" ++ Bytes.ofNat k ++ utf8 "]", a)

/-- Alignment of the constants, and the size of each. -/
def alignment : Nat := 16

/-- An instruction that stops the machine. -/
def trap : UInt8 := 0xCC

/-- The code with traps up to the place of the constants, if there are
any. -/
def padded (a : Asm) : Array UInt8 :=
  if a.pool.isEmpty then a.code
  else a.code ++ List.replicate ((alignment - a.size % alignment) % alignment) trap

/-- Overwrites bytes from `pos` on. -/
def patch (code : Array UInt8) : Nat → Bytes → Array UInt8
  | _, [] => code
  | pos, b :: rest => patch (code.setIfInBounds pos b) (pos + 1) rest

/-- Points a place to its constant, the constants starting at `base`. -/
def fill (base : Nat) (code : Array UInt8) (f : Fixup) : Array UInt8 :=
  let distance : Int := (base + f.const * alignment : Nat) - (f.pos + 4 : Nat)
  patch code f.pos (Encoding.disp32 (.ofInt distance))

/-- The code with its constants. They become part of the code: finishing once
more adds them once more. -/
def finish (a : Asm) : Asm :=
  let code := a.padded
  let whole := a.pool.foldl (fun code v => code ++ v.bytes) code
  { a with code := a.fixups.foldl (fill code.size) whole }

/-- The code of a sequence of instructions. -/
def assemble (is : List Insn) : Array UInt8 := (is.foldl emit empty).finish.code

end Asm

end ScalarField
