/-
Finished code reaches its constants.

An instruction with a constant leaves its last four bytes open and notes which
constant they are to point to; where the constants are put is known at the end
only. `Asm.Records` says what code under construction knows after a run of
requests: the bytes asked for, an open place for every reference to a constant,
and every constant once. Finishing pads the code, puts the constants behind it
and fills each place, which leaves the other places and the constants alone. So
the distance found in a place leads from its end to the constant
(`Asm.finish_reaches_constants`).
-/
import Mathlib.Data.List.Count
import Mathlib.Data.List.Forall2
import Mathlib.Data.List.Induction
import Mathlib.Data.List.Nodup
import ScalarField.Proofs.Code.Emission
import ScalarField.Proofs.Tape.Codec

namespace ScalarField

/-! ## Constants as bytes -/

namespace Bytes

theorem littleEndian_add_mul {m a : Nat} (ha : a < 256 ^ m) (n b : Nat) :
    littleEndian (m + n) (a + 256 ^ m * b) = littleEndian m a ++ littleEndian n b := by
  induction m generalizing a with
  | zero =>
    obtain rfl : a = 0 := by simpa using ha
    simp [littleEndian]
  | succ m ih =>
    have hlow : a / 256 < 256 ^ m := Nat.div_lt_of_lt_mul (by rwa [Nat.pow_succ'] at ha)
    have hbyte : UInt8.ofNat (a + 256 ^ (m + 1) * b) = UInt8.ofNat a := by
      rw [← UInt8.toNat_inj, UInt8.toNat_ofNat', UInt8.toNat_ofNat', Nat.pow_succ', Nat.mul_assoc,
        Nat.add_mul_mod_self_left]
    have hdiv : (a + 256 ^ (m + 1) * b) / 256 = a / 256 + 256 ^ m * b := by
      rw [Nat.pow_succ', Nat.mul_assoc, Nat.add_mul_div_left _ _ (by decide)]
    rw [Nat.add_right_comm, littleEndian, littleEndian, hbyte, hdiv, ih hlow, List.cons_append]

end Bytes

namespace Vec128

theorem length_bytes (v : Vec128) : v.bytes.length = 16 := Bytes.length_littleEndian 16 _

theorem bytes_injective : Function.Injective Vec128.bytes := by
  intro v w h
  have hlt (u : Vec128) : u.toNat < 256 ^ 16 := u.isLt
  apply BitVec.eq_of_toNat_eq
  rw [← Bytes.ofLittleEndian_littleEndian (hlt v), ← Bytes.ofLittleEndian_littleEndian (hlt w)]
  exact congrArg Bytes.ofLittleEndian h

end Vec128

/-- A constant as it is given: all of it, two quadwords or four doublewords. -/
inductive Literal where
  | whole (v : Vec128)
  | quads (lo hi : BitVec 64)
  | words (a b c d : BitVec 32)

namespace Literal

def value : Literal → Vec128
  | .whole v => v
  | .quads lo hi => .ofQuads lo hi
  | .words a b c d => .ofWords a b c d

/-- The bytes of the parts, one part after the other. -/
def bytes : Literal → Bytes
  | .whole v => v.bytes
  | .quads lo hi => Bytes.littleEndian 8 lo.toNat ++ Bytes.littleEndian 8 hi.toNat
  | .words a b c d =>
    Bytes.littleEndian 4 a.toNat ++ Bytes.littleEndian 4 b.toNat ++ Bytes.littleEndian 4 c.toNat ++
      Bytes.littleEndian 4 d.toNat

theorem littleEndian_append {m n : Nat} (hi : BitVec (8 * n)) (lo : BitVec (8 * m)) :
    Bytes.littleEndian (m + n) (hi ++ lo).toNat =
      Bytes.littleEndian m lo.toNat ++ Bytes.littleEndian n hi.toNat := by
  have hpow : 2 ^ (8 * m) = 256 ^ m := by rw [Nat.pow_mul]
  have hvalue : (hi ++ lo).toNat = lo.toNat + 256 ^ m * hi.toNat := by
    rw [BitVec.toNat_append, ← Nat.shiftLeft_add_eq_or_of_lt lo.isLt, Nat.shiftLeft_eq, hpow,
      Nat.mul_comm, Nat.add_comm]
  rw [hvalue, Bytes.littleEndian_add_mul (hpow ▸ lo.isLt)]

theorem bytes_value (c : Literal) : c.value.bytes = c.bytes := by
  cases c with
  | whole v => rfl
  | quads lo hi => exact littleEndian_append (m := 8) (n := 8) hi lo
  | words a b c d =>
    have hhalf (x y : BitVec 32) : Bytes.littleEndian 8 (y ++ x).toNat =
        Bytes.littleEndian 4 x.toNat ++ Bytes.littleEndian 4 y.toNat :=
      littleEndian_append (m := 4) (n := 4) y x
    have hwhole : (Vec128.ofWords a b c d).bytes =
        Bytes.littleEndian 8 (b ++ a).toNat ++ Bytes.littleEndian 8 (d ++ c).toNat :=
      littleEndian_append (m := 8) (n := 8) (d ++ c) (b ++ a)
    rw [value, hwhole, hhalf, hhalf, bytes]
    simp only [List.append_assoc]

end Literal

/-! ## What requests ask for -/

namespace Insn

/-- The constant that an instruction refers to. -/
def constant? : Insn → Option Vec128
  | .bitMem _ _ _ (.const v) | .load _ _ (.const v) | .store _ (.const v) _ => some v
  | _ => none

theorem encode_const (i : Insn) : i.encode.const = i.constant? := by
  cases i with
  | bitMem f op d m => cases m <;> rfl
  | load f d m => cases m <;> rfl
  | store f m s => cases m <;> rfl
  | movaps d s =>
    rw [encode]
    split <;> rfl
  | _ => rfl

end Insn

/-- A constant that an instruction refers to, and where the instruction
ends. -/
structure Reference where
  stop : Nat
  value : Vec128

namespace Request

/-- The instruction that is emitted, a register moved to itself being one of no
bytes. -/
def insn? : Request → Option Insn
  | .const _ => none
  | .emit i => some i
  | .storeByte dst src => (Insn.storeByteTo dst src).toOption

/-- The bytes that a request adds. -/
def bytes (r : Request) : Bytes := r.insn?.elim [] (·.encode.bytes)

/-- The constant that the instruction of a request refers to. -/
def operand? (r : Request) : Option Vec128 := r.insn?.bind Insn.constant?

/-- The constant that a request needs. -/
def constant? : Request → Option Vec128
  | .const v => some v
  | r => r.operand?

/-- The reference that a request adds behind `pos` bytes of code. -/
def reference? (pos : Nat) (r : Request) : Option Reference :=
  r.operand?.map fun v => ⟨pos + r.bytes.length, v⟩

/-- The references of a run of requests, which starts behind `pos` bytes of
code. -/
def references : Nat → List Request → List Reference
  | _, [] => []
  | pos, r :: rs => (r.reference? pos).toList ++ references (pos + r.bytes.length) rs

theorem references_append (pos : Nat) (rs rs' : List Request) :
    references pos (rs ++ rs') =
      references pos rs ++ references (pos + (rs.flatMap bytes).length) rs' := by
  induction rs generalizing pos with
  | nil => simp [references]
  | cons r rs ih =>
    rw [List.cons_append, references, references, ih, List.append_assoc, List.flatMap_cons,
      List.length_append, Nat.add_assoc]

end Request

/-! ## What code under construction records -/

namespace Asm

variable {a : Asm} {rs : List Request} {r : Request} {i : Insn} {v : Vec128}

theorem reset_eq (a : Asm) : a.reset = .empty := by simp [reset, empty]

/-- A constant that is there is not put there again. -/
theorem intern_pool (a : Asm) (v : Vec128) :
    (v ∈ a.pool ∧ (a.intern v).2.pool = a.pool) ∨
      (v ∉ a.pool ∧ (a.intern v).2.pool = a.pool.push v) := by
  unfold intern
  cases hk : a.pool.idxOf? v with
  | none => exact .inr ⟨by simpa using hk, rfl⟩
  | some k =>
    refine .inl ⟨?_, rfl⟩
    obtain ⟨hget, -⟩ := a.intern_cases v
    simp only [intern, hk] at hget
    exact Array.mem_of_getElem? hget

/-- The fixup `f` notes the reference `ref`. -/
def Notes (a : Asm) (f : Fixup) (ref : Reference) : Prop :=
  f.pos + 4 = ref.stop ∧ a.pool[f.const]? = some ref.value

/-- What is known after a run of requests. -/
structure Records (a : Asm) (rs : List Request) : Prop where
  code : a.code.toList = rs.flatMap Request.bytes
  fixups : List.Forall₂ a.Notes a.fixups.toList (Request.references 0 rs)
  apart : a.fixups.toList.Pairwise fun f g => f.pos + 4 ≤ g.pos
  placed : a.Placed
  nodup : a.pool.toList.Nodup
  mem : ∀ v, v ∈ a.pool ↔ ∃ r ∈ rs, r.constant? = some v

theorem Records.empty : Records .empty [] :=
  ⟨rfl, .nil, .nil, fun f hf => (nomatch hf), .nil, fun v => by simp [Asm.empty]⟩

theorem nodup_intern (h : a.pool.toList.Nodup) (v : Vec128) : (a.intern v).2.pool.toList.Nodup := by
  rcases a.intern_pool v with ⟨-, heq⟩ | ⟨hnew, heq⟩
  · rwa [heq]
  · rw [heq, Array.toList_push]
    exact h.append (List.nodup_singleton v) (by simpa using hnew)

theorem mem_intern (a : Asm) (v u : Vec128) :
    u ∈ (a.intern v).2.pool ↔ u ∈ a.pool ∨ u = v := by
  rcases a.intern_pool v with ⟨hold, heq⟩ | ⟨-, heq⟩
  · rw [heq]
    exact ⟨.inl, fun h => h.elim id (· ▸ hold)⟩
  · rw [heq, Array.mem_push]

theorem pool_emit (a : Asm) (i : Insn) :
    (a.emit i).pool = i.constant?.elim a.pool fun v => (a.intern v).2.pool := by
  rw [emit, i.encode_const]
  cases i.constant? <;> rfl

theorem Notes.mono {b : Asm} {f : Fixup} {ref : Reference} (hab : Grows a b) (h : a.Notes f ref) :
    b.Notes f ref := by
  obtain ⟨us, hus⟩ := hab.pool
  have hget : a.pool.toList[f.const]? = some ref.value := by
    rw [Array.getElem?_toList]
    exact h.2
  refine ⟨h.1, ?_⟩
  rw [← Array.getElem?_toList, ← hus, List.getElem?_append_left (List.getElem?_eq_some_iff.1 hget).1,
    hget]

theorem Records.size (h : Records a rs) : a.size = (rs.flatMap Request.bytes).length := by
  rw [← h.code, Array.length_toList, Asm.size]

theorem Records.exists_reference (h : Records a rs) {f : Fixup} (hf : f ∈ a.fixups.toList) :
    ∃ ref ∈ Request.references 0 rs, a.Notes f ref := by
  obtain ⟨n, hn, rfl⟩ := List.getElem_of_mem hf
  have hn' : n < (Request.references 0 rs).length := h.fixups.length_eq ▸ hn
  exact ⟨_, List.getElem_mem hn', (List.forall₂_iff_get.1 h.fixups).2 n hn hn'⟩

theorem Records.exists_fixup (h : Records a rs) {ref : Reference}
    (href : ref ∈ Request.references 0 rs) : ∃ f ∈ a.fixups.toList, a.Notes f ref := by
  obtain ⟨n, hn, rfl⟩ := List.getElem_of_mem href
  have hn' : n < a.fixups.toList.length := h.fixups.length_eq ▸ hn
  exact ⟨_, List.getElem_mem hn', (List.forall₂_iff_get.1 h.fixups).2 n hn' hn⟩

theorem Records.const (h : Records a rs) (v : Vec128) :
    Records (a.intern v).2 (rs ++ [.const v]) := by
  obtain ⟨-, hcode, hfixups, -⟩ := a.intern_cases v
  refine ⟨?_, ?_, ?_, ?_, nodup_intern h.nodup v, fun u => ?_⟩
  · simp [hcode, h.code, Request.bytes, Request.insn?]
  · rw [Request.references_append, hfixups]
    simpa [Request.references, Request.reference?, Request.operand?, Request.insn?] using
      h.fixups.imp fun _ _ => Notes.mono (a.intern_grows v)
  · rw [hfixups]
    exact h.apart
  · rw [Placed, Asm.size, hcode, hfixups]
    exact h.placed
  · rw [mem_intern, h.mem]
    simp [or_and_right, exists_or, Request.constant?, eq_comm]

theorem Records.emit (h : Records a rs) (hr : r.insn? = some i) (hconst : r.constant? = i.constant?) :
    Records (a.emit i) (rs ++ [r]) := by
  have hbytes : r.bytes = i.encode.bytes := by rw [Request.bytes, hr, Option.elim_some]
  have hold := h.fixups.imp fun _ _ => Notes.mono (emit_grows a i)
  have hcode : (a.emit i).code.toList = (rs ++ [r]).flatMap Request.bytes := by
    rw [(emit_cases a i).1, h.code, List.flatMap_append, List.flatMap_singleton, hbytes]
  have hmem (u : Vec128) : u ∈ (a.emit i).pool ↔ ∃ q ∈ rs ++ [r], q.constant? = some u := by
    simp only [List.mem_append, List.mem_singleton, or_and_right, exists_or, exists_eq_left, hconst,
      ← h.mem, pool_emit]
    cases i.constant? with
    | none => simp
    | some v => simp [mem_intern, eq_comm]
  have hnodup : (a.emit i).pool.toList.Nodup := by
    rw [pool_emit]
    cases i.constant? with
    | none => exact h.nodup
    | some v => exact nodup_intern h.nodup v
  have hrefs := Request.references_append 0 rs [r]
  rw [Nat.zero_add, ← h.size] at hrefs
  obtain ⟨-, -, ⟨hnone, hfixups⟩ | ⟨v, k, hv, hget, hfixups⟩⟩ := emit_cases a i
  · rw [i.encode_const] at hnone
    have href : Request.references a.size [r] = [] := by
      simp [Request.references, Request.reference?, Request.operand?, hr, hnone]
    refine ⟨hcode, ?_, ?_, h.placed.emit i, hnodup, hmem⟩
    · rw [hrefs, href, List.append_nil, hfixups]
      exact hold
    · rw [hfixups]
      exact h.apart
  · obtain ⟨-, hlen⟩ := Insn.encode_of_const hv
    have hsize := size_emit a i
    rw [i.encode_const] at hv
    have href : Request.references a.size [r] = [⟨a.size + r.bytes.length, v⟩] := by
      simp [Request.references, Request.reference?, Request.operand?, hr, hv]
    have hnew : (a.emit i).Notes ⟨(a.emit i).size - 4, k⟩ ⟨a.size + r.bytes.length, v⟩ :=
      ⟨by rw [hbytes]; dsimp only; omega, hget⟩
    refine ⟨hcode, ?_, ?_, h.placed.emit i, hnodup, hmem⟩
    · rw [hrefs, href, hfixups, Array.toList_push]
      exact List.rel_append hold (.cons hnew .nil)
    · rw [hfixups, Array.toList_push, List.pairwise_append]
      refine ⟨h.apart, List.pairwise_singleton _ _, fun f hf g hg => ?_⟩
      -- The new place stands behind the code that there was.
      rw [List.mem_singleton.1 hg]
      have := h.placed f hf
      dsimp only
      omega

theorem Records.perform (h : Records a rs) (r : Request) : Records (a.perform r) (rs ++ [r]) := by
  cases r with
  | const v => exact h.const v
  | emit i => exact h.emit rfl rfl
  | storeByte dst src =>
    rw [Asm.perform]
    cases hi : Insn.storeByteTo dst src with
    | ok i =>
      have hr : (Request.storeByte dst src).insn? = some i := by simp [Request.insn?, hi, Except.toOption]
      exact h.emit hr (by simp [Request.constant?, Request.operand?, hr])
    | error e =>
      -- The store is refused, and nothing is added.
      have hr : (Request.storeByte dst src).insn? = none := by simp [Request.insn?, hi, Except.toOption]
      refine ⟨?_, ?_, h.apart, h.placed, h.nodup, fun u => ?_⟩
      · simp [h.code, Request.bytes, hr]
      · rw [Request.references_append]
        simpa [Request.references, Request.reference?, Request.operand?, hr] using h.fixups
      · rw [h.mem]
        simp [or_and_right, exists_or, Request.constant?, Request.operand?, hr]

theorem records_foldl (rs : List Request) : Records (rs.foldl Asm.perform .empty) rs := by
  induction rs using List.reverseRecOn with
  | nil => exact .empty
  | append_singleton rs r ih =>
    rw [List.foldl_append]
    exact ih.perform r

/-! ## Filled places -/

theorem getElem?_patch_self {code : Array UInt8} {pos k : Nat} {t : Bytes}
    (h : pos + t.length ≤ code.size) (hk : k < t.length) : (patch code pos t)[pos + k]? = t[k]? := by
  induction t generalizing code pos k with
  | nil => cases hk
  | cons b t ih =>
    rw [List.length_cons] at h hk
    rw [patch]
    cases k with
    | zero =>
      show (patch (code.setIfInBounds pos b) (pos + 1) t)[pos]? = some b
      rw [getElem?_patch (.inl (Nat.lt_add_one pos)),
        Array.getElem?_setIfInBounds_self_of_lt (by omega)]
    | succ k =>
      have hrest : pos + 1 + t.length ≤ (code.setIfInBounds pos b).size := by
        rw [Array.size_setIfInBounds]
        omega
      rw [Nat.add_comm k 1, ← Nat.add_assoc, ih hrest (by omega), Nat.add_comm 1 k,
        List.getElem?_cons_succ]

/-- What is to stand in a place. -/
def distance (base : Nat) (f : Fixup) : Int := (base + f.const * alignment : Nat) - (f.pos + 4 : Nat)

theorem fill_eq (base : Nat) (code : Array UInt8) (f : Fixup) :
    fill base code f = patch code f.pos (Encoding.disp32 (.ofInt (distance base f))) := rfl

/-- A place stays as it is filled when the others are, which are apart from
it. -/
theorem getElem?_foldl_fill {base : Nat} {fs : List Fixup} {code : Array UInt8}
    (hapart : fs.Pairwise fun f g => f.pos + 4 ≤ g.pos) {f : Fixup} (hf : f ∈ fs)
    (hplaced : f.pos + 4 ≤ code.size) {k : Nat} (hk : k < 4) :
    (fs.foldl (fill base) code)[f.pos + k]? =
      (Encoding.disp32 (.ofInt (distance base f)))[k]? := by
  have hlen : (Encoding.disp32 (.ofInt (distance base f))).length = 4 := Bytes.length_littleEndian 4 _
  induction fs generalizing code with
  | nil => cases hf
  | cons g fs ih =>
    rw [List.pairwise_cons] at hapart
    rw [List.foldl_cons]
    rcases List.mem_cons.1 hf with rfl | hf
    · have hlater : ∀ g ∈ fs, f.pos + k < g.pos ∨ g.pos + 4 ≤ f.pos + k := by
        intro g hg
        have := hapart.1 g hg
        omega
      rw [(foldl_fill base fs (fill base code f)).2 _ hlater, fill_eq]
      exact getElem?_patch_self (by rwa [hlen]) (by rwa [hlen])
    · refine ih hapart.2 hf ?_
      rwa [fill_eq, size_patch]

/-! ## Finished code -/

/-- The traps between the code and the constants. -/
def padding (a : Asm) : Nat :=
  if a.pool.isEmpty then 0 else (alignment - a.size % alignment) % alignment

theorem padded_eq (a : Asm) :
    a.padded.toList = a.code.toList ++ List.replicate a.padding trap := by
  unfold padded padding
  split <;> simp

theorem foldl_append_bytes (vs : List Vec128) (code : Array UInt8) :
    (vs.foldl (fun code v => code ++ v.bytes) code).toList =
      code.toList ++ vs.flatMap Vec128.bytes := by
  induction vs generalizing code with
  | nil => simp
  | cons v vs ih =>
    rw [List.foldl_cons, ih, List.flatMap_cons]
    simp

theorem whole_eq (a : Asm) : a.whole.toList =
    a.code.toList ++ List.replicate a.padding trap ++ a.pool.toList.flatMap Vec128.bytes := by
  rw [whole, ← Array.foldl_toList, foldl_append_bytes, padded_eq]

/-- The constants start at a multiple of their size. -/
theorem padding_aligned (a : Asm) :
    if a.pool.toList = [] then a.padding = 0 else a.padding < 16 ∧ 16 ∣ a.size + a.padding := by
  unfold padding alignment
  by_cases hpool : a.pool = #[]
  · simp [hpool]
  · simp only [Array.toList_eq_nil_iff, hpool, Array.isEmpty_iff, if_false]
    omega

theorem bytes_of_pool {vs : List Vec128} {k : Nat} {v : Vec128} (h : vs[k]? = some v) :
    ((vs.flatMap Vec128.bytes).drop (k * 16)).take 16 = v.bytes := by
  induction vs generalizing k with
  | nil => simp at h
  | cons u vs ih =>
    have hlen := u.length_bytes
    rw [List.flatMap_cons]
    cases k with
    | zero =>
      obtain rfl : u = v := by simpa using h
      rw [Nat.zero_mul, List.drop_zero, ← hlen, List.take_left]
    | succ k =>
      rw [List.getElem?_cons_succ] at h
      rw [Nat.succ_mul, Nat.add_comm, ← List.drop_drop, ← hlen, List.drop_left, hlen]
      exact ih h

theorem drop_finish (h : a.Placed) : a.finish.code.toList.drop a.size =
    List.replicate a.padding trap ++ a.pool.toList.flatMap Vec128.bytes := by
  have hwhole : a.whole.toList.drop a.size =
      List.replicate a.padding trap ++ a.pool.toList.flatMap Vec128.bytes := by
    rw [whole_eq, List.append_assoc, size, ← Array.length_toList, List.drop_left]
  rw [← hwhole]
  apply List.ext_getElem?
  intro k
  rw [List.getElem?_drop, List.getElem?_drop, Array.getElem?_toList, Array.getElem?_toList,
    finish_code]
  refine (foldl_fill _ _ _).2 _ fun f hf => .inr ?_
  have := h f hf
  omega

/-- In a place stands the distance from its end to its constant. -/
theorem Records.drop_finish_place (h : Records a rs) {f : Fixup} (hf : f ∈ a.fixups.toList) :
    a.finish.code.toList.drop f.pos = Encoding.disp32 (.ofInt (distance a.padded.size f)) ++
      a.finish.code.toList.drop (f.pos + 4) := by
  have hlen : (Encoding.disp32 (.ofInt (distance a.padded.size f))).length = 4 :=
    Bytes.length_littleEndian 4 _
  have hplaced : f.pos + 4 ≤ a.whole.size :=
    Nat.le_trans (h.placed f hf) a.prefix_whole.length_le
  apply List.ext_getElem?
  intro k
  rw [List.getElem?_drop]
  by_cases hk : k < 4
  · rw [List.getElem?_append_left (by omega), Array.getElem?_toList, finish_code]
    exact getElem?_foldl_fill h.apart hf hplaced hk
  · rw [List.getElem?_append_right (by omega), List.getElem?_drop]
    congr 1
    omega

/-- Following the distance from the end of a reference leads to its
constant. -/
theorem Records.reaches (h : Records a rs) (hsize : a.finish.size < 0x80000000) {ref : Reference}
    (href : ref ∈ Request.references 0 rs) :
    ∃ (d : Int32) (target : Nat),
      Fields.readDisp32 (a.finish.code.toList.drop (ref.stop - 4)) =
          some (d, a.finish.code.toList.drop ref.stop) ∧
        (target : Int) = ref.stop + d.toInt ∧ 16 ∣ target ∧
        (a.finish.code.toList.drop target).take 16 = ref.value.bytes := by
  obtain ⟨f, hf, hstop, hconst⟩ := h.exists_fixup href
  have hk : f.const < a.pool.toList.length := by
    simpa using (Array.getElem?_eq_some_iff.1 hconst).1
  have hpadded : a.padded.size = a.size + a.padding := by
    rw [← Array.length_toList, padded_eq, List.length_append, List.length_replicate,
      Array.length_toList, Asm.size]
  have htotal : a.finish.size = a.size + a.padding + a.pool.toList.length * 16 := by
    rw [Asm.size, finish_code, (foldl_fill _ _ _).1, ← Array.length_toList, whole_eq]
    simp [List.length_flatMap, Vec128.length_bytes, Asm.size, Nat.add_assoc]
  have hplaced := h.placed f hf
  have hdistance : distance a.padded.size f =
      ((a.size + a.padding + f.const * 16 : Nat) : Int) - ref.stop := by
    rw [distance, hpadded, hstop, alignment]
  have htoInt : (Int32.ofInt (distance a.padded.size f)).toInt = distance a.padded.size f := by
    rw [hdistance]
    exact Int32.toInt_ofInt_of_le (by omega) (by omega)
  have haligned : 16 ∣ a.size + a.padding := by
    have hpool : a.pool.toList ≠ [] := List.ne_nil_of_length_pos (by omega)
    have := a.padding_aligned
    rw [if_neg hpool] at this
    exact this.2
  refine ⟨.ofInt (distance a.padded.size f), a.size + a.padding + f.const * 16, ?_, ?_, ?_, ?_⟩
  · rw [← hstop, Nat.add_sub_cancel, h.drop_finish_place hf, Fields.readDisp32_disp32]
  · rw [htoInt, hdistance]
    omega
  · exact Nat.dvd_add haligned (Nat.dvd_mul_left 16 f.const)
  · have hpool : a.pool.toList[f.const]? = some ref.value := by
      rw [Array.getElem?_toList, hconst]
    rw [Nat.add_assoc, ← List.drop_drop, drop_finish h.placed, ← List.drop_drop,
      List.drop_left' (List.length_replicate), bytes_of_pool hpool]

/-- **Every constant operand reaches its constant.** Whatever is asked for of
fresh code, or of code that was reset, finishing gives the bytes asked for, with
something in the places of the references, then traps up to the constants, then
the constants: each one that is needed, once, in whatever parts it was given. As
long as all of it is shorter than 2 GiB, the number in the place of a reference
leads from the end of the place to a multiple of sixteen where the bytes of its
constant stand. -/
theorem finish_reaches_constants {start : Asm} (hstart : start = .empty ∨ ∃ b : Asm, start = b.reset)
    (rs : List Request) (hsize : (rs.foldl Asm.perform start).finish.size < 0x80000000) :
    let out := (rs.foldl Asm.perform start).finish.code.toList
    let code := rs.flatMap Request.bytes
    let refs := Request.references 0 rs
    ∃ (filled : Bytes) (pad : Nat) (pool : List Vec128),
      out = filled ++ List.replicate pad trap ++ pool.flatMap Vec128.bytes ∧
        (filled.length = code.length ∧
          ∀ k, (∀ ref ∈ refs, k < ref.stop - 4 ∨ ref.stop ≤ k) → filled[k]? = code[k]?) ∧
        (if pool = [] then pad = 0 else pad < 16 ∧ 16 ∣ code.length + pad) ∧
        ((∀ v, v ∈ pool ↔ ∃ r ∈ rs, r.constant? = some v) ∧
          ∀ c : Literal, c.value ∈ pool → (pool.map Vec128.bytes).count c.bytes = 1) ∧
        ∀ ref ∈ refs, ∃ (d : Int32) (target : Nat),
          Fields.readDisp32 (out.drop (ref.stop - 4)) = some (d, out.drop ref.stop) ∧
            (target : Int) = ref.stop + d.toInt ∧ 16 ∣ target ∧
            (out.drop target).take 16 = ref.value.bytes := by
  obtain rfl : start = .empty := by
    rcases hstart with rfl | ⟨b, rfl⟩
    · rfl
    · exact b.reset_eq
  have h := records_foldl rs
  generalize rs.foldl Asm.perform .empty = a at h hsize ⊢
  intro out code refs
  have hfilled := a.completes_finish
  refine ⟨out.take a.size, a.padding, a.pool.toList, ?_, ⟨?_, fun k hk => ?_⟩, ?_,
    ⟨fun v => ?_, fun c hc => ?_⟩, fun ref href => h.reaches hsize href⟩
  · rw [List.append_assoc, ← drop_finish h.placed, List.take_append_drop]
  · rw [hfilled.length, h.size]
  · -- The places that are filled are those of the references.
    rw [hfilled.getElem? k, h.code]
    intro f hf
    obtain ⟨ref, href, hstop, -⟩ := h.exists_reference hf
    have := hk ref href
    omega
  · rw [← h.size]
    exact a.padding_aligned
  · rw [Array.mem_toList_iff, h.mem]
  · rw [← c.bytes_value, List.count_map_of_injective _ _ Vec128.bytes_injective]
    exact List.count_eq_one_of_mem h.nodup hc

/-- The signs of two doubles, once as quadwords and once as doublewords, in code
that is reset after it was finished. -/
theorem finish_reaches_constants_signs :
    let start : Asm := ((Asm.empty.emit (.load .ps 1 (.const 7))).finish).reset
    let rs : List Request := [.const 5,
      .emit (.load .pd 9 (.const (.ofQuads 0x8000000000000000 0x8000000000000000))),
      .emit (.bitMem .pd BitCode.xor 3 (.const (.ofWords 0 0x80000000 0 0x80000000))), .emit .ret]
    let out := (rs.foldl Asm.perform start).finish.code.toList
    out.length = 64 ∧ ∀ ref ∈ Request.references 0 rs, ∃ (d : Int32) (target : Nat),
      Fields.readDisp32 (out.drop (ref.stop - 4)) = some (d, out.drop ref.stop) ∧
        (target : Int) = ref.stop + d.toInt ∧ 16 ∣ target ∧
        (out.drop target).take 16 = ref.value.bytes := by
  intro start rs out
  have hlength : out.length = 64 := by decide +kernel
  obtain ⟨-, -, -, -, -, -, -, hreach⟩ :=
    finish_reaches_constants (.inr ⟨_, rfl⟩) rs (show out.length < 0x80000000 by omega)
  exact ⟨hlength, hreach⟩

end Asm

end ScalarField
