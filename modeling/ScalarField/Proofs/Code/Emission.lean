/-
What is emitted is read back.

Code grows at its end: a request leaves the bytes, the open places and the
constants that there are. So an instruction stands in the code where it was
emitted, with its open place filled in some way; `Asm.Completes` says this of
the whole code. From such bytes `Insn.decode` reads what was asked for, the
constant of an open place being the one that is noted for it.
-/
import ScalarField.Code.Asm
import ScalarField.Proofs.Code.Encoding

namespace ScalarField

/-! ## Instructions in a row -/

namespace Insn

variable {constant : Nat → Int32 → Option Vec128} {pos : Nat} {t : Bytes} {i : Insn}

theorem Reads.ne_nil (h : Reads (constant pos) t i) : t ≠ [] := by
  rintro rfl
  obtain ⟨f, hread, -⟩ := h []
  cases hread

theorem decode_nil : decode constant pos [] = some [] := by
  rw [decode]
  rfl

theorem decode_append (h : Reads (constant (pos + t.length)) t i) (s : Bytes) :
    decode constant pos (t ++ s) = (decode constant (pos + t.length) s).map (i :: ·) := by
  obtain ⟨f, hread, hinsn⟩ := h s
  have hpos : 0 < t.length := List.length_pos_iff.2 h.ne_nil
  have hne : t ++ s ≠ [] := by simp [h.ne_nil]
  have hlen : (t ++ s).length - s.length = t.length := by simp
  rw [decode, if_neg hne, hread]
  simp only [hlen, hinsn]
  rw [dif_pos (by simpa using hpos)]
  cases decode constant (pos + t.length) s <;> rfl

end Insn

/-! ## Requests -/

/-- What code under construction is asked for. -/
inductive Request where
  /-- A constant to be kept. -/
  | const (v : Vec128)
  | emit (i : Insn)
  /-- The store of a byte, which some operands do not have. -/
  | storeByte (dst : Mem) (src : Gpr)

namespace Request

def allowed : Request → Bool
  | .const _ => true
  | .emit i => i.allowed
  | .storeByte dst src => dst.allowed && src < 16

/-- The instruction that a request adds. -/
def executed : Request → Option Insn
  | .const _ => none
  | .emit i => i.executed
  | .storeByte (.ptr base d) src => if src.lacksLowByte then none else some (.storeByte base d src)
  | .storeByte (.const _) _ => none

end Request

namespace Asm

variable {a b c : Asm} {i : Insn} {v : Vec128} {r : Request}

/-- A store that is refused adds nothing. -/
def perform (a : Asm) : Request → Asm
  | .const v => (a.intern v).2
  | .emit i => a.emit i
  | .storeByte dst src =>
    match Insn.storeByteTo dst src with
    | .ok i => a.emit i
    | .error _ => a

/-- A request keeps a constant, adds an instruction, or does nothing. -/
theorem perform_cases (a : Asm) (h : r.allowed) :
    (∃ v, a.perform r = (a.intern v).2 ∧ r.executed = none) ∨
    (∃ i, a.perform r = a.emit i ∧ i.allowed ∧ r.executed = i.executed) ∨
    (a.perform r = a ∧ r.executed = none) := by
  cases r with
  | const v => exact .inl ⟨v, rfl, rfl⟩
  | emit i => exact .inr (.inl ⟨i, rfl, h, rfl⟩)
  | storeByte dst src =>
    cases dst with
    | const v => exact .inr (.inr ⟨rfl, rfl⟩)
    | ptr base d =>
      simp only [Request.allowed, Mem.allowed, Bool.and_eq_true, decide_eq_true_eq] at h
      simp only [perform, Insn.storeByteTo, Request.executed]
      cases hsrc : src.lacksLowByte with
      | true => exact .inr (.inr ⟨rfl, rfl⟩)
      | false => exact .inr (.inl ⟨.storeByte base d src, rfl, by simp [Insn.allowed, h, hsrc], rfl⟩)

/-! ## Growth -/

/-- Nothing of `a` is changed in `b`, and the open places that are new stand in
new code. -/
structure Grows (a b : Asm) : Prop where
  code : a.code.toList <+: b.code.toList
  fixups : ∃ fs, b.fixups.toList = a.fixups.toList ++ fs ∧ ∀ f ∈ fs, a.size ≤ f.pos
  pool : a.pool.toList <+: b.pool.toList

theorem Grows.refl (a : Asm) : Grows a a := ⟨List.prefix_refl _, ⟨[], by simp⟩, List.prefix_refl _⟩

theorem Grows.size_le (h : Grows a b) : a.size ≤ b.size := h.code.length_le

theorem Grows.trans (hab : Grows a b) (hbc : Grows b c) : Grows a c := by
  obtain ⟨fs, hfs, hpos⟩ := hab.fixups
  obtain ⟨gs, hgs, hpos'⟩ := hbc.fixups
  refine ⟨hab.code.trans hbc.code, ⟨fs ++ gs, by simp [hgs, hfs], ?_⟩, hab.pool.trans hbc.pool⟩
  intro f hf
  rcases List.mem_append.1 hf with hf | hf
  · exact hpos f hf
  · exact Nat.le_trans hab.size_le (hpos' f hf)

theorem intern_cases (a : Asm) (v : Vec128) :
    (a.intern v).2.pool[(a.intern v).1]? = some v ∧ (a.intern v).2.code = a.code ∧
      (a.intern v).2.fixups = a.fixups ∧ a.pool.toList <+: (a.intern v).2.pool.toList := by
  unfold intern
  cases hk : a.pool.idxOf? v with
  | none => exact ⟨by simp, rfl, rfl, by simp⟩
  | some k =>
    rw [Array.idxOf?_eq_map_finIdxOf?_val, Option.map_eq_some_iff] at hk
    obtain ⟨j, hj, rfl⟩ := hk
    have hget := (Array.finIdxOf?_eq_some_iff.1 hj).1
    exact ⟨by simpa using hget, rfl, rfl, List.prefix_refl _⟩

theorem intern_grows (a : Asm) (v : Vec128) : Grows a (a.intern v).2 := by
  obtain ⟨-, hcode, hfixups, hpool⟩ := intern_cases a v
  exact ⟨hcode ▸ List.prefix_refl _, ⟨[], by simp [hfixups]⟩, hpool⟩

/-- What an instruction adds: its bytes, and an open place if it has a
constant. -/
theorem emit_cases (a : Asm) (i : Insn) :
    (a.emit i).code.toList = a.code.toList ++ i.encode.bytes ∧
      a.pool.toList <+: (a.emit i).pool.toList ∧
      ((i.encode.const = none ∧ (a.emit i).fixups = a.fixups) ∨
        ∃ v k, i.encode.const = some v ∧ (a.emit i).pool[k]? = some v ∧
          (a.emit i).fixups = a.fixups.push ⟨(a.emit i).size - 4, k⟩) := by
  cases hv : i.encode.const with
  | none =>
    have heq : a.emit i = a.append i.encode.bytes := by simp [emit, hv]
    rw [heq]
    exact ⟨by simp [append], List.prefix_refl _, .inl ⟨rfl, rfl⟩⟩
  | some v =>
    obtain ⟨hget, hcode, hfixups, hpool⟩ := intern_cases a v
    have heq : a.emit i = { (a.intern v).2.append i.encode.bytes with
        fixups := a.fixups.push ⟨((a.intern v).2.append i.encode.bytes).size - 4, (a.intern v).1⟩ } := by
      simp [emit, hv, append, hfixups]
    rw [heq]
    exact ⟨by simp [append, hcode], hpool, .inr ⟨v, _, rfl, hget, rfl⟩⟩

theorem size_emit (a : Asm) (i : Insn) : (a.emit i).size = a.size + i.encode.bytes.length := by
  rw [size, ← Array.length_toList, (emit_cases a i).1, List.length_append, Array.length_toList, size]

/-- The open bytes of an instruction are its last ones. -/
theorem emit_fixups (a : Asm) (i : Insn) : ∃ fs, (a.emit i).fixups.toList = a.fixups.toList ++ fs ∧
    ∀ f ∈ fs, a.size < f.pos ∧ f.pos = a.size + (i.encode.bytes.length - i.encode.gap) ∧
      f.pos + 4 = (a.emit i).size := by
  obtain ⟨-, -, ⟨-, hfixups⟩ | ⟨v, k, hv, -, hfixups⟩⟩ := emit_cases a i
  · exact ⟨[], by simp [hfixups]⟩
  · obtain ⟨hgap, hlen⟩ := Insn.encode_of_const hv
    refine ⟨[⟨(a.emit i).size - 4, k⟩], by simp [hfixups], fun f hf => ?_⟩
    rw [List.mem_singleton.1 hf, size_emit, hgap]
    refine ⟨?_, ?_, ?_⟩ <;> dsimp only <;> omega

theorem emit_grows (a : Asm) (i : Insn) : Grows a (a.emit i) := by
  obtain ⟨hcode, hpool, -⟩ := emit_cases a i
  obtain ⟨fs, hfs, hpos⟩ := emit_fixups a i
  exact ⟨hcode ▸ List.prefix_append _ _, ⟨fs, hfs, fun f hf => (hpos f hf).1.le⟩, hpool⟩

theorem perform_grows (a : Asm) (h : r.allowed) : Grows a (a.perform r) := by
  rcases perform_cases a h with ⟨v, heq, -⟩ | ⟨i, heq, -⟩ | ⟨heq, -⟩
  · exact heq ▸ intern_grows a v
  · exact heq ▸ emit_grows a i
  · rw [heq]
    exact Grows.refl a

/-- A run of requests leaves what there was. -/
theorem foldl_grows (rs : List Request) (h : ∀ r ∈ rs, r.allowed) (a : Asm) :
    Grows a (rs.foldl perform a) := by
  induction rs generalizing a with
  | nil => exact Grows.refl a
  | cons r rs ih =>
    exact (perform_grows a (h r (by simp))).trans (ih (fun r hr => h r (by simp [hr])) _)

/-! ## Open places -/

/-- Every open place stands in the code. -/
def Placed (a : Asm) : Prop := ∀ f ∈ a.fixups.toList, f.pos + 4 ≤ a.size

theorem Placed.emit (h : a.Placed) (i : Insn) : (a.emit i).Placed := by
  obtain ⟨fs, hfs, hpos⟩ := emit_fixups a i
  intro f hf
  rw [hfs, List.mem_append] at hf
  rcases hf with hf | hf
  · exact Nat.le_trans (h f hf) (emit_grows a i).size_le
  · exact (hpos f hf).2.2.le

theorem Placed.perform (h : a.Placed) (hr : r.allowed) : (a.perform r).Placed := by
  rcases perform_cases a hr with ⟨v, heq, -⟩ | ⟨i, heq, -⟩ | ⟨heq, -⟩
  · obtain ⟨-, hcode, hfixups, -⟩ := intern_cases a v
    rw [heq, Placed, size, hcode, hfixups]
    exact h
  · exact heq ▸ h.emit i
  · rwa [heq]

/-- The constant noted for the open place that ends at `stop`. -/
def constantAt (a : Asm) (stop : Nat) : Option Vec128 :=
  (a.fixups.toList.find? (·.pos + 4 = stop)).bind fun f => a.pool[f.const]?

/-- The constant of an instruction is noted where the instruction ends. -/
theorem constantAt_emit (ha : a.Placed) (hv : i.encode.const = some v)
    (hb : Grows (a.emit i) b) : b.constantAt (a.emit i).size = some v := by
  obtain ⟨-, -, ⟨hnone, -⟩ | ⟨u, k, hu, hget, hfixups⟩⟩ := emit_cases a i
  · rw [hv] at hnone
    cases hnone
  obtain rfl : v = u := Option.some.inj (hv.symm.trans hu)
  obtain ⟨fs, hfs, -⟩ := hb.fixups
  obtain ⟨-, hlen⟩ := Insn.encode_of_const hv
  have hsize := size_emit a i
  have hearlier : a.fixups.toList.find? (·.pos + 4 = (a.emit i).size) = none := by
    rw [List.find?_eq_none]
    intro f hf
    have := ha f hf
    simp only [decide_eq_true_eq]
    omega
  have hat : (a.emit i).size - 4 + 4 = (a.emit i).size := by omega
  obtain ⟨us, hus⟩ := hb.pool
  have hpool : b.pool[k]? = some v := by
    rw [← Array.getElem?_toList] at hget ⊢
    rw [← hus, List.getElem?_append_left (List.getElem?_eq_some_iff.1 hget).1, hget]
  rw [constantAt, hfs, hfixups, Array.toList_push, List.append_assoc, List.find?_append, hearlier]
  simp [hat, hpool]

/-! ## Code with its places filled -/

/-- The code of `a`, with something in its open places. -/
structure Completes (a : Asm) (s : Bytes) : Prop where
  length : s.length = a.size
  getElem? : ∀ k, (∀ f ∈ a.fixups.toList, k < f.pos ∨ f.pos + 4 ≤ k) → s[k]? = a.code.toList[k]?

/-- Where an instruction was emitted it stands, its open bytes filled. -/
theorem Completes.drop_eq {s : Bytes} (hs : b.Completes s) (ha : a.Placed)
    (hb : Grows (a.emit i) b) :
    ∃ w, w.length = i.encode.gap ∧
      s.drop a.size = i.encode.filled w ++ s.drop (a.emit i).size := by
  obtain ⟨fs, hfs, hpos⟩ := emit_fixups a i
  obtain ⟨gs, hgs, hlater⟩ := hb.fixups
  obtain ⟨t, ht⟩ := hb.code
  have hsize := size_emit a i
  have hgap := Insn.gap_le i
  have hslen := hs.length
  have hle := hb.size_le
  have hcode : a.code.toList.length = a.size := Array.length_toList
  -- Earlier places end before the instruction, and later ones start behind it.
  have hfixed : ∀ k < i.encode.bytes.length - i.encode.gap, s[a.size + k]? = i.encode.bytes[k]? := by
    intro k hk
    have hopen : ∀ f ∈ b.fixups.toList, a.size + k < f.pos ∨ f.pos + 4 ≤ a.size + k := by
      intro f hf
      rw [hgs, hfs, List.append_assoc, List.mem_append, List.mem_append] at hf
      rcases hf with hf | hf | hf
      · have := ha f hf
        omega
      · have := hpos f hf
        omega
      · have := hlater f hf
        omega
    rw [hs.getElem? _ hopen, ← ht, (emit_cases a i).1, List.append_assoc,
      List.getElem?_append_right (by omega), hcode, Nat.add_sub_cancel_left,
      List.getElem?_append_left (by omega)]
  have htake : (s.drop a.size).take (i.encode.bytes.length - i.encode.gap) =
      i.encode.bytes.take (i.encode.bytes.length - i.encode.gap) := by
    apply List.ext_getElem?
    intro k
    rw [List.getElem?_take, List.getElem?_take, List.getElem?_drop]
    split
    · exact hfixed k ‹_›
    · rfl
  refine ⟨(s.drop (a.size + (i.encode.bytes.length - i.encode.gap))).take i.encode.gap, ?_, ?_⟩
  · rw [List.length_take_of_le]
    rw [List.length_drop]
    omega
  · rw [Encoding.filled, ← htake, List.append_assoc, ← List.drop_drop]
    have hdrop : s.drop (a.emit i).size = ((s.drop a.size).drop
        (i.encode.bytes.length - i.encode.gap)).drop i.encode.gap := by
      rw [List.drop_drop, List.drop_drop]
      congr 1
      omega
    rw [hdrop, List.take_append_drop, List.take_append_drop]

/-- From where code under construction ends, what it is asked for after that is
read. -/
theorem Completes.decode {s : Bytes} (rs : List Request) (h : ∀ r ∈ rs, r.allowed) (ha : a.Placed)
    (hs : (rs.foldl Asm.perform a).Completes s) :
    Insn.decode (fun stop _ => (rs.foldl Asm.perform a).constantAt stop) a.size (s.drop a.size) =
      some (rs.filterMap Request.executed) := by
  induction rs generalizing a with
  | nil =>
    have hend : s.drop a.size = [] := List.drop_of_length_le (Nat.le_of_eq hs.length)
    rw [hend]
    exact Insn.decode_nil
  | cons r rs ih =>
    have hr := h r (by simp)
    have hrs : ∀ r ∈ rs, r.allowed := fun r hr => h r (by simp [hr])
    have hrest := ih hrs (ha.perform hr) hs
    have hgrows := foldl_grows rs hrs (a.perform r)
    rw [List.foldl_cons] at hs ⊢
    rw [List.filterMap_cons]
    rcases perform_cases a hr with ⟨v, heq, hnone⟩ | ⟨i, heq, hi, hexec⟩ | ⟨heq, hnone⟩
    · have hsize : (a.perform r).size = a.size := by
        rw [heq, size, (intern_cases a v).2.1]
        rfl
      rw [hsize] at hrest
      rw [hnone]
      exact hrest
    · rw [hexec]
      rw [heq] at hrest hgrows hs ⊢
      cases hj : i.executed with
      | none =>
        have hsize : (a.emit i).size = a.size := by
          rw [size_emit, Insn.encode_of_executed_eq_none hj]
          rfl
        rw [hsize] at hrest
        exact hrest
      | some j =>
        obtain ⟨w, hw, hdrop⟩ := hs.drop_eq ha hgrows
        have hlen : a.size + (i.encode.filled w).length = (a.emit i).size := by
          rw [Encoding.length_filled (Insn.gap_le i) hw, size_emit]
        have hreads : Insn.Reads (fun _ => (rs.foldl Asm.perform (a.emit i)).constantAt (a.emit i).size)
            (i.encode.filled w) j :=
          Insn.reads_encode hi hj hw fun v _ hv => constantAt_emit ha hv hgrows
        rw [hdrop, Insn.decode_append (by rw [hlen]; exact hreads), hlen, hrest]
        rfl
    · rw [heq] at hrest
      rw [heq, hnone]
      exact hrest

/-! ## Finished code -/

theorem size_patch (code : Array UInt8) (pos : Nat) (t : Bytes) : (patch code pos t).size = code.size := by
  induction t generalizing code pos with
  | nil => rfl
  | cons b t ih => rw [patch, ih, Array.size_setIfInBounds]

theorem getElem?_patch {code : Array UInt8} {pos k : Nat} {t : Bytes}
    (h : k < pos ∨ pos + t.length ≤ k) : (patch code pos t)[k]? = code[k]? := by
  induction t generalizing code pos with
  | nil => rfl
  | cons b t ih =>
    rw [List.length_cons] at h
    rw [patch, ih (by omega), Array.getElem?_setIfInBounds_ne (by omega)]

theorem fill_eq_patch (base : Nat) (code : Array UInt8) (f : Fixup) :
    ∃ t : Bytes, t.length = 4 ∧ fill base code f = patch code f.pos t := by
  unfold fill
  exact ⟨_, Bytes.length_littleEndian 4 _, rfl⟩

/-- Filling places changes nothing but them. -/
theorem foldl_fill (base : Nat) (fs : List Fixup) (code : Array UInt8) :
    (fs.foldl (fill base) code).size = code.size ∧
      ∀ k, (∀ f ∈ fs, k < f.pos ∨ f.pos + 4 ≤ k) → (fs.foldl (fill base) code)[k]? = code[k]? := by
  induction fs generalizing code with
  | nil => exact ⟨rfl, fun _ _ => rfl⟩
  | cons f fs ih =>
    obtain ⟨t, ht, hfill⟩ := fill_eq_patch base code f
    obtain ⟨hsize, hget⟩ := ih (patch code f.pos t)
    rw [List.foldl_cons, hfill]
    refine ⟨hsize.trans (size_patch code f.pos t), fun k hk => ?_⟩
    rw [hget k fun g hg => hk g (by simp [hg]), getElem?_patch (ht ▸ hk f (by simp))]

theorem prefix_foldl_append (vs : List Vec128) (code : Array UInt8) :
    code.toList <+: (vs.foldl (fun code v => code ++ v.bytes) code).toList := by
  induction vs generalizing code with
  | nil => exact List.prefix_refl _
  | cons v vs ih =>
    have hcode : code.toList <+: (code ++ v.bytes).toList := by simp
    rw [List.foldl_cons]
    exact hcode.trans (ih _)

theorem prefix_padded (a : Asm) : a.code.toList <+: a.padded.toList := by
  unfold padded
  split
  · exact List.prefix_refl _
  · simp

/-- The code with its constants, the places still open. -/
def whole (a : Asm) : Array UInt8 :=
  a.pool.foldl (fun (code : Array UInt8) (v : Vec128) => code ++ v.bytes) a.padded

theorem finish_code (a : Asm) : a.finish.code = a.fixups.toList.foldl (fill a.padded.size) a.whole := by
  rw [Array.foldl_toList]
  rfl

theorem prefix_whole (a : Asm) : a.code.toList <+: a.whole.toList := by
  rw [whole, ← Array.foldl_toList]
  exact a.prefix_padded.trans (prefix_foldl_append a.pool.toList a.padded)

/-- Finishing fills the open places, and puts what it adds behind the code. -/
theorem completes_finish (a : Asm) : a.Completes (a.finish.code.toList.take a.size) := by
  obtain ⟨hsize, hget⟩ := foldl_fill a.padded.size a.fixups.toList a.whole
  rw [← finish_code] at hsize hget
  have hle : a.size ≤ a.finish.code.size := by
    rw [hsize]
    exact a.prefix_whole.length_le
  refine ⟨List.length_take_of_le hle, fun k hk => ?_⟩
  rw [List.getElem?_take]
  split
  · next hlt =>
    obtain ⟨t, ht⟩ := a.prefix_whole
    rw [Array.getElem?_toList, hget k hk, ← Array.getElem?_toList, ← ht,
      List.getElem?_append_left hlt]
  · next hge =>
    exact (List.getElem?_eq_none (Nat.le_of_not_lt hge)).symm

theorem completes_code (a : Asm) : a.Completes a.code.toList := ⟨rfl, fun _ _ => rfl⟩

/-! ## Unique decoding -/

/-- **Code is uniquely decodable.** Whatever is asked for in any order, with
registers that exist, any displacement, any constant and any immediate, the
code is read back as exactly the instructions asked for with their operands,
before and after it is finished. A register moved to itself and a store of a
byte that is refused are nothing, and doubles are moved as singles are. -/
theorem decode_perform (rs : List Request) (h : ∀ r ∈ rs, r.allowed) :
    let a := rs.foldl Asm.perform .empty
    Insn.decode (fun stop _ => a.constantAt stop) 0 a.code.toList =
        some (rs.filterMap Request.executed) ∧
      Insn.decode (fun stop _ => a.constantAt stop) 0 (a.finish.code.toList.take a.size) =
        some (rs.filterMap Request.executed) := by
  intro a
  have hempty : Placed .empty := fun f hf => by cases hf
  have hread {s : Bytes} (hs : a.Completes s) :
      Insn.decode (fun stop _ => a.constantAt stop) 0 s = some (rs.filterMap Request.executed) :=
    hs.decode rs h hempty
  exact ⟨hread a.completes_code, hread a.completes_finish⟩

/-- Bases whose low bits are those of `rsp` and `rbp`, displacements on both
sides of a byte, a constant, and a store that is refused. -/
theorem decode_perform_bases :
    let rs : List Request := [.const 5, .emit (.load .pd 9 (.ptr 13 0)), .emit (.movaps 3 3),
      .emit (.bitMem .ps BitCode.xor 12 (.const 7)), .storeByte (.ptr 12 (-129)) 8,
      .storeByte (.ptr 4 127) 6, .emit (.store .sd (.ptr 5 128) 1), .emit .ret]
    (∀ r ∈ rs, r.allowed) ∧
      Insn.decode (fun stop _ => (rs.foldl Asm.perform .empty).constantAt stop) 0
        (rs.foldl Asm.perform .empty).code.toList =
          some [.load .ps 9 (.ptr 13 0), .bitMem .ps BitCode.xor 12 (.const 7),
            .storeByte 12 (-129) 8, .store .sd (.ptr 5 128) 1, .ret] :=
  ⟨by decide, (decode_perform _ (by decide)).1⟩

end Asm

end ScalarField
