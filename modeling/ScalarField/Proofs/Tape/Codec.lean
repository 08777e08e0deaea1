/-
The binary form of a tape and the tapes it stands for.

A decoder reads a form if what it takes off the front of the bytes is exactly
the form of what it gives (`Decoder.Reads`). Numbers, names and instructions
are read this way, and so are counted items whose forms are no shorter than
their count assumes. A tape is read off the bytes if and only if they are its
bytes, it fits them and it is valid (`decode_eq_ok`).
-/
import ScalarField.Proofs.Machine.Register
import ScalarField.Tape.Codec

namespace ScalarField

/-! ## Numbers as bytes -/

namespace Bytes

@[simp]
theorem length_littleEndian (n v : Nat) : (littleEndian n v).length = n := by
  induction n generalizing v with
  | zero => rfl
  | succ n ih => rw [littleEndian, List.length_cons, ih]

theorem ofLittleEndian_littleEndian {n v : Nat} (hv : v < 256 ^ n) :
    ofLittleEndian (littleEndian n v) = v := by
  induction n generalizing v with
  | zero =>
    rw [Nat.pow_zero, Nat.lt_one_iff] at hv
    rw [hv]
    rfl
  | succ n ih =>
    have hdiv : v / 256 < 256 ^ n := Nat.div_lt_of_lt_mul (by rwa [Nat.pow_succ'] at hv)
    have hbyte : (UInt8.ofNat v).toNat = v % 256 := UInt8.toNat_ofNat'
    rw [littleEndian, ofLittleEndian, ih hdiv, hbyte, Nat.mod_add_div]

theorem ofLittleEndian_lt (s : Bytes) : ofLittleEndian s < 256 ^ s.length := by
  induction s with
  | nil => exact Nat.one_pos
  | cons b s ih =>
    have hb : b.toNat < 256 := b.toNat_lt
    rw [ofLittleEndian, List.length_cons, Nat.pow_succ']
    omega

theorem littleEndian_ofLittleEndian (s : Bytes) :
    littleEndian s.length (ofLittleEndian s) = s := by
  induction s with
  | nil => rfl
  | cons b s ih =>
    have hb : b.toNat < 256 := b.toNat_lt
    have hmod : (b.toNat + 256 * ofLittleEndian s) % 256 = b.toNat := by omega
    have hdiv : (b.toNat + 256 * ofLittleEndian s) / 256 = ofLittleEndian s := by omega
    have hbyte : UInt8.ofNat (b.toNat + 256 * ofLittleEndian s) = b := by
      rw [← UInt8.toNat_inj, UInt8.toNat_ofNat']
      exact hmod
    rw [List.length_cons, ofLittleEndian, littleEndian, hbyte, hdiv, ih]

end Bytes

namespace Tape

/-! ## Reading a form -/

namespace Decoder

variable {α β : Type} {d : Decoder α} {enc : α → Bytes} {P : α → Prop} {s rest : Bytes} {x : α}

theorem bind_eq_ok {k : α → Decoder β} {y : β} :
    (d >>= k) s = .ok (y, rest) ↔ ∃ x mid, d s = .ok (x, mid) ∧ k x mid = .ok (y, rest) := by
  show Except.bind (d s) (fun p => k p.1 p.2) = _ ↔ _
  rcases d s with e | ⟨x, mid⟩
  · simp [Except.bind]
  · constructor
    · exact fun h => ⟨x, mid, rfl, h⟩
    · rintro ⟨x', mid', hd, hk⟩
      cases hd
      exact hk

theorem pure_eq_ok {y : α} : (pure x : Decoder α) s = .ok (y, rest) ↔ x = y ∧ s = rest := by
  show Except.ok (x, s) = _ ↔ _
  simp

/-- A decoder takes exactly the form of what it gives off the front of the
bytes, and takes the form of anything in `P`. -/
structure Reads (d : Decoder α) (enc : α → Bytes) (P : α → Prop) : Prop where
  eq_ok : ∀ {s : Bytes} {x : α} {rest : Bytes},
    d s = .ok (x, rest) ↔ P x ∧ s = enc x ++ rest

/-- Forms that are read do not run into what follows them. -/
theorem Reads.inj (h : Reads d enc P) {y : α} {rest' : Bytes} (hx : P x) (hy : P y)
    (heq : enc x ++ rest = enc y ++ rest') : x = y ∧ rest = rest' := by
  have hread := h.eq_ok.2 ⟨hy, heq⟩
  rw [h.eq_ok.2 ⟨hx, rfl⟩] at hread
  simpa using hread

theorem split_eq_some {done : Bytes} {n : Nat} {b : Bytes} :
    split done n s = some (b, rest) ↔
      ∃ front, b = done.reverse ++ front ∧ front.length = n ∧ s = front ++ rest := by
  induction n generalizing done s with
  | zero =>
    simp only [split, Option.some.injEq, Prod.mk.injEq, List.length_eq_zero_iff]
    constructor
    · rintro ⟨rfl, rfl⟩
      exact ⟨[], by simp⟩
    · rintro ⟨front, rfl, rfl, rfl⟩
      simp
  | succ n ih =>
    cases s with
    | nil =>
      simp only [split, reduceCtorEq, false_iff]
      rintro ⟨front, -, hlen, hs⟩
      rw [(List.append_eq_nil_iff.1 hs.symm).1] at hlen
      cases hlen
    | cons c s =>
      rw [split, ih]
      constructor
      · rintro ⟨front, rfl, rfl, rfl⟩
        exact ⟨c :: front, by simp⟩
      · rintro ⟨front, rfl, hlen, hs⟩
        obtain _ | ⟨c', front⟩ := front
        · cases hlen
        · obtain ⟨rfl, rfl⟩ := List.cons.inj hs
          exact ⟨front, by simp, Nat.succ.inj hlen, rfl⟩

theorem take_eq_ok {n : Nat} {b : Bytes} :
    take n s = .ok (b, rest) ↔ b.length = n ∧ s = b ++ rest := by
  have hsplit : split [] n s = some (b, rest) ↔
      ∃ front, b = front ∧ front.length = n ∧ s = front ++ rest := split_eq_some
  rw [take]
  cases hr : split [] n s with
  | none => simpa [hr] using hsplit
  | some r =>
    simp only [hr, Option.some.injEq] at hsplit
    simp only [Except.ok.injEq, hsplit]
    exact ⟨fun ⟨_, rfl, hlen, hs⟩ => ⟨hlen, hs⟩, fun ⟨hlen, hs⟩ => ⟨b, rfl, hlen, hs⟩⟩

theorem take_of_short {n : Nat} (h : s.length < n) : take n s = .error (.corrupt .truncated) := by
  rw [take]
  cases hr : split [] n s with
  | none => rfl
  | some r =>
    obtain ⟨front, -, hlen, rfl⟩ := split_eq_some.1 hr
    rw [List.length_append] at h
    omega

theorem word_reads (n : Nat) : Reads (word n) (Bytes.littleEndian n) (· < 256 ^ n) := by
  refine ⟨fun {s v rest} => ?_⟩
  simp only [word, bind_eq_ok, pure_eq_ok, take_eq_ok]
  constructor
  · rintro ⟨b, mid, ⟨rfl, rfl⟩, rfl, rfl⟩
    exact ⟨Bytes.ofLittleEndian_lt b, by rw [Bytes.littleEndian_ofLittleEndian]⟩
  · rintro ⟨hv, rfl⟩
    exact ⟨_, rest, ⟨Bytes.length_littleEndian n v, rfl⟩,
      Bytes.ofLittleEndian_littleEndian hv, rfl⟩

theorem name_reads : Reads name encodeName (·.length ≤ maxName) := by
  refine ⟨fun {s x rest} => ?_⟩
  simp only [name, bind_eq_ok, (word_reads 2).eq_ok, take_eq_ok, encodeName]
  constructor
  · rintro ⟨n, mid, ⟨hn, rfl⟩, rfl, rfl⟩
    exact ⟨Nat.le_of_lt_succ hn, by simp⟩
  · rintro ⟨hx, rfl⟩
    exact ⟨x.length, x ++ rest, ⟨Nat.lt_succ_of_le hx, by simp⟩, rfl, rfl⟩

/-- `n` items in a row, behind `done` in reverse. -/
theorem repeated_eq_ok (h : Reads d enc P) {done xs : List α} {n : Nat} :
    repeated d done n s = .ok (xs, rest) ↔
      ∃ ys, xs = done.reverse ++ ys ∧ ys.length = n ∧ (∀ y ∈ ys, P y) ∧
        s = ys.flatMap enc ++ rest := by
  induction n generalizing done s with
  | zero =>
    simp only [repeated, pure_eq_ok, List.length_eq_zero_iff]
    constructor
    · rintro ⟨rfl, rfl⟩
      exact ⟨[], by simp⟩
    · rintro ⟨ys, rfl, rfl, -, rfl⟩
      simp
  | succ n ih =>
    simp only [repeated, bind_eq_ok, ih, h.eq_ok]
    constructor
    · rintro ⟨y, mid, ⟨hy, rfl⟩, ys, rfl, rfl, hys, rfl⟩
      exact ⟨y :: ys, by simp, rfl, List.forall_mem_cons.2 ⟨hy, hys⟩, by simp⟩
    · rintro ⟨ys, rfl, hlen, hys, rfl⟩
      obtain _ | ⟨y, ys⟩ := ys
      · cases hlen
      · obtain ⟨hy, hys⟩ := List.forall_mem_cons.1 hys
        exact ⟨y, _, ⟨hy, List.flatMap_cons ▸ List.append_assoc ..⟩, ys, by simp,
          Nat.succ.inj hlen, hys, rfl⟩

theorem count_eq_ok {least n : Nat} :
    count least s = .ok (n, rest) ↔
      (n < 2 ^ 32 ∧ s = encodeCount n ++ rest) ∧ n ≤ rest.length / least := by
  have hcheck (m : Nat) (mid : Bytes) :
      (do let r ← get; if r.length / least < m then throw (.corrupt (.count m)) else return m :
        Decoder Nat) mid = .ok (n, rest) ↔ (m = n ∧ mid = rest) ∧ n ≤ rest.length / least := by
    show (if mid.length / least < m then throw (.corrupt (.count m)) else pure m :
      Decoder Nat) mid = .ok (n, rest) ↔ _
    split
    · show Except.error _ = _ ↔ _
      simp only [reduceCtorEq, false_iff]
      rintro ⟨⟨rfl, rfl⟩, hle⟩
      omega
    · rw [pure_eq_ok]
      constructor
      · rintro ⟨rfl, rfl⟩
        exact ⟨⟨rfl, rfl⟩, by omega⟩
      · exact fun h => h.1
  simp only [count, bind_eq_ok (d := word 4), (word_reads 4).eq_ok, hcheck, encodeCount]
  constructor
  · rintro ⟨m, mid, hm, ⟨rfl, rfl⟩, hle⟩
    exact ⟨hm, hle⟩
  · rintro ⟨hn, hle⟩
    exact ⟨n, rest, hn, ⟨rfl, rfl⟩, hle⟩

/-- The form of items with their count in front. -/
def encodeCounted (enc : α → Bytes) (xs : List α) : Bytes :=
  encodeCount xs.length ++ xs.flatMap enc

theorem length_flatMap_le {least : Nat} (hleast : ∀ x, P x → least ≤ (enc x).length) {xs : List α}
    (hxs : ∀ x ∈ xs, P x) : xs.length * least ≤ (xs.flatMap enc).length := by
  induction xs with
  | nil => simp
  | cons x xs ih =>
    obtain ⟨hx, hxs⟩ := List.forall_mem_cons.1 hxs
    have hfirst := hleast x hx
    have hrest := ih hxs
    rw [List.length_cons, List.flatMap_cons, List.length_append, Nat.succ_mul]
    omega

theorem counted_reads (h : Reads d enc P) {least : Nat} (hpos : 0 < least)
    (hleast : ∀ x, P x → least ≤ (enc x).length) :
    Reads (counted least d) (encodeCounted enc) fun xs => xs.length < 2 ^ 32 ∧ ∀ x ∈ xs, P x := by
  refine ⟨fun {s xs rest} => ?_⟩
  simp only [counted, bind_eq_ok, count_eq_ok, repeated_eq_ok h, List.reverse_nil, List.nil_append,
    encodeCounted]
  constructor
  · rintro ⟨n, mid, ⟨⟨hn, rfl⟩, -⟩, ys, rfl, rfl, hys, rfl⟩
    exact ⟨⟨hn, hys⟩, by simp⟩
  · rintro ⟨⟨hn, hxs⟩, rfl⟩
    have hroom := length_flatMap_le hleast hxs
    refine ⟨xs.length, xs.flatMap enc ++ rest, ⟨⟨hn, by simp⟩, ?_⟩, xs, rfl, rfl, hxs, rfl⟩
    rw [Nat.le_div_iff_mul_le hpos, List.length_append]
    omega

theorem header_eq_ok {u : Unit} : header s = .ok (u, rest) ↔ s = magic ++ [version] ++ rest := by
  have hsplit {b mid : Bytes} : split [] magic.length s = some (b, mid) ↔
      ∃ front, b = front ∧ front.length = magic.length ∧ s = front ++ mid := split_eq_some
  constructor
  · intro h
    unfold header at h
    split at h
    · next m mid hm =>
      obtain ⟨_, rfl, -, rfl⟩ := hsplit.1 hm
      split at h
      · cases h
      · next hmagic =>
        obtain rfl := not_not.1 hmagic
        split at h
        · cases h
        · split at h
          · next hv =>
            cases h
            rw [hv]
            simp
          · cases h
    · cases h
  · rintro rfl
    have hm : split [] magic.length (magic ++ [version] ++ rest) = some (magic, version :: rest) :=
      hsplit.2 ⟨magic, rfl, rfl, by simp⟩
    rw [header, hm]
    simp

theorem ending_eq_ok {u : Unit} : ending s = .ok (u, rest) ↔ s = [] ∧ rest = [] := by
  unfold ending
  cases s with
  | nil => simp [eq_comm]
  | cons b s => simp

end Decoder

/-! ## Instructions and tapes -/

/-- The operands and the variable of an instruction fit four bytes each. -/
structure Fits (i : Instr) : Prop where
  left : i.left < 2 ^ 32
  right : i.right < 2 ^ 32
  var_nonneg : 0 ≤ i.var
  var_lt : i.var < 2 ^ 32

theorem length_encodeInstr (i : Instr) : (encodeInstr i).length = instrBytes := by
  simp [encodeInstr, instrBytes]

theorem low32_natCast {n : Nat} (hn : n < 2 ^ 32) : low32 n = n := by
  rw [low32]
  omega

namespace Decoder

theorem instr_reads : Reads instr encodeInstr Fits := by
  refine ⟨fun {s i rest} => ?_⟩
  simp only [instr, bind_eq_ok, pure_eq_ok, (word_reads 1).eq_ok, (word_reads 4).eq_ok,
    (word_reads 8).eq_ok]
  constructor
  · rintro ⟨code, _, ⟨hcode, rfl⟩, left, _, ⟨hleft, rfl⟩, right, _, ⟨hright, rfl⟩, imm, _,
      ⟨himm, rfl⟩, var, _, ⟨hvar, rfl⟩, rfl, rfl⟩
    have hbits : (Binary.ofBits imm : Binary64).bits = imm := by
      rw [Binary.bits_ofBits]
      exact Nat.mod_eq_of_lt himm
    refine ⟨⟨hleft, hright, Int.natCast_nonneg var, Int.ofNat_lt.2 hvar⟩, ?_⟩
    simp [encodeInstr, hbits, low32_natCast hvar, Bytes.littleEndian]
  · rintro ⟨hi, rfl⟩
    obtain ⟨code, left, right, imm, var⟩ := i
    obtain ⟨n, rfl⟩ := Int.eq_ofNat_of_zero_le hi.var_nonneg
    have hn : n < 2 ^ 32 := Int.ofNat_lt.1 hi.var_lt
    have hform : encodeInstr ⟨code, left, right, imm, n⟩ ++ rest =
        Bytes.littleEndian 1 code.toNat ++ (Bytes.littleEndian 4 left ++
          (Bytes.littleEndian 4 right ++ (Bytes.littleEndian 8 imm.bits ++
            (Bytes.littleEndian 4 n ++ rest)))) := by
      simp [encodeInstr, low32_natCast hn, Bytes.littleEndian]
    exact ⟨code.toNat, _, ⟨code.toNat_lt, hform⟩, left, _, ⟨hi.left, rfl⟩, right, _,
      ⟨hi.right, rfl⟩, imm.bits, _, ⟨imm.bits_lt, rfl⟩, n, rest, ⟨hn, rfl⟩,
      by rw [UInt8.ofNat_toNat, Binary.ofBits_bits], rfl⟩

end Decoder

/-- Everything in a tape fits the bytes it is given. -/
structure Encodable (t : Tape) : Prop where
  names : ∀ name ∈ t.vars, name.length ≤ maxName
  instrs : ∀ i ∈ t.instrs, Fits i
  outputs : ∀ o ∈ t.outputs, o < 2 ^ 32
  vars_lt : t.vars.size < 2 ^ 32
  size_lt : t.size < 2 ^ 32
  outputs_lt : t.outputs.size < 2 ^ 32

namespace Decoder

/-- A tape without the bytes in front of it and the end behind it. -/
def body : Decoder Tape := do
  let vars ← counted 2 name
  let instrs ← counted instrBytes instr
  let outputs ← counted 4 (word 4)
  return ⟨instrs.toArray, outputs.toArray, vars.toArray⟩

theorem tape_eq : tape = header >>= fun _ => body >>= fun t => ending >>= fun _ => pure t := by
  simp [tape, body]

/-- The form of a tape without the bytes in front of it. -/
def encodeBody (t : Tape) : Bytes :=
  encodeCounted encodeName t.vars.toList ++ encodeCounted encodeInstr t.instrs.toList ++
    encodeCounted (Bytes.littleEndian 4) t.outputs.toList

theorem bytes_eq (t : Tape) : t.bytes = magic ++ [version] ++ encodeBody t := by
  simp [bytes, encodeBody, encodeCounted]

theorem names_read :
    Reads (counted 2 name) (encodeCounted encodeName) fun xs =>
      xs.length < 2 ^ 32 ∧ ∀ x ∈ xs, x.length ≤ maxName :=
  counted_reads name_reads (by decide) fun x _ => by simp [encodeName]

theorem instrs_read :
    Reads (counted instrBytes instr) (encodeCounted encodeInstr) fun xs =>
      xs.length < 2 ^ 32 ∧ ∀ i ∈ xs, Fits i :=
  counted_reads instr_reads (by decide) fun i _ => (length_encodeInstr i).ge

theorem outputs_read :
    Reads (counted 4 (word 4)) (encodeCounted (Bytes.littleEndian 4)) fun xs =>
      xs.length < 2 ^ 32 ∧ ∀ o ∈ xs, o < 256 ^ 4 :=
  counted_reads (word_reads 4) (by decide) fun o _ => (Bytes.length_littleEndian 4 o).ge

theorem body_reads : Reads body encodeBody Encodable := by
  refine ⟨fun {s t rest} => ?_⟩
  simp only [body, bind_eq_ok, pure_eq_ok, names_read.eq_ok, instrs_read.eq_ok,
    outputs_read.eq_ok]
  constructor
  · rintro ⟨vars, _, ⟨⟨hvars, hnames⟩, rfl⟩, instrs, _, ⟨⟨hsize, hinstrs⟩, rfl⟩,
      outputs, _, ⟨⟨hlen, houtputs⟩, rfl⟩, rfl, rfl⟩
    refine ⟨⟨by simpa using hnames, by simpa using hinstrs, by simpa using houtputs,
      by simpa using hvars, by simpa [size] using hsize, by simpa using hlen⟩, ?_⟩
    simp [encodeBody]
  · rintro ⟨ht, rfl⟩
    refine ⟨t.vars.toList, _, ⟨⟨?_, ?_⟩, ?_⟩, t.instrs.toList, _, ⟨⟨?_, ?_⟩, rfl⟩,
      t.outputs.toList, rest, ⟨⟨?_, ?_⟩, rfl⟩, rfl, rfl⟩
    · simpa using ht.vars_lt
    · simpa using ht.names
    · simp [encodeBody]
    · simpa [size] using ht.size_lt
    · simpa using ht.instrs
    · simpa using ht.outputs_lt
    · simpa using ht.outputs

theorem tape_eq_ok {t : Tape} : tape s = .ok (t, rest) ↔ t.Encodable ∧ s = t.bytes ∧ rest = [] := by
  simp only [tape_eq, bind_eq_ok, header_eq_ok, body_reads.eq_ok, ending_eq_ok, pure_eq_ok,
    bytes_eq]
  constructor
  · rintro ⟨-, _, rfl, t, _, ⟨ht, rfl⟩, -, _, ⟨rfl, rfl⟩, rfl, rfl⟩
    exact ⟨ht, by simp, rfl⟩
  · rintro ⟨ht, rfl, rfl⟩
    exact ⟨(), encodeBody t, rfl, t, [], ⟨ht, by simp⟩, (), [], ⟨rfl, rfl⟩, rfl, rfl⟩

end Decoder

/-- A tape is decoded from its bytes and from nothing else, if it fits them and
is valid. -/
theorem decode_eq_ok {s : Bytes} {t : Tape} :
    decode s = .ok t ↔ t.Encodable ∧ t.validate = .ok () ∧ s = t.bytes := by
  constructor
  · intro h
    unfold decode at h
    cases htape : Decoder.tape s with
    | error e => rw [htape] at h; cases h
    | ok r =>
      obtain ⟨u, rest⟩ := r
      rw [htape] at h
      obtain ⟨hu, rfl, rfl⟩ := Decoder.tape_eq_ok.1 htape
      cases hvalid : u.validate with
      | error e => simp [hvalid, bind, Except.bind] at h
      | ok _ =>
        simp only [hvalid, bind, Except.bind, pure, Except.pure, Except.ok.injEq] at h
        subst h
        exact ⟨hu, hvalid, rfl⟩
  · rintro ⟨ht, hvalid, rfl⟩
    have htape := Decoder.tape_eq_ok.2 ⟨ht, rfl, rfl⟩
    simp [decode, htape, hvalid, bind, Except.bind, pure, Except.pure]

theorem encode_eq_ok {s : Bytes} {t : Tape} :
    t.encode = .ok s ↔ (∀ name ∈ t.vars, name.length ≤ maxName) ∧ s = t.bytes := by
  unfold encode
  split
  · next name hname =>
    have hmem := Array.mem_of_find?_eq_some hname
    have hlong := Array.find?_some hname
    simp only [reduceCtorEq, false_iff, not_and]
    intro hall
    have := hall name hmem
    simp only [decide_eq_true_eq] at hlong
    omega
  · next hnone =>
    have hall : ∀ name ∈ t.vars, name.length ≤ maxName := by
      simpa using hnone
    rw [Except.ok.injEq, eq_comm]
    exact ⟨fun h => ⟨hall, h⟩, fun h => h.2⟩

/-- An encoding stands for one tape, and no encoding is the start of
another. -/
theorem Encodable.bytes_inj {t u : Tape} (ht : t.Encodable) (hu : u.Encodable) {s : Bytes}
    (h : t.bytes ++ s = u.bytes) : t = u ∧ s = [] := by
  rw [Decoder.bytes_eq, Decoder.bytes_eq, List.append_assoc, List.append_right_inj] at h
  exact Decoder.body_reads.inj ht hu (by rw [h, List.append_nil])

end Tape

end ScalarField
