/-
Tapes are decoded from an array as from the list of its bytes
(`Tape.decodeBuffer_eq`): the names that are read off the array are those that
the list has from the same position on (`Buffer.names_eq`).
-/
import ScalarField.Proofs.Tape.Codec
import ScalarField.Tape.Archive

namespace ScalarField

namespace Tape

namespace Decoder

variable {n : Nat} {s : Bytes}

theorem take_of_le (h : n ≤ s.length) : take n s = .ok (s.take n, s.drop n) :=
  take_eq_ok.2 ⟨List.length_take_of_le h, (List.take_append_drop n s).symm⟩

theorem word_of_le (h : n ≤ s.length) :
    word n s = .ok (Bytes.ofLittleEndian (s.take n), s.drop n) := by
  show Except.bind (take n s) _ = _
  rw [take_of_le h]
  rfl

theorem word_of_short (h : s.length < n) : word n s = .error (.corrupt .truncated) := by
  show Except.bind (take n s) _ = _
  rw [take_of_short h]
  rfl

end Decoder

namespace Buffer

/-- The bytes from a position on. -/
def after (b : ByteArray) (pos : Nat) : Bytes := b.data.toList.drop pos

variable {b : ByteArray}

theorem length_after (pos : Nat) : (after b pos).length = b.size - pos := by
  rw [after, List.length_drop, Array.length_toList, ByteArray.size_data]

theorem drop_after (pos n : Nat) : (after b pos).drop n = after b (pos + n) := List.drop_drop

theorem after_eq_cons {pos : Nat} (h : pos < b.size) :
    after b pos = b.get! pos :: after b (pos + 1) := by
  have hlt : pos < b.data.toList.length := by rwa [Array.length_toList, ByteArray.size_data]
  have hget : b.get! pos = b.data.toList[pos] := getElem!_pos b.data pos h
  rw [hget]
  exact List.drop_eq_getElem_cons hlt

theorem slice_eq {pos n : Nat} (h : pos + n ≤ b.size) (rest : Bytes) :
    slice b pos n rest = (after b pos).take n ++ rest := by
  induction n generalizing rest with
  | zero => rfl
  | succ n ih =>
    have hcons : (after b pos).drop n = b.get! (pos + n) :: after b (pos + n + 1) := by
      rw [drop_after, after_eq_cons (by omega)]
    rw [slice, ih (by omega), List.take_add, hcons]
    simp

theorem name_after (pos : Nat) :
    Decoder.name (after b pos) =
      if b.size < pos + 2 then .error (.corrupt .truncated)
      else
        let length := (b.get! pos).toNat + 256 * (b.get! (pos + 1)).toNat
        if b.size < pos + 2 + length then .error (.corrupt .truncated)
        else .ok (slice b (pos + 2) length [], after b (pos + 2 + length)) := by
  show Except.bind (Decoder.word 2 (after b pos)) (fun p => Decoder.take p.1 p.2) = _
  split
  · rw [Decoder.word_of_short (by rw [length_after]; omega)]
    rfl
  · have htake : (after b pos).take 2 = [b.get! pos, b.get! (pos + 1)] := by
      rw [after_eq_cons (by omega), after_eq_cons (by omega : pos + 1 < b.size)]
      rfl
    have hword : Bytes.ofLittleEndian [b.get! pos, b.get! (pos + 1)] =
        (b.get! pos).toNat + 256 * (b.get! (pos + 1)).toNat := rfl
    rw [Decoder.word_of_le (by rw [length_after]; omega), htake, hword, drop_after]
    dsimp only
    generalize (b.get! pos).toNat + 256 * (b.get! (pos + 1)).toNat = length
    show Decoder.take length (after b (pos + 2)) = _
    split
    · exact Decoder.take_of_short (by rw [length_after]; omega)
    · rw [Decoder.take_of_le (by rw [length_after]; omega), slice_eq (by omega), drop_after,
        List.append_nil]

theorem names_eq (n : Nat) : ∀ (pos : Nat) (done : Array Bytes),
    Decoder.repeated Decoder.name done.toList.reverse n (after b pos) =
      (names b n pos done).map fun (vars, pos) => (vars.toList, after b pos) := by
  induction n with
  | zero =>
    intro pos done
    show Except.ok (done.toList.reverse.reverse, _) = _
    rw [List.reverse_reverse]
    rfl
  | succ n ih =>
    intro pos done
    show Except.bind (Decoder.name (after b pos)) _ = _
    rw [name_after, names]
    split
    · rfl
    · dsimp only
      split
      · rfl
      · rw [← ih, Array.toList_push, List.reverse_append]
        rfl

/-- What stands in front of the names does not depend on what follows. -/
theorem front_append {s : Bytes} (hs : s.length = start) (rest : Bytes) :
    front (s ++ rest) = (front s).map fun (n, _) => (n, rest) := by
  obtain ⟨m, v, w, hm, hw, rfl⟩ : ∃ (m : Bytes) (v : UInt8) (w : Bytes),
      m.length = magic.length ∧ w.length = 4 ∧ s = m ++ v :: w := by
    have hfour : magic.length < s.length := by rw [hs]; decide
    refine ⟨s.take magic.length, s[magic.length], s.drop (magic.length + 1),
      List.length_take_of_le hfour.le, ?_, ?_⟩
    · rw [List.length_drop, hs]
      rfl
    · rw [← List.drop_eq_getElem_cons hfour, List.take_append_drop]
  have hheader (tail : Bytes) : Decoder.header (m ++ v :: tail) =
      if m ≠ magic then .error (.corrupt .magic)
      else if v = version then .ok ((), tail) else .error (.corrupt (.version v)) := by
    rw [Decoder.header, Decoder.split_eq_some.2 ⟨m, rfl, hm, rfl⟩]
    rfl
  show Except.bind (Decoder.header (m ++ v :: w ++ rest)) (fun p => Decoder.word 4 p.2) =
    (Except.bind (Decoder.header (m ++ v :: w)) fun p => Decoder.word 4 p.2).map _
  rw [List.append_assoc, List.cons_append, hheader, hheader]
  split
  · rfl
  · split
    · show Decoder.word 4 (w ++ rest) = (Decoder.word 4 w).map _
      rw [Decoder.word_of_le (by simp [hw]), Decoder.word_of_le hw.ge, List.take_left' hw,
        List.drop_left' hw, List.take_of_length_le hw.le]
      rfl
    · rfl

theorem length_of_front_eq_ok {s rest : Bytes} {n : Nat} (h : front s = .ok (n, rest)) :
    s.length = start + rest.length := by
  obtain ⟨u, mid, hheader, hword⟩ := Decoder.bind_eq_ok.1 h
  obtain ⟨-, rfl⟩ := (Decoder.word_reads 4).eq_ok.1 hword
  rw [Decoder.header_eq_ok.1 hheader]
  simp only [List.length_append, Bytes.length_littleEndian, start, List.length_singleton]
  omega

/-- The check that there is room for the names. -/
def room (n : Nat) : Decoder Nat := do
  let rest ← get
  if rest.length / 2 < n then throw (.corrupt (.count n)) else return n

theorem room_eq (n : Nat) (s : Bytes) :
    room n s = if s.length / 2 < n then .error (.corrupt (.count n)) else .ok (n, s) := by
  show (if s.length / 2 < n then throw (.corrupt (.count n)) else pure n : Decoder Nat) s = _
  split <;> rfl

theorem count_eq :
    (front (after b 0)).bind (fun p => room p.1 p.2) =
      (count b).map fun n => (n, after b start) := by
  show _ = ((front (slice b 0 (min start b.size) [])).bind fun p =>
    if (b.size - start) / 2 < p.1 then .error (.corrupt (.count p.1)) else .ok p.1).map _
  by_cases hsize : start ≤ b.size
  · have hsplit : (after b 0).take start ++ after b start = after b 0 := by
      rw [← Nat.zero_add start, ← drop_after, Nat.zero_add, List.take_append_drop]
    have hfront := front_append (s := (after b 0).take start)
      (List.length_take_of_le (by rw [length_after]; omega)) (after b start)
    rw [hsplit] at hfront
    rw [Nat.min_eq_left hsize, slice_eq (by omega), List.append_nil, hfront]
    cases front ((after b 0).take start) with
    | error e => rfl
    | ok p =>
      show room p.1 (after b start) = _
      rw [room_eq, length_after]
      show _ = Except.map _ (if (b.size - start) / 2 < p.1 then _ else _)
      split <;> rfl
  · rw [Nat.min_eq_right (by omega), slice_eq (by omega), List.append_nil,
      List.take_of_length_le (by rw [length_after]; omega)]
    cases hfront : front (after b 0) with
    | error e => rfl
    | ok r =>
      have := length_of_front_eq_ok hfront
      rw [length_after] at this
      omega

theorem slice_rest (pos : Nat) : slice b pos (b.size - pos) [] = after b pos := by
  by_cases hpos : pos ≤ b.size
  · rw [slice_eq (by omega), List.append_nil, List.take_of_length_le (length_after pos).le]
  · have hnil : after b pos = [] := List.length_eq_zero_iff.1 (by rw [length_after]; omega)
    rw [Nat.sub_eq_zero_of_le (by omega), hnil]
    rfl

theorem tape_after :
    Decoder.tape (after b 0) = (count b).bind fun n =>
      (names b n start #[]).bind fun p => body p.1 (slice b p.2 (b.size - p.2) []) := by
  have htape : Decoder.tape = front >>= fun n => room n >>= fun n =>
      Decoder.repeated Decoder.name [] n >>= fun vars => body vars.toArray := by
    simp [Decoder.tape, Decoder.counted, Decoder.count, front, body, room]
  have hassoc : Decoder.tape (after b 0) = ((front (after b 0)).bind fun p => room p.1 p.2).bind
      fun p => (Decoder.repeated Decoder.name [] p.1 p.2).bind fun q => body q.1.toArray q.2 := by
    rw [htape]
    show (front (after b 0)).bind _ = _
    cases front (after b 0) <;> rfl
  rw [hassoc, count_eq]
  cases count b with
  | error e => rfl
  | ok n =>
    show (Decoder.repeated Decoder.name [] n (after b start)).bind _ = (names b n start #[]).bind _
    rw [show Decoder.repeated Decoder.name [] n (after b start) = _ from names_eq n start #[]]
    cases names b n start #[] with
    | error e => rfl
    | ok p =>
      show body p.1 (after b p.2) = body p.1 (slice b p.2 (b.size - p.2) [])
      rw [slice_rest]

end Buffer

/-- A tape is decoded from an array as from the list of its bytes. -/
theorem decodeBuffer_eq (b : ByteArray) : decodeBuffer b = decode b.data.toList := by
  show (Buffer.count b).bind (fun n => (Buffer.names b n Buffer.start #[]).bind fun p =>
    (Buffer.body p.1 (Buffer.slice b p.2 (b.size - p.2) [])).bind fun q =>
      q.1.validate.bind fun _ => .ok q.1) =
    (Decoder.tape (Buffer.after b 0)).bind fun q => q.1.validate.bind fun _ => .ok q.1
  rw [Buffer.tape_after]
  cases Buffer.count b with
  | error e => rfl
  | ok n =>
    show (Buffer.names b n Buffer.start #[]).bind _ =
      ((Buffer.names b n Buffer.start #[]).bind _).bind _
    cases Buffer.names b n Buffer.start #[] <;> rfl

end Tape

end ScalarField
