/-
Reading a text character by character loses nothing (`Rune.write_read`), and an
ASCII byte is read on its own wherever it stands (`Rune.read_append_ascii`).

No byte after the first one of a character is ASCII. So what is in front of an
ASCII byte is read as if it ended there, whatever bytes it consists of.
-/
import ScalarField.Text.Utf8

namespace ScalarField

namespace Rune

/-! ## Bytes of a character -/

theorem forall_byte {p : UInt8 → Prop} (h : ∀ n : Fin 256, p (.ofFin n)) (b : UInt8) : p b :=
  h b.toFin

theorem tail_toNat : ∀ b : UInt8, isTail b = true →
    b.toNat = tailBits b + 128 ∧ tailBits b < 64 :=
  forall_byte (by decide +kernel)

/-- The first byte of a character of two, three or four bytes is its bits and a
mark. -/
theorem lead_toNat : ∀ b : UInt8,
    (b &&& 0xE0 == 0xC0 → b.toNat = (b &&& 0x1F).toNat + 192 ∧ (b &&& 0x1F).toNat < 32) ∧
    (b &&& 0xF0 == 0xE0 → b.toNat = (b &&& 0x0F).toNat + 224 ∧ (b &&& 0x0F).toNat < 16) ∧
    (b &&& 0xF8 == 0xF0 → b.toNat = (b &&& 0x07).toNat + 240 ∧ (b &&& 0x07).toNat < 8) :=
  forall_byte (by decide +kernel)

theorem isTail_of_ascii {b : UInt8} (h : b < 0x80) : isTail b = false := by
  cases hb : isTail b with
  | false => rfl
  | true =>
    have htail := tail_toNat b hb
    have hlt : b.toNat < 128 := h
    omega

theorem charAbove_map_eq_some {low v k n : Nat} {c : Char}
    (h : (charAbove low v).map (·, k) = some (c, n)) : low ≤ v ∧ c.val.toNat = v ∧ n = k := by
  obtain ⟨d, hd, hpair⟩ := Option.map_eq_some_iff.1 h
  obtain ⟨rfl, rfl⟩ := Prod.mk.inj hpair
  by_cases hv : low ≤ v ∧ v.isValidChar
  · rw [charAbove, dif_pos hv] at hd
    obtain rfl := Option.some.inj hd
    exact ⟨hv.1, rfl, rfl⟩
  · rw [charAbove, dif_neg hv] at hd
    cases hd

theorem ofNat_eq_of_toNat {b : UInt8} {n : Nat} (h : b.toNat = n) : UInt8.ofNat n = b := by
  rw [← h, UInt8.ofNat_toNat]

section

variable {b b₁ b₂ b₃ : UInt8} {c : Char} (h₁ : isTail b₁ = true)
include h₁

theorem encode_two (hb : (b &&& 0xE0 == 0xC0) = true)
    (hlow : 0x80 ≤ (b &&& 0x1F).toNat * 64 + tailBits b₁)
    (hc : c.val.toNat = (b &&& 0x1F).toNat * 64 + tailBits b₁) :
    String.utf8EncodeChar c = [b, b₁] := by
  have hb := (lead_toNat b).1 hb
  have h₁ := tail_toNat b₁ h₁
  simp only [String.utf8EncodeChar, hc]
  rw [if_neg (by omega), if_pos (by omega), ofNat_eq_of_toNat (b := b) (by omega),
    ofNat_eq_of_toNat (b := b₁) (by omega)]

theorem encode_three (h₂ : isTail b₂ = true) (hb : (b &&& 0xF0 == 0xE0) = true)
    (hlow : 0x800 ≤ ((b &&& 0x0F).toNat * 64 + tailBits b₁) * 64 + tailBits b₂)
    (hc : c.val.toNat = ((b &&& 0x0F).toNat * 64 + tailBits b₁) * 64 + tailBits b₂) :
    String.utf8EncodeChar c = [b, b₁, b₂] := by
  have hb := (lead_toNat b).2.1 hb
  have h₁ := tail_toNat b₁ h₁
  have h₂ := tail_toNat b₂ h₂
  simp only [String.utf8EncodeChar, hc]
  rw [if_neg (by omega), if_neg (by omega), if_pos (by omega),
    ofNat_eq_of_toNat (b := b) (by omega), ofNat_eq_of_toNat (b := b₁) (by omega),
    ofNat_eq_of_toNat (b := b₂) (by omega)]

theorem encode_four (h₂ : isTail b₂ = true) (h₃ : isTail b₃ = true)
    (hb : (b &&& 0xF8 == 0xF0) = true)
    (hlow : 0x10000 ≤
      (((b &&& 0x07).toNat * 64 + tailBits b₁) * 64 + tailBits b₂) * 64 + tailBits b₃)
    (hc : c.val.toNat =
      (((b &&& 0x07).toNat * 64 + tailBits b₁) * 64 + tailBits b₂) * 64 + tailBits b₃) :
    String.utf8EncodeChar c = [b, b₁, b₂, b₃] := by
  have hb := (lead_toNat b).2.2 hb
  have h₁ := tail_toNat b₁ h₁
  have h₂ := tail_toNat b₂ h₂
  have h₃ := tail_toNat b₃ h₃
  simp only [String.utf8EncodeChar, hc]
  rw [if_neg (by omega), if_neg (by omega), if_neg (by omega),
    ofNat_eq_of_toNat (b := b) (by omega), ofNat_eq_of_toNat (b := b₁) (by omega),
    ofNat_eq_of_toNat (b := b₂) (by omega), ofNat_eq_of_toNat (b := b₃) (by omega)]

end

/-- The bytes of a character that is read are the first one and those that it
takes. -/
theorem first_eq_some {b : UInt8} {rest : Bytes} {c : Char} {n : Nat}
    (h : first b rest = some (c, n)) :
    n ≤ rest.length ∧ String.utf8EncodeChar c = b :: rest.take n := by
  unfold first at h
  split at h
  · rename_i hb
    have hb : b.toNat < 128 := hb
    obtain ⟨-, hc, rfl⟩ := charAbove_map_eq_some h
    simp only [String.utf8EncodeChar, hc, List.take_zero]
    rw [if_pos (by omega), ofNat_eq_of_toNat rfl]
    exact ⟨Nat.zero_le _, rfl⟩
  split at h
  · rename_i hb
    split at h
    · split at h
      · rename_i h₁
        obtain ⟨hlow, hc, rfl⟩ := charAbove_map_eq_some h
        exact ⟨by simp, encode_two h₁ hb hlow hc⟩
      · simp at h
    · simp at h
  split at h
  · rename_i hb
    split at h
    · split at h
      · rename_i htail
        obtain ⟨h₁, h₂⟩ := Bool.and_eq_true_iff.1 htail
        obtain ⟨hlow, hc, rfl⟩ := charAbove_map_eq_some h
        exact ⟨by simp, encode_three h₁ h₂ hb hlow hc⟩
      · simp at h
    · simp at h
  split at h
  · rename_i hb
    split at h
    · split at h
      · rename_i htail
        obtain ⟨h₁₂, h₃⟩ := Bool.and_eq_true_iff.1 htail
        obtain ⟨h₁, h₂⟩ := Bool.and_eq_true_iff.1 h₁₂
        obtain ⟨hlow, hc, rfl⟩ := charAbove_map_eq_some h
        exact ⟨by simp, encode_four h₁ h₂ h₃ hb hlow hc⟩
      · simp at h
    · simp at h
  · simp at h

/-- A character does not reach over an ASCII byte. -/
theorem first_append_ascii (b : UInt8) (x : Bytes) {a : UInt8} (ha : a < 0x80) (y : Bytes) :
    first b (x ++ a :: y) = first b x := by
  have htail := isTail_of_ascii ha
  rcases x with _ | ⟨b₁, _ | ⟨b₂, _ | ⟨b₃, x⟩⟩⟩
  · rcases y with _ | ⟨c₁, _ | ⟨c₂, y⟩⟩ <;> simp [first, htail]
  · rcases y with _ | ⟨c₁, y⟩ <;> simp [first, htail]
  · simp [first, htail]
  · rfl

theorem first_ascii {a : UInt8} (ha : a < 0x80) (rest : Bytes) :
    first a rest = some (.ofNat a.toNat, 0) := by
  have hvalid : a.toNat.isValidChar := .inl (Nat.lt_trans (show a.toNat < 128 from ha) (by decide))
  unfold first
  rw [if_pos ha, charAbove, dif_pos ⟨Nat.zero_le _, hvalid⟩, Char.ofNat, dif_pos hvalid]
  rfl

/-- A character depends on no byte behind its own. -/
theorem first_of_isPrefix {b : UInt8} {x y : Bytes} {c : Char} {n : Nat}
    (h : first b x = some (c, n)) (hxy : x.take n <+: y) : first b y = some (c, n) := by
  obtain ⟨z, rfl⟩ := hxy
  unfold first at h ⊢
  split at h
  · rename_i hb
    rw [if_pos hb, h]
  rename_i hb
  rw [if_neg hb]
  split at h
  · rename_i hb
    rw [if_pos hb]
    split at h
    · split at h
      · rename_i htail
        obtain ⟨-, -, rfl⟩ := charAbove_map_eq_some h
        exact (if_pos htail).trans h
      · simp at h
    · simp at h
  rename_i hb
  rw [if_neg hb]
  split at h
  · rename_i hb
    rw [if_pos hb]
    split at h
    · split at h
      · rename_i htail
        obtain ⟨-, -, rfl⟩ := charAbove_map_eq_some h
        exact (if_pos htail).trans h
      · simp at h
    · simp at h
  rename_i hb
  rw [if_neg hb]
  split at h
  · rename_i hb
    rw [if_pos hb]
    split at h
    · split at h
      · rename_i htail
        obtain ⟨-, -, rfl⟩ := charAbove_map_eq_some h
        exact (if_pos htail).trans h
      · simp at h
    · simp at h
  · simp at h

/-! ## Texts -/

theorem readFrom_done (done : List Rune) (n : Nat) (s : Bytes) :
    readFrom done n s = done.reverse ++ readFrom [] n s := by
  induction s generalizing done n with
  | nil => simp [readFrom]
  | cons b rest ih =>
    cases n with
    | succ n => exact ih done n
    | zero =>
      simp only [readFrom]
      split
      · rename_i c n _
        rw [ih (.char c :: done), ih [.char c]]
        simp
      · rw [ih (.stray b :: done), ih [.stray b]]
        simp

theorem readFrom_skip (n : Nat) (s : Bytes) : readFrom [] n s = read (s.drop n) := by
  induction s generalizing n with
  | nil => simp [read, readFrom]
  | cons b rest ih =>
    cases n with
    | zero => rfl
    | succ n => exact ih n

theorem read_cons (b : UInt8) (rest : Bytes) : read (b :: rest) =
    match first b rest with
    | some (c, n) => .char c :: read (rest.drop n)
    | none => .stray b :: read rest := by
  rw [show read (b :: rest) = readFrom [] 0 (b :: rest) from rfl]
  rcases hfirst : first b rest with _ | ⟨c, n⟩
  · simp only [readFrom, hfirst]
    rw [readFrom_done]
    rfl
  · simp only [readFrom, hfirst]
    rw [readFrom_done, readFrom_skip]
    rfl

theorem write_cons (r : Rune) (rs : List Rune) : write (r :: rs) = r.bytes ++ write rs :=
  List.flatMap_cons

/-- Reading loses nothing. -/
theorem write_read (s : Bytes) : write (read s) = s := by
  induction hn : s.length using Nat.strongRecOn generalizing s with
  | _ n ih =>
  subst hn
  cases s with
  | nil => rfl
  | cons b rest =>
    rw [read_cons]
    split
    · rename_i c n hfirst
      obtain ⟨-, hbytes⟩ := first_eq_some hfirst
      have hshort : (rest.drop n).length < (b :: rest).length := by
        rw [List.length_drop, List.length_cons]
        omega
      rw [write_cons, ih _ hshort _ rfl, bytes, hbytes, List.cons_append, List.take_append_drop]
    · rw [write_cons, ih _ (by simp) rest rfl]
      rfl

theorem mem_read {r : Rune} {s : Bytes} (h : r ∈ read s) :
    ∃ b rest, (∃ c n, first b rest = some (c, n) ∧ r = .char c) ∨
      first b rest = none ∧ r = .stray b := by
  induction hn : s.length using Nat.strongRecOn generalizing s with
  | _ n ih =>
  subst hn
  cases s with
  | nil => exact absurd h List.not_mem_nil
  | cons b rest =>
    rw [read_cons] at h
    split at h
    · rename_i c n hfirst
      rcases List.mem_cons.1 h with rfl | h
      · exact ⟨b, rest, .inl ⟨c, n, hfirst, rfl⟩⟩
      · refine ih _ ?_ h rfl
        rw [List.length_drop, List.length_cons]
        omega
    · rename_i hfirst
      rcases List.mem_cons.1 h with rfl | h
      · exact ⟨b, rest, .inr ⟨hfirst, rfl⟩⟩
      · exact ih _ (by simp) h rfl

theorem head?_bytes_of_mem_read {r : Rune} {s : Bytes} (h : r ∈ read s) {a : UInt8}
    (ha : a < 0x80) : r.bytes.head? = some a ↔ r = .char (.ofNat a.toNat) := by
  have hascii := first_eq_some (first_ascii ha [])
  constructor
  · intro hhead
    obtain ⟨b, rest, ⟨c, n, hfirst, rfl⟩ | ⟨hfirst, rfl⟩⟩ := mem_read h
    · rw [bytes, (first_eq_some hfirst).2, List.head?_cons, Option.some.injEq] at hhead
      rw [hhead, first_ascii ha] at hfirst
      rw [(Prod.mk.inj (Option.some.inj hfirst)).1]
    · rw [bytes, List.head?_cons, Option.some.injEq] at hhead
      rw [hhead, first_ascii ha] at hfirst
      simp at hfirst
  · rintro rfl
    rw [bytes, hascii.2, List.head?_cons]

theorem length_bytes_pos (r : Rune) : 0 < r.bytes.length := by
  cases r with
  | char c => exact String.length_utf8EncodeChar c ▸ c.utf8Size_pos
  | stray b => exact Nat.one_pos

/-- A text that is cut between two characters is read in both parts as it was. -/
theorem read_write_of_append {s : Bytes} {front back : List Rune} (h : read s = front ++ back) :
    read (write front) = front ∧ read (write back) = back := by
  induction hn : s.length using Nat.strongRecOn generalizing s front with
  | _ n ih =>
  subst hn
  cases front with
  | nil =>
    rw [List.nil_append] at h
    exact ⟨rfl, by rw [← h, write_read]⟩
  | cons r front =>
    cases s with
    | nil => cases h
    | cons b rest =>
      rw [read_cons, List.cons_append] at h
      split at h
      · rename_i c n hfirst
        obtain ⟨rfl, hrest⟩ := List.cons.inj h
        have hshort : (rest.drop n).length < (b :: rest).length := by
          rw [List.length_drop, List.length_cons]
          omega
        obtain ⟨hfront, hback⟩ := ih _ hshort hrest rfl
        obtain ⟨hle, hbytes⟩ := first_eq_some hfirst
        have htake : (rest.take n ++ write front).drop n = write front :=
          List.drop_left' (by rw [List.length_take, Nat.min_eq_left hle])
        have hagain := first_of_isPrefix hfirst (List.prefix_append (rest.take n) (write front))
        rw [write_cons, bytes, hbytes, List.cons_append, read_cons, hagain]
        simp only [htake, hfront]
        exact ⟨trivial, hback⟩
      · rename_i hfirst
        obtain ⟨rfl, hrest⟩ := List.cons.inj h
        obtain ⟨hfront, hback⟩ := ih _ (by simp) hrest rfl
        refine ⟨?_, hback⟩
        -- A character that starts in a part would start in the whole.
        have hnone : first b (write front) = none := by
          rw [Option.eq_none_iff_forall_ne_some]
          rintro ⟨c, n⟩ hsome
          have hprefix : write front <+: rest :=
            ⟨write back, by rw [← write_read rest, hrest, write, write, write, List.flatMap_append]⟩
          have := first_of_isPrefix hsome ((List.take_prefix n _).trans hprefix)
          simp [hfirst] at this
        rw [write_cons, bytes, List.singleton_append, read_cons, hnone]
        simp only [hfront]

/-- An ASCII byte is read on its own. -/
theorem read_append_ascii (x : Bytes) {a : UInt8} (ha : a < 0x80) (y : Bytes) :
    read (x ++ a :: y) = read x ++ .char (.ofNat a.toNat) :: read y := by
  induction hn : x.length using Nat.strongRecOn generalizing x with
  | _ n ih =>
  subst hn
  cases x with
  | nil =>
    rw [List.nil_append, read_cons, first_ascii ha]
    rfl
  | cons b x =>
    rw [List.cons_append, read_cons, first_append_ascii b x ha, read_cons]
    split
    · rename_i c n hfirst
      obtain ⟨hle, -⟩ := first_eq_some hfirst
      have hshort : (x.drop n).length < (b :: x).length := by
        rw [List.length_drop, List.length_cons]
        omega
      rw [List.drop_append_of_le_length hle, ih _ hshort _ rfl, List.cons_append]
    · rw [ih _ (by simp) x rfl, List.cons_append]

end Rune

end ScalarField
