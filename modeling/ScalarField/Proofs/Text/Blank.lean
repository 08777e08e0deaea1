/-
The fields of a text: words without white space, with spaces between them, are
the fields of their text (`Bytes.fields_joined`).

A word may hold any bytes, also ones that start no character. It has no ASCII
byte that is white space, so that words stay on one line
(`Bytes.not_mem_joined`).
-/
import ScalarField.Proofs.Text.Utf8
import ScalarField.Text.Reading

namespace ScalarField

namespace Bytes

/-- A text without white space. -/
def Solid (w : Bytes) : Prop := ∀ r ∈ Rune.read w, r.isBlank = false

/-- A visible ASCII byte. -/
def isGraphic (b : UInt8) : Bool := 33 ≤ b && b < 128

variable {w rest : Bytes}

theorem isGraphic_ascii {b : UInt8} (h : isGraphic b = true) : b < 0x80 := by
  simpa using (Bool.and_eq_true_iff.1 h).2

theorem isBlank_graphic : ∀ b : UInt8, isGraphic b = true →
    (Rune.char (.ofNat b.toNat)).isBlank = false :=
  Rune.forall_byte (by decide +kernel)

theorem read_cons_ascii {a : UInt8} (ha : a < 0x80) (s : Bytes) :
    Rune.read (a :: s) = .char (.ofNat a.toNat) :: Rune.read s :=
  Rune.read_append_ascii [] ha s

theorem Solid.append (hw : Solid w) {s : Bytes} (hs : ∀ b ∈ s, isGraphic b = true) :
    Solid (s ++ w) := by
  induction s with
  | nil => exact hw
  | cons b s ih =>
    have hb := hs b List.mem_cons_self
    intro r hr
    rw [List.cons_append, read_cons_ascii (isGraphic_ascii hb)] at hr
    rcases List.mem_cons.1 hr with rfl | hr
    · exact isBlank_graphic b hb
    · exact ih (fun c hc => hs c (List.mem_cons_of_mem b hc)) r hr

theorem Solid.of_append {s : Bytes} (h : Solid (s ++ w)) (hs : ∀ b ∈ s, isGraphic b = true) :
    Solid w := by
  induction s with
  | nil => exact h
  | cons b s ih =>
    obtain ⟨hb, hs⟩ := List.forall_mem_cons.1 hs
    refine ih (fun r hr => h r ?_) hs
    rw [List.cons_append, read_cons_ascii (isGraphic_ascii hb)]
    exact List.mem_cons_of_mem _ hr

theorem solid_of_graphic (h : ∀ b ∈ w, isGraphic b = true) : Solid w := by
  have hnil : Solid [] := fun r hr => absurd hr List.not_mem_nil
  simpa using hnil.append h

theorem Solid.not_mem (hw : Solid w) {a : UInt8} (ha : a < 0x80)
    (hblank : (Rune.char (.ofNat a.toNat)).isBlank = true) : a ∉ w := by
  intro hmem
  obtain ⟨x, y, rfl⟩ := List.append_of_mem hmem
  have hr := hw (.char (.ofNat a.toNat)) (by rw [Rune.read_append_ascii x ha]; simp)
  exact absurd (hr.symm.trans hblank) Bool.false_ne_true

/-! ## Fields -/

theorem fieldsFrom_done (cur : List Rune) (done : List Bytes) (rs : List Rune) :
    fieldsFrom cur done rs = done.reverse ++ fieldsFrom cur [] rs := by
  induction rs generalizing cur done with
  | nil =>
    simp only [fieldsFrom, closeField]
    split <;> simp
  | cons r rs ih =>
    simp only [fieldsFrom]
    split
    · rw [ih [] (closeField cur done), ih [] (closeField cur [])]
      simp only [closeField]
      split <;> simp
    · exact ih (r :: cur) done

theorem fieldsFrom_append (cur : List Rune) {rs : List Rune} (h : ∀ r ∈ rs, r.isBlank = false)
    (ss : List Rune) : fieldsFrom cur [] (rs ++ ss) = fieldsFrom (rs.reverse ++ cur) [] ss := by
  induction rs generalizing cur with
  | nil => rfl
  | cons r rs ih =>
    have hr := h r List.mem_cons_self
    rw [List.cons_append, fieldsFrom, hr, if_neg Bool.false_ne_true,
      ih _ fun q hq => h q (List.mem_cons_of_mem r hq)]
    simp

theorem closeField_read (hw : w ≠ []) : closeField (Rune.read w).reverse [] = [w] := by
  have hne : Rune.read w ≠ [] := fun hnil => hw (by rw [← Rune.write_read w, hnil]; rfl)
  simp [closeField, hne, Rune.write_read]

theorem fields_word (hw : w ≠ []) (hsolid : Solid w) : fields w = [w] := by
  have hread := fieldsFrom_append [] hsolid []
  rw [List.append_nil, List.append_nil] at hread
  rw [fields, hread, fieldsFrom, closeField_read hw]
  rfl

theorem fields_cons (hw : w ≠ []) (hsolid : Solid w) (rest : Bytes) :
    fields (w ++ 32 :: rest) = w :: fields rest := by
  have hspace : (Rune.char (.ofNat (32 : UInt8).toNat)).isBlank = true := by decide
  rw [fields, Rune.read_append_ascii w (by decide), fieldsFrom_append [] hsolid, List.append_nil,
    fieldsFrom, hspace, if_pos rfl, fieldsFrom_done, closeField_read hw]
  rfl

theorem fields_eq_nil {s : Bytes} (h : ∀ r ∈ Rune.read s, r.isBlank = true) : fields s = [] := by
  rw [fields]
  generalize Rune.read s = rs at h
  induction rs with
  | nil => rfl
  | cons r rs ih =>
    obtain ⟨hr, hrs⟩ := List.forall_mem_cons.1 h
    simp only [fieldsFrom, hr, if_true]
    exact ih hrs

theorem mem_closeField {cur : List Rune} (h : w ∈ closeField cur []) :
    w = Rune.write cur.reverse ∧ cur.reverse ≠ [] := by
  unfold closeField at h
  split at h
  · exact absurd h List.not_mem_nil
  · rename_i hne
    exact ⟨List.mem_singleton.1 h, by simpa using hne⟩

theorem mem_fieldsFrom {cur rs : List Rune} (hcur : ∀ r ∈ cur, r.isBlank = false)
    (h : w ∈ fieldsFrom cur [] rs) :
    ∃ front part back, cur.reverse ++ rs = front ++ (part ++ back) ∧ w = Rune.write part ∧
      part ≠ [] ∧ ∀ r ∈ part, r.isBlank = false := by
  induction rs generalizing cur with
  | nil =>
    obtain ⟨rfl, hne⟩ := mem_closeField (by simpa [fieldsFrom] using h)
    exact ⟨[], cur.reverse, [], rfl, rfl, hne, by simpa using hcur⟩
  | cons r rs ih =>
    unfold fieldsFrom at h
    split at h
    · rw [fieldsFrom_done, List.mem_append, List.mem_reverse] at h
      rcases h with h | h
      · obtain ⟨rfl, hne⟩ := mem_closeField h
        exact ⟨[], cur.reverse, r :: rs, rfl, rfl, hne, by simpa using hcur⟩
      · obtain ⟨front, part, back, heq, hpart⟩ := ih (fun _ h => absurd h List.not_mem_nil) h
        rw [List.reverse_nil, List.nil_append] at heq
        exact ⟨cur.reverse ++ r :: front, part, back, by simp [heq], hpart⟩
    · rename_i hr
      have hcur' : ∀ q ∈ r :: cur, q.isBlank = false :=
        List.forall_mem_cons.2 ⟨by simpa using hr, hcur⟩
      obtain ⟨front, part, back, heq, hpart⟩ := ih hcur' h
      exact ⟨front, part, back, by simpa using heq, hpart⟩

theorem solid_of_mem_fields {s : Bytes} (h : w ∈ fields s) : w ≠ [] ∧ Solid w := by
  obtain ⟨front, part, back, heq, rfl, hne, hpart⟩ :=
    mem_fieldsFrom (fun _ h => absurd h List.not_mem_nil) h
  have hread : Rune.read (Rune.write part) = part := by
    have hrest := (Rune.read_write_of_append heq).2
    exact (Rune.read_write_of_append hrest).1
  refine ⟨fun hnil => hne ?_, by rwa [Solid, hread]⟩
  rw [← hread, hnil]
  rfl

theorem bytes_ascii {a : UInt8} (ha : a < 0x80) : (Rune.char (.ofNat a.toNat)).bytes = [a] :=
  (Rune.first_eq_some (Rune.first_ascii ha [])).2

/-- Words with a space between neighbours. -/
def joined (ws : List Bytes) : Bytes := join [32] ws

theorem joined_cons_cons (w v : Bytes) (ws : List Bytes) :
    joined (w :: v :: ws) = w ++ 32 :: joined (v :: ws) := by
  simp [joined, join]

theorem fields_joined : ∀ (ws : List Bytes), (∀ w ∈ ws, w ≠ [] ∧ Solid w) → fields (joined ws) = ws
  | [], _ => rfl
  | [w], h => by
    obtain ⟨hw, hsolid⟩ := h w List.mem_cons_self
    simpa [joined, join] using fields_word hw hsolid
  | w :: v :: ws, h => by
    obtain ⟨hw, hsolid⟩ := h w List.mem_cons_self
    rw [joined_cons_cons, fields_cons hw hsolid,
      fields_joined (v :: ws) fun u hu => h u (List.mem_cons_of_mem w hu)]

theorem length_joined_cons_le (w : Bytes) (ws : List Bytes) :
    (joined (w :: ws)).length ≤ w.length + 1 + (joined ws).length := by
  cases ws with
  | nil => simp [joined, join]
  | cons v ws =>
    rw [joined_cons_cons, List.length_append, List.length_cons]
    omega

theorem length_joined_fieldsFrom_le (cur rs : List Rune) :
    (joined (fieldsFrom cur [] rs)).length ≤ (Rune.write (cur.reverse ++ rs)).length := by
  induction rs generalizing cur with
  | nil =>
    simp only [fieldsFrom, closeField]
    split <;> simp [joined, join]
  | cons r rs ih =>
    unfold fieldsFrom
    split
    · have hrest := ih []
      have hpos := r.length_bytes_pos
      rw [fieldsFrom_done, closeField]
      simp only [Rune.write, List.flatMap_append, List.length_append, List.flatMap_cons,
        List.reverse_nil, List.nil_append] at hrest ⊢
      split
      · simp only [List.reverse_nil, List.nil_append]
        omega
      · have hle := length_joined_cons_le (Rune.write cur.reverse) (fieldsFrom [] [] rs)
        simp only [List.reverse_singleton, List.singleton_append, Rune.write] at hle ⊢
        omega
    · have hstep := ih (r :: cur)
      simpa using hstep

/-- Nothing but white space is left out between words. -/
theorem length_joined_fields_le (s : Bytes) : (joined s.fields).length ≤ s.length := by
  have hle := length_joined_fieldsFrom_le [] (Rune.read s)
  rwa [List.reverse_nil, List.nil_append, Rune.write_read] at hle

theorem not_mem_joined {a : UInt8} (ha : a < 0x80)
    (hblank : (Rune.char (.ofNat a.toNat)).isBlank = true) (hspace : a ≠ 32) :
    ∀ (ws : List Bytes), (∀ w ∈ ws, Solid w) → a ∉ joined ws
  | [], _ => List.not_mem_nil
  | [w], h => by simpa [joined, join] using (h w List.mem_cons_self).not_mem ha hblank
  | w :: v :: ws, h => by
    rw [joined_cons_cons, List.mem_append, List.mem_cons]
    rintro (hmem | heq | hmem)
    · exact (h w List.mem_cons_self).not_mem ha hblank hmem
    · exact hspace heq
    · exact not_mem_joined ha hblank hspace (v :: ws)
        (fun u hu => h u (List.mem_cons_of_mem w hu)) hmem

/-- Words stay on one line. -/
theorem joined_oneLine {ws : List Bytes} (h : ∀ w ∈ ws, Solid w) :
    10 ∉ joined ws ∧ (joined ws).getLast? ≠ some 13 :=
  ⟨not_mem_joined (by decide) (by decide) (by decide) ws h, fun hlast =>
    not_mem_joined (by decide) (by decide) (by decide) ws h (List.mem_of_getLast? hlast)⟩

/-! ## Trimming -/

theorem dropWhile_isBlank {front : List Rune} {r : Rune} (hfront : ∀ q ∈ front, q.isBlank = true)
    (hr : r.isBlank = false) (back : List Rune) :
    (front ++ r :: back).dropWhile Rune.isBlank = r :: back := by
  rw [List.dropWhile_append_of_pos hfront, List.dropWhile_cons, hr, if_neg Bool.false_ne_true]

/-- Trimming leaves everything from the first character that is no white space
on, but for white space at the end. -/
theorem trim_eq {s : Bytes} {front back : List Rune} {r : Rune}
    (hread : Rune.read s = front ++ r :: back) (hfront : ∀ q ∈ front, q.isBlank = true)
    (hr : r.isBlank = false) : ∃ rest, trim s = r.bytes ++ rest := by
  -- What is dropped at the end does not reach the first character.
  obtain ⟨rs, hrs⟩ : ∃ rs, ((r :: back).reverse.dropWhile Rune.isBlank).reverse = r :: rs := by
    rw [List.reverse_cons, List.dropWhile_append]
    split
    · exact ⟨[], by simp [hr]⟩
    · exact ⟨_, by rw [List.reverse_append]; rfl⟩
  exact ⟨Rune.write rs, by
    rw [trim, hread, dropWhile_isBlank hfront hr, hrs, Rune.write_cons]⟩

theorem trim_eq_nil {s : Bytes} (h : ∀ r ∈ Rune.read s, r.isBlank = true) : trim s = [] := by
  have hdrop : (Rune.read s).dropWhile Rune.isBlank = [] := by
    rw [← List.append_nil (Rune.read s), List.dropWhile_append_of_pos h]
    rfl
  rw [trim, hdrop]
  rfl

theorem blank_or_first (rs : List Rune) : (∀ r ∈ rs, r.isBlank = true) ∨
    ∃ front r back, rs = front ++ r :: back ∧ (∀ q ∈ front, q.isBlank = true) ∧
      r.isBlank = false := by
  induction rs with
  | nil => exact .inl fun _ h => absurd h List.not_mem_nil
  | cons r rs ih =>
    cases hr : r.isBlank with
    | false => exact .inr ⟨[], r, rs, rfl, fun _ h => absurd h List.not_mem_nil, hr⟩
    | true =>
      rcases ih with hall | ⟨front, q, back, rfl, hfront, hq⟩
      · exact .inl (List.forall_mem_cons.2 ⟨hr, hall⟩)
      · exact .inr ⟨r :: front, q, back, rfl, List.forall_mem_cons.2 ⟨hr, hfront⟩, hq⟩

theorem trim_cons {a : UInt8} (ha : isGraphic a = true) (s : Bytes) :
    ∃ s', trim (a :: s) = a :: s' := by
  have hascii := isGraphic_ascii ha
  have hread : Rune.read (a :: s) = [] ++ .char (.ofNat a.toNat) :: Rune.read s :=
    read_cons_ascii hascii s
  obtain ⟨rest, hrest⟩ :=
    trim_eq hread (fun _ h => absurd h List.not_mem_nil) (isBlank_graphic a ha)
  exact ⟨rest, by rw [hrest, bytes_ascii hascii]; rfl⟩

end Bytes

end ScalarField
