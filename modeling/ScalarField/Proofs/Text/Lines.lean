/-
The lines of a text, one at a time: the first line and the lines of the rest
(`read_line`), or one line without a newline (`read_rest`).

From these, a text whose lines are all short enough is read to its end
(`read_eq_ofText`), a text of lines that each end in a newline is read back
(`read_flatMap_line`), and a newline at the end of a text changes nothing but
that an empty line may be seen there (`read_concat_newline`).
-/
import ScalarField.Text.Reading

namespace ScalarField

namespace Lines

/-- A line without a carriage return at its end. -/
def withoutReturn (l : Bytes) : Bytes := ofReversed l.reverse

/-- Lines after a first one. -/
def cons (l : Bytes) (ls : Lines) : Lines := ⟨l :: ls.lines, ls.tooLong⟩

variable {limit : Nat} {l s rest : Bytes}

theorem withoutReturn_of_last (h : l.getLast? ≠ some 13) : withoutReturn l = l := by
  unfold withoutReturn ofReversed
  split
  · rename_i front hrev
    rw [← List.head?_reverse, hrev] at h
    exact absurd rfl h
  · exact List.reverse_reverse l

theorem readFrom_done (cur : Bytes) (n : Nat) (done : List Bytes) (s : Bytes) :
    readFrom limit cur n done s =
      ⟨done.reverse ++ (readFrom limit cur n [] s).lines,
        (readFrom limit cur n [] s).tooLong⟩ := by
  induction s generalizing cur n done with
  | nil =>
    simp only [readFrom]
    split
    · simp
    · split <;> simp
  | cons b rest ih =>
    simp only [readFrom]
    split
    · split
      · simp
      · rw [ih [] 0 (ofReversed cur :: done), ih [] 0 [ofReversed cur]]
        simp
    · exact ih (b :: cur) (n + 1) done

theorem readFrom_append (cur : Bytes) (n : Nat) (done : List Bytes) (h : 10 ∉ l) (s : Bytes) :
    readFrom limit cur n done (l ++ s) =
      readFrom limit (l.reverse ++ cur) (n + l.length) done s := by
  induction l generalizing cur n with
  | nil => rfl
  | cons b l ih =>
    have hb : b ≠ 10 := fun hb => h (hb ▸ List.mem_cons_self)
    rw [List.cons_append, readFrom, if_neg hb, ih _ _ fun hmem => h (List.mem_cons_of_mem b hmem)]
    simp only [List.reverse_cons, List.append_assoc, List.singleton_append, List.length_cons]
    rw [Nat.add_right_comm, Nat.add_assoc]

theorem read_line (h : 10 ∉ l) (rest : Bytes) : read limit (l ++ 10 :: rest) =
    if limit ≤ l.length then ⟨[], true⟩ else cons (withoutReturn l) (read limit rest) := by
  unfold read
  rw [readFrom_append [] 0 [] h, List.append_nil, Nat.zero_add]
  simp only [readFrom, if_true]
  split
  · rfl
  · rw [readFrom_done]
    rfl

theorem read_rest (h : 10 ∉ l) : read limit l =
    if limit ≤ l.length then ⟨[], true⟩
    else if l = [] then ⟨[], false⟩ else ⟨[withoutReturn l], false⟩ := by
  have hread : read limit l = readFrom limit l.reverse l.length [] [] := by
    simpa [read] using readFrom_append [] 0 [] h []
  rw [hread]
  simp only [readFrom, List.length_eq_zero_iff]
  rfl

theorem read_nil (hlimit : 0 < limit) : read limit [] = ⟨[], false⟩ := by
  rw [read_rest List.not_mem_nil]
  exact (if_neg (Nat.not_le.2 hlimit)).trans (if_pos rfl)

/-- The lines of a text, whatever their length: what stands between newlines,
without a carriage return at its end, and what stands behind the last newline
unless it is empty. -/
def ofText (s : Bytes) : List Bytes :=
  let pieces := s.splitOn 10
  (if pieces.getLast? = some [] then pieces.dropLast else pieces).map withoutReturn

theorem ofText_line (h : 10 ∉ l) (rest : Bytes) :
    ofText (l ++ 10 :: rest) = withoutReturn l :: ofText rest := by
  obtain ⟨p, ps, hps⟩ := List.exists_cons_of_ne_nil (List.splitOn_ne_nil 10 rest)
  simp only [ofText, List.splitOn_append_cons_self_of_not_mem h, hps, List.getLast?_cons_cons]
  split <;> simp

theorem ofText_rest (h : 10 ∉ l) : ofText l = if l = [] then [] else [withoutReturn l] := by
  simp only [ofText, List.splitOn_eq_singleton h, List.getLast?_singleton, Option.some.injEq]
  split <;> simp

/-- A text is read to its end if no line is too long. -/
theorem read_eq_ofText (hlimit : ∀ piece ∈ s.splitOn 10, piece.length < limit) :
    read limit s = ⟨ofText s, false⟩ := by
  induction hn : s.length using Nat.strongRecOn generalizing s with
  | _ n ih =>
  subst hn
  by_cases hs : 10 ∈ s
  · obtain ⟨l, rest, rfl, hl⟩ := List.eq_append_cons_of_mem hs
    rw [List.splitOn_append_cons_self_of_not_mem hl, List.forall_mem_cons] at hlimit
    have hshort : rest.length < (l ++ 10 :: rest).length := by simp; omega
    rw [read_line hl, if_neg (Nat.not_le.2 hlimit.1), ih _ hshort hlimit.2 rfl, ofText_line hl]
    rfl
  · rw [List.splitOn_eq_singleton hs] at hlimit
    rw [read_rest hs, if_neg (Nat.not_le.2 (hlimit s List.mem_cons_self)), ofText_rest hs]
    split <;> rfl

theorem short_of_read (h : (read limit s).tooLong = false) :
    ∀ piece ∈ s.splitOn 10, piece.length < limit := by
  induction hn : s.length using Nat.strongRecOn generalizing s with
  | _ n ih =>
  subst hn
  by_cases hs : 10 ∈ s
  · obtain ⟨l, rest, rfl, hl⟩ := List.eq_append_cons_of_mem hs
    rw [read_line hl] at h
    rw [List.splitOn_append_cons_self_of_not_mem hl, List.forall_mem_cons]
    split at h
    · cases h
    · rename_i hlimit
      exact ⟨Nat.lt_of_not_le hlimit, ih _ (by simp; omega) h rfl⟩
  · rw [read_rest hs] at h
    rw [List.splitOn_eq_singleton hs, List.forall_mem_singleton]
    split at h
    · cases h
    · rename_i hlimit
      exact Nat.lt_of_not_le hlimit

theorem flatMap_line_cons (l : Bytes) (ls : List Bytes) :
    (l :: ls).flatMap Bytes.line = l ++ 10 :: ls.flatMap Bytes.line := by
  simp [Bytes.line, Bytes.ofChar]

theorem read_flatMap_line (ls : List Bytes)
    (h : ∀ l ∈ ls, 10 ∉ l ∧ l.getLast? ≠ some 13 ∧ l.length < limit) (hlimit : 0 < limit) :
    read limit (ls.flatMap Bytes.line) = ⟨ls, false⟩ := by
  induction ls with
  | nil => exact read_nil hlimit
  | cons l ls ih =>
    obtain ⟨hnewline, hreturn, hlength⟩ := h l List.mem_cons_self
    rw [flatMap_line_cons, read_line hnewline, if_neg (Nat.not_le.2 hlength),
      ih fun k hk => h k (List.mem_cons_of_mem l hk), withoutReturn_of_last hreturn]
    rfl

theorem read_flatMap_line_long (ls : List Bytes)
    (h : ∀ l ∈ ls, 10 ∉ l ∧ l.getLast? ≠ some 13 ∧ l.length < limit) (hl : 10 ∉ l)
    (hlong : limit ≤ l.length) (rest : List Bytes) :
    read limit ((ls ++ l :: rest).flatMap Bytes.line) = ⟨ls, true⟩ := by
  induction ls with
  | nil => rw [List.nil_append, flatMap_line_cons, read_line hl, if_pos hlong]
  | cons m ls ih =>
    obtain ⟨hnewline, hreturn, hlength⟩ := h m List.mem_cons_self
    rw [List.cons_append, flatMap_line_cons, read_line hnewline, if_neg (Nat.not_le.2 hlength),
      ih fun k hk => h k (List.mem_cons_of_mem m hk), withoutReturn_of_last hreturn]
    rfl

/-- A newline at the end of a text ends its last line, or is an empty line. -/
theorem read_concat_newline (s : Bytes) :
    read limit (s ++ [10]) = read limit s ∨
      (read limit s).tooLong = false ∧
        read limit (s ++ [10]) = ⟨(read limit s).lines ++ [[]], false⟩ := by
  induction hn : s.length using Nat.strongRecOn generalizing s with
  | _ n ih =>
  subst hn
  by_cases hs : 10 ∈ s
  · obtain ⟨l, rest, rfl, hl⟩ := List.eq_append_cons_of_mem hs
    rw [List.append_assoc, List.cons_append, read_line hl, read_line hl]
    split
    · exact .inl rfl
    · have hshort : rest.length < (l ++ 10 :: rest).length := by simp; omega
      rcases ih _ hshort rest rfl with heq | ⟨hend, heq⟩
      · exact .inl (by rw [heq])
      · exact .inr ⟨hend, by rw [heq]; rfl⟩
  · rw [read_line hs, read_rest hs]
    split
    · exact .inl rfl
    · rename_i hlimit
      rw [read_nil (by omega)]
      split
      · rename_i hempty
        subst hempty
        exact .inr ⟨rfl, rfl⟩
      · exact .inl rfl

end Lines

end ScalarField
