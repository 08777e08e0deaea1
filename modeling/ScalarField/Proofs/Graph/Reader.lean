/-
What it takes to read a graph from a text (`read_eq_ok`), line after line
(`Reader.lines_append`).
-/
import ScalarField.Graph.Reader
import ScalarField.Proofs.Text.Lines

namespace ScalarField

namespace Reader

theorem lines_append (ls ms : List Bytes) (r : Reader) (n : Nat) :
    r.lines n (ls ++ ms) =
      match r.lines n ls with
      | .error e => .error e
      | .ok r' => r'.lines (n + ls.length) ms := by
  induction ls generalizing r n with
  | nil => rfl
  | cons l ls ih =>
    simp only [List.cons_append, lines]
    cases r.line l with
    | error e => rfl
    | ok r' =>
      simp only [ih, List.length_cons]
      rw [Nat.add_right_comm, Nat.add_assoc]

/-- A line that is passed over changes nothing at the end. -/
theorem lines_concat_skipped {l : Bytes} (hl : isSkipped l = true) {ls : List Bytes} {r r' : Reader}
    {n : Nat} (h : r.lines n ls = .ok r') : r.lines n (ls ++ [l]) = .ok r' := by
  simp [lines_append, h, lines, line, hl]

end Reader

namespace Graph

/-- A text is read if every line is and one of them defines something. -/
theorem read_eq_ok {s : Bytes} {g : Graph} {root : NodeId} : read s = .ok (g, root) ↔
    (Lines.read lineLimit s).tooLong = false ∧
      ∃ r, Reader.start.lines 0 (Lines.read lineLimit s).lines = .ok r ∧ r.last = some root ∧
        r.graph.output root = .ok g := by
  unfold read
  generalize Lines.read lineLimit s = ls
  obtain ⟨lines, tooLong⟩ := ls
  dsimp only
  cases hlines : Reader.start.lines 0 lines with
  | error e => simp
  | ok r =>
    cases tooLong with
    | true => simp
    | false =>
      cases hlast : r.last with
      | none => simp [hlast]
      | some id =>
        cases houtput : r.graph.output id with
        | error e => simp +contextual [hlast, eq_comm, houtput]
        | ok g' =>
          simp only [Bool.false_eq_true, if_false, houtput, Except.ok.injEq, Prod.mk.injEq,
            true_and, exists_eq_left', hlast, Option.some.injEq]
          constructor
          · rintro ⟨rfl, rfl⟩
            exact ⟨rfl, houtput⟩
          · rintro ⟨rfl, hg⟩
            exact ⟨Except.ok.inj (houtput.symm.trans hg), rfl⟩

theorem read_concat_newline {s : Bytes} {g : Graph} {root : NodeId} (h : read s = .ok (g, root)) :
    read (s ++ [10]) = .ok (g, root) := by
  obtain ⟨hlimit, r, hlines, hlast, houtput⟩ := read_eq_ok.1 h
  refine read_eq_ok.2 ?_
  rcases Lines.read_concat_newline s with heq | ⟨-, heq⟩
  · rw [heq]
    exact ⟨hlimit, r, hlines, hlast, houtput⟩
  · rw [heq]
    exact ⟨rfl, r, Reader.lines_concat_skipped rfl hlines, hlast, houtput⟩

end Graph

end ScalarField
