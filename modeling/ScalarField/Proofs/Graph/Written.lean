/-
The text of a node is one line for each node that it is computed from, in the
order of insertion (`Graph.write_eq`, `Graph.WellFormed.mem_written`).
-/
import ScalarField.Graph.Writer
import ScalarField.Proofs.Tape.OfGraph

namespace ScalarField

namespace Graph

variable {g : Graph} {root id : NodeId}

/-- What a node is computed from: itself, and the operands of everything that it
is computed from. -/
inductive Reaches (g : Graph) (root : NodeId) : NodeId → Prop where
  | root : g.Reaches root root
  | operand {id a : NodeId} {n : Node} (h : g.Reaches root id) (hn : g.nodes[id]? = some n)
      (ha : a ∈ n.args) : g.Reaches root a

theorem Reaches.le (hwf : g.WellFormed) (h : g.Reaches root id) : id ≤ root := by
  induction h with
  | root => exact Nat.le_refl root
  | operand _ hn ha ih => exact Nat.le_trans (Nat.le_of_lt (hwf.operand hn _ ha)) ih

/-- The sweep marks only what is an operand of something marked. -/
theorem sweep_sound {p : NodeId → Prop}
    (hp : ∀ {id : NodeId} {n : Node}, p id → g.nodes[id]? = some n → ∀ a ∈ n.args, p a) :
    ∀ (n : Nat) (live : Array Bool), (∀ j : Nat, live[j]? = some true → p j) →
      ∀ j : Nat, (g.sweep n live)[j]? = some true → p j
  | 0, _, h => h
  | n + 1, live, h => by
    unfold Graph.sweep
    split
    · rename_i hn
      have hlive : live[n]? = some true := by
        rcases hget : live[n]? with _ | _ | _ <;> simp_all
      refine sweep_sound hp n _ fun j hj => ?_
      rcases (mark_eq _ live).2 j |>.1 hj with ⟨hmem, -⟩ | hold
      · obtain ⟨m, hm, hj'⟩ : ∃ m, g.nodes[n]? = some m ∧ j ∈ m.args := by
          rcases hget : g.nodes[n]? with _ | m <;> simp_all
        exact hp (h n hlive) hm j hj'
      · exact h j hold
    · exact sweep_sound hp n live h

/-- The sweep marks what some root is computed from. -/
theorem WellFormed.reachable_roots_iff (hwf : g.WellFormed) {roots : List NodeId}
    (hroots : ∀ r ∈ roots, r < g.nodes.size) :
    (g.reachable roots)[id]? = some true ↔ ∃ r ∈ roots, g.Reaches r id := by
  obtain ⟨hself, hclosed⟩ := hwf.reachable hroots
  constructor
  · refine sweep_sound (p := fun j => ∃ r ∈ roots, g.Reaches r j) ?_ _ _ (fun j hj => ?_) id
    · rintro k n ⟨r, hr, h⟩ hn a ha
      exact ⟨r, hr, h.operand hn ha⟩
    rcases (mark_eq roots (Array.replicate g.nodes.size false)).2 j |>.1 hj with ⟨hmem, -⟩ | hold
    · exact ⟨j, hmem, .root⟩
    · simp [Array.getElem?_replicate] at hold
  · rintro ⟨r, hr, h⟩
    induction h with
    | root => exact hself r hr
    | operand _ hn ha ih => exact hclosed _ _ hn ih _ ha

theorem WellFormed.reachable_iff (hwf : g.WellFormed) (hroot : root < g.nodes.size) :
    (g.reachable [root])[id]? = some true ↔ g.Reaches root id := by
  have hroots : ∀ r ∈ [root], r < g.nodes.size := by simpa using hroot
  simpa using hwf.reachable_roots_iff hroots

/-- The nodes that a node is computed from, in ascending order. -/
def written (g : Graph) (root : NodeId) : List NodeId :=
  (List.range (root + 1)).filter fun id => ((g.reachable [root])[id]?).getD false

theorem WellFormed.mem_written (hwf : g.WellFormed) (hroot : root < g.nodes.size) :
    id ∈ g.written root ↔ g.Reaches root id := by
  rw [written, List.mem_filter, List.mem_range, ← hwf.reachable_iff hroot]
  constructor
  · rintro ⟨-, h⟩
    rcases hget : (g.reachable [root])[id]? with _ | _ | _ <;> simp_all
  · intro h
    have hle := ((hwf.reachable_iff hroot).1 h).le hwf
    exact ⟨Nat.lt_succ_of_le hle, by rw [h]; rfl⟩

theorem written_ascending (g : Graph) (root : NodeId) : (g.written root).Pairwise (· < ·) :=
  List.pairwise_lt_range.filter _

/-- The line that defines a node. -/
def lineOf (g : Graph) (id : NodeId) : Bytes :=
  Node.ref id ++ utf8 " " ++ ((g.nodes[id]?).map g.definition).getD []

theorem write_eq (hroot : root < g.nodes.size) :
    g.write root = .ok (((g.written root).map g.lineOf).flatMap Bytes.line) := by
  have hlines : ∀ n ≤ g.nodes.size, ((g.numbered.take n).flatMap fun p =>
      if ((g.reachable [root])[p.1]?).getD false then
        Bytes.line (Node.ref p.1 ++ utf8 " " ++ g.definition p.2) else []) =
      (((List.range n).filter fun id => ((g.reachable [root])[id]?).getD false).map
        g.lineOf).flatMap Bytes.line := by
    intro n
    induction n with
    | zero => simp
    | succ n ih =>
      intro hn
      have hget : g.numbered[n]? = some (n, g.nodes[n]) := by
        simp [numbered, List.getElem?_zipIdx]
      rw [List.take_add_one, hget, List.range_succ, List.flatMap_append, ih (by omega),
        List.filter_append, List.map_append, List.flatMap_append]
      simp only [Option.toList_some, List.flatMap_cons, List.flatMap_nil, List.append_nil,
        List.filter_cons, List.filter_nil, List.append_cancel_left_eq]
      split
      · simp [lineOf, Array.getElem?_eq_getElem (show n < g.nodes.size from hn)]
      · rfl
  unfold write
  rw [if_neg (Nat.not_le.2 hroot)]
  exact congrArg Except.ok (hlines (root + 1) hroot)

end Graph

end ScalarField
