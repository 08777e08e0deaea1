/-
The tape of a graph reduces the tape of all its nodes
(`Graph.WellFormed.build_ordered`): each instruction is that of a node, with
the slots of its operands for operands, and the outputs are the slots of the
nodes asked for. A graph never holds more nodes than a tape can number.

Operands come before the nodes that use them, so one sweep downwards marks
everything that a marked node needs (`Graph.sweep_closed`), and one pass
upwards finds the slots of the operands filled in (`Tape.Layout.Follows`).
-/
import ScalarField.Proofs.Graph.Interning
import ScalarField.Proofs.Tape.Rewrite
import ScalarField.Tape.OfGraph

namespace ScalarField

theorem Node.toInstr_args (n : Node) : n.toInstr.args = n.args := by
  have hop := n.toInstr_op?
  cases n with
  | input v => exact Instr.args_leaf (.inl hop)
  | const c => exact Instr.args_leaf (.inr hop)
  | unary u a => exact Instr.args_unary hop
  | binary o a b => exact Instr.args_binary hop

namespace Graph

variable {g : Graph} {outputs : List NodeId}

/-- All nodes of a graph, as a tape. -/
def toTape (g : Graph) (outputs : List NodeId) : Tape where
  instrs := g.nodes.map Node.toInstr
  outputs := outputs.toArray
  vars := g.vars

theorem toTape_instr {k : Nat} {i : Instr} :
    (g.toTape outputs).instrs[k]? = some i ↔ ∃ n, g.nodes[k]? = some n ∧ n.toInstr = i := by
  rw [toTape, Array.getElem?_map, Option.map_eq_some_iff]

theorem toTape_size : (g.toTape outputs).size = g.nodes.size := by simp [Tape.size, toTape]

theorem WellFormed.toTape (hwf : g.WellFormed) (hlt : ∀ o ∈ outputs, o < g.nodes.size) :
    (g.toTape outputs).WellFormed := by
  refine ⟨fun {k i} hi => ?_, fun o ho => ?_⟩
  · obtain ⟨n, hn, rfl⟩ := toTape_instr.1 hi
    refine ⟨⟨_, n.toInstr_op?⟩, fun hin => ?_, ?_⟩
    · have hop : n.op = .input := Option.some.inj (n.toInstr_op?.symm.trans hin)
      cases n with
      | input v => exact ⟨Int.natCast_nonneg v, Int.ofNat_lt.2 (hwf.input hn)⟩
      | _ => simp [Node.op] at hop
    · rw [n.toInstr_args]
      exact hwf.operand hn
  · rw [toTape_size]
    exact hlt o (by simpa [Graph.toTape] using ho)

/-! ## What is needed -/

theorem mark_eq : ∀ (xs : List Nat) (live : Array Bool),
    (xs.foldl (fun live a => live.setIfInBounds a true) live).size = live.size ∧
      ∀ j : Nat, (xs.foldl (fun live a => live.setIfInBounds a true) live)[j]? = some true ↔
        j ∈ xs ∧ j < live.size ∨ live[j]? = some true
  | [], live => by simp
  | x :: xs, live => by
    obtain ⟨hsize, hmem⟩ := mark_eq xs (live.setIfInBounds x true)
    rw [List.foldl_cons]
    refine ⟨by rw [hsize, Array.size_setIfInBounds], fun j => ?_⟩
    rw [hmem, Array.size_setIfInBounds, Array.getElem?_setIfInBounds, List.mem_cons]
    by_cases hx : x = j
    · subst hx
      by_cases hlt : x < live.size <;> simp [hlt]
    · simp [hx, Ne.symm hx]

/-- The sweep keeps what is marked, marks nothing from its position on, and
leaves the operands of everything marked below it marked. -/
theorem sweep_closed (hwf : g.WellFormed) : ∀ (n : Nat) (live : Array Bool),
    n ≤ g.nodes.size → live.size = g.nodes.size →
      (g.sweep n live).size = live.size ∧
      (∀ j : Nat, live[j]? = some true → (g.sweep n live)[j]? = some true) ∧
      (∀ j : Nat, n ≤ j → (g.sweep n live)[j]? = some true → live[j]? = some true) ∧
      ∀ (k : Nat) (m : Node), k < n → g.nodes[k]? = some m → (g.sweep n live)[k]? = some true →
        ∀ a ∈ m.args, (g.sweep n live)[a]? = some true
  | 0, live, _, _ => ⟨rfl, fun _ h => h, fun _ _ h => h, by simp⟩
  | n + 1, live, hn, hsize => by
    obtain ⟨m, hm⟩ : ∃ m, g.nodes[n]? = some m := ⟨_, Array.getElem?_eq_getElem hn⟩
    by_cases hlive : live[n]? = some true
    · -- The operands of `n` lie below it, so that marking them changes nothing above.
      have hmark := mark_eq m.args live
      obtain ⟨hsize', hkeep, habove, hclosed⟩ := sweep_closed hwf n
        (m.args.foldl (fun live a => live.setIfInBounds a true) live) (by omega)
        (hmark.1.trans hsize)
      simp only [Graph.sweep, hlive, hm, Option.getD_some, Option.map_some, if_true]
      refine ⟨hsize'.trans hmark.1, fun j h => hkeep j ((hmark.2 j).2 (.inr h)),
        fun j hj h => ?_, fun k m' hk hm' hk' => ?_⟩
      · rcases (hmark.2 j).1 (habove j (by omega) h) with ⟨hmem, -⟩ | hold
        · exact absurd (hwf.operand hm j hmem) (Nat.not_lt.2 (Nat.le_of_succ_le hj))
        · exact hold
      · rcases Nat.lt_succ_iff_lt_or_eq.1 hk with hlt | rfl
        · exact hclosed k m' hlt hm' hk'
        · obtain rfl : m = m' := by simpa [hm] using hm'
          intro a ha
          have hlt : a < live.size := Nat.lt_trans (hwf.operand hm a ha) (hsize ▸ hn)
          exact hkeep a ((hmark.2 a).2 (.inl ⟨ha, hlt⟩))
    · obtain ⟨hsize', hkeep, habove, hclosed⟩ := sweep_closed hwf n live (by omega) hsize
      have hnot : ¬(live[n]?).getD false = true := by
        rcases h : live[n]? with _ | _ | _ <;> simp_all
      simp only [Graph.sweep, if_neg hnot]
      refine ⟨hsize', hkeep, fun j hj => habove j (by omega), fun k m' hk hm' hk' => ?_⟩
      rcases Nat.lt_succ_iff_lt_or_eq.1 hk with hlt | rfl
      · exact hclosed k m' hlt hm' hk'
      · exact absurd (habove k (Nat.le_refl k) hk') hlive

/-- What some root is computed from: the roots, and the operands of everything
in it. -/
theorem WellFormed.reachable (hwf : g.WellFormed) {roots : List NodeId}
    (hroots : ∀ r ∈ roots, r < g.nodes.size) :
    (∀ r ∈ roots, (g.reachable roots)[r]? = some true) ∧
      ∀ (k : Nat) (m : Node), g.nodes[k]? = some m → (g.reachable roots)[k]? = some true →
        ∀ a ∈ m.args, (g.reachable roots)[a]? = some true := by
  have hmark := mark_eq roots (Array.replicate g.nodes.size false)
  obtain ⟨-, hkeep, -, hclosed⟩ := sweep_closed hwf g.nodes.size _ (Nat.le_refl _)
    (hmark.1.trans Array.size_replicate)
  refine ⟨fun r hr => hkeep r ((hmark.2 r).2 (.inl ⟨hr, ?_⟩)), fun k m hm => ?_⟩
  · rw [Array.size_replicate]
    exact hroots r hr
  · exact hclosed k m (Array.getElem?_eq_some_iff.1 hm).1 hm

theorem size_reachable (hwf : g.WellFormed) (roots : List NodeId) :
    (g.reachable roots).size = g.nodes.size := by
  have hmark := (mark_eq roots (Array.replicate g.nodes.size false)).1.trans Array.size_replicate
  exact (sweep_closed hwf g.nodes.size _ (Nat.le_refl _) hmark).1.trans hmark

end Graph

/-! ## Laying out -/

namespace Tape

namespace Layout

theorem instrOf_eq (l : Layout) (n : Node) :
    l.instrOf n = Forwarding.withArgs n.toInstr (n.args.map fun a => l.slots[a]?.getD 0) := by
  cases n <;> rfl

/-- The nodes below `n` that are needed have been placed: `src` tells the node
of each slot. -/
structure Follows (g : Graph) (live : Array Bool) (l : Layout) (n : Nat) (src : List Nat) :
    Prop where
  slots_size : l.slots.size = g.nodes.size
  size_le : l.instrs.size ≤ n
  length : src.length = l.instrs.size
  sorted : src.Pairwise (· < ·)
  needed : ∀ j ∈ src, live[j]? = some true
  slot : ∀ j < n, live[j]? = some true → ∃ m, l.slots[j]? = some m ∧ src[m]? = some j
  instr : ∀ {m j : Nat}, src[m]? = some j → j < n ∧ ∃ node args, g.nodes[j]? = some node ∧
    l.instrs[m]? = some (Forwarding.withArgs node.toInstr args) ∧
      List.Forall₂ (fun a b => b < m ∧ src[b]? = some a) node.args args

variable {g : Graph} {live : Array Bool} {l : Layout} {n : Nat} {src : List Nat} {node : Node}

theorem Follows.skip (h : l.Follows g live n src) (hn : live[n]? ≠ some true) :
    l.Follows g live (n + 1) src := by
  refine ⟨h.slots_size, Nat.le_succ_of_le h.size_le, h.length, h.sorted, h.needed,
    fun j hj hlive => ?_, fun hm => ?_⟩
  · rcases Nat.lt_succ_iff_lt_or_eq.1 hj with hlt | rfl
    · exact h.slot j hlt hlive
    · exact absurd hlive hn
  · obtain ⟨hlt, rest⟩ := h.instr hm
    exact ⟨by omega, rest⟩

theorem Follows.keep (h : l.Follows g live n src) (hnode : g.nodes[n]? = some node)
    (hlive : live[n]? = some true) (hneed : ∀ a ∈ node.args, a < n ∧ live[a]? = some true) :
    (l.place n node).Follows g live (n + 1) (src ++ [n]) := by
  have hn : n < g.nodes.size := (Array.getElem?_eq_some_iff.1 hnode).1
  have hgrow : ∀ {m j : Nat}, src[m]? = some j → m < src.length ∧ (src ++ [n])[m]? = some j :=
    fun hm => by
      have hlt := (List.getElem?_eq_some_iff.1 hm).1
      exact ⟨hlt, by rw [List.getElem?_append_left hlt, hm]⟩
  have hself : (l.slots.setIfInBounds n l.instrs.size)[n]? = some l.instrs.size :=
    Array.getElem?_setIfInBounds_self_of_lt (by rw [h.slots_size]; exact hn)
  have hsorted : (src ++ [n]).Pairwise (· < ·) := by
    refine List.pairwise_append.2 ⟨h.sorted, List.pairwise_singleton _ _, fun a ha b hb => ?_⟩
    obtain ⟨m, hm⟩ := List.mem_iff_getElem?.1 ha
    rw [List.mem_singleton.1 hb]
    exact (h.instr hm).1
  have hlives : ∀ j ∈ src ++ [n], live[j]? = some true := by
    intro j hj
    rcases List.mem_append.1 hj with hj | hj
    · exact h.needed j hj
    · rw [List.mem_singleton.1 hj]
      exact hlive
  refine ⟨by simp [place, h.slots_size], by simpa [place] using h.size_le,
    by simp [place, h.length], hsorted, hlives, fun j hj hlive => ?_, ?_⟩
  · rcases Nat.lt_succ_iff_lt_or_eq.1 hj with hlt | rfl
    · obtain ⟨m, hm, hsrc⟩ := h.slot j hlt hlive
      exact ⟨m, by rw [place, Array.getElem?_setIfInBounds_ne (by omega), hm], (hgrow hsrc).2⟩
    · exact ⟨_, hself, by rw [← h.length]; simp⟩
  · intro m j hm
    by_cases hlt : m < src.length
    · rw [List.getElem?_append_left hlt] at hm
      obtain ⟨hj, node', args, h1, h2, h3⟩ := h.instr hm
      refine ⟨by omega, node', args, h1, ?_, h3.imp fun a b hab => ⟨hab.1, (hgrow hab.2).2⟩⟩
      rw [h.length] at hlt
      rw [place, Array.getElem?_push_lt hlt, ← h2, Array.getElem?_eq_getElem hlt]
    · have hlast : m = src.length := by
        have := (List.getElem?_eq_some_iff.1 hm).1
        simp at this
        omega
      obtain rfl : n = j := by simpa [hlast] using hm
      refine ⟨by omega, node, _, hnode, by rw [hlast, h.length, ← l.instrOf_eq]; simp [place], ?_⟩
      rw [List.forall₂_map_right_iff, List.forall₂_same]
      intro a ha
      obtain ⟨hlt', hlive⟩ := hneed a ha
      obtain ⟨k, hk, hsrc⟩ := h.slot a hlt' hlive
      rw [hk, Option.getD_some, hlast]
      exact hgrow hsrc

/-- Placing the rest of the nodes, of which there is never one too many. -/
theorem Follows.placeAll (hroom : g.nodes.size ≤ capacity)
    (hneed : ∀ {k : Nat} {node : Node}, g.nodes[k]? = some node → live[k]? = some true →
      ∀ a ∈ node.args, a < k ∧ live[a]? = some true) :
    ∀ {nodes : List Node} {l : Layout} {n : Nat} {src : List Nat}, l.Follows g live n src →
      n ≤ g.nodes.size → g.nodes.toList.drop n = nodes →
      ∃ l' src', Layout.placeAll live l n nodes = .ok l' ∧ l'.Follows g live g.nodes.size src'
  | [], l, n, src, h, hn, hd => by
    obtain rfl : n = g.nodes.size := Nat.le_antisymm hn (by simpa using hd)
    exact ⟨l, src, rfl, h⟩
  | node :: rest, l, n, src, h, hn, hd => by
    obtain ⟨hnode, hd'⟩ := of_drop_eq_cons hd
    have hlt : n < g.nodes.size := (Array.getElem?_eq_some_iff.1 hnode).1
    by_cases hlive : live[n]? = some true
    · have hnext := h.keep hnode hlive (hneed hnode hlive)
      obtain ⟨l', src', hl', hdone⟩ := hnext.placeAll hroom hneed hlt hd'
      have hfull : l.instrs.size ≠ capacity := by
        have := h.size_le
        omega
      refine ⟨l', src', ?_, hdone⟩
      simpa only [Layout.placeAll, hlive, Option.getD_some, if_true, if_neg hfull] using hl'
    · have hnot : (live[n]?).getD false = false := by
        rcases hc : live[n]? with _ | _ | _ <;> simp_all
      obtain ⟨l', src', hl', hdone⟩ := (h.skip hlive).placeAll hroom hneed hlt hd'
      refine ⟨l', src', ?_, hdone⟩
      simpa only [Layout.placeAll, hnot, Bool.false_eq_true, if_false] using hl'

end Layout

namespace Forwarding

/-- Nothing is forwarded. -/
def still (n : Nat) : Forwarding := ⟨Array.range n, #[]⟩

theorem still_forward {n a b : Nat} : (still n).forward[a]? = some b ↔ a < n ∧ b = a := by
  rw [still, Array.getElem?_eq_some_iff]
  constructor
  · rintro ⟨h, rfl⟩
    exact ⟨by simpa using h, by simp⟩
  · rintro ⟨h, rfl⟩
    exact ⟨by simpa using h, by simp⟩

end Forwarding

end Tape

/-- The tape that computes some nodes of a graph exists, and reduces the tape
of all nodes to those that are needed, in the order of insertion. -/
theorem Graph.WellFormed.build_ordered {g : Graph} (hwf : g.WellFormed) {outputs : List NodeId}
    (hne : outputs ≠ []) (hlt : ∀ o ∈ outputs, o < g.nodes.size) :
    ∃ t src, Tape.build g outputs = .ok t ∧
      Tape.Forwarding.Reduces (g.toTape outputs) (.still g.nodes.size) t src ∧
      src.Pairwise (· < ·) ∧ ∀ j : Nat, j ∈ src ↔ (g.reachable outputs)[j]? = some true := by
  obtain ⟨hroots, hclosed⟩ := hwf.reachable hlt
  have hstart : Tape.Layout.Follows g (g.reachable outputs) ⟨Array.replicate g.nodes.size 0, #[]⟩ 0
      [] := ⟨by simp, by simp, rfl, .nil, by simp, by simp, by simp⟩
  obtain ⟨l, src, hl, h⟩ := hstart.placeAll hwf.size_le (fun {k node} hk hlive a ha =>
    ⟨hwf.operand hk a ha, hclosed k node hk hlive a ha⟩) (Nat.zero_le _) rfl
  rw [List.drop_zero] at hl
  have hfind : outputs.find? (g.nodes.size ≤ ·) = none := by
    simpa only [List.find?_eq_none, decide_eq_true_eq, Nat.not_le] using hlt
  have hempty : outputs.isEmpty = false := by simpa using hne
  refine ⟨⟨l.instrs, (outputs.map fun o => l.slots[o]?.getD 0).toArray, g.vars⟩, src,
    by simp only [Tape.build, hempty, Bool.false_eq_true, if_false, hfind, hl],
    ⟨rfl, h.length, fun {m j} hm => ?_, ?_⟩, h.sorted, fun j => ⟨h.needed j, fun hj => ?_⟩⟩
  · obtain ⟨hj, node, args, hnode, hinstr, hall⟩ := h.instr hm
    refine ⟨by rw [Graph.toTape_size]; exact hj, node.toInstr, args,
      Graph.toTape_instr.2 ⟨node, hnode, rfl⟩, hinstr, ?_⟩
    rw [node.toInstr_args]
    refine ((List.forall₂_and_left _ _).2 ⟨hwf.operand hnode, hall⟩).imp fun a b ⟨ha, hb⟩ => ?_
    exact ⟨a, Tape.Forwarding.still_forward.2 ⟨Nat.lt_trans ha hj, rfl⟩, hb⟩
  · simp only [Graph.toTape]
    rw [List.forall₂_map_right_iff, List.forall₂_same]
    intro o ho
    obtain ⟨m, hm, hsrc⟩ := h.slot o (hlt o ho) (hroots o ho)
    refine ⟨o, Tape.Forwarding.still_forward.2 ⟨hlt o ho, rfl⟩, ?_⟩
    rw [hm, Option.getD_some, hsrc]
  · have hjn : j < g.nodes.size := by
      rw [← Graph.size_reachable hwf outputs]
      exact (Array.getElem?_eq_some_iff.1 hj).1
    obtain ⟨m, -, hm⟩ := h.slot j hjn hj
    exact List.mem_of_getElem? hm

theorem Graph.WellFormed.build_reduces {g : Graph} (hwf : g.WellFormed) {outputs : List NodeId}
    (hne : outputs ≠ []) (hlt : ∀ o ∈ outputs, o < g.nodes.size) :
    ∃ t src, Tape.build g outputs = .ok t ∧
      Tape.Forwarding.Reduces (g.toTape outputs) (.still g.nodes.size) t src := by
  obtain ⟨t, src, ht, hred, -⟩ := hwf.build_ordered hne hlt
  exact ⟨t, src, ht, hred⟩

end ScalarField
