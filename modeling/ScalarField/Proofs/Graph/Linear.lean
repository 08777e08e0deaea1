/-
The tape of a graph is exactly what its outputs are computed from, node by node
in the order of insertion (`History.build_linearises`).

The nodes that are placed are those that one sweep marks, which are the ones on
a path of operands from an output. A value worked out over the graph, operands
first, is the value in the tape of all nodes, and leaving out what is not needed
does not change it. Nodes that are inserted later are on no such path.
-/
import Mathlib.Data.List.Sort
import ScalarField.Proofs.Graph.Evaluation
import ScalarField.Proofs.Graph.Representation
import ScalarField.Proofs.Graph.Written
import ScalarField.Proofs.Tape.Obtained
import ScalarField.Proofs.Tape.Restriction

namespace ScalarField

namespace Graph

variable {α : Type} {I : Interp α} {g g' : Graph} {inputs values : Array α}
  {outputs : List NodeId} {root id : NodeId}

/-! ## Values -/

/-- The value of a node, worked out from the values of its operands. -/
def evaluate (g : Graph) (I : Interp α) (inputs : Array α) (id : NodeId) : Option α :=
  (g.nodes[id]?).bind
    (valueAt I inputs fun a => if a < id then g.evaluate I inputs a else none)
termination_by id

theorem valueAt_congr {read read' : NodeId → Option α} {n : Node}
    (h : ∀ a ∈ n.args, read a = read' a) :
    valueAt I inputs read n = valueAt I inputs read' n := by
  cases n with
  | input v => rfl
  | const c => rfl
  | unary u a => rw [valueAt, valueAt, h a (by simp [Node.args])]
  | binary o a b =>
    rw [valueAt, valueAt, h a (by simp [Node.args]), h b (by simp [Node.args])]

/-- In the tape of all nodes, a slot holds what its node evaluates to: by
induction on nodes, whose operands come before. -/
theorem WellFormed.evaluate_eq (hwf : g.WellFormed)
    (hv : (g.toTape outputs).Means I inputs values) (id : NodeId) :
    g.evaluate I inputs id = values[id]? := by
  induction id using Nat.strongRecOn with
  | _ id ih =>
    rw [evaluate]
    rcases hn : g.nodes[id]? with _ | n
    · have hle : g.nodes.size ≤ id := by simpa using hn
      rw [Option.bind_none, Array.getElem?_eq_none (by rwa [hv.size, toTape_size])]
    · rw [Option.bind_some, toTape_value hv hn]
      refine valueAt_congr fun a ha => ?_
      have hlt := hwf.operand hn a ha
      rw [if_pos hlt, ih a hlt]

/-! ## Later nodes -/

/-- Nodes that are added later are not reached. -/
theorem Extends.reaches_iff (h : g.Extends g') (hwf : g'.WellFormed)
    (hroot : root < g.nodes.size) : g'.Reaches root id ↔ g.Reaches root id := by
  constructor
  · intro hreach
    induction hreach with
    | root => exact .root
    | @operand k a n hk hn ha ih =>
      have hlt : k < g.nodes.size := Nat.lt_of_le_of_lt (hk.le hwf) hroot
      have hold := Array.getElem?_eq_getElem hlt
      have hsame := Option.some.inj ((h.node hold).symm.trans hn)
      exact ih.operand hold (hsame ▸ ha)
  · intro hreach
    induction hreach with
    | root => exact .root
    | operand _ hn ha ih => exact ih.operand (h.node hn) ha

/-- The tape of all nodes, cut down to nodes that are there already, has the
instructions it had. -/
theorem Extends.restrict_instrs (h : g.Extends g') {src : List NodeId}
    (hsrc : ∀ j ∈ src, j < g.nodes.size) :
    ((g'.toTape outputs).restrict src).instrs = ((g.toTape outputs).restrict src).instrs := by
  refine congrArg List.toArray (List.filterMap_congr fun j hj => congrArg (Option.map _) ?_)
  have hold := Array.getElem?_eq_getElem (hsrc j hj)
  rw [toTape_instr.2 ⟨_, h.node hold, rfl⟩, toTape_instr.2 ⟨_, hold, rfl⟩]

/-! ## The tape -/

/-- The tape has one instruction for each node that an output is computed from,
in the order of insertion, with the places of nodes for operands and outputs; it
gives the values of the outputs in every mode. -/
structure Linearises (g : Graph) (outputs : List NodeId) (t : Tape) : Prop where
  valid : t.validate = .ok ()
  nodes : ∃ src : List NodeId, src.Pairwise (· < ·) ∧
    (∀ id, id ∈ src ↔ ∃ o ∈ outputs, g.Reaches o id) ∧ t = (g.toTape outputs).restrict src
  values : ∀ {α : Type} (I : Interp α) (inputs : Array α), inputs.size = g.vars.size →
    ∃ out, t.eval I inputs = .ok out ∧
      List.Forall₂ (fun o v => g.evaluate I inputs o = some v) outputs out

theorem still_idle (n : Nat) : (Tape.Forwarding.still n).Idle :=
  fun _ _ h => (Tape.Forwarding.still_forward.1 h).2

theorem WellFormed.build_eq (hwf : g.WellFormed) (hne : outputs ≠ [])
    (hlt : ∀ o ∈ outputs, o < g.nodes.size) :
    ∃ t, Tape.build g outputs = .ok t ∧ g.Linearises outputs t := by
  obtain ⟨t, src, ht, hred, hsorted, hmem⟩ := hwf.build_ordered hne hlt
  have hidle := still_idle g.nodes.size
  have htwf := hwf.toTape hlt
  refine ⟨t, ht, (Tape.build_regular hwf ht).valid, ⟨src, hsorted, fun id => ?_, ?_⟩, ?_⟩
  · rw [hmem id, hwf.reachable_roots_iff hlt]
  · exact hred.eq_restrict hidle (hsorted.imp Nat.ne_of_lt)
  · intro α I inputs hin
    obtain ⟨out, hout, hall, -⟩ := htwf.eval_eq (I := I) hin
    refine ⟨out, ?_, hall.imp fun o v hov => ?_⟩
    · rw [hred.eval_eq htwf hin fun a b hab => by rw [hidle a b hab], hout]
    · rw [hwf.evaluate_eq (htwf.means hin), hov]

/-- A tape keeps its instructions and outputs when the graph grows. -/
theorem Extends.build_unchanged (h : g.Extends g') (hwf : g.WellFormed) (hwf' : g'.WellFormed)
    (hne : outputs ≠ []) (hlt : ∀ o ∈ outputs, o < g.nodes.size) {t : Tape}
    (ht : g.Linearises outputs t) :
    ∃ t', Tape.build g' outputs = .ok t' ∧ t'.instrs = t.instrs ∧ t'.outputs = t.outputs := by
  have hsize : g.nodes.size ≤ g'.nodes.size := by simpa using h.nodes.length_le
  obtain ⟨t', ht', hlin'⟩ :=
    hwf'.build_eq hne fun o ho => Nat.lt_of_lt_of_le (hlt o ho) hsize
  obtain ⟨src, hsorted, hmem, rfl⟩ := ht.nodes
  obtain ⟨src', hsorted', hmem', rfl⟩ := hlin'.nodes
  -- The same nodes are reached, so the lists are the same.
  obtain rfl : src' = src := by
    refine hsorted'.eq_of_mem_iff hsorted fun j => ?_
    rw [hmem, hmem']
    exact exists_congr fun o => and_congr_right fun ho => h.reaches_iff hwf' (hlt o ho)
  refine ⟨_, ht', h.restrict_instrs fun j hj => ?_, rfl⟩
  obtain ⟨o, ho, hreach⟩ := (hmem j).1 hj
  exact Nat.lt_of_le_of_lt (hreach.le hwf) (hlt o ho)

end Graph

/-! ## Failures -/

namespace Tape

theorem build_nil (g : Graph) : build g [] = .error .noOutputs := rfl

theorem build_of_absent {g : Graph} {before after : List NodeId} {o : NodeId}
    (hbefore : ∀ p ∈ before, p < g.nodes.size) (ho : g.nodes.size ≤ o) :
    build g (before ++ o :: after) = .error (.absentOutput o g.nodes.size) := by
  have hfind : (before ++ o :: after).find? (g.nodes.size ≤ ·) = some o := by
    rw [List.find?_eq_some_iff_append]
    exact ⟨by simpa using ho, before, after, rfl, by simpa using hbefore⟩
  have hempty : (before ++ o :: after).isEmpty = false := by simp
  simp only [build, hempty, Bool.false_eq_true, if_false, hfind]

theorem build_of_mem {g : Graph} {outputs : List NodeId} {o : NodeId} (ho : o ∈ outputs)
    (hle : g.nodes.size ≤ o) : ∃ e, build g outputs = .error e := by
  rcases hb : build g outputs with e | t
  · exact ⟨e, rfl⟩
  · exact absurd ((size_build_le hb).2.1 o ho) (Nat.not_lt.2 hle)

end Tape

namespace History

/-- **A tape is the part of the graph that its outputs are computed from.** After
any calls to a new graph, there is no tape for an empty list of outputs nor for a
list with a number that is no node, the first of which is reported. For any other
list there is one, and it is what the outputs are computed from, each node once
and in the order of insertion, giving their values in every mode. Later calls do
not change its instructions and outputs. -/
theorem build_linearises (hash : Node → Hashcode) (cs : List GraphCall) (outputs : List NodeId) :
    ((∃ e, Tape.build ((start hash).calls cs).graph outputs = .error e) ↔
      outputs = [] ∨ ∃ o ∈ outputs, ((start hash).calls cs).graph.nodes.size ≤ o) ∧
    (outputs = [] → Tape.build ((start hash).calls cs).graph outputs = .error .noOutputs) ∧
    (∀ before o after, outputs = before ++ o :: after →
      (∀ p ∈ before, p < ((start hash).calls cs).graph.nodes.size) →
      ((start hash).calls cs).graph.nodes.size ≤ o →
      Tape.build ((start hash).calls cs).graph outputs =
        .error (.absentOutput o ((start hash).calls cs).graph.nodes.size)) ∧
    (outputs ≠ [] → (∀ o ∈ outputs, o < ((start hash).calls cs).graph.nodes.size) →
      ∃ t, Tape.build ((start hash).calls cs).graph outputs = .ok t ∧
        ((start hash).calls cs).graph.Linearises outputs t ∧
        ∀ ds, ∃ t', Tape.build ((start hash).calls (cs ++ ds)).graph outputs = .ok t' ∧
          t'.instrs = t.instrs ∧ t'.outputs = t.outputs) := by
  have hsound : ((start hash).calls cs).Sound := Sound.calls cs (sound_start hash)
  simp only [calls_append]
  generalize (start hash).calls cs = H at hsound ⊢
  have hok : outputs ≠ [] → (∀ o ∈ outputs, o < H.graph.nodes.size) →
      ∃ t, Tape.build H.graph outputs = .ok t ∧ H.graph.Linearises outputs t ∧
        ∀ ds, ∃ t', Tape.build (H.calls ds).graph outputs = .ok t' ∧
          t'.instrs = t.instrs ∧ t'.outputs = t.outputs := by
    intro hne hlt
    obtain ⟨t, ht, hlin⟩ := hsound.graph.build_eq hne hlt
    refine ⟨t, ht, hlin, fun ds => ?_⟩
    have hlater : (H.calls ds).Sound := Sound.calls ds hsound
    exact (hsound.extends_calls ds).build_unchanged hsound.graph hlater.graph hne hlt hlin
  refine ⟨⟨?_, ?_⟩, ?_, ?_, hok⟩
  · intro ⟨e, he⟩
    by_contra hnot
    push Not at hnot
    obtain ⟨t, ht, -⟩ := hok hnot.1 hnot.2
    rw [ht] at he
    cases he
  · rintro (hnil | ⟨o, ho, hle⟩)
    · exact ⟨_, hnil ▸ Tape.build_nil H.graph⟩
    · exact Tape.build_of_mem ho hle
  · intro hnil
    exact hnil ▸ Tape.build_nil H.graph
  · intro before o after hsplit hbefore ho
    exact hsplit ▸ Tape.build_of_absent hbefore ho

/-- The two differences, one of them twice, and a list with two numbers that are
no nodes. -/
theorem build_linearises_sharedSums :
    (∃ t, Tape.build sharedSums.graph [5, 4, 5] = .ok t ∧
      sharedSums.graph.Linearises [5, 4, 5] t) ∧
    Tape.build sharedSums.graph [4, 6, 9] = .error (.absentOutput 6 6) := by
  have hsize : sharedSums.graph.nodes.size = 6 := by rw [sharedSums_tables.2.1]; rfl
  constructor
  · obtain ⟨t, ht, hlin, -⟩ := (build_linearises _ _ [5, 4, 5]).2.2.2 (by simp)
      (show ∀ o ∈ [5, 4, 5], o < sharedSums.graph.nodes.size by simp [hsize])
    exact ⟨t, ht, hlin⟩
  · have habsent := (build_linearises _ _ [4, 6, 9]).2.2.1 [4] 6 [9] rfl
      (show ∀ p ∈ [4], p < sharedSums.graph.nodes.size by simp [hsize])
      (show sharedSums.graph.nodes.size ≤ 6 by simp [hsize])
    exact habsent.trans (congrArg (Except.error ∘ TapeError.absentOutput 6) hsize)

end History

end ScalarField
