/-
The tables of a graph agree with each other after any calls, whether these
succeed or fail and whatever the hash (`History.representation_kept`).

The five tables are coupled: buckets number the nodes, nodes refer to nodes and
variables, outputs to nodes, and the index of names to the names. `WellFormed`
carries the induction; `Representation` says the same table by table, with nodes
as the records that callers give and get, so that unused fields are seen to be
cleared (`Instr.canonical`).
-/
import Mathlib.Data.List.Nodup
import ScalarField.Proofs.Graph.Sharing

namespace ScalarField

/-! ## Records in canonical form -/

/-- The form in which a record is stored: fields that the operator does not use
are cleared, operands that may be swapped ascend, and one constant stands for
every NaN. -/
def Instr.canonical (i : Instr) : Instr :=
  match i.op? with
  | some .const => { code := i.code, imm := if i.imm.isNaN then .nan else i.imm }
  | some (.unary _) => { code := i.code, left := i.left }
  | some (.binary o) =>
    if o.isCommutative && i.right < i.left then { code := i.code, left := i.right, right := i.left }
    else { code := i.code, left := i.left, right := i.right }
  | _ => { code := i.code, var := i.var }

theorem Op.code_of_ofCode? {c : UInt8} {op : Op} (h : Op.ofCode? c = some op) : op.code = c := by
  simpa using List.find?_some h

theorem Instr.canonical_toInstr {i : Instr} {n : Node} (hn : i.node? = some n)
    (hvar : i.op? = some .input → 0 ≤ i.var) : n.canonical.toInstr = i.canonical := by
  unfold Instr.node? at hn
  unfold Instr.canonical
  rcases hop : i.op? with _ | _ | _ | u | o
  · simp [hop] at hn
  · obtain rfl : Node.input i.var.toNat = n := by simpa [hop] using hn
    have hcode := Op.code_of_ofCode? hop
    have hnonneg := hvar hop
    simp only [Node.canonical, Node.toInstr, Node.op, hcode, Instr.mk.injEq, true_and]
    omega
  · obtain rfl : Node.const i.imm = n := by simpa [hop] using hn
    have hcode := Op.code_of_ofCode? hop
    simp only [Node.canonical, Node.toInstr, Node.op, hcode]
  · obtain rfl : Node.unary u i.left = n := by simpa [hop] using hn
    have hcode := Op.code_of_ofCode? hop
    simp only [Node.canonical, Node.toInstr, Node.op, hcode]
  · obtain rfl : Node.binary o i.left i.right = n := by simpa [hop] using hn
    have hcode := Op.code_of_ofCode? hop
    simp only [Node.canonical]
    split <;> simp only [Node.toInstr, Node.op, hcode]

theorem Node.IsCanonical.toInstr {n : Node} (h : n.IsCanonical) :
    n.toInstr.canonical = n.toInstr := by
  have hrecord := Instr.canonical_toInstr n.node?_toInstr fun _ => n.toInstr_var_nonneg
  rw [← hrecord, show n.canonical = n from h]

namespace Graph

variable {g g' : Graph} {hash : Node → Hashcode}

/-! ## Table by table -/

/-- The tables of a graph agree. -/
structure Representation (hash : Node → Hashcode) (g : Graph) : Prop where
  /-- Operands come before the nodes that use them. -/
  operand : ∀ (id : NodeId) (n : Node), g.nodes[id]? = some n → ∀ a ∈ n.args, a < id
  /-- Nodes are stored in canonical form. -/
  canonical : ∀ (id : NodeId) (n : Node), g.nodes[id]? = some n →
    n.IsCanonical ∧ n.toInstr.canonical = n.toInstr
  /-- The buckets list every node once, under its hash, and nothing else. -/
  listed : ∀ (h : Hashcode) (id : NodeId), ((g.buckets[h]?).getD []).count id =
    if (g.nodes[id]?).map hash = some h then 1 else 0
  /-- Names and indices of variables determine each other. -/
  index : ∀ (name : Bytes) (v : Nat), g.varIndex[name]? = some v ↔ g.vars[v]? = some name
  names_nodup : g.vars.toList.Nodup
  /-- The first variables are the axes. -/
  axes : axes <+: g.vars.toList
  /-- Inputs have a variable. -/
  input : ∀ (id : NodeId) (v : Nat), g.nodes[id]? = some (.input v) → v < g.vars.size
  /-- Outputs are nodes, each marked once. -/
  output : ∀ o ∈ g.outputs, o < g.nodes.size
  outputs_nodup : g.outputs.toList.Nodup

theorem WellFormed.count_bucket (hwf : g.WellFormed) (h : Hashcode) (id : NodeId) :
    ((g.buckets[h]?).getD []).count id =
      if (g.nodes[id]?).map g.hash = some h then 1 else 0 := by
  rw [hwf.bucket]
  have hnodup := (List.nodup_range (n := g.nodes.size)).filter
    fun id => (g.nodes[id]?).map g.hash == some h
  by_cases hid : (g.nodes[id]?).map g.hash = some h
  · obtain ⟨n, hn, -⟩ := Option.map_eq_some_iff.1 hid
    have hlt : id < g.nodes.size := (Array.getElem?_eq_some_iff.1 hn).1
    rw [if_pos hid]
    exact List.count_eq_one_of_mem hnodup
      (List.mem_filter.2 ⟨List.mem_range.2 hlt, by rw [hid, beq_self_eq_true]⟩)
  · rw [if_neg hid]
    exact List.count_eq_zero_of_not_mem fun hmem => hid (by simpa using (List.mem_filter.1 hmem).2)

theorem WellFormed.names_nodup (hwf : g.WellFormed) : g.vars.toList.Nodup := by
  rw [List.nodup_iff_getElem?_ne_getElem?]
  intro i j hij hj heq
  have hget : g.vars[j]? = some (g.vars.toList[j]) := by
    rw [← Array.getElem?_toList]
    exact List.getElem?_eq_getElem hj
  have hget' : g.vars[i]? = some (g.vars.toList[j]) := by
    rw [← Array.getElem?_toList, heq]
    exact List.getElem?_eq_getElem hj
  exact absurd (hwf.var_unique hget' hget) (Nat.ne_of_lt hij)

theorem WellFormed.representation (hwf : g.WellFormed) (hhash : g.hash = hash)
    (haxes : Graph.axes <+: g.vars.toList) : g.Representation hash where
  operand _ _ hn := hwf.operand hn
  canonical _ _ hn := ⟨hwf.canonical hn, (hwf.canonical hn).toInstr⟩
  listed h id := hhash ▸ hwf.count_bucket h id
  index := hwf.index
  names_nodup := hwf.names_nodup
  axes := haxes
  input _ _ hn := hwf.input hn
  output := hwf.output
  outputs_nodup := hwf.outputs_nodup

/-! ## One call -/

/-- What a call tells its caller: an error, or the node that is the answer if
the call has one. -/
def outcome (g : Graph) : GraphCall → Except GraphError (Option NodeId)
  | .var name => (g.var name).1.map some
  | .input i => (g.input i).map (some ·.1)
  | .const v => (g.const v).map (some ·.1)
  | .unary code a => (g.unary code a).map (some ·.1)
  | .binary code a b => (g.binary code a b).map (some ·.1)
  | .insert i => (g.insert i).map (some ·.1)
  | .output id => (g.output id).map fun _ => none

theorem register_hash (g : Graph) (name : Bytes) : (g.register name).2.hash = g.hash := by
  unfold Graph.register
  split <;> rfl

theorem insert_hash {i : Instr} {id : NodeId} (h : g.insert i = .ok (id, g')) :
    g'.hash = g.hash := by
  obtain ⟨n, -, hintern⟩ := insert_eq_ok.1 h
  rcases intern_cases hintern with ⟨-, rfl⟩ | ⟨-, -, -, rfl⟩ <;> rfl

theorem answer_insert_hash (g : Graph) (i : Instr) :
    (g.answer (g.insert i)).2.hash = g.hash := by
  rcases h : g.insert i with e | ⟨id, g'⟩
  · rfl
  · exact insert_hash h

theorem output_cases {o : NodeId} (h : g.output o = .ok g') :
    g' = g ∨ g' = { g with outputs := g.outputs.push o } := by
  unfold Graph.output at h
  split at h
  · simp at h
  · split at h
    · exact .inl (Except.ok.inj h).symm
    · exact .inr (Except.ok.inj h).symm

theorem call_hash (g : Graph) (c : GraphCall) : (g.call c).2.hash = g.hash := by
  cases c with
  | var name =>
    simp only [Graph.call, Graph.var]
    rcases h : (g.register name).2.input (g.register name).1 with e | ⟨id, g'⟩
    · exact g.register_hash name
    · exact (insert_hash h).trans (g.register_hash name)
  | input i => exact g.answer_insert_hash _
  | const v => exact g.answer_insert_hash _
  | unary code a =>
    simp only [Graph.call, Graph.unary]
    split
    · exact g.answer_insert_hash _
    · rfl
  | binary code a b =>
    simp only [Graph.call, Graph.binary]
    split
    · exact g.answer_insert_hash _
    · rfl
  | insert i => exact g.answer_insert_hash i
  | output o =>
    simp only [Graph.call]
    rcases h : g.output o with e | g'
    · rfl
    · rcases output_cases h with rfl | rfl <;> rfl

/-- What a call that fails leaves: the graph as it is, but for a name that is
registered before its input is added. -/
def afterFailure (g : Graph) : GraphCall → Graph
  | .var name => (g.register name).2
  | _ => g

theorem call_of_error {c : GraphCall} {e : GraphError} (h : g.outcome c = .error e) :
    (g.call c).2 = g.afterFailure c := by
  have hanswer : ∀ {r : Except GraphError (NodeId × Graph)},
      r.map (some ·.1) = .error e → (g.answer r).2 = g := by
    intro r hr
    cases r with
    | error => rfl
    | ok p => cases hr
  cases c with
  | var name =>
    simp only [outcome, Graph.var] at h
    simp only [Graph.call, Graph.var]
    rcases hinput : (g.register name).2.input (g.register name).1 with e' | ⟨id, g'⟩
    · rfl
    · rw [hinput] at h
      cases h
  | output o =>
    simp only [outcome] at h
    rcases houtput : g.output o with e' | g'
    · simp only [Graph.call, houtput, afterFailure]
    · rw [houtput] at h
      cases h
  | _ => exact hanswer h

/-- Inserting a record gives the node of its canonical form, which is the last
one if it was not there. -/
theorem insert_record {i : Instr} {id : NodeId} (h : g.insert i = .ok (id, g')) :
    ∃ n, n.toInstr = i.canonical ∧ g'.nodes[id]? = some n ∧
      (g' = g ∨ id = g.nodes.size ∧ g'.nodes = g.nodes.push n ∧ g'.vars = g.vars ∧
        g'.outputs = g.outputs) := by
  obtain ⟨n, hn, hintern⟩ := insert_eq_ok.1 h
  obtain ⟨hnode, -, hvar⟩ := node?_eq_ok.1 hn
  refine ⟨n.canonical, Instr.canonical_toInstr hnode hvar, ?_⟩
  rcases intern_cases hintern with ⟨hid, rfl⟩ | ⟨-, -, rfl, rfl⟩
  · exact ⟨hid, .inl rfl⟩
  · exact ⟨by simp, .inr ⟨rfl, rfl, rfl, rfl⟩⟩

end Graph

/-! ## Any calls -/

namespace History

theorem calls_hash (cs : List GraphCall) (H : History) :
    (H.calls cs).graph.hash = H.graph.hash := by
  induction cs generalizing H with
  | nil => rfl
  | cons c rest ih =>
    calc ((H.call c).calls rest).graph.hash = (H.call c).graph.hash := ih (H.call c)
      _ = (H.graph.call c).2.hash := by rw [call_graph]
      _ = H.graph.hash := H.graph.call_hash c

theorem Sound.extends_calls (cs : List GraphCall) {H : History} (h : H.Sound) :
    H.graph.Extends (H.calls cs).graph := by
  induction cs generalizing H with
  | nil => exact .refl _
  | cons c rest ih =>
    obtain ⟨hsound, hext⟩ := h.call c
    exact hext.trans (ih hsound)

/-- **The tables of a graph agree after any calls.** After any calls to a new
graph, with any hash:
- the tables agree (`Graph.Representation`);
- later calls change and reorder no node, variable or output;
- a call that fails leaves the graph as it is, except that a variable asked for
  by its name is registered;
- inserting a record, if it succeeds, answers with the node of its canonical
  form, and adds that node at the end or nothing. -/
theorem representation_kept (hash : Node → Hashcode) (cs : List GraphCall) :
    ((start hash).calls cs).graph.Representation hash ∧
    (∀ ds, ((start hash).calls cs).graph.Extends ((start hash).calls (cs ++ ds)).graph) ∧
    (∀ c e, ((start hash).calls cs).graph.outcome c = .error e →
      (((start hash).calls cs).graph.call c).2 =
        ((start hash).calls cs).graph.afterFailure c) ∧
    ∀ i id g', ((start hash).calls cs).graph.insert i = .ok (id, g') →
      ∃ n, n.toInstr = i.canonical ∧ g'.nodes[id]? = some n ∧
        (g' = ((start hash).calls cs).graph ∨
          id = ((start hash).calls cs).graph.nodes.size ∧
            g'.nodes = ((start hash).calls cs).graph.nodes.push n ∧
            g'.vars = ((start hash).calls cs).graph.vars ∧
            g'.outputs = ((start hash).calls cs).graph.outputs) := by
  have hstart := sound_start hash
  have hsound := Sound.calls cs hstart
  obtain ⟨hvars, -, -, hhash⟩ := Graph.emptyWith_eq hash
  refine ⟨hsound.graph.representation ((calls_hash cs (start hash)).trans hhash) ?_, fun ds => ?_,
    fun c e => Graph.call_of_error, fun i id g' => Graph.insert_record⟩
  · have hgrow := (Sound.extends_calls cs hstart).vars
    rwa [show (start hash).graph.vars = Graph.axes.toArray from hvars] at hgrow
  · rw [calls_append]
    exact Sound.extends_calls ds hsound

/-- Marking a node that does not exist fails and changes nothing, and a minimum
given with its operands swapped and with fields that it does not use is stored
without them. -/
theorem representation_kept_sharedSums :
    (sharedSums.graph.outcome (.output 6) = .error (.badOutput 6 6) ∧
      (sharedSums.graph.call (.output 6)).2 = sharedSums.graph) ∧
    ∃ id g' n, sharedSums.graph.insert
        { code := BinaryOp.min.code, left := 1, right := 0, imm := .one, var := 7 } =
          .ok (id, g') ∧
      n.toInstr = { code := BinaryOp.min.code, left := 0, right := 1 } ∧
      g'.nodes[id]? = some n := by
  obtain ⟨-, -, hfailed, hinserted⟩ := representation_kept (fun _ => (0, 0)) _
  have hmin : Op.ofCode? BinaryOp.min.code = some (.binary .min) := by decide
  have hsize : sharedSums.graph.nodes.size = 6 := by simp [sharedSums_tables]
  have houtcome : sharedSums.graph.outcome (.output 6) = .error (.badOutput 6 6) := by
    simp [Graph.outcome, Graph.output, hsize, Except.map]
  have hnode : sharedSums.graph.node?
      { code := BinaryOp.min.code, left := 1, right := 0, imm := .one, var := 7 } =
        .ok (.binary .min 1 0) := by
    simp [Graph.node?, Instr.op?, hmin, hsize]
  obtain ⟨⟨id, g'⟩, hinsert⟩ := Graph.insert_of_room hnode (by rw [hsize]; decide)
  obtain ⟨n, hrecord, hn, -⟩ := hinserted _ id g' hinsert
  refine ⟨⟨houtcome, hfailed _ _ houtcome⟩, id, g', n, hinsert, ?_, hn⟩
  simpa [Instr.canonical, Instr.op?, hmin, BinaryOp.isCommutative] using hrecord

end History

end ScalarField
