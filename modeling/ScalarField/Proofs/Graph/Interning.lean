/-
What holds of every graph that calls lead to from a new one, whichever calls
they are, whether they succeed, and whatever the hash.

Nodes are canonical, refer to nodes before them and are pairwise different;
the buckets list every node once, under its hash; names and indices of
variables determine each other (`Graph.WellFormed`). A call keeps this, changes
nothing that is there, and the node that it answers with is the canonical form
of the one it asks for (`Graph.WellFormed.call`); so it is after any calls
(`History.Sound.calls`).
-/
import Mathlib.Tactic.Common
import ScalarField.Graph.Basic

namespace ScalarField

theorem Op.ofCode?_code (op : Op) : Op.ofCode? op.code = some op := by
  rcases op with _ | _ | u | b
  · decide
  · decide
  · cases u <;> decide
  · cases b <;> decide

/-- The node that an instruction describes, its operands as they are. -/
def Instr.node? (i : Instr) : Option Node :=
  match i.op? with
  | none => none
  | some .input => some (.input i.var.toNat)
  | some .const => some (.const i.imm)
  | some (.unary u) => some (.unary u i.left)
  | some (.binary b) => some (.binary b i.left i.right)

/-! ## Calls -/

/-- What can be asked of a graph. -/
inductive GraphCall where
  | var (name : Bytes)
  | input (index : Int)
  | const (value : Binary64)
  | unary (code : UInt8) (a : NodeId)
  | binary (code : UInt8) (a b : NodeId)
  | insert (i : Instr)
  | output (id : NodeId)
  deriving DecidableEq

namespace Graph

/-- The answer to a call that adds a node, and the graph after it. -/
def answer (g : Graph) : Except GraphError (NodeId × Graph) → Option NodeId × Graph
  | .ok (id, g') => (some id, g')
  | .error _ => (none, g)

/-- A call: the node that is the answer, if there is one, and the graph after
it. -/
def call (g : Graph) : GraphCall → Option NodeId × Graph
  | .var name =>
    match g.var name with
    | (.ok id, g') => (some id, g')
    | (.error _, g') => (none, g')
  | .input i => g.answer (g.input i)
  | .const v => g.answer (g.const v)
  | .unary code a => g.answer (g.unary code a)
  | .binary code a b => g.answer (g.binary code a b)
  | .insert i => g.answer (g.insert i)
  | .output id =>
    match g.output id with
    | .ok g' => (none, g')
    | .error _ => (none, g)

end Graph

/-- The node that a call asks for, where the variables are `vars`. -/
def GraphCall.Asks (vars : Array Bytes) : GraphCall → Node → Prop
  | .var name, n => ∃ i : Nat, vars[i]? = some name ∧ n = .input i
  | .input i, n => n = .input i.toNat
  | .const v, n => n = .const v
  | .unary code a, n => Instr.node? { code, left := a } = some n
  | .binary code a b, n => Instr.node? { code, left := a, right := b } = some n
  | .insert i, n => i.node? = some n
  | .output _, _ => False

/-- A graph and the calls that led to it, as far as they had an answer. -/
structure History where
  graph : Graph
  answers : List (GraphCall × NodeId)

namespace History

def start (hash : Node → Hashcode) : History := ⟨.emptyWith hash, []⟩

def call (H : History) (c : GraphCall) : History :=
  match H.graph.call c with
  | (some id, g) => ⟨g, (c, id) :: H.answers⟩
  | (none, g) => ⟨g, H.answers⟩

/-- Calls one after another. -/
def calls (H : History) (cs : List GraphCall) : History := cs.foldl call H

end History

/-! ## Nodes -/

namespace Node

theorem toInstr_op? (n : Node) : n.toInstr.op? = some n.op := by
  rw [← Op.ofCode?_code n.op]
  cases n <;> rfl

theorem node?_toInstr (n : Node) : n.toInstr.node? = some n := by
  have hop := n.toInstr_op?
  cases n <;> simp only [Instr.node?, hop, op] <;> rfl

theorem toInstr_var_nonneg (n : Node) : 0 ≤ n.toInstr.var := by
  cases n <;> simp [toInstr]

theorem canonical_args {n : Node} {a : NodeId} : a ∈ n.canonical.args ↔ a ∈ n.args := by
  cases n with
  | binary op x y =>
    simp only [canonical]
    split
    · simp only [args, List.mem_cons, List.not_mem_nil, or_false]
      exact or_comm
    · rfl
  | _ => rfl

theorem canonical_eq_input {n : Node} {v : Nat} : n.canonical = .input v ↔ n = .input v := by
  cases n with
  | binary op x y =>
    simp only [canonical]
    split <;> simp
  | _ => simp [canonical]

theorem canonical_isCanonical (n : Node) : n.canonical.IsCanonical := by
  cases n with
  | const c =>
    by_cases h : c.isNaN = true
    · have hnan : (Binary.nan : Binary64).isNaN = true := by decide +kernel
      simp [IsCanonical, canonical, h, hnan]
    · simp [IsCanonical, canonical, h]
  | binary op x y =>
    by_cases h : (op.isCommutative && y < x) = true
    · have hlt : ¬(op.isCommutative && x < y) = true := by
        simp only [Bool.and_eq_true, decide_eq_true_eq] at h
        simp [Nat.le_of_lt h.2]
      simp only [IsCanonical, canonical, if_pos h, if_neg hlt]
    · simp only [IsCanonical, canonical, if_neg h]
  | _ => rfl

end Node

/-! ## The invariant -/

namespace Graph

structure WellFormed (g : Graph) : Prop where
  size_le : g.nodes.size ≤ capacity
  operand : ∀ {id : NodeId} {n : Node}, g.nodes[id]? = some n → ∀ a ∈ n.args, a < id
  canonical : ∀ {id : NodeId} {n : Node}, g.nodes[id]? = some n → n.IsCanonical
  distinct : ∀ {i j : NodeId} {n : Node}, g.nodes[i]? = some n → g.nodes[j]? = some n → i = j
  bucket : ∀ h : Hashcode, (g.buckets[h]?).getD [] =
    (List.range g.nodes.size).filter fun id => (g.nodes[id]?).map g.hash == some h
  input : ∀ {id : NodeId} {v : Nat}, g.nodes[id]? = some (.input v) → v < g.vars.size
  index : ∀ (name : Bytes) (i : Nat), g.varIndex[name]? = some i ↔ g.vars[i]? = some name
  output : ∀ o ∈ g.outputs, o < g.nodes.size
  outputs_nodup : g.outputs.toList.Nodup

/-- Everything in `g` is in `g'`, at the same place. -/
structure Extends (g g' : Graph) : Prop where
  nodes : g.nodes.toList <+: g'.nodes.toList
  vars : g.vars.toList <+: g'.vars.toList
  outputs : g.outputs.toList <+: g'.outputs.toList

theorem Extends.refl (g : Graph) : g.Extends g :=
  ⟨List.prefix_refl _, List.prefix_refl _, List.prefix_refl _⟩

theorem Extends.trans {g g' g'' : Graph} (h : g.Extends g') (h' : g'.Extends g'') :
    g.Extends g'' :=
  ⟨h.nodes.trans h'.nodes, h.vars.trans h'.vars, h.outputs.trans h'.outputs⟩

theorem getElem?_of_isPrefix {α : Type} {xs ys : Array α} (h : xs.toList <+: ys.toList) {i : Nat}
    {x : α} (hx : xs[i]? = some x) : ys[i]? = some x := by
  obtain ⟨rest, hrest⟩ := h
  have hi : i < xs.toList.length := by simpa using (Array.getElem?_eq_some_iff.1 hx).1
  rw [← Array.getElem?_toList, ← hrest, List.getElem?_append_left hi, Array.getElem?_toList, hx]

theorem Extends.node {g g' : Graph} (h : g.Extends g') {id : NodeId} {n : Node}
    (hn : g.nodes[id]? = some n) : g'.nodes[id]? = some n :=
  getElem?_of_isPrefix h.nodes hn

theorem Extends.var {g g' : Graph} (h : g.Extends g') {i : Nat} {name : Bytes}
    (hi : g.vars[i]? = some name) : g'.vars[i]? = some name :=
  getElem?_of_isPrefix h.vars hi

variable {g g' : Graph} {id : NodeId} {n : Node} {i : Instr}

/-! ## Variables -/

theorem wellFormed_bare (hash : Node → Hashcode) : (bare hash).WellFormed := by
  refine ⟨Nat.zero_le _, ?_, ?_, ?_, ?_, ?_, ?_, ?_, ?_⟩ <;> simp [bare]

theorem WellFormed.var_unique (hwf : g.WellFormed) {i j : Nat} {name : Bytes}
    (hi : g.vars[i]? = some name) (hj : g.vars[j]? = some name) : i = j :=
  Option.some.inj (((hwf.index name i).2 hi).symm.trans ((hwf.index name j).2 hj))

/-- Registering a name gives the variable of that name. -/
theorem WellFormed.register (hwf : g.WellFormed) (name : Bytes) :
    (g.register name).2.WellFormed ∧ g.Extends (g.register name).2 ∧
      (g.register name).2.nodes = g.nodes ∧
      (g.register name).2.vars[(g.register name).1]? = some name := by
  unfold Graph.register
  split
  · rename_i i hi
    exact ⟨hwf, .refl g, rfl, (hwf.index name i).1 hi⟩
  · rename_i hnone
    have hfresh : ∀ i : Nat, g.vars[i]? ≠ some name := fun i hi => by
      simp [(hwf.index name i).2 hi] at hnone
    refine ⟨{ hwf with input := fun h => ?_, index := fun other i => ?_ }, ?_, rfl, ?_⟩
    · have := hwf.input h
      simp only [Array.size_push]
      omega
    · simp only
      rw [Std.HashMap.getElem?_insert, Array.getElem?_push]
      by_cases hname : name = other
      · subst hname
        by_cases hi : i = g.vars.size
        · simp [hi]
        · simp [hi, hfresh i, Ne.symm hi]
      · by_cases hi : i = g.vars.size
        · simp only [beq_iff_eq, hname, if_false, hi, if_true, Option.some.injEq, iff_false]
          intro h
          have := (hwf.index other g.vars.size).1 h
          simp at this
        · simp only [beq_iff_eq, hname, if_false, hi]
          exact hwf.index other i
    · exact ⟨List.prefix_refl _, by simp, List.prefix_refl _⟩
    · simp

/-! ## Adding nodes -/

theorem find?_eq_some (h : g.find? n = some id) : g.nodes[id]? = some n := by
  simpa using List.find?_some h

/-- A node that is there is found, through the bucket that lists it. -/
theorem WellFormed.find?_eq_none (hwf : g.WellFormed) (h : g.find? n = none) (id : NodeId) :
    g.nodes[id]? ≠ some n := by
  intro hid
  have hlt : id < g.nodes.size := (Array.getElem?_eq_some_iff.1 hid).1
  rw [Graph.find?, hwf.bucket, List.find?_eq_none] at h
  exact h id (List.mem_filter.2 ⟨List.mem_range.2 hlt, by simp [hid]⟩) (by simp [hid])

/-- What adding a node does: nothing if it is there, and otherwise it becomes
the last one. -/
theorem intern_cases (h : g.intern n = .ok (id, g')) :
    g.nodes[id]? = some n ∧ g' = g ∨
      g.find? n = none ∧ g.nodes.size < capacity ∧ id = g.nodes.size ∧
        g' = { g with
          nodes := g.nodes.push n
          buckets := g.buckets.insert (g.hash n) ((g.buckets[g.hash n]?).getD [] ++ [id]) } := by
  unfold Graph.intern at h
  split at h
  · rename_i found hfound
    simp only [Except.ok.injEq, Prod.mk.injEq] at h
    obtain ⟨rfl, rfl⟩ := h
    exact .inl ⟨find?_eq_some hfound, rfl⟩
  · rename_i hnone
    split at h
    · simp at h
    · rename_i hroom
      simp only [Except.ok.injEq, Prod.mk.injEq] at h
      obtain ⟨rfl, rfl⟩ := h
      exact .inr ⟨hnone, Nat.lt_of_not_le hroom, rfl, rfl⟩

/-- Adding a canonical node whose operands and variable are there. -/
theorem WellFormed.intern (hwf : g.WellFormed) (hcanon : n.IsCanonical)
    (hargs : ∀ a ∈ n.args, a < g.nodes.size) (hvar : ∀ v, n = .input v → v < g.vars.size)
    (h : g.intern n = .ok (id, g')) :
    g'.WellFormed ∧ g.Extends g' ∧ g'.nodes[id]? = some n ∧ g'.nodes.size ≤ g.nodes.size + 1 := by
  rcases intern_cases h with ⟨hid, rfl⟩ | ⟨hnone, hroom, rfl, rfl⟩
  · exact ⟨hwf, .refl g', hid, Nat.le_succ _⟩
  · have hfresh := hwf.find?_eq_none hnone
    have hcases : ∀ {k : Nat} {m : Node}, (g.nodes.push n)[k]? = some m →
        k ≠ g.nodes.size ∧ g.nodes[k]? = some m ∨ k = g.nodes.size ∧ m = n := by
      intro k m hk
      rw [Array.getElem?_push] at hk
      split at hk
      · exact .inr ⟨‹_›, (Option.some.inj hk).symm⟩
      · exact .inl ⟨‹_›, hk⟩
    refine ⟨{ hwf with
      size_le := by
        rw [Array.size_push]
        exact hroom
      operand := fun hk => ?_
      canonical := fun hk => ?_
      distinct := fun hi hj => ?_
      bucket := fun code => ?_
      input := fun hk => ?_
      output := fun o ho => ?_ }, ⟨by simp, List.prefix_refl _, List.prefix_refl _⟩, by simp,
      by simp⟩
    · rcases hcases hk with ⟨-, hk⟩ | ⟨rfl, rfl⟩
      · exact hwf.operand hk
      · exact hargs
    · rcases hcases hk with ⟨-, hk⟩ | ⟨rfl, rfl⟩
      · exact hwf.canonical hk
      · exact hcanon
    · rcases hcases hi with ⟨-, hold⟩ | ⟨rfl, rfl⟩
      · rcases hcases hj with ⟨-, hold'⟩ | ⟨-, rfl⟩
        · exact hwf.distinct hold hold'
        · exact absurd hold (hfresh _)
      · rcases hcases hj with ⟨-, hold'⟩ | ⟨rfl, -⟩
        · exact absurd hold' (hfresh _)
        · rfl
    · -- Only the bucket of the new node changes, and it gets the new number at its end.
      have hold : (List.range g.nodes.size).filter
          (fun id => ((g.nodes.push n)[id]?).map g.hash == some code) =
          (g.buckets[code]?).getD [] := by
        rw [hwf.bucket]
        refine List.filter_congr fun k hk => ?_
        rw [Array.getElem?_push_lt (List.mem_range.1 hk),
          Array.getElem?_eq_getElem (List.mem_range.1 hk)]
      simp only [Array.size_push]
      rw [List.range_succ, List.filter_append, hold, Std.HashMap.getElem?_insert]
      by_cases hcode : g.hash n = code
      · simp [hcode]
      · simp [hcode]
    · rcases hcases hk with ⟨-, hk⟩ | ⟨rfl, hv⟩
      · exact hwf.input hk
      · exact hvar _ hv.symm
    · rw [Array.size_push]
      exact Nat.lt_succ_of_lt (hwf.output o ho)

/-- What has to be there for a node to be added. -/
structure Admits (g : Graph) (n : Node) : Prop where
  args : ∀ a ∈ n.args, a < g.nodes.size
  var : ∀ v, n = .input v → v < g.vars.size

theorem admits_input {v : Nat} : g.Admits (.input v) ↔ v < g.vars.size :=
  ⟨fun h => h.var v rfl, fun h => ⟨by simp [Node.args], fun _ hv => by cases hv; exact h⟩⟩

theorem admits_const (v : Binary64) : g.Admits (.const v) := ⟨by simp [Node.args], by simp⟩

theorem admits_unary {u : UnaryOp} {a : NodeId} : g.Admits (.unary u a) ↔ a < g.nodes.size :=
  ⟨fun h => h.args a (by simp [Node.args]), fun h => ⟨by simpa [Node.args] using h, by simp⟩⟩

theorem admits_binary {o : BinaryOp} {a b : NodeId} :
    g.Admits (.binary o a b) ↔ a < g.nodes.size ∧ b < g.nodes.size :=
  ⟨fun h => ⟨h.args a (by simp [Node.args]), h.args b (by simp [Node.args])⟩,
    fun h => ⟨by simpa [Node.args] using h, by simp⟩⟩

theorem Admits.canonical (h : g.Admits n) : g.Admits n.canonical :=
  ⟨fun a ha => h.args a (Node.canonical_args.1 ha),
    fun v hv => h.var v (Node.canonical_eq_input.1 hv)⟩

theorem node?_eq_ok : g.node? i = .ok n ↔
    i.node? = some n ∧ g.Admits n ∧ (i.op? = some .input → 0 ≤ i.var) := by
  rcases hop : i.op? with _ | _ | _ | u | b
  · simp [Graph.node?, Instr.node?, hop]
  · by_cases hv : 0 ≤ i.var ∧ i.var < g.vars.size
    · simp only [Graph.node?, Instr.node?, hop, if_pos hv, Except.ok.injEq, Option.some.injEq]
      refine ⟨fun h => ⟨h, h ▸ admits_input.2 (by omega), fun _ => hv.1⟩, fun h => h.1⟩
    · simp only [Graph.node?, Instr.node?, hop, if_neg hv, reduceCtorEq, false_iff, not_and]
      rintro ⟨⟩ hadm h0
      have := admits_input.1 hadm
      have := h0 trivial
      omega
  · simp only [Graph.node?, Instr.node?, hop, Except.ok.injEq, Option.some.injEq]
    exact ⟨fun h => ⟨h, h ▸ admits_const _, by simp⟩, fun h => h.1⟩
  · simp only [Graph.node?, Instr.node?, hop]
    by_cases hl : g.nodes.size ≤ i.left
    · simp only [if_pos hl, reduceCtorEq, false_iff, not_and]
      rintro ⟨⟩ hadm
      exact absurd (admits_unary.1 hadm) (Nat.not_lt.2 hl)
    · simp only [if_neg hl, Except.ok.injEq, Option.some.injEq]
      exact ⟨fun h => ⟨h, h ▸ admits_unary.2 (Nat.lt_of_not_le hl), by simp⟩, fun h => h.1⟩
  · simp only [Graph.node?, Instr.node?, hop]
    by_cases hl : g.nodes.size ≤ i.left
    · simp only [if_pos hl, reduceCtorEq, false_iff, not_and]
      rintro ⟨⟩ hadm
      exact absurd (admits_binary.1 hadm).1 (Nat.not_lt.2 hl)
    by_cases hr : g.nodes.size ≤ i.right
    · simp only [if_neg hl, if_pos hr, reduceCtorEq, false_iff, not_and]
      rintro ⟨⟩ hadm
      exact absurd (admits_binary.1 hadm).2 (Nat.not_lt.2 hr)
    · simp only [if_neg hl, if_neg hr, Except.ok.injEq, Option.some.injEq]
      exact ⟨fun h => ⟨h, h ▸ admits_binary.2 ⟨Nat.lt_of_not_le hl, Nat.lt_of_not_le hr⟩, by simp⟩,
        fun h => h.1⟩

/-- Inserting an instruction adds the canonical form of its node. -/
theorem insert_eq_ok {r : NodeId × Graph} : g.insert i = .ok r ↔
    ∃ n, g.node? i = .ok n ∧ g.intern n.canonical = .ok r := by
  unfold Graph.insert
  split
  · rename_i e he
    simp [he]
  · rename_i m hm
    simp [hm]

theorem insert_of_room (hn : g.node? i = .ok n) (hroom : g.nodes.size < capacity) :
    ∃ r, g.insert i = .ok r := by
  simp only [insert, hn, intern]
  split
  · exact ⟨_, rfl⟩
  · exact ⟨_, if_neg (Nat.not_le.2 hroom)⟩

/-- Only a full graph refuses a node whose operands and variable exist. -/
theorem insert_eq_error {e : GraphError} (hn : g.node? i = .ok n) (h : g.insert i = .error e) :
    e = .full ∧ capacity ≤ g.nodes.size := by
  simp only [insert, hn, intern] at h
  split at h
  · cases h
  · split at h
    · rename_i hfull
      exact ⟨(Except.error.inj h).symm, hfull⟩
    · cases h

theorem insert_outputs (h : g.insert i = .ok (id, g')) : g'.outputs = g.outputs := by
  obtain ⟨n, -, hintern⟩ := insert_eq_ok.1 h
  rcases intern_cases hintern with ⟨-, rfl⟩ | ⟨-, -, -, rfl⟩
  · rfl
  · rfl

theorem insert_node (hn : g.node? i = .ok n) (h : g.insert i = .ok (id, g')) {k : NodeId}
    {m : Node} (hm : g'.nodes[k]? = some m) : g.nodes[k]? = some m ∨ m = n.canonical := by
  obtain ⟨n', hn', hintern⟩ := insert_eq_ok.1 h
  obtain rfl := Except.ok.inj (hn.symm.trans hn')
  rcases intern_cases hintern with ⟨-, rfl⟩ | ⟨-, -, -, rfl⟩
  · exact .inl hm
  · simp only [Array.getElem?_push] at hm
    split at hm
    · exact .inr (Option.some.inj hm).symm
    · exact .inl hm

theorem register_outputs (g : Graph) (name : Bytes) :
    (g.register name).2.outputs = g.outputs := by
  unfold Graph.register
  split <;> rfl

/-! ## Nodes that are new -/

theorem find?_eq_none_of_fresh (hfresh : ∀ id : NodeId, g.nodes[id]? ≠ some n) :
    g.find? n = none := by
  cases h : g.find? n with
  | none => rfl
  | some id => exact absurd (find?_eq_some h) (hfresh id)

theorem insert_of_fresh (hn : g.node? i = .ok n)
    (hfresh : ∀ id : NodeId, g.nodes[id]? ≠ some n.canonical) (hroom : g.nodes.size < capacity) :
    ∃ g', g.insert i = .ok (g.nodes.size, g') ∧ g'.nodes = g.nodes.push n.canonical ∧
      g'.vars = g.vars ∧ g'.outputs = g.outputs := by
  have hfull : ¬capacity ≤ g.nodes.size := Nat.not_le.2 hroom
  simp only [insert, hn, intern, find?_eq_none_of_fresh hfresh, if_neg hfull]
  exact ⟨_, rfl, rfl, rfl, rfl⟩

/-- A name that is registered keeps its index, and another one comes last. -/
theorem WellFormed.register_cases (hwf : g.WellFormed) (name : Bytes) :
    (∃ v : Nat, g.vars[v]? = some name ∧ g.register name = (v, g)) ∨
      (∀ v : Nat, g.vars[v]? ≠ some name) ∧ (g.register name).1 = g.vars.size ∧
        (g.register name).2.vars = g.vars.push name ∧ (g.register name).2.outputs = g.outputs := by
  unfold Graph.register
  split
  · rename_i v hv
    exact .inl ⟨v, (hwf.index name v).1 hv, rfl⟩
  · rename_i hnone
    refine .inr ⟨fun v hv => ?_, rfl, rfl, rfl⟩
    rw [(hwf.index name v).2 hv] at hnone
    simp at hnone

theorem WellFormed.var_of_fresh (hwf : g.WellFormed) (name : Bytes)
    (hfresh : ∀ (v : Nat) (id : NodeId), g.vars[v]? = some name → g.nodes[id]? ≠ some (.input v))
    (hroom : g.nodes.size < capacity) :
    ∃ v g', g.var name = (.ok g.nodes.size, g') ∧ g'.nodes = g.nodes.push (.input v) ∧
      g'.outputs = g.outputs ∧ g'.vars[v]? = some name ∧
      g'.vars = if name ∈ g.vars then g.vars else g.vars.push name := by
  obtain ⟨-, -, hnodes, hname⟩ := hwf.register name
  obtain ⟨hvars, houtputs, hfresh'⟩ :
      (g.register name).2.vars = (if name ∈ g.vars then g.vars else g.vars.push name) ∧
      (g.register name).2.outputs = g.outputs ∧
      ∀ id : NodeId, g.nodes[id]? ≠ some (.input (g.register name).1) := by
    rcases hwf.register_cases name with ⟨v, hv, heq⟩ | ⟨hnew, hindex, hvars, houtputs⟩
    · rw [heq, if_pos (Array.mem_of_getElem? hv)]
      exact ⟨rfl, rfl, fun id => hfresh v id hv⟩
    · have hmem : name ∉ g.vars := fun hmem =>
        let ⟨v, hv⟩ := Array.mem_iff_getElem?.1 hmem
        hnew v hv
      rw [hvars, houtputs, hindex, if_neg hmem]
      exact ⟨rfl, rfl, fun id hid => Nat.lt_irrefl _ (hwf.input hid)⟩
  generalize hr : g.register name = r at hnodes hname hvars houtputs hfresh'
  obtain ⟨v, k⟩ := r
  dsimp only at hnodes hname hvars houtputs hfresh'
  have hnode : k.node? { code := Op.input.code, var := v } = .ok (.input v) :=
    node?_eq_ok.2 ⟨by simp [Instr.node?, Instr.op?, Op.ofCode?_code],
      admits_input.2 (Array.getElem?_eq_some_iff.1 hname).1, fun _ => Int.natCast_nonneg v⟩
  obtain ⟨g', hinsert, hnodes', hvars', houtputs'⟩ :=
    insert_of_fresh hnode (by rw [hnodes]; exact hfresh') (by rw [hnodes]; exact hroom)
  refine ⟨v, g', ?_, by rw [hnodes', hnodes]; rfl, houtputs'.trans houtputs, hvars' ▸ hname,
    hvars'.trans hvars⟩
  simp only [Graph.var, hr, Graph.input, hinsert, hnodes]

theorem WellFormed.call_var_of_fresh (hwf : g.WellFormed) (name : Bytes)
    (hname : name ∉ g.vars) (hroom : g.nodes.size < capacity) :
    (g.call (.var name)).2.vars = g.vars.push name ∧
      (g.call (.var name)).2.nodes = g.nodes.push (.input g.vars.size) := by
  obtain ⟨v, g', hvar, hnodes, -, hv, hvars⟩ := hwf.var_of_fresh name
    (fun v _ hv => absurd (Array.mem_of_getElem? hv) hname) hroom
  rw [if_neg hname] at hvars
  have hindex : v = g.vars.size := by
    rw [hvars, Array.getElem?_push] at hv
    split at hv
    · assumption
    · exact absurd (Array.mem_of_getElem? hv) hname
  simp only [Graph.call, hvar]
  exact ⟨hvars, hindex ▸ hnodes⟩

/-! ## Calls keep the invariant -/

/-- What holds after a call whose answer is `id` if it has one and which asks
for one of the nodes `asked`. -/
structure Grown (g g' : Graph) (asked : Node → Prop) (answer : Option NodeId) : Prop where
  wellFormed : g'.WellFormed
  grows : g.Extends g'
  size_le : g'.nodes.size ≤ g.nodes.size + 1
  answer : ∀ id, answer = some id → ∃ n, asked n ∧ g'.nodes[id]? = some n.canonical

theorem WellFormed.insert (hwf : g.WellFormed) (h : g.insert i = .ok (id, g')) :
    g.Grown g' (fun n => i.node? = some n) (some id) := by
  obtain ⟨n, hn, hid⟩ := insert_eq_ok.1 h
  obtain ⟨hnode, hadm, -⟩ := node?_eq_ok.1 hn
  obtain ⟨hwf', hext, hget, hsize⟩ :=
    hwf.intern n.canonical_isCanonical hadm.canonical.args hadm.canonical.var hid
  exact ⟨hwf', hext, hsize, fun _ heq => ⟨n, hnode, by cases heq; exact hget⟩⟩

theorem WellFormed.insert_answer (hwf : g.WellFormed) (i : Instr) :
    g.Grown (g.answer (g.insert i)).2 (fun n => i.node? = some n) (g.answer (g.insert i)).1 := by
  rcases h : g.insert i with e | ⟨id, g'⟩
  · exact ⟨hwf, .refl g, Nat.le_succ _, by simp [answer]⟩
  · exact hwf.insert h

theorem Grown.imp {asked asked' : Node → Prop} {a : Option NodeId} (h : g.Grown g' asked a)
    (himp : ∀ n, asked n → asked' n) : g.Grown g' asked' a :=
  { h with answer := fun id hid =>
    let ⟨n, hn, hget⟩ := h.answer id hid
    ⟨n, himp n hn, hget⟩ }

/-- Every call keeps the invariant and what is there, and its answer is the
node it asks for. -/
theorem WellFormed.call (hwf : g.WellFormed) (c : GraphCall) :
    g.Grown (g.call c).2 (c.Asks (g.call c).2.vars) (g.call c).1 := by
  have hunchanged : ∀ asked, g.Grown g asked none :=
    fun _ => ⟨hwf, .refl g, Nat.le_succ _, by simp⟩
  cases c with
  | var name =>
    obtain ⟨hwf', hext, hnodes, hname⟩ := hwf.register name
    simp only [Graph.call, Graph.var]
    rcases h : (g.register name).2.input (g.register name).1 with e | ⟨id, g'⟩
    · exact ⟨hwf', hext, by simp [hnodes], by simp⟩
    · have hgrown := hwf'.insert h
      refine ⟨hgrown.wellFormed, hext.trans hgrown.grows, hnodes ▸ hgrown.size_le, fun k hk => ?_⟩
      obtain ⟨n, hn, hget⟩ := hgrown.answer k hk
      refine ⟨n, ⟨_, hgrown.grows.var hname, ?_⟩, hget⟩
      simpa [Instr.node?, Instr.op?, Op.ofCode?_code, eq_comm] using hn
  | input k =>
    refine (hwf.insert_answer _).imp fun n hn => ?_
    simpa [Instr.node?, Instr.op?, Op.ofCode?_code, GraphCall.Asks, eq_comm] using hn
  | const v =>
    refine (hwf.insert_answer _).imp fun n hn => ?_
    simpa [Instr.node?, Instr.op?, Op.ofCode?_code, GraphCall.Asks, eq_comm] using hn
  | unary code a =>
    simp only [Graph.call, Graph.unary]
    split
    · exact hwf.insert_answer _
    · exact hunchanged _
  | binary code a b =>
    simp only [Graph.call, Graph.binary]
    split
    · exact hwf.insert_answer _
    · exact hunchanged _
  | insert i => exact hwf.insert_answer i
  | output o =>
    simp only [Graph.call]
    rcases h : g.output o with e | g'
    · exact hunchanged _
    · unfold Graph.output at h
      split at h
      · simp at h
      · rename_i hlt
        split at h
        · cases h
          exact hunchanged _
        · rename_i hnew
          cases h
          refine ⟨{ hwf with output := fun p hp => ?_, outputs_nodup := ?_ },
            ⟨List.prefix_refl _, List.prefix_refl _, by simp⟩, Nat.le_succ _, by simp⟩
          · rcases Array.mem_push.1 hp with hp | rfl
            · exact hwf.output p hp
            · exact Nat.lt_of_not_le hlt
          · rw [Array.toList_push]
            exact List.nodup_append.2 ⟨hwf.outputs_nodup, by simp, fun p hp q hq => by
              obtain rfl : q = o := by simpa using hq
              rintro rfl
              simp [Array.mem_toList_iff.1 hp] at hnew⟩

theorem emptyWith_eq (hash : Node → Hashcode) :
    (emptyWith hash).vars = axes.toArray ∧ (emptyWith hash).nodes = #[] ∧
      (emptyWith hash).outputs = #[] ∧ (emptyWith hash).hash = hash := by
  have hx : utf8 "x" = [120] := by decide +kernel
  have hy : utf8 "y" = [121] := by decide +kernel
  have hz : utf8 "z" = [122] := by decide +kernel
  simp [emptyWith, axes, bare, Graph.register, hx, hy, hz]

theorem wellFormed_emptyWith (hash : Node → Hashcode) : (emptyWith hash).WellFormed := by
  have hstep : ∀ (names : List Bytes) {g : Graph}, g.WellFormed →
      (names.foldl (fun g name => (g.register name).2) g).WellFormed := by
    intro names
    induction names with
    | nil => exact id
    | cons name rest ih => exact fun h => ih (h.register name).1
  exact hstep axes (wellFormed_bare hash)

end Graph

/-! ## Histories -/

theorem GraphCall.Asks.mono {vars vars' : Array Bytes} (hvars : vars.toList <+: vars'.toList)
    {c : GraphCall} {n : Node} (h : c.Asks vars n) : c.Asks vars' n := by
  cases c with
  | var name =>
    obtain ⟨i, hi, hn⟩ := h
    exact ⟨i, Graph.getElem?_of_isPrefix hvars hi, hn⟩
  | _ => exact h

theorem GraphCall.Asks.unique {g : Graph} (hwf : g.WellFormed) {c : GraphCall} {n m : Node}
    (hn : c.Asks g.vars n) (hm : c.Asks g.vars m) : n = m := by
  cases c with
  | var name =>
    obtain ⟨i, hi, rfl⟩ := hn
    obtain ⟨j, hj, rfl⟩ := hm
    rw [hwf.var_unique hi hj]
  | input k | const v => exact Eq.trans hn (Eq.symm hm)
  | unary code a | binary code a b | insert i => exact Option.some.inj (Eq.trans (Eq.symm hn) hm)
  | output o => exact hn.elim

namespace History

/-- The graph is well formed, and every answer is the node asked for, in
canonical form. -/
structure Sound (H : History) : Prop where
  graph : H.graph.WellFormed
  answered : ∀ {c : GraphCall} {id : NodeId}, (c, id) ∈ H.answers →
    ∃ n, c.Asks H.graph.vars n ∧ H.graph.nodes[id]? = some n.canonical

theorem sound_start (hash : Node → Hashcode) : (start hash).Sound :=
  ⟨Graph.wellFormed_emptyWith hash, by simp [start]⟩

variable {H : History}

theorem call_graph (H : History) (c : GraphCall) : (H.call c).graph = (H.graph.call c).2 := by
  unfold History.call
  split <;> simp [*]

theorem mem_call {c d : GraphCall} {id : NodeId} : (d, id) ∈ (H.call c).answers ↔
    (d, id) ∈ H.answers ∨ d = c ∧ (H.graph.call c).1 = some id := by
  unfold History.call
  split
  · rename_i k g h
    simp only [List.mem_cons, Prod.mk.injEq, h, Option.some.injEq]
    rw [or_comm, eq_comm (a := k)]
  · rename_i g h
    simp [h]

theorem Sound.call (h : H.Sound) (c : GraphCall) :
    (H.call c).Sound ∧ H.graph.Extends (H.call c).graph := by
  have hgrown := h.graph.call c
  rw [← call_graph] at hgrown
  refine ⟨⟨hgrown.wellFormed, fun {d id} hd => ?_⟩, hgrown.grows⟩
  rcases mem_call.1 hd with hold | ⟨rfl, hid⟩
  · obtain ⟨n, hasks, hn⟩ := h.answered hold
    exact ⟨n, hasks.mono hgrown.grows.vars, hgrown.grows.node hn⟩
  · exact hgrown.answer id hid

theorem Sound.calls : ∀ (cs : List GraphCall) {H : History}, H.Sound → (H.calls cs).Sound
  | [], _, h => h
  | c :: rest, _, h => Sound.calls rest (h.call c).1

theorem Sound.node (h : H.Sound) {c : GraphCall} {id : NodeId} {n : Node} (hc : (c, id) ∈ H.answers)
    (hn : c.Asks H.graph.vars n) : H.graph.nodes[id]? = some n.canonical := by
  obtain ⟨m, hm, hget⟩ := h.answered hc
  rw [hn.unique h.graph hm, hget]

end History

end ScalarField
