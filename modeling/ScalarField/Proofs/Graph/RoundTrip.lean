/-
The text of a node reads back as a copy of what the node is computed from
(`History.text_round_trip`).

The reader meets the nodes in ascending order, so that it has numbered the
operands of a node before it comes to the node. It never finds a node that it
has read before: different nodes have different copies (`Node.Copied.unique`).
And the operands that may be swapped ascend in the copy as they do in the
original, because the numbers of the copies do (`Node.Copied.isCanonical`).
-/
import ScalarField.Proofs.Graph.Reader
import ScalarField.Proofs.Graph.Sharing
import ScalarField.Proofs.Graph.Written
import ScalarField.Proofs.Number.Printed

namespace ScalarField

/-! ## Copies -/

/-- One node is a copy of another: same operator, same constant, variables of
the same name, and operands that are copies. The copy of node `ids[k]` has
number `k`. -/
inductive Node.Copied (names names' : Array Bytes) (ids : List NodeId) : Node → Node → Prop where
  | input {v v' : Nat} {name : Bytes} (hv : names[v]? = some name) (hv' : names'[v']? = some name) :
      Copied names names' ids (.input v) (.input v')
  | const (c : Binary64) : Copied names names' ids (.const c) (.const c)
  | unary (u : UnaryOp) {a a' : NodeId} (ha : ids[a']? = some a) :
      Copied names names' ids (.unary u a) (.unary u a')
  | binary (o : BinaryOp) {a a' b b' : NodeId} (ha : ids[a']? = some a) (hb : ids[b']? = some b) :
      Copied names names' ids (.binary o a b) (.binary o a' b')

theorem Node.isCanonical_binary {o : BinaryOp} {a b : NodeId} :
    (Node.binary o a b).IsCanonical ↔ (o.isCommutative = true → a ≤ b) := by
  simp only [Node.IsCanonical, Node.canonical]
  by_cases hlt : b < a
  · by_cases ho : o.isCommutative = true
    · simp [ho, hlt, Nat.ne_of_lt hlt]
    · simp [ho]
  · simp [hlt, Nat.le_of_not_lt hlt]

namespace Node.Copied

variable {names names' : Array Bytes} {ids : List NodeId} {n m n' : Node}

theorem unique {g : Graph} (hwf : g.WellFormed) (h : n.Copied g.vars names' ids n')
    (h' : m.Copied g.vars names' ids n') : n = m := by
  cases h with
  | input hv hv' =>
    cases h' with
    | input hw hw' =>
      obtain rfl := Option.some.inj (hv'.symm.trans hw')
      rw [hwf.var_unique hv hw]
  | const c =>
    cases h'
    rfl
  | unary u ha =>
    cases h' with
    | unary _ ha' => rw [Option.some.inj (ha.symm.trans ha')]
  | binary o ha hb =>
    cases h' with
    | binary _ ha' hb' =>
      rw [Option.some.inj (ha.symm.trans ha'), Option.some.inj (hb.symm.trans hb')]

theorem mono (h : n.Copied names names' ids n') {names'' : Array Bytes} {ids' : List NodeId}
    (hnames : names'.toList <+: names''.toList) (hids : ids <+: ids') :
    n.Copied names names'' ids' n' := by
  have hget : ∀ {k id : Nat}, ids[k]? = some id → ids'[k]? = some id := by
    intro k id hk
    obtain ⟨rest, rfl⟩ := hids
    rw [List.getElem?_append_left (List.getElem?_eq_some_iff.1 hk).1, hk]
  cases h with
  | input hv hv' => exact .input hv (Graph.getElem?_of_isPrefix hnames hv')
  | const c => exact .const c
  | unary u ha => exact .unary u (hget ha)
  | binary o ha hb => exact .binary o (hget ha) (hget hb)

theorem isCanonical (hids : ids.Pairwise (· < ·)) (hn : n.IsCanonical)
    (h : n.Copied names names' ids n') : n'.IsCanonical := by
  cases h with
  | input | unary => rfl
  | const c => exact hn
  | @binary o a a' b b' ha hb =>
    refine isCanonical_binary.2 fun ho => ?_
    have hle := isCanonical_binary.1 hn ho
    obtain ⟨ha', rfl⟩ := List.getElem?_eq_some_iff.1 ha
    obtain ⟨hb', rfl⟩ := List.getElem?_eq_some_iff.1 hb
    exact Nat.le_of_not_lt fun hlt =>
      Nat.not_lt.2 hle (List.pairwise_iff_getElem.1 hids b' a' hb' ha' hlt)

end Node.Copied

namespace Graph

/-- A graph is a copy of what `root` is computed from: the nodes `ids`, in their
order, the last one being the root and the only output. -/
structure Copies (g : Graph) (root : NodeId) (ids : List NodeId) (g' : Graph) (root' : NodeId) :
    Prop where
  ascending : ids.Pairwise (· < ·)
  mem : ∀ id, id ∈ ids ↔ g.Reaches root id
  size : g'.nodes.size = ids.length
  node : ∀ k id : Nat, ids[k]? = some id → ∃ n n' : Node, g.nodes[id]? = some n ∧
    g'.nodes[k]? = some n' ∧ n.Copied g.vars g'.vars ids n'
  image : ids[root']? = some root
  last : root' + 1 = g'.nodes.size
  outputs : g'.outputs = #[root']

end Graph

theorem Node.ref_inj {a b : NodeId} (h : Node.ref a = Node.ref b) : a = b :=
  Bytes.hex_inj (List.cons.inj h).2

/-! ## Lines as words -/

namespace Graph

/-- The words of a definition. -/
def words (g : Graph) : Node → List Bytes
  | .input v => [utf8 "var-" ++ g.varName v]
  | .const c => [utf8 "const", c.print]
  | .unary u a => [utf8 u.name, Node.ref a]
  | .binary o a b => [utf8 o.name, Node.ref a, Node.ref b]

/-- A node that can be written in words: its name, if it has one, is a word. -/
def Legible (g : Graph) (n : Node) : Prop :=
  ∀ (v : Nat) (name : Bytes), n = .input v → g.vars[v]? = some name → name ≠ [] ∧ name.Solid

variable {g : Graph} {id : NodeId} {n : Node}

theorem lineOf_eq (hn : g.nodes[id]? = some n) :
    g.lineOf id = Bytes.joined (Node.ref id :: g.words n) := by
  obtain ⟨hspace, hconst⟩ : utf8 " " = [32] ∧ utf8 "const " = utf8 "const" ++ [32] := by
    decide +kernel
  rw [lineOf, hn]
  cases n <;> simp [definition, words, Node.print, Bytes.joined, Bytes.join, hspace, hconst]

end Graph

/-- The names of operators are words, which neither variables nor constants start
with, and tell the operator. -/
theorem Op.name_word : ∀ op ∈ Op.all.drop 2, (utf8 op.name).all Bytes.isGraphic = true ∧
    utf8 op.name ≠ [] ∧ Reader.varMark.isPrefixOf (utf8 op.name) = false ∧
    utf8 op.name ≠ utf8 "const" ∧ Op.ofName? (utf8 op.name) = some op := by
  decide +kernel

theorem Op.unary_mem (u : UnaryOp) : Op.unary u ∈ Op.all.drop 2 := by cases u <;> decide

theorem Op.binary_mem (o : BinaryOp) : Op.binary o ∈ Op.all.drop 2 := by cases o <;> decide

theorem Node.IsCanonical.read_const {c : Binary64} (h : (Node.const c).IsCanonical) :
    Binary.read .binary64 c.print = .ok c := by
  cases hnan : c.isNaN with
  | true =>
    have hc : Binary.nan = c := by simpa [Node.IsCanonical, Node.canonical, hnan] using h
    rw [← hc]
    exact Binary.read_print_nan
  | false => exact Binary.read_print hnan

theorem Node.ref_graphic (id : NodeId) : ∀ b ∈ Node.ref id, Bytes.isGraphic b = true :=
  List.forall_mem_cons.2 ⟨by decide, Bytes.hex_graphic id⟩

namespace Graph

variable {g : Graph} {id : NodeId} {n : Node}

theorem Legible.words (hwf : g.WellFormed) (hn : g.nodes[id]? = some n) (h : g.Legible n) :
    ∀ w ∈ Node.ref id :: g.words n, w ≠ [] ∧ w.Solid := by
  have href : ∀ a, Node.ref a ≠ [] ∧ (Node.ref a).Solid := fun a =>
    ⟨List.cons_ne_nil _ _, Bytes.solid_of_graphic (Node.ref_graphic a)⟩
  have hop : ∀ op ∈ Op.all.drop 2, utf8 op.name ≠ [] ∧ (utf8 op.name).Solid := fun op hmem => by
    obtain ⟨hgraphic, hne, -⟩ := Op.name_word op hmem
    exact ⟨hne, Bytes.solid_of_graphic (List.all_eq_true.1 hgraphic)⟩
  refine List.forall_mem_cons.2 ⟨href id, ?_⟩
  cases n with
  | input v =>
    have hlt := hwf.input hn
    obtain ⟨-, hsolid⟩ := h v _ rfl (Array.getElem?_eq_getElem hlt)
    have hmark : utf8 "var-" ≠ [] ∧ ∀ b ∈ utf8 "var-", Bytes.isGraphic b = true := by decide +kernel
    have hword : (utf8 "var-" ++ g.varName v).Solid := by
      rw [varName, Array.getElem?_eq_getElem hlt]
      exact hsolid.append hmark.2
    simpa [Graph.words, hmark.1] using hword
  | const c =>
    have hmark : utf8 "const" ≠ [] ∧ ∀ b ∈ utf8 "const", Bytes.isGraphic b = true := by
      decide +kernel
    have hne : c.print ≠ [] := by
      intro hnil
      have hread := (hwf.canonical hn).read_const
      have hempty : Binary.read .binary64 [] = .error .syntactic := by decide +kernel
      rw [hnil, hempty] at hread
      simp at hread
    simp only [Graph.words, List.forall_mem_cons]
    exact ⟨⟨hmark.1, Bytes.solid_of_graphic hmark.2⟩,
      ⟨hne, Bytes.solid_of_graphic c.print_graphic⟩, List.forall_mem_nil _⟩
  | unary u a =>
    simp only [Graph.words, List.forall_mem_cons]
    exact ⟨hop (.unary u) (Op.unary_mem u), href a, List.forall_mem_nil _⟩
  | binary o a b =>
    simp only [Graph.words, List.forall_mem_cons]
    exact ⟨hop (.binary o) (Op.binary_mem o), href a, href b, List.forall_mem_nil _⟩

end Graph

/-! ## Reading one line -/

namespace Reader

theorem getElem?_concat {xs : List NodeId} {x y : NodeId} {k : Nat} :
    (xs ++ [x])[k]? = some y ↔ xs[k]? = some y ∨ k = xs.length ∧ y = x := by
  rcases Nat.lt_trichotomy k xs.length with hlt | rfl | hlt
  · simp [List.getElem?_append_left hlt, Nat.ne_of_lt hlt]
  · simp [eq_comm]
  · have hnone : (xs ++ [x])[k]? = none := List.getElem?_eq_none (by simp; omega)
    have hnone' : xs[k]? = none := List.getElem?_eq_none (by omega)
    simp [hnone, hnone', Nat.ne_of_gt hlt]

/-- The reader has read the lines of the nodes `ids` of a graph. -/
structure Tracks (g : Graph) (ids : List NodeId) (r : Reader) : Prop where
  wellFormed : r.graph.WellFormed
  size : r.graph.nodes.size = ids.length
  outputs : r.graph.outputs = #[]
  node : ∀ k id : Nat, ids[k]? = some id → ∃ n n' : Node, g.nodes[id]? = some n ∧
    r.graph.nodes[k]? = some n' ∧ n.Copied g.vars r.graph.vars ids n'
  names : ∀ (name : Bytes) (k : NodeId), r.names[name]? = some k ↔
    ∃ id, ids[k]? = some id ∧ name = Node.ref id
  last : ∀ k, k + 1 = ids.length → r.last = some k

variable {g : Graph} {ids : List NodeId} {r : Reader} {id : NodeId} {n : Node}

/-- A node that has not been read has no copy yet. -/
theorem Tracks.fresh (h : r.Tracks g ids) (hg : g.WellFormed) (hn : g.nodes[id]? = some n)
    (hid : id ∉ ids) {n' : Node} (hcopy : n.Copied g.vars r.graph.vars ids n') (k : NodeId) :
    r.graph.nodes[k]? ≠ some n' := by
  intro hk
  have hlt : k < ids.length := h.size ▸ (Array.getElem?_eq_some_iff.1 hk).1
  obtain ⟨m, m', hm, hm', hcopy'⟩ := h.node k _ (List.getElem?_eq_getElem hlt)
  obtain rfl := Option.some.inj (hk.symm.trans hm')
  obtain rfl := hcopy.unique hg hcopy'
  exact hid (hg.distinct hn hm ▸ List.getElem_mem hlt)

/-- Reading the line of one more node. -/
theorem Tracks.push (h : r.Tracks g ids) (hn : g.nodes[id]? = some n) (hid : id ∉ ids)
    {g' : Graph} {n' : Node} (hwf : g'.WellFormed) (hext : r.graph.vars.toList <+: g'.vars.toList)
    (hnodes : g'.nodes = r.graph.nodes.push n') (houtputs : g'.outputs = r.graph.outputs)
    (hcopy : n.Copied g.vars g'.vars ids n') :
    Tracks g (ids ++ [id]) ⟨g', r.names.insert (Node.ref id) ids.length, some ids.length⟩ where
  wellFormed := hwf
  size := by simp [hnodes, h.size]
  outputs := houtputs.trans h.outputs
  node k j hk := by
    have hsize : r.graph.nodes.size = ids.length := h.size
    rcases getElem?_concat.1 hk with hk | ⟨rfl, rfl⟩
    · obtain ⟨m, m', hm, hm', hcopy'⟩ := h.node k j hk
      have hlt := (List.getElem?_eq_some_iff.1 hk).1
      refine ⟨m, m', hm, ?_, hcopy'.mono hext (List.prefix_append ids [id])⟩
      rw [hnodes, Array.getElem?_push, if_neg (by omega), hm']
    · refine ⟨n, n', hn, ?_, hcopy.mono (List.prefix_refl _) (List.prefix_append ids [j])⟩
      rw [hnodes, Array.getElem?_push, if_pos hsize.symm]
  names name k := by
    rw [Std.HashMap.getElem?_insert]
    by_cases hname : Node.ref id = name
    · subst hname
      simp only [beq_self_eq_true, if_true, Option.some.injEq, getElem?_concat]
      constructor
      · rintro rfl
        exact ⟨id, .inr ⟨rfl, rfl⟩, rfl⟩
      · rintro ⟨j, hk | ⟨hk, -⟩, href⟩
        · exact absurd (List.mem_of_getElem? hk) (Node.ref_inj href ▸ hid)
        · exact hk.symm
    · simp only [beq_iff_eq, hname, if_false, h.names, getElem?_concat]
      constructor
      · rintro ⟨j, hk, href⟩
        exact ⟨j, .inl hk, href⟩
      · rintro ⟨j, hk | ⟨-, rfl⟩, href⟩
        · exact ⟨j, hk, href⟩
        · exact absurd href.symm hname
  last k hk := by
    have : k = ids.length := by simpa using hk
    rw [this]

/-- A copy of `n` has been added as the next node. -/
structure Adds (g : Graph) (ids : List NodeId) (n : Node) (r : Reader) (g' : Graph) : Prop where
  wellFormed : g'.WellFormed
  vars : r.graph.vars.toList <+: g'.vars.toList
  outputs : g'.outputs = r.graph.outputs
  node : ∃ n', g'.nodes = r.graph.nodes.push n' ∧ n.Copied g.vars g'.vars ids n'

section

variable (h : r.Tracks g ids) (hg : g.WellFormed) (hn : g.nodes[id]? = some n) (hid : id ∉ ids)
  (hroom : ids.length < Graph.capacity)
include h hg hn hid hroom

theorem Tracks.adds_insert (hids : ids.Pairwise (· < ·)) {i : Instr} {n' : Node}
    (hnode : r.graph.node? i = .ok n') (hcopy : n.Copied g.vars r.graph.vars ids n') :
    ∃ g', r.graph.insert i = .ok (ids.length, g') ∧ Adds g ids n r g' := by
  have hcanonical : n'.canonical = n' := hcopy.isCanonical hids (hg.canonical hn)
  obtain ⟨g', hinsert, hnodes, hvars, houtputs⟩ := Graph.insert_of_fresh hnode
    (by rw [hcanonical]; exact h.fresh hg hn hid hcopy) (by rw [h.size]; exact hroom)
  rw [hcanonical] at hnodes
  refine ⟨g', by rw [hinsert, h.size], (h.wellFormed.insert hinsert).wellFormed,
    hvars ▸ List.prefix_refl _, houtputs, n', hnodes, hvars ▸ hcopy⟩

theorem Tracks.adds_var {v : Nat} {name : Bytes} (hinput : n = .input v)
    (hv : g.vars[v]? = some name) :
    ∃ g', r.graph.var name = (.ok ids.length, g') ∧ Adds g ids n r g' := by
  subst hinput
  obtain ⟨v', g', hvar, hnodes, houtputs, hv', -⟩ := h.wellFormed.var_of_fresh name
    (fun v' k hv' => h.fresh hg hn hid (.input hv hv') k) (by rw [h.size]; exact hroom)
  have hcall : (r.graph.call (.var name)).2 = g' := by simp only [Graph.call, hvar]
  have hgrown := h.wellFormed.call (.var name)
  rw [hcall] at hgrown
  exact ⟨g', by rw [hvar, h.size], hgrown.wellFormed, hgrown.grows.vars, houtputs, _, hnodes,
    .input hv hv'⟩

end

theorem Tracks.operand (h : r.Tracks g ids) {a : NodeId} (ha : a ∈ ids) :
    ∃ k, ids[k]? = some a ∧ k < r.graph.nodes.size ∧ r.names[Node.ref a]? = some k := by
  obtain ⟨k, hk⟩ := List.mem_iff_getElem?.1 ha
  exact ⟨k, hk, h.size ▸ (List.getElem?_eq_some_iff.1 hk).1, (h.names _ _).2 ⟨a, hk, rfl⟩⟩

theorem define_op (r : Reader) {op : Op} (hmem : op ∈ Op.all.drop 2) {args : List Bytes}
    {ks : List NodeId} (hlength : args.length = op.arity) (hlookup : lookup r.names args = .ok ks) :
    r.define (utf8 op.name) args =
      adding (r.graph.insert { code := op.code, left := ks.getD 0 0, right := ks.getD 1 0 }) := by
  obtain ⟨-, -, hmark, hconst, hop⟩ := Op.name_word op hmem
  simp [Reader.define, hmark, hconst, hop, hlength, hlookup]

/-- The words of a node define its copy. -/
theorem Tracks.define (h : r.Tracks g ids) (hg : g.WellFormed) (hids : ids.Pairwise (· < ·))
    (hn : g.nodes[id]? = some n) (hid : id ∉ ids) (hargs : ∀ a ∈ n.args, a ∈ ids)
    (hroom : ids.length < Graph.capacity) (hlegible : g.Legible n) :
    ∃ word args g', g.words n = word :: args ∧ r.define word args = .ok (ids.length, g') ∧
      Adds g ids n r g' := by
  cases n with
  | input v =>
    obtain ⟨name, hv⟩ : ∃ name, g.vars[v]? = some name :=
      ⟨_, Array.getElem?_eq_getElem (hg.input hn)⟩
    obtain ⟨hne, -⟩ := hlegible v name rfl hv
    obtain ⟨g', hvar, hadds⟩ := h.adds_var hg hn hid hroom rfl hv
    refine ⟨_, [], g', rfl, ?_, hadds⟩
    have hname : g.varName v = name := by rw [Graph.varName, hv, Option.getD_some]
    rw [hname]
    simp [Reader.define, varMark, hne, hvar]
  | const c =>
    have hread := (hg.canonical hn).read_const
    have hnode : r.graph.node? { code := Op.const.code, imm := c } = .ok (.const c) := by
      simp [Graph.node?, Instr.op?, Op.ofCode?_code]
    obtain ⟨g', hinsert, hadds⟩ := h.adds_insert hg hn hid hroom hids hnode (.const c)
    refine ⟨_, _, g', rfl, ?_, hadds⟩
    have hmark : varMark.isPrefixOf (utf8 "const") = false := by decide +kernel
    simp [Reader.define, hmark, hread, Graph.const, hinsert, adding]
  | unary u a =>
    obtain ⟨k, hk, hlt, hname⟩ := h.operand (hargs a (by simp [Node.args]))
    have hnode : r.graph.node? { code := (Op.unary u).code, left := k } = .ok (.unary u k) := by
      simp [Graph.node?, Instr.op?, Op.ofCode?_code, hlt]
    obtain ⟨g', hinsert, hadds⟩ := h.adds_insert hg hn hid hroom hids hnode (.unary u hk)
    have hlookup : lookup r.names [Node.ref a] = .ok [k] := by simp [lookup, hname]
    refine ⟨_, _, g', rfl, (r.define_op (Op.unary_mem u) rfl hlookup).trans ?_, hadds⟩
    simp [hinsert, adding]
  | binary o a b =>
    obtain ⟨k, hk, hlt, hname⟩ := h.operand (hargs a (by simp [Node.args]))
    obtain ⟨k', hk', hlt', hname'⟩ := h.operand (hargs b (by simp [Node.args]))
    have hnode : r.graph.node? { code := (Op.binary o).code, left := k, right := k' } =
        .ok (.binary o k k') := by
      simp only [Graph.node?, Instr.op?, Op.ofCode?_code, if_neg (Nat.not_le.2 hlt),
        if_neg (Nat.not_le.2 hlt')]
    obtain ⟨g', hinsert, hadds⟩ := h.adds_insert hg hn hid hroom hids hnode (.binary o hk hk')
    have hlookup : lookup r.names [Node.ref a, Node.ref b] = .ok [k, k'] := by
      simp [lookup, hname, hname']
    refine ⟨_, _, g', rfl, (r.define_op (Op.binary_mem o) rfl hlookup).trans ?_, hadds⟩
    simp [hinsert, adding]

theorem Tracks.line (h : r.Tracks g ids) (hg : g.WellFormed) (hids : ids.Pairwise (· < ·))
    (hn : g.nodes[id]? = some n) (hid : id ∉ ids) (hargs : ∀ a ∈ n.args, a ∈ ids)
    (hroom : ids.length < Graph.capacity) (hlegible : g.Legible n) :
    ∃ r', r.line (g.lineOf id) = .ok r' ∧ r'.Tracks g (ids ++ [id]) := by
  obtain ⟨word, args, g', hwords, hdefine, hadds⟩ :=
    h.define hg hids hn hid hargs hroom hlegible
  obtain ⟨n', hnodes, hcopy⟩ := hadds.node
  refine ⟨_, ?_, h.push hn hid hadds.wellFormed hadds.vars hnodes hadds.outputs hcopy⟩
  have hfields : (g.lineOf id).fields = Node.ref id :: word :: args := by
    rw [Graph.lineOf_eq hn, Bytes.fields_joined _ (hlegible.words hg hn), hwords]
  have hskip : isSkipped (g.lineOf id) = false := by
    obtain ⟨s, hs⟩ := Bytes.trim_cons (a := Bytes.ofChar '_') (by decide)
      (Bytes.hex id ++ utf8 " " ++ ((g.nodes[id]?).map g.definition).getD [])
    have hline : (g.lineOf id).trim = Bytes.ofChar '_' :: s := hs
    rw [isSkipped, hline]
    rfl
  have hnew : r.names.contains (Node.ref id) = false := by
    rw [Std.HashMap.contains_eq_isSome_getElem?, Option.isSome_eq_false_iff,
      Option.isNone_iff_eq_none, Option.eq_none_iff_forall_ne_some]
    intro k hk
    obtain ⟨j, hj, href⟩ := (h.names _ k).1 hk
    exact hid (Node.ref_inj href ▸ List.mem_of_getElem? hj)
  simp [Reader.line, hskip, hfields, hnew, hdefine]

/-- The lines of nodes in ascending order. -/
theorem Tracks.lines (hg : g.WellFormed) (rest : List NodeId) {ids : List NodeId} {r : Reader}
    (h : r.Tracks g ids) (k : Nat) (hasc : (ids ++ rest).Pairwise (· < ·))
    (hroom : (ids ++ rest).length ≤ Graph.capacity)
    (hrest : ∀ id ∈ rest, ∃ n, g.nodes[id]? = some n ∧ g.Legible n ∧
      ∀ a ∈ n.args, a ∈ ids ++ rest) :
    ∃ r', r.lines k (rest.map g.lineOf) = .ok r' ∧ r'.Tracks g (ids ++ rest) := by
  induction rest generalizing ids r k with
  | nil => exact ⟨r, rfl, by simpa using h⟩
  | cons id rest ih =>
    obtain ⟨hids, hrest', hbefore⟩ := List.pairwise_append.1 hasc
    obtain ⟨n, hn, hlegible, hargs⟩ := hrest id List.mem_cons_self
    have hid : id ∉ ids := fun hmem => Nat.lt_irrefl id (hbefore id hmem id List.mem_cons_self)
    -- The operands come before the node, so they are among the nodes read.
    have hargs' : ∀ a ∈ n.args, a ∈ ids := by
      intro a ha
      have hlt := hg.operand hn a ha
      rcases List.mem_append.1 (hargs a ha) with hmem | hmem
      · exact hmem
      · rcases List.mem_cons.1 hmem with rfl | hmem
        · exact absurd hlt (Nat.lt_irrefl a)
        · exact absurd hlt (Nat.lt_asymm ((List.pairwise_cons.1 hrest').1 a hmem))
    obtain ⟨r', hline, htracks⟩ := h.line hg hids hn hid hargs'
      (by simp at hroom; omega) hlegible
    have hassoc : ids ++ [id] ++ rest = ids ++ id :: rest := by simp
    obtain ⟨r'', hlines, htracks'⟩ := ih htracks (k + 1) (hassoc ▸ hasc) (hassoc ▸ hroom)
      fun j hj => hassoc ▸ hrest j (List.mem_cons_of_mem id hj)
    exact ⟨r'', by simp only [List.map_cons, Reader.lines, hline, hlines], hassoc ▸ htracks'⟩

theorem tracks_start (g : Graph) : start.Tracks g [] := by
  obtain ⟨-, hnodes, houtputs, -⟩ := Graph.emptyWith_eq Node.fingerprint
  refine ⟨Graph.wellFormed_emptyWith Node.fingerprint, ?_, houtputs, by simp, by simp [start],
    by simp⟩
  rw [show start.graph.nodes = #[] from hnodes]
  rfl

end Reader

/-! ## Reading a text -/

namespace Graph

variable {g g' : Graph} {root root' id : NodeId} {ids : List NodeId} {n : Node}

theorem le_of_ascending (hasc : ids.Pairwise (· < ·)) {k : Nat} (hk : ids[k]? = some id) :
    k ≤ id := by
  induction k generalizing id with
  | zero => exact Nat.zero_le id
  | succ k ih =>
    obtain ⟨hlt, rfl⟩ := List.getElem?_eq_some_iff.1 hk
    have hprev := ih (List.getElem?_eq_getElem (Nat.lt_of_succ_lt hlt))
    exact Nat.lt_of_le_of_lt hprev (List.pairwise_iff_getElem.1 hasc k (k + 1) _ hlt k.lt_succ_self)

theorem place_unique (hasc : ids.Pairwise (· < ·)) {i j : Nat} (hi : ids[i]? = some id)
    (hj : ids[j]? = some id) : i = j := by
  obtain ⟨hi', rfl⟩ := List.getElem?_eq_some_iff.1 hi
  obtain ⟨hj', heq⟩ := List.getElem?_eq_some_iff.1 hj
  rcases Nat.lt_trichotomy i j with hlt | rfl | hlt
  · exact absurd heq (Nat.ne_of_gt (List.pairwise_iff_getElem.1 hasc i j hi' hj' hlt))
  · rfl
  · exact absurd heq (Nat.ne_of_lt (List.pairwise_iff_getElem.1 hasc j i hj' hi' hlt))

/-- A node whose text can be read: it exists, what it is computed from has
definitions, and their lines are not too long. -/
structure Readable (g : Graph) (root : NodeId) : Prop where
  lt_size : root < g.nodes.size
  legible : ∀ (id : NodeId) (n : Node), g.Reaches root id → g.nodes[id]? = some n → g.Legible n
  short : ∀ id, g.Reaches root id → (g.lineOf id).line.length ≤ lineLimit

theorem Reaches.node (hwf : g.WellFormed) (hroot : root < g.nodes.size) (h : g.Reaches root id) :
    ∃ n, g.nodes[id]? = some n :=
  ⟨_, Array.getElem?_eq_getElem (Nat.lt_of_le_of_lt (h.le hwf) hroot)⟩

/-- The root is written last. -/
theorem WellFormed.written_concat (hwf : g.WellFormed) (hroot : root < g.nodes.size) :
    ∃ front, g.written root = front ++ [root] := by
  have hlive := (hwf.reachable_iff hroot).2 .root
  refine ⟨(List.range root).filter fun id => ((g.reachable [root])[id]?).getD false, ?_⟩
  simp [written, List.range_succ, hlive]

theorem Legible.lineOf (hwf : g.WellFormed) (hn : g.nodes[id]? = some n) (h : g.Legible n) :
    10 ∉ g.lineOf id ∧ (g.lineOf id).getLast? ≠ some 13 := by
  rw [lineOf_eq hn]
  exact Bytes.joined_oneLine fun w hw => (h.words hwf hn w hw).2

theorem Readable.read_lines (hwf : g.WellFormed) (h : g.Readable root) :
    Lines.read lineLimit (((g.written root).map g.lineOf).flatMap Bytes.line) =
      ⟨(g.written root).map g.lineOf, false⟩ := by
  refine Lines.read_flatMap_line _ (fun l hl => ?_) (by decide)
  obtain ⟨id, hid, rfl⟩ := List.mem_map.1 hl
  have hreach := (hwf.mem_written h.lt_size).1 hid
  obtain ⟨n, hn⟩ := hreach.node hwf h.lt_size
  obtain ⟨hnewline, hreturn⟩ := (h.legible id n hreach hn).lineOf hwf hn
  have hshort := h.short id hreach
  rw [Bytes.line, List.length_append] at hshort
  exact ⟨hnewline, hreturn, hshort⟩

/-- What is written is read back as a copy. -/
theorem Readable.read_write (hwf : g.WellFormed) (h : g.Readable root) :
    ∃ text g' root', g.write root = .ok text ∧ read text = .ok (g', root') ∧ g'.WellFormed ∧
      g.Copies root (g.written root) g' root' := by
  have hasc := g.written_ascending root
  have hmem : ∀ id, id ∈ g.written root ↔ g.Reaches root id := fun id => hwf.mem_written h.lt_size
  obtain ⟨front, hfront⟩ := hwf.written_concat h.lt_size
  have hlast : (g.written root)[front.length]? = some root := by simp [hfront]
  have hlength : front.length + 1 = (g.written root).length := by simp [hfront]
  have hroom : (g.written root).length ≤ capacity :=
    calc (g.written root).length = front.length + 1 := hlength.symm
      _ ≤ root + 1 := Nat.succ_le_succ (le_of_ascending hasc hlast)
      _ ≤ g.nodes.size := h.lt_size
      _ ≤ capacity := hwf.size_le
  obtain ⟨r, hlines, htracks⟩ := (Reader.tracks_start g).lines hwf (g.written root) 0 hasc hroom
    fun id hid => by
      have hreach := (hmem id).1 hid
      obtain ⟨n, hn⟩ := hreach.node hwf h.lt_size
      exact ⟨n, hn, h.legible id n hreach hn, fun a ha => (hmem a).2 (hreach.operand hn ha)⟩
  rw [List.nil_append] at htracks
  have hsize : front.length < r.graph.nodes.size := by rw [htracks.size, ← hlength]; omega
  have houtput : r.graph.output front.length =
      .ok { r.graph with outputs := #[front.length] } := by
    simp [Graph.output, htracks.outputs, hsize]
  have hwf' : { r.graph with outputs := #[front.length] : Graph }.WellFormed := by
    have hgrown := (htracks.wellFormed.call (.output front.length)).wellFormed
    simpa only [Graph.call, houtput] using hgrown
  refine ⟨_, _, front.length, write_eq h.lt_size, read_eq_ok.2 ?_, hwf', hasc, hmem, htracks.size,
    htracks.node, hlast, hlength.trans htracks.size.symm, rfl⟩
  rw [h.read_lines hwf]
  exact ⟨rfl, r, hlines, htracks.last front.length hlength, houtput⟩

/-! ## Copies of copies -/

section

variable (h : g.Copies root ids g' root')
include h

theorem Copies.node_of (k : NodeId) {n' : Node} (hn' : g'.nodes[k]? = some n') :
    ∃ id n, ids[k]? = some id ∧ g.nodes[id]? = some n ∧ n.Copied g.vars g'.vars ids n' := by
  have hlt : k < ids.length := h.size ▸ (Array.getElem?_eq_some_iff.1 hn').1
  obtain ⟨n, m', hn, hm', hcopy⟩ := h.node k _ (List.getElem?_eq_getElem hlt)
  obtain rfl := Option.some.inj (hn'.symm.trans hm')
  exact ⟨_, n, List.getElem?_eq_getElem hlt, hn, hcopy⟩

theorem Copies.reaches (hreach : g.Reaches root id) {k : NodeId} (hk : ids[k]? = some id) :
    g'.Reaches root' k := by
  induction hreach generalizing k with
  | root =>
    obtain rfl := place_unique h.ascending hk h.image
    exact .root
  | @operand id a n hreach hn ha ih =>
    obtain ⟨j, hj⟩ := List.mem_iff_getElem?.1 ((h.mem id).2 hreach)
    obtain ⟨m, n', hm, hn', hcopy⟩ := h.node j id hj
    obtain rfl := Option.some.inj (hn.symm.trans hm)
    refine (ih hj).operand hn' ?_
    cases hcopy with
    | input | const => exact absurd ha List.not_mem_nil
    | unary u hb =>
      obtain rfl : a = _ := List.mem_singleton.1 ha
      rw [place_unique h.ascending hk hb]
      exact List.mem_singleton.2 rfl
    | binary o hb hc =>
      rcases List.mem_cons.1 ha with rfl | ha
      · rw [place_unique h.ascending hk hb]
        exact List.mem_cons_self
      · obtain rfl := List.mem_singleton.1 ha
        rw [place_unique h.ascending hk hc]
        exact List.mem_cons_of_mem _ List.mem_cons_self

/-- All nodes of a copy are written. -/
theorem Copies.written_eq (hwf' : g'.WellFormed) : g'.written root' = List.range g'.nodes.size := by
  have hroot' : root' < g'.nodes.size := h.last ▸ Nat.lt_succ_self root'
  rw [written, h.last, List.filter_eq_self]
  intro k hk
  have hlt : k < ids.length := h.size ▸ List.mem_range.1 hk
  have hid := List.getElem?_eq_getElem hlt
  have hreach := h.reaches ((h.mem _).1 (List.getElem_mem hlt)) hid
  rw [(hwf'.reachable_iff hroot').2 hreach]
  rfl

theorem Copies.legible (hread : g.Readable root) {k : NodeId} {n' : Node}
    (hn' : g'.nodes[k]? = some n') : g'.Legible n' := by
  obtain ⟨id, n, hid, hn, hcopy⟩ := h.node_of k hn'
  have hlegible := hread.legible id n ((h.mem id).1 (List.mem_of_getElem? hid)) hn
  intro v' name heq hname
  subst heq
  obtain ⟨hv, hv'⟩ := hcopy
  obtain rfl := Option.some.inj (hv'.symm.trans hname)
  exact hlegible _ _ rfl hv

theorem Copies.length_lineOf {k : NodeId} (hid : ids[k]? = some id) :
    (g'.lineOf k).length ≤ (g.lineOf id).length := by
  have hle : ∀ {k id : Nat}, ids[k]? = some id →
      (Node.ref k).length ≤ (Node.ref id).length := fun hk =>
    Nat.succ_le_succ (Bytes.length_hex_mono (le_of_ascending h.ascending hk))
  obtain ⟨n, n', hn, hn', hcopy⟩ := h.node k id hid
  have href := hle hid
  simp only [lineOf, hn, hn', Option.map_some, Option.getD_some, List.length_append]
  cases hcopy with
  | input hv hv' => simpa [definition, varName, hv, hv'] using href
  | const c => simpa [definition] using href
  | unary u ha =>
    have ha := hle ha
    simp only [definition, Node.print, List.length_append]
    omega
  | binary o ha hb =>
    have ha := hle ha
    have hb := hle hb
    simp only [definition, Node.print, List.length_append]
    omega

theorem Copies.readable (hwf' : g'.WellFormed) (hread : g.Readable root) : g'.Readable root' := by
  have hroot' : root' < g'.nodes.size := h.last ▸ Nat.lt_succ_self root'
  refine ⟨hroot', fun k n' _ hn' => h.legible hread hn', fun k hreach => ?_⟩
  obtain ⟨n', hn'⟩ := hreach.node hwf' hroot'
  obtain ⟨id, n, hid, -⟩ := h.node_of k hn'
  have hshort := hread.short id ((h.mem id).1 (List.mem_of_getElem? hid))
  have hle := h.length_lineOf hid
  simp only [Bytes.line, List.length_append] at hshort ⊢
  omega

end

/-- A copy that numbers nothing anew has the same text. -/
theorem Copies.write_eq {m : Nat} (h : g.Copies root (List.range m) g' root')
    (hroot : root < g.nodes.size) (hwritten : g.written root = List.range m)
    (hwf' : g'.WellFormed) : g'.write root' = g.write root := by
  have hroot' : root' < g'.nodes.size := h.last ▸ Nat.lt_succ_self root'
  have hget : ∀ {k id : Nat}, (List.range m)[k]? = some id → k = id := fun hk => by
    obtain ⟨-, rfl⟩ := List.getElem?_eq_some_iff.1 hk
    simp
  rw [Graph.write_eq hroot, Graph.write_eq hroot', hwritten, h.written_eq hwf', h.size,
    List.length_range]
  refine congrArg (Except.ok <| List.flatMap Bytes.line ·) (List.map_congr_left fun k hk => ?_)
  have hk : (List.range m)[k]? = some k := List.getElem?_range (List.mem_range.1 hk)
  obtain ⟨n, n', hn, hn', hcopy⟩ := h.node k k hk
  simp only [lineOf, hn, hn', Option.map_some, Option.getD_some]
  cases hcopy with
  | input hv hv' => simp [definition, varName, hv, hv']
  | const c => rfl
  | unary u ha => rw [hget ha]; rfl
  | binary o ha hb => rw [hget ha, hget hb]; rfl

/-- What is written, read and written again is read and written as it is. -/
theorem Copies.write_read_write (hwf' : g'.WellFormed) (h : g.Copies root ids g' root')
    (hread : g.Readable root) :
    ∃ text g'' root'', g'.write root' = .ok text ∧ read text = .ok (g'', root'') ∧
      g''.write root'' = .ok text := by
  have hread' := h.readable hwf' hread
  obtain ⟨text, g'', root'', hwrite, hreads, hwf'', hcopies⟩ := hread'.read_write hwf'
  have hwritten := h.written_eq hwf'
  rw [hwritten] at hcopies
  exact ⟨text, g'', root'', hwrite, hreads,
    (hcopies.write_eq hread'.lt_size hwritten hwf'').trans hwrite⟩

end Graph

/-! ## Any graph -/

namespace History

/-- **The text of a node reads back.** In a graph that any calls lead to, let the
names that `root` is computed from be words, and the lines of its text, with
their ends, no longer than the reader allows. Then:
- the text is written and read without an error;
- the graph read is a copy of what `root` is computed from (`Graph.Copies`);
- the text of that graph is left as it is by reading and writing. -/
theorem text_round_trip {hash : Node → Hashcode} {cs : List GraphCall} {g : Graph}
    (hg : ((start hash).calls cs).graph = g) {root : NodeId} (hroot : root < g.nodes.size)
    (hnames : ∀ (id : NodeId) (v : Nat) (name : Bytes), g.Reaches root id →
      g.nodes[id]? = some (.input v) → g.vars[v]? = some name → name ≠ [] ∧ name.Solid)
    (hshort : ∀ id, g.Reaches root id → (g.lineOf id).line.length ≤ Graph.lineLimit) :
    ∃ text g' root', g.write root = .ok text ∧ Graph.read text = .ok (g', root') ∧
      g.Copies root (g.written root) g' root' ∧
      ∃ text' g'' root'', g'.write root' = .ok text' ∧ Graph.read text' = .ok (g'', root'') ∧
        g''.write root'' = .ok text' := by
  have hwf : g.WellFormed := hg ▸ (Sound.calls cs (sound_start hash)).graph
  have hreadable : g.Readable root := by
    refine ⟨hroot, fun id n hreach hn v name hinput hname => ?_, hshort⟩
    exact hnames id v name hreach (hinput ▸ hn) hname
  obtain ⟨text, g', root', hwrite, hread, hwf', hcopies⟩ := hreadable.read_write hwf
  exact ⟨text, g', root', hwrite, hread, hcopies, hcopies.write_read_write hwf' hreadable⟩

theorem sharedSums_written : sharedSums.graph.written 5 = [0, 1, 5] := by
  simp [Graph.written, Graph.reachable, Graph.sweep, Node.args, sharedSums_tables, List.range_succ]

/-- The nodes between `y` and `y - x` are not written, and in what is read the
difference is the third node. -/
theorem text_round_trip_sharedSums :
    sharedSums.graph.write 5 = .ok (utf8 "_0 var-x\n_1 var-y\n_5 sub _1 _0\n") ∧
    ∃ g', Graph.read (utf8 "_0 var-x\n_1 var-y\n_5 sub _1 _0\n") = .ok (g', 2) ∧
      sharedSums.graph.Copies 5 [0, 1, 5] g' 2 := by
  obtain ⟨hvars, hnodes, -⟩ := sharedSums_tables
  have hroot : 5 < sharedSums.graph.nodes.size := by simp [hnodes]
  have hwf : sharedSums.graph.WellFormed := (Sound.calls _ (sound_start _)).graph
  have hlines : sharedSums.graph.lineOf 0 = utf8 "_0 var-x" ∧
      sharedSums.graph.lineOf 1 = utf8 "_1 var-y" ∧
      sharedSums.graph.lineOf 5 = utf8 "_5 sub _1 _0" := by
    rw [Graph.lineOf_eq (n := .input 0) (by simp [hnodes]),
      Graph.lineOf_eq (n := .input 1) (by simp [hnodes]),
      Graph.lineOf_eq (n := .binary .sub 1 0) (by simp [hnodes])]
    simp only [Graph.words, Graph.varName, hvars]
    decide +kernel
  have hwrite : sharedSums.graph.write 5 = .ok (utf8 "_0 var-x\n_1 var-y\n_5 sub _1 _0\n") := by
    rw [Graph.write_eq hroot, sharedSums_written]
    simp only [List.map_cons, List.map_nil, hlines]
    decide +kernel
  have hreach : ∀ id, sharedSums.graph.Reaches 5 id → id = 0 ∨ id = 1 ∨ id = 5 := fun id h => by
    simpa [sharedSums_written] using (hwf.mem_written hroot).2 h
  have haxes : ∀ name ∈ Graph.axes, name ≠ [] ∧ ∀ b ∈ name, Bytes.isGraphic b = true := by
    decide +kernel
  obtain ⟨text, g', root', htext, hread, hcopies, -⟩ := text_round_trip (g := sharedSums.graph) rfl
    hroot
    (fun id v name h hinput hname => by
      have hmem : name ∈ Graph.axes := by
        rw [hvars] at hname
        simpa using Array.mem_of_getElem? hname
      exact ⟨(haxes name hmem).1, Bytes.solid_of_graphic (haxes name hmem).2⟩)
    (fun id h => by
      rcases hreach id h with rfl | rfl | rfl
      · rw [hlines.1]; decide +kernel
      · rw [hlines.2.1]; decide +kernel
      · rw [hlines.2.2]; decide +kernel)
  rw [sharedSums_written] at hcopies
  obtain rfl := Except.ok.inj (hwrite.symm.trans htext)
  obtain rfl : 2 = root' := by
    have hlast := hcopies.last
    rw [hcopies.size] at hlast
    exact (Nat.succ.inj hlast).symm
  exact ⟨hwrite, g', hread, hcopies⟩

end History

end ScalarField
