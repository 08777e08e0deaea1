/-
Which expressions share a node.

An expression is inserted into a graph when the node of each of its parts has
been asked for, the operands being the answers for the parts below it
(`History.Inserted`); in which order, how often and with which other calls in
between does not matter. Two expressions that are inserted have the same
number exactly if they are alike: equal but for the order of operands that may
be swapped and for the payload of NaN constants
(`History.inserted_eq_iff_alike`).

That alike expressions have one number goes by induction on how they are
alike, since nodes of a graph are pairwise different. The converse goes by
induction on one of the expressions: canonical nodes that are equal come from
nodes whose operands are equal, up to a swap.
-/
import ScalarField.Proofs.Graph.Interning
import ScalarField.Proofs.Number.Payload

namespace ScalarField

/-- An expression as it is written. -/
inductive Expression where
  | var (name : Bytes)
  | const (value : Binary64)
  | unary (op : UnaryOp) (a : Expression)
  | binary (op : BinaryOp) (a b : Expression)
  deriving DecidableEq

namespace Expression

/-- The number of its parts. -/
def size : Expression → Nat
  | .var _ | .const _ => 1
  | .unary _ a => a.size + 1
  | .binary _ a b => a.size + b.size + 1

/-- The operators whose operands may be swapped. -/
def swappable : List BinaryOp := [.add, .mul, .min, .max]

/-- Equal up to the order of the operands of `add`, `mul`, `min` and `max`, at
any depth, and up to which NaN a constant is. -/
inductive Alike : Expression → Expression → Prop where
  | var (name : Bytes) : Alike (.var name) (.var name)
  | const {v w : Binary64} (h : v.Same w) : Alike (.const v) (.const w)
  | unary (u : UnaryOp) {a b : Expression} (h : Alike a b) : Alike (.unary u a) (.unary u b)
  | binary (o : BinaryOp) {a b c d : Expression} (hl : Alike a c) (hr : Alike b d) :
    Alike (.binary o a b) (.binary o c d)
  | swapped {o : BinaryOp} (ho : o ∈ swappable) {a b c d : Expression} (hl : Alike a d)
    (hr : Alike b c) : Alike (.binary o a b) (.binary o c d)

theorem mem_swappable {o : BinaryOp} : o ∈ swappable ↔ o.isCommutative = true := by
  cases o <;> decide

end Expression

/-! ## Nodes with one canonical form -/

namespace Node

/-- Equal up to the order of operands that may be swapped and up to which NaN a
constant is. -/
inductive Alike : Node → Node → Prop where
  | input (v : Nat) : Alike (.input v) (.input v)
  | const {v w : Binary64} (h : v.Same w) : Alike (.const v) (.const w)
  | unary (u : UnaryOp) (a : NodeId) : Alike (.unary u a) (.unary u a)
  | binary (o : BinaryOp) (a b : NodeId) : Alike (.binary o a b) (.binary o a b)
  | swapped {o : BinaryOp} (ho : o ∈ Expression.swappable) (a b : NodeId) :
    Alike (.binary o a b) (.binary o b a)

theorem canonical_swap {o : BinaryOp} (ho : o.isCommutative = true) (a b : NodeId) :
    canonical (.binary o a b) = canonical (.binary o b a) := by
  rcases Nat.lt_trichotomy a b with h | rfl | h
  · simp [canonical, ho, h, Nat.lt_asymm h]
  · rfl
  · simp [canonical, ho, h, Nat.lt_asymm h]

/-- The canonical form of a constant tells which number it is, if it is one. -/
theorem canonical_const_eq {v w : Binary64} :
    canonical (.const v) = canonical (.const w) ↔ v.Same w := by
  simp only [canonical, Node.const.injEq]
  constructor
  · intro h
    split at h <;> split at h
    · exact .of_isNaN ‹_› ‹_›
    · rename_i hw
      simp [← h, Format.HasNaN.nan_isNaN] at hw
    · rename_i hv _
      simp [h, Format.HasNaN.nan_isNaN] at hv
    · exact .inl h
  · rintro (rfl | ⟨hv, hw⟩)
    · rfl
    · rw [if_pos hv, if_pos hw]

theorem canonical_binary (o : BinaryOp) (a b : NodeId) :
    canonical (.binary o a b) = .binary o a b ∨
      o.isCommutative = true ∧ canonical (.binary o a b) = .binary o b a := by
  simp only [canonical]
  split
  · rename_i h
    exact .inr ⟨(Bool.and_eq_true _ _ ▸ h).1, rfl⟩
  · exact .inl rfl

theorem canonical_op (n : Node) : n.canonical.op = n.op := by
  cases n with
  | binary o a b =>
    rcases canonical_binary o a b with h | ⟨-, h⟩
    · rw [h]
    · rw [h]
      rfl
  | _ => rfl

/-- Nodes with the same canonical form are alike, and the other way round. -/
theorem canonical_eq_iff {n m : Node} : n.canonical = m.canonical ↔ n.Alike m := by
  constructor
  · intro h
    have hop : n.op = m.op := by rw [← canonical_op n, h, canonical_op]
    cases n <;> cases m <;> simp only [op, reduceCtorEq, Op.unary.injEq, Op.binary.injEq] at hop
    case input.input v w =>
      obtain rfl : v = w := by simpa [canonical] using h
      exact .input v
    case const.const v w => exact .const (canonical_const_eq.1 h)
    case unary.unary u a u' a' =>
      subst hop
      obtain rfl : a = a' := by simpa [canonical] using h
      exact .unary u a
    case binary.binary o a b o' c d =>
      subst hop
      rcases canonical_binary o a b with hn | ⟨ho, hn⟩ <;>
        rcases canonical_binary o c d with hm | ⟨ho', hm⟩ <;>
        rw [hn, hm] at h <;> cases h
      · exact .binary o a b
      · exact .swapped (Expression.mem_swappable.2 ho') a b
      · exact .swapped (Expression.mem_swappable.2 ho) a b
      · exact .binary o a b
  · intro h
    cases h with
    | const hv => exact canonical_const_eq.2 hv
    | swapped ho a b => exact canonical_swap (Expression.mem_swappable.1 ho) a b
    | _ => rfl

end Node

/-! ## Insertion -/

namespace History

/-- An expression is inserted, with the number `id`: the node of each part has
been asked for, with the answers for the parts below as operands. -/
inductive Inserted (H : History) : Expression → NodeId → Prop where
  | var {c : GraphCall} {id : NodeId} {i : Nat} {name : Bytes} (hc : (c, id) ∈ H.answers)
    (hask : c.Asks H.graph.vars (.input i)) (hname : H.graph.vars[i]? = some name) :
    Inserted H (.var name) id
  | const {c : GraphCall} {id : NodeId} {v : Binary64} (hc : (c, id) ∈ H.answers)
    (hask : c.Asks H.graph.vars (.const v)) : Inserted H (.const v) id
  | unary {c : GraphCall} {id : NodeId} {u : UnaryOp} {e : Expression} {a : NodeId}
    (he : Inserted H e a) (hc : (c, id) ∈ H.answers) (hask : c.Asks H.graph.vars (.unary u a)) :
    Inserted H (.unary u e) id
  | binary {c : GraphCall} {id : NodeId} {o : BinaryOp} {e f : Expression} {a b : NodeId}
    (he : Inserted H e a) (hf : Inserted H f b) (hc : (c, id) ∈ H.answers)
    (hask : c.Asks H.graph.vars (.binary o a b)) : Inserted H (.binary o e f) id

variable {H : History}

/-- Alike expressions have one number. -/
theorem Sound.eq_of_alike (h : H.Sound) {e f : Expression} (hef : e.Alike f) :
    ∀ {i j : NodeId}, H.Inserted e i → H.Inserted f j → i = j := by
  induction hef with
  | var name =>
    rintro i j (⟨hc, hask, hname⟩) (⟨hc', hask', hname'⟩)
    obtain rfl := h.graph.var_unique hname hname'
    exact h.graph.distinct (h.node hc hask) (h.node hc' hask')
  | const hvw =>
    rintro i j (_ | ⟨hc, hask⟩) (_ | ⟨hc', hask'⟩)
    exact h.graph.distinct (h.node hc hask)
      (Node.canonical_const_eq.2 hvw ▸ h.node hc' hask')
  | unary u _ ih =>
    rintro i j (_ | _ | ⟨he, hc, hask⟩) (_ | _ | ⟨hf, hc', hask'⟩)
    obtain rfl := ih he hf
    exact h.graph.distinct (h.node hc hask) (h.node hc' hask')
  | binary o _ _ ihl ihr =>
    rintro i j (_ | _ | _ | ⟨hl, hr, hc, hask⟩) (_ | _ | _ | ⟨hl', hr', hc', hask'⟩)
    obtain rfl := ihl hl hl'
    obtain rfl := ihr hr hr'
    exact h.graph.distinct (h.node hc hask) (h.node hc' hask')
  | swapped ho _ _ ihl ihr =>
    rintro i j (_ | _ | _ | ⟨hl, hr, hc, hask⟩) (_ | _ | _ | ⟨hl', hr', hc', hask'⟩)
    obtain rfl := ihl hl hr'
    obtain rfl := ihr hr hl'
    exact h.graph.distinct (h.node hc hask)
      (Node.canonical_swap (Expression.mem_swappable.1 ho) _ _ ▸ h.node hc' hask')

theorem Sound.node_alike (h : H.Sound) {c d : GraphCall} {id : NodeId} {n m : Node}
    (hc : (c, id) ∈ H.answers) (hn : c.Asks H.graph.vars n) (hd : (d, id) ∈ H.answers)
    (hm : d.Asks H.graph.vars m) : n.Alike m :=
  Node.canonical_eq_iff.1 (Option.some.inj ((h.node hc hn).symm.trans (h.node hd hm)))

/-- Expressions that have one number are alike. -/
theorem Sound.alike (h : H.Sound) {e : Expression} {id : NodeId} (he : H.Inserted e id) :
    ∀ {f : Expression}, H.Inserted f id → e.Alike f := by
  induction he with
  | var hc hask hname =>
    intro f hf
    cases hf with
    | var hc' hask' hname' =>
      cases h.node_alike hc hask hc' hask'
      obtain rfl : _ = _ := Option.some.inj (hname.symm.trans hname')
      exact .var _
    | _ => cases h.node_alike hc hask ‹_› ‹_›
  | const hc hask =>
    intro f hf
    cases hf with
    | const hc' hask' =>
      cases h.node_alike hc hask hc' hask' with
      | const hvw => exact .const hvw
    | _ => cases h.node_alike hc hask ‹_› ‹_›
  | unary he hc hask ih =>
    intro f hf
    cases hf with
    | unary he' hc' hask' =>
      cases h.node_alike hc hask hc' hask'
      exact .unary _ (ih he')
    | _ => cases h.node_alike hc hask ‹_› ‹_›
  | binary hl hr hc hask ihl ihr =>
    intro f hf
    cases hf with
    | binary hl' hr' hc' hask' =>
      cases h.node_alike hc hask hc' hask' with
      | binary => exact .binary _ (ihl hl') (ihr hr')
      | swapped ho => exact .swapped ho (ihl hr') (ihr hl')
    | _ => cases h.node_alike hc hask ‹_› ‹_›

/-! ## Every expression can be inserted -/

theorem calls_append (H : History) (cs ds : List GraphCall) :
    H.calls (cs ++ ds) = (H.calls cs).calls ds := List.foldl_append

theorem calls_concat (H : History) (cs : List GraphCall) (c : GraphCall) :
    H.calls (cs ++ [c]) = (H.calls cs).call c := H.calls_append cs [c]

/-- What has been inserted stays inserted. -/
theorem Inserted.call (h : H.Sound) {e : Expression} {id : NodeId} (he : H.Inserted e id)
    (d : GraphCall) : (H.call d).Inserted e id := by
  have hgrows := (h.call d).2
  have hkept : ∀ {c : GraphCall} {k : NodeId}, (c, k) ∈ H.answers → (c, k) ∈ (H.call d).answers :=
    fun hc => mem_call.2 (.inl hc)
  induction he with
  | var hc hask hname => exact .var (hkept hc) (hask.mono hgrows.vars) (hgrows.var hname)
  | const hc hask => exact .const (hkept hc) (hask.mono hgrows.vars)
  | unary _ hc hask ih => exact .unary ih (hkept hc) (hask.mono hgrows.vars)
  | binary _ _ hc hask ihl ihr => exact .binary ihl ihr (hkept hc) (hask.mono hgrows.vars)

theorem Inserted.calls : ∀ (cs : List GraphCall) {H : History}, H.Sound → ∀ {e : Expression}
    {id : NodeId}, H.Inserted e id → (H.calls cs).Inserted e id
  | [], _, _, _, _, he => he
  | c :: rest, _, h, _, _, he => Inserted.calls rest (h.call c).1 (he.call h c)

theorem Inserted.lt (h : H.Sound) {e : Expression} {id : NodeId} (he : H.Inserted e id) :
    id < H.graph.nodes.size := by
  obtain ⟨c, n, hc, hask⟩ : ∃ c n, (c, id) ∈ H.answers ∧ c.Asks H.graph.vars n := by
    cases he <;> exact ⟨_, _, ‹_›, ‹_›⟩
  exact (Array.getElem?_eq_some_iff.1 (h.node hc hask)).1

theorem insert_toInstr {g : Graph} {n : Node} (hadm : g.Admits n)
    (hroom : g.nodes.size < Graph.capacity) : ∃ r, g.insert n.toInstr = .ok r :=
  Graph.insert_of_room
    (Graph.node?_eq_ok.2 ⟨n.node?_toInstr, hadm, fun _ => n.toInstr_var_nonneg⟩) hroom

theorem Sound.answer (h : H.Sound) {e : Expression} {c : GraphCall}
    (hcall : ∃ id, (H.graph.call c).1 = some id)
    (he : ∀ id, (c, id) ∈ (H.call c).answers → (H.call c).Inserted e id) :
    ∃ id, (H.call c).Inserted e id ∧ (H.call c).graph.nodes.size ≤ H.graph.nodes.size + 1 := by
  obtain ⟨id, hid⟩ := hcall
  refine ⟨id, he id (mem_call.2 (.inr ⟨rfl, hid⟩)), ?_⟩
  rw [call_graph]
  exact (h.graph.call c).size_le

theorem Sound.answer_node (h : H.Sound) {e : Expression} {n : Node} (hadm : H.graph.Admits n)
    (hroom : H.graph.nodes.size < Graph.capacity)
    (he : ∀ {id}, (.insert n.toInstr, id) ∈ (H.call (.insert n.toInstr)).answers →
      GraphCall.Asks (H.call (.insert n.toInstr)).graph.vars (.insert n.toInstr) n →
      (H.call (.insert n.toInstr)).Inserted e id) :
    ∃ c id, (H.call c).Inserted e id ∧ (H.call c).graph.nodes.size ≤ H.graph.nodes.size + 1 := by
  obtain ⟨⟨k, g⟩, hk⟩ := insert_toInstr hadm hroom
  refine ⟨_, h.answer ⟨k, ?_⟩ fun id hid => he hid n.node?_toInstr⟩
  simp only [Graph.call, hk, Graph.answer]

/-- There are calls that insert an expression, where the graph has room for its
parts. -/
theorem Sound.insertable : ∀ (e : Expression) {H : History}, H.Sound →
    H.graph.nodes.size + e.size ≤ Graph.capacity →
    ∃ cs id, (H.calls cs).Inserted e id ∧
      (H.calls cs).graph.nodes.size ≤ H.graph.nodes.size + e.size
  | .var name, H, h, hroom => by
    obtain ⟨-, -, hnodes, hname⟩ := h.graph.register name
    have hlt := (Array.getElem?_eq_some_iff.1 hname).1
    obtain ⟨⟨k, g⟩, hk⟩ := insert_toInstr (Graph.admits_input.2 hlt) (hnodes ▸ hroom)
    have hanswer : (H.graph.call (.var name)).1 = some k := by
      simp only [Graph.call, Graph.var]
      rw [show (H.graph.register name).2.input (H.graph.register name).1 = .ok (k, g) from hk]
    obtain ⟨id, hid, hsize⟩ := h.answer (e := .var name) ⟨k, hanswer⟩ fun id hid => by
      obtain ⟨n, ⟨i, hi, rfl⟩, -⟩ := (h.call (.var name)).1.answered hid
      exact .var hid ⟨i, hi, rfl⟩ hi
    exact ⟨[.var name], id, hid, hsize⟩
  | .const v, H, h, hroom => by
    obtain ⟨c, id, hid, hsize⟩ := h.answer_node (e := .const v) (Graph.admits_const v) hroom
      fun hc hask => .const hc hask
    exact ⟨[c], id, hid, hsize⟩
  | .unary u e, H, h, hroom => by
    simp only [Expression.size] at hroom ⊢
    obtain ⟨cs, a, he, hsize⟩ := Sound.insertable e h (by omega)
    have h₁ := Sound.calls cs h
    obtain ⟨c, id, hid, hsize'⟩ := h₁.answer_node (e := .unary u e)
      (Graph.admits_unary.2 (he.lt h₁)) (by omega) fun hc hask => .unary (he.call h₁ _) hc hask
    exact ⟨cs ++ [c], id, by rw [calls_concat]; exact hid, by rw [calls_concat]; omega⟩
  | .binary o e f, H, h, hroom => by
    simp only [Expression.size] at hroom ⊢
    obtain ⟨cs, a, he, hsize⟩ := Sound.insertable e h (by omega)
    have h₁ := Sound.calls cs h
    obtain ⟨ds, b, hf, hsize'⟩ := Sound.insertable f h₁ (by omega)
    have h₂ := Sound.calls ds h₁
    have he' := Inserted.calls ds h₁ he
    obtain ⟨c, id, hid, hsize''⟩ := h₂.answer_node (e := .binary o e f)
      (Graph.admits_binary.2 ⟨he'.lt h₂, hf.lt h₂⟩) (by omega)
      fun hc hask => .binary (he'.call h₂ _) (hf.call h₂ _) hc hask
    refine ⟨cs ++ (ds ++ [c]), id, ?_, ?_⟩
    · rw [calls_append, calls_concat]
      exact hid
    · rw [calls_append, calls_concat]
      omega

/-- **Equal expressions are one node, and only these.** After any calls to a
new graph, with any hash, two expressions that are inserted have the same
number if and only if they are equal up to swapping the operands of `add`,
`mul`, `min` and `max` at any depth and up to which NaN a constant is. And any
expression can be inserted that the graph has room for. -/
theorem inserted_eq_iff_alike (hash : Node → Hashcode) (cs : List GraphCall) :
    (∀ (e f : Expression) (i j : NodeId), ((start hash).calls cs).Inserted e i →
      ((start hash).calls cs).Inserted f j → (i = j ↔ e.Alike f)) ∧
    ∀ e : Expression, ((start hash).calls cs).graph.nodes.size + e.size ≤ Graph.capacity →
      ∃ more id, ((start hash).calls (cs ++ more)).Inserted e id := by
  have h : ((start hash).calls cs).Sound := Sound.calls cs (sound_start hash)
  refine ⟨fun e f i j he hf => ⟨?_, fun hef => h.eq_of_alike hef he hf⟩, fun e hroom => ?_⟩
  · rintro rfl
    exact h.alike he hf
  · obtain ⟨more, id, hid, -⟩ := Sound.insertable e h hroom
    exact ⟨more, id, by rw [calls_append]; exact hid⟩

/-- The expression `min(y, x) + x`. -/
def lowerPlusX : Expression :=
  .binary .add (.binary .min (.var (utf8 "y")) (.var (utf8 "x"))) (.var (utf8 "x"))

/-- The expression `x + min(x, y)`. -/
def xPlusLower : Expression :=
  .binary .add (.var (utf8 "x")) (.binary .min (.var (utf8 "x")) (.var (utf8 "y")))

/-- Both, then `x - y` and `y - x`, inserted into a graph with one bucket for
all nodes. -/
def sharedSums : History :=
  (start fun _ => (0, 0)).calls [.var (utf8 "x"), .var (utf8 "y"),
    .binary BinaryOp.min.code 1 0, .binary BinaryOp.add.code 2 0,
    .binary BinaryOp.min.code 0 1, .binary BinaryOp.add.code 0 2,
    .binary BinaryOp.sub.code 0 1, .binary BinaryOp.sub.code 1 0]

theorem sharedSums_tables :
    sharedSums.graph.vars = Graph.axes.toArray ∧
      sharedSums.graph.nodes =
        #[.input 0, .input 1, .binary .min 0 1, .binary .add 0 2, .binary .sub 0 1,
          .binary .sub 1 0] ∧
      sharedSums.answers =
        [(.binary BinaryOp.sub.code 1 0, 5), (.binary BinaryOp.sub.code 0 1, 4),
          (.binary BinaryOp.add.code 0 2, 3), (.binary BinaryOp.min.code 0 1, 2),
          (.binary BinaryOp.add.code 2 0, 3), (.binary BinaryOp.min.code 1 0, 2),
          (.var (utf8 "y"), 1), (.var (utf8 "x"), 0)] := by
  have hx : utf8 "x" = [120] := by decide +kernel
  have hy : utf8 "y" = [121] := by decide +kernel
  have hz : utf8 "z" = [122] := by decide +kernel
  have hmin : Op.ofCode? BinaryOp.min.code = some (.binary .min) := by decide
  have hadd : Op.ofCode? BinaryOp.add.code = some (.binary .add) := by decide
  have hsub : Op.ofCode? BinaryOp.sub.code = some (.binary .sub) := by decide
  simp [start, calls, sharedSums, History.call, Graph.call, Graph.var, Graph.register,
    Graph.emptyWith, Graph.bare, Graph.axes, Std.HashMap.getElem_insert, hx, hy, hz, Graph.input,
    Graph.insert, Graph.node?, Instr.op?, Graph.intern, Graph.find?, Node.canonical,
    Graph.capacity, Graph.binary, Graph.answer, Op.ofCode?_code, Op.arityOfCode, Op.arity, hmin,
    hadd, hsub, BinaryOp.isCommutative]

theorem sharedSums_var {name : Bytes} {id : NodeId} {i : Nat}
    (hc : (.var name, id) ∈ sharedSums.answers) (hi : Graph.axes[i]? = some name) :
    sharedSums.Inserted (.var name) id := by
  have hname : sharedSums.graph.vars[i]? = some name := by
    rw [sharedSums_tables.1]
    simpa using hi
  exact .var hc ⟨i, hname, rfl⟩ hname

theorem sharedSums_inserted :
    sharedSums.Inserted lowerPlusX 3 ∧ sharedSums.Inserted xPlusLower 3 ∧
      sharedSums.Inserted (.binary .sub (.var (utf8 "x")) (.var (utf8 "y"))) 4 ∧
      sharedSums.Inserted (.binary .sub (.var (utf8 "y")) (.var (utf8 "x"))) 5 := by
  have hall := sharedSums_tables.2.2
  have hx : sharedSums.Inserted (.var (utf8 "x")) 0 := sharedSums_var (i := 0) (by simp [hall]) rfl
  have hy : sharedSums.Inserted (.var (utf8 "y")) 1 := sharedSums_var (i := 1) (by simp [hall]) rfl
  have hmin : sharedSums.Inserted (.binary .min (.var (utf8 "y")) (.var (utf8 "x"))) 2 :=
    .binary (c := .binary BinaryOp.min.code 1 0) hy hx (by simp [hall]) rfl
  have hmin' : sharedSums.Inserted (.binary .min (.var (utf8 "x")) (.var (utf8 "y"))) 2 :=
    .binary (c := .binary BinaryOp.min.code 0 1) hx hy (by simp [hall]) rfl
  refine ⟨?_, ?_, ?_, ?_⟩
  · exact .binary (c := .binary BinaryOp.add.code 2 0) hmin hx (by simp [hall]) rfl
  · exact .binary (c := .binary BinaryOp.add.code 0 2) hx hmin' (by simp [hall]) rfl
  · exact .binary (c := .binary BinaryOp.sub.code 0 1) hx hy (by simp [hall]) rfl
  · exact .binary (c := .binary BinaryOp.sub.code 1 0) hy hx (by simp [hall]) rfl

/-- The two sums are one node, and the two differences are two. -/
theorem inserted_eq_iff_alike_sharedSums :
    lowerPlusX.Alike xPlusLower ∧
      ¬(Expression.binary .sub (.var (utf8 "x")) (.var (utf8 "y"))).Alike
        (.binary .sub (.var (utf8 "y")) (.var (utf8 "x"))) := by
  obtain ⟨hlower, hlower', hsub, hsub'⟩ := sharedSums_inserted
  have hiff := (inserted_eq_iff_alike _ _).1 _ _ _ _ hlower hlower'
  have hiff' := (inserted_eq_iff_alike _ _).1 _ _ _ _ hsub hsub'
  exact ⟨hiff.1 rfl, fun h => absurd (hiff'.2 h) (by decide)⟩

end History

end ScalarField
