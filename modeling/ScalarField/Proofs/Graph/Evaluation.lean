/-
Building an expression and running its tape means what was written
(`History.tape_computes`).

Every node has the value of its operator on the values of its operands, so the
number of an expression has, by induction on how the expression was inserted,
the value of the expression. There are two differences in between: a NaN
constant is stored as another NaN, and operands may be stored swapped. Neither
shows but for the payload of a NaN, opposite zeros under `min` and `max` apart.
-/
import ScalarField.Proofs.Graph.Sharing
import ScalarField.Proofs.Number.Operands
import ScalarField.Proofs.Tape.OfGraph

namespace ScalarField

/-! ## Values -/

namespace Expression

variable {α : Type}

/-- The value of an expression, operands in the order in which they stand. -/
def value (I : Interp α) (env : Bytes → α) : Expression → α
  | .var name => env name
  | .const v => I.const v
  | .unary u a => I.unary u (a.value I env)
  | .binary o a b => I.binary o (a.value I env) (b.value I env)

/-- At no `min` or `max` of an expression do the two zeros meet. -/
def NoZeroTie (env : Bytes → Binary64) : Expression → Prop
  | .var _ | .const _ => True
  | .unary _ a => a.NoZeroTie env
  | .binary o a b => a.NoZeroTie env ∧ b.NoZeroTie env ∧
    (o = .min ∨ o = .max → ¬(a.value .point env).OppositeZeros (b.value .point env))

end Expression

namespace Graph

variable {α : Type} {I : Interp α} {g : Graph} {inputs values : Array α} {outputs : List NodeId}

/-- The input of the variable of a name. -/
def inputOf (g : Graph) (inputs : Array Binary64) (name : Bytes) : Binary64 :=
  (inputs[g.vars.toList.idxOf name]?).getD .zero

theorem WellFormed.inputOf_eq (hwf : g.WellFormed) {inputs : Array Binary64}
    (hin : inputs.size = g.vars.size) {i : Nat} {name : Bytes} (hi : g.vars[i]? = some name) :
    inputs[i]? = some (g.inputOf inputs name) := by
  have hmem : name ∈ g.vars.toList := by
    rw [Array.mem_toList_iff]
    exact Array.mem_of_getElem? hi
  have hidx : g.vars[g.vars.toList.idxOf name]? = some name := by
    rw [← Array.getElem?_toList]
    exact List.getElem?_idxOf hmem
  have hlt : i < inputs.size := hin ▸ (Array.getElem?_eq_some_iff.1 hi).1
  rw [inputOf, hwf.var_unique hidx hi, Array.getElem?_eq_getElem hlt, Option.getD_some]

/-- The value of a node, given those of the nodes it refers to. -/
def valueAt (I : Interp α) (inputs : Array α) (read : NodeId → Option α) : Node → Option α
  | .input v => inputs[v]?
  | .const c => some (I.const c)
  | .unary u a => (read a).map (I.unary u)
  | .binary o a b => (read a).bind fun x => (read b).map (I.binary o x)

theorem toTape_value (hv : (g.toTape outputs).Means I inputs values) {id : NodeId} {n : Node}
    (hn : g.nodes[id]? = some n) : values[id]? = valueAt I inputs (values[·]?) n := by
  have hop := n.toInstr_op?
  rw [← hv.slot (toTape_instr.2 ⟨n, hn, rfl⟩)]
  cases n with
  | input v =>
    have hvar : ¬((v : Int) < 0) := Int.not_lt.2 (Int.natCast_nonneg v)
    simp only [Instr.outcome?, hop, Node.op]
    cases hx : inputs[v]? <;> simp [Node.toInstr, valueAt, hvar, hx]
  | const c =>
    simp only [Instr.outcome?, hop, Node.op]
    rfl
  | unary u a =>
    simp only [Instr.outcome?, hop, Node.op]
    cases hx : values[a]? <;> simp [Node.toInstr, valueAt, hx]
  | binary o a b =>
    simp only [Instr.outcome?, hop, Node.op]
    cases hx : values[a]? <;> cases hy : values[b]? <;> simp [Node.toInstr, valueAt, hx, hy]

end Graph

/-! ## Expressions in a graph -/

namespace History

variable {H : History} {inputs values : Array Binary64} {outputs : List NodeId}

/-- The node of a binary operator has the value of the operator, though its
operands may stand swapped. -/
theorem Sound.binary_value (h : H.Sound) (hv : (H.graph.toTape outputs).Means .point inputs values)
    {c : GraphCall} {id a b : NodeId} {o : BinaryOp} (hc : (c, id) ∈ H.answers)
    (hask : c.Asks H.graph.vars (.binary o a b)) {x y : Binary64} (hx : values[a]? = some x)
    (hy : values[b]? = some y) :
    values[id]? = some (Scalar.binary o x y) ∨
      o.isCommutative = true ∧ values[id]? = some (Scalar.binary o y x) := by
  have hn := h.node hc hask
  rcases Node.canonical_binary o a b with hcanon | ⟨ho, hcanon⟩
  · rw [hcanon] at hn
    exact .inl (by simp [Graph.toTape_value hv hn, Graph.valueAt, hx, hy, Interp.point])
  · rw [hcanon] at hn
    exact .inr ⟨ho, by simp [Graph.toTape_value hv hn, Graph.valueAt, hx, hy, Interp.point]⟩

/-- The number of an expression has the value of the expression, up to the
payload of a NaN. -/
theorem Sound.value (h : H.Sound) (hv : (H.graph.toTape outputs).Means .point inputs values)
    {env : Bytes → Binary64}
    (henv : ∀ {i : Nat} {name : Bytes}, H.graph.vars[i]? = some name → inputs[i]? = some (env name))
    {e : Expression} {id : NodeId} (he : H.Inserted e id) (htie : e.NoZeroTie env) :
    ∃ v, values[id]? = some v ∧ v.Same (e.value .point env) := by
  induction he with
  | var hc hask hname =>
    have hvalue := Graph.toTape_value hv (h.node hc hask)
    exact ⟨_, hvalue.trans (henv hname), .refl _⟩
  | @const c id v hc hask =>
    have hvalue := Graph.toTape_value hv (h.node hc hask)
    refine ⟨_, hvalue, ?_⟩
    show (if v.isNaN then Binary.nan else v).Same v
    split
    · exact .of_isNaN Format.HasNaN.nan_isNaN ‹_›
    · exact .refl v
  | unary _ hc hask ih =>
    obtain ⟨x, hx, hsame⟩ := ih htie
    have hvalue := Graph.toTape_value hv (h.node hc hask)
    simp only [Node.canonical, Graph.valueAt, hx, Option.map_some] at hvalue
    exact ⟨_, hvalue, Scalar.unary_same _ hsame⟩
  | @binary c id o e f a b _ _ hc hask ihl ihr =>
    obtain ⟨hl, hr, hzero⟩ := htie
    obtain ⟨x, hx, hxs⟩ := ihl hl
    obtain ⟨y, hy, hys⟩ := ihr hr
    rcases h.binary_value hv hc hask hx hy with hvalue | ⟨ho, hvalue⟩
    · exact ⟨_, hvalue, Scalar.binary_same o hxs hys⟩
    · refine ⟨_, hvalue, (Scalar.binary_same o hys hxs).trans (.inl ?_)⟩
      exact (Scalar.binary_swap ho hzero).symm

/-- **A tape computes the expression it was built for.** After any calls to a
new graph in the course of which an expression was inserted, there is a tape
for its number. For any inputs, one for each variable, the tape gives the value
of the expression on the inputs of its variables, operands in the order in
which they stand and up to the payload of a NaN, if at no `min` or `max` of the
expression the two zeros meet. -/
theorem tape_computes (hash : Node → Hashcode) (cs : List GraphCall) (e : Expression) (id : NodeId)
    (inputs : Array Binary64) (he : ((start hash).calls cs).Inserted e id)
    (hin : inputs.size = ((start hash).calls cs).graph.vars.size)
    (htie : e.NoZeroTie (((start hash).calls cs).graph.inputOf inputs)) :
    ∃ t v, Tape.build ((start hash).calls cs).graph [id] = .ok t ∧
      t.eval .point inputs = .ok [v] ∧
      v.Same (e.value .point (((start hash).calls cs).graph.inputOf inputs)) := by
  have h : ((start hash).calls cs).Sound := Sound.calls cs (sound_start hash)
  generalize (start hash).calls cs = H at *
  have hlt : ∀ o ∈ [id], o < H.graph.nodes.size := by simpa using he.lt h
  have hwf := h.graph.toTape hlt
  obtain ⟨t, src, ht, hred⟩ := h.graph.build_reduces (by simp) hlt
  have hstill : ∀ a b : Nat, (Tape.Forwarding.still H.graph.nodes.size).forward[a]? = some b →
      ((H.graph.toTape [id]).slotValues .point inputs)[b]? =
        ((H.graph.toTape [id]).slotValues .point inputs)[a]? := by
    intro a b hab
    rw [(Tape.Forwarding.still_forward.1 hab).2]
  obtain ⟨v, hv, hsame⟩ := h.value (hwf.means hin) (h.graph.inputOf_eq hin) he htie
  obtain ⟨out, hout, hall, -⟩ := hwf.eval_eq (I := .point) hin
  have hout' : out = [v] := by
    obtain _ | ⟨hid, _ | _⟩ := hall
    rw [hv] at hid
    rw [Option.some.inj hid]
  exact ⟨t, v, ht, by rw [hred.eval_eq hwf hin hstill, hout, hout'], hsame⟩

/-- `min(y, x) + x` at `x = 3` and `y = -2`. -/
theorem tape_computes_lowerPlusX :
    ∃ t v, Tape.build sharedSums.graph [3] = .ok t ∧
      t.eval .point #[.ofInt 3, .ofInt (-2), .zero] = .ok [v] ∧ v.Same (.ofInt 1) := by
  obtain ⟨hvars, -⟩ := sharedSums_tables
  have hvalue : Scalar.binary .add (Scalar.binary .min (.ofInt (-2)) (.ofInt 3)) (.ofInt 3) =
      (.ofInt 1 : Binary64) := by decide +kernel
  have hzeros : ¬(.ofInt (-2) : Binary64).OppositeZeros (.ofInt 3) := by decide +kernel
  generalize hinputs : (#[.ofInt 3, .ofInt (-2), .zero] : Array Binary64) = inputs
  have hsize : inputs.size = sharedSums.graph.vars.size := by
    simp [← hinputs, hvars, Graph.axes]
  have hx : sharedSums.graph.inputOf inputs (utf8 "x") = .ofInt 3 := by
    rw [Graph.inputOf, hvars, ← hinputs]
    decide +kernel
  have hy : sharedSums.graph.inputOf inputs (utf8 "y") = .ofInt (-2) := by
    rw [Graph.inputOf, hvars, ← hinputs]
    decide +kernel
  rw [← hx, ← hy] at hzeros
  obtain ⟨t, v, ht, hv, hsame⟩ := tape_computes _ _ lowerPlusX 3 inputs sharedSums_inserted.1 hsize
    ⟨⟨trivial, trivial, fun _ => hzeros⟩, trivial, fun h => absurd h (by decide)⟩
  refine ⟨t, v, ht, hv, ?_⟩
  rw [← hvalue, ← hx, ← hy]
  exact hsame

end History

end ScalarField
