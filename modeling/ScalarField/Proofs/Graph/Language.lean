/-
The texts that a graph is read from, told apart from the reader, and the proof
that it reads exactly these (`Graph.read_language`).

A text is a list of lines (`Lines.ofText`). `Script.Conforms` says of one line
whether it may stand behind others, from its words alone, and `Script.Blames`
which line is to be blamed. Along the lines that conform, the reader knows just
the names that these bind, and the node of each (`Reader.Follows`); so one line
is read if and only if it conforms (`Reader.Follows.line`), as long as there is
room for its node. The rest is an induction over the lines.
-/
import ScalarField.Proofs.Graph.RoundTrip

namespace ScalarField

/-! ## The language -/

/-- What a definition says about its name. -/
inductive Clause where
  | var (name : Bytes)
  | const (value : Binary64)
  | unary (op : UnaryOp) (a : Bytes)
  | binary (op : BinaryOp) (a b : Bytes)

namespace Clause

/-- The names that a clause refers to. -/
def operands : Clause → List Bytes
  | .var _ | .const _ => []
  | .unary _ a => [a]
  | .binary _ a b => [a, b]

/-- The words of a clause. -/
inductive Reads : List Bytes → Clause → Prop
  | var {name : Bytes} (h : name ≠ []) : Reads [utf8 "var-" ++ name] (.var name)
  | const {word : Bytes} {value : Binary64} (h : Binary.read .binary64 word = .ok value) :
      Reads [utf8 "const", word] (.const value)
  | unary (op : UnaryOp) (a : Bytes) : Reads [utf8 op.name, a] (.unary op a)
  | binary (op : BinaryOp) (a b : Bytes) : Reads [utf8 op.name, a, b] (.binary op a b)

/-- The node that a clause stands for, `ref` giving the nodes of names. -/
inductive Denotes (vars : Array Bytes) (ref : Bytes → Option NodeId) : Clause → Node → Prop
  | var {name : Bytes} {v : Nat} (h : vars[v]? = some name) :
    Denotes vars ref (.var name) (.input v)
  | const (value : Binary64) : Denotes vars ref (.const value) (Node.const value).canonical
  | unary (op : UnaryOp) {a : Bytes} {i : NodeId} (ha : ref a = some i) :
      Denotes vars ref (.unary op a) (.unary op i)
  | binary (op : BinaryOp) {a b : Bytes} {i j : NodeId} (ha : ref a = some i)
      (hb : ref b = some j) : Denotes vars ref (.binary op a b) (Node.binary op i j).canonical

variable {words : List Bytes} {c c' : Clause}

theorem Reads.ne_nil (h : Reads words c) : words ≠ [] := by
  cases h <;> exact List.cons_ne_nil _ _

theorem op_unique {op op' : Op} (hop : op ∈ Op.all.drop 2) (hop' : op' ∈ Op.all.drop 2)
    (h : utf8 op.name = utf8 op'.name) : op = op' := by
  obtain ⟨-, -, -, -, hfound⟩ := Op.name_word op hop
  obtain ⟨-, -, -, -, hfound'⟩ := Op.name_word op' hop'
  rw [h, hfound'] at hfound
  exact (Option.some.inj hfound).symm

theorem Reads.unique (h : Reads words c) (h' : Reads words c') : c = c' := by
  have hconst : ∀ op ∈ Op.all.drop 2, utf8 op.name ≠ utf8 "const" := fun op hop =>
    (Op.name_word op hop).2.2.2.1
  cases h with
  | var hne =>
    generalize hwords : [utf8 "var-" ++ _] = words at h'
    cases h' with
    | var => rw [List.append_cancel_left (List.singleton_inj.1 hwords)]
    | _ => simp at hwords
  | @const word value hread =>
    generalize hwords : [utf8 "const", word] = words at h'
    cases h' with
    | @const word' value' hread' =>
      obtain rfl : word = word' := by simpa using hwords
      rw [Except.ok.inj (hread.symm.trans hread')]
    | unary op a => exact absurd (List.cons.inj hwords).1.symm (hconst _ (Op.unary_mem op))
    | _ => simp at hwords
  | unary op a =>
    generalize hwords : [utf8 op.name, a] = words at h'
    cases h' with
    | const => exact absurd (List.cons.inj hwords).1 (hconst _ (Op.unary_mem op))
    | unary op' a' =>
      obtain ⟨hname, rfl⟩ : utf8 op.name = utf8 op'.name ∧ a = a' := by simpa using hwords
      rw [Op.unary.inj (op_unique (Op.unary_mem op) (Op.unary_mem op') hname)]
    | _ => simp at hwords
  | binary op a b =>
    generalize hwords : [utf8 op.name, a, b] = words at h'
    cases h' with
    | binary op' a' b' =>
      obtain ⟨hname, rfl, rfl⟩ : utf8 op.name = utf8 op'.name ∧ a = a' ∧ b = b' := by
        simpa using hwords
      rw [Op.binary.inj (op_unique (Op.binary_mem op) (Op.binary_mem op') hname)]
    | _ => simp at hwords

theorem Denotes.mono {vars vars' : Array Bytes} {ref ref' : Bytes → Option NodeId} {n : Node}
    (h : c.Denotes vars ref n) (hvars : vars.toList <+: vars'.toList)
    (href : ∀ a i, ref a = some i → ref' a = some i) : c.Denotes vars' ref' n := by
  cases h with
  | var h => exact .var (Graph.getElem?_of_isPrefix hvars h)
  | const value => exact .const value
  | unary op ha => exact .unary op (href _ _ ha)
  | binary op ha hb => exact .binary op (href _ _ ha) (href _ _ hb)

theorem Denotes.input {vars : Array Bytes} {ref : Bytes → Option NodeId} {i : Nat}
    (h : c.Denotes vars ref (.input i)) : ∃ name, c = .var name ∧ vars[i]? = some name := by
  generalize hn : Node.input i = n at h
  cases h with
  | var h =>
    obtain rfl := Node.input.inj hn
    exact ⟨_, rfl, h⟩
  | const value => exact absurd (Node.canonical_eq_input.1 hn.symm) (by simp)
  | unary op ha => cases hn
  | binary op ha hb => exact absurd (Node.canonical_eq_input.1 hn.symm) (by simp)

end Clause

namespace Script

/-- A line of white space. -/
def IsBlank (l : Bytes) : Prop := ∀ r ∈ Rune.read l, r.isBlank = true

/-- A line whose first character, white space apart, is `#`. -/
def IsComment (l : Bytes) : Prop :=
  ∃ front back, Rune.read l = front ++ .char '#' :: back ∧ ∀ r ∈ front, r.isBlank = true

/-- A line defines a name: it is its first word, and the others are a clause. -/
def Defines (l name : Bytes) (c : Clause) : Prop :=
  ¬IsComment l ∧ ∃ words, l.fields = name :: words ∧ Clause.Reads words c

/-- Some line defines the name. -/
def Binds (ls : List Bytes) (name : Bytes) : Prop := ∃ l ∈ ls, ∃ c, Defines l name c

/-- A line that may stand behind other lines: it is blank, a comment, or a
definition of a new name from names bound before. -/
def Conforms (earlier : List Bytes) (l : Bytes) : Prop :=
  IsBlank l ∨ IsComment l ∨
    ∃ name c, Defines l name c ∧ ¬Binds earlier name ∧ ∀ a ∈ c.operands, Binds earlier a

/-- The lines up to a given number conform. -/
def ConformsUpTo (ls : List Bytes) (n : Nat) : Prop :=
  ∀ k < n, ∀ l, ls[k]? = some l → Conforms (ls.take k) l

/-- Lines that are a text: all of them conform, and one is a definition. -/
structure Language (ls : List Bytes) : Prop where
  conforms : ConformsUpTo ls ls.length
  defines : ∃ name, Binds ls name

/-- The number of the line to blame, counted from one: the first line that does
not conform, or the last one if only a definition is missing. -/
inductive Blames (ls : List Bytes) : Nat → Prop
  | line {k : Nat} {l : Bytes} (hl : ls[k]? = some l) (hbad : ¬Conforms (ls.take k) l)
      (hbefore : ConformsUpTo ls k) : Blames ls (k + 1)
  | missing (hall : ConformsUpTo ls ls.length) (hnone : ∀ name, ¬Binds ls name) :
      Blames ls ls.length

/-- The name that is defined last. -/
def Last (ls : List Bytes) (name : Bytes) : Prop :=
  ∃ earlier l later c, ls = earlier ++ l :: later ∧ Defines l name c ∧ ∀ other, ¬Binds later other

/-- A graph is what the lines say: every name stands for the node of its clause,
there are no other nodes, and the name defined last stands for the root, the only
output. -/
structure Describes (ls : List Bytes) (ref : Bytes → Option NodeId) (g : Graph) (root : NodeId) :
    Prop where
  node : ∀ l ∈ ls, ∀ name c, Defines l name c →
    ∃ id n, ref name = some id ∧ g.nodes[id]? = some n ∧ c.Denotes g.vars ref n
  defined : ∀ (id : NodeId) (n : Node), g.nodes[id]? = some n →
    ∃ l ∈ ls, ∃ name c, Defines l name c ∧ c.Denotes g.vars ref n
  last : ∃ name, Last ls name ∧ ref name = some root
  outputs : g.outputs = #[root]

theorem Describes.root_lt {ls : List Bytes} {ref : Bytes → Option NodeId} {g : Graph}
    {root : NodeId} (h : Describes ls ref g root) : root < g.nodes.size := by
  obtain ⟨name, ⟨earlier, l, later, c, rfl, hdefines, -⟩, href⟩ := h.last
  obtain ⟨id, n, hid, hn, -⟩ := h.node l (by simp) name c hdefines
  obtain rfl := Option.some.inj (href.symm.trans hid)
  exact (Array.getElem?_eq_some_iff.1 hn).1

/-- The lines that are neither blank nor comments. -/
def entries (ls : List Bytes) : List Bytes := ls.filter (!Reader.isSkipped ·)

/-! ## Lines by themselves -/

variable {l name : Bytes} {ls : List Bytes} {c : Clause}

theorem isSkipped_iff : Reader.isSkipped l = true ↔ IsBlank l ∨ IsComment l := by
  rcases Bytes.blank_or_first (Rune.read l) with hall | ⟨front, r, back, hread, hfront, hr⟩
  · simp [Reader.isSkipped, Bytes.trim_eq_nil hall, show IsBlank l from hall]
  have hmem : r ∈ Rune.read l := by simp [hread]
  have hblank : ¬IsBlank l := fun h => absurd ((h r hmem).symm.trans hr) Bool.noConfusion
  obtain ⟨rest, htrim⟩ := Bytes.trim_eq hread hfront hr
  obtain ⟨b, bs, hbytes⟩ := List.exists_cons_of_length_pos r.length_bytes_pos
  have hskip : Reader.isSkipped l = true ↔ r = .char '#' := by
    refine Iff.trans ?_ (Rune.head?_bytes_of_mem_read hmem (a := Bytes.ofChar '#') (by decide))
    simp [Reader.isSkipped, htrim, hbytes]
  rw [hskip]
  constructor
  · rintro rfl
    exact .inr ⟨front, back, hread, hfront⟩
  · rintro (h | ⟨front', back', hread', hfront'⟩)
    · exact absurd h hblank
    -- The first character that is no white space is the same in both.
    · have hhash : (Rune.char '#').isBlank = false := by decide
      have heq := Bytes.dropWhile_isBlank hfront hr back
      rw [← hread, hread', Bytes.dropWhile_isBlank hfront' hhash] at heq
      exact (List.cons.inj heq).1.symm

theorem Defines.not_skipped (h : Defines l name c) : Reader.isSkipped l = false := by
  obtain ⟨hcomment, words, hfields, -⟩ := h
  rw [Bool.eq_false_iff]
  intro hskip
  rcases isSkipped_iff.1 hskip with hblank | h
  · rw [Bytes.fields_eq_nil hblank] at hfields
    cases hfields
  · exact hcomment h

theorem Defines.unique {name' : Bytes} {c' : Clause} (h : Defines l name c)
    (h' : Defines l name' c') : name = name' ∧ c = c' := by
  obtain ⟨-, words, hfields, hreads⟩ := h
  obtain ⟨-, words', hfields', hreads'⟩ := h'
  obtain ⟨rfl, rfl⟩ := List.cons.inj (hfields.symm.trans hfields')
  exact ⟨rfl, hreads.unique hreads'⟩

theorem Defines.of_words {words : List Bytes} (hskip : Reader.isSkipped l = false)
    (hfields : l.fields = name :: words) (hreads : Clause.Reads words c) : Defines l name c := by
  refine ⟨fun hcomment => ?_, words, hfields, hreads⟩
  rw [isSkipped_iff.2 (.inr hcomment)] at hskip
  cases hskip

/-! ## One line more -/

theorem binds_append {ms : List Bytes} :
    Binds (ls ++ ms) name ↔ Binds ls name ∨ Binds ms name := by
  simp [Binds, or_and_right, exists_or]

theorem binds_concat : Binds (ls ++ [l]) name ↔ Binds ls name ∨ ∃ c, Defines l name c := by
  rw [binds_append]
  simp [Binds]

theorem ConformsUpTo.concat (h : ConformsUpTo ls ls.length) (hl : Conforms ls l) :
    ConformsUpTo (ls ++ [l]) (ls ++ [l]).length := by
  intro k hk m hm
  rw [List.length_append, List.length_singleton] at hk
  rcases Nat.lt_or_eq_of_le (Nat.le_of_lt_succ hk) with hlt | rfl
  · rw [List.getElem?_append_left hlt] at hm
    rw [List.take_append_of_le_length (Nat.le_of_lt hlt)]
    exact h k hlt m hm
  · rw [List.getElem?_concat_length, Option.some.injEq] at hm
    rw [List.take_left, ← hm]
    exact hl

theorem ConformsUpTo.append (h : ConformsUpTo ls ls.length) (rest : List Bytes) :
    ConformsUpTo (ls ++ rest) ls.length := by
  intro k hk m hm
  rw [List.getElem?_append_left hk] at hm
  rw [List.take_append_of_le_length (Nat.le_of_lt hk)]
  exact h k hk m hm

theorem Last.concat (h : Last ls name) (hl : ∀ other c, ¬Defines l other c) :
    Last (ls ++ [l]) name := by
  obtain ⟨earlier, m, later, c, rfl, hm, hlater⟩ := h
  refine ⟨earlier, m, later ++ [l], c, by simp, hm, fun other hother => ?_⟩
  rcases binds_concat.1 hother with hother | ⟨d, hd⟩
  · exact hlater other hother
  · exact hl other d hd

theorem length_entries_concat :
    (entries (ls ++ [l])).length = (entries ls).length + if Reader.isSkipped l then 0 else 1 := by
  cases h : Reader.isSkipped l <;> simp [entries, h]

theorem Blames.not_language {n : Nat} (h : Blames ls n) : ¬Language ls := by
  rintro ⟨hall, name, hname⟩
  cases h with
  | line hl hbad hbefore => exact hbad (hall _ (List.getElem?_eq_some_iff.1 hl).1 _ hl)
  | missing _ hnone => exact hnone name hname

end Script

/-! ## The reader along the lines -/

namespace Reader

open Script

variable {r : Reader} {ls : List Bytes} {l name word : Bytes} {args : List Bytes} {c : Clause}

/-- The reader has read lines, all of which conform: it knows just the names that
they bind, with the nodes that these stand for, and the last of them. -/
structure Follows (ls : List Bytes) (r : Reader) : Prop where
  wellFormed : r.graph.WellFormed
  outputs : r.graph.outputs = #[]
  size : r.graph.nodes.size ≤ (entries ls).length
  conforms : ConformsUpTo ls ls.length
  known : ∀ name id, r.names[name]? = some id → Binds ls name
  node : ∀ l ∈ ls, ∀ name c, Defines l name c → ∃ id n, r.names[name]? = some id ∧
    r.graph.nodes[id]? = some n ∧ c.Denotes r.graph.vars (r.names[·]?) n
  defined : ∀ (id : NodeId) (n : Node), r.graph.nodes[id]? = some n →
    ∃ l ∈ ls, ∃ name c, Defines l name c ∧ c.Denotes r.graph.vars (r.names[·]?) n
  last : ∀ id, r.last = some id → ∃ name, Last ls name ∧ r.names[name]? = some id
  none : r.last = none → ∀ name, ¬Binds ls name

theorem follows_start : start.Follows [] := by
  obtain ⟨-, hnodes, houtputs, -⟩ := Graph.emptyWith_eq Node.fingerprint
  have hnodes : start.graph.nodes = #[] := hnodes
  refine ⟨Graph.wellFormed_emptyWith Node.fingerprint, houtputs, ?_, ?_, ?_, ?_, ?_, ?_, ?_⟩
  · rw [hnodes]
    exact Nat.zero_le _
  · exact fun k hk => absurd hk (Nat.not_lt_zero k)
  · simp [start]
  · simp
  · simp [hnodes]
  · simp [start]
  · simp [Binds]

theorem Follows.ref (h : r.Follows ls) (hname : Binds ls name) :
    ∃ id, r.names[name]? = some id ∧ id < r.graph.nodes.size := by
  obtain ⟨l, hl, c, hdefines⟩ := hname
  obtain ⟨id, n, hid, hn, -⟩ := h.node l hl name c hdefines
  exact ⟨id, hid, (Array.getElem?_eq_some_iff.1 hn).1⟩

theorem Follows.contains_iff (h : r.Follows ls) : r.names.contains name = true ↔ Binds ls name := by
  rw [Std.HashMap.contains_eq_isSome_getElem?, Option.isSome_iff_exists]
  constructor
  · rintro ⟨id, hid⟩
    exact h.known name id hid
  · intro hname
    obtain ⟨id, hid, -⟩ := h.ref hname
    exact ⟨id, hid⟩

theorem Follows.skip (h : r.Follows ls) (hl : IsBlank l ∨ IsComment l) : r.Follows (ls ++ [l]) := by
  have hskip := isSkipped_iff.2 hl
  have hnot : ∀ name c, ¬Defines l name c := fun name c hdefines =>
    absurd (hdefines.not_skipped.symm.trans hskip) Bool.noConfusion
  have hbinds : ∀ name, Binds (ls ++ [l]) name ↔ Binds ls name := fun name => by
    simp [binds_concat, hnot]
  exact {
    wellFormed := h.wellFormed
    outputs := h.outputs
    size := by
      rw [length_entries_concat, hskip]
      exact h.size
    conforms := h.conforms.concat (hl.imp_right .inl)
    known := fun name id hid => (hbinds name).2 (h.known name id hid)
    node := fun m hm name c hdefines => by
      rcases List.mem_append.1 hm with hm | hm
      · exact h.node m hm name c hdefines
      · exact absurd (List.mem_singleton.1 hm ▸ hdefines) (hnot name c)
    defined := fun id n hn => by
      obtain ⟨m, hm, hdefined⟩ := h.defined id n hn
      exact ⟨m, List.mem_append_left _ hm, hdefined⟩
    last := fun id hid => by
      obtain ⟨name, hlast, hname⟩ := h.last id hid
      exact ⟨name, hlast.concat hnot, hname⟩
    none := fun hnone name hname => h.none hnone name ((hbinds name).1 hname) }

/-! ## Definitions -/

/-- A graph with the node of a clause. -/
structure Gains (r : Reader) (c : Clause) (id : NodeId) (g' : Graph) : Prop where
  wellFormed : g'.WellFormed
  grows : r.graph.Extends g'
  outputs : g'.outputs = r.graph.outputs
  size_le : g'.nodes.size ≤ r.graph.nodes.size + 1
  node : ∃ n, g'.nodes[id]? = some n ∧ c.Denotes g'.vars (r.names[·]?) n
  gained : ∀ (k : NodeId) (n : Node), g'.nodes[k]? = some n →
    r.graph.nodes[k]? = some n ∨ c.Denotes g'.vars (r.names[·]?) n

/-- A line that defines a new name. -/
theorem Follows.push (h : r.Follows ls) (hdefines : Defines l name c) (hnew : ¬Binds ls name)
    (hoperands : ∀ a ∈ c.operands, Binds ls a) {id : NodeId} {g' : Graph} (hg' : r.Gains c id g') :
    Follows (ls ++ [l]) ⟨g', r.names.insert name id, some id⟩ := by
  have hkeep : ∀ (a : Bytes) (i : NodeId), r.names[a]? = some i →
      (r.names.insert name id)[a]? = some i := by
    intro a i hi
    have hne : name ≠ a := fun heq => hnew (heq ▸ h.known a i hi)
    rw [Std.HashMap.getElem?_insert]
    simp [hne, hi]
  have hself : (r.names.insert name id)[name]? = some id := Std.HashMap.getElem?_insert_self
  exact {
    wellFormed := hg'.wellFormed
    outputs := hg'.outputs.trans h.outputs
    size := by
      rw [length_entries_concat, hdefines.not_skipped]
      exact Nat.le_trans hg'.size_le (Nat.succ_le_succ h.size)
    conforms := h.conforms.concat (.inr (.inr ⟨name, c, hdefines, hnew, hoperands⟩))
    known := fun other i hi => by
      rw [Std.HashMap.getElem?_insert] at hi
      split at hi
      · rename_i heq
        exact binds_concat.2 (.inr ⟨c, by rwa [← beq_iff_eq.1 heq]⟩)
      · exact binds_concat.2 (.inl (h.known other i hi))
    node := fun m hm other d hd => by
      rcases List.mem_append.1 hm with hm | hm
      · obtain ⟨i, n, hi, hn, hdenotes⟩ := h.node m hm other d hd
        exact ⟨i, n, hkeep other i hi, hg'.grows.node hn, hdenotes.mono hg'.grows.vars hkeep⟩
      · obtain rfl := List.mem_singleton.1 hm
        obtain ⟨rfl, rfl⟩ := hd.unique hdefines
        obtain ⟨n, hn, hdenotes⟩ := hg'.node
        exact ⟨id, n, hself, hn, hdenotes.mono (List.prefix_refl _) hkeep⟩
    defined := fun i n hn => by
      rcases hg'.gained i n hn with hold | hdenotes
      · obtain ⟨m, hm, other, d, hd, hdenotes⟩ := h.defined i n hold
        exact ⟨m, List.mem_append_left _ hm, other, d, hd, hdenotes.mono hg'.grows.vars hkeep⟩
      · exact ⟨l, List.mem_append_right _ List.mem_cons_self, name, c, hdefines,
          hdenotes.mono (List.prefix_refl _) hkeep⟩
    last := fun i hi => by
      obtain rfl := Option.some.inj hi
      refine ⟨name, ⟨ls, l, [], c, rfl, hdefines, ?_⟩, hself⟩
      simp [Binds]
    none := fun hnone => by simp at hnone }

/-- Where a node is asked for that the graph has everything for, it is there
afterwards, unless the graph is full. -/
theorem gains_insert (hwf : r.graph.WellFormed) {i : Instr} {n : Node}
    (hnode : r.graph.node? i = .ok n)
    (hdenotes : c.Denotes r.graph.vars (r.names[·]?) n.canonical) :
    (∃ id g', r.graph.insert i = .ok (id, g') ∧ r.Gains c id g') ∨
      r.graph.insert i = .error .full ∧ Graph.capacity ≤ r.graph.nodes.size := by
  rcases hinsert : r.graph.insert i with e | ⟨id, g'⟩
  · obtain ⟨rfl, hfull⟩ := Graph.insert_eq_error hnode hinsert
    exact .inr ⟨rfl, hfull⟩
  · have hgrown := hwf.insert hinsert
    obtain ⟨m, hm, hget⟩ := hgrown.answer id rfl
    obtain rfl := Option.some.inj (hm.symm.trans (Graph.node?_eq_ok.1 hnode).1)
    have hdenotes' := hdenotes.mono hgrown.grows.vars fun _ _ h => h
    refine .inl ⟨id, g', rfl, hgrown.wellFormed, hgrown.grows, Graph.insert_outputs hinsert,
      hgrown.size_le, ⟨_, hget, hdenotes'⟩, fun k n hk => ?_⟩
    rcases Graph.insert_node hnode hinsert hk with hold | rfl
    · exact .inl hold
    · exact .inr hdenotes'

theorem gains_adding {e : Except GraphError (NodeId × Graph)}
    (h : (∃ id g', e = .ok (id, g') ∧ r.Gains c id g') ∨
      e = .error .full ∧ Graph.capacity ≤ r.graph.nodes.size) :
    (∃ id g', adding e = .ok (id, g') ∧ r.Gains c id g') ∨
      adding e = .error (.node .full) ∧ Graph.capacity ≤ r.graph.nodes.size := by
  rcases h with ⟨id, g', rfl, hg'⟩ | ⟨rfl, hfull⟩
  · exact .inl ⟨id, g', rfl, hg'⟩
  · exact .inr ⟨rfl, hfull⟩

theorem gains_var (hwf : r.graph.WellFormed) (name : Bytes) :
    (∃ id g', r.graph.var name = (.ok id, g') ∧ r.Gains (.var name) id g') ∨
      (∃ g', r.graph.var name = (.error .full, g')) ∧ Graph.capacity ≤ r.graph.nodes.size := by
  obtain ⟨hwf', hext, hnodes, hname⟩ := hwf.register name
  have houtputs := r.graph.register_outputs name
  rcases hr : r.graph.register name with ⟨v, g⟩
  rw [hr] at hwf' hext hnodes hname houtputs
  have hnode : g.node? { code := Op.input.code, var := v } = .ok (.input v) :=
    Graph.node?_eq_ok.2 ⟨by simp [Instr.node?, Instr.op?, Op.ofCode?_code],
      Graph.admits_input.2 (Array.getElem?_eq_some_iff.1 hname).1, fun _ => Int.natCast_nonneg v⟩
  rcases gains_insert (r := { r with graph := g }) hwf' hnode (.var hname) with
    ⟨id, g', hinsert, hg'⟩ | ⟨hinsert, hfull⟩
  · refine .inl ⟨id, g', by simp only [Graph.var, hr, Graph.input, hinsert], hg'.wellFormed,
      hext.trans hg'.grows, hg'.outputs.trans houtputs, ?_, hg'.node, ?_⟩
    · rw [← hnodes]
      exact hg'.size_le
    · rw [← hnodes]
      exact hg'.gained
  · exact .inr ⟨⟨g, by simp only [Graph.var, hr, Graph.input, hinsert]⟩, hnodes ▸ hfull⟩

/-- The words of a clause are read. -/
theorem Follows.define (h : r.Follows ls) (hreads : Clause.Reads (word :: args) c)
    (hoperands : ∀ a ∈ c.operands, Binds ls a) :
    (∃ id g', r.define word args = .ok (id, g') ∧ r.Gains c id g') ∨
      r.define word args = .error (.node .full) ∧ Graph.capacity ≤ r.graph.nodes.size := by
  cases hreads with
  | @var name hne =>
    rcases gains_var h.wellFormed name with ⟨id, g', hvar, hg'⟩ | ⟨⟨g', hvar⟩, hfull⟩
    · exact .inl ⟨id, g', by simp [Reader.define, varMark, hne, hvar], hg'⟩
    · exact .inr ⟨by simp [Reader.define, varMark, hne, hvar], hfull⟩
  | @const word value hread =>
    have hmark : varMark.isPrefixOf (utf8 "const") = false := by decide
    have hdefine : r.define (utf8 "const") [word] = adding (r.graph.const value) := by
      simp [Reader.define, hmark, hread]
    have hnode : r.graph.node? { code := Op.const.code, imm := value } = .ok (.const value) := by
      simp [Graph.node?, Instr.op?, Op.ofCode?_code]
    exact hdefine ▸ gains_adding (gains_insert h.wellFormed hnode (.const value))
  | unary op a =>
    obtain ⟨i, hi, hlt⟩ := h.ref (hoperands a List.mem_cons_self)
    have hlookup : lookup r.names [a] = .ok [i] := by simp [lookup, hi]
    have hnode : r.graph.node? { code := (Op.unary op).code, left := i } = .ok (.unary op i) := by
      simp [Graph.node?, Instr.op?, Op.ofCode?_code, hlt]
    have hdefine := r.define_op (Op.unary_mem op) rfl hlookup
    exact hdefine ▸ gains_adding (gains_insert h.wellFormed hnode (.unary op hi))
  | binary op a b =>
    obtain ⟨i, hi, hlt⟩ := h.ref (hoperands a List.mem_cons_self)
    obtain ⟨j, hj, hlt'⟩ := h.ref (hoperands b (List.mem_cons_of_mem a List.mem_cons_self))
    have hlookup : lookup r.names [a, b] = .ok [i, j] := by simp [lookup, hi, hj]
    have hnode : r.graph.node? { code := (Op.binary op).code, left := i, right := j } =
        .ok (.binary op i j) := by
      simp only [Graph.node?, Instr.op?, Op.ofCode?_code, if_neg (Nat.not_le.2 hlt),
        if_neg (Nat.not_le.2 hlt')]
    have hdefine := r.define_op (Op.binary_mem op) rfl hlookup
    exact hdefine ▸ gains_adding (gains_insert h.wellFormed hnode (.binary op hi hj))

theorem lookup_eq_ok {names : Std.HashMap Bytes NodeId} {ids : List NodeId}
    (h : lookup names args = .ok ids) : ∀ a ∈ args, ∃ k, names[a]? = some k := by
  induction args generalizing ids with
  | nil => exact fun _ h => absurd h List.not_mem_nil
  | cons a rest ih =>
    unfold lookup at h
    split at h
    · cases h
    rename_i k hk
    split at h
    · rename_i ks hks
      exact List.forall_mem_cons.2 ⟨⟨k, hk⟩, ih hks⟩
    · cases h

/-- Only the words of a clause are read, and only where its operands are known. -/
theorem reads_of_define {id : NodeId} {g' : Graph} (h : r.define word args = .ok (id, g')) :
    ∃ c, Clause.Reads (word :: args) c ∧ ∀ a ∈ c.operands, ∃ k, r.names[a]? = some k := by
  unfold Reader.define at h
  split at h
  · -- A variable.
    rename_i hmark
    obtain ⟨name, rfl⟩ := List.isPrefixOf_iff_prefix.1 hmark
    simp only [List.drop_left] at h
    split at h
    · cases h
    · rename_i hname
      simp only [Bool.or_eq_true, List.isEmpty_iff, Bool.not_eq_true', not_or,
        Bool.not_eq_false] at hname
      obtain ⟨hne, rfl⟩ := hname
      exact ⟨.var name, .var hne, fun _ h => absurd h List.not_mem_nil⟩
  split at h
  · -- A constant.
    rename_i hconst
    obtain rfl := beq_iff_eq.1 hconst
    split at h
    · split at h
      · rename_i value hvalue
        exact ⟨.const value, .const hvalue, fun _ h => absurd h List.not_mem_nil⟩
      · cases h
    · cases h
  · -- An operator.
    split at h
    · cases h
    rename_i op hop
    rw [Op.ofName?] at hop
    split at h
    · cases h
    rename_i harity
    split at h
    · cases h
    rename_i ids hlookup
    have hknown := lookup_eq_ok hlookup
    have hmem := List.mem_of_find?_eq_some hop
    have hname := List.find?_some hop
    simp only [beq_iff_eq] at hname
    subst hname
    have hlength := not_not.1 harity
    cases op with
    | input | const => exact absurd hmem (by decide)
    | unary u =>
      obtain ⟨a, rfl⟩ := List.length_eq_one_iff.1 hlength
      exact ⟨.unary u a, .unary u a, hknown⟩
    | binary o =>
      obtain ⟨a, b, rfl⟩ := List.length_eq_two.1 hlength
      exact ⟨.binary o a b, .binary o a b, hknown⟩

/-! ## Lines -/

/-- **One line is read if and only if it conforms**, as long as there is room for
its node. -/
theorem Follows.line (h : r.Follows ls) (l : Bytes) :
    (∃ r', r.line l = .ok r' ∧ r'.Follows (ls ++ [l])) ∨
      ∃ f, r.line l = .error f ∧ (¬Conforms ls l ∨ f = .node .full ∧ Conforms ls l ∧
        Graph.capacity < (entries (ls ++ [l])).length) := by
  by_cases hl : Conforms ls l
  · rcases or_assoc.2 hl with hskip | ⟨name, c, hdefines, hnew, hoperands⟩
    · exact .inl ⟨r, by rw [Reader.line, if_pos (isSkipped_iff.2 hskip)], h.skip hskip⟩
    have hskip := hdefines.not_skipped
    have hcontains : r.names.contains name = false := by
      rwa [Bool.eq_false_iff, Ne, h.contains_iff]
    obtain ⟨-, words, hfields, hreads⟩ := id hdefines
    obtain ⟨word, args, rfl⟩ := List.exists_cons_of_ne_nil hreads.ne_nil
    rcases h.define hreads hoperands with ⟨id, g', hdefine, hg'⟩ | ⟨hdefine, hfull⟩
    · refine .inl ⟨_, ?_, h.push hdefines hnew hoperands hg'⟩
      simp [Reader.line, hskip, hfields, hcontains, hdefine]
    · refine .inr ⟨.node .full, ?_, .inr ⟨rfl, hl, ?_⟩⟩
      · simp [Reader.line, hskip, hfields, hcontains, hdefine]
      rw [length_entries_concat, hskip]
      exact Nat.lt_succ_of_le (Nat.le_trans hfull h.size)
  · cases hline : r.line l with
    | error f => exact .inr ⟨f, rfl, .inl hl⟩
    | ok r' =>
      refine absurd ?_ hl
      unfold Reader.line at hline
      split at hline
      · rename_i hskip
        exact or_assoc.1 (.inl (isSkipped_iff.1 hskip))
      rename_i hskip
      split at hline
      · rename_i name word args hfields
        split at hline
        · cases hline
        rename_i hcontains
        split at hline
        · cases hline
        · rename_i id g' hdefine
          obtain ⟨c, hreads, hoperands⟩ := reads_of_define hdefine
          have hdefines := Defines.of_words (Bool.eq_false_iff.2 hskip) hfields hreads
          refine .inr (.inr ⟨name, c, hdefines, ?_, ?_⟩)
          · exact fun hname => hcontains (h.contains_iff.2 hname)
          · intro a ha
            obtain ⟨k, hk⟩ := hoperands a ha
            exact h.known a k hk
      · cases hline

/-- What a line that fails says: it is the one to blame, or the graph has as many
nodes as it can have. -/
def Faults (ls : List Bytes) (n : Nat) (f : LineFault) : Prop :=
  Blames ls n ∨ f = .node .full ∧ ConformsUpTo ls n ∧
    Graph.capacity < (entries (ls.take n)).length

theorem Faults.not_language {n : Nat} {f : LineFault} (h : Faults ls n f)
    (hroom : (entries ls).length ≤ Graph.capacity) : ¬Language ls := by
  rcases h with hblames | ⟨-, -, hfull⟩
  · exact hblames.not_language
  · have hle : (entries (ls.take n)).length ≤ (entries ls).length :=
      ((List.take_sublist n ls).filter _).length_le
    omega

/-- Lines are read up to the one to blame. -/
theorem Follows.lines (rest : List Bytes) {ls : List Bytes} {r : Reader} (h : r.Follows ls) :
    (∃ r', r.lines ls.length rest = .ok r' ∧ r'.Follows (ls ++ rest)) ∨
      ∃ n f, r.lines ls.length rest = .error (.line n f) ∧ Faults (ls ++ rest) n f := by
  induction rest generalizing ls r with
  | nil => exact .inl ⟨r, rfl, by simpa using h⟩
  | cons l rest ih =>
    have hassoc : ls ++ l :: rest = ls ++ [l] ++ rest := by simp
    rcases h.line l with ⟨r', hline, hr'⟩ | ⟨f, hline, hfault⟩
    · have hih := ih hr'
      rw [List.length_append, List.length_singleton, ← hassoc] at hih
      simpa only [Reader.lines, hline] using hih
    · refine .inr ⟨ls.length + 1, f, by simp only [Reader.lines, hline], ?_⟩
      rcases hfault with hbad | ⟨rfl, hl, hfull⟩
      · refine .inl (.line (l := l) (by simp) ?_ (h.conforms.append _))
        rwa [List.take_left]
      · have hlength : ls.length + 1 = (ls ++ [l]).length := by simp
        rw [hassoc, hlength]
        exact .inr ⟨rfl, (h.conforms.concat hl).append rest, by rwa [List.take_left]⟩

end Reader

/-! ## Texts -/

namespace Graph

open Script

variable {s : Bytes}

/-- A text is read as the graph that its lines describe, or a line is at fault. -/
theorem read_cases (hshort : ∀ piece ∈ s.splitOn 10, piece.length < lineLimit) :
    (∃ g root, read s = .ok (g, root) ∧ g.WellFormed ∧ Language (Lines.ofText s) ∧
      ∃ ref, Describes (Lines.ofText s) ref g root) ∨
      ∃ n f, read s = .error (.line n f) ∧ Reader.Faults (Lines.ofText s) n f := by
  have hread := Lines.read_eq_ofText hshort
  generalize Lines.ofText s = ls at hread
  rcases Reader.follows_start.lines ls with ⟨r, hlines, h⟩ | ⟨n, f, hlines, hfault⟩
  · rw [List.nil_append] at h
    rw [List.length_nil] at hlines
    cases hlast : r.last with
    | none =>
      refine .inr ⟨ls.length, .noDefinition, ?_, .inl (.missing h.conforms (h.none hlast))⟩
      simp [read, hread, hlines, hlast]
    | some root =>
      obtain ⟨name, hname, href⟩ := h.last root hlast
      have hbinds := h.known name root href
      obtain ⟨id, hid, hlt⟩ := h.ref hbinds
      obtain rfl := Option.some.inj (href.symm.trans hid)
      have houtput : r.graph.output root = .ok { r.graph with outputs := #[root] } := by
        simp [Graph.output, h.outputs, hlt]
      refine .inl ⟨{ r.graph with outputs := #[root] }, root, read_eq_ok.2 ?_, ?_,
        ⟨h.conforms, name, hbinds⟩, (r.names[·]?), h.node, h.defined,
        ⟨name, hname, href⟩, rfl⟩
      · rw [hread]
        exact ⟨rfl, r, hlines, hlast, houtput⟩
      · have hgrown := (h.wellFormed.call (.output root)).wellFormed
        simpa only [Graph.call, houtput] using hgrown
  · rw [List.length_nil] at hlines
    rw [List.nil_append] at hfault
    exact .inr ⟨n, f, by simp [read, hread, hlines], hfault⟩

theorem read_of_language (hshort : ∀ piece ∈ s.splitOn 10, piece.length < lineLimit)
    (hroom : (entries (Lines.ofText s)).length ≤ capacity) (h : Language (Lines.ofText s)) :
    ∃ g root, read s = .ok (g, root) := by
  rcases read_cases hshort with ⟨g, root, hread, -⟩ | ⟨n, f, -, hfault⟩
  · exact ⟨g, root, hread⟩
  · exact absurd h (hfault.not_language hroom)

/-- **A text is read if and only if it is in the language, and the right line is
blamed.** Let no line of a text be too long. Then:
- as long as there are no more definitions than a graph has room for, the text is
  read if and only if it is in the language;
- a graph that is read is the one that the lines describe: its names stand for the
  nodes of their clauses, and the one defined last for the root, the only output;
- an error names the line to blame, or a line that conforms and whose node a full
  graph has no room for. -/
theorem read_language (hshort : ∀ piece ∈ s.splitOn 10, piece.length < lineLimit) :
    ((entries (Lines.ofText s)).length ≤ capacity →
      ((∃ g root, read s = .ok (g, root)) ↔ Language (Lines.ofText s))) ∧
    (∀ g root, read s = .ok (g, root) →
      Language (Lines.ofText s) ∧ ∃ ref, Describes (Lines.ofText s) ref g root) ∧
    ∀ e, read s = .error e → ∃ n f, e = .line n f ∧ Reader.Faults (Lines.ofText s) n f := by
  have hok : ∀ g root, read s = .ok (g, root) →
      Language (Lines.ofText s) ∧ ∃ ref, Describes (Lines.ofText s) ref g root := by
    intro g root h
    rcases read_cases hshort with ⟨g', root', hread, -, hdescribes⟩ | ⟨n, f, hread, -⟩
    · obtain ⟨rfl, rfl⟩ := Prod.mk.inj (Except.ok.inj (h.symm.trans hread))
      exact hdescribes
    · rw [hread] at h
      cases h
  refine ⟨fun hroom => ⟨?_, read_of_language hshort hroom⟩, hok, fun e he => ?_⟩
  · rintro ⟨g, root, h⟩
    exact (hok g root h).1
  · rcases read_cases hshort with ⟨g, root, hread, -⟩ | ⟨n, f, hread, hfault⟩
    · rw [hread] at he
      cases he
    · exact ⟨n, f, Except.error.inj (he.symm.trans hread), hfault⟩

/-- Twice a variable. -/
def twice : Bytes := utf8 "# twice\nk const 2\n\nx var-x\nt mul x k\n"

theorem twice_language : Language (Lines.ofText twice) := by
  have hlines : Lines.ofText twice =
      [utf8 "# twice", utf8 "k const 2", [], utf8 "x var-x", utf8 "t mul x k"] := by
    decide +kernel
  have htwo : Binary.read .binary64 (utf8 "2") = .ok (.ofInt 2) := by decide +kernel
  have hk : Defines (utf8 "k const 2") (utf8 "k") (.const (.ofInt 2)) :=
    .of_words (by decide +kernel) (by decide +kernel) (.const htwo)
  have hx : Defines (utf8 "x var-x") (utf8 "x") (.var (utf8 "x")) :=
    .of_words (by decide +kernel) (by decide +kernel) (.var (by decide +kernel))
  have ht : Defines (utf8 "t mul x k") (utf8 "t") (.binary .mul (utf8 "x") (utf8 "k")) :=
    .of_words (by decide +kernel) (by decide +kernel) (.binary .mul _ _)
  rw [hlines]
  refine ⟨?_, utf8 "t", _, by simp, _, ht⟩
  have hcomment : Conforms [] (utf8 "# twice") := by
    rw [Conforms, ← or_assoc, ← isSkipped_iff]
    exact .inl (by decide +kernel)
  have hblank : ∀ ls, Conforms ls [] := fun _ => .inl fun _ h => absurd h List.not_mem_nil
  have hfresh : ∀ {ls name}, (∀ l ∈ ls, l.fields.head? ≠ some name) → ¬Binds ls name := by
    rintro ls name h ⟨l, hl, c, -, words, hfields, -⟩
    exact h l hl (by rw [hfields]; rfl)
  have hstart : ConformsUpTo [] 0 := fun _ h => absurd h (Nat.not_lt_zero _)
  refine ((((hstart.concat hcomment).concat (.inr (.inr ⟨_, _, hk, ?_, ?_⟩))).concat
    (hblank _)).concat (.inr (.inr ⟨_, _, hx, ?_, ?_⟩))).concat (.inr (.inr ⟨_, _, ht, ?_, ?_⟩))
  · exact hfresh (by decide +kernel)
  · exact fun _ h => absurd h List.not_mem_nil
  · exact hfresh (by decide +kernel)
  · exact fun _ h => absurd h List.not_mem_nil
  · exact hfresh (by decide +kernel)
  · exact List.forall_mem_cons.2 ⟨⟨_, by simp, _, hx⟩, List.forall_mem_singleton.2
      ⟨_, by simp, _, hk⟩⟩

/-- A text with a comment and a blank line, whose last line uses two names. -/
theorem read_language_twice :
    (∀ piece ∈ twice.splitOn 10, piece.length < lineLimit) ∧
    ∃ g root, read twice = .ok (g, root) ∧ g.outputs = #[root] := by
  have hshort : ∀ piece ∈ twice.splitOn 10, piece.length < lineLimit := by decide +kernel
  have hroom : (entries (Lines.ofText twice)).length ≤ capacity := by decide +kernel
  obtain ⟨haccepts, hdescribes, -⟩ := read_language hshort
  obtain ⟨g, root, hread⟩ := (haccepts hroom).2 twice_language
  obtain ⟨-, ref, href⟩ := hdescribes g root hread
  exact ⟨hshort, g, root, hread, href.outputs⟩

end Graph

end ScalarField
