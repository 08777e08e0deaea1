/-
Reading what is written for a graph that has been read (`Graph.read_again`).

The names of variables come from words of the text, so that they can be written.
But a definition may get longer: its name becomes the number of its node. Only
the line of a variable can get too long by this, all other lines being short
(`WellFormed.short_iff`), and only by as many bytes as the number has digits. A
line that the reader just takes may so become one that it does not take
(`Graph.longest_line_refused`).
-/
import ScalarField.Proofs.Graph.Language

namespace ScalarField

namespace Lines

variable {l s : Bytes}

theorem length_withoutReturn_le (l : Bytes) : (withoutReturn l).length ≤ l.length := by
  unfold withoutReturn ofReversed
  split
  · rename_i front hrev
    have hlength := congrArg List.length hrev
    rw [List.length_reverse, List.length_cons] at hlength
    rw [List.length_reverse]
    omega
  · rw [List.reverse_reverse]

theorem mem_ofText (h : l ∈ ofText s) : ∃ piece ∈ s.splitOn 10, l = withoutReturn piece := by
  obtain ⟨piece, hpiece, rfl⟩ := List.mem_map.1 h
  refine ⟨piece, ?_, rfl⟩
  split at hpiece
  · exact List.mem_of_mem_dropLast hpiece
  · exact hpiece

end Lines

/-! ## Names that come from a text -/

namespace Script

variable {l name v : Bytes} {ls : List Bytes} {ref : Bytes → Option NodeId} {g : Graph}
  {root id : NodeId}

theorem mark_graphic : (∀ b ∈ utf8 "var-", Bytes.isGraphic b = true) ∧ (utf8 "var-").length = 4 := by
  decide +kernel

/-- The name of a variable that a line defines is a word, which the line has more
bytes than. -/
theorem Defines.var (h : Defines l name (.var v)) :
    (v ≠ [] ∧ v.Solid) ∧ v.length + 6 ≤ l.length := by
  obtain ⟨hgraphic, hmark⟩ := mark_graphic
  obtain ⟨-, words, hfields, hreads⟩ := h
  cases hreads with
  | var hne =>
    have hwords : ∀ w ∈ [name, utf8 "var-" ++ v], w ≠ [] ∧ w.Solid :=
      hfields ▸ fun w hw => Bytes.solid_of_mem_fields hw
    have hname := List.length_pos_iff.2 (hwords name (by simp)).1
    have hle := Bytes.length_joined_fields_le l
    rw [hfields, Bytes.joined_cons_cons, List.length_append, List.length_cons] at hle
    simp only [Bytes.joined, Bytes.join, List.intersperse_singleton, List.flatten_singleton,
      List.length_append, hmark] at hle
    exact ⟨⟨hne, (hwords _ (by simp)).2.of_append hgraphic⟩, by omega⟩

theorem Describes.var (h : Describes ls ref g root) {i : Nat} (hn : g.nodes[id]? = some (.input i))
    (hv : g.vars[i]? = some v) : ∃ l ∈ ls, ∃ name, Defines l name (.var v) := by
  obtain ⟨l, hl, name, c, hdefines, hdenotes⟩ := h.defined id _ hn
  obtain ⟨v', rfl, hv'⟩ := hdenotes.input
  obtain rfl := Option.some.inj (hv.symm.trans hv')
  exact ⟨l, hl, name, hdefines⟩

theorem Describes.legible (h : Describes ls ref g root) {n : Node} (hn : g.nodes[id]? = some n) :
    g.Legible n := by
  rintro i v rfl hv
  obtain ⟨l, -, name, hdefines⟩ := h.var hn hv
  exact hdefines.var.1

end Script

/-! ## Lines that are written -/

namespace Graph

open Script

variable {g : Graph} {root id : NodeId} {n : Node} {s : Bytes}

/-- The line of every variable that a node is computed from is short enough to be
read. -/
def Fits (g : Graph) (root : NodeId) : Prop :=
  ∀ (id : NodeId) (i : Nat) (name : Bytes), g.Reaches root id → g.nodes[id]? = some (.input i) →
    g.vars[i]? = some name → (Node.ref id).length + 5 + name.length < lineLimit

theorem WellFormed.length_ref_le (hwf : g.WellFormed) (hid : id < g.nodes.size) :
    (Node.ref id).length ≤ 9 := by
  have hlt : id < UInt32.size := Nat.lt_of_lt_of_le hid (hwf.size_le.trans (by decide))
  exact Nat.succ_le_succ (Bytes.length_hex_le hlt)

theorem length_lineOf (hn : g.nodes[id]? = some n) :
    (g.lineOf id).length = (Node.ref id).length + 1 + (g.definition n).length := by
  have hspace : (utf8 " ").length = 1 := by decide
  simp only [lineOf, hn, Option.map_some, Option.getD_some, List.length_append, hspace]

/-- Only variables have long lines. -/
theorem WellFormed.length_lineOf_lt (hwf : g.WellFormed) (hn : g.nodes[id]? = some n)
    (hvar : ∀ i, n ≠ .input i) : (g.lineOf id).length < lineLimit := by
  have hop : ∀ op ∈ Op.all.drop 2, (utf8 op.name).length ≤ 10 := by decide
  obtain ⟨hconst, hspace⟩ : (utf8 "const ").length = 6 ∧ (utf8 " ").length = 1 := by
    decide
  have hid := (Array.getElem?_eq_some_iff.1 hn).1
  have hself := hwf.length_ref_le hid
  have hoperand : ∀ a ∈ n.args, (Node.ref a).length ≤ 9 := fun a ha =>
    hwf.length_ref_le (Nat.lt_trans (hwf.operand hn a ha) hid)
  have hlimit : lineLimit = 1048576 := rfl
  rw [length_lineOf hn]
  cases n with
  | input i => exact absurd rfl (hvar i)
  | const c =>
    have hprint := c.length_print_le
    simp only [definition, Node.print, List.length_append, hconst]
    omega
  | unary u a =>
    have hname := hop (.unary u) (Op.unary_mem u)
    have ha := hoperand a (by simp [Node.args])
    simp only [definition, Node.print, Op.name, List.length_append, hspace] at hname ⊢
    omega
  | binary o a b =>
    have hname := hop (.binary o) (Op.binary_mem o)
    have ha := hoperand a (by simp [Node.args])
    have hb := hoperand b (by simp [Node.args])
    simp only [definition, Node.print, Op.name, List.length_append, hspace] at hname ⊢
    omega

/-- Whether the written lines can be read depends on the variables alone. -/
theorem WellFormed.short_iff (hwf : g.WellFormed) (hroot : root < g.nodes.size) :
    (∀ id, g.Reaches root id → (g.lineOf id).length < lineLimit) ↔ g.Fits root := by
  have hmark := mark_graphic.2
  have hline : ∀ (id : NodeId) (i : Nat) (name : Bytes), g.nodes[id]? = some (.input i) →
      g.vars[i]? = some name →
      (g.lineOf id).length = (Node.ref id).length + 5 + name.length := by
    intro id i name hn hname
    rw [length_lineOf hn]
    simp only [definition, varName, hname, Option.getD_some, List.length_append, hmark]
    omega
  constructor
  · intro h id i name hreach hn hname
    rw [← hline id i name hn hname]
    exact h id hreach
  · intro h id hreach
    obtain ⟨n, hn⟩ := hreach.node hwf hroot
    by_cases hvar : ∃ i, n = .input i
    · obtain ⟨i, rfl⟩ := hvar
      have hname := Array.getElem?_eq_getElem (hwf.input hn)
      rw [hline id i _ hn hname]
      exact h id i _ hreach hn hname
    · exact hwf.length_lineOf_lt hn fun i hi => hvar ⟨i, hi⟩

/-- A line that is too long stops the reading, whatever has been read before. -/
theorem WellFormed.read_write_long (hwf : g.WellFormed) (hroot : root < g.nodes.size)
    (hlegible : ∀ (id : NodeId) (n : Node), g.nodes[id]? = some n → g.Legible n)
    (hlong : ¬∀ id, g.Reaches root id → (g.lineOf id).length < lineLimit) :
    read (((g.written root).map g.lineOf).flatMap Bytes.line) = .error .tooLong := by
  have hmem : ∀ {id}, id ∈ g.written root ↔ g.Reaches root id := hwf.mem_written hroot
  have hasc := g.written_ascending root
  -- The first line that is too long, and the lines before it.
  obtain ⟨id, front, back, hwritten, hid, hfront⟩ : ∃ id front back,
      g.written root = front ++ id :: back ∧ lineLimit ≤ (g.lineOf id).length ∧
        ∀ k ∈ front, (g.lineOf k).length < lineLimit := by
    cases hfind : (g.written root).find? fun id => lineLimit ≤ (g.lineOf id).length with
    | none =>
      refine absurd (fun id hreach => ?_) hlong
      simpa using List.find?_eq_none.1 hfind id (hmem.2 hreach)
    | some id =>
      obtain ⟨hid, front, back, hwritten, hfront⟩ := List.find?_eq_some_iff_append.1 hfind
      exact ⟨id, front, back, hwritten, by simpa using hid, by simpa using hfront⟩
  have hline : ∀ k ∈ g.written root, ∃ n, g.nodes[k]? = some n ∧ g.Legible n ∧
      10 ∉ g.lineOf k ∧ (g.lineOf k).getLast? ≠ some 13 := by
    intro k hk
    obtain ⟨n, hn⟩ := (hmem.1 hk).node hwf hroot
    exact ⟨n, hn, hlegible k n hn, (hlegible k n hn).lineOf hwf hn⟩
  have hlines : Lines.read lineLimit (((g.written root).map g.lineOf).flatMap Bytes.line) =
      ⟨front.map g.lineOf, true⟩ := by
    rw [hwritten, List.map_append, List.map_cons]
    obtain ⟨n, -, -, hnewline, -⟩ := hline id (by simp [hwritten])
    refine Lines.read_flatMap_line_long _ (fun l hl => ?_) hnewline hid _
    obtain ⟨k, hk, rfl⟩ := List.mem_map.1 hl
    obtain ⟨n, -, -, hnewline, hreturn⟩ := hline k (by simp [hwritten, hk])
    exact ⟨hnewline, hreturn, hfront k hk⟩
  rw [hwritten] at hasc
  have hroom : front.length ≤ capacity := by
    have hid : (front ++ id :: back)[front.length]? = some id := by simp
    have hplace := le_of_ascending hasc hid
    have hreach : g.Reaches root id := hmem.1 (by simp [hwritten])
    calc front.length ≤ id := hplace
      _ ≤ root := hreach.le hwf
      _ ≤ g.nodes.size := Nat.le_of_lt hroot
      _ ≤ capacity := hwf.size_le
  obtain ⟨hfrontAsc, -, hbefore⟩ := List.pairwise_append.1 hasc
  obtain ⟨r, hr, -⟩ := (Reader.tracks_start g).lines hwf front 0 hfrontAsc hroom fun k hk => by
    have hkw : k ∈ g.written root := by simp [hwritten, hk]
    obtain ⟨n, hn, hlegible, -⟩ := hline k hkw
    refine ⟨n, hn, hlegible, fun a ha => ?_⟩
    -- Operands have smaller numbers, so they are not behind the line.
    have haw := hmem.2 ((hmem.1 hkw).operand hn ha)
    rw [hwritten] at haw
    refine (List.mem_append.1 haw).resolve_right fun hback => ?_
    exact Nat.lt_asymm (hbefore k hk a hback) (hwf.operand hn a ha)
  simp [read, hlines, hr]

/-! ## Texts -/

/-- What is known of a graph that has been read. -/
theorem read_sound (h : read s = .ok (g, root)) :
    (∀ piece ∈ s.splitOn 10, piece.length < lineLimit) ∧ g.WellFormed ∧ root < g.nodes.size ∧
      ∃ ref, Describes (Lines.ofText s) ref g root := by
  have hshort := Lines.short_of_read (read_eq_ok.1 h).1
  rcases read_cases hshort with ⟨g', root', hread, hwf, -, ref, hdescribes⟩ | ⟨n, f, hread, -⟩
  · obtain ⟨rfl, rfl⟩ := Prod.mk.inj (Except.ok.inj (h.symm.trans hread))
    exact ⟨hshort, hwf, hdescribes.root_lt, ref, hdescribes⟩
  · rw [hread] at h
    cases h

/-- **What has been read can be written, and read again unless a variable is in the
way.** A text that is read gives a graph and its root. What is written for the root
is read again, as a copy, if the line of no variable is too long, and is refused
for a line that is too long otherwise. No line is too long if the lines of the text
itself were eight bytes shorter than they may be. -/
theorem read_again (h : read s = .ok (g, root)) :
    ∃ text, g.write root = .ok text ∧
      (g.Fits root → ∃ g' root', read text = .ok (g', root') ∧
        g.Copies root (g.written root) g' root') ∧
      (¬g.Fits root → read text = .error .tooLong) ∧
      ((∀ piece ∈ s.splitOn 10, piece.length + 8 < lineLimit) → g.Fits root) := by
  obtain ⟨-, hwf, hroot, ref, hdescribes⟩ := read_sound h
  have hshort := hwf.short_iff hroot
  refine ⟨_, write_eq hroot, fun hfits => ?_, fun hfits => ?_, fun hroom => ?_⟩
  · have hreadable : g.Readable root := by
      refine ⟨hroot, fun id n _ hn => hdescribes.legible hn, fun id hreach => ?_⟩
      rw [Bytes.line, List.length_append]
      exact hshort.2 hfits id hreach
    obtain ⟨text, g', root', hwrite, hread, -, hcopies⟩ := hreadable.read_write hwf
    obtain rfl := Except.ok.inj ((write_eq hroot).symm.trans hwrite)
    exact ⟨g', root', hread, hcopies⟩
  · rw [← hshort] at hfits
    exact hwf.read_write_long hroot (fun id n hn => hdescribes.legible hn) hfits
  · intro id i name hreach hn hname
    obtain ⟨l, hl, other, hdefines⟩ := hdescribes.var hn hname
    obtain ⟨piece, hpiece, rfl⟩ := Lines.mem_ofText hl
    have hline := hdefines.var.2
    have hle := Lines.length_withoutReturn_le piece
    have href := hwf.length_ref_le (Array.getElem?_eq_some_iff.1 hn).1
    have hlimit := hroom piece hpiece
    omega

/-- The text of twice a variable is read again. -/
theorem read_again_twice :
    ∃ g root text g' root', read twice = .ok (g, root) ∧ g.write root = .ok text ∧
      read text = .ok (g', root') := by
  have hroom : ∀ piece ∈ twice.splitOn 10, piece.length + 8 < lineLimit := by decide
  obtain ⟨g, root, hread⟩ := read_of_language
    (fun piece hpiece => Nat.lt_of_le_of_lt (Nat.le_add_right _ 8) (hroom piece hpiece))
    (by decide) twice_language
  obtain ⟨text, hwrite, hagain, -, hfits⟩ := read_again hread
  obtain ⟨g', root', hread', -⟩ := hagain (hfits hroom)
  exact ⟨g, root, text, g', root', hread, hwrite, hread'⟩

/-! ## The longest line -/

/-- A line that defines a variable. -/
def varLine (name : Bytes) : Bytes := utf8 "a var-" ++ name

section

variable {name : Bytes} (hne : name ≠ []) (hsolid : name.Solid)
include hne hsolid

theorem varLine_words : ∀ w ∈ [utf8 "a", utf8 "var-" ++ name], w ≠ [] ∧ w.Solid := by
  have ha : utf8 "a" ≠ [] ∧ ∀ b ∈ utf8 "a", Bytes.isGraphic b = true := by decide +kernel
  simp only [List.forall_mem_cons]
  exact ⟨⟨ha.1, Bytes.solid_of_graphic ha.2⟩,
    ⟨List.append_ne_nil_of_right_ne_nil _ hne, hsolid.append mark_graphic.1⟩,
    List.forall_mem_nil _⟩

omit hne hsolid in
theorem varLine_eq (name : Bytes) :
    varLine name = Bytes.joined [utf8 "a", utf8 "var-" ++ name] := by
  have hsplit : utf8 "a var-" = utf8 "a" ++ 32 :: utf8 "var-" := by decide
  rw [Bytes.joined_cons_cons, varLine, hsplit]
  simp [Bytes.joined, Bytes.join]

theorem varLine_defines : Defines (varLine name) (utf8 "a") (.var name) := by
  refine .of_words ?_ ?_ (.var hne)
  · obtain ⟨rest, hrest⟩ := Bytes.trim_cons (a := Bytes.ofChar 'a') (by decide)
      (utf8 " var-" ++ name)
    have htrim : (varLine name).trim = Bytes.ofChar 'a' :: rest := by
      rw [← hrest, varLine,
        show utf8 "a var-" = Bytes.ofChar 'a' :: utf8 " var-" by decide]
      rfl
    rw [Reader.isSkipped, htrim]
    rfl
  · rw [varLine_eq, Bytes.fields_joined _ (varLine_words hne hsolid)]

theorem varLine_language : Language [varLine name] := by
  have hdefines := varLine_defines hne hsolid
  have hstart : ConformsUpTo [] 0 := fun _ h => absurd h (Nat.not_lt_zero _)
  refine ⟨hstart.concat (.inr (.inr ⟨_, _, hdefines, ?_, ?_⟩)), _, _, List.mem_cons_self, _,
    hdefines⟩
  · simp [Binds]
  · exact fun _ h => absurd h List.not_mem_nil

theorem read_varLine (hlength : name.length + 6 < lineLimit) :
    ∃ g root i, read (varLine name) = .ok (g, root) ∧ g.nodes[root]? = some (.input i) ∧
      g.vars[i]? = some name := by
  obtain ⟨hnewline, hreturn⟩ : 10 ∉ varLine name ∧ (varLine name).getLast? ≠ some 13 := by
    rw [varLine_eq]
    exact Bytes.joined_oneLine fun w hw => (varLine_words hne hsolid w hw).2
  have hline : Lines.ofText (varLine name) = [varLine name] := by
    have hline : varLine name ≠ [] := List.append_ne_nil_of_right_ne_nil _ hne
    rw [Lines.ofText_rest hnewline, if_neg hline, Lines.withoutReturn_of_last hreturn]
  have hshort : ∀ piece ∈ (varLine name).splitOn 10, piece.length < lineLimit := by
    have hmark : (utf8 "a var-").length = 6 := by decide
    rw [List.splitOn_eq_singleton hnewline, List.forall_mem_singleton, varLine, List.length_append,
      hmark, Nat.add_comm]
    exact hlength
  have hroom : (entries [varLine name]).length ≤ capacity :=
    Nat.le_trans (List.length_filter_le _ _) (show 1 ≤ capacity by decide)
  obtain ⟨g, root, hread⟩ := read_of_language hshort (hline ▸ hroom)
    (hline ▸ varLine_language hne hsolid)
  obtain ⟨-, hwf, hroot, ref, hdescribes⟩ := read_sound hread
  -- The root is defined by the only line.
  have hget := Array.getElem?_eq_getElem hroot
  obtain ⟨l, hl, other, c, hdefines, hdenotes⟩ := hdescribes.defined root _ hget
  rw [hline, List.mem_singleton] at hl
  subst hl
  obtain ⟨-, rfl⟩ := hdefines.unique (varLine_defines hne hsolid)
  generalize g.nodes[root] = n at hget hdenotes
  cases hdenotes with
  | var hname => exact ⟨g, root, _, hread, hget, hname⟩

end

/-- A name that just fits on a line behind a name of one byte. -/
def longName : Bytes := List.replicate (lineLimit - 7) (Bytes.ofChar 'c')

/-- A line as long as a line may be, which gets longer when it is written: what is
written for what it says is not read. -/
theorem longest_line_refused :
    ∃ s g root text, read s = .ok (g, root) ∧ g.write root = .ok text ∧
      read text = .error .tooLong := by
  have hlimit : lineLimit = 1048576 := rfl
  have hlength : longName.length = lineLimit - 7 := List.length_replicate
  have hsolid : longName.Solid := by
    refine Bytes.solid_of_graphic fun b hb => ?_
    rw [List.eq_of_mem_replicate hb]
    decide
  have hne : longName ≠ [] := List.ne_nil_of_length_pos (by omega)
  obtain ⟨g, root, i, hread, hn, hname⟩ := read_varLine hne hsolid (by omega)
  obtain ⟨-, hwf, hroot, ref, hdescribes⟩ := read_sound hread
  refine ⟨_, g, root, _, hread, write_eq hroot,
    hwf.read_write_long hroot (fun id n hn => hdescribes.legible hn) ?_⟩
  rw [hwf.short_iff hroot]
  intro hfits
  have hlt := hfits root i longName .root hn hname
  have href : 2 ≤ (Node.ref root).length :=
    Nat.succ_le_succ (List.length_pos_iff.2 (Bytes.hex_ne_nil root))
  omega

end Graph

end ScalarField
