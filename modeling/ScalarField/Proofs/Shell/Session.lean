/-
A session shows the tape of the definitions that it has accepted, whatever was
entered before (`Session.tape_of_accepted`).

A line does one of three things to the definitions (`exec_cases`): it forgets
them, it adds itself, or it leaves them alone. Adding is all or nothing
(`define_cases`). Both hold of every session, so the run lemma is an induction
over what is entered that has no other case.
-/
import ScalarField.Proofs.Graph.Reader
import ScalarField.Shell.Session

namespace ScalarField

namespace Session

/-! ## What is entered -/

/-- What a line is for. -/
inductive Kind where
  | blank
  | query
  | reset
  | definition
  deriving DecidableEq

/-- The commands that ask something or change the mode. -/
def queries : List Bytes := ["help", "mode", "text", "eval", "tape", "simplify"].map utf8

/-- The first word decides what a line is for. -/
def kind (line : Bytes) : Kind :=
  match line.fields with
  | [] => .blank
  | word :: _ =>
    if word.head? = some (Bytes.ofChar '#') then .blank
    else if word = utf8 "reset" then .reset
    else if word ∈ queries then .query
    else .definition

inductive Entry where
  /-- The text of a file to be loaded. -/
  | file (text : Bytes)
  | line (s : Bytes)

def enter (s : Session) : Entry → Reply × Session
  | .file text => s.preload text
  | .line l => s.exec l

/-- Whether what is entered fails. -/
def refuses (s : Session) (e : Entry) : Bool :=
  match (s.enter e).1.result with
  | .ok _ => false
  | .error _ => true

/-- The definitions that stand after `e` is entered, those before it being
`past`. -/
def accepted (s : Session) (past : List Bytes) (e : Entry) : List Bytes :=
  if s.refuses e then past
  else
    match e with
    | .file text => past ++ (Lines.read lineLimit text).lines
    | .line l =>
      match kind l with
      | .reset => []
      | .definition => past ++ [l]
      | .blank | .query => past

/-- A session and the definitions accepted since they were last forgotten, as
they are seen from outside. -/
structure Dialogue where
  session : Session
  accepted : List Bytes

namespace Dialogue

def start (shell : Shell) : Dialogue := ⟨{ shell }, []⟩

def enter (d : Dialogue) (e : Entry) : Dialogue :=
  ⟨(d.session.enter e).2, d.session.accepted d.accepted e⟩

def run (d : Dialogue) (es : List Entry) : Dialogue := es.foldl enter d

end Dialogue

/-! ## One entry -/

/-- Lines are added, and the tape is that of all of them, or nothing changes. -/
theorem define_cases (s : Session) (ls : List Bytes) :
    (∃ t, tapeOf (s.lines ++ ls) = .ok t ∧
      s.define ls = ({}, { s with lines := s.lines ++ ls, tape := some t })) ∨
    ∃ e, tapeOf (s.lines ++ ls) = .error e ∧ s.define ls = (.failed e, s) := by
  unfold define
  cases tapeOf (s.lines ++ ls) with
  | ok t => exact .inl ⟨t, rfl, rfl⟩
  | error e => exact .inr ⟨e, rfl, rfl⟩

theorem onTape_keeps {s : Session} {f : Tape → Reply × Session}
    (h : ∀ t, (f t).2.lines = s.lines ∧ (f t).2.tape = s.tape) :
    (s.onTape f).2.lines = s.lines ∧ (s.onTape f).2.tape = s.tape := by
  unfold onTape
  split
  · exact h _
  · exact ⟨rfl, rfl⟩

theorem switch_keeps (s : Session) (args : List Bytes) :
    (s.switch args).2.lines = s.lines ∧ (s.switch args).2.tape = s.tape := by
  unfold switch
  split
  · split <;> exact ⟨rfl, rfl⟩
  · exact ⟨rfl, rfl⟩

/-- What a line does to the definitions. -/
theorem exec_cases (s : Session) (line : Bytes) :
    (kind line = .reset ∧ s.exec line = ({}, { s with lines := [], tape := none })) ∨
    (kind line = .definition ∧ s.exec line = s.define [line]) ∨
    ((kind line = .blank ∨ kind line = .query) ∧ (s.exec line).2.lines = s.lines ∧
      (s.exec line).2.tape = s.tape) := by
  unfold kind exec
  cases line.fields with
  | nil => exact .inr (.inr ⟨.inl rfl, rfl, rfl⟩)
  | cons word args =>
    simp only [beq_iff_eq]
    by_cases hcomment : word.head? = some (Bytes.ofChar '#')
    · rw [if_pos hcomment, if_pos hcomment]
      exact .inr (.inr ⟨.inl rfl, rfl, rfl⟩)
    rw [if_neg hcomment, if_neg hcomment]
    by_cases hreset : word = utf8 "reset"
    · have hhelp : word ≠ utf8 "help" := by
        rw [hreset]
        decide +kernel
      rw [if_pos hreset, if_neg hhelp, if_pos hreset]
      exact .inl ⟨rfl, rfl⟩
    rw [if_neg hreset, if_neg hreset]
    by_cases hquery : word ∈ queries
    · rw [if_pos hquery]
      refine .inr (.inr ⟨.inr rfl, ?_⟩)
      split
      · exact ⟨rfl, rfl⟩
      split
      · exact s.switch_keeps args
      split
      · exact ⟨rfl, rfl⟩
      split
      · exact onTape_keeps fun t => ⟨rfl, rfl⟩
      split
      · exact onTape_keeps fun t => ⟨rfl, rfl⟩
      split
      · exact onTape_keeps fun t => ⟨rfl, rfl⟩
      · simp_all [queries]
    · have hother : word ≠ utf8 "help" ∧ word ≠ utf8 "mode" ∧ word ≠ utf8 "text" ∧
          word ≠ utf8 "eval" ∧ word ≠ utf8 "tape" ∧ word ≠ utf8 "simplify" := by
        simpa [queries] using hquery
      exact .inr (.inl ⟨if_neg hquery, by simp only [hother, if_false]⟩)

theorem exec_text (s : Session) {line : Bytes} {args : List Bytes}
    (h : line.fields = utf8 "text" :: args) : (s.exec line).1.out = s.lines.flatMap Bytes.line := by
  unfold exec
  rw [h]
  obtain ⟨hcomment, hhelp, hreset, hmode⟩ :
      (utf8 "text").head? ≠ some (Bytes.ofChar '#') ∧ utf8 "text" ≠ utf8 "help" ∧
        utf8 "text" ≠ utf8 "reset" ∧ utf8 "text" ≠ utf8 "mode" := by
    decide +kernel
  simp only [beq_iff_eq, if_neg hcomment, if_neg hhelp, if_neg hreset, if_neg hmode, if_true]

/-- What entering `e` comes to, for the definitions that stand and for those
accepted so far. -/
inductive Effect (s : Session) (past : List Bytes) (e : Entry) : Prop where
  | forgets (hok : s.refuses e = false) (hlines : (s.enter e).2.lines = [])
      (htape : (s.enter e).2.tape = none) (hpast : s.accepted past e = [])
  | adds (ls : List Bytes) (t : Tape) (hok : s.refuses e = false)
      (ht : tapeOf (s.lines ++ ls) = .ok t)
      (hlines : (s.enter e).2.lines = s.lines ++ ls) (htape : (s.enter e).2.tape = some t)
      (hpast : s.accepted past e = past ++ ls)
  | keeps (hlines : (s.enter e).2.lines = s.lines) (htape : (s.enter e).2.tape = s.tape)
      (hpast : s.accepted past e = past)

theorem Effect.of_define {s : Session} {past ls : List Bytes} {e : Entry}
    (henter : s.enter e = s.define ls)
    (hpast : s.refuses e = false → s.accepted past e = past ++ ls) : s.Effect past e := by
  rcases s.define_cases ls with ⟨t, ht, hdefine⟩ | ⟨err, -, hdefine⟩
  · rw [hdefine] at henter
    have hok : s.refuses e = false := by simp only [refuses, henter]
    exact .adds ls t hok ht (by rw [henter]) (by rw [henter]) (hpast hok)
  · rw [hdefine] at henter
    have hfail : s.refuses e = true := by simp only [refuses, henter, Reply.failed]
    exact .keeps (by rw [henter]) (by rw [henter]) (if_pos hfail)

theorem effect (s : Session) (past : List Bytes) (e : Entry) : s.Effect past e := by
  cases e with
  | file text =>
    by_cases hlong : (Lines.read lineLimit text).tooLong = true
    · have henter : s.enter (.file text) = (.failed .longLine, s) := if_pos hlong
      have hfail : s.refuses (.file text) = true := by simp only [refuses, henter, Reply.failed]
      exact .keeps (by rw [henter]) (by rw [henter]) (if_pos hfail)
    · have henter : s.enter (.file text) = s.define (Lines.read lineLimit text).lines :=
        if_neg hlong
      refine .of_define henter fun hok => ?_
      simp only [accepted, hok, Bool.false_eq_true, if_false]
  | line l =>
    rcases s.exec_cases l with ⟨hkind, hexec⟩ | ⟨hkind, hexec⟩ | ⟨hkind, hlines, htape⟩
    · have henter : s.enter (.line l) = ({}, { s with lines := [], tape := none }) := hexec
      have hok : s.refuses (.line l) = false := by simp only [refuses, henter]
      refine .forgets hok (by rw [henter]) (by rw [henter]) ?_
      simp only [accepted, hok, Bool.false_eq_true, if_false, hkind]
    · refine .of_define hexec fun hok => ?_
      simp only [accepted, hok, Bool.false_eq_true, if_false, hkind]
    · refine .keeps hlines htape ?_
      unfold accepted
      split
      · rfl
      · rcases hkind with hkind | hkind <;> simp only [hkind]

/-- A failure leaves lines and tape. -/
theorem enter_of_error {s : Session} {e : Entry} {err : ShellError}
    (h : (s.enter e).1.result = .error err) :
    (s.enter e).2.lines = s.lines ∧ (s.enter e).2.tape = s.tape := by
  have hfail : s.refuses e = true := by simp only [refuses, h]
  rcases s.effect [] e with ⟨hok, -⟩ | ⟨-, -, hok, -⟩ | ⟨hlines, htape, -⟩
  · exact absurd (hok.symm.trans hfail) Bool.false_ne_true
  · exact absurd (hok.symm.trans hfail) Bool.false_ne_true
  · exact ⟨hlines, htape⟩

theorem exec_keeps {s : Session} {line : Bytes} (h : kind line = .blank ∨ kind line = .query) :
    (s.exec line).2.lines = s.lines ∧ (s.exec line).2.tape = s.tape := by
  rcases s.exec_cases line with ⟨hkind, -⟩ | ⟨hkind, -⟩ | ⟨-, hkeeps⟩
  · simp [hkind] at h
  · simp [hkind] at h
  · exact hkeeps

theorem exec_definition {s : Session} {line : Bytes} (h : kind line = .definition) :
    s.exec line = s.define [line] := by
  rcases s.exec_cases line with ⟨hkind, -⟩ | ⟨-, hexec⟩ | ⟨hkind, -⟩
  · simp [hkind] at h
  · exact hexec
  · simp [h] at hkind

/-! ## Any entries -/

/-- The tape of lines is that of the graph which they are read as. -/
theorem tapeOf_eq_ok {ls : List Bytes} {t : Tape} : tapeOf ls = .ok t ↔
    ∃ g root, Graph.read (Bytes.join (utf8 "\n") ls) = .ok (g, root) ∧
      Tape.buildOutputs g = .ok t := by
  have hmap : ∀ r : Except TapeError Tape, r.mapError ShellError.tape = .ok t ↔ r = .ok t := by
    intro r
    cases r with
    | error e => exact ⟨nofun, nofun⟩
    | ok u => exact ⟨fun h => congrArg _ (Except.ok.inj h), fun h => congrArg _ (Except.ok.inj h)⟩
  unfold tapeOf
  rcases Graph.read (Bytes.join (utf8 "\n") ls) with e | ⟨g, root⟩
  · simp
  · simp [hmap]

theorem tapeOf_nil : ∃ e, tapeOf [] = .error e := ⟨_, rfl⟩

namespace Dialogue

/-- The session holds the definitions accepted so far and their tape. -/
structure Current (d : Dialogue) : Prop where
  lines : d.session.lines = d.accepted
  tape : d.accepted = [] ∧ d.session.tape = none ∨
    ∃ t, tapeOf d.accepted = .ok t ∧ d.session.tape = some t

theorem current_start (shell : Shell) : (start shell).Current := ⟨rfl, .inl ⟨rfl, rfl⟩⟩

theorem Current.enter {d : Dialogue} (h : d.Current) (e : Entry) : (d.enter e).Current := by
  rcases d.session.effect d.accepted e with
    ⟨-, hlines, htape, hpast⟩ | ⟨ls, t, -, ht, hlines, htape, hpast⟩ | ⟨hlines, htape, hpast⟩
  · exact ⟨hlines.trans hpast.symm, .inl ⟨hpast, htape⟩⟩
  · rw [h.lines, ← hpast] at ht hlines
    exact ⟨hlines, .inr ⟨t, ht, htape⟩⟩
  · refine ⟨hlines.trans (h.lines.trans hpast.symm), ?_⟩
    simp only [Dialogue.enter, hpast, htape]
    exact h.tape

/-- Whatever is entered, the session holds what was accepted and its tape. -/
theorem Current.run (es : List Entry) {d : Dialogue} (h : d.Current) : (d.run es).Current := by
  induction es generalizing d with
  | nil => exact h
  | cons e es ih => exact ih (h.enter e)

/-- The definitions accepted so far, loaded at once into any new session. -/
theorem Current.define {d : Dialogue} (h : d.Current) (shell : Shell) :
    (({ shell } : Session).define d.accepted).2.lines = d.session.lines ∧
      (({ shell } : Session).define d.accepted).2.tape = d.session.tape ∧
      (d.accepted ≠ [] → (({ shell } : Session).define d.accepted).1.result = .ok ()) := by
  rcases h.tape with ⟨hnil, htape⟩ | ⟨t, ht, htape⟩
  · obtain ⟨e, he⟩ := tapeOf_nil
    have hlines := h.lines
    rw [hnil] at hlines ⊢
    simp [Session.define, he, hlines, htape]
  · simp [Session.define, ht, htape, h.lines]

end Dialogue

theorem flatMap_line {ls : List Bytes} (h : ls ≠ []) :
    ls.flatMap Bytes.line = Bytes.join (utf8 "\n") ls ++ [10] := by
  have hnewline : utf8 "\n" = [10] := by decide +kernel
  induction ls with
  | nil => exact absurd rfl h
  | cons l rest ih =>
    cases rest with
    | nil => simp [Bytes.line, Bytes.join, Bytes.ofChar]
    | cons k rest =>
      rw [List.flatMap_cons, ih (List.cons_ne_nil k rest)]
      simp [Bytes.line, Bytes.join, Bytes.ofChar, hnewline]

/-- The tape that a session shows is the tape of its definitions. -/
structure Dialogue.Faithful (d : Dialogue) : Prop where
  /-- There are no definitions and no tape, or the lines are read as a graph, and
  the tape is the one built from it. -/
  shown : d.session.lines = [] ∧ d.session.tape = none ∨
    ∃ g root t, Graph.read (Bytes.join (utf8 "\n") d.session.lines) = .ok (g, root) ∧
      Tape.buildOutputs g = .ok t ∧ d.session.tape = some t
  /-- A definition is taken if the lines with it can be read and have a tape. -/
  taken : ∀ line g root t, kind line = .definition →
    Graph.read (Bytes.join (utf8 "\n") (d.session.lines ++ [line])) = .ok (g, root) →
    Tape.buildOutputs g = .ok t →
    (d.session.exec line).1.result = .ok () ∧
      (d.session.exec line).2.lines = d.session.lines ++ [line] ∧
      (d.session.exec line).2.tape = some t
  /-- What fails leaves lines and tape as they are. -/
  failed : ∀ e err, (d.session.enter e).1.result = .error err →
    (d.session.enter e).2.lines = d.session.lines ∧ (d.session.enter e).2.tape = d.session.tape
  /-- So do blank lines, comments and queries. -/
  kept : ∀ line, kind line = .blank ∨ kind line = .query →
    (d.session.exec line).2.lines = d.session.lines ∧ (d.session.exec line).2.tape = d.session.tape
  /-- A new session into which the definitions accepted are loaded at once has the
  same lines and the same tape. -/
  loaded : ∀ shell : Shell,
    (({ shell } : Session).define d.accepted).2.lines = d.session.lines ∧
      (({ shell } : Session).define d.accepted).2.tape = d.session.tape ∧
      (d.accepted ≠ [] → (({ shell } : Session).define d.accepted).1.result = .ok ())
  /-- The text that the session prints is read, and gives the same tape. -/
  printed : d.session.lines ≠ [] → ∀ line args, line.fields = utf8 "text" :: args →
    ∃ g root t, Graph.read (d.session.exec line).1.out = .ok (g, root) ∧
      Tape.buildOutputs g = .ok t ∧ d.session.tape = some t

/-- **A session shows the tape of its definitions**, whatever files and lines
have been entered. -/
theorem tape_of_accepted (shell : Shell) (es : List Entry) :
    ((Dialogue.start shell).run es).Faithful := by
  have hcurrent := (Dialogue.current_start shell).run es
  generalize (Dialogue.start shell).run es = d at hcurrent
  have hshown : d.session.lines = [] ∧ d.session.tape = none ∨
      ∃ g root t, Graph.read (Bytes.join (utf8 "\n") d.session.lines) = .ok (g, root) ∧
        Tape.buildOutputs g = .ok t ∧ d.session.tape = some t := by
    rw [hcurrent.lines]
    refine hcurrent.tape.imp_right fun ⟨t, ht, htape⟩ => ?_
    obtain ⟨g, root, hread, hbuild⟩ := tapeOf_eq_ok.1 ht
    exact ⟨g, root, t, hread, hbuild, htape⟩
  refine ⟨hshown, fun line g root t hkind hread hbuild => ?_, fun e err herr => ?_,
    fun line hkind => ?_, hcurrent.define, fun hlines line args htext => ?_⟩
  · have ht : tapeOf (d.session.lines ++ [line]) = .ok t := tapeOf_eq_ok.2 ⟨g, root, hread, hbuild⟩
    simp [exec_definition hkind, define, ht]
  · exact enter_of_error herr
  · exact exec_keeps hkind
  · rcases hshown with ⟨hnil, -⟩ | ⟨g, root, t, hread, hbuild, htape⟩
    · exact absurd hnil hlines
    · refine ⟨g, root, t, ?_, hbuild, htape⟩
      rw [d.session.exec_text htext, flatMap_line hlines]
      exact Graph.read_concat_newline hread

theorem read_axis : ∃ g root t, Graph.read (utf8 "a var-x") = .ok (g, root) ∧
    Tape.buildOutputs g = .ok t := by
  obtain ⟨hlines, hlimit⟩ : (Lines.read Graph.lineLimit (utf8 "a var-x")).lines = [utf8 "a var-x"] ∧
      (Lines.read Graph.lineLimit (utf8 "a var-x")).tooLong = false := by
    decide +kernel
  obtain ⟨hskip, hfields, hmark, hname⟩ : Reader.isSkipped (utf8 "a var-x") = false ∧
      (utf8 "a var-x").fields = [utf8 "a", utf8 "var-x"] ∧
      Reader.varMark.isPrefixOf (utf8 "var-x") = true ∧
      (utf8 "var-x").drop Reader.varMark.length = utf8 "x" := by
    decide +kernel
  obtain ⟨hx, hy, hz⟩ : utf8 "x" = [120] ∧ utf8 "y" = [121] ∧ utf8 "z" = [122] := by decide +kernel
  have hinput : Op.ofCode? Op.input.code = some .input := by decide
  simp [Graph.read, hlines, hlimit, Reader.lines, Reader.line, hskip, hfields, Reader.start,
    Reader.define, hmark, hname, Graph.var, Graph.register, Graph.empty, Graph.emptyWith,
    Graph.bare, Graph.axes, hx, hy, hz, Std.HashMap.getElem_insert, Graph.input, Graph.insert, Graph.node?,
    Instr.op?, hinput, Graph.intern, Graph.find?, Node.canonical, Graph.capacity,
    Graph.output, Tape.buildOutputs, Tape.build, Graph.reachable, Graph.sweep, Tape.Layout.placeAll,
    Tape.Layout.capacity, Node.args]

theorem tapeOf_lone_word : ∃ e, tapeOf ([utf8 "a var-x"] ++ [utf8 "b"]) = .error e := by
  have hlines : (Lines.read Graph.lineLimit
      (Bytes.join (utf8 "\n") ([utf8 "a var-x"] ++ [utf8 "b"]))).lines =
        [utf8 "a var-x", utf8 "b"] := by
    decide +kernel
  obtain ⟨hskip, hfields⟩ : Reader.isSkipped (utf8 "b") = false ∧
      (utf8 "b").fields = [utf8 "b"] := by
    decide +kernel
  have hshape : ∀ r : Reader, r.line (utf8 "b") = .error .shape := fun r => by
    simp [Reader.line, hskip, hfields]
  cases htape : tapeOf ([utf8 "a var-x"] ++ [utf8 "b"]) with
  | error e => exact ⟨e, rfl⟩
  | ok t =>
    obtain ⟨g, root, hread, -⟩ := tapeOf_eq_ok.1 htape
    obtain ⟨-, r, hr, -⟩ := Graph.read_eq_ok.1 hread
    rw [hlines] at hr
    simp only [Reader.lines, hshape] at hr
    split at hr <;> cases hr

/-- A definition, a line that is refused, and a change of mode. -/
theorem tape_of_accepted_axis :
    ∃ d t, d = (Dialogue.start ⟨.point, .auto, {}, {}, [], false⟩).run
        [.line (utf8 "a var-x"), .line (utf8 "b"), .line (utf8 "mode grad")] ∧
      d.session.lines = [utf8 "a var-x"] ∧ d.session.tape = some t := by
  have hfaithful := tape_of_accepted ⟨.point, .auto, {}, {}, [], false⟩
  have hstart : (Dialogue.start ⟨.point, .auto, {}, {}, [], false⟩).session.lines = [] := rfl
  generalize Dialogue.start ⟨.point, .auto, {}, {}, [], false⟩ = d at hfaithful hstart ⊢
  obtain ⟨hdefinition, hword, hmode⟩ : kind (utf8 "a var-x") = .definition ∧
      kind (utf8 "b") = .definition ∧ kind (utf8 "mode grad") = .query := by
    decide +kernel
  obtain ⟨g, root, t, hread, hbuild⟩ := read_axis
  have htaken := (hfaithful []).taken (utf8 "a var-x") g root t hdefinition
  simp only [Dialogue.run, List.foldl_nil, hstart, List.nil_append] at htaken
  have hlines : (d.run [.line (utf8 "a var-x")]).session.lines = [utf8 "a var-x"] :=
    (htaken hread hbuild).2.1
  obtain ⟨err, herr⟩ : ∃ err, ((d.run [.line (utf8 "a var-x")]).session.exec
      (utf8 "b")).1.result = .error err := by
    obtain ⟨err, herr⟩ := tapeOf_lone_word
    exact ⟨err, by simp only [exec_definition hword, define, hlines, herr]; rfl⟩
  obtain ⟨hlines', -⟩ := (hfaithful [.line (utf8 "a var-x")]).failed (.line (utf8 "b")) err herr
  obtain ⟨hlines'', -⟩ := (hfaithful [.line (utf8 "a var-x"), .line (utf8 "b")]).kept
    (utf8 "mode grad") (.inr hmode)
  have hall : (d.run [.line (utf8 "a var-x"), .line (utf8 "b"),
      .line (utf8 "mode grad")]).session.lines = [utf8 "a var-x"] :=
    hlines''.trans (hlines'.trans hlines)
  rcases (hfaithful [.line (utf8 "a var-x"), .line (utf8 "b"), .line (utf8 "mode grad")]).shown with
    ⟨hnil, -⟩ | ⟨-, -, t, -, -, htape⟩
  · exact absurd (hnil.symm.trans hall) (List.cons_ne_nil _ _).symm
  · exact ⟨_, t, rfl, hall, htape⟩

end Session

end ScalarField
