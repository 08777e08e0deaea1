/-
A tape cut down to some of its slots (`Tape.restrict`), and the slots that its
outputs are computed from (`Tape.Needs`).

A reduced tape in which nothing is forwarded is the tape cut down to the slots
that were kept (`Forwarding.Reduces.eq_restrict`), and if every slot that was
kept is used, these are the slots that are needed
(`Forwarding.Reduces.mem_src_iff`).
-/
import ScalarField.Proofs.Tape.Rewrite

namespace ScalarField

attribute [ext] Tape

namespace Tape

/-- What the outputs are computed from: the outputs, and the operands of
everything that they are computed from. -/
inductive Needs (t : Tape) : Nat → Prop where
  | output {o : Nat} (h : o ∈ t.outputs) : t.Needs o
  | operand {k a : Nat} {i : Instr} (h : t.Needs k) (hi : t.instrs[k]? = some i)
      (ha : a ∈ i.args) : t.Needs a

/-- If every slot is an output or an operand, all are needed: by induction from
the last slot down, since a slot is read after it. -/
theorem WellFormed.needs_of_allUsed {t : Tape} (hwf : t.WellFormed) (hused : t.AllUsed) {k : Nat}
    (hk : k < t.size) : t.Needs k := by
  rcases hused k hk with hout | ⟨j, i, hi, hmem⟩
  · exact .output hout
  · have hj : j < t.size := (Array.getElem?_eq_some_iff.1 hi).1
    have hlt : k < j := (hwf.instr hi).args k hmem
    exact (needs_of_allUsed hwf hused hj).operand hi hmem
  termination_by t.size - k

/-- The tape of the slots in a list alone: a slot is numbered by its place in
the list, in operands and outputs as well. -/
def restrict (t : Tape) (src : List Nat) : Tape where
  instrs := (src.filterMap fun j => (t.instrs[j]?).map fun i =>
    Forwarding.withArgs i (i.args.map src.idxOf)).toArray
  outputs := t.outputs.map src.idxOf
  vars := t.vars

namespace Forwarding

/-- Every slot stays where it is. -/
def Idle (f : Forwarding) : Prop := ∀ a b : Nat, f.forward[a]? = some b → b = a

variable {t s : Tape} {f : Forwarding} {src : List Nat}

theorem idxOf_of_getElem? (hnodup : src.Nodup) {m j : Nat} (h : src[m]? = some j) :
    src.idxOf j = m := by
  obtain ⟨hm, rfl⟩ := List.getElem?_eq_some_iff.1 h
  exact hnodup.idxOf_getElem m hm

theorem map_idxOf_eq (hnodup : src.Nodup) {as bs : List Nat}
    (h : List.Forall₂ (fun a b => src[b]? = some a) as bs) : as.map src.idxOf = bs := by
  induction h with
  | nil => rfl
  | cons hab _ ih => rw [List.map_cons, idxOf_of_getElem? hnodup hab, ih]

theorem filterMap_eq_of_forall₂ {α β : Type} {fn : α → Option β} {as : List α} {bs : List β}
    (h : List.Forall₂ (fun a b => fn a = some b) as bs) : as.filterMap fn = bs := by
  induction h with
  | nil => rfl
  | cons hab _ ih => rw [List.filterMap_cons_some hab, ih]

/-- The tape reduced to some slots, none of them forwarded, is the tape cut down
to these slots. -/
theorem Reduces.eq_restrict (h : Reduces t f s src) (hidle : f.Idle) (hnodup : src.Nodup) :
    s = t.restrict src := by
  have hinstrs : s.instrs = (t.restrict src).instrs := by
    rw [← Array.toList_inj]
    refine (filterMap_eq_of_forall₂ (List.forall₂_iff_get.2 ⟨h.length, ?_⟩)).symm
    intro m hm hm'
    obtain ⟨-, i, args, hi, hs, hall⟩ := h.instr (List.getElem?_eq_getElem hm)
    have hargs : i.args.map src.idxOf = args := by
      refine map_idxOf_eq hnodup (hall.imp fun a b hab => ?_)
      obtain ⟨c, hc, -, hb⟩ := hab
      rw [hb, hidle a c hc]
    have hget : s.instrs[m]? = some (s.instrs.toList.get ⟨m, hm'⟩) := by simp
    rw [List.get_eq_getElem, hi, Option.map_some, hargs, ← hs, hget]
  have houtputs : s.outputs = (t.restrict src).outputs := by
    rw [← Array.toList_inj, restrict, Array.toList_map]
    refine (map_idxOf_eq hnodup (h.output.imp fun o p hop => ?_)).symm
    obtain ⟨c, hc, hp⟩ := hop
    rw [hp, hidle o c hc]
  exact Tape.ext hinstrs houtputs h.vars

theorem withArgs_self (i : Instr) : withArgs i i.args = i := by
  rcases harity : i.arity with _ | _ | n <;> simp [Instr.args, harity, withArgs]

theorem restrict_range (hwf : t.WellFormed) : t.restrict (List.range t.size) = t := by
  have hself : ∀ as : List Nat, (∀ a ∈ as, a < t.size) →
      as.map (List.range t.size).idxOf = as := by
    intro as has
    refine map_idxOf_eq List.nodup_range (List.forall₂_same.2 fun a ha => ?_)
    exact List.getElem?_range (has a ha)
  have hinstrs : (t.restrict (List.range t.size)).instrs = t.instrs := by
    rw [← Array.toList_inj]
    refine filterMap_eq_of_forall₂ (List.forall₂_iff_get.2 ⟨by simp [Tape.size], ?_⟩)
    intro m hm hm'
    have hi : t.instrs[m]? = some (t.instrs.toList.get ⟨m, hm'⟩) := by simp
    have hlt : m < t.size := by simpa using hm
    rw [List.get_eq_getElem, List.getElem_range, hi, Option.map_some,
      hself _ fun a ha => Nat.lt_trans ((hwf.instr hi).args a ha) hlt, withArgs_self]
  have houtputs : (t.restrict (List.range t.size)).outputs = t.outputs := by
    rw [← Array.toList_inj, restrict, Array.toList_map]
    exact hself _ fun o ho => hwf.output o (by simpa using ho)
  exact Tape.ext hinstrs houtputs rfl

/-- A slot that is needed is kept, where nothing is forwarded. -/
theorem Reduces.mem_src (h : Reduces t f s src) (hidle : f.Idle) {k : Nat} (hk : t.Needs k) :
    k ∈ src := by
  induction hk with
  | output ho =>
    obtain ⟨p, -, c, hc, hp⟩ := exists_of_mem_left h.output (by simpa using ho)
    rw [hidle _ _ hc] at hp
    exact List.mem_of_getElem? hp
  | operand _ hi ha ih =>
    obtain ⟨m, hm⟩ := List.mem_iff_getElem?.1 ih
    obtain ⟨-, i', args, hi', -, hall⟩ := h.instr hm
    obtain rfl := Option.some.inj (hi.symm.trans hi')
    obtain ⟨b, -, c, hc, -, hb⟩ := exists_of_mem_left hall ha
    rw [hidle _ _ hc] at hb
    exact List.mem_of_getElem? hb

theorem Reduces.needs (h : Reduces t f s src) (hidle : f.Idle) {m : Nat} (hm : s.Needs m) :
    ∀ j : Nat, src[m]? = some j → t.Needs j := by
  induction hm with
  | @output p hp =>
    intro j hj
    obtain ⟨o, ho, c, hc, hpc⟩ := exists_of_mem_right h.output (by simpa using hp)
    rw [hidle _ _ hc, hj] at hpc
    obtain rfl := Option.some.inj hpc
    exact .output (by simpa using ho)
  | @operand k b i' _ hi' hb ih =>
    intro j hj
    have hk : k < src.length := h.length ▸ (Array.getElem?_eq_some_iff.1 hi').1
    have hsrc := List.getElem?_eq_getElem hk
    obtain ⟨-, i, args, hi, hs, hall⟩ := h.instr hsrc
    obtain rfl := Option.some.inj (hs.symm.trans hi')
    rw [withArgs_args hall.length_eq] at hb
    obtain ⟨a, ha, c, hc, -, hbc⟩ := exists_of_mem_right hall hb
    rw [hidle _ _ hc, hj] at hbc
    obtain rfl := Option.some.inj hbc
    exact (ih _ hsrc).operand hi ha

/-- Exactly the slots that are needed are kept, if nothing is forwarded and
everything that is kept is used. -/
theorem Reduces.mem_src_iff (h : Reduces t f s src) (hidle : f.Idle)
    (hneeds : ∀ m < s.size, s.Needs m) {k : Nat} : k ∈ src ↔ t.Needs k := by
  refine ⟨fun hk => ?_, h.mem_src hidle⟩
  obtain ⟨m, hm⟩ := List.mem_iff_getElem?.1 hk
  exact h.needs hidle (hneeds m (h.length ▸ (List.getElem?_eq_some_iff.1 hm).1)) k hm

end Forwarding

end Tape

end ScalarField
