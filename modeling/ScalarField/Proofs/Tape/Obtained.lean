/-
Tapes that a program can come by: built from a graph, decoded, and simplified
any number of times (`Tape.Obtained`).

Neither building nor simplifying makes a tape longer than what it starts from,
and instructions get slots for operands and keep their other fields. So every
tape obtained is regular (`Obtained.regular`): it fits its bytes, names and
tables that are too long apart (`Regular.encodable`).
-/
import ScalarField.Proofs.Tape.Codec
import ScalarField.Proofs.Tape.OfGraph
import ScalarField.Proofs.Tape.Rewrite

namespace ScalarField

namespace Tape

/-- A tape that was built from a graph or decoded, and simplified by any choices
any number of times. -/
inductive Obtained : Tape → Prop where
  | built {hash : Node → Hashcode} {cs : List GraphCall} {outputs : List NodeId} {t : Tape}
    (h : build ((History.start hash).calls cs).graph outputs = .ok t) : Obtained t
  | decoded {s : Bytes} {t : Tape} (h : decode s = .ok t) : Obtained t
  | simplified {t s : Tape} {choices : List Choice} (ht : Obtained t)
    (h : t.simplify choices = .ok s) : Obtained s

/-! ## Sizes -/

theorem Layout.size_placeAll_le {live : Array Bool} : ∀ {ns : List Node} {l l' : Layout}
    {id : NodeId}, l.placeAll live id ns = .ok l' → l'.instrs.size ≤ l.instrs.size + ns.length
  | [], l, l', id, h => by
    cases h
    exact Nat.le_refl _
  | n :: rest, l, l', id, h => by
    rw [List.length_cons]
    unfold placeAll at h
    split at h
    · split at h
      · cases h
      · have hrest := size_placeAll_le h
        rw [place, Array.size_push] at hrest
        omega
    · have hrest := size_placeAll_le h
      omega

/-- A tape is built for nodes that exist, and has no more instructions than
there are nodes. -/
theorem size_build_le {g : Graph} {outputs : List NodeId} {t : Tape}
    (h : build g outputs = .ok t) :
    outputs ≠ [] ∧ (∀ o ∈ outputs, o < g.nodes.size) ∧ t.size ≤ g.nodes.size := by
  unfold build at h
  split at h
  · cases h
  · next hne =>
    split at h
    · cases h
    · next hfind =>
      split at h
      · cases h
      · next l hl =>
        cases h
        refine ⟨by simpa using hne, by simpa using hfind, ?_⟩
        simpa [size] using Layout.size_placeAll_le hl

theorem Forwarding.size_keep_le {f : Forwarding} {live : Bitmap} :
    ∀ {is : List Instr} {k k' : Kept} {slot : Nat}, f.keep live k slot is = .ok k' →
      k'.instrs.size ≤ k.instrs.size + is.length
  | [], k, k', slot, h => by
    cases h
    exact Nat.le_refl _
  | i :: rest, k, k', slot, h => by
    rw [List.length_cons]
    unfold keep at h
    split at h
    · cases h
    · have hrest := size_keep_le h
      omega
    · split at h
      · cases h
      · have hrest := size_keep_le h
        rw [Array.size_push] at hrest
        omega

theorem size_simplify_le {t s : Tape} {choices : List Choice} (h : t.simplify choices = .ok s) :
    s.size ≤ t.size := by
  unfold simplify at h
  split at h
  · cases h
  · split at h
    · cases h
    · next f hf =>
      split at h
      · cases h
      · next s' hs =>
        cases h
        unfold Forwarding.finish at hs
        repeat' split at hs
        all_goals cases hs
        next hk _ _ _ =>
        simpa [size] using Forwarding.size_keep_le hk

/-! ## What every tape obtained is like -/

/-- A valid tape that is short enough to be numbered, with fields to match. The
variable of an instruction may be any that the tape has. -/
structure Regular (t : Tape) : Prop where
  valid : t.validate = .ok ()
  size_lt : t.size < 2 ^ 32
  left : ∀ i ∈ t.instrs, i.left < 2 ^ 32
  right : ∀ i ∈ t.instrs, i.right < 2 ^ 32
  var_nonneg : ∀ i ∈ t.instrs, 0 ≤ i.var
  var_lt : ∀ i ∈ t.instrs, i.var < 2 ^ 32 ∨ i.var < t.vars.size

theorem Regular.wellFormed {t : Tape} (h : t.Regular) : t.WellFormed := (validate_eq_ok.1 h.valid).2

theorem Encodable.regular {t : Tape} (h : t.Encodable) (hvalid : t.validate = .ok ()) :
    t.Regular where
  valid := hvalid
  size_lt := h.size_lt
  left i hi := (h.instrs i hi).left
  right i hi := (h.instrs i hi).right
  var_nonneg i hi := (h.instrs i hi).var_nonneg
  var_lt i hi := .inl (h.instrs i hi).var_lt

/-- A regular tape fits its bytes, if its names and tables are not too long. -/
theorem Regular.encodable {t : Tape} (h : t.Regular) (hvars : t.vars.size < 2 ^ 32)
    (houtputs : t.outputs.size < 2 ^ 32) (hnames : ∀ name ∈ t.vars, name.length ≤ maxName) :
    t.Encodable where
  names := hnames
  instrs i hi := ⟨h.left i hi, h.right i hi, h.var_nonneg i hi, by
    have hvar := h.var_lt i hi
    omega⟩
  outputs o ho := Nat.lt_trans (h.wellFormed.output o ho) h.size_lt
  vars_lt := hvars
  size_lt := h.size_lt
  outputs_lt := houtputs

namespace Forwarding

theorem withArgs_left (i : Instr) (args : List Nat) :
    (withArgs i args).left = i.left ∨ (withArgs i args).left ∈ args := by
  rcases args with _ | ⟨a, _ | ⟨b, rest⟩⟩ <;> simp [withArgs]

theorem withArgs_right (i : Instr) (args : List Nat) :
    (withArgs i args).right = i.right ∨ (withArgs i args).right ∈ args := by
  rcases args with _ | ⟨a, _ | ⟨b, rest⟩⟩ <;> simp [withArgs]

theorem Reduces.regular {t s : Tape} {f : Forwarding} {src : List Nat} (h : Reduces t f s src)
    (ht : t.Regular) (hsize : s.size ≤ t.size) : s.Regular := by
  have hlt : s.size < 2 ^ 32 := Nat.lt_of_le_of_lt hsize ht.size_lt
  have hinstr : ∀ i' ∈ s.instrs, ∃ i ∈ t.instrs, ∃ args, i' = withArgs i args ∧
      ∀ b ∈ args, b < 2 ^ 32 := by
    intro i' hi'
    obtain ⟨m, hm⟩ := Array.mem_iff_getElem?.1 hi'
    have hms : m < s.size := (Array.getElem?_eq_some_iff.1 hm).1
    obtain ⟨-, i, args, hi, hs, hall⟩ := h.instr (List.getElem?_eq_getElem (h.length ▸ hms))
    refine ⟨i, Array.mem_of_getElem? hi, args, by simpa [hm] using hs, fun b hb => ?_⟩
    obtain ⟨a, -, c, -, hbm, -⟩ := exists_of_mem_right hall hb
    omega
  refine ⟨h.validate ht.valid, hlt, fun i' hi' => ?_, fun i' hi' => ?_, fun i' hi' => ?_,
    fun i' hi' => ?_⟩
  all_goals obtain ⟨i, hi, args, rfl, hargs⟩ := hinstr i' hi'
  · rcases withArgs_left i args with hleft | hleft
    · exact hleft ▸ ht.left i hi
    · exact hargs _ hleft
  · rcases withArgs_right i args with hright | hright
    · exact hright ▸ ht.right i hi
    · exact hargs _ hright
  · rw [withArgs_var]
    exact ht.var_nonneg i hi
  · rw [withArgs_var, h.vars]
    exact ht.var_lt i hi

end Forwarding

end Tape

theorem Graph.WellFormed.toTape_regular {g : Graph} (hwf : g.WellFormed) {outputs : List NodeId}
    (hne : outputs ≠ []) (hlt : ∀ o ∈ outputs, o < g.nodes.size) :
    (g.toTape outputs).Regular := by
  have hcapacity : g.nodes.size < 2 ^ 32 := Nat.lt_of_le_of_lt hwf.size_le (by decide)
  have hnode : ∀ i ∈ (g.toTape outputs).instrs, ∃ (k : Nat) (n : Node),
      g.nodes[k]? = some n ∧ n.toInstr = i := by
    intro i hi
    obtain ⟨k, hk⟩ := Array.mem_iff_getElem?.1 hi
    exact ⟨k, Graph.toTape_instr.1 hk⟩
  have hoperand : ∀ {k : Nat} {n : Node}, g.nodes[k]? = some n → ∀ a ∈ n.args, a < 2 ^ 32 := by
    intro k n hk a ha
    have hkn : k < g.nodes.size := (Array.getElem?_eq_some_iff.1 hk).1
    exact Nat.lt_trans (hwf.operand hk a ha) (Nat.lt_trans hkn hcapacity)
  refine ⟨Tape.validate_eq_ok.2 ⟨by simpa [Graph.toTape] using hne, hwf.toTape hlt⟩,
    by rwa [Graph.toTape_size], fun i hi => ?_, fun i hi => ?_, fun i hi => ?_, fun i hi => ?_⟩
  all_goals obtain ⟨k, n, hk, rfl⟩ := hnode i hi
  · cases n with
    | unary u a => exact hoperand hk a (by simp [Node.args])
    | binary o a b => exact hoperand hk a (by simp [Node.args])
    | _ => exact Nat.two_pow_pos 32
  · cases n with
    | binary o a b => exact hoperand hk b (by simp [Node.args])
    | _ => exact Nat.two_pow_pos 32
  · exact n.toInstr_var_nonneg
  · cases n with
    | input v => exact .inr (Int.ofNat_lt.2 (hwf.input hk))
    | _ => exact .inl (by simp [Node.toInstr])

namespace Tape

theorem build_regular {g : Graph} (hwf : g.WellFormed) {outputs : List NodeId} {t : Tape}
    (h : build g outputs = .ok t) : t.Regular := by
  obtain ⟨hne, hlt, hsize⟩ := size_build_le h
  obtain ⟨u, src, hu, hred⟩ := hwf.build_reduces hne hlt
  obtain rfl : t = u := Except.ok.inj (h.symm.trans hu)
  exact hred.regular (hwf.toTape_regular hne hlt) (by rwa [Graph.toTape_size])

/-- Every tape obtained is regular. -/
theorem Obtained.regular {t : Tape} (h : t.Obtained) : t.Regular := by
  induction h with
  | @built hash cs _ _ h =>
    exact build_regular (History.Sound.calls cs (History.sound_start hash)).graph h
  | decoded h =>
    obtain ⟨hfits, hvalid, -⟩ := decode_eq_ok.1 h
    exact hfits.regular hvalid
  | @simplified t s choices _ h ih =>
    have hlen : choices.length = t.size := by
      by_contra hne
      simp [simplify, hne] at h
    obtain ⟨u, f, src, hu, -, hred⟩ := ih.wellFormed.simplify_eq hlen (Nat.le_of_lt ih.size_lt)
    obtain rfl : s = u := Except.ok.inj (h.symm.trans hu)
    exact hred.regular ih (size_simplify_le h)

end Tape

end ScalarField
