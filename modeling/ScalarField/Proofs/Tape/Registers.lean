/-
A tape run through its allocation: each instruction reads its operands from
the locations of their slots and writes its value to the location of its own
(`Storage.exec`). This gives what one slot an instruction gives
(`Assignment.eval_eq_tape_eval`), whatever the registers and cells held before.

The invariant is that a slot whose last use has not passed is still in its
location (`Storage.Holds`). The argument needs of the allocation only that it
keeps live slots apart, and of the live ranges only that they reach every
instruction that reads the slot, and the end for an output.
-/
import Mathlib.Data.Nat.Bitwise
import ScalarField.Proofs.Tape.Allocation

namespace ScalarField

/-! ## Locations in a word -/

namespace Loc

/-- The word of a location. -/
def word : Loc → UInt32
  | .reg n => .ofNat n
  | .spill n => .ofNat n ||| 0x80000000

/-- A word tells the location if the number fits in the bits below the mark. -/
theorem ofWord_word {l : Loc} (h : l.index < 2 ^ 31) : ofWord l.word = l := by
  have hnum : (UInt32.ofNat l.index).toNat = l.index :=
    UInt32.toNat_ofNat_of_lt' (Nat.lt_trans h (by decide))
  cases l with
  | reg n =>
    simp only [index] at h hnum
    simp only [word, ofWord, hnum]
    exact if_pos h
  | spill n =>
    simp only [index] at h hnum
    have hor : (UInt32.ofNat n ||| 0x80000000).toNat = 2 ^ 31 * 1 + n := by
      rw [UInt32.toNat_or, hnum, Nat.two_pow_add_eq_or_of_lt h, Nat.or_comm]
      rfl
    have hge : ¬2 ^ 31 * 1 + n < 0x80000000 := by omega
    simp only [word, ofWord, hor, if_neg hge, Loc.spill.injEq]
    omega

end Loc

/-! ## The machine -/

/-- What the registers and the spill cells of a machine hold. -/
structure Storage (α : Type) where
  regs : Array α
  cells : Array α

namespace Storage

variable {α : Type}

/-- What a location holds. -/
def read? (m : Storage α) : Loc → Option α
  | .reg n => m.regs[n]?
  | .spill n => m.cells[n]?

/-- Writes a location that the machine has. -/
def write? (m : Storage α) (l : Loc) (v : α) : Option (Storage α) :=
  match l with
  | .reg n => if n < m.regs.size then some { m with regs := m.regs.setIfInBounds n v } else none
  | .spill n =>
    if n < m.cells.size then some { m with cells := m.cells.setIfInBounds n v } else none

/-- What the location of a slot holds. -/
def slot? (m : Storage α) (words : Array UInt32) (slot : Nat) : Option α :=
  (words[slot]?).bind fun w => m.read? (.ofWord w)

/-- Executes the instructions that start at `pos`. -/
def exec (I : Interp α) (inputs : Array α) (words : Array UInt32) (m : Storage α) :
    Nat → List Instr → Option (Storage α)
  | _, [] => some m
  | pos, i :: rest =>
    match i.outcome? I inputs (m.slot? words), words[pos]? with
    | some (v, _), some w =>
      (m.write? (.ofWord w) v).bind fun m => m.exec I inputs words (pos + 1) rest
    | _, _ => none

/-! ### Reading and writing -/

variable {m : Storage α} {l : Loc}

/-- Whether a machine has a location. -/
def Has (m : Storage α) : Loc → Prop
  | .reg n => n < m.regs.size
  | .spill n => n < m.cells.size

theorem write?_eq (h : m.Has l) (v : α) : ∃ m', m.write? l v = some m' ∧
    m'.regs.size = m.regs.size ∧ m'.cells.size = m.cells.size ∧ m'.read? l = some v ∧
    ∀ l' ≠ l, m'.read? l' = m.read? l' := by
  cases l with
  | reg n =>
    refine ⟨_, if_pos h, by simp, rfl, Array.getElem?_setIfInBounds_self_of_lt h, fun l' hne => ?_⟩
    cases l' with
    | reg k => exact Array.getElem?_setIfInBounds_ne fun heq => hne (congrArg Loc.reg heq.symm)
    | spill k => rfl
  | spill n =>
    refine ⟨_, if_pos h, rfl, by simp, Array.getElem?_setIfInBounds_self_of_lt h, fun l' hne => ?_⟩
    cases l' with
    | reg k => rfl
    | spill k => exact Array.getElem?_setIfInBounds_ne fun heq => hne (congrArg Loc.spill heq.symm)

end Storage

namespace Assignment

/-- The locations as the words that a machine is given. -/
def words (a : Assignment) : Array UInt32 := a.locs.map Loc.word

/-- Whether a machine has the registers and cells of an assignment. -/
def Runs {α : Type} (a : Assignment) (m : Storage α) : Prop :=
  (m.regs.size : Int) = a.regs ∧ (m.cells.size : Int) = a.spills

/-- The results of a tape on a machine: what the locations of the outputs hold
once every instruction has been executed. -/
def eval {α : Type} (a : Assignment) (I : Interp α) (t : Tape) (inputs : Array α) (m : Storage α) :
    Except EvalError (List α) :=
  match t.checkArity inputs.size t.outputs.size with
  | .error e => .error e
  | .ok () =>
    match (m.exec I inputs a.words 0 t.instrs.toList).bind fun m =>
      t.outputs.toList.mapM (m.slot? a.words) with
    | some out => .ok out
    | none => .error (.fault .range)

end Assignment

/-! ## The area of spill cells -/

namespace Assignment

namespace Scan

theorem release_used (s : Scan) (slot : Nat) : (s.release slot).cells.used = s.cells.used := by
  unfold Scan.release
  split <;> rfl

theorem releaseAll_used : ∀ (slots : List Nat) (s : Scan),
    (slots.foldl Scan.release s).cells.used = s.cells.used
  | [], _ => rfl
  | slot :: rest, s => by
    rw [List.foldl_cons, releaseAll_used rest, release_used]

theorem define_used (s : Scan) (pos last : Nat) :
    (s.define pos last).cells.used ≤ s.cells.used + 1 := by
  have htake : ∀ c : Cells, c.take.2.used ≤ c.used + 1 := by
    intro c
    unfold Cells.take
    split
    · exact Nat.le_succ _
    · exact Nat.le_refl _
  have hassign : ∀ s : Scan, s.assign.cells.used ≤ s.cells.used + 1 := by
    intro s
    unfold Scan.assign
    split
    · exact Nat.le_succ _
    · exact htake s.cells
  have hexpire : (if pos = 0 then s else s.expire (pos - 1)).cells.used = s.cells.used := by
    split
    · rfl
    · exact releaseAll_used _ _
  rw [← hexpire]
  exact hassign _

theorem run_used : ∀ (rest : List LiveRange) (s : Scan) (pos : Nat),
    (s.run pos rest).cells.used ≤ s.cells.used + rest.length
  | [], _, _ => Nat.le_refl _
  | r :: rest, s, pos => by
    have hstep := define_used s pos r.last.toNat
    have hrest := run_used rest (s.define pos r.last.toNat) (pos + 1)
    rw [List.length_cons, Scan.run]
    omega

end Scan

/-- There are no more spill cells than slots. -/
theorem spills_le_size {t : Tape} {regs : Int} {a : Assignment} {rs : Array LiveRange}
    (ha : allocate t regs = .ok a) (hrs : t.liveRanges = .ok rs) (hsize : rs.size = t.size) :
    a.spills ≤ t.size := by
  unfold allocate at ha
  split at ha
  · simp at ha
  · simp only [hrs, Except.ok.injEq] at ha
    subst ha
    have := Scan.run_used rs.toList (.start regs.toNat t.size) 0
    simp only [Scan.start, Cells.start, Array.length_toList] at this ⊢
    omega

end Assignment

/-! ## Runs -/

/-- A tape whose slots have the given values, and an assignment that keeps
slots apart while they are needed and whose locations fit in words. -/
structure Placed {α : Type} (I : Interp α) (t : Tape) (inputs values : Array α) (a : Assignment)
    (rs : Array LiveRange) : Prop where
  wellFormed : t.WellFormed
  means : t.Means I inputs values
  uses : t.LastUses rs
  separates : a.Separates t rs
  fits : ∀ {k : Nat} {l : Loc}, a.locs[k]? = some l → l.index < 2 ^ 31

/-- Before the instruction at `pos`: the slots that are needed from there on
are in their locations. -/
structure Storage.Holds {α : Type} (m : Storage α) (a : Assignment) (rs : Array LiveRange)
    (values : Array α) (pos : Nat) : Prop where
  runs : a.Runs m
  held : ∀ {k : Nat} {r : LiveRange}, k < pos → rs[k]? = some r → (pos : Int) ≤ r.last →
    m.slot? a.words k = values[k]?

namespace Placed

variable {α : Type} {I : Interp α} {t : Tape} {inputs values : Array α} {a : Assignment}
  {rs : Array LiveRange} {m : Storage α} {pos : Nat} {i : Instr}

theorem word_eq (P : Placed I t inputs values a rs) {k : Nat} {l : Loc} (hl : a.locs[k]? = some l) :
    a.words[k]? = some l.word ∧ Loc.ofWord l.word = l := by
  refine ⟨?_, Loc.ofWord_word (P.fits hl)⟩
  rw [Assignment.words, Array.getElem?_map, hl, Option.map_some]

theorem slot?_eq (P : Placed I t inputs values a rs) {k : Nat} {l : Loc} (hl : a.locs[k]? = some l)
    (m : Storage α) : m.slot? a.words k = m.read? l := by
  obtain ⟨hw, hback⟩ := P.word_eq hl
  rw [Storage.slot?, hw, Option.bind_some, hback]

theorem exists_loc (P : Placed I t inputs values a rs) {k : Nat} (hk : k < t.size) :
    ∃ l, a.locs[k]? = some l :=
  ⟨_, Array.getElem?_eq_getElem (by rw [P.separates.size]; exact hk)⟩

theorem has (P : Placed I t inputs values a rs) (hruns : a.Runs m) {k : Nat} {l : Loc}
    (hl : a.locs[k]? = some l) : m.Has l := by
  obtain ⟨hregs, hcells⟩ := hruns
  cases l with
  | reg n =>
    have := P.separates.reg_lt k n hl
    simp only [Storage.Has]
    omega
  | spill n =>
    have := P.separates.spill_lt k n hl
    simp only [Storage.Has]
    omega

/-- One instruction finds its operands where they were put, and what it
overwrites is needed no more. -/
theorem step (P : Placed I t inputs values a rs) (H : m.Holds a rs values pos)
    (hi : t.instrs[pos]? = some i) :
    ∃ v c w m', i.outcome? I inputs (m.slot? a.words) = some (v, c) ∧ a.words[pos]? = some w ∧
      m.write? (.ofWord w) v = some m' ∧ m'.Holds a rs values (pos + 1) := by
  have hpos : pos < t.size := (Array.getElem?_eq_some_iff.1 hi).1
  obtain ⟨v, c, hv, hout⟩ := P.means.outcome hi
  have hreads : i.outcome? I inputs (m.slot? a.words) = some (v, c) := by
    rw [← hout]
    refine Instr.outcome?_congr fun k hk => ?_
    have hlt : k < pos := (P.wellFormed.instr hi).args k hk
    obtain ⟨r, hr, -, -, -, hread, -⟩ := P.uses.range k (by omega)
    exact H.held hlt hr (hread pos i hi hk)
  obtain ⟨l, hl⟩ := P.exists_loc hpos
  obtain ⟨hw, hback⟩ := P.word_eq hl
  obtain ⟨m', hm', hregs, hcells, hself, hother⟩ := Storage.write?_eq (P.has H.runs hl) v
  refine ⟨v, c, l.word, m', hreads, hw, by rw [hback, hm'], ⟨?_, ?_⟩, ?_⟩
  · rw [hregs]
    exact H.runs.1
  · rw [hcells]
    exact H.runs.2
  · intro k r hk hr hlast
    rcases Nat.lt_succ_iff_lt_or_eq.1 hk with hlt | rfl
    · obtain ⟨l', hl'⟩ := P.exists_loc (Nat.lt_trans hlt hpos)
      -- The slot is live at `pos`, so its location is not the one written.
      have hne : l' ≠ l := fun heq =>
        P.separates.apart k pos r hlt hpos hr (by omega) (by rw [hl, hl', heq])
      rw [P.slot?_eq hl', hother l' hne, ← P.slot?_eq hl']
      exact H.held hlt hr (by omega)
    · rw [P.slot?_eq hl, hself, hv]

theorem run (P : Placed I t inputs values a rs) : ∀ {is : List Instr} {m : Storage α} {pos : Nat},
    m.Holds a rs values pos → pos ≤ t.size → t.instrs.toList.drop pos = is →
      ∃ m', m.exec I inputs a.words pos is = some m' ∧ m'.Holds a rs values t.size
  | [], m, pos, H, hpos, hd => by
    obtain rfl : pos = t.size := Nat.le_antisymm hpos (by simpa [Tape.size] using hd)
    exact ⟨m, rfl, H⟩
  | i :: rest, m, pos, H, hpos, hd => by
    obtain ⟨hi, hd'⟩ := of_drop_eq_cons hd
    obtain ⟨v, c, w, m₁, hout, hw, hm₁, H₁⟩ := P.step H hi
    obtain ⟨m', hm', H'⟩ := P.run H₁ (Array.getElem?_eq_some_iff.1 hi).1 hd'
    refine ⟨m', ?_, H'⟩
    simp only [Storage.exec, hout, hw, hm₁, Option.bind_some, hm']

/-- At the end the outputs are read off their locations: an output is needed
to the end. -/
theorem outputs (P : Placed I t inputs values a rs) (H : m.Holds a rs values t.size) :
    ∀ {os : List Nat} {out : List α}, (∀ o ∈ os, o ∈ t.outputs) →
      List.Forall₂ (fun o v => values[o]? = some v) os out →
      os.mapM (m.slot? a.words) = some out
  | [], _, _, .nil => rfl
  | o :: os, v :: out, hos, .cons hv hrest => by
    have ho := hos o List.mem_cons_self
    have hlt := P.wellFormed.output o ho
    obtain ⟨r, hr, -, -, -, -, hend⟩ := P.uses.range o hlt
    have hhead : m.slot? a.words o = some v := by
      rw [H.held hlt hr (Int.le_of_eq (hend ho).symm), hv]
    have htail := P.outputs H (fun o' ho' => hos o' (List.mem_cons_of_mem o ho')) hrest
    rw [List.mapM_cons, hhead, htail]
    rfl

end Placed

namespace Assignment

/-- **Registers and spill cells are as good as one slot an instruction.** A
valid tape of fewer than `2 ^ 31` instructions is allocated to any number of
registers from 1 to 64. On a machine that has these registers and the spill
cells of the allocation, whatever they hold, the tape gives the same as under
slots, for every interpretation and input; and that is results if there is an
input for each variable. -/
theorem eval_eq_tape_eval {α : Type} (I : Interp α) (t : Tape) (regs : Int) (inputs : Array α)
    (hvalid : t.validate = .ok ()) (hsize : t.size < 2 ^ 31) (hregs : 1 ≤ regs) (hmax : regs ≤ 64) :
    ∃ a, allocate t regs = .ok a ∧ a.regs = regs ∧
      ∀ m : Storage α, a.Runs m → a.eval I t inputs m = t.eval I inputs ∧
        (inputs.size = t.vars.size → ∃ out, a.eval I t inputs m = .ok out) := by
  obtain ⟨-, hwf⟩ := Tape.validate_eq_ok.1 hvalid
  obtain ⟨a, rs, ha, hregs', huses, hsep⟩ := allocate_separates hwf hregs hmax
  have hspills : a.spills ≤ t.size := by
    obtain ⟨rs', hrs', huses'⟩ := hwf.liveRanges_eq
    exact spills_le_size ha hrs' huses'.size
  have hfits : ∀ {k : Nat} {l : Loc}, a.locs[k]? = some l → l.index < 2 ^ 31 := by
    intro k l hl
    cases l with
    | reg n =>
      have := hsep.reg_lt k n hl
      simp only [Loc.index]
      omega
    | spill n =>
      have := hsep.spill_lt k n hl
      simp only [Loc.index]
      omega
  refine ⟨a, ha, hregs', fun m hruns => ?_⟩
  by_cases hin : inputs.size = t.vars.size
  · have P : Placed I t inputs (t.slotValues I inputs) a rs :=
      ⟨hwf, hwf.means hin, huses, hsep, hfits⟩
    obtain ⟨m', hm', H'⟩ := P.run ⟨hruns, fun h => absurd h (Nat.not_lt_zero _)⟩ (Nat.zero_le _) rfl
    obtain ⟨out, hout, hall, -⟩ := hwf.eval_eq (I := I) hin
    have hread := P.outputs H' (fun o ho => by simpa using ho) hall
    rw [List.drop_zero] at hm'
    have heval : a.eval I t inputs m = .ok out := by
      simp only [eval, Tape.checkArity, hin, ne_eq, not_true_eq_false, if_false, hm',
        Option.bind_some, hread]
    exact ⟨by rw [heval, hout], fun _ => ⟨out, heval⟩⟩
  · refine ⟨?_, fun h => absurd h hin⟩
    simp [eval, Tape.eval, Evaluator.eval, Evaluator.new, Tape.checkArity, hin]

/-- `(x - y) * (x + y)` and `x - y`. -/
def differenceOfSquares : Tape where
  instrs := #[{ code := Op.input.code, var := 0 }, { code := Op.input.code, var := 1 },
    { code := BinaryOp.sub.code, left := 0, right := 1 },
    { code := BinaryOp.add.code, left := 0, right := 1 },
    { code := BinaryOp.mul.code, left := 2, right := 3 }]
  outputs := #[4, 2]
  vars := #[utf8 "x", utf8 "y"]

/-- With one register three values are spilled, and the product is put where
`x` was. -/
theorem eval_eq_tape_eval_differenceOfSquares :
    differenceOfSquares.validate = .ok () ∧
      (allocate differenceOfSquares 1).toOption.map Assignment.locs =
        some #[.reg 0, .spill 0, .spill 1, .spill 2, .reg 0] ∧
      ∃ a, allocate differenceOfSquares 1 = .ok a ∧ a.regs = 1 ∧
        ∀ m : Storage Binary64, a.Runs m →
          a.eval .point differenceOfSquares #[.ofInt 5, .ofInt 3] m =
              differenceOfSquares.eval .point #[.ofInt 5, .ofInt 3] ∧
            (2 = 2 → ∃ out, a.eval .point differenceOfSquares #[.ofInt 5, .ofInt 3] m = .ok out) :=
  ⟨by decide +kernel, by decide +kernel,
    eval_eq_tape_eval .point differenceOfSquares 1 #[.ofInt 5, .ofInt 3] (by decide +kernel)
      (by decide +kernel) (by decide) (by decide)⟩

end Assignment

end ScalarField
