/-
Interval evaluation encloses point evaluation: at a point of a region, the
value of every slot lies in the interval of that slot, bound for bound and with
no tolerance (`Tape.slots_enclosed`).

A NaN bound makes no promise, and there are operators that lose it, so the
intervals have to be free of NaN in every slot, not in the last one alone. An
elementary function, a remainder or an angle is no correctly rounded
operation: its value may fall outside the interval between the values at the
bounds, so where a tape has one its enclosure is asked for.
-/
import ScalarField.Proofs.Interval.Operators
import ScalarField.Proofs.Tape.Meaning

namespace ScalarField

/-! ## Operators -/

/-- Whether the operator is made of comparisons and correctly rounded
operations. -/
def Op.isArithmetic : Op → Bool
  | .input | .const => true
  | .unary u => !u.isElementary
  | .binary b => b != .mod && b != .atan2

def Instr.isArithmetic (i : Instr) : Bool := i.op?.all Op.isArithmetic

def Instr.isElementary (i : Instr) : Bool := i.op?.any Op.isElementary

/-- What is left are the elementary functions, an angle among them, and the
remainder. -/
theorem Instr.isElementary_or_mod {i : Instr} (h : i.isArithmetic = false) :
    i.isElementary = true ∨ i.op? = some (.binary .mod) := by
  rcases hop : i.op? with _ | _ | _ | u | o
  · simp [isArithmetic, hop] at h
  · simp [isArithmetic, hop, Op.isArithmetic] at h
  · simp [isArithmetic, hop, Op.isArithmetic] at h
  · have hu : u.isElementary = true := by simpa [isArithmetic, hop, Op.isArithmetic] using h
    exact .inl (by simpa [isElementary, hop, Op.isElementary] using hu)
  · by_cases ho : o = .mod
    · exact .inr (by rw [ho])
    · obtain rfl : o = .atan2 := by simpa [isArithmetic, hop, Op.isArithmetic, ho] using h
      exact .inl (by simp [isElementary, hop, Op.isElementary])

namespace Interval

variable {a b : Interval} {v w : Binary64}

theorem unary_contains {u : UnaryOp} (hu : (Op.unary u).isArithmetic = true)
    (h : a.contains v = true) (hI : (unary u a).hasNaN = false)
    (hv : (Scalar.unary u v : Binary64).isNaN = false) :
    (unary u a).contains (Scalar.unary u v) = true := by
  cases u with
  | neg => exact neg_contains h
  | abs => exact abs_contains h
  | recip =>
    have hone : (Arith.ofInt 1 : Binary64) = .one := by decide +kernel
    have hrecip : (Scalar.unary .recip v : Binary64) = Binary.one.div v := by
      simp only [Scalar.unary, hone, Arith.div]
    rw [hrecip] at hv ⊢
    exact recip_contains h hv
  | sqrt => exact sqrt_contains h hI hv
  | square => exact square_contains h hI hv
  | floor => exact map_contains Binary.floor_monotone h
  | ceil => exact map_contains Binary.ceil_monotone h
  | round => exact map_contains (fun _ => Tie.toEven_monotone) h
  | not => exact not_contains h
  | _ => cases hu

theorem binary_contains {o : BinaryOp} (ho : (Op.binary o).isArithmetic = true)
    (ha : a.contains v = true) (hb : b.contains w = true) (hI : (binary o a b).hasNaN = false)
    (hv : (Scalar.binary o v w : Binary64).isNaN = false) :
    (binary o a b).contains (Scalar.binary o v w) = true := by
  cases o with
  | add => exact add_contains ha hb hI hv
  | sub => exact sub_contains ha hb hI hv
  | mul => exact mul_contains ha hb hv
  | div => exact div_contains ha hb hv
  | min => exact min_contains ha hb hI hv
  | max => exact max_contains ha hb hI hv
  | compare => exact compare_contains ha hb
  | and => exact and_contains ha hb hI
  | or => exact or_contains ha hb hI
  | mod => cases ho
  | atan2 => cases ho

/-- A point of a region: each coordinate lies in its interval. -/
def Holds (region : Array Interval) (point : Array Binary64) : Prop :=
  List.Forall₂ (fun a v => a.contains v = true) region.toList point.toList

theorem Holds.size {region : Array Interval} {point : Array Binary64} (h : Holds region point) :
    region.size = point.size := by
  simpa using h.length_eq

theorem Holds.getElem? {region : Array Interval} {point : Array Binary64} (h : Holds region point)
    {j : Nat} {a : Interval} {v : Binary64} (ha : region[j]? = some a) (hv : point[j]? = some v) :
    a.contains v = true :=
  forall₂_getElem? h ha hv

end Interval

/-! ## Instructions -/

/-- One step of the enclosure: an instruction whose operands are enclosed has
its value in its interval, unless one of them is indeterminate. -/
theorem Instr.outcome_contains {region : Array Interval} {point : Array Binary64}
    (hin : Interval.Holds region point) {reads : Nat → Option Interval}
    {read : Nat → Option Binary64} {i : Instr}
    (harith : i.isArithmetic = true)
    (hargs : ∀ k ∈ i.args, ∀ a v, reads k = some a → read k = some v → a.contains v = true)
    {a : Interval} {v : Binary64} {c d : Option Choice}
    (ha : i.outcome? .interval region reads = some (a, c))
    (hv : i.outcome? .point point read = some (v, d))
    (hnan : a.hasNaN = false) (hvnan : v.isNaN = false) : a.contains v = true := by
  have harith' : ∀ {op : Op}, i.op? = some op → op.isArithmetic = true := fun hop => by
    simpa [isArithmetic, hop] using harith
  refine outcome?_rel
    (R := fun a v => a.hasNaN = false → v.isNaN = false → a.contains v = true) ?_ ?_ ?_ ?_ ha hv
    hnan hvnan
  · intro k x y hx hy _ _
    exact hin.getElem? hx hy
  · intro _ himm
    exact Interval.contains_iff.2 ⟨himm, himm, himm, Int.le_refl _, Int.le_refl _⟩
  · intro u x y hop hx hy
    have hxy := hargs i.left (by simp [args_unary hop]) x y hx hy
    exact Interval.unary_contains (harith' hop) hxy
  · intro o x y x' y' hop hx hy hx' hy'
    have hleft := hargs i.left (by simp [args_binary hop]) x y hx hy
    have hright := hargs i.right (by simp [args_binary hop]) x' y' hx' hy'
    exact Interval.binary_contains (harith' hop) hleft hright

/-! ## Tapes -/

namespace Tape

/-- The slots of a tape that are enclosed at a point of a region. -/
def EnclosedAt (t : Tape) (region : Array Interval) (point : Array Binary64) (k : Nat) : Prop :=
  ∃ a v, (t.slotValues .interval region)[k]? = some a ∧ (t.slotValues .point point)[k]? = some v ∧
    a.contains v = true

instance (t : Tape) (region : Array Interval) (point : Array Binary64) (k : Nat) :
    Decidable (t.EnclosedAt region point k) :=
  decidable_of_iff (((t.slotValues .interval region)[k]?).any (fun a =>
      ((t.slotValues .point point)[k]?).any a.contains) = true)
    (by simp only [EnclosedAt, Option.any_eq_true]; grind)

/-- Neither the intervals of a region nor the values at a point are NaN in any
slot. -/
structure NaNFree (t : Tape) (region : Array Interval) (point : Array Binary64) : Prop where
  intervals : ∀ a ∈ t.slotValues .interval region, a.hasNaN = false
  values : ∀ v ∈ t.slotValues .point point, v.isNaN = false

/-- Every slot of a valid tape is enclosed if those of its elementary functions
and remainders are: by induction on slots, since operands come before. -/
theorem WellFormed.enclosed {t : Tape} (hwf : t.WellFormed) {region : Array Interval}
    {point : Array Binary64} (hin : Interval.Holds region point)
    (hvars : point.size = t.vars.size) (hnan : t.NaNFree region point)
    (hother : ∀ (k : Nat) (hk : k < t.size), t.instrs[k].isArithmetic = false →
      t.EnclosedAt region point k) :
    ∀ k < t.size, t.EnclosedAt region point k := by
  have hregion := hin.size.trans hvars
  have hall := hwf.slots_rel (I := .interval) (J := .point) (R := fun a v => a.contains v = true)
    hregion hvars fun k i a v c d hi ha hv hsa hsv hargs => by
      obtain ⟨hk, rfl⟩ := Array.getElem?_eq_some_iff.1 hi
      cases harith : t.instrs[k].isArithmetic with
      | false =>
        obtain ⟨a', v', ha', hv', hc⟩ := hother k hk harith
        obtain rfl : a' = a := by simpa [ha] using ha'.symm
        obtain rfl : v' = v := by simpa [hv] using hv'.symm
        exact hc
      | true =>
        exact Instr.outcome_contains hin harith hargs hsa hsv
          (hnan.intervals a (Array.mem_of_getElem? ha)) (hnan.values v (Array.mem_of_getElem? hv))
  intro k hk
  have hi : t.instrs[k]? = some t.instrs[k] := Array.getElem?_eq_getElem hk
  obtain ⟨a, c, ha, -⟩ := (hwf.means (I := .interval) hregion).outcome hi
  obtain ⟨v, d, hv, -⟩ := (hwf.means (I := .point) hvars).outcome hi
  exact ⟨a, v, ha, hv, hall k a v ha hv⟩

/-- **Interval evaluation encloses point evaluation.** A valid tape without
elementary functions and remainders is evaluated over a region and at a point
of it, both without a fault. If no slot has a NaN bound over the region and
none is NaN at the point, then every slot's value lies between the bounds of
that slot. -/
theorem slots_enclosed (t : Tape) (region : Array Interval) (point : Array Binary64)
    (hvalid : t.validate = .ok ())
    (harith : ∀ i ∈ t.instrs, i.isArithmetic = true)
    (hvars : point.size = t.vars.size) (hin : Interval.Holds region point)
    (hnan : t.NaNFree region point) :
    (∃ out, t.eval .interval region = .ok out) ∧ (∃ out, t.eval .point point = .ok out) ∧
      ∀ k < t.size, ∃ a v, (t.slotValues .interval region)[k]? = some a ∧
        (t.slotValues .point point)[k]? = some v ∧ a.lo.le v = true ∧ v.le a.hi = true := by
  obtain ⟨-, hwf⟩ := validate_eq_ok.1 hvalid
  obtain ⟨intervals, hintervals, -⟩ := hwf.eval_eq (I := .interval) (hin.size.trans hvars)
  obtain ⟨values, hvalues, -⟩ := hwf.eval_eq (I := .point) hvars
  refine ⟨⟨intervals, hintervals⟩, ⟨values, hvalues⟩, fun k hk => ?_⟩
  obtain ⟨a, v, ha, hv, hc⟩ := hwf.enclosed hin hvars hnan
    (fun j hj hfalse => by simp [harith _ (Array.getElem_mem hj)] at hfalse) k hk
  exact ⟨a, v, ha, hv, Interval.contains_le hc⟩

/-- `sqrt (1 / (x * y - 5)²)`. -/
def reciprocalSquare : Tape where
  instrs := #[{ code := Op.input.code, var := 0 }, { code := Op.input.code, var := 1 },
    { code := BinaryOp.mul.code, left := 0, right := 1 },
    { code := Op.const.code, imm := .ofInt 5 },
    { code := BinaryOp.sub.code, left := 2, right := 3 },
    { code := UnaryOp.square.code, left := 4 }, { code := UnaryOp.recip.code, left := 5 },
    { code := UnaryOp.sqrt.code, left := 6 }]
  outputs := #[7]
  vars := #[utf8 "x", utf8 "y"]

/-- Over `x` from 1 to 2 and `y` from -3 to 1, at the point (2, -1). -/
theorem slots_enclosed_reciprocalSquare :
    (∃ out, reciprocalSquare.eval .interval
        #[⟨.ofInt 1, .ofInt 2⟩, ⟨.ofInt (-3), .ofInt 1⟩] = .ok out) ∧
      (∃ out, reciprocalSquare.eval .point #[.ofInt 2, .ofInt (-1)] = .ok out) ∧
      ∀ k < reciprocalSquare.size, ∃ a v,
        (reciprocalSquare.slotValues .interval
          #[⟨.ofInt 1, .ofInt 2⟩, ⟨.ofInt (-3), .ofInt 1⟩])[k]? = some a ∧
        (reciprocalSquare.slotValues .point #[.ofInt 2, .ofInt (-1)])[k]? = some v ∧
        a.lo.le v = true ∧ v.le a.hi = true :=
  slots_enclosed reciprocalSquare _ _ (by decide +kernel) (by decide +kernel) (by decide +kernel)
    (.cons (by decide +kernel) (.cons (by decide +kernel) .nil))
    ⟨by decide +kernel, by decide +kernel⟩

end Tape

end ScalarField
