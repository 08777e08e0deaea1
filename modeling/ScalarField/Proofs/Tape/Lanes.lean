/-
The four lanes of an evaluation are four evaluations of one number each
(`Tape.lanes_independent`).

An operator has in each lane the value that it has on the numbers of that lane
(`Lanes.unary_lane`, `Lanes.binary_lane`), so by induction on the slots of a
valid tape each lane of a slot is what the slot holds at the point of the lane
alone. The lanes of a slot can be written one after the other, into a table
from which the operands are read at the same time, and even where an operand is
the slot itself (`Lanes.exec_inPlace`): a lane is read only while it is old.
-/
import ScalarField.Proofs.Tape.Primal
import ScalarField.Proofs.Tape.Reuse

namespace ScalarField

/-! ## Writing lanes in place -/

namespace Lanes

variable {l : Fin 4}

theorem ext_lane {a b : Lanes} (h : ∀ l : Fin 4, a.get l = b.get l) : a = b :=
  Vector.ext fun k hk => h ⟨k, hk⟩

/-- Writes one lane of a slot, computed from that lane of the slots `a` and `b`
as they are then. -/
def writeLane (f : Binary32 → Binary32 → Binary32) (slot a b : Nat) (table : Array Lanes)
    (l : Fin 4) : Array Lanes :=
  match table[a]?, table[b]? with
  | some x, some y => table.modify slot fun v => v.setIfInBounds l (f (x.get l) (y.get l))
  | _, _ => table

/-- Writes the lanes of a slot one after the other. -/
def writeLanes (f : Binary32 → Binary32 → Binary32) (slot a b : Nat) (table : Array Lanes) :
    Array Lanes :=
  (List.finRange 4).foldl (writeLane f slot a b) table

section

variable {f : Binary32 → Binary32 → Binary32} {slot a b : Nat} {table : Array Lanes}

/-- The slot with some lanes computed, the others as they were. -/
def partly (f : Binary32 → Binary32 → Binary32) (x y old : Lanes) (done : List (Fin 4)) : Lanes :=
  .ofFn fun l => if done.contains l then f (x.get l) (y.get l) else old.get l

theorem partly_of_mem {x y old : Lanes} {done : List (Fin 4)} (h : l ∈ done) :
    (partly f x y old done).get l = f (x.get l) (y.get l) := by
  show (partly f x y old done)[l] = _
  simp [partly, h]

theorem partly_of_not_mem {x y old : Lanes} {done : List (Fin 4)} (h : l ∉ done) :
    (partly f x y old done).get l = old.get l := by
  show (partly f x y old done)[l] = _
  simp [partly, h]

/-- Once the lanes `done` are written, writing `todo` too finishes them. What is
read has not been written yet, since no lane comes twice. -/
theorem foldl_writeLane {x y old : Lanes} (ha : table[a]? = some x) (hb : table[b]? = some y)
    (hold : table[slot]? = some old) (todo : List (Fin 4)) :
    ∀ done : List (Fin 4), (done ++ todo).Nodup →
      todo.foldl (writeLane f slot a b) (table.setIfInBounds slot (partly f x y old done)) =
        table.setIfInBounds slot (partly f x y old (done ++ todo)) := by
  have hslot : slot < table.size := (Array.getElem?_eq_some_iff.1 hold).1
  induction todo with
  | nil => simp
  | cons l todo ih =>
    intro done hnodup
    have hl : l ∉ done := fun hmem =>
      (List.nodup_append.1 hnodup).2.2 l hmem l List.mem_cons_self rfl
    -- An operand that is the slot itself has its old lane.
    have hread : ∀ {k : Nat} {v : Lanes}, table[k]? = some v →
        ∃ w : Lanes, (table.setIfInBounds slot (partly f x y old done))[k]? = some w ∧
          w.get l = v.get l := by
      intro k v hk
      by_cases hks : slot = k
      · subst hks
        obtain rfl := Option.some.inj (hold.symm.trans hk)
        exact ⟨_, Array.getElem?_setIfInBounds_self_of_lt hslot, partly_of_not_mem hl⟩
      · exact ⟨v, by rw [Array.getElem?_setIfInBounds_ne hks, hk], rfl⟩
    obtain ⟨x', hx', hxl⟩ := hread ha
    obtain ⟨y', hy', hyl⟩ := hread hb
    have hstep : writeLane f slot a b (table.setIfInBounds slot (partly f x y old done)) l =
        table.setIfInBounds slot (partly f x y old (done ++ [l])) := by
      have hset : (partly f x y old done).setIfInBounds l (f (x.get l) (y.get l)) =
          partly f x y old (done ++ [l]) := by
        refine ext_lane fun m => (Vector.getElem_setIfInBounds m.isLt).trans ?_
        by_cases hm : l = m
        · subst hm
          rw [if_pos rfl, partly_of_mem (by simp)]
        · rw [if_neg fun h => hm (Fin.ext h)]
          show (partly f x y old done).get m = _
          by_cases hdone : m ∈ done
          · rw [partly_of_mem hdone, partly_of_mem (by simp [hdone])]
          · rw [partly_of_not_mem hdone, partly_of_not_mem (by simp [hdone, Ne.symm hm])]
      simp only [writeLane, hx', hy', hxl, hyl]
      refine Array.ext_getElem? fun k => ?_
      by_cases hk : slot = k
      · subst hk
        rw [Array.getElem?_modify, if_pos rfl, Array.getElem?_setIfInBounds_self_of_lt hslot,
          Array.getElem?_setIfInBounds_self_of_lt hslot, Option.map_some, hset]
      · simp [Array.getElem?_modify, hk, Array.getElem?_setIfInBounds_ne hk]
    rw [List.foldl_cons, hstep, ih (done ++ [l]) (by simpa using hnodup)]
    simp

/-- Written in place, the lanes are those of the operands before. -/
theorem writeLanes_eq {x y : Lanes} (ha : table[a]? = some x) (hb : table[b]? = some y)
    (hslot : slot < table.size) :
    writeLanes f slot a b table = table.setIfInBounds slot (Vector.zipWith f x y) := by
  have hold : table[slot]? = some table[slot] := Array.getElem?_eq_getElem hslot
  have hstart : table.setIfInBounds slot (partly f x y table[slot] []) = table := by
    have hnone : partly f x y table[slot] [] = table[slot] :=
      ext_lane fun l => partly_of_not_mem List.not_mem_nil
    rw [hnone]
    simp [Array.setIfInBounds, hslot]
  have hall : partly f x y table[slot] (List.finRange 4) = Vector.zipWith f x y :=
    ext_lane fun l => by
      rw [partly_of_mem (List.mem_finRange l)]
      exact (Vector.getElem_zipWith l.isLt).symm
  have hfold := foldl_writeLane (f := f) ha hb hold (List.finRange 4) [] (List.nodup_finRange 4)
  rw [hstart, List.nil_append, hall] at hfold
  exact hfold

end

/-- One instruction, executed in place. -/
def stepInPlace (inputs table : Array Lanes) (slot : Nat) (i : Instr) :
    Except Fault (Array Lanes) :=
  match i.op? with
  | some .input => (Slots.inputOf inputs i.var).map (table.setIfInBounds slot ·)
  | some .const => .ok (table.setIfInBounds slot (splat i.imm.convert))
  | some (.unary u) =>
    -- The one operand is passed twice.
    match lookup table i.left with
    | .ok _ => .ok (writeLanes (fun x _ => Scalar.unary u x) slot i.left i.left table)
    | .error e => .error e
  | some (.binary o) =>
    match lookup table i.left, lookup table i.right with
    | .ok _, .ok _ => .ok (writeLanes (Scalar.binary o) slot i.left i.right table)
    | .error e, _ => .error e
    | _, .error e => .error e
  | none =>
    match lookup table i.left with
    | .ok _ => .error (.unexpectedOp i.code)
    | .error e => .error e

/-- The instructions from `slot` on, executed in place. -/
def execInPlace (inputs : Array Lanes) : Array Lanes → Nat → List Instr → Except Fault (Array Lanes)
  | table, _, [] => .ok table
  | table, slot, i :: rest =>
    match stepInPlace inputs table slot i with
    | .ok table => execInPlace inputs table (slot + 1) rest
    | .error e => .error e

variable {inputs : Array Lanes}

theorem stepInPlace_eq (s : Slots Lanes) {slot : Nat} (hslot : slot < s.values.size) (i : Instr) :
    stepInPlace inputs s.values slot i =
      (s.valueOf .simd4 inputs i).map fun r => (s.write slot r.1 r.2).values := by
  unfold stepInPlace Slots.valueOf
  rcases i.op? with _ | op
  · simp only
    cases lookup s.values i.left <;> rfl
  cases op with
  | input =>
    simp only
    cases Slots.inputOf inputs i.var <;> rfl
  | const => rfl
  | unary u =>
    simp only
    cases ha : lookup s.values i.left with
    | error e => rfl
    | ok x =>
      have hx := lookup_eq_ok.1 ha
      have hsame : Vector.zipWith (fun x _ => Scalar.unary u x) x x = unary u x :=
        ext_lane fun l => by simp [unary]
      simp only [writeLanes_eq hx hx hslot, hsame]
      rfl
  | binary o =>
    simp only
    cases ha : lookup s.values i.left with
    | error e => rfl
    | ok x =>
      cases hb : lookup s.values i.right with
      | error e => rfl
      | ok y =>
        simp only [writeLanes_eq (lookup_eq_ok.1 ha) (lookup_eq_ok.1 hb) hslot]
        rfl

/-- **Lanes may be written in place.** Whatever the instructions are, and
whatever the slots hold before, executing them lane after lane in one table of
slots ends as executing them on whole values does. -/
theorem exec_inPlace (is : List Instr) : ∀ (s : Slots Lanes) (slot : Nat),
    slot + is.length ≤ s.values.size →
    execInPlace inputs s.values slot is =
      match s.exec .simd4 inputs slot is with
      | (s', .ok ()) => .ok s'.values
      | (_, .error e) => .error e := by
  induction is with
  | nil => exact fun _ _ _ => rfl
  | cons i rest ih =>
    intro s slot hsize
    simp only [List.length_cons] at hsize
    simp only [execInPlace, Slots.exec, stepInPlace_eq s (show slot < s.values.size by omega)]
    cases s.valueOf .simd4 inputs i with
    | error e => rfl
    | ok r =>
      have hwrite : (s.write slot r.1 r.2).values.size = s.values.size := by simp [Slots.write]
      exact ih (s.write slot r.1 r.2) (slot + 1) (by rw [hwrite]; omega)

/-! ## Points in lanes -/

/-- The value of a coordinate at each of four points. -/
def coordinate (points : Vector (Array Binary32) 4) (v : Nat) : Lanes :=
  points.map fun p => (p[v]?).getD .zero

theorem list_mapM_eq_ok {α β ε : Type} {f : α → Except ε β} {g : α → β} :
    ∀ {l : List α}, (∀ x ∈ l, f x = .ok (g x)) → l.mapM f = .ok (l.map g)
  | [], _ => rfl
  | x :: l, h => by
    obtain ⟨hx, hl⟩ := List.forall_mem_cons.1 h
    rw [List.mapM_cons, hx, list_mapM_eq_ok hl]
    rfl

theorem vector_mapM_eq_ok {α β ε : Type} {n : Nat} {f : α → Except ε β} {g : α → β}
    {v : Vector α n} (h : ∀ x ∈ v.toList, f x = .ok (g x)) : v.mapM f = .ok (v.map g) := by
  have harray : Vector.toArray <$> v.mapM f = .ok (v.map g).toArray := by
    rw [Vector.toArray_mapM, Array.mapM_eq_mapM_toList, Vector.toList_toArray, list_mapM_eq_ok h,
      ← Vector.toList_map]
    rfl
  cases hv : v.mapM f with
  | error e =>
    rw [hv] at harray
    cases harray
  | ok w =>
    rw [hv] at harray
    rw [Vector.toArray_inj.1 (Except.ok.inj harray)]

theorem ofPoints_eq {points : Vector (Array Binary32) 4} {n : Nat}
    (hsize : ∀ l : Fin 4, (points.get l).size = n) :
    ofPoints points = .ok ((List.range n).map (coordinate points)) := by
  have hzero : points[0].size = n := hsize 0
  rw [ofPoints, hzero]
  refine list_mapM_eq_ok fun v hv => vector_mapM_eq_ok fun p hp => ?_
  obtain ⟨k, hk, rfl⟩ := List.getElem_of_mem hp
  have hk4 : k < 4 := by simpa using hk
  have hlt : v < (points[k]).size := (hsize ⟨k, hk4⟩).symm ▸ List.mem_range.1 hv
  simp [lookup, hlt]

theorem coordinate_lane (points : Vector (Array Binary32) 4) (v : Nat) (l : Fin 4) :
    (coordinate points v).get l = ((points.get l)[v]?).getD .zero :=
  Vector.getElem_map _ l.isLt

end Lanes

/-! ## Whole tapes -/

/-- One point in single precision: constants are rounded to it. -/
def Interp.single : Interp Binary32 where
  blank := .zero
  const := .convert
  unary := Scalar.unary
  binary := Scalar.binary
  choice _ _ _ := .unknown

/-- The results of an evaluator at four points, in lanes. -/
def Evaluator.evalPoints (e : Evaluator Lanes) (points : Vector (Array Binary32) 4) :
    Except EvalError (List Lanes) :=
  match Lanes.ofPoints points with
  | .error f => .error (.fault f)
  | .ok lanes => (e.eval lanes.toArray e.tape.outputs.size).1

/-- Four things in another order, some perhaps more than once. -/
def Lanes.arrange {α : Type} (σ : Fin 4 → Fin 4) (v : Vector α 4) : Vector α 4 :=
  .ofFn fun l => v.get (σ l)

theorem Lanes.arrange_lane {α : Type} (σ : Fin 4 → Fin 4) (v : Vector α 4) (l : Fin 4) :
    (arrange σ v).get l = v.get (σ l) := Vector.getElem_ofFn l.isLt

namespace Tape

variable {t : Tape} {lanes : Array Lanes} {points : Vector (Array Binary32) 4}

/-- The results at four points are these if the tape is executed in place, whatever
the slots hold before. -/
def GivesInPlace (t : Tape) (points : Vector (Array Binary32) 4) (out : List Lanes) : Prop :=
  ∀ table : Array Lanes, table.size = t.size → ∃ lanes table',
    Lanes.ofPoints points = .ok lanes ∧
      Lanes.execInPlace lanes.toArray table 0 t.instrs.toList = .ok table' ∧
      lookupAll table' t.outputs.toList = .ok out

/-- Every lane of a slot holds what the slot holds at the point of the lane: by
induction on slots, an operator having its value lane by lane. -/
theorem WellFormed.slots_lane (hwf : t.WellFormed) {l : Fin 4} {point : Array Binary32}
    (hlanes : lanes.size = t.vars.size) (hpoint : point.size = t.vars.size)
    (hin : ∀ (k : Nat) v x, lanes[k]? = some v → point[k]? = some x → v.get l = x) :
    ∀ (k : Nat) v x, (t.slotValues .simd4 lanes)[k]? = some v →
      (t.slotValues .single point)[k]? = some x → v.get l = x := by
  refine hwf.slots_rel hlanes hpoint fun k i a b c d _ _ _ ha hb hargs => ?_
  refine Instr.outcome?_rel (R := fun v x => v.get l = x) hin (Lanes.splat_lane _) ?_ ?_ ha hb
  · intro u v x hop hv hx
    have hvx := hargs i.left (by simp [Instr.args_unary hop]) v x hv hx
    exact (Lanes.unary_lane u v).trans (congrArg (Scalar.unary u) hvx)
  · intro o v x v' x' hop hv hx hv' hx'
    have hleft := hargs i.left (by simp [Instr.args_binary hop]) v x hv hx
    have hright := hargs i.right (by simp [Instr.args_binary hop]) v' x' hv' hx'
    exact (Lanes.binary_lane o v v').trans (congrArg₂ (Scalar.binary o) hleft hright)

/-- Executing a valid tape in place never faults, and leaves what evaluating it
leaves, whatever the slots hold before. -/
theorem WellFormed.execInPlace_eq (hwf : t.WellFormed) (hlanes : lanes.size = t.vars.size)
    {table : Array Lanes} (htable : table.size = t.size) :
    Lanes.execInPlace lanes table 0 t.instrs.toList = .ok (t.slotValues .simd4 lanes) := by
  obtain ⟨s, hs, hdone⟩ := Slots.exec_done (I := .simd4)
    (s := ⟨table, Array.replicate t.size .unknown⟩) hwf hlanes htable (by simp)
  have hroom : 0 + t.instrs.toList.length ≤ table.size := by
    rw [htable, Nat.zero_add, Array.length_toList]
    exact Nat.le_refl _
  have hinPlace : Lanes.execInPlace lanes table 0 t.instrs.toList = _ :=
    Lanes.exec_inPlace _ ⟨table, Array.replicate t.size .unknown⟩ 0 hroom
  rw [hs] at hinPlace
  exact hinPlace.trans (congrArg Except.ok ((means_of_done hdone).unique hwf (hwf.means hlanes)))

/-- An evaluator of a valid tape gives results at four points, each lane being
those at the point of the lane. In place they are the same. -/
theorem WellFormed.evalPoints_eq (hwf : t.WellFormed) {e : Evaluator Lanes} (he : e.Of .simd4 t)
    (hsize : ∀ l : Fin 4, (points.get l).size = t.vars.size) :
    ∃ out, e.evalPoints points = .ok out ∧
      (∀ l : Fin 4, t.eval .single (points.get l) = .ok (out.map (·.get l))) ∧
      t.GivesInPlace points out := by
  have hin : (((List.range t.vars.size).map (Lanes.coordinate points)).toArray).size =
      t.vars.size := by simp
  obtain ⟨out, hout, houtputs, -⟩ := hwf.eval_eq (I := .simd4) hin
  refine ⟨out, ?_, fun l => ?_, fun table htable => ?_⟩
  · simp only [Evaluator.evalPoints, Lanes.ofPoints_eq hsize, he.tape, he.eval_eq hwf hin, hout]
  · have hlane : ∀ (k : Nat) v x,
        (((List.range t.vars.size).map (Lanes.coordinate points)).toArray)[k]? = some v →
          (points.get l)[k]? = some x → v.get l = x := by
      intro k v x hv hx
      obtain ⟨hk, rfl⟩ := Array.getElem?_eq_some_iff.1 hv
      simp only [List.getElem_toArray, List.getElem_map, List.getElem_range]
      rw [Lanes.coordinate_lane, hx, Option.getD_some]
    obtain ⟨out', outₗ, hout', hsingle, hrel⟩ :=
      hwf.eval_rel hin (hsize l) (hwf.slots_lane hin (hsize l) hlane)
    obtain rfl := Except.ok.inj (hout.symm.trans hout')
    have hmap : out.map (·.get l) = outₗ := by
      rw [← List.forall₂_eq_eq_eq, List.forall₂_map_left_iff]
      exact hrel
    rw [hsingle, hmap]
  · exact ⟨_, _, Lanes.ofPoints_eq hsize, hwf.execInPlace_eq hin htable,
      lookupAll_eq_ok.2 houtputs⟩

/-- **The four lanes of an evaluation are independent.** A valid tape is evaluated
at four points, with one coordinate for each variable, by an evaluator that may
have been used before. It gives results, and:
- each lane of every result is what the tape gives at the point of that lane, in
  single precision;
- a lane does not depend on the other points: at any four points of which one is
  the same, the results are the same in its lane;
- points in another order give the results with the lanes in that order;
- writing the lanes of each slot one after the other, in place, gives the same
  results. -/
theorem lanes_independent (t : Tape) (hvalid : t.validate = .ok ())
    (points : Vector (Array Binary32) 4) (hsize : ∀ l : Fin 4, (points.get l).size = t.vars.size)
    (before : List (Array Lanes × Nat)) :
    ∃ out, ((Evaluator.new .simd4 t).after before).evalPoints points = .ok out ∧
      (∀ l : Fin 4, t.eval .single (points.get l) = .ok (out.map (·.get l))) ∧
      (∀ (points' : Vector (Array Binary32) 4) (before' : List (Array Lanes × Nat)) (l : Fin 4),
        (∀ m : Fin 4, (points'.get m).size = t.vars.size) → points'.get l = points.get l →
        ∃ out', ((Evaluator.new .simd4 t).after before').evalPoints points' = .ok out' ∧
          out'.map (·.get l) = out.map (·.get l)) ∧
      (∀ (σ : Fin 4 → Fin 4) (before' : List (Array Lanes × Nat)),
        ((Evaluator.new .simd4 t).after before').evalPoints (Lanes.arrange σ points) =
          .ok (out.map (Lanes.arrange σ))) ∧
      t.GivesInPlace points out := by
  obtain ⟨-, hwf⟩ := validate_eq_ok.1 hvalid
  obtain ⟨out, hout, hlane, hinPlace⟩ :=
    hwf.evalPoints_eq (Evaluator.after_of .simd4 t before) hsize
  refine ⟨out, hout, hlane, fun points' before' l hsize' hsame => ?_, fun σ before' => ?_, hinPlace⟩
  · obtain ⟨out', hout', hlane', -⟩ :=
      hwf.evalPoints_eq (Evaluator.after_of .simd4 t before') hsize'
    refine ⟨out', hout', ?_⟩
    have hl := hlane' l
    rw [hsame, hlane l] at hl
    exact (Except.ok.inj hl).symm
  · have hsize' : ∀ l : Fin 4, ((Lanes.arrange σ points).get l).size = t.vars.size := fun l => by
      rw [Lanes.arrange_lane, hsize]
    obtain ⟨out', hout', hlane', -⟩ :=
      hwf.evalPoints_eq (Evaluator.after_of .simd4 t before') hsize'
    rw [hout']
    have hmap : ∀ l : Fin 4, out'.map (·.get l) = out.map (·.get (σ l)) := fun l => by
      have hl := hlane' l
      rw [Lanes.arrange_lane, hlane (σ l)] at hl
      exact (Except.ok.inj hl).symm
    have hlength : out'.length = out.length := by simpa using congrArg List.length (hmap 0)
    refine congrArg Except.ok (List.ext_getElem (by simpa using hlength) fun k hk hk' => ?_)
    refine Lanes.ext_lane fun l => ?_
    have hkl := congrArg (·[k]?) (hmap l)
    have hk'' : k < out.length := by simpa using hk'
    simpa [hk, hk'', Lanes.arrange_lane] using hkl

/-- `x / 10`. -/
def tenth : Tape where
  instrs := #[{ code := Op.input.code, var := 0 }, { code := Op.const.code, imm := .ofInt 10 },
    { code := BinaryOp.div.code, left := 0, right := 1 }]
  outputs := #[2]
  vars := #[utf8 "x"]

/-- At `1`, `2`, `3` and `4`, after an evaluation at other points; and in the
opposite order. -/
theorem lanes_independent_tenth :
    tenth.validate = .ok () ∧
      ∃ out, ((Evaluator.new .simd4 tenth).after [(#[.splat .one], 1)]).evalPoints
          #v[#[.ofInt 1], #[.ofInt 2], #[.ofInt 3], #[.ofInt 4]] = .ok out ∧
        tenth.eval .single #[.ofInt 3] = .ok (out.map (·.get 2)) ∧
        (Evaluator.new .simd4 tenth).evalPoints
            #v[#[.ofInt 4], #[.ofInt 3], #[.ofInt 2], #[.ofInt 1]] =
          .ok (out.map (Lanes.arrange Fin.rev)) := by
  have hvalid : tenth.validate = .ok () := by decide
  obtain ⟨out, hout, hlane, -, harrange, -⟩ := lanes_independent tenth hvalid
    #v[#[.ofInt 1], #[.ofInt 2], #[.ofInt 3], #[.ofInt 4]] (by decide)
    [(#[.splat .one], 1)]
  exact ⟨hvalid, out, hout, hlane 2, harrange Fin.rev []⟩

end Tape

end ScalarField
