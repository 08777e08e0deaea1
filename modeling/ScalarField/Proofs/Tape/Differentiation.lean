/-
What the derivatives of a tape are. Evaluated over the reals, each output of a
tape is a function of the first three variables (`Interp.pointwise`), and
evaluating with derivatives gives its value and its partial derivatives
(`Tape.forward_partials`), wherever every operator can be differentiated at what
it reads (`Tape.RegularAt`).

The relation that carries the induction over slots is `Grad.Partials`: the
gradient in a slot belongs to the function in it. One lemma for each arity says
that the rules keep it (`Grad.Partials.unary`, `Grad.Partials.binary`).
-/
import ScalarField.Proofs.Graph.Interning
import ScalarField.Proofs.Number.Exact
import ScalarField.Proofs.Tape.Meaning

namespace ScalarField

/-! ## Interpretations -/

namespace Interp

/-- One point, over the reals. -/
noncomputable def exact (reading : Binary64 → ℝ) : Interp ℝ where
  blank := 0
  const := reading
  unary := UnaryOp.exact
  binary := BinaryOp.exact
  choice _ _ _ := .unknown

/-- Functions into the values of an interpretation. -/
def pointwise {α : Type} (σ : Type) (I : Interp α) : Interp (σ → α) where
  blank _ := I.blank
  const v _ := I.const v
  unary u f s := I.unary u (f s)
  binary o f g s := I.binary o (f s) (g s)
  choice _ _ _ := .unknown

end Interp

namespace Tape

variable {α σ : Type} {I : Interp α} {t : Tape} {fs : Array (σ → α)}

/-- At every argument, the functions in the slots have the values that the slots
hold once the tape has been evaluated there. -/
theorem WellFormed.slots_pointwise (hwf : t.WellFormed) (hin : fs.size = t.vars.size) (s : σ)
    {k : Nat} {f : σ → α} (hf : (t.slotValues (I.pointwise σ) fs)[k]? = some f) :
    (t.slotValues I (fs.map (· s)))[k]? = some (f s) := by
  have hin' : (fs.map (· s)).size = t.vars.size := by simpa using hin
  have hrel := hwf.slots_rel (I := I.pointwise σ) (J := I) (R := fun f a => f s = a) hin hin' ?_
  · have hk := (Array.getElem?_eq_some_iff.1 hf).1
    rw [(hwf.means hin).size, ← (hwf.means hin').size] at hk
    have ha := Array.getElem?_eq_getElem hk
    rw [ha, hrel k f _ hf ha]
  · intro k i f a c d hi _ _ hf ha hargs
    refine Instr.outcome?_rel (R := fun f a => f s = a) ?_ rfl ?_ ?_ hf ha
    · intro k x y hx hy
      simpa [hx] using hy
    · intro u x y hop hx hy
      have := hargs i.left (by simp [Instr.args_unary hop]) x y hx hy
      exact congrArg (I.unary u) this
    · intro o x y x' y' hop hx hy hx' hy'
      have hleft := hargs i.left (by simp [Instr.args_binary hop]) x y hx hy
      have hright := hargs i.right (by simp [Instr.args_binary hop]) x' y' hx' hy'
      exact congrArg₂ (I.binary o) hleft hright

/-- Evaluating functions gives functions: at every argument, their values are
the results of evaluating the tape there. -/
theorem WellFormed.eval_pointwise (hwf : t.WellFormed) (hin : fs.size = t.vars.size)
    {out : List (σ → α)} (hout : t.eval (I.pointwise σ) fs = .ok out) (s : σ) :
    t.eval I (fs.map (· s)) = .ok (out.map (· s)) := by
  have hin' : (fs.map (· s)).size = t.vars.size := by simpa using hin
  have hrel := hwf.eval_rel (I := I.pointwise σ) (J := I) (R := fun f a => f s = a) hin hin' ?_
  · obtain ⟨gs, vs, hgs, hvs, hall⟩ := hrel
    obtain rfl : out = gs := by simpa [hout] using hgs
    have hmap : List.Forall₂ Eq (out.map (· s)) vs := List.forall₂_map_left_iff.2 hall
    rw [List.forall₂_eq_eq_eq] at hmap
    rw [hvs, hmap]
  · intro k f a hf ha
    simpa [hwf.slots_pointwise hin s hf] using ha

end Tape

/-! ## Gradients of functions -/

/-- A gradient has the value of a function of three variables at a point, and
its partial derivatives there. -/
structure Grad.Partials (f : ℝ × ℝ × ℝ → ℝ) (x y z : ℝ) (g : Grad ℝ) : Prop where
  v : g.v = f (x, y, z)
  dx : HasDerivAt (fun s => f (s, y, z)) g.dx x
  dy : HasDerivAt (fun s => f (x, s, z)) g.dy y
  dz : HasDerivAt (fun s => f (x, y, s)) g.dz z

namespace Grad.Partials

variable {f f' : ℝ × ℝ × ℝ → ℝ} {x y z : ℝ} {g g' : Grad ℝ}

theorem const (c : ℝ) : (Grad.const c).Partials (fun _ => c) x y z := by
  have hzero : ∀ s : ℝ, HasDerivAt (fun _ => c) (Arith.ofInt 0) s := fun s =>
    (hasDerivAt_const s c).congr_deriv (by simp)
  exact ⟨rfl, hzero x, hzero y, hzero z⟩

/-- The chain rule. -/
theorem unary {u : UnaryOp} (hu : u.hasSlope = true) (h : g.Partials f x y z)
    (hreg : u.Regular g.v) : (Grad.unary u g).Partials (fun p => u.exact (f p)) x y z := by
  have hslope := UnaryOp.hasDerivAt_exact hu (h.v ▸ hreg)
  rw [Grad.unary_eq hu, h.v]
  refine ⟨rfl, ?_, ?_, ?_⟩
  · exact (hslope.comp x h.dx).congr_deriv (mul_comm _ _)
  · exact (hslope.comp y h.dy).congr_deriv (mul_comm _ _)
  · exact (hslope.comp z h.dz).congr_deriv (mul_comm _ _)

theorem binary {o : BinaryOp} (ho : o.hasSlope = true) (h : g.Partials f x y z)
    (h' : g'.Partials f' x y z) (hreg : o.Regular g.v g'.v) :
    (Grad.binary o g g').Partials (fun p => o.exact (f p) (f' p)) x y z := by
  rw [Grad.binary_eq ho g g' hreg]
  rw [h.v, h'.v] at hreg ⊢
  exact ⟨rfl, BinaryOp.hasDerivAt_exact ho hreg h.dx h'.dx,
    BinaryOp.hasDerivAt_exact ho hreg h.dy h'.dy, BinaryOp.hasDerivAt_exact ho hreg h.dz h'.dz⟩

end Grad.Partials

/-! ## Tapes -/

/-- Whether an operator has a slope; a constant and a variable do. -/
def Op.hasSlope : Op → Bool
  | .input | .const => true
  | .unary u => u.hasSlope
  | .binary o => o.hasSlope

/-- The operator of an instruction can be differentiated at what it reads. -/
def Instr.RegularOn (values : Array ℝ) (i : Instr) : Prop :=
  match i.op? with
  | some (.unary u) => ∀ a ∈ values[i.left]?, u.Regular a
  | some (.binary o) => ∀ a ∈ values[i.left]?, ∀ b ∈ values[i.right]?, o.Regular a b
  | _ => True

namespace Tape

/-- Every operator of the tape has a slope. -/
def HasSlopes (t : Tape) : Prop := ∀ i ∈ t.instrs, ∀ op ∈ i.op?, op.hasSlope = true

instance (t : Tape) : Decidable t.HasSlopes :=
  inferInstanceAs (Decidable (∀ i ∈ t.instrs, ∀ op ∈ i.op?, op.hasSlope = true))

/-- Evaluated over the reals, every operator of the tape reads operands at which
it can be differentiated. -/
def RegularAt (t : Tape) (reading : Binary64 → ℝ) (inputs : Array ℝ) : Prop :=
  ∀ i ∈ t.instrs, i.RegularOn (t.slotValues (.exact reading) inputs)

/-- The variables as functions of the first three. -/
def axes (rest : List ℝ) : Array (ℝ × ℝ × ℝ → ℝ) :=
  (Prod.fst :: (·.2.1) :: (·.2.2) :: rest.map fun c _ => c).toArray

variable {t : Tape} {reading : Binary64 → ℝ} {x y z : ℝ} {rest : List ℝ}

theorem axes_map (p : ℝ × ℝ × ℝ) :
    (axes rest).map (· p) = (p.1 :: p.2.1 :: p.2.2 :: rest).toArray := by
  simp [axes, Function.comp_def]

theorem size_axes : (axes rest).size = 3 + rest.length := by
  simp [axes, Nat.add_comm 3]

theorem size_seed : (Grad.seed x y z rest).toArray.size = 3 + rest.length := by
  simp [Grad.seed, Nat.add_comm 3]

theorem partials_seed :
    List.Forall₂ (fun f g => g.Partials f x y z) (axes rest).toList (Grad.seed x y z rest) := by
  have hone : ∀ s : ℝ, HasDerivAt (fun s => s) (Arith.ofInt 1) s := fun s =>
    (hasDerivAt_id s).congr_deriv (by simp)
  have hzero : ∀ c s : ℝ, HasDerivAt (fun _ => c) (Arith.ofInt 0) s := fun c s =>
    (hasDerivAt_const s c).congr_deriv (by simp)
  refine .cons ⟨rfl, hone x, hzero x y, hzero x z⟩ (.cons ⟨rfl, hzero y x, hone y, hzero y z⟩
    (.cons ⟨rfl, hzero z x, hzero z y, hone z⟩ ?_))
  rw [List.forall₂_map_left_iff, List.forall₂_map_right_iff, List.forall₂_same]
  exact fun c _ => .const c

/-- Every slot of a valid tape holds the gradient of its function: by induction
on slots, the operands holding theirs. -/
theorem WellFormed.slots_partials (hwf : t.WellFormed) (hvars : t.vars.size = 3 + rest.length)
    (hslopes : t.HasSlopes) (hreg : t.RegularAt reading (x :: y :: z :: rest).toArray) :
    ∀ (k : Nat) f g,
      (t.slotValues ((Interp.exact reading).pointwise (ℝ × ℝ × ℝ)) (axes rest))[k]? = some f →
      (t.slotValues (.forward reading) (Grad.seed x y z rest).toArray)[k]? = some g →
      g.Partials f x y z := by
  have hin : (axes rest).size = t.vars.size := size_axes.trans hvars.symm
  have hin' : (Grad.seed x y z rest).toArray.size = t.vars.size := size_seed.trans hvars.symm
  rw [← axes_map (x, y, z)] at hreg
  refine hwf.slots_rel hin hin' fun k i f g c d hi _ _ hf hg hargs => ?_
  have hmem := Array.mem_of_getElem? hi
  refine Instr.outcome?_rel (R := fun f g => g.Partials f x y z)
    (fun k f g => forall₂_getElem? partials_seed) (.const _) ?_ ?_ hf hg
  · intro u f g hop hf hg
    have hpart := hargs i.left (by simp [Instr.args_unary hop]) f g hf hg
    refine hpart.unary (hslopes i hmem _ hop) ?_
    have := hreg i hmem
    simp only [Instr.RegularOn, hop, hwf.slots_pointwise hin (x, y, z) hf] at this
    exact hpart.v ▸ this _ rfl
  · intro o f g f' g' hop hf hg hf' hg'
    have hleft := hargs i.left (by simp [Instr.args_binary hop]) f g hf hg
    have hright := hargs i.right (by simp [Instr.args_binary hop]) f' g' hf' hg'
    refine hleft.binary (hslopes i hmem _ hop) hright ?_
    have := hreg i hmem
    simp only [Instr.RegularOn, hop, hwf.slots_pointwise hin (x, y, z) hf,
      hwf.slots_pointwise hin (x, y, z) hf'] at this
    rw [hleft.v, hright.v]
    exact this _ rfl _ rfl

/-- **The rules for derivatives are those of calculus.** A valid tape whose
operators all have slopes is read over the reals, its constants standing for any
numbers. Evaluating it gives every output as a function of the first three
variables, the others being held. Where every operator can be differentiated at
what it reads, evaluating it on seeded inputs gives as many results as there are
outputs: for each the value of its function and the partial derivatives by each
of the three. -/
theorem forward_partials (t : Tape) (reading : Binary64 → ℝ) (x y z : ℝ) (rest : List ℝ)
    (hvalid : t.validate = .ok ()) (hvars : t.vars.size = 3 + rest.length)
    (hslopes : t.HasSlopes) (hreg : t.RegularAt reading (x :: y :: z :: rest).toArray) :
    ∃ (fs : List (ℝ × ℝ × ℝ → ℝ)) (gs : List (Grad ℝ)),
      (∀ a b c, t.eval (.exact reading) (a :: b :: c :: rest).toArray =
        .ok (fs.map (· (a, b, c)))) ∧
      t.eval (.forward reading) (Grad.seed x y z rest).toArray = .ok gs ∧
      gs.length = t.outputs.size ∧ List.Forall₂ (fun f g => g.Partials f x y z) fs gs := by
  obtain ⟨-, hwf⟩ := validate_eq_ok.1 hvalid
  have hin : (axes rest).size = t.vars.size := size_axes.trans hvars.symm
  have hin' : (Grad.seed x y z rest).toArray.size = t.vars.size := size_seed.trans hvars.symm
  obtain ⟨fs, gs, hfs, hgs, hall⟩ :=
    hwf.eval_rel hin hin' (hwf.slots_partials hvars hslopes hreg)
  refine ⟨fs, gs, fun a b c => ?_, hgs, ?_, hall⟩
  · rw [← axes_map (a, b, c)]
    exact hwf.eval_pointwise hin hfs (a, b, c)
  · obtain ⟨out, hout, hslots, -⟩ := hwf.eval_eq (I := .forward reading) hin'
    obtain rfl : gs = out := by simpa [hgs] using hout
    simpa using hslots.length_eq.symm

/-- The greater of `x / y` and `|z|`. -/
def greaterOfRatio : Tape where
  instrs := #[{ code := Op.input.code, var := 0 }, { code := Op.input.code, var := 1 },
    { code := Op.input.code, var := 2 }, { code := (Op.binary .div).code, left := 0, right := 1 },
    { code := (Op.unary .abs).code, left := 2 },
    { code := (Op.binary .max).code, left := 3, right := 4 }]
  outputs := #[5]
  vars := #[utf8 "x", utf8 "y", utf8 "z"]

theorem slotValues_greaterOfRatio (reading : Binary64 → ℝ) (x y z : ℝ) :
    greaterOfRatio.slotValues (.exact reading) #[x, y, z] =
      #[x, y, z, x / y, |z|, Max.max (x / y) |z|] := by
  simp [slotValues, evaluated, Evaluator.new, Evaluator.eval, checkArity, greaterOfRatio,
    Slots.blank, Slots.exec, Slots.valueOf, Slots.inputOf, Slots.write, Instr.op?, Op.ofCode?_code,
    lookup, lookupAll, Except.map, Array.replicate_succ, Tape.size, Interp.exact, UnaryOp.exact,
    BinaryOp.exact]

theorem regularAt_greaterOfRatio {reading : Binary64 → ℝ} {x y z : ℝ} (hy : y ≠ 0) (hz : z ≠ 0)
    (hne : x / y ≠ |z|) : greaterOfRatio.RegularAt reading #[x, y, z] := by
  intro i hi
  rw [slotValues_greaterOfRatio]
  simp only [greaterOfRatio, List.mem_toArray, List.mem_cons, List.not_mem_nil, or_false] at hi
  rcases hi with rfl | rfl | rfl | rfl | rfl | rfl
  iterate 3 trivial
  · intro a _ b hb
    obtain rfl : y = b := by simpa using hb
    exact hy
  · intro a ha
    obtain rfl : z = a := by simpa using ha
    exact hz
  · intro a ha b hb
    obtain rfl : x / y = a := by simpa using ha
    obtain rfl : |z| = b := by simpa using hb
    exact hne

theorem eval_greaterOfRatio (reading : Binary64 → ℝ) :
    greaterOfRatio.eval (.forward reading) (Grad.seed 1 2 (-3) []).toArray =
      .ok [⟨3, 0, 0, -1⟩] := by
  have hle : (2 : ℝ)⁻¹ ≤ 3 := by norm_num
  simpa [eval, Evaluator.new, Evaluator.eval, checkArity, greaterOfRatio, Slots.blank, Slots.exec,
    Slots.valueOf, Slots.inputOf, Slots.write, Instr.op?, Op.ofCode?_code, lookup, lookupAll,
    Except.map, Array.replicate_succ, Tape.size, Interp.forward, Grad.seed, Grad.unary, Grad.binary,
    Grad.div, Grad.derive₂, Grad.neg, Grad.derive, Grad.max] using hle

/-- At `x = 1`, `y = 2` and `z = -3` the greater one is `|z|`: it is 3, and falls
as `z` rises. -/
theorem forward_partials_greaterOfRatio :
    greaterOfRatio.RegularAt (fun _ => 0) #[1, 2, -3] ∧
    greaterOfRatio.eval (.forward fun _ => 0) (Grad.seed (1 : ℝ) 2 (-3) []).toArray =
      .ok [⟨3, 0, 0, -1⟩] ∧
    ∃ f : ℝ × ℝ × ℝ → ℝ,
      (∀ a b c, greaterOfRatio.eval (.exact fun _ => 0) #[a, b, c] = .ok [f (a, b, c)]) ∧
      f (1, 2, -3) = 3 ∧ HasDerivAt (fun s => f (s, 2, -3)) 0 1 ∧
      HasDerivAt (fun s => f (1, s, -3)) 0 2 ∧ HasDerivAt (fun s => f (1, 2, s)) (-1) (-3) := by
  have hreg : greaterOfRatio.RegularAt (fun _ => 0) #[1, 2, -3] :=
    regularAt_greaterOfRatio (by norm_num) (by norm_num) (by norm_num)
  obtain ⟨fs, gs, hfs, hgs, -, hall⟩ :=
    forward_partials greaterOfRatio (fun _ => 0) 1 2 (-3) [] (by decide) rfl (by decide) hreg
  have heval := eval_greaterOfRatio fun _ => 0
  obtain rfl : gs = [⟨3, 0, 0, -1⟩] := by simpa [heval] using hgs.symm
  obtain ⟨f, rfl⟩ : ∃ f, fs = [f] := List.length_eq_one_iff.1 hall.length_eq
  obtain ⟨⟨hv, hdx, hdy, hdz⟩, -⟩ := List.forall₂_cons.1 hall
  exact ⟨hreg, heval, f, hfs, hv.symm, hdx, hdy, hdz⟩

end Tape

end ScalarField
