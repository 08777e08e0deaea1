/-
Simplifying a simplified tape over the same region gives the same tape
(`Tape.simplifyOver_fixed`), as long as the operands of every resolved `min`
and `max` have their bounds in order.

Then the operand that a choice picks has the very interval of the result, so
that forwarding changes no interval. The kept instructions make the choices
they made before, which are unresolved, or they would not have been kept.
Where a bound is NaN, or bounds are inverted, a resolved `min` or `max` can
have another interval than the operand that replaces it, and the second pass
resolves more (`Tape.simplifyOver_not_fixed`).
-/
import ScalarField.Proofs.Interval.Region
import ScalarField.Proofs.Tape.Irreducible

namespace ScalarField

/-! ## Choices -/

namespace Interval

variable {a b : Interval}

theorem min_eq (ha : a.lo.le a.hi = true) (hb : b.lo.le b.hi = true) :
    (a.hi.lt b.lo = true → a.min b = a) ∧ (b.hi.lt a.lo = true → a.min b = b) := by
  obtain ⟨hal, hah, ha⟩ := Binary.le_eq_true.1 ha
  obtain ⟨hbl, hbh, hb⟩ := Binary.le_eq_true.1 hb
  simp only [Interval.min, scalar_min_eq hal hbl, scalar_min_eq hah hbh, lt_iff hah hbl,
    lt_iff hbh hal, lt_iff hal hbl, lt_iff hah hbh]
  constructor
  · intro h
    rw [if_pos (by omega), if_pos (by omega)]
  · intro h
    rw [if_neg (by omega), if_neg (by omega)]

theorem max_eq (ha : a.lo.le a.hi = true) (hb : b.lo.le b.hi = true) :
    (b.hi.lt a.lo = true → a.max b = a) ∧ (a.hi.lt b.lo = true → a.max b = b) := by
  obtain ⟨hal, hah, ha⟩ := Binary.le_eq_true.1 ha
  obtain ⟨hbl, hbh, hb⟩ := Binary.le_eq_true.1 hb
  simp only [Interval.max, scalar_max_eq hal hbl, scalar_max_eq hah hbh, lt_iff hah hbl,
    lt_iff hbh hal, lt_iff hbl hal, lt_iff hbh hah]
  constructor
  · intro h
    rw [if_pos (by omega), if_pos (by omega)]
  · intro h
    rw [if_neg (by omega), if_neg (by omega)]

/-- The operand that a choice picks is the whole result, of `min` and `max`
where the bounds are in order. -/
theorem choice_yields {o : BinaryOp} (hord : o = .min ∨ o = .max →
      (choice o a b).isResolved = true → a.lo.le a.hi = true ∧ b.lo.le b.hi = true) :
    (choice o a b = .left → binary o a b = a) ∧ (choice o a b = .right → binary o a b = b) := by
  cases o with
  | min =>
    constructor
    · intro h
      obtain ⟨ha, hb⟩ := hord (.inl rfl) (by rw [h]; rfl)
      simp only [choice, below] at h
      split_ifs at h with h1
      exact (min_eq ha hb).1 h1
    · intro h
      obtain ⟨ha, hb⟩ := hord (.inl rfl) (by rw [h]; rfl)
      simp only [choice, below] at h
      split_ifs at h with h1 h2
      exact (min_eq ha hb).2 h2
  | max =>
    constructor
    · intro h
      obtain ⟨ha, hb⟩ := hord (.inr rfl) (by rw [h]; rfl)
      simp only [choice, above] at h
      split_ifs at h with h1
      exact (max_eq ha hb).1 h1
    · intro h
      obtain ⟨ha, hb⟩ := hord (.inr rfl) (by rw [h]; rfl)
      simp only [choice, above] at h
      split_ifs at h with h1 h2
      exact (max_eq ha hb).2 h2
  | and =>
    simp only [choice, binary, Interval.and]
    split_ifs <;> simp
  | or =>
    simp only [choice, binary, Interval.or]
    split_ifs <;> simp
  | _ => simp [choice]

end Interval

/-! ## Tapes -/

namespace Tape

variable {t s : Tape} {region : Array Interval}

/-- Both operands of every `min` and `max` that the region resolves have their
bounds in order. -/
def ResolvesInOrder (t : Tape) (region : Array Interval) : Prop :=
  ∀ (i : Instr) (o : BinaryOp) (a b : Interval), i ∈ t.instrs → i.op? = some (.binary o) →
    o = .min ∨ o = .max → (t.slotValues .interval region)[i.left]? = some a →
    (t.slotValues .interval region)[i.right]? = some b →
    (Interval.choice o a b).isResolved = true → a.lo.le a.hi = true ∧ b.lo.le b.hi = true

theorem resolvesInOrder_of_le
    (h : ∀ a ∈ t.slotValues .interval region, a.lo.le a.hi = true) : t.ResolvesInOrder region :=
  fun _ _ a b _ _ _ ha hb _ => ⟨h a (Array.mem_of_getElem? ha), h b (Array.mem_of_getElem? hb)⟩

/-- The choices over a region hold for the intervals over it. -/
theorem WellFormed.choicesHold_intervals (hwf : t.WellFormed) (hvars : region.size = t.vars.size)
    {cs : List Choice} (hcs : t.DecidedBy region cs) (hord : t.ResolvesInOrder region) :
    t.ChoicesHold cs (t.slotValues .interval region) := by
  intro k i hi hchoice
  obtain ⟨o, hop⟩ := Forwarding.isChoice_binary hchoice
  have hmeans := hwf.means (I := .interval) hvars
  obtain ⟨v, c, hv, hout⟩ := hmeans.outcome hi
  simp only [Instr.outcome?, hop, Option.bind_eq_some_iff, Option.map_eq_some_iff,
    Prod.mk.injEq] at hout
  obtain ⟨a, ha, b, hb, rfl, -⟩ := hout
  obtain ⟨hleft, hright⟩ := Interval.choice_yields (o := o) (a := a) (b := b)
    fun hmm => hord i o a b (Array.mem_of_getElem? hi) hop hmm ha hb
  rw [hcs k i o a b hi hop ha hb, hv, ha, hb]
  simp only [Option.some.injEq]
  exact ⟨hleft, hright⟩

/-- If forwarding changes no interval, each instruction of a reduced tape makes
the choice of the instruction that it traces back to. -/
theorem Forwarding.Reduces.choicesOver_eq {f : Forwarding} {src : List Nat}
    (h : Reduces t f s src) (hwf : t.WellFormed) (hvars : region.size = t.vars.size)
    (hval : ∀ a b : Nat, f.forward[a]? = some b →
      (t.slotValues .interval region)[b]? = (t.slotValues .interval region)[a]?)
    {out : List Interval} {cs : List Choice} (hcs : t.choicesOver region = .ok (out, cs)) :
    ∃ out' cs', s.choicesOver region = .ok (out', cs') ∧ cs'.length = s.size ∧
      ∀ {m j : Nat}, src[m]? = some j → cs'[m]? = cs[j]? := by
  have hswf := h.wellFormed hwf
  have hsvars : region.size = s.vars.size := h.vars ▸ hvars
  obtain ⟨values', hmeans', hread⟩ := h.means (hwf.means (I := .interval) hvars) hval
  obtain rfl : values' = s.slotValues .interval region := hmeans'.unique hswf (hswf.means hsvars)
  obtain ⟨_, _, hcs', -, hslot⟩ := hwf.choicesOver_outcome hvars
  obtain ⟨rfl, rfl⟩ : _ ∧ _ := by simpa [hcs] using hcs'.symm
  obtain ⟨out', cs', hscs, hslen, hsslot⟩ := hswf.choicesOver_outcome hsvars
  refine ⟨out', cs', hscs, hslen, fun {m j} hm => ?_⟩
  obtain ⟨-, i, args, hi, hs, hall⟩ := h.instr hm
  obtain ⟨v, c, hout, hc⟩ := hslot j i hi
  obtain ⟨v', c', hout', hc'⟩ := hsslot m _ hs
  -- The operands have the intervals of the operands that they stand for.
  have hsame : (withArgs i args).outcome? .interval region ((s.slotValues .interval region)[·]?) =
      i.outcome? .interval region ((t.slotValues .interval region)[·]?) :=
    outcome?_withArgs (hall.imp fun a b ⟨d, had, _, hbd⟩ => (hread hbd).trans (hval a d had))
  obtain ⟨-, rfl⟩ : v' = v ∧ c' = c := by simpa [hsame, hout] using hout'.symm
  rw [hc, hc']

/-- What is left of a tape has no choice that its region resolves. -/
theorem WellFormed.simplifyOver_unresolved (hwf : t.WellFormed) (ht : t.size ≤ 2 ^ 32)
    (hvars : region.size = t.vars.size) (hord : t.ResolvesInOrder region) :
    ∃ s cs out cs', t.simplifyOver region = .ok (s, cs) ∧ s.WellFormed ∧ s.size ≤ t.size ∧
      s.AllUsed ∧ s.choicesOver region = .ok (out, cs') ∧ cs'.length = s.size ∧
      s.Unresolved cs' := by
  obtain ⟨out, cs, hcs, hlen, hdecided⟩ := hwf.choicesOver_eq hvars
  obtain ⟨s, f, src, hs, hfwd, hred, hess⟩ := hwf.simplify_essential hlen ht
  have hval := hfwd.value hwf hlen (hwf.choicesHold_intervals hvars hdecided hord)
  obtain ⟨out', cs', hcs', hlen', hsame⟩ := hred.choicesOver_eq hwf hvars hval hcs
  have hsize : s.size ≤ t.size := by
    have hsub : src ⊆ List.range t.size := fun j hj => by
      obtain ⟨m, hm⟩ := List.mem_iff_getElem?.1 hj
      exact List.mem_range.2 (hred.instr hm).1
    have hnodup : src.Nodup := hess.sorted.imp fun hlt => Nat.ne_of_lt hlt
    simpa [hred.length] using (List.subperm_of_subset hnodup hsub).length_le
  refine ⟨s, cs, out', cs', by simp only [simplifyOver, hcs, hs], hred.wellFormed hwf, hsize,
    hess.used, hcs', hlen', fun m i c hi hch hc => ?_⟩
  have hm : m < src.length := hred.length ▸ (Array.getElem?_eq_some_iff.1 hi).1
  have hsrc := List.getElem?_eq_getElem hm
  obtain ⟨-, i', args, hi', hs', -⟩ := hred.instr hsrc
  obtain rfl : Forwarding.withArgs i' args = i := by simpa [hs'] using hi
  have hch' : i'.isChoice = true := by
    simpa [Instr.isChoice, Forwarding.withArgs_op?] using hch
  exact hfwd.unresolved hwf hlen hi' hch' (hess.fixed _ (List.getElem_mem hm)) (hsame hsrc ▸ hc)

/-- **Simplifying over a region is done once.** A valid tape is simplified over
a region where both operands of every resolved `min` and `max` have their
bounds in order. Simplified again over the same region, the result is the same
tape. -/
theorem simplifyOver_fixed (t : Tape) (region : Array Interval) (hvalid : t.validate = .ok ())
    (ht : t.size ≤ 2 ^ 32) (hvars : region.size = t.vars.size)
    (hord : t.ResolvesInOrder region) :
    ∃ s cs cs', t.simplifyOver region = .ok (s, cs) ∧ s.simplifyOver region = .ok (s, cs') := by
  obtain ⟨-, hwf⟩ := validate_eq_ok.1 hvalid
  obtain ⟨s, cs, _, cs', hs, hswf, hsize, hused, hcs', hlen, hun⟩ :=
    hwf.simplifyOver_unresolved ht hvars hord
  have hself := hswf.simplify_self (hsize.trans ht) hlen hused hun
  exact ⟨s, cs, cs', hs, by simp only [simplifyOver, hcs', hself]⟩

/-- `min (max x (min (1 / y + ∞) 5)) (-1)`. -/
def boundedMax : Tape where
  instrs := #[{ code := Op.input.code, var := 0 }, { code := Op.input.code, var := 1 },
    { code := UnaryOp.recip.code, left := 1 }, { code := Op.const.code, imm := .infinity false },
    { code := BinaryOp.add.code, left := 2, right := 3 }, { code := Op.const.code, imm := .ofInt 5 },
    { code := BinaryOp.min.code, left := 4, right := 5 },
    { code := BinaryOp.max.code, left := 0, right := 6 },
    { code := Op.const.code, imm := .ofInt (-1) },
    { code := BinaryOp.min.code, left := 7, right := 8 }]
  outputs := #[9]
  vars := #[utf8 "x", utf8 "y"]

/-- For `x` from 6 to 7 and `y` from 1 to 2 all choices are resolved at once,
and -1 is left. -/
theorem simplifyOver_fixed_boundedMax :
    (∃ s cs cs', boundedMax.simplifyOver #[⟨.ofInt 6, .ofInt 7⟩, ⟨.ofInt 1, .ofInt 2⟩] =
        .ok (s, cs) ∧
      s.simplifyOver #[⟨.ofInt 6, .ofInt 7⟩, ⟨.ofInt 1, .ofInt 2⟩] = .ok (s, cs')) ∧
    (boundedMax.simplifyOver #[⟨.ofInt 6, .ofInt 7⟩, ⟨.ofInt 1, .ofInt 2⟩]).toOption.map
      (·.1.size) = some 1 :=
  ⟨simplifyOver_fixed boundedMax _ (by decide +kernel) (by decide +kernel) (by decide +kernel)
    (resolvesInOrder_of_le (by decide +kernel)), by decide +kernel⟩

/-- The greater of `y` and the remainder of `x` by 0.1, the latter at most
0.06. -/
def greaterRemainder : Tape where
  instrs := #[{ code := Op.input.code, var := 0 }, { code := Op.const.code, imm := hundredths 10 },
    { code := BinaryOp.mod.code, left := 0, right := 1 },
    { code := Op.const.code, imm := hundredths 6 },
    { code := BinaryOp.min.code, left := 2, right := 3 }, { code := Op.input.code, var := 1 },
    { code := BinaryOp.max.code, left := 4, right := 5 }]
  outputs := #[6]
  vars := #[utf8 "x", utf8 "y"]

/-- Both orders are needed. With `y` from -1 to 1 the sum has a NaN bound; the
`max` is resolved to `x`, though its own lower bound is NaN, which leaves the
outer `min` to a second pass. With `x` from 0.9 to 0.95 the remainder has its
bounds inverted; the `min` is resolved to it, though its own bounds are not,
which leaves the `max` to a second pass. -/
theorem simplifyOver_not_fixed :
    (boundedMax.validate = .ok () ∧
      (∀ a ∈ #[(⟨.ofInt 6, .ofInt 7⟩ : Interval), ⟨.ofInt (-1), .ofInt 1⟩],
        a.lo.le a.hi = true) ∧
      (boundedMax.simplifyOver #[⟨.ofInt 6, .ofInt 7⟩, ⟨.ofInt (-1), .ofInt 1⟩]).toOption.map
          (fun r => (r.1.size, (r.1.simplifyOver
            #[⟨.ofInt 6, .ofInt 7⟩, ⟨.ofInt (-1), .ofInt 1⟩]).toOption.map (·.1.size))) =
        some (3, some 1)) ∧
    (greaterRemainder.validate = .ok () ∧
      (∀ a ∈ #[(⟨hundredths 90, hundredths 95⟩ : Interval), ⟨hundredths 4, hundredths 7⟩],
        a.lo.le a.hi = true) ∧
      (greaterRemainder.simplifyOver
          #[⟨hundredths 90, hundredths 95⟩, ⟨hundredths 4, hundredths 7⟩]).toOption.map
          (fun r => (r.1.size, (r.1.simplifyOver
            #[⟨hundredths 90, hundredths 95⟩, ⟨hundredths 4, hundredths 7⟩]).toOption.map
              (·.1.size))) =
        some (5, some 3)) := by
  refine ⟨⟨?_, ?_, ?_⟩, ?_, ?_, ?_⟩
  all_goals decide +kernel

end Tape

end ScalarField
