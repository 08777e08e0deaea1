/-
The pressure of a tape is the greatest number of slots that are live at one
position (`Tape.pressure_eq`), and allocation spills exactly as much as it
exceeds the registers (`Assignment.allocate_spills`).

The pressure is found from differences: one more where a range starts, one less
behind its end. Their sum up to a position is the number of ranges that contain
it, so the greatest of the sums is the pressure. That the cells make up for the
difference is counted in the scan (`Assignment.Scan.Exact`).
-/
import ScalarField.Proofs.Tape.Occupancy

namespace ScalarField

/-- Whether a range contains a position. -/
def LiveRange.contains (r : LiveRange) (pos : Nat) : Bool :=
  r.first ≤ (pos : Int) && (pos : Int) ≤ r.last

namespace Tape

/-- The number of slots whose live range contains a position. -/
def liveAt (rs : Array LiveRange) (pos : Nat) : Nat := rs.countP (·.contains pos)

/-! ## Differences -/

/-- The sum of the first `n` differences. -/
def total (delta : Array Int) : Nat → Int
  | 0 => 0
  | n + 1 => total delta n + delta.getD n 0

theorem total_replicate (size : Nat) : ∀ n, total (Array.replicate size 0) n = 0
  | 0 => rfl
  | n + 1 => by
    rw [total, total_replicate size n, Array.getD_eq_getD_getElem?, Array.getElem?_replicate]
    split <;> rfl

theorem size_bump (step : Int) (delta : Array Int) (pos : Int) :
    (bump step delta pos).size = delta.size := Array.size_modify

theorem total_bump {step : Int} {delta : Array Int} {pos : Int} (hpos : pos.toNat < delta.size) :
    ∀ n : Nat, total (bump step delta pos) n = total delta n + if pos.toNat < n then step else 0
  | 0 => by simp [total]
  | n + 1 => by
    have hget : (bump step delta pos).getD n 0 =
        delta.getD n 0 + if pos.toNat = n then step else 0 := by
      rw [bump, Array.getD_eq_getD_getElem?, Array.getD_eq_getD_getElem?, Array.getElem?_modify]
      split
      · rename_i heq
        subst heq
        simp [hpos]
      · rw [Int.add_zero]
    rw [total, total, total_bump hpos n, hget]
    split_ifs <;> omega

theorem total_enter {delta : Array Int} {r : LiveRange} (hfirst : 0 ≤ r.first)
    (hle : r.first ≤ r.last) (hlast : r.last + 1 < delta.size) (pos : Nat) :
    total (bump (-1) (bump 1 delta r.first) (r.last + 1)) (pos + 1) =
      total delta (pos + 1) + if r.contains pos then 1 else 0 := by
  rw [total_bump (by rw [size_bump]; omega), total_bump (by omega)]
  simp only [LiveRange.contains, Bool.and_eq_true, decide_eq_true_eq]
  split_ifs <;> omega

/-- Once ranges are entered, the sum up to a position counts those that contain
it. -/
theorem total_foldl (pos : Nat) : ∀ (rs : List LiveRange) (delta : Array Int),
    (∀ r ∈ rs, 0 ≤ r.first ∧ r.first ≤ r.last ∧ r.last + 1 < delta.size) →
    total (rs.foldl (fun d r => bump (-1) (bump 1 d r.first) (r.last + 1)) delta) (pos + 1) =
      total delta (pos + 1) + (rs.countP (·.contains pos) : Nat)
  | [], delta, _ => by simp
  | r :: rs, delta, h => by
    obtain ⟨hfirst, hle, hlast⟩ := h r List.mem_cons_self
    rw [List.foldl_cons, total_foldl pos rs _ fun q hq => by
      simpa only [size_bump] using h q (List.mem_cons_of_mem r hq),
      total_enter hfirst hle hlast, List.countP_cons]
    split <;> omega

theorem size_foldl : ∀ (rs : List LiveRange) (delta : Array Int),
    (rs.foldl (fun d r => bump (-1) (bump 1 d r.first) (r.last + 1)) delta).size = delta.size
  | [], _ => rfl
  | r :: rs, delta => by rw [List.foldl_cons, size_foldl rs, size_bump, size_bump]

/-- The greatest of the sums, where these are known. -/
theorem peakFrom_eq {delta : Array Int} {live : Nat → Nat}
    (h : ∀ pos < delta.size, total delta (pos + 1) = live pos) :
    ∀ {ds : List Int} {n : Nat}, delta.toList.drop n = ds → n ≤ delta.size →
      peakFrom (total delta n) ((Finset.range n).sup live : Nat) ds =
        ((Finset.range delta.size).sup live : Nat)
  | [], n, hd, hn => by
    obtain rfl : n = delta.size := Nat.le_antisymm hn (by simpa using hd)
    rfl
  | d :: ds, n, hd, hn => by
    obtain ⟨hget, hd'⟩ := of_drop_eq_cons hd
    have hlt : n < delta.size := (Array.getElem?_eq_some_iff.1 hget).1
    have hsum : total delta n + d = total delta (n + 1) := by
      rw [total, Array.getD_eq_getD_getElem?, hget, Option.getD_some]
    have hsup : (Finset.range (n + 1)).sup live = max (live n) ((Finset.range n).sup live) := by
      rw [Finset.range_add_one, Finset.sup_insert]
    have hmax : max (((Finset.range n).sup live : Nat) : Int) (total delta (n + 1)) =
        ((Finset.range (n + 1)).sup live : Nat) := by
      rw [h n hlt, hsup]
      omega
    rw [peakFrom, hsum, hmax]
    exact peakFrom_eq h hd' hlt

/-! ## Pressure -/

variable {t : Tape} {rs : Array LiveRange}

/-- No position has more live slots than one of the tape: what is live from the
end on is live at the last instruction. -/
theorem LastUses.liveAt_le (h : t.LastUses rs) (pos : Nat) :
    liveAt rs pos ≤ (Finset.range t.size).sup (liveAt rs) := by
  by_cases hpos : pos < t.size
  · exact Finset.le_sup (f := liveAt rs) (Finset.mem_range.2 hpos)
  · by_cases hzero : t.size = 0
    · have hempty : rs = #[] := Array.eq_empty_of_size_eq_zero (h.size.trans hzero)
      simp [liveAt, hempty]
    · have hlast : t.size - 1 < t.size := by omega
      refine Nat.le_trans ?_ (Finset.le_sup (f := liveAt rs) (Finset.mem_range.2 hlast))
      refine Array.countP_mono_left fun r hr hin => ?_
      obtain ⟨k, hk, rfl⟩ := Array.mem_iff_getElem.1 hr
      have := Assignment.lastOf_eq h (Array.getElem?_eq_getElem hk)
      have hsize := h.size
      simp only [LiveRange.contains, Bool.and_eq_true, decide_eq_true_eq] at hin ⊢
      omega

/-- The pressure of a tape is the greatest number of slots that are live at one
of its positions. -/
theorem LastUses.pressure_eq (h : t.LastUses rs) (hrs : t.liveRanges = .ok rs) :
    t.pressure = .ok ((Finset.range t.size).sup (liveAt rs) : Nat) := by
  let enter : Array Int → LiveRange → Array Int :=
    fun d r => bump (-1) (bump 1 d r.first) (r.last + 1)
  let delta := rs.foldl enter (Array.replicate (t.size + 2) 0)
  have hdelta : delta = rs.toList.foldl enter (Array.replicate (t.size + 2) 0) :=
    (Array.foldl_toList enter).symm
  have hsize : delta.size = t.size + 2 := by rw [hdelta, size_foldl, Array.size_replicate]
  have htotal : ∀ pos < delta.size, total delta (pos + 1) = liveAt rs pos := by
    intro pos _
    have hsum := total_foldl pos rs.toList (Array.replicate (t.size + 2) 0) fun r hr => by
      obtain ⟨k, hk, rfl⟩ := Array.mem_iff_getElem.1 (Array.mem_toList_iff.1 hr)
      have := Assignment.lastOf_eq h (Array.getElem?_eq_getElem hk)
      rw [Array.size_replicate]
      omega
    rw [total_replicate, Int.zero_add, Array.countP_toList] at hsum
    rw [hdelta]
    exact hsum
  have hpeak := peakFrom_eq htotal (n := 0) rfl (Nat.zero_le _)
  have hsup : (Finset.range delta.size).sup (liveAt rs) = (Finset.range t.size).sup (liveAt rs) :=
    Nat.le_antisymm (Finset.sup_le fun pos _ => h.liveAt_le pos)
      (Finset.sup_mono (Finset.range_mono (by omega)))
  simp only [pressure, hrs]
  rw [← hsup]
  exact congrArg Except.ok hpeak

end Tape

namespace Assignment

variable {t : Tape} {rs : Array LiveRange}

/-- The slots that the scan finds live at a position are those whose live range
contains it. -/
theorem card_liveSlots (h : t.LastUses rs) {pos : Nat} (hpos : pos < t.size) :
    (Scan.liveSlots (lastOf rs) pos).card = Tape.liveAt rs pos := by
  have hrange : rs.toList.map some = (List.range rs.size).map (rs[·]?) := by
    refine List.ext_getElem? fun k => ?_
    by_cases hk : k < rs.size <;> simp [hk]
  have hcount : Tape.liveAt rs pos =
      (List.range rs.size).countP fun k => (rs[k]?).any (·.contains pos) := by
    have := congrArg (List.countP (Option.any (·.contains pos))) hrange
    simpa [List.countP_map, Function.comp_def, Tape.liveAt] using this
  have hcard : ((List.range rs.size).countP fun k => (rs[k]?).any (·.contains pos)) =
      ({k ∈ Finset.range rs.size | (rs[k]?).any (·.contains pos) = true}).card := by
    simp [Finset.card, Multiset.range, List.countP_eq_length_filter]
  rw [hcount, hcard]
  refine congrArg Finset.card (Finset.ext fun k => ?_)
  rw [Scan.liveSlots, Finset.mem_filter, Finset.mem_filter, Finset.mem_range, Finset.mem_range]
  have hsize := h.size
  by_cases hk : k < rs.size
  · have := lastOf_eq h (Array.getElem?_eq_getElem hk)
    simp only [Array.getElem?_eq_getElem hk, Option.any_some, LiveRange.contains, Bool.and_eq_true,
      decide_eq_true_eq]
    omega
  · omega

/-- **Allocation spills exactly as much as the pressure forces.** The pressure
of a valid tape is the greatest number of slots whose live range contains one
of its positions; no position contains more. Allocated to any number of
registers from 1 to 64, the tape takes as many spill cells as the pressure
exceeds the registers, and none if it does not. -/
theorem allocate_spills (t : Tape) (regs : Int) (hvalid : t.validate = .ok ()) (hregs : 1 ≤ regs)
    (hmax : regs ≤ 64) :
    ∃ rs a, ∃ p : Nat, t.liveRanges = .ok rs ∧ t.pressure = .ok p ∧ allocate t regs = .ok a ∧
      p = (Finset.range t.size).sup (Tape.liveAt rs) ∧ (∀ pos, Tape.liveAt rs pos ≤ p) ∧
      a.spills = max 0 ((p : Int) - regs) := by
  obtain ⟨-, hwf⟩ := Tape.validate_eq_ok.1 hvalid
  obtain ⟨rs, hrs, huses⟩ := hwf.liveRanges_eq
  refine ⟨rs, _, _, hrs, huses.pressure_eq hrs, allocate_eq hregs hmax hrs, rfl, huses.liveAt_le, ?_⟩
  have hused : (Scan.done t regs rs).cells.used =
      (Finset.range t.size).sup fun pos => Tape.liveAt rs pos - regs.toNat := by
    rw [(Scan.done_exact hmax huses).used]
    refine Finset.sup_congr rfl fun pos hpos => ?_
    rw [card_liveSlots huses (Finset.mem_range.1 hpos)]
  have hsub : (Finset.range t.size).sup (Tape.liveAt rs) - regs.toNat =
      (Finset.range t.size).sup fun pos => Tape.liveAt rs pos - regs.toNat :=
    Finset.apply_sup_eq_sup_comp_of_linearOrder (· - regs.toNat)
      (fun _ _ h => Nat.sub_le_sub_right h _) (Nat.zero_sub _)
  simp only [hused, ← hsub]
  omega

/-- With two registers, two of the four values that are live at the sum are
spilled. -/
theorem allocate_spills_differenceOfSquares :
    differenceOfSquares.pressure.toOption = some 4 ∧
      ∃ rs a, ∃ p : Nat, differenceOfSquares.liveRanges = .ok rs ∧
        differenceOfSquares.pressure = .ok p ∧ allocate differenceOfSquares 2 = .ok a ∧
        p = (Finset.range differenceOfSquares.size).sup (Tape.liveAt rs) ∧
        (∀ pos, Tape.liveAt rs pos ≤ p) ∧ a.spills = max 0 ((p : Int) - 2) :=
  ⟨by decide +kernel,
    allocate_spills differenceOfSquares 2 (by decide +kernel) (by decide) (by decide)⟩

end Assignment

end ScalarField
