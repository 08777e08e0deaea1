/-
Live ranges, pressure and allocation with every access checked.

The tables of a scan have their sizes from the start; here each look at one of
them and each entry made in one is a fault if it is out of range, also those
that `Tape.liveRanges`, `Tape.pressure`, `Assignment.allocate` and
`Assignment.validate` make without asking. Slots are listed by 32-bit numbers
and locations are kept in words, so that both wrap around on a tape that is long
enough. On a valid tape of any length no access is out of range
(`Assignment.allocateChecked_eq`), and what is found is what the
functions without checks find as long as nothing wraps around.
-/
import ScalarField.Proofs.Heap.Priority
import ScalarField.Proofs.Tape.Pressure
import ScalarField.Proofs.Tape.Registers
import ScalarField.Proofs.Tape.Reuse

namespace ScalarField

/-! ## Tables -/

theorem ok_bind {ε α β : Type} (x : α) (f : α → Except ε β) : (Except.ok x >>= f) = f x := rfl

theorem bind_eq_ok {ε α β : Type} {x : Except ε α} {f : α → Except ε β} {y : β} :
    (x >>= f) = .ok y ↔ ∃ a, x = .ok a ∧ f a = .ok y := by
  cases x with
  | error e =>
    constructor
    · intro h
      cases h
    · rintro ⟨a, ha, -⟩
      cases ha
  | ok a =>
    constructor
    · exact fun h => ⟨a, rfl, h⟩
    · rintro ⟨b, hb, h⟩
      obtain rfl := Except.ok.inj hb
      exact h

theorem lookup_of_lt {α : Type} {table : Array α} {i : Nat} (hi : i < table.size) :
    lookup table i = .ok table[i] := lookup_eq_ok.2 (Array.getElem?_eq_getElem hi)

theorem of_update_eq_ok {α : Type} {table table' : Array α} {i : Nat} {x : α}
    (h : update table i x = .ok table') : i < table.size ∧ table' = table.setIfInBounds i x := by
  unfold update at h
  split at h
  · exact ⟨‹_›, (Except.ok.inj h).symm⟩
  · cases h

theorem getElem?_setIfInBounds_cases {α : Type} {table : Array α} {i k : Nat} {x y : α}
    (h : (table.setIfInBounds i x)[k]? = some y) : y = x ∨ table[k]? = some y := by
  by_cases hk : i = k
  · subst hk
    have hi : i < table.size := by simpa using (Array.getElem?_eq_some_iff.1 h).1
    rw [Array.getElem?_setIfInBounds_self_of_lt hi] at h
    exact .inl (Option.some.inj h).symm
  · rw [Array.getElem?_setIfInBounds_ne hk] at h
    exact .inr h

/-- A table that has its size from the start, next to one that grows to `n`
entries. -/
structure Filled {α : Type} (n : Nat) (table grown : Array α) : Prop where
  size : grown.size = n
  get : ∀ k < n, table[k]? = grown[k]?

theorem filled_empty {α : Type} (table : Array α) : Filled 0 table #[] := ⟨rfl, by simp⟩

theorem Filled.push {α : Type} {n : Nat} {table grown : Array α} (h : Filled n table grown)
    (hn : n < table.size) (x : α) : Filled (n + 1) (table.setIfInBounds n x) (grown.push x) := by
  refine ⟨by rw [Array.size_push, h.size], fun k hk => ?_⟩
  rcases Nat.lt_succ_iff_lt_or_eq.1 hk with hlt | rfl
  · have hks : k < grown.size := h.size.symm ▸ hlt
    rw [Array.getElem?_setIfInBounds_ne (Nat.ne_of_gt hlt), h.get k hlt,
      Array.getElem?_push_lt hks, Array.getElem?_eq_getElem hks]
  · rw [Array.getElem?_setIfInBounds_self_of_lt hn, ← h.size, Array.getElem?_push_size]

theorem Filled.eq {α : Type} {n : Nat} {table grown : Array α} (h : Filled n table grown)
    (hn : table.size = n) : table = grown := by
  refine Array.ext (hn.trans h.size.symm) fun k hk hk' => ?_
  have hget := h.get k (hn ▸ hk)
  rwa [Array.getElem?_eq_getElem hk, Array.getElem?_eq_getElem hk', Option.some.injEq] at hget

/-- An index that may be negative. -/
def position (i : Int) : Except Fault Nat := if i < 0 then .error .range else .ok i.toNat

theorem position_eq_ok {i : Int} (hi : 0 ≤ i) : position i = .ok i.toNat :=
  if_neg (Int.not_lt.2 hi)

/-- The number of a slot as it is listed, in 32 bits. -/
def slotWord (n : Nat) : Nat := (UInt32.ofNat n).toNat

theorem slotWord_le (n : Nat) : slotWord n ≤ n := by
  rw [slotWord, UInt32.toNat_ofNat']
  exact Nat.mod_le _ _

theorem slotWord_eq {n : Nat} (h : n < UInt32.size) : slotWord n = n := UInt32.toNat_ofNat_of_lt' h

/-! ## Live ranges -/

namespace Tape

/-- Enters the instructions that start at `pos`. -/
def rangesChecked (rs : Array LiveRange) : Nat → List Instr → Except Fault (Array LiveRange)
  | _, [] => pure rs
  | pos, i :: rest => do
    let rs ← update rs pos ⟨pos, pos⟩
    let rs ← extendRanges pos rs i.args
    rangesChecked rs (pos + 1) rest

/-- The live range of every slot. -/
def liveRangesChecked (t : Tape) : Except Fault (Array LiveRange) := do
  let rs ← rangesChecked (Array.replicate t.size ⟨0, 0⟩) 0 t.instrs.toList
  extendRanges t.size rs t.outputs.toList

theorem extendRanges_size {pos : Nat} : ∀ {slots : List Nat} {rs rs' : Array LiveRange},
    extendRanges pos rs slots = .ok rs' → rs'.size = rs.size
  | [], rs, rs', h => by
    obtain rfl : rs = rs' := Except.ok.inj h
    rfl
  | s :: rest, rs, rs', h => by
    unfold extendRanges at h
    split at h
    · cases h
    · simpa using extendRanges_size h

theorem rangesFrom_size : ∀ {is : List Instr} {rs rs' : Array LiveRange} {pos : Nat},
    rangesFrom rs pos is = .ok rs' → rs'.size = rs.size
  | [], rs, rs', _, h => by
    obtain rfl : rs = rs' := Except.ok.inj h
    rfl
  | i :: rest, rs, rs', pos, h => by
    unfold rangesFrom at h
    split at h
    · cases h
    · rename_i rs₁ hext
      rw [rangesFrom_size h, extendRanges_size hext, Array.size_setIfInBounds]

theorem liveRanges_size {t : Tape} {rs : Array LiveRange} (h : t.liveRanges = .ok rs) :
    rs.size = t.size := by
  unfold liveRanges at h
  split at h
  · cases h
  · rename_i rs₁ hrs₁
    rw [extendRanges_size h, rangesFrom_size hrs₁, Array.size_replicate]

theorem rangesChecked_eq : ∀ {is : List Instr} {rs : Array LiveRange} {pos : Nat},
    pos + is.length ≤ rs.size → rangesChecked rs pos is = rangesFrom rs pos is
  | [], _, _, _ => rfl
  | i :: rest, rs, pos, h => by
    rw [List.length_cons] at h
    rw [rangesChecked, rangesFrom, update_eq_ok (by omega), ok_bind]
    cases hext : extendRanges pos (rs.setIfInBounds pos ⟨pos, pos⟩) i.args with
    | error e => rfl
    | ok rs' =>
      have hsize : rs'.size = rs.size := by simpa using extendRanges_size hext
      exact rangesChecked_eq (by omega)

/-- Finding live ranges enters nothing out of range, whatever the tape is. -/
theorem liveRangesChecked_eq (t : Tape) : t.liveRangesChecked = t.liveRanges := by
  rw [liveRangesChecked, liveRanges, rangesChecked_eq (by simp [Tape.size])]
  cases rangesFrom (Array.replicate t.size ⟨0, 0⟩) 0 t.instrs.toList <;> rfl

/-! ## Pressure -/

/-- Adds `step` at a position. -/
def bumpChecked (step : Int) (delta : Array Int) (pos : Int) : Except Fault (Array Int) := do
  let i ← position pos
  let d ← lookup delta i
  update delta i (d + step)

/-- Enters where ranges start and end. -/
def deltasChecked (delta : Array Int) : List LiveRange → Except Fault (Array Int)
  | [] => pure delta
  | r :: rest => do
    let delta ← bumpChecked 1 delta r.first
    let delta ← bumpChecked (-1) delta (r.last + 1)
    deltasChecked delta rest

/-- The greatest number of slots that are live at one position. -/
def pressureChecked (t : Tape) : Except Fault Int := do
  let rs ← t.liveRangesChecked
  let delta ← deltasChecked (Array.replicate (t.size + 2) 0) rs.toList
  pure (peakFrom 0 0 delta.toList)

theorem bumpChecked_eq {step : Int} {delta : Array Int} {pos : Int} (h0 : 0 ≤ pos)
    (hpos : pos.toNat < delta.size) : bumpChecked step delta pos = .ok (bump step delta pos) := by
  have hset : delta.setIfInBounds pos.toNat (delta[pos.toNat] + step) = bump step delta pos := by
    refine Array.ext_getElem? fun k => ?_
    rw [bump, Array.getElem?_modify]
    by_cases hk : pos.toNat = k
    · subst hk
      rw [if_pos rfl, Array.getElem?_setIfInBounds_self_of_lt hpos, Array.getElem?_eq_getElem hpos]
      rfl
    · rw [if_neg hk, Array.getElem?_setIfInBounds_ne hk]
  rw [bumpChecked, position_eq_ok h0, ok_bind, lookup_of_lt hpos, ok_bind, update_eq_ok hpos, hset]

theorem deltasChecked_eq : ∀ {rs : List LiveRange} {delta : Array Int},
    (∀ r ∈ rs, 0 ≤ r.first ∧ r.first < delta.size ∧ 0 ≤ r.last + 1 ∧ r.last + 1 < delta.size) →
    deltasChecked delta rs =
      .ok (rs.foldl (fun d r => bump (-1) (bump 1 d r.first) (r.last + 1)) delta)
  | [], _, _ => rfl
  | r :: rest, delta, h => by
    obtain ⟨⟨hfirst, hfirst', hlast, hlast'⟩, hrest⟩ := List.forall_mem_cons.1 h
    rw [deltasChecked, bumpChecked_eq hfirst (by omega), ok_bind,
      bumpChecked_eq hlast (by rw [size_bump]; omega), ok_bind, List.foldl_cons]
    exact deltasChecked_eq (by simpa only [size_bump] using hrest)

/-- The ranges of a valid tape lie within the table of pressures. -/
theorem WellFormed.pressureChecked_eq {t : Tape} (hwf : t.WellFormed) :
    t.pressureChecked = t.pressure := by
  obtain ⟨rs, hrs, huses⟩ := hwf.liveRanges_eq
  have hbounds : ∀ r ∈ rs.toList, 0 ≤ r.first ∧ r.first < (t.size + 2 : Nat) ∧ 0 ≤ r.last + 1 ∧
      r.last + 1 < (t.size + 2 : Nat) := by
    intro r hr
    obtain ⟨k, hk⟩ := List.mem_iff_getElem?.1 hr
    have := Assignment.lastOf_eq huses (by simpa using hk)
    omega
  rw [pressureChecked, pressure, liveRangesChecked_eq, hrs, ok_bind,
    deltasChecked_eq (by simpa using hbounds), ok_bind, Array.foldl_toList]
  rfl

end Tape

/-! ## Allocation -/

/-- A location as it is kept, in one word. -/
def Loc.kept (l : Loc) : Loc := ofWord l.word

namespace Assignment

/-- The lowest free cell, or a new one; nothing is popped from an empty heap. -/
def Cells.takeChecked (c : Cells) : Except Fault (Nat × Cells) :=
  if 0 < c.free.size then
    match c.free.pop? with
    | some (n, free) => .ok (n, { c with free })
    | none => .error .range
  else .ok (c.used, { c with used := c.used + 1 })

theorem Cells.takeChecked_eq (c : Cells) : c.takeChecked = .ok c.take := by
  unfold takeChecked take
  by_cases hpos : 0 < c.free.size
  · obtain ⟨n, free, hpop⟩ := Heap.exists_pop? hpos
    simp only [if_pos hpos, hpop]
  · cases hpop : c.free.pop? with
    | none => simp only [if_neg hpos]
    | some r =>
      have := Heap.size_of_pop? hpop
      omega

namespace Scan

/-- Frees the location of a slot. -/
def releaseChecked (s : Scan) (slot : Nat) : Except Fault Scan := do
  match ← lookup s.locs slot with
  | .reg n => pure { s with free := s.free.insert n }
  | .spill n => pure { s with cells := s.cells.release n }

/-- Frees the locations of slots. -/
def releaseAllChecked (s : Scan) : List Nat → Except Fault Scan
  | [] => pure s
  | slot :: rest => do
    let s ← s.releaseChecked slot
    s.releaseAllChecked rest

/-- Frees the locations of the slots last used before `pos`. -/
def expireChecked (s : Scan) (pos : Nat) : Except Fault Scan :=
  if pos = 0 then pure s
  else do
    let slots ← lookup s.expiring (pos - 1)
    s.releaseAllChecked slots

/-- Gives slot `pos` a location. -/
def assignChecked (s : Scan) (pos : Nat) : Except Fault Scan :=
  match s.free.lowest? with
  | some n => do
    let locs ← update s.locs pos (Loc.reg n).kept
    pure { s with free := s.free.erase n, locs }
  | none => do
    let (n, cells) ← s.cells.takeChecked
    let locs ← update s.locs pos (Loc.spill n).kept
    pure { s with cells, locs }

/-- Lists slot `pos` by its last use. -/
def listChecked (s : Scan) (rs : Array LiveRange) (pos : Nat) : Except Fault Scan := do
  let r ← lookup rs pos
  let last ← position r.last
  let slots ← lookup s.expiring last
  let expiring ← update s.expiring last (slots ++ [slotWord pos])
  pure { s with expiring }

/-- Handles the definition of slot `pos`. -/
def defineChecked (s : Scan) (rs : Array LiveRange) (pos : Nat) : Except Fault Scan := do
  let s ← s.expireChecked pos
  let s ← s.assignChecked pos
  s.listChecked rs pos

/-- Handles so many definitions from slot `pos` on. -/
def runChecked (s : Scan) (rs : Array LiveRange) : Nat → Nat → Except Fault Scan
  | 0, _ => pure s
  | n + 1, pos => do
    let s ← s.defineChecked rs pos
    s.runChecked rs n (pos + 1)

/-- The scan before the first definition, with room for every slot. -/
def startChecked (regs size : Nat) : Scan :=
  { start regs size with locs := Array.replicate size (.reg 0) }

end Scan

/-- Assigns the slots of a tape to `regs` registers. -/
def allocateChecked (t : Tape) (regs : Int) : Except TapeError Assignment :=
  if regs < 1 ∨ maxRegs < regs then .error (.registerCount regs)
  else
    match t.liveRangesChecked >>= ((Scan.startChecked regs.toNat t.size).runChecked · t.size 0) with
    | .error e => .error (.fault e)
    | .ok s => .ok { regs, locs := s.locs, spills := s.cells.used }

/-! ### Bounds -/

namespace Scan

variable {n pos : Nat} {c c' s : Scan} {rs : Array LiveRange}

/-- The tables have room for `n` slots, and only such slots are listed. -/
structure Roomy (n : Nat) (s : Scan) : Prop where
  locs : s.locs.size = n
  expiring : s.expiring.size = n + 1
  listed : ∀ {p : Nat} {slots : List Nat}, s.expiring[p]? = some slots → ∀ k ∈ slots, k < n

theorem Roomy.release (h : s.Roomy n) {slot : Nat} (hslot : slot < n) :
    ∃ s', s.releaseChecked slot = .ok s' ∧ s'.Roomy n := by
  rw [releaseChecked, lookup_of_lt (h.locs.symm ▸ hslot), ok_bind]
  split
  · exact ⟨_, rfl, { h with }⟩
  · exact ⟨_, rfl, { h with }⟩

theorem Roomy.releaseAll : ∀ {slots : List Nat} {s : Scan}, s.Roomy n → (∀ k ∈ slots, k < n) →
    ∃ s', s.releaseAllChecked slots = .ok s' ∧ s'.Roomy n
  | [], s, h, _ => ⟨s, rfl, h⟩
  | slot :: rest, s, h, hslots => by
    obtain ⟨hslot, hrest⟩ := List.forall_mem_cons.1 hslots
    obtain ⟨s₁, hs₁, h₁⟩ := h.release hslot
    rw [releaseAllChecked, hs₁, ok_bind]
    exact h₁.releaseAll hrest

theorem Roomy.expire (h : s.Roomy n) (hpos : pos < n) :
    ∃ s', s.expireChecked pos = .ok s' ∧ s'.Roomy n := by
  unfold expireChecked
  split
  · exact ⟨s, rfl, h⟩
  · have hlt : pos - 1 < s.expiring.size := by rw [h.expiring]; omega
    rw [lookup_of_lt hlt, ok_bind]
    exact h.releaseAll (h.listed (Array.getElem?_eq_getElem hlt))

theorem Roomy.assign (h : s.Roomy n) (hpos : pos < n) :
    ∃ s', s.assignChecked pos = .ok s' ∧ s'.Roomy n := by
  have hlocs : pos < s.locs.size := h.locs.symm ▸ hpos
  unfold assignChecked
  split
  · rw [update_eq_ok hlocs, ok_bind]
    exact ⟨_, rfl, { h with locs := by simpa using h.locs }⟩
  · rw [Cells.takeChecked_eq, ok_bind]
    simp only [update_eq_ok hlocs, ok_bind]
    exact ⟨_, rfl, { h with locs := by simpa using h.locs }⟩

theorem Roomy.list (h : s.Roomy n) {r : LiveRange} (hr : rs[pos]? = some r) (hpos : pos < n)
    (h0 : 0 ≤ r.last) (hn : r.last ≤ n) : ∃ s', s.listChecked rs pos = .ok s' ∧ s'.Roomy n := by
  have hlast : r.last.toNat < s.expiring.size := by rw [h.expiring]; omega
  rw [listChecked, lookup_eq_ok.2 hr, ok_bind, position_eq_ok h0, ok_bind, lookup_of_lt hlast,
    ok_bind, update_eq_ok hlast, ok_bind]
  refine ⟨_, rfl, h.locs, by simpa using h.expiring, fun {p slots} hslots k hk => ?_⟩
  rcases getElem?_setIfInBounds_cases hslots with rfl | hslots
  · rcases List.mem_append.1 hk with hk | hk
    · exact h.listed (Array.getElem?_eq_getElem hlast) k hk
    · rw [List.mem_singleton.1 hk]
      exact Nat.lt_of_le_of_lt (slotWord_le pos) hpos
  · exact h.listed hslots k hk

/-- Handling a definition finds everything in range. -/
theorem Roomy.define (h : s.Roomy n) {r : LiveRange} (hr : rs[pos]? = some r) (hpos : pos < n)
    (h0 : 0 ≤ r.last) (hn : r.last ≤ n) : ∃ s', s.defineChecked rs pos = .ok s' ∧ s'.Roomy n := by
  obtain ⟨s₁, hs₁, h₁⟩ := h.expire hpos
  obtain ⟨s₂, hs₂, h₂⟩ := h₁.assign hpos
  rw [defineChecked, hs₁, ok_bind, hs₂, ok_bind]
  exact h₂.list hr hpos h0 hn

theorem Roomy.run (hrs : ∀ k < n, ∃ r, rs[k]? = some r ∧ 0 ≤ r.last ∧ r.last ≤ n) :
    ∀ {m : Nat} {s : Scan} {pos : Nat}, s.Roomy n → pos + m = n →
      ∃ s', s.runChecked rs m pos = .ok s' ∧ s'.Roomy n
  | 0, s, _, h, _ => ⟨s, rfl, h⟩
  | m + 1, s, pos, h, hn => by
    obtain ⟨r, hr, h0, hle⟩ := hrs pos (by omega)
    obtain ⟨s₁, hs₁, h₁⟩ := h.define hr (by omega) h0 hle
    rw [runChecked, hs₁, ok_bind]
    exact h₁.run hrs (by omega)

theorem startChecked_roomy (regs n : Nat) : (startChecked regs n).Roomy n := by
  refine ⟨by simp [startChecked], by simp [startChecked, start], fun {p slots} hslots k hk => ?_⟩
  simp only [startChecked, start, Array.getElem?_replicate] at hslots
  split at hslots
  · obtain rfl := Option.some.inj hslots
    cases hk
  · cases hslots

/-! ### What is found -/

/-- Where the checks have led, next to where the scan without checks is: only the
room for slots that have no location yet differs. -/
structure Follows (pos : Nat) (c s : Scan) : Prop where
  free : c.free = s.free
  cells : c.cells = s.cells
  expiring : c.expiring = s.expiring
  locs : Filled pos c.locs s.locs

theorem Follows.release (h : Follows pos c s) {slot : Nat} (hslot : slot < pos)
    (hc : c.releaseChecked slot = .ok c') : Follows pos c' (s.release slot) := by
  obtain ⟨l, hl, hc⟩ := bind_eq_ok.1 hc
  have hs : s.locs[slot]? = some l := (h.locs.get slot hslot).symm.trans (lookup_eq_ok.1 hl)
  unfold Scan.release
  cases l with
  | reg m =>
    obtain rfl := Except.ok.inj hc
    simp only [hs]
    exact { h with free := by rw [h.free] }
  | spill m =>
    obtain rfl := Except.ok.inj hc
    simp only [hs]
    exact { h with cells := by rw [h.cells] }

theorem Follows.releaseAll : ∀ {slots : List Nat} {c s : Scan}, Follows pos c s →
    (∀ k ∈ slots, k < pos) → c.releaseAllChecked slots = .ok c' →
      Follows pos c' (slots.foldl Scan.release s)
  | [], c, s, h, _, hc => by
    obtain rfl := Except.ok.inj hc
    exact h
  | slot :: rest, c, s, h, hslots, hc => by
    obtain ⟨hslot, hrest⟩ := List.forall_mem_cons.1 hslots
    obtain ⟨c₁, hc₁, hc⟩ := bind_eq_ok.1 hc
    exact (h.release hslot hc₁).releaseAll hrest hc

variable {regs size : Nat} {last : Nat → Nat}

theorem Follows.expire (h : Follows pos c s) (hb : s.Before regs size last pos) (hpos : pos ≤ size)
    (hc : c.expireChecked pos = .ok c') :
    Follows pos c' (if pos = 0 then s else s.expire (pos - 1)) := by
  unfold expireChecked at hc
  split at hc
  · obtain rfl := Except.ok.inj hc
    rwa [if_pos ‹_›]
  · rw [if_neg ‹_›]
    obtain ⟨slots, hslots, hc⟩ := bind_eq_ok.1 hc
    obtain ⟨slots', hslots', -, hmem⟩ := hb.expiring (pos - 1) (by omega)
    obtain rfl : slots = slots' := by simpa [h.expiring, hslots'] using (lookup_eq_ok.1 hslots).symm
    rw [Scan.expire, hslots', Option.getD_some]
    exact h.releaseAll (fun k hk => ((hmem k).1 hk).1) hc

/-- A location that fits in a word is kept as it is. -/
theorem Follows.push (h : Follows pos c s) {l : Loc} (hl : l.index < 2 ^ 31) {locs : Array Loc}
    (hlocs : update c.locs pos l.kept = .ok locs) (free : WordSet) (cells : Cells) :
    Follows (pos + 1) { c with free, cells, locs }
      { s with free, cells, locs := s.locs.push l } := by
  obtain ⟨hlt, rfl⟩ := of_update_eq_ok hlocs
  rw [Loc.kept, Loc.ofWord_word hl]
  exact ⟨rfl, rfl, h.expiring, h.locs.push hlt l⟩

theorem Follows.assign {held : Nat → Prop} (h : Follows pos c s) (hkeeps : s.Keeps regs held)
    (hused : s.cells.used ≤ pos) (hpos : pos < 2 ^ 31) (hc : c.assignChecked pos = .ok c') :
    Follows (pos + 1) c' s.assign := by
  have hcell : s.cells.take.1 ≤ pos := by
    unfold Cells.take
    split
    · rename_i n free hpop
      have hmem := (Heap.pop?_perm hpop).mem_iff.2 List.mem_cons_self
      exact Nat.le_trans (Nat.le_of_lt (hkeeps.cell_lt n hmem)) hused
    · exact hused
  rw [assignChecked, h.free, h.cells] at hc
  rw [Scan.assign]
  cases hlow : s.free.lowest? with
  | some n =>
    rw [hlow] at hc
    obtain ⟨locs, hlocs, hc⟩ := bind_eq_ok.1 hc
    obtain rfl := Except.ok.inj hc
    have hn : n < 64 := WordSet.has_lt (WordSet.lowest?_eq_some hlow).1
    rw [← h.cells]
    exact h.push (show (Loc.reg n).index < 2 ^ 31 from Nat.lt_trans hn (by decide)) hlocs _ _
  | none =>
    rw [hlow] at hc
    simp only [Cells.takeChecked_eq, ok_bind] at hc
    obtain ⟨locs, hlocs, hc⟩ := bind_eq_ok.1 hc
    obtain rfl := Except.ok.inj hc
    rw [← h.free]
    exact h.push (show (Loc.spill s.cells.take.1).index < 2 ^ 31 from
      Nat.lt_of_le_of_lt hcell hpos) hlocs _ _

theorem Follows.list (h : Follows (pos + 1) c s) {r : LiveRange} (hr : rs[pos]? = some r)
    (hpos : pos < UInt32.size) (hc : c.listChecked rs pos = .ok c') :
    Follows (pos + 1) c' { s with expiring := s.expiring.modify r.last.toNat (· ++ [pos]) } := by
  obtain ⟨r', hr', hc⟩ := bind_eq_ok.1 hc
  obtain rfl : r = r' := by simpa [hr] using lookup_eq_ok.1 hr'
  obtain ⟨last, hlast, hc⟩ := bind_eq_ok.1 hc
  obtain rfl : r.last.toNat = last := by
    unfold position at hlast
    split at hlast
    · cases hlast
    · exact Except.ok.inj hlast
  obtain ⟨slots, hslots, hc⟩ := bind_eq_ok.1 hc
  obtain ⟨expiring, hupdate, hc⟩ := bind_eq_ok.1 hc
  obtain rfl := Except.ok.inj hc
  obtain ⟨hlt, rfl⟩ := of_update_eq_ok hupdate
  refine { h with expiring := ?_ }
  rw [slotWord_eq hpos, ← h.expiring]
  refine Array.ext_getElem? fun k => ?_
  rw [Array.getElem?_modify]
  by_cases hk : r.last.toNat = k
  · subst hk
    rw [if_pos rfl, Array.getElem?_setIfInBounds_self_of_lt hlt, lookup_eq_ok.1 hslots]
    rfl
  · rw [if_neg hk, Array.getElem?_setIfInBounds_ne hk]

theorem Follows.define (h : Follows pos c s) (hb : s.Before regs size last pos)
    (hused : s.cells.used ≤ pos) (hpos : pos < 2 ^ 31) (hsize : pos ≤ size) {r : LiveRange}
    (hr : rs[pos]? = some r) (hc : c.defineChecked rs pos = .ok c') :
    Follows (pos + 1) c' (s.define pos r.last.toNat) := by
  obtain ⟨c₁, hc₁, hc⟩ := bind_eq_ok.1 hc
  obtain ⟨c₂, hc₂, hc⟩ := bind_eq_ok.1 hc
  have h₁ := h.expire hb hsize hc₁
  obtain ⟨s₁, hs₁, hkeeps, -, -⟩ := hb.expire hsize
  have hused₁ : s₁.cells.used ≤ pos := by
    rw [← hs₁]
    split
    · exact hused
    · rw [Scan.expire, releaseAll_used]
      exact hused
  rw [hs₁] at h₁
  have h₂ := h₁.assign hkeeps hused₁ hpos hc₂
  rw [Scan.define, hs₁]
  exact h₂.list hr (Nat.lt_trans hpos (by decide)) hc

theorem Follows.run {t : Tape} (huses : t.LastUses rs) (ht : t.size ≤ 2 ^ 31) :
    ∀ {rest : List LiveRange} {c s : Scan} {pos : Nat}, Follows pos c s →
      s.Before regs t.size (lastOf rs) pos → s.cells.used ≤ pos → rs.toList.drop pos = rest →
      c.runChecked rs rest.length pos = .ok c' → Follows (pos + rest.length) c' (s.run pos rest)
  | [], c, s, pos, h, _, _, _, hc => by
    obtain rfl := Except.ok.inj hc
    exact h
  | r :: rest, c, s, pos, h, hb, hused, hd, hc => by
    obtain ⟨hr, hd'⟩ := of_drop_eq_cons hd
    have hlt : pos < t.size := huses.size ▸ (Array.getElem?_eq_some_iff.1 hr).1
    obtain ⟨-, hlast, hle, hmax⟩ := lastOf_eq huses hr
    obtain ⟨c₁, hc₁, hc⟩ := bind_eq_ok.1 hc
    have h₁ := h.define hb hused (by omega) (by omega) hr hc₁
    have hb₁ := hb.define hle hmax
    have hused₁ := define_used s pos r.last.toNat
    rw [hlast, Int.toNat_natCast] at h₁ hused₁
    rw [Scan.run, hlast, Int.toNat_natCast, List.length_cons,
      show pos + (rest.length + 1) = pos + 1 + rest.length by omega]
    exact h₁.run huses ht hb₁ (by omega) hd' hc

end Scan

open Tape in
/-- **Allocating a valid tape finds everything in range**, and finds what
`allocate` finds unless a number does not fit in its word. -/
theorem allocateChecked_eq {t : Tape} (hwf : t.WellFormed) {regs : Int} (hregs : 1 ≤ regs)
    (hmax : regs ≤ maxRegs) :
    ∃ a, allocateChecked t regs = .ok a ∧ (t.size ≤ 2 ^ 31 → allocate t regs = .ok a) := by
  obtain ⟨rs, hrs, huses⟩ := hwf.liveRanges_eq
  have hbounds : ∀ k < t.size, ∃ r, rs[k]? = some r ∧ 0 ≤ r.last ∧ r.last ≤ t.size := by
    intro k hk
    obtain ⟨r, hr, -, hle, hlast, -⟩ := huses.range k hk
    exact ⟨r, hr, by omega, hlast⟩
  obtain ⟨c, hc, hroomy⟩ :=
    (Scan.startChecked_roomy regs.toNat t.size).run hbounds (Nat.zero_add t.size)
  have hok : ¬(regs < 1 ∨ maxRegs < regs) := by omega
  refine ⟨⟨regs, c.locs, c.cells.used⟩, ?_, fun ht => ?_⟩
  · simp only [allocateChecked, if_neg hok, liveRangesChecked_eq, hrs, ok_bind, hc]
  · have hstart : Scan.Follows 0 (.startChecked regs.toNat t.size) (.start regs.toNat t.size) :=
      ⟨rfl, rfl, rfl, filled_empty _⟩
    have hlength : rs.toList.length = t.size := by simpa using huses.size
    have hbefore := Scan.start_before (toNat_le_of_le_maxRegs hmax) t.size (lastOf rs)
    have hdone : Scan.Follows (0 + rs.toList.length) c (Scan.done t regs rs) :=
      hstart.run huses ht hbefore (Nat.zero_le _) List.drop_zero (by rwa [hlength])
    rw [hlength, Nat.zero_add] at hdone
    rw [allocate_eq hregs hmax hrs, hdone.locs.eq hroomy.locs, hdone.cells]

/-! ## The check of an assignment -/

/-- Checks that nothing live holds the location. -/
def vacant (owners : Owners) (slot : Nat) (l : Loc) : Except Misfit Unit :=
  match owners.lookup l with
  | some o => if (slot : Int) ≤ o.last then .error (.shared o.slot slot l) else .ok ()
  | none => .ok ()

/-- Checks the slots from `slot` on against the owners so far. -/
def checkAll (a : Assignment) (rs : Array LiveRange) (owners : Owners) :
    Nat → List Loc → Except Misfit Unit
  | _, [] => pure ()
  | slot, l :: rest => do
    a.fits slot l
    vacant owners slot l
    let r ← (lookup rs slot).mapError Misfit.fault
    a.checkAll rs ((l, ⟨slot, r.last⟩) :: owners) (slot + 1) rest

/-- Checks that slots that are live at the same time have different locations,
all of which exist. -/
def validateChecked (a : Assignment) (t : Tape) : Except Misfit Unit :=
  if a.locs.size ≠ t.size then .error (.coverage a.locs.size t.size)
  else
    match t.liveRangesChecked with
    | .error e => .error (.fault e)
    | .ok rs => a.checkAll rs [] 0 a.locs.toList

theorem checkAll_eq (a : Assignment) {rs : Array LiveRange} :
    ∀ {rest : List LiveRange} {locs : List Loc} {owners : Owners} {slot : Nat},
      rs.toList.drop slot = rest → locs.length = rest.length →
      a.checkAll rs owners slot locs = a.checkFrom owners slot (locs.zip rest)
  | [], [], _, _, _, _ => rfl
  | [], l :: _, _, _, _, hlen => by cases hlen
  | _ :: _, [], _, _, _, hlen => by cases hlen
  | r :: rest, l :: locs, owners, slot, hd, hlen => by
    obtain ⟨hr, hd'⟩ := of_drop_eq_cons hd
    have hlen' : locs.length = rest.length := by simpa using hlen
    have ih := fun owners => @checkAll_eq a rs rest locs owners (slot + 1) hd' hlen'
    rw [checkAll, List.zip_cons_cons, checkFrom, lookup_eq_ok.2 hr]
    cases a.fits slot l with
    | error e => rfl
    | ok u =>
      rw [ok_bind, vacant]
      cases owners.lookup l with
      | none => exact ih _
      | some o =>
        simp only
        split
        · rfl
        · exact ih _

/-- Checking an assignment looks at nothing out of range, whatever assignment and
tape are. -/
theorem validateChecked_eq (a : Assignment) (t : Tape) : a.validateChecked t = a.validate t := by
  unfold validateChecked validate
  split
  · rfl
  · rename_i hsize
    rw [Tape.liveRangesChecked_eq]
    cases hrs : t.liveRanges with
    | error e => rfl
    | ok rs =>
      refine a.checkAll_eq List.drop_zero ?_
      rw [Array.length_toList, Array.length_toList, Tape.liveRanges_size hrs]
      exact not_ne_iff.1 hsize

theorem checkFrom_ne_fault (a : Assignment) (f : Fault) : ∀ (slots : List (Loc × LiveRange))
    (owners : Owners) (slot : Nat), a.checkFrom owners slot slots ≠ .error (.fault f)
  | [], _, _ => by simp [checkFrom]
  | (l, r) :: rest, owners, slot => by
    have ih := a.checkFrom_ne_fault f rest
    have hfits : a.fits slot l ≠ .error (.fault f) := by
      cases l <;> simp only [fits] <;> split <;> simp
    unfold checkFrom
    split
    · rename_i e he
      exact fun h => hfits (he.trans h)
    · split
      · split
        · simp
        · exact ih _ _
      · exact ih _ _

theorem validate_ne_fault {t : Tape} (hwf : t.WellFormed) (a : Assignment) (f : Fault) :
    a.validate t ≠ .error (.fault f) := by
  obtain ⟨rs, hrs, -⟩ := hwf.liveRanges_eq
  unfold validate
  split
  · simp
  · rw [hrs]
    exact a.checkFrom_ne_fault f _ _ _

end Assignment

end ScalarField
