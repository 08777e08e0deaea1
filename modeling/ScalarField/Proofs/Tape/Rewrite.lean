/-
Simplifying a tape keeps its meaning, under every interpretation.

The passes are described one by one: the slots that resolved choices forward
to (`Forwarding.enter_eq`), the slots that the outputs need
(`Forwarding.sweep_closed`), and the instructions that are kept
(`Forwarding.keep_traces`). Each kept instruction traces back to one of the
tape, its operands to the slots that the original ones forward to. If every
resolved choice holds the value of the operand it picks, forwarding changes no
value, so the kept slots hold the values of the slots they trace back to.
Nothing is kept in vain (`Forwarding.Essential`): every kept slot is read or an
output, and none has a choice that is resolved.
-/
import Mathlib.Data.List.Nodup
import ScalarField.Proofs.Bitmap
import ScalarField.Proofs.Tape.Meaning

namespace ScalarField

namespace Tape

/-- Every resolved choice has the value of the operand that it picks. -/
def ChoicesHold {α : Type} (t : Tape) (choices : List Choice) (values : Array α) : Prop :=
  ∀ (k : Nat) (i : Instr), t.instrs[k]? = some i → i.isChoice = true →
    (choices[k]? = some .left → values[k]? = values[i.left]?) ∧
    (choices[k]? = some .right → values[k]? = values[i.right]?)

instance {α : Type} [DecidableEq α] (t : Tape) (choices : List Choice) (values : Array α) :
    Decidable (t.ChoicesHold choices values) :=
  decidable_of_iff (∀ (k : Nat) (h : k < t.instrs.size), t.instrs[k].isChoice = true →
      (choices[k]? = some .left → values[k]? = values[t.instrs[k].left]?) ∧
      (choices[k]? = some .right → values[k]? = values[t.instrs[k].right]?))
    ⟨fun h k i hi hch => by
      obtain ⟨hk, rfl⟩ := Array.getElem?_eq_some_iff.1 hi
      exact h k hk hch,
    fun h k hk => h k _ (Array.getElem?_eq_getElem hk)⟩

/-- Every slot is an output or an operand. -/
def AllUsed (t : Tape) : Prop :=
  ∀ m < t.size, m ∈ t.outputs ∨ ∃ (k : Nat) (i : Instr), t.instrs[k]? = some i ∧ m ∈ i.args

namespace Forwarding

/-! ## Forwarding -/

/-- The slots that instructions below `n` forward to, and the operands that
they have then. -/
structure Forwards (t : Tape) (choices : List Choice) (f : Forwarding) (n : Nat) : Prop where
  forward_size : f.forward.size = t.size
  args_size : f.args.size = n
  args : ∀ {k : Nat} {i : Instr}, k < n → t.instrs[k]? = some i →
    ∃ args, f.args[k]? = some args ∧
      List.Forall₂ (fun a b => f.forward[a]? = some b) i.args args
  target : ∀ {k : Nat} {i : Instr} {c : Choice} {args : List Nat}, k < n →
    t.instrs[k]? = some i → choices[k]? = some c → f.args[k]? = some args →
    f.forward[k]? = some (target k i c args)

theorem Forwards.step {t : Tape} {choices : List Choice} {f : Forwarding} {n : Nat} {i : Instr}
    {c : Choice} (h : f.Forwards t choices n) (hwf : t.WellFormed) (hi : t.instrs[n]? = some i)
    (hc : choices[n]? = some c) :
    ∃ args, lookupAll f.forward i.args = .ok args ∧
      Forwards t choices ⟨f.forward.setIfInBounds n (Forwarding.target n i c args),
        f.args.push args⟩ (n + 1) := by
  have hn : n < t.size := (Array.getElem?_eq_some_iff.1 hi).1
  obtain ⟨args, hargs⟩ := lookupAll_of_forall_lt f.forward i.args fun a ha => by
    have := (hwf.instr hi).args a ha
    rw [h.forward_size]; omega
  refine ⟨args, hargs, ?_⟩
  have hsame : ∀ a < n, (f.forward.setIfInBounds n (Forwarding.target n i c args))[a]? =
      f.forward[a]? := fun a ha => Array.getElem?_setIfInBounds_ne (by omega)
  have hself : (f.forward.setIfInBounds n (Forwarding.target n i c args))[n]? =
      some (Forwarding.target n i c args) :=
    Array.getElem?_setIfInBounds_self_of_lt (by rw [h.forward_size]; exact hn)
  have hkept : ∀ {k j bs}, t.instrs[k]? = some j → k ≤ n →
      List.Forall₂ (fun a b => f.forward[a]? = some b) j.args bs →
      List.Forall₂ (fun a b => (f.forward.setIfInBounds n (Forwarding.target n i c args))[a]? =
        some b) j.args bs := by
    intro k j bs hj hk hall
    have hlt : ∀ a ∈ j.args, a < n := fun a ha =>
      Nat.lt_of_lt_of_le ((hwf.instr hj).args a ha) hk
    exact ((List.forall₂_and_left _ _).2 ⟨hlt, hall⟩).imp fun a b hab => by
      rw [hsame a hab.1, hab.2]
  have hold : ∀ {k : Nat}, k < n → (f.args.push args)[k]? = f.args[k]? := fun hk => by
    rw [Array.getElem?_push_lt (h.args_size ▸ hk), Array.getElem?_eq_getElem (h.args_size ▸ hk)]
  have hnew : (f.args.push args)[n]? = some args := by
    rw [← h.args_size, Array.getElem?_push_size]
  refine ⟨by simp [h.forward_size], by simp [h.args_size], ?_, ?_⟩
  · intro k j hk hj
    rcases Nat.lt_succ_iff_lt_or_eq.1 hk with hlt | rfl
    · obtain ⟨bs, hbs, hall⟩ := h.args hlt hj
      exact ⟨bs, by rw [hold hlt, hbs], hkept hj (Nat.le_of_lt hlt) hall⟩
    · obtain rfl : i = j := by simpa [hi] using hj
      exact ⟨args, hnew, hkept hj (Nat.le_refl k) (lookupAll_eq_ok.1 hargs)⟩
  · intro k j d bs hk hj hd hbs
    rcases Nat.lt_succ_iff_lt_or_eq.1 hk with hlt | rfl
    · rw [hsame k hlt]
      exact h.target hlt hj hd (by rw [← hold hlt]; exact hbs)
    · obtain rfl : i = j := by simpa [hi] using hj
      obtain rfl : c = d := by simpa [hc] using hd
      obtain rfl : args = bs := by simpa [hnew] using hbs
      exact hself

theorem Forwards.enter {t : Tape} {choices : List Choice} (hwf : t.WellFormed)
    (hlen : choices.length = t.size) : ∀ {is : List (Instr × Choice)} {f : Forwarding} {n : Nat},
    f.Forwards t choices n → n ≤ t.size → (t.instrs.toList.zip choices).drop n = is →
      ∃ f', f.enter n is = .ok f' ∧ f'.Forwards t choices t.size
  | [], f, n, h, hn, hd => by
    obtain rfl : n = t.size := Nat.le_antisymm hn (by simpa [Tape.size, hlen] using hd)
    exact ⟨f, rfl, h⟩
  | (i, c) :: rest, f, n, h, hn, hd => by
    have hzip : (t.instrs.toList.zip choices)[n]? = some (i, c) := by
      rw [← List.head?_drop, hd, List.head?_cons]
    obtain ⟨hi, hc⟩ := List.getElem?_zip_eq_some.1 hzip
    rw [Array.getElem?_toList] at hi
    have hlt : n < t.size := (Array.getElem?_eq_some_iff.1 hi).1
    have hd' : (t.instrs.toList.zip choices).drop (n + 1) = rest := by
      rw [← List.drop_drop, hd]; rfl
    obtain ⟨args, hargs, hstep⟩ := h.step hwf hi hc
    obtain ⟨f', hf', hdone⟩ := hstep.enter hwf hlen hlt hd'
    exact ⟨f', by simp only [Forwarding.enter, hargs, hf'], hdone⟩

/-- Entering a valid tape never faults. -/
theorem enter_eq {t : Tape} {choices : List Choice} (hwf : t.WellFormed)
    (hlen : choices.length = t.size) :
    ∃ f, enter ⟨Array.replicate t.size 0, #[]⟩ 0 (t.instrs.toList.zip choices) = .ok f ∧
      f.Forwards t choices t.size :=
  Forwards.enter hwf hlen ⟨by simp, rfl, by simp, by simp⟩ (Nat.zero_le _) rfl

theorem isChoice_binary {i : Instr} (h : i.isChoice = true) : ∃ b, i.op? = some (.binary b) := by
  rcases hop : i.op? with _ | _ | _ | u | b <;> simp_all [Instr.isChoice, Op.isChoice]

/-- A slot forwards to itself or, where its choice is resolved, to where the
operand that the choice picks does. -/
theorem Forwards.cases {t : Tape} {choices : List Choice} {f : Forwarding} {k : Nat} {i : Instr}
    (h : f.Forwards t choices t.size) (hlen : choices.length = t.size)
    (hi : t.instrs[k]? = some i) :
    f.forward[k]? = some k ∨
      (i.isChoice = true ∧ choices[k]? = some .left ∧ i.left ∈ i.args ∧
        f.forward[k]? = f.forward[i.left]?) ∨
      (i.isChoice = true ∧ choices[k]? = some .right ∧ i.right ∈ i.args ∧
        f.forward[k]? = f.forward[i.right]?) := by
  have hk : k < t.size := (Array.getElem?_eq_some_iff.1 hi).1
  obtain ⟨c, hc⟩ : ∃ c, choices[k]? = some c := ⟨_, List.getElem?_eq_getElem (hlen ▸ hk)⟩
  obtain ⟨args, hargs, hall⟩ := h.args hk hi
  have htarget := h.target hk hi hc hargs
  by_cases hch : i.isChoice = true
  · obtain ⟨b, hb⟩ := isChoice_binary hch
    have hlr := Instr.args_binary hb
    rw [hlr] at hall
    obtain _ | ⟨hl, _ | ⟨hr, _ | _⟩⟩ := hall
    cases c with
    | left => exact .inr (.inl ⟨hch, hc, by simp [hlr], by simp [htarget, Forwarding.target, hch, hl]⟩)
    | right => exact .inr (.inr ⟨hch, hc, by simp [hlr], by simp [htarget, Forwarding.target, hch, hr]⟩)
    | unknown | both | other _ => exact .inl (by simp [htarget, Forwarding.target, hch])
  · exact .inl (by simp [htarget, Forwarding.target, hch])

/-- A slot forwards to one not after it. -/
theorem Forwards.le {t : Tape} {choices : List Choice} {f : Forwarding}
    (h : f.Forwards t choices t.size) (hwf : t.WellFormed) (hlen : choices.length = t.size)
    (k : Nat) : ∀ b, f.forward[k]? = some b → b ≤ k := by
  induction k using Nat.strongRecOn with
  | _ k ih =>
    intro b hb
    have hk : k < t.size := h.forward_size ▸ (Array.getElem?_eq_some_iff.1 hb).1
    have hi : t.instrs[k]? = some t.instrs[k] := Array.getElem?_eq_getElem hk
    rcases h.cases hlen hi with hself | ⟨-, -, hmem, heq⟩ | ⟨-, -, hmem, heq⟩
    · obtain rfl : k = b := by simpa [hself] using hb
      exact Nat.le_refl k
    all_goals
      have hlt := (hwf.instr hi).args _ hmem
      exact Nat.le_trans (ih _ hlt b (heq ▸ hb)) (Nat.le_of_lt hlt)

/-- Forwarding ends at a slot that forwards to itself. -/
theorem Forwards.fixed {t : Tape} {choices : List Choice} {f : Forwarding}
    (h : f.Forwards t choices t.size) (hwf : t.WellFormed) (hlen : choices.length = t.size)
    (k : Nat) : ∀ b, f.forward[k]? = some b → f.forward[b]? = some b := by
  induction k using Nat.strongRecOn with
  | _ k ih =>
    intro b hb
    have hk : k < t.size := h.forward_size ▸ (Array.getElem?_eq_some_iff.1 hb).1
    have hi : t.instrs[k]? = some t.instrs[k] := Array.getElem?_eq_getElem hk
    rcases h.cases hlen hi with hself | ⟨-, -, hmem, heq⟩ | ⟨-, -, hmem, heq⟩
    · obtain rfl : k = b := by simpa [hself] using hb
      exact hb
    · exact ih _ ((hwf.instr hi).args _ hmem) b (heq ▸ hb)
    · exact ih _ ((hwf.instr hi).args _ hmem) b (heq ▸ hb)

/-- A slot has the value of the slot that it forwards to. -/
theorem Forwards.value {α : Type} {t : Tape} {choices : List Choice} {f : Forwarding}
    {values : Array α} (h : f.Forwards t choices t.size) (hwf : t.WellFormed)
    (hlen : choices.length = t.size) (hold : t.ChoicesHold choices values) (k : Nat) :
    ∀ b, f.forward[k]? = some b → values[b]? = values[k]? := by
  induction k using Nat.strongRecOn with
  | _ k ih =>
    intro b hb
    have hk : k < t.size := h.forward_size ▸ (Array.getElem?_eq_some_iff.1 hb).1
    have hi : t.instrs[k]? = some t.instrs[k] := Array.getElem?_eq_getElem hk
    rcases h.cases hlen hi with hself | ⟨hch, hc, hmem, heq⟩ | ⟨hch, hc, hmem, heq⟩
    · obtain rfl : k = b := by simpa [hself] using hb
      rfl
    · rw [(hold k _ hi hch).1 hc]
      exact ih _ ((hwf.instr hi).args _ hmem) b (heq ▸ hb)
    · rw [(hold k _ hi hch).2 hc]
      exact ih _ ((hwf.instr hi).args _ hmem) b (heq ▸ hb)

/-! ## Slots that are needed -/

theorem mark_eq {n : Nat} (hn : n ≤ 2 ^ 64) : ∀ {xs : List Nat} {live : Bitmap},
    live.Covers n → (∀ x ∈ xs, x < n) →
      ∃ live', mark live xs = .ok live' ∧ live'.Covers n ∧
        ∀ j < n, live'.Has j ↔ j ∈ xs ∨ live.Has j
  | [], live, hlive, _ => ⟨live, rfl, hlive, by simp⟩
  | x :: xs, live, hlive, hxs => by
    obtain ⟨l₁, h₁, hc₁, hs₁⟩ := Bitmap.set_of_covers hlive (hxs x List.mem_cons_self) hn
    obtain ⟨l₂, h₂, hc₂, hs₂⟩ := mark_eq hn hc₁ fun y hy => hxs y (List.mem_cons_of_mem x hy)
    refine ⟨l₂, by simp only [mark, h₁, h₂], hc₂, fun j hj => ?_⟩
    rw [hs₂ j hj, hs₁ j hj, List.mem_cons]
    tauto

/-- The sweep keeps what is marked, marks nothing from its position on, and
leaves the operands of everything marked below it marked; it marks nothing
else. -/
theorem sweep_closed {f : Forwarding} {m : Nat} (hm : m ≤ 2 ^ 64)
    (hargs : ∀ (k : Nat) (args : List Nat), f.args[k]? = some args → ∀ a ∈ args, a < k) :
    ∀ {n : Nat} {live : Bitmap}, n ≤ m → live.Covers m →
      ∃ live', f.sweep n live = .ok live' ∧ live'.Covers m ∧
        (∀ j < m, live.Has j → live'.Has j) ∧
        (∀ j < m, n ≤ j → live'.Has j → live.Has j) ∧
        (∀ k < n, live'.Has k → ∀ a ∈ (f.args[k]?).getD [], live'.Has a) ∧
        ∀ j < m, live'.Has j → live.Has j ∨ ∃ k < n, live'.Has k ∧ j ∈ (f.args[k]?).getD []
  | 0, live, _, hlive =>
    ⟨live, rfl, hlive, fun _ _ h => h, fun _ _ _ h => h, by simp, fun _ _ h => .inl h⟩
  | n + 1, live, hn, hlive => by
    obtain ⟨r, hr⟩ := Bitmap.test_of_covers hlive hn hm
    cases r with
    | false =>
      obtain ⟨l, hl, hc, hkeep, habove, hclosed, hneeded⟩ :=
        sweep_closed hm hargs (n := n) (by omega) hlive
      refine ⟨l, by simp only [sweep, hr, hl], hc, hkeep, fun j hj hnj => habove j hj (by omega),
        fun k hk hlk => ?_, fun j hj h => ?_⟩
      · rcases Nat.lt_succ_iff_lt_or_eq.1 hk with hlt | rfl
        · exact hclosed k hlt hlk
        · have hlive_k := habove k hn (Nat.le_refl k) hlk
          simp [Bitmap.Has, hr] at hlive_k
      · rcases hneeded j hj h with hold | ⟨k, hk, hlk, hmem⟩
        · exact .inl hold
        · exact .inr ⟨k, by omega, hlk, hmem⟩
    | true =>
      -- The operands of `n` lie below it, so that marking them changes nothing above.
      have hbelow : ∀ a ∈ (f.args[n]?).getD [], a < n := by
        rcases ha : f.args[n]? with _ | args
        · simp
        · simpa using hargs n args ha
      obtain ⟨l₁, h₁, hc₁, hs₁⟩ := mark_eq hm hlive fun a ha => (by
        have := hbelow a ha
        omega : a < m)
      obtain ⟨l, hl, hc, hkeep, habove, hclosed, hneeded⟩ :=
        sweep_closed hm hargs (n := n) (by omega) hc₁
      refine ⟨l, by simp only [sweep, hr, h₁, hl], hc,
        fun j hj h => hkeep j hj ((hs₁ j hj).2 (.inr h)), fun j hj hnj h => ?_, fun k hk hlk => ?_,
        fun j hj h => ?_⟩
      · rcases (hs₁ j hj).1 (habove j hj (by omega) h) with hmem | hold
        · have := hbelow j hmem
          omega
        · exact hold
      · rcases Nat.lt_succ_iff_lt_or_eq.1 hk with hlt | rfl
        · exact hclosed k hlt hlk
        · intro a ha
          have ham : a < m := by
            have := hbelow a ha
            omega
          exact hkeep a ham ((hs₁ a ham).2 (.inl ha))
      · rcases hneeded j hj h with hold | ⟨k, hk, hlk, hmem⟩
        · rcases (hs₁ j hj).1 hold with hmem | hold
          · exact .inr ⟨n, by omega, hkeep n hn ((hs₁ n hn).2 (.inr hr)), hmem⟩
          · exact .inl hold
        · exact .inr ⟨k, by omega, hlk, hmem⟩

/-! ## Instructions that are kept -/

/-- The instructions kept below `n` trace back to the slots `src`, and their
operands to the operands among forwarded slots. -/
structure Traces (t : Tape) (f : Forwarding) (live : Bitmap) (k : Kept) (n : Nat)
    (src : List Nat) : Prop where
  numbers_size : k.numbers.size = t.size
  length : src.length = k.instrs.size
  sorted : src.Pairwise (· < ·)
  needed : ∀ j ∈ src, live.Has j
  number : ∀ j < n, live.Has j → ∃ m, k.numbers[j]? = some m ∧ src[m]? = some j
  instr : ∀ {m j : Nat}, src[m]? = some j → j < n ∧ ∃ i args args',
    t.instrs[j]? = some i ∧ f.args[j]? = some args ∧ k.instrs[m]? = some (withArgs i args') ∧
      List.Forall₂ (fun a b => b < m ∧ src[b]? = some a) args args'

theorem Traces.skip {t : Tape} {f : Forwarding} {live : Bitmap} {k : Kept} {n : Nat}
    {src : List Nat} (h : Traces t f live k n src) (hn : live.test (.ofNat n) = .ok false) :
    Traces t f live k (n + 1) src := by
  refine ⟨h.numbers_size, h.length, h.sorted, h.needed, fun j hj hlive => ?_, fun hm => ?_⟩
  · rcases Nat.lt_succ_iff_lt_or_eq.1 hj with hlt | rfl
    · exact h.number j hlt hlive
    · simp [Bitmap.Has, hn] at hlive
  · obtain ⟨hlt, rest⟩ := h.instr hm
    exact ⟨by omega, rest⟩

theorem Traces.keep {t : Tape} {f : Forwarding} {live : Bitmap} {k : Kept} {n : Nat}
    {src : List Nat} {i : Instr} {args : List Nat} (h : Traces t f live k n src)
    (hi : t.instrs[n]? = some i) (hargs : f.args[n]? = some args) (hlive : live.Has n)
    (hneed : ∀ a ∈ args, a < n ∧ live.Has a) :
    ∃ args', lookupAll k.numbers args = .ok args' ∧
      Traces t f live ⟨k.numbers.setIfInBounds n k.instrs.size, k.instrs.push (withArgs i args')⟩
        (n + 1) (src ++ [n]) := by
  have hn : n < t.size := (Array.getElem?_eq_some_iff.1 hi).1
  obtain ⟨args', hargs'⟩ := lookupAll_of_forall_lt k.numbers args fun a ha => by
    have := (hneed a ha).1
    rw [h.numbers_size]; omega
  have hgrow : ∀ {m j : Nat}, src[m]? = some j → m < src.length ∧ (src ++ [n])[m]? = some j :=
    fun hm => by
      have hlt := (List.getElem?_eq_some_iff.1 hm).1
      exact ⟨hlt, by rw [List.getElem?_append_left hlt, hm]⟩
  have hself : (k.numbers.setIfInBounds n k.instrs.size)[n]? = some k.instrs.size :=
    Array.getElem?_setIfInBounds_self_of_lt (by rw [h.numbers_size]; exact hn)
  have hsorted : (src ++ [n]).Pairwise (· < ·) := by
    refine List.pairwise_append.2 ⟨h.sorted, List.pairwise_singleton _ _, fun a ha b hb => ?_⟩
    obtain ⟨m, hm⟩ := List.mem_iff_getElem?.1 ha
    rw [List.mem_singleton.1 hb]
    exact (h.instr hm).1
  have hlives : ∀ j ∈ src ++ [n], live.Has j := by
    intro j hj
    rcases List.mem_append.1 hj with hj | hj
    · exact h.needed j hj
    · rw [List.mem_singleton.1 hj]
      exact hlive
  refine ⟨args', hargs', by simp [h.numbers_size], by simp [h.length], hsorted, hlives,
    fun j hj hlive => ?_, ?_⟩
  · rcases Nat.lt_succ_iff_lt_or_eq.1 hj with hlt | rfl
    · obtain ⟨m, hm, hsrc⟩ := h.number j hlt hlive
      exact ⟨m, by rw [Array.getElem?_setIfInBounds_ne (by omega), hm], (hgrow hsrc).2⟩
    · exact ⟨_, hself, by rw [← h.length]; simp⟩
  · intro m j hm
    by_cases hlt : m < src.length
    · rw [List.getElem?_append_left hlt] at hm
      obtain ⟨hj, i', as, bs, h1, h2, h3, h4⟩ := h.instr hm
      refine ⟨by omega, i', as, bs, h1, h2, ?_, h4.imp fun a b hab => ⟨hab.1, (hgrow hab.2).2⟩⟩
      rw [h.length] at hlt
      rw [Array.getElem?_push_lt hlt, ← h3, Array.getElem?_eq_getElem hlt]
    · have hlast : m = src.length := by
        have := (List.getElem?_eq_some_iff.1 hm).1
        simp at this; omega
      obtain rfl : n = j := by simpa [hlast] using hm
      refine ⟨by omega, i, args, args', hi, hargs, by rw [hlast, h.length]; simp, ?_⟩
      refine ((List.forall₂_and_left _ _).2 ⟨hneed, lookupAll_eq_ok.1 hargs'⟩).imp ?_
      intro a b ⟨⟨ha, hlive⟩, hb⟩
      obtain ⟨m', hm', hsrc⟩ := h.number a ha hlive
      obtain rfl : m' = b := by simpa [hm'] using hb
      exact ⟨by have := (hgrow hsrc).1; omega, (hgrow hsrc).2⟩

/-- Keeping the rest of a tape never faults if the operands of all that is
needed are needed. -/
theorem keep_traces {t : Tape} {f : Forwarding} {live : Bitmap} (ht : t.size ≤ 2 ^ 64)
    (hlive : live.Covers t.size) (hsize : f.args.size = t.size)
    (hneed : ∀ {n : Nat} {args : List Nat}, f.args[n]? = some args → live.Has n →
      ∀ a ∈ args, a < n ∧ live.Has a) :
    ∀ {is : List Instr} {k : Kept} {n : Nat} {src : List Nat}, Traces t f live k n src →
      n ≤ t.size → t.instrs.toList.drop n = is →
      ∃ k' src', f.keep live k n is = .ok k' ∧ Traces t f live k' t.size src'
  | [], k, n, src, h, hn, hd => by
    obtain rfl : n = t.size := Nat.le_antisymm hn (by simpa [Tape.size] using hd)
    exact ⟨k, src, rfl, h⟩
  | i :: rest, k, n, src, h, hn, hd => by
    obtain ⟨hi, hd'⟩ := of_drop_eq_cons hd
    have hlt : n < t.size := (Array.getElem?_eq_some_iff.1 hi).1
    obtain ⟨r, hr⟩ := Bitmap.test_of_covers hlive hlt ht
    cases r with
    | false =>
      obtain ⟨k', src', hk', hdone⟩ := keep_traces ht hlive hsize hneed (h.skip hr) hlt hd'
      exact ⟨k', src', by simp only [keep, hr, hk'], hdone⟩
    | true =>
      have hargs := Array.getElem?_eq_getElem (show n < f.args.size by omega)
      obtain ⟨args', hargs', hstep⟩ := h.keep hi hargs hr (hneed hargs hr)
      obtain ⟨k', src', hk', hdone⟩ := keep_traces ht hlive hsize hneed hstep hlt hd'
      exact ⟨k', src', by simp only [keep, hr, hargs, Option.getD_some, hargs', hk'], hdone⟩

/-! ## The simplified tape -/

theorem exists_of_mem_right {α β : Type} {R : α → β → Prop} : ∀ {as : List α} {bs : List β} {b : β},
    List.Forall₂ R as bs → b ∈ bs → ∃ a ∈ as, R a b
  | _, _, _, .cons hr hrs, hb => by
    rcases List.mem_cons.1 hb with rfl | hb
    · exact ⟨_, List.mem_cons_self, hr⟩
    · obtain ⟨a, ha, hab⟩ := exists_of_mem_right hrs hb
      exact ⟨a, List.mem_cons_of_mem _ ha, hab⟩

theorem exists_of_mem_left {α β : Type} {R : α → β → Prop} {as : List α} {bs : List β} {a : α}
    (h : List.Forall₂ R as bs) (ha : a ∈ as) : ∃ b ∈ bs, R a b :=
  exists_of_mem_right h.flip ha

/-- Every instruction of `s` is one of `t` at the slot that `src` gives, and
its operands and the outputs are those of `t`, forwarded. -/
structure Reduces (t : Tape) (f : Forwarding) (s : Tape) (src : List Nat) : Prop where
  vars : s.vars = t.vars
  length : src.length = s.size
  instr : ∀ {m j : Nat}, src[m]? = some j → j < t.size ∧ ∃ i args,
    t.instrs[j]? = some i ∧ s.instrs[m]? = some (withArgs i args) ∧
      List.Forall₂ (fun a b => ∃ c, f.forward[a]? = some c ∧ b < m ∧ src[b]? = some c) i.args args
  output : List.Forall₂ (fun o p => ∃ c, f.forward[o]? = some c ∧ src[p]? = some c)
    t.outputs.toList s.outputs.toList

theorem withArgs_op? (i : Instr) (args : List Nat) : (withArgs i args).op? = i.op? := by
  rcases args with _ | ⟨a, _ | ⟨b, rest⟩⟩ <;> rfl

theorem withArgs_code (i : Instr) (args : List Nat) : (withArgs i args).code = i.code := by
  rcases args with _ | ⟨a, _ | ⟨b, rest⟩⟩ <;> rfl

theorem withArgs_var (i : Instr) (args : List Nat) : (withArgs i args).var = i.var := by
  rcases args with _ | ⟨a, _ | ⟨b, rest⟩⟩ <;> rfl

theorem withArgs_imm (i : Instr) (args : List Nat) : (withArgs i args).imm = i.imm := by
  rcases args with _ | ⟨a, _ | ⟨b, rest⟩⟩ <;> rfl

theorem withArgs_args {i : Instr} {args : List Nat} (h : i.args.length = args.length) :
    (withArgs i args).args = args := by
  have hlen : min i.arity 2 = args.length := by simpa [Instr.args] using h
  rcases args with _ | ⟨a, _ | ⟨b, _ | _⟩⟩
  · exact List.length_eq_zero_iff.1 h
  · have harity : i.arity = 1 := by simp only [List.length_cons, List.length_nil] at hlen; omega
    exact congrArg (List.take · [a, i.right]) harity
  · have harity : 2 ≤ i.arity := by simp only [List.length_cons, List.length_nil] at hlen; omega
    exact List.take_of_length_le (l := [a, b]) harity
  · simp only [List.length_cons] at hlen
    omega

/-- Each kept slot is numbered as an output or as an operand of a kept
instruction, if that is why it was needed. -/
theorem Traces.used {t : Tape} {f : Forwarding} {live : Bitmap} {k : Kept} {src outs nums : List Nat}
    (h : Traces t f live k t.size src)
    (hneeded : ∀ j < t.size, live.Has j →
      j ∈ outs ∨ ∃ l < t.size, live.Has l ∧ j ∈ (f.args[l]?).getD [])
    (hargs : ∀ {l : Nat} {i : Instr} {args : List Nat}, t.instrs[l]? = some i →
      f.args[l]? = some args → i.args.length = args.length)
    (hnums : List.Forall₂ (fun b p => src[p]? = some b) outs nums) {m : Nat}
    (hm : m < k.instrs.size) :
    m ∈ nums ∨ ∃ (p : Nat) (i : Instr), k.instrs[p]? = some i ∧ m ∈ i.args := by
  obtain ⟨j, hsrc⟩ : ∃ j, src[m]? = some j := ⟨_, List.getElem?_eq_getElem (h.length ▸ hm)⟩
  have hnodup : src.Nodup := h.sorted.imp fun hlt => Nat.ne_of_lt hlt
  -- A slot is kept once, so that a number that traces back to it is `m`.
  have unique : ∀ {p : Nat}, src[p]? = some j → p = m := fun hp => by
    obtain ⟨hlt, hj⟩ := List.getElem?_eq_some_iff.1 hp
    obtain ⟨hlt', hj'⟩ := List.getElem?_eq_some_iff.1 hsrc
    exact (List.Nodup.getElem_inj_iff hnodup).1 (hj.trans hj'.symm)
  rcases hneeded j (h.instr hsrc).1 (h.needed j (List.mem_of_getElem? hsrc)) with
    hout | ⟨l, hl, hlive, hmem⟩
  · obtain ⟨p, hp, hpj⟩ := exists_of_mem_left hnums hout
    exact .inl (unique hpj ▸ hp)
  · obtain ⟨p, -, hp⟩ := h.number l hl hlive
    obtain ⟨-, i, args, args', hi, hargsl, hkept, hall⟩ := h.instr hp
    rw [hargsl, Option.getD_some] at hmem
    obtain ⟨b, hb, -, hbj⟩ := exists_of_mem_left hall hmem
    have hlength := (hargs hi hargsl).trans hall.length_eq
    exact .inr ⟨p, _, hkept, by rw [withArgs_args hlength]; exact unique hbj ▸ hb⟩

/-- The slots kept are in their order, forward to themselves, and each is an
output or an operand. -/
structure Essential (f : Forwarding) (s : Tape) (src : List Nat) : Prop where
  sorted : src.Pairwise (· < ·)
  fixed : ∀ j ∈ src, f.forward[j]? = some j
  used : s.AllUsed

theorem Forwards.args_eq {t : Tape} {choices : List Choice} {f : Forwarding}
    (h : f.Forwards t choices t.size) {l : Nat} {i : Instr} {args : List Nat}
    (hi : t.instrs[l]? = some i) (hargs : f.args[l]? = some args) :
    List.Forall₂ (fun a b => f.forward[a]? = some b) i.args args := by
  obtain ⟨as, has, hall⟩ := h.args (Array.getElem?_eq_some_iff.1 hi).1 hi
  obtain rfl : args = as := by simpa [hargs] using has
  exact hall

theorem Forwards.args_lt {t : Tape} {choices : List Choice} {f : Forwarding}
    (h : f.Forwards t choices t.size) (hwf : t.WellFormed) (hlen : choices.length = t.size)
    (l : Nat) (args : List Nat) (hargs : f.args[l]? = some args) : ∀ a ∈ args, a < l := by
  intro a ha
  have hl : l < t.size := h.args_size ▸ (Array.getElem?_eq_some_iff.1 hargs).1
  have hi : t.instrs[l]? = some t.instrs[l] := Array.getElem?_eq_getElem hl
  obtain ⟨b, hb, hab⟩ := exists_of_mem_right (h.args_eq hi hargs) ha
  exact Nat.lt_of_le_of_lt (h.le hwf hlen b a hab) ((hwf.instr hi).args b hb)

/-- Operands have been forwarded, so they forward to themselves. -/
theorem Forwards.fixed_of_arg {t : Tape} {choices : List Choice} {f : Forwarding}
    (h : f.Forwards t choices t.size) (hwf : t.WellFormed) (hlen : choices.length = t.size)
    {l j : Nat} (hl : l < t.size) (hmem : j ∈ (f.args[l]?).getD []) : f.forward[j]? = some j := by
  obtain ⟨as, has, hall⟩ := h.args hl (Array.getElem?_eq_getElem hl)
  rw [has, Option.getD_some] at hmem
  obtain ⟨a, -, ha⟩ := exists_of_mem_right hall hmem
  exact h.fixed hwf hlen a j ha

/-- What is left of a tape once its slots are forwarded reduces it, and no part
of that is left in vain. -/
theorem Forwards.finish {t : Tape} {choices : List Choice} {f : Forwarding}
    (h : f.Forwards t choices t.size) (hwf : t.WellFormed) (hlen : choices.length = t.size)
    (ht : t.size ≤ 2 ^ 32) :
    ∃ s src, f.finish t = .ok s ∧ Reduces t f s src ∧ Essential f s src := by
  have ht64 : t.size ≤ 2 ^ 64 := Nat.le_trans ht (by decide)
  have hbelow := h.args_lt hwf hlen
  obtain ⟨outs, houts⟩ := lookupAll_of_forall_lt f.forward t.outputs.toList
    fun o ho => by rw [h.forward_size]; exact hwf.output o (by simpa using ho)
  have houts' := lookupAll_eq_ok.1 houts
  have hlt : ∀ b ∈ outs, b < t.size := by
    intro b hb
    obtain ⟨o, ho, hob⟩ := exists_of_mem_right houts' hb
    exact Nat.lt_of_le_of_lt (h.le hwf hlen o b hob) (hwf.output o (by simpa using ho))
  obtain ⟨roots, hroots, hrc, hrs⟩ := mark_eq ht64
    (Bitmap.zeros_covers (Nat.le_trans ht (by decide))) hlt
  obtain ⟨live, hlive, hlc, hkept, -, hclosed, hneeded⟩ :=
    sweep_closed ht64 hbelow (Nat.le_refl _) hrc
  have hneed : ∀ {n : Nat} {args : List Nat}, f.args[n]? = some args → live.Has n →
      ∀ a ∈ args, a < n ∧ live.Has a := fun {n args} hargs hn a ha =>
    ⟨hbelow n args hargs a ha, hclosed n (h.args_size ▸ (Array.getElem?_eq_some_iff.1 hargs).1) hn a
      (by simpa [hargs] using ha)⟩
  have hstart : Traces t f live ⟨Array.replicate t.size 0, #[]⟩ 0 [] :=
    ⟨by simp, rfl, .nil, by simp, by simp, by simp⟩
  obtain ⟨k, src, hk, htr⟩ := keep_traces ht64 hlc h.args_size hneed hstart (Nat.zero_le _) rfl
  rw [List.drop_zero] at hk
  obtain ⟨nums, hnums⟩ := lookupAll_of_forall_lt k.numbers outs fun b hb => by
    rw [htr.numbers_size]; exact hlt b hb
  have hsrc : ∀ b ∈ outs, ∀ p, k.numbers[b]? = some p → src[p]? = some b := by
    intro b hb p hp
    have hb' := hlt b hb
    obtain ⟨m, hm, hmb⟩ := htr.number b hb' (hkept b hb' ((hrs b hb').2 (.inl hb)))
    obtain rfl : m = p := by simpa [hm] using hp
    exact hmb
  have hnums' : List.Forall₂ (fun b p => src[p]? = some b) outs nums :=
    ((List.forall₂_and_left _ _).2 ⟨hsrc, lookupAll_eq_ok.1 hnums⟩).imp fun b p hbp => hbp.1 p hbp.2
  have hneeded' : ∀ j < t.size, live.Has j →
      j ∈ outs ∨ ∃ l < t.size, live.Has l ∧ j ∈ (f.args[l]?).getD [] := by
    intro j hj hlive
    rcases hneeded j hj hlive with hroot | hread
    · exact .inl (((hrs j hj).1 hroot).resolve_right (Bitmap.not_zeros_has _ _))
    · exact .inr hread
  refine ⟨⟨k.instrs, nums.toArray, t.vars⟩, src,
    by simp only [Forwarding.finish, houts, hroots, hlive, hk, hnums], ⟨rfl, htr.length, ?_, ?_⟩,
    htr.sorted, fun j hj => ?_, fun m hm => ?_⟩
  · intro m j hm
    obtain ⟨hj, i, args, args', hi, hargs', hs, hall⟩ := htr.instr hm
    exact ⟨hj, i, args', hi, hs, forall₂_comp (h.args_eq hi hargs') hall⟩
  · exact forall₂_comp houts' hnums'
  · obtain ⟨m, hm⟩ := List.mem_iff_getElem?.1 hj
    rcases hneeded' j (htr.instr hm).1 (htr.needed j hj) with hout | ⟨l, hl, -, hmem⟩
    · obtain ⟨o, -, ho⟩ := exists_of_mem_right houts' hout
      exact h.fixed hwf hlen o j ho
    · exact h.fixed_of_arg hwf hlen hl hmem
  · simpa using htr.used hneeded' (fun hi hargs => (h.args_eq hi hargs).length_eq) hnums' hm

theorem outcome?_withArgs {α : Type} {I : Interp α} {inputs : Array α}
    {read read' : Nat → Option α} {i : Instr} {args : List Nat}
    (h : List.Forall₂ (fun a b => read' b = read a) i.args args) :
    (withArgs i args).outcome? I inputs read' = i.outcome? I inputs read := by
  rcases hi : i.op? with _ | _ | _ | u | b
  · simp [Instr.outcome?, withArgs_op?, hi]
  · simp [Instr.outcome?, withArgs_op?, withArgs_var, hi]
  · simp [Instr.outcome?, withArgs_op?, withArgs_imm, hi]
  · rw [Instr.args_unary hi] at h
    obtain _ | ⟨hl, _ | _⟩ := h
    simp only [Instr.outcome?, withArgs_op?, hi]
    simp only [withArgs, hl]
  · rw [Instr.args_binary hi] at h
    obtain _ | ⟨hl, _ | ⟨hr, _ | _⟩⟩ := h
    simp only [Instr.outcome?, withArgs_op?, hi]
    simp only [withArgs, hl, hr]

theorem Reduces.wellFormed {t s : Tape} {f : Forwarding} {src : List Nat}
    (h : Reduces t f s src) (hwf : t.WellFormed) : s.WellFormed := by
  refine ⟨fun {m i'} hi' => ?_, fun p hp => ?_⟩
  · have hm : m < src.length := h.length ▸ (Array.getElem?_eq_some_iff.1 hi').1
    obtain ⟨-, i, args, hi, hs, hall⟩ := h.instr (List.getElem?_eq_getElem hm)
    obtain rfl : withArgs i args = i' := by simpa [hs] using hi'
    obtain ⟨hop, hvar, -⟩ := hwf.instr hi
    refine ⟨by rwa [withArgs_op?], by rwa [withArgs_op?, withArgs_var, h.vars], ?_⟩
    rw [withArgs_args hall.length_eq]
    intro b hb
    obtain ⟨a, -, c, -, hlt, -⟩ := exists_of_mem_right hall hb
    exact hlt
  · obtain ⟨o, -, c, -, hc⟩ := exists_of_mem_right h.output (by simpa using hp)
    exact h.length ▸ (List.getElem?_eq_some_iff.1 hc).1

theorem Reduces.outputs_size {t s : Tape} {f : Forwarding} {src : List Nat}
    (h : Reduces t f s src) : s.outputs.size = t.outputs.size := by
  simpa only [Array.length_toList] using h.output.length_eq.symm

/-- A tape reduced from a valid one is valid. -/
theorem Reduces.validate {t s : Tape} {f : Forwarding} {src : List Nat} (h : Reduces t f s src)
    (hvalid : t.validate = .ok ()) : s.validate = .ok () := by
  obtain ⟨hne, hwf⟩ := validate_eq_ok.1 hvalid
  refine validate_eq_ok.2 ⟨?_, h.wellFormed hwf⟩
  rw [Array.isEmpty, h.outputs_size]
  exact hne

/-- If forwarding changes no value, the slots of a reduced tape hold the values
of the slots they trace back to. -/
theorem Reduces.means {α : Type} {I : Interp α} {inputs values : Array α} {t s : Tape}
    {f : Forwarding} {src : List Nat} (h : Reduces t f s src) (hv : t.Means I inputs values)
    (hfwd : ∀ a b : Nat, f.forward[a]? = some b → values[b]? = values[a]?) :
    ∃ values', s.Means I inputs values' ∧
      ∀ {m j : Nat}, src[m]? = some j → values'[m]? = values[j]? := by
  have hread : ∀ {m j : Nat}, src[m]? = some j →
      (src.map fun j => (values[j]?).getD I.blank).toArray[m]? = values[j]? := by
    intro m j hm
    have hj : j < values.size := hv.size ▸ (h.instr hm).1
    simp [hm, hj]
  refine ⟨_, ⟨by simpa using h.length, fun {m i'} hi' => ?_⟩, hread⟩
  have hm : m < src.length := h.length ▸ (Array.getElem?_eq_some_iff.1 hi').1
  have hsrc := List.getElem?_eq_getElem hm
  obtain ⟨-, i, args, hi, hs, hall⟩ := h.instr hsrc
  obtain rfl : withArgs i args = i' := by simpa [hs] using hi'
  rw [hread hsrc, ← hv.slot hi]
  refine congrArg _ (outcome?_withArgs (hall.imp fun a b ⟨c, hac, _, hbc⟩ => ?_))
  rw [hread hbc, hfwd a c hac]

end Forwarding

/-- Simplifying a valid tape never faults, and what it gives is a reduced
tape, with nothing in it in vain. -/
theorem WellFormed.simplify_essential {t : Tape} (hwf : t.WellFormed) {choices : List Choice}
    (hlen : choices.length = t.size) (ht : t.size ≤ 2 ^ 32) :
    ∃ s f src, t.simplify choices = .ok s ∧ Forwarding.Forwards t choices f t.size ∧
      Forwarding.Reduces t f s src ∧ Forwarding.Essential f s src := by
  obtain ⟨f, hf, hfwd⟩ := Forwarding.enter_eq hwf hlen
  obtain ⟨s, src, hs, hred⟩ := hfwd.finish hwf hlen ht
  exact ⟨s, f, src, by simp only [simplify, hlen, ne_eq, not_true_eq_false, if_false, hf, hs],
    hfwd, hred⟩

theorem WellFormed.simplify_eq {t : Tape} (hwf : t.WellFormed) {choices : List Choice}
    (hlen : choices.length = t.size) (ht : t.size ≤ 2 ^ 32) :
    ∃ s f src, t.simplify choices = .ok s ∧ Forwarding.Forwards t choices f t.size ∧
      Forwarding.Reduces t f s src := by
  obtain ⟨s, f, src, hs, hfwd, hred, -⟩ := hwf.simplify_essential hlen ht
  exact ⟨s, f, src, hs, hfwd, hred⟩

/-- A valid tape and the tape it simplifies to take the same inputs and give as
many results, so they refuse the same inputs. -/
theorem eval_eq_of_bad_arity {α : Type} {I : Interp α} {t s : Tape} {inputs : Array α}
    (hvars : s.vars = t.vars) (hin : inputs.size ≠ t.vars.size) :
    s.eval I inputs = t.eval I inputs := by
  simp [eval, Evaluator.eval, Evaluator.new, checkArity, hvars, hin]

/-- A reduced tape gives the same results, where forwarding changes no value. -/
theorem Forwarding.Reduces.eval_eq {α : Type} {I : Interp α} {t s : Tape} {f : Forwarding}
    {src : List Nat} {inputs : Array α} (hred : Reduces t f s src) (hwf : t.WellFormed)
    (hin : inputs.size = t.vars.size)
    (hval : ∀ a b : Nat, f.forward[a]? = some b →
      (t.slotValues I inputs)[b]? = (t.slotValues I inputs)[a]?) :
    s.eval I inputs = t.eval I inputs := by
  have hswf := hred.wellFormed hwf
  have hsin : inputs.size = s.vars.size := hred.vars ▸ hin
  obtain ⟨values', hmeans', hread⟩ := hred.means (hwf.means hin) hval
  obtain rfl : values' = s.slotValues I inputs := hmeans'.unique hswf (hswf.means hsin)
  obtain ⟨out, hout, hall, -⟩ := hwf.eval_eq (I := I) hin
  obtain ⟨out', hout', hall', -⟩ := hswf.eval_eq (I := I) hsin
  rw [hout, hout']
  -- Both outputs hold the value of the slot that the output forwards to.
  have hsame : ∀ {os ps : List Nat} {vs ws : List α},
      List.Forall₂ (fun o p => ∃ c, f.forward[o]? = some c ∧ src[p]? = some c) os ps →
      List.Forall₂ (fun o v => (t.slotValues I inputs)[o]? = some v) os vs →
      List.Forall₂ (fun p w => (s.slotValues I inputs)[p]? = some w) ps ws → ws = vs := by
    intro os ps vs ws h
    induction h generalizing vs ws with
    | nil => rintro ⟨⟩ ⟨⟩; rfl
    | @cons o p os ps hop _ ih =>
      rintro (_ | ⟨hv, hvs⟩) (_ | ⟨hw, hws⟩)
      obtain ⟨c, hoc, hpc⟩ := hop
      rw [hread hpc, hval o c hoc, hv] at hw
      rw [ih hvs hws, Option.some.inj hw]
  rw [hsame hred.output hall hall']

/-- A simplified tape gives the same results, where every resolved choice has
the value of its operand. -/
theorem WellFormed.eval_simplified {α : Type} {I : Interp α} {t s : Tape} {f : Forwarding}
    {src : List Nat} {inputs : Array α} {choices : List Choice} (hwf : t.WellFormed)
    (hlen : choices.length = t.size) (hfwd : Forwarding.Forwards t choices f t.size)
    (hred : Forwarding.Reduces t f s src) (hin : inputs.size = t.vars.size)
    (hold : t.ChoicesHold choices (t.slotValues I inputs)) :
    s.eval I inputs = t.eval I inputs :=
  hred.eval_eq hwf hin (hfwd.value hwf hlen hold)

/-- **Simplifying a tape by choices that hold keeps its results**, under every
interpretation and for every input: where each `min`, `max`, `and` or `or`
marked left or right has, in the evaluation of the tape, the value of the
operand it is marked with, the simplified tape exists and evaluates to the
same results, of which there are some if there is an input for each
variable. -/
theorem simplify_keeps_results {α : Type} (I : Interp α) (t : Tape) (choices : List Choice)
    (inputs : Array α) (hvalid : t.validate = .ok ()) (ht : t.size ≤ 2 ^ 32)
    (hlen : choices.length = t.size) (hold : t.ChoicesHold choices (t.slotValues I inputs)) :
    ∃ s, t.simplify choices = .ok s ∧ s.eval I inputs = t.eval I inputs ∧
      (inputs.size = t.vars.size → ∃ out, s.eval I inputs = .ok out) := by
  obtain ⟨-, hwf⟩ := validate_eq_ok.1 hvalid
  obtain ⟨s, f, src, hs, hfwd, hred⟩ := hwf.simplify_eq hlen ht
  have heq : s.eval I inputs = t.eval I inputs := by
    by_cases hin : inputs.size = t.vars.size
    · exact hwf.eval_simplified hlen hfwd hred hin hold
    · exact eval_eq_of_bad_arity hred.vars hin
  refine ⟨s, hs, heq, fun hin => ?_⟩
  obtain ⟨out, hout, -⟩ := hwf.eval_eq (I := I) hin
  exact ⟨out, heq.trans hout⟩

/-- `max (min x y) x` and `min x y`, the first twice. -/
def nestedChoices : Tape where
  instrs := #[{ code := Op.input.code, var := 0 }, { code := Op.input.code, var := 1 },
    { code := BinaryOp.min.code, left := 0, right := 1 },
    { code := BinaryOp.max.code, left := 2, right := 0 }]
  outputs := #[3, 2, 3]
  vars := #[utf8 "x", utf8 "y"]

/-- With `x` below `y` both choices forward to `x`, which alone is left. -/
theorem simplify_keeps_results_nested :
    nestedChoices.validate = .ok () ∧
      (∃ s, nestedChoices.simplify [.unknown, .unknown, .left, .left] = .ok s ∧
        s.eval .point #[.ofInt 1, .ofInt 2] = nestedChoices.eval .point #[.ofInt 1, .ofInt 2] ∧
        (2 = 2 → ∃ out, s.eval .point #[.ofInt 1, .ofInt 2] = .ok out)) ∧
      (nestedChoices.simplify [.unknown, .unknown, .left, .left]).toOption.map Tape.size = some 1 :=
  ⟨by decide +kernel,
    simplify_keeps_results .point nestedChoices [.unknown, .unknown, .left, .left]
      #[.ofInt 1, .ofInt 2] (by decide +kernel) (by decide +kernel) (by decide +kernel)
      (by decide +kernel),
    by decide +kernel⟩

end Tape

end ScalarField
