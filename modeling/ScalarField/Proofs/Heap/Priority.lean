/-
Heaps as priority queues: whatever is pushed and popped, each item that is
popped is one that no item left comes before, and popping until nothing is left
gives the items in order (`Heap.calls_by_priority`).

Sifting starts from an order that is broken at one position (`Heap.Holed`):
items are in order with their parents wherever the position is not involved,
and its children are in order with its parent. A swap moves the position one
level up or down and keeps that; where sifting stops, nothing is broken any
more. Equal items need no care: the order is only asked whether an item comes
before another, and not coming before is transitive.
-/
import Mathlib.Logic.Equiv.Basic
import Mathlib.Order.Defs.Unbundled
import ScalarField.Proofs.Heap

namespace ScalarField

namespace Heap

variable {α : Type} {less : α → α → Bool} {a : Array α} {i : Nat}

/-! ## The order -/

/-- The item at `j` does not come before the item at `k`, where both exist. -/
def After (less : α → α → Bool) (a : Array α) (j k : Nat) : Prop :=
  ∀ x y, a[j]? = some x → a[k]? = some y → less x y = false

/-- No item comes before its parent. -/
def Ordered (less : α → α → Bool) (a : Array α) : Prop :=
  ∀ j, 0 < j → After less a j ((j - 1) / 2)

/-- Only the item at `i` may be out of order. Its children are in order with
its parent, so that one of them may take its place. -/
structure Holed (less : α → α → Bool) (a : Array α) (i : Nat) : Prop where
  apart : ∀ j, 0 < j → j ≠ i → (j - 1) / 2 ≠ i → After less a j ((j - 1) / 2)
  across : 0 < i → ∀ c, 0 < c → (c - 1) / 2 = i → After less a c ((i - 1) / 2)

/-- The item at `i` may come before its parent, but is in order with its
children. -/
structure Rising (less : α → α → Bool) (a : Array α) (i : Nat) : Prop extends Holed less a i where
  below : ∀ c, 0 < c → (c - 1) / 2 = i → After less a c i

/-- The children of the item at `i` may come before it, but it is in order with
its parent. -/
structure Sinking (less : α → α → Bool) (a : Array α) (i : Nat) : Prop extends Holed less a i where
  above : 0 < i → After less a i ((i - 1) / 2)

theorem getElem?_swap_eq {p : Nat} (hi : i < a.size) (hp : p < a.size) (k : Nat) :
    (a.swap i p)[k]? = a[Equiv.swap i p k]? := by
  rw [Array.getElem?_swap, Equiv.swap_apply_def]
  split
  · subst k
    by_cases h : p = i
    · simp [h]
    · rw [if_neg h, if_pos rfl, Array.getElem?_eq_getElem hi]
  · rename_i hkp
    split
    · subst k
      rw [if_pos rfl, Array.getElem?_eq_getElem hp]
    · rename_i hki
      rw [if_neg (Ne.symm hki), if_neg (Ne.symm hkp)]

theorem after_swap {p : Nat} (hi : i < a.size) (hp : p < a.size) {j k : Nat} :
    After less (a.swap i p) j k ↔ After less a (Equiv.swap i p j) (Equiv.swap i p k) := by
  simp only [After, getElem?_swap_eq hi hp]

/-- Where the item at `i` is in order with its parent too, sifting up is done. -/
theorem Rising.ordered (h : Rising less a i) (habove : 0 < i → After less a i ((i - 1) / 2)) :
    Ordered less a := by
  intro j hj
  by_cases hji : j = i
  · exact hji ▸ habove (hji ▸ hj)
  by_cases hpi : (j - 1) / 2 = i
  · exact hpi ▸ h.below j hj hpi
  · exact h.apart j hj hji hpi

/-- Where the item at `i` is in order with its children too, sifting down is
done. -/
theorem Sinking.ordered (h : Sinking less a i)
    (hbelow : ∀ c, 0 < c → (c - 1) / 2 = i → After less a c i) : Ordered less a :=
  Rising.ordered ⟨h.toHoled, hbelow⟩ h.above

section

variable [IsStrictWeakOrder α (less · · = true)]

theorem not_less_self (x : α) : less x x = false :=
  Bool.eq_false_iff.2 (irrefl_of (less · · = true) x)

theorem not_less_of_less {x y : α} (h : less x y = true) : less y x = false :=
  Bool.eq_false_iff.2 (asymm_of (less · · = true) h)

/-- Not to come before is transitive: an item between the two would be equal to
both. -/
theorem not_less_trans {x y z : α} (hxy : less x y = false) (hyz : less y z = false) :
    less x z = false := by
  rw [Bool.eq_false_iff] at hxy hyz ⊢
  intro hxz
  have hyx : ¬less y x = true := fun h => hyz (trans_of (less · · = true) h hxz)
  have hzy : ¬less z y = true := fun h => hxy (trans_of (less · · = true) hxz h)
  have hincomp := @IsStrictWeakOrder.incomp_trans α (less · · = true) _ x y z ⟨hxy, hyx⟩ ⟨hyz, hzy⟩
  exact hincomp.1 hxz

theorem After.trans {j k l : Nat} (hjk : After less a j k) (hkl : After less a k l)
    (hk : k < a.size) : After less a j l := by
  intro x z hx hz
  have hy := Array.getElem?_eq_getElem hk
  exact not_less_trans (hjk x _ hx hy) (hkl _ z hy hz)

theorem after_of_less {j k : Nat} (hj : j < a.size) (hk : k < a.size)
    (h : less a[j] a[k] = true) : After less a k j := by
  intro y x hy hx
  obtain rfl : a[k] = y := by simpa [hk] using hy
  obtain rfl : a[j] = x := by simpa [hj] using hx
  exact not_less_of_less h

/-! ## Sifting -/

/-- An item that comes before its parent changes places with it. -/
theorem Rising.swap (h : Rising less a i) (hpos : 0 < i) (hi : i < a.size)
    (hp : (i - 1) / 2 < a.size) (hless : less a[i] a[(i - 1) / 2] = true) :
    Rising less (a.swap i ((i - 1) / 2)) ((i - 1) / 2) := by
  have hne : (i - 1) / 2 ≠ i := by omega
  generalize hparent : (i - 1) / 2 = p at *
  -- The old parent is in order with the other child and with its own parent.
  have hother : ∀ c, 0 < c → (c - 1) / 2 = p → c ≠ i → After less a c p := fun c hc hcp hci =>
    hcp ▸ h.apart c hc hci (hcp ▸ hne)
  have hgrand : 0 < p → After less a p ((p - 1) / 2) := fun hp0 => h.apart p hp0 hne (by omega)
  have hmoved : After less a p i := after_of_less hi hp hless
  refine ⟨⟨fun j hj hjp hpar => ?_, fun hp0 c hc hcp => ?_⟩, fun c hc hcp => ?_⟩
  · have hji : j ≠ i := fun hji => hpar (hji ▸ hparent)
    rw [after_swap hi hp, Equiv.swap_apply_of_ne_of_ne hji hjp]
    by_cases hchild : (j - 1) / 2 = i
    · rw [hchild, Equiv.swap_apply_left]
      have hacross := h.across hpos j hj hchild
      rwa [hparent] at hacross
    · rw [Equiv.swap_apply_of_ne_of_ne hchild hpar]
      exact h.apart j hj hji hchild
  · have hpp : (p - 1) / 2 ≠ i ∧ (p - 1) / 2 ≠ p := by omega
    rw [after_swap hi hp, Equiv.swap_apply_of_ne_of_ne hpp.1 hpp.2]
    by_cases hci : c = i
    · rw [hci, Equiv.swap_apply_left]
      exact hgrand hp0
    · rw [Equiv.swap_apply_of_ne_of_ne hci (by omega)]
      exact (hother c hc hcp hci).trans (hgrand hp0) hp
  · rw [after_swap hi hp, Equiv.swap_apply_right]
    by_cases hci : c = i
    · rw [hci, Equiv.swap_apply_left]
      exact hmoved
    · rw [Equiv.swap_apply_of_ne_of_ne hci (by omega)]
      exact (hother c hc hcp hci).trans hmoved hp

theorem siftUp_ordered (h : Rising less a i) : Ordered less (siftUp less a i) := by
  fun_induction siftUp less a i with
  | case1 a i hpos hi hp hless ih => exact ih (h.swap hpos.1 hi hp hless)
  | case2 a i hpos hi hp hless =>
    refine h.ordered fun _ x y hx hy => ?_
    obtain rfl : a[i] = x := by simpa [hi] using hx
    obtain rfl : a[(i - 1) / 2] = y := by simpa [hp] using hy
    simpa using hless
  | case3 a i hpos =>
    refine h.ordered fun h0 x _ hx _ => absurd ⟨h0, ?_⟩ hpos
    exact (Array.getElem?_eq_some_iff.1 hx).1

/-- The child that is chosen is a child, and no child comes before it. -/
theorem firstChild_eq_some {c : Fin a.size} (h : firstChild less a i = some c) :
    (0 < c.val ∧ (c.val - 1) / 2 = i) ∧
      ∀ d, 0 < d → (d - 1) / 2 = i → After less a d c := by
  have hself : ∀ k, After less a k k := fun k x y hx hy => by
    obtain rfl : x = y := by simpa [hx] using hy
    exact not_less_self x
  have hchild : ∀ d, 0 < d → (d - 1) / 2 = i → d = 2 * i + 1 ∨ d = 2 * i + 2 := by omega
  unfold firstChild at h
  split at h
  · rename_i hl
    split at h
    · rename_i hr
      split at h
      · rename_i hless
        obtain rfl := Option.some.inj h
        refine ⟨by simp only; omega, fun d hd hdi => ?_⟩
        rcases hchild d hd hdi with rfl | rfl
        · exact after_of_less hr hl hless
        · exact hself _
      · rename_i hless
        obtain rfl := Option.some.inj h
        refine ⟨by simp only; omega, fun d hd hdi => ?_⟩
        rcases hchild d hd hdi with rfl | rfl
        · exact hself _
        · intro x y hx hy
          obtain rfl : a[2 * i + 2] = x := by simpa [hr] using hx
          obtain rfl : a[2 * i + 1] = y := by simpa [hl] using hy
          simpa using hless
    · rename_i hr
      obtain rfl := Option.some.inj h
      refine ⟨by simp only; omega, fun d hd hdi => ?_⟩
      rcases hchild d hd hdi with rfl | rfl
      · exact hself _
      · exact fun x _ hx _ => absurd (Array.getElem?_eq_some_iff.1 hx).1 hr
  · cases h

omit [IsStrictWeakOrder α (less · · = true)] in
theorem firstChild_eq_none (h : firstChild less a i = none) {d : Nat} (hd : 0 < d)
    (hdi : (d - 1) / 2 = i) : a.size ≤ d := by
  unfold firstChild at h
  split at h
  · split at h
    · split at h <;> cases h
    · cases h
  · omega

/-- An item changes places with the child that comes first. -/
theorem Sinking.swap (h : Sinking less a i) {c : Nat} (hi : i < a.size) (hc : c < a.size)
    (hc0 : 0 < c) (hci : (c - 1) / 2 = i)
    (hfirst : ∀ d, 0 < d → (d - 1) / 2 = i → After less a d c) (hless : less a[c] a[i] = true) :
    Sinking less (a.swap i c) c := by
  have hne : i ≠ c := by omega
  refine ⟨⟨fun j hj hjc hpar => ?_, fun _ d hd hdc => ?_⟩, fun _ => ?_⟩
  · rw [after_swap hi hc]
    by_cases hji : j = i
    · subst hji
      rw [Equiv.swap_apply_left, Equiv.swap_apply_of_ne_of_ne (by omega) hpar]
      exact h.across hj c hc0 hci
    · rw [Equiv.swap_apply_of_ne_of_ne hji hjc]
      by_cases hsibling : (j - 1) / 2 = i
      · rw [hsibling, Equiv.swap_apply_left]
        exact hfirst j hj hsibling
      · rw [Equiv.swap_apply_of_ne_of_ne hsibling hpar]
        exact h.apart j hj hji hsibling
  · rw [after_swap hi hc, hci, Equiv.swap_apply_left,
      Equiv.swap_apply_of_ne_of_ne (by omega) (by omega)]
    have hd' := h.apart d hd (by omega) (by omega)
    rwa [hdc] at hd'
  · rw [after_swap hi hc, hci, Equiv.swap_apply_right, Equiv.swap_apply_left]
    exact after_of_less hc hi hless

theorem siftDown_ordered (h : Sinking less a i) : Ordered less (siftDown less a i) := by
  fun_induction siftDown less a i with
  | case1 a i hnone =>
    refine h.ordered fun d hd hdi x _ hx _ => ?_
    have hlt := (Array.getElem?_eq_some_iff.1 hx).1
    have := firstChild_eq_none hnone hd hdi
    omega
  | case2 a i c hsome hi hless ih =>
    obtain ⟨⟨hc0, hci⟩, hfirst⟩ := firstChild_eq_some hsome
    exact ih (h.swap hi c.isLt hc0 hci hfirst hless)
  | case3 a i c hsome hi hless =>
    obtain ⟨-, hfirst⟩ := firstChild_eq_some hsome
    have hstay : After less a c i := fun x y hx hy => by
      obtain rfl : a[c] = x := by simpa using hx
      obtain rfl : a[i] = y := by simpa [hi] using hy
      simpa using hless
    exact h.ordered fun d hd hdi => (hfirst d hd hdi).trans hstay c.isLt

/-! ## Pushing and popping -/

/-- In order, no item comes before the first one: by induction on positions,
parents having lower ones. -/
theorem Ordered.first (h : Ordered less a) (k : Nat) : After less a k 0 := by
  induction k using Nat.strongRecOn with
  | _ k ih =>
    intro x y hx hy
    rcases Nat.eq_zero_or_pos k with rfl | hk
    · obtain rfl : x = y := by simpa [hx] using hy
      exact not_less_self x
    · have hlt := (Array.getElem?_eq_some_iff.1 hx).1
      exact (h k hk).trans (ih ((k - 1) / 2) (by omega)) (by omega) x y hx hy

omit [IsStrictWeakOrder α (less · · = true)] in
/-- A new item may only come before its parent. -/
theorem Ordered.push (h : Ordered less a) (x : α) : Rising less (a.push x) a.size := by
  have hold : ∀ {k : Nat} {y : α}, k ≠ a.size → (a.push x)[k]? = some y → a[k]? = some y := by
    intro k y hk hy
    rwa [Array.getElem?_push, if_neg hk] at hy
  have hchild : ∀ c, 0 < c → (c - 1) / 2 = a.size → ∀ k, After less (a.push x) c k := by
    intro c hc hca k y _ hy _
    have hlt := (Array.getElem?_eq_some_iff.1 hy).1
    rw [Array.size_push] at hlt
    omega
  refine ⟨⟨fun j hj hja hpa y z hy hz => ?_, fun _ c hc hca => hchild c hc hca _⟩,
    fun c hc hca => hchild c hc hca _⟩
  exact h j hj y z (hold hja hy) (hold hpa hz)

omit [IsStrictWeakOrder α (less · · = true)] in
/-- An item that takes the place of the first one may only come after its
children. -/
theorem Ordered.replace (h : Ordered less a) (last : α) :
    Sinking less (a.pop.setIfInBounds 0 last) 0 := by
  have hold : ∀ {k : Nat} {y : α}, k ≠ 0 → (a.pop.setIfInBounds 0 last)[k]? = some y →
      a[k]? = some y := by
    intro k y hk hy
    rw [Array.getElem?_setIfInBounds_ne (Ne.symm hk), Array.getElem?_pop] at hy
    split at hy
    · exact hy
    · cases hy
  refine ⟨⟨fun j hj _ hpar x y hx hy => ?_, fun h0 => absurd h0 (Nat.lt_irrefl 0)⟩,
    fun h0 => absurd h0 (Nat.lt_irrefl 0)⟩
  exact h j hj x y (hold (by omega) hx) (hold hpar hy)

/-- A heap in the order `less` whose items are in order. -/
structure Sound (less : α → α → Bool) (h : Heap α) : Prop where
  less_eq : h.less = less
  ordered : Ordered less h.items

omit [IsStrictWeakOrder α (less · · = true)] in
theorem empty_sound : Sound less (empty less) :=
  ⟨rfl, fun j _ x _ hx => by simp [empty] at hx⟩

theorem Sound.push {h : Heap α} (hs : Sound less h) (x : α) : Sound less (h.push x) := by
  obtain ⟨less', items⟩ := h
  obtain ⟨rfl, ho⟩ := hs
  exact ⟨rfl, siftUp_ordered (ho.push x)⟩

/-- What is popped is the first item, and the last one has taken its place. -/
theorem Sound.pop {h h' : Heap α} {x : α} (hs : Sound less h) (hp : h.pop? = some (x, h')) :
    Sound less h' ∧ ∀ y ∈ h'.items, less y x = false := by
  have hperm := pop?_perm hp
  obtain ⟨less', items⟩ := h
  obtain ⟨rfl, ho⟩ := hs
  unfold pop? at hp
  split at hp
  · rename_i top last htop hlast
    simp only [Option.some.injEq, Prod.mk.injEq] at hp
    obtain ⟨rfl, rfl⟩ := hp
    refine ⟨⟨rfl, ?_⟩, fun y hy => ?_⟩
    · split
      · rename_i hempty
        rw [Array.isEmpty_iff.1 hempty]
        exact empty_sound.ordered
      · exact siftDown_ordered (ho.replace last)
    · have hmem : y ∈ items.toList := hperm.mem_iff.2 (List.mem_cons_of_mem top hy.val)
      obtain ⟨k, hk⟩ := List.mem_iff_getElem?.1 hmem
      exact ho.first k y top (by rw [← Array.getElem?_toList, hk]) htop
  · cases hp

end

/-! ## Sequences of calls -/

/-- A call of a queue. -/
inductive Call (α : Type) where
  | push (x : α)
  | pop

namespace Call

/-- The items that calls push. -/
def pushed : List (Call α) → List α
  | [] => []
  | push x :: rest => x :: pushed rest
  | pop :: rest => pushed rest

/-- From `n` items on, nothing is popped while there is no item. -/
def Fits : Nat → List (Call α) → Prop
  | _, [] => True
  | n, push _ :: rest => Fits (n + 1) rest
  | 0, pop :: _ => False
  | n + 1, pop :: rest => Fits n rest

end Call

/-- The heap after some calls, and the items that they pop; popping from the
empty heap is not possible. -/
def run (h : Heap α) : List (Call α) → Option (Heap α × List α)
  | [] => some (h, [])
  | .push x :: rest => (h.push x).run rest
  | .pop :: rest =>
    match h.pop? with
    | none => none
    | some (x, h') => (h'.run rest).map fun (h'', xs) => (h'', x :: xs)

theorem size_push (h : Heap α) (x : α) : (h.push x).size = h.size + 1 := by
  simpa [size] using (push_perm h x).length_eq

theorem size_of_pop? {h h' : Heap α} {x : α} (hp : h.pop? = some (x, h')) :
    h.size = h'.size + 1 := by
  simpa [size] using (pop?_perm hp).length_eq

theorem exists_pop? {h : Heap α} (hpos : 0 < h.size) : ∃ x h', h.pop? = some (x, h') := by
  rcases hp : h.pop? with _ | ⟨x, h'⟩
  · simp [size, pop?_eq_none hp] at hpos
  · exact ⟨x, h', rfl⟩

theorem run_pop_eq_some {h h' : Heap α} {rest : List (Call α)} {popped : List α} :
    h.run (.pop :: rest) = some (h', popped) ↔
      ∃ x h₁ xs, h.pop? = some (x, h₁) ∧ h₁.run rest = some (h', xs) ∧ popped = x :: xs := by
  rw [run]
  rcases h.pop? with _ | ⟨x, h₁⟩
  · simp
  · simp only [Option.map_eq_some_iff, Prod.exists, Prod.mk.injEq, Option.some.injEq]
    constructor
    · rintro ⟨h'', xs, hrun, rfl, rfl⟩
      exact ⟨x, h₁, xs, ⟨rfl, rfl⟩, hrun, rfl⟩
    · rintro ⟨x, h₁, xs, ⟨rfl, rfl⟩, hrun, rfl⟩
      exact ⟨h', xs, hrun, rfl, rfl⟩

theorem run_of_fits {calls : List (Call α)} : ∀ {h : Heap α}, Call.Fits h.size calls →
    ∃ h' popped, h.run calls = some (h', popped) := by
  induction calls with
  | nil => exact fun {h} _ => ⟨h, [], rfl⟩
  | cons call rest ih =>
    intro h hfits
    cases call with
    | push x => exact ih (h := h.push x) (by rwa [size_push])
    | pop =>
      have hpos : 0 < h.size := Nat.pos_of_ne_zero fun h0 => by rwa [h0] at hfits
      obtain ⟨x, h₁, hpop⟩ := exists_pop? hpos
      rw [size_of_pop? hpop] at hfits
      obtain ⟨h', xs, hrun⟩ := ih hfits
      exact ⟨h', _, run_pop_eq_some.2 ⟨x, h₁, xs, hpop, hrun, rfl⟩⟩

/-- Calls neither lose nor make up an item. -/
theorem run_perm {calls : List (Call α)} : ∀ {h h' : Heap α} {popped : List α},
    h.run calls = some (h', popped) →
      (popped ++ h'.items.toList).Perm (Call.pushed calls ++ h.items.toList) := by
  induction calls with
  | nil =>
    intro h h' popped hrun
    obtain ⟨rfl, rfl⟩ : h = h' ∧ [] = popped := by simpa [run] using hrun
    exact .rfl
  | cons call rest ih =>
    intro h h' popped hrun
    cases call with
    | push x =>
      have hpush := (push_perm h x).append_left (Call.pushed rest)
      exact (ih hrun).trans (hpush.trans List.perm_middle)
    | pop =>
      obtain ⟨x, h₁, xs, hpop, hrest, rfl⟩ := run_pop_eq_some.1 hrun
      have hback := ((pop?_perm hpop).append_left (Call.pushed rest)).trans List.perm_middle
      exact ((ih hrest).cons x).trans hback.symm

/-- What is popped in the first of the calls is popped first. -/
theorem run_append {before rest : List (Call α)} : ∀ {h h' : Heap α} {popped : List α},
    h.run (before ++ rest) = some (h', popped) →
      ∃ h₁ done left, h.run before = some (h₁, done) ∧ h₁.run rest = some (h', left) ∧
        popped = done ++ left := by
  induction before with
  | nil => exact fun {h h' popped} hrun => ⟨h, [], popped, rfl, hrun, rfl⟩
  | cons call before ih =>
    intro h h' popped hrun
    cases call with
    | push x => exact ih (h := h.push x) hrun
    | pop =>
      obtain ⟨x, h₁, xs, hpop, hrest, rfl⟩ := run_pop_eq_some.1 hrun
      obtain ⟨h₂, done, left, hdone, hleft, rfl⟩ := ih hrest
      exact ⟨h₂, x :: done, left, run_pop_eq_some.2 ⟨x, h₁, done, hpop, hdone, rfl⟩, hleft, rfl⟩

section

variable [IsStrictWeakOrder α (less · · = true)]

/-- Calls keep the items in order. -/
theorem Sound.run {calls : List (Call α)} : ∀ {h h' : Heap α} {popped : List α}, Sound less h →
    h.run calls = some (h', popped) → Sound less h' := by
  induction calls with
  | nil =>
    intro h h' popped hs hrun
    obtain ⟨rfl, -⟩ : h = h' ∧ [] = popped := by simpa [Heap.run] using hrun
    exact hs
  | cons call rest ih =>
    intro h h' popped hs hrun
    cases call with
    | push x => exact ih (hs.push x) hrun
    | pop =>
      obtain ⟨x, h₁, xs, hpop, hrest, -⟩ := run_pop_eq_some.1 hrun
      exact ih (hs.pop hpop).1 hrest

/-- Popping until nothing is left gives the items in order. -/
theorem Sound.drain : ∀ {n : Nat} {h : Heap α}, Sound less h → h.size = n →
    ∃ h' xs, h.run (List.replicate n .pop) = some (h', xs) ∧ h'.items = #[] ∧
      xs.Perm h.items.toList ∧ xs.Pairwise fun x y => less y x = false
  | 0, h, _, hn => by
    have hempty : h.items = #[] := Array.size_eq_zero_iff.1 hn
    exact ⟨h, [], rfl, hempty, by simp [hempty], .nil⟩
  | n + 1, h, hs, hn => by
    obtain ⟨x, h₁, hpop⟩ := exists_pop? (h := h) (by omega)
    obtain ⟨hs₁, hfirst⟩ := hs.pop hpop
    obtain ⟨h', xs, hrun, hempty, hperm, hsorted⟩ :=
      hs₁.drain (n := n) (by have := size_of_pop? hpop; omega)
    refine ⟨h', x :: xs, run_pop_eq_some.2 ⟨x, h₁, xs, hpop, hrun, rfl⟩, hempty,
      (hperm.cons x).trans (pop?_perm hpop).symm, .cons (fun y hy => ?_) hsorted⟩
    exact hfirst y (by simpa using hperm.mem_iff.1 hy)

end

/-- **A heap is a priority queue.** Let `less` be a strict weak order, and let
any calls be made from the empty heap on, items being popped only while there
are some. Then all of them can be made, and:
- after them, no item comes before the item at its parent's position;
- the items popped and the items left are together the items pushed;
- wherever an item is popped, no item that is left then comes before it;
- popping as often as there are items left leaves nothing, and gives the items
  that were left in order. -/
theorem calls_by_priority (less : α → α → Bool) [IsStrictWeakOrder α (less · · = true)]
    (calls : List (Call α)) (hcalls : Call.Fits 0 calls) :
    ∃ h popped, (empty less).run calls = some (h, popped) ∧
      (∀ (j : Nat) (x parent : α), 0 < j → h.items[j]? = some x →
        h.items[(j - 1) / 2]? = some parent → less x parent = false) ∧
      (popped ++ h.items.toList).Perm (Call.pushed calls) ∧
      (∀ before rest, calls = before ++ .pop :: rest → ∃ h₁ done x h₂,
        (empty less).run before = some (h₁, done) ∧ h₁.pop? = some (x, h₂) ∧
          done ++ [x] <+: popped ∧ ∀ y ∈ h₂.items, less y x = false) ∧
      ∃ h' xs, h.run (List.replicate h.size .pop) = some (h', xs) ∧ h'.items = #[] ∧
        xs.Perm h.items.toList ∧ xs.Pairwise fun x y => less y x = false := by
  have hempty : Sound less (empty less) := empty_sound
  obtain ⟨h, popped, hrun⟩ := run_of_fits (h := empty less) hcalls
  have hs := hempty.run hrun
  refine ⟨h, popped, hrun, fun j x p hj => hs.ordered j hj x p, ?_, fun before rest heq => ?_,
    hs.drain rfl⟩
  · simpa [empty] using run_perm hrun
  · rw [heq] at hrun
    obtain ⟨h₁, done, left, hbefore, hleft, rfl⟩ := run_append hrun
    obtain ⟨x, h₂, xs, hpop, -, rfl⟩ := run_pop_eq_some.1 hleft
    exact ⟨h₁, done, x, h₂, hbefore, hpop, ⟨xs, by simp⟩, ((hempty.run hbefore).pop hpop).2⟩

/-- Numbers by their tens, so that some are equal in the order. -/
def byTens (x y : Nat) : Bool := x / 10 < y / 10

theorem byTens_weak : IsStrictWeakOrder Nat (byTens · · = true) where
  irrefl x := by simp [byTens]
  trans x y z := by simp only [byTens, decide_eq_true_eq]; omega
  incomp_trans x y z := by simp only [byTens, decide_eq_true_eq]; omega

/-- Two equal items and a third one, of which one is popped before a fourth is
pushed. -/
theorem calls_by_priority_tens :
    IsStrictWeakOrder Nat (byTens · · = true) ∧
      Call.Fits 0 [Call.push 31, .push 12, .push 17, .pop, .push 5] ∧
      ∃ h popped, (empty byTens).run [.push 31, .push 12, .push 17, .pop, .push 5] =
          some (h, popped) ∧
        (popped ++ h.items.toList).Perm [31, 12, 17, 5] ∧
        ∃ h' xs, h.run (List.replicate h.size .pop) = some (h', xs) ∧ h'.items = #[] ∧
          xs.Perm h.items.toList ∧ xs.Pairwise fun x y => byTens y x = false := by
  have hfits : Call.Fits 0 [Call.push 31, .push 12, .push 17, .pop, .push 5] := trivial
  have := byTens_weak
  obtain ⟨h, popped, hrun, -, hperm, -, hdrain⟩ := calls_by_priority byTens _ hfits
  exact ⟨byTens_weak, hfits, h, popped, hrun, hperm, hdrain⟩

end Heap

end ScalarField
