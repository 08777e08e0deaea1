/-
Binary heaps: a list of items of which none comes before the item at its
parent's position, so that the first item is one that no other comes before.
-/
namespace ScalarField

/-- A heap of items in the order `less`. -/
structure Heap (α : Type) where
  less : α → α → Bool
  items : Array α

namespace Heap

variable {α : Type}

def empty (less : α → α → Bool) : Heap α := ⟨less, #[]⟩

def size (h : Heap α) : Nat := h.items.size

/-- Moves the item at `i` up while it comes before its parent. -/
def siftUp (less : α → α → Bool) (a : Array α) (i : Nat) : Array α :=
  if h : 0 < i ∧ i < a.size then
    have hi : i < a.size := h.2
    have hp : (i - 1) / 2 < a.size := by omega
    if less a[i] a[(i - 1) / 2] then siftUp less (a.swap i ((i - 1) / 2)) ((i - 1) / 2)
    else a
  else a
termination_by i
decreasing_by omega

/-- The child of `i` that comes first, if there is a child: the right one only
if it comes before the left one. -/
def firstChild (less : α → α → Bool) (a : Array α) (i : Nat) : Option (Fin a.size) :=
  if hl : 2 * i + 1 < a.size then
    if hr : 2 * i + 2 < a.size then
      if less a[2 * i + 2] a[2 * i + 1] then some ⟨2 * i + 2, hr⟩ else some ⟨2 * i + 1, hl⟩
    else some ⟨2 * i + 1, hl⟩
  else none

theorem lt_firstChild {less : α → α → Bool} {a : Array α} {i : Nat} {c : Fin a.size}
    (h : firstChild less a i = some c) : i < c.val := by
  unfold firstChild at h
  split at h
  · split at h
    · split at h <;> (cases h; simp only; omega)
    · cases h; simp only; omega
  · cases h

/-- Moves the item at `i` down while a child comes before it. -/
def siftDown (less : α → α → Bool) (a : Array α) (i : Nat) : Array α :=
  match h : firstChild less a i with
  | none => a
  | some c =>
    have hi : i < a.size := Nat.lt_trans (lt_firstChild h) c.isLt
    if less a[c] a[i] then siftDown less (a.swap i c) c else a
termination_by a.size - i
decreasing_by
  have h1 := lt_firstChild h
  have := c.isLt
  simp only [Array.size_swap]
  omega

/-- Adds an item. -/
def push (h : Heap α) (x : α) : Heap α :=
  { h with items := siftUp h.less (h.items.push x) h.items.size }

/-- Removes the first item, if there is one. -/
def pop? (h : Heap α) : Option (α × Heap α) :=
  match h.items[0]?, h.items.back? with
  | some top, some last =>
    let rest := h.items.pop
    some (top, { h with items :=
      if rest.isEmpty then rest else siftDown h.less (rest.setIfInBounds 0 last) 0 })
  | _, _ => none

end Heap

end ScalarField
