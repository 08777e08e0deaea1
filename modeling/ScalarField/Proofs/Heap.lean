/-
What a heap holds: sifting only moves items, so pushing adds one item and
popping removes the first.
-/
import Mathlib.Data.List.Perm.Basic
import ScalarField.Heap

namespace ScalarField

namespace Heap

variable {α : Type}

theorem siftUp_perm (less : α → α → Bool) (a : Array α) (i : Nat) : (siftUp less a i).Perm a := by
  fun_induction siftUp less a i with
  | case1 a i h hi hp hless ih => exact ih.trans (Array.swap_perm hi hp)
  | case2 => exact .rfl
  | case3 => exact .rfl

theorem siftDown_perm (less : α → α → Bool) (a : Array α) (i : Nat) :
    (siftDown less a i).Perm a := by
  fun_induction siftDown less a i with
  | case1 => exact .rfl
  | case2 a i c hc hi hless ih => exact ih.trans (Array.swap_perm hi c.isLt)
  | case3 => exact .rfl

theorem push_perm (h : Heap α) (x : α) : (h.push x).items.toList.Perm (x :: h.items.toList) := by
  have hsift := (siftUp_perm h.less (h.items.push x) h.items.size).toList
  rw [Array.toList_push] at hsift
  exact hsift.trans (List.perm_append_singleton x _)

theorem pop?_eq_none {h : Heap α} (hp : h.pop? = none) : h.items = #[] := by
  unfold pop? at hp
  split at hp
  · simp at hp
  · rename_i hne
    by_contra hitems
    have hpos : 0 < h.items.size := Array.size_pos_iff.2 hitems
    exact hne _ _ (Array.getElem?_eq_getElem hpos)
      (by rw [Array.back?, Array.getElem?_eq_getElem (by omega)])

theorem cons_replace_perm {a : Array α} {top last : α} (htop : a[0]? = some top)
    (hlast : a.back? = some last) (hne : ¬a.pop.isEmpty = true) :
    a.toList.Perm (top :: (a.pop.setIfInBounds 0 last).toList) := by
  obtain ⟨l⟩ := a
  obtain _ | ⟨x, rest⟩ := l
  · simp at htop
  obtain rfl : x = top := by simpa using htop
  obtain rfl | ⟨mid, y, rfl⟩ := rest.eq_nil_or_concat
  · simp at hne
  obtain rfl : y = last := by simpa [Array.back?] using hlast
  have hpop : (x :: mid.concat y).dropLast = x :: mid := by
    rw [List.concat_eq_append, ← List.cons_append, List.dropLast_concat]
  rw [Array.toList_setIfInBounds, Array.toList_pop, hpop, List.set_cons_zero,
    List.concat_eq_append]
  exact .cons x (List.perm_append_singleton y mid)

/-- Popping takes an item out of what the heap holds. -/
theorem pop?_perm {h h' : Heap α} {x : α} (hp : h.pop? = some (x, h')) :
    h.items.toList.Perm (x :: h'.items.toList) := by
  unfold pop? at hp
  split at hp
  · rename_i top last htop hlast
    simp only [Option.some.injEq, Prod.mk.injEq] at hp
    obtain ⟨rfl, rfl⟩ := hp
    by_cases hrest : h.items.pop.isEmpty = true
    · have hsize : h.items.size = 1 := by
        have hpos := (Array.getElem?_eq_some_iff.1 htop).1
        have hpop : h.items.pop.size = 0 := by simpa [Array.isEmpty] using hrest
        rw [Array.size_pop] at hpop
        omega
      obtain ⟨y, hy⟩ := Array.size_eq_one_iff.1 hsize
      obtain rfl : y = top := by simpa [hy] using htop
      simp [hy]
    · simp only [if_neg hrest]
      exact (cons_replace_perm htop hlast hrest).trans
        (.cons top (siftDown_perm h.less _ 0).toList.symm)
  · simp at hp

end Heap

end ScalarField
