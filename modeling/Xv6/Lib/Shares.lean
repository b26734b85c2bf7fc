import Mathlib

/-!
# Shares of a pool

The elements of a pool are divided into shares `g i`, one for each `i` of a finite set. If nothing
occurs twice in the sum of the shares then every element lies in one share only, and a change of a
single share changes the sum by the difference. Nothing here mentions what is divided.

## Main results

* `Shares.index_unique` — no element lies in two shares
* `Shares.sum_change` — one share is exchanged
* `Shares.card_update` — how often a function takes a value, after a change at one point
-/

namespace Shares

variable {ι α : Type*} [DecidableEq ι] {s : Finset ι} {g h : ι → Multiset α} {i j : ι} {a : α}

omit [DecidableEq ι] in
theorem mem_sum : a ∈ ∑ i ∈ s, g i ↔ ∃ i ∈ s, a ∈ g i := Multiset.mem_sum

/-- No element lies in two shares. -/
theorem index_unique (hnodup : (∑ i ∈ s, g i).Nodup) (hi : i ∈ s) (hj : j ∈ s) (ha : a ∈ g i)
    (ha' : a ∈ g j) : i = j := by
  by_contra hne
  rw [← Finset.add_sum_erase s g hi] at hnodup
  have hdisj := (Multiset.nodup_add.mp hnodup).2.2
  exact Multiset.disjoint_left.mp hdisj ha
    (mem_sum.mpr ⟨j, Finset.mem_erase.mpr ⟨fun h => hne h.symm, hj⟩, ha'⟩)

/-- One share is exchanged. -/
theorem sum_change (hi : i ∈ s) (heq : ∀ j ∈ s, j ≠ i → h j = g j) :
    ∑ j ∈ s, h j + g i = ∑ j ∈ s, g j + h i := by
  rw [← Finset.add_sum_erase s g hi, ← Finset.add_sum_erase s h hi,
    Finset.sum_congr rfl fun j hj => heq j (Finset.mem_of_mem_erase hj) (Finset.ne_of_mem_erase hj)]
  abel

/-- A function is changed at one point, and `a` is counted among its values. -/
theorem card_update {ι β : Type*} [Fintype ι] [DecidableEq ι] [DecidableEq β] (f : ι → β) (i : ι)
    (b a : β) : ((Finset.univ.filter fun j => Function.update f i b j = a).card : ℤ) =
      (Finset.univ.filter fun j => f j = a).card + (if b = a then 1 else 0) -
        (if f i = a then 1 else 0) := by
  have hrest : ∀ j ∈ Finset.univ.erase i, (if Function.update f i b j = a then (1 : ℤ) else 0) =
      if f j = a then 1 else 0 := fun j hj => by
    rw [Function.update_of_ne (Finset.ne_of_mem_erase hj)]
  rw [Finset.natCast_card_filter, Finset.natCast_card_filter,
    ← Finset.add_sum_erase _ _ (Finset.mem_univ i), ← Finset.add_sum_erase _ _ (Finset.mem_univ i),
    Finset.sum_congr rfl hrest, Function.update_self]
  abel

theorem card_eq_zero {ι β : Type*} [Fintype ι] [DecidableEq β] {f : ι → β} {a : β} :
    (Finset.univ.filter fun j => f j = a).card = 0 ↔ ∀ j, f j ≠ a := by
  rw [Finset.card_eq_zero, Finset.filter_eq_empty_iff]
  exact ⟨fun h j => h (Finset.mem_univ j), fun h j _ => h j⟩

end Shares
