import Mathlib

/-!
# Copying within an array

A stretch of an array is copied to another place in the same array, one element at a time. What an
element is copied from may have been overwritten before, so the direction of the loop matters.

## Main definitions

* `Copies` — the stretch has arrived, and nothing else has changed
* `copyUp`, `copyDown` — the two loops

## Main results

* `copies_copyDown` — copying downwards is right if the stretch moves up
* `copies_copyUp_iff` — when copying upwards is right
-/

namespace Copy

variable {α : Type*} {f g : ℕ → α} {d s n k : ℕ}

/-- The elements from `s` on have been copied to `d`, and no other place has changed. -/
structure Copies (f g : ℕ → α) (d s n : ℕ) : Prop where
  copied : ∀ k < n, g (d + k) = f (s + k)
  kept : ∀ a, a < d ∨ d + n ≤ a → g a = f a

theorem Copies.unique {g' : ℕ → α} (h : Copies f g d s n) (h' : Copies f g' d s n) : g = g' := by
  funext a
  by_cases ha : a < d ∨ d + n ≤ a
  · rw [h.kept a ha, h'.kept a ha]
  · obtain ⟨k, rfl⟩ := Nat.exists_eq_add_of_le (show d ≤ a by omega)
    rw [h.copied k (by omega), h'.copied k (by omega)]

/-- Nothing is copied: that is right if the elements are the same already. -/
theorem copies_self_iff : Copies f f d s n ↔ ∀ k < n, f (d + k) = f (s + k) :=
  ⟨Copies.copied, fun h => ⟨h, fun _ _ => rfl⟩⟩

/-! ### The loops -/

/-- Copy `n` elements, the first one first. -/
def copyUp : ℕ → (ℕ → α) → ℕ → ℕ → ℕ → α
  | 0, f, _, _ => f
  | n + 1, f, d, s => copyUp n (Function.update f d (f s)) (d + 1) (s + 1)

/-- Copy `n` elements, the last one first. -/
def copyDown : ℕ → (ℕ → α) → ℕ → ℕ → ℕ → α
  | 0, f, _, _ => f
  | n + 1, f, d, s => copyDown n (Function.update f (d + n) (f (s + n))) d s

theorem copyUp_kept {a : ℕ} (ha : a < d ∨ d + n ≤ a) : copyUp n f d s a = f a := by
  induction n generalizing f d s with
  | zero => rfl
  | succ n ih =>
    have hne : a ≠ d := by omega
    rw [copyUp, ih (by omega), Function.update_of_ne hne]

/-- What is copied down has not been overwritten if it comes from below. -/
theorem copies_copyDown (h : s ≤ d) : Copies f (copyDown n f d s) d s n := by
  induction n generalizing f with
  | zero => exact ⟨fun k hk => absurd hk (Nat.not_lt_zero k), fun _ _ => rfl⟩
  | succ n ih =>
    have hrest := ih (f := Function.update f (d + n) (f (s + n)))
    rw [copyDown]
    refine ⟨fun k hk => ?_, fun a ha => ?_⟩
    · rcases Nat.lt_succ_iff_lt_or_eq.mp hk with hlt | rfl
      · have hne : s + k ≠ d + n := by omega
        rw [hrest.copied k hlt, Function.update_of_ne hne]
      · rw [hrest.kept (d + k) (.inr (Nat.le_refl _)), Function.update_self]
    · have hne : a ≠ d + n := by omega
      rw [hrest.kept a (by omega), Function.update_of_ne hne]

/-- An element that is copied up comes from the array as it was, or is one that has arrived
before. -/
theorem copyUp_copied (hk : k < n) : copyUp n f d s (d + k) =
    if d ≤ s + k ∧ s < d then copyUp n f d s (s + k) else f (s + k) := by
  induction n generalizing f d s k with
  | zero => exact absurd hk (Nat.not_lt_zero k)
  | succ n ih =>
    rw [copyUp]
    cases k with
    | zero =>
      have hnot : ¬ (d ≤ s + 0 ∧ s < d) := by omega
      have hbelow : d + 0 < d + 1 := Nat.lt_succ_self d
      rw [if_neg hnot, copyUp_kept (.inl hbelow)]
      exact Function.update_self ..
    | succ k =>
      have hd : d + (k + 1) = d + 1 + k := by omega
      have hs : s + (k + 1) = s + 1 + k := by omega
      rw [hd, hs, ih (Nat.lt_of_succ_lt_succ hk)]
      by_cases hnew : d + 1 ≤ s + 1 + k ∧ s + 1 < d + 1
      · rw [if_pos hnew, if_pos (by omega)]
      · rw [if_neg hnew]
        by_cases hfirst : s + 1 + k = d
        · rw [hfirst, if_pos (by omega), copyUp_kept (.inl (Nat.lt_succ_self d))]
        · rw [if_neg (by omega), Function.update_of_ne hfirst]

/-- **Copying upwards** is right if the stretch does not move up into itself, or if what it
overwrites before it is copied does not differ from what comes there. -/
theorem copies_copyUp_iff : Copies f (copyUp n f d s) d s n ↔
    (s < d → ∀ k, d - s + k < n → f (d + k) = f (s + k)) := by
  constructor
  · intro h hlt k hk
    have hagain := copyUp_copied (f := f) (d := d) (s := s) hk
    have hsum : s + (d - s + k) = d + k := by omega
    rw [hsum, if_pos (by omega), h.copied _ hk, hsum, h.copied k (by omega)] at hagain
    exact hagain
  · intro h
    refine ⟨fun k => ?_, fun a ha => copyUp_kept ha⟩
    induction k using Nat.strongRecOn with
    | _ k ih =>
      intro hk
      rw [copyUp_copied hk]
      split
      · next hnew =>
        obtain ⟨j, hj⟩ := Nat.exists_eq_add_of_le hnew.1
        rw [hj, ih j (by omega) (by omega)]
        exact (h hnew.2 j (by omega)).symm
      · rfl

end Copy
