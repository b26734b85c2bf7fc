import Mathlib

/-!
# Ownership of numbered cells

Places of some kind point to cells: `f a` is the cell that the place `a` points to, `0` if it points
to none. Cells below `lo` are reserved, those from `lo` up to `hi` can be handed out, and `used` is
the allocator's record of the ones that are taken. `Owns` says that the record is exact and that no
cell is pointed to twice.

## Main results

* `Owns.assign` — a free cell is handed out to a place
-/

variable {κ : Type*}

/-- No cell has two owners, and exactly the reserved cells and the owned ones are in use. -/
structure Owns (f : κ → ℕ) (used : ℕ → Prop) (lo hi : ℕ) : Prop where
  inj : ∀ {a b}, f a = f b → f a ≠ 0 → a = b
  range : ∀ {a}, f a ≠ 0 → lo ≤ f a ∧ f a < hi
  used_iff : ∀ {c}, c < hi → (used c ↔ c < lo ∨ ∃ a, f a = c ∧ c ≠ 0)

namespace Owns

variable {f g : κ → ℕ} {used used' : ℕ → Prop} {lo hi : ℕ}

theorem congr (h : Owns f used lo hi) (hf : ∀ a, g a = f a)
    (hused : ∀ c < hi, (used' c ↔ used c)) : Owns g used' lo hi := by
  obtain rfl : g = f := funext hf
  exact ⟨h.inj, h.range, fun hc => (hused _ hc).trans (h.used_iff hc)⟩

theorem used_of_ne_zero (h : Owns f used lo hi) {a : κ} (ha : f a ≠ 0) : used (f a) :=
  (h.used_iff (h.range ha).2).mpr (Or.inr ⟨a, rfl, ha⟩)

/-- A cell that is not in use has no owner. -/
theorem ne_of_not_used (h : Owns f used lo hi) {c : ℕ} (hc : ¬used c) (hne : c ≠ 0) (a : κ) :
    f a ≠ c := by
  rintro rfl
  exact hc (h.used_of_ne_zero hne)

theorem le_of_not_used (h : Owns f used lo hi) {c : ℕ} (hlt : c < hi) (hc : ¬used c) : lo ≤ c :=
  Nat.le_of_not_lt fun hlo => hc ((h.used_iff hlt).mpr (Or.inl hlo))

/-- **A free cell is handed out.** -/
theorem assign [DecidableEq κ] (h : Owns f used lo hi) {a : κ} {c : ℕ} (ha : f a = 0)
    (hlt : c < hi) (hc : ¬used c) (hlo : 0 < lo) (hg : ∀ b, g b = if b = a then c else f b)
    (hused : ∀ c' < hi, (used' c' ↔ used c' ∨ c' = c)) : Owns g used' lo hi := by
  have hle := h.le_of_not_used hlt hc
  have hc0 : c ≠ 0 := by omega
  refine ⟨fun {b b'} hbb hne => ?_, fun {b} hb => ?_, fun {c'} hc' => ?_⟩
  · rw [hg] at hne
    rw [hg, hg] at hbb
    split at hbb <;> split at hbb
    · rename_i h₁ h₂
      rw [h₁, h₂]
    · exact absurd hbb.symm (h.ne_of_not_used hc hc0 b')
    · exact absurd hbb (h.ne_of_not_used hc hc0 b)
    · rename_i h₁ _
      rw [if_neg h₁] at hne
      exact h.inj hbb hne
  · rw [hg] at hb ⊢
    split at hb
    · rename_i hba
      rw [if_pos hba]
      exact ⟨hle, hlt⟩
    · rename_i hba
      rw [if_neg hba]
      exact h.range hb
  · rw [hused c' hc', h.used_iff hc']
    constructor
    · rintro ((hlt' | ⟨b, hb, h0⟩) | rfl)
      · exact Or.inl hlt'
      · refine Or.inr ⟨b, ?_, h0⟩
        rw [hg, if_neg (by rintro rfl; exact h0 (hb.symm.trans ha)), hb]
      · exact Or.inr ⟨a, by rw [hg, if_pos rfl], hc0⟩
    · rintro (hlt' | ⟨b, hb, h0⟩)
      · exact Or.inl (Or.inl hlt')
      · rw [hg] at hb
        split at hb
        · exact Or.inr hb.symm
        · exact Or.inl (Or.inr ⟨b, hb, h0⟩)

end Owns
