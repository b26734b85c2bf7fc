import Xv6.Lib.Wp

/-!
# Programs with a log

A program can be written once more with notes of what it does, in a log beside its state. The log
does not influence the program: without it the two are the same. So what is proved of the program
with the log also holds of the program itself.

## Main definitions

* `Ghost.lift`, `Ghost.note` — a program without notes, and a note
* `Ghost.Erases` — without its log, the first program is the second one
* `Ghost.log` — the log of a run

## Main results

* `Ghost.Erases.wp` — a specification of the program with the log is one of the program itself
-/

namespace Ghost

universe u

variable {ε σ γ α β : Type u}

/-- Programs on states with a log. -/
abbrev Logged (ε σ γ α : Type u) := EStateM ε (σ × List γ) α

/-- A program that leaves no notes. -/
def lift (x : EStateM ε σ α) : Logged ε σ γ α := fun s =>
  match x s.1 with
  | .ok a s' => .ok a (s', s.2)
  | .error e s' => .error e (s', s.2)

/-- A note. -/
def note (g : γ) : Logged ε σ γ PUnit := modify fun s => (s.1, s.2 ++ [g])

/-- The log of a run from an empty log, whether it ends well or not. -/
def log (y : Logged ε σ γ α) (s : σ) : List γ :=
  match y (s, []) with
  | .ok _ s' => s'.2
  | .error _ s' => s'.2

/-- Without its log, `y` is `x`; and `y` only adds to the log. -/
def Erases (y : Logged ε σ γ α) (x : EStateM ε σ α) : Prop :=
  ∀ s l, Wp y (s, l) (fun a s' => x s = .ok a s'.1 ∧ l ⊆ s'.2)
    fun e s' => x s = .error e s'.1 ∧ l ⊆ s'.2

variable {s : σ} {l : List γ}

@[simp] theorem wp_lift {x : EStateM ε σ α} {Q : α → σ × List γ → Prop}
    {E : ε → σ × List γ → Prop} :
    Wp (lift x) (s, l) Q E ↔ Wp x s (fun a s' => Q a (s', l)) fun e s' => E e (s', l) := by
  rw [Wp, Wp, lift]
  cases x s <;> exact Iff.rfl

@[simp] theorem wp_note {g : γ} {Q : PUnit → σ × List γ → Prop} {E : ε → σ × List γ → Prop} :
    Wp (note g) (s, l) Q E ↔ Q ⟨⟩ (s, l ++ [g]) := Iff.rfl

/-- What all ends of a run from an empty log have in common. -/
theorem log_of_wp {y : Logged ε σ γ α} {P : List γ → Prop}
    (h : Wp y (s, []) (fun _ s' => P s'.2) fun _ s' => P s'.2) : P (log y s) := by
  rw [Wp] at h
  rw [log]
  split at h <;> rename_i heq <;> rw [heq] <;> exact h

namespace Erases

theorem pure (a : α) : Erases (pure a : Logged ε σ γ α) (pure a) :=
  fun _ l => ⟨rfl, List.Subset.refl l⟩

theorem throw (e : ε) : Erases (throw e : Logged ε σ γ α) (throw e) :=
  fun _ l => ⟨rfl, List.Subset.refl l⟩

theorem lift (x : EStateM ε σ α) : Erases (lift x : Logged ε σ γ α) x := fun s l => by
  rw [wp_lift, Wp]
  split <;> exact ⟨by assumption, List.Subset.refl l⟩

theorem bind {y : Logged ε σ γ β} {x : EStateM ε σ β} {g : β → Logged ε σ γ α}
    {f : β → EStateM ε σ α} (h : Erases y x) (hf : ∀ b, Erases (g b) (f b)) :
    Erases (y >>= g) (x >>= f) := by
  intro s l
  have hbind : (x >>= f) s = EStateM.bind x f s := rfl
  refine (h s l).bind (fun b s' hx => ?_) fun e s' hx => ?_
  · refine (hf b s'.1 s'.2).mono (fun a t ht => ?_) fun e t ht => ?_
    · rw [hbind, EStateM.bind, hx.1]
      exact ⟨ht.1, List.Subset.trans hx.2 ht.2⟩
    · rw [hbind, EStateM.bind, hx.1]
      exact ⟨ht.1, List.Subset.trans hx.2 ht.2⟩
  · rw [hbind, EStateM.bind, hx.1]
    exact ⟨rfl, hx.2⟩

/-- A note does not count. -/
theorem note_bind {g : γ} {y : Logged ε σ γ α} {x : EStateM ε σ α} (h : Erases y x) :
    Erases (note g >>= fun _ => y) x := fun s l => by
  have hsub : l ⊆ l ++ [g] := List.subset_append_left l [g]
  refine (wp_bind _ _).mpr ((h s (l ++ [g])).mono (fun a t ht => ?_) fun e t ht => ?_)
  · exact ⟨ht.1, List.Subset.trans hsub ht.2⟩
  · exact ⟨ht.1, List.Subset.trans hsub ht.2⟩

theorem ite {c : Prop} [Decidable c] {y y' : Logged ε σ γ α} {x x' : EStateM ε σ α}
    (h : Erases y x) (h' : Erases y' x') : Erases (if c then y else y') (if c then x else x') := by
  split
  · exact h
  · exact h'

/-- **Specifications** without the log. -/
theorem wp {y : Logged ε σ γ α} {x : EStateM ε σ α} (h : Erases y x)
    {Q : α → σ → Prop} {E : ε → σ → Prop}
    (hy : Wp y (s, l) (fun a s' => Q a s'.1) fun e s' => E e s'.1) : Wp x s Q E := by
  have := h s l
  rw [Wp] at this hy ⊢
  split at this <;> rename_i heq <;> rw [heq] at hy <;> rw [this.1] <;> exact hy

end Erases

end Ghost
