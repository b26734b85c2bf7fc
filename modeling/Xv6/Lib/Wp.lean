import Mathlib

/-!
# Weakest preconditions for programs with state and exceptions

A program of `EStateM ε σ α` runs from a state and either returns a value or stops with an
exception; in both cases there is a state at the end. `Wp x s Q E` says that `x`, run from `s`,
returns with `Q` or stops with `E`. There is one rule for each way to build a program.

## Main definitions

* `Wp` — the weakest precondition, at one state

## Main results

* `Wp.bind`, `Wp.mono` — sequencing and consequence
-/

universe u

variable {ε σ α β : Type u}

/-- Run from `s`, the program returns with `Q` or stops with `E`. -/
def Wp (x : EStateM ε σ α) (s : σ) (Q : α → σ → Prop) (E : ε → σ → Prop) : Prop :=
  match x s with
  | .ok a s' => Q a s'
  | .error e s' => E e s'

namespace Wp

variable {x : EStateM ε σ α} {s : σ} {Q Q' : α → σ → Prop} {E E' : ε → σ → Prop}

theorem of_ok {a : α} {s' : σ} (h : x s = .ok a s') : Wp x s Q E ↔ Q a s' := by
  rw [Wp, h]

theorem of_error {e : ε} {s' : σ} (h : x s = .error e s') : Wp x s Q E ↔ E e s' := by
  rw [Wp, h]

/-- A program without bad ends ends well. -/
theorem ok (h : Wp x s Q fun _ _ => False) : ∃ a s', x s = .ok a s' ∧ Q a s' := by
  cases hx : x s with
  | ok a s' => exact ⟨a, s', rfl, (of_ok hx).mp h⟩
  | error e s' => exact ((of_error hx).mp h).elim

/-- **Consequence.** -/
theorem mono (h : Wp x s Q E) (hQ : ∀ a s', Q a s' → Q' a s') (hE : ∀ e s', E e s' → E' e s') :
    Wp x s Q' E' := by
  unfold Wp at *
  split <;> rename_i heq <;> rw [heq] at h
  · exact hQ _ _ h
  · exact hE _ _ h

/-- What holds of a program's ends under two specifications holds together. -/
theorem and (h : Wp x s Q E) (h' : Wp x s Q' E') :
    Wp x s (fun a s' => Q a s' ∧ Q' a s') fun e s' => E e s' ∧ E' e s' := by
  unfold Wp at *
  split <;> rename_i heq <;> rw [heq] at h h' <;> exact ⟨h, h'⟩

end Wp

variable {s : σ} {Q : α → σ → Prop} {E : ε → σ → Prop}

/-! ### The rules -/

@[simp] theorem wp_pure (a : α) : Wp (pure a : EStateM ε σ α) s Q E ↔ Q a s := Iff.rfl

@[simp] theorem wp_bind (x : EStateM ε σ β) (f : β → EStateM ε σ α) :
    Wp (x >>= f) s Q E ↔ Wp x s (fun b s' => Wp (f b) s' Q E) E := by
  unfold Wp
  change (match EStateM.bind x f s with | .ok a s' => Q a s' | .error e s' => E e s') ↔ _
  rw [EStateM.bind]
  split <;> rename_i heq
  · split at heq <;> simp_all
  · split at heq <;> simp_all

@[simp] theorem wp_get {Q : σ → σ → Prop} : Wp (get : EStateM ε σ σ) s Q E ↔ Q s s := Iff.rfl

@[simp] theorem wp_modify {Q : PUnit → σ → Prop} (f : σ → σ) :
    Wp (modify f : EStateM ε σ PUnit) s Q E ↔ Q ⟨⟩ (f s) := Iff.rfl

@[simp] theorem wp_throw (e : ε) : Wp (throw e : EStateM ε σ α) s Q E ↔ E e s := Iff.rfl

theorem wp_ite {c : Prop} [Decidable c] {x y : EStateM ε σ α} :
    Wp (if c then x else y) s Q E ↔ (c → Wp x s Q E) ∧ (¬c → Wp y s Q E) := by
  by_cases hc : c <;> simp [hc]

/-- **Sequencing**, with a specification of the first part. -/
theorem Wp.bind {x : EStateM ε σ β} {f : β → EStateM ε σ α} {R : β → σ → Prop} {F : ε → σ → Prop}
    (hx : Wp x s R F) (hf : ∀ b s', R b s' → Wp (f b) s' Q E) (hE : ∀ e s', F e s' → E e s') :
    Wp (x >>= f) s Q E :=
  (wp_bind x f).mpr (hx.mono hf hE)
