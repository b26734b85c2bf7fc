import Mathlib

/-!
# Event-driven transition systems

A system is a partial function `step : σ → ε → Option σ`: the state an event leads to, or `none`
when the event is not enabled. Nothing here mentions a particular system.

Two ways of speaking about executions are needed. `run` executes an explicit list of events, which
is what one wants when the events themselves are counted or when a concrete execution is exhibited.
`Reach` forgets the events but remembers a side condition `ok` that every step had to meet, which is
what one wants for an invariant. `Reach.of_run` goes from the first to the second. `Trace` keeps
both, for statements about what has happened in a run, and `record` is what a run has put out.

## Main results

* `run_append` — executions compose
* `run_induct` — induction along an execution
* `record_snoc` — one more step puts out one more output
* `Reach.induct` — an invariant of the initial state kept by every allowed step holds in every
  state reached
* `Trace.run`, `Trace.reach` — a trace is a run, and its last state is reached
-/

namespace Transition

variable {σ ε : Type*} (step : σ → ε → Option σ)

/-- Execute a list of events, giving up at the first one that is not enabled. -/
def run : σ → List ε → Option σ
  | s, [] => some s
  | s, e :: es => (step s e).bind fun s' => run s' es

@[simp] theorem run_nil (s : σ) : run step s [] = some s := rfl

theorem run_cons (s : σ) (e : ε) (es : List ε) :
    run step s (e :: es) = (step s e).bind fun s' => run step s' es := rfl

theorem run_append (s : σ) (es fs : List ε) :
    run step s (es ++ fs) = (run step s es).bind fun s' => run step s' fs := by
  induction es generalizing s with
  | nil => rfl
  | cons e es ih =>
    rw [List.cons_append, run_cons, run_cons]
    cases h : step s e with
    | none => rfl
    | some s' => simpa using ih s'

theorem run_cons_eq_some {s t : σ} {e : ε} {es : List ε} :
    run step s (e :: es) = some t ↔ ∃ s', step s e = some s' ∧ run step s' es = some t := by
  rw [run_cons, Option.bind_eq_some_iff]

theorem run_append_eq_some {s t : σ} {es fs : List ε} :
    run step s (es ++ fs) = some t ↔
      ∃ s', run step s es = some s' ∧ run step s' fs = some t := by
  rw [run_append, Option.bind_eq_some_iff]

/-- A check of the state that a run ends in, for runs that are simply executed. -/
theorem exists_of_any (s : σ) (es : List ε) (P : σ → Prop) [DecidablePred P]
    (h : ((run step s es).any fun t => decide (P t)) = true) :
    ∃ t, run step s es = some t ∧ P t := by
  cases hr : run step s es with
  | none => rw [hr] at h; cases h
  | some t => rw [hr] at h; exact ⟨t, rfl, of_decide_eq_true h⟩

/-- What a run puts out: the outputs of its steps one after the other. -/
def record {α : Type*} (out : σ → ε → List α) : σ → List ε → List α
  | _, [] => []
  | s, e :: es => out s e ++ (step s e).elim [] fun s' => record out s' es

theorem record_snoc {α : Type*} (out : σ → ε → List α) {s t : σ} {es : List ε}
    (hr : run step s es = some t) (e : ε) :
    record step out s (es ++ [e]) = record step out s es ++ out t e := by
  induction es generalizing s with
  | nil =>
    cases hr
    cases h : step t e with
    | none => simp [record, h]
    | some s' => simp [record, h]
  | cons e' es ih =>
    obtain ⟨s', hs, hr⟩ := (run_cons_eq_some step).mp hr
    simp only [List.cons_append, record, hs, Option.elim_some, List.append_assoc, ih hr]

/-- The states reached from `init` by steps that all meet `ok` in the state they start from. -/
inductive Reach (ok : σ → ε → Prop) (init : σ) : σ → Prop
  /-- The initial state is reached. -/
  | init : Reach ok init init
  /-- An allowed step from a reached state reaches its result. -/
  | step {s s' : σ} {e : ε} : Reach ok init s → ok s e → step s e = some s' → Reach ok init s'

/-- The runs from `init` whose steps all meet `ok`, with their events. -/
inductive Trace (ok : σ → ε → Prop) (init : σ) : List ε → σ → Prop
  /-- The empty run. -/
  | nil : Trace ok init [] init
  /-- A run may go on with any allowed step. -/
  | snoc {es : List ε} {s s' : σ} {e : ε} :
      Trace ok init es s → ok s e → step s e = some s' → Trace ok init (es ++ [e]) s'

variable {step}

/-- **Induction along a run**, one event at a time at its end. -/
theorem run_induct {P : List ε → σ → Prop} {s t : σ} {es : List ε} (hr : run step s es = some t)
    (h0 : P [] s) (hs : ∀ es e t t', P es t → step t e = some t' → P (es ++ [e]) t') : P es t := by
  induction es using List.reverseRecOn generalizing t with
  | nil => cases hr; exact h0
  | append_singleton es e ih =>
    obtain ⟨t', h₁, h₂⟩ := (run_append_eq_some _).mp hr
    obtain ⟨t'', hst, hnil⟩ := (run_cons_eq_some _).mp h₂
    cases hnil
    exact hs es e t' t (ih h₁) hst

/-- Induction along a run together with two records of it. -/
theorem record_induct₂ {α β : Type*} {out : σ → ε → List α} {out' : σ → ε → List β}
    {P : List α → List β → σ → Prop} {s t : σ} {es : List ε} (hr : run step s es = some t)
    (h0 : P [] [] s)
    (hs : ∀ l l' e t t', P l l' t → step t e = some t' → P (l ++ out t e) (l' ++ out' t e) t') :
    P (record step out s es) (record step out' s es) t := by
  have h := run_induct (P := fun es t => run step s es = some t ∧
    P (record step out s es) (record step out' s es) t) hr ⟨rfl, h0⟩ ?_
  · exact h.2
  · rintro es e t t' ⟨hr, hP⟩ hst
    refine ⟨?_, ?_⟩
    · rw [run_append, hr, Option.bind_some, run_cons, hst]
      rfl
    · rw [record_snoc step out hr, record_snoc step out' hr]
      exact hs _ _ e t t' hP hst

/-- **The invariant rule.** -/
theorem Reach.induct {ok : σ → ε → Prop} {init s : σ} {P : σ → Prop} (h : Reach step ok init s)
    (h0 : P init) (hs : ∀ s e s', P s → ok s e → step s e = some s' → P s') : P s := by
  induction h with
  | init => exact h0
  | step _ hok hst ih => exact hs _ _ _ ih hok hst

theorem Reach.mono {ok ok' : σ → ε → Prop} {init s : σ} (h : Reach step ok init s)
    (himp : ∀ s e, ok s e → ok' s e) : Reach step ok' init s := by
  induction h with
  | init => exact .init
  | step _ hok hst ih => exact .step ih (himp _ _ hok) hst

/-- A run whose events are allowed in every state stays inside `Reach`. -/
theorem Reach.of_run {ok : σ → ε → Prop} {init s t : σ} (es : List ε) (h : Reach step ok init s)
    (hok : ∀ e ∈ es, ∀ s, ok s e) (hr : run step s es = some t) : Reach step ok init t := by
  induction es generalizing s with
  | nil => cases hr; exact h
  | cons e es ih =>
    obtain ⟨s', hs, hr⟩ := (run_cons_eq_some step).mp hr
    exact ih (.step h (hok e (List.mem_cons_self ..) s) hs)
      (fun e he => hok e (List.mem_cons_of_mem _ he)) hr

theorem reach_of_run {init s : σ} {es : List ε} (hr : run step init es = some s) :
    Reach step (fun _ _ => True) init s :=
  .of_run es .init (fun _ _ _ => trivial) hr

theorem Trace.run {ok : σ → ε → Prop} {init s : σ} {es : List ε} (h : Trace step ok init es s) :
    Transition.run step init es = some s := by
  induction h with
  | nil => rfl
  | snoc _ _ hst ih => rw [run_append, ih, Option.bind_some, run_cons, hst]; rfl

/-- A run in which `ok` is tested before every step is a trace. -/
theorem Trace.of_run_ite {ok : σ → ε → Prop} [∀ s e, Decidable (ok s e)] {init s : σ} {es : List ε}
    (h : Transition.run (fun s e => if ok s e then step s e else none) init es = some s) :
    Trace step ok init es s := by
  refine run_induct (P := Trace step ok init) h .nil fun es e t t' ih hst => ?_
  obtain ⟨hok, hst⟩ := Option.ite_none_right_eq_some.mp hst
  exact .snoc ih hok hst

theorem Trace.reach {ok : σ → ε → Prop} {init s : σ} {es : List ε} (h : Trace step ok init es s) :
    Reach step ok init s := by
  induction h with
  | nil => exact .init
  | snoc _ hok hst ih => exact .step ih hok hst

end Transition
