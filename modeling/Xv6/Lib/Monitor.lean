import Xv6.Lib.Transition

/-!
# Monitors

Any number of threads run code on shared data that one lock protects. Inside the lock a thread may
change the data, wake the threads that sleep on a channel, go to sleep on a channel, which lets go
of the lock until the thread is woken and has it again, and leave. A thread may be marked at any
time, which wakes it if it sleeps; the code may look at the mark of the thread that runs it. Nothing
here mentions a particular monitor.

Waking the sleepers of a channel, and going to sleep together with letting go of the lock, are one
step each. A sleeper that has been woken competes for the lock like everybody else.

## Marked sleepers

Code that looks at the mark before it goes to sleep may still sleep with the mark set, because the
mark may be set between the look and the sleep. `WillWait` are the control points in between: from
there the code goes to sleep whatever the mark and the data are. If no thread is marked at such a
point then no thread sleeps marked (`unmarked_of_reach`), and a thread that is marked at such a
point goes to sleep with its mark (`WillWait.sleeps`).

## Main definitions

* `Code`, `State`, `Event`, `step` — a monitor and its executions
* `State.point`, `sleepers`, `View` — what a step does to the point of the thread that has the lock,
  to the data and to the channels on which somebody sleeps
* `Local` — a fact about single threads
* `WillWait`, `Looks` — where the code is bound to sleep, and that it looks at the mark before

## Main results

* `Exclusive.step` — one thread at a time is inside
* `View.of_step` — an invariant of point, data and sleepers is checked against the code alone
* `Local.step` — a fact about single threads is kept
* `unmarked_of_reach`, `WillWait.sleeps`
-/

namespace Monitor

open Transition

variable {τ σ κ χ ρ : Type*}

/-- What the code does next. -/
inductive Move (σ κ χ ρ : Type*)
  /-- Go on at another point, with other data. -/
  | go (k : κ) (d : σ)
  /-- Wake the sleepers of a channel. -/
  | wakeup (c : χ) (k : κ)
  /-- Sleep on a channel, and go on at `k` once woken. -/
  | wait (c : χ) (k : κ)
  /-- Let go of the lock and return. -/
  | leave (r : ρ) (d : σ)

/-- The code of a monitor: where a call may start, and what is done at each point by a thread with a
given mark. -/
structure Code (σ κ χ ρ : Type*) where
  entry : κ → σ → Bool
  next : Bool → κ → σ → Move σ κ χ ρ

/-- Where a thread is. -/
inductive Thread (κ χ ρ : Type*)
  /-- Outside, with the result of its last call. -/
  | out (r : Option ρ)
  /-- In need of the lock, to go on at `k`. -/
  | want (k : κ)
  /-- Inside the lock. -/
  | inside (k : κ)
  /-- Asleep on a channel, to go on at `k`. -/
  | asleep (c : χ) (k : κ)
  deriving DecidableEq

/-- The state of a monitor. -/
structure State (τ σ κ χ ρ : Type*) where
  lock : Option τ
  data : σ
  thread : τ → Thread κ χ ρ
  marked : τ → Bool

/-- The steps of a monitor. -/
inductive Event (τ κ : Type*)
  | call (t : τ) (k : κ)
  | enter (t : τ)
  | move (t : τ)
  | mark (t : τ)
  | renew (t : τ)

/-- A sleeper of channel `c` is woken. -/
def Thread.wake [DecidableEq χ] (c : χ) : Thread κ χ ρ → Thread κ χ ρ
  | .asleep c' k => if c' = c then .want k else .asleep c' k
  | th => th

/-- A sleeper is woken whatever it sleeps on. -/
def Thread.rouse : Thread κ χ ρ → Thread κ χ ρ
  | .asleep _ k => .want k
  | th => th

variable [DecidableEq τ] [DecidableEq χ]

namespace State

def setThread (s : State τ σ κ χ ρ) (t : τ) (th : Thread κ χ ρ) : State τ σ κ χ ρ :=
  { s with thread := Function.update s.thread t th }

/-- The thread `t`, inside the lock, makes a move. -/
def apply (s : State τ σ κ χ ρ) (t : τ) : Move σ κ χ ρ → State τ σ κ χ ρ
  | .go k d => { s with data := d }.setThread t (.inside k)
  | .wakeup c k => { s with thread := fun u => (s.thread u).wake c }.setThread t (.inside k)
  | .wait c k => { s with lock := none }.setThread t (.asleep c k)
  | .leave r d => { s with lock := none, data := d }.setThread t (.out (some r))

end State

/-- The executions of a monitor. -/
def step (C : Code σ κ χ ρ) (s : State τ σ κ χ ρ) : Event τ κ → Option (State τ σ κ χ ρ)
  | .call t k =>
    match s.thread t with
    | .out _ => if C.entry k s.data then some (s.setThread t (.want k)) else none
    | _ => none
  | .enter t =>
    match s.thread t with
    | .want k =>
      match s.lock with
      | none => some ({ s with lock := some t }.setThread t (.inside k))
      | some _ => none
    | _ => none
  | .move t =>
    match s.thread t with
    | .inside k => some (s.apply t (C.next (s.marked t) k s.data))
    | _ => none
  | .mark t =>
    some ({ s with marked := Function.update s.marked t true }.setThread t (s.thread t).rouse)
  | .renew t =>
    match s.thread t with
    | .out _ =>
      some ({ s with marked := Function.update s.marked t false }.setThread t (.out none))
    | _ => none

/-- All threads are outside and unmarked. -/
def init (d : σ) : State τ σ κ χ ρ :=
  { lock := none, data := d, thread := fun _ => .out none, marked := fun _ => false }

/-! ### Inversion and mutual exclusion -/

/-- What a step can do, and when. -/
inductive Step (C : Code σ κ χ ρ) (s : State τ σ κ χ ρ) : Event τ κ → State τ σ κ χ ρ → Prop
  | call (t k r) (ht : s.thread t = .out r) (he : C.entry k s.data = true) :
      Step C s (.call t k) (s.setThread t (.want k))
  | enter (t k) (ht : s.thread t = .want k) (hl : s.lock = none) :
      Step C s (.enter t) ({ s with lock := some t }.setThread t (.inside k))
  | move (t k) (ht : s.thread t = .inside k) :
      Step C s (.move t) (s.apply t (C.next (s.marked t) k s.data))
  | mark (t) :
      Step C s (.mark t)
        ({ s with marked := Function.update s.marked t true }.setThread t (s.thread t).rouse)
  | renew (t r) (ht : s.thread t = .out r) :
      Step C s (.renew t)
        ({ s with marked := Function.update s.marked t false }.setThread t (.out none))

theorem Step.of_step {C : Code σ κ χ ρ} {s s' : State τ σ κ χ ρ} {e : Event τ κ}
    (h : step C s e = some s') : Step C s e s' := by
  cases e with
  | call t k =>
    simp only [Monitor.step] at h
    split at h
    · next r ht =>
      obtain ⟨he, ⟨⟩⟩ := Option.ite_none_right_eq_some.mp h
      exact .call t k r ht he
    · cases h
  | enter t =>
    simp only [Monitor.step] at h
    split at h
    · next k ht =>
      split at h
      · next hl =>
        cases h
        exact .enter t k ht hl
      · cases h
    · cases h
  | move t =>
    simp only [Monitor.step] at h
    split at h
    · next k ht =>
      cases h
      exact .move t k ht
    · cases h
  | mark t =>
    cases h
    exact .mark t
  | renew t =>
    simp only [Monitor.step] at h
    split at h
    · next r ht =>
      cases h
      exact .renew t r ht
    · cases h

section Threads

variable {s : State τ σ κ χ ρ} {t u : τ} {th : Thread κ χ ρ} {c c' : χ} {k k' : κ}

@[simp] theorem Thread.wake_eq_inside : th.wake c = .inside k ↔ th = .inside k := by
  cases th with
  | asleep c' k' =>
    simp only [Thread.wake]
    split <;> simp
  | _ => rfl

@[simp] theorem Thread.wake_eq_asleep : th.wake c = .asleep c' k ↔ th = .asleep c' k ∧ c' ≠ c := by
  cases th with
  | asleep c₀ k' =>
    simp only [Thread.wake]
    split
    · next h =>
      subst h
      simp only [reduceCtorEq, Thread.asleep.injEq, false_iff, not_and, not_not]
      exact fun ⟨h, _⟩ => h.symm
    · next h =>
      refine ⟨fun h' => ⟨h', ?_⟩, And.left⟩
      cases h'
      exact h
  | _ => simp [Thread.wake]

omit [DecidableEq χ] in
@[simp] theorem Thread.rouse_eq_inside : th.rouse = .inside k ↔ th = .inside k := by
  cases th <;> simp [Thread.rouse]

omit [DecidableEq χ] in
@[simp] theorem Thread.rouse_ne_asleep : th.rouse ≠ .asleep c k := by
  cases th <;> simp [Thread.rouse]

omit [DecidableEq χ] in
@[simp] theorem State.lock_setThread : (s.setThread t th).lock = s.lock := rfl

omit [DecidableEq χ] in
@[simp] theorem State.data_setThread : (s.setThread t th).data = s.data := rfl

omit [DecidableEq χ] in
@[simp] theorem State.marked_setThread : (s.setThread t th).marked = s.marked := rfl

omit [DecidableEq χ] in
@[simp] theorem State.thread_setThread : (s.setThread t th).thread t = th :=
  Function.update_self ..

omit [DecidableEq χ] in
theorem State.thread_setThread_of_ne (h : u ≠ t) : (s.setThread t th).thread u = s.thread u :=
  Function.update_of_ne h ..

end Threads

/-- The thread that has the lock is the one inside. -/
def Exclusive (s : State τ σ κ χ ρ) : Prop := ∀ t k, s.thread t = .inside k → s.lock = some t

omit [DecidableEq τ] [DecidableEq χ] in
theorem Exclusive.eq {s : State τ σ κ χ ρ} (h : Exclusive s) {t u : τ} {k k' : κ}
    (ht : s.thread t = .inside k) (hu : s.thread u = .inside k') : u = t :=
  Option.some.inj ((h u k' hu).symm.trans (h t k ht))

/-- **Mutual exclusion.** -/
theorem Exclusive.step {C : Code σ κ χ ρ} {s s' : State τ σ κ χ ρ} {e : Event τ κ}
    (hs : Exclusive s) (h : step C s e = some s') : Exclusive s' := by
  intro u k' hu
  cases Step.of_step h with
  | call t k r ht he =>
    by_cases hut : u = t
    · subst hut
      rw [State.thread_setThread] at hu
      cases hu
    · exact hs u k' (by rwa [State.thread_setThread_of_ne hut] at hu)
  | enter t k ht hl =>
    by_cases hut : u = t
    · subst hut
      rfl
    · rw [State.thread_setThread_of_ne hut] at hu
      exact absurd ((hs u k' hu).symm.trans hl) (by simp)
  | move t k ht =>
    by_cases hut : u = t
    · subst hut
      cases hm : C.next (s.marked u) k s.data with
      | go k₁ d => exact hs u k ht
      | wakeup c k₁ => exact hs u k ht
      | wait c k₁ =>
        rw [hm, State.apply, State.thread_setThread] at hu
        cases hu
      | leave r d =>
        rw [hm, State.apply, State.thread_setThread] at hu
        cases hu
    · -- nobody but `t` is inside while `t` moves
      have hin : s.thread u = .inside k' := by
        cases hm : C.next (s.marked t) k s.data with
        | wakeup c k₁ =>
          rw [hm, State.apply, State.thread_setThread_of_ne hut] at hu
          exact Thread.wake_eq_inside.mp hu
        | _ => rwa [hm, State.apply, State.thread_setThread_of_ne hut] at hu
      exact absurd (hs.eq ht hin) hut
  | mark t =>
    by_cases hut : u = t
    · subst hut
      rw [State.thread_setThread] at hu
      exact hs u k' (Thread.rouse_eq_inside.mp hu)
    · exact hs u k' (by rwa [State.thread_setThread_of_ne hut] at hu)
  | renew t r ht =>
    by_cases hut : u = t
    · subst hut
      rw [State.thread_setThread] at hu
      cases hu
    · exact hs u k' (by rwa [State.thread_setThread_of_ne hut] at hu)

/-! ### The lock, the data and the sleepers -/

/-- The point of a thread inside the lock. -/
def Thread.point : Thread κ χ ρ → Option κ
  | .inside k => some k
  | _ => none

/-- The point of the thread that has the lock. -/
def State.point (s : State τ σ κ χ ρ) : Option κ := s.lock.bind fun t => (s.thread t).point

/-- The channels on which somebody sleeps. -/
def sleepers (thread : τ → Thread κ χ ρ) : Set χ := {c | ∃ t k, thread t = .asleep c k}

/-- Where a move leaves the thread, if it is still inside. -/
def Move.point : Move σ κ χ ρ → Option κ
  | .go k _ | .wakeup _ k => some k
  | .wait _ _ | .leave _ _ => none

/-- The data after a move. -/
def Move.data (d : σ) : Move σ κ χ ρ → σ
  | .go _ d' | .leave _ d' => d'
  | .wakeup _ _ | .wait _ _ => d

/-- The channels on which somebody sleeps after a move. -/
def Move.sleepers (A : Set χ) : Move σ κ χ ρ → Set χ
  | .wakeup c _ => A \ {c}
  | .wait c _ => insert c A
  | .go _ _ | .leave _ _ => A

/-- What a step does to the point of the thread that has the lock, to the data and to the channels
on which somebody sleeps. -/
inductive View (C : Code σ κ χ ρ) (s : State τ σ κ χ ρ) :
    Event τ κ → Option κ → σ → Set χ → Prop
  | quiet (e A) (he : ∀ t, e ≠ .move t) (hA : A ⊆ sleepers s.thread) :
      View C s e s.point s.data A
  | enter (t k) (ht : s.thread t = .want k) (hp : s.point = none) :
      View C s (.enter t) (some k) s.data (sleepers s.thread)
  | move (t k m) (ht : s.thread t = .inside k) (hp : s.point = some k)
      (hm : m = C.next (s.marked t) k s.data) :
      View C s (.move t) m.point (m.data s.data) (m.sleepers (sleepers s.thread))

section View

variable {C : Code σ κ χ ρ} {s s' : State τ σ κ χ ρ} {t : τ} {k : κ} {th : Thread κ χ ρ}

omit [DecidableEq τ] [DecidableEq χ] in
theorem Exclusive.point (h : Exclusive s) (ht : s.thread t = .inside k) : s.point = some k := by
  simp [State.point, h t k ht, ht, Thread.point]

omit [DecidableEq χ] in
theorem State.point_setThread (h : th.point = (s.thread t).point) :
    (s.setThread t th).point = s.point := by
  simp only [State.point, State.lock_setThread]
  congr 1
  funext u
  by_cases hu : u = t
  · subst hu
    rw [State.thread_setThread, h]
  · rw [State.thread_setThread_of_ne hu]

omit [DecidableEq χ] in
theorem mem_sleepers_update {f : τ → Thread κ χ ρ} {c : χ} :
    c ∈ sleepers (Function.update f t th) ↔
      (∃ k, th = .asleep c k) ∨ ∃ u k, u ≠ t ∧ f u = .asleep c k := by
  constructor
  · rintro ⟨u, k, hu⟩
    by_cases hut : u = t
    · subst hut
      rw [Function.update_self] at hu
      exact .inl ⟨k, hu⟩
    · rw [Function.update_of_ne hut] at hu
      exact .inr ⟨u, k, hut, hu⟩
  · rintro (⟨k, rfl⟩ | ⟨u, k, hut, hu⟩)
    · exact ⟨t, k, Function.update_self ..⟩
    · exact ⟨u, k, by rw [Function.update_of_ne hut, hu]⟩

omit [DecidableEq χ] in
/-- A thread that is not asleep makes no difference to who sleeps. -/
theorem sleepers_update {f : τ → Thread κ χ ρ} (h : ∀ c k, th ≠ .asleep c k)
    (hf : ∀ c k, f t ≠ .asleep c k) : sleepers (Function.update f t th) = sleepers f := by
  ext c
  rw [mem_sleepers_update]
  constructor
  · rintro (⟨k, hk⟩ | ⟨u, k, -, hu⟩)
    · exact absurd hk (h c k)
    · exact ⟨u, k, hu⟩
  · rintro ⟨u, k, hu⟩
    refine .inr ⟨u, k, ?_, hu⟩
    rintro rfl
    exact hf c k hu

/-- The sleepers after a move of a thread that is not one of them. -/
theorem sleepers_apply (hna : ∀ c k, s.thread t ≠ .asleep c k) (m : Move σ κ χ ρ) :
    sleepers (s.apply t m).thread = m.sleepers (sleepers s.thread) := by
  cases m with
  | go k d => exact sleepers_update (by simp) hna
  | leave r d => exact sleepers_update (by simp) hna
  | wakeup c k =>
    ext c'
    rw [State.apply, State.setThread, mem_sleepers_update]
    constructor
    · rintro (⟨k₁, ⟨⟩⟩ | ⟨u, k₁, -, hu⟩)
      obtain ⟨hu, hc⟩ := Thread.wake_eq_asleep.mp hu
      exact ⟨⟨u, k₁, hu⟩, hc⟩
    · rintro ⟨⟨u, k₁, hu⟩, hc⟩
      refine .inr ⟨u, k₁, ?_, Thread.wake_eq_asleep.mpr ⟨hu, hc⟩⟩
      rintro rfl
      exact hna c' k₁ hu
  | wait c k =>
    ext c'
    rw [State.apply, State.setThread, mem_sleepers_update, Move.sleepers, Set.mem_insert_iff]
    constructor
    · rintro (⟨k₁, ⟨⟩⟩ | ⟨u, k₁, -, hu⟩)
      · exact .inl rfl
      · exact .inr ⟨u, k₁, hu⟩
    · rintro (rfl | ⟨u, k₁, hu⟩)
      · exact .inl ⟨k, rfl⟩
      · refine .inr ⟨u, k₁, ?_, hu⟩
        rintro rfl
        exact hna c' k₁ hu

theorem point_apply (hl : s.lock = some t) (m : Move σ κ χ ρ) : (s.apply t m).point = m.point := by
  cases m <;> simp [State.apply, State.point, Thread.point, Move.point, hl]

theorem data_apply (t : τ) (m : Move σ κ χ ρ) : (s.apply t m).data = m.data s.data := by
  cases m <;> rfl

theorem View.of_step (hs : Exclusive s) {e : Event τ κ} (h : step C s e = some s') :
    View C s e s'.point s'.data (sleepers s'.thread) := by
  cases Step.of_step h with
  | call t k r ht he =>
    have hA : sleepers (Function.update s.thread t (.want k)) = sleepers s.thread :=
      sleepers_update (by simp) (by simp [ht])
    rw [State.point_setThread (by rw [ht]; rfl)]
    exact .quiet _ _ (by simp) hA.subset
  | enter t k ht hl =>
    have hp : s.point = none := by rw [State.point, hl]; rfl
    have hA : sleepers (Function.update s.thread t (.inside k)) = sleepers s.thread :=
      sleepers_update (by simp) (by simp [ht])
    rw [State.setThread, hA]
    simpa [State.point, Thread.point] using View.enter (C := C) t k ht hp
  | move t k ht =>
    rw [point_apply (hs t k ht), data_apply, sleepers_apply (by simp [ht])]
    exact .move t k _ ht (hs.point ht) rfl
  | mark t =>
    rw [State.point_setThread (by cases s.thread t <;> rfl)]
    refine .quiet _ _ (by simp) fun c hc => ?_
    obtain ⟨k, hk⟩ | ⟨u, k, -, hu⟩ := mem_sleepers_update.mp hc
    · exact absurd hk Thread.rouse_ne_asleep
    · exact ⟨u, k, hu⟩
  | renew t r ht =>
    have hA : sleepers (Function.update s.thread t (.out none)) = sleepers s.thread :=
      sleepers_update (by simp) (by simp [ht])
    rw [State.point_setThread (by simp [ht, Thread.point])]
    exact .quiet _ _ (by simp) hA.subset

end View

/-! ### Facts about single threads -/

/-- What has to be seen to of a fact `Q` about the mark and the place of a thread, in a state and
for an event, so that the step keeps it for all threads. -/
structure Local (C : Code σ κ χ ρ) (s : State τ σ κ χ ρ) (e : Event τ κ)
    (Q : Bool → Thread κ χ ρ → Prop) : Prop where
  call : ∀ {t k}, e = .call t k → C.entry k s.data = true → Q (s.marked t) (.want k)
  enter : ∀ {m k}, Q m (.want k) → Q m (.inside k)
  go : ∀ {m k d k' d'}, Q m (.inside k) → C.next m k d = .go k' d' → Q m (.inside k')
  wakeup : ∀ {m k d c k'}, Q m (.inside k) → C.next m k d = .wakeup c k' → Q m (.inside k')
  wait : ∀ {m k d c k'}, Q m (.inside k) → C.next m k d = .wait c k' → Q m (.asleep c k')
  out : ∀ {m r}, Q m (.out r)
  woken : ∀ {m c k}, Q m (.asleep c k) → Q m (.want k)
  mark : ∀ {t}, e = .mark t → Q (s.marked t) (s.thread t) → Q true (s.thread t).rouse

section Local

variable {C : Code σ κ χ ρ} {s s' : State τ σ κ χ ρ} {e : Event τ κ}
  {Q : Bool → Thread κ χ ρ → Prop}

omit [DecidableEq τ] in
theorem Local.wake (hC : Local C s e Q) {m : Bool} {th : Thread κ χ ρ} (h : Q m th) (c : χ) :
    Q m (th.wake c) := by
  cases th with
  | asleep c' k =>
    simp only [Thread.wake]
    split
    · exact hC.woken h
    · exact h
  | _ => exact h

omit [DecidableEq χ] in
/-- A fact about all threads after a change of one of them. -/
theorem forall_update {f : τ → Thread κ χ ρ} {m : τ → Bool} {t : τ} {b : Bool} {th : Thread κ χ ρ}
    (hf : ∀ u, Q (m u) (f u)) (ht : Q b th) (u : τ) :
    Q (Function.update m t b u) (Function.update f t th u) := by
  by_cases hu : u = t
  · subst hu
    rwa [Function.update_self, Function.update_self]
  · rw [Function.update_of_ne hu, Function.update_of_ne hu]
    exact hf u

omit [DecidableEq χ] in
theorem State.forall_setThread {t : τ} {th : Thread κ χ ρ} (hs : ∀ u, Q (s.marked u) (s.thread u))
    (ht : Q (s.marked t) th) (u : τ) : Q (s.marked u) ((s.setThread t th).thread u) := by
  simpa [State.setThread] using forall_update hs ht u (t := t)

theorem marked_apply (t : τ) (m : Move σ κ χ ρ) : (s.apply t m).marked = s.marked := by
  cases m <;> rfl

/-- **A fact about single threads is kept.** -/
theorem Local.step (hC : Local C s e Q) (hs : ∀ u, Q (s.marked u) (s.thread u))
    (h : Monitor.step C s e = some s') (u : τ) : Q (s'.marked u) (s'.thread u) := by
  cases Step.of_step h with
  | call t k r ht he => exact State.forall_setThread hs (hC.call rfl he) u
  | enter t k ht hl =>
    have hQ := hs t
    rw [ht] at hQ
    exact State.forall_setThread hs (hC.enter hQ) u
  | move t k ht =>
    have hQ := hs t
    rw [ht] at hQ
    rw [marked_apply]
    cases hm : C.next (s.marked t) k s.data with
    | go k' d => exact State.forall_setThread hs (hC.go hQ hm) u
    | wakeup c k' =>
      exact State.forall_setThread (s := { s with thread := fun u => (s.thread u).wake c })
        (fun u => hC.wake (hs u) c) (hC.wakeup hQ hm) u
    | wait c k' => exact State.forall_setThread hs (hC.wait hQ hm) u
    | leave r d => exact State.forall_setThread hs hC.out u
  | mark t => exact forall_update hs (hC.mark rfl (hs t)) u
  | renew t r ht => exact forall_update hs hC.out u

end Local

/-! ### Points from which a thread is bound to sleep -/

/-- From point `k` the code goes to sleep, whatever the mark and the data are. -/
inductive WillWait (C : Code σ κ χ ρ) : κ → Prop
  /-- It goes to sleep at once. -/
  | wait {k : κ} (c : χ) (k' : κ) (h : ∀ m d, C.next m k d = .wait c k') : WillWait C k
  /-- It wakes somebody and then goes to sleep. -/
  | wakeup {k : κ} (c : χ) (k' : κ) (h : ∀ m d, C.next m k d = .wakeup c k')
      (h' : WillWait C k') : WillWait C k

/-- The code looks at the mark on its way to sleep: the points `W` are those from which it is bound
to sleep, it sleeps nowhere else, it gets to such a point only without the mark, and it does not
start there. -/
structure Looks (C : Code σ κ χ ρ) (W : κ → Prop) : Prop where
  bound : ∀ {k}, W k → WillWait C k
  wait : ∀ {m k d c k'}, C.next m k d = .wait c k' → W k ∧ ¬ W k'
  go : ∀ {m k d k' d'}, C.next m k d = .go k' d' → W k' → m = false
  wakeup : ∀ {m k d c k'}, C.next m k d = .wakeup c k' → W k' → W k
  entry : ∀ {k d}, C.entry k d = true → ¬ W k

/-- No thread is marked inside the lock at one of the points `W`. -/
def MarkOutside (W : κ → Prop) (s : State τ σ κ χ ρ) : Event τ κ → Prop
  | .mark t => ∀ k, s.thread t = .inside k → ¬ W k
  | _ => True

/-- What holds of a thread with mark `m` if threads are marked in time. -/
def Thread.Ok (W : κ → Prop) (m : Bool) : Thread κ χ ρ → Prop
  | .out _ => True
  | .want k => ¬ W k
  | .inside k => W k → m = false
  | .asleep _ k => m = false ∧ ¬ W k

omit [DecidableEq τ] [DecidableEq χ] in
theorem Looks.toLocal {C : Code σ κ χ ρ} {W : κ → Prop} (hC : Looks C W) {s : State τ σ κ χ ρ}
    {e : Event τ κ} (hok : MarkOutside W s e) :
    Local C s e fun m (th : Thread κ χ ρ) => th.Ok W m where
  call _ he := hC.entry he
  enter h hk := absurd hk h
  go _ hm := hC.go hm
  wakeup h hm hk := h (hC.wakeup hm hk)
  wait h hm := ⟨h (hC.wait hm).1, (hC.wait hm).2⟩
  out := trivial
  woken h := h.2
  mark := by
    rintro t rfl h
    cases ht : s.thread t with
    | out r => trivial
    | want k => rw [ht] at h; exact h
    | inside k => exact fun hk => absurd hk (hok k ht)
    | asleep c k => rw [ht] at h; exact h.2

/-- **No marked sleepers**, if the code looks at the mark and threads are marked in time. -/
theorem unmarked_of_reach {C : Code σ κ χ ρ} {W : κ → Prop}
    (hC : Looks C W) {d : σ} {s : State τ σ κ χ ρ}
    (h : Reach (step C) (MarkOutside W) (init d) s) {t : τ} {c : χ} {k : κ}
    (ht : s.thread t = .asleep c k) : s.marked t = false := by
  have hok : ∀ u, (s.thread u).Ok W (s.marked u) :=
    h.induct (P := fun s => ∀ u, (s.thread u).Ok W (s.marked u)) (fun _ => trivial)
      fun _ _ _ ih hok hst => (hC.toLocal hok).step ih hst
  have := hok t
  rw [ht] at this
  exact this.1

/-- **Marked too late.** A thread that is bound to sleep does so with its mark. -/
theorem WillWait.sleeps {C : Code σ κ χ ρ} {k : κ} (h : WillWait C k) {s : State τ σ κ χ ρ} {t : τ}
    (ht : s.thread t = .inside k) (hm : s.marked t = true) :
    ∃ j s' c k', run (step C) s (List.replicate j (.move t)) = some s' ∧ s'.lock = none ∧
      s'.thread t = .asleep c k' ∧ s'.marked t = true := by
  induction h generalizing s with
  | @wait k c k' hw =>
    refine ⟨1, s.apply t (.wait c k'), c, k', ?_, rfl, by simp [State.apply, State.setThread], hm⟩
    simp [run, step, ht, hw]
  | @wakeup k c k' hw _ ih =>
    obtain ⟨j, s', c', k'', hrun, hl, hth, hm'⟩ := ih (s := s.apply t (.wakeup c k'))
      (by simp [State.apply, State.setThread]) hm
    refine ⟨j + 1, s', c', k'', ?_, hl, hth, hm'⟩
    rw [List.replicate_succ, run_cons]
    simpa [step, ht, hw] using hrun

end Monitor
