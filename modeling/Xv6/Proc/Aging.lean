import Xv6.Proc.Pids

/-!
# Aging

Nothing in the kernel improves the priority of a process because it has been waiting. The priority
of a process that stays `RUNNABLE` is written by two operations only: by the feedback of the CPU
that the process has just left, if the wait starts before that, and by a `setpriority` of some other
process that happens to have the same pid and comes later in the table. Whatever the last of these
writes stores is the priority at the end of the wait; without one, the priority at the end is the
priority at the start, however often `ticks` advances.

## Main definitions

* `StaysRunnable` — a process waits all through a run
* `prioWrite`, `lastWrite` — what a step, and a run, store in its priority

## Main results

* `prio_of_run` — the priority at the end of a wait is the last one stored
* `exists_starving` — a process waits for any number of ticks, and its priority stays as it was
* `aging_never`
-/

namespace Xv6

namespace Proc

open State Transition

variable {n : ℕ}

/-- `p` is `RUNNABLE` in every state of the run. It is then on no CPU, so it is not switched to and
makes no call. -/
def StaysRunnable (p : Slot) : State n → List (Event n) → Prop
  | s, [] => (s.ptable p).state = .runnable
  | s, e :: es => (s.ptable p).state = .runnable ∧ ∀ s', step s e = some s' → StaysRunnable p s' es

/-- The value that a step stores in the priority of `p`: in the feedback of the CPU that `p` has
left, or in a `setpriority` whose search for the caller's pid finds `p`. -/
def prioWrite (p : Slot) (s : State n) : Event n → Option (BitVec 32)
  | .feedback c =>
    match (s.cpu c).mode with
    | .ended q stop =>
      if q = p then some (feedback (s.cpu c).start stop (s.ptable p).prio) else none
    | _ => none
  | .setpriority c v =>
    match s.work c with
    | some q =>
      if (slots.find? fun r => (s.ptable r).pid = (s.ptable q).pid) = some p then some v else none
    | none => none
  | _ => none

/-- The last value that a run stores in the priority of `p`. -/
def lastWrite (p : Slot) : State n → List (Event n) → Option (BitVec 32)
  | _, [] => none
  | s, e :: es => ((step s e).bind fun s' => lastWrite p s' es) <|> prioWrite p s e

/-! ### The frame -/

section Frame

variable {s s' : State n} {e : Event n} {p : Slot}

/-- A process that is on a CPU is not `RUNNABLE`. -/
theorem ne_of_runnable (hs : Wf s) (hp : (s.ptable p).state = .runnable) {c : Fin (n + 1)}
    {q : Slot} (hm : (s.cpu c).mode = .running q) : q ≠ p := by
  rintro rfl
  rw [hs.running c q hm] at hp
  cases hp

/-- **The frame of a step.** The priority of a `RUNNABLE` process is what `prioWrite` says. -/
theorem prio_of_step (hs : Wf s) (h : step s e = some s') (hp : (s.ptable p).state = .runnable) :
    (s'.ptable p).prio = (prioWrite p s e).getD (s.ptable p).prio := by
  by_cases hf : ∃ c, e = .feedback c
  · obtain ⟨c, rfl⟩ := hf
    cases Step.of_step h with
    | feedback _ q stop hm =>
      change (s.ptable.set q _ p).prio = _
      by_cases hq : q = p
      · subst hq
        rw [PTable.set_self]
        simp [prioWrite, hm]
      · rw [PTable.set_of_ne _ _ (Ne.symm hq)]
        simp [prioWrite, hm, hq]
  by_cases hsp : ∃ c v, e = .setpriority c v
  · obtain ⟨c, v, rfl⟩ := hsp
    cases Step.of_step h with
    | spFail _ q _ hw ha hl hk =>
      have hnone := Option.map_eq_none_iff.mp hk
      simp [prioWrite, hw, hnone]
    | sp _ q _ t hw ha hl hk =>
      obtain ⟨r, hr, rfl⟩ := Option.map_eq_some_iff.mp hk
      change (s.ptable.set r _ p).prio = _
      by_cases hrp : r = p
      · subst hrp
        rw [PTable.set_self]
        simp [prioWrite, hw, hr]
      · rw [PTable.set_of_ne _ _ (Ne.symm hrp)]
        simp [prioWrite, hw, hr, hrp]
  -- no other step stores a priority, except in a slot that is being filled or reaped
  have hnone : prioWrite p s e = none := by
    cases e with
    | feedback c => exact absurd ⟨c, rfl⟩ hf
    | setpriority c v => exact absurd ⟨c, v, rfl⟩ hsp
    | _ => rfl
  rw [hnone, Option.getD_none]
  have hslot := SlotStep.of_step hs h p
  generalize s'.ptable p = q at hslot ⊢
  cases hslot with
  | claim c second hr => rw [hp] at hr; cases hr
  | reap c e q hm he hpar hz => rw [hp] at hz; cases hz
  | feedback c stop hm => exact absurd ⟨c, rfl⟩ hf
  | setprio c q v hw hpid hfirst => exact absurd ⟨c, v, rfl⟩ hsp
  | _ => rfl

/-- **The frame of a run.** The priority at the end of a wait is the last one stored. -/
theorem prio_of_run {es : List (Event n)} (hs : Wf s) (hr : run step s es = some s')
    (hwait : StaysRunnable p s es) :
    (s'.ptable p).prio = (lastWrite p s es).getD (s.ptable p).prio := by
  induction es generalizing s with
  | nil => cases hr; rfl
  | cons e es ih =>
    obtain ⟨t, hst, hr⟩ := (run_cons_eq_some step).mp hr
    have hlast : lastWrite p s (e :: es) = (lastWrite p t es <|> prioWrite p s e) := by
      rw [lastWrite, hst]
      rfl
    rw [ih (hs.step hst) hr (hwait.2 t hst), prio_of_step hs hst hwait.1, hlast]
    cases lastWrite p t es <;> rfl

end Frame

/-! ### Starvation -/

section Stays

variable {s s' : State n} {p : Slot}

/-- A `RUNNABLE` process stays so until it is switched to. -/
theorem runnable_of_step {e : Event n} (hs : Wf s) (h : step s e = some s')
    (hp : (s.ptable p).state = .runnable) (he : ∀ c, e ≠ .dispatch c) :
    (s'.ptable p).state = .runnable := by
  have hne : ∀ {c}, (s.cpu c).mode ≠ .running p := fun hm => ne_of_runnable hs hp hm rfl
  have hslot := SlotStep.of_step hs h p
  generalize s'.ptable p = q at hslot ⊢
  cases hslot with
  | dispatch c hm => exact absurd rfl (he c)
  | claim c second hr => rw [hp] at hr; cases hr
  | kallocFail c q hw ha =>
    have := hs.child q p (by rw [ha]; rfl)
    rw [hp] at this
    cases this
  | copyuvmFail c q hw ha =>
    have := hs.child q p (by rw [ha]; rfl)
    rw [hp] at this
    cases this
  | sleep c chan hw hc => exact absurd (mode_of_work hw).1 hne
  | waits c e hm he hk hz => exact absurd hm hne
  | reap c e q hm he hpar hz => rw [hp] at hz; cases hz
  | exits c hw hi ha => exact absurd (mode_of_work hw).1 hne
  | bereaved c q st hw hr ha hst =>
    rcases hst with hst | ⟨-, hst⟩
    · exact hst.trans hp
    · exact hst
  | killed c pid hpid hf =>
    dsimp only
    rw [hp]
    rfl
  | yield | ready | woken => rfl
  | _ => exact hp

theorem StaysRunnable.of_noDispatch {es : List (Event n)} (hs : Wf s)
    (hp : (s.ptable p).state = .runnable) (hes : ∀ c, .dispatch c ∉ es) :
    StaysRunnable p s es := by
  induction es generalizing s with
  | nil => exact hp
  | cons e es ih =>
    refine ⟨hp, fun t hst => ih (hs.step hst) ?_ fun c hc => hes c (List.mem_cons_of_mem _ hc)⟩
    exact runnable_of_step hs hst hp fun c hc => hes c (hc ▸ List.mem_cons_self ..)

theorem StaysRunnable.append {es fs : List (Event n)} (h : StaysRunnable p s es)
    (hr : run step s es = some s') (h' : StaysRunnable p s' fs) : StaysRunnable p s (es ++ fs) := by
  induction es generalizing s with
  | nil => cases hr; exact h'
  | cons e es ih =>
    obtain ⟨t, hst, hr⟩ := (run_cons_eq_some step).mp hr
    refine ⟨h.1, fun u hu => ?_⟩
    obtain rfl : t = u := Option.some.inj (hst.symm.trans hu)
    exact ih (h.2 t hst) hr

theorem StaysRunnable.last {es : List (Event n)} (h : StaysRunnable p s es)
    (hr : run step s es = some s') : (s'.ptable p).state = .runnable := by
  induction es generalizing s with
  | nil => cases hr; exact h
  | cons e es ih =>
    obtain ⟨t, hst, hr⟩ := (run_cons_eq_some step).mp hr
    exact ih (h.2 t hst) hr

theorem StaysRunnable.snoc {es : List (Event n)} {e : Event n} {t : State n}
    (h : StaysRunnable p s es) (hr : run step s (es ++ [e]) = some t)
    (ht : (t.ptable p).state = .runnable) : StaysRunnable p s (es ++ [e]) := by
  obtain ⟨u, hu, hr⟩ := (run_append_eq_some step).mp hr
  obtain ⟨v, hv, hnil⟩ := (run_cons_eq_some step).mp hr
  cases hnil
  refine h.append hu ⟨h.last hu, fun w hw => ?_⟩
  obtain rfl : t = w := Option.some.inj (hv.symm.trans hw)
  exact ht

end Stays

/-- The first process and its child are `RUNNABLE`. The first process has given itself a priority
that a process which uses up its time slices never gets to, and the child is such a process. -/
structure Starving (t : PTable) (th : Slot → Thread) : Prop where
  first : (t 0).state = .runnable ∧ (t 0).prio = 14#32
  child : (t 1).state = .runnable ∧ (t 1).prio.toNat ≤ 10
  thread : (th 1).act = .user ∧ ((th 1).resume = .forkret ∨ (th 1).resume = .yielded)
  rest : ∀ p, p ≠ 0 → p ≠ 1 → (t p).state = .unused

/-- The first process creates a child, calls `setpriority(15)` and yields. -/
def starveStart : List (Event n) :=
  (lockEvents 0 ++ roundEvents 0) ++ forkEvents 0 0 ++ [.setpriority 0 15#32] ++ spYieldEvents 0

/-- CPU `0` picks a process, up to the switch. -/
abbrev pickEvents : List (Event n) := [.acquire 0, .scan 0, .readStart 0]

/-- The process uses up its time slice. -/
abbrev sliceEvents : List (Event n) := .resume 0 :: preemptEvents

/-- The child uses up a time slice. -/
def starveRound : List (Event n) := (pickEvents ++ [.dispatch 0]) ++ sliceEvents

theorem run_starveStart (n : ℕ) (second : BitVec 32) : ∃ t th,
    run step (boot n second) starveStart = some (soloIdle 0 t th 0 3 0) ∧ Starving t th := by
  have hne : (0 : Slot) ≠ 1 := by decide
  obtain ⟨t, th, hstart, hhome⟩ := run_generations n second 0
  have hfork := run_fork (n := n) 0 0 2 0 0 hhome.act hhome.allocprocScan hne.symm
  obtain ⟨t₁, ht₁⟩ : ∃ t₁, t₁ = t.set 1 { t 1 with
    state := .runnable, pid := 2, prio := initialPrio 0, kstack := true
    pgdir := true, parent := some 0 } := ⟨_, rfl⟩
  obtain ⟨th₁, hth₁⟩ : ∃ th₁, th₁ = Function.update (Function.update th 1 ⟨.user, .forkret, 0⟩) 0
    { th 0 with act := .user, ret := 2 } := ⟨_, rfl⟩
  rw [← ht₁, ← hth₁] at hfork
  have hth : (th₁ 0).act = .user ∧ th₁ 1 = ⟨.user, .forkret, 0⟩ := by
    rw [hth₁, Function.update_self, Function.update_of_ne hne.symm, Function.update_self]
    exact ⟨rfl, rfl⟩
  have hset := run_setpriority (n := n) 0 0 3 0 15#32 hth.1 (t := t₁) (by simp)
  have hyield := run_spYield (n := n) 0 0 3 (t := t₁.set 0 { t₁ 0 with prio := 15#32 }) (p := 0)
    (show (Function.update th₁ 0 { th₁ 0 with act := .spYield } 0).act = .spYield by simp)
  refine ⟨_, _, Eq.trans ?_ hyield, ⟨?_, ?_, ?_, fun p hp hp' => ?_⟩⟩
  · have hstart' : run step (boot n second) (lockEvents 0 ++ roundEvents 0) =
        some (soloRunning 0 t th 0 2 0 0) := by
      simpa [generations] using hstart
    rw [starveStart, run_append, run_append, run_append, hstart', Option.bind_some, hfork,
      Option.bind_some]
    exact congrArg (Option.bind · _) hset
  · rw [PTable.set_self]
    exact ⟨rfl, by simp [feedback]⟩
  · rw [PTable.set_of_ne _ _ hne.symm, PTable.set_of_ne _ _ hne.symm, ht₁, PTable.set_self]
    exact ⟨rfl, show (initialPrio 0).toNat ≤ 10 by decide⟩
  · rw [Function.update_of_ne hne.symm, Function.update_of_ne hne.symm, hth.2]
    exact ⟨rfl, Or.inl rfl⟩
  · rw [PTable.set_of_ne _ _ hp, PTable.set_of_ne _ _ hp, ht₁, PTable.set_of_ne _ _ hp']
    exact (hhome.rest p hp).1

/-- The child is picked. -/
theorem Starving.run_dispatch {t : PTable} {th : Slot → Thread} (h : Starving t th)
    (ticks nextpid start : BitVec 32) :
    run step (soloIdle (n := n) 0 t th ticks nextpid start)
        (pickEvents ++ [.dispatch 0]) =
      some (soloSwitched 0 (t.set 1 { t 1 with state := .running }) th ticks nextpid 1) := by
  have hleast : ∀ q, (t q).state = .runnable → q ≠ 1 → (t 1).prio.toNat < (t q).prio.toNat := by
    intro q hq hq1
    rcases eq_or_ne q 0 with rfl | hq0
    · have hle := h.child.2
      rw [h.first.2]
      exact hle.trans_lt (by decide)
    · rw [h.rest q hq0 hq1] at hq
      cases hq
  have hsplit : (pickEvents ++ [.dispatch 0] : List (Event n)) =
      lockEvents 0 ++ switchEvents 0 := rfl
  have hle := h.child.2
  rw [hsplit, run_append, run_acquire, Option.bind_some,
    Proc.run_dispatch 0 th ticks nextpid start h.child.1 (by omega) hleast]

/-- **A round of starvation.** The child uses up a time slice, `ticks` advances, and the first
process is where it was. -/
theorem Starving.run_round {t : PTable} {th : Slot → Thread} (h : Starving t th)
    (ticks nextpid start : BitVec 32) : ∃ t' th',
    run step (soloIdle (n := n) 0 t th ticks nextpid start) starveRound =
      some (soloIdle 0 t' th' (ticks + 1#32) nextpid ticks) ∧ Starving t' th' := by
  have hne : (0 : Slot) ≠ 1 := by decide
  obtain ⟨u, hu⟩ : ∃ u, u = t.set 1 { t 1 with state := .running } := ⟨_, rfl⟩
  have hu1 : u 1 = { t 1 with state := .running } := by rw [hu, PTable.set_self]
  have hur : ∀ p, p ≠ 1 → u p = t p := fun p hp => by rw [hu, PTable.set_of_ne _ _ hp]
  have hdispatch := h.run_dispatch (n := n) ticks nextpid start
  rw [← hu] at hdispatch
  have hresume : run step (soloSwitched (n := n) 0 u th ticks nextpid 1) [.resume 0] =
      some (soloRunning 0 u th ticks nextpid ticks 1) := by
    rcases h.thread.2 with hres | hres <;>
      simp [run, step, soloSwitched, soloRunning, solo, resumeStep, hres, h.thread.1]
  have hsleep : ∀ q, (u q).state ≠ .sleeping := by
    intro q
    rcases eq_or_ne q 1 with rfl | hq1
    · rw [hu1]; rintro ⟨⟩
    · rw [hur q hq1]
      rcases eq_or_ne q 0 with rfl | hq0
      · rw [h.first.1]; decide
      · rw [h.rest q hq0 hq1]; decide
  have hpreempt := @run_preempt_zero n u th ticks nextpid ticks 1 (by bv_omega) hsleep
  refine ⟨_, _, Eq.trans ?_ hpreempt, ⟨?_, ?_, ?_, fun p hp hp' => ?_⟩⟩
  · have hsplit : (starveRound : List (Event n)) =
        (pickEvents ++ [.dispatch 0]) ++ ([.resume 0] ++ preemptEvents) := rfl
    rw [hsplit, run_append, hdispatch, Option.bind_some, run_append, hresume, Option.bind_some]
  · rw [PTable.set_of_ne _ _ hne, hur 0 hne]
    exact h.first
  · rw [PTable.set_self, hu1]
    have hle := h.child.2
    refine ⟨rfl, ?_⟩
    dsimp only
    split
    · next hlt => have := BitVec.lt_def.mp hlt; bv_omega
    · exact hle
  · rw [Function.update_self]
    exact ⟨h.thread.1, Or.inr rfl⟩
  · rw [PTable.set_of_ne _ _ hp', hur p hp']
    exact h.rest p hp hp'

theorem Starving.staysRunnable {t : PTable} {th : Slot → Thread} (h : Starving t th)
    {ticks nextpid start : BitVec 32} (hs : Wf (soloIdle (n := n) 0 t th ticks nextpid start)) :
    StaysRunnable 0 (soloIdle (n := n) 0 t th ticks nextpid start) starveRound := by
  have hdispatch := h.run_dispatch (n := n) ticks nextpid start
  have hstate : (t.set 1 { t 1 with state := .running } 0).state = .runnable := by
    rw [PTable.set_of_ne _ _ (by decide), h.first.1]
  have hup : StaysRunnable 0 (soloIdle (n := n) 0 t th ticks nextpid start)
      (pickEvents ++ [.dispatch 0]) :=
    (StaysRunnable.of_noDispatch hs h.first.1 (by simp)).snoc hdispatch hstate
  exact hup.append hdispatch (.of_noDispatch (hs.run hdispatch) hstate (by simp))

/-- Any number of rounds. -/
theorem Starving.run_rounds {t : PTable} {th : Slot → Thread} (h : Starving t th)
    {ticks nextpid start : BitVec 32} (hs : Wf (soloIdle (n := n) 0 t th ticks nextpid start))
    (k : ℕ) : ∃ t' th' ticks' start',
    run step (soloIdle (n := n) 0 t th ticks nextpid start)
        (List.replicate k starveRound).flatten =
      some (soloIdle 0 t' th' ticks' nextpid start') ∧ Starving t' th' ∧
    StaysRunnable 0 (soloIdle (n := n) 0 t th ticks nextpid start)
      (List.replicate k starveRound).flatten := by
  induction k generalizing t th ticks start with
  | zero => exact ⟨t, th, ticks, start, rfl, h, h.first.1⟩
  | succ k ih =>
    obtain ⟨t₁, th₁, hround, h₁⟩ := h.run_round (n := n) ticks nextpid start
    obtain ⟨t₂, th₂, ticks₂, start₂, hrun, h₂, hstays⟩ := ih h₁ (hs.run hround)
    rw [List.replicate_succ, List.flatten_cons]
    exact ⟨t₂, th₂, ticks₂, start₂, by rw [run_append, hround, Option.bind_some, hrun], h₂,
      (h.staysRunnable hs).append hround hstays⟩

/-- The first process of a machine with `n + 1` CPUs waits for any number of ticks. -/
theorem exists_starving (n : ℕ) (second : BitVec 32) (k : ℕ) :
    ∃ (s s' : State n) (es : List (Event n)),
    Reach step (fun _ _ => True) (boot n second) s ∧ run step s es = some s' ∧
      StaysRunnable 0 s es ∧ es.count (.timer 0) = k ∧
      (s.ptable 0).prio = 14#32 ∧ (s'.ptable 0).prio = 14#32 := by
  obtain ⟨t, th, hstart, h⟩ := run_starveStart n second
  obtain ⟨t', th', ticks', start', hrun, h', hstays⟩ :=
    h.run_rounds (Wf.of_reach (reach_of_run hstart)) k
  refine ⟨_, _, _, reach_of_run hstart, hrun, hstays, ?_, h.first.2, h'.first.2⟩
  simp [List.count_flatten, starveRound]

/-- No number of ticks is enough for a better priority. -/
theorem not_aging (n : ℕ) (second : BitVec 32) (K : ℕ) :
    ¬ ∀ s : State n, Reach step (fun _ _ => True) (boot n second) s →
      ∀ p es s', 0#32 < (s.ptable p).prio → run step s es = some s' → StaysRunnable p s es →
        K ≤ es.count (.timer 0) → (s'.ptable p).prio < (s.ptable p).prio := by
  intro hK
  obtain ⟨s, s', es, hreach, hrun, hstays, hcount, hprio, hprio'⟩ := exists_starving n second K
  have hlt := hK s hreach 0 es s' (by rw [hprio]; decide) hrun hstays hcount.ge
  rw [hprio, hprio'] at hlt
  exact absurd hlt (by decide)

/-- **There is no aging**, on any number of CPUs and from any time of day: for no number `K` of
ticks is a process that has been waiting for `K` ticks sure to have a better priority. -/
theorem aging_never (n : ℕ) (second : BitVec 32) :
    ¬ ∃ K, ∀ s : State n, Reach step (fun _ _ => True) (boot n second) s →
      ∀ p es s', 0#32 < (s.ptable p).prio → run step s es = some s' → StaysRunnable p s es →
        K ≤ es.count (.timer 0) → (s'.ptable p).prio < (s.ptable p).prio := by
  rintro ⟨K, hK⟩
  exact not_aging n second K hK

/-- The same on the two CPUs of the Makefile. -/
theorem no_aging : ¬ ∃ K, ∀ s : State 1, Reach step (fun _ _ => True) (boot 1 0) s →
    ∀ p es s', 0#32 < (s.ptable p).prio → run step s es = some s' → StaysRunnable p s es →
      K ≤ es.count (.timer 0) → (s'.ptable p).prio < (s.ptable p).prio := by
  rintro ⟨K, hK⟩
  exact not_aging 1 0 K hK

end Proc

end Xv6
