import Xv6.Proc.Solo

/-!
# The divisor of `ticks%idx`

`scheduler` starts its search for the least priority from the sentinel `20`, but `sp` stores any
value a process passes to `setpriority`. As long as no process passes more than `20` (read as
unsigned) every priority stays at most `20`, and a round that has found a `RUNNABLE` process also
finds one of the least priority. One larger value is enough to break it: a process alone in the
machine calls `setpriority`, is preempted by CPU `0`'s timer before it can yield, and the next round
divides by zero.

## Main results

* `step_prioLe` — which steps can raise a priority, and how far
* `divisor_ne_zero_iff` — for each set of values passed to `setpriority`, the divisor is never zero
  if and only if the set has no value above `20`
-/

namespace Xv6

namespace Proc

open State Transition

variable {n : ℕ}

/-- Every priority in the table is at most `B`. -/
def PrioLe (B : ℕ) (t : PTable) : Prop := ∀ p, (t p).prio.toNat ≤ B

theorem PrioLe.congr {B : ℕ} {t t' : PTable} (h : PrioLe B t)
    (heq : ∀ p, (t' p).prio = (t p).prio) : PrioLe B t' := by
  intro p
  rw [heq p]
  exact h p

theorem PrioLe.set {B : ℕ} {t : PTable} (h : PrioLe B t) {p : Slot} {q : Proc}
    (hq : q.prio.toNat ≤ B) : PrioLe B (t.set p q) := by
  intro r
  rw [PTable.set_apply]
  split
  · exact hq
  · exact h r

theorem PrioLe.waitTable {B : ℕ} {t : PTable} (h : PrioLe B t) (cur : Slot) :
    PrioLe B (waitTable t cur) := by
  intro p
  rcases waitTable_prio t cur p with hp | hp
  · rw [hp]; exact h p
  · rw [hp]; exact Nat.zero_le B

/-- A step keeps every priority at most `B`, unless it is a `setpriority` with a larger value. The
feedback and `allocproc` never go beyond `10` on their own. -/
theorem step_prioLe {B : ℕ} (hB : 10 ≤ B) {s s' : State n} {e : Event n} (h : step s e = some s')
    (hs : PrioLe B s.ptable) (he : ∀ c v, e = .setpriority c v → v.toNat ≤ B) :
    PrioLe B s'.ptable := by
  cases Step.of_step h with
  | feedback c p stop hm =>
    refine hs.set ?_
    exact (feedback_toNat_le _ _ _).trans (max_le (hs p) hB)
  | resumeWait c p hm hl hr =>
    rw [ptable_waitStep]
    refine PrioLe.waitTable ?_ p
    exact hs.set (hs p)
  | wait c p hw ha hl =>
    rw [ptable_waitStep]
    exact hs.waitTable p
  | alloc c p np second hw ha hl hn =>
    refine hs.set ?_
    change (initialPrio second).toNat ≤ B
    rw [initialPrio_toNat]
    have := Nat.mod_lt second.toNat (show 0 < 10 by decide)
    omega
  | exit c p hw ha hp hl => exact hs.congr fun r => exitTable_prio ..
  | wakeup c chan hl hc => exact hs.congr fun r => wakeup1_prio ..
  | tickWakeup c hi hl => exact hs.congr fun r => wakeup1_prio ..
  | kill c p pid t hw ha hl hk => exact hs.congr fun r => killTable_prio hk r
  | sp c p v t hw ha hl hk =>
    intro r
    rcases spTable_prio hk r with hr | hr
    · simpa [hr] using hs r
    · simpa [hr] using he c v rfl
  | dispatch c p hm => exact hs.set (hs p)
  | resumeSleep c p hm hl hr => exact hs.set (hs p)
  | kallocOk c p np hw ha => exact hs.set (hs np)
  | kallocFail c p np hw ha => exact hs.set (hs np)
  | copyOk c p np hw ha => exact hs.set (hs np)
  | copyFail c p np hw ha => exact hs.set (hs np)
  | forkRunnable c p np hw ha hl => exact hs.set (hs np)
  | sleep c p chan hw ha hl hc => exact hs.set (hs p)
  | spYield c p hw ha hl => exact hs.set (hs p)
  | timerYield c p hm hi hl => exact hs.set (hs p)
  | fault c p hw ha => exact hs.set (hs p)
  | _ => exact hs

/-- In a round of `scheduler` that has found a `RUNNABLE` process, some `RUNNABLE` process has the
computed minimum as its priority, and `idx` is not zero. -/
def DivisorOk (s : State n) : Prop :=
  ∀ c, (s.cpu c).mode = .locked → schedFlag s.ptable = true →
    (∃ p, IsCandidate s.ptable p) ∧ (schedPlist s.ptable).idx ≠ 0

theorem divisorOk_of_prioLe {s : State n} (h : PrioLe 20 s.ptable) : DivisorOk s := by
  intro c _ hflag
  obtain ⟨p, hp⟩ := (schedFlag_iff _).mp hflag
  have hidx : (schedPlist s.ptable).idx ≠ 0 := (schedIdx_pos_iff _).mpr ⟨p, hp, h p⟩
  refine ⟨?_, hidx⟩
  rw [(schedPlist_spec _).2] at hidx
  obtain ⟨q, hq⟩ := List.exists_mem_of_length_pos (Nat.pos_of_ne_zero hidx)
  exact ⟨q, by simpa using (List.mem_filter.mp hq).2⟩

theorem boot_prioLe (n : ℕ) (second : BitVec 32) : PrioLe 10 (boot n second).ptable := by
  have hzero : PrioLe 10 (fun _ => zero) := fun _ => Nat.zero_le _
  refine hzero.set ?_
  change (initialPrio second).toNat ≤ 10
  rw [initialPrio_toNat]
  have := Nat.mod_lt second.toNat (show 0 < 10 by decide)
  omega

/-! ### A process that asks for too much -/

/-- The first process calls `setpriority(v)`, is preempted before it reaches `yield`, and CPU `0`
starts its next round. -/
def soloSetpriority (v : BitVec 32) : List (Event n) :=
  lockEvents 0 ++ roundEvents 0 ++ [.setpriority 0 v] ++ preemptEvents ++ lockEvents 0

/-- A value of at least `10` survives the feedback, so the next round finds the process with it. -/
theorem run_soloSetpriority (n : ℕ) (second : BitVec 32) {v : BitVec 32} (hv : 10 ≤ v.toNat) :
    ∃ s, run step (boot n second) (soloSetpriority v) = some s ∧ (s.cpu 0).mode = .locked ∧
      s.status = .ok ∧ (s.ptable 0).state = .runnable ∧ (s.ptable 0).prio = v ∧
      ∀ q, q ≠ 0 → (s.ptable q).state = .unused := by
  have hv' : ¬ v < 10#32 := by bv_omega
  rw [soloSetpriority, run_append, run_append, run_append, run_start, Option.bind_some,
    run_setpriority _ _ _ _ _ rfl (by simp), Option.bind_some,
    run_preempt_zero (by decide) (by
      intro q
      by_cases h : q = 0
      · subst h; simp [initcode]
      · simp [PTable.set_of_ne _ _ h, zero]),
    Option.bind_some, run_acquire]
  refine ⟨_, rfl, by simp [soloLocked, solo], rfl, ?_, ?_, ?_⟩
  · simp [soloLocked, solo]
  · simp [soloLocked, solo, hv']
  · intro q hq
    simp [soloLocked, solo, PTable.set_of_ne _ _ hq, zero]

/-- **The divisor of `ticks%idx`.** Let the processes pass to `setpriority` values from `V` only.
Then the divisor is non-zero in every round of every reachable state if and only if `V` has no value
above the sentinel. -/
theorem divisor_ne_zero_iff (n : ℕ) (second : BitVec 32) (V : BitVec 32 → Prop) :
    (∀ s, Reach step (fun _ e => ∀ c v, e = .setpriority c v → V v) (boot n second) s →
      DivisorOk s) ↔ ∀ v, V v → v.toNat ≤ 20 := by
  constructor
  · intro h v hV
    by_contra hv
    obtain ⟨s, hrun, hmode, -, hrunnable, hprio, hrest⟩ :=
      run_soloSetpriority n second (v := v) (by omega)
    have hreach : Reach step (fun _ e => ∀ c v, e = .setpriority c v → V v) (boot n second) s := by
      refine Reach.of_run _ .init (fun e he s c w hew => ?_) hrun
      subst hew
      obtain rfl : w = v := by simp [soloSetpriority] at he; exact he.2
      exact hV
    obtain ⟨-, hidx⟩ := h s hreach 0 hmode ((schedFlag_iff _).mpr ⟨0, hrunnable⟩)
    obtain ⟨q, hq, hqprio⟩ := (schedIdx_pos_iff _).mp hidx
    -- only the first process is `RUNNABLE`, and its priority is above the sentinel
    obtain rfl : q = 0 := by
      by_contra hne
      rw [hrest q hne] at hq
      cases hq
    rw [hprio] at hqprio
    exact hv hqprio
  · intro hV s hs
    have hprio : PrioLe 20 s.ptable := by
      refine hs.induct (P := fun s => PrioLe 20 s.ptable) ?_ ?_
      · exact fun p => (boot_prioLe n second p).trans (by decide)
      · exact fun s e s' ih hok hstep =>
          step_prioLe (by decide) hstep ih fun c v he => hV v (hok c v he)
    exact divisorOk_of_prioLe hprio

/-- On the two CPUs of the Makefile, `setpriority(25)` by the first process leads to a round that
finds a `RUNNABLE` process and then divides by zero. -/
theorem divisor_zero_of_setpriority_25 :
    ∃ s : State 1, run step (boot 1 0) (soloSetpriority 25#32) = some s ∧
      schedFlag s.ptable = true ∧ (schedPlist s.ptable).idx = 0 ∧
      step s (.scan 0) = some { s with status := .divideError } ∧ ¬ DivisorOk s := by
  obtain ⟨s, hrun, hmode, hst, hrunnable, hprio, hrest⟩ :=
    run_soloSetpriority 1 0 (v := 25#32) (by decide)
  have hflag : schedFlag s.ptable = true := (schedFlag_iff _).mpr ⟨0, hrunnable⟩
  have hidx : (schedPlist s.ptable).idx = 0 := by
    by_contra hne
    obtain ⟨q, hq, hqprio⟩ := (schedIdx_pos_iff _).mp hne
    by_cases hq0 : q = 0
    · subst hq0
      rw [hprio] at hqprio
      exact absurd hqprio (by decide)
    · rw [hrest q hq0] at hq
      cases hq
  refine ⟨s, hrun, hflag, hidx, ?_, fun h => (h 0 hmode hflag).2 hidx⟩
  simp [step, hst, hmode, scanStep, hflag, hidx]

end Proc

end Xv6
