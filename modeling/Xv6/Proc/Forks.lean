import Xv6.Proc.Slots

/-!
# `fork` in progress

`fork` fills a slot in several steps, most of them without the lock, while its caller may be
preempted between any two. `ForkStep` lists what can happen to such a `fork`: it goes on, it fails,
it ends, or somebody else moves and the two slots involved stay as they are as far as `fork` is
concerned.

## Main definitions

* `ProcState.Alive` — a process that has been created and has not exited
* `Forking` — a process inside `fork` is alive
* `ForkStep` — what a step can do to a `fork` in progress

## Main results

* `Forking.step` — every step keeps it
* `ForkStep.of_step`, `child_of_step` — inversion of `step` for a `fork` in progress
-/

namespace Xv6

namespace Proc

open State Transition

variable {n : ℕ} {s s' : State n} {e : Event n}

/-- The states of a process that has been created and has not exited. -/
def ProcState.Alive (st : ProcState) : Prop := st = .sleeping ∨ st = .runnable ∨ st = .running

theorem ProcState.Alive.ne {st : ProcState} (h : st.Alive) :
    st ≠ .unused ∧ st ≠ .embryo ∧ st ≠ .zombie := by
  rcases h with rfl | rfl | rfl <;> decide

theorem Wf.alive_of_running (hs : Wf s) {c : Fin (n + 1)} {p : Slot}
    (hm : (s.cpu c).mode = .running p) : (s.ptable p).state.Alive :=
  Or.inr (Or.inr (hs.running c p hm))

/-- A process that is alive stays so, unless it exits. -/
theorem alive_of_step (hs : Wf s) (h : step s e = some s') {p : Slot}
    (hp : (s.ptable p).state.Alive) :
    (s'.ptable p).state.Alive ∨
      (∃ c, e = .exit c ∧ s.work c = some p) ∧ (s'.ptable p).state = .zombie ∧
        p ≠ s.initproc ∧ ((s.thread p).act = .user ∨ (s.thread p).act = .exiting) := by
  obtain ⟨hu, hemb, hz⟩ := hp.ne
  have hslot := SlotStep.of_step hs h p
  generalize s'.ptable p = q at hslot ⊢
  cases hslot with
  | same | copyuvm | unchan | setprio | feedback | kalloc | fault => exact Or.inl hp
  | claim c second hr => exact absurd hr hu
  | ready | yield | woken => exact Or.inl (Or.inr (Or.inl rfl))
  | dispatch => exact Or.inl (Or.inr (Or.inr rfl))
  | sleep | waits => exact Or.inl (Or.inl rfl)
  | kallocFail c q hw ha => exact absurd (hs.child q p (by rw [ha]; rfl)) hemb
  | copyuvmFail c q hw ha => exact absurd (hs.child q p (by rw [ha]; rfl)) hemb
  | reap c e q hm he hpar hzomb => exact absurd hzomb hz
  | exits c hw hi ha => exact Or.inr ⟨⟨c, rfl, hw⟩, rfl, hi, ha⟩
  | bereaved c q st hw hr ha hst =>
    rcases hst with rfl | ⟨-, rfl⟩
    · exact Or.inl hp
    · exact Or.inl (Or.inr (Or.inl rfl))
  | killed c pid hpid hf =>
    dsimp only
    split
    · exact Or.inl (Or.inr (Or.inl rfl))
    · exact Or.inl hp

/-! ### The caller of `fork` -/

/-- How the process that CPU `c` runs leaves it: by the timer interrupt, which does not care what
the process is doing, or by a call, or by going back to sleep in `wait`. -/
theorem resume_of_leave (h : step s e = some s') {c : Fin (n + 1)} {p : Slot}
    (hm : (s.cpu c).mode = .running p) (hm' : (s'.cpu c).mode = .returned p) :
    (s'.thread p).resume = .yielded ∨ (s.thread p).act.child = none ∨
      s.lock = some c ∧ (s.thread p).resume = .waiting := by
  have hsame : ∀ {t : State n}, (t.cpu c).mode = .returned p →
      (t.cpu c).mode = (s.cpu c).mode → False := by
    intro t h₁ h₂
    rw [h₁, hm] at h₂
    cases h₂
  have hplain : ∀ {q : Slot} {a : Act}, s.work c = some q → (s.thread q).act = a → a.child = none →
      (s.thread p).act.child = none := by
    intro q a hw ha hnone
    have hq := (mode_of_work hw).1
    rw [hm] at hq
    cases hq
    rw [ha, hnone]
  by_cases hc : c = e.cpu
  swap
  · exact (hsame hm' (by rw [step_cpu_of_ne h hc])).elim
  cases Step.of_step h with
  | acquire d hd | scanIdle d hd | scanPick d q hd | readStart d q hd | dispatch d q hd
  | readEnd d q hd | feedback d q stop hd | timerEnd d hd =>
    obtain rfl : c = d := hc
    rw [hm] at hd
    cases hd
  | scanStop | resume | resumeSp | resumeSleep | allocFail | alloc | kallocOk | kallocFail | copyOk
  | copyFail | forkRunnable | exitInit | wakeup | killFail | kill | spFail | sp | getpriority
  | fault => exact (hsame hm' rfl).elim
  | timerZero hi hd => exact (hsame hm' (mode_setIrq s 0 c _)).elim
  | timer d hd hi hd' => exact (hsame hm' (mode_setIrq s d c _)).elim
  | tickWakeup d hi hl => exact (hsame hm' (mode_setIrq s d c _)).elim
  | timerExit d q hd hi hk ha => exact (hsame hm' (mode_setIrq s d c _)).elim
  | exit d q hw ha hp hl =>
    obtain rfl : c = d := hc
    rcases ha with ha | ha <;> exact Or.inr (Or.inl (hplain hw ha rfl))
  | sleep d q chan hw ha hl hch =>
    obtain rfl : c = d := hc
    rcases ha with ha | ha <;> exact Or.inr (Or.inl (hplain hw ha rfl))
  | wait d q hw ha hl =>
    obtain rfl : c = d := hc
    exact Or.inr (Or.inl (hplain hw ha rfl))
  | spYield d q hw ha hl =>
    obtain rfl : c = d := hc
    exact Or.inr (Or.inl (hplain hw ha rfl))
  | timerYield d q hd hi hl =>
    obtain rfl : c = d := hc
    rw [hm] at hd
    cases hd
    exact Or.inl (by simp [sched])
  | resumeWait d q hd hl hr =>
    obtain rfl : c = d := hc
    rw [hm] at hd
    cases hd
    exact Or.inr (Or.inr ⟨hl, hr⟩)

/-- Where a process will continue changes only when it leaves its CPU, or before it exists. -/
theorem resume_of_step (hs : Wf s) (h : step s e = some s') (p : Slot) :
    (s'.thread p).resume = (s.thread p).resume ∨
      (∃ c, (s.cpu c).mode = .running p ∧ (s'.cpu c).mode = .returned p) ∨
      (s.ptable p).state = .embryo := by
  have hset : ∀ {t : State n} {q : Slot} {th : Thread}, t.thread = s.thread →
      th.resume = (s.thread q).resume →
      ((t.setThread q th).thread p).resume = (s.thread p).resume := by
    intro t q th ht hth
    by_cases hq : p = q
    · subst hq; simp [setThread, hth]
    · simp [setThread, hq, ht]
  have hsched : ∀ {t : State n} {c : Fin (n + 1)} {q : Slot} {r : Resume},
      (s.cpu c).mode = .running q → (∀ x, (t.thread x).resume = (s.thread x).resume) →
      ((t.sched c q r).thread p).resume = (s.thread p).resume ∨
        ∃ c', (s.cpu c').mode = .running p ∧ ((t.sched c q r).cpu c').mode = .returned p := by
    intro t c q r hm ht
    by_cases hq : p = q
    · subst hq; exact Or.inr ⟨c, hm, by simp [sched]⟩
    · exact Or.inl (by simpa [sched, hq] using ht p)
  have hwait : ∀ {t : State n} {c : Fin (n + 1)} {q : Slot}, (s.cpu c).mode = .running q →
      t.thread = s.thread → ((t.waitStep c q).thread p).resume = (s.thread p).resume ∨
        ∃ c', (s.cpu c').mode = .running p ∧ ((t.waitStep c q).cpu c').mode = .returned p := by
    intro t c q hm ht
    unfold waitStep
    cases waitScan t.ptable q with
    | reaped r pid => exact Or.inl (hset ht (by rw [← ht]))
    | failed => exact Or.inl (hset ht (by rw [← ht]))
    | sleeps => exact hsched hm fun x => by rw [ht]
  cases Step.of_step h with
  | resumeSp c q | allocFail c q | alloc c q | kallocFail c q | copyOk c q | copyFail c q
  | forkRunnable c q | killFail c q | kill c q | spFail c q | sp c q | getpriority c q
  | timerExit c q | fault c q => exact Or.inl (hset rfl rfl)
  | resumeWait c q hm hl hr =>
    exact (hwait (t := s.setProc q _) hm rfl).imp_right Or.inl
  | wait c q hw ha hl => exact (hwait (mode_of_work hw).1 rfl).imp_right Or.inl
  | kallocOk c q np hw ha =>
    by_cases hp : p = np
    · subst hp; exact Or.inr (Or.inr (hs.child q p (by rw [ha]; rfl)))
    · refine Or.inl ?_
      have := @hset s q { s.thread q with act := .forkCopy np } rfl rfl
      simpa [setThread, setAct, setProc, hp] using this
  | exit c q hw ha hp hl => exact (hsched (mode_of_work hw).1 fun _ => rfl).imp_right Or.inl
  | sleep c q chan hw ha hl hc =>
    exact (hsched (mode_of_work hw).1 fun _ => rfl).imp_right Or.inl
  | timerYield c q hm hi hl => exact (hsched hm fun _ => rfl).imp_right Or.inl
  | spYield c q hw ha hl =>
    refine (hsched (mode_of_work hw).1 fun x => ?_).imp_right Or.inl
    by_cases hx : x = q
    · subst hx; simp [setAct, setThread, setProc]
    · simp [setAct, setThread, setProc, hx]
  | _ => exact Or.inl rfl

/-- A process in execution without the lock goes on so, or leaves. -/
theorem running_of_step (h : step s e = some s') {c : Fin (n + 1)} {p : Slot}
    (hm : (s.cpu c).mode = .running p) (hl : s.lock ≠ some c) :
    (s'.cpu c).mode = .running p ∧ s'.lock ≠ some c ∨ (s'.cpu c).mode = .returned p := by
  have hmode : (s'.cpu c).mode = .running p ∨ (s'.cpu c).mode = .returned p := by
    have hcpu := CpuStep.of_step h c
    generalize s'.cpu c = k at hcpu ⊢
    cases hcpu with
    | same => exact Or.inl hm
    | acquire h' | giveUp h' | pick q h' | readStart q h' | dispatch q h' | readEnd q h'
    | feedback q stop h' | timerEnd h' => rw [hm] at h'; cases h'
    | leave e q h' => rw [hm] at h'; cases h'; exact Or.inr rfl
    | timer | tickWakeup | timerExit => exact Or.inl hm
  refine hmode.imp_left fun hm' => ⟨hm', fun hl' => ?_⟩
  rcases lock_of_step h hl' with h' | h'
  · exact hl h'
  · rw [hm'] at h'
    exact h'

/-- A process inside `fork` is alive, and when it does not run it is the timer interrupt that has
taken the CPU away from it. -/
structure Forking (s : State n) : Prop where
  alive : ∀ p np, (s.thread p).act.child = some np → (s.ptable p).state.Alive
  resume : ∀ p np, (s.thread p).act.child = some np →
    (s.thread p).resume = .yielded ∨ ∃ c, (s.cpu c).mode = .running p ∧ s.lock ≠ some c

theorem boot_forking (n : ℕ) (second : BitVec 32) : Forking (boot n second) where
  alive p np h := by cases h
  resume p np h := by cases h

/-- A `fork` that is in progress after a step was so before, or has just begun. -/
theorem child_of_step (h : step s e = some s') {p np : Slot}
    (hc : (s'.thread p).act.child = some np) :
    (s.thread p).act.child = some np ∨
      (∃ c second, e = .allocproc c second ∧ s.work c = some p) ∧ (s.ptable np).state = .unused ∧
        (s'.thread p).act = .forkAlloc np := by
  have hact := ActStep.of_step h p
  generalize (s'.thread p).act = a at hact hc ⊢
  cases hact with
  | same => exact Or.inl hc
  | plain _ _ ha => rw [ha] at hc; cases hc
  | claim c second m hw hn =>
    cases hc
    exact Or.inr ⟨⟨c, second, rfl, hw⟩, allocprocScan_state hn, rfl⟩
  | kalloc c m hw ha => cases hc; exact Or.inl (by rw [ha]; rfl)
  | copyuvm c m hw ha => cases hc; exact Or.inl (by rw [ha]; rfl)

theorem Forking.step (hf : Forking s) (hs : Wf s) (h : Proc.step s e = some s') : Forking s' := by
  refine ⟨fun p np hc => ?_, fun p np hc => ?_⟩
  · rcases child_of_step h hc with hc | ⟨⟨c, second, rfl, hw⟩, -, -⟩
    · rcases alive_of_step hs h (hf.alive p np hc) with hp | ⟨-, -, -, ha⟩
      · exact hp
      · rcases ha with ha | ha <;> rw [ha] at hc <;> cases hc
    · rcases alive_of_step hs h (hs.alive_of_running (mode_of_work hw).1) with hp | ⟨⟨d, hd, -⟩, -⟩
      · exact hp
      · cases hd
  · -- whoever runs without the lock goes on, or the timer interrupt takes the CPU away
    have hrun : ∀ c, (s.cpu c).mode = .running p → s.lock ≠ some c →
        (s.thread p).act.child ≠ none ∨ (∃ d second, e = .allocproc d second) →
        (s'.thread p).resume = .yielded ∨
          ∃ c, (s'.cpu c).mode = .running p ∧ s'.lock ≠ some c := by
      intro c hm hl hwhy
      rcases running_of_step h hm hl with hstay | hm'
      · exact Or.inr ⟨c, hstay⟩
      · rcases resume_of_leave h hm hm' with hy | hnone | ⟨hl', -⟩
        · exact Or.inl hy
        · rcases hwhy with hwhy | ⟨d, second, rfl⟩
          · exact absurd hnone hwhy
          · cases Step.of_step h with
            | allocFail => exact absurd (hm.symm.trans hm') nofun
            | alloc => exact absurd (hm.symm.trans hm') nofun
        · exact absurd hl' hl
    rcases child_of_step h hc with hc₀ | ⟨⟨c, second, rfl, hw⟩, -, -⟩
    swap
    · obtain ⟨hm, -, hl⟩ := mode_of_work hw
      exact hrun c hm hl (Or.inr ⟨c, second, rfl⟩)
    rcases hf.resume p np hc₀ with hy | ⟨c, hm, hl⟩
    swap
    · exact hrun c hm hl (Or.inl (by rw [hc₀]; nofun))
    rcases resume_of_step hs h p with heq | ⟨c, hm, hm'⟩ | hemb
    · exact Or.inl (heq.trans hy)
    · rcases resume_of_leave h hm hm' with hy' | hnone | ⟨-, hw⟩
      · exact Or.inl hy'
      · rw [hc₀] at hnone; cases hnone
      · rw [hy] at hw; cases hw
    · exact absurd hemb (hf.alive p np hc₀).ne.2.1

/-- What a step can do to a `fork` by `p` that fills slot `np`. -/
inductive ForkStep (s s' : State n) (p np : Slot) : Prop
  /-- It stays where it is. -/
  | same (ha : (s'.thread p).act = (s.thread p).act) (hst : (s'.ptable np).state = .embryo)
      (hk : (s'.ptable np).kstack = (s.ptable np).kstack)
      (hg : (s'.ptable np).pgdir = (s.ptable np).pgdir)
      (hpar : (s'.ptable np).parent = (s.ptable np).parent ∨
        ∃ x, (s.ptable np).parent = some x ∧
          ((s.thread x).act = .user ∨ (s.thread x).act = .exiting))
  /-- It has got a kernel stack. -/
  | kalloc (ha : (s.thread p).act = .forkAlloc np) (ha' : (s'.thread p).act = .forkCopy np)
      (hq : s'.ptable np = { s.ptable np with kstack := true })
  /-- It has got a page table, and a parent. -/
  | copyuvm (ha : (s.thread p).act = .forkCopy np) (ha' : (s'.thread p).act = .forkReady np)
      (hq : s'.ptable np = { s.ptable np with pgdir := true, parent := some p })
  /-- It fails. -/
  | fail (ha : (s.thread p).act = .forkAlloc np ∨ (s.thread p).act = .forkCopy np)
      (ha' : (s'.thread p).act = .user) (hst : (s'.ptable np).state = .unused)
      (hpar : (s'.ptable np).parent = (s.ptable np).parent)
  /-- It ends. -/
  | ready (ha : (s.thread p).act = .forkReady np) (ha' : (s'.thread p).act = .user)
      (hq : s'.ptable np = { s.ptable np with state := .runnable })

/-- Nobody but its `fork` touches what matters about a slot that is being filled; the parent would
change if it exited. -/
theorem embryo_frame (hs : Wf s) (h : step s e = some s') (he : ¬ e.IsFork) {np : Slot}
    (hemb : (s.ptable np).state = .embryo) :
    (s'.ptable np).state = .embryo ∧ (s'.ptable np).kstack = (s.ptable np).kstack ∧
      (s'.ptable np).pgdir = (s.ptable np).pgdir ∧
      ((s'.ptable np).parent = (s.ptable np).parent ∨
        ∃ x, (s.ptable np).parent = some x ∧
          ((s.thread x).act = .user ∨ (s.thread x).act = .exiting)) := by
  have hrun : ∀ {c}, (s.cpu c).mode ≠ .running np := by
    intro c hm
    have := hs.running c np hm
    rw [hemb] at this
    cases this
  have hslot := SlotStep.of_step hs h np
  generalize s'.ptable np = q at hslot ⊢
  cases hslot with
  | same | setprio | feedback => exact ⟨hemb, rfl, rfl, Or.inl rfl⟩
  | claim c second hr => rw [hemb] at hr; cases hr
  | kalloc | kallocFail | copyuvm | copyuvmFail | ready => exact absurd trivial he
  | dispatch c hm =>
    have := hs.picked c np (Or.inr hm)
    rw [hemb] at this
    cases this
  | unchan c hm => exact absurd hm hrun
  | yield c e hm => exact absurd hm hrun
  | waits c e hm => exact absurd hm hrun
  | sleep c chan hw => exact absurd (mode_of_work hw).1 hrun
  | fault c hw => exact absurd (mode_of_work hw).1 hrun
  | exits c hw => exact absurd (mode_of_work hw).1 hrun
  | reap c e p hm he hpar hz => rw [hemb] at hz; cases hz
  | woken e hsl => rw [hemb] at hsl; cases hsl
  | bereaved c p st hw hr ha hst =>
    rcases hst with rfl | ⟨hsl, -⟩
    · refine ⟨hemb, rfl, rfl, ?_⟩
      by_cases hpar : (s.ptable np).parent = some p
      · exact Or.inr ⟨p, hpar, ha⟩
      · exact Or.inl (if_neg hpar)
    · rw [hemb] at hsl; cases hsl
  | killed c pid hpid hf =>
    refine ⟨?_, rfl, rfl, Or.inl rfl⟩
    dsimp only
    rw [hemb]
    decide

/-- A process inside `fork` makes no other call and does not return. -/
theorem act_frame (hs : Wf s) (hf : Forking s) (h : step s e = some s') (he : ¬ e.IsFork)
    {p np : Slot} (hc : (s.thread p).act.child = some np) :
    (s'.thread p).act = (s.thread p).act := by
  have hact := ActCause.of_step h p
  generalize (s'.thread p).act = a at hact ⊢
  cases hact with
  | same => rfl
  | call ha | yield ha => rw [ha] at hc; cases hc
  | resume c hm hl hr =>
    obtain ha | hr := hr
    · rw [ha] at hc; cases hc
    obtain hy | ⟨d, hd, hld⟩ := hf.resume p np hc
    · rw [hr] at hy; cases hy
    · exact absurd (hs.unique d c p hd hm ▸ hl) hld
  | fork he' | child q he' => exact absurd he' he

/-- **Inversion for a `fork` in progress.** -/
theorem ForkStep.of_step (hs : Wf s) (hf : Forking s) (h : step s e = some s') {p np : Slot}
    (hc : (s.thread p).act.child = some np) : ForkStep s s' p np := by
  have hemb := hs.child p np hc
  by_cases he : e.IsFork
  swap
  · obtain ⟨hst, hk, hg, hpar⟩ := embryo_frame hs h he hemb
    exact .same (act_frame hs hf h he hc) hst hk hg hpar
  -- a `fork` by somebody else concerns another slot and another thread
  have hother : ∀ {q m : Slot}, q ≠ p → (s.thread q).act.child = some m → np ≠ m ∧ p ≠ m := by
    intro q m hq hm
    refine ⟨?_, ?_⟩
    · rintro rfl
      exact hq (hs.child_unique q p np hm hc)
    · rintro rfl
      exact (hf.alive p np hc).ne.2.1 (hs.child q p hm)
  have hsame : ∀ {m : Slot} {x : Proc}, np ≠ m → s'.ptable = s.ptable.set m x →
      (s'.thread p).act = (s.thread p).act → ForkStep s s' p np := by
    intro m x hnp ht hact
    have hnp' : s'.ptable np = s.ptable np := by rw [ht, PTable.set_of_ne _ _ hnp]
    exact .same hact (by rw [hnp', hemb]) (by rw [hnp']) (by rw [hnp']) (Or.inl (by rw [hnp']))
  have hset : ∀ {t : State n} {q : Slot} {th : Thread}, q ≠ p → t.thread = s.thread →
      ((t.setThread q th).thread p).act = (s.thread p).act := by
    intro t q th hq ht
    rw [act_setThread, if_neg hq.symm, ht]
  cases Step.of_step h with
  | kallocOk c q m hw ha =>
    by_cases hq : q = p
    · subst hq
      rw [ha] at hc
      cases hc
      have hqm : q ≠ np := by
        rintro rfl
        rw [hs.running c q (mode_of_work hw).1] at hemb
        cases hemb
      exact .kalloc ha (by rw [act_setThread, if_neg hqm]; simp [setAct, setThread])
        (PTable.set_self ..)
    · obtain ⟨hnp, hp⟩ := hother hq (by rw [ha]; rfl)
      exact hsame hnp rfl (by rw [act_setThread, if_neg hp]; exact hset hq rfl)
  | kallocFail c q m hw ha =>
    by_cases hq : q = p
    · subst hq
      rw [ha] at hc
      cases hc
      exact .fail (Or.inl ha) (by simp [setRet, setThread])
        (by simp) (by simp)
    · exact hsame (hother hq (by rw [ha]; rfl)).1 rfl (hset hq rfl)
  | copyOk c q m hw ha =>
    by_cases hq : q = p
    · subst hq
      rw [ha] at hc
      cases hc
      exact .copyuvm ha (by simp [setAct, setThread]) (PTable.set_self ..)
    · exact hsame (hother hq (by rw [ha]; rfl)).1 rfl (hset hq rfl)
  | copyFail c q m hw ha =>
    by_cases hq : q = p
    · subst hq
      rw [ha] at hc
      cases hc
      exact .fail (Or.inr ha) (by simp [setRet, setThread])
        (by simp) (by simp)
    · exact hsame (hother hq (by rw [ha]; rfl)).1 rfl (hset hq rfl)
  | forkRunnable c q m hw ha hl =>
    by_cases hq : q = p
    · subst hq
      rw [ha] at hc
      cases hc
      exact .ready ha (by simp [setRet, setThread]) (PTable.set_self ..)
    · exact hsame (hother hq (by rw [ha]; rfl)).1 rfl (hset hq rfl)
  | _ => exact he.elim

end Proc

end Xv6
