import Xv6.Proc.Lineage
import Xv6.Proc.Pids

/-!
# Reaping

What `wait` reports. A zombie is freed by `wait` in its parent and nowhere else, and the call
returns the pid of the child it has freed; a slot that is freed twice has been given to a new
process in between. The value `-1` says that there is nothing to wait for, or that the caller has
been killed, but it is also what `wait` returns when it has freed a child whose pid is `-1`, and
`allocproc` hands out that pid once in `2³²` calls.

## Main definitions

* `Waits`, `WaitReturns` — a step that is a pass of the loop of `wait`, and one in which it returns
* `Reaps` — a step that frees a zombie

## Main results

* `waitReturns_iff` — what `wait` returns, by what its scan finds
* `reaped_of_step` — a zombie is freed only by `wait` in its parent, which returns its pid
* `realloc_between` — a slot that is reaped twice has been given to a new process in between
* `reaping`
-/

namespace Xv6

namespace Proc

open State Transition

variable {n : ℕ} {s s' : State n} {e : Event n}

/-- The step is a pass of the loop of `wait` by `p` on CPU `c`: the first one of a call, or one
after a wakeup. -/
def Waits (s : State n) (e : Event n) (c : Fin (n + 1)) (p : Slot) : Prop :=
  e = .wait c ∧ s.work c = some p ∨
    e = .resume c ∧ (s.cpu c).mode = .running p ∧ s.lock = some c ∧ (s.thread p).resume = .waiting

/-- A call of `wait` by `p` returns `v` in this step. -/
def WaitReturns (s : State n) (e : Event n) (s' : State n) (p : Slot) (v : BitVec 32) : Prop :=
  ∃ c, Waits s e c p ∧ (s'.cpu c).mode = .running p ∧ (s'.thread p).ret = v

/-- The step frees the zombie `z`. -/
def Reaps (s s' : State n) (z : Slot) : Prop :=
  (s.ptable z).state = .zombie ∧ (s'.ptable z).state = .unused

/-- `z` is the first zombie child of `p` in table order. -/
def FirstZombie (t : PTable) (p z : Slot) : Prop :=
  (t z).parent = some p ∧ (t z).state = .zombie ∧
    ∀ q < z, (t q).parent = some p → (t q).state ≠ .zombie

/-! ### The value of `wait` -/

/-- The scan of `wait` does not look at the channel. -/
theorem waitScan_chan (t : PTable) (p : Slot) :
    waitScan (t.set p { t p with chan := none }) p = waitScan t p := by
  have hfield : ∀ q, (t.set p { t p with chan := none } q).parent = (t q).parent ∧
      (t.set p { t p with chan := none } q).state = (t q).state ∧
      (t.set p { t p with chan := none } q).pid = (t q).pid ∧
      (t.set p { t p with chan := none } q).killed = (t q).killed := by
    intro q
    rw [PTable.set_apply]
    split
    · next h => subst h; exact ⟨rfl, rfl, rfl, rfl⟩
    · exact ⟨rfl, rfl, rfl, rfl⟩
  generalize t.set p { t p with chan := none } = u at hfield
  unfold waitScan
  simp only [hfield]

/-- What a pass of the loop of `wait` comes to, in terms of the table before the step. -/
theorem waits_of_step (h : step s e = some s') {c : Fin (n + 1)} {p : Slot} (hw : Waits s e c p) :
    ∃ t : State n, s' = t.waitStep c p ∧ waitScan t.ptable p = waitScan s.ptable p ∧
      t.cpu = s.cpu ∧ ∀ q, (t.ptable q).state = (s.ptable q).state := by
  rcases hw with ⟨rfl, hw⟩ | ⟨rfl, hm, hl, hr⟩
  · cases Step.of_step h with
    | wait _ q hq ha hl =>
      obtain rfl : q = p := Option.some.inj (hq.symm.trans hw)
      exact ⟨s, rfl, rfl, rfl, fun _ => rfl⟩
  · have hmode : ∀ q, (s.cpu c).mode = .running q → q = p := fun q hq =>
      Mode.running.inj (hq.symm.trans hm)
    cases Step.of_step h with
    | resume _ q hq _ hres =>
      obtain rfl := hmode q hq
      rw [hr] at hres
      rcases hres with hres | hres <;> cases hres
    | resumeSp _ q hq _ hres =>
      obtain rfl := hmode q hq
      rw [hr] at hres
      cases hres
    | resumeSleep _ q hq _ hres =>
      obtain rfl := hmode q hq
      rw [hr] at hres
      cases hres
    | resumeWait _ q hq _ _ =>
      obtain rfl := hmode q hq
      exact ⟨_, rfl, waitScan_chan s.ptable q, rfl, PTable.set_state rfl⟩

theorem Waits.mode {c : Fin (n + 1)} {p : Slot} (hw : Waits s e c p) :
    (s.cpu c).mode = .running p := by
  rcases hw with ⟨-, hw⟩ | ⟨-, hm, -⟩
  · exact (mode_of_work hw).1
  · exact hm

/-- **The value of `wait`.** A pass of the loop returns `v` exactly if its scan finds a zombie child
with pid `v`, or gives up and `v` is `-1`. -/
theorem waitReturns_iff (h : step s e = some s') {c : Fin (n + 1)} {p : Slot} {v : BitVec 32}
    (hw : Waits s e c p) :
    (s'.cpu c).mode = .running p ∧ (s'.thread p).ret = v ↔
      (∃ z, waitScan s.ptable p = .reaped z v ∧ (s'.ptable z).state = .unused) ∨
        waitScan s.ptable p = .failed ∧ v = -1#32 := by
  obtain ⟨t, rfl, hscan, hcpu, -⟩ := waits_of_step h hw
  have hm := hw.mode
  rw [← hcpu] at hm
  rw [← hscan]
  unfold waitStep
  cases hres : waitScan t.ptable p with
  | reaped z pid =>
    have htable : waitTable t.ptable p = t.ptable.set z (reap (t.ptable z)) := by
      simp only [waitTable, hres]
    simp [setRet, setThread, hm, htable, reap, eq_comm]
  | failed => simp [setRet, setThread, hm, eq_comm]
  | sleeps => simp [sched]

theorem waitScan_reaped_iff {t : PTable} {p z : Slot} {v : BitVec 32} :
    waitScan t p = .reaped z v ↔ FirstZombie t p z ∧ v = (t z).pid := by
  constructor
  · intro h
    obtain ⟨hpar, hz, hv⟩ := waitScan_reaped h
    refine ⟨⟨hpar, hz, fun q hq hqpar hqz => ?_⟩, hv⟩
    unfold waitScan at h
    split at h
    · next r hr =>
      cases h
      exact of_decide_eq_false ((find?_slots_eq_some.mp hr).2 q hq) ⟨hqpar, hqz⟩
    · split at h <;> cases h
  · rintro ⟨⟨hpar, hz, hfirst⟩, rfl⟩
    exact waitScan_eq_reaped hpar hz hfirst

/-! ### Who frees a zombie -/

/-- A step that frees a zombie is a pass of the loop of `wait` by its parent, and its scan has found
that zombie. -/
theorem waits_of_reaps (hs : Wf s) (h : step s e = some s') {z : Slot} (hr : Reaps s s' z) :
    ∃ c p, Waits s e c p ∧ waitScan s.ptable p = .reaped z (s.ptable z).pid := by
  obtain ⟨hz, hu⟩ := hr
  -- a pass that leaves `z` unused has reaped `z`
  have hscan : ∀ c p, Waits s e c p → waitScan s.ptable p = .reaped z (s.ptable z).pid := by
    intro c p hw
    obtain ⟨t, rfl, hsame, -, hstate⟩ := waits_of_step h hw
    have hne : z ≠ p := by
      rintro rfl
      rw [hs.running c z hw.mode] at hz
      cases hz
    have hzt : (t.ptable z).state ≠ .unused := by
      rw [hstate, hz]
      decide
    rw [ptable_waitStep, waitTable] at hu
    rw [← hsame]
    cases hres : waitScan t.ptable p with
    | reaped q pid =>
      simp only [hres, PTable.set_apply] at hu
      split at hu
      · next hq =>
        subst hq
        rw [hsame] at hres
        rw [(waitScan_reaped hres).2.2]
      · exact absurd hu hzt
    | failed => simp only [hres] at hu; exact absurd hu hzt
    | sleeps =>
      simp only [hres, PTable.set_of_ne _ _ hne] at hu
      exact absurd hu hzt
  suffices ∃ c p, Waits s e c p by
    obtain ⟨c, p, hw⟩ := this
    exact ⟨c, p, hw, hscan c p hw⟩
  have hchild : ∀ {p}, (s.thread p).act.child ≠ some z := fun hc => by
    rw [hs.child _ z hc] at hz
    cases hz
  have hsame : s'.ptable = s.ptable → False := fun htable => by
    rw [htable, hz] at hu
    cases hu
  have hslot := SlotStep.of_step hs h z
  generalize hq : s'.ptable z = q at hslot hu
  cases hslot with
  | reap c _ p hm he hpar _ =>
    rcases he with rfl | rfl
    · cases Step.of_step h with
      | wait _ r hw ha hl => exact ⟨c, r, Or.inl ⟨rfl, hw⟩⟩
    · cases Step.of_step h with
      | resume | resumeSp => exact (hsame rfl).elim
      | resumeSleep _ r hm' _ _ =>
        have : (s.ptable.set r { s.ptable r with chan := none } z).state = .zombie := by
          rw [PTable.set_state (by rfl), hz]
        rw [ptable_setProc] at hq
        rw [hq] at this
        cases this
      | resumeWait _ r hm' hl hr => exact ⟨c, r, Or.inr ⟨rfl, hm', hl, hr⟩⟩
  | same | kalloc | copyuvm | feedback | unchan | setprio | fault =>
    exact absurd (hz.symm.trans hu) (by decide)
  | claim c second hr => exact absurd (hz.symm.trans hr) (by decide)
  | kallocFail c p hw ha => exact (hchild (p := p) (by rw [ha]; rfl)).elim
  | copyuvmFail c p hw ha => exact (hchild (p := p) (by rw [ha]; rfl)).elim
  | ready | dispatch | yield | sleep | waits | exits | woken => cases hu
  | bereaved c p st hw hr ha hst =>
    rcases hst with hst | ⟨-, hst⟩
    · rw [hst, hz] at hu; cases hu
    · rw [hst] at hu; cases hu
  | killed c pid hpid hf => simp [hz] at hu

/-- A zombie is freed only by `wait` in its parent, which returns its pid. -/
theorem reaped_of_step (hs : Wf s) (h : step s e = some s') {z : Slot} (hr : Reaps s s' z) :
    ∃ p, (s.ptable z).parent = some p ∧ WaitReturns s e s' p (s.ptable z).pid := by
  obtain ⟨c, p, hw, hscan⟩ := waits_of_reaps hs h hr
  exact ⟨p, (waitScan_reaped hscan).1, c, hw,
    (waitReturns_iff h hw).mpr (Or.inl ⟨z, hscan, hr.2⟩)⟩

/-- Only `allocproc` puts a slot into use, and it is the slot that its scan has found. -/
theorem claimed_of_step (hs : Wf s) (h : step s e = some s') {z : Slot}
    (hu : (s.ptable z).state = .unused) (hu' : (s'.ptable z).state ≠ .unused) :
    ∃ c second, e = .allocproc c second ∧ allocprocScan s.ptable = some z := by
  rcases live_step hs h with hsub | ⟨⟨c, second, rfl⟩, -⟩
  · exact absurd hu (mem_live.mp (hsub (mem_live.mpr hu')))
  · refine ⟨c, second, rfl, ?_⟩
    cases Step.of_step h with
    | allocFail => exact absurd hu hu'
    | alloc _ p np _ hw ha hl hn =>
      by_contra hne
      have hnp : z ≠ np := by rintro rfl; exact hne hn
      have : (s.ptable.set np _ z).state ≠ .unused := hu'
      rw [PTable.set_of_ne _ _ hnp] at this
      exact this hu

/-- A slot that comes into use during a run has been given to a new process in that run. -/
theorem claimed_of_run {es : List (Event n)} {z : Slot} (hs : Wf s)
    (hr : run step s es = some s') (hu : (s.ptable z).state = .unused)
    (hu' : (s'.ptable z).state ≠ .unused) :
    ∃ es₁ c second es₂ t, es = es₁ ++ .allocproc c second :: es₂ ∧ run step s es₁ = some t ∧
      allocprocScan t.ptable = some z := by
  induction es generalizing s with
  | nil => cases hr; exact absurd hu hu'
  | cons e es ih =>
    obtain ⟨t, hst, hr⟩ := (run_cons_eq_some step).mp hr
    by_cases hut : (t.ptable z).state = .unused
    · obtain ⟨es₁, c, second, es₂, u, rfl, hrun, hscan⟩ := ih (hs.step hst) hr hut
      exact ⟨e :: es₁, c, second, es₂, u, rfl,
        (run_cons_eq_some step).mpr ⟨t, hst, hrun⟩, hscan⟩
    · obtain ⟨c, second, rfl, hscan⟩ := claimed_of_step hs hst hu hut
      exact ⟨[], c, second, es, s, rfl, rfl, hscan⟩

/-- A slot that is freed twice has been given to a new process in between. -/
theorem realloc_between {es : List (Event n)} {t t' : State n} {z : Slot} (hs : Wf s)
    (h : step s e = some s') (hz : Reaps s s' z) (hr : run step s' es = some t)
    (hz' : Reaps t t' z) :
    ∃ es₁ c second es₂ u, es = es₁ ++ .allocproc c second :: es₂ ∧ run step s' es₁ = some u ∧
      allocprocScan u.ptable = some z :=
  claimed_of_run (hs.step h) hr hz.2 (by rw [hz'.1]; decide)

/-! ### The pid `-1` -/

/-- In this step `wait` does not return `-1` to a process that has a child and has not been
killed. -/
def MinusOneOk (s : State n) (e : Event n) (s' : State n) : Prop :=
  ∀ p, WaitReturns s e s' p (-1#32) →
    (∀ q, (s.ptable q).parent ≠ some p) ∨ (s.ptable p).killed = true

/-- The first zombie child that a pass of `wait` finds has not pid `-1`, or the caller has been
killed. -/
def NoMinusOneFound (s : State n) (e : Event n) : Prop :=
  ∀ c p z, Waits s e c p → FirstZombie s.ptable p z → (s.ptable z).pid = -1#32 →
    (s.ptable p).killed = true

theorem minusOneOk_iff (h : step s e = some s') :
    MinusOneOk s e s' ↔ NoMinusOneFound s e := by
  constructor
  · intro hok c p z hw hz hpid
    have hscan : waitScan s.ptable p = .reaped z (-1#32) :=
      waitScan_reaped_iff.mpr ⟨hz, hpid.symm⟩
    obtain ⟨t, rfl, hsame, -, -⟩ := waits_of_step h hw
    have hunused : ((t.waitStep c p).ptable z).state = .unused := by
      rw [← hsame] at hscan
      simp [waitTable, hscan, reap]
    have hret : WaitReturns s e (t.waitStep c p) p (-1#32) :=
      ⟨c, hw, (waitReturns_iff h hw).mpr (Or.inl ⟨z, hscan, hunused⟩)⟩
    exact (hok p hret).resolve_left fun hnone => hnone z hz.1
  · rintro hno p ⟨c, hw, hret⟩
    rcases (waitReturns_iff h hw).mp hret with ⟨z, hscan, -⟩ | ⟨hscan, -⟩
    · obtain ⟨hz, hpid⟩ := waitScan_reaped_iff.mp hscan
      exact Or.inr (hno c p z hw hz hpid.symm)
    · exact waitScan_failed hscan

/-- `allocproc` is not called when the counter has come to `-1`. -/
def NoMinusOne (s : State n) (e : Event n) : Prop := e.isAlloc = true → s.nextpid ≠ -1#32

theorem pid_ne_of_step (hs : Wf s) (hok : NoMinusOne s e) (h : step s e = some s') {p : Slot}
    (hp : (s.ptable p).pid ≠ -1#32) : (s'.ptable p).pid ≠ -1#32 := by
  have hslot := SlotStep.of_step hs h p
  generalize s'.ptable p = q at hslot ⊢
  cases hslot with
  | claim c second hr => exact hok rfl
  | reap c e p hm he hpar hz => exact show (0 : BitVec 32) ≠ -1#32 by decide
  | _ => exact hp

theorem pid_ne_of_reach {second : BitVec 32} (h : Reach step NoMinusOne (boot n second) s)
    (p : Slot) : (s.ptable p).pid ≠ -1#32 := by
  have : Wf s ∧ ∀ p, (s.ptable p).pid ≠ -1#32 := by
    refine h.induct (P := fun s => Wf s ∧ ∀ p, (s.ptable p).pid ≠ -1#32)
      ⟨boot_wf n second, fun p => ?_⟩ fun s e s' ih hok hst =>
      ⟨ih.1.step hst, fun p => pid_ne_of_step ih.1 hok hst (ih.2 p)⟩
    by_cases hp : p = 0
    · subst hp
      simp [boot, initcode]
    · rw [boot_ptable_of_ne n second hp]
      decide
  exact this.2 p

/-! ### Reaping -/

/-- Every process other than `initproc` that has been created and not yet reaped has a parent that
is neither `UNUSED` nor `ZOMBIE`. -/
def ParentsAlive (s : State n) : Prop :=
  ∀ p, p ≠ s.initproc →
    (s.ptable p).state ∈ [ProcState.sleeping, .runnable, .running, .zombie] →
    ∃ q, (s.ptable p).parent = some q ∧ (s.ptable q).state ≠ .unused ∧
      (s.ptable q).state ≠ .zombie

theorem Lineage.parentsAlive (h : Lineage s) : ParentsAlive s := by
  intro p hp hst
  obtain ⟨q, -, hpar, hq⟩ := h.parent p hp (by simpa [ProcState.Alive, or_assoc] using hst)
  refine ⟨q, hpar, ?_, ?_⟩ <;> rcases hq with hq | hq | hq <;> rw [hq] <;> decide

/-- **Reaping.** In every reachable state:
the parents of processes are alive;
a zombie is freed only by `wait` in its parent, which returns its pid;
when `wait` returns, it has freed a child and returns its pid, or it has found no zombie child and
returns `-1`;
a slot that is freed twice is given to a new process in between;
and `wait` returns `-1` only to a process that has no child or has been killed, if and only if the
zombie it finds has not pid `-1`, which never happens in a run that does not call `allocproc` when
the counter has come to `-1`. -/
theorem reaping (n : ℕ) (second : BitVec 32) :
    (∀ s : State n, Reach step (fun _ _ => True) (boot n second) s →
      (s.lock = none → ParentsAlive s) ∧
      ∀ e s', step s e = some s' →
        (∀ z, Reaps s s' z →
          ∃ p, (s.ptable z).parent = some p ∧ WaitReturns s e s' p (s.ptable z).pid) ∧
        (∀ p v, WaitReturns s e s' p v →
          (∃ z, Reaps s s' z ∧ (s.ptable z).parent = some p ∧ v = (s.ptable z).pid) ∨
            v = -1#32 ∧ ∀ z, (s.ptable z).parent = some p → (s.ptable z).state ≠ .zombie) ∧
        (∀ z es t e' t', Reaps s s' z → run step s' es = some t → step t e' = some t' →
          Reaps t t' z → ∃ es₁ c second es₂ u, es = es₁ ++ .allocproc c second :: es₂ ∧
            run step s' es₁ = some u ∧ allocprocScan u.ptable = some z) ∧
        (MinusOneOk s e s' ↔ NoMinusOneFound s e)) ∧
    ∀ s : State n, Reach step NoMinusOne (boot n second) s →
      ∀ e s', step s e = some s' → MinusOneOk s e s' := by
  refine ⟨fun s hreach => ⟨fun _ => (Lineage.of_reach hreach).parentsAlive, fun e s' h => ?_⟩,
    fun s hreach e s' h => ?_⟩
  · have hs : Wf s := Wf.of_reach hreach
    refine ⟨fun z => reaped_of_step hs h, ?_,
      fun z es t e' t' hz hr _ => realloc_between hs h hz hr, minusOneOk_iff h⟩
    rintro p v ⟨c, hw, hret⟩
    rcases (waitReturns_iff h hw).mp hret with ⟨z, hscan, hu⟩ | ⟨hscan, hv⟩
    · obtain ⟨hpar, hz, hpid⟩ := waitScan_reaped hscan
      exact Or.inl ⟨z, ⟨hz, hu⟩, hpar, hpid⟩
    · exact Or.inr ⟨hv, waitScan_failed_none hscan⟩
  · refine (minusOneOk_iff h).mpr fun c p z hw hz hpid => ?_
    exact absurd hpid (pid_ne_of_reach hreach z)

/-- On the two CPUs of the Makefile, the child created after `2³² - 3` generations has pid `-1`.
When it has exited, `wait` frees it and returns `-1`, although the caller has a child and has not
been killed. -/
theorem wait_minus_one_of_child : ∃ s s' : State 1,
    run step (boot 1 0) (generations (2 ^ 32 - 3) ++ childLife 0) = some s ∧
      step s (.resume 0) = some s' ∧ WaitReturns s (.resume 0) s' 0 (-1#32) ∧
      (s.ptable 1).parent = some 0 ∧ (s.ptable 1).state = .zombie ∧ (s.ptable 0).killed = false ∧
      ¬ MinusOneOk s (.resume 0) s' := by
  obtain ⟨t, th, hrun, hhome⟩ := run_generations 1 0 (2 ^ 32 - 3)
  rw [show 2#32 + BitVec.ofNat 32 (2 ^ 32 - 3) = -1#32 by decide] at hrun
  obtain ⟨t₁, th₁, hlife, hcoll⟩ := run_childLife (n := 1) 0 (-1#32) 0 hhome
  obtain ⟨t₂, th₂, hcollect, -, hret⟩ := run_collect (n := 1) 0 (-1#32 + 1#32) hcoll
  obtain ⟨s', hstep, hnil⟩ := (run_cons_eq_some step).mp hcollect
  cases hnil
  have hreturns : WaitReturns (soloSwitched (n := 1) 0 t₁ th₁ 0 (-1#32 + 1#32) 0) (.resume 0)
      (soloRunning 0 t₂ th₂ 0 (-1#32 + 1#32) 0 0) 0 (-1#32) :=
    ⟨0, Or.inr ⟨rfl, by simp [soloSwitched, solo], rfl, hcoll.resume⟩,
      by simp [soloRunning, solo], hret⟩
  refine ⟨_, _, by rw [run_append, hrun, Option.bind_some, hlife], hstep, hreturns,
    hcoll.child.2.2, hcoll.child.1, hcoll.first.2.2.2.1, fun hok => ?_⟩
  rcases hok 0 hreturns with hnone | hkill
  · exact hnone 1 hcoll.child.2.2
  · exact absurd (hcoll.first.2.2.2.1.symm.trans hkill) (by rintro ⟨⟩)

end Proc

end Xv6
