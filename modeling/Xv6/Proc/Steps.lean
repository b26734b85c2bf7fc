import Xv6.Proc.Machine

/-!
# The steps of the process machine, one by one

`step` is a function, which is what a run needs; a proof about all steps wants to know once and for
all what a step can do. `Step` lists the possibilities, each with the guards under which it happens
and the state it leads to, and `Step.of_step` says that there are no others. Every invariant is then
a case analysis on `Step`, without unfolding the machine again.

## Main results

* `Step.of_step` — inversion of `step`
* `step_ticks` — only CPU `0`'s timer interrupt advances `ticks`
* `CpuStep.of_step` — inversion of `step` for the control state of one CPU
-/

namespace Xv6

namespace Proc

open State

variable {n : ℕ}

/-! ### What the small updates leave alone -/

section Frames

variable (s : State n) (c : Fin (n + 1)) (p : Slot)

@[simp] theorem ptable_setMode (m : Mode) : (s.setMode c m).ptable = s.ptable := rfl

@[simp] theorem ptable_setIrq (i : Irq) : (s.setIrq c i).ptable = s.ptable := rfl

@[simp] theorem ptable_setThread (th : Thread) : (s.setThread p th).ptable = s.ptable := rfl

@[simp] theorem ptable_setAct (a : Act) : (s.setAct p a).ptable = s.ptable := rfl

@[simp] theorem ptable_setRet (v : BitVec 32) : (s.setRet p v).ptable = s.ptable := rfl

@[simp] theorem ptable_setProc (q : Proc) : (s.setProc p q).ptable = s.ptable.set p q := rfl

@[simp] theorem ptable_sched (r : Resume) : (s.sched c p r).ptable = s.ptable := rfl

@[simp] theorem ptable_waitStep : (s.waitStep c p).ptable = waitTable s.ptable p := by
  unfold waitStep
  cases waitScan s.ptable p <;> rfl

end Frames

/-! ### Inversion -/

/-- What a step can do. -/
inductive Step (s : State n) : Event n → State n → Prop
  | acquire (c) (hm : (s.cpu c).mode = .idle) (hi : (s.cpu c).irq = .none) (hl : s.lock = none) :
      Step s (.acquire c) { s.setMode c .locked with lock := some c }
  | scanIdle (c) (hm : (s.cpu c).mode = .locked) (hf : schedFlag s.ptable = false) :
      Step s (.scan c) { s.setMode c .idle with lock := none }
  | scanStop (c) (st : Status) (hm : (s.cpu c).mode = .locked) (hf : schedFlag s.ptable = true)
      (hst : st = .divideError ∧ (schedPlist s.ptable).idx = 0 ∨
        st = .plistOverflow ∧ plistSize < (schedPlist s.ptable).idx) :
      Step s (.scan c) { s with status := st }
  | scanPick (c) (p : Slot) (hm : (s.cpu c).mode = .locked)
      (hr : (schedPlist s.ptable).read (schedSch s.ptable s.ticks) = some p) :
      Step s (.scan c) (s.setMode c (.picked p))
  | readStart (c) (p : Slot) (hm : (s.cpu c).mode = .picked p) :
      Step s (.readStart c) { s with
        cpu := Function.update s.cpu c { s.cpu c with start := s.ticks, mode := .started p } }
  | dispatch (c) (p : Slot) (hm : (s.cpu c).mode = .started p) :
      Step s (.dispatch c) { s.setProc p { s.ptable p with state := .running } with
        cpu := Function.update s.cpu c { s.cpu c with proc := some p, mode := .running p } }
  | readEnd (c) (p : Slot) (hm : (s.cpu c).mode = .returned p) :
      Step s (.readEnd c) (s.setMode c (.ended p s.ticks))
  | feedback (c) (p : Slot) (stop) (hm : (s.cpu c).mode = .ended p stop) :
      Step s (.feedback c) { s.setProc p { s.ptable p with
          prio := Proc.feedback (s.cpu c).start stop (s.ptable p).prio } with
        cpu := Function.update s.cpu c { s.cpu c with proc := none, mode := .idle }
        lock := none }
  | resume (c) (p : Slot) (hm : (s.cpu c).mode = .running p) (hl : s.lock = some c)
      (hr : (s.thread p).resume = .forkret ∨ (s.thread p).resume = .yielded) :
      Step s (.resume c) { s with lock := none }
  | resumeSp (c) (p : Slot) (hm : (s.cpu c).mode = .running p) (hl : s.lock = some c)
      (hr : (s.thread p).resume = .yielded) (ha : (s.thread p).act = .spYielding) :
      Step s (.resume c) { s.setRet p 0 with lock := none }
  | resumeSleep (c) (p : Slot) (hm : (s.cpu c).mode = .running p) (hl : s.lock = some c)
      (hr : (s.thread p).resume = .slept) :
      Step s (.resume c) { s.setProc p { s.ptable p with chan := none } with lock := none }
  | resumeWait (c) (p : Slot) (hm : (s.cpu c).mode = .running p) (hl : s.lock = some c)
      (hr : (s.thread p).resume = .waiting) :
      Step s (.resume c) ((s.setProc p { s.ptable p with chan := none }).waitStep c p)
  | allocFail (c) (p : Slot) (second) (hw : s.work c = some p) (ha : (s.thread p).act = .user)
      (hl : s.lock = none) (hn : allocprocScan s.ptable = none) :
      Step s (.allocproc c second) (s.setRet p (-1#32))
  | alloc (c) (p np : Slot) (second) (hw : s.work c = some p) (ha : (s.thread p).act = .user)
      (hl : s.lock = none) (hn : allocprocScan s.ptable = some np) :
      Step s (.allocproc c second) ({ s with
        ptable := allocprocTable s.ptable np s.nextpid second
        nextpid := s.nextpid + 1#32 }.setAct p (.forkAlloc np))
  | kallocOk (c) (p np : Slot) (hw : s.work c = some p) (ha : (s.thread p).act = .forkAlloc np) :
      Step s (.kalloc c true) (((s.setProc np { s.ptable np with kstack := true }).setAct p
        (.forkCopy np)).setThread np ⟨.user, .forkret, 0⟩)
  | kallocFail (c) (p np : Slot) (hw : s.work c = some p) (ha : (s.thread p).act = .forkAlloc np) :
      Step s (.kalloc c false) ((s.setProc np { s.ptable np with
        kstack := false, state := .unused }).setRet p (-1#32))
  | copyOk (c) (p np : Slot) (hw : s.work c = some p) (ha : (s.thread p).act = .forkCopy np) :
      Step s (.copyuvm c true) ((s.setProc np { s.ptable np with
        pgdir := true, parent := some p }).setAct p (.forkReady np))
  | copyFail (c) (p np : Slot) (hw : s.work c = some p) (ha : (s.thread p).act = .forkCopy np) :
      Step s (.copyuvm c false) ((s.setProc np { s.ptable np with
        pgdir := false, kstack := false, state := .unused }).setRet p (-1#32))
  | forkRunnable (c) (p np : Slot) (hw : s.work c = some p)
      (ha : (s.thread p).act = .forkReady np) (hl : s.lock = none) :
      Step s (.forkRunnable c)
        ((s.setProc np { s.ptable np with state := .runnable }).setRet p (s.ptable np).pid)
  | exitInit (c) (hw : s.work c = some s.initproc) :
      Step s (.exit c) { s with status := .panicked }
  | exit (c) (p : Slot) (hw : s.work c = some p)
      (ha : (s.thread p).act = .user ∨ (s.thread p).act = .exiting) (hp : p ≠ s.initproc)
      (hl : s.lock = none) :
      Step s (.exit c) ({ s with ptable := exitTable s.ptable s.initproc p }.sched c p .yielded)
  | wait (c) (p : Slot) (hw : s.work c = some p) (ha : (s.thread p).act = .user)
      (hl : s.lock = none) : Step s (.wait c) (s.waitStep c p)
  | sleep (c) (p : Slot) (chan) (hw : s.work c = some p)
      (ha : (s.thread p).act = .user ∨ (s.thread p).act = .exiting) (hl : s.lock = none)
      (hc : chan.IsOther) :
      Step s (.sleep c chan)
        ((s.setProc p { s.ptable p with chan := some chan, state := .sleeping }).sched c p .slept)
  | wakeup (c) (chan) (hl : s.lock = none) (hc : chan.IsOther) :
      Step s (.wakeup c chan) { s with ptable := wakeup1 s.ptable (some chan) }
  | killFail (c) (p : Slot) (pid) (hw : s.work c = some p) (ha : (s.thread p).act = .user)
      (hl : s.lock = none) (hk : killTable s.ptable pid = none) :
      Step s (.kill c pid) (s.setRet p (-1#32))
  | kill (c) (p : Slot) (pid t) (hw : s.work c = some p) (ha : (s.thread p).act = .user)
      (hl : s.lock = none) (hk : killTable s.ptable pid = some t) :
      Step s (.kill c pid) ({ s with ptable := t }.setRet p 0)
  | spFail (c) (p : Slot) (v) (hw : s.work c = some p) (ha : (s.thread p).act = .user)
      (hl : s.lock = none) (hk : spTable s.ptable (s.ptable p).pid v = none) :
      Step s (.setpriority c v) (s.setRet p (-1#32))
  | sp (c) (p : Slot) (v t) (hw : s.work c = some p) (ha : (s.thread p).act = .user)
      (hl : s.lock = none) (hk : spTable s.ptable (s.ptable p).pid v = some t) :
      Step s (.setpriority c v) ({ s with ptable := t }.setAct p .spYield)
  | spYield (c) (p : Slot) (hw : s.work c = some p) (ha : (s.thread p).act = .spYield)
      (hl : s.lock = none) :
      Step s (.spYield c) (((s.setProc p { s.ptable p with state := .runnable }).setAct p
        .spYielding).sched c p .yielded)
  | getpriority (c) (p : Slot) (hw : s.work c = some p) (ha : (s.thread p).act = .user)
      (hl : s.lock = none) :
      Step s (.getpriority c) (s.setRet p (gpTable s.ptable (s.ptable p).pid))
  | timerZero (hi : (s.cpu 0).irq = .none) (hm : (s.cpu 0).mode = .idle ∨ s.work 0 ≠ none) :
      Step s (.timer 0) { s.setIrq 0 .ticked with ticks := s.ticks + 1#32 }
  | timer (c) (hc : c ≠ 0) (hi : (s.cpu c).irq = .none)
      (hm : (s.cpu c).mode = .idle ∨ s.work c ≠ none) :
      Step s (.timer c) (s.setIrq c .handled)
  | tickWakeup (c) (hi : (s.cpu c).irq = .ticked) (hl : s.lock = none) :
      Step s (.tickWakeup c)
        { s.setIrq c .handled with ptable := wakeup1 s.ptable (some .ticks) }
  | timerYield (c) (p : Slot) (hm : (s.cpu c).mode = .running p) (hi : (s.cpu c).irq = .handled)
      (hl : s.lock = none) :
      Step s (.timerYield c)
        ((s.setProc p { s.ptable p with state := .runnable }).sched c p .yielded)
  | timerEnd (c) (hm : (s.cpu c).mode = .idle) (hi : (s.cpu c).irq = .handled) :
      Step s (.timerExit c) (s.setIrq c .none)
  | timerExit (c) (p : Slot) (hm : (s.cpu c).mode = .running p) (hi : (s.cpu c).irq = .handled)
      (hk : (s.ptable p).killed = true) (ha : (s.thread p).act = .user) :
      Step s (.timerExit c) ((s.setIrq c .none).setAct p .exiting)
  | fault (c) (p : Slot) (hw : s.work c = some p) (ha : (s.thread p).act = .user) :
      Step s (.fault c) ((s.setProc p { s.ptable p with killed := true }).setAct p .exiting)

/-- The machine runs on, so the step was taken with `status = ok`. -/
theorem status_of_step {s s' : State n} {e : Event n} (h : step s e = some s') :
    s.status = .ok := by
  by_contra hne
  simp [step, hne] at h

theorem onWork_eq_some {s s' : State n} {c : Fin (n + 1)} {ok : Slot → Bool}
    {k : Slot → Option (State n)} :
    s.onWork c ok k = some s' ↔ ∃ p, s.work c = some p ∧ ok p = true ∧ k p = some s' := by
  rw [onWork, Option.bind_eq_some_iff]
  refine exists_congr fun p => and_congr_right fun _ => ?_
  cases ok p <;> simp

theorem canCall_iff {s : State n} {p : Slot} :
    s.canCall p = true ↔ (s.thread p).act = .user ∧ s.lock = none := by
  simp [canCall]

private theorem Step.of_scan {s s' : State n} {c : Fin (n + 1)} (hm : (s.cpu c).mode = .locked)
    (h : s.scanStep c = some s') : Step s (.scan c) s' := by
  unfold scanStep at h
  split at h
  · next hf => cases h; exact .scanIdle c hm hf
  · next hf =>
    have hf : schedFlag s.ptable = true := by simpa using hf
    split at h
    · next hx => cases h; exact .scanStop c _ hm hf (Or.inl ⟨rfl, hx⟩)
    · split at h
      · next hx => cases h; exact .scanStop c _ hm hf (Or.inr ⟨rfl, hx⟩)
      · obtain ⟨p, hp, rfl⟩ := Option.map_eq_some_iff.mp h
        exact .scanPick c p hm hp

private theorem Step.of_resume {s : State n} {c : Fin (n + 1)} {p : Slot}
    (hm : (s.cpu c).mode = .running p) (hl : s.lock = some c) :
    Step s (.resume c) (s.resumeStep c p) := by
  unfold resumeStep
  cases hr : (s.thread p).resume with
  | forkret => exact .resume c p hm hl (Or.inl hr)
  | yielded =>
    by_cases ha : (s.thread p).act = .spYielding
    · simp only [ha, if_true]
      exact .resumeSp c p hm hl hr ha
    · simp only [ha, if_false]
      exact .resume c p hm hl (Or.inr hr)
  | slept => exact .resumeSleep c p hm hl hr
  | waiting => exact .resumeWait c p hm hl hr

/-- **Inversion.** Every step of the machine is one of those listed in `Step`. -/
theorem Step.of_step {s s' : State n} {e : Event n} (h : step s e = some s') : Step s e s' := by
  have hok : ¬ s.status ≠ .ok := not_not.mpr (status_of_step h)
  unfold step at h
  rw [if_neg hok] at h
  cases e with
  | acquire c =>
    obtain ⟨⟨hm, hi, hl⟩, h⟩ := Option.ite_none_right_eq_some.mp h
    cases h
    exact .acquire c hm hi hl
  | scan c =>
    obtain ⟨hm, h⟩ := Option.ite_none_right_eq_some.mp h
    exact .of_scan hm h
  | readStart c =>
    simp only at h
    split at h
    · next p hm => cases h; exact .readStart c p hm
    · cases h
  | dispatch c =>
    simp only at h
    split at h
    · next p hm => cases h; exact .dispatch c p hm
    · cases h
  | readEnd c =>
    simp only at h
    split at h
    · next p hm => cases h; exact .readEnd c p hm
    · cases h
  | feedback c =>
    simp only at h
    split at h
    · next p stop hm => cases h; exact .feedback c p stop hm
    · cases h
  | resume c =>
    simp only at h
    split at h
    · next p hm =>
      obtain ⟨hl, h⟩ := Option.ite_none_right_eq_some.mp h
      cases h
      exact .of_resume hm hl
    · cases h
  | allocproc c second =>
    obtain ⟨p, hw, hc, h⟩ := onWork_eq_some.mp h
    obtain ⟨ha, hl⟩ := canCall_iff.mp hc
    split at h
    · next hn => cases h; exact .allocFail c p second hw ha hl hn
    · next np hn => cases h; exact .alloc c p np second hw ha hl hn
  | kalloc c ok =>
    obtain ⟨p, hw, -, h⟩ := onWork_eq_some.mp h
    split at h
    · next np ha =>
      cases ok with
      | true => cases h; exact .kallocOk c p np hw ha
      | false => cases h; exact .kallocFail c p np hw ha
    · cases h
  | copyuvm c ok =>
    obtain ⟨p, hw, -, h⟩ := onWork_eq_some.mp h
    split at h
    · next np ha =>
      cases ok with
      | true => cases h; exact .copyOk c p np hw ha
      | false => cases h; exact .copyFail c p np hw ha
    · cases h
  | forkRunnable c =>
    obtain ⟨p, hw, hl, h⟩ := onWork_eq_some.mp h
    split at h
    · next np ha => cases h; exact .forkRunnable c p np hw ha (by simpa using hl)
    · cases h
  | exit c =>
    obtain ⟨p, hw, ha, h⟩ := onWork_eq_some.mp h
    split at h
    · next hp => cases h; subst hp; exact .exitInit c hw
    · next hp =>
      obtain ⟨hl, h⟩ := Option.ite_none_right_eq_some.mp h
      cases h
      exact .exit c p hw (by simpa using ha) hp hl
  | wait c =>
    obtain ⟨p, hw, hc, h⟩ := onWork_eq_some.mp h
    obtain ⟨ha, hl⟩ := canCall_iff.mp hc
    cases h
    exact .wait c p hw ha hl
  | sleep c chan =>
    obtain ⟨p, hw, hc, h⟩ := onWork_eq_some.mp h
    obtain ⟨ha, hl, hch⟩ := of_decide_eq_true hc
    cases h
    exact .sleep c p chan hw ha hl hch
  | wakeup c chan =>
    obtain ⟨⟨hl, hc⟩, h⟩ := Option.ite_none_right_eq_some.mp h
    cases h
    exact .wakeup c chan hl hc
  | kill c pid =>
    obtain ⟨p, hw, hc, h⟩ := onWork_eq_some.mp h
    obtain ⟨ha, hl⟩ := canCall_iff.mp hc
    split at h
    · next hk => cases h; exact .killFail c p pid hw ha hl hk
    · next t hk => cases h; exact .kill c p pid t hw ha hl hk
  | setpriority c v =>
    obtain ⟨p, hw, hc, h⟩ := onWork_eq_some.mp h
    obtain ⟨ha, hl⟩ := canCall_iff.mp hc
    split at h
    · next hk => cases h; exact .spFail c p v hw ha hl hk
    · next t hk => cases h; exact .sp c p v t hw ha hl hk
  | spYield c =>
    obtain ⟨p, hw, hc, h⟩ := onWork_eq_some.mp h
    obtain ⟨ha, hl⟩ := of_decide_eq_true hc
    cases h
    exact .spYield c p hw ha hl
  | getpriority c =>
    obtain ⟨p, hw, hc, h⟩ := onWork_eq_some.mp h
    obtain ⟨ha, hl⟩ := canCall_iff.mp hc
    cases h
    exact .getpriority c p hw ha hl
  | timer c =>
    obtain ⟨⟨hi, hm⟩, h⟩ := Option.ite_none_right_eq_some.mp h
    split at h
    · next hc => cases h; subst hc; exact .timerZero hi hm
    · next hc => cases h; exact .timer c hc hi hm
  | tickWakeup c =>
    obtain ⟨⟨hi, hl⟩, h⟩ := Option.ite_none_right_eq_some.mp h
    cases h
    exact .tickWakeup c hi hl
  | timerYield c =>
    simp only at h
    split at h
    · next p hm =>
      obtain ⟨⟨hi, hl⟩, h⟩ := Option.ite_none_right_eq_some.mp h
      cases h
      exact .timerYield c p hm hi hl
    · cases h
  | timerExit c =>
    obtain ⟨hi, h⟩ := Option.ite_none_right_eq_some.mp h
    split at h
    · next hm => cases h; exact .timerEnd c hm hi
    · next p hm =>
      obtain ⟨⟨hk, ha⟩, h⟩ := Option.ite_none_right_eq_some.mp h
      cases h
      exact .timerExit c p hm hi hk ha
    · cases h
  | fault c =>
    obtain ⟨p, hw, hc, h⟩ := onWork_eq_some.mp h
    cases h
    exact .fault c p hw (of_decide_eq_true hc)

/-! ### The clock and the other CPUs -/

/-- The CPU that takes a step. -/
def Event.cpu : Event n → Fin (n + 1)
  | .acquire c | .scan c | .readStart c | .dispatch c | .readEnd c | .feedback c | .resume c
  | .allocproc c _ | .kalloc c _ | .copyuvm c _ | .forkRunnable c | .exit c | .wait c
  | .sleep c _ | .wakeup c _ | .kill c _ | .setpriority c _ | .spYield c | .getpriority c
  | .timer c | .tickWakeup c | .timerYield c | .timerExit c | .fault c => c

theorem ticks_waitStep (s : State n) (c : Fin (n + 1)) (p : Slot) :
    (s.waitStep c p).ticks = s.ticks := by
  unfold waitStep
  cases waitScan s.ptable p <;> rfl

/-- `wait` returns to its caller or sleeps. -/
theorem cpu_waitStep (s : State n) (c : Fin (n + 1)) (p : Slot) :
    (s.waitStep c p).cpu = s.cpu ∨ (s.waitStep c p).cpu =
      Function.update s.cpu c { s.cpu c with mode := .returned p, irq := .none } := by
  unfold waitStep
  cases waitScan s.ptable p with
  | reaped q pid => exact Or.inl rfl
  | failed => exact Or.inl rfl
  | sleeps => exact Or.inr rfl

/-- Only the timer interrupt of CPU `0` advances `ticks`. -/
theorem step_ticks {s s' : State n} {e : Event n} (h : step s e = some s') :
    s'.ticks = if e = .timer 0 then s.ticks + 1#32 else s.ticks := by
  cases Step.of_step h with
  | timerZero hi hm => rw [if_pos rfl]
  | timer c hc hi hm => rw [if_neg (by simpa using hc)]; rfl
  | resumeWait c p hm hl hr => exact ticks_waitStep ..
  | wait c p hw ha hl => exact ticks_waitStep ..
  | _ => rfl

/-- A step of one CPU leaves the control state of the others alone. -/
theorem step_cpu_of_ne {s s' : State n} {e : Event n} {c : Fin (n + 1)} (h : step s e = some s')
    (hc : c ≠ e.cpu) : s'.cpu c = s.cpu c := by
  have hwait : ∀ {t : State n} {d : Fin (n + 1)} {p : Slot}, c ≠ d → t.cpu = s.cpu →
      (t.waitStep d p).cpu c = s.cpu c := by
    intro t d p hd ht
    rcases cpu_waitStep t d p with heq | heq <;> rw [heq, ht]
    exact Function.update_of_ne hd ..
  cases Step.of_step h with
  | scanStop | resume | resumeSp | resumeSleep | allocFail | alloc | kallocOk | kallocFail | copyOk
  | copyFail | forkRunnable | exitInit | wakeup | killFail | kill | spFail | sp | getpriority
  | fault => rfl
  | resumeWait d p hm hl hr => exact hwait hc rfl
  | wait d p hw ha hl => exact hwait hc rfl
  | _ => exact Function.update_of_ne hc ..

/-- The lock of `work`: a CPU at work is executing its process, without the lock. -/
theorem mode_of_work {s : State n} {c : Fin (n + 1)} {p : Slot} (h : s.work c = some p) :
    (s.cpu c).mode = .running p ∧ (s.cpu c).irq = .none ∧ s.lock ≠ some c := by
  unfold work at h
  split at h
  · next q hm =>
    split at h
    · next hw => cases h; exact ⟨hm, hw⟩
    · cases h
  · cases h

/-- What a step can do to the control state of CPU `c`. -/
inductive CpuStep (s : State n) (c : Fin (n + 1)) : Event n → Cpu → Prop
  | same (e) (ht : e ≠ .timer c) (hf : e ≠ .feedback c) : CpuStep s c e (s.cpu c)
  | acquire (hm : (s.cpu c).mode = .idle) (hi : (s.cpu c).irq = .none) :
      CpuStep s c (.acquire c) { s.cpu c with mode := .locked }
  | giveUp (hm : (s.cpu c).mode = .locked) : CpuStep s c (.scan c) { s.cpu c with mode := .idle }
  | pick (p : Slot) (hm : (s.cpu c).mode = .locked) :
      CpuStep s c (.scan c) { s.cpu c with mode := .picked p }
  | readStart (p : Slot) (hm : (s.cpu c).mode = .picked p) :
      CpuStep s c (.readStart c) { s.cpu c with start := s.ticks, mode := .started p }
  | dispatch (p : Slot) (hm : (s.cpu c).mode = .started p) :
      CpuStep s c (.dispatch c) { s.cpu c with proc := some p, mode := .running p }
  | leave (e) (p : Slot) (hm : (s.cpu c).mode = .running p) (ht : e ≠ .timer c)
      (hf : e ≠ .feedback c) : CpuStep s c e { s.cpu c with mode := .returned p, irq := .none }
  | readEnd (p : Slot) (hm : (s.cpu c).mode = .returned p) :
      CpuStep s c (.readEnd c) { s.cpu c with mode := .ended p s.ticks }
  | feedback (p : Slot) (stop) (hm : (s.cpu c).mode = .ended p stop) :
      CpuStep s c (.feedback c) { s.cpu c with proc := none, mode := .idle }
  | timer (i : Irq) (hne : i ≠ .none) (hi : (s.cpu c).irq = .none)
      (hm : (s.cpu c).mode = .idle ∨ ∃ p, (s.cpu c).mode = .running p ∧ s.lock ≠ some c) :
      CpuStep s c (.timer c) { s.cpu c with irq := i }
  | tickWakeup (hi : (s.cpu c).irq = .ticked) :
      CpuStep s c (.tickWakeup c) { s.cpu c with irq := .handled }
  | timerEnd (hm : (s.cpu c).mode = .idle) :
      CpuStep s c (.timerExit c) { s.cpu c with irq := .none }
  | timerExit (p : Slot) (hm : (s.cpu c).mode = .running p) (ha : (s.thread p).act = .user) :
      CpuStep s c (.timerExit c) { s.cpu c with irq := .none }

/-- **Inversion for one CPU.** -/
theorem CpuStep.of_step {s s' : State n} {e : Event n} (h : step s e = some s')
    (c : Fin (n + 1)) : CpuStep s c e (s'.cpu c) := by
  by_cases hc : c = e.cpu
  swap
  · rw [step_cpu_of_ne h hc]
    exact .same e (by rintro rfl; exact hc rfl) (by rintro rfl; exact hc rfl)
  have hwait : ∀ {t : State n} {p : Slot} {e : Event n}, (s.cpu c).mode = .running p →
      t.cpu = s.cpu → e ≠ .timer c → e ≠ .feedback c →
      CpuStep s c e ((t.waitStep c p).cpu c) := by
    intro t p e hm ht h₁ h₂
    rcases cpu_waitStep t c p with heq | heq <;> rw [heq, ht]
    · exact .same e h₁ h₂
    · rw [Function.update_self]
      exact .leave e p hm h₁ h₂
  have htimer : ((s.cpu c).mode = .idle ∨ s.work c ≠ none) →
      (s.cpu c).mode = .idle ∨ ∃ p, (s.cpu c).mode = .running p ∧ s.lock ≠ some c := by
    refine Or.imp_right fun hw => ?_
    obtain ⟨p, hp⟩ := Option.ne_none_iff_exists'.mp hw
    exact ⟨p, (mode_of_work hp).1, (mode_of_work hp).2.2⟩
  cases Step.of_step h with
  | acquire d hm hi hl =>
    obtain rfl : c = d := hc
    simpa [setMode] using CpuStep.acquire hm hi
  | scanIdle d hm hf =>
    obtain rfl : c = d := hc
    simpa [setMode] using CpuStep.giveUp hm
  | scanPick d p hm hr =>
    obtain rfl : c = d := hc
    simpa [setMode] using CpuStep.pick p hm
  | readStart d p hm =>
    obtain rfl : c = d := hc
    simpa using CpuStep.readStart p hm
  | dispatch d p hm =>
    obtain rfl : c = d := hc
    simpa using CpuStep.dispatch p hm
  | readEnd d p hm =>
    obtain rfl : c = d := hc
    simpa [setMode] using CpuStep.readEnd p hm
  | feedback d p stop hm =>
    obtain rfl : c = d := hc
    simpa using CpuStep.feedback p stop hm
  | resumeWait d p hm hl hr =>
    obtain rfl : c = d := hc
    exact hwait hm rfl nofun nofun
  | wait d p hw ha hl =>
    obtain rfl : c = d := hc
    exact hwait (mode_of_work hw).1 rfl nofun nofun
  | exit d p hw ha hp hl =>
    obtain rfl : c = d := hc
    simpa [sched, setProc, setAct, setThread] using CpuStep.leave (.exit c) p
      (mode_of_work hw).1 nofun nofun
  | sleep d p chan hw ha hl hch =>
    obtain rfl : c = d := hc
    simpa [sched, setProc, setAct, setThread] using CpuStep.leave (.sleep c chan) p
      (mode_of_work hw).1 nofun nofun
  | spYield d p hw ha hl =>
    obtain rfl : c = d := hc
    simpa [sched, setProc, setAct, setThread] using CpuStep.leave (.spYield c) p
      (mode_of_work hw).1 nofun nofun
  | timerYield d p hm hi hl =>
    obtain rfl : c = d := hc
    simpa [sched, setProc, setAct, setThread] using CpuStep.leave (.timerYield c) p hm nofun nofun
  | timerZero hi hm =>
    obtain rfl : c = 0 := hc
    simpa [setIrq] using CpuStep.timer .ticked nofun hi (htimer hm)
  | timer d hd hi hm =>
    obtain rfl : c = d := hc
    simpa [setIrq] using CpuStep.timer .handled nofun hi (htimer hm)
  | tickWakeup d hi hl =>
    obtain rfl : c = d := hc
    simpa [setIrq] using CpuStep.tickWakeup hi
  | timerEnd d hm hi =>
    obtain rfl : c = d := hc
    simpa [setIrq] using CpuStep.timerEnd hm
  | timerExit d p hm hi hk ha =>
    obtain rfl : c = d := hc
    simpa [setIrq, setAct, setThread] using CpuStep.timerExit p hm ha
  | _ => exact .same _ nofun nofun

end Proc

end Xv6
