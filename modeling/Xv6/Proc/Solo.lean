import Xv6.Proc.Steps

/-!
# Runs of a single CPU

Executions in which one CPU does all the work and the others stay in the idle loop of `scheduler`.
`solo` is the state of such an execution, and there is one lemma for each stretch of it: a round of
`scheduler` up to the point where the chosen process runs (`run_round`), a timer interrupt that
takes the CPU away again (`run_preempt_zero`), a system call. Concrete executions are put together
from these with `run_append`. -/

namespace Xv6

namespace Proc

open State Transition

variable {n : ℕ}

/-- A CPU in the idle loop. -/
def idleCpu : Cpu := { proc := none, mode := .idle, start := 0, irq := .none }

/-- Only CPU `c` has left the idle loop. -/
def solo (c : Fin (n + 1)) (k : Cpu) (lock : Option (Fin (n + 1))) (t : PTable)
    (th : Slot → Thread) (ticks nextpid : BitVec 32) : State n :=
  { ptable := t, lock := lock, ticks := ticks, nextpid := nextpid, initproc := 0
    cpu := Function.update (fun _ => idleCpu) c k, thread := th, status := .ok }

/-! ### The stretches of a run -/

/-- CPU `c` takes the lock. -/
abbrev lockEvents (c : Fin (n + 1)) : List (Event n) := [.acquire c]

/-- It picks a process and switches to it. -/
abbrev switchEvents (c : Fin (n + 1)) : List (Event n) := [.scan c, .readStart c, .dispatch c]

/-- The process gives up the lock. -/
abbrev roundEvents (c : Fin (n + 1)) : List (Event n) :=
  [.scan c, .readStart c, .dispatch c, .resume c]

/-- A timer interrupt on CPU `0` takes the CPU away from the process. -/
abbrev preemptEvents : List (Event n) :=
  [.timer 0, .tickWakeup 0, .timerYield 0, .readEnd 0, .feedback 0]

/-- The process yields in `sp`. -/
abbrev spYieldEvents (c : Fin (n + 1)) : List (Event n) := [.spYield c, .readEnd c, .feedback c]

/-- It sleeps in `wait`. -/
abbrev waitEvents (c : Fin (n + 1)) : List (Event n) := [.wait c, .readEnd c, .feedback c]

/-- It exits. -/
abbrev exitEvents (c : Fin (n + 1)) : List (Event n) := [.exit c, .readEnd c, .feedback c]

/-- One successful `fork`. -/
def forkEvents (c : Fin (n + 1)) (second : BitVec 32) : List (Event n) :=
  [.allocproc c second, .kalloc c true, .copyuvm c true, .forkRunnable c]

section

variable (c : Fin (n + 1)) (t : PTable) (th : Slot → Thread) (ticks nextpid start : BitVec 32)

/-- Process `p` runs on CPU `c`, which switched to it when `ticks` was `start`. -/
def soloRunning (p : Slot) : State n :=
  solo c ⟨some p, .running p, start, .none⟩ none t th ticks nextpid

/-- CPU `c` has just switched to process `p`, which holds the lock. -/
def soloSwitched (p : Slot) : State n :=
  solo c ⟨some p, .running p, ticks, .none⟩ (some c) t th ticks nextpid

/-- CPU `c` is in the idle loop too. -/
def soloIdle : State n := solo c ⟨none, .idle, start, .none⟩ none t th ticks nextpid

/-- CPU `c` is at the top of a round, with the lock. -/
def soloLocked : State n := solo c ⟨none, .locked, start, .none⟩ (some c) t th ticks nextpid

theorem boot_eq_soloIdle (second : BitVec 32) :
    boot n second =
      soloIdle c (PTable.set (fun _ => zero) 0 (initcode second)) (fun _ => ⟨.user, .forkret, 0⟩)
        0 2 0 := by
  simp [boot, soloIdle, solo, idleCpu]

theorem run_acquire :
    run step (soloIdle c t th ticks nextpid start) (lockEvents c) =
      some (soloLocked c t th ticks nextpid start) := by
  simp [run, step, soloIdle, soloLocked, solo, setMode]

variable {t}

/-- A round of `scheduler` in which one `RUNNABLE` process comes before all the others, up to
`swtch`. -/
theorem run_dispatch {p : Slot} (hp : (t p).state = .runnable) (hprio : (t p).prio.toNat ≤ 20)
    (hleast : ∀ q, (t q).state = .runnable → q ≠ p → (t p).prio.toNat < (t q).prio.toNat) :
    run step (soloLocked c t th ticks nextpid start) (switchEvents c) =
      some (soloSwitched c (t.set p { t p with state := .running }) th ticks nextpid p) := by
  obtain ⟨hidx, hread⟩ := schedPlist_of_least hp hprio hleast ticks
  have hflag : schedFlag t = true := (schedFlag_iff t).mpr ⟨p, hp⟩
  have hscan : step (soloLocked c t th ticks nextpid start) (.scan c) =
      some (solo c ⟨none, .picked p, start, .none⟩ (some c) t th ticks nextpid) := by
    simp [step, soloLocked, solo, scanStep, hflag, hidx, hread, plistSize, setMode]
  rw [run_cons, hscan]
  simp [run, step, soloSwitched, solo, setProc]

/-- A round of `scheduler` in which one `RUNNABLE` process comes before all the others, up to the
release of the lock by that process. -/
theorem run_round {p : Slot} (hp : (t p).state = .runnable) (hprio : (t p).prio.toNat ≤ 20)
    (hleast : ∀ q, (t q).state = .runnable → q ≠ p → (t p).prio.toNat < (t q).prio.toNat)
    (hact : (th p).act = .user)
    (hres : (th p).resume = .forkret ∨ (th p).resume = .yielded) :
    run step (soloLocked c t th ticks nextpid start) (roundEvents c) =
      some (soloRunning c (t.set p { t p with state := .running }) th ticks nextpid ticks p) := by
  have hsplit : roundEvents c = switchEvents c ++ [Event.resume c] := rfl
  rw [hsplit, run_append, run_dispatch c th ticks nextpid start hp hprio hleast, Option.bind_some]
  rcases hres with hres | hres <;>
    simp [run, step, soloSwitched, soloRunning, solo, resumeStep, hres, hact]

end

/-- The first process starts. -/
theorem run_start (n : ℕ) (second : BitVec 32) :
    run step (boot n second) (lockEvents 0 ++ roundEvents 0) =
      some (soloRunning 0 (PTable.set (fun _ => zero) 0 { initcode second with state := .running })
        (fun _ => ⟨.user, .forkret, 0⟩) 0 2 0 0) := by
  have hprio : (initcode second).prio.toNat ≤ 20 := by
    have h := initialPrio_toNat second
    have hmod := Nat.mod_lt second.toNat (show 0 < 10 by decide)
    change (initialPrio second).toNat ≤ 20
    omega
  have hround := run_round (0 : Fin (n + 1)) (fun _ => ⟨.user, .forkret, 0⟩) 0 2 0
    (t := PTable.set (fun _ => zero) 0 (initcode second)) (p := 0) (by simp [initcode])
    (by simpa using hprio)
    (by intro q hq h; simp [PTable.set_of_ne _ _ h, zero] at hq) rfl (Or.inl rfl)
  rw [run_append, boot_eq_soloIdle (0 : Fin (n + 1)), run_acquire, Option.bind_some, hround]
  simp

/-- A timer interrupt on CPU `0` takes the CPU away from `p`: `ticks` has advanced when `scheduler`
reads it again. -/
theorem run_preempt_zero {t : PTable} {th : Slot → Thread} {ticks nextpid start : BitVec 32}
    {p : Slot} (hne : ticks + 1#32 - start ≠ 0#32) (hsleep : ∀ q, (t q).state ≠ .sleeping) :
    run step (soloRunning (n := n) 0 t th ticks nextpid start p) preemptEvents =
      some (soloIdle 0
        (t.set p { t p with
          state := .runnable
          prio := if (t p).prio < 10#32 then (t p).prio + 1#32 else (t p).prio })
        (Function.update th p { th p with resume := .yielded }) (ticks + 1#32) nextpid start) := by
  have hwake : wakeup1 t (some .ticks) = t := by
    funext q
    simp [wakeup1, hsleep q]
  simp [run, step, soloRunning, soloIdle, solo, setIrq, work, hwake, sched, setProc, setMode,
    feedback, hne, PTable.set]

/-- A process that is the first with its pid stores a priority and is about to yield. -/
theorem run_setpriority (c : Fin (n + 1)) {t : PTable} {th : Slot → Thread}
    (ticks nextpid start v : BitVec 32) {p : Slot} (hact : (th p).act = .user)
    (hfirst : ∀ q < p, (t q).pid ≠ (t p).pid) :
    run step (soloRunning c t th ticks nextpid start p) [.setpriority c v] =
      some (soloRunning c (t.set p { t p with prio := v })
        (Function.update th p { th p with act := .spYield }) ticks nextpid start p) := by
  have hsp : spTable t (t p).pid v = some (t.set p { t p with prio := v }) := by
    rw [spTable, find?_pid_eq_some.mpr ⟨rfl, hfirst⟩]
    rfl
  simp [run, step, soloRunning, solo, onWork, work, canCall, hact, hsp, setAct, setThread]

/-- It yields within the tick. -/
theorem run_spYield (c : Fin (n + 1)) {t : PTable} {th : Slot → Thread} (ticks nextpid : BitVec 32)
    {p : Slot} (hact : (th p).act = .spYield) :
    run step (soloRunning c t th ticks nextpid ticks p) (spYieldEvents c) =
      some (soloIdle c
        (t.set p { t p with state := .runnable, prio := feedback ticks ticks (t p).prio })
        (Function.update th p { th p with act := .spYielding, resume := .yielded })
        ticks nextpid ticks) := by
  simp [run, step, soloRunning, soloIdle, solo, onWork, work, hact, sched, setProc, setMode, setAct,
    setThread]

/-- A process that has to wait for its children gives up the CPU within the tick. -/
theorem run_waitSleeps (c : Fin (n + 1)) {t : PTable} {th : Slot → Thread}
    (ticks nextpid : BitVec 32) {p : Slot} (hact : (th p).act = .user)
    (hscan : waitScan t p = .sleeps) :
    run step (soloRunning c t th ticks nextpid ticks p) (waitEvents c) =
      some (soloIdle c
        (t.set p { t p with
          chan := some (.proc p), state := .sleeping, prio := feedback ticks ticks (t p).prio })
        (Function.update th p { th p with resume := .waiting }) ticks nextpid ticks) := by
  have hwait : step (soloRunning c t th ticks nextpid ticks p) (.wait c) =
      some (solo c ⟨some p, .returned p, ticks, .none⟩ (some c)
        (t.set p { t p with chan := some (.proc p), state := .sleeping })
        (Function.update th p { th p with resume := .waiting }) ticks nextpid) := by
    simp [step, soloRunning, solo, onWork, work, canCall, hact, waitStep, waitTable, hscan, sched]
  rw [run_cons, hwait]
  simp [run, step, soloIdle, solo, setMode, setProc]

/-- A process exits within the tick. -/
theorem run_exit (c : Fin (n + 1)) {t : PTable} {th : Slot → Thread} (ticks nextpid : BitVec 32)
    {p : Slot} (hact : (th p).act = .user) (hp : p ≠ 0) :
    run step (soloRunning c t th ticks nextpid ticks p) (exitEvents c) =
      some (soloIdle c
        ((exitTable t 0 p).set p { exitTable t 0 p p with
          prio := feedback ticks ticks (exitTable t 0 p p).prio })
        (Function.update th p { th p with resume := .yielded }) ticks nextpid ticks) := by
  have hexit : step (soloRunning c t th ticks nextpid ticks p) (.exit c) =
      some (solo c ⟨some p, .returned p, ticks, .none⟩ (some c) (exitTable t 0 p)
        (Function.update th p { th p with resume := .yielded }) ticks nextpid) := by
    simp [step, soloRunning, solo, onWork, work, hact, hp, sched]
  rw [run_cons, hexit]
  simp [run, step, soloIdle, solo, setMode, setProc]

/-- A process that was switched to in `wait` finds a zombie. -/
theorem run_resumeReaps (c : Fin (n + 1)) {t : PTable} {th : Slot → Thread}
    (ticks nextpid : BitVec 32) {p z : Slot} {pid : BitVec 32} (hres : (th p).resume = .waiting)
    (hscan : waitScan (t.set p { t p with chan := none }) p = .reaped z pid) :
    run step (soloSwitched c t th ticks nextpid p) [.resume c] =
      some (soloRunning c
        ((t.set p { t p with chan := none }).set z
          (reap (t.set p { t p with chan := none } z)))
        (Function.update th p { th p with act := .user, ret := pid }) ticks nextpid ticks p) := by
  simp [run, step, soloSwitched, soloRunning, solo, resumeStep, hres, waitStep, setProc, hscan,
    waitTable, setRet, setThread]

/-- A `fork` by `p` fills the first free slot. -/
theorem run_fork (c : Fin (n + 1)) {t : PTable} {th : Slot → Thread}
    (ticks nextpid start second : BitVec 32) {p np : Slot} (hact : (th p).act = .user)
    (hnp : allocprocScan t = some np) (hne : np ≠ p) :
    run step (soloRunning c t th ticks nextpid start p) (forkEvents c second) =
      some (soloRunning c
        (t.set np { t np with
          state := .runnable, pid := nextpid, prio := initialPrio second, kstack := true
          pgdir := true, parent := some p })
        (Function.update (Function.update th np ⟨.user, .forkret, 0⟩) p
          { th p with act := .user, ret := nextpid })
        ticks (nextpid + 1#32) start p) := by
  have hcomm : ∀ x y : Thread, Function.update (Function.update th p x) np y =
      Function.update (Function.update th np y) p x := fun x y =>
    Function.update_comm hne.symm ..
  simp [run, step, forkEvents, soloRunning, solo, onWork, work, canCall, hact, hnp, setAct,
    setThread, setProc, setRet, allocprocTable, hcomm]

end Proc

end Xv6
