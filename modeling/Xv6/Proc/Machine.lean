import Xv6.Lib.Transition
import Xv6.Proc.Scheduler

/-!
# Processes on several CPUs

The scheduler threads, the processes and the timer interrupts of an `n + 1`-CPU machine as one
transition system. CPU `0` is the one whose timer interrupt advances `ticks`.

## Granularity

Everything `proc.c` does to the table happens under `ptable.lock`, so one critical section is one
step, enabled when the lock is free. Three things do not fit that rule and are steps of their own.

* `swtch` hands the lock over. A process that leaves the CPU takes the lock and its scheduler
  releases it, and the other way round; `lock` records the CPU in between.
* `ticks` is not protected by `ptable.lock`. `scheduler` reads it three times while it holds the
  lock (for `sch`, `start` and `end`), and CPU `0` may advance it between any two of these.
* `allocproc` and `fork` write to an `EMBRYO` slot without the lock.

An interrupt is taken only by a CPU that holds no lock of the model. A timer interrupt on CPU `0`
advances `ticks`, then wakes the sleepers on `&ticks`; on every CPU it then forces the current
process through `yield`, except that a killed process that was in user space goes to `exit`. A fault
in user space marks the process killed and goes to `exit` at once.

A division by zero in `ticks%idx`, a write past the end of `plist` and a kernel panic stop the
machine: `status` is then not `ok` and no further step is enabled.

## Main definitions

* `State`, `Event`, `step` — the machine
* `boot` — the state after `userinit`
-/

namespace Xv6

namespace Proc

/-- There is a first CPU. -/
scoped instance (priority := 2000) neZeroCpus (n : ℕ) : NeZero (n + 1) := ⟨Nat.succ_ne_zero n⟩

scoped instance (priority := 2000) neZeroOneCpu : NeZero (0 + 1) := neZeroCpus 0

scoped instance (priority := 2000) neZeroTwoCpus : NeZero (1 + 1) := neZeroCpus 1

/-- What the kernel thread of a process is in the middle of. -/
inductive Act
  /-- In user space, or in a call that does not touch the table before its next step. -/
  | user
  /-- In `fork`, after the locked part of `allocproc` has claimed a slot. -/
  | forkAlloc (np : Slot)
  /-- In `fork`, after `allocproc` has returned. -/
  | forkCopy (np : Slot)
  /-- In `fork`, before the child is made `RUNNABLE`. -/
  | forkReady (np : Slot)
  /-- In `sp`, between storing the priority and the call of `yield`. -/
  | spYield
  /-- In `sp`, inside the call of `yield`. -/
  | spYielding
  /-- In `exit`, before its locked part. -/
  | exiting
  deriving DecidableEq, Repr

/-- Where a process continues when `scheduler` switches to it. -/
inductive Resume
  /-- A new process, in `forkret`. -/
  | forkret
  /-- In `yield`. -/
  | yielded
  /-- In `sleep`, called with some other lock than `ptable.lock`. -/
  | slept
  /-- In `sleep`, called from `wait`. -/
  | waiting
  deriving DecidableEq, Repr

/-- The kernel thread of a process. `ret` is the value the last modelled system call returned. -/
structure Thread where
  act : Act
  resume : Resume
  ret : BitVec 32
  deriving DecidableEq, Repr

/-- The control point of a CPU. All but `idle` and `running` are points of `scheduler` at which it
holds `ptable.lock`. -/
inductive Mode
  /-- `scheduler`, before `acquire`. -/
  | idle
  /-- `scheduler`, after `acquire`. -/
  | locked
  /-- `scheduler`, after `p = plist[sch]`. -/
  | picked (p : Slot)
  /-- `scheduler`, after `start = ticks`. -/
  | started (p : Slot)
  /-- The kernel or user code of a process. -/
  | running (p : Slot)
  /-- `scheduler`, after `swtch` has returned. -/
  | returned (p : Slot)
  /-- `scheduler`, after `end = ticks`. -/
  | ended (p : Slot) (stop : BitVec 32)
  deriving DecidableEq, Repr

/-- How far a timer interrupt has been handled. -/
inductive Irq
  | none
  /-- CPU `0` only: `ticks` has been advanced, `wakeup(&ticks)` is still to come. -/
  | ticked
  /-- Before the test that leads to `yield`. -/
  | handled
  deriving DecidableEq, Repr

/-- `struct cpu`, with the scheduler thread's local `start`. -/
structure Cpu where
  proc : Option Slot
  mode : Mode
  start : BitVec 32
  irq : Irq
  deriving DecidableEq, Repr

/-- Whether the machine still runs, and if not why. -/
inductive Status
  | ok | divideError | plistOverflow | panicked
  deriving DecidableEq, Repr

/-- The machine with `n + 1` CPUs. -/
structure State (n : ℕ) where
  ptable : PTable
  lock : Option (Fin (n + 1))
  ticks : BitVec 32
  nextpid : BitVec 32
  initproc : Slot
  cpu : Fin (n + 1) → Cpu
  thread : Slot → Thread
  status : Status

/-- The steps of the machine, each with the CPU that takes it. -/
inductive Event (n : ℕ)
  | acquire (c : Fin (n + 1))
  | scan (c : Fin (n + 1))
  | readStart (c : Fin (n + 1))
  | dispatch (c : Fin (n + 1))
  | readEnd (c : Fin (n + 1))
  | feedback (c : Fin (n + 1))
  | resume (c : Fin (n + 1))
  | allocproc (c : Fin (n + 1)) (second : BitVec 32)
  | kalloc (c : Fin (n + 1)) (ok : Bool)
  | copyuvm (c : Fin (n + 1)) (ok : Bool)
  | forkRunnable (c : Fin (n + 1))
  | exit (c : Fin (n + 1))
  | wait (c : Fin (n + 1))
  | sleep (c : Fin (n + 1)) (chan : Chan)
  | wakeup (c : Fin (n + 1)) (chan : Chan)
  | kill (c : Fin (n + 1)) (pid : BitVec 32)
  | setpriority (c : Fin (n + 1)) (v : BitVec 32)
  | spYield (c : Fin (n + 1))
  | getpriority (c : Fin (n + 1))
  | timer (c : Fin (n + 1))
  | tickWakeup (c : Fin (n + 1))
  | timerYield (c : Fin (n + 1))
  | timerExit (c : Fin (n + 1))
  | fault (c : Fin (n + 1))
  deriving DecidableEq, Repr

/-- The sleep channels that are not the address of a `struct proc`. -/
def Chan.IsOther : Chan → Prop
  | .proc _ => False
  | _ => True

instance : DecidablePred Chan.IsOther := fun c =>
  match c with
  | .proc _ => .isFalse not_false
  | .ticks => .isTrue trivial
  | .addr _ => .isTrue trivial

namespace State

variable {n : ℕ}

/-- The process whose code CPU `c` is executing outside the critical sections of `ptable.lock` and
outside the timer handler. -/
def work (s : State n) (c : Fin (n + 1)) : Option Slot :=
  match (s.cpu c).mode with
  | .running p => if (s.cpu c).irq = .none ∧ s.lock ≠ some c then some p else none
  | _ => none

def setMode (s : State n) (c : Fin (n + 1)) (m : Mode) : State n :=
  { s with cpu := Function.update s.cpu c { s.cpu c with mode := m } }

def setIrq (s : State n) (c : Fin (n + 1)) (i : Irq) : State n :=
  { s with cpu := Function.update s.cpu c { s.cpu c with irq := i } }

def setThread (s : State n) (p : Slot) (th : Thread) : State n :=
  { s with thread := Function.update s.thread p th }

def setAct (s : State n) (p : Slot) (a : Act) : State n :=
  s.setThread p { s.thread p with act := a }

/-- A modelled system call of `p` returns `v`. -/
def setRet (s : State n) (p : Slot) (v : BitVec 32) : State n :=
  s.setThread p { s.thread p with act := .user, ret := v }

def setProc (s : State n) (p : Slot) (q : Proc) : State n :=
  { s with ptable := s.ptable.set p q }

/-- `sched`, called by `p` on CPU `c` with the table already updated: the lock stays held and the
CPU continues in `scheduler` behind its call of `swtch`. -/
def sched (s : State n) (c : Fin (n + 1)) (p : Slot) (r : Resume) : State n :=
  { s with
    lock := some c
    cpu := Function.update s.cpu c { s.cpu c with mode := .returned p, irq := .none }
    thread := Function.update s.thread p { s.thread p with resume := r } }

/-- The body of the loop of `wait`, run by `p` on CPU `c` with the lock held. -/
def waitStep (s : State n) (c : Fin (n + 1)) (p : Slot) : State n :=
  let s' := { s with ptable := waitTable s.ptable p }
  match waitScan s.ptable p with
  | .reaped _ pid => { s'.setRet p pid with lock := none }
  | .failed => { s'.setRet p (-1#32) with lock := none }
  | .sleeps => s'.sched c p .waiting

/-- Lines 427–465 of `scheduler`. -/
def scanStep (s : State n) (c : Fin (n + 1)) : Option (State n) :=
  if schedFlag s.ptable = false then
    some { s.setMode c .idle with lock := none }
  else if (schedPlist s.ptable).idx = 0 then
    some { s with status := .divideError }
  else if plistSize < (schedPlist s.ptable).idx then
    some { s with status := .plistOverflow }
  else
    ((schedPlist s.ptable).read (schedSch s.ptable s.ticks)).map fun p => s.setMode c (.picked p)

/-- What a process does once `scheduler` has switched to it, up to the point where it gives up the
lock again. -/
def resumeStep (s : State n) (c : Fin (n + 1)) (p : Slot) : State n :=
  match (s.thread p).resume with
  | .forkret => { s with lock := none }
  | .yielded =>
    -- `sp` returns 0 when the `yield` it called does
    let s := if (s.thread p).act = .spYielding then s.setRet p 0 else s
    { s with lock := none }
  | .slept => { s.setProc p { s.ptable p with chan := none } with lock := none }
  | .waiting => (s.setProc p { s.ptable p with chan := none }).waitStep c p

/-- Run `k` with the process CPU `c` is executing, if `ok` allows it. -/
def onWork (s : State n) (c : Fin (n + 1)) (ok : Slot → Bool) (k : Slot → Option (State n)) :
    Option (State n) :=
  (s.work c).bind fun p => if ok p then k p else none

/-- `p` is between system calls and `ptable.lock` is free. -/
def canCall (s : State n) (p : Slot) : Bool := (s.thread p).act = .user ∧ s.lock = none

end State

/-- The machine. -/
def step {n : ℕ} (s : State n) (e : Event n) : Option (State n) :=
  if s.status ≠ .ok then none else
  match e with
  | .acquire c =>
    if (s.cpu c).mode = .idle ∧ (s.cpu c).irq = .none ∧ s.lock = none then
      some { s.setMode c .locked with lock := some c }
    else none
  | .scan c => if (s.cpu c).mode = .locked then s.scanStep c else none
  | .readStart c =>
    match (s.cpu c).mode with
    | .picked p =>
      some { s with
        cpu := Function.update s.cpu c { s.cpu c with start := s.ticks, mode := .started p } }
    | _ => none
  | .dispatch c =>
    match (s.cpu c).mode with
    | .started p =>
      some { s.setProc p { s.ptable p with state := .running } with
        cpu := Function.update s.cpu c { s.cpu c with proc := some p, mode := .running p } }
    | _ => none
  | .readEnd c =>
    match (s.cpu c).mode with
    | .returned p => some (s.setMode c (.ended p s.ticks))
    | _ => none
  | .feedback c =>
    match (s.cpu c).mode with
    | .ended p stop =>
      some { s.setProc p { s.ptable p with
          prio := feedback (s.cpu c).start stop (s.ptable p).prio } with
        cpu := Function.update s.cpu c { s.cpu c with proc := none, mode := .idle }
        lock := none }
    | _ => none
  | .resume c =>
    match (s.cpu c).mode with
    | .running p => if s.lock = some c then some (s.resumeStep c p) else none
    | _ => none
  | .allocproc c second => s.onWork c s.canCall fun p =>
    match allocprocScan s.ptable with
    | none => some (s.setRet p (-1#32))
    | some np =>
      some ({ s with
        ptable := allocprocTable s.ptable np s.nextpid second
        nextpid := s.nextpid + 1#32 }.setAct p (.forkAlloc np))
  | .kalloc c ok => s.onWork c (fun _ => true) fun p =>
    match (s.thread p).act with
    | .forkAlloc np =>
      if ok then
        some (((s.setProc np { s.ptable np with kstack := true }).setAct p (.forkCopy np)).setThread
          np ⟨.user, .forkret, 0⟩)
      else
        some ((s.setProc np { s.ptable np with kstack := false, state := .unused }).setRet p
          (-1#32))
    | _ => none
  | .copyuvm c ok => s.onWork c (fun _ => true) fun p =>
    match (s.thread p).act with
    | .forkCopy np =>
      if ok then
        some ((s.setProc np { s.ptable np with pgdir := true, parent := some p }).setAct p
          (.forkReady np))
      else
        some ((s.setProc np { s.ptable np with
          pgdir := false, kstack := false, state := .unused }).setRet p (-1#32))
    | _ => none
  | .forkRunnable c => s.onWork c (fun _ => s.lock = none) fun p =>
    match (s.thread p).act with
    | .forkReady np =>
      some ((s.setProc np { s.ptable np with state := .runnable }).setRet p (s.ptable np).pid)
    | _ => none
  | .exit c =>
    s.onWork c (fun p => (s.thread p).act = .user ∨ (s.thread p).act = .exiting) fun p =>
      if p = s.initproc then some { s with status := .panicked }
      else if s.lock = none then
        some ({ s with ptable := exitTable s.ptable s.initproc p }.sched c p .yielded)
      else none
  | .wait c => s.onWork c s.canCall fun p => some (s.waitStep c p)
  | .sleep c chan =>
    s.onWork c (fun p => ((s.thread p).act = .user ∨ (s.thread p).act = .exiting) ∧ s.lock = none ∧
        chan.IsOther) fun p =>
      some ((s.setProc p { s.ptable p with chan := some chan, state := .sleeping }).sched c
        p .slept)
  | .wakeup _ chan =>
    -- called by interrupt handlers and by processes alike
    if s.lock = none ∧ chan.IsOther then some { s with ptable := wakeup1 s.ptable (some chan) }
    else none
  | .kill c pid => s.onWork c s.canCall fun p =>
    match killTable s.ptable pid with
    | none => some (s.setRet p (-1#32))
    | some t => some ({ s with ptable := t }.setRet p 0)
  | .setpriority c v => s.onWork c s.canCall fun p =>
    match spTable s.ptable (s.ptable p).pid v with
    | none => some (s.setRet p (-1#32))
    | some t => some ({ s with ptable := t }.setAct p .spYield)
  | .spYield c =>
    s.onWork c (fun p => (s.thread p).act = .spYield ∧ s.lock = none) fun p =>
      some (((s.setProc p { s.ptable p with state := .runnable }).setAct p .spYielding).sched c p
        .yielded)
  | .getpriority c => s.onWork c s.canCall fun p =>
    some (s.setRet p (gpTable s.ptable (s.ptable p).pid))
  | .timer c =>
    if (s.cpu c).irq = .none ∧ ((s.cpu c).mode = .idle ∨ s.work c ≠ none) then
      if c = 0 then some { s.setIrq c .ticked with ticks := s.ticks + 1#32 }
      else some (s.setIrq c .handled)
    else none
  | .tickWakeup c =>
    if (s.cpu c).irq = .ticked ∧ s.lock = none then
      some { s.setIrq c .handled with ptable := wakeup1 s.ptable (some .ticks) }
    else none
  | .timerYield c =>
    match (s.cpu c).mode with
    | .running p =>
      if (s.cpu c).irq = .handled ∧ s.lock = none then
        some ((s.setProc p { s.ptable p with state := .runnable }).sched c p .yielded)
      else none
    | _ => none
  | .timerExit c =>
    if (s.cpu c).irq = .handled then
      match (s.cpu c).mode with
      | .idle => some (s.setIrq c .none)
      | .running p =>
        if (s.ptable p).killed ∧ (s.thread p).act = .user then
          some ((s.setIrq c .none).setAct p .exiting)
        else none
      | _ => none
    else none
  | .fault c => s.onWork c (fun p => (s.thread p).act = .user) fun p =>
    some ((s.setProc p { s.ptable p with killed := true }).setAct p .exiting)

/-- The first process, as `userinit` leaves it. -/
def initcode (second : BitVec 32) : Proc :=
  { state := .runnable, pid := 1, parent := none, chan := none, killed := false,
    prio := initialPrio second, kstack := true, pgdir := true }

/-- The machine when the CPUs enter `scheduler`: one process, in the first slot. -/
def boot (n : ℕ) (second : BitVec 32) : State n :=
  { ptable := PTable.set (fun _ => zero) 0 (initcode second)
    lock := none
    ticks := 0
    nextpid := 2
    initproc := 0
    cpu := fun _ => { proc := none, mode := .idle, start := 0, irq := .none }
    thread := fun _ => ⟨.user, .forkret, 0⟩
    status := .ok }

end Proc

end Xv6
