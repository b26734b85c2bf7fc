import Xv6.Lib.Transition

/-!
# Spinlocks and interrupts

`acquire`, `release`, `holding`, `pushcli` and `popcli` of `spinlock.c`, with `myproc`, `sched` and
the loop of `scheduler` from `proc.c`, run by kernel threads on any number of CPUs.

A call is a list of operations, and an interrupt may come between any two of them when the flag of
the CPU allows it. The handler makes calls of its own, among them the `sched` of a `yield`, so that
the thread may go on on another CPU. `pushcli` is two operations for that reason: `readeflags`, and
what follows with interrupts off.

The threads are those of the processes and one `scheduler` for each CPU, which may switch to any
process that no CPU runs; whether it is `RUNNABLE` does not matter here. A CPU that panics has no
next step. Two fields of a thread are not in the code: `depth` counts the calls of `pushcli` that it
has not undone, and `entry` is the flag at the first of them.

## Main definitions

* `Op`, `Call.body` — operations and programs
* `State`, `Event`, `step` — the machine
* `Balanced` — the calls of `popcli` undo calls of `pushcli`
-/

namespace Xv6

namespace Spinlock

/-- The spinlocks: `ptable.lock` and the others. -/
inductive LockId
  | ptable
  | other (k : ℕ)
  deriving DecidableEq

inductive Op
  /-- `eflags = readeflags()` -/
  | pushcli
  /-- The rest of `pushcli`. -/
  | cli
  | popcli
  /-- A use of `mycpu()`. -/
  | mycpu
  /-- `r = lock->locked && lock->cpu == mycpu()` -/
  | test (lk : LockId)
  /-- Panic unless `r` is as wanted. -/
  | check (want : Bool)
  /-- One round of `while(xchg(&lk->locked, 1) != 0)`. -/
  | xchg (lk : LockId)
  /-- `lk->cpu = mycpu()` or `lk->cpu = 0` -/
  | setCpu (lk : LockId) (set : Bool)
  /-- `lk->locked = 0` -/
  | unlock (lk : LockId)
  /-- The rest of `sched`, up to its `swtch`. The state of the process is not in this model. -/
  | swtch
  /-- The end of `sched`. -/
  | restore
  /-- The start of a new process. -/
  | forkret
  /-- `scheduler` enables interrupts and begins a round. -/
  | loop
  /-- `scheduler` has found a process and calls `switchuvm`. -/
  | choose
  /-- `scheduler` is at its `swtch`. -/
  | pick
  deriving DecidableEq

/-! ### The programs -/

def holding (lk : LockId) : List Op := [.pushcli, .test lk, .popcli]

def acquire (lk : LockId) : List Op :=
  .pushcli :: holding lk ++ [.check false, .xchg lk, .setCpu lk true]

def release (lk : LockId) : List Op :=
  holding lk ++ [.check true, .setCpu lk false, .unlock lk, .popcli]

def myproc : List Op := [.pushcli, .mycpu, .popcli]

def switchuvm : List Op := [.pushcli, .mycpu, .popcli]

def sched : List Op := myproc ++ holding .ptable ++ [.check true, .swtch]

inductive Call
  | pushcli
  | popcli
  | holding (lk : LockId)
  | acquire (lk : LockId)
  | release (lk : LockId)
  | myproc
  | sched
  deriving DecidableEq

def Call.body : Call → List Op
  | .pushcli => [.pushcli]
  | .popcli => [.popcli]
  | .holding lk => Spinlock.holding lk
  | .acquire lk => Spinlock.acquire lk
  | .release lk => Spinlock.release lk
  | .myproc => Spinlock.myproc
  | .sched => Spinlock.sched

/-- The call undoes a `pushcli`. -/
def Call.pops : Call → Bool
  | .popcli | .release _ => true
  | .pushcli | .holding _ | .acquire _ | .myproc | .sched => false

/-! ### The state -/

/-- What a thread is doing, with the local variables of the calls. -/
structure Act where
  todo : List Op := []
  /-- `eflags & FL_IF` of `pushcli`. -/
  eflags : Bool := false
  /-- `r` of `holding`. -/
  r : Bool := false
  /-- `intena` of `sched`. -/
  intena : Bool := false
  /-- The interrupt flag at the outermost `pushcli`. -/
  entry : Bool := false

/-- A kernel thread: what it is doing, and what interrupts have suspended. -/
structure Thread where
  act : Act
  frames : List Act := []
  /-- The number of open calls of `pushcli`. -/
  depth : ℕ

structure Cpu where
  ncli : BitVec 32 := 0
  intena : Bool := false
  /-- `FL_IF` of the flags register. -/
  intr : Bool := false

structure Lock (n : ℕ) where
  locked : Bool := false
  cpu : Option (Fin (n + 1)) := none

/-- The threads. Processes are numbered in the order of their creation. -/
inductive Tid (n : ℕ)
  | proc (p : ℕ)
  | sched (c : Fin (n + 1))
  deriving DecidableEq

/-- The state of `n + 1` CPUs. -/
structure State (n : ℕ) where
  cpu : Fin (n + 1) → Cpu
  /-- The thread that a CPU runs. -/
  cur : Fin (n + 1) → Tid n
  thread : Tid n → Thread
  lock : LockId → Lock n

variable {n : ℕ}

/-- All CPUs are about to enter the loop of `scheduler`. A process begins in `forkret`, with
`ptable.lock` held for it. -/
def boot (n : ℕ) : State n where
  cpu _ := {}
  cur c := .sched c
  thread
    | .proc _ => { act := { todo := .forkret :: release .ptable }, depth := 1 }
    | .sched _ => { act := { todo := [.loop] }, depth := 0 }
  lock _ := {}

def Thread.setTodo (th : Thread) (o : List Op) : Thread :=
  { th with act := { th.act with todo := o } }

namespace State

variable (s : State n)

def current (c : Fin (n + 1)) : Thread := s.thread (s.cur c)

/-- CPU `c` and the thread that it runs have changed. -/
def put (c : Fin (n + 1)) (k : Cpu) (th : Thread) : State n :=
  { s with cpu := Function.update s.cpu c k, thread := Function.update s.thread (s.cur c) th }

def setLock (lk : LockId) (l : Lock n) : State n := { s with lock := Function.update s.lock lk l }

end State

/-! ### The steps -/

/-- CPU `k`, with number `c`, executes an operation of its thread `th`, which leaves `rest` to
do. -/
def exec (s : State n) (c : Fin (n + 1)) (k : Cpu) (th : Thread) (rest : List Op) :
    Op → Option (State n)
  | .pushcli => some <| s.put c k { th with act := { th.act with
      todo := .cli :: rest
      eflags := k.intr
      entry := if th.depth = 0 then k.intr else th.act.entry } }
  | .cli => some <|
    s.put c
      { intr := false
        intena := if k.ncli = 0 then th.act.eflags else k.intena
        ncli := k.ncli + 1 }
      { th.setTodo rest with depth := th.depth + 1 }
  | .popcli =>
    if k.intr ∨ (k.ncli - 1).slt 0 then none
    else
      s.put c { k with ncli := k.ncli - 1, intr := k.ncli - 1 = 0 ∧ k.intena }
        { th.setTodo rest with depth := th.depth - 1 }
  | .mycpu => if k.intr then none else s.put c k (th.setTodo rest)
  | .test lk =>
    if (s.lock lk).locked ∧ k.intr then none
    else s.put c k { th with act := { th.act with
      todo := rest
      r := (s.lock lk).locked ∧ (s.lock lk).cpu = some c } }
  | .check want => if th.act.r = want then s.put c k (th.setTodo rest) else none
  | .xchg lk =>
    if (s.lock lk).locked then some s
    else (s.put c k (th.setTodo rest)).setLock lk { s.lock lk with locked := true }
  | .setCpu lk set =>
    if set ∧ k.intr then none
    else
      (s.put c k (th.setTodo rest)).setLock lk
        { s.lock lk with cpu := if set then some c else none }
  | .unlock lk => (s.put c k (th.setTodo rest)).setLock lk { s.lock lk with locked := false }
  | .swtch =>
    match s.cur c with
    | .proc _ =>
      if k.intr ∨ k.ncli ≠ 1 then none
      else
        some { s.put c k { th with act := { th.act with
          todo := .restore :: rest, intena := k.intena } } with
            cur := Function.update s.cur c (.sched c) }
    | .sched _ => none
  | .restore =>
    if k.intr then none else s.put c { k with intena := th.act.intena } (th.setTodo rest)
  | .loop => s.put c { k with intr := true } (th.setTodo (acquire .ptable ++ [.choose, .pick]))
  | .choose => s.put c k (th.setTodo (switchuvm ++ rest))
  | .forkret | .pick => none

/-- The other side of `scheduler`'s `swtch`. A new process takes over `ptable.lock` from
`scheduler`, and with it the flag at the `pushcli` of its `acquire`. -/
def Thread.resumed (th : Thread) (entry : Bool) : Thread :=
  match th.act.todo with
  | .forkret :: o => { th with act := { th.act with todo := o, entry := entry } }
  | _ => th

inductive Event (n : ℕ)
  /-- The thread of the CPU executes an operation. -/
  | exec (c : Fin (n + 1))
  /-- The thread of the CPU makes a call. -/
  | call (c : Fin (n + 1)) (k : Call)
  | interrupt (c : Fin (n + 1))
  | iret (c : Fin (n + 1))
  /-- `scheduler` finds no process, or switches to one. -/
  | pick (c : Fin (n + 1)) (p : Option ℕ)

def step (s : State n) : Event n → Option (State n)
  | .exec c =>
    match (s.current c).act.todo with
    | o :: rest => exec s c (s.cpu c) (s.current c) rest o
    | [] => none
  | .call c k =>
    -- An interrupt of `scheduler` finds no process, so that its handler does not call `yield`.
    if (s.current c).act.todo = [] ∧ (k = .sched → s.cur c ≠ .sched c) then
      some (s.put c (s.cpu c) ((s.current c).setTodo k.body))
    else none
  | .interrupt c =>
    if (s.cpu c).intr = true then
      some (s.put c { s.cpu c with intr := false }
        { s.current c with act := {}, frames := (s.current c).act :: (s.current c).frames })
    else none
  | .iret c =>
    match (s.current c).act.todo, (s.current c).frames with
    | [], a :: fs =>
      some (s.put c { s.cpu c with intr := true } { s.current c with act := a, frames := fs })
    | _, _ => none
  | .pick c none =>
    if (s.current c).act.todo = [.choose, .pick] then
      some (s.put c (s.cpu c) ((s.current c).setTodo (release .ptable ++ [.loop])))
    else none
  | .pick c (some p) =>
    if s.cur c = .sched c ∧ (s.current c).act.todo = [.pick] ∧ ∀ c', s.cur c' ≠ .proc p then
      let s' := s.put c (s.cpu c) ((s.current c).setTodo (release .ptable ++ [.loop]))
      some { s' with
        cur := Function.update s.cur c (.proc p)
        thread := Function.update s'.thread (.proc p)
          ((s.thread (.proc p)).resumed (s.current c).act.entry) }
    else none

/-- Every thread calls `popcli` and `release` only to undo a `pushcli` of its own, a handler returns
when it has undone all of its own, and `ncli` does not overflow. -/
def Balanced (s : State n) : Event n → Prop
  | .call c k => k.pops = true → 0 < (s.current c).depth
  | .iret c => (s.current c).depth = 0
  | .exec c => (s.current c).act.todo.head? = some .cli → (s.current c).depth < 2 ^ 31
  | .interrupt _ | .pick _ _ => True

end Spinlock

end Xv6
