import Xv6.Lib.Transition
import Xv6.Proc.Table

/-!
# `sleep` and `wakeup`, instruction by instruction

In `Xv6.Proc.Machine` a critical section of `ptable.lock` is one step. This module looks inside: it
runs any number of sleepers and wakers with one step for each operation on a lock, on the condition,
on `p->chan` and on `p->state`, and for each slot that the loop of `wakeup1` visits.

A sleeper takes the lock `lk`, and calls `sleep(chan, lk)` for as long as it finds the condition
false; with the condition true it may change the data and lets go of the lock. A waker takes `lk`,
makes the condition true and calls `wakeup(chan)` before or after it releases `lk`. The lock is any
lock, and it may be `ptable.lock` itself; a waker may then also call `wakeup1`, as `exit` does,
while `wakeup` with the lock held is a panic. A sleeper may be woken by `kill` as well.

A thread that has lost the CPU to the timer is a thread that takes no step for a while. What the
scheduler does matters in two places: it releases `ptable.lock` on behalf of a process that has gone
to sleep, and it hands the lock to a process it switches to.

## Main definitions

* `State`, `Event`, `step` — the machine

## Main results

* `wakeupLoop_eq` — a whole loop of `wakeup1` is the function `wakeup1` of the process table
-/

namespace Xv6

namespace Sleep

open Proc Transition

/-- Who may hold a lock: a sleeper, which is the process in a slot, a waker, or the scheduler of
some CPU. -/
inductive Tid (κ : Type*)
  | sleeper (p : Slot)
  | waker (k : κ)
  | sched
  deriving DecidableEq

/-- The point that a sleeper has reached. -/
inductive SleeperPc
  /-- Before `acquire(lk)`. -/
  | out
  /-- Before the test of the condition. -/
  | testing
  /-- The condition was true. -/
  | ready
  /-- Before `release(lk)`. -/
  | leaving
  /-- In `sleep`, before `if(lk != &ptable.lock)`. -/
  | entered
  /-- In `sleep`, before `release(lk)`. -/
  | locked
  /-- In `sleep`, before `p->chan = chan`. -/
  | setChan
  /-- In `sleep`, before `p->state = SLEEPING`. -/
  | setState
  /-- In `sleep`, before `sched()`. -/
  | callSched
  /-- In `sched`, switched away. -/
  | asleep
  /-- In `sleep`, before `p->chan = 0`. -/
  | resumed
  /-- In `sleep`, before the second `if(lk != &ptable.lock)`. -/
  | tidied
  /-- In `sleep`, before `acquire(lk)`. -/
  | reacquire
  deriving DecidableEq, Repr

/-- How a waker wakes. -/
inductive Mode
  /-- `wakeup(chan)`, then `release(lk)`. -/
  | early
  /-- `release(lk)`, then `wakeup(chan)`. -/
  | late
  /-- `wakeup1(chan)`, then `release(lk)`, where `lk` is `ptable.lock`. -/
  | inside
  deriving DecidableEq, Repr

/-- The point that a waker has reached. -/
inductive WakerPc
  /-- Before `acquire(lk)`. -/
  | out
  /-- Before the update that makes the condition true. -/
  | update
  /-- Before `release(lk)`, with the wakeup still to come. -/
  | unlock
  /-- In `wakeup`, before `acquire(&ptable.lock)`. -/
  | call (m : Mode)
  /-- In `wakeup1`, about to visit slot `i`. -/
  | scan (m : Mode) (i : ℕ)
  /-- In `wakeup`, before `release(&ptable.lock)`. -/
  | finish (m : Mode)
  /-- Before `release(lk)`, with the wakeup done. -/
  | leaving
  deriving DecidableEq, Repr

/-- The machine. The data are what the condition is about. -/
structure State (L κ σ : Type*) where
  table : PTable
  locks : L → Option (Tid κ)
  data : σ
  sleeper : Slot → SleeperPc
  waker : κ → WakerPc
  panicked : Bool

/-- The steps of the machine. -/
inductive Event (κ σ : Type*)
  /-- The next operation of a sleeper. -/
  | sleeper (p : Slot)
  /-- A sleeper that has found the condition true changes the data. -/
  | consume (p : Slot) (d : σ)
  /-- The next operation of a waker. -/
  | waker (k : κ)
  /-- A waker makes the condition true. -/
  | update (k : κ) (m : Mode) (d : σ)
  /-- A scheduler takes `ptable.lock`. -/
  | schedAcquire
  /-- A scheduler releases `ptable.lock`. -/
  | schedRelease
  /-- A scheduler that holds `ptable.lock` switches to a process. -/
  | dispatch (p : Slot)
  /-- `kill` is called for a process. -/
  | kill (p : Slot)

section Machine

variable {L κ σ : Type*} [DecidableEq L] [DecidableEq κ]

namespace State

variable (s : State L κ σ)

/-- `acquire`, then `next`. It panics if the caller holds the lock and waits if somebody else
does. -/
def acquire (t : Tid κ) (l : L) (next : State L κ σ → State L κ σ) : Option (State L κ σ) :=
  match s.locks l with
  | none => some (next { s with locks := Function.update s.locks l (some t) })
  | some h => if h = t then some { s with panicked := true } else none

/-- `release`, then `next`. It panics if the caller does not hold the lock. -/
def release (t : Tid κ) (l : L) (next : State L κ σ → State L κ σ) : State L κ σ :=
  if s.locks l = some t then next { s with locks := Function.update s.locks l none }
  else { s with panicked := true }

def goSleeper (p : Slot) (pc : SleeperPc) : State L κ σ :=
  { s with sleeper := Function.update s.sleeper p pc }

def goWaker (k : κ) (pc : WakerPc) : State L κ σ :=
  { s with waker := Function.update s.waker k pc }

def setProc (p : Slot) (q : Proc) : State L κ σ := { s with table := s.table.set p q }

end State

/-- One round of the loop of `wakeup1`. -/
def wakeupVisit (chan : Chan) (t : PTable) (p : Slot) : PTable :=
  if (t p).state = .sleeping ∧ (t p).chan = some chan then
    t.set p { t p with state := .runnable }
  else t

variable (pt lk : L) (chan : Chan) (cond : σ → Bool)

/-- The next operation of sleeper `p`. -/
def sleeperStep (s : State L κ σ) (p : Slot) : Option (State L κ σ) :=
  match s.sleeper p with
  | .out => s.acquire (.sleeper p) lk (·.goSleeper p .testing)
  | .testing => some (s.goSleeper p (if cond s.data then .ready else .entered))
  | .ready => none
  | .leaving => some (s.release (.sleeper p) lk (·.goSleeper p .out))
  | .entered =>
    if lk ≠ pt then s.acquire (.sleeper p) pt (·.goSleeper p .locked)
    else some (s.goSleeper p .setChan)
  | .locked => some (s.release (.sleeper p) lk (·.goSleeper p .setChan))
  | .setChan =>
    some ((s.setProc p { s.table p with chan := some chan }).goSleeper p .setState)
  | .setState =>
    some ((s.setProc p { s.table p with state := .sleeping }).goSleeper p .callSched)
  | .callSched =>
    some ({ s with locks := Function.update s.locks pt (some .sched) }.goSleeper p .asleep)
  | .asleep => none
  | .resumed => some ((s.setProc p { s.table p with chan := none }).goSleeper p .tidied)
  | .tidied =>
    if lk ≠ pt then some (s.release (.sleeper p) pt (·.goSleeper p .reacquire))
    else some (s.goSleeper p .testing)
  | .reacquire => s.acquire (.sleeper p) lk (·.goSleeper p .testing)

/-- The next operation of waker `k`. -/
def wakerStep (s : State L κ σ) (k : κ) : Option (State L κ σ) :=
  match s.waker k with
  | .out => s.acquire (.waker k) lk (·.goWaker k .update)
  | .update => none
  | .unlock => some (s.release (.waker k) lk (·.goWaker k (.call .late)))
  | .call m => s.acquire (.waker k) pt (·.goWaker k (.scan m 0))
  | .scan m i =>
    if h : i < NPROC then
      some ({ s with table := wakeupVisit chan s.table ⟨i, h⟩ }.goWaker k (.scan m (i + 1)))
    else if m = .inside then some (s.goWaker k .leaving)
    else some (s.goWaker k (.finish m))
  | .finish m =>
    some (s.release (.waker k) pt (·.goWaker k (if m = .early then .leaving else .out)))
  | .leaving => some (s.release (.waker k) lk (·.goWaker k .out))

/-- Where a waker continues after its update. -/
def afterUpdate : Mode → WakerPc
  | .early => .call .early
  | .late => .unlock
  | .inside => .scan .inside 0

/-- The machine. -/
def step (s : State L κ σ) (e : Event κ σ) : Option (State L κ σ) :=
  if s.panicked then none else
  match e with
  | .sleeper p => sleeperStep pt lk chan cond s p
  | .consume p d =>
    if s.sleeper p = .ready then some ({ s with data := d }.goSleeper p .leaving) else none
  | .waker k => wakerStep pt lk chan s k
  | .update k m d =>
    if s.waker k = .update ∧ cond d = true ∧ (m = .inside → lk = pt) then
      some ({ s with data := d }.goWaker k (afterUpdate m))
    else none
  | .schedAcquire =>
    if s.locks pt = none then some { s with locks := Function.update s.locks pt (some .sched) }
    else none
  | .schedRelease =>
    if s.locks pt = some .sched then some { s with locks := Function.update s.locks pt none }
    else none
  | .dispatch p =>
    if s.locks pt = some .sched ∧ s.sleeper p = .asleep ∧ (s.table p).state = .runnable then
      some (({ s with locks := Function.update s.locks pt (some (.sleeper p)) }.setProc p
        { s.table p with state := .running }).goSleeper p .resumed)
    else none
  | .kill p =>
    if s.locks pt = none then
      some (s.setProc p { s.table p with
        killed := true
        state := if (s.table p).state = .sleeping then .runnable else (s.table p).state })
    else none

end Machine

/-- A whole loop of `wakeup1` is the function `wakeup1` of the process table. -/
theorem wakeupLoop_eq (chan : Chan) (t : PTable) :
    slots.foldl (wakeupVisit chan) t = wakeup1 t (some chan) := by
  -- the slots visited so far have been woken, the others are as they were
  have loop : ∀ (ps : List Slot) (t : PTable), ps.Nodup → ∀ q,
      ps.foldl (wakeupVisit chan) t q = if q ∈ ps then wakeup1 t (some chan) q else t q := by
    intro ps
    induction ps with
    | nil => intro t _ q; simp
    | cons p ps ih =>
      intro t hnd q
      have hvisit : ∀ q, wakeupVisit chan t p q =
          if q = p then wakeup1 t (some chan) q else t q := by
        intro q
        unfold wakeupVisit wakeup1
        by_cases hq : q = p
        · subst hq
          split <;> simp
        · split <;> simp [hq, PTable.set_of_ne]
      obtain ⟨hp, hnd⟩ := List.nodup_cons.mp hnd
      rw [List.foldl_cons, ih _ hnd]
      by_cases hq : q = p
      · subst hq
        simp [hp, hvisit]
      · have hsame : wakeup1 (wakeupVisit chan t p) (some chan) q = wakeup1 t (some chan) q := by
          simp only [wakeup1, hvisit, if_neg hq]
        simp [hq, hsame, hvisit]
  funext q
  rw [loop slots t nodup_slots q, if_pos (mem_slots q)]

end Sleep

end Xv6
