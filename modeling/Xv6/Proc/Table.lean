import Xv6.Param

/-!
# The process table

`struct proc` and the operations of `proc.c` on `ptable.proc` that run inside one critical section
of `ptable.lock`, as functions on tables. Which CPU runs them, and when the lock is taken and
released, is the subject of `Xv6.Proc.Machine`.

A `struct proc *` is a slot number. The pointers a process keeps elsewhere (`kstack`, `pgdir`) are
only ever tested against null here, so they are Booleans; the trap frame, the saved context, the
open files and the name take no part in scheduling and are left out.

## Main definitions

* `Proc`, `PTable` — one entry, and the table
* `allocprocScan`, `wakeup1`, `killTable`, `exitTable`, `waitTable`, `spTable`, `gpTable` — what
  each function does to the table while it holds the lock
* `feedback` — the priority adjustment of `scheduler` after `swtch` has returned
-/

namespace Xv6

namespace Proc

/-- `enum procstate`. -/
inductive ProcState
  | unused | embryo | sleeping | runnable | running | zombie
  deriving DecidableEq, Repr

/-- A `struct proc *` into `ptable.proc`. -/
abbrev Slot := Fin NPROC

/-- The addresses used as sleep channels: `&ticks`, a `struct proc` (in `wait`), anything else. -/
inductive Chan
  | ticks
  | proc (p : Slot)
  | addr (a : ℕ)
  deriving DecidableEq, Repr

end Proc

open Proc

/-- `struct proc`. `kstack` and `pgdir` say whether the pointer is non-null. -/
structure Proc where
  state : ProcState
  pid : BitVec 32
  parent : Option Slot
  chan : Option Chan
  killed : Bool
  prio : BitVec 32
  kstack : Bool
  pgdir : Bool
  deriving DecidableEq, Repr

namespace Proc

/-- `ptable.proc`. -/
abbrev PTable := Slot → Proc

/-- A slot of the zero-initialised table. -/
def zero : Proc :=
  { state := .unused, pid := 0, parent := none, chan := none, killed := false, prio := 0,
    kstack := false, pgdir := false }

/-- The order in which `for(p = ptable.proc; p < &ptable.proc[NPROC]; p++)` visits the slots. -/
def slots : List Slot := List.finRange NPROC

@[simp] theorem mem_slots (p : Slot) : p ∈ slots := List.mem_finRange p

theorem nodup_slots : slots.Nodup := List.nodup_finRange NPROC

/-- Overwrite one slot. -/
def PTable.set (t : PTable) (p : Slot) (q : Proc) : PTable := Function.update t p q

@[simp] theorem PTable.set_self (t : PTable) (p : Slot) (q : Proc) : t.set p q p = q :=
  Function.update_self ..

theorem PTable.set_of_ne (t : PTable) {p r : Slot} (q : Proc) (h : r ≠ p) : t.set p q r = t r :=
  Function.update_of_ne h ..

theorem PTable.set_apply (t : PTable) (p r : Slot) (q : Proc) :
    t.set p q r = if r = p then q else t r :=
  Function.update_apply ..

@[simp] theorem PTable.set_set (t : PTable) (p : Slot) (q q' : Proc) :
    (t.set p q).set p q' = t.set p q' :=
  Function.update_idem ..

/-- A scan of the table finds the first slot it looks for. -/
theorem find?_slots_eq_some {P : Slot → Bool} {r : Slot} :
    slots.find? P = some r ↔ P r = true ∧ ∀ q < r, P q = false := by
  unfold slots
  rw [List.find?_eq_some_iff_getElem]
  constructor
  · rintro ⟨hP, i, hi, hr, hlt⟩
    have hri : r.val = i := by rw [← hr]; simp
    refine ⟨hP, fun q hq => ?_⟩
    have := hlt q.val (by rw [← hri]; exact hq)
    simpa using this
  · rintro ⟨hP, hlt⟩
    refine ⟨hP, r.val, by simp, by simp, fun j hj => ?_⟩
    simpa using hlt ⟨j, hj.trans r.isLt⟩ hj

/-- The first slot with a given pid. -/
theorem find?_pid_eq_some {t : PTable} {pid : BitVec 32} {r : Slot} :
    (slots.find? fun p => (t p).pid = pid) = some r ↔
      (t r).pid = pid ∧ ∀ q < r, (t q).pid ≠ pid := by
  simp [find?_slots_eq_some]

/-- The priority `allocproc` gives a new process: `((r.second)%10)+1`. -/
def initialPrio (second : BitVec 32) : BitVec 32 := second % 10#32 + 1#32

/-- The slot `allocproc` finds: the first `UNUSED` one. -/
def allocprocScan (t : PTable) : Option Slot := slots.find? fun p => (t p).state = .unused

/-- The locked part of `allocproc` once a slot has been found. The other fields of the slot keep
whatever its last user left there. -/
def allocprocTable (t : PTable) (p : Slot) (nextpid second : BitVec 32) : PTable :=
  t.set p { t p with state := .embryo, pid := nextpid, prio := initialPrio second }

/-- `wakeup1`. -/
def wakeup1 (t : PTable) (chan : Option Chan) : PTable := fun p =>
  if (t p).state = .sleeping ∧ (t p).chan = chan then { t p with state := .runnable } else t p

/-- The table part of `kill`: `none` when no slot has that pid. -/
def killTable (t : PTable) (pid : BitVec 32) : Option PTable :=
  (slots.find? fun p => (t p).pid = pid).map fun p =>
    t.set p { t p with
      killed := true
      state := if (t p).state = .sleeping then .runnable else (t p).state }

/-- One round of the loop of `exit` that passes an abandoned child to `initproc`. -/
def reparent (initproc cur : Slot) (t : PTable) (p : Slot) : PTable :=
  if (t p).parent = some cur then
    let t := t.set p { t p with parent := some initproc }
    if (t p).state = .zombie then wakeup1 t (some (.proc initproc)) else t
  else t

/-- The table part of `exit`, up to the call of `sched`. -/
def exitTable (t : PTable) (initproc cur : Slot) : PTable :=
  let t := wakeup1 t ((t cur).parent.map .proc)
  let t := slots.foldl (reparent initproc cur) t
  t.set cur { t cur with state := .zombie }

/-- What one pass of the loop of `wait` comes to. -/
inductive WaitResult
  /-- A zombie child was reaped: its slot and its pid. -/
  | reaped (p : Slot) (pid : BitVec 32)
  /-- No children, or the caller has been killed. -/
  | failed
  /-- The caller goes to sleep on its own `struct proc`. -/
  | sleeps
  deriving DecidableEq, Repr

/-- What `wait` leaves in the slot of a reaped child. -/
def reap (q : Proc) : Proc :=
  { q with kstack := false, pid := 0, parent := none, killed := false, state := .unused, prio := 0 }

/-- The scan of `wait`: the first zombie child in table order, else whether to give up. -/
def waitScan (t : PTable) (cur : Slot) : WaitResult :=
  match slots.find? fun p => (t p).parent = some cur ∧ (t p).state = .zombie with
  | some p => .reaped p (t p).pid
  | none =>
    if (slots.any fun p => (t p).parent = some cur) = false ∨ (t cur).killed then .failed
    else .sleeps

/-- The table after one pass of the loop of `wait`. -/
def waitTable (t : PTable) (cur : Slot) : PTable :=
  match waitScan t cur with
  | .reaped p _ => t.set p (reap (t p))
  | .failed => t
  | .sleeps => t.set cur { t cur with chan := some (.proc cur), state := .sleeping }

/-- The table part of `sp`: `none` when no slot has that pid. -/
def spTable (t : PTable) (pid prio : BitVec 32) : Option PTable :=
  (slots.find? fun p => (t p).pid = pid).map fun p => t.set p { t p with prio := prio }

/-- The value `gp` returns. -/
def gpTable (t : PTable) (pid : BitVec 32) : BitVec 32 :=
  match slots.find? fun p => (t p).pid = pid with
  | some p => (t p).prio
  | none => -1#32

/-- The adjustment of `p->prio` in `scheduler` after `swtch` has returned, from the two readings of
`ticks`. -/
def feedback (start stop prio : BitVec 32) : BitVec 32 :=
  if stop - start = 0#32 then (if 0#32 < prio then prio - 1#32 else prio)
  else (if prio < 10#32 then prio + 1#32 else prio)

/-! ### Priorities

Which operations write `prio`, and how large it can become. -/

theorem initialPrio_toNat (second : BitVec 32) :
    (initialPrio second).toNat = second.toNat % 10 + 1 := by
  have : second.toNat % 10 < 10 := Nat.mod_lt _ (by decide)
  simp [initialPrio, BitVec.toNat_add, BitVec.toNat_umod]
  omega

@[simp] theorem wakeup1_prio (t : PTable) (chan : Option Chan) (p : Slot) :
    (wakeup1 t chan p).prio = (t p).prio := by
  unfold wakeup1; split <;> rfl

theorem PTable.set_prio {t : PTable} {p : Slot} {q : Proc} (h : q.prio = (t p).prio) (r : Slot) :
    (t.set p q r).prio = (t r).prio := by
  rw [PTable.set_apply]
  split
  · next hr => rw [h, hr]
  · rfl

theorem reparent_prio (initproc cur : Slot) (t : PTable) (p r : Slot) :
    (reparent initproc cur t p r).prio = (t r).prio := by
  unfold reparent
  split
  · dsimp only
    split
    · rw [wakeup1_prio]; exact PTable.set_prio (by rfl) r
    · exact PTable.set_prio (by rfl) r
  · rfl

@[simp] theorem exitTable_prio (t : PTable) (initproc cur r : Slot) :
    (exitTable t initproc cur r).prio = (t r).prio := by
  have loop : ∀ (ps : List Slot) (t : PTable),
      (ps.foldl (reparent initproc cur) t r).prio = (t r).prio := by
    intro ps
    induction ps with
    | nil => intro t; rfl
    | cons p ps ih => intro t; rw [List.foldl_cons, ih, reparent_prio]
  unfold exitTable
  have hloop := loop slots (wakeup1 t ((t cur).parent.map .proc))
  rw [wakeup1_prio] at hloop
  dsimp only
  generalize slots.foldl (reparent initproc cur) _ = u at hloop ⊢
  rw [PTable.set_prio (by rfl), hloop]

theorem killTable_prio {t t' : PTable} {pid : BitVec 32} (h : killTable t pid = some t')
    (r : Slot) : (t' r).prio = (t r).prio := by
  obtain ⟨p, -, rfl⟩ := Option.map_eq_some_iff.mp h
  exact PTable.set_prio (by rfl) r

theorem waitTable_prio (t : PTable) (cur r : Slot) :
    (waitTable t cur r).prio = (t r).prio ∨ (waitTable t cur r).prio = 0 := by
  unfold waitTable
  cases waitScan t cur with
  | reaped p pid =>
    dsimp only
    rw [PTable.set_apply]
    split
    · exact Or.inr rfl
    · exact Or.inl rfl
  | failed => exact Or.inl rfl
  | sleeps => exact Or.inl (PTable.set_prio (by rfl) r)

theorem spTable_prio {t t' : PTable} {pid v : BitVec 32} (h : spTable t pid v = some t')
    (r : Slot) : (t' r).prio = (t r).prio ∨ (t' r).prio = v := by
  obtain ⟨p, -, rfl⟩ := Option.map_eq_some_iff.mp h
  rw [PTable.set_apply]
  split
  · exact Or.inr rfl
  · exact Or.inl rfl

theorem feedback_toNat_le (start stop prio : BitVec 32) :
    (feedback start stop prio).toNat ≤ max prio.toNat 10 := by
  unfold feedback
  split <;> split
  · next h => have := BitVec.lt_def.mp h; bv_omega
  · omega
  · next h => have := BitVec.lt_def.mp h; bv_omega
  · omega

/-! ### States

Which operations change the state of a process other than the one they are called by. -/

theorem wakeup1_state (t : PTable) (chan : Option Chan) (p : Slot) :
    (wakeup1 t chan p).state = (t p).state ∨
      ((t p).state = .sleeping ∧ (wakeup1 t chan p).state = .runnable) := by
  unfold wakeup1
  split
  · next h => exact Or.inr ⟨h.1, rfl⟩
  · exact Or.inl rfl

theorem PTable.set_state {t : PTable} {p : Slot} {q : Proc} (h : q.state = (t p).state)
    (r : Slot) : (t.set p q r).state = (t r).state := by
  rw [PTable.set_apply]
  split
  · next hr => rw [h, hr]
  · rfl

theorem killTable_state {t t' : PTable} {pid : BitVec 32} (h : killTable t pid = some t')
    (r : Slot) : (t' r).state = (t r).state ∨
      ((t r).state = .sleeping ∧ (t' r).state = .runnable) := by
  obtain ⟨p, -, rfl⟩ := Option.map_eq_some_iff.mp h
  rw [PTable.set_apply]
  split
  · next hr =>
    subst hr
    by_cases hs : (t r).state = .sleeping
    · exact Or.inr ⟨hs, if_pos hs⟩
    · exact Or.inl (if_neg hs)
  · exact Or.inl rfl

theorem spTable_state {t t' : PTable} {pid v : BitVec 32} (h : spTable t pid v = some t')
    (r : Slot) : (t' r).state = (t r).state := by
  obtain ⟨p, -, rfl⟩ := Option.map_eq_some_iff.mp h
  exact PTable.set_state (by rfl) r

theorem reparent_state (initproc cur : Slot) (t : PTable) (p r : Slot) :
    (reparent initproc cur t p r).state = (t r).state ∨
      ((t r).state = .sleeping ∧ (reparent initproc cur t p r).state = .runnable) := by
  unfold reparent
  split
  · have hset : ∀ r, (t.set p { t p with parent := some initproc } r).state = (t r).state :=
      PTable.set_state (by rfl)
    dsimp only
    split
    · rw [← hset r]; exact wakeup1_state ..
    · exact Or.inl (hset r)
  · exact Or.inl rfl

/-- `exit` may wake processes, and makes the caller a `ZOMBIE`. -/
theorem exitTable_state (t : PTable) (initproc cur : Slot) :
    (exitTable t initproc cur cur).state = .zombie ∧
      ∀ r, r ≠ cur → (exitTable t initproc cur r).state = (t r).state ∨
        ((t r).state = .sleeping ∧ (exitTable t initproc cur r).state = .runnable) := by
  have loop : ∀ (r : Slot) (ps : List Slot) (t : PTable),
      (ps.foldl (reparent initproc cur) t r).state = (t r).state ∨
        ((t r).state = .sleeping ∧ (ps.foldl (reparent initproc cur) t r).state = .runnable) := by
    intro r ps
    induction ps with
    | nil => intro t; exact Or.inl rfl
    | cons p ps ih =>
      intro t
      rw [List.foldl_cons]
      rcases ih (reparent initproc cur t p) with h | ⟨hs, hr⟩
      · rw [h]; exact reparent_state ..
      · rcases reparent_state initproc cur t p r with h' | ⟨hs', -⟩
        · exact Or.inr ⟨by rw [← h', hs], hr⟩
        · exact Or.inr ⟨hs', hr⟩
  unfold exitTable
  refine ⟨by rw [PTable.set_self], fun r hr => ?_⟩
  rw [PTable.set_of_ne _ _ hr]
  rcases loop r slots (wakeup1 t ((t cur).parent.map .proc)) with h | ⟨hs, hr⟩
  · rw [h]; exact wakeup1_state ..
  · rcases wakeup1_state t ((t cur).parent.map .proc) r with h' | ⟨hs', -⟩
    · exact Or.inr ⟨by rw [← h', hs], hr⟩
    · exact Or.inr ⟨hs', hr⟩

theorem waitScan_reaped {t : PTable} {cur p : Slot} {pid : BitVec 32}
    (h : waitScan t cur = .reaped p pid) :
    (t p).parent = some cur ∧ (t p).state = .zombie ∧ pid = (t p).pid := by
  unfold waitScan at h
  split at h
  · next q hq =>
    cases h
    have := List.find?_some hq
    exact ⟨(of_decide_eq_true this).1, (of_decide_eq_true this).2, rfl⟩
  · split at h <;> cases h

end Proc

end Xv6
