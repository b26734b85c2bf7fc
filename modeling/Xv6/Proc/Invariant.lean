import Xv6.Proc.Steps

/-!
# Who runs what

The invariant behind every statement about the process table: which CPU holds `ptable.lock`, and
what the table says about the process each CPU has in hand. `ptable.lock` is passed from the
scheduler to a process and back across `swtch`, so its owner is tied to the control point of the
CPU and not to a process.

## Main definitions

* `Mode.InScheduler` — the control points of `scheduler` behind its `acquire`
* `Act.child` — the slot a `fork` in progress is filling
* `Wf` — the invariant

## Main results

* `Wf.of_reach` — it holds in every reachable state
-/

namespace Xv6

namespace Proc

open State Transition

variable {n : ℕ}

/-- A point of `scheduler` between `acquire` and `swtch`, or between `swtch` and `release`. -/
def Mode.InScheduler : Mode → Prop
  | .idle | .running _ => False
  | _ => True

/-- The slot that a `fork` in progress has claimed. -/
def Act.child : Act → Option Slot
  | .forkAlloc np | .forkCopy np | .forkReady np => some np
  | _ => none

/-- The states in which a process may come back to the scheduler. -/
def ProcState.Left (st : ProcState) : Prop := st = .runnable ∨ st = .sleeping ∨ st = .zombie

/-- Who holds the lock, and what the table says about the processes in hand. -/
structure Wf (s : State n) : Prop where
  /-- A CPU inside `scheduler` holds the lock. -/
  holds : ∀ c, (s.cpu c).mode.InScheduler → s.lock = some c
  /-- A process picked but not yet switched to is `RUNNABLE`. -/
  picked : ∀ c p, (s.cpu c).mode = .picked p ∨ (s.cpu c).mode = .started p →
    (s.ptable p).state = .runnable
  /-- A process in execution is `RUNNING`. -/
  running : ∀ c p, (s.cpu c).mode = .running p → (s.ptable p).state = .running
  /-- It is in execution on one CPU only. -/
  unique : ∀ c c' p, (s.cpu c).mode = .running p → (s.cpu c').mode = .running p → c = c'
  /-- A process that has just switched back is not `RUNNING` any more. -/
  left : ∀ c p, (s.cpu c).mode = .returned p ∨ (∃ stop, (s.cpu c).mode = .ended p stop) →
    (s.ptable p).state.Left
  /-- A slot claimed by a `fork` in progress is an `EMBRYO`. -/
  child : ∀ p np, (s.thread p).act.child = some np → (s.ptable np).state = .embryo
  /-- Two `fork`s in progress have claimed different slots. -/
  child_unique : ∀ p q np, (s.thread p).act.child = some np → (s.thread q).act.child = some np →
    p = q

/-- Only the first slot is in use at boot. -/
theorem boot_ptable_of_ne (n : ℕ) (second : BitVec 32) {p : Slot} (hp : p ≠ 0) :
    (boot n second).ptable p = zero :=
  PTable.set_of_ne (fun _ => zero) (initcode second) hp

theorem boot_wf (n : ℕ) (second : BitVec 32) : Wf (boot n second) where
  holds c h := h.elim
  picked c p h := by rcases h with h | h <;> cases h
  running c p h := by cases h
  unique c c' p h := by cases h
  left c p h := by rcases h with h | ⟨stop, h⟩ <;> cases h
  child p np h := by cases h
  child_unique p q np h := by cases h

/-! ### Steps that move no CPU -/

/-- How a step may treat the table, the lock and the forks in progress without disturbing any CPU:
sleepers may be woken, a running process may give up the lock, forks may end, and a zombie may be
reaped while no CPU is inside `scheduler`. -/
structure Quiet (s s' : State n) : Prop where
  mode : ∀ c, (s'.cpu c).mode = (s.cpu c).mode
  lock : s'.lock = s.lock ∨ ∃ c p, s.lock = some c ∧ (s.cpu c).mode = .running p
  state : ∀ p, (s'.ptable p).state = (s.ptable p).state ∨
    ((s.ptable p).state = .sleeping ∧ (s'.ptable p).state = .runnable) ∨
    ((s.ptable p).state = .zombie ∧ ∀ c, ¬ (s.cpu c).mode.InScheduler)
  child : ∀ p, (s'.thread p).act.child = (s.thread p).act.child ∨ (s'.thread p).act.child = none

theorem Quiet.state_eq {s s' : State n} (q : Quiet s s') {p : Slot} {st : ProcState}
    (h : (s.ptable p).state = st) (hst : st ≠ .sleeping ∧ st ≠ .zombie) :
    (s'.ptable p).state = st := by
  rcases q.state p with heq | ⟨hs, -⟩ | ⟨hs, -⟩
  · rw [heq, h]
  · exact absurd (h.symm.trans hs) hst.1
  · exact absurd (h.symm.trans hs) hst.2

theorem Quiet.child_eq {s s' : State n} (q : Quiet s s') {p np : Slot}
    (h : (s'.thread p).act.child = some np) : (s.thread p).act.child = some np := by
  rcases q.child p with heq | heq
  · rw [← heq, h]
  · rw [heq] at h; cases h

theorem Quiet.wf {s s' : State n} (q : Quiet s s') (hs : Wf s) : Wf s' where
  holds c h := by
    rw [q.mode] at h
    have hc := hs.holds c h
    rcases q.lock with heq | ⟨c', p, hl, hm⟩
    · rw [heq, hc]
    · -- the lock belongs to a running process, so `c` cannot be inside `scheduler`
      obtain rfl : c = c' := by rw [hc] at hl; exact Option.some.inj hl
      rw [hm] at h
      exact h.elim
  picked c p h := by
    rw [q.mode] at h
    exact q.state_eq (hs.picked c p h) (by decide)
  running c p h := by
    rw [q.mode] at h
    exact q.state_eq (hs.running c p h) (by decide)
  unique c c' p h h' := by
    rw [q.mode] at h h'
    exact hs.unique c c' p h h'
  left c p h := by
    rw [q.mode] at h
    rcases q.state p with heq | ⟨-, hr⟩ | ⟨-, hout⟩
    · rw [heq]; exact hs.left c p h
    · exact Or.inl hr
    · refine absurd ?_ (hout c)
      rcases h with h | ⟨stop, h⟩ <;> rw [h] <;> trivial
  child p np h := q.state_eq (hs.child p np (q.child_eq h)) (by decide)
  child_unique p r np h h' := hs.child_unique p r np (q.child_eq h) (q.child_eq h')

/-! ### Steps of the scheduler thread -/

theorem Wf.not_inScheduler {s : State n} (hs : Wf s) {c : Fin (n + 1)}
    (hl : s.lock = none ∨ s.lock = some c) {d : Fin (n + 1)} (hd : d ≠ c) :
    ¬ (s.cpu d).mode.InScheduler := by
  intro h
  have hlock := hs.holds d h
  rcases hl with hl | hl
  · rw [hl] at hlock; cases hlock
  · rw [hl] at hlock; exact hd (Option.some.inj hlock).symm

/-- CPU `c` alone moves, to a point of `scheduler`, and the table keeps its states. -/
theorem Wf.move {s s' : State n} (hs : Wf s) {c : Fin (n + 1)} {m : Mode}
    (hl : s.lock = none ∨ s.lock = some c)
    (hmode : ∀ d, (s'.cpu d).mode = if d = c then m else (s.cpu d).mode)
    (hst : ∀ p, (s'.ptable p).state = (s.ptable p).state) (hth : s'.thread = s.thread)
    (hlock : m.InScheduler → s'.lock = some c)
    (hp : ∀ p, m = .picked p ∨ m = .started p → (s.ptable p).state = .runnable)
    (hr : ∀ p, m ≠ .running p)
    (hleft : ∀ p, m = .returned p ∨ (∃ stop, m = .ended p stop) → (s.ptable p).state.Left) :
    Wf s' := by
  -- no other CPU is inside `scheduler`, so only the running ones matter besides `c`
  have hout : ∀ d, d ≠ c → ¬ (s.cpu d).mode.InScheduler := fun d => hs.not_inScheduler hl
  have hne : ∀ {d}, d ≠ c → (s'.cpu d).mode = (s.cpu d).mode := fun h => by rw [hmode, if_neg h]
  have heq : (s'.cpu c).mode = m := by rw [hmode, if_pos rfl]
  refine ⟨fun d h => ?_, fun d p h => ?_, fun d p h => ?_, fun d d' p h h' => ?_, fun d p h => ?_,
    fun p np h => ?_, fun p q np h h' => ?_⟩
  · by_cases hd : d = c
    · subst hd; exact hlock (heq ▸ h)
    · exact absurd (hne hd ▸ h) (hout d hd)
  · rw [hst]
    by_cases hd : d = c
    · subst hd; exact hp p (heq ▸ h)
    · rw [hne hd] at h; exact hs.picked d p h
  · rw [hst]
    by_cases hd : d = c
    · subst hd; exact absurd (heq ▸ h) (hr p)
    · rw [hne hd] at h; exact hs.running d p h
  · by_cases hd : d = c
    · subst hd; exact absurd (heq ▸ h) (hr p)
    · by_cases hd' : d' = c
      · subst hd'; exact absurd (heq ▸ h') (hr p)
      · rw [hne hd] at h; rw [hne hd'] at h'; exact hs.unique d d' p h h'
  · rw [hst]
    by_cases hd : d = c
    · subst hd; exact hleft p (heq ▸ h)
    · rw [hne hd] at h; exact hs.left d p h
  · rw [hth] at h; rw [hst]; exact hs.child p np h
  · rw [hth] at h h'; exact hs.child_unique p q np h h'

/-- `scheduler` switches to the process it has picked. -/
theorem Wf.dispatch {s : State n} (hs : Wf s) {c : Fin (n + 1)} {p : Slot}
    (hm : (s.cpu c).mode = .started p) :
    Wf { s.setProc p { s.ptable p with state := .running } with
      cpu := Function.update s.cpu c { s.cpu c with proc := some p, mode := .running p } } := by
  have hin : (s.cpu c).mode.InScheduler := by rw [hm]; trivial
  have hlock : s.lock = some c := hs.holds c hin
  have hp : (s.ptable p).state = .runnable := hs.picked c p (Or.inr hm)
  have hout : ∀ d, d ≠ c → ¬ (s.cpu d).mode.InScheduler := fun d =>
    hs.not_inScheduler (Or.inr hlock)
  have hst : ∀ q, q ≠ p → (s.ptable.set p { s.ptable p with state := .running } q).state =
      (s.ptable q).state := fun q hq => by rw [PTable.set_of_ne _ _ hq]
  refine ⟨fun d h => ?_, fun d q h => ?_, fun d q h => ?_, fun d d' q h h' => ?_, fun d q h => ?_,
    fun q np h => ?_, fun q r np h h' => ?_⟩
  all_goals simp only [Function.update_apply] at *
  · split at h
    · exact h.elim
    · next hd => exact absurd h (hout d hd)
  · split at h
    · rcases h with h | h <;> cases h
    · next hd =>
      refine absurd ?_ (hout d hd)
      rcases h with h | h <;> rw [h] <;> trivial
  · split at h
    · cases h; exact congrArg Proc.state (PTable.set_self ..)
    · next hd =>
      have hq := hs.running d q h
      have hqp : q ≠ p := by rintro rfl; rw [hq] at hp; cases hp
      exact (hst q hqp).trans hq
  · -- nobody else was running `p`, since it was `RUNNABLE`
    have hno : ∀ d, (s.cpu d).mode ≠ .running p := by
      intro d hd
      have := hs.running d p hd
      rw [hp] at this
      cases this
    split at h <;> split at h'
    · next hd hd' => rw [hd, hd']
    · cases h; exact absurd h' (hno d')
    · cases h'; exact absurd h (hno d)
    · exact hs.unique d d' q h h'
  · split at h
    · rcases h with h | ⟨stop, h⟩ <;> cases h
    · next hd =>
      refine absurd ?_ (hout d hd)
      rcases h with h | ⟨stop, h⟩ <;> rw [h] <;> trivial
  · have hnp := hs.child q np h
    have hne : np ≠ p := by rintro rfl; rw [hnp] at hp; cases hp
    exact (hst np hne).trans hnp
  · exact hs.child_unique q r np h h'

/-! ### A process gives up its CPU -/

/-- Process `p` calls `sched` on CPU `c`. -/
theorem Wf.leave {s s' : State n} (hs : Wf s) {c : Fin (n + 1)} {p : Slot}
    (hm : (s.cpu c).mode = .running p) (hl : s.lock = none ∨ s.lock = some c)
    (hmode : ∀ d, (s'.cpu d).mode = if d = c then .returned p else (s.cpu d).mode)
    (hlock : s'.lock = some c) (hp : (s'.ptable p).state.Left)
    (hst : ∀ q, q ≠ p → (s'.ptable q).state = (s.ptable q).state ∨
      ((s.ptable q).state = .sleeping ∧ (s'.ptable q).state = .runnable))
    (hth : ∀ q, (s'.thread q).act.child = (s.thread q).act.child ∨
      (s'.thread q).act.child = none) : Wf s' := by
  have hrun := hs.running c p hm
  have hout : ∀ d, d ≠ c → ¬ (s.cpu d).mode.InScheduler := fun d => hs.not_inScheduler hl
  have hne : ∀ {d}, d ≠ c → (s'.cpu d).mode = (s.cpu d).mode := fun h => by rw [hmode, if_neg h]
  have heq : (s'.cpu c).mode = .returned p := by rw [hmode, if_pos rfl]
  have hkeep : ∀ {q st}, (s.ptable q).state = st → st ≠ .sleeping → q ≠ p →
      (s'.ptable q).state = st := by
    intro q st hq hsl hqp
    rcases hst q hqp with h | ⟨h, -⟩
    · rw [h, hq]
    · exact absurd (hq.symm.trans h) hsl
  have hch : ∀ {q np}, (s'.thread q).act.child = some np → (s.thread q).act.child = some np := by
    intro q np h
    rcases hth q with h' | h'
    · rw [← h', h]
    · rw [h'] at h; cases h
  refine ⟨fun d h => ?_, fun d q h => ?_, fun d q h => ?_, fun d d' q h h' => ?_, fun d q h => ?_,
    fun q np h => ?_, fun q r np h h' => hs.child_unique q r np (hch h) (hch h')⟩
  · by_cases hd : d = c
    · rw [hd, hlock]
    · rw [hne hd] at h; exact absurd h (hout d hd)
  · by_cases hd : d = c
    · subst hd; rw [heq] at h; rcases h with h | h <;> cases h
    · rw [hne hd] at h
      refine absurd ?_ (hout d hd)
      rcases h with h | h <;> rw [h] <;> trivial
  · by_cases hd : d = c
    · subst hd; rw [heq] at h; cases h
    · rw [hne hd] at h
      have hqp : q ≠ p := by rintro rfl; exact hd (hs.unique d c q h hm)
      exact hkeep (hs.running d q h) (by decide) hqp
  · by_cases hd : d = c
    · subst hd; rw [heq] at h; cases h
    · by_cases hd' : d' = c
      · subst hd'; rw [heq] at h'; cases h'
      · rw [hne hd] at h; rw [hne hd'] at h'; exact hs.unique d d' q h h'
  · by_cases hd : d = c
    · subst hd
      rw [heq] at h
      rcases h with h | ⟨stop, h⟩
      · cases h; exact hp
      · cases h
    · rw [hne hd] at h
      refine absurd ?_ (hout d hd)
      rcases h with h | ⟨stop, h⟩ <;> rw [h] <;> trivial
  · have hnp := hs.child q np (hch h)
    have hqp : np ≠ p := by rintro rfl; rw [hrun] at hnp; cases hnp
    exact hkeep hnp (by decide) hqp

/-! ### Slots claimed and given up by `fork` -/

/-- `allocproc` claims an `UNUSED` slot. -/
theorem Wf.claim {s s' : State n} (hs : Wf s) {p np : Slot}
    (hnp : (s.ptable np).state = .unused) (hmode : ∀ c, (s'.cpu c).mode = (s.cpu c).mode)
    (hlock : s'.lock = s.lock) (hst : (s'.ptable np).state = .embryo)
    (hother : ∀ q, q ≠ np → (s'.ptable q).state = (s.ptable q).state)
    (hp : (s'.thread p).act.child = some np) (hth : ∀ q, q ≠ p → s'.thread q = s.thread q) :
    Wf s' := by
  have hkeep : ∀ {q st}, (s.ptable q).state = st → st ≠ .unused → (s'.ptable q).state = st := by
    intro q st hq hne
    rw [hother q (by rintro rfl; exact hne (hq.symm.trans hnp)), hq]
  have hfresh : ∀ q, (s.thread q).act.child ≠ some np := by
    intro q hq
    have := hs.child q np hq
    rw [hnp] at this
    cases this
  refine ⟨fun d h => ?_, fun d q h => ?_, fun d q h => ?_, fun d d' q h h' => ?_, fun d q h => ?_,
    fun q r h => ?_, fun q r m h h' => ?_⟩
  · rw [hmode] at h; rw [hlock]; exact hs.holds d h
  · rw [hmode] at h; exact hkeep (hs.picked d q h) (by decide)
  · rw [hmode] at h; exact hkeep (hs.running d q h) (by decide)
  · rw [hmode] at h h'; exact hs.unique d d' q h h'
  · rw [hmode] at h
    have hq := hs.left d q h
    rw [hother q (by rintro rfl; rw [hnp] at hq; rcases hq with h | h | h <;> cases h)]
    exact hq
  · by_cases hq : q = p
    · subst hq; rw [hp] at h; cases h; exact hst
    · rw [hth q hq] at h; exact hkeep (hs.child q r h) (by decide)
  · by_cases hq : q = p
    · subst hq
      by_cases hr : r = q
      · exact hr.symm
      · rw [hp] at h; cases h; rw [hth r hr] at h'; exact absurd h' (hfresh r)
    · rw [hth q hq] at h
      by_cases hr : r = p
      · subst hr; rw [hp] at h'; cases h'; exact absurd h (hfresh q)
      · rw [hth r hr] at h'; exact hs.child_unique q r m h h'

/-- A `fork` ends: the slot it had claimed becomes `RUNNABLE`, or `UNUSED` again. -/
theorem Wf.unclaim {s s' : State n} (hs : Wf s) (p np : Slot)
    (hnp : (s.thread p).act.child = some np) (hmode : ∀ c, (s'.cpu c).mode = (s.cpu c).mode)
    (hlock : s'.lock = s.lock)
    (hother : ∀ q, q ≠ np → (s'.ptable q).state = (s.ptable q).state)
    (hp : (s'.thread p).act.child = none) (hth : ∀ q, q ≠ p → s'.thread q = s.thread q) :
    Wf s' := by
  have hemb := hs.child p np hnp
  have hkeep : ∀ {q st}, (s.ptable q).state = st → st ≠ .embryo → (s'.ptable q).state = st := by
    intro q st hq hne
    rw [hother q (by rintro rfl; exact hne (hq.symm.trans hemb)), hq]
  have hch : ∀ {q m}, (s'.thread q).act.child = some m →
      q ≠ p ∧ (s.thread q).act.child = some m := by
    intro q m h
    by_cases hq : q = p
    · subst hq; rw [hp] at h; cases h
    · rw [hth q hq] at h; exact ⟨hq, h⟩
  refine ⟨fun d h => ?_, fun d q h => ?_, fun d q h => ?_, fun d d' q h h' => ?_, fun d q h => ?_,
    fun q r h => ?_, fun q r m h h' => hs.child_unique q r m (hch h).2 (hch h').2⟩
  · rw [hmode] at h; rw [hlock]; exact hs.holds d h
  · rw [hmode] at h; exact hkeep (hs.picked d q h) (by decide)
  · rw [hmode] at h; exact hkeep (hs.running d q h) (by decide)
  · rw [hmode] at h h'; exact hs.unique d d' q h h'
  · rw [hmode] at h
    have hq := hs.left d q h
    rw [hother q (by rintro rfl; rw [hemb] at hq; rcases hq with h | h | h <;> cases h)]
    exact hq
  · obtain ⟨hq, h⟩ := hch h
    have hne : r ≠ np := by rintro rfl; exact hq (hs.child_unique q p r h hnp)
    rw [hother r hne]
    exact hs.child q r h

/-- A `fork` returns. -/
theorem Wf.forkReturns {s : State n} (hs : Wf s) {p np : Slot}
    (hnp : (s.thread p).act.child = some np) (q : Proc) (v : BitVec 32) :
    Wf ((s.setProc np q).setRet p v) := by
  refine hs.unclaim p np hnp (fun d => rfl) rfl (fun r hr => ?_) ?_ fun r hr => ?_
  · exact congrArg Proc.state (PTable.set_of_ne _ _ hr)
  · simp [setRet, setThread, Act.child]
  · simp [setRet, setThread, setProc, hr]

/-! ### Every step -/

theorem child_setRet (s : State n) (p q : Slot) (v : BitVec 32) :
    ((s.setRet p v).thread q).act.child = (s.thread q).act.child ∨
      ((s.setRet p v).thread q).act.child = none := by
  by_cases h : q = p
  · subst h; exact Or.inr (by simp [setRet, setThread, Act.child])
  · exact Or.inl (by simp [setRet, setThread, h])

theorem child_setAct {s : State n} {p : Slot} {a : Act} (ha : a.child = none) (q : Slot) :
    ((s.setAct p a).thread q).act.child = (s.thread q).act.child ∨
      ((s.setAct p a).thread q).act.child = none := by
  by_cases h : q = p
  · subst h; exact Or.inr (by simp [setAct, setThread, ha])
  · exact Or.inl (by simp [setAct, setThread, h])

theorem mode_sched (s : State n) (c d : Fin (n + 1)) (p : Slot) (r : Resume) :
    ((s.sched c p r).cpu d).mode = if d = c then .returned p else (s.cpu d).mode := by
  by_cases h : d = c
  · subst h; simp [sched]
  · simp [sched, h]

theorem child_sched (s : State n) (c : Fin (n + 1)) (p q : Slot) (r : Resume) :
    ((s.sched c p r).thread q).act.child = (s.thread q).act.child := by
  by_cases h : q = p
  · subst h; simp [sched]
  · simp [sched, h]

theorem mode_setIrq (s : State n) (c d : Fin (n + 1)) (i : Irq) :
    ((s.setIrq c i).cpu d).mode = (s.cpu d).mode := by
  by_cases h : d = c
  · subst h; simp [setIrq]
  · simp [setIrq, h]

theorem mode_setMode (s : State n) (c d : Fin (n + 1)) (m : Mode) :
    ((s.setMode c m).cpu d).mode = if d = c then m else (s.cpu d).mode := by
  by_cases h : d = c
  · subst h; simp [setMode]
  · simp [setMode, h]

/-- A step that changes no mode and no state and ends no more than forks. -/
theorem Wf.quiet {s s' : State n} (hs : Wf s) (hmode : ∀ c, (s'.cpu c).mode = (s.cpu c).mode)
    (hlock : s'.lock = s.lock)
    (hst : ∀ p, (s'.ptable p).state = (s.ptable p).state ∨
      ((s.ptable p).state = .sleeping ∧ (s'.ptable p).state = .runnable))
    (hth : ∀ p, (s'.thread p).act.child = (s.thread p).act.child ∨
      (s'.thread p).act.child = none) : Wf s' :=
  Quiet.wf ⟨hmode, Or.inl hlock, fun p => (hst p).imp_right Or.inl, hth⟩ hs

/-- The body of the loop of `wait`. -/
theorem Wf.waitStep {s : State n} (hs : Wf s) {c : Fin (n + 1)} {p : Slot}
    (hm : (s.cpu c).mode = .running p) (hl : s.lock = none ∨ s.lock = some c) :
    Wf (s.waitStep c p) := by
  have hout : ∀ d, ¬ (s.cpu d).mode.InScheduler := by
    intro d
    by_cases hd : d = c
    · subst hd; rw [hm]; exact id
    · exact hs.not_inScheduler hl hd
  have hlock : ∀ {o}, o = none → o = s.lock ∨
      ∃ c p, s.lock = some c ∧ (s.cpu c).mode = .running p := by
    rintro o rfl
    rcases hl with hl | hl
    · exact Or.inl hl.symm
    · exact Or.inr ⟨c, p, hl, hm⟩
  unfold State.waitStep waitTable
  cases hscan : waitScan s.ptable p with
  | reaped q pid =>
    refine Quiet.wf (s := s) ⟨fun d => rfl, hlock rfl, fun r => ?_,
      fun r => child_setRet s p r pid⟩ hs
    by_cases hr : r = q
    · subst hr
      exact Or.inr (Or.inr ⟨(waitScan_reaped hscan).2.1, hout⟩)
    · exact Or.inl (congrArg Proc.state (PTable.set_of_ne _ _ hr))
  | failed =>
    exact Quiet.wf (s := s) ⟨fun d => rfl, hlock rfl, fun r => Or.inl rfl,
      fun r => child_setRet s p r _⟩ hs
  | sleeps =>
    refine hs.leave hm hl (fun d => mode_sched _ c d p _) rfl ?_ (fun q hq => Or.inl ?_)
      fun q => Or.inl (child_sched _ c p q _)
    · exact Or.inr (Or.inl (congrArg Proc.state (PTable.set_self ..)))
    · exact congrArg Proc.state (PTable.set_of_ne _ _ hq)

theorem allocprocScan_state {t : PTable} {np : Slot} (h : allocprocScan t = some np) :
    (t np).state = .unused := by
  simpa using List.find?_some h

/-- **Every step keeps the invariant.** -/
theorem Wf.step {s s' : State n} {e : Event n} (hs : Wf s) (h : step s e = some s') : Wf s' := by
  cases Step.of_step h with
  | acquire c hm hi hl =>
    exact hs.move (Or.inl hl) (fun d => mode_setMode s c d _) (fun p => rfl) rfl (fun _ => rfl)
      (fun p h => by rcases h with h | h <;> cases h) (fun p h => by cases h)
      (fun p h => by rcases h with h | ⟨_, h⟩ <;> cases h)
  | scanIdle c hm hf =>
    have hl : s.lock = some c := hs.holds c (by rw [hm]; trivial)
    exact hs.move (Or.inr hl) (fun d => mode_setMode s c d _) (fun p => rfl) rfl (fun h => h.elim)
      (fun p h => by rcases h with h | h <;> cases h) (fun p h => by cases h)
      (fun p h => by rcases h with h | ⟨_, h⟩ <;> cases h)
  | scanStop c st hm hf hst => exact ⟨hs.1, hs.2, hs.3, hs.4, hs.5, hs.6, hs.7⟩
  | scanPick c p hm hr =>
    have hl : s.lock = some c := hs.holds c (by rw [hm]; trivial)
    refine hs.move (Or.inr hl) (fun d => mode_setMode s c d _) (fun p => rfl) rfl (fun _ => hl)
      (fun q h => ?_) (fun p h => by cases h) (fun p h => by rcases h with h | ⟨_, h⟩ <;> cases h)
    rcases h with h | h
    · cases h; exact (schedPlist_read hr).1
    · cases h
  | readStart c p hm =>
    have hl : s.lock = some c := hs.holds c (by rw [hm]; trivial)
    refine hs.move (m := .started p) (Or.inr hl) (fun d => ?_) (fun p => rfl) rfl (fun _ => hl)
      (fun q h => ?_) (fun p h => by cases h) (fun p h => by rcases h with h | ⟨_, h⟩ <;> cases h)
    · by_cases hd : d = c
      · subst hd; simp
      · simp [hd]
    · rcases h with h | h
      · cases h
      · cases h; exact hs.picked c p (Or.inl hm)
  | dispatch c p hm => exact hs.dispatch hm
  | readEnd c p hm =>
    have hl : s.lock = some c := hs.holds c (by rw [hm]; trivial)
    refine hs.move (Or.inr hl) (fun d => mode_setMode s c d _) (fun p => rfl) rfl (fun _ => hl)
      (fun q h => by rcases h with h | h <;> cases h) (fun p h => by cases h) (fun q h => ?_)
    rcases h with h | ⟨_, h⟩
    · cases h
    · cases h; exact hs.left c p (Or.inl hm)
  | feedback c p stop hm =>
    have hl : s.lock = some c := hs.holds c (by rw [hm]; trivial)
    refine hs.move (m := .idle) (Or.inr hl) (fun d => ?_) (fun q => ?_) rfl (fun h => h.elim)
      (fun p h => by rcases h with h | h <;> cases h) (fun p h => by cases h)
      (fun p h => by rcases h with h | ⟨_, h⟩ <;> cases h)
    · by_cases hd : d = c
      · subst hd; simp
      · simp [hd]
    · exact PTable.set_state (by rfl) q
  | resume c p hm hl hr =>
    exact Quiet.wf (s := s) ⟨fun d => rfl, Or.inr ⟨c, p, hl, hm⟩, fun r => Or.inl rfl,
      fun r => Or.inl rfl⟩ hs
  | resumeSp c p hm hl hr ha =>
    exact Quiet.wf (s := s) ⟨fun d => rfl, Or.inr ⟨c, p, hl, hm⟩, fun r => Or.inl rfl,
      fun r => child_setRet s p r 0⟩ hs
  | resumeSleep c p hm hl hr =>
    exact Quiet.wf (s := s) ⟨fun d => rfl, Or.inr ⟨c, p, hl, hm⟩,
      fun r => Or.inl (PTable.set_state (by rfl) r), fun r => Or.inl rfl⟩ hs
  | resumeWait c p hm hl hr =>
    have hs' : Wf (s.setProc p { s.ptable p with chan := none }) :=
      hs.quiet (fun d => rfl) rfl (fun r => Or.inl (PTable.set_state (by rfl) r))
        fun r => Or.inl rfl
    exact hs'.waitStep hm (Or.inr hl)
  | allocFail c p second hw ha hl hn =>
    exact hs.quiet (fun d => rfl) rfl (fun r => Or.inl rfl) fun r => child_setRet s p r _
  | alloc c p np second hw ha hl hn =>
    refine hs.claim (p := p) (allocprocScan_state hn) (fun d => rfl) rfl ?_ (fun q hq => ?_) ?_
      fun q hq => ?_
    · exact congrArg Proc.state (PTable.set_self ..)
    · exact congrArg Proc.state (PTable.set_of_ne _ _ hq)
    · simp [setAct, setThread, Act.child]
    · simp [setAct, setThread, hq]
  | kallocOk c p np hw ha =>
    refine hs.quiet (fun d => rfl) rfl (fun r => Or.inl (PTable.set_state (by rfl) r)) fun r => ?_
    by_cases hr : r = np
    · subst hr; exact Or.inr (by simp [setThread, Act.child])
    · by_cases hrp : r = p
      · subst hrp; exact Or.inl (by simp [setThread, setAct, hr, ha, Act.child])
      · exact Or.inl (by simp [setThread, setAct, setProc, hr, hrp])
  | kallocFail c p np hw ha => exact hs.forkReturns (by rw [ha]; rfl) _ _
  | copyOk c p np hw ha =>
    refine hs.quiet (fun d => rfl) rfl (fun r => Or.inl (PTable.set_state (by rfl) r)) fun r => ?_
    by_cases hrp : r = p
    · subst hrp; exact Or.inl (by simp [setThread, setAct, ha, Act.child])
    · exact Or.inl (by simp [setThread, setAct, setProc, hrp])
  | copyFail c p np hw ha => exact hs.forkReturns (by rw [ha]; rfl) _ _
  | forkRunnable c p np hw ha hl => exact hs.forkReturns (by rw [ha]; rfl) _ _
  | exitInit c hw => exact ⟨hs.1, hs.2, hs.3, hs.4, hs.5, hs.6, hs.7⟩
  | exit c p hw ha hp hl =>
    obtain ⟨hz, hother⟩ := exitTable_state s.ptable s.initproc p
    exact hs.leave (mode_of_work hw).1 (Or.inl hl) (fun d => mode_sched _ c d p _) rfl
      (Or.inr (Or.inr hz)) hother fun q => Or.inl (child_sched _ c p q _)
  | wait c p hw ha hl => exact hs.waitStep (mode_of_work hw).1 (Or.inl hl)
  | sleep c p chan hw ha hl hc =>
    refine hs.leave (mode_of_work hw).1 (Or.inl hl) (fun d => mode_sched _ c d p _) rfl
      (Or.inr (Or.inl ?_)) (fun q hq => Or.inl ?_) fun q => Or.inl (child_sched _ c p q _)
    · exact congrArg Proc.state (PTable.set_self ..)
    · exact congrArg Proc.state (PTable.set_of_ne _ _ hq)
  | wakeup c chan hl hc =>
    exact hs.quiet (fun d => rfl) rfl (fun r => wakeup1_state ..) fun r => Or.inl rfl
  | killFail c p pid hw ha hl hk =>
    exact hs.quiet (fun d => rfl) rfl (fun r => Or.inl rfl) fun r => child_setRet s p r _
  | kill c p pid t hw ha hl hk =>
    exact hs.quiet (fun d => rfl) rfl (fun r => killTable_state hk r) fun r => child_setRet s p r _
  | spFail c p v hw ha hl hk =>
    exact hs.quiet (fun d => rfl) rfl (fun r => Or.inl rfl) fun r => child_setRet s p r _
  | sp c p v t hw ha hl hk =>
    exact hs.quiet (fun d => rfl) rfl (fun r => Or.inl (spTable_state hk r))
      fun r => child_setAct (s := s) (p := p) (a := .spYield) rfl r
  | spYield c p hw ha hl =>
    refine hs.leave (mode_of_work hw).1 (Or.inl hl) (fun d => mode_sched _ c d p _) rfl
      (Or.inl ?_) (fun q hq => Or.inl ?_) fun q => ?_
    · exact congrArg Proc.state (PTable.set_self ..)
    · exact congrArg Proc.state (PTable.set_of_ne _ _ hq)
    · rw [child_sched]
      exact child_setAct (s := s) (p := p) (a := .spYielding) rfl q
  | getpriority c p hw ha hl =>
    exact hs.quiet (fun d => rfl) rfl (fun r => Or.inl rfl) fun r => child_setRet s p r _
  | timerZero hi hm =>
    exact hs.quiet (fun d => mode_setIrq s 0 d _) rfl (fun r => Or.inl rfl) fun r => Or.inl rfl
  | timer c hc hi hm =>
    exact hs.quiet (fun d => mode_setIrq s c d _) rfl (fun r => Or.inl rfl) fun r => Or.inl rfl
  | tickWakeup c hi hl =>
    exact hs.quiet (fun d => mode_setIrq s c d _) rfl (fun r => wakeup1_state ..)
      fun r => Or.inl rfl
  | timerYield c p hm hi hl =>
    refine hs.leave hm (Or.inl hl) (fun d => mode_sched _ c d p _) rfl (Or.inl ?_)
      (fun q hq => Or.inl ?_) fun q => Or.inl (child_sched _ c p q _)
    · exact congrArg Proc.state (PTable.set_self ..)
    · exact congrArg Proc.state (PTable.set_of_ne _ _ hq)
  | timerEnd c hm hi =>
    exact hs.quiet (fun d => mode_setIrq s c d _) rfl (fun r => Or.inl rfl) fun r => Or.inl rfl
  | timerExit c p hm hi hk ha =>
    exact hs.quiet (fun d => mode_setIrq s c d _) rfl (fun r => Or.inl rfl)
      fun r => child_setAct (s := s.setIrq c .none) (p := p) (a := .exiting) rfl r
  | fault c p hw ha =>
    exact hs.quiet (fun d => rfl) rfl (fun r => Or.inl (PTable.set_state (by rfl) r))
      fun r => child_setAct (s := s) (p := p) (a := .exiting) rfl r

/-- **The invariant holds in every reachable state.** -/
theorem Wf.run {s s' : State n} {es : List (Event n)} (hs : Wf s)
    (h : Transition.run Proc.step s es = some s') : Wf s' :=
  run_induct (P := fun _ s => Wf s) h hs fun _ _ _ _ ih hst => ih.step hst

theorem Wf.of_reach {ok : State n → Event n → Prop} {second : BitVec 32} {s : State n}
    (h : Reach Proc.step ok (boot n second) s) : Wf s :=
  h.induct (boot_wf n second) fun _ _ _ hs _ hst => hs.step hst

/-- The lock comes to a CPU only when it enters `scheduler`. -/
theorem lock_of_step {s s' : State n} {e : Event n} {c : Fin (n + 1)} (h : Proc.step s e = some s')
    (hl : s'.lock = some c) :
    s.lock = some c ∨ (s'.cpu c).mode.InScheduler := by
  have hsched : ∀ {t : State n} {d : Fin (n + 1)} {q : Slot} {r : Resume},
      (t.sched d q r).lock = some c → ((t.sched d q r).cpu c).mode.InScheduler := by
    intro t d q r ht
    obtain rfl : d = c := Option.some.inj ht
    simp [sched, Mode.InScheduler]
  have hwait : ∀ {t : State n} {d : Fin (n + 1)} {q : Slot},
      (t.waitStep d q).lock = some c → ((t.waitStep d q).cpu c).mode.InScheduler := by
    intro t d q ht
    unfold waitStep at ht ⊢
    cases hscan : waitScan t.ptable q with
    | reaped r pid => simp only [hscan] at ht; cases ht
    | failed => simp only [hscan] at ht; cases ht
    | sleeps =>
      simp only [hscan] at ht ⊢
      exact hsched ht
  cases Step.of_step h with
  | acquire d hm hi hl' =>
    obtain rfl : d = c := Option.some.inj hl
    exact Or.inr (by simp [setMode, Mode.InScheduler])
  | scanIdle | feedback | resume | resumeSp | resumeSleep => cases hl
  | resumeWait d q hm hl' hr => exact Or.inr (hwait hl)
  | wait d q hw ha hl' => exact Or.inr (hwait hl)
  | exit d q hw ha hp hl' => exact Or.inr (hsched hl)
  | sleep d q chan hw ha hl' hc => exact Or.inr (hsched hl)
  | spYield d q hw ha hl' => exact Or.inr (hsched hl)
  | timerYield d q hm hi hl' => exact Or.inr (hsched hl)
  | _ => exact Or.inl hl

end Proc

end Xv6
