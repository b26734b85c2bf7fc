import Xv6.Proc.Invariant

/-!
# What a step does to one process

Most of what can be said about a process is said about its slot alone: who may mark it killed, when
it gets its pid, its kernel stack, its parent. `SlotStep` lists everything that a step can do to one
slot, each with the event and the circumstances under which it happens, so that such a fact is a
case analysis on `SlotStep` and does not look at the machine again. `ActStep` does the same for the
point that the process has reached in `fork`, and `ActCause` says who changes that point.

## Main definitions

* `heir` — who the parent of a process is after a process has exited
* `SlotStep`, `ActStep`, `ActCause` — what a step can do to one slot, and to the thread of one
  process

## Main results

* `exitTable_eq`, `exitTable_parent_awake`, `exitTable_init_awake` — the table after `exit`
* `waitScan_failed`, `waitScan_sleeps` — when `wait` gives up and when it sleeps
* `SlotStep.of_step`, `ActStep.of_step`, `ActCause.of_step` — inversion of `step` for one process
-/

namespace Xv6

namespace Proc

open State

variable {n : ℕ}

/-! ### `exit` -/

/-- The parent of a process with parent `par` once `cur` has passed its children to `initproc`. -/
def heir (initproc cur : Slot) (par : Option Slot) : Option Slot :=
  if par = some cur then some initproc else par

theorem heir_heir (initproc cur : Slot) (par : Option Slot) :
    heir initproc cur (heir initproc cur par) = heir initproc cur par := by
  unfold heir
  by_cases h : par = some cur
  · simp only [if_pos h, ite_self]
  · simp only [if_neg h]

theorem wakeup1_eq (t : PTable) (chan : Option Chan) (r : Slot) :
    ∃ st, wakeup1 t chan r = { t r with state := st } := by
  unfold wakeup1
  split
  · exact ⟨.runnable, rfl⟩
  · exact ⟨(t r).state, rfl⟩

theorem reparent_eq (initproc cur : Slot) (t : PTable) (p r : Slot) :
    ∃ st, reparent initproc cur t p r =
      { t r with
        parent := if r = p then heir initproc cur (t r).parent else (t r).parent
        state := st } := by
  have hset : ∀ (h : (t p).parent = some cur),
      t.set p { t p with parent := some initproc } r =
        { t r with
          parent := if r = p then heir initproc cur (t r).parent else (t r).parent } := by
    intro h
    rw [PTable.set_apply]
    split
    · next hr => subst hr; rw [heir, if_pos h]
    · rfl
  unfold reparent
  split
  · next h =>
    dsimp only
    split
    · obtain ⟨st, hst⟩ := wakeup1_eq (t.set p { t p with parent := some initproc })
        (some (.proc initproc)) r
      exact ⟨st, by rw [hst, hset h]⟩
    · exact ⟨(t r).state, hset h⟩
  · next h =>
    refine ⟨(t r).state, ?_⟩
    split
    · next hr => subst hr; rw [heir, if_neg h]
    · rfl

/-- The loop of `exit` changes parents, and states by waking. -/
theorem reparentLoop_eq (initproc cur : Slot) (ps : List Slot) (t : PTable) (r : Slot) :
    ∃ st, ps.foldl (reparent initproc cur) t r =
      { t r with
        parent := if r ∈ ps then heir initproc cur (t r).parent else (t r).parent
        state := st } := by
  induction ps generalizing t with
  | nil => exact ⟨(t r).state, by simp⟩
  | cons p ps ih =>
    obtain ⟨st, hst⟩ := ih (reparent initproc cur t p)
    obtain ⟨st', hst'⟩ := reparent_eq initproc cur t p r
    refine ⟨st, ?_⟩
    rw [List.foldl_cons, hst, hst']
    by_cases hr : r = p
    · subst hr; simp [heir_heir]
    · simp [hr]

/-- **The table after `exit`.** Every child of `cur` has `initproc` as its parent; the states change
as `exitTable_state` says; nothing else changes. -/
theorem exitTable_eq (t : PTable) (initproc cur r : Slot) :
    exitTable t initproc cur r =
      { t r with
        parent := heir initproc cur (t r).parent
        state := (exitTable t initproc cur r).state } := by
  obtain ⟨st, hst⟩ := reparentLoop_eq initproc cur slots (wakeup1 t ((t cur).parent.map .proc)) r
  obtain ⟨st', hst'⟩ := wakeup1_eq t ((t cur).parent.map .proc) r
  rw [hst'] at hst
  simp only [mem_slots, if_true] at hst
  unfold exitTable
  rw [PTable.set_apply]
  split
  · next hr => subst hr; rw [hst]
  · rw [hst]

theorem reparentLoop_awake (initproc cur : Slot) {r : Slot} (ps : List Slot) {t : PTable}
    (h : (t r).state ≠ .sleeping) : (ps.foldl (reparent initproc cur) t r).state ≠ .sleeping := by
  induction ps generalizing t with
  | nil => exact h
  | cons p ps ih =>
    refine ih ?_
    rcases reparent_state initproc cur t p r with heq | ⟨hs, -⟩
    · rw [heq]; exact h
    · exact absurd hs h

/-- A process that sleeps in `wait` is woken when one of its children exits. -/
theorem exitTable_parent_awake {t : PTable} {initproc cur q : Slot}
    (hq : (t cur).parent = some q) (hchan : (t q).chan = some (.proc q)) :
    (exitTable t initproc cur q).state ≠ .sleeping := by
  have hwake : (wakeup1 t ((t cur).parent.map .proc) q).state ≠ .sleeping := by
    unfold wakeup1
    split
    · nofun
    · next h => exact fun hs => h ⟨hs, by rw [hchan, hq]; rfl⟩
  unfold exitTable
  rw [PTable.set_apply]
  split
  · nofun
  · exact reparentLoop_awake initproc cur slots hwake

/-- `initproc` is woken in `wait` when it inherits a zombie. -/
theorem reparentLoop_init_awake {initproc cur z : Slot} {ps : List Slot} {t : PTable} (hz : z ∈ ps)
    (hpar : (t z).parent = some cur) (hzombie : (t z).state = .zombie)
    (hchan : (t initproc).chan = some (.proc initproc)) :
    (ps.foldl (reparent initproc cur) t initproc).state ≠ .sleeping := by
  induction ps generalizing t with
  | nil => cases hz
  | cons p ps ih =>
    rw [List.foldl_cons]
    obtain ⟨st, hst⟩ := reparent_eq initproc cur t p initproc
    by_cases hp : z = p
    · -- `z` is looked at here, and whoever sleeps on `initproc` is woken
      subst hp
      have hset : (t.set z { t z with parent := some initproc } initproc).chan =
          some (.proc initproc) := by
        rw [PTable.set_apply]
        split
        · next h => subst h; exact hchan
        · exact hchan
      have hrep : reparent initproc cur t z =
          wakeup1 (t.set z { t z with parent := some initproc }) (some (.proc initproc)) := by
        unfold reparent
        rw [if_pos hpar]
        dsimp only
        rw [PTable.set_self]
        exact if_pos hzombie
      refine reparentLoop_awake initproc cur ps ?_
      rw [hrep]
      unfold wakeup1
      split
      · nofun
      · next h => exact fun hs => h ⟨hs, hset⟩
    · have hzs : (reparent initproc cur t p z).state = .zombie := by
        rcases reparent_state initproc cur t p z with heq | ⟨hs, -⟩
        · rw [heq, hzombie]
        · rw [hzombie] at hs; cases hs
      obtain ⟨stz, hstz⟩ := reparent_eq initproc cur t p z
      refine ih ((List.mem_cons.mp hz).resolve_left hp) ?_ hzs ?_
      · rw [hstz, if_neg hp]; exact hpar
      · rw [hst]; exact hchan

theorem exitTable_init_awake {t : PTable} {initproc cur z : Slot} (hpar : (t z).parent = some cur)
    (hzombie : (t z).state = .zombie) (hchan : (t initproc).chan = some (.proc initproc)) :
    (exitTable t initproc cur initproc).state ≠ .sleeping := by
  unfold exitTable
  rw [PTable.set_apply]
  split
  · nofun
  · have hz : (wakeup1 t ((t cur).parent.map .proc) z).state = .zombie := by
      rcases wakeup1_state t ((t cur).parent.map .proc) z with heq | ⟨hs, -⟩
      · rw [heq, hzombie]
      · rw [hzombie] at hs; cases hs
    obtain ⟨st, hst⟩ := wakeup1_eq t ((t cur).parent.map .proc) z
    obtain ⟨st', hst'⟩ := wakeup1_eq t ((t cur).parent.map .proc) initproc
    exact reparentLoop_init_awake (mem_slots z) (by rw [hst]; exact hpar) hz
      (by rw [hst']; exact hchan)

/-! ### `wait` -/

/-- `wait` gives up only when there is no child to wait for or the caller has been killed. -/
theorem waitScan_failed {t : PTable} {cur : Slot} (h : waitScan t cur = .failed) :
    (∀ p, (t p).parent ≠ some cur) ∨ (t cur).killed = true := by
  unfold waitScan at h
  split at h
  · cases h
  · split at h
    · next hor =>
      refine hor.imp (fun hany p hp => ?_) id
      rw [List.any_eq_false] at hany
      exact hany p (mem_slots p) (by simpa using hp)
    · cases h

/-- `wait` gives up only when it has found no zombie child. -/
theorem waitScan_failed_none {t : PTable} {cur : Slot} (h : waitScan t cur = .failed) :
    ∀ p, (t p).parent = some cur → (t p).state ≠ .zombie := by
  intro p hp hz
  unfold waitScan at h
  split at h
  · cases h
  · next hfind =>
    have := List.find?_eq_none.mp hfind p (mem_slots p)
    simp [hp, hz] at this

/-- `wait` sleeps only when no child is a zombie and the caller has not been killed. -/
theorem waitScan_sleeps {t : PTable} {cur : Slot} (h : waitScan t cur = .sleeps) :
    (∀ p, (t p).parent = some cur → (t p).state ≠ .zombie) ∧ (t cur).killed = false := by
  unfold waitScan at h
  split at h
  · cases h
  · next hfind =>
    split at h
    · cases h
    · next hor =>
      refine ⟨fun p hp hz => ?_, by simpa using (not_or.mp hor).2⟩
      have := List.find?_eq_none.mp hfind p (mem_slots p)
      simp [hp, hz] at this

theorem waitScan_eq_reaped {t : PTable} {cur z : Slot} (hpar : (t z).parent = some cur)
    (hz : (t z).state = .zombie)
    (hfirst : ∀ q < z, (t q).parent = some cur → (t q).state ≠ .zombie) :
    waitScan t cur = .reaped z (t z).pid := by
  have hfind : (slots.find? fun p => (t p).parent = some cur ∧ (t p).state = .zombie) = some z :=
    find?_slots_eq_some.mpr ⟨decide_eq_true ⟨hpar, hz⟩, fun q hq =>
      decide_eq_false fun h => hfirst q hq h.1 h.2⟩
  simp only [waitScan, hfind]

theorem waitScan_eq_sleeps {t : PTable} {cur p : Slot}
    (hz : ∀ q, (t q).parent = some cur → (t q).state ≠ .zombie) (hp : (t p).parent = some cur)
    (hk : (t cur).killed = false) : waitScan t cur = .sleeps := by
  have hfind : (slots.find? fun p => (t p).parent = some cur ∧ (t p).state = .zombie) = none :=
    List.find?_eq_none.mpr fun q _ h => hz q (of_decide_eq_true h).1 (of_decide_eq_true h).2
  have hany : (slots.any fun p => (t p).parent = some cur) = true :=
    List.any_eq_true.mpr ⟨p, mem_slots p, decide_eq_true hp⟩
  simp only [waitScan, hfind, hany, hk]
  exact if_neg (by simp)

/-! ### One slot -/

/-- What a step can do to slot `r`. -/
inductive SlotStep (s : State n) (r : Slot) : Event n → Proc → Prop
  | same (e) : SlotStep s r e (s.ptable r)
  | claim (c second) (hr : (s.ptable r).state = .unused) :
      SlotStep s r (.allocproc c second)
        { s.ptable r with state := .embryo, pid := s.nextpid, prio := initialPrio second }
  | kalloc (c) (p : Slot) (hw : s.work c = some p) (ha : (s.thread p).act = .forkAlloc r) :
      SlotStep s r (.kalloc c true) { s.ptable r with kstack := true }
  | kallocFail (c) (p : Slot) (hw : s.work c = some p) (ha : (s.thread p).act = .forkAlloc r) :
      SlotStep s r (.kalloc c false) { s.ptable r with kstack := false, state := .unused }
  | copyuvm (c) (p : Slot) (hw : s.work c = some p) (ha : (s.thread p).act = .forkCopy r) :
      SlotStep s r (.copyuvm c true) { s.ptable r with pgdir := true, parent := some p }
  | copyuvmFail (c) (p : Slot) (hw : s.work c = some p) (ha : (s.thread p).act = .forkCopy r) :
      SlotStep s r (.copyuvm c false)
        { s.ptable r with pgdir := false, kstack := false, state := .unused }
  | ready (c) (p : Slot) (hw : s.work c = some p) (ha : (s.thread p).act = .forkReady r) :
      SlotStep s r (.forkRunnable c) { s.ptable r with state := .runnable }
  | dispatch (c) (hm : (s.cpu c).mode = .started r) :
      SlotStep s r (.dispatch c) { s.ptable r with state := .running }
  | feedback (c) (stop) (hm : (s.cpu c).mode = .ended r stop) :
      SlotStep s r (.feedback c)
        { s.ptable r with prio := Proc.feedback (s.cpu c).start stop (s.ptable r).prio }
  | unchan (c) (hm : (s.cpu c).mode = .running r) :
      SlotStep s r (.resume c) { s.ptable r with chan := none }
  | yield (c e) (hm : (s.cpu c).mode = .running r) (he : e = .spYield c ∨ e = .timerYield c) :
      SlotStep s r e { s.ptable r with state := .runnable }
  | sleep (c chan) (hw : s.work c = some r) (hc : chan.IsOther) :
      SlotStep s r (.sleep c chan) { s.ptable r with chan := some chan, state := .sleeping }
  | waits (c e) (hm : (s.cpu c).mode = .running r) (he : e = .wait c ∨ e = .resume c)
      (hk : (s.ptable r).killed = false)
      (hz : ∀ z, (s.ptable z).parent = some r → (s.ptable z).state ≠ .zombie) :
      SlotStep s r e { s.ptable r with chan := some (.proc r), state := .sleeping }
  | reap (c e) (p : Slot) (hm : (s.cpu c).mode = .running p) (he : e = .wait c ∨ e = .resume c)
      (hpar : (s.ptable r).parent = some p) (hz : (s.ptable r).state = .zombie) :
      SlotStep s r e (Proc.reap (s.ptable r))
  | exits (c) (hw : s.work c = some r) (hi : r ≠ s.initproc)
      (ha : (s.thread r).act = .user ∨ (s.thread r).act = .exiting) :
      SlotStep s r (.exit c)
        { s.ptable r with
          parent := heir s.initproc r (s.ptable r).parent, state := .zombie }
  | bereaved (c) (p : Slot) (st) (hw : s.work c = some p) (hr : r ≠ p)
      (ha : (s.thread p).act = .user ∨ (s.thread p).act = .exiting)
      (hst : st = (s.ptable r).state ∨ (s.ptable r).state = .sleeping ∧ st = .runnable) :
      SlotStep s r (.exit c)
        { s.ptable r with parent := heir s.initproc p (s.ptable r).parent, state := st }
  | woken (e) (hs : (s.ptable r).state = .sleeping) :
      SlotStep s r e { s.ptable r with state := .runnable }
  | killed (c pid) (hpid : (s.ptable r).pid = pid) (hf : ∀ q < r, (s.ptable q).pid ≠ pid) :
      SlotStep s r (.kill c pid)
        { s.ptable r with
          killed := true
          state := if (s.ptable r).state = .sleeping then .runnable else (s.ptable r).state }
  | setprio (c) (p : Slot) (v) (hw : s.work c = some p) (hpid : (s.ptable r).pid = (s.ptable p).pid)
      (hf : ∀ q < r, (s.ptable q).pid ≠ (s.ptable p).pid) :
      SlotStep s r (.setpriority c v) { s.ptable r with prio := v }
  | fault (c) (hw : s.work c = some r) :
      SlotStep s r (.fault c) { s.ptable r with killed := true }

/-- What a step can do to the point that process `p` has reached. -/
inductive ActStep (s : State n) (p : Slot) : Event n → Act → Prop
  | same (e) : ActStep s p e (s.thread p).act
  | plain (e) (a : Act) (ha : a.child = none) : ActStep s p e a
  | claim (c second np) (hw : s.work c = some p) (hn : allocprocScan s.ptable = some np) :
      ActStep s p (.allocproc c second) (.forkAlloc np)
  | kalloc (c np) (hw : s.work c = some p) (ha : (s.thread p).act = .forkAlloc np) :
      ActStep s p (.kalloc c true) (.forkCopy np)
  | copyuvm (c np) (hw : s.work c = some p) (ha : (s.thread p).act = .forkCopy np) :
      ActStep s p (.copyuvm c true) (.forkReady np)

/-- The steps with which a `fork` goes on. -/
def Event.IsFork : Event n → Prop
  | .kalloc _ _ | .copyuvm _ _ | .forkRunnable _ => True
  | _ => False

/-- Why process `p` gets to the point `a`. It has been there, or makes a call, or goes on with one;
or it is being made by a `fork`. -/
inductive ActCause (s : State n) (e : Event n) (p : Slot) : Act → Prop
  | same : ActCause s e p (s.thread p).act
  | call {a} (ha : (s.thread p).act = .user) : ActCause s e p a
  | yield (ha : (s.thread p).act = .spYield) : ActCause s e p .spYielding
  | resume {a} (c) (hm : (s.cpu c).mode = .running p) (hl : s.lock = some c)
      (hr : (s.thread p).act = .spYielding ∨ (s.thread p).resume = .waiting) : ActCause s e p a
  | fork {a} (he : e.IsFork) (ha : (s.thread p).act.child ≠ none) : ActCause s e p a
  | child {a} (q) (he : e.IsFork) (ha : (s.thread q).act.child = some p) : ActCause s e p a

section Inversion

variable {s s' : State n} {e : Event n}

/-- The slots other than `p` are untouched by an update of `p`. -/
private theorem SlotStep.set {p : Slot} {q : Proc} (r : Slot)
    (h : r = p → SlotStep s r e q) : SlotStep s r e (s.ptable.set p q r) := by
  rw [PTable.set_apply]
  split
  · next hr => exact h hr
  · exact .same e

private theorem SlotStep.wakeup1 (chan : Option Chan) (r : Slot) :
    SlotStep s r e (wakeup1 s.ptable chan r) := by
  unfold Proc.wakeup1
  split
  · next h => exact .woken e h.1
  · exact .same e

/-- The body of the loop of `wait`, on the table of `s` or on that table with the caller's channel
cleared. -/
private theorem SlotStep.waitTable {c : Fin (n + 1)} {p : Slot} (hm : (s.cpu c).mode = .running p)
    (hrun : (s.ptable p).state = .running) {q : Proc}
    (hq : e = .wait c ∧ q = s.ptable p ∨ e = .resume c ∧ q = { s.ptable p with chan := none })
    (r : Slot) : SlotStep s r e (waitTable (s.ptable.set p q) p r) := by
  have he : e = .wait c ∨ e = .resume c := hq.imp And.left And.left
  have hfield : q.state = (s.ptable p).state ∧ q.parent = (s.ptable p).parent ∧
      q.killed = (s.ptable p).killed ∧
      { q with chan := some (.proc p), state := .sleeping } =
        { s.ptable p with chan := some (.proc p), state := .sleeping } := by
    rcases hq with ⟨-, rfl⟩ | ⟨-, rfl⟩ <;> exact ⟨rfl, rfl, rfl, rfl⟩
  have hstate : ∀ z, (s.ptable.set p q z).state = (s.ptable z).state := PTable.set_state hfield.1
  have hparent : ∀ z, (s.ptable.set p q z).parent = (s.ptable z).parent := by
    intro z
    rw [PTable.set_apply]
    split
    · next h => rw [h]; exact hfield.2.1
    · rfl
  have hself : SlotStep s p e q := by
    rcases hq with ⟨rfl, rfl⟩ | ⟨rfl, rfl⟩
    · exact .same _
    · exact .unchan c hm
  have hbase : SlotStep s r e (s.ptable.set p q r) := .set r fun hr => hr ▸ hself
  unfold Proc.waitTable
  cases hscan : waitScan (s.ptable.set p q) p with
  | reaped z pid =>
    obtain ⟨hpar, hz, -⟩ := waitScan_reaped hscan
    rw [hparent] at hpar
    rw [hstate] at hz
    dsimp only
    rw [PTable.set_apply]
    split
    · next hr =>
      subst hr
      have hrp : r ≠ p := by rintro rfl; rw [hrun] at hz; cases hz
      rw [PTable.set_of_ne _ _ hrp]
      exact .reap c e p hm he hpar hz
    · exact hbase
  | failed => exact hbase
  | sleeps =>
    obtain ⟨hzs, hk⟩ := waitScan_sleeps hscan
    dsimp only
    rw [PTable.set_apply]
    split
    · next hr =>
      subst hr
      rw [PTable.set_self, hfield.2.2.2]
      rw [PTable.set_self, hfield.2.2.1] at hk
      refine .waits c e hm he hk fun z hz => ?_
      have := hzs z
      rw [hparent, hstate] at this
      exact this hz
    · exact hbase

private theorem SlotStep.exitTable {c : Fin (n + 1)} {p : Slot} (hw : s.work c = some p)
    (hp : p ≠ s.initproc) (ha : (s.thread p).act = .user ∨ (s.thread p).act = .exiting) (r : Slot) :
    SlotStep s r (.exit c) (exitTable s.ptable s.initproc p r) := by
  obtain ⟨hz, hother⟩ := exitTable_state s.ptable s.initproc p
  rw [exitTable_eq]
  by_cases hr : r = p
  · subst hr
    rw [hz]
    exact .exits c hw hp ha
  · exact .bereaved c p _ hw hr ha (hother r hr)

/-- **Inversion for one slot.** -/
theorem SlotStep.of_step (hs : Wf s) (h : step s e = some s') (r : Slot) :
    SlotStep s r e (s'.ptable r) := by
  cases Step.of_step h with
  | dispatch c p hm => exact .set r fun hr => hr ▸ .dispatch c (hr ▸ hm)
  | feedback c p stop hm => exact .set r fun hr => hr ▸ .feedback c stop (hr ▸ hm)
  | resumeSleep c p hm hl hr => exact .set r fun hr => hr ▸ .unchan c (hr ▸ hm)
  | resumeWait c p hm hl hr =>
    rw [ptable_waitStep]
    exact .waitTable hm (hs.running c p hm) (Or.inr ⟨rfl, rfl⟩) r
  | wait c p hw ha hl =>
    have hm := (mode_of_work hw).1
    have := SlotStep.waitTable (e := .wait c) hm (hs.running c p hm) (Or.inl ⟨rfl, rfl⟩) r
    rw [ptable_waitStep]
    rwa [show s.ptable.set p (s.ptable p) = s.ptable from Function.update_eq_self ..] at this
  | alloc c p np second hw ha hl hn =>
    exact .set r fun hr => hr ▸ .claim c second (hr ▸ allocprocScan_state hn)
  | kallocOk c p np hw ha => exact .set r fun hr => hr ▸ .kalloc c p hw (hr ▸ ha)
  | kallocFail c p np hw ha => exact .set r fun hr => hr ▸ .kallocFail c p hw (hr ▸ ha)
  | copyOk c p np hw ha => exact .set r fun hr => hr ▸ .copyuvm c p hw (hr ▸ ha)
  | copyFail c p np hw ha => exact .set r fun hr => hr ▸ .copyuvmFail c p hw (hr ▸ ha)
  | forkRunnable c p np hw ha hl => exact .set r fun hr => hr ▸ .ready c p hw (hr ▸ ha)
  | exit c p hw ha hp hl => exact .exitTable hw hp ha r
  | sleep c p chan hw ha hl hc => exact .set r fun hr => hr ▸ .sleep c chan (hr ▸ hw) hc
  | wakeup c chan hl hc => exact .wakeup1 _ r
  | tickWakeup c hi hl => exact .wakeup1 _ r
  | kill c p pid t hw ha hl hk =>
    obtain ⟨q, hq, rfl⟩ := Option.map_eq_some_iff.mp hk
    obtain ⟨hpid, hf⟩ := find?_pid_eq_some.mp hq
    exact .set r fun hr => by subst hr; exact .killed c pid hpid hf
  | sp c p v t hw ha hl hk =>
    obtain ⟨q, hq, rfl⟩ := Option.map_eq_some_iff.mp hk
    obtain ⟨hpid, hf⟩ := find?_pid_eq_some.mp hq
    exact .set r fun hr => by subst hr; exact .setprio c p v hw hpid hf
  | spYield c p hw ha hl =>
    exact .set r fun hr => hr ▸ .yield c _ (hr ▸ (mode_of_work hw).1) (Or.inl rfl)
  | timerYield c p hm hi hl => exact .set r fun hr => hr ▸ .yield c _ (hr ▸ hm) (Or.inr rfl)
  | fault c p hw ha => exact .set r fun hr => hr ▸ .fault c (hr ▸ hw)
  | _ => exact .same _

/-- A slot that stays in use keeps its pid. -/
theorem pid_of_used (hs : Wf s) (h : step s e = some s') {r : Slot}
    (hu : (s.ptable r).state ≠ .unused) (hu' : (s'.ptable r).state ≠ .unused) :
    (s'.ptable r).pid = (s.ptable r).pid := by
  have hslot := SlotStep.of_step hs h r
  generalize s'.ptable r = q at hslot hu' ⊢
  cases hslot with
  | claim c second hr => exact absurd hr hu
  | reap c e p hm he hpar hz => exact absurd rfl hu'
  | _ => rfl

theorem act_setThread (t : State n) (q p : Slot) (th : Thread) :
    ((t.setThread q th).thread p).act = if p = q then th.act else (t.thread p).act := by
  by_cases h : p = q
  · subst h; simp [setThread]
  · simp [setThread, h]

theorem act_sched (t : State n) (c : Fin (n + 1)) (q p : Slot) (r : Resume) :
    ((t.sched c q r).thread p).act = (t.thread p).act := by
  by_cases h : p = q
  · subst h; simp [sched]
  · simp [sched, h]

private theorem act_set {P : Act → Prop} {t : State n} {q p : Slot} {th : Thread}
    (ht : t.thread = s.thread) (hs : P (s.thread p).act) (h : p = q → P th.act) :
    P ((t.setThread q th).thread p).act := by
  rw [act_setThread, ht]
  split
  · next hp => exact h hp
  · exact hs

private theorem act_waitStep {P : Act → Prop} {t : State n} (ht : t.thread = s.thread)
    (c : Fin (n + 1)) {q p : Slot} (hs : P (s.thread p).act) (h : p = q → P .user) :
    P ((t.waitStep c q).thread p).act := by
  unfold State.waitStep
  cases waitScan t.ptable q with
  | reaped r pid => exact act_set ht hs h
  | failed => exact act_set ht hs h
  | sleeps => rwa [act_sched, ht]

/-- **Inversion for the thread of one process.** -/
theorem ActStep.of_step (h : step s e = some s') (p : Slot) :
    ActStep s p e (s'.thread p).act := by
  cases Step.of_step h with
  | resumeSp c q | allocFail c q | kallocFail c q | copyFail c q | forkRunnable c q
  | killFail c q | kill c q | spFail c q | sp c q | getpriority c q | timerExit c q | fault c q =>
    exact act_set rfl (.same _) fun _ => .plain _ _ rfl
  | resumeWait c q hm hl hr =>
    exact act_waitStep (t := s.setProc q _) rfl c (.same _) fun _ => .plain _ _ rfl
  | wait c q hw ha hl => exact act_waitStep rfl c (.same _) fun _ => .plain _ _ rfl
  | alloc c q np second hw ha hl hn =>
    exact act_set rfl (.same _) fun hp => .claim c second np (hp ▸ hw) hn
  | kallocOk c q np hw ha =>
    rw [act_setThread]
    split
    · exact .plain _ _ rfl
    · exact act_set rfl (.same _) fun hp => .kalloc c np (hp ▸ hw) (hp ▸ ha)
  | copyOk c q np hw ha =>
    exact act_set rfl (.same _) fun hp => .copyuvm c np (hp ▸ hw) (hp ▸ ha)
  | exit c q hw ha hp hl => rw [act_sched]; exact .same _
  | sleep c q chan hw ha hl hc => rw [act_sched]; exact .same _
  | timerYield c q hm hi hl => rw [act_sched]; exact .same _
  | spYield c q hw ha hl =>
    rw [act_sched]
    exact act_set rfl (.same _) fun _ => .plain _ _ rfl
  | _ => exact .same _

/-- **Who changes the point that a process has reached.** -/
theorem ActCause.of_step (h : step s e = some s') (p : Slot) :
    ActCause s e p (s'.thread p).act := by
  cases Step.of_step h with
  | resumeSp c q hm hl hr ha =>
    exact act_set rfl .same fun hp => .resume c (hp ▸ hm) hl (.inl (hp ▸ ha))
  | resumeWait c q hm hl hr =>
    exact act_waitStep (t := s.setProc q _) rfl c .same fun hp =>
      .resume c (hp ▸ hm) hl (.inr (hp ▸ hr))
  | wait c q hw ha => exact act_waitStep rfl c .same fun hp => .call (hp ▸ ha)
  | allocFail c q _ hw ha | alloc c q _ _ hw ha | killFail c q _ hw ha | kill c q _ _ hw ha
  | spFail c q _ hw ha | sp c q _ _ hw ha | getpriority c q hw ha | timerExit c q _ _ _ ha
  | fault c q hw ha => exact act_set rfl .same fun hp => .call (hp ▸ ha)
  | kallocFail c q np hw ha | copyOk c q np hw ha | copyFail c q np hw ha
  | forkRunnable c q np hw ha =>
    exact act_set rfl .same fun hp => .fork trivial (by rw [hp, ha]; exact nofun)
  | kallocOk c q np hw ha =>
    rw [act_setThread]
    split
    · next hp => exact .child q trivial (by rw [ha, hp]; rfl)
    · exact act_set rfl .same fun hp => .fork trivial (by rw [hp, ha]; exact nofun)
  | exit | sleep | timerYield => rw [act_sched]; exact .same
  | spYield c q hw ha =>
    rw [act_sched]
    exact act_set rfl .same fun hp => .yield (hp ▸ ha)
  | _ => exact .same

end Inversion

end Proc

end Xv6
