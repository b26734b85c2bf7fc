import Xv6.Sleep.Machine

/-!
# No lost wakeup

A sleeper that has found the condition false and has let go of `lk` is doomed to sleep until
somebody wakes it. The invariant says that the condition is then still false, or that some waker has
made it true since and has not come past the sleeper's slot in `wakeup1`. It survives because of the
order in which `sleep` takes and releases locks: between the release of `lk` and the moment at which
the process is `SLEEPING` with its channel set, `ptable.lock` is held, and no waker is in its loop.

## Main definitions

* `Holds` — the locks that a thread holds, by the point it has reached
* `Doomed` — a sleeper that has to be woken
* `Inv` — the invariant
* `Lost` — a sleeper sleeps, the condition is true, and nobody is about to wake it

## Main results

* `Inv.visit` — one round of the loop of `wakeup1`
* `Inv.of_reach`
* `no_lost_wakeup`
-/

namespace Xv6

namespace Sleep

open Proc Transition

/-! ### Who holds which lock -/

section Invariant

variable {L κ σ : Type*} [DecidableEq L] [DecidableEq κ]
variable (pt lk : L)

/-- The locks that a sleeper holds. -/
def SleeperPc.Holds : SleeperPc → L → Prop
  | .testing, l | .ready, l | .leaving, l | .entered, l => l = lk
  | .locked, l => l = lk ∨ l = pt
  | .setChan, l | .setState, l | .callSched, l | .resumed, l | .tidied, l => l = pt
  | .out, _ | .asleep, _ | .reacquire, _ => False

/-- The locks that a waker holds. -/
def WakerPc.Holds : WakerPc → L → Prop
  | .update, l | .unlock, l | .leaving, l => l = lk
  | .call m, l => m = .early ∧ l = lk
  | .scan m _, l | .finish m, l => l = pt ∨ m = .early ∧ l = lk
  | .out, _ => False

/-- The locks that a thread holds, by the point it has reached. -/
def Holds (s : State L κ σ) : Tid κ → L → Prop
  | .sleeper p, l => (s.sleeper p).Holds pt lk l
  | .waker k, l => (s.waker k).Holds pt lk l
  | .sched, l => s.locks l = some .sched

/-- The mode of a waker fits its lock. -/
def WakerPc.Sound : WakerPc → Prop
  | .call m => m ≠ .inside
  | .scan m _ => (m = .inside → lk = pt) ∧ (m = .early → lk ≠ pt)
  | .finish m => m ≠ .inside ∧ (m = .early → lk ≠ pt)
  | _ => True

/-- The waker has made the condition true, and its call of `wakeup` has not ended. -/
def WakerPc.Pending : WakerPc → Prop
  | .unlock | .call _ | .scan _ _ | .finish _ => True
  | _ => False

/-- The waker has made the condition true, and it will still visit slot `p`. -/
def WakerPc.Ahead (p : Slot) : WakerPc → Prop
  | .unlock | .call _ => True
  | .scan _ i => i ≤ p.val
  | _ => False

theorem WakerPc.Ahead.pending {pc : WakerPc} {p : Slot} (h : pc.Ahead p) : pc.Pending := by
  cases pc <;> trivial

variable (chan : Chan) (cond : σ → Bool)

/-- A sleeper at `pc` with table entry `q` has found the condition false, no longer holds `lk`, and
will sleep until somebody wakes it. -/
def Doomed (pc : SleeperPc) (q : Proc) : Prop :=
  pc = .setChan ∨ pc = .setState ∨ pc = .callSched ∨ pc = .asleep ∧ q.state = .sleeping

/-- What holds of the sleeper in slot `p`, at `pc` with table entry `q`, while the wakers are at `w`
and the data are `d`. -/
structure Local (w : κ → WakerPc) (d : σ) (p : Slot) (pc : SleeperPc) (q : Proc) : Prop where
  locked : pc = .locked → lk ≠ pt
  sleeping : q.state = .sleeping → pc = .callSched ∨ pc = .asleep
  chan : pc = .setState ∨ pc = .callSched ∨ pc = .asleep → q.chan = some chan
  tested : pc = .entered ∨ pc = .locked → cond d = false
  ready : pc = .ready → cond d = true
  doomed : Doomed pc q → cond d = false ∨ ∃ k, (w k).Ahead p

/-- The invariant. -/
structure Inv (s : State L κ σ) : Prop where
  own : ∀ t l, Holds pt lk s t l ↔ s.locks l = some t
  sound : ∀ k, (s.waker k).Sound pt lk
  each : ∀ p, Local pt lk chan cond s.waker s.data p (s.sleeper p) (s.table p)

/-! ### One step -/

section Step

variable {pt lk : L} {chan : Chan} {cond : σ → Bool} {s s' : State L κ σ}

theorem State.acquire_eq_some {t : Tid κ} {l : L} {next : State L κ σ → State L κ σ} :
    s.acquire t l next = some s' ↔
      s.locks l = none ∧ s' = next { s with locks := Function.update s.locks l (some t) } ∨
        s.locks l = some t ∧ s' = { s with panicked := true } := by
  unfold State.acquire
  split
  · next h => simp [h, eq_comm]
  · next t' h =>
    by_cases ht : t' = t
    · simp [h, ht, eq_comm]
    · simp [h, ht]

omit [DecidableEq L] [DecidableEq κ] in
/-- A panic changes nothing else. -/
theorem Inv.panic (hs : Inv pt lk chan cond s) : Inv pt lk chan cond { s with panicked := true } :=
  ⟨hs.own, hs.sound, hs.each⟩

omit [DecidableEq κ] in
/-- An update of one lock does not concern the threads that neither held it nor hold it now. -/
theorem locks_update_iff {locks : L → Option (Tid κ)} {l : L} {v : Option (Tid κ)} {t : Tid κ}
    (hold : locks l ≠ some t) (hnew : v ≠ some t) (l' : L) :
    Function.update locks l v l' = some t ↔ locks l' = some t := by
  by_cases h : l' = l
  · subst h
    simp [hold, hnew]
  · rw [Function.update_of_ne h]

omit [DecidableEq L] [DecidableEq κ] in
/-- A step of a scheduler on a lock. -/
theorem Inv.moveSched (hs : Inv pt lk chan cond s) {locks : L → Option (Tid κ)}
    (hlocks : ∀ t, t ≠ .sched → ∀ l, locks l = some t ↔ s.locks l = some t) :
    Inv pt lk chan cond { s with locks := locks } := by
  refine ⟨fun t l => ?_, hs.sound, hs.each⟩
  cases t with
  | sched => exact Iff.rfl
  | sleeper p => exact (hs.own (.sleeper p) l).trans (hlocks (.sleeper p) nofun l).symm
  | waker k => exact (hs.own (.waker k) l).trans (hlocks (.waker k) nofun l).symm

omit [DecidableEq L] [DecidableEq κ] in
/-- A step that concerns one sleeper only. -/
theorem Inv.moveSleeper (hs : Inv pt lk chan cond s) {p : Slot} {pc : SleeperPc} {q : Proc}
    {locks : L → Option (Tid κ)}
    (hlocks : ∀ t, t ≠ .sleeper p → t ≠ .sched → ∀ l, locks l = some t ↔ s.locks l = some t)
    (hhold : ∀ l, pc.Holds pt lk l ↔ locks l = some (.sleeper p))
    (hp : Local pt lk chan cond s.waker s.data p pc q) :
    Inv pt lk chan cond (({ s with locks := locks }.setProc p q).goSleeper p pc) := by
  refine ⟨fun t l => ?_, hs.sound, fun r => ?_⟩
  · cases t with
    | sleeper r =>
      change (Function.update s.sleeper p pc r).Holds pt lk l ↔ locks l = some (.sleeper r)
      by_cases hr : r = p
      · subst hr; rw [Function.update_self]; exact hhold l
      · rw [Function.update_of_ne hr, hlocks (.sleeper r) (by simpa using hr) nofun, ← hs.own]
        exact Iff.rfl
    | waker k =>
      change (s.waker k).Holds pt lk l ↔ locks l = some (.waker k)
      rw [hlocks (.waker k) nofun nofun, ← hs.own]
      exact Iff.rfl
    | sched => exact Iff.rfl
  · change Local pt lk chan cond s.waker s.data r (Function.update s.sleeper p pc r)
      (s.table.set p q r)
    by_cases hr : r = p
    · subst hr; rw [Function.update_self, PTable.set_self]; exact hp
    · rw [Function.update_of_ne hr, PTable.set_of_ne _ _ hr]; exact hs.each r

omit [DecidableEq L] in
/-- A step that concerns one waker only, and that takes it past no slot. -/
theorem Inv.moveWaker (hs : Inv pt lk chan cond s) {k : κ} {pc : WakerPc}
    {locks : L → Option (Tid κ)}
    (hlocks : ∀ t, t ≠ .waker k → t ≠ .sched → ∀ l, locks l = some t ↔ s.locks l = some t)
    (hhold : ∀ l, pc.Holds pt lk l ↔ locks l = some (.waker k)) (hsound : pc.Sound pt lk)
    (hahead : ∀ p, (s.waker k).Ahead p → pc.Ahead p) :
    Inv pt lk chan cond ({ s with locks := locks }.goWaker k pc) := by
  refine ⟨fun t l => ?_, fun j => ?_, fun p => ?_⟩
  · cases t with
    | sleeper r =>
      change (s.sleeper r).Holds pt lk l ↔ locks l = some (.sleeper r)
      rw [hlocks (.sleeper r) nofun nofun, ← hs.own]
      exact Iff.rfl
    | waker j =>
      change (Function.update s.waker k pc j).Holds pt lk l ↔ locks l = some (.waker j)
      by_cases hj : j = k
      · subst hj; rw [Function.update_self]; exact hhold l
      · rw [Function.update_of_ne hj, hlocks (.waker j) (by simpa using hj) nofun, ← hs.own]
        exact Iff.rfl
    | sched => exact Iff.rfl
  · change (Function.update s.waker k pc j).Sound pt lk
    by_cases hj : j = k
    · subst hj; rw [Function.update_self]; exact hsound
    · rw [Function.update_of_ne hj]; exact hs.sound j
  · have h := hs.each p
    refine ⟨h.locked, h.sleeping, h.chan, h.tested, h.ready, fun hd => ?_⟩
    refine (h.doomed hd).imp_right ?_
    rintro ⟨j, hj⟩
    refine ⟨j, ?_⟩
    change (Function.update s.waker k pc j).Ahead p
    by_cases hjk : j = k
    · subst hjk; rw [Function.update_self]; exact hahead p hj
    · rw [Function.update_of_ne hjk]; exact hj

omit [DecidableEq κ] in
theorem update_some_iff {locks : L → Option (Tid κ)} {l : L} {t : Tid κ} (l' : L) :
    Function.update locks l (some t) l' = some t ↔ l' = l ∨ locks l' = some t := by
  by_cases h : l' = l
  · subst h; simp
  · simp [h]

omit [DecidableEq κ] in
theorem update_none_iff {locks : L → Option (Tid κ)} {l : L} {t : Tid κ} (l' : L) :
    Function.update locks l none l' = some t ↔ l' ≠ l ∧ locks l' = some t := by
  by_cases h : l' = l
  · subst h; simp
  · simp [h]

section Sleeper

variable (hs : Inv pt lk chan cond s) {p : Slot} {pc : SleeperPc}
include hs

omit [DecidableEq L] [DecidableEq κ] in
theorem Inv.sleeperGo {q : Proc} (hhold : ∀ l, pc.Holds pt lk l ↔ (s.sleeper p).Holds pt lk l)
    (hp : Local pt lk chan cond s.waker s.data p pc q) :
    Inv pt lk chan cond ((s.setProc p q).goSleeper p pc) := by
  have hlocks : ∀ t, t ≠ .sleeper p → t ≠ .sched → ∀ l, s.locks l = some t ↔ s.locks l = some t :=
    fun _ _ _ _ => Iff.rfl
  exact hs.moveSleeper hlocks (fun l => (hhold l).trans (hs.own (.sleeper p) l)) hp

omit [DecidableEq L] [DecidableEq κ] in
theorem Inv.sleeperLock {locks : L → Option (Tid κ)}
    (hlocks : ∀ t, t ≠ .sleeper p → t ≠ .sched → ∀ l, locks l = some t ↔ s.locks l = some t)
    (hhold : ∀ l, pc.Holds pt lk l ↔ locks l = some (.sleeper p))
    (hp : Local pt lk chan cond s.waker s.data p pc (s.table p)) :
    Inv pt lk chan cond ({ s with locks := locks }.goSleeper p pc) := by
  have h := hs.moveSleeper hlocks hhold hp
  rwa [show ({ s with locks := locks } : State L κ σ).setProc p (s.table p) =
    { s with locks := locks }
    by simp [State.setProc, PTable.set]] at h

omit [DecidableEq κ] in
theorem Inv.sleeperAcquire {l : L} (hl : s.locks l = none)
    (hhold : ∀ l', pc.Holds pt lk l' ↔ l' = l ∨ (s.sleeper p).Holds pt lk l')
    (hp : Local pt lk chan cond s.waker s.data p pc (s.table p)) :
    Inv pt lk chan cond
      ({ s with locks := Function.update s.locks l (some (.sleeper p)) }.goSleeper p pc) := by
  refine hs.sleeperLock (fun t ht _ => locks_update_iff (by rw [hl]; nofun) ?_) (fun l' => ?_) hp
  · exact fun h => ht (Option.some.inj h).symm
  · rw [hhold, update_some_iff, ← hs.own]
    exact Iff.rfl

theorem Inv.sleeperRelease {l : L} (hl : (s.sleeper p).Holds pt lk l)
    (hhold : ∀ l', pc.Holds pt lk l' ↔ l' ≠ l ∧ (s.sleeper p).Holds pt lk l')
    (hp : Local pt lk chan cond s.waker s.data p pc (s.table p)) :
    Inv pt lk chan cond (s.release (.sleeper p) l (·.goSleeper p pc)) := by
  have hl : s.locks l = some (.sleeper p) := (hs.own (.sleeper p) l).mp hl
  rw [State.release, if_pos hl]
  refine hs.sleeperLock (fun t ht _ => locks_update_iff ?_ nofun) (fun l' => ?_) hp
  · rw [hl]
    exact fun h => ht (Option.some.inj h).symm
  · rw [hhold, update_none_iff, ← hs.own]
    exact Iff.rfl

omit [DecidableEq L] [DecidableEq κ] in
/-- A process that is neither going to sleep nor asleep is not `SLEEPING`. -/
theorem Inv.awake (h₁ : s.sleeper p ≠ .callSched) (h₂ : s.sleeper p ≠ .asleep) :
    (s.table p).state ≠ .sleeping :=
  fun h => ((hs.each p).sleeping h).elim h₁ h₂

end Sleeper

/-- The points at which nothing is claimed about a sleeper except that it is awake. -/
def SleeperPc.Quiet : SleeperPc → Prop
  | .out | .testing | .leaving | .resumed | .tidied | .reacquire => True
  | _ => False

omit [DecidableEq L] [DecidableEq κ] in
theorem Local.of_quiet {w : κ → WakerPc} {d : σ} {p : Slot} {pc : SleeperPc} {q : Proc}
    (hpc : pc.Quiet) (hq : q.state ≠ .sleeping) : Local pt lk chan cond w d p pc q := by
  refine ⟨?_, fun h => absurd h hq, ?_, ?_, ?_, ?_⟩ <;> cases pc <;>
    simp [SleeperPc.Quiet, Doomed] at hpc ⊢

/-- The operations of a sleeper. -/
theorem Inv.sleeperStep (hs : Inv pt lk chan cond s) {p : Slot}
    (h : sleeperStep pt lk chan cond s p = some s') : Inv pt lk chan cond s' := by
  have hp := hs.each p
  have hgo : ∀ {pc}, s.goSleeper p pc = (s.setProc p (s.table p)).goSleeper p pc := by
    intro pc
    simp [State.setProc, State.goSleeper, PTable.set]
  unfold Sleep.sleeperStep at h
  split at h
  · -- `acquire(lk)`
    next hpc =>
    rcases State.acquire_eq_some.mp h with ⟨hl, rfl⟩ | ⟨-, rfl⟩
    · exact hs.sleeperAcquire hl (by simp [SleeperPc.Holds, hpc])
        (.of_quiet trivial (hs.awake (by simp [hpc]) (by simp [hpc])))
    · exact hs.panic
  · -- the test of the condition
    next hpc =>
    cases h
    have hawake := hs.awake (p := p) (by simp [hpc]) (by simp [hpc])
    rw [hgo]
    by_cases hc : cond s.data = true
    · rw [if_pos hc]
      refine hs.sleeperGo (by simp [SleeperPc.Holds, hpc]) ?_
      exact ⟨nofun, fun h => absurd h hawake, nofun, nofun, fun _ => hc, nofun⟩
    · rw [if_neg hc]
      refine hs.sleeperGo (by simp [SleeperPc.Holds, hpc]) ?_
      exact ⟨nofun, fun h => absurd h hawake, nofun, fun _ => by simpa using hc, nofun, nofun⟩
  · cases h
  · -- `release(lk)`
    next hpc =>
    cases h
    exact hs.sleeperRelease (by simp [SleeperPc.Holds, hpc]) (by simp [SleeperPc.Holds, hpc])
      (.of_quiet trivial (hs.awake (by simp [hpc]) (by simp [hpc])))
  · -- `acquire(&ptable.lock)`, if `lk` is another lock
    next hpc =>
    have hawake := hs.awake (p := p) (by simp [hpc]) (by simp [hpc])
    have hfalse : cond s.data = false := hp.tested (Or.inl hpc)
    split at h
    · next hne =>
      rcases State.acquire_eq_some.mp h with ⟨hl, rfl⟩ | ⟨-, rfl⟩
      · refine hs.sleeperAcquire hl (by simp [SleeperPc.Holds, hpc, or_comm]) ?_
        exact ⟨fun _ => hne, fun h => absurd h hawake, nofun, fun _ => hfalse, nofun, nofun⟩
      · exact hs.panic
    · next heq =>
      cases h
      rw [hgo]
      refine hs.sleeperGo (by simp [SleeperPc.Holds, hpc, not_not.mp heq]) ?_
      exact ⟨nofun, fun h => absurd h hawake, nofun, nofun, nofun, fun _ => Or.inl hfalse⟩
  · -- `release(lk)`
    next hpc =>
    cases h
    have hne := hp.locked hpc
    refine hs.sleeperRelease (by simp [SleeperPc.Holds, hpc]) (fun l => ?_) ?_
    · simp only [SleeperPc.Holds, hpc]
      exact ⟨fun h => ⟨h ▸ hne.symm, Or.inr h⟩, fun h => h.2.resolve_left h.1⟩
    · exact ⟨nofun, fun h => absurd h (hs.awake (by simp [hpc]) (by simp [hpc])), nofun, nofun,
        nofun, fun _ => Or.inl (hp.tested (Or.inr hpc))⟩
  · -- `p->chan = chan`
    next hpc =>
    cases h
    refine hs.sleeperGo (by simp [SleeperPc.Holds, hpc]) ?_
    exact ⟨nofun, fun h => absurd h (hs.awake (by simp [hpc]) (by simp [hpc])), fun _ => rfl, nofun,
      nofun, fun _ => hp.doomed (Or.inl hpc)⟩
  · -- `p->state = SLEEPING`
    next hpc =>
    cases h
    refine hs.sleeperGo (by simp [SleeperPc.Holds, hpc]) ?_
    exact ⟨nofun, fun _ => Or.inl rfl, fun _ => hp.chan (Or.inl hpc), nofun, nofun,
      fun _ => hp.doomed (Or.inr (Or.inl hpc))⟩
  · -- `sched()`
    next hpc =>
    cases h
    have hl : s.locks pt = some (.sleeper p) :=
      (hs.own (.sleeper p) pt).mp (by simp [Holds, SleeperPc.Holds, hpc])
    refine hs.sleeperLock (fun t ht ht' => locks_update_iff ?_ ?_) (fun l => ?_) ?_
    · rw [hl]; exact fun h => ht (Option.some.inj h).symm
    · exact fun h => ht' (Option.some.inj h).symm
    · simp only [SleeperPc.Holds, false_iff]
      by_cases hl' : l = pt
      · subst hl'; simp
      · rw [Function.update_of_ne hl', ← hs.own]
        simp [Holds, SleeperPc.Holds, hpc, hl']
    · exact ⟨nofun, fun _ => Or.inr rfl, fun _ => hp.chan (Or.inr (Or.inl hpc)), nofun, nofun,
        fun _ => hp.doomed (Or.inr (Or.inr (Or.inl hpc)))⟩
  · cases h
  · -- `p->chan = 0`
    next hpc =>
    cases h
    exact hs.sleeperGo (by simp [SleeperPc.Holds, hpc])
      (.of_quiet trivial (hs.awake (by simp [hpc]) (by simp [hpc])))
  · -- `release(&ptable.lock)`, if `lk` is another lock
    next hpc =>
    have hawake := hs.awake (p := p) (by simp [hpc]) (by simp [hpc])
    split at h
    · cases h
      exact hs.sleeperRelease (by simp [SleeperPc.Holds, hpc]) (by simp [SleeperPc.Holds, hpc])
        (.of_quiet trivial hawake)
    · next heq =>
      cases h
      rw [hgo]
      exact hs.sleeperGo (by simp [SleeperPc.Holds, hpc, not_not.mp heq])
        (.of_quiet trivial hawake)
  · -- `acquire(lk)`
    next hpc =>
    rcases State.acquire_eq_some.mp h with ⟨hl, rfl⟩ | ⟨-, rfl⟩
    · exact hs.sleeperAcquire hl (by simp [SleeperPc.Holds, hpc])
        (.of_quiet trivial (hs.awake (by simp [hpc]) (by simp [hpc])))
    · exact hs.panic

section Waker

variable (hs : Inv pt lk chan cond s) {k : κ} {pc : WakerPc}
include hs

omit [DecidableEq L] in
theorem Inv.wakerGo (hhold : ∀ l, pc.Holds pt lk l ↔ (s.waker k).Holds pt lk l)
    (hsound : pc.Sound pt lk) (hahead : ∀ p, (s.waker k).Ahead p → pc.Ahead p) :
    Inv pt lk chan cond (s.goWaker k pc) := by
  have hlocks : ∀ t, t ≠ .waker k → t ≠ .sched → ∀ l, s.locks l = some t ↔ s.locks l = some t :=
    fun _ _ _ _ => Iff.rfl
  exact hs.moveWaker hlocks (fun l => (hhold l).trans (hs.own (.waker k) l)) hsound hahead

theorem Inv.wakerAcquire {l : L} (hl : s.locks l = none)
    (hhold : ∀ l', pc.Holds pt lk l' ↔ l' = l ∨ (s.waker k).Holds pt lk l')
    (hsound : pc.Sound pt lk) (hahead : ∀ p, (s.waker k).Ahead p → pc.Ahead p) :
    Inv pt lk chan cond
      ({ s with locks := Function.update s.locks l (some (.waker k)) }.goWaker k pc) := by
  refine hs.moveWaker (fun t ht _ => locks_update_iff (by rw [hl]; nofun) ?_) (fun l' => ?_) hsound
    hahead
  · exact fun h => ht (Option.some.inj h).symm
  · rw [hhold, update_some_iff, ← hs.own]
    exact Iff.rfl

theorem Inv.wakerRelease {l : L} (hl : (s.waker k).Holds pt lk l)
    (hhold : ∀ l', pc.Holds pt lk l' ↔ l' ≠ l ∧ (s.waker k).Holds pt lk l')
    (hsound : pc.Sound pt lk) (hahead : ∀ p, (s.waker k).Ahead p → pc.Ahead p) :
    Inv pt lk chan cond (s.release (.waker k) l (·.goWaker k pc)) := by
  have hl : s.locks l = some (.waker k) := (hs.own (.waker k) l).mp hl
  rw [State.release, if_pos hl]
  refine hs.moveWaker (fun t ht _ => locks_update_iff ?_ nofun) (fun l' => ?_) hsound hahead
  · rw [hl]
    exact fun h => ht (Option.some.inj h).symm
  · rw [hhold, update_none_iff, ← hs.own]
    exact Iff.rfl

omit [DecidableEq L] [DecidableEq κ] in
/-- Two threads do not hold one lock. -/
theorem Inv.unique {t t' : Tid κ} {l : L} (h : Holds pt lk s t l) (h' : Holds pt lk s t' l) :
    t = t' :=
  Option.some.inj (((hs.own t l).mp h).symm.trans ((hs.own t' l).mp h'))

end Waker

omit [DecidableEq L] in
/-- **A visit of the loop of `wakeup1`.** A sleeper in the slot is woken, and the waker is no longer
ahead of it. -/
theorem Inv.visit (hs : Inv pt lk chan cond s) {k : κ} {m : Mode} {i : ℕ} (hi : i < NPROC)
    (hpc : s.waker k = .scan m i) :
    Inv pt lk chan cond
      ({ s with table := wakeupVisit chan s.table ⟨i, hi⟩ }.goWaker k (.scan m (i + 1))) := by
  have hgo : Inv pt lk chan cond (s.goWaker k (.scan m i)) := by
    have : s.goWaker k (.scan m i) = s := by simp [State.goWaker, ← hpc]
    rwa [this]
  refine ⟨fun t l => ?_, fun j => ?_, fun p => ?_⟩
  · have := hgo.own t l
    cases t with
    | waker j =>
      by_cases hj : j = k
      · subst hj; simpa [Holds, State.goWaker, WakerPc.Holds] using this
      · simpa [Holds, State.goWaker, hj] using this
    | _ => exact this
  · by_cases hj : j = k
    · subst hj; simpa [State.goWaker, WakerPc.Sound, hpc] using hs.sound j
    · simpa [State.goWaker, hj] using hs.sound j
  · have h := hs.each p
    change Local pt lk chan cond (Function.update s.waker k (.scan m (i + 1))) s.data
      p (s.sleeper p)
      (wakeupVisit chan s.table ⟨i, hi⟩ p)
    -- the waker holds the lock, so nobody is in the middle of going to sleep
    have hwk : Holds pt lk s (.waker k) pt := by simp [Holds, WakerPc.Holds, hpc]
    have hnot : ¬ (s.sleeper p).Holds pt lk pt := by
      intro hp
      have := hs.unique (t := .sleeper p) hp hwk
      cases this
    by_cases hpi : p = ⟨i, hi⟩
    · subst hpi
      have hvisit : wakeupVisit chan s.table ⟨i, hi⟩ ⟨i, hi⟩ =
          if (s.table ⟨i, hi⟩).state = .sleeping ∧ (s.table ⟨i, hi⟩).chan = some chan then
            { s.table ⟨i, hi⟩ with state := .runnable } else s.table ⟨i, hi⟩ := by
        unfold wakeupVisit
        split <;> simp
      have hawake : (wakeupVisit chan s.table ⟨i, hi⟩ ⟨i, hi⟩).state ≠ .sleeping := by
        rw [hvisit]
        split
        · nofun
        · next hno =>
          intro hsl
          refine hno ⟨hsl, h.chan ?_⟩
          exact Or.inr (h.sleeping hsl)
      refine ⟨h.locked, fun hsl => absurd hsl hawake, fun hpc' => ?_, h.tested, h.ready, ?_⟩
      · rw [hvisit]
        split
        · exact h.chan hpc'
        · exact h.chan hpc'
      · rintro (hd | hd | hd | ⟨-, hd⟩)
        · exact absurd (by simp [SleeperPc.Holds, hd]) hnot
        · exact absurd (by simp [SleeperPc.Holds, hd]) hnot
        · exact absurd (by simp [SleeperPc.Holds, hd]) hnot
        · exact absurd hd hawake
    · have hsame : wakeupVisit chan s.table ⟨i, hi⟩ p = s.table p := by
        unfold wakeupVisit
        split
        · exact PTable.set_of_ne _ _ hpi
        · rfl
      rw [hsame]
      refine ⟨h.locked, h.sleeping, h.chan, h.tested, h.ready, fun hd => ?_⟩
      refine (h.doomed hd).imp_right ?_
      rintro ⟨j, hj⟩
      refine ⟨j, ?_⟩
      by_cases hjk : j = k
      · subst hjk
        rw [hpc] at hj
        rw [Function.update_self]
        have hle : i ≤ p.val := hj
        have hne : p.val ≠ i := fun h => hpi (Fin.ext h)
        change i + 1 ≤ p.val
        omega
      · rw [Function.update_of_ne hjk]; exact hj

/-- The operations of a waker. -/
theorem Inv.wakerStep (hs : Inv pt lk chan cond s) {k : κ}
    (h : wakerStep pt lk chan s k = some s') : Inv pt lk chan cond s' := by
  have hsound := hs.sound k
  unfold Sleep.wakerStep at h
  split at h
  · -- `acquire(lk)`
    next hpc =>
    rcases State.acquire_eq_some.mp h with ⟨hl, rfl⟩ | ⟨-, rfl⟩
    · exact hs.wakerAcquire hl (by simp [WakerPc.Holds, hpc]) trivial (by simp [WakerPc.Ahead, hpc])
    · exact hs.panic
  · cases h
  · -- `release(lk)`, before `wakeup`
    next hpc =>
    cases h
    exact hs.wakerRelease (by simp [WakerPc.Holds, hpc]) (by simp [WakerPc.Holds, hpc]) nofun
      (fun _ _ => trivial)
  · -- `acquire(&ptable.lock)` in `wakeup`
    next m hpc =>
    rcases State.acquire_eq_some.mp h with ⟨hl, rfl⟩ | ⟨-, rfl⟩
    · refine hs.wakerAcquire hl (by simp [WakerPc.Holds, hpc]) ?_ (fun p _ => Nat.zero_le _)
      rw [hpc] at hsound
      refine ⟨fun hm => absurd hm hsound, fun hm heq => ?_⟩
      -- the caller holds `lk`, and `ptable.lock` was free
      have : s.locks lk = some (.waker k) :=
        (hs.own (.waker k) lk).mp (by simp [Holds, WakerPc.Holds, hpc, hm])
      rw [heq, hl] at this
      cases this
    · exact hs.panic
  · -- the loop of `wakeup1`
    next m i hpc =>
    rw [hpc] at hsound
    split at h
    · next hi =>
      cases h
      exact hs.visit hi hpc
    · next hi =>
      have hahead : ∀ {p : Slot}, ¬ (s.waker k).Ahead p := by
        intro p hp
        rw [hpc] at hp
        exact hi (lt_of_le_of_lt hp p.isLt)
      split at h
      · next hm =>
        cases h
        subst hm
        exact hs.wakerGo (by simp [WakerPc.Holds, hpc, hsound.1 rfl]) trivial
          (fun p hp => absurd hp hahead)
      · next hm =>
        cases h
        exact hs.wakerGo (by simp [WakerPc.Holds, hpc]) ⟨hm, hsound.2⟩
          (fun p hp => absurd hp hahead)
  · -- `release(&ptable.lock)` in `wakeup`
    next m hpc =>
    cases h
    rw [hpc] at hsound
    refine hs.wakerRelease (by simp [WakerPc.Holds, hpc]) (fun l => ?_) ?_
      (by simp [WakerPc.Ahead, hpc])
    · by_cases hm : m = .early
      · have hne := hsound.2 hm
        simp only [WakerPc.Holds, hpc, hm, if_true, true_and]
        exact ⟨fun h => ⟨h ▸ hne, Or.inr h⟩, fun h => h.2.resolve_left h.1⟩
      · simp [WakerPc.Holds, hpc, hm]
    · by_cases hm : m = .early <;> simp [hm, WakerPc.Sound]
  · -- `release(lk)`, after `wakeup`
    next hpc =>
    cases h
    exact hs.wakerRelease (by simp [WakerPc.Holds, hpc]) (by simp [WakerPc.Holds, hpc]) trivial
      (by simp [WakerPc.Ahead, hpc])

omit [DecidableEq L] [DecidableEq κ] in
/-- What holds of a sleeper that does not hold `lk` depends on the data only if it is doomed. -/
theorem Local.setData {w w' : κ → WakerPc} {d d' : σ} {p : Slot} {pc : SleeperPc} {q : Proc}
    (h : Local pt lk chan cond w d p pc q) (hpc : ¬ pc.Holds pt lk lk)
    (hd : Doomed pc q → cond d' = false ∨ ∃ k, (w' k).Ahead p) :
    Local pt lk chan cond w' d' p pc q := by
  refine ⟨h.locked, h.sleeping, h.chan, ?_, ?_, hd⟩
  · rintro (rfl | rfl)
    · exact absurd rfl hpc
    · exact absurd (Or.inl rfl) hpc
  · rintro rfl
    exact absurd rfl hpc

omit [DecidableEq L] [DecidableEq κ] in
/-- A sleeper that has found the condition true changes the data. -/
theorem Inv.consume (hs : Inv pt lk chan cond s) {p : Slot} (hpc : s.sleeper p = .ready) (d : σ) :
    Inv pt lk chan cond ({ s with data := d }.goSleeper p .leaving) := by
  have htrue : cond s.data = true := (hs.each p).ready hpc
  have hgo : Inv pt lk chan cond ((s.setProc p (s.table p)).goSleeper p .leaving) :=
    hs.sleeperGo (by simp [SleeperPc.Holds, hpc])
      (.of_quiet trivial (hs.awake (by simp [hpc]) (by simp [hpc])))
  refine ⟨hgo.own, hgo.sound, fun r => ?_⟩
  change Local pt lk chan cond s.waker d r (Function.update s.sleeper p .leaving r) (s.table r)
  by_cases hr : r = p
  · subst hr
    rw [Function.update_self]
    exact .of_quiet trivial (hs.awake (by simp [hpc]) (by simp [hpc]))
  · rw [Function.update_of_ne hr]
    refine (hs.each r).setData (fun hl => hr ?_) fun hd => ?_
    · have : Tid.sleeper r = Tid.sleeper p :=
        hs.unique hl (by simp [Holds, SleeperPc.Holds, hpc])
      exact Tid.sleeper.inj this
    · -- the condition was true, so some waker was ahead already
      refine Or.inr (((hs.each r).doomed hd).resolve_left ?_)
      rw [htrue]
      nofun

omit [DecidableEq L] in
/-- A waker makes the condition true. -/
theorem Inv.update (hs : Inv pt lk chan cond s) {k : κ} (hpc : s.waker k = .update) {m : Mode}
    (hm : m = .inside → lk = pt) (d : σ) :
    Inv pt lk chan cond ({ s with data := d }.goWaker k (afterUpdate m)) := by
  have hahead : ∀ p, (afterUpdate m).Ahead p := by
    intro p
    cases m with
    | early => trivial
    | late => trivial
    | inside => exact Nat.zero_le _
  have hhold : ∀ l, (afterUpdate m).Holds pt lk l ↔ (s.waker k).Holds pt lk l := by
    intro l
    cases m with
    | early => simp [afterUpdate, WakerPc.Holds, hpc]
    | late => simp [afterUpdate, WakerPc.Holds, hpc]
    | inside => simp [afterUpdate, WakerPc.Holds, hpc, hm rfl]
  have hsound : (afterUpdate m).Sound pt lk := by
    cases m with
    | early => exact nofun
    | late => trivial
    | inside => exact ⟨hm, nofun⟩
  have hgo := hs.wakerGo (k := k) hhold hsound (fun p _ => hahead p)
  refine ⟨hgo.own, hgo.sound, fun p => ?_⟩
  refine (hs.each p).setData (fun hl => ?_) fun _ => Or.inr ⟨k, ?_⟩
  · have : Tid.sleeper p = Tid.waker k := hs.unique hl (by simp [Holds, WakerPc.Holds, hpc])
    cases this
  · change (Function.update s.waker k (afterUpdate m) k).Ahead p
    rw [Function.update_self]
    exact hahead p

/-- **The invariant is kept.** -/
theorem Inv.step (hs : Inv pt lk chan cond s) {e : Event κ σ}
    (h : step pt lk chan cond s e = some s') : Inv pt lk chan cond s' := by
  unfold Sleep.step at h
  rw [Option.ite_none_left_eq_some] at h
  obtain ⟨-, h⟩ := h
  cases e with
  | sleeper p => exact hs.sleeperStep h
  | waker k => exact hs.wakerStep h
  | consume p d =>
    obtain ⟨hpc, h⟩ := Option.ite_none_right_eq_some.mp h
    cases h
    exact hs.consume hpc d
  | update k m d =>
    obtain ⟨⟨hpc, -, hm⟩, h⟩ := Option.ite_none_right_eq_some.mp h
    cases h
    exact hs.update hpc hm d
  | schedAcquire =>
    obtain ⟨hl, h⟩ := Option.ite_none_right_eq_some.mp h
    cases h
    exact hs.moveSched fun t ht => locks_update_iff (by rw [hl]; nofun)
      fun h => ht (Option.some.inj h).symm
  | schedRelease =>
    obtain ⟨hl, h⟩ := Option.ite_none_right_eq_some.mp h
    cases h
    refine hs.moveSched fun t ht => locks_update_iff ?_ nofun
    rw [hl]
    exact fun h => ht (Option.some.inj h).symm
  | dispatch p =>
    obtain ⟨⟨hl, hpc, -⟩, h⟩ := Option.ite_none_right_eq_some.mp h
    cases h
    refine hs.moveSleeper (fun t ht ht' => locks_update_iff ?_ ?_) (fun l => ?_)
      (.of_quiet trivial nofun)
    · rw [hl]; exact fun h => ht' (Option.some.inj h).symm
    · exact fun h => ht (Option.some.inj h).symm
    · rw [update_some_iff, ← hs.own]
      simp [Holds, SleeperPc.Holds, hpc]
  | kill p =>
    obtain ⟨-, h⟩ := Option.ite_none_right_eq_some.mp h
    cases h
    have hp := hs.each p
    have hawake : (if (s.table p).state = .sleeping then ProcState.runnable
        else (s.table p).state) ≠ .sleeping := by
      split
      · nofun
      · next h => exact h
    have hgo : Inv pt lk chan cond ((s.setProc p { s.table p with
        killed := true
        state := if (s.table p).state = .sleeping then .runnable else (s.table p).state
        }).goSleeper p (s.sleeper p)) := hs.sleeperGo (fun _ => Iff.rfl)
      ⟨hp.locked, fun h => absurd h hawake, hp.chan, hp.tested, hp.ready, fun hd => ?_⟩
    · rwa [show ∀ t : State L κ σ, t.sleeper = s.sleeper → t.goSleeper p (s.sleeper p) = t by
        intro t ht; simp [State.goSleeper, ← ht]] at hgo
      rfl
    · rcases hd with hd | hd | hd | ⟨-, hd⟩
      · exact hp.doomed (Or.inl hd)
      · exact hp.doomed (Or.inr (Or.inl hd))
      · exact hp.doomed (Or.inr (Or.inr (Or.inl hd)))
      · exact absurd hd hawake

end Step

/-! ### No lost wakeup -/

/-- All threads are at their start, all locks are free, and nobody sleeps. -/
structure Initial (s : State L κ σ) : Prop where
  locks : ∀ l, s.locks l = none
  sleeper : ∀ p, s.sleeper p = .out
  waker : ∀ k, s.waker k = .out
  awake : ∀ p, (s.table p).state ≠ .sleeping

omit [DecidableEq L] [DecidableEq κ] in
theorem Initial.inv {s : State L κ σ} (h : Initial s) : Inv pt lk chan cond s := by
  refine ⟨fun t l => ?_, fun k => ?_, fun p => ?_⟩
  · cases t with
    | sleeper p => simp [Holds, h.sleeper, SleeperPc.Holds, h.locks]
    | waker k => simp [Holds, h.waker, WakerPc.Holds, h.locks]
    | sched => exact Iff.rfl
  · rw [h.waker k]; trivial
  · rw [h.sleeper p]; exact .of_quiet trivial (h.awake p)

theorem Inv.of_reach {s₀ s : State L κ σ} (h₀ : Initial s₀)
    (h : Reach (Sleep.step pt lk chan cond) (fun _ _ => True) s₀ s) : Inv pt lk chan cond s :=
  h.induct (P := Inv pt lk chan cond) (h₀.inv pt lk chan cond) fun _ _ _ ih _ hst => ih.step hst

/-- A sleeper is `SLEEPING` on `chan`, the condition is true, and no waker is between its update of
the condition and the end of its call of `wakeup`. -/
def Lost (s : State L κ σ) : Prop :=
  ∃ p, (s.table p).state = .sleeping ∧ (s.table p).chan = some chan ∧ cond s.data = true ∧
    ∀ k, ¬ (s.waker k).Pending

/-- **No lost wakeup**, for any lock `lk`, `ptable.lock` or another. -/
theorem no_lost_wakeup {s₀ s : State L κ σ} (h₀ : Initial s₀)
    (hreach : Reach (step pt lk chan cond) (fun _ _ => True) s₀ s) : ¬ Lost chan cond s := by
  rintro ⟨p, hsl, -, htrue, hnone⟩
  have hp := (Inv.of_reach pt lk chan cond h₀ hreach).each p
  have hdoomed : Doomed (s.sleeper p) (s.table p) := by
    rcases hp.sleeping hsl with h | h
    · exact Or.inr (Or.inr (Or.inl h))
    · exact Or.inr (Or.inr (Or.inr ⟨h, hsl⟩))
  rcases hp.doomed hdoomed with hfalse | ⟨k, hk⟩
  · rw [htrue] at hfalse
    cases hfalse
  · exact hnone k hk.pending

end Invariant

/-- One waker and a Boolean as data, with everybody at the start. -/
def start : State Bool Unit Bool :=
  { table := fun _ => { zero with state := .running }, locks := fun _ => none, data := false
    sleeper := fun _ => .out, waker := fun _ => .out, panicked := false }

/-- The theorem applies when the first process sleeps on `&ticks` and a waker has made the condition
true but not yet called `wakeup`, with `lk` another lock than `ptable.lock` and with `lk` the
same. -/
theorem no_lost_wakeup_late :
    (∃ s, run (step false true .ticks id) start
        (List.replicate 7 (.sleeper 0) ++ [.schedRelease, .waker (), .update () .late true,
          .waker ()]) = some s ∧
      (s.table 0).state = .sleeping ∧ s.data = true ∧ (∀ l, s.locks l = none) ∧
      ¬ Lost .ticks id s) ∧
    ∃ s, run (step false false .ticks id) start
        (List.replicate 6 (.sleeper 0) ++ [.schedRelease, .waker (), .update () .late true,
          .waker ()]) = some s ∧
      (s.table 0).state = .sleeping ∧ s.data = true ∧ (∀ l, s.locks l = none) ∧
      ¬ Lost .ticks id s := by
  have hstart : Initial start := ⟨fun _ => rfl, fun _ => rfl, fun _ => rfl, nofun⟩
  refine ⟨?_, ?_⟩
  · obtain ⟨s, hs, hsl, hdata, hlocks⟩ := exists_of_any (step false true .ticks id) start
      (List.replicate 7 (.sleeper 0) ++ [.schedRelease, .waker (),
        .update () .late true, .waker ()])
      (fun s => (s.table 0).state = .sleeping ∧ s.data = true ∧ ∀ l, s.locks l = none)
      (by decide +kernel)
    exact ⟨s, hs, hsl, hdata, hlocks, no_lost_wakeup _ _ _ _ hstart (reach_of_run hs)⟩
  · obtain ⟨s, hs, hsl, hdata, hlocks⟩ := exists_of_any (step false false .ticks id) start
      (List.replicate 6 (.sleeper 0) ++ [.schedRelease, .waker (),
        .update () .late true, .waker ()])
      (fun s => (s.table 0).state = .sleeping ∧ s.data = true ∧ ∀ l, s.locks l = none)
      (by decide +kernel)
    exact ⟨s, hs, hsl, hdata, hlocks, no_lost_wakeup _ _ _ _ hstart (reach_of_run hs)⟩

end Sleep

end Xv6
