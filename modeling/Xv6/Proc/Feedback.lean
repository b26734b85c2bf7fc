import Xv6.Proc.Slots
import Xv6.Proc.Solo

/-!
# The behaviour feedback

After `swtch` has returned, `scheduler` compares `ticks` with the value it had before and moves the
priority of the process down or up. `ticks` is advanced by the timer interrupt of CPU `0` only,
while every CPU takes processes off by its own timer, so what the comparison measures is how often
CPU `0` was interrupted between the two reads.

A `TimeSlice` is the stretch of a run from one read of `ticks` to the adjustment. The adjustment is
computed for every time slice of every run from the number of interrupts of CPU `0`
(`TimeSlice.prio_final`), and that decides exactly when it agrees with the way the process left its
CPU. On CPU `0` itself it always does: a process that is forced off there has seen at least one
interrupt and at most two, and one that leaves before the first has seen none.

## Main definitions

* `TimeSlice` — from `start = ticks` to the adjustment of `prio`
* `TimeSlice.FeedbackOk` — the adjustment fits the way the process left its CPU
* `TimeSlice.TicksAgree` — the interrupts of CPU `0` fit it

## Main results

* `run_ticks` — `ticks` counts the timer interrupts of CPU `0`
* `TimeSlice.feedbackOk_iff` — the adjustment is right exactly when the interrupts of CPU `0` fit,
  which on CPU `0` they do
-/

namespace Xv6

namespace Proc

open State Transition

variable {n : ℕ}

theorem run_ticks {s s' : State n} {es : List (Event n)} (h : run step s es = some s') :
    s'.ticks = s.ticks + BitVec.ofNat 32 (es.count (.timer 0)) := by
  refine run_induct (P := fun es t => t.ticks = s.ticks + BitVec.ofNat 32 (es.count (.timer 0)))
    h (by simp) fun es e t t' ih hst => ?_
  rw [step_ticks hst, ih, List.count_append, List.count_singleton]
  by_cases he : e = .timer 0
  · subst he
    simp [BitVec.ofNat_add, BitVec.add_assoc]
  · simp [he]

/-! ### The control state of a CPU during a time slice -/

section Slice

variable {s s' : State n} {e : Event n} {c : Fin (n + 1)} {p : Slot}

/-- `scheduler` has got control back from `p` on CPU `c` and has not adjusted its priority yet. -/
def Settled (c : Fin (n + 1)) (p : Slot) (s : State n) : Prop :=
  (s.cpu c).mode = .returned p ∨ ∃ stop, (s.cpu c).mode = .ended p stop

/-- CPU `c` has read `start = t₀` for `p` and has not adjusted its priority yet. -/
structure InSlice (c : Fin (n + 1)) (p : Slot) (t₀ : BitVec 32) (s : State n) : Prop where
  start : (s.cpu c).start = t₀
  mode : (s.cpu c).mode = .started p ∨ (s.cpu c).mode = .running p ∨ Settled c p s

theorem Settled.inScheduler (h : Settled c p s) : (s.cpu c).mode.InScheduler := by
  rcases h with h | ⟨stop, h⟩ <;> rw [h] <;> trivial

theorem InSlice.step {t₀ : BitVec 32} (hs : InSlice c p t₀ s) (h : step s e = some s')
    (he : e ≠ .feedback c) : InSlice c p t₀ s' := by
  obtain ⟨hstart, hmode⟩ := hs
  unfold Settled at hmode
  have hcpu := CpuStep.of_step h c
  generalize hk : s'.cpu c = k at hcpu
  constructor
  · rw [hk]
    cases hcpu with
    | readStart q hm => simp [hm] at hmode
    | _ => exact hstart
  · rw [Settled, hk]
    cases hcpu with
    | same | timer | tickWakeup | timerEnd | timerExit => exact hmode
    | acquire hm | giveUp hm | pick q hm | readStart q hm => simp [hm] at hmode
    | dispatch q hm | leave _ q hm | readEnd q hm => simpa [hm] using hmode
    | feedback q stop hm => exact absurd rfl he

/-- Once `scheduler` has control back, it keeps it, and the timer of its CPU is off. -/
theorem Settled.step (hs : Settled c p s) (h : step s e = some s') (he : e ≠ .feedback c) :
    Settled c p s' ∧ e ≠ .timer c := by
  unfold Settled at hs ⊢
  have hcpu := CpuStep.of_step h c
  generalize s'.cpu c = k at hcpu
  cases hcpu with
  | same _ ht hf => exact ⟨hs, ht⟩
  | acquire hm | giveUp hm | pick q hm | readStart q hm | dispatch q hm | leave _ q hm
  | timerEnd hm | timerExit q hm => simp [hm] at hs
  | readEnd q hm => simpa [hm] using hs
  | feedback q stop hm => exact absurd rfl he
  | timer i hne hi hm => rcases hm with hm | ⟨q, hm, -⟩ <;> simp [hm] at hs
  | tickWakeup hi => exact ⟨hs, nofun⟩

/-- After the second read nothing happens to the control state but the adjustment. -/
theorem ended_step {stop : BitVec 32} (hm : (s.cpu c).mode = .ended p stop)
    (h : step s e = some s') (he : e ≠ .feedback c) : (s'.cpu c).mode = .ended p stop := by
  have hcpu := CpuStep.of_step h c
  generalize s'.cpu c = k at hcpu
  cases hcpu with
  | same | tickWakeup => exact hm
  | acquire h' | giveUp h' | pick q h' | readStart q h' | dispatch q h' | leave _ q h'
  | readEnd q h' | timerEnd h' | timerExit q h' => rw [hm] at h'; cases h'
  | feedback q stop h' => exact absurd rfl he
  | timer i hne hi h' => rcases h' with h' | ⟨q, h', -⟩ <;> rw [hm] at h' <;> cases h'

/-- No priority changes while a CPU is inside `scheduler`, until that CPU adjusts one. -/
theorem prio_of_inScheduler (hwf : Wf s) (hm : (s.cpu c).mode.InScheduler)
    (h : step s e = some s') (he : e ≠ .feedback c) (q : Slot) :
    (s'.ptable q).prio = (s.ptable q).prio := by
  have hlock := hwf.holds c hm
  -- the steps that write a priority need the lock, which `c` holds
  have hfree : s.lock ≠ none := by rw [hlock]; nofun
  cases Step.of_step h with
  | alloc d p np second hw ha hl => exact absurd hl hfree
  | wait d p hw ha hl => exact absurd hl hfree
  | sp d p v t hw ha hl => exact absurd hl hfree
  | exit d p hw ha hp hl => exact absurd hl hfree
  | kill d p pid t hw ha hl hk => exact absurd hl hfree
  | feedback d p stop hd =>
    have := hwf.holds d (by rw [hd]; trivial)
    obtain rfl : c = d := Option.some.inj (hlock.symm.trans this)
    exact absurd rfl he
  | resumeWait d p hd hl hr =>
    obtain rfl : c = d := Option.some.inj (hlock.symm.trans hl)
    rw [hd] at hm
    exact hm.elim
  | wakeup d chan hl hc => exact wakeup1_prio ..
  | tickWakeup d hi hl => exact wakeup1_prio ..
  | dispatch d p hd => exact PTable.set_prio (by rfl) q
  | resumeSleep d p hd hl hr => exact PTable.set_prio (by rfl) q
  | kallocOk d p np hw ha => exact PTable.set_prio (by rfl) q
  | kallocFail d p np hw ha => exact PTable.set_prio (by rfl) q
  | copyOk d p np hw ha => exact PTable.set_prio (by rfl) q
  | copyFail d p np hw ha => exact PTable.set_prio (by rfl) q
  | forkRunnable d p np hw ha hl => exact PTable.set_prio (by rfl) q
  | sleep d p chan hw ha hl hc => exact PTable.set_prio (by rfl) q
  | spYield d p hw ha hl => exact PTable.set_prio (by rfl) q
  | timerYield d p hd hi hl => exact PTable.set_prio (by rfl) q
  | fault d p hw ha => exact PTable.set_prio (by rfl) q
  | _ => rfl

/-- The step with which a process leaves is neither an interrupt nor an adjustment. -/
theorem ne_of_leave (hm : (s.cpu c).mode = .running p) (hm' : (s'.cpu c).mode = .returned p)
    (h : step s e = some s') : e ≠ .timer c ∧ e ≠ .feedback c := by
  have hcpu := CpuStep.of_step h c
  generalize s'.cpu c = k at hcpu hm'
  cases hcpu with
  | same _ ht hf => exact ⟨ht, hf⟩
  | leave _ q h' ht hf => exact ⟨ht, hf⟩
  | timer => rw [hm] at hm'; cases hm'
  | feedback q stop h' => rw [hm] at h'; cases h'
  | _ => exact ⟨nofun, nofun⟩

theorem irq_of_timerYield (h : step s (.timerYield c) = some s') : (s.cpu c).irq = .handled := by
  cases Step.of_step h with
  | timerYield _ q hm hi hl => exact hi

/-! ### Interrupts during a time slice -/

/-- Interrupts are off inside `scheduler`. -/
def Calm (s : State n) : Prop := ∀ c, (s.cpu c).mode.InScheduler → (s.cpu c).irq = .none

theorem Calm.step (hs : Calm s) (h : step s e = some s') : Calm s' := by
  intro c hm
  have hcpu := CpuStep.of_step h c
  generalize s'.cpu c = k at hcpu hm
  cases hcpu with
  | same => exact hs c hm
  | acquire h' hi => exact hi
  | giveUp | dispatch | feedback => exact hm.elim
  | pick q h' | readStart q h' | readEnd q h' => exact hs c (by rw [h']; trivial)
  | leave | timerEnd | timerExit => rfl
  | timer i hne hi h' => rcases h' with h' | ⟨q, h', -⟩ <;> simp [h', Mode.InScheduler] at hm
  | tickWakeup hi => rw [hs c hm] at hi; cases hi

theorem Calm.of_reach {ok : State n → Event n → Prop} {second : BitVec 32}
    (h : Reach Proc.step ok (boot n second) s) : Calm s :=
  h.induct (fun _ _ => rfl) fun _ _ _ ih _ hst => Calm.step ih hst

/-- A process on its way out stays on it, once it has given up the lock it was switched to with. -/
theorem exiting_of_step (hwf : Wf s) (hp : (s.cpu c).mode = .running p) (hl : s.lock ≠ some c)
    (ha : (s.thread p).act = .exiting) (h : step s e = some s') :
    (s'.thread p).act = .exiting := by
  have hact := ActCause.of_step h p
  generalize (s'.thread p).act = a at hact ⊢
  cases hact with
  | same => exact ha
  | call ha' | yield ha' => rw [ha] at ha'; cases ha'
  | resume d hm hl' => exact absurd (hwf.unique c d p hp hm ▸ hl') hl
  | fork _ hc => rw [ha] at hc; exact absurd rfl hc
  | child q _ hc =>
    have hemb := hwf.child q p hc
    rw [hwf.running c p hp] at hemb
    cases hemb

/-- Timer interrupts of CPU `c` among the events `es` since it read `ticks` for `p`. -/
structure Interrupts (c : Fin (n + 1)) (p : Slot) (es : List (Event n)) (s : State n) : Prop where
  /-- An interrupt in progress is one of them. -/
  pending : (s.cpu c).irq ≠ .none → .timer c ∈ es
  /-- There is none before the process gives up the lock. -/
  fresh : (s.cpu c).mode = .started p ∨ ((s.cpu c).mode = .running p ∧ s.lock = some c) →
    .timer c ∉ es
  /-- One may be in progress and one may have sent the process to `exit`. -/
  count : (s.cpu c).mode = .running p → es.count (.timer c) ≤
    (if (s.cpu c).irq = .none then 0 else 1) + (if (s.thread p).act = .exiting then 1 else 0)

/-- A process that runs was running before or has just been switched to. -/
theorem InSlice.mode_of_step {t₀ : BitVec 32} (hin : InSlice c p t₀ s)
    (h : Proc.step s e = some s')
    (hm : (s'.cpu c).mode = .started p ∨ (s'.cpu c).mode = .running p) :
    (s.cpu c).mode = .started p ∨ (s.cpu c).mode = .running p := by
  rcases hin.mode with hst | hrun | hset
  · exact Or.inl hst
  · exact Or.inr hrun
  · have hcpu := CpuStep.of_step h c
    unfold Settled at hset
    generalize s'.cpu c = k at hcpu hm
    cases hcpu <;> simp_all

theorem Interrupts.step {t₀ : BitVec 32} {es : List (Event n)} (hwf : Wf s) (hin : InSlice c p t₀ s)
    (hs : Interrupts c p es s) (h : step s e = some s') : Interrupts c p (es ++ [e]) s' := by
  have hcpu := CpuStep.of_step h c
  have hnone : (s.cpu c).mode = .started p ∨ ((s.cpu c).mode = .running p ∧ s.lock = some c) →
      .timer c ∉ es ++ [e] := by
    intro hold
    rw [List.mem_append, List.mem_singleton, not_or]
    refine ⟨hs.fresh hold, ?_⟩
    rintro rfl
    generalize s'.cpu c = k at hcpu
    cases hcpu with
    | same _ ht => exact ht rfl
    | leave _ _ _ ht => exact ht rfl
    | timer i hne hi h' =>
      rcases hold with hold | ⟨hold, hl⟩ <;> rcases h' with h' | ⟨q, h', hl'⟩ <;>
        first | exact hl' hl | (rw [hold] at h'; cases h')
  constructor
  · intro hirq
    rw [List.mem_append]
    generalize s'.cpu c = k at hcpu hirq
    cases hcpu with
    | timer => exact Or.inr (List.mem_singleton_self _)
    | leave | timerEnd | timerExit => exact absurd rfl hirq
    | tickWakeup hi => exact Or.inl (hs.pending (by rw [hi]; nofun))
    | _ => exact Or.inl (hs.pending hirq)
  · intro hm
    refine hnone ((hin.mode_of_step h (hm.imp_right And.left)).imp_right fun hrun => ⟨hrun, ?_⟩)
    rcases hm with hm | ⟨hm, hl⟩
    · -- a running process is not started again in the same slice
      generalize s'.cpu c = k at hcpu hm
      cases hcpu <;> simp_all
    · refine (lock_of_step h hl).resolve_right fun hns => ?_
      rw [hm] at hns
      exact hns
  · intro hm
    rcases hin.mode_of_step h (Or.inr hm) with hst | hrun
    · rw [List.count_eq_zero_of_not_mem (hnone (Or.inl hst))]
      exact Nat.zero_le _
    by_cases hl : s.lock = some c
    · rw [List.count_eq_zero_of_not_mem (hnone (Or.inr ⟨hrun, hl⟩))]
      exact Nat.zero_le _
    have hcount := hs.count hrun
    have hexit : (if (s.thread p).act = .exiting then 1 else 0) ≤
        (if (s'.thread p).act = .exiting then 1 else 0) := by
      by_cases ha : (s.thread p).act = .exiting
      · rw [if_pos ha, if_pos (exiting_of_step hwf hrun hl ha h)]
      · rw [if_neg ha]
        exact Nat.zero_le _
    rw [List.count_append, List.count_singleton]
    by_cases he : e = .timerExit c
    · -- the interrupt is over and has sent the process to `exit`
      subst he
      cases Step.of_step h with
      | timerEnd _ h' => rw [hrun] at h'; cases h'
      | timerExit _ q h' hi hk ha =>
        rw [hrun] at h'
        cases h'
        simp only [ha] at hcount
        simp [setIrq, setAct, setThread]
        split at hcount <;> simp at hcount <;> omega
    · generalize s'.cpu c = k at hcpu hm
      cases hcpu with
      | same _ ht => simp [ht]; omega
      | timer i hne hi h' => simp [hne]; simp [hi] at hcount; omega
      | tickWakeup hi => simp; simp [hi] at hcount; omega
      | timerEnd | timerExit => exact absurd rfl he
      | _ => simp_all

end Slice

/-! ### Time slices -/

/-- The stretch of a run in which `scheduler` on one CPU hands the CPU to a process, gets it back
and adjusts the priority. -/
structure TimeSlice (n : ℕ) (second : BitVec 32) where
  cpu : Fin (n + 1)
  proc : Slot
  /-- The state before `start = ticks`. -/
  before : State n
  reach : Reach step (fun _ _ => True) (boot n second) before
  picked : (before.cpu cpu).mode = .picked proc
  /-- What all CPUs do until the process leaves. -/
  during : List (Event n)
  last : State n
  ran : run step before (.readStart cpu :: during) = some last
  running : (last.cpu cpu).mode = .running proc
  /-- The step with which the process gives control back to `scheduler`. -/
  leave : Event n
  left : State n
  leaves : step last leave = some left
  returned : (left.cpu cpu).mode = .returned proc
  /-- What all CPUs do until `end = ticks`, and from there to the adjustment. -/
  after : List (Event n)
  later : List (Event n)
  final : State n
  back : run step left (after ++ .readEnd cpu :: (later ++ [.feedback cpu])) = some final
  /-- It is one time slice, not several. -/
  once : .feedback cpu ∉ during ∧ .feedback cpu ∉ after ∧ .feedback cpu ∉ later

namespace TimeSlice

variable {second : BitVec 32} (sl : TimeSlice n second)

/-- The timer interrupts of CPU `0` between the two reads of `ticks`. -/
def cpu0Ticks : ℕ := (sl.during ++ sl.leave :: sl.after).count (.timer 0)

/-- The priority when `scheduler` regains control. -/
def oldPrio : ℕ := (sl.left.ptable sl.proc).prio.toNat

/-- The priority after the adjustment. -/
def newPrio : ℕ := (sl.final.ptable sl.proc).prio.toNat

/-- The process was forced off by the timer interrupt of its CPU, through the `yield` of `trap`. -/
def Forced : Prop := sl.leave = .timerYield sl.cpu

/-- The process left through `sleep` or `exit`, before any timer interrupt of its CPU. The `sleep`
of `wait` may follow the call or a return from an earlier `sleep`. -/
def Voluntary : Prop :=
  (sl.leave = .exit sl.cpu ∨ (∃ chan, sl.leave = .sleep sl.cpu chan) ∨ sl.leave = .wait sl.cpu ∨
    sl.leave = .resume sl.cpu) ∧ .timer sl.cpu ∉ sl.during

/-- The adjustment that the way the process left calls for. -/
def FeedbackOk : Prop :=
  sl.oldPrio ≤ 10 →
    (sl.Forced → sl.newPrio = min (sl.oldPrio + 1) 10) ∧
    (sl.Voluntary → sl.newPrio = sl.oldPrio - 1)

/-- `ticks` has changed if the process was forced off and has not if it left voluntarily. -/
def TicksAgree : Prop :=
  (sl.Forced → sl.cpu0Ticks % 2 ^ 32 ≠ 0) ∧ (sl.Voluntary → sl.cpu0Ticks % 2 ^ 32 = 0)

theorem wf_last : Wf sl.last := by
  refine run_induct (P := fun _ s => Wf s) sl.ran (Wf.of_reach sl.reach) ?_
  exact fun _ _ _ _ hwf hst => hwf.step hst

theorem wf_left : Wf sl.left := sl.wf_last.step sl.leaves

/-- The state after `start = ticks`. -/
theorem exists_start : ∃ s, step sl.before (.readStart sl.cpu) = some s ∧
    run step s sl.during = some sl.last ∧ s.ticks = sl.before.ticks ∧
    InSlice sl.cpu sl.proc sl.before.ticks s ∧ (s.cpu sl.cpu).mode = .started sl.proc ∧
    (s.cpu sl.cpu).irq = (sl.before.cpu sl.cpu).irq := by
  obtain ⟨s, hst, hrun⟩ := (run_cons_eq_some _).mp sl.ran
  have hcpu : s.cpu sl.cpu = { sl.before.cpu sl.cpu with
      start := sl.before.ticks, mode := .started sl.proc } := by
    have hm := sl.picked
    cases Step.of_step hst with
    | readStart _ q h =>
      obtain rfl : sl.proc = q := by rw [hm] at h; exact Mode.picked.inj h
      exact Function.update_self ..
  have hticks := step_ticks hst
  rw [if_neg nofun] at hticks
  exact ⟨s, hst, hrun, hticks, ⟨by rw [hcpu], Or.inl (by rw [hcpu])⟩, by rw [hcpu], by rw [hcpu]⟩

theorem inSlice_last : InSlice sl.cpu sl.proc sl.before.ticks sl.last := by
  obtain ⟨s, -, hrun, -, hin, -⟩ := sl.exists_start
  refine run_induct (P := fun es s => .feedback sl.cpu ∉ es →
    InSlice sl.cpu sl.proc sl.before.ticks s) hrun (fun _ => hin) ?_ sl.once.1
  intro es e t t' ih hst hne
  rw [List.mem_append, not_or, List.mem_singleton] at hne
  exact (ih hne.1).step hst fun he => hne.2 he.symm

theorem inSlice_left : InSlice sl.cpu sl.proc sl.before.ticks sl.left :=
  sl.inSlice_last.step sl.leaves (ne_of_leave sl.running sl.returned sl.leaves).2

/-- What holds from the return of `swtch` on, as long as the priority is not adjusted. -/
theorem settled_of_run {s : State n} {es : List (Event n)} (hr : run step sl.left es = some s)
    (hes : .feedback sl.cpu ∉ es) :
    Wf s ∧ Settled sl.cpu sl.proc s ∧ InSlice sl.cpu sl.proc sl.before.ticks s ∧
      (s.ptable sl.proc).prio = (sl.left.ptable sl.proc).prio ∧ .timer sl.cpu ∉ es := by
  refine run_induct (P := fun es s => .feedback sl.cpu ∉ es → Wf s ∧ Settled sl.cpu sl.proc s ∧
    InSlice sl.cpu sl.proc sl.before.ticks s ∧
    (s.ptable sl.proc).prio = (sl.left.ptable sl.proc).prio ∧ .timer sl.cpu ∉ es) hr
    (fun _ => ⟨sl.wf_left, Or.inl sl.returned, sl.inSlice_left, rfl, nofun⟩) ?_ hes
  intro es e t t' ih hst hne
  rw [List.mem_append, not_or, List.mem_singleton] at hne
  obtain ⟨hwf, hset, hin, hprio, htimer⟩ := ih hne.1
  have he : e ≠ .feedback sl.cpu := fun he => hne.2 he.symm
  refine ⟨hwf.step hst, (hset.step hst he).1, hin.step hst he, ?_, ?_⟩
  · rw [prio_of_inScheduler hwf hset.inScheduler hst he, hprio]
  · rw [List.mem_append, not_or, List.mem_singleton]
    exact ⟨htimer, fun h => (hset.step hst he).2 h.symm⟩

/-- **The adjustment**, computed from the timer interrupts of CPU `0`. -/
theorem prio_final : (sl.final.ptable sl.proc).prio = feedback sl.before.ticks
    (sl.before.ticks + BitVec.ofNat 32 sl.cpu0Ticks) (sl.left.ptable sl.proc).prio := by
  obtain ⟨hno₁, hno₂, hno₃⟩ := sl.once
  obtain ⟨s₁, h₁, h₂⟩ := (run_append_eq_some _).mp sl.back
  obtain ⟨s₂, hread, h₃⟩ := (run_cons_eq_some _).mp h₂
  obtain ⟨s₃, h₄, h₅⟩ := (run_append_eq_some _).mp h₃
  obtain ⟨s₄, hfeed, hnil⟩ := (run_cons_eq_some _).mp h₅
  rw [← Option.some.inj hnil]
  have hticks : s₁.ticks = sl.before.ticks + BitVec.ofNat 32 sl.cpu0Ticks := by
    obtain ⟨s, -, hrun, ht, -⟩ := sl.exists_start
    have hall : run step s (sl.during ++ sl.leave :: sl.after) = some s₁ :=
      (run_append_eq_some _).mpr ⟨_, hrun, (run_cons_eq_some _).mpr ⟨_, sl.leaves, h₁⟩⟩
    rw [run_ticks hall, ht, cpu0Ticks]
  -- the second read, and the state it leaves
  have hended : (s₂.cpu sl.cpu).mode = .ended sl.proc s₁.ticks := by
    have hset := (sl.settled_of_run h₁ hno₂).2.1
    cases Step.of_step hread with
    | readEnd _ q h =>
      obtain rfl : sl.proc = q := by
        rcases hset with hset | ⟨stop, hset⟩ <;> rw [hset] at h <;> cases h
        rfl
      simp [setMode]
  have hended₃ : (s₃.cpu sl.cpu).mode = .ended sl.proc s₁.ticks := by
    refine run_induct (P := fun es s => .feedback sl.cpu ∉ es →
      (s.cpu sl.cpu).mode = .ended sl.proc s₁.ticks) h₄ (fun _ => hended) ?_ hno₃
    intro es e t t' ih hst hne
    rw [List.mem_append, not_or, List.mem_singleton] at hne
    exact ended_step (ih hne.1) hst fun he => hne.2 he.symm
  have hrun₃ : run step sl.left (sl.after ++ .readEnd sl.cpu :: sl.later) = some s₃ :=
    (run_append_eq_some _).mpr ⟨_, h₁, (run_cons_eq_some _).mpr ⟨_, hread, h₄⟩⟩
  obtain ⟨-, -, hin, hprio, -⟩ := sl.settled_of_run hrun₃ (by simp [hno₂, hno₃])
  cases Step.of_step hfeed with
  | feedback _ q stop h =>
    rw [hended₃] at h
    cases h
    rw [hin.start, hticks, hprio]
    exact congrArg _ (PTable.set_self ..)

theorem ofNat_cpu0Ticks : BitVec.ofNat 32 sl.cpu0Ticks = 0#32 ↔ sl.cpu0Ticks % 2 ^ 32 = 0 := by
  rw [← BitVec.toNat_inj, BitVec.toNat_ofNat]
  rfl

/-- The adjustment goes up exactly when `ticks` has changed. -/
theorem newPrio_eq (hold : sl.oldPrio ≤ 10) : sl.newPrio =
    if sl.cpu0Ticks % 2 ^ 32 = 0 then sl.oldPrio - 1 else min (sl.oldPrio + 1) 10 := by
  have hstop : sl.before.ticks + BitVec.ofNat 32 sl.cpu0Ticks - sl.before.ticks =
      BitVec.ofNat 32 sl.cpu0Ticks := by
    rw [BitVec.add_comm, BitVec.add_sub_cancel]
  unfold oldPrio newPrio at *
  rw [sl.prio_final]
  generalize (sl.left.ptable sl.proc).prio = x at hold ⊢
  unfold feedback
  rw [hstop]
  simp only [sl.ofNat_cpu0Ticks]
  split <;> split
  · next h => have := BitVec.lt_def.mp h; bv_omega
  · next h => have := mt BitVec.lt_def.mpr h; simp at this; omega
  · next h => have := BitVec.lt_def.mp h; bv_omega
  · next h => have := mt BitVec.lt_def.mpr h; simp at this; omega

theorem interrupts_last : Interrupts sl.cpu sl.proc sl.during sl.last := by
  obtain ⟨s, hst, hrun, -, hin, hm, hirq⟩ := sl.exists_start
  have hcalm : (sl.before.cpu sl.cpu).irq = .none :=
    Calm.of_reach sl.reach sl.cpu (by rw [sl.picked]; trivial)
  have hall : Wf sl.last ∧ InSlice sl.cpu sl.proc sl.before.ticks sl.last ∧
      Interrupts sl.cpu sl.proc sl.during sl.last := by
    refine run_induct (P := fun es s => .feedback sl.cpu ∉ es → Wf s ∧
      InSlice sl.cpu sl.proc sl.before.ticks s ∧ Interrupts sl.cpu sl.proc es s) hrun
      (fun _ => ⟨(Wf.of_reach sl.reach).step hst, hin, ?_⟩) ?_ sl.once.1
    · refine ⟨fun h => absurd (hirq.trans hcalm) h, fun _ => nofun, fun h => ?_⟩
      rw [hm] at h
      cases h
    · intro es e t t' ih hst hne
      rw [List.mem_append, not_or, List.mem_singleton] at hne
      obtain ⟨hwf, hin, hint⟩ := ih hne.1
      exact ⟨hwf.step hst, hin.step hst fun he => hne.2 he.symm, hint.step hwf hin hst⟩
  exact hall.2.2

/-- On CPU `0` the only interrupts that count are those the process itself has seen. -/
theorem cpu0Ticks_of_zero (h0 : sl.cpu = 0) : sl.cpu0Ticks = sl.during.count (.timer 0) := by
  have hleave := (ne_of_leave sl.running sl.returned sl.leaves).1
  have hafter : .timer sl.cpu ∉ sl.after := by
    obtain ⟨s₁, h₁, -⟩ := (run_append_eq_some _).mp sl.back
    exact (sl.settled_of_run h₁ sl.once.2.1).2.2.2.2
  rw [h0] at hleave hafter
  rw [cpu0Ticks, List.count_append, List.count_cons_of_ne hleave,
    List.count_eq_zero_of_not_mem hafter, Nat.add_zero]

/-- On CPU `0` the interrupts always fit. -/
theorem ticksAgree_of_zero (h0 : sl.cpu = 0) : sl.TicksAgree := by
  have hint := sl.interrupts_last
  rw [h0] at hint
  unfold TicksAgree Forced Voluntary
  rw [sl.cpu0Ticks_of_zero h0]
  refine ⟨fun hforced => ?_, fun ⟨_, hnone⟩ => ?_⟩
  · have hirq : (sl.last.cpu 0).irq = .handled := by
      have hst := sl.leaves
      rw [hforced, h0] at hst
      exact irq_of_timerYield hst
    have hpos := List.count_pos_iff.mpr (hint.pending (by rw [hirq]; nofun))
    have hle := hint.count (h0 ▸ sl.running)
    have : sl.during.count (.timer 0) ≤ 2 := by
      refine hle.trans ?_
      split <;> split <;> decide
    omega
  · rw [h0] at hnone
    rw [List.count_eq_zero_of_not_mem hnone, Nat.zero_mod]

/-- **The behaviour feedback.** A time slice ends with the adjustment that the way the process left
calls for, if and only if CPU `0` was interrupted between the two reads of `ticks` when the process
was forced off and was not when it left voluntarily (a count that is a multiple of `2 ^ 32` being
the same as none). For a process that runs on CPU `0` this is always so. -/
theorem feedbackOk_iff :
    (sl.FeedbackOk ↔ (sl.oldPrio ≤ 10 → sl.TicksAgree)) ∧ (sl.cpu = 0 → sl.FeedbackOk) := by
  have hiff : sl.FeedbackOk ↔ (sl.oldPrio ≤ 10 → sl.TicksAgree) := by
    unfold FeedbackOk TicksAgree
    refine forall_congr' fun hold => ?_
    rw [sl.newPrio_eq hold]
    refine and_congr (forall_congr' fun _ => ?_) (forall_congr' fun _ => ?_)
    · split <;> omega
    · split <;> omega
  exact ⟨hiff, fun h0 => hiff.mpr fun _ => sl.ticksAgree_of_zero h0⟩

end TimeSlice

/-! ### A time slice on CPU `1` -/

/-- The first process with state `st` and priority `v`, in an otherwise empty table. -/
def oneProc (st : ProcState) (v : BitVec 32) : PTable :=
  PTable.set (fun _ => zero) 0 { initcode 0 with state := st, prio := v }

/-- On the two CPUs of the Makefile, the first process runs on CPU `1` and is forced off by the
timer interrupt of that CPU. -/
def preemptedOnCpu1 : TimeSlice 1 0 where
  cpu := 1
  proc := 0
  before := solo 1 ⟨none, .picked 0, 0, .none⟩ (some 1) (oneProc .runnable 1)
    (fun _ => ⟨.user, .forkret, 0⟩) 0 2
  reach := by
    have hscan := schedPlist_of_least (t := oneProc .runnable 1#32) (p := 0) rfl (by decide)
      (by intro q hq h; simp [oneProc, PTable.set_of_ne _ _ h, zero] at hq) 0#32
    have hflag : schedFlag (oneProc .runnable 1#32) = true := (schedFlag_iff _).mpr ⟨0, rfl⟩
    refine Reach.of_run [.acquire 1, .scan 1] .init (fun _ _ _ => trivial) ?_
    have hboot : boot 1 0 = soloIdle 1 (oneProc .runnable 1)
        (fun _ => ⟨.user, .forkret, 0⟩) 0 2 0 :=
      boot_eq_soloIdle 1 0
    rw [hboot]
    simp [run, step, soloIdle, solo, setMode, scanStep, hflag, hscan, plistSize]
  picked := by simp [solo]
  during := [.dispatch 1, .resume 1, .timer 1]
  last := solo 1 ⟨some 0, .running 0, 0, .handled⟩ none (oneProc .running 1)
    (fun _ => ⟨.user, .forkret, 0⟩) 0 2
  ran := by
    simp [run, step, solo, setProc, resumeStep, setIrq, work, oneProc]
  running := by simp [solo]
  leave := .timerYield 1
  left := solo 1 ⟨some 0, .returned 0, 0, .none⟩ (some 1) (oneProc .runnable 1)
    (Function.update (fun _ => ⟨.user, .forkret, 0⟩) 0 ⟨.user, .yielded, 0⟩) 0 2
  leaves := by
    simp [step, solo, setProc, sched, oneProc]
  returned := by simp [solo]
  after := []
  later := []
  final := solo 1 ⟨none, .idle, 0, .none⟩ none (oneProc .runnable 0)
    (Function.update (fun _ => ⟨.user, .forkret, 0⟩) 0 ⟨.user, .yielded, 0⟩) 0 2
  back := by
    simp [run, step, solo, setProc, setMode, feedback, oneProc]
  once := by simp

/-- It is forced off, and its priority goes down from `1` to `0` instead of up to `2`. -/
theorem preemptedOnCpu1_not_feedbackOk :
    preemptedOnCpu1.Forced ∧ preemptedOnCpu1.oldPrio = 1 ∧ preemptedOnCpu1.newPrio = 0 ∧
      ¬ preemptedOnCpu1.FeedbackOk := by
  have hforced : preemptedOnCpu1.Forced := rfl
  have hold : preemptedOnCpu1.oldPrio = 1 := rfl
  have hnew : preemptedOnCpu1.newPrio = 0 := rfl
  refine ⟨hforced, hold, hnew, fun h => ?_⟩
  have := (h (by rw [hold]; decide)).1 hforced
  rw [hold, hnew] at this
  exact absurd this (by decide)

end Proc

end Xv6
