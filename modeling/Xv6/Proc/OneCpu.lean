import Xv6.Proc.Forks
import Xv6.Proc.Solo

/-!
# One CPU per process

`c->proc` names the process that a CPU has in hand, from the moment `scheduler` switches to it until
it has adjusted its priority. The lock is handed over in between, twice: to the process, which
releases it, and back. While the lock is free, the processes that are `c->proc` of some CPU are
exactly the `RUNNING` ones; and no process is `c->proc` of two CPUs at any time.

## Main definitions

* `Mode.proc` — the process a CPU has in hand
* `Held` — `c->proc`, the `RUNNING` processes, and what a process that may run is equipped with

## Main results

* `Held.of_reach`
* `slice_of_run` — from `dispatch` to the adjustment of its priority, a process keeps its slot
* `one_cpu_per_process`
-/

namespace Xv6

namespace Proc

open State Transition

variable {n : ℕ} {s s' : State n} {e : Event n}

/-- The process that a CPU has in hand. -/
def Mode.proc : Mode → Option Slot
  | .running p | .returned p | .ended p _ => some p
  | _ => none

/-- `c->proc`, the `RUNNING` processes, and the kernel stacks and page tables. -/
structure Held (s : State n) : Prop where
  /-- `c->proc` is the process in hand. -/
  proc : ∀ c, (s.cpu c).proc = (s.cpu c).mode.proc
  /-- A `RUNNING` process is in execution on some CPU. -/
  running : ∀ p, (s.ptable p).state = .running → ∃ c, (s.cpu c).mode = .running p
  /-- Every process that has been created has a kernel stack and a page table, until it is
  reaped. -/
  equipped : ∀ p, (s.ptable p).state ≠ .unused → (s.ptable p).state ≠ .embryo →
    (s.ptable p).kstack = true ∧ (s.ptable p).pgdir = true
  /-- `fork` has got a kernel stack before it copies the page table. -/
  copying : ∀ p np, (s.thread p).act = .forkCopy np → (s.ptable np).kstack = true
  /-- It has both before it makes the process `RUNNABLE`. -/
  ready : ∀ p np, (s.thread p).act = .forkReady np →
    (s.ptable np).kstack = true ∧ (s.ptable np).pgdir = true

theorem boot_held (n : ℕ) (second : BitVec 32) : Held (boot n second) where
  proc c := rfl
  running p h := by
    by_cases hp : p = 0
    · subst hp; cases h
    · rw [boot_ptable_of_ne n second hp] at h; cases h
  equipped p h := by
    by_cases hp : p = 0
    · subst hp; exact fun _ => ⟨rfl, rfl⟩
    · rw [boot_ptable_of_ne n second hp] at h; exact absurd rfl h
  copying p np h := by cases h
  ready p np h := by cases h

theorem proc_of_step (h : step s e = some s') (hp : ∀ c, (s.cpu c).proc = (s.cpu c).mode.proc)
    (c : Fin (n + 1)) : (s'.cpu c).proc = (s'.cpu c).mode.proc := by
  have hc := hp c
  have hcpu := CpuStep.of_step h c
  generalize s'.cpu c = k at hcpu ⊢
  cases hcpu with
  | same | timer | tickWakeup | timerEnd | timerExit => exact hc
  | acquire hm | giveUp hm | pick p hm | readStart p hm | leave e p hm | readEnd p hm =>
    rw [hm] at hc
    exact hc
  | dispatch | feedback => rfl

theorem running_iff_of_step (hs : Wf s) (hheld : Held s) (h : step s e = some s') {p : Slot}
    (hp : (s'.ptable p).state = .running) : ∃ c, (s'.cpu c).mode = .running p := by
  -- whoever ran before the step still does, since a process that has left is not `RUNNING`
  have hold : (s.ptable p).state = .running → ∃ c, (s'.cpu c).mode = .running p := by
    intro hrun
    obtain ⟨c, hm⟩ := hheld.running p hrun
    refine ⟨c, ?_⟩
    have hleft := (hs.step h).left c p
    have hcpu := CpuStep.of_step h c
    generalize s'.cpu c = k at hcpu hleft ⊢
    cases hcpu with
    | same | timer | tickWakeup | timerExit => exact hm
    | acquire h' | giveUp h' | pick q h' | readStart q h' | dispatch q h' | readEnd q h'
    | feedback q stop h' | timerEnd h' => rw [hm] at h'; cases h'
    | leave e q h' =>
      rw [hm] at h'
      cases h'
      rcases hleft (Or.inl rfl) with hl | hl | hl <;> rw [hp] at hl <;> cases hl
  have hslot := SlotStep.of_step hs h p
  have hdispatch : ∀ c, e = .dispatch c → (s.cpu c).mode = .started p →
      ∃ c, (s'.cpu c).mode = .running p := by
    rintro c rfl hm
    cases Step.of_step h with
    | dispatch _ q hq =>
      rw [hm] at hq
      cases hq
      exact ⟨c, by simp⟩
  generalize s'.ptable p = q at hslot hp
  cases hslot with
  | same | kalloc | copyuvm | feedback | unchan | setprio | fault => exact hold hp
  | claim | kallocFail | copyuvmFail | ready | yield | sleep | waits | reap | exits | woken =>
      cases hp
  | dispatch c hm => exact hdispatch c rfl hm
  | bereaved c q st hw hr ha hst =>
    rcases hst with hst | ⟨-, hst⟩
    · exact hold (hst.symm.trans hp)
    · rw [hst] at hp; cases hp
  | killed c pid hpid hf =>
    dsimp only at hp
    split at hp
    · cases hp
    · exact hold hp

theorem Held.step (hh : Held s) (hs : Wf s) (hf : Forking s) (h : Proc.step s e = some s') :
    Held s' := by
  refine ⟨proc_of_step h hh.proc, fun p hp => running_iff_of_step hs hh h hp, fun p hu hemb => ?_,
    fun p np ha' => ?_, fun p np ha' => ?_⟩
  · -- a slot is equipped before it becomes `RUNNABLE`, and gives nothing up until it is reaped
    have hslot := SlotStep.of_step hs h p
    have hready : ∀ c q, s.work c = some q → (s.thread q).act = .forkReady p →
        (s.ptable p).kstack = true ∧ (s.ptable p).pgdir = true := fun c q _ => hh.ready q p
    have hmode : ∀ c, (s.cpu c).mode = .running p →
        (s.ptable p).kstack = true ∧ (s.ptable p).pgdir = true := by
      intro c hm
      have := hs.running c p hm
      exact hh.equipped p (by rw [this]; decide) (by rw [this]; decide)
    generalize s'.ptable p = q at hslot hu hemb ⊢
    cases hslot with
    | same | setprio => exact hh.equipped p hu hemb
    | claim => exact absurd rfl hemb
    | kallocFail | copyuvmFail | reap => exact absurd rfl hu
    | kalloc c q hw ha => exact absurd (hs.child q p (by rw [ha]; rfl)) hemb
    | copyuvm c q hw ha => exact absurd (hs.child q p (by rw [ha]; rfl)) hemb
    | ready c q hw ha => exact hready c q hw ha
    | dispatch c hm =>
      have := hs.picked c p (Or.inr hm)
      exact hh.equipped p (by rw [this]; decide) (by rw [this]; decide)
    | feedback c stop hm => exact hh.equipped p hu hemb
    | unchan c hm => exact hmode c hm
    | yield c e hm => exact hmode c hm
    | waits c e hm => exact hmode c hm
    | sleep c chan hw => exact hmode c (mode_of_work hw).1
    | exits c hw => exact hmode c (mode_of_work hw).1
    | fault c hw => exact hmode c (mode_of_work hw).1
    | woken e hsl => exact hh.equipped p (by rw [hsl]; decide) (by rw [hsl]; decide)
    | bereaved c q st hw hr ha hst =>
      rcases hst with rfl | ⟨hsl, -⟩
      · exact hh.equipped p hu hemb
      · exact hh.equipped p (by rw [hsl]; decide) (by rw [hsl]; decide)
    | killed c pid hpid hf =>
      by_cases hsl : (s.ptable p).state = .sleeping
      · exact hh.equipped p (by rw [hsl]; decide) (by rw [hsl]; decide)
      · simp only [if_neg hsl] at hu hemb
        exact hh.equipped p hu hemb
  · rcases child_of_step h (show (s'.thread p).act.child = some np by rw [ha']; rfl) with
      hc | ⟨-, -, hclaim⟩
    · cases ForkStep.of_step hs hf h hc with
      | same ha hst hk hg => rw [hk]; exact hh.copying p np (ha.symm.trans ha')
      | kalloc ha _ hq => rw [hq]
      | copyuvm _ h' | fail _ h' | ready _ h' => rw [ha'] at h'; cases h'
    · rw [ha'] at hclaim; cases hclaim
  · rcases child_of_step h (show (s'.thread p).act.child = some np by rw [ha']; rfl) with
      hc | ⟨-, -, hclaim⟩
    · cases ForkStep.of_step hs hf h hc with
      | same ha hst hk hg => rw [hk, hg]; exact hh.ready p np (ha.symm.trans ha')
      | copyuvm ha _ hq => rw [hq]; exact ⟨hh.copying p np ha, rfl⟩
      | kalloc _ h' | fail _ h' | ready _ h' => rw [ha'] at h'; cases h'
    · rw [ha'] at hclaim; cases hclaim

theorem Held.of_reach {ok : State n → Event n → Prop} {second : BitVec 32}
    (h : Reach Proc.step ok (boot n second) s) : Held s := by
  have : Wf s ∧ Forking s ∧ Held s := h.induct (P := fun s => Wf s ∧ Forking s ∧ Held s)
    ⟨boot_wf n second, boot_forking n second, boot_held n second⟩
    fun _ _ _ ih _ hst => ⟨ih.1.step hst, ih.2.1.step ih.1 hst, ih.2.2.step ih.1 ih.2.1 hst⟩
  exact this.2.2

/-- No process is `c->proc` of two CPUs. -/
theorem Held.unique (hh : Held s) (hs : Wf s) {c c' : Fin (n + 1)} {p : Slot}
    (hc : (s.cpu c).proc = some p) (hc' : (s.cpu c').proc = some p) : c = c' := by
  rw [hh.proc] at hc hc'
  have hmode : ∀ {d}, (s.cpu d).mode.proc = some p → (s.cpu d).mode = .running p ∨
      (s.cpu d).mode.InScheduler ∧ (s.ptable p).state.Left := by
    intro d hd
    cases hm : (s.cpu d).mode with
    | running q => rw [hm] at hd; cases hd; exact Or.inl rfl
    | returned q =>
      rw [hm] at hd
      cases hd
      exact Or.inr ⟨trivial, hs.left d p (Or.inl hm)⟩
    | ended q stop =>
      rw [hm] at hd
      cases hd
      exact Or.inr ⟨trivial, hs.left d p (Or.inr ⟨stop, hm⟩)⟩
    | idle | locked | picked | started => rw [hm] at hd; cases hd
  have hnot : ∀ {d}, (s.cpu d).mode = .running p → ¬ (s.ptable p).state.Left := by
    intro d hd hleft
    have := hs.running d p hd
    rcases hleft with h | h | h <;> rw [this] at h <;> cases h
  rcases hmode hc with hm | ⟨hin, hleft⟩ <;> rcases hmode hc' with hm' | ⟨hin', hleft'⟩
  · exact hs.unique c c' p hm hm'
  · exact absurd hleft' (hnot hm)
  · exact absurd hleft (hnot hm')
  · exact Option.some.inj ((hs.holds c hin).symm.trans (hs.holds c' hin'))

/-! ### From `dispatch` to the adjustment of the priority -/

theorem used_of_proc (hs : Wf s) {c : Fin (n + 1)} {p : Slot} (hc : (s.cpu c).mode.proc = some p) :
    (s.ptable p).state ≠ .unused := by
  have hleft : (s.ptable p).state.Left → (s.ptable p).state ≠ .unused := by
    rintro (h | h | h) <;> rw [h] <;> decide
  cases hm : (s.cpu c).mode with
  | running q =>
    rw [hm] at hc
    cases hc
    rw [hs.running c p hm]
    decide
  | returned q => rw [hm] at hc; cases hc; exact hleft (hs.left c p (Or.inl hm))
  | ended q stop => rw [hm] at hc; cases hc; exact hleft (hs.left c p (Or.inr ⟨stop, hm⟩))
  | idle | locked | picked | started => rw [hm] at hc; cases hc

/-- A CPU keeps the process it has in hand until it adjusts its priority. -/
theorem proc_of_step_ne (h : step s e = some s') {c : Fin (n + 1)} {p : Slot}
    (hc : (s.cpu c).mode.proc = some p) (he : e ≠ .feedback c) :
    (s'.cpu c).mode.proc = some p := by
  have hcpu := CpuStep.of_step h c
  generalize s'.cpu c = k at hcpu ⊢
  cases hcpu with
  | same | timer | tickWakeup | timerEnd | timerExit => exact hc
  | acquire hm | giveUp hm | pick q hm | readStart q hm | dispatch q hm => rw [hm] at hc; cases hc
  | leave e q hm | readEnd q hm => rw [hm] at hc; exact hc
  | feedback => exact absurd rfl he

/-- **A time slice is spent on one process.** While a CPU has process `p` in hand, `p` keeps its
slot and its pid. -/
theorem slice_of_run {t : State n} {es : List (Event n)} {c : Fin (n + 1)} {p : Slot} (hs : Wf s)
    (hc : (s.cpu c).mode.proc = some p) (hr : run step s es = some t)
    (hne : ∀ e ∈ es, e ≠ .feedback c) :
    (t.cpu c).mode.proc = some p ∧ (t.ptable p).state ≠ .unused ∧
      (t.ptable p).pid = (s.ptable p).pid := by
  have hrun : Wf t ∧ ((∀ e ∈ es, e ≠ .feedback c) → (t.cpu c).mode.proc = some p ∧
      (t.ptable p).pid = (s.ptable p).pid) := by
    refine run_induct (P := fun es t => Wf t ∧ ((∀ e ∈ es, e ≠ .feedback c) →
      (t.cpu c).mode.proc = some p ∧ (t.ptable p).pid = (s.ptable p).pid)) hr
      ⟨hs, fun _ => ⟨hc, rfl⟩⟩ fun es e t t' ih hst => ⟨ih.1.step hst, fun hall => ?_⟩
    obtain ⟨hproc, hpid⟩ := ih.2 fun e he => hall e (List.mem_append_left _ he)
    have hproc' := proc_of_step_ne hst hproc (hall e (by simp))
    refine ⟨hproc', ?_⟩
    rw [pid_of_used ih.1 hst (used_of_proc ih.1 hproc) (used_of_proc (ih.1.step hst) hproc'), hpid]
  obtain ⟨hwf, h⟩ := hrun
  obtain ⟨hproc, hpid⟩ := h hne
  exact ⟨hproc, used_of_proc hwf hproc, hpid⟩

/-- Who runs where. -/
structure OneCpu (s : State n) : Prop where
  /-- A process is `c->proc` of at most one CPU. -/
  unique : ∀ c c' p, (s.cpu c).proc = some p → (s.cpu c').proc = some p → c = c'
  /-- While the lock is free, the `RUNNING` processes are those that are `c->proc` of some CPU. -/
  running : s.lock = none → ∀ p, (s.ptable p).state = .running ↔ ∃ c, (s.cpu c).proc = some p
  /-- A `RUNNABLE` process can be switched to. -/
  equipped : ∀ p, (s.ptable p).state = .runnable →
    (s.ptable p).kstack = true ∧ (s.ptable p).pgdir = true
  /-- The priority that `scheduler` adjusts after `swtch` is that of the process it has switched to:
  the slot has been in use, under the same pid, all the time. -/
  slice : ∀ c p s₁ es s₂ s₃, (s.cpu c).mode = .started p → step s (.dispatch c) = some s₁ →
    run step s₁ es = some s₂ → (∀ e ∈ es, e ≠ .feedback c) → step s₂ (.feedback c) = some s₃ →
    (∀ q, q ≠ p → s₃.ptable q = s₂.ptable q) ∧
      s₃.ptable p = { s₂.ptable p with prio := (s₃.ptable p).prio } ∧
      (s₃.ptable p).pid = (s.ptable p).pid ∧
      ∀ es₁ t, es₁ <+: es → run step s₁ es₁ = some t →
        (t.ptable p).state ≠ .unused ∧ (t.ptable p).pid = (s.ptable p).pid

/-- **One CPU per process**, in every state that any interleaving on any number of CPUs reaches. -/
theorem one_cpu_per_process {second : BitVec 32}
    (hreach : Reach step (fun _ _ => True) (boot n second) s) : OneCpu s := by
  have hs := Wf.of_reach hreach
  have hh := Held.of_reach hreach
  refine ⟨fun c c' p => hh.unique hs, fun hl p => ⟨fun hp => ?_, ?_⟩, fun p hp => ?_,
    fun c p s₁ es s₂ s₃ hm h₁ hr hne h₃ => ?_⟩
  · obtain ⟨c, hm⟩ := hh.running p hp
    exact ⟨c, by rw [hh.proc, hm]; rfl⟩
  · rintro ⟨c, hc⟩
    rw [hh.proc] at hc
    have hout : ¬ (s.cpu c).mode.InScheduler := by
      intro hin
      have := hs.holds c hin
      rw [hl] at this
      cases this
    cases hmode : (s.cpu c).mode with
    | running q => rw [hmode] at hc; cases hc; exact hs.running c p hmode
    | idle => rw [hmode] at hc; cases hc
    | locked | picked | started | returned | ended => rw [hmode] at hout; exact absurd trivial hout
  · exact hh.equipped p (by rw [hp]; decide) (by rw [hp]; decide)
  · have hs₁ := hs.step h₁
    have hstart : (s₁.cpu c).mode.proc = some p ∧ (s₁.ptable p).pid = (s.ptable p).pid := by
      cases Step.of_step h₁ with
      | dispatch _ q hq =>
        rw [hm] at hq
        cases hq
        exact ⟨by simp [Mode.proc], by simp⟩
    have hslice : ∀ {es₁ t}, es₁ <+: es → run step s₁ es₁ = some t →
        (t.cpu c).mode.proc = some p ∧ (t.ptable p).state ≠ .unused ∧
          (t.ptable p).pid = (s.ptable p).pid := by
      intro es₁ t hpre ht
      rw [← hstart.2]
      exact slice_of_run hs₁ hstart.1 ht fun e he => hne e (hpre.subset he)
    obtain ⟨hproc, -, hpid⟩ := hslice (List.prefix_refl es) hr
    cases Step.of_step h₃ with
    | feedback _ q stop hq =>
      rw [hq] at hproc
      cases hproc
      refine ⟨fun r hr => PTable.set_of_ne _ _ hr, by simp, by simpa using hpid, ?_⟩
      exact fun es₁ t hpre ht => (hslice hpre ht).2

/-- The first process forks on CPU `0`, and CPU `1` runs the child. -/
theorem one_cpu_per_process_forked : ∃ s : State 1, run step (boot 1 0)
      (lockEvents 0 ++ roundEvents 0 ++ forkEvents 0 0 ++ lockEvents 1 ++ roundEvents 1) = some s ∧
    (s.cpu 0).mode = .running 0 ∧ (s.cpu 1).mode = .running 1 ∧ OneCpu s := by
  obtain ⟨s, hs, h0, h1⟩ := exists_of_any step (boot 1 0)
    (lockEvents 0 ++ roundEvents 0 ++ forkEvents 0 0 ++ lockEvents 1 ++ roundEvents 1)
    (fun s => (s.cpu 0).mode = .running 0 ∧ (s.cpu 1).mode = .running 1) (by decide +kernel)
  exact ⟨s, hs, h0, h1, one_cpu_per_process (reach_of_run hs)⟩

end Proc

end Xv6
