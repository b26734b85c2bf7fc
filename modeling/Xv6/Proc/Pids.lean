import Xv6.Proc.Slots
import Xv6.Proc.Capacity

/-!
# Pids

`allocproc` takes the pid of a new process from `nextpid`, a 32-bit counter that nothing else writes
and that is never compared with the pids in use. As long as the counter has not passed `2³¹` all is
well: pids are handed out in increasing order. A machine that may call `allocproc` once more hands
out a negative pid, and a machine that runs for `2³²` calls hands out the pid of the first process,
which never exits.

The long executions are made of generations. In each of them the first process creates a child and
waits for it, and the child exits at once, so that the table ends up as it was, with `nextpid` one
further.

## Main definitions

* `PidsIdentify` — pids in use are distinct, and `fork` returns a positive pid
* `PidsBelow` — the pids in use have been handed out by the counter, each once
* `generation` — the first process creates a child and collects it

## Main results

* `PidsBelow.of_run` — the invariant, for runs with few calls of `allocproc`
* `run_generations` — any number of generations after the machine has started
* `pids_identify_iff`
-/

namespace Xv6

namespace Proc

open State Transition

variable {n : ℕ}

/-- Processes have distinct pids, and if a `fork` is about to return to the parent then it returns a
positive pid. -/
def PidsIdentify (s : State n) : Prop :=
  (∀ p q, (s.ptable p).state ≠ .unused → (s.ptable q).state ≠ .unused →
      (s.ptable p).pid = (s.ptable q).pid → p = q) ∧
    ∀ c p s', s.work c = some p → step s (.forkRunnable c) = some s' → 0 < (s'.thread p).ret.toInt

/-! ### The counter -/

section Counter

variable {s s' : State n} {e : Event n}

theorem nextpid_of_step (h : step s e = some s') (he : e.isAlloc = false) :
    s'.nextpid = s.nextpid := by
  have hwait : ∀ (t : State n) (c : Fin (n + 1)) (p : Slot),
      (t.waitStep c p).nextpid = t.nextpid := by
    intro t c p
    unfold waitStep
    cases waitScan t.ptable p <;> rfl
  cases Step.of_step h with
  | alloc => cases he
  | resumeWait c p hm hl hr => exact hwait ..
  | wait c p hw ha hl => exact hwait ..
  | _ => rfl

/-- Only `allocproc` changes the pids in use, other than by taking them out of use. -/
theorem pid_of_step (hs : Wf s) (h : step s e = some s') (he : e.isAlloc = false) {p : Slot}
    (hu' : (s'.ptable p).state ≠ .unused) :
    (s.ptable p).state ≠ .unused ∧ (s'.ptable p).pid = (s.ptable p).pid := by
  have hlive : live s'.ptable ⊆ live s.ptable :=
    (live_step hs h).resolve_right (by rintro ⟨⟨c, second, rfl⟩, -⟩; cases he)
  have hu : (s.ptable p).state ≠ .unused := mem_live.mp (hlive (mem_live.mpr hu'))
  exact ⟨hu, pid_of_used hs h hu hu'⟩

theorem alloc_of_step {c : Fin (n + 1)} {second : BitVec 32}
    (h : step s (.allocproc c second) = some s') :
    (s'.ptable = s.ptable ∧ s'.nextpid = s.nextpid) ∨
      ∃ np, s'.ptable = allocprocTable s.ptable np s.nextpid second ∧
        s'.nextpid = s.nextpid + 1#32 := by
  cases Step.of_step h with
  | allocFail => exact Or.inl ⟨rfl, rfl⟩
  | alloc _ p np _ hw ha hl hn => exact Or.inr ⟨np, rfl, rfl⟩

/-- After `k` calls of `allocproc`: the counter has moved by at most `k`, and the pids in use are
distinct and have been passed by the counter. -/
structure PidsBelow (k : ℕ) (s : State n) : Prop where
  two_le : 2 ≤ s.nextpid.toNat
  le : s.nextpid.toNat ≤ k + 2
  range : ∀ p, (s.ptable p).state ≠ .unused →
    0 < (s.ptable p).pid.toNat ∧ (s.ptable p).pid.toNat < s.nextpid.toNat
  distinct : ∀ p q, (s.ptable p).state ≠ .unused → (s.ptable q).state ≠ .unused →
    (s.ptable p).pid = (s.ptable q).pid → p = q

theorem boot_pidsBelow (n : ℕ) (second : BitVec 32) : PidsBelow 0 (boot n second) := by
  have hzero : ∀ p, ((boot n second).ptable p).state ≠ .unused → p = 0 := by
    intro p hp
    by_contra hne
    rw [boot_ptable_of_ne n second hne] at hp
    exact hp rfl
  refine ⟨by simp [boot], by simp [boot], fun p hp => ?_, fun p q hp hq _ => ?_⟩
  · rw [hzero p hp]
    simp [boot, initcode]
  · rw [hzero p hp, hzero q hq]

theorem PidsBelow.mono {k l : ℕ} (h : PidsBelow k s) (hkl : k ≤ l) : PidsBelow l s :=
  { h with le := h.le.trans (by omega) }

/-- A step that does not allocate. -/
theorem PidsBelow.keep {k : ℕ} (h : PidsBelow k s) (hs : Wf s) (hst : step s e = some s')
    (he : e.isAlloc = false) : PidsBelow k s' := by
  have hnext := nextpid_of_step hst he
  refine ⟨hnext ▸ h.two_le, hnext ▸ h.le, fun p hp => ?_, fun p q hp hq heq => ?_⟩
  · obtain ⟨hu, hpid⟩ := pid_of_step hs hst he hp
    rw [hpid, hnext]
    exact h.range p hu
  · obtain ⟨hup, hpid⟩ := pid_of_step hs hst he hp
    obtain ⟨huq, hqid⟩ := pid_of_step hs hst he hq
    exact h.distinct p q hup huq (by rw [← hpid, ← hqid, heq])

/-- A call of `allocproc`, with room left below `2³²`. -/
theorem PidsBelow.alloc {k : ℕ} (h : PidsBelow k s) {c : Fin (n + 1)} {second : BitVec 32}
    (hst : step s (.allocproc c second) = some s') (hk : k + 3 < 2 ^ 32) :
    PidsBelow (k + 1) s' := by
  rcases alloc_of_step hst with ⟨htable, hnext⟩ | ⟨np, htable, hnext⟩
  · have : PidsBelow k s' := ⟨hnext ▸ h.two_le, hnext ▸ h.le, by rw [htable, hnext]; exact h.range,
      by rw [htable]; exact h.distinct⟩
    exact this.mono (Nat.le_succ k)
  have hle := h.le
  have hsucc : s'.nextpid.toNat = s.nextpid.toNat + 1 := by
    rw [hnext, BitVec.toNat_add]
    exact Nat.mod_eq_of_lt (by simp; omega)
  have hnew : (s'.ptable np).pid = s.nextpid := by rw [htable, allocprocTable, PTable.set_self]
  have hold : ∀ p, p ≠ np → s'.ptable p = s.ptable p := fun p hp => by
    rw [htable, allocprocTable, PTable.set_of_ne _ _ hp]
  -- the new pid is above all those in use
  have hfresh : ∀ p, p ≠ np → (s'.ptable p).state ≠ .unused → (s'.ptable p).pid ≠ s.nextpid := by
    intro p hp hu heq
    rw [hold p hp] at hu heq
    exact (h.range p hu).2.ne (congrArg BitVec.toNat heq)
  refine ⟨by have := h.two_le; omega, by omega, fun p hu => ?_, fun p q hp hq heq => ?_⟩
  · by_cases hp : p = np
    · subst hp
      have := h.two_le
      rw [hnew, hsucc]
      omega
    · rw [hold p hp] at hu ⊢
      have := h.range p hu
      omega
  · by_cases hpn : p = np
    · by_cases hqn : q = np
      · rw [hpn, hqn]
      · exact absurd (heq.symm.trans (hpn ▸ hnew)) (hfresh q hqn hq)
    · by_cases hqn : q = np
      · exact absurd (heq.trans (hqn ▸ hnew)) (hfresh p hpn hp)
      · rw [hold p hpn] at hp heq
        rw [hold q hqn] at hq heq
        exact h.distinct p q hp hq heq

end Counter

/-- **The invariant along a run** with fewer than `2³² - 3` calls of `allocproc`. -/
theorem PidsBelow.of_run {second : BitVec 32} {es : List (Event n)} {s : State n}
    (hr : run step (boot n second) es = some s) (hc : es.countP Event.isAlloc + 3 < 2 ^ 32) :
    PidsBelow (es.countP Event.isAlloc) s := by
  have : Wf s ∧ (es.countP Event.isAlloc + 3 < 2 ^ 32 →
      PidsBelow (es.countP Event.isAlloc) s) := by
    refine run_induct (P := fun es s => Wf s ∧ (es.countP Event.isAlloc + 3 < 2 ^ 32 →
      PidsBelow (es.countP Event.isAlloc) s)) hr
      ⟨boot_wf n second, fun _ => boot_pidsBelow n second⟩ fun es e t t' ih hst => ?_
    refine ⟨ih.1.step hst, fun hc => ?_⟩
    rw [List.countP_append, List.countP_singleton] at hc ⊢
    have hbelow := ih.2 (by omega)
    by_cases he : e.isAlloc = true
    · rw [if_pos he] at hc ⊢
      cases e with
      | allocproc c second' => exact hbelow.alloc hst (by omega)
      | _ => cases he
    · rw [if_neg he]
      exact hbelow.keep ih.1 hst (by simpa using he)
  exact this.2 hc

/-- Below `2³¹` the counter does what it should. -/
theorem PidsBelow.identify {k : ℕ} {s : State n} (h : PidsBelow k s) (hs : Wf s)
    (hk : k ≤ 2 ^ 31 - 2) : PidsIdentify s := by
  refine ⟨h.distinct, fun c p s' hw hst => ?_⟩
  cases Step.of_step hst with
  | forkRunnable _ q np hq ha hl =>
    obtain rfl : q = p := by rw [hw] at hq; exact (Option.some.inj hq).symm
    have hused : (s.ptable np).state ≠ .unused := by
      rw [hs.child q np (by rw [ha]; rfl)]
      decide
    obtain ⟨hpos, hlt⟩ := h.range np hused
    have hle := h.le
    have hret : ((((s.setProc np { s.ptable np with state := .runnable }).setRet q
        (s.ptable np).pid).thread q).ret) = (s.ptable np).pid := by
      simp [setRet, setThread]
    rw [hret, BitVec.toInt_eq_toNat_of_lt (by omega)]
    exact_mod_cast hpos

/-! ### Generations -/

/-- Only the first process exists, and it runs. -/
structure Home (t : PTable) (th : Slot → Thread) : Prop where
  first : (t 0).state = .running ∧ (t 0).pid = 1 ∧ (t 0).parent = none ∧ (t 0).killed = false ∧
    (t 0).prio.toNat ≤ 20
  act : (th 0).act = .user
  rest : ∀ p, p ≠ 0 → (t p).state = .unused ∧ (t p).parent = none

/-- The first process sleeps in `wait`, and its only child, in the second slot, runs. -/
structure Raising (pid : BitVec 32) (t : PTable) (th : Slot → Thread) : Prop where
  first : (t 0).state = .sleeping ∧ (t 0).pid = 1 ∧ (t 0).parent = none ∧ (t 0).killed = false ∧
    (t 0).prio.toNat ≤ 20
  chan : (t 0).chan = some (.proc 0)
  resume : (th 0).resume = .waiting
  child : (t 1).state = .running ∧ (t 1).pid = pid ∧ (t 1).parent = some 0
  act : (th 1).act = .user
  rest : ∀ p, p ≠ 0 → p ≠ 1 → (t p).state = .unused ∧ (t p).parent = none

/-- The first process has been woken in `wait`, and its only child, in the second slot, is a
zombie. -/
structure Collecting (pid : BitVec 32) (t : PTable) (th : Slot → Thread) : Prop where
  first : (t 0).state = .running ∧ (t 0).pid = 1 ∧ (t 0).parent = none ∧ (t 0).killed = false ∧
    (t 0).prio.toNat ≤ 20
  resume : (th 0).resume = .waiting
  child : (t 1).state = .zombie ∧ (t 1).pid = pid ∧ (t 1).parent = some 0
  rest : ∀ p, p ≠ 0 → p ≠ 1 → (t p).state = .unused ∧ (t p).parent = none

section Generation

variable {t : PTable} {th : Slot → Thread} (ticks nextpid second : BitVec 32)

theorem Home.allocprocScan (h : Home t th) : allocprocScan t = some 1 := by
  refine find?_slots_eq_some.mpr ⟨by simpa using (h.rest 1 (by decide)).1, fun q hq => ?_⟩
  obtain rfl : q = 0 := Fin.ext (Nat.lt_one_iff.mp hq)
  simp [h.first.1]

theorem feedback_le_twenty {start stop prio : BitVec 32} (h : prio.toNat ≤ 20) :
    (feedback start stop prio).toNat ≤ 20 :=
  (feedback_toNat_le start stop prio).trans (by omega)

/-- The first process creates a child and waits; the child starts. -/
theorem run_raise (h : Home t th) : ∃ t' th',
    run step (soloRunning (n := n) 0 t th ticks nextpid ticks 0)
        (forkEvents 0 second ++ waitEvents 0 ++ lockEvents 0 ++ roundEvents 0) =
      some (soloRunning 0 t' th' ticks (nextpid + 1#32) ticks 1) ∧ Raising nextpid t' th' := by
  have hne : (0 : Slot) ≠ 1 := by decide
  obtain ⟨hrun, hpid, hpar, hkill, hprio⟩ := h.first
  -- the table and the threads after `fork`
  obtain ⟨t₁, ht₁⟩ : ∃ t₁, t₁ = t.set 1 { t 1 with
    state := .runnable, pid := nextpid, prio := initialPrio second, kstack := true
    pgdir := true, parent := some 0 } := ⟨_, rfl⟩
  obtain ⟨th₁, hth₁⟩ : ∃ th₁, th₁ = Function.update (Function.update th 1 ⟨.user, .forkret, 0⟩) 0
    { th 0 with act := .user, ret := nextpid } := ⟨_, rfl⟩
  have hfork := run_fork (n := n) 0 ticks nextpid ticks second h.act h.allocprocScan hne.symm
  rw [← ht₁, ← hth₁] at hfork
  have h0 : t₁ 0 = t 0 := by rw [ht₁, PTable.set_of_ne _ _ hne]
  have h1 : (t₁ 1).state = .runnable ∧ (t₁ 1).pid = nextpid ∧ (t₁ 1).parent = some 0 ∧
      (t₁ 1).prio = initialPrio second := by rw [ht₁, PTable.set_self]; exact ⟨rfl, rfl, rfl, rfl⟩
  have hrest : ∀ p, p ≠ 0 → p ≠ 1 → (t₁ p).state = .unused ∧ (t₁ p).parent = none :=
    fun p hp hp' => by rw [ht₁, PTable.set_of_ne _ _ hp']; exact h.rest p hp
  have hth : (th₁ 0).act = .user ∧ th₁ 1 = ⟨.user, .forkret, 0⟩ := by
    rw [hth₁, Function.update_self, Function.update_of_ne hne.symm, Function.update_self]
    exact ⟨rfl, rfl⟩
  have hscan : waitScan t₁ 0 = .sleeps := by
    refine waitScan_eq_sleeps (fun p hp => ?_) h1.2.2.1 (by rw [h0, hkill])
    rcases eq_or_ne p 1 with rfl | hp'
    · rw [h1.1]; decide
    · rcases eq_or_ne p 0 with rfl | hp₀
      · rw [h0, hrun]; decide
      · rw [(hrest p hp₀ hp').1]; decide
  have hwait := run_waitSleeps (n := n) 0 ticks (nextpid + 1#32) hth.1 hscan
  -- the table when the parent sleeps
  obtain ⟨t₂, ht₂⟩ : ∃ t₂, t₂ = t₁.set 0 { t₁ 0 with
    chan := some (.proc 0), state := .sleeping, prio := feedback ticks ticks (t₁ 0).prio } :=
    ⟨_, rfl⟩
  rw [← ht₂] at hwait
  have h2 : ∀ p, p ≠ 0 → t₂ p = t₁ p := fun p hp => by rw [ht₂, PTable.set_of_ne _ _ hp]
  have hsecond := Nat.mod_lt second.toNat (show 0 < 10 by decide)
  have hround := run_round (n := n) 0
    (Function.update th₁ 0 { th₁ 0 with resume := .waiting }) ticks (nextpid + 1#32) ticks
    (t := t₂) (p := 1) (by rw [h2 1 hne.symm]; exact h1.1)
    (by rw [h2 1 hne.symm, h1.2.2.2, initialPrio_toNat]; omega)
    (fun q hq hq1 => by
      rcases eq_or_ne q 0 with rfl | hq0
      · rw [ht₂, PTable.set_self] at hq; cases hq
      · rw [h2 q hq0, (hrest q hq0 hq1).1] at hq; cases hq)
    (by rw [Function.update_of_ne hne.symm, hth.2])
    (Or.inl (by rw [Function.update_of_ne hne.symm, hth.2]))
  refine ⟨_, _, Eq.trans ?_ hround, ?_⟩
  · rw [run_append, run_append, run_append, hfork, Option.bind_some, hwait, Option.bind_some,
      run_acquire, Option.bind_some]
  · refine ⟨?_, ?_, by simp, ?_, by rw [Function.update_of_ne hne.symm, hth.2], fun p hp hp' => ?_⟩
    · rw [PTable.set_of_ne _ _ hne, ht₂, PTable.set_self, h0]
      exact ⟨rfl, hpid, hpar, hkill, feedback_le_twenty hprio⟩
    · rw [PTable.set_of_ne _ _ hne, ht₂, PTable.set_self]
    · rw [PTable.set_self, h2 1 hne.symm]
      exact ⟨rfl, h1.2.1, h1.2.2.1⟩
    · rw [PTable.set_of_ne _ _ hp', h2 p hp]
      exact hrest p hp hp'

/-- The child exits, which wakes the first process in `wait`. -/
theorem run_childExit {pid : BitVec 32} (h : Raising pid t th) : ∃ t' th',
    run step (soloRunning (n := n) 0 t th ticks nextpid ticks 1)
        (exitEvents 0 ++ lockEvents 0 ++ switchEvents 0) =
      some (soloSwitched 0 t' th' ticks nextpid 0) ∧ Collecting pid t' th' := by
  have hne : (0 : Slot) ≠ 1 := by decide
  obtain ⟨hsl, hpid, hpar, hkill, hprio⟩ := h.first
  obtain ⟨hrun, hcpid, hcpar⟩ := h.child
  obtain ⟨hzombie, hother⟩ := exitTable_state t 0 1
  -- no process has the child as its parent
  have hheir : ∀ p, heir 0 1 (t p).parent = (t p).parent := by
    intro p
    refine if_neg ?_
    rcases eq_or_ne p 0 with rfl | hp
    · rw [hpar]; nofun
    · rcases eq_or_ne p 1 with rfl | hp'
      · rw [hcpar]; decide
      · rw [(h.rest p hp hp').2]; nofun
  have hx : ∀ p, exitTable t 0 1 p = { t p with state := (exitTable t 0 1 p).state } := by
    intro p
    conv_lhs => rw [exitTable_eq, hheir]
  have hawake : (exitTable t 0 1 0).state = .runnable := by
    rcases hother 0 hne with heq | ⟨-, hr⟩
    · exact absurd (heq.trans hsl) (exitTable_parent_awake hcpar h.chan)
    · exact hr
  have hunused : ∀ p, p ≠ 0 → p ≠ 1 → (exitTable t 0 1 p).state = .unused := by
    intro p hp hp'
    rcases hother p hp' with heq | ⟨hs, -⟩
    · rw [heq, (h.rest p hp hp').1]
    · rw [(h.rest p hp hp').1] at hs; cases hs
  have hexit := run_exit (n := n) 0 ticks nextpid (t := t) h.act hne.symm
  obtain ⟨u, hu⟩ : ∃ u, u = (exitTable t 0 1).set 1 { exitTable t 0 1 1 with
    prio := feedback ticks ticks (exitTable t 0 1 1).prio } := ⟨_, rfl⟩
  rw [← hu] at hexit
  have hu0 : ∀ p, p ≠ 1 → u p = exitTable t 0 1 p := fun p hp => by
    rw [hu, PTable.set_of_ne _ _ hp]
  have hdispatch := run_dispatch (n := n) 0
    (Function.update th 1 { th 1 with resume := .yielded }) ticks nextpid ticks
    (t := u) (p := 0) (by rw [hu0 0 hne, hawake])
    (by rw [hu0 0 hne, exitTable_prio]; exact hprio)
    (fun q hq hq0 => by
      rcases eq_or_ne q 1 with rfl | hq1
      · rw [hu, PTable.set_self] at hq
        exact absurd (hq.symm.trans hzombie) (by decide)
      · rw [hu0 q hq1, hunused q hq0 hq1] at hq; cases hq)
  refine ⟨_, _, Eq.trans ?_ hdispatch, ?_⟩
  · rw [run_append, run_append, hexit, Option.bind_some, run_acquire, Option.bind_some]
  · refine ⟨?_, ?_, ?_, fun p hp hp' => ?_⟩
    · rw [PTable.set_self, hu0 0 hne, hx]
      exact ⟨rfl, hpid, hpar, hkill, hprio⟩
    · rw [Function.update_of_ne hne]
      exact h.resume
    · rw [PTable.set_of_ne _ _ hne.symm, hu, PTable.set_self]
      refine ⟨hzombie, ?_, ?_⟩
      · rw [hx]; exact hcpid
      · rw [hx]; exact hcpar
    · rw [PTable.set_of_ne _ _ hp, hu0 p hp']
      refine ⟨hunused p hp hp', ?_⟩
      rw [hx]
      exact (h.rest p hp hp').2

/-- The first process collects the child and returns its pid. -/
theorem run_collect {pid : BitVec 32} (h : Collecting pid t th) : ∃ t' th',
    run step (soloSwitched (n := n) 0 t th ticks nextpid 0) [.resume 0] =
      some (soloRunning 0 t' th' ticks nextpid ticks 0) ∧ Home t' th' ∧ (th' 0).ret = pid := by
  have hne : (0 : Slot) ≠ 1 := by decide
  obtain ⟨hrun, hpid, hpar, hkill, hprio⟩ := h.first
  obtain ⟨hzombie, hcpid, hcpar⟩ := h.child
  obtain ⟨u, hu⟩ : ∃ u, u = t.set 0 { t 0 with chan := none } := ⟨_, rfl⟩
  have hu0 : u 0 = { t 0 with chan := none } := by rw [hu, PTable.set_self]
  have hur : ∀ p, p ≠ 0 → u p = t p := fun p hp => by rw [hu, PTable.set_of_ne _ _ hp]
  have hscan : waitScan u 0 = .reaped 1 pid := by
    have hreaped : waitScan u 0 = .reaped 1 (u 1).pid := by
      refine waitScan_eq_reaped (by rw [hur 1 hne.symm, hcpar]) (by rw [hur 1 hne.symm, hzombie])
        fun q hq hq' => ?_
      obtain rfl : q = 0 := Fin.ext (Nat.lt_one_iff.mp hq)
      rw [hu0] at hq'
      exact absurd (hpar.symm.trans hq') nofun
    rw [hreaped, hur 1 hne.symm, hcpid]
  have hreap := run_resumeReaps (n := n) 0 ticks nextpid (t := t) h.resume (hu ▸ hscan)
  rw [← hu] at hreap
  refine ⟨_, _, hreap, ⟨?_, by simp, fun p hp => ?_⟩, by simp⟩
  · rw [PTable.set_of_ne _ _ hne, hu0]
    exact ⟨hrun, hpid, hpar, hkill, hprio⟩
  · rcases eq_or_ne p 1 with rfl | hp'
    · rw [PTable.set_self]
      exact ⟨rfl, rfl⟩
    · rw [PTable.set_of_ne _ _ hp', hur p hp]
      exact h.rest p hp hp'

/-- The first process creates a child, waits, and is switched to when the child has exited. -/
def childLife : List (Event n) :=
  (forkEvents 0 second ++ waitEvents 0 ++ lockEvents 0 ++ roundEvents 0) ++
    (exitEvents 0 ++ lockEvents 0 ++ switchEvents 0)

/-- The first process creates a child and collects it. -/
def generation : List (Event n) := childLife second ++ [.resume 0]

theorem run_childLife (h : Home t th) : ∃ t' th',
    run step (soloRunning (n := n) 0 t th ticks nextpid ticks 0) (childLife second) =
      some (soloSwitched 0 t' th' ticks (nextpid + 1#32) 0) ∧ Collecting nextpid t' th' := by
  obtain ⟨t₁, th₁, hraise, h₁⟩ := run_raise (n := n) ticks nextpid second h
  obtain ⟨t₂, th₂, hexit, h₂⟩ := run_childExit (n := n) ticks (nextpid + 1#32) h₁
  exact ⟨t₂, th₂, by rw [childLife, run_append, hraise, Option.bind_some, hexit], h₂⟩

theorem run_generation (h : Home t th) : ∃ t' th',
    run step (soloRunning (n := n) 0 t th ticks nextpid ticks 0) (generation second) =
      some (soloRunning 0 t' th' ticks (nextpid + 1#32) ticks 0) ∧ Home t' th' := by
  obtain ⟨t₁, th₁, hlife, h₁⟩ := run_childLife (n := n) ticks nextpid second h
  obtain ⟨t₂, th₂, hcollect, h₂, -⟩ := run_collect (n := n) ticks (nextpid + 1#32) h₁
  exact ⟨t₂, th₂, by rw [generation, run_append, hlife, Option.bind_some, hcollect], h₂⟩

end Generation

/-- The machine starts, and `k` generations pass. -/
def generations (k : ℕ) : List (Event n) :=
  (lockEvents 0 ++ roundEvents 0) ++ (List.replicate k (generation 0)).flatten

/-- **Any number of generations.** Each moves the counter by one and leaves the rest as it was. -/
theorem run_generations (n : ℕ) (second : BitVec 32) (k : ℕ) : ∃ t th,
    run step (boot n second) (generations k) =
      some (soloRunning 0 t th 0 (2#32 + BitVec.ofNat 32 k) 0 0) ∧ Home t th := by
  induction k with
  | zero =>
    refine ⟨_, _, run_start n second, ⟨?_, rfl, fun p hp => ?_⟩⟩
    · have h := initialPrio_toNat second
      have hmod := Nat.mod_lt second.toNat (show 0 < 10 by decide)
      rw [PTable.set_self]
      exact ⟨rfl, rfl, rfl, rfl, by change (initialPrio second).toNat ≤ 20; omega⟩
    · rw [PTable.set_of_ne _ _ hp]
      exact ⟨rfl, rfl⟩
  | succ k ih =>
    obtain ⟨t, th, hrun, hhome⟩ := ih
    obtain ⟨t', th', hgen, hhome'⟩ := run_generation (n := n) 0 (2#32 + BitVec.ofNat 32 k) 0 hhome
    refine ⟨t', th', ?_, hhome'⟩
    have hsplit : (generations (k + 1) : List (Event n)) = generations k ++ generation 0 := by
      rw [generations, generations, List.replicate_succ', List.flatten_append,
        List.flatten_singleton, ← List.append_assoc]
    have hnext : 2#32 + BitVec.ofNat 32 (k + 1) = 2#32 + BitVec.ofNat 32 k + 1#32 := by
      rw [BitVec.ofNat_add k 1, BitVec.add_assoc]
    rw [hsplit, run_append, hrun, Option.bind_some, hgen, hnext]

theorem countP_generations (k : ℕ) :
    (generations k : List (Event n)).countP Event.isAlloc = k := by
  simp [generations, generation, childLife, forkEvents, List.countP_flatten, List.countP_cons,
    Event.isAlloc]

/-! ### The counter wraps -/

theorem work_of_forkRunnable {s s' : State n} {c : Fin (n + 1)}
    (h : step s (.forkRunnable c) = some s') : ∃ p, s.work c = some p ∧ s'.cpu = s.cpu := by
  cases Step.of_step h with
  | forkRunnable _ p np hw ha hl => exact ⟨p, hw, rfl⟩

/-- After `k` generations the first process creates one more child, up to the point where `fork`
returns. -/
def oneMore (k : ℕ) : List (Event n) :=
  generations k ++ [.allocproc 0 0, .kalloc 0 true, .copyuvm 0 true]

/-- The `k + 1`-st child gets whatever pid the counter has come to, and `fork` returns it. -/
theorem run_oneMore (n : ℕ) (second : BitVec 32) (k : ℕ) : ∃ s s' : State n,
    run step (boot n second) (oneMore k) = some s ∧ step s (.forkRunnable 0) = some s' ∧
      s.work 0 = some 0 ∧ (s'.thread 0).ret = 2#32 + BitVec.ofNat 32 k ∧
      (s'.ptable 0).state = .running ∧ (s'.ptable 0).pid = 1 ∧
      (s'.ptable 1).state = .runnable ∧ (s'.ptable 1).pid = 2#32 + BitVec.ofNat 32 k := by
  have hne : (0 : Slot) ≠ 1 := by decide
  obtain ⟨t, th, hrun, hhome⟩ := run_generations n second k
  have hfork := run_fork (n := n) 0 0 (2#32 + BitVec.ofNat 32 k) 0 0 hhome.act hhome.allocprocScan
    hne.symm
  have hsplit : (forkEvents 0 0 : List (Event n)) =
      [.allocproc 0 0, .kalloc 0 true, .copyuvm 0 true] ++ [.forkRunnable 0] := rfl
  rw [hsplit] at hfork
  obtain ⟨s, hs, hs'⟩ := (run_append_eq_some step).mp hfork
  obtain ⟨s', hstep, hnil⟩ := (run_cons_eq_some step).mp hs'
  cases hnil
  refine ⟨s, _, by rw [oneMore, run_append, hrun, Option.bind_some, hs], hstep, ?_,
    by simp [soloRunning, solo], ?_⟩
  · obtain ⟨p, hw, hcpu⟩ := work_of_forkRunnable hstep
    have hmode := (mode_of_work hw).1
    rw [← hcpu] at hmode
    simp only [soloRunning, solo, Function.update_self, Mode.running.injEq] at hmode
    rw [hw, hmode]
  · simp only [soloRunning, solo]
    rw [PTable.set_self, PTable.set_of_ne _ _ hne]
    exact ⟨hhome.first.1, hhome.first.2.1, rfl, rfl⟩

/-- **Pids.** Let a run call `allocproc` at most `N` times. Then pids identify processes in every
state reached, and every `fork` returns a positive pid, if and only if `N` is at most `2³¹ - 2`. -/
theorem pids_identify_iff (n : ℕ) (second : BitVec 32) (N : ℕ) :
    (∀ es s, run step (boot n second) es = some s → es.countP Event.isAlloc ≤ N →
      PidsIdentify s) ↔ N ≤ 2 ^ 31 - 2 := by
  constructor
  · intro h
    by_contra hN
    obtain ⟨s, s', hrun, hstep, hw, hret, -⟩ := run_oneMore n second (2 ^ 31 - 2)
    have hcount : (oneMore (2 ^ 31 - 2) : List (Event n)).countP Event.isAlloc = 2 ^ 31 - 1 := by
      rw [oneMore, List.countP_append, countP_generations]
      simp [List.countP_cons, Event.isAlloc]
    have hpos := (h _ s hrun (by rw [hcount]; omega)).2 0 0 s' hw hstep
    rw [hret] at hpos
    exact absurd hpos (by decide)
  · intro hN es s hrun hcount
    exact (PidsBelow.of_run hrun (by omega)).identify (Wf.of_reach (reach_of_run hrun))
      (hcount.trans hN)

/-- On the two CPUs of the Makefile, the child created after `2³² - 1` generations has the pid of
the first process, which is still running, and the child created after `2³¹ - 2` generations has a
negative pid, which is what `fork` returns. -/
theorem pids_clash_after_wrap :
    (∃ s s' : State 1, run step (boot 1 0) (oneMore (2 ^ 32 - 1)) = some s ∧
      step s (.forkRunnable 0) = some s' ∧
      (s'.ptable 0).state = .running ∧ (s'.ptable 1).state = .runnable ∧
      (s'.ptable 0).pid = 1 ∧ (s'.ptable 1).pid = 1 ∧ ¬ PidsIdentify s') ∧
    ∃ s s' : State 1, run step (boot 1 0) (oneMore (2 ^ 31 - 2)) = some s ∧
      s.work 0 = some 0 ∧ step s (.forkRunnable 0) = some s' ∧
      (s'.thread 0).ret.toInt = -2 ^ 31 ∧ ¬ PidsIdentify s := by
  refine ⟨?_, ?_⟩
  · obtain ⟨s, s', hrun, hstep, -, -, hst₀, hpid₀, hst₁, hpid₁⟩ := run_oneMore 1 0 (2 ^ 32 - 1)
    have hone : (s'.ptable 1).pid = 1 := by rw [hpid₁]; decide
    refine ⟨s, s', hrun, hstep, hst₀, hst₁, hpid₀, hone, fun h => ?_⟩
    have := h.1 0 1 (by rw [hst₀]; decide) (by rw [hst₁]; decide) (by rw [hpid₀, hone])
    exact absurd this (by decide)
  · obtain ⟨s, s', hrun, hstep, hw, hret, -⟩ := run_oneMore 1 0 (2 ^ 31 - 2)
    have hneg : (s'.thread 0).ret.toInt = -2 ^ 31 := by rw [hret]; decide
    refine ⟨s, s', hrun, hw, hstep, hneg, fun h => ?_⟩
    have := h.2 0 0 s' hw hstep
    rw [hneg] at this
    exact absurd this (by decide)

end Proc

end Xv6
