import Xv6.Proc.Invariant
import Xv6.Proc.Solo

/-!
# The capacity of `plist`

The table has `NPROC` slots and `plist` only `plistSize`. Every process that goes into `plist` is in
use, so a machine that never holds more than `plistSize` processes never writes past its end. There
is no better bound: a machine that may hold one process more can have all of them `RUNNABLE` at one
priority, because a parent that forks within one second gives all its children the same priority and
the feedback on its own priority can be foreseen.

The read of `plist[sch]` is never the problem. It happens only when `idx` is positive, and then
`sch` is below `idx`, so the slot was written in the same round.

## Main results

* `step_liveCount` — only `allocproc` puts a slot into use
* `plist_in_bounds_iff` — for each limit on the number of processes, every write is in bounds and
  every read is of a slot just written, if and only if the limit is at most `plistSize`
-/

namespace Xv6

namespace Proc

open State Transition

variable {n : ℕ}

/-- The slots that are in use. -/
def live (t : PTable) : Finset Slot := Finset.univ.filter fun p => (t p).state ≠ .unused

/-- How many slots are in use. -/
def liveCount (t : PTable) : ℕ := (live t).card

@[simp] theorem mem_live {t : PTable} {p : Slot} : p ∈ live t ↔ (t p).state ≠ .unused := by
  simp [live]

/-! ### Which steps put a slot into use -/

/-- `wait` reaps a zombie or puts its caller to sleep. -/
theorem live_waitTable {t : PTable} {p : Slot} (hp : (t p).state ≠ .unused) :
    live (waitTable t p) ⊆ live t := by
  intro r hr
  have hr : (waitTable t p r).state ≠ .unused := mem_live.mp hr
  unfold waitTable at hr
  cases hscan : waitScan t p with
  | reaped q pid =>
    simp only [hscan, PTable.set_apply] at hr
    split at hr
    · exact absurd rfl hr
    · exact mem_live.mpr hr
  | failed =>
    simp only [hscan] at hr
    exact mem_live.mpr hr
  | sleeps =>
    simp only [hscan, PTable.set_apply] at hr
    split at hr
    · next hrp => subst hrp; exact mem_live.mpr hp
    · exact mem_live.mpr hr

/-- Only `allocproc` puts a slot into use, and only one. -/
theorem live_step {s s' : State n} {e : Event n} (hs : Wf s) (h : step s e = some s') :
    live s'.ptable ⊆ live s.ptable ∨
      (∃ c second, e = .allocproc c second) ∧ ∃ np, live s'.ptable ⊆ insert np (live s.ptable) := by
  -- a slot that was in use may get any state; the others must keep theirs
  have hset : ∀ {p q}, (s.ptable p).state ≠ .unused →
      live (s.ptable.set p q) ⊆ live s.ptable := by
    intro p q hp r hr
    rw [mem_live, PTable.set_apply] at hr
    split at hr
    · next hrp => subst hrp; exact mem_live.mpr hp
    · exact mem_live.mpr hr
  have hkeep : ∀ {t : PTable}, (∀ r, (t r).state = (s.ptable r).state ∨
      ((s.ptable r).state = .sleeping ∧ (t r).state = .runnable)) → live t ⊆ live s.ptable := by
    intro t ht r hr
    rcases ht r with heq | ⟨hsl, -⟩
    · exact mem_live.mpr (heq ▸ mem_live.mp hr)
    · exact mem_live.mpr (by rw [hsl]; decide)
  have hrun : ∀ {c p}, (s.cpu c).mode = .running p → (s.ptable p).state ≠ .unused := by
    intro c p hm
    rw [hs.running c p hm]
    decide
  have hchild : ∀ {p np}, (s.thread p).act.child = some np → (s.ptable np).state ≠ .unused := by
    intro p np hp
    rw [hs.child p np hp]
    decide
  cases Step.of_step h with
  | alloc c p np second hw ha hl hn =>
    refine Or.inr ⟨⟨c, second, rfl⟩, np, fun r hr => ?_⟩
    have hr : (allocprocTable s.ptable np s.nextpid second r).state ≠ .unused := mem_live.mp hr
    unfold allocprocTable at hr
    rw [PTable.set_apply] at hr
    split at hr
    · next hrp => exact Finset.mem_insert.mpr (Or.inl hrp)
    · exact Finset.mem_insert_of_mem (mem_live.mpr hr)
  | dispatch c p hm =>
    refine Or.inl (hset ?_)
    rw [hs.picked c p (Or.inr hm)]
    decide
  | feedback c p stop hm =>
    refine Or.inl (hset ?_)
    rcases hs.left c p (Or.inr ⟨stop, hm⟩) with h | h | h <;> rw [h] <;> decide
  | resumeSleep c p hm hl hr => exact Or.inl (hset (hrun hm))
  | resumeWait c p hm hl hr =>
    rw [ptable_waitStep]
    refine Or.inl ((live_waitTable ?_).trans (hset (hrun hm)))
    simpa using hrun hm
  | kallocOk c p np hw ha => exact Or.inl (hset (hchild (by rw [ha]; rfl)))
  | kallocFail c p np hw ha => exact Or.inl (hset (hchild (by rw [ha]; rfl)))
  | copyOk c p np hw ha => exact Or.inl (hset (hchild (by rw [ha]; rfl)))
  | copyFail c p np hw ha => exact Or.inl (hset (hchild (by rw [ha]; rfl)))
  | forkRunnable c p np hw ha hl => exact Or.inl (hset (hchild (by rw [ha]; rfl)))
  | exit c p hw ha hp hl =>
    refine Or.inl fun r hr => ?_
    by_cases hrp : r = p
    · subst hrp; exact mem_live.mpr (hrun (mode_of_work hw).1)
    · rcases (exitTable_state s.ptable s.initproc p).2 r hrp with heq | ⟨hsl, -⟩
      · exact mem_live.mpr (heq ▸ mem_live.mp hr)
      · exact mem_live.mpr (by rw [hsl]; decide)
  | wait c p hw ha hl =>
    rw [ptable_waitStep]
    exact Or.inl (live_waitTable (hrun (mode_of_work hw).1))
  | sleep c p chan hw ha hl hc => exact Or.inl (hset (hrun (mode_of_work hw).1))
  | wakeup c chan hl hc => exact Or.inl (hkeep fun r => wakeup1_state ..)
  | tickWakeup c hi hl => exact Or.inl (hkeep fun r => wakeup1_state ..)
  | kill c p pid t hw ha hl hk => exact Or.inl (hkeep fun r => killTable_state hk r)
  | sp c p v t hw ha hl hk => exact Or.inl (hkeep fun r => Or.inl (spTable_state hk r))
  | spYield c p hw ha hl => exact Or.inl (hset (hrun (mode_of_work hw).1))
  | timerYield c p hm hi hl => exact Or.inl (hset (hrun hm))
  | fault c p hw ha => exact Or.inl (hset (hrun (mode_of_work hw).1))
  | _ => exact Or.inl subset_rfl

/-- The number of slots in use never goes beyond a limit that `allocproc` respects. -/
theorem step_liveCount {L : ℕ} {s s' : State n} {e : Event n} (hs : Wf s)
    (h : step s e = some s') (hL : liveCount s.ptable ≤ L)
    (he : ∀ c second, e = .allocproc c second → liveCount s.ptable < L) :
    liveCount s'.ptable ≤ L := by
  rcases live_step hs h with hsub | ⟨⟨c, second, heq⟩, np, hsub⟩
  · exact (Finset.card_le_card hsub).trans hL
  · calc liveCount s'.ptable ≤ (insert np (live s.ptable)).card := Finset.card_le_card hsub
      _ ≤ liveCount s.ptable + 1 := Finset.card_insert_le ..
      _ ≤ L := he c second heq

/-! ### Indices of `plist` -/

/-- In a round of `scheduler`, every write to `plist` is at an index below its size, and if the
round gets as far as reading `plist[sch]` then that slot was written in the same round. -/
def PlistOk (s : State n) : Prop :=
  ∀ c, (s.cpu c).mode = .locked →
    (∀ i p, (i, p) ∈ (schedPlist s.ptable).writes → i < plistSize) ∧
      ((schedPlist s.ptable).idx ≠ 0 →
        ∃ p, (schedSch s.ptable s.ticks, p) ∈ (schedPlist s.ptable).writes)

theorem idx_eq_card (t : PTable) :
    (schedPlist t).idx = (Finset.univ.filter fun p => IsCandidate t p).card := by
  rw [(schedPlist_spec t).2, ← List.toFinset_card_of_nodup (nodup_slots.filter _)]
  congr 1
  ext p
  simp

theorem idx_le_liveCount (t : PTable) : (schedPlist t).idx ≤ liveCount t := by
  rw [idx_eq_card]
  refine Finset.card_le_card fun p hp => ?_
  have hp : IsCandidate t p := (Finset.mem_filter.mp hp).2
  exact mem_live.mpr (by rw [hp.1]; decide)

theorem plistOk_of_idx_le {s : State n} (h : (schedPlist s.ptable).idx ≤ plistSize) :
    PlistOk s := by
  refine fun c _ => ⟨fun i p hp => ?_, fun hne => ?_⟩
  · exact ((schedPlist_index_lt_iff _ i).mp ⟨p, hp⟩).trans_le h
  · exact (schedPlist_index_lt_iff _ _).mpr (Nat.mod_lt _ (Nat.pos_of_ne_zero hne))

/-! ### Runs with few forks -/

/-- A call of `allocproc`. -/
def Event.isAlloc : Event n → Bool
  | .allocproc _ _ => true
  | _ => false

/-- At most `L` slots are in use whenever a process is created. -/
def Limit (n L : ℕ) (s : State n) (e : Event n) : Prop := e.isAlloc = true → liveCount s.ptable < L

theorem liveCount_boot (n : ℕ) (second : BitVec 32) : liveCount (boot n second).ptable = 1 := by
  have : live (boot n second).ptable = {0} := by
    ext p
    rw [mem_live, Finset.mem_singleton]
    by_cases hp : p = 0
    · subst hp; simp [boot, initcode]
    · simp [boot, hp, PTable.set_of_ne, zero]
  rw [liveCount, this, Finset.card_singleton]

/-- A run with fewer than `L` calls of `allocproc` never has more than `L` slots in use. -/
theorem reach_of_countP {L : ℕ} {second : BitVec 32} {es : List (Event n)} {s : State n}
    (hr : run step (boot n second) es = some s) (hc : es.countP Event.isAlloc < L) :
    Reach step (Limit n L) (boot n second) s ∧
    liveCount s.ptable ≤ es.countP Event.isAlloc + 1 := by
  refine run_induct (P := fun es s => es.countP Event.isAlloc < L →
    Reach step (Limit n L) (boot n second) s ∧ liveCount s.ptable ≤ es.countP Event.isAlloc + 1)
    hr (fun _ => ⟨.init, (liveCount_boot n second).le⟩) (fun es e s₁ s₂ ih hstep hc => ?_) hc
  rw [List.countP_append] at hc ⊢
  obtain ⟨hreach, hcount⟩ := ih (by omega)
  have hok : Limit n L s₁ e := by
    intro he
    rw [List.countP_singleton, if_pos he] at hc
    omega
  refine ⟨hreach.step hok hstep, ?_⟩
  refine step_liveCount (Wf.of_reach hreach) hstep (by omega) fun c second' he => ?_
  subst he
  rw [List.countP_singleton, if_pos (by rfl)]
  omega

/-! ### A family of equals -/

/-- The priority of the first process after one full time slice. -/
def grownPrio (second : BitVec 32) : BitVec 32 :=
  if initialPrio second < 10#32 then initialPrio second + 1#32 else initialPrio second

theorem grownPrio_bounds (second : BitVec 32) :
    1 ≤ (grownPrio second).toNat ∧ (grownPrio second).toNat ≤ 10 := by
  have h := initialPrio_toNat second
  have hmod := Nat.mod_lt second.toNat (show 0 < 10 by decide)
  unfold grownPrio
  split
  · next hlt => have := BitVec.lt_def.mp hlt; bv_omega
  · omega

/-- A child created in the second `grownPrio - 1` has the priority its parent will have. -/
theorem initialPrio_grownPrio (second : BitVec 32) :
    initialPrio (grownPrio second - 1#32) = grownPrio second := by
  obtain ⟨hlo, hhi⟩ := grownPrio_bounds second
  apply BitVec.eq_of_toNat_eq
  rw [initialPrio_toNat]
  have hsub : (grownPrio second - 1#32).toNat = (grownPrio second).toNat - 1 := by bv_omega
  rw [hsub, Nat.mod_eq_of_lt (by omega)]
  omega

/-- The first process runs and has `j` children, all `RUNNABLE` with priority `y`. -/
structure Family (y : BitVec 32) (first : Proc) (j : ℕ) (t : PTable) : Prop where
  first : t 0 = first
  children : ∀ p : Slot, 0 < p.val → p.val ≤ j → (t p).state = .runnable ∧ (t p).prio = y
  rest : ∀ p : Slot, j < p.val → (t p).state = .unused

theorem Family.allocprocScan {y : BitVec 32} {first : Proc} {j : ℕ} {t : PTable}
    (h : Family y first j t) (hfirst : first.state ≠ .unused) (hj : j + 1 < NPROC) :
    allocprocScan t = some ⟨j + 1, hj⟩ := by
  unfold Proc.allocprocScan slots
  rw [List.find?_eq_some_iff_getElem]
  refine ⟨by simpa using h.rest ⟨j + 1, hj⟩ (Nat.lt_succ_self j), j + 1, by simpa using hj,
    by simp, fun i hi => ?_⟩
  have hlt : i < NPROC := by omega
  have hused : (t ⟨i, hlt⟩).state ≠ .unused := by
    rcases Nat.eq_zero_or_pos i with rfl | hpos
    · have : t ⟨0, hlt⟩ = first := h.first
      rw [this]
      exact hfirst
    · rw [(h.children ⟨i, hlt⟩ hpos (Nat.lt_succ_iff.mp hi)).1]
      decide
  simpa using hused

/-- `j` forks in a row. -/
theorem run_forks (second y : BitVec 32) (hy : initialPrio second = y) (first : Proc)
    (hfirst : first.state ≠ .unused) {t : PTable} (th : Slot → Thread)
    (ticks nextpid start : BitVec 32) (ht : Family y first 0 t) (hact : (th 0).act = .user) :
    ∀ j : ℕ, j < NPROC → ∃ t' th' nextpid',
      run step (soloRunning (n := n) 0 t th ticks nextpid start 0)
          (List.replicate j (forkEvents 0 second)).flatten =
        some (soloRunning 0 t' th' ticks nextpid' start 0) ∧
      Family y first j t' ∧ (th' 0).act = .user := by
  intro j
  induction j with
  | zero => exact fun _ => ⟨t, th, nextpid, rfl, ht, hact⟩
  | succ j ih =>
    intro hj
    obtain ⟨t', th', nextpid', hrun, hfam, hact'⟩ := ih (by omega)
    have hne : (⟨j + 1, hj⟩ : Slot) ≠ 0 := by
      intro h
      have := congrArg Fin.val h
      simp at this
    have hfork := run_fork (n := n) 0 ticks nextpid' start second hact'
      (hfam.allocprocScan hfirst hj) hne
    refine ⟨_, _, _, Eq.trans ?_ hfork, ?_, ?_⟩
    · rw [List.replicate_succ', List.flatten_append, run_append, hrun, Option.bind_some,
        List.flatten_cons, List.flatten_nil, List.append_nil]
    · refine ⟨?_, fun p hpos hle => ?_, fun p hlt => ?_⟩
      · rw [PTable.set_of_ne _ _ hne.symm]; exact hfam.first
      · by_cases hp : p = ⟨j + 1, hj⟩
        · subst hp; simp [hy]
        · rw [PTable.set_of_ne _ _ hp]
          have : p.val ≠ j + 1 := fun h => hp (Fin.ext h)
          exact hfam.children p hpos (by omega)
      · rw [PTable.set_of_ne _ _ (by rintro rfl; exact absurd hlt (Nat.lt_irrefl _))]
        exact hfam.rest p (by omega)
    · simp

/-- The first process runs, creates `k` children in one second, is preempted, and CPU `0` starts its
next round. -/
def soloForks (n : ℕ) (second : BitVec 32) (k : ℕ) : List (Event n) :=
  lockEvents 0 ++ roundEvents 0 ++
    (List.replicate k (forkEvents 0 (grownPrio second - 1#32))).flatten ++
    preemptEvents ++ lockEvents 0

theorem run_soloForks (n : ℕ) (second : BitVec 32) {k : ℕ} (hk : k < NPROC) :
    ∃ s, run step (boot n second) (soloForks n second k) = some s ∧
      (s.cpu 0).mode = .locked ∧
      (∀ p : Slot, p.val ≤ k → (s.ptable p).state = .runnable ∧
        (s.ptable p).prio = grownPrio second) ∧
      ∀ p : Slot, k < p.val → (s.ptable p).state = .unused := by
  obtain ⟨t, th, nextpid, hforks, hfam, -⟩ := run_forks (n := n) (grownPrio second - 1#32)
    (grownPrio second) (initialPrio_grownPrio second)
    { initcode second with state := .running } (by simp)
    (t := PTable.set (fun _ => zero) 0 { initcode second with state := .running })
    (fun _ => ⟨.user, .forkret, 0⟩) 0 2 0
    ⟨PTable.set_self .., fun p h h' => absurd h (by omega), fun p h => by
      rw [PTable.set_of_ne _ _ (by rintro rfl; exact absurd h (by decide))]; rfl⟩ rfl k hk
  have hsleep : ∀ q, (t q).state ≠ .sleeping := by
    intro q
    rcases Nat.eq_zero_or_pos q.val with h0 | hpos
    · obtain rfl : q = 0 := Fin.ext h0
      simp [hfam.first]
    · rcases Nat.lt_or_ge k q.val with hq | hq
      · rw [hfam.rest q hq]; decide
      · rw [(hfam.children q hpos hq).1]; decide
  refine ⟨soloLocked 0 (t.set 0 { t 0 with
      state := .runnable
      prio := if (t 0).prio < 10#32 then (t 0).prio + 1#32 else (t 0).prio })
    (Function.update th 0 { th 0 with resume := .yielded }) (0 + 1#32) nextpid 0, ?_, ?_, ?_, ?_⟩
  · rw [soloForks, run_append, run_append, run_append, run_start, Option.bind_some, hforks,
      Option.bind_some, run_preempt_zero (by decide) hsleep, Option.bind_some, run_acquire]
  · simp [soloLocked, solo]
  · intro p hp
    change ((t.set 0 _) p).state = _ ∧ ((t.set 0 _) p).prio = _
    by_cases h0 : p = 0
    · subst h0
      rw [PTable.set_self, hfam.first]
      exact ⟨rfl, rfl⟩
    · rw [PTable.set_of_ne _ _ h0]
      exact hfam.children p (Nat.pos_of_ne_zero fun h => h0 (Fin.ext h)) hp
  · intro p hp
    change ((t.set 0 _) p).state = _
    rw [PTable.set_of_ne _ _ (by rintro rfl; exact absurd hp (by simp))]
    exact hfam.rest p hp

theorem countP_soloForks (n : ℕ) (second : BitVec 32) (k : ℕ) :
    (soloForks n second k).countP Event.isAlloc = k := by
  simp [soloForks, forkEvents, List.countP_flatten, List.countP_cons, Event.isAlloc]

/-- When every process in use is `RUNNABLE` with the same priority, all of them are collected. -/
theorem card_le_idx {t : PTable} {k : ℕ} {y : BitVec 32} (hk : k < NPROC) (hy : y.toNat ≤ 20)
    (hall : ∀ p : Slot, p.val ≤ k → (t p).state = .runnable ∧ (t p).prio = y)
    (hrest : ∀ p : Slot, k < p.val → (t p).state = .unused) : k < (schedPlist t).idx := by
  obtain ⟨p, hp⟩ : ∃ p, IsCandidate t p := by
    have hne := (schedIdx_pos_iff t).mpr ⟨0, (hall 0 (Nat.zero_le k)).1, by
      rw [(hall 0 (Nat.zero_le k)).2]; exact hy⟩
    rw [idx_eq_card, Finset.card_ne_zero] at hne
    obtain ⟨p, hp⟩ := hne
    exact ⟨p, (Finset.mem_filter.mp hp).2⟩
  have hmn : schedMn t = y := by
    rcases Nat.lt_or_ge k p.val with hlt | hle
    · have := hp.1
      rw [hrest p hlt] at this
      cases this
    · rw [← hp.2, (hall p hle).2]
  have hsub : Finset.univ.map (Fin.castLEEmb (show k + 1 ≤ NPROC from hk)) ⊆
      Finset.univ.filter fun p => IsCandidate t p := by
    intro q hq
    obtain ⟨i, -, rfl⟩ := Finset.mem_map.mp hq
    obtain ⟨hst, hprio⟩ := hall (Fin.castLE hk i) (Nat.lt_succ_iff.mp i.isLt)
    exact Finset.mem_filter.mpr ⟨Finset.mem_univ _, hst, hprio.trans hmn.symm⟩
  have hcard := Finset.card_le_card hsub
  rw [Finset.card_map, Finset.card_univ, Fintype.card_fin, ← idx_eq_card] at hcard
  exact hcard

/-- The run with `k` children collects `k + 1` processes. -/
theorem run_soloForks_idx (n : ℕ) (second : BitVec 32) {k : ℕ} (hk : k < NPROC) :
    ∃ s, run step (boot n second) (soloForks n second k) = some s ∧
      (s.cpu 0).mode = .locked ∧ k < (schedPlist s.ptable).idx := by
  obtain ⟨s, hrun, hmode, hall, hrest⟩ := run_soloForks n second hk
  have hy := (grownPrio_bounds second).2
  exact ⟨s, hrun, hmode, card_le_idx hk (by omega) hall hrest⟩

/-- **The bounds of `plist`.** Let processes be created only while fewer than `L` slots are in use.
Then every access to `plist` is in bounds and of a slot just written, in every round of every
reachable state, if and only if `L` is at most the size of `plist`. -/
theorem plist_in_bounds_iff (n : ℕ) (second : BitVec 32) (L : ℕ) :
    (∀ s, Reach step (Limit n L) (boot n second) s → PlistOk s) ↔ L ≤ plistSize := by
  constructor
  · intro h
    by_contra hL
    have hlt : plistSize < L := Nat.lt_of_not_le hL
    obtain ⟨s, hrun, hmode, hidx⟩ :=
      run_soloForks_idx n second (k := plistSize) (by decide)
    have hreach := (reach_of_countP hrun (by rw [countP_soloForks]; exact hlt)).1
    obtain ⟨p, hp⟩ := (schedPlist_index_lt_iff _ _).mpr hidx
    exact Nat.lt_irrefl _ ((h s hreach 0 hmode).1 plistSize p hp)
  · intro hL s hs
    have hlive : Wf s ∧ liveCount s.ptable ≤ plistSize := by
      refine hs.induct (P := fun s => Wf s ∧ liveCount s.ptable ≤ plistSize)
        ⟨boot_wf n second, ?_⟩ ?_
      · rw [liveCount_boot]
        decide
      · rintro s e s' ⟨hwf, hle⟩ hok hstep
        refine ⟨hwf.step hstep, step_liveCount hwf hstep hle fun c second' he => ?_⟩
        subst he
        exact (hok rfl).trans_le hL
    exact plistOk_of_idx_le ((idx_le_liveCount _).trans hlive.2)

/-- On the two CPUs of the Makefile, fifty children of the first process and the process itself are
`RUNNABLE` at one priority, and the round writes `plist[50]`. -/
theorem plist_overflow_of_fifty_forks :
    ∃ s : State 1, run step (boot 1 0) (soloForks 1 0 50) = some s ∧
      (∃ p, (50, p) ∈ (schedPlist s.ptable).writes) ∧ ¬ PlistOk s := by
  obtain ⟨s, hrun, hmode, hidx⟩ := run_soloForks_idx 1 0 (k := 50) (by decide)
  obtain ⟨p, hp⟩ := (schedPlist_index_lt_iff _ _).mpr hidx
  exact ⟨s, hrun, ⟨p, hp⟩, fun h => Nat.lt_irrefl _ ((h 0 hmode).1 50 p hp)⟩

end Proc

end Xv6
