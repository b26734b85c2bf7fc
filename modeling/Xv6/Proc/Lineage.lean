import Xv6.Proc.Forks
import Xv6.Proc.Solo

/-!
# Parents and children

`exit` passes the children of the exiting process to `initproc` and wakes whoever may be waiting for
it; `wait` frees a zombie child or goes to sleep on the caller's own `struct proc`. Both work under
the lock, but `fork` enters the parent without it. The invariants of this module say that the parent
of a process is alive at all times, and that nobody sleeps in `wait` who has a zombie to collect.

## Main definitions

* `Lineage` — parents are alive
* `Attentive` — nobody sleeps in `wait` while a child is a zombie

## Main results

* `Lineage.of_reach`, `Attentive.of_reach`
* `no_missed_child_exit`
-/

namespace Xv6

namespace Proc

open State Transition

variable {n : ℕ} {s s' : State n} {e : Event n}

theorem initproc_of_step (h : step s e = some s') : s'.initproc = s.initproc := by
  have hwait : ∀ (t : State n) (c : Fin (n + 1)) (p : Slot),
      (t.waitStep c p).initproc = t.initproc := by
    intro t c p
    unfold waitStep
    cases waitScan t.ptable p <;> rfl
  cases Step.of_step h with
  | resumeWait c p hm hl hr => exact hwait ..
  | wait c p hw ha hl => exact hwait ..
  | _ => rfl

/-- What `exit` does, if it does not panic. -/
theorem exit_of_step {c : Fin (n + 1)} (h : step s (.exit c) = some s') :
    s'.ptable = s.ptable ∨ ∃ x, s.work c = some x ∧ x ≠ s.initproc ∧
      s'.ptable = exitTable s.ptable s.initproc x := by
  cases Step.of_step h with
  | exitInit => exact Or.inl rfl
  | exit _ x hw ha hx hl => exact Or.inr ⟨x, hw, hx, rfl⟩

/-- Parents are alive. -/
structure Lineage (s : State n) : Prop where
  /-- `initproc` never exits. -/
  init_alive : (s.ptable s.initproc).state.Alive
  /-- `initproc` has no parent. -/
  root : (s.ptable s.initproc).parent = none
  /-- A slot that is not in use has no parent. -/
  unused : ∀ p, (s.ptable p).state = .unused → (s.ptable p).parent = none
  /-- Every other process has a parent that has not exited. -/
  parent : ∀ p, p ≠ s.initproc → (s.ptable p).state.Alive ∨ (s.ptable p).state = .zombie →
    ∃ q, q ≠ p ∧ (s.ptable p).parent = some q ∧ (s.ptable q).state.Alive
  /-- A process that is being built gets its parent with its page table. -/
  embryo : ∀ np, (s.ptable np).state = .embryo → ∃ p, (s.thread p).act.child = some np ∧
    (s.ptable np).parent = if (s.thread p).act = .forkReady np then some p else none

theorem boot_lineage (n : ℕ) (second : BitVec 32) : Lineage (boot n second) := by
  refine ⟨Or.inr (Or.inl rfl), rfl, fun p hp => ?_, fun p hp hst => ?_, fun p hp => ?_⟩
  · by_cases h : p = 0
    · subst h; cases hp
    · rw [boot_ptable_of_ne n second h]; rfl
  · rw [boot_ptable_of_ne n second hp] at hst
    rcases hst with (h | h | h) | h <;> cases h
  · by_cases h : p = 0
    · subst h; cases hp
    · rw [boot_ptable_of_ne n second h] at hp; cases hp

/-! ### One step -/

/-- The parent of a slot that is being filled, according to how far its `fork` has got. -/
theorem Lineage.embryo_of_step (hl : Lineage s) (hs : Wf s) (hf : Forking s)
    (h : step s e = some s') {np : Slot} (hemb' : (s'.ptable np).state = .embryo) :
    ∃ p, (s'.thread p).act.child = some np ∧
      (s'.ptable np).parent = if (s'.thread p).act = .forkReady np then some p else none := by
  by_cases hemb : (s.ptable np).state = .embryo
  · obtain ⟨p, hc, hpar⟩ := hl.embryo np hemb
    refine ⟨p, ?_⟩
    cases ForkStep.of_step hs hf h hc with
    | same ha hst hk hg hpar' =>
      rw [ha]
      refine ⟨hc, ?_⟩
      rcases hpar' with hpar' | ⟨x, hx, hxa⟩
      · rw [hpar', hpar]
      · -- the parent is inside `fork`, so it does not exit
        rw [hx] at hpar
        split at hpar
        · next ha' => cases hpar; rw [ha'] at hxa; rcases hxa with h | h <;> cases h
        · cases hpar
    | kalloc ha ha' hq =>
      rw [ha, if_neg nofun] at hpar
      rw [ha', if_neg nofun, hq]
      exact ⟨rfl, hpar⟩
    | copyuvm ha ha' hq =>
      rw [ha', if_pos rfl, hq]
      exact ⟨rfl, rfl⟩
    | fail _ _ hst => rw [hemb'] at hst; cases hst
    | ready _ _ hq => rw [hq] at hemb'; cases hemb'
  · -- the slot has just been claimed
    have hslot := SlotStep.of_step hs h np
    have hclaim : ∀ c second, e = .allocproc c second → (s.ptable np).state = .unused →
        ∃ p, (s'.thread p).act = .forkAlloc np := by
      rintro c second rfl hu
      cases Step.of_step h with
      | allocFail => exact absurd hemb' hemb
      | alloc _ p m _ hw ha _ hn =>
        obtain rfl : np = m := by
          by_contra hne
          have : (s.ptable.set m _ np).state = .embryo := hemb'
          rw [PTable.set_of_ne _ _ hne] at this
          exact hemb this
        exact ⟨p, by simp [setAct, setThread]⟩
    have hpar : (s'.ptable np).parent = (s.ptable np).parent ∧ (s.ptable np).state = .unused ∧
        ∃ c second, e = .allocproc c second := by
      generalize s'.ptable np = q at hslot hemb' ⊢
      cases hslot with
      | same | kalloc | copyuvm | feedback | unchan | setprio | fault => exact absurd hemb' hemb
      | claim c second hr => exact ⟨rfl, hr, c, second, rfl⟩
      | kallocFail | copyuvmFail | ready | dispatch | yield | sleep | waits | reap | exits
      | woken => cases hemb'
      | bereaved c q st hw hr ha hst =>
        rcases hst with hst | ⟨-, hst⟩
        · exact absurd (hst.symm.trans hemb') hemb
        · rw [hst] at hemb'; cases hemb'
      | killed c pid hpid hf =>
        dsimp only at hemb'
        split at hemb'
        · cases hemb'
        · exact absurd hemb' hemb
    obtain ⟨hpar, hu, c, second, he⟩ := hpar
    obtain ⟨p, ha⟩ := hclaim c second he hu
    refine ⟨p, by rw [ha]; rfl, ?_⟩
    rw [ha, if_neg nofun, hpar, hl.unused np hu]

/-- A `fork` that has not copied the page table yet has not entered a parent. -/
theorem Lineage.parent_none (hl : Lineage s) (hs : Wf s) {p np : Slot}
    (hc : (s.thread p).act.child = some np) (ha : (s.thread p).act ≠ .forkReady np) :
    (s.ptable np).parent = none := by
  obtain ⟨q, hq, hpar⟩ := hl.embryo np (hs.child p np hc)
  obtain rfl := hs.child_unique p q np hc hq
  rw [hpar, if_neg ha]

theorem Lineage.parent_ready (hl : Lineage s) (hs : Wf s) {p np : Slot}
    (ha : (s.thread p).act = .forkReady np) : (s.ptable np).parent = some p := by
  have hc : (s.thread p).act.child = some np := by rw [ha]; rfl
  obtain ⟨q, hq, hpar⟩ := hl.embryo np (hs.child p np hc)
  obtain rfl := hs.child_unique p q np hc hq
  rw [hpar, if_pos ha]

theorem Lineage.unused_of_step (hl : Lineage s) (hs : Wf s) (h : step s e = some s') {p : Slot}
    (hu : (s'.ptable p).state = .unused) : (s'.ptable p).parent = none := by
  have hslot := SlotStep.of_step hs h p
  generalize s'.ptable p = q at hslot hu ⊢
  cases hslot with
  | same | kalloc | feedback | unchan | setprio | fault => exact hl.unused p hu
  | claim | ready | dispatch | yield | sleep | waits | exits | woken => cases hu
  | kallocFail c q hw ha => exact hl.parent_none hs (by rw [ha]; rfl) (by rw [ha]; nofun)
  | copyuvm c q hw ha =>
    have := hs.child q p (by rw [ha]; rfl)
    rw [this] at hu
    cases hu
  | copyuvmFail c q hw ha => exact hl.parent_none hs (by rw [ha]; rfl) (by rw [ha]; nofun)
  | reap => rfl
  | bereaved c q st hw hr ha hst =>
    rcases hst with hst | ⟨-, hst⟩
    · have := hl.unused p (hst.symm.trans hu)
      simp [heir, this]
    · rw [hst] at hu; cases hu
  | killed c pid hpid hf =>
    dsimp only at hu
    split at hu
    · cases hu
    · exact hl.unused p hu

theorem Lineage.init_alive_of_step (hl : Lineage s) (hs : Wf s) (h : step s e = some s') :
    (s'.ptable s.initproc).state.Alive := by
  rcases alive_of_step hs h hl.init_alive with ha | ⟨-, -, hne, -⟩
  · exact ha
  · exact absurd rfl hne

/-- Every process keeps a parent that is alive: its own, or `initproc` if its own exits. -/
theorem Lineage.parent_of_step (hl : Lineage s) (hs : Wf s) (h : step s e = some s') {p : Slot}
    (hp : p ≠ s.initproc) (hst : (s'.ptable p).state.Alive ∨ (s'.ptable p).state = .zombie) :
    ∃ q, q ≠ p ∧ (s'.ptable p).parent = some q ∧ (s'.ptable q).state.Alive := by
  by_cases hexit : ∃ c, e = .exit c
  · obtain ⟨c, rfl⟩ := hexit
    rcases exit_of_step h with hsame | ⟨x, hw, hx, htable⟩
    · rw [hsame] at hst ⊢
      exact hl.parent p hp hst
    obtain ⟨hz, hother⟩ := exitTable_state s.ptable s.initproc x
    have hbefore : (s.ptable p).state.Alive ∨ (s.ptable p).state = .zombie := by
      by_cases hpx : p = x
      · subst hpx; exact Or.inl (hs.alive_of_running (mode_of_work hw).1)
      · rw [htable] at hst
        rcases hother p hpx with heq | ⟨hsl, -⟩
        · rwa [heq] at hst
        · exact Or.inl (Or.inl hsl)
    obtain ⟨q, hqp, hpar, hq⟩ := hl.parent p hp hbefore
    have hpar' : (s'.ptable p).parent = heir s.initproc x (some q) := by
      rw [htable, exitTable_eq, hpar]
    by_cases hqx : q = x
    · exact ⟨s.initproc, hp.symm, by rw [hpar', heir, if_pos (by rw [hqx])],
        hl.init_alive_of_step hs h⟩
    · refine ⟨q, hqp, by rw [hpar', heir, if_neg (by simpa using hqx)], ?_⟩
      rcases alive_of_step hs h hq with ha | ⟨⟨d, hd, hdw⟩, -⟩
      · exact ha
      · cases hd
        exact absurd (Option.some.inj (hdw.symm.trans hw)) hqx
  · -- nobody exits, so whoever was alive still is
    have halive : ∀ {q : Slot}, (s.ptable q).state.Alive → (s'.ptable q).state.Alive := by
      intro q hq
      rcases alive_of_step hs h hq with ha | ⟨⟨c, hc, -⟩, -⟩
      · exact ha
      · exact absurd ⟨c, hc⟩ hexit
    have hkeep : (s.ptable p).state.Alive ∨ (s.ptable p).state = .zombie →
        (s'.ptable p).parent = (s.ptable p).parent →
        ∃ q, q ≠ p ∧ (s'.ptable p).parent = some q ∧ (s'.ptable q).state.Alive := by
      intro hb heq
      obtain ⟨q, hqp, hpar, hq⟩ := hl.parent p hp hb
      exact ⟨q, hqp, heq.trans hpar, halive hq⟩
    have hrunning : ∀ c, (s.cpu c).mode = .running p →
        (s.ptable p).state.Alive ∨ (s.ptable p).state = .zombie := fun c hm =>
      Or.inl (hs.alive_of_running hm)
    have hembryo : ∀ {r : Slot}, (s.thread r).act.child = some p →
        ¬ ((s.ptable p).state.Alive ∨ (s.ptable p).state = .zombie) := by
      intro r hr hst
      have := hs.child r p hr
      rw [this] at hst
      rcases hst with (h | h | h) | h <;> cases h
    have hslot := SlotStep.of_step hs h p
    have hready : ∀ c r, s.work c = some r → (s.thread r).act = .forkReady p →
        (s'.ptable p).parent = (s.ptable p).parent →
        ∃ q, q ≠ p ∧ (s'.ptable p).parent = some q ∧ (s'.ptable q).state.Alive := by
      intro c r hw ha heq
      have hrun := hs.alive_of_running (mode_of_work hw).1
      refine ⟨r, ?_, by rw [heq]; exact hl.parent_ready hs ha, halive hrun⟩
      rintro rfl
      exact hrun.ne.2.1 (hs.child r r (by rw [ha]; rfl))
    generalize s'.ptable p = q at hslot hst hkeep hready ⊢
    cases hslot with
    | same | feedback | setprio => exact hkeep hst rfl
    | claim | kallocFail | copyuvmFail | reap => rcases hst with (h | h | h) | h <;> cases h
    | kalloc c r hw ha => exact absurd hst (hembryo (by rw [ha]; rfl))
    | copyuvm c r hw ha => exact absurd hst (hembryo (by rw [ha]; rfl))
    | ready c r hw ha => exact hready c r hw ha rfl
    | dispatch c hm => exact hkeep (Or.inl (Or.inr (Or.inl (hs.picked c p (Or.inr hm))))) rfl
    | unchan c hm => exact hkeep (hrunning c hm) rfl
    | yield c e hm => exact hkeep (hrunning c hm) rfl
    | waits c e hm => exact hkeep (hrunning c hm) rfl
    | sleep c chan hw => exact hkeep (hrunning c (mode_of_work hw).1) rfl
    | fault c hw => exact hkeep (hrunning c (mode_of_work hw).1) rfl
    | exits c => exact absurd ⟨c, rfl⟩ hexit
    | bereaved c => exact absurd ⟨c, rfl⟩ hexit
    | woken e hsl => exact hkeep (Or.inl (Or.inl hsl)) rfl
    | killed c pid hpid hf =>
      refine hkeep ?_ rfl
      by_cases hsl : (s.ptable p).state = .sleeping
      · exact Or.inl (Or.inl hsl)
      · simpa only [if_neg hsl] using hst

theorem Lineage.root_of_step (hl : Lineage s) (hs : Wf s) (h : step s e = some s') :
    (s'.ptable s.initproc).parent = none := by
  have hroot := hl.root
  have hslot := SlotStep.of_step hs h s.initproc
  generalize s'.ptable s.initproc = q at hslot ⊢
  cases hslot with
  | copyuvm c r hw ha => exact absurd (hs.child r _ (by rw [ha]; rfl)) hl.init_alive.ne.2.1
  | exits c hw hi => exact absurd rfl hi
  | bereaved c r st hw => simp [heir, hroot]
  | reap => rfl
  | _ => exact hroot

theorem Lineage.step (hl : Lineage s) (hs : Wf s) (hf : Forking s) (h : Proc.step s e = some s') :
    Lineage s' := by
  have hinit := initproc_of_step h
  refine ⟨?_, ?_, fun p => hl.unused_of_step hs h, fun p hp => ?_, fun np => ?_⟩
  · rw [hinit]; exact hl.init_alive_of_step hs h
  · rw [hinit]; exact hl.root_of_step hs h
  · rw [hinit] at hp; exact hl.parent_of_step hs h hp
  · exact hl.embryo_of_step hs hf h

theorem Lineage.of_reach {ok : State n → Event n → Prop} {second : BitVec 32}
    (h : Reach Proc.step ok (boot n second) s) : Lineage s := by
  have : Wf s ∧ Forking s ∧ Lineage s := h.induct (P := fun s => Wf s ∧ Forking s ∧ Lineage s)
    ⟨boot_wf n second, boot_forking n second, boot_lineage n second⟩
    fun _ _ _ ih _ hst => ⟨ih.1.step hst, ih.2.1.step ih.1 hst, ih.2.2.step ih.1 ih.2.1 hst⟩
  exact this.2.2

/-! ### Nobody misses the exit of a child -/

/-- Nobody sleeps in `wait` while a child is a zombie. -/
structure Attentive (s : State n) : Prop where
  /-- Who sleeps on a `struct proc` sleeps on its own. -/
  own : ∀ p q, (s.ptable p).state = .sleeping → (s.ptable p).chan = some (.proc q) → q = p
  none_missed : ∀ p z, (s.ptable p).state = .sleeping → (s.ptable p).chan = some (.proc p) →
    (s.ptable z).parent = some p → (s.ptable z).state ≠ .zombie

theorem boot_attentive (n : ℕ) (second : BitVec 32) : Attentive (boot n second) := by
  have hawake : ∀ p, ((boot n second).ptable p).state ≠ .sleeping := by
    intro p
    by_cases h : p = 0
    · subst h; nofun
    · rw [boot_ptable_of_ne n second h]; nofun
  exact ⟨fun p q h => absurd h (hawake p), fun p z h => absurd h (hawake p)⟩

/-- Whoever sleeps after a step slept there before, or has just gone to sleep. -/
theorem Attentive.own_of_step (ha : Attentive s) (hs : Wf s) (h : step s e = some s') {p q : Slot}
    (hsl : (s'.ptable p).state = .sleeping) (hchan : (s'.ptable p).chan = some (.proc q)) :
    q = p ∧ ((s.ptable p).state = .sleeping ∧ (s.ptable p).chan = some (.proc q) ∨
      ∀ z, (s.ptable z).parent = some p → (s.ptable z).state ≠ .zombie) := by
  have hold : (s.ptable p).state = .sleeping → (s.ptable p).chan = some (.proc q) →
      q = p ∧ ((s.ptable p).state = .sleeping ∧ (s.ptable p).chan = some (.proc q) ∨
        ∀ z, (s.ptable z).parent = some p → (s.ptable z).state ≠ .zombie) := fun h₁ h₂ =>
    ⟨ha.own p q h₁ h₂, Or.inl ⟨h₁, h₂⟩⟩
  have hslot := SlotStep.of_step hs h p
  generalize s'.ptable p = r at hslot hsl hchan
  cases hslot with
  | same | kalloc | copyuvm | feedback | setprio | fault => exact hold hsl hchan
  | claim | kallocFail | copyuvmFail | ready | dispatch | yield | reap | exits | woken => cases hsl
  | unchan => cases hchan
  | sleep c chan hw hc => cases hchan; exact hc.elim
  | waits c e hm he hk hz => cases hchan; exact ⟨rfl, Or.inr hz⟩
  | bereaved c x st hw hr hxa hst =>
    rcases hst with hst | ⟨-, hst⟩
    · exact hold (hst.symm.trans hsl) hchan
    · rw [hst] at hsl; cases hsl
  | killed c pid hpid hf =>
    dsimp only at hsl
    split at hsl
    · cases hsl
    · next hne => exact absurd hsl hne

/-- Only `exit` makes zombies and passes them on. -/
theorem zombie_of_step (hs : Wf s) (h : step s e = some s') (hne : ∀ c, e ≠ .exit c) {z : Slot}
    (hz : (s'.ptable z).state = .zombie) :
    (s.ptable z).state = .zombie ∧ (s'.ptable z).parent = (s.ptable z).parent := by
  have hslot := SlotStep.of_step hs h z
  generalize s'.ptable z = r at hslot hz ⊢
  cases hslot with
  | same | kalloc | feedback | unchan | setprio | fault => exact ⟨hz, rfl⟩
  | copyuvm c q hw ha =>
    have := hs.child q z (by rw [ha]; rfl)
    rw [this] at hz
    cases hz
  | claim | kallocFail | copyuvmFail | ready | dispatch | yield | sleep | waits | reap
  | woken => cases hz
  | exits c => exact absurd rfl (hne c)
  | bereaved c => exact absurd rfl (hne c)
  | killed c pid hpid hf =>
    dsimp only at hz
    split at hz
    · cases hz
    · exact ⟨hz, rfl⟩

theorem Attentive.step (ha : Attentive s) (hl : Lineage s) (hs : Wf s)
    (h : Proc.step s e = some s') : Attentive s' := by
  refine ⟨fun p q hsl hchan => (ha.own_of_step hs h hsl hchan).1, fun p z hsl hchan hpar hz => ?_⟩
  obtain ⟨-, hwas⟩ := ha.own_of_step hs h hsl hchan
  -- no child of `p` was a zombie before the step
  have hnone : ∀ z, (s.ptable z).parent = some p → (s.ptable z).state ≠ .zombie := by
    rcases hwas with ⟨h₁, h₂⟩ | hnone
    · exact fun z => ha.none_missed p z h₁ h₂
    · exact hnone
  by_cases hexit : ∃ c, e = .exit c
  swap
  · obtain ⟨hz', hpar'⟩ := zombie_of_step hs h (fun c hc => hexit ⟨c, hc⟩) hz
    exact hnone z (hpar' ▸ hpar) hz'
  obtain ⟨c, rfl⟩ := hexit
  rcases exit_of_step h with hsame | ⟨x, hw, hx, htable⟩
  · rw [hsame] at hpar hz
    exact hnone z hpar hz
  have hpx : p ≠ x := by
    rintro rfl
    rw [htable, (exitTable_state s.ptable s.initproc p).1] at hsl
    cases hsl
  have hchan₀ : (s.ptable p).chan = some (.proc p) := by
    rw [htable, exitTable_eq] at hchan
    exact hchan
  rw [htable] at hsl
  rw [htable, exitTable_eq] at hpar
  by_cases hzx : z = x
  · -- the process that exits has woken its parent
    subst hzx
    obtain ⟨q, hqz, hq, -⟩ := hl.parent z hx (Or.inl (hs.alive_of_running (mode_of_work hw).1))
    have hqp : q = p := by
      simp only [hq, heir, Option.some.injEq, if_neg hqz] at hpar
      exact hpar
    exact exitTable_parent_awake (hqp ▸ hq) hchan₀ hsl
  · have hz₀ : (s.ptable z).state = .zombie := by
      rw [htable] at hz
      rcases (exitTable_state s.ptable s.initproc x).2 z hzx with heq | ⟨-, hr⟩
      · rwa [heq] at hz
      · rw [hr] at hz; cases hz
    by_cases hzpar : (s.ptable z).parent = some x
    · -- a zombie is handed over to `initproc`, which has been woken
      have hpi : s.initproc = p := by
        simp only [hzpar, heir, if_true, Option.some.injEq] at hpar
        exact hpar
      subst hpi
      exact exitTable_init_awake hzpar hz₀ hchan₀ hsl
    · simp only [heir, if_neg hzpar] at hpar
      exact hnone z hpar hz₀

theorem Attentive.of_reach {ok : State n → Event n → Prop} {second : BitVec 32}
    (h : Reach Proc.step ok (boot n second) s) : Attentive s := by
  have : Wf s ∧ Forking s ∧ Lineage s ∧ Attentive s := h.induct
    (P := fun s => Wf s ∧ Forking s ∧ Lineage s ∧ Attentive s)
    ⟨boot_wf n second, boot_forking n second, boot_lineage n second, boot_attentive n second⟩
    fun _ _ _ ih _ hst => ⟨ih.1.step hst, ih.2.1.step ih.1 hst, ih.2.2.1.step ih.1 ih.2.1 hst,
      ih.2.2.2.step ih.2.2.1 ih.1 hst⟩
  exact this.2.2.2

/-- **No missed child exit.** In no reachable state with the lock free does a process sleep in
`wait` while one of its children is a zombie. -/
theorem no_missed_child_exit {second : BitVec 32}
    (hreach : Reach step (fun _ _ => True) (boot n second) s) (_hlock : s.lock = none) :
    ¬ ∃ p z, (s.ptable p).state = .sleeping ∧ (s.ptable p).chan = some (.proc p) ∧
      (s.ptable z).parent = some p ∧ (s.ptable z).state = .zombie := by
  rintro ⟨p, z, hsl, hchan, hpar, hz⟩
  exact (Attentive.of_reach hreach).none_missed p z hsl hchan hpar hz

/-- The first process forks and waits. -/
def forkWait : List (Event 1) :=
  lockEvents 0 ++ roundEvents 0 ++ forkEvents 0 0 ++ waitEvents 0

/-- The theorem applies when the first process sleeps in `wait` and its child is `RUNNABLE`. -/
theorem no_missed_child_exit_forkWait : ∃ s : State 1, run step (boot 1 0) forkWait = some s ∧
    (s.ptable 0).state = .sleeping ∧ (s.ptable 0).chan = some (.proc 0) ∧
    (s.ptable 1).parent = some 0 ∧ s.lock = none ∧
    ¬ ∃ p z, (s.ptable p).state = .sleeping ∧ (s.ptable p).chan = some (.proc p) ∧
      (s.ptable z).parent = some p ∧ (s.ptable z).state = .zombie := by
  obtain ⟨s, hs, hsl, hchan, hpar, hlock⟩ := exists_of_any step (boot 1 0) forkWait
    (fun s => (s.ptable 0).state = .sleeping ∧ (s.ptable 0).chan = some (.proc 0) ∧
      (s.ptable 1).parent = some 0 ∧ s.lock = none) (by decide +kernel)
  exact ⟨s, hs, hsl, hchan, hpar, hlock,
    no_missed_child_exit (reach_of_run hs) hlock⟩

end Proc

end Xv6
