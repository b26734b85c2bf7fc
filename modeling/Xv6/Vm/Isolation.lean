import Xv6.Vm.Stores

/-!
# `fork` isolates memory

After `fork` the child has the bytes of the parent in frames of its own. As every frame has one
owner, a store of one process, now or in any later state, is to a frame that no other process has.
So what a process reads depends on its own stores only: leaving out the stores of all others from a
run does not change it.

## Main definitions

* `State.read` — what a process reads
* `Alike` — two states that are the same to a process

## Main results

* `Owns.stores_of_others` — the stores of others do not matter
* `fork_isolates`
-/

namespace Xv6

namespace Vm

open Proc (Slot slots)
open Transition

variable {L : Layout} {strict : Prop} {s s' t t' : State} {free free' : List ℕ} {d f va : ℕ}
variable {p q r : Slot} {b : UInt8}

/-- The byte that the process reads at `va`, unless it faults. -/
def State.read (s : State) (r : Slot) (va : ℕ) : Option UInt8 :=
  match (s.proc r).pgdir with
  | none => none
  | some d =>
    let pte := s.phys.mem.pte d (va / PGSIZE)
    if va < 2 ^ 32 ∧ Present pte ∧ User pte then some ((s.phys.mem (frame pte)).get (va % PGSIZE))
    else none

/-- The states are the same to the process. -/
structure Alike (r : Slot) (s t : State) : Prop where
  proc : t.proc r = s.proc r
  mem : ∀ f ∈ (s.proc r).frames s.phys.mem, t.phys.mem f = s.phys.mem f

theorem Alike.refl (r : Slot) (s : State) : Alike r s s := ⟨rfl, fun _ _ => rfl⟩

/-- Two states that are the same to a process as a third one. -/
theorem Alike.of_common (h : Alike r s s') (h' : Alike r s t) : Alike r s' t := by
  have hframes : (s'.proc r).frames s'.phys.mem = (s.proc r).frames s.phys.mem := by
    rw [h.proc]
    exact Process.frames_keep h.mem
  refine ⟨h'.proc.trans h.proc.symm, fun f hf => ?_⟩
  rw [hframes] at hf
  exact (h'.mem f hf).trans (h.mem f hf).symm

/-! ### Whose frames -/

/-- No frame belongs to two processes. -/
theorem Owns.disjoint (h : Owns L strict s free) (hne : r ≠ q)
    (hr : f ∈ (s.proc r).frames s.phys.mem) : f ∉ (s.proc q).frames s.phys.mem := by
  have hnodup := h.pool.nodup_taken
  rw [s.taken_eq q] at hnodup
  exact fun hq => Multiset.disjoint_left.mp (Multiset.nodup_add.mp hnodup).2.2 hq
    (State.mem_others_of_frames hne hr)

/-- The frames of the user pages of a process belong to it. -/
theorem SpaceOf.mem_frames (h : SpaceOf L strict s.phys.mem (s.proc r) d)
    (hused : (s.proc r).status ≠ .unused) {v : ℕ} (hv : v < 2 ^ 19)
    (hpres : Present (s.phys.mem.pte d v)) :
    frame (s.phys.mem.pte d v) ∈ (s.proc r).frames s.phys.mem := by
  obtain ⟨k, -, hframes⟩ := h.frames hused
  rw [hframes]
  exact Multiset.mem_add.mpr (.inl (Multiset.mem_cons_of_mem (Multiset.mem_add.mpr (.inr
    (mem_pages.mpr ⟨v, mem_userPages.mpr hv, hpres, rfl⟩)))))

/-- What the process has access to is in the lower half. -/
theorem SpaceOf.lower (h : SpaceOf L strict s.phys.mem (s.proc r) d) {v : ℕ}
    (huser : User (s.phys.mem.pte d v)) : v < 2 ^ 19 := by
  by_contra hhigh
  rw [h.kernel v (Nat.le_of_not_lt hhigh)] at huser
  exact not_user_kvm L v huser

theorem SpaceOf.pte_alike (h : SpaceOf L strict s.phys.mem (s.proc r) d)
    (hused : (s.proc r).status ≠ .unused) (ha : Alike r s t) :
    t.phys.mem.pte d = s.phys.mem.pte d := by
  obtain ⟨k, -, hframes⟩ := h.frames hused
  refine (owned_keep fun g hg => ha.mem g ?_).1
  rw [hframes]
  exact Multiset.mem_add.mpr (.inl hg)

/-- **A process reads the same** in states that are the same to it. -/
theorem Alike.read (ha : Alike r s t) (h : Owns L strict s free)
    (hused : (s.proc r).status ≠ .unused) (va : ℕ) : t.read r va = s.read r va := by
  obtain ⟨d, hd⟩ := h.space r hused
  have hpte := hd.pte_alike hused ha
  simp only [State.read, ha.proc, hd.pgdir, hpte]
  by_cases hok : va < 2 ^ 32 ∧ Present (s.phys.mem.pte d (va / PGSIZE)) ∧
      User (s.phys.mem.pte d (va / PGSIZE))
  · rw [if_pos hok, if_pos hok, ha.mem _ (hd.mem_frames hused (hd.lower hok.2.2) hok.2.1)]
  · rw [if_neg hok, if_neg hok]

/-! ### Stores -/

/-- The state after a store to a frame. -/
def State.put (s : State) (f off : ℕ) (b : UInt8) : State :=
  { s with phys := { s.phys with mem := Function.update s.phys.mem f ((s.phys.mem f).set off b) } }

/-- What a store of a process is. -/
theorem step_store_iff : step L s (.store q va b) = some s' ↔ (s.proc q).status = .live ∧
    ∃ d, (s.proc q).pgdir = some d ∧ (va < 2 ^ 32 ∧ Present (s.phys.mem.pte d (va / PGSIZE)) ∧
      Writable (s.phys.mem.pte d (va / PGSIZE)) ∧ User (s.phys.mem.pte d (va / PGSIZE))) ∧
    s' = s.put (frame (s.phys.mem.pte d (va / PGSIZE))) (va % PGSIZE) b := by
  rw [step, State.call]
  by_cases hlive : (s.proc q).status = .live
  · rw [if_pos hlive]
    refine ⟨fun hs => ⟨hlive, ?_⟩, fun hs => ?_⟩
    · have hwp : Wp (userStore q va b) s (fun _ s' => ∃ d, (s.proc q).pgdir = some d ∧
          (va < 2 ^ 32 ∧ Present (s.phys.mem.pte d (va / PGSIZE)) ∧
            Writable (s.phys.mem.pte d (va / PGSIZE)) ∧ User (s.phys.mem.pte d (va / PGSIZE))) ∧
          s' = s.put (frame (s.phys.mem.pte d (va / PGSIZE))) (va % PGSIZE) b) fun _ _ => True := by
        rw [userStore, wp_bind]
        cases hd : (s.proc q).pgdir with
        | none => simp only [pgdirOf, wp_bind, wp_getProc, hd, wp_throw]
        | some d =>
          rw [wp_pgdirOf hd]
          simp only [wp_bind, wp_get]
          rw [wp_ite]
          refine ⟨fun hok => ?_, fun _ => trivial⟩
          rw [wp_vm, wp_modify]
          exact ⟨d, rfl, hok, rfl⟩
      obtain ⟨-, hs'⟩ := final_of_wp hwp hs
      exact hs'
    · obtain ⟨-, d, hd, hok, rfl⟩ := hs
      have hwp : Wp (userStore q va b) s
          (fun _ t => t = s.put (frame (s.phys.mem.pte d (va / PGSIZE))) (va % PGSIZE) b)
          fun _ _ => False := by
        rw [userStore, wp_bind, wp_pgdirOf hd]
        simp only [wp_bind, wp_get]
        rw [if_pos hok, wp_vm, wp_modify]
        rfl
      obtain ⟨-, t, ht, rfl⟩ := exists_final hwp
      exact ht
  · rw [if_neg hlive]
    exact ⟨(by rintro ⟨⟩), fun hs => absurd hs.1 hlive⟩

/-- A store changes no frame of another process. -/
theorem Owns.store_alike (h : Owns L strict s free) (hne : r ≠ q)
    (hs : Vm.step L s (.store q va b) = some s') : Alike r s s' := by
  obtain ⟨hlive, d, hd, ⟨-, hpres, -, huser⟩, rfl⟩ := step_store_iff.mp hs
  have hused : (s.proc q).status ≠ .unused := by
    rw [hlive]
    nofun
  obtain ⟨e, he⟩ := h.space q hused
  obtain rfl : d = e := Option.some_injective _ (hd.symm.trans he.pgdir)
  refine ⟨rfl, fun f hf => Function.update_of_ne ?_ _ _⟩
  rintro rfl
  exact h.disjoint hne hf (he.mem_frames hused (he.lower huser) hpres)

/-- A process does the same store in two states that are the same to it. -/
theorem Alike.store (ha : Alike r s t) (h : Owns L strict s free)
    (hs : step L s (.store r va b) = some s') :
    ∃ t', step L t (.store r va b) = some t' ∧ Alike r s' t' := by
  obtain ⟨hlive, d, hd, hok, rfl⟩ := step_store_iff.mp hs
  have hused : (s.proc r).status ≠ .unused := by
    rw [hlive]
    nofun
  obtain ⟨e, he⟩ := h.space r hused
  obtain rfl : d = e := Option.some_injective _ (hd.symm.trans he.pgdir)
  have hpte := he.pte_alike hused ha
  have hlow := he.lower hok.2.2.2
  obtain ⟨k, hk, hpool⟩ := h.spacePool hused he
  obtain ⟨f, hf⟩ : ∃ f, f = frame (s.phys.mem.pte d (va / PGSIZE)) := ⟨_, rfl⟩
  have hmem : f ∈ pages (s.phys.mem.pte d) :=
    mem_pages.mpr ⟨va / PGSIZE, mem_userPages.mpr hlow, hok.2.1, hf.symm⟩
  obtain ⟨-, htable, hpte'⟩ := DirPool.write hpool (Multiset.mem_add.mpr (Or.inl hmem))
    (c := (s.phys.mem f).set (va % PGSIZE) b) rfl
  have hframes : (s.proc r).frames (s.put f (va % PGSIZE) b).phys.mem =
      (s.proc r).frames s.phys.mem := by
    rw [Process.frames_eq hused hd hk, Process.frames_eq hused hd hk, owned, owned]
    exact congrArg₂ (fun T e => d ::ₘ (tabs T + pages e) + {k}) htable hpte'
  refine ⟨t.put f (va % PGSIZE) b, step_store_iff.mpr ⟨?_, d, ?_, ?_, ?_⟩, ha.proc, fun g hg => ?_⟩
  · rw [ha.proc]
    exact hlive
  · rw [ha.proc]
    exact hd
  · rw [hpte]
    exact hok
  · rw [hpte, hf]
  · rw [← hf] at hg ⊢
    change g ∈ (s.proc r).frames _ at hg
    rw [hframes] at hg
    by_cases hgf : g = f
    · subst hgf
      simp only [State.put, Function.update_self, ha.mem g hg]
    · simp only [State.put, Function.update_of_ne hgf, ha.mem g hg]

/-- Stores of processes, one after the other. -/
def stores (es : List (Slot × ℕ × UInt8)) : List Event := es.map fun e => .store e.1 e.2.1 e.2.2

/-- **The stores of others do not matter**: after its own stores alone, the state is the same to a
process. -/
theorem Owns.stores_of_others (h : Owns L strict s free) (r : Slot) (es : List (Slot × ℕ × UInt8))
    (hs' : run (Vm.step L) s (stores es) = some s') :
    ∃ t free', run (Vm.step L) s (stores (es.filter fun e => e.1 = r)) = some t ∧ Alike r s' t ∧
      Owns L strict s' free' := by
  induction es using List.reverseRecOn generalizing s' with
  | nil =>
    cases hs'
    exact ⟨s, free, rfl, Alike.refl r s, h⟩
  | append_singleton es e ih =>
    rw [stores, List.map_append] at hs'
    obtain ⟨u, hru, hlast⟩ := (run_append_eq_some _).mp hs'
    obtain ⟨s'', hst, hnil⟩ := (run_cons_eq_some _).mp hlast
    cases hnil
    obtain ⟨t, free₁, hrt, ha, hu⟩ := ih hru
    obtain ⟨⟨free₂, hs''⟩, -⟩ := hu.step (e := .store e.1 e.2.1 e.2.2) (fun _ => trivial) hst
    rw [List.filter_append]
    by_cases he : e.1 = r
    · subst he
      obtain ⟨t', ht', ha'⟩ := ha.store hu hst
      refine ⟨t', free₂, ?_, ha', hs''⟩
      rw [List.filter_singleton, stores, List.map_append, run_append_eq_some]
      refine ⟨t, hrt, ?_⟩
      simp only [decide_true]
      exact (run_cons_eq_some _).mpr ⟨t', ht', rfl⟩
    · refine ⟨t, free₂, ?_, (hu.store_alike (Ne.symm he) hst).of_common ha, hs''⟩
      rw [List.filter_singleton]
      simp only [he, decide_false, cond_false, List.append_nil]
      exact hrt

/-! ### `fork` -/

theorem PTE_FLAGS_or_present {w : ℕ} (h : Present w) : PTE_FLAGS w ||| PTE_P = PTE_FLAGS w := by
  have hlow : (PTE_FLAGS w).testBit 0 = true := by
    rw [Nat.testBit_zero]
    exact decide_eq_true (by have := present_iff.mp h; simp only [PTE_FLAGS, PGSIZE]; omega)
  refine Nat.eq_of_testBit_eq fun i => ?_
  rw [Nat.testBit_or]
  cases i with
  | zero => simp [hlow]
  | succ i =>
    have hone : Nat.testBit PTE_P (i + 1) = false :=
      Nat.testBit_lt_two_pow (Nat.one_lt_two_pow (by omega))
    rw [hone, Bool.or_false]

theorem user_PTE_FLAGS {w : ℕ} : User (PTE_FLAGS w) ↔ User w := by
  have hmod : w % 2 ^ 12 &&& 4 = w &&& 4 := by
    refine Nat.eq_of_testBit_eq fun i => ?_
    rw [Nat.testBit_and, Nat.testBit_and, Nat.testBit_mod_two_pow]
    by_cases hi : i < 12
    · simp [hi]
    · have h4 : Nat.testBit 4 i = false := Nat.testBit_lt_two_pow (lt_of_lt_of_le (by decide)
        (Nat.pow_le_pow_right (by decide) (Nat.le_of_not_lt hi) : 2 ^ 12 ≤ 2 ^ i))
      simp [h4]
  change ¬ (w % 2 ^ 12 &&& 4) = 0 ↔ ¬ (w &&& 4) = 0
  rw [hmod]

/-- A page of the child after `fork`. -/
theorem Forked.page {np : Slot} {d' v : ℕ} (h : Forked L strict s free p np d d' s')
    (hsz : (s.proc p).sz < KERNBASE) (hv : v < npages (s.proc p).sz) :
    Present (s'.phys.mem.pte d' v) ∧
      PTE_FLAGS (s'.phys.mem.pte d' v) = PTE_FLAGS (s.phys.mem.pte d v) ∧
      (User (s'.phys.mem.pte d' v) ↔ User (s.phys.mem.pte d v)) ∧
      s'.phys.mem (frame (s'.phys.mem.pte d' v)) = s.phys.mem (frame (s.phys.mem.pte d v)) ∧
      ∀ r ≠ np, frame (s'.phys.mem.pte d' v) ∉ (s'.proc r).frames s'.phys.mem := by
  obtain ⟨hpres, f, hf, hcopy⟩ := h.copy v hv
  have hflags : PTE_FLAGS (s.phys.mem.pte d v) < PGSIZE := Nat.mod_lt _ (by decide)
  have hpres' : Present (s'.phys.mem.pte d' v) := by
    rw [hf]
    exact present_mkPte _ _
  refine ⟨hpres', ?_, ?_, ?_, fun r hr => ?_⟩
  · rw [hf, PTE_FLAGS_mkPte hflags, PTE_FLAGS_or_present hpres]
  · rw [hf, user_mkPte, user_PTE_FLAGS]
  · rw [hf, frame_mkPte hflags, hcopy]
  · obtain ⟨free', howns, -⟩ := h.owns
    have hused : (s'.proc np).status ≠ .unused := by
      rw [h.live]
      nofun
    obtain ⟨e, he⟩ := howns.space np hused
    obtain rfl : d' = e := Option.some_injective _ (h.pgdir.symm.trans he.pgdir)
    have hupper := npages_le (Nat.le_of_lt hsz)
    exact howns.disjoint hr.symm (he.mem_frames hused (by omega) hpres')

/-- **`fork` isolates memory.** The child has the pages of the parent with the same flags and
contents, in frames that no other process has; the upper halves of the two address spaces are the
same, and the memory of the parent is as it was. In any later state a store of one process does not
change what another one reads, and after any stores a process reads what it would read after its
own. -/
theorem fork_isolates (h : Owns L True s free) (hlive : (s.proc p).status = .live) {np : Slot}
    (hfork : fork L p s = .ok (some np) s') :
    ∃ d d', ((s.proc p).pgdir = some d ∧ (s'.proc p).pgdir = some d ∧
        (s'.proc p).sz = (s.proc p).sz) ∧
      ((s'.proc np).pgdir = some d' ∧ (s'.proc np).sz = (s.proc p).sz) ∧
      (∀ v < npages (s.proc p).sz, Present (s'.phys.mem.pte d' v) ∧
        PTE_FLAGS (s'.phys.mem.pte d' v) = PTE_FLAGS (s.phys.mem.pte d v) ∧
        (User (s'.phys.mem.pte d' v) ↔ User (s.phys.mem.pte d v)) ∧
        s'.phys.mem (frame (s'.phys.mem.pte d' v)) = s.phys.mem (frame (s.phys.mem.pte d v)) ∧
        ∀ r ≠ np, frame (s'.phys.mem.pte d' v) ∉ (s'.proc r).frames s'.phys.mem) ∧
      (∀ v, 2 ^ 19 ≤ v → s'.phys.mem.pte d' v = s'.phys.mem.pte d v) ∧
      (s'.phys.mem.pte d = s.phys.mem.pte d ∧
        ∀ f ∈ owned s.phys.mem d, s'.phys.mem f = s.phys.mem f) ∧
      (∀ t, Reach (step L) (fun _ _ => True) s' t → ∀ q r va b t', r ≠ q →
        (t.proc r).status ≠ .unused → step L t (.store q va b) = some t' →
        ∀ a, t'.read r a = t.read r a) ∧
      ∀ es t, run (step L) s' (stores es) = some t → ∀ r, (t.proc r).status ≠ .unused →
        ∃ t', run (step L) s' (stores (es.filter fun e => e.1 = r)) = some t' ∧
          ∀ a, t'.read r a = t.read r a := by
  have hused : (s.proc p).status ≠ .unused := by
    rw [hlive]
    nofun
  obtain ⟨d, hd⟩ := h.space p hused
  have hwp : Wp (fork L p) s (fun r s' => ∀ np, r = some np → ∃ d',
      Forked L True s free p np d d' s')
      fun _ _ => True :=
    wp_fork h hused hd (fun _ _ _ _ => trivial) (fun _ _ => trivial)
      (fun np d' s' h' np' hnp => by cases hnp; exact ⟨d', h'⟩) fun _ _ _ _ _ => nofun
  obtain ⟨d', h'⟩ := (Wp.of_ok hfork).mp hwp np rfl
  obtain ⟨free', howns, -⟩ := h'.owns
  have hne : p ≠ np := by
    rintro rfl
    exact hused h'.slot
  obtain ⟨hpte, hmem⟩ := h'.parent h hused hd
  refine ⟨d, d', ⟨hd.pgdir, ?_, ?_⟩, ⟨h'.pgdir, h'.sz⟩, fun v hv => h'.page hd.bound hv,
    fun v hv => ?_, ⟨hpte, hmem⟩, fun t ht q r va b t' hqr hr hst a => ?_, fun es t ht r hr => ?_⟩
  · rw [h'.others p hne]
    exact hd.pgdir
  · rw [h'.others p hne]
  · have hupper := npages_le (Nat.le_of_lt hd.bound)
    rw [h'.kernel v (hupper.trans hv), hpte, hd.kernel v hv]
  · obtain ⟨⟨free₁, h₁⟩, -⟩ := (howns.of_true False).reach ht fun _ _ _ => False.elim
    exact (h₁.store_alike hqr hst).read h₁ hr a
  · obtain ⟨t', free₁, ht', ha, h₁⟩ := howns.stores_of_others r es ht
    exact ⟨t', ht', fun a => ha.read h₁ hr a⟩

/-- The first process of a kernel of the usual size forks: there is a child then, in frames of its
own. -/
theorem fork_isolates_first : ∃ s s' np d', boot smallKernel 1 (fun _ => 0) 0 zeroed = some s ∧
    fork smallKernel s.initproc s = .ok (some np) s' ∧ (s'.proc np).pgdir = some d' ∧
    ∀ r ≠ np, frame (s'.phys.mem.pte d' 0) ∉ (s'.proc r).frames s'.phys.mem := by
  obtain ⟨s, hs⟩ := exists_boot_smallKernel
  obtain ⟨free, hbooted⟩ := booted_of_boot hs
  have howns := hbooted.owns True
  have hused : (s.proc s.initproc).status ≠ .unused := by
    rw [hbooted.live]
    nofun
  obtain ⟨d, hd⟩ := howns.space s.initproc hused
  -- there are slots and pages, and no open file
  have hwp : Wp (fork smallKernel s.initproc) s (fun r _ => ∃ np, r = some np)
      fun _ _ => False := by
    refine wp_fork howns hused hd (fun _ _ _ hn => hn trivial) ?_
      (fun np _ _ _ => ⟨np, rfl⟩) fun s' free' _ _ hfew => ?_
    · rintro ⟨fd, x, hx, -⟩
      rw [hbooted.ofile] at hx
      cases hx
    · have hlen := hbooted.length
      have hpages : npages (s.proc s.initproc).sz = 1 := by
        rw [hbooted.size]
        rfl
      rcases hfew with hfull | hfew
      · obtain ⟨q, hq⟩ := exists_ne s.initproc
        exact absurd (hbooted.unused q hq) (hfull q)
      · omega
  cases hx : fork smallKernel s.initproc s with
  | error e s' => exact ((Wp.of_error hx).mp hwp).elim
  | ok r s' =>
    obtain ⟨np, rfl⟩ := (Wp.of_ok hx).mp hwp
    obtain ⟨_, d', -, ⟨hd', -⟩, hpages, -⟩ := fork_isolates howns hbooted.live hx
    have hsz : 0 < npages (s.proc s.initproc).sz := by
      rw [hbooted.size]
      decide
    exact ⟨s, s', np, d', hs, hx, hd', (hpages 0 hsz).2.2.2.2⟩

end Vm

end Xv6
