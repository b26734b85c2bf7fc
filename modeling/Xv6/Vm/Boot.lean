import Xv6.Vm.Calls

/-!
# What `main` leaves behind

`kinit1` hands the pages from `end` to 4 MB to the allocator, and `kinit2`, after the kernel has its
own page directory, those from 4 MB to `PHYSTOP`. The pages that have not been handed over yet count
as taken here, so that the pool is the same from the beginning: all pages from `end` to `PHYSTOP`.

The memory before `main` is arbitrary. `main` comes to its end if `kinit1` has a page for each of
the tables of the kernel's page directory and for each CPU, and if `initcode` fits on a page; if it
comes to its end then the pages are divided among the free list and their owners.

## Main definitions

* `Booted` — the state after `main`

## Main results

* `wp_main` — `main` meets its specification
* `booted_of_boot`, `exists_boot`
-/

namespace Xv6

namespace Vm

open Proc (Slot slots)

variable {L : Layout} {strict : Prop} {X Y Z : Multiset ℕ} {p : Phys} {s s' : State}
variable {free free' : List ℕ} {d k f g : ℕ} {m : Mem} {E : Halt → Phys → Prop}

/-! ### `freerange` -/

/-- The first page that is handed to the allocator. -/
def Layout.first (L : Layout) : ℕ := npages (L.end_ - KERNBASE)

theorem Layout.end_ge (L : Layout) : KERNBASE ≤ L.end_ := by
  have h₁ := L.kernlink_lt
  have h₂ := L.data_le
  simp only [KERNLINK, EXTMEM, KERNBASE] at *
  omega

theorem Layout.end_upper (L : Layout) : L.end_ ≤ KERNBASE + 4194304 := by
  have h := L.end_le
  simp only [P2V, KERNBASE] at *
  omega

theorem Layout.first_le (L : Layout) : L.first ≤ 1024 := by
  have h := L.end_upper
  simp only [Layout.first, npages, KERNBASE, PGSIZE] at *
  omega

theorem Layout.usable_iff (hf : f < 57344) : L.Usable f ↔ L.first ≤ f := by
  have h := L.end_ge
  have h' := L.end_upper
  simp only [Layout.Usable, Layout.first, npages, P2V, PGSIZE, KERNBASE, PHYSTOP] at *
  omega

theorem Layout.mem_handed : f ∈ L.handed ↔ L.Usable f := by
  rw [Layout.handed, Finset.mem_val, Finset.mem_filter, Finset.mem_range,
    show PHYSTOP / PGSIZE = 57344 from rfl]
  exact and_iff_right_of_imp fun h => h.lt

theorem Layout.nodup_handed (L : Layout) : L.handed.Nodup := by
  rw [Layout.handed]
  exact Finset.nodup _

/-- **The pages that are handed to the allocator**, those of `kinit1` and those of `kinit2`. -/
theorem Layout.handed_eq (L : Layout) : L.handed =
    (List.range' L.first (1024 - L.first) : Multiset ℕ) + List.range' 1024 56320 := by
  have hfirst := L.first_le
  have happend : List.range' L.first (1024 - L.first) ++ List.range' 1024 56320 =
      List.range' L.first (57344 - L.first) := by
    have := List.range'_append_1 (s := L.first) (m := 1024 - L.first) (n := 56320)
    rw [show L.first + (1024 - L.first) = 1024 by omega] at this
    rw [this, show 1024 - L.first + 56320 = 57344 - L.first by omega]
  rw [Multiset.coe_add, happend]
  refine (Multiset.Nodup.ext L.nodup_handed (Multiset.coe_nodup.mpr List.nodup_range')).mpr
    fun f => ?_
  rw [Layout.mem_handed, Multiset.mem_coe, List.mem_range'_1]
  constructor
  · intro hus
    have := (Layout.usable_iff hus.lt).mp hus
    have := hus.lt
    omega
  · rintro ⟨hle, hlt⟩
    exact (Layout.usable_iff (by omega)).mpr hle

theorem P2V_page (hf : f ≤ 57344) : P2V (f * PGSIZE) = KERNBASE + f * PGSIZE := by
  simp only [P2V, PGSIZE, KERNBASE]
  omega

/-- The loop of `freerange`, on `n` pages from `f` on. -/
theorem wp_freerangeLoop (n r : ℕ) {va vend : ℕ} (hva : va = KERNBASE + f * PGSIZE)
    (hvend : vend = KERNBASE + (f + n) * PGSIZE) (hupper : f + n ≤ 57344) (hr : n < r)
    (h : Pool L X p free (List.range' f n + Y)) {Q : Unit → Phys → Prop}
    (hQ : ∀ p' free', Pool L X p' free' Y → Keeps X Y p.mem p'.mem →
      free'.length = free.length + n → Q () p') :
    Wp (freerangeLoop L vend r va) p Q E := by
  induction n generalizing f p free r va with
  | zero =>
    obtain ⟨r, rfl⟩ : ∃ r', r = r' + 1 := ⟨r - 1, by omega⟩
    have hend : ¬ va + PGSIZE ≤ vend := by
      rw [hva, hvend, Nat.add_zero, PGSIZE]
      omega
    rw [freerangeLoop, if_neg hend, wp_pure]
    refine hQ p free ?_ (Keeps.refl _ _ _) rfl
    rwa [List.range'_zero, Multiset.coe_nil, Multiset.zero_add] at h
  | succ n ih =>
    obtain ⟨r, rfl⟩ : ∃ r', r = r' + 1 := ⟨r - 1, by omega⟩
    have hnext : va + PGSIZE = KERNBASE + (f + 1) * PGSIZE := by
      rw [hva, Nat.add_mul, Nat.one_mul, Nat.add_assoc]
    have hend : va + PGSIZE ≤ vend := by
      rw [hnext, hvend]
      exact Nat.add_le_add_left (Nat.mul_le_mul_right _ (by omega)) _
    have hframe : V2P va / PGSIZE = f := by
      rw [hva, ← P2V_page (by omega)]
      exact frame_V2P_P2V (by omega)
    rw [List.range'_succ, ← Multiset.cons_coe, Multiset.cons_add] at h
    rw [freerangeLoop, if_pos hend, wp_bind, hframe]
    refine wp_kfree h fun p₁ h₁ hmem => ?_
    refine ih r hnext ?_ (by omega) (by omega) h₁ fun p' free' h' hkeep hlen => ?_
    · rw [hvend, show f + (n + 1) = f + 1 + n by omega]
    refine hQ p' free' h' (fun g hg => ?_) ?_
    · rw [hkeep g hg, hmem]
      rintro rfl
      rcases hg with hg | hg
      · exact hg (h.mem_of_taken (Multiset.mem_cons_self ..))
      · exact (Multiset.nodup_cons.mp h.nodup_taken).1 (Multiset.mem_add.mpr (Or.inr hg))
    · rw [hlen, List.length_cons]
      omega

/-- **`freerange`** hands `n` pages from `f` on to the allocator. -/
theorem wp_freerange (n : ℕ) {vstart vend : ℕ} (hstart : PGROUNDUP vstart = KERNBASE + f * PGSIZE)
    (hvend : vend = KERNBASE + (f + n) * PGSIZE) (hupper : f + n ≤ 57344)
    (h : Pool L X p free (List.range' f n + Y)) {Q : Unit → Phys → Prop}
    (hQ : ∀ p' free', Pool L X p' free' Y → Keeps X Y p.mem p'.mem →
      free'.length = free.length + n → Q () p') :
    Wp (freerange L vstart vend) p Q E := by
  have hrounds : n < ROUNDS := by
    simp only [ROUNDS]
    omega
  rw [freerange]
  exact wp_freerangeLoop n ROUNDS hstart hvend hupper hrounds h hQ

/-! ### `startothers` -/

/-- The state of the kernel before there are processes and open files, with `Y` not handed over
yet. -/
structure Early (L : Layout) (Y : Multiset ℕ) (s : State) (free : List ℕ) (m : Mem) : Prop where
  pool : Pool L L.handed s.phys free (s.kernel + Y)
  proc : s.proc = (reset m).proc
  file : s.file = (reset m).file

/-- The loop of `startothers`. -/
theorem wp_startothers (n : ℕ) (h : Early L Y s free m) {E : Halt → State → Prop}
    (hE : ∀ e t, free.length < n → E e t) {Q : Unit → State → Prop}
    (hQ : ∀ t free', Early L Y t free' m → Q () t) : Wp (startothers n) s Q E := by
  induction n generalizing s free with
  | zero => exact hQ s free h
  | succ n ih =>
    rw [startothers, wp_bind, wp_vm]
    refine wp_kalloc h.pool (fun hfree => ?_) fun f free₁ p₁ hfree hmem h₁ => ?_
    · exact (wp_throw _).mpr (hE _ _ (by rw [hfree]; exact Nat.succ_pos n))
    · rw [wp_bind, wp_modify]
      have hkernel : State.kernel { s with phys := p₁, cpuStacks := f :: s.cpuStacks } =
          f ::ₘ s.kernel := by
        rw [State.kernel, State.kernel, hmem, ← Multiset.cons_coe, Multiset.add_cons]
      rw [← Multiset.cons_add, ← hkernel] at h₁
      refine ih ⟨h₁, h.proc, h.file⟩ fun e t hlt => hE e t ?_
      rw [hfree, List.length_cons]
      omega

/-! ### `userinit` -/

/-- **`inituvm`** makes an address space of one page. -/
theorem wp_inituvm {init : ℕ → UInt8} {size : ℕ} (h : SpacePool L X p free d Z)
    (hpte : p.mem.pte d = kvm L) (hhole : ∀ i, 568 ≤ i → i < 1016 → p.mem.table d i = none)
    (hlen : 2 ≤ free.length) (hE : ∀ e p', PGSIZE ≤ size → E e p')
    {Q : Unit → Phys → Prop}
    (hQ : ∀ f p' free', ImageOf L X Z p' free' d PGSIZE → Keeps X Z p.mem p'.mem →
      p'.mem.pte d 0 = mkPte (f * PGSIZE) (PTE_W ||| PTE_U) → free.length ≤ free'.length + 2 →
      Q () p') :
    Wp (inituvm d init size) p Q E := by
  have habsent : ∀ v < 2 ^ 19, ¬ Present (p.mem.pte d v) := fun v hv => by
    rw [hpte, kvm_eq_zero (Or.inl hv)]
    exact not_present_zero
  have hpages : npages PGSIZE = 1 := rfl
  rw [inituvm, wp_ite]
  refine ⟨fun hsize => ?_, fun _ => ?_⟩
  · rw [wp_bind]
    exact (wp_throw _).mpr (hE _ _ hsize)
  rw [wp_bind]
  refine h.kalloc (fun hfree => ?_) fun f free₁ p₁ hfree hmem h₁ => ?_
  · rw [hfree] at hlen
    exact absurd hlen (by decide)
  obtain ⟨p₂, hp₂⟩ : ∃ p₂ : Phys, p₂ = { p₁ with mem := p₁.mem.fill f 0 } := ⟨_, rfl⟩
  have h₂ := Taken.of_update h₁ hmem hp₂
  have hlen₁ : free.length = free₁.length + 1 := by
    rw [hfree, List.length_cons]
  simp only [memset, wp_bind, wp_modify]
  rw [← hp₂, show mappages d 0 = mappages d (0 * PGSIZE) by rw [Nat.zero_mul]]
  refine h₂.wp_mapPage (by decide) (by decide)
    (fun q hpres => absurd hpres (habsent 0 (by decide))) (fun p₃ free₃ h₃ hlen₃ => ?_)
    fun q _ _ _ hfree₁ => ?_
  · have himage : ImageOf L X Z p₃ free₃ d PGSIZE := by
      refine ⟨h₃.pool, ⟨by decide, fun v hv => ?_, fun v hv hv' => ?_⟩, fun v hv => ?_,
        fun i hi hi' => ?_⟩
      · obtain rfl : v = 0 := by omega
        rw [h₃.pte, Function.update_self]
        exact present_mkPte _ _
      · rw [h₃.pte, Function.update_of_ne (by omega)]
        exact habsent v hv'
      · rw [h₃.pte, Function.update_of_ne (by omega), hpte]
      · rw [h₃.table i (by omega)]
        exact hhole i hi hi'
    have hf : f ∈ pages (p₃.mem.pte d) := by
      rw [h₃.pages]
      exact Multiset.mem_cons_self ..
    obtain ⟨p₄, hp₄⟩ : ∃ p₄ : Phys, p₄ = { p₃ with
        mem := Function.update p₃.mem f ((p₃.mem f).blit 0 size init) } := ⟨_, rfl⟩
    obtain ⟨h₄, hpte₄, hkeep₄⟩ := himage.write hf hp₄
    rw [← hp₄]
    refine hQ f p₄ free₃ h₄ ((h₃.keeps.mono fun g hg => ?_).trans hkeep₄) ?_ (by omega)
    · exact Multiset.mem_add.mpr (Or.inr hg)
    · rw [hpte₄, h₃.pte, Function.update_self]
  · rw [hfree₁] at hlen₁
    rw [hlen₁] at hlen
    exact absurd hlen (by decide)

/-- **The state after `main`.** There is one process, with one page of memory. -/
structure Booted (L : Layout) (s : State) (free : List ℕ) : Prop where
  owns : ∀ strict, Owns L strict s free
  live : (s.proc s.initproc).status = .live
  size : (s.proc s.initproc).sz = PGSIZE
  page : ∃ d f, (s.proc s.initproc).pgdir = some d ∧
    s.phys.mem.pte d 0 = mkPte (f * PGSIZE) (PTE_W ||| PTE_U)
  unused : ∀ q ≠ s.initproc, (s.proc q).status = .unused
  ofile : ∀ q fd, (s.proc q).ofile fd = none
  file : ∀ x, (s.file x).ref = 0 ∧ (s.file x).type = .none
  length : 55000 ≤ free.length

theorem Owns.of_true (h : Owns L True s free) (strict : Prop) : Owns L strict s free := by
  refine ⟨h.pool, h.files, fun q hq => ?_⟩
  obtain ⟨d, hd⟩ := h.space q hq
  exact ⟨d, hd.pgdir, hd.kstack, hd.bound, hd.kernel, fun _ => hd.covers trivial⟩

theorem wp_userinit {init : ℕ → UInt8} {size : ℕ} (h : Owns L True s free)
    (hproc : s.proc = (reset m).proc) (hfile : s.file = (reset m).file)
    (hlen : 56320 ≤ free.length)
    {E : Halt → State → Prop} (hE : ∀ e t, PGSIZE ≤ size → E e t) {Q : Unit → State → Prop}
    (hQ : ∀ t free', Booted L t free' → Q () t) :
    Wp (userinit L init size) s Q E := by
  have hunused : ∀ q, (s.proc q).status = .unused := fun q => by
    rw [hproc]
    rfl
  simp only [userinit, allocproc, wp_bind, wp_get]
  cases hfind : slots.find? (fun r => (s.proc r).status = .unused) with
  | none =>
    have := List.find?_eq_none.mp hfind 0 (Proc.mem_slots 0)
    simp [hunused] at this
  | some p =>
    have hpart := h.part p
    rw [Process.frames_of_unused (hunused p), Multiset.add_zero] at hpart
    simp only [wp_bind, wp_vm]
    refine wp_kalloc hpart (fun hfree => ?_) fun k free₁ p₁ hfree hmem h₁ => ?_
    · rw [hfree] at hlen
      exact absurd hlen (by decide)
    simp only [wp_bind, wp_setProc, wp_pure, wp_modify, wp_vm]
    have hlen₁ : free.length = free₁.length + 1 := by
      rw [hfree, List.length_cons]
    refine wp_setupkvm h₁ (fun d p₂ free₂ h₂ => ?_) fun p₂ free₂ _ _ hshort => ?_
    · simp only [wp_bind, wp_setProc, wp_vm]
      have hlen₂ : free₁.length ≤ free₂.length + 513 := h₂.length (by
        rw [← h₁.sum, Multiset.card_add, Multiset.coe_card])
      refine wp_inituvm h₂.pool h₂.pte (fun i hi hi' => h₂.table i (Or.inr ⟨hi, hi'⟩)) (by omega)
        (fun e p' hsize => hE _ _ hsize)
        fun f p₃ free₃ h₃ hkeep₃ hpte₃ hlen₃ => ?_
      obtain ⟨q', hq'⟩ : ∃ q' : Process, q' = { s.proc p with
          status := .live, sz := PGSIZE, pgdir := some d, kstack := some k } := ⟨_, rfl⟩
      have hkstack : q'.kstack = some k := by
        rw [hq']
      have hspace : SpaceOf L True p₃.mem q' d := by
        rw [hq']
        exact ⟨rfl, ⟨k, rfl⟩, h₃.covers.bound, h₃.kernel, fun _ => h₃.covers⟩
      have hkeep : Keeps free 0 s.phys.mem p₃.mem := by
        rw [← hmem]
        exact (h₂.keeps.trans hkeep₃).mono fun f hf => absurd hf (Multiset.notMem_zero f)
      have howns : Owns L True { s with phys := p₃, proc := Function.update s.proc p q' } free₃ :=
        h.newProcess (hunused p) h₃.pool hkeep hspace hkstack (by rw [hq']; rintro ⟨⟩) rfl
      simp only [Function.update_self, Function.update_idem]
      rw [← hq']
      refine hQ _ free₃ ⟨fun strict => ?_, ?_, ?_, ⟨d, f, ?_, hpte₃⟩, fun q hq => ?_,
        fun q fd => ?_, fun x => ?_, by omega⟩
      · have howns' := howns.of_true strict
        exact ⟨howns'.pool, howns'.files, howns'.space⟩
      · simp only [Function.update_self]
        rw [hq']
      · simp only [Function.update_self]
        rw [hq']
      · simp only [Function.update_self]
        rw [hq']
      · simp only [Function.update_of_ne hq]
        exact hunused q
      · by_cases hq : q = p
        · simp only [hq, Function.update_self]
          rw [hq', hproc]
          rfl
        · simp only [Function.update_of_ne hq, hproc]
          rfl
      · simp only [hfile]
        exact ⟨rfl, rfl⟩
    · omega

/-! ### `main` -/

/-- Before there are processes and open files, all pages have been handed over. -/
theorem Early.owns (h : Early L 0 s free m) : Owns L True s free := by
  have hunused : ∀ q, (s.proc q).status = .unused := fun q => by
    rw [h.proc]
    rfl
  have hnopipe : ∀ x, (s.file x).type ≠ .pipe := fun x => by
    rw [h.file]
    exact nofun
  have htaken : s.taken = s.kernel + 0 := by
    have hpipes : pipes s.file = 0 := Multiset.eq_zero_of_forall_notMem fun g hg => by
      obtain ⟨x, hx, -⟩ := mem_pipes.mp hg
      exact hnopipe x hx
    rw [State.taken, hpipes, Finset.sum_eq_zero fun q _ => Process.frames_of_unused (hunused q),
      Multiset.add_zero]
  refine ⟨?_, ⟨fun x _ => hnopipe x, fun x _ hx => absurd hx (hnopipe x), fun x hx =>
    absurd hx (hnopipe x), fun x hx => absurd hx (hnopipe x)⟩, fun q hq => absurd (hunused q) hq⟩
  rw [htaken]
  exact h.pool

/-- **`main`** meets its specification. It may stop only if memory below 4 MB is too small for the
kernel's page tables and the stacks of the CPUs, or if `initcode` is larger than a page. -/
theorem wp_main {n size : ℕ} {init : ℕ → UInt8} {x : K Unit} (hx : x = main L n init size)
    {E : Halt → State → Prop}
    (hE : ∀ e t, 1024 < L.first + 514 + n ∨ PGSIZE ≤ size → E e t) {Q : Unit → State → Prop}
    (hQ : ∀ t free', Booted L t free' → Q () t) : Wp x (reset m) Q E := by
  have hfirst := L.first_le
  have hstart : Pool L L.handed (reset m).phys []
      (List.range' L.first (1024 - L.first) + (List.range' 1024 56320 : Multiset ℕ)) := by
    rw [← L.handed_eq]
    exact ⟨rfl, Multiset.zero_add _, L.nodup_handed, fun f => Layout.mem_handed.mp⟩
  have hround : PGROUNDUP L.end_ = KERNBASE + L.first * PGSIZE := by
    have h₁ := L.end_ge
    have h₂ := L.end_upper
    simp only [PGROUNDUP, Layout.first, npages, KERNBASE, PGSIZE] at *
    omega
  have hlow : P2V (4 * 1024 * 1024) = KERNBASE + (L.first + (1024 - L.first)) * PGSIZE := by
    rw [show L.first + (1024 - L.first) = 1024 by omega]
    rfl
  have hlow' : PGROUNDUP (P2V (4 * 1024 * 1024)) = KERNBASE + 1024 * PGSIZE := rfl
  have hhigh : P2V PHYSTOP = KERNBASE + (1024 + 56320) * PGSIZE := rfl
  rw [hx, main]
  generalize P2V (4 * 1024 * 1024) = low at hlow hlow' ⊢
  generalize P2V PHYSTOP = high at hhigh ⊢
  rw [wp_bind, wp_vm]
  refine wp_freerange (1024 - L.first) hround hlow (by omega) hstart fun p₁ free₁ h₁ _ hlen₁ => ?_
  rw [wp_bind, wp_vm]
  rw [List.length_nil, Nat.zero_add] at hlen₁
  refine wp_setupkvm h₁ (fun d p₂ free₂ h₂ => ?_) fun p₂ free₂ _ _ hshort => ?_
  · simp only [wp_bind, wp_modify]
    have hlen₂ : free₁.length ≤ free₂.length + 513 := h₂.length (by
      rw [← h₁.sum, Multiset.card_add, Multiset.coe_card])
    have hearly : Early L (List.range' 1024 56320)
        { reset m with phys := p₂, kpgdir := some d } free₂ m := by
      refine ⟨?_, rfl, rfl⟩
      have hkernel : State.kernel { reset m with phys := p₂, kpgdir := some d } =
          owned p₂.mem d + 0 := rfl
      rw [hkernel, Multiset.add_zero]
      exact spacePool_iff.mp h₂.pool
    refine wp_startothers n hearly (fun e t hlt => hE e t (Or.inl (by omega))) fun t free₃ h₃ => ?_
    rw [wp_vm]
    have hpool₃ := h₃.pool
    rw [Multiset.add_comm] at hpool₃
    refine wp_freerange 56320 hlow' hhigh (by decide) hpool₃ fun p₄ free₄ h₄ hkeep₄ hlen₄ => ?_
    have hkernel : State.kernel { t with phys := p₄ } = t.kernel :=
      kernel_keep rfl rfl fun f hf => hkeep₄ f (Or.inr hf)
    have hearly₄ : Early L 0 { t with phys := p₄ } free₄ m := by
      refine ⟨?_, h₃.proc, h₃.file⟩
      rw [hkernel, Multiset.add_zero]
      exact h₄
    exact wp_userinit hearly₄.owns h₃.proc h₃.file (by omega)
      (fun e t hsize => hE e t (Or.inr hsize)) hQ
  · exact (wp_throw _).mpr (hE _ _ (Or.inl (by omega)))

/-- If `main` comes to its end then the state is as it should be. -/
theorem booted_of_boot {n size : ℕ} {init : ℕ → UInt8} (h : boot L n init size m = some s) :
    ∃ free, Booted L s free := by
  obtain ⟨x, hx, hfinal⟩ : ∃ x, x = main L n init size ∧ final x (reset m) = some s := ⟨_, rfl, h⟩
  have hmain : Wp x (reset m) (fun _ t => ∃ free, Booted L t free) fun _ _ => True :=
    wp_main hx (fun _ _ _ => trivial) fun t free ht => ⟨free, ht⟩
  obtain ⟨-, hfree⟩ := final_of_wp hmain hfinal
  exact hfree

/-- `main` comes to its end if memory suffices. -/
theorem exists_boot {n size : ℕ} {init : ℕ → UInt8} (hn : L.first + 514 + n ≤ 1024)
    (hsize : size < PGSIZE) : ∃ s, boot L n init size m = some s := by
  obtain ⟨x, hx⟩ : ∃ x, x = main L n init size := ⟨_, rfl⟩
  have hmain : Wp x (reset m) (fun _ _ => True) fun _ _ => False :=
    wp_main hx (fun _ _ h => by omega) fun _ _ _ => trivial
  have hfinal : ∃ s, final x (reset m) = some s := by
    obtain ⟨-, s, hs, -⟩ := exists_final hmain
    exact ⟨s, hs⟩
  rw [hx] at hfinal
  exact hfinal

/-- A kernel of the usual size. -/
def smallKernel : Layout where
  data := 0x80108000
  end_ := 0x801154A8
  data_aligned := rfl
  kernlink_lt := by decide
  data_le := by decide
  end_le := by decide

/-- Memory that is `0` everywhere. -/
def zeroed : Mem := fun _ => Bytes.ofFn fun _ => 0

/-- On a machine with two CPUs the kernel starts. -/
theorem exists_boot_smallKernel : ∃ s, boot smallKernel 1 (fun _ => 0) 0 zeroed = some s :=
  exists_boot (by decide) (by decide)

end Vm

end Xv6
