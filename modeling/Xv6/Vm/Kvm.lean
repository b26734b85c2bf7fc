import Xv6.Vm.Grow

/-!
# The kernel half of an address space

`setupkvm` makes a page directory whose entries are those of `kvm L`, whatever was in memory before:
the four ranges of `kmap`, and nothing below `KERNBASE`. The page tables it needs are at most `512`,
so it fails only if there are fewer than `514` free frames.

## Main definitions

* `Kmap.first`, `Kmap.count` — the pages of an entry of `kmap`
* `kvm` — the entries of a new page directory

## Main results

* `wp_setupkvm`
-/

namespace Xv6

namespace Vm

variable {L : Layout} {X Y Z : Multiset ℕ} {p : Phys} {free : List ℕ} {d i u v f : ℕ}
variable {e : ℕ → ℕ} {k : Kmap} {ks : List Kmap} {E : Halt → Phys → Prop}

/-! ### The ranges of `kmap` -/

/-- The first virtual page of a range. -/
def Kmap.first (k : Kmap) : ℕ := k.virt / PGSIZE

/-- The size of a range in bytes. -/
def Kmap.size (k : Kmap) : ℕ := (k.physEnd + (2 ^ 32 - k.physStart)) % 2 ^ 32

/-- The number of pages of a range. -/
def Kmap.count (k : Kmap) : ℕ := k.size / PGSIZE

/-- A page belongs to a range. -/
def Kmap.Has (k : Kmap) (u : ℕ) : Prop := k.first ≤ u ∧ u < k.first + k.count

/-- A range of whole pages in the upper half of the address space. -/
structure Kmap.Ok (k : Kmap) : Prop where
  virt : k.virt = k.first * PGSIZE
  size : k.size = k.count * PGSIZE
  count : 0 < k.count
  upper : 2 ^ 19 ≤ k.first
  fits : k.first + k.count ≤ 2 ^ 20
  phys : k.physStart < 2 ^ 32
  perm : k.perm < PGSIZE

/-- The entries `e` after the ranges `ks` have been mapped. -/
def mapAll (e : ℕ → ℕ) : List Kmap → ℕ → ℕ
  | [] => e
  | k :: ks => mapAll (mapped e k.first k.count k.physStart k.perm) ks

theorem mapped_of_not_has (h : ¬ k.Has u) : mapped e k.first k.count k.physStart k.perm u = e u :=
  if_neg h

theorem mapAll_of_not_has (h : ∀ k ∈ ks, ¬ k.Has u) : mapAll e ks u = e u := by
  induction ks generalizing e with
  | nil => rfl
  | cons k ks ih =>
    rw [mapAll, ih fun k' hk' => h k' (List.mem_cons_of_mem _ hk'),
      mapped_of_not_has (h k (List.mem_cons_self ..))]

theorem mapAll_of_has (h : ∃ k ∈ ks, k.Has u) : ∃ k ∈ ks,
    mapAll e ks u = mkPte ((k.physStart + (u - k.first) * PGSIZE) % 2 ^ 32) k.perm := by
  induction ks generalizing e with
  | nil => simp at h
  | cons k ks ih =>
    by_cases hks : ∃ k' ∈ ks, k'.Has u
    · obtain ⟨k', hk', heq⟩ := ih (e := mapped e k.first k.count k.physStart k.perm) hks
      exact ⟨k', List.mem_cons_of_mem _ hk', heq⟩
    · have hk : k.Has u := by
        obtain ⟨k', hk', hu⟩ := h
        rcases List.mem_cons.mp hk' with rfl | hk'
        · exact hu
        · exact absurd ⟨k', hk', hu⟩ hks
      refine ⟨k, List.mem_cons_self .., ?_⟩
      rw [mapAll, mapAll_of_not_has fun k' hk' hu => hks ⟨k', hk', hu⟩]
      exact if_pos hk

/-- The entries of a page directory that `setupkvm` has made. -/
def kvm (L : Layout) : ℕ → ℕ := mapAll (fun _ => 0) (kmap L)

theorem Kmap.ok_of {first count physStart physEnd perm : ℕ}
    (hsize : (physEnd + (2 ^ 32 - physStart)) % 2 ^ 32 = count * PGSIZE) (hcount : 0 < count)
    (hupper : 524288 ≤ first) (hfits : first + count ≤ 1048576) (hphys : physStart < 4294967296)
    (hperm : perm < PGSIZE) :
    (⟨first * PGSIZE, physStart, physEnd, perm⟩ : Kmap).Ok ∧
      (⟨first * PGSIZE, physStart, physEnd, perm⟩ : Kmap).first = first ∧
      (⟨first * PGSIZE, physStart, physEnd, perm⟩ : Kmap).count = count := by
  have hf : (⟨first * PGSIZE, physStart, physEnd, perm⟩ : Kmap).first = first :=
    Nat.mul_div_cancel _ (by decide)
  have hc : (⟨first * PGSIZE, physStart, physEnd, perm⟩ : Kmap).count = count := by
    rw [Kmap.count, Kmap.size, hsize, Nat.mul_div_cancel _ (by decide)]
  refine ⟨⟨?_, ?_, ?_, ?_, ?_, hphys, hperm⟩, hf, hc⟩
  · rw [hf]
  · rw [hc]
    exact hsize
  · rw [hc]
    exact hcount
  · rw [hf]
    exact hupper
  · rw [hf, hc]
    exact hfits

/-- The ranges of `kmap` in pages; `data` is the start of page `q`. -/
theorem kmap_eq (L : Layout) :
    ∃ k₁ k₂ k₃ k₄ q, kmap L = [k₁, k₂, k₃, k₄] ∧ 524544 < q ∧ q ≤ 525312 ∧
    (k₁.Ok ∧ k₁.first = 524288 ∧ k₁.count = 256) ∧
    (k₂.Ok ∧ k₂.first = 524544 ∧ k₂.count = q - 524544) ∧
    (k₃.Ok ∧ k₃.first = q ∧ k₃.count = 581632 - q) ∧
    (k₄.Ok ∧ k₄.first = 1040384 ∧ k₄.count = 8192) := by
  obtain ⟨q, hq, hq₁, hq₂⟩ : ∃ q, L.data = q * PGSIZE ∧ 524544 < q ∧ q ≤ 525312 := by
    have h₁ := L.kernlink_lt
    have h₂ := L.data_le
    have h₃ := L.end_le
    have h₄ := L.data_aligned
    simp only [KERNLINK, KERNBASE, EXTMEM, PGSIZE, P2V] at h₁ h₃ h₄
    exact ⟨L.data / 4096, by simp only [PGSIZE]; omega, by omega, by omega⟩
  have hdata : V2P L.data = (q - 524288) * 4096 := by
    simp only [V2P, hq, KERNBASE, PGSIZE]
    omega
  have hkmap : kmap L = [⟨524288 * PGSIZE, 0, EXTMEM, PTE_W⟩,
      ⟨524544 * PGSIZE, 1048576, (q - 524288) * 4096, 0⟩,
      ⟨q * PGSIZE, (q - 524288) * 4096, PHYSTOP, PTE_W⟩,
      ⟨1040384 * PGSIZE, DEVSPACE, 0, PTE_W⟩] := by
    rw [kmap, hdata, hq, show V2P KERNLINK = 1048576 by decide,
      show KERNBASE = 524288 * PGSIZE by decide, show KERNLINK = 524544 * PGSIZE by decide,
      show DEVSPACE = 1040384 * PGSIZE by decide]
  refine ⟨_, _, _, _, q, hkmap, hq₁, hq₂,
    Kmap.ok_of ?_ (by decide) (by decide) (by decide) (by decide) (by decide),
    Kmap.ok_of ?_ (by omega) (by decide) (by omega) (by decide) (by decide),
    Kmap.ok_of ?_ (by omega) (by omega) (by omega) (by omega) (by decide),
    Kmap.ok_of ?_ (by decide) (by decide) (by decide) (by decide) (by decide)⟩
  · decide
  · simp only [PGSIZE]
    omega
  · simp only [PGSIZE, PHYSTOP]
    omega
  · decide

theorem kmap_ok (hk : k ∈ kmap L) : k.Ok := by
  obtain ⟨k₁, k₂, k₃, k₄, q, hkmap, -, -, h₁, h₂, h₃, h₄⟩ := kmap_eq L
  rw [hkmap] at hk
  simp only [List.mem_cons, List.not_mem_nil, or_false] at hk
  obtain rfl | rfl | rfl | rfl := hk
  · exact h₁.1
  · exact h₂.1
  · exact h₃.1
  · exact h₄.1

/-- The ranges are in increasing order. -/
theorem kmap_pairwise (L : Layout) :
    (kmap L).Pairwise fun k k' => k.first + k.count ≤ k'.first := by
  obtain ⟨k₁, k₂, k₃, k₄, q, hkmap, hq₁, hq₂, h₁, h₂, h₃, h₄⟩ := kmap_eq L
  rw [hkmap]
  simp only [List.pairwise_cons, List.mem_cons, List.not_mem_nil, or_false, forall_eq_or_imp,
    forall_eq, h₁.2.1, h₁.2.2, h₂.2.1, h₂.2.2, h₃.2.1, h₃.2.2, h₄.2.1]
  refine ⟨⟨?_, ?_, ?_⟩, ⟨?_, ?_⟩, ?_, nofun, .nil⟩ <;> omega

/-- The pages that `kmap` covers. -/
theorem kmap_has (hk : k ∈ kmap L) (hu : k.Has u) :
    524288 ≤ u ∧ u < 581632 ∨ 1040384 ≤ u ∧ u < 1048576 := by
  obtain ⟨k₁, k₂, k₃, k₄, q, hkmap, hq₁, hq₂, h₁, h₂, h₃, h₄⟩ := kmap_eq L
  rw [hkmap] at hk
  simp only [List.mem_cons, List.not_mem_nil, or_false] at hk
  obtain ⟨hu, hu'⟩ := hu
  obtain rfl | rfl | rfl | rfl := hk
  · rw [h₁.2.1] at hu hu'
    rw [h₁.2.2] at hu'
    omega
  · rw [h₂.2.1] at hu hu'
    rw [h₂.2.2] at hu'
    omega
  · rw [h₃.2.1] at hu hu'
    rw [h₃.2.2] at hu'
    omega
  · rw [h₄.2.1] at hu hu'
    rw [h₄.2.2] at hu'
    omega

/-- Nothing is mapped below `KERNBASE`, nor between the memory and the devices. -/
theorem kvm_eq_zero (hu : u < 524288 ∨ 581632 ≤ u ∧ u < 1040384) : kvm L u = 0 := by
  refine mapAll_of_not_has fun k hk hu' => ?_
  have := kmap_has hk hu'
  omega

theorem kmap_perm (hk : k ∈ kmap L) : k.physStart % PGSIZE = 0 ∧ ¬ User k.perm := by
  have hdata : V2P L.data % PGSIZE = 0 := by
    have := L.data_aligned
    simp only [V2P, PGSIZE, KERNBASE] at *
    omega
  simp only [kmap, List.mem_cons, List.not_mem_nil, or_false] at hk
  have hlink : V2P KERNLINK % PGSIZE = 0 := by decide
  have hkernel : ¬ User 0 ∧ ¬ User PTE_W := by decide
  obtain rfl | rfl | rfl | rfl := hk
  · exact ⟨rfl, hkernel.2⟩
  · exact ⟨hlink, hkernel.1⟩
  · exact ⟨hdata, hkernel.2⟩
  · exact ⟨rfl, hkernel.2⟩

/-- No page of the kernel is accessible to user code. -/
theorem not_user_kvm (L : Layout) (u : ℕ) : ¬ User (kvm L u) := by
  by_cases h : ∃ k ∈ kmap L, k.Has u
  · obtain ⟨k, hk, heq⟩ := mapAll_of_has (e := fun _ => 0) h
    obtain ⟨hphys, hperm⟩ := kmap_perm hk
    obtain ⟨f, hf⟩ : ∃ f, (k.physStart + (u - k.first) * PGSIZE) % 2 ^ 32 = f * PGSIZE :=
      ⟨(k.physStart + (u - k.first) * PGSIZE) % 2 ^ 32 / PGSIZE, by simp only [PGSIZE] at *; omega⟩
    rw [kvm, heq, hf, user_mkPte]
    exact hperm
  · rw [kvm, mapAll_of_not_has fun k hk hu => h ⟨k, hk, hu⟩]
    decide

/-- Memory and the space of the devices are mapped. -/
theorem present_kvm (hu : 524288 ≤ u ∧ u < 581632 ∨ 1040384 ≤ u ∧ u < 1048576) :
    Present (kvm L u) := by
  obtain ⟨k₁, k₂, k₃, k₄, q, hkmap, hq₁, hq₂, h₁, h₂, h₃, h₄⟩ := kmap_eq L
  have hhas : ∃ k ∈ kmap L, k.Has u := by
    rw [hkmap]
    simp only [List.mem_cons, List.not_mem_nil, or_false, exists_eq_or_imp,
      exists_eq_left, Kmap.Has, h₁.2.1, h₁.2.2, h₂.2.1, h₂.2.2, h₃.2.1, h₃.2.2, h₄.2.1, h₄.2.2]
    omega
  obtain ⟨k, -, heq⟩ := mapAll_of_has (e := fun _ => 0) hhas
  rw [kvm, heq]
  exact present_mkPte _ _

/-! ### `setupkvm` -/

theorem card_tabs_le {T : ℕ → Option ℕ} (h : ∀ i < 512, T i = none) : (tabs T).card ≤ 512 := by
  have hcard : ∀ i ∈ dirIndices, ((T i).elim (0 : Multiset ℕ) ({·})).card ≤
      if 512 ≤ i then 1 else 0 := by
    intro i _
    by_cases hi : 512 ≤ i
    · rw [if_pos hi]
      cases T i <;> simp
    · rw [h i (Nat.lt_of_not_le hi), if_neg hi]
      simp
  have hupper : dirIndices.filter (512 ≤ ·) = Finset.Ico 512 1024 := by
    ext i
    rw [Finset.mem_filter, mem_dirIndices, Finset.mem_Ico, and_comm]
  calc (tabs T).card = ∑ i ∈ dirIndices, ((T i).elim (0 : Multiset ℕ) ({·})).card :=
        map_sum Multiset.cardHom _ _
    _ ≤ ∑ i ∈ dirIndices, if 512 ≤ i then 1 else 0 := Finset.sum_le_sum hcard
    _ = 512 := by
      rw [Finset.sum_boole, hupper, Nat.card_Ico]
      rfl

/-- How much of the pool has been used for page tables. -/
theorem DirPool.card (h : DirPool L X p free d Y) (htab : ∀ i < 512, p.mem.table d i = none) :
    X.card ≤ free.length + (Y.card + 513) := by
  have hsum := congrArg Multiset.card h.sum
  have := card_tabs_le htab
  rw [Multiset.card_add, Multiset.card_cons, Multiset.card_add, Multiset.coe_card] at hsum
  omega

/-- A page directory with the kernel's mappings only. -/
structure KvmReady (L : Layout) (X Y : Multiset ℕ) (p p' : Phys) (free' : List ℕ)
    (d : ℕ) : Prop where
  pool : SpacePool L X p' free' d Y
  pte : p'.mem.pte d = kvm L
  table : ∀ i, i < 512 ∨ 568 ≤ i ∧ i < 1016 → p'.mem.table d i = none
  keeps : Keeps X Y p.mem p'.mem

/-- The loop of `setupkvm`. -/
theorem wp_setupkvmLoop (ks : List Kmap) (h : DirPool L X p free d Y) (hok : ∀ k ∈ ks, k.Ok)
    (hpair : ks.Pairwise fun k k' => k.first + k.count ≤ k'.first)
    (habsent : ∀ k ∈ ks, ∀ u, k.Has u → ¬ Present (p.mem.pte d u))
    (huser : ∀ u < 524288, ¬ Present (p.mem.pte d u)) (htab : ∀ i < 512, p.mem.table d i = none)
    {Q : Option ℕ → Phys → Prop}
    (hsome : ∀ p' free', DirPool L X p' free' d Y → p'.mem.pte d = mapAll (p.mem.pte d) ks →
      (∀ i, (∀ k ∈ ks, i < k.first / 1024 ∨ (k.first + k.count - 1) / 1024 < i) →
        p'.mem.table d i = p.mem.table d i) → Keeps X Y p.mem p'.mem → Q (some d) p')
    (hnone : ∀ p' free', Pool L X p' free' Y → Keeps X Y p.mem p'.mem → X.card ≤ Y.card + 513 →
      Q none p') :
    Wp (setupkvmLoop L d ks) p Q E := by
  induction ks generalizing p free with
  | nil => exact hsome p free h rfl (fun _ _ => rfl) (Keeps.refl _ _ _)
  | cons k ks ih =>
    obtain ⟨hk, hks⟩ := List.pairwise_cons.mp hpair
    have hkok := hok k (List.mem_cons_self ..)
    obtain ⟨n, hn⟩ : ∃ n, k.count = n + 1 := ⟨k.count - 1, by have := hkok.count; omega⟩
    have hupper := hkok.upper
    have hfits := hkok.fits
    rw [setupkvmLoop, wp_bind]
    have hmap : mappages d k.virt ((k.physEnd + (2 ^ 32 - k.physStart)) % 2 ^ 32)
        k.physStart k.perm =
        mappages d (k.first * PGSIZE) ((n + 1) * PGSIZE) k.physStart k.perm := by
      rw [← hn, ← hkok.size, ← hkok.virt]
      rfl
    rw [hmap]
    refine wp_mappages h (by omega) hkok.phys hkok.perm ?_ ?_ ?_
    · intro u q hu hu' hpres
      exact absurd hpres (habsent k (List.mem_cons_self ..) u ⟨hu, by omega⟩)
    · intro p₁ free₁ h₁
      have hpte₁ : p₁.mem.pte d = mapped (p.mem.pte d) k.first k.count k.physStart k.perm := by
        rw [hn]
        exact h₁.pte
      have hother : ∀ u, ¬ k.Has u → p₁.mem.pte d u = p.mem.pte d u := fun u hu => by
        rw [hpte₁, mapped_of_not_has hu]
      rw [if_pos rfl]
      refine ih h₁.pool (fun k' hk' => hok k' (List.mem_cons_of_mem _ hk')) hks ?_ ?_ ?_ ?_ ?_
      · intro k' hk' u hu
        have := hk k' hk'
        rw [hother u fun hu' => by have := hu'.2; have := hu.1; omega]
        exact habsent k' (List.mem_cons_of_mem _ hk') u hu
      · intro u hu
        rw [hother u fun hu' => by have := hu'.1; omega]
        exact huser u hu
      · intro i hi
        rw [h₁.table i (by omega)]
        exact htab i hi
      · intro p' free' hp' hpte htable hkeep
        refine hsome p' free' hp' ?_ (fun i hi => ?_) (h₁.keeps.trans hkeep)
        · rw [hpte, hpte₁]
          rfl
        · rw [htable i fun k' hk' => hi k' (List.mem_cons_of_mem _ hk'), h₁.table i]
          have := hi k (List.mem_cons_self ..)
          rw [hn] at this
          exact this
      · intro p' free' hp' hkeep hcard
        exact hnone p' free' hp' (h₁.keeps.trans hkeep) hcard
    · intro p₁ j hj h₁
      have htab₁ : ∀ i < 512, p₁.mem.table d i = none := fun i hi => by
        rw [h₁.table i (by omega)]
        exact htab i hi
      have hpages : pages (p₁.mem.pte d) = 0 := by
        refine pages_eq_zero fun u hu => ?_
        rw [Mem.pte_of_none (htab₁ _ (by have := mem_userPages.mp hu; omega))]
        exact not_present_zero
      have hspace : SpacePool L X p₁ [] d Y := by
        rw [SpacePool, hpages, zero_add]
        exact h₁.pool
      have hcard := h₁.pool.card htab₁
      rw [List.length_nil, Nat.zero_add] at hcard
      simp only [Bool.false_eq_true, if_false, wp_bind, wp_pure]
      refine wp_freevm hspace fun p' free' hp' hkeep => ?_
      exact hnone p' free' hp' (h₁.keeps.trans hkeep) hcard

/-- A page that has just been taken and zeroed is an empty page directory. -/
theorem DirPool.of_zero {p' : Phys} (h : Pool L X p free (d ::ₘ Y))
    (hp' : p' = { p with mem := p.mem.fill d 0 }) :
    DirPool L X p' free d Y ∧ (∀ i, p'.mem.table d i = none) ∧ (p'.mem.pte d = fun _ => 0) ∧
      Keeps X Y p.mem p'.mem := by
  subst hp'
  have htab : ∀ i, (p.mem.fill d 0).table d i = none := fun i => by
    rw [Mem.table, Mem.word_fill_zero, if_neg not_present_zero]
  have htabs : tabs ((p.mem.fill d 0).table d) = 0 :=
    Finset.sum_eq_zero fun i _ => by rw [htab i]; rfl
  refine ⟨?_, htab, funext fun u => Mem.pte_of_none (htab _), fun f hf => Mem.fill_of_ne ?_⟩
  · rw [DirPool]
    simp only [htabs, zero_add]
    refine h.write rfl fun g hg => Mem.fill_of_ne ?_
    rintro rfl
    exact hg (Multiset.mem_cons_self ..)
  · rintro rfl
    rcases hf with hf | hf
    · exact hf (h.mem_of_taken (Multiset.mem_cons_self ..))
    · exact (Multiset.nodup_cons.mp h.nodup_taken).1 hf

/-- **`setupkvm`** makes a page directory with the kernel's mappings, or fails for lack of
memory. -/
theorem wp_setupkvm (h : Pool L X p free Y) {Q : Option ℕ → Phys → Prop}
    (hsome : ∀ d p' free', KvmReady L X Y p p' free' d → Q (some d) p')
    (hnone : ∀ p' free', Pool L X p' free' Y → Keeps X Y p.mem p'.mem → free.length ≤ 513 →
      Q none p') :
    Wp (setupkvm L) p Q E := by
  have hcard : X.card = free.length + Y.card := by
    rw [← h.sum, Multiset.card_add, Multiset.coe_card]
  rw [setupkvm, wp_bind]
  refine wp_kalloc h (fun hfree => ?_) fun d free₁ p₁ hfree hmem h₁ => ?_
  · exact hnone p free h (Keeps.refl _ _ _) (by rw [hfree]; exact Nat.zero_le _)
  · have hlow : ¬ P2V PHYSTOP > DEVSPACE := by decide
    simp only [memset, wp_bind, wp_modify, if_neg hlow]
    obtain ⟨p₂, hp₂⟩ : ∃ p₂ : Phys, p₂ = { p₁ with mem := p₁.mem.fill d 0 } := ⟨_, rfl⟩
    obtain ⟨h₂, htab₂, hpte₂, hkeep₂⟩ := DirPool.of_zero h₁ hp₂
    rw [hmem] at hkeep₂
    rw [← hp₂]
    refine wp_setupkvmLoop (kmap L) h₂ (fun k => kmap_ok) (kmap_pairwise L) ?_ ?_
      (fun i _ => htab₂ i) ?_ ?_
    · intro k _ u _
      rw [hpte₂]
      exact not_present_zero
    · intro u _
      rw [hpte₂]
      exact not_present_zero
    · intro p' free' h' hpte htable hkeep
      have hpte' : p'.mem.pte d = kvm L := by
        rw [hpte, hpte₂]
        rfl
      refine hsome d p' free' ⟨?_, hpte', fun i hi => ?_, hkeep₂.trans hkeep⟩
      · have hpages : pages (p'.mem.pte d) = 0 := by
          refine pages_eq_zero fun u hu => ?_
          rw [hpte', kvm_eq_zero (Or.inl (mem_userPages.mp hu))]
          exact not_present_zero
        rw [SpacePool, hpages, zero_add]
        exact h'
      · rw [htable i fun k hk => ?_, htab₂ i]
        by_contra hin
        -- the first page of the range that page table `i` would serve
        have := kmap_has hk (u := max k.first (i * 1024))
          ⟨by omega, by have := (kmap_ok hk).count; omega⟩
        omega
    · intro p' free' h' hkeep hX
      exact hnone p' free' h' (hkeep₂.trans hkeep) (by omega)

/-- How many frames a new page directory takes. -/
theorem KvmReady.length {p' : Phys} {free' : List ℕ} (h : KvmReady L X Y p p' free' d)
    (hX : X.card = free.length + Y.card) : free.length ≤ free'.length + 513 := by
  have hpages : pages (p'.mem.pte d) = 0 := by
    refine pages_eq_zero fun u hu => ?_
    rw [h.pte, kvm_eq_zero (Or.inl (mem_userPages.mp hu))]
    exact not_present_zero
  have hpool := h.pool
  rw [SpacePool, hpages, zero_add] at hpool
  have := hpool.card fun i hi => h.table i (Or.inl hi)
  omega

end Vm

end Xv6
