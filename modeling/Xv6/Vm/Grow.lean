import Xv6.Vm.Mapping

/-!
# Growing and shrinking an address space

What `deallocuvm`, `freevm` and `allocuvm` do to an address space whose frames are part of a pool.
None of them loses a frame: what an address space gives up is on the free list afterwards, also when
`allocuvm` runs out of memory half way.

## Main definitions

* `SpacePool` — a pool from which an address space has been taken
* `cleared` — the entries after `deallocuvm`

## Main results

* `wp_deallocuvm`, `wp_freevm`, `wp_allocuvm`
-/

namespace Xv6

namespace Vm

variable {L : Layout} {X Y Z : Multiset ℕ} {p : Phys} {free : List ℕ} {d i t u v w f lo hi : ℕ}
variable {e : ℕ → ℕ} {E : Halt → Phys → Prop}

/-- From the pool `X` the frames of the address space `d` and `Z` have been taken. -/
def SpacePool (L : Layout) (X : Multiset ℕ) (p : Phys) (free : List ℕ) (d : ℕ) (Z : Multiset ℕ) :
    Prop :=
  DirPool L X p free d (pages (p.mem.pte d) + Z)

theorem spacePool_iff : SpacePool L X p free d Z ↔ Pool L X p free (owned p.mem d + Z) := by
  rw [SpacePool, DirPool, owned, Multiset.cons_add, Multiset.add_assoc]

/-! ### `deallocuvm` -/

/-- The entries `e` after the pages from `lo` to `hi` have been given up. -/
def cleared (e : ℕ → ℕ) (lo hi : ℕ) (u : ℕ) : ℕ :=
  if lo ≤ u ∧ u < hi ∧ Present (e u) then 0 else e u

theorem cleared_of_le (h : hi ≤ lo) : cleared e lo hi = e := by
  funext u
  exact if_neg (by omega)

theorem cleared_of_not_present (h : ¬ Present (e u)) : cleared e u hi = cleared e (u + 1) hi := by
  funext v
  by_cases hv : v = u
  · subst hv
    rw [cleared, cleared, if_neg (fun h' => h h'.2.2), if_neg (by omega)]
  · rw [cleared, cleared]
    exact if_congr (by constructor <;> rintro ⟨h₁, h₂⟩ <;> exact ⟨by omega, h₂⟩) rfl rfl

theorem cleared_skip {k : ℕ} (h : ∀ v, u ≤ v → v < u + k → ¬ Present (e v)) :
    cleared e u hi = cleared e (u + k) hi := by
  induction k with
  | zero => rfl
  | succ k ih =>
    rw [ih fun v hv hv' => h v hv (by omega), cleared_of_not_present (h _ (by omega) (by omega))]
    rfl

theorem cleared_update (hu : u < hi) (h : Present (e u)) :
    cleared (Function.update e u 0) (u + 1) hi = cleared e u hi := by
  funext v
  by_cases hv : v = u
  · subst hv
    rw [cleared, cleared, if_neg (by omega), if_pos ⟨Nat.le_refl _, hu, h⟩, Function.update_self]
  · rw [cleared, cleared, Function.update_of_ne hv]
    exact if_congr (by constructor <;> rintro ⟨h₁, h₂⟩ <;> exact ⟨by omega, h₂⟩) rfl rfl

theorem mem_pages_of_cleared (h : f ∈ pages (cleared e lo hi)) : f ∈ pages e := by
  obtain ⟨v, hv, hpres, hf⟩ := mem_pages.mp h
  rw [cleared] at hpres hf
  split at hpres
  · exact absurd hpres not_present_zero
  · next hn =>
    rw [if_neg hn] at hf
    exact mem_pages.mpr ⟨v, hv, hpres, hf⟩

/-- A mapped user page goes back to the free list. -/
theorem wp_dropPage (h : SpacePool L X p free d Z) (hu : u < 2 ^ 19)
    (ht : p.mem.table d (u / 1024) = some t) (hpres : Present (p.mem.pte d u))
    {Q : Unit → Phys → Prop}
    (hQ : ∀ p', SpacePool L X p' (frame (p.mem.pte d u) :: free) d Z →
      p'.mem.table d = p.mem.table d → p'.mem.pte d = Function.update (p.mem.pte d) u 0 →
      Keeps X (pages (p'.mem.pte d) + Z) p.mem p'.mem → Q () p') :
    Wp (do kfree L (frame (p.mem.pte d u)); store t (u % 1024) 0) p Q E := by
  obtain ⟨e, he⟩ : ∃ e, e = p.mem.pte d := ⟨_, rfl⟩
  rw [SpacePool] at h
  rw [← he] at h hpres hQ ⊢
  have hpages : pages e = frame (e u) ::ₘ pages (Function.update e u 0) := by
    have := pages_update (e := e) (w := 0) (mem_userPages.mpr hu)
    rw [page, if_pos hpres, page_zero, add_zero] at this
    rw [← this, Multiset.add_comm, Multiset.singleton_add]
  have htaken : d ::ₘ (tabs (p.mem.table d) + (pages e + Z)) = frame (e u) ::ₘ
      d ::ₘ (tabs (p.mem.table d) + (pages (Function.update e u 0) + Z)) := by
    rw [hpages, Multiset.cons_add, Multiset.add_cons, Multiset.cons_swap]
  have hne :=
    h.ne_of_mem (Or.inr (Multiset.mem_add.mpr (Or.inl (hpages ▸ Multiset.mem_cons_self ..))))
  rw [wp_bind]
  rw [DirPool, htaken] at h
  refine wp_kfree h fun p₁ hpool hmem => ?_
  have hsame : ∀ g, g = d ∨ g ∈ tabs (p.mem.table d) → p₁.mem g = p.mem g := by
    rintro g (rfl | hg)
    · exact hmem _ hne.1.symm
    · exact hmem _ fun hgf => hne.2 (hgf ▸ hg)
  obtain ⟨htab₁, hpte₁, -⟩ := owned_congr hsame
  rw [← htab₁] at hpool
  have hkeep₁ : Keeps X (pages (Function.update e u 0) + Z) p.mem p₁.mem := fun g hg => by
    refine hmem g ?_
    rintro rfl
    rcases hg with hg | hg
    · exact hg (h.mem_of_taken (Multiset.mem_cons_self ..))
    · exact (Multiset.nodup_cons.mp h.nodup_taken).1
        (Multiset.mem_cons_of_mem (Multiset.mem_add.mpr (Or.inr hg)))
  rw [← htab₁] at ht
  obtain ⟨h₂, htab₂, hpte₂, hkeep₂⟩ := DirPool.setEntry hpool ht (w := 0) (by decide) rfl
  rw [hpte₁, ← he] at hpte₂
  refine hQ _ ?_ (htab₂.trans htab₁) hpte₂ ?_
  · rw [SpacePool, hpte₂]
    exact h₂
  · rw [hpte₂]
    exact hkeep₁.trans hkeep₂

/-- The pages from `lo` to `hi` have been given up. -/
structure Shrunk (L : Layout) (X Z : Multiset ℕ) (d lo hi : ℕ) (p p' : Phys) (free' : List ℕ) :
    Prop where
  pool : SpacePool L X p' free' d Z
  table : p'.mem.table d = p.mem.table d
  pte : p'.mem.pte d = cleared (p.mem.pte d) lo hi
  keeps : Keeps X (pages (p'.mem.pte d) + Z) p.mem p'.mem

/-- The loop of `deallocuvm`, which skips the pages of an absent page table. -/
theorem wp_deallocuvmLoop (r : ℕ) {oldsz : ℕ} (h : SpacePool L X p free d Z) (hhi : hi ≤ 2 ^ 19)
    (hsz : ∀ u, u * PGSIZE < oldsz ↔ u < hi) (hr : hi - u < r) {Q : Unit → Phys → Prop}
    (hQ : ∀ p' free', Shrunk L X Z d u hi p p' free' → Q () p') :
    Wp (deallocuvmLoop L d oldsz r (u * PGSIZE)) p Q E := by
  induction r generalizing p free u with
  | zero => omega
  | succ r ih =>
    rw [deallocuvmLoop]
    by_cases hu : u < hi
    · have hva : u * PGSIZE < 2 ^ 32 := by
        simp only [PGSIZE]
        omega
      have hdiv : u * PGSIZE / PGSIZE = u := Nat.mul_div_cancel u (by decide)
      have hnext : (u * PGSIZE + PGSIZE) % 2 ^ 32 = (u + 1) * PGSIZE := by
        simp only [PGSIZE]
        omega
      rw [if_pos ((hsz u).mpr hu), wp_bind]
      refine wp_walk hva (fun hnone => ?_) fun t ht => ?_
      · -- no page table: on to the first page of the next one
        rw [hdiv] at hnone
        obtain ⟨k, hk⟩ : ∃ k, u + k = (u / 1024 + 1) * 1024 := ⟨(u / 1024 + 1) * 1024 - u, by omega⟩
        have hskip : ((PGADDR (PDX (u * PGSIZE) + 1) 0 0 + (2 ^ 32 - PGSIZE)) % 2 ^ 32 + PGSIZE) %
            2 ^ 32 = (u + k) * PGSIZE := by
          rw [PDX_eq hva, hdiv, hk]
          simp only [PGADDR, PGSIZE]
          omega
        have habsent : ∀ v, u ≤ v → v < u + k → ¬ Present (p.mem.pte d v) := by
          intro v hv hv'
          rw [Mem.pte_of_none (by rw [show v / 1024 = u / 1024 by omega]; exact hnone)]
          exact not_present_zero
        simp only [hskip]
        refine ih h (by omega) fun p' free' hp' => hQ p' free' ⟨hp'.pool, hp'.table, ?_, hp'.keeps⟩
        rw [hp'.pte, cleared_skip habsent]
      · rw [hdiv] at ht ⊢
        have hword : p.mem.word t (u % 1024) = p.mem.pte d u := (Mem.pte_of_table ht).symm
        simp only [load, wp_bind, wp_get, wp_pure, hword, hnext]
        by_cases hpres : Present (p.mem.pte d u)
        · have hmem : frame (p.mem.pte d u) ∈ pages (p.mem.pte d) :=
            mem_pages.mpr ⟨u, mem_userPages.mpr (by omega), hpres, rfl⟩
          have hne : frame (p.mem.pte d u) ≠ 0 := by
            refine (Pool.usable_of_taken h ?_).ne_zero
            exact Multiset.mem_cons_of_mem
              (Multiset.mem_add.mpr (Or.inr (Multiset.mem_add.mpr (Or.inl hmem))))
          rw [if_pos hpres]
          simp only [if_neg hne, wp_bind]
          refine (wp_bind _ _).mp (wp_dropPage h (by omega) ht hpres
            fun p₁ h₁ htab₁ hpte₁ hkeep₁ => ?_)
          refine ih h₁ (by omega) fun p' free' hp' => hQ p' free' ⟨hp'.pool, ?_, ?_, ?_⟩
          · exact hp'.table.trans htab₁
          · rw [hp'.pte, hpte₁, cleared_update hu hpres]
          · refine (hkeep₁.mono fun f hf => ?_).trans hp'.keeps
            rw [hp'.pte] at hf
            exact Multiset.mem_add.mpr ((Multiset.mem_add.mp hf).imp_left mem_pages_of_cleared)
        · rw [if_neg hpres]
          refine ih h (by omega) fun p' free' hp' =>
            hQ p' free' ⟨hp'.pool, hp'.table, ?_, hp'.keeps⟩
          rw [hp'.pte, cleared_of_not_present hpres]
    · rw [if_neg (fun h => hu ((hsz u).mp h))]
      exact hQ p free ⟨h, rfl, (cleared_of_le (by omega)).symm, Keeps.refl _ _ _⟩

/-- The number of pages that a process of size `sz` needs. -/
def npages (sz : ℕ) : ℕ := (sz + (PGSIZE - 1)) / PGSIZE

theorem lt_npages {sz : ℕ} (u : ℕ) : u * PGSIZE < sz ↔ u < npages sz := by
  simp only [npages, PGSIZE]
  omega

theorem PGROUNDUP_eq {sz : ℕ} (h : sz ≤ KERNBASE) : PGROUNDUP sz = npages sz * PGSIZE := by
  simp only [PGROUNDUP, npages, PGSIZE, KERNBASE] at *
  omega

theorem npages_le {sz : ℕ} (h : sz ≤ KERNBASE) : npages sz ≤ 2 ^ 19 := by
  simp only [npages, PGSIZE, KERNBASE] at *
  omega

theorem npages_mono {sz sz' : ℕ} (h : sz ≤ sz') : npages sz ≤ npages sz' :=
  Nat.div_le_div_right (Nat.add_le_add_right h _)

/-- **`deallocuvm`** gives up the pages from `newsz` to `oldsz`. -/
theorem wp_deallocuvm {oldsz newsz : ℕ} (h : SpacePool L X p free d Z) (hold : oldsz ≤ KERNBASE)
    {Q : ℕ → Phys → Prop}
    (hQ : ∀ p' free', Shrunk L X Z d (npages newsz) (npages oldsz) p p' free' →
      Q (min newsz oldsz) p') : Wp (deallocuvm L d oldsz newsz) p Q E := by
  rw [deallocuvm]
  by_cases hle : newsz ≥ oldsz
  · rw [if_pos hle]
    have hshrunk : Shrunk L X Z d (npages newsz) (npages oldsz) p p free :=
      ⟨h, rfl, (cleared_of_le (npages_mono hle)).symm, Keeps.refl _ _ _⟩
    have := hQ p free hshrunk
    rwa [Nat.min_eq_right hle] at this
  · rw [if_neg hle, PGROUNDUP_eq (by omega)]
    simp only [wp_bind, wp_pure]
    have hround : npages oldsz - npages newsz < ROUNDS := by
      have := npages_le hold
      simp only [ROUNDS]
      omega
    refine wp_deallocuvmLoop ROUNDS h (npages_le hold) lt_npages hround fun p' free' hp' => ?_
    have := hQ p' free' hp'
    rwa [Nat.min_eq_left (by omega)] at this

/-! ### `freevm` -/

/-- The page table of an entry of a page directory. -/
def tab (T : ℕ → Option ℕ) (i : ℕ) : Multiset ℕ := (T i).elim 0 ({·})

theorem tabs_eq (T : ℕ → Option ℕ) : tabs T = ((List.range NPDENTRIES).map (tab T)).sum :=
  sum_dirIndices _

/-- The loop of `freevm` gives up the page tables. -/
theorem wp_freevmLoop (is : List ℕ)
    (h : Pool L X p free (d ::ₘ ((is.map (tab (p.mem.table d))).sum + Z))) {Q : Unit → Phys → Prop}
    (hQ : ∀ p' free', Pool L X p' free' (d ::ₘ Z) → Keeps X Z p.mem p'.mem → Q () p') :
    Wp (freevmLoop L d is) p Q E := by
  induction is generalizing p free with
  | nil =>
    rw [List.map_nil, List.sum_nil, zero_add] at h
    exact hQ p free h (Keeps.refl _ _ _)
  | cons i is ih =>
    rw [List.map_cons, List.sum_cons] at h
    simp only [freevmLoop, load, wp_bind, wp_get, wp_pure]
    by_cases hpres : Present (p.mem.word d i)
    · obtain ⟨t, ht⟩ : ∃ t, t = frame (p.mem.word d i) := ⟨_, rfl⟩
      have htab : tab (p.mem.table d) i = {t} := by
        rw [tab, table_eq_some hpres, ht]
        rfl
      have htaken : d ::ₘ (tab (p.mem.table d) i + (is.map (tab (p.mem.table d))).sum + Z) =
          t ::ₘ d ::ₘ ((is.map (tab (p.mem.table d))).sum + Z) := by
        rw [htab, Multiset.singleton_add, Multiset.cons_add, Multiset.cons_swap]
      rw [htaken] at h
      have hdt : d ≠ t := by
        rintro rfl
        exact (Multiset.nodup_cons.mp h.nodup_taken).1 (Multiset.mem_cons_self ..)
      rw [if_pos hpres, ← ht, wp_bind]
      refine wp_kfree h fun p₁ h₁ hmem => ?_
      rw [← Mem.table_congr (hmem d hdt)] at h₁
      refine ih h₁ fun p' free' h' hkeep => hQ p' free' h' (Keeps.trans (fun g hg => ?_) hkeep)
      refine hmem g ?_
      rintro rfl
      rcases hg with hg | hg
      · exact hg (h.mem_of_taken (Multiset.mem_cons_self ..))
      · exact (Multiset.nodup_cons.mp h.nodup_taken).1
          (Multiset.mem_cons_of_mem (Multiset.mem_add.mpr (Or.inr hg)))
    · rw [tab, table_eq_none hpres, Option.elim_none, zero_add] at h
      rw [if_neg hpres]
      exact ih h hQ

/-- **`freevm`** gives up all frames of an address space. -/
theorem wp_freevm (h : SpacePool L X p free d Z) {Q : Unit → Phys → Prop}
    (hQ : ∀ p' free', Pool L X p' free' Z → Keeps X Z p.mem p'.mem → Q () p') :
    Wp (freevm L (some d)) p Q E := by
  simp only [freevm, wp_bind]
  refine wp_deallocuvm h (Nat.le_refl _) fun p₁ free₁ h₁ => ?_
  have hpages : pages (p₁.mem.pte d) = 0 := by
    refine pages_eq_zero fun v hv => ?_
    have hlt : v < npages KERNBASE := mem_userPages.mp hv
    rw [h₁.pte, cleared]
    by_cases hpres : Present (p.mem.pte d v)
    · rw [if_pos ⟨Nat.zero_le v, hlt, hpres⟩]
      exact not_present_zero
    · rwa [if_neg fun h => hpres h.2.2]
  have hpool := h₁.pool
  have hkeeps := h₁.keeps
  rw [SpacePool, hpages, zero_add, DirPool, tabs_eq] at hpool
  rw [hpages, zero_add] at hkeeps
  generalize List.range NPDENTRIES = is at hpool ⊢
  refine wp_freevmLoop is hpool fun p₂ free₂ h₂ hkeep₂ => ?_
  refine wp_kfree h₂ fun p₃ h₃ hmem => ?_
  refine hQ p₃ _ h₃ ((hkeeps.trans hkeep₂).trans fun g hg => hmem g ?_)
  rintro rfl
  rcases hg with hg | hg
  · exact hg (h₂.mem_of_taken (Multiset.mem_cons_self ..))
  · exact (Multiset.nodup_cons.mp h₂.nodup_taken).1 hg

/-! ### `allocuvm` -/

/-- A frame that has just been taken is mapped at the user page `u`. -/
theorem wp_mapPage {perm : ℕ} (h : DirPool L X p free d (f ::ₘ (pages (p.mem.pte d) + Z)))
    (hu : u < 2 ^ 19) (hperm : perm < PGSIZE) {Q : Bool → Phys → Prop}
    (hremap : ∀ p', Present (p.mem.pte d u) → E .remap p')
    (htrue : ∀ p' free', ¬ Present (p.mem.pte d u) → SpacePool L X p' free' d Z →
      p'.mem.pte d = Function.update (p.mem.pte d) u (mkPte (f * PGSIZE) perm) →
      (∀ i, 512 ≤ i → p'.mem.table d i = p.mem.table d i) →
      Keeps X (f ::ₘ (pages (p.mem.pte d) + Z)) p.mem p'.mem → free.length ≤ free'.length + 1 →
      Q true p')
    (hfalse : ∀ p', DirPool L X p' [] d (f ::ₘ (pages (p.mem.pte d) + Z)) →
      p'.mem.pte d = p.mem.pte d → Keeps X (f ::ₘ (pages (p.mem.pte d) + Z)) p.mem p'.mem →
      free = [] → Q false p') :
    Wp (mappages d (u * PGSIZE) PGSIZE (f * PGSIZE) perm) p Q E := by
  have hf : L.Usable f := Pool.usable_of_taken h (Multiset.mem_cons_of_mem
    (Multiset.mem_add.mpr (Or.inr (Multiset.mem_cons_self ..))))
  rw [show mappages d (u * PGSIZE) PGSIZE = mappages d (u * PGSIZE) ((0 + 1) * PGSIZE) by
    rw [Nat.zero_add, Nat.one_mul]]
  refine wp_mappages h (by omega) hf.mul_lt hperm ?_ ?_ ?_
  · intro v p' hv hv' hpres
    obtain rfl : v = u := by omega
    exact hremap p' hpres
  · intro p' free' hp'
    have habsent := hp'.absent u (Nat.le_refl u) (by omega)
    have hpte : p'.mem.pte d = Function.update (p.mem.pte d) u (mkPte (f * PGSIZE) perm) := by
      rw [hp'.pte, Nat.zero_add, mapped_one _ _ _ hf.mul_lt]
    refine htrue p' free' habsent ?_ hpte (fun i hi => hp'.table i (by omega)) hp'.keeps hp'.length
    rw [SpacePool, hpte, pages_mkPte (mem_userPages.mpr hu) habsent hperm, Multiset.cons_add]
    exact hp'.pool
  · intro p' k hk hp'
    obtain rfl : k = 0 := by omega
    refine hfalse p' hp'.pool ?_ hp'.keeps (List.length_eq_zero_iff.mp (Nat.le_zero.mp hp'.length))
    rw [hp'.pte, mapped_zero]

/-- The pages from `lo` to `hi` have been added, page `u` with permissions `perm u` and contents
`c u`. -/
structure Grown (L : Layout) (X Z : Multiset ℕ) (d : ℕ) (perm : ℕ → ℕ) (c : ℕ → Bytes PGSIZE)
    (lo hi : ℕ) (p : Phys) (free : List ℕ) (p' : Phys) (free' : List ℕ) : Prop where
  pool : SpacePool L X p' free' d Z
  new : ∀ u, lo ≤ u → u < hi → ∃ f, p'.mem.pte d u = mkPte (f * PGSIZE) (perm u) ∧
    f ∈ pages (p'.mem.pte d) ∧ p'.mem f = c u
  old : ∀ u, ¬ (lo ≤ u ∧ u < hi) → p'.mem.pte d u = p.mem.pte d u
  table : ∀ i, 512 ≤ i → p'.mem.table d i = p.mem.table d i
  keeps : Keeps X (pages (p.mem.pte d) + Z) p.mem p'.mem
  length : free.length ≤ free'.length + 2 * (hi - lo)

/-- What `allocuvm` leaves behind when it fails: the pages from `lo` to `hi` are not mapped. -/
structure Undone (L : Layout) (X Z : Multiset ℕ) (d lo hi : ℕ) (p p' : Phys) (free' : List ℕ) :
    Prop where
  pool : SpacePool L X p' free' d Z
  gone : ∀ u, lo ≤ u → u < hi → ¬ Present (p'.mem.pte d u)
  old : ∀ u, ¬ (lo ≤ u ∧ u < hi) → p'.mem.pte d u = p.mem.pte d u
  keeps : Keeps X (pages (p'.mem.pte d) + Z) p.mem p'.mem

/-- If some pages are not mapped and the others are as they were, then what is mapped was mapped. -/
theorem mem_pages_of_old {e' : ℕ → ℕ} (hgone : ∀ u, lo ≤ u → u < hi → ¬ Present (e' u))
    (hold : ∀ u, ¬ (lo ≤ u ∧ u < hi) → e' u = e u) (hf : f ∈ pages e') : f ∈ pages e := by
  obtain ⟨v, hv, hpres, hframe⟩ := mem_pages.mp hf
  have hout : ¬ (lo ≤ v ∧ v < hi) := fun hin => hgone v hin.1 hin.2 hpres
  rw [hold v hout] at hpres hframe
  exact mem_pages.mpr ⟨v, hv, hpres, hframe⟩

theorem Shrunk.undone {p' : Phys} {free' : List ℕ} (h : Shrunk L X Z d lo hi p p' free') :
    Undone L X Z d lo hi p p' free' := by
  refine ⟨h.pool, fun u hu hu' => ?_, fun u hu => ?_, h.keeps⟩
  · rw [h.pte, cleared]
    by_cases hpres : Present (p.mem.pte d u)
    · rw [if_pos ⟨hu, hu', hpres⟩]
      exact not_present_zero
    · rwa [if_neg fun h => hpres h.2.2]
  · rw [h.pte, cleared, if_neg fun h => hu ⟨h.1, h.2.1⟩]

/-- A frame is taken for an address space. -/
theorem SpacePool.kalloc (h : SpacePool L X p free d Z) {Q : Option ℕ → Phys → Prop}
    (hnone : free = [] → Q none p)
    (hsome : ∀ f free' p', free = f :: free' → p'.mem = p.mem →
      DirPool L X p' free' d (f ::ₘ (pages (p'.mem.pte d) + Z)) → Q (some f) p') :
    Wp kalloc p Q E := by
  refine wp_kalloc h hnone fun f free' p' hfree hmem hpool => hsome f free' p' hfree hmem ?_
  rw [DirPool, hmem, Multiset.add_cons, Multiset.cons_swap]
  exact hpool

/-- The frame `f` has been taken for an address space, and filled. -/
structure Taken (L : Layout) (X Z : Multiset ℕ) (d f : ℕ) (c : Bytes PGSIZE) (p p' : Phys)
    (free' : List ℕ) : Prop where
  pool : DirPool L X p' free' d (f ::ₘ (pages (p'.mem.pte d) + Z))
  pte : p'.mem.pte d = p.mem.pte d
  table : p'.mem.table d = p.mem.table d
  page : p'.mem f = c
  keeps : Keeps X (pages (p.mem.pte d) + Z) p.mem p'.mem

theorem Taken.of_update {c : Bytes PGSIZE} {p₁ p' : Phys}
    (h : DirPool L X p₁ free d (f ::ₘ (pages (p₁.mem.pte d) + Z))) (hmem : p₁.mem = p.mem)
    (hp' : p' = { p₁ with mem := Function.update p₁.mem f c }) : Taken L X Z d f c p p' free := by
  obtain ⟨h', htable, hpte⟩ := h.write (Multiset.mem_cons_self ..) hp'
  rw [← hpte] at h'
  have hfresh : f ∉ pages (p₁.mem.pte d) + Z := by
    have := (Multiset.nodup_cons.mp h.nodup).2
    exact (Multiset.nodup_cons.mp (Multiset.nodup_add.mp this).2.1).1
  refine ⟨h', hpte.trans (by rw [hmem]), htable.trans (by rw [hmem]), ?_, fun g hg => ?_⟩
  · rw [hp']
    exact Function.update_self ..
  · rw [hp', ← hmem]
    refine Function.update_of_ne ?_ _ _
    rintro rfl
    rcases hg with hg | hg
    · exact hg (Pool.mem_of_taken h (Multiset.mem_cons_of_mem
        (Multiset.mem_add.mpr (Or.inr (Multiset.mem_cons_self ..)))))
    · rw [← hmem] at hg
      exact hfresh hg

/-- The frame `f`, filled with `c`, has been mapped at the user page `u`. -/
structure Added (L : Layout) (X Z : Multiset ℕ) (d u f perm : ℕ) (c : Bytes PGSIZE) (p p' : Phys)
    (free' : List ℕ) : Prop where
  pool : SpacePool L X p' free' d Z
  pte : p'.mem.pte d = Function.update (p.mem.pte d) u (mkPte (f * PGSIZE) perm)
  table : ∀ i, 512 ≤ i → p'.mem.table d i = p.mem.table d i
  pages : pages (p'.mem.pte d) = f ::ₘ pages (p.mem.pte d)
  page : p'.mem f = c
  keeps : Keeps X (Vm.pages (p.mem.pte d) + Z) p.mem p'.mem

/-- The frame that has been taken is mapped at the user page `u`. -/
theorem Taken.wp_mapPage {perm : ℕ} {c : Bytes PGSIZE} {p' : Phys} (h : Taken L X Z d f c p p' free)
    (hu : u < 2 ^ 19) (hperm : perm < PGSIZE) {Q : Bool → Phys → Prop}
    (hremap : ∀ q, Present (p.mem.pte d u) → E .remap q)
    (htrue : ∀ q free', Added L X Z d u f perm c p q free' → free.length ≤ free'.length + 1 →
      Q true q)
    (hfalse : ∀ q, SpacePool L X q [] d (f ::ₘ Z) → q.mem.pte d = p.mem.pte d →
      Keeps X (pages (p.mem.pte d) + Z) p.mem q.mem → free = [] → Q false q) :
    Wp (mappages d (u * PGSIZE) PGSIZE (f * PGSIZE) perm) p' Q E := by
  refine Vm.wp_mapPage h.pool hu hperm (fun q => ?_)
    (fun q free' habsent hq hpte htable hkeep hlen => ?_)
    fun q hq hpte hkeep hfree => ?_
  · rw [h.pte]
    exact hremap q
  · rw [h.pte] at habsent hpte hkeep
    rw [h.table] at htable
    refine htrue q free' ⟨hq, hpte, htable, ?_, ?_, ?_⟩ hlen
    · rw [hpte, pages_mkPte (mem_userPages.mpr hu) habsent hperm]
    · exact (hkeep f (Or.inr (Multiset.mem_cons_self ..))).trans h.page
    · exact h.keeps.trans (hkeep.mono fun g hg => Multiset.mem_cons_of_mem hg)
  · rw [h.pte] at hpte hkeep hq
    refine hfalse q ?_ hpte
      (h.keeps.trans (hkeep.mono fun g hg => Multiset.mem_cons_of_mem hg)) hfree
    rw [SpacePool, hpte, Multiset.add_cons]
    exact hq

/-- A page is added, and then more. -/
theorem Grown.cons {perm : ℕ → ℕ} {c : ℕ → Bytes PGSIZE} {p₁ p' : Phys} {free₁ free' : List ℕ}
    (h : Added L X Z d u f (perm u) (c u) p p₁ free₁) (hperm : perm u < PGSIZE) (hu : u < hi)
    (hhi : hi ≤ 2 ^ 19) (hlen : free.length ≤ free₁.length + 2)
    (h' : Grown L X Z d perm c (u + 1) hi p₁ free₁ p' free') :
    Grown L X Z d perm c u hi p free p' free' := by
  refine ⟨h'.pool, fun v hv hv' => ?_, fun v hv => ?_, fun i hi => ?_, ?_, ?_⟩
  · rcases Nat.eq_or_lt_of_le hv with rfl | hv
    · have hentry : p'.mem.pte d u = mkPte (f * PGSIZE) (perm u) := by
        rw [h'.old u (by omega), h.pte, Function.update_self]
      refine ⟨f, hentry, mem_pages.mpr ⟨u, mem_userPages.mpr (by omega), ?_⟩, ?_⟩
      · rw [hentry]
        exact ⟨present_mkPte _ _, frame_mkPte hperm⟩
      · refine (h'.keeps f (Or.inr (Multiset.mem_add.mpr (Or.inl ?_)))).trans h.page
        rw [h.pages]
        exact Multiset.mem_cons_self ..
    · exact h'.new v hv hv'
  · rw [h'.old v (by omega), h.pte, Function.update_of_ne (by omega)]
  · rw [h'.table i hi, h.table i hi]
  · refine h.keeps.trans (h'.keeps.mono fun g hg => ?_)
    rw [h.pages, Multiset.cons_add]
    exact Multiset.mem_cons_of_mem hg
  · have := h'.length
    omega

/-- A page is added, and then everything undone. -/
theorem Undone.cons {p₁ p' : Phys} {free₁ free' : List ℕ} {perm : ℕ} {c : Bytes PGSIZE}
    (h : Added L X Z d u f perm c p p₁ free₁) (hlo : lo ≤ u) (hu : u < hi)
    (h' : Undone L X Z d lo hi p₁ p' free') : Undone L X Z d lo hi p p' free' := by
  have hold : ∀ v, ¬ (lo ≤ v ∧ v < hi) → p'.mem.pte d v = p.mem.pte d v := fun v hv => by
    rw [h'.old v hv, h.pte, Function.update_of_ne (by omega)]
  refine ⟨h'.pool, h'.gone, hold, fun g hg => ?_⟩
  refine (h'.keeps g hg).trans (h.keeps g (hg.imp_right fun hg => ?_))
  exact Multiset.mem_add.mpr ((Multiset.mem_add.mp hg).imp_left (mem_pages_of_old h'.gone hold))

/-- A frame that has been taken for an address space goes back. -/
theorem SpacePool.kfree (h : SpacePool L X p free d (f ::ₘ Z)) {Q : Unit → Phys → Prop}
    (hQ : ∀ p', SpacePool L X p' (f :: free) d Z → p'.mem.table d = p.mem.table d →
      p'.mem.pte d = p.mem.pte d → Keeps X (pages (p.mem.pte d) + Z) p.mem p'.mem → Q () p') :
    Wp (kfree L f) p Q E := by
  have hpool : Pool L X p free (f ::ₘ (owned p.mem d + Z)) := by
    rw [← Multiset.add_cons]
    exact spacePool_iff.mp h
  have hfresh : f ∉ owned p.mem d + Z := (Multiset.nodup_cons.mp hpool.nodup_taken).1
  refine wp_kfree hpool fun p' h' hmem => ?_
  have hkeep : ∀ g, g = d ∨ g ∈ tabs (p.mem.table d) → p'.mem g = p.mem g := by
    intro g hg
    refine hmem g ?_
    rintro rfl
    refine hfresh (Multiset.mem_add.mpr (Or.inl ?_))
    rcases hg with rfl | hg
    · exact Multiset.mem_cons_self ..
    · exact Multiset.mem_cons_of_mem (Multiset.mem_add.mpr (Or.inl hg))
  obtain ⟨htab, hpte, howned⟩ := owned_congr hkeep
  refine hQ p' (spacePool_iff.mpr (howned ▸ h')) htab hpte fun g hg => hmem g ?_
  rintro rfl
  rcases hg with hg | hg
  · exact hg (hpool.mem_of_taken (Multiset.mem_cons_self ..))
  · refine hfresh (Multiset.mem_add.mpr ((Multiset.mem_add.mp hg).imp_left fun hg => ?_))
    exact Multiset.mem_cons_of_mem (Multiset.mem_add.mpr (Or.inr hg))

/-- The pages from `lo` to `hi` have been added, filled with zeros, for the user to read and
write. -/
abbrev GrownZero (L : Layout) (X Z : Multiset ℕ) (d lo hi : ℕ) (p : Phys)
    (free : List ℕ) (p' : Phys)
    (free' : List ℕ) : Prop :=
  Grown L X Z d (fun _ => PTE_W ||| PTE_U) (fun _ => Bytes.ofFn fun _ => 0) lo hi p free p' free'

/-- The loop of `allocuvm`, at page `u`. -/
theorem wp_allocuvmLoop (r : ℕ) {oldsz newsz : ℕ} (h : SpacePool L X p free d Z)
    (hnew : newsz < KERNBASE) (hlo : npages oldsz ≤ u) (hr : npages newsz - u < r)
    {Q : ℕ → Phys → Prop}
    (hremap : ∀ v p', u ≤ v → v < npages newsz → Present (p.mem.pte d v) → E .remap p')
    (hok : ∀ p' free', GrownZero L X Z d u (npages newsz) p free p' free' → Q newsz p')
    (hfail : ∀ p' free', Undone L X Z d (npages oldsz) (npages newsz) p p' free' →
      free.length < 2 * (npages newsz - u) → Q 0 p') :
    Wp (allocuvmLoop L d oldsz newsz r (u * PGSIZE)) p Q E := by
  induction r generalizing p free u with
  | zero => omega
  | succ r ih =>
    rw [allocuvmLoop]
    by_cases hu : u < npages newsz
    · have hupper := npages_le (Nat.le_of_lt hnew)
      have hnext : (u * PGSIZE + PGSIZE) % 2 ^ 32 = (u + 1) * PGSIZE := by
        simp only [PGSIZE]
        omega
      rw [if_pos ((lt_npages u).mpr hu), wp_bind]
      refine h.kalloc (fun hfree => ?_) fun f free₁ p₁ hfree hmem h₁ => ?_
      · simp only [wp_bind, wp_pure]
        refine wp_deallocuvm h (Nat.le_of_lt hnew) fun p' free' hp' => hfail p' free' hp'.undone ?_
        rw [hfree]
        exact Nat.mul_pos (by decide) (Nat.sub_pos_of_lt hu)
      · simp only [memset, wp_bind, wp_modify]
        obtain ⟨p₂, hp₂⟩ : ∃ p₂ : Phys, p₂ = { p₁ with mem := p₁.mem.fill f 0 } := ⟨_, rfl⟩
        have h₂ := Taken.of_update h₁ hmem hp₂
        rw [← hp₂]
        have hlen₁ : free.length = free₁.length + 1 := by
          rw [hfree, List.length_cons]
        refine h₂.wp_mapPage (by omega) (by decide) (fun q => hremap u q (Nat.le_refl u) hu) ?_ ?_
        · intro p₃ free₃ h₃ hlen₃
          rw [if_pos rfl, hnext]
          refine ih h₃.pool (by omega) (by omega) ?_ ?_ ?_
          · intro v q hv hv' hpres
            rw [h₃.pte, Function.update_of_ne (by omega)] at hpres
            exact hremap v q (by omega) hv' hpres
          · exact fun p' free' hp' => hok p' free' (hp'.cons h₃ (by decide) hu hupper (by omega))
          · exact fun p' free' hp' hlen => hfail p' free' (hp'.cons h₃ hlo hu) (by omega)
        · intro p₃ h₃ hpte₃ hkeep₃ hfree₁
          simp only [Bool.false_eq_true, if_false, wp_bind, wp_pure]
          refine wp_deallocuvm h₃ (Nat.le_of_lt hnew) fun p₄ free₄ h₄ => ?_
          refine SpacePool.kfree h₄.pool fun p' h' _ hpte' hkeep' => hfail p' (f :: free₄) ?_ ?_
          · have hundone := h₄.undone
            refine ⟨h', fun v hv hv' => ?_, fun v hv => ?_, fun g hg => ?_⟩
            · rw [hpte']
              exact hundone.gone v hv hv'
            · rw [hpte', hundone.old v hv, hpte₃]
            · rw [hpte'] at hg
              have hg₄ : g ∉ X ∨ g ∈ pages (p₄.mem.pte d) + f ::ₘ Z := hg.imp_right fun hg => by
                rw [Multiset.add_cons]
                exact Multiset.mem_cons_of_mem hg
              have hg₃ : g ∉ X ∨ g ∈ pages (p.mem.pte d) + Z := hg.imp_right fun hg => by
                refine Multiset.mem_add.mpr ((Multiset.mem_add.mp hg).imp_left fun hg => ?_)
                rw [← hpte₃]
                exact mem_pages_of_old hundone.gone hundone.old hg
              rw [hkeep' g hg, hundone.keeps g hg₄, hkeep₃ g hg₃]
          · rw [hlen₁, hfree₁, List.length_nil]
            omega
    · rw [if_neg (fun h => hu ((lt_npages u).mp h))]
      exact hok p free ⟨h, fun v hv hv' => by omega, fun _ _ => rfl, fun _ _ => rfl,
        Keeps.refl _ _ _, by omega⟩

/-- **`allocuvm`** adds the pages up to `newsz`, or fails and adds none. -/
theorem wp_allocuvm {oldsz newsz : ℕ} (h : SpacePool L X p free d Z) (hold : oldsz ≤ KERNBASE)
    {Q : ℕ → Phys → Prop}
    (hremap : ∀ v p', npages oldsz ≤ v → v < npages newsz → newsz < KERNBASE →
      Present (p.mem.pte d v) → E .remap p')
    (hsame : newsz < oldsz → Q oldsz p)
    (hok : ∀ p' free', oldsz ≤ newsz → newsz < KERNBASE →
      GrownZero L X Z d (npages oldsz) (npages newsz) p free p' free' → Q newsz p')
    (htoobig : newsz ≥ KERNBASE → Q 0 p)
    (hfail : ∀ p' free', oldsz ≤ newsz → newsz < KERNBASE →
      Undone L X Z d (npages oldsz) (npages newsz) p p' free' →
      free.length < 2 * (npages newsz - npages oldsz) → Q 0 p') :
    Wp (allocuvm L d oldsz newsz) p Q E := by
  rw [allocuvm]
  by_cases hbig : newsz ≥ KERNBASE
  · rw [if_pos hbig]
    exact htoobig hbig
  · rw [if_neg hbig]
    have hnew : newsz < KERNBASE := Nat.lt_of_not_le hbig
    by_cases hlt : newsz < oldsz
    · rw [if_pos hlt]
      exact hsame hlt
    · have hle := Nat.le_of_not_lt hlt
      rw [if_neg hlt, PGROUNDUP_eq hold]
      have hround : npages newsz - npages oldsz < ROUNDS := by
        have := npages_le (Nat.le_of_lt hnew)
        simp only [ROUNDS]
        omega
      exact wp_allocuvmLoop ROUNDS h hnew (Nat.le_refl _) hround
        (fun v p' hv hv' => hremap v p' hv hv' hnew) (fun p' free' => hok p' free' hle hnew)
        fun p' free' => hfail p' free' hle hnew

end Vm

end Xv6
