import Xv6.Vm.Kvm

/-!
# Copying an address space

`copyuvm` makes an address space of its own frames, page by page. The address space that is copied
is not part of the pool the frames come from, so it is not changed. It stops only at a page below
`sz` that is not mapped.

## Main results

* `wp_copyuvm`
-/

namespace Xv6

namespace Vm

variable {L : Layout} {X Z : Multiset ℕ} {p : Phys} {free : List ℕ} {d pgdir sz u : ℕ}
variable {E : Halt → Phys → Prop}

/-- The frames of an address space lie outside a pool. -/
def Outside (X : Multiset ℕ) (m : Mem) (d : ℕ) : Prop := ∀ f ∈ owned m d, f ∉ X

theorem Outside.congr {m m' : Mem} (h : Outside X m d) (hkeep : Keeps X Z m m') :
    m'.table d = m.table d ∧ m'.pte d = m.pte d ∧ owned m' d = owned m d := by
  refine owned_congr fun f hf => hkeep f (Or.inl (h f ?_))
  rcases hf with rfl | hf
  · exact Multiset.mem_cons_self ..
  · exact Multiset.mem_cons_of_mem (Multiset.mem_add.mpr (Or.inl hf))

theorem Outside.keep {m m' : Mem} (h : Outside X m d) (hkeep : Keeps X Z m m') :
    Outside X m' d := by
  rw [Outside, (h.congr hkeep).2.2]
  exact h

/-- A mapped page of the address space is not changed. -/
theorem Outside.page {m m' : Mem} (h : Outside X m d) (hkeep : Keeps X Z m m') (hu : u < 2 ^ 19)
    (hpres : Present (m.pte d u)) : m' (frame (m.pte d u)) = m (frame (m.pte d u)) := by
  refine hkeep _ (Or.inl (h _ (Multiset.mem_cons_of_mem (Multiset.mem_add.mpr (Or.inr ?_)))))
  exact mem_pages.mpr ⟨u, mem_userPages.mpr hu, hpres, rfl⟩

/-- The pages from `lo` to `hi` have been copied from the address space `pgdir`. -/
abbrev Copied (L : Layout) (X Z : Multiset ℕ) (d pgdir lo hi : ℕ) (p : Phys) (free : List ℕ)
    (p' : Phys) (free' : List ℕ) : Prop :=
  Grown L X Z d (fun u => PTE_FLAGS (p.mem.pte pgdir u))
    (fun u => p.mem (frame (p.mem.pte pgdir u)))
    lo hi p free p' free'

/-- The loop of `copyuvm`, at page `u`. -/
theorem wp_copyuvmLoop (r : ℕ) (h : SpacePool L X p free d Z) (hout : Outside X p.mem pgdir)
    (hsz : sz ≤ KERNBASE) (hr : npages sz - u < r)
    (habsent : ∀ v, u ≤ v → v < npages sz → ¬ Present (p.mem.pte d v)) {Q : Option ℕ → Phys → Prop}
    (hpanic : ∀ v e q, e = .copyuvmPte ∨ e = .copyuvmPage → u ≤ v → v < npages sz →
      ¬ Present (p.mem.pte pgdir v) → E e q)
    (hsome : ∀ p' free', (∀ v, u ≤ v → v < npages sz → Present (p.mem.pte pgdir v)) →
      Copied L X Z d pgdir u (npages sz) p free p' free' → Q (some d) p')
    (hnone : ∀ p' free', Pool L X p' free' Z → Keeps X Z p.mem p'.mem →
      free.length < 2 * (npages sz - u) → Q none p') :
    Wp (copyuvmLoop L pgdir sz d r (u * PGSIZE)) p Q E := by
  induction r generalizing p free u with
  | zero => omega
  | succ r ih =>
    rw [copyuvmLoop]
    by_cases hu : u < npages sz
    · have hupper := npages_le hsz
      have hva : u * PGSIZE < 2 ^ 32 := by
        simp only [PGSIZE]
        omega
      have hdiv : u * PGSIZE / PGSIZE = u := Nat.mul_div_cancel u (by decide)
      have hnext : (u * PGSIZE + PGSIZE) % 2 ^ 32 = (u + 1) * PGSIZE := by
        simp only [PGSIZE]
        omega
      rw [if_pos ((lt_npages u).mpr hu), wp_bind]
      refine wp_walk hva (fun hnotable => ?_) fun t ht => ?_
      · rw [hdiv] at hnotable
        refine hpanic u _ _ (Or.inl rfl) (Nat.le_refl u) hu ?_
        rw [Mem.pte_of_none hnotable]
        exact not_present_zero
      · rw [hdiv] at ht ⊢
        have hword : p.mem.word t (u % 1024) = p.mem.pte pgdir u := (Mem.pte_of_table ht).symm
        simp only [load, wp_bind, wp_get, wp_pure, hword]
        by_cases hpres : Present (p.mem.pte pgdir u)
        · simp only [hpres, not_true, if_false, wp_bind]
          refine h.kalloc (fun hfree => ?_) fun f free₁ p₁ hfree hmem h₁ => ?_
          · simp only [wp_bind, wp_pure]
            refine wp_freevm h fun p' free' hp' hkeep => hnone p' free' hp' hkeep ?_
            rw [hfree, List.length_nil]
            omega
          · simp only [wp_bind, wp_modify]
            obtain ⟨p₂, hp₂⟩ : ∃ p₂ : Phys, p₂ = { p₁ with
                mem := Function.update p₁.mem f (p₁.mem (frame (p.mem.pte pgdir u))) } := ⟨_, rfl⟩
            have h₂ := Taken.of_update h₁ hmem hp₂
            rw [hmem] at h₂
            rw [← hp₂]
            have hflags : PTE_FLAGS (p.mem.pte pgdir u) < PGSIZE := Nat.mod_lt _ (by decide)
            refine h₂.wp_mapPage (by omega) hflags ?_ ?_ ?_
            · exact fun q hmapped => absurd hmapped (habsent u (Nat.le_refl u) hu)
            · intro p₃ free₃ h₃ hlen₃
              obtain ⟨-, hpte₃, -⟩ := hout.congr h₃.keeps
              rw [if_pos rfl, hnext]
              refine ih h₃.pool (hout.keep h₃.keeps) (by omega) ?_ ?_ ?_ ?_
              · intro v hv hv'
                rw [h₃.pte, Function.update_of_ne (by omega)]
                exact habsent v (by omega) hv'
              · intro v e q he hv hv' hv''
                rw [hpte₃] at hv''
                exact hpanic v e q he (by omega) hv' hv''
              · intro p' free' hall hp'
                rw [hpte₃] at hall
                have hall' : ∀ v, u ≤ v → v < npages sz → Present (p.mem.pte pgdir v) := by
                  intro v hv hv'
                  rcases Nat.eq_or_lt_of_le hv with rfl | hv
                  · exact hpres
                  · exact hall v hv hv'
                refine hsome p' free' hall' (Grown.cons h₃ hflags hu hupper ?_ ?_)
                · rw [hfree, List.length_cons]
                  omega
                · refine ⟨hp'.pool, fun v hv hv' => ?_, hp'.old, hp'.table, hp'.keeps, hp'.length⟩
                  obtain ⟨g, hg, hmem_g, hcopy⟩ := hp'.new v hv hv'
                  simp only [hpte₃] at hg hcopy
                  refine ⟨g, hg, hmem_g, hcopy.trans ?_⟩
                  exact hout.page h₃.keeps (by omega) (hall v hv hv')
              · intro p' free' hp' hkeep hlen
                refine hnone p' free' hp' ((h₃.keeps.mono fun g hg => by simp [hg]).trans hkeep) ?_
                rw [hfree, List.length_cons]
                omega
            · intro p₃ h₃ hpte₃ hkeep₃ hfree₁
              simp only [Bool.false_eq_true, if_false, wp_bind, wp_pure]
              refine h₃.kfree fun p₄ h₄ htab₄ hpte₄ hkeep₄ => ?_
              have hmono : ∀ g ∈ Z, g ∈ pages (p.mem.pte d) + Z := fun g hg => by simp [hg]
              rw [hpte₃] at hkeep₄
              refine wp_freevm h₄ fun p' free' hp' hkeep => hnone p' free' hp'
                (((hkeep₃.mono hmono).trans (hkeep₄.mono hmono)).trans hkeep) ?_
              rw [hfree, hfree₁, List.length_singleton]
              omega
        · simp only [hpres, not_false_eq_true, if_true]
          exact hpanic u _ _ (Or.inr rfl) (Nat.le_refl u) hu hpres
    · rw [if_neg (fun h => hu ((lt_npages u).mp h))]
      exact hsome p free (fun v hv hv' => by omega)
        ⟨h, fun v hv hv' => by omega, fun _ _ => rfl, fun _ _ => rfl, Keeps.refl _ _ _, by omega⟩

/-- **`copyuvm`** makes a copy that shares no frame with the original. It stops only if a page below
`sz` is not mapped. -/
theorem wp_copyuvm (h : Pool L X p free Z) (hout : Outside X p.mem pgdir) (hsz : sz ≤ KERNBASE)
    {Q : Option ℕ → Phys → Prop}
    (hpanic : ∀ v e q, e = .copyuvmPte ∨ e = .copyuvmPage → v < npages sz →
      ¬ Present (p.mem.pte pgdir v) → E e q)
    (hsome : ∀ d p' free', SpacePool L X p' free' d Z →
      (∀ v < npages sz, Present (p.mem.pte pgdir v) ∧
        ∃ f, p'.mem.pte d v = mkPte (f * PGSIZE) (PTE_FLAGS (p.mem.pte pgdir v)) ∧
          f ∈ pages (p'.mem.pte d) ∧ p'.mem f = p.mem (frame (p.mem.pte pgdir v))) →
      (∀ v, npages sz ≤ v → p'.mem.pte d v = kvm L v) → Keeps X Z p.mem p'.mem →
      free.length ≤ free'.length + 513 + 2 * npages sz → Q (some d) p')
    (hnone : ∀ p' free', Pool L X p' free' Z → Keeps X Z p.mem p'.mem →
      free.length ≤ 513 + 2 * npages sz → Q none p') :
    Wp (copyuvm L pgdir sz) p Q E := by
  have hupper := npages_le hsz
  rw [copyuvm, wp_bind]
  refine wp_setupkvm h (fun d p₁ free₁ h₁ => ?_) fun p' free' hp' hkeep hlen =>
    hnone p' free' hp' hkeep (by omega)
  obtain ⟨-, hpte₁, -⟩ := hout.congr h₁.keeps
  have hlen₁ : free.length ≤ free₁.length + 513 := h₁.length (by
    rw [← h.sum, Multiset.card_add, Multiset.coe_card])
  have hround : npages sz - 0 < ROUNDS := by
    simp only [ROUNDS]
    omega
  change Wp (copyuvmLoop L pgdir sz d ROUNDS 0) p₁ Q E
  rw [← Nat.zero_mul PGSIZE]
  refine wp_copyuvmLoop ROUNDS h₁.pool (hout.keep h₁.keeps) hsz hround ?_ ?_ ?_ ?_
  · intro v _ hv
    rw [h₁.pte, kvm_eq_zero (Or.inl (by omega))]
    exact not_present_zero
  · intro v e q he _ hv hpres
    rw [hpte₁] at hpres
    exact hpanic v e q he hv hpres
  · intro p' free' hall hp'
    rw [hpte₁] at hall
    have hlen' := hp'.length
    refine hsome d p' free' hp'.pool (fun v hv => ⟨hall v (Nat.zero_le v) hv, ?_⟩)
      (fun v hv => ?_) ?_
      (by omega)
    · obtain ⟨f, hf, hmem_f, hcopy⟩ := hp'.new v (Nat.zero_le v) hv
      simp only [hpte₁] at hf hcopy
      exact ⟨f, hf, hmem_f,
        hcopy.trans (hout.page h₁.keeps (by omega) (hall v (Nat.zero_le v) hv))⟩
    · rw [hp'.old v (by omega), h₁.pte]
    · exact h₁.keeps.trans (hp'.keeps.mono fun g hg => by simp [hg])
  · exact fun p' free' hp' hkeep hlen => hnone p' free' hp' (h₁.keeps.trans hkeep) (by omega)

end Vm

end Xv6
