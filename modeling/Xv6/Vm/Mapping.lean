import Xv6.Vm.Owned

/-!
# Mapping pages

What `walkpgdir` and `mappages` do to an address space whose frames are part of a pool. `DirPool` is
the pool with the page directory and its page tables taken out; everything else that has been taken
from the pool is `Y` and is not touched. `walkpgdir` adds at most a page table, which maps nothing.
`mappages` enters one page after the other, up to the end of the range or until no frame is left for
a page table.

## Main definitions

* `DirPool`
* `mapped` — the entries after `mappages`

## Main results

* `wp_walk`, `wp_walkAlloc` — `walkpgdir`
* `wp_mappages` — `mappages`
-/

namespace Xv6

namespace Vm

variable {L : Layout} {X Y : Multiset ℕ} {p : Phys} {free : List ℕ} {d i t v w va f : ℕ}
variable {E : Halt → Phys → Prop}

/-- From the pool `X` the page directory `d`, its page tables and `Y` have been taken. -/
def DirPool (L : Layout) (X : Multiset ℕ) (p : Phys) (free : List ℕ) (d : ℕ)
    (Y : Multiset ℕ) : Prop :=
  Pool L X p free (d ::ₘ (tabs (p.mem.table d) + Y))

namespace DirPool

theorem nodup (h : DirPool L X p free d Y) : (d ::ₘ (tabs (p.mem.table d) + Y)).Nodup :=
  h.nodup_taken

theorem table_ne (h : DirPool L X p free d Y) (ht : p.mem.table d i = some t) : t ≠ d := by
  rintro rfl
  exact (Multiset.nodup_cons.mp h.nodup).1 (Multiset.mem_add.mpr (Or.inl (mem_tabs_of_table ht)))

theorem unique (h : DirPool L X p free d Y) {j : ℕ} (hi : p.mem.table d i = some t)
    (hj : p.mem.table d j = some t) : i = j :=
  table_unique (Multiset.nodup_add.mp (Multiset.nodup_cons.mp h.nodup).2).1 hi hj

/-- The frames of `Y` are those of no page table. -/
theorem ne_of_mem (h : DirPool L X p free d Y) (hf : f ∉ X ∨ f ∈ Y) :
    f ≠ d ∧ f ∉ tabs (p.mem.table d) := by
  rcases hf with hf | hf
  · constructor
    · rintro rfl
      exact hf (h.mem_of_taken (Multiset.mem_cons_self ..))
    · intro ht
      exact hf (h.mem_of_taken (Multiset.mem_cons_of_mem (Multiset.mem_add.mpr (Or.inl ht))))
  · obtain ⟨hd, hrest⟩ := Multiset.nodup_cons.mp h.nodup
    constructor
    · rintro rfl
      exact hd (Multiset.mem_add.mpr (Or.inr hf))
    · intro ht
      exact Multiset.disjoint_left.mp (Multiset.nodup_add.mp hrest).2.2 ht hf

/-- Assignment to an entry of a page table. -/
theorem setEntry (h : DirPool L X p free d Y) (ht : p.mem.table d (v / 1024) = some t)
    (hw : w < 2 ^ 32) {p' : Phys}
    (hp' : p' = { p with mem := p.mem.setWord t (v % 1024) w }) :
    DirPool L X p' free d Y ∧ p'.mem.table d = p.mem.table d ∧
      p'.mem.pte d = Function.update (p.mem.pte d) v w ∧ Keeps X Y p.mem p'.mem := by
  subst hp'
  have hne := h.table_ne ht
  have htab := Mem.table_setWord (m := p.mem) (j := v % 1024) (w := w) hne
  refine ⟨?_, htab, Mem.pte_setWord ht hne (fun i hi => h.unique hi ht) hw, fun f hf => ?_⟩
  · rw [DirPool]
    simp only [htab]
    refine Pool.write h rfl fun g hg => Mem.setWord_of_ne ?_
    rintro rfl
    exact hg (Multiset.mem_cons_of_mem (Multiset.mem_add.mpr (Or.inl (mem_tabs_of_table ht))))
  · refine Mem.setWord_of_ne ?_
    rintro rfl
    exact (h.ne_of_mem hf).2 (mem_tabs_of_table ht)

/-- A frame that is not part of the page tables is written. -/
theorem write (h : DirPool L X p free d Y) (hf : f ∈ Y) {c : Bytes PGSIZE} {p' : Phys}
    (hp' : p' = { p with mem := Function.update p.mem f c }) :
    DirPool L X p' free d Y ∧ p'.mem.table d = p.mem.table d ∧ p'.mem.pte d = p.mem.pte d := by
  subst hp'
  obtain ⟨hne, htabs⟩ := h.ne_of_mem (Or.inr hf)
  have hkeep : ∀ g, g = d ∨ g ∈ tabs (p.mem.table d) → Function.update p.mem f c g = p.mem g :=
    fun g hg => Function.update_of_ne (by rintro rfl; exact hg.elim hne htabs) _ _
  obtain ⟨htab, hpte, -⟩ := owned_congr hkeep
  refine ⟨?_, htab, hpte⟩
  rw [DirPool]
  simp only [htab]
  refine Pool.write h rfl fun g hg => Function.update_of_ne ?_ _ _
  rintro rfl
  exact hg (Multiset.mem_cons_of_mem (Multiset.mem_add.mpr (Or.inr hf)))

/-- A new page table. -/
theorem addTable (h : Pool L X p free (t ::ₘ d ::ₘ (tabs (p.mem.table d) + Y))) (hi : i < 1024)
    (hnone : p.mem.table d i = none) {p' : Phys}
    (hp' : p' = { p with mem := p.mem.addTable d i t }) :
    DirPool L X p' free d Y ∧ p'.mem.table d = Function.update (p.mem.table d) i (some t) ∧
      p'.mem.pte d = p.mem.pte d ∧ Keeps X Y p.mem p'.mem := by
  subst hp'
  obtain ⟨hfresh, hrest⟩ := Multiset.nodup_cons.mp h.nodup_taken
  have hlt : t * PGSIZE < 2 ^ 32 := (h.usable_of_taken (Multiset.mem_cons_self ..)).mul_lt
  have hne : t ≠ d := by
    rintro rfl
    exact hfresh (Multiset.mem_cons_self ..)
  have hnew : ∀ k, p.mem.table d k ≠ some t := fun k hk =>
    hfresh (Multiset.mem_cons_of_mem (Multiset.mem_add.mpr (Or.inl (mem_tabs_of_table hk))))
  have hself : ∀ k, p.mem.table d k ≠ some d := fun k hk =>
    (Multiset.nodup_cons.mp hrest).1 (Multiset.mem_add.mpr (Or.inl (mem_tabs_of_table hk)))
  have htab := Mem.table_addTable (m := p.mem) hne hi hlt
  refine ⟨?_, htab, Mem.pte_addTable hne hi hlt hnone hnew hself, fun f hf => ?_⟩
  · rw [DirPool]
    simp only [htab, tabs_update (mem_dirIndices.mpr hi) hnone]
    have heq : d ::ₘ (t ::ₘ tabs (p.mem.table d) + Y) = t ::ₘ d ::ₘ (tabs (p.mem.table d) + Y) := by
      rw [Multiset.cons_add, Multiset.cons_swap]
    rw [heq]
    refine Pool.write h rfl fun g hg => Mem.addTable_of_ne ?_ ?_
    · rintro rfl
      exact hg (Multiset.mem_cons_of_mem (Multiset.mem_cons_self ..))
    · rintro rfl
      exact hg (Multiset.mem_cons_self ..)
  · have hfY : f ≠ d ∧ f ≠ t := by
      constructor
      · rintro rfl
        rcases hf with hf | hf
        · exact hf (h.mem_of_taken (Multiset.mem_cons_of_mem (Multiset.mem_cons_self ..)))
        · exact (Multiset.nodup_cons.mp hrest).1 (Multiset.mem_add.mpr (Or.inr hf))
      · rintro rfl
        rcases hf with hf | hf
        · exact hf (h.mem_of_taken (Multiset.mem_cons_self ..))
        · exact hfresh (Multiset.mem_cons_of_mem (Multiset.mem_add.mpr (Or.inr hf)))
    exact Mem.addTable_of_ne hfY.1 hfY.2

end DirPool

/-! ### `walkpgdir` -/

theorem PDX_eq (hva : va < 2 ^ 32) : PDX va = va / PGSIZE / 1024 := by
  simp only [PDX, PGSIZE]
  omega

theorem PTX_eq (va : ℕ) : PTX va = va / PGSIZE % 1024 := rfl

theorem table_eq_some (h : Present (p.mem.word d i)) :
    p.mem.table d i = some (frame (p.mem.word d i)) :=
  if_pos h

theorem table_eq_none (h : ¬ Present (p.mem.word d i)) : p.mem.table d i = none := if_neg h

/-- Without allocation `walkpgdir` looks up the page table. -/
theorem wp_walk {Q : Option (ℕ × ℕ) → Phys → Prop} (hva : va < 2 ^ 32)
    (hnone : p.mem.table d (va / PGSIZE / 1024) = none → Q none p)
    (hsome : ∀ t, p.mem.table d (va / PGSIZE / 1024) = some t →
      Q (some (t, va / PGSIZE % 1024)) p) :
    Wp (walkpgdir d va false) p Q E := by
  rw [← PTX_eq] at hsome
  rw [← PDX_eq hva] at hnone hsome
  simp only [walkpgdir, load, wp_bind, wp_get, wp_pure]
  by_cases hp : Present (p.mem.word d (PDX va))
  · rw [if_pos hp]
    exact hsome _ (table_eq_some hp)
  · rw [if_neg hp]
    exact hnone (table_eq_none hp)

/-- With allocation `walkpgdir` finds a page table or adds one. -/
theorem wp_walkAlloc (h : DirPool L X p free d Y) {Q : Option (ℕ × ℕ) → Phys → Prop}
    (hva : va < 2 ^ 32) (hnone : free = [] → Q none p)
    (hsome : ∀ t p' free', DirPool L X p' free' d Y → p'.mem.table d (va / PGSIZE / 1024) = some t →
      (∀ i, i ≠ va / PGSIZE / 1024 → p'.mem.table d i = p.mem.table d i) →
      p'.mem.pte d = p.mem.pte d → Keeps X Y p.mem p'.mem → free.length ≤ free'.length + 1 →
      Q (some (t, va / PGSIZE % 1024)) p') :
    Wp (walkpgdir d va true) p Q E := by
  have hlt : PDX va < 1024 := Nat.mod_lt _ (by decide)
  rw [← PTX_eq] at hsome
  rw [← PDX_eq hva] at hsome
  simp only [walkpgdir, load, wp_bind, wp_get, wp_pure]
  by_cases hp : Present (p.mem.word d (PDX va))
  · rw [if_pos hp]
    exact hsome _ p free h (table_eq_some hp) (fun _ _ => rfl) rfl
      (Keeps.refl _ _ _) (Nat.le_succ _)
  · rw [if_neg hp]
    have hnotable := table_eq_none hp
    simp only [Bool.true_eq_false, if_false, wp_bind]
    refine wp_kalloc h hnone fun t free' p' hfree hmem hpool => ?_
    simp only [memset, store, wp_bind, wp_modify, wp_pure]
    rw [← hmem] at hpool hnotable
    obtain ⟨hdir, htab, hpte, hkeep⟩ := DirPool.addTable hpool hlt hnotable rfl
    refine hsome t _ free' hdir ?_ (fun i hi => ?_) ?_ ?_ ?_
    · exact (congrFun htab _).trans (Function.update_self ..)
    · refine (congrFun htab _).trans ((Function.update_of_ne hi _ _).trans ?_)
      rw [hmem]
    · refine hpte.trans ?_
      rw [hmem]
    · rw [← hmem]
      exact hkeep
    · rw [hfree]
      exact Nat.le_refl _

/-! ### `mappages` -/

/-- The entries `e` after `n` pages from `v` on have been mapped to the memory at `pa`. -/
def mapped (e : ℕ → ℕ) (v n pa perm : ℕ) (u : ℕ) : ℕ :=
  if v ≤ u ∧ u < v + n then mkPte ((pa + (u - v) * PGSIZE) % 2 ^ 32) perm else e u

theorem mapped_zero (e : ℕ → ℕ) (v pa perm : ℕ) : mapped e v 0 pa perm = e := by
  funext u
  exact if_neg (by omega)

theorem mapped_one (e : ℕ → ℕ) (v perm : ℕ) {pa : ℕ} (hpa : pa < 2 ^ 32) :
    mapped e v 1 pa perm = Function.update e v (mkPte pa perm) := by
  funext u
  by_cases hu : u = v
  · subst hu
    rw [mapped, if_pos (by omega), Function.update_self, Nat.sub_self, Nat.zero_mul, Nat.add_zero,
      Nat.mod_eq_of_lt hpa]
  · rw [mapped, if_neg (by omega), Function.update_of_ne hu]

theorem mapped_succ (e : ℕ → ℕ) (v n perm : ℕ) {pa : ℕ} (hpa : pa < 2 ^ 32) :
    mapped (Function.update e v (mkPte pa perm)) (v + 1) n ((pa + PGSIZE) % 2 ^ 32) perm =
      mapped e v (n + 1) pa perm := by
  funext u
  by_cases hu : u = v
  · subst hu
    rw [mapped, mapped, if_neg (by omega), if_pos (by omega), Function.update_self, Nat.sub_self,
      Nat.zero_mul, Nat.add_zero, Nat.mod_eq_of_lt hpa]
  · rw [mapped, mapped, Function.update_of_ne hu]
    by_cases hin : v + 1 ≤ u ∧ u < v + 1 + n
    · rw [if_pos hin, if_pos (by omega), Nat.mod_add_mod]
      have hpages : pa + PGSIZE + (u - (v + 1)) * PGSIZE = pa + (u - v) * PGSIZE := by
        simp only [PGSIZE]
        omega
      rw [hpages]
    · rw [if_neg hin, if_neg (by omega)]

variable {perm pa n : ℕ}

/-- `k` pages from `v` on have been mapped, on the way to page `v + n`. -/
structure MapStep (L : Layout) (X Y : Multiset ℕ) (d v n pa perm : ℕ) (p : Phys) (free : List ℕ)
    (p' : Phys) (free' : List ℕ) (k : ℕ) : Prop where
  pool : DirPool L X p' free' d Y
  absent : ∀ u, v ≤ u → u < v + k → ¬ Present (p.mem.pte d u)
  pte : p'.mem.pte d = mapped (p.mem.pte d) v k pa perm
  table : ∀ i, i < v / 1024 ∨ (v + n) / 1024 < i → p'.mem.table d i = p.mem.table d i
  keeps : Keeps X Y p.mem p'.mem
  length : free.length ≤ free'.length + k

/-- The loop of `mappages`, for the pages from `v` to `v + n`. -/
theorem wp_mappagesLoop (r : ℕ) (h : DirPool L X p free d Y) (hn : v + n < 2 ^ 20) (hr : n < r)
    (hpa : pa < 2 ^ 32) (hperm : perm < PGSIZE) {Q : Bool → Phys → Prop}
    (hremap : ∀ u p', v ≤ u → u ≤ v + n → Present (p.mem.pte d u) → E .remap p')
    (htrue : ∀ p' free', MapStep L X Y d v n pa perm p free p' free' (n + 1) → Q true p')
    (hfalse : ∀ p' k, k ≤ n → MapStep L X Y d v n pa perm p free p' [] k → Q false p') :
    Wp (mappagesLoop d ((v + n) * PGSIZE) perm r (v * PGSIZE) pa) p Q E := by
  induction r generalizing p free v pa n with
  | zero => omega
  | succ r ih =>
    have hva : v * PGSIZE < 2 ^ 32 := by
      simp only [PGSIZE]
      omega
    have hdiv : v * PGSIZE / PGSIZE = v := Nat.mul_div_cancel v (by decide)
    rw [mappagesLoop, wp_bind]
    refine wp_walkAlloc h hva (fun hfree => ?_) fun t p' free' h' ht htab hpte hkeep hlen => ?_
    · subst hfree
      exact hfalse p 0 (Nat.zero_le n)
        ⟨h, fun u hu hu' => by omega, (mapped_zero ..).symm,
          fun _ _ => rfl, Keeps.refl _ _ _, Nat.le_refl 0⟩
    · rw [hdiv] at ht htab ⊢
      have hword : p'.mem.word t (v % 1024) = p.mem.pte d v := by
        rw [← hpte, Mem.pte_of_table ht]
      simp only [load, store, wp_bind, wp_get, wp_pure, hword]
      by_cases hpres : Present (p.mem.pte d v)
      · rw [if_pos hpres]
        exact hremap v _ (Nat.le_refl v) (Nat.le_add_right v n) hpres
      · rw [if_neg hpres]
        simp only [wp_bind, wp_modify]
        obtain ⟨h₂, htab₂, hpte₂, hkeep₂⟩ := h'.setEntry ht (mkPte_lt hpa hperm) rfl
        obtain ⟨p₂, hp₂⟩ : ∃ p₂ : Phys,
            p₂ = { p' with mem := p'.mem.setWord t (v % 1024) (mkPte pa perm) } := ⟨_, rfl⟩
        rw [← hp₂] at h₂ htab₂ hpte₂ hkeep₂ ⊢
        rw [hpte] at hpte₂
        have htabs : ∀ i, i ≠ v / 1024 → p₂.mem.table d i = p.mem.table d i := fun i hi => by
          rw [htab₂, htab i hi]
        by_cases hlast : v * PGSIZE = (v + n) * PGSIZE
        · obtain rfl : n = 0 := by
            simp only [PGSIZE] at hlast
            omega
          rw [if_pos hlast]
          refine htrue p₂ free' ⟨h₂, fun u hu hu' => ?_, ?_, fun i hi => htabs i (by omega),
            hkeep.trans hkeep₂, hlen⟩
          · rwa [show u = v by omega]
          · rw [hpte₂, mapped_one _ _ _ hpa]
        · obtain ⟨n, rfl⟩ : ∃ n', n = n' + 1 :=
            ⟨n - 1, by simp only [PGSIZE] at hlast; omega⟩
          have hstep : (v * PGSIZE + PGSIZE) % 2 ^ 32 = (v + 1) * PGSIZE := by
            simp only [PGSIZE]
            omega
          have hend : (v + (n + 1)) * PGSIZE = (v + 1 + n) * PGSIZE := by
            rw [Nat.add_right_comm, Nat.add_assoc]
          rw [if_neg hlast, hstep, hend]
          -- the rest of the range, seen from the state before this page
          have hrest : ∀ {q : Phys} {free'' : List ℕ} {k : ℕ},
              MapStep L X Y d (v + 1) n ((pa + PGSIZE) % 2 ^ 32) perm p₂ free' q free'' k →
              MapStep L X Y d v (n + 1) pa perm p free q free'' (k + 1) := fun {q free'' k} hq => by
            refine ⟨hq.pool, fun u hu hu' => ?_, ?_, fun i hi => ?_,
              (hkeep.trans hkeep₂).trans hq.keeps, ?_⟩
            · rcases Nat.eq_or_lt_of_le hu with rfl | hu
              · exact hpres
              · have := hq.absent u hu (by omega)
                rwa [hpte₂, Function.update_of_ne (by omega)] at this
            · rw [hq.pte, hpte₂, mapped_succ _ _ _ _ hpa]
            · rw [hq.table i (by omega), htabs i (by omega)]
            · have := hq.length
              omega
          refine ih h₂ (by omega) (by omega) (Nat.mod_lt _ (by decide)) ?_ ?_ ?_
          · intro u q hu hu' hpres'
            rw [hpte₂, Function.update_of_ne (by omega)] at hpres'
            exact hremap u q (by omega) (by omega) hpres'
          · exact fun q free'' hq => htrue q free'' (hrest hq)
          · exact fun q k hk hq => hfalse q (k + 1) (by omega) (hrest hq)

/-- **`mappages`**, for a range of addresses that does not wrap. It fails only when no frame is
left, and stops only at a page that is mapped already. -/
theorem wp_mappages_range {va size : ℕ} (h : DirPool L X p free d Y) (hsize : 0 < size)
    (hwrap : va + size ≤ 2 ^ 32) (hpa : pa < 2 ^ 32) (hperm : perm < PGSIZE)
    (hv : va / PGSIZE = v) (hn : (va + size - 1) / PGSIZE = v + n) {Q : Bool → Phys → Prop}
    (hremap : ∀ u p', v ≤ u → u ≤ v + n → Present (p.mem.pte d u) → E .remap p')
    (htrue : ∀ p' free', MapStep L X Y d v n pa perm p free p' free' (n + 1) → Q true p')
    (hfalse : ∀ p' k, k ≤ n → MapStep L X Y d v n pa perm p free p' [] k → Q false p') :
    Wp (mappages d va size pa perm) p Q E := by
  have hlast : (va + size + (2 ^ 32 - 1)) % 2 ^ 32 = va + size - 1 := by omega
  have hbound : v + n < 2 ^ 20 := by
    simp only [PGSIZE] at hn
    omega
  rw [mappages, hlast, PGROUNDDOWN, PGROUNDDOWN, hv, hn]
  exact wp_mappagesLoop ROUNDS h hbound (by simp only [ROUNDS]; omega) hpa hperm hremap htrue hfalse

/-- **`mappages`**, for the pages from `v` to `v + n`. -/
theorem wp_mappages (h : DirPool L X p free d Y) (hn : v + n < 2 ^ 20) (hpa : pa < 2 ^ 32)
    (hperm : perm < PGSIZE) {Q : Bool → Phys → Prop}
    (hremap : ∀ u p', v ≤ u → u ≤ v + n → Present (p.mem.pte d u) → E .remap p')
    (htrue : ∀ p' free', MapStep L X Y d v n pa perm p free p' free' (n + 1) → Q true p')
    (hfalse : ∀ p' k, k ≤ n → MapStep L X Y d v n pa perm p free p' [] k → Q false p') :
    Wp (mappages d (v * PGSIZE) ((n + 1) * PGSIZE) pa perm) p Q E := by
  have hlast : (v * PGSIZE + (n + 1) * PGSIZE - 1) / PGSIZE = v + n := by
    simp only [PGSIZE]
    omega
  refine wp_mappages_range h ?_ ?_ hpa hperm (Nat.mul_div_cancel v (by decide)) hlast hremap htrue
    hfalse
  all_goals
    simp only [PGSIZE]
    omega

end Vm

end Xv6
