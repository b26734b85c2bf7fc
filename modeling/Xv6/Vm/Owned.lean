import Xv6.Lib.Shares
import Xv6.Vm.Pagetable

/-!
# What an address space owns

The frames of an address space are those of its page directory, of its page tables, and of the pages
that are mapped below `KERNBASE`; the upper half maps memory that belongs to others. `owned` is the
multiset of these frames. It is computed from two functions, the page tables of the directory
(`Mem.table`) and the entries for the virtual pages (`Mem.pte`), and the lemmas here say how the
parts change with them.

## Main definitions

* `tabs`, `pages`, `owned`

## Main results

* `tabs_update`, `pages_update` — a page table is added, an entry is exchanged
* `table_unique` — in a pool no page table is used twice
-/

namespace Xv6

namespace Vm

/-- The indices of a page directory. -/
def dirIndices : Finset ℕ := Finset.range NPDENTRIES

/-- The numbers of the virtual pages below `KERNBASE`. -/
def userPages : Finset ℕ := Finset.range (2 ^ 19)

theorem mem_dirIndices {i : ℕ} : i ∈ dirIndices ↔ i < 1024 := Finset.mem_range

theorem mem_userPages {v : ℕ} : v ∈ userPages ↔ v < 524288 := Finset.mem_range

theorem sum_dirIndices (g : ℕ → Multiset ℕ) :
    ∑ i ∈ dirIndices, g i = ((List.range NPDENTRIES).map g).sum := rfl

attribute [irreducible] dirIndices userPages

/-- The frames of the page tables. -/
def tabs (T : ℕ → Option ℕ) : Multiset ℕ := ∑ i ∈ dirIndices, (T i).elim 0 ({·})

/-- The frame that an entry maps. -/
def page (w : ℕ) : Multiset ℕ := if Present w then {frame w} else 0

/-- The frames of the mapped user pages. -/
def pages (e : ℕ → ℕ) : Multiset ℕ := ∑ v ∈ userPages, page (e v)

/-- The frames of an address space. -/
def owned (m : Mem) (d : ℕ) : Multiset ℕ := d ::ₘ (tabs (m.table d) + pages (m.pte d))

variable {m m' : Mem} {T T' : ℕ → Option ℕ} {e e' : ℕ → ℕ} {d i j t v w f : ℕ}

theorem mem_tabs : t ∈ tabs T ↔ ∃ i ∈ dirIndices, T i = some t := by
  rw [tabs, Shares.mem_sum]
  refine exists_congr fun i => ?_
  cases h : T i with
  | none => simp
  | some t' => simp [eq_comm]

theorem index_of_table (ht : m.table d i = some t) : i ∈ dirIndices := by
  refine mem_dirIndices.mpr (Nat.lt_of_not_le fun hi => ?_)
  rw [Mem.table_of_le hi] at ht
  cases ht

theorem mem_tabs_of_table (ht : m.table d i = some t) : t ∈ tabs (m.table d) :=
  mem_tabs.mpr ⟨i, index_of_table ht, ht⟩

theorem mem_page : f ∈ page w ↔ Present w ∧ frame w = f := by
  rw [page]
  split
  · next h => simp [h, eq_comm]
  · next h => simp [h]

theorem mem_pages : f ∈ pages e ↔ ∃ v ∈ userPages, Present (e v) ∧ frame (e v) = f := by
  rw [pages, Shares.mem_sum]
  exact exists_congr fun v => and_congr_right fun _ => mem_page

@[simp] theorem page_zero : page 0 = 0 := if_neg not_present_zero

theorem page_of_not_present (h : ¬ Present w) : page w = 0 := if_neg h

theorem page_mkPte {perm : ℕ} (hperm : perm < PGSIZE) : page (mkPte (f * PGSIZE) perm) = {f} := by
  rw [page, if_pos (present_mkPte _ _), frame_mkPte hperm]

/-- A page table is added. -/
theorem tabs_update (hi : i ∈ dirIndices) (hnone : T i = none) :
    tabs (Function.update T i (some t)) = t ::ₘ tabs T := by
  have hsum := Shares.sum_change (g := fun i => (T i).elim (0 : Multiset ℕ) ({·}))
    (h := fun j => (Function.update T i (some t) j).elim 0 ({·})) hi
    fun j _ hj => by rw [Function.update_of_ne hj]
  simp only [hnone, Option.elim_none, add_zero, Function.update_self, Option.elim_some] at hsum
  rw [tabs, hsum, Multiset.add_comm, Multiset.singleton_add]
  rfl

/-- An entry is exchanged. -/
theorem pages_update (hv : v ∈ userPages) :
    pages (Function.update e v w) + page (e v) = pages e + page w := by
  have hsum := Shares.sum_change (g := fun u => page (e u))
    (h := fun u => page (Function.update e v w u)) hv
    fun u _ hu => by rw [Function.update_of_ne hu]
  simp only [Function.update_self] at hsum
  exact hsum

/-- A frame is mapped where nothing was. -/
theorem pages_mkPte {perm : ℕ} (hv : v ∈ userPages) (habsent : ¬ Present (e v))
    (hperm : perm < PGSIZE) :
    pages (Function.update e v (mkPte (f * PGSIZE) perm)) = f ::ₘ pages e := by
  have := pages_update (e := e) (w := mkPte (f * PGSIZE) perm) hv
  rw [page_of_not_present habsent, add_zero, page_mkPte hperm] at this
  rw [this, Multiset.add_comm, Multiset.singleton_add]

theorem pages_congr (h : ∀ v ∈ userPages, page (e' v) = page (e v)) : pages e' = pages e :=
  Finset.sum_congr rfl h

theorem pages_eq_zero (h : ∀ v ∈ userPages, ¬ Present (e v)) : pages e = 0 :=
  Finset.sum_eq_zero fun v hv => page_of_not_present (h v hv)

/-- No page table is used twice. -/
theorem table_unique (hnodup : (tabs (m.table d)).Nodup) (hi : m.table d i = some t)
    (hj : m.table d j = some t) : i = j :=
  Shares.index_unique (a := t) hnodup (index_of_table hi) (index_of_table hj) (by simp [hi])
    (by simp [hj])

/-- No frame is mapped at two user pages. -/
theorem page_unique {u : ℕ} (hnodup : (pages e).Nodup) (hu : u ∈ userPages) (hv : v ∈ userPages)
    (hpu : Present (e u)) (hpv : Present (e v)) (hf : frame (e u) = frame (e v)) : u = v :=
  Shares.index_unique hnodup hu hv (mem_page.mpr ⟨hpu, rfl⟩) (mem_page.mpr ⟨hpv, hf.symm⟩)

/-- An address space does not notice changes of other frames. -/
theorem owned_congr (h : ∀ f, f = d ∨ f ∈ tabs (m.table d) → m' f = m f) :
    m'.table d = m.table d ∧ m'.pte d = m.pte d ∧ owned m' d = owned m d := by
  have htab : m'.table d = m.table d := Mem.table_congr (h d (Or.inl rfl))
  have hpte : m'.pte d = m.pte d :=
    Mem.pte_congr (h d (Or.inl rfl)) fun i t ht => h t (Or.inr (mem_tabs_of_table ht))
  exact ⟨htab, hpte, by rw [owned, owned, htab, hpte]⟩

end Vm

end Xv6
