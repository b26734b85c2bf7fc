import Xv6.Vm.Boot

/-!
# Ranges of pages

`mappages` and `deallocuvm` work through a range of virtual pages. The first one ends by equality of
two addresses. The second one jumps to the next page table where there is none.

## Main definitions

* `Mem.translate` — the physical page and the permissions that a virtual page has
* `deallocuvmPlain` — `deallocuvm` without the jumps
* `Proper`, `Dropped` — a page directory with its tables apart, and the effect of `deallocuvm`

## Main results

* `mappages_frame` — the pages of the range are mapped, and no others
* `deallocuvm_eq_plain` — the jumps change nothing
-/

namespace Xv6

namespace Vm

variable {L : Layout} {X Y : Multiset ℕ} {p p' : Phys} {free : List ℕ} {d u v t f lo hi : ℕ}

/-! ### Mapping a range -/

/-- **The translation of a virtual page**: the address of the physical page, and the permissions. -/
def Mem.translate (m : Mem) (d u : ℕ) : Option (ℕ × ℕ) :=
  if Present (m.pte d u) then some (frame (m.pte d u) * PGSIZE, PTE_FLAGS (m.pte d u)) else none

/-- An entry as `mappages` makes it leads to the page. -/
theorem translate_mkPte {m : Mem} {perm pa : ℕ} (hpa : pa % PGSIZE = 0) (hperm : perm < PGSIZE)
    (h : m.pte d u = mkPte pa perm) : m.translate d u = some (pa, perm ||| PTE_P) := by
  have hframe : pa / PGSIZE * PGSIZE = pa := Nat.div_mul_cancel (Nat.dvd_of_mod_eq_zero hpa)
  rw [Mem.translate, h, if_pos (present_mkPte pa perm), ← hframe, frame_mkPte hperm,
    PTE_FLAGS_mkPte hperm]

/-- **`mappages`**, for any range of addresses that does not wrap: if it succeeds then the pages of
the range are mapped one after the other and all others are translated as before; if it fails then
only pages of the range have changed; it comes to its end, or it panics because a page of the range
is present already. -/
theorem mappages_frame (L : Layout) (X Y : Multiset ℕ) (p : Phys) (free : List ℕ)
    (d va size pa perm : ℕ)
    (h : DirPool L X p free d Y) (hsize : 0 < size) (hwrap : va + size ≤ 2 ^ 32)
    (hpa : pa % PGSIZE = 0) (hlt : pa < 2 ^ 32) (hperm : perm < PGSIZE) :
    Wp (mappages d va size pa perm) p
      (fun ok p' =>
        (ok = true → ∀ u, va / PGSIZE ≤ u → u ≤ (va + size - 1) / PGSIZE → p'.mem.translate d u =
          some ((pa + (u - va / PGSIZE) * PGSIZE) % 2 ^ 32, perm ||| PTE_P)) ∧
        ∀ u, u < va / PGSIZE ∨ (va + size - 1) / PGSIZE < u →
          p'.mem.translate d u = p.mem.translate d u)
      (fun e _ => e = .remap ∧ ∃ u, va / PGSIZE ≤ u ∧ u ≤ (va + size - 1) / PGSIZE ∧
        Present (p.mem.pte d u)) := by
  obtain ⟨n, hn⟩ : ∃ n, (va + size - 1) / PGSIZE = va / PGSIZE + n :=
    Nat.exists_eq_add_of_le (Nat.div_le_div_right (by omega))
  have hother : ∀ {p' : Phys} {k : ℕ}, k ≤ n + 1 →
      p'.mem.pte d = mapped (p.mem.pte d) (va / PGSIZE) k pa perm → ∀ u,
        u < va / PGSIZE ∨ va / PGSIZE + n < u → p'.mem.translate d u = p.mem.translate d u :=
    fun {p' k} hk hpte u hu => by
      have hsame : p'.mem.pte d u = p.mem.pte d u := by
        rw [hpte]
        exact if_neg (by omega)
      rw [Mem.translate, Mem.translate, hsame]
  rw [hn]
  refine wp_mappages_range h hsize hwrap hlt hperm rfl hn ?_ ?_ ?_
  · exact fun u _ hu hu' hpres => ⟨rfl, u, hu, hu', hpres⟩
  · intro p' free' hp'
    refine ⟨fun _ u hu hu' => ?_, hother (Nat.le_refl _) hp'.pte⟩
    refine translate_mkPte ?_ hperm ?_
    · have hdvd : PGSIZE ∣ 2 ^ 32 := by decide
      rw [Nat.mod_mod_of_dvd _ hdvd, Nat.add_mul_mod_self_right, hpa]
    · rw [hp'.pte]
      exact if_pos (by omega)
  · intro p' k hk hp'
    exact ⟨fun hfalse => absurd hfalse Bool.false_ne_true, hother (by omega) hp'.pte⟩

/-- If there are more free frames than pages, and none of the pages is present, it succeeds. -/
theorem mappages_ok {va size pa perm n : ℕ} (h : DirPool L X p free d Y) (hsize : 0 < size)
    (hwrap : va + size ≤ 2 ^ 32) (hlt : pa < 2 ^ 32) (hperm : perm < PGSIZE)
    (hn : (va + size - 1) / PGSIZE = va / PGSIZE + n) (hfree : n < free.length)
    (habsent : ∀ u, ¬ Present (p.mem.pte d u)) :
    Wp (mappages d va size pa perm) p (fun ok _ => ok = true) fun _ _ => False := by
  refine wp_mappages_range h hsize hwrap hlt hperm rfl hn (fun u _ _ _ => habsent u)
    (fun _ _ _ => rfl) fun p' k hk hp' => ?_
  have hlen := hp'.length
  rw [List.length_nil] at hlen
  omega

theorem word_zeroed (f i : ℕ) : zeroed.word f i = 0 := by
  rw [← Mem.word_fill_zero zeroed f i]
  refine Mem.word_congr ?_
  rw [Mem.fill, Function.update_self]
  rfl

theorem table_zeroed (d : ℕ) : zeroed.table d = fun _ => none := by
  funext i
  exact if_neg (by rw [word_zeroed]; exact not_present_zero)

/-- A page directory without page tables, in a memory where three frames have been freed. -/
def emptyDir : Phys := ((Phys.mk zeroed 0).freed 1027).freed 1026 |>.freed 1025

theorem table_emptyDir : emptyDir.mem.table 1024 = fun _ => none := by
  refine (Mem.table_congr ?_).trans (table_zeroed 1024)
  rw [emptyDir, Phys.freed_of_ne _ (by decide), Phys.freed_of_ne _ (by decide),
    Phys.freed_of_ne _ (by decide)]

theorem dirPool_emptyDir :
    DirPool smallKernel {1025, 1026, 1027, 1024} emptyDir [1025, 1026, 1027] 1024 0 := by
  have hlist : FreeList ⟨zeroed, 0⟩ [] := rfl
  have htabs : tabs (emptyDir.mem.table 1024) = 0 := by
    rw [table_emptyDir, tabs]
    exact Finset.sum_const_zero
  refine ⟨((hlist.push ?_).push ?_).push ?_, ?_, by decide, by decide⟩
  · exact List.not_mem_nil
  · decide
  · decide
  · rw [htabs]
    rfl

/-- Three pages at the very end of the address space are mapped. -/
theorem mappages_frame_last : ∃ p',
    mappages 1024 0xFFFFD123 0x2EDD 0x4000 PTE_W emptyDir = .ok true p' ∧
    p'.mem.translate 1024 0xFFFFC = none ∧
    p'.mem.translate 1024 0xFFFFD = some (0x4000, PTE_W ||| PTE_P) ∧
    p'.mem.translate 1024 0xFFFFF = some (0x6000, PTE_W ||| PTE_P) := by
  have hpool := dirPool_emptyDir
  have habsent : ∀ u, emptyDir.mem.pte 1024 u = 0 := fun u =>
    Mem.pte_of_none (congrFun table_emptyDir _)
  generalize emptyDir = p at *
  have hok : Wp (mappages 1024 0xFFFFD123 0x2EDD 0x4000 PTE_W) p _ _ :=
    mappages_ok (n := 2) hpool (by decide) (by decide) (by decide) (by decide)
      (by decide) (by decide)
      fun u => by rw [habsent]; exact not_present_zero
  have hframe := mappages_frame smallKernel _ _ p _ 1024 0xFFFFD123 0x2EDD 0x4000 PTE_W hpool
    (by decide) (by decide) (by decide) (by decide) (by decide)
  obtain ⟨r, p', hrun, rfl, hin, hout⟩ :=
    ((hok.and hframe).mono (fun _ _ h => h) fun _ _ h => h.1).ok
  refine ⟨p', hrun, ?_, hin rfl 0xFFFFD (by decide) (by decide),
    hin rfl 0xFFFFF (by decide) (by decide)⟩
  rw [hout 0xFFFFC (by decide), Mem.translate, habsent, if_neg not_present_zero]

/-! ### `deallocuvm` without jumps -/

/-- What `deallocuvm` does at one page. -/
def dropAt (L : Layout) (pgdir a : ℕ) : M Unit := do
  match ← walkpgdir pgdir a false with
  | none => return
  | some (pgtab, i) =>
    let pte ← load pgtab i
    if Present pte then
      if frame pte = 0 then throw .kfree
      kfree L (frame pte)
      store pgtab i 0

/-- A loop over all pages up to `oldsz`. -/
def plainLoop (L : Layout) (pgdir oldsz : ℕ) : ℕ → ℕ → M Unit
  | 0, _ => throw .diverged
  | n + 1, a => do
    if a < oldsz then
      dropAt L pgdir a
      plainLoop L pgdir oldsz n ((a + PGSIZE) % 2 ^ 32)

/-- **`deallocuvm` without jumps**: every page is visited. -/
def deallocuvmPlain (L : Layout) (pgdir oldsz newsz : ℕ) : M ℕ := do
  if newsz ≥ oldsz then return oldsz
  plainLoop L pgdir oldsz ROUNDS (PGROUNDUP newsz)
  return newsz

/-- Two programs that start alike go on alike. -/
theorem bind_run_congr {α β : Type} {x : M α} {g h : α → M β}
    (hgh : ∀ a p', x p = .ok a p' → g a p' = h a p') : (x >>= g) p = (x >>= h) p := by
  change EStateM.bind x g p = EStateM.bind x h p
  rw [EStateM.bind, EStateM.bind]
  cases hx : x p with
  | ok a p' => exact hgh a p' hx
  | error e p' => rfl

theorem bind_run {α β : Type} {x : M α} {a : α} (h : x p = .ok a p') (g : α → M β) :
    (x >>= g) p = g a p' := by
  change EStateM.bind x g p = g a p'
  rw [EStateM.bind, h]

section Plain

variable {oldsz : ℕ} (hhi : hi ≤ 2 ^ 19) (hsz : ∀ u, u * PGSIZE < oldsz ↔ u < hi)

theorem next_page (hu : u < 2 ^ 19) : (u * PGSIZE + PGSIZE) % 2 ^ 32 = (u + 1) * PGSIZE := by
  simp only [PGSIZE]
  omega

theorem walk_run (hu : u < 2 ^ 19) : walkpgdir d (u * PGSIZE) false p =
    .ok ((p.mem.table d (u / 1024)).map fun t => (t, u % 1024)) p := by
  have hva : u * PGSIZE < 2 ^ 32 := by
    simp only [PGSIZE]
    omega
  have hdiv : u * PGSIZE / PGSIZE = u := Nat.mul_div_cancel u (by decide)
  have hwp : Wp (walkpgdir d (u * PGSIZE) false) p
      (fun r p' => r = (p.mem.table d (u / 1024)).map (fun t => (t, u % 1024)) ∧ p' = p)
      fun _ _ => False := by
    refine wp_walk hva (fun hnone => ?_) fun t ht => ?_
    · rw [hdiv] at hnone
      exact ⟨by rw [hnone]; rfl, rfl⟩
    · rw [hdiv] at ht ⊢
      exact ⟨by rw [ht]; rfl, rfl⟩
  obtain ⟨r, p', heq, rfl, rfl⟩ := hwp.ok
  exact heq

include hsz in
theorem plainLoop_end (hu : hi ≤ u) (r : ℕ) :
    plainLoop L d oldsz (r + 1) (u * PGSIZE) p = .ok () p := by
  rw [plainLoop, if_neg fun h => by have := (hsz u).mp h; omega]
  rfl

include hsz in
theorem deallocuvmLoop_end (hu : hi ≤ u) (r : ℕ) :
    deallocuvmLoop L d oldsz (r + 1) (u * PGSIZE) p = .ok () p := by
  rw [deallocuvmLoop, if_neg fun h => by have := (hsz u).mp h; omega]
  rfl

include hhi hsz in
/-- Where there is no page table the plain loop does nothing. -/
theorem plainLoop_absent (hu : u < hi) (hnone : p.mem.table d (u / 1024) = none) (r : ℕ) :
    plainLoop L d oldsz (r + 1) (u * PGSIZE) p = plainLoop L d oldsz r ((u + 1) * PGSIZE) p := by
  have hdrop : dropAt L d (u * PGSIZE) p = .ok () p := by
    rw [dropAt, bind_run (walk_run (by omega)), hnone]
    rfl
  rw [plainLoop, if_pos ((hsz u).mpr hu), bind_run hdrop, next_page (by omega)]

include hhi hsz in
theorem plainLoop_skip {k r : ℕ} (hk : u + k ≤ hi) (hr : k ≤ r)
    (hnone : ∀ v, u ≤ v → v < u + k → p.mem.table d (v / 1024) = none) :
    plainLoop L d oldsz r (u * PGSIZE) p = plainLoop L d oldsz (r - k) ((u + k) * PGSIZE) p := by
  induction k with
  | zero => rfl
  | succ k ih =>
    obtain ⟨n, hn⟩ : ∃ n, r - k = n + 1 := ⟨r - k - 1, by omega⟩
    rw [ih (by omega) (by omega) fun v hv hv' => hnone v hv (by omega), hn,
      plainLoop_absent hhi hsz (by omega) (hnone _ (by omega) (by omega))]
    have hfuel : r - (k + 1) = n := by omega
    rw [hfuel, Nat.add_assoc]

include hhi hsz in
/-- Where there is a page table, `deallocuvm` does at the page what the plain loop does. -/
theorem deallocuvmLoop_table (hu : u < hi) (ht : p.mem.table d (u / 1024) = some t) (r : ℕ) :
    deallocuvmLoop L d oldsz (r + 1) (u * PGSIZE) p =
      (dropAt L d (u * PGSIZE) >>= fun _ => deallocuvmLoop L d oldsz r ((u + 1) * PGSIZE)) p := by
  have hwalk : walkpgdir d (u * PGSIZE) false p = .ok (some (t, u % 1024)) p := by
    rw [walk_run (by omega), ht]
    rfl
  rw [deallocuvmLoop, if_pos ((hsz u).mpr hu), dropAt, bind_assoc, bind_run hwalk, bind_run hwalk,
    next_page (by omega)]
  dsimp only
  rw [bind_assoc]
  refine bind_run_congr fun pte p' _ => ?_
  by_cases hpres : Present pte
  · by_cases hzero : frame pte = 0
    · simp only [hpres, hzero, if_true]
      rfl
    · simp only [hpres, hzero, if_true, if_false, bind_assoc]
  · simp only [hpres, if_false, pure_bind]

include hhi hsz in
/-- Where there is none, it goes on at the first page of the next one. -/
theorem deallocuvmLoop_absent {k : ℕ} (hu : u < hi) (hnone : p.mem.table d (u / 1024) = none)
    (hk : u + k = (u / 1024 + 1) * 1024) (r : ℕ) :
    deallocuvmLoop L d oldsz (r + 1) (u * PGSIZE) p =
      deallocuvmLoop L d oldsz r ((u + k) * PGSIZE) p := by
  have hva : u * PGSIZE < 2 ^ 32 := by
    simp only [PGSIZE]
    omega
  have hdiv : u * PGSIZE / PGSIZE = u := Nat.mul_div_cancel u (by decide)
  have hskip :
    ((PGADDR (PDX (u * PGSIZE) + 1) 0 0 + (2 ^ 32 - PGSIZE)) % 2 ^ 32 + PGSIZE) % 2 ^ 32 =
      (u + k) * PGSIZE := by
    rw [PDX_eq hva, hdiv, hk]
    simp only [PGADDR, PGSIZE]
    omega
  rw [deallocuvmLoop, if_pos ((hsz u).mpr hu), bind_run (walk_run (by omega)), hnone]
  simp only [Option.map_none, hskip]

include hhi hsz in
/-- **The jumps change nothing.** -/
theorem deallocuvmLoop_eq_plain {r r' : ℕ} (hr : hi - u < r) (hr' : hi - u < r') :
    deallocuvmLoop L d oldsz r (u * PGSIZE) p = plainLoop L d oldsz r' (u * PGSIZE) p := by
  induction r generalizing u p r' with
  | zero => omega
  | succ r ih =>
    obtain ⟨n, rfl⟩ : ∃ n, r' = n + 1 := ⟨r' - 1, by omega⟩
    by_cases hu : u < hi
    · cases ht : p.mem.table d (u / 1024) with
      | some t =>
        rw [deallocuvmLoop_table hhi hsz hu ht, plainLoop, if_pos ((hsz u).mpr hu),
          next_page (by omega)]
        exact bind_run_congr fun _ p' _ => ih (by omega) (by omega)
      | none =>
        obtain ⟨k, hk⟩ : ∃ k, u + k = (u / 1024 + 1) * 1024 := ⟨(u / 1024 + 1) * 1024 - u, by omega⟩
        have habsent : ∀ v, u ≤ v → v < u + k → p.mem.table d (v / 1024) = none :=
          fun v hv hv' => by
          rw [show v / 1024 = u / 1024 by omega, ht]
        rw [deallocuvmLoop_absent hhi hsz hu ht hk]
        rcases Nat.le_total (u + k) hi with hle | hle
        · rw [plainLoop_skip hhi hsz hle (by omega) habsent]
          exact ih (by omega) (by omega)
        · -- the jump goes past the end
          obtain ⟨j, rfl⟩ : ∃ j, hi = u + j := Nat.exists_eq_add_of_le (by omega)
          obtain ⟨m, hm⟩ : ∃ m, n + 1 - j = m + 1 := ⟨n - j, by omega⟩
          obtain ⟨r, rfl⟩ : ∃ r', r = r' + 1 := ⟨r - 1, by omega⟩
          rw [plainLoop_skip hhi hsz (Nat.le_refl _) (by omega) fun v hv hv' =>
            habsent v hv (by omega),
            hm, deallocuvmLoop_end hsz hle, plainLoop_end hsz (Nat.le_refl _)]
    · rw [deallocuvmLoop_end hsz (by omega), plainLoop_end hsz (by omega)]

end Plain

/-! ### What `deallocuvm` frees -/

/-- The frames of the present pages from `lo` to `hi`, in their order. -/
def pageFrames (e : ℕ → ℕ) (lo hi : ℕ) : List ℕ :=
  ((List.range' lo (hi - lo)).filter fun u => Present (e u)).map fun u => frame (e u)

theorem pageFrames_of_le {e : ℕ → ℕ} (h : hi ≤ lo) : pageFrames e lo hi = [] := by
  rw [pageFrames, Nat.sub_eq_zero_of_le h]
  rfl

theorem pageFrames_cons {e : ℕ → ℕ} (h : lo < hi) : pageFrames e lo hi =
    (if Present (e lo) then [frame (e lo)] else []) ++ pageFrames e (lo + 1) hi := by
  have hlen : hi - lo = hi - (lo + 1) + 1 := by omega
  rw [pageFrames, hlen, List.range'_succ, List.filter_cons]
  by_cases hpres : Present (e lo)
  · rw [if_pos (decide_eq_true hpres), if_pos hpres]
    rfl
  · rw [if_neg (by simpa using hpres), if_neg hpres]
    rfl

theorem pageFrames_congr {e e' : ℕ → ℕ} (h : ∀ u, lo ≤ u → u < hi → e' u = e u) :
    pageFrames e' lo hi = pageFrames e lo hi := by
  rw [pageFrames, pageFrames]
  have hmem : ∀ u ∈ List.range' lo (hi - lo), e' u = e u := fun u hu => by
    rw [List.mem_range'_1] at hu
    exact h u hu.1 (by omega)
  rw [List.filter_congr fun u hu => by rw [hmem u hu]]
  exact List.map_congr_left fun u hu => by rw [hmem u (List.mem_filter.mp hu).1]

theorem mem_pageFrames {e : ℕ → ℕ} : f ∈ pageFrames e lo hi ↔
    ∃ u, lo ≤ u ∧ u < hi ∧ Present (e u) ∧ frame (e u) = f := by
  simp only [pageFrames, List.mem_map, List.mem_filter, List.mem_range'_1, decide_eq_true_eq]
  constructor
  · rintro ⟨u, ⟨⟨hlo, hhi⟩, hpres⟩, rfl⟩
    exact ⟨u, hlo, by omega, hpres, rfl⟩
  · rintro ⟨u, hlo, hhi, hpres, rfl⟩
    exact ⟨u, ⟨⟨hlo, by omega⟩, hpres⟩, rfl⟩

/-- A page directory whose page tables are apart, and whose pages from `lo` to `hi` are pages that
`kfree` accepts and that are not used as page tables. -/
structure Proper (L : Layout) (m : Mem) (d lo hi : ℕ) : Prop where
  ne_dir : ∀ i t, m.table d i = some t → t ≠ d
  inj : ∀ i j t, m.table d i = some t → m.table d j = some t → i = j
  usable : ∀ f ∈ pageFrames (m.pte d) lo hi, L.Usable f
  page_ne_dir : ∀ f ∈ pageFrames (m.pte d) lo hi, f ≠ d
  page_ne_table : ∀ f ∈ pageFrames (m.pte d) lo hi, ∀ i, m.table d i ≠ some f

/-- **The present pages from `lo` to `hi` have been freed**, each once, and their entries cleared.
All other entries, the page tables and the rest of memory are as they were. -/
structure Dropped (d lo hi : ℕ) (p p' : Phys) : Prop where
  table : p'.mem.table d = p.mem.table d
  pte : p'.mem.pte d = cleared (p.mem.pte d) lo hi
  list : ∀ free, FreeList p free → (pageFrames (p.mem.pte d) lo hi ++ free).Nodup →
    (∀ i t, p.mem.table d i = some t → t ∉ free) →
    FreeList p' ((pageFrames (p.mem.pte d) lo hi).reverse ++ free)
  mem : ∀ f, f ∉ pageFrames (p.mem.pte d) lo hi → (∀ i, p.mem.table d i ≠ some f) →
      p'.mem f = p.mem f

theorem Dropped.nothing (h : pageFrames (p.mem.pte d) lo hi = []) : Dropped d lo hi p p := by
  refine ⟨rfl, ?_, fun free hfree _ _ => ?_, fun _ _ _ => rfl⟩
  · funext u
    refine (if_neg fun hu => ?_).symm
    have hmem : frame (p.mem.pte d u) ∈ pageFrames (p.mem.pte d) lo hi :=
      mem_pageFrames.mpr ⟨u, hu.1, hu.2.1, hu.2.2, rfl⟩
    rw [h] at hmem
    cases hmem
  · rw [h]
    exact hfree

/-- One page, and then the rest. -/
theorem Dropped.trans {q : Phys} (h : Dropped d u (u + 1) p p') (h' : Dropped d (u + 1) hi p' q)
    (hu : u < hi) (hp : Proper L p.mem d u hi) : Dropped d u hi p q := by
  have hone : pageFrames (p.mem.pte d) u (u + 1) =
      if Present (p.mem.pte d u) then [frame (p.mem.pte d u)] else [] := by
    rw [pageFrames_cons (Nat.lt_succ_self u), pageFrames_of_le (Nat.le_refl _), List.append_nil]
  have hrest : pageFrames (p'.mem.pte d) (u + 1) hi = pageFrames (p.mem.pte d) (u + 1) hi :=
    pageFrames_congr fun v hv _ => by
      rw [h.pte]
      exact if_neg (by omega)
  have hall : pageFrames (p.mem.pte d) u hi =
      pageFrames (p.mem.pte d) u (u + 1) ++ pageFrames (p'.mem.pte d) (u + 1) hi := by
    rw [pageFrames_cons hu, hone, hrest]
  refine ⟨h'.table.trans h.table, ?_, fun free hfree hnodup htabs => ?_, fun f hf htab => ?_⟩
  · funext v
    rw [h'.pte, h.pte, cleared, cleared, cleared]
    by_cases hv : v = u
    · subst hv
      by_cases hpres : Present (p.mem.pte d v) <;> simp [hpres, hu]
    · have hone' : ¬ (u ≤ v ∧ v < u + 1 ∧ Present (p.mem.pte d v)) := by omega
      rw [if_neg hone']
      exact if_congr (by constructor <;> rintro ⟨h₁, h₂⟩ <;> exact ⟨by omega, h₂⟩) rfl rfl
  · rw [hall] at hnodup ⊢
    rw [List.append_assoc] at hnodup
    have hfirst := h.list free hfree (hnodup.sublist ?_) htabs
    · have hsecond := h'.list _ hfirst ?_ fun i t ht hmem => ?_
      · rwa [List.reverse_append, List.append_assoc]
      · refine (List.Perm.nodup_iff ?_).mpr hnodup
        exact (((List.reverse_perm _).append_right free).append_left _).trans
          (List.perm_append_comm_assoc ..)
      · rw [h.table] at ht
        rcases List.mem_append.mp hmem with hmem | hmem
        · refine hp.page_ne_table t ?_ i ht
          rw [hall]
          exact List.mem_append_left _ (List.mem_reverse.mp hmem)
        · exact htabs i t ht hmem
    · exact List.Sublist.append (List.Sublist.refl _) (List.sublist_append_right ..)
  · rw [hall, List.mem_append, not_or] at hf
    rw [h'.mem f hf.2 (by rwa [h.table]), h.mem f hf.1 htab]

theorem Proper.tail (h : Proper L p.mem d u hi) (hd : Dropped d u (u + 1) p p') :
    Proper L p'.mem d (u + 1) hi := by
  have hrest : ∀ f ∈ pageFrames (p'.mem.pte d) (u + 1) hi, f ∈ pageFrames (p.mem.pte d) u hi := by
    intro f hf
    obtain ⟨v, hlo, hhi, hpres, rfl⟩ := mem_pageFrames.mp hf
    have hsame : p'.mem.pte d v = p.mem.pte d v := by
      rw [hd.pte]
      exact if_neg (by omega)
    rw [hsame] at hpres ⊢
    exact mem_pageFrames.mpr ⟨v, by omega, hhi, hpres, rfl⟩
  refine ⟨?_, ?_, fun f hf => h.usable f (hrest f hf), fun f hf => h.page_ne_dir f (hrest f hf), ?_⟩
  · rw [hd.table]
    exact h.ne_dir
  · rw [hd.table]
    exact h.inj
  · rw [hd.table]
    exact fun f hf => h.page_ne_table f (hrest f hf)

/-- One page that is present is freed. -/
theorem dropped_page (h : Proper L p.mem d u hi) (hu : u < hi)
    (ht : p.mem.table d (u / 1024) = some t) (hpres : Present (p.mem.pte d u))
    {q : Phys} (hq : q = p.freed (frame (p.mem.pte d u))) :
    Dropped d u (u + 1) p { q with mem := q.mem.setWord t (u % 1024) 0 } := by
  obtain ⟨f, hf⟩ : ∃ f, f = frame (p.mem.pte d u) := ⟨_, rfl⟩
  rw [← hf] at hq
  have hmem : f ∈ pageFrames (p.mem.pte d) u hi :=
    mem_pageFrames.mpr ⟨u, Nat.le_refl u, hu, hpres, hf.symm⟩
  have hsame : ∀ g, g ≠ f → q.mem g = p.mem g := fun g hg => hq ▸ p.freed_of_ne hg
  have hdir : q.mem d = p.mem d := hsame d (h.page_ne_dir f hmem).symm
  have htabf : ∀ i t, p.mem.table d i = some t → t ≠ f := fun i t hi htf =>
    h.page_ne_table f hmem i (htf ▸ hi)
  have htab : q.mem.table d = p.mem.table d := Mem.table_congr hdir
  have hpte : q.mem.pte d = p.mem.pte d := Mem.pte_congr hdir fun i t hi => hsame t (htabf i t hi)
  have hframes : pageFrames (p.mem.pte d) u (u + 1) = [f] := by
    rw [pageFrames_cons (Nat.lt_succ_self u), pageFrames_of_le (Nat.le_refl _), if_pos hpres, ← hf]
    rfl
  have ht' : q.mem.table d (u / 1024) = some t := by rw [htab, ht]
  have hne : t ≠ d := h.ne_dir _ t ht
  refine ⟨(Mem.table_setWord hne).trans htab, ?_, fun free hfree hnodup htabs => ?_,
    fun g hg hgt => ?_⟩
  · refine (Mem.pte_setWord ht' hne (fun i hi => h.inj i _ t (htab ▸ hi) ht) (by decide)).trans ?_
    rw [hpte]
    funext v
    by_cases hv : v = u
    · subst hv
      rw [Function.update_self, cleared, if_pos ⟨Nat.le_refl v, Nat.lt_succ_self v, hpres⟩]
    · rw [Function.update_of_ne hv, cleared, if_neg (by omega)]
  · rw [hframes] at hnodup ⊢
    have hpush := hfree.push (List.nodup_cons.mp hnodup).1
    rw [← hq] at hpush
    refine hpush.congr rfl fun g hg => Mem.setWord_of_ne ?_
    rintro rfl
    rcases List.mem_cons.mp hg with hgf | hg
    · exact htabf _ _ ht hgf
    · exact htabs _ _ ht hg
  · rw [hframes, List.mem_singleton] at hg
    have hgt' : g ≠ t := fun hgt' => hgt _ (hgt' ▸ ht)
    exact (Mem.setWord_of_ne hgt').trans (hsame g hg)

theorem wp_dropAt (h : Proper L p.mem d u hi) (hu : u < hi) (hhi : hi ≤ 2 ^ 19)
    {E : Halt → Phys → Prop} :
    Wp (dropAt L d (u * PGSIZE)) p (fun _ p' => Dropped d u (u + 1) p p') E := by
  have hframes := pageFrames_cons (e := p.mem.pte d) (Nat.lt_succ_self u)
  rw [pageFrames_of_le (Nat.le_refl _), List.append_nil] at hframes
  rw [dropAt, wp_bind, Wp.of_ok (walk_run (by omega))]
  cases ht : p.mem.table d (u / 1024) with
  | none =>
    refine Dropped.nothing ?_
    rw [hframes, Mem.pte_of_none ht, if_neg not_present_zero]
  | some t =>
    have hword : p.mem.word t (u % 1024) = p.mem.pte d u := (Mem.pte_of_table ht).symm
    simp only [Option.map_some, load, wp_bind, wp_get, wp_pure, hword]
    by_cases hpres : Present (p.mem.pte d u)
    · have husable : L.Usable (frame (p.mem.pte d u)) :=
        h.usable _ (mem_pageFrames.mpr ⟨u, Nat.le_refl u, hu, hpres, rfl⟩)
      rw [if_pos hpres, if_neg husable.ne_zero, wp_bind, Wp.of_ok (kfree_run husable),
        store, wp_modify]
      exact dropped_page h hu ht hpres rfl
    · rw [if_neg hpres]
      refine Dropped.nothing ?_
      rw [hframes, if_neg hpres]

theorem wp_plainLoop {oldsz r : ℕ} (h : Proper L p.mem d u hi) (hhi : hi ≤ 2 ^ 19)
    (hsz : ∀ u, u * PGSIZE < oldsz ↔ u < hi) (hr : hi - u < r) {E : Halt → Phys → Prop} :
    Wp (plainLoop L d oldsz r (u * PGSIZE)) p (fun _ p' => Dropped d u hi p p') E := by
  induction r generalizing u p with
  | zero => omega
  | succ r ih =>
    by_cases hu : u < hi
    · rw [plainLoop, if_pos ((hsz u).mpr hu), wp_bind, next_page (by omega)]
      refine (wp_dropAt h hu hhi).mono (fun _ p' hdrop => ?_) fun _ _ he => he
      exact (ih (h.tail hdrop) (by omega)).mono (fun _ q hrest => hdrop.trans hrest hu h)
        fun _ _ he => he
    · rw [Wp.of_ok (plainLoop_end hsz (by omega) r)]
      exact Dropped.nothing (pageFrames_of_le (by omega))

/-- **`deallocuvm` is the plain loop**, for every memory and every page directory. If the page
tables are apart and the pages can be freed, it returns `newsz`, has freed the present pages of the
range, each once, and has cleared their entries and nothing else. -/
theorem deallocuvm_eq_plain (L : Layout) (p : Phys) (d oldsz newsz : ℕ) (hlt : newsz < oldsz)
    (hold : oldsz ≤ KERNBASE) :
    deallocuvm L d oldsz newsz p = deallocuvmPlain L d oldsz newsz p ∧
    (Proper L p.mem d (npages newsz) (npages oldsz) →
      ∃ p', deallocuvm L d oldsz newsz p = .ok newsz p' ∧
        Dropped d (npages newsz) (npages oldsz) p p') := by
  have hhi := npages_le hold
  have hrounds : npages oldsz - npages newsz < ROUNDS := by
    simp only [ROUNDS]
    omega
  have hnot : ¬ newsz ≥ oldsz := by omega
  have heq : deallocuvm L d oldsz newsz p = deallocuvmPlain L d oldsz newsz p := by
    have hloop : deallocuvmLoop L d oldsz ROUNDS (npages newsz * PGSIZE) p = _ :=
      deallocuvmLoop_eq_plain hhi lt_npages hrounds hrounds
    rw [deallocuvm, deallocuvmPlain, if_neg hnot, if_neg hnot, PGROUNDUP_eq (by omega)]
    change EStateM.bind _ _ p = EStateM.bind _ _ p
    rw [EStateM.bind, EStateM.bind, hloop]
  refine ⟨heq, fun hproper => ?_⟩
  rw [heq]
  have hwp : Wp (deallocuvmPlain L d oldsz newsz) p
      (fun r p' => r = newsz ∧ Dropped d (npages newsz) (npages oldsz) p p') fun _ _ => False := by
    rw [deallocuvmPlain, if_neg hnot, wp_bind, PGROUNDUP_eq (by omega)]
    exact (wp_plainLoop hproper hhi lt_npages hrounds).mono (fun _ p' h => ⟨rfl, h⟩)
      fun _ _ he => he
  obtain ⟨r, p', hrun, rfl, hdrop⟩ := hwp.ok
  exact ⟨p', hrun, hdrop⟩

theorem pageFrames_mapped {e : ℕ → ℕ} (h : lo < hi)
    (hlo : e lo = mkPte (f * PGSIZE) (PTE_W ||| PTE_U)) :
    pageFrames e lo hi = f :: pageFrames e (lo + 1) hi := by
  rw [pageFrames_cons h, hlo, if_pos (present_mkPte _ _), frame_mkPte (by decide)]
  rfl

theorem pageFrames_skip {e : ℕ → ℕ} {k : ℕ} (hk : lo + k ≤ hi)
    (h : ∀ u, lo ≤ u → u < lo + k → ¬ Present (e u)) :
    pageFrames e lo hi = pageFrames e (lo + k) hi := by
  induction k with
  | zero => rfl
  | succ k ih =>
    rw [ih (by omega) fun u hu hu' => h u hu (by omega), pageFrames_cons (by omega),
      if_neg (h _ (by omega) (by omega))]
    rfl

/-- A page directory with a page table for its first 1024 pages and one for the 1024 pages from 2048
on, but none for those in between. -/
def gap : Mem := (zeroed.addTable 1024 0 1025).addTable 1024 2 1026

theorem eq_of_update {g : ℕ → Option ℕ} {i j : ℕ} (h : Function.update g i (some t) j = some f) :
    j = i ∧ f = t ∨ g j = some f := by
  by_cases hj : j = i
  · rw [hj, Function.update_self] at h
    exact .inl ⟨hj, (Option.some.inj h).symm⟩
  · rw [Function.update_of_ne hj] at h
    exact .inr h

theorem table_first : (zeroed.addTable 1024 0 1025).table 1024 =
    Function.update (fun _ => none) 0 (some 1025) := by
  rw [Mem.table_addTable (by decide) (by decide) (by decide), table_zeroed]

theorem table_gap :
    gap.table 1024 = Function.update (Function.update (fun _ => none) 0 (some 1025)) 2
    (some 1026) := by
  rw [gap, Mem.table_addTable (by decide) (by decide) (by decide), table_first]

theorem eq_of_table_gap {i : ℕ} (h : gap.table 1024 i = some t) :
    i = 0 ∧ t = 1025 ∨ i = 2 ∧ t = 1026 := by
  rw [table_gap] at h
  rcases eq_of_update h with h | h
  · exact .inr h
  rcases eq_of_update h with h | h
  · exact .inl h
  · cases h

theorem pte_gap : gap.pte 1024 = fun _ => 0 := by
  have hfirst : ∀ {k t}, (zeroed.addTable 1024 0 1025).table 1024 k = some t → t = 1025 :=
    fun h => by
    rw [table_first] at h
    rcases eq_of_update h with h | h
    · exact h.2
    · cases h
  have hzeroed : ∀ k t, zeroed.table 1024 k ≠ some t := fun k t h => by
    rw [table_zeroed] at h
    cases h
  rw [gap, Mem.pte_addTable (by decide) (by decide) (by decide) ?_ (fun k h => ?_) fun k h => ?_,
    Mem.pte_addTable (by decide) (by decide) (by decide) ?_ (fun k => hzeroed k _)
    fun k => hzeroed k _]
  · funext v
    exact Mem.pte_of_none (congrFun (table_zeroed 1024) _)
  · rw [table_zeroed]
  · rw [table_first]
    rfl
  · exact absurd (hfirst h) (by decide)
  · exact absurd (hfirst h) (by decide)

/-- One page of each of the two tables is mapped. -/
def twoPages : Phys where
  mem := (gap.setWord 1025 (0 % 1024) (mkPte (1027 * PGSIZE) (PTE_W ||| PTE_U))).setWord 1026
    (2048 % 1024) (mkPte (1028 * PGSIZE) (PTE_W ||| PTE_U))
  freelist := 0

theorem table_twoPages : twoPages.mem.table 1024 = gap.table 1024 := by
  rw [twoPages, Mem.table_setWord (by decide), Mem.table_setWord (by decide)]

theorem pte_twoPages : twoPages.mem.pte 1024 =
    Function.update (Function.update (fun _ => 0) 0 (mkPte (1027 * PGSIZE) (PTE_W ||| PTE_U))) 2048
      (mkPte (1028 * PGSIZE) (PTE_W ||| PTE_U)) := by
  have hfirst : gap.table 1024 (0 / 1024) = some 1025 := by
    rw [table_gap]
    rfl
  have hsecond : gap.table 1024 (2048 / 1024) = some 1026 := by
    rw [table_gap]
    rfl
  rw [twoPages, Mem.pte_setWord ?_ (by decide) (fun i hi => ?_) (by decide),
    Mem.pte_setWord hfirst (by decide) (fun i hi => ?_) (by decide), pte_gap]
  · rcases eq_of_table_gap hi with hi | hi
    · exact hi.1
    · exact absurd hi.2 (by decide)
  · rwa [Mem.table_setWord (by decide)]
  · rw [Mem.table_setWord (by decide)] at hi
    rcases eq_of_table_gap hi with hi | hi
    · exact absurd hi.2 (by decide)
    · exact hi.1

theorem pageFrames_twoPages : pageFrames (twoPages.mem.pte 1024) 0 2049 = [1027, 1028] := by
  have hfirst : twoPages.mem.pte 1024 0 = mkPte (1027 * PGSIZE) (PTE_W ||| PTE_U) := by
    rw [pte_twoPages]
    rfl
  have hlast : twoPages.mem.pte 1024 (0 + 1 + 2047) = mkPte (1028 * PGSIZE) (PTE_W ||| PTE_U) := by
    rw [pte_twoPages]
    rfl
  have hother : ∀ u, 0 + 1 ≤ u → u < 0 + 1 + 2047 → ¬ Present (twoPages.mem.pte 1024 u) :=
    fun u hu hu' => by
      rw [pte_twoPages, Function.update_of_ne (by omega), Function.update_of_ne (by omega)]
      exact not_present_zero
  rw [pageFrames_mapped (by decide) hfirst, pageFrames_skip (by decide) hother,
    pageFrames_mapped (by decide) hlast, pageFrames_of_le (by decide)]

theorem proper_twoPages : Proper smallKernel twoPages.mem 1024 0 2049 := by
  refine ⟨fun i t ht => ?_, fun i j t hi hj => ?_, ?_, ?_, fun f hf i hi => ?_⟩
  · rw [table_twoPages] at ht
    rcases eq_of_table_gap ht with ht | ht
    · rw [ht.2]
      decide
    · rw [ht.2]
      decide
  · rw [table_twoPages] at hi hj
    have := eq_of_table_gap hi
    have := eq_of_table_gap hj
    omega
  · rw [pageFrames_twoPages]
    decide
  · rw [pageFrames_twoPages]
    decide
  · rw [pageFrames_twoPages] at hf
    rw [table_twoPages] at hi
    have := eq_of_table_gap hi
    simp only [List.mem_cons, List.not_mem_nil, or_false] at hf
    omega

/-- The two pages are freed, one after the other. -/
theorem deallocuvm_eq_plain_gap :
    (twoPages.mem.table 1024 0 = some 1025 ∧ twoPages.mem.table 1024 1 = none ∧
      twoPages.mem.table 1024 2 = some 1026) ∧
    ∃ p', deallocuvm smallKernel 1024 (2049 * PGSIZE) 0 twoPages = .ok 0 p' ∧
      FreeList p' [1028, 1027] := by
  have hproper := proper_twoPages
  have hframes := pageFrames_twoPages
  have hfree : FreeList twoPages [] := rfl
  have htable := table_twoPages.trans table_gap
  generalize twoPages = p at *
  have hlast : npages (2049 * PGSIZE) = 2049 := by decide
  have hdealloc :=
    (deallocuvm_eq_plain smallKernel p 1024 (2049 * PGSIZE) 0 (by decide) (by decide)).2
  rw [hlast, show npages 0 = 0 by decide] at hdealloc
  obtain ⟨p', hrun, hdrop⟩ := hdealloc hproper
  have hlist := hdrop.list [] hfree
  rw [hframes] at hlist
  rw [htable]
  exact ⟨⟨rfl, rfl, rfl⟩, p', hrun, hlist (by decide) fun _ _ _ => List.not_mem_nil⟩

end Vm

end Xv6
