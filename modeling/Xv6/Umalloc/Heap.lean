import Xv6.Umalloc.Malloc

/-!
# Programs and their heaps

In every state that a program can reach by calls of `malloc` and `free` and by writing to the blocks
that it owns, memory represents a row of blocks, and those with an owner are the program's.

`malloc` itself is only right about sizes that fit. The number of units is computed with a sum that
wraps around at `2 ^ 32`, and the number of bytes that `sbrk` is asked for is read as a signed one.

## Main results

* `heap_safe` — blocks are disjoint and fill the heap, and calls come to an end
* `malloc_capacity` — for which sizes `malloc` can be relied on
-/

namespace Xv6

namespace Umalloc

open Transition

variable {fuel base b₀ : ℕ} {s : State} {cs A C : List Cell} {n k : ℕ} {c c' : Config}

/-! ### The invariant -/

/-- The heap is not set up yet, or memory represents a row of blocks. -/
def Inv (base b₀ : ℕ) (c : Config) : Prop :=
  c.heap.freep = 0 ∧ c.heap.brk = b₀ ∧ c.live = [] ∨
    ∃ cs, IsHeap base b₀ cs c.heap ∧ c.live.Perm (lives b₀ cs)

theorem IsHeap.freep_ne_zero (h : IsHeap base b₀ cs s) (h0 : 0 < base) (hb : base + 8 ≤ b₀) :
    s.freep ≠ 0 := by
  rcases List.mem_cons.mp h.entry with h | h
  · omega
  · have := le_of_mem_frees h
    omega

/-- The first call of `malloc` sets up the list. -/
theorem isHeap_nil (s : State) (hs : s.brk = b₀) (hb' : b₀ < 2 ^ 32) :
    IsHeap base b₀ [] { (s.setPtr base base).setSize base 0 with freep := base } := by
  refine ⟨hs, hb', nofun, nofun, trivial, ?_, ?_, List.mem_cons_self, .nil⟩
  · change State.size (State.setSize _ _ _) base = 0
    rw [State.size_setSize, Function.update_self]
  · change LinkPath (State.ptr (State.setSize _ _ _)) [base, base]
    rw [State.ptr_setSize, State.ptr_setPtr]
    exact List.isChain_pair.mpr (Function.update_self _ _ _)

theorem unitsOf_eq (h : Asks k) : unitsOf k = (k + 7) / 8 + 1 := by
  rw [Asks] at h
  rw [unitsOf]
  omega

/-- **`malloc`** returns. -/
theorem Inv.malloc (h : Inv base b₀ c) (h0 : 0 < base) (hb : base + 8 ≤ b₀) (hb' : b₀ < 2 ^ 32)
    (hf : 2 ^ 33 ≤ fuel) (hk : Asks k) (grants : List Bool) :
    ∃ r cs, malloc fuel base grants c.heap k = some r ∧ IsHeap base b₀ cs r.2 ∧
      c.heap.brk ≤ r.2.brk ∧
      (r.1 = 0 ∧ c.live.Perm (lives b₀ cs) ∨ r.1 ≠ 0 ∧
        ((r.1, k) :: c.live).Perm (lives b₀ cs)) := by
  have hu := unitsOf_eq hk
  rw [Asks] at hk
  have hk₁ : k + 8 ≤ unitsOf k * 8 := by omega
  have hk₂ : unitsOf k * 8 < 2 ^ 31 := by omega
  obtain ⟨hfree, hbrk, hlive⟩ | ⟨cs, hheap, hperm⟩ := h
  · obtain ⟨r, hr, cs', hheap', hle, hres⟩ :=
      (isHeap_nil c.heap hbrk hb').search_returns hb h0 hk₁ hk₂ grants hf
    refine ⟨r, cs', ?_, hheap', hle, ?_⟩
    · rw [Umalloc.malloc, if_pos hfree]
      exact hr
    · rw [hlive]
      exact hres.imp (fun h => ⟨h.1, by rw [h.2]; exact .refl _⟩) fun h => ⟨h.1, h.2.symm⟩
  · obtain ⟨r, hr, cs', hheap', hle, hres⟩ := hheap.search_returns hb h0 hk₁ hk₂ grants hf
    refine ⟨r, cs', ?_, hheap', hle, ?_⟩
    · rw [Umalloc.malloc, if_neg (hheap.freep_ne_zero h0 hb)]
      exact hr
    · exact hres.imp (fun h => ⟨h.1, by rw [h.2]; exact hperm⟩) fun h =>
        ⟨h.1, (hperm.cons _).trans h.2.symm⟩

theorem lives_bounds {y : ℕ × ℕ} (hs : Solid cs) {a : ℕ} (hy : y ∈ lives a cs) :
    a + 8 ≤ y.1 ∧ y.1 < stop a cs + 8 := by
  obtain ⟨A, n, C, rfl, hptr⟩ := exists_of_mem_lives hy
  have hn : 0 < n := (solid_split.mp hs).2.1
  have h₁ := le_stop a A
  have h₂ := le_stop (stop a A + n * 8) C
  rw [hptr, stop_append, stop_cons]
  dsimp only
  omega

/-- Giving up one block keeps the others. -/
theorem filter_lives (hs : Solid (A ++ ⟨n, some k⟩ :: C)) :
    (lives b₀ (A ++ ⟨n, some k⟩ :: C)).filter (fun y => y.1 ≠ stop b₀ A + 8) =
      lives b₀ A ++ lives (stop b₀ A + n * 8) C := by
  obtain ⟨hsA, hn, hsC⟩ := solid_split.mp hs
  have hn : 0 < n := hn
  rw [lives_append, lives_live, List.filter_append, List.filter_cons]
  simp only [ne_eq, not_true_eq_false, decide_false, Bool.false_eq_true, if_false]
  rw [List.filter_eq_self.mpr, List.filter_eq_self.mpr]
  · intro y hy
    have := (lives_bounds hsC hy).1
    simp only [decide_eq_true_eq]
    omega
  · intro y hy
    have := (lives_bounds hsA hy).2
    simp only [decide_eq_true_eq]
    omega

theorem mem_lives_of_mem (hperm : c.live.Perm (lives b₀ cs)) {ap : ℕ}
    (hap : ap ∈ c.live.map Prod.fst) :
    ∃ A n k C, cs = A ++ ⟨n, some k⟩ :: C ∧ ap = stop b₀ A + 8 := by
  obtain ⟨y, hy, rfl⟩ := List.mem_map.mp hap
  obtain ⟨A, n, C, hcs, hptr⟩ := exists_of_mem_lives (hperm.mem_iff.mp hy)
  exact ⟨A, n, y.2, C, hcs, hptr⟩

/-- **`free`** returns. -/
theorem Inv.free (h : Inv base b₀ c) (hb : base + 8 ≤ b₀) (hf : 2 ^ 33 ≤ fuel) {ap : ℕ}
    (hap : ap ∈ c.live.map Prod.fst) :
    ∃ s', free fuel c.heap ap = some s' ∧ Inv base b₀ ⟨s', c.live.filter (·.1 ≠ ap)⟩ := by
  obtain ⟨-, -, hlive⟩ | ⟨cs, hheap, hperm⟩ := h
  · simp [hlive] at hap
  · obtain ⟨A, n, k, C, rfl, rfl⟩ := mem_lives_of_mem hperm hap
    have hbrk : c.heap.brk < 2 ^ 32 := hheap.brk ▸ hheap.small
    obtain ⟨s', cs', hs', hheap', -, hlives, -⟩ := hheap.free hb (by omega : c.heap.brk ≤ fuel)
    refine ⟨s', hs', .inr ⟨cs', hheap', ?_⟩⟩
    rw [hlives, ← filter_lives hheap.solid]
    exact hperm.filter _

/-- Writing to a block that is owned changes neither headers nor links. -/
theorem IsHeap.write (hb : base + 8 ≤ b₀) (h : IsHeap base b₀ (A ++ ⟨n, some k⟩ :: C) s) {i : ℕ}
    (hi : i + 1 < n) (v : Header) :
    IsHeap base b₀ (A ++ ⟨n, some k⟩ :: C)
      { s with mem := Function.update s.mem (stop b₀ A + 8 + 8 * i) v } := by
  obtain ⟨hsA, -, hsC⟩ := solid_split.mp h.solid
  obtain ⟨h₁, h₂, h₃⟩ := headers_split.mp h.headers
  have hsize : ∀ x, x ≠ stop b₀ A + 8 + 8 * i →
      State.size { s with mem := Function.update s.mem (stop b₀ A + 8 + 8 * i) v } x = s.size x :=
    fun x hx => by simp [State.size, Function.update_of_ne hx]
  have hptr : ∀ x, x ≠ stop b₀ A + 8 + 8 * i →
      State.ptr { s with mem := Function.update s.mem (stop b₀ A + 8 + 8 * i) v } x = s.ptr x :=
    fun x hx => by simp [State.ptr, Function.update_of_ne hx]
  have hbase : base < stop b₀ A := lt_stop_of_mem hb hsA List.mem_cons_self
  refine ⟨h.brk, h.small, h.solid, h.room, headers_split.mpr ⟨?_, ?_, ?_⟩, ?_, ?_, h.entry, h.apart⟩
  · exact h₁.congr hsA fun x _ hx => hsize x (by omega)
  · exact (hsize _ (by omega)).trans h₂
  · exact h₃.congr hsC fun x hx _ => hsize x (by dsimp only at hx; omega)
  · exact (hsize base (by omega)).trans h.zero
  · refine h.ring.congr fun x hx => hptr x ?_
    rw [frees_append, frees_live, ← List.cons_append] at hx
    rcases List.mem_append.mp hx with hx | hx
    · have := lt_stop_of_mem hb hsA hx
      omega
    · have := le_of_mem_frees hx
      omega

/-- **One step** of a program. -/
theorem Inv.step (h : Inv base b₀ c) (h0 : 0 < base) (hb : base + 8 ≤ b₀) (hb' : b₀ < 2 ^ 32)
    (hf : 2 ^ 33 ≤ fuel) {e : Event} (hstep : step fuel base c e = some c') : Inv base b₀ c' := by
  cases e with
  | malloc k grants =>
    rw [Umalloc.step] at hstep
    split at hstep
    · rename_i hk
      obtain ⟨r, cs, hr, hheap, -, hres⟩ := h.malloc h0 hb hb' hf hk grants
      rw [hr] at hstep
      cases hstep
      obtain ⟨hz, hperm⟩ | ⟨hz, hperm⟩ := hres
      · exact .inr ⟨cs, hheap, by rw [if_pos hz]; exact hperm⟩
      · exact .inr ⟨cs, hheap, by rw [if_neg hz]; exact hperm⟩
    · cases hstep
  | free ap =>
    rw [Umalloc.step] at hstep
    split at hstep
    · rename_i hap
      obtain ⟨s', hs', hinv⟩ := h.free hb hf hap
      rw [hs'] at hstep
      cases hstep
      exact hinv
    · cases hstep
  | write ap i v =>
    rw [Umalloc.step] at hstep
    split at hstep
    · rename_i hap
      cases hstep
      obtain ⟨-, -, hlive⟩ | ⟨cs, hheap, hperm⟩ := h
      · simp [hlive] at hap
      · obtain ⟨A, n, k, C, rfl, rfl⟩ := mem_lives_of_mem hperm hap.1
        have hsize : c.heap.size (stop b₀ A) = n := (headers_split.mp hheap.headers).2.1
        rw [Nat.add_sub_cancel, hsize] at hap
        exact .inr ⟨_, hheap.write hb hap.2 v, hperm⟩
    · cases hstep

theorem inv_of_run {mem : ℕ → Header} {es : List Event} (h0 : 0 < base) (hb : base + 8 ≤ b₀)
    (hb' : b₀ < 2 ^ 32) (hf : 2 ^ 33 ≤ fuel)
    (hrun : run (step fuel base) (start mem b₀) es = some c) : Inv base b₀ c :=
  run_induct (P := fun _ c => Inv base b₀ c) hrun (.inl ⟨rfl, rfl, rfl⟩)
    fun _ _ _ _ hi hs => hi.step h0 hb hb' hf hs

/-! ### Units -/

/-- The addresses of all blocks. -/
def starts : ℕ → List Cell → List ℕ
  | _, [] => []
  | a, c :: cs => a :: starts (a + c.size * 8) cs

/-- The addresses of the units of a block. -/
def State.units (s : State) (a : ℕ) : List ℕ := List.range' a (s.size a) 8

theorem starts_perm (a : ℕ) (cs : List Cell) :
    (starts a cs).Perm (frees a cs ++ (lives a cs).map fun y => y.1 - 8) := by
  induction cs generalizing a with
  | nil => exact .refl _
  | cons c cs ih =>
    obtain ⟨n, owner⟩ := c
    cases owner with
    | none => exact (ih _).cons a
    | some k =>
      simp only [starts, frees_live, lives_live, List.map_cons, Nat.add_sub_cancel]
      exact ((ih _).cons a).trans List.perm_middle.symm

theorem le_of_mem_starts {a x : ℕ} (hx : x ∈ starts a cs) : a ≤ x := by
  induction cs generalizing a with
  | nil => simp [starts] at hx
  | cons c cs ih =>
    rcases List.mem_cons.mp hx with rfl | hx
    · exact le_rfl
    · exact (Nat.le_add_right _ _).trans (ih hx)

theorem Headers.disjoint {size : ℕ → ℕ} {a : ℕ} (h : Headers size a cs) :
    (starts a cs).Pairwise fun x y => x + size x * 8 ≤ y ∨ y + size y * 8 ≤ x := by
  induction cs generalizing a with
  | nil => exact .nil
  | cons c cs ih =>
    refine List.pairwise_cons.mpr ⟨fun y hy => .inl ?_, ih h.2⟩
    rw [h.1]
    exact le_of_mem_starts hy

theorem Headers.units {a : ℕ} (h : Headers s.size a cs) :
    ∃ m, stop a cs = a + 8 * m ∧ (starts a cs).flatMap s.units = List.range' a m 8 := by
  induction cs generalizing a with
  | nil => exact ⟨0, rfl, rfl⟩
  | cons c cs ih =>
    obtain ⟨m, hstop, hunits⟩ := ih h.2
    refine ⟨c.size + m, by rw [stop_cons, hstop]; omega, ?_⟩
    rw [starts, List.flatMap_cons, hunits, State.units, h.1, ← List.range'_append,
      Nat.mul_comm c.size 8]

theorem free_of_mem_frees {a : ℕ} (hs : Solid cs) (ha : a ∈ frees a cs) :
    ∃ n C, cs = ⟨n, none⟩ :: C := by
  match cs, ha with
  | ⟨n, none⟩ :: C, _ => exact ⟨n, C, rfl⟩
  | ⟨n, some k⟩ :: C, ha =>
    have hn : 0 < n := hs ⟨n, some k⟩ List.mem_cons_self
    exact absurd (lt_of_mem_frees hn ha) (lt_irrefl a)

/-- No free block begins where another one ends. -/
theorem IsHeap.not_adjacent (h : IsHeap base b₀ cs s) (hb : base + 8 ≤ b₀) {x y : ℕ}
    (hx : x ∈ base :: frees b₀ cs) (hy : y ∈ frees b₀ cs) : x + s.size x * 8 ≠ y := by
  rcases List.mem_cons.mp hx with rfl | hx
  · have := le_of_mem_frees hy
    rw [h.zero]
    omega
  · rintro rfl
    obtain ⟨A, n, C, rfl, rfl⟩ := exists_of_mem_frees hx
    obtain ⟨hsA, hn, hsC⟩ := solid_split.mp h.solid
    have hn : 0 < n := hn
    have hsize : s.size (stop b₀ A) = n := (headers_split.mp h.headers).2.1
    rw [hsize, frees_append, frees_free, List.mem_append, List.mem_cons] at hy
    rcases hy with hy | hy | hy
    · have := hsA.lt_stop hy
      omega
    · omega
    · obtain ⟨m, C', rfl⟩ := free_of_mem_frees hsC hy
      have hchain := List.IsChain.right_of_append h.apart
      exact (List.isChain_cons_cons.mp hchain).1 ⟨rfl, rfl⟩

/-! ### Safety -/

/-- The addresses of the blocks that are owned. -/
def Config.owned (c : Config) : List ℕ := c.live.map fun y => y.1 - 8

/-- What holds of a heap with the free blocks `L`. -/
structure Safe (base b₀ : ℕ) (c : Config) (L : List ℕ) : Prop where
  /-- Before the first call there are no blocks. -/
  fresh : c.heap.freep = 0 → L = [] ∧ c.live = []
  /-- The free blocks are a circular list from `base`, and `freep` points into it. -/
  ring : c.heap.freep ≠ 0 →
    LinkPath c.heap.ptr (base :: L ++ [base]) ∧ c.heap.freep ∈ base :: L ∧ c.heap.size base = 0
  /-- They are in the order of their addresses. -/
  sorted : (base :: L).Pairwise (· < ·)
  /-- No two of them are adjacent. -/
  apart : ∀ x ∈ base :: L, ∀ y ∈ L, x + c.heap.size x * 8 ≠ y
  /-- Free and owned blocks do not overlap. -/
  disjoint : (L ++ c.owned).Pairwise fun x y =>
    x + c.heap.size x * 8 ≤ y ∨ y + c.heap.size y * 8 ≤ x
  /-- The owner of a block can use what was asked for. -/
  usable : ∀ y ∈ c.live, y.2 ≤ (c.heap.size (y.1 - 8) - 1) * 8
  /-- The units of all blocks are the units from `b₀` to the end of the heap. -/
  units : ∃ m, c.heap.brk = b₀ + 8 * m ∧
    ((L ++ c.owned).flatMap c.heap.units).Perm (List.range' b₀ m 8)

theorem Inv.safe (h : Inv base b₀ c) (h0 : 0 < base) (hb : base + 8 ≤ b₀) :
    ∃ L, Safe base b₀ c L := by
  obtain ⟨hfree, hbrk, hlive⟩ | ⟨cs, hheap, hperm⟩ := h
  · refine ⟨[], fun _ => ⟨rfl, hlive⟩, fun h => absurd hfree h, List.pairwise_singleton _ _, nofun,
      ?_, ?_, 0, by rw [hbrk]; rfl, ?_⟩
    · rw [Config.owned, hlive]
      exact .nil
    · rw [hlive]
      nofun
    · rw [Config.owned, hlive]
      exact .refl _
  · have hstarts : (starts b₀ cs).Perm (frees b₀ cs ++ c.owned) :=
      (starts_perm b₀ cs).trans ((hperm.map _).symm.append_left _)
    obtain ⟨m, hm, hunits⟩ := hheap.headers.units
    refine ⟨frees b₀ cs, fun h => absurd h (hheap.freep_ne_zero h0 hb),
      fun _ => ⟨hheap.ring, hheap.entry, hheap.zero⟩, hheap.solid.sorted hb,
      fun x hx y hy => hheap.not_adjacent hb hx hy, ?_, ?_, m, hheap.brk.trans hm, ?_⟩
    · exact (hstarts.pairwise_iff fun h => h.symm).mp hheap.headers.disjoint
    · intro y hy
      obtain ⟨A, n, C, rfl, hptr⟩ := exists_of_mem_lives (hperm.mem_iff.mp hy)
      have hroom := (roomy_split.mp hheap.room).2.1 y.2 rfl
      have hsize : c.heap.size (stop b₀ A) = n := (headers_split.mp hheap.headers).2.1
      rw [hptr, Nat.add_sub_cancel, hsize]
      dsimp only at hroom
      omega
    · rw [← hunits]
      exact (hstarts.flatMap_right _).symm

/-- **The user heap.** After any calls of `malloc` and `free`, and whatever the program has written
to its blocks, the next call comes to an end; free and owned blocks are disjoint and fill the heap,
every owner has what was asked for, and the free blocks are a circular list in the order of their
addresses without neighbours. -/
theorem heap_safe {mem : ℕ → Header} {es : List Event} (h0 : 0 < base) (hb : base + 8 ≤ b₀)
    (hb' : b₀ < 2 ^ 32) (hf : 2 ^ 33 ≤ fuel)
    (hrun : run (step fuel base) (start mem b₀) es = some c) :
    (∀ nbytes grants, Asks nbytes → (malloc fuel base grants c.heap nbytes).isSome) ∧
    (∀ ap ∈ c.live.map Prod.fst, (free fuel c.heap ap).isSome) ∧
    ∃ L, Safe base b₀ c L := by
  have hinv := inv_of_run h0 hb hb' hf hrun
  refine ⟨fun nbytes grants hk => ?_, fun ap hap => ?_, hinv.safe h0 hb⟩
  · obtain ⟨r, cs, hr, -⟩ := hinv.malloc h0 hb hb' hf hk grants
    rw [hr]
    rfl
  · obtain ⟨s', hs', -⟩ := hinv.free hb hf hap
    rw [hs']
    rfl

/-- Two blocks, of which the first is given back and part of it is taken again. -/
theorem heap_safe_reuse : ∃ c,
    run (step (2 ^ 33) 8) (start (fun _ => ⟨0, 0⟩) 4096)
      [.malloc 10 [true], .malloc 100 [], .write 36736 0 ⟨1, 2⟩, .free 36848, .malloc 3 []] =
        some c ∧ c.live = [(36856, 3), (36736, 100)] ∧ ∃ L, Safe 8 4096 c L := by
  obtain ⟨c, hrun, hlive⟩ := exists_of_any (step (2 ^ 33) 8) (start (fun _ => ⟨0, 0⟩) 4096)
    [.malloc 10 [true], .malloc 100 [], .write 36736 0 ⟨1, 2⟩, .free 36848, .malloc 3 []]
    (fun c => c.live = [(36856, 3), (36736, 100)]) (by decide +kernel)
  exact ⟨c, hrun, hlive, (heap_safe (by decide) (by decide) (by decide) le_rfl hrun).2.2⟩

/-! ### Capacity -/

/-- What a call of `malloc` for `nbytes` bytes must return. -/
def Right (b₀ nbytes : ℕ) (s : State) (r : ℕ × State) : Prop :=
  r.1 ≠ 0 → nbytes ≤ (r.2.size (r.1 - 8) - 1) * 8 ∧ b₀ ≤ r.1 ∧ r.1 + nbytes ≤ r.2.brk ∧
    s.brk ≤ r.2.brk

theorem Inv.right (h : Inv base b₀ c) (h0 : 0 < base) (hb : base + 8 ≤ b₀) (hb' : b₀ < 2 ^ 32)
    (hf : 2 ^ 33 ≤ fuel) (hk : Asks k) {grants : List Bool} {r : ℕ × State}
    (hr : Umalloc.malloc fuel base grants c.heap k = some r) : Right b₀ k c.heap r := by
  obtain ⟨r', cs, hr', hheap, hle, hres⟩ := h.malloc h0 hb hb' hf hk grants
  obtain rfl : r = r' := Option.some.inj (hr.symm.trans hr')
  intro hne
  have hperm := (hres.resolve_left fun h => hne h.1).2
  obtain ⟨A, n, C, rfl, hptr⟩ := exists_of_mem_lives (hperm.mem_iff.mp List.mem_cons_self)
  have hroom := (roomy_split.mp hheap.room).2.1 k rfl
  have hsize : r.2.size (stop b₀ A) = n := (headers_split.mp hheap.headers).2.1
  have hbrk := hheap.brk
  have h₁ := le_stop b₀ A
  have h₂ := le_stop (stop b₀ A + n * 8) C
  rw [stop_append, stop_cons] at hbrk
  dsimp only at hroom hptr hbrk
  rw [hptr, Nat.add_sub_cancel, hsize]
  omega

/-- A heap that has just been set up, when `sbrk` returns its end and moves it to `b`. -/
theorem search_empty {nunits b nu : ℕ} (f : ℕ) (hptr : s.ptr 8 = 8) (hsize : s.size 8 = 0)
    (hfreep : s.freep = 8) (hu : 0 < nunits)
    (hnu : nu = if nunits < 4096 then 4096 else nunits)
    (hsbrk : sbrk true s (nu * 8 % 2 ^ 32) = some (20, { s with brk := b }))
    (hpage : 28 ≤ pageEnd b) (hne : plus 20 nu ≠ 8) :
    ∃ s', search nunits (f + 3) [true] s s.freep (s.ptr s.freep) = some (take s' 8 20 nunits) ∧
      s'.size 20 = nu ∧ s'.brk = b := by
  have hle : nunits ≤ nu := by
    rw [hnu]
    split <;> omega
  -- the block is inserted behind `base`
  generalize hs₁ : State.setSize { s with brk := b } 20 nu = s₁
  have hptr₁ : s₁.ptr = s.ptr := by rw [← hs₁, State.ptr_setSize]; rfl
  have hsize₁ : s₁.size = Function.update s.size 20 nu := by rw [← hs₁, State.size_setSize]; rfl
  have hfreep₁ : s₁.freep = 8 := by rw [← hs₁]; exact hfreep
  have hplace : findPlace s₁ 20 (f + 2) 8 = some 8 := by
    simp [findPlace, hptr₁, hptr]
  have hjoin : joinPrev (joinNext s₁ 20 8) 20 8 = (s₁.setPtr 20 8).setPtr 8 20 := by
    have hnext : joinNext s₁ 20 8 = s₁.setPtr 20 8 := by
      rw [joinNext, hptr₁, hptr, hsize₁, Function.update_self, if_neg hne]
    rw [hnext, joinPrev, State.size_setPtr, hsize₁, Function.update_of_ne (by decide), hsize,
      if_neg (by decide)]
  have hfree : free (f + 2) s₁ 28 = some { (s₁.setPtr 20 8).setPtr 8 20 with freep := 8 } := by
    rw [free, hfreep₁, hplace]
    simp [hjoin]
  have hmore : morecore (f + 2) true s nunits =
      some (8, { (s₁.setPtr 20 8).setPtr 8 20 with freep := 8 }) := by
    have hplus : plus 20 1 = 28 := rfl
    rw [morecore, ← hnu, hsbrk]
    simp [Nat.not_lt.mpr hpage, hs₁, hplus, hfree]
  generalize hs₂ : ({ (s₁.setPtr 20 8).setPtr 8 20 with freep := 8 } : State) = s₂ at hmore
  have hptr₂ : s₂.ptr 8 = 20 := by
    rw [← hs₂]
    change State.ptr (State.setPtr _ _ _) 8 = 20
    rw [State.ptr_setPtr, Function.update_self]
  have hsize₂ : s₂.size 20 = nu := by
    rw [← hs₂]
    change State.size (State.setPtr _ _ _) 20 = nu
    rw [State.size_setPtr, State.size_setPtr, hsize₁, Function.update_self]
  refine ⟨s₂, ?_, hsize₂, by rw [← hs₂, ← hs₁]; rfl⟩
  rw [hfreep, hptr, search, hsize, if_neg (Nat.not_le.mpr hu), if_pos hfreep.symm]
  simp only [List.headD_cons, hmore, Option.bind_eq_bind, Option.bind_some]
  rw [if_neg (by decide), hptr₂, search, hsize₂, if_pos hle]

/-- A heap that is not set up yet. -/
abbrev unused : State := (start (fun _ => ⟨0, 0⟩) 20).heap

/-- The first call of `malloc`, when `sbrk` returns the end of the heap and moves it to `b`. -/
theorem malloc_unused {b nu : ℕ} (f : ℕ) (hnu : nu = if unitsOf k < 4096 then 4096 else unitsOf k)
    (hsbrk : ∀ s : State, s.brk = 20 →
      sbrk true s (nu * 8 % 2 ^ 32) = some (20, { s with brk := b }))
    (hpage : 28 ≤ pageEnd b) (hne : plus 20 nu ≠ 8) :
    ∃ s, malloc (f + 3) 8 [true] unused k = some (take s 8 20 (unitsOf k)) ∧ s.size 20 = nu ∧
      s.brk = b :=
  search_empty (s := { (unused.setPtr 8 8).setSize 8 0 with freep := 8 }) f rfl rfl rfl
    (Nat.succ_pos _) hnu (hsbrk _ rfl) hpage hne

/-- The sum wraps around: a block of one unit is returned. -/
theorem malloc_wraps (f : ℕ) (hk : k < 2 ^ 32) (hw : 2 ^ 32 ≤ k + 7) :
    ∃ r, malloc (f + 3) 8 [true] unused k = some r ∧ ¬Right 20 k unused r := by
  have hu : unitsOf k = 1 := by
    rw [unitsOf]
    omega
  obtain ⟨s, hs, hsize, -⟩ := @malloc_unused k 32788 4096 f (by rw [hu]; rfl)
    (fun s hbrk => by rw [sbrk, if_pos (by decide), hbrk]; rfl) (by decide) (by decide)
  refine ⟨_, hs, fun h => ?_⟩
  rw [hu, take, hsize, if_neg (by decide)] at h
  simp only [State.size_setSize, Function.update_self] at h
  have := (h (show plus (plus 20 (4096 - 1)) 1 ≠ 0 by decide)).1
  change k ≤ (State.size (State.setSize _ _ _) 32780 - 1) * 8 at this
  rw [State.size_setSize] at this
  change k ≤ (1 - 1) * 8 at this
  omega

/-- The number of bytes for `sbrk` is not positive: there is no memory for the block. -/
theorem malloc_signed (f : ℕ) (hk : ¬Asks k) (hw : k + 7 < 2 ^ 32) :
    ∃ r, malloc (f + 3) 8 [true] unused k = some r ∧ ¬Right 20 k unused r := by
  have hu : unitsOf k = (k + 7) / 8 + 1 := by
    rw [unitsOf]
    omega
  rw [Asks, ← hu] at hk
  obtain ⟨b, hb0, hb, hsbrk⟩ : ∃ b, 0 < b ∧ b ≤ 20 ∧ ∀ s : State, s.brk = 20 →
      sbrk true s (unitsOf k * 8 % 2 ^ 32) = some (20, { s with brk := b }) := by
    by_cases hall : unitsOf k * 8 = 2 ^ 32
    · refine ⟨20, by decide, le_rfl, fun s hs => ?_⟩
      rw [hall, sbrk, hs]
      rfl
    · have hmod : unitsOf k * 8 % 2 ^ 32 = unitsOf k * 8 := Nat.mod_eq_of_lt (by omega)
      rw [hmod]
      by_cases hkeep : (20 + unitsOf k * 8) % 2 ^ 32 ≥ 20
      · refine ⟨20, by decide, le_rfl, fun s hs => ?_⟩
        rw [sbrk, if_neg hk, hs, if_pos hkeep, ← hs]
      · refine ⟨(20 + unitsOf k * 8) % 2 ^ 32, by omega, by omega, fun s hs => ?_⟩
        rw [sbrk, if_neg hk, hs, if_neg hkeep, if_neg (by omega)]
  obtain ⟨s, hs, hsize, hbrk⟩ := malloc_unused f (if_neg (by omega)).symm hsbrk
    (by rw [pageEnd]; omega) (by rw [plus]; omega)
  refine ⟨_, hs, fun h => ?_⟩
  rw [take, if_pos hsize] at h
  have hend := (h (show plus 20 1 ≠ 0 by decide)).2.2.1
  change 28 + k ≤ s.brk at hend
  omega

/-- **The capacity of blocks.** In every heap that a program can reach by calls for sizes that fit,
`malloc` returns null or a block for the bytes that were asked for, just if this size fits, too. -/
theorem malloc_capacity {nbytes : ℕ} (hn : nbytes < 2 ^ 32) (hf : 2 ^ 33 ≤ fuel) :
    (∀ base b₀ mem es c grants r, 0 < base → base + 8 ≤ b₀ → b₀ < 2 ^ 32 →
      run (step fuel base) (start mem b₀) es = some c →
      malloc fuel base grants c.heap nbytes = some r → Right b₀ nbytes c.heap r) ↔
    Asks nbytes := by
  constructor
  · intro h
    by_contra hask
    obtain ⟨f, rfl⟩ : ∃ f, fuel = f + 3 := ⟨fuel - 3, by omega⟩
    have hbad : ∃ r, malloc (f + 3) 8 [true] unused nbytes = some r ∧
        ¬Right 20 nbytes unused r := by
      by_cases hw : nbytes + 7 < 2 ^ 32
      · exact malloc_signed f hask hw
      · exact malloc_wraps f hn (Nat.not_lt.mp hw)
    obtain ⟨r, hr, hwrong⟩ := hbad
    exact hwrong (h 8 20 _ [] _ [true] r (by decide) (by decide) (by decide) rfl hr)
  · intro hask base b₀ mem es c grants r h0 hb hb' hrun hr
    exact (inv_of_run h0 hb hb' hf hrun).right h0 hb hb' hf hask hr

/-- `malloc(10)` can be relied on. -/
theorem malloc_capacity_ten : Asks 10 ∧ ∀ base b₀ mem es c grants r, 0 < base → base + 8 ≤ b₀ →
    b₀ < 2 ^ 32 → run (step (2 ^ 33) base) (start mem b₀) es = some c →
    malloc (2 ^ 33) base grants c.heap 10 = some r → Right b₀ 10 c.heap r :=
  ⟨by decide, (malloc_capacity (by decide) le_rfl).mpr (by decide)⟩

/-- `malloc(0xffffffff)` returns a block of one unit, with no room behind its header. -/
theorem malloc_capacity_fails : ∃ r,
    run (step (2 ^ 33) 8) (start (fun _ => ⟨0, 0⟩) 4096) [] = some (start (fun _ => ⟨0, 0⟩) 4096) ∧
    malloc (2 ^ 33) 8 [true] (start (fun _ => ⟨0, 0⟩) 4096).heap (2 ^ 32 - 1) = some r ∧
    r.1 = 36864 ∧ r.2.size (36864 - 8) = 1 := by
  have hany : ((malloc (2 ^ 33) 8 [true] (start (fun _ => ⟨0, 0⟩) 4096).heap (2 ^ 32 - 1)).any
      fun r => decide (r.1 = 36864 ∧ r.2.size (36864 - 8) = 1)) = true := by decide +kernel
  cases hr : malloc (2 ^ 33) 8 [true] (start (fun _ => ⟨0, 0⟩) 4096).heap (2 ^ 32 - 1) with
  | none =>
    rw [hr] at hany
    cases hany
  | some r =>
    rw [hr] at hany
    exact ⟨r, rfl, rfl, of_decide_eq_true hany⟩

end Umalloc

end Xv6
