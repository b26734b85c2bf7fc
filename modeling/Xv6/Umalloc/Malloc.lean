import Xv6.Umalloc.Free

/-!
# `malloc`

The loop of `malloc` goes around the free blocks once, from the one behind `freep` to `freep`, and
stops at the first that is large enough. If there is none, the heap grows by a block that is given
to `free`, and then the second round must find one.

## Main results

* `IsHeap.take` — a block is taken from the free ones
* `IsHeap.search_returns` — `malloc` returns, with a new owned block or with null
-/

namespace Xv6

namespace Umalloc

variable {base b₀ : ℕ} {s : State} {cs A C : List Cell} {n k x prevp nunits nbytes : ℕ}

/-! ### Taking a block -/

/-- An owned block may be anywhere. -/
theorem apart_own {o : Option ℕ} (h : (A ++ ⟨n, o⟩ :: C).IsChain Apart) (m : ℕ) :
    (A ++ ⟨m, some k⟩ :: C).IsChain Apart := by
  obtain ⟨hA, hC, -⟩ := List.isChain_append.mp h
  refine List.isChain_append.mpr ⟨hA, List.isChain_cons.mpr ⟨fun d _ => nofun, hC.tail⟩, ?_⟩
  intro c _ d hd
  obtain rfl : ⟨m, some k⟩ = d := by simpa using hd
  exact nofun

section

variable (hb : base + 8 ≤ b₀) (h : IsHeap base b₀ (A ++ ⟨n, none⟩ :: C) s)
  (hprev : prevp ∈ base :: frees b₀ (A ++ ⟨n, none⟩ :: C))
include hb h hprev

/-- The block is as large as needed. -/
theorem IsHeap.take_whole (hnext : s.ptr prevp = stop b₀ A) (hk : k + 8 ≤ n * 8) :
    IsHeap base b₀ (A ++ ⟨n, some k⟩ :: C)
      { s.setPtr prevp (s.ptr (stop b₀ A)) with freep := prevp } := by
  obtain ⟨hsA, hn, hsC⟩ := solid_split.mp h.solid
  obtain ⟨hrA, -, hrC⟩ := roomy_split.mp h.room
  obtain ⟨h₁, h₂, h₃⟩ := headers_split.mp h.headers
  have hring := h.ring
  have hsorted := h.solid.sorted hb
  rw [frees_append, frees_free, ← List.cons_append] at hring hsorted hprev
  have hnodup := hsorted.imp fun h => Nat.ne_of_lt h
  obtain ⟨c, hc⟩ := LinkPath.pred_unique hring hnodup hprev hnext
  have hlt : prevp < stop b₀ A := lt_stop_of_mem hb hsA (by rw [hc]; simp)
  rw [hc] at hring hnodup
  have hring' :
    LinkPath s.ptr (c ++ prevp :: stop b₀ A :: (frees (stop b₀ A + n * 8) C ++ [base])) := by
    simpa using hring
  obtain ⟨hleft, -, hright⟩ := LinkPath.cut_next.mp hring'
  obtain ⟨y, hy⟩ : ∃ y, y ∈ (frees (stop b₀ A + n * 8) C ++ [base]).head? := by
    cases frees (stop b₀ A + n * 8) C <;> simp
  have hpc : prevp ∉ c := fun hmem =>
    (List.nodup_append.mp (List.nodup_append.mp hnodup).1).2.2 prevp hmem prevp (by simp) rfl
  have hnew := hleft.attach (List.isChain_cons.mp hright).2 hy hpc fun hmem =>
    (hlt.trans (lt_of_mem_frees hn hmem)).ne rfl
  refine ⟨by simpa using h.brk, by simpa using h.small, solid_split.mpr ⟨hsA, hn, hsC⟩,
    roomy_split.mpr ⟨hrA, ?_, hrC⟩, ?_, ?_, ?_, ?_, apart_own h.apart n⟩
  · rintro _ ⟨⟩
    exact hk
  · exact (State.size_setPtr s prevp _).symm ▸ headers_split.mpr ⟨h₁, h₂, h₃⟩
  · exact (congrFun (State.size_setPtr s prevp _) base).trans h.zero
  · change LinkPath (State.ptr (State.setPtr _ _ _)) _
    rw [State.ptr_setPtr, hright.next_of_head hy, frees_append, frees_live, ← List.cons_append, hc]
    simpa using hnew
  · change prevp ∈ _
    rw [frees_append, frees_live, ← List.cons_append, hc]
    simp

/-- The block is larger, and its end is cut off. -/
theorem IsHeap.take_end (hn : nunits < n) (hk : k + 8 ≤ nunits * 8) :
    IsHeap base b₀ (A ++ ⟨n - nunits, none⟩ :: ⟨nunits, some k⟩ :: C)
      { (s.setSize (stop b₀ A) (n - nunits)).setSize (stop b₀ A + (n - nunits) * 8) nunits with
        freep := prevp } := by
  obtain ⟨hsA, -, hsC⟩ := solid_split.mp h.solid
  obtain ⟨hrA, -, hrC⟩ := roomy_split.mp h.room
  obtain ⟨hhA, -, hhC⟩ := headers_split.mp h.headers
  have hu : 0 < nunits := by omega
  have hend : stop b₀ A + (n - nunits) * 8 + nunits * 8 = stop b₀ A + n * 8 := by omega
  have hfr : frees b₀ (A ++ ⟨n - nunits, none⟩ :: ⟨nunits, some k⟩ :: C) =
      frees b₀ (A ++ ⟨n, none⟩ :: C) := by simp [hend]
  have hbase : base < stop b₀ A := lt_stop_of_mem hb hsA List.mem_cons_self
  have hsize : State.size ((s.setSize (stop b₀ A) (n - nunits)).setSize
      (stop b₀ A + (n - nunits) * 8) nunits) = Function.update (Function.update s.size (stop b₀ A)
        (n - nunits)) (stop b₀ A + (n - nunits) * 8) nunits := by simp
  have hne : ∀ y, y < stop b₀ A ∨ stop b₀ A + n * 8 ≤ y →
      Function.update (Function.update s.size (stop b₀ A) (n - nunits))
        (stop b₀ A + (n - nunits) * 8) nunits y = s.size y := by
    intro y hy
    rw [Function.update_of_ne (by omega), Function.update_of_ne (by omega)]
  refine ⟨?_, ?_, solid_split.mpr ⟨hsA, Nat.sub_pos_of_lt hn, ?_⟩,
    roomy_split.mpr ⟨hrA, nofun, ?_⟩, ?_, ?_, ?_, ?_, ?_⟩
  · simpa [hend] using h.brk
  · simpa [hend] using h.small
  · exact List.forall_mem_cons.mpr ⟨hu, hsC⟩
  · refine List.forall_mem_cons.mpr ⟨?_, hrC⟩
    rintro _ ⟨⟩
    exact hk
  · change Headers (State.size (State.setSize _ _ _)) _ _
    rw [hsize]
    refine headers_split.mpr ⟨hhA.congr hsA fun y _ hy => hne y (.inl hy), ?_, ?_, ?_⟩
    · rw [Function.update_of_ne (by omega), Function.update_self]
    · exact Function.update_self _ _ _
    · rw [hend]
      exact hhC.congr hsC fun y hy _ => hne y (.inr hy)
  · exact (congrFun hsize base).trans ((hne base (.inl hbase)).trans h.zero)
  · change LinkPath (State.ptr (State.setSize _ _ _)) _
    rw [State.ptr_setSize, State.ptr_setSize, hfr]
    exact h.ring
  · rw [hfr]
    exact hprev
  · obtain ⟨hA, hC, hlast⟩ := List.isChain_append.mp h.apart
    have hC' : (⟨n - nunits, none⟩ :: ⟨nunits, some k⟩ :: C : List Cell).IsChain Apart :=
      List.isChain_cons_cons.mpr ⟨nofun, List.isChain_cons.mpr ⟨fun d _ => nofun, hC.tail⟩⟩
    refine List.isChain_append.mpr ⟨hA, hC', fun c hc d hd => ?_⟩
    obtain rfl : ⟨n - nunits, none⟩ = d := by simpa using hd
    exact hlast c hc ⟨n, none⟩ rfl

end

/-- **A block is taken** from the free ones. -/
theorem IsHeap.take (hb : base + 8 ≤ b₀) (h : IsHeap base b₀ cs s)
    (hprev : prevp ∈ base :: frees b₀ cs) (hx : x ∈ frees b₀ cs) (hnext : s.ptr prevp = x)
    (hfit : nunits ≤ s.size x) (hk : k + 8 ≤ nunits * 8) :
    ∃ cs', IsHeap base b₀ cs' (take s prevp x nunits).2 ∧ (take s prevp x nunits).1 ≠ 0 ∧
      (lives b₀ cs').Perm (((take s prevp x nunits).1, k) :: lives b₀ cs) := by
  obtain ⟨A, n, C, rfl, rfl⟩ := exists_of_mem_frees hx
  obtain ⟨-, hsize, -⟩ := headers_split.mp h.headers
  have hsize : s.size (stop b₀ A) = n := hsize
  have hsmall : stop b₀ A + n * 8 < 2 ^ 32 := (le_stop _ C).trans_lt (by simpa using h.small)
  rw [hsize] at hfit
  rw [Umalloc.take, hsize]
  split
  · rename_i hn
    subst hn
    have hptr : plus (stop b₀ A) 1 = stop b₀ A + 8 := plus_eq (by omega)
    refine ⟨_, h.take_whole hb hprev hnext hk, by simp [hptr], ?_⟩
    simp [hptr]
  · rename_i hn
    have hlt : nunits < n := by omega
    have hend : stop b₀ A + (n - nunits) * 8 + nunits * 8 = stop b₀ A + n * 8 := by omega
    have hp : plus (stop b₀ A) (n - nunits) = stop b₀ A + (n - nunits) * 8 := plus_eq (by omega)
    have hptr : plus (stop b₀ A + (n - nunits) * 8) 1 = stop b₀ A + (n - nunits) * 8 + 8 :=
      plus_eq (by omega)
    simp only [State.size_setSize, Function.update_self, hp, hptr]
    refine ⟨_, h.take_end hb hprev hlt hk, by omega, ?_⟩
    simp [hend]

/-! ### The loop -/

/-- What `malloc` does when no block is large enough. -/
def extend (nunits fuel : ℕ) (grants : List Bool) (s : State) : Option (ℕ × State) := do
  let (p, s) ← morecore fuel (grants.headD false) s nunits
  if p = 0 then return (0, s)
  search nunits fuel grants.tail s p (s.ptr p)

/-- **One round** around the free blocks. -/
theorem search_round {t : List ℕ} {prev fuel : ℕ} (grants : List Bool)
    (hp : LinkPath s.ptr (prev :: t ++ [s.freep])) (ht : s.freep ∉ t) :
    (∃ prevp x, prevp ∈ prev :: t ∧ x ∈ t ++ [s.freep] ∧ s.ptr prevp = x ∧ nunits ≤ s.size x ∧
      search nunits (fuel + t.length + 1) grants s prev (s.ptr prev) =
        some (take s prevp x nunits)) ∨
    (∀ x ∈ t ++ [s.freep], s.size x < nunits) ∧ ∃ fuel' ≥ fuel,
      search nunits (fuel + t.length + 1) grants s prev (s.ptr prev) =
        extend nunits fuel' grants s := by
  induction t generalizing prev fuel with
  | nil =>
    have hnext : s.ptr prev = s.freep := hp.next_of_head rfl
    rw [search, hnext, if_pos rfl]
    by_cases hfit : s.size s.freep ≥ nunits
    · refine .inl ⟨prev, s.freep, by simp, by simp, hnext, hfit, ?_⟩
      rw [if_pos hfit]
    · refine .inr ⟨by simpa using hfit, fuel, le_rfl, ?_⟩
      rw [if_neg hfit]
      rfl
  | cons x t ih =>
    have hnext : s.ptr prev = x := hp.next_of_head rfl
    rw [List.mem_cons, not_or] at ht
    rw [search, hnext]
    by_cases hfit : s.size x ≥ nunits
    · refine .inl ⟨prev, x, by simp, by simp, hnext, hfit, ?_⟩
      rw [if_pos hfit]
    · have hf : fuel + (x :: t).length = fuel + t.length + 1 := by simp; omega
      rw [if_neg hfit, if_neg (Ne.symm ht.1), hf]
      obtain ⟨p, y, hp', hy, h⟩ | ⟨hall, h⟩ := @ih x fuel (List.isChain_cons.mp hp).2 ht.2
      · exact .inl ⟨p, y, List.mem_cons_of_mem _ hp', List.mem_cons_of_mem _ hy, h⟩
      · refine .inr ⟨List.forall_mem_cons.mpr ⟨Nat.not_le.mp hfit, hall⟩, h⟩

/-- **The first round** from `freep` finds a block, or there is none. -/
theorem IsHeap.search (hb : base + 8 ≤ b₀) (h : IsHeap base b₀ cs s) (hu : 0 < nunits)
    (grants : List Bool) {fuel : ℕ} (hf : s.brk ≤ fuel) :
    (∃ prevp x, prevp ∈ base :: frees b₀ cs ∧ x ∈ frees b₀ cs ∧ s.ptr prevp = x ∧
      nunits ≤ s.size x ∧
      Umalloc.search nunits fuel grants s s.freep (s.ptr s.freep) =
        some (Umalloc.take s prevp x nunits)) ∨
    (∀ x ∈ frees b₀ cs, s.size x < nunits) ∧ ∃ fuel' ≥ fuel - s.brk,
      Umalloc.search nunits fuel grants s s.freep (s.ptr s.freep) =
        extend nunits fuel' grants s := by
  obtain ⟨t, ht, hperm⟩ := h.ring.enter h.entry
  have hnodup : (s.freep :: t).Nodup :=
    hperm.nodup_iff.mpr ((h.solid.sorted hb).imp fun h => Nat.ne_of_lt h)
  have hlen : t.length + 1 ≤ s.brk := by
    have h₁ := hperm.length_eq
    have h₂ := length_frees_le b₀ cs
    have h₃ := h.solid.length_le b₀
    rw [← h.brk] at h₃
    simp only [List.length_cons] at h₁
    omega
  have hmem : ∀ x, x ∈ t ++ [s.freep] ↔ x ∈ base :: frees b₀ cs := fun x => by
    rw [← hperm.mem_iff]
    simp [or_comm]
  obtain ⟨f, rfl⟩ : ∃ f, fuel = f + t.length + 1 := ⟨fuel - (t.length + 1), by omega⟩
  obtain ⟨prevp, x, hp, hx, hnext, hfit, hs⟩ | ⟨hall, f', hf', hs⟩ :=
    search_round grants ht (List.nodup_cons.mp hnodup).1
  · refine .inl ⟨prevp, x, hperm.mem_iff.mp hp, ?_, hnext, hfit, hs⟩
    rcases List.mem_cons.mp ((hmem x).mp hx) with rfl | hx
    · rw [h.zero] at hfit
      omega
    · exact hx
  · refine .inr ⟨fun x hx => hall x ((hmem x).mpr (List.mem_cons_of_mem _ hx)), f', ?_, hs⟩
    omega

/-- The heap grows: a block that nobody has asked for. -/
theorem IsHeap.grow (hb : base + 8 ≤ b₀) (h : IsHeap base b₀ cs s) {nu : ℕ} (hu : 0 < nu)
    (hsmall : s.brk + nu * 8 < 2 ^ 32) :
    IsHeap base b₀ (cs ++ [⟨nu, some 0⟩])
      (State.setSize { s with brk := s.brk + nu * 8 } s.brk nu) := by
  have hstop : stop b₀ (cs ++ [⟨nu, some 0⟩]) = s.brk + nu * 8 := by
    rw [stop_append, ← h.brk]
    rfl
  have hfr : frees b₀ (cs ++ [⟨nu, some 0⟩]) = frees b₀ cs := by simp [frees]
  have hbase : base < s.brk := by
    have := le_stop b₀ cs
    rw [← h.brk] at this
    omega
  have hne : ∀ x, x < s.brk → Function.update s.size s.brk nu x = s.size x := fun x hx =>
    Function.update_of_ne hx.ne _ _
  refine ⟨hstop.symm, hstop.trans_lt hsmall, ?_, ?_, ?_, ?_, ?_, ?_, ?_⟩
  · exact solid_split.mpr ⟨h.solid, hu, by rintro _ ⟨⟩⟩
  · refine roomy_split.mpr ⟨h.room, ?_, by rintro _ ⟨⟩⟩
    rintro _ ⟨⟩
    exact Nat.le_mul_of_pos_left 8 hu
  · rw [State.size_setSize]
    refine headers_split.mpr ⟨h.headers.congr h.solid fun x _ hx => hne x (h.brk ▸ hx), ?_, trivial⟩
    rw [← h.brk]
    exact Function.update_self _ _ _
  · rw [State.size_setSize]
    exact (hne base hbase).trans h.zero
  · rw [State.ptr_setSize, hfr]
    exact h.ring
  · rw [hfr]
    exact h.entry
  · refine List.isChain_append.mpr ⟨h.apart, List.isChain_singleton _, fun c _ d hd => ?_⟩
    obtain rfl : ⟨nu, some 0⟩ = d := by simpa using hd
    rintro ⟨-, h⟩
    cases h

/-- **`morecore`** makes the heap larger by a free block, or is refused. -/
theorem IsHeap.morecore (hb : base + 8 ≤ b₀) (h0 : 0 < base) (h : IsHeap base b₀ cs s)
    (hu : nunits * 8 < 2 ^ 31) (grant : Bool) {fuel : ℕ} (hf : 2 ^ 32 ≤ fuel) :
    Umalloc.morecore fuel grant s nunits = some (0, s) ∨
    ∃ s' cs', Umalloc.morecore fuel grant s nunits = some (s'.freep, s') ∧ s'.freep ≠ 0 ∧
      IsHeap base b₀ cs' s' ∧ s.brk ≤ s'.brk ∧ lives b₀ cs' = lives b₀ cs ∧
      ∃ x ∈ frees b₀ cs', nunits ≤ s'.size x := by
  rw [Umalloc.morecore]
  generalize hnu : (if nunits < 4096 then 4096 else nunits) = nu
  have hnu0 : 4096 ≤ nu := by split at hnu <;> omega
  have hnu1 : nunits ≤ nu := by split at hnu <;> omega
  have hnu2 : nu * 8 < 2 ^ 31 := by split at hnu <;> omega
  have hmod : nu * 8 % 2 ^ 32 = nu * 8 := Nat.mod_eq_of_lt (by omega)
  rw [hmod, sbrk, if_pos hnu2]
  by_cases hgrant : nu * 8 = 0 ∨ grant ∧ s.brk + nu * 8 < 2 ^ 32
  · right
    have hsmall : s.brk + nu * 8 < 2 ^ 32 := hgrant.elim (by omega) fun h => h.2
    have hpage : ¬pageEnd (s.brk + nu * 8) < s.brk + 8 := by
      rw [pageEnd]
      omega
    have hgrow := h.grow hb (by omega : 0 < nu) hsmall
    obtain ⟨s', cs', hfree, hheap, hbrk, hlives, c, hc, ho, hsize⟩ :=
      hgrow.free hb (le_of_lt (hsmall.trans_le hf))
    obtain ⟨x, hx, hxs⟩ := hheap.headers.exists_free hc ho
    have hplus : plus s.brk 1 = stop b₀ cs + 8 := by
      rw [plus_eq (by omega), h.brk]
    refine ⟨s', cs', ?_, ?_, hheap, ?_, by simpa [lives] using hlives, x, hx, by omega⟩
    · simp only [if_pos hgrant, if_neg hpage, hplus, hfree]
      rfl
    · have hentry := hheap.entry
      rcases List.mem_cons.mp hentry with h | h
      · omega
      · have := le_of_mem_frees h
        omega
    · rw [hbrk]
      exact Nat.le_add_right _ _
  · left
    rw [if_neg hgrant]
    rfl

theorem brk_take (s : State) (prevp p nunits : ℕ) : (take s prevp p nunits).2.brk = s.brk := by
  rw [take]
  split <;> rfl

/-- What `malloc` returns: null, or a block for `k` bytes that nobody owned. -/
def Returns (base b₀ : ℕ) (cs : List Cell) (s : State) (k : ℕ) (r : ℕ × State) : Prop :=
  ∃ cs', IsHeap base b₀ cs' r.2 ∧ s.brk ≤ r.2.brk ∧
    (r.1 = 0 ∧ lives b₀ cs' = lives b₀ cs ∨
      r.1 ≠ 0 ∧ (lives b₀ cs').Perm ((r.1, k) :: lives b₀ cs))

/-- **The loop of `malloc`** comes to an end. -/
theorem IsHeap.search_returns (hb : base + 8 ≤ b₀) (h0 : 0 < base) (h : IsHeap base b₀ cs s)
    (hk : k + 8 ≤ nunits * 8) (hu : nunits * 8 < 2 ^ 31) (grants : List Bool) {fuel : ℕ}
    (hf : 2 ^ 33 ≤ fuel) :
    ∃ r, Umalloc.search nunits fuel grants s s.freep (s.ptr s.freep) = some r ∧
      Returns base b₀ cs s k r := by
  have hu0 : 0 < nunits := by omega
  have hbrk : s.brk < 2 ^ 32 := h.brk ▸ h.small
  obtain ⟨prevp, x, hp, hx, hnext, hfit, hs⟩ | ⟨-, f, hf', hs⟩ :=
    h.search hb hu0 grants (by omega : s.brk ≤ fuel)
  · obtain ⟨cs', hheap, hne, hperm⟩ := h.take hb hp hx hnext hfit hk
    exact ⟨_, hs, cs', hheap, (brk_take s prevp x nunits).ge, .inr ⟨hne, hperm⟩⟩
  · rw [hs, extend]
    obtain hm | ⟨s', cs', hm, hne, hheap, hle, hlives, y, hy, hysize⟩ :=
      h.morecore hb h0 hu (grants.headD false) (by omega : 2 ^ 32 ≤ f)
    · rw [hm]
      exact ⟨(0, s), rfl, cs, h, le_rfl, .inl ⟨rfl, rfl⟩⟩
    · have hbrk' : s'.brk < 2 ^ 32 := hheap.brk ▸ hheap.small
      -- the second round: there is a block now
      obtain ⟨prevp, x, hp, hx, hnext, hfit, hs'⟩ | ⟨hall, -⟩ :=
        hheap.search hb hu0 grants.tail (by omega : s'.brk ≤ f)
      · obtain ⟨cs'', hheap', hne', hperm⟩ := hheap.take hb hp hx hnext hfit hk
        refine ⟨_, ?_, cs'', hheap', ?_, .inr ⟨hne', hlives ▸ hperm⟩⟩
        · rw [hm]
          simp only [Option.bind_eq_bind, Option.bind_some, if_neg hne]
          exact hs'
        · exact hle.trans (brk_take s' prevp x nunits).ge
      · exact absurd (hall y hy) (Nat.not_lt.mpr hysize)

end Umalloc

end Xv6
