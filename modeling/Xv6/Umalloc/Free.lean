import Xv6.Umalloc.Cells

/-!
# `free`

The loop of `free` stops at the free block before `bp`, or at `base` if there is none; from wherever
it starts it comes there. Then `bp` is joined with the block behind it, which makes it the beginning
of a path to `base`, and this path is attached to the block before it.

## Main results

* `IsHeap.free` — the block becomes free, together with its free neighbours
-/

namespace Xv6

namespace Umalloc

/-! ### Fields -/

namespace State

variable (s : State) (p q n : ℕ)

@[simp] theorem ptr_setPtr : (s.setPtr p q).ptr = Function.update s.ptr p q := by
  funext x
  by_cases h : x = p
  · subst h; simp [setPtr, ptr]
  · simp [setPtr, ptr, h]

@[simp] theorem size_setPtr : (s.setPtr p q).size = s.size := by
  funext x
  by_cases h : x = p
  · subst h; simp [setPtr, size]
  · simp [setPtr, size, h]

@[simp] theorem ptr_setSize : (s.setSize p n).ptr = s.ptr := by
  funext x
  by_cases h : x = p
  · subst h; simp [setSize, ptr]
  · simp [setSize, ptr, h]

@[simp] theorem size_setSize : (s.setSize p n).size = Function.update s.size p n := by
  funext x
  by_cases h : x = p
  · subst h; simp [setSize, size]
  · simp [setSize, size, h]

@[simp] theorem brk_setPtr : (s.setPtr p q).brk = s.brk := rfl

@[simp] theorem brk_setSize : (s.setSize p n).brk = s.brk := rfl

end State

theorem plus_eq {p n : ℕ} (h : p + n * 8 < 2 ^ 32) : plus p n = p + n * 8 := Nat.mod_eq_of_lt h

section

variable {base b₀ : ℕ} {s : State} {A C : List Cell} {n k p : ℕ}

/-! ### The loop -/

/-- Where the loop stops. -/
def Stops (s : State) (bp p : ℕ) : Prop :=
  bp > p ∧ bp < s.ptr p ∨ p ≥ s.ptr p ∧ (bp > p ∨ bp < s.ptr p)

instance (s : State) (bp p : ℕ) : Decidable (Stops s bp p) := inferInstanceAs (Decidable (_ ∨ _))

theorem findPlace_eq (s : State) (bp fuel p : ℕ) :
    findPlace s bp fuel p = walk s.ptr (fun p => decide (Stops s bp p)) fuel p := by
  induction fuel generalizing p with
  | zero => rfl
  | succ fuel ih =>
    rw [findPlace, walk, ih]
    by_cases h₁ : bp > p ∧ bp < s.ptr p
    · have hst : Stops s bp p := .inl h₁
      simp [h₁, hst]
    · by_cases h₂ : p ≥ s.ptr p ∧ (bp > p ∨ bp < s.ptr p)
      · have hst : Stops s bp p := .inr h₂
        rw [if_neg h₁, if_pos h₂]
        simp [hst]
      · have hst : ¬Stops s bp p := not_or.mpr ⟨h₁, h₂⟩
        rw [if_neg h₁, if_neg h₂]
        simp [hst]

theorem Solid.sorted {cs : List Cell} (h : Solid cs) (hb : base + 8 ≤ b₀) :
    (base :: frees b₀ cs).Pairwise (· < ·) := by
  refine List.pairwise_cons.mpr ⟨fun x hx => ?_, h.frees_sorted b₀⟩
  have := le_of_mem_frees hx
  omega

theorem lt_stop_of_mem (hb : base + 8 ≤ b₀) (hs : Solid A) {y : ℕ} (hy : y ∈ base :: frees b₀ A) :
    y < stop b₀ A := by
  rcases List.mem_cons.mp hy with rfl | hy
  · have := le_stop b₀ A
    omega
  · exact hs.lt_stop hy

/-- **The loop of `free`** finds the last free block before `bp`. -/
theorem IsHeap.findPlace {P : List ℕ} {fuel : ℕ} (h : IsHeap base b₀ (A ++ ⟨n, some k⟩ :: C) s)
    (hb : base + 8 ≤ b₀) (hP : base :: frees b₀ A = P ++ [p])
    (hf : (frees b₀ (A ++ ⟨n, some k⟩ :: C)).length < fuel) :
    findPlace s (stop b₀ A) fuel s.freep = some p := by
  have hfr : base :: frees b₀ (A ++ ⟨n, some k⟩ :: C) =
      (base :: frees b₀ A) ++ frees (stop b₀ A + n * 8) C := by simp
  have hsorted := h.solid.sorted hb
  have hsolidA : Solid A := fun c hc => h.solid c (List.mem_append_left _ hc)
  have hn : 0 < n := h.solid ⟨n, some k⟩ (by simp)
  have hA : ∀ y ∈ base :: frees b₀ A, y < stop b₀ A := fun y => lt_stop_of_mem hb hsolidA
  have hC : ∀ y ∈ frees (stop b₀ A + n * 8) C, stop b₀ A < y := by
    intro y hy
    have := le_of_mem_frees hy
    omega
  have hle : ∀ y ∈ base :: frees b₀ A, y ≤ p := by
    have hs : (P ++ [p]).Pairwise (· < ·) := by
      rw [hfr, hP] at hsorted
      exact (List.pairwise_append.mp hsorted).1
    rw [hP]
    intro y hy
    rcases List.mem_append.mp hy with hy | hy
    · exact ((List.pairwise_append.mp hs).2.2 y hy p (by simp)).le
    · exact (List.mem_singleton.mp hy).le
  have hp : p ∈ base :: frees b₀ A := by rw [hP]; simp
  rw [findPlace_eq]
  refine h.ring.walk h.entry ?_ (fun y hy => ?_) hf
  · rw [hfr]; exact List.mem_append_left _ hp
  · have hbase : base < stop b₀ A := hA base List.mem_cons_self
    have hmem : ∀ z ∈ base :: frees b₀ (A ++ ⟨n, some k⟩ :: C),
        z ≤ p ∨ stop b₀ A < z := by
      rw [hfr]
      exact fun z hz => (List.mem_append.mp hz).imp (hle z) (hC z)
    have hpr : p ∈ base :: frees b₀ (A ++ ⟨n, some k⟩ :: C) := by
      rw [hfr]
      exact List.mem_append_left _ hp
    have hlt := hA p hp
    have hy' := hmem y hy
    rw [decide_eq_true_eq, Stops]
    -- nothing lies between `y` and its successor, neither `bp` nor the last block before it
    obtain ⟨hnext, hmax⟩ | ⟨hnext, hltn, hgap⟩ := h.ring.gap hsorted hy
    · have hmaxp := hmax p hpr
      have hmaxb := hmax base List.mem_cons_self
      rw [hnext]
      omega
    · have hgapp := hgap p hpr
      have hnext' := hmem _ (List.mem_cons_of_mem _ hnext)
      omega

/-! ### The block and what is behind it -/

/-- Whether blocks may be side by side does not depend on their sizes. -/
theorem apart_resize {m : ℕ} (h : (⟨m, none⟩ :: C : List Cell).IsChain Apart) (n : ℕ) :
    (⟨n, none⟩ :: C : List Cell).IsChain Apart :=
  List.isChain_cons.mpr ⟨fun d hd => (List.isChain_cons.mp h).1 d hd, (List.isChain_cons.mp h).2⟩

/-- The block between `A` and `C` is free and leads on to the free blocks behind it, but none of
those before it leads to it. -/
structure Detached (base b₀ : ℕ) (A : List Cell) (n : ℕ) (C : List Cell) (s : State) : Prop where
  brk : s.brk = stop b₀ (A ++ ⟨n, none⟩ :: C)
  small : stop b₀ (A ++ ⟨n, none⟩ :: C) < 2 ^ 32
  solid : Solid (A ++ ⟨n, none⟩ :: C)
  room : Roomy (A ++ ⟨n, none⟩ :: C)
  headers : Headers s.size b₀ (A ++ ⟨n, none⟩ :: C)
  zero : s.size base = 0
  before : LinkPath s.ptr (base :: frees b₀ A)
  behind : LinkPath s.ptr (stop b₀ A :: frees (stop b₀ A + n * 8) C ++ [base])
  apartA : A.IsChain Apart
  apartC : (⟨n, none⟩ :: C : List Cell).IsChain Apart

theorem lt_of_mem_frees {a m x : ℕ} (hm : 0 < m) (hx : x ∈ frees (a + m * 8) C) : a < x := by
  have := le_of_mem_frees hx
  omega

section

variable {P : List ℕ} (hb : base + 8 ≤ b₀) (hP : base :: frees b₀ A = P ++ [p])
include hb hP

/-- The block behind `bp` is not free. -/
theorem IsHeap.detach (h : IsHeap base b₀ (A ++ ⟨n, some k⟩ :: C) s)
    (hC : (⟨n, none⟩ :: C : List Cell).IsChain Apart) :
    Detached base b₀ A n C (s.setPtr (stop b₀ A) (s.ptr p)) := by
  obtain ⟨hsA, hn, hsC⟩ := solid_split.mp h.solid
  obtain ⟨hrA, -, hrC⟩ := roomy_split.mp h.room
  have hring : LinkPath s.ptr (P ++ p :: (frees (stop b₀ A + n * 8) C ++ [base])) := by
    have := h.ring
    rw [frees_append, frees_live, ← List.cons_append, hP] at this
    simpa using this
  obtain ⟨hleft, hright⟩ := LinkPath.cut.mp hring
  have hlt : ∀ y ∈ P ++ [p], y < stop b₀ A := fun y hy => lt_stop_of_mem hb hsA (hP ▸ hy)
  obtain ⟨y, hy⟩ : ∃ y, y ∈ (frees (stop b₀ A + n * 8) C ++ [base]).head? := by
    cases frees (stop b₀ A + n * 8) C <;> simp
  refine ⟨by simpa using h.brk, by simpa using h.small, solid_split.mpr ⟨hsA, hn, hsC⟩,
    roomy_split.mpr ⟨hrA, nofun, hrC⟩, ?_, by simpa using h.zero, ?_, ?_,
    List.IsChain.left_of_append h.apart, hC⟩
  · rw [State.size_setPtr]
    obtain ⟨h₁, h₂, h₃⟩ := headers_split.mp h.headers
    exact headers_split.mpr ⟨h₁, h₂, h₃⟩
  · rw [State.ptr_setPtr, hP]
    refine hleft.congr fun a ha => Function.update_of_ne ?_ _ _
    exact (hlt a (List.mem_append_left _ ha)).ne
  · rw [State.ptr_setPtr, hright.next_of_head hy]
    refine LinkPath.attach (c := []) (List.isChain_singleton _) (List.isChain_cons.mp hright).2 hy
      (by simp) fun hmem => ?_
    exact (lt_of_mem_frees hn hmem).ne rfl

omit hP in
/-- The block behind `bp` is free. -/
theorem IsHeap.merge {m : ℕ} (h : IsHeap base b₀ (A ++ ⟨n, some k⟩ :: ⟨m, none⟩ :: C) s) :
    Detached base b₀ A (n + m) C ((s.setSize (stop b₀ A) (n + m)).setPtr (stop b₀ A)
      (s.ptr (stop b₀ A + n * 8))) := by
  obtain ⟨hsA, hn, hsC⟩ := solid_split.mp h.solid
  obtain ⟨hrA, -, hrC⟩ := roomy_split.mp h.room
  obtain ⟨hhA, -, -, hhC⟩ := headers_split.mp h.headers
  have hn : 0 < n := hn
  have hend : stop b₀ A + n * 8 + m * 8 = stop b₀ A + (n + m) * 8 := by omega
  have hsC' : Solid C := fun c hc => hsC c (List.mem_cons_of_mem _ hc)
  have hring : LinkPath s.ptr ((base :: frees b₀ A) ++ (stop b₀ A + n * 8) ::
      (frees (stop b₀ A + (n + m) * 8) C ++ [base])) := by
    have := h.ring
    rw [frees_append, frees_live, frees_free, hend] at this
    simpa using this
  obtain ⟨hleft, hright⟩ := LinkPath.cut.mp hring
  have hlt : ∀ y ∈ base :: frees b₀ A, y < stop b₀ A := fun y => lt_stop_of_mem hb hsA
  obtain ⟨y, hy⟩ : ∃ y, y ∈ (frees (stop b₀ A + (n + m) * 8) C ++ [base]).head? := by
    cases frees (stop b₀ A + (n + m) * 8) C <;> simp
  have hne : ∀ x, x ≠ stop b₀ A → Function.update s.size (stop b₀ A) (n + m) x = s.size x :=
    fun x hx => Function.update_of_ne hx _ _
  refine ⟨?_, ?_, solid_split.mpr ⟨hsA, Nat.add_pos_left hn m, hsC'⟩,
    roomy_split.mpr ⟨hrA, nofun, fun c hc => hrC c (List.mem_cons_of_mem _ hc)⟩, ?_, ?_, ?_, ?_,
    List.IsChain.left_of_append h.apart, ?_⟩
  · simpa [hend] using h.brk
  · simpa [hend] using h.small
  · rw [State.size_setPtr, State.size_setSize]
    refine headers_split.mpr ⟨hhA.congr hsA fun x _ hx => hne x hx.ne,
      Function.update_self _ _ _, ?_⟩
    rw [hend] at hhC
    exact hhC.congr hsC' fun x hx _ => hne x (by omega)
  · rw [State.size_setPtr, State.size_setSize, hne base (hlt base List.mem_cons_self).ne]
    exact h.zero
  · rw [State.ptr_setPtr, State.ptr_setSize]
    exact List.IsChain.left_of_append
      (hleft.congr fun a ha => Function.update_of_ne (hlt a ha).ne _ _)
  · rw [State.ptr_setPtr, State.ptr_setSize, hright.next_of_head hy]
    refine LinkPath.attach (c := []) (List.isChain_singleton _) (List.isChain_cons.mp hright).2 hy
      (by simp) fun hmem => ?_
    exact (lt_of_mem_frees (Nat.add_pos_left hn m) hmem).ne rfl
  · exact apart_resize (List.IsChain.tail (List.IsChain.right_of_append h.apart)) (n + m)

/-- **`bp` and what is behind it.** -/
theorem IsHeap.joinNext (h : IsHeap base b₀ (A ++ ⟨n, some k⟩ :: C) s) :
    ∃ n' C', Detached base b₀ A n' C' (joinNext s (stop b₀ A) p) ∧ n ≤ n' ∧
      lives (stop b₀ A + n' * 8) C' = lives (stop b₀ A + n * 8) C := by
  obtain ⟨hsA, hn, hsC⟩ := solid_split.mp h.solid
  obtain ⟨-, hsize, hhC⟩ := headers_split.mp h.headers
  have hn : 0 < n := hn
  have hsize : s.size (stop b₀ A) = n := hsize
  have hsmall : stop b₀ A + n * 8 < 2 ^ 32 := (le_stop _ C).trans_lt (by simpa using h.small)
  have hring : LinkPath s.ptr (P ++ p :: (frees (stop b₀ A + n * 8) C ++ [base])) := by
    have := h.ring
    rw [frees_append, frees_live, ← List.cons_append, hP] at this
    simpa using this
  have hbase : base < stop b₀ A := lt_stop_of_mem hb hsA List.mem_cons_self
  have hnext := fun y hy => (LinkPath.cut.mp hring).2.next_of_head (y := y) hy
  rw [Umalloc.joinNext, hsize, plus_eq hsmall]
  match C with
  | [] =>
    have hq : s.ptr p = base := hnext base rfl
    rw [if_neg (by omega)]
    exact ⟨n, [], h.detach hb hP (List.isChain_singleton _), le_rfl, rfl⟩
  | ⟨m, some j⟩ :: C =>
    have hm : 0 < m := hsC ⟨m, some j⟩ List.mem_cons_self
    have hq : s.ptr p ≠ stop b₀ A + n * 8 := by
      obtain ⟨y, hy⟩ : ∃ y, y ∈ (frees (stop b₀ A + n * 8 + m * 8) C ++ [base]).head? := by
        cases frees (stop b₀ A + n * 8 + m * 8) C <;> simp
      rw [hnext y hy]
      rcases List.mem_append.mp (List.mem_of_mem_head? hy) with hy | hy
      · exact (lt_of_mem_frees hm hy).ne'
      · rw [List.mem_singleton.mp hy]
        omega
    have hC : (⟨m, some j⟩ :: C : List Cell).IsChain Apart :=
      List.IsChain.tail (List.IsChain.right_of_append h.apart)
    rw [if_neg hq.symm]
    exact ⟨n, _, h.detach hb hP (List.isChain_cons_cons.mpr ⟨nofun, hC⟩), le_rfl, rfl⟩
  | ⟨m, none⟩ :: C =>
    have hq : s.ptr p = stop b₀ A + n * 8 := hnext _ rfl
    have hm : s.size (stop b₀ A + n * 8) = m := hhC.1
    rw [if_pos hq.symm]
    have hend : stop b₀ A + n * 8 + m * 8 = stop b₀ A + (n + m) * 8 := by omega
    have hfit : (n + m) % 2 ^ 32 = n + m := by
      have h₁ := h.small
      have h₂ := le_stop (stop b₀ A + n * 8 + m * 8) C
      simp only [stop_append, stop_cons] at h₁
      exact Nat.mod_eq_of_lt (by omega)
    refine ⟨n + m, C, ?_, Nat.le_add_right n m, by rw [lives_free, hend]⟩
    simp only [State.ptr_setSize, hq, hm, hfit]
    exact h.merge hb

end

/-! ### The block and what is before it -/

section

variable {P : List ℕ} (hb : base + 8 ≤ b₀) (hP : base :: frees b₀ A = P ++ [p])
include hb hP

/-- The block before `bp` is not free. -/
theorem Detached.link (h : Detached base b₀ A n C s)
    (hA : (A ++ ⟨n, none⟩ :: C).IsChain Apart) :
    IsHeap base b₀ (A ++ ⟨n, none⟩ :: C) { s.setPtr p (stop b₀ A) with freep := p } := by
  obtain ⟨hsA, hn, hsC⟩ := solid_split.mp h.solid
  have hlt : ∀ y ∈ P ++ [p], y < stop b₀ A := fun y hy => lt_stop_of_mem hb hsA (hP ▸ hy)
  have hltp : p < stop b₀ A := hlt p (by simp)
  have hnodup : (P ++ [p]).Nodup := hP ▸ (hsA.sorted hb).imp fun h => h.ne
  have hring : LinkPath (Function.update s.ptr p (stop b₀ A))
      (P ++ p :: (stop b₀ A :: frees (stop b₀ A + n * 8) C) ++ [base]) := by
    refine LinkPath.attach (hP ▸ h.before) h.behind rfl ?_ ?_
    · exact fun hmem => (List.nodup_append.mp hnodup).2.2 p hmem p (by simp) rfl
    · rintro (_ | ⟨_, hmem⟩)
      · exact hltp.ne rfl
      · exact (hltp.trans (lt_of_mem_frees hn hmem)).ne rfl
  have hfr : base :: frees b₀ (A ++ ⟨n, none⟩ :: C) =
      P ++ p :: stop b₀ A :: frees (stop b₀ A + n * 8) C := by
    rw [frees_append, frees_free, ← List.cons_append, hP, List.append_assoc]
    rfl
  refine ⟨h.brk, h.small, h.solid, h.room, ?_, ?_, ?_, ?_, hA⟩
  · exact (State.size_setPtr s p _).symm ▸ h.headers
  · exact (congrFun (State.size_setPtr s p _) base).trans h.zero
  · rw [hfr]
    exact (State.ptr_setPtr s p _).symm ▸ hring
  · rw [hfr]
    simp

omit hP in
/-- The block before `bp` is free. -/
theorem Detached.join {m : ℕ} (h : Detached base b₀ (A ++ [⟨m, none⟩]) n C s) :
    IsHeap base b₀ (A ++ ⟨m + n, none⟩ :: C)
      { (s.setSize (stop b₀ A) (m + n)).setPtr (stop b₀ A) (s.ptr (stop b₀ A + m * 8)) with
        freep := stop b₀ A } := by
  have hend : stop b₀ A + m * 8 + n * 8 = stop b₀ A + (m + n) * 8 := by omega
  have hstop : stop b₀ (A ++ [⟨m, none⟩]) = stop b₀ A + m * 8 := by simp [stop]
  obtain ⟨hsA', hn, hsC⟩ := solid_split.mp h.solid
  obtain ⟨hsA, hm, -⟩ := solid_split.mp hsA'
  obtain ⟨hrA', -, hrC⟩ := roomy_split.mp h.room
  obtain ⟨hhA', -, hhC⟩ := headers_split.mp h.headers
  have hm : 0 < m := hm
  have hbefore := h.before
  have hbehind := h.behind
  rw [hstop, hend] at hbehind hhC
  rw [frees_append, frees_free, frees, ← List.cons_append] at hbefore
  have hlt : ∀ y ∈ base :: frees b₀ A, y < stop b₀ A := fun y => lt_stop_of_mem hb hsA
  obtain ⟨y, hy⟩ : ∃ y, y ∈ (frees (stop b₀ A + (m + n) * 8) C ++ [base]).head? := by
    cases frees (stop b₀ A + (m + n) * 8) C <;> simp
  have hring := LinkPath.attach hbefore (List.isChain_cons.mp hbehind).2 hy
    (fun hmem => (hlt _ hmem).ne rfl) fun hmem =>
      (lt_of_mem_frees (Nat.add_pos_left hm n) hmem).ne rfl
  have hne : ∀ x, x ≠ stop b₀ A → Function.update s.size (stop b₀ A) (m + n) x = s.size x :=
    fun x hx => Function.update_of_ne hx _ _
  refine ⟨?_, ?_, solid_split.mpr ⟨hsA, Nat.add_pos_left hm n, hsC⟩,
    roomy_split.mpr ⟨(roomy_split.mp hrA').1, by rintro _ ⟨⟩, hrC⟩, ?_, ?_, ?_, ?_, ?_⟩
  · simpa [hstop, hend] using h.brk
  · simpa [hstop, hend] using h.small
  · change Headers (State.size (State.setPtr _ _ _)) _ _
    rw [State.size_setPtr, State.size_setSize]
    refine headers_split.mpr ⟨?_, Function.update_self _ _ _, ?_⟩
    · exact (headers_split.mp hhA').1.congr hsA fun x _ hx => hne x hx.ne
    · exact hhC.congr hsC fun x hx _ => hne x (by omega)
  · change State.size (State.setPtr _ _ _) _ = _
    rw [State.size_setPtr, State.size_setSize, hne base (hlt base List.mem_cons_self).ne]
    exact h.zero
  · change LinkPath (State.ptr (State.setPtr _ _ _)) _
    rw [State.ptr_setPtr, State.ptr_setSize, hbehind.next_of_head hy, frees_append, frees_free]
    exact hring
  · rw [frees_append, frees_free]
    simp
  · obtain ⟨hA, -, hlast⟩ := List.isChain_append.mp h.apartA
    refine List.isChain_append.mpr ⟨hA, apart_resize h.apartC (m + n), fun c hc d hd => ?_⟩
    obtain rfl : ⟨m + n, none⟩ = d := by simpa using hd
    exact hlast c hc ⟨m, none⟩ rfl

/-- **`bp` and what is before it.** -/
theorem Detached.joinPrev (h : Detached base b₀ A n C s) :
    ∃ cs, IsHeap base b₀ cs { joinPrev s (stop b₀ A) p with freep := p } ∧
      lives b₀ cs = lives b₀ A ++ lives (stop b₀ A + n * 8) C ∧
      ∃ c ∈ cs, c.owner = none ∧ n ≤ c.size := by
  obtain ⟨hsA, hn, hsC⟩ := solid_split.mp h.solid
  obtain ⟨hhA, hsize, hhC⟩ := headers_split.mp h.headers
  have hsmall : stop b₀ A < 2 ^ 32 := by
    have := (le_stop (stop b₀ A) (⟨n, none⟩ :: C)).trans_lt (stop_append b₀ A _ ▸ h.small)
    exact this
  have hlink : p + s.size p * 8 < stop b₀ A → (A ++ ⟨n, none⟩ :: C).IsChain Apart →
      ∃ cs, IsHeap base b₀ cs { Umalloc.joinPrev s (stop b₀ A) p with freep := p } ∧
        lives b₀ cs = lives b₀ A ++ lives (stop b₀ A + n * 8) C ∧
        ∃ c ∈ cs, c.owner = none ∧ n ≤ c.size := by
    intro hlt hA
    rw [Umalloc.joinPrev, plus_eq (hlt.trans hsmall), if_neg hlt.ne]
    exact ⟨_, h.link hb hP hA, by simp, ⟨n, none⟩, by simp, rfl, le_rfl⟩
  obtain rfl | ⟨A, ⟨m, owner⟩, rfl⟩ := List.eq_nil_or_concat' A
  · obtain rfl : base = p := by
      have : P ++ [p] = [] ++ [base] := hP.symm
      have := (List.append_inj' this rfl).2
      simpa using this.symm
    refine hlink ?_ h.apartC
    rw [h.zero]
    exact lt_stop_of_mem hb hsA List.mem_cons_self
  · obtain ⟨hsA₁, hm, -⟩ := solid_split.mp hsA
    obtain ⟨hhA₁, hsm, -⟩ := headers_split.mp hhA
    have hm : 0 < m := hm
    have hstop : stop b₀ (A ++ [⟨m, owner⟩]) = stop b₀ A + m * 8 := by simp [stop]
    cases owner with
    | some j =>
      refine hlink ?_ ?_
      · have hp : p ∈ base :: frees b₀ A := by
          have : p ∈ P ++ [p] := by simp
          rw [← hP] at this
          simpa [frees] using this
        rw [hstop]
        rcases List.mem_cons.mp hp with rfl | hp
        · rw [h.zero]
          have := lt_stop_of_mem hb hsA₁ List.mem_cons_self
          omega
        · have := hhA₁.end_le hp
          omega
      · refine List.isChain_append.mpr ⟨h.apartA, h.apartC, fun c hc d _ => ?_⟩
        obtain rfl : ⟨m, some j⟩ = c := by simpa using hc
        rintro ⟨h, -⟩
        cases h
    | none =>
      obtain rfl : stop b₀ A = p := by
        have : P ++ [p] = (base :: frees b₀ A) ++ [stop b₀ A] := by
          rw [← hP]
          simp [frees]
        have := (List.append_inj' this rfl).2
        simpa using this.symm
      have hsn : s.size (stop b₀ A + m * 8) = n := hstop ▸ hsize
      have hsm : s.size (stop b₀ A) = m := hsm
      have hfit : (m + n) % 2 ^ 32 = m + n := by
        have h₁ := h.small
        have h₂ := le_stop (stop b₀ A + m * 8 + n * 8) C
        simp only [stop_append, stop] at h₁
        exact Nat.mod_eq_of_lt (by omega)
      have hend : stop b₀ A + m * 8 + n * 8 = stop b₀ A + (m + n) * 8 := by omega
      refine ⟨A ++ ⟨m + n, none⟩ :: C, ?_, ?_, ⟨m + n, none⟩, by simp, rfl, Nat.le_add_left n m⟩
      · rw [hstop] at hsmall
        rw [Umalloc.joinPrev, hstop, hsm, plus_eq hsmall, if_pos rfl]
        simp only [State.ptr_setSize, hsn, hfit]
        exact h.join hb
      · rw [hstop, hend]
        simp [lives]

end

theorem brk_joinNext (s : State) (bp p : ℕ) : (joinNext s bp p).brk = s.brk := by
  rw [joinNext]
  split <;> rfl

theorem brk_joinPrev (s : State) (bp p : ℕ) : (joinPrev s bp p).brk = s.brk := by
  rw [joinPrev]
  split <;> rfl

/-- **`free`** makes the block free, together with its free neighbours. -/
theorem IsHeap.free {fuel : ℕ} (hb : base + 8 ≤ b₀)
    (h : IsHeap base b₀ (A ++ ⟨n, some k⟩ :: C) s) (hf : s.brk ≤ fuel) :
    ∃ s' cs, Umalloc.free fuel s (stop b₀ A + 8) = some s' ∧ IsHeap base b₀ cs s' ∧
      s'.brk = s.brk ∧
      lives b₀ cs = lives b₀ A ++ lives (stop b₀ A + n * 8) C ∧
      ∃ c ∈ cs, c.owner = none ∧ n ≤ c.size := by
  obtain ⟨P, p, hP⟩ := (List.eq_nil_or_concat' (base :: frees b₀ A)).resolve_left (by simp)
  have hlen : (frees b₀ (A ++ ⟨n, some k⟩ :: C)).length < fuel := by
    have h₁ := length_frees_le b₀ (A ++ ⟨n, some k⟩ :: C)
    have h₂ := h.solid.length_le b₀
    rw [← h.brk] at h₂
    omega
  obtain ⟨n', C', hdet, hle, hlives⟩ := h.joinNext hb hP
  obtain ⟨cs, hheap, hlives', c, hc, hfree, hsize⟩ := hdet.joinPrev hb hP
  refine ⟨_, cs, ?_, hheap, ?_, by rw [hlives', hlives], c, hc, hfree, hle.trans hsize⟩
  case refine_2 => exact (brk_joinPrev _ _ _).trans (brk_joinNext _ _ _)
  rw [Umalloc.free, Nat.add_sub_cancel, h.findPlace hb hP hlen]
  rfl

end

end Umalloc

end Xv6
