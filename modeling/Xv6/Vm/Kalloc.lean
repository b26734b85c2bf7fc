import Xv6.Lib.Chain
import Xv6.Lib.Wp
import Xv6.Vm.Memory

/-!
# The page allocator

`kalloc.c`. The allocator is used under `kmem.lock`, and the calls of the kernel are taken one after
another here, so the lock is left out.

A pool of frames is shared between the free list and those that have taken frames from it. `Pool`
says that the free list and what has been taken together are exactly the pool, each frame once.
`kalloc` and `kfree` move one frame between the two, and touch no memory but that frame
(`wp_kalloc`, `wp_kfree`).

## Main definitions

* `kalloc`, `kfree`, `freerange`
* `FreeList`, `Pool`
-/

namespace Xv6

namespace Vm

/-- Where the kernel was linked: the addresses `data` and `end`, which `kernel.ld` defines. -/
structure Layout where
  data : ℕ
  end_ : ℕ
  data_aligned : data % PGSIZE = 0
  kernlink_lt : KERNLINK < data
  data_le : data ≤ end_
  end_le : end_ ≤ P2V (4 * 1024 * 1024)

/-- What stops the kernel. -/
inductive Halt
  /-- `panic("kfree")`. -/
  | kfree
  /-- `panic("remap")`. -/
  | remap
  /-- `panic("PHYSTOP too high")`. -/
  | phystop
  /-- `panic("inituvm: more than a page")`. -/
  | inituvm
  /-- `panic("loaduvm: addr must be page aligned")`. -/
  | loaduvmAlign
  /-- `panic("loaduvm: address should exist")`. -/
  | loaduvm
  /-- `panic("freevm: no pgdir")`. -/
  | freevm
  /-- `panic("clearpteu")`. -/
  | clearpteu
  /-- `panic("copyuvm: pte should exist")`. -/
  | copyuvmPte
  /-- `panic("copyuvm: page not present")`. -/
  | copyuvmPage
  /-- `panic("userinit: out of memory?")`. -/
  | userinit
  /-- `panic("filedup")`. -/
  | filedup
  /-- `panic("fileclose")`. -/
  | fileclose
  /-- `panic("init exiting")`. -/
  | initExiting
  /-- The kernel uses an address that is not mapped, which ends in `panic("trap")`. -/
  | fault
  /-- A loop has not come to its end. -/
  | diverged
  deriving DecidableEq, Repr

/-- Physical memory and `kmem.freelist`, which is a virtual address. -/
structure Phys where
  mem : Mem
  freelist : ℕ

/-- Programs that use physical memory. -/
abbrev M := EStateM Halt Phys

def load (f i : ℕ) : M ℕ := return (← get).mem.word f i

def store (f i w : ℕ) : M Unit := modify fun p => { p with mem := p.mem.setWord f i w }

/-- `memset` of a whole page. -/
def memset (f : ℕ) (c : UInt8) : M Unit := modify fun p => { p with mem := p.mem.fill f c }

variable (L : Layout)

/-- `kfree` accepts a page. -/
def Layout.Usable (f : ℕ) : Prop := L.end_ ≤ P2V (f * PGSIZE) ∧ f * PGSIZE < PHYSTOP

instance : DecidablePred L.Usable := fun _ => inferInstanceAs (Decidable (_ ∧ _))

def kfree (f : ℕ) : M Unit := do
  if ¬ L.Usable f then throw .kfree
  memset f 1
  modify fun p => { mem := p.mem.setWord f 0 p.freelist, freelist := P2V (f * PGSIZE) }

/-- The page returned is `none` for the null pointer. -/
def kalloc : M (Option ℕ) := do
  let p ← get
  if p.freelist = 0 then return none
  let r := V2P p.freelist / PGSIZE
  set { p with freelist := p.mem.word r 0 }
  return some r

/-- As many rounds as no loop over the pages of the address space needs. -/
def ROUNDS : ℕ := 2 ^ 20 + 1

/-- The loop of `freerange`. -/
def freerangeLoop (vend : ℕ) : ℕ → ℕ → M Unit
  | 0, _ => throw .diverged
  | n + 1, p => do
    if p + PGSIZE ≤ vend then
      kfree L (V2P p / PGSIZE)
      freerangeLoop vend n (p + PGSIZE)

def freerange (vstart vend : ℕ) : M Unit := freerangeLoop L vend ROUNDS (PGROUNDUP vstart)

/-! ### The free list -/

/-- The frames on the free list, in the order of the list. -/
def FreeList (p : Phys) (free : List ℕ) : Prop :=
  Chain (fun f => p.mem.word f 0) (fun f => P2V (f * PGSIZE)) 0 p.freelist free

/-- The frames of the pool `X` are those on the free list, `free`, and those that have been taken,
`Y`. -/
structure Pool (X : Multiset ℕ) (p : Phys) (free : List ℕ) (Y : Multiset ℕ) : Prop where
  list : FreeList p free
  sum : (free : Multiset ℕ) + Y = X
  nodup : X.Nodup
  usable : ∀ f ∈ X, L.Usable f

/-- Memory is as it was outside the pool `X`, and in the frames of `Y`. -/
def Keeps (X Y : Multiset ℕ) (m m' : Mem) : Prop := ∀ f, f ∉ X ∨ f ∈ Y → m' f = m f

namespace Keeps

variable {X Y Z : Multiset ℕ} {m m' m'' : Mem}

theorem refl (X Y : Multiset ℕ) (m : Mem) : Keeps X Y m m := fun _ _ => rfl

theorem trans (h : Keeps X Y m m') (h' : Keeps X Y m' m'') : Keeps X Y m m'' :=
  fun f hf => (h' f hf).trans (h f hf)

theorem mono (h : Keeps X Y m m') (hZ : ∀ f ∈ Z, f ∈ Y) : Keeps X Z m m' :=
  fun f hf => h f (hf.imp_right (hZ f))

end Keeps

variable {L} {X Y : Multiset ℕ} {p : Phys} {free : List ℕ} {f : ℕ} {E : Halt → Phys → Prop}

theorem Layout.Usable.lt (h : L.Usable f) : f < 57344 := by
  have := h.2
  simp only [PGSIZE, PHYSTOP] at this
  omega

theorem Layout.Usable.mul_lt (h : L.Usable f) : f * PGSIZE < 2 ^ 32 := h.2.trans (by decide)

theorem Layout.Usable.ne_zero (h : L.Usable f) : f ≠ 0 := by
  rintro rfl
  have h₁ := h.1
  have h₂ := L.kernlink_lt
  have h₃ := L.data_le
  simp only [PGSIZE, P2V, KERNLINK, KERNBASE, EXTMEM] at h₁ h₂
  omega

theorem P2V_pos (hf : f < 57344) : P2V (f * PGSIZE) ≠ 0 := by
  simp only [P2V, PGSIZE, KERNBASE]
  omega

theorem P2V_lt (a : ℕ) : P2V a < 2 ^ 32 := Nat.mod_lt _ (by decide)

theorem frame_V2P_P2V (hf : f < 57344) : V2P (P2V (f * PGSIZE)) / PGSIZE = f := by
  simp only [V2P, P2V, PGSIZE, KERNBASE]
  omega

theorem FreeList.lt (h : FreeList p free) : p.freelist < 2 ^ 32 := by
  cases free with
  | nil =>
    rw [show p.freelist = 0 from h]
    decide
  | cons f free =>
    rw [h.1]
    exact P2V_lt _

/-- The free list is not affected by changes to other frames. -/
theorem FreeList.congr {p' : Phys} (h : FreeList p free) (hlist : p'.freelist = p.freelist)
    (hmem : ∀ f ∈ free, p'.mem f = p.mem f) : FreeList p' free := by
  rw [FreeList, hlist]
  exact Chain.congr h fun f hf => Mem.word_congr (hmem f hf)

/-- The memory after `kfree` of a frame. -/
def Phys.freed (p : Phys) (f : ℕ) : Phys :=
  ⟨(p.mem.fill f 1).setWord f 0 p.freelist, P2V (f * PGSIZE)⟩

theorem Phys.freed_of_ne (p : Phys) {g : ℕ} (hg : g ≠ f) : (p.freed f).mem g = p.mem g :=
  (Mem.setWord_of_ne hg).trans (Mem.fill_of_ne hg)

theorem kfree_run (hf : L.Usable f) : kfree L f p = .ok () (p.freed f) := by
  rw [kfree, if_neg (not_not.mpr hf)]
  rfl

/-- A frame that is freed is the first one on the free list. -/
theorem FreeList.push (h : FreeList p free) (hf : f ∉ free) : FreeList (p.freed f) (f :: free) := by
  refine ⟨rfl, ?_⟩
  have hnext : (p.freed f).mem.word f 0 = p.freelist := by
    rw [Phys.freed, Mem.word_setWord (by decide), if_pos ⟨rfl, rfl⟩, Nat.mod_eq_of_lt h.lt]
  dsimp only
  rw [hnext]
  exact Chain.congr h fun g hg => Mem.word_congr (p.freed_of_ne fun hgf => hf (hgf ▸ hg))

namespace Pool

theorem usable_of_free (h : Pool L X p free Y) (hf : f ∈ free) : L.Usable f :=
  h.usable f (h.sum ▸ Multiset.mem_add.mpr (Or.inl hf))

theorem usable_of_taken (h : Pool L X p free Y) (hf : f ∈ Y) : L.Usable f :=
  h.usable f (h.sum ▸ Multiset.mem_add.mpr (Or.inr hf))

theorem mem_of_taken (h : Pool L X p free Y) (hf : f ∈ Y) : f ∈ X :=
  h.sum ▸ Multiset.mem_add.mpr (Or.inr hf)

theorem not_taken (h : Pool L X p free Y) (hf : f ∈ free) : f ∉ Y := by
  have hnodup := h.nodup
  rw [← h.sum] at hnodup
  exact fun hY => Multiset.disjoint_left.mp (Multiset.nodup_add.mp hnodup).2.2 hf hY

theorem nodup_taken (h : Pool L X p free Y) : Y.Nodup := by
  have hnodup := h.nodup
  rw [← h.sum] at hnodup
  exact (Multiset.nodup_add.mp hnodup).2.1

/-- Writing to a frame that has been taken does not affect the free list. -/
theorem write {p' : Phys} (h : Pool L X p free Y) (hlist : p'.freelist = p.freelist)
    (hmem : ∀ g ∉ Y, p'.mem g = p.mem g) : Pool L X p' free Y :=
  ⟨h.list.congr hlist fun g hg => hmem g (h.not_taken hg), h.sum, h.nodup, h.usable⟩

/-! The part of a pool that is free or has been taken as `Y` is a pool of its own. -/

theorem part {R : Multiset ℕ} (h : Pool L X p free (Y + R)) : Pool L (free + Y) p free Y := by
  have hle : (free : Multiset ℕ) + Y ≤ X := by
    rw [← h.sum, ← Multiset.add_assoc]
    exact Multiset.le_add_right _ _
  exact ⟨h.list, rfl, Multiset.nodup_of_le hle h.nodup, fun f hf =>
    h.usable f (Multiset.mem_of_le hle hf)⟩

/-- What is not part of the smaller pool. -/
theorem notMem_part {R : Multiset ℕ} (h : Pool L X p free (Y + R)) (hf : f ∈ R) :
    f ∉ (free : Multiset ℕ) + Y := by
  have hnodup := h.nodup
  rw [← h.sum, ← Multiset.add_assoc] at hnodup
  exact fun hpart => Multiset.disjoint_left.mp (Multiset.nodup_add.mp hnodup).2.2 hpart hf

/-- The smaller pool is put back. -/
theorem join {R Y' : Multiset ℕ} {p' : Phys} {free' : List ℕ} (h : Pool L X p free (Y + R))
    (h' : Pool L (free + Y) p' free' Y') : Pool L X p' free' (Y' + R) := by
  refine ⟨h'.list, ?_, h.nodup, h.usable⟩
  rw [← h.sum, ← Multiset.add_assoc, ← Multiset.add_assoc, h'.sum]

end Pool

theorem wp_kalloc (h : Pool L X p free Y) {Q : Option ℕ → Phys → Prop}
    (hnone : free = [] → Q none p)
    (hsome : ∀ f free' p', free = f :: free' → p'.mem = p.mem → Pool L X p' free' (f ::ₘ Y) →
      Q (some f) p') : Wp kalloc p Q E := by
  cases free with
  | nil =>
    have h0 : p.freelist = 0 := h.list
    simp only [kalloc, wp_bind, wp_get, h0]
    exact hnone rfl
  | cons f free' =>
    have hf : f < 57344 := (h.usable_of_free (List.mem_cons_self ..)).lt
    have hne : p.freelist ≠ 0 := h.list.1 ▸ P2V_pos hf
    have hr : V2P p.freelist / PGSIZE = f := h.list.1 ▸ frame_V2P_P2V hf
    simp only [kalloc, wp_bind, wp_get, if_neg hne, hr]
    refine hsome f free' _ rfl rfl ⟨h.list.2, ?_, h.nodup, h.usable⟩
    rw [← h.sum, Multiset.add_cons, ← Multiset.cons_coe, Multiset.cons_add]

theorem wp_kfree (h : Pool L X p free (f ::ₘ Y)) {Q : Unit → Phys → Prop}
    (hQ : ∀ p', Pool L X p' (f :: free) Y → (∀ g ≠ f, p'.mem g = p.mem g) → Q () p') :
    Wp (kfree L f) p Q E := by
  have hf : f ∈ f ::ₘ Y := Multiset.mem_cons_self ..
  rw [Wp.of_ok (kfree_run (h.usable_of_taken hf))]
  have hlist := h.list.push fun hfree => h.not_taken hfree hf
  refine hQ _ ⟨hlist, ?_, h.nodup, h.usable⟩ fun g hg => p.freed_of_ne hg
  rw [← h.sum, Multiset.add_cons, ← Multiset.cons_coe, Multiset.cons_add]

end Vm

end Xv6
