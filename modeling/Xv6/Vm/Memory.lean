import Xv6.Param
import Xv6.Lib.Bytes

/-!
# Physical memory and page-table entries

Physical memory is an array of page frames of `PGSIZE` bytes, and everything the kernel keeps in a
page it got from `kalloc` is in those bytes: page directories and page tables are frames read as
`1024` words of four bytes, and the free list runs through the first words of the free frames.

A pointer to a page is the number of its frame. Addresses and words are numbers below `2 ^ 32`.

## Main definitions

* `Mem.word`, `Mem.setWord` — the words of a frame
* `Mem.table`, `Mem.pte` — the page tables that a page directory refers to, and the entry that it
  leads to for each virtual page

## Main results

* `Mem.table_setWord`, `Mem.pte_setWord` — assignment to an entry of a page table
* `Mem.table_addTable`, `Mem.pte_addTable` — a page directory gets a new, zeroed page table
-/

namespace Xv6

namespace Vm

/-- Bytes mapped by a page. -/
abbrev PGSIZE : ℕ := 4096

/-- Directory entries per page directory. -/
abbrev NPDENTRIES : ℕ := 1024

/-- Start of extended memory. -/
abbrev EXTMEM : ℕ := 0x100000

/-- Top physical memory. -/
abbrev PHYSTOP : ℕ := 0xE000000

/-- Other devices are at high addresses. -/
abbrev DEVSPACE : ℕ := 0xFE000000

/-- First kernel virtual address. -/
abbrev KERNBASE : ℕ := 0x80000000

/-- Address where the kernel is linked. -/
abbrev KERNLINK : ℕ := KERNBASE + EXTMEM

/-- Present. -/
abbrev PTE_P : ℕ := 1

/-- Writeable. -/
abbrev PTE_W : ℕ := 2

/-- User. -/
abbrev PTE_U : ℕ := 4

def V2P (a : ℕ) : ℕ := (a + (2 ^ 32 - KERNBASE)) % 2 ^ 32

def P2V (a : ℕ) : ℕ := (a + KERNBASE) % 2 ^ 32

/-- `PGROUNDUP`, on numbers below `2 ^ 32`. -/
def PGROUNDUP (sz : ℕ) : ℕ := (sz + (PGSIZE - 1)) % 2 ^ 32 / PGSIZE * PGSIZE

def PGROUNDDOWN (a : ℕ) : ℕ := a / PGSIZE * PGSIZE

/-- Page directory index. -/
def PDX (va : ℕ) : ℕ := va / 2 ^ 22 % 1024

/-- Page table index. -/
def PTX (va : ℕ) : ℕ := va / 2 ^ 12 % 1024

/-- The virtual address with given indices and offset. -/
def PGADDR (d t o : ℕ) : ℕ := (d * 2 ^ 22 + t * 2 ^ 12 + o) % 2 ^ 32

/-! ### Entries -/

/-- The bit `PTE_P` is set. -/
def Present (w : ℕ) : Prop := w &&& PTE_P ≠ 0

/-- The bit `PTE_W` is set. -/
def Writable (w : ℕ) : Prop := w &&& PTE_W ≠ 0

/-- The bit `PTE_U` is set. -/
def User (w : ℕ) : Prop := w &&& PTE_U ≠ 0

instance : DecidablePred Present := fun _ => inferInstanceAs (Decidable (_ ≠ _))

instance : DecidablePred Writable := fun _ => inferInstanceAs (Decidable (_ ≠ _))

instance : DecidablePred User := fun _ => inferInstanceAs (Decidable (_ ≠ _))

/-- The frame that an entry refers to: `PTE_ADDR(w)` is its address. -/
def frame (w : ℕ) : ℕ := w / PGSIZE

/-- `PTE_FLAGS`. -/
def PTE_FLAGS (w : ℕ) : ℕ := w % PGSIZE

theorem present_iff {w : ℕ} : Present w ↔ w % 2 = 1 := by
  rw [Present, Nat.and_one_is_mod]
  omega

@[simp] theorem not_present_zero : ¬ Present 0 := by decide

/-- An entry as `mappages` makes it. -/
def mkPte (pa perm : ℕ) : ℕ := pa ||| perm ||| PTE_P

theorem present_mkPte (pa perm : ℕ) : Present (mkPte pa perm) := by
  have hbit : (mkPte pa perm).testBit 0 = true := by
    simp [mkPte]
  rw [present_iff]
  simpa [Nat.testBit_zero] using hbit

theorem frame_mkPte {f perm : ℕ} (hperm : perm < PGSIZE) : frame (mkPte (f * PGSIZE) perm) = f := by
  have hlow : ∀ x < 2 ^ 12, x / 2 ^ 12 = 0 := fun x hx => Nat.div_eq_of_lt hx
  change (f * 2 ^ 12 ||| perm ||| 1) / 2 ^ 12 = f
  rw [Nat.or_div_two_pow, Nat.or_div_two_pow, hlow perm hperm, hlow 1 (by decide),
    Nat.mul_div_cancel f (by decide), Nat.or_zero, Nat.or_zero]

theorem PTE_FLAGS_mkPte {f perm : ℕ} (hperm : perm < PGSIZE) :
    PTE_FLAGS (mkPte (f * PGSIZE) perm) = perm ||| PTE_P := by
  have hlow : ∀ x < 2 ^ 12, x % 2 ^ 12 = x := fun x hx => Nat.mod_eq_of_lt hx
  have hzero : f * 2 ^ 12 % 2 ^ 12 = 0 := Nat.mul_mod_left ..
  change (f * 2 ^ 12 ||| perm ||| 1) % 2 ^ 12 = perm ||| 1
  rw [Nat.or_mod_two_pow, Nat.or_mod_two_pow, hzero, hlow perm hperm,
    hlow 1 (by decide), Nat.zero_or]

theorem user_mkPte {f perm : ℕ} : User (mkPte (f * PGSIZE) perm) ↔ User perm := by
  have hbits : ∀ w, User w ↔ w % 2 ^ 12 &&& PTE_U ≠ 0 := fun w => by
    rw [← Nat.and_two_pow_sub_one_eq_mod, Nat.and_assoc]
    rfl
  have hlow : mkPte (f * PGSIZE) perm % 2 ^ 12 = perm % 2 ^ 12 ||| PTE_P := by
    rw [mkPte, Nat.or_mod_two_pow, Nat.or_mod_two_pow, Nat.mul_mod_left, Nat.zero_or]
    rfl
  rw [hbits, hbits perm, hlow, Nat.and_or_distrib_right,
    show PTE_P &&& PTE_U = 0 from rfl, Nat.or_zero]

theorem mkPte_lt {pa perm : ℕ} (hpa : pa < 2 ^ 32) (hperm : perm < PGSIZE) :
    mkPte pa perm < 2 ^ 32 :=
  Nat.or_lt_two_pow (Nat.or_lt_two_pow hpa (hperm.trans (by decide))) (by decide)

/-! ### Frames -/

/-- The contents of the page frames. -/
abbrev Mem := ℕ → Bytes PGSIZE

namespace Mem

/-- The `i`-th word of a frame. -/
def word (m : Mem) (f i : ℕ) : ℕ := (m f).num (4 * i) 4

/-- Assignment to the `i`-th word of a frame. -/
def setWord (m : Mem) (f i w : ℕ) : Mem := Function.update m f ((m f).setNum (4 * i) 4 w)

/-- `memset` of a whole frame. -/
def fill (m : Mem) (f : ℕ) (c : UInt8) : Mem := Function.update m f (Bytes.ofFn fun _ => c)

variable {m m' : Mem} {d f i j t v w : ℕ}

theorem word_lt (m : Mem) (f i : ℕ) : m.word f i < 2 ^ 32 := (m f).num_lt (4 * i) 4

theorem word_of_le (hi : 1024 ≤ i) : m.word f i = 0 := by
  have hbytes : ∀ k < 4, (m f).get (4 * i + k) = Bytes.digit 0 k := by
    intro k hk
    rw [Bytes.get_of_le _ (by simp only [PGSIZE]; omega)]
    simp [Bytes.digit]
  rw [word, Bytes.num_of_digits hbytes, Nat.zero_mod]

theorem word_setWord (hi : i < 1024) (g k : ℕ) :
    (m.setWord f i w).word g k = if g = f ∧ k = i then w % 2 ^ 32 else m.word g k := by
  by_cases hg : g = f
  · subst hg
    rw [word, setWord, Function.update_self]
    by_cases hk : k = i
    · rw [if_pos ⟨rfl, hk⟩, hk]
      exact Bytes.num_setNum _ _ (by simp only [PGSIZE]; omega)
    · rw [if_neg (fun h => hk h.2), Bytes.num_setNum_of_disjoint _ _ (by omega)]
      rfl
  · rw [if_neg (fun h => hg h.1), word, setWord, Function.update_of_ne hg]
    rfl

theorem setWord_of_ne {g : ℕ} (h : g ≠ f) : m.setWord f i w g = m g := Function.update_of_ne h _ _

theorem fill_of_ne {g : ℕ} {c : UInt8} (h : g ≠ f) : m.fill f c g = m g :=
  Function.update_of_ne h _ _

theorem word_fill_zero (m : Mem) (f i : ℕ) : (m.fill f 0).word f i = 0 := by
  have hbytes : ∀ k < 4, (m.fill f 0 f).get (4 * i + k) = Bytes.digit 0 k := by
    intro k _
    have hzero : (m.fill f 0 f).get (4 * i + k) = 0 := by
      rw [fill, Function.update_self]
      by_cases hk : 4 * i + k < PGSIZE
      · exact Bytes.get_ofFn _ hk
      · exact Bytes.get_of_le _ (Nat.le_of_not_lt hk)
    rw [hzero]
    simp [Bytes.digit]
  rw [word, Bytes.num_of_digits hbytes, Nat.zero_mod]

theorem word_congr (h : m' f = m f) : m'.word f i = m.word f i := by
  rw [word, word, h]

/-! ### Page tables -/

/-- The page table that entry `i` of the page directory `d` refers to. -/
def table (m : Mem) (d i : ℕ) : Option ℕ :=
  if Present (m.word d i) then some (frame (m.word d i)) else none

/-- The entry for virtual page `v`, `0` if there is no page table for it. -/
def pte (m : Mem) (d v : ℕ) : ℕ :=
  match m.table d (v / 1024) with
  | some t => m.word t (v % 1024)
  | none => 0

theorem table_of_le (hi : 1024 ≤ i) : m.table d i = none := by
  rw [table, word_of_le hi, if_neg not_present_zero]

theorem pte_of_table (ht : m.table d (v / 1024) = some t) : m.pte d v = m.word t (v % 1024) := by
  rw [pte, ht]

theorem pte_of_none (h : m.table d (v / 1024) = none) : m.pte d v = 0 := by
  rw [pte, h]

theorem pte_lt (m : Mem) (d v : ℕ) : m.pte d v < 2 ^ 32 := by
  rw [pte]
  split
  · exact m.word_lt _ _
  · decide

theorem pte_of_le (hv : 2 ^ 20 ≤ v) : m.pte d v = 0 :=
  pte_of_none (table_of_le (by omega))

theorem table_congr (h : m' d = m d) : m'.table d = m.table d := by
  funext i
  rw [table, table, word_congr h]

/-- The entries depend on the page directory and its page tables only. -/
theorem pte_congr (h : m' d = m d) (ht : ∀ i t, m.table d i = some t → m' t = m t) :
    m'.pte d = m.pte d := by
  funext v
  rw [pte, pte, table_congr h]
  cases hv : m.table d (v / 1024) with
  | none => rfl
  | some t => exact word_congr (ht _ t hv)

/-- Assignment to an entry of a page table leaves the page directory as it is. -/
theorem table_setWord (ht : t ≠ d) : (m.setWord t j w).table d = m.table d :=
  table_congr (setWord_of_ne ht.symm)

/-- Assignment to an entry of a page table. -/
theorem pte_setWord (hv : m.table d (v / 1024) = some t) (hne : t ≠ d)
    (hinj : ∀ i, m.table d i = some t → i = v / 1024) (hw : w < 2 ^ 32) :
    (m.setWord t (v % 1024) w).pte d = Function.update (m.pte d) v w := by
  have hj : v % 1024 < 1024 := Nat.mod_lt _ (by decide)
  funext u
  rw [pte, table_setWord hne]
  by_cases huv : u = v
  · subst huv
    simp only [hv]
    rw [word_setWord hj, if_pos ⟨rfl, rfl⟩, Nat.mod_eq_of_lt hw, Function.update_self]
  · rw [Function.update_of_ne huv, pte]
    cases hu : m.table d (u / 1024) with
    | none => rfl
    | some t' =>
      refine (word_setWord hj _ _).trans (if_neg ?_)
      rintro ⟨rfl, hmod⟩
      have hdiv := hinj _ hu
      exact huv (by omega)

/-- Entry `i` of the page directory `d` gets the page table `t`, with all entries `0`. -/
def addTable (m : Mem) (d i t : ℕ) : Mem :=
  (m.fill t 0).setWord d i (mkPte (t * PGSIZE) (PTE_W ||| PTE_U))

theorem addTable_of_ne {g : ℕ} (hd : g ≠ d) (ht : g ≠ t) : m.addTable d i t g = m g := by
  rw [addTable, setWord_of_ne hd, fill_of_ne ht]

theorem table_addTable (hne : t ≠ d) (hi : i < 1024) (ht : t * PGSIZE < 2 ^ 32) :
    (m.addTable d i t).table d = Function.update (m.table d) i (some t) := by
  have hflags : PTE_W ||| PTE_U < PGSIZE := by decide
  funext k
  have hword := word_setWord (m := m.fill t 0) (f := d)
    (w := mkPte (t * PGSIZE) (PTE_W ||| PTE_U)) hi d k
  by_cases hk : k = i
  · rw [if_pos ⟨rfl, hk⟩, Nat.mod_eq_of_lt (mkPte_lt ht hflags)] at hword
    rw [table, addTable, hword, if_pos (present_mkPte _ _), frame_mkPte hflags, hk,
      Function.update_self]
  · rw [if_neg (fun h => hk h.2), word_congr (fill_of_ne hne.symm)] at hword
    rw [table, addTable, hword, Function.update_of_ne hk, table]

theorem pte_addTable (hne : t ≠ d) (hi : i < 1024) (ht : t * PGSIZE < 2 ^ 32)
    (hnone : m.table d i = none) (hfresh : ∀ k, m.table d k ≠ some t)
    (hself : ∀ k, m.table d k ≠ some d) : (m.addTable d i t).pte d = m.pte d := by
  funext v
  rw [pte, pte, table_addTable hne hi ht]
  by_cases hv : v / 1024 = i
  · rw [hv, Function.update_self, hnone]
    change (m.addTable d i t).word t (v % 1024) = 0
    rw [addTable, word_congr (setWord_of_ne hne), word_fill_zero]
  · rw [Function.update_of_ne hv]
    cases hk : m.table d (v / 1024) with
    | none => rfl
    | some t' =>
      change (m.addTable d i t).word t' _ = m.word t' _
      exact word_congr (addTable_of_ne (fun h => hself _ (h ▸ hk)) fun h => hfresh _ (h ▸ hk))

end Mem

end Vm

end Xv6
