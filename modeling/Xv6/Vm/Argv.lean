import Xv6.Vm.Traced

/-!
# The arguments of a program

`exec` pushes the argument strings and the vector of pointers to them on the one page that a new
program has for its stack. The page below is not accessible, so `copyout` fails if there is not
enough room. That holds for every copy that does not wrap around: it begins in the stack page, or it
comes to the page below. A string that is longer than what is below it wraps around to the addresses
of the kernel. Most of them have no page table, and `uva2ka` then uses a null pointer.

## Main definitions

* `StackedImage` — an image with a stack page and a guard page
* `total` — the room that the arguments take
* `EntryStack` — what a program finds on its stack
* `Access.Good`, `Clear` — the accesses that `copyout` may do, and when it does no others

## Main results

* `StackedImage.wp_pushStackT`, `StackedImage.wp_pushArgsT_null` — the stack phase
* `wp_exec`
-/

namespace Xv6

namespace Vm

open Ghost

variable {L : Layout} {X Z : Multiset ℕ} {p : Phys} {free : List ℕ} {cr3 d sz v va len sp f : ℕ}
variable {bytes : ℕ → UInt8} {l : List Access} {E : Halt → Phys × List Access → Prop}

/-! ### The image -/

/-- An image with two pages for the stack at its end, of which the lower one is not accessible. -/
structure StackedImage (L : Layout) (X Z : Multiset ℕ) (p : Phys) (free : List ℕ) (d sz : ℕ) :
    Prop where
  image : ImageOf L X Z p free d sz
  stack : 2 * PGSIZE ≤ sz
  aligned : sz % PGSIZE = 0
  user : ∀ v < npages sz, User (p.mem.pte d v) ↔ v ≠ guardPage sz

/-- The bytes of a frame that is accessible in the address space `d`. -/
def Access.Good (m : Mem) (d : ℕ) : Access → Prop
  | .walk pte => pte ≠ none
  | .write f off n =>
    off + n ≤ PGSIZE ∧ ∃ v, Present (m.pte d v) ∧ User (m.pte d v) ∧ frame (m.pte d v) = f

/-- The frame of the stack page. -/
def stackFrame (m : Mem) (d sz : ℕ) : ℕ := frame (m.pte d (guardPage sz + 1))

namespace StackedImage

/-- The stack page and the guard page. -/
theorem pages_eq (h : StackedImage L X Z p free d sz) :
    sz = (guardPage sz + 2) * PGSIZE ∧ npages sz = guardPage sz + 2 := by
  have hstack := h.stack
  have haligned := h.aligned
  simp only [guardPage, npages, PGSIZE] at *
  omega

theorem write (h : StackedImage L X Z p free d sz)
    (hv : v < npages sz) {c : Bytes PGSIZE} {p' : Phys}
    (hp' : p' = { p with mem := Function.update p.mem (frame (p.mem.pte d v)) c }) :
    StackedImage L X Z p' free d sz ∧ p'.mem.pte d = p.mem.pte d ∧ Keeps X Z p.mem p'.mem := by
  obtain ⟨h', hpte, hkeep⟩ := h.image.write (h.image.frame_mem hv) hp'
  refine ⟨⟨h', h.stack, h.aligned, ?_⟩, hpte, hkeep⟩
  rw [hpte]
  exact h.user

end StackedImage

/-! ### `uva2ka` -/

/-- The kernel reaches the memory that `kalloc` hands out. -/
theorem wp_kernelFrame (hf : L.Usable f) {b : Bool} {Q : ℕ → Phys → Prop}
    {E : Halt → Phys → Prop} :
    Wp (kernelFrame L cr3 (P2V (f * PGSIZE)) b) p Q E ↔ Q f p := by
  have hlt := hf.lt
  have hend := hf.1
  have hdata := L.data_le
  have hva : ¬ P2V (f * PGSIZE) < KERNBASE ∧ P2V (f * PGSIZE) < P2V PHYSTOP ∧
      V2P (P2V (f * PGSIZE)) / PGSIZE = f := by
    simp only [P2V, V2P, KERNBASE, PHYSTOP, PGSIZE]
    omega
  have hwrite : ¬ (b = true ∧ KERNLINK ≤ P2V (f * PGSIZE) ∧ P2V (f * PGSIZE) < L.data) := by omega
  rw [kernelFrame, if_neg hva.1, if_pos ⟨hva.2.1, hwrite⟩, wp_pure, hva.2.2]

/-- `uva2ka` of a page that has an entry. -/
theorem wp_uva2kaT (hpres : Present (p.mem.pte d v)) {Q : ℕ → Phys × List Access → Prop}
    (hQ : ∀ x ka, ka = (if User (p.mem.pte d v) then P2V (frame (p.mem.pte d v) * PGSIZE) else 0) →
      Q ka (p, l ++ [Access.walk (some x)])) :
    Wp (uva2kaT d (v * PGSIZE)) (p, l) Q E := by
  have hv : v < 2 ^ 20 := by
    by_contra hle
    rw [Mem.pte_of_le (Nat.le_of_not_lt hle)] at hpres
    exact not_present_zero hpres
  have hva : v * PGSIZE < 2 ^ 32 := by
    simp only [PGSIZE]
    omega
  have hdiv : v * PGSIZE / PGSIZE = v := Nat.mul_div_cancel _ (by decide)
  obtain ⟨t, ht, hword⟩ := exists_table hpres
  rw [uva2kaT, wp_bind, wp_lift]
  refine wp_walk hva (fun hnone => ?_) fun t' ht' => ?_
  · rw [hdiv, ht] at hnone
    cases hnone
  · rw [hdiv, ht] at ht'
    cases ht'
    simp only [load, wp_bind, wp_note, wp_lift, wp_get, wp_pure, hdiv, hword, hpres, not_true,
      if_false]
    by_cases hu : User (p.mem.pte d v)
    · simp only [hu, not_true, if_false, wp_pure]
      exact hQ _ _ (if_pos hu).symm
    · simp only [hu, not_false_eq_true, if_true, wp_pure]
      exact hQ _ _ (if_neg hu).symm

/-- `uva2ka` of a page without page table: there is a null pointer. -/
theorem wp_uva2kaT_null (hva : v * PGSIZE < 2 ^ 32) (hnone : p.mem.table d (v / 1024) = none)
    (hE : ∀ s, Access.walk none ∈ s.2 → E .fault s) {Q : ℕ → Phys × List Access → Prop} :
    Wp (uva2kaT d (v * PGSIZE)) (p, l) Q E := by
  have hdiv : v * PGSIZE / PGSIZE = v := Nat.mul_div_cancel _ (by decide)
  rw [uva2kaT, wp_bind, wp_lift]
  refine wp_walk hva (fun _ => ?_) fun t ht => ?_
  · rw [wp_bind, wp_note, wp_bind, wp_throw]
    exact hE _ (List.mem_append_right _ List.mem_cons_self)
  · rw [hdiv, hnone] at ht
    cases ht

/-! ### `copyout` -/

theorem good_append {m : Mem} {x y : List Access} (hx : ∀ a ∈ x, a.Good m d)
    (hy : ∀ a ∈ y, a.Good m d) : ∀ a ∈ x ++ y, a.Good m d := fun a ha =>
  (List.mem_append.mp ha).elim (hx a) (hy a)

/-- An accessible page is written up to its end. -/
theorem StackedImage.wp_copyPage (h : StackedImage L X Z p free d sz) {r copied n : ℕ}
    (hv : v < npages sz) (huser : User (p.mem.pte d v)) (hpage : PGROUNDDOWN va = v * PGSIZE)
    (hlen : 0 < len) (hn : min (PGSIZE - (va - v * PGSIZE)) len = n)
    {Q : Bool → Phys × List Access → Prop}
    (hQ : ∀ x p', p' = { p with
        mem := Function.update p.mem (frame (p.mem.pte d v))
          ((p.mem (frame (p.mem.pte d v))).blit (va - v * PGSIZE) n fun k => bytes (copied + k)) } →
      Wp (copyoutLoopT L cr3 d bytes r (((v + 1) * PGSIZE) % 2 ^ 32) (copied + n) (len - n))
        (p', l ++ [Access.walk (some x)] ++
          [Access.write (frame (p.mem.pte d v)) (va - v * PGSIZE) n]) Q E) :
    Wp (copyoutLoopT L cr3 d bytes (r + 1) va copied len) (p, l) Q E := by
  have hus := h.image.usable (h.image.frame_mem hv)
  rw [copyoutLoopT, if_neg (Nat.ne_of_gt hlen)]
  simp only [wp_bind, hpage, hn]
  refine wp_uva2kaT (h.image.covers.present v hv) fun x ka hka => ?_
  rw [if_pos huser] at hka
  rw [hka, if_neg (P2V_pos hus.lt), wp_bind, wp_lift, wp_kernelFrame hus, wp_bind, wp_note, wp_bind,
    wp_lift, wp_modify, ← Nat.succ_mul]
  exact hQ x _ rfl

/-- Nothing is written to a page that is not accessible. -/
theorem wp_copyoutLoopT_denied {r copied : ℕ} (hpres : Present (p.mem.pte d v))
    (huser : ¬ User (p.mem.pte d v)) (hpage : PGROUNDDOWN va = v * PGSIZE) (hlen : 0 < len)
    {Q : Bool → Phys × List Access → Prop} (hQ : ∀ x, Q false (p, l ++ [Access.walk (some x)])) :
    Wp (copyoutLoopT L cr3 d bytes (r + 1) va copied len) (p, l) Q E := by
  rw [copyoutLoopT, if_neg (Nat.ne_of_gt hlen)]
  simp only [wp_bind, hpage]
  refine wp_uva2kaT hpres fun x ka hka => ?_
  rw [if_neg huser] at hka
  rw [if_pos hka]
  exact hQ x

/-- The byte at a user address. -/
def Mem.byte (m : Mem) (d va : ℕ) : UInt8 := (m (frame (m.pte d (va / PGSIZE)))).get (va % PGSIZE)

theorem StackedImage.byte_eq (h : StackedImage L X Z p free d sz) {a : ℕ} (ha : sz ≤ a + PGSIZE)
    (ha' : a < sz) : p.mem.byte d a = (p.mem (stackFrame p.mem d sz)).get (a + PGSIZE - sz) := by
  obtain ⟨hsz, -⟩ := h.pages_eq
  have hpage : a / PGSIZE = guardPage sz + 1 := by
    simp only [PGSIZE] at *
    omega
  have hoff : a % PGSIZE = a + PGSIZE - sz := by
    simp only [PGSIZE] at *
    omega
  rw [Mem.byte, hpage, hoff]
  rfl

/-- What a copy of `len` bytes to the stack page at `va` leaves behind. -/
structure Pushed (L : Layout) (X Z : Multiset ℕ) (free : List ℕ) (d sz va len : ℕ)
    (bytes : ℕ → UInt8)
    (p p' : Phys) : Prop where
  image : StackedImage L X Z p' free d sz
  pte : p'.mem.pte d = p.mem.pte d
  keeps : Keeps X Z p.mem p'.mem
  byte : ∀ a, sz ≤ a + PGSIZE → a < sz →
    p'.mem.byte d a = if va ≤ a ∧ a < va + len then bytes (a - va) else p.mem.byte d a

/-- **A copy to the stack page** succeeds. -/
theorem StackedImage.wp_copyoutT {m : Mem} (h : StackedImage L X Z p free d sz) (hlen : 0 < len)
    (hva : sz ≤ va + PGSIZE) (hend : va + len ≤ sz) (hm : p.mem.pte d = m.pte d)
    (hgood : ∀ a ∈ l, a.Good m d) {Q : Bool → Phys × List Access → Prop}
    (hQ : ∀ p' l', Pushed L X Z free d sz va len bytes p p' → (∀ a ∈ l', a.Good m d) →
      Q true (p', l')) : Wp (copyoutT L cr3 d va bytes len) (p, l) Q E := by
  obtain ⟨hsz, hpages⟩ := h.pages_eq
  have hv : guardPage sz + 1 < npages sz := by omega
  have hstack := (h.user (guardPage sz + 1) hv).mpr (Nat.succ_ne_self _)
  have hpage : PGROUNDDOWN va = (guardPage sz + 1) * PGSIZE := by
    simp only [PGROUNDDOWN, PGSIZE] at *
    omega
  have hoff : va - (guardPage sz + 1) * PGSIZE = va + PGSIZE - sz := by
    simp only [PGSIZE] at *
    omega
  have hn : min (PGSIZE - (va - (guardPage sz + 1) * PGSIZE)) len = len := by
    simp only [PGSIZE] at *
    omega
  rw [copyoutT]
  refine h.wp_copyPage hv hstack hpage hlen hn fun x p' hp' => ?_
  obtain ⟨r, hr⟩ : ∃ r, len = r + 1 := ⟨len - 1, by omega⟩
  rw [Nat.sub_self, hr, copyoutLoopT, if_pos rfl, ← hr, hoff]
  rw [hoff] at hp'
  obtain ⟨h', hpte, hkeep⟩ := h.write hv hp'
  refine hQ p' _ ⟨h', hpte, hkeep, fun a ha ha' => ?_⟩ (good_append (good_append hgood ?_) ?_)
  · rw [h'.byte_eq ha ha', h.byte_eq ha ha', stackFrame, hpte, hp', stackFrame]
    simp only [Function.update_self, Bytes.get_blit]
    refine if_congr ?_ ?_ rfl
    · simp only [PGSIZE] at *
      omega
    · rw [Nat.zero_add]
      congr 1
      omega
  · intro a ha
    rw [List.mem_singleton.mp ha]
    exact Option.some_ne_none x
  · intro a ha
    rw [List.mem_singleton.mp ha]
    refine ⟨?_, guardPage sz + 1, ?_⟩
    · simp only [PGSIZE] at *
      omega
    · rw [← hm]
      exact ⟨h.image.covers.present _ hv, hstack, rfl⟩

/-- **A copy to the guard page** fails, whatever is written before that. -/
theorem StackedImage.wp_copyoutLoopT_guard {m : Mem} (r : ℕ) {copied : ℕ}
    (h : StackedImage L X Z p free d sz) (hr : len < r) (hlen : 0 < len) (hva : va + PGSIZE < sz)
    (hend : va + len ≤ sz) (hguard : sz < va + len + 2 * PGSIZE) (hm : p.mem.pte d = m.pte d)
    (hgood : ∀ a ∈ l, a.Good m d) {Q : Bool → Phys × List Access → Prop}
    (hQ : ∀ p' l', StackedImage L X Z p' free d sz → Keeps X Z p.mem p'.mem →
      (∀ a ∈ l', a.Good m d) → Q false (p', l')) :
    Wp (copyoutLoopT L cr3 d bytes r va copied len) (p, l) Q E := by
  induction r generalizing p va copied len l with
  | zero => omega
  | succ r ih =>
    obtain ⟨hsz, hpages⟩ := h.pages_eq
    have hwalk : ∀ x, ∀ a ∈ l ++ [Access.walk (some x)], a.Good m d := fun x =>
      good_append hgood fun a ha => by
        rw [List.mem_singleton.mp ha]
        exact Option.some_ne_none x
    have hpage : PGROUNDDOWN va = va / PGSIZE * PGSIZE := rfl
    have hv : va / PGSIZE ≤ guardPage sz := by
      simp only [PGSIZE] at *
      omega
    have hpres := h.image.covers.present (va / PGSIZE) (by omega)
    have huser := h.user (va / PGSIZE) (by omega)
    by_cases hg : va / PGSIZE = guardPage sz
    · exact wp_copyoutLoopT_denied hpres (fun hu => huser.mp hu hg) hpage hlen fun x =>
        hQ p _ h (Keeps.refl _ _ _) (hwalk x)
    · obtain ⟨n, hn⟩ : ∃ n, min (PGSIZE - (va - va / PGSIZE * PGSIZE)) len = n := ⟨_, rfl⟩
      have hu := huser.mpr hg
      refine h.wp_copyPage (by omega) hu hpage hlen hn fun x p' hp' => ?_
      obtain ⟨h', hpte, hkeep⟩ := h.write (by omega) hp'
      have hwrite :
        (Access.write (frame (p.mem.pte d (va / PGSIZE))) (va - va / PGSIZE * PGSIZE) n).Good
          m d := by
        refine ⟨?_, va / PGSIZE, ?_⟩
        · simp only [PGSIZE] at *
          omega
        · rw [← hm]
          exact ⟨hpres, hu, rfl⟩
      have hnext : (va / PGSIZE + 1) * PGSIZE % 2 ^ 32 = (va / PGSIZE + 1) * PGSIZE := by
        have := h.image.covers.bound
        simp only [PGSIZE, KERNBASE] at *
        omega
      rw [hnext]
      refine ih h' ?_ ?_ ?_ ?_ ?_ (hpte.trans hm) (good_append (hwalk x) fun a ha => ?_)
        fun p₂ l₂ h₂ hkeep₂ hl₂ => hQ p₂ l₂ h₂ (hkeep.trans hkeep₂) hl₂
      · simp only [PGSIZE] at *
        omega
      · simp only [PGSIZE] at *
        omega
      · simp only [PGSIZE] at *
        omega
      · simp only [PGSIZE] at *
        omega
      · simp only [PGSIZE] at *
        omega
      · rw [List.mem_singleton.mp ha]
        exact hwrite

/-- A copy to an address of the kernel fails, where there is a page table. -/
theorem StackedImage.wp_copyoutT_kernel (h : StackedImage L X Z p free d sz) (hlen : 0 < len)
    (hva : KERNBASE ≤ va ∧ va < P2V PHYSTOP ∨ DEVSPACE ≤ va ∧ va < 2 ^ 32)
    {Q : Bool → Phys × List Access → Prop} (hQ : ∀ x, Q false (p, l ++ [Access.walk (some x)])) :
    Wp (copyoutT L cr3 d va bytes len) (p, l) Q E := by
  have hpage : 524288 ≤ va / PGSIZE ∧ va / PGSIZE < 581632 ∨
      1040384 ≤ va / PGSIZE ∧ va / PGSIZE < 1048576 := by
    simp only [KERNBASE, P2V, PHYSTOP, DEVSPACE, PGSIZE] at *
    omega
  have hpte : p.mem.pte d (va / PGSIZE) = kvm L (va / PGSIZE) := h.image.kernel _ (by omega)
  refine wp_copyoutLoopT_denied (v := va / PGSIZE) ?_ ?_ rfl hlen hQ
  · rw [hpte]
    exact present_kvm hpage
  · rw [hpte]
    exact not_user_kvm L _

/-- **A copy to an address without page table** uses a null pointer. -/
theorem StackedImage.wp_copyoutT_null (h : StackedImage L X Z p free d sz) (hlen : 0 < len)
    (hva : P2V PHYSTOP ≤ va ∧ va < DEVSPACE) (hE : ∀ s, Access.walk none ∈ s.2 → E .fault s)
    {Q : Bool → Phys × List Access → Prop} :
    Wp (copyoutT L cr3 d va bytes len) (p, l) Q E := by
  have hindex : 568 ≤ va / PGSIZE / 1024 ∧ va / PGSIZE / 1024 < 1016 := by
    simp only [KERNBASE, P2V, PHYSTOP, DEVSPACE, PGSIZE] at *
    omega
  have hlt : va / PGSIZE * PGSIZE < 2 ^ 32 := by
    simp only [DEVSPACE, PGSIZE] at *
    omega
  have hnone := h.image.hole _ hindex.1 hindex.2
  rw [copyoutT, copyoutLoopT, if_neg (Nat.ne_of_gt hlen), wp_bind]
  exact wp_uva2kaT_null hlt hnone hE

/-! ### The argument strings -/

/-- What a string takes on the stack, with its NUL. -/
def room (s : List UInt8) : ℕ := (s.length + 1 + 3) / 4 * 4

/-- What strings take on the stack. -/
def used (argv : List (List UInt8)) : ℕ := (argv.map room).sum

/-- What the arguments take on the stack, with the vector. -/
def total (argv : List (List UInt8)) : ℕ := used argv + 4 * (argv.length + 4)

/-- No string comes to an address without page table, if `k` bytes are on the stack already. Strings
that come after one for which there is no room do not matter. -/
def Clear (sz : ℕ) : ℕ → List (List UInt8) → Prop
  | _, [] => True
  | k, s :: argv =>
    ¬ (sz - k + 2 ^ 25 < s.length + 1 ∧ s.length + 1 ≤ sz - k + 0x72000000) ∧
      (k + room s ≤ PGSIZE → Clear sz (k + room s) argv)

/-- From `lo` to `hi` there are copies of the strings, one below the other, at these addresses. -/
def Copies (m : Mem) (d lo : ℕ) : ℕ → List (List UInt8) → List ℕ → Prop
  | hi, [], [] => lo ≤ hi
  | hi, s :: argv, q :: ptrs =>
    q + s.length + 1 ≤ hi ∧ (∀ k ≤ s.length, m.byte d (q + k) = cstring s k) ∧
      Copies m d lo q argv ptrs
  | _, _, _ => False

theorem used_cons (s : List UInt8) (argv : List (List UInt8)) :
    used (s :: argv) = room s + used argv :=
  List.sum_cons

theorem used_mod (argv : List (List UInt8)) : used argv % 4 = 0 := by
  induction argv with
  | nil => rfl
  | cons s argv ih =>
    rw [used_cons, room]
    omega

theorem Copies.le {m : Mem} {lo hi : ℕ} {argv : List (List UInt8)} {ptrs : List ℕ}
    (h : Copies m d lo hi argv ptrs) : lo ≤ hi := by
  induction argv generalizing hi ptrs with
  | nil =>
    cases ptrs with
    | nil => exact h
    | cons q ptrs => exact h.elim
  | cons s argv ih =>
    cases ptrs with
    | nil => exact h.elim
    | cons q ptrs =>
      have := ih h.2.2
      have := h.1
      omega

/-- Copies stay if what is written is below them. -/
theorem Copies.congr {m m' : Mem} {lo lo' hi : ℕ} {argv : List (List UInt8)} {ptrs : List ℕ}
    (h : Copies m d lo hi argv ptrs) (hle : lo' ≤ lo)
    (hbyte : ∀ a, lo ≤ a → a < hi → m'.byte d a = m.byte d a) : Copies m' d lo' hi argv ptrs := by
  induction argv generalizing hi ptrs with
  | nil =>
    cases ptrs with
    | nil => exact hle.trans h
    | cons q ptrs => exact h.elim
  | cons s argv ih =>
    cases ptrs with
    | nil => exact h.elim
    | cons q ptrs =>
      obtain ⟨hq, hcopy, hrest⟩ := h
      have hlo := hrest.le
      refine ⟨hq, fun k hk => ?_, ih hrest fun a ha ha' => hbyte a ha (by omega)⟩
      rw [hbyte _ (by omega) (by omega), hcopy k hk]

/-- **One string.** `k` bytes are on the stack. The string is copied if there is room for it; if
there is not then the copy fails. -/
theorem StackedImage.wp_pushT {m : Mem} {k : ℕ} {str : List UInt8}
    (h : StackedImage L X Z p free d sz)
    (hk : k ≤ PGSIZE) (hk4 : k % 4 = 0) (hlen : str.length + 1 ≤ KERNBASE)
    (hclear : ¬ (sz - k + 2 ^ 25 < str.length + 1 ∧ str.length + 1 ≤ sz - k + 0x72000000))
    (hva : va = (sz - k + (2 ^ 32 - (str.length + 1))) % 2 ^ 32 / 4 * 4)
    (hm : p.mem.pte d = m.pte d) (hgood : ∀ a ∈ l, a.Good m d)
    {Q : Bool → Phys × List Access → Prop}
    (htrue : k + room str ≤ PGSIZE → va = sz - (k + room str) → ∀ p' l',
      Pushed L X Z free d sz va (str.length + 1) bytes p p' →
      (∀ a ∈ l', a.Good m d) → Q true (p', l'))
    (hfalse : PGSIZE < k + room str → ∀ p' l', StackedImage L X Z p' free d sz →
      Keeps X Z p.mem p'.mem → (∀ a ∈ l', a.Good m d) → Q false (p', l')) :
    Wp (copyoutT L cr3 d va bytes (str.length + 1)) (p, l) Q E := by
  have hstack := h.stack
  have haligned := h.aligned
  have hbound := h.image.covers.bound
  by_cases hroom : k + room str ≤ PGSIZE
  · have hva' : va = sz - (k + room str) := by
      simp only [room, PGSIZE, KERNBASE] at *
      omega
    refine h.wp_copyoutT (Nat.succ_pos _) ?_ ?_ hm hgood (htrue hroom hva')
    · simp only [PGSIZE] at *
      omega
    · simp only [room, PGSIZE] at *
      omega
  · have hfalse' := hfalse (Nat.lt_of_not_le hroom)
    by_cases hwrap : str.length + 1 ≤ sz - k
    · rw [copyoutT]
      refine h.wp_copyoutLoopT_guard _ (Nat.lt_succ_self _) (Nat.succ_pos _) ?_ ?_ ?_
        hm hgood hfalse'
      · simp only [room, PGSIZE, KERNBASE] at *
        omega
      · simp only [room, PGSIZE, KERNBASE] at *
        omega
      · simp only [room, PGSIZE, KERNBASE] at *
        omega
    · refine h.wp_copyoutT_kernel (Nat.succ_pos _) ?_ fun x =>
        hfalse' p _ h (Keeps.refl _ _ _) (good_append hgood fun a ha => ?_)
      · simp only [PGSIZE, KERNBASE, P2V, PHYSTOP, DEVSPACE] at *
        omega
      · rw [List.mem_singleton.mp ha]
        exact Option.some_ne_none x

/-- The strings are on the stack, with `k` bytes above them. -/
structure PushedAll (L : Layout) (X Z : Multiset ℕ) (free : List ℕ) (d sz k : ℕ)
    (argv : List (List UInt8)) (ptrs : List ℕ) (p p' : Phys) : Prop where
  image : StackedImage L X Z p' free d sz
  pte : p'.mem.pte d = p.mem.pte d
  keeps : Keeps X Z p.mem p'.mem
  fits : k + used argv ≤ PGSIZE
  copies : Copies p'.mem d (sz - (k + used argv)) (sz - k) argv ptrs
  above : ∀ a, sz - k ≤ a → a < sz → p'.mem.byte d a = p.mem.byte d a

theorem PushedAll.cons {k : ℕ} {str : List UInt8} {argv : List (List UInt8)} {ptrs : List ℕ}
    {p₁ p' : Phys} (h : StackedImage L X Z p free d sz) (hroom : k + room str ≤ PGSIZE)
    (hva : va = sz - (k + room str))
    (h₁ : Pushed L X Z free d sz va (str.length + 1) (cstring str) p p₁)
    (h' : PushedAll L X Z free d sz (k + room str) argv ptrs p₁ p') :
    PushedAll L X Z free d sz k (str :: argv) (va :: ptrs) p p' := by
  have hstack := h.stack
  have hle : str.length + 1 ≤ room str := by
    rw [room]
    omega
  have habove : ∀ a, va ≤ a → a < sz →
      p'.mem.byte d a =
        if a < va + (str.length + 1) then cstring str (a - va) else p.mem.byte d a :=
    fun a ha ha' => by
      rw [h'.above a (by omega) ha', h₁.byte a (by simp only [PGSIZE] at *; omega) ha']
      exact if_congr (and_iff_right ha) rfl rfl
  refine ⟨h'.image, h'.pte.trans h₁.pte, h₁.keeps.trans h'.keeps, ?_, ⟨?_, fun j hj => ?_, ?_⟩, ?_⟩
  · rw [used_cons, ← Nat.add_assoc]
    exact h'.fits
  · simp only [PGSIZE] at *
    omega
  · rw [habove _ (by omega) (by simp only [PGSIZE] at *; omega), if_pos (by omega),
      Nat.add_sub_cancel_left]
  · rw [used_cons, ← Nat.add_assoc, hva]
    exact h'.copies
  · intro a ha ha'
    rw [habove a (by omega) ha', if_neg (by simp only [PGSIZE] at *; omega)]

/-- **The strings** are pushed one after the other, as long as there is room for them. -/
theorem StackedImage.wp_pushArgsT {m : Mem} (argv : List (List UInt8)) {argc k : ℕ} {ptrs : List ℕ}
    (h : StackedImage L X Z p free d sz) (hargc : argc + argv.length < MAXARG)
    (hlen : ∀ s ∈ argv, s.length + 1 ≤ KERNBASE) (hk : k ≤ PGSIZE) (hk4 : k % 4 = 0)
    (hclear : Clear sz k argv) (hm : p.mem.pte d = m.pte d) (hgood : ∀ a ∈ l, a.Good m d)
    {Q : Option (ℕ × List ℕ) → Phys × List Access → Prop}
    (hsome : ∀ ptrs' p' l', PushedAll L X Z free d sz k argv ptrs' p p' → (∀ a ∈ l', a.Good m d) →
      Q (some (sz - (k + used argv), ptrs ++ ptrs')) (p', l'))
    (hnone : PGSIZE < k + used argv → ∀ p' l', StackedImage L X Z p' free d sz →
      Keeps X Z p.mem p'.mem → (∀ a ∈ l', a.Good m d) → Q none (p', l')) :
    Wp (pushArgsT L cr3 d argv argc (sz - k) ptrs) (p, l) Q E := by
  induction argv generalizing p argc k ptrs l with
  | nil =>
    have hall : PushedAll L X Z free d sz k [] [] p p :=
      ⟨h, rfl, Keeps.refl _ _ _, hk, Nat.le_refl (sz - k), fun _ _ _ => rfl⟩
    have := hsome [] p l hall hgood
    rwa [List.append_nil] at this
  | cons str argv ih =>
    obtain ⟨hs, hlen⟩ := List.forall_mem_cons.mp hlen
    rw [List.length_cons] at hargc
    obtain ⟨va, hva⟩ : ∃ va, va = (sz - k + (2 ^ 32 - (str.length + 1))) % 2 ^ 32 / 4 * 4 :=
      ⟨_, rfl⟩
    rw [pushArgsT, if_neg (by omega), ← hva, wp_bind]
    refine h.wp_pushT hk hk4 hs hclear.1 hva hm hgood (fun hroom hva' p₁ l₁ h₁ hl₁ => ?_)
      fun hroom p₁ l₁ h₁ hkeep₁ hl₁ => ?_
    · rw [if_pos rfl, hva']
      refine ih h₁.image (by omega) hlen hroom ?_ (hclear.2 hroom) (h₁.pte.trans hm) hl₁
        (fun ptrs' p' l' h' hl' => ?_) fun hout p' l' h' hkeep' hl' => ?_
      · simp only [room]
        omega
      · have := hsome (va :: ptrs') p' l' (h'.cons h hroom hva' h₁) hl'
        rwa [used_cons, ← Nat.add_assoc, List.append_cons, hva'] at this
      · rw [used_cons, ← Nat.add_assoc] at hnone
        exact hnone hout p' l' h' (h₁.keeps.trans hkeep') hl'
    · rw [if_neg Bool.false_ne_true]
      rw [used_cons, ← Nat.add_assoc] at hnone
      exact hnone (by omega) p₁ l₁ h₁ hkeep₁ hl₁

/-! ### The vector -/

/-- The word at a user address. -/
def Mem.wordAt (m : Mem) (d va : ℕ) : ℕ :=
  (m.byte d va).toNat + 256 * ((m.byte d (va + 1)).toNat +
    256 * ((m.byte d (va + 2)).toNat + 256 * (m.byte d (va + 3)).toNat))

/-- What a program finds on its stack: a return address, the number of arguments, the address of the
vector, and the vector, which ends with a null pointer. The copies of the strings are above it. -/
structure EntryStack (m : Mem) (d sz esp : ℕ) (argv : List (List UInt8))
    (ptrs : List ℕ) : Prop where
  aligned : esp % 4 = 0
  return_pc : m.wordAt d esp = 0xffffffff
  argc : m.wordAt d (esp + 4) = argv.length
  address : m.wordAt d (esp + 8) = esp + 12
  vector : ∀ i ≤ argv.length, m.wordAt d (esp + 12 + 4 * i) = ptrs.getD i 0
  copies : Copies m d (esp + 12 + 4 * (argv.length + 1)) sz argv ptrs

theorem wordAt_of_digits {m : Mem} {w : ℕ} (hw : w < 2 ^ 32)
    (h : ∀ j < 4, m.byte d (va + j) = Bytes.digit w j) : m.wordAt d va = w := by
  have h0 := h 0 (by decide)
  rw [Nat.add_zero] at h0
  rw [Mem.wordAt, h0, h 1 (by decide), h 2 (by decide), h 3 (by decide)]
  simp only [Bytes.digit, UInt8.toNat_ofNat']
  omega

/-- The words of an array that has been copied. -/
theorem wordAt_of_wordBytes {m : Mem} {ws : List ℕ} (hws : ∀ w ∈ ws, w < 2 ^ 32)
    (h : ∀ k < ws.length * 4, m.byte d (va + k) = wordBytes ws k) {i : ℕ} (hi : i < ws.length) :
    m.wordAt d (va + 4 * i) = ws.getD i 0 := by
  have hw : ws.getD i 0 < 2 ^ 32 := by
    rw [List.getD_eq_getElem _ _ hi]
    exact hws _ (List.getElem_mem hi)
  refine wordAt_of_digits hw fun j hj => ?_
  rw [Nat.add_assoc, h _ (by omega), wordBytes, show (4 * i + j) / 4 = i by omega,
    show (4 * i + j) % 4 = j by omega]

theorem Copies.length {m : Mem} {lo hi : ℕ} {argv : List (List UInt8)} {ptrs : List ℕ}
    (h : Copies m d lo hi argv ptrs) : ptrs.length = argv.length ∧ ∀ q ∈ ptrs, q ≤ hi := by
  induction argv generalizing hi ptrs with
  | nil =>
    cases ptrs with
    | nil => exact ⟨rfl, nofun⟩
    | cons q ptrs => exact h.elim
  | cons s argv ih =>
    cases ptrs with
    | nil => exact h.elim
    | cons q ptrs =>
      obtain ⟨hq, -, hrest⟩ := h
      obtain ⟨hlen, hle⟩ := ih hrest
      refine ⟨by rw [List.length_cons, List.length_cons, hlen], fun r hr => ?_⟩
      rcases List.mem_cons.mp hr with rfl | hr
      · omega
      · have := hle r hr
        omega

/-- The vector is copied below the strings. -/
theorem PushedAll.entryStack {argv : List (List UInt8)} {ptrs ws : List ℕ} {p₁ p' : Phys} {esp : ℕ}
    (h₁ : PushedAll L X Z free d sz 0 argv ptrs p p₁) (hargc : argv.length < MAXARG)
    (htotal : total argv ≤ PGSIZE) (hesp : esp = sz - total argv)
    (hws : ws = [0xffffffff, argv.length, esp + 12] ++ ptrs ++ [0])
    (h' : Pushed L X Z free d sz esp ((3 + argv.length + 1) * 4) (wordBytes ws) p₁ p') :
    EntryStack p'.mem d sz esp argv ptrs := by
  have hstack := h₁.image.stack
  have haligned := h₁.image.aligned
  have hbound := h₁.image.image.covers.bound
  have hcopies := h₁.copies
  rw [Nat.zero_add, Nat.sub_zero] at hcopies
  obtain ⟨hlen, hle⟩ := hcopies.length
  have hused : used argv % 4 = 0 := used_mod argv
  have hlength : ws.length = argv.length + 4 := by
    rw [hws]
    simp only [List.length_append, List.length_cons, List.length_nil, hlen]
    omega
  have hsmall : ∀ w ∈ ws, w < 2 ^ 32 := by
    intro w hw
    simp only [hws, List.cons_append, List.nil_append, List.mem_cons, List.mem_append,
      List.not_mem_nil, or_false] at hw
    simp only [total, MAXARG, PGSIZE, KERNBASE] at *
    rcases hw with rfl | rfl | rfl | hw | rfl
    · decide
    · omega
    · omega
    · have := hle w hw
      omega
    · decide
  have hbytes : ∀ k < ws.length * 4, p'.mem.byte d (esp + k) = wordBytes ws k := fun k hk => by
    simp only [total, MAXARG, PGSIZE, KERNBASE] at *
    rw [h'.byte _ (by simp only [PGSIZE]; omega) (by omega), if_pos (by omega),
      Nat.add_sub_cancel_left]
  have hword := fun i => wordAt_of_wordBytes (i := i) hsmall hbytes
  refine ⟨?_, ?_, ?_, ?_, fun i hi => ?_, ?_⟩
  · simp only [total, PGSIZE] at *
    omega
  · rw [← Nat.add_zero esp, ← Nat.mul_zero 4, hword 0 (by omega), hws]
    rfl
  · rw [hword 1 (by omega), hws]
    rfl
  · rw [hword 2 (by omega), hws]
    rfl
  · rw [Nat.add_assoc, show 12 + 4 * i = 4 * (3 + i) by omega, hword (3 + i) (by omega), hws,
      Nat.add_comm 3 i]
    show (ptrs ++ [0]).getD i 0 = ptrs.getD i 0
    rcases Nat.lt_or_ge i ptrs.length with hlt | hge
    · exact List.getD_append _ _ _ _ hlt
    · rw [List.getD_append_right _ _ _ _ hge, List.getD_eq_default _ _ hge,
        show i - ptrs.length = 0 by omega]
      rfl
  · refine hcopies.congr ?_ fun a ha ha' => ?_
    · simp only [total, PGSIZE] at *
      omega
    · simp only [total, PGSIZE] at *
      rw [h'.byte a (by simp only [PGSIZE]; omega) ha', if_neg (by omega)]

/-! ### The stack phase -/

/-- **The stack phase**, if no string comes to an address without page table: it succeeds if there
is room for the arguments in the stack page. -/
theorem StackedImage.wp_pushStackT {ip : Image} {argv : List (List UInt8)}
    (h : StackedImage L X Z p free d sz) (hargc : argv.length < MAXARG)
    (hlen : ∀ s ∈ argv, s.length + 1 ≤ KERNBASE) (hclear : Clear sz 0 argv)
    {Q : Option Loaded → Phys × List Access → Prop}
    (hsome : total argv ≤ PGSIZE → ∀ img ptrs p' l', img.pgdir = d → img.sz = sz →
      StackedImage L X Z p' free d sz → Keeps X Z p.mem p'.mem → (∀ a ∈ l', a.Good p.mem d) →
      EntryStack p'.mem d sz img.esp argv ptrs → Q (some img) (p', l'))
    (hnone : PGSIZE < total argv → ∀ p' l', StackedImage L X Z p' free d sz →
      Keeps X Z p.mem p'.mem → (∀ a ∈ l', a.Good p.mem d) → Q none (p', l')) :
    Wp (pushStackT L cr3 d ip argv sz) (p, []) Q E := by
  have hstack := h.stack
  have hbound := h.image.covers.bound
  rw [pushStackT, wp_bind]
  refine h.wp_pushArgsT (k := 0) argv (by omega) hlen (Nat.zero_le _) rfl hclear rfl
    (fun a ha => absurd ha List.not_mem_nil) (fun ptrs p₁ l₁ h₁ hl₁ => ?_)
    fun hout p' l' h' hkeep' hl' => ?_
  · simp only [wp_bind]
    have hfits := h₁.fits
    obtain ⟨esp, hesp⟩ : ∃ esp, esp = (sz - (0 + used argv) +
      (2 ^ 32 - (3 + argv.length + 1) * 4)) % 2 ^ 32 := ⟨_, rfl⟩
    have hva : esp = sz - total argv := by
      simp only [total, MAXARG, PGSIZE, KERNBASE] at *
      omega
    have hthird : (sz - (0 + used argv) + (2 ^ 32 - (argv.length + 1) * 4)) % 2 ^ 32 =
        esp + 12 := by
      simp only [MAXARG, PGSIZE, KERNBASE] at *
      omega
    rw [← hesp, hthird, List.nil_append]
    by_cases htotal : total argv ≤ PGSIZE
    · refine h₁.image.wp_copyoutT (by omega) ?_ ?_ h₁.pte hl₁ fun p' l' h' hl' => ?_
      · simp only [PGSIZE] at *
        omega
      · simp only [total, PGSIZE] at *
        omega
      · exact hsome htotal _ ptrs p' l' rfl rfl h'.image (h₁.keeps.trans h'.keeps) hl'
          (h₁.entryStack hargc htotal hva rfl h')
    · rw [copyoutT]
      refine h₁.image.wp_copyoutLoopT_guard _ (Nat.lt_succ_self _) (by omega) ?_ ?_ ?_ h₁.pte hl₁
        fun p' l' h' hkeep' hl' =>
          hnone (Nat.lt_of_not_le htotal) p' l' h' (h₁.keeps.trans hkeep') hl'
      · simp only [total, MAXARG, PGSIZE] at *
        omega
      · simp only [total, MAXARG, PGSIZE] at *
        omega
      · simp only [total, MAXARG, PGSIZE] at *
        omega
  · refine hnone ?_ p' l' h' hkeep' hl'
    rw [total]
    omega

/-- A string that is not clear comes to an address without page table. -/
theorem StackedImage.wp_pushArgsT_null {m : Mem} (argv : List (List UInt8)) {argc k : ℕ}
    {ptrs : List ℕ}
    (h : StackedImage L X Z p free d sz) (hargc : argc + argv.length < MAXARG)
    (hlen : ∀ s ∈ argv, s.length + 1 ≤ KERNBASE) (hk : k ≤ PGSIZE) (hk4 : k % 4 = 0)
    (hclear : ¬ Clear sz k argv) (hm : p.mem.pte d = m.pte d) (hgood : ∀ a ∈ l, a.Good m d)
    (hE : ∀ s, Access.walk none ∈ s.2 → E .fault s)
    {Q : Option (ℕ × List ℕ) → Phys × List Access → Prop} :
    Wp (pushArgsT L cr3 d argv argc (sz - k) ptrs) (p, l) Q E := by
  induction argv generalizing p argc k ptrs l with
  | nil => exact absurd trivial hclear
  | cons str argv ih =>
    obtain ⟨hs, hlen⟩ := List.forall_mem_cons.mp hlen
    rw [List.length_cons] at hargc
    have hstack := h.stack
    have hbound := h.image.covers.bound
    obtain ⟨va, hva⟩ : ∃ va, va = (sz - k + (2 ^ 32 - (str.length + 1))) % 2 ^ 32 / 4 * 4 :=
      ⟨_, rfl⟩
    rw [pushArgsT, if_neg (by omega), ← hva, wp_bind]
    by_cases hhole : sz - k + 2 ^ 25 < str.length + 1 ∧ str.length + 1 ≤ sz - k + 0x72000000
    · have hnull : P2V PHYSTOP ≤ va ∧ va < DEVSPACE := by
        simp only [P2V, PHYSTOP, DEVSPACE, KERNBASE, PGSIZE] at *
        omega
      exact h.wp_copyoutT_null (Nat.succ_pos _) hnull hE
    · have hrest : k + room str ≤ PGSIZE ∧ ¬ Clear sz (k + room str) argv := by
        by_contra hno
        exact hclear ⟨hhole, fun hle => by_contra fun hc => hno ⟨hle, hc⟩⟩
      refine h.wp_pushT hk hk4 hs hhole hva hm hgood (fun hroom hva' p₁ l₁ h₁ hl₁ => ?_)
        fun hroom => absurd hrest.1 (Nat.not_le.mpr hroom)
      rw [if_pos rfl, hva']
      refine ih h₁.image (by omega) hlen hroom ?_ hrest.2 (h₁.pte.trans hm) hl₁
      simp only [room]
      omega

/-- **The stack phase**, if a string comes to an address without page table. -/
theorem StackedImage.wp_pushStackT_null {ip : Image} {argv : List (List UInt8)}
    (h : StackedImage L X Z p free d sz) (hargc : argv.length < MAXARG)
    (hlen : ∀ s ∈ argv, s.length + 1 ≤ KERNBASE) (hclear : ¬ Clear sz 0 argv)
    (hE : ∀ s, Access.walk none ∈ s.2 → E .fault s)
    {Q : Option Loaded → Phys × List Access → Prop} :
    Wp (pushStackT L cr3 d ip argv sz) (p, []) Q E := by
  rw [pushStackT, wp_bind]
  exact h.wp_pushArgsT_null (k := 0) argv (by omega) hlen (Nat.zero_le _) rfl hclear rfl
    (fun a ha => absurd ha List.not_mem_nil) hE

/-! ### `exec` -/

/-- **`exec`** of any file makes an image of it, or gives back all the memory that it has used, or
stops at a null pointer. -/
theorem wp_exec {ip : Image} {argv : List (List UInt8)} (h : Pool L X p free Z)
    (hargc : argv.length < MAXARG) (hlen : ∀ s ∈ argv, s.length + 1 ≤ KERNBASE)
    {Q : Option Loaded → Phys → Prop} {E : Halt → Phys → Prop} (hE : ∀ p', E .fault p')
    (hsome : ∀ img p' free', ImageOf L X Z p' free' img.pgdir img.sz → Keeps X Z p.mem p'.mem →
      Q (some img) p')
    (hnone : ∀ p' free', Pool L X p' free' Z → Keeps X Z p.mem p'.mem → Q none p') :
    Wp (exec L cr3 ip argv) p Q E := by
  rw [exec, wp_bind]
  refine wp_loading h (fun d sz p₁ free₁ hstack haligned h₁ huser hkeep₁ => ?_) hnone
  have hstacked : StackedImage L X Z p₁ free₁ d sz := ⟨h₁, hstack, haligned, huser⟩
  simp only [wp_bind]
  refine (erases_pushStack L cr3 d ip argv sz).wp (l := []) ?_
  by_cases hclear : Clear sz 0 argv
  · refine hstacked.wp_pushStackT hargc hlen hclear
      (fun _ img _ p₂ _ hd hsz h₂ hkeep₂ _ _ => ?_) fun _ p₂ _ h₂ hkeep₂ _ => ?_
    · subst hd hsz
      exact hsome img p₂ free₁ h₂.image (hkeep₁.trans hkeep₂)
    · simp only [wp_bind, wp_pure]
      exact wp_freevm h₂.image.pool fun p' free' hp' hkeep =>
        hnone p' free' hp' ((hkeep₁.trans hkeep₂).trans hkeep)
  · exact hstacked.wp_pushStackT_null hargc hlen hclear fun s _ => hE s.1

end Vm

end Xv6
