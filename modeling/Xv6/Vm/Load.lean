import Xv6.Vm.Copy
import Xv6.Vm.Exec

/-!
# Building the image of a program

The address space that `exec` builds is an `ImageOf` size `sz` all the time: exactly the pages below
`sz` are mapped in the lower half. `allocuvm` makes it larger, and `loaduvm`, `clearpteu` and
`copyout` change neither its size nor its frames. Whatever is in the file, the loading phase ends
with such an image, or with an address space whose upper half is that of the kernel.

## Main definitions

* `ImageOf`
* `Abandoned` — an address space that `exec` gives up
* `Image.InOrder` — a file that can be loaded

## Main results

* `wp_loadSegments`, `wp_loadImage`
* `wp_loadImage_inOrder` — a file in order is loaded
-/

namespace Xv6

namespace Vm

variable {L : Layout} {X Z : Multiset ℕ} {p : Phys} {free : List ℕ} {d sz v w f : ℕ}
variable {E : Halt → Phys → Prop}

/-- Exactly the user pages below `sz` are mapped. -/
structure Covers (e : ℕ → ℕ) (sz : ℕ) : Prop where
  bound : sz < KERNBASE
  present : ∀ v < npages sz, Present (e v)
  absent : ∀ v, npages sz ≤ v → v < 2 ^ 19 → ¬ Present (e v)

/-- An address space of size `sz` that has been taken from the pool `X`, besides `Z`. -/
structure ImageOf (L : Layout) (X Z : Multiset ℕ) (p : Phys) (free : List ℕ) (d sz : ℕ) : Prop where
  pool : SpacePool L X p free d Z
  covers : Covers (p.mem.pte d) sz
  kernel : ∀ v, 2 ^ 19 ≤ v → p.mem.pte d v = kvm L v
  hole : ∀ i, 568 ≤ i → i < 1016 → p.mem.table d i = none

/-- An address space that has been taken from the pool `X`, and that `exec` gives up. -/
structure Abandoned (L : Layout) (X Z : Multiset ℕ) (p : Phys) (free : List ℕ) (d : ℕ) : Prop where
  pool : SpacePool L X p free d Z
  kernel : ∀ v, 2 ^ 19 ≤ v → p.mem.pte d v = kvm L v

theorem ImageOf.abandoned (h : ImageOf L X Z p free d sz) : Abandoned L X Z p free d :=
  ⟨h.pool, h.kernel⟩

/-- The process has access to all pages below `sz`. -/
def Accessible (m : Mem) (d sz : ℕ) : Prop := ∀ v < npages sz, User (m.pte d v)

theorem exists_table {m : Mem} (h : Present (m.pte d v)) :
    ∃ t, m.table d (v / 1024) = some t ∧ m.word t (v % 1024) = m.pte d v := by
  cases ht : m.table d (v / 1024) with
  | none =>
    rw [Mem.pte_of_none ht] at h
    exact absurd h not_present_zero
  | some t => exact ⟨t, rfl, (Mem.pte_of_table ht).symm⟩

namespace ImageOf

theorem frame_mem (h : ImageOf L X Z p free d sz) (hv : v < npages sz) :
    frame (p.mem.pte d v) ∈ pages (p.mem.pte d) := by
  have := npages_le (Nat.le_of_lt h.covers.bound)
  exact mem_pages.mpr ⟨v, mem_userPages.mpr (by omega), h.covers.present v hv, rfl⟩

theorem usable (h : ImageOf L X Z p free d sz) (hf : f ∈ pages (p.mem.pte d)) : L.Usable f :=
  Pool.usable_of_taken h.pool (Multiset.mem_cons_of_mem
    (Multiset.mem_add.mpr (Or.inr (Multiset.mem_add.mpr (Or.inl hf)))))

/-- A page of the image is written. -/
theorem write (h : ImageOf L X Z p free d sz) (hf : f ∈ pages (p.mem.pte d)) {c : Bytes PGSIZE}
    {p' : Phys} (hp' : p' = { p with mem := Function.update p.mem f c }) :
    ImageOf L X Z p' free d sz ∧ p'.mem.pte d = p.mem.pte d ∧ Keeps X Z p.mem p'.mem := by
  obtain ⟨hpool, htable, hpte⟩ := DirPool.write h.pool (Multiset.mem_add.mpr (Or.inl hf)) hp'
  refine ⟨⟨?_, ?_, ?_, ?_⟩, hpte, fun g hg => ?_⟩
  · rw [SpacePool, hpte]
    exact hpool
  · rw [hpte]
    exact h.covers
  · rw [hpte]
    exact h.kernel
  · rw [htable]
    exact h.hole
  · rw [hp']
    refine Function.update_of_ne ?_ _ _
    rintro rfl
    rcases hg with hg | hg
    · exact hg (Pool.mem_of_taken h.pool (Multiset.mem_cons_of_mem
        (Multiset.mem_add.mpr (Or.inr (Multiset.mem_add.mpr (Or.inl hf))))))
    · have hnodup := (Multiset.nodup_cons.mp (DirPool.nodup h.pool)).2
      have hdisj := (Multiset.nodup_add.mp (Multiset.nodup_add.mp hnodup).2.1).2.2
      exact Multiset.disjoint_left.mp hdisj hf hg

end ImageOf

/-- The address space has been made larger. -/
theorem Grown.covers {perm : ℕ → ℕ} {c : ℕ → Bytes PGSIZE} {p' : Phys} {free' : List ℕ} {newsz : ℕ}
    (h' : Grown L X Z d perm c (npages sz) (npages newsz) p free p' free')
    (h : Covers (p.mem.pte d) sz) (hle : sz ≤ newsz) (hnew : newsz < KERNBASE) :
    Covers (p'.mem.pte d) newsz := by
  have hmono := npages_mono hle
  refine ⟨hnew, fun v hv => ?_, fun v hv hv' => ?_⟩
  · by_cases hold : v < npages sz
    · rw [h'.old v (by omega)]
      exact h.present v hold
    · obtain ⟨f, hf, -⟩ := h'.new v (by omega) hv
      rw [hf]
      exact present_mkPte _ _
  · rw [h'.old v (by omega)]
    exact h.absent v (by omega) hv'

/-- The image has been made larger. -/
theorem Grown.image {perm : ℕ → ℕ} {c : ℕ → Bytes PGSIZE} {p' : Phys} {free' : List ℕ} {newsz : ℕ}
    (h : ImageOf L X Z p free d sz) (hle : sz ≤ newsz) (hnew : newsz < KERNBASE)
    (h' : Grown L X Z d perm c (npages sz) (npages newsz) p free p' free') :
    ImageOf L X Z p' free' d newsz := by
  have hupper := npages_le (Nat.le_of_lt hnew)
  refine ⟨h'.pool, h'.covers h.covers hle hnew, fun v hv => ?_, fun i hi hi' => ?_⟩
  · rw [h'.old v (by omega)]
    exact h.kernel v hv
  · rw [h'.table i (by omega)]
    exact h.hole i hi hi'

/-- The new pages are accessible. -/
theorem GrownZero.accessible {p' : Phys} {free' : List ℕ} {newsz : ℕ}
    (h' : GrownZero L X Z d (npages sz) (npages newsz) p free p' free')
    (h : Accessible p.mem d sz) :
    Accessible p'.mem d newsz := by
  intro v hv
  by_cases hold : v < npages sz
  · rw [h'.old v (by omega)]
    exact h v hold
  · obtain ⟨f, hf, -⟩ := h'.new v (by omega) hv
    rw [hf]
    exact user_mkPte.mpr (by decide)

/-- The address space is as large as it was. -/
theorem Undone.covers {p' : Phys} {free' : List ℕ} {newsz : ℕ}
    (h' : Undone L X Z d (npages sz) (npages newsz) p p' free') (h : Covers (p.mem.pte d) sz) :
    Covers (p'.mem.pte d) sz := by
  refine ⟨h.bound, fun v hv => ?_, fun v hv hv' => ?_⟩
  · rw [h'.old v (by omega)]
    exact h.present v hv
  · by_cases hnew : v < npages newsz
    · exact h'.gone v hv hnew
    · rw [h'.old v (by omega)]
      exact h.absent v hv hv'

theorem present_cleared {e : ℕ → ℕ} {lo hi : ℕ} :
    Present (cleared e lo hi v) ↔ Present (e v) ∧ ¬ (lo ≤ v ∧ v < hi) := by
  rw [cleared]
  split
  · rename_i hin
    exact iff_of_false not_present_zero fun h => h.2 ⟨hin.1, hin.2.1⟩
  · rename_i hout
    exact ⟨fun h => ⟨h, fun hin => hout ⟨hin.1, hin.2, h⟩⟩, fun h => h.1⟩

/-- The address space has been made smaller. -/
theorem Covers.cleared {e : ℕ → ℕ} (h : Covers e sz) (newsz : ℕ) :
    Covers (cleared e (npages newsz) (npages sz)) (min newsz sz) := by
  have hbound := h.bound
  have hmin : npages (min newsz sz) = min (npages newsz) (npages sz) := by
    rcases Nat.le_total newsz sz with hle | hle
    · rw [Nat.min_eq_left hle, Nat.min_eq_left (npages_mono hle)]
    · rw [Nat.min_eq_right hle, Nat.min_eq_right (npages_mono hle)]
  refine ⟨by omega, fun v hv => ?_, fun v hv hv' hpres => ?_⟩
  · exact present_cleared.mpr ⟨h.present v (by omega), by omega⟩
  · obtain ⟨hpres, hout⟩ := present_cleared.mp hpres
    exact h.absent v (by omega) hv' hpres

theorem Undone.abandoned {p' : Phys} {free' : List ℕ} {lo newsz : ℕ}
    (h' : Undone L X Z d lo (npages newsz) p p' free')
    (h : ∀ v, 2 ^ 19 ≤ v → p.mem.pte d v = kvm L v) (hnew : newsz < KERNBASE) :
    Abandoned L X Z p' free' d := by
  have hupper := npages_le (Nat.le_of_lt hnew)
  refine ⟨h'.pool, fun v hv => ?_⟩
  rw [h'.old v (by omega)]
  exact h v hv

/-- `allocuvm` on an image. -/
theorem ImageOf.wp_allocuvm {newsz : ℕ} (h : ImageOf L X Z p free d sz) {Q : ℕ → Phys → Prop}
    (hok : ∀ p' free' sz', newsz ≤ sz' → ImageOf L X Z p' free' d sz' →
      (Accessible p.mem d sz → Accessible p'.mem d sz') → Keeps X Z p.mem p'.mem → Q sz' p')
    (hfail : ∀ p' free', Abandoned L X Z p' free' d → Keeps X Z p.mem p'.mem → Q 0 p') :
    Wp (allocuvm L d sz newsz) p Q E := by
  have hmono : ∀ {e : ℕ → ℕ}, ∀ g ∈ Z, g ∈ pages e + Z := fun g hg => by simp [hg]
  refine Vm.wp_allocuvm h.pool (Nat.le_of_lt h.covers.bound) ?_ ?_ ?_ ?_ ?_
  · intro v q hv hv' hnew hpres
    have := npages_le (Nat.le_of_lt hnew)
    exact absurd hpres (h.covers.absent v hv (by omega))
  · exact fun hlt => hok p free sz (Nat.le_of_lt hlt) h id (Keeps.refl _ _ _)
  · intro p' free' hle hnew hp'
    exact hok p' free' newsz (Nat.le_refl _) (hp'.image h hle hnew) hp'.accessible
      (hp'.keeps.mono hmono)
  · exact fun _ => hfail p free h.abandoned (Keeps.refl _ _ _)
  · exact fun p' free' _ hnew hp' _ => hfail p' free' (hp'.abandoned h.kernel hnew)
      (hp'.keeps.mono hmono)

/-! ### The segments -/

theorem segment_page {n j : ℕ} (hsz : sz < KERNBASE) (hn : v * PGSIZE + n ≤ sz)
    (hj : j * PGSIZE < n) :
    (v * PGSIZE + j * PGSIZE) % 2 ^ 32 = (v + j) * PGSIZE ∧ (v + j) * PGSIZE < 2 ^ 32 ∧
      (j * PGSIZE + PGSIZE) % 2 ^ 32 = (j + 1) * PGSIZE ∧ v + j < npages sz := by
  have hpage : (v + j) * PGSIZE < sz := by
    rw [Nat.add_mul]
    exact (Nat.add_lt_add_left hj _).trans_le hn
  refine ⟨?_, hpage.trans (hsz.trans (by decide)), ?_, (lt_npages _).mp hpage⟩
  all_goals
    simp only [PGSIZE, KERNBASE] at *
    omega

theorem Image.readi_eq_some {ip : Image} {off n : ℕ} (h : off + n ≤ ip.size)
    (hsize : ip.size < 2 ^ 32) :
    ip.readi off n = some n := by
  rw [Image.readi, if_neg (by omega), if_neg (by omega)]

/-- The loop of `loaduvm`, at byte `j * PGSIZE` of a segment that starts at page `v`. It succeeds if
the file is long enough. -/
theorem wp_loaduvmLoop (r : ℕ) {ip : Image} {offset n j : ℕ} (h : ImageOf L X Z p free d sz)
    (hn : v * PGSIZE + n ≤ sz) (hr : npages n - j < r) {Q : Bool → Phys → Prop}
    (hQ : ∀ b p', ImageOf L X Z p' free d sz → p'.mem.pte d = p.mem.pte d →
      Keeps X Z p.mem p'.mem → (offset + n ≤ ip.size → ip.size < 2 ^ 32 → b = true) → Q b p') :
    Wp (loaduvmLoop d (v * PGSIZE) ip offset n r (j * PGSIZE)) p Q E := by
  induction r generalizing p j with
  | zero => omega
  | succ r ih =>
    rw [loaduvmLoop]
    by_cases hj : j < npages n
    · have hlt := (lt_npages j).mpr hj
      obtain ⟨hva, hva', hnext, hv⟩ := segment_page h.covers.bound hn hlt
      have hdiv : (v + j) * PGSIZE / PGSIZE = v + j := Nat.mul_div_cancel _ (by decide)
      obtain ⟨t, ht, hword⟩ := exists_table (h.covers.present _ hv)
      rw [if_pos hlt, wp_bind, hva]
      refine wp_walk hva' (fun hnone => ?_) fun t' ht' => ?_
      · rw [hdiv, ht] at hnone
        cases hnone
      · rw [hdiv, ht] at ht'
        cases ht'
        simp only [load, wp_bind, wp_get, wp_pure, hdiv, hword]
        obtain ⟨m, hm⟩ : ∃ m, m = if n - j * PGSIZE < PGSIZE then n - j * PGSIZE else PGSIZE :=
          ⟨_, rfl⟩
        rw [← hm]
        have hread : offset + n ≤ ip.size → ip.size < 2 ^ 32 →
            ip.readi ((offset + j * PGSIZE) % 2 ^ 32) m = some m := fun hle hsize => by
          refine Image.readi_eq_some ?_ hsize
          split at hm <;> omega
        cases hgot : ip.readi ((offset + j * PGSIZE) % 2 ^ 32) m with
        | none =>
          refine hQ false p h rfl (Keeps.refl _ _ _) fun hle hsize => ?_
          rw [hread hle hsize] at hgot
          cases hgot
        | some got =>
          simp only [wp_bind, wp_modify]
          obtain ⟨p₁, hp₁⟩ : ∃ p₁ : Phys, p₁ = { p with
              mem := Function.update p.mem (frame (p.mem.pte d (v + j)))
                ((p.mem (frame (p.mem.pte d (v + j)))).blit 0 got
                  fun k => ip.byte ((offset + j * PGSIZE) % 2 ^ 32 + k)) } := ⟨_, rfl⟩
          obtain ⟨h₁, hpte, hkeep⟩ := h.write (h.frame_mem hv) hp₁
          rw [← hp₁, hnext]
          refine wp_ite.mpr ⟨fun hshort => hQ false p₁ h₁ hpte hkeep fun hle hsize =>
            ?_, fun _ => ?_⟩
          · rw [hread hle hsize] at hgot
            exact absurd (Option.some.inj hgot).symm hshort
          · exact ih h₁ (by omega) fun b q hq hpte' hkeep' =>
              hQ b q hq (hpte'.trans hpte) (hkeep.trans hkeep')
    · rw [if_neg (fun h => hj ((lt_npages j).mp h))]
      exact hQ true p h rfl (Keeps.refl _ _ _) fun _ _ => rfl

/-- `loaduvm` of a segment that lies in the image. -/
theorem wp_loaduvm {ip : Image} {addr offset n : ℕ} (h : ImageOf L X Z p free d sz)
    (haddr : addr % PGSIZE = 0) (hn : addr + n ≤ sz) {Q : Bool → Phys → Prop}
    (hQ : ∀ b p', ImageOf L X Z p' free d sz → p'.mem.pte d = p.mem.pte d →
      Keeps X Z p.mem p'.mem → (offset + n ≤ ip.size → ip.size < 2 ^ 32 → b = true) → Q b p') :
    Wp (loaduvm d addr ip offset n) p Q E := by
  obtain ⟨v, rfl⟩ : ∃ v, addr = v * PGSIZE :=
    ⟨addr / PGSIZE, (Nat.div_mul_cancel (Nat.dvd_of_mod_eq_zero haddr)).symm⟩
  have hround : npages n - 0 < ROUNDS := by
    have hbound := h.covers.bound
    have := npages_le (show n ≤ KERNBASE by omega)
    simp only [ROUNDS]
    omega
  have haligned : ¬ v * PGSIZE % PGSIZE ≠ 0 := fun hne => hne haddr
  simp only [loaduvm, if_neg haligned]
  rw [← Nat.zero_mul PGSIZE]
  exact wp_loaduvmLoop ROUNDS h hn hround hQ

theorem Image.num_lt (ip : Image) (off k : ℕ) : ip.num off k < 256 ^ k := by
  induction k generalizing off with
  | zero => exact Nat.one_pos
  | succ k ih =>
    have hbyte : (ip.byte off).toNat < 256 := UInt8.toNat_lt _
    have hrest := ih (off + 1)
    rw [Image.num, pow_succ]
    omega

/-- **The segments** of any file are loaded into an image, or not. -/
theorem wp_loadSegments (n : ℕ) {ip : Image} {off : ℕ} (h : ImageOf L X Z p free d sz)
    (huser : Accessible p.mem d sz) {Q : Option ℕ → Phys → Prop}
    (hsome : ∀ sz' p' free', ImageOf L X Z p' free' d sz' → Accessible p'.mem d sz' →
      Keeps X Z p.mem p'.mem → Q (some sz') p')
    (hnone : ∀ p' free', Abandoned L X Z p' free' d → Keeps X Z p.mem p'.mem → Q none p') :
    Wp (loadSegments L d ip n off sz) p Q E := by
  induction n generalizing p free sz off with
  | zero => exact hsome sz p free h huser (Keeps.refl _ _ _)
  | succ n ih =>
    rw [loadSegments]
    simp only [wp_ite, wp_pure, wp_bind]
    have hbad : Q none p := hnone p free h.abandoned (Keeps.refl _ _ _)
    refine ⟨fun _ => hbad, fun _ => ⟨fun _ => ih h huser hsome hnone, fun _ => ⟨fun _ => hbad,
      fun hsz => ⟨fun _ => hbad, fun hwrap => ?_⟩⟩⟩⟩
    have hvaddr : (ip.proghdr off).vaddr < 2 ^ 32 := ip.num_lt _ 4
    have hmemsz : (ip.proghdr off).memsz < 2 ^ 32 := ip.num_lt _ 4
    have hend : (ip.proghdr off).vaddr + (ip.proghdr off).filesz ≤
        ((ip.proghdr off).vaddr + (ip.proghdr off).memsz) % 2 ^ 32 := by omega
    refine h.wp_allocuvm (fun p₁ free₁ sz₁ hle h₁ huser₁ hkeep₁ => ?_) fun p₁ free₁ h₁ hkeep₁ => ?_
    · refine ⟨fun _ => hnone p₁ free₁ h₁.abandoned hkeep₁, fun _ =>
        ⟨fun _ => hnone p₁ free₁ h₁.abandoned hkeep₁, fun haligned => ?_⟩⟩
      refine wp_loaduvm h₁ (not_not.mp haligned) (hend.trans hle) fun b p₂ h₂ hpte₂ hkeep₂ _ => ?_
      have hkeep := hkeep₁.trans hkeep₂
      cases b with
      | false => exact ⟨(by rintro ⟨⟩), fun _ => hnone p₂ free₁ h₂.abandoned hkeep⟩
      | true =>
        have huser₂ : Accessible p₂.mem d sz₁ := by
          rw [Accessible, hpte₂]
          exact huser₁ huser
        exact ⟨fun _ => ih h₂ huser₂
          (fun sz' p' free' h' hu hk => hsome sz' p' free' h' hu (hkeep.trans hk))
          fun p' free' h' hk => hnone p' free' h' (hkeep.trans hk), fun hne => absurd rfl hne⟩
    · exact ⟨fun _ => hnone p₁ free₁ h₁ hkeep₁, fun hne => absurd rfl hne⟩

/-! ### The stack -/

theorem npages_PGROUNDUP (h : sz ≤ KERNBASE) : npages (PGROUNDUP sz) = npages sz := by
  rw [PGROUNDUP_eq h]
  simp only [npages, PGSIZE]
  omega

theorem present_and_notUser (w : ℕ) : Present (w &&& (2 ^ 32 - 1 - PTE_U)) ↔ Present w := by
  rw [Present, Present, Nat.and_assoc]
  rfl

theorem not_user_and_notUser (w : ℕ) : ¬ User (w &&& (2 ^ 32 - 1 - PTE_U)) := by
  rw [User, Nat.and_assoc, not_not]
  exact Nat.and_zero w

theorem frame_and_notUser (hw : w < 2 ^ 32) : frame (w &&& (2 ^ 32 - 1 - PTE_U)) = frame w := by
  change (w &&& (2 ^ 32 - 1 - PTE_U)) / 2 ^ 12 = w / 2 ^ 12
  rw [Nat.and_div_two_pow, show (2 ^ 32 - 1 - PTE_U) / 2 ^ 12 = 2 ^ 20 - 1 by decide,
    Nat.and_two_pow_sub_one_eq_mod]
  omega

/-- **`clearpteu`** of a page of the image. -/
theorem ImageOf.wp_clearpteu (h : ImageOf L X Z p free d sz) (hv : v < npages sz)
    {Q : Unit → Phys → Prop}
    (hQ : ∀ p', ImageOf L X Z p' free d sz →
      p'.mem.pte d = Function.update (p.mem.pte d) v (p.mem.pte d v &&& (2 ^ 32 - 1 - PTE_U)) →
      Keeps X Z p.mem p'.mem → Q () p') :
    Wp (clearpteu d (v * PGSIZE)) p Q E := by
  have hupper := npages_le (Nat.le_of_lt h.covers.bound)
  have hva : v * PGSIZE < 2 ^ 32 := by
    simp only [PGSIZE]
    omega
  have hdiv : v * PGSIZE / PGSIZE = v := Nat.mul_div_cancel _ (by decide)
  obtain ⟨t, ht, hword⟩ := exists_table (h.covers.present _ hv)
  rw [clearpteu, wp_bind]
  refine wp_walk hva (fun hnone => ?_) fun t' ht' => ?_
  · rw [hdiv, ht] at hnone
    cases hnone
  · rw [hdiv, ht] at ht'
    cases ht'
    simp only [load, store, wp_bind, wp_get, wp_pure, wp_modify, hdiv, hword]
    have hw := p.mem.pte_lt d v
    have hw' : p.mem.pte d v &&& (2 ^ 32 - 1 - PTE_U) < 2 ^ 32 := Nat.and_lt_two_pow _ (by decide)
    obtain ⟨p₁, hp₁⟩ : ∃ p₁ : Phys, p₁ = { p with
        mem := p.mem.setWord t (v % 1024) (p.mem.pte d v &&& (2 ^ 32 - 1 - PTE_U)) } := ⟨_, rfl⟩
    obtain ⟨hpool, htable, hpte, hkeep⟩ := DirPool.setEntry h.pool ht hw' hp₁
    rw [← hp₁]
    have hpres : ∀ u, Present (p₁.mem.pte d u) ↔ Present (p.mem.pte d u) := by
      intro u
      rw [hpte]
      by_cases huv : u = v
      · rw [huv, Function.update_self, present_and_notUser]
      · rw [Function.update_of_ne huv]
    have hpages : pages (p₁.mem.pte d) = pages (p.mem.pte d) := by
      refine pages_congr fun u _ => ?_
      rw [hpte]
      by_cases huv : u = v
      · rw [huv, Function.update_self, page, page, frame_and_notUser hw]
        simp only [present_and_notUser]
      · rw [Function.update_of_ne huv]
    refine hQ p₁ ⟨?_, ⟨h.covers.bound, fun u hu => ?_, fun u hu hu' => ?_⟩, fun u hu => ?_,
      fun i hi hi' => ?_⟩ hpte (hkeep.mono fun g hg => by simp [hg])
    · rw [SpacePool, hpages]
      exact hpool
    · rw [hpres]
      exact h.covers.present u hu
    · rw [hpres]
      exact h.covers.absent u hu hu'
    · rw [hpte, Function.update_of_ne (by omega)]
      exact h.kernel u hu
    · rw [htable]
      exact h.hole i hi hi'

/-! ### The loading phase -/

/-- The guard page: the lower one of the two pages for the stack. -/
def guardPage (sz : ℕ) : ℕ := sz / PGSIZE - 2

/-- The two pages for the stack. The lower one is not accessible. -/
theorem ImageOf.wp_loadStack {sz₀ newsz : ℕ} (h : ImageOf L X Z p free d sz)
    (huser : Accessible p.mem d sz) (hsz₀ : PGROUNDUP sz = sz₀)
    (hnew : (sz₀ + 2 * PGSIZE) % 2 ^ 32 = newsz) {Q : Option ℕ → Phys → Prop}
    (hsome : ∀ p' free', 2 * PGSIZE ≤ newsz → newsz % PGSIZE = 0 → ImageOf L X Z p' free' d newsz →
      (∀ v < npages newsz, User (p'.mem.pte d v) ↔ v ≠ guardPage newsz) → Keeps X Z p.mem p'.mem →
      Q (some newsz) p')
    (hnone : ∀ p' free', Abandoned L X Z p' free' d → Keeps X Z p.mem p'.mem →
      (KERNBASE ≤ newsz ∨ free.length < 4) → Q none p') :
    Wp (do
      let sz ← allocuvm L d sz₀ newsz
      if sz = 0 then return none
      clearpteu d (sz - 2 * PGSIZE)
      return some sz) p Q E := by
  have hsz := Nat.le_of_lt h.covers.bound
  have hpages := npages_PGROUNDUP hsz
  have hupper := npages_le hsz
  have hround := PGROUNDUP_eq hsz
  rw [hsz₀] at hpages hround
  have hle : sz ≤ sz₀ := by
    rw [hround]
    simp only [npages, PGSIZE]
    omega
  have hsz₀' : sz₀ ≤ KERNBASE ∧ sz₀ % PGSIZE = 0 ∧ newsz = sz₀ + 2 * PGSIZE := by
    simp only [PGSIZE, KERNBASE] at *
    omega
  have hmono : ∀ {e : ℕ → ℕ}, ∀ g ∈ Z, g ∈ pages e + Z := fun g hg => by simp [hg]
  rw [wp_bind]
  refine Vm.wp_allocuvm h.pool hsz₀'.1 ?_ ?_ ?_ ?_ ?_
  · intro v q hv hv' hbound hpres
    have := npages_le (Nat.le_of_lt hbound)
    rw [hpages] at hv
    exact absurd hpres (h.covers.absent v hv (by omega))
  · exact fun hlt => absurd hlt (by simp only [PGSIZE] at hsz₀'; omega)
  · intro p₂ free₂ hle' hbound hp₂
    rw [hpages] at hp₂
    have h₂ := hp₂.image h (hle.trans hle') hbound
    have huser₂ := hp₂.accessible huser
    have hstack : 2 * PGSIZE ≤ newsz ∧ newsz % PGSIZE = 0 ∧ newsz ≠ 0 ∧
        newsz - 2 * PGSIZE = guardPage newsz * PGSIZE ∧ guardPage newsz < npages newsz := by
      simp only [guardPage, npages, PGSIZE] at *
      omega
    rw [if_neg hstack.2.2.1, wp_bind, hstack.2.2.2.1]
    refine h₂.wp_clearpteu hstack.2.2.2.2 fun p₃ h₃ hpte₃ hkeep₃ => ?_
    refine hsome p₃ free₂ hstack.1 hstack.2.1 h₃ (fun v hv => ?_)
      ((hp₂.keeps.mono hmono).trans hkeep₃)
    rw [hpte₃]
    by_cases hvg : v = guardPage newsz
    · rw [hvg, Function.update_self]
      exact iff_of_false (not_user_and_notUser _) fun hne => hne rfl
    · rw [Function.update_of_ne hvg]
      exact iff_of_true (huser₂ v hv) hvg
  · intro hbig
    rw [if_pos rfl]
    exact hnone p free h.abandoned (Keeps.refl _ _ _) (.inl hbig)
  · intro p' free' _ hbound hp' hfew
    rw [if_pos rfl]
    refine hnone p' free' (hp'.abandoned h.kernel hbound) (hp'.keeps.mono hmono) (.inr ?_)
    simp only [npages, PGSIZE] at *
    omega

/-- **The image of a file**: all pages but the guard page are accessible. -/
theorem wp_loadImage {ip : Image} (h : ImageOf L X Z p free d 0) {Q : Option ℕ → Phys → Prop}
    (hsome : ∀ sz p' free', 2 * PGSIZE ≤ sz → sz % PGSIZE = 0 → ImageOf L X Z p' free' d sz →
      (∀ v < npages sz, User (p'.mem.pte d v) ↔ v ≠ guardPage sz) → Keeps X Z p.mem p'.mem →
      Q (some sz) p')
    (hnone : ∀ p' free', Abandoned L X Z p' free' d → Keeps X Z p.mem p'.mem → Q none p') :
    Wp (loadImage L d ip) p Q E := by
  rw [loadImage, wp_bind]
  have huser : Accessible p.mem d 0 := fun v hv => absurd hv (Nat.not_lt_zero v)
  refine wp_loadSegments _ h huser (fun sz₁ p₁ free₁ h₁ huser₁ hkeep₁ => ?_) hnone
  dsimp only
  generalize hsz₀ : PGROUNDUP sz₁ = sz₀
  generalize hnew : (sz₀ + 2 * PGSIZE) % 2 ^ 32 = newsz
  exact h₁.wp_loadStack huser₁ hsz₀ hnew
    (fun p' free' hstack haligned h' huser' hkeep =>
      hsome newsz p' free' hstack haligned h' huser' (hkeep₁.trans hkeep))
    fun p' free' h' hkeep _ => hnone p' free' h' (hkeep₁.trans hkeep)

/-! ### Files in order -/

/-- The end of the last segment, for a file with its segments in order: they begin at pages, one
after the other, and are complete in the file. `none` for other files. -/
def Image.extent (ip : Image) : ℕ → ℕ → ℕ → Option ℕ
  | 0, _, sz => some sz
  | n + 1, off, sz =>
    let ph := ip.proghdr off
    let next := (off + sizeofProghdr) % 2 ^ 32
    if ip.readi off sizeofProghdr ≠ some sizeofProghdr then none
    else if ph.type ≠ ELF_PROG_LOAD then ip.extent n next sz
    else if ph.filesz ≤ ph.memsz ∧ sz ≤ ph.vaddr + ph.memsz ∧ 0 < ph.vaddr + ph.memsz ∧
        ph.vaddr + ph.memsz < KERNBASE ∧ ph.vaddr % PGSIZE = 0 ∧ ph.off + ph.filesz ≤ ip.size then
      ip.extent n next (ph.vaddr + ph.memsz)
    else none

theorem Image.bounds_of_extent {ip : Image} (n : ℕ) {off sz' : ℕ}
    (h : ip.extent n off sz = some sz') : sz ≤ sz' ∧ (sz < KERNBASE → sz' < KERNBASE) := by
  induction n generalizing off sz with
  | zero =>
    obtain rfl := Option.some.inj h
    exact ⟨Nat.le_refl _, id⟩
  | succ n ih =>
    simp only [Image.extent] at h
    split at h
    · cases h
    · split at h
      · exact ih h
      · split at h
        · rename_i hph
          exact ⟨hph.2.1.trans (ih h).1, fun _ => (ih h).2 hph.2.2.2.1⟩
        · cases h

/-- **Segments in order are loaded** if there is memory for them. -/
theorem wp_loadSegments_of_extent (n : ℕ) {ip : Image} {off sz' : ℕ} (h : ImageOf L X Z p free d sz)
    (huser : Accessible p.mem d sz) (hsize : ip.size < 2 ^ 32)
    (hext : ip.extent n off sz = some sz') (hlen : 2 * npages sz' ≤ free.length + 2 * npages sz)
    {Q : Option ℕ → Phys → Prop}
    (hQ : ∀ p' free', ImageOf L X Z p' free' d sz' → Accessible p'.mem d sz' →
      Keeps X Z p.mem p'.mem → free.length + 2 * npages sz ≤ free'.length + 2 * npages sz' →
      Q (some sz') p') : Wp (loadSegments L d ip n off sz) p Q E := by
  induction n generalizing p free sz off with
  | zero =>
    obtain rfl := Option.some.inj hext
    exact hQ p free h huser (Keeps.refl _ _ _) (Nat.le_refl _)
  | succ n ih =>
    rw [loadSegments]
    simp only [Image.extent] at hext
    split at hext
    · cases hext
    rename_i hread
    rw [if_neg hread]
    split at hext
    · rename_i htype
      rw [if_pos htype]
      exact ih h huser hext hlen hQ
    rename_i htype
    split at hext
    · rename_i hph
      obtain ⟨hfile, hle, hpos, hbound, haligned, hend⟩ := hph
      have hmono := npages_mono (Image.bounds_of_extent n hext).1
      have htop := Nat.mod_eq_of_lt (hbound.trans (show KERNBASE < 2 ^ 32 by decide))
      rw [if_neg htype, if_neg (Nat.not_lt.mpr hfile), htop, if_neg (by omega), wp_bind]
      refine Vm.wp_allocuvm h.pool (Nat.le_of_lt h.covers.bound) ?_ ?_ ?_ ?_ ?_
      · intro v q hv hv' _ hpres
        have := npages_le (Nat.le_of_lt hbound)
        exact absurd hpres (h.covers.absent v hv (by omega))
      · exact fun hlt => absurd hlt (Nat.not_lt.mpr hle)
      · intro p₁ free₁ _ _ hp₁
        have hlen₁ := hp₁.length
        have hmono₁ := npages_mono hle
        rw [if_neg (Nat.ne_of_gt hpos), if_neg fun hne => hne haligned, wp_bind]
        refine wp_loaduvm (hp₁.image h hle hbound) haligned (by omega)
          fun b p₂ h₂ hpte₂ hkeep₂ hb => ?_
        rw [hb hend hsize, if_pos rfl]
        have huser₂ : Accessible p₂.mem d ((ip.proghdr off).vaddr + (ip.proghdr off).memsz) := by
          rw [Accessible, hpte₂]
          exact hp₁.accessible huser
        refine ih h₂ huser₂ hext (by omega) fun p' free' h' hu' hkeep' hlen' =>
          hQ p' free' h' hu' (((hp₁.keeps.mono fun g hg => ?_).trans hkeep₂).trans hkeep')
            (by omega)
        exact Multiset.mem_add.mpr (.inr hg)
      · exact fun hbig => absurd hbound (Nat.not_lt.mpr hbig)
      · intro p' free' _ _ _ hfew
        omega
    · cases hext

/-- A file in order, of which the image with its stack has size `sz`. -/
structure Image.InOrder (ip : Image) (sz : ℕ) : Prop where
  size : ip.size < 2 ^ 32
  header : ip.readi 0 sizeofElfhdr = some sizeofElfhdr
  magic : ip.elfhdr.magic = ELF_MAGIC
  extent : ∃ top, ip.extent ip.elfhdr.phnum ip.elfhdr.phoff 0 = some top ∧
    sz = PGROUNDUP top + 2 * PGSIZE
  bound : sz < KERNBASE

/-- **A file in order is loaded** if there is memory for its segments and its stack. -/
theorem wp_loadImage_inOrder {ip : Image} {newsz : ℕ} (h : ImageOf L X Z p free d 0)
    (hip : ip.InOrder newsz) (hlen : 2 * npages newsz ≤ free.length) {Q : Option ℕ → Phys → Prop}
    (hQ : ∀ p' free', ImageOf L X Z p' free' d newsz → Keeps X Z p.mem p'.mem → Q (some newsz) p') :
    Wp (loadImage L d ip) p Q E := by
  obtain ⟨sz, hext, hnew⟩ := hip.extent
  have hbound := hip.bound
  rw [loadImage, wp_bind]
  have huser : Accessible p.mem d 0 := fun v hv => absurd hv (Nat.not_lt_zero v)
  have hzero : npages 0 = 0 := rfl
  have hsz := (Image.bounds_of_extent _ hext).2 (by decide)
  have hpages : npages sz + 2 ≤ npages newsz := by
    simp only [hnew, PGROUNDUP, npages, PGSIZE, KERNBASE] at *
    omega
  refine wp_loadSegments_of_extent _ h huser hip.size hext (by omega)
    fun p₁ free₁ h₁ huser₁ hkeep₁ hlen₁ => ?_
  dsimp only
  generalize hsz₀ : PGROUNDUP sz = sz₀ at hnew ⊢
  have hmod : (sz₀ + 2 * PGSIZE) % 2 ^ 32 = newsz := by
    rw [← hnew]
    exact Nat.mod_eq_of_lt (hbound.trans (by decide))
  rw [hmod]
  refine h₁.wp_loadStack huser₁ hsz₀ hmod
    (fun p' free' _ _ h' _ hkeep => hQ p' free' h' (hkeep₁.trans hkeep)) fun p' free' _ _ hfew => ?_
  omega

/-- A page directory that `setupkvm` has made is an image of size 0. -/
theorem KvmReady.image {p' : Phys} (h : KvmReady L X Z p p' free d) :
    ImageOf L X Z p' free d 0 := by
  refine ⟨h.pool, ⟨by decide, fun v hv => ?_, fun v _ hv => ?_⟩, fun v _ => by rw [h.pte],
    fun i hi hi' => h.table i (Or.inr ⟨hi, hi'⟩)⟩
  · exact absurd hv (Nat.not_lt_zero v)
  · rw [h.pte, kvm_eq_zero (Or.inl hv)]
    exact not_present_zero

/-- **The loading phase** makes an image, or gives back all the memory that it has used. -/
theorem wp_loading {ip : Image} (h : Pool L X p free Z) {Q : Option (ℕ × ℕ) → Phys → Prop}
    (hsome : ∀ d sz p' free', 2 * PGSIZE ≤ sz → sz % PGSIZE = 0 → ImageOf L X Z p' free' d sz →
      (∀ v < npages sz, User (p'.mem.pte d v) ↔ v ≠ guardPage sz) → Keeps X Z p.mem p'.mem →
      Q (some (d, sz)) p')
    (hnone : ∀ p' free', Pool L X p' free' Z → Keeps X Z p.mem p'.mem → Q none p') :
    Wp (loading L ip) p Q E := by
  have hbad : Q none p := hnone p free h (Keeps.refl _ _ _)
  rw [loading, wp_ite]
  refine ⟨fun _ => hbad, fun _ => ?_⟩
  rw [wp_ite]
  refine ⟨fun _ => hbad, fun _ => ?_⟩
  rw [wp_bind]
  refine wp_setupkvm h (fun d p₁ free₁ h₁ => ?_) fun p' free' hp' hkeep _ =>
    hnone p' free' hp' hkeep
  simp only [wp_bind]
  refine wp_loadImage h₁.image (fun sz p₂ free₂ hstack haligned h₂ huser hkeep₂ => ?_)
    fun p₂ free₂ h₂ hkeep₂ => ?_
  · exact hsome d sz p₂ free₂ hstack haligned h₂ huser (h₁.keeps.trans hkeep₂)
  · simp only [wp_bind, wp_pure]
    exact wp_freevm h₂.pool fun p' free' hp' hkeep =>
      hnone p' free' hp' ((h₁.keeps.trans hkeep₂).trans hkeep)

end Vm

end Xv6
