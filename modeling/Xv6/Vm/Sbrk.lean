import Xv6.Vm.Space

/-!
# All or nothing

`growproc` changes the size of a process by the `int` `n`, or fails and changes nothing. There are
two exceptions. `deallocuvm` returns the new size, and `growproc` takes `0` for failure: a process
that gives up all of its memory is told that it has failed. And the new size is computed in 32 bits:
if more is given up than there is, then it is larger than the old one, `deallocuvm` does nothing,
and `growproc` says that it has succeeded.

## Main definitions

* `AllOrNothing` — what `growproc` is for

## Main results

* `growproc_iff` — for which `n` this is what happens
-/

namespace Xv6

namespace Vm

open Proc (Slot)

variable {L : Layout} {strict : Prop} {s t : State} {free : List ℕ} {p : Slot} {d : ℕ}
  {n : BitVec 32}

/-! ### The specification -/

/-- Page `v` of the address space `d` is as before: mapped to the same frame with the same contents,
or not mapped. -/
def SamePage (m m' : Mem) (d v : ℕ) : Prop :=
  (Present (m'.pte d v) ↔ Present (m.pte d v)) ∧
    (Present (m.pte d v) →
      m'.pte d v = m.pte d v ∧ m' (frame (m.pte d v)) = m (frame (m.pte d v)))

/-- Page `v` of the address space `d` is for the user to read and write, and reads as zero. -/
def ZeroPage (m : Mem) (d v : ℕ) : Prop :=
  ∃ f, m.pte d v = mkPte (f * PGSIZE) (PTE_W ||| PTE_U) ∧ m f = Bytes.ofFn fun _ => 0

/-- The size has been changed by `n`, and the pages accordingly. -/
structure Resized (s : State) (p : Slot) (d : ℕ) (n : BitVec 32) (t : State) : Prop where
  size : ((t.proc p).sz : ℤ) = (s.proc p).sz + n.toInt
  same : ∀ v, v < npages (s.proc p).sz → v < npages (t.proc p).sz →
      SamePage s.phys.mem t.phys.mem d v
  zero : ∀ v, npages (s.proc p).sz ≤ v → v < npages (t.proc p).sz → ZeroPage t.phys.mem d v

/-- Nothing has been changed. -/
structure Unresized (s : State) (p : Slot) (d : ℕ) (t : State) : Prop where
  size : (t.proc p).sz = (s.proc p).sz
  same : ∀ v < 2 ^ 19, SamePage s.phys.mem t.phys.mem d v

/-- The result `r` of `growproc` says what has happened. -/
def AllOrNothing (s : State) (p : Slot) (d : ℕ) (n : BitVec 32) (r : Bool) (t : State) : Prop :=
  if r then Resized s p d n t else Unresized s p d t

/-! ### Pages that stay -/

theorem SamePage.refl (m : Mem) (d v : ℕ) : SamePage m m d v := ⟨Iff.rfl, fun _ => ⟨rfl, rfl⟩⟩

/-- A page whose entry is kept, by a call that keeps the frames that stay mapped. -/
theorem SamePage.of_keeps {X Z : Multiset ℕ} {m m' : Mem} {e : ℕ → ℕ} {v : ℕ} (hv : v < 2 ^ 19)
    (hpte : m'.pte d v = m.pte d v) (he : e v = m.pte d v) (hkeeps : Keeps X (pages e + Z) m m') :
    SamePage m m' d v := by
  refine ⟨by rw [hpte], fun hpres => ⟨hpte, hkeeps _ (.inr (Multiset.mem_add.mpr (.inl ?_)))⟩⟩
  rw [← he] at hpres ⊢
  exact mem_pages.mpr ⟨v, mem_userPages.mpr hv, hpres, rfl⟩

section Pages

variable {X Z : Multiset ℕ} {q q' : Phys} {free' : List ℕ} {sz newsz v : ℕ}

theorem Grown.same {perm : ℕ → ℕ} {c : ℕ → Bytes PGSIZE} {lo hi : ℕ}
    (h : Grown L X Z d perm c lo hi q free q' free') (hv : v < lo) (hlt : v < 2 ^ 19) :
    SamePage q.mem q'.mem d v :=
  SamePage.of_keeps hlt (h.old v (by omega)) rfl h.keeps

theorem Undone.same (h : Undone L X Z d (npages sz) (npages newsz) q q' free')
    (hc : Covers (q.mem.pte d) sz) (hv : v < 2 ^ 19) : SamePage q.mem q'.mem d v := by
  by_cases hin : npages sz ≤ v ∧ v < npages newsz
  · have hq := hc.absent v hin.1 hv
    exact ⟨iff_of_false (h.gone v hin.1 hin.2) hq, fun hpres => absurd hpres hq⟩
  · exact SamePage.of_keeps hv (h.old v hin) (h.old v hin) h.keeps

end Pages

/-! ### The three cases -/

/-- What all calls have in common: the address space of the process and the free pages are a
pool. -/
theorem Owns.pool_of_live (h : Owns L strict s free) (hlive : (s.proc p).status = .live)
    (hd : (s.proc p).pgdir = some d) :
    ∃ k, SpacePool L (free + (s.proc p).frames s.phys.mem) s.phys free d {k} := by
  have hused : (s.proc p).status ≠ .unused := by
    rw [hlive]
    exact nofun
  obtain ⟨d', hd'⟩ := h.space p hused
  obtain rfl : d' = d := Option.some_injective _ (hd'.pgdir.symm.trans hd)
  obtain ⟨k, -, hpool⟩ := h.spacePool hused hd'
  exact ⟨k, hpool⟩

/-- **A positive `n`** adds pages, or fails and adds none. -/
theorem Owns.wp_growproc_pos (h : Owns L strict s free) (hlive : (s.proc p).status = .live)
    (hd : (s.proc p).pgdir = some d) (hc : Covers (s.phys.mem.pte d) (s.proc p).sz)
    (hn : 0 < n.toInt) : Wp (growproc L p n) s (AllOrNothing s p d n) fun _ _ => False := by
  obtain ⟨k, hpool⟩ := h.pool_of_live hlive hd
  have hbound := hc.bound
  have htoInt := BitVec.toInt_eq_toNat_cond n
  have hne : n ≠ 0 := by
    rintro rfl
    exact absurd hn (by decide)
  have hnew : (((s.proc p).sz + n.toNat) % 2 ^ 32 : ℕ) = ((s.proc p).sz : ℤ) + n.toInt := by
    have := n.isLt
    simp only [KERNBASE] at hbound
    split at htoInt <;> omega
  simp only [growproc, wp_bind, wp_getProc]
  rw [wp_pgdirOf hd, if_pos hn, wp_bind, wp_vm]
  generalize ((s.proc p).sz + n.toNat) % 2 ^ 32 = newsz at hnew ⊢
  refine wp_allocuvm hpool (Nat.le_of_lt hbound) (fun v _ hv hv' hnewb hpres => ?_)
    (fun hlt => by omega) (fun q' free' hle hnewb hq' => ?_) (fun _ => ?_)
    fun q' free' _ _ hq' _ => ?_
  · have hupper := npages_le (Nat.le_of_lt hnewb)
    exact hc.absent v hv (by omega) hpres
  · rw [if_neg fun hzero => by omega]
    simp only [wp_bind, wp_setProc, wp_pure]
    have hupper := npages_le (Nat.le_of_lt hbound)
    refine (if_pos rfl).mpr ⟨?_, fun v hv _ => hq'.same hv (by omega), fun v hv hv' => ?_⟩
    · simp only [Function.update_self]
      exact hnew
    · simp only [Function.update_self] at hv'
      obtain ⟨f, hpte, -, hf⟩ := hq'.new v hv hv'
      exact ⟨f, hpte, hf⟩
  · rw [if_pos ⟨hne, rfl⟩, wp_pure]
    exact ⟨rfl, fun v _ => SamePage.refl ..⟩
  · rw [if_pos ⟨hne, rfl⟩, wp_pure]
    exact ⟨rfl, fun v hv => hq'.same hc hv⟩

/-- **A negative `n`** gives up pages. What the result is depends on the new size, in 32 bits. -/
theorem Owns.wp_growproc_neg (h : Owns L strict s free) (hlive : (s.proc p).status = .live)
    (hd : (s.proc p).pgdir = some d) (hc : Covers (s.phys.mem.pte d) (s.proc p).sz)
    (hn : n.toInt < 0) {newsz : ℕ} (hnew : ((s.proc p).sz + n.toNat) % 2 ^ 32 = newsz) :
    Wp (growproc L p n) s
      (fun r t => (r ↔ min newsz (s.proc p).sz ≠ 0) ∧
        (t.proc p).sz = (if r then min newsz (s.proc p).sz else (s.proc p).sz) ∧
        Covers (t.phys.mem.pte d) (min newsz (s.proc p).sz) ∧
        ∀ v, (v < npages newsz ∨ npages (s.proc p).sz ≤ v) → v < 2 ^ 19 →
          SamePage s.phys.mem t.phys.mem d v) fun _ _ => False := by
  obtain ⟨k, hpool⟩ := h.pool_of_live hlive hd
  have hne : n ≠ 0 := by
    rintro rfl
    exact absurd hn (by decide)
  simp only [growproc, wp_bind, wp_getProc]
  rw [wp_pgdirOf hd, hnew, if_neg (Int.not_lt.mpr (Int.le_of_lt hn)), if_pos hn, wp_bind, wp_vm]
  refine wp_deallocuvm hpool (Nat.le_of_lt hc.bound) fun q' free' hq' => ?_
  have hcovers := hc.cleared newsz
  rw [← hq'.pte] at hcovers
  have hsame : ∀ v, (v < npages newsz ∨ npages (s.proc p).sz ≤ v) → v < 2 ^ 19 →
      SamePage s.phys.mem q'.mem d v := fun v hv hlt => by
    have hpte : q'.mem.pte d v = s.phys.mem.pte d v := hq'.undone.old v (by omega)
    exact SamePage.of_keeps hlt hpte hpte hq'.keeps
  rw [wp_ite]
  refine ⟨fun hzero => ?_, fun hzero => ?_⟩
  · exact ⟨iff_of_false (by rintro ⟨⟩) fun h => h hzero.2, rfl, hcovers, hsame⟩
  · simp only [wp_bind, wp_setProc, wp_pure]
    refine ⟨iff_of_true trivial fun h => hzero ⟨hne, h⟩, ?_, hcovers, hsame⟩
    rw [Function.update_self, if_pos trivial]

theorem wp_growproc_zero (hd : (s.proc p).pgdir = some d) :
    Wp (growproc L p 0) s (AllOrNothing s p d 0) fun _ _ => False := by
  simp only [growproc, wp_bind, wp_getProc]
  rw [wp_pgdirOf hd, if_neg (by decide), if_neg (by decide), wp_bind, wp_pure,
    if_neg fun hzero => hzero.1 rfl]
  simp only [wp_bind, wp_setProc, wp_pure]
  refine (if_pos rfl).mpr ⟨?_, fun v _ _ => SamePage.refl .., fun v hv hv' => ?_⟩
  · simp only [Function.update_self]
    exact (add_zero _).symm
  · simp only [Function.update_self] at hv'
    exact absurd hv' (Nat.not_lt.mpr hv)

/-! ### All calls -/

/-- **All or nothing.** A process whose pages are those below its size is resized by `n` bytes, or
nothing happens and it is told so, exactly if `n` leaves it some memory (or it has none). -/
theorem growproc_iff (h : Owns L strict s free) (hlive : (s.proc p).status = .live)
    (hd : (s.proc p).pgdir = some d) (hc : Covers (s.phys.mem.pte d) (s.proc p).sz)
    (n : BitVec 32) :
    (∃ r t, growproc L p n s = .ok r t ∧ AllOrNothing s p d n r t) ↔
      0 ≤ n.toInt ∨ 0 < (s.proc p).sz + n.toInt ∨ (s.proc p).sz = 0 := by
  have hbound := hc.bound
  have htoInt := BitVec.toInt_eq_toNat_cond n
  have hlt := n.isLt
  simp only [KERNBASE] at hbound
  have hupper := npages_le (Nat.le_of_lt hc.bound)
  by_cases hneg : n.toInt < 0
  · obtain ⟨newsz, hnew⟩ : ∃ m, ((s.proc p).sz + n.toNat) % 2 ^ 32 = m := ⟨_, rfl⟩
    obtain ⟨r, t, hok, hr, hsz, hcovers, hsame⟩ := (h.wp_growproc_neg hlive hd hc hneg hnew).ok
    have huniq : ∀ {r' t'}, growproc L p n s = .ok r' t' → r' = r ∧ t' = t := fun hok' => by
      rw [hok] at hok'
      exact ⟨(EStateM.Result.ok.inj hok').1.symm, (EStateM.Result.ok.inj hok').2.symm⟩
    refine ⟨?_, fun hcond => ⟨r, t, hok, ?_⟩⟩
    · rintro ⟨r', t', hok', hall⟩
      obtain ⟨rfl, rfl⟩ := huniq hok'
      cases r' with
      | true =>
        have hsize := ((if_pos rfl).mp hall : Resized s p d n t').size
        have hpos := hr.mp rfl
        rw [hsz, if_pos rfl] at hsize
        omega
      | false =>
        have hun : Unresized s p d t' := hall
        have hmin : min newsz (s.proc p).sz = 0 := by
          by_contra hne
          exact absurd (hr.mpr hne) nofun
        rw [hmin] at hcovers
        by_contra hcond
        -- page 0 was mapped, and it is not any more
        have hpos : 0 * PGSIZE < (s.proc p).sz := by
          rw [Nat.zero_mul]
          omega
        have h0 := (lt_npages 0).mp hpos
        exact hcovers.absent 0 (Nat.zero_le _) (by decide)
          ((hun.same 0 (by decide)).1.mpr (hc.present 0 h0))
    · rcases hcond with hcond | hcond | hcond
      · exact absurd hneg (Int.not_lt.mpr hcond)
      · have hint : (newsz : ℤ) = (s.proc p).sz + n.toInt := by
          split at htoInt <;> omega
        obtain rfl : r = true := hr.mpr (by omega)
        rw [if_pos rfl, Nat.min_eq_left (by omega)] at hsz
        have hmono : npages newsz ≤ npages (s.proc p).sz := npages_mono (by omega)
        refine (if_pos rfl).mpr ⟨?_, fun v hv hv' => hsame v (.inl ?_) (by omega),
          fun v hv hv' => ?_⟩
        · rw [hsz, hint]
        · rwa [hsz] at hv'
        · rw [hsz] at hv'
          omega
      · obtain rfl : r = false := by
          by_contra hne
          have := hr.mp (Bool.of_not_eq_false hne)
          omega
        refine ⟨hsz, fun v hv => hsame v (.inr ?_) hv⟩
        rw [hcond]
        exact Nat.zero_le v
  · have hfine : Wp (growproc L p n) s (AllOrNothing s p d n) fun _ _ => False := by
      rcases (Int.not_lt.mp hneg).eq_or_lt with hzero | hpos
      · obtain rfl : n = 0 := BitVec.eq_of_toInt_eq hzero.symm
        exact wp_growproc_zero hd
      · exact h.wp_growproc_pos hlive hd hc hpos
    exact iff_of_true hfine.ok (.inl (Int.not_lt.mp hneg))

/-- The first process asks for another page. -/
theorem growproc_iff_smallKernel : ∃ s d, boot smallKernel 1 (fun _ => 0) 0 zeroed = some s ∧
    (s.proc s.initproc).pgdir = some d ∧
    ∃ r t, growproc smallKernel s.initproc 4096 s = .ok r t ∧
      AllOrNothing s s.initproc d 4096 r t := by
  obtain ⟨s, hs⟩ := exists_boot_smallKernel
  obtain ⟨free, hbooted⟩ := booted_of_boot hs
  have howns := hbooted.owns True
  obtain ⟨d, hd⟩ := howns.space s.initproc (by rw [hbooted.live]; exact nofun)
  exact ⟨s, d, hs, hd.pgdir,
    (growproc_iff howns hbooted.live hd.pgdir (hd.covers trivial) 4096).mpr (.inl (by decide))⟩

/-- The first process, of size `4096`, asks for `-4096` bytes: it fails, and the page is gone. It
asks for `-4097` bytes: it succeeds, and keeps its size. -/
theorem exists_growproc_wrong : ∃ s d, boot smallKernel 1 (fun _ => 0) 0 zeroed = some s ∧
    (s.proc s.initproc).pgdir = some d ∧ (s.proc s.initproc).sz = 4096 ∧
    Covers (s.phys.mem.pte d) 4096 ∧
    (∃ t, growproc smallKernel s.initproc (-4096) s = .ok false t ∧
      Present (s.phys.mem.pte d 0) ∧ ¬ Present (t.phys.mem.pte d 0)) ∧
    ∃ t, growproc smallKernel s.initproc (-4097) s = .ok true t ∧
      (t.proc s.initproc).sz = 4096 := by
  obtain ⟨s, hs⟩ := exists_boot_smallKernel
  obtain ⟨free, hbooted⟩ := booted_of_boot hs
  have howns := hbooted.owns True
  obtain ⟨d, hd⟩ := howns.space s.initproc (by rw [hbooted.live]; exact nofun)
  have hc := hd.covers trivial
  have hsize : (s.proc s.initproc).sz = 4096 := hbooted.size
  obtain ⟨r, t, ht, hr, -, hcovers, -⟩ :=
    (howns.wp_growproc_neg hbooted.live hd.pgdir hc (n := -4096) (by decide) rfl).ok
  obtain ⟨r', t', ht', hr', hsz', -, -⟩ :=
    (howns.wp_growproc_neg hbooted.live hd.pgdir hc (n := -4097) (by decide) rfl).ok
  rw [hsize] at hr hcovers hr' hsz' hc
  obtain rfl : r = false := by
    by_contra hne
    exact absurd (hr.mp (Bool.of_not_eq_false hne)) (by decide)
  obtain rfl : r' = true := hr'.mpr (by decide)
  refine ⟨s, d, hs, hd.pgdir, hsize, hc, ⟨t, ht, ?_, ?_⟩, t', ht', hsz'⟩
  · exact hc.present 0 (by decide)
  · exact hcovers.absent 0 (by decide) (by decide)

end Vm

end Xv6
