import Xv6.Vm.Boot

/-!
# A process fills its memory

What the programs of this model read from user memory is what processes have stored there. After
`main` the first process makes its memory larger with `sbrk` and fills it with any bytes, one store
after another.

## Main definitions

* `Filling` — a process that can write to all its pages
* `argBytes` — memory with a vector of arguments

## Main results

* `Filling.sbrk`, `Booted.sbrk` — `sbrk`, and `sbrk` after `main`
* `Filling.store`, `Filling.stores` — one store, and a whole run of stores
* `wp_fetchArgv_letters` — what `exec` finds there
-/

namespace Xv6

namespace Vm

open Proc (Slot)
open Transition

variable {L : Layout} {s s' : State} {free free' : List ℕ} {p : Slot} {d sz va : ℕ}

/-- A process with page directory `d` and size `sz` that can write to all its pages. -/
structure Filling (L : Layout) (s : State) (free : List ℕ) (p : Slot) (d sz : ℕ) : Prop where
  owns : Owns L True s free
  live : (s.proc p).status = .live
  pgdir : (s.proc p).pgdir = some d
  size : (s.proc p).sz = sz
  writable : ∀ v < npages sz, Writable (s.phys.mem.pte d v) ∧ User (s.phys.mem.pte d v)

namespace Filling

theorem used (h : Filling L s free p d sz) : (s.proc p).status ≠ .unused := by
  rw [h.live]
  exact nofun

theorem space (h : Filling L s free p d sz) : SpaceOf L True s.phys.mem (s.proc p) d := by
  obtain ⟨d', hd'⟩ := h.owns.space p h.used
  obtain rfl : d' = d := Option.some_injective _ (hd'.pgdir.symm.trans h.pgdir)
  exact hd'

theorem covers (h : Filling L s free p d sz) : Covers (s.phys.mem.pte d) sz := by
  have := h.space.covers trivial
  rwa [h.size] at this

/-- No page is mapped at two addresses. -/
theorem frame_inj (h : Filling L s free p d sz) {u v : ℕ} (hu : u < npages sz) (hv : v < npages sz)
    (heq : frame (s.phys.mem.pte d u) = frame (s.phys.mem.pte d v)) : u = v := by
  have hupper := npages_le (Nat.le_of_lt h.covers.bound)
  obtain ⟨c, -, hpool⟩ := h.owns.spacePool h.used h.space
  have hnodup := (Multiset.nodup_add.mp (spacePool_iff.mp hpool).nodup_taken).1
  have hpages := (Multiset.nodup_add.mp (Multiset.nodup_cons.mp hnodup).2).2.1
  exact page_unique hpages (mem_userPages.mpr (by omega)) (mem_userPages.mpr (by omega))
    (h.covers.present u hu) (h.covers.present v hv) heq

theorem page_lt (hva : va < sz) : va / PGSIZE < npages sz := by
  refine (lt_npages _).mp ?_
  have := Nat.div_mul_le_self va PGSIZE
  omega

theorem storable (h : Filling L s free p d sz) (hva : va < sz) : s.phys.mem.Storable d va :=
  ⟨h.covers.present _ (page_lt hva), (h.writable _ (page_lt hva)).1⟩

/-- A call on files is through. -/
theorem settled (h : Filling L s free p d sz) (h' : Settled L True s free d s' free')
    (hproc : s'.proc p = { s.proc p with ofile := (s'.proc p).ofile }) :
    Filling L s' free' p d sz := by
  refine ⟨h'.owns, ?_, ?_, ?_, ?_⟩
  · rw [hproc]
    exact h.live
  · rw [hproc]
    exact h.pgdir
  · rw [hproc]
    exact h.size
  · rw [h'.pte]
    exact h.writable

/-- **One store.** -/
theorem store (h : Filling L s free p d sz) (hva : va < sz) (b : UInt8) : ∃ s',
    step L s (.store p va b) = some s' ∧ Filling L s' free p d sz ∧ s'.proc = s.proc ∧
    s'.file = s.file ∧ ∀ a < sz, s'.phys.mem.byte d a =
    if a = va then b else s.phys.mem.byte d a := by
  have hbound := h.covers.bound
  have hv := page_lt hva
  have hupper := npages_le (Nat.le_of_lt hbound)
  have hpres := h.covers.present _ hv
  have hok : va < 2 ^ 32 ∧ Present (s.phys.mem.pte d (va / PGSIZE)) ∧
      Writable (s.phys.mem.pte d (va / PGSIZE)) ∧ User (s.phys.mem.pte d (va / PGSIZE)) :=
    ⟨by simp only [KERNBASE] at hbound; omega, hpres, h.writable _ hv⟩
  obtain ⟨f, hf⟩ : ∃ f, f = frame (s.phys.mem.pte d (va / PGSIZE)) := ⟨_, rfl⟩
  obtain ⟨s', hs'⟩ : ∃ s' : State, s' = { s with phys := { s.phys with
      mem := Function.update s.phys.mem f ((s.phys.mem f).set (va % PGSIZE) b) } } := ⟨_, rfl⟩
  obtain ⟨howns, hpte⟩ := h.owns.writePage h.used h.space (by omega) hpres (hf ▸ hs')
  have hwp : Wp (userStore p va b) s (fun _ t => t = s') fun _ _ => False := by
    rw [userStore, wp_bind, wp_pgdirOf h.pgdir]
    simp only [wp_bind, wp_get]
    rw [if_pos hok, wp_vm, wp_modify, hs', hf]
  obtain ⟨-, t, hstep, rfl⟩ := exists_call h.live hwp
  have hproc : t.proc = s.proc := by rw [hs']
  have hmem : t.phys.mem = Function.update s.phys.mem f ((s.phys.mem f).set (va % PGSIZE) b) := by
    rw [hs']
  refine ⟨t, hstep, h.settled ⟨howns, hpte, Nat.le_add_right _ _⟩ (by rw [hproc]), hproc,
    by rw [hs'], fun a ha => ?_⟩
  · rw [Mem.byte, hpte, hmem]
    by_cases hsame : a / PGSIZE = va / PGSIZE
    · have hiff : a % PGSIZE = va % PGSIZE ∧ va % PGSIZE < PGSIZE ↔ a = va := by
        simp only [PGSIZE] at *
        omega
      rw [hsame, ← hf, Function.update_self, Bytes.get_set, Mem.byte, hsame, ← hf]
      simp only [hiff]
    · have hne : frame (s.phys.mem.pte d (a / PGSIZE)) ≠ f := fun heq =>
        hsame (h.frame_inj (page_lt ha) hv (heq.trans hf))
      rw [Function.update_of_ne hne, if_neg (fun heq => hsame (by rw [heq])), Mem.byte]

/-- **A run of stores** fills the memory from `0` to `n`. -/
theorem stores (h : Filling L s free p d sz) (bytes : ℕ → UInt8) (n : ℕ) (hn : n ≤ sz) : ∃ s',
    run (step L) s ((List.range n).map fun a => .store p a (bytes a)) = some s' ∧
    Filling L s' free p d sz ∧ s'.proc = s.proc ∧ s'.file = s.file ∧
    ∀ a < n, s'.phys.mem.byte d a = bytes a := by
  induction n with
  | zero => exact ⟨s, rfl, h, rfl, rfl, fun a ha => absurd ha (Nat.not_lt_zero a)⟩
  | succ n ih =>
    obtain ⟨s₁, hrun, h₁, hproc₁, hfile₁, hbytes⟩ := ih (by omega)
    have hlt : n < sz := by omega
    obtain ⟨s', hstep, h', hproc, hfile, hbyte⟩ := h₁.store hlt (bytes n)
    refine ⟨s', ?_, h', hproc.trans hproc₁, hfile.trans hfile₁, fun a ha => ?_⟩
    · rw [List.range_succ, List.map_append, List.map_singleton, run_append_eq_some]
      exact ⟨s₁, hrun, (run_cons_eq_some _).mpr ⟨s', hstep, rfl⟩⟩
    · rw [hbyte a (by omega)]
      by_cases heq : a = n
      · rw [if_pos heq, heq]
      · rw [if_neg heq]
        exact hbytes a (by omega)

end Filling

theorem writable_mkPte {pa perm : ℕ} (h : perm.testBit 1 = true) : Writable (mkPte pa perm) := by
  intro hzero
  have hbit : (mkPte pa perm &&& PTE_W).testBit 1 = true := by
    rw [Nat.testBit_and, mkPte, Nat.testBit_or, Nat.testBit_or, h, Bool.or_true, Bool.true_or]
    rfl
  rw [hzero, Nat.zero_testBit] at hbit
  cases hbit

/-- An entry that `allocuvm` or `inituvm` has made. -/
theorem writable_user (f : ℕ) : Writable (mkPte (f * PGSIZE) (PTE_W ||| PTE_U)) ∧
    User (mkPte (f * PGSIZE) (PTE_W ||| PTE_U)) :=
  ⟨writable_mkPte rfl, user_mkPte.mpr (by decide)⟩

/-- Pages are added to the memory of a process that can write to all its pages. -/
theorem Filling.grow (h : Filling L s free p d sz) {newsz k : ℕ} {p' : Phys}
    (hk : (s.proc p).kstack = some k) (hle : sz ≤ newsz) (hnew : newsz < KERNBASE)
    (hp' : GrownZero L (free + (s.proc p).frames s.phys.mem) {k} d (npages sz) (npages newsz)
      s.phys free p' free') :
    Filling L { s with
      phys := p'
      proc := Function.update s.proc p { s.proc p with sz := newsz } } free' p d newsz := by
  have hkeep : Keeps (free + (s.proc p).frames s.phys.mem) 0 s.phys.mem p'.mem :=
    hp'.keeps.mono fun g hg => absurd hg (Multiset.notMem_zero g)
  have hspace := h.space.grow (h.size.symm ▸ hp') (h.size.symm ▸ hle) hnew
  refine ⟨h.owns.setSpace hp'.pool hkeep hspace hk h.used rfl, ?_, ?_, ?_, fun v hv => ?_⟩
  · simp only [Function.update_self]
    exact h.live
  · simp only [Function.update_self]
    exact h.pgdir
  · simp only [Function.update_self]
  · by_cases hv' : v < npages sz
    · simp only [hp'.old v (by omega)]
      exact h.writable v hv'
    · obtain ⟨g, hg, -⟩ := hp'.new v (by omega) hv
      simp only [hg]
      exact writable_user g

/-- **`sbrk`** makes the memory larger by `n` bytes, if there are pages for it. -/
theorem Filling.sbrk (h : Filling L s free p d sz) {n : ℕ} (hn : 0 < n) (hnew : sz + n < KERNBASE)
    (hlen : 2 * (npages (sz + n) - npages sz) ≤ free.length) : ∃ s' free',
    step L s (.sbrk p (BitVec.ofNat 32 n)) = some s' ∧ Filling L s' free' p d (sz + n) ∧
    free.length ≤ free'.length + 2 * (npages (sz + n) - npages sz) ∧
    s' = { s with
      phys := s'.phys
      proc := Function.update s.proc p { s.proc p with sz := sz + n } } := by
  obtain ⟨k, hk, hpool⟩ := h.owns.spacePool h.used h.space
  have htoNat : (BitVec.ofNat 32 n).toNat = n := by
    rw [BitVec.toNat_ofNat]
    simp only [KERNBASE] at hnew
    omega
  have htoInt : (BitVec.ofNat 32 n).toInt > 0 := by
    rw [BitVec.toInt_eq_toNat_cond, htoNat]
    simp only [KERNBASE] at hnew
    split <;> omega
  have hsum : (sz + n) % 2 ^ 32 = sz + n := Nat.mod_eq_of_lt (hnew.trans (by decide))
  have hupper := npages_le (Nat.le_of_lt hnew)
  have hwp : Wp (growproc L p (BitVec.ofNat 32 n)) s (fun _ t =>
      (∃ free', Filling L t free' p d (sz + n) ∧
        free.length ≤ free'.length + 2 * (npages (sz + n) - npages sz)) ∧
      t = { s with
        phys := t.phys
        proc := Function.update s.proc p { s.proc p with sz := sz + n } }) fun _ _ => False := by
    simp only [growproc, wp_bind, wp_getProc]
    rw [wp_pgdirOf h.pgdir, h.size, htoNat, hsum, if_pos htoInt, wp_bind, wp_vm]
    refine wp_allocuvm hpool (Nat.le_of_lt h.covers.bound)
      (fun v p' hv hv' _ => h.covers.absent v hv (by omega)) (fun hlt => by omega)
      (fun p' free' hle _ hp' => ?_) (fun hbig => by omega) fun p' free' _ _ _ hfew => by omega
    rw [if_neg fun hzero => by omega]
    simp only [wp_bind, wp_setProc, wp_pure]
    exact ⟨⟨free', h.grow hk hle hnew hp', hp'.length⟩, trivial⟩
  obtain ⟨-, s', hstep, ⟨free', hfilling, hlen'⟩, hs'⟩ := exists_call h.live hwp
  exact ⟨s', free', hstep, hfilling, hlen', hs'⟩

/-- After `main` the first process can write to its page. -/
theorem Booted.filling (h : Booted L s free) : ∃ d, Filling L s free s.initproc d PGSIZE := by
  obtain ⟨d, f, hd, hpte⟩ := h.page
  refine ⟨d, h.owns True, h.live, hd, h.size, fun v hv => ?_⟩
  obtain rfl : v = 0 := Nat.lt_one_iff.mp hv
  rw [hpte]
  exact writable_user f

/-- **`sbrk` after `main`** makes the memory of the first process larger by `n` bytes. -/
theorem Booted.sbrk (h : Booted L s free) {n : ℕ} (hn : 0 < n) (hn' : n ≤ 2 ^ 26) : ∃ s' free' d,
    step L s (.sbrk s.initproc (BitVec.ofNat 32 n)) = some s' ∧
    Filling L s' free' s.initproc d (PGSIZE + n) ∧ 20000 ≤ free'.length ∧
    s' = { s with
      phys := s'.phys
      proc := Function.update s.proc s.initproc { s.proc s.initproc with sz := PGSIZE + n } } := by
  obtain ⟨d, hfilling⟩ := h.filling
  have hlen := h.length
  have hpages : npages (PGSIZE + n) ≤ 16385 := by
    simp only [npages, PGSIZE]
    omega
  have hbound : PGSIZE + n < KERNBASE := by
    simp only [PGSIZE, KERNBASE]
    omega
  obtain ⟨s', free', hstep, h', hlen', hs'⟩ := hfilling.sbrk hn hbound (by omega)
  exact ⟨s', free', d, hstep, h', by omega, hs'⟩

/-! ### A vector of arguments -/

/-- Memory with a vector of arguments at address `4`: a pointer to a string of `n` letters, and a
null pointer. -/
def argBytes (n a : ℕ) : UInt8 :=
  if a = 4 then 16 else if 16 ≤ a ∧ a < 16 + n then 0x61 else 0

/-- The arguments that the process has put into its memory. -/
theorem wp_fetchArgv_letters {q : Phys} {n : ℕ} (h : Covers (q.mem.pte d) sz) (hsz : n + 17 ≤ sz)
    (hbytes : ∀ a < n + 17, q.mem.byte d a = argBytes n a)
    {Q : Option (List (List UInt8)) → Phys → Prop} {E : Halt → Phys → Prop}
    (hQ : Q (some [List.replicate n 0x61]) q) : Wp (fetchArgv L d sz 4 MAXARG 0) q Q E := by
  have hzero : ∀ a, 4 < a → a < 16 → q.mem.byte d a = 0 := fun a ha ha' => by
    rw [hbytes a (by omega), argBytes, if_neg (by omega), if_neg (by omega)]
  have hptr : q.mem.byte d 4 = 16 := by
    rw [hbytes 4 (by omega), argBytes, if_pos rfl]
  have hletters : ∀ i < n, q.mem.byte d (16 + i) = 0x61 := fun i hi => by
    rw [hbytes (16 + i) (by omega), argBytes, if_neg (by omega), if_pos ⟨by omega, by omega⟩]
  have hend : q.mem.byte d (16 + n) = 0 := by
    rw [hbytes (16 + n) (by omega), argBytes, if_neg (by omega), if_neg (by omega)]
  rw [show MAXARG = 30 + 2 from rfl, fetchArgv, wp_bind, show (4 + 4 * 0) % 2 ^ 32 = 4 from rfl,
    wp_fetchint h (by omega), hptr, hzero (4 + 1) (by omega) (by omega),
    hzero (4 + 2) (by omega) (by omega), hzero (4 + 3) (by omega) (by omega)]
  have hword : (16 : UInt8).toNat + 256 * ((0 : UInt8).toNat +
      256 * ((0 : UInt8).toNat + 256 * (0 : UInt8).toNat)) = 16 := rfl
  simp only [hword]
  rw [if_neg (by decide), wp_bind, fetchstr, if_neg (by omega)]
  refine wp_fetchstrLoop_replicate (by decide) n h (by omega) (by omega) hletters hend ?_
  rw [fetchArgv, wp_bind, wp_bind, show (4 + 4 * (0 + 1)) % 2 ^ 32 = 8 from rfl,
    wp_fetchint h (by omega), hzero 8 (by omega) (by omega), hzero (8 + 1) (by omega) (by omega),
    hzero (8 + 2) (by omega) (by omega), hzero (8 + 3) (by omega) (by omega)]
  exact hQ

end Vm

end Xv6
