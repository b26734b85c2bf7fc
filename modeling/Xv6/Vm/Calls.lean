import Xv6.Vm.Fetch
import Xv6.Vm.Ownership

/-!
# System calls keep the division of the pages

One specification for each system call. It holds on every path through the call: `fork` may fail in
`allocproc`, in `copyuvm` at any page or not at all, `exec` at any of its steps, `sbrk` in the
middle of `allocuvm`. No path ends in `panic("kfree")`, and if all address spaces are complete then
`fork` does not end in one of the panics of `copyuvm` either.

## Main definitions

* `Safe` — a system call keeps the invariant
* `Allowed` — the condition on the arguments of a system call

## Main results

* `safe_fork`, `safe_growproc`, `safe_sysExec`, `safe_exit`, `safe_wait`, `safe_sysPipe`
* `Owns.step`, `Owns.reach` — a step, and a whole run
-/

namespace Xv6

namespace Vm

open Proc (Slot slots)
open Transition

variable {L : Layout} {strict : Prop} {s s' : State} {free free' : List ℕ} {m m' : Mem} {d k f : ℕ}
variable {p : Slot} {q q' : Process} {α : Type} {E : Halt → State → Prop}

/-- What may stop the kernel. -/
def Fine (strict : Prop) (e : Halt) (_ : State) : Prop :=
  e ≠ .kfree ∧ (strict → e ≠ .copyuvmPte ∧ e ≠ .copyuvmPage)

/-- After a system call the invariant holds, and the files are accounted for if they were before. -/
def Kept (L : Layout) (strict : Prop) (s s' : State) : Prop :=
  (∃ free', Owns L strict s' free') ∧ (Accounted s → Accounted s')

/-- A system call keeps the invariant. -/
def Safe (L : Layout) (strict : Prop) (x : K α) (s : State) : Prop :=
  Wp x s (fun _ s' => Kept L strict s s') (Fine strict)

/-- The call has nothing to do with files. -/
theorem Owns.kept (h : Owns L strict s' free') (hsame : Same s s') : Kept L strict s s' :=
  ⟨⟨free', h⟩, hsame.accounted⟩

theorem wp_pgdirOf (hd : (s.proc p).pgdir = some d) {Q : ℕ → State → Prop} :
    Wp (pgdirOf p) s Q E ↔ Q d s := by
  simp only [pgdirOf, wp_bind, wp_getProc, hd, wp_pure]

theorem find_unused {np : Slot} (hfind : slots.find?
    (fun r => (s.proc r).status = .unused) = some np) :
    (s.proc np).status = .unused := by
  simpa using List.find?_some hfind

/-- A slot that stays unused has no pages. -/
theorem Owns.setUnused (h : Owns L strict s free) (hp : (s.proc p).status = .unused) {p' : Phys}
    (hpool : Pool L free p' free' 0) (hkeep : Keeps free 0 s.phys.mem p'.mem)
    (hq' : q'.status = .unused)
    (hs' : s' = { s with phys := p', proc := Function.update s.proc p q' }) :
    Owns L strict s' free' := by
  refine h.setProcess ?_ ?_ (fun hused => absurd hq' hused) hs'
  · rw [Process.frames_of_unused hp, Process.frames_of_unused hq', Multiset.add_zero]
    exact hpool
  · rw [Process.frames_of_unused hp, Multiset.add_zero]
    exact hkeep

/-- A process gets another address space, or its address space changes. -/
theorem Owns.setSpace (h : Owns L strict s free) {p' : Phys}
    (hpool : SpacePool L (free + (s.proc p).frames s.phys.mem) p' free' d {k})
    (hkeep : Keeps (free + (s.proc p).frames s.phys.mem) 0 s.phys.mem p'.mem)
    (hspace : SpaceOf L strict p'.mem q' d) (hk : q'.kstack = some k) (hq' : q'.status ≠ .unused)
    (hs' : s' = { s with phys := p', proc := Function.update s.proc p q' }) :
    Owns L strict s' free' := by
  refine h.setProcess ?_ hkeep (fun _ => ⟨d, hspace⟩) hs'
  rw [Process.frames_eq hq' hspace.pgdir hk]
  exact spacePool_iff.mp hpool

/-- A slot gets a process with pages that were free. -/
theorem Owns.newProcess (h : Owns L strict s free) (hp : (s.proc p).status = .unused) {p' : Phys}
    (hpool : SpacePool L free p' free' d {k}) (hkeep : Keeps free 0 s.phys.mem p'.mem)
    (hspace : SpaceOf L strict p'.mem q' d) (hk : q'.kstack = some k) (hq' : q'.status ≠ .unused)
    (hs' : s' = { s with phys := p', proc := Function.update s.proc p q' }) :
    Owns L strict s' free' := by
  have hnone : (free : Multiset ℕ) + (s.proc p).frames s.phys.mem = free := by
    rw [Process.frames_of_unused hp, Multiset.add_zero]
  refine h.setSpace ?_ ?_ hspace hk hq' hs'
  · rw [hnone]
    exact hpool
  · rw [hnone]
    exact hkeep

/-- The pool for what happens to the address space of a process. -/
theorem Owns.spacePool (h : Owns L strict s free) (hused : (s.proc p).status ≠ .unused)
    (hd : SpaceOf L strict s.phys.mem (s.proc p) d) : ∃ k, (s.proc p).kstack = some k ∧
      SpacePool L (free + (s.proc p).frames s.phys.mem) s.phys free d {k} := by
  obtain ⟨k, hk, hframes⟩ := hd.frames hused
  refine ⟨k, hk, spacePool_iff.mpr ?_⟩
  have hpart := h.part p
  rwa [hframes] at hpart ⊢

/-- The address space of a process lies outside the free pages. -/
theorem Owns.outside (h : Owns L strict s free) (hused : (s.proc p).status ≠ .unused)
    (hd : SpaceOf L strict s.phys.mem (s.proc p) d) : Outside free s.phys.mem d := by
  obtain ⟨k, -, hframes⟩ := hd.frames hused
  have hpart := h.part p
  rw [hframes] at hpart
  exact fun f hf hfree => hpart.not_taken hfree (Multiset.mem_add.mpr (Or.inl hf))

/-- The end of `fork`: the child has its memory, gets its files and becomes live. -/
theorem Owns.wp_startChild {np : Slot} {ofile : Fin NOFILE → Option (Fin NFILE)}
    {fds : List (Fin NOFILE)}
    (h : Owns L strict s' free)
    (hs' : s' = { s with proc := Function.update s.proc np { s.proc np with status := .live } })
    (hE : (∃ fd x, ofile fd = some x ∧ (s.file x).ref < 1) → ∀ t, E .filedup t)
    {Q : Unit → State → Prop}
    (hQ : ∀ t, Owns L strict { t with
        proc := Function.update t.proc np { t.proc np with status := .live } } free →
      t.phys = s.phys → t.proc np = { s.proc np with ofile := (t.proc np).ofile } →
      (∀ r ≠ np, t.proc r = s.proc r) →
      (∀ x, t.file x =
        { s.file x with ref := (s.file x).ref + fds.countP fun fd => ofile fd = some x }) →
      (fds.Nodup → (∀ fd ∈ fds, (s.proc np).ofile fd = none) → Counted s → Counted t) → Q () t) :
    Wp (dupFiles np ofile fds) s Q E := by
  have hfiles : FilePool L (free + pipes s'.file) s free := by
    have h' := h.filePool
    subst hs'
    exact ⟨h'.pool, h'.ok⟩
  refine wp_dupFiles fds hfiles hE fun t ht hstep hphys => ?_
  exact hQ t (h.fileStep ⟨ht.pool, ht.ok⟩ (hstep.setStatus .live hs' rfl)) hphys (hstep.proc np)

/-- What `fork` leaves behind when it succeeds: `np` is a copy of `p`, in frames that were free. -/
structure Forked (L : Layout) (strict : Prop) (s : State) (free : List ℕ) (p np : Slot) (d d' : ℕ)
    (s' : State) : Prop where
  owns : ∃ free', Owns L strict s' free' ∧
    free.length ≤ free'.length + 514 + 2 * npages (s.proc p).sz
  slot : (s.proc np).status = .unused
  live : (s'.proc np).status = .live
  pgdir : (s'.proc np).pgdir = some d'
  sz : (s'.proc np).sz = (s.proc p).sz
  others : ∀ r ≠ np, s'.proc r = s.proc r
  file : ∀ x, s'.file x = { s.file x with
    ref := (s.file x).ref + (List.finRange NOFILE).countP fun fd => (s.proc p).ofile fd = some x }
  counted : (∀ fd, (s.proc np).ofile fd = none) → Counted s → Counted s'
  copy : ∀ v < npages (s.proc p).sz, Present (s.phys.mem.pte d v) ∧
    ∃ f, s'.phys.mem.pte d' v = mkPte (f * PGSIZE) (PTE_FLAGS (s.phys.mem.pte d v)) ∧
      s'.phys.mem f = s.phys.mem (frame (s.phys.mem.pte d v))
  kernel : ∀ v, npages (s.proc p).sz ≤ v → s'.phys.mem.pte d' v = kvm L v
  keeps : ∀ f ∉ free, s'.phys.mem f = s.phys.mem f

/-- The address space of the parent after `fork`. -/
theorem Forked.parent {np : Slot} {d' : ℕ} (h : Forked L strict s free p np d d' s')
    (howns : Owns L strict s free) (hused : (s.proc p).status ≠ .unused)
    (hd : SpaceOf L strict s.phys.mem (s.proc p) d) :
    s'.phys.mem.pte d = s.phys.mem.pte d ∧ ∀ f ∈ owned s.phys.mem d,
    s'.phys.mem f = s.phys.mem f := by
  have hmem : ∀ f ∈ owned s.phys.mem d, s'.phys.mem f = s.phys.mem f := fun f hf =>
    h.keeps f fun hfree => howns.outside hused hd f hf hfree
  exact ⟨(owned_keep hmem).1, hmem⟩

theorem Forked.accounted {np : Slot} {d' : ℕ} (h : Forked L strict s free p np d d' s')
    (hs : Accounted s) : Accounted s' := by
  have hnone : (s.proc np).ofile = fun _ => none := hs.tidy np (by rw [h.slot]; exact nofun)
  refine ⟨h.counted (fun fd => by rw [hnone]) hs.counted, fun r hr => ?_⟩
  have hne : r ≠ np := by
    rintro rfl
    exact hr h.live
  rw [h.others r hne] at hr ⊢
  exact hs.tidy r hr

/-- A directory with pages below `sz` and the mappings of the kernel. -/
theorem covers_of_kernel {e : ℕ → ℕ} {sz : ℕ} (hsz : sz < KERNBASE)
    (hpresent : ∀ v < npages sz, Present (e v)) (hkernel : ∀ v, npages sz ≤ v → e v = kvm L v) :
    Covers e sz := by
  refine ⟨hsz, hpresent, fun v hv hv' => ?_⟩
  rw [hkernel v hv, kvm_eq_zero (Or.inl hv')]
  exact not_present_zero

/-- **`fork`** makes a copy of the address space, or leaves everything as it was. It stops only if a
file is in disorder or a page is missing. -/
theorem wp_fork (h : Owns L strict s free) (hused : (s.proc p).status ≠ .unused)
    (hd : SpaceOf L strict s.phys.mem (s.proc p) d) {Q : Option Slot → State → Prop}
    (hpanic : ∀ e t, e = .copyuvmPte ∨ e = .copyuvmPage → ¬ strict → E e t)
    (hfile : (∃ fd x, (s.proc p).ofile fd = some x ∧ (s.file x).ref < 1) → ∀ t, E .filedup t)
    (hsome : ∀ np d' s', Forked L strict s free p np d d' s' → Q (some np) s')
    (hnone : ∀ s' free', Owns L strict s' free' → Same s s' →
      ((∀ r, (s.proc r).status ≠ .unused) ∨ free.length ≤ 514 + 2 * npages (s.proc p).sz) →
      Q none s') : Wp (fork L p) s Q E := by
  simp only [fork, allocproc, wp_bind, wp_get]
  cases hfind : slots.find? (fun r => (s.proc r).status = .unused) with
  | none =>
    simp only [wp_pure]
    refine hnone s free h (Same.phys s s.phys) (.inl fun r hr => ?_)
    exact List.find?_eq_none.mp hfind r (List.mem_finRange r) (decide_eq_true hr)
  | some np =>
    have hnp := find_unused hfind
    have hne : p ≠ np := by
      rintro rfl
      exact hused hnp
    have hpart := h.part np
    rw [Process.frames_of_unused hnp, Multiset.add_zero] at hpart
    simp only [wp_bind, wp_vm]
    refine wp_kalloc hpart (fun hempty => ?_) fun k free₁ p₁ hfree hmem hpool₁ => ?_
    · simp only [wp_setProc, wp_pure]
      refine hnone _ free (h.setUnused hnp hpart (Keeps.refl _ _ _) ?_ rfl)
        (Same.setProc rfl rfl rfl id) (.inr ?_)
      · exact hnp
      · rw [hempty]
        exact Nat.zero_le _
    · simp only [wp_bind, wp_setProc, wp_pure, wp_getProc, Function.update_of_ne hne]
      rw [wp_pgdirOf (d := d) (by simp only [Function.update_of_ne hne]; exact hd.pgdir), wp_vm]
      have hout : Outside free p₁.mem d := by
        rw [hmem]
        exact h.outside hused hd
      refine wp_copyuvm hpool₁ hout (Nat.le_of_lt hd.bound) (fun v e p' he hv hpres => ?_)
        (fun d' p₂ free₂ hpool₂ hpages hkernel hkeep₂ hlen => ?_)
        fun p₂ free₂ hpool₂ hkeep₂ hlen => ?_
      · refine hpanic e _ he fun hstrict => ?_
        rw [hmem] at hpres
        exact absurd ((hd.covers hstrict).present v hv) hpres
      · simp only [wp_bind, wp_setProc, wp_pure, Function.update_self, Function.update_idem]
        have hkeep : Keeps free 0 s.phys.mem p₂.mem := by
          rw [← hmem]
          exact hkeep₂.mono fun f hf => absurd hf (Multiset.notMem_zero f)
        have hpresent : ∀ v < npages (s.proc p).sz, Present (p₂.mem.pte d' v) := fun v hv => by
          obtain ⟨-, f, hf, -⟩ := hpages v hv
          rw [hf]
          exact present_mkPte _ _
        have hupper := npages_le (Nat.le_of_lt hd.bound)
        have hspace : SpaceOf L strict p₂.mem { s.proc np with
            status := .live
            sz := (s.proc p).sz
            pgdir := some d'
            kstack := some k
            parent := some p } d' :=
          ⟨rfl, ⟨k, rfl⟩, hd.bound, fun v hv => hkernel v (hupper.trans hv),
            fun _ => covers_of_kernel hd.bound hpresent hkernel⟩
        refine Owns.wp_startChild (h.newProcess hnp hpool₂ hkeep hspace rfl (by rintro ⟨⟩) rfl)
          (by simp only [Function.update_self, Function.update_idem]) ?_
          fun t ht hphys hself hother hfiles hcount => ?_
        · exact hfile
        simp only [Function.update_self] at hself
        rw [hmem] at hpages
        refine hsome np d' _ ⟨⟨free₂, ht, ?_⟩, hnp, ?_, ?_, ?_, fun r hr => ?_, hfiles,
          fun hnone hs => ?_, ?_, ?_, ?_⟩
        · rw [hfree, List.length_cons]
          omega
        · simp only [Function.update_self]
        · simp only [Function.update_self]
          rw [hself]
        · simp only [Function.update_self]
          rw [hself]
        · simp only [Function.update_of_ne hr]
          rw [hother r hr]
          exact Function.update_of_ne hr _ _
        · refine (hcount (List.nodup_finRange _) (fun fd _ => ?_)
            (hs.congr (fun _ => rfl) (ofile_update ?_))).congr (fun _ => rfl) (ofile_update ?_)
          · simp only [Function.update_self]
            exact hnone fd
          all_goals rfl
        · intro v hv
          obtain ⟨hpres, f, hf, -, hcopy⟩ := hpages v hv
          simp only [hphys]
          exact ⟨hpres, f, hf, hcopy⟩
        · simp only [hphys]
          exact hkernel
        · simp only [hphys]
          exact fun f hf => hkeep f (.inl hf)
      · simp only [wp_bind, wp_getProc, Function.update_self]
        rw [wp_vm]
        refine wp_kfree hpool₂ fun p₃ hpool₃ hmem₃ => ?_
        simp only [wp_setProc, wp_pure, Function.update_self, Function.update_idem]
        refine hnone _ _ (h.setUnused hnp hpool₃ ?_ ?_ rfl) (Same.setProc rfl rfl rfl id) (.inr ?_)
        · intro f hf
          have hf₁ : f ≠ k := by
            rintro rfl
            rcases hf with hf | hf
            · exact hf (hpool₁.mem_of_taken (Multiset.mem_cons_self ..))
            · exact Multiset.notMem_zero _ hf
          rw [hmem₃ f hf₁, hkeep₂ f (hf.imp_right fun hf =>
            absurd hf (Multiset.notMem_zero f)), hmem]
        · exact hnp
        · rw [hfree, List.length_cons]
          omega

/-- **`fork`** keeps the invariant. -/
theorem safe_fork (h : Owns L strict s free) (hlive : (s.proc p).status = .live) :
    Safe L strict (fork L p) s := by
  have hused : (s.proc p).status ≠ .unused := by
    rw [hlive]
    exact nofun
  obtain ⟨d, hd⟩ := h.space p hused
  refine wp_fork h hused hd (fun e t he hstrict => ⟨?_, fun hs => absurd hs hstrict⟩)
    (fun _ t => ⟨nofun, fun _ => ⟨nofun, nofun⟩⟩)
    (fun np d' s' h' => ⟨h'.owns.imp fun free' howns => howns.1, h'.accounted⟩)
    fun s' free' h' hsame _ => h'.kept hsame
  rcases he with rfl | rfl <;> exact nofun

/-! ### `sbrk` -/

theorem update_same (s : State) (p : Slot) (p' : Phys) :
    { s with phys := p' } = { s with phys := p', proc := Function.update s.proc p (s.proc p) } := by
  rw [Function.update_eq_self]

/-- Pages are added to an address space. -/
theorem SpaceOf.grow {X Z : Multiset ℕ} {ph ph' : Phys} {newsz : ℕ}
    (h : SpaceOf L strict ph.mem q d)
    (h' : GrownZero L X Z d (npages q.sz) (npages newsz) ph free ph' free') (hle : q.sz ≤ newsz)
    (hnew : newsz < KERNBASE) : SpaceOf L strict ph'.mem { q with sz := newsz } d := by
  have hupper := npages_le (Nat.le_of_lt hnew)
  refine ⟨h.pgdir, h.kstack, hnew, fun v hv => ?_, fun hstrict => ?_⟩
  · rw [h'.old v (by omega)]
    exact h.kernel v hv
  · exact h'.covers (h.covers hstrict) hle hnew

/-- **`growproc`** keeps the invariant. It keeps an address space complete, if it does not make it
empty: then it gives up the pages, but `0` means failure to the caller, and `sz` stays as it was. -/
theorem safe_growproc (h : Owns L strict s free) (hlive : (s.proc p).status = .live) {n : BitVec 32}
    (hn : strict → n.toInt < 0 → ((s.proc p).sz + n.toNat) % 2 ^ 32 ≠ 0) :
    Safe L strict (growproc L p n) s := by
  have hused : (s.proc p).status ≠ .unused := by
    rw [hlive]
    rintro ⟨⟩
  obtain ⟨d, hd⟩ := h.space p hused
  obtain ⟨k, hk, hpool⟩ := h.spacePool hused hd
  have hbound := hd.bound
  have hsz := Nat.le_of_lt hbound
  have htoInt := BitVec.toInt_eq_toNat_cond n
  have htoNat := n.isLt
  have hmono : ∀ {Y Z : Multiset ℕ}, ∀ g ∈ (0 : Multiset ℕ), g ∈ Y + Z := fun g hg =>
    absurd hg (Multiset.notMem_zero g)
  simp only [Safe, growproc, wp_bind, wp_getProc]
  rw [wp_pgdirOf hd.pgdir]
  generalize hnew : ((s.proc p).sz + n.toNat) % 2 ^ 32 = newsz
  rw [hnew] at hn
  rw [wp_ite]
  refine ⟨fun hpos => ?_, fun hpos => ?_⟩
  · have hlt : (s.proc p).sz < newsz := by
      simp only [KERNBASE] at hbound
      split at htoInt <;> omega
    have hne : n ≠ 0 := by
      rintro rfl
      exact absurd hpos (by decide)
    rw [wp_bind, wp_vm]
    refine wp_allocuvm hpool hsz (fun v p' _ _ _ _ =>
      ⟨by rintro ⟨⟩, fun _ => ⟨by rintro ⟨⟩, by rintro ⟨⟩⟩⟩)
      (fun hlt' => absurd hlt (Nat.lt_asymm hlt')) (fun p' free' hle hnewb hp' => ?_) (fun _ => ?_)
      fun p' free' hle hnewb hp' _ => ?_
    · rw [if_neg fun hzero => by omega]
      simp only [wp_bind, wp_setProc, wp_pure]
      exact ⟨⟨free', h.setSpace hp'.pool (hp'.keeps.mono hmono) (hd.grow hp' hle hnewb) hk hused
        rfl⟩, Same.accounted (Same.setProc rfl rfl rfl id)⟩
    · rw [if_pos ⟨hne, rfl⟩, wp_pure]
      exact ⟨⟨free, h⟩, id⟩
    · have hupper := npages_le (Nat.le_of_lt hnewb)
      have hspace : SpaceOf L strict p'.mem (s.proc p) d := by
        refine ⟨hd.pgdir, hd.kstack, hbound, fun v hv => ?_, fun hstrict => ?_⟩
        · rw [hp'.old v (by omega)]
          exact hd.kernel v hv
        · exact hp'.covers (hd.covers hstrict)
      rw [if_pos ⟨hne, rfl⟩, wp_pure]
      exact ⟨⟨free', h.setSpace hp'.pool (hp'.keeps.mono hmono) hspace hk hused (update_same ..)⟩,
        (Same.phys s p').accounted⟩
  rw [wp_ite]
  refine ⟨fun hneg => ?_, fun hneg => ?_⟩
  · rw [wp_bind, wp_vm]
    refine wp_deallocuvm hpool hsz fun p' free' hp' => ?_
    have hupper := npages_le hsz
    have hkernel : ∀ v, 2 ^ 19 ≤ v → p'.mem.pte d v = kvm L v := fun v hv => by
      rw [hp'.pte, cleared, if_neg (by omega)]
      exact hd.kernel v hv
    have hcovers : strict → Covers (p'.mem.pte d) (min newsz (s.proc p).sz) := fun hstrict => by
      rw [hp'.pte]
      exact (hd.covers hstrict).cleared newsz
    rw [wp_ite]
    refine ⟨fun hzero => ?_, fun hzero => ?_⟩
    · have hspace : SpaceOf L strict p'.mem (s.proc p) d := by
        refine ⟨hd.pgdir, hd.kstack, hbound, hkernel, fun hstrict => ?_⟩
        have hmin : min newsz (s.proc p).sz = (s.proc p).sz := by
          have := hn hstrict hneg
          omega
        rw [← hmin]
        exact hcovers hstrict
      exact ⟨⟨free', h.setSpace hp'.pool (hp'.keeps.mono hmono) hspace hk hused (update_same ..)⟩,
        (Same.phys s p').accounted⟩
    · simp only [wp_bind, wp_setProc, wp_pure]
      have hspace : SpaceOf L strict p'.mem { s.proc p with sz := min newsz (s.proc p).sz } d :=
        ⟨hd.pgdir, hd.kstack, (Nat.min_le_right ..).trans_lt hbound, hkernel, hcovers⟩
      exact ⟨⟨free', h.setSpace hp'.pool (hp'.keeps.mono hmono) hspace hk hused rfl⟩,
        Same.accounted (Same.setProc rfl rfl rfl id)⟩
  · have hn0 : n = 0 := by
      refine BitVec.eq_of_toNat_eq ?_
      change n.toNat = 0
      split at htoInt <;> omega
    rw [wp_bind, wp_pure, if_neg fun hzero => hzero.1 hn0]
    simp only [wp_bind, wp_setProc, wp_pure]
    exact ⟨⟨free, h.relabelProcess Iff.rfl rfl rfl rfl rfl⟩,
      Same.accounted (Same.setProc rfl rfl rfl id)⟩

/-! ### `exit` and `wait` -/

theorem Fine.of_files (strict : Prop) (s : State) :
    Fine strict .fileclose s ∧ Fine strict .filedup s :=
  ⟨⟨nofun, fun _ => ⟨nofun, nofun⟩⟩, nofun, fun _ => ⟨nofun, nofun⟩⟩

theorem Fine.of_fault (strict : Prop) (s : State) : Fine strict .fault s :=
  ⟨nofun, fun _ => ⟨nofun, nofun⟩⟩

/-- **`exit`** keeps the invariant: a zombie has the pages that it had. -/
theorem safe_exit (h : Owns L strict s free) (hlive : (s.proc p).status = .live) :
    Safe L strict (exit L p) s := by
  simp only [Safe, exit, wp_bind, wp_get]
  rw [wp_ite]
  refine ⟨fun _ => ⟨by rintro ⟨⟩, fun _ => ⟨by rintro ⟨⟩, by rintro ⟨⟩⟩⟩, fun _ => ?_⟩
  simp only [wp_bind]
  refine wp_closeFiles _ h.filePool (fun s => (Fine.of_files strict s).1)
    fun s₁ free₁ h₁ hstep hother hnone hcount => ?_
  simp only [wp_modify, wp_setProc]
  have howns := h.fileStep h₁ hstep
  have hstatus : (s₁.proc p).status ≠ .unused := by
    rw [hstep.proc p]
    simp [hlive]
  have horphans : Owns L strict { s₁ with
      proc := fun r => if (s₁.proc r).parent = some p then
        { s₁.proc r with parent := some s₁.initproc } else s₁.proc r } free₁ := by
    refine howns.relabel (fun r => ?_) rfl
    split <;> exact ⟨Iff.rfl, rfl, rfl, rfl⟩
  refine ⟨⟨free₁, horphans.relabelProcess ?_ ?_ ?_ ?_ rfl⟩, fun hs => ?_⟩
  · refine iff_of_false (by rintro ⟨⟩) ?_
    dsimp only
    split <;> exact hstatus
  · rfl
  · rfl
  · rfl
  · have hofile : ∀ r, (if (s₁.proc r).parent = some p then
        { s₁.proc r with parent := some s₁.initproc } else s₁.proc r).ofile = (s₁.proc r).ofile :=
      fun r => by split <;> rfl
    refine ⟨(hcount hs.counted).congr (fun _ => rfl) fun r => (ofile_update ?_ r).trans (hofile r),
      fun r hr => ((ofile_update ?_ r).trans (hofile r)).trans ?_⟩
    · rfl
    · rfl
    by_cases hrp : r = p
    · rw [hrp]
      exact funext fun fd => hnone fd (.inl (List.mem_finRange fd))
    · simp only [Function.update_of_ne hrp, hother r hrp] at hr
      rw [hother r hrp]
      refine hs.tidy r fun hlive => hr ?_
      split <;> exact hlive

/-- **`wait`** keeps the invariant: it gives back all pages of a zombie. -/
theorem safe_wait (h : Owns L strict s free) : Safe L strict (wait L p) s := by
  simp only [Safe, wait, wp_bind, wp_get]
  cases hfind : slots.find? (fun r => (s.proc r).parent = some p ∧ (s.proc r).status = .zombie) with
  | none =>
    simp only [wp_pure]
    exact ⟨⟨free, h⟩, id⟩
  | some r =>
    have hzombie : (s.proc r).status = .zombie := by
      have := List.find?_some hfind
      simp only [decide_eq_true_eq] at this
      exact this.2
    have hused : (s.proc r).status ≠ .unused := by
      rw [hzombie]
      rintro ⟨⟩
    obtain ⟨d, hd⟩ := h.space r hused
    obtain ⟨k, hk, hframes⟩ := hd.frames hused
    have hpart := h.part r
    rw [hframes] at hpart
    have hcons : owned s.phys.mem d + {k} = k ::ₘ owned s.phys.mem d := by
      rw [Multiset.add_comm, Multiset.singleton_add]
    rw [hcons] at hpart
    simp only [hk, wp_bind, wp_vm]
    refine wp_kfree hpart fun p₁ hpool₁ hmem₁ => ?_
    have hkowned : ∀ f ∈ owned s.phys.mem d, f ≠ k := by
      rintro f hf rfl
      exact (Multiset.nodup_cons.mp hpart.nodup_taken).1 hf
    obtain ⟨-, howned⟩ := owned_keep (d := d) fun f hf => hmem₁ f (hkowned f hf)
    have hspace₁ : SpacePool L (free + k ::ₘ owned s.phys.mem d) p₁ (k :: free) d 0 := by
      rw [spacePool_iff, howned, Multiset.add_zero]
      exact hpool₁
    simp only [wp_setProc, hd.pgdir]
    refine wp_freevm hspace₁ fun p₂ free₂ hpool₂ hkeep₂ => ?_
    simp only [wp_pure, Function.update_self, Function.update_idem]
    refine ⟨⟨free₂, h.setProcess ?_ ?_ (fun hused' => absurd rfl hused') rfl⟩,
      Same.accounted (Same.setProc rfl rfl rfl fun _ => by rw [hzombie]; rintro ⟨⟩)⟩
    · rw [hframes, hcons]
      exact hpool₂
    · rw [hframes, hcons]
      intro f hf
      have hf₁ : f ≠ k := by
        rintro rfl
        rcases hf with hf | hf
        · exact hf (hpart.mem_of_taken (Multiset.mem_cons_self ..))
        · exact Multiset.notMem_zero _ hf
      rw [hkeep₂ f hf, hmem₁ f hf₁]

/-! ### Files -/

/-- A call that works on files only. -/
theorem Owns.safe_of_files (h : Owns L strict s free) {x : K α}
    (hx : ∀ {X : Multiset ℕ}, FilePool L X s free →
      Wp x s (fun _ s' => (∃ free', FilePool L X s' free' ∧ FileStep X s s') ∧
        (Accounted s → Accounted s')) (Fine strict)) :
    Safe L strict x s := by
  refine (hx h.filePool).mono (fun _ s' hs' => ?_) fun _ _ he => he
  obtain ⟨⟨free', h', hstep⟩, haccounted⟩ := hs'
  exact ⟨⟨free', h.fileStep h' hstep⟩, haccounted⟩

theorem wp_sysClose {X : Multiset ℕ} (h : FilePool L X s free) {fd : Fin NOFILE}
    (hE : ∀ x t, (s.proc p).ofile fd = some x → (s.file x).ref < 1 → E .fileclose t)
    {Q : Bool → State → Prop} (hfalse : (s.proc p).ofile fd = none → Q false s)
    (htrue : ∀ x s' free', (s.proc p).ofile fd = some x → FilePool L X s' free' → FileStep X s s' →
      s'.file = Function.update s.file x (s.file x).close →
      s'.proc = Function.update s.proc p
        { s.proc p with ofile := Function.update (s.proc p).ofile fd none } → Q true s') :
    Wp (sysClose L p fd) s Q E := by
  simp only [sysClose, wp_bind, wp_getProc]
  cases hfd : (s.proc p).ofile fd with
  | none => exact hfalse hfd
  | some x =>
    simp only [wp_bind, wp_setProc, wp_pure]
    obtain ⟨h₁, hstep₁⟩ := h.setOfile p fd (r := none) rfl
    exact wp_fileclose h₁ (fun href => hE x _ hfd href) fun s' free' h' hstep hproc hfile =>
      htrue x s' free' hfd h' (hstep₁.trans hstep) hfile hproc

theorem wp_sysDup {X : Multiset ℕ} (h : FilePool L X s free) {fd : Fin NOFILE}
    (hE : ∀ x t, (s.proc p).ofile fd = some x → (s.file x).ref < 1 → E .filedup t)
    {Q : Bool → State → Prop}
    (hfalse : ((s.proc p).ofile fd = none ∨ ∀ fd', (s.proc p).ofile fd' ≠ none) → Q false s)
    (htrue : ∀ x fd' s', (s.proc p).ofile fd = some x → (s.proc p).ofile fd' = none →
      (∀ i < fd', (s.proc p).ofile i ≠ none) → FilePool L X s' free → FileStep X s s' →
      s'.file = Function.update s.file x { s.file x with ref := (s.file x).ref + 1 } →
      s'.proc = Function.update s.proc p
        { s.proc p with ofile := Function.update (s.proc p).ofile fd' (some x) } → Q true s') :
    Wp (sysDup p fd) s Q E := by
  simp only [sysDup, wp_bind, wp_getProc]
  cases hfd : (s.proc p).ofile fd with
  | none => exact hfalse (.inl hfd)
  | some x =>
    rw [wp_bind]
    refine wp_fdalloc h (fun hall => hfalse (.inr hall)) fun fd' s₁ hfree hfirst hs₁ h₁ hstep₁ => ?_
    simp only [wp_bind, wp_pure]
    have hfile₁ : s₁.file = s.file := by rw [hs₁]
    refine wp_filedup h₁ (fun href => hE x _ hfd (hfile₁ ▸ href)) fun s' hs' h' hstep => ?_
    refine htrue x fd' s' hfd hfree hfirst h' (hstep₁.trans hstep) ?_ ?_
    · rw [hs', hfile₁]
    · rw [hs', hs₁]

theorem wp_sysOpen {X : Multiset ℕ} (h : FilePool L X s free) {readable writable : Bool}
    {Q : Bool → State → Prop}
    (hfalse : ∀ s' free', FilePool L X s' free' → FileStep X s s' → s'.proc = s.proc →
      SameOpen s.file s'.file →
      ((∀ x, (s.file x).ref ≠ 0) ∨ ∀ fd, (s.proc p).ofile fd ≠ none) → Q false s')
    (htrue : ∀ x fd s', (s.file x).ref = 0 → (s.proc p).ofile fd = none →
      (∀ i < fd, (s.proc p).ofile i ≠ none) → FilePool L X s' free → FileStep X s s' →
      (s'.file x).ref = 1 → (s'.file x).type = .inode → (∀ y ≠ x, s'.file y = s.file y) →
      s'.proc = Function.update s.proc p
        { s.proc p with ofile := Function.update (s.proc p).ofile fd (some x) } → Q true s') :
    Wp (sysOpen L p readable writable) s Q E := by
  rw [sysOpen, wp_bind]
  refine wp_filealloc h (fun hall => ?_) fun x s₁ hx h₁ => ?_
  · exact hfalse s free h (FileStep.refl _ _) rfl (SameOpen.refl _) (.inl hall)
  have hproc₁ : s₁.proc = s.proc := by rw [hx.eq]
  rw [wp_bind]
  refine wp_fdalloc h₁ (fun hall => ?_) fun fd s₂ hfree hfirst hs₂ h₂ hstep₂ => ?_
  · simp only [wp_bind, wp_pure]
    rw [hproc₁] at hall
    refine wp_fileclose h₁ (fun href => ?_) fun s₂ free₂ h₂ hstep₂ hproc₂ hfile₂ => ?_
    · rw [hx.ref] at href
      exact absurd href (Nat.lt_irrefl 1)
    · exact hfalse s₂ free₂ h₂ (hx.step.trans hstep₂) (hproc₂.trans hproc₁) (hfile₂ ▸ hx.undo)
        (.inr hall)
  · simp only [wp_bind, wp_setFile, wp_pure]
    rw [hproc₁] at hfree hfirst hs₂
    have hfile₂ : s₂.file = s₁.file := by rw [hs₂]
    have htype : (s₂.file x).type ≠ .pipe := by
      rw [hfile₂, hx.type]
      exact h.ok.closed x hx.free
    refine htrue x fd _ hx.free hfree hfirst
      (h₂.setFile (fun _ => by rintro ⟨⟩) (iff_of_false (by rintro ⟨⟩) htype) (by rintro ⟨⟩))
      ((hx.step.trans hstep₂).trans (FileStep.of_file ..)) ?_ ?_ (fun y hy => ?_) (by rw [hs₂])
    · simp only [Function.update_self]
      rw [hfile₂, hx.ref]
    · simp only [Function.update_self]
    · simp only [Function.update_of_ne hy, hfile₂]
      exact hx.old y hy

theorem safe_sysClose (h : Owns L strict s free) (hlive : (s.proc p).status = .live)
    {fd : Fin NOFILE} : Safe L strict (sysClose L p fd) s :=
  h.safe_of_files fun hf => wp_sysClose hf (fun _ t _ _ => (Fine.of_files strict t).1)
    (fun _ => ⟨⟨free, hf, FileStep.refl _ _⟩, id⟩) fun _ _ free' hfd h' hstep hfile hproc =>
      ⟨⟨free', h', hstep⟩, fun hs => hs.of_counted hlive hproc (hs.counted.clear hfd hproc hfile)⟩

theorem safe_sysDup (h : Owns L strict s free) (hlive : (s.proc p).status = .live)
    {fd : Fin NOFILE} : Safe L strict (sysDup p fd) s :=
  h.safe_of_files fun hf => wp_sysDup hf (fun _ t _ _ => (Fine.of_files strict t).2)
    (fun _ => ⟨⟨free, hf, FileStep.refl _ _⟩, id⟩) fun x fd' s' _ hfree _ h' hstep hfile hproc =>
      ⟨⟨free, h', hstep⟩, fun hs => hs.of_counted hlive hproc (hs.counted.fill hfree hproc
        (by rw [hfile, Function.update_self]) fun y hy => by rw [hfile, Function.update_of_ne hy])⟩

theorem safe_sysOpen (h : Owns L strict s free) (hlive : (s.proc p).status = .live)
    {readable writable : Bool} : Safe L strict (sysOpen L p readable writable) s :=
  h.safe_of_files fun hf => wp_sysOpen hf
    (fun _ free' h' hstep hproc hsame _ => ⟨⟨free', h', hstep⟩, hsame.accounted hproc⟩)
    fun x fd s' hx hfd _ h' hstep href _ hold hproc => ⟨⟨free, h', hstep⟩, fun hs =>
      hs.of_counted hlive hproc (hs.counted.fill hfd hproc (by rw [href, hx]) hold)⟩

/-! ### Memory of a process -/

/-- A user page of a process is written. -/
theorem Owns.writePage (h : Owns L strict s free) (hused : (s.proc p).status ≠ .unused)
    (hd : SpaceOf L strict s.phys.mem (s.proc p) d) {v : ℕ} (hv : v < 524288)
    (hpres : Present (s.phys.mem.pte d v)) {c : Bytes PGSIZE}
    (hs' : s' = { s with phys :=
      { s.phys with mem := Function.update s.phys.mem (frame (s.phys.mem.pte d v)) c } }) :
    Owns L strict s' free ∧ s'.phys.mem.pte d = s.phys.mem.pte d := by
  obtain ⟨k, hk, hpool⟩ := h.spacePool hused hd
  have hf : frame (s.phys.mem.pte d v) ∈ pages (s.phys.mem.pte d) :=
    mem_pages.mpr ⟨v, mem_userPages.mpr hv, hpres, rfl⟩
  obtain ⟨hdir, -, hpte⟩ := DirPool.write hpool (Multiset.mem_add.mpr (Or.inl hf)) rfl (c := c)
  refine ⟨h.setSpace (p := p) (d := d) (k := k) ?_ (fun f hf' => ?_) ?_ hk hused
    (hs'.trans (update_same ..)), by rw [hs', hpte]⟩
  · rw [SpacePool, hpte]
    exact hdir
  · refine Function.update_of_ne ?_ _ _
    rintro rfl
    rcases hf' with hf' | hf'
    · exact hf' (Pool.mem_of_taken (spacePool_iff.mp hpool) (Multiset.mem_add.mpr
        (Or.inl (Multiset.mem_cons_of_mem (Multiset.mem_add.mpr (Or.inr hf))))))
    · exact Multiset.notMem_zero _ hf'
  · refine ⟨hd.pgdir, hd.kstack, hd.bound, ?_, ?_⟩
    · rw [hpte]
      exact hd.kernel
    · rw [hpte]
      exact hd.covers

theorem safe_userStore (h : Owns L strict s free) (hlive : (s.proc p).status = .live) {va : ℕ}
    {b : UInt8} : Safe L strict (userStore p va b) s := by
  have hused : (s.proc p).status ≠ .unused := by
    rw [hlive]
    exact nofun
  obtain ⟨d, hd⟩ := h.space p hused
  simp only [Safe, userStore, wp_bind]
  rw [wp_pgdirOf hd.pgdir]
  simp only [wp_get]
  rw [wp_ite]
  refine ⟨fun hok => ?_, fun _ => Fine.of_fault strict s⟩
  have hlow : va / PGSIZE < 524288 := by
    by_contra hhigh
    have huser := hok.2.2.2
    rw [hd.kernel _ (Nat.le_of_not_lt hhigh)] at huser
    exact not_user_kvm L _ huser
  simp only [wp_vm, wp_modify]
  exact ⟨⟨free, (h.writePage hused hd hlow hok.2.1 rfl).1⟩, (Same.phys s _).accounted⟩

theorem wp_vm_bind {β : Type} {x : M β} {g : β → M α} {Q : α → State → Prop} :
    Wp (vm (x >>= g)) s Q E ↔ Wp (vm x) s (fun b t => Wp (vm (g b)) t Q E) E := by
  simp only [wp_vm, wp_bind]

/-- The kernel can write to the page of the address `va`. -/
def Mem.Storable (m : Mem) (d va : ℕ) : Prop :=
  Present (m.pte d (va / PGSIZE)) ∧ Writable (m.pte d (va / PGSIZE))

/-- A byte is stored in the memory of process `p`. -/
theorem Owns.wp_storeByte (h : Owns L strict s free) (hused : (s.proc p).status ≠ .unused)
    (hd : (s.proc p).pgdir = some d) {va : ℕ} (hva : va < KERNBASE) {b : UInt8}
    {Q : Unit → State → Prop} (hE : ¬ s.phys.mem.Storable d va → E .fault s)
    (hQ : ∀ s', Owns L strict s' free → s'.phys.mem.pte d = s.phys.mem.pte d →
      s' = { s with phys := s'.phys } → Q () s') :
    Wp (vm (storeByte L d va b)) s Q E := by
  obtain ⟨d', hd'⟩ := h.space p hused
  obtain rfl : d = d' := Option.some.inj (hd.symm.trans hd'.pgdir)
  simp only [wp_vm, storeByte, kernelFrame, wp_bind]
  rw [if_pos hva]
  simp only [wp_bind, wp_get]
  rw [wp_ite]
  refine ⟨fun hok => ?_, fun hno => (wp_throw _).mpr (hE fun hok => hno ⟨hok.1, fun _ => hok.2⟩)⟩
  simp only [wp_pure, wp_modify]
  have hlow : va / PGSIZE < 524288 := by
    simp only [KERNBASE, PGSIZE] at *
    omega
  obtain ⟨howns, hpte⟩ := h.writePage hused hd' hlow hok.1 rfl
  exact hQ _ howns hpte rfl

/-- An `int` is stored in the memory of process `p`. -/
theorem Owns.wp_storeInt (h : Owns L strict s free) (hused : (s.proc p).status ≠ .unused)
    (hd : (s.proc p).pgdir = some d) {va w : ℕ} (hva : va + 4 ≤ KERNBASE) {Q : Unit → State → Prop}
    (hE : (∃ a, va ≤ a ∧ a < va + 4 ∧ ¬ s.phys.mem.Storable d a) → ∀ t, E .fault t)
    (hQ : ∀ s', Owns L strict s' free → s'.phys.mem.pte d = s.phys.mem.pte d →
      s' = { s with phys := s'.phys } → Q () s') :
    Wp (vm (storeInt L d va w)) s Q E := by
  -- a store does not change the entries, so all four are about the entries before the first one
  have hbyte : ∀ {t : State} {a : ℕ} {b : UInt8} {Q' : Unit → State → Prop}, Owns L strict t free →
      t.phys.mem.pte d = s.phys.mem.pte d → t = { s with phys := t.phys } → va ≤ a → a < va + 4 →
      (∀ t', Owns L strict t' free → t'.phys.mem.pte d = s.phys.mem.pte d →
        t' = { s with phys := t'.phys } → Q' () t') → Wp (vm (storeByte L d a b)) t Q' E := by
    intro t a b Q' ht hpte hst hlo hhi hQ'
    have hproc : t.proc = s.proc := by rw [hst]
    refine ht.wp_storeByte (p := p) (hproc ▸ hused) (hproc ▸ hd) (by omega) (fun hno => ?_)
      fun t' ht' hpte' hst' => hQ' t' ht' (hpte'.trans hpte) ?_
    · rw [Mem.Storable, hpte] at hno
      exact hE ⟨a, hlo, hhi, hno⟩ t
    · rw [hst', hst]
  simp only [storeInt, wp_vm_bind]
  refine hbyte h rfl rfl (Nat.le_refl va) (by omega) fun s₁ h₁ hpte₁ hs₁ => ?_
  refine hbyte h₁ hpte₁ hs₁ (by omega) (by omega) fun s₂ h₂ hpte₂ hs₂ => ?_
  refine hbyte h₂ hpte₂ hs₂ (by omega) (by omega) fun s₃ h₃ hpte₃ hs₃ => ?_
  exact hbyte h₃ hpte₃ hs₃ (by omega) (by omega) hQ

/-- Two of them, one after the other. -/
theorem Owns.wp_storeInts (h : Owns L strict s free) (hused : (s.proc p).status ≠ .unused)
    (hd : (s.proc p).pgdir = some d) {va w w' : ℕ} (hva : va + 8 ≤ KERNBASE)
    {Q : Unit → State → Prop}
    (hE : (∃ a, va ≤ a ∧ a < va + 8 ∧ ¬ s.phys.mem.Storable d a) → ∀ t, E .fault t)
    (hQ : ∀ s', Owns L strict s' free → s'.phys.mem.pte d = s.phys.mem.pte d →
      s' = { s with phys := s'.phys } → Q () s') :
    Wp (vm (storeInt L d va w)) s (fun _ t => Wp (vm (storeInt L d (va + 4) w')) t Q E) E := by
  refine h.wp_storeInt hused hd (by omega) ?_ fun s₁ h₁ hpte₁ hs₁ => ?_
  · rintro ⟨a, ha, ha', hno⟩
    exact hE ⟨a, ha, by omega, hno⟩
  · have hproc : s₁.proc = s.proc := by rw [hs₁]
    refine h₁.wp_storeInt (p := p) (hproc ▸ hused) (hproc ▸ hd) (by omega) ?_
      fun s₂ h₂ hpte₂ hs₂ => hQ s₂ h₂ (hpte₂.trans hpte₁) (by rw [hs₂, hs₁])
    rintro ⟨a, ha, ha', hno⟩
    rw [Mem.Storable, hpte₁] at hno
    exact hE ⟨a, by omega, by omega, hno⟩

theorem le_of_argptr {sz fd : ℕ} (hfd : fd < 2 ^ 32) (hsz : sz < KERNBASE)
    (h : ¬ argptr sz fd 8 = none) : fd + 8 ≤ KERNBASE := by
  rw [argptr] at h
  split at h
  · exact absurd rfl h
  · rename_i hok
    have hsize : (8 : BitVec 32).toNat = 8 := rfl
    simp only [KERNBASE] at *
    omega

/-- Both ends of a new pipe are closed again. -/
theorem Takes.wp_undo {file : Fin NFILE → File} {f0 f1 : Fin NFILE} {X : Multiset ℕ}
    (h : Takes file s.file f0 f1) (hs : FilePool L X s free) {Q : Bool → State → Prop}
    (hQ : ∀ s' free', FilePool L X s' free' → FileStep X s s' → s'.proc = s.proc →
      SameOpen file s'.file → Q false s') :
    Wp (do
      fileclose L f0
      fileclose L f1
      return false) s Q E := by
  simp only [wp_bind, wp_pure]
  refine wp_fileclose hs (fun href => ?_) fun s₂ free₂ h₂ hstep₂ hproc₂ hfile₂ =>
    wp_fileclose h₂ (fun href => ?_) fun s₃ free₃ h₃ hstep₃ hproc₃ hfile₃ =>
      hQ s₃ free₃ h₃ (hstep₂.trans hstep₃) (hproc₃.trans hproc₂) (hfile₃ ▸ h.undo hfile₂)
  · rw [h.ref.1] at href
    exact absurd href (Nat.lt_irrefl 1)
  · rw [hfile₂, Function.update_of_ne h.ne.symm, h.ref.2] at href
    exact absurd href (Nat.lt_irrefl 1)

/-- **`pipe`** opens a pipe in two slots that were free, or leaves the files as they were if there
is not room for it. It stops only if the caller cannot write to the memory that is to be filled. -/
theorem wp_sysPipe (h : Owns L strict s free) (hused : (s.proc p).status ≠ .unused)
    (hd : SpaceOf L strict s.phys.mem (s.proc p) d) {fd : ℕ} (hfd : fd < 2 ^ 32)
    {Q : Bool → State → Prop}
    (hE : (∃ a, fd ≤ a ∧ a < fd + 8 ∧ ¬ s.phys.mem.Storable d a) → ∀ t, E .fault t)
    (hfalse : ∀ s' free', Settled L strict s free d s' free' → s'.proc = s.proc →
      SameOpen s.file s'.file → (argptr (s.proc p).sz fd 8 = none ∨ free = [] ∨
        (∀ x y, (s.file x).ref = 0 → (s.file y).ref = 0 → x = y) ∨
        ∀ fd fd', (s.proc p).ofile fd = none → (s.proc p).ofile fd' = none → fd = fd') → Q false s')
    (htrue : ∀ f0 f1 g fd0 fd1 s' free', Settled L strict s free d s' free' →
      Opens s.file s'.file f0 f1 g →
      (∀ fd, (s.proc p).ofile fd = none → fd0 ≤ fd ∧ (fd ≠ fd0 → fd1 ≤ fd)) →
      fd0 < fd1 → (s.proc p).ofile fd0 = none → (s.proc p).ofile fd1 = none →
      s'.proc = Function.update s.proc p { s.proc p with
        ofile := Function.update (Function.update (s.proc p).ofile fd0 (some f0)) fd1 (some f1) } →
      Q true s') : Wp (sysPipe L p fd) s Q E := by
  simp only [sysPipe, wp_bind, wp_getProc]
  rw [wp_ite]
  refine ⟨fun hbad => ?_, fun hrange => ?_⟩
  · have hsame : Settled L strict s free d s free := ⟨h, rfl, Nat.le_add_right _ _⟩
    exact hfalse s free hsame rfl (SameOpen.refl _) (.inl hbad)
  have hva := le_of_argptr hfd hd.bound hrange
  rw [wp_bind]
  refine wp_pipealloc h.filePool (fun s₁ free₁ h₁ hstep₁ hproc₁ hsame hfew => ?_)
    fun rf wf g s₁ free₁ h₁ hstep₁ hproc₁ hopens => ?_
  · exact hfalse s₁ free₁ (h.settle hused hd h₁ hstep₁) hproc₁ hsame
      (.inr (hfew.imp_right .inl))
  -- both ends can be closed again
  have hundo : ∀ {t : State} {free₂ : List ℕ}, FilePool L (free + pipes s.file) t free₂ →
      FileStep (free + pipes s.file) s t → t.proc = s.proc → t.file = s₁.file →
      (∀ fd fd', (s.proc p).ofile fd = none → (s.proc p).ofile fd' = none → fd = fd') →
      Wp (do
        fileclose L rf
        fileclose L wf
        return false) t Q E := by
    intro t free₂ ht hstep hproc hfile hfew
    refine (hfile ▸ hopens.toTakes).wp_undo ht fun s₃ free₃ h₃ hstep₃ hproc₃ hsame => ?_
    exact hfalse s₃ free₃ (h.settle hused hd h₃ (hstep.trans hstep₃)) (hproc₃.trans hproc) hsame
      (.inr (.inr (.inr hfew)))
  simp only [wp_bind]
  refine wp_fdalloc h₁ (fun hall => ?_) fun fd0 s₂ hfd0 hfirst₀ hs₂ h₂ hstep₂ => ?_
  · rw [hproc₁] at hall
    exact hundo h₁ hstep₁ hproc₁ rfl fun fd _ hfd => absurd hfd (hall fd)
  rw [hproc₁] at hfd0 hfirst₀ hs₂
  rw [wp_bind]
  have hofile₂ : (s₂.proc p).ofile = Function.update (s.proc p).ofile fd0 (some rf) := by
    rw [hs₂]
    simp only [Function.update_self]
  refine wp_fdalloc h₂ (fun hall => ?_) fun fd1 s₃ hfd1 hfirst₁ hs₃ h₃ hstep₃ => ?_
  · obtain ⟨h₃, hstep₃⟩ := h₂.setOfile p fd0 (r := none) rfl
    rw [wp_bind, wp_setProc]
    refine hundo h₃ ((hstep₁.trans hstep₂).trans hstep₃) ?_ ?_ fun fd fd' hfd hfd' => ?_
    · simp only [hs₂, Function.update_self, Function.update_idem]
      rw [← hfd0, Function.update_eq_self, Function.update_eq_self]
    · rw [hs₂]
    · have hother : ∀ fd, (s.proc p).ofile fd = none → fd = fd0 := fun fd hfd => by
        by_contra hne
        refine hall fd ?_
        rw [hofile₂, Function.update_of_ne hne, hfd]
      rw [hother fd hfd, hother fd' hfd']
  have hne : fd1 ≠ fd0 := by
    rintro rfl
    rw [hofile₂, Function.update_self] at hfd1
    cases hfd1
  rw [hofile₂, Function.update_of_ne hne] at hfd1
  have hstep := (hstep₁.trans hstep₂).trans hstep₃
  have hsettled := h.settle hused hd h₃ hstep
  have hproc₃ : s₃.proc = Function.update s.proc p { s.proc p with
      ofile :=
        Function.update (Function.update (s.proc p).ofile fd0 (some rf)) fd1 (some wf) } := by
    rw [hs₃]
    simp only [hs₂, Function.update_self, Function.update_idem]
  have hused₃ : (s₃.proc p).status ≠ .unused := by
    rw [hproc₃, Function.update_self]
    exact hused
  have hd₃ : (s₃.proc p).pgdir = some d := by
    rw [hproc₃, Function.update_self]
    exact hd.pgdir
  simp only [wp_bind, wp_pure]
  rw [wp_pgdirOf hd₃]
  refine hsettled.owns.wp_storeInts hused₃ hd₃ hva (fun hno => hE ?_) fun s₄ h₄ hpte₄ hs₄ => ?_
  · simpa only [Mem.Storable, hsettled.pte] using hno
  have hfile₄ : s₄.file = s₁.file := by rw [hs₄, hs₃, hs₂]
  refine htrue rf wf g fd0 fd1 s₄ _ ⟨h₄, hpte₄.trans hsettled.pte, hsettled.length⟩
    (hfile₄ ▸ hopens) (fun fd hfd => ⟨?_, fun hnefd => ?_⟩) ?_ hfd0 hfd1 (by rw [hs₄, hproc₃])
  · exact Fin.not_lt.mp fun hlt => hfirst₀ fd hlt hfd
  · refine Fin.not_lt.mp fun hlt => hfirst₁ fd hlt ?_
    rw [hofile₂, Function.update_of_ne hnefd, hfd]
  · exact lt_of_le_of_ne (Fin.not_lt.mp fun hlt => hfirst₀ fd1 hlt hfd1) hne.symm

/-- Two slots are filled with the files of a new pipe. -/
theorem Takes.counted {f0 f1 : Fin NFILE} {fd0 fd1 : Fin NOFILE} (h : Takes s.file s'.file f0 f1)
    (hfd0 : (s.proc p).ofile fd0 = none) (hfd1 : (s.proc p).ofile fd1 = none) (hne : fd1 ≠ fd0)
    (hproc : s'.proc = Function.update s.proc p { s.proc p with
      ofile := Function.update (Function.update (s.proc p).ofile fd0 (some f0)) fd1 (some f1) })
    (hs : Counted s) : Counted s' := by
  obtain ⟨t, ht⟩ : ∃ t : State, t = { s with
    proc := s.setSlot p fd0 (some f0), file := Function.update s.file f0 (s'.file f0) } := ⟨_, rfl⟩
  have hcount : Counted t := by
    refine hs.fill (x := f0) hfd0 (by rw [ht]) ?_ fun y hy => ?_
    · simp only [ht, Function.update_self, h.ref.1, h.free.1]
    · simp only [ht, Function.update_of_ne hy]
  have hself : t.proc p =
      { s.proc p with ofile := Function.update (s.proc p).ofile fd0 (some f0) } := by
    simp only [ht, State.setSlot, Function.update_self]
  have hfree : (t.proc p).ofile fd1 = none := by
    rw [hself]
    simp only [Function.update_of_ne hne, hfd1]
  refine hcount.fill (x := f1) hfree ?_ ?_ fun y hy => ?_
  · rw [State.setSlot, hself, hproc, ht, State.setSlot, Function.update_idem]
  · simp only [ht, Function.update_of_ne h.ne.symm, h.ref.2, h.free.2]
  · by_cases hy0 : y = f0
    · simp only [ht, hy0, Function.update_self]
    · simp only [ht, Function.update_of_ne hy0, h.old y hy0 hy]

/-- **`pipe`** keeps the invariant. -/
theorem safe_sysPipe (h : Owns L strict s free) (hlive : (s.proc p).status = .live) {fd : ℕ}
    (hfd : fd < 2 ^ 32) : Safe L strict (sysPipe L p fd) s := by
  have hused : (s.proc p).status ≠ .unused := by
    rw [hlive]
    exact nofun
  obtain ⟨d, hd⟩ := h.space p hused
  exact wp_sysPipe h hused hd hfd (fun _ => Fine.of_fault strict)
    (fun s' free' h' hproc hsame _ => ⟨⟨free', h'.owns⟩, hsame.accounted hproc⟩)
    fun _ _ _ _ _ s' free' h' hopens _ hlt hfd0 hfd1 hproc => ⟨⟨free', h'.owns⟩, fun hs =>
      hs.of_counted hlive hproc (hopens.counted hfd0 hfd1 hlt.ne' hproc hs.counted)⟩

/-! ### `exec` -/

/-- **The commitment to a new image**: the old one is given back. -/
theorem Owns.wp_commit (h : Owns L strict s free) (hused : (s.proc p).status ≠ .unused)
    (hd : SpaceOf L strict s.phys.mem (s.proc p) d) {img : Loaded} {p₁ : Phys} {free₁ : List ℕ}
    (h₁ : ImageOf L (free + (s.proc p).frames s.phys.mem) ((s.proc p).frames s.phys.mem) p₁ free₁
      img.pgdir img.sz)
    (hkeep₁ : Keeps (free + (s.proc p).frames s.phys.mem) ((s.proc p).frames s.phys.mem)
      s.phys.mem p₁.mem) {Q : Bool → State → Prop}
    (hQ : ∀ s' free', Owns L strict s' free' →
      s' = { s with
        phys := s'.phys
        proc := Function.update s.proc p
          { s.proc p with pgdir := some img.pgdir, sz := img.sz } } → Q true s') :
    Wp (do
      setProc p fun q => { q with pgdir := some img.pgdir, sz := img.sz }
      vm (freevm L (s.proc p).pgdir)
      return true) { s with phys := p₁ } Q E := by
  obtain ⟨k, hk, hframes⟩ := hd.frames hused
  have hmem : ∀ f ∈ (s.proc p).frames s.phys.mem, p₁.mem f = s.phys.mem f := fun f hf =>
    hkeep₁ f (Or.inr hf)
  have howned : owned p₁.mem d + {k} = (s.proc p).frames s.phys.mem := by
    rw [← Process.frames_eq hused hd.pgdir hk]
    exact Process.frames_keep hmem
  have hold : SpacePool L (free + (s.proc p).frames s.phys.mem) p₁ free₁ d
      (owned p₁.mem img.pgdir + {k}) := by
    rw [spacePool_iff, add_left_comm, howned]
    exact spacePool_iff.mp h₁.pool
  simp only [wp_bind, wp_setProc, wp_vm, hd.pgdir, wp_pure]
  refine wp_freevm hold fun p₂ free₂ h₂ hkeep₂ => ?_
  obtain ⟨hpte, hnew⟩ := owned_keep (d := img.pgdir) fun f hf =>
    hkeep₂ f (Or.inr (Multiset.mem_add.mpr (Or.inl hf)))
  refine hQ _ free₂ (h.setSpace (p := p) (d := img.pgdir) (k := k) ?_ ?_ ?_ ?_ ?_ rfl) rfl
  · rw [spacePool_iff, hnew]
    exact h₂
  · exact (hkeep₁.mono fun f hf => absurd hf (Multiset.notMem_zero f)).trans
      (hkeep₂.mono fun f hf => absurd hf (Multiset.notMem_zero f))
  · refine ⟨rfl, hd.kstack, h₁.covers.bound, ?_, fun _ => ?_⟩
    · rw [hpte]
      exact h₁.kernel
    · rw [hpte]
      exact h₁.covers
  · exact hk
  · exact hused

/-- **`exec`** keeps the invariant. -/
theorem safe_sysExec (h : Owns L strict s free) (hlive : (s.proc p).status = .live)
    {ip : Option Image} {uargv : ℕ} : Safe L strict (sysExec L p ip uargv) s := by
  have hused : (s.proc p).status ≠ .unused := by
    rw [hlive]
    exact nofun
  obtain ⟨d, hd⟩ := h.space p hused
  simp only [Safe, sysExec, wp_bind, wp_getProc]
  rw [wp_pgdirOf hd.pgdir, wp_vm]
  refine (reads_fetchArgv uargv MAXARG 0).wp (fun r hr => ?_) (Fine.of_fault strict _)
  cases r with
  | none => exact ⟨⟨free, h⟩, id⟩
  | some argv =>
    cases ip with
    | none => exact ⟨⟨free, h⟩, id⟩
    | some ip =>
      rw [wp_bind, wp_vm]
      obtain ⟨hargc, hargv⟩ := (Wp.of_ok hr).mp (wp_fetchArgv_length ..) argv rfl
      have hlen : ∀ a ∈ argv, a.length + 1 ≤ KERNBASE := fun a ha => (hargv a ha).trans hd.bound
      refine wp_exec (h.part p) hargc hlen (fun _ => Fine.of_fault strict _)
        (fun img p₁ free₁ h₁ hkeep₁ => ?_) fun p₁ free₁ h₁ hkeep₁ => ?_
      · exact h.wp_commit hused hd h₁ hkeep₁ fun s' free' h' hs' => h'.kept
          (Same.setProc (p := p)
            (r := { s.proc p with pgdir := some img.pgdir, sz := img.sz }) (by rw [hs'])
            (by rw [hs']) rfl id)
      · have hmem : ∀ f ∈ (s.proc p).frames s.phys.mem, p₁.mem f = s.phys.mem f := fun f hf =>
          hkeep₁ f (Or.inr hf)
        refine ⟨⟨free₁, h.setProcess (p := p) ?_ ?_ (fun _ => ⟨d, hd.keep hused hmem⟩)
          (update_same ..)⟩, (Same.phys s p₁).accounted⟩
        · rw [Process.frames_keep hmem]
          exact h₁
        · exact hkeep₁.mono fun f hf => absurd hf (Multiset.notMem_zero f)

/-! ### The machine -/

/-- The condition under which address spaces stay complete: `sbrk` does not make one empty. -/
def Allowed (s : State) : Event → Prop
  | .sbrk p n => n.toInt < 0 → ((s.proc p).sz + n.toNat) % 2 ^ 32 ≠ 0
  | _ => True

theorem Safe.call {x : K α} (hx : (s.proc p).status = .live → Safe L strict x s)
    (hs' : s.call p x = some s') : Kept L strict s s' := by
  rw [State.call] at hs'
  split at hs'
  · rename_i hlive
    obtain ⟨-, hkept⟩ := final_of_wp (hx hlive) hs'
    exact hkept
  · cases hs'

/-- **Every step keeps the invariant.** -/
theorem Owns.step (h : Owns L strict s free) {e : Event} (hok : strict → Allowed s e)
    (hs' : step L s e = some s') : Kept L strict s s' := by
  cases e with
  | fork p => exact Safe.call (safe_fork h) hs'
  | exec p ip uargv => exact Safe.call (fun hlive => safe_sysExec h hlive) hs'
  | sbrk p n => exact Safe.call (fun hlive => safe_growproc h hlive hok) hs'
  | pipe p fd => exact Safe.call (fun hlive => safe_sysPipe h hlive fd.isLt) hs'
  | close p fd => exact Safe.call (fun hlive => safe_sysClose h hlive) hs'
  | dup p fd => exact Safe.call (fun hlive => safe_sysDup h hlive) hs'
  | «open» p readable writable => exact Safe.call (fun hlive => safe_sysOpen h hlive) hs'
  | exit p => exact Safe.call (safe_exit h) hs'
  | wait p => exact Safe.call (fun _ => safe_wait h) hs'
  | store p va b => exact Safe.call (fun hlive => safe_userStore h hlive) hs'

/-- **Every run keeps the invariant**, for complete address spaces if its steps are allowed. -/
theorem Owns.reach {s₀ : State} {ok : State → Event → Prop} (h₀ : Owns L strict s₀ free)
    (h : Reach (Vm.step L) ok s₀ s) (hok : ∀ t e, ok t e → strict → Allowed t e) :
    Kept L strict s₀ s := by
  refine Reach.induct (P := fun t => Kept L strict s₀ t) h ⟨⟨free, h₀⟩, id⟩ ?_
  rintro t e t' ⟨⟨free', ht⟩, haccounted⟩ he hstep
  exact (ht.step (hok t e he) hstep).imp_right fun hkept hs => hkept (haccounted hs)

end Vm

end Xv6
