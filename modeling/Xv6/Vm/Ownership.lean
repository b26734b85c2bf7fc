import Xv6.Vm.Files

/-!
# Every page has one owner

The pages that `kinit1` and `kinit2` hand to the allocator are at any time divided among the free
list, the kernel's page directory, the stacks of the CPUs, the processes and the pipes. A process
has a page directory, the page tables and user pages that the page directory leads to, and a kernel
stack. The division is a sum of multisets, so each page occurs in one place and once.

Every system call keeps this, whether it succeeds or runs out of memory. What a call does to one
process is proved in the pool that consists of the free pages and the pages of that process; all
other pages are then outside the pool.

## Main definitions

* `State.taken` — the pages of all owners
* `Owns` — the invariant

## Main results

* `Owns.setProcess`, `Owns.fileStep` — one owner changes
-/

namespace Xv6

namespace Vm

open Proc (Slot slots)

variable {L : Layout} {strict : Prop} {s s' : State} {free free' : List ℕ} {m m' : Mem} {d k f : ℕ}
variable {p : Slot} {q q' : Process}

/-- The pages that `kinit1` and `kinit2` hand to the allocator: from `end` to `PHYSTOP`. -/
@[irreducible] def Layout.handed (L : Layout) : Multiset ℕ :=
  ((Finset.range (PHYSTOP / PGSIZE)).filter L.Usable).val

/-- The pages of a process. -/
def Process.frames (m : Mem) (q : Process) : Multiset ℕ :=
  if q.status = .unused then 0 else q.pgdir.elim 0 (owned m) + q.kstack.elim 0 ({·})

/-- The pages of the kernel's page directory and of the stacks of the CPUs. -/
def State.kernel (s : State) : Multiset ℕ := s.kpgdir.elim 0 (owned s.phys.mem) + s.cpuStacks

/-- The pages of all owners. -/
def State.taken (s : State) : Multiset ℕ :=
  s.kernel + ∑ p, (s.proc p).frames s.phys.mem + pipes s.file

/-- The address space of a process has page directory `d`. If `strict` holds then exactly the pages
below `sz` are mapped in it. -/
structure SpaceOf (L : Layout) (strict : Prop) (m : Mem) (q : Process) (d : ℕ) : Prop where
  pgdir : q.pgdir = some d
  kstack : ∃ k, q.kstack = some k
  bound : q.sz < KERNBASE
  kernel : ∀ v, 2 ^ 19 ≤ v → m.pte d v = kvm L v
  covers : strict → Covers (m.pte d) q.sz

/-- **The invariant**: the pages are divided among the free list and their owners. -/
structure Owns (L : Layout) (strict : Prop) (s : State) (free : List ℕ) : Prop where
  pool : Pool L L.handed s.phys free s.taken
  files : PipesOk s.file s.phys.mem
  space : ∀ p, (s.proc p).status ≠ .unused → ∃ d, SpaceOf L strict s.phys.mem (s.proc p) d

/-! ### Owners that do not change -/

theorem owned_keep (h : ∀ f ∈ owned m d, m' f = m f) :
    m'.pte d = m.pte d ∧ owned m' d = owned m d := by
  refine (owned_congr fun f hf => h f ?_).2
  rcases hf with rfl | hf
  · exact Multiset.mem_cons_self ..
  · exact Multiset.mem_cons_of_mem (Multiset.mem_add.mpr (Or.inl hf))

theorem Process.frames_of_unused (h : q.status = .unused) : q.frames m = 0 := if_pos h

theorem Process.frames_eq (h : q.status ≠ .unused) (hd : q.pgdir = some d)
    (hk : q.kstack = some k) :
    q.frames m = owned m d + {k} := by
  rw [Process.frames, if_neg h, hd, hk]
  rfl

theorem Process.frames_keep (h : ∀ f ∈ q.frames m, m' f = m f) : q.frames m' = q.frames m := by
  by_cases hunused : q.status = .unused
  · rw [frames_of_unused hunused, frames_of_unused hunused]
  · rw [frames, if_neg hunused] at h ⊢
    rw [frames, if_neg hunused]
    cases hd : q.pgdir with
    | none => simp only [Option.elim_none]
    | some d =>
      rw [hd] at h
      simp only [Option.elim_some] at h ⊢
      rw [(owned_keep fun f hf => h f (Multiset.mem_add.mpr (Or.inl hf))).2]

theorem SpaceOf.frames (h : SpaceOf L strict m q d) (hused : q.status ≠ .unused) :
    ∃ k, q.kstack = some k ∧ q.frames m = owned m d + {k} := by
  obtain ⟨k, hk⟩ := h.kstack
  exact ⟨k, hk, Process.frames_eq hused h.pgdir hk⟩

/-- A process that does not change, in memory that does not change in its pages. -/
theorem SpaceOf.keep (h : SpaceOf L strict m q d) (hused : q.status ≠ .unused)
    (hmem : ∀ f ∈ q.frames m, m' f = m f) : SpaceOf L strict m' q d := by
  obtain ⟨k, hk, hframes⟩ := h.frames hused
  obtain ⟨hpte, -⟩ := owned_keep (d := d) fun f hf => hmem f (by
    rw [hframes]
    exact Multiset.mem_add.mpr (Or.inl hf))
  refine ⟨h.pgdir, h.kstack, h.bound, ?_, ?_⟩
  · rw [hpte]
    exact h.kernel
  · rw [hpte]
    exact h.covers

theorem kernel_keep {s s' : State} (hkpgdir : s'.kpgdir = s.kpgdir)
    (hstacks : s'.cpuStacks = s.cpuStacks)
    (hmem : ∀ f ∈ s.kernel, s'.phys.mem f = s.phys.mem f) : s'.kernel = s.kernel := by
  rw [State.kernel] at hmem
  rw [State.kernel, State.kernel, hkpgdir, hstacks]
  cases hd : s.kpgdir with
  | none => simp only [Option.elim_none]
  | some d =>
    rw [hd] at hmem
    simp only [Option.elim_some] at hmem ⊢
    rw [(owned_keep fun f hf => hmem f (Multiset.mem_add.mpr (Or.inl hf))).2]

/-! ### One owner changes -/

/-- The pages of all owners but the process `p`. -/
def State.others (s : State) (p : Slot) : Multiset ℕ :=
  s.kernel + ∑ q ∈ Finset.univ.erase p, (s.proc q).frames s.phys.mem + pipes s.file

theorem State.taken_eq (s : State) (p : Slot) :
    s.taken = (s.proc p).frames s.phys.mem + s.others p := by
  rw [taken, others, ← Finset.add_sum_erase _ _ (Finset.mem_univ p)]
  abel

theorem State.mem_others_of_kernel (h : f ∈ s.kernel) : f ∈ s.others p :=
  Multiset.mem_add.mpr (Or.inl (Multiset.mem_add.mpr (Or.inl h)))

theorem State.mem_others_of_pipes (h : f ∈ pipes s.file) : f ∈ s.others p :=
  Multiset.mem_add.mpr (Or.inr h)

theorem State.mem_others_of_frames {r : Slot} (hr : r ≠ p) (h : f ∈ (s.proc r).frames s.phys.mem) :
    f ∈ s.others p :=
  Multiset.mem_add.mpr (Or.inl (Multiset.mem_add.mpr (Or.inr (Multiset.mem_sum.mpr
    ⟨r, Finset.mem_erase.mpr ⟨hr, Finset.mem_univ r⟩, h⟩))))

/-- The pool for what happens to one process. -/
theorem Owns.part (h : Owns L strict s free) (p : Slot) :
    Pool L (free + (s.proc p).frames s.phys.mem) s.phys free ((s.proc p).frames s.phys.mem) := by
  have hpool := h.pool
  rw [s.taken_eq p] at hpool
  exact hpool.part

/-- **One process changes**, with the pages that it has and the free ones. -/
theorem Owns.setProcess (h : Owns L strict s free) {p' : Phys}
    (hpool : Pool L (free + (s.proc p).frames s.phys.mem) p' free' (q'.frames p'.mem))
    (hkeep : Keeps (free + (s.proc p).frames s.phys.mem) 0 s.phys.mem p'.mem)
    (hspace : q'.status ≠ .unused → ∃ d, SpaceOf L strict p'.mem q' d)
    (hs' : s' = { s with phys := p', proc := Function.update s.proc p q' }) :
    Owns L strict s' free' := by
  have hsplit := h.pool
  rw [s.taken_eq p] at hsplit
  have hmem : ∀ f ∈ s.others p, p'.mem f = s.phys.mem f := fun f hf =>
    hkeep f (Or.inl (hsplit.notMem_part hf))
  have hother : ∀ r ≠ p, ∀ f ∈ (s.proc r).frames s.phys.mem, p'.mem f = s.phys.mem f :=
    fun r hr f hf => hmem f (State.mem_others_of_frames hr hf)
  have hself : s'.proc p = q' := by
    subst hs'
    exact Function.update_self ..
  have hproc : ∀ r ≠ p, s'.proc r = s.proc r := by
    subst hs'
    exact fun r hr => Function.update_of_ne hr ..
  obtain ⟨hphys, hfile, hkpgdir, hstacks⟩ : s'.phys = p' ∧ s'.file = s.file ∧ s'.kpgdir = s.kpgdir ∧
      s'.cpuStacks = s.cpuStacks := by
    subst hs'
    exact ⟨rfl, rfl, rfl, rfl⟩
  have htaken : s'.taken = q'.frames p'.mem + s.others p := by
    have hkernel : s'.kernel = s.kernel :=
      kernel_keep hkpgdir hstacks fun f hf => hphys ▸ hmem f (State.mem_others_of_kernel hf)
    rw [s'.taken_eq p, State.others, State.others, hkernel, hself, hphys, hfile]
    refine congrArg (fun Y => _ + (_ + Y + _)) (Finset.sum_congr rfl fun r hr => ?_)
    have hr := Finset.ne_of_mem_erase hr
    rw [hproc r hr]
    exact Process.frames_keep (hother r hr)
  refine ⟨?_, ?_, fun r hr => ?_⟩
  · rw [htaken, hphys]
    exact hsplit.join hpool
  · rw [hfile, hphys]
    exact h.files.congr_mem fun f hf => hmem f (State.mem_others_of_pipes hf)
  · rw [hphys]
    by_cases hrp : r = p
    · subst hrp
      rw [hself] at hr ⊢
      exact hspace hr
    · rw [hproc r hrp] at hr ⊢
      obtain ⟨d, hd⟩ := h.space r hr
      exact ⟨d, hd.keep hr (hother r hrp)⟩

/-- Fields of processes change that say nothing about memory. -/
theorem Owns.relabel (h : Owns L strict s free) {proc : Slot → Process}
    (hproc : ∀ r, ((proc r).status = .unused ↔ (s.proc r).status = .unused) ∧
      (proc r).sz = (s.proc r).sz ∧ (proc r).pgdir = (s.proc r).pgdir ∧
      (proc r).kstack = (s.proc r).kstack)
    (hs' : s' = { s with proc := proc }) : Owns L strict s' free := by
  subst hs'
  have hframes : ∀ r, (proc r).frames s.phys.mem = (s.proc r).frames s.phys.mem := fun r => by
    obtain ⟨hstatus, -, hpgdir, hkstack⟩ := hproc r
    rw [Process.frames, Process.frames, hpgdir, hkstack]
    simp only [hstatus]
  refine ⟨?_, h.files, fun r hr => ?_⟩
  · rw [State.taken]
    simp only [hframes]
    exact h.pool
  · obtain ⟨hstatus, hsz, hpgdir, hkstack⟩ := hproc r
    obtain ⟨d, hd⟩ := h.space r fun hun => hr (hstatus.mpr hun)
    exact ⟨d, hpgdir.trans hd.pgdir, hkstack ▸ hd.kstack, hsz ▸ hd.bound, hd.kernel,
      hsz ▸ hd.covers⟩

theorem Owns.relabelProcess (h : Owns L strict s free)
    (hstatus : q'.status = .unused ↔ (s.proc p).status = .unused) (hsz : q'.sz = (s.proc p).sz)
    (hpgdir : q'.pgdir = (s.proc p).pgdir) (hkstack : q'.kstack = (s.proc p).kstack)
    (hs' : s' = { s with proc := Function.update s.proc p q' }) : Owns L strict s' free := by
  refine h.relabel (fun r => ?_) hs'
  by_cases hr : r = p
  · rw [hr, Function.update_self]
    exact ⟨hstatus, hsz, hpgdir, hkstack⟩
  · rw [Function.update_of_ne hr]
    exact ⟨Iff.rfl, rfl, rfl, rfl⟩

/-- The pages of all owners but the pipes. -/
def State.spaces (s : State) : Multiset ℕ := s.kernel + ∑ r, (s.proc r).frames s.phys.mem

theorem State.taken_eq_pipes (s : State) : s.taken = pipes s.file + s.spaces := by
  rw [taken, spaces, Multiset.add_comm]

/-- The pool for what happens to files. -/
theorem Owns.filePool (h : Owns L strict s free) : FilePool L (free + pipes s.file) s free := by
  have hpool := h.pool
  rw [s.taken_eq_pipes] at hpool
  exact ⟨hpool.part, h.files⟩

theorem Owns.keep_spaces (h : Owns L strict s free) (hstep : FileStep (free + pipes s.file) s s') :
    ∀ f ∈ s.spaces, s'.phys.mem f = s.phys.mem f := by
  have hsplit := h.pool
  rw [s.taken_eq_pipes] at hsplit
  exact fun f hf => hstep.keeps f (Or.inl (hsplit.notMem_part hf))

theorem State.mem_spaces_of_frames (h : f ∈ (s.proc p).frames s.phys.mem) : f ∈ s.spaces :=
  Multiset.mem_add.mpr (Or.inr (Multiset.mem_sum.mpr ⟨p, Finset.mem_univ p, h⟩))

/-- **Files change**, with the pages of the pipes and the free ones. -/
theorem Owns.fileStep (h : Owns L strict s free) (h' : FilePool L (free + pipes s.file) s' free')
    (hstep : FileStep (free + pipes s.file) s s') : Owns L strict s' free' := by
  have hsplit := h.pool
  rw [s.taken_eq_pipes] at hsplit
  have hmem := h.keep_spaces hstep
  have hother : ∀ r, ∀ f ∈ (s.proc r).frames s.phys.mem, s'.phys.mem f = s.phys.mem f :=
    fun r f hf =>
    hmem f (State.mem_spaces_of_frames hf)
  have hframes : ∀ r, (s'.proc r).frames s'.phys.mem = (s.proc r).frames s.phys.mem := fun r => by
    rw [hstep.proc r]
    exact Process.frames_keep (hother r)
  have hspaces : s'.spaces = s.spaces := by
    have hkernel : s'.kernel = s.kernel :=
      kernel_keep hstep.kpgdir hstep.cpuStacks fun f hf => hmem f (Multiset.mem_add.mpr (Or.inl hf))
    rw [State.spaces, State.spaces, hkernel]
    simp only [hframes]
  refine ⟨?_, h'.ok, fun r hr => ?_⟩
  · rw [s'.taken_eq_pipes, hspaces]
    exact hsplit.join h'.pool
  · rw [hstep.proc r] at hr ⊢
    obtain ⟨d, hd⟩ := h.space r hr
    have hkeep := hd.keep hr (hother r)
    exact ⟨d, hkeep.pgdir, hkeep.kstack, hkeep.bound, hkeep.kernel, hkeep.covers⟩

/-- What a call on files leaves behind, for a process with page directory `d`. -/
structure Settled (L : Layout) (strict : Prop) (s : State) (free : List ℕ) (d : ℕ) (s' : State)
    (free' : List ℕ) : Prop where
  owns : Owns L strict s' free'
  pte : s'.phys.mem.pte d = s.phys.mem.pte d
  length : free.length ≤ free'.length + NFILE

theorem card_pipes_le (file : Fin NFILE → File) : (pipes file).card ≤ NFILE :=
  Finset.card_image_le.trans ((Finset.card_filter_le _ _).trans_eq (Finset.card_fin NFILE))

theorem Owns.settle (h : Owns L strict s free) (hused : (s.proc p).status ≠ .unused)
    (hd : SpaceOf L strict s.phys.mem (s.proc p) d)
    (h' : FilePool L (free + pipes s.file) s' free')
    (hstep : FileStep (free + pipes s.file) s s') : Settled L strict s free d s' free' := by
  obtain ⟨k, -, hframes⟩ := hd.frames hused
  refine ⟨h.fileStep h' hstep, (owned_keep fun f hf => ?_).1, ?_⟩
  · refine h.keep_spaces hstep f (State.mem_spaces_of_frames (p := p) ?_)
    rw [hframes]
    exact Multiset.mem_add.mpr (.inl hf)
  · have hcard := congrArg Multiset.card h'.pool.sum
    simp only [Multiset.card_add, Multiset.coe_card] at hcard
    have := card_pipes_le s'.file
    omega

end Vm

end Xv6
