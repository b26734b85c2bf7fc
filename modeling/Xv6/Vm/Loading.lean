import Xv6.Vm.Boot

/-!
# Loading any file

The file that `exec` is asked to load is a sequence of bytes that anybody may have written. Its
checks are spread over `exec`, `allocuvm` and `loaduvm`, and the size of the image may be beyond the
end of a later segment. What is needed of them is that a segment which comes to `loaduvm` ends below
the size of the image, which is below `KERNBASE`; all pages below the size are mapped at any time.

Memory may run out at any call of `kalloc`: the theorem is about any free list, and after the first
failure nothing is asked for any more.

## Main results

* `loading_safe` — its outcomes
* `Pool.loading_inOrder` — it succeeds for a file in order
-/

namespace Xv6

namespace Vm

variable {L : Layout} {strict : Prop} {X Z : Multiset ℕ} {p : Phys} {free free' : List ℕ}
variable {s s' : State} {E : Halt → Phys → Prop}

theorem vm_of_ok {α : Type} {x : M α} {a : α} {p' : Phys} (h : x s.phys = .ok a p') :
    vm x s = .ok a { s with phys := p' } := by
  simp only [vm, h]

/-- What is not free stays as it is, outside the pool and in the frames that are taken. -/
theorem Pool.keep {p' : Phys} (h : Pool L X p free Z) (hkeep : Keeps X Z p.mem p'.mem) {f : ℕ}
    (hf : f ∉ free) : p'.mem f = p.mem f := by
  refine hkeep f ?_
  by_cases hX : f ∈ X
  · rw [← h.sum, Multiset.mem_add] at hX
    exact .inr (hX.resolve_left hf)
  · exact .inl hX

/-- If the same frames are taken then the same frames are free. -/
theorem Pool.perm {p' : Phys} (h : Pool L X p free Z) (h' : Pool L X p' free' Z) :
    free'.Perm free :=
  Multiset.coe_eq_coe.mp (add_right_cancel (h'.sum.trans h.sum.symm))

/-- Physical memory changes, but not where it has an owner. -/
theorem Owns.ofPhys (h : Owns L strict s free) {p' : Phys}
    (hpool : Pool L L.handed p' free' s.taken)
    (hmem : ∀ f ∈ s.taken, p'.mem f = s.phys.mem f) :
    Owns L strict { s with phys := p' } free' := by
  have hkernel : State.kernel { s with phys := p' } = s.kernel :=
    kernel_keep rfl rfl fun f hf =>
      hmem f (Multiset.mem_add.mpr (.inl (Multiset.mem_add.mpr (.inl hf))))
  have hown : ∀ r, ∀ f ∈ (s.proc r).frames s.phys.mem, p'.mem f = s.phys.mem f := fun r f hf =>
    hmem f (Multiset.mem_add.mpr (.inl (Multiset.mem_add.mpr (.inr
      (Multiset.mem_sum.mpr ⟨r, Finset.mem_univ r, hf⟩)))))
  have htaken : State.taken { s with phys := p' } = s.taken := by
    rw [State.taken, State.taken, hkernel]
    refine congrArg (fun Y => s.kernel + Y + pipes s.file) (Finset.sum_congr rfl fun r _ => ?_)
    exact Process.frames_keep (hown r)
  refine ⟨?_, ?_, fun r hr => ?_⟩
  · rw [htaken]
    exact hpool
  · exact h.files.congr_mem fun f hf => hmem f (Multiset.mem_add.mpr (.inr hf))
  · obtain ⟨d, hd⟩ := h.space r hr
    exact ⟨d, hd.keep hr (hown r)⟩

/-- The page directory `d` is a complete image of size `sz`. -/
structure Complete (L : Layout) (m : Mem) (d sz : ℕ) : Prop where
  bound : 2 * PGSIZE ≤ sz ∧ sz < KERNBASE
  /-- Exactly the pages below `sz` are present. -/
  present : ∀ v, v * PGSIZE < KERNBASE → (Present (m.pte d v) ↔ v * PGSIZE < sz)
  /-- All of them are accessible to the process, but for the page below the stack. -/
  user : ∀ v, v * PGSIZE < sz → (User (m.pte d v) ↔ v * PGSIZE + 2 * PGSIZE ≠ sz)
  /-- There is nothing for the process above `KERNBASE`. -/
  kernel : ∀ v, KERNBASE ≤ v * PGSIZE → m.pte d v = kvm L v ∧ ¬ User (m.pte d v)

theorem ImageOf.complete {d sz : ℕ} (h : ImageOf L X Z p free d sz) (hstack : 2 * PGSIZE ≤ sz)
    (haligned : sz % PGSIZE = 0)
    (huser : ∀ v < npages sz, User (p.mem.pte d v) ↔ v ≠ guardPage sz) :
    Complete L p.mem d sz := by
  have hupper : ∀ v, v * PGSIZE < KERNBASE ↔ v < 2 ^ 19 := fun v => by
    simp only [PGSIZE, KERNBASE]
    omega
  refine ⟨⟨hstack, h.covers.bound⟩, fun v hv => ⟨fun hpres => ?_, fun hlt => ?_⟩, fun v hv => ?_,
    fun v hv => ?_⟩
  · by_contra hle
    exact h.covers.absent v (Nat.le_of_not_lt fun hlt => hle ((lt_npages v).mpr hlt))
      ((hupper v).mp hv) hpres
  · exact h.covers.present v ((lt_npages v).mp hlt)
  · rw [huser v ((lt_npages v).mp hv), guardPage]
    simp only [PGSIZE] at *
    omega
  · have hle : 2 ^ 19 ≤ v := Nat.le_of_not_lt fun hlt => Nat.not_lt.mpr hv ((hupper v).mpr hlt)
    rw [h.kernel v hle]
    exact ⟨rfl, not_user_kvm L v⟩

/-- The kernel's part of a page directory that `setupkvm` has made stays as it is until the end of
the loading phase, whether there is an image then or not. -/
theorem Pool.kernel_loadImage (h : Pool L X p free Z) {ip : Image} {d : ℕ} {p₁ : Phys}
    (hd : setupkvm L p = .ok (some d) p₁) :
    ∃ r p₂, loadImage L d ip p₁ = .ok r p₂ ∧ (∀ f ∉ free, p₂.mem f = p.mem f) ∧
      ∀ v, 2 ^ 19 ≤ v → p₂.mem.pte d v = kvm L v := by
  have hready : Wp (setupkvm L) p (fun r p' => ∀ e, r = some e → ∃ free',
      KvmReady L X Z p p' free' e)
      fun _ _ => False :=
    wp_setupkvm h (fun e p' free' he e' hr => by cases hr; exact ⟨free', he⟩)
      fun _ _ _ _ _ => nofun
  rw [Wp, hd] at hready
  obtain ⟨free₁, h₁⟩ := hready d rfl
  have hload : Wp (loadImage L d ip) p₁ (fun _ p₂ => Keeps X Z p.mem p₂.mem ∧
      ∀ v, 2 ^ 19 ≤ v → p₂.mem.pte d v = kvm L v) fun _ _ => False :=
    wp_loadImage h₁.image
      (fun sz p₂ free₂ _ _ h₂ _ hkeep => ⟨h₁.keeps.trans hkeep, h₂.kernel⟩)
      fun p₂ free₂ h₂ hkeep => ⟨h₁.keeps.trans hkeep, h₂.kernel⟩
  obtain ⟨r, p₂, hr, hkeep, hkernel⟩ := hload.ok
  exact ⟨r, p₂, hr, fun f hf => h.keep hkeep hf, hkernel⟩

/-- **`exec` is safe on any file.** Whatever the file and however little memory there is, the
loading phase comes to its end. The processes are as they were, and so is all memory but what was
free: also the kernel stack of the caller, with its trap frame. Either everything is given back, or
there is a complete image in pages that were free. Nothing is mapped for the process above
`KERNBASE` on the way, also if the image is given up. -/
theorem loading_safe (h : Owns L strict s free) (ip : Image) :
    (∃ r s', vm (loading L ip) s = .ok r s' ∧ s' = { s with phys := s'.phys } ∧
      (∀ f ∉ free, s'.phys.mem f = s.phys.mem f) ∧
      match r with
      | none => ∃ free', Owns L strict s' free' ∧ free'.Perm free
      | some (d, sz) => Complete L s'.phys.mem d sz ∧
        ∃ free', Pool L L.handed s'.phys free' (owned s'.phys.mem d + s.taken)) ∧
    ∀ d s₁, vm (setupkvm L) s = .ok (some d) s₁ →
      ∃ r s₂, vm (loadImage L d ip) s₁ = .ok r s₂ ∧ (∀ f ∉ free, s₂.phys.mem f = s.phys.mem f) ∧
        ∀ v, KERNBASE ≤ v * PGSIZE → s₂.phys.mem.pte d v = kvm L v ∧
        ¬ User (s₂.phys.mem.pte d v) := by
  refine ⟨?_, fun d s₁ hd => ?_⟩
  · have hwp : Wp (loading L ip) s.phys (fun r p' => Keeps L.handed s.taken s.phys.mem p'.mem ∧
        match r with
        | none => ∃ free', Pool L L.handed p' free' s.taken
        | some (d, sz) => Complete L p'.mem d sz ∧
          ∃ free', Pool L L.handed p' free' (owned p'.mem d + s.taken)) fun _ _ => False :=
      wp_loading h.pool
        (fun d sz p' free' hstack haligned h' huser hkeep =>
          ⟨hkeep, h'.complete hstack haligned huser, free', spacePool_iff.mp h'.pool⟩)
        fun p' free' h' hkeep => ⟨hkeep, free', h'⟩
    obtain ⟨r, p', hr, hkeep, hout⟩ := hwp.ok
    refine ⟨r, { s with phys := p' }, vm_of_ok hr, rfl, fun f hf => h.pool.keep hkeep hf, ?_⟩
    cases r with
    | none =>
      obtain ⟨free', hpool⟩ := hout
      exact ⟨free', h.ofPhys hpool fun f hf => hkeep f (.inr hf), h.pool.perm hpool⟩
    | some img => exact hout
  · obtain ⟨p₁, hp₁, rfl⟩ : ∃ p₁, setupkvm L s.phys = .ok (some d) p₁ ∧
        { s with phys := p₁ } = s₁ := by
      rw [vm] at hd
      cases hx : setupkvm L s.phys with
      | ok a p₁ =>
        rw [hx] at hd
        cases hd
        exact ⟨p₁, rfl, rfl⟩
      | error e p₁ =>
        rw [hx] at hd
        cases hd
    obtain ⟨r, p₂, hr, hmem, hkernel⟩ := h.pool.kernel_loadImage hp₁
    refine ⟨r, { s with phys := p₂ }, vm_of_ok hr, hmem, fun v hv => ?_⟩
    have hle : 2 ^ 19 ≤ v := by
      simp only [KERNBASE, PGSIZE] at hv
      omega
    rw [hkernel v hle]
    exact ⟨rfl, not_user_kvm L v⟩

/-- **A file in order is loaded** if there is memory for it. -/
theorem Pool.loading_inOrder {ip : Image} {sz : ℕ} (h : Pool L X p free Z) (hip : ip.InOrder sz)
    (hlen : 514 + 2 * npages sz ≤ free.length) :
    ∃ d p₁, loading L ip p = .ok (some (d, sz)) p₁ := by
  have hwp : Wp (loading L ip) p (fun r _ => ∃ d, r = some (d, sz)) fun _ _ => False := by
    rw [loading, if_neg fun hne => hne hip.header, if_neg fun hne => hne hip.magic, wp_bind]
    refine wp_setupkvm h (fun d p₁ free₁ h₁ => ?_) fun p' free' _ _ hshort => ?_
    · have hlen₁ : free.length ≤ free₁.length + 513 := h₁.length (by
        rw [← h.sum, Multiset.card_add, Multiset.coe_card])
      simp only [wp_bind]
      exact wp_loadImage_inOrder h₁.image hip (by omega) fun p₂ free₂ _ _ => ⟨d, rfl⟩
    · exact absurd hshort (by omega)
  obtain ⟨r, p₁, hr, d, rfl⟩ := hwp.ok
  exact ⟨d, p₁, hr⟩

/-- A file that consists of an ELF header, without program headers. -/
def header : Image where
  size := 52
  byte := fun i => if i < 4 then Bytes.digit ELF_MAGIC i else 0

theorem header_inOrder : header.InOrder 8192 :=
  ⟨by decide, by decide, by decide, ⟨0, by decide, by decide⟩, by decide⟩

/-- A file with two segments: 100 bytes of the file and 4900 zeroes at address `0`, and 4 bytes at
address `8192`. Between them there is a program header of another type. -/
def program : Image where
  size := 248
  byte := wordBytes ([ELF_MAGIC, 0, 0, 0, 0, 0, 0, 52, 0, 0, 0, 3, 0] ++
    [ELF_PROG_LOAD, 148, 0, 0, 100, 5000, 0, 0] ++ [4, 0, 0, 0, 0, 0, 0, 0] ++
    [ELF_PROG_LOAD, 148, 8192, 0, 4, 4, 0, 0])

theorem program_inOrder : program.InOrder 20480 :=
  ⟨by decide, by decide, by decide, ⟨8196, by decide, by decide⟩, by decide⟩

/-- The first process of a kernel of the usual size loads the program: two pages and a third one for
its segments, and two for the stack. -/
theorem loading_safe_program : ∃ s free d s', boot smallKernel 1 (fun _ => 0) 0 zeroed = some s ∧
    Owns smallKernel True s free ∧ vm (loading smallKernel program) s = .ok (some (d, 20480)) s' ∧
    Complete smallKernel s'.phys.mem d 20480 ∧ ∀ f ∉ free, s'.phys.mem f = s.phys.mem f := by
  obtain ⟨s, hs⟩ := exists_boot_smallKernel
  obtain ⟨free, hbooted⟩ := booted_of_boot hs
  have hlen := hbooted.length
  have hpages : npages 20480 = 5 := rfl
  obtain ⟨d, p₁, hload⟩ := (hbooted.owns True).pool.loading_inOrder program_inOrder (by omega)
  obtain ⟨⟨r, s', hr, -, hmem, hout⟩, -⟩ := loading_safe (hbooted.owns True) program
  obtain ⟨rfl, rfl⟩ : r = some (d, 20480) ∧ s' = { s with phys := p₁ } := by
    have heq := hr.symm.trans (vm_of_ok hload)
    cases heq
    exact ⟨rfl, rfl⟩
  exact ⟨s, free, d, _, hs, hbooted.owns True, hr, hout.1, hmem⟩

end Vm

end Xv6
