import Xv6.Vm.Loading
import Xv6.Vm.Stores

/-!
# The stack of a new program

The arguments are pushed on the stack of a new program exactly if they take at most one page. That
holds if no string is longer than the image; a string that is longer may come to an address without
page table, where `uva2ka` uses a null pointer.

## Main results

* `exec_stack` — the stack phase
* `accesses_iff` — the accesses of `copyout`
-/

namespace Xv6

namespace Vm

open Ghost

variable {L : Layout} {X Z : Multiset ℕ} {p : Phys} {free : List ℕ} {cr3 d sz : ℕ}

/-- A string that is not longer than what is below the stack pointer is clear. -/
theorem clear_of_used_le {argv : List (List UInt8)} {k : ℕ} (h : k + used argv ≤ sz) :
    Clear sz k argv := by
  induction argv generalizing k with
  | nil => trivial
  | cons s argv ih =>
    rw [used_cons] at h
    refine ⟨?_, fun _ => ih (by omega)⟩
    rw [room] at h
    omega

/-- What the loading phase leaves behind. -/
theorem Pool.stackedImage {ip : Image} {p₁ : Phys} (h : Pool L X p free Z)
    (hload : loading L ip p = .ok (some (d, sz)) p₁) :
    ∃ free₁, StackedImage L X Z p₁ free₁ d sz ∧ Keeps X Z p.mem p₁.mem := by
  have hwp : Wp (loading L ip) p (fun r p' => ∀ d sz, r = some (d, sz) →
      ∃ free', StackedImage L X Z p' free' d sz ∧ Keeps X Z p.mem p'.mem) fun _ _ => False := by
    refine wp_loading h (fun d sz p' free' hstack haligned h' huser hkeep d' sz' hr => ?_)
      fun _ _ _ _ _ _ => nofun
    obtain ⟨rfl, rfl⟩ := Prod.mk.inj (Option.some.inj hr)
    exact ⟨free', ⟨h', hstack, haligned, huser⟩, hkeep⟩
  exact (Wp.of_ok hload).mp hwp d sz rfl

theorem room_le_used {argv : List (List UInt8)} {str : List UInt8} (h : str ∈ argv) :
    str.length + 1 ≤ used argv := by
  have hroom : room str ≤ used argv := List.le_sum_of_mem (List.mem_map_of_mem h)
  rw [room] at hroom
  omega

/-- **The entry stack.** `exec` has loaded an image of size `sz`, with its stack. If the arguments
take less than `sz` bytes then they are pushed on the stack exactly if they take at most one page;
otherwise `exec` fails, and all memory that was not free is as before. -/
theorem exec_stack {strict : Prop} {s : State} {ip : Image} {p₁ : Phys} {argv : List (List UInt8)}
    (h : Owns L strict s free) (hload : loading L ip s.phys = .ok (some (d, sz)) p₁)
    (hargc : argv.length ≤ 31) (htotal : total argv < sz) (cr3 : ℕ) :
    ∃ r s', vm (exec L cr3 ip argv) s = .ok r s' ∧ s' = { s with phys := s'.phys } ∧
      (r.isSome ↔ total argv ≤ PGSIZE) ∧ (∀ f ∉ free, s'.phys.mem f = s.phys.mem f) ∧
      match r with
      | some img => img.pgdir = d ∧ img.sz = sz ∧
        ∃ ptrs, EntryStack s'.phys.mem d sz img.esp argv ptrs
      | none => ∃ free', Owns L strict s' free' := by
  obtain ⟨free₁, h₁, hkeep₁⟩ := h.pool.stackedImage hload
  have hbound := h₁.image.covers.bound
  have hused : used argv ≤ sz := by
    rw [total] at htotal
    omega
  have hlen : ∀ str ∈ argv, str.length + 1 ≤ KERNBASE := fun str hstr => by
    have := room_le_used hstr
    omega
  have hwp : Wp (exec L cr3 ip argv) s.phys
      (fun r p' => Keeps L.handed s.taken s.phys.mem p'.mem ∧ (r.isSome ↔ total argv ≤ PGSIZE) ∧
        match r with
        | some img => img.pgdir = d ∧ img.sz = sz ∧ ∃ ptrs, EntryStack p'.mem d sz img.esp argv ptrs
        | none => ∃ free', Pool L L.handed p' free' s.taken) fun _ _ => False := by
    rw [exec, wp_bind, Wp.of_ok hload]
    simp only [wp_bind]
    refine (erases_pushStack L cr3 d ip argv sz).wp (h₁.wp_pushStackT (Nat.lt_succ_of_le hargc) hlen
      (clear_of_used_le (by rwa [Nat.zero_add]))
      (fun hle img ptrs p₂ _ hd hsz _ hkeep₂ _ hentry => ?_)
      fun hlt p₂ _ h₂ hkeep₂ _ => ?_)
    · exact ⟨hkeep₁.trans hkeep₂, iff_of_true rfl hle, hd, hsz, ptrs, hentry⟩
    · simp only [wp_bind, wp_pure]
      refine wp_freevm h₂.image.pool fun p' free' hpool hkeep => ?_
      exact ⟨(hkeep₁.trans hkeep₂).trans hkeep, iff_of_false (by rintro ⟨⟩) (Nat.not_le.mpr hlt),
        free', hpool⟩
  obtain ⟨r, p', hr, hkeep, hiff, hout⟩ := hwp.ok
  refine ⟨r, { s with phys := p' }, vm_of_ok hr, rfl, hiff, fun f hf => h.pool.keep hkeep hf, ?_⟩
  cases r with
  | some img => exact hout
  | none =>
    obtain ⟨free', hpool⟩ := hout
    exact ⟨free', h.ofPhys hpool fun f hf => hkeep f (.inr hf)⟩

/-! ### Null pointers -/

theorem StackedImage.null_mem_log {ip : Image} {argv : List (List UInt8)}
    (h : StackedImage L X Z p free d sz) (hargc : argv.length < MAXARG)
    (hlen : ∀ s ∈ argv, s.length + 1 ≤ KERNBASE) (hclear : ¬ Clear sz 0 argv) :
    Access.walk none ∈ log (pushStackT L cr3 d ip argv sz) p :=
  log_of_wp (h.wp_pushStackT_null hargc hlen hclear fun _ hs => hs)

/-- **Null pointers.** `exec` has loaded an image of size `sz`, with its stack. In the stack phase
`walkpgdir` always returns an entry to `uva2ka`, and `copyout` only writes to accessible pages of
the image, exactly if no string comes to an address without page table. -/
theorem accesses_iff {ip : Image} {p₁ : Phys} {argv : List (List UInt8)} (h : Pool L X p free Z)
    (hload : loading L ip p = .ok (some (d, sz)) p₁) (hargc : argv.length ≤ 31)
    (hlen : ∀ str ∈ argv, str.length < KERNBASE) (cr3 : ℕ) :
    (∀ a ∈ log (pushStackT L cr3 d ip argv sz) p₁, a.Good p₁.mem d) ↔ Clear sz 0 argv := by
  obtain ⟨free₁, h₁, -⟩ := h.stackedImage hload
  refine ⟨fun hgood => ?_, fun hclear => ?_⟩
  · by_contra hclear
    exact hgood _ (h₁.null_mem_log (Nat.lt_succ_of_le hargc) hlen hclear) rfl
  · refine log_of_wp (P := fun l : List Access => ∀ a ∈ l, a.Good p₁.mem d) ?_
    exact h₁.wp_pushStackT (Nat.lt_succ_of_le hargc) hlen hclear
      (fun _ _ _ _ _ _ _ _ _ hgood _ => hgood) fun _ _ _ _ _ hgood => hgood

/-! ### A file without segments -/

/-- The first process calls `exec` with the argument `ls`. -/
theorem exec_stack_header : ∃ s d p₁, boot smallKernel 1 (fun _ => 0) 0 zeroed = some s ∧
    loading smallKernel header s.phys = .ok (some (d, 8192)) p₁ ∧
    ∃ r s', vm (exec smallKernel 0 header [[0x6c, 0x73]]) s = .ok r s' ∧
      (r.isSome ↔ total [[0x6c, 0x73]] ≤ PGSIZE) := by
  obtain ⟨s, hs⟩ := exists_boot_smallKernel
  obtain ⟨free, hbooted⟩ := booted_of_boot hs
  have howns := hbooted.owns True
  have hlen := hbooted.length
  have hpages : npages 8192 = 2 := rfl
  obtain ⟨d, p₁, hload⟩ := howns.pool.loading_inOrder header_inOrder (by rw [hpages]; omega)
  have htotal : total [[0x6c, 0x73]] < 8192 := by decide
  obtain ⟨r, s', hr, -, hiff, -⟩ := exec_stack howns hload (by decide) htotal 0
  exact ⟨s, d, p₁, hs, hload, r, s', hr, hiff⟩

theorem accesses_iff_header : ∃ s d p₁, boot smallKernel 1 (fun _ => 0) 0 zeroed = some s ∧
    loading smallKernel header s.phys = .ok (some (d, 8192)) p₁ ∧
    ∀ a ∈ log (pushStackT smallKernel 0 d header [[0x6c, 0x73]] 8192) p₁, a.Good p₁.mem d := by
  obtain ⟨s, hs⟩ := exists_boot_smallKernel
  obtain ⟨free, hbooted⟩ := booted_of_boot hs
  have hpool := (hbooted.owns True).pool
  have hlen := hbooted.length
  have hpages : npages 8192 = 2 := rfl
  obtain ⟨d, p₁, hload⟩ := hpool.loading_inOrder header_inOrder (by rw [hpages]; omega)
  exact ⟨s, d, p₁, hs, hload, (accesses_iff hpool hload (by decide) (by decide) 0).mpr
    ⟨by decide, fun _ => trivial⟩⟩

/-- The number of letters of an argument that is too long. -/
abbrev letters : ℕ := 2 ^ 25 + 12287

/-- After `main`, the first process asks for memory, fills it with an argument of 32 MB and 12287
letters, and calls `exec`. The argument is accepted, and `uva2ka` uses a null pointer. -/
theorem exists_null_pointer : ∃ s₀ s events cr3 callersz d p₁,
    boot smallKernel 1 (fun _ => 0) 0 zeroed = some s₀ ∧
    Transition.run (step smallKernel) s₀ events = some s ∧
    (s.proc s₀.initproc).pgdir = some cr3 ∧ (s.proc s₀.initproc).sz = callersz ∧
    fetchArgv smallKernel cr3 callersz 4 MAXARG 0 s.phys =
      .ok (some [List.replicate letters 0x61]) s.phys ∧
    loading smallKernel header s.phys = .ok (some (d, 8192)) p₁ ∧
    Access.walk none ∈
      log (pushStackT smallKernel cr3 d header [List.replicate letters 0x61] 8192) p₁ := by
  obtain ⟨s₀, hs₀⟩ := exists_boot_smallKernel
  obtain ⟨free, hbooted⟩ := booted_of_boot hs₀
  obtain ⟨s₁, free₁, cr3, hstep₁, h₁, hlen, -⟩ := hbooted.sbrk (n := 2 ^ 26) (by decide) (by decide)
  obtain ⟨s, hrun, h, -, -, hbytes⟩ := h₁.stores (argBytes letters) (letters + 17) (by decide)
  have hpages : npages 8192 = 2 := rfl
  have hfetch : Wp (fetchArgv smallKernel cr3 _ 4 MAXARG 0) s.phys
      (fun r p' => r = some [List.replicate letters 0x61] ∧ p' = s.phys) fun _ _ => False :=
    wp_fetchArgv_letters h.covers (by decide) hbytes ⟨rfl, rfl⟩
  obtain ⟨r, p', hr, rfl, rfl⟩ := hfetch.ok
  have hpool := h.owns.pool
  obtain ⟨d, p₁, hload⟩ := hpool.loading_inOrder header_inOrder (by rw [hpages]; omega)
  obtain ⟨free₂, h₂, -⟩ := hpool.stackedImage hload
  have hlength : (List.replicate letters (0x61 : UInt8)).length = letters := List.length_replicate
  refine ⟨s₀, s, _, cr3, _, d, p₁, hs₀, Transition.run_cons_eq_some _ |>.mpr
    ⟨s₁, hstep₁, hrun⟩, h.pgdir, h.size, hr, hload, ?_⟩
  generalize List.replicate letters 0x61 = str at hlength ⊢
  refine h₂.null_mem_log (by decide) (fun x hx => ?_) fun hclear => hclear.1 ?_
  · rw [List.mem_singleton.mp hx, hlength]
    decide
  · rw [hlength]
    decide

end Vm

end Xv6
