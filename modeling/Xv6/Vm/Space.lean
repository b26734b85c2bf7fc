import Xv6.Vm.Session

/-!
# Pages and address spaces

In every run from `main` each page is on the free list or has one owner.

A process of size `sz` has exactly the pages below `sz`. `copyuvm` relies on this, and so do the
checks of system call arguments, which only compare with `sz`. It holds as long as no `sbrk` makes
an address space empty: `deallocuvm` returns the new size, and `growproc` takes `0` for failure and
leaves `sz` as it was, after the pages are gone.

## Main results

* `ownership` — each page is in one place
* `address_spaces` — complete address spaces, in every run without such a call
* `exists_sbrk_incomplete` — one `sbrk` after `main` leaves an address space without its page
-/

namespace Xv6

namespace Vm

open Proc (Slot)
open Transition

variable {L : Layout} {s s₀ : State} {free : List ℕ} {p : Slot}

/-- **Each page is in one place**, in every run: on the free list, or with the kernel, a process or
a pipe. An end of a pipe is open in one file. -/
theorem ownership {n size : ℕ} {init : ℕ → UInt8} {m : Mem}
    (hboot : boot L n init size m = some s₀) (h : Reach (step L) (fun _ _ => True) s₀ s) :
    (∃ free : List ℕ, FreeList s.phys free ∧
      ∀ f, Multiset.count f ((free : Multiset ℕ) + s.taken) =
        if L.Usable f then 1 else 0) ∧
    ∀ x y, (s.file x).type = .pipe → (s.file y).type = .pipe → (s.file x).pipe = (s.file y).pipe →
      (s.file x).writable = (s.file y).writable → x = y := by
  obtain ⟨free₀, hbooted⟩ := booted_of_boot hboot
  obtain ⟨⟨free, howns⟩, -⟩ := (hbooted.owns False).reach h fun _ _ _ => False.elim
  refine ⟨⟨free, howns.pool.list, fun f => ?_⟩, howns.files.unique⟩
  rw [howns.pool.sum]
  split
  · rename_i hf
    exact Multiset.count_eq_one_of_mem L.nodup_handed (Layout.mem_handed.mpr hf)
  · rename_i hf
    exact Multiset.count_eq_zero_of_notMem fun hmem => hf (Layout.mem_handed.mp hmem)

/-- After the session: the first process has forked, executed a program and opened a pipe. -/
theorem ownership_session : ∃ s₀ s np x y, boot smallKernel 1 (fun _ => 0) 0 zeroed = some s₀ ∧
    run (step smallKernel) s₀ (session s₀.initproc) = some s ∧ SessionEnd s s₀.initproc np x y ∧
    ∃ free : List ℕ, FreeList s.phys free ∧
      ∀ f, Multiset.count f ((free : Multiset ℕ) + s.taken) =
        if smallKernel.Usable f then 1 else 0 := by
  obtain ⟨s₀, s, np, x, y, hs₀, hrun, hend⟩ := exists_session
  exact ⟨s₀, s, np, x, y, hs₀, hrun, hend, (ownership hs₀ (reach_of_run hrun)).1⟩

/-- `fork` does not end in one of the panics of `copyuvm`. -/
theorem Owns.fork_fine (h : Owns L True s free) (hlive : (s.proc p).status = .live) {e : Halt}
    {t : State} (hfork : fork L p s = .error e t) : e ≠ .copyuvmPte ∧ e ≠ .copyuvmPage :=
  ((Wp.of_error hfork).mp (safe_fork h hlive)).2 trivial

/-- **Address spaces are complete**, in every run in which no `sbrk` makes one empty. Then `copyuvm`
does not panic, and what the checks of system call arguments accept is mapped. -/
theorem address_spaces {n size : ℕ} {init : ℕ → UInt8} {m : Mem}
    (hboot : boot L n init size m = some s₀) (h : Reach (step L) Allowed s₀ s) :
    (∀ p, (s.proc p).status = .live → ∃ d, (s.proc p).pgdir = some d ∧
      Covers (s.phys.mem.pte d) (s.proc p).sz ∧
      (∀ addr < 2 ^ 32, ∃ r, fetchint L d (s.proc p).sz addr s.phys = .ok r s.phys ∧
        (r ≠ none → Mapped s.phys.mem d addr 4)) ∧
      (∀ addr < 2 ^ 32, ∃ r, fetchstr L d (s.proc p).sz addr s.phys = .ok r s.phys ∧
        ∀ cs, r = some cs → Mapped s.phys.mem d addr (cs.length + 1)) ∧
      ∀ i < 2 ^ 32, ∀ a (size : BitVec 32), argptr (s.proc p).sz i size = some a →
        a = i ∧ Mapped s.phys.mem d i size.toNat) ∧
    ∀ p, (s.proc p).status = .live → ∀ e t, fork L p s = .error e t →
      e ≠ .copyuvmPte ∧ e ≠ .copyuvmPage := by
  obtain ⟨free₀, hbooted⟩ := booted_of_boot hboot
  obtain ⟨⟨free, howns⟩, -⟩ := (hbooted.owns True).reach h fun _ _ hok _ => hok
  refine ⟨fun p hlive => ?_, fun p hlive e t => howns.fork_fine hlive⟩
  obtain ⟨d, hd⟩ := howns.space p (by rw [hlive]; exact nofun)
  have hcovers := hd.covers trivial
  refine ⟨d, hd.pgdir, hcovers, fun addr _ => hcovers.fetchint_mapped,
    fun addr _ => hcovers.fetchstr_mapped, fun i hi a size => hcovers.argptr_mapped hi⟩

theorem allowed_session {e : Event} (he : e ∈ session p) (t : State) : Allowed t e := by
  simp only [session, List.mem_append, List.mem_cons, List.mem_replicate, List.mem_map,
    List.not_mem_nil, or_false] at he
  rcases he with (rfl | rfl) | ⟨-, rfl⟩ | (rfl | rfl | rfl | rfl | rfl) | ⟨a, -, rfl⟩ | rfl
  · exact fun hneg => absurd hneg (by decide)
  all_goals trivial

/-- After the session the caller has the address space of the program, and its child that of the
caller before. -/
theorem address_spaces_session : ∃ s₀ s np, boot smallKernel 1 (fun _ => 0) 0 zeroed = some s₀ ∧
    run (step smallKernel) s₀ (session s₀.initproc) = some s ∧
    (∃ d, (s.proc s₀.initproc).pgdir = some d ∧ Covers (s.phys.mem.pte d) 20480) ∧
    ∃ d, (s.proc np).pgdir = some d ∧ Covers (s.phys.mem.pte d) 8192 := by
  obtain ⟨s₀, s, np, x, y, hs₀, hrun, hend⟩ := exists_session
  have hspaces := (address_spaces hs₀ (.of_run _ .init
    (fun _ he t => allowed_session he t) hrun)).1
  obtain ⟨d, hd, hcovers, -⟩ := hspaces s₀.initproc hend.caller.1
  obtain ⟨d', hd', hcovers', -⟩ := hspaces np hend.child.1
  rw [hend.caller.2] at hcovers
  rw [hend.child.2] at hcovers'
  exact ⟨s₀, s, np, hs₀, hrun, ⟨d, hd, hcovers⟩, d', hd', hcovers'⟩

/-- `sbrk` makes the address space of a process empty: it gives up all pages and fails, and `sz`
stays. -/
theorem Owns.wp_growproc_empty (h : Owns L True s free) (hlive : (s.proc p).status = .live)
    {n : BitVec 32} (hn : n.toInt < 0) (hempty : ((s.proc p).sz + n.toNat) % 2 ^ 32 = 0) {d : ℕ}
    (hd : (s.proc p).pgdir = some d) :
    Wp (growproc L p n) s (fun r t => r = false ∧ t.proc = s.proc ∧ t.initproc = s.initproc ∧
      ∀ v < 2 ^ 19, ¬ Present (t.phys.mem.pte d v)) fun _ _ => False := by
  have hused : (s.proc p).status ≠ .unused := by
    rw [hlive]
    exact nofun
  obtain ⟨d', hd'⟩ := h.space p hused
  obtain rfl : d' = d := Option.some_injective _ (hd'.pgdir.symm.trans hd)
  obtain ⟨k, hk, hpool⟩ := h.spacePool hused hd'
  have hcovers := hd'.covers trivial
  have hne : n ≠ 0 := by
    rintro rfl
    exact absurd hn (by decide)
  simp only [growproc, wp_bind, wp_getProc]
  rw [wp_pgdirOf hd, hempty, if_neg (Int.not_lt.mpr (Int.le_of_lt hn)), if_pos hn, wp_bind, wp_vm]
  refine wp_deallocuvm hpool (Nat.le_of_lt hd'.bound) fun p' free' hp' => ?_
  rw [Nat.zero_min, if_pos ⟨hne, rfl⟩, wp_pure]
  refine ⟨rfl, rfl, rfl, fun v hv hpres => ?_⟩
  have hcleared := hcovers.cleared 0
  rw [← hp'.pte, Nat.zero_min] at hcleared
  exact hcleared.absent v (Nat.zero_le v) hv hpres

/-- The first process asks for `-4096` bytes: it still has size `4096` then, but no page. -/
theorem exists_sbrk_incomplete : ∃ s₀ s,
    boot smallKernel 1 (fun _ => 0) 0 zeroed = some s₀ ∧
    step smallKernel s₀ (.sbrk s₀.initproc (-4096)) = some s ∧
    (s.proc s.initproc).status = .live ∧ (s.proc s.initproc).sz = 4096 ∧
    ∃ d, (s.proc s.initproc).pgdir = some d ∧ ¬ Present (s.phys.mem.pte d 0) ∧
      ¬ Covers (s.phys.mem.pte d) (s.proc s.initproc).sz := by
  obtain ⟨s₀, hs₀⟩ := exists_boot_smallKernel
  obtain ⟨free, hbooted⟩ := booted_of_boot hs₀
  obtain ⟨d, f, hd, -⟩ := hbooted.page
  have hwp := (hbooted.owns True).wp_growproc_empty hbooted.live (n := -4096) (by decide)
    (by rw [hbooted.size]; decide) hd
  obtain ⟨r, s, hs, -, hproc, hinit, habsent⟩ := exists_call hbooted.live hwp
  refine ⟨s₀, s, hs₀, hs, ?_, ?_, d, ?_, habsent 0 (by decide), fun hcovers => ?_⟩
  · rw [hproc, hinit]
    exact hbooted.live
  · rw [hproc, hinit]
    exact hbooted.size
  · rw [hproc, hinit]
    exact hd
  · rw [hproc, hinit, hbooted.size] at hcovers
    exact habsent 0 (by decide) (hcovers.present 0 (by decide))

end Vm

end Xv6
