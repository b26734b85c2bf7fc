import Xv6.Vm.Session

/-!
# The accounts of the open files

In every run from `main` the counts of the open files and the words of the pipes are right, whether
the system calls succeed or fail.

## Main results

* `accounting`
-/

namespace Xv6

namespace Vm

open Transition

variable {L : Layout} {s : State}

theorem Booted.accounted {free : List ℕ} (h : Booted L s free) : Accounted s := by
  refine ⟨fun x => ?_, fun q _ => funext (h.ofile q)⟩
  rw [(h.file x).1, State.refs_eq_zero.mpr fun p fd => by rw [h.ofile]; exact nofun]

/-- The word for one end of an open pipe, in terms of the references to its file. -/
theorem Accounted.pipe_word (h : Accounted s) (hok : PipesOk s.file s.phys.mem) {g : ℕ}
    (hg : g ∈ pipes s.file) (b : Bool) : s.phys.mem.word g (pipeEnd b) =
      if ∃ x, (s.file x).type = .pipe ∧ (s.file x).pipe = g ∧ (s.file x).writable = b ∧ 0 < s.refs x
      then 1 else 0 := by
  obtain ⟨y, hy, rfl⟩ := mem_pipes.mp hg
  have hword := hok.word y hy b
  have hflag := hok.flag y hy b
  split
  · rename_i hopen
    obtain ⟨x, hx, hpipe, hw, -⟩ := hopen
    have hne := hword.mpr ⟨x, hx, hpipe, hw⟩
    omega
  · rename_i hclosed
    by_contra hne
    obtain ⟨x, hx, hpipe, hw⟩ := hword.mp hne
    refine hclosed ⟨x, hx, hpipe, hw, Nat.pos_of_ne_zero fun hzero => ?_⟩
    exact hok.closed x ((h.counted x).trans hzero) hx

/-- **The accounts are right in every state that is reached from `main`.** The count of a file is
the number of slots that point to it, and the file is free if there are none. The word of a pipe for
one end is `1` while the file for that end is referenced and `0` otherwise; there is one such file,
so the end is closed once. The page of a pipe that is open is not free, and the page of a pipe that
has been closed is not lost: all pages are on the free list or in use, once. -/
theorem accounting {n size : ℕ} {init : ℕ → UInt8} {m : Mem} {s₀ s : State}
    (hboot : boot L n init size m = some s₀) (h : Reach (step L) (fun _ _ => True) s₀ s) :
    (∀ x, (s.file x).ref = s.refs x) ∧
    (∀ x, (s.file x).ref = 0 ↔ ∀ p fd, (s.proc p).ofile fd ≠ some x) ∧
    (∀ g ∈ pipes s.file, ∀ b, s.phys.mem.word g (pipeEnd b) =
      if ∃ x, (s.file x).type = .pipe ∧ (s.file x).pipe = g ∧ (s.file x).writable = b ∧ 0 < s.refs x
      then 1 else 0) ∧
    (∀ x y, (s.file x).type = .pipe → (s.file y).type = .pipe → (s.file x).pipe = (s.file y).pipe →
      (s.file x).writable = (s.file y).writable → x = y) ∧
    ∃ free : List ℕ, FreeList s.phys free ∧ (free : Multiset ℕ) + s.taken = L.handed ∧
      ((free : Multiset ℕ) + s.taken).Nodup := by
  obtain ⟨free₀, hbooted⟩ := booted_of_boot hboot
  obtain ⟨⟨free, howns⟩, hkept⟩ := (hbooted.owns False).reach h fun _ _ _ => False.elim
  have hs := hkept hbooted.accounted
  refine ⟨hs.counted, fun x => ?_, fun g hg => hs.pipe_word howns.files hg,
    howns.files.unique, free, howns.pool.list, howns.pool.sum, ?_⟩
  · rw [hs.counted, State.refs_eq_zero]
  · rw [howns.pool.sum]
    exact howns.pool.nodup

/-- After the session, with a failed call of `pipe` in it, the file has 28 references and the end of
the pipe 2, from the caller and its child. -/
theorem accounting_session : ∃ s₀ s np x y, boot smallKernel 1 (fun _ => 0) 0 zeroed = some s₀ ∧
    run (step smallKernel) s₀ (session s₀.initproc) = some s ∧ SessionEnd s s₀.initproc np x y ∧
    (∀ z, (s.file z).ref = s.refs z) ∧ s.refs x = 28 ∧ s.refs y = 2 := by
  obtain ⟨s₀, s, np, x, y, hs₀, hrun, hend⟩ := exists_session
  obtain ⟨href, -⟩ := accounting hs₀ (reach_of_run hrun)
  have hcount : ∀ z, s.refs z = 2 * (List.replicate 14 x ++ [y]).count z := fun z => by
    rw [← href, hend.ref]
  refine ⟨s₀, s, np, x, y, hs₀, hrun, hend, href, ?_, ?_⟩
  · rw [hcount, List.count_append, List.count_replicate_self, List.count_singleton,
      if_neg (by simpa using hend.ne.symm)]
  · rw [hcount, List.count_append, List.count_replicate, List.count_singleton_self,
      if_neg (by simpa using hend.ne)]

end Vm

end Xv6
