import Xv6.Vm.Stack

/-!
# A session

What system calls do when they succeed, one after the other: after `main` the first process gets
more memory, opens a file and duplicates its descriptor until there is one left. A call of `pipe`
fails then, and takes back what it has done. When another descriptor is free `pipe` succeeds. The
process closes the end for writing, forks, and executes a program.

## Main definitions

* `Desk` — the open files of the only process, as a list
* `session` — the run

## Main results

* `Desk.open`, `Desk.dup`, `Desk.pipe`, `Desk.close`, `Desk.fork`, `Filling.exec` — calls that
  succeed
* `exists_session` — what the run comes to
-/

namespace Xv6

namespace Vm

open Proc (Slot)
open Transition

variable {L : Layout} {s s' : State} {free free' : List ℕ} {p : Slot} {d sz n : ℕ}
variable {x y : Fin NFILE} {fd : Fin NOFILE} {l : List (Fin NFILE)}

/-! ### The descriptors of a process -/

/-- The only process has the files of the list open, in its first slots. There are at least `n` free
pages. -/
structure Desk (L : Layout) (s : State) (p : Slot) (d sz n : ℕ) (l : List (Fin NFILE)) : Prop where
  filling : ∃ free, Filling L s free p d sz ∧ n ≤ free.length
  alone : ∀ r ≠ p, (s.proc r).status = .unused
  ofile : ∀ fd, (s.proc p).ofile fd = l[fd.val]?
  ref : ∀ y, (s.file y).ref = l.count y

theorem getElem?_concat_of_ne {i : Fin NOFILE} (hfd : fd.val = l.length) (hi : i ≠ fd) :
    (l ++ [x])[i.val]? = l[i.val]? := by
  have hne : i.val ≠ l.length := fun heq => hi (Fin.ext (heq.trans hfd.symm))
  rw [List.getElem?_append, List.getElem?_singleton]
  split
  · rfl
  · rw [if_neg (by omega), List.getElem?_eq_none (by omega)]

/-- One more file in the next slot. -/
theorem push_slot {ofile : Fin NOFILE → Option (Fin NFILE)} (h : ∀ i, ofile i = l[i.val]?)
    (hfd : fd.val = l.length) (i : Fin NOFILE) :
    Function.update ofile fd (some x) i = (l ++ [x])[i.val]? := by
  by_cases hi : i = fd
  · rw [hi, Function.update_self, hfd, List.getElem?_concat_length]
  · rw [Function.update_of_ne hi, h, getElem?_concat_of_ne hfd hi]

/-- The last slot is cleared. -/
theorem pop_slot {ofile : Fin NOFILE → Option (Fin NFILE)} (h : ∀ i, ofile i = (l ++ [x])[i.val]?)
    (hfd : fd.val = l.length) (i : Fin NOFILE) : Function.update ofile fd none i = l[i.val]? := by
  by_cases hi : i = fd
  · rw [hi, Function.update_self, hfd, List.getElem?_eq_none (Nat.le_refl _)]
  · rw [Function.update_of_ne hi, h, getElem?_concat_of_ne hfd hi]

/-- How many slots point to a file. -/
theorem countP_slots (hl : l.length ≤ NOFILE) (y : Fin NFILE) :
    ((List.finRange NOFILE).countP fun fd => l[fd.val]? = some y) = l.count y := by
  have hslots : (List.finRange NOFILE).map (fun fd => l[fd.val]?) =
      l.map some ++ List.replicate (NOFILE - l.length) none := by
    refine List.ext_getElem ?_ fun i hi hi' => ?_
    · simp only [List.length_map, List.length_finRange, List.length_append, List.length_replicate]
      omega
    · simp only [List.getElem_map, List.getElem_finRange, Fin.val_cast, List.getElem_append,
        List.length_map, List.getElem_replicate]
      split
      · rw [List.getElem?_eq_getElem]
      · rw [List.getElem?_eq_none (by omega)]
  have hcount := congrArg (List.count (some y)) hslots
  rw [List.count_append, List.count_replicate,
    List.count_map_of_injective _ _ (Option.some_injective _), List.count,
    List.countP_map] at hcount
  simpa [Function.comp_def, Bool.beq_eq_decide_eq] using hcount

namespace Desk

/-- A call on files is through. -/
theorem of_settled {ofile : Fin NOFILE → Option (Fin NFILE)} (h : Filling L s free p d sz)
    (hlen : n + NFILE ≤ free.length) (halone : ∀ r ≠ p, (s.proc r).status = .unused)
    (h' : Settled L True s free d s' free')
    (hproc : s'.proc = Function.update s.proc p { s.proc p with ofile := ofile })
    (hofile : ∀ fd, ofile fd = l[fd.val]?) (href : ∀ y, (s'.file y).ref = l.count y) :
    Desk L s' p d sz n l := by
  have hself : s'.proc p = { s.proc p with ofile := ofile } := by
    rw [hproc, Function.update_self]
  have hlen' := h'.length
  refine ⟨⟨free', h.settled h' (by rw [hself]), by omega⟩, fun r hr => ?_, fun fd => ?_, href⟩
  · rw [hproc, Function.update_of_ne hr]
    exact halone r hr
  · rw [hself]
    exact hofile fd

/-- One more reference. -/
theorem ref_push (h : Desk L s p d sz n l) (hself : (s'.file x).ref = (s.file x).ref + 1)
    (hold : ∀ y ≠ x, s'.file y = s.file y) (y : Fin NFILE) :
    (s'.file y).ref = (l ++ [x]).count y := by
  rw [List.count_append]
  by_cases hy : y = x
  · rw [hy, hself, h.ref, List.count_singleton_self]
  · rw [hold y hy, h.ref, List.count_singleton, if_neg (by simpa using Ne.symm hy), Nat.add_zero]

theorem eq_none_iff (h : Desk L s p d sz n l) : (s.proc p).ofile fd = none ↔ l.length ≤ fd.val := by
  rw [h.ofile, List.getElem?_eq_none_iff]

/-- The first slot that is free. -/
theorem first (h : Desk L s p d sz n l) (hl : l.length < NOFILE)
    (hfree : (s.proc p).ofile fd = none)
    (hfirst : ∀ i < fd, (s.proc p).ofile i ≠ none) : fd.val = l.length := by
  refine Nat.le_antisymm (Nat.le_of_not_lt fun hlt => ?_) (h.eq_none_iff.mp hfree)
  exact hfirst ⟨l.length, hl⟩ hlt (h.eq_none_iff.mpr (Nat.le_refl _))

/-- There are two files that are not open. -/
theorem exists_free (h : Desk L s p d sz n l) (hl : l.length ≤ NOFILE) :
    ∃ x y : Fin NFILE, x ≠ y ∧ (s.file x).ref = 0 ∧ (s.file y).ref = 0 := by
  have hcard : 1 < (Finset.univ \ l.toFinset).card := by
    have hle := Finset.le_card_sdiff l.toFinset Finset.univ
    have := l.toFinset_card_le
    rw [Finset.card_univ, Fintype.card_fin] at hle
    simp only [NFILE, NOFILE] at *
    omega
  obtain ⟨x, hx, y, hy, hne⟩ := Finset.one_lt_card.mp hcard
  simp only [Finset.mem_sdiff, Finset.mem_univ, true_and, List.mem_toFinset] at hx hy
  refine ⟨x, y, hne, ?_, ?_⟩
  · rw [h.ref, List.count_eq_zero_of_not_mem hx]
  · rw [h.ref, List.count_eq_zero_of_not_mem hy]

theorem ref_pos (h : Desk L s p d sz n l) (hfd : (s.proc p).ofile fd = some x) :
    0 < (s.file x).ref := by
  rw [h.ofile] at hfd
  rw [h.ref]
  exact List.count_pos_iff.mpr (List.mem_of_getElem? hfd)

/-! ### Calls that succeed -/

/-- **`open`** of a file. -/
theorem «open» (h : Desk L s p d sz (n + NFILE) l) (hl : l.length < NOFILE) :
    ∃ s' x, step L s (.open p true true) = some s' ∧ Desk L s' p d sz n (l ++ [x]) := by
  obtain ⟨free, hf, hlen⟩ := h.filling
  have hwp : Wp (sysOpen L p true true) s (fun _ t => ∃ x, Desk L t p d sz n (l ++ [x]))
      fun _ _ => False := by
    refine wp_sysOpen hf.owns.filePool (fun _ _ _ _ _ _ hfull => ?_)
      fun x fd t hx hfd hfirst ht hstep href _ hold hproc => ⟨x, ?_⟩
    · obtain ⟨x, -, -, hx, -⟩ := h.exists_free hl.le
      exact hfull.elim (fun hall => absurd hx (hall x)) fun hall =>
        absurd (h.eq_none_iff.mpr (Nat.le_refl _)) (hall ⟨l.length, hl⟩)
    · exact of_settled hf hlen h.alone (hf.owns.settle hf.used hf.space ht hstep) hproc
        (push_slot h.ofile (h.first hl hfd hfirst)) (h.ref_push (by rw [href, hx]) hold)
  obtain ⟨-, s', hstep, x, hx⟩ := exists_call hf.live hwp
  exact ⟨s', x, hstep, hx⟩

/-- **`dup`** of a descriptor. -/
theorem dup (h : Desk L s p d sz (n + NFILE) l) (fd : Fin NOFILE) (hfd : l[fd.val]? = some x)
    (hl : l.length < NOFILE) : ∃ s', step L s (.dup p fd) = some s' ∧
    Desk L s' p d sz n (l ++ [x]) := by
  obtain ⟨free, hf, hlen⟩ := h.filling
  have hx : (s.proc p).ofile fd = some x := (h.ofile fd).trans hfd
  have hwp : Wp (sysDup p fd) s (fun _ t => Desk L t p d sz n (l ++ [x])) fun _ _ => False := by
    refine wp_sysDup hf.owns.filePool (fun z _ hz href => ?_) (fun hno => ?_)
      fun z fd' t hz hfd' hfirst ht hstep hfile hproc => ?_
    · exact absurd href (Nat.not_lt.mpr (h.ref_pos hz))
    · rcases hno with hno | hno
      · rw [hx] at hno
        cases hno
      · exact absurd (h.eq_none_iff.mpr (Nat.le_refl _)) (hno ⟨l.length, hl⟩)
    · obtain rfl := Option.some.inj (hz.symm.trans hx)
      refine of_settled hf hlen h.alone (hf.owns.settle hf.used hf.space ht hstep) hproc
        (push_slot h.ofile (h.first hl hfd' hfirst)) (h.ref_push ?_ fun y hy => ?_)
      · rw [hfile, Function.update_self]
      · rw [hfile, Function.update_of_ne hy]
  obtain ⟨-, s', hstep, h'⟩ := exists_call hf.live hwp
  exact ⟨s', hstep, h'⟩

/-- The first descriptor is duplicated `k` times. -/
theorem dups (k : ℕ) (h : Desk L s p d sz (n + k * NFILE) l) (hx : l[0]? = some x)
    (hl : l.length + k ≤ NOFILE) : ∃ s', run (step L) s (List.replicate k (.dup p 0)) = some s' ∧
    Desk L s' p d sz n (l ++ List.replicate k x) := by
  induction k generalizing s l with
  | zero =>
    rw [Nat.zero_mul] at h
    exact ⟨s, rfl, by simpa using h⟩
  | succ k ih =>
    rw [Nat.succ_mul, ← Nat.add_assoc] at h
    obtain ⟨s₁, hstep, h₁⟩ := h.dup 0 hx (by omega)
    have hx₁ : (l ++ [x])[0]? = some x := by
      rw [List.getElem?_append_left (List.getElem?_eq_some_iff.mp hx).1, hx]
    obtain ⟨s', hrun, h'⟩ := ih h₁ hx₁
      (by simp only [List.length_append, List.length_singleton]; omega)
    refine ⟨s', (run_cons_eq_some _).mpr ⟨s₁, hstep, hrun⟩, ?_⟩
    rwa [List.append_assoc, List.singleton_append, ← List.replicate_succ] at h'

/-- **`close`** of the last descriptor. -/
theorem close (h : Desk L s p d sz (n + NFILE) (l ++ [x])) (fd : Fin NOFILE)
    (hfd : fd.val = l.length) : ∃ s', step L s (.close p fd) = some s' ∧ Desk L s' p d sz n l := by
  obtain ⟨free, hf, hlen⟩ := h.filling
  have hx : (s.proc p).ofile fd = some x := by
    rw [h.ofile, hfd, List.getElem?_concat_length]
  have hwp : Wp (sysClose L p fd) s (fun _ t => Desk L t p d sz n l) fun _ _ => False := by
    refine wp_sysClose hf.owns.filePool (fun z _ hz href => ?_) (fun hnone => ?_)
      fun z t free' hz ht hstep hfile hproc => ?_
    · exact absurd href (Nat.not_lt.mpr (h.ref_pos hz))
    · rw [hx] at hnone
      cases hnone
    · obtain rfl := Option.some.inj (hz.symm.trans hx)
      refine of_settled hf hlen h.alone (hf.owns.settle hf.used hf.space ht hstep) hproc
        (pop_slot h.ofile hfd) fun y => ?_
      have href := h.ref y
      rw [hfile]
      by_cases hy : y = z
      · rw [hy, List.count_append, List.count_singleton_self] at href
        rw [hy, Function.update_self, File.close_ref, href, Nat.add_sub_cancel]
      · rw [List.count_append, List.count_singleton, if_neg (by simpa using Ne.symm hy)] at href
        rw [Function.update_of_ne hy, href, Nat.add_zero]
  obtain ⟨-, s', hstep, h'⟩ := exists_call hf.live hwp
  exact ⟨s', hstep, h'⟩

/-- The slots of a new pipe are the next two. -/
theorem pipe_slots (h : Desk L s p d sz n l) {fd0 fd1 : Fin NOFILE}
    (hfirst : ∀ fd, (s.proc p).ofile fd = none → fd0 ≤ fd ∧ (fd ≠ fd0 → fd1 ≤ fd))
    (hlt : fd0 < fd1) (hfd0 : (s.proc p).ofile fd0 = none) :
    fd0.val = l.length ∧ fd1.val = l.length + 1 := by
  have h0 := h.eq_none_iff.mp hfd0
  have hlast := fd1.isLt
  have hlt := Fin.lt_def.mp hlt
  have hfree := fun i hi => hfirst ⟨l.length + i, hi⟩ (h.eq_none_iff.mpr (Nat.le_add_right _ _))
  have hfd0' : fd0.val = l.length := Nat.le_antisymm (hfree 0 (by omega)).1 h0
  refine ⟨hfd0', Nat.le_antisymm ((hfree 1 (by omega)).2 fun heq => ?_) (by omega)⟩
  have := congrArg Fin.val heq
  simp only at this
  omega

/-- The files of a new pipe have one reference each. -/
theorem ref_pipe (h : Desk L s p d sz n l) {g : ℕ} (hopens : Opens s.file s'.file x y g)
    (z : Fin NFILE) : (s'.file z).ref = (l ++ [x] ++ [y]).count z := by
  simp only [List.count_append, List.count_singleton, beq_iff_eq, ← h.ref]
  by_cases hy : z = y
  · rw [hy, hopens.ref.2, hopens.free.2, if_neg hopens.ne, if_pos rfl]
  · rw [if_neg (Ne.symm hy)]
    by_cases hx : z = x
    · rw [hx, hopens.ref.1, hopens.free.1, if_pos rfl]
    · rw [hopens.old z hx hy, if_neg (Ne.symm hx), Nat.add_zero]

/-- With two slots there is no reason to refuse a pipe. -/
theorem not_refused (h : Desk L s p d sz (n + NFILE) l) (hf : Filling L s free p d sz)
    (hlen : n + NFILE ≤ free.length) (hsz : 8 ≤ sz) (hroom : l.length + 2 ≤ NOFILE) :
    ¬ (argptr (s.proc p).sz 0 8 = none ∨ free = [] ∨
      (∀ x y, (s.file x).ref = 0 → (s.file y).ref = 0 → x = y) ∨
      ∀ fd fd', (s.proc p).ofile fd = none → (s.proc p).ofile fd' = none → fd = fd') := by
  rintro (hbad | hempty | hfiles | hslots)
  · have hbound := hf.covers.bound
    have h8 : (8 : BitVec 32).toNat = 8 ∧ (8 : BitVec 32).toInt = 8 := ⟨rfl, rfl⟩
    rw [argptr, hf.size] at hbad
    split at hbad
    · simp only [KERNBASE] at hbound
      omega
    · cases hbad
  · rw [hempty] at hlen
    exact absurd hlen (by simp [NFILE])
  · obtain ⟨x, y, hne, hx, hy⟩ := h.exists_free (by omega)
    exact hne (hfiles x y hx hy)
  · have heq := hslots ⟨l.length, by omega⟩ ⟨l.length + 1, by omega⟩
      (h.eq_none_iff.mpr (Nat.le_refl _)) (h.eq_none_iff.mpr (Nat.le_succ _))
    exact absurd (Fin.mk.inj heq) (Nat.ne_of_lt (Nat.lt_succ_self _))

/-- **`pipe`** opens two files if there are two slots, and otherwise leaves nothing behind. -/
theorem pipe (h : Desk L s p d sz (n + NFILE) l) (hsz : 8 ≤ sz) :
    ∃ s', step L s (.pipe p 0) = some s' ∧ if l.length + 2 ≤ NOFILE then
      ∃ x y, x ∉ l ∧ Desk L s' p d sz n (l ++ [x] ++ [y]) else Desk L s' p d sz n l := by
  obtain ⟨free, hf, hlen⟩ := h.filling
  have hwp : Wp (sysPipe L p 0) s (fun _ t => if l.length + 2 ≤ NOFILE then
      ∃ x y, x ∉ l ∧ Desk L t p d sz n (l ++ [x] ++ [y]) else Desk L t p d sz n l)
      fun _ _ => False := by
    refine wp_sysPipe hf.owns hf.used hf.space (by decide) (fun hno _ => ?_)
      (fun t free' ht hproc hsame hreason => ?_)
      fun f0 f1 g fd0 fd1 t free' ht hopens hfirst hlt hfd0 _ hproc => ?_
    · obtain ⟨a, -, ha, hno⟩ := hno
      exact hno (hf.storable (by omega))
    · rw [if_neg fun hroom => h.not_refused hf hlen hsz hroom hreason]
      exact of_settled hf hlen h.alone ht (by rw [hproc, Function.update_eq_self]) h.ofile
        fun y => by rw [hsame.ref_eq, h.ref]
    · obtain ⟨h0, h1⟩ := h.pipe_slots hfirst hlt hfd0
      have hlast := fd1.isLt
      rw [if_pos (by omega)]
      refine ⟨f0, f1, fun hmem => ?_, of_settled hf hlen h.alone ht hproc
        (push_slot (push_slot h.ofile h0) (by simpa using h1)) (h.ref_pipe hopens)⟩
      exact absurd hopens.free.1 (Nat.ne_of_gt (h.ref f0 ▸ List.count_pos_iff.mpr hmem))
  obtain ⟨-, s', hstep, h'⟩ := exists_call hf.live hwp
  exact ⟨s', hstep, h'⟩

/-- **`fork`**: both processes have the files open. -/
theorem fork {k : ℕ} (h : Desk L s p d sz k l) (hk : n + 515 + 2 * npages sz ≤ k)
    (hl : l.length ≤ NOFILE) : ∃ s' free' np, step L s (.fork p) = some s' ∧
    Filling L s' free' p d sz ∧ n ≤ free'.length ∧
      np ≠ p ∧ (s'.proc np).status = .live ∧ (s'.proc np).sz = sz ∧
      ∀ y, (s'.file y).ref = 2 * l.count y := by
  obtain ⟨free, hf, hlen⟩ := h.filling
  obtain ⟨r, hr⟩ := exists_ne p
  have hwp : Wp (Vm.fork L p) s (fun _ t => ∃ np d', Forked L True s free p np d d' t)
      fun _ _ => False := by
    refine wp_fork hf.owns hf.used hf.space (fun _ _ _ hn => hn trivial) ?_
      (fun np d' t ht => ⟨np, d', ht⟩) fun t free' _ _ hfew => ?_
    · rintro ⟨fd, y, hfd, href⟩
      exact absurd href (Nat.not_lt.mpr (h.ref_pos hfd))
    · rw [hf.size] at hfew
      exact absurd hfew (not_or.mpr ⟨fun hfull => hfull r (h.alone r hr), by omega⟩)
  obtain ⟨-, s', hstep, np, d', hforked⟩ := exists_call hf.live hwp
  obtain ⟨free', howns, hlen'⟩ := hforked.owns
  have hne : p ≠ np := by
    rintro rfl
    exact hf.used hforked.slot
  have hproc := hforked.others p hne
  rw [hf.size] at hlen'
  refine ⟨s', free', np, hstep, ⟨howns, ?_, ?_, ?_, ?_⟩, by omega, hne.symm, hforked.live,
    hforked.sz.trans hf.size, fun y => ?_⟩
  · rw [hproc]
    exact hf.live
  · rw [hproc]
    exact hf.pgdir
  · rw [hproc]
    exact hf.size
  · rw [(hforked.parent hf.owns hf.used hf.space).1]
    exact hf.writable
  · rw [hforked.file]
    simp only [h.ofile, countP_slots hl, h.ref]
    omega

end Desk

namespace Filling

/-- **`exec`** of a file in order, with one argument of `n` letters. -/
theorem exec (h : Filling L s free p d sz) {ip : Image} {newsz : ℕ} (hip : ip.InOrder newsz)
    (hlen : 514 + 2 * npages newsz ≤ free.length) (hn : n + 24 ≤ PGSIZE) (hsz : n + 17 ≤ sz)
    (hbytes : ∀ a < n + 17, s.phys.mem.byte d a = argBytes n a) :
    ∃ s' e, step L s (.exec p (some ip) 4) = some s' ∧
      s' = { s with
        phys := s'.phys
        proc := Function.update s.proc p { s.proc p with pgdir := some e, sz := newsz } } := by
  obtain ⟨e, p₁, hload⟩ := (h.owns.part p).loading_inOrder hip hlen
  obtain ⟨free₁, h₁, hkeep₁⟩ := (h.owns.part p).stackedImage hload
  have htotal : total [List.replicate n 0x61] ≤ PGSIZE := by
    simp only [total, Vm.used, room, List.map_cons, List.map_nil, List.sum_cons, List.sum_nil,
      List.length_replicate, List.length_singleton, PGSIZE] at *
    omega
  have hargc : [List.replicate n (0x61 : UInt8)].length < MAXARG := by
    rw [List.length_singleton]
    decide
  have hshort : ∀ str ∈ [List.replicate n (0x61 : UInt8)], str.length + 1 ≤ KERNBASE := by
    intro str hstr
    rw [List.mem_singleton.mp hstr, List.length_replicate]
    simp only [PGSIZE, KERNBASE] at *
    omega
  have hclear : Clear newsz 0 [List.replicate n 0x61] := by
    have hstack := h₁.stack
    refine clear_of_used_le ?_
    simp only [total, PGSIZE] at *
    omega
  have hwp : Wp (sysExec L p (some ip) 4) s (fun _ t => ∃ e, t = { s with
      phys := t.phys
      proc := Function.update s.proc p { s.proc p with pgdir := some e, sz := newsz } })
      fun _ _ => False := by
    simp only [sysExec, wp_bind, wp_getProc]
    rw [wp_pgdirOf h.pgdir, wp_vm, h.size]
    refine wp_fetchArgv_letters h.covers hsz hbytes ?_
    rw [wp_bind, wp_vm, Vm.exec, wp_bind, Wp.of_ok hload]
    simp only [wp_bind]
    refine (erases_pushStack L d e ip _ newsz).wp (h₁.wp_pushStackT hargc hshort hclear
      (fun _ img _ p₂ _ hd hsz h₂ hkeep₂ _ _ => ?_) fun hlt => absurd htotal (Nat.not_le.mpr hlt))
    rw [← hd, ← hsz] at h₂
    refine h.owns.wp_commit h.used h.space h₂.image (hkeep₁.trans hkeep₂) fun t _ _ ht => ?_
    exact ⟨img.pgdir, hsz ▸ ht⟩
  obtain ⟨-, s', hstep, e, hs'⟩ := exists_call h.live hwp
  exact ⟨s', e, hstep, hs'⟩

end Filling

/-! ### The run -/

/-- The run. -/
def session (p : Slot) : List Event :=
  ([.sbrk p (BitVec.ofNat 32 4096), .open p true true] : List Event) ++
    (List.replicate 14 (Event.dup p 0) ++
      (([.pipe p 0, .close p 14, .pipe p 0, .close p 15, .fork p] : List Event) ++
        ((List.range 19).map (fun a => Event.store p a (argBytes 2 a)) ++
          [Event.exec p (some program) 4])))

/-- What the run comes to. The caller `p` executes the program, and its child `np` has the memory
that it had before. Both have the file `x` in 14 slots and the end `y` of a pipe in one. -/
structure SessionEnd (s : State) (p np : Slot) (x y : Fin NFILE) : Prop where
  caller : (s.proc p).status = .live ∧ (s.proc p).sz = 20480
  child : (s.proc np).status = .live ∧ (s.proc np).sz = 8192
  ne : x ≠ y
  ref : ∀ z, (s.file z).ref = 2 * (List.replicate 14 x ++ [y]).count z

/-- **The session**, on a machine with two CPUs. -/
theorem exists_session : ∃ s₀ s np x y, boot smallKernel 1 (fun _ => 0) 0 zeroed = some s₀ ∧
    run (step smallKernel) s₀ (session s₀.initproc) = some s ∧ SessionEnd s s₀.initproc np x y := by
  obtain ⟨s₀, hs₀⟩ := exists_boot_smallKernel
  obtain ⟨free₀, hbooted⟩ := booted_of_boot hs₀
  obtain ⟨s₁, free₁, d, hstep₁, h₁, hlen₁, hs₁⟩ := hbooted.sbrk (n := 4096) (by decide) (by decide)
  have hdesk₁ : Desk smallKernel s₁ s₀.initproc d 8192 20000 [] := by
    refine ⟨⟨free₁, h₁, hlen₁⟩, fun r hr => ?_, fun fd => ?_, fun y => ?_⟩
    · rw [hs₁]
      simp only [Function.update_of_ne hr]
      exact hbooted.unused r hr
    · rw [hs₁]
      simp only [Function.update_self]
      exact hbooted.ofile _ fd
    · rw [hs₁]
      exact (hbooted.file y).1
  obtain ⟨s₂, x, hstep₂, h₂⟩ := hdesk₁.open (n := 19900) (by decide)
  obtain ⟨s₃, hrun₃, h₃⟩ := h₂.dups (n := 18500) 14 rfl (by simp [NOFILE])
  -- one slot is left: the first `pipe` fails
  obtain ⟨s₄, hstep₄, h₄⟩ := h₃.pipe (n := 18400) (by decide)
  obtain ⟨s₅, hstep₅, h₅⟩ : ∃ s₅, step smallKernel s₄ (.close s₀.initproc 14) = some s₅ ∧
      Desk smallKernel s₅ s₀.initproc d 8192 18300 (List.replicate 14 x) :=
    Desk.close (n := 18300) (l := List.replicate 14 x) (x := x) h₄ 14 rfl
  obtain ⟨s₆, hstep₆, y, z, hy, h₆⟩ := h₅.pipe (n := 18200) (by decide)
  obtain ⟨s₇, hstep₇, h₇⟩ := h₆.close (n := 18100) 15 rfl
  obtain ⟨s₈, free₈, np, hstep₈, h₈, hlen₈, hnp, hlive, hsz, href⟩ :=
    h₇.fork (n := 15000) (by decide) (by simp [NOFILE])
  obtain ⟨s₉, hrun₉, h₉, hproc₉, hfile₉, hbytes⟩ := h₈.stores (argBytes 2) 19 (by decide)
  have hpages : npages 20480 = 5 := rfl
  obtain ⟨s, e, hstep, hs⟩ := h₉.exec program_inOrder (by omega) (by decide) (by decide) hbytes
  have hchild : s.proc np = s₈.proc np := by
    rw [hs]
    simp only [Function.update_of_ne hnp]
    rw [hproc₉]
  refine ⟨s₀, s, np, x, y, hs₀, ?_, ⟨?_, ?_⟩, ?_, ?_, fun z => ?_⟩
  · simp only [session, run_append_eq_some, run_cons_eq_some]
    exact ⟨s₂, ⟨s₁, hstep₁, s₂, hstep₂, rfl⟩, s₃, hrun₃, s₈,
      ⟨s₄, hstep₄, s₅, hstep₅, s₆, hstep₆, s₇, hstep₇, s₈, hstep₈, rfl⟩, s₉, hrun₉, s, hstep, rfl⟩
  · rw [hs]
    simp only [Function.update_self]
    exact h₉.live
  · rw [hs]
    simp only [Function.update_self]
  · rw [hchild]
    exact ⟨hlive, hsz⟩
  · rintro rfl
    exact hy (List.mem_replicate.mpr ⟨by decide, rfl⟩)
  · rw [hs]
    simp only
    rw [hfile₉, href]

end Vm

end Xv6
