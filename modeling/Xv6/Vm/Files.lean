import Xv6.Vm.Argv
import Xv6.Vm.References

/-!
# The pages of the pipes

Every open pipe has one page, and at most one file for each of its ends. The words `readopen` and
`writeopen` in that page say which ends are open, so the page is given back when the file of the
last end is closed. The functions of `file.c` and `pipe.c` keep this, also when they fail halfway.

## Main definitions

* `pipes` — the pages of the open pipes
* `PipesOk`, `FilePool` — the invariant
* `FileStep` — what the functions on files change

## Main results

* `wp_fileclose`, `wp_pipealloc`
* `wp_closeFiles`, `wp_dupFiles`
-/

namespace Xv6

namespace Vm

open Proc (Slot)

variable {L : Layout} {X : Multiset ℕ} {s s' s'' : State} {free : List ℕ} {g : ℕ}
variable {file file' : Fin NFILE → File} {m m' : Mem} {x y : Fin NFILE}
variable {α : Type} {E : Halt → State → Prop}

/-! ### Rules for the programs of the kernel -/

@[simp] theorem wp_vm {x : M α} {Q : α → State → Prop} : Wp (vm x) s Q E ↔
    Wp x s.phys (fun a p => Q a { s with phys := p }) fun e p => E e { s with phys := p } := by
  unfold Wp vm
  cases x s.phys <;> exact Iff.rfl

/-- The state in which a program ends, if it meets its specification. -/
theorem final_of_wp {x : K α} {Q : α → State → Prop} (hx : Wp x s Q E) (h : final x s = some s') :
    ∃ a, Q a s' := by
  rw [final] at h
  split at h
  · rename_i a t hok
    cases h
    exact ⟨a, (Wp.of_ok hok).mp hx⟩
  · cases h

/-- A program that cannot stop ends in a state. -/
theorem exists_final {x : K α} {Q : α → State → Prop} (hx : Wp x s Q fun _ _ => False) :
    ∃ a s', final x s = some s' ∧ Q a s' := by
  obtain ⟨a, s', hres, hQ⟩ := hx.ok
  exact ⟨a, s', by rw [final, hres], hQ⟩

/-- The same for a system call. -/
theorem exists_call {x : K α} {p : Slot} {Q : α → State → Prop} (hlive : (s.proc p).status = .live)
    (hx : Wp x s Q fun _ _ => False) : ∃ a s', s.call p x = some s' ∧ Q a s' := by
  rw [State.call, if_pos hlive]
  exact exists_final hx

@[simp] theorem wp_getProc {p : Slot} {Q : Process → State → Prop} :
    Wp (getProc p) s Q E ↔ Q (s.proc p) s := Iff.rfl

@[simp] theorem wp_setProc {p : Slot} {f : Process → Process} {Q : Unit → State → Prop} :
    Wp (setProc p f) s Q E ↔
    Q () { s with proc := Function.update s.proc p (f (s.proc p)) } := Iff.rfl

@[simp] theorem wp_getFile {Q : File → State → Prop} : Wp (getFile x) s Q E ↔
    Q (s.file x) s := Iff.rfl

@[simp] theorem wp_setFile {f : File → File} {Q : Unit → State → Prop} :
    Wp (setFile x f) s Q E ↔
    Q () { s with file := Function.update s.file x (f (s.file x)) } := Iff.rfl

/-! ### The invariant -/

/-- The pages of the open pipes. -/
def pipeSet (file : Fin NFILE → File) : Finset ℕ :=
  (Finset.univ.filter fun x => (file x).type = .pipe).image fun x => (file x).pipe

/-- The pages of the open pipes, each of them once. -/
def pipes (file : Fin NFILE → File) : Multiset ℕ := (pipeSet file).val

/-- The index of the word for one end of a pipe. -/
def pipeEnd (writable : Bool) : ℕ := if writable then writeopen else readopen

theorem mem_pipes : g ∈ pipes file ↔ ∃ x, (file x).type = .pipe ∧ (file x).pipe = g := by
  simp [pipes, pipeSet]

/-- The files and the words in the pages of the pipes agree. -/
structure PipesOk (file : Fin NFILE → File) (m : Mem) : Prop where
  closed : ∀ x, (file x).ref = 0 → (file x).type ≠ .pipe
  unique : ∀ x y, (file x).type = .pipe → (file y).type = .pipe → (file x).pipe = (file y).pipe →
    (file x).writable = (file y).writable → x = y
  word : ∀ x, (file x).type = .pipe → ∀ b, m.word (file x).pipe (pipeEnd b) ≠ 0 ↔
    ∃ y, (file y).type = .pipe ∧ (file y).pipe = (file x).pipe ∧ (file y).writable = b
  flag : ∀ x, (file x).type = .pipe → ∀ b, m.word (file x).pipe (pipeEnd b) ≤ 1

/-- Of the pool `X` the pages of the pipes have been taken. -/
structure FilePool (L : Layout) (X : Multiset ℕ) (s : State) (free : List ℕ) : Prop where
  pool : Pool L X s.phys free (pipes s.file)
  ok : PipesOk s.file s.phys.mem

/-- What the functions on files may change. -/
structure FileStep (X : Multiset ℕ) (s s' : State) : Prop where
  kpgdir : s'.kpgdir = s.kpgdir
  cpuStacks : s'.cpuStacks = s.cpuStacks
  initproc : s'.initproc = s.initproc
  proc : ∀ q, s'.proc q = { s.proc q with ofile := (s'.proc q).ofile }
  keeps : Keeps X 0 s.phys.mem s'.phys.mem

theorem FileStep.refl (X : Multiset ℕ) (s : State) : FileStep X s s :=
  ⟨rfl, rfl, rfl, fun _ => rfl, Keeps.refl _ _ _⟩

theorem FileStep.trans (h : FileStep X s s') (h' : FileStep X s' s'') : FileStep X s s'' where
  kpgdir := h'.kpgdir.trans h.kpgdir
  cpuStacks := h'.cpuStacks.trans h.cpuStacks
  initproc := h'.initproc.trans h.initproc
  proc q := by
    rw [h'.proc q, h.proc q]
  keeps := h.keeps.trans h'.keeps

/-- Only files have changed. -/
theorem FileStep.of_file (X : Multiset ℕ) (s : State) (file' : Fin NFILE → File) :
    FileStep X s { s with file := file' } :=
  ⟨rfl, rfl, rfl, fun _ => rfl, Keeps.refl _ _ _⟩

/-- The same step, with another `status` of a process. -/
theorem FileStep.setStatus (h : FileStep X s s') {p : Slot} (c : Status) {t t' : State}
    (ht : t = { s with proc := Function.update s.proc p { s.proc p with status := c } })
    (ht' : t' = { s' with proc := Function.update s'.proc p { s'.proc p with status := c } }) :
    FileStep X t t' := by
  subst ht ht'
  refine ⟨h.kpgdir, h.cpuStacks, h.initproc, fun q => ?_, h.keeps⟩
  by_cases hq : q = p
  · subst hq
    simp only [Function.update_self]
    rw [h.proc q]
  · simp only [Function.update_of_ne hq]
    exact h.proc q

/-- No pipe is opened or closed. -/
theorem PipesOk.congr (h : PipesOk file m) (hclosed : ∀ x, (file' x).ref = 0 →
    (file' x).type ≠ .pipe)
    (htype : ∀ x, (file' x).type = .pipe ↔ (file x).type = .pipe)
    (hpipe : ∀ x, (file' x).type = .pipe →
      (file' x).pipe = (file x).pipe ∧ (file' x).writable = (file x).writable) :
    PipesOk file' m ∧ pipes file' = pipes file := by
  refine ⟨⟨hclosed, fun x y hx hy heq hw => ?_, fun x hx b => ?_, fun x hx b => ?_⟩, ?_⟩
  · rw [(hpipe x hx).1, (hpipe y hy).1] at heq
    rw [(hpipe x hx).2, (hpipe y hy).2] at hw
    exact h.unique x y ((htype x).mp hx) ((htype y).mp hy) heq hw
  · rw [(hpipe x hx).1, h.word x ((htype x).mp hx) b]
    constructor
    · rintro ⟨y, hy, heq, hw⟩
      have hy' := (htype y).mpr hy
      exact ⟨y, hy', (hpipe y hy').1.trans heq, (hpipe y hy').2.trans hw⟩
    · rintro ⟨y, hy, heq, hw⟩
      exact ⟨y, (htype y).mp hy, (hpipe y hy).1.symm.trans heq, (hpipe y hy).2.symm.trans hw⟩
  · rw [(hpipe x hx).1]
    exact h.flag x ((htype x).mp hx) b
  · have hset : pipeSet file' = pipeSet file := by
      ext g
      constructor
      · intro hg
        obtain ⟨x, hx, heq⟩ := mem_pipes.mp hg
        exact mem_pipes.mpr ⟨x, (htype x).mp hx, (hpipe x hx).1.symm.trans heq⟩
      · intro hg
        obtain ⟨x, hx, heq⟩ := mem_pipes.mp hg
        have hx' := (htype x).mpr hx
        exact mem_pipes.mpr ⟨x, hx', (hpipe x hx').1.trans heq⟩
    rw [pipes, hset, pipes]

/-- The pipes are not affected by changes to other pages. -/
theorem PipesOk.congr_mem (h : PipesOk file m) (hmem : ∀ g ∈ pipes file, m' g = m g) :
    PipesOk file m' := by
  refine ⟨h.closed, h.unique, fun x hx b => ?_, fun x hx b => ?_⟩
  · rw [Mem.word_congr (hmem _ (mem_pipes.mpr ⟨x, hx, rfl⟩))]
    exact h.word x hx b
  · rw [Mem.word_congr (hmem _ (mem_pipes.mpr ⟨x, hx, rfl⟩))]
    exact h.flag x hx b

/-- The table of files after the file `x` has been closed. -/
def Closes (file file' : Fin NFILE → File) (x : Fin NFILE) : Prop :=
  (∀ y ≠ x, file' y = file y) ∧ (file' x).type ≠ .pipe

theorem Closes.type_iff (h : Closes file file' x) :
    (file' y).type = .pipe ↔ y ≠ x ∧ (file y).type = .pipe := by
  by_cases hy : y = x
  · subst hy
    exact iff_of_false h.2 fun hne => hne.1 rfl
  · rw [h.1 y hy]
    exact (and_iff_right hy).symm

theorem Closes.mem_pipes (h : Closes file file' x) :
    g ∈ pipes file' ↔ ∃ y, y ≠ x ∧ (file y).type = .pipe ∧ (file y).pipe = g := by
  rw [Vm.mem_pipes]
  refine exists_congr fun y => ?_
  rw [h.type_iff, and_assoc]
  refine and_congr_right fun hy => ?_
  rw [h.1 y hy]

theorem Closes.pipes_subset (h : Closes file file' x) (hg : g ∈ pipes file') : g ∈ pipes file := by
  obtain ⟨y, -, hy, heq⟩ := h.mem_pipes.mp hg
  exact Vm.mem_pipes.mpr ⟨y, hy, heq⟩

theorem word_pipeEnd (m : Mem) (g : ℕ) (w b : Bool) :
    (m.setWord g (pipeEnd w) 0).word g (pipeEnd b) =
    if b = w then 0 else m.word g (pipeEnd b) := by
  have hi : pipeEnd w < 1024 := by
    cases w <;> decide
  have hinj : pipeEnd b = pipeEnd w ↔ b = w := by
    cases b <;> cases w <;> decide
  rw [Mem.word_setWord hi]
  simp only [true_and, hinj]
  rfl

theorem both_closed_iff (m : Mem) (g : ℕ) (w : Bool) :
    ((m.setWord g (pipeEnd w) 0).word g readopen = 0 ∧
      (m.setWord g (pipeEnd w) 0).word g writeopen = 0) ↔ m.word g (pipeEnd (!w)) = 0 := by
  change ((m.setWord g (pipeEnd w) 0).word g (pipeEnd false) = 0 ∧
    (m.setWord g (pipeEnd w) 0).word g (pipeEnd true) = 0) ↔ _
  rw [word_pipeEnd, word_pipeEnd]
  cases w <;> simp

/-- An end of a pipe is closed, and its word is cleared. -/
theorem PipesOk.close (h : PipesOk file m) (hx : (file x).type = .pipe)
    (hfile : Closes file file' x) :
    PipesOk file' (m.setWord (file x).pipe (pipeEnd (file x).writable) 0) := by
  refine ⟨fun y hy hpipe => ?_, fun y z hy hz heq hw => ?_, fun y hy b => ?_, fun y hy b => ?_⟩
  · obtain ⟨hne, hpipe⟩ := hfile.type_iff.mp hpipe
    rw [hfile.1 y hne] at hy
    exact h.closed y hy hpipe
  · obtain ⟨hy, hypipe⟩ := hfile.type_iff.mp hy
    obtain ⟨hz, hzpipe⟩ := hfile.type_iff.mp hz
    rw [hfile.1 y hy, hfile.1 z hz] at heq hw
    exact h.unique y z hypipe hzpipe heq hw
  · obtain ⟨hne, hpipe⟩ := hfile.type_iff.mp hy
    rw [hfile.1 y hne]
    have hother : (∃ z, (file' z).type = .pipe ∧ (file' z).pipe = (file y).pipe ∧
        (file' z).writable = b) ↔ ∃ z, z ≠ x ∧ (file z).type = .pipe ∧
          (file z).pipe = (file y).pipe ∧ (file z).writable = b := by
      refine exists_congr fun z => ?_
      rw [hfile.type_iff, and_assoc]
      refine and_congr_right fun hz => ?_
      rw [hfile.1 z hz]
    rw [hother]
    by_cases hg : (file y).pipe = (file x).pipe
    · rw [hg, word_pipeEnd]
      by_cases hb : b = (file x).writable
      · -- the word of the closed end is `0`, and no other file is open for this end
        rw [if_pos hb]
        refine iff_of_false (fun hne => hne rfl) ?_
        rintro ⟨z, hz, hzpipe, heq, hw⟩
        exact hz (h.unique z x hzpipe hx heq (hw.trans hb))
      · rw [if_neg hb, h.word x hx b]
        refine exists_congr fun z => ⟨fun hz => ⟨?_, hz⟩, fun hz => hz.2⟩
        rintro rfl
        exact hb hz.2.2.symm
    · rw [Mem.word_congr (Mem.setWord_of_ne hg), h.word y hpipe b]
      refine exists_congr fun z => ⟨fun hz => ⟨?_, hz⟩, fun hz => hz.2⟩
      rintro rfl
      exact hg hz.2.1.symm
  · obtain ⟨hne, hpipe⟩ := hfile.type_iff.mp hy
    rw [hfile.1 y hne]
    by_cases hg : (file y).pipe = (file x).pipe
    · rw [hg, word_pipeEnd]
      split
      · exact Nat.zero_le _
      · exact h.flag x hx b
    · rw [Mem.word_congr (Mem.setWord_of_ne hg)]
      exact h.flag y hpipe b

/-- The pages of the pipes after an end has been closed. -/
theorem PipesOk.pipes_close (h : PipesOk file m) (hx : (file x).type = .pipe)
    (hfile : Closes file file' x) :
    if m.word (file x).pipe (pipeEnd (!(file x).writable)) = 0 then
      pipes file = (file x).pipe ::ₘ pipes file'
    else pipes file' = pipes file := by
  have hother := h.word x hx (!(file x).writable)
  split
  · rename_i hword
    have hnone : (file x).pipe ∉ pipeSet file' := by
      intro hg
      obtain ⟨y, hne, hpipe, heq⟩ := hfile.mem_pipes.mp hg
      refine hother.mpr ⟨y, hpipe, heq, ?_⟩ hword
      rw [Bool.eq_not]
      exact fun hw => hne (h.unique y x hpipe hx heq hw)
    have hset : pipeSet file = insert (file x).pipe (pipeSet file') := by
      ext g
      rw [Finset.mem_insert]
      constructor
      · intro hg
        obtain ⟨y, hy, heq⟩ := mem_pipes.mp hg
        by_cases hyx : y = x
        · exact Or.inl (hyx ▸ heq.symm)
        · exact Or.inr (hfile.mem_pipes.mpr ⟨y, hyx, hy, heq⟩)
      · rintro (rfl | hg)
        · exact mem_pipes.mpr ⟨x, hx, rfl⟩
        · exact hfile.pipes_subset hg
    rw [pipes, hset, Finset.insert_val_of_notMem hnone, pipes]
  · rename_i hword
    obtain ⟨z, hz, hzeq, hzw⟩ := hother.mp hword
    have hzx : z ≠ x := by
      rintro rfl
      exact Bool.not_ne_self _ hzw.symm
    have hset : pipeSet file' = pipeSet file := by
      refine Finset.Subset.antisymm (fun g hg => hfile.pipes_subset hg) fun g hg => ?_
      obtain ⟨y, hy, heq⟩ := mem_pipes.mp hg
      by_cases hyx : y = x
      · subst hyx
        exact hfile.mem_pipes.mpr ⟨z, hzx, hz, hzeq.trans heq⟩
      · exact hfile.mem_pipes.mpr ⟨y, hyx, hy, heq⟩
    rw [pipes, hset, pipes]

/-! ### Closing files -/

theorem wp_pipeclose {p : Phys} {E : Halt → Phys → Prop} (hpool : Pool L X p free (pipes file))
    (hok : PipesOk file p.mem) (hx : (file x).type = .pipe) (hfile : Closes file file' x)
    {Q : Unit → Phys → Prop}
    (hQ : ∀ p' free', Pool L X p' free' (pipes file') → PipesOk file' p'.mem →
      Keeps X 0 p.mem p'.mem → Q () p') :
    Wp (pipeclose L (file x).pipe (file x).writable) p Q E := by
  have hg : (file x).pipe ∈ pipes file := mem_pipes.mpr ⟨x, hx, rfl⟩
  have hpipes := hok.pipes_close hx hfile
  obtain ⟨p₁, hp₁⟩ : ∃ p₁ : Phys, p₁ =
      { p with mem := p.mem.setWord (file x).pipe (pipeEnd (file x).writable) 0 } := ⟨_, rfl⟩
  have hok₁ : PipesOk file' p₁.mem := by
    rw [hp₁]
    exact hok.close hx hfile
  have hmem₁ : ∀ f ≠ (file x).pipe, p₁.mem f = p.mem f := fun f hf => by
    rw [hp₁]
    exact Mem.setWord_of_ne hf
  have hpool₁ : Pool L X p₁ free (pipes file) :=
    hpool.write (by rw [hp₁]) fun f hf => hmem₁ f fun h => hf (h ▸ hg)
  have hkeep₁ : Keeps X 0 p.mem p₁.mem := fun f hf =>
    hmem₁ f fun h => by
      rcases hf with hf | hf
      · exact hf (h ▸ hpool.mem_of_taken hg)
      · exact Multiset.notMem_zero f hf
  change Wp (do
    store (file x).pipe (pipeEnd (file x).writable) 0
    if (← load (file x).pipe readopen) = 0 ∧ (← load (file x).pipe writeopen) = 0 then
      kfree L (file x).pipe) p Q E
  simp only [store, load, wp_bind, wp_modify, wp_get, wp_pure, both_closed_iff]
  rw [← hp₁]
  by_cases hword : p.mem.word (file x).pipe (pipeEnd (!(file x).writable)) = 0
  · rw [if_pos hword] at hpipes ⊢
    rw [hpipes] at hpool₁
    refine wp_kfree hpool₁ fun p₂ hpool₂ hmem₂ => ?_
    have hnot : ∀ f ∈ pipes file', f ≠ (file x).pipe := by
      rintro f hf rfl
      exact (Multiset.nodup_cons.mp hpool₁.nodup_taken).1 hf
    refine hQ p₂ _ hpool₂ (hok₁.congr_mem fun f hf => hmem₂ f (hnot f hf))
      (hkeep₁.trans fun f hf => ?_)
    refine hmem₂ f fun h => ?_
    rcases hf with hf | hf
    · exact hf (h ▸ hpool.mem_of_taken hg)
    · exact Multiset.notMem_zero f hf
  · rw [if_neg hword] at hpipes ⊢
    exact hQ p₁ free (hpipes ▸ hpool₁) hok₁ hkeep₁

/-- A file changes that is the end of no pipe, or stays the end of a pipe that it is. -/
theorem FilePool.setFile (h : FilePool L X s free) {f : File}
    (hclosed : f.ref = 0 → f.type ≠ .pipe) (htype : f.type = .pipe ↔ (s.file x).type = .pipe)
    (hpipe : f.type = .pipe → f.pipe = (s.file x).pipe ∧ f.writable = (s.file x).writable) :
    FilePool L X { s with file := Function.update s.file x f } free := by
  have hupdate : ∀ {P : File → Fin NFILE → Prop}, P f x → (∀ y, P (s.file y) y) →
      ∀ y, P (Function.update s.file x f y) y := by
    intro P hx hother y
    by_cases hy : y = x
    · rw [hy, Function.update_self]
      exact hx
    · rw [Function.update_of_ne hy]
      exact hother y
  have hclosed' := hupdate (P := fun f _ => f.ref = 0 → f.type ≠ .pipe) hclosed h.ok.closed
  obtain ⟨hok, hpipes⟩ := h.ok.congr hclosed'
    (hupdate (P := fun f y => f.type = .pipe ↔ (s.file y).type = .pipe) htype fun _ => Iff.rfl)
    (hupdate (P := fun f y => f.type = .pipe →
      f.pipe = (s.file y).pipe ∧ f.writable = (s.file y).writable) hpipe fun _ _ => ⟨rfl, rfl⟩)
  refine ⟨?_, hok⟩
  simp only [hpipes]
  exact h.pool

theorem wp_fileclose (h : FilePool L X s free) (hE : (s.file x).ref < 1 → E .fileclose s)
    {Q : Unit → State → Prop}
    (hQ : ∀ s' free', FilePool L X s' free' → FileStep X s s' → s'.proc = s.proc →
      s'.file = Function.update s.file x (s.file x).close → Q () s') :
    Wp (fileclose L x) s Q E := by
  simp only [fileclose, wp_bind, wp_getFile]
  by_cases href : (s.file x).ref < 1
  · rw [if_pos href]
    exact hE href
  · rw [if_neg href]
    by_cases hmore : (s.file x).ref - 1 > 0
    · rw [if_pos hmore, wp_setFile]
      refine hQ _ free (h.setFile (fun hzero => ?_) Iff.rfl fun _ => ⟨rfl, rfl⟩)
        (FileStep.of_file ..) rfl (by rw [File.close, if_pos hmore])
      simp only at hzero
      omega
    · have hclose : { s.file x with ref := 0, type := .none } = (s.file x).close := by
        rw [File.close, if_neg hmore]
      rw [if_neg hmore]
      simp only [wp_bind, wp_setFile]
      by_cases hpipe : (s.file x).type = .pipe
      · rw [if_pos hpipe, wp_vm]
        have hcloses : Closes s.file (Function.update s.file x
            { s.file x with ref := 0, type := .none }) x := by
          refine ⟨fun y hy => Function.update_of_ne hy _ _, ?_⟩
          rw [Function.update_self]
          rintro ⟨⟩
        refine wp_pipeclose h.pool h.ok hpipe hcloses fun p' free' hpool hok hkeep => ?_
        exact hQ _ free' ⟨hpool, hok⟩ ⟨rfl, rfl, rfl, fun _ => rfl, hkeep⟩ rfl (by rw [hclose])
      · rw [if_neg hpipe]
        refine hQ _ free (h.setFile (fun _ => by rintro ⟨⟩) ?_ (by rintro ⟨⟩))
          (FileStep.of_file ..) rfl (by rw [hclose])
        exact iff_of_false (by rintro ⟨⟩) hpipe

/-! ### Opening files -/

/-- The file `x` has been taken from the table. -/
structure Reserves (s s' : State) (x : Fin NFILE) : Prop where
  free : (s.file x).ref = 0
  ref : (s'.file x).ref = 1
  type : (s'.file x).type = (s.file x).type
  old : ∀ y ≠ x, s'.file y = s.file y
  eq : s' = { s with file := s'.file }

theorem Reserves.step (h : Reserves s s' x) : FileStep X s s' := by
  rw [h.eq]
  exact FileStep.of_file ..

theorem wp_filealloc (h : FilePool L X s free) {Q : Option (Fin NFILE) → State → Prop}
    (hnone : (∀ x, (s.file x).ref ≠ 0) → Q none s)
    (hsome : ∀ x s', Reserves s s' x → FilePool L X s' free → Q (some x) s') :
    Wp filealloc s Q E := by
  simp only [filealloc, wp_bind, wp_get]
  cases hfind : (List.finRange NFILE).find? fun x => (s.file x).ref = 0 with
  | none =>
    refine hnone fun x hx => ?_
    exact List.find?_eq_none.mp hfind x (List.mem_finRange x) (decide_eq_true hx)
  | some x =>
    have href : (s.file x).ref = 0 := by
      simpa using List.find?_some hfind
    have hreserves : Reserves s
        { s with file := Function.update s.file x { s.file x with ref := 1 } } x := by
      have hx := Function.update_self x { s.file x with ref := 1 } s.file
      refine ⟨href, ?_, ?_, fun y hy => Function.update_of_ne hy _ _, rfl⟩
      · exact congrArg File.ref hx
      · exact (congrArg File.type hx :)
    refine hsome x _ hreserves (h.setFile (fun hzero => ?_) Iff.rfl fun _ => ⟨rfl, rfl⟩)
    exact absurd hzero Nat.one_ne_zero

/-- Closing a file that has just been taken from the table. -/
theorem Reserves.undo (h : Reserves s s' x) :
    SameOpen s.file (Function.update s'.file x (s'.file x).close) := by
  intro y
  by_cases hy : y = x
  · rw [hy, Function.update_self]
    exact .inr ⟨h.free, by rw [File.close_ref, h.ref]⟩
  · rw [Function.update_of_ne hy]
    exact .inl (h.old y hy)

/-- Two files have been taken from the table. -/
structure Takes (file file' : Fin NFILE → File) (f0 f1 : Fin NFILE) : Prop where
  ne : f0 ≠ f1
  free : (file f0).ref = 0 ∧ (file f1).ref = 0
  ref : (file' f0).ref = 1 ∧ (file' f1).ref = 1
  old : ∀ y, y ≠ f0 → y ≠ f1 → file' y = file y

theorem Reserves.takes {f0 f1 : Fin NFILE} (h₀ : Reserves s s' f0) (h₁ : Reserves s' s'' f1) :
    Takes s.file s''.file f0 f1 := by
  have hne : f0 ≠ f1 := by
    rintro rfl
    exact absurd (h₀.ref.symm.trans h₁.free) Nat.one_ne_zero
  refine ⟨hne, ⟨h₀.free, ?_⟩, ⟨?_, h₁.ref⟩, fun y hy0 hy1 => ?_⟩
  · rw [← h₀.old f1 hne.symm]
    exact h₁.free
  · rw [h₁.old f0 hne]
    exact h₀.ref
  · rw [h₁.old y hy1, h₀.old y hy0]

/-- Closing both of them. -/
theorem Takes.undo {f0 f1 : Fin NFILE} {file'' : Fin NFILE → File} (h : Takes file file' f0 f1)
    (h' : file'' = Function.update file' f0 (file' f0).close) :
    SameOpen file (Function.update file'' f1 (file'' f1).close) := by
  intro y
  by_cases hy1 : y = f1
  · rw [hy1, Function.update_self, h', Function.update_of_ne h.ne.symm]
    exact .inr ⟨h.free.2, by rw [File.close_ref, h.ref.2]⟩
  · rw [Function.update_of_ne hy1, h']
    by_cases hy0 : y = f0
    · rw [hy0, Function.update_self]
      exact .inr ⟨h.free.1, by rw [File.close_ref, h.ref.1]⟩
    · rw [Function.update_of_ne hy0]
      exact .inl (h.old y hy0 hy1)

/-- The table of files after the pipe `g` has been opened with the files `f0` and `f1`. -/
structure Opens (file file' : Fin NFILE → File) (f0 f1 : Fin NFILE) (g : ℕ) : Prop extends
    Takes file file' f0 f1 where
  closed : (file f0).type ≠ .pipe ∧ (file f1).type ≠ .pipe
  type : (file' f0).type = .pipe ∧ (file' f1).type = .pipe
  pipe : (file' f0).pipe = g ∧ (file' f1).pipe = g
  writable : (file' f0).writable = false ∧ (file' f1).writable = true

namespace Opens

variable {f0 f1 : Fin NFILE}

/-- A file that was the end of a pipe is as it was. -/
theorem keep (h : Opens file file' f0 f1 g) (hy : (file y).type = .pipe) : file' y = file y := by
  refine h.old y ?_ ?_
  · rintro rfl
    exact h.closed.1 hy
  · rintro rfl
    exact h.closed.2 hy

/-- The ends of pipes are the two new ones and the old ones. -/
theorem cases (h : Opens file file' f0 f1 g) (hy : (file' y).type = .pipe) :
    y = f0 ∨ y = f1 ∨ (file y).type = .pipe ∧ file' y = file y := by
  by_cases hy0 : y = f0
  · exact Or.inl hy0
  · by_cases hy1 : y = f1
    · exact Or.inr (Or.inl hy1)
    · have hold := h.old y hy0 hy1
      exact Or.inr (Or.inr ⟨hold ▸ hy, hold⟩)

theorem pipes_eq (h : Opens file file' f0 f1 g) (hg : g ∉ pipes file) :
    pipes file' = g ::ₘ pipes file := by
  have hset : pipeSet file' = insert g (pipeSet file) := by
    ext f
    rw [Finset.mem_insert]
    constructor
    · intro hf
      obtain ⟨y, hy, rfl⟩ := mem_pipes.mp hf
      obtain rfl | rfl | ⟨hy', heq⟩ := h.cases hy
      · exact Or.inl h.pipe.1
      · exact Or.inl h.pipe.2
      · exact Or.inr (mem_pipes.mpr ⟨y, hy', by rw [heq]⟩)
    · rintro (rfl | hf)
      · exact mem_pipes.mpr ⟨f0, h.type.1, h.pipe.1⟩
      · obtain ⟨y, hy, rfl⟩ := mem_pipes.mp hf
        have hkeep := h.keep hy
        rw [← hkeep] at hy ⊢
        exact mem_pipes.mpr ⟨y, hy, rfl⟩
  rw [pipes, hset, Finset.insert_val_of_notMem hg, pipes]

theorem ok (h : Opens file file' f0 f1 g) (hok : PipesOk file m) (hg : g ∉ pipes file)
    (hword : ∀ b, m'.word g (pipeEnd b) = 1) (hmem : ∀ f ≠ g, m' f = m f) : PipesOk file' m' := by
  have hold : ∀ {y}, (file y).type = .pipe → (file y).pipe ≠ g := fun hy heq =>
    hg (mem_pipes.mpr ⟨_, hy, heq⟩)
  have hother : ∀ {y z}, (file y).type = .pipe → (file' z).type = .pipe →
      (file' z).pipe = (file y).pipe → (file z).type = .pipe ∧ file' z = file z := by
    intro y z hy hz heq
    obtain rfl | rfl | hz' := h.cases hz
    · exact absurd (heq.symm.trans h.pipe.1) (hold hy)
    · exact absurd (heq.symm.trans h.pipe.2) (hold hy)
    · exact hz'
  refine ⟨fun y href hy => ?_, fun y z hy hz heq hw => ?_, fun y hy b => ?_, fun y hy b => ?_⟩
  · obtain rfl | rfl | ⟨hy', hkeep⟩ := h.cases hy
    · exact absurd (h.ref.1.symm.trans href) Nat.one_ne_zero
    · exact absurd (h.ref.2.symm.trans href) Nat.one_ne_zero
    · exact hok.closed y (hkeep ▸ href) hy'
  · obtain rfl | rfl | ⟨hy', hkeep⟩ := h.cases hy
    · obtain rfl | rfl | ⟨hz', hkeep'⟩ := h.cases hz
      · rfl
      · rw [h.writable.1, h.writable.2] at hw
        cases hw
      · rw [h.pipe.1, hkeep'] at heq
        exact absurd heq.symm (hold hz')
    · obtain rfl | rfl | ⟨hz', hkeep'⟩ := h.cases hz
      · rw [h.writable.1, h.writable.2] at hw
        cases hw
      · rfl
      · rw [h.pipe.2, hkeep'] at heq
        exact absurd heq.symm (hold hz')
    · rw [hkeep] at heq hw
      obtain ⟨hz', hkeep'⟩ := hother hy' hz heq.symm
      rw [hkeep'] at heq hw
      exact hok.unique y z hy' hz' heq hw
  · by_cases hnew : (file' y).pipe = g
    · rw [hnew]
      refine iff_of_true (by rw [hword b]; exact Nat.one_ne_zero) ?_
      cases b with
      | false => exact ⟨f0, h.type.1, h.pipe.1, h.writable.1⟩
      | true => exact ⟨f1, h.type.2, h.pipe.2, h.writable.2⟩
    · obtain rfl | rfl | ⟨hy', hkeep⟩ := h.cases hy
      · exact absurd h.pipe.1 hnew
      · exact absurd h.pipe.2 hnew
      · rw [Mem.word_congr (hmem _ hnew), hkeep, hok.word y hy' b]
        constructor
        · rintro ⟨z, hz, hzeq⟩
          have hz' := h.keep hz
          rw [← hz'] at hz hzeq
          exact ⟨z, hz, hzeq⟩
        · rintro ⟨z, hz, heq, hw⟩
          obtain ⟨hz', hkeep'⟩ := hother hy' hz heq
          rw [hkeep'] at heq hw
          exact ⟨z, hz', heq, hw⟩
  · by_cases hnew : (file' y).pipe = g
    · rw [hnew, hword b]
    · obtain rfl | rfl | ⟨hy', hkeep⟩ := h.cases hy
      · exact absurd h.pipe.1 hnew
      · exact absurd h.pipe.2 hnew
      · rw [Mem.word_congr (hmem _ hnew), hkeep]
        exact hok.flag y hy' b

end Opens

/-- A new page for a pipe, with both ends open. -/
def newPipe (m : Mem) (g : ℕ) : Mem :=
  (((m.setWord g readopen 1).setWord g writeopen 1).setWord g nwrite 0).setWord g nread 0

theorem newPipe_of_ne {f : ℕ} (hf : f ≠ g) : newPipe m g f = m f := by
  simp only [newPipe, Mem.setWord_of_ne hf]

theorem word_newPipe (m : Mem) (g : ℕ) (b : Bool) : (newPipe m g).word g (pipeEnd b) = 1 := by
  rw [newPipe, Mem.word_setWord (by decide), Mem.word_setWord (by decide),
    Mem.word_setWord (by decide), Mem.word_setWord (by decide)]
  cases b <;> simp [pipeEnd]

/-- **`pipealloc`** opens a pipe, or leaves nothing behind if there is no memory for it or there are
not two files. -/
theorem wp_pipealloc (h : FilePool L X s free) {Q : Option (Fin NFILE × Fin NFILE) → State → Prop}
    (hnone : ∀ s' free', FilePool L X s' free' → FileStep X s s' → s'.proc = s.proc →
      SameOpen s.file s'.file →
      (free = [] ∨ ∀ x y, (s.file x).ref = 0 → (s.file y).ref = 0 → x = y) → Q none s')
    (hsome : ∀ f0 f1 g s' free', FilePool L X s' free' → FileStep X s s' → s'.proc = s.proc →
      Opens s.file s'.file f0 f1 g → Q (some (f0, f1)) s') :
    Wp (pipealloc L) s Q E := by
  simp only [pipealloc, wp_bind]
  refine wp_filealloc h (fun hall => ?_) fun f0 s₁ hf0 h₁ => ?_
  · exact hnone s free h (FileStep.refl _ _) rfl (SameOpen.refl _)
      (.inr fun x _ hx => absurd hx (hall x))
  simp only [wp_bind]
  refine wp_filealloc h₁ (fun hall => ?_) fun f1 s₂ hf1 h₂ => ?_
  · simp only [wp_bind, wp_pure]
    refine wp_fileclose h₁ (fun href => ?_) fun s' free' h' hstep hproc hfile => ?_
    · rw [hf0.ref] at href
      exact absurd href (Nat.lt_irrefl 1)
    · refine hnone s' free' h' (hf0.step.trans hstep) ?_ (hfile ▸ hf0.undo)
        (.inr fun x y hx hy => ?_)
      · rw [hproc, hf0.eq]
      · have hother : ∀ z, (s.file z).ref = 0 → z = f0 := fun z hz => by
          by_contra hne
          exact hall z (by rw [hf0.old z hne, hz])
        rw [hother x hx, hother y hy]
  have hstep₂ : FileStep X s s₂ := hf0.step.trans hf1.step
  have hproc₂ : s₂.proc = s.proc := by rw [hf1.eq, hf0.eq]
  have htakes := hf0.takes hf1
  simp only [wp_bind, wp_vm]
  refine wp_kalloc h₂.pool (fun hempty => ?_) fun g free' p' hfree hmem hpool => ?_
  · simp only [wp_bind, wp_pure]
    refine wp_fileclose h₂ (fun href => ?_) fun s₃ free₃ h₃ hstep₃ hproc₃ hfile₃ =>
      wp_fileclose h₃ (fun href => ?_) fun s' free' h' hstep hproc hfile => ?_
    · rw [htakes.ref.1] at href
      exact absurd href (Nat.lt_irrefl 1)
    · rw [hfile₃, Function.update_of_ne htakes.ne.symm, htakes.ref.2] at href
      exact absurd href (Nat.lt_irrefl 1)
    · exact hnone s' free' h' ((hstep₂.trans hstep₃).trans hstep)
        (hproc.trans (hproc₃.trans hproc₂))
        (hfile ▸ htakes.undo hfile₃) (.inl hempty)
  · simp only [store, wp_bind, wp_vm, wp_modify, wp_setFile, wp_pure]
    change Q _ { s₂ with phys := { p' with mem := newPipe p'.mem g }, file := _ }
    have hne := htakes.ne
    have hg : g ∉ pipes s₂.file := (Multiset.nodup_cons.mp hpool.nodup_taken).1
    rw [Function.update_of_ne hne.symm]
    obtain ⟨file', hfile'⟩ : ∃ file', file' = Function.update (Function.update s₂.file f0
        { s₂.file f0 with type := .pipe, readable := true, writable := false, pipe := g }) f1
        { s₂.file f1 with type := .pipe, readable := false, writable := true, pipe := g } :=
        ⟨_, rfl⟩
    rw [← hfile']
    have hnew0 : file' f0 =
        { s₂.file f0 with type := .pipe, readable := true, writable := false, pipe := g } := by
      rw [hfile', Function.update_of_ne hne, Function.update_self]
    have hnew1 : file' f1 =
        { s₂.file f1 with type := .pipe, readable := false, writable := true, pipe := g } := by
      rw [hfile', Function.update_self]
    have hopens : Opens s.file file' f0 f1 g := by
      refine ⟨⟨hne, htakes.free, ⟨?_, ?_⟩, fun y hy0 hy1 => ?_⟩, ⟨?_, ?_⟩, ?_, ?_, ?_⟩
      · rw [hnew0]
        exact htakes.ref.1
      · rw [hnew1]
        exact htakes.ref.2
      · rw [hfile', Function.update_of_ne hy1, Function.update_of_ne hy0, htakes.old y hy0 hy1]
      · exact h.ok.closed f0 htakes.free.1
      · exact h.ok.closed f1 htakes.free.2
      · exact ⟨congrArg File.type hnew0, congrArg File.type hnew1⟩
      · exact ⟨congrArg File.pipe hnew0, congrArg File.pipe hnew1⟩
      · exact ⟨congrArg File.writable hnew0, congrArg File.writable hnew1⟩
    have hstep : FileStep X s₂
        { s₂ with phys := { p' with mem := newPipe p'.mem g }, file := file' } := by
      refine ⟨rfl, rfl, rfl, fun _ => rfl, fun f hf => ?_⟩
      refine (newPipe_of_ne ?_).trans (by rw [hmem])
      rintro rfl
      rcases hf with hf | hf
      · exact hf (hpool.mem_of_taken (Multiset.mem_cons_self ..))
      · exact Multiset.notMem_zero _ hf
    have hpipes : pipes s₂.file = pipes s.file :=
      add_left_cancel (h₂.pool.sum.trans h.pool.sum.symm)
    rw [hpipes] at hg hpool
    refine hsome f0 f1 g _ free' ⟨?_, ?_⟩ (hstep₂.trans hstep) hproc₂ hopens
    · simp only [hopens.pipes_eq hg]
      refine hpool.write rfl fun f hf => newPipe_of_ne ?_
      rintro rfl
      exact hf (Multiset.mem_cons_self ..)
    · refine hopens.ok h.ok hg (word_newPipe _ _) fun f hf => (newPipe_of_ne hf).trans ?_
      rw [hmem, hf1.eq, hf0.eq]

theorem wp_filedup (h : FilePool L X s free) (hE : (s.file x).ref < 1 → E .filedup s)
    {Q : Unit → State → Prop}
    (hQ : ∀ s', s' = { s with
        file := Function.update s.file x { s.file x with ref := (s.file x).ref + 1 } } →
      FilePool L X s' free → FileStep X s s' → Q () s') :
    Wp (filedup x) s Q E := by
  simp only [filedup, wp_bind, wp_getFile]
  by_cases href : (s.file x).ref < 1
  · rw [if_pos href]
    exact hE href
  · rw [if_neg href, wp_setFile]
    refine hQ _ rfl (h.setFile (fun hzero => ?_) Iff.rfl fun _ => ⟨rfl, rfl⟩) (FileStep.of_file ..)
    exact absurd hzero (Nat.succ_ne_zero _)

/-! ### Files of a process -/

/-- Only open files of a process have changed. -/
theorem FilePool.setOfile (h : FilePool L X s free) (p : Slot) (fd : Fin NOFILE)
    {r : Option (Fin NFILE)} (hs' : s' = { s with
      proc := Function.update s.proc p
        { s.proc p with ofile := Function.update (s.proc p).ofile fd r } }) :
    FilePool L X s' free ∧ FileStep X s s' := by
  subst hs'
  refine ⟨⟨h.pool, h.ok⟩, rfl, rfl, rfl, fun q => ?_, Keeps.refl _ _ _⟩
  by_cases hq : q = p
  · subst hq
    simp only [Function.update_self]
  · simp only [Function.update_of_ne hq]

/-- `fdalloc` takes the first slot that is free. -/
theorem wp_fdalloc (h : FilePool L X s free) {p : Slot} {Q : Option (Fin NOFILE) → State → Prop}
    (hnone : (∀ fd, (s.proc p).ofile fd ≠ none) → Q none s)
    (hsome : ∀ fd s', (s.proc p).ofile fd = none → (∀ fd' < fd, (s.proc p).ofile fd' ≠ none) →
      s' = { s with
        proc := Function.update s.proc p
          { s.proc p with ofile := Function.update (s.proc p).ofile fd (some x) } } →
      FilePool L X s' free → FileStep X s s' → Q (some fd) s') :
    Wp (fdalloc p x) s Q E := by
  simp only [fdalloc, wp_bind, wp_getProc]
  cases hfind : (List.finRange NOFILE).find? fun fd => (s.proc p).ofile fd = none with
  | none =>
    refine hnone fun fd hfd => ?_
    exact List.find?_eq_none.mp hfind fd (List.mem_finRange fd) (decide_eq_true hfd)
  | some fd =>
    simp only [wp_bind, wp_setProc, wp_pure]
    obtain ⟨h', hstep⟩ := h.setOfile p fd (r := some x) rfl
    refine hsome fd _ (by simpa using List.find?_some hfind) (fun fd' hlt hfd' => ?_) rfl h' hstep
    obtain ⟨-, i, hi, rfl, hbefore⟩ := List.find?_eq_some_iff_getElem.mp hfind
    rw [List.getElem_finRange] at hlt
    have := hbefore fd' hlt
    simp [hfd'] at this

/-- **The loop of `exit` over the open files** clears the slots. -/
theorem wp_closeFiles (fds : List (Fin NOFILE)) {p : Slot} (h : FilePool L X s free)
    (hE : ∀ s, E .fileclose s) {Q : Unit → State → Prop}
    (hQ : ∀ s' free', FilePool L X s' free' → FileStep X s s' → (∀ r ≠ p, s'.proc r = s.proc r) →
      (∀ fd, fd ∈ fds ∨ (s.proc p).ofile fd = none → (s'.proc p).ofile fd = none) →
      (Counted s → Counted s') → Q () s') :
    Wp (closeFiles L p fds) s Q E := by
  induction fds generalizing s free with
  | nil =>
    exact hQ s free h (FileStep.refl _ _) (fun _ _ => rfl) (fun _ hfd => by simpa using hfd) id
  | cons fd fds ih =>
    rw [closeFiles, wp_bind, wp_getProc]
    cases hfd : (s.proc p).ofile fd with
    | none =>
      refine ih h fun s' free' h' hstep hother hnone => hQ s' free' h' hstep hother fun i hi => ?_
      rcases hi with hi | hi
      · rcases List.mem_cons.mp hi with rfl | hi
        · exact hnone i (.inr hfd)
        · exact hnone i (.inl hi)
      · exact hnone i (.inr hi)
    | some x =>
      simp only [wp_bind]
      refine wp_fileclose h (fun _ => hE s) fun s₁ free₁ h₁ hstep₁ hproc₁ hfile₁ => ?_
      obtain ⟨h₂, hstep₂⟩ := h₁.setOfile p fd (r := none) rfl
      rw [wp_setProc]
      refine ih h₂ fun s' free' h' hstep hother hnone hcount =>
        hQ s' free' h' ((hstep₁.trans hstep₂).trans hstep) (fun r hr => ?_) (fun i hi => ?_)
          fun hs => hcount (hs.clear hfd ?_ hfile₁)
      · rw [hother r hr, hproc₁]
        exact Function.update_of_ne hr _ _
      · refine hnone i (or_iff_not_imp_left.mpr fun hin => ?_)
        simp only [Function.update_self, hproc₁]
        by_cases heq : i = fd
        · rw [heq, Function.update_self]
        · rw [Function.update_of_ne heq]
          exact hi.resolve_left fun hmem => (List.mem_cons.mp hmem).elim heq hin
      · rw [hproc₁]
        rfl

/-- **The loop of `fork` over the open files** counts the references of the child. -/
theorem wp_dupFiles (fds : List (Fin NOFILE)) {np : Slot} {ofile : Fin NOFILE → Option (Fin NFILE)}
    (h : FilePool L X s free)
    (hE : (∃ fd x, ofile fd = some x ∧ (s.file x).ref < 1) → ∀ t, E .filedup t)
    {Q : Unit → State → Prop}
    (hQ : ∀ s', FilePool L X s' free → FileStep X s s' → s'.phys = s.phys →
      (∀ r ≠ np, s'.proc r = s.proc r) →
      (∀ x, s'.file x =
        { s.file x with ref := (s.file x).ref + fds.countP fun fd => ofile fd = some x }) →
      (fds.Nodup → (∀ fd ∈ fds, (s.proc np).ofile fd = none) → Counted s → Counted s') → Q () s') :
    Wp (dupFiles np ofile fds) s Q E := by
  induction fds generalizing s with
  | nil =>
    exact hQ s h (FileStep.refl _ _) rfl (fun _ _ => rfl) (fun _ => rfl) fun _ _ hs => hs
  | cons fd fds ih =>
    rw [dupFiles]
    simp only [List.countP_cons, List.nodup_cons, List.forall_mem_cons] at hQ
    cases hfd : ofile fd with
    | none =>
      simp only [hfd, reduceCtorEq, decide_false, Bool.false_eq_true, if_false, Nat.add_zero] at hQ
      exact ih h hE fun s' h' hstep hphys hproc hfile hcount =>
        hQ s' h' hstep hphys hproc hfile fun hnd hnone => hcount hnd.2 hnone.2
    | some x =>
      simp only [wp_bind]
      refine wp_filedup h (fun href => hE ⟨fd, x, hfd, href⟩ s) fun s₁ hs₁ h₁ hstep₁ => ?_
      obtain ⟨h₂, hstep₂⟩ := h₁.setOfile np fd (r := some x) rfl
      have hfile : ∀ y, s₁.file y =
          { s.file y with ref := (s.file y).ref + if ofile fd = some y then 1 else 0 } :=
          fun y => by
        rw [hs₁, hfd]
        by_cases hy : y = x
        · simp only [hy, Function.update_self, if_true]
        · simp only [Function.update_of_ne hy, if_neg fun heq => hy (Option.some.inj heq).symm,
            Nat.add_zero]
      have hproc₁ : s₁.proc = s.proc := by rw [hs₁]
      rw [wp_setProc]
      refine ih h₂ ?_ fun s' h' hstep hphys hproc hfile' hcount =>
        hQ s' h' ((hstep₁.trans hstep₂).trans hstep) ?_ (fun r hr => ?_) (fun y => ?_)
          fun hnd hnone hs => hcount hnd.2 (fun i hi => ?_) (hs.fill hnone.1 (x := x) ?_ ?_ ?_)
      · rintro ⟨fd', y, hy, href⟩
        refine hE ⟨fd', y, hy, ?_⟩
        rw [hfile] at href
        exact (Nat.le_add_right _ _).trans_lt href
      · rw [hphys, hs₁]
      · rw [hproc r hr, hproc₁]
        exact Function.update_of_ne hr _ _
      · rw [hfile', hfile]
        simp only [decide_eq_true_eq]
        rw [Nat.add_right_comm, Nat.add_assoc]
      · have hne : i ≠ fd := by
          rintro rfl
          exact hnd.1 hi
        simp only [Function.update_self, hproc₁, Function.update_of_ne hne]
        exact hnone.2 i hi
      · rw [hproc₁]
        rfl
      · simp only [hs₁, Function.update_self]
      · intro y hy
        simp only [hs₁, Function.update_of_ne hy]

end Vm

end Xv6
