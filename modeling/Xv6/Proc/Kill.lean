import Xv6.Proc.Slots
import Xv6.Proc.Solo

/-!
# `kill`

`kill` looks for a pid and not for a process. A slot that is not in use still has a `pid` field:
zero if it was never used or has been reaped, the pid of the process that was not created after a
`fork` has failed. `kill` may therefore mark a slot that is not in use, and since `allocproc` leaves
`killed` alone the next process created there starts marked. The same happens when `kill` marks a
process that `fork` is still building and the `fork` then fails.

When neither happens, `kill` is precise, and a marked process has been named to `kill`, or has
faulted, since it was created.

## Main definitions

* `NamesProc` — the slot that `kill` will find is in use
* `KillPrecise` — what a call of `kill` should do
* `Blamed` — the process in a slot was named to `kill`, or faulted, since it was created

## Main results

* `killPrecise_iff` — which calls of `kill` are precise
* `kill_precise` — the statement for whole runs
* `kill_zero_marks_unused` — `kill(0)`, and the child that starts marked
-/

namespace Xv6

namespace Proc

open State Transition

variable {n : ℕ}

/-- The first slot with that pid, which is the one `kill` finds, is in use. The exception is that
nothing is left to mark: that slot is already marked, and so is a process with that pid. -/
def NamesProc (t : PTable) (pid : BitVec 32) : Prop :=
  ∀ r, (t r).pid = pid → (∀ q < r, (t q).pid ≠ pid) → (t r).state ≠ .unused ∨
    (t r).killed = true ∧ ∃ q, (t q).state ≠ .unused ∧ (t q).pid = pid ∧ (t q).killed = true

/-- What a call of `kill(pid)` by `p` that leads from `s` to `s'` should do: mark one process with
that pid and return `0`, or change nothing and return `-1` because there is none. -/
def KillPrecise (s s' : State n) (p : Slot) (pid : BitVec 32) : Prop :=
  ((s'.thread p).ret = 0#32 ∧ ∃ q, (s.ptable q).state ≠ .unused ∧ (s.ptable q).pid = pid ∧
      (s'.ptable q).killed = true ∧ ∀ r, r ≠ q → s'.ptable r = s.ptable r) ∨
    ((s'.thread p).ret = -1#32 ∧ s'.ptable = s.ptable ∧
      ∀ q, (s.ptable q).pid = pid → (s.ptable q).state = .unused)

/-- A slot that `kill` finds is marked, and woken if it sleeps. -/
def mark (q : Proc) : Proc :=
  { q with killed := true, state := if q.state = .sleeping then .runnable else q.state }

theorem killTable_eq_some {t t' : PTable} {pid : BitVec 32} :
    killTable t pid = some t' ↔
      ∃ r, (t r).pid = pid ∧ (∀ q < r, (t q).pid ≠ pid) ∧ t' = t.set r (mark (t r)) := by
  unfold killTable
  rw [Option.map_eq_some_iff]
  constructor
  · rintro ⟨r, hr, rfl⟩
    exact ⟨r, (find?_pid_eq_some.mp hr).1, (find?_pid_eq_some.mp hr).2, rfl⟩
  · rintro ⟨r, hpid, hf, rfl⟩
    exact ⟨r, find?_pid_eq_some.mpr ⟨hpid, hf⟩, rfl⟩

theorem killTable_eq_none {t : PTable} {pid : BitVec 32} (h : killTable t pid = none) (q : Slot) :
    (t q).pid ≠ pid := by
  have hfind := List.find?_eq_none.mp (Option.map_eq_none_iff.mp h) q (mem_slots q)
  simpa using hfind

theorem ret_setRet (s : State n) (p : Slot) (v : BitVec 32) :
    ((s.setRet p v).thread p).ret = v := by
  simp [setRet, setThread]

/-- **Which calls are precise.** -/
theorem killPrecise_iff {s s' : State n} {c : Fin (n + 1)} {p : Slot} {pid : BitVec 32}
    (hw : s.work c = some p) (h : step s (.kill c pid) = some s') :
    KillPrecise s s' p pid ↔ NamesProc s.ptable pid := by
  cases Step.of_step h with
  | killFail _ q _ hq ha hl hk =>
    obtain rfl : p = q := Option.some.inj (hw.symm.trans hq)
    have hno := killTable_eq_none hk
    exact iff_of_true (Or.inr ⟨ret_setRet .., rfl, fun q hq => absurd hq (hno q)⟩)
      fun r hr => absurd hr (hno r)
  | kill _ q _ t hq ha hl hk =>
    obtain rfl : p = q := Option.some.inj (hw.symm.trans hq)
    obtain ⟨r, hpid, hf, rfl⟩ := killTable_eq_some.mp hk
    have htable : ∀ x, ({ s with ptable := s.ptable.set r (mark (s.ptable r)) }.setRet p 0).ptable x
        = s.ptable.set r (mark (s.ptable r)) x := fun x => rfl
    -- the slot that `kill` finds is determined by the pid
    have hfirst : ∀ r', (s.ptable r').pid = pid → (∀ q < r', (s.ptable q).pid ≠ pid) → r' = r := by
      intro r' hpid' hf'
      rcases lt_trichotomy r' r with hlt | heq | hgt
      · exact absurd hpid' (hf r' hlt)
      · exact heq
      · exact absurd hpid (hf' r hgt)
    constructor
    · rintro (⟨-, q, hq, hqpid, hqk, hother⟩ | ⟨hret, -, -⟩) r' hpid' hf'
      · obtain rfl := hfirst r' hpid' hf'
        by_cases hqr : q = r'
        · exact Or.inl (hqr ▸ hq)
        · -- some other process was there to be marked, so `kill` has changed nothing
          have hsame := hother r' (Ne.symm hqr)
          rw [htable, PTable.set_self] at hsame
          rw [htable, PTable.set_of_ne _ _ hqr] at hqk
          refine Or.inr ⟨?_, q, hq, hqpid, hqk⟩
          rw [← hsame]
          rfl
      · rw [ret_setRet] at hret
        cases hret
    · intro hnames
      left
      rcases hnames r hpid hf with hr | ⟨hrk, q, hq, hqpid, hqk⟩
      · refine ⟨ret_setRet .., r, hr, hpid, ?_, fun x hx => ?_⟩
        · rw [htable, PTable.set_self]; rfl
        · rw [htable, PTable.set_of_ne _ _ hx]
      · by_cases hr : (s.ptable r).state = .unused
        · have hmark : mark (s.ptable r) = s.ptable r := by
            unfold mark
            rw [hr, if_neg (by decide), ← hr, ← hrk]
          have hsame : s.ptable.set r (mark (s.ptable r)) = s.ptable := by
            rw [hmark]
            exact Function.update_eq_self ..
          refine ⟨ret_setRet .., q, hq, hqpid, ?_, fun x _ => ?_⟩
          · rw [htable, hsame]; exact hqk
          · rw [htable, hsame]
        · refine ⟨ret_setRet .., r, hr, hpid, ?_, fun x hx => ?_⟩
          · rw [htable, PTable.set_self]; rfl
          · rw [htable, PTable.set_of_ne _ _ hx]

/-! ### Whole runs -/

/-- A step does not put a mark on a slot that is not in use: `kill` finds a process, and a `fork`
that fails has not been building a marked one. -/
def MarkOk (s : State n) : Event n → Prop
  | .kill _ pid => NamesProc s.ptable pid
  | .kalloc c false => ∀ p np, s.work c = some p → (s.thread p).act = .forkAlloc np →
      (s.ptable np).killed = false
  | .copyuvm c false => ∀ p np, s.work c = some p → (s.thread p).act = .forkCopy np →
      (s.ptable np).killed = false
  | _ => True

/-- In the run `es` from `s₀` to `s`, `kill` was called with the pid of the process in slot `p`, or
that process faulted, and the slot has held the same process ever since. -/
def Blamed (s₀ : State n) (es : List (Event n)) (s : State n) (p : Slot) : Prop :=
  ∃ es₁ e es₂ u, es = es₁ ++ e :: es₂ ∧ run step s₀ es₁ = some u ∧
    ((∃ c, e = .kill c (s.ptable p).pid) ∨ ∃ c, e = .fault c ∧ u.work c = some p) ∧
    ∀ es₃ v, es₃ <+: e :: es₂ → run step u es₃ = some v →
      (v.ptable p).state ≠ .unused ∧ (v.ptable p).pid = (s.ptable p).pid

section Runs

variable {s₀ s s' : State n} {es : List (Event n)} {e : Event n} {p : Slot}

/-- A process that is to blame stays so while it keeps its slot. -/
theorem Blamed.snoc (hb : Blamed s₀ es s p) (hrun : run step s₀ es = some s)
    (hstep : step s e = some s') (hu' : (s'.ptable p).state ≠ .unused)
    (hpid : (s'.ptable p).pid = (s.ptable p).pid) : Blamed s₀ (es ++ [e]) s' p := by
  obtain ⟨es₁, e₁, es₂, u, rfl, hu, hcause, hsince⟩ := hb
  refine ⟨es₁, e₁, es₂ ++ [e], u, by simp, hu, by rwa [hpid], fun es₃ v hpre hv => ?_⟩
  rw [hpid]
  rw [← List.cons_append, List.prefix_concat_iff] at hpre
  rcases hpre with rfl | hpre
  · -- the whole run since then, which ends in `s'`
    obtain ⟨w, hw, hwv⟩ := (run_append_eq_some _).mp hv
    obtain ⟨u', hu', hs⟩ := (run_append_eq_some _).mp hrun
    obtain rfl : u = u' := Option.some.inj (hu.symm.trans hu')
    obtain rfl : w = s := Option.some.inj (hw.symm.trans hs)
    rw [run_cons, hstep] at hwv
    obtain rfl : s' = v := Option.some.inj hwv
    exact ⟨by assumption, hpid⟩
  · exact hsince es₃ v hpre hv

/-- The step that marks a process is to blame for it. -/
theorem Blamed.mk_snoc (hrun : run step s₀ es = some s) (hstep : step s e = some s')
    (hu : (s.ptable p).state ≠ .unused) (hu' : (s'.ptable p).state ≠ .unused)
    (hpid : (s'.ptable p).pid = (s.ptable p).pid)
    (hcause : (∃ c, e = .kill c (s.ptable p).pid) ∨ ∃ c, e = .fault c ∧ s.work c = some p) :
    Blamed s₀ (es ++ [e]) s' p := by
  refine ⟨es, e, [], s, rfl, hrun, by rwa [hpid], fun es₃ v hpre hv => ?_⟩
  rw [hpid]
  rcases es₃ with _ | ⟨e', es₃⟩
  · cases hv
    exact ⟨hu, rfl⟩
  · obtain ⟨rfl, hnil⟩ := List.cons_prefix_cons.mp hpre
    obtain rfl := List.prefix_nil.mp hnil
    rw [run_cons, hstep] at hv
    cases hv
    exact ⟨hu', hpid⟩

/-- The marks in a run whose steps meet `MarkOk`. -/
structure Marks (s₀ : State n) (es : List (Event n)) (s : State n) : Prop where
  wf : Wf s
  /-- A slot that is not in use is not marked. -/
  unused : ∀ r, (s.ptable r).state = .unused → (s.ptable r).killed = false
  /-- A marked process is to blame. -/
  blamed : ∀ r, (s.ptable r).state ≠ .unused → (s.ptable r).killed = true → Blamed s₀ es s r

/-- The slot that an allowed `kill` finds is in use. -/
theorem Marks.found (hm : Marks s₀ es s) {pid : BitVec 32} (hok : NamesProc s.ptable pid)
    (hpid : (s.ptable p).pid = pid) (hf : ∀ q < p, (s.ptable q).pid ≠ pid) :
    (s.ptable p).state ≠ .unused := by
  intro hu
  rcases hok p hpid hf with hne | ⟨hk, -⟩
  · exact hne hu
  · rw [hm.unused p hu] at hk
    cases hk

theorem Marks.step (hm : Marks s₀ es s) (hrun : run step s₀ es = some s) (hok : MarkOk s e)
    (hstep : step s e = some s') : Marks s₀ (es ++ [e]) s' := by
  refine ⟨hm.wf.step hstep, fun r hu => ?_, fun r hu' hk => ?_⟩
  · have hslot := SlotStep.of_step hm.wf hstep r
    generalize s'.ptable r = q at hslot hu ⊢
    cases hslot with
    | same | copyuvm | unchan | setprio | feedback | kalloc => exact hm.unused r hu
    | claim | ready | dispatch | yield | sleep | waits | exits | woken => cases hu
    | kallocFail c p hw ha => exact hok p r hw ha
    | copyuvmFail c p hw ha => exact hok p r hw ha
    | reap => rfl
    | bereaved c p st hw hr ha hst =>
      rcases hst with hst | ⟨-, hst⟩
      · exact hm.unused r (hst.symm.trans hu)
      · rw [hst] at hu; cases hu
    | killed c pid hpid hf =>
      dsimp only at hu
      split at hu
      · cases hu
      · exact absurd hu (hm.found hok hpid hf)
    | fault c hw =>
      have := hm.wf.running c r (mode_of_work hw).1
      rw [this] at hu
      cases hu
  · -- a mark from before stays; a new one has just been put there
    have hold : (s.ptable r).state ≠ .unused → (s.ptable r).killed = true →
        Blamed s₀ (es ++ [e]) s' r := fun hu hk =>
      (hm.blamed r hu hk).snoc hrun hstep hu' (pid_of_used hm.wf hstep hu hu')
    have hnew : (s.ptable r).state ≠ .unused →
        ((∃ c, e = .kill c (s.ptable r).pid) ∨ ∃ c, e = .fault c ∧ s.work c = some r) →
        Blamed s₀ (es ++ [e]) s' r := fun hu =>
      .mk_snoc hrun hstep hu hu' (pid_of_used hm.wf hstep hu hu')
    have hsame : (s.ptable r).killed = true → Blamed s₀ (es ++ [e]) s' r := fun hk =>
      hold (fun hu => by rw [hm.unused r hu] at hk; cases hk) hk
    have hslot := SlotStep.of_step hm.wf hstep r
    generalize s'.ptable r = q at hslot hk
    cases hslot with
    | reap => cases hk
    | killed c pid hpid hf => exact hnew (hm.found hok hpid hf) (Or.inl ⟨c, by rw [hpid]⟩)
    | fault c hw =>
      refine hnew ?_ (Or.inr ⟨c, rfl, hw⟩)
      rw [hm.wf.running c r (mode_of_work hw).1]
      decide
    | _ => exact hsame hk

theorem Marks.of_trace {second : BitVec 32} (h : Trace Proc.step MarkOk (boot n second) es s) :
    Marks (boot n second) es s := by
  induction h with
  | nil =>
    have hboot : ∀ r, ((boot n second).ptable r).killed = false := by
      intro r
      by_cases hr : r = 0
      · subst hr; rfl
      · rw [boot_ptable_of_ne n second hr]; rfl
    exact ⟨boot_wf n second, fun r _ => hboot r, fun r _ hk => by rw [hboot r] at hk; cases hk⟩
  | snoc htr hok hstep ih => exact ih.step htr.run hok hstep

end Runs

/-- **`kill` is precise, and when it is not.** In every reachable state, a call of `kill` does what
it should if and only if the slot that it finds holds a process. In every run in which all of them
do, and in which no `fork` that fails was building a marked process, every new process starts
unmarked, and a marked one was named to `kill`, or faulted, since it was created. -/
theorem kill_precise (n : ℕ) (second : BitVec 32) :
    (∀ s, Reach step (fun _ _ => True) (boot n second) s →
      ∀ c p pid s', s.work c = some p → step s (.kill c pid) = some s' →
        (KillPrecise s s' p pid ↔ NamesProc s.ptable pid)) ∧
    (∀ es s, Trace step MarkOk (boot n second) es s →
      (∀ c second' s' np, step s (.allocproc c second') = some s' →
        (s.ptable np).state = .unused → (s'.ptable np).state = .embryo →
        (s'.ptable np).killed = false) ∧
      ∀ p, (s.ptable p).state ≠ .unused → (s.ptable p).killed = true →
        Blamed (boot n second) es s p) := by
  refine ⟨fun s _ c p pid s' hw h => killPrecise_iff hw h, fun es s htr => ?_⟩
  have hm := Marks.of_trace htr
  refine ⟨fun c second' s' np hstep hu he => ?_, hm.blamed⟩
  have hslot := SlotStep.of_step hm.wf hstep np
  generalize s'.ptable np = q at hslot he ⊢
  cases hslot with
  | same => exact hm.unused np hu
  | claim => exact hm.unused np hu
  | yield c e hmode => rw [hm.wf.running c np hmode] at hu; cases hu
  | waits c e hmode => rw [hm.wf.running c np hmode] at hu; cases hu
  | reap => rfl
  | woken e hs => rw [hu] at hs; cases hs

/-- CPU `0` switches to the first process. -/
def firstRound : List (Event 1) := [.acquire 0, .scan 0, .readStart 0, .dispatch 0, .resume 0]

/-- On the two CPUs of the Makefile, the first process calls `kill(0)`. It returns `0` and marks the
second slot, which is not in use. The process then created there by `fork` is marked although `kill`
was never called with its pid. -/
theorem kill_zero_marks_unused :
    ∃ s s' s'' : State 1, run step (boot 1 0) firstRound = some s ∧
      step s (.kill 0 0#32) = some s' ∧ (s'.thread 0).ret = 0#32 ∧
      (s.ptable 1).state = .unused ∧ (s'.ptable 1).killed = true ∧ ¬ KillPrecise s s' 0 0#32 ∧
      run step s' (forkEvents 0 0) = some s'' ∧ (s''.ptable 1).state = .runnable ∧
      (s''.ptable 1).pid = 2#32 ∧ (s''.ptable 1).killed = true ∧
      ¬ Blamed (boot 1 0) (firstRound ++ .kill 0 0#32 :: forkEvents 0 0) s'' 1 := by
  obtain ⟨s, hs, hwork, hpid₀, hpid₁, hunused, hunmarked⟩ :=
    exists_of_any step (boot 1 0) firstRound
      (fun s => s.work 0 = some 0 ∧ (s.ptable 0).pid = 1#32 ∧
        (s.ptable 1).pid = 0#32 ∧ (s.ptable 1).state = .unused ∧ (s.ptable 1).killed = false)
      (by decide +kernel)
  obtain ⟨s'', hs'', hrunnable, hpid, hkilled⟩ := exists_of_any step (boot 1 0)
    (firstRound ++ .kill 0 0#32 :: forkEvents 0 0)
    (fun s => (s.ptable 1).state = .runnable ∧ (s.ptable 1).pid = 2#32 ∧
      (s.ptable 1).killed = true) (by decide +kernel)
  obtain ⟨t, ht, hrest⟩ := (run_append_eq_some _).mp hs''
  obtain rfl : s = t := Option.some.inj (hs.symm.trans ht)
  obtain ⟨s', hkill, hfork⟩ := (run_cons_eq_some _).mp hrest
  obtain ⟨t, ht, hret, hmark⟩ := exists_of_any step (boot 1 0) (firstRound ++ [.kill 0 0#32])
    (fun s => (s.thread 0).ret = 0#32 ∧ (s.ptable 1).killed = true)
    (by decide +kernel)
  have hs' : run step (boot 1 0) (firstRound ++ [.kill 0 0#32]) = some s' := by
    rw [run_append, hs, Option.bind_some, run_cons, hkill]
    rfl
  obtain rfl : s' = t := Option.some.inj (hs'.symm.trans ht)
  refine ⟨s, s', s'', hs, hkill, hret, hunused, hmark, ?_, hfork, hrunnable, hpid, hkilled, ?_⟩
  · rw [killPrecise_iff hwork hkill]
    intro hnames
    have hfirst : ∀ q < (1 : Slot), (s.ptable q).pid ≠ 0#32 := by
      intro q hq
      obtain rfl : q = 0 := by
        have : q.val < 1 := hq
        exact Fin.ext (by simpa using this)
      rw [hpid₀]
      decide
    rcases hnames 1 hpid₁ hfirst with h | ⟨h, -⟩
    · exact h hunused
    · rw [hunmarked] at h; cases h
  · rintro ⟨es₁, e, es₂, u, hes, -, hcause, -⟩
    have hmem : e ∈ firstRound ++ .kill 0 0#32 :: forkEvents 0 0 := by
      rw [hes]
      exact List.mem_append_right _ (List.mem_cons_self ..)
    rw [hpid] at hcause
    rcases hcause with ⟨c, rfl⟩ | ⟨c, rfl, -⟩ <;> simp [firstRound, forkEvents] at hmem

end Proc

end Xv6
