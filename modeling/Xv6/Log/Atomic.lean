import Xv6.Log.Recovery

/-!
# Crash atomicity

Power fails at some point of a run; the machine boots, perhaps fails again in the middle of
`recover_from_log`, any number of times, and finally comes up. The disk then holds the first `k`
commit groups of the run, for a `k` that depends only on where power failed first.

The crashes during recovery are handled by the invariant of `Xv6.Log.Invariant` with an empty
history: a boot starts with the disk's own log as the contents to bring back, and recovery never
changes them.

## Main results

* `crash_atomic` — crash atomicity of the log
* `write_ahead` — what the disk and the buffers hold between two commits
-/

namespace Xv6

namespace Log

open State Transition

/-- The events of a machine that recovers, or fails to. -/
def Event.IsRecovery : Event → Prop
  | .kernel _ | .crash => True
  | .call _ _ => False

section

variable {cf : Conf} {base : ℕ → Block} {st : Stage} {s s' : State} {h : History} {d : Disk}

/-- A machine that has only recovered since power-on, in order to bring back `base`. -/
def Restoring (cf : Conf) (base : ℕ → Block) (s : State) : Prop :=
  ∃ base' st h, Inv cf base' st s h ∧ h.groups = [] ∧ ∀ b, cf.Outside b → base' b = base b

theorem Restoring.boot (hd : HeaderOk cf d) (hbase : ∀ b, cf.Outside b → view cf d b = base b) :
    Restoring cf base (boot d) :=
  ⟨view cf d, .loading, History.init, Inv.boot hd, rfl, hbase⟩

/-- What recovery would bring back stays the same. -/
theorem Restoring.view_eq (hs : Restoring cf base s) :
    HeaderOk cf s.disk ∧ ∀ b, cf.Outside b → view cf s.disk b = base b := by
  obtain ⟨base', st, h, hi, hgroups, hbase⟩ := hs
  obtain ⟨hok, hview⟩ := hi.view_eq
  refine ⟨hok, fun b hb => ?_⟩
  rw [hview b hb, settled, hgroups, List.take_nil, List.flatten_nil, apply_nil, hbase b hb]

theorem groups_record_kernel (h : History) (s s' : State) (p : Pid) :
    (record h s (.kernel p) s').groups = h.groups := by
  rw [record]
  split <;> rfl

theorem Restoring.step {e : Event} (hs : Restoring cf base s) (he : e.IsRecovery)
    (hx : step cf s e = some s') : Restoring cf base s' := by
  cases e with
  | call p c => exact he.elim
  | kernel p =>
    obtain ⟨base', st, h, hi, hgroups, hbase⟩ := hs
    obtain ⟨st', hi'⟩ := hi.step (e := .kernel p) nofun trivial hx
    exact ⟨base', st', _, hi', by rw [groups_record_kernel, hgroups], hbase⟩
  | crash =>
    cases hx
    obtain ⟨hok, hview⟩ := hs.view_eq
    exact Restoring.boot hok hview

/-- When the machine is up, the contents are in place. -/
theorem Restoring.disk_eq (hs : Restoring cf base s) (hup : s.up = true) {b : ℕ}
    (hb : cf.Outside b) : s.disk b = base b := by
  obtain ⟨base', st, h, hi, hgroups, hbase⟩ := hs
  rcases hi.thread with ⟨rfl, -⟩ | ⟨p, fin, hbusy⟩
  · have hnil : header cf s.disk = [] := hi.disk.1
    have hview := hi.view_eq.2 b hb
    rw [view_of_notMem (by simp [hnil]), settled, hgroups, List.take_nil, List.flatten_nil,
      apply_nil] at hview
    rw [hview, hbase b hb]
  · rcases hbusy.kind with ⟨-, -, -, hne⟩ | ⟨-, -, hdown⟩
    · exact absurd hgroups hne
    · rw [hup] at hdown
      cases hdown

theorem Restoring.run {es : List Event} (hs : Restoring cf base s) (hes : ∀ e ∈ es, e.IsRecovery)
    (hr : run (Log.step cf) s es = some s') : Restoring cf base s' := by
  refine run_induct (P := fun es t => (∀ e ∈ es, e.IsRecovery) → Restoring cf base t) hr
    (fun _ => hs) (fun es e t t' ih hst hall => ?_) hes
  exact (ih fun e he => hall e (List.mem_append_left _ he)).step
    (hall e (List.mem_append_right _ (List.mem_singleton_self e))) hst

end

/-! ### The theorem -/

/-- **Crash atomicity.** Take any run of the system up to the moment power fails, from a disk `d`
whose header fits. Then no section is spread over two commit groups, and there is a `k` that covers
every group whose `commit` returned such that, however often recovery is cut short after that, it
can still be completed, and when it is, the blocks outside the log hold the first `k` groups. -/
theorem crash_atomic {cf : Conf} {d : Disk} (hd : HeaderOk cf d) {es : List Event} {s : State}
    {h : History} (hes : ∀ e ∈ es, e ≠ .crash ∧ e.Outside cf)
    (hr : run (tstep cf) (boot d, History.init) es = some (s, h)) :
    Whole h ∧ ∃ k, h.returned ≤ k ∧ k ≤ h.groups.length ∧
      ∀ es' s', (∀ e ∈ es', Event.IsRecovery e) → run (step cf) (boot s.disk) es' = some s' →
        (∃ s'', Runs cf (boot s'.disk) s'' ∧ s''.up = true) ∧
        (s'.up = true → ∀ b, cf.Outside b →
          s'.disk b = apply (view cf d) (h.groups.take k).flatten b) := by
  obtain ⟨st, hi⟩ := Inv.of_run hd hes hr
  obtain ⟨hok, hview⟩ := hi.view_eq
  refine ⟨hi.sections.toWhole, durable st h, hi.returned, ?_, fun es' s' hes' hr' => ?_⟩
  · unfold durable
    split <;> omega
  · have hs' := (Restoring.boot hok hview).run hes' hr'
    refine ⟨?_, fun hup b hb => hs'.disk_eq hup hb⟩
    obtain ⟨s'', hruns, hup, -⟩ := exists_runs_recover hs'.view_eq.1
    exact ⟨s'', hruns, hup⟩

/-- A process logs block `100` after boot, and power fails in its `commit` when the header has been
written and the block is not in place yet. -/
def failingCommit : List Event :=
  List.replicate 15 (Event.kernel initPid) ++
  ([.call 2 .beginOp, .call 2 (.bget 100), .call 2 (.acquire 100),
    .call 2 (.modify 100 (Block.setUint (Bytes.zero _) 0 7)), .call 2 (.logCheck 100),
    .call 2 (.logWrite 100), .call 2 (.release 100), .call 2 (.brelse 100),
    .call 2 .endOp] : List Event) ++
  List.replicate 16 (Event.kernel 2)

theorem headerOk_zero : HeaderOk mkfsConf fun _ => Bytes.zero _ := by
  have hnil : header mkfsConf (fun _ => Bytes.zero _) = [] := by decide +kernel
  constructor <;> simp [hnil, LOGSIZE_eq]

/-- Crash atomicity at a run whose only commit group is durable when power fails, though its block
is not in place. -/
theorem crash_atomic_failingCommit :
    ∃ s h, run (tstep mkfsConf) (boot fun _ => Bytes.zero _, History.init) failingCommit =
        some (s, h) ∧ h.groups.length = 1 ∧ header mkfsConf s.disk = [100] ∧
      ∃ k, h.returned ≤ k ∧ k ≤ h.groups.length ∧
        ∀ es' s', (∀ e ∈ es', Event.IsRecovery e) →
          run (step mkfsConf) (boot s.disk) es' = some s' →
          (∃ s'', Runs mkfsConf (boot s'.disk) s'' ∧ s''.up = true) ∧
          (s'.up = true → ∀ b, mkfsConf.Outside b → s'.disk b =
            apply (view mkfsConf fun _ => Bytes.zero _) (h.groups.take k).flatten b) := by
  have hrun : ((run (tstep mkfsConf) (boot fun _ => Bytes.zero _, History.init) failingCommit).any
      fun x => x.2.groups.length = 1 ∧ header mkfsConf x.1.disk = [100]) = true := by decide +kernel
  obtain ⟨⟨s, h⟩, hr, hx⟩ := (Option.any_eq_true _ _).mp hrun
  obtain ⟨hgroups, hheader⟩ := of_decide_eq_true hx
  have hes : ∀ e ∈ failingCommit, e ≠ .crash ∧ e.Outside mkfsConf := by
    simp [failingCommit, Event.Outside, Conf.Outside, mkfsConf, LOGSIZE_eq]
  exact ⟨s, h, hr, hgroups, hheader, (crash_atomic headerOk_zero hes hr).2⟩

/-! ### Between commits -/

/-- **Write-ahead.** Between two commits the disk holds the commit groups and nothing of what has
been logged since. A process that has a buffer locked, and has not changed it since it was read or
logged, finds in it all that has been logged. -/
theorem write_ahead {cf : Conf} {d : Disk} (hd : HeaderOk cf d) {es : List Event} {s : State}
    {h : History} (hes : ∀ e ∈ es, e ≠ .crash ∧ e.Outside cf)
    (hr : run (tstep cf) (boot d, History.init) es = some (s, h)) (hup : s.up = true)
    (hc : s.committing = false) :
    (∀ b, cf.Outside b → s.disk b = apply (view cf d) h.groups.flatten b) ∧
    ∀ x ∈ s.holds, x.phase = .held → cf.Outside x.block →
      (s.bufs x.buf).data = apply (view cf d) (h.groups.flatten ++ h.cur) x.block := by
  obtain ⟨st, hi⟩ := Inv.of_run hd hes hr
  obtain rfl : st = .quiet := by
    rcases hi.thread with ⟨hst, -⟩ | ⟨p, fin, hb⟩
    · exact hst
    · rcases hb.kind with ⟨-, hc', -⟩ | ⟨-, -, hup'⟩
      · cases hc.symm.trans hc'
      · cases hup.symm.trans hup'
  have hset : settled (view cf d) .quiet h = apply (view cf d) h.groups.flatten := by
    change apply (view cf d) (h.groups.take h.groups.length).flatten = _
    rw [List.take_length]
  have hdisk := hset ▸ hi.disk.2
  refine ⟨hdisk, fun x hx hp hout => ?_⟩
  rw [hi.data_eq hx hp]
  split
  · rfl
  · rename_i hclean
    -- a logged block would be dirty in this very buffer
    have hnot : x.block ∉ s.lh := by
      intro hmem
      obtain ⟨i, hblk, hdirty⟩ := hi.pinned rfl _ hmem
      rw [hi.cache.block_inj _ _ _ hblk (hi.cache.hold_block x hx)] at hdirty
      exact hclean hdirty
    exact (hdisk _ hout).trans (hset ▸ (hi.unlogged rfl _ hnot).symm)

/-- A process has logged block `100` and not released it. -/
theorem write_ahead_logged :
    ∃ s h, run (tstep mkfsConf) (boot fun _ => Bytes.zero _, History.init) (failingCommit.take 21) =
        some (s, h) ∧ h.cur.length = 1 ∧ ∃ x ∈ s.holds, x.block = 100 ∧
      (s.bufs x.buf).data =
        apply (view mkfsConf fun _ => Bytes.zero _) (h.groups.flatten ++ h.cur) 100 := by
  obtain ⟨⟨s, h⟩, hr, hup, hc, hcur, x, hx, hp, hb⟩ := exists_of_any (tstep mkfsConf)
    (boot fun _ => Bytes.zero _, History.init) (failingCommit.take 21)
    (fun x => x.1.up = true ∧ x.1.committing = false ∧ x.2.cur.length = 1 ∧
      ∃ y ∈ x.1.holds, y.phase = .held ∧ y.block = 100) (by decide +kernel)
  have hes : ∀ e ∈ failingCommit.take 21, e ≠ .crash ∧ e.Outside mkfsConf := by
    simp [failingCommit, Event.Outside, Conf.Outside, mkfsConf, LOGSIZE_eq]
  have hout : mkfsConf.Outside x.block := by simp [hb, Conf.Outside, mkfsConf, LOGSIZE_eq]
  exact ⟨s, h, hr, hcur, x, hx, hb, hb ▸ (write_ahead headerOk_zero hes hr hup hc).2 x hx hp hout⟩

end Log

end Xv6
