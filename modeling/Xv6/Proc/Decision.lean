import Xv6.Proc.Solo

/-!
# What `scheduler` decides

The three passes over the table agree with a one-line specification: among the `RUNNABLE` processes
of least priority, in table order, the one at index `ticks` modulo their number. Nothing is assumed
of the table. If every `RUNNABLE` priority is above the sentinel then no process is chosen, because
the division traps first; a table with more candidates than `plist` has room for stops the machine
too. What is read from `plist` is the specified process in any case (`chosen_of_read`).

## Main definitions

* `Chosen` — the specification

## Main results

* `scheduling_decision` — the process that `scheduler` switches to is the one specified
-/

namespace Xv6

namespace Proc

open State Transition

variable {n : ℕ}

/-- The `RUNNABLE` processes of a priority, in table order. -/
def runnableWith (t : PTable) (prio : BitVec 32) : List Slot :=
  slots.filter fun q => (t q).state = .runnable ∧ (t q).prio = prio

/-- The specification of a round: `p` is `RUNNABLE`, no `RUNNABLE` process has a smaller priority,
and `p` stands at index `ticks` modulo their number among those of its priority. -/
structure Chosen (t : PTable) (ticks : BitVec 32) (p : Slot) : Prop where
  runnable : (t p).state = .runnable
  least : ∀ q, (t q).state = .runnable → (t p).prio.toNat ≤ (t q).prio.toNat
  turn : (runnableWith t (t p).prio)[ticks.toNat % (runnableWith t (t p).prio).length]? = some p

/-- `plist` holds the candidates in table order. -/
theorem read_schedPlist (t : PTable) (i : ℕ) :
    (schedPlist t).read i = (slots.filter (IsCandidate t))[i]? := by
  rw [Plist.read, (schedPlist_spec t).1]
  generalize slots.filter (IsCandidate t) = l
  induction l using List.reverseRecOn with
  | nil => rfl
  | append_singleton l p ih =>
    rw [List.mapIdx_concat, List.reverse_append, List.reverse_singleton, List.singleton_append,
      List.lookup_cons]
    by_cases hi : i = l.length
    · subst hi
      simp
    · have hne : (i == l.length) = false := by simpa using hi
      rw [hne, ih]
      obtain hlt | hgt := Nat.lt_or_gt_of_ne hi
      · rw [List.getElem?_append_left hlt]
      · rw [List.getElem?_eq_none hgt.le, List.getElem?_eq_none]
        rw [List.length_append, List.length_singleton]
        exact hgt

/-- What is read from `plist` is the process specified. -/
theorem chosen_of_read {t : PTable} {ticks : BitVec 32} {p : Slot}
    (h : (schedPlist t).read (schedSch t ticks) = some p) : Chosen t ticks p := by
  obtain ⟨hrun, hprio⟩ := schedPlist_read h
  have hlist : runnableWith t (t p).prio = slots.filter (IsCandidate t) := by
    rw [hprio]
    rfl
  refine ⟨hrun, fun q hq => ?_, ?_⟩
  · rw [hprio]
    exact (schedMn_spec t).2.1 q hq
  · rw [hlist, ← (schedPlist_spec t).2, ← read_schedPlist]
    exact h

/-! ### From the choice to the switch -/

/-- After a round has chosen `p`, the CPU can only go on towards the switch to `p`. -/
def Towards (c : Fin (n + 1)) (p : Slot) (s : State n) : Prop :=
  (s.cpu c).mode = .picked p ∨ (s.cpu c).mode = .started p

theorem Towards.step {c : Fin (n + 1)} {p : Slot} {s s' : State n} {e : Event n}
    (hs : Towards c p s) (h : step s e = some s') (he : e ≠ .dispatch c) : Towards c p s' := by
  have hc := CpuStep.of_step h c
  rw [Towards]
  generalize s'.cpu c = k at hc ⊢
  rw [Towards] at hs
  cases hc with
  | same => exact hs
  | readStart q hm =>
    rw [hm] at hs
    obtain hs | hs := hs <;> cases hs
    exact .inr rfl
  | dispatch => exact absurd rfl he
  | timer => exact hs
  | tickWakeup => exact hs
  | acquire hm | giveUp hm | pick _ hm | leave _ _ hm | readEnd _ hm | feedback _ _ hm
  | timerEnd hm | timerExit _ hm => rw [hm] at hs; obtain hs | hs := hs <;> cases hs

/-- The CPU has not chosen anything. -/
def Undecided (c : Fin (n + 1)) (s : State n) : Prop :=
  (s.cpu c).mode = .idle ∨ (s.cpu c).mode = .locked

theorem Undecided.step {c : Fin (n + 1)} {s s' : State n} {e : Event n}
    (hs : Undecided c s) (h : step s e = some s') (he : e ≠ .scan c) : Undecided c s' := by
  have hc := CpuStep.of_step h c
  rw [Undecided]
  generalize s'.cpu c = k at hc ⊢
  rw [Undecided] at hs
  cases hc with
  | same => exact hs
  | acquire => exact .inr rfl
  | giveUp | pick => exact absurd rfl he
  | timer => exact hs
  | tickWakeup => exact hs
  | timerEnd => exact hs
  | readStart _ hm | dispatch _ hm | leave _ _ hm | readEnd _ hm | feedback _ _ hm
  | timerExit _ hm => rw [hm] at hs; obtain hs | hs := hs <;> cases hs

/-- CPU `c` executes the scan of its round and, `es` later, the switch. In between the other CPUs
do what they like and `c` neither scans again nor switches. -/
structure Round (c : Fin (n + 1)) (s s' : State n) (es : List (Event n)) : Prop where
  run : run step s (.scan c :: es ++ [.dispatch c]) = some s'
  scan : .scan c ∉ es
  dispatch : .dispatch c ∉ es

/-- The rest of a run in which `c` neither scans nor switches keeps what `c` has settled. -/
theorem Round.settled {c : Fin (n + 1)} {s s₁ : State n} {es : List (Event n)}
    (hr : Transition.run step s es = some s₁) (hscan : .scan c ∉ es) (hdisp : .dispatch c ∉ es) :
    (∀ p, Towards c p s → Towards c p s₁) ∧ (Undecided c s → Undecided c s₁) := by
  refine run_induct (P := fun fs t => (∀ e ∈ fs, e ∈ es) →
    (∀ p, Towards c p s → Towards c p t) ∧ (Undecided c s → Undecided c t)) hr ?_ ?_ fun _ => id
  · exact fun _ => ⟨fun _ => id, id⟩
  · intro fs e t t' ih hst hsub
    obtain ⟨htow, hund⟩ := ih fun e he => hsub e (List.mem_append_left _ he)
    have hmem : e ∈ es := hsub e (List.mem_append_right _ (List.mem_singleton_self e))
    have hne : ∀ e' ∉ es, e ≠ e' := fun e' he' h => he' (h ▸ hmem)
    exact ⟨fun p hp => (htow p hp).step hst (hne _ hdisp),
      fun hu => (hund hu).step hst (hne _ hscan)⟩

/-- A round switches to the process that its scan has read from `plist`. -/
theorem Round.chosen {c : Fin (n + 1)} {s s' : State n} {es : List (Event n)}
    (h : Round c s s' es) :
    ∃ p, (s'.cpu c).mode = .running p ∧ (s'.ptable p).state = .running ∧
      Chosen s.ptable s.ticks p := by
  obtain ⟨s₁, hscan, hrest⟩ := (run_cons_eq_some _).mp h.run
  obtain ⟨s₂, hr, hlast⟩ := (run_append_eq_some _).mp hrest
  obtain ⟨s₃, hdisp, hnil⟩ := (run_cons_eq_some _).mp hlast
  cases hnil
  obtain ⟨htow, hund⟩ := Round.settled hr h.scan h.dispatch
  cases Step.of_step hdisp with
  | dispatch _ p hm =>
    refine ⟨p, by simp, by simp [setProc], ?_⟩
    cases Step.of_step hscan with
    | scanIdle =>
      -- nothing was chosen, so there is nothing to switch to
      obtain hu | hu := hund (.inl (by simp [setMode])) <;> rw [hm] at hu <;> cases hu
    | scanStop _ st _ _ hst =>
      -- the machine has stopped
      have hok : s₂.status = .ok := status_of_step hdisp
      obtain - | ⟨e, es⟩ := es
      · cases hr
        obtain ⟨rfl, -⟩ | ⟨rfl, -⟩ := hst <;> cases hok
      · obtain ⟨_, hfirst, -⟩ := (run_cons_eq_some _).mp hr
        have := status_of_step hfirst
        obtain ⟨rfl, -⟩ | ⟨rfl, -⟩ := hst <;> cases this
    | scanPick _ q _ hread =>
      obtain ht | ht := htow q (.inl (by simp [setMode])) <;> rw [hm] at ht <;> cases ht
      exact chosen_of_read hread

/-- With nothing `RUNNABLE` the scan goes back to the start of the loop. -/
theorem step_scan_of_not_runnable {s : State n} {c : Fin (n + 1)} (hok : s.status = .ok)
    (hm : (s.cpu c).mode = .locked) (h : ∀ p, (s.ptable p).state ≠ .runnable) :
    step s (.scan c) = some { s.setMode c .idle with lock := none } := by
  have hflag : schedFlag s.ptable = false := by
    rw [← Bool.not_eq_true, schedFlag_iff]
    exact fun ⟨p, hp⟩ => h p hp
  rw [step, if_neg (not_not.mpr hok)]
  simp only [hm, if_true, scanStep, hflag]

/-- **The decision.** For every table and every value of `ticks`: the process found in `plist` is
the one specified; the process a round switches to is the one specified for the table and the
`ticks` that the scan saw; and if nothing is `RUNNABLE`, the scan gives up the lock and leaves the
table alone. -/
theorem scheduling_decision (s : State n) (c : Fin (n + 1)) :
    (∀ p, (schedPlist s.ptable).read (schedSch s.ptable s.ticks) = some p →
      Chosen s.ptable s.ticks p) ∧
    (∀ s' es, Round c s s' es →
      ∃ p, (s'.cpu c).mode = .running p ∧ (s'.ptable p).state = .running ∧
        Chosen s.ptable s.ticks p) ∧
    (s.status = .ok → (s.cpu c).mode = .locked → (∀ p, (s.ptable p).state ≠ .runnable) →
      ∃ s', step s (.scan c) = some s' ∧ s'.lock = none ∧ s'.ptable = s.ptable ∧
        (s'.cpu c).mode = .idle) := by
  refine ⟨fun p => chosen_of_read, fun s' es => Round.chosen, fun hok hm h => ?_⟩
  exact ⟨_, step_scan_of_not_runnable hok hm h, rfl, rfl, by simp [setMode]⟩

/-- The first process forks three children and uses up its time slice. -/
def threeForks : List (Event 0) :=
  lockEvents 0 ++ roundEvents 0 ++ (List.replicate 3 (forkEvents 0 0)).flatten ++
    preemptEvents ++ lockEvents 0

/-- The first process is `RUNNABLE` too then, but its priority is not the least one. Among the three
children it is the turn of the second one, because `ticks` is `1`. -/
theorem scheduling_decision_children : ∃ s s' : State 0, run step (boot 0 0) threeForks = some s ∧
    runnableWith s.ptable 1#32 = [1, 2, 3] ∧ runnableWith s.ptable 2#32 = [0] ∧
    Round 0 s s' [.readStart 0] ∧ (s'.cpu 0).mode = .running 2 ∧ Chosen s.ptable s.ticks 2 := by
  obtain ⟨s, hs, hleast, hfirst, hround⟩ := exists_of_any step (boot 0 0) threeForks
    (fun s => runnableWith s.ptable 1#32 = [1, 2, 3] ∧ runnableWith s.ptable 2#32 = [0] ∧
      ((run step s [.scan 0, .readStart 0, .dispatch 0]).any
        fun t => (t.cpu 0).mode = .running 2) = true) (by decide +kernel)
  obtain ⟨s', hrun, hm⟩ := exists_of_any step s _ (fun t => (t.cpu 0).mode = .running 2) hround
  have hround : Round 0 s s' [.readStart 0] := ⟨hrun, by decide, by decide⟩
  obtain ⟨p, hp, -, hchosen⟩ := (scheduling_decision s 0).2.1 _ _ hround
  rw [hm] at hp
  cases hp
  exact ⟨s, s', hs, hleast, hfirst, hround, hm, hchosen⟩

end Proc

end Xv6
