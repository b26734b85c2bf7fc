import Xv6.Proc.Feedback
import Xv6.Proc.Slots

/-!
# `setpriority` and what is left of it

`sp` stores the new priority and then calls `yield`, so the caller comes back to it through
`scheduler`, which adjusts the priority of every process it takes the CPU back from. What the caller
finds when `setpriority(v)` returns is therefore `v` after one adjustment for each time it was taken
off a CPU during the call, and there is at least one.

## Main definitions

* `SpCall` — a call of `setpriority` from the store to the return
* `SpCall.turns` — the two readings of `ticks` for each time the caller was taken off a CPU

## Main results

* `SpCall.prio_eq` — the priority at the return is `v` adjusted once for each turn
* `SpCall.round_trip_iff` — when the caller still has priority `v`
-/

namespace Xv6

namespace Proc

open State Transition

variable {n : ℕ}

/-- `p` is inside `sp`, behind the store. -/
def InSp (p : Slot) (s : State n) : Prop :=
  (s.thread p).act = .spYield ∨ (s.thread p).act = .spYielding

/-- No other slot has the pid of `p`. -/
def Alone (p : Slot) (s : State n) : Prop := ∀ q, (s.ptable q).pid = (s.ptable p).pid → q = p

/-- The two readings of `ticks`, if the step is the adjustment of `p`'s priority. -/
def turn (p : Slot) (s : State n) : Event n → List (BitVec 32 × BitVec 32)
  | .feedback c =>
    match (s.cpu c).mode with
    | .ended q stop => if q = p then [((s.cpu c).start, stop)] else []
    | _ => []
  | _ => []

/-- A call of `setpriority(v)` that returns `0`, from any reachable state on: the store, and
whatever all CPUs do while the caller is inside `sp`. -/
structure SpCall (n : ℕ) (second : BitVec 32) where
  cpu : Fin (n + 1)
  proc : Slot
  v : BitVec 32
  before : State n
  reach : Reach step (fun _ _ => True) (boot n second) before
  work : before.work cpu = some proc
  stored : State n
  store : step before (.setpriority cpu v) = some stored
  events : List (Event n)
  after : State n
  inside : Trace step (fun s _ => InSp proc s) stored events after
  returns : (after.thread proc).act = .user ∧ (after.thread proc).ret = 0

/-! ### One step -/

section Step

variable {s s' : State n} {e : Event n} {p : Slot}

/-- The process exists and can be scheduled. -/
def Live (p : Slot) (s : State n) : Prop :=
  (s.ptable p).state ≠ .unused ∧ (s.ptable p).state ≠ .embryo ∧ (s.ptable p).state ≠ .zombie

theorem Live.step (hs : Live p s) (hwf : Wf s) (hin : InSp p s) (h : step s e = some s') :
    Live p s' := by
  obtain ⟨hu, he, hz⟩ := hs
  have hchild : ∀ q, (s.thread q).act.child ≠ some p := fun q hq => he (hwf.child q p hq)
  have hst := SlotStep.of_step hwf h p
  rw [Live]
  generalize s'.ptable p = r at hst ⊢
  cases hst with
  | same => exact ⟨hu, he, hz⟩
  | claim _ _ hr => exact absurd hr hu
  | kalloc _ q _ ha | kallocFail _ q _ ha | copyuvm _ q _ ha | copyuvmFail _ q _ ha
  | ready _ q _ ha => exact absurd (by rw [ha]; rfl) (hchild q)
  | dispatch | sleep | waits | woken | yield => exact ⟨nofun, nofun, nofun⟩
  | feedback | unchan | setprio | fault => exact ⟨hu, he, hz⟩
  | reap _ _ _ _ _ _ hr => exact absurd hr hz
  | exits _ _ _ ha =>
    obtain hin | hin := hin <;> obtain ha | ha := ha <;> rw [hin] at ha <;> cases ha
  | bereaved _ _ st _ _ _ hst =>
    obtain rfl | ⟨-, rfl⟩ := hst
    · exact ⟨hu, he, hz⟩
    · exact ⟨nofun, nofun, nofun⟩
  | killed =>
    dsimp only
    split
    · exact ⟨nofun, nofun, nofun⟩
    · exact ⟨hu, he, hz⟩

/-- Inside `sp` the process makes no other call. -/
theorem InSp.not_user (h : InSp p s) : (s.thread p).act ≠ .user := by
  intro hu
  obtain h | h := h <;> rw [hu] at h <;> cases h

/-- **One step inside the call.** Only the scheduler's adjustment changes the caller's priority. -/
theorem prio_of_inSp (hs : Live p s) (hwf : Wf s) (hin : InSp p s) (hal : Alone p s)
    (h : step s e = some s') :
    (s'.ptable p).prio = (turn p s e).foldl (fun v t => feedback t.1 t.2 v) (s.ptable p).prio := by
  by_cases he : ∃ c, e = .feedback c
  · obtain ⟨c, rfl⟩ := he
    cases Step.of_step h with
    | feedback _ q stop hm =>
      by_cases hq : q = p
      · subst hq
        simp [turn, hm, setProc]
      · simp [turn, hm, hq, setProc, PTable.set_of_ne _ _ (Ne.symm hq)]
  · have hturn : turn p s e = [] := by
      cases e <;> first | rfl | exact absurd ⟨_, rfl⟩ he
    rw [hturn, List.foldl_nil]
    have hst := SlotStep.of_step hwf h p
    generalize s'.ptable p = r at hst ⊢
    cases hst with
    | claim _ _ hr => exact absurd hr hs.1
    | reap _ _ _ _ _ _ hr => exact absurd hr hs.2.2
    | feedback c => exact absurd ⟨c, rfl⟩ he
    | setprio c q v hw hpid =>
      -- the caller of this `setpriority` would have to be `p` itself
      obtain rfl := hal q hpid.symm
      have hu : (s.thread q).act = .user := by
        cases Step.of_step h with
        | spFail _ r _ hr ha | sp _ r _ _ hr ha =>
          rw [hw] at hr
          cases hr
          exact ha
      exact absurd hu hin.not_user
    | _ => rfl

/-- The process leaves `sp` only by the `resume` that follows a switch to it. -/
theorem resume_of_leaves (hs : Live p s) (hwf : Wf s) (hin : InSp p s) (h : step s e = some s')
    (hu : (s'.thread p).act = .user) :
    ∃ c, (s.cpu c).mode = .running p ∧ s.lock = some c := by
  have hact := ActCause.of_step h p
  rw [hu] at hact
  generalize hb : Act.user = b at hact
  cases hact with
  | same => exact absurd hb.symm hin.not_user
  | call ha => exact absurd ha hin.not_user
  | yield => cases hb
  | resume c hm hl => exact ⟨c, hm, hl⟩
  | fork _ hc => obtain ha | ha := hin <;> rw [ha] at hc <;> exact absurd rfl hc
  | child q _ hc => exact absurd (hwf.child q p hc) hs.2.1

/-- The caller runs without the lock, or has been taken off a CPU that has not adjusted its priority
yet. -/
def Underway (p : Slot) (s : State n) : Prop :=
  ∃ c, (s.cpu c).mode = .running p ∧ s.lock ≠ some c ∨ Settled c p s

theorem Underway.step (hs : Underway p s) (h : step s e = some s') :
    Underway p s' ∨ turn p s e ≠ [] := by
  obtain ⟨c, ⟨hm, hl⟩ | hset⟩ := hs
  · refine .inl ⟨c, ?_⟩
    have hl' := lock_of_step (c := c) h
    have hc := CpuStep.of_step h c
    have hstay : (s'.cpu c).mode = .running p → s'.lock ≠ some c := by
      intro hm' hlock
      obtain hlock | hsch := hl' hlock
      · exact hl hlock
      · rw [hm'] at hsch
        exact hsch
    rw [Settled]
    generalize s'.cpu c = k at hc hstay
    cases hc with
    | same => exact .inl ⟨hm, hstay hm⟩
    | leave _ q hq =>
      rw [hm] at hq
      cases hq
      exact .inr (.inl rfl)
    | timer | tickWakeup | timerExit => exact .inl ⟨hm, hstay hm⟩
    | acquire hq | giveUp hq | pick _ hq | readStart _ hq | dispatch _ hq | readEnd _ hq
    | feedback _ _ hq | timerEnd hq => rw [hm] at hq; cases hq
  · by_cases he : e = .feedback c
    · subst he
      refine .inr ?_
      cases Step.of_step h with
      | feedback _ q stop hm =>
        obtain hset | ⟨stop', hset⟩ := hset <;> rw [hm] at hset <;> cases hset
        simp [turn, hm]
    · exact .inl ⟨c, .inr (hset.step h he).1⟩

/-- A process that is underway has not been switched to. -/
theorem Underway.not_resumed (hs : Underway p s) (hwf : Wf s) {c : Fin (n + 1)}
    (hm : (s.cpu c).mode = .running p) : s.lock ≠ some c := by
  obtain ⟨d, ⟨hd, hl⟩ | hset⟩ := hs
  · rw [hwf.unique c d p hm hd]
    exact hl
  · have hleft := hwf.left d p hset
    rw [hwf.running c p hm] at hleft
    obtain h | h | h := hleft <;> cases h

end Step

/-! ### The whole call -/

namespace SpCall

variable {second : BitVec 32} (call : SpCall n second)

/-- The readings of `ticks` at the switch to the caller and behind its way back, for each time it
was taken off a CPU during the call. -/
def turns : List (BitVec 32 × BitVec 32) :=
  record step (turn call.proc) call.stored call.events

/-- From the start of the call until it is over no other slot has the caller's pid. -/
def PidAlone : Prop :=
  Alone call.proc call.before ∧
    ∀ es s, es <+: call.events → run step call.stored es = some s → Alone call.proc s

/-- The store has found the caller's slot. -/
theorem store_eq (hal : Alone call.proc call.before) :
    (call.stored.ptable call.proc).prio = call.v ∧ (call.stored.thread call.proc).act = .spYield ∧
      Live call.proc call.stored ∧ Underway call.proc call.stored := by
  have hwf := Wf.of_reach call.reach
  have hm := (mode_of_work call.work).1
  have hrun := hwf.running _ _ hm
  have hfind : (slots.find? fun q => (call.before.ptable q).pid =
      (call.before.ptable call.proc).pid) = some call.proc :=
    find?_pid_eq_some.mpr ⟨rfl, fun q hq h => hq.ne (hal q h)⟩
  have hstep := call.store
  generalize call.stored = s' at hstep ⊢
  cases Step.of_step hstep with
  | spFail _ p _ hw _ _ hk =>
    rw [call.work] at hw
    cases hw
    rw [spTable, hfind] at hk
    cases hk
  | sp _ p _ t hw _ hl hk =>
    rw [call.work] at hw
    cases hw
    rw [spTable, hfind] at hk
    cases hk
    refine ⟨by simp [setAct, setThread], by simp [setAct, setThread], ?_, call.cpu, .inl ⟨hm, ?_⟩⟩
    · simp [Live, setAct, setThread, hrun]
    · exact (mode_of_work call.work).2.2

/-- **The state of the call** at any point of it. -/
theorem underway (hal : call.PidAlone) {es : List (Event n)} {s : State n}
    (h : Trace step (fun s _ => InSp call.proc s) call.stored es s) (hes : es <+: call.events) :
    Wf s ∧ Live call.proc s ∧
      (s.ptable call.proc).prio = (record step (turn call.proc) call.stored es).foldl
        (fun v t => feedback t.1 t.2 v) call.v ∧
      (Underway call.proc s ∨ record step (turn call.proc) call.stored es ≠ []) := by
  induction h with
  | nil =>
    obtain ⟨hprio, -, hlive, hund⟩ := call.store_eq hal.1
    exact ⟨(Wf.of_reach call.reach).step call.store, hlive, hprio, .inl hund⟩
  | @snoc es s s' e htr hin hst ih =>
    have hpre : es <+: call.events := (List.prefix_append es [e]).trans hes
    obtain ⟨hwf, hlive, hprio, hund⟩ := ih hpre
    rw [record_snoc step _ htr.run]
    refine ⟨hwf.step hst, hlive.step hwf hin hst, ?_, ?_⟩
    · rw [prio_of_inSp hlive hwf hin (hal.2 es s hpre htr.run) hst, hprio, List.foldl_append]
    · obtain hund | hne := hund
      · refine (hund.step hst).imp_right fun h => ?_
        exact fun hnil => h (List.append_eq_nil_iff.mp hnil).2
      · exact .inr fun hnil => hne (List.append_eq_nil_iff.mp hnil).1

/-- **The priority at the return** is `v`, adjusted for every time the caller was taken off a
CPU. -/
theorem prio_eq (hal : call.PidAlone) :
    (call.after.ptable call.proc).prio =
      call.turns.foldl (fun v t => feedback t.1 t.2 v) call.v :=
  (call.underway hal call.inside List.prefix_rfl).2.2.1

/-- The call does not return without a turn. -/
theorem turns_ne_nil (hal : call.PidAlone) : call.turns ≠ [] := by
  have hact := (call.store_eq hal.1).2.1
  have hund := @underway n second call hal
  have hin := call.inside
  have hret := call.returns.1
  rw [turns]
  generalize call.events = es at hin hund ⊢
  generalize call.after = s' at hin hret
  cases hin with
  | nil =>
    rw [hact] at hret
    cases hret
  | @snoc es s s' e htr hin hst =>
    obtain ⟨hwf, hlive, -, hphase⟩ := hund htr (List.prefix_append es [e])
    obtain ⟨c, hm, hl⟩ := resume_of_leaves hlive hwf hin hst hret
    rw [record_snoc step _ htr.run]
    obtain hphase | hne := hphase
    · exact absurd hl (hphase.not_resumed hwf hm)
    · exact fun hnil => hne (List.append_eq_nil_iff.mp hnil).1

/-- `getpriority` in the state in which the call returns. -/
theorem getpriority_eq (hal : call.PidAlone) {d : Fin (n + 1)} {s : State n}
    (hw : call.after.work d = some call.proc) (h : step call.after (.getpriority d) = some s) :
    (s.thread call.proc).ret = (call.after.ptable call.proc).prio := by
  have hfind : (slots.find? fun q => (call.after.ptable q).pid =
      (call.after.ptable call.proc).pid) = some call.proc :=
    find?_pid_eq_some.mpr ⟨rfl, fun q hq h =>
      hq.ne (hal.2 _ _ List.prefix_rfl call.inside.run q h)⟩
  cases Step.of_step h with
  | getpriority _ p hw' =>
    rw [hw] at hw'
    cases hw'
    simp [setRet, setThread, gpTable, hfind]

/-- The adjustment leaves `v` as it is: no tick has passed and `v` is the least priority, or one has
and `v` is the greatest. -/
def Keeps (v : BitVec 32) (t : BitVec 32 × BitVec 32) : Prop :=
  v = 0 ∧ t.1 = t.2 ∨ v = 10 ∧ t.1 ≠ t.2

theorem feedback_eq_self_iff {v : BitVec 32} (hv : v.toNat ≤ 10) (t : BitVec 32 × BitVec 32) :
    feedback t.1 t.2 v = v ↔ Keeps v t := by
  have hsub : t.2 - t.1 = 0#32 ↔ t.1 = t.2 := by
    rw [BitVec.sub_eq_iff_eq_add, BitVec.zero_add]
    exact eq_comm
  unfold feedback Keeps
  split
  · next h =>
    simp only [hsub.mp h, ne_eq, not_true, and_false, or_false, and_true]
    split <;> constructor <;> intro h' <;> bv_omega
  · next h =>
    simp only [mt hsub.mpr h, ne_eq, not_false_iff, and_false, false_or, and_true]
    split <;> constructor <;> intro h' <;> bv_omega

theorem foldl_feedback_of_keeps {v : BitVec 32} (hv : v.toNat ≤ 10)
    {ts : List (BitVec 32 × BitVec 32)} (h : ∀ t ∈ ts, Keeps v t) :
    ts.foldl (fun v t => feedback t.1 t.2 v) v = v := by
  induction ts with
  | nil => rfl
  | cons t ts ih =>
    rw [List.foldl_cons, (feedback_eq_self_iff hv t).mpr (h t (List.mem_cons_self ..))]
    exact ih fun t ht => h t (List.mem_cons_of_mem _ ht)

/-- **The round trip.** In every call whose turns all leave `v` as it is, the caller has priority
`v` when the call returns, and a `getpriority` made there returns it. There is at least one turn,
and when there is only one, the condition is necessary: after a call with `v` between `1` and `9`
the priority is another one. -/
theorem round_trip_iff (hv : call.v.toNat ≤ 10) (hal : call.PidAlone) :
    ((∀ t ∈ call.turns, Keeps call.v t) →
      (call.after.ptable call.proc).prio = call.v ∧
      ∀ d s, call.after.work d = some call.proc → step call.after (.getpriority d) = some s →
        (s.thread call.proc).ret = call.v) ∧
    call.turns ≠ [] ∧
    (call.turns.length = 1 →
      ((call.after.ptable call.proc).prio = call.v ↔ ∀ t ∈ call.turns, Keeps call.v t)) := by
  refine ⟨fun hkeep => ?_, call.turns_ne_nil hal, fun hone => ?_⟩
  · have hprio : (call.after.ptable call.proc).prio = call.v := by
      rw [call.prio_eq hal]
      exact foldl_feedback_of_keeps hv hkeep
    exact ⟨hprio, fun d s hw hst => (call.getpriority_eq hal hw hst).trans hprio⟩
  · obtain ⟨t, ht⟩ := List.length_eq_one_iff.mp hone
    rw [call.prio_eq hal, ht, List.foldl_cons, List.foldl_nil, feedback_eq_self_iff hv]
    simp

/-! ### A call of the first process -/

/-- The first process runs on CPU `0` of two. -/
def firstRunning : State 1 :=
  soloRunning 0 (PTable.set (fun _ => zero) 0 { initcode 0 with state := .running })
    (fun _ => ⟨.user, .forkret, 0⟩) 0 2 0 0

/-- It has stored the priority `v`. -/
def firstStored (v : BitVec 32) : State 1 :=
  soloRunning 0
    ((PTable.set (fun _ => zero) 0 { initcode 0 with state := .running }).set 0
      { initcode 0 with state := .running, prio := v })
    (Function.update (fun _ => ⟨.user, .forkret, 0⟩) 0 ⟨.spYield, .forkret, 0⟩) 0 2 0 0

/-- It yields and is the next to run. No timer interrupt comes. -/
def yieldAndReturn : List (Event 1) :=
  [.spYield 0, .readEnd 0, .feedback 0, .acquire 0, .scan 0, .readStart 0, .dispatch 0, .resume 0]

instance (p : Slot) (s : State n) : Decidable (InSp p s) :=
  inferInstanceAs (Decidable (_ ∨ _))

instance (p : Slot) (s : State n) : Decidable (Alone p s) :=
  inferInstanceAs (Decidable (∀ _, _ → _))

/-- What remains to be computed about the call. -/
theorem exists_call {v w : BitVec 32}
    (hrun : ((run (fun s e => if InSp 0 s then step s e else none) (firstStored v)
      yieldAndReturn).any fun t => decide ((t.ptable 0).prio = w ∧ t.work 0 = some 0 ∧
        (t.thread 0).act = .user ∧ (t.thread 0).ret = 0 ∧ t.lock = none ∧ t.status = .ok)) = true)
    (hal : (yieldAndReturn.inits.all fun es => (run step (firstStored v) es).all fun s =>
      decide (Alone 0 s)) = true)
    (hturn : record step (turn 0) (firstStored v) yieldAndReturn = [(0, 0)]) :
    ∃ call : SpCall 1 0, call.v = v ∧ call.PidAlone ∧ call.turns = [(0, 0)] ∧
      (call.after.ptable call.proc).prio = w ∧
      ∃ s, call.after.work 0 = some call.proc ∧ step call.after (.getpriority 0) = some s := by
  obtain ⟨t, ht, hprio, hwork, hact, hret, hlock, hok⟩ := exists_of_any _ _ _ _ hrun
  have hget : step t (.getpriority 0) =
      some (t.setRet 0 (gpTable t.ptable (t.ptable 0).pid)) := by
    simp only [step, hok, ne_eq, not_true, if_false, onWork, hwork, Option.bind_some, canCall, hact,
      hlock, and_self, decide_true, if_true]
  have hfirst : Alone 0 firstRunning := by decide +kernel
  have hstore : run step firstRunning [.setpriority 0 v] = some (firstStored v) :=
    run_setpriority 0 0 2 0 v rfl fun q hq => absurd hq (Fin.not_lt_zero q)
  refine ⟨⟨0, 0, v, firstRunning, ?_, rfl, firstStored v, ?_, yieldAndReturn, t,
    .of_run_ite ht, hact, hret⟩, rfl, ⟨hfirst, fun es s hes hs => ?_⟩, hturn, hprio, ?_⟩
  · exact reach_of_run (run_start 1 0)
  · obtain ⟨s, hs, hnil⟩ := (run_cons_eq_some _).mp hstore
    cases hnil
    exact hs
  · have h := List.all_eq_true.mp hal es ((List.mem_inits _ _).mpr hes)
    rw [hs] at h
    exact of_decide_eq_true h
  · exact ⟨_, hwork, hget⟩

/-- A call of the first process with `0`: the one turn leaves the priority alone. -/
theorem round_trip_zero :
    ∃ call : SpCall 1 0, call.v = 0 ∧ call.PidAlone ∧ (∀ t ∈ call.turns, Keeps call.v t) ∧
      (call.after.ptable call.proc).prio = call.v := by
  obtain ⟨call, hv, hal, hturns, -, -⟩ :=
    exists_call (v := 0) (w := 0) (by decide +kernel) (by decide +kernel) (by decide +kernel)
  have hkeep : ∀ t ∈ call.turns, Keeps call.v t := by
    intro t ht
    rw [hturns, List.mem_singleton] at ht
    exact .inl ⟨hv, by rw [ht]⟩
  exact ⟨call, hv, hal, hkeep, ((round_trip_iff call (by rw [hv]; decide) hal).1 hkeep).1⟩

/-- A call of the first process with `5` returns with the priority `4`, and `getpriority` says
so. -/
theorem exists_call_not_kept :
    ∃ call : SpCall 1 0, call.v = 5 ∧ call.PidAlone ∧
      (call.after.ptable call.proc).prio = 4 ∧
      ∃ s, call.after.work 0 = some call.proc ∧ step call.after (.getpriority 0) = some s ∧
        (s.thread call.proc).ret = 4 := by
  obtain ⟨call, hv, hal, -, hprio, s, hw, hst⟩ :=
    exists_call (v := 5) (w := 4) (by decide +kernel) (by decide +kernel) (by decide +kernel)
  exact ⟨call, hv, hal, hprio, s, hw, hst, (call.getpriority_eq hal hw hst).trans hprio⟩

end SpCall

end Proc

end Xv6
