import Xv6.Ide.Queue

/-!
# The queued driver and the memory disk

`memide.c` has an `iderw` that serves its request at once, from a disk in memory. Whatever the
queued driver does with the requests of many processes, it comes to the same thing: at any point of
a run, the memory disk that has executed the requests in the order in which they were queued is the
real disk and its buffers with the requests still in the queue executed on top.

## Main definitions

* `Mem`, `Mem.iderw` — the memory disk
* `Op`, `ops` — the requests, and the changes that the owners make to their buffers in between
* `Effect` — what a step does to the queue and to the memory disk

## Main results

* `Inv.step` — every step has one of these effects, and keeps the invariant
* `refines_memide` — the driver and the memory disk
* `valid_means_valid` — a buffer that `iderw` returns agrees with the disk
-/

namespace Xv6

namespace Ide

variable {τ : Type} [DecidableEq τ]

open State Transition

/-! ### `memide.c` -/

/-- A disk of `FSSIZE` blocks in memory, with the contents of the buffers. -/
structure Mem where
  disk : Disk
  buf : BufId → Content

namespace Mem

/-- `iderw` of `memide.c`, for a buffer that the caller has locked; `none` when it panics. -/
def iderw (m : Mem) (b : BufId) : Option Mem :=
  let x := m.buf b
  if x.Synced then none
  else if x.dev ≠ 1 then none
  else if FSSIZE ≤ x.blockno then none
  else if x.dirty then
    some { disk := Function.update m.disk x.blockno x.data
           buf := Function.update m.buf b { x with dirty := false, valid := true } }
  else
    some { m with
      buf := Function.update m.buf b { x with data := m.disk x.blockno, valid := true } }

/-- The owner of a buffer changes it. -/
def put (m : Mem) (b : BufId) (x : Content) : Mem := { m with buf := Function.update m.buf b x }

/-- Requests one after the other. -/
def iderws (m : Mem) (q : List BufId) : Option Mem := q.foldlM iderw m

theorem iderws_cons (m : Mem) (b : BufId) (q : List BufId) :
    m.iderws (b :: q) = (m.iderw b).bind fun m' => m'.iderws q := rfl

theorem iderws_concat (m : Mem) (q : List BufId) (b : BufId) :
    m.iderws (q ++ [b]) = (m.iderws q).bind fun m' => m'.iderw b := by
  rw [iderws, List.foldlM_append]
  refine congrArg _ (funext fun m' => ?_)
  change (m'.iderw b).bind some = _
  cases m'.iderw b <;> rfl

variable {m m' : Mem} {b b' : BufId} {q : List BufId}

/-- A request concerns its own buffer. -/
theorem iderw_buf_of_ne (h : m.iderw b = some m') (hb : b' ≠ b) : m'.buf b' = m.buf b' := by
  unfold iderw at h
  dsimp only at h
  split at h
  · cases h
  split at h
  · cases h
  split at h
  · cases h
  split at h <;> cases h <;> exact Function.update_of_ne hb ..

theorem iderws_buf_of_not_mem (h : m.iderws q = some m') (hb : b' ∉ q) : m'.buf b' = m.buf b' := by
  induction q generalizing m with
  | nil => cases h; rfl
  | cons b q ih =>
    rw [iderws_cons, Option.bind_eq_some_iff] at h
    obtain ⟨m₁, h₁, h₂⟩ := h
    rw [List.mem_cons, not_or] at hb
    rw [ih h₂ hb.2, iderw_buf_of_ne h₁ hb.1]

/-- A change of another buffer does not matter to a request. -/
theorem iderw_put (h : m.iderw b = some m') (hb : b' ≠ b) (x : Content) :
    (m.put b' x).iderw b = some (m'.put b' x) := by
  have hbuf : (m.put b' x).buf b = m.buf b := Function.update_of_ne hb.symm ..
  unfold iderw at h ⊢
  dsimp only at h ⊢
  rw [hbuf]
  split at h
  · cases h
  next h₁ =>
  rw [if_neg h₁]
  split at h
  · cases h
  next h₂ =>
  rw [if_neg h₂]
  split at h
  · cases h
  next h₃ =>
  rw [if_neg h₃]
  split at h
  · next h₄ =>
    cases h
    rw [if_pos h₄]
    simp only [put, Function.update_comm hb]
  · next h₄ =>
    cases h
    rw [if_neg h₄]
    simp only [put, Function.update_comm hb]

theorem iderws_put (h : m.iderws q = some m') (hb : b' ∉ q) (x : Content) :
    (m.put b' x).iderws q = some (m'.put b' x) := by
  induction q generalizing m with
  | nil => cases h; rfl
  | cons b q ih =>
    rw [iderws_cons, Option.bind_eq_some_iff] at h
    obtain ⟨m₁, h₁, h₂⟩ := h
    rw [List.mem_cons, not_or] at hb
    rw [iderws_cons, iderw_put h₁ hb.1, Option.bind_some]
    exact ih h₂ hb.2

/-- A request that is in order is served. -/
theorem exists_iderw (hs : ¬ (m.buf b).Synced) (hdev : (m.buf b).dev = ROOTDEV)
    (hno : (m.buf b).blockno < FSSIZE) : ∃ m', m.iderw b = some m' := by
  simp only [iderw, hs, hdev, not_le.mpr hno, ne_eq, not_true, if_false]
  split <;> exact ⟨_, rfl⟩

end Mem

/-- The disk and the buffers. -/
def mem (s : State τ) : Mem := ⟨s.device.disk 1, fun b => (s.buf b).toContent⟩

/-- What a process asks of the memory disk, and what it does to its buffers. -/
inductive Op
  | put (b : BufId) (x : Content)
  | iderw (b : BufId)

/-- The memory disk executes an operation. -/
def Op.run (m : Mem) : Op → Option Mem
  | .put b x => some (m.put b x)
  | .iderw b => m.iderw b

/-- The operations of a step: a request counts when it is queued. -/
def ops (s : State τ) : Event τ → List Op
  | .recycle _ b blockno => [.put b ⟨false, false, ROOTDEV, blockno, (s.buf b).data⟩]
  | .store _ b data => [.put b { (s.buf b).toContent with data := data }]
  | .pin _ b => [.put b { (s.buf b).toContent with dirty := true }]
  | .bwrite _ b => [.put b { (s.buf b).toContent with dirty := true }]
  | .enter t =>
    match s.thread t with
    | .want b => [.iderw b]
    | _ => []
  | _ => []

/-- The buffer that a step queues. -/
def arrived (s : State τ) : Event τ → List BufId
  | .enter t =>
    match s.thread t with
    | .want b => [b]
    | _ => []
  | _ => []

/-- The buffer that a step takes off the queue. -/
def taken (s : State τ) : Event τ → List BufId
  | .intr => s.idequeue.toList
  | _ => []

/-- What a step does to the queue `q` and to the memory disk: nothing; a change of a buffer that is
not in the queue; one more request; the first write reaches the disk; the first request is
served. -/
inductive Effect (s s' : State τ) (q : List BufId) :
    List BufId → List BufId → List Op → List BufId → Prop
  | stay (hm : mem s' = mem s) : Effect s s' q [] [] [] q
  | put (b : BufId) (x : Content) (hb : b ∉ q) (hm : mem s' = (mem s).put b x) :
      Effect s s' q [] [] [.put b x] q
  | queue (b : BufId) (hb : b ∉ q) (hs : ¬ ((mem s).buf b).Synced)
      (hdev : ((mem s).buf b).dev = ROOTDEV) (hm : mem s' = mem s) :
      Effect s s' q [b] [] [.iderw b] (q ++ [b])
  | write (b : BufId) (l : List BufId) (hq : q = b :: l) (hd : ((mem s).buf b).dirty = true)
      (hm : mem s' = { mem s with
        disk := Function.update (mem s).disk ((mem s).buf b).blockno ((mem s).buf b).data }) :
      Effect s s' q [] [] [] q
  | serve (b : BufId) (l : List BufId) (hq : q = b :: l) (hm : (mem s).iderw b = some (mem s')) :
      Effect s s' q [] [b] [] l

section Step

variable {s s' : State τ} {q : List BufId} {t : τ} {b : BufId}

omit [DecidableEq τ] in
theorem mem_setContent (x : Content) : mem (s.setContent b x) = (mem s).put b x := by
  refine congrArg (Mem.mk _) (funext fun b' => ?_)
  by_cases h : b' = b
  · subst h
    simp [setContent, setBuf, mem]
  · simp [setContent, setBuf, mem, h]

omit [DecidableEq τ] in
theorem mem_congr (hbuf : ∀ b, (s'.buf b).toContent = (s.buf b).toContent)
    (hdisk : s'.device.disk = s.device.disk) : mem s' = mem s := by
  rw [mem, mem, hdisk, funext hbuf]

omit [DecidableEq τ] in
/-- A write that reaches the disk, and nothing else, is seen there. -/
theorem effect_finish (h : Inv s q) {c : Command} (hc : s.device.active = some c) :
    Effect s { s with device := s.device.finish c } q [] [] [] q := by
  have hw := h.working
  cases q with
  | nil =>
    rw [hw.1] at hc
    cases hc
  | cons a l =>
    obtain ⟨hact, -⟩ | ⟨hact, -⟩ := hw
    swap
    · rw [hact] at hc
      cases hc
    obtain rfl : command (s.buf a).toContent = c := Option.some.inj (hact.symm.trans hc)
    obtain ⟨t₀, hown⟩ := h.owner_of_mem (List.mem_cons_self ..)
    have hdrive := command_drive (h.inRange a rfl) (h.root t₀ a hown)
    have hsector := command_sector (h.inRange a rfl)
    have hwrite : (command (s.buf a).toContent).write = (s.buf a).dirty := rfl
    cases hdirty : (s.buf a).dirty with
    | true =>
      refine .write a l rfl hdirty ?_
      simp only [mem, Device.finish, Device.put, hdrive, hsector, hwrite, hdirty, if_true,
        Function.update_self]
      rfl
    | false =>
      refine .stay ?_
      simp only [mem, Device.finish, hwrite, hdirty, Bool.false_eq_true, if_false]

omit [DecidableEq τ] in
/-- A request that the disk has executed is served as the memory disk would. -/
theorem iderw_of_serve (h : Inv s (b :: q)) (hdone : s.device.err = false ∧ Done s b)
    (hbuf : s'.buf = (s.serve b).buf) (hdisk : s'.device.disk = s.device.disk) :
    (mem s).iderw b = some (mem s') := by
  obtain ⟨t₀, hown⟩ := h.owner_of_mem (List.mem_cons_self ..)
  have hdev : (s.buf b).dev = 1 := h.root t₀ b hown
  have hno := not_le.mpr (h.inRange b rfl)
  have hsync := (h.queued b (List.mem_cons_self ..)).1
  have hself := serve_self (b := b) hdone.1
  have hd := hdone.2
  have hrest : ∀ x : Content, ((s.serve b).buf b).toContent = x →
      (fun b' => (s'.buf b').toContent) = Function.update (fun b' => (s.buf b').toContent) b x := by
    intro x hx
    funext b'
    rw [hbuf]
    by_cases hne : b' = b
    · subst hne
      rw [Function.update_self, hx]
    · rw [Function.update_of_ne hne, serve_of_ne hne]
  simp only [Mem.iderw, mem, hsync, hdev, hno, ne_eq, not_true, if_false, hdisk, hrest _ hself]
  unfold Done at hd
  cases hdirty : (s.buf b).dirty with
  | true =>
    rw [hdirty, if_pos rfl] at hd
    simp only [if_true, Bool.true_eq_false, if_false]
    rw [← hd, Function.update_eq_self]
  | false =>
    rw [hdirty, if_neg nofun] at hd
    simp only [Bool.false_eq_true, if_false, if_true, hd]

theorem mem_iderw : mem (s.iderw t b) = mem s := by
  unfold State.iderw
  split
  · rfl
  split
  · rfl
  split <;> rfl

theorem mem_waitLoop : mem (s.waitLoop t b) = mem s := by
  unfold State.waitLoop
  split <;> rfl

omit [DecidableEq τ] in
/-- A buffer changes its owner. -/
theorem Inv.setOwner (h : Inv s q) (hb : Free s b) {o : Option τ}
    (ho : o ≠ none → (s.buf b).dev = ROOTDEV) :
    Inv { s with owner := Function.update s.owner b o } q := by
  refine h.modify hb ⟨fun _ _ => rfl, fun b' hne => Function.update_of_ne hne .., rfl, rfl, rfl⟩ ?_
    fun b' hne hd hd' heq => hne (h.unique b b' hd hd' heq).symm
  change Function.update s.owner b o b ≠ none → _
  rw [Function.update_self]
  exact ho

omit [DecidableEq τ] in
/-- A buffer is recycled for a block that is in no buffer. -/
theorem Inv.recycle (h : Inv s q) (ho : s.owner b = none) {blockno : ℕ}
    (hun : s.Uncached blockno) (data : Block) :
    Inv { s.setContent b ⟨false, false, ROOTDEV, blockno, data⟩ with
      owner := Function.update s.owner b (some t) } q := by
  have hself : ((s.setContent b ⟨false, false, ROOTDEV, blockno, data⟩).buf b).toContent =
      ⟨false, false, ROOTDEV, blockno, data⟩ := by simp [State.setContent, setBuf]
  refine h.modify (h.free_of_none ho) ⟨fun b' hne => ?_, fun b' hne => ?_, rfl, rfl, rfl⟩
    (fun _ => ?_) fun b' hne _ hd' heq => ?_
  · simp [State.setContent, setBuf, hne]
  · exact Function.update_of_ne hne ..
  · change ((s.setContent b _).buf b).dev = _
    rw [hself]
  · change ((s.setContent b _).buf b).blockno = _ at heq
    rw [hself] at heq
    exact hun b' ⟨hd', heq.symm⟩

/-- **Any step** keeps the invariant and has one of the effects. -/
theorem Inv.step (h : Inv s q) {e : Event τ} (he : e.Fine) (hst : step s e = some s')
    (hp : s'.panicked = false) :
    ∃ q', Inv s' q' ∧ Effect s s' q (arrived s e) (taken s e) (ops s e) q' := by
  have hok := panicked_of_step hst
  unfold Ide.step at hst
  rw [if_neg (by rw [hok]; nofun)] at hst
  -- the owner of a buffer changes its contents
  have hput : ∀ {t b} (x : Content), s.Uses t b → x.dev = (s.buf b).dev →
      x.blockno = (s.buf b).blockno →
      Inv (s.setContent b x) q ∧ Effect s (s.setContent b x) q [] [] [.put b x] q :=
    fun x hu h₁ h₂ => ⟨h.setContent hu h₁ h₂,
      .put _ x (h.not_mem_of_free (h.free_of_uses hu)) (mem_setContent x)⟩
  cases e with
  | recycle t b blockno =>
    obtain ⟨⟨ht, ho, hd, hun⟩, hs⟩ := Option.ite_none_right_eq_some.mp hst
    cases hs
    refine ⟨q, h.recycle ho hun _, .put b _ (h.not_mem_of_free (h.free_of_none ho)) ?_⟩
    rw [← mem_setContent]
    rfl
  | lock t b =>
    obtain ⟨⟨ht, ho, hd⟩, hs⟩ := Option.ite_none_right_eq_some.mp hst
    cases hs
    exact ⟨q, h.setOwner (h.free_of_none ho) fun _ => hd, .stay rfl⟩
  | unlock t b =>
    obtain ⟨hu, hs⟩ := Option.ite_none_right_eq_some.mp hst
    cases hs
    exact ⟨q, h.setOwner (h.free_of_uses hu) fun hne => absurd rfl hne, .stay rfl⟩
  | store t b data =>
    obtain ⟨hu, hs⟩ := Option.ite_none_right_eq_some.mp hst
    cases hs
    exact ⟨q, hput _ hu rfl rfl⟩
  | pin t b =>
    obtain ⟨hu, hs⟩ := Option.ite_none_right_eq_some.mp hst
    cases hs
    exact ⟨q, hput _ hu rfl rfl⟩
  | bread t b =>
    obtain ⟨hu, hs⟩ := Option.ite_none_right_eq_some.mp hst
    split at hs
    · cases hs
      exact ⟨q, h.iderw hu.1 hp, .stay mem_iderw⟩
    · cases hs
      exact ⟨q, h, .stay rfl⟩
  | bwrite t b =>
    obtain ⟨ht, hs⟩ := Option.ite_none_right_eq_some.mp hst
    split at hs
    · cases hs
      cases hp
    · next ho =>
      cases hs
      have hu : s.Uses t b := ⟨ht, not_not.mp ho⟩
      obtain ⟨hinv, hb⟩ := hput { (s.buf b).toContent with dirty := true } hu rfl rfl
      refine ⟨q, hinv.iderw ht hp, .put b _ (h.not_mem_of_free (h.free_of_uses hu)) ?_⟩
      rw [mem_iderw, mem_setContent]
  | iderw t b =>
    obtain ⟨ht, hs⟩ := Option.ite_none_right_eq_some.mp hst
    cases hs
    exact ⟨q, h.iderw ht hp, .stay mem_iderw⟩
  | enter t =>
    cases ht : s.thread t with
    | want b =>
      simp only [ht] at hst
      obtain ⟨hown, hsync, hq⟩ := h.want t b ht
      obtain ⟨hinv, hbuf, hdisk, -⟩ := h.enter hok ht hst hp
      refine ⟨q ++ [b], hinv, ?_⟩
      simp only [arrived, ops, ht]
      exact .queue b hq hsync (h.root t b hown) (mem_congr hbuf hdisk)
    | out | asleep | woken => simp only [ht] at hst; cases hst
  | wake t =>
    cases ht : s.thread t with
    | woken b =>
      simp only [ht] at hst
      cases hst
      exact ⟨q, h.waitLoop ht, .stay mem_waitLoop⟩
    | out | asleep | want => simp only [ht] at hst; cases hst
  | kill t =>
    cases ht : s.thread t with
    | asleep b =>
      simp only [ht] at hst
      cases hst
      exact ⟨q, h.kill ht, .stay rfl⟩
    | out | woken | want =>
      simp only [ht] at hst
      cases hst
      exact ⟨q, h, .stay rfl⟩
  | finish =>
    obtain ⟨c, hc, rfl⟩ := Option.map_eq_some_iff.mp hst
    exact ⟨q, h.finish hc, effect_finish h hc⟩
  | fail blk => exact he.elim
  | intr =>
    obtain ⟨hirq, hs⟩ := Option.ite_none_right_eq_some.mp hst
    obtain ⟨b, l, rfl, hfirst, hinv, hdone, hbuf, hdisk, -⟩ := h.ideintr hirq hs hp
    refine ⟨l, hinv, ?_⟩
    simp only [taken, hfirst, Option.toList_some]
    exact .serve b l rfl (iderw_of_serve h hdone hbuf hdisk)

end Step

/-! ### Whole runs -/

section Run

variable {s s' : State τ} {q : List BufId} {t : τ} {b : BufId}

/-- The process is in a call of `iderw` for the buffer. -/
def InCall (s : State τ) (t : τ) (b : BufId) : Prop := s.thread t = .want b ∨ Waits s t b

omit [DecidableEq τ] in
theorem InCall.ne_out (h : InCall s t b) : s.thread t ≠ .out := by
  intro hout
  obtain h | h | h := h <;> rw [hout] at h <;> cases h

theorem thread_iderw {t' : τ} (ht : s.thread t' = .out) (hne : s.thread t ≠ .out) :
    (s.iderw t' b).thread t = s.thread t := by
  have htt : t ≠ t' := by rintro rfl; exact hne ht
  unfold State.iderw
  split
  · rfl
  split
  · rfl
  split
  · rfl
  · exact setThread_of_ne _ htt

/-- A process gets out of `iderw` by a round of its loop only. -/
theorem Inv.thread_of_step (h : Inv s q) {e : Event τ} (he : e ≠ .wake t)
    (hst : Ide.step s e = some s') (hp : s'.panicked = false) (hne : s.thread t ≠ .out) :
    s'.thread t ≠ .out := by
  have hok := panicked_of_step hst
  unfold Ide.step at hst
  rw [if_neg (by rw [hok]; nofun)] at hst
  cases e with
  | recycle | lock | unlock | store | pin =>
    obtain ⟨-, hs⟩ := Option.ite_none_right_eq_some.mp hst
    cases hs
    exact hne
  | bread t' b =>
    obtain ⟨hu, hs⟩ := Option.ite_none_right_eq_some.mp hst
    split at hs <;> cases hs
    · rw [thread_iderw hu.1 hne]
      exact hne
    · exact hne
  | bwrite t' b =>
    obtain ⟨ht, hs⟩ := Option.ite_none_right_eq_some.mp hst
    split at hs <;> cases hs
    · exact hne
    · exact (thread_iderw (s := s.setContent b _) ht hne).trans_ne hne
  | iderw t' b =>
    obtain ⟨ht, hs⟩ := Option.ite_none_right_eq_some.mp hst
    cases hs
    rw [thread_iderw ht hne]
    exact hne
  | enter t' =>
    cases ht : s.thread t' with
    | want b =>
      simp only [ht] at hst
      obtain ⟨-, -, -, hth⟩ := h.enter hok ht hst hp
      rw [hth]
      by_cases htt : t = t'
      · subst htt
        rw [Function.update_self]
        nofun
      · rw [Function.update_of_ne htt]
        exact hne
    | out | asleep | woken => simp only [ht] at hst; cases hst
  | wake t' =>
    have htt : t ≠ t' := by rintro rfl; exact he rfl
    cases ht : s.thread t' with
    | woken b =>
      simp only [ht] at hst
      cases hst
      unfold State.waitLoop
      split <;> rw [setThread_of_ne _ htt] <;> exact hne
    | out | asleep | want => simp only [ht] at hst; cases hst
  | kill t' =>
    cases ht : s.thread t' with
    | asleep b =>
      simp only [ht] at hst
      cases hst
      by_cases htt : t = t'
      · subst htt
        rw [setThread_self]
        nofun
      · rw [setThread_of_ne _ htt]
        exact hne
    | out | woken | want =>
      simp only [ht] at hst
      cases hst
      exact hne
  | finish | fail =>
    obtain ⟨c, hc, rfl⟩ := Option.map_eq_some_iff.mp hst
    exact hne
  | intr =>
    obtain ⟨hirq, hs⟩ := Option.ite_none_right_eq_some.mp hst
    obtain ⟨b, l, -, -, -, -, -, -, hth⟩ := h.ideintr hirq hs hp
    rw [hth]
    change (s.thread t).wake b ≠ .out
    unfold Phase.wake
    split
    · nofun
    · exact hne

/-- **A call returns** with its buffer served and in agreement with the disk. -/
theorem Inv.returns (h : Inv s q) {e : Event τ} (hst : Ide.step s e = some s')
    (hp : s'.panicked = false) (hin : InCall s t b) (hout : s'.thread t = .out) :
    b ∉ q ∧ (s'.buf b).Synced ∧ (s'.buf b).dev = ROOTDEV ∧
      s'.device.disk 1 (s'.buf b).blockno = (s'.buf b).data := by
  have he : e = .wake t := by
    by_contra he
    exact h.thread_of_step he hst hp hin.ne_out hout
  subst he
  have hok := panicked_of_step hst
  unfold Ide.step at hst
  rw [if_neg (by rw [hok]; nofun)] at hst
  obtain ht | ht | ht := hin
  · simp only [ht] at hst
    cases hst
  · simp only [ht] at hst
    cases hst
  · simp only [ht] at hst
    cases hst
    unfold State.waitLoop at hout ⊢
    split at hout
    · next hsync =>
      have hq : b ∉ q := fun hb => (h.queued b hb).1 hsync
      rw [if_pos hsync]
      obtain ⟨hs, hdata⟩ := h.served t b ht hq
      exact ⟨hq, hs, h.root t b (h.waits t b (.inr ht)), hdata⟩
    · rw [setThread_self] at hout
      cases hout

/-- The blocks of all buffers exist. -/
def InRange (s : State τ) : Prop := ∀ b, (s.buf b).blockno < FSSIZE

/-- A step that asks for no block beyond the end of the disk. -/
def Event.InRange : Event τ → Prop
  | .recycle _ _ blockno => blockno < FSSIZE
  | _ => True

omit [DecidableEq τ] in
theorem Mem.iderw_blockno {m m' : Mem} (h : m.iderw b = some m') (b' : BufId) :
    (m'.buf b').blockno = (m.buf b').blockno := by
  by_cases hb : b' = b
  · subst hb
    unfold Mem.iderw at h
    dsimp only at h
    split at h
    · cases h
    split at h
    · cases h
    split at h
    · cases h
    split at h <;> cases h <;> simp
  · rw [Mem.iderw_buf_of_ne h hb]

omit [DecidableEq τ] in
theorem InRange.step (hs : InRange s) {e : Event τ} {a l q' : List BufId}
    (heff : Effect s s' q a l (ops s e) q') (he : e.InRange) : InRange s' := by
  have hmem : ∀ u : State τ, InRange u ↔ ∀ b, ((mem u).buf b).blockno < FSSIZE := fun u => Iff.rfl
  generalize ho : ops s e = o at heff
  rw [hmem] at hs ⊢
  cases heff with
  | stay hm => rw [hm]; exact hs
  | put b x hb hm =>
    have hx : x.blockno < FSSIZE := by
      cases e with
      | recycle t b' blockno => cases ho; exact he
      | store t b' data | pin t b' | bwrite t b' => cases ho; exact hs _
      | enter t => simp only [ops] at ho; split at ho <;> cases ho
      | _ => cases ho
    rw [hm]
    intro b'
    by_cases hne : b' = b
    · subst hne
      simpa [Mem.put] using hx
    · simpa [Mem.put, hne] using hs b'
  | queue b hb hs' hdev hm => rw [hm]; exact hs
  | write b l' hq hd hm => rw [hm]; exact hs
  | serve b l' hq hm =>
    intro b'
    rw [Mem.iderw_blockno hm]
    exact hs b'

omit [DecidableEq τ] in
/-- **The memory disk keeps up**: it is ahead of the real one by the requests in the queue. -/
theorem Effect.simulates {a l q' : List BufId} {o : List Op} (h : Effect s s' q a l o q')
    (hr : InRange s) {m : Mem} (hm : (mem s).iderws q = some m) :
    ∃ m', o.foldlM Op.run m = some m' ∧ (mem s').iderws q' = some m' := by
  cases h with
  | stay hs => exact ⟨m, rfl, by rw [hs]; exact hm⟩
  | put b x hb hs => exact ⟨m.put b x, rfl, by rw [hs]; exact Mem.iderws_put hm hb x⟩
  | queue b hb hsync hdev hs =>
    have hbuf := Mem.iderws_buf_of_not_mem hm hb
    obtain ⟨m', hm'⟩ := @Mem.exists_iderw m b (hbuf ▸ hsync) (hbuf ▸ hdev) (hbuf ▸ hr b)
    refine ⟨m', ?_, ?_⟩
    · change (m.iderw b).bind some = _
      rw [hm']
      rfl
    · rw [hs, Mem.iderws_concat, hm, Option.bind_some, hm']
  | write b l hq hd hs =>
    refine ⟨m, rfl, ?_⟩
    subst hq
    rw [Mem.iderws_cons] at hm ⊢
    -- the request writes the block once more
    have hsame : (mem s').iderw b = (mem s).iderw b := by
      rw [hs]
      simp only [Mem.iderw, hd, if_true, Function.update_idem]
    rw [hsame]
    exact hm
  | serve b l hq hs =>
    refine ⟨m, rfl, ?_⟩
    subst hq
    rwa [Mem.iderws_cons, hs, Option.bind_some] at hm

omit [DecidableEq τ] in
/-- The queue changes at its ends. -/
theorem Effect.queue_eq {a l q' : List BufId} {o : List Op} (h : Effect s s' q a l o q') :
    q ++ a = l ++ q' := by
  cases h with
  | stay | put | write => exact List.append_nil q
  | queue => rfl
  | serve b l hq =>
    rw [hq, List.append_nil]
    rfl

variable {disk : ℕ → Disk} {havedisk1 : Bool} {es : List (Event τ)}

/-- **Runs without disk errors.** -/
theorem inv_of_run (hr : run step (init disk havedisk1) es = some s) (hf : ∀ e ∈ es, e.Fine)
    (hp : s.panicked = false) :
    ∃ q, Inv s q ∧
      record step arrived (init disk havedisk1) es =
        record step taken (init disk havedisk1) es ++ q ∧
      ((∀ e ∈ es, e.InRange) → InRange s ∧
        ∃ m, (record step ops (init disk havedisk1) es).foldlM Op.run
        (mem (init disk havedisk1 : State τ)) =
          some m ∧ (mem s).iderws q = some m) := by
  induction es using List.reverseRecOn generalizing s with
  | nil =>
    cases hr
    exact ⟨[], .init disk havedisk1, rfl, fun _ => ⟨fun _ => Nat.zero_lt_succ _, _, rfl, rfl⟩⟩
  | append_singleton es e ih =>
    obtain ⟨u, hru, hlast⟩ := (run_append_eq_some _).mp hr
    obtain ⟨s, hst, hnil⟩ := (run_cons_eq_some _).mp hlast
    cases hnil
    obtain ⟨q, hinv, hqueue, hmem⟩ := ih hru (fun e he => hf e (List.mem_append_left _ he))
      (panicked_of_step hst)
    have hmem_e : e ∈ es ++ [e] := List.mem_append_right _ (List.mem_singleton_self e)
    obtain ⟨q', hinv', heff⟩ := hinv.step (hf e hmem_e) hst hp
    rw [record_snoc step _ hru, record_snoc step _ hru, record_snoc step _ hru]
    refine ⟨q', hinv', ?_, fun hrange => ?_⟩
    · rw [hqueue, List.append_assoc, heff.queue_eq, List.append_assoc]
    · obtain ⟨hin, m, hm, hq⟩ := hmem fun e he => hrange e (List.mem_append_left _ he)
      obtain ⟨m', hm', hq'⟩ := heff.simulates hin hq
      refine ⟨hin.step heff (hrange e hmem_e), m', ?_, hq'⟩
      rw [List.foldlM_append, hm]
      exact hm'

/-- **The queued driver refines the memory disk.** In every run without disk errors there is a queue
`q` of different buffers, linked from `idequeue` on, such that the buffers queued so far are those
served so far followed by `q`, in this order; the disk works for the first of `q`; and the memory
disk that executes the requests in the order in which they were queued gets to the state of the real
disk and its buffers once `q` has been served, which is the present one if the queue is empty. A
call of `iderw` returns only when every request for its buffer has been served, with the buffer
valid and not dirty. -/
theorem refines_memide (hr : run step (init disk havedisk1) es = some s) (hf : ∀ e ∈ es, e.Fine)
    (hrange : ∀ e ∈ es, e.InRange) (hp : s.panicked = false) :
    ∃ q, Chain (qnext s) some none s.idequeue q ∧ q.Nodup ∧
      record step arrived (init disk havedisk1) es =
        record step taken (init disk havedisk1) es ++ q ∧
      Working s q ∧
      (∃ m, (record step ops (init disk havedisk1) es).foldlM Op.run
          (mem (init disk havedisk1 : State τ)) = some m ∧ (mem s).iderws q = some m) ∧
      (s.idequeue = none → (record step ops (init disk havedisk1) es).foldlM Op.run
          (mem (init disk havedisk1 : State τ)) = some (mem s)) ∧
      ∀ e s' t b, step s e = some s' → s'.panicked = false → InCall s t b → s'.thread t = .out →
        (s'.buf b).valid = true ∧ (s'.buf b).dirty = false ∧ b ∉ q ∧
          (record step arrived (init disk havedisk1) es).count b =
            (record step taken (init disk havedisk1) es).count b := by
  obtain ⟨q, hinv, hqueue, hmem⟩ := inv_of_run hr hf hp
  obtain ⟨-, m, hm, hq⟩ := hmem hrange
  refine ⟨q, hinv.chain, hinv.nodup, hqueue, hinv.working, ⟨m, hm, hq⟩, fun hnone => ?_,
    fun e s' t b hst hp' hin hout => ?_⟩
  · have hnil : q = [] := by
      have hchain := hinv.chain
      rw [hnone] at hchain
      cases q with
      | nil => rfl
      | cons a l => exact absurd hchain.1 nofun
    subst hnil
    rw [hm]
    exact hq.symm
  · obtain ⟨hb, hsync, -⟩ := hinv.returns hst hp' hin hout
    refine ⟨hsync.1, hsync.2, hb, ?_⟩
    rw [hqueue, List.count_append, List.count_eq_zero_of_not_mem hb, Nat.add_zero]

/-- Two processes: one writes a block, the other reads one while the disk is busy with the first. -/
def twoRequests : List (Event (Fin 2)) :=
  [.recycle 0 0 3, .store 0 0 (Bytes.set (Bytes.zero BSIZE) 0 7), .recycle 1 1 5, .bwrite 0 0,
    .bread 1 1, .enter 0, .enter 1, .finish, .intr, .wake 0, .finish, .kill 1, .intr, .wake 1]

/-- Both requests are served, and the memory disk gets to the same state. -/
theorem refines_memide_two :
    ∃ s : State (Fin 2), run step (init (fun _ _ => Bytes.zero BSIZE) true) twoRequests = some s ∧
      record step arrived (init (fun _ _ => Bytes.zero BSIZE) true) twoRequests = [0, 1] ∧
      (record step ops (init (fun _ _ => Bytes.zero BSIZE) true) twoRequests).foldlM Op.run
        (mem (init (fun _ _ => Bytes.zero BSIZE) true : State (Fin 2))) = some (mem s) := by
  obtain ⟨s, hs, hp, hq⟩ := exists_of_any step (init (fun _ _ => Bytes.zero BSIZE) true) twoRequests
    (fun s => s.panicked = false ∧ s.idequeue = none) (by decide +kernel)
  obtain ⟨q, -, -, -, -, -, hmem, -⟩ := refines_memide hs
    (by simp [twoRequests, Event.Fine]) (by simp [twoRequests, Event.InRange, FSSIZE]) hp
  exact ⟨s, hs, by decide +kernel, hmem hq⟩

/-! ### Errors -/

/-- **`B_VALID` means what it says** as long as the disk reports no error: when `bread` returns from
the disk, and when `bwrite` returns, the buffer is valid, not dirty, and holds what its block on the
disk holds. -/
theorem valid_means_valid (hr : run step (init disk havedisk1) es = some s) (hf : ∀ e ∈ es, e.Fine)
    {e : Event τ} (hst : step s e = some s') (hp : s'.panicked = false) (hin : InCall s t b)
    (hout : s'.thread t = .out) :
    (s'.buf b).valid = true ∧ (s'.buf b).dirty = false ∧
      (s'.buf b).data = s'.device.disk ((s'.buf b).dev % 2) (s'.buf b).blockno := by
  obtain ⟨q, hinv, -⟩ := inv_of_run hr hf (panicked_of_step hst)
  obtain ⟨-, hsync, hdev, hdata⟩ := hinv.returns hst hp hin hout
  rw [hdev]
  exact ⟨hsync.1, hsync.2, hdata.symm⟩

/-- A disk with a `1` at the start of every block. -/
def oneDisk : ℕ → Disk := fun _ _ => Bytes.set (Bytes.zero BSIZE) 0 1

/-- A process reads block `2`, up to the last step of `iderw`. -/
def readTwo (done : Event Unit) : List (Event Unit) :=
  [.recycle () 0 2, .bread () 0, .enter (), done, .intr]

/-- A read that the disk executes brings the block. -/
theorem valid_means_valid_read :
    ∃ s s' : State Unit, run step (init oneDisk true) (readTwo .finish) = some s ∧
      step s (.wake ()) = some s' ∧
      (s'.buf 0).data = s'.device.disk ((s'.buf 0).dev % 2) (s'.buf 0).blockno := by
  obtain ⟨s', hrun, hp, hout⟩ := exists_of_any step (init oneDisk true)
    (readTwo .finish ++ [Event.wake ()])
    (fun s => s.panicked = false ∧ s.thread () = .out) (by decide +kernel)
  obtain ⟨s, hs, hlast⟩ := (run_append_eq_some _).mp hrun
  obtain ⟨s', hst, hnil⟩ := (run_cons_eq_some _).mp hlast
  cases hnil
  have hwoken : s.thread () = .woken 0 := by
    obtain ⟨u, hu, hw⟩ := exists_of_any step (init oneDisk true) (readTwo .finish)
      (fun s => s.thread () = .woken 0) (by decide +kernel)
    rw [hs] at hu
    cases hu
    exact hw
  refine ⟨s, s', hs, hst, (valid_means_valid hs ?_ hst hp (.inr (.inr hwoken)) hout).2.2⟩
  simp [readTwo, Event.Fine]

/-- **Errors are lost.** A read that ends in an error leaves the buffer as it was, and a write that
ends in one leaves the disk as it was; in both cases the call returns with the buffer valid and not
dirty. -/
theorem exists_valid_stale :
    (∃ s' : State Unit,
      run step (init oneDisk true) (readTwo (.fail (Bytes.zero BSIZE)) ++ [Event.wake ()]) =
        some s' ∧
      s'.panicked = false ∧ s'.thread () = .out ∧
      (s'.buf 0).valid = true ∧ (s'.buf 0).dirty = false ∧
      (s'.buf 0).data ≠ s'.device.disk ((s'.buf 0).dev % 2) (s'.buf 0).blockno) ∧
    ∃ s' : State Unit,
      run step (init oneDisk true) (readTwo .finish ++ ([.wake (), .store () 0 (Bytes.zero BSIZE),
        .bwrite () 0, .enter (), .fail (oneDisk 1 2), .intr, .wake ()] : List (Event Unit))) =
        some s' ∧
      s'.panicked = false ∧ s'.thread () = .out ∧
      (s'.buf 0).valid = true ∧ (s'.buf 0).dirty = false ∧
      (s'.buf 0).data ≠ s'.device.disk ((s'.buf 0).dev % 2) (s'.buf 0).blockno :=
  ⟨exists_of_any step _ _ _ (by decide +kernel), exists_of_any step _ _ _ (by decide +kernel)⟩

end Run

end Ide

end Xv6
