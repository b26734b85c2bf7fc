import Xv6.Pipe.Machine

/-!
# Sleepers of a pipe

A reader sleeps on `&p->nread` while the pipe is empty, a writer on `&p->nwrite` while it is full.
`piperead` and `pipeclose` wake the writers before they let go of the lock, so no writer is left
asleep that could go on. `pipewrite` wakes the readers when it is done and before it sleeps, but not
when it gives up because it has been killed or because the read end is closed: the bytes it has
stored by then are in the pipe and the readers sleep on.

Each invariant says what holds at the point of the thread that has the lock, and what holds when
nobody has it.

## Main definitions

* `Pipe.ReaderMaySleep`, `Pipe.WriterMaySleep` — when a sleeper has a reason to sleep
* `Pipe.Undisturbed` — nobody is killed in `pipewrite`, and the read end is not closed under a
  reader

## Main results

* `Pipe.no_stuck_end` — no writer is stuck; no reader is stuck in an undisturbed run
* `Pipe.exists_stuck_reader` — a run that leaves a reader asleep at a full pipe
-/

namespace Xv6

namespace Pipe

open Transition Monitor

variable {τ : Type*}

/-- A reader has to wait. -/
def ReaderMaySleep (p : Pipe) : Prop := p.Empty ∧ p.writeopen = true

/-- A writer has to wait. -/
def WriterMaySleep (p : Pipe) : Prop := p.Full ∧ p.readopen = true

/-! ### Writers -/

/-- What holds of the sleepers on `&p->nwrite` while a thread with the lock is at a point, or nobody
has the lock. -/
def WritersAt (p : Pipe) (A : Set Chan) : Option Point → Prop
  -- the sleepers are about to be woken
  | some (.readCopy _ _) | some (.closeWake false) => True
  | some (.writeFull _ _) | some (.writeSleep _ _) => p.WriterMaySleep
  | _ => .nwrite ∈ A → p.WriterMaySleep

theorem Next.writersAt {killed : Bool} {p : Pipe} {k : Point} {m : Move Pipe Point Chan Result}
    (h : Next killed p k m) {A : Set Chan} (hA : WritersAt p A (some k)) :
    WritersAt (m.data p) (m.sleepers A) m.point := by
  cases h with
  | writeFull addr i hf ho hk => exact ⟨hf, ho⟩
  | put addr i b hb hf => exact fun h => absurd (hA h).1 hf
  | writeWake addr i => exact hA
  | writeSleep addr i => exact fun _ => hA
  | writeDone addr i hi => exact fun h => hA h.1
  | readSleep n => exact fun h => hA (h.resolve_left (by decide))
  | readStart | take | closeRead => trivial
  | readDone n got h => exact fun h => absurd rfl h.2
  | closeWake w =>
    cases w with
    | true => exact fun h => hA h.1
    | false => exact fun h => absurd rfl h.2
  | _ => exact hA

theorem WritersAt.mono {p : Pipe} {A B : Set Chan} {k : Option Point} (h : WritersAt p A k)
    (hAB : B ⊆ A) : WritersAt p B k := by
  unfold WritersAt at h ⊢
  split <;> simp_all
  exact fun hB => h (hAB hB)

theorem Starts.writersAt {p : Pipe} {A : Set Chan} {k : Point} (h : WritersAt p A none)
    (hk : Starts k) : WritersAt p A (some k) := by
  cases hk <;> exact h

/-! ### Readers -/

/-- What holds of the sleepers on `&p->nread`. -/
def ReadersAt (p : Pipe) (A : Set Chan) : Option Point → Prop
  -- the sleepers are about to be woken, unless `pipewrite` gives up
  | some (.write _ _) | some (.writeFull _ _) | some (.closeWake true) => True
  | some (.readSleep _) => p.ReaderMaySleep
  | _ => .nread ∈ A → p.ReaderMaySleep

theorem Next.readersAt {killed : Bool} {p : Pipe} {k : Point} {m : Move Pipe Point Chan Result}
    (h : Next killed p k m) {A : Set Chan} (hA : ReadersAt p A (some k))
    (hw : ∀ addr i, k = .write addr i → killed = false ∧ (p.readopen = false → .nread ∉ A)) :
    ReadersAt (m.data p) (m.sleepers A) m.point := by
  cases h with
  | writeFails addr i hf h =>
    obtain ⟨hk, ho⟩ := hw addr i rfl
    obtain h | h := h
    · exact fun hA => absurd hA (ho h)
    · exact absurd (hk.symm.trans h) (by decide)
  | writeFull | put | closeWrite => trivial
  | writeDone addr i hi => exact fun h => absurd rfl h.2
  | writeWake addr i => exact fun h => absurd rfl h.2
  | writeSleep addr i => exact fun h => hA (h.resolve_left (by decide))
  | readWaits n he ho hk => exact ⟨he, ho⟩
  | readSleep n => exact fun _ => hA
  | take n got hn he => exact fun h => absurd (hA h).1 he
  | readDone n got h => exact fun h => hA h.1
  | closeWake w =>
    cases w with
    | true => exact fun h => absurd rfl h.2
    | false => exact fun h => hA h.1
  | _ => exact hA

theorem ReadersAt.mono {p : Pipe} {A B : Set Chan} {k : Option Point} (h : ReadersAt p A k)
    (hAB : B ⊆ A) : ReadersAt p B k := by
  unfold ReadersAt at h ⊢
  split <;> simp_all
  exact fun hB => h (hAB hB)

theorem Starts.readersAt {p : Pipe} {A : Set Chan} {k : Point} (h : ReadersAt p A none)
    (hk : Starts k) : ReadersAt p A (some k) := by
  cases hk with
  | write => trivial
  | _ => exact h

/-! ### Steps -/

/-- An invariant of the point of the thread that has the lock, the data and the sleepers is kept if
the moves keep it. -/
theorem keeps_of_next [DecidableEq τ] {P : Pipe → Set Chan → Option Point → Prop}
    (hmono : ∀ {p A B k}, P p A k → B ⊆ A → P p B k)
    (henter : ∀ {p A k}, P p A none → Starts k → P p A (some k))
    {s s' : PipeState τ} {e : Event τ Point} (hs : Wf s)
    (hP : P s.data (sleepers s.thread) s.point)
    (hmove : ∀ t k m, e = .move t → s.thread t = .inside k → Next (s.marked t) s.data k m →
      P s.data (sleepers s.thread) (some k) →
      P (m.data s.data) (m.sleepers (sleepers s.thread)) m.point)
    (h : step code s e = some s') : P s'.data (sleepers s'.thread) s'.point := by
  have hv := View.of_step hs.exclusive h
  generalize s'.point = k', s'.data = p', sleepers s'.thread = A at hv ⊢
  cases hv with
  | quiet e A he hA => exact hmono hP hA
  | enter t k ht hp =>
    rw [hp] at hP
    exact henter hP (hs.starts ht)
  | move t k m ht hp hm =>
    rw [hp] at hP
    refine hmove t k m rfl ht ?_ hP
    rw [hm]
    exact Next.of_next ..

/-- A thread is in `pipewrite`. -/
def InWrite : Monitor.Thread Point Chan Result → Prop
  | .want k | .inside k | .asleep _ k =>
    match k with
    | .write _ _ | .writeFull _ _ | .writeSleep _ _ | .writeEnd _ => True
    | _ => False
  | .out _ => False

/-- A thread is in `piperead`. -/
def InRead : Monitor.Thread Point Chan Result → Prop
  | .want k | .inside k | .asleep _ k =>
    match k with
    | .read _ | .readSleep _ | .readCopy _ _ | .readEnd _ => True
    | _ => False
  | .out _ => False

/-- No process is killed while it is in `pipewrite` or calls it when it has been killed. The read
end is not closed while a process is in `piperead`, which is not called when it is closed: that is
what the references to the open file are for. -/
def Undisturbed (s : PipeState τ) : Event τ Point → Prop
  | .mark t => ¬ InWrite (s.thread t)
  | .call t (.write _ _) => s.marked t = false
  | .call _ (.read _) => s.data.readopen = true
  | .move t => s.thread t = .inside (.close false) → ∀ u, ¬ InRead (s.thread u)
  | _ => True

theorem local_inWrite {s : PipeState τ} {e : Event τ Point} (hok : Undisturbed s e) :
    Local code s e fun killed th => InWrite th → killed = false where
  call {t k} he hk hw := by
    subst he
    cases k with
    | write addr i => exact hok
    | writeFull | writeSleep | writeEnd => cases hk
    | _ => exact hw.elim
  enter h := h
  go {m k p k' p'} h hm hw := by
    have hn := Next.of_next m k p
    rw [show next m k p = _ from hm] at hn
    cases hn with
    | writeFull | put => exact h trivial
    | _ => exact hw.elim
  wakeup {m k p c k'} h hm hw := by
    have hn := Next.of_next m k p
    rw [show next m k p = _ from hm] at hn
    cases hn with
    | writeDone | writeWake => exact h trivial
    | _ => exact hw.elim
  wait {m k p c k'} h hm hw := by
    have hn := Next.of_next m k p
    rw [show next m k p = _ from hm] at hn
    cases hn with
    | writeSleep => exact h trivial
    | readSleep => exact hw.elim
  out := False.elim
  woken h := h
  mark {t} he _ hw := by
    subst he
    refine absurd ?_ hok
    cases hth : s.thread t <;> rw [hth] at hw <;> exact hw

theorem local_inRead {s : PipeState τ} {e : Event τ Point} (hok : Undisturbed s e)
    (hclosed : s.data.readopen = true → ∀ t n, e ≠ .call t (.read n)) :
    Local code s e fun _ th => ¬ InRead th where
  call {t k} he hk hr := by
    subst he
    cases k with
    | read n => exact hclosed hok t n rfl
    | readSleep | readCopy | readEnd => cases hk
    | _ => exact hr.elim
  enter h := h
  go {m k p k' p'} h hm hr := by
    have hn := Next.of_next m k p
    rw [show next m k p = _ from hm] at hn
    cases hn with
    | readWaits | readStart | take => exact h trivial
    | _ => exact hr.elim
  wakeup {m k p c k'} h hm hr := by
    have hn := Next.of_next m k p
    rw [show next m k p = _ from hm] at hn
    cases hn with
    | readDone => exact h trivial
    | _ => exact hr.elim
  wait {m k p c k'} h hm hr := by
    have hn := Next.of_next m k p
    rw [show next m k p = _ from hm] at hn
    cases hn with
    | readSleep => exact h trivial
    | writeSleep => exact hr.elim
  out := id
  woken h := h
  mark {t} _ h hr := by
    refine h ?_
    cases hth : s.thread t <;> rw [hth] at hr <;> exact hr

theorem Next.readopen {killed : Bool} {p : Pipe} {k : Point} {m : Move Pipe Point Chan Result}
    (h : Next killed p k m) : (m.data p).readopen = p.readopen ∨ k = .close false := by
  cases h with
  | closeRead => exact .inr rfl
  | _ => exact .inl rfl

theorem readopen_of_step [DecidableEq τ] {s s' : PipeState τ} {e : Event τ Point}
    (h : step code s e = some s') :
    s'.data.readopen = s.data.readopen ∨ ∃ t, e = .move t ∧
    s.thread t = .inside (.close false) := by
  cases Step.of_step h with
  | move t k ht =>
    rw [data_apply]
    obtain ho | rfl := (Next.of_next (s.marked t) k s.data).readopen
    · exact .inl ho
    · exact .inr ⟨t, rfl, ht⟩
  | _ => exact .inl rfl

/-- The invariant of undisturbed runs. -/
structure Calm (s : PipeState τ) : Prop where
  wf : Wf s
  readers : ReadersAt s.data (sleepers s.thread) s.point
  alive : ∀ t, InWrite (s.thread t) → s.marked t = false
  closed : s.data.readopen = false → ∀ t, ¬ InRead (s.thread t)

/-- Nobody sleeps in `piperead` when the read end is closed. -/
theorem Calm.nread_notMem {s : PipeState τ} (hs : Calm s) (ho : s.data.readopen = false) :
    .nread ∉ sleepers s.thread := by
  rintro ⟨t, k, ht⟩
  have hpk := hs.wf.parked t
  rw [ht] at hpk
  obtain ⟨n, rfl⟩ := hpk
  refine hs.closed ho t ?_
  rw [ht]
  trivial

theorem Calm.step [DecidableEq τ] {s s' : PipeState τ} {e : Event τ Point} (hs : Calm s)
    (hok : Undisturbed s e) (h : step code s e = some s') : Calm s' := by
  refine ⟨hs.wf.step h, ?_, (local_inWrite hok).step hs.alive h, fun ho => ?_⟩
  · refine keeps_of_next (P := ReadersAt) ReadersAt.mono Starts.readersAt hs.wf hs.readers ?_ h
    intro t k m _ ht hn hA
    refine hn.readersAt hA fun addr i hk => ⟨hs.alive t ?_, hs.nread_notMem⟩
    rw [ht, hk]
    trivial
  · obtain ho' | ⟨t, rfl, ht⟩ := readopen_of_step h
    · rw [ho'] at ho
      exact (local_inRead hok fun ho' => by simp [ho] at ho').step (hs.closed ho) h
    · exact (local_inRead hok fun _ _ _ => nofun).step (hok ht) h

/-! ### Runs -/

/-- Nobody sleeps on `&p->nread` who could read on. -/
def NoStuckReader (s : PipeState τ) : Prop :=
  ∀ t k, s.thread t = .asleep .nread k → s.data.Empty ∧ s.data.writeopen = true

/-- Nobody sleeps on `&p->nwrite` who could write on. -/
def NoStuckWriter (s : PipeState τ) : Prop :=
  ∀ t k, s.thread t = .asleep .nwrite k → s.data.Full ∧ s.data.readopen = true

theorem calm_init (data : Bytes PIPESIZE) : Calm (init (new data) : PipeState τ) :=
  ⟨wf_init _, fun ⟨_, _, h⟩ => (nomatch h), fun _ => False.elim, fun ho => by cases ho⟩

/-- **No stuck pipe end.** With the lock free, no writer sleeps in a pipe with room or without
readers, in any run. No reader sleeps in a pipe with bytes or without writers, in any run in which
nobody is killed in `pipewrite` and the read end is not closed under a reader. -/
theorem no_stuck_end [DecidableEq τ] (data : Bytes PIPESIZE) (s : PipeState τ) :
    (Reach (step code) (fun _ _ => True) (init (new data)) s → s.lock = none → NoStuckWriter s) ∧
    (Reach (step code) Undisturbed (init (new data)) s → s.lock = none →
      NoStuckReader s ∧ NoStuckWriter s) := by
  have hpoint : s.lock = none → s.point = none := fun hl => by rw [State.point, hl]; rfl
  have hwriter : Reach (step code) (fun _ _ => True) (init (new data)) s → s.lock = none →
      NoStuckWriter s := by
    intro hr hl t k ht
    have hinv : Wf s ∧ WritersAt s.data (sleepers s.thread) s.point :=
      hr.induct (P := fun s => Wf s ∧ WritersAt s.data (sleepers s.thread) s.point)
        ⟨wf_init _, by rintro ⟨_, _, h⟩; cases h⟩
        fun s e s' ih _ hst =>
        ⟨ih.1.step hst, keeps_of_next (P := WritersAt) WritersAt.mono Starts.writersAt ih.1
          ih.2 (fun _ _ _ _ _ hn hA => hn.writersAt hA) hst⟩
    have hw := hinv.2
    rw [hpoint hl] at hw
    exact hw ⟨t, k, ht⟩
  refine ⟨hwriter, fun hr hl => ⟨fun t k ht => ?_, hwriter (hr.mono fun _ _ _ => trivial) hl⟩⟩
  have hcalm : Calm s := hr.induct (P := Calm) (calm_init data)
    fun _ _ _ ih hok hst => ih.step hok hst
  have hw := hcalm.readers
  rw [hpoint hl] at hw
  exact hw ⟨t, k, ht⟩

/-- A reader falls asleep at an empty pipe. Then a process writes `513` bytes and is killed when it
has stored `512` of them. -/
def killedWriter : List (Event Bool Point) :=
  ([.call false (.read 1), .enter false, .move false, .move false,
    .call true (.write (List.replicate 513 0) 0), .enter true] : List (Event Bool Point)) ++
    List.replicate 512 (Event.move true) ++ [Event.mark true, Event.move true]

/-- The pipe is full, the lock is free and a reader sleeps. -/
theorem exists_stuck_reader :
    ∃ s : PipeState Bool,
      run (step code) (init (new (Bytes.zero _))) killedWriter = some s ∧
        s.lock = none ∧ s.thread false = .asleep .nread (.read 1) ∧
        s.thread true = .out (some .failed) ∧ ¬ s.data.Empty ∧ s.data.Full :=
  exists_of_any (step code) _ killedWriter _ (by decide +kernel)

end Pipe

end Xv6
