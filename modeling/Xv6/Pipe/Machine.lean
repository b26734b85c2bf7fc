import Xv6.Lib.Bytes
import Xv6.Lib.Monitor

/-!
# Pipes

`pipewrite`, `piperead` and `pipeclose` as the code of a monitor whose lock is `p->lock`. The
channels are the addresses of the two counters. One round of a loop is one move, and so is each call
of `wakeup` and of `sleep`; what a test of `myproc()->killed` reads is the mark of the thread.

A call of `pipewrite` brings the bytes `addr[0], …, addr[n - 1]` with it, and a call of `piperead`
returns the bytes it has stored at `addr`. A pipe that `pipeclose` has freed can no longer be
called. -/

namespace Xv6

/-- Size of the buffer of a pipe. -/
abbrev PIPESIZE : Nat := 512

/-- `struct pipe`, and whether `pipeclose` has given its page back. -/
structure Pipe where
  data : Bytes PIPESIZE
  nread : BitVec 32
  nwrite : BitVec 32
  readopen : Bool
  writeopen : Bool
  freed : Bool

namespace Pipe

/-- `&p->nread` and `&p->nwrite`. -/
inductive Chan
  | nread | nwrite
  deriving DecidableEq, Repr

/-- What the three functions return. -/
inductive Result
  /-- `pipewrite` has stored all `n` bytes. -/
  | wrote (n : ℕ)
  /-- `piperead` has stored these bytes at `addr`. -/
  | read (got : List UInt8)
  /-- The value `-1`. -/
  | failed
  /-- `pipeclose` returns nothing. -/
  | closed
  deriving DecidableEq, Repr

/-- The points of the three functions at which something is done. -/
inductive Point
  /-- `pipewrite`, at the test of the `for` or the `while` loop, with `i` bytes stored. -/
  | write (addr : List UInt8) (i : ℕ)
  /-- `pipewrite`, before the `wakeup` in the loop. -/
  | writeFull (addr : List UInt8) (i : ℕ)
  /-- `pipewrite`, before `sleep`. -/
  | writeSleep (addr : List UInt8) (i : ℕ)
  /-- `pipewrite`, before `release`. -/
  | writeEnd (n : ℕ)
  /-- `piperead`, at the test of the `while` loop. -/
  | read (n : ℕ)
  /-- `piperead`, before `sleep`. -/
  | readSleep (n : ℕ)
  /-- `piperead`, at the test of the `for` loop, with the bytes read so far. -/
  | readCopy (n : ℕ) (got : List UInt8)
  /-- `piperead`, before `release`. -/
  | readEnd (got : List UInt8)
  /-- `pipeclose`, before its first assignment. -/
  | close (writable : Bool)
  /-- `pipeclose`, before `wakeup`. -/
  | closeWake (writable : Bool)
  /-- `pipeclose`, before `release`. -/
  | closeEnd
  deriving DecidableEq, Repr

/-- The pipe holds `PIPESIZE` bytes. -/
def Full (p : Pipe) : Prop := p.nwrite = p.nread + BitVec.ofNat 32 PIPESIZE

/-- The pipe holds no bytes. -/
def Empty (p : Pipe) : Prop := p.nread = p.nwrite

instance (p : Pipe) : Decidable p.Full := inferInstanceAs (Decidable (_ = _))

instance (p : Pipe) : Decidable p.Empty := inferInstanceAs (Decidable (_ = _))

/-- `p->data[p->nwrite++ % PIPESIZE] = b`. -/
def put (p : Pipe) (b : UInt8) : Pipe :=
  { p with data := p.data.set (p.nwrite.toNat % PIPESIZE) b, nwrite := p.nwrite + 1#32 }

/-- The byte `p->data[p->nread % PIPESIZE]`. -/
def front (p : Pipe) : UInt8 := p.data.get (p.nread.toNat % PIPESIZE)

/-- What is done at each point. -/
def next (killed : Bool) (k : Point) (p : Pipe) : Monitor.Move Pipe Point Chan Result :=
  match k with
  | .write addr i =>
    match addr[i]? with
    | some b =>
      if p.Full then
        if p.readopen = false ∨ killed then .leave .failed p else .go (.writeFull addr i) p
      else .go (.write addr (i + 1)) (p.put b)
    | none => .wakeup .nread (.writeEnd addr.length)
  | .writeFull addr i => .wakeup .nread (.writeSleep addr i)
  | .writeSleep addr i => .wait .nwrite (.write addr i)
  | .writeEnd n => .leave (.wrote n) p
  | .read n =>
    if p.Empty ∧ p.writeopen then
      if killed then .leave .failed p else .go (.readSleep n) p
    else .go (.readCopy n []) p
  | .readSleep n => .wait .nread (.read n)
  | .readCopy n got =>
    if got.length < n ∧ ¬ p.Empty then
      .go (.readCopy n (got ++ [p.front])) { p with nread := p.nread + 1#32 }
    else .wakeup .nwrite (.readEnd got)
  | .readEnd got => .leave (.read got) p
  | .close writable =>
    .go (.closeWake writable)
      (if writable then { p with writeopen := false } else { p with readopen := false })
  | .closeWake writable => .wakeup (if writable then .nread else .nwrite) .closeEnd
  | .closeEnd =>
    .leave .closed { p with freed := p.freed || !p.readopen && !p.writeopen }

/-- The three functions. -/
def code : Monitor.Code Pipe Point Chan Result where
  entry k p :=
    match k with
    | .write _ 0 | .read _ | .close _ => !p.freed
    | _ => false
  next := next

/-- A pipe as `pipealloc` leaves it; the buffer is whatever was in the page. -/
def new (data : Bytes PIPESIZE) : Pipe :=
  { data := data, nread := 0, nwrite := 0, readopen := true, writeopen := true, freed := false }

/-! ### Inversion -/

/-- What can be done at each point, and when. -/
inductive Next (killed : Bool) (p : Pipe) : Point → Monitor.Move Pipe Point Chan Result → Prop
  | writeFails (addr i) (hf : p.Full) (h : p.readopen = false ∨ killed = true) :
      Next killed p (.write addr i) (.leave .failed p)
  | writeFull (addr i) (hf : p.Full) (ho : p.readopen = true) (hk : killed = false) :
      Next killed p (.write addr i) (.go (.writeFull addr i) p)
  | put (addr i) (b : UInt8) (hb : addr[i]? = some b) (hf : ¬ p.Full) :
      Next killed p (.write addr i) (.go (.write addr (i + 1)) (p.put b))
  | writeDone (addr i) (hi : addr[i]? = none) :
      Next killed p (.write addr i) (.wakeup .nread (.writeEnd addr.length))
  | writeWake (addr i) : Next killed p (.writeFull addr i) (.wakeup .nread (.writeSleep addr i))
  | writeSleep (addr i) : Next killed p (.writeSleep addr i) (.wait .nwrite (.write addr i))
  | writeEnd (n) : Next killed p (.writeEnd n) (.leave (.wrote n) p)
  | readFails (n) (he : p.Empty) (ho : p.writeopen = true) (hk : killed = true) :
      Next killed p (.read n) (.leave .failed p)
  | readWaits (n) (he : p.Empty) (ho : p.writeopen = true) (hk : killed = false) :
      Next killed p (.read n) (.go (.readSleep n) p)
  | readStart (n) (h : ¬ p.Empty ∨ p.writeopen = false) :
      Next killed p (.read n) (.go (.readCopy n []) p)
  | readSleep (n) : Next killed p (.readSleep n) (.wait .nread (.read n))
  | take (n got) (hn : got.length < n) (he : ¬ p.Empty) :
      Next killed p (.readCopy n got)
        (.go (.readCopy n (got ++ [p.front])) { p with nread := p.nread + 1#32 })
  | readDone (n got) (h : n ≤ got.length ∨ p.Empty) :
      Next killed p (.readCopy n got) (.wakeup .nwrite (.readEnd got))
  | readEnd (got) : Next killed p (.readEnd got) (.leave (.read got) p)
  | closeWrite : Next killed p (.close true) (.go (.closeWake true) { p with writeopen := false })
  | closeRead : Next killed p (.close false) (.go (.closeWake false) { p with readopen := false })
  | closeWake (w) :
      Next killed p (.closeWake w) (.wakeup (if w then .nread else .nwrite) .closeEnd)
  | closeEnd :
      Next killed p .closeEnd
        (.leave .closed { p with freed := p.freed || !p.readopen && !p.writeopen })

theorem Next.of_next (killed : Bool) (k : Point) (p : Pipe) :
    Next killed p k (next killed k p) := by
  cases k with
  | write addr i =>
    simp only [next]
    split
    · next b hb =>
      split
      · next hf =>
        split
        · next h => exact .writeFails addr i hf h
        · next h =>
          obtain ⟨ho, hk⟩ := not_or.mp h
          exact .writeFull addr i hf (by simpa using ho) (by simpa using hk)
      · next hf => exact .put addr i b hb hf
    · next hi => exact .writeDone addr i hi
  | read n =>
    simp only [next]
    split
    · next h =>
      split
      · next hk => exact .readFails n h.1 h.2 hk
      · next hk => exact .readWaits n h.1 h.2 (by simpa using hk)
    · next h => exact .readStart n ((not_and_or.mp h).imp_right (by simp))
  | readCopy n got =>
    simp only [next]
    split
    · next h => exact .take n got h.1 h.2
    · next h => exact .readDone n got ((not_and_or.mp h).imp not_lt.mp not_not.mp)
  | close w =>
    cases w with
    | true => exact .closeWrite
    | false => exact .closeRead
  | writeFull addr i => exact .writeWake addr i
  | writeSleep addr i => exact .writeSleep addr i
  | writeEnd n => exact .writeEnd n
  | readSleep n => exact .readSleep n
  | readEnd got => exact .readEnd got
  | closeWake w => exact .closeWake w
  | closeEnd => exact .closeEnd

/-! ### Threads outside the lock -/

/-- The states of a pipe that the threads `τ` use. -/
abbrev PipeState (τ : Type*) := Monitor.State τ Pipe Point Chan Result

/-- The start of a call, or of a round of the loop in which a call may sleep. -/
inductive Starts : Point → Prop
  | write (addr i) : Starts (.write addr i)
  | read (n) : Starts (.read n)
  | close (w) : Starts (.close w)

/-- A thread that needs the lock is at the start of a call or of a round of a loop, and a sleeper
will go on with the loop it sleeps in. -/
def Parked : Monitor.Thread Point Chan Result → Prop
  | .want k => Starts k
  | .asleep .nread k => ∃ n, k = .read n
  | .asleep .nwrite k => ∃ addr i, k = .write addr i
  | .out _ | .inside _ => True

theorem parked_rouse {th : Monitor.Thread Point Chan Result} (h : Parked th) : Parked th.rouse := by
  cases th with
  | asleep c k =>
    cases c with
    | nread =>
      obtain ⟨n, rfl⟩ := h
      exact .read n
    | nwrite =>
      obtain ⟨addr, i, rfl⟩ := h
      exact .write addr i
  | _ => exact h

theorem local_parked {τ : Type*} (s : PipeState τ) (e : Monitor.Event τ Point) :
    Monitor.Local code s e fun _ => Parked where
  call {t k} _ he := by
    cases k with
    | write addr i => exact .write addr i
    | read n => exact .read n
    | close w => exact .close w
    | _ => cases he
  enter _ := trivial
  go _ _ := trivial
  wakeup _ _ := trivial
  wait {m k p c k'} _ hw := by
    have h := Next.of_next m k p
    rw [show next m k p = _ from hw] at h
    cases h with
    | writeSleep addr i => exact ⟨addr, i, rfl⟩
    | readSleep n => exact ⟨n, rfl⟩
  out := trivial
  woken h := parked_rouse h
  mark _ h := parked_rouse h

/-- What holds in every state of a run whatever the pipe is used for. -/
structure Wf {τ : Type*} (s : PipeState τ) : Prop where
  exclusive : Monitor.Exclusive s
  parked : ∀ t, Parked (s.thread t)

theorem wf_init {τ : Type*} (p : Pipe) : Wf (Monitor.init p : PipeState τ) :=
  ⟨fun _ _ ht => (nomatch ht), fun _ => trivial⟩

theorem Wf.step {τ : Type*} [DecidableEq τ] {s s' : PipeState τ} {e : Monitor.Event τ Point}
    (hs : Wf s) (h : Monitor.step code s e = some s') : Wf s' :=
  ⟨hs.exclusive.step h, (local_parked s e).step hs.parked h⟩

theorem Wf.starts {τ : Type*} {s : PipeState τ} (hs : Wf s) {t : τ} {k : Point}
    (ht : s.thread t = .want k) : Starts k := by
  have h := hs.parked t
  rwa [ht] at h

end Pipe

end Xv6
