import Xv6.Ide.Memide
import Xv6.Lib.RingList

/-!
# The buffer cache

`bio.c` with its list: the buffers are linked through `next` and `prev` into a circle with
`bcache.head`. `bget` looks for the block from `head.next` on, and if it is not there for a buffer
that can be recycled from `head.prev` backwards; `brelse` moves a buffer that nobody uses any more
behind `head`.

What is done under `bcache.lock` is one step. Between the step in which `bget` counts its reference
and the step in which `brelse` takes it back, a process waits for the sleep lock of the buffer,
reads the block, and uses the buffer; it may use several at a time. The disk is the memory disk of
`memide.c`, which the real driver refines; a process that reads or writes a block has its sleep
lock.

## Main definitions

* `State`, `Event`, `step` — the machine
* `State.lookup`, `State.victim` — the two loops of `bget`
* `binit` — the list that `binit` builds
-/

namespace Xv6

namespace Bio

scoped instance neZeroTwoThreads : NeZero 2 := ⟨by decide⟩

open Ide

/-- A node of the list: a buffer, or `bcache.head`. -/
abbrev Node := Option BufId

/-- Where a process is. -/
inductive Phase
  /-- In no call of `bio.c`. -/
  | out
  /-- In `bread(dev, blockno)`, waiting for the lock of the buffer that `bget` has chosen. -/
  | locking (b : BufId) (dev blockno : ℕ)
  /-- In `bread(dev, blockno)`, with the lock, before `iderw`. -/
  | filling (b : BufId) (dev blockno : ℕ)
  /-- In `brelse`, without the lock, before `b->refcnt--`. -/
  | releasing (b : BufId)
  deriving DecidableEq

/-- The buffer that a process refers to without having its lock. -/
def Phase.refers : Phase → Option BufId
  | .locking b _ _ => some b
  | .releasing b => some b
  | _ => none

/-- The cache, its users and the disk. -/
structure State (τ : Type) where
  mem : Mem
  refcnt : BufId → ℕ
  links : Links Node
  owner : BufId → Option τ
  thread : τ → Phase
  panicked : Bool

variable {τ : Type} [DecidableEq τ]

namespace State

/-- The buffer holds the block. -/
def Holds (s : State τ) (dev blockno : ℕ) (b : BufId) : Prop :=
  (s.mem.buf b).dev = dev ∧ (s.mem.buf b).blockno = blockno

instance (s : State τ) (dev blockno : ℕ) (b : BufId) : Decidable (s.Holds dev blockno b) :=
  inferInstanceAs (Decidable (_ ∧ _))

/-- The buffer can be recycled. -/
def Idle (s : State τ) (b : BufId) : Prop := s.refcnt b = 0 ∧ (s.mem.buf b).dirty = false

instance (s : State τ) (b : BufId) : Decidable (s.Idle b) := inferInstanceAs (Decidable (_ ∧ _))

/-- `for(b = bcache.head.next; b != &bcache.head; b = b->next)`. -/
def lookup (s : State τ) (dev blockno : ℕ) : Option (Option BufId) :=
  (Links.seek s.links.next none (fun x => x.any fun b => decide (s.Holds dev blockno b)) (NBUF + 1)
    (s.links.next none)).map Option.join

/-- `for(b = bcache.head.prev; b != &bcache.head; b = b->prev)`. -/
def victim (s : State τ) : Option (Option BufId) :=
  (Links.seek s.links.prev none (fun x => x.any fun b => decide (s.Idle b)) (NBUF + 1)
    (s.links.prev none)).map Option.join

def setThread (s : State τ) (t : τ) (p : Phase) : State τ :=
  { s with thread := Function.update s.thread t p }

def panic (s : State τ) : State τ := { s with panicked := true }

/-- A buffer for another block. -/
def recycle (s : State τ) (b : BufId) (dev blockno : ℕ) : State τ :=
  { s with
    mem := s.mem.put b ⟨false, false, dev, blockno, (s.mem.buf b).data⟩
    refcnt := Function.update s.refcnt b 1 }

/-- `bget` up to `release(&bcache.lock)`. -/
def bget (s : State τ) (t : τ) (dev blockno : ℕ) : Option (State τ) := do
  match ← s.lookup dev blockno with
  | some b =>
    return { s with refcnt := Function.update s.refcnt b (s.refcnt b + 1) }.setThread t
      (.locking b dev blockno)
  | none =>
    match ← s.victim with
    | some b => return (s.recycle b dev blockno).setThread t (.locking b dev blockno)
    | none => return s.panic

/-- `iderw`. -/
def iderw (s : State τ) (b : BufId) : State τ :=
  match s.mem.iderw b with
  | none => s.panic
  | some m => { s with mem := m }

/-- The rest of `brelse` for a buffer whose lock has been released. -/
def drop (s : State τ) (b : BufId) : State τ :=
  let s := { s with refcnt := Function.update s.refcnt b (s.refcnt b - 1) }
  if s.refcnt b = 0 then { s with links := (s.links.unlink (some b)).link none (some b) } else s

/-- The process has the lock of the buffer, outside the calls of `bio.c`. -/
def Uses (s : State τ) (t : τ) (b : BufId) : Prop := s.thread t = .out ∧ s.owner b = some t

instance (s : State τ) (t : τ) (b : BufId) : Decidable (s.Uses t b) :=
  inferInstanceAs (Decidable (_ ∧ _))

end State

/-- The steps of the machine. -/
inductive Event (τ : Type)
  | bget (t : τ) (dev blockno : ℕ)
  | lock (t : τ)
  | fill (t : τ)
  /-- The process changes the contents of the buffer. -/
  | store (t : τ) (b : BufId) (data : Block)
  | bwrite (t : τ) (b : BufId)
  /-- `log_write`, as far as it concerns the buffer. -/
  | logWrite (t : τ) (b : BufId)
  | brelse (t : τ) (b : BufId)
  | drop (t : τ)

/-- The machine. -/
def step (s : State τ) (e : Event τ) : Option (State τ) :=
  if s.panicked then none else
  match e with
  | .bget t dev blockno => if s.thread t = .out then s.bget t dev blockno else none
  | .lock t =>
    match s.thread t with
    | .locking b dev blockno =>
      if s.owner b = none then
        let s' := { s with owner := Function.update s.owner b (some t) }
        if (s.mem.buf b).valid = false then some (s'.setThread t (.filling b dev blockno))
        else some (s'.setThread t .out)
      else none
    | _ => none
  | .fill t =>
    match s.thread t with
    | .filling b _ _ => some ((s.iderw b).setThread t .out)
    | _ => none
  | .store t b data =>
    if s.Uses t b then
      some { s with mem := s.mem.put b { s.mem.buf b with data := data } }
    else none
  | .bwrite t b =>
    if s.thread t = .out then
      if s.owner b ≠ some t then some s.panic
      else some ({ s with mem := s.mem.put b { s.mem.buf b with dirty := true } }.iderw b)
    else none
  | .logWrite t b =>
    if s.Uses t b then
      some { s with mem := s.mem.put b { s.mem.buf b with dirty := true } }
    else none
  | .brelse t b =>
    if s.thread t = .out then
      if s.owner b ≠ some t then some s.panic
      else some ({ s with owner := Function.update s.owner b none }.setThread t (.releasing b))
    else none
  | .drop t =>
    match s.thread t with
    | .releasing b => some ((s.drop b).setThread t .out)
    | _ => none

/-- The list that `binit` builds. -/
def binit : Links Node :=
  (List.finRange NBUF).foldl (fun L b => L.link none (some b)) ⟨fun _ => none, fun _ => none⟩

/-- The cache after `binit`. -/
def init (disk : Disk) : State τ :=
  { mem := ⟨disk, fun _ => Buf.zero.toContent⟩
    refcnt := fun _ => 0
    links := binit
    owner := fun _ => none
    thread := fun _ => .out
    panicked := false }

end Bio

end Xv6
