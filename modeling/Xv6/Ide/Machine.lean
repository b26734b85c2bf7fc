import Xv6.Disk
import Xv6.Lib.Transition

/-!
# The IDE driver

`ide.c` keeps the buffers that wait for the disk in a singly linked list, the first of which the
disk is working on. `iderw` appends its buffer and sleeps until the buffer has been served; the
interrupt handler takes the first buffer off, marks it as served and starts the disk on the next
one.

All of this happens under `idelock`, so a critical section is one step: `iderw` from `acquire` to
the first `sleep` or to its return, one more round of its loop after it has been woken, and the
whole of `ideintr`. A step that would have to wait for the disk (`idewait`) is not enabled until the
disk is ready. A kill may wake a sleeper at any time.

The disk executes one command at a time. It finishes the command at some point after it was given,
with or without an error, and asks for an interrupt; the interrupt is taken at some point after
that. When a write fails, the block may contain anything.

The callers are those of `bio.c`: `bread` after `bget` has found the block or has recycled a buffer,
and `bwrite`. A buffer is used by the process that has its sleep lock. All callers are concerned
with blocks of `ROOTDEV`.

## Main definitions

* `Buf`, `Command`, `Device`, `State` — buffers, the disk, the machine
* `State.idestart`, `State.ideintr`, `State.enter`, `State.waitLoop` — the driver
* `step` — the machine
-/

namespace Xv6

namespace Ide

/-- A buffer, by its place in `bcache.buf`. -/
abbrev BufId := Fin NBUF

/-- The device of the file system. -/
abbrev ROOTDEV : ℕ := 1

/-- What a buffer holds: `B_VALID`, `B_DIRTY`, the block and its contents. -/
structure Content where
  valid : Bool
  dirty : Bool
  dev : ℕ
  blockno : ℕ
  data : Block

/-- `struct buf`, with the pointer of the disk queue. -/
structure Buf extends Content where
  qnext : Option BufId

/-- There is nothing to do for the buffer. -/
def Content.Synced (b : Content) : Prop := b.valid = true ∧ b.dirty = false

instance (b : Content) : Decidable b.Synced := inferInstanceAs (Decidable (_ ∧ _))

/-! ### The disk -/

/-- What `idestart` puts into the registers `0x1f2` to `0x1f7` and, for a write, sends to
`0x1f0`. -/
structure Command where
  count : ℕ
  lba0 : ℕ
  lba1 : ℕ
  lba2 : ℕ
  select : ℕ
  write : Bool
  data : Block

/-- The sector that the disk takes from the registers. -/
def Command.sector (c : Command) : ℕ :=
  c.lba0 + c.lba1 * 2 ^ 8 + c.lba2 * 2 ^ 16 + c.select % 16 * 2 ^ 24

/-- The drive that the disk takes from the registers. -/
def Command.drive (c : Command) : ℕ := c.select / 16 % 2

/-- The disk: the contents of both drives, the command in execution, the error bits of the status
register, the sector that `insl` reads, and whether it asks for an interrupt. -/
structure Device where
  disk : ℕ → Disk
  active : Option Command
  err : Bool
  out : Block
  irq : Bool

/-- The contents of the drives once the command has put `blk` into its sector. -/
def Device.put (d : Device) (c : Command) (blk : Block) : ℕ → Disk :=
  Function.update d.disk c.drive (Function.update (d.disk c.drive) c.sector blk)

/-- The disk finishes its command. -/
def Device.finish (d : Device) (c : Command) : Device :=
  { disk := if c.write then d.put c c.data else d.disk
    active := none
    err := false
    out := if c.write then d.out else d.disk c.drive c.sector
    irq := true }

/-- The disk finishes its command with an error. -/
def Device.fail (d : Device) (c : Command) (blk : Block) : Device :=
  { d with
    disk := if c.write then d.put c blk else d.disk
    active := none
    err := true
    irq := true }

/-! ### The driver -/

/-- Where a process is in `iderw`. -/
inductive Phase
  /-- Not in it. -/
  | out
  /-- Behind the checks, before `acquire(&idelock)`. -/
  | want (b : BufId)
  /-- In `sleep(b, &idelock)`. -/
  | asleep (b : BufId)
  /-- In `sleep`, but woken. -/
  | woken (b : BufId)
  deriving DecidableEq

/-- A sleeper on `b` is woken. -/
def Phase.wake (b : BufId) (p : Phase) : Phase := if p = .asleep b then .woken b else p

/-- The driver, its processes and the disk. -/
structure State (τ : Type) where
  buf : BufId → Buf
  owner : BufId → Option τ
  idequeue : Option BufId
  havedisk1 : Bool
  device : Device
  thread : τ → Phase
  panicked : Bool

/-- `sector_per_block`. -/
abbrev sectorPerBlock : ℕ := BSIZE / 512

/-- The registers for a request. -/
def command (b : Content) : Command :=
  let sector := b.blockno * sectorPerBlock
  { count := sectorPerBlock
    lba0 := sector &&& 0xff
    lba1 := (sector >>> 8) &&& 0xff
    lba2 := (sector >>> 16) &&& 0xff
    select := 0xe0 ||| ((b.dev &&& 1) <<< 4) ||| ((sector >>> 24) &&& 0x0f)
    write := b.dirty
    data := b.data }

variable {τ : Type} [DecidableEq τ]

namespace State

def setBuf (s : State τ) (b : BufId) (x : Buf) : State τ :=
  { s with buf := Function.update s.buf b x }

def setThread (s : State τ) (t : τ) (p : Phase) : State τ :=
  { s with thread := Function.update s.thread t p }

def setContent (s : State τ) (b : BufId) (x : Content) : State τ :=
  s.setBuf b { x with qnext := (s.buf b).qnext }

def panic (s : State τ) : State τ := { s with panicked := true }

/-- `*pp`, for `pp` the address of `idequeue` or of the `qnext` of a buffer. -/
def deref (s : State τ) : Option BufId → Option BufId
  | none => s.idequeue
  | some x => (s.buf x).qnext

/-- `*pp = b`. -/
def assign (s : State τ) (pp : Option BufId) (b : BufId) : State τ :=
  match pp with
  | none => { s with idequeue := some b }
  | some x => s.setBuf x { s.buf x with qnext := some b }

/-- The loop `for(pp=&idequeue; *pp; pp=&(*pp)->qnext)`, in at most so many rounds. -/
def tail (s : State τ) : ℕ → Option BufId → Option (Option BufId)
  | 0, _ => none
  | fuel + 1, pp =>
    match s.deref pp with
    | none => some pp
    | some x => s.tail fuel (some x)

/-- `idestart`. -/
def idestart (s : State τ) (b : BufId) : Option (State τ) :=
  if FSSIZE ≤ (s.buf b).blockno then some s.panic
  else if s.device.active.isSome then none
  else some { s with
    device := { s.device with active := some (command (s.buf b).toContent), err := false } }

/-- `ideintr` from `idequeue = b->qnext` to `wakeup(b)`. The sector is copied for a read, unless the
disk reports an error. -/
def serve (s : State τ) (b : BufId) : State τ :=
  let x := s.buf b
  let data := if x.dirty = false ∧ s.device.err = false then s.device.out else x.data
  let s' := s.setContent b { x.toContent with valid := true, dirty := false, data := data }
  { s' with idequeue := x.qnext, thread := fun u => (s.thread u).wake b }

/-- `ideintr`. For a read it waits until the disk is ready. -/
def ideintr (s : State τ) : Option (State τ) :=
  match s.idequeue with
  | none => some s
  | some b =>
    if (s.buf b).dirty = false ∧ s.device.active.isSome then none
    else
      match (s.serve b).idequeue with
      | none => some (s.serve b)
      | some b' => (s.serve b).idestart b'

/-- The loop of `iderw` in which it sleeps. -/
def waitLoop (s : State τ) (t : τ) (b : BufId) : State τ :=
  if (s.buf b).Synced then s.setThread t .out else s.setThread t (.asleep b)

/-- `iderw` before it takes the lock. -/
def iderw (s : State τ) (t : τ) (b : BufId) : State τ :=
  if s.owner b ≠ some t then s.panic
  else if (s.buf b).Synced then s.panic
  else if (s.buf b).dev ≠ 0 ∧ s.havedisk1 = false then s.panic
  else s.setThread t (.want b)

/-- `iderw` from `acquire` to the first `sleep`. -/
def enter (s : State τ) (t : τ) (b : BufId) : Option (State τ) := do
  let s := s.setBuf b { s.buf b with qnext := none }
  let pp ← s.tail NBUF none
  let s := s.assign pp b
  let s ← if s.idequeue = some b then s.idestart b else some s
  return if s.panicked then s else s.waitLoop t b

end State

/-- The steps of the machine. -/
inductive Event (τ : Type)
  /-- `bget` recycles a buffer for a block that no buffer holds. -/
  | recycle (t : τ) (b : BufId) (blockno : ℕ)
  /-- `bget` gets the lock of a buffer that it has found. -/
  | lock (t : τ) (b : BufId)
  | unlock (t : τ) (b : BufId)
  /-- The process changes the contents of the buffer. -/
  | store (t : τ) (b : BufId) (data : Block)
  /-- `log_write` marks the buffer. -/
  | pin (t : τ) (b : BufId)
  | bread (t : τ) (b : BufId)
  | bwrite (t : τ) (b : BufId)
  | iderw (t : τ) (b : BufId)
  | enter (t : τ)
  | wake (t : τ)
  | kill (t : τ)
  | finish
  | fail (blk : Block)
  | intr

/-- The process has the lock of the buffer and is not in `iderw`. -/
def State.Uses (s : State τ) (t : τ) (b : BufId) : Prop :=
  s.thread t = .out ∧ s.owner b = some t

instance (s : State τ) (t : τ) (b : BufId) : Decidable (s.Uses t b) :=
  inferInstanceAs (Decidable (_ ∧ _))

/-- The block is in no buffer. -/
def State.Uncached (s : State τ) (blockno : ℕ) : Prop :=
  ∀ b, ¬ ((s.buf b).dev = ROOTDEV ∧ (s.buf b).blockno = blockno)

instance (s : State τ) (blockno : ℕ) : Decidable (s.Uncached blockno) :=
  inferInstanceAs (Decidable (∀ _, _))

/-- The machine. -/
def step (s : State τ) (e : Event τ) : Option (State τ) :=
  if s.panicked then none else
  match e with
  | .recycle t b blockno =>
    if s.thread t = .out ∧ s.owner b = none ∧ (s.buf b).dirty = false ∧ s.Uncached blockno then
      some { s.setContent b { valid := false, dirty := false, dev := ROOTDEV, blockno := blockno,
                              data := (s.buf b).data } with
        owner := Function.update s.owner b (some t) }
    else none
  | .lock t b =>
    if s.thread t = .out ∧ s.owner b = none ∧ (s.buf b).dev = ROOTDEV then
      some { s with owner := Function.update s.owner b (some t) }
    else none
  | .unlock t b =>
    if s.Uses t b then some { s with owner := Function.update s.owner b none } else none
  | .store t b data =>
    if s.Uses t b then some (s.setContent b { (s.buf b).toContent with data := data }) else none
  | .pin t b =>
    if s.Uses t b then some (s.setContent b { (s.buf b).toContent with dirty := true }) else none
  | .bread t b =>
    if s.Uses t b then (if (s.buf b).valid = false then some (s.iderw t b) else some s) else none
  | .bwrite t b =>
    if s.thread t = .out then
      if s.owner b ≠ some t then some s.panic
      else some ((s.setContent b { (s.buf b).toContent with dirty := true }).iderw t b)
    else none
  | .iderw t b => if s.thread t = .out then some (s.iderw t b) else none
  | .enter t =>
    match s.thread t with
    | .want b => s.enter t b
    | _ => none
  | .wake t =>
    match s.thread t with
    | .woken b => some (s.waitLoop t b)
    | _ => none
  | .kill t =>
    match s.thread t with
    | .asleep b => some (s.setThread t (.woken b))
    | _ => some s
  | .finish => s.device.active.map fun c => { s with device := s.device.finish c }
  | .fail blk => s.device.active.map fun c => { s with device := s.device.fail c blk }
  | .intr =>
    if s.device.irq then { s with device := { s.device with irq := false } }.ideintr else none

/-- An empty buffer. -/
def Buf.zero : Buf :=
  { valid := false, dirty := false, dev := 0, blockno := 0, data := Bytes.zero BSIZE,
    qnext := none }

/-- The machine after `ideinit`. -/
def init (disk : ℕ → Disk) (havedisk1 : Bool) : State τ :=
  { buf := fun _ => Buf.zero
    owner := fun _ => none
    idequeue := none
    havedisk1 := havedisk1
    device := { disk := disk, active := none, err := false, out := Bytes.zero BSIZE, irq := false }
    thread := fun _ => .out
    panicked := false }

end Ide

end Xv6
