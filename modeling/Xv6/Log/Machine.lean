import Xv6.Lib.Transition
import Xv6.Log.Header

/-!
# The buffer cache and the log

`bio.c` and `log.c` as a transition system: any number of processes that read and modify blocks
through the buffer cache inside `begin_op` and `end_op`, the one of them that commits, and the first
process when it recovers the log at boot. Power can fail at any moment.

## Granularity

A critical section of `bcache.lock` or `log.lock` is one step, and so is the transfer of one block
between a buffer and the disk. The sleep-lock of a buffer is taken and given up in steps of its own,
so a process can be overtaken between finding a buffer and locking it, and between unlocking it and
dropping its reference. `log_write` tests the size of the transaction before it takes `log.lock`;
the test and the update are two steps.

Two things the code does in sequence are one step because both touch only buffers that the process
has locked: `bread` fills an invalid buffer in the step that locks it, and `write_log`,
`install_trans` and `write_head` write a buffer to the disk in the step that fills it.

`commit` and `recover_from_log` are programs in a small instruction set (`Instr`). A loop is an
instruction that looks at `log.lh.n` and puts the next round in front of itself.

## Main definitions

* `State`, `Event`, `step` — the system
* `boot` — the machine at power-on, with a given disk
-/

namespace Xv6

namespace Log

/-- The number of a process. -/
abbrev Pid := ℕ

/-- An element of `bcache.buf`. -/
abbrev BufId := Fin NBUF

/-- `struct buf`. `block` is the block of the root device that the buffer caches; before its first
use it caches none (`dev` is `0` then). -/
structure Buf where
  block : Option ℕ
  valid : Bool
  dirty : Bool
  /-- The process that holds the sleep-lock. -/
  owner : Option Pid
  refcnt : ℕ
  data : Block

/-- How far a process has come with a buffer that `bget` has found for it. -/
inductive Phase
  /-- In `acquiresleep`. -/
  | waiting
  /-- The buffer is locked, and unchanged since it was read or logged. -/
  | held
  /-- The buffer is locked and was changed. -/
  | modified
  /-- In `log_write`, past the two tests. -/
  | checked
  /-- In `brelse`, after `releasesleep`. -/
  | released
  deriving DecidableEq, Repr

/-- A buffer in use by a process. -/
structure Hold where
  pid : Pid
  block : ℕ
  buf : BufId
  phase : Phase
  deriving DecidableEq, Repr

/-- The steps of `commit` and `recover_from_log`. -/
inductive Instr
  | bget (b : ℕ)
  | acquire (b : ℕ)
  | release (b : ℕ)
  | brelse (b : ℕ)
  /-- `memmove` from the buffer of `src` to the buffer of `dst`, and `bwrite` of the latter. -/
  | copyWrite (src dst : ℕ)
  /-- The loop of `read_head`. -/
  | loadHead
  /-- The stores of `write_head` and the `bwrite` behind them. -/
  | storeHead
  | readHead
  | writeHead
  /-- The loop of `write_log`, at `tail`. -/
  | writeLog (tail : ℕ)
  /-- The loop of `install_trans`, at `tail`. -/
  | installTrans (tail : ℕ)
  /-- `log.lh.n = 0`. -/
  | clear
  | commit
  /-- The end of `end_op` after `commit` has returned. -/
  | endCommit
  /-- The return of `initlog`. -/
  | initDone
  deriving DecidableEq, Repr

inductive Panic
  | noBuffers | incorrectBlockno | tooBig | outsideTrans | committing
  deriving DecidableEq, Repr

structure State where
  disk : Disk
  bufs : BufId → Buf
  /-- The list of buffers, most recently used first. -/
  mru : List BufId
  /-- `log.lh`: the block numbers, `log.lh.n` of them. -/
  lh : List ℕ
  outstanding : ℕ
  committing : Bool
  holds : List Hold
  /-- The processes between `begin_op` and `end_op`. -/
  ops : List Pid
  /-- What a process that is in `commit` or `recover_from_log` still has to do. -/
  code : Pid → List Instr
  /-- `initlog` has returned. -/
  up : Bool
  panic : Option Panic

/-- What a process can ask for when it is not in `commit`. -/
inductive Call
  | beginOp
  | endOp
  | bget (b : ℕ)
  | acquire (b : ℕ)
  | modify (b : ℕ) (data : Block)
  | logCheck (b : ℕ)
  | logWrite (b : ℕ)
  | release (b : ℕ)
  | brelse (b : ℕ)

inductive Event
  | call (p : Pid) (c : Call)
  /-- The next instruction of a process in `commit` or `recover_from_log`. -/
  | kernel (p : Pid)
  | crash

/-! ### Programs -/

/-- `bread`. -/
def bread (b : ℕ) : List Instr := [.bget b, .acquire b]

/-- `brelse`. -/
def brelse (b : ℕ) : List Instr := [.release b, .brelse b]

/-- A round of `write_log` for the logged block `b`. -/
def writeLogRound (cf : Conf) (tail b : ℕ) : List Instr :=
  bread (cf.logBlock tail) ++ bread b ++ [.copyWrite b (cf.logBlock tail)] ++ brelse b ++
    brelse (cf.logBlock tail)

/-- A round of `install_trans` for the logged block `b`. -/
def installRound (cf : Conf) (tail b : ℕ) : List Instr :=
  bread (cf.logBlock tail) ++ bread b ++ [.copyWrite (cf.logBlock tail) b] ++
    brelse (cf.logBlock tail) ++ brelse b

/-- The body of `commit` for a transaction that is not empty. -/
def commitBody : List Instr := [.writeLog 0, .writeHead, .installTrans 0, .clear, .writeHead]

/-- `recover_from_log`, and the return of `initlog`. -/
def recoverFromLog : List Instr := [.readHead, .installTrans 0, .clear, .writeHead, .initDone]

/-- The first process runs `initlog` on its way to user space. -/
def initPid : Pid := 1

/-- The machine at power-on. -/
def boot (d : Disk) : State :=
  { disk := d
    bufs := fun _ => ⟨none, false, false, none, 0, Bytes.zero _⟩
    mru := (List.finRange NBUF).reverse
    lh := []
    outstanding := 0
    committing := false
    holds := []
    ops := []
    code := fun p => if p = initPid then recoverFromLog else []
    up := false
    panic := none }

namespace State

def fail (s : State) (m : Panic) : State := { s with panic := some m }

def setBuf (s : State) (i : BufId) (k : Buf) : State :=
  { s with bufs := Function.update s.bufs i k }

/-- Replace a hold by one in another phase. -/
def setPhase (s : State) (h : Hold) (ph : Phase) : State :=
  { s with holds := s.holds.map fun h' => if h' = h then { h with phase := ph } else h' }

def setCode (s : State) (p : Pid) (is : List Instr) : State :=
  { s with code := Function.update s.code p is }

/-- Put instructions in front of what `p` has to do. -/
def push (s : State) (p : Pid) (is : List Instr) : State := s.setCode p (is ++ s.code p)

/-- The buffer process `p` has got for block `b`. -/
def hold (s : State) (p : Pid) (b : ℕ) : Option Hold :=
  s.holds.find? fun h => h.pid = p ∧ h.block = b

/-- The first loop of `bget`. -/
def lookup (s : State) (b : ℕ) : Option BufId := s.mru.find? fun i => (s.bufs i).block = some b

/-- The second loop of `bget`. -/
def victim (s : State) : Option BufId :=
  s.mru.reverse.find? fun i => (s.bufs i).refcnt = 0 ∧ (s.bufs i).dirty = false

/-- `bget`, up to `acquiresleep`. -/
def bget (s : State) (p : Pid) (b : ℕ) : State :=
  match s.lookup b with
  | some i =>
    { s.setBuf i { s.bufs i with refcnt := (s.bufs i).refcnt + 1 } with
      holds := ⟨p, b, i, .waiting⟩ :: s.holds }
  | none =>
    match s.victim with
    | some i =>
      { s.setBuf i { s.bufs i with
          block := some b, valid := false, dirty := false, refcnt := 1 } with
        holds := ⟨p, b, i, .waiting⟩ :: s.holds }
    | none => s.fail .noBuffers

/-- `acquiresleep` at the end of `bget`, and the read of `bread`. -/
def acquire (s : State) (h : Hold) : Option State :=
  let k := s.bufs h.buf
  if k.owner ≠ none then none
  else if k.valid then some ((s.setBuf h.buf { k with owner := some h.pid }).setPhase h .held)
  else if FSSIZE ≤ h.block then some (s.fail .incorrectBlockno)
  else
    some ((s.setBuf h.buf { k with
      owner := some h.pid, data := s.disk h.block, valid := true }).setPhase h .held)

/-- `releasesleep` in `brelse`. -/
def release (s : State) (h : Hold) : State :=
  (s.setBuf h.buf { s.bufs h.buf with owner := none }).setPhase h .released

/-- The rest of `brelse`. -/
def drop (s : State) (h : Hold) : State :=
  let n := (s.bufs h.buf).refcnt - 1
  { s.setBuf h.buf { s.bufs h.buf with refcnt := n } with
    mru := if n = 0 then h.buf :: s.mru.erase h.buf else s.mru
    holds := s.holds.erase h }

/-- Fill a locked buffer and write it to the disk. -/
def bwrite (s : State) (h : Hold) (data : Block) : State :=
  { s.setBuf h.buf { s.bufs h.buf with data := data, dirty := false, valid := true } with
    disk := Function.update s.disk h.block data }

/-- Run `k` with the buffer `p` has for block `b`, if it is in one of the given phases. -/
def withHold (s : State) (p : Pid) (b : ℕ) (phs : List Phase) (k : Hold → Option State) :
    Option State :=
  (s.hold p b).bind fun h => if h.phase ∈ phs then k h else none

/-- One instruction of `commit` or `recover_from_log`. -/
def exec (cf : Conf) (s : State) (p : Pid) : Instr → Option State
  | .bget b => if s.hold p b = none then some (s.bget p b) else none
  | .acquire b => s.withHold p b [.waiting] fun h => s.acquire h
  | .release b => s.withHold p b [.held] fun h => some (s.release h)
  | .brelse b => s.withHold p b [.released] fun h => some (s.drop h)
  | .copyWrite src dst =>
    s.withHold p src [.held] fun h => s.withHold p dst [.held] fun h' =>
      some (s.bwrite h' (s.bufs h.buf).data)
  | .loadHead => s.withHold p cf.start [.held] fun h =>
    some { s with lh := headOf (s.bufs h.buf).data }
  | .storeHead => s.withHold p cf.start [.held] fun h =>
    some (s.bwrite h (putHead (s.bufs h.buf).data s.lh))
  | .readHead => some (s.push p (bread cf.start ++ [.loadHead] ++ brelse cf.start))
  | .writeHead => some (s.push p (bread cf.start ++ [.storeHead] ++ brelse cf.start))
  | .writeLog tail =>
    match s.lh[tail]? with
    | some b => some (s.push p (writeLogRound cf tail b ++ [.writeLog (tail + 1)]))
    | none => some s
  | .installTrans tail =>
    match s.lh[tail]? with
    | some b => some (s.push p (installRound cf tail b ++ [.installTrans (tail + 1)]))
    | none => some s
  | .clear => some { s with lh := [] }
  | .commit => if 0 < s.lh.length then some (s.push p commitBody) else some s
  | .endCommit => some { s with committing := false }
  | .initDone => some { s with up := true }

/-- One step of a process in a system call. -/
def call (cf : Conf) (s : State) (p : Pid) : Call → Option State
  | .beginOp =>
    if p ∉ s.ops ∧ s.committing = false ∧
        s.lh.length + (s.outstanding + 1) * MAXOPBLOCKS ≤ LOGSIZE then
      some { s with outstanding := s.outstanding + 1, ops := p :: s.ops }
    else none
  | .endOp =>
    if p ∈ s.ops ∧ ∀ h ∈ s.holds, h.pid ≠ p then
      let s' := { s with outstanding := s.outstanding - 1, ops := s.ops.erase p }
      if s.committing then some (s'.fail .committing)
      else if s'.outstanding = 0 then
        some ({ s' with committing := true }.push p [.commit, .endCommit])
      else some s'
    else none
  | .bget b => if s.hold p b = none then some (s.bget p b) else none
  | .acquire b => s.withHold p b [.waiting] fun h => s.acquire h
  | .modify b data =>
    if p ∈ s.ops then
      s.withHold p b [.held, .modified] fun h =>
        some ((s.setBuf h.buf { s.bufs h.buf with data := data }).setPhase h .modified)
    else none
  | .logCheck b =>
    if p ∈ s.ops then
      s.withHold p b [.held, .modified] fun h =>
        if LOGSIZE ≤ s.lh.length ∨ cf.size - 1 ≤ s.lh.length then some (s.fail .tooBig)
        else if s.outstanding < 1 then some (s.fail .outsideTrans)
        else some (s.setPhase h .checked)
    else none
  | .logWrite b => s.withHold p b [.checked] fun h =>
    some ({ s.setBuf h.buf { s.bufs h.buf with dirty := true } with
      lh := if b ∈ s.lh then s.lh else s.lh ++ [b] }.setPhase h .held)
  | .release b => s.withHold p b [.held] fun h => some (s.release h)
  | .brelse b => s.withHold p b [.released] fun h => some (s.drop h)

end State

/-- The system. -/
def step (cf : Conf) (s : State) : Event → Option State
  | .call p c =>
    if s.panic = none ∧ s.up = true ∧ s.code p = [] then s.call cf p c else none
  | .kernel p =>
    if s.panic = none then
      match s.code p with
      | [] => none
      | i :: is => (s.setCode p is).exec cf p i
    else none
  | .crash => some (boot s.disk)

end Log

end Xv6
