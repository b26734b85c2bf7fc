import Xv6.Lib.Transition
import Xv6.Proc.Table
import Xv6.Vm.Exec

/-!
# Processes, files and pipes as owners of memory

The parts of `proc.c`, `file.c`, `pipe.c`, `sysproc.c`, `sysfile.c` and `main.c` that take pages
from the allocator or give them back, and a machine on which processes make system calls one after
another. Of a process the machine knows the memory, the parent and the open files, of a file the
reference count and what it refers to. Scheduling, pids, `killed`, inodes and the contents of kernel
stacks are left out. A process is `live` from the end of the `fork` that makes it until it exits,
whether it runs or sleeps.

A `struct pipe` is in its page: the words from `141` on are `nread`, `nwrite`, `readopen` and
`writeopen`.

## Main definitions

* `fork`, `exit`, `wait`, `growproc`, `sysExec`, `sysPipe`, `sysClose`
* `main`, `boot` — how the machine starts
* `Event`, `step` — system calls, and stores of a process to its own memory
-/

namespace Xv6

namespace Vm

open Proc (Slot slots)

/-- What has become of a slot of the process table. -/
inductive Status
  | unused | live | zombie
  deriving DecidableEq, Repr

/-- `struct proc`. -/
structure Process where
  status : Status
  sz : ℕ
  pgdir : Option ℕ
  kstack : Option ℕ
  parent : Option Slot
  ofile : Fin NOFILE → Option (Fin NFILE)

/-- The `type` of a `struct file`. -/
inductive FdType
  | none | pipe | inode
  deriving DecidableEq, Repr

/-- `struct file`. -/
structure File where
  ref : ℕ
  type : FdType
  readable : Bool
  writable : Bool
  pipe : ℕ

/-- The state of the kernel. `cpuStacks` are the stacks that `startothers` has allocated. -/
structure State where
  phys : Phys
  kpgdir : Option ℕ
  cpuStacks : List ℕ
  initproc : Slot
  proc : Slot → Process
  file : Fin NFILE → File

/-- Programs of the kernel. -/
abbrev K := EStateM Halt State

/-- A program that uses physical memory only. -/
def vm {α : Type} (x : M α) : K α := fun s =>
  match x s.phys with
  | .ok a p => .ok a { s with phys := p }
  | .error e p => .error e { s with phys := p }

def getProc (p : Slot) : K Process := return (← get).proc p

/-- Assignment to fields of a process. -/
def setProc (p : Slot) (f : Process → Process) : K Unit :=
  modify fun s => { s with proc := Function.update s.proc p (f (s.proc p)) }

def getFile (x : Fin NFILE) : K File := return (← get).file x

/-- Assignment to fields of a file. -/
def setFile (x : Fin NFILE) (f : File → File) : K Unit :=
  modify fun s => { s with file := Function.update s.file x (f (s.file x)) }

/-- The page directory of a process; the null pointer is not mapped. -/
def pgdirOf (p : Slot) : K ℕ := do
  match (← getProc p).pgdir with
  | some d => return d
  | none => throw .fault

variable (L : Layout)

/-! ### Pipes and files -/

/-- Index of the word `nread` in the page of a pipe. -/
abbrev nread : ℕ := 141

/-- Index of the word `nwrite` in the page of a pipe. -/
abbrev nwrite : ℕ := 142

/-- Index of the word `readopen` in the page of a pipe. -/
abbrev readopen : ℕ := 143

/-- Index of the word `writeopen` in the page of a pipe. -/
abbrev writeopen : ℕ := 144

def pipeclose (pipe : ℕ) (writable : Bool) : M Unit := do
  store pipe (if writable then writeopen else readopen) 0
  if (← load pipe readopen) = 0 ∧ (← load pipe writeopen) = 0 then kfree L pipe

def filealloc : K (Option (Fin NFILE)) := do
  let s ← get
  match (List.finRange NFILE).find? fun x => (s.file x).ref = 0 with
  | some x =>
    setFile x fun f => { f with ref := 1 }
    return some x
  | none => return none

def filedup (x : Fin NFILE) : K Unit := do
  if (← getFile x).ref < 1 then throw .filedup
  setFile x fun f => { f with ref := f.ref + 1 }

def fileclose (x : Fin NFILE) : K Unit := do
  let ff ← getFile x
  if ff.ref < 1 then throw .fileclose
  if ff.ref - 1 > 0 then setFile x fun f => { f with ref := f.ref - 1 }
  else
    setFile x fun f => { f with ref := 0, type := .none }
    if ff.type = .pipe then vm (pipeclose L ff.pipe ff.writable)

def pipealloc : K (Option (Fin NFILE × Fin NFILE)) := do
  match ← filealloc with
  | none => return none
  | some f0 =>
    match ← filealloc with
    | none =>
      fileclose L f0
      return none
    | some f1 =>
      match ← vm kalloc with
      | none =>
        fileclose L f0
        fileclose L f1
        return none
      | some p =>
        vm (store p readopen 1)
        vm (store p writeopen 1)
        vm (store p nwrite 0)
        vm (store p nread 0)
        setFile f0 fun f =>
          { f with type := .pipe, readable := true, writable := false, pipe := p }
        setFile f1 fun f =>
          { f with type := .pipe, readable := false, writable := true, pipe := p }
        return some (f0, f1)

def fdalloc (p : Slot) (x : Fin NFILE) : K (Option (Fin NOFILE)) := do
  let cur ← getProc p
  match (List.finRange NOFILE).find? fun fd => cur.ofile fd = none with
  | some fd =>
    setProc p fun q => { q with ofile := Function.update q.ofile fd (some x) }
    return some fd
  | none => return none

/-- The store of a byte by the kernel, at an address in user memory. -/
def storeByte (cr3 va : ℕ) (b : UInt8) : M Unit := do
  let f ← kernelFrame L cr3 va true
  modify fun s => { s with mem := Function.update s.mem f ((s.mem f).set (va % PGSIZE) b) }

/-- The store of an `int` by the kernel, at an address in user memory. -/
def storeInt (cr3 va w : ℕ) : M Unit := do
  storeByte L cr3 va (Bytes.digit w 0)
  storeByte L cr3 (va + 1) (Bytes.digit w 1)
  storeByte L cr3 (va + 2) (Bytes.digit w 2)
  storeByte L cr3 (va + 3) (Bytes.digit w 3)

/-- `sys_pipe` with the argument `fd`. -/
def sysPipe (p : Slot) (fd : ℕ) : K Bool := do
  let cur ← getProc p
  if argptr cur.sz fd 8 = none then return false
  match ← pipealloc L with
  | none => return false
  | some (rf, wf) =>
    match ← fdalloc p rf with
    | none =>
      fileclose L rf
      fileclose L wf
      return false
    | some fd0 =>
      match ← fdalloc p wf with
      | none =>
        setProc p fun q => { q with ofile := Function.update q.ofile fd0 none }
        fileclose L rf
        fileclose L wf
        return false
      | some fd1 =>
        let d ← pgdirOf p
        vm (storeInt L d fd fd0)
        vm (storeInt L d (fd + 4) fd1)
        return true

/-- `sys_close` with the argument `fd`. -/
def sysClose (p : Slot) (fd : Fin NOFILE) : K Bool := do
  match (← getProc p).ofile fd with
  | none => return false
  | some x =>
    setProc p fun q => { q with ofile := Function.update q.ofile fd none }
    fileclose L x
    return true

/-- `sys_dup` with the argument `fd`. -/
def sysDup (p : Slot) (fd : Fin NOFILE) : K Bool := do
  match (← getProc p).ofile fd with
  | none => return false
  | some x =>
    match ← fdalloc p x with
    | none => return false
    | some _ =>
      filedup x
      return true

/-- `sys_open`, once it has the inode. -/
def sysOpen (p : Slot) (readable writable : Bool) : K Bool := do
  match ← filealloc with
  | none => return false
  | some x =>
    match ← fdalloc p x with
    | none =>
      fileclose L x
      return false
    | some _ =>
      setFile x fun f => { f with type := .inode, readable := readable, writable := writable }
      return true

/-! ### Processes -/

/-- `allocproc`. The slot counts as used when `fork` is through. -/
def allocproc : K (Option Slot) := do
  let s ← get
  match slots.find? fun p => (s.proc p).status = .unused with
  | none => return none
  | some p =>
    let k ← vm kalloc
    setProc p fun q => { q with kstack := k }
    match k with
    | none => return none
    | some _ => return some p

/-- The loop of `fork` over the open files. -/
def dupFiles (np : Slot) (ofile : Fin NOFILE → Option (Fin NFILE)) : List (Fin NOFILE) → K Unit
  | [] => return
  | fd :: fds => do
    match ofile fd with
    | none => dupFiles np ofile fds
    | some x =>
      filedup x
      setProc np fun q => { q with ofile := Function.update q.ofile fd (some x) }
      dupFiles np ofile fds

def fork (p : Slot) : K (Option Slot) := do
  match ← allocproc with
  | none => return none
  | some np =>
    let cur ← getProc p
    let pgdir ← vm (copyuvm L (← pgdirOf p) cur.sz)
    setProc np fun q => { q with pgdir := pgdir }
    match pgdir with
    | none =>
      match (← getProc np).kstack with
      | none => throw .kfree
      | some k =>
        vm (kfree L k)
        setProc np fun q => { q with kstack := none }
        return none
    | some _ =>
      setProc np fun q => { q with sz := cur.sz, parent := some p }
      dupFiles np cur.ofile (List.finRange NOFILE)
      setProc np fun q => { q with status := .live }
      return some np

/-- The loop of `exit` over the open files. -/
def closeFiles (p : Slot) : List (Fin NOFILE) → K Unit
  | [] => return
  | fd :: fds => do
    match (← getProc p).ofile fd with
    | none => closeFiles p fds
    | some x =>
      fileclose L x
      setProc p fun q => { q with ofile := Function.update q.ofile fd none }
      closeFiles p fds

def exit (p : Slot) : K Unit := do
  let s ← get
  if p = s.initproc then throw .initExiting
  closeFiles L p (List.finRange NOFILE)
  modify fun s =>
    { s with proc := fun q =>
        if (s.proc q).parent = some p then { s.proc q with parent := some s.initproc }
        else s.proc q }
  setProc p fun q => { q with status := .zombie }

/-- `wait`. If no child is a zombie then the caller gets `-1` or sleeps, and nothing else
happens. -/
def wait (p : Slot) : K (Option Slot) := do
  let s ← get
  match slots.find? fun q => (s.proc q).parent = some p ∧ (s.proc q).status = .zombie with
  | none => return none
  | some q =>
    match (s.proc q).kstack with
    | none => throw .kfree
    | some k =>
      vm (kfree L k)
      setProc q fun r => { r with kstack := none }
      vm (freevm L (s.proc q).pgdir)
      setProc q fun r => { r with parent := none, status := .unused }
      return some q

/-- `growproc` with the `int` `n`. -/
def growproc (p : Slot) (n : BitVec 32) : K Bool := do
  let cur ← getProc p
  let d ← pgdirOf p
  let newsz := (cur.sz + n.toNat) % 2 ^ 32
  let sz ←
    if n.toInt > 0 then vm (allocuvm L d cur.sz newsz)
    else if n.toInt < 0 then vm (deallocuvm L d cur.sz newsz)
    else pure cur.sz
  if n ≠ 0 ∧ sz = 0 then return false
  setProc p fun q => { q with sz := sz }
  return true

/-- The loop of `sys_exec` over the argument pointers. -/
def fetchArgv (cr3 sz uargv : ℕ) : ℕ → ℕ → M (Option (List (List UInt8)))
  | 0, _ => return none
  | n + 1, i => do
    match ← fetchint L cr3 sz ((uargv + 4 * i) % 2 ^ 32) with
    | none => return none
    | some uarg =>
      if uarg = 0 then return some []
      match ← fetchstr L cr3 sz uarg with
      | none => return none
      | some s =>
        match ← fetchArgv cr3 sz uargv n (i + 1) with
        | none => return none
        | some argv => return some (s :: argv)

/-- `sys_exec`; `ip` is the file that the path leads to. -/
def sysExec (p : Slot) (ip : Option Image) (uargv : ℕ) : K Bool := do
  let cur ← getProc p
  let d ← pgdirOf p
  match ← vm (fetchArgv L d cur.sz uargv MAXARG 0) with
  | none => return false
  | some argv =>
    match ip with
    | none => return false
    | some ip =>
      match ← vm (exec L d ip argv) with
      | none => return false
      | some img =>
        setProc p fun q => { q with pgdir := some img.pgdir, sz := img.sz }
        vm (freevm L cur.pgdir)
        return true

/-! ### The machine -/

/-- The loop of `startothers`. -/
def startothers : ℕ → K Unit
  | 0 => return
  | n + 1 => do
    match ← vm kalloc with
    | none => throw .fault
    | some stack =>
      modify fun s => { s with cpuStacks := stack :: s.cpuStacks }
      startothers n

def userinit (init : ℕ → UInt8) (size : ℕ) : K Unit := do
  match ← allocproc with
  | none => throw .fault
  | some p =>
    modify fun s => { s with initproc := p }
    match ← vm (setupkvm L) with
    | none => throw .userinit
    | some d =>
      setProc p fun q => { q with pgdir := some d }
      vm (inituvm d init size)
      setProc p fun q => { q with sz := PGSIZE, status := .live }

/-- `main`, on a machine with `n` other CPUs, with the program `initcode`. -/
def main (n : ℕ) (init : ℕ → UInt8) (size : ℕ) : K Unit := do
  vm (freerange L L.end_ (P2V (4 * 1024 * 1024)))
  match ← vm (setupkvm L) with
  | none => throw .fault
  | some d =>
    modify fun s => { s with kpgdir := some d }
    startothers n
    vm (freerange L (P2V (4 * 1024 * 1024)) (P2V PHYSTOP))
    userinit L init size

/-- The state before `main`: the kernel's variables are `0`, and memory is anything. -/
def reset (m : Mem) : State where
  phys := { mem := m, freelist := 0 }
  kpgdir := none
  cpuStacks := []
  initproc := 0
  proc := fun _ =>
    { status := .unused, sz := 0, pgdir := none, kstack := none, parent := none,
      ofile := fun _ => none }
  file := fun _ => { ref := 0, type := .none, readable := false, writable := false, pipe := 0 }

/-- What happens after `main`. -/
inductive Event
  | fork (p : Slot)
  | exec (p : Slot) (ip : Option Image) (uargv : BitVec 32)
  | sbrk (p : Slot) (n : BitVec 32)
  | pipe (p : Slot) (fd : BitVec 32)
  | close (p : Slot) (fd : Fin NOFILE)
  | dup (p : Slot) (fd : Fin NOFILE)
  | open (p : Slot) (readable writable : Bool)
  | exit (p : Slot)
  | wait (p : Slot)
  /-- The process itself stores a byte. -/
  | store (p : Slot) (va : ℕ) (b : UInt8)

/-- The state in which a program ends, unless the kernel stops. -/
def final {α : Type} (x : K α) (s : State) : Option State :=
  match x s with
  | .ok _ s' => some s'
  | .error _ _ => none

/-- A system call of process `p`, unless the kernel stops. -/
def State.call {α : Type} (s : State) (p : Slot) (x : K α) : Option State :=
  if (s.proc p).status = .live then final x s else none

/-- A store of process `p` in user mode, if it does not fault. -/
def userStore (p : Slot) (va : ℕ) (b : UInt8) : K Unit := do
  let d ← pgdirOf p
  let pte := (← get).phys.mem.pte d (va / PGSIZE)
  if va < 2 ^ 32 ∧ Present pte ∧ Writable pte ∧ User pte then
    vm (modify fun s =>
      { s with mem := Function.update s.mem (frame pte) ((s.mem (frame pte)).set (va % PGSIZE) b) })
  else throw .fault

/-- The machine. -/
def step (s : State) : Event → Option State
  | .fork p => s.call p (fork L p)
  | .exec p ip uargv => s.call p (sysExec L p ip uargv.toNat)
  | .sbrk p n => s.call p (growproc L p n)
  | .pipe p fd => s.call p (sysPipe L p fd.toNat)
  | .close p fd => s.call p (sysClose L p fd)
  | .dup p fd => s.call p (sysDup p fd)
  | .open p readable writable => s.call p (sysOpen L p readable writable)
  | .exit p => s.call p (exit L p)
  | .wait p => s.call p (wait L p)
  | .store p va b => s.call p (userStore p va b)

/-- The state after `main`. -/
def boot (n : ℕ) (init : ℕ → UInt8) (size : ℕ) (m : Mem) : Option State :=
  final (main L n init size) (reset m)

end Vm

end Xv6
