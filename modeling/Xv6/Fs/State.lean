import Xv6.Fs.Layout

/-!
# The state of the file system

The blocks of the disk as the buffer cache presents them, the inode cache and the table of open
files. A system call runs to its end before the next one starts, so the sleep-lock of an inode is a
flag: a process that finds it set is waiting for itself.

Below the state stand the functions that say what it means: the inode behind a number, the blocks of
an inode and the bytes of a file.

## Main definitions

* `State` — the state
* `State.eff` — the inode with a number, from the cache if it is there
* `slot`, `State.byteAt`, `State.node` — the contents of a file
-/

namespace Xv6

namespace Fs

/-- An element of `icache.inode`, in place of a pointer to it. -/
abbrev IPtr := Fin NINODE

/-- An element of `ftable.file`. -/
abbrev FPtr := Fin NFILE

/-- `struct inode`: the bookkeeping, and the copy `d` of the inode on disk. -/
structure Inode where
  inum : ℕ
  ref : ℕ
  locked : Bool
  valid : Bool
  d : Dinode

/-- The type of a `struct file`, with its pointer. -/
inductive FileKind
  | none
  | pipe
  | inode (ip : IPtr)
  deriving DecidableEq

/-- `struct file`. -/
structure File where
  ref : ℕ
  kind : FileKind
  readable : Bool
  writable : Bool
  off : UInt32

/-- Why a system call does not return. -/
inductive Halt
  /-- `balloc: out of blocks`. -/
  | outOfBlocks
  /-- `ilock`. -/
  | ilock
  /-- `ilock: no type`. -/
  | noType
  /-- `iunlock`. -/
  | iunlock
  /-- `bmap: out of range`. -/
  | bmap
  /-- `filewrite`. -/
  | fileKind
  /-- `short filewrite`. -/
  | shortWrite
  /-- Asleep in `acquiresleep` on a lock that the process itself holds. -/
  | deadlock
  /-- Asleep in `consoleread`. -/
  | noInput
  deriving DecidableEq, Repr

structure State where
  disk : Disk
  icache : IPtr → Inode
  ftable : FPtr → File
  /-- What has been typed at the console and not been read. -/
  console : List UInt8

/-! ### Blocks of an inode -/

/-- The block addresses that an inode has, by number: the direct ones, the indirect block, and the
entries of the indirect block. -/
def slot (disk : Disk) (d : Dinode) (k : ℕ) : ℕ :=
  if k ≤ NDIRECT then (d.addr k).toNat
  else if k ≤ MAXFILE ∧ d.addr NDIRECT ≠ 0 then
    (disk (d.addr NDIRECT).toNat).uint (4 * (k - (NDIRECT + 1)))
  else 0

/-- The number of the address of the `bn`-th block of a file. -/
def dataIdx (bn : ℕ) : ℕ := if bn < NDIRECT then bn else bn + 1

/-- The byte of a file at an offset. What was never allocated reads as `0`. -/
def fileByte (disk : Disk) (d : Dinode) (off : ℕ) : UInt8 :=
  let b := slot disk d (dataIdx (off / BSIZE))
  if b = 0 then 0 else (disk b).get (off % BSIZE)

/-- A file: what `struct dinode` says about it, with the bytes in place of their addresses. -/
@[ext] structure Node where
  type : UInt16
  major : UInt16
  minor : UInt16
  nlink : UInt16
  data : List UInt8
  deriving DecidableEq

/-! ### Names -/

/-- A name as a path element leaves it in `name[DIRSIZ]`. -/
def mkName (s : List UInt8) : Bytes DIRSIZ := Bytes.ofFn fun k => s.getD k 0

/-- `'/'`. -/
abbrev slash : UInt8 := 47

/-- A string ends at its first `NUL`. -/
def cstr (s : List UInt8) : List UInt8 := s.takeWhile (· ≠ 0)

namespace State

/-- The entry of the inode cache for a number, if it is in use. -/
def cached (s : State) (i : ℕ) : Option IPtr :=
  (List.finRange NINODE).find? fun p => 0 < (s.icache p).ref ∧ (s.icache p).inum = i

section

variable (sb : Superblock) (s : State)

/-- The inode with a number as the system sees it: the copy in the cache if it has been read, and
otherwise the one on disk. -/
def eff (i : ℕ) : Dinode :=
  match s.cached i with
  | some p => if (s.icache p).valid then (s.icache p).d else dinodeAt sb s.disk i
  | none => dinodeAt sb s.disk i

/-- The copy of the inode that `ilock` leaves in the cache. -/
def loaded (p : IPtr) : Dinode :=
  if (s.icache p).valid then (s.icache p).d else dinodeAt sb s.disk (s.icache p).inum

def byteAt (i off : ℕ) : UInt8 := fileByte s.disk (s.eff sb i) off

def node (i : ℕ) : Node where
  type := (s.eff sb i).type
  major := (s.eff sb i).major
  minor := (s.eff sb i).minor
  nlink := (s.eff sb i).nlink
  data := (List.range (s.eff sb i).size.toNat).map (s.byteAt sb i)

end

/-- Change an element of the inode cache. -/
def setInode (s : State) (p : IPtr) (n : Inode) : State :=
  { s with icache := Function.update s.icache p n }

/-- Change an element of the file table. -/
def setFile (s : State) (f : FPtr) (n : File) : State :=
  { s with ftable := Function.update s.ftable f n }

end State

end Fs

end Xv6
