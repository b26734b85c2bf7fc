import Xv6.Fs.State

/-!
# Files

The part of `fs.c` and `file.c` that reads and writes files, function by function, as programs that
read and change the state and stop at a `panic`. A block is read and written directly on the disk:
that the buffer cache and the log present it that way is the subject of `Xv6.Log`. There is one
disk, so device numbers are left out.

A `char*` that a function reads from is a function from offsets to bytes; a function that fills a
buffer returns it. A result of `-1` is `none`, or `false` where success carries no value.

## Main definitions

* `balloc` — the block allocator
* `iupdate`, `ilock`, `iunlock` — inodes
* `bmap`, `readi`, `writei` — their contents
* `filewrite` — open files
-/

namespace Xv6

namespace Fs

/-- Programs of the file system. -/
abbrev M := EStateM Halt State

/-- The fields of an inode in the cache. -/
def getInode (p : IPtr) : M Inode := return (← get).icache p

/-- Assign to fields of an inode in the cache. -/
def putInode (p : IPtr) (f : Inode → Inode) : M Unit :=
  modify fun s => s.setInode p (f (s.icache p))

/-- Assign to fields of the copy of the inode on disk. -/
def putDisk (p : IPtr) (f : Dinode → Dinode) : M Unit := putInode p fun n => { n with d := f n.d }

def bread (b : ℕ) : M Block := return (← get).disk b

/-- `log_write` of a buffer that has been changed. -/
def logWrite (b : ℕ) (blk : Block) : M Unit :=
  modify fun s => { s with disk := Function.update s.disk b blk }

variable (sb : Superblock)

/-! ### Blocks -/

def bzero (bno : ℕ) : M Unit := logWrite bno (Bytes.zero _)

/-- The outer loop of `balloc`, over the blocks of the bitmap. -/
def ballocLoop : List ℕ → M ℕ
  | [] => throw .outOfBlocks
  | j :: js => do
    let b := j * BPB
    let blk ← bread (sb.bblock b)
    match (List.range (min BPB (sb.size - b))).find? fun bi => !bit blk bi with
    | some bi =>
      logWrite (sb.bblock b) (setBit blk bi)
      bzero (b + bi)
      return b + bi
    | none => ballocLoop js

def balloc : M ℕ := ballocLoop sb (List.range ((sb.size + (BPB - 1)) / BPB))

/-! ### Inodes -/

def iupdate (p : IPtr) : M Unit :=
  modify fun s => { s with disk := putDinode sb s.disk (s.icache p).inum (s.icache p).d }

/-- `acquiresleep` on the lock of an inode. -/
def acquiresleep (p : IPtr) : M Unit := do
  if (← getInode p).locked then throw .deadlock
  putInode p fun n => { n with locked := true }

def releasesleep (p : IPtr) : M Unit := putInode p fun n => { n with locked := false }

def ilock (p : IPtr) : M Unit := do
  if (← getInode p).ref < 1 then throw .ilock
  acquiresleep p
  let s ← get
  if (s.icache p).valid = false then
    let d := dinodeAt sb s.disk (s.icache p).inum
    putInode p fun n => { n with d := d, valid := true }
    if d.type = 0 then throw .noType

def iunlock (p : IPtr) : M Unit := do
  let n ← getInode p
  if n.locked = false ∨ n.ref < 1 then throw .iunlock
  releasesleep p

/-! ### Contents of inodes -/

def bmap (p : IPtr) (bn : ℕ) : M ℕ := do
  let n ← getInode p
  if h : bn < NDIRECT then
    let addr := n.d.addr bn
    if addr = 0 then
      let b ← balloc sb
      putDisk p fun d => d.setAddr ⟨bn, Nat.lt_succ_of_lt h⟩ (UInt32.ofNat b)
      return b
    else return addr.toNat
  else if bn - NDIRECT < NINDIRECT then
    -- load indirect block, allocating if necessary
    let addr ← do
      if n.d.addr NDIRECT = 0 then
        let b ← balloc sb
        putDisk p fun d => d.setAddr (Fin.last NDIRECT) (UInt32.ofNat b)
        pure b
      else pure (n.d.addr NDIRECT).toNat
    let a ← bread addr
    if a.uint (4 * (bn - NDIRECT)) = 0 then
      let b ← balloc sb
      logWrite addr (a.setUint (4 * (bn - NDIRECT)) b)
      return b
    else return a.uint (4 * (bn - NDIRECT))
  else throw .bmap

/-- `CONSOLE`, the only device there is. -/
abbrev CONSOLE : UInt16 := 1

/-- The loop of `consoleread`: the bytes for the reader and the ones left. `got` says whether the
reader has any yet, so that a `^D` behind them is kept for the next call. -/
def takeLine : ℕ → Bool → List UInt8 → Option (List UInt8 × List UInt8)
  | 0, _, l => some ([], l)
  | _ + 1, _, [] => none
  | n + 1, got, c :: l =>
    if c = 4 then some ([], if got then c :: l else l)
    else if c = 10 then some ([c], l)
    else (takeLine n true l).map fun x => (c :: x.1, x.2)

def consoleread (p : IPtr) (n : ℕ) : M (Option (List UInt8)) := do
  iunlock p
  match takeLine n false (← get).console with
  | some (line, rest) =>
    modify fun s => { s with console := rest }
    ilock sb p
    return some line
  | none => throw .noInput

def consolewrite (p : IPtr) (n : UInt32) : M (Option UInt32) := do
  iunlock p
  ilock sb p
  return some n

/-- The loop of `readi`, with `n` bytes to go at `off`. Every round reads at least one byte, so the
bound on the rounds is never met. -/
def readLoop (p : IPtr) : ℕ → ℕ → ℕ → M (List UInt8)
  | 0, _, _ => return []
  | fuel + 1, off, n =>
    if n = 0 then return []
    else do
      let bp ← bread (← bmap sb p (off / BSIZE))
      let m := min n (BSIZE - off % BSIZE)
      let rest ← readLoop p fuel (off + m) (n - m)
      return (List.range m).map (fun k => bp.get (off % BSIZE + k)) ++ rest

def readi (p : IPtr) (off n : UInt32) : M (Option (List UInt8)) := do
  let ip ← getInode p
  if ip.d.type = T_DEV then
    if ip.d.major = CONSOLE then consoleread sb p n.toNat else return none
  else if off > ip.d.size ∨ off + n < off then return none
  else
    let n := if off + n > ip.d.size then ip.d.size - off else n
    return some (← readLoop sb p n.toNat off.toNat n.toNat)

/-- The loop of `writei`; the result is `off` at its end. -/
def writeLoop (p : IPtr) : ℕ → (ℕ → UInt8) → ℕ → ℕ → M ℕ
  | 0, _, off, _ => return off
  | fuel + 1, src, off, n =>
    if n = 0 then return off
    else do
      let b ← bmap sb p (off / BSIZE)
      let bp ← bread b
      let m := min n (BSIZE - off % BSIZE)
      logWrite b (bp.blit (off % BSIZE) m src)
      writeLoop p fuel (fun k => src (m + k)) (off + m) (n - m)

def writei (p : IPtr) (src : ℕ → UInt8) (off n : UInt32) : M (Option UInt32) := do
  let ip ← getInode p
  if ip.d.type = T_DEV then
    if ip.d.major = CONSOLE then consolewrite sb p n else return none
  else if off > ip.d.size ∨ off + n < off then return none
  else if off + n > UInt32.ofNat (MAXFILE * BSIZE) then return none
  else
    let off ← writeLoop sb p n.toNat src off.toNat n.toNat
    if n > 0 ∧ UInt32.ofNat off > (← getInode p).d.size then
      putDisk p fun d => { d with size := UInt32.ofNat off }
      iupdate sb p
    return some n

/-! ### Files -/

/-- The most that one transaction of `filewrite` writes. -/
def maxWrite : ℕ := (MAXOPBLOCKS - 1 - 1 - 2) / 2 * 512

/-- The loop of `filewrite`, with `n` bytes to go; the result says whether all were written. -/
def filewriteLoop (f : FPtr) (ip : IPtr) : ℕ → (ℕ → UInt8) → ℕ → M Bool
  | 0, _, n => return n = 0
  | fuel + 1, addr, n =>
    if n = 0 then return true
    else do
      let n1 := min n maxWrite
      ilock sb ip
      let r ← writei sb ip addr ((← get).ftable f).off (UInt32.ofNat n1)
      modify fun s => s.setFile f { s.ftable f with off := (s.ftable f).off + r.getD 0 }
      iunlock ip
      match r with
      | none => return false
      | some r =>
        if r ≠ UInt32.ofNat n1 then throw .shortWrite
        filewriteLoop f ip fuel (fun k => addr (n1 + k)) (n - n1)

def filewrite (f : FPtr) (addr : ℕ → UInt8) (n : ℕ) : M (Option ℕ) := do
  let ff := (← get).ftable f
  if ff.writable = false then return none
  else
    match ff.kind with
    | .inode ip => return if ← filewriteLoop sb f ip n addr n then some n else none
    | .pipe => return none
    | .none => throw .fileKind

end Fs

end Xv6
