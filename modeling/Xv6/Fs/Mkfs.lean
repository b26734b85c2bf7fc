import Xv6.Fs.State

/-!
# The image that `mkfs` writes

`mkfs.c`: the root directory, one file for each argument, and the bitmap. The image starts out as
zeros; blocks and inodes are handed out in order.

## Main definitions

* `mkfsSb` — the superblock
* `mkfs` — the image for a list of files, if no assertion fails
-/

namespace Xv6

namespace Fs

/-- `NINODES`. -/
abbrev NINODES : ℕ := 200

/-- `ninodeblocks`. -/
abbrev ninodeblocks : ℕ := NINODES / IPB + 1

/-- `nbitmap`. -/
abbrev nbitmap : ℕ := FSSIZE / (BSIZE * 8) + 1

/-- `nmeta`. -/
abbrev nmeta : ℕ := 2 + LOGSIZE + ninodeblocks + nbitmap

/-- The superblock that `mkfs` writes. -/
def mkfsSb : Superblock where
  size := FSSIZE
  nblocks := FSSIZE - nmeta
  ninodes := NINODES
  inodestart := 2 + LOGSIZE
  bmapstart := 2 + LOGSIZE + ninodeblocks
  inodes_le := by decide
  bitmap_le := by decide
  size_lt := by decide
  root_lt := by decide
  ninodes_le := by decide

/-- The block with the superblock. -/
def sbBlock : Block :=
  [FSSIZE, FSSIZE - nmeta, NINODES, LOGSIZE, 2, 2 + LOGSIZE, 2 + LOGSIZE + ninodeblocks].foldl
    (fun (x : Block × ℕ) v => (x.1.setUint (4 * x.2) v, x.2 + 1)) (Bytes.zero _, 0) |>.1

/-- The variables of `mkfs`: the image file with its length in sectors, `freeinode` and
`freeblock`. -/
structure Img where
  disk : Disk
  len : ℕ
  freeinode : ℕ
  freeblock : ℕ

namespace Img

/-- The sector that `lseek` goes to: `sec * BSIZE` is a `uint`. -/
def pos (sec : ℕ) : ℕ := sec * BSIZE % 2 ^ 32 / BSIZE

/-- `rsect`; behind the end of the image there is nothing to read. -/
def rsect (m : Img) (sec : ℕ) : Option Block :=
  if pos sec < m.len then some (m.disk (pos sec)) else none

def wsect (m : Img) (sec : ℕ) (buf : Block) : Img :=
  { m with disk := Function.update m.disk (pos sec) buf, len := max m.len (pos sec + 1) }

def winode (m : Img) (inum : ℕ) (din : Dinode) : Option Img := do
  let buf ← m.rsect (mkfsSb.iblock inum)
  return m.wsect (mkfsSb.iblock inum) (buf.blit (64 * (inum % IPB)) 64 din.byte)

def rinode (m : Img) (inum : ℕ) : Option Dinode := do
  let buf ← m.rsect (mkfsSb.iblock inum)
  return Dinode.ofBlock buf (64 * (inum % IPB))

/-- `ialloc`, with the number it returns. -/
def ialloc (m : Img) (type : UInt16) : Option (ℕ × Img) := do
  let m' ← { m with freeinode := m.freeinode + 1 }.winode m.freeinode
    { Dinode.zero with type := type, nlink := 1 }
  return (m.freeinode, m')

/-- `freeblock++`. -/
def newBlock (m : Img) : Img := { m with freeblock := m.freeblock + 1 }

/-- The block whose number is in the indirect block, allocated if need be. -/
def entryFor (m : Img) (din : Dinode) (fbn : ℕ) : Option (ℕ × Dinode × Img) := do
  let indirect ← m.rsect (din.addr NDIRECT).toNat
  if indirect.uint (4 * (fbn - NDIRECT)) = 0 then
    return (m.freeblock, din, m.newBlock.wsect (din.addr NDIRECT).toNat
      (indirect.setUint (4 * (fbn - NDIRECT)) m.freeblock))
  else return (indirect.uint (4 * (fbn - NDIRECT)), din, m)

/-- The block of a file that `iappend` writes to, allocated if need be. -/
def blockFor (m : Img) (din : Dinode) (fbn : ℕ) : Option (ℕ × Dinode × Img) :=
  if h : fbn < NDIRECT then
    if din.addr fbn = 0 then
      some (m.freeblock, din.setAddr ⟨fbn, Nat.lt_succ_of_lt h⟩ (UInt32.ofNat m.freeblock),
        m.newBlock)
    else some ((din.addr fbn).toNat, din, m)
  else if din.addr NDIRECT = 0 then
    m.newBlock.entryFor (din.setAddr (Fin.last NDIRECT) (UInt32.ofNat m.freeblock)) fbn
  else m.entryFor din fbn

/-- One round of the loop of `iappend`, which stores `n1` bytes at `off`. -/
def appendRound (m : Img) (din : Dinode) (off n1 : ℕ) (p : List UInt8) : Option (Dinode × Img) := do
  let (x, din, m) ← m.blockFor din (off / BSIZE)
  let buf ← m.rsect x
  return (din, m.wsect x (buf.blit (off - off / BSIZE * BSIZE) n1 fun k => p.getD k 0))

/-- The loop of `iappend` at `off`, with the bytes that are left. Every round stores at least one,
so `p.length` rounds are enough. -/
def iappendLoop : ℕ → Img → Dinode → ℕ → List UInt8 → Option (Img × Dinode × ℕ)
  | 0, m, din, off, _ => some (m, din, off)
  | fuel + 1, m, din, off, p =>
    if p = [] then some (m, din, off)
    else if off / BSIZE < MAXFILE then do
      let n1 := min p.length ((off / BSIZE + 1) * BSIZE - off)
      let (din, m) ← m.appendRound din off n1 p
      iappendLoop fuel m din (off + n1) (p.drop n1)
    else none

def iappend (m : Img) (inum : ℕ) (p : List UInt8) : Option Img := do
  let din ← m.rinode inum
  let (m, din, off) ← iappendLoop p.length m din din.size.toNat p
  m.winode inum { din with size := UInt32.ofNat off }

/-- The loop that copies a file: `read` returns its bytes in pieces of `sizeof(buf)`. -/
def copyFile : ℕ → Img → ℕ → List UInt8 → Option Img
  | 0, m, _, _ => some m
  | fuel + 1, m, inum, bytes =>
    if bytes = [] then some m
    else do
      let m ← m.iappend inum (bytes.take BSIZE)
      copyFile fuel m inum (bytes.drop BSIZE)

end Img

/-- The bytes of a directory entry. -/
def direntBytes (inum : ℕ) (name : List UInt8) : List UInt8 :=
  (List.range 16).map (Dirent.byte ⟨UInt16.ofNat inum, mkName name⟩)

/-- The name a file gets: a leading `'_'` is skipped, and what does not fit is cut off. -/
def fileName (arg : List UInt8) : List UInt8 :=
  (if (cstr arg).head? = some 95 then (cstr arg).tail else cstr arg).take DIRSIZ

/-- A file for `mkfs`: its name and its bytes. -/
abbrev Input := List UInt8 × List UInt8

/-- A file gets an inode, an entry in the root directory and its bytes. -/
def addFile (f : Input) (m : Img) : Option Img :=
  if slash ∈ cstr f.1 then none
  else do
    let (inum, m) ← m.ialloc T_FILE
    let m ← m.iappend ROOTINO (direntBytes inum (fileName f.1))
    m.copyFile f.2.length inum f.2

/-- The files, one after the other. -/
def addFiles : List Input → Img → Option Img
  | [], m => some m
  | f :: files, m => do addFiles files (← addFile f m)

/-- The bitmap with the first `used` blocks marked. -/
def usedMap (used : ℕ) : Block := (List.range used).foldl setBit (Bytes.zero _)

/-- The image when all sectors have been cleared and the superblock has been written. -/
def emptyImg : Img :=
  Img.wsect ⟨fun _ => Bytes.zero _, FSSIZE, 1, nmeta⟩ 1 sbBlock

/-- `main` of `mkfs` up to the files: the root directory with its first two entries. -/
def makeRoot : Option Img := do
  let (rootino, m) ← emptyImg.ialloc T_DIR
  -- assert(rootino == ROOTINO)
  if rootino = ROOTINO then
    let m ← m.iappend rootino (direntBytes rootino [46])
    m.iappend rootino (direntBytes rootino [46, 46])
  else none

/-- The root directory with its size made a number of full blocks. -/
def rounded (din : Dinode) : Dinode :=
  { din with size := UInt32.ofNat ((din.size.toNat / BSIZE + 1) * BSIZE) }

/-- `main` of `mkfs` after the files: the size of the root directory is rounded up to full blocks,
and `balloc` writes the bitmap, for which one block has to be enough. -/
def finish (m : Img) : Option Img := do
  let din ← m.rinode ROOTINO
  let m ← m.winode ROOTINO (rounded din)
  if m.freeblock < BSIZE * 8 then return m.wsect mkfsSb.bmapstart (usedMap m.freeblock) else none

/-- `main` of `mkfs`, with the names and the bytes of the files; `none` if it does not get to
`exit(0)`. -/
def mkfs (files : List Input) : Option Img := do
  let m ← makeRoot
  let m ← addFiles files m
  finish m

end Fs

end Xv6
