import Mathlib

/-!
# Sizes of the kernel tables

The constants of `param.h` and the on-disk constants of `fs.h` that the modelled code uses, under
the names the headers give them.
-/

namespace Xv6

/-- Maximum number of processes. -/
abbrev NPROC : Nat := 64

instance (priority := 3000) neZeroNPROC : NeZero NPROC := ⟨by decide⟩

/-- Maximum number of blocks any file-system operation writes. -/
abbrev MAXOPBLOCKS : Nat := 10

/-- Maximum number of data blocks in the on-disk log. -/
abbrev LOGSIZE : Nat := MAXOPBLOCKS * 3

/-- Size of the disk block cache. -/
abbrev NBUF : Nat := MAXOPBLOCKS * 3

instance (priority := 3000) neZeroNBUF : NeZero NBUF := ⟨by decide⟩

/-- Size of the file system in blocks. -/
abbrev FSSIZE : Nat := 1000

/-- Open files per process. -/
abbrev NOFILE : Nat := 16

instance (priority := 3000) neZeroNOFILE : NeZero NOFILE := ⟨by decide⟩

/-- Open files per system. -/
abbrev NFILE : Nat := 100

instance (priority := 3000) neZeroNFILE : NeZero NFILE := ⟨by decide⟩

/-- Maximum number of active inodes. -/
abbrev NINODE : Nat := 50

/-- Block size in bytes. -/
abbrev BSIZE : Nat := 512

/-- Direct block addresses of an inode. -/
abbrev NDIRECT : Nat := 12

/-- Block addresses in an indirect block. -/
abbrev NINDIRECT : Nat := BSIZE / 4

/-- Largest file, in blocks. -/
abbrev MAXFILE : Nat := NDIRECT + NINDIRECT

/-- Inodes per block. -/
abbrev IPB : Nat := BSIZE / 64

/-- Bitmap bits per block. -/
abbrev BPB : Nat := BSIZE * 8

/-- Bytes of a name in a directory entry. -/
abbrev DIRSIZ : Nat := 14

/-- Inode number of the root directory. -/
abbrev ROOTINO : Nat := 1

theorem LOGSIZE_eq : LOGSIZE = 30 := rfl

theorem BSIZE_eq : BSIZE = 512 := rfl

end Xv6
