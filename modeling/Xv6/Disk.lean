import Xv6.Param
import Xv6.Lib.Bytes

/-!
# Disk blocks

A disk is an array of blocks of `BSIZE` bytes. A single block is read or written as a whole; what
the kernel keeps in a block is stored as little-endian numbers of four bytes (`uint`, `int`) and two
bytes (`short`, `ushort`).
-/

namespace Xv6

/-- The contents of one disk block. -/
abbrev Block := Bytes BSIZE

/-- The contents of a disk. -/
abbrev Disk := ℕ → Block

namespace Block

/-- The `uint` at an offset. -/
def uint (b : Block) (off : ℕ) : ℕ := b.num off 4

/-- Store a `uint` at an offset. -/
def setUint (b : Block) (off v : ℕ) : Block := b.setNum off 4 v

theorem uint_setUint {b : Block} {off v : ℕ} (hoff : off + 4 ≤ BSIZE) (hv : v < 256 ^ 4) :
    (b.setUint off v).uint off = v :=
  b.num_setNum_of_lt hoff hv

theorem uint_setUint_of_disjoint {b : Block} {off v off' : ℕ}
    (h : off' + 4 ≤ off ∨ off + 4 ≤ off') : (b.setUint off v).uint off' = b.uint off' :=
  b.num_setNum_of_disjoint v h

end Block

end Xv6
