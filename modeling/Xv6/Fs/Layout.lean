import Xv6.Disk

/-!
# The on-disk format

`fs.h`: the superblock, inodes, the free bitmap and directory entries, with the functions that find
them in the blocks of a disk. A `struct dinode` is 64 bytes and a `struct dirent` 16 bytes; numbers
are little-endian.

## Main definitions

* `Superblock` — a layout, with its areas in order
* `Dinode`, `dinodeAt`, `putDinode` — the inode table
* `bitAt`, `markAt` — the free bitmap
* `Dirent` — directory entries

## Main results

* `dinodeAt_putDinode`, `bitAt_markAt` — what was stored is found again and nothing else changes
-/

namespace Xv6

namespace Fs

/-- The superblock. Boot block, superblock and log come first, then the inode blocks, the bitmap and
the data blocks, as `mkfs` lays them out. -/
structure Superblock where
  /-- Size of the file system in blocks. -/
  size : ℕ
  /-- Number of data blocks. -/
  nblocks : ℕ
  /-- Number of inodes. -/
  ninodes : ℕ
  /-- First inode block. -/
  inodestart : ℕ
  /-- First block of the bitmap. -/
  bmapstart : ℕ
  inodes_le : inodestart + ninodes / IPB + 1 ≤ bmapstart
  bitmap_le : bmapstart + size / BPB + 1 ≤ size - nblocks
  /-- Block numbers are kept in an `int`. -/
  size_lt : size < 2 ^ 31
  root_lt : ROOTINO < ninodes
  /-- Inode numbers are kept in a `ushort`. -/
  ninodes_le : ninodes ≤ 2 ^ 16

namespace Superblock

variable (sb : Superblock)

/-- The number of blocks before the data blocks. -/
def nmeta : ℕ := sb.size - sb.nblocks

/-- `IBLOCK`. -/
def iblock (i : ℕ) : ℕ := i / IPB + sb.inodestart

/-- `BBLOCK`. -/
def bblock (b : ℕ) : ℕ := b / BPB + sb.bmapstart

theorem bmapstart_lt : sb.bmapstart < sb.nmeta :=
  Nat.lt_of_lt_of_le (Nat.lt_succ_of_le (Nat.le_add_right ..)) sb.bitmap_le

theorem nmeta_pos : 0 < sb.nmeta := Nat.zero_lt_of_lt sb.bmapstart_lt

theorem iblock_lt {i : ℕ} (hi : i < sb.ninodes) : sb.iblock i < sb.bmapstart := by
  have := sb.inodes_le
  have : i / IPB ≤ sb.ninodes / IPB := Nat.div_le_div_right hi.le
  unfold iblock
  omega

theorem bmapstart_le_bblock (b : ℕ) : sb.bmapstart ≤ sb.bblock b := Nat.le_add_left ..

theorem bblock_lt {b : ℕ} (hb : b < sb.size) : sb.bblock b < sb.nmeta := by
  have := sb.bitmap_le
  have : b / BPB ≤ sb.size / BPB := Nat.div_le_div_right hb.le
  unfold bblock nmeta
  omega

theorem iblock_lt_nmeta {i : ℕ} (hi : i < sb.ninodes) : sb.iblock i < sb.nmeta :=
  (sb.iblock_lt hi).trans sb.bmapstart_lt

end Superblock

/-! ### Inodes -/

/-- `T_DIR`. -/
abbrev T_DIR : UInt16 := 1

/-- `T_FILE`. -/
abbrev T_FILE : UInt16 := 2

/-- `T_DEV`. -/
abbrev T_DEV : UInt16 := 3

/-- `struct dinode`. The `short`s are kept as their 16 bits. -/
@[ext] structure Dinode where
  type : UInt16
  major : UInt16
  minor : UInt16
  nlink : UInt16
  size : UInt32
  addrs : Fin (NDIRECT + 1) → UInt32
  deriving DecidableEq

namespace Dinode

/-- What `memset` leaves. -/
def zero : Dinode := ⟨0, 0, 0, 0, 0, fun _ => 0⟩

/-- A block address by number, `0` out of range. -/
def addr (d : Dinode) (j : ℕ) : UInt32 := if h : j < NDIRECT + 1 then d.addrs ⟨j, h⟩ else 0

/-- Assign to `addrs[j]`. -/
def setAddr (d : Dinode) (j : Fin (NDIRECT + 1)) (b : UInt32) : Dinode :=
  { d with addrs := Function.update d.addrs j b }

/-- The bytes of the structure in memory. -/
def byte (d : Dinode) (k : ℕ) : UInt8 :=
  if k < 2 then Bytes.digit d.type.toNat k
  else if k < 4 then Bytes.digit d.major.toNat (k - 2)
  else if k < 6 then Bytes.digit d.minor.toNat (k - 4)
  else if k < 8 then Bytes.digit d.nlink.toNat (k - 6)
  else if k < 12 then Bytes.digit d.size.toNat (k - 8)
  else Bytes.digit (d.addr ((k - 12) / 4)).toNat ((k - 12) % 4)

/-- The structure at an offset of a block. -/
def ofBlock (blk : Block) (off : ℕ) : Dinode where
  type := UInt16.ofNat (blk.num off 2)
  major := UInt16.ofNat (blk.num (off + 2) 2)
  minor := UInt16.ofNat (blk.num (off + 4) 2)
  nlink := UInt16.ofNat (blk.num (off + 6) 2)
  size := UInt32.ofNat (blk.num (off + 8) 4)
  addrs j := UInt32.ofNat (blk.num (off + 12 + 4 * j) 4)

/-- A field that is stored is loaded again. -/
theorem num_blit_byte {blk : Block} {d : Dinode} {off a k v : ℕ} (hoff : off + 64 ≤ BSIZE)
    (hak : a + k ≤ 64) (hbyte : ∀ j < k, d.byte (a + j) = Bytes.digit v j) (hv : v < 256 ^ k) :
    (blk.blit off 64 d.byte).num (off + a) k = v := by
  rw [Bytes.num_of_digits (v := v) fun j hj => ?_, Nat.mod_eq_of_lt hv]
  rw [Nat.add_assoc, Bytes.get_blit_of_lt (by omega) (by omega), hbyte j hj]

theorem ofBlock_blit (blk : Block) (d : Dinode) {off : ℕ} (hoff : off + 64 ≤ BSIZE) :
    ofBlock (blk.blit off 64 d.byte) off = d := by
  have h16 : ∀ {a : ℕ} (x : UInt16), a + 2 ≤ 64 →
      (∀ j < 2, d.byte (a + j) = Bytes.digit x.toNat j) →
      UInt16.ofNat ((blk.blit off 64 d.byte).num (off + a) 2) = x := fun x ha hx => by
    rw [num_blit_byte hoff ha hx (UInt16.toNat_lt x), UInt16.ofNat_toNat]
  have h32 : ∀ {a : ℕ} (x : UInt32), a + 4 ≤ 64 →
      (∀ j < 4, d.byte (a + j) = Bytes.digit x.toNat j) →
      UInt32.ofNat ((blk.blit off 64 d.byte).num (off + a) 4) = x := fun x ha hx => by
    rw [num_blit_byte hoff ha hx (UInt32.toNat_lt x), UInt32.ofNat_toNat]
  ext1
  · exact h16 (a := 0) d.type (by omega) fun j hj => by
      rw [Nat.zero_add, byte, if_pos hj]
  · exact h16 d.major (by omega) fun j hj => by
      rw [byte, if_neg (by omega), if_pos (by omega), Nat.add_sub_cancel_left]
  · exact h16 d.minor (by omega) fun j hj => by
      rw [byte, if_neg (by omega), if_neg (by omega), if_pos (by omega), Nat.add_sub_cancel_left]
  · exact h16 d.nlink (by omega) fun j hj => by
      rw [byte, if_neg (by omega), if_neg (by omega), if_neg (by omega), if_pos (by omega),
        Nat.add_sub_cancel_left]
  · exact h32 d.size (by omega) fun j hj => by
      rw [byte, if_neg (by omega), if_neg (by omega), if_neg (by omega), if_neg (by omega),
        if_pos (by omega), Nat.add_sub_cancel_left]
  · funext i
    have hi : i.val < 13 := i.isLt
    have h := h32 (a := 12 + 4 * i) (d.addrs i) (by omega) fun j hj => by
      rw [byte, if_neg (by omega), if_neg (by omega), if_neg (by omega), if_neg (by omega),
        if_neg (by omega), show (12 + 4 * i.val + j - 12) / 4 = i by omega,
        show (12 + 4 * i.val + j - 12) % 4 = j by omega, addr, dif_pos hi]
    rwa [← Nat.add_assoc] at h

/-- A structure in another place of the block is not affected. -/
theorem ofBlock_blit_of_disjoint (blk : Block) (src : ℕ → UInt8) {off off' : ℕ}
    (h : off' + 64 ≤ off ∨ off + 64 ≤ off') :
    ofBlock (blk.blit off 64 src) off' = ofBlock blk off' := by
  have hnum : ∀ a k, a + k ≤ 64 → (blk.blit off 64 src).num (off' + a) k = blk.num (off' + a) k :=
    fun a k hak => Bytes.num_blit_of_disjoint blk src (by omega)
  ext1
  · exact congrArg UInt16.ofNat (hnum 0 2 (by omega))
  · exact congrArg UInt16.ofNat (hnum 2 2 (by omega))
  · exact congrArg UInt16.ofNat (hnum 4 2 (by omega))
  · exact congrArg UInt16.ofNat (hnum 6 2 (by omega))
  · exact congrArg UInt32.ofNat (hnum 8 4 (by omega))
  · funext i
    have hi : i.val < 13 := i.isLt
    have := hnum (12 + 4 * i) 4 (by omega)
    rw [← Nat.add_assoc] at this
    exact congrArg UInt32.ofNat this

end Dinode

section

variable (sb : Superblock)

/-- The inode with a number, on a disk. -/
def dinodeAt (d : Disk) (i : ℕ) : Dinode := Dinode.ofBlock (d (sb.iblock i)) (64 * (i % IPB))

/-- Store an inode. -/
def putDinode (d : Disk) (i : ℕ) (n : Dinode) : Disk :=
  Function.update d (sb.iblock i) ((d (sb.iblock i)).blit (64 * (i % IPB)) 64 n.byte)

variable {sb} {d : Disk}

theorem dinodeAt_putDinode (i j : ℕ) (n : Dinode) :
    dinodeAt sb (putDinode sb d i n) j = if j = i then n else dinodeAt sb d j := by
  have hoff : ∀ x : ℕ, 64 * (x % IPB) + 64 ≤ BSIZE := fun x => by
    have : x % IPB < IPB := Nat.mod_lt x (by decide)
    simp only [IPB, BSIZE] at *
    omega
  unfold dinodeAt putDinode
  by_cases hblk : sb.iblock j = sb.iblock i
  · rw [hblk, Function.update_self]
    split
    · rename_i hji
      rw [hji, Dinode.ofBlock_blit _ _ (hoff i)]
    · rename_i hji
      refine Dinode.ofBlock_blit_of_disjoint _ _ ?_
      have hdiv : j / IPB = i / IPB := by
        unfold Superblock.iblock at hblk
        omega
      have := Nat.div_add_mod j IPB
      have := Nat.div_add_mod i IPB
      have hmod : j % IPB ≠ i % IPB :=
        fun h => hji (by rw [← Nat.div_add_mod j IPB, hdiv, h]; omega)
      omega
  · rw [Function.update_of_ne hblk, if_neg (by rintro rfl; exact hblk rfl)]

theorem putDinode_of_ne {i b : ℕ} (n : Dinode) (h : b ≠ sb.iblock i) :
    putDinode sb d i n b = d b := Function.update_of_ne h ..

theorem dinodeAt_congr {d' : Disk} {i : ℕ} (h : d' (sb.iblock i) = d (sb.iblock i)) :
    dinodeAt sb d' i = dinodeAt sb d i := by
  rw [dinodeAt, dinodeAt, h]

end

/-! ### The free bitmap -/

/-- Bit `i` of a block of the bitmap. -/
def bit (blk : Block) (i : ℕ) : Bool := (blk.get (i / 8)).toNat &&& 1 <<< (i % 8) ≠ 0

/-- `bp->data[bi/8] |= m`. -/
def setBit (blk : Block) (i : ℕ) : Block :=
  blk.blit (i / 8) 1 fun _ => UInt8.ofNat ((blk.get (i / 8)).toNat ||| 1 <<< (i % 8))

theorem bit_eq_testBit (blk : Block) (i : ℕ) :
    bit blk i = (blk.get (i / 8)).toNat.testBit (i % 8) := by
  rw [bit, Nat.one_shiftLeft, Nat.and_two_pow]
  cases (blk.get (i / 8)).toNat.testBit (i % 8) <;> simp

/-- Storing a byte affects its own eight bits. -/
theorem bit_blit {blk : Block} {i j v : ℕ} (hi : i < BPB) :
    bit (blk.blit (i / 8) 1 fun _ => UInt8.ofNat v) j =
      if j / 8 = i / 8 then v.testBit (j % 8) else bit blk j := by
  have hi' : i / 8 < BSIZE := by
    simp only [BPB, BSIZE] at *
    omega
  have hj : j % 8 < 8 := Nat.mod_lt j (by decide)
  rw [bit_eq_testBit, bit_eq_testBit]
  split
  · rename_i h
    rw [h, Bytes.get_blit, if_pos ⟨le_rfl, by omega, hi'⟩, UInt8.toNat_ofNat',
      Nat.testBit_mod_two_pow, decide_eq_true hj, Bool.true_and]
  · rw [Bytes.get_blit_of_outside (by omega)]

theorem ne_iff_of_div_eq {i j : ℕ} (h : j / 8 = i / 8) : j = i ↔ i % 8 = j % 8 := by omega

theorem bit_setBit {blk : Block} {i : ℕ} (hi : i < BPB) (j : ℕ) :
    bit (setBit blk i) j = (bit blk j || decide (j = i)) := by
  rw [setBit, bit_blit hi]
  split
  · rename_i h
    rw [bit_eq_testBit, h, Nat.testBit_or, Nat.one_shiftLeft, Nat.testBit_two_pow,
      decide_eq_decide.mpr (ne_iff_of_div_eq h)]
  · rename_i h
    rw [decide_eq_false (by rintro rfl; exact h rfl), Bool.or_false]

section

variable (sb : Superblock)

/-- The bit of block `b`: is it in use? -/
def bitAt (d : Disk) (b : ℕ) : Bool := bit (d (sb.bblock b)) (b % BPB)

/-- Mark block `b` in use. -/
def markAt (d : Disk) (b : ℕ) : Disk :=
  Function.update d (sb.bblock b) (setBit (d (sb.bblock b)) (b % BPB))

variable {sb} {d : Disk}

theorem mod_eq_iff_of_bblock_eq {b c : ℕ} (h : sb.bblock c = sb.bblock b) :
    c % BPB = b % BPB ↔ c = b := by
  have hdiv : c / BPB = b / BPB := by
    unfold Superblock.bblock at h
    omega
  refine ⟨fun hmod => ?_, fun h => h ▸ rfl⟩
  rw [← Nat.div_add_mod c BPB, hdiv, hmod, Nat.div_add_mod]

theorem bitAt_markAt (b c : ℕ) : bitAt sb (markAt sb d b) c = (bitAt sb d c || decide (c = b)) := by
  have hlt : b % BPB < BPB := Nat.mod_lt b (by decide)
  unfold bitAt markAt
  by_cases hblk : sb.bblock c = sb.bblock b
  · rw [hblk, Function.update_self, bit_setBit hlt,
      decide_eq_decide.mpr (mod_eq_iff_of_bblock_eq hblk)]
  · rw [Function.update_of_ne hblk, decide_eq_false (by rintro rfl; exact hblk rfl), Bool.or_false]

theorem bitAt_congr {d' : Disk} {b : ℕ} (h : d' (sb.bblock b) = d (sb.bblock b)) :
    bitAt sb d' b = bitAt sb d b := by
  rw [bitAt, bitAt, h]

end

/-! ### Directory entries -/

/-- `struct dirent`. -/
@[ext] structure Dirent where
  inum : UInt16
  name : Bytes DIRSIZ
  deriving DecidableEq

namespace Dirent

/-- The bytes of the structure in memory. -/
def byte (de : Dirent) (k : ℕ) : UInt8 :=
  if k < 2 then Bytes.digit de.inum.toNat k else de.name.get (k - 2)

end Dirent

end Fs

end Xv6
