import Xv6.Fs.State
import Xv6.Lib.Owner

/-!
# Blocks and the files they hold

A disk and a table `nodes` of inodes: `slots` is the map from places, an inode and the number of one
of its addresses, to blocks. The kernel and `mkfs` change the two in few ways. A place that has no
block is given one, either in the inode itself or in its indirect block; a block that holds data is
written; something is written that no inode knows of. For each there is what becomes of the places
and of the bytes of all files, if no block has two places.

## Main definitions

* `slots` — the block of a place
* `Apart` — no block has two places
* `NoHoles` — a file has all blocks below its size

## Main results

* `slots_setAddr`, `slots_setUint` — a place is given a block
* `fileByte_setAddr`, `fileByte_setUint` — the bytes of files stay as they are, if the block is
  blank
* `fileByte_write` — a block of data is written
-/

namespace Xv6

namespace Fs

/-- A place for the number of a block: an inode, and the number of one of its addresses. -/
abbrev Place := ℕ × ℕ

/-- The block of a place. -/
def slots (disk : Disk) (nodes : ℕ → Dinode) (a : Place) : ℕ := slot disk (nodes a.1) a.2

/-- No block has two places. -/
def Apart (disk : Disk) (nodes : ℕ → Dinode) : Prop :=
  ∀ {a b}, slots disk nodes a = slots disk nodes b → slots disk nodes a ≠ 0 → a = b

/-- A file has all blocks below its size. -/
def NoHoles (disk : Disk) (d : Dinode) : Prop :=
  ∀ bn, bn * BSIZE < d.size.toNat → slot disk d (dataIdx bn) ≠ 0

variable {disk disk' : Disk} {nodes : ℕ → Dinode} {d : Dinode} {i j k b bn off : ℕ}

/-! ### Addresses -/

theorem addr_setAddr (d : Dinode) (k : Fin (NDIRECT + 1)) (v : UInt32) (j : ℕ) :
    (d.setAddr k v).addr j = if j = k then v else d.addr j := by
  by_cases hj : j < NDIRECT + 1
  · simp only [Dinode.addr, Dinode.setAddr, dif_pos hj, Function.update_apply, Fin.ext_iff]
  · rw [Dinode.addr, dif_neg hj, if_neg (by rintro rfl; exact hj k.isLt), Dinode.addr, dif_neg hj]

theorem slot_of_le (hk : k ≤ NDIRECT) : slot disk d k = (d.addr k).toNat := if_pos hk

theorem slot_of_gt (hk : NDIRECT < k) (hk' : k ≤ MAXFILE) (h : slot disk d NDIRECT ≠ 0) :
    slot disk d k = (disk (slot disk d NDIRECT)).uint (4 * (k - (NDIRECT + 1))) := by
  rw [slot_of_le le_rfl] at h ⊢
  rw [slot, if_neg hk.not_ge, if_pos ⟨hk', fun h0 => h (by rw [h0]; rfl)⟩]

theorem slot_eq_zero (hk : NDIRECT < k) (h : slot disk d NDIRECT = 0) : slot disk d k = 0 := by
  rw [slot_of_le le_rfl] at h
  have h0 : d.addr NDIRECT = 0 := UInt32.toNat_inj.mp h
  rw [slot, if_neg hk.not_ge, if_neg fun hc => hc.2 h0]

theorem slot_of_gt_maxfile (hk : MAXFILE < k) : slot disk d k = 0 := by
  have : NDIRECT < k := lt_of_le_of_lt (Nat.le_add_right ..) hk
  rw [slot, if_neg this.not_ge, if_neg fun hc => hk.not_ge hc.1]

theorem slot_zero (disk : Disk) (k : ℕ) : slot disk Dinode.zero k = 0 := by
  by_cases hk : k ≤ NDIRECT
  · rw [slot_of_le hk, Dinode.addr]
    split <;> rfl
  · exact slot_eq_zero (not_le.mp hk) rfl

/-- The addresses of an inode depend on the disk through the indirect block only. -/
theorem slot_congr (h : slot disk d NDIRECT ≠ 0 →
    disk' (slot disk d NDIRECT) = disk (slot disk d NDIRECT)) : slot disk' d k = slot disk d k := by
  by_cases hk : k ≤ NDIRECT
  · rw [slot_of_le hk, slot_of_le hk]
  · have hind : slot disk' d NDIRECT = slot disk d NDIRECT := by
      rw [slot_of_le le_rfl, slot_of_le le_rfl]
    by_cases h0 : slot disk d NDIRECT = 0
    · rw [slot_eq_zero (not_le.mp hk) h0, slot_eq_zero (not_le.mp hk) (hind.trans h0)]
    · by_cases hk' : k ≤ MAXFILE
      · rw [slot_of_gt (not_le.mp hk) hk' (hind ▸ h0), slot_of_gt (not_le.mp hk) hk' h0, hind, h h0]
      · rw [slot_of_gt_maxfile (not_le.mp hk'), slot_of_gt_maxfile (not_le.mp hk')]

/-- Of an inode only the addresses matter. -/
theorem slot_addrs {d' : Dinode} (h : d'.addrs = d.addrs) : slot disk d' k = slot disk d k := by
  have haddr : d'.addr = d.addr := by
    funext j
    rw [Dinode.addr, Dinode.addr, h]
  rw [slot, slot, haddr]

theorem fileByte_addrs {d' : Dinode} (h : d'.addrs = d.addrs) :
    fileByte disk d' off = fileByte disk d off := by
  rw [fileByte, fileByte, slot_addrs h]

theorem dataIdx_injective : Function.Injective dataIdx := by
  intro m n h
  unfold dataIdx at h
  split at h <;> split at h <;> omega

theorem dataIdx_ne (bn : ℕ) : dataIdx bn ≠ NDIRECT := by
  unfold dataIdx
  split <;> omega

theorem lt_dataIdx (h : NDIRECT ≤ bn) : NDIRECT < dataIdx bn := by
  rw [dataIdx, if_neg (Nat.not_lt.mpr h)]
  exact Nat.lt_succ_of_le h

theorem NoHoles.size_le (h : NoHoles disk d) : d.size.toNat ≤ MAXFILE * BSIZE := by
  by_contra hlt
  exact h MAXFILE (not_le.mp hlt) (slot_of_gt_maxfile (Nat.lt_succ_self MAXFILE))

/-- All bytes below the size are in a block. -/
theorem NoHoles.slot_ne_zero (h : NoHoles disk d) (hoff : off < d.size.toNat) :
    slot disk d (dataIdx (off / BSIZE)) ≠ 0 :=
  h _ ((Nat.div_mul_le_self off BSIZE).trans_lt hoff)

/-! ### Writing to a block that is no indirect block -/

/-- What is written outside the indirect blocks does not change an address. -/
theorem slots_update {blk : Block} (h : ∀ i, slots disk nodes (i, NDIRECT) ≠ b ∨
    b = 0) (a : Place) :
    slots (Function.update disk b blk) nodes a = slots disk nodes a := by
  refine slot_congr fun h0 => Function.update_of_ne ?_ ..
  obtain hne | rfl := h a.1
  · exact hne
  · exact h0

/-! ### A place is given a block -/

theorem slot_setAddr_of_gt {v : UInt32} {l : ℕ} {k : Fin (NDIRECT + 1)} (hl : NDIRECT < l)
    (hk : k.val ≠ NDIRECT) : slot disk (d.setAddr k v) l = slot disk d l := by
  simp only [slot, if_neg hl.not_ge, addr_setAddr, if_neg hk.symm]

/-- An inode is given a block. If it is an indirect block then it is blank. -/
theorem slots_setAddr {k : Fin (NDIRECT + 1)} (hb : b < 2 ^ 32) (h0 : slots disk nodes (i, k) = 0)
    (hblank : disk b = Bytes.zero _) (a : Place) :
    slots disk (Function.update nodes i ((nodes i).setAddr k (UInt32.ofNat b))) a =
      if a = (i, k.val) then b else slots disk nodes a := by
  obtain ⟨j, l⟩ := a
  have hv : (UInt32.ofNat b).toNat = b := UInt32.toNat_ofNat_of_lt' hb
  by_cases hj : j = i
  · subst hj
    simp only [slots, Function.update_self, Prod.mk.injEq, true_and] at h0 ⊢
    by_cases hl : l ≤ NDIRECT
    · rw [slot_of_le hl, slot_of_le hl, addr_setAddr]
      split
      · exact hv
      · rfl
    · rw [if_neg (by rintro rfl; exact hl (Nat.le_of_lt_succ k.isLt))]
      by_cases hk : k.val = NDIRECT
      · rw [hk] at h0
        rw [slot_eq_zero (not_le.mp hl) h0]
        have hind : slot disk ((nodes j).setAddr k (UInt32.ofNat b)) NDIRECT = b := by
          rw [slot_of_le le_rfl, addr_setAddr, if_pos hk.symm, hv]
        by_cases hb0 : b = 0
        · exact slot_eq_zero (not_le.mp hl) (hind.trans hb0)
        by_cases hl' : l ≤ MAXFILE
        · rw [slot_of_gt (not_le.mp hl) hl' (by rwa [hind]), hind, hblank]
          exact Bytes.zero_num ..
        · exact slot_of_gt_maxfile (not_le.mp hl')
      · exact slot_setAddr_of_gt (not_le.mp hl) hk
  · rw [if_neg fun h => hj (congrArg Prod.fst h)]
    simp only [slots, Function.update_of_ne hj]

/-- An indirect block is given a block. -/
theorem slots_setUint (hap : Apart disk nodes) (hk : NDIRECT < k) (hk' : k ≤ MAXFILE)
    (hb : b < 2 ^ 32) (hx : slots disk nodes (i, NDIRECT) ≠ 0) (a : Place) :
    slots (Function.update disk (slots disk nodes (i, NDIRECT))
        (Block.setUint (disk (slots disk nodes (i, NDIRECT))) (4 * (k - (NDIRECT + 1))) b))
        nodes a =
      if a = (i, k) then b else slots disk nodes a := by
  obtain ⟨j, l⟩ := a
  generalize hx' : slots disk nodes (i, NDIRECT) = x at hx ⊢
  by_cases hj : j = i
  · subst hj
    simp only [Prod.mk.injEq, true_and]
    simp only [slots] at hx' ⊢
    by_cases hl : l ≤ NDIRECT
    · rw [if_neg (by omega), slot_of_le hl, slot_of_le hl]
    by_cases hl' : l ≤ MAXFILE
    · have hind : slot (Function.update disk x
          (Block.setUint (disk x) (4 * (k - (NDIRECT + 1))) b)) (nodes j) NDIRECT = x := by
        rw [slot_of_le le_rfl, ← @slot_of_le disk _ _ le_rfl, hx']
      rw [slot_of_gt (not_le.mp hl) hl' (by rwa [hind]), hind, Function.update_self]
      split
      · next h =>
        subst h
        refine Block.uint_setUint ?_ (by simpa using hb)
        simp only [MAXFILE, NDIRECT, NINDIRECT, BSIZE] at *
        omega
      · rw [Block.uint_setUint_of_disjoint (by omega),
          slot_of_gt (not_le.mp hl) hl' (by rwa [hx']), hx']
    · rw [if_neg (by omega), slot_of_gt_maxfile (not_le.mp hl'), slot_of_gt_maxfile (not_le.mp hl')]
  · rw [if_neg fun h => hj (congrArg Prod.fst h)]
    refine slot_congr fun h0 => Function.update_of_ne (fun h => hj ?_) ..
    exact congrArg Prod.fst (hap (a := (j, NDIRECT)) (b := (i, NDIRECT)) (h.trans hx'.symm) h0)

/-! ### Bytes -/

theorem fileByte_eq (disk : Disk) (nodes : ℕ → Dinode) (i off : ℕ) :
    fileByte disk (nodes i) off =
      if slots disk nodes (i, dataIdx (off / BSIZE)) = 0 then 0
      else (disk (slots disk nodes (i, dataIdx (off / BSIZE)))).get (off % BSIZE) := rfl

/-- A file reads as before if its blocks are the same, up to blank ones that have been added. -/
theorem fileByte_of_blank {nodes' : ℕ → Dinode}
    (h : slots disk' nodes' (i, dataIdx (off / BSIZE)) =
      slots disk nodes (i, dataIdx (off / BSIZE)) ∨
      slots disk nodes (i, dataIdx (off / BSIZE)) = 0 ∧
        disk' (slots disk' nodes' (i, dataIdx (off / BSIZE))) = Bytes.zero _)
    (hsame : slots disk nodes (i, dataIdx (off / BSIZE)) ≠ 0 →
      disk' (slots disk nodes (i, dataIdx (off / BSIZE))) =
        disk (slots disk nodes (i, dataIdx (off / BSIZE)))) :
    fileByte disk' (nodes' i) off = fileByte disk (nodes i) off := by
  rw [fileByte_eq disk' nodes', fileByte_eq disk nodes]
  obtain h | ⟨h0, hblank⟩ := h
  · rw [h]
    split
    · rfl
    · next h0 => rw [hsame h0]
  · rw [if_pos h0, hblank, Bytes.get_zero, ite_self]

/-- What is written to a block that is no place's does not show in a file. -/
theorem fileByte_update {blk : Block} (h : ∀ a, slots disk nodes a ≠ b ∨ b = 0) (i off : ℕ) :
    fileByte (Function.update disk b blk) (nodes i) off = fileByte disk (nodes i) off := by
  refine @fileByte_of_blank _ _ nodes _ _ nodes
    (.inl (slots_update (fun i => h (i, NDIRECT)) _)) fun h0 => Function.update_of_ne ?_ ..
  obtain hne | rfl := h (i, dataIdx (off / BSIZE))
  · exact hne
  · exact h0

theorem fileByte_setAddr {k : Fin (NDIRECT + 1)} (hb : b < 2 ^ 32)
    (h0 : slots disk nodes (i, k) = 0) (hblank : disk b = Bytes.zero _) (j off : ℕ) :
    fileByte disk (Function.update nodes i ((nodes i).setAddr k (UInt32.ofNat b)) j) off =
      fileByte disk (nodes j) off := by
  refine fileByte_of_blank ?_ fun _ => rfl
  rw [slots_setAddr hb h0 hblank]
  split
  · next h => exact .inr ⟨by rw [h, h0], hblank⟩
  · exact .inl rfl

theorem fileByte_setUint (hap : Apart disk nodes) (hk : NDIRECT < k) (hk' : k ≤ MAXFILE)
    (hb : b < 2 ^ 32) (hx : slots disk nodes (i, NDIRECT) ≠ 0) (h0 : slots disk nodes (i, k) = 0)
    (hblank : disk b = Bytes.zero _) (hne : b ≠ slots disk nodes (i, NDIRECT)) (j off : ℕ) :
    fileByte (Function.update disk (slots disk nodes (i, NDIRECT))
        (Block.setUint (disk (slots disk nodes (i, NDIRECT))) (4 * (k - (NDIRECT + 1))) b))
      (nodes j) off = fileByte disk (nodes j) off := by
  refine @fileByte_of_blank _ _ nodes _ _ nodes ?_ fun hd => ?_
  · rw [slots_setUint hap hk hk' hb hx]
    split
    · next h => exact .inr ⟨by rw [h, h0], by rw [Function.update_of_ne hne, hblank]⟩
    · exact .inl rfl
  · -- an indirect block holds no data
    refine Function.update_of_ne (fun h => dataIdx_ne (off / BSIZE) ?_) ..
    exact congrArg Prod.snd (hap h hd)

/-- **A block of data is written.** -/
theorem fileByte_write (hap : Apart disk nodes) (hx : slots disk nodes (i, dataIdx bn) ≠ 0)
    (o n : ℕ) (src : ℕ → UInt8) (j off : ℕ) :
    fileByte (Function.update disk (slots disk nodes (i, dataIdx bn))
        (Bytes.blit (disk (slots disk nodes (i, dataIdx bn))) o n src)) (nodes j) off =
      if j = i ∧ off / BSIZE = bn ∧ o ≤ off % BSIZE ∧ off % BSIZE < o + n then src (off % BSIZE - o)
      else fileByte disk (nodes j) off := by
  have hslots := @slots_update disk nodes (slots disk nodes (i, dataIdx bn))
    (Bytes.blit (disk (slots disk nodes (i, dataIdx bn))) o n src)
    fun i' => .inl fun h => dataIdx_ne bn (congrArg Prod.snd (hap h (h ▸ hx))).symm
  have hlt : off % BSIZE < BSIZE := Nat.mod_lt _ (by decide)
  rw [fileByte_eq _ nodes, fileByte_eq _ nodes, hslots]
  by_cases hhere : j = i ∧ off / BSIZE = bn
  · obtain ⟨rfl, rfl⟩ := hhere
    rw [if_neg hx, if_neg hx, Function.update_self, Bytes.get_blit]
    simp only [true_and, hlt, and_true]
  · have hcond : ¬ (j = i ∧ off / BSIZE = bn ∧ o ≤ off % BSIZE ∧ off % BSIZE < o + n) :=
      fun h => hhere ⟨h.1, h.2.1⟩
    rw [if_neg hcond]
    split
    · rfl
    · next h0 =>
      have hne : slots disk nodes (j, dataIdx (off / BSIZE)) ≠ slots disk nodes
          (i, dataIdx bn) := by
        intro h
        have heq := hap h h0
        exact hhere ⟨congrArg Prod.fst heq, dataIdx_injective (congrArg Prod.snd heq)⟩
      rw [Function.update_of_ne hne]

end Fs

end Xv6
