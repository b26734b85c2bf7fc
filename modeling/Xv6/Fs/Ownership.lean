import Xv6.Fs.Traced

/-!
# Who owns a block

The bitmap and the addresses in all inodes agree on the blocks that are in use. A block that
`balloc` takes is nobody's and reads as zeros; once its number is stored in an inode or in an
indirect block, they agree again, and no file has changed.

## Main definitions

* `Owned` — no block is owned twice, and what is owned is marked in the bitmap

## Main results

* `Owned.giveAddr`, `Owned.giveEntry` — a block is allocated
* `Owned.write` — a block of data is written
-/

namespace Xv6

namespace Fs

variable {sb : Superblock} {lost : ℕ → Prop} {disk disk' : Disk} {nodes : ℕ → Dinode} {b i k : ℕ}

/-- No block is owned twice; the blocks before the data and those of the files are marked in the
bitmap. What else is marked there is `lost`. -/
structure Owned (sb : Superblock) (lost : ℕ → Prop) (disk : Disk) (nodes : ℕ → Dinode) : Prop where
  owns : Owns (slots disk nodes) (fun b => bitAt sb disk b = true ∧ ¬ lost b) sb.nmeta sb.size
  lost_marked : ∀ b < sb.size, lost b → bitAt sb disk b = true

namespace Owned

theorem apart (h : Owned sb lost disk nodes) : Apart disk nodes := h.owns.inj

/-- The blocks before the data are not in a file. -/
theorem ne_of_lt (h : Owned sb lost disk nodes) (hb : b < sb.nmeta) (a : Place) :
    slots disk nodes a ≠ b ∨ b = 0 := by
  by_cases h0 : slots disk nodes a = 0
  · exact (Nat.eq_zero_or_pos b).symm.imp_left fun hpos => by omega
  · have := (h.owns.range h0).1
    exact .inl (by omega)

/-- Only the places and the bitmap count. -/
theorem congr {nodes' : ℕ → Dinode} (h : Owned sb lost disk nodes)
    (hslots : ∀ a, slots disk' nodes' a = slots disk nodes a)
    (hbits : ∀ b < sb.size, bitAt sb disk' b = bitAt sb disk b) : Owned sb lost disk' nodes' := by
  refine ⟨h.owns.congr hslots fun b hb => by rw [hbits b hb], fun b hb hlost => ?_⟩
  rw [hbits b hb]
  exact h.lost_marked b hb hlost

end Owned

/-! ### A block is taken -/

namespace Taken

theorem lt_uint (ht : Taken sb disk b disk') : b < 2 ^ 32 := by
  have := ht.lt
  have := sb.size_lt
  omega

theorem blank (ht : Taken sb disk b disk') : disk' b = Bytes.zero _ := by
  rw [ht.eq, Function.update_self]

theorem not_used (ht : Taken sb disk b disk') : ¬(bitAt sb disk b = true ∧ ¬ lost b) := fun h => by
  have hfree := ht.free
  rw [h.1] at hfree
  cases hfree

theorem nmeta_le_block (ht : Taken sb disk b disk') (h : Owned sb lost disk nodes) : sb.nmeta ≤ b :=
  h.owns.le_of_not_used ht.lt ht.not_used

theorem ne_zero (ht : Taken sb disk b disk') (h : Owned sb lost disk nodes) : b ≠ 0 := by
  have := ht.nmeta_le_block h
  have := sb.nmeta_pos
  omega

/-- The block that is taken was nobody's. -/
theorem ne_slots (ht : Taken sb disk b disk') (h : Owned sb lost disk nodes) (a : Place) :
    slots disk nodes a ≠ b := h.owns.ne_of_not_used ht.not_used (ht.ne_zero h) a

theorem slots_eq (ht : Taken sb disk b disk') (h : Owned sb lost disk nodes) (a : Place) :
    slots disk' nodes a = slots disk nodes a := by
  have hmark : ∀ a, slots (markAt sb disk b) nodes a = slots disk nodes a :=
    slots_update fun i => h.ne_of_lt (sb.bblock_lt ht.lt) (i, NDIRECT)
  rw [ht.eq, slots_update fun i => .inl ?_, hmark]
  rw [hmark]
  exact ht.ne_slots h (i, NDIRECT)

theorem fileByte_eq (ht : Taken sb disk b disk') (h : Owned sb lost disk nodes) (i off : ℕ) :
    fileByte disk' (nodes i) off = fileByte disk (nodes i) off := by
  have hmark : ∀ a, slots (markAt sb disk b) nodes a = slots disk nodes a :=
    slots_update fun i => h.ne_of_lt (sb.bblock_lt ht.lt) (i, NDIRECT)
  rw [ht.eq, fileByte_update fun a => .inl ?_, markAt, fileByte_update]
  · exact h.ne_of_lt (sb.bblock_lt ht.lt)
  · rw [hmark]
    exact ht.ne_slots h a

theorem bitAt_eq (ht : Taken sb disk b disk') (h : Owned sb lost disk nodes) {c : ℕ}
    (hc : c < sb.size) :
    bitAt sb disk' c = (bitAt sb disk c || decide (c = b)) := by
  have hle := ht.nmeta_le_block h
  have hlt := sb.bblock_lt hc
  rw [ht.eq, bitAt_congr (Function.update_of_ne (by omega) ..), bitAt_markAt]

theorem dinodeAt_eq (ht : Taken sb disk b disk') (h : Owned sb lost disk nodes) {j : ℕ}
    (hj : j < sb.ninodes) : dinodeAt sb disk' j = dinodeAt sb disk j := by
  have hle := ht.nmeta_le_block h
  have hlt := sb.iblock_lt hj
  have hlt' := sb.iblock_lt_nmeta hj
  have hbm := sb.bmapstart_le_bblock b
  refine dinodeAt_congr ?_
  rw [ht.eq, Function.update_of_ne (by omega), markAt, Function.update_of_ne (by omega)]

end Taken

/-! ### A block is given to a file -/

namespace Owned

/-- The bitmap after a block has been taken. -/
theorem assign (h : Owned sb lost disk nodes) (ht : Taken sb disk b disk') {a : Place}
    {disk₂ : Disk} {nodes' : ℕ → Dinode} (ha : slots disk nodes a = 0)
    (hslots : ∀ c, slots disk₂ nodes' c = if c = a then b else slots disk nodes c)
    (hbits : ∀ c < sb.size, bitAt sb disk₂ c = bitAt sb disk' c) : Owned sb lost disk₂ nodes' := by
  have hbit : ∀ c < sb.size, (bitAt sb disk₂ c = true ↔ bitAt sb disk c = true ∨ c = b) :=
    fun c hc => by
    rw [hbits c hc, ht.bitAt_eq h hc, Bool.or_eq_true, decide_eq_true_iff]
  refine ⟨h.owns.assign ha ht.lt ht.not_used sb.nmeta_pos hslots fun c hc => ?_,
    fun c hc hlost => ?_⟩
  · rw [hbit c hc]
    constructor
    · rintro ⟨hmarked | rfl, hlost⟩
      · exact .inl ⟨hmarked, hlost⟩
      · exact .inr rfl
    · rintro (⟨hmarked, hlost⟩ | rfl)
      · exact ⟨.inl hmarked, hlost⟩
      · refine ⟨.inr rfl, fun hlost => ?_⟩
        have hmarked := h.lost_marked _ ht.lt hlost
        rw [ht.free] at hmarked
        cases hmarked
  · exact (hbit c hc).mpr (.inl (h.lost_marked c hc hlost))

section Addr

variable {k : Fin (NDIRECT + 1)} (h : Owned sb lost disk nodes) (ht : Taken sb disk b disk')
  (h0 : slots disk nodes (i, k) = 0)

include h ht h0

theorem slots_giveAddr (a : Place) :
    slots disk' (Function.update nodes i ((nodes i).setAddr k (UInt32.ofNat b))) a =
      if a = (i, k.val) then b else slots disk nodes a := by
  rw [slots_setAddr ht.lt_uint ((ht.slots_eq h _).trans h0) ht.blank, ht.slots_eq h]

/-- **A block is given to an inode.** -/
theorem giveAddr :
    Owned sb lost disk' (Function.update nodes i ((nodes i).setAddr k (UInt32.ofNat b))) :=
  h.assign ht h0 (h.slots_giveAddr ht h0) fun _ _ => rfl

theorem fileByte_giveAddr (j off : ℕ) :
    fileByte disk' (Function.update nodes i ((nodes i).setAddr k (UInt32.ofNat b)) j) off =
      fileByte disk (nodes j) off := by
  rw [fileByte_setAddr ht.lt_uint ((ht.slots_eq h _).trans h0) ht.blank, ht.fileByte_eq h]

end Addr

section Entry

variable (h : Owned sb lost disk nodes) (ht : Taken sb disk b disk')

include h ht

theorem apart_taken : Apart disk' nodes := fun {a c} heq hne => by
  rw [ht.slots_eq h, ht.slots_eq h] at heq
  rw [ht.slots_eq h] at hne
  exact h.apart heq hne

/-- The indirect block is not touched when a block is taken. -/
theorem indirect_eq (hx : slots disk nodes (i, NDIRECT) ≠ 0) :
    disk' (slots disk nodes (i, NDIRECT)) = disk (slots disk nodes (i, NDIRECT)) := by
  have hle := (h.owns.range hx).1
  have hlt := sb.bblock_lt ht.lt
  rw [ht.eq, Function.update_of_ne (ht.ne_slots h _), markAt, Function.update_of_ne (by omega)]

variable (hk : NDIRECT < k) (hk' : k ≤ MAXFILE) (hx : slots disk nodes (i, NDIRECT) ≠ 0)

include hk hk' hx

theorem slots_giveEntry (a : Place) :
    slots (Function.update disk' (slots disk nodes (i, NDIRECT))
        ((disk (slots disk nodes (i, NDIRECT))).setUint (4 * (k - (NDIRECT + 1))) b)) nodes a =
      if a = (i, k) then b else slots disk nodes a := by
  have hslots := slots_setUint (h.apart_taken ht) hk hk' ht.lt_uint (i := i)
    (by rwa [ht.slots_eq h]) a
  rwa [ht.slots_eq h, h.indirect_eq ht hx, ht.slots_eq h] at hslots

variable (h0 : slots disk nodes (i, k) = 0)

include h0

/-- **A block is given to an indirect block.** -/
theorem giveEntry :
    Owned sb lost (Function.update disk' (slots disk nodes (i, NDIRECT))
      ((disk (slots disk nodes (i, NDIRECT))).setUint (4 * (k - (NDIRECT + 1))) b)) nodes := by
  have hle := (h.owns.range hx).1
  refine h.assign ht h0 (h.slots_giveEntry ht hk hk' hx) fun c hc => ?_
  have := sb.bblock_lt hc
  exact bitAt_congr (Function.update_of_ne (by omega) ..)

theorem fileByte_giveEntry (j off : ℕ) :
    fileByte (Function.update disk' (slots disk nodes (i, NDIRECT))
        ((disk (slots disk nodes (i, NDIRECT))).setUint (4 * (k - (NDIRECT + 1))) b))
        (nodes j) off =
      fileByte disk (nodes j) off := by
  have hbyte := fileByte_setUint (h.apart_taken ht) hk hk' ht.lt_uint (i := i)
    (by rwa [ht.slots_eq h])
    ((ht.slots_eq h _).trans h0) ht.blank
    (by rw [ht.slots_eq h]; exact (ht.ne_slots h _).symm) j off
  rwa [ht.slots_eq h, h.indirect_eq ht hx, ht.fileByte_eq h] at hbyte

end Entry

theorem slots_write (h : Owned sb lost disk nodes) {bn : ℕ}
    (hx : slots disk nodes (i, dataIdx bn) ≠ 0)
    (blk : Block) (a : Place) :
    slots (Function.update disk (slots disk nodes (i, dataIdx bn)) blk) nodes a =
    slots disk nodes a :=
  slots_update (fun _ => .inl fun heq =>
    dataIdx_ne bn (congrArg Prod.snd (h.apart heq (heq ▸ hx))).symm) a

/-- **A block of data is written.** -/
theorem write (h : Owned sb lost disk nodes) {bn : ℕ} (hx : slots disk nodes (i, dataIdx bn) ≠ 0)
    (blk : Block) :
    Owned sb lost (Function.update disk (slots disk nodes (i, dataIdx bn)) blk) nodes := by
  have hle := (h.owns.range hx).1
  refine h.congr (h.slots_write hx blk) fun c hc => ?_
  have := sb.bblock_lt hc
  exact bitAt_congr (Function.update_of_ne (by omega) ..)

theorem slots_putDinode (h : Owned sb lost disk nodes) {j : ℕ} (hj : j < sb.ninodes) (d : Dinode)
    (a : Place) : slots (Fs.putDinode sb disk j d) nodes a = slots disk nodes a :=
  slots_update (fun _ => h.ne_of_lt (sb.iblock_lt_nmeta hj) _) a

theorem fileByte_putDinode (h : Owned sb lost disk nodes) {j : ℕ} (hj : j < sb.ninodes) (d : Dinode)
    (i off : ℕ) : fileByte (Fs.putDinode sb disk j d) (nodes i) off = fileByte disk (nodes i) off :=
  fileByte_update (h.ne_of_lt (sb.iblock_lt_nmeta hj)) i off

/-- An inode is written to the disk. -/
theorem putDinode (h : Owned sb lost disk nodes) {j : ℕ} (hj : j < sb.ninodes) (d : Dinode) :
    Owned sb lost (Fs.putDinode sb disk j d) nodes := by
  refine h.congr (h.slots_putDinode hj d) fun c hc => ?_
  have := sb.iblock_lt hj
  have := sb.bmapstart_le_bblock c
  exact bitAt_congr (Function.update_of_ne (by omega) ..)

end Owned

end Fs

end Xv6
