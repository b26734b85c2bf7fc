import Xv6.Fs.Format
import Xv6.Fs.Space

/-!
# Files are arrays of bytes

The inodes as the system sees them: the copy in the cache where there is one, and otherwise the
inode on the disk. Over them `writei` replaces bytes of one file and `readi` returns some.

## Main definitions

* `State.table` — the inodes in use
* `Current` — an entry of the cache that holds the inode
* `overwrite` — bytes of an array are replaced
* `Rewrites` — bytes of a file are replaced, and its size is adjusted

## Main results

* `writei_readi` — what `writei` and `readi` do to the files
-/

namespace Xv6

namespace Fs

variable {sb : Superblock} {lost : ℕ → Prop} {s t : State} {p q : IPtr} {i j : ℕ} {d : Dinode}
  {disk' : Disk}

/-! ### Arrays of bytes -/

/-- The bytes from `off` on are replaced by `src`. -/
def overwrite (data : List UInt8) (off : ℕ) (src : List UInt8) : List UInt8 :=
  data.take off ++ src ++ data.drop (off + src.length)

theorem overwrite_map_range {size off n : ℕ} (f src : ℕ → UInt8) (hoff : off ≤ size) :
    overwrite ((List.range size).map f) off ((List.range n).map src) =
      (List.range (max size (off + n))).map (patch f off n src) := by
  refine List.ext_getElem? fun k => ?_
  simp only [overwrite, List.getElem?_append, List.getElem?_take, List.getElem?_drop,
    List.getElem?_map, List.length_append, List.length_take, List.length_map, List.length_range]
  grind [patch]

theorem take_drop_map_range (f : ℕ → UInt8) (size off n : ℕ) :
    (((List.range size).map f).drop off).take n =
      (List.range (min n (size - off))).map fun k => f (off + k) := by
  refine List.ext_getElem? fun k => ?_
  simp only [List.getElem?_take, List.getElem?_drop, List.getElem?_map]
  grind

/-! ### The inodes in use -/

namespace State

/-- The inodes in use, as the system sees them. -/
def table (sb : Superblock) (s : State) (i : ℕ) : Dinode :=
  if i < sb.ninodes ∧ (s.eff sb i).type ≠ 0 then s.eff sb i else Dinode.zero

theorem put_icache (q : IPtr) : (s.put p d disk').icache q =
    { s.icache q with d := if q = p then d else (s.icache q).d } := by
  rw [put]
  by_cases hq : q = p
  · simp only [hq, Function.update_self, if_true]
  · simp only [Function.update_of_ne hq, if_neg hq]

@[simp] theorem put_ref (q : IPtr) : ((s.put p d disk').icache q).ref = (s.icache q).ref := by
  rw [put_icache]

@[simp] theorem put_inum (q : IPtr) : ((s.put p d disk').icache q).inum = (s.icache q).inum := by
  rw [put_icache]

@[simp] theorem put_valid (q : IPtr) : ((s.put p d disk').icache q).valid = (s.icache q).valid := by
  rw [put_icache]

@[simp] theorem put_cached (i : ℕ) : (s.put p d disk').cached i = s.cached i := by
  simp only [cached, put_ref, put_inum]

theorem put_d_of_ne (hq : q ≠ p) : (s.put p d disk').icache q = s.icache q :=
  Function.update_of_ne hq ..

end State

/-- A locked inode: an entry of the cache for an inode in use, the only one, that has been read. -/
structure Current (sb : Superblock) (s : State) (p : IPtr) : Prop where
  ref : 0 < (s.icache p).ref
  valid : (s.icache p).valid = true
  lt : (s.icache p).inum < sb.ninodes
  type : (s.icache p).d.type ≠ 0
  unique : ∀ q, 0 < (s.icache q).ref → (s.icache q).inum = (s.icache p).inum → q = p

namespace Current

theorem cached_eq (h : Current sb s p) : s.cached (s.icache p).inum = some p := by
  cases hc : s.cached (s.icache p).inum with
  | none =>
    have := List.find?_eq_none.mp hc p (List.mem_finRange p)
    simp [h.ref] at this
  | some q =>
    have := List.find?_some hc
    simp only [decide_eq_true_eq] at this
    rw [h.unique q this.1 this.2]

theorem eff_eq (h : Current sb s p) : s.eff sb (s.icache p).inum = (s.icache p).d := by
  rw [State.eff, h.cached_eq]
  exact if_pos h.valid

theorem table_eq (h : Current sb s p) : s.table sb (s.icache p).inum = (s.icache p).d := by
  rw [State.table, h.eff_eq, if_pos ⟨h.lt, h.type⟩]

theorem view_eq (h : Current sb s p) : view (s.table sb) (s.icache p).inum p s = s.table sb := by
  rw [view, ← h.table_eq, Function.update_eq_self]

theorem put (h : Current sb s p) (hd : d.type ≠ 0) : Current sb (s.put p d disk') p where
  ref := by simpa using h.ref
  valid := by simpa using h.valid
  lt := by simpa using h.lt
  type := by simpa using hd
  unique q hq hinum := h.unique q (by simpa using hq) (by simpa using hinum)

/-- Other inodes are not affected. -/
theorem eff_put (h : Current sb s p) (hj : j ≠ (s.icache p).inum)
    (hdisk : dinodeAt sb disk' j = dinodeAt sb s.disk j) :
    (s.put p d disk').eff sb j = s.eff sb j := by
  rw [State.eff, State.eff, State.put_cached]
  cases hc : s.cached j with
  | none => exact hdisk
  | some q =>
    have hq := List.find?_some hc
    simp only [decide_eq_true_eq] at hq
    have hne : q ≠ p := by
      rintro rfl
      exact hj hq.2.symm
    simp only [State.put_d_of_ne hne, State.put_disk, hdisk]

theorem table_put (h : Current sb s p) (hd : d.type ≠ 0)
    (hdisk : ∀ j < sb.ninodes, j ≠ (s.icache p).inum → dinodeAt sb disk' j = dinodeAt sb s.disk j) :
    (s.put p d disk').table sb = Function.update (s.table sb) (s.icache p).inum d := by
  funext j
  by_cases hj : j = (s.icache p).inum
  · subst hj
    have := (h.put hd : Current sb (s.put p d disk') p).table_eq
    rw [State.put_inum, State.put_icache_d] at this
    rw [this, Function.update_self]
  · rw [Function.update_of_ne hj, State.table, State.table]
    by_cases hlt : j < sb.ninodes
    · rw [h.eff_put hj (hdisk j hlt hj)]
    · rw [if_neg fun hc => hlt hc.1, if_neg fun hc => hlt hc.1]

end Current

/-! ### The calls -/

variable {off m n : ℕ} {src : ℕ → UInt8} {a b c : OnDisk}

/-- The `n` bytes of a file from `off` on are replaced, and the size is adjusted. -/
structure Rewrites (off n : ℕ) (src : ℕ → UInt8) (a b : OnDisk) : Prop where
  attrs : b.2 = { a.2 with addrs := b.2.addrs, size := b.2.size }
  size : b.2.size.toNat = max a.2.size.toNat (off + n)
  bytes : ∀ k, fileByte b.1 b.2 k = patch (fileByte a.1 a.2) off n src k

theorem Rewrites.nil (h : off ≤ a.2.size.toNat) : Rewrites off 0 src a a where
  attrs := rfl
  size := by omega
  bytes k := (patch_zero ..).symm

theorem Rewrites.append (h : Rewrites off m src a b)
    (h' : Rewrites (off + m) n (fun k => src (m + k)) b c) : Rewrites off (m + n) src a c where
  attrs := by
    have hc := h'.attrs
    rw [h.attrs] at hc
    exact hc
  size := by
    rw [h'.size, h.size]
    omega
  bytes k := (h'.bytes k).trans (patch_patch h.bytes k)

/-- The file afterwards. -/
theorem Rewrites.node_eq (h : Rewrites off n src a b) (hs : (s.disk, s.eff sb i) = a)
    (ht : (t.disk, t.eff sb i) = b) (hoff : off ≤ a.2.size.toNat) : t.node sb i =
    { s.node sb i with data := overwrite (s.node sb i).data off ((List.range n).map src) } := by
  subst hs ht
  have hdata : (List.range (t.eff sb i).size.toNat).map (t.byteAt sb i) =
      overwrite ((List.range (s.eff sb i).size.toNat).map (s.byteAt sb i)) off
        ((List.range n).map src) := by
    rw [overwrite_map_range _ _ hoff, h.size]
    exact List.map_congr_left fun k _ => h.bytes k
  have hattrs : t.eff sb i = { s.eff sb i with
      addrs := (t.eff sb i).addrs, size := (t.eff sb i).size } := h.attrs
  rw [State.node, hdata, State.node, hattrs]

namespace Written

variable (h : Written sb lost (s.table sb) (s.icache p).inum p off n src s t) (hp : Current sb s p)

include h hp

theorem current : Current sb t p := by
  have htype : (t.icache p).d.type ≠ 0 := by
    rw [h.attrs]
    exact hp.type
  have := (hp.put htype : Current sb (s.put p (t.icache p).d t.disk) p)
  rwa [← h.frame] at this

omit hp in
theorem inum_eq : (t.icache p).inum = (s.icache p).inum := by
  rw [h.frame, State.put_inum]

theorem owned_table : Owned sb lost t.disk (t.table sb) := by
  have hcur := h.current hp
  have htable := hp.table_put hcur.type h.inodes
  rw [← h.frame] at htable
  rw [htable]
  exact h.owned

theorem eff_eq : t.eff sb (s.icache p).inum = (t.icache p).d := by
  rw [← h.inum_eq, (h.current hp).eff_eq]

/-- The file that is written. -/
theorem node_eq (hoff : off ≤ (s.icache p).d.size.toNat) : t.node sb (s.icache p).inum =
    { s.node sb (s.icache p).inum with
      data := overwrite (s.node sb (s.icache p).inum).data off ((List.range n).map src) } := by
  have hrew : Rewrites off n src (s.file p) (t.file p) := ⟨h.attrs, h.size, h.bytes⟩
  exact hrew.node_eq (by rw [hp.eff_eq]) (by rw [h.eff_eq hp]) hoff

/-- The other files. -/
theorem node_of_ne (hj : j ≠ (s.icache p).inum) (hlt : j < sb.ninodes)
    (htype : (s.eff sb j).type ≠ 0) : t.node sb j = s.node sb j := by
  have heff : t.eff sb j = s.eff sb j := by
    rw [h.frame, hp.eff_put hj (h.inodes j hlt hj)]
  have htable : s.table sb j = s.eff sb j := if_pos ⟨hlt, htype⟩
  have hbyte : ∀ k, t.byteAt sb j k = s.byteAt sb j k := fun k => by
    have := h.others j hj k
    rw [htable] at this
    rw [State.byteAt, State.byteAt, heff, this]
  rw [State.node, State.node, heff, funext hbyte]

end Written

/-- A file without holes stays one. -/
theorem Written.noHoles (h : Written sb lost (s.table sb) i p off n src s t)
    (hholes : NoHoles s.disk (s.icache p).d) (hoff : off ≤ (s.icache p).d.size.toNat) :
    NoHoles t.disk (t.icache p).d := by
  intro bn hbn
  rw [h.size] at hbn
  by_cases hlt : bn * BSIZE < (s.icache p).d.size.toNat
  · have hne := hholes bn hlt
    rwa [h.kept _ hne]
  · have hne := h.blocks (bn * BSIZE) (by omega) (by omega)
    rwa [Nat.mul_div_cancel _ (by decide)] at hne

/-- **Files are arrays of bytes.** For a file or directory without holes, in a file system in which
no block is owned twice: `writei` replaces bytes of the file and nothing else, unless it refuses,
and stops only if there is no free block; `readi` returns bytes of the file. -/
theorem writei_readi (sb : Superblock) (lost : ℕ → Prop) (s : State) (p : IPtr) (src : ℕ → UInt8)
    (off n : UInt32) (hown : Owned sb lost s.disk (s.table sb)) (hp : Current sb s p)
    (htype : (s.icache p).d.type = T_FILE ∨ (s.icache p).d.type = T_DIR)
    (hholes : NoHoles s.disk (s.icache p).d) :
    ((s.icache p).d.size.toNat < off.toNat ∨ 2 ^ 32 ≤ off.toNat + n.toNat ∨
        MAXFILE * BSIZE < off.toNat + n.toNat → writei sb p src off n s = .ok none s) ∧
    (off.toNat ≤ (s.icache p).d.size.toNat → off.toNat + n.toNat ≤ MAXFILE * BSIZE →
      Wp (writei sb p src off n) s (fun r t => r = some n ∧
        t.node sb (s.icache p).inum = { s.node sb (s.icache p).inum with
          data := overwrite (s.node sb (s.icache p).inum).data off.toNat
            ((List.range n.toNat).map src) } ∧
        (t.eff sb (s.icache p).inum).size.toNat =
          max (s.icache p).d.size.toNat (off.toNat + n.toNat) ∧
        (∀ j < sb.ninodes, j ≠ (s.icache p).inum → (s.eff sb j).type ≠ 0 →
          t.node sb j = s.node sb j) ∧
        Owned sb lost t.disk (t.table sb) ∧ Current sb t p ∧ NoHoles t.disk (t.icache p).d)
        (Full sb)) ∧
    ((s.icache p).d.size.toNat < off.toNat ∨ 2 ^ 32 ≤ off.toNat + n.toNat →
      readi sb p off n s = .ok none s) ∧
    (off.toNat ≤ (s.icache p).d.size.toNat → off.toNat + n.toNat < 2 ^ 32 →
      readi sb p off n s = .ok (some (((s.node sb (s.icache p).inum).data.drop off.toNat).take
        n.toNat)) s) := by
  have hdev : (s.icache p).d.type ≠ T_DEV := by
    rcases htype with h | h <;> rw [h] <;> decide
  have hmax : MAXFILE * BSIZE < 2 ^ 32 := by decide
  refine ⟨fun hbad => ?_, fun hoff hend => ?_, readi_eq_none hdev, fun hoff hadd => ?_⟩
  · exact writei_eq_none hdev (by omega)
  · have hview : Owned sb lost s.disk (view (s.table sb) (s.icache p).inum p s) := by
      rwa [hp.view_eq]
    refine (wp_writei hview hp.lt rfl hdev hoff hend).mono ?_ fun _ _ he => he
    rintro r t ⟨hr, hw⟩
    refine ⟨hr, hw.node_eq hp hoff, ?_, fun j hlt hj ht => hw.node_of_ne hp hj hlt ht,
      hw.owned_table hp, hw.current hp, hw.noHoles hholes hoff⟩
    rw [hw.eff_eq hp, hw.size]
  · rw [readi_eq hdev hholes hoff hadd, State.node, hp.eff_eq, take_drop_map_range]
    simp only [fileBytes, State.byteAt, hp.eff_eq]

/-- An empty file, alone on a disk. -/
def newFile : State where
  disk := Function.update (fun _ => Bytes.zero _) mkfsSb.bmapstart (usedMap nmeta)
  icache p := if p = 0 then ⟨1, 1, false, true, { Dinode.zero with type := T_FILE, nlink := 1 }⟩
    else ⟨0, 0, false, false, Dinode.zero⟩
  ftable _ := ⟨1, .inode 0, true, true, 0⟩
  console := []

theorem newFile_disk :
    newFile.disk = Function.update (fun _ => Bytes.zero _) mkfsSb.bmapstart (usedMap nmeta) := rfl

theorem bitAt_newFile {c : ℕ} (hc : c < mkfsSb.size) :
    bitAt mkfsSb newFile.disk c = decide (c < nmeta) := by
  have hlt : c < BPB := hc.trans (by decide)
  have hbb : mkfsSb.bblock c = mkfsSb.bmapstart := by
    rw [Superblock.bblock, Nat.div_eq_of_lt hlt, Nat.zero_add]
  have hmap : newFile.disk mkfsSb.bmapstart = usedMap nmeta := by
    rw [newFile_disk, Function.update_self]
  rw [bitAt, hbb, hmap, bit_usedMap (by decide), Nat.mod_eq_of_lt hlt]

theorem freeBlocks_newFile : 0 < freeBlocks mkfsSb newFile.disk := by
  refine Finset.card_pos.mpr ⟨nmeta, Finset.mem_filter.mpr ⟨Finset.mem_range.mpr (by decide), ?_⟩⟩
  rw [bitAt_newFile (by decide), decide_eq_false (Nat.lt_irrefl _)]

theorem current_newFile : Current mkfsSb newFile 0 := by
  refine ⟨by decide, rfl, by decide, by decide, fun q hq _ => ?_⟩
  by_contra hne
  simp [newFile, hne] at hq

theorem owned_newFile : Owned mkfsSb (fun _ => False) newFile.disk (newFile.table mkfsSb) := by
  have htable : newFile.table mkfsSb 1 = (newFile.icache 0).d := current_newFile.table_eq
  have hfree : ∀ i, i ≠ 1 → newFile.table mkfsSb i = Dinode.zero := fun i hi => by
    have hnone : newFile.cached i = none := by
      refine List.find?_eq_none.mpr fun q _ => ?_
      by_cases hq : q = 0 <;> simp [newFile, hq, hi.symm]
    by_cases hlt : i < mkfsSb.ninodes
    · have hblock : newFile.disk (mkfsSb.iblock i) = Bytes.zero _ := by
        rw [newFile_disk, Function.update_of_ne (mkfsSb.iblock_lt hlt).ne]
      have hdisk : dinodeAt mkfsSb newFile.disk i = Dinode.zero := by
        rw [dinodeAt, hblock]
        simp [Dinode.ofBlock, Dinode.zero]
      rw [State.table, State.eff, hnone, hdisk, ite_self]
    · exact if_neg fun hc => hlt hc.1
  have hslot : ∀ a, slots newFile.disk (newFile.table mkfsSb) a = 0 := by
    rintro ⟨i, k⟩
    by_cases hi : i = 1
    · rw [hi, slots, htable]
      exact (slot_addrs rfl).trans (slot_zero _ k)
    · rw [slots, hfree i hi]
      exact slot_zero _ k
  refine ⟨⟨fun _ h0 => absurd (hslot _) h0, fun h0 => absurd (hslot _) h0, fun {c} hc => ?_⟩,
    fun _ _ h => h.elim⟩
  rw [bitAt_newFile hc, decide_eq_true_iff, not_false_iff, and_true]
  refine ⟨.inl, fun h => h.resolve_right ?_⟩
  rintro ⟨a, ha, h0⟩
  exact h0 (ha.symm.trans (hslot a))

/-- `writei` succeeds if there are enough free blocks. -/
theorem exists_writei (src : ℕ → UInt8) (off n : UInt32)
    (hown : Owned sb lost s.disk (s.table sb)) (hp : Current sb s p)
    (htype : (s.icache p).d.type ≠ T_DEV) (hoff : off.toNat ≤ (s.icache p).d.size.toNat)
    (hend : off.toNat + n.toNat ≤ MAXFILE * BSIZE)
    (hroom : (missing (places off.toNat n.toNat) (s.file p)).card ≤ freeBlocks sb s.disk) :
    ∃ t, writei sb p src off n s = .ok (some n) t ∧
      Written sb lost (s.table sb) (s.icache p).inum p off.toNat n.toNat src s t := by
  have hview : Owned sb lost s.disk (view (s.table sb) (s.icache p).inum p s) := by rwa [hp.view_eq]
  have hwrite : Wp (writei sb p src off n) s _ _ := wp_writei hview hp.lt rfl htype hoff hend
  have hboth := hwrite.and (wp_writei_space hview hp.lt rfl htype hoff hend)
  obtain ⟨r, t, ht, rfl, hw⟩ := (hboth.mono (fun _ _ h => h.1) fun _ _ he =>
    absurd hroom (Nat.not_le.mpr he.2.2)).ok
  exact ⟨t, ht, hw⟩

/-- Ten bytes are written to the new file. -/
theorem exists_tenBytes : ∃ t, writei mkfsSb 0 (fun _ => 7) 0 10 newFile = .ok (some 10) t ∧
    Owned mkfsSb (fun _ => False) t.disk (t.table mkfsSb) ∧ Current mkfsSb t 0 ∧
    ((t.icache 0).d.type = T_FILE ∧ (t.icache 0).inum = 1 ∧ (t.icache 0).d.size.toNat = 10) ∧
    NoHoles t.disk (t.icache 0).d ∧ (t.node mkfsSb 1).data = List.replicate 10 7 := by
  have hown := owned_newFile
  have hcur := current_newFile
  have htype : (newFile.icache 0).d.type = T_FILE := rfl
  have hinum : (newFile.icache 0).inum = 1 := rfl
  have hsize : (newFile.icache 0).d.size.toNat = 0 := rfl
  have hfree := freeBlocks_newFile
  -- only these facts about the state are used, so that nothing is executed
  generalize newFile = s at *
  have hoff : (0 : UInt32).toNat ≤ (s.icache 0).d.size.toNat := Nat.zero_le _
  have hone : (missing (places 0 10) (s.file 0)).card ≤ 1 :=
    (Finset.card_filter_le _ _).trans (by rw [places_block (by decide) (by decide)]; decide)
  obtain ⟨t, ht, hw⟩ := exists_writei (fun _ => 7) 0 10 hown hcur
    (by rw [htype]; decide) hoff (by decide) (hone.trans hfree)
  refine ⟨t, ht, hw.owned_table hcur, hw.current hcur, ⟨?_, ?_, ?_⟩, ?_, ?_⟩
  · rw [hw.attrs, htype]
  · rw [hw.inum_eq, hinum]
  · rw [hw.size, hsize]
    rfl
  · exact hw.noHoles (fun bn hbn => absurd hbn (by omega)) hoff
  · rw [← hinum, hw.node_eq hcur hoff, State.node, hcur.eff_eq, hsize]
    rfl

/-- Three of the ten bytes are replaced, and the end of the file is read. -/
theorem writei_readi_tenBytes : ∃ t u,
    writei mkfsSb 0 (fun _ => 7) 0 10 newFile = .ok (some 10) t ∧
    readi mkfsSb 0 6 20 t = .ok (some [7, 7, 7, 7]) t ∧
    writei mkfsSb 0 (fun _ => 9) 5 3 t = .ok (some 3) u ∧
    (u.node mkfsSb 1).data = [7, 7, 7, 7, 7, 9, 9, 9, 7, 7] := by
  obtain ⟨t, ht, hown, hcur, ⟨htype, hinum, hsize⟩, hholes, hdata⟩ := exists_tenBytes
  obtain ⟨-, hw, -⟩ := writei_readi mkfsSb (fun _ => False) t 0 (fun _ => 9) 5 3 hown hcur
    (.inl htype) hholes
  obtain ⟨-, -, -, hr⟩ := writei_readi mkfsSb (fun _ => False) t 0 (fun _ => 9) 6 20 hown hcur
    (.inl htype) hholes
  rw [hinum, hdata] at hw hr
  rw [hsize] at hw hr
  have hnone : missing (places 5 3) (t.file 0) = ∅ := by
    rw [places_block (by decide) (by decide)]
    exact missing_eq_empty (slot_blockPlaces (hholes 0 (by rw [hsize]; decide)))
  have hoff : (5 : UInt32).toNat ≤ (t.icache 0).d.size.toNat := by
    rw [hsize]
    decide
  obtain ⟨u, hu, -⟩ := exists_writei (fun _ => 9) 5 3 hown hcur
    (by rw [htype]; decide) hoff (by decide) (hnone ▸ Nat.zero_le _)
  obtain ⟨-, hnode, -⟩ := (Wp.of_ok hu).mp (hw (by decide) (by decide))
  refine ⟨t, u, ht, hr (by decide) (by decide), hu, ?_⟩
  rw [hnode]
  rfl

end Fs

end Xv6
