import Xv6.Fs.Contents

/-!
# How many blocks a write takes

A write needs a block for each of its places that has none: the blocks of data that it touches and,
behind the direct ones, the indirect block. It takes exactly these from the free ones, and it stops
exactly if there are not enough.

## Main definitions

* `freeBlocks` — the number of free blocks
* `places` — the places of a range of bytes
* `Spends` — the missing ones among some places have been filled

## Main results

* `wp_bmap_space`, `wp_writeLoop_space` — the blocks that are taken
-/

namespace Xv6

namespace Fs

open Finset

variable {sb : Superblock} {lost : ℕ → Prop} {nodes : ℕ → Dinode} {s t u : State} {p : IPtr}
  {i b bn : ℕ} {S S' : Finset ℕ}

/-! ### Free blocks -/

/-- The number of free blocks. -/
def freeBlocks (sb : Superblock) (disk : Disk) : ℕ :=
  ({b ∈ range sb.size | bitAt sb disk b = false} : Finset ℕ).card

theorem freeBlocks_eq_zero {disk : Disk} (h : ∀ c < sb.size, bitAt sb disk c = true) :
    freeBlocks sb disk = 0 := by
  rw [freeBlocks, card_eq_zero, filter_eq_empty_iff]
  intro c hc
  rw [h c (mem_range.mp hc)]
  exact Bool.noConfusion

theorem freeBlocks_congr {disk disk' : Disk}
    (h : ∀ c < sb.size, bitAt sb disk' c = bitAt sb disk c) :
    freeBlocks sb disk' = freeBlocks sb disk := by
  rw [freeBlocks, freeBlocks]
  refine congrArg card (filter_congr fun c hc => ?_)
  rw [h c (mem_range.mp hc)]

/-- A block is taken. -/
theorem freeBlocks_taken {disk disk' disk₂ : Disk} (ht : Taken sb disk b disk')
    (h : Owned sb lost disk nodes) (hbits : ∀ c < sb.size, bitAt sb disk₂ c = bitAt sb disk' c) :
    freeBlocks sb disk₂ + 1 = freeBlocks sb disk := by
  have hset : ({c ∈ range sb.size | bitAt sb disk₂ c = false} : Finset ℕ) =
      ({c ∈ range sb.size | bitAt sb disk c = false} : Finset ℕ).erase b := by
    ext c
    simp only [mem_erase, mem_filter, mem_range]
    constructor
    · rintro ⟨hc, hbit⟩
      rw [hbits c hc, ht.bitAt_eq h hc, Bool.or_eq_false_iff, decide_eq_false_iff_not] at hbit
      exact ⟨hbit.2, hc, hbit.1⟩
    · rintro ⟨hne, hc, hbit⟩
      rw [hbits c hc, ht.bitAt_eq h hc, Bool.or_eq_false_iff, decide_eq_false_iff_not]
      exact ⟨hc, hbit, hne⟩
  rw [freeBlocks, hset, card_erase_add_one]
  · rfl
  · exact mem_filter.mpr ⟨mem_range.mpr ht.lt, ht.free⟩

/-! ### Places -/

/-- The places among `S` that have no block. -/
def missing (S : Finset ℕ) (a : OnDisk) : Finset ℕ := {k ∈ S | slot a.1 a.2 k = 0}

/-- The missing ones among the places `S` have been filled. -/
structure Spends (sb : Superblock) (S : Finset ℕ) (a b : OnDisk) : Prop where
  filled : ∀ k, slot b.1 b.2 k = 0 ↔ slot a.1 a.2 k = 0 ∧ k ∉ S
  free : freeBlocks sb b.1 + (missing S a).card = freeBlocks sb a.1

/-- There are not enough free blocks for the places `S`. -/
def Short (sb : Superblock) (S : Finset ℕ) (a : OnDisk) (e : Halt) : Prop :=
  e = .outOfBlocks ∧ freeBlocks sb a.1 < (missing S a).card

section

variable {a b c : OnDisk}

theorem missing_eq_empty (h : ∀ k ∈ S, slot a.1 a.2 k ≠ 0) : missing S a = ∅ :=
  filter_eq_empty_iff.mpr fun {k} hk => h k hk

theorem Spends.refl (h : ∀ k ∈ S, slot a.1 a.2 k ≠ 0) : Spends sb S a a where
  filled k := ⟨fun h0 => ⟨h0, fun hk => h k hk h0⟩, fun h0 => h0.1⟩
  free := by
    rw [missing_eq_empty h]
    rfl

/-- What is missing at first is filled in the first step, or missing before the second one. -/
theorem Spends.card_missing (h : Spends sb S a b) (S' : Finset ℕ) :
    (missing (S ∪ S') a).card = (missing S a).card + (missing S' b).card := by
  have hset : missing (S ∪ S') a = missing S a ∪ missing S' b := by
    ext k
    simp only [missing, mem_filter, mem_union, h.filled]
    tauto
  rw [hset, card_union_of_disjoint]
  refine disjoint_left.mpr fun k hk hk' => ?_
  simp only [missing, mem_filter, h.filled] at hk hk'
  exact hk'.2.2 hk.1

theorem Spends.trans (h : Spends sb S a b) (h' : Spends sb S' b c) : Spends sb (S ∪ S') a c where
  filled k := by
    rw [h'.filled, h.filled, mem_union]
    tauto
  free := by
    have := h.free
    have := h'.free
    have := h.card_missing S'
    omega

theorem Short.left {e : Halt} (h : Short sb S a e) : Short sb (S ∪ S') a e :=
  ⟨h.1, h.2.trans_le (card_le_card (filter_subset_filter _ subset_union_left))⟩

theorem Spends.short {e : Halt} (h : Spends sb S a b) (h' : Short sb S' b e) :
    Short sb (S ∪ S') a e := by
  refine ⟨h'.1, ?_⟩
  have := h.free
  have := h'.2
  have := h.card_missing S'
  omega

/-- If nothing is short then nothing stops. -/
theorem Spends.not_short {e : Halt} (h : Spends sb S a b) : ¬ Short sb S a e := fun hs => by
  have := h.free
  have := hs.2
  omega

end

/-! ### `bmap` -/

/-- One place is filled. -/
theorem Spends.single {k : ℕ} (h0 : slot s.disk (s.icache p).d k = 0) (hb : b ≠ 0)
    (hslot : ∀ k', slot t.disk (t.icache p).d k' = if k' = k then b else slot s.disk
      (s.icache p).d k')
    (hfree : freeBlocks sb t.disk + 1 = freeBlocks sb s.disk) :
    Spends sb {k} (s.file p) (t.file p) where
  filled k' := by
    rw [hslot, mem_singleton]
    split
    · next heq => exact ⟨fun h => absurd h hb, fun h => absurd heq h.2⟩
    · next hne => exact ⟨fun h => ⟨h, hne⟩, fun h => h.1⟩
  free := by
    have hset : missing {k} (s.file p) = {k} := filter_true_of_mem fun j hj => by
      rwa [mem_singleton.mp hj]
    rw [hset, card_singleton]
    exact hfree

theorem GivesAddr.spends {l l' : List ℕ} {k : Fin (NDIRECT + 1)} (hg : GivesAddr sb p k s l b t l')
    (h : Owned sb lost s.disk (view nodes i p s)) (h0 : slot s.disk (s.icache p).d k = 0) :
    Spends sb {k.val} (s.file p) (t.file p) := by
  obtain ⟨-, hb, hslot, -⟩ := hg.step h h0
  obtain ⟨disk', ht, rfl⟩ := hg.taken
  exact .single h0 hb hslot (freeBlocks_taken ht h fun _ _ => rfl)

theorem GivesEntry.spends {l l' : List ℕ} (hbn : NDIRECT ≤ bn) (hbn' : bn < MAXFILE)
    (hg : GivesEntry sb (slot s.disk (s.icache p).d NDIRECT) (bn - NDIRECT) s l b t l')
    (h : Owned sb lost s.disk (view nodes i p s)) (hx : slot s.disk (s.icache p).d NDIRECT ≠ 0)
    (h0 : slot s.disk (s.icache p).d (dataIdx bn) = 0) :
    Spends sb {dataIdx bn} (s.file p) (t.file p) := by
  obtain ⟨-, hb, hslot, -⟩ := hg.step hbn hbn' h hx h0
  obtain ⟨disk', ht, rfl⟩ := hg.taken
  refine .single h0 hb hslot (freeBlocks_taken ht h fun c hc => ?_)
  have hle := (h.owns.range ((slots_view NDIRECT).trans_ne hx)).1
  have hlt := sb.bblock_lt hc
  rw [slots_view] at hle
  exact bitAt_congr (Function.update_of_ne (by omega) ..)

/-- The places that a block of a file needs. -/
def blockPlaces (bn : ℕ) : Finset ℕ :=
  if bn < NDIRECT then {dataIdx bn} else {NDIRECT} ∪ {dataIdx bn}

theorem blockPlaces_of_lt (h : bn < NDIRECT) : blockPlaces bn = {dataIdx bn} := if_pos h

theorem blockPlaces_of_le (h : NDIRECT ≤ bn) : blockPlaces bn = {NDIRECT} ∪ {dataIdx bn} :=
  if_neg (Nat.not_lt.mpr h)

/-- A block of data that is there needs nothing. -/
theorem slot_blockPlaces {disk : Disk} {d : Dinode} (hne : slot disk d (dataIdx bn) ≠ 0) :
    ∀ k ∈ blockPlaces bn, slot disk d k ≠ 0 := by
  intro k hk
  rcases Nat.lt_or_ge bn NDIRECT with hlt | hge
  · rw [blockPlaces_of_lt hlt, mem_singleton] at hk
    rwa [hk]
  · rw [blockPlaces_of_le hge, mem_union, mem_singleton, mem_singleton] at hk
    rcases hk with rfl | rfl
    · exact fun h0 => hne (slot_eq_zero (lt_dataIdx hge) h0)
    · exact hne

/-- No block is free, and one is missing. -/
theorem Short.of_full {k : ℕ} (hfull : ∀ c < sb.size, bitAt sb s.disk c = true) (hk : k ∈ S)
    (h0 : slot s.disk (s.icache p).d k = 0) : Short sb S (s.file p) .outOfBlocks := by
  refine ⟨rfl, ?_⟩
  rw [freeBlocks_eq_zero hfull, card_pos]
  exact ⟨k, mem_filter.mpr ⟨hk, h0⟩⟩

/-- The blocks that **`bmap`** takes. -/
theorem wp_bmap_space (h : Owned sb lost s.disk (view nodes i p s)) (hbn : bn < MAXFILE) :
    Wp (bmap sb p bn) s (fun _ t => Spends sb (blockPlaces bn) (s.file p) (t.file p))
      fun e _ => Short sb (blockPlaces bn) (s.file p) e := by
  have hmem : dataIdx bn ∈ blockPlaces bn := by
    rw [blockPlaces]
    split <;> simp
  refine (erases_bmap sb p bn).wp (l := []) (wp_bmapT hbn (fun hne => ?_)
    (fun h0 s' l' hs' hfull => ?_) (fun hlt h0 b s' l' hb => ?_) (fun hge hne h0 b s' l' hb => ?_)
    fun hge h0 x s₁ l₁ hx b s' l' hb => ?_)
  · exact .refl (slot_blockPlaces hne)
  · rcases hs' with ⟨rfl, rfl⟩ | ⟨x, hge, hzero, hx⟩
    · exact .of_full hfull hmem h0
    · -- the indirect block was the last one
      have hspent := hx.spends h hzero
      rw [blockPlaces_of_le hge]
      refine hspent.short (.of_full hfull (mem_singleton_self _) ((hspent.filled _).mpr ⟨h0, ?_⟩))
      exact notMem_singleton.mpr (dataIdx_ne bn)
  · have hidx : dataIdx bn = bn := if_pos hlt
    rw [hidx] at h0
    rw [blockPlaces_of_lt hlt, hidx]
    exact hb.spends h h0
  · rw [blockPlaces_of_le hge]
    refine (Spends.refl fun k hk => ?_).trans (hb.spends hge hbn h hne h0)
    rwa [mem_singleton.mp hk]
  · have hspent := hx.spends h h0
    obtain ⟨hstep₁, hx0, hslot₁, -⟩ := hx.step h h0
    have hind : slot s₁.disk (s₁.icache p).d NDIRECT = x := (hslot₁ NDIRECT).trans (if_pos rfl)
    rw [← hind] at hb hx0
    have hnone : slot s₁.disk (s₁.icache p).d (dataIdx bn) = 0 :=
      (hspent.filled _).mpr ⟨slot_eq_zero (lt_dataIdx hge) h0, notMem_singleton.mpr (dataIdx_ne bn)⟩
    rw [blockPlaces_of_le hge]
    exact hspent.trans (hb.spends hge hbn hstep₁.owned hx0 hnone)

/-! ### `writei` -/

/-- The places that a range of bytes needs. -/
def places (off n : ℕ) : Finset ℕ := (range n).biUnion fun k => blockPlaces ((off + k) / BSIZE)

theorem places_add (off m n : ℕ) : places off (m + n) = places off m ∪ places (off + m) n := by
  ext k
  simp only [places, mem_union, mem_biUnion, mem_range]
  constructor
  · rintro ⟨j, hj, hk⟩
    rcases Nat.lt_or_ge j m with hlt | hge
    · exact .inl ⟨j, hlt, hk⟩
    · obtain ⟨c, rfl⟩ := Nat.exists_eq_add_of_le hge
      refine .inr ⟨c, by omega, ?_⟩
      rwa [Nat.add_assoc]
  · rintro (⟨j, hj, hk⟩ | ⟨j, hj, hk⟩)
    · exact ⟨j, by omega, hk⟩
    · refine ⟨m + j, by omega, ?_⟩
      rwa [← Nat.add_assoc]

/-- Bytes in one block. -/
theorem places_block {off m : ℕ} (hm : 0 < m) (hm' : m ≤ BSIZE - off % BSIZE) :
    places off m = blockPlaces (off / BSIZE) := by
  have hdiv : ∀ k < m, (off + k) / BSIZE = off / BSIZE := fun k hk => by
    simp only [BSIZE] at *
    omega
  ext k
  simp only [places, mem_biUnion, mem_range]
  constructor
  · rintro ⟨j, hj, hk⟩
    rwa [hdiv j hj] at hk
  · intro hk
    exact ⟨0, hm, by rwa [hdiv 0 hm]⟩

/-- Data is written to a block of the file. -/
theorem Spends.write (h : Owned sb lost s.disk (view nodes i p s))
    (hb : slot s.disk (s.icache p).d (dataIdx bn) = b ∧ b ≠ 0) (blk : Block) :
    Spends sb ∅ (s.file p) ({ s with disk := Function.update s.disk b blk }.file p) := by
  obtain ⟨rfl, hne⟩ := hb
  have hne' : slots s.disk (view nodes i p s) (i, dataIdx bn) ≠ 0 := by rwa [slots_view]
  have hslots := h.slots_write hne' blk
  have hle := (h.owns.range hne').1
  rw [slots_view] at hslots hle
  refine ⟨fun k => ?_, ?_⟩
  · have hslot := hslots (i, k)
    simp only [slots, view, Function.update_self] at hslot
    rw [hslot]
    simp
  · refine freeBlocks_congr fun c hc => ?_
    have := sb.bblock_lt hc
    exact bitAt_congr (Function.update_of_ne (by omega) ..)

/-- The blocks that **the loop of `writei`** takes. -/
theorem wp_writeLoop_space {fuel off n : ℕ} {src : ℕ → UInt8} (hfuel : n ≤ fuel)
    (h : Owned sb lost s.disk (view nodes i p s)) (hend : off + n ≤ MAXFILE * BSIZE) :
    Wp (writeLoop sb p fuel src off n) s (fun _ t => Spends sb (places off n) (s.file p) (t.file p))
      fun e _ => Short sb (places off n) (s.file p) e := by
  have hnil : Spends sb (places off 0) (s.file p) (s.file p) :=
    .refl fun k hk => absurd hk (notMem_empty k)
  induction fuel generalizing s src off n with
  | zero =>
    obtain rfl : n = 0 := Nat.le_zero.mp hfuel
    exact hnil
  | succ fuel ih =>
    by_cases hn : n = 0
    · rw [writeLoop, if_pos hn, wp_pure, hn]
      exact hnil
    have hbn : off / BSIZE < MAXFILE := by
      simp only [MAXFILE, NDIRECT, NINDIRECT, BSIZE] at *
      omega
    have hmod : off % BSIZE < BSIZE := Nat.mod_lt _ (by decide)
    obtain ⟨m, hm⟩ : ∃ m, m = min n (BSIZE - off % BSIZE) := ⟨_, rfl⟩
    have hplaces : places off n = blockPlaces (off / BSIZE) ∪ places (off + m) (n - m) := by
      rw [← @places_block off m (by omega) (by omega), ← places_add, show m + (n - m) = n by omega]
    rw [hplaces, writeLoop, if_neg hn, wp_bind]
    refine ((wp_bmap h hbn).and (wp_bmap_space h hbn)).mono ?_ fun e t he => he.2.left
    rintro b t ⟨⟨hstep, hb, -, -⟩, hspent⟩
    rw [wp_bind, wp_bread, wp_bind, wp_logWrite, ← hm]
    have hblock : Wrote sb lost nodes i p off m src t _ := .block hstep.owned hb (by omega)
    have hspent' := hspent.trans (.write hstep.owned hb ((t.disk b).blit (off % BSIZE) m src))
    rw [union_empty] at hspent'
    refine (ih (by omega) hblock.step.owned (by omega)
      (.refl fun k hk => absurd hk (notMem_empty k))).mono
      (fun r u hu => hspent'.trans hu) fun e u hu => hspent'.short hu

/-- The inode is written to the disk. -/
theorem Spends.inode {d : Dinode} (h : Owned sb lost s.disk (view nodes i p s))
    (hi : i < sb.ninodes)
    (hd : d.addrs = (s.icache p).d.addrs) :
    Spends sb ∅ (s.file p) ((s.put p d (putDinode sb s.disk i d)).file p) := by
  refine ⟨fun k => ?_, ?_⟩
  · have hslot := h.slots_putDinode hi d (i, k)
    simp only [slots, view, Function.update_self] at hslot
    simp only [State.put_disk, State.put_icache_d, slot_addrs hd, hslot]
    simp
  · refine freeBlocks_congr fun c hc => bitAt_congr ?_
    have := sb.iblock_lt hi
    have := sb.bmapstart_le_bblock c
    exact Function.update_of_ne (by omega) ..

/-- The blocks that **`writei`** takes. -/
theorem wp_writei_space {off n : UInt32} {src : ℕ → UInt8}
    (h : Owned sb lost s.disk (view nodes i p s)) (hi : i < sb.ninodes)
    (hinum : (s.icache p).inum = i) (htype : (s.icache p).d.type ≠ T_DEV)
    (hoff : off.toNat ≤ (s.icache p).d.size.toNat) (hend : off.toNat + n.toNat ≤ MAXFILE * BSIZE) :
    Wp (writei sb p src off n) s (fun _ t =>
      Spends sb (places off.toNat n.toNat) (s.file p) (t.file p))
      fun e _ => Short sb (places off.toNat n.toNat) (s.file p) e := by
  refine wp_writei_of_loop htype hoff hend
    (((wp_writeLoop le_rfl h hend).and (wp_writeLoop_space le_rfl h hend)).mono ?_
      fun _ _ he => he.2)
  rintro r t ⟨⟨hr, hwrote⟩, hspent⟩
  refine ⟨hr, by rw [hwrote.step.attrs], fun _ => hspent, fun d _ hd => ?_⟩
  rw [hwrote.step.inum_eq, hinum]
  have := hspent.trans (.inode hwrote.step.owned hi (d := d) (by rw [hd]))
  rwa [union_empty] at this

end Fs

end Xv6
