import Xv6.Fs.Ownership

/-!
# The contents of files

`readi` and `writei` work on the copy of the inode in the cache and on the disk, block by block. As
long as no block is owned twice they read and write an array of bytes: blocks that `bmap` allocates
on the way are blank, and a byte that is written is a byte of one file only.

## Main definitions

* `Step` — one file gets blocks and data, and the others stay as they are

## Main results

* `wp_bmap`, `wp_writeLoop`, `wp_writei` — the bytes of all files afterwards
* `wp_readLoop` — the bytes that are read
-/

namespace Xv6

namespace Fs

namespace State

/-- The state after changes to the copy of an inode in the cache and to the disk. -/
def put (s : State) (p : IPtr) (d : Dinode) (disk : Disk) : State :=
  { s with disk := disk, icache := Function.update s.icache p { s.icache p with d := d } }

variable (s : State) (p : IPtr) (d d' : Dinode) (disk disk' : Disk)

@[simp] theorem put_disk : (s.put p d disk).disk = disk := rfl

@[simp] theorem put_icache_d : ((s.put p d disk).icache p).d = d := by
  simp only [put, Function.update_self]

@[simp] theorem put_put : (s.put p d disk).put p d' disk' = s.put p d' disk' := by
  simp only [put, Function.update_self, Function.update_idem]

@[simp] theorem put_self : s.put p (s.icache p).d s.disk = s := by
  simp only [put, Function.update_eq_self]

end State

/-- A disk and an inode, with the blocks of its file on it. -/
abbrev OnDisk := Disk × Dinode

/-- The file of an inode in the cache. -/
abbrev State.file (s : State) (p : IPtr) : OnDisk := (s.disk, (s.icache p).d)

variable {sb : Superblock} {lost : ℕ → Prop} {nodes : ℕ → Dinode} {s t u : State} {p : IPtr}
  {i b bn : ℕ}

/-- The inodes, with the copy in the cache for one of them. -/
abbrev view (nodes : ℕ → Dinode) (i : ℕ) (p : IPtr) (s : State) : ℕ → Dinode :=
  Function.update nodes i (s.icache p).d

theorem slots_view (k : ℕ) :
    slots s.disk (view nodes i p s) (i, k) = slot s.disk (s.icache p).d k := by
  simp only [slots, view, Function.update_self]

theorem view_put (d : Dinode) (disk : Disk) :
    view nodes i p (s.put p d disk) = Function.update nodes i d := by
  rw [view, State.put_icache_d]

/-- The file `i` gets blocks and data. The other files, and the inodes on the disk, stay as they
are. -/
structure Step (sb : Superblock) (lost : ℕ → Prop) (nodes : ℕ → Dinode) (i : ℕ) (p : IPtr)
    (s t : State) : Prop where
  frame : t = s.put p (t.icache p).d t.disk
  attrs : (t.icache p).d = { (s.icache p).d with addrs := (t.icache p).d.addrs }
  owned : Owned sb lost t.disk (view nodes i p t)
  kept : ∀ k, slot s.disk (s.icache p).d k ≠ 0 →
    slot t.disk (t.icache p).d k = slot s.disk (s.icache p).d k
  inodes : ∀ j < sb.ninodes, dinodeAt sb t.disk j = dinodeAt sb s.disk j
  others : ∀ j ≠ i, ∀ off, fileByte t.disk (nodes j) off = fileByte s.disk (nodes j) off

namespace Step

theorem refl (h : Owned sb lost s.disk (view nodes i p s)) : Step sb lost nodes i p s s :=
  ⟨(s.put_self p).symm, rfl, h, fun _ _ => rfl, fun _ _ => rfl, fun _ _ _ => rfl⟩

theorem trans (h : Step sb lost nodes i p s t) (h' : Step sb lost nodes i p t u) :
    Step sb lost nodes i p s u where
  frame := by
    have hu := h'.frame
    rw [h.frame] at hu
    simpa using hu
  attrs := by
    have hu := h'.attrs
    rw [h.attrs] at hu
    exact hu
  owned := h'.owned
  kept k hk := by
    have ht := h.kept k hk
    rw [h'.kept k (ht ▸ hk), ht]
  inodes j hj := (h'.inodes j hj).trans (h.inodes j hj)
  others j hj off := (h'.others j hj off).trans (h.others j hj off)

theorem inum_eq (h : Step sb lost nodes i p s t) : (t.icache p).inum = (s.icache p).inum := by
  rw [h.frame]
  simp only [State.put, Function.update_self]

end Step

/-! ### Blocks -/

/-- An inode is given a block. -/
theorem GivesAddr.step {l l' : List ℕ} {k : Fin (NDIRECT + 1)} (hg : GivesAddr sb p k s l b t l')
    (h : Owned sb lost s.disk (view nodes i p s)) (h0 : slot s.disk (s.icache p).d k = 0) :
    Step sb lost nodes i p s t ∧ b ≠ 0 ∧
      (∀ k', slot t.disk (t.icache p).d k' = if k' = k then b else slot s.disk (s.icache p).d k') ∧
      ∀ off, fileByte t.disk (t.icache p).d off = fileByte s.disk (s.icache p).d off := by
  obtain ⟨disk', ht, rfl⟩ := hg.taken
  have hput : { s with disk := disk' }.setInode p { s.icache p with
      d := (s.icache p).d.setAddr k (UInt32.ofNat b) } =
      s.put p ((s.icache p).d.setAddr k (UInt32.ofNat b)) disk' := rfl
  have h0' : slots s.disk (view nodes i p s) (i, k) = 0 := (slots_view k).trans h0
  have hslots := h.slots_giveAddr ht h0'
  have howned := h.giveAddr ht h0'
  have hbyte := h.fileByte_giveAddr ht h0'
  simp only [view, Function.update_self, Function.update_idem] at hslots howned hbyte
  have hslot : ∀ k', slot disk' ((s.icache p).d.setAddr k (UInt32.ofNat b)) k' =
      if k' = k then b else slot s.disk (s.icache p).d k' := fun k' => by
    simpa [slots] using hslots (i, k')
  rw [hput]
  refine ⟨⟨by simp, by simp [Dinode.setAddr], ?_, fun k' hk' => ?_, fun j hj => ht.dinodeAt_eq h hj,
    fun j hj off => ?_⟩, ht.ne_zero h, fun k' => ?_, fun off => ?_⟩
  · rw [view_put]
    exact howned
  · rw [State.put_icache_d, State.put_disk, hslot, if_neg (by rintro rfl; exact hk' h0)]
  · simpa [Function.update_of_ne hj] using hbyte j off
  · rw [State.put_icache_d, State.put_disk, hslot]
  · simpa using hbyte i off

/-- An indirect block is given a block. -/
theorem GivesEntry.step {l l' : List ℕ} (hbn : NDIRECT ≤ bn) (hbn' : bn < MAXFILE)
    (hg : GivesEntry sb (slot s.disk (s.icache p).d NDIRECT) (bn - NDIRECT) s l b t l')
    (h : Owned sb lost s.disk (view nodes i p s)) (hx : slot s.disk (s.icache p).d NDIRECT ≠ 0)
    (h0 : slot s.disk (s.icache p).d (dataIdx bn) = 0) :
    Step sb lost nodes i p s t ∧ b ≠ 0 ∧
      (∀ k, slot t.disk (t.icache p).d k =
        if k = dataIdx bn then b else slot s.disk (s.icache p).d k) ∧
      ∀ off, fileByte t.disk (t.icache p).d off = fileByte s.disk (s.icache p).d off := by
  obtain ⟨disk', ht, rfl⟩ := hg.taken
  generalize hdisk : Function.update disk' (slot s.disk (s.icache p).d NDIRECT)
    ((s.disk (slot s.disk (s.icache p).d NDIRECT)).setUint (4 * (bn - NDIRECT)) b) = disk''
  have hput : { s with disk := disk'' } = s.put p (s.icache p).d disk'' := by
    simp only [State.put, Function.update_eq_self]
  have hidx : dataIdx bn = bn + 1 := if_neg (Nat.not_lt.mpr hbn)
  rw [hidx] at h0 ⊢
  have hlt : NDIRECT < bn + 1 := Nat.lt_succ_of_le hbn
  have hx' : slots s.disk (view nodes i p s) (i, NDIRECT) ≠ 0 := by rwa [slots_view]
  have h0' : slots s.disk (view nodes i p s) (i, bn + 1) = 0 := (slots_view _).trans h0
  have hslots := h.slots_giveEntry ht hlt hbn' hx'
  have howned := h.giveEntry ht hlt hbn' hx' h0'
  have hbyte := h.fileByte_giveEntry ht hlt hbn' hx' h0'
  rw [slots_view, Nat.succ_sub_succ, hdisk] at hslots howned hbyte
  have hslot : ∀ k', slot disk'' (s.icache p).d k' =
      if k' = bn + 1 then b else slot s.disk (s.icache p).d k' := fun k' => by
    simpa [slots] using hslots (i, k')
  rw [hput]
  refine ⟨⟨by simp, by simp, ?_, fun k' hk' => ?_, fun j hj => ?_, fun j hj off => ?_⟩,
    ht.ne_zero h, fun k => ?_, fun off => ?_⟩
  · rw [view_put]
    exact howned
  · rw [State.put_icache_d, State.put_disk, hslot, if_neg (by rintro rfl; exact hk' h0)]
  · have hle := (h.owns.range hx').1
    have hblock := sb.iblock_lt_nmeta hj
    rw [slots_view] at hle
    rw [State.put_disk, ← hdisk, dinodeAt_congr (Function.update_of_ne (by omega) ..),
      ht.dinodeAt_eq h hj]
  · simpa [Function.update_of_ne hj] using hbyte j off
  · rw [State.put_icache_d, State.put_disk, hslot]
  · simpa using hbyte i off

/-- What stops a call: there is no free block. -/
def Full (sb : Superblock) (e : Halt) (t : State) : Prop :=
  e = .outOfBlocks ∧ ∀ c < sb.size, bitAt sb t.disk c = true

/-- **`bmap`** leaves all files as they are. -/
theorem wp_bmap (h : Owned sb lost s.disk (view nodes i p s)) (hbn : bn < MAXFILE) :
    Wp (bmap sb p bn) s
      (fun b t => Step sb lost nodes i p s t ∧
        (slot t.disk (t.icache p).d (dataIdx bn) = b ∧ b ≠ 0) ∧
        (∀ off, fileByte t.disk (t.icache p).d off = fileByte s.disk (s.icache p).d off) ∧
        (slot s.disk (s.icache p).d (dataIdx bn) ≠ 0 → t = s))
      (Full sb) := by
  refine (erases_bmap sb p bn).wp (l := []) (wp_bmapT hbn (fun hne => ?_)
    (fun _ s' l' _ hfull => ?_) (fun hlt h0 b s' l' hb => ?_) (fun hge hne h0 b s' l' hb => ?_)
    fun hge h0 x s₁ l₁ hx b s' l' hb => ?_)
  · exact ⟨.refl h, ⟨rfl, hne⟩, fun _ => rfl, fun _ => rfl⟩
  · exact ⟨rfl, hfull⟩
  · have hidx : dataIdx bn = bn := if_pos hlt
    rw [hidx] at h0 ⊢
    obtain ⟨hstep, hb0, hslot, hbyte⟩ := hb.step h h0
    exact ⟨hstep, ⟨(hslot bn).trans (if_pos rfl), hb0⟩, hbyte, fun hne => absurd h0 hne⟩
  · obtain ⟨hstep, hb0, hslot, hbyte⟩ := hb.step hge hbn h hne h0
    exact ⟨hstep, ⟨(hslot _).trans (if_pos rfl), hb0⟩, hbyte, fun hne => absurd h0 hne⟩
  · -- the indirect block is new, and has no entries
    obtain ⟨hstep₁, hx0, hslot₁, hbyte₁⟩ := hx.step h h0
    have hind : slot s₁.disk (s₁.icache p).d NDIRECT = x := (hslot₁ NDIRECT).trans (if_pos rfl)
    rw [← hind] at hb hx0
    have hnone : slot s.disk (s.icache p).d (dataIdx bn) = 0 := slot_eq_zero (lt_dataIdx hge) h0
    have hnone₁ : slot s₁.disk (s₁.icache p).d (dataIdx bn) = 0 :=
      (hslot₁ _).trans ((if_neg (dataIdx_ne bn)).trans hnone)
    obtain ⟨hstep, hb0, hslot, hbyte⟩ := hb.step hge hbn hstep₁.owned hx0 hnone₁
    exact ⟨hstep₁.trans hstep, ⟨(hslot _).trans (if_pos rfl), hb0⟩,
      fun off => (hbyte off).trans (hbyte₁ off), fun hne => absurd hnone hne⟩

/-! ### Writing -/

theorem toNat_ofNat_of_lt {n : ℕ} (hn : n < 2 ^ 31) : (UInt32.ofNat n).toNat = n :=
  UInt32.toNat_ofNat_of_lt' (hn.trans (by decide))

/-- The bytes `f`, of which `n` from `off` on are replaced. -/
def patch (f : ℕ → UInt8) (off n : ℕ) (src : ℕ → UInt8) (k : ℕ) : UInt8 :=
  if off ≤ k ∧ k < off + n then src (k - off) else f k

theorem patch_zero (f : ℕ → UInt8) (off : ℕ) (src : ℕ → UInt8) (k : ℕ) :
    patch f off 0 src k = f k :=
  if_neg (by omega)

theorem patch_patch {f g : ℕ → UInt8} {off m n : ℕ} {src : ℕ → UInt8}
    (hg : ∀ k, g k = patch f off m src k) (k : ℕ) :
    patch g (off + m) n (fun j => src (m + j)) k = patch f off (m + n) src k := by
  rw [patch, hg, patch, patch]
  by_cases hk : off + m ≤ k ∧ k < off + m + n
  · rw [if_pos hk, if_pos (by omega), show m + (k - (off + m)) = k - off by omega]
  · rw [if_neg hk]
    exact if_congr (by omega) rfl rfl

/-- The `n` bytes of a file from `off` on are written, with blocks for them. -/
structure Wrote (sb : Superblock) (lost : ℕ → Prop) (nodes : ℕ → Dinode) (i : ℕ) (p : IPtr)
    (off n : ℕ) (src : ℕ → UInt8) (s t : State) : Prop where
  step : Step sb lost nodes i p s t
  bytes : ∀ k, fileByte t.disk (t.icache p).d k =
    patch (fileByte s.disk (s.icache p).d) off n src k
  blocks : ∀ k, off ≤ k → k < off + n → slot t.disk (t.icache p).d (dataIdx (k / BSIZE)) ≠ 0
  still : (∀ k, off ≤ k → k < off + n → slot s.disk (s.icache p).d (dataIdx (k / BSIZE)) ≠ 0) →
    (t.icache p).d = (s.icache p).d

variable {off m n : ℕ} {src : ℕ → UInt8}

namespace Wrote

theorem nil (h : Owned sb lost s.disk (view nodes i p s)) :
    Wrote sb lost nodes i p off 0 src s s where
  step := .refl h
  bytes k := (patch_zero ..).symm
  blocks k hk hk' := absurd hk' (by omega)
  still _ := rfl

/-- Bytes are written, and then the ones that follow. -/
theorem append (h : Wrote sb lost nodes i p off m src s t)
    (h' : Wrote sb lost nodes i p (off + m) n (fun k => src (m + k)) t u) :
    Wrote sb lost nodes i p off (m + n) src s u where
  step := h.step.trans h'.step
  bytes k := (h'.bytes k).trans (patch_patch h.bytes k)
  blocks k hk hk' := by
    by_cases hlt : k < off + m
    · have := h.blocks k hk hlt
      rwa [h'.step.kept _ this]
    · exact h'.blocks k (by omega) (by omega)
  still hblocks := by
    have hst := h.still fun k hk hk' => hblocks k hk (by omega)
    rw [h'.still fun k hk hk' => ?_, hst]
    have := hblocks k (by omega) (by omega)
    rwa [h.step.kept _ this]

end Wrote

/-- Data is written to a block of a file. -/
theorem Wrote.block (h : Owned sb lost s.disk (view nodes i p s))
    (hb : slot s.disk (s.icache p).d (dataIdx (off / BSIZE)) = b ∧ b ≠ 0)
    (hm : m ≤ BSIZE - off % BSIZE) :
    Wrote sb lost nodes i p off m src s
      { s with disk := Function.update s.disk b ((s.disk b).blit (off % BSIZE) m src) } := by
  obtain ⟨rfl, hne⟩ := hb
  generalize hdisk : Function.update s.disk (slot s.disk (s.icache p).d (dataIdx (off / BSIZE)))
    ((s.disk (slot s.disk (s.icache p).d (dataIdx (off / BSIZE)))).blit (off % BSIZE) m src) = disk'
  have hput : { s with disk := disk' } = s.put p (s.icache p).d disk' := by
    simp only [State.put, Function.update_eq_self]
  have hne' : slots s.disk (view nodes i p s) (i, dataIdx (off / BSIZE)) ≠ 0 := by rwa [slots_view]
  have howned := h.write hne' ((s.disk (slot s.disk (s.icache p).d (dataIdx (off / BSIZE)))).blit
    (off % BSIZE) m src)
  have hslots :=
    h.slots_write hne' ((s.disk (slot s.disk (s.icache p).d (dataIdx (off / BSIZE)))).blit
    (off % BSIZE) m src)
  have hbytes := fileByte_write h.apart hne' (off % BSIZE) m src
  have hle := (h.owns.range hne').1
  rw [slots_view] at howned hslots hbytes hle
  rw [hdisk] at howned hslots hbytes
  have hslot : ∀ k, slot disk' (s.icache p).d k = slot s.disk (s.icache p).d k := fun k => by
    simpa [slots] using hslots (i, k)
  have hrange : ∀ k, off ≤ k ∧ k < off + m ↔
      k / BSIZE = off / BSIZE ∧ off % BSIZE ≤ k % BSIZE ∧ k % BSIZE < off % BSIZE + m := fun k => by
    simp only [BSIZE] at *
    omega
  rw [hput]
  refine ⟨⟨by simp, by simp, ?_, fun k _ => ?_, fun j hj => ?_, fun j hj k => ?_⟩, fun k => ?_,
    fun k hk hk' => ?_, fun _ => ?_⟩
  · rw [view_put]
    exact howned
  · simpa using hslot k
  · have := sb.iblock_lt_nmeta hj
    rw [State.put_disk, ← hdisk]
    exact dinodeAt_congr (Function.update_of_ne (by omega) ..)
  · have := hbytes j k
    rw [if_neg fun hc => hj hc.1] at this
    simpa [Function.update_of_ne hj] using this
  · have := hbytes i k
    simp only [view, Function.update_self, true_and] at this
    rw [State.put_disk, State.put_icache_d, this]
    refine if_ctx_congr (hrange k).symm (fun hk => ?_) fun _ => rfl
    rw [show k % BSIZE - off % BSIZE = k - off by simp only [BSIZE] at *; omega]
  · rw [State.put_disk, State.put_icache_d, hslot, ((hrange k).mp ⟨hk, hk'⟩).1]
    exact hne
  · simp

/-- Blocks are allocated for the bytes that are then written. -/
theorem Wrote.after (h : Wrote sb lost nodes i p off m src t u) (hstep : Step sb lost nodes i p s t)
    (hbytes : ∀ k, fileByte t.disk (t.icache p).d k = fileByte s.disk (s.icache p).d k)
    (hstill : slot s.disk (s.icache p).d (dataIdx (off / BSIZE)) ≠ 0 → t = s) (hm : 0 < m) :
    Wrote sb lost nodes i p off m src s u where
  step := hstep.trans h.step
  bytes k := by rw [h.bytes, funext hbytes]
  blocks := h.blocks
  still hblocks := by
    obtain rfl := hstill (hblocks off le_rfl (by omega))
    exact h.still hblocks

/-- **The loop of `writei`.** -/
theorem wp_writeLoop {fuel : ℕ} (hfuel : n ≤ fuel) (h : Owned sb lost s.disk (view nodes i p s))
    (hend : off + n ≤ MAXFILE * BSIZE) :
    Wp (writeLoop sb p fuel src off n) s
      (fun r t => r = off + n ∧ Wrote sb lost nodes i p off n src s t) (Full sb) := by
  induction fuel generalizing s src off n with
  | zero =>
    obtain rfl : n = 0 := Nat.le_zero.mp hfuel
    exact ⟨rfl, .nil h⟩
  | succ fuel ih =>
    by_cases hn : n = 0
    · rw [writeLoop, if_pos hn, wp_pure, hn]
      exact ⟨rfl, .nil h⟩
    have hbn : off / BSIZE < MAXFILE := by
      simp only [MAXFILE, NDIRECT, NINDIRECT, BSIZE] at *
      omega
    have hmod : off % BSIZE < BSIZE := Nat.mod_lt _ (by decide)
    obtain ⟨m, hm⟩ : ∃ m, m = min n (BSIZE - off % BSIZE) := ⟨_, rfl⟩
    rw [writeLoop, if_neg hn, wp_bind]
    refine (wp_bmap h hbn).mono (fun b t ⟨hstep, hb, hbytes, hstill⟩ => ?_) fun _ _ he => he
    rw [wp_bind, wp_bread, wp_bind, wp_logWrite, ← hm]
    have hblock : Wrote sb lost nodes i p off m src t _ := .block hstep.owned hb (by omega)
    have hround := hblock.after hstep hbytes hstill (by omega)
    refine (ih (by omega) hround.step.owned (by omega)).mono (fun r u ⟨hr, hrest⟩ => ?_)
      fun _ _ he => he
    have hwrote := hround.append hrest
    rw [show m + (n - m) = n by omega] at hwrote
    exact ⟨by omega, hwrote⟩

/-- Bytes are written, and the size is that of the file that has them. -/
structure Written (sb : Superblock) (lost : ℕ → Prop) (nodes : ℕ → Dinode) (i : ℕ) (p : IPtr)
    (off n : ℕ) (src : ℕ → UInt8) (s t : State) : Prop where
  frame : t = s.put p (t.icache p).d t.disk
  attrs : (t.icache p).d =
    { (s.icache p).d with addrs := (t.icache p).d.addrs, size := (t.icache p).d.size }
  size : (t.icache p).d.size.toNat = max (s.icache p).d.size.toNat (off + n)
  owned : Owned sb lost t.disk (view nodes i p t)
  bytes : ∀ k, fileByte t.disk (t.icache p).d k =
    patch (fileByte s.disk (s.icache p).d) off n src k
  blocks : ∀ k, off ≤ k → k < off + n → slot t.disk (t.icache p).d (dataIdx (k / BSIZE)) ≠ 0
  kept : ∀ k, slot s.disk (s.icache p).d k ≠ 0 →
    slot t.disk (t.icache p).d k = slot s.disk (s.icache p).d k
  others : ∀ j ≠ i, ∀ k, fileByte t.disk (nodes j) k = fileByte s.disk (nodes j) k
  inodes : ∀ j < sb.ninodes, j ≠ i → dinodeAt sb t.disk j = dinodeAt sb s.disk j
  saved : NoHoles s.disk (s.icache p).d → dinodeAt sb s.disk i = (s.icache p).d →
    dinodeAt sb t.disk i = (t.icache p).d

/-- The file does not grow. -/
theorem Wrote.within (h : Wrote sb lost nodes i p off n src s t) (hi : i < sb.ninodes)
    (hn : n = 0 ∨ off + n ≤ (s.icache p).d.size.toNat) (hoff : off ≤ (s.icache p).d.size.toNat) :
    Written sb lost nodes i p off n src s t where
  frame := h.step.frame
  attrs := by
    rw [h.step.attrs]
  size := by
    have hsize : (t.icache p).d.size = (s.icache p).d.size := by rw [h.step.attrs]
    rw [hsize]
    omega
  owned := h.step.owned
  bytes := h.bytes
  blocks := h.blocks
  kept := h.step.kept
  others := h.step.others
  inodes j hj _ := h.step.inodes j hj
  saved hholes hdisk := by
    rw [h.step.inodes i hi, hdisk, h.still fun k hk hk' => hholes.slot_ne_zero (by omega)]

/-- The file grows, and its inode is written to the disk. -/
theorem Wrote.beyond {d : Dinode} {u : State} (h : Wrote sb lost nodes i p off n src s t)
    (hi : i < sb.ninodes) (hn : (s.icache p).d.size.toNat < off + n)
    (hend : off + n ≤ MAXFILE * BSIZE)
    (hd : d = { (t.icache p).d with size := UInt32.ofNat (off + n) })
    (hu : u = t.put p d (putDinode sb t.disk i d)) :
    Written sb lost nodes i p off n src s u := by
  have haddrs : d.addrs = (t.icache p).d.addrs := by rw [hd]
  have hslots := h.step.owned.slots_putDinode hi d
  have hbyte := h.step.owned.fileByte_putDinode hi d
  have hslot : ∀ k, slot (putDinode sb t.disk i d) d k = slot t.disk (t.icache p).d k := fun k => by
    rw [slot_addrs haddrs]
    simpa [slots] using hslots (i, k)
  have hsize : (UInt32.ofNat (off + n)).toNat = off + n :=
    UInt32.toNat_ofNat_of_lt' (hend.trans_lt (by decide))
  rw [hu]
  refine ⟨?_, ?_, ?_, ?_, fun k => ?_, fun k hk hk' => ?_, fun k hk => ?_, fun j hj k => ?_,
    fun j hj hne => ?_, fun _ _ => ?_⟩
  · rw [h.step.frame]
    simp
  · rw [State.put_icache_d, hd, h.step.attrs]
  · rw [State.put_icache_d, hd, hsize]
    omega
  · rw [view_put]
    refine (h.step.owned.putDinode hi d).congr (fun a => ?_) fun _ _ => rfl
    by_cases ha : a.1 = i
    · simp only [slots, ha, Function.update_self, State.put_disk, slot_addrs haddrs]
    · simp only [slots, Function.update_of_ne ha, State.put_disk]
  · rw [State.put_icache_d, State.put_disk, fileByte_addrs haddrs, ← h.bytes]
    simpa using hbyte i k
  · rw [State.put_icache_d, State.put_disk, hslot]
    exact h.blocks k hk hk'
  · rw [State.put_icache_d, State.put_disk, hslot]
    exact h.step.kept k hk
  · have := hbyte j k
    rw [view, Function.update_of_ne hj] at this
    exact this.trans (h.step.others j hj k)
  · rw [State.put_disk, dinodeAt_putDinode, if_neg hne, h.step.inodes j hj]
  · rw [State.put_disk, State.put_icache_d, dinodeAt_putDinode, if_pos rfl]

/-- `writei` runs its loop, and writes the inode to the disk if the file has grown. -/
theorem wp_writei_of_loop {off n : UInt32} {Q : Option UInt32 → State → Prop}
    {E : Halt → State → Prop}
    (htype : (s.icache p).d.type ≠ T_DEV) (hoff : off.toNat ≤ (s.icache p).d.size.toNat)
    (hend : off.toNat + n.toNat ≤ MAXFILE * BSIZE)
    (hloop : Wp (writeLoop sb p n.toNat src off.toNat n.toNat) s
      (fun r t => r = off.toNat + n.toNat ∧ (t.icache p).d.size = (s.icache p).d.size ∧
        (n.toNat = 0 ∨ off.toNat + n.toNat ≤ (s.icache p).d.size.toNat → Q (some n) t) ∧
        ∀ d, (s.icache p).d.size.toNat < off.toNat + n.toNat →
          d = { (t.icache p).d with size := UInt32.ofNat (off.toNat + n.toNat) } →
          Q (some n) (t.put p d (putDinode sb t.disk (t.icache p).inum d))) E) :
    Wp (writei sb p src off n) s Q E := by
  have hmax : MAXFILE * BSIZE < 2 ^ 32 := by decide
  have hsum : (off + n).toNat = off.toNat + n.toNat := by
    rw [UInt32.toNat_add]
    exact Nat.mod_eq_of_lt (by omega)
  rw [writei, wp_bind, wp_getInode, if_neg htype, if_neg, if_neg, wp_bind]
  · refine hloop.mono (fun r t ⟨hr, hsize, hwithin, hbeyond⟩ => ?_) fun _ _ he => he
    have hr' : (UInt32.ofNat r).toNat = off.toNat + n.toNat := by
      rw [hr]
      exact UInt32.toNat_ofNat_of_lt' (hend.trans_lt hmax)
    rw [wp_bind, wp_getInode, wp_ite, hsize, gt_iff_lt, gt_iff_lt, UInt32.lt_iff_toNat_lt,
      UInt32.lt_iff_toNat_lt, hr']
    refine ⟨fun hgrow => ?_, fun hgrow => hwithin ?_⟩
    · rw [wp_bind, wp_putDisk, wp_bind, iupdate, wp_modify, wp_pure, hr]
      simpa only [State.setInode, State.put, Function.update_self] using hbeyond _ hgrow.2 rfl
    · have hzero : (0 : UInt32).toNat = 0 := rfl
      omega
  · rw [gt_iff_lt, UInt32.not_lt, UInt32.le_iff_toNat_le, hsum]
    exact hend
  · rw [not_or, gt_iff_lt, UInt32.not_lt, UInt32.not_lt, UInt32.le_iff_toNat_le,
      UInt32.le_iff_toNat_le, hsum]
    exact ⟨hoff, Nat.le_add_right ..⟩

/-- **`writei`** of bytes that the file can have. -/
theorem wp_writei {off n : UInt32} (h : Owned sb lost s.disk (view nodes i p s))
    (hi : i < sb.ninodes)
    (hinum : (s.icache p).inum = i) (htype : (s.icache p).d.type ≠ T_DEV)
    (hoff : off.toNat ≤ (s.icache p).d.size.toNat) (hend : off.toNat + n.toNat ≤ MAXFILE * BSIZE) :
    Wp (writei sb p src off n) s
      (fun r t => r = some n ∧ Written sb lost nodes i p off.toNat n.toNat src s t) (Full sb) := by
  refine wp_writei_of_loop htype hoff hend ((wp_writeLoop le_rfl h hend).mono ?_ fun _ _ he => he)
  rintro r t ⟨hr, hwrote⟩
  refine ⟨hr, by rw [hwrote.step.attrs], fun hn => ⟨rfl, hwrote.within hi hn hoff⟩,
    fun d hn hd => ?_⟩
  rw [hwrote.step.inum_eq, hinum]
  exact ⟨rfl, hwrote.beyond hi hn hend hd rfl⟩

/-- `writei` of bytes that the file cannot have. -/
theorem writei_eq_none {off n : UInt32} (htype : (s.icache p).d.type ≠ T_DEV)
    (hbad : (s.icache p).d.size.toNat < off.toNat ∨ MAXFILE * BSIZE < off.toNat + n.toNat) :
    writei sb p src off n s = .ok none s := by
  have hmax : (UInt32.ofNat (MAXFILE * BSIZE)).toNat = MAXFILE * BSIZE := by decide
  have hwp : Wp (writei sb p src off n) s (fun r t => r = none ∧ t = s) fun _ _ => False := by
    rw [writei, wp_bind, wp_getInode, if_neg htype, wp_ite]
    refine ⟨fun _ => ⟨rfl, rfl⟩, fun hok => ?_⟩
    rw [wp_ite]
    refine ⟨fun _ => ⟨rfl, rfl⟩, fun hok' => ?_⟩
    rw [gt_iff_lt, UInt32.not_lt, UInt32.le_iff_toNat_le, UInt32.toNat_add, hmax] at hok'
    rw [not_or, gt_iff_lt, UInt32.not_lt, UInt32.not_lt, UInt32.le_iff_toNat_le,
      UInt32.le_iff_toNat_le, UInt32.toNat_add] at hok
    have hoff := off.toNat_lt
    have hn := n.toNat_lt
    omega
  obtain ⟨r, t, heq, rfl, rfl⟩ := hwp.ok
  exact heq

/-! ### Reading -/

/-- `bmap` finds a block that is there. -/
theorem bmap_eq (hbn : bn < MAXFILE) (hne : slot s.disk (s.icache p).d (dataIdx bn) ≠ 0) :
    bmap sb p bn s = .ok (slot s.disk (s.icache p).d (dataIdx bn)) s := by
  have hwp : Wp (bmap sb p bn) s (fun b t => b = slot s.disk (s.icache p).d (dataIdx bn) ∧ t = s)
      fun _ _ => False := by
    refine (erases_bmap sb p bn).wp (l := []) (wp_bmapT hbn (fun _ => ⟨rfl, rfl⟩)
      (fun h0 => absurd h0 hne) (fun _ h0 => absurd h0 hne) (fun _ _ h0 => absurd h0 hne)
      fun hge h0 => absurd (slot_eq_zero (lt_dataIdx hge) h0) hne)
  obtain ⟨b, t, heq, rfl, rfl⟩ := hwp.ok
  exact heq

/-- The bytes of a file from an offset on. -/
def fileBytes (disk : Disk) (d : Dinode) (off n : ℕ) : List UInt8 :=
  (List.range n).map fun k => fileByte disk d (off + k)

theorem fileBytes_add (disk : Disk) (d : Dinode) (off m n : ℕ) :
    fileBytes disk d off (m + n) = fileBytes disk d off m ++ fileBytes disk d (off + m) n := by
  simp only [fileBytes, List.range_add, List.map_append, List.map_map]
  congr 1
  refine List.map_congr_left fun k _ => ?_
  rw [Function.comp_apply, Nat.add_assoc]

/-- The bytes in one block. -/
theorem fileBytes_block {disk : Disk} {d : Dinode} (hm : m ≤ BSIZE - off % BSIZE)
    (hne : slot disk d (dataIdx (off / BSIZE)) ≠ 0) :
    (List.range m).map (fun k => (disk (slot disk d (dataIdx (off / BSIZE)))).get
      (off % BSIZE + k)) =
      fileBytes disk d off m := by
  refine List.map_congr_left fun k hk => ?_
  have hlt := List.mem_range.mp hk
  have hdiv : (off + k) / BSIZE = off / BSIZE := by
    simp only [BSIZE] at *
    omega
  have hmod : (off + k) % BSIZE = off % BSIZE + k := by
    simp only [BSIZE] at *
    omega
  simp only [fileByte, hdiv, hmod, if_neg hne]

/-- **The loop of `readi`**, if all blocks are there. -/
theorem wp_readLoop {fuel : ℕ} (hfuel : n ≤ fuel) (hend : off + n ≤ MAXFILE * BSIZE)
    (hblocks : ∀ k, off ≤ k → k < off + n → slot s.disk (s.icache p).d (dataIdx (k / BSIZE)) ≠ 0) :
    Wp (readLoop sb p fuel off n) s
      (fun r t => r = fileBytes s.disk (s.icache p).d off n ∧ t = s) fun _ _ => False := by
  induction fuel generalizing off n with
  | zero =>
    obtain rfl : n = 0 := Nat.le_zero.mp hfuel
    exact ⟨rfl, rfl⟩
  | succ fuel ih =>
    by_cases hn : n = 0
    · rw [readLoop, if_pos hn, wp_pure, hn]
      exact ⟨rfl, rfl⟩
    have hbn : off / BSIZE < MAXFILE := by
      simp only [MAXFILE, NDIRECT, NINDIRECT, BSIZE] at *
      omega
    have hne := hblocks off le_rfl (by omega)
    have hmod : off % BSIZE < BSIZE := Nat.mod_lt _ (by decide)
    obtain ⟨m, hm⟩ : ∃ m, m = min n (BSIZE - off % BSIZE) := ⟨_, rfl⟩
    rw [readLoop, if_neg hn, wp_bind]
    rw [Wp.of_ok (bmap_eq hbn hne), wp_bind, wp_bread, wp_bind, ← hm]
    refine (ih (by omega) (by omega) fun k hk hk' => hblocks k (by omega) (by omega)).mono ?_
      fun _ _ he => he
    rintro r t ⟨rfl, rfl⟩
    rw [wp_pure, fileBytes_block (by omega) hne, ← fileBytes_add, show m + (n - m) = n by omega]
    exact ⟨rfl, rfl⟩

/-- **`readi`** of a file without holes. -/
theorem readi_eq {off n : UInt32} (htype : (s.icache p).d.type ≠ T_DEV)
    (hholes : NoHoles s.disk (s.icache p).d) (hoff : off.toNat ≤ (s.icache p).d.size.toNat)
    (hadd : off.toNat + n.toNat < 2 ^ 32) :
    readi sb p off n s = .ok (some (fileBytes s.disk (s.icache p).d off.toNat
      (min n.toNat ((s.icache p).d.size.toNat - off.toNat)))) s := by
  have hsum : (off + n).toNat = off.toNat + n.toNat := by
    rw [UInt32.toNat_add]
    exact Nat.mod_eq_of_lt hadd
  have hn : (if off + n > (s.icache p).d.size then (s.icache p).d.size - off else n).toNat =
      min n.toNat ((s.icache p).d.size.toNat - off.toNat) := by
    split
    · next hgt =>
      rw [gt_iff_lt, UInt32.lt_iff_toNat_lt, hsum] at hgt
      rw [UInt32.toNat_sub_of_le _ _ (UInt32.le_iff_toNat_le.mpr hoff)]
      omega
    · next hgt =>
      rw [gt_iff_lt, UInt32.not_lt, UInt32.le_iff_toNat_le, hsum] at hgt
      omega
  have hsize := hholes.size_le
  have hwp : Wp (readi sb p off n) s (fun r t => r = some (fileBytes s.disk (s.icache p).d off.toNat
      (min n.toNat ((s.icache p).d.size.toNat - off.toNat))) ∧ t = s) fun _ _ => False := by
    rw [readi, wp_bind, wp_getInode, if_neg htype, if_neg]
    · simp only [hn]
      rw [wp_bind]
      refine (wp_readLoop le_rfl (by omega) fun k hk hk' => hholes.slot_ne_zero (by omega)).mono ?_
        fun _ _ he => he
      rintro r t ⟨rfl, rfl⟩
      exact ⟨rfl, rfl⟩
    · rw [not_or, gt_iff_lt, UInt32.not_lt, UInt32.not_lt, UInt32.le_iff_toNat_le,
        UInt32.le_iff_toNat_le, hsum]
      exact ⟨hoff, Nat.le_add_right ..⟩
  obtain ⟨r, t, heq, rfl, rfl⟩ := hwp.ok
  exact heq

theorem readi_eq_none {off n : UInt32} (htype : (s.icache p).d.type ≠ T_DEV)
    (hbad : (s.icache p).d.size.toNat < off.toNat ∨ 2 ^ 32 ≤ off.toNat + n.toNat) :
    readi sb p off n s = .ok none s := by
  have hwp : Wp (readi sb p off n) s (fun r t => r = none ∧ t = s) fun _ _ => False := by
    rw [readi, wp_bind, wp_getInode, if_neg htype, if_pos]
    · exact ⟨rfl, rfl⟩
    · rw [gt_iff_lt, UInt32.lt_iff_toNat_lt, UInt32.lt_iff_toNat_lt, UInt32.toNat_add]
      have hoff := off.toNat_lt
      have hn := n.toNat_lt
      omega
  obtain ⟨r, t, heq, rfl, rfl⟩ := hwp.ok
  exact heq

end Fs

end Xv6
