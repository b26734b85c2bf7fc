import Xv6.Fs.Format
import Xv6.Fs.Traced

/-!
# The size of a transaction

`filewrite` cuts a write into pieces so that the blocks of each fit into the log. A piece has at
most four blocks of data; if it has four then the first of them is there already, since the file has
no holes. Besides them there are at most one block of the bitmap for each block that is new, the
indirect block and the block of the bitmap for it, and the block of the inode. These are ten.

## Main definitions

* `Sound` — the bitmap covers the blocks before the data, and the file has none of them
* `Spent` — blocks that have been logged, by what they are for

## Main results

* `transaction_fits` — the blocks of a piece
-/

namespace Xv6

namespace Fs

open Ghost

variable {sb : Superblock} {s : State} {l : List ℕ} {p : IPtr} {ind a c bn : ℕ}

/-! ### Files -/

/-- The blocks before the data are in use, and the blocks of the file are behind them. -/
structure Sound (sb : Superblock) (disk : Disk) (d : Dinode) : Prop where
  marked : ∀ b < sb.nmeta, bitAt sb disk b = true
  data : ∀ k, slot disk d k ≠ 0 → sb.nmeta ≤ slot disk d k

/-! ### The account -/

/-- At most `a` blocks of data have been logged, and at most `c` blocks of the bitmap; besides them
the indirect block and the block of the bitmap for it, if there is an indirect block. -/
def Spent (ind : ℕ) (l : List ℕ) (a c : ℕ) : Prop :=
  ∃ D B : Finset ℕ, D.card ≤ a ∧ B.card ≤ c + (if ind = 0 then 0 else 1) ∧
    ∀ x ∈ l, x ∈ D ∨ x ∈ B ∨ x = ind ∧ ind ≠ 0

namespace Spent

theorem nil (ind : ℕ) : Spent ind [] 0 0 := ⟨∅, ∅, Nat.le_refl 0, Nat.zero_le _, nofun⟩

theorem mono {a' c' : ℕ} (h : Spent ind l a c) (ha : a ≤ a') (hc : c ≤ c') : Spent ind l a' c' := by
  obtain ⟨D, B, hD, hB, hl⟩ := h
  exact ⟨D, B, hD.trans ha, hB.trans (Nat.add_le_add_right hc _), hl⟩

/-- Data is written. -/
theorem data (h : Spent ind l a c) {l' : List ℕ} {b : ℕ} (hl' : ∀ x ∈ l', x ∈ l ∨ x = b) :
    Spent ind l' (a + 1) c := by
  obtain ⟨D, B, hD, hB, hl⟩ := h
  refine ⟨insert b D, B, (Finset.card_insert_le b D).trans (Nat.add_le_add_right hD 1), hB,
    fun x hx => ?_⟩
  rcases hl' x hx with hx | rfl
  · exact (hl x hx).imp_left fun hD => Finset.mem_insert_of_mem hD
  · exact .inl (Finset.mem_insert_self x D)

/-- A block is taken, and data is written to it. -/
theorem alloc (h : Spent ind l a c) {l' : List ℕ} {b y : ℕ}
    (hl' : ∀ x ∈ l', x ∈ l ∨ x = b ∨ x = y ∨ x = ind ∧ ind ≠ 0) : Spent ind l' (a + 1) (c + 1) := by
  obtain ⟨D, B, hD, hB, hl⟩ := h
  refine ⟨insert b D, insert y B, (Finset.card_insert_le b D).trans (Nat.add_le_add_right hD 1), ?_,
    fun x hx => ?_⟩
  · have := Finset.card_insert_le y B
    omega
  · rcases hl' x hx with hx | rfl | rfl | hx
    · rcases hl x hx with hx | hx | hx
      · exact .inl (Finset.mem_insert_of_mem hx)
      · exact .inr (.inl (Finset.mem_insert_of_mem hx))
      · exact .inr (.inr hx)
    · exact .inl (Finset.mem_insert_self x D)
    · exact .inr (.inl (Finset.mem_insert_self x B))
    · exact .inr (.inr hx)

/-- A block is taken to be the indirect block. -/
theorem indirect (h : Spent 0 l a c) {l' : List ℕ} {y : ℕ} (hind : ind ≠ 0)
    (hl' : ∀ x ∈ l', x ∈ l ∨ x = y ∨ x = ind) : Spent ind l' a c := by
  obtain ⟨D, B, hD, hB, hl⟩ := h
  refine ⟨D, insert y B, hD, ?_, fun x hx => ?_⟩
  · have := Finset.card_insert_le y B
    rw [if_pos rfl] at hB
    rw [if_neg hind]
    omega
  · rcases hl' x hx with hx | rfl | rfl
    · rcases hl x hx with hx | hx | hx
      · exact .inl hx
      · exact .inr (.inl (Finset.mem_insert_of_mem hx))
      · exact absurd rfl hx.2
    · exact .inr (.inl (Finset.mem_insert_self x B))
    · exact .inr (.inr ⟨rfl, hind⟩)

/-- **The blocks that have been logged.** -/
theorem card_le (h : Spent ind l a c) : l.toFinset.card ≤ a + c + 2 := by
  obtain ⟨D, B, hD, hB, hl⟩ := h
  have hsub : l.toFinset ⊆ D ∪ B ∪ {ind} := fun x hx => by
    simp only [Finset.mem_union, Finset.mem_singleton]
    rcases hl x (List.mem_toFinset.mp hx) with hx | hx | hx
    · exact .inl (.inl hx)
    · exact .inl (.inr hx)
    · exact .inr hx.1
  have hcard := Finset.card_le_card hsub
  have h₁ := Finset.card_union_le (D ∪ B) {ind}
  have h₂ := Finset.card_union_le D B
  rw [Finset.card_singleton] at h₁
  have hone : (if ind = 0 then 0 else 1) ≤ 1 := by split <;> omega
  omega

end Spent

/-! ### The indirect block -/

/-- The indirect block of an inode in the cache. -/
def State.indirect (s : State) (p : IPtr) : ℕ := ((s.icache p).d.addr NDIRECT).toNat

/-- As long as there is no indirect block, the one that will be allocated is not block 0. -/
def Guarded (sb : Superblock) (p : IPtr) (s : State) : Prop :=
  s.indirect p = 0 → Sound sb s.disk (s.icache p).d

theorem slot_ndirect (s : State) (p : IPtr) : slot s.disk (s.icache p).d NDIRECT = s.indirect p :=
  slot_of_le le_rfl

/-- A block that is taken is behind the blocks that are not for data. -/
theorem Taken.nmeta_le {disk disk' : Disk} {d : Dinode} {b : ℕ} (h : Taken sb disk b disk')
    (hs : Sound sb disk d) : sb.nmeta ≤ b := by
  by_contra hlt
  have hbit := hs.marked b (Nat.lt_of_not_le hlt)
  rw [h.free] at hbit
  cases hbit

theorem marked_update {disk : Disk} {b : ℕ} (h : ∀ c < sb.nmeta, bitAt sb disk c = true)
    (hb : sb.nmeta ≤ b) (blk : Block) : ∀ c < sb.nmeta,
    bitAt sb (Function.update disk b blk) c = true := by
  intro c hc
  have hlt : sb.bblock c < sb.nmeta := sb.bblock_lt (hc.trans_le (Nat.sub_le ..))
  rw [bitAt_congr (Function.update_of_ne (by omega) ..)]
  exact h c hc

/-- Data is written, without indirect block. -/
theorem Sound.update {disk : Disk} {d : Dinode} {b : ℕ} (h : Sound sb disk d)
    (h0 : slot disk d NDIRECT = 0) (hb : sb.nmeta ≤ b) (blk : Block) :
    Sound sb (Function.update disk b blk) d := by
  refine ⟨marked_update h.marked hb blk, fun k hk => ?_⟩
  rw [slot_congr fun hne => absurd h0 hne] at hk ⊢
  exact h.data k hk

/-- A block is taken, without indirect block. -/
theorem Sound.taken {disk disk' : Disk} {d : Dinode} {b : ℕ} {k : Fin (NDIRECT + 1)}
    (h : Sound sb disk d) (h0 : slot disk d NDIRECT = 0) (ht : Taken sb disk b disk')
    (hk : k.val ≠ NDIRECT) : Sound sb disk' (d.setAddr k (UInt32.ofNat b)) := by
  have hle := ht.nmeta_le h
  have hlt : b < 2 ^ 32 := by
    have := ht.lt
    have := sb.size_lt
    omega
  rw [ht.eq]
  refine ⟨marked_update (fun c hc => ?_) hle _, fun j hj => ?_⟩
  · rw [bitAt_markAt, h.marked c hc]
    rfl
  · by_cases hj' : j ≤ NDIRECT
    · rw [slot_of_le hj', addr_setAddr] at hj ⊢
      split at hj
      · rename_i heq
        rw [if_pos heq, UInt32.toNat_ofNat_of_lt' hlt]
        exact hle
      · rename_i heq
        rw [if_neg heq]
        rw [← @slot_of_le disk _ _ hj'] at hj ⊢
        exact h.data j hj
    · have hind : slot (Function.update (markAt sb disk b) b (Bytes.zero _))
          (d.setAddr k (UInt32.ofNat b)) NDIRECT = 0 := by
        rw [slot_of_le le_rfl] at h0 ⊢
        rw [addr_setAddr, if_neg hk.symm, h0]
      exact absurd (slot_eq_zero (not_le.mp hj') hind) hj

/-! ### The loop -/

/-- The indirect block is allocated. -/
theorem GivesAddr.spent {x : ℕ} {s' : State} {l' : List ℕ}
    (h : GivesAddr sb p (Fin.last _) s l x s' l') (hg : Guarded sb p s)
    (hsp : Spent (s.indirect p) l a c) (h0 : slot s.disk (s.icache p).d NDIRECT = 0) :
    (s'.indirect p = x ∧ x ≠ 0) ∧ Spent x l' a c := by
  obtain ⟨disk', ht, rfl⟩ := h.taken
  obtain rfl := h.log
  rw [slot_ndirect] at h0
  have hx : x ≠ 0 := by
    have := ht.nmeta_le (hg h0)
    have := sb.nmeta_pos
    omega
  have hlt : x < 2 ^ 32 := by
    have := ht.lt
    have := sb.size_lt
    omega
  rw [h0] at hsp
  refine ⟨⟨?_, hx⟩, hsp.indirect hx (y := sb.bblock x) fun z hz => ?_⟩
  · rw [State.indirect, State.setInode]
    simp only [Function.update_self, addr_setAddr, Fin.val_last, if_true]
    exact UInt32.toNat_ofNat_of_lt' hlt
  · simp only [List.mem_append, List.mem_singleton] at hz
    tauto

/-- **`bmap`** costs a block of the bitmap if the block is new. The block is then written. -/
theorem wp_bmapT_spent (hg : Guarded sb p s) (hsp : Spent (s.indirect p) l a c) (hbn : bn < MAXFILE)
    {F : Halt → State × List ℕ → Prop} {Q : ℕ → State × List ℕ → Prop}
    (hQ : ∀ b t l', (∀ blk, Guarded sb p { t with disk := Function.update t.disk b blk }) →
      Spent (t.indirect p) (l' ++ [b]) (a + 1)
        (c + if slot s.disk (s.icache p).d (dataIdx bn) = 0 then 1 else 0) → Q b (t, l'))
    (hF : ∀ e t l' ind, Spent ind l' a c → F e (t, l')) : Wp (bmapT sb p bn) (s, l) Q F := by
  refine wp_bmapT hbn (fun hne => ?_) (fun _ s' l' hs' _ => ?_) (fun hlt h0 b s' l' hb => ?_)
    (fun hge hne h0 b s' l' hb => ?_) fun hge h0 x s₁ l₁ hx b s' l' hb => ?_
  · refine hQ _ s l (fun blk h0 => ?_) ?_
    · exact (hg h0).update ((slot_ndirect s p).trans h0) ((hg h0).data _ hne) blk
    · rw [if_neg hne, Nat.add_zero]
      exact hsp.data fun x hx => by simpa using hx
  · rcases hs' with ⟨rfl, rfl⟩ | ⟨x, -, h0, hx⟩
    · exact hF _ _ _ _ hsp
    · exact hF _ _ _ x (hx.spent hg hsp h0).2
  · obtain ⟨disk', ht, rfl⟩ := hb.taken
    obtain rfl := hb.log
    have hind : State.indirect ({ s with disk := disk' }.setInode p { s.icache p with
        d := (s.icache p).d.setAddr ⟨bn, Nat.lt_succ_of_lt hlt⟩ (UInt32.ofNat b) }) p =
        s.indirect p := by
      rw [State.indirect, State.setInode, State.indirect]
      simp only [Function.update_self, addr_setAddr]
      rw [if_neg hlt.ne']
    refine hQ b _ _ (fun blk hzero => ?_) ?_
    · have hzero' : s.indirect p = 0 := hind.symm.trans hzero
      have hslot := (slot_ndirect s p).trans hzero'
      have hsound := (hg hzero').taken hslot ht (k := ⟨bn, Nat.lt_succ_of_lt hlt⟩) hlt.ne
      simp only [State.setInode, Function.update_self]
      refine hsound.update ?_ (ht.nmeta_le (hg hzero')) blk
      rw [slot_of_le le_rfl] at hslot ⊢
      rw [addr_setAddr, if_neg hlt.ne', hslot]
    · rw [hind, if_pos h0]
      exact hsp.alloc (b := b) (y := sb.bblock b) fun x hx => by
        simp only [List.mem_append, List.mem_singleton] at hx
        tauto
  · obtain ⟨disk', ht, rfl⟩ := hb.taken
    obtain rfl := hb.log
    rw [slot_ndirect] at hne
    refine hQ b _ _ (fun blk hzero => absurd hzero hne) ?_
    rw [if_pos h0]
    exact hsp.alloc (b := b) (y := sb.bblock b) fun x hx => by
      simp only [List.mem_append, List.mem_singleton, slot_ndirect] at hx
      tauto
  · obtain ⟨hind, hsp₁⟩ := hx.spent hg hsp h0
    obtain ⟨disk', ht, rfl⟩ := hb.taken
    obtain rfl := hb.log
    have hind' : ∀ disk₂, State.indirect { s₁ with disk := disk₂ } p = x := fun _ => hind.1
    refine hQ b _ _ (fun blk hzero => absurd ((hind' _).symm.trans hzero) hind.2) ?_
    have hnew : slot s.disk (s.icache p).d (dataIdx bn) = 0 := by
      refine slot_eq_zero ?_ h0
      rw [dataIdx, if_neg (Nat.not_lt.mpr hge)]
      exact Nat.lt_succ_of_le hge
    rw [hind', if_pos hnew]
    exact hsp₁.alloc (b := b) (y := sb.bblock b) fun z hz => by
      simp only [List.mem_append, List.mem_singleton] at hz
      have := hind.2
      tauto

/-- One round of the loop. -/
theorem wp_writeRoundT {fuel off n : ℕ} {src : ℕ → UInt8} (hg : Guarded sb p s)
    (hsp : Spent (s.indirect p) l a c) (hn : n ≠ 0) (hend : off + n ≤ MAXFILE * BSIZE)
    {F : Halt → State × List ℕ → Prop} {Q : ℕ → State × List ℕ → Prop}
    (hQ : ∀ t l', Guarded sb p t → Spent (t.indirect p) l' (a + 1)
        (c + if slot s.disk (s.icache p).d (dataIdx (off / BSIZE)) = 0 then 1 else 0) →
      Wp (writeLoopT sb p fuel (fun k => src (min n (BSIZE - off % BSIZE) + k))
        (off + min n (BSIZE - off % BSIZE)) (n - min n (BSIZE - off % BSIZE))) (t, l') Q F)
    (hF : ∀ e t l' ind, Spent ind l' a c → F e (t, l')) :
    Wp (writeLoopT sb p (fuel + 1) src off n) (s, l) Q F := by
  have hbn : off / BSIZE < MAXFILE := by
    simp only [MAXFILE, NDIRECT, NINDIRECT, BSIZE] at *
    omega
  rw [writeLoopT, if_neg hn, wp_bind]
  refine wp_bmapT_spent hg hsp hbn (fun b t l' ht hsp' => ?_) hF
  rw [wp_bind, wp_lift, wp_bread, wp_bind, wp_logWriteT]
  exact hQ _ _ (ht _) hsp'

/-- The number of blocks of `n` bytes from the beginning of a block on. -/
def blocksFor (n : ℕ) : ℕ := (n + (BSIZE - 1)) / BSIZE

/-- The loop, from the beginning of a block on. -/
theorem wp_writeLoopT_aligned (fuel : ℕ) {off n : ℕ} {src : ℕ → UInt8} (hg : Guarded sb p s)
    (hsp : Spent (s.indirect p) l a c) (hoff : off % BSIZE = 0 ∨ n = 0)
    (hend : off + n ≤ MAXFILE * BSIZE) :
    Wp (writeLoopT sb p fuel src off n) (s, l)
      (fun _ t => ∃ ind, Spent ind t.2 (a + blocksFor n) (c + blocksFor n))
      fun _ t => ∃ ind, Spent ind t.2 (a + blocksFor n) (c + blocksFor n) := by
  have hdone : ∃ ind, Spent ind l (a + blocksFor n) (c + blocksFor n) :=
    ⟨_, hsp.mono (Nat.le_add_right ..) (Nat.le_add_right ..)⟩
  induction fuel generalizing s l a c src off n with
  | zero => exact hdone
  | succ fuel ih =>
    by_cases hn : n = 0
    · rw [writeLoopT, if_pos hn]
      exact hdone
    · have hoff' := hoff.resolve_right hn
      refine wp_writeRoundT hg hsp hn hend (fun t l' ht hsp' => ?_) fun e t l' ind h =>
        ⟨ind, h.mono (Nat.le_add_right ..) (Nat.le_add_right ..)⟩
      have hsp'' : Spent _ l' (a + 1) (c + 1) := hsp'.mono (Nat.le_refl _) (by split <;> omega)
      have hstep : blocksFor n = blocksFor (n - min n (BSIZE - off % BSIZE)) + 1 := by
        simp only [blocksFor, BSIZE] at *
        omega
      have hmono := fun ind l (h : Spent ind l (a + 1 + blocksFor (n - min n (BSIZE - off % BSIZE)))
          (c + 1 + blocksFor (n - min n (BSIZE - off % BSIZE)))) =>
        (show Spent ind l (a + blocksFor n) (c + blocksFor n) from h.mono (by omega) (by omega))
      refine (ih ht hsp'' ?_ ?_ ⟨_, hsp''.mono (Nat.le_add_right ..) (Nat.le_add_right ..)⟩).mono
        (fun _ t h => h.imp fun ind h => hmono ind _ h) fun _ t h =>
        h.imp fun ind h => hmono ind _ h
      · simp only [BSIZE] at *
        omega
      · omega

/-- **The loop for a piece.** -/
theorem wp_writeLoopT_piece {off n : ℕ} {src : ℕ → UInt8} (hg : Guarded sb p s)
    (hn : n ≤ maxWrite) (hend : off + n ≤ MAXFILE * BSIZE)
    (hfirst : off % BSIZE ≠ 0 → slot s.disk (s.icache p).d (dataIdx (off / BSIZE)) ≠ 0) :
    Wp (writeLoopT sb p n src off n) (s, []) (fun _ t => t.2.toFinset.card ≤ 9)
      fun _ t => t.2.toFinset.card ≤ 9 := by
  have hmax : n ≤ 1536 := hn
  have hcard : ∀ {l ind a c}, Spent ind l a c → a + c ≤ 7 → l.toFinset.card ≤ 9 := fun h hle =>
    h.card_le.trans (by omega)
  by_cases hoff : off % BSIZE = 0
  · have hblocks : blocksFor n ≤ 3 := by
      simp only [blocksFor, BSIZE]
      omega
    refine (wp_writeLoopT_aligned n hg (Spent.nil _) (.inl hoff) hend).mono ?_ ?_
    · exact fun _ t ⟨_, h⟩ => hcard h (by omega)
    · exact fun _ t ⟨_, h⟩ => hcard h (by omega)
  · cases n with
    | zero => exact hcard (Spent.nil 0) (by omega)
    | succ m =>
      refine wp_writeRoundT hg (Spent.nil _) (Nat.add_one_ne_zero m) hend (fun t l' ht hsp => ?_)
        fun e t l' ind h => hcard h (by omega)
      have hblocks : blocksFor (m + 1 - min (m + 1) (BSIZE - off % BSIZE)) ≤ 3 := by
        simp only [blocksFor, BSIZE] at *
        omega
      rw [if_neg (hfirst hoff)] at hsp
      refine (wp_writeLoopT_aligned m ht hsp ?_ ?_).mono ?_ ?_
      · simp only [BSIZE] at *
        omega
      · omega
      · exact fun _ t ⟨_, h⟩ => hcard h (by omega)
      · exact fun _ t ⟨_, h⟩ => hcard h (by omega)

/-! ### The transaction -/

/-- The end of `writei` logs the block of the inode. -/
theorem card_append_le {l : List ℕ} {m : ℕ} (h : l.toFinset.card ≤ m) (x : ℕ) :
    (l ++ [x]).toFinset.card ≤ m + 1 := by
  have hsub : (l ++ [x]).toFinset ⊆ insert x l.toFinset := fun y hy => by
    rw [List.mem_toFinset, List.mem_append, List.mem_singleton] at hy
    rw [Finset.mem_insert, List.mem_toFinset]
    exact hy.symm
  exact (Finset.card_le_card hsub).trans ((Finset.card_insert_le _ _).trans
    (Nat.add_le_add_right h 1))

/-- `writei` of a piece. -/
theorem wp_writeiT_piece {src : ℕ → UInt8} {off n : UInt32} (hn : n.toNat ≤ maxWrite)
    (hholes : NoHoles s.disk (s.icache p).d) (hsound : Sound sb s.disk (s.icache p).d) :
    Wp (writeiT sb p src off n) (s, []) (fun _ t => t.2.toFinset.card ≤ MAXOPBLOCKS)
      fun _ t => t.2.toFinset.card ≤ MAXOPBLOCKS := by
  have hnone : ([] : List ℕ).toFinset.card ≤ MAXOPBLOCKS := Nat.zero_le _
  have hnine : ∀ {l : List ℕ}, l.toFinset.card ≤ 9 → l.toFinset.card ≤ MAXOPBLOCKS := fun h =>
    h.trans (by decide)
  rw [writeiT, wp_bind, wp_lift, wp_getInode, wp_ite]
  refine ⟨fun _ => ?_, fun _ => ?_⟩
  · rw [wp_ite]
    refine ⟨fun _ => ?_, fun _ => hnone⟩
    rw [wp_lift, Wp]
    split <;> exact hnone
  rw [wp_ite]
  refine ⟨fun _ => hnone, fun hrange => ?_⟩
  rw [wp_ite]
  refine ⟨fun _ => hnone, fun hmax => ?_⟩
  rw [not_or, gt_iff_lt, UInt32.not_lt, UInt32.not_lt, UInt32.le_iff_toNat_le,
    UInt32.le_iff_toNat_le, UInt32.toNat_add] at hrange
  rw [gt_iff_lt, UInt32.not_lt, UInt32.le_iff_toNat_le, UInt32.toNat_add] at hmax
  have hoff := off.toNat_lt
  have hend : off.toNat + n.toNat ≤ MAXFILE * BSIZE := by
    have hmax' : (UInt32.ofNat (MAXFILE * BSIZE)).toNat = MAXFILE * BSIZE := by decide
    rw [hmax'] at hmax
    have := n.toNat_lt
    omega
  rw [wp_bind]
  refine (wp_writeLoopT_piece (fun _ => hsound) hn hend fun hne => hholes _ ?_).mono
    (fun off' t ht => ?_) fun e t ht => hnine ht
  · have := Nat.div_add_mod' off.toNat BSIZE
    have := hrange.1
    omega
  · obtain ⟨t, l⟩ := t
    rw [wp_bind, wp_lift, wp_getInode, wp_ite]
    refine ⟨fun _ => ?_, fun _ => hnine ht⟩
    rw [wp_bind, wp_lift, wp_putDisk, wp_bind, iupdateT, wp_bind, wp_lift, wp_getInode,
      wp_bind, wp_note, wp_lift]
    exact card_append_le ht _

theorem wp_ilock_loaded :
    Wp (ilock sb p) s (fun _ t => t.disk = s.disk ∧ (t.icache p).d = s.loaded sb p)
    fun _ _ => True := by
  have hreturn : ∀ {t : State}, t.disk = s.disk → (t.icache p).inum = (s.icache p).inum →
      (t.icache p).d = (s.icache p).d → (t.icache p).valid = (s.icache p).valid →
      Wp (do
        let s ← get
        if (s.icache p).valid = false then
          let d := dinodeAt sb s.disk (s.icache p).inum
          putInode p fun n => { n with d := d, valid := true }
          if d.type = 0 then throw .noType : M Unit) t
        (fun _ t => t.disk = s.disk ∧ (t.icache p).d = s.loaded sb p) fun _ _ => True := by
    intro t hdisk hinum hd hvalid
    rw [wp_bind, wp_get, wp_ite, hvalid, State.loaded]
    refine ⟨fun hv => ?_, fun hv => ?_⟩
    · rw [wp_bind, wp_putInode, wp_ite, hv, hdisk, hinum]
      refine ⟨fun _ => trivial, fun _ => ⟨hdisk, ?_⟩⟩
      simp [State.setInode]
    · rw [if_pos (Bool.eq_true_of_not_eq_false hv)]
      exact ⟨hdisk, hd⟩
  rw [ilock, wp_bind, wp_getInode, wp_ite]
  refine ⟨fun _ => trivial, fun _ => ?_⟩
  rw [wp_bind, acquiresleep, wp_bind, wp_getInode, wp_ite]
  refine ⟨fun _ => trivial, fun _ => ?_⟩
  rw [wp_putInode]
  refine hreturn rfl ?_ ?_ ?_ <;> simp [State.setInode]

/-- **A piece fits into the log.** The blocks that `filewrite` logs between `begin_op` and `end_op`,
for a file without holes, are at most `MAXOPBLOCKS`. -/
theorem transaction_fits (sb : Superblock) (s : State) (f : FPtr) (ip : IPtr) (addr : ℕ → UInt8)
    (n1 : UInt32) (hn : n1.toNat ≤ maxWrite) (hholes : NoHoles s.disk (s.loaded sb ip))
    (hsound : Sound sb s.disk (s.loaded sb ip)) :
    (log (writePieceT sb f ip addr n1) s).toFinset.card ≤ MAXOPBLOCKS := by
  refine log_of_wp (P := fun l : List ℕ => l.toFinset.card ≤ MAXOPBLOCKS) ?_
  rw [writePieceT, wp_bind, wp_lift]
  refine wp_ilock_loaded.mono (fun _ t ht => ?_) fun _ _ _ => Nat.zero_le _
  rw [wp_bind, wp_lift, wp_get, wp_bind]
  rw [← ht.1, ← ht.2] at hholes hsound
  refine (wp_writeiT_piece hn hholes hsound).mono (fun r t ht => ?_) fun _ _ ht => ht
  obtain ⟨t, l⟩ := t
  rw [wp_bind, wp_lift, wp_modify, wp_bind, wp_lift, Wp]
  split <;> exact ht

/-- An empty file on an empty disk. -/
theorem transaction_fits_empty :
    let s : State := {
      disk := fun _ => usedMap nmeta
      icache := fun _ => ⟨2, 1, false, true, { Dinode.zero with type := T_FILE, nlink := 1 }⟩
      ftable := fun _ => ⟨1, .inode 0, true, true, 0⟩
      console := [] }
    (log (writePieceT mkfsSb 0 0 (fun _ => 7) 1500) s).toFinset.card ≤ MAXOPBLOCKS := by
  intro s
  have hslot : ∀ k, slot s.disk (s.loaded mkfsSb 0) k = 0 := slot_zero s.disk
  refine transaction_fits mkfsSb s 0 0 _ 1500 (by decide)
    (fun bn hbn => absurd hbn (Nat.not_lt_zero _))
    ⟨fun b hb => ?_, fun k hk => absurd (hslot k) hk⟩
  have hlt : b < BPB := hb.trans (by decide)
  rw [bitAt, bit_usedMap (by decide), Nat.mod_eq_of_lt hlt, decide_eq_true_iff]
  exact hb

end Fs

end Xv6
