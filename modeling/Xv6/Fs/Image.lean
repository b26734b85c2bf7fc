import Xv6.Fs.Blocks
import Xv6.Fs.Mkfs

/-!
# What `mkfs` puts on the image

`mkfs` hands out blocks in order and never takes one back, so the blocks in use are those below
`freeblock` and what lies behind is blank. While `iappend` works on an inode it has a copy of its
own, so the inodes are those of a table `nodes` rather than those on the image.

## Main definitions

* `Img.Owned` — the blocks below `freeblock` are used once each
* `Img.Holds` — every inode has the blocks and bytes of its file
* `blocks` — the number of blocks a file takes

## Main results

* `Img.Holds.round` — a round of `iappend` makes the file longer, if there are blocks
-/

namespace Xv6

namespace Fs

namespace Img

variable {m m' : Img} {nodes : ℕ → Dinode} {i k x : ℕ}

theorem pos_of_lt (h : x < 2 ^ 23) : pos x = x := by
  simp only [pos, BSIZE]
  omega

theorem rsect_of_lt (h : x < m.len) (hlen : m.len ≤ FSSIZE) : m.rsect x = some (m.disk x) := by
  rw [rsect, pos_of_lt (by simp only [FSSIZE] at hlen; omega), if_pos h]

theorem rsect_of_le (h : m.len ≤ x) (hx : x < 2 ^ 23) : m.rsect x = none := by
  rw [rsect, pos_of_lt hx, if_neg h.not_gt]

theorem wsect_of_lt {buf : Block} (h : x < m.len) (hlen : m.len ≤ FSSIZE) :
    m.wsect x buf = { m with disk := Function.update m.disk x buf } := by
  have hpos : pos x = x := pos_of_lt (by simp only [FSSIZE] at hlen; omega)
  rw [wsect, hpos, Nat.max_eq_left h]

/-! ### Blocks -/

/-- The blocks of the inodes are those from `nmeta` up to `freeblock`, once each. -/
structure Owned (m : Img) (nodes : ℕ → Dinode) : Prop where
  len : m.len = FSSIZE
  le : m.freeblock ≤ FSSIZE
  owns : Owns (slots m.disk nodes) (· < m.freeblock) nmeta FSSIZE
  blank : ∀ b, m.freeblock ≤ b → m.disk b = Bytes.zero _

theorem Owned.apart (h : Owned m nodes) : Apart m.disk nodes := h.owns.inj

theorem Owned.nmeta_le (h : Owned m nodes) : nmeta ≤ m.freeblock := by
  have hlast := (h.owns.used_iff (c := nmeta - 1) (by decide)).mpr (.inl (by decide))
  exact Nat.le_of_pred_lt hlast

theorem Owned.slots_lt (h : Owned m nodes) {a : Place} (ha : slots m.disk nodes a ≠ 0) :
    slots m.disk nodes a < m.freeblock := h.owns.used_of_ne_zero ha

/-- The effect of giving `b` to a place. -/
structure Given (m m' : Img) (nodes nodes' : ℕ → Dinode) (a : Place) : Prop where
  owned : Owned m' nodes'
  slots_eq : ∀ c, slots m'.disk nodes' c = if c = a then m.freeblock else slots m.disk nodes c
  bytes : ∀ j off, fileByte m'.disk (nodes' j) off = fileByte m.disk (nodes j) off
  freeblock : m'.freeblock = m.freeblock + 1
  freeinode : m'.freeinode = m.freeinode
  metadata : ∀ b < nmeta, m'.disk b = m.disk b

theorem Given.slots_ne {nodes' : ℕ → Dinode} {a : Place} (hg : Given m m' nodes nodes' a)
    (h : Owned m nodes) (c : Place) :
    slots m'.disk nodes' c ≠ 0 ↔ slots m.disk nodes c ≠ 0 ∨ c = a := by
  have hpos : m.freeblock ≠ 0 := (lt_of_lt_of_le (by decide : 0 < nmeta) h.nmeta_le).ne'
  rw [hg.slots_eq]
  split
  · next hc => exact iff_of_true hpos (.inr hc)
  · next hc => exact (or_iff_left hc).symm

/-- An address of an inode is given the next block. -/
theorem Owned.setAddr (h : Owned m nodes) (hf : m.freeblock < FSSIZE) {k : Fin (NDIRECT + 1)}
    (h0 : slots m.disk nodes (i, k) = 0) :
    Given m m.newBlock nodes
      (Function.update nodes i ((nodes i).setAddr k (UInt32.ofNat m.freeblock))) (i, k) := by
  have hb : m.freeblock < 2 ^ 32 := hf.trans (by decide)
  have hslots := slots_setAddr hb h0 (h.blank _ le_rfl)
  refine ⟨⟨h.len, hf, ?_, fun b hb => h.blank b ?_⟩, hslots,
    fileByte_setAddr hb h0 (h.blank _ le_rfl), rfl, rfl, fun _ _ => rfl⟩
  · exact h.owns.assign h0 hf (lt_irrefl _) (by decide) hslots fun c _ => Nat.lt_succ_iff_lt_or_eq
  · exact (Nat.le_succ _).trans hb

/-- An entry of an indirect block is given the next block. -/
theorem Owned.setUint (h : Owned m nodes) (hf : m.freeblock < FSSIZE) (hk : NDIRECT < k)
    (hk' : k ≤ MAXFILE) (hx : slots m.disk nodes (i, NDIRECT) ≠ 0)
    (h0 : slots m.disk nodes (i, k) = 0) :
    Given m (m.newBlock.wsect (slots m.disk nodes (i, NDIRECT))
      (Block.setUint (m.disk (slots m.disk nodes (i, NDIRECT))) (4 * (k - (NDIRECT + 1)))
        m.freeblock)) nodes nodes (i, k) := by
  have hb : m.freeblock < 2 ^ 32 := hf.trans (by decide)
  have hlt := h.slots_lt hx
  have hslots := slots_setUint h.apart hk hk' hb hx
  rw [wsect_of_lt (m := m.newBlock) (hlt.trans (hf.trans_eq h.len.symm)) h.len.le]
  refine ⟨⟨h.len, hf, ?_, fun b hb => ?_⟩, hslots,
    fileByte_setUint h.apart hk hk' hb hx h0 (h.blank _ le_rfl) hlt.ne', rfl, rfl, fun b hb => ?_⟩
  · exact h.owns.assign h0 hf (lt_irrefl _) (by decide) hslots fun c _ => Nat.lt_succ_iff_lt_or_eq
  · have hb : m.freeblock < b := hb
    exact (Function.update_of_ne (hlt.trans hb).ne' ..).trans (h.blank b hb.le)
  · exact Function.update_of_ne (hb.trans_le (h.owns.range hx).1).ne ..

/-- The addresses that block `fbn` of a file takes: its own, and the indirect block. -/
def Wants (fbn k : ℕ) : Prop := k = dataIdx fbn ∨ NDIRECT ≤ fbn ∧ k = NDIRECT

/-- How many of them inode `i` does not have. -/
def lacks (m : Img) (nodes : ℕ → Dinode) (i fbn : ℕ) : ℕ :=
  (if slots m.disk nodes (i, dataIdx fbn) = 0 then 1 else 0) +
    if NDIRECT ≤ fbn ∧ slots m.disk nodes (i, NDIRECT) = 0 then 1 else 0

/-- Inode `i` has got the block `x` for block `fbn` of its file. -/
structure Provided (m m' : Img) (nodes nodes' : ℕ → Dinode) (i fbn x : ℕ) : Prop where
  owned : Owned m' nodes'
  block : slots m'.disk nodes' (i, dataIdx fbn) = x
  ne_zero : x ≠ 0
  slots_ne : ∀ a, slots m'.disk nodes' a ≠ 0 ↔
    slots m.disk nodes a ≠ 0 ∨ a.1 = i ∧ Wants fbn a.2
  bytes : ∀ j off, fileByte m'.disk (nodes' j) off = fileByte m.disk (nodes j) off
  freeblock : m'.freeblock = m.freeblock + lacks m nodes i fbn
  freeinode : m'.freeinode = m.freeinode
  metadata : ∀ b < nmeta, m'.disk b = m.disk b

variable {fbn : ℕ}

theorem dataIdx_of_ge (h : NDIRECT ≤ fbn) : dataIdx fbn = fbn + 1 := if_neg h.not_gt

/-- The entry of the indirect block for block `fbn` of a file. -/
theorem slots_entry (hfbn : NDIRECT ≤ fbn) (hlt : fbn < MAXFILE)
    (hx : slots m.disk nodes (i, NDIRECT) ≠ 0) :
    slots m.disk nodes (i, dataIdx fbn) =
      (m.disk (slots m.disk nodes (i, NDIRECT))).uint (4 * (fbn - NDIRECT)) := by
  rw [dataIdx_of_ge hfbn]
  have h := @slot_of_gt m.disk (nodes i) (fbn + 1) (Nat.lt_succ_of_le hfbn) hlt hx
  rwa [Nat.add_sub_add_right] at h

/-- With an indirect block, all that is wanted is the block itself. -/
theorem or_wants (hx : slots m.disk nodes (i, NDIRECT) ≠ 0) {a : Place} :
    slots m.disk nodes a ≠ 0 ∨ a = (i, dataIdx fbn) ↔
      slots m.disk nodes a ≠ 0 ∨ a.1 = i ∧ Wants fbn a.2 := by
  constructor
  · rintro (h | rfl)
    · exact .inl h
    · exact .inr ⟨rfl, .inl rfl⟩
  · rintro (h | ⟨rfl, h | ⟨-, h⟩⟩)
    · exact .inl h
    · exact .inr (Prod.ext rfl h)
    · exact .inl (by rwa [← h] at hx)

theorem Owned.entryFor (h : Owned m nodes) (hfbn : NDIRECT ≤ fbn) (hlt : fbn < MAXFILE)
    (hx : slots m.disk nodes (i, NDIRECT) ≠ 0)
    (hfit : m.freeblock + lacks m nodes i fbn ≤ FSSIZE) :
    ∃ x m', m.entryFor (nodes i) fbn = some (x, nodes i, m') ∧
    Provided m m' nodes nodes i fbn x := by
  have hind : ((nodes i).addr NDIRECT).toNat = slots m.disk nodes (i, NDIRECT) :=
    (slot_of_le le_rfl).symm
  have hrs : m.rsect (slots m.disk nodes (i, NDIRECT)) =
      some (m.disk (slots m.disk nodes (i, NDIRECT))) :=
    rsect_of_lt (((h.slots_lt hx).trans_le h.le).trans_eq h.len.symm) h.len.le
  have hentry := slots_entry hfbn hlt hx
  simp only [Img.entryFor, hind, hrs, Option.bind_eq_bind, Option.bind_some, ← hentry]
  have hlack : lacks m nodes i fbn = if slots m.disk nodes (i, dataIdx fbn) = 0 then 1 else 0 := by
    rw [lacks, if_neg (c := _ ∧ _) fun hc => hx hc.2]
    rfl
  by_cases h0 : slots m.disk nodes (i, dataIdx fbn) = 0
  · rw [hlack, if_pos h0] at hfit
    have hg := h.setUint (k := dataIdx fbn) hfit (by rw [dataIdx_of_ge hfbn]; omega)
      (by rw [dataIdx_of_ge hfbn]; exact hlt) hx h0
    have hsub : dataIdx fbn - (NDIRECT + 1) = fbn - NDIRECT := by
      rw [dataIdx_of_ge hfbn, Nat.add_sub_add_right]
    rw [hsub] at hg
    rw [if_pos h0]
    refine ⟨_, _, rfl, hg.owned, by rw [hg.slots_eq, if_pos rfl], ?_, fun a => ?_, hg.bytes, ?_,
      hg.freeinode, hg.metadata⟩
    · exact (lt_of_lt_of_le (by decide : 0 < nmeta) h.nmeta_le).ne'
    · rw [hg.slots_ne h, or_wants hx]
    · rw [hg.freeblock, hlack, if_pos h0]
  · rw [if_neg h0]
    refine ⟨_, _, rfl, h, rfl, h0, fun a => ?_, fun _ _ => rfl, ?_, rfl, fun _ _ => rfl⟩
    · rw [← or_wants hx]
      exact (or_iff_left_of_imp (by rintro rfl; exact h0)).symm
    · rw [hlack, if_neg h0]
      rfl

theorem update_self_node (nodes : ℕ → Dinode) (i : ℕ) : Function.update nodes i (nodes i) = nodes :=
  Function.update_eq_self i nodes

/-- A block is found or allocated, if there are enough. -/
theorem Owned.blockFor (h : Owned m nodes) (hlt : fbn < MAXFILE)
    (hfit : m.freeblock + lacks m nodes i fbn ≤ FSSIZE) :
    ∃ x din m', m.blockFor (nodes i) fbn = some (x, din, m') ∧
      Provided m m' nodes (Function.update nodes i din) i fbn x ∧
      ∃ addrs, din = { nodes i with addrs := addrs } := by
  have hpos : m.freeblock ≠ 0 := (lt_of_lt_of_le (by decide : 0 < nmeta) h.nmeta_le).ne'
  by_cases hd : fbn < NDIRECT
  · have hidx : dataIdx fbn = fbn := if_pos hd
    have hwants : ∀ a : Place, a = (i, fbn) ↔ a.1 = i ∧ Wants fbn a.2 := fun a => by
      simp only [Wants, hidx, Prod.ext_iff, hd.not_ge, false_and, or_false]
    have hslot : slots m.disk nodes (i, fbn) = ((nodes i).addr fbn).toNat := slot_of_le hd.le
    have hlack : lacks m nodes i fbn = if slots m.disk nodes (i, fbn) = 0 then 1 else 0 := by
      rw [lacks, hidx, if_neg (c := _ ∧ _) fun hc => hd.not_ge hc.1]
      rfl
    rw [Img.blockFor, dif_pos hd]
    by_cases h0 : (nodes i).addr fbn = 0
    · have hs0 : slots m.disk nodes (i, fbn) = 0 := by rw [hslot, h0]; rfl
      rw [hlack, if_pos hs0] at hfit
      have hg := h.setAddr (k := ⟨fbn, Nat.lt_succ_of_lt hd⟩) hfit hs0
      rw [if_pos h0]
      refine ⟨_, _, _, rfl, ⟨hg.owned, ?_, hpos,
        fun a => ?_, hg.bytes, ?_, rfl, hg.metadata⟩, _, rfl⟩
      · rw [hidx, hg.slots_eq, if_pos rfl]
      · rw [hg.slots_ne h, ← hwants]
      · rw [hg.freeblock, hlack, if_pos hs0]
    · have hs0 : slots m.disk nodes (i, fbn) ≠ 0 := fun hs =>
        h0 (UInt32.toNat_inj.mp (hslot.symm.trans hs))
      rw [if_neg h0]
      refine ⟨_, _, _, rfl, ?_, (nodes i).addrs, rfl⟩
      rw [update_self_node]
      refine ⟨h, by rw [hidx, hslot], by rwa [hslot] at hs0, fun a => ?_, fun _ _ => rfl, ?_, rfl,
        fun _ _ => rfl⟩
      · rw [← hwants]
        exact (or_iff_left_of_imp (by rintro rfl; exact hs0)).symm
      · rw [hlack, if_neg hs0]
        rfl
  · have hge := not_lt.mp hd
    have hslot : slots m.disk nodes (i, NDIRECT) = ((nodes i).addr NDIRECT).toNat :=
      slot_of_le le_rfl
    rw [Img.blockFor, dif_neg hd]
    by_cases h0 : (nodes i).addr NDIRECT = 0
    · have hs0 : slots m.disk nodes (i, NDIRECT) = 0 := by rw [hslot, h0]; rfl
      have he0 : slots m.disk nodes (i, dataIdx fbn) = 0 := by
        rw [dataIdx_of_ge hge]
        exact slot_eq_zero (Nat.lt_succ_of_le hge) hs0
      have hlack : lacks m nodes i fbn = 2 := by rw [lacks, if_pos he0, if_pos ⟨hge, hs0⟩]
      rw [hlack] at hfit
      have hg := h.setAddr (k := Fin.last NDIRECT) (Nat.lt_of_succ_lt hfit) hs0
      generalize hn : Function.update nodes i ((nodes i).setAddr (Fin.last NDIRECT)
        (UInt32.ofNat m.freeblock)) = nodes' at hg
      have hni : (nodes i).setAddr (Fin.last NDIRECT) (UInt32.ofNat m.freeblock) = nodes' i := by
        rw [← hn, Function.update_self]
      have hx : slots m.newBlock.disk nodes' (i, NDIRECT) ≠ 0 := (hg.slots_ne h _).mpr (.inr rfl)
      have he : slots m.newBlock.disk nodes' (i, dataIdx fbn) = 0 := by
        rw [hg.slots_eq, if_neg fun hc => dataIdx_ne fbn (congrArg Prod.snd hc), he0]
      have hlack' : lacks m.newBlock nodes' i fbn = 1 := by
        rw [lacks, if_pos he, if_neg fun hc => hx hc.2]
      obtain ⟨x, m', hrun, hp⟩ := hg.owned.entryFor hge hlt hx (by rw [hlack']; exact hfit)
      rw [if_pos h0, hni]
      refine ⟨x, nodes' i, m', hrun, ?_, ((nodes i).setAddr (Fin.last NDIRECT)
        (UInt32.ofNat m.freeblock)).addrs, hni.symm⟩
      rw [show Function.update nodes i (nodes' i) = nodes' by rw [← hni, hn]]
      refine ⟨hp.owned, hp.block, hp.ne_zero, fun a => ?_, fun j off => ?_, ?_, ?_, fun b hb => ?_⟩
      · rw [hp.slots_ne, hg.slots_ne h, or_assoc]
        refine or_congr_right (or_iff_right_of_imp ?_)
        rintro rfl
        exact ⟨rfl, .inr ⟨hge, rfl⟩⟩
      · rw [hp.bytes, hg.bytes]
      · rw [hp.freeblock, hg.freeblock, hlack', hlack]
      · rw [hp.freeinode, hg.freeinode]
      · rw [hp.metadata b hb, hg.metadata b hb]
    · have hs0 : slots m.disk nodes (i, NDIRECT) ≠ 0 := fun hs =>
        h0 (UInt32.toNat_inj.mp (hslot.symm.trans hs))
      obtain ⟨x, m', hrun, hp⟩ := h.entryFor hge hlt hs0 hfit
      rw [if_neg h0]
      refine ⟨x, nodes i, m', hrun, ?_, (nodes i).addrs, rfl⟩
      rwa [update_self_node]

/-! ### There are no blocks left -/

theorem Owned.entryFor_full (h : Owned m nodes) (hfull : m.freeblock = FSSIZE) (hge : NDIRECT ≤ fbn)
    (hlt : fbn < MAXFILE) (hx : slots m.disk nodes (i, NDIRECT) ≠ 0)
    (h0 : slots m.disk nodes (i, dataIdx fbn) = 0) :
    ∃ m', m.entryFor (nodes i) fbn = some (FSSIZE, nodes i, m') ∧ m'.len = FSSIZE := by
  have hind : ((nodes i).addr NDIRECT).toNat = slots m.disk nodes (i, NDIRECT) :=
    (slot_of_le le_rfl).symm
  have hlt' : slots m.disk nodes (i, NDIRECT) < m.len :=
    ((h.slots_lt hx).trans_le h.le).trans_eq h.len.symm
  rw [slots_entry hge hlt hx] at h0
  simp only [Img.entryFor, hind, rsect_of_lt hlt' h.len.le, Option.bind_eq_bind,
    Option.bind_some, h0, if_true, ← hfull]
  refine ⟨_, rfl, ?_⟩
  rw [wsect_of_lt (m := m.newBlock) hlt' h.len.le]
  exact h.len.trans hfull.symm

/-- If there are not enough blocks then `mkfs` reads behind the end of the image and gives up. -/
theorem Owned.appendRound_full (h : Owned m nodes) {off n1 : ℕ} {p : List UInt8}
    (hlt : off / BSIZE < MAXFILE) (hfull : FSSIZE < m.freeblock + lacks m nodes i (off / BSIZE)) :
    m.appendRound (nodes i) off n1 p = none := by
  have hend : ∀ {m' : Img}, m'.len = FSSIZE → m'.rsect FSSIZE = none := fun hl =>
    rsect_of_le hl.le (by decide)
  generalize hfbn : off / BSIZE = fbn at hlt hfull
  rw [Img.appendRound, hfbn, Img.blockFor]
  by_cases hd : fbn < NDIRECT
  · have hidx : dataIdx fbn = fbn := if_pos hd
    have hslot : slots m.disk nodes (i, fbn) = ((nodes i).addr fbn).toNat := slot_of_le hd.le
    have hs0 : slots m.disk nodes (i, fbn) = 0 := by
      by_contra hs0
      rw [lacks, hidx, if_neg hs0, if_neg fun hc => hd.not_ge hc.1] at hfull
      exact hfull.not_ge h.le
    rw [lacks, hidx, if_pos hs0, if_neg fun hc => hd.not_ge hc.1] at hfull
    have heq : m.freeblock = FSSIZE := le_antisymm h.le (Nat.le_of_lt_succ hfull)
    have h0 : (nodes i).addr fbn = 0 := UInt32.toNat_inj.mp (hslot.symm.trans hs0)
    simp only [dif_pos hd, if_pos h0, heq, Option.bind_eq_bind, Option.bind_some,
      @hend m.newBlock h.len, Option.bind_none]
  · have hge := not_lt.mp hd
    have hslot : slots m.disk nodes (i, NDIRECT) = ((nodes i).addr NDIRECT).toNat :=
      slot_of_le le_rfl
    rw [dif_neg hd]
    by_cases h0 : (nodes i).addr NDIRECT = 0
    · have hs0 : slots m.disk nodes (i, NDIRECT) = 0 := by rw [hslot, h0]; rfl
      have he0 : slots m.disk nodes (i, dataIdx fbn) = 0 := by
        rw [dataIdx_of_ge hge]
        exact slot_eq_zero (Nat.lt_succ_of_le hge) hs0
      rw [lacks, if_pos he0, if_pos ⟨hge, hs0⟩] at hfull
      rw [if_pos h0]
      by_cases hf : m.freeblock < FSSIZE
      · have hg := h.setAddr (k := Fin.last NDIRECT) hf hs0
        generalize hn : Function.update nodes i ((nodes i).setAddr (Fin.last NDIRECT)
          (UInt32.ofNat m.freeblock)) = nodes' at hg
        have hni : (nodes i).setAddr (Fin.last NDIRECT) (UInt32.ofNat m.freeblock) = nodes' i := by
          rw [← hn, Function.update_self]
        have he : slots m.newBlock.disk nodes' (i, dataIdx fbn) = 0 := by
          rw [hg.slots_eq, if_neg fun hc => dataIdx_ne fbn (congrArg Prod.snd hc), he0]
        obtain ⟨m', hrun, hlen⟩ := hg.owned.entryFor_full
          (le_antisymm hf (Nat.le_of_lt_succ hfull)) hge hlt ((hg.slots_ne h _).mpr (.inr rfl)) he
        rw [hni, hrun]
        simp only [Option.bind_eq_bind, Option.bind_some, hend hlen, Option.bind_none]
      · have heq : m.freeblock = FSSIZE := le_antisymm h.le (not_lt.mp hf)
        have hv : ((nodes i).setAddr (Fin.last NDIRECT) (UInt32.ofNat m.freeblock)).addr NDIRECT =
            UInt32.ofNat FSSIZE := by
          rw [addr_setAddr, if_pos (Fin.val_last NDIRECT).symm, heq]
        have hnat : (UInt32.ofNat FSSIZE).toNat = FSSIZE := rfl
        simp only [Img.entryFor, hv, hnat, @hend m.newBlock h.len, Option.bind_eq_bind,
          Option.bind_none]
    · have hs0 : slots m.disk nodes (i, NDIRECT) ≠ 0 := fun hs =>
        h0 (UInt32.toNat_inj.mp (hslot.symm.trans hs))
      have he0 : slots m.disk nodes (i, dataIdx fbn) = 0 := by
        by_contra he0
        rw [lacks, if_neg he0, if_neg fun hc => hs0 hc.2] at hfull
        exact hfull.not_ge h.le
      rw [lacks, if_pos he0, if_neg fun hc => hs0 hc.2] at hfull
      obtain ⟨m', hrun, hlen⟩ := h.entryFor_full
        (le_antisymm h.le (Nat.le_of_lt_succ hfull)) hge hlt
        hs0 he0
      rw [if_neg h0, hrun]
      simp only [Option.bind_eq_bind, Option.bind_some, hend hlen, Option.bind_none]

end Img

/-! ### Files -/

/-- A file of `n` bytes needs address `k`. -/
def Needs (n k : ℕ) : Prop := ∃ bn, bn * BSIZE < n ∧ Img.Wants bn k

theorem needs_dataIdx {n bn : ℕ} : Needs n (dataIdx bn) ↔ bn * BSIZE < n := by
  constructor
  · rintro ⟨bn', hlt, h | ⟨-, h⟩⟩
    · rwa [dataIdx_injective h]
    · exact absurd h (dataIdx_ne bn)
  · exact fun h => ⟨bn, h, .inl rfl⟩

theorem needs_ndirect {n : ℕ} : Needs n NDIRECT ↔ NDIRECT * BSIZE < n := by
  constructor
  · rintro ⟨bn, hlt, h | ⟨hge, -⟩⟩
    · exact absurd h.symm (dataIdx_ne bn)
    · exact (Nat.mul_le_mul_right _ hge).trans_lt hlt
  · exact fun h => ⟨NDIRECT, h, .inr ⟨le_rfl, rfl⟩⟩

/-- A file gets longer inside one block. -/
theorem needs_add {off n1 k : ℕ} (h1 : 0 < n1) (hn : n1 ≤ (off / BSIZE + 1) * BSIZE - off) :
    Needs (off + n1) k ↔ Needs off k ∨ Img.Wants (off / BSIZE) k := by
  simp only [BSIZE] at *
  constructor
  · rintro ⟨bn, hlt, hw⟩
    obtain hbn | rfl := (show bn ≤ off / 512 by simp only [BSIZE] at hlt; omega).lt_or_eq
    · exact .inl ⟨bn, by simp only [BSIZE]; omega, hw⟩
    · exact .inr hw
  · rintro (⟨bn, hlt, hw⟩ | hw)
    · exact ⟨bn, hlt.trans_le (Nat.le_add_right ..), hw⟩
    · exact ⟨off / 512, by simp only [BSIZE]; omega, hw⟩

/-- The number of blocks that a file of `n` bytes takes. -/
def blocks (n : ℕ) : ℕ :=
  (n + (BSIZE - 1)) / BSIZE + if NDIRECT * BSIZE < n then 1 else 0

/-- An inode has the blocks of a file and they hold its bytes. -/
structure HoldsFile (disk : Disk) (d : Dinode) (data : List UInt8) : Prop where
  exact : ∀ k, slot disk d k ≠ 0 ↔ Needs data.length k
  bytes : ∀ off < data.length, fileByte disk d off = data.getD off 0

namespace Img

variable {m m' : Img} {nodes : ℕ → Dinode} {data : ℕ → List UInt8} {i : ℕ}

/-- The image is in order, and the inodes hold the files `data`. -/
structure Holds (m : Img) (nodes : ℕ → Dinode) (data : ℕ → List UInt8) : Prop where
  owned : Owned m nodes
  file : ∀ i, HoldsFile m.disk (nodes i) (data i)

theorem Holds.lacks (h : Holds m nodes data) {n1 : ℕ} (h1 : 0 < n1)
    (hn : n1 ≤ ((data i).length / BSIZE + 1) * BSIZE - (data i).length) :
    blocks (data i).length + lacks m nodes i ((data i).length / BSIZE) =
      blocks ((data i).length + n1) := by
  have hd := (h.file i).exact (dataIdx ((data i).length / BSIZE))
  have hi := (h.file i).exact NDIRECT
  rw [needs_dataIdx] at hd
  rw [needs_ndirect] at hi
  have hd' : slots m.disk nodes (i, dataIdx ((data i).length / BSIZE)) = 0 ↔
      ¬ (data i).length / BSIZE * BSIZE < (data i).length := by rw [← hd]; exact not_not.symm
  have hi' : slots m.disk nodes (i, NDIRECT) = 0 ↔ ¬ NDIRECT * BSIZE < (data i).length := by
    rw [← hi]; exact not_not.symm
  simp only [Img.lacks, blocks, hd', hi', BSIZE, NDIRECT] at hn ⊢
  split <;> split <;> split <;> split <;> omega

/-- Bytes that are written to a block with a place. -/
theorem Owned.write (h : Owned m nodes) {bn x : ℕ} (hx : slots m.disk nodes (i, dataIdx bn) = x)
    (hx0 : x ≠ 0) (o n : ℕ) (src : ℕ → UInt8) :
    Owned (m.wsect x (Bytes.blit (m.disk x) o n src)) nodes ∧
      (∀ a, slots (m.wsect x (Bytes.blit (m.disk x) o n src)).disk nodes a = slots m.disk nodes a) ∧
      ∀ j off, fileByte (m.wsect x (Bytes.blit (m.disk x) o n src)).disk (nodes j) off =
        if j = i ∧ off / BSIZE = bn ∧ o ≤ off % BSIZE ∧ off % BSIZE < o + n then
          src (off % BSIZE - o)
        else fileByte m.disk (nodes j) off := by
  subst hx
  have hlt := h.slots_lt hx0
  rw [wsect_of_lt ((hlt.trans_le h.le).trans_eq h.len.symm) h.len.le]
  have hslots := @slots_update m.disk nodes (slots m.disk nodes (i, dataIdx bn))
    (Bytes.blit (m.disk (slots m.disk nodes (i, dataIdx bn))) o n src)
    fun i' => .inl fun h' => dataIdx_ne bn (congrArg Prod.snd (h.apart h' (h' ▸ hx0))).symm
  refine ⟨⟨h.len, h.le, h.owns.congr hslots fun _ _ => Iff.rfl, fun b hb => ?_⟩, hslots,
    fileByte_write h.apart hx0 o n src⟩
  exact (Function.update_of_ne (hlt.trans_le hb).ne' ..).trans (h.blank b hb)

/-- The file of inode `i` has got longer; `din` is the copy of the inode. -/
structure Appended (m m' : Img) (nodes : ℕ → Dinode) (data : ℕ → List UInt8) (i : ℕ) (din : Dinode)
    (p : List UInt8) : Prop where
  holds : Holds m' (Function.update nodes i din) (Function.update data i (data i ++ p))
  freeblock : m'.freeblock + blocks (data i).length =
    m.freeblock + blocks ((data i).length + p.length)
  freeinode : m'.freeinode = m.freeinode
  metadata : ∀ b < nmeta, m'.disk b = m.disk b
  fields : ∃ addrs, din = { nodes i with addrs := addrs }

/-- Where a byte behind the end of the file goes. -/
theorem append_index {n n1 off : ℕ} (hn : n1 ≤ (n / BSIZE + 1) * BSIZE - n) (hlt : off < n + n1)
    (hle : n ≤ off) : off / BSIZE = n / BSIZE ∧ n % BSIZE ≤ off % BSIZE ∧
      off % BSIZE < n % BSIZE + n1 ∧ off % BSIZE - n % BSIZE = off - n := by
  simp only [BSIZE] at *
  omega

theorem Holds.round (h : Holds m nodes data) {n1 : ℕ} {p : List UInt8} (h1 : 0 < n1)
    (hnp : n1 ≤ p.length) (hn : n1 ≤ ((data i).length / BSIZE + 1) * BSIZE - (data i).length)
    (hmax : (data i).length / BSIZE < MAXFILE)
    (hfit : m.freeblock + blocks ((data i).length + n1) ≤ FSSIZE + blocks (data i).length) :
    ∃ din m', m.appendRound (nodes i) (data i).length n1 p = some (din, m') ∧
      Appended m m' nodes data i din (p.take n1) := by
  have hlack := h.lacks h1 hn
  obtain ⟨x, din, m₁, hrun, hp, hdin⟩ := h.owned.blockFor (i := i) hmax (by omega)
  have hx : x < m₁.len := by
    have := hp.owned.slots_lt (hp.block.trans_ne hp.ne_zero)
    rw [hp.block] at this
    exact (this.trans_le hp.owned.le).trans_eq hp.owned.len.symm
  have hmod : (data i).length - (data i).length / BSIZE * BSIZE = (data i).length % BSIZE := by
    simp only [BSIZE]
    omega
  obtain ⟨hown, hslots, hbytes⟩ := hp.owned.write hp.block hp.ne_zero ((data i).length % BSIZE) n1
    fun k => p.getD k 0
  refine ⟨din, _, by simp only [Img.appendRound, hrun, Option.bind_eq_bind, Option.bind_some,
    rsect_of_lt hx hp.owned.len.le, hmod]; rfl,
    ⟨hown, fun j => ⟨fun k => ?_, fun off hoff => ?_⟩⟩, ?_, hp.freeinode, fun b hb => ?_, hdin⟩
  · -- the addresses of the file
    have hk : slot (m₁.wsect x _).disk (Function.update nodes i din j) k ≠ 0 ↔ _ :=
      (Iff.of_eq (congrArg (· ≠ 0) (hslots (j, k)))).trans (hp.slots_ne (j, k))
    rw [hk]
    by_cases hj : j = i
    · subst hj
      rw [Function.update_self, List.length_append, List.length_take_of_le hnp, needs_add h1 hn,
        ← (h.file j).exact]
      simp only [slots, true_and]
    · rw [Function.update_of_ne hj, ← (h.file j).exact]
      simp only [slots, hj, false_and, or_false]
  · -- its bytes
    rw [hbytes, hp.bytes]
    by_cases hj : j = i
    · subst hj
      rw [Function.update_self, List.length_append, List.length_take_of_le hnp] at hoff
      rw [Function.update_self]
      by_cases hold : off < (data j).length
      · rw [if_neg (by simp only [BSIZE] at *; omega), (h.file j).bytes off hold,
          List.getD_append _ _ _ _ hold]
      · obtain ⟨hdiv, hle, hlt, hsub⟩ := append_index hn hoff (not_lt.mp hold)
        rw [if_pos ⟨rfl, hdiv, hle, hlt⟩, hsub, List.getD_append_right _ _ _ _ (not_lt.mp hold)]
        simp only [List.getD_eq_getElem?_getD, List.getElem?_take]
        rw [if_pos (by omega)]
    · rw [Function.update_of_ne hj] at hoff ⊢
      rw [if_neg fun hc => hj hc.1, (h.file j).bytes off hoff]
  · rw [List.length_take_of_le hnp]
    have hfree : (m₁.wsect x (Bytes.blit (m₁.disk x) ((data i).length % BSIZE) n1
      fun k => p.getD k 0)).freeblock = m₁.freeblock := rfl
    have := hp.freeblock
    omega
  · rw [wsect_of_lt hx hp.owned.len.le]
    have hge := (hp.owned.owns.range (hp.block.trans_ne hp.ne_zero)).1
    rw [hp.block] at hge
    exact (Function.update_of_ne (hb.trans_le hge).ne ..).trans (hp.metadata b hb)

theorem Holds.length_le (h : Holds m nodes data) (i : ℕ) : (data i).length ≤ MAXFILE * BSIZE := by
  by_contra hlt
  have := ((h.file i).exact (dataIdx MAXFILE)).mpr (needs_dataIdx.mpr (not_le.mp hlt))
  exact this (slot_of_gt_maxfile (by decide))

end Img

theorem blocks_zero : blocks 0 = 0 := rfl

theorem blocks_mono {a b : ℕ} (h : a ≤ b) : blocks a ≤ blocks b := by
  simp only [blocks, BSIZE, NDIRECT]
  split <;> split <;> omega

namespace Img

variable {m m' : Img} {nodes : ℕ → Dinode} {data : ℕ → List UInt8} {i : ℕ}

/-- There are blocks for a file of `n` bytes to become one of `n'`. -/
def Room (m : Img) (n n' : ℕ) : Prop :=
  n' ≤ MAXFILE * BSIZE ∧ m.freeblock + blocks n' ≤ FSSIZE + blocks n

theorem Appended.refl (h : Holds m nodes data) (i : ℕ) :
    Appended m m nodes data i (nodes i) [] := by
  refine ⟨?_, rfl, rfl, fun _ _ => rfl, _, rfl⟩
  rwa [List.append_nil, Function.update_eq_self, Function.update_eq_self]

theorem Appended.trans {m₁ m₂ : Img} {din din' : Dinode} {p q : List UInt8}
    (h : Appended m m₁ nodes data i din p)
    (h' : Appended m₁ m₂ (Function.update nodes i din) (Function.update data i (data i ++ p)) i din'
      q) : Appended m m₂ nodes data i din' (p ++ q) := by
  obtain ⟨addrs, hdin⟩ := h.fields
  obtain ⟨addrs', hdin'⟩ := h'.fields
  have hholds := h'.holds
  have hfree := h'.freeblock
  rw [Function.update_idem, Function.update_idem, Function.update_self, List.append_assoc] at hholds
  rw [Function.update_self, List.length_append] at hfree
  refine ⟨hholds, ?_, h'.freeinode.trans h.freeinode,
    fun b hb => (h'.metadata b hb).trans (h.metadata b hb), addrs', ?_⟩
  · rw [List.length_append, ← Nat.add_assoc]
    have := h.freeblock
    omega
  · rw [hdin', Function.update_self, hdin]

/-- **The loop of `iappend`** appends all bytes if there is room, and otherwise fails. -/
theorem Holds.iappendLoop (h : Holds m nodes data) {fuel : ℕ} {p : List UInt8}
    (hf : p.length ≤ fuel) :
    (m.Room (data i).length ((data i).length + p.length) →
      ∃ m' din, Img.iappendLoop fuel m (nodes i) (data i).length p =
        some (m', din, (data i).length + p.length) ∧ Appended m m' nodes data i din p) ∧
    (¬ m.Room (data i).length ((data i).length + p.length) →
      Img.iappendLoop fuel m (nodes i) (data i).length p = none) := by
  induction fuel generalizing m nodes data p with
  | zero =>
    obtain rfl : p = [] := List.length_eq_zero_iff.mp (Nat.le_zero.mp hf)
    refine ⟨fun _ => ⟨m, nodes i, rfl, .refl h i⟩, fun hno => absurd ⟨h.length_le i, ?_⟩ hno⟩
    exact Nat.add_le_add_right h.owned.le _
  | succ fuel ih =>
    rw [Img.iappendLoop]
    by_cases hp : p = []
    · subst hp
      rw [if_pos rfl]
      refine ⟨fun _ => ⟨m, nodes i, rfl, .refl h i⟩, fun hno => absurd ⟨h.length_le i, ?_⟩ hno⟩
      exact Nat.add_le_add_right h.owned.le _
    rw [if_neg hp]
    by_cases hmax : (data i).length / BSIZE < MAXFILE
    · rw [if_pos hmax]
      generalize hn1 : min p.length (((data i).length / BSIZE + 1) * BSIZE - (data i).length) = n1
      have hpos : 0 < p.length := List.length_pos_of_ne_nil hp
      have h1 : 0 < n1 := by simp only [BSIZE] at hn1; omega
      have hnp : n1 ≤ p.length := hn1 ▸ Nat.min_le_left ..
      have hn : n1 ≤ ((data i).length / BSIZE + 1) * BSIZE - (data i).length :=
        hn1 ▸ Nat.min_le_right ..
      have hmono : blocks ((data i).length + n1) ≤ blocks ((data i).length + p.length) :=
        blocks_mono (by omega)
      by_cases hfit : m.freeblock + blocks ((data i).length + n1) ≤ FSSIZE + blocks (data i).length
      · obtain ⟨din, m₁, hrun, hap⟩ := h.round h1 hnp hn hmax hfit
        have hih := ih hap.holds (p := p.drop n1) (by rw [List.length_drop]; omega)
        have hfree := hap.freeblock
        have hlen : (data i).length + n1 + (p.length - n1) = (data i).length + p.length := by omega
        rw [List.length_take_of_le hnp] at hfree
        rw [Function.update_self, Function.update_self, List.length_append,
          List.length_take_of_le hnp, List.length_drop, hlen] at hih
        simp only [hrun, Option.bind_eq_bind, Option.bind_some]
        have hroom : m₁.Room ((data i).length + n1) ((data i).length + p.length) ↔
            m.Room (data i).length ((data i).length + p.length) := by
          refine and_congr_right fun _ => ?_
          omega
        rw [hroom] at hih
        refine ⟨fun hr => ?_, hih.2⟩
        obtain ⟨m₂, din', hrun', hap'⟩ := hih.1 hr
        refine ⟨m₂, din', hrun', ?_⟩
        have := hap.trans hap'
        rwa [List.take_append_drop] at this
      · have hlack := h.lacks h1 hn
        have hnone : m.appendRound (nodes i) (data i).length n1 p = none :=
          h.owned.appendRound_full hmax (by omega)
        simp only [hnone, Option.bind_eq_bind, Option.bind_none]
        exact ⟨fun hr => absurd hr.2 (by omega), fun _ => trivial⟩
    · rw [if_neg hmax]
      refine ⟨fun hr => absurd hr.1 ?_, fun _ => rfl⟩
      have := List.length_pos_of_ne_nil hp
      simp only [BSIZE, MAXFILE, NDIRECT, NINDIRECT] at *
      omega

end Img

end Fs

end Xv6
