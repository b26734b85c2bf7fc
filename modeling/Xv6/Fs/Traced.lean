import Xv6.Fs.Blocks
import Xv6.Fs.Machine
import Xv6.Lib.Ghost

/-!
# What a write logs

`writei` and what it calls once more, with a log of the blocks that are given to `log_write`.

## Main definitions

* `ballocT`, `bmapT`, `writeiT` — the functions with their logs
* `writePiece`, `writePieceT` — a transaction of `filewrite`

## Main results

* `erases_writei`, `erases_writePiece` — without the log these are the functions themselves
* `filewriteLoop_succ` — the loop of `filewrite` is made of such transactions
* `wp_ballocT`, `wp_bmapT` — the blocks that are allocated
-/

namespace Xv6

namespace Fs

open Ghost

/-- Programs with a log of blocks. -/
abbrev MT := Logged Halt State ℕ

/-- `log_write`, with its log. -/
def logWriteT (b : ℕ) (blk : Block) : MT Unit := do
  note b
  lift (logWrite b blk)

variable (sb : Superblock)

/-! ### The functions -/

def bzeroT (bno : ℕ) : MT Unit := logWriteT bno (Bytes.zero _)

def ballocLoopT : List ℕ → MT ℕ
  | [] => throw .outOfBlocks
  | j :: js => do
    let b := j * BPB
    let blk ← lift (bread (sb.bblock b))
    match (List.range (min BPB (sb.size - b))).find? fun bi => !bit blk bi with
    | some bi =>
      logWriteT (sb.bblock b) (setBit blk bi)
      bzeroT (b + bi)
      return b + bi
    | none => ballocLoopT js

def ballocT : MT ℕ := ballocLoopT sb (List.range ((sb.size + (BPB - 1)) / BPB))

def iupdateT (p : IPtr) : MT Unit := do
  note (sb.iblock (← lift (getInode p)).inum)
  lift (iupdate sb p)

/-- The end of `bmap`, with the indirect block at `addr`. -/
def bmapEntryT (addr e : ℕ) : MT ℕ := do
  let a ← lift (bread addr)
  if a.uint (4 * e) = 0 then
    let b ← ballocT sb
    logWriteT addr (a.setUint (4 * e) b)
    return b
  else return a.uint (4 * e)

def bmapT (p : IPtr) (bn : ℕ) : MT ℕ := do
  let n ← lift (getInode p)
  if h : bn < NDIRECT then
    let addr := n.d.addr bn
    if addr = 0 then
      let b ← ballocT sb
      lift (putDisk p fun d => d.setAddr ⟨bn, Nat.lt_succ_of_lt h⟩ (UInt32.ofNat b))
      return b
    else return addr.toNat
  else if bn - NDIRECT < NINDIRECT then
    if n.d.addr NDIRECT = 0 then
      let b ← ballocT sb
      lift (putDisk p fun d => d.setAddr (Fin.last NDIRECT) (UInt32.ofNat b))
      bmapEntryT sb b (bn - NDIRECT)
    else bmapEntryT sb (n.d.addr NDIRECT).toNat (bn - NDIRECT)
  else throw .bmap

def writeLoopT (p : IPtr) : ℕ → (ℕ → UInt8) → ℕ → ℕ → MT ℕ
  | 0, _, off, _ => return off
  | fuel + 1, src, off, n =>
    if n = 0 then return off
    else do
      let b ← bmapT sb p (off / BSIZE)
      let bp ← lift (bread b)
      let m := min n (BSIZE - off % BSIZE)
      logWriteT b (bp.blit (off % BSIZE) m src)
      writeLoopT p fuel (fun k => src (m + k)) (off + m) (n - m)

def writeiT (p : IPtr) (src : ℕ → UInt8) (off n : UInt32) : MT (Option UInt32) := do
  let ip ← lift (getInode p)
  if ip.d.type = T_DEV then
    if ip.d.major = CONSOLE then lift (consolewrite sb p n) else return none
  else if off > ip.d.size ∨ off + n < off then return none
  else if off + n > UInt32.ofNat (MAXFILE * BSIZE) then return none
  else
    let off ← writeLoopT sb p n.toNat src off.toNat n.toNat
    if n > 0 ∧ UInt32.ofNat off > (← lift (getInode p)).d.size then
      lift (putDisk p fun d => { d with size := UInt32.ofNat off })
      iupdateT sb p
    return some n

/-- What `filewrite` does between `begin_op` and `end_op`. -/
def writePiece (f : FPtr) (ip : IPtr) (addr : ℕ → UInt8) (n1 : UInt32) : M (Option UInt32) := do
  ilock sb ip
  let r ← writei sb ip addr ((← get).ftable f).off n1
  modify fun s => s.setFile f { s.ftable f with off := (s.ftable f).off + r.getD 0 }
  iunlock ip
  return r

def writePieceT (f : FPtr) (ip : IPtr) (addr : ℕ → UInt8) (n1 : UInt32) : MT (Option UInt32) := do
  lift (ilock sb ip)
  let r ← writeiT sb ip addr ((← lift get).ftable f).off n1
  lift (modify fun s => s.setFile f { s.ftable f with off := (s.ftable f).off + r.getD 0 })
  lift (iunlock ip)
  return r

/-- **The loop of `filewrite`** runs one transaction after the other. -/
theorem filewriteLoop_succ (f : FPtr) (ip : IPtr) (fuel : ℕ) (addr : ℕ → UInt8) (n : ℕ) :
    filewriteLoop sb f ip (fuel + 1) addr n =
      if n = 0 then pure true
      else writePiece sb f ip addr (UInt32.ofNat (min n maxWrite)) >>= fun
        | none => pure false
        | some r =>
          if r ≠ UInt32.ofNat (min n maxWrite) then throw .shortWrite
          else filewriteLoop sb f ip fuel (fun k => addr (min n maxWrite + k))
            (n - min n maxWrite) := by
  rw [filewriteLoop, writePiece]
  simp only [bind_assoc, pure_bind]
  refine if_congr Iff.rfl rfl (bind_congr fun _ => bind_congr fun s => bind_congr fun r => ?_)
  refine bind_congr fun _ => bind_congr fun _ => ?_
  cases r with
  | none => rfl
  | some r => exact if_congr Iff.rfl rfl rfl

/-! ### Rules -/

section Rules

variable {s : State} {l : List ℕ} {p : IPtr} {b : ℕ} {E : Halt → State → Prop}
variable {F : Halt → State × List ℕ → Prop}

@[simp] theorem wp_getInode {Q : Inode → State → Prop} :
    Wp (getInode p) s Q E ↔ Q (s.icache p) s := Iff.rfl

@[simp] theorem wp_putInode {f : Inode → Inode} {Q : Unit → State → Prop} :
    Wp (putInode p f) s Q E ↔ Q () (s.setInode p (f (s.icache p))) := Iff.rfl

@[simp] theorem wp_putDisk {f : Dinode → Dinode} {Q : Unit → State → Prop} :
    Wp (putDisk p f) s Q E ↔
      Q () (s.setInode p { s.icache p with d := f (s.icache p).d }) := Iff.rfl

@[simp] theorem wp_bread {Q : Block → State → Prop} : Wp (bread b) s Q E ↔ Q (s.disk b) s := Iff.rfl

@[simp] theorem wp_logWrite {blk : Block} {Q : Unit → State → Prop} :
    Wp (logWrite b blk) s Q E ↔ Q () { s with disk := Function.update s.disk b blk } := Iff.rfl

@[simp] theorem wp_logWriteT {blk : Block} {Q : Unit → State × List ℕ → Prop} :
    Wp (logWriteT b blk) (s, l) Q F ↔
      Q () ({ s with disk := Function.update s.disk b blk }, l ++ [b]) := Iff.rfl

end Rules

/-! ### The log does not matter -/

theorem erases_logWrite (b : ℕ) (blk : Block) : Erases (logWriteT b blk) (logWrite b blk) :=
  Erases.note_bind (Erases.lift _)

theorem erases_ballocLoop (js : List ℕ) : Erases (ballocLoopT sb js) (ballocLoop sb js) := by
  induction js with
  | nil => exact Erases.throw _
  | cons j js ih =>
    refine (Erases.lift _).bind fun blk => ?_
    cases (List.range (min BPB (sb.size - j * BPB))).find? fun bi => !bit blk bi with
    | none => exact ih
    | some bi =>
      exact (erases_logWrite _ _).bind fun _ => (erases_logWrite _ _).bind fun _ => .pure _

theorem erases_balloc : Erases (ballocT sb) (balloc sb) := erases_ballocLoop sb _

theorem erases_iupdate (p : IPtr) : Erases (iupdateT sb p) (iupdate sb p) := fun s l => by
  rw [iupdateT, wp_bind, wp_lift, wp_getInode]
  exact Erases.note_bind (Erases.lift _) s l

theorem erases_bmapEntry (x e : ℕ) : Erases (bmapEntryT sb x e) (do
    let a ← bread x
    if a.uint (4 * e) = 0 then
      let b ← balloc sb
      logWrite x (a.setUint (4 * e) b)
      return b
    else return a.uint (4 * e)) :=
  (Erases.lift _).bind fun _ => .ite
    ((erases_balloc sb).bind fun _ => (erases_logWrite _ _).bind fun _ => .pure _) (.pure _)

theorem erases_bmap (p : IPtr) (bn : ℕ) : Erases (bmapT sb p bn) (bmap sb p bn) := by
  refine (Erases.lift _).bind fun n => ?_
  by_cases h : bn < NDIRECT
  · rw [dif_pos h, dif_pos h]
    exact .ite ((erases_balloc sb).bind fun b => (Erases.lift _).bind fun _ => .pure _) (.pure _)
  · rw [dif_neg h, dif_neg h]
    simp only [pure_bind]
    refine .ite (.ite ?_ (erases_bmapEntry sb _ _)) (.throw _)
    exact (erases_balloc sb).bind fun b => (Erases.lift _).bind fun _ => erases_bmapEntry sb b _

theorem erases_writeLoop (p : IPtr) (fuel : ℕ) (src : ℕ → UInt8) (off n : ℕ) :
    Erases (writeLoopT sb p fuel src off n) (writeLoop sb p fuel src off n) := by
  induction fuel generalizing src off n with
  | zero => exact Erases.pure _
  | succ fuel ih =>
    refine .ite (.pure _) ((erases_bmap sb p _).bind fun b => (Erases.lift _).bind fun bp => ?_)
    exact (erases_logWrite _ _).bind fun _ => ih _ _ _

theorem erases_writei (p : IPtr) (src : ℕ → UInt8) (off n : UInt32) :
    Erases (writeiT sb p src off n) (writei sb p src off n) := by
  refine (Erases.lift _).bind fun ip => .ite (.ite (.lift _) (.pure _)) (.ite (.pure _)
    (.ite (.pure _) ((erases_writeLoop sb p _ _ _ _).bind fun off => ?_)))
  refine (Erases.lift _).bind fun n => .ite ?_ (.pure _)
  exact (Erases.lift _).bind fun _ => (erases_iupdate sb p).bind fun _ => .pure _

theorem erases_writePiece (f : FPtr) (ip : IPtr) (addr : ℕ → UInt8) (n1 : UInt32) :
    Erases (writePieceT sb f ip addr n1) (writePiece sb f ip addr n1) := by
  refine (Erases.lift _).bind fun _ => (Erases.lift _).bind fun s => ?_
  refine (erases_writei sb ip _ _ _).bind fun r => (Erases.lift _).bind fun _ => ?_
  exact (Erases.lift _).bind fun _ => .pure _

/-! ### Blocks that are taken -/

section Blocks

variable {sb} {s : State} {l : List ℕ} {p : IPtr} {b : ℕ} {F : Halt → State × List ℕ → Prop}

/-- The first free block is taken, and cleared. -/
structure Taken (sb : Superblock) (disk : Disk) (b : ℕ) (disk' : Disk) : Prop where
  lt : b < sb.size
  free : bitAt sb disk b = false
  first : ∀ c < b, bitAt sb disk c = true
  eq : disk' = Function.update (markAt sb disk b) b (Bytes.zero _)

theorem bblock_add {j bi : ℕ} (h : bi < BPB) :
    sb.bblock (j * BPB + bi) = sb.bblock (j * BPB) ∧ (j * BPB + bi) % BPB = bi := by
  simp only [Superblock.bblock, BPB, BSIZE] at *
  omega

/-- The loop of `balloc`, from the `j`-th block of the bitmap on. -/
theorem wp_ballocLoopT (k : ℕ) {j : ℕ} (hsize : sb.size ≤ (j + k) * BPB)
    (hbelow : ∀ c < j * BPB, c < sb.size → bitAt sb s.disk c = true) {Q : ℕ → State × List ℕ → Prop}
    (hnone : (∀ c < sb.size, bitAt sb s.disk c = true) → F .outOfBlocks (s, l))
    (hsome : ∀ b disk', Taken sb s.disk b disk' →
      Q b ({ s with disk := disk' }, l ++ [sb.bblock b] ++ [b])) :
    Wp (ballocLoopT sb (List.range' j k)) (s, l) Q F := by
  induction k generalizing j with
  | zero => exact hnone fun c hc => hbelow c (hc.trans_le hsize) hc
  | succ k ih =>
    rw [List.range'_succ, ballocLoopT, wp_bind, wp_lift, wp_bread]
    have hbit : ∀ bi < BPB, bitAt sb s.disk (j * BPB + bi) =
        bit (s.disk (sb.bblock (j * BPB))) bi :=
      fun bi hbi => by rw [bitAt, (@bblock_add sb j bi hbi).1, (@bblock_add sb j bi hbi).2]
    cases hfind : (List.range (min BPB (sb.size - j * BPB))).find?
        fun bi => !bit (s.disk (sb.bblock (j * BPB))) bi with
    | none =>
      refine ih (by rw [Nat.add_right_comm]; exact hsize) fun c hc hlt => ?_
      rcases Nat.lt_or_ge c (j * BPB) with hcj | hcj
      · exact hbelow c hcj hlt
      · obtain ⟨bi, rfl⟩ := Nat.exists_eq_add_of_le hcj
        rw [Nat.succ_mul] at hc
        have hbi : bi < BPB := by omega
        have hmem : bi ∈ List.range (min BPB (sb.size - j * BPB)) := List.mem_range.mpr (by omega)
        have hset := List.find?_eq_none.mp hfind bi hmem
        rw [hbit bi hbi]
        simpa using hset
    | some bi =>
      obtain ⟨hclear, hmem, hprev⟩ := List.find?_range_eq_some.mp hfind
      rw [List.mem_range] at hmem
      have hbi : bi < BPB := by omega
      obtain ⟨hblock, hmod⟩ := @bblock_add sb j bi hbi
      have htaken : Taken sb s.disk (j * BPB + bi)
          (Function.update (markAt sb s.disk (j * BPB + bi)) (j * BPB + bi) (Bytes.zero _)) := by
        refine ⟨by omega, ?_, fun c hc => ?_, rfl⟩
        · rw [hbit bi hbi]
          simpa using hclear
        · rcases Nat.lt_or_ge c (j * BPB) with hcj | hcj
          · exact hbelow c hcj (by omega)
          · obtain ⟨bj, rfl⟩ := Nat.exists_eq_add_of_le hcj
            rw [hbit bj (by omega)]
            simpa using hprev bj (by omega)
      have := hsome _ _ htaken
      rw [hblock] at this
      simp only [wp_bind, wp_logWriteT, bzeroT, wp_pure]
      rwa [markAt, hblock, hmod] at this

theorem wp_ballocT {Q : ℕ → State × List ℕ → Prop}
    (hnone : (∀ c < sb.size, bitAt sb s.disk c = true) → F .outOfBlocks (s, l))
    (hsome : ∀ b disk', Taken sb s.disk b disk' →
      Q b ({ s with disk := disk' }, l ++ [sb.bblock b] ++ [b])) :
    Wp (ballocT sb) (s, l) Q F := by
  rw [ballocT, List.range_eq_range']
  refine wp_ballocLoopT _ ?_ (fun c hc => absurd hc (by omega)) hnone hsome
  simp only [BPB, BSIZE]
  omega

/-- An inode is given the block `b`, as its address number `k`. -/
structure GivesAddr (sb : Superblock) (p : IPtr) (k : Fin (NDIRECT + 1)) (s : State) (l : List ℕ)
    (b : ℕ) (s' : State) (l' : List ℕ) : Prop where
  taken : ∃ disk', Taken sb s.disk b disk' ∧ s' = { s with disk := disk' }.setInode p
    { s.icache p with d := (s.icache p).d.setAddr k (UInt32.ofNat b) }
  log : l' = l ++ [sb.bblock b] ++ [b]

/-- The indirect block `x` is given the block `b`, as its entry number `e`. -/
structure GivesEntry (sb : Superblock) (x e : ℕ) (s : State) (l : List ℕ) (b : ℕ) (s' : State)
    (l' : List ℕ) : Prop where
  taken : ∃ disk', Taken sb s.disk b disk' ∧
    s' = { s with disk := Function.update disk' x ((s.disk x).setUint (4 * e) b) }
  log : l' = l ++ [sb.bblock b] ++ [b] ++ [x]

theorem wp_ballocT_addr {k : Fin (NDIRECT + 1)} {g : ℕ → MT ℕ} {Q : ℕ → State × List ℕ → Prop}
    (hfull : (∀ c < sb.size, bitAt sb s.disk c = true) → F .outOfBlocks (s, l))
    (hgives : ∀ b s' l', GivesAddr sb p k s l b s' l' → Wp (g b) (s', l') Q F) :
    Wp (ballocT sb >>= fun b =>
      lift (putDisk p fun d => d.setAddr k (UInt32.ofNat b)) >>= fun _ => g b) (s, l) Q F := by
  rw [wp_bind]
  refine wp_ballocT hfull fun b disk' h => ?_
  rw [wp_bind, wp_lift, wp_putDisk]
  exact hgives b _ _ ⟨⟨disk', h, rfl⟩, rfl⟩

theorem wp_bmapEntryT {x e : ℕ} {Q : ℕ → State × List ℕ → Prop}
    (hfound : (s.disk x).uint (4 * e) ≠ 0 → Q ((s.disk x).uint (4 * e)) (s, l))
    (hfull : (s.disk x).uint (4 * e) = 0 → (∀ c < sb.size, bitAt sb s.disk c = true) →
      F .outOfBlocks (s, l))
    (hgives : (s.disk x).uint (4 * e) = 0 → ∀ b s' l', GivesEntry sb x e s l b s' l' →
      Q b (s', l')) :
    Wp (bmapEntryT sb x e) (s, l) Q F := by
  rw [bmapEntryT, wp_bind, wp_lift, wp_bread, wp_ite]
  refine ⟨fun h0 => ?_, hfound⟩
  rw [wp_bind]
  refine wp_ballocT (hfull h0) fun b disk' h => ?_
  rw [wp_bind, wp_logWriteT, wp_pure]
  exact hgives h0 b _ _ ⟨⟨disk', h, rfl⟩, rfl⟩

/-- **`bmap`** finds the block, or gives the file one and perhaps an indirect block. -/
theorem wp_bmapT {bn : ℕ} (hbn : bn < MAXFILE) {Q : ℕ → State × List ℕ → Prop}
    (hfound : slot s.disk (s.icache p).d (dataIdx bn) ≠ 0 →
      Q (slot s.disk (s.icache p).d (dataIdx bn)) (s, l))
    (hfull : slot s.disk (s.icache p).d (dataIdx bn) = 0 → ∀ s' l', s' = s ∧ l' = l ∨
      (∃ x, NDIRECT ≤ bn ∧ slot s.disk (s.icache p).d NDIRECT = 0 ∧
        GivesAddr sb p (Fin.last _) s l x s' l') →
      (∀ c < sb.size, bitAt sb s'.disk c = true) → F .outOfBlocks (s', l'))
    (hdirect : ∀ h : bn < NDIRECT, slot s.disk (s.icache p).d (dataIdx bn) = 0 →
      ∀ b s' l', GivesAddr sb p ⟨bn, Nat.lt_succ_of_lt h⟩ s l b s' l' → Q b (s', l'))
    (hentry : NDIRECT ≤ bn → slot s.disk (s.icache p).d NDIRECT ≠ 0 →
      slot s.disk (s.icache p).d (dataIdx bn) = 0 →
      ∀ b s' l', GivesEntry sb (slot s.disk (s.icache p).d NDIRECT) (bn - NDIRECT) s l b s' l' →
      Q b (s', l'))
    (hboth : NDIRECT ≤ bn → slot s.disk (s.icache p).d NDIRECT = 0 →
      ∀ x s₁ l₁, GivesAddr sb p (Fin.last _) s l x s₁ l₁ →
      ∀ b s' l', GivesEntry sb x (bn - NDIRECT) s₁ l₁ b s' l' → Q b (s', l')) :
    Wp (bmapT sb p bn) (s, l) Q F := by
  rw [bmapT, wp_bind, wp_lift, wp_getInode]
  by_cases h : bn < NDIRECT
  · have hslot : slot s.disk (s.icache p).d (dataIdx bn) = ((s.icache p).d.addr bn).toNat := by
      rw [dataIdx, if_pos h, slot_of_le h.le]
    rw [hslot] at hfound hfull hdirect
    rw [dif_pos h, wp_ite]
    refine ⟨fun h0 => ?_, fun h0 => hfound fun hn => h0 (UInt32.toNat_inj.mp hn)⟩
    have hzero : ((s.icache p).d.addr bn).toNat = 0 := by
      rw [h0]
      rfl
    refine wp_ballocT_addr (hfull hzero s l (.inl ⟨rfl, rfl⟩)) fun b s' l' hb => ?_
    exact hdirect h hzero b s' l' hb
  · have hge : NDIRECT ≤ bn := Nat.le_of_not_lt h
    have hlt : bn - NDIRECT < NINDIRECT := by
      simp only [MAXFILE, NDIRECT, NINDIRECT] at *
      omega
    have hind : slot s.disk (s.icache p).d NDIRECT = ((s.icache p).d.addr NDIRECT).toNat :=
      slot_of_le le_rfl
    rw [dif_neg h, if_pos hlt, wp_ite]
    refine ⟨fun h0 => ?_, fun h0 => ?_⟩
    · have hzero : slot s.disk (s.icache p).d NDIRECT = 0 := by
        rw [hind, h0]
        rfl
      have hnone : slot s.disk (s.icache p).d (dataIdx bn) = 0 := by
        rw [dataIdx, if_neg h]
        exact slot_eq_zero (Nat.lt_succ_of_le hge) hzero
      refine wp_ballocT_addr (hfull hnone s l (.inl ⟨rfl, rfl⟩)) fun x s₁ l₁ hx => ?_
      obtain ⟨disk', htaken, hs₁⟩ := hx.taken
      have hblank : (s₁.disk x).uint (4 * (bn - NDIRECT)) = 0 := by
        rw [hs₁, State.setInode, htaken.eq]
        simp only [Function.update_self]
        exact Bytes.zero_num ..
      refine wp_bmapEntryT (fun hne => absurd hblank hne)
        (fun _ => hfull hnone s₁ l₁ (.inr ⟨x, hge, hzero, hx⟩))
        fun _ b s' l' hb => hboth hge hzero x s₁ l₁ hx b s' l' hb
    · have hne : slot s.disk (s.icache p).d NDIRECT ≠ 0 := by
        rw [hind]
        exact fun hn => h0 (UInt32.toNat_inj.mp hn)
      have hslot : slot s.disk (s.icache p).d (dataIdx bn) =
          (s.disk (slot s.disk (s.icache p).d NDIRECT)).uint (4 * (bn - NDIRECT)) := by
        have hle : bn + 1 ≤ MAXFILE := hbn
        rw [dataIdx, if_neg h, slot_of_gt (Nat.lt_succ_of_le hge) hle hne,
          Nat.succ_sub_succ_eq_sub]
      rw [hslot] at hfound hfull hentry
      rw [← hind]
      exact wp_bmapEntryT hfound (fun h0' => hfull h0' s l (.inl ⟨rfl, rfl⟩)) fun h0' =>
        hentry hge hne h0'

end Blocks

end Fs

end Xv6
