import Xv6.Fs.Image

/-!
# A run of `mkfs`

From an empty image to the one that is written. While the inodes that `mkfs` hands out lie in the
inode blocks, the image holds the root directory and the files that have been added so far; a step
fails exactly if there is no room for what it appends.

## Main definitions

* `Img.Made` — the image holds given files
* `rootData`, `filesData` — what the root directory and the other inodes hold
* `Roomy` — the files fit

## Main results

* `exists_added`, `Added.holds_finished` — what a successful run leaves
* `exists_mkfs` — a run succeeds if the files fit
* `image_ok_iff` — the image is in order if and only if there were inodes for all files
-/

namespace Xv6

namespace Fs

open Finset

/-- The number of inodes that the inode blocks hold. -/
abbrev tableSize : ℕ := ninodeblocks * IPB

namespace Img

variable {m m' : Img} {data : ℕ → List UInt8} {i : ℕ}

/-- The inodes in use. -/
def table (m : Img) (i : ℕ) : Dinode :=
  if 1 ≤ i ∧ i < m.freeinode then dinodeAt mkfsSb m.disk i else Dinode.zero

/-- The image holds the files `data`. -/
structure Made (m : Img) (data : ℕ → List UInt8) : Prop where
  holds : Holds m m.table data
  one_le : 1 ≤ m.freeinode
  le : m.freeinode ≤ tableSize
  size : ∀ i, 1 ≤ i → i < m.freeinode → (m.table i).size.toNat = (data i).length
  type : ∀ i, 1 ≤ i → i < m.freeinode →
    (m.table i).type = (if i = ROOTINO then T_DIR else T_FILE) ∧ (m.table i).nlink = 1
  free : ∀ i < tableSize, ¬ (1 ≤ i ∧ i < m.freeinode) → dinodeAt mkfsSb m.disk i = Dinode.zero
  super : m.disk 1 = sbBlock
  count : m.freeblock = nmeta + ∑ i ∈ range m.freeinode, blocks (data i).length

theorem iblock_bounds (hi : i < tableSize) :
    mkfsSb.inodestart ≤ mkfsSb.iblock i ∧ mkfsSb.iblock i < mkfsSb.bmapstart := by
  have h : i < 208 := hi
  change 32 ≤ i / 8 + 32 ∧ i / 8 + 32 < 58
  omega

theorem iblock_lt_nmeta (hi : i < tableSize) : mkfsSb.iblock i < nmeta :=
  (iblock_bounds hi).2.trans (by decide)

theorem iblock_ne_one (hi : i < tableSize) : (1 : ℕ) ≠ mkfsSb.iblock i :=
  (lt_of_lt_of_le (by decide) (iblock_bounds hi).1).ne

theorem rinode_eq (hlen : m.len = FSSIZE) (hi : i < tableSize) :
    m.rinode i = some (dinodeAt mkfsSb m.disk i) := by
  have hlt : mkfsSb.iblock i < m.len := hlen ▸ (iblock_lt_nmeta hi).trans (by decide)
  simp only [rinode, rsect_of_lt hlt hlen.le, Option.bind_eq_bind, Option.bind_some]
  rfl

theorem winode_eq (hlen : m.len = FSSIZE) (hi : i < tableSize) (d : Dinode) :
    m.winode i d = some { m with disk := putDinode mkfsSb m.disk i d } := by
  have hlt : mkfsSb.iblock i < m.len := hlen ▸ (iblock_lt_nmeta hi).trans (by decide)
  simp only [winode, rsect_of_lt hlt hlen.le, Option.bind_eq_bind, Option.bind_some,
    wsect_of_lt hlt hlen.le]
  rfl

/-- Writing to the first blocks of the image does not touch the blocks of files. -/
theorem Holds.update {nodes : ℕ → Dinode} (h : Holds m nodes data) {b : ℕ} (hb : b < nmeta)
    (blk : Block) : Holds { m with disk := Function.update m.disk b blk } nodes data := by
  have hne : ∀ a, slots m.disk nodes a ≠ b ∨ b = 0 := fun a => by
    by_contra hc
    obtain ⟨heq, hb0⟩ := not_or.mp hc
    have heq := not_not.mp heq
    have hge := (h.owned.owns.range (heq.trans_ne hb0)).1
    exact (hb.trans_le (heq ▸ hge)).ne rfl
  have hslots : ∀ a, slots (Function.update m.disk b blk) nodes a = slots m.disk nodes a :=
    slots_update fun j => hne (j, NDIRECT)
  refine ⟨⟨h.owned.len, h.owned.le, h.owned.owns.congr hslots fun _ _ => Iff.rfl, fun c hc => ?_⟩,
    fun j => ⟨fun k => ?_, fun off hoff => ?_⟩⟩
  · refine (Function.update_of_ne ?_ ..).trans (h.owned.blank c hc)
    exact (hb.trans_le (h.owned.nmeta_le.trans hc)).ne'
  · rw [← (h.file j).exact]
    exact Iff.of_eq (congrArg (· ≠ 0) (hslots (j, k)))
  · exact (fileByte_update hne j off).trans ((h.file j).bytes off hoff)

theorem Holds.putDinode {nodes : ℕ → Dinode} (h : Holds m nodes data) (hi : i < tableSize)
    (d : Dinode) : Holds { m with disk := putDinode mkfsSb m.disk i d } nodes data :=
  h.update (iblock_lt_nmeta hi) _

theorem Holds.congr {nodes nodes' : ℕ → Dinode} (h : Holds m nodes data)
    (haddrs : ∀ i, (nodes' i).addrs = (nodes i).addrs) : Holds m nodes' data := by
  refine ⟨⟨h.owned.len, h.owned.le, h.owned.owns.congr (fun a => slot_addrs (haddrs a.1))
    fun _ _ => Iff.rfl, h.owned.blank⟩, fun i => ⟨fun k => ?_, fun off hoff => ?_⟩⟩
  · rw [slot_addrs (haddrs i)]
    exact (h.file i).exact k
  · rw [fileByte_addrs (haddrs i)]
    exact (h.file i).bytes off hoff

/-- Inodes that are not in use hold nothing. -/
theorem Made.data_eq_nil (h : Made m data) (hi : ¬ (1 ≤ i ∧ i < m.freeinode)) : data i = [] := by
  have hex := (h.holds.file i).exact (dataIdx 0)
  rw [needs_dataIdx, table, if_neg hi, Nat.zero_mul] at hex
  by_contra hne
  exact hex.mpr (List.length_pos_of_ne_nil hne) rfl

/-- An inode of the table is written. -/
theorem table_putDinode (hi : 1 ≤ i ∧ i < m.freeinode) (d : Dinode) :
    table { m with disk := Fs.putDinode mkfsSb m.disk i d } = Function.update m.table i d := by
  funext j
  by_cases hj : j = i
  · subst hj
    rw [Function.update_self, table, if_pos hi, dinodeAt_putDinode, if_pos rfl]
  · rw [Function.update_of_ne hj, table, table, dinodeAt_putDinode, if_neg hj]

theorem table_congr {m₁ : Img} (hfree : m₁.freeinode = m.freeinode) (hle : m.freeinode ≤ tableSize)
    (hmeta : ∀ b < nmeta, m₁.disk b = m.disk b) : m₁.table = m.table := by
  funext j
  rw [table, table, hfree]
  split
  · next hj => exact dinodeAt_congr (hmeta _ (iblock_lt_nmeta (hj.2.trans_le hle)))
  · rfl

/-- The blocks of all files when one of them changes. -/
theorem sum_blocks_update (data : ℕ → List UInt8) {s : Finset ℕ} (hi : i ∈ s) (l : List UInt8) :
    ∑ j ∈ s, blocks (Function.update data i l j).length + blocks (data i).length =
      ∑ j ∈ s, blocks (data j).length + blocks l.length := by
  have hrest : ∑ j ∈ s.erase i, blocks (Function.update data i l j).length =
      ∑ j ∈ s.erase i, blocks (data j).length :=
    sum_congr rfl fun j hj => by rw [Function.update_of_ne (ne_of_mem_erase hj)]
  rw [← add_sum_erase _ _ hi, ← add_sum_erase _ (fun j => blocks (data j).length) hi, hrest,
    Function.update_self]
  omega

/-- **`iappend`** makes a file longer if there is room, and otherwise fails. -/
theorem Made.iappend (h : Made m data) (hi : 1 ≤ i ∧ i < m.freeinode) (p : List UInt8) :
    (m.Room (data i).length ((data i).length + p.length) →
      ∃ m', m.iappend i p = some m' ∧ Made m' (Function.update data i (data i ++ p)) ∧
        m'.freeinode = m.freeinode) ∧
    (¬ m.Room (data i).length ((data i).length + p.length) → m.iappend i p = none) := by
  have hlt : i < tableSize := hi.2.trans_le h.le
  have htable : m.table i = dinodeAt mkfsSb m.disk i := if_pos hi
  have hloop := h.holds.iappendLoop (i := i) (p := p) le_rfl
  simp only [Img.iappend, rinode_eq h.holds.owned.len hlt, ← htable, Option.bind_eq_bind,
    Option.bind_some, h.size i hi.1 hi.2]
  refine ⟨fun hr => ?_, fun hr => by rw [hloop.2 hr]; rfl⟩
  obtain ⟨m₁, din, hrun, hap⟩ := hloop.1 hr
  obtain ⟨addrs, hdin⟩ := hap.fields
  have hinums : 1 ≤ i ∧ i < m₁.freeinode := hap.freeinode ▸ hi
  have hsz : (UInt32.ofNat ((data i).length + p.length)).toNat = (data i).length + p.length :=
    UInt32.toNat_ofNat_of_lt' (lt_of_le_of_lt hr.1 (by decide))
  generalize hd : ({ din with size := UInt32.ofNat ((data i).length + p.length) } : Dinode) = d
  have htab : table { m₁ with disk := Fs.putDinode mkfsSb m₁.disk i d } =
      Function.update m.table i d := by
    rw [table_putDinode hinums, table_congr hap.freeinode h.le hap.metadata]
  rw [hrun, Option.bind_some, winode_eq hap.holds.owned.len hlt, hd]
  refine ⟨_, rfl, ⟨?_, ?_, ?_, fun j hj hj' => ?_, fun j hj hj' => ?_, fun j hj hj' => ?_, ?_, ?_⟩,
    hap.freeinode⟩
  · rw [htab]
    refine (hap.holds.congr fun j => ?_).putDinode hlt d
    by_cases hj : j = i
    · subst hj
      rw [Function.update_self, Function.update_self, ← hd]
    · rw [Function.update_of_ne hj, Function.update_of_ne hj]
  · exact hap.freeinode ▸ h.one_le
  · exact hap.freeinode ▸ h.le
  · rw [htab]
    have hj'' : j < m.freeinode := hap.freeinode ▸ hj'
    by_cases hji : j = i
    · subst hji
      rw [Function.update_self, Function.update_self, List.length_append, ← hd, hsz]
    · rw [Function.update_of_ne hji, Function.update_of_ne hji, h.size j hj hj'']
  · rw [htab]
    have hj'' : j < m.freeinode := hap.freeinode ▸ hj'
    by_cases hji : j = i
    · subst hji
      rw [Function.update_self, ← hd, hdin]
      exact h.type j hj hj''
    · rw [Function.update_of_ne hji]
      exact h.type j hj hj''
  · have hne : j ≠ i := fun hji => hj' (hji ▸ hinums)
    rw [dinodeAt_putDinode, if_neg hne, dinodeAt_congr (hap.metadata _ (iblock_lt_nmeta hj))]
    exact h.free j hj (hap.freeinode ▸ hj')
  · change Fs.putDinode mkfsSb m₁.disk i d 1 = _
    rw [putDinode_of_ne d (iblock_ne_one hlt), hap.metadata 1 (by decide), h.super]
  · have hsum := sum_blocks_update data (mem_range.mpr hi.2) (data i ++ p)
    rw [List.length_append] at hsum
    have h₁ := hap.freeblock
    have h₂ := h.count
    have h₃ : m₁.freeinode = m.freeinode := hap.freeinode
    change m₁.freeblock = nmeta + ∑ j ∈ range m₁.freeinode, _
    rw [h₃]
    omega

theorem Made.freeinode_of_iappend (h : Made m data) (hi : 1 ≤ i ∧ i < m.freeinode) {p : List UInt8}
    (hrun : m.iappend i p = some m') :
    Made m' (Function.update data i (data i ++ p)) ∧ m'.freeinode = m.freeinode ∧
      m.Room (data i).length ((data i).length + p.length) := by
  have hap := h.iappend hi p
  by_cases hr : m.Room (data i).length ((data i).length + p.length)
  · obtain ⟨m₁, hrun', hm⟩ := hap.1 hr
    cases hrun.symm.trans hrun'
    exact ⟨hm.1, hm.2, hr⟩
  · cases (hap.2 hr).symm.trans hrun

/-- **`ialloc`** hands out the next inode. -/
theorem Made.ialloc (h : Made m data) (hlt : m.freeinode < tableSize) (type : UInt16)
    (htype : type = if m.freeinode = ROOTINO then T_DIR else T_FILE) :
    ∃ m', m.ialloc type = some (m.freeinode, m') ∧ Made m' data ∧
      m'.freeinode = m.freeinode + 1 := by
  generalize hd : ({ Dinode.zero with type := type, nlink := 1 } : Dinode) = d
  have hnil : data m.freeinode = [] := h.data_eq_nil fun hc => lt_irrefl _ hc.2
  -- the table has one more inode, without blocks
  have htab : ∀ j, table ⟨Fs.putDinode mkfsSb m.disk m.freeinode d, m.len, m.freeinode + 1,
      m.freeblock⟩ j = Function.update m.table m.freeinode d j := fun j => by
    by_cases hj : j = m.freeinode
    · subst hj
      rw [Function.update_self, table, if_pos ⟨h.one_le, Nat.lt_succ_self _⟩, dinodeAt_putDinode,
        if_pos rfl]
    · have hcond : (1 ≤ j ∧ j < m.freeinode + 1) ↔ (1 ≤ j ∧ j < m.freeinode) := by omega
      simp only [table, hcond, Function.update_of_ne hj, dinodeAt_putDinode, if_neg hj]
  have hzero : m.table m.freeinode = Dinode.zero := if_neg fun hc => lt_irrefl _ hc.2
  refine ⟨⟨Fs.putDinode mkfsSb m.disk m.freeinode d, m.len, m.freeinode + 1, m.freeblock⟩, ?_,
    ⟨?_, Nat.le_succ_of_le h.one_le, hlt, fun j hj hj' => ?_, fun j hj hj' => ?_,
      fun j hj hj' => ?_, ?_, ?_⟩, rfl⟩
  · rw [Img.ialloc, hd, winode_eq (m := { m with freeinode := m.freeinode + 1 })
      h.holds.owned.len hlt]
    rfl
  · have hholds : Holds m (Function.update m.table m.freeinode d) data := h.holds.congr fun j => by
      by_cases hj : j = m.freeinode
      · subst hj
        rw [Function.update_self, hzero, ← hd]
      · rw [Function.update_of_ne hj]
    rw [funext htab]
    exact ⟨⟨(hholds.putDinode hlt d).owned.len, (hholds.putDinode hlt d).owned.le,
      (hholds.putDinode hlt d).owned.owns, (hholds.putDinode hlt d).owned.blank⟩,
      (hholds.putDinode hlt d).file⟩
  · rw [htab]
    by_cases hjm : j = m.freeinode
    · subst hjm
      rw [Function.update_self, hnil, ← hd]
      rfl
    · rw [Function.update_of_ne hjm]
      exact h.size j hj (lt_of_le_of_ne (Nat.le_of_lt_succ hj') hjm)
  · rw [htab]
    by_cases hjm : j = m.freeinode
    · subst hjm
      rw [Function.update_self, ← hd]
      exact ⟨htype, rfl⟩
    · rw [Function.update_of_ne hjm]
      exact h.type j hj (lt_of_le_of_ne (Nat.le_of_lt_succ hj') hjm)
  · rw [dinodeAt_putDinode, if_neg (by rintro rfl; exact hj' ⟨h.one_le, Nat.lt_succ_self _⟩)]
    exact h.free j hj fun hc => hj' ⟨hc.1, Nat.lt_succ_of_lt hc.2⟩
  · change Fs.putDinode mkfsSb m.disk m.freeinode d 1 = _
    rw [putDinode_of_ne d (iblock_ne_one hlt), h.super]
  · change m.freeblock = nmeta + ∑ j ∈ range (m.freeinode + 1), _
    rw [sum_range_succ, hnil, List.length_nil, blocks_zero, Nat.add_zero, h.count]

theorem Made.freeblock_update (h : Made m data) {l : List UInt8}
    (h' : Made m' (Function.update data i l)) (hfree : m'.freeinode = m.freeinode)
    (hi : i < m.freeinode) :
    m'.freeblock + blocks (data i).length = m.freeblock + blocks l.length := by
  have hsum := sum_blocks_update data (mem_range.mpr hi) l
  have h₁ := h.count
  have h₂ := h'.count
  rw [hfree] at h₂
  omega

/-- **The loop that copies a file**, in pieces. -/
theorem Made.copyFile (h : Made m data) (hi : 1 ≤ i ∧ i < m.freeinode) {fuel : ℕ}
    {bytes : List UInt8}
    (hf : bytes.length ≤ fuel) :
    (m.Room (data i).length ((data i).length + bytes.length) →
      ∃ m', Img.copyFile fuel m i bytes = some m' ∧
      Made m' (Function.update data i (data i ++ bytes)) ∧
        m'.freeinode = m.freeinode) ∧
    (¬ m.Room (data i).length ((data i).length + bytes.length) →
      Img.copyFile fuel m i bytes = none) := by
  have hnil : Made m (Function.update data i (data i ++ [])) := by
    rwa [List.append_nil, Function.update_eq_self]
  have hroom₀ : m.Room (data i).length ((data i).length + ([] : List UInt8).length) :=
    ⟨h.holds.length_le i, Nat.add_le_add_right h.holds.owned.le _⟩
  induction fuel generalizing m data bytes with
  | zero =>
    obtain rfl : bytes = [] := List.length_eq_zero_iff.mp (Nat.le_zero.mp hf)
    exact ⟨fun _ => ⟨m, rfl, hnil, rfl⟩, fun hno => absurd hroom₀ hno⟩
  | succ fuel ih =>
    rw [Img.copyFile]
    by_cases hb : bytes = []
    · subst hb
      rw [if_pos rfl]
      exact ⟨fun _ => ⟨m, rfl, hnil, rfl⟩, fun hno => absurd hroom₀ hno⟩
    rw [if_neg hb]
    have hpos := List.length_pos_of_ne_nil hb
    have hlen : (bytes.take BSIZE).length + (bytes.drop BSIZE).length = bytes.length := by
      rw [← List.length_append, List.take_append_drop]
    have htake : 0 < (bytes.take BSIZE).length := by
      rw [List.length_take]
      exact lt_min (by decide) hpos
    have hmono : blocks ((data i).length + (bytes.take BSIZE).length) ≤
        blocks ((data i).length + bytes.length) := blocks_mono (by omega)
    have hstep := h.iappend hi (bytes.take BSIZE)
    by_cases hr : m.Room (data i).length ((data i).length + (bytes.take BSIZE).length)
    · obtain ⟨m₁, hrun, h₁, hfree⟩ := hstep.1 hr
      have hblocks := h.freeblock_update h₁ hfree hi.2
      have hih := @ih _ _ h₁ (hfree ▸ hi) (bytes.drop BSIZE) (by omega) (by
        rwa [List.append_nil, Function.update_eq_self])
        ⟨h₁.holds.length_le i, Nat.add_le_add_right h₁.holds.owned.le _⟩
      rw [Function.update_self, Function.update_idem, List.append_assoc, List.take_append_drop,
        List.length_append, Nat.add_assoc, hlen] at hih
      rw [List.length_append] at hblocks
      have hroom : m₁.Room ((data i).length + (bytes.take BSIZE).length)
          ((data i).length + bytes.length) ↔ m.Room (data i).length
          ((data i).length + bytes.length) :=
        and_congr_right fun _ => by omega
      rw [hroom, hfree] at hih
      simpa only [hrun, Option.bind_eq_bind, Option.bind_some] using hih
    · rw [hstep.2 hr]
      refine ⟨fun hr' => absurd ⟨?_, ?_⟩ hr, fun _ => rfl⟩
      · exact le_trans (by omega) hr'.1
      · exact (Nat.add_le_add_left hmono _).trans hr'.2

end Img

/-! ### The files -/

/-- The entries of the root directory. -/
def rootData (files : List Input) : List UInt8 :=
  direntBytes ROOTINO [46] ++ direntBytes ROOTINO [46, 46] ++
    (files.zipIdx 2).flatMap fun f => direntBytes f.2 (fileName f.1.1)

/-- What the inodes hold: the root directory, and the files in order. -/
def filesData (files : List Input) (i : ℕ) : List UInt8 :=
  if i = ROOTINO then rootData files else if i < 2 then [] else (files[i - 2]?.map Prod.snd).getD []

@[simp] theorem length_direntBytes (inum : ℕ) (name : List UInt8) :
    (direntBytes inum name).length = 16 := by
  rw [direntBytes, List.length_map, List.length_range]

theorem rootData_concat (files : List Input) (f : Input) :
    rootData (files ++ [f]) = rootData files ++ direntBytes (files.length + 2) (fileName f.1) := by
  simp only [rootData, List.zipIdx_append, List.flatMap_append, List.zipIdx_cons, List.zipIdx_nil,
    List.flatMap_cons, List.flatMap_nil, List.append_nil, List.append_assoc, Nat.add_comm]

theorem length_rootData (files : List Input) :
    (rootData files).length = 16 * (files.length + 2) := by
  induction files using List.reverseRecOn with
  | nil => simp [rootData]
  | append_singleton files f ih =>
    rw [rootData_concat, List.length_append, ih, length_direntBytes, List.length_append,
      List.length_singleton]
    omega

theorem filesData_root (files : List Input) : filesData files ROOTINO = rootData files := if_pos rfl

/-- One more file. -/
theorem filesData_concat (files : List Input) (f : Input) :
    filesData (files ++ [f]) = Function.update (Function.update (filesData files) ROOTINO
      (rootData files ++ direntBytes (files.length + 2) (fileName f.1)))
      (files.length + 2) f.2 := by
  funext i
  by_cases hi : i = files.length + 2
  · subst hi
    rw [Function.update_self, filesData, if_neg (by simp only [ROOTINO]; omega), if_neg (by omega)]
    simp
  rw [Function.update_of_ne hi]
  by_cases hr : i = ROOTINO
  · subst hr
    rw [Function.update_self, filesData_root, rootData_concat]
  rw [Function.update_of_ne hr, filesData, filesData, if_neg hr, if_neg hr]
  split
  · rfl
  · have hne : i - 2 ≠ files.length := by omega
    obtain hlt | hlt := Nat.lt_or_gt_of_ne hne
    · rw [List.getElem?_append_left hlt]
    · have h1 : (files ++ [f])[i - 2]? = none := by
        rw [List.getElem?_eq_none]
        rw [List.length_append, List.length_singleton]
        exact hlt
      rw [h1, List.getElem?_eq_none hlt.le]

theorem filesData_of_ge (files : List Input) {i : ℕ} (hi : files.length + 2 ≤ i) :
    filesData files i = [] := by
  rw [filesData, if_neg (by simp only [ROOTINO]; omega), if_neg (by omega),
    List.getElem?_eq_none (by omega)]
  rfl

namespace Img

variable {m m' : Img} {done files : List Input}

/-- The image holds the root directory with these files. -/
structure Added (m : Img) (files : List Input) : Prop where
  made : Made m (filesData files)
  inums : m.freeinode = files.length + 2

theorem Added.root (h : Added m files) : 1 ≤ ROOTINO ∧ ROOTINO < m.freeinode :=
  ⟨le_rfl, by rw [h.inums]; simp only [ROOTINO]; omega⟩

theorem Added.file (h : Added m done) (hlt : done.length + 2 < tableSize) {f : Input}
    (hrun : addFile f m = some m') : Added m' (done ++ [f]) ∧ slash ∉ cstr f.1 := by
  rw [addFile] at hrun
  split at hrun
  · cases hrun
  next hslash =>
  refine ⟨?_, hslash⟩
  obtain ⟨m₁, hia, h₁, hfree₁⟩ := h.made.ialloc (h.inums ▸ hlt) T_FILE
    (by rw [h.inums, if_neg (by simp only [ROOTINO]; omega)])
  rw [hia, h.inums] at hrun
  simp only [Option.bind_eq_bind, Option.bind_some] at hrun
  obtain ⟨m₂, happ, hcopy⟩ := Option.bind_eq_some_iff.mp hrun
  have hroot : 1 ≤ ROOTINO ∧ ROOTINO < m₁.freeinode := by
    rw [hfree₁]
    exact ⟨le_rfl, h.root.2.trans (Nat.lt_succ_self _)⟩
  obtain ⟨h₂, hfree₂, -⟩ := h₁.freeinode_of_iappend hroot happ
  have hinum : 1 ≤ done.length + 2 ∧ done.length + 2 < m₂.freeinode := by
    rw [hfree₂, hfree₁, h.inums]
    omega
  have hcp := h₂.copyFile hinum (le_refl f.2.length)
  have hempty : Function.update (filesData done) ROOTINO (filesData done ROOTINO ++
      direntBytes (done.length + 2) (fileName f.1)) (done.length + 2) = [] := by
    rw [Function.update_of_ne (by simp only [ROOTINO]; omega), filesData_of_ge done le_rfl]
  rw [hempty, filesData_root, List.nil_append, ← filesData_concat] at hcp
  by_cases hr : m₂.Room ([] : List UInt8).length (([] : List UInt8).length + f.2.length)
  · obtain ⟨m₃, hrun₃, h₃, hfree₃⟩ := hcp.1 hr
    cases hcopy.symm.trans hrun₃
    refine ⟨h₃, ?_⟩
    rw [hfree₃, hfree₂, hfree₁, h.inums, List.length_append, List.length_singleton]
  · cases (hcp.2 hr).symm.trans hcopy

theorem Added.addFiles (h : Added m done) (hlt : done.length + files.length + 2 ≤ tableSize)
    (hrun : Fs.addFiles files m = some m') :
    Added m' (done ++ files) ∧ ∀ f ∈ files, slash ∉ cstr f.1 := by
  induction files generalizing m done with
  | nil =>
    cases hrun
    rw [List.append_nil]
    exact ⟨h, by simp⟩
  | cons f files ih =>
    obtain ⟨m₁, hf, hrest⟩ := Option.bind_eq_some_iff.mp hrun
    rw [List.length_cons] at hlt
    obtain ⟨h₁, hslash⟩ := h.file (by omega) hf
    obtain ⟨h₂, hrest⟩ := ih h₁ (by rw [List.length_append, List.length_singleton]; omega) hrest
    rw [List.append_assoc, List.singleton_append] at h₂
    exact ⟨h₂, List.forall_mem_cons.mpr ⟨hslash, hrest⟩⟩

/-- An image without inodes. -/
theorem made_emptyImg : Made emptyImg fun _ => [] := by
  have hdisk : emptyImg.disk = Function.update (fun _ => Bytes.zero _) 1 sbBlock := rfl
  have htable : emptyImg.table = fun _ => Dinode.zero := by
    funext i
    exact if_neg fun hc => absurd hc.2 (not_lt.mpr hc.1)
  have hslot : ∀ k, slot emptyImg.disk Dinode.zero k = 0 := slot_zero _
  refine ⟨?_, le_rfl, by decide, fun i hi hi' => absurd hi (not_le.mpr hi'),
    fun i hi hi' => absurd hi (not_le.mpr hi'), fun i hi _ => ?_, ?_, rfl⟩
  · rw [htable]
    refine ⟨⟨rfl, by decide, ⟨fun _ h0 => absurd (hslot _) h0, fun h0 => absurd (hslot _) h0,
      fun _ => ?_⟩, fun b hb => ?_⟩, fun i => ⟨fun k => ?_, fun off hoff => absurd hoff (by simp)⟩⟩
    · refine ⟨.inl, fun hc => hc.resolve_right ?_⟩
      rintro ⟨a, ha, h0⟩
      exact h0 (ha.symm.trans (hslot _))
    · rw [hdisk, Function.update_of_ne]
      rintro rfl
      exact absurd hb (by decide)
    · refine iff_of_false (not_not.mpr (hslot k)) ?_
      rintro ⟨bn, hlt, -⟩
      exact absurd hlt (by simp)
  · rw [dinodeAt, hdisk, Function.update_of_ne (iblock_ne_one hi).symm]
    simp [Dinode.ofBlock, Dinode.zero]
  · rw [hdisk, Function.update_self]

theorem exists_makeRoot : ∃ m, makeRoot = some m ∧ Added m [] := by
  obtain ⟨m₁, hia, h₁, hfree₁⟩ := made_emptyImg.ialloc (by decide) T_DIR rfl
  have hroot₁ : 1 ≤ ROOTINO ∧ ROOTINO < m₁.freeinode := by rw [hfree₁]; decide
  have hroom : ∀ {m : Img} {n : ℕ}, m.freeblock = nmeta + blocks n → n ≤ 16 →
      m.Room n (n + 16) := fun hm hn => by
    refine ⟨le_trans (Nat.add_le_add_right hn 16) (by decide), ?_⟩
    have : blocks (16 + 16) = 1 := by decide
    have := blocks_mono (Nat.add_le_add_right hn 16)
    rw [hm]
    simp only [nmeta, ninodeblocks, nbitmap, NINODES, IPB, FSSIZE, BSIZE, LOGSIZE, MAXOPBLOCKS] at *
    omega
  have hcount : ∀ {m : Img} {data : ℕ → List UInt8}, Made m data → m.freeinode = 2 →
      data 0 = [] → m.freeblock = nmeta + blocks (data ROOTINO).length := fun hm hf h0 => by
    rw [hm.count, hf, sum_range_succ, sum_range_one, h0, List.length_nil, blocks_zero, Nat.zero_add]
  obtain ⟨m₂, hap, h₂, hfree₂⟩ := (h₁.iappend hroot₁ (direntBytes ROOTINO [46])).1
    (by rw [length_direntBytes]; exact hroom (hcount h₁ hfree₁ rfl) (by simp))
  have hroot₂ : 1 ≤ ROOTINO ∧ ROOTINO < m₂.freeinode := hfree₂ ▸ hroot₁
  have hlen : (Function.update (fun _ => ([] : List UInt8)) ROOTINO
      ([] ++ direntBytes ROOTINO [46]) ROOTINO).length = 16 := by
    rw [Function.update_self, List.nil_append, length_direntBytes]
  obtain ⟨m₃, hap', h₃, hfree₃⟩ := (h₂.iappend hroot₂ (direntBytes ROOTINO [46, 46])).1 (by
    rw [length_direntBytes]
    exact hroom (hcount h₂ (hfree₂.trans hfree₁) rfl) hlen.le)
  refine ⟨m₃, ?_, ?_, hfree₃.trans (hfree₂.trans hfree₁)⟩
  · have hia' : emptyImg.ialloc T_DIR = some (ROOTINO, m₁) := hia
    simp only [makeRoot, hia', Option.bind_eq_bind, Option.bind_some, if_true, hap, hap']
  · rw [Function.update_self, Function.update_idem] at h₃
    have hdata : filesData [] = Function.update (fun _ => []) ROOTINO
        ([] ++ direntBytes ROOTINO [46] ++ direntBytes ROOTINO [46, 46]) := by
      funext i
      by_cases hi : i = ROOTINO
      · subst hi
        rw [Function.update_self, filesData_root]
        simp [rootData]
      · rw [Function.update_of_ne hi, filesData, if_neg hi]
        simp
    rwa [hdata]

/-- The image that `finish` makes. -/
def finished (m : Img) : Img :=
  { m with
    disk := Function.update (Fs.putDinode mkfsSb m.disk ROOTINO (rounded (m.table ROOTINO)))
      mkfsSb.bmapstart (usedMap m.freeblock) }

theorem Added.finish (h : Added m files) : Fs.finish m = some m.finished := by
  have hroot : ROOTINO < tableSize := by decide
  have htable : m.table ROOTINO = dinodeAt mkfsSb m.disk ROOTINO := if_pos h.root
  have hlen := h.made.holds.owned.len
  have hfb : m.freeblock < BSIZE * 8 := lt_of_le_of_lt h.made.holds.owned.le (by decide)
  simp only [Fs.finish, rinode_eq hlen hroot, Option.bind_eq_bind, Option.bind_some, ← htable,
    winode_eq hlen hroot, if_pos hfb]
  have hlt : mkfsSb.bmapstart < m.len := hlen ▸ by decide
  exact congrArg some (wsect_of_lt (m := { m with disk := _ }) hlt hlen.le)

/-- What a successful run leaves. -/
theorem exists_added (hlt : files.length + 2 ≤ tableSize) (hrun : mkfs files = some m') :
    ∃ m, Added m files ∧ (∀ f ∈ files, slash ∉ cstr f.1) ∧ m' = m.finished := by
  obtain ⟨m₀, hroot, h₀⟩ := exists_makeRoot
  simp only [mkfs, hroot, Option.bind_eq_bind, Option.bind_some] at hrun
  obtain ⟨m, hadd, hfin⟩ := Option.bind_eq_some_iff.mp hrun
  obtain ⟨h, hslash⟩ := h₀.addFiles (by simpa using hlt) hadd
  rw [List.nil_append] at h
  rw [h.finish] at hfin
  exact ⟨m, h, hslash, (Option.some.inj hfin).symm⟩

end Img

/-! ### The image -/

theorem bit_usedMap {n : ℕ} (hn : n ≤ BPB) (j : ℕ) : bit (usedMap n) j = decide (j < n) := by
  induction n with
  | zero =>
    rw [bit_eq_testBit]
    simp [usedMap]
  | succ n ih =>
    have hn' : n < BPB := hn
    rw [usedMap, List.range_succ, List.foldl_append, List.foldl_cons, List.foldl_nil]
    have hset := @bit_setBit (usedMap n) n hn' j
    rw [ih hn'.le] at hset
    refine hset.trans ?_
    rw [← Bool.decide_or]
    exact decide_eq_decide.mpr Nat.lt_succ_iff_lt_or_eq.symm

namespace Img

variable {m : Img} {files : List Input} {i : ℕ}

theorem iblock_ne_bmapstart (hi : i < tableSize) : mkfsSb.iblock i ≠ mkfsSb.bmapstart :=
  (iblock_bounds hi).2.ne

theorem Added.table_finished (h : Added m files) :
    m.finished.table = Function.update m.table ROOTINO (rounded (m.table ROOTINO)) := by
  rw [← table_putDinode h.root]
  funext i
  rw [table, table]
  by_cases hi : 1 ≤ i ∧ i < m.freeinode
  · rw [if_pos (show 1 ≤ i ∧ i < m.finished.freeinode from hi), if_pos hi]
    exact dinodeAt_congr (Function.update_of_ne (iblock_ne_bmapstart (hi.2.trans_le h.made.le)) ..)
  · rw [if_neg (show ¬ (1 ≤ i ∧ i < m.finished.freeinode) from hi), if_neg hi]

/-- The blocks of the files are not affected by `finish`. -/
theorem Added.holds_finished (h : Added m files) :
    Holds m.finished m.finished.table (filesData files) := by
  rw [h.table_finished]
  refine ((h.made.holds.congr fun j => ?_).putDinode (by decide) _).update (by decide) _
  by_cases hj : j = ROOTINO
  · subst hj
    rw [Function.update_self]
    rfl
  · rw [Function.update_of_ne hj]

/-- The bitmap marks the blocks that have been handed out. -/
theorem Added.bitAt_finished (h : Added m files) {b : ℕ} (hb : b < FSSIZE) :
    bitAt mkfsSb m.finished.disk b = decide (b < m.freeblock) := by
  have hlt : b < BPB := hb.trans (by decide)
  have hbb : mkfsSb.bblock b = mkfsSb.bmapstart := by
    rw [Superblock.bblock, Nat.div_eq_of_lt hlt, Nat.zero_add]
  have hfb : m.freeblock ≤ BPB := h.made.holds.owned.le.trans (by decide)
  have hmap : m.finished.disk mkfsSb.bmapstart = usedMap m.freeblock := by
    simp only [finished, Function.update_self]
  rw [bitAt, hbb, hmap, Nat.mod_eq_of_lt hlt, bit_usedMap hfb]

/-- The image is in order: `mkfs` has used inodes of the table only, written inodes to inode blocks
only, and used each block at most once, which the bitmap says. -/
structure Ok (m : Img) : Prop where
  inum : ∀ i, 1 ≤ i → i < m.freeinode → i < mkfsSb.ninodes
  inodes : ∀ i, 1 ≤ i → i < m.freeinode →
    mkfsSb.inodestart ≤ mkfsSb.iblock i ∧ mkfsSb.iblock i < mkfsSb.bmapstart
  range : ∀ i k, 1 ≤ i → i < m.freeinode → slot m.disk (dinodeAt mkfsSb m.disk i) k ≠ 0 →
    mkfsSb.nmeta ≤ slot m.disk (dinodeAt mkfsSb m.disk i) k ∧
      slot m.disk (dinodeAt mkfsSb m.disk i) k < mkfsSb.size
  once : ∀ i k i' k', 1 ≤ i → i < m.freeinode → 1 ≤ i' → i' < m.freeinode →
    slot m.disk (dinodeAt mkfsSb m.disk i) k = slot m.disk (dinodeAt mkfsSb m.disk i') k' →
    slot m.disk (dinodeAt mkfsSb m.disk i) k ≠ 0 → i = i' ∧ k = k'
  bitmap : ∀ b < mkfsSb.size, (bitAt mkfsSb m.disk b = true ↔
    b < mkfsSb.nmeta ∨ ∃ i k, 1 ≤ i ∧ i < m.freeinode ∧
      slot m.disk (dinodeAt mkfsSb m.disk i) k = b ∧ b ≠ 0)

theorem Added.ok (h : Added m files) (hlt : files.length + 2 ≤ NINODES) : Ok m.finished := by
  have hinums : m.finished.freeinode = files.length + 2 := h.inums
  have hslot : ∀ i k, 1 ≤ i → i < m.finished.freeinode →
      slot m.finished.disk (dinodeAt mkfsSb m.finished.disk i) k =
        slots m.finished.disk m.finished.table (i, k) := fun i k hi hi' => by
    rw [slots, table, if_pos ⟨hi, hi'⟩]
  have howns := h.holds_finished.owned.owns
  refine ⟨fun i hi hi' => ?_, fun i hi hi' => ?_, fun i k hi hi' h0 => ?_,
    fun i k i' k' hi hi' hj hj' heq h0 => ?_, fun b hb => ?_⟩
  · exact lt_of_lt_of_le (hinums ▸ hi') hlt
  · exact iblock_bounds (lt_of_lt_of_le (hinums ▸ hi') (hlt.trans (by decide)))
  · rw [hslot i k hi hi'] at h0 ⊢
    exact howns.range h0
  · rw [hslot i k hi hi'] at h0 heq
    rw [hslot i' k' hj hj'] at heq
    exact Prod.ext_iff.mp (howns.inj heq h0)
  · rw [h.bitAt_finished hb, decide_eq_true_iff]
    refine (howns.used_iff (c := b) hb).trans (or_congr Iff.rfl ?_)
    constructor
    · rintro ⟨⟨i, k⟩, heq, h0⟩
      have hi : 1 ≤ i ∧ i < m.finished.freeinode := by
        by_contra hi
        refine h0 (heq.symm.trans ?_)
        rw [slots, table, if_neg hi]
        exact slot_zero _ k
      exact ⟨i, k, hi.1, hi.2, (hslot i k hi.1 hi.2).trans heq, h0⟩
    · rintro ⟨i, k, hi, hi', heq, h0⟩
      exact ⟨(i, k), (hslot i k hi hi').symm.trans heq, h0⟩

end Img

/-! ### The number of inodes, of any run -/

namespace Img

variable {m m' : Img}

theorem freeinode_winode {i : ℕ} {d : Dinode} (h : m.winode i d = some m') :
    m'.freeinode = m.freeinode := by
  obtain ⟨buf, -, h⟩ := Option.bind_eq_some_iff.mp h
  cases h
  rfl

theorem freeinode_entryFor {din din' : Dinode} {fbn x : ℕ}
    (h : m.entryFor din fbn = some (x, din', m')) : m'.freeinode = m.freeinode := by
  obtain ⟨buf, -, h⟩ := Option.bind_eq_some_iff.mp h
  split at h <;> cases h <;> rfl

theorem freeinode_blockFor {din din' : Dinode} {fbn x : ℕ}
    (h : m.blockFor din fbn = some (x, din', m')) : m'.freeinode = m.freeinode := by
  rw [blockFor] at h
  split at h
  · split at h <;> cases h <;> rfl
  · split at h
    · exact freeinode_entryFor (m := m.newBlock) h
    · exact freeinode_entryFor h

theorem freeinode_appendRound {din din' : Dinode} {off n1 : ℕ} {p : List UInt8}
    (h : m.appendRound din off n1 p = some (din', m')) : m'.freeinode = m.freeinode := by
  obtain ⟨⟨x, din₁, m₁⟩, hb, h⟩ := Option.bind_eq_some_iff.mp h
  obtain ⟨buf, -, h⟩ := Option.bind_eq_some_iff.mp h
  cases h
  exact (freeinode_blockFor hb : m₁.freeinode = m.freeinode)

theorem freeinode_iappendLoop {fuel off off' : ℕ} {din din' : Dinode} {p : List UInt8}
    (h : iappendLoop fuel m din off p = some (m', din', off')) : m'.freeinode = m.freeinode := by
  induction fuel generalizing m din off p with
  | zero => cases h; rfl
  | succ fuel ih =>
    rw [iappendLoop] at h
    split at h
    · cases h
      rfl
    · split at h
      · obtain ⟨⟨din₁, m₁⟩, hr, h⟩ := Option.bind_eq_some_iff.mp h
        exact (ih h).trans (freeinode_appendRound hr)
      · cases h

theorem freeinode_iappend {i : ℕ} {p : List UInt8} (h : m.iappend i p = some m') :
    m'.freeinode = m.freeinode := by
  obtain ⟨din, -, h⟩ := Option.bind_eq_some_iff.mp h
  obtain ⟨⟨m₁, din₁, off⟩, hl, h⟩ := Option.bind_eq_some_iff.mp h
  exact (freeinode_winode h).trans (freeinode_iappendLoop hl)

theorem freeinode_copyFile {fuel i : ℕ} {bytes : List UInt8}
    (h : copyFile fuel m i bytes = some m') : m'.freeinode = m.freeinode := by
  induction fuel generalizing m bytes with
  | zero => cases h; rfl
  | succ fuel ih =>
    rw [copyFile] at h
    split at h
    · cases h
      rfl
    · obtain ⟨m₁, ha, h⟩ := Option.bind_eq_some_iff.mp h
      exact (ih h).trans (freeinode_iappend ha)

theorem freeinode_addFiles {files : List Input} (h : addFiles files m = some m') :
    m'.freeinode = m.freeinode + files.length := by
  induction files generalizing m with
  | nil => cases h; rfl
  | cons f files ih =>
    obtain ⟨m₁, hf, h⟩ := Option.bind_eq_some_iff.mp h
    rw [addFile] at hf
    split at hf
    · cases hf
    obtain ⟨⟨inum, m₂⟩, hia, hf⟩ := Option.bind_eq_some_iff.mp hf
    obtain ⟨m₃, ha, hf⟩ := Option.bind_eq_some_iff.mp hf
    obtain ⟨m₄, hw, hia⟩ := Option.bind_eq_some_iff.mp hia
    cases hia
    rw [ih h, freeinode_copyFile hf, freeinode_iappend ha, freeinode_winode hw, List.length_cons]
    change m.freeinode + 1 + files.length = m.freeinode + (files.length + 1)
    omega

end Img

/-- `mkfs` uses one inode for the root directory and one for each file. -/
theorem freeinode_mkfs {files : List Input} {m : Img} (hrun : mkfs files = some m) :
    m.freeinode = files.length + 2 := by
  obtain ⟨m₀, hroot, h₀⟩ := Img.exists_makeRoot
  simp only [mkfs, hroot, Option.bind_eq_bind, Option.bind_some] at hrun
  obtain ⟨m₁, hadd, hfin⟩ := Option.bind_eq_some_iff.mp hrun
  rw [finish] at hfin
  obtain ⟨din, -, hfin⟩ := Option.bind_eq_some_iff.mp hfin
  obtain ⟨m₂, hw, hfin⟩ := Option.bind_eq_some_iff.mp hfin
  have hm : m.freeinode = m₂.freeinode := by
    split at hfin
    · cases hfin
      rfl
    · cases hfin
  rw [hm, Img.freeinode_winode hw, Img.freeinode_addFiles hadd, h₀.inums, List.length_nil]
  omega

/-! ### There is room -/

/-- The files fit: there are inodes for them, none is too long and there are blocks for all. -/
structure Roomy (files : List Input) : Prop where
  inums : files.length + 2 ≤ tableSize
  names : ∀ f ∈ files, slash ∉ cstr f.1
  sizes : ∀ f ∈ files, f.2.length ≤ MAXFILE * BSIZE
  total : nmeta + blocks (16 * (files.length + 2)) + (files.map fun f => blocks f.2.length).sum ≤
    FSSIZE

theorem filesData_file (files : List Input) (i : ℕ) :
    filesData files (i + 2) = (files[i]?.map Prod.snd).getD [] := by
  rw [filesData, if_neg (by simp only [ROOTINO]; omega), if_neg (by omega), Nat.add_sub_cancel]

theorem sum_files (files : List Input) :
    ∑ i ∈ range files.length, blocks (filesData files (i + 2)).length =
      (files.map fun f => blocks f.2.length).sum := by
  induction files using List.reverseRecOn with
  | nil => rfl
  | append_singleton files f ih =>
    rw [List.length_append, List.length_singleton, sum_range_succ, List.map_append, List.sum_append,
      List.map_singleton, List.sum_singleton, ← ih]
    congr 1
    · refine sum_congr rfl fun i hi => ?_
      rw [filesData_file, filesData_file, List.getElem?_append_left (mem_range.mp hi)]
    · rw [filesData_file, List.getElem?_concat_length]
      rfl

theorem sum_filesData (files : List Input) :
    ∑ i ∈ range (files.length + 2), blocks (filesData files i).length =
      blocks (16 * (files.length + 2)) + (files.map fun f => blocks f.2.length).sum := by
  have h0 : blocks (filesData files 0).length = 0 := by
    rw [filesData, if_neg (by decide), if_pos (by decide)]
    rfl
  have h1 : blocks (filesData files (0 + 1)).length = blocks (16 * (files.length + 2)) :=
    congrArg blocks ((congrArg List.length (filesData_root files)).trans (length_rootData files))
  rw [sum_range_succ', sum_range_succ', h0, h1, sum_files]
  omega

theorem length_filesData_le (done rest : List Input) (i : ℕ) :
    (filesData done i).length ≤ (filesData (done ++ rest) i).length := by
  by_cases hr : i = ROOTINO
  · subst hr
    rw [filesData_root, filesData_root, length_rootData, length_rootData, List.length_append]
    omega
  by_cases hlt : i < done.length + 2
  · refine Nat.le_of_eq (congrArg List.length ?_)
    rw [filesData, filesData, if_neg hr, if_neg hr]
    split
    · rfl
    · rw [List.getElem?_append_left (by omega)]
  · rw [filesData_of_ge done (not_lt.mp hlt)]
    exact Nat.zero_le _

theorem Roomy.length_le {files : List Input} (h : Roomy files) (i : ℕ) :
    (filesData files i).length ≤ MAXFILE * BSIZE := by
  have hin := h.inums
  rw [filesData]
  split
  · rw [length_rootData]
    exact (Nat.mul_le_mul_left 16 hin).trans (by decide)
  split
  · exact Nat.zero_le _
  · cases hf : files[i - 2]? with
    | none => exact Nat.zero_le _
    | some f => exact h.sizes f (List.mem_of_getElem? hf)

namespace Img

variable {m m' : Img} {data : ℕ → List UInt8} {i : ℕ} {done rest files : List Input}

/-- There is room for a file on the way to files that fit. -/
theorem Made.room (h : Made m data) (hi : i < m.freeinode) (hr : Roomy files)
    (hN : m.freeinode ≤ files.length + 2) {l : List UInt8}
    (hle : ∀ j, (Function.update data i l j).length ≤ (filesData files j).length) :
    m.Room (data i).length l.length := by
  have hi' := hle i
  rw [Function.update_self] at hi'
  refine ⟨hi'.trans (hr.length_le i), ?_⟩
  have hsum := sum_blocks_update data (mem_range.mpr hi) l
  have hmono : ∑ j ∈ range m.freeinode, blocks (Function.update data i l j).length ≤
      ∑ j ∈ range (files.length + 2), blocks (filesData files j).length :=
    (sum_le_sum fun j _ => blocks_mono (hle j)).trans
      (sum_le_sum_of_subset (range_mono hN))
  have htot := hr.total
  have hcount := h.count
  rw [sum_filesData] at hmono
  omega

theorem Added.exists_addFile {f : Input} (h : Added m done) (hr : Roomy (done ++ f :: rest)) :
    ∃ m', addFile f m = some m' ∧ Added m' (done ++ [f]) := by
  have hlen : (done ++ f :: rest).length = done.length + (rest.length + 1) := by
    rw [List.length_append, List.length_cons]
  have hin := hr.inums
  rw [hlen] at hin
  have hslash : slash ∉ cstr f.1 := hr.names f (by simp)
  obtain ⟨m₁, hia, h₁, hfree₁⟩ := h.made.ialloc (by rw [h.inums]; omega) T_FILE
    (by rw [h.inums, if_neg (by simp only [ROOTINO]; omega)])
  have hroot : 1 ≤ ROOTINO ∧ ROOTINO < m₁.freeinode := by
    rw [hfree₁]
    exact ⟨le_rfl, h.root.2.trans (Nat.lt_succ_self _)⟩
  -- the entry
  have hle₁ : ∀ j, (Function.update (filesData done) ROOTINO (filesData done ROOTINO ++
      direntBytes (done.length + 2) (fileName f.1)) j).length ≤
      (filesData (done ++ f :: rest) j).length := fun j => by
    by_cases hj : j = ROOTINO
    · subst hj
      rw [Function.update_self, filesData_root, filesData_root, List.length_append, length_rootData,
        length_rootData, length_direntBytes, hlen]
      omega
    · rw [Function.update_of_ne hj]
      exact length_filesData_le ..
  have hroom₁ := h₁.room hroot.2 hr (by rw [hfree₁, h.inums, hlen]; omega) hle₁
  rw [List.length_append] at hroom₁
  obtain ⟨m₂, happ, h₂, hfree₂⟩ := (h₁.iappend hroot _).1 hroom₁
  -- the bytes
  have hinum : 1 ≤ done.length + 2 ∧ done.length + 2 < m₂.freeinode := by
    rw [hfree₂, hfree₁, h.inums]
    omega
  have hempty : Function.update (filesData done) ROOTINO (filesData done ROOTINO ++
      direntBytes (done.length + 2) (fileName f.1)) (done.length + 2) = [] := by
    rw [Function.update_of_ne (by simp only [ROOTINO]; omega), filesData_of_ge done le_rfl]
  have hroom₂ := h₂.room hinum.2 hr (by rw [hfree₂, hfree₁, h.inums, hlen]; omega) (l := f.2)
    fun j => by
      rw [filesData_root, ← filesData_concat]
      have := length_filesData_le (done ++ [f]) rest j
      rwa [List.append_assoc, List.singleton_append] at this
  have hcp := h₂.copyFile hinum (le_refl f.2.length)
  rw [hempty, List.length_nil] at hroom₂
  rw [hempty, filesData_root, List.nil_append, ← filesData_concat, List.length_nil,
    Nat.zero_add] at hcp
  obtain ⟨m₃, hcopy, h₃, hfree₃⟩ := hcp.1 hroom₂
  refine ⟨m₃, ?_, h₃, ?_⟩
  · rw [addFile, if_neg hslash, hia, h.inums]
    simp only [Option.bind_eq_bind, Option.bind_some, happ, hcopy]
  · rw [hfree₃, hfree₂, hfree₁, h.inums, List.length_append, List.length_singleton]

theorem Added.exists_addFiles (h : Added m done) (hr : Roomy (done ++ rest)) :
    ∃ m', Fs.addFiles rest m = some m' ∧ Added m' (done ++ rest) := by
  induction rest generalizing m done with
  | nil => exact ⟨m, rfl, by rwa [List.append_nil]⟩
  | cons f rest ih =>
    obtain ⟨m₁, hf, h₁⟩ := h.exists_addFile hr
    have happ : done ++ f :: rest = done ++ [f] ++ rest := by simp
    rw [happ] at hr ⊢
    obtain ⟨m₂, hrest, h₂⟩ := ih h₁ hr
    exact ⟨m₂, by rw [Fs.addFiles, hf]; exact hrest, h₂⟩

end Img

/-- **`mkfs` gets to `exit(0)`** if the files fit. -/
theorem exists_mkfs {files : List Input} (hr : Roomy files) :
    ∃ m : Img, mkfs files = some m.finished ∧ m.Added files := by
  obtain ⟨m₀, hroot, h₀⟩ := Img.exists_makeRoot
  obtain ⟨m, hadd, h⟩ := @Img.Added.exists_addFiles m₀ [] files h₀ hr
  refine ⟨m, ?_, h⟩
  simp only [mkfs, hroot, Option.bind_eq_bind, Option.bind_some, hadd]
  exact h.finish

/-- **`mkfs` and its tables.** The image of a run that gets to `exit(0)` is in order if and only if
there are inodes for all files. -/
theorem image_ok_iff (files : List Input) (m : Img) (hrun : mkfs files = some m) :
    m.Ok ↔ files.length + 2 ≤ NINODES := by
  constructor
  · intro h
    have hlast := h.inum (files.length + 1) (by omega) (by rw [freeinode_mkfs hrun]; omega)
    exact hlast
  · intro hlt
    obtain ⟨m₀, h, -, rfl⟩ := Img.exists_added (hlt.trans (by decide)) hrun
    exact h.ok hlt

/-- `_sh` with 7000 bytes, `_ls` with 300 bytes and an empty `README`. -/
def threeFiles : List Input :=
  [([95, 115, 104], List.replicate 7000 1), ([95, 108, 115], List.replicate 300 2),
    ([82, 69, 65, 68, 77, 69], [])]

theorem roomy_threeFiles : Roomy threeFiles := by
  refine ⟨by decide, by decide, ?_, ?_⟩
  · simp only [threeFiles, List.forall_mem_cons, List.length_replicate]
    decide
  · simp only [threeFiles, List.map_cons, List.length_replicate]
    decide

/-- The first one has an indirect block. -/
theorem image_ok_of_three : ∃ m, mkfs threeFiles = some m ∧ m.freeinode = 5 ∧ m.Ok ∧
    slot m.disk (dinodeAt mkfsSb m.disk 2) NDIRECT ≠ 0 := by
  obtain ⟨m, hrun, h⟩ := exists_mkfs roomy_threeFiles
  have hfree : m.finished.freeinode = 5 := freeinode_mkfs hrun
  refine ⟨_, hrun, hfree, (image_ok_iff _ _ hrun).mpr (by decide), ?_⟩
  have hinode : m.finished.table 2 = dinodeAt mkfsSb m.finished.disk 2 :=
    if_pos ⟨by decide, by rw [hfree]; decide⟩
  rw [← hinode, (h.holds_finished.file 2).exact, needs_ndirect, filesData_file threeFiles 0]
  change _ < (List.replicate 7000 (1 : UInt8)).length
  rw [List.length_replicate]
  decide

/-- With `199` empty files the last one gets inode `200`, which is not below `sb.ninodes`. -/
theorem exists_image_not_ok : ∃ m, mkfs (List.replicate 199 ([97], [])) = some m ∧
    m.freeinode = 201 ∧ mkfsSb.ninodes = 200 ∧ ¬ m.Ok := by
  have hr : Roomy (List.replicate 199 ([97], [])) :=
    ⟨by rw [List.length_replicate]; decide, fun f hf => by rw [List.eq_of_mem_replicate hf]; decide,
      fun f hf => by rw [List.eq_of_mem_replicate hf]; decide, by
        rw [List.length_replicate, List.map_replicate, List.sum_replicate]
        decide⟩
  obtain ⟨m, hrun, -⟩ := exists_mkfs hr
  have hfree := freeinode_mkfs hrun
  rw [List.length_replicate] at hfree
  refine ⟨_, hrun, hfree, rfl, fun hok => ?_⟩
  exact absurd (hok.inum 200 (by decide) (by rw [hfree]; decide)) (by decide)

end Fs

end Xv6
