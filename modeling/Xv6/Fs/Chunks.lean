import Xv6.Fs.Locking
import Xv6.Fs.Space

/-!
# Writing in pieces

`filewrite` writes at most `maxWrite` bytes in one transaction and gives the lock back in between.
If the whole write fits into a file then the pieces amount to one `writei`, down to the blocks that
they take. If only some of the first pieces fit, these are written and the call fails.

## Main definitions

* `Chunk` — what a piece, or several, do to a file
* `Agree` — two writes have the same outcome

## Main results

* `wp_writePiece`, `wp_filewriteLoop` — one piece, and all
* `filewrite_iff` — when `filewrite` is one `writei`
-/

namespace Xv6

namespace Fs

variable {sb : Superblock} {lost : ℕ → Prop} {s t u : State} {f : FPtr} {p : IPtr}
  {off m n : ℕ} {src : ℕ → UInt8}

/-! ### Pieces -/

/-- The file of an inode that is not locked. -/
abbrev State.stored (sb : Superblock) (s : State) (p : IPtr) : OnDisk := (s.disk, s.loaded sb p)

/-- A write through the open file `f` that has ended well. -/
structure Chunk (sb : Superblock) (lost : ℕ → Prop) (f : FPtr) (p : IPtr) (off n : ℕ)
    (src : ℕ → UInt8)
    (s t : State) : Prop where
  ready : Ready sb t p
  inum : (t.icache p).inum = (s.icache p).inum
  owned : Owned sb lost t.disk (t.table sb)
  rewrites : Rewrites off n src (s.stored sb p) (t.stored sb p)
  spends : Spends sb (places off n) (s.stored sb p) (t.stored sb p)
  file : t.ftable f = { s.ftable f with off := UInt32.ofNat (off + n) }

theorem Chunk.append (h : Chunk sb lost f p off m src s t)
    (h' : Chunk sb lost f p (off + m) n (fun k => src (m + k)) t u) :
    Chunk sb lost f p off (m + n) src s u where
  ready := h'.ready
  inum := h'.inum.trans h.inum
  owned := h'.owned
  rewrites := h.rewrites.append h'.rewrites
  spends := by
    rw [places_add]
    exact h.spends.trans h'.spends
  file := by
    rw [h'.file, h.file, Nat.add_assoc]

/-! ### One piece -/

section Piece

variable {addr : ℕ → UInt8} {n₁ : UInt32}

/-- The state after a transaction, with the result of `writei`. -/
def State.advance (t : State) (f : FPtr) (p : IPtr) (r : Option UInt32) : State :=
  (t.setFile f { t.ftable f with off := (t.ftable f).off + r.getD 0 }).unlock p

theorem alike_advance (sb : Superblock) (t : State) (f : FPtr) (p : IPtr) (r : Option UInt32) :
    Alike sb t (t.advance f p r) :=
  (alike_setFile sb t f _).trans (alike_setLocked sb _ p false)

theorem ready_advance (h : Current sb t p) (r : Option UInt32) : Ready sb (t.advance f p r) p :=
  have h' : Current sb (t.setFile f { t.ftable f with off := (t.ftable f).off + r.getD 0 }) p :=
    ⟨h.ref, h.valid, h.lt, h.type, h.unique⟩
  h'.ready_unlock

theorem advance_ftable (t : State) (f : FPtr) (p : IPtr) (r : Option UInt32) :
    (t.advance f p r).ftable f = { t.ftable f with off := (t.ftable f).off + r.getD 0 } :=
  Function.update_self ..

/-- A transaction takes the lock, runs `writei` and gives the lock back. -/
theorem wp_writePiece_of (h : Ready sb s p) {Q : Option UInt32 → State → Prop}
    {E : Halt → State → Prop}
    (hw : Wp (writei sb p addr (s.ftable f).off n₁) (s.lock sb p)
      (fun r t => ((t.icache p).locked = true ∧ 0 < (t.icache p).ref) ∧ Q r (t.advance f p r)) E) :
    Wp (writePiece sb f p addr n₁) s Q E := by
  rw [writePiece, wp_bind, Wp.of_ok h.ilock_eq, wp_bind, wp_get, wp_bind]
  refine hw.mono (fun r t ht => ?_) fun _ _ he => he
  rw [wp_bind, wp_modify, wp_bind, Wp.of_ok (iunlock_eq ?_ ?_), wp_pure]
  · exact ht.2
  · exact ht.1.1
  · exact ht.1.2

theorem stored_eq_file (sb : Superblock) (s : State) (p : IPtr) :
    s.stored sb p = (s.lock sb p).file p := by
  rw [State.file, s.lock_self]
  rfl

theorem Current.stored_eq (h : Current sb t p) : t.stored sb p = t.file p := by
  rw [State.stored, State.loaded, if_pos h.valid]

theorem Alike.stored_eq (h : Alike sb s t) (p : IPtr) : t.stored sb p = s.stored sb p := by
  rw [State.stored, State.stored, h.disk, h.loaded]

/-- `writei` refuses. -/
theorem writePiece_none (f : FPtr) (addr : ℕ → UInt8) (n₁ : UInt32) (h : Ready sb s p)
    (htype : (s.loaded sb p).type ≠ T_DEV)
    (hbad : (s.loaded sb p).size.toNat < (s.ftable f).off.toNat ∨
      MAXFILE * BSIZE < (s.ftable f).off.toNat + n₁.toNat) :
    ∃ t, writePiece sb f p addr n₁ s = .ok none t ∧ Alike sb s t ∧ t.ftable f = s.ftable f := by
  have hself := s.lock_self sb p
  have hwp : Wp (writePiece sb f p addr n₁) s
      (fun r t => r = none ∧ t = (s.lock sb p).advance f p none) fun _ _ => False := by
    refine wp_writePiece_of h ?_
    rw [Wp.of_ok (writei_eq_none ?_ ?_)]
    · refine ⟨⟨?_, ?_⟩, rfl, rfl⟩
      · rw [hself]
      · rw [hself]
        exact h.ref
    · rwa [hself]
    · rwa [hself]
  obtain ⟨r, t, heq, rfl, rfl⟩ := hwp.ok
  refine ⟨_, heq, (alike_lock sb s p).trans (alike_advance sb _ f p none), ?_⟩
  rw [advance_ftable]
  simp [State.lock]

/-- **A transaction** that `writei` does not refuse. -/
theorem wp_writePiece (h : Ready sb s p) (hown : Owned sb lost s.disk (s.table sb))
    (htype : (s.loaded sb p).type ≠ T_DEV) (hoff : (s.ftable f).off.toNat = off)
    (hsize : off ≤ (s.loaded sb p).size.toNat) (hend : off + n₁.toNat ≤ MAXFILE * BSIZE) :
    Wp (writePiece sb f p addr n₁) s
      (fun r t => r = some n₁ ∧ Chunk sb lost f p off n₁.toNat addr s t)
      fun e _ => Short sb (places off n₁.toNat) (s.stored sb p) e := by
  have hself := s.lock_self sb p
  have hcur := h.current
  have hown₁ : Owned sb lost (s.lock sb p).disk
      (view ((s.lock sb p).table sb) ((s.lock sb p).icache p).inum p (s.lock sb p)) := by
    rw [hcur.view_eq]
    exact (alike_lock sb s p).owned hown
  have hd : ((s.lock sb p).icache p).d = s.loaded sb p := by rw [hself]
  subst hoff
  rw [← hd] at htype hsize
  refine wp_writePiece_of h (((wp_writei hown₁ hcur.lt rfl htype hsize hend).and
    (wp_writei_space hown₁ hcur.lt rfl htype hsize hend)).mono ?_ fun e t he => ?_)
  · rintro r t ⟨⟨rfl, hw⟩, hspent⟩
    have hcur' := hw.current hcur
    have halike := alike_advance sb t f p (some n₁)
    have hstored : (t.advance f p (some n₁)).stored sb p = t.file p :=
      (halike.stored_eq p).trans hcur'.stored_eq
    refine ⟨⟨?_, hcur'.ref⟩, rfl, ready_advance hcur' _, ?_,
      halike.owned (hw.owned_table hcur), ?_, ?_, ?_⟩
    · rw [hw.frame, State.put_icache]
      exact congrArg Inode.locked hself
    · rw [halike.inum, hw.inum_eq, hself]
    · rw [stored_eq_file, hstored]
      exact ⟨hw.attrs, hw.size, hw.bytes⟩
    · rw [stored_eq_file, hstored]
      exact hspent
    · have hftable : t.ftable f = s.ftable f := by
        rw [hw.frame]
        rfl
      rw [advance_ftable, hftable, UInt32.ofNat_add, UInt32.ofNat_toNat, UInt32.ofNat_toNat]
      rfl
  · rw [stored_eq_file]
    exact he.2

end Piece

/-! ### All pieces -/

theorem Chunk.nil (h : Ready sb s p) (hown : Owned sb lost s.disk (s.table sb))
    (hoff : (s.ftable f).off.toNat = off) (hsize : off ≤ (s.loaded sb p).size.toNat) :
    Chunk sb lost f p off 0 src s s := by
  refine ⟨h, rfl, hown, .nil hsize, .refl fun k hk => absurd hk (Finset.notMem_empty k), ?_⟩
  rw [← hoff, Nat.add_zero, UInt32.ofNat_toNat]

/-- The next piece can begin where the last one has ended. -/
theorem Chunk.off_toNat (h : Chunk sb lost f p off n src s t) (hend : off + n ≤ MAXFILE * BSIZE) :
    (t.ftable f).off.toNat = off + n := by
  rw [h.file]
  exact UInt32.toNat_ofNat_of_lt' (hend.trans_lt (by decide))

theorem Chunk.type_eq (h : Chunk sb lost f p off n src s t) :
    (t.loaded sb p).type = (s.loaded sb p).type :=
  (congrArg Dinode.type h.rewrites.attrs).trans rfl

theorem Chunk.le_size (h : Chunk sb lost f p off n src s t) :
    off + n ≤ (t.loaded sb p).size.toNat :=
  (le_max_right _ _).trans h.rewrites.size.ge

/-- **The loop of `filewrite`**, if the whole write fits. -/
theorem wp_filewriteLoop {fuel : ℕ} {addr : ℕ → UInt8} (hfuel : n ≤ fuel) (h : Ready sb s p)
    (hown : Owned sb lost s.disk (s.table sb)) (htype : (s.loaded sb p).type ≠ T_DEV)
    (hoff : (s.ftable f).off.toNat = off) (hsize : off ≤ (s.loaded sb p).size.toNat)
    (hend : off + n ≤ MAXFILE * BSIZE) :
    Wp (filewriteLoop sb f p fuel addr n) s
      (fun r t => r = true ∧ Chunk sb lost f p off n addr s t)
      fun e _ => Short sb (places off n) (s.stored sb p) e := by
  induction fuel generalizing s off n addr with
  | zero =>
    obtain rfl : n = 0 := Nat.le_zero.mp hfuel
    exact ⟨rfl, .nil h hown hoff hsize⟩
  | succ fuel ih =>
    rw [filewriteLoop_succ, wp_ite]
    refine ⟨fun hn => ?_, fun hn => ?_⟩
    · rw [hn]
      exact ⟨rfl, .nil h hown hoff hsize⟩
    have hpos : 0 < maxWrite := by decide
    obtain ⟨m, hm⟩ : ∃ m, m = min n maxWrite := ⟨_, rfl⟩
    have hm₁ : (UInt32.ofNat m).toNat = m :=
      UInt32.toNat_ofNat_of_lt' (lt_of_le_of_lt (by omega) (show maxWrite < 2 ^ 32 by decide))
    have hsplit : n = m + (n - m) := by omega
    rw [← hm, wp_bind]
    refine (wp_writePiece h hown htype hoff hsize (by omega)).mono ?_ fun e t he => ?_
    · rintro r t ⟨rfl, hchunk⟩
      rw [hm₁] at hchunk
      have hoff' := hchunk.off_toNat (by omega)
      refine (wp_ite.mpr ⟨fun hne => absurd rfl hne, fun _ => ?_⟩)
      refine (ih (by omega) hchunk.ready hchunk.owned (hchunk.type_eq ▸ htype) hoff' hchunk.le_size
        (by omega)).mono ?_ fun e u he => ?_
      · rintro r u ⟨rfl, hrest⟩
        have := hchunk.append hrest
        rw [← hsplit] at this
        exact ⟨rfl, this⟩
      · rw [hsplit, places_add]
        exact hchunk.spends.short he
    · rw [hm₁] at he
      rw [hsplit, places_add]
      exact he.left

/-- The offset does not go back, whether the whole write fits or not. -/
theorem wp_filewriteLoop_off {fuel : ℕ} {addr : ℕ → UInt8} (h : Ready sb s p)
    (hown : Owned sb lost s.disk (s.table sb)) (htype : (s.loaded sb p).type ≠ T_DEV)
    (hoff : (s.ftable f).off.toNat = off) (hsize : off ≤ (s.loaded sb p).size.toNat) :
    Wp (filewriteLoop sb f p fuel addr n) s (fun _ t => off ≤ (t.ftable f).off.toNat)
      fun _ _ => True := by
  induction fuel generalizing s off n addr with
  | zero => exact hoff.ge
  | succ fuel ih =>
    rw [filewriteLoop_succ, wp_ite]
    refine ⟨fun _ => hoff.ge, fun hn => ?_⟩
    obtain ⟨m, hm⟩ : ∃ m, m = min n maxWrite := ⟨_, rfl⟩
    have hm₁ : (UInt32.ofNat m).toNat = m :=
      UInt32.toNat_ofNat_of_lt' (lt_of_le_of_lt (by omega) (show maxWrite < 2 ^ 32 by decide))
    rw [← hm, wp_bind]
    by_cases hend : off + m ≤ MAXFILE * BSIZE
    · refine (wp_writePiece h hown htype hoff hsize (by rwa [hm₁])).mono ?_ fun _ _ _ => trivial
      rintro r t ⟨rfl, hchunk⟩
      rw [hm₁] at hchunk
      refine wp_ite.mpr ⟨fun hne => absurd rfl hne, fun _ => ?_⟩
      refine (ih hchunk.ready hchunk.owned (hchunk.type_eq ▸ htype) (hchunk.off_toNat hend)
        hchunk.le_size).mono (fun _ u hu => ?_) fun _ _ _ => trivial
      omega
    · obtain ⟨t, heq, -, hfile⟩ := writePiece_none f addr (UInt32.ofNat m) h htype (.inr (by omega))
      rw [Wp.of_ok heq, wp_pure, hfile, hoff]

/-! ### One `writei` -/

theorem Ready.eff_eq (h : Ready sb s p) : s.eff sb (s.icache p).inum = s.loaded sb p := by
  have hs := alike_lock sb s p
  have := h.current.eff_eq
  rwa [hs.inum, hs.eff_eq, s.lock_self] at this

/-- The file after a write. -/
theorem Chunk.node_eq (h : Chunk sb lost f p off n src s t) (hs : Ready sb s p)
    (hsize : off ≤ (s.loaded sb p).size.toNat) : t.node sb (s.icache p).inum =
    { s.node sb (s.icache p).inum with
      data := overwrite (s.node sb (s.icache p).inum).data off ((List.range n).map src) } := by
  refine h.rewrites.node_eq (by rw [hs.eff_eq]) ?_ hsize
  rw [← h.inum, h.ready.eff_eq]

/-- Two writes have the same outcome: neither returns, for the same reason, or both return the same
value and leave the same file and the same offset. -/
def Agree (sb : Superblock) (f : FPtr) (i : ℕ) :
    EStateM.Result Halt State (Option ℕ) → EStateM.Result Halt State (Option UInt32) → Prop
  | .ok r t, .ok r' t' => r = r'.map UInt32.toNat ∧ t.node sb i = t'.node sb i ∧
      (t.ftable f).off = (t'.ftable f).off
  | .error e _, .error e' _ => e = e'
  | _, _ => False

/-- The whole write fits into a file, or not even the first piece does. -/
def Fits (size off n : ℕ) : Prop :=
  if n = 0 then off ≤ size ∧ off ≤ MAXFILE * BSIZE
  else size < off ∨ off + n ≤ MAXFILE * BSIZE ∨ MAXFILE * BSIZE < off + min n maxWrite

theorem ne_dev_of_file {d : Dinode} (h : d.type = T_FILE) : d.type ≠ T_DEV := by
  rw [h]
  decide

section Single

variable {addr : ℕ → UInt8} (hn : n < 2 ^ 31) (hkind : (s.ftable f).kind = .inode p)
  (hwritable : (s.ftable f).writable = true) (h : Ready sb s p)
  (hown : Owned sb lost s.disk (s.table sb)) (htype : (s.loaded sb p).type = T_FILE)

include hkind hwritable

/-- `filewrite` of an inode runs its loop. -/
theorem wp_filewrite_of {Q : Option ℕ → State → Prop} {E : Halt → State → Prop}
    (hw : Wp (filewriteLoop sb f p n addr n) s (fun r t => Q (if r then some n else none) t) E) :
    Wp (filewrite sb f addr n) s Q E := by
  rw [filewrite, wp_bind, wp_get, if_neg (by simp [hwritable]), hkind]
  exact (wp_bind _ _).mpr hw

include hn h hown htype

/-- The whole write fits. -/
theorem agree_of_fits (hsize : (s.ftable f).off.toNat ≤ (s.loaded sb p).size.toNat)
    (hend : (s.ftable f).off.toNat + n ≤ MAXFILE * BSIZE) :
    Agree sb f (s.icache p).inum (filewrite sb f addr n s)
      (writePiece sb f p addr (UInt32.ofNat n) s) := by
  have hdev := ne_dev_of_file htype
  have hn₁ := toNat_ofNat_of_lt hn
  have hx : Wp (filewrite sb f addr n) s
      (fun r t => r = some n ∧ Chunk sb lost f p (s.ftable f).off.toNat n addr s t)
      fun e _ => Short sb (places (s.ftable f).off.toNat n) (s.stored sb p) e := by
    refine wp_filewrite_of hkind hwritable
      ((wp_filewriteLoop le_rfl h hown hdev rfl hsize hend).mono ?_ fun _ _ he => he)
    rintro r t ⟨rfl, hchunk⟩
    exact ⟨rfl, hchunk⟩
  have hy : Wp (writePiece sb f p addr (UInt32.ofNat n)) s _ _ :=
    wp_writePiece h hown hdev rfl hsize (by rwa [hn₁])
  rw [hn₁] at hy
  rw [Wp] at hx hy
  cases hfx : filewrite sb f addr n s <;> cases hfy : writePiece sb f p addr (UInt32.ofNat n) s <;>
    rw [hfx] at hx <;> rw [hfy] at hy
  · obtain ⟨rfl, hchunk⟩ := hx
    obtain ⟨rfl, hchunk'⟩ := hy
    refine ⟨by simp [hn₁], ?_, ?_⟩
    · rw [hchunk.node_eq h hsize, hchunk'.node_eq h hsize]
    · rw [hchunk.file, hchunk'.file]
  · exact hx.2.spends.not_short hy
  · exact hy.2.spends.not_short hx
  · exact hx.1.trans hy.1.symm

omit hown in
/-- Not even the first piece fits. -/
theorem agree_of_refused (hn0 : n ≠ 0)
    (hbad : (s.loaded sb p).size.toNat < (s.ftable f).off.toNat ∨
      MAXFILE * BSIZE < (s.ftable f).off.toNat + min n maxWrite) :
    Agree sb f (s.icache p).inum (filewrite sb f addr n s)
      (writePiece sb f p addr (UInt32.ofNat n) s) := by
  have hdev := ne_dev_of_file htype
  have hn₁ := toNat_ofNat_of_lt hn
  have hm : (UInt32.ofNat (min n maxWrite)).toNat = min n maxWrite := toNat_ofNat_of_lt (by omega)
  obtain ⟨t, heq, halike, hfile⟩ := writePiece_none f addr (UInt32.ofNat (min n maxWrite)) h hdev
    (by rwa [hm])
  obtain ⟨t', heq', halike', hfile'⟩ := writePiece_none f addr (UInt32.ofNat n) h hdev
    (by rw [hn₁]; omega)
  have hx : Wp (filewrite sb f addr n) s (fun r u => r = none ∧ u = t) fun _ _ => False := by
    refine wp_filewrite_of hkind hwritable ?_
    obtain ⟨k, rfl⟩ := Nat.exists_eq_succ_of_ne_zero hn0
    rw [filewriteLoop_succ, if_neg hn0, wp_bind, Wp.of_ok heq]
    exact ⟨rfl, rfl⟩
  obtain ⟨r, u, hfx, rfl, rfl⟩ := hx.ok
  rw [hfx, heq']
  exact ⟨rfl, (halike.node_eq _).trans (halike'.node_eq _).symm, by rw [hfile, hfile']⟩

omit hown in
/-- Nothing is to be written, at an offset where nothing can be. -/
theorem not_agree_of_zero (hn0 : n = 0)
    (hbad : (s.loaded sb p).size.toNat < (s.ftable f).off.toNat ∨
      MAXFILE * BSIZE < (s.ftable f).off.toNat) :
    ¬ Agree sb f (s.icache p).inum (filewrite sb f addr n s)
      (writePiece sb f p addr (UInt32.ofNat n) s) := by
  have hdev := ne_dev_of_file htype
  subst hn0
  obtain ⟨t, heq, -, -⟩ := writePiece_none f addr (UInt32.ofNat 0) h hdev hbad
  have hx : Wp (filewrite sb f addr 0) s (fun r _ => r = some 0) fun _ _ => False :=
    wp_filewrite_of hkind hwritable rfl
  obtain ⟨r, u, hfx, rfl⟩ := hx.ok
  rw [hfx, heq]
  rintro ⟨hnone, -⟩
  cases hnone

/-- The first piece fits, and a later one does not. -/
theorem not_agree_of_part (hsize : (s.ftable f).off.toNat ≤ (s.loaded sb p).size.toNat)
    (hfirst : (s.ftable f).off.toNat + min n maxWrite ≤ MAXFILE * BSIZE)
    (hend : MAXFILE * BSIZE < (s.ftable f).off.toNat + n) :
    ¬ Agree sb f (s.icache p).inum (filewrite sb f addr n s)
      (writePiece sb f p addr (UInt32.ofNat n) s) := by
  have hdev := ne_dev_of_file htype
  have hn₁ := toNat_ofNat_of_lt hn
  have hm : (UInt32.ofNat (min n maxWrite)).toNat = min n maxWrite := toNat_ofNat_of_lt (by omega)
  have hpos : 0 < maxWrite := by decide
  obtain ⟨t, heq, -, hfile⟩ := writePiece_none f addr (UInt32.ofNat n) h hdev (.inr (by rwa [hn₁]))
  have hx : Wp (filewrite sb f addr n) s
      (fun _ u => (s.ftable f).off.toNat < (u.ftable f).off.toNat) fun _ _ => True := by
    refine wp_filewrite_of hkind hwritable ?_
    obtain ⟨k, rfl⟩ := Nat.exists_eq_succ_of_ne_zero (show n ≠ 0 by omega)
    rw [filewriteLoop_succ, if_neg (Nat.succ_ne_zero k), wp_bind]
    refine (wp_writePiece h hown hdev rfl hsize (by rwa [hm])).mono ?_ fun _ _ _ => trivial
    rintro r u ⟨rfl, hchunk⟩
    rw [hm] at hchunk
    refine wp_ite.mpr ⟨fun hne => absurd rfl hne, fun _ => ?_⟩
    refine (wp_filewriteLoop_off hchunk.ready hchunk.owned (hchunk.type_eq ▸ hdev)
      (hchunk.off_toNat hfirst) hchunk.le_size).mono (fun _ v hv => ?_) fun _ _ _ => trivial
    omega
  rw [heq]
  cases hfx : filewrite sb f addr n s with
  | ok r u =>
    rintro ⟨-, -, hsame⟩
    rw [Wp.of_ok hfx, hsame, hfile] at hx
    exact lt_irrefl _ hx
  | error e u => exact id

end Single

/-- **Writing in pieces.** For a regular file that nobody else has locked, `filewrite` has the
outcome of one `writei` if and only if the whole write fits into a file, or not even its first piece
does. -/
theorem filewrite_iff (sb : Superblock) (lost : ℕ → Prop) (s : State) (f : FPtr) (ip : IPtr)
    (addr : ℕ → UInt8) (n : ℕ) (hn : n < 2 ^ 31) (hkind : (s.ftable f).kind = .inode ip)
    (hwritable : (s.ftable f).writable = true) (h : Ready sb s ip)
    (hown : Owned sb lost s.disk (s.table sb)) (htype : (s.loaded sb ip).type = T_FILE) :
    Agree sb f (s.icache ip).inum (filewrite sb f addr n s)
        (writePiece sb f ip addr (UInt32.ofNat n) s) ↔
      Fits (s.loaded sb ip).size.toNat (s.ftable f).off.toNat n := by
  constructor
  · intro hagree
    by_contra hfits
    rw [Fits] at hfits
    split at hfits
    · next hn0 => exact not_agree_of_zero hn hkind hwritable h htype hn0 (by omega) hagree
    · exact not_agree_of_part hn hkind hwritable h hown htype (by omega) (by omega)
        (by omega) hagree
  · intro hfits
    rw [Fits] at hfits
    split at hfits
    · next hn0 => exact agree_of_fits hn hkind hwritable h hown htype hfits.1 (by omega)
    · next hn0 =>
      by_cases hbad : (s.loaded sb ip).size.toNat < (s.ftable f).off.toNat ∨
          MAXFILE * BSIZE < (s.ftable f).off.toNat + min n maxWrite
      · exact agree_of_refused hn hkind hwritable h htype hn0 hbad
      · exact agree_of_fits hn hkind hwritable h hown htype (by omega) (by omega)

theorem ready_newFile : Ready mkfsSb newFile 0 :=
  ⟨current_newFile.ref, rfl, current_newFile.lt, current_newFile.type, current_newFile.unique⟩

/-- The new file is open. -/
theorem newFile_facts : ((newFile.ftable 0).kind = .inode 0 ∧ (newFile.ftable 0).writable = true) ∧
    (newFile.ftable 0).off.toNat = 0 ∧ (newFile.loaded mkfsSb 0).size.toNat = 0 ∧
    (newFile.loaded mkfsSb 0).type = T_FILE ∧ (newFile.icache 0).inum = 1 :=
  ⟨⟨rfl, rfl⟩, rfl, rfl, rfl, rfl⟩

/-- 2000 bytes are written to a new file. -/
theorem filewrite_iff_newFile : Agree mkfsSb 0 1 (filewrite mkfsSb 0 (fun _ => 7) 2000 newFile)
    (writePiece mkfsSb 0 0 (fun _ => 7) (UInt32.ofNat 2000) newFile) := by
  have hready := ready_newFile
  have hown := owned_newFile
  have hfacts := newFile_facts
  generalize newFile = s at *
  obtain ⟨⟨hkind, hwritable⟩, hoff, hsize, htype, hinum⟩ := hfacts
  have hiff := filewrite_iff mkfsSb _ s 0 0 (fun _ => 7) 2000 (by decide) hkind hwritable
    hready hown htype
  rw [hinum, hoff, hsize, Fits, if_neg (by decide)] at hiff
  rw [hiff]
  exact .inr (.inl (by decide))

/-- One byte too many is written to a new file. All but the last piece are there afterwards, though
the call fails. -/
theorem filewrite_ne_writei : ¬ Agree mkfsSb 0 1 (filewrite mkfsSb 0 (fun _ => 7) 71681 newFile)
    (writePiece mkfsSb 0 0 (fun _ => 7) (UInt32.ofNat 71681) newFile) := by
  have hready := ready_newFile
  have hown := owned_newFile
  obtain ⟨⟨hkind, hwritable⟩, hoff, hsize, htype, hinum⟩ := newFile_facts
  generalize newFile = s at *
  have hne : ¬ Agree mkfsSb 0 (s.icache 0).inum (filewrite mkfsSb 0 (fun _ => 7) 71681 s)
      (writePiece mkfsSb 0 0 (fun _ => 7) (UInt32.ofNat 71681) s) := by
    refine not_agree_of_part (by decide) hkind hwritable hready hown htype ?_ ?_ ?_
    · rw [hoff]
      exact Nat.zero_le _
    · rw [hoff]
      decide
    · rw [hoff]
      decide
  rwa [hinum] at hne

end Fs

end Xv6
