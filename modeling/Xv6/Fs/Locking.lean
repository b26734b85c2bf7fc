import Xv6.Fs.Files

/-!
# Locking an inode

`ilock` reads the inode if it has not been read, and `iunlock` only gives the lock back. Neither
changes what the system sees of the files.

## Main definitions

* `State.lock` — the state after `ilock`
* `Alike` — two states in which the system sees the same files
* `Ready` — an inode that can be locked

## Main results

* `Ready.ilock_eq`, `Current.iunlock_eq` — the lock is taken and given back
-/

namespace Xv6

namespace Fs

variable {sb : Superblock} {lost : ℕ → Prop} {s t u : State} {p q : IPtr} {i j : ℕ}

/-! ### States in which the system sees the same files -/

/-- The disk is the same, and so are the inodes in the cache, read or not. -/
structure Alike (sb : Superblock) (s t : State) : Prop where
  disk : t.disk = s.disk
  ref : ∀ q, (t.icache q).ref = (s.icache q).ref
  inum : ∀ q, (t.icache q).inum = (s.icache q).inum
  loaded : ∀ q, t.loaded sb q = s.loaded sb q

theorem State.eff_eq_loaded (sb : Superblock) (s : State) (i : ℕ) :
    s.eff sb i = match s.cached i with
      | some q => s.loaded sb q
      | none => dinodeAt sb s.disk i := by
  rw [State.eff]
  cases hc : s.cached i with
  | none => rfl
  | some q =>
    have hq := List.find?_some hc
    simp only [decide_eq_true_eq] at hq
    simp only [State.loaded, hq.2]

namespace Alike

theorem trans (h : Alike sb s t) (h' : Alike sb t u) : Alike sb s u where
  disk := h'.disk.trans h.disk
  ref q := (h'.ref q).trans (h.ref q)
  inum q := (h'.inum q).trans (h.inum q)
  loaded q := (h'.loaded q).trans (h.loaded q)

theorem eff_eq (h : Alike sb s t) (i : ℕ) : t.eff sb i = s.eff sb i := by
  have hc : t.cached i = s.cached i := by simp only [State.cached, h.ref, h.inum]
  simp only [State.eff_eq_loaded, hc, h.loaded, h.disk]

theorem table_eq (h : Alike sb s t) : t.table sb = s.table sb := by
  funext i
  rw [State.table, State.table, h.eff_eq]

theorem node_eq (h : Alike sb s t) (i : ℕ) : t.node sb i = s.node sb i := by
  have hbyte : t.byteAt sb i = s.byteAt sb i := by
    funext k
    rw [State.byteAt, State.byteAt, h.eff_eq, h.disk]
  rw [State.node, State.node, h.eff_eq, hbyte]

theorem owned (h : Alike sb s t) (hs : Owned sb lost s.disk (s.table sb)) :
    Owned sb lost t.disk (t.table sb) := by
  rwa [h.disk, h.table_eq]

end Alike

/-- An assignment to the file table. -/
theorem alike_setFile (sb : Superblock) (s : State) (f : FPtr) (ff : File) :
    Alike sb s (s.setFile f ff) :=
  ⟨rfl, fun _ => rfl, fun _ => rfl, fun _ => rfl⟩

/-- An assignment to the lock of an inode. -/
theorem alike_setLocked (sb : Superblock) (s : State) (p : IPtr) (b : Bool) :
    Alike sb s (s.setInode p { s.icache p with locked := b }) := by
  have hq : ∀ q, (s.setInode p { s.icache p with locked := b }).icache q =
      { s.icache q with locked := if q = p then b else (s.icache q).locked } := fun q => by
    by_cases h : q = p
    · simp only [State.setInode, h, Function.update_self, if_true]
    · simp only [State.setInode, Function.update_of_ne h, if_neg h]
  refine ⟨rfl, fun q => ?_, fun q => ?_, fun q => ?_⟩
  · rw [hq]
  · rw [hq]
  · rw [State.loaded, State.loaded, hq]
    rfl

/-! ### `ilock` and `iunlock` -/

/-- The state after `ilock`. -/
def State.lock (sb : Superblock) (s : State) (p : IPtr) : State :=
  { s with
    icache := Function.update s.icache p
      { s.icache p with locked := true, valid := true, d := s.loaded sb p } }

/-- The state after `iunlock`. -/
def State.unlock (s : State) (p : IPtr) : State := s.setInode p { s.icache p with locked := false }

/-- An entry of the cache for an inode in use, the only one, that is not locked. -/
structure Ready (sb : Superblock) (s : State) (p : IPtr) : Prop where
  ref : 0 < (s.icache p).ref
  unlocked : (s.icache p).locked = false
  lt : (s.icache p).inum < sb.ninodes
  type : (s.loaded sb p).type ≠ 0
  unique : ∀ q, 0 < (s.icache q).ref → (s.icache q).inum = (s.icache p).inum → q = p

theorem State.lock_self (sb : Superblock) (s : State) (p : IPtr) : (s.lock sb p).icache p =
    { s.icache p with locked := true, valid := true, d := s.loaded sb p } := Function.update_self ..

theorem State.lock_of_ne (sb : Superblock) (s : State) (h : q ≠ p) :
    (s.lock sb p).icache q = s.icache q := Function.update_of_ne h ..

theorem alike_lock (sb : Superblock) (s : State) (p : IPtr) : Alike sb s (s.lock sb p) := by
  refine ⟨rfl, fun q => ?_, fun q => ?_, fun q => ?_⟩ <;> by_cases hq : q = p
  · rw [hq, s.lock_self]
  · rw [s.lock_of_ne sb hq]
  · rw [hq, s.lock_self]
  · rw [s.lock_of_ne sb hq]
  · rw [hq, State.loaded, s.lock_self]
    rfl
  · rw [State.loaded, s.lock_of_ne sb hq]
    rfl

namespace Ready

/-- **`ilock`**, of a lock that is free. -/
theorem ilock_eq (h : Ready sb s p) : ilock sb p s = .ok () (s.lock sb p) := by
  have hwp : Wp (ilock sb p) s (fun _ t => t = s.lock sb p) fun _ _ => False := by
    rw [ilock, wp_bind, wp_getInode, if_neg (Nat.not_lt.mpr h.ref), wp_bind, acquiresleep, wp_bind,
      wp_getInode, if_neg (by simp [h.unlocked]), wp_putInode, wp_bind, wp_get]
    have hnone : (s.loaded sb p).type ≠ 0 := h.type
    simp only [State.setInode, Function.update_self]
    rw [wp_ite]
    refine ⟨fun hvalid => ?_, fun hvalid => ?_⟩
    · have hloaded : s.loaded sb p = dinodeAt sb s.disk (s.icache p).inum := by
        rw [State.loaded, hvalid]
        rfl
      rw [wp_bind, wp_putInode, if_neg (hloaded ▸ hnone), wp_pure]
      simp only [State.setInode, State.lock, Function.update_self, Function.update_idem, hloaded]
    · have hloaded : s.loaded sb p = (s.icache p).d := by
        rw [State.loaded, if_pos (Bool.eq_true_of_not_eq_false hvalid)]
      rw [wp_pure, State.lock, hloaded, Bool.eq_true_of_not_eq_false hvalid]
  obtain ⟨_, t, heq, rfl⟩ := hwp.ok
  exact heq

theorem current (h : Ready sb s p) : Current sb (s.lock sb p) p where
  ref := by
    rw [s.lock_self]
    exact h.ref
  valid := by rw [s.lock_self]
  lt := by
    rw [s.lock_self]
    exact h.lt
  type := by
    rw [s.lock_self]
    exact h.type
  unique q hq hinum := by
    have hs := alike_lock sb s p
    rw [hs.ref] at hq
    rw [hs.inum, hs.inum] at hinum
    exact h.unique q hq hinum

end Ready

/-- **`iunlock`**, of a lock that is held. -/
theorem iunlock_eq (hlocked : (s.icache p).locked = true) (href : 0 < (s.icache p).ref) :
    iunlock p s = .ok () (s.unlock p) := by
  have hwp : Wp (iunlock p) s (fun _ t => t = s.unlock p) fun _ _ => False := by
    rw [iunlock, wp_bind, wp_getInode, if_neg (by simp [hlocked]; omega), releasesleep, wp_putInode]
    rfl
  obtain ⟨_, t, heq, rfl⟩ := hwp.ok
  exact heq

theorem Current.ready_unlock (h : Current sb s p) : Ready sb (s.unlock p) p := by
  have hs := alike_setLocked sb s p false
  have hself : (s.unlock p).icache p = { s.icache p with locked := false } :=
    Function.update_self ..
  refine ⟨?_, ?_, ?_, ?_, fun q hq hinum => ?_⟩
  · rw [hself]
    exact h.ref
  · rw [hself]
  · rw [hself]
    exact h.lt
  · rw [State.loaded, hself, if_pos h.valid]
    exact h.type
  · exact h.unique q ((hs.ref q).symm.trans_gt hq)
      ((hs.inum q).symm.trans (hinum.trans (hs.inum p)))

end Fs

end Xv6
