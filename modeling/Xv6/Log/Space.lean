import Xv6.Log.Atomic

/-!
# Space in the log

`begin_op` lets an operation in when `LOGSIZE` blocks are enough for it and for those already
running, at `MAXOPBLOCKS` blocks each. `log_write` needs one block less than `log.size` to be taken,
since the header is in the log area too. With the log that `mkfs` lays out the two disagree by one
block, so three operations that use all they may do not fit.

## Main definitions

* `usage` — the blocks that an operation has passed to `log_write`
* `Frugal` — no operation of a run passes more than `m` blocks to `log_write`

## Main results

* `no_tooBig_iff` — the log has room for operations of at most `m` blocks exactly when `m ≤ 9`
* `tooBig_of_ten` — a run of operations of ten blocks that panics
-/

namespace Xv6

namespace Log

open State Transition

/-! ### What operations ask for -/

/-- The blocks each process has passed to `log_write` in its operation, after one more event. -/
def ask (u : Pid → Finset ℕ) : Event → Pid → Finset ℕ
  | .call p .beginOp => Function.update u p ∅
  | .call p (.logCheck b) => Function.update u p (insert b (u p))
  | _ => u

/-- The blocks each process has passed to `log_write` in the operation it is in, or was in last. -/
def usage (es : List Event) : Pid → Finset ℕ := es.foldl ask fun _ => ∅

/-- Every operation passes at most `m` distinct blocks to `log_write`. -/
def Frugal (m : ℕ) (es : List Event) : Prop := ∀ fs, fs <+: es → ∀ p, (usage fs p).card ≤ m

theorem usage_concat (es : List Event) (e : Event) : usage (es ++ [e]) = ask (usage es) e := by
  simp [usage]

theorem Frugal.of_append {m : ℕ} {es fs : List Event} (h : Frugal m (es ++ fs)) : Frugal m es :=
  fun gs hgs => h gs (hgs.trans (List.prefix_append es fs))

theorem Frugal.card_le {m : ℕ} {es : List Event} (h : Frugal m es) (p : Pid) :
    (usage es p).card ≤ m :=
  h es (List.prefix_refl es) p

theorem Frugal.mono {m n : ℕ} {es : List Event} (h : Frugal m es) (hmn : m ≤ n) : Frugal n es :=
  fun fs hfs p => (h fs hfs p).trans hmn

/-! ### Steps that do not concern the log -/

/-- Steps of the buffer cache leave the log alone and do not enter `log_write`. -/
structure Frame (s s' : State) : Prop where
  lh : s'.lh = s.lh
  outstanding : s'.outstanding = s.outstanding
  committing : s'.committing = s.committing
  ops : s'.ops = s.ops
  code : s'.code = s.code
  up : s'.up = s.up
  checked : ∀ h ∈ s'.holds, h.phase = .checked → h ∈ s.holds
  panic : s'.panic = some .tooBig → s.panic = some .tooBig

section

variable {s s' : State} {p : Pid} {b : ℕ} {x : Hold}

theorem frame_fail (s : State) {m : Panic} (hm : m ≠ .tooBig) : Frame s (s.fail m) :=
  ⟨rfl, rfl, rfl, rfl, rfl, rfl, fun _ hh _ => hh, fun h => absurd (Option.some.inj h) hm⟩

theorem checked_of_setPhase (ph : Phase) (hph : ph ≠ .checked) {h : Hold}
    (hh : h ∈ (s.setPhase x ph).holds) (hc : h.phase = .checked) : h ∈ s.holds := by
  obtain ⟨y, hy, rfl⟩ := List.mem_map.mp hh
  by_cases hyx : y = x
  · rw [if_pos hyx] at hc
    exact absurd hc hph
  · rwa [if_neg hyx]

/-- A change of one buffer and of the phase of its user. -/
theorem frame_update (s : State) (k : Buf) {ph : Phase} (hph : ph ≠ .checked) :
    Frame s ((s.setBuf x.buf k).setPhase x ph) :=
  ⟨rfl, rfl, rfl, rfl, rfl, rfl, fun _ hh hc =>
    checked_of_setPhase (s := s.setBuf ..) ph hph hh hc, id⟩

theorem frame_bget (s : State) (p : Pid) (b : ℕ) : Frame s (s.bget p b) := by
  have hcons : ∀ i, ∀ h ∈ (⟨p, b, i, .waiting⟩ : Hold) :: s.holds, h.phase = .checked →
      h ∈ s.holds := by
    intro i h hh hc
    rcases List.mem_cons.mp hh with rfl | hh
    · cases hc
    · exact hh
  unfold State.bget
  cases s.lookup b with
  | some i => exact ⟨rfl, rfl, rfl, rfl, rfl, rfl, hcons i, id⟩
  | none =>
    cases s.victim with
    | some i => exact ⟨rfl, rfl, rfl, rfl, rfl, rfl, hcons i, id⟩
    | none => exact frame_fail s nofun

theorem frame_acquire (h : s.acquire x = some s') : Frame s s' := by
  unfold State.acquire at h
  dsimp only at h
  split_ifs at h <;> cases h
  · exact frame_update s _ nofun
  · exact frame_fail s nofun
  · exact frame_update s _ nofun

theorem frame_release (s : State) (x : Hold) : Frame s (s.release x) := frame_update s _ nofun

theorem frame_drop (s : State) (x : Hold) : Frame s (s.drop x) :=
  ⟨rfl, rfl, rfl, rfl, rfl, rfl, fun _ hh _ => List.mem_of_mem_erase hh, id⟩

theorem frame_bwrite (s : State) (x : Hold) (data : Block) : Frame s (s.bwrite x data) :=
  ⟨rfl, rfl, rfl, rfl, rfl, rfl, fun _ hh _ => hh, id⟩

end

/-! ### `commit` and recovery empty the transaction -/

/-- The instructions that end a commit or the recovery. -/
def Instr.isLast : Instr → Bool
  | .endCommit | .initDone => true
  | _ => false

/-- Is `log.lh.n` zero when the instructions have been executed? The second argument says whether it
is now. -/
def leavesEmpty : List Instr → Bool → Bool
  | [], e => e
  | .clear :: c, _ | .commit :: c, _ => leavesEmpty c true
  | .readHead :: c, _ | .loadHead :: c, _ => leavesEmpty c false
  | _ :: c, e => leavesEmpty c e

theorem leavesEmpty_mono {c : List Instr} {e : Bool} (h : leavesEmpty c false = true) :
    leavesEmpty c e = true := by
  cases e with
  | false => exact h
  | true =>
    induction c with
    | nil => rfl
    | cons i c ih => cases i <;> first | exact h | exact ih h

/-- Process `p` executes the rest of a commit or of the recovery. -/
structure Closing (s : State) (p : Pid) (fin : Instr) : Prop where
  others : ∀ q, q ≠ p → s.code q = []
  code : ∃ c, s.code p = c ++ [fin] ∧ ∀ i ∈ c, i.isLast = false
  tidy : leavesEmpty (s.code p) s.lh.isEmpty = true
  ops : s.ops = []
  kind : (fin = .endCommit ∧ s.committing = true ∧ s.up = true) ∨
    (fin = .initDone ∧ s.committing = false ∧ s.up = false)

/-- An instruction puts others in its place, and brings the transaction on its way. -/
structure Expands (s s' : State) (p : Pid) (i : Instr) (c : List Instr) : Prop where
  code : ∃ is, s'.code = Function.update s.code p (is ++ c) ∧ (∀ j ∈ is, j.isLast = false) ∧
    (leavesEmpty (i :: c) s.lh.isEmpty = true → leavesEmpty (is ++ c) s'.lh.isEmpty = true)
  outstanding : s'.outstanding = s.outstanding
  committing : s'.committing = s.committing
  ops : s'.ops = s.ops
  up : s'.up = s.up
  checked : ∀ h ∈ s'.holds, h.phase = .checked → h ∈ s.holds
  panic : s'.panic = some .tooBig → s.panic = some .tooBig

section

variable {cf : Conf} {s s' : State} {p : Pid} {i : Instr} {c : List Instr}

theorem Frame.expands (hf : Frame (s.setCode p c) s')
    (hi : leavesEmpty (i :: c) s.lh.isEmpty = true → leavesEmpty c s.lh.isEmpty = true) :
    Expands s s' p i c where
  code := ⟨[], hf.code, nofun, fun h => by rw [hf.lh]; exact hi h⟩
  outstanding := hf.outstanding
  committing := hf.committing
  ops := hf.ops
  up := hf.up
  checked := hf.checked
  panic := hf.panic

/-- An instruction that only continues with others. -/
theorem expands_push {is : List Instr} (his : ∀ j ∈ is, j.isLast = false)
    (hi : leavesEmpty (i :: c) s.lh.isEmpty = true → leavesEmpty (is ++ c) s.lh.isEmpty = true) :
    Expands s ((s.setCode p c).push p is) p i c := by
  rw [setCode_push]
  exact ⟨⟨is, rfl, his, hi⟩, rfl, rfl, rfl, rfl, fun _ hh _ => hh, id⟩

theorem expands_exec (hi : i.isLast = false) (hx : (s.setCode p c).exec cf p i = some s') :
    Expands s s' p i c := by
  cases i with
  | bget b =>
    obtain ⟨-, hx⟩ := Option.ite_none_right_eq_some.mp hx
    cases hx
    exact (frame_bget _ p b).expands id
  | acquire b =>
    obtain ⟨x, -, -, hx⟩ := withHold_eq_some.mp hx
    exact (frame_acquire hx).expands id
  | release b =>
    obtain ⟨x, -, -, hx⟩ := withHold_eq_some.mp hx
    cases hx
    exact (frame_release _ x).expands id
  | brelse b =>
    obtain ⟨x, -, -, hx⟩ := withHold_eq_some.mp hx
    cases hx
    exact (frame_drop _ x).expands id
  | copyWrite src dst =>
    obtain ⟨x, -, -, hx⟩ := withHold_eq_some.mp hx
    obtain ⟨y, -, -, hx⟩ := withHold_eq_some.mp hx
    cases hx
    exact (frame_bwrite _ y _).expands id
  | loadHead =>
    obtain ⟨x, -, -, hx⟩ := withHold_eq_some.mp hx
    cases hx
    exact ⟨⟨[], rfl, nofun, leavesEmpty_mono⟩, rfl, rfl, rfl, rfl, fun _ hh _ => hh, id⟩
  | storeHead =>
    obtain ⟨x, -, -, hx⟩ := withHold_eq_some.mp hx
    cases hx
    exact (frame_bwrite _ x _).expands id
  | readHead =>
    cases hx
    exact expands_push (by simp [bread, brelse, Instr.isLast]) id
  | writeHead =>
    cases hx
    exact expands_push (by simp [bread, brelse, Instr.isLast]) id
  | writeLog t =>
    simp only [exec] at hx
    split at hx <;> cases hx
    · exact expands_push (by simp [writeLogRound, bread, brelse, Instr.isLast]) id
    · exact (⟨rfl, rfl, rfl, rfl, rfl, rfl, fun _ hh _ => hh, id⟩ : Frame _ _).expands id
  | installTrans t =>
    simp only [exec] at hx
    split at hx <;> cases hx
    · exact expands_push (by simp [installRound, bread, brelse, Instr.isLast]) id
    · exact (⟨rfl, rfl, rfl, rfl, rfl, rfl, fun _ hh _ => hh, id⟩ : Frame _ _).expands id
  | clear =>
    cases hx
    exact ⟨⟨[], rfl, nofun, id⟩, rfl, rfl, rfl, rfl, fun _ hh _ => hh, id⟩
  | commit =>
    simp only [exec] at hx
    split at hx <;> cases hx
    · exact expands_push (by simp [commitBody, Instr.isLast]) id
    · next hlen =>
      have hnil : s.lh = [] := List.eq_nil_of_length_eq_zero (Nat.eq_zero_of_not_pos hlen)
      refine (⟨rfl, rfl, rfl, rfl, rfl, rfl, fun _ hh _ => hh, id⟩ : Frame _ _).expands ?_
      rw [hnil]
      exact id
  | endCommit => cases hi
  | initDone => cases hi

end

/-! ### The invariant -/

/-- The blocks that the running operations may still add to the transaction, at nine each. -/
def reserved (u : Pid → Finset ℕ) (s : State) : ℕ :=
  (s.ops.map fun p => 9 - ((u p).filter (· ∈ s.lh)).card).sum

/-- Operations that pass at most nine blocks to `log_write` have room for them. -/
structure Room (u : Pid → Finset ℕ) (s : State) : Prop where
  outstanding : s.outstanding = s.ops.length
  nodup_ops : s.ops.Nodup
  checked : ∀ h ∈ s.holds, h.phase = .checked → h.pid ∈ s.ops ∧ h.block ∈ u h.pid
  panic : s.panic ≠ some .tooBig
  thread : (Idle s ∧ (s.ops = [] → s.lh = []) ∧ s.lh.length + reserved u s ≤ 28) ∨
    ∃ p fin, Closing s p fin

section

variable {cf : Conf} {u u' : Pid → Finset ℕ} {s s' : State} {p : Pid} {b : ℕ}

theorem reserved_le (u : Pid → Finset ℕ) (s : State) : reserved u s ≤ s.ops.length * 9 := by
  have := List.sum_le_card_nsmul (s.ops.map fun p => 9 - ((u p).filter (· ∈ s.lh)).card) 9
    (by simp)
  simpa [reserved] using this

theorem reserved_mono (hops : s'.ops = s.ops)
    (hle : ∀ p ∈ s.ops, ((u p).filter (· ∈ s.lh)).card ≤ ((u' p).filter (· ∈ s'.lh)).card) :
    reserved u' s' ≤ reserved u s := by
  unfold reserved
  rw [hops]
  refine List.sum_le_sum fun p hp => ?_
  have := hle p hp
  omega

theorem Room.idle_of_mem_ops (hr : Room u s) (hp : p ∈ s.ops) :
    Idle s ∧ s.lh.length + reserved u s ≤ 28 := by
  rcases hr.thread with ⟨hidle, -, hle⟩ | ⟨q, fin, hc⟩
  · exact ⟨hidle, hle⟩
  · rw [hc.ops] at hp
    cases hp

theorem Room.boot (u : Pid → Finset ℕ) (d : Disk) : Room u (boot d) where
  outstanding := rfl
  nodup_ops := List.nodup_nil
  checked := nofun
  panic := nofun
  thread := Or.inr ⟨initPid, .initDone, fun _ hq => if_neg hq,
    ⟨[.readHead, .installTrans 0, .clear, .writeHead], rfl, by simp [Instr.isLast]⟩, rfl, rfl,
    Or.inr ⟨rfl, rfl, rfl⟩⟩

theorem Room.frame (hr : Room u s) (hf : Frame s s') : Room u s' where
  outstanding := by rw [hf.outstanding, hf.ops]; exact hr.outstanding
  nodup_ops := by rw [hf.ops]; exact hr.nodup_ops
  checked h hh hc := by rw [hf.ops]; exact hr.checked h (hf.checked h hh hc) hc
  panic hp := hr.panic (hf.panic hp)
  thread := by
    rcases hr.thread with ⟨hidle, hnil, hle⟩ | ⟨p, fin, hc⟩
    · refine Or.inl ⟨⟨by rw [hf.code]; exact hidle.code, hf.up.trans hidle.up,
        hf.committing.trans hidle.committing⟩, by rw [hf.ops, hf.lh]; exact hnil, ?_⟩
      rw [reserved, hf.ops, hf.lh]
      exact hle
    · refine Or.inr ⟨p, fin, by rw [hf.code]; exact hc.others, by rw [hf.code]; exact hc.code,
        by rw [hf.code, hf.lh]; exact hc.tidy, hf.ops.trans hc.ops, ?_⟩
      rw [hf.committing, hf.up]
      exact hc.kind

/-- A process may have passed a block to `log_write` that is not in the transaction yet. -/
theorem Room.ask (hr : Room u s) (hu : ∀ p, u p ⊆ u' p) : Room u' s where
  outstanding := hr.outstanding
  nodup_ops := hr.nodup_ops
  checked h hh hc := ⟨(hr.checked h hh hc).1, hu _ (hr.checked h hh hc).2⟩
  panic := hr.panic
  thread := by
    refine hr.thread.imp_left fun ⟨hidle, hnil, hle⟩ => ⟨hidle, hnil, ?_⟩
    have : reserved u' s ≤ reserved u s := reserved_mono rfl fun p _ =>
      Finset.card_le_card (Finset.filter_subset_filter _ (hu p))
    omega

/-! ### The steps -/

/-- `begin_op` leaves room for one more operation. -/
theorem Room.beginOp (hr : Room u s) (hup : s.up = true) (hp : p ∉ s.ops)
    (hcomm : s.committing = false)
    (hspace : s.lh.length + (s.outstanding + 1) * MAXOPBLOCKS ≤ LOGSIZE) :
    Room (Function.update u p ∅)
      { s with outstanding := s.outstanding + 1, ops := p :: s.ops } := by
  rcases hr.thread with ⟨hidle, hnil, hle⟩ | ⟨q, fin, hc⟩
  · refine ⟨?_, List.nodup_cons.mpr ⟨hp, hr.nodup_ops⟩, fun h hh hc => ?_, hr.panic,
      Or.inl ⟨⟨hidle.code, hidle.up, hidle.committing⟩, nofun, ?_⟩⟩
    · rw [List.length_cons, hr.outstanding]
    · obtain ⟨hmem, hb⟩ := hr.checked h hh hc
      have hne : h.pid ≠ p := fun heq => hp (heq ▸ hmem)
      exact ⟨List.mem_cons_of_mem _ hmem, by rwa [Function.update_of_ne hne]⟩
    · have hres : reserved (Function.update u p ∅)
          { s with outstanding := s.outstanding + 1, ops := p :: s.ops } = 9 + reserved u s := by
        unfold reserved
        rw [List.map_cons, List.sum_cons, Function.update_self]
        congr 2
        refine List.map_congr_left fun q hq => ?_
        have hne : q ≠ p := fun heq => hp (heq ▸ hq)
        rw [Function.update_of_ne hne]
      have hbound := reserved_le u s
      rw [hr.outstanding, LOGSIZE_eq, MAXOPBLOCKS] at hspace
      -- a first operation starts with an empty transaction, and a fourth is not let in
      have hfirst : s.ops.length = 0 → s.lh.length = 0 := fun h0 => by
        rw [hnil (List.eq_nil_of_length_eq_zero h0), List.length_nil]
      rw [hres]
      change s.lh.length + _ ≤ 28
      omega
  · rcases hc.kind with ⟨-, h, -⟩ | ⟨-, -, h⟩
    · rw [hcomm] at h; cases h
    · rw [hup] at h; cases h

theorem reserved_erase (u : Pid → Finset ℕ) (s : State) (hp : p ∈ s.ops) (n : ℕ) :
    reserved u { s with outstanding := n, ops := s.ops.erase p } ≤ reserved u s := by
  unfold reserved
  rw [((List.perm_cons_erase hp).map _).sum_eq, List.map_cons, List.sum_cons]
  exact Nat.le_add_left _ _

/-- `end_op`. -/
theorem Room.endOp (hr : Room u s) (hp : p ∈ s.ops) (hholds : ∀ h ∈ s.holds, h.pid ≠ p)
    (hx : (if s.outstanding - 1 = 0 then
      some ({ s with
        outstanding := s.outstanding - 1, ops := s.ops.erase p, committing := true }.push
        p [.commit, .endCommit])
      else some { s with outstanding := s.outstanding - 1, ops := s.ops.erase p }) = some s') :
    Room u s' := by
  obtain ⟨hidle, hle⟩ := hr.idle_of_mem_ops hp
  have hout : s.outstanding - 1 = (s.ops.erase p).length := by
    rw [List.length_erase_of_mem hp, hr.outstanding]
  have hchecked : ∀ h ∈ s.holds, h.phase = .checked → h.pid ∈ s.ops.erase p ∧
      h.block ∈ u h.pid := by
    intro h hh hc
    obtain ⟨hmem, hb⟩ := hr.checked h hh hc
    exact ⟨(List.mem_erase_of_ne (hholds h hh)).mpr hmem, hb⟩
  have hnd : (s.ops.erase p).Nodup := hr.nodup_ops.erase p
  split at hx
  · next hzero =>
    cases hx
    refine ⟨hout, hnd, hchecked, hr.panic, Or.inr ⟨p, .endCommit, fun q hq => ?_,
      ⟨[.commit], ?_, by simp [Instr.isLast]⟩, ?_, List.eq_nil_of_length_eq_zero (hout ▸ hzero),
      Or.inl ⟨rfl, rfl, hidle.up⟩⟩⟩
    · simp [push, setCode, hq, hidle.code]
    · simp [push, setCode, hidle.code]
    · simp [push, setCode, hidle.code, leavesEmpty]
  · next hpos =>
    cases hx
    refine ⟨hout, hnd, hchecked, hr.panic,
      Or.inl ⟨⟨hidle.code, hidle.up, hidle.committing⟩, fun hnil => ?_, ?_⟩⟩
    · exact absurd (hout.trans (List.length_eq_zero_iff.mpr hnil)) hpos
    · have := reserved_erase u s hp (s.outstanding - 1)
      change s.lh.length + _ ≤ 28
      omega

theorem filter_subset_append (A : Finset ℕ) (l : List ℕ) (b : ℕ) :
    A.filter (· ∈ l) ⊆ A.filter (· ∈ l ++ [b]) :=
  Finset.monotone_filter_right _ fun _ _ ha => List.mem_append_left _ ha

/-- A new block takes one place, and its process has one place less to take. -/
theorem reserved_append (hops : s'.ops = s.ops) (hlh : s'.lh = s.lh ++ [b]) (hp : p ∈ s.ops)
    (hb : b ∈ u p) (hnew : b ∉ s.lh) (hu : (u p).card ≤ 9) :
    s'.lh.length + reserved u s' ≤ s.lh.length + reserved u s := by
  have hle : ∀ q, ((u q).filter (· ∈ s.lh)).card ≤ ((u q).filter (· ∈ s.lh ++ [b])).card := fun q =>
    Finset.card_le_card (filter_subset_append _ _ _)
  have hlt : ((u p).filter (· ∈ s.lh)).card < ((u p).filter (· ∈ s.lh ++ [b])).card := by
    refine Finset.card_lt_card ((Finset.ssubset_iff_of_subset
      (filter_subset_append _ _ _)).mpr ⟨b, ?_, ?_⟩)
    · simp [hb]
    · simp [hnew]
  have hres : reserved u s' < reserved u s := by
    unfold reserved
    rw [hops, hlh]
    refine List.sum_lt_sum _ _ (fun q _ => ?_) ⟨p, hp, ?_⟩
    · have := hle q
      omega
    · have := Finset.card_le_card (Finset.filter_subset (· ∈ s.lh ++ [b]) (u p))
      omega
  rw [hlh, List.length_append, List.length_singleton]
  omega

/-- `log_write` puts a block into the transaction. -/
theorem Room.logWrite {x : Hold} {k : Buf} (hr : Room u s) (hx : x ∈ s.holds)
    (hph : x.phase = .checked) (hu : ∀ p, (u p).card ≤ 9) :
    Room u ({ s.setBuf x.buf k with
      lh := if x.block ∈ s.lh then s.lh else s.lh ++ [x.block] }.setPhase x .held) := by
  obtain ⟨hp, hb⟩ := hr.checked x hx hph
  obtain ⟨hidle, hle⟩ := hr.idle_of_mem_ops hp
  refine ⟨hr.outstanding, hr.nodup_ops, fun h hh hc => ?_, hr.panic,
    Or.inl ⟨⟨hidle.code, hidle.up, hidle.committing⟩, fun hnil => ?_, ?_⟩⟩
  · exact hr.checked h (checked_of_setPhase .held nofun hh hc) hc
  · exact absurd (show s.ops = [] from hnil) (List.ne_nil_of_mem hp)
  · by_cases hmem : x.block ∈ s.lh
    · simp only [hmem, if_true]
      exact hle
    · simp only [hmem, if_false]
      refine (reserved_append (b := x.block) ?_ ?_ hp hb hmem (hu x.pid)).trans hle <;> rfl

/-- **System calls** keep room in the log. -/
theorem Room.call {c : Call} (hr : Room u s) (hup : s.up = true)
    (hu : ∀ q, (Log.ask u (.call p c) q).card ≤ 9) (hx : s.call cf p c = some s') :
    Room (Log.ask u (.call p c)) s' := by
  cases c with
  | beginOp =>
    obtain ⟨⟨hp, hcomm, hspace⟩, hx⟩ := Option.ite_none_right_eq_some.mp hx
    cases hx
    exact hr.beginOp hup hp hcomm hspace
  | endOp =>
    obtain ⟨⟨hp, hholds⟩, hx⟩ := Option.ite_none_right_eq_some.mp hx
    dsimp only at hx
    rw [if_neg (by rw [(hr.idle_of_mem_ops hp).1.committing]; nofun)] at hx
    exact hr.endOp hp hholds hx
  | bget b =>
    obtain ⟨-, hx⟩ := Option.ite_none_right_eq_some.mp hx
    cases hx
    exact hr.frame (frame_bget s p b)
  | acquire b =>
    obtain ⟨x, -, -, hx⟩ := withHold_eq_some.mp hx
    exact hr.frame (frame_acquire hx)
  | modify b data =>
    obtain ⟨-, hx⟩ := Option.ite_none_right_eq_some.mp hx
    obtain ⟨x, -, -, hx⟩ := withHold_eq_some.mp hx
    cases hx
    exact hr.frame (frame_update s _ nofun)
  | logCheck b =>
    obtain ⟨hp, hx⟩ := Option.ite_none_right_eq_some.mp hx
    obtain ⟨x, hh, -, hk⟩ := withHold_eq_some.mp hx
    obtain ⟨hm, rfl, rfl⟩ := mem_of_hold hh
    have hr' : Room (Function.update u x.pid (insert x.block (u x.pid))) s := by
      refine hr.ask fun q => ?_
      by_cases hq : q = x.pid
      · rw [hq, Function.update_self]
        exact Finset.subset_insert _ _
      · rw [Function.update_of_ne hq]
    have hle := (hr.idle_of_mem_ops hp).2
    have hsize := cf.size_ge
    rw [LOGSIZE_eq] at hsize
    -- at most 28 blocks are in the transaction
    rw [if_neg (by rw [LOGSIZE_eq]; omega)] at hk
    split at hk <;> cases hk
    · exact hr'.frame (frame_fail s nofun)
    · obtain ⟨hidle, hle'⟩ := hr'.idle_of_mem_ops hp
      refine ⟨hr'.outstanding, hr'.nodup_ops, fun h hh' hc => ?_, hr'.panic,
        Or.inl ⟨⟨hidle.code, hidle.up, hidle.committing⟩, fun hnil => ?_, hle'⟩⟩
      swap
      · exact absurd (show s.ops = [] from hnil) (List.ne_nil_of_mem hp)
      rcases (mem_setPhase hm).mp hh' with rfl | ⟨hh', -⟩
      · exact ⟨hp, by simp [Log.ask]⟩
      · exact hr'.checked h hh' hc
  | logWrite b =>
    obtain ⟨x, hh, hp, hx⟩ := withHold_eq_some.mp hx
    cases hx
    obtain ⟨hm, rfl, rfl⟩ := mem_of_hold hh
    exact hr.logWrite hm (List.mem_singleton.mp hp) hu
  | release b =>
    obtain ⟨x, -, -, hx⟩ := withHold_eq_some.mp hx
    cases hx
    exact hr.frame (frame_release s x)
  | brelse b =>
    obtain ⟨x, -, -, hx⟩ := withHold_eq_some.mp hx
    cases hx
    exact hr.frame (frame_drop s x)

/-- The last instruction of a commit or of the recovery. -/
theorem Room.finish {fin : Instr} (hr : Room u s) (hc : Closing s p fin) (hcode : s.code p = [fin])
    (hx : (s.setCode p []).exec cf p fin = some s') : Room u s' := by
  have hnil : s.lh = [] := by
    have := hc.tidy
    rw [hcode] at this
    rcases hc.kind with ⟨rfl, -⟩ | ⟨rfl, -⟩ <;> simpa [leavesEmpty] using this
  have hidle : ∀ q, (s.setCode p []).code q = [] := by
    intro q
    by_cases hq : q = p
    · simp [setCode, hq]
    · simpa [setCode, hq] using hc.others q hq
  have hres : reserved u s = 0 := by simp [reserved, hc.ops]
  have hroom : s.lh.length + reserved u s ≤ 28 := by simp [hnil, hres]
  rcases hc.kind with ⟨rfl, -, hup⟩ | ⟨rfl, hcomm, -⟩ <;> cases hx
  · exact ⟨hr.outstanding, hr.nodup_ops, hr.checked, hr.panic,
      Or.inl ⟨⟨hidle, hup, rfl⟩, fun _ => hnil, hroom⟩⟩
  · exact ⟨hr.outstanding, hr.nodup_ops, hr.checked, hr.panic,
      Or.inl ⟨⟨hidle, rfl, hcomm⟩, fun _ => hnil, hroom⟩⟩

/-- `commit` and `recover_from_log` keep room in the log. -/
theorem Room.kernel {i : Instr} {c : List Instr} (hr : Room u s) (hcode : s.code p = i :: c)
    (hx : (s.setCode p c).exec cf p i = some s') : Room u s' := by
  rcases hr.thread with ⟨hidle, -⟩ | ⟨q, fin, hc⟩
  · rw [hidle.code] at hcode
    cases hcode
  obtain rfl : p = q := by
    by_contra hne
    rw [hc.others p hne] at hcode
    cases hcode
  obtain ⟨c₀, hc₀, hinner⟩ := hc.code
  cases c₀ with
  | nil =>
    rw [hcode, List.nil_append, List.cons.injEq] at hc₀
    obtain ⟨rfl, rfl⟩ := hc₀
    exact hr.finish hc hcode hx
  | cons j c₁ =>
    rw [hcode, List.cons_append, List.cons.injEq] at hc₀
    obtain ⟨rfl, rfl⟩ := hc₀
    have he := expands_exec (hinner _ List.mem_cons_self) hx
    obtain ⟨is, hcode', his, htidy⟩ := he.code
    have hself : s'.code p = is ++ (c₁ ++ [fin]) := by rw [hcode', Function.update_self]
    refine ⟨by rw [he.outstanding, he.ops]; exact hr.outstanding,
      by rw [he.ops]; exact hr.nodup_ops,
      fun h hh hch => by rw [he.ops]; exact hr.checked h (he.checked h hh hch) hch,
      fun hp => hr.panic (he.panic hp), Or.inr ⟨p, fin, fun q hq => ?_, ⟨is ++ c₁, ?_, ?_⟩, ?_,
      he.ops.trans hc.ops, by rw [he.committing, he.up]; exact hc.kind⟩⟩
    · rw [hcode', Function.update_of_ne hq]
      exact hc.others q hq
    · rw [hself, List.append_assoc]
    · intro j hj
      rcases List.mem_append.mp hj with hj | hj
      · exact his j hj
      · exact hinner j (List.mem_cons_of_mem _ hj)
    · rw [hself]
      exact htidy (hcode ▸ hc.tidy)

theorem Room.step {e : Event} (hr : Room u s) (hu : ∀ q, (Log.ask u e q).card ≤ 9)
    (hx : step cf s e = some s') : Room (Log.ask u e) s' := by
  cases e with
  | call p c =>
    obtain ⟨⟨-, hup, -⟩, hx⟩ := Option.ite_none_right_eq_some.mp hx
    exact hr.call hup hu hx
  | kernel p =>
    obtain ⟨-, hx⟩ := Option.ite_none_right_eq_some.mp hx
    cases hcode : s.code p with
    | nil => simp [hcode] at hx
    | cons i c =>
      simp only [hcode] at hx
      exact hr.kernel hcode hx
  | crash =>
    cases hx
    exact Room.boot _ _

/-- **Operations of at most nine blocks have room** in every run. -/
theorem Room.of_run {d : Disk} {es : List Event} (hes : Frugal 9 es)
    (hrun : run (Log.step cf) (Log.boot d) es = some s) : Room (usage es) s := by
  refine run_induct (P := fun es t => Frugal 9 es → Room (usage es) t) hrun
    (fun _ => Room.boot _ d) (fun es e t t' ih hst hall => ?_) hes
  have hcard := hall.card_le
  rw [usage_concat] at hcard ⊢
  exact (ih hall.of_append).step hcard hst

end

/-! ### The limit -/

/-- An operation reads and logs a block. -/
def logOne (p : Pid) (b : ℕ) : List Event :=
  [.call p (.bget b), .call p (.acquire b), .call p (.logCheck b), .call p (.logWrite b),
    .call p (.release b), .call p (.brelse b)]

/-- After boot, three operations log ten blocks each; the last `log_write` is entered with 29 blocks
in the transaction. -/
def thirtyBlocks : List Event :=
  List.replicate 15 (Event.kernel initPid) ++
    ([.call 2 .beginOp, .call 3 .beginOp, .call 4 .beginOp] : List Event) ++
    (List.range 29).flatMap (fun i => logOne (2 + i / 10) (100 + i)) ++
    ([.call 4 (.bget 129), .call 4 (.acquire 129), .call 4 (.logCheck 129)] : List Event)

/-- A call of `log_write`. -/
def Event.logged : Event → Option (Pid × ℕ)
  | .call p (.logCheck b) => some (p, b)
  | _ => none

theorem mem_of_mem_usage {es : List Event} {p : Pid} {b : ℕ} (h : b ∈ usage es p) :
    (p, b) ∈ es.filterMap Event.logged := by
  induction es using List.reverseRecOn with
  | nil => cases h
  | append_singleton es e ih =>
    rw [usage_concat] at h
    rw [List.filterMap_append, List.mem_append]
    unfold ask at h
    split at h
    · next q =>
      by_cases hq : p = q
      · simp [hq] at h
      · rw [Function.update_of_ne hq] at h
        exact Or.inl (ih h)
    · next q c =>
      by_cases hq : p = q
      · subst hq
        rw [Function.update_self, Finset.mem_insert] at h
        rcases h with rfl | h
        · exact Or.inr (by simp [Event.logged])
        · exact Or.inl (ih h)
      · rw [Function.update_of_ne hq] at h
        exact Or.inl (ih h)
    · exact Or.inl (ih h)

theorem frugal_thirtyBlocks : Frugal 10 thirtyBlocks := by
  have hlogged : thirtyBlocks.filterMap Event.logged =
      (List.range 30).map fun i => (2 + i / 10, 100 + i) := by decide
  intro fs hfs p
  have hsub : usage fs p ⊆ (Finset.Ico (10 * (p - 2)) (10 * (p - 2) + 10)).image (100 + ·) := by
    intro b hb
    have := (hfs.sublist.filterMap Event.logged).subset (mem_of_mem_usage hb)
    rw [hlogged, List.mem_map] at this
    obtain ⟨i, -, hi⟩ := this
    rw [Prod.mk.injEq] at hi
    have hp : (2 + i / 10 : ℕ) = p := hi.1
    exact Finset.mem_image.mpr ⟨i, Finset.mem_Ico.mpr (by omega), hi.2⟩
  calc (usage fs p).card ≤ _ := Finset.card_le_card hsub
    _ ≤ _ := Finset.card_image_le
    _ = 10 := by rw [Nat.card_Ico]; omega

theorem panic_thirtyBlocks :
    (run (step mkfsConf) (boot fun _ => Bytes.zero _) thirtyBlocks).map State.panic =
      some (some .tooBig) := by
  decide +kernel

/-- Three operations that pass ten blocks each to `log_write`, as `MAXOPBLOCKS` allows, panic. -/
theorem tooBig_of_ten : Frugal MAXOPBLOCKS thirtyBlocks ∧
    (run (step mkfsConf) (boot fun _ => Bytes.zero _) thirtyBlocks).map State.panic =
      some (some .tooBig) :=
  ⟨frugal_thirtyBlocks, panic_thirtyBlocks⟩

/-- **Room in the log.** With the log that `mkfs` lays out, `log_write` never panics with "too big a
transaction" in the runs whose operations pass at most `m` blocks to it, exactly when `m ≤ 9`. -/
theorem no_tooBig_iff (m : ℕ) :
    (∀ (d : Disk) (es : List Event) (s : State), Frugal m es →
      run (step mkfsConf) (boot d) es = some s → s.panic ≠ some .tooBig) ↔ m ≤ 9 := by
  refine ⟨fun hall => ?_, fun hm d es s hes hrun => (Room.of_run (hes.mono hm) hrun).panic⟩
  by_contra hm
  obtain ⟨s, hrun, hs⟩ := Option.map_eq_some_iff.mp panic_thirtyBlocks
  exact hall _ _ s (frugal_thirtyBlocks.mono (by omega)) hrun hs

end Log

end Xv6
