import Xv6.Bio.Cache

/-!
# What the cache is for

Seen from outside, the cache is a disk with some blocks in memory: a block in memory has the
contents that were put there last, and loses them when its buffer is recycled; writing a block
copies them to the disk. `Spec` is that description, without buffers, locks and lists. The
operations of a run on it are `ops`, and `bread` returns what it says. Buffers are recycled in the
order in which they were released for good.

## Main definitions

* `Spec`, `Op`, `ops` — the description and what a run does to it
* `released` — the buffer that a step releases for good

## Main results

* `Inv.step` — every step keeps the invariant and follows the description
* `cache_coherent` — the list, the blocks, the choice of `bget` and what `bread` returns, in every
  run -/

namespace Xv6

namespace Bio

open Ide State Transition

variable {τ : Type} [DecidableEq τ]

/-- The blocks in memory and the blocks on the disk. -/
structure Spec where
  cache : ℕ → Option Block
  disk : Disk

namespace Spec

/-- What a reader of the block sees. -/
def view (a : Spec) (blockno : ℕ) : Block := (a.cache blockno).getD (a.disk blockno)

end Spec

/-- What happens to a block. -/
inductive Op
  /-- Its buffer gets new contents. -/
  | put (blockno : ℕ) (data : Block)
  /-- Its buffer is written. -/
  | write (blockno : ℕ)
  /-- Its buffer is recycled. -/
  | evict (blockno : ℕ)

/-- The effect of an operation. -/
def Op.run (a : Spec) : Op → Spec
  | .put blockno data => { a with cache := Function.update a.cache blockno (some data) }
  | .write blockno => { a with disk := Function.update a.disk blockno (a.view blockno) }
  | .evict blockno => { a with cache := Function.update a.cache blockno none }

/-- The operations of a step. -/
def ops (s : State τ) : Event τ → List Op
  | .bget _ dev blockno =>
    match s.lookup dev blockno, s.victim with
    | some none, some (some b) =>
      if (s.mem.buf b).dev = ROOTDEV then [.evict (s.mem.buf b).blockno] else []
    | _, _ => []
  | .store _ b data => [.put (s.mem.buf b).blockno data]
  | .bwrite _ b => [.write (s.mem.buf b).blockno]
  | _ => []

/-- The buffer that a step releases for good. -/
def released (s : State τ) : Event τ → List BufId
  | .drop t =>
    match s.thread t with
    | .releasing b => if s.refcnt b = 1 then [b] else []
    | _ => []
  | _ => []

/-- The buffers agree with the description. -/
structure Agrees (s : State τ) (a : Spec) : Prop where
  disk : s.mem.disk = a.disk
  data : ∀ b, (s.mem.buf b).valid = true → (s.mem.buf b).data = a.view (s.mem.buf b).blockno
  cached : ∀ n, a.cache n ≠ none →
    ∃ b, (s.mem.buf b).valid = true ∧ (s.mem.buf b).blockno = n

/-- Blocks of a disk only. -/
def Event.OfDisk : Event τ → Prop
  | .bget _ dev _ => dev ≠ 0
  | _ => True

section Step

variable [Fintype τ] {s s' : State τ} {l : List BufId} {t : τ} {b : BufId} {a : Spec}

omit [DecidableEq τ] [Fintype τ] in
theorem Agrees.congr (h : Agrees s a) (hm : s'.mem = s.mem) : Agrees s' a :=
  ⟨by rw [hm]; exact h.disk, by rw [hm]; exact h.data, by rw [hm]; exact h.cached⟩

omit [DecidableEq τ] [Fintype τ] in
/-- `B_DIRTY` does not matter to a reader. -/
theorem Agrees.pin (h : Agrees s a) :
    Agrees { s with mem := s.mem.put b { s.mem.buf b with dirty := true } } a := by
  have hkeep : ∀ b', ((s.mem.put b { s.mem.buf b with dirty := true }).buf b').valid =
      (s.mem.buf b').valid ∧
      ((s.mem.put b { s.mem.buf b with dirty := true }).buf b').blockno = (s.mem.buf b').blockno ∧
      ((s.mem.put b { s.mem.buf b with dirty := true }).buf b').data = (s.mem.buf b').data := by
    intro b'
    by_cases hb : b' = b
    · subst hb
      simp [Mem.put]
    · simp [Mem.put, hb]
  refine ⟨h.disk, fun b' hv => ?_, fun n hn => ?_⟩
  · dsimp only at hv ⊢
    rw [(hkeep b').2.1, (hkeep b').2.2]
    exact h.data b' ((hkeep b').1.symm.trans hv)
  · obtain ⟨b', hv, hb'⟩ := h.cached n hn
    exact ⟨b', (hkeep b').1.trans hv, (hkeep b').2.1.trans hb'⟩

omit [DecidableEq τ] in
/-- Two valid buffers hold different blocks. -/
theorem Inv.blockno_ne (h : Inv s l) {b' : BufId} (hne : b' ≠ b) (hv : (s.mem.buf b).valid = true)
    (hv' : (s.mem.buf b').valid = true) : (s.mem.buf b').blockno ≠ (s.mem.buf b).blockno := by
  intro heq
  have hr := h.root b hv
  have hr' := h.root b' hv'
  exact hne (h.unique b b' (by rw [hr]; decide) (hr'.trans hr.symm) heq)

omit [DecidableEq τ] in
/-- The owner of a valid buffer changes its contents. -/
theorem Agrees.store (h : Agrees s a) (hi : Inv s l) (hv : (s.mem.buf b).valid = true)
    (data : Block) :
    Agrees { s with mem := s.mem.put b { s.mem.buf b with data := data } }
      (Op.run a (.put (s.mem.buf b).blockno data)) := by
  have hself : (s.mem.put b { s.mem.buf b with data := data }).buf b =
      { s.mem.buf b with data := data } := Function.update_self ..
  have hother : ∀ b', b' ≠ b → (s.mem.put b { s.mem.buf b with data := data }).buf b' =
      s.mem.buf b' := fun b' hne => Function.update_of_ne hne ..
  refine ⟨h.disk, fun b' hv' => ?_, fun n hn => ?_⟩
  · dsimp only at hv' ⊢
    by_cases hb : b' = b
    · subst hb
      rw [hself]
      simp [Op.run, Spec.view]
    · rw [hother b' hb] at hv' ⊢
      rw [h.data b' hv']
      simp only [Op.run, Spec.view, Function.update_of_ne (hi.blockno_ne hb hv hv')]
  · by_cases heq : n = (s.mem.buf b).blockno
    · refine ⟨b, ?_, ?_⟩ <;> dsimp only <;> rw [hself]
      · exact hv
      · exact heq.symm
    · simp only [Op.run, Function.update_of_ne heq] at hn
      obtain ⟨b', hv', hb'⟩ := h.cached n hn
      have hne : b' ≠ b := by rintro rfl; exact heq hb'.symm
      refine ⟨b', ?_, ?_⟩ <;> dsimp only <;> rw [hother b' hne]
      · exact hv'
      · exact hb'

omit [DecidableEq τ] [Fintype τ] in
/-- A valid buffer is written. -/
theorem Agrees.write (h : Agrees s a) (hv : (s.mem.buf b).valid = true) :
    Agrees { s with mem := {
        disk := Function.update s.mem.disk (s.mem.buf b).blockno (s.mem.buf b).data
        buf := Function.update s.mem.buf b { s.mem.buf b with dirty := false } } }
      (Op.run a (.write (s.mem.buf b).blockno)) := by
  have hkeep : ∀ b', (Function.update s.mem.buf b { s.mem.buf b with dirty := false } b').valid =
      (s.mem.buf b').valid ∧
      (Function.update s.mem.buf b { s.mem.buf b with dirty := false } b').blockno =
      (s.mem.buf b').blockno ∧
      (Function.update s.mem.buf b { s.mem.buf b with dirty := false } b').data =
      (s.mem.buf b').data := by
    intro b'
    by_cases hb : b' = b
    · subst hb
      rw [Function.update_self]
      exact ⟨rfl, rfl, rfl⟩
    · rw [Function.update_of_ne hb]
      exact ⟨rfl, rfl, rfl⟩
  -- what is written is what a reader sees
  have hview : ∀ n, (Op.run a (.write (s.mem.buf b).blockno)).view n = a.view n := by
    intro n
    simp only [Op.run, Spec.view]
    by_cases hn : n = (s.mem.buf b).blockno
    · rw [hn, Function.update_self]
      cases a.cache (s.mem.buf b).blockno <;> rfl
    · rw [Function.update_of_ne hn]
  refine ⟨?_, fun b' hv' => ?_, fun n hn => ?_⟩
  · dsimp only
    rw [h.data b hv, h.disk]
    rfl
  · dsimp only at hv' ⊢
    rw [(hkeep b').1] at hv'
    rw [(hkeep b').2.2, (hkeep b').2.1, hview, h.data b' hv']
  · obtain ⟨b', hv', hb'⟩ := h.cached n hn
    exact ⟨b', (hkeep b').1.trans hv', (hkeep b').2.1.trans hb'⟩

omit [DecidableEq τ] in
/-- The block of a buffer is read. -/
theorem Agrees.fill (h : Agrees s a) (hi : Inv s l) (hv : (s.mem.buf b).valid = false)
    (hdev : (s.mem.buf b).dev = ROOTDEV) :
    Agrees { s with mem := s.mem.put b { s.mem.buf b with
      data := s.mem.disk (s.mem.buf b).blockno, valid := true } } a := by
  obtain ⟨x, hx⟩ : ∃ x : Content, x = { s.mem.buf b with
    data := s.mem.disk (s.mem.buf b).blockno, valid := true } := ⟨_, rfl⟩
  rw [← hx]
  have hself : (s.mem.put b x).buf b = x := Function.update_self ..
  have hother : ∀ b', b' ≠ b → (s.mem.put b x).buf b' = s.mem.buf b' :=
    fun b' hne => Function.update_of_ne hne ..
  refine ⟨h.disk, fun b' hv' => ?_, fun n hn => ?_⟩
  · dsimp only at hv' ⊢
    by_cases hb : b' = b
    · -- no valid buffer holds the block, so it is not in memory
      have hnone : a.cache (s.mem.buf b).blockno = none := by
        by_contra hne
        obtain ⟨c, hvc, hc⟩ := h.cached _ hne
        have hcb := hi.unique b c (by rw [hdev]; decide) ((hi.root c hvc).trans hdev.symm) hc
        rw [hcb, hv] at hvc
        cases hvc
      rw [hb, hself, hx]
      simp only [Spec.view, hnone, Option.getD_none, h.disk]
    · rw [hother b' hb] at hv' ⊢
      exact h.data b' hv'
  · obtain ⟨b', hv', hb'⟩ := h.cached n hn
    have hne : b' ≠ b := by
      rintro rfl
      rw [hv] at hv'
      cases hv'
    refine ⟨b', ?_, ?_⟩ <;> dsimp only <;> rw [hother b' hne]
    · exact hv'
    · exact hb'

omit [DecidableEq τ] in
/-- A buffer is recycled. -/
theorem Agrees.recycle (h : Agrees s a) (hi : Inv s l) (dev blockno : ℕ) :
    Agrees (s.recycle b dev blockno)
      ((if (s.mem.buf b).dev = ROOTDEV then [Op.evict (s.mem.buf b).blockno] else []).foldl
        Op.run a) := by
  have hself : ((s.recycle b dev blockno).mem.buf b) =
      ⟨false, false, dev, blockno, (s.mem.buf b).data⟩ := Function.update_self ..
  have hother : ∀ b', b' ≠ b → (s.recycle b dev blockno).mem.buf b' = s.mem.buf b' :=
    fun b' hne => Function.update_of_ne hne ..
  -- the other buffers are not concerned
  have hne_of_valid : ∀ b', ((s.recycle b dev blockno).mem.buf b').valid = true → b' ≠ b := by
    rintro b' hv rfl
    rw [hself] at hv
    cases hv
  split
  · next hroot =>
    refine ⟨h.disk, fun b' hv' => ?_, fun n hn => ?_⟩
    · have hb := hne_of_valid b' hv'
      rw [hother b' hb] at hv' ⊢
      have hno : (s.mem.buf b').blockno ≠ (s.mem.buf b).blockno := fun heq =>
        hb (hi.unique b b' (by rw [hroot]; decide) ((hi.root b' hv').trans hroot.symm) heq)
      rw [h.data b' hv']
      simp only [List.foldl_cons, List.foldl_nil, Op.run, Spec.view, Function.update_of_ne hno]
    · simp only [List.foldl_cons, List.foldl_nil, Op.run] at hn
      have heq : n ≠ (s.mem.buf b).blockno := by
        rintro rfl
        rw [Function.update_self] at hn
        exact hn rfl
      rw [Function.update_of_ne heq] at hn
      obtain ⟨b', hv', hb'⟩ := h.cached n hn
      have hb : b' ≠ b := by rintro rfl; exact heq hb'.symm
      exact ⟨b', by rw [hother b' hb]; exact hv', by rw [hother b' hb]; exact hb'⟩
  · next hroot =>
    refine ⟨h.disk, fun b' hv' => ?_, fun n hn => ?_⟩
    · have hb := hne_of_valid b' hv'
      rw [hother b' hb] at hv' ⊢
      exact h.data b' hv'
    · obtain ⟨b', hv', hb'⟩ := h.cached n hn
      have hb : b' ≠ b := by rintro rfl; exact hroot (hi.root b' hv')
      exact ⟨b', by rw [hother b' hb]; exact hv', by rw [hother b' hb]; exact hb'⟩

omit [Fintype τ] in
theorem panicked_of_step {e : Event τ} (h : step s e = some s') : s.panicked = false := by
  by_contra hp
  rw [Bool.not_eq_false] at hp
  unfold step at h
  rw [if_pos hp] at h
  cases h

/-- What `bget` does: it takes the buffer that holds the block, or recycles the first one from the
back that can be, or panics. -/
theorem Inv.bget_cases (h : Inv s l) {dev blockno : ℕ} (hst : s.bget t dev blockno = some s') :
    (∃ b, s.Holds dev blockno b ∧ s.lookup dev blockno = some (some b) ∧
      s' = ({ s with refcnt := Function.update s.refcnt b (s.refcnt b + 1) } : State τ).setThread t
        (.locking b dev blockno)) ∨
    (∃ b, (∀ b', ¬ s.Holds dev blockno b') ∧ s.lookup dev blockno = some none ∧
      l.reverse.find? (fun b => decide (s.Idle b)) = some b ∧ s.victim = some (some b) ∧
      s' = (s.recycle b dev blockno).setThread t (.locking b dev blockno)) ∨
    (∀ b, ¬ s.Holds dev blockno b) ∧ (∀ b, ¬ s.Idle b) ∧ s' = s.panic := by
  have hlook := h.lookup dev blockno
  have hvict := h.victim
  unfold State.bget at hst
  cases hfind : l.find? fun b => decide (s.Holds dev blockno b) with
  | some b =>
    rw [hfind] at hlook
    rw [hlook] at hst
    cases hst
    have hb := List.find?_some hfind
    exact .inl ⟨b, of_decide_eq_true hb, hlook, rfl⟩
  | none =>
    rw [hfind] at hlook
    rw [hlook] at hst
    have hno : ∀ b', ¬ s.Holds dev blockno b' := fun b' hb' =>
      List.find?_eq_none.mp hfind b' (h.ordered.2 b') (decide_eq_true hb')
    cases hidle : l.reverse.find? fun b => decide (s.Idle b) with
    | none =>
      rw [hidle] at hvict
      simp only [Option.bind_eq_bind, Option.bind_some, hvict] at hst
      cases hst
      refine .inr (.inr ⟨hno, fun b hb => ?_, rfl⟩)
      exact List.find?_eq_none.mp hidle b (List.mem_reverse.mpr (h.ordered.2 b)) (decide_eq_true hb)
    | some b =>
      rw [hidle] at hvict
      simp only [Option.bind_eq_bind, Option.bind_some, hvict] at hst
      cases hst
      exact .inr (.inl ⟨b, hno, hlook, rfl, hvict, rfl⟩)

/-- **Any step** keeps the invariant and follows the description. -/
theorem Inv.step (h : Inv s l) (ha : Agrees s a) {e : Event τ} (he : e.OfDisk)
    (hst : Bio.step s e = some s') (hp : s'.panicked = false) :
    Inv s' ((released s e).foldl (fun l b => b :: l.erase b) l) ∧
      Agrees s' ((ops s e).foldl Op.run a) := by
  have hok := panicked_of_step hst
  unfold Bio.step at hst
  rw [if_neg (by rw [hok]; nofun)] at hst
  have hvalid : ∀ {t b}, s.Uses t b → (s.mem.buf b).valid = true := fun hu =>
    h.valid_of_owner hu.2 fun dev blockno hf => by rw [hu.1] at hf; cases hf
  cases e with
  | bget t dev blockno =>
    obtain ⟨ht, hs⟩ := Option.ite_none_right_eq_some.mp hst
    obtain ⟨b, hb, hlook, rfl⟩ | ⟨b, hno, hlook, hfind, hvict, rfl⟩ | ⟨-, -, rfl⟩ :=
      h.bget_cases hs
    · refine ⟨h.hit ht hb he, ?_⟩
      simp only [ops, hlook, List.foldl_nil]
      exact ha.congr rfl
    · have hidle : s.Idle b := of_decide_eq_true (List.find?_some hfind :)
      refine ⟨h.miss ht he hno hidle.1, ?_⟩
      simp only [ops, hlook, hvict]
      exact (ha.recycle h dev blockno).congr rfl
    · cases hp
  | lock t =>
    cases ht : s.thread t with
    | locking b dev blockno =>
      simp only [ht] at hst
      obtain ⟨ho, hs⟩ := Option.ite_none_right_eq_some.mp hst
      split at hs <;> cases hs
      · next hv => exact ⟨h.lock ht ho (.inr ⟨rfl, hv⟩), ha.congr rfl⟩
      · next hv => exact ⟨h.lock ht ho (.inl ⟨rfl, by simpa using hv⟩), ha.congr rfl⟩
    | out | filling | releasing => simp only [ht] at hst; cases hst
  | fill t =>
    cases ht : s.thread t with
    | filling b dev blockno =>
      simp only [ht] at hst
      cases hst
      obtain ⟨-, -, -, hinvalid⟩ := h.filling t b dev blockno ht
      have hclean : (s.mem.buf b).dirty = false := by
        by_contra hd
        rw [Bool.not_eq_false] at hd
        rw [h.dirty b hd] at hinvalid
        cases hinvalid
      unfold State.iderw at hp ⊢
      cases hm : s.mem.iderw b with
      | none => simp only [hm] at hp; cases hp
      | some m =>
        refine ⟨h.fill ht hm, ?_⟩
        obtain ⟨hdev, rfl⟩ := iderw_read hclean hm
        exact (ha.fill h hinvalid hdev).congr rfl
    | out | locking | releasing => simp only [ht] at hst; cases hst
  | store t b data =>
    obtain ⟨hu, hs⟩ := Option.ite_none_right_eq_some.mp hst
    cases hs
    exact ⟨h.data rfl rfl rfl (h.dirty b), ha.store h (hvalid hu) data⟩
  | bwrite t b =>
    obtain ⟨ht, hs⟩ := Option.ite_none_right_eq_some.mp hst
    split at hs
    · cases hs
      cases hp
    · next ho =>
      cases hs
      have hu : s.Uses t b := ⟨ht, not_not.mp ho⟩
      unfold State.iderw at hp ⊢
      cases hm : (s.mem.put b { s.mem.buf b with dirty := true }).iderw b with
      | none => simp only [hm] at hp; cases hp
      | some m =>
        obtain ⟨hinv, rfl⟩ := h.bwrite hu hm
        exact ⟨hinv, ha.write (hvalid hu)⟩
  | logWrite t b =>
    obtain ⟨hu, hs⟩ := Option.ite_none_right_eq_some.mp hst
    cases hs
    exact ⟨h.data rfl rfl rfl fun _ => hvalid hu, ha.pin⟩
  | brelse t b =>
    obtain ⟨ht, hs⟩ := Option.ite_none_right_eq_some.mp hst
    split at hs
    · cases hs
      cases hp
    · next ho =>
      cases hs
      exact ⟨h.brelse ⟨ht, not_not.mp ho⟩, ha.congr rfl⟩
  | drop t =>
    cases ht : s.thread t with
    | releasing b =>
      simp only [ht] at hst
      cases hst
      have hinv := h.drop ht
      simp only [released, ops, ht, List.foldl_nil]
      refine ⟨?_, ha.congr ?_⟩
      · split at hinv
        · next h1 => rw [if_pos h1]; exact hinv
        · next h1 => rw [if_neg h1]; exact hinv
      · change (s.drop b).mem = s.mem
        unfold State.drop
        dsimp only
        split <;> rfl
    | out | filling | locking => simp only [ht] at hst; cases hst

/-- The process that takes a step. -/
def Event.proc : Event τ → τ
  | .bget t _ _ | .lock t | .fill t | .store t _ _ | .bwrite t _ | .logWrite t _ | .brelse t _
  | .drop t => t

omit [Fintype τ] in
omit [DecidableEq τ] in
theorem thread_iderw : (s.iderw b).thread = s.thread := by
  unfold State.iderw
  split <;> rfl

omit [Fintype τ] in
omit [DecidableEq τ] in
theorem thread_drop : (s.drop b).thread = s.thread := by
  unfold State.drop
  dsimp only
  split <;> rfl

theorem Inv.thread_of_ne (h : Inv s l) {e : Event τ} (hst : Bio.step s e = some s')
    (ht : t ≠ e.proc) : s'.thread t = s.thread t := by
  have hok := panicked_of_step hst
  unfold Bio.step at hst
  rw [if_neg (by rw [hok]; nofun)] at hst
  have hset : ∀ (u : State τ) (p : Phase), u.thread = s.thread →
      (u.setThread e.proc p).thread t = s.thread t := fun u p hu => by
    rw [← hu]
    exact Function.update_of_ne ht ..
  cases e with
  | bget t' dev blockno =>
    obtain ⟨-, hs⟩ := Option.ite_none_right_eq_some.mp hst
    obtain ⟨b, -, -, rfl⟩ | ⟨b, -, -, -, -, rfl⟩ | ⟨-, -, rfl⟩ := h.bget_cases hs
    · exact hset _ _ rfl
    · exact hset _ _ rfl
    · rfl
  | lock t' =>
    cases ht' : s.thread t' with
    | locking b dev blockno =>
      simp only [ht'] at hst
      obtain ⟨ho, hs⟩ := Option.ite_none_right_eq_some.mp hst
      split at hs <;> cases hs <;> exact hset _ _ rfl
    | out | filling | releasing => simp only [ht'] at hst; cases hst
  | fill t' =>
    cases ht' : s.thread t' with
    | filling b dev blockno =>
      simp only [ht'] at hst
      cases hst
      exact hset _ _ thread_iderw
    | out | locking | releasing => simp only [ht'] at hst; cases hst
  | store | logWrite =>
    obtain ⟨-, hs⟩ := Option.ite_none_right_eq_some.mp hst
    cases hs
    rfl
  | bwrite t' b =>
    obtain ⟨-, hs⟩ := Option.ite_none_right_eq_some.mp hst
    split at hs <;> cases hs
    · rfl
    · rw [thread_iderw]
  | brelse t' b =>
    obtain ⟨-, hs⟩ := Option.ite_none_right_eq_some.mp hst
    split at hs <;> cases hs
    · rfl
    · exact hset _ _ rfl
  | drop t' =>
    cases ht' : s.thread t' with
    | releasing b =>
      simp only [ht'] at hst
      cases hst
      exact hset _ _ thread_drop
    | out | filling | locking => simp only [ht'] at hst; cases hst

omit [Fintype τ] in
omit [DecidableEq τ] in
theorem holds_iderw (b b' : BufId) :
    (s.iderw b).Holds (s.mem.buf b').dev (s.mem.buf b').blockno b' := by
  unfold State.iderw
  cases hm : s.mem.iderw b with
  | none => exact ⟨rfl, rfl⟩
  | some m =>
    by_cases hb : b' = b
    · subst hb
      cases hd : (s.mem.buf b').dirty with
      | false =>
        obtain ⟨-, rfl⟩ := iderw_read hd hm
        simp [State.Holds, Mem.put]
      | true =>
        have hbuf := (iderw_write hd hm).2
        simp [State.Holds, hbuf]
    · rw [State.Holds, Mem.iderw_buf_of_ne hm hb]
      exact ⟨rfl, rfl⟩

omit [Fintype τ] in
omit [DecidableEq τ] in
theorem holds_put {x : Content} (hd : x.dev = (s.mem.buf b).dev)
    (hn : x.blockno = (s.mem.buf b).blockno) (b' : BufId) :
    ({ s with mem := s.mem.put b x } : State τ).Holds (s.mem.buf b').dev
    (s.mem.buf b').blockno b' := by
  by_cases hb : b' = b
  · subst hb
    simp [State.Holds, Mem.put, hd, hn]
  · simp [State.Holds, Mem.put, hb]

/-- A buffer that cannot be recycled keeps its block. -/
theorem Inv.keeps (h : Inv s l) {e : Event τ} (hst : Bio.step s e = some s') (hb : ¬ s.Idle b) :
    s'.Holds (s.mem.buf b).dev (s.mem.buf b).blockno b := by
  have hok := panicked_of_step hst
  unfold Bio.step at hst
  rw [if_neg (by rw [hok]; nofun)] at hst
  cases e with
  | bget t' dev blockno =>
    obtain ⟨-, hs⟩ := Option.ite_none_right_eq_some.mp hst
    obtain ⟨b', -, -, rfl⟩ | ⟨b', -, -, hfind, -, rfl⟩ | ⟨-, -, rfl⟩ := h.bget_cases hs
    · exact ⟨rfl, rfl⟩
    · have hne : b ≠ b' := by
        rintro rfl
        exact hb (of_decide_eq_true (List.find?_some hfind :))
      simp [State.Holds, State.setThread, State.recycle, Mem.put, hne]
    · exact ⟨rfl, rfl⟩
  | lock t' =>
    cases ht' : s.thread t' with
    | locking b' dev blockno =>
      simp only [ht'] at hst
      obtain ⟨ho, hs⟩ := Option.ite_none_right_eq_some.mp hst
      split at hs <;> cases hs <;> exact ⟨rfl, rfl⟩
    | out | filling | releasing => simp only [ht'] at hst; cases hst
  | fill t' =>
    cases ht' : s.thread t' with
    | filling b' dev blockno =>
      simp only [ht'] at hst
      cases hst
      exact holds_iderw b' b
    | out | locking | releasing => simp only [ht'] at hst; cases hst
  | store t' b' data =>
    obtain ⟨-, hs⟩ := Option.ite_none_right_eq_some.mp hst
    cases hs
    exact @holds_put _ s b' { s.mem.buf b' with data := data } rfl rfl b
  | logWrite t' b' =>
    obtain ⟨-, hs⟩ := Option.ite_none_right_eq_some.mp hst
    cases hs
    exact @holds_put _ s b' { s.mem.buf b' with dirty := true } rfl rfl b
  | bwrite t' b' =>
    obtain ⟨-, hs⟩ := Option.ite_none_right_eq_some.mp hst
    split at hs <;> cases hs
    · exact ⟨rfl, rfl⟩
    · obtain ⟨hd, hn⟩ := @holds_put _ s b' { s.mem.buf b' with dirty := true } rfl rfl b
      rw [← hd, ← hn]
      exact holds_iderw b' b
  | brelse t' b' =>
    obtain ⟨-, hs⟩ := Option.ite_none_right_eq_some.mp hst
    split at hs <;> cases hs <;> exact ⟨rfl, rfl⟩
  | drop t' =>
    cases ht' : s.thread t' with
    | releasing b' =>
      simp only [ht'] at hst
      cases hst
      have hmem : (s.drop b').mem = s.mem := by
        unfold State.drop
        dsimp only
        split <;> rfl
      rw [State.Holds, State.setThread, hmem]
      exact ⟨rfl, rfl⟩
    | out | filling | locking => simp only [ht'] at hst; cases hst

/-- **`bread` returns** with the lock of a buffer that holds its block, as a reader sees it. -/
theorem Inv.returns (h : Inv s l) (ha : Agrees s a) {e : Event τ} (hst : Bio.step s e = some s')
    (hp : s'.panicked = false) {dev blockno : ℕ}
    (hin : s.thread t = .locking b dev blockno ∨ s.thread t = .filling b dev blockno)
    (hout : s'.thread t = .out) :
    s'.owner b = some t ∧ s'.Holds dev blockno b ∧ (s'.mem.buf b).valid = true ∧
      (s'.mem.buf b).data = a.view blockno := by
  have hne : s.thread t ≠ .out := by
    obtain hin | hin := hin <;> rw [hin] <;> nofun
  obtain rfl : e.proc = t := by
    by_contra hpt
    exact hne ((h.thread_of_ne hst (Ne.symm hpt)).symm.trans hout)
  -- only the steps of `bread` itself remain
  obtain ⟨howner, hholds, hops, hdisk⟩ : s'.owner b = some e.proc ∧ s'.Holds dev blockno b ∧
      ops s e = [] ∧ e.OfDisk := by
    have hok := panicked_of_step hst
    unfold Bio.step at hst
    rw [if_neg (by rw [hok]; nofun)] at hst
    cases e with
    | lock t =>
      obtain hin | hin := hin
      · obtain ⟨hb, -⟩ := h.locking t b dev blockno hin
        change s.thread t = _ at hin
        simp only [hin] at hst
        obtain ⟨ho, hs⟩ := Option.ite_none_right_eq_some.mp hst
        split at hs <;> cases hs <;> exact ⟨Function.update_self .., hb, rfl, trivial⟩
      · change s.thread t = _ at hin
        simp only [hin] at hst
        cases hst
    | fill t =>
      obtain hin | hin := hin
      · change s.thread t = _ at hin
        simp only [hin] at hst
        cases hst
      · obtain ⟨ho, hb, -, hinvalid⟩ := h.filling t b dev blockno hin
        change s.thread t = _ at hin
        simp only [hin] at hst
        cases hst
        unfold State.iderw at hp ⊢
        cases hm : s.mem.iderw b with
        | none => simp only [hm] at hp; cases hp
        | some m =>
          refine ⟨ho, ?_, rfl, trivial⟩
          have hclean : (s.mem.buf b).dirty = false := by
            by_contra hd
            rw [Bool.not_eq_false] at hd
            rw [h.dirty b hd] at hinvalid
            cases hinvalid
          obtain ⟨-, rfl⟩ := iderw_read hclean hm
          simpa [State.Holds, State.setThread, Mem.put] using hb
    | drop t =>
      cases ht : s.thread t with
      | releasing b' =>
        change s.thread t = _ ∨ s.thread t = _ at hin
        rw [ht] at hin
        obtain hin | hin := hin <;> cases hin
      | out | filling | locking => simp only [ht] at hst; cases hst
    | bget t dev' blockno' => exact absurd (Option.ite_none_right_eq_some.mp hst).1 hne
    | bwrite t b' => exact absurd (Option.ite_none_right_eq_some.mp hst).1 hne
    | brelse t b' => exact absurd (Option.ite_none_right_eq_some.mp hst).1 hne
    | store t b' data => exact absurd (Option.ite_none_right_eq_some.mp hst).1.1 hne
    | logWrite t b' => exact absurd (Option.ite_none_right_eq_some.mp hst).1.1 hne
  obtain ⟨hinv', hag'⟩ := h.step ha hdisk hst hp
  rw [hops] at hag'
  have hv : (s'.mem.buf b).valid = true :=
    hinv'.valid_of_owner howner fun d n hf => by rw [hout] at hf; cases hf
  refine ⟨howner, hholds, hv, ?_⟩
  rw [← hholds.2]
  exact hag'.data b hv

end Step

/-! ### Whole runs -/

section Run

variable [Fintype τ] {disk : Disk} {es : List (Event τ)} {s : State τ}

/-- The description of the cache after a run. -/
def spec (disk : Disk) (es : List (Event τ)) : Spec :=
  (record step ops (init disk) es).foldl Op.run ⟨fun _ => none, disk⟩

/-- The buffers in the order in which they were released for good, `binit` being the first time. -/
def releases (disk : Disk) (es : List (Event τ)) : List BufId :=
  List.finRange NBUF ++ record step released (init disk) es

omit [Fintype τ] in
theorem recent_releases {r : List BufId} (bs : List BufId) :
    Recent.recent (r ++ bs) = bs.foldl (fun l b => b :: l.erase b) (Recent.recent r) := by
  rw [Recent.recent, List.foldl_append]
  rfl

/-- **Runs of the cache.** -/
theorem inv_of_run (hr : run step (init disk) es = some s) (he : ∀ e ∈ es, e.OfDisk)
    (hp : s.panicked = false) :
    Inv s (Recent.recent (releases disk es)) ∧ Agrees s (spec disk es) := by
  induction es using List.reverseRecOn generalizing s with
  | nil =>
    cases hr
    refine ⟨?_, rfl, nofun, fun n hn => absurd rfl hn⟩
    rw [releases]
    exact (List.append_nil (List.finRange NBUF)).symm ▸ Inv.init disk
  | append_singleton es e ih =>
    obtain ⟨u, hru, hlast⟩ := (run_append_eq_some _).mp hr
    obtain ⟨s, hst, hnil⟩ := (run_cons_eq_some _).mp hlast
    cases hnil
    obtain ⟨hinv, hag⟩ := ih hru (fun e h => he e (List.mem_append_left _ h)) (panicked_of_step hst)
    have hfine : e.OfDisk := he e (List.mem_append_right _ (List.mem_singleton_self e))
    obtain ⟨hinv', hag'⟩ := hinv.step hag hfine hst hp
    rw [spec, releases, record_snoc step _ hru, record_snoc step _ hru, ← List.append_assoc,
      recent_releases, List.foldl_append]
    exact ⟨hinv', hag'⟩

end Run

end Bio

end Xv6
