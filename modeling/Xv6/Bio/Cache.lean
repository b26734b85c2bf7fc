import Xv6.Bio.Machine
import Xv6.Lib.Recent
import Xv6.Lib.Shares

/-!
# The invariant of the buffer cache

The list is a ring through all buffers, `refcnt` counts the processes between `bget` and `brelse`,
no two buffers hold the same block, and a process in `bread` has a buffer that holds the block it
asked for, which stays so because a buffer that somebody refers to is not recycled.

## Main definitions

* `Inv` — the invariant, with the buffers in the order of the list

## Main results

* `binit_ordered` — the list that `binit` builds
* `Inv.lookup`, `Inv.victim` — what the two loops of `bget` find
* `Inv.hit`, `Inv.miss`, `Inv.lock`, …, `Inv.drop` — each step keeps the invariant
-/

namespace Xv6

namespace Bio

open Ide State

variable {τ : Type} [Fintype τ]

/-! ### The list -/

/-- The ring through all buffers, with `head` first. -/
def Ordered (L : Links Node) (l : List BufId) : Prop :=
  RingList L.next L.prev none (l.map some) ∧ ∀ b, b ∈ l

omit [Fintype τ] in
/-- `binit` puts one buffer after the other behind `head`. -/
theorem ring_binit (bs : List BufId) {L : Links Node} {l : List BufId}
    (h : RingList L.next L.prev none (l.map some)) (hnd : bs.Nodup) (hdisj : ∀ b ∈ bs, b ∉ l) :
    RingList (bs.foldl (fun L b => L.link none (some b)) L).next
      (bs.foldl (fun L b => L.link none (some b)) L).prev none ((bs.reverse ++ l).map some) := by
  induction bs generalizing L l with
  | nil => exact h
  | cons b bs ih =>
    rw [List.foldl_cons, List.reverse_cons, List.append_assoc]
    refine ih (l := b :: l) (h.link ?_) hnd.of_cons fun c hc => ?_
    · simpa using hdisj b (List.mem_cons_self ..)
    · rw [List.mem_cons, not_or]
      refine ⟨?_, hdisj c (List.mem_cons_of_mem _ hc)⟩
      rintro rfl
      exact (List.nodup_cons.mp hnd).1 hc

/-- **The list that `binit` builds** is that of buffers released one after the other. -/
theorem binit_ordered : Ordered binit (Recent.recent (List.finRange NBUF)) := by
  have hnd := List.nodup_finRange NBUF
  refine ⟨?_, fun b => Recent.mem_recent.mpr (List.mem_finRange b)⟩
  have hempty : RingList (fun _ : Node => (none : Node)) (fun _ => none) none
      (([] : List BufId).map some) := by
    refine ⟨List.nodup_singleton none, ?_⟩
    exact List.isChain_cons_cons.mpr ⟨⟨rfl, rfl⟩, .singleton none⟩
  have h := ring_binit (List.finRange NBUF) (L := ⟨fun _ => none, fun _ => none⟩) hempty hnd nofun
  rw [List.append_nil] at h
  rw [Recent.recent_of_nodup hnd]
  exact h

theorem Ordered.nodup {L : Links Node} {l : List BufId} (h : Ordered L l) : l.Nodup :=
  List.Nodup.of_map some (List.nodup_cons.mp h.1.nodup).2

/-- `brelse` moves the buffer behind `head`. -/
theorem Ordered.moveToFront {L : Links Node} {l : List BufId} (h : Ordered L l) (b : BufId) :
    Ordered ((L.unlink (some b)).link none (some b)) (b :: l.erase b) := by
  have hnd := h.nodup
  obtain ⟨l₁, l₂, rfl⟩ := List.append_of_mem (h.2 b)
  have hb₁ : b ∉ l₁ := fun hm =>
    List.disjoint_of_nodup_append hnd hm (List.mem_cons_self ..)
  have hb₂ : b ∉ l₂ := (List.nodup_cons.mp (List.nodup_append.mp hnd).2.1).1
  have herase : (l₁ ++ b :: l₂).erase b = l₁ ++ l₂ := by
    rw [List.erase_append_right _ hb₁, List.erase_cons_head]
  have hring := h.1
  rw [List.map_append, List.map_cons] at hring
  refine ⟨?_, fun c => ?_⟩
  · rw [herase, List.map_cons, List.map_append]
    refine hring.unlink.link ?_
    rw [← List.map_append]
    simpa using ⟨hb₁, hb₂⟩
  · rw [herase]
    have := h.2 c
    simp only [List.mem_append, List.mem_cons] at this ⊢
    tauto

theorem Ordered.length_lt {L : Links Node} {l : List BufId} (h : Ordered L l) :
    (l.map some).length < NBUF + 1 := by
  have := List.Nodup.length_le_card h.nodup
  rw [Fintype.card_fin] at this
  rw [List.length_map]
  exact Nat.lt_succ_of_le this

theorem find?_map_some {l : List BufId} {P : BufId → Bool} :
    ((l.map some).find? fun x : Node => x.any P).join = l.find? P := by
  rw [List.find?_map]
  have : ((fun x : Node => x.any P) ∘ some) = P := rfl
  rw [this]
  cases l.find? P <;> rfl

/-- The loop over the list from the front. -/
theorem Ordered.seek_next {L : Links Node} {l : List BufId} (h : Ordered L l) (P : BufId → Bool) :
    (Links.seek L.next none (fun x => x.any P) (NBUF + 1) (L.next none)).map Option.join =
      some (l.find? P) := by
  rw [h.1.seek h.length_lt, Option.map_some, find?_map_some]

/-- The loop over the list from the back. -/
theorem Ordered.seek_prev {L : Links Node} {l : List BufId} (h : Ordered L l) (P : BufId → Bool) :
    (Links.seek L.prev none (fun x => x.any P) (NBUF + 1) (L.prev none)).map Option.join =
      some (l.reverse.find? P) := by
  have hlen : (l.map some).reverse.length < NBUF + 1 := by
    rw [List.length_reverse]
    exact h.length_lt
  rw [h.1.reverse.seek hlen, Option.map_some, ← List.map_reverse, find?_map_some]

/-! ### The invariant -/

/-- How many processes are between `bget` and `brelse` with the buffer: those that have no lock, and
the one that has it. -/
def users (s : State τ) (b : BufId) : ℕ :=
  (Finset.univ.filter fun t => (s.thread t).refers = some b).card +
    if s.owner b = none then 0 else 1

/-- The invariant, with the buffers in the order of the list. -/
structure Inv (s : State τ) (l : List BufId) : Prop where
  ordered : Ordered s.links l
  /-- A block is in one buffer at most. -/
  unique : ∀ b b', (s.mem.buf b).dev ≠ 0 → (s.mem.buf b').dev = (s.mem.buf b).dev →
    (s.mem.buf b').blockno = (s.mem.buf b).blockno → b' = b
  refcnt : ∀ b, s.refcnt b = users s b
  /-- `bread` waits for a buffer that holds its block. -/
  locking : ∀ t b dev blockno, s.thread t = .locking b dev blockno →
    s.Holds dev blockno b ∧ dev ≠ 0
  filling : ∀ t b dev blockno, s.thread t = .filling b dev blockno →
    s.owner b = some t ∧ s.Holds dev blockno b ∧ dev ≠ 0 ∧ (s.mem.buf b).valid = false
  /-- Whoever has the lock has the block, or is about to read it. -/
  owned : ∀ t b, s.owner b = some t →
    (s.mem.buf b).valid = true ∨ ∃ dev blockno, s.thread t = .filling b dev blockno
  dirty : ∀ b, (s.mem.buf b).dirty = true → (s.mem.buf b).valid = true
  root : ∀ b, (s.mem.buf b).valid = true → (s.mem.buf b).dev = ROOTDEV

theorem Inv.init (disk : Disk) :
    Inv (init disk : State τ) (Recent.recent (List.finRange NBUF)) where
  ordered := binit_ordered
  unique b b' h := absurd rfl h
  refcnt b := by
    have : (Finset.univ.filter fun _ : τ => Phase.out.refers = some b).card = 0 := by
      simp [Phase.refers]
    exact this.symm
  locking t b dev blockno h := by cases h
  filling t b dev blockno h := by cases h
  owned t b h := by cases h
  dirty b h := by cases h
  root b h := by cases h

section Step

variable {s s' : State τ} {l : List BufId} {t : τ} {b : BufId}

/-- A buffer that nobody uses. -/
theorem Inv.not_used (h : Inv s l) (hb : s.refcnt b = 0) :
    s.owner b = none ∧ ∀ t, (s.thread t).refers ≠ some b := by
  have hu := h.refcnt b
  rw [hb, users] at hu
  have howner : s.owner b = none := by
    by_contra hne
    rw [if_neg hne] at hu
    omega
  rw [if_pos howner, Nat.add_zero] at hu
  exact ⟨howner, Shares.card_eq_zero.mp hu.symm⟩

/-- What `bget` finds. -/
theorem Inv.lookup (h : Inv s l) (dev blockno : ℕ) :
    s.lookup dev blockno = some (l.find? fun b => decide (s.Holds dev blockno b)) :=
  h.ordered.seek_next _

theorem Inv.victim (h : Inv s l) :
    s.victim = some (l.reverse.find? fun b => decide (s.Idle b)) := h.ordered.seek_prev _

variable [DecidableEq τ]

/-- The number of users when one process moves on and locks change hands. -/
theorem users_move {p : Phase} (hth : s'.thread = Function.update s.thread t p) (b : BufId) :
    (users s' b : ℤ) = users s b + (if p.refers = some b then 1 else 0) -
      (if (s.thread t).refers = some b then 1 else 0) + (if s'.owner b = none then 0 else 1) -
      (if s.owner b = none then 0 else 1) := by
  have h := Shares.card_update (fun t => (s.thread t).refers) t p.refers (some b)
  have hfun : (fun t' => (s'.thread t').refers) =
      Function.update (fun t => (s.thread t).refers) t p.refers := by
    funext t'
    rw [hth]
    by_cases ht : t' = t
    · subst ht
      simp
    · simp [ht]
  have hcard : (Finset.univ.filter fun t' => (s'.thread t').refers = some b).card =
      (Finset.univ.filter fun t' =>
        Function.update (fun t => (s.thread t).refers) t p.refers t' = some b).card := by
    rw [← hfun]
  unfold users
  rw [hcard]
  push_cast
  rw [h]
  abel

theorem users_thread {p : Phase} (hth : s'.thread = Function.update s.thread t p)
    (ho : s'.owner = s.owner) (b : BufId) :
    (users s' b : ℤ) = users s b + (if p.refers = some b then 1 else 0) -
      (if (s.thread t).refers = some b then 1 else 0) := by
  rw [users_move hth, ho, add_sub_cancel_right]

omit [DecidableEq τ] in
/-- The contents of one buffer change, and not the block that it holds. -/
theorem Inv.data (h : Inv s l) {x : Content} (hdev : x.dev = (s.mem.buf b).dev)
    (hno : x.blockno = (s.mem.buf b).blockno) (hvalid : x.valid = (s.mem.buf b).valid)
    (hdirty : x.dirty = true → x.valid = true) :
    Inv { s with mem := s.mem.put b x } l := by
  have hbuf : ∀ b', ((s.mem.put b x).buf b').dev = (s.mem.buf b').dev ∧
      ((s.mem.put b x).buf b').blockno = (s.mem.buf b').blockno ∧
      ((s.mem.put b x).buf b').valid = (s.mem.buf b').valid := by
    intro b'
    by_cases hb : b' = b
    · subst hb
      simpa [Mem.put] using ⟨hdev, hno, hvalid⟩
    · simp [Mem.put, hb]
  have hholds : ∀ dev blockno b', ({ s with mem := s.mem.put b x } : State τ).Holds dev blockno b' ↔
      s.Holds dev blockno b' := by
    intro dev blockno b'
    simp only [State.Holds, (hbuf b').1, (hbuf b').2.1]
  refine ⟨h.ordered, fun b₁ b₂ h₁ h₂ h₃ => ?_, h.refcnt, fun t b' dev blockno ht => ?_,
    fun t b' dev blockno ht => ?_, fun t b' ho => ?_, fun b' hd => ?_, fun b' hv => ?_⟩
  · simp only [hbuf] at h₁ h₂ h₃
    exact h.unique b₁ b₂ h₁ h₂ h₃
  · rw [hholds]
    exact h.locking t b' dev blockno ht
  · obtain ⟨h₁, h₂, h₃, h₄⟩ := h.filling t b' dev blockno ht
    exact ⟨h₁, (hholds _ _ _).mpr h₂, h₃, (hbuf b').2.2.trans h₄⟩
  · exact (h.owned t b' ho).imp_left ((hbuf b').2.2.trans ·)
  · by_cases hb : b' = b
    · subst hb
      simp only [Mem.put, Function.update_self] at hd ⊢
      exact hdirty hd
    · simp only [Mem.put, Function.update_of_ne hb] at hd ⊢
      exact h.dirty b' hd
  · change ((s.mem.put b x).buf b').dev = _
    rw [(hbuf b').1]
    exact h.root b' ((hbuf b').2.2.symm.trans hv)

/-- One process moves on to `p`; the contents of the buffers stay as they are. -/
theorem Inv.move (h : Inv s l) {l' : List BufId} {p : Phase} (hmem : s'.mem = s.mem)
    (hord : Ordered s'.links l') (hth : s'.thread = Function.update s.thread t p)
    (hcount : ∀ b, s'.refcnt b = users s' b)
    (hlock : ∀ b dev blockno, p = .locking b dev blockno → s.Holds dev blockno b ∧ dev ≠ 0)
    (hfill : ∀ b dev blockno, p = .filling b dev blockno →
      s'.owner b = some t ∧ s.Holds dev blockno b ∧ dev ≠ 0 ∧ (s.mem.buf b).valid = false)
    (hown : ∀ t' b, s'.owner b = some t' →
      (s.mem.buf b).valid = true ∨ ∃ dev blockno, s'.thread t' = .filling b dev blockno)
    (hkeep : ∀ t' b dev blockno, t' ≠ t → s.thread t' = .filling b dev blockno →
      s'.owner b = some t') : Inv s' l' := by
  have hthread : ∀ t', t' = t ∧ s'.thread t' = p ∨ t' ≠ t ∧ s'.thread t' = s.thread t' := by
    intro t'
    rw [hth]
    by_cases ht : t' = t
    · exact .inl ⟨ht, by rw [ht, Function.update_self]⟩
    · exact .inr ⟨ht, Function.update_of_ne ht ..⟩
  have hholds : ∀ dev blockno b, s'.Holds dev blockno b ↔ s.Holds dev blockno b := by
    intro dev blockno b
    rw [State.Holds, State.Holds, hmem]
  refine ⟨hord, by rw [hmem]; exact h.unique, hcount, fun t' b dev blockno ht => ?_,
    fun t' b dev blockno ht => ?_, by rw [hmem]; exact hown, by rw [hmem]; exact h.dirty,
    by rw [hmem]; exact h.root⟩
  · rw [hholds]
    obtain ⟨-, hp⟩ | ⟨-, hp⟩ := hthread t'
    · exact hlock b dev blockno (hp.symm.trans ht)
    · exact h.locking t' b dev blockno (hp ▸ ht)
  · rw [hholds, hmem]
    obtain ⟨rfl, hp⟩ | ⟨hne, hp⟩ := hthread t'
    · exact hfill b dev blockno (hp.symm.trans ht)
    · have hf := h.filling t' b dev blockno (hp ▸ ht)
      exact ⟨hkeep t' b dev blockno hne (hp ▸ ht), hf.2⟩

omit [DecidableEq τ] in
/-- The owner of a buffer has the block unless it is reading it. -/
theorem Inv.valid_of_owner (h : Inv s l) (ho : s.owner b = some t)
    (ht : ∀ dev blockno, s.thread t ≠ .filling b dev blockno) : (s.mem.buf b).valid = true :=
  (h.owned t b ho).resolve_right fun ⟨dev, blockno, hf⟩ => ht dev blockno hf

/-- The count of one buffer goes with the references of one thread. -/
theorem Inv.refcnt_thread (h : Inv s l) {p : Phase} {v : ℕ}
    (hth : s'.thread = Function.update s.thread t p) (ho : s'.owner = s.owner)
    (hv : (v : ℤ) = s.refcnt b + (if p.refers = some b then 1 else 0) -
      (if (s.thread t).refers = some b then 1 else 0))
    (hother : ∀ b', b' ≠ b → p.refers ≠ some b' ∧ (s.thread t).refers ≠ some b') (b' : BufId) :
    Function.update s.refcnt b v b' = users s' b' := by
  have hu := users_thread hth ho b'
  have hcount := h.refcnt b'
  by_cases hbb : b' = b
  · subst hbb
    rw [Function.update_self]
    omega
  · rw [if_neg (hother b' hbb).1, if_neg (hother b' hbb).2] at hu
    rw [Function.update_of_ne hbb]
    omega

/-- `bget` finds the block. -/
theorem Inv.hit (h : Inv s l) (ht : s.thread t = .out) {dev blockno : ℕ}
    (hb : s.Holds dev blockno b) (hdev : dev ≠ 0) :
    Inv (({ s with refcnt := Function.update s.refcnt b (s.refcnt b + 1) } : State τ).setThread t
      (.locking b dev blockno)) l := by
  refine h.move rfl h.ordered rfl (fun b' => ?_) (fun b' d n hp => ?_) nofun (fun t' b' ho => ?_)
    fun t' b' d n _ hf => (h.filling t' b' d n hf).1
  · refine h.refcnt_thread (t := t) (p := .locking b dev blockno) ?_ ?_ ?_
      (fun b' hb => by simp [ht, Phase.refers, hb.symm]) b'
    · rfl
    · rfl
    · simp [ht, Phase.refers]
  · cases hp
    exact ⟨hb, hdev⟩
  · refine (h.owned t' b' ho).imp_right ?_
    rintro ⟨d, n, hf⟩
    have hne : t' ≠ t := by rintro rfl; rw [ht] at hf; cases hf
    exact ⟨d, n, (Function.update_of_ne hne ..).trans hf⟩

/-- `bread` gets the lock of its buffer. -/
theorem Inv.lock (h : Inv s l) {dev blockno : ℕ} (ht : s.thread t = .locking b dev blockno)
    (ho : s.owner b = none) {p : Phase}
    (hp : p = .out ∧ (s.mem.buf b).valid = true ∨
      p = .filling b dev blockno ∧ (s.mem.buf b).valid = false) :
    Inv (({ s with owner := Function.update s.owner b (some t) } : State τ).setThread t p) l := by
  obtain ⟨hb, hdev⟩ := h.locking t b dev blockno ht
  refine h.move rfl h.ordered rfl (fun b' => ?_) (fun b' d n he => ?_) (fun b' d n he => ?_)
    (fun t' b' ho' => ?_) fun t' b' d n hne hf => ?_
  · have hpr : p.refers = none := by obtain ⟨rfl, -⟩ | ⟨rfl, -⟩ := hp <;> rfl
    have hu := users_move (s := s) (p := p) (t := t) (Eq.refl (State.thread
      (({ s with owner := Function.update s.owner b (some t) } : State τ).setThread t p))) b'
    have hcount := h.refcnt b'
    change s.refcnt b' = _
    rw [ht, hpr] at hu
    change _ = _ + (if Function.update s.owner b (some t) b' = none then 0 else 1) - _ at hu
    by_cases hbb : b' = b
    · subst hbb
      rw [Function.update_self] at hu
      simp only [Phase.refers, if_true, reduceCtorEq, if_false, ho] at hu
      omega
    · rw [Function.update_of_ne hbb] at hu
      simp only [Phase.refers, Option.some.injEq, Ne.symm hbb, reduceCtorEq, if_false] at hu
      omega
  · obtain ⟨rfl, -⟩ | ⟨rfl, -⟩ := hp <;> cases he
  · obtain ⟨rfl, -⟩ | ⟨rfl, hv⟩ := hp <;> cases he
    exact ⟨Function.update_self .., hb, hdev, hv⟩
  · by_cases hbb : b' = b
    · subst hbb
      change Function.update s.owner b' (some t) b' = _ at ho'
      rw [Function.update_self] at ho'
      cases ho'
      obtain ⟨rfl, hv⟩ | ⟨rfl, -⟩ := hp
      · exact .inl hv
      · exact .inr ⟨dev, blockno, Function.update_self ..⟩
    · change Function.update s.owner b (some t) b' = _ at ho'
      rw [Function.update_of_ne hbb] at ho'
      refine (h.owned t' b' ho').imp_right ?_
      rintro ⟨d, n, hf⟩
      have hne : t' ≠ t := by rintro rfl; rw [ht] at hf; cases hf
      exact ⟨d, n, (Function.update_of_ne hne ..).trans hf⟩
  · have hf := (h.filling t' b' d n hf).1
    have hbb : b' ≠ b := by rintro rfl; rw [ho] at hf; cases hf
    exact (Function.update_of_ne hbb ..).trans hf

/-- `bget` recycles a buffer that nobody uses for a block that is in no buffer. -/
theorem Inv.miss (h : Inv s l) (ht : s.thread t = .out) {dev blockno : ℕ} (hdev : dev ≠ 0)
    (hno : ∀ b', ¬ s.Holds dev blockno b') (hb : s.refcnt b = 0) :
    Inv ((s.recycle b dev blockno).setThread t (.locking b dev blockno)) l := by
  obtain ⟨howner, hrefers⟩ := h.not_used hb
  have hself : ((s.recycle b dev blockno).mem.buf b) =
      ⟨false, false, dev, blockno, (s.mem.buf b).data⟩ := Function.update_self ..
  have hother : ∀ b', b' ≠ b → (s.recycle b dev blockno).mem.buf b' = s.mem.buf b' :=
    fun b' hne => Function.update_of_ne hne ..
  have hthread : ∀ t', t' ≠ t → ((s.recycle b dev blockno).setThread t
      (.locking b dev blockno)).thread t' = s.thread t' := fun t' hne =>
      Function.update_of_ne hne ..
  have hmine : ((s.recycle b dev blockno).setThread t (.locking b dev blockno)).thread t =
      .locking b dev blockno := Function.update_self ..
  have howned : ∀ t' b', s.owner b' = some t' → b' ≠ b := by
    rintro t' b' ho rfl
    rw [howner] at ho
    cases ho
  refine ⟨h.ordered, fun b₁ b₂ h₁ h₂ h₃ => ?_, fun b' => ?_, fun t' b' d n hp => ?_,
    fun t' b' d n hf => ?_, fun t' b' ho => ?_, fun b' hd => ?_, fun b' hv => ?_⟩
  · change ((s.recycle b dev blockno).mem.buf _).dev ≠ _ at h₁
    change ((s.recycle b dev blockno).mem.buf _).dev =
      ((s.recycle b dev blockno).mem.buf _).dev at h₂
    change ((s.recycle b dev blockno).mem.buf _).blockno =
      ((s.recycle b dev blockno).mem.buf _).blockno at h₃
    by_cases hb₁ : b₁ = b <;> by_cases hb₂ : b₂ = b
    · rw [hb₁, hb₂]
    · rw [hb₁, hself, hother b₂ hb₂] at h₂ h₃
      exact absurd ⟨h₂, h₃⟩ (hno b₂)
    · rw [hb₂, hself, hother b₁ hb₁] at h₂ h₃
      exact absurd ⟨h₂.symm, h₃.symm⟩ (hno b₁)
    · rw [hother b₁ hb₁] at h₁ h₂ h₃
      rw [hother b₂ hb₂] at h₂ h₃
      exact h.unique b₁ b₂ h₁ h₂ h₃
  · refine h.refcnt_thread (t := t) (p := .locking b dev blockno) ?_ ?_ ?_
      (fun b' hb => by simp [ht, Phase.refers, hb.symm]) b'
    · rfl
    · rfl
    · simp [ht, Phase.refers, hb]
  · change (((s.recycle b dev blockno).mem.buf b').dev = d ∧
      ((s.recycle b dev blockno).mem.buf b').blockno = n) ∧ _
    by_cases hne : t' = t
    · subst hne
      rw [hmine] at hp
      cases hp
      rw [hself]
      exact ⟨⟨rfl, rfl⟩, hdev⟩
    · rw [hthread t' hne] at hp
      have hbb : b' ≠ b := by
        rintro rfl
        exact hrefers t' (by rw [hp]; rfl)
      rw [hother b' hbb]
      exact h.locking t' b' d n hp
  · have hne : t' ≠ t := by
      rintro rfl
      rw [hmine] at hf
      cases hf
    rw [hthread t' hne] at hf
    obtain ⟨h₁, h₂, h₃, h₄⟩ := h.filling t' b' d n hf
    have hbb := howned t' b' h₁
    refine ⟨h₁, ?_, h₃, ?_⟩
    · change ((s.recycle b dev blockno).mem.buf b').dev = d ∧
        ((s.recycle b dev blockno).mem.buf b').blockno = n
      rw [hother b' hbb]
      exact h₂
    · change ((s.recycle b dev blockno).mem.buf b').valid = false
      rw [hother b' hbb]
      exact h₄
  · have hbb := howned t' b' ho
    change ((s.recycle b dev blockno).mem.buf b').valid = true ∨ _
    rw [hother b' hbb]
    refine (h.owned t' b' ho).imp_right ?_
    rintro ⟨d, n, hf⟩
    have hne : t' ≠ t := by rintro rfl; rw [ht] at hf; cases hf
    exact ⟨d, n, (hthread t' hne).trans hf⟩
  · change ((s.recycle b dev blockno).mem.buf b').dirty = true at hd
    change ((s.recycle b dev blockno).mem.buf b').valid = true
    by_cases hbb : b' = b
    · rw [hbb, hself] at hd
      cases hd
    · rw [hother b' hbb] at hd ⊢
      exact h.dirty b' hd
  · change ((s.recycle b dev blockno).mem.buf b').valid = true at hv
    change ((s.recycle b dev blockno).mem.buf b').dev = _
    by_cases hbb : b' = b
    · rw [hbb, hself] at hv
      cases hv
    · rw [hother b' hbb] at hv ⊢
      exact h.root b' hv

/-- What `iderw` does for a buffer without the block. -/
theorem iderw_read {m m' : Mem} (hd : (m.buf b).dirty = false) (h : m.iderw b = some m') :
    (m.buf b).dev = ROOTDEV ∧ m' = m.put b { m.buf b with
      data := m.disk (m.buf b).blockno, valid := true } := by
  unfold Mem.iderw at h
  dsimp only at h
  split at h
  · cases h
  split at h
  · cases h
  next hdev =>
  split at h
  · cases h
  rw [if_neg (by rw [hd]; nofun)] at h
  cases h
  exact ⟨not_not.mp hdev, rfl⟩

/-- What `iderw` does for a dirty buffer. -/
theorem iderw_write {m m' : Mem} (hd : (m.buf b).dirty = true) (h : m.iderw b = some m') :
    m'.disk = Function.update m.disk (m.buf b).blockno (m.buf b).data ∧
      m'.buf = Function.update m.buf b { m.buf b with dirty := false, valid := true } := by
  unfold Mem.iderw at h
  dsimp only at h
  split at h
  · cases h
  split at h
  · cases h
  split at h
  · cases h
  cases h
  exact ⟨rfl, rfl⟩

/-- `bread` reads its block. -/
theorem Inv.fill (h : Inv s l) {dev blockno : ℕ} (ht : s.thread t = .filling b dev blockno)
    {m : Mem} (hm : s.mem.iderw b = some m) :
    Inv (({ s with mem := m } : State τ).setThread t .out) l := by
  obtain ⟨ho, hb, hdev, hinvalid⟩ := h.filling t b dev blockno ht
  have hclean : (s.mem.buf b).dirty = false := by
    by_contra hd
    rw [Bool.not_eq_false] at hd
    rw [h.dirty b hd] at hinvalid
    cases hinvalid
  obtain ⟨hroot, rfl⟩ := iderw_read hclean hm
  obtain ⟨x, hx⟩ : ∃ x : Content, x = { s.mem.buf b with
    data := s.mem.disk (s.mem.buf b).blockno, valid := true } := ⟨_, rfl⟩
  rw [← hx]
  have hxself : (s.mem.put b x).buf b = x := Function.update_self ..
  have hother : ∀ b', b' ≠ b → (s.mem.put b x).buf b' = s.mem.buf b' :=
    fun b' hne => Function.update_of_ne hne ..
  have hkey : ∀ b', ((s.mem.put b x).buf b').dev = (s.mem.buf b').dev ∧
      ((s.mem.put b x).buf b').blockno = (s.mem.buf b').blockno := by
    intro b'
    by_cases hbb : b' = b
    · rw [hbb, hxself, hx]
      exact ⟨rfl, rfl⟩
    · rw [hother b' hbb]
      exact ⟨rfl, rfl⟩
  have hvalid : ∀ b', (s.mem.buf b').valid = true → ((s.mem.put b x).buf b').valid = true := by
    intro b' hv
    by_cases hbb : b' = b
    · rw [hbb, hxself, hx]
    · rw [hother b' hbb]
      exact hv
  have hthread : ∀ t' p,
      (({ s with mem := s.mem.put b x } : State τ).setThread t .out).thread t' = p →
      p ≠ .out → t' ≠ t ∧ s.thread t' = p := by
    intro t' p hp hne
    by_cases htt : t' = t
    · subst htt
      rw [← hp] at hne
      exact absurd (Function.update_self ..) hne
    · exact ⟨htt, (Function.update_of_ne htt ..).symm.trans hp⟩
  have hholds : ∀ d n b',
      (({ s with mem := s.mem.put b x } : State τ).setThread t .out).Holds d n b' ↔
      s.Holds d n b' := by
    intro d n b'
    change ((s.mem.put b x).buf b').dev = d ∧ ((s.mem.put b x).buf b').blockno = n ↔ _
    rw [(hkey b').1, (hkey b').2]
    exact Iff.rfl
  refine ⟨h.ordered, fun b₁ b₂ h₁ h₂ h₃ => ?_, fun b' => ?_, fun t' b' d n hp => ?_,
    fun t' b' d n hf => ?_, fun t' b' ho' => ?_, fun b' hd => ?_, fun b' hv => ?_⟩
  · change ((s.mem.put b x).buf b₁).dev ≠ 0 at h₁
    change ((s.mem.put b x).buf b₂).dev = ((s.mem.put b x).buf b₁).dev at h₂
    change ((s.mem.put b x).buf b₂).blockno = ((s.mem.put b x).buf b₁).blockno at h₃
    rw [(hkey b₁).1] at h₁ h₂
    rw [(hkey b₂).1] at h₂
    rw [(hkey b₁).2, (hkey b₂).2] at h₃
    exact h.unique b₁ b₂ h₁ h₂ h₃
  · have hu := users_thread (s := s) (p := .out) (t := t) (Eq.refl (State.thread
      (({ s with mem := s.mem.put b x } : State τ).setThread t .out))) rfl b'
    have hcount := h.refcnt b'
    change s.refcnt b' = _
    rw [ht] at hu
    simp only [Phase.refers, reduceCtorEq, if_false] at hu
    omega
  · obtain ⟨-, hp⟩ := hthread t' _ hp nofun
    rw [hholds]
    exact h.locking t' b' d n hp
  · obtain ⟨hne, hf⟩ := hthread t' _ hf nofun
    obtain ⟨h₁, h₂, h₃, h₄⟩ := h.filling t' b' d n hf
    have hbb : b' ≠ b := by
      rintro rfl
      rw [ho] at h₁
      exact hne (Option.some.inj h₁).symm
    refine ⟨h₁, (hholds d n b').mpr h₂, h₃, ?_⟩
    change ((s.mem.put b x).buf b').valid = false
    rw [hother b' hbb]
    exact h₄
  · obtain hv | ⟨d, n, hf⟩ := h.owned t' b' ho'
    · exact .inl (hvalid b' hv)
    · by_cases htt : t' = t
      · subst htt
        rw [ht] at hf
        cases hf
        refine .inl ?_
        change ((s.mem.put b x).buf b).valid = true
        rw [hxself, hx]
      · exact .inr ⟨d, n, (Function.update_of_ne htt ..).trans hf⟩
  · change ((s.mem.put b x).buf b').dirty = true at hd
    refine hvalid b' (h.dirty b' ?_)
    by_cases hbb : b' = b
    · rw [hbb, hxself, hx] at hd
      rw [hbb]
      exact hd
    · rwa [hother b' hbb] at hd
  · change ((s.mem.put b x).buf b').valid = true at hv
    change ((s.mem.put b x).buf b').dev = _
    rw [(hkey b').1]
    by_cases hbb : b' = b
    · rw [hbb]
      exact hroot
    · rw [hother b' hbb] at hv
      exact h.root b' hv

omit [DecidableEq τ] in
/-- The invariant says nothing about the disk. -/
theorem Inv.congr_disk (h : Inv s l) (disk : Disk) :
    Inv { s with mem := { s.mem with disk := disk } } l :=
  ⟨h.ordered, h.unique, h.refcnt, h.locking, h.filling, h.owned, h.dirty, h.root⟩

omit [DecidableEq τ] in
/-- `bwrite` writes its buffer. -/
theorem Inv.bwrite (h : Inv s l) (hu : s.Uses t b) {m : Mem}
    (hm : (s.mem.put b { s.mem.buf b with dirty := true }).iderw b = some m) :
    Inv { s with mem := m } l ∧
      m = { disk := Function.update s.mem.disk (s.mem.buf b).blockno (s.mem.buf b).data
            buf := Function.update s.mem.buf b { s.mem.buf b with dirty := false } } := by
  have hv : (s.mem.buf b).valid = true :=
    h.valid_of_owner hu.2 fun dev blockno hf => by rw [hu.1] at hf; cases hf
  have hself : (s.mem.put b { s.mem.buf b with dirty := true }).buf b =
      { s.mem.buf b with dirty := true } := Function.update_self ..
  obtain ⟨hdisk, hbuf⟩ := iderw_write (by rw [hself]) hm
  rw [hself] at hdisk hbuf
  have hmem : m = { disk := Function.update s.mem.disk (s.mem.buf b).blockno (s.mem.buf b).data
                    buf := Function.update s.mem.buf b { s.mem.buf b with dirty := false } } := by
    cases m
    simp only [Mem.mk.injEq]
    refine ⟨hdisk, hbuf.trans ?_⟩
    simp only [Mem.put, Function.update_idem, hv]
  refine ⟨?_, hmem⟩
  rw [hmem]
  refine (h.data (b := b) (x := { s.mem.buf b with dirty := false }) rfl rfl rfl ?_).congr_disk _
  rintro ⟨⟩

/-- `brelse` gives up the lock. -/
theorem Inv.brelse (h : Inv s l) (hu : s.Uses t b) :
    Inv (({ s with owner := Function.update s.owner b none } : State τ).setThread t
      (.releasing b)) l := by
  refine h.move rfl h.ordered rfl (fun b' => ?_) nofun nofun (fun t' b' ho => ?_)
    fun t' b' d n hne hf => ?_
  · have hm := users_move (s := s) (p := .releasing b) (t := t) (Eq.refl (State.thread
      (({ s with owner := Function.update s.owner b none } : State τ).setThread t _))) b'
    have hcount := h.refcnt b'
    change s.refcnt b' = _
    rw [hu.1] at hm
    change _ = _ + (if Function.update s.owner b none b' = none then 0 else 1) - _ at hm
    by_cases hbb : b' = b
    · subst hbb
      rw [Function.update_self, hu.2] at hm
      simp only [Phase.refers, if_true, reduceCtorEq, if_false] at hm
      omega
    · rw [Function.update_of_ne hbb, add_sub_cancel_right] at hm
      simp only [Phase.refers, Option.some.injEq, Ne.symm hbb, reduceCtorEq, if_false] at hm
      omega
  · change Function.update s.owner b none b' = _ at ho
    have hbb : b' ≠ b := by
      rintro rfl
      rw [Function.update_self] at ho
      cases ho
    rw [Function.update_of_ne hbb] at ho
    refine (h.owned t' b' ho).imp_right ?_
    rintro ⟨d, n, hf⟩
    have hne : t' ≠ t := by rintro rfl; rw [hu.1] at hf; cases hf
    exact ⟨d, n, (Function.update_of_ne hne ..).trans hf⟩
  · have ho := (h.filling t' b' d n hf).1
    have hbb : b' ≠ b := by
      rintro rfl
      rw [hu.2] at ho
      exact hne (Option.some.inj ho).symm
    exact (Function.update_of_ne hbb ..).trans ho

/-- `brelse` takes its reference back, and moves the buffer to the front if it was the last. -/
theorem Inv.drop (h : Inv s l) (ht : s.thread t = .releasing b) :
    Inv ((s.drop b).setThread t .out) (if s.refcnt b = 1 then b :: l.erase b else l) := by
  have hpos : 0 < s.refcnt b := by
    rw [Nat.pos_iff_ne_zero]
    intro h0
    exact (h.not_used h0).2 t (by rw [ht]; rfl)
  have hone : s.refcnt b - 1 = 0 ↔ s.refcnt b = 1 := by omega
  have hdrop : (s.drop b).mem = s.mem ∧ (s.drop b).owner = s.owner ∧ (s.drop b).thread = s.thread ∧
      (s.drop b).refcnt = Function.update s.refcnt b (s.refcnt b - 1) ∧
      Ordered (s.drop b).links (if s.refcnt b = 1 then b :: l.erase b else l) := by
    unfold State.drop
    simp only [Function.update_self, hone]
    split
    · exact ⟨rfl, rfl, rfl, rfl, h.ordered.moveToFront b⟩
    · exact ⟨rfl, rfl, rfl, rfl, h.ordered⟩
  obtain ⟨hmem, howner, hthread, hrefcnt, hord⟩ := hdrop
  have hth : ((s.drop b).setThread t .out).thread = Function.update s.thread t .out := by
    rw [← hthread]
    rfl
  refine h.move hmem hord hth (fun b' => ?_) nofun nofun (fun t' b' ho => ?_)
    fun t' b' d n _ hf => ?_
  · change (s.drop b).refcnt b' = _
    rw [hrefcnt]
    refine h.refcnt_thread hth howner ?_ (fun b' hb => by simp [ht, Phase.refers, hb.symm]) b'
    simp only [ht, Phase.refers, if_true, reduceCtorEq, if_false]
    omega
  · have ho : s.owner b' = some t' := howner ▸ ho
    refine (h.owned t' b' ho).imp_right ?_
    rintro ⟨d, n, hf⟩
    have hne : t' ≠ t := by rintro rfl; rw [ht] at hf; cases hf
    exact ⟨d, n, by rw [hth, Function.update_of_ne hne, hf]⟩
  · have ho := (h.filling t' b' d n hf).1
    exact (congrFun howner b').trans ho

end Step

end Bio

end Xv6
