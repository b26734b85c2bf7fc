import Xv6.Ide.Machine
import Xv6.Lib.Chain

/-!
# The disk queue

The pointers from `idequeue` on always form a list without repetition: the buffers that have been
queued and not yet served, in the order in which they came. The disk works on the first of them, or
has finished with it and asks for an interrupt. A process in `iderw` has its buffer in the queue, or
the buffer has been served. All this is `Inv`, for runs in which the disk reports no error.

## Main definitions

* `Working` — what the disk does for the first buffer of the queue
* `Inv` — the invariant, with the queue as a list
* `Event.Fine` — the steps considered

## Main results

* `Inv.enter`, `Inv.finish`, `Inv.ideintr` — a buffer is queued, executed and taken off
-/

namespace Xv6

namespace Ide

variable {τ : Type}

open State

/-! ### Registers -/

theorem shiftRight_blockno {b : Content} (hb : b.blockno < FSSIZE) :
    (b.blockno * sectorPerBlock) >>> 24 = 0 := by
  have hone : b.blockno * sectorPerBlock = b.blockno := Nat.mul_one _
  rw [hone, Nat.shiftRight_eq_div_pow]
  exact Nat.div_eq_of_lt (hb.trans (by decide))

theorem command_select {b : Content} (hb : b.blockno < FSSIZE) :
    (command b).select = 224 + b.dev % 2 * 16 := by
  have hbit : b.dev &&& 1 = b.dev % 2 := Nat.and_two_pow_sub_one_eq_mod b.dev 1
  have hselect : (command b).select =
      0xe0 ||| ((b.dev &&& 1) <<< 4) ||| ((b.blockno * sectorPerBlock) >>> 24 &&& 0x0f) := rfl
  rw [hselect, shiftRight_blockno hb, hbit]
  obtain h | h := Nat.mod_two_eq_zero_or_one b.dev <;> rw [h] <;> decide

/-- The disk finds in the registers the block that was put there. -/
theorem command_sector {b : Content} (hb : b.blockno < FSSIZE) :
    (command b).sector = b.blockno := by
  have hone : b.blockno * sectorPerBlock = b.blockno := Nat.mul_one _
  have hmask : ∀ x, x &&& 0xff = x % 2 ^ 8 := fun x => Nat.and_two_pow_sub_one_eq_mod x 8
  have hb' : b.blockno < 1000 := hb
  rw [Command.sector, command_select hb]
  simp only [command, hone, hmask, Nat.shiftRight_eq_div_pow]
  omega

theorem command_drive {b : Content} (hb : b.blockno < FSSIZE) (hdev : b.dev = ROOTDEV) :
    (command b).drive = 1 := by
  rw [Command.drive, command_select hb, hdev]
  decide

/-! ### The invariant -/

/-- The pointers of the queue. -/
def qnext (s : State τ) (b : BufId) : Option BufId := (s.buf b).qnext

/-- The command for `b` has been executed: a write has reached the disk, a read has its sector. -/
def Done (s : State τ) (b : BufId) : Prop :=
  if (s.buf b).dirty then s.device.disk 1 (s.buf b).blockno = (s.buf b).data
  else s.device.out = s.device.disk 1 (s.buf b).blockno

/-- What the disk does while the queue is `q`: nothing for an empty queue; otherwise it executes the
command for the first buffer, or has executed it and asks for an interrupt. -/
def Working (s : State τ) : List BufId → Prop
  | [] => s.device.active = none ∧ s.device.irq = false
  | b :: _ =>
    s.device.active = some (command (s.buf b).toContent) ∧ s.device.irq = false ∨
      s.device.active = none ∧ s.device.irq = true ∧ s.device.err = false ∧ Done s b

/-- The process sleeps in `iderw` for the buffer, or has been woken there. -/
def Waits (s : State τ) (t : τ) (b : BufId) : Prop :=
  s.thread t = .asleep b ∨ s.thread t = .woken b

/-- The invariant, with the queue `q`. -/
structure Inv (s : State τ) (q : List BufId) : Prop where
  chain : Chain (qnext s) some none s.idequeue q
  nodup : q.Nodup
  /-- A process on its way to the queue has the lock of a buffer that needs the disk. -/
  want : ∀ t b, s.thread t = .want b → s.owner b = some t ∧ ¬ (s.buf b).Synced ∧ b ∉ q
  /-- No process sleeps for a buffer that has been served. -/
  asleep : ∀ t b, s.thread t = .asleep b → b ∈ q
  waits : ∀ t b, Waits s t b → s.owner b = some t
  queued : ∀ b ∈ q, ¬ (s.buf b).Synced ∧ ∃ t, Waits s t b
  /-- A buffer that has been served and has not been returned agrees with the disk. -/
  served : ∀ t b, s.thread t = .woken b → b ∉ q →
    (s.buf b).Synced ∧ s.device.disk 1 (s.buf b).blockno = (s.buf b).data
  root : ∀ t b, s.owner b = some t → (s.buf b).dev = ROOTDEV
  /-- The block of the first request exists. -/
  inRange : ∀ b ∈ q.head?, (s.buf b).blockno < FSSIZE
  unique : ∀ b b', (s.buf b).dev = ROOTDEV → (s.buf b').dev = ROOTDEV →
    (s.buf b).blockno = (s.buf b').blockno → b = b'
  working : Working s q

/-- The disk reports no error. -/
def Event.Fine : Event τ → Prop
  | .fail _ => False
  | _ => True

theorem Inv.init (disk : ℕ → Disk) (havedisk1 : Bool) :
    Inv (init disk havedisk1 : State τ) [] where
  chain := rfl
  nodup := List.nodup_nil
  want t b h := by cases h
  asleep t b h := by cases h
  waits t b h := by obtain h | h := h <;> cases h
  queued b h := by cases h
  served t b h := by cases h
  root t b h := by cases h
  inRange b hb := by cases hb
  unique b b' h := by cases h
  working := ⟨rfl, rfl⟩

/-! ### Changes by the owner of a buffer -/

/-- The buffer is in nobody's call of `iderw`. -/
def Free (s : State τ) (b : BufId) : Prop := ∀ t, s.thread t ≠ .want b ∧ ¬ Waits s t b

/-- `s'` differs from `s` in the buffer `b` and its owner only, and not in its place in the
queue. -/
structure DiffersAt (s s' : State τ) (b : BufId) : Prop where
  buf : ∀ b', b' ≠ b → s'.buf b' = s.buf b'
  owner : ∀ b', b' ≠ b → s'.owner b' = s.owner b'
  idequeue : s'.idequeue = s.idequeue
  device : s'.device = s.device
  thread : s'.thread = s.thread

section Step

variable {s s' : State τ} {q : List BufId} {t : τ} {b : BufId}

theorem Inv.free_of_none (h : Inv s q) (hb : s.owner b = none) : Free s b := fun t =>
  ⟨fun ht => by simpa [hb] using (h.want t b ht).1, fun ht => by simpa [hb] using h.waits t b ht⟩

theorem Inv.free_of_uses (h : Inv s q) (hb : s.Uses t b) : Free s b := by
  have key : ∀ t', s.owner b = some t' → s.thread t' = .out := by
    intro t' ht'
    obtain rfl : t = t' := Option.some.inj (hb.2.symm.trans ht')
    exact hb.1
  intro t'
  constructor
  · intro ht
    have := key t' (h.want t' b ht).1
    rw [ht] at this
    cases this
  · intro ht
    have := key t' (h.waits t' b ht)
    obtain ht | ht := ht <;> rw [ht] at this <;> cases this

theorem Inv.not_mem_of_free (h : Inv s q) (hb : Free s b) : b ∉ q := by
  intro hq
  obtain ⟨-, t, ht⟩ := h.queued b hq
  exact (hb t).2 ht

/-- **The owner changes its buffer**, or the buffer changes its owner. -/
theorem Inv.modify (h : Inv s q) (hb : Free s b) (hd : DiffersAt s s' b)
    (hroot : s'.owner b ≠ none → (s'.buf b).dev = ROOTDEV)
    (hunique : ∀ b', b' ≠ b → (s'.buf b).dev = ROOTDEV → (s.buf b').dev = ROOTDEV →
      (s'.buf b).blockno ≠ (s.buf b').blockno) :
    Inv s' q := by
  have hmem : ∀ b' ∈ q, b' ≠ b := fun b' hb' he => h.not_mem_of_free hb (he ▸ hb')
  have hwaits : ∀ t b', Waits s' t b' ↔ Waits s t b' := fun t b' => by
    rw [Waits, Waits, hd.thread]
  refine ⟨?_, h.nodup, fun t b' ht => ?_, fun t b' ht => ?_, fun t b' ht => ?_, fun b' hb' => ?_,
    fun t b' ht hb' => ?_, fun t b' ht => ?_, fun b' hb' => ?_, fun b₁ b₂ h₁ h₂ heq => ?_, ?_⟩
  · rw [hd.idequeue]
    refine h.chain.congr fun a ha => ?_
    rw [qnext, qnext, hd.buf a (hmem a ha)]
  · rw [hd.thread] at ht
    have hne : b' ≠ b := by rintro rfl; exact (hb t).1 ht
    rw [hd.buf b' hne, hd.owner b' hne]
    exact h.want t b' ht
  · rw [hd.thread] at ht
    exact h.asleep t b' ht
  · rw [hwaits] at ht
    have hne : b' ≠ b := by rintro rfl; exact (hb t).2 ht
    rw [hd.owner b' hne]
    exact h.waits t b' ht
  · rw [hd.buf b' (hmem b' hb')]
    obtain ⟨hsync, t, ht⟩ := h.queued b' hb'
    exact ⟨hsync, t, (hwaits t b').mpr ht⟩
  · rw [hd.thread] at ht
    have hne : b' ≠ b := by rintro rfl; exact (hb t).2 (.inr ht)
    rw [hd.buf b' hne, hd.device]
    exact h.served t b' ht hb'
  · by_cases hne : b' = b
    · subst hne
      exact hroot (by rw [ht]; nofun)
    · rw [hd.owner b' hne] at ht
      rw [hd.buf b' hne]
      exact h.root t b' ht
  · rw [hd.buf b' (hmem b' (List.mem_of_mem_head? hb'))]
    exact h.inRange b' hb'
  · by_cases hb₁ : b₁ = b <;> by_cases hb₂ : b₂ = b
    · rw [hb₁, hb₂]
    · subst hb₁
      rw [hd.buf b₂ hb₂] at h₂ heq
      exact absurd heq (hunique b₂ hb₂ h₁ h₂)
    · subst hb₂
      rw [hd.buf b₁ hb₁] at h₁ heq
      exact absurd heq.symm (hunique b₁ hb₁ h₂ h₁)
    · rw [hd.buf b₁ hb₁] at h₁ heq
      rw [hd.buf b₂ hb₂] at h₂ heq
      exact h.unique b₁ b₂ h₁ h₂ heq
  · have hw := h.working
    cases q with
    | nil =>
      rw [Working, hd.device]
      exact hw
    | cons a q =>
      rw [Working, Done, hd.device, hd.buf a (hmem a (List.mem_cons_self ..))]
      exact hw

/-! ### Processes that move -/

variable [DecidableEq τ]

@[simp] theorem setThread_self (p : Phase) : (s.setThread t p).thread t = p :=
  Function.update_self ..

theorem setThread_of_ne (p : Phase) {t' : τ} (h : t' ≠ t) :
    (s.setThread t p).thread t' = s.thread t' := Function.update_of_ne h ..

omit [DecidableEq τ] in
/-- The process that has the lock of a buffer is the only one in a call for it. -/
theorem Inv.caller_unique (h : Inv s q) {t' : τ} (hb : s.owner b = some t)
    (ht : s.thread t' = .want b ∨ Waits s t' b) : t' = t := by
  have ho : s.owner b = some t' := by
    obtain ht | ht := ht
    · exact (h.want t' b ht).1
    · exact h.waits t' b ht
  exact Option.some.inj (ho.symm.trans hb)

/-- A process moves on. What it has to show for its new place is `hnew`; what it leaves behind must
not be needed for a buffer in the queue, `hold`. -/
theorem Inv.setThread (h : Inv s q) {p : Phase}
    (hwant : ∀ b, p = .want b → s.owner b = some t ∧ ¬ (s.buf b).Synced ∧ b ∉ q)
    (hasleep : ∀ b, p = .asleep b → s.owner b = some t ∧ b ∈ q)
    (hwoken : ∀ b, p = .woken b → s.owner b = some t ∧ (b ∉ q →
      (s.buf b).Synced ∧ s.device.disk 1 (s.buf b).blockno = (s.buf b).data))
    (hold : ∀ b ∈ q, Waits s t b → p = .asleep b ∨ p = .woken b) :
    Inv (s.setThread t p) q := by
  -- for the others nothing changes
  have hthread : ∀ t', (t' = t ∧ (s.setThread t p).thread t' = p) ∨
      (s.setThread t p).thread t' = s.thread t' := by
    intro t'
    by_cases ht : t' = t
    · exact .inl ⟨ht, by rw [ht, setThread_self]⟩
    · exact .inr (setThread_of_ne p ht)
  refine ⟨h.chain, h.nodup, fun t' b ht => ?_, fun t' b ht => ?_, fun t' b ht => ?_,
    fun b hb => ?_, fun t' b ht hb => ?_, h.root, h.inRange, h.unique, ?_⟩
  · obtain ⟨rfl, hp⟩ | hp := hthread t'
    · exact hwant b (hp.symm.trans ht)
    · exact h.want t' b (hp ▸ ht)
  · obtain ⟨rfl, hp⟩ | hp := hthread t'
    · exact (hasleep b (hp.symm.trans ht)).2
    · exact h.asleep t' b (hp ▸ ht)
  · obtain ⟨rfl, hp⟩ | hp := hthread t'
    · obtain ht | ht := ht
      · exact (hasleep b (hp.symm.trans ht)).1
      · exact (hwoken b (hp.symm.trans ht)).1
    · rw [Waits, hp] at ht
      exact h.waits t' b ht
  · obtain ⟨hsync, t', ht⟩ := h.queued b hb
    refine ⟨hsync, t', ?_⟩
    obtain ⟨rfl, hp⟩ | hp := hthread t'
    · rw [Waits, hp]
      exact hold b hb ht
    · rw [Waits, hp]
      exact ht
  · obtain ⟨rfl, hp⟩ | hp := hthread t'
    · exact (hwoken b (hp.symm.trans ht)).2 hb
    · exact h.served t' b (hp ▸ ht) hb
  · have hw := h.working
    cases q with
    | nil => exact hw
    | cons a q => exact hw

/-- The checks at the start of `iderw`. -/
theorem Inv.iderw (h : Inv s q) (ht : s.thread t = .out) (hp : (s.iderw t b).panicked = false) :
    Inv (s.iderw t b) q := by
  have hno : ∀ b', ¬ Waits s t b' := by
    rintro b' (h | h) <;> rw [ht] at h <;> cases h
  rw [State.iderw] at hp ⊢
  split at hp
  · cases hp
  next howner =>
  rw [if_neg howner]
  have howner : s.owner b = some t := not_not.mp howner
  split at hp
  · cases hp
  next hsync =>
  rw [if_neg hsync]
  split at hp
  · cases hp
  next hdev =>
  rw [if_neg hdev]
  have hq : b ∉ q := h.not_mem_of_free (h.free_of_uses ⟨ht, howner⟩)
  refine h.setThread (fun b' hb' => ?_) nofun nofun fun b' _ hw => absurd hw (hno b')
  cases hb'
  exact ⟨howner, hsync, hq⟩

/-- One more round of the loop in which `iderw` sleeps. -/
theorem Inv.waitLoop (h : Inv s q) (ht : s.thread t = .woken b) : Inv (s.waitLoop t b) q := by
  have howner : s.owner b = some t := h.waits t b (.inr ht)
  have hother : ∀ b' ∈ q, Waits s t b' → b' = b := by
    rintro b' - (hw | hw) <;> rw [ht] at hw <;> cases hw
    rfl
  rw [State.waitLoop]
  split
  · next hsync =>
    refine h.setThread nofun nofun nofun fun b' hb' hw => ?_
    rw [hother b' hb' hw] at hb'
    exact absurd hsync (h.queued b hb').1
  · next hsync =>
    have hq : b ∈ q := by
      by_contra hq
      exact hsync (h.served t b ht hq).1
    refine h.setThread nofun (fun b' hb' => ?_) nofun fun b' hb' hw => ?_
    · cases hb'
      exact ⟨howner, hq⟩
    · rw [hother b' hb' hw]
      exact .inl rfl

theorem Inv.kill (h : Inv s q) (ht : s.thread t = .asleep b) :
    Inv (s.setThread t (.woken b)) q := by
  refine h.setThread nofun nofun (fun b' hb' => ?_) fun b' hb' hw => ?_
  · cases hb'
    exact ⟨h.waits t b (.inl ht), fun hq => absurd (h.asleep t b ht) hq⟩
  · obtain hw | hw := hw <;> rw [ht] at hw <;> cases hw
    exact .inr rfl

/-! ### Queueing -/

omit [DecidableEq τ] in
/-- The walk to the end of the queue. -/
theorem tail_eq {p : Option BufId} {l : List BufId} {fuel : ℕ}
    (h : Chain (qnext s) some none (s.deref p) l) (hf : l.length < fuel) :
    s.tail fuel p = some (l.getLast?.or p) := by
  induction l generalizing p fuel with
  | nil =>
    obtain ⟨fuel, rfl⟩ := Nat.exists_eq_succ_of_ne_zero (Nat.ne_of_gt hf)
    have hnil : s.deref p = none := h
    rw [State.tail, hnil]
    rfl
  | cons a l ih =>
    obtain ⟨fuel, rfl⟩ := Nat.exists_eq_succ_of_ne_zero (Nat.ne_of_gt (Nat.zero_lt_of_lt hf))
    rw [State.tail, h.1]
    change s.tail fuel (some a) = _
    rw [ih (p := some a) h.2 (Nat.lt_of_succ_lt_succ hf), List.getLast?_cons]
    cases l.getLast? <;> rfl

omit [DecidableEq τ] in
/-- The queue after `*pp = b`. -/
theorem chain_assign (h : Chain (qnext s) some none s.idequeue q) (hq : (q ++ [b]).Nodup)
    (hb : (s.buf b).qnext = none) :
    Chain (qnext (s.assign q.getLast? b)) some none (s.assign q.getLast? b).idequeue
    (q ++ [b]) := by
  induction q using List.reverseRecOn with
  | nil => exact ⟨rfl, hb⟩
  | append_singleton l x _ =>
    have hx : x ∉ l := fun hx =>
      List.disjoint_of_nodup_append (List.nodup_append.mp hq).1 hx (List.mem_singleton_self x)
    have hbx : b ≠ x := by
      rintro rfl
      exact List.disjoint_of_nodup_append hq (List.mem_append_right _ (List.mem_singleton_self b))
        (List.mem_singleton_self b)
    rw [List.getLast?_concat]
    refine Chain.snoc h (fun a ha => ?_) ?_ ?_
    · have hne : a ≠ x := by rintro rfl; exact hx ha
      simp [State.assign, qnext, setBuf, hne]
    · simp [State.assign, qnext, setBuf]
    · simpa [State.assign, qnext, setBuf, hbx] using hb

/-- The state of the driver with the buffer at the end of the queue. -/
def queue (s : State τ) (q : List BufId) (b : BufId) : State τ :=
  (s.setBuf b { s.buf b with qnext := none }).assign q.getLast? b

omit [DecidableEq τ] in
theorem queue_content (b' : BufId) :
    ((queue s q b).buf b').toContent = (s.buf b').toContent := by
  have hset : ∀ (u : State τ) (x : BufId) (p : Option BufId),
      ((u.setBuf x { u.buf x with qnext := p }).buf b').toContent = (u.buf b').toContent := by
    intro u x p
    by_cases h : b' = x
    · subst h; simp [setBuf]
    · simp [setBuf, h]
  unfold queue State.assign
  cases q.getLast? with
  | none => exact hset s b none
  | some x => exact (hset _ x (some b)).trans (hset s b none)

omit [DecidableEq τ] in
theorem queue_rest : (queue s q b).owner = s.owner ∧ (queue s q b).thread = s.thread ∧
    (queue s q b).device = s.device ∧ (queue s q b).panicked = s.panicked := by
  unfold queue State.assign
  cases q.getLast? <;> exact ⟨rfl, rfl, rfl, rfl⟩

omit [DecidableEq τ] in
/-- `idequeue == b` holds for the first buffer only. -/
theorem queue_idequeue (h : Chain (qnext s) some none s.idequeue q) (hb : b ∉ q) :
    (queue s q b).idequeue = some b ↔ q = [] := by
  cases q with
  | nil => exact ⟨fun _ => rfl, fun _ => rfl⟩
  | cons a l =>
    have hlast : (a :: l).getLast? = some (l.getLast?.getD a) := List.getLast?_cons
    have hab : a ≠ b := by rintro rfl; exact hb (List.mem_cons_self ..)
    simp only [queue, hlast, State.assign, setBuf, h.1, Option.some.injEq, hab, reduceCtorEq]

omit [DecidableEq τ] in
theorem Inv.chain_queue (h : Inv s q) (hb : b ∉ q) :
    (s.setBuf b { s.buf b with qnext := none }).tail NBUF none = some q.getLast? ∧
      Chain (qnext (queue s q b)) some none (queue s q b).idequeue (q ++ [b]) := by
  have hchain : Chain (qnext (s.setBuf b { s.buf b with qnext := none })) some none
      s.idequeue q := by
    refine h.chain.congr fun a ha => ?_
    have hne : a ≠ b := by rintro rfl; exact hb ha
    simp [qnext, setBuf, hne]
  have hlen : q.length < NBUF := by
    have := List.Nodup.length_le_card (List.nodup_cons.mpr ⟨hb, h.nodup⟩)
    rwa [List.length_cons, Fintype.card_fin] at this
  have hnodup : (q ++ [b]).Nodup := by
    rw [← List.concat_eq_append]
    exact h.nodup.concat hb
  refine ⟨?_, chain_assign hchain hnodup (by simp [setBuf])⟩
  rw [tail_eq (p := none) hchain hlen, Option.or_none]

omit [DecidableEq τ] in
/-- A waiting process has its buffer in the queue or finds it served. -/
theorem Inv.owner_of_mem (h : Inv s q) (hb : b ∈ q) : ∃ t, s.owner b = some t := by
  obtain ⟨-, t, ht⟩ := h.queued b hb
  exact ⟨t, h.waits t b ht⟩

/-- The invariant for the longer queue. -/
theorem Inv.append (h : Inv s q) (ht : s.thread t = .want b)
    (hbuf : ∀ b', (s'.buf b').toContent = (s.buf b').toContent) (howner : s'.owner = s.owner)
    (hthread : s'.thread = Function.update s.thread t (.asleep b))
    (hdisk : s'.device.disk = s.device.disk)
    (hchain : Chain (qnext s') some none s'.idequeue (q ++ [b])) (hworking : Working s' (q ++ [b]))
    (hrange : q = [] → (s.buf b).blockno < FSSIZE) : Inv s' (q ++ [b]) := by
  obtain ⟨hown, hsync, hq⟩ := h.want t b ht
  have hself : s'.thread t = .asleep b := by rw [hthread, Function.update_self]
  have hother : ∀ t', t' ≠ t → s'.thread t' = s.thread t' := fun t' hne => by
    rw [hthread, Function.update_of_ne hne]
  have hcall : ∀ t', s.thread t' = .want b ∨ Waits s t' b → t' = t := fun t' =>
    h.caller_unique hown
  have hmem : b ∈ q ++ [b] := List.mem_append_right _ (List.mem_singleton_self b)
  refine ⟨hchain, ?_, fun t' b' ht' => ?_, fun t' b' ht' => ?_, fun t' b' ht' => ?_,
    fun b' hb' => ?_, fun t' b' ht' hb' => ?_, fun t' b' ht' => ?_, fun b' hb' => ?_,
    fun b₁ b₂ h₁ h₂ heq => ?_, hworking⟩
  · rw [← List.concat_eq_append]
    exact h.nodup.concat hq
  · by_cases hne : t' = t
    · subst hne
      rw [hself] at ht'
      cases ht'
    · rw [hother t' hne] at ht'
      obtain ⟨h₁, h₂, h₃⟩ := h.want t' b' ht'
      rw [howner, hbuf]
      refine ⟨h₁, h₂, fun hb' => ?_⟩
      obtain hb' | hb' := List.mem_append.mp hb'
      · exact h₃ hb'
      · rw [List.mem_singleton] at hb'
        exact hne (hcall t' (.inl (hb' ▸ ht')))
  · by_cases hne : t' = t
    · subst hne
      rw [hself] at ht'
      cases ht'
      exact hmem
    · rw [hother t' hne] at ht'
      exact List.mem_append_left _ (h.asleep t' b' ht')
  · rw [howner]
    by_cases hne : t' = t
    · subst hne
      rw [Waits, hself] at ht'
      obtain ht' | ht' := ht' <;> cases ht'
      exact hown
    · rw [Waits, hother t' hne] at ht'
      exact h.waits t' b' ht'
  · rw [hbuf]
    obtain hb' | hb' := List.mem_append.mp hb'
    · obtain ⟨hs, t', ht'⟩ := h.queued b' hb'
      refine ⟨hs, t', ?_⟩
      have hne : t' ≠ t := by
        rintro rfl
        obtain ht' | ht' := ht' <;> rw [ht] at ht' <;> cases ht'
      rw [Waits, hother t' hne]
      exact ht'
    · rw [List.mem_singleton] at hb'
      subst hb'
      exact ⟨hsync, t, .inl hself⟩
  · by_cases hne : t' = t
    · subst hne
      rw [hself] at ht'
      cases ht'
    · rw [hother t' hne] at ht'
      rw [hbuf, hdisk]
      exact h.served t' b' ht' fun hb => hb' (List.mem_append_left _ hb)
  · rw [hbuf]
    rw [howner] at ht'
    exact h.root t' b' ht'
  · rw [hbuf]
    cases q with
    | nil =>
      cases hb'
      exact hrange rfl
    | cons a l => exact h.inRange b' hb'
  · rw [hbuf] at h₁ h₂ heq
    rw [hbuf] at heq
    exact h.unique b₁ b₂ h₁ h₂ heq

theorem enter_eq (htail : (s.setBuf b { s.buf b with qnext := none }).tail NBUF none =
      some q.getLast?) :
    s.enter t b =
      (if (queue s q b).idequeue = some b then (queue s q b).idestart b
        else some (queue s q b)).bind
          fun u => some (if u.panicked then u else u.waitLoop t b) := by
  rw [State.enter, htail]
  change (if (queue s q b).idequeue = some b then
      ((queue s q b).idestart b).bind fun u => some (if u.panicked then u else u.waitLoop t b)
    else (some (queue s q b)).bind fun u => some (if u.panicked then u else u.waitLoop t b)) = _
  split <;> rfl

/-- **`iderw` queues its buffer** and goes to sleep; the disk is started if it was idle. -/
theorem Inv.enter (h : Inv s q) (hp : s.panicked = false) (ht : s.thread t = .want b)
    (hst : s.enter t b = some s') (hp' : s'.panicked = false) :
    Inv s' (q ++ [b]) ∧ (∀ b', (s'.buf b').toContent = (s.buf b').toContent) ∧
      s'.device.disk = s.device.disk ∧ s'.thread = Function.update s.thread t (.asleep b) := by
  obtain ⟨hown, hsync, hq⟩ := h.want t b ht
  obtain ⟨htail, hchain⟩ := h.chain_queue hq
  obtain ⟨howner, hthread, hdev, hpan⟩ := @queue_rest _ s q b
  have hsync' : ¬ ((queue s q b).buf b).Synced := by
    rw [queue_content]
    exact hsync
  have hw := h.working
  -- the state in front of the loop, with the disk `d`
  obtain ⟨d, rfl, hdisk, hrange, hworking⟩ : ∃ d : Device,
      s' = ({ queue s q b with device := d } : State τ).setThread t (.asleep b) ∧
        d.disk = s.device.disk ∧ (q = [] → (s.buf b).blockno < FSSIZE) ∧
        Working (({ queue s q b with device := d } : State τ).setThread t (.asleep b))
          (q ++ [b]) := by
    rw [enter_eq htail] at hst
    simp only [queue_idequeue h.chain hq] at hst
    by_cases hnil : q = []
    · subst hnil
      have hidle : (queue s [] b).device.active = none := by rw [hdev]; exact hw.1
      have hrange : ¬ FSSIZE ≤ ((queue s [] b).buf b).blockno := by
        intro hle
        simp only [if_true, State.idestart, hle, State.panic, Option.bind_some,
          Option.some.injEq] at hst
        rw [← hst] at hp'
        cases hp'
      simp only [if_true, State.idestart, hrange, hidle, Option.isSome_none, Bool.false_eq_true,
        if_false, Option.bind_some, hpan, hp, State.waitLoop, hsync', Option.some.injEq] at hst
      refine ⟨{ (queue s [] b).device with
        active := some (command ((queue s [] b).buf b).toContent), err := false },
        by simp only [← hst, hpan, hp], by rw [hdev], fun _ => ?_, .inl ⟨rfl, ?_⟩⟩
      · rw [queue_content, not_le] at hrange
        exact hrange
      change (queue s [] b).device.irq = false
      rw [hdev]
      exact hw.2
    · simp only [hnil, if_false, Option.bind_some, hpan, hp, Bool.false_eq_true, State.waitLoop,
        hsync', Option.some.injEq] at hst
      refine ⟨(queue s q b).device, hst.symm, by rw [hdev], fun h => absurd h hnil, ?_⟩
      obtain ⟨a, l, rfl⟩ := List.exists_cons_of_ne_nil hnil
      have ha := @queue_content _ s (a :: l) b a
      simp only [Working, List.cons_append, Done, State.setThread, ha, hdev] at hw ⊢
      exact hw
  have hth : ((({ queue s q b with device := d } : State τ).setThread t (.asleep b)).thread =
      Function.update s.thread t (.asleep b)) := by
    rw [← hthread]
    rfl
  exact ⟨h.append ht queue_content howner hth hdisk hchain hworking hrange, queue_content, hdisk,
    hth⟩

/-! ### Serving -/

omit [DecidableEq τ] in
/-- The disk finishes. -/
theorem Inv.finish (h : Inv s q) {c : Command} (hc : s.device.active = some c) :
    Inv { s with device := s.device.finish c } q := by
  have hw := h.working
  cases q with
  | nil =>
    rw [hw.1] at hc
    cases hc
  | cons a l =>
    obtain ⟨hact, hirq⟩ | ⟨hact, -⟩ := hw
    swap
    · rw [hact] at hc
      cases hc
    obtain rfl : command (s.buf a).toContent = c := Option.some.inj (hact.symm.trans hc)
    obtain ⟨t₀, hown⟩ := h.owner_of_mem (List.mem_cons_self ..)
    have hroot := h.root t₀ a hown
    have hdrive := command_drive (h.inRange a rfl) hroot
    have hsector := command_sector (h.inRange a rfl)
    -- the command touches the block of `a` at most
    have hother : ∀ k, k ≠ (s.buf a).blockno →
        (s.device.finish (command (s.buf a).toContent)).disk 1 k = s.device.disk 1 k := by
      intro k hk
      simp only [Device.finish, Device.put, hdrive, hsector]
      split
      · rw [Function.update_self, Function.update_of_ne hk]
      · rfl
    refine ⟨h.chain, h.nodup, h.want, h.asleep, h.waits, h.queued, fun t b ht hb => ?_, h.root,
      h.inRange, h.unique, .inr ⟨rfl, rfl, rfl, ?_⟩⟩
    · obtain ⟨hsync, hdata⟩ := h.served t b ht hb
      refine ⟨hsync, ?_⟩
      have hne : (s.buf b).blockno ≠ (s.buf a).blockno := by
        intro heq
        obtain rfl := h.unique b a (h.root t b (h.waits t b (.inr ht))) hroot heq
        exact hb (List.mem_cons_self ..)
      exact (hother _ hne).trans hdata
    · have hwrite : (command (s.buf a).toContent).write = (s.buf a).dirty := rfl
      simp only [Done, Device.finish, Device.put, hdrive, hsector, hwrite]
      split
      · rw [Function.update_self, Function.update_self]
        rfl
      · rfl

omit [DecidableEq τ] in
/-- What `serve` makes of the first buffer. -/
theorem serve_self (hact : s.device.err = false) :
    ((s.serve b).buf b).toContent = { (s.buf b).toContent with
      valid := true
      dirty := false
      data := if (s.buf b).dirty = false then s.device.out else (s.buf b).data } := by
  simp [State.serve, setContent, setBuf, hact]

omit [DecidableEq τ] in
theorem serve_of_ne {b' : BufId} (h : b' ≠ b) : (s.serve b).buf b' = s.buf b' := by
  simp [State.serve, setContent, setBuf, h]

omit [DecidableEq τ] in
theorem serve_qnext : qnext (s.serve b) = qnext s := by
  funext b'
  by_cases h : b' = b
  · subst h
    simp [qnext, State.serve, setContent, setBuf]
  · simp only [qnext, serve_of_ne h]

omit [DecidableEq τ] in
theorem wake_eq_want {p : Phase} {b' : BufId} : p.wake b = .want b' ↔ p = .want b' := by
  unfold Phase.wake
  split
  · next h => subst h; exact ⟨nofun, nofun⟩
  · exact Iff.rfl

omit [DecidableEq τ] in
theorem wake_eq_asleep {p : Phase} {b' : BufId} :
    p.wake b = .asleep b' ↔ p = .asleep b' ∧ b' ≠ b := by
  unfold Phase.wake
  split
  · next h =>
    subst h
    refine ⟨nofun, ?_⟩
    rintro ⟨h, hne⟩
    cases h
    exact absurd rfl hne
  · next h =>
    refine ⟨?_, And.left⟩
    rintro rfl
    refine ⟨rfl, ?_⟩
    rintro rfl
    exact h rfl

omit [DecidableEq τ] in
theorem wake_eq_woken {p : Phase} {b' : BufId} :
    p.wake b = .woken b' ↔ p = .woken b' ∨ p = .asleep b' ∧ b' = b := by
  unfold Phase.wake
  split
  · next h =>
    subst h
    constructor
    · intro h
      cases h
      exact .inr ⟨rfl, rfl⟩
    · rintro (h | ⟨h, rfl⟩)
      · cases h
      · rfl
  · next h =>
    refine ⟨.inl, ?_⟩
    rintro (h' | ⟨rfl, rfl⟩)
    · exact h'
    · exact absurd rfl h

omit [DecidableEq τ] in
theorem waits_serve {t : τ} {b' : BufId} : Waits (s.serve b) t b' ↔ Waits s t b' := by
  have hthread : (s.serve b).thread t = (s.thread t).wake b := rfl
  rw [Waits, Waits, hthread, wake_eq_asleep, wake_eq_woken]
  constructor
  · rintro (⟨h, -⟩ | h | ⟨h, -⟩)
    · exact .inl h
    · exact .inr h
    · exact .inl h
  · rintro (h | h)
    · by_cases hb : b' = b
      · exact .inr (.inr ⟨h, hb⟩)
      · exact .inl ⟨h, hb⟩
    · exact .inr (.inl h)

omit [DecidableEq τ] in
/-- The invariant behind `wakeup(b)`, but for the disk. -/
theorem Inv.serve (h : Inv s (b :: q)) (hdone : s.device.err = false ∧ Done s b)
    (hworking : Working s' q) (hbuf : s'.buf = (s.serve b).buf) (howner : s'.owner = s.owner)
    (hqueue : s'.idequeue = (s.serve b).idequeue) (hthread : s'.thread = (s.serve b).thread)
    (hdisk : s'.device.disk = s.device.disk)
    (hrange : ∀ b' ∈ q.head?, (s.buf b').blockno < FSSIZE) : Inv s' q := by
  have hnodup := List.nodup_cons.mp h.nodup
  have hself := serve_self (b := b) hdone.1
  rw [← hbuf] at hself
  have hother : ∀ b', b' ≠ b → s'.buf b' = s.buf b' := fun b' hne => by
    rw [hbuf, serve_of_ne hne]
  have hwaits : ∀ t b', Waits s' t b' ↔ Waits s t b' := fun t b' => by
    rw [← @waits_serve _ s b t b', Waits, Waits, hthread]
  have hmem : ∀ b' ∈ q, b' ≠ b := fun b' hb' he => hnodup.1 (he ▸ hb')
  have hcontent : ∀ b', (s'.buf b').dev = (s.buf b').dev ∧
      (s'.buf b').blockno = (s.buf b').blockno := by
    intro b'
    by_cases hne : b' = b
    · subst hne
      rw [hself]
      exact ⟨rfl, rfl⟩
    · rw [hother b' hne]
      exact ⟨rfl, rfl⟩
  have hth : ∀ t, s'.thread t = (s.thread t).wake b := fun t => by rw [hthread]; rfl
  refine ⟨?_, hnodup.2, fun t b' ht => ?_, fun t b' ht => ?_, fun t b' ht => ?_, fun b' hb' => ?_,
    fun t b' ht hb' => ?_, fun t b' ht => ?_, fun b' hb' => ?_, fun b₁ b₂ h₁ h₂ heq => ?_, hworking⟩
  · rw [hqueue]
    refine h.chain.2.congr fun a _ => ?_
    rw [← @serve_qnext _ s b, qnext, qnext, hbuf]
  · rw [hth, wake_eq_want] at ht
    obtain ⟨h₁, h₂, h₃⟩ := h.want t b' ht
    have hne : b' ≠ b := by rintro rfl; exact h₃ (List.mem_cons_self ..)
    rw [howner, hother b' hne]
    exact ⟨h₁, h₂, fun hq => h₃ (List.mem_cons_of_mem _ hq)⟩
  · rw [hth, wake_eq_asleep] at ht
    exact (List.mem_cons.mp (h.asleep t b' ht.1)).resolve_left ht.2
  · rw [howner]
    exact h.waits t b' ((hwaits t b').mp ht)
  · rw [hother b' (hmem b' hb')]
    obtain ⟨hs, t, ht⟩ := h.queued b' (List.mem_cons_of_mem _ hb')
    exact ⟨hs, t, (hwaits t b').mpr ht⟩
  · by_cases hne : b' = b
    · subst hne
      refine ⟨by rw [hself]; exact ⟨rfl, rfl⟩, ?_⟩
      have hd := hdone.2
      rw [hself, hdisk]
      unfold Done at hd
      cases hdirty : (s.buf b').dirty with
      | true =>
        rw [hdirty, if_pos rfl] at hd
        simpa using hd
      | false =>
        rw [hdirty, if_neg nofun] at hd
        simpa using hd.symm
    · rw [hth, wake_eq_woken] at ht
      have ht : s.thread t = .woken b' := ht.resolve_right fun h => hne h.2
      rw [hother b' hne, hdisk]
      refine h.served t b' ht fun hq => ?_
      exact (List.mem_cons.mp hq).elim hne hb'
  · rw [(hcontent b').1]
    rw [howner] at ht
    exact h.root t b' ht
  · rw [(hcontent b').2]
    exact hrange b' hb'
  · rw [(hcontent b₁).1] at h₁
    rw [(hcontent b₂).1] at h₂
    rw [(hcontent b₁).2, (hcontent b₂).2] at heq
    exact h.unique b₁ b₂ h₁ h₂ heq

omit [DecidableEq τ] in
/-- **The interrupt** takes the first buffer off and starts the disk on the next. -/
theorem Inv.ideintr (h : Inv s q) (hirq : s.device.irq = true)
    (hst : ({ s with device := { s.device with irq := false } } : State τ).ideintr = some s')
    (hp' : s'.panicked = false) :
    ∃ b l, q = b :: l ∧ s.idequeue = some b ∧ Inv s' l ∧
      (s.device.err = false ∧ Done s b) ∧ s'.buf = (s.serve b).buf ∧
      s'.device.disk = s.device.disk ∧ s'.thread = (s.serve b).thread := by
  have hw := h.working
  cases q with
  | nil =>
    rw [hw.2] at hirq
    cases hirq
  | cons b l =>
    obtain ⟨-, hno⟩ | ⟨hact, -, herr, hdone⟩ := hw
    · rw [hno] at hirq
      cases hirq
    obtain ⟨u, hu⟩ : ∃ u : State τ, u = { s with device := { s.device with irq := false } } :=
      ⟨_, rfl⟩
    have hbuf : (u.serve b).buf = (s.serve b).buf := by rw [hu]; rfl
    have hthread : (u.serve b).thread = (s.serve b).thread := by rw [hu]; rfl
    have hdev : (u.serve b).device = { s.device with irq := false } := by rw [hu]; rfl
    have hqueue : (u.serve b).idequeue = qnext s b := by rw [hu]; rfl
    have hidle : u.device.active = none := by rw [hu]; exact hact
    have hfirst : u.idequeue = some b := by rw [hu]; exact h.chain.1
    rw [← hu, State.ideintr, hfirst] at hst
    simp only [hidle, Option.isSome_none, Bool.false_eq_true, and_false, if_false] at hst
    have hchain := h.chain.2
    cases l with
    | nil =>
      have hnone : (u.serve b).idequeue = none := hqueue.trans hchain
      rw [hnone] at hst
      cases hst
      have hdisk : (u.serve b).device.disk = s.device.disk := by rw [hdev]
      refine ⟨b, [], rfl, h.chain.1, ?_, ⟨herr, hdone⟩, hbuf, hdisk, hthread⟩
      refine h.serve ⟨herr, hdone⟩ ?_ hbuf (by rw [hu]; rfl) hqueue hthread hdisk nofun
      rw [Working, hdev]
      exact ⟨hact, rfl⟩
    | cons a l =>
      have hsome : (u.serve b).idequeue = some a := hqueue.trans hchain.1
      have hne : a ≠ b := by
        rintro rfl
        exact (List.nodup_cons.mp h.nodup).1 (List.mem_cons_self ..)
      have hidle' : (u.serve b).device.active = none := by rw [hdev]; exact hact
      have hdisk : (u.serve b).device.disk = s.device.disk := by rw [hdev]
      rw [hsome] at hst
      change (u.serve b).idestart a = _ at hst
      rw [State.idestart] at hst
      split at hst
      · cases hst
        cases hp'
      next hrange =>
      rw [hidle'] at hst
      cases hst
      refine ⟨b, a :: l, rfl, h.chain.1, ?_, ⟨herr, hdone⟩, hbuf, hdisk, hthread⟩
      refine h.serve ⟨herr, hdone⟩ (.inl ⟨rfl, ?_⟩) hbuf (by rw [hu]; rfl) hqueue hthread hdisk ?_
      · change (u.serve b).device.irq = false
        rw [hdev]
      · intro b' hb'
        cases hb'
        rw [hbuf, serve_of_ne hne, not_le] at hrange
        exact hrange

/-! ### Other steps -/

theorem panicked_of_step {e : Event τ} (h : step s e = some s') : s.panicked = false := by
  by_contra hp
  rw [Bool.not_eq_false] at hp
  unfold step at h
  rw [if_pos hp] at h
  cases h

omit [DecidableEq τ] in
/-- A change that the owner makes to the contents only. -/
theorem Inv.setContent (h : Inv s q) (hu : s.Uses t b) {x : Content}
    (hdev : x.dev = (s.buf b).dev) (hno : x.blockno = (s.buf b).blockno) :
    Inv (s.setContent b x) q := by
  have hself : ((s.setContent b x).buf b).toContent = x := by simp [State.setContent, setBuf]
  refine h.modify (h.free_of_uses hu) ⟨fun b' hne => ?_, fun _ _ => rfl, rfl, rfl, rfl⟩ ?_ ?_
  · simp [State.setContent, setBuf, hne]
  · intro _
    rw [hself, hdev]
    exact h.root t b hu.2
  · intro b' hne hx hb' heq
    rw [hself] at hx heq
    exact hne (h.unique b b' (hdev ▸ hx) hb' (hno ▸ heq)).symm

end Step

end Ide

end Xv6
