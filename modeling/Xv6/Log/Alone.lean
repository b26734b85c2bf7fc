import Xv6.Log.Cache

/-!
# A process that is alone in the buffer cache

When nobody else uses the cache, a process that holds few buffers while few are dirty always gets
the next one: `bget` finds a buffer to recycle, and nobody has it locked. `Alone` is that
situation. Recovery runs in it, and so does a process that fills the log while all the others sleep.

## Main results

* `Alone.bread` — `bread` succeeds
* `Alone.brelse` — `brelse` succeeds
-/

namespace Xv6

namespace Log

open State

theorem CacheStep.trans {s s' s'' : State} (h : CacheStep s s') (h' : CacheStep s' s'') :
    CacheStep s s'' where
  disk := h'.disk.trans h.disk
  lh := h'.lh.trans h.lh
  outstanding := h'.outstanding.trans h.outstanding
  committing := h'.committing.trans h.committing
  ops := h'.ops.trans h.ops
  code := h'.code.trans h.code
  up := h'.up.trans h.up
  cache := h'.cache
  coherent L hc := h'.coherent L (h.coherent L hc)
  dirty i := by
    refine ⟨(h'.dirty i).1.trans (h.dirty i).1, fun hd => ?_⟩
    rw [(h'.dirty i).2 ((h.dirty i).1.trans hd), (h.dirty i).2 hd]
  touched x hx ht := h.touched x (h'.touched x hx ht) ht

theorem CacheInv.hold_eq {s : State} (hs : CacheInv s) {x : Hold} (hx : x ∈ s.holds) :
    s.hold x.pid x.block = some x := by
  cases hf : s.hold x.pid x.block with
  | none =>
    have := List.find?_eq_none.mp hf x hx
    simp at this
  | some y =>
    obtain ⟨hy, hp, hb⟩ := mem_of_hold hf
    rw [hs.key_inj hy hx hp hb]

/-- The dirty buffers. -/
def dirtyBufs (s : State) : Finset BufId := Finset.univ.filter fun i => (s.bufs i).dirty = true

/-- Process `p` is alone in the cache and has the blocks `bs` locked, unchanged since it read or
logged them. -/
structure Alone (p : Pid) (bs : List ℕ) (s : State) : Prop where
  cache : CacheInv s
  panic : s.panic = none
  nodup : bs.Nodup
  held : ∀ h ∈ s.holds, h.pid = p ∧ h.phase = .held ∧ h.block ∈ bs
  mem : ∀ b ∈ bs, ∃ h ∈ s.holds, h.block = b
  length : s.holds.length ≤ bs.length

namespace Alone

variable {s s' : State} {p : Pid} {bs : List ℕ} {b : ℕ}

theorem congr (h : Alone p bs s) (hmru : s'.mru = s.mru) (hbufs : s'.bufs = s.bufs)
    (hholds : s'.holds = s.holds) (hpanic : s'.panic = s.panic) : Alone p bs s' where
  cache := h.cache.congr hmru hbufs hholds
  panic := hpanic.trans h.panic
  nodup := h.nodup
  held := by rw [hholds]; exact h.held
  mem := by rw [hholds]; exact h.mem
  length := by rw [hholds]; exact h.length

theorem hold_eq_none (h : Alone p bs s) (hb : b ∉ bs) : s.hold p b = none := by
  rw [State.hold, List.find?_eq_none]
  intro x hx
  have := (h.held x hx).2.2
  simp only [decide_eq_true_eq, not_and]
  rintro - rfl
  exact hb this

theorem hold_eq_some (h : Alone p bs s) (hb : b ∈ bs) :
    ∃ x, s.hold p b = some x ∧ x ∈ s.holds ∧ x.pid = p ∧ x.block = b ∧ x.phase = .held := by
  obtain ⟨x, hx, rfl⟩ := h.mem b hb
  obtain ⟨hp, hph, -⟩ := h.held x hx
  exact ⟨x, hp ▸ h.cache.hold_eq hx, hx, hp, rfl, hph⟩

/-- Some buffer can be recycled. -/
theorem victim_ne_none (h : Alone p bs s) (hlen : bs.length + (dirtyBufs s).card < NBUF) :
    s.victim ≠ none := by
  obtain ⟨i, hi, hd⟩ : ∃ i, (s.bufs i).refcnt = 0 ∧ (s.bufs i).dirty = false := by
    by_contra hall
    have hsub : (Finset.univ : Finset BufId) ⊆ (s.holds.map Hold.buf).toFinset ∪ dirtyBufs s := by
      intro i _
      rw [Finset.mem_union]
      by_cases hd : (s.bufs i).dirty = true
      · exact Or.inr (by simp [dirtyBufs, hd])
      · have hi : (s.bufs i).refcnt ≠ 0 := fun hi => hall ⟨i, hi, by simpa using hd⟩
        rw [h.cache.refcnt, ← Nat.pos_iff_ne_zero, List.countP_pos_iff] at hi
        obtain ⟨x, hx, hxi⟩ := hi
        exact Or.inl (List.mem_toFinset.mpr (List.mem_map.mpr ⟨x, hx, by simpa using hxi⟩))
    have hcard := (Finset.card_le_card hsub).trans (Finset.card_union_le _ _)
    have hholds := List.toFinset_card_le (s.holds.map Hold.buf)
    rw [List.length_map] at hholds
    rw [Finset.card_univ, Fintype.card_fin] at hcard
    have := h.length
    omega
  intro hv
  have := List.find?_eq_none.mp hv i (List.mem_reverse.mpr (h.cache.mem_mru i))
  simp [hi, hd] at this

/-! ### `bread` -/

theorem exists_bget_eq (h : Alone p bs s) (hlen : bs.length + (dirtyBufs s).card < NBUF) (b : ℕ) :
    ∃ i, (s.bget p b).holds = ⟨p, b, i, .waiting⟩ :: s.holds ∧ (s.bget p b).panic = none := by
  unfold State.bget
  cases s.lookup b with
  | some i => exact ⟨i, rfl, h.panic⟩
  | none =>
    cases hv : s.victim with
    | some i => exact ⟨i, rfl, h.panic⟩
    | none => exact absurd hv (h.victim_ne_none hlen)

/-- A buffer that is not locked is locked, and read if need be. -/
theorem exists_acquire_eq {x : Hold} (howner : (s.bufs x.buf).owner = none)
    (hlt : x.block < FSSIZE) : ∃ s', s.acquire x = some s' ∧
      s'.holds = (s.setPhase x .held).holds ∧ s'.panic = s.panic := by
  unfold State.acquire
  dsimp only
  rw [if_neg (not_not.mpr howner)]
  split
  · exact ⟨_, rfl, rfl, rfl⟩
  · rw [if_neg (Nat.not_le.mpr hlt)]
    exact ⟨_, rfl, rfl, rfl⟩

/-- A process that is alone gets the buffer of the next block. -/
theorem bread (h : Alone p bs s) (hb : b ∉ bs) (hlt : b < FSSIZE)
    (hlen : bs.length + (dirtyBufs s).card < NBUF) : ∃ x s', (s.bget p b).hold p b = some x ∧
      x.phase = .waiting ∧ (s.bget p b).panic = none ∧ (s.bget p b).acquire x = some s' ∧
      CacheStep s s' ∧ Alone p (b :: bs) s' := by
  have hget := cacheStep_bget h.cache (h.hold_eq_none hb)
  obtain ⟨i, hholds, hpanic⟩ := h.exists_bget_eq hlen b
  set s₁ := s.bget p b
  have hx : (⟨p, b, i, .waiting⟩ : Hold) ∈ s₁.holds := by rw [hholds]; exact List.mem_cons_self
  -- the only user of the buffer is the process itself, and it waits
  have howner : (s₁.bufs i).owner = none := by
    by_contra hne
    obtain ⟨q, hq⟩ := Option.ne_none_iff_exists'.mp hne
    obtain ⟨y, hy, hyi, hl⟩ := hget.cache.owned i q hq
    have hblock := hget.cache.hold_block y hy
    rw [hyi, hget.cache.hold_block _ hx] at hblock
    rw [hholds, List.mem_cons] at hy
    rcases hy with rfl | hy
    · simp [Phase.locked] at hl
    · have hyb : b = y.block := Option.some.inj hblock
      exact hb (hyb ▸ (h.held y hy).2.2)
  obtain ⟨s', hs', hholds', hpanic'⟩ := exists_acquire_eq (x := ⟨p, b, i, .waiting⟩) howner hlt
  have hacq := cacheStep_acquire hget.cache hx rfl hs'
  refine ⟨_, s', hget.cache.hold_eq hx, rfl, hpanic, hs', hget.trans hacq, hacq.cache,
    hpanic'.trans hpanic, List.nodup_cons.mpr ⟨hb, h.nodup⟩, ?_, ?_, ?_⟩
  · intro y hy
    rw [hholds', mem_setPhase hx, hholds, List.mem_cons] at hy
    obtain rfl | ⟨rfl | hy, hne⟩ := hy
    · exact ⟨rfl, rfl, List.mem_cons_self⟩
    · exact absurd rfl hne
    · obtain ⟨hp, hph, hmem⟩ := h.held y hy
      exact ⟨hp, hph, List.mem_cons_of_mem _ hmem⟩
  · intro c hc
    rw [hholds']
    rcases List.mem_cons.mp hc with rfl | hc
    · exact ⟨_, (mem_setPhase hx).mpr (Or.inl rfl), rfl⟩
    · obtain ⟨y, hy, rfl⟩ := h.mem c hc
      refine ⟨y,
        (mem_setPhase hx).mpr (Or.inr ⟨by rw [hholds]; exact List.mem_cons_of_mem _ hy, ?_⟩), rfl⟩
      rintro rfl
      exact hb hc
  · rw [hholds', setPhase, List.length_map, hholds]
    simpa using h.length

/-! ### `brelse` -/

/-- A process that is alone gives a buffer back. -/
theorem brelse (h : Alone p bs s) (hb : b ∈ bs) : ∃ x y, s.hold p b = some x ∧ x.phase = .held ∧
    (s.release x).hold p b = some y ∧ y.phase = .released ∧
    CacheStep s ((s.release x).drop y) ∧ Alone p (bs.erase b) ((s.release x).drop y) := by
  obtain ⟨x, hhold, hx, hp, rfl, hph⟩ := h.hold_eq_some hb
  have hrel := cacheStep_release h.cache hx hph
  have hmem : ∀ {z}, z ∈ (s.release x).holds ↔
      z = { x with phase := .released } ∨ (z ∈ s.holds ∧ z ≠ x) :=
      mem_setPhase (s := s.setBuf ..) hx
  have hy : { x with phase := .released } ∈ (s.release x).holds := hmem.mpr (Or.inl rfl)
  have hdrop := cacheStep_drop hrel.cache hy rfl
  refine ⟨x, { x with phase := .released }, hhold, hph, ?_, rfl, hrel.trans hdrop, hdrop.cache,
    h.panic, h.nodup.erase _, ?_, ?_, ?_⟩
  · rw [← hp]
    exact hrel.cache.hold_eq hy
  · intro z hz
    have hne : z ≠ { x with phase := .released } := by
      rintro rfl
      exact List.Nodup.not_mem_erase (List.Nodup.of_map _ hrel.cache.keys) hz
    obtain ⟨hz, hzx⟩ := (hmem.mp (List.mem_of_mem_erase hz)).resolve_left hne
    obtain ⟨hzp, hzph, hzb⟩ := h.held z hz
    refine ⟨hzp, hzph, (List.mem_erase_of_ne fun hblock => hzx ?_).mpr hzb⟩
    exact h.cache.key_inj hz hx (hzp.trans hp.symm) hblock
  · intro c hc
    obtain ⟨hne, hc⟩ := (h.nodup.mem_erase_iff).mp hc
    obtain ⟨z, hz, rfl⟩ := h.mem c hc
    refine ⟨z, (List.mem_erase_of_ne fun heq => hne ?_).mpr (hmem.mpr (Or.inr ⟨hz, ?_⟩)), rfl⟩
    · rw [heq]
    · rintro rfl
      exact hne rfl
  · have hlen : ((s.release x).drop { x with phase := .released }).holds.length =
        s.holds.length - 1 := by
      rw [State.drop, List.length_erase_of_mem hy, release, setPhase, List.length_map]
      rfl
    rw [hlen, List.length_erase_of_mem hb]
    have := h.length
    omega

end Alone

end Log

end Xv6
