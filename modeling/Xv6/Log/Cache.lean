import Xv6.Log.Machine

/-!
# The buffer cache

What `bget`, `bread` and `brelse` keep true: a block is cached in at most one buffer, a buffer in
use is not recycled, and at most one process has a buffer locked. On top of it stands the contract
that the log relies on: a buffer that nobody is changing holds the block of the disk, or, while it
is dirty, the block as it was last logged.

The four steps of `bread` and `brelse` are the same for every caller. `CacheStep` says what they
leave alone, so that the invariants of the log need not look at them one by one.

## Main definitions

* `CacheInv` — the invariant of the cache
* `Coherent` — what the buffers hold
* `CacheStep` — the steps of `bread` and `brelse`

## Main results

* `cacheStep_bget`, `cacheStep_acquire`, `cacheStep_release`, `cacheStep_drop`
-/

namespace Xv6

namespace Log

open State

/-- The phases in which the sleep-lock is held. -/
def Phase.locked : Phase → Bool
  | .held | .modified | .checked => true
  | _ => false

/-- The phases in which the contents may not be what was read or logged. -/
def Phase.touched : Phase → Bool
  | .modified | .checked => true
  | _ => false

/-- A process uses a block only once at a time. -/
def Hold.key (h : Hold) : Pid × ℕ := (h.pid, h.block)

/-- The invariant of the cache. -/
structure CacheInv (s : State) : Prop where
  /-- Every buffer is in the list. -/
  mem_mru : ∀ i, i ∈ s.mru
  /-- A block has at most one buffer. -/
  block_inj : ∀ i j b, (s.bufs i).block = some b → (s.bufs j).block = some b → i = j
  /-- A buffer in use caches the block it was got for. -/
  hold_block : ∀ h ∈ s.holds, (s.bufs h.buf).block = some h.block
  keys : (s.holds.map Hold.key).Nodup
  /-- `refcnt` counts the users. -/
  refcnt : ∀ i, (s.bufs i).refcnt = s.holds.countP fun h => h.buf = i
  owner : ∀ h ∈ s.holds, h.phase.locked → (s.bufs h.buf).owner = some h.pid
  owned : ∀ i p, (s.bufs i).owner = some p → ∃ h ∈ s.holds, h.buf = i ∧ h.phase.locked
  valid : ∀ h ∈ s.holds, h.phase.locked → (s.bufs h.buf).valid = true
  dirty_valid : ∀ i, (s.bufs i).dirty = true → (s.bufs i).valid = true
  /-- Only blocks of the disk are read. -/
  valid_lt : ∀ i b, (s.bufs i).block = some b → (s.bufs i).valid = true → b < FSSIZE

/-- Nobody is changing the contents of a buffer. -/
def Untouched (s : State) (i : BufId) : Prop := ∀ h ∈ s.holds, h.buf = i → h.phase.touched = false

/-- A buffer that nobody is changing holds the block of the disk, or the logged contents `L` if it
is dirty. -/
def Coherent (s : State) (L : ℕ → Block) : Prop :=
  ∀ i b, (s.bufs i).block = some b → (s.bufs i).valid = true → Untouched s i →
    (s.bufs i).data = if (s.bufs i).dirty then L b else s.disk b

theorem boot_cacheInv (d : Disk) : CacheInv (boot d) where
  mem_mru i := by simp [boot]
  block_inj i j b h := by cases h
  hold_block h hh := by cases hh
  keys := by simp [boot]
  refcnt i := rfl
  owner h hh := by cases hh
  owned i p h := by cases h
  valid h hh := by cases hh
  dirty_valid i h := by cases h
  valid_lt i b h := by cases h

/-- The invariant is about the buffers and their users only. -/
theorem CacheInv.congr {s s' : State} (hs : CacheInv s) (hmru : s'.mru = s.mru)
    (hbufs : s'.bufs = s.bufs) (hholds : s'.holds = s.holds) : CacheInv s' := by
  constructor <;> (try rw [hmru]) <;> (try rw [hbufs]) <;> (try rw [hholds])
  exacts [hs.1, hs.2, hs.3, hs.4, hs.5, hs.6, hs.7, hs.8, hs.9, hs.10]

theorem boot_coherent (d : Disk) (L : ℕ → Block) : Coherent (boot d) L := by
  intro i b h
  cases h

/-! ### Finding the buffers of a process -/

theorem mem_of_hold {s : State} {p : Pid} {b : ℕ} {h : Hold} (hh : s.hold p b = some h) :
    h ∈ s.holds ∧ h.pid = p ∧ h.block = b :=
  ⟨List.mem_of_find?_eq_some hh, by simpa using List.find?_some hh⟩

theorem withHold_eq_some {s s' : State} {p : Pid} {b : ℕ} {phs : List Phase}
    {k : Hold → Option State} : s.withHold p b phs k = some s' ↔
      ∃ h, s.hold p b = some h ∧ h.phase ∈ phs ∧ k h = some s' := by
  rw [withHold, Option.bind_eq_some_iff]
  refine exists_congr fun h => and_congr_right fun _ => ?_
  by_cases hp : h.phase ∈ phs <;> simp [hp]

theorem lookup_spec {s : State} (hs : CacheInv s) (b : ℕ) :
    match s.lookup b with
    | some i => (s.bufs i).block = some b
    | none => ∀ i, (s.bufs i).block ≠ some b := by
  unfold lookup
  cases hf : s.mru.find? fun i => (s.bufs i).block = some b with
  | some i => simpa using List.find?_some hf
  | none => exact fun i => by simpa using List.find?_eq_none.mp hf i (hs.mem_mru i)

theorem victim_eq_some {s : State} {i : BufId} (h : s.victim = some i) :
    (s.bufs i).refcnt = 0 ∧ (s.bufs i).dirty = false := by
  simpa using List.find?_some h

theorem CacheInv.key_inj {s : State} (hs : CacheInv s) {h h' : Hold} (hh : h ∈ s.holds)
    (hh' : h' ∈ s.holds) (hp : h.pid = h'.pid) (hb : h.block = h'.block) : h = h' :=
  List.inj_on_of_nodup_map hs.keys hh hh' (Prod.ext hp hb)

/-- At most one process has a buffer locked. -/
theorem CacheInv.locked_inj {s : State} (hs : CacheInv s) {h h' : Hold} (hh : h ∈ s.holds)
    (hh' : h' ∈ s.holds) (hbuf : h.buf = h'.buf) (hl : h.phase.locked) (hl' : h'.phase.locked) :
    h = h' := by
  have ho := hs.owner h hh hl
  have hb := hs.hold_block h hh
  rw [hbuf] at ho hb
  refine hs.key_inj hh hh' ?_ ?_
  · exact Option.some.inj (ho.symm.trans (hs.owner h' hh' hl'))
  · exact Option.some.inj (hb.symm.trans (hs.hold_block h' hh'))

/-- A buffer with reference count `0` is in nobody's hands. -/
theorem CacheInv.buf_ne {s : State} (hs : CacheInv s) {i : BufId} (hi : (s.bufs i).refcnt = 0)
    {h : Hold} (hh : h ∈ s.holds) : h.buf ≠ i := by
  rw [hs.refcnt, List.countP_eq_zero] at hi
  simpa using hi h hh

/-- A buffer that its user has locked but not changed is untouched. -/
theorem CacheInv.untouched {s : State} (hs : CacheInv s) {h : Hold} (hh : h ∈ s.holds)
    (hp : h.phase = .held) : Untouched s h.buf := by
  intro h' hh' hbuf
  cases ht : h'.phase.touched with
  | false => rfl
  | true =>
    have hl : h'.phase.locked = true := by
      revert ht
      cases h'.phase <;> simp [Phase.touched, Phase.locked]
    obtain rfl := hs.locked_inj hh' hh hbuf hl (by rw [hp]; rfl)
    rw [hp] at ht
    cases ht

/-! ### Changing the phase of a hold -/

theorem mem_setPhase {s : State} {h h' : Hold} {ph : Phase} (hh : h ∈ s.holds) :
    h' ∈ (s.setPhase h ph).holds ↔ h' = { h with phase := ph } ∨ (h' ∈ s.holds ∧ h' ≠ h) := by
  simp only [setPhase, List.mem_map]
  constructor
  · rintro ⟨x, hx, rfl⟩
    by_cases hxh : x = h
    · exact Or.inl (by rw [if_pos hxh])
    · exact Or.inr (by rw [if_neg hxh]; exact ⟨hx, hxh⟩)
  · rintro (rfl | ⟨hx, hne⟩)
    · exact ⟨h, hh, by rw [if_pos rfl]⟩
    · exact ⟨h', hx, by rw [if_neg hne]⟩

theorem keys_setPhase (s : State) (h : Hold) (ph : Phase) :
    (s.setPhase h ph).holds.map Hold.key = s.holds.map Hold.key := by
  rw [setPhase, List.map_map]
  refine List.map_congr_left fun x _ => ?_
  by_cases hx : x = h
  · subst hx; simp [Hold.key]
  · simp [hx]

theorem countP_setPhase (s : State) (h : Hold) (ph : Phase) (i : BufId) :
    ((s.setPhase h ph).holds.countP fun h => h.buf = i) = s.holds.countP fun h => h.buf = i := by
  rw [setPhase, List.countP_map]
  refine List.countP_congr fun x _ => ?_
  by_cases hx : x = h
  · subst hx; simp
  · simp [hx]

/-! ### The steps of `bread` and `brelse` -/

/-- What a step of `bread` or `brelse` does, seen from the log. -/
structure CacheStep (s s' : State) : Prop where
  disk : s'.disk = s.disk
  lh : s'.lh = s.lh
  outstanding : s'.outstanding = s.outstanding
  committing : s'.committing = s.committing
  ops : s'.ops = s.ops
  code : s'.code = s.code
  up : s'.up = s.up
  cache : CacheInv s'
  coherent : ∀ L, Coherent s L → Coherent s' L
  /-- No buffer becomes dirty, and no dirty buffer is recycled. -/
  dirty : ∀ i, (s'.bufs i).dirty = (s.bufs i).dirty ∧
    ((s.bufs i).dirty = true → (s'.bufs i).block = (s.bufs i).block)
  touched : ∀ h ∈ s'.holds, h.phase.touched = true → h ∈ s.holds

/-- Coherence does not depend on owners and reference counts. -/
theorem Coherent.congr {s s' : State} {L : ℕ → Block} (hc : Coherent s L)
    (hdisk : s'.disk = s.disk)
    (hbuf : ∀ i, (s'.bufs i).valid = true → (s'.bufs i).block = (s.bufs i).block ∧
      (s'.bufs i).dirty = (s.bufs i).dirty ∧ (s.bufs i).valid = true ∧
      (s'.bufs i).data = (s.bufs i).data)
    (hun : ∀ i, Untouched s' i → Untouched s i) : Coherent s' L := by
  intro i b hb hv hu
  obtain ⟨h₁, h₂, h₃, h₄⟩ := hbuf i hv
  rw [h₄, h₂, hdisk]
  exact hc i b (h₁ ▸ hb) h₃ (hun i hu)

theorem cacheStep_fail {s : State} (hs : CacheInv s) (m : Panic) : CacheStep s (s.fail m) where
  disk := rfl
  lh := rfl
  outstanding := rfl
  committing := rfl
  ops := rfl
  code := rfl
  up := rfl
  cache := hs.congr rfl rfl rfl
  coherent _ hc := hc
  dirty _ := ⟨rfl, fun _ => rfl⟩
  touched _ hh _ := hh

private theorem nodup_keys_cons {s : State} (hs : CacheInv s) {p : Pid} {b : ℕ}
    (hkey : s.hold p b = none) (i : BufId) :
    ((⟨p, b, i, .waiting⟩ :: s.holds : List Hold).map Hold.key).Nodup := by
  rw [List.map_cons, List.nodup_cons]
  refine ⟨fun hmem => ?_, hs.keys⟩
  obtain ⟨h, hh, hk⟩ := List.mem_map.mp hmem
  have := List.find?_eq_none.mp hkey h hh
  simp only [Hold.key, Prod.mk.injEq] at hk
  simp [hk] at this

/-- The first loop of `bget` finds the block. -/
private theorem cacheStep_bget_hit {s : State} (hs : CacheInv s) {p : Pid} {b : ℕ} {i : BufId}
    (hkey : s.hold p b = none) (hi : (s.bufs i).block = some b) :
    CacheStep s { s.setBuf i { s.bufs i with refcnt := (s.bufs i).refcnt + 1 } with
      holds := ⟨p, b, i, .waiting⟩ :: s.holds } := by
  have hbuf : ∀ j,
      ((Function.update s.bufs i { s.bufs i with refcnt := (s.bufs i).refcnt + 1 }) j) =
      { s.bufs j with refcnt := if j = i then (s.bufs j).refcnt + 1 else (s.bufs j).refcnt } := by
    intro j
    by_cases hj : j = i
    · subst hj; simp
    · simp [hj]
  refine ⟨rfl, rfl, rfl, rfl, rfl, rfl, rfl, ?_, fun L hc => ?_, fun j => ?_, fun h hh ht => ?_⟩
  · constructor
    · exact hs.mem_mru
    · intro j k c
      simp only [setBuf, hbuf]
      exact hs.block_inj j k c
    · intro h hh
      simp only [setBuf, hbuf]
      rcases List.mem_cons.mp hh with rfl | hh
      · exact hi
      · exact hs.hold_block h hh
    · exact nodup_keys_cons hs hkey i
    · intro j
      simp only [setBuf, hbuf, List.countP_cons, hs.refcnt j, eq_comm (a := i)]
      split <;> simp [*]
    · intro h hh hl
      simp only [setBuf, hbuf]
      rcases List.mem_cons.mp hh with rfl | hh
      · cases hl
      · exact hs.owner h hh hl
    · intro j q ho
      simp only [setBuf, hbuf] at ho
      obtain ⟨h, hh, hrest⟩ := hs.owned j q ho
      exact ⟨h, List.mem_cons_of_mem _ hh, hrest⟩
    · intro h hh hl
      simp only [setBuf, hbuf]
      rcases List.mem_cons.mp hh with rfl | hh
      · cases hl
      · exact hs.valid h hh hl
    · intro j
      simp only [setBuf, hbuf]
      exact hs.dirty_valid j
    · intro j c
      simp only [setBuf, hbuf]
      exact hs.valid_lt j c
  · refine hc.congr rfl (fun j hv => ?_) fun j hu h hh => hu h (List.mem_cons_of_mem _ hh)
    simpa [setBuf, hbuf] using hv
  · simp [setBuf, hbuf]
  · rcases List.mem_cons.mp hh with rfl | hh
    · cases ht
    · exact hh

/-- The second loop of `bget` recycles a buffer. -/
private theorem cacheStep_bget_miss {s : State} (hs : CacheInv s) {p : Pid} {b : ℕ} {i : BufId}
    (hkey : s.hold p b = none) (hb : ∀ j, (s.bufs j).block ≠ some b)
    (hi : (s.bufs i).refcnt = 0 ∧ (s.bufs i).dirty = false) :
    CacheStep s { s.setBuf i { s.bufs i with
        block := some b, valid := false, dirty := false, refcnt := 1 } with
      holds := ⟨p, b, i, .waiting⟩ :: s.holds } := by
  have hne : ∀ h ∈ s.holds, h.buf ≠ i := fun h hh => hs.buf_ne hi.1 hh
  refine ⟨rfl, rfl, rfl, rfl, rfl, rfl, rfl, ?_, fun L hc => ?_, fun j => ?_, fun h hh ht => ?_⟩
  · constructor
    · exact hs.mem_mru
    · intro j k c hj hk
      by_cases hji : j = i <;> by_cases hki : k = i
      · rw [hji, hki]
      · simp [setBuf, hji, hki] at hj hk
        exact absurd (hj ▸ hk) (hb k)
      · simp [setBuf, hji, hki] at hj hk
        exact absurd (hk ▸ hj) (hb j)
      · simp [setBuf, hji, hki] at hj hk
        exact hs.block_inj j k c hj hk
    · intro h hh
      rcases List.mem_cons.mp hh with rfl | hh
      · simp [setBuf]
      · simp [setBuf, hne h hh, hs.hold_block h hh]
    · exact nodup_keys_cons hs hkey i
    · intro j
      by_cases hji : j = i
      · subst hji
        have := hs.refcnt j
        rw [hi.1] at this
        simp [setBuf, ← this]
      · simp [setBuf, hji, Ne.symm hji, hs.refcnt j]
    · intro h hh hl
      rcases List.mem_cons.mp hh with rfl | hh
      · cases hl
      · simp [setBuf, hne h hh, hs.owner h hh hl]
    · intro j q ho
      have ho' : (s.bufs j).owner = some q := by
        by_cases hji : j = i
        · subst hji; simpa [setBuf] using ho
        · simpa [setBuf, hji] using ho
      obtain ⟨h, hh, hrest⟩ := hs.owned j q ho'
      exact ⟨h, List.mem_cons_of_mem _ hh, hrest⟩
    · intro h hh hl
      rcases List.mem_cons.mp hh with rfl | hh
      · cases hl
      · simp [setBuf, hne h hh, hs.valid h hh hl]
    · intro j hd
      by_cases hji : j = i
      · subst hji; simp [setBuf] at hd
      · simp [setBuf, hji] at hd ⊢
        exact hs.dirty_valid j hd
    · intro j c hc hv
      by_cases hji : j = i
      · subst hji; simp [setBuf] at hv
      · simp [setBuf, hji] at hc hv
        exact hs.valid_lt j c hc hv
  · refine hc.congr rfl (fun j hv => ?_) fun j hu h hh => hu h (List.mem_cons_of_mem _ hh)
    by_cases hji : j = i
    · subst hji; simp [setBuf] at hv
    · simpa [setBuf, hji] using hv
  · by_cases hji : j = i
    · subst hji; simp [setBuf, hi.2]
    · simp [setBuf, hji]
  · rcases List.mem_cons.mp hh with rfl | hh
    · cases ht
    · exact hh

theorem cacheStep_bget {s : State} (hs : CacheInv s) {p : Pid} {b : ℕ} (hkey : s.hold p b = none) :
    CacheStep s (s.bget p b) := by
  have hspec := lookup_spec hs b
  unfold State.bget
  cases hl : s.lookup b with
  | some i =>
    rw [hl] at hspec
    exact cacheStep_bget_hit hs hkey hspec
  | none =>
    rw [hl] at hspec
    cases hv : s.victim with
    | some i => exact cacheStep_bget_miss hs hkey hspec (victim_eq_some hv)
    | none => exact cacheStep_fail hs .noBuffers

/-- The user of a buffer that nobody else has locked changes the buffer and its own phase. -/
theorem CacheInv.update {s : State} (hs : CacheInv s) {h : Hold} (hh : h ∈ s.holds) (k : Buf)
    (ph : Phase)
    (hother : ∀ h' ∈ s.holds, h' ≠ h → h'.buf = h.buf → h'.phase.locked = false)
    (hblock : k.block = (s.bufs h.buf).block) (hrefcnt : k.refcnt = (s.bufs h.buf).refcnt)
    (howner : k.owner = if ph.locked then some h.pid else none)
    (hvalid : ph.locked = true → k.valid = true) (hdirty : k.dirty = true → k.valid = true)
    (hlt : k.valid = true → h.block < FSSIZE) : CacheInv ((s.setBuf h.buf k).setPhase h ph) := by
  have hmem : ∀ {h'}, h' ∈ ((s.setBuf h.buf k).setPhase h ph).holds ↔
      h' = { h with phase := ph } ∨ (h' ∈ s.holds ∧ h' ≠ h) := mem_setPhase (s := s.setBuf ..) hh
  have hself : ((s.setBuf h.buf k).setPhase h ph).bufs h.buf = k := by simp [setPhase, setBuf]
  have hne : ∀ {i}, i ≠ h.buf → ((s.setBuf h.buf k).setPhase h ph).bufs i = s.bufs i := by
    intro i hi
    simp [setPhase, setBuf, hi]
  have hbl : ∀ i, (((s.setBuf h.buf k).setPhase h ph).bufs i).block = (s.bufs i).block := by
    intro i
    by_cases hi : i = h.buf
    · rw [hi, hself, hblock]
    · rw [hne hi]
  -- another user that has its buffer locked has a different buffer
  have hlocked : ∀ {h'}, h' ∈ s.holds → h' ≠ h → h'.phase.locked = true → h'.buf ≠ h.buf := by
    intro h' hx hxh hl heq
    rw [hother h' hx hxh heq] at hl
    cases hl
  constructor
  · exact hs.mem_mru
  · intro i j c hi hj
    rw [hbl] at hi hj
    exact hs.block_inj i j c hi hj
  · intro h' hh'
    rw [hbl]
    rcases hmem.mp hh' with rfl | ⟨hx, -⟩
    · exact hs.hold_block h hh
    · exact hs.hold_block h' hx
  · rw [keys_setPhase]
    exact hs.keys
  · intro i
    rw [countP_setPhase]
    by_cases hi : i = h.buf
    · rw [hi, hself, hrefcnt]; exact hs.refcnt h.buf
    · rw [hne hi]; exact hs.refcnt i
  · intro h' hh' hl
    rcases hmem.mp hh' with rfl | ⟨hx, hxh⟩
    · rw [hself, howner, if_pos hl]
    · rw [hne (hlocked hx hxh hl)]
      exact hs.owner h' hx hl
  · intro i q hq
    by_cases hi : i = h.buf
    · rw [hi, hself, howner] at hq
      refine ⟨_, hmem.mpr (Or.inl rfl), hi.symm, ?_⟩
      by_contra hl
      rw [if_neg hl] at hq
      cases hq
    · rw [hne hi] at hq
      obtain ⟨h', hx, hbuf, hl⟩ := hs.owned i q hq
      refine ⟨h', hmem.mpr (Or.inr ⟨hx, ?_⟩), hbuf, hl⟩
      rintro rfl
      exact hi hbuf.symm
  · intro h' hh' hl
    rcases hmem.mp hh' with rfl | ⟨hx, hxh⟩
    · rw [hself]
      exact hvalid hl
    · rw [hne (hlocked hx hxh hl)]
      exact hs.valid h' hx hl
  · intro i hd
    by_cases hi : i = h.buf
    · rw [hi, hself] at hd ⊢
      exact hdirty hd
    · rw [hne hi] at hd ⊢
      exact hs.dirty_valid i hd
  · intro i c hc hv
    by_cases hi : i = h.buf
    · rw [hi, hself] at hc hv
      rw [hblock, hs.hold_block h hh] at hc
      exact Option.some.inj hc ▸ hlt hv
    · rw [hne hi] at hc hv
      exact hs.valid_lt i c hc hv

/-- Unless its user was changing it, a buffer is as untouched as before. -/
theorem untouched_of_setPhase {s : State} {h : Hold} {k : Buf} {ph : Phase} (hh : h ∈ s.holds)
    {i : BufId} (hp : h.phase.touched = true → i ≠ h.buf)
    (hu : Untouched ((s.setBuf h.buf k).setPhase h ph) i) : Untouched s i := by
  intro h' hh' hi
  by_cases hne : h' = h
  · subst hne
    by_contra ht
    exact hp (by simpa using ht) hi.symm
  · exact hu h' ((mem_setPhase (s := s.setBuf ..) hh).mpr (Or.inr ⟨hh', hne⟩)) hi

/-- A step that changes the owner of a buffer, and reads it if it was not valid. -/
private theorem cacheStep_update {s : State} (hs : CacheInv s) {h : Hold} (hh : h ∈ s.holds)
    (hp : h.phase.touched = false) {k : Buf} {ph : Phase} (hph : ph.touched = false)
    (hblock : k.block = (s.bufs h.buf).block) (hdirty : k.dirty = (s.bufs h.buf).dirty)
    (hcache : CacheInv ((s.setBuf h.buf k).setPhase h ph))
    (hdata : (s.bufs h.buf).valid = true ∧ k.data = (s.bufs h.buf).data ∨
      (s.bufs h.buf).valid = false ∧ k.data = s.disk h.block) :
    CacheStep s ((s.setBuf h.buf k).setPhase h ph) := by
  have hself : ((s.setBuf h.buf k).setPhase h ph).bufs h.buf = k := by simp [setPhase, setBuf]
  have hne : ∀ {i}, i ≠ h.buf → ((s.setBuf h.buf k).setPhase h ph).bufs i = s.bufs i := by
    intro i hi
    simp [setPhase, setBuf, hi]
  refine ⟨rfl, rfl, rfl, rfl, rfl, rfl, rfl, hcache, fun L hc => ?_, fun i => ?_,
    fun h' hh' ht => ?_⟩
  · intro i b hb hv hu
    have hu : Untouched s i := untouched_of_setPhase hh (by rw [hp]; nofun) hu
    by_cases hi : i = h.buf
    · subst hi
      rw [hself] at hb ⊢
      rw [hblock] at hb
      rw [hdirty]
      rcases hdata with ⟨hvalid, heq⟩ | ⟨hvalid, heq⟩
      · rw [heq]
        exact hc h.buf b hb hvalid hu
      · have hclean : (s.bufs h.buf).dirty = false := by
          by_contra hd
          rw [hs.dirty_valid _ (by simpa using hd)] at hvalid
          cases hvalid
        obtain rfl : h.block = b := Option.some.inj ((hs.hold_block h hh).symm.trans hb)
        rw [heq, hclean]
        rfl
    · rw [hne hi] at hb hv ⊢
      exact hc i b hb hv hu
  · by_cases hi : i = h.buf
    · rw [hi, hself]
      exact ⟨hdirty, fun _ => hblock⟩
    · rw [hne hi]
      exact ⟨rfl, fun _ => rfl⟩
  · rcases (mem_setPhase (s := s.setBuf ..) hh).mp hh' with rfl | ⟨hx, -⟩
    · rw [hph] at ht
      cases ht
    · exact hx

theorem cacheStep_acquire {s s' : State} (hs : CacheInv s) {h : Hold} (hh : h ∈ s.holds)
    (hp : h.phase = .waiting) (ha : s.acquire h = some s') : CacheStep s s' := by
  unfold State.acquire at ha
  dsimp only at ha
  split at ha
  · cases ha
  next ho =>
  have hother : ∀ h' ∈ s.holds, h' ≠ h → h'.buf = h.buf → h'.phase.locked = false := by
    intro h' hx _ heq
    by_contra hl
    have := hs.owner h' hx (by simpa using hl)
    rw [heq, not_not.mp ho] at this
    cases this
  have ht : h.phase.touched = false := by rw [hp]; rfl
  split at ha
  · next hv =>
    cases ha
    exact cacheStep_update hs hh ht rfl rfl rfl
      (hs.update hh _ _ hother rfl rfl rfl (fun _ => hv) (fun _ => hv)
        fun _ => hs.valid_lt _ _ (hs.hold_block h hh) hv) (Or.inl ⟨hv, rfl⟩)
  · next hv =>
    split at ha
    · cases ha; exact cacheStep_fail hs .incorrectBlockno
    · next hlt =>
      cases ha
      exact cacheStep_update hs hh ht rfl rfl rfl
        (hs.update hh _ _ hother rfl rfl rfl (fun _ => rfl) (fun _ => rfl) fun _ => not_le.mp hlt)
        (Or.inr ⟨by simpa using hv, rfl⟩)

/-- Nobody else has locked a buffer that its user has locked. -/
theorem CacheInv.other_unlocked {s : State} (hs : CacheInv s) {h : Hold} (hh : h ∈ s.holds)
    (hl : h.phase.locked = true) :
    ∀ h' ∈ s.holds, h' ≠ h → h'.buf = h.buf → h'.phase.locked = false := by
  intro h' hx hne heq
  by_contra hl'
  exact hne (hs.locked_inj hx hh heq (by simpa using hl') hl)

theorem cacheStep_release {s : State} (hs : CacheInv s) {h : Hold} (hh : h ∈ s.holds)
    (hp : h.phase = .held) : CacheStep s (s.release h) := by
  have hl : h.phase.locked = true := by rw [hp]; rfl
  have hv := hs.valid h hh hl
  exact cacheStep_update hs hh (by rw [hp]; rfl) rfl rfl rfl
    (hs.update hh _ _ (hs.other_unlocked hh hl) rfl rfl rfl nofun (fun _ => hv)
      fun _ => hs.valid_lt _ _ (hs.hold_block h hh) hv) (Or.inl ⟨hv, rfl⟩)

theorem cacheStep_drop {s : State} (hs : CacheInv s) {h : Hold} (hh : h ∈ s.holds)
    (hp : h.phase = .released) : CacheStep s (s.drop h) := by
  have hbuf : ∀ i, (s.drop h).bufs i =
      { s.bufs i with
        refcnt := if i = h.buf then (s.bufs i).refcnt - 1 else (s.bufs i).refcnt } := by
    intro i
    by_cases hi : i = h.buf
    · subst hi; simp [State.drop, setBuf]
    · simp [State.drop, setBuf, hi]
  have hsub : ∀ h' ∈ (s.drop h).holds, h' ∈ s.holds := fun h' => List.mem_of_mem_erase
  -- only a hold that is not locked disappears
  have hkeep : ∀ h' ∈ s.holds, h' = h ∨ h' ∈ (s.drop h).holds := by
    intro h' hx
    by_cases hne : h' = h
    · exact Or.inl hne
    · exact Or.inr ((List.mem_erase_of_ne hne).mpr hx)
  refine ⟨rfl, rfl, rfl, rfl, rfl, rfl, rfl, ?_, fun L hc => ?_, fun j => ?_, fun h' hh' _ =>
    hsub h' hh'⟩
  · constructor
    · intro i
      have hi := hs.mem_mru i
      simp only [State.drop]
      split
      · by_cases hih : i = h.buf
        · exact List.mem_cons.mpr (Or.inl hih)
        · exact List.mem_cons_of_mem _ ((List.mem_erase_of_ne hih).mpr hi)
      · exact hi
    · intro i j c
      rw [hbuf, hbuf]
      exact hs.block_inj i j c
    · intro h' hh'
      rw [hbuf]
      exact hs.hold_block h' (hsub h' hh')
    · exact hs.keys.sublist ((List.erase_sublist ..).map _)
    · intro i
      rw [hbuf]
      have hcount := (List.perm_cons_erase hh).countP_eq fun h => h.buf = i
      rw [List.countP_cons, ← hs.refcnt i] at hcount
      change (if i = h.buf then _ else _) = (s.holds.erase h).countP _
      by_cases hih : i = h.buf
      · rw [if_pos (by simpa using hih.symm)] at hcount
        rw [if_pos hih, hcount, Nat.add_sub_cancel]
      · rw [if_neg (by simpa using Ne.symm hih)] at hcount
        rw [if_neg hih, hcount, Nat.add_zero]
    · intro h' hh' hl
      rw [hbuf]
      exact hs.owner h' (hsub h' hh') hl
    · intro i q hq
      rw [hbuf] at hq
      obtain ⟨h', hx, hb, hl⟩ := hs.owned i q hq
      rcases hkeep h' hx with rfl | hx
      · rw [hp] at hl; cases hl
      · exact ⟨h', hx, hb, hl⟩
    · intro h' hh' hl
      rw [hbuf]
      exact hs.valid h' (hsub h' hh') hl
    · intro i
      rw [hbuf]
      exact hs.dirty_valid i
    · intro i c
      rw [hbuf]
      exact hs.valid_lt i c
  · refine hc.congr rfl (fun j hv => ?_) fun j hu h' hx hj => ?_
    · rw [hbuf] at hv ⊢
      exact ⟨rfl, rfl, hv, rfl⟩
    · rcases hkeep h' hx with rfl | hx
      · rw [hp]; rfl
      · exact hu h' hx hj
  · rw [hbuf]
    exact ⟨rfl, fun _ => rfl⟩

/-! ### Changing the contents of a buffer -/

theorem setPhase_self {s : State} {h : Hold} {ph : Phase} (hp : h.phase = ph) :
    s.setPhase h ph = s := by
  have : (s.holds.map fun h' => if h' = h then { h with phase := ph } else h') = s.holds := by
    refine (List.map_congr_left fun x _ => ?_).trans (List.map_id _)
    by_cases hx : x = h
    · subst hx; simp [← hp]
    · simp [hx]
  rw [setPhase, this]

/-- Coherence when one user changes its buffer and its phase, and the logged contents of that block
change with it. -/
theorem Coherent.update {s : State} {L L' : ℕ → Block} (hc : Coherent s L) (hs : CacheInv s)
    {h : Hold} (hh : h ∈ s.holds) (k : Buf) (ph : Phase)
    (hblock : k.block = (s.bufs h.buf).block)
    (hdata : ph.touched = true ∨ k.data = if k.dirty then L' h.block else s.disk h.block)
    (hL : ∀ b, b ≠ h.block → L' b = L b) : Coherent ((s.setBuf h.buf k).setPhase h ph) L' := by
  intro i b hb hv hu
  by_cases hi : i = h.buf
  · have hself : ((s.setBuf h.buf k).setPhase h ph).bufs i = k := by simp [setPhase, setBuf, hi]
    rw [hself] at hb ⊢
    rw [hblock, hs.hold_block h hh] at hb
    cases hb
    refine hdata.resolve_left fun ht => ?_
    have :=
      hu { h with phase := ph } ((mem_setPhase (s := s.setBuf ..) hh).mpr (Or.inl rfl)) hi.symm
    rw [ht] at this
    cases this
  · have hne : ((s.setBuf h.buf k).setPhase h ph).bufs i = s.bufs i := by
      simp [setPhase, setBuf, hi]
    rw [hne] at hb hv ⊢
    have hbh : b ≠ h.block := by
      rintro rfl
      exact hi (hs.block_inj i h.buf _ hb (hs.hold_block h hh))
    rw [hL b hbh]
    exact hc i b hb hv (untouched_of_setPhase hh (fun _ => hi) hu)

theorem CacheInv.bwrite {s : State} (hs : CacheInv s) {h : Hold} (hh : h ∈ s.holds)
    (hp : h.phase = .held) (data : Block) : CacheInv (s.bwrite h data) := by
  have hl : h.phase.locked = true := by rw [hp]; rfl
  have hv := hs.valid h hh hl
  have := hs.update hh { s.bufs h.buf with data := data, dirty := false, valid := true } .held
    (hs.other_unlocked hh hl) rfl rfl
    (hs.owner h hh hl) (fun _ => rfl) (fun _ => rfl)
    fun _ => hs.valid_lt _ _ (hs.hold_block h hh) hv
  rw [setPhase_self (s := s.setBuf ..) hp] at this
  exact this.congr rfl rfl rfl

theorem Coherent.bwrite {s : State} {L : ℕ → Block} (hc : Coherent s L) (hs : CacheInv s) {h : Hold}
    (hh : h ∈ s.holds) (data : Block) : Coherent (s.bwrite h data) L := by
  intro i b hb hv hu
  by_cases hi : i = h.buf
  · subst hi
    have hbh : (s.bufs h.buf).block = some b := by simpa [State.bwrite, setBuf] using hb
    rw [hs.hold_block h hh] at hbh
    cases hbh
    simp [State.bwrite, setBuf]
  · have hb : (s.bufs i).block = some b := by simpa [State.bwrite, setBuf, hi] using hb
    have hbh : b ≠ h.block := by
      rintro rfl
      exact hi (hs.block_inj i h.buf _ hb (hs.hold_block h hh))
    have hv : (s.bufs i).valid = true := by simpa [State.bwrite, setBuf, hi] using hv
    simpa [State.bwrite, setBuf, hi, hbh] using hc i b hb hv hu

end Log

end Xv6
