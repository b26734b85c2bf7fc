import Xv6.Log.Stage

/-!
# The invariant of the log

At each moment the disk, the cache and the header in memory are tied to the history of the run. The
stage (`Stage`) says how far a commit or the recovery at boot has come; between two commits it is
`quiet` and processes may write. Blocks in the header are pinned in the cache by their dirty
buffers, so their contents reach the disk only through the commit.

A transaction can fill the whole header: the two tests of `log_write` are made without the lock, so
several processes can pass them at once. Its `LOGSIZE` blocks then occupy all `NBUF` buffers and the
commit finds no buffer for the first block of the log. So a commit that gets anywhere has a
transaction that fits the log area (`length_lt_of_clean`).

## Main definitions

* `durable` — how many groups recovery brings back, at each stage
* `Inv` — the invariant

## Main results

* `Inv.kernel`, `Inv.call` — it is kept by the steps of `commit` and `recover_from_log` and by
  system calls
* `Inv.of_run` — it holds along every run without a crash
-/

namespace Xv6

namespace Log

open State Transition

/-- How many groups recovery brings back. -/
def durable (st : Stage) (h : History) : ℕ :=
  match st with
  | .start | .writing _ => h.groups.length - 1
  | _ => h.groups.length

/-- The contents that these groups lead to. -/
def settled (base : ℕ → Block) (st : Stage) (h : History) : ℕ → Block :=
  apply base (h.groups.take (durable st h)).flatten

/-- Process `p` is in `commit` or in `recover_from_log`. -/
structure Busy (cf : Conf) (st : Stage) (s : State) (h : History) (p : Pid) (fin : Instr) :
    Prop where
  others : ∀ q, q ≠ p → s.code q = []
  code : At cf fin s.lh st (s.code p)
  ops : s.ops = []
  cur : h.cur = []
  kind : (fin = .endCommit ∧ s.committing = true ∧ s.up = true ∧ h.groups ≠ []) ∨
    (fin = .initDone ∧ s.committing = false ∧ s.up = false)

/-- Nobody is in `commit` or in `recover_from_log`. -/
structure Idle (s : State) : Prop where
  code : ∀ p, s.code p = []
  up : s.up = true
  committing : s.committing = false

/-- The invariant, at a stage. -/
structure Inv (cf : Conf) (base : ℕ → Block) (st : Stage) (s : State) (h : History) : Prop where
  cache : CacheInv s
  coherent : Coherent s (logical base h)
  /-- A buffer is changed only inside a section, and only for blocks outside the log. -/
  touched : ∀ x ∈ s.holds, x.phase.touched = true → x.pid ∈ s.ops ∧ cf.Outside x.block
  nodup_ops : s.ops.Nodup
  outstanding : s.outstanding = s.ops.length
  sections : Sections s h
  nodup : s.lh.Nodup
  outside : ∀ b ∈ s.lh, cf.Outside b ∧ b < FSSIZE
  /-- Dirty buffers are those of logged blocks that are not in place yet. -/
  dirty : ∀ i, (s.bufs i).dirty = true → ∃ b ∈ st.pending s.lh, (s.bufs i).block = some b
  /-- Until the header is written, every logged block is in the cache. -/
  pinned : st.early = true → ∀ b ∈ s.lh, ∃ i, (s.bufs i).block = some b ∧ (s.bufs i).dirty = true
  unlogged : st.early = true → ∀ b ∉ s.lh, logical base h b = settled base st h b
  disk : DiskAt cf st s.lh s.disk (settled base st h) (logical base h)
  thread : (st = .quiet ∧ Idle s) ∨ ∃ p fin, Busy cf st s h p fin
  returned : h.returned ≤ durable st h

section

variable {cf : Conf} {base : ℕ → Block} {st : Stage} {s s' : State} {h : History}

/-! ### Consequences -/

theorem logical_of_cur_nil (hc : h.cur = []) (hst : st ≠ .start) (hw : ∀ t, st ≠ .writing t) :
    logical base h = settled base st h := by
  have hd : durable st h = h.groups.length := by
    cases st with
    | start => exact absurd rfl hst
    | writing t => exact absurd rfl (hw t)
    | _ => rfl
  rw [settled, hd, List.take_length, logical, hc, List.append_nil]

/-- Whenever power fails, recovery brings back a prefix of the groups. -/
theorem Inv.view_eq (hi : Inv cf base st s h) : HeaderOk cf s.disk ∧
    ∀ b, cf.Outside b → view cf s.disk b = settled base st h b := by
  obtain ⟨hok, hview⟩ := hi.disk.view_eq hi.nodup hi.outside
  refine ⟨hok, fun b hb => ?_⟩
  rw [hview b hb]
  split
  · rfl
  · next he =>
    -- from the header on, nothing is logged beyond the groups
    rcases hi.thread with ⟨rfl, -⟩ | ⟨p, fin, hbusy⟩
    · exact absurd rfl he
    · rw [logical_of_cur_nil hbusy.cur]
      · rintro rfl; exact he rfl
      · rintro t rfl; exact he rfl

/-- Only one process is in `commit` or in `recover_from_log`. -/
theorem Inv.busy (hi : Inv cf base st s h) {p : Pid} (hp : s.code p ≠ []) :
    ∃ fin, Busy cf st s h p fin := by
  rcases hi.thread with ⟨-, hidle⟩ | ⟨q, fin, hbusy⟩
  · exact absurd (hidle.code p) hp
  · by_cases hpq : p = q
    · exact ⟨fin, hpq ▸ hbusy⟩
    · exact absurd (hbusy.others p hpq) hp

/-- While a section is open, nobody is in `commit`. -/
theorem Inv.quiet_of_mem_ops (hi : Inv cf base st s h) {p : Pid} (hp : p ∈ s.ops) :
    st = .quiet ∧ Idle s := by
  rcases hi.thread with hq | ⟨q, fin, hbusy⟩
  · exact hq
  · rw [hbusy.ops] at hp
    cases hp

/-- While a process commits or recovers, no buffer is being changed. -/
theorem Inv.data_eq (hi : Inv cf base st s h) {x : Hold} (hx : x ∈ s.holds) (hp : x.phase = .held) :
    (s.bufs x.buf).data =
      if (s.bufs x.buf).dirty then logical base h x.block else s.disk x.block :=
  hi.coherent x.buf x.block (hi.cache.hold_block x hx) (hi.cache.valid x hx (by rw [hp]; rfl))
    (hi.cache.untouched hx hp)

/-- With a clean buffer in the cache, the transaction does not fill the header. -/
theorem Inv.length_lt_of_clean (hi : Inv cf base st s h) (he : st.early = true) {i : BufId}
    (hclean : (s.bufs i).dirty = false) : s.lh.length < LOGSIZE := by
  have hsub : s.lh.toFinset ⊆
      (Finset.univ.erase i).image fun j => ((s.bufs j).block).getD 0 := by
    intro b hb
    obtain ⟨j, hj, hd⟩ := hi.pinned he b (List.mem_toFinset.mp hb)
    refine Finset.mem_image.mpr ⟨j, Finset.mem_erase.mpr ⟨?_, Finset.mem_univ j⟩, by rw [hj]; rfl⟩
    rintro rfl
    rw [hclean] at hd
    cases hd
  have hcard := (Finset.card_le_card hsub).trans Finset.card_image_le
  rw [List.toFinset_card_of_nodup hi.nodup, Finset.card_erase_of_mem (Finset.mem_univ i),
    Finset.card_univ, Fintype.card_fin] at hcard
  have : NBUF = LOGSIZE := rfl
  have := LOGSIZE_eq
  omega

/-! ### Steps of `bread` and `brelse` -/

theorem Inv.cacheStep (hi : Inv cf base st s h) (hc : CacheStep s s') : Inv cf base st s' h where
  cache := hc.cache
  coherent := hc.coherent _ hi.coherent
  touched x hx ht := by
    rw [hc.ops]
    exact hi.touched x (hc.touched x hx ht) ht
  nodup_ops := by rw [hc.ops]; exact hi.nodup_ops
  outstanding := by rw [hc.ops, hc.outstanding]; exact hi.outstanding
  sections := hi.sections.congr (by rw [hc.ops]; exact fun p hp => hp) rfl rfl rfl rfl
  nodup := by rw [hc.lh]; exact hi.nodup
  outside := by rw [hc.lh]; exact hi.outside
  dirty i hd := by
    rw [(hc.dirty i).1] at hd
    rw [hc.lh, (hc.dirty i).2 hd]
    exact hi.dirty i hd
  pinned he b hb := by
    rw [hc.lh] at hb
    obtain ⟨i, hib, hd⟩ := hi.pinned he b hb
    exact ⟨i, by rw [(hc.dirty i).2 hd, hib], by rw [(hc.dirty i).1, hd]⟩
  unlogged he b hb := by rw [hc.lh] at hb; exact hi.unlogged he b hb
  disk := by rw [hc.disk, hc.lh]; exact hi.disk
  thread := by
    rcases hi.thread with ⟨hq, hidle⟩ | ⟨p, fin, hb⟩
    · exact Or.inl ⟨hq, by rw [hc.code]; exact hidle.code, by rw [hc.up]; exact hidle.up,
        by rw [hc.committing]; exact hidle.committing⟩
    · exact Or.inr ⟨p, fin, by rw [hc.code]; exact hb.others, by rw [hc.code, hc.lh]; exact hb.code,
        by rw [hc.ops]; exact hb.ops, hb.cur, by rw [hc.committing, hc.up]; exact hb.kind⟩
  returned := hi.returned

/-! ### Steps of `commit` and `recover_from_log` -/

/-- The invariant after a step of the busy process that has changed neither the users of the cache
nor the sections. -/
theorem Inv.busyStep (hi : Inv cf base st s h) {p : Pid} {fin : Instr} (hb : Busy cf st s h p fin)
    {st' : Stage} (hcache : CacheInv s') (hcoh : Coherent s' (logical base h))
    (hholds : s'.holds = s.holds) (hops : s'.ops = s.ops) (hout : s'.outstanding = s.outstanding)
    (hkind : s'.committing = s.committing ∧ s'.up = s.up)
    (hothers : ∀ q, q ≠ p → s'.code q = s.code q) (hat : At cf fin s'.lh st' (s'.code p))
    (hlh : s'.lh.Nodup ∧ ∀ b ∈ s'.lh, cf.Outside b ∧ b < FSSIZE)
    (hdirty : ∀ i, (s'.bufs i).dirty = true → ∃ b ∈ st'.pending s'.lh, (s'.bufs i).block = some b)
    (hpinned : st'.early = true →
      ∀ b ∈ s'.lh, ∃ i, (s'.bufs i).block = some b ∧ (s'.bufs i).dirty = true)
    (hunlogged : st'.early = true → ∀ b ∉ s'.lh, logical base h b = settled base st' h b)
    (hdisk : DiskAt cf st' s'.lh s'.disk (settled base st' h) (logical base h))
    (hret : durable st h ≤ durable st' h) : Inv cf base st' s' h where
  cache := hcache
  coherent := hcoh
  touched x hx := by rw [hops]; exact hi.touched x (hholds ▸ hx)
  nodup_ops := by rw [hops]; exact hi.nodup_ops
  outstanding := by rw [hops, hout]; exact hi.outstanding
  sections := hi.sections.congr (by rw [hops]; exact fun p hp => hp) rfl rfl rfl rfl
  nodup := hlh.1
  outside := hlh.2
  dirty := hdirty
  pinned := hpinned
  unlogged := hunlogged
  disk := hdisk
  thread := Or.inr ⟨p, fin, fun q hq => (hothers q hq).trans (hb.others q hq), hat,
    hops.trans hb.ops, hb.cur, by rw [hkind.1, hkind.2]; exact hb.kind⟩
  returned := hi.returned.trans hret

/-- A step that only goes on to other instructions of the same stage. -/
theorem Inv.recode (hi : Inv cf base st s h) {p : Pid} {fin : Instr} (hb : Busy cf st s h p fin)
    {c : List Instr} (hat : At cf fin s.lh st c) :
    Inv cf base st (s.setCode p c) h :=
  hi.busyStep hb (hi.cache.congr rfl rfl rfl) hi.coherent rfl rfl rfl ⟨rfl, rfl⟩
    (fun _ hq => Function.update_of_ne hq ..) (by simpa [setCode] using hat)
    ⟨hi.nodup, hi.outside⟩ hi.dirty
    hi.pinned hi.unlogged hi.disk le_rfl

/-- A write leaves its own buffer clean and the others alone. -/
theorem dirty_bwrite {x : Hold} {data : Block} {i : BufId}
    (hd : ((s.bwrite x data).bufs i).dirty = true) :
    i ≠ x.buf ∧ (s.bufs i).dirty = true ∧ (s.bwrite x data).bufs i = s.bufs i := by
  have hix : i ≠ x.buf := by
    rintro rfl
    simp [State.bwrite, setBuf] at hd
  have heq : (s.bwrite x data).bufs i = s.bufs i := Function.update_of_ne hix ..
  exact ⟨hix, heq ▸ hd, heq⟩

/-- The next instruction of `write_log`. -/
theorem Inv.copyLog (hi : Inv cf base st s h) {p : Pid} {fin : Instr} {t b : ℕ}
    (hb : Busy cf st s h p fin) (hst : st = .writing t) (hlt : s.lh[t]? = some b) {x y : Hold}
    (hx : x ∈ s.holds ∧ x.block = b ∧ x.phase = .held)
    (hy : y ∈ s.holds ∧ y.block = cf.logBlock t ∧ y.phase = .held) {c : List Instr}
    (hat : At cf fin s.lh (.writing (t + 1)) c) :
    Inv cf base (.writing (t + 1))
      ((s.setCode p c).bwrite y (s.bufs x.buf).data) h := by
  subst hst
  obtain ⟨hx, rfl, hxp⟩ := hx
  obtain ⟨hy, hyb, hyp⟩ := hy
  have hmem : x.block ∈ s.lh := List.mem_of_getElem? hlt
  have hout := (hi.outside _ hmem).1
  -- the buffer of the log block is clean, so the transaction fits the log area
  have hlen : s.lh.length < LOGSIZE := by
    obtain ⟨-, -, -, h0 | hlen, -⟩ := hi.disk
    · refine hi.length_lt_of_clean rfl (i := y.buf) ?_
      by_contra hd
      obtain ⟨b, hbm, hbb⟩ := hi.dirty y.buf (by simpa using hd)
      rw [hi.cache.hold_block y hy, hyb, h0] at hbb
      cases hbb
      exact cf.ne_logBlock_of_outside (t := 0) (hi.outside _ hbm).1 (by decide) rfl
    · exact hlen
  have htlen : t < s.lh.length := (List.getElem?_eq_some_iff.mp hlt).1
  have hneb : ∀ b ∈ s.lh, b ≠ cf.logBlock t := fun b hbm =>
    cf.ne_logBlock_of_outside (hi.outside b hbm).1 (by omega)
  have hdata : (s.bufs x.buf).data = logical base h x.block := by
    obtain ⟨i, hib, hid⟩ := hi.pinned rfl x.block hmem
    obtain rfl := hi.cache.block_inj i x.buf _ hib (hi.cache.hold_block x hx)
    rw [hi.data_eq hx hxp, if_pos hid]
  have hcache : CacheInv (s.setCode p c) := hi.cache.congr rfl rfl rfl
  have hcoh : Coherent (s.setCode p c) (logical base h) := hi.coherent
  refine hi.busyStep hb (hcache.bwrite hy hyp _) (hcoh.bwrite hcache hy _) rfl rfl rfl ⟨rfl, rfl⟩
    (fun q hq => Function.update_of_ne hq ..) (by simpa [State.bwrite, setBuf, setCode])
    ⟨hi.nodup, hi.outside⟩ (fun i hd => ?_) (fun _ b hbm => ?_) (fun _ => hi.unlogged rfl) ?_ le_rfl
  · obtain ⟨-, hd, heq⟩ := dirty_bwrite hd
    rw [heq]
    exact hi.dirty i hd
  · obtain ⟨i, hib, hid⟩ := hi.pinned rfl b hbm
    have hiy : i ≠ y.buf := by
      rintro rfl
      rw [hi.cache.hold_block y hy, hyb] at hib
      exact hneb b hbm (Option.some.inj hib).symm
    exact ⟨i, by simpa [State.bwrite, setBuf, setCode, hiy] using ⟨hib, hid⟩⟩
  · simp only [State.bwrite, setBuf, setCode, hyb, hdata]
    exact hi.disk.copyLog hlen hlt

/-- The next instruction of `install_trans`. -/
theorem Inv.copyHome (hi : Inv cf base st s h) {p : Pid} {fin : Instr} {t b : ℕ}
    (hb : Busy cf st s h p fin) (hst : st = .installing t) (hlt : s.lh[t]? = some b) {x y : Hold}
    (hx : x ∈ s.holds ∧ x.block = cf.logBlock t ∧ x.phase = .held)
    (hy : y ∈ s.holds ∧ y.block = b ∧ y.phase = .held) {c : List Instr}
    (hat : At cf fin s.lh (.installing (t + 1)) c) :
    Inv cf base (.installing (t + 1))
      ((s.setCode p c).bwrite y (s.bufs x.buf).data) h := by
  subst hst
  obtain ⟨hx, hxb, hxp⟩ := hx
  obtain ⟨hy, rfl, hyp⟩ := hy
  obtain ⟨htlen, hbt⟩ := List.getElem?_eq_some_iff.mp hlt
  have hdata : (s.bufs x.buf).data = logical base h y.block := by
    rw [hi.data_eq hx hxp, if_neg, hxb]
    · exact hi.disk.2.2.1 t _ hlt
    · intro hd
      obtain ⟨b, hbm, hbb⟩ := hi.dirty x.buf hd
      rw [hi.cache.hold_block x hx, hxb] at hbb
      cases hbb
      have hlen := hi.disk.2.1
      exact cf.ne_logBlock_of_outside (t := t)
        (hi.outside _ (List.mem_of_mem_drop hbm)).1 (by omega) rfl
  have hcache : CacheInv (s.setCode p c) := hi.cache.congr rfl rfl rfl
  have hcoh : Coherent (s.setCode p c) (logical base h) := hi.coherent
  refine hi.busyStep hb (hcache.bwrite hy hyp _) (hcoh.bwrite hcache hy _) rfl rfl rfl ⟨rfl, rfl⟩
    (fun q hq => Function.update_of_ne hq ..) (by simpa [State.bwrite, setBuf, setCode])
    ⟨hi.nodup, hi.outside⟩ (fun i hd => ?_) nofun nofun ?_ le_rfl
  · obtain ⟨hiy, hd, heq⟩ := dirty_bwrite hd
    rw [heq]
    obtain ⟨b, hbm, hbb⟩ := hi.dirty i hd
    refine ⟨b, ?_, hbb⟩
    -- the block that has just been installed has its buffer elsewhere
    have hbm : b ∈ s.lh.drop t := hbm
    rw [List.drop_eq_getElem_cons htlen, hbt] at hbm
    refine (List.mem_cons.mp hbm).resolve_left ?_
    rintro rfl
    exact hiy (hi.cache.block_inj i y.buf _ hbb (hi.cache.hold_block y hy))
  · simp only [State.bwrite, setBuf, setCode, hdata]
    exact hi.disk.copyHome (fun b hbm => (hi.outside b hbm).1) hlt

/-- Both uses of `write_head`. -/
theorem Inv.storeHead (hi : Inv cf base st s h) {p : Pid} {fin : Instr}
    (hb : Busy cf st s h p fin) {x : Hold} (hx : x ∈ s.holds ∧ x.block = cf.start ∧ x.phase = .held)
    {c : List Instr} (hat : At cf fin s.lh st (.storeHead :: c)) :
    ∃ st', Inv cf base st' ((s.setCode p c).bwrite x
      (putHead (s.bufs x.buf).data s.lh)) h := by
  obtain ⟨hx, hxb, hxp⟩ := hx
  have hcache : CacheInv (s.setCode p c) := hi.cache.congr rfl rfl rfl
  have hcoh : Coherent (s.setCode p c) (logical base h) := hi.coherent
  have hbuf : ∀ {i : BufId} {data : Block},
      (((s.setCode p c).bwrite x data).bufs i).dirty = true →
      ∃ b ∈ st.pending s.lh, (((s.setCode p c).bwrite x data).bufs i).block = some b := by
    intro i data hd
    obtain ⟨-, hd, heq⟩ := dirty_bwrite hd
    rw [heq]
    exact hi.dirty i hd
  cases hat with
  | plain hp => exact hp.elim
  | storeHead hat =>
    refine ⟨.installing 0, hi.busyStep hb (hcache.bwrite hx hxp _)
      (hcoh.bwrite hcache hx _) rfl rfl rfl ⟨rfl, rfl⟩
      (fun q hq => Function.update_of_ne hq ..) (by simpa [State.bwrite, setBuf, setCode])
      ⟨hi.nodup, hi.outside⟩ (fun i => hbuf) (by rintro ⟨⟩) (by rintro ⟨⟩) ?_
      (Nat.sub_le ..)⟩
    simp only [State.bwrite, setBuf, setCode, hxb]
    exact hi.disk.storeHead (fun b hbm => (hi.outside b hbm).2) (hi.unlogged rfl) _
  | storeEmpty hat =>
    refine ⟨.finishing, hi.busyStep hb (hcache.bwrite hx hxp _)
      (hcoh.bwrite hcache hx _) rfl rfl rfl ⟨rfl, rfl⟩
      (fun q hq => Function.update_of_ne hq ..) (by simpa [State.bwrite, setBuf, setCode])
      ⟨hi.nodup, hi.outside⟩ (fun i => hbuf) (by rintro ⟨⟩) (by rintro ⟨⟩) ?_ le_rfl⟩
    simp only [State.bwrite, setBuf, setCode, hxb]
    exact hi.disk.eraseHead _
  | done hfin => rcases hfin with hf | hf <;> cases hf

/-- The loop of `read_head`. -/
theorem Inv.loadHead (hi : Inv cf base st s h) {p : Pid} {fin : Instr} (hb : Busy cf st s h p fin)
    {x : Hold} (hx : x ∈ s.holds ∧ x.block = cf.start ∧ x.phase = .held) {c : List Instr}
    (hat : At cf fin s.lh st (.loadHead :: c)) :
    Inv cf base (.installing 0) { s.setCode p c with lh := headOf (s.bufs x.buf).data } h := by
  obtain ⟨hx, hxb, hxp⟩ := hx
  cases hat with
  | plain hp => exact hp.elim
  | done hfin => rcases hfin with hf | hf <;> cases hf
  | loadHead =>
    -- nothing is dirty before the header is in memory
    have hclean : ∀ i, ¬ (s.bufs i).dirty = true := by
      intro i hd
      obtain ⟨b, hbm, -⟩ := hi.dirty i hd
      cases hbm
    have hdata : headOf (s.bufs x.buf).data = header cf s.disk := by
      rw [hi.data_eq hx hxp, if_neg (hclean _), hxb]
      rfl
    obtain ⟨hok, hview⟩ := hi.disk
    refine hi.busyStep hb (hi.cache.congr rfl rfl rfl) hi.coherent rfl rfl rfl ⟨rfl, rfl⟩
      (fun q hq => Function.update_of_ne hq ..) ?_ ?_ (fun i hd => absurd hd (hclean i)) nofun nofun
      ?_ le_rfl
    · simp only [setCode, Function.update_self]
      exact (At.installTrans (Nat.zero_le _)).brelse _
    · simp only [hdata]
      exact ⟨hok.nodup, fun b hbm => ⟨hok.outside b hbm, hok.lt_size b hbm⟩⟩
    · simp only [setCode, hdata]
      refine ⟨rfl, hok.length_lt, fun j b hj => ?_, fun b hb hbm => ?_⟩
      · obtain ⟨hlt, rfl⟩ := List.getElem?_eq_some_iff.mp hj
        rw [← view_getElem hok.nodup hlt]
        exact hview _ (hok.outside _ (List.getElem_mem hlt))
      · rw [← hview b hb, view_of_notMem hbm]

/-- `log.lh.n = 0`, when all blocks are in place. -/
theorem Inv.clear (hi : Inv cf base st s h) {p : Pid} {fin : Instr} (hb : Busy cf st s h p fin)
    {c : List Instr} (hat : At cf fin s.lh st (.clear :: c)) :
    Inv cf base .clearing { s.setCode p c with lh := [] } h := by
  cases hat with
  | plain hp => exact hp.elim
  | done hfin => rcases hfin with hf | hf <;> cases hf
  | clear =>
    obtain ⟨hhead, hlen, hlog, hhome⟩ := hi.disk
    have hclean : ∀ i, ¬ (s.bufs i).dirty = true := by
      intro i hd
      obtain ⟨b, hbm, -⟩ := hi.dirty i hd
      rw [Stage.pending, List.drop_length] at hbm
      cases hbm
    refine hi.busyStep hb (hi.cache.congr rfl rfl rfl) hi.coherent rfl rfl rfl ⟨rfl, rfl⟩
      (fun q hq => Function.update_of_ne hq ..) ?_ ⟨List.nodup_nil, nofun⟩
      (fun i hd => absurd hd (hclean i)) nofun nofun ?_ le_rfl
    · simp only [setCode, Function.update_self]
      exact .eraseHead
    · refine ⟨rfl, ?_, ?_, fun b hb => hhome b hb (by rw [List.drop_length]; nofun)⟩
      · constructor <;> simp only [setCode, hhead]
        exacts [hlen, hi.nodup, fun b hbm => (hi.outside b hbm).1,
          fun b hbm => (hi.outside b hbm).2]
      · simp only [setCode, hhead]
        exact hlog

/-- The test at the start of `commit`. -/
theorem Inv.commit (hi : Inv cf base st s h) {p : Pid} {fin : Instr} (hb : Busy cf st s h p fin)
    {c : List Instr} (hat : At cf fin s.lh st (.commit :: c)) :
    ∃ st', Inv cf base st'
      (if 0 < s.lh.length then (s.setCode p c).push p commitBody else s.setCode p c) h := by
  cases hat with
  | plain hp => exact hp.elim
  | done hfin => rcases hfin with hf | hf <;> cases hf
  | commit =>
    obtain ⟨hhead, hhome⟩ := hi.disk
    split
    · next hlen =>
      refine ⟨.writing 0, hi.busyStep hb (hi.cache.congr rfl rfl rfl) hi.coherent rfl rfl rfl
        ⟨rfl, rfl⟩ (fun q hq => ?_) ?_ ⟨hi.nodup, hi.outside⟩ hi.dirty (fun _ => hi.pinned rfl)
        (fun _ => hi.unlogged rfl) ⟨hhead, hhome, ?_, Or.inl rfl, nofun⟩ le_rfl⟩
      · simp [push, setCode, hq]
      · simp only [push, setCode, Function.update_self]
        exact .writeLog (Nat.zero_le _)
      · exact List.ne_nil_of_length_pos hlen
    · next hlen =>
      have hnil : s.lh = [] := List.eq_nil_of_length_eq_zero (Nat.eq_zero_of_not_pos hlen)
      have hfin : fin = .endCommit ∨ fin = .initDone :=
        hb.kind.elim (fun hk => Or.inl hk.1) fun hk => Or.inr hk.1
      refine ⟨.finishing, hi.busyStep hb (hi.cache.congr rfl rfl rfl) hi.coherent rfl rfl rfl
        ⟨rfl, rfl⟩ (fun q hq => Function.update_of_ne hq ..) ?_ ⟨hi.nodup, hi.outside⟩
        (fun i hd => ?_) nofun nofun ⟨hnil, hhead, fun b hb => ?_⟩ (Nat.sub_le ..)⟩
      · simp only [setCode, Function.update_self]
        exact .done hfin
      · obtain ⟨b, hbm, -⟩ := hi.dirty i hd
        rw [Stage.pending, hnil] at hbm
        cases hbm
      · have := hi.unlogged rfl b (by rw [hnil]; nofun)
        rw [this]
        exact hhome b hb

/-- The end of a commit and the end of recovery. -/
theorem Inv.finish (hi : Inv cf base st s h) {p : Pid} {fin : Instr} (hb : Busy cf st s h p fin)
    {i : Instr} {c : List Instr} (hat : At cf fin s.lh st (i :: c))
    (hdone : i = .endCommit ∧ s' = { s.setCode p c with committing := false } ∨
      i = .initDone ∧ s' = { s.setCode p c with up := true }) : Inv cf base .quiet s' h := by
  obtain ⟨rfl, rfl, rfl⟩ : st = .finishing ∧ c = [] ∧ i = fin := by
    rcases hdone with ⟨rfl, -⟩ | ⟨rfl, -⟩ <;> cases hat <;>
      first | exact ⟨rfl, rfl, rfl⟩ | contradiction
  obtain ⟨hnil, hhead, hhome⟩ := hi.disk
  have hlog : logical base h = settled base .quiet h := logical_of_cur_nil hb.cur nofun nofun
  -- both ends leave everything but the thread alone
  have hsame : s'.disk = s.disk ∧ s'.bufs = s.bufs ∧ s'.mru = s.mru ∧ s'.lh = s.lh ∧
      s'.outstanding = s.outstanding ∧ s'.holds = s.holds ∧ s'.ops = s.ops := by
    rcases hdone with ⟨-, rfl⟩ | ⟨-, rfl⟩ <;> exact ⟨rfl, rfl, rfl, rfl, rfl, rfl, rfl⟩
  obtain ⟨hdisk, hbufs, hmru, hlh, hout, hholds, hops⟩ := hsame
  have hidle : Idle s' := by
    have hcode : ∀ q, (s.setCode p []).code q = [] := by
      intro q
      by_cases hq : q = p
      · subst hq; simp [setCode]
      · simp [setCode, hq, hb.others q hq]
    rcases hdone with ⟨rfl, rfl⟩ | ⟨rfl, rfl⟩
    · rcases hb.kind with ⟨-, -, hup, -⟩ | ⟨hf, -⟩
      · exact ⟨hcode, hup, rfl⟩
      · cases hf
    · rcases hb.kind with ⟨hf, -⟩ | ⟨-, hcomm, -⟩
      · cases hf
      · exact ⟨hcode, rfl, hcomm⟩
  exact {
    cache := hi.cache.congr hmru hbufs hholds
    coherent := hi.coherent.congr hdisk (fun i hv => by
      rw [hbufs] at hv ⊢; exact ⟨rfl, rfl, hv, rfl⟩)
      fun i hu x hx => hu x (hholds ▸ hx)
    touched := by rw [hholds, hops]; exact hi.touched
    nodup_ops := by rw [hops]; exact hi.nodup_ops
    outstanding := by rw [hops, hout]; exact hi.outstanding
    sections := hi.sections.congr (by rw [hops]; exact fun p hp => hp) rfl rfl rfl rfl
    nodup := by rw [hlh]; exact hi.nodup
    outside := by rw [hlh]; exact hi.outside
    dirty := by
      rw [hbufs]
      intro i hd
      obtain ⟨b, hbm, -⟩ := hi.dirty i hd
      cases hbm
    pinned := by rw [hlh, hnil]; nofun
    unlogged := fun _ b _ => by rw [hlog]
    disk := by rw [hdisk, ← hlog]; exact ⟨hhead, hhome⟩
    thread := Or.inl ⟨rfl, hidle⟩
    returned := hi.returned }

/-- **The steps of `commit` and `recover_from_log`** keep the invariant. -/
theorem Inv.kernel (hi : Inv cf base st s h) {p : Pid} {i : Instr} {c : List Instr}
    (hcode : s.code p = i :: c) (hx : (s.setCode p c).exec cf p i = some s') :
    ∃ st', Inv cf base st' s' h := by
  obtain ⟨fin, hb⟩ := hi.busy (p := p) (by rw [hcode]; nofun)
  have hat : At cf fin s.lh st (i :: c) := hcode ▸ hb.code
  have hpush : ∀ is, (s.setCode p c).push p is = s.setCode p (is ++ c) := by
    intro is
    simp [push, setCode]
  -- the instructions of `bread` and `brelse`
  have hplain : i.Plain → Inv cf base st (s.setCode p c) h :=
    fun hp => hi.recode hb (hat.of_plain hp)
  cases i with
  | bget b =>
    have hi₁ := hplain trivial
    obtain ⟨hk, hx⟩ := Option.ite_none_right_eq_some.mp hx
    cases hx
    exact ⟨st, hi₁.cacheStep (cacheStep_bget hi₁.cache hk)⟩
  | acquire b =>
    have hi₁ := hplain trivial
    obtain ⟨x, hh, hp, hx⟩ := withHold_eq_some.mp hx
    exact ⟨st, hi₁.cacheStep
      (cacheStep_acquire hi₁.cache (mem_of_hold hh).1 (List.mem_singleton.mp hp) hx)⟩
  | release b =>
    have hi₁ := hplain trivial
    obtain ⟨x, hh, hp, hx⟩ := withHold_eq_some.mp hx
    cases hx
    exact ⟨st, hi₁.cacheStep
      (cacheStep_release hi₁.cache (mem_of_hold hh).1 (List.mem_singleton.mp hp))⟩
  | brelse b =>
    have hi₁ := hplain trivial
    obtain ⟨x, hh, hp, hx⟩ := withHold_eq_some.mp hx
    cases hx
    exact ⟨st, hi₁.cacheStep
      (cacheStep_drop hi₁.cache (mem_of_hold hh).1 (List.mem_singleton.mp hp))⟩
  | copyWrite src dst =>
    obtain ⟨x, hxh, hxp, hx⟩ := withHold_eq_some.mp hx
    obtain ⟨y, hyh, hyp, hx⟩ := withHold_eq_some.mp hx
    cases hx
    obtain ⟨hxm, -, hxb⟩ := mem_of_hold hxh
    obtain ⟨hym, -, hyb⟩ := mem_of_hold hyh
    have hxp := List.mem_singleton.mp hxp
    have hyp := List.mem_singleton.mp hyp
    cases hat with
    | plain hp => exact hp.elim
    | done hfin => rcases hfin with hf | hf <;> cases hf
    | copyLog hlt hat => exact ⟨_, hi.copyLog hb rfl hlt ⟨hxm, hxb, hxp⟩ ⟨hym, hyb, hyp⟩ hat⟩
    | copyHome hlt hat => exact ⟨_, hi.copyHome hb rfl hlt ⟨hxm, hxb, hxp⟩ ⟨hym, hyb, hyp⟩ hat⟩
  | loadHead =>
    obtain ⟨x, hxh, hxp, hx⟩ := withHold_eq_some.mp hx
    cases hx
    obtain ⟨hxm, -, hxb⟩ := mem_of_hold hxh
    exact ⟨_, hi.loadHead hb ⟨hxm, hxb, List.mem_singleton.mp hxp⟩ hat⟩
  | storeHead =>
    obtain ⟨x, hxh, hxp, hx⟩ := withHold_eq_some.mp hx
    cases hx
    obtain ⟨hxm, -, hxb⟩ := mem_of_hold hxh
    exact hi.storeHead hb ⟨hxm, hxb, List.mem_singleton.mp hxp⟩ hat
  | readHead =>
    cases hx
    rw [hpush]
    cases hat with
    | plain hp => exact hp.elim
    | done hfin => rcases hfin with hf | hf <;> cases hf
    | readHead => exact ⟨.loading, hi.recode hb (At.loadHead.bread _)⟩
  | writeHead =>
    cases hx
    rw [hpush]
    cases hat with
    | plain hp => exact hp.elim
    | done hfin => rcases hfin with hf | hf <;> cases hf
    | writeHead =>
      exact ⟨_, hi.recode hb ((At.storeHead ((At.installTrans (Nat.zero_le _)).brelse _)).bread _)⟩
    | eraseHead =>
      have hfin : fin = .endCommit ∨ fin = .initDone :=
        hb.kind.elim (fun hk => Or.inl hk.1) fun hk => Or.inr hk.1
      exact ⟨_, hi.recode hb ((At.storeEmpty ((At.done hfin).brelse _)).bread _)⟩
  | writeLog t =>
    cases hat with
    | plain hp => exact hp.elim
    | done hfin => rcases hfin with hf | hf <;> cases hf
    | writeLog ht =>
      refine ⟨.writing t, ?_⟩
      simp only [State.exec] at hx
      split at hx
      · next b hlt =>
        cases hx
        rw [hpush]
        have hlen : t < s.lh.length := (List.getElem?_eq_some_iff.mp hlt).1
        have hat' : At cf fin s.lh (.writing (t + 1)) _ := .writeLog hlen
        simpa [writeLogRound] using hi.recode hb
          ((((At.copyLog hlt ((hat'.brelse (cf.logBlock t)).brelse b)).bread b).bread
            (cf.logBlock t)))
      · next hlt =>
        cases hx
        obtain rfl : t = s.lh.length := Nat.le_antisymm ht (List.getElem?_eq_none_iff.mp hlt)
        exact hi.recode hb .writeHead
  | installTrans t =>
    cases hat with
    | plain hp => exact hp.elim
    | done hfin => rcases hfin with hf | hf <;> cases hf
    | installTrans ht =>
      refine ⟨.installing t, ?_⟩
      simp only [State.exec] at hx
      split at hx
      · next b hlt =>
        cases hx
        rw [hpush]
        have hlen : t < s.lh.length := (List.getElem?_eq_some_iff.mp hlt).1
        have hat' : At cf fin s.lh (.installing (t + 1)) _ := .installTrans hlen
        simpa [installRound] using hi.recode hb
          ((((At.copyHome hlt ((hat'.brelse b).brelse (cf.logBlock t))).bread b).bread
            (cf.logBlock t)))
      · next hlt =>
        cases hx
        obtain rfl : t = s.lh.length := Nat.le_antisymm ht (List.getElem?_eq_none_iff.mp hlt)
        exact hi.recode hb .clear
  | clear =>
    cases hx
    exact ⟨_, hi.clear hb hat⟩
  | commit =>
    have := hi.commit hb hat
    simp only [State.exec] at hx
    rw [show (s.setCode p c).lh = s.lh from rfl] at hx
    split at hx <;> cases hx <;> simpa [*] using this
  | endCommit =>
    cases hx
    exact ⟨_, hi.finish hb hat (Or.inl ⟨rfl, rfl⟩)⟩
  | initDone =>
    cases hx
    exact ⟨_, hi.finish hb hat (Or.inr ⟨rfl, rfl⟩)⟩

/-! ### System calls -/

theorem Inv.beginOp (hi : Inv cf base .quiet s h) (hidle : Idle s) {p : Pid} (hp : p ∉ s.ops) :
    Inv cf base .quiet { s with outstanding := s.outstanding + 1, ops := p :: s.ops }
      { h with sec := Function.update h.sec p h.nextSec, nextSec := h.nextSec + 1 } where
  cache := hi.cache.congr rfl rfl rfl
  coherent := hi.coherent
  touched x hx ht := ⟨List.mem_cons_of_mem _ (hi.touched x hx ht).1, (hi.touched x hx ht).2⟩
  nodup_ops := List.nodup_cons.mpr ⟨hp, hi.nodup_ops⟩
  outstanding := congrArg (· + 1) hi.outstanding
  sections := hi.sections.beginOp hp rfl
  nodup := hi.nodup
  outside := hi.outside
  dirty := hi.dirty
  pinned := hi.pinned
  unlogged := hi.unlogged
  disk := hi.disk
  thread := Or.inl ⟨rfl, hidle.code, hidle.up, hidle.committing⟩
  returned := hi.returned

/-- An `end_op` that leaves other sections open. -/
theorem Inv.endOp (hi : Inv cf base .quiet s h) (hidle : Idle s) {p : Pid} (hp : p ∈ s.ops)
    (hholds : ∀ x ∈ s.holds, x.pid ≠ p) :
    Inv cf base .quiet { s with outstanding := s.outstanding - 1, ops := s.ops.erase p } h where
  cache := hi.cache.congr rfl rfl rfl
  coherent := hi.coherent
  touched x hx ht :=
    ⟨(List.mem_erase_of_ne (hholds x hx)).mpr (hi.touched x hx ht).1, (hi.touched x hx ht).2⟩
  nodup_ops := hi.nodup_ops.erase p
  outstanding := by simp [List.length_erase_of_mem hp, hi.outstanding]
  sections := hi.sections.congr (fun q => List.mem_of_mem_erase) rfl rfl rfl rfl
  nodup := hi.nodup
  outside := hi.outside
  dirty := hi.dirty
  pinned := hi.pinned
  unlogged := hi.unlogged
  disk := hi.disk
  thread := Or.inl ⟨rfl, hidle.code, hidle.up, hidle.committing⟩
  returned := hi.returned

/-- The last `end_op` closes the group and starts the commit. -/
theorem Inv.close (hi : Inv cf base .quiet s h) (hidle : Idle s) (hops : s.ops = []) (p : Pid) :
    Inv cf base .start ({ s with committing := true }.push p [.commit, .endCommit])
      { h with groups := h.groups ++ [h.cur], cur := [] } := by
  have hlog : logical base { h with groups := h.groups ++ [h.cur], cur := [] } =
      logical base h := by
    simp [logical]
  have hset : settled base .start { h with groups := h.groups ++ [h.cur], cur := [] } =
      settled base .quiet h := by
    simp [settled, durable]
  exact {
    cache := hi.cache.congr rfl rfl rfl
    coherent := by rw [hlog]; exact hi.coherent
    touched := hi.touched
    nodup_ops := hi.nodup_ops
    outstanding := hi.outstanding
    sections := hi.sections.close hops
    nodup := hi.nodup
    outside := hi.outside
    dirty := hi.dirty
    pinned := fun _ => hi.pinned rfl
    unlogged := fun _ => by rw [hlog, hset]; exact hi.unlogged rfl
    disk := by rw [hlog, hset]; exact hi.disk
    thread := Or.inr ⟨p, .endCommit, fun q hq => by simp [push, setCode, hq, hidle.code q],
      by simp only [push, setCode, Function.update_self, hidle.code p]; exact .commit, hops, rfl,
      Or.inl ⟨rfl, rfl, hidle.up, by simp⟩⟩
    returned := by simpa [durable] using hi.returned }

/-- A process changes a buffer it has locked, and its own phase; the log is not concerned. -/
theorem Inv.touch (hi : Inv cf base .quiet s h) (hidle : Idle s) {x : Hold} (hx : x ∈ s.holds)
    (hp : x.phase = .held ∨ x.phase = .modified) (hops : x.pid ∈ s.ops) (hout : cf.Outside x.block)
    (data : Block) {ph : Phase} (hph : ph = .modified ∨ ph = .checked) :
    Inv cf base .quiet
      ((s.setBuf x.buf { s.bufs x.buf with data := data }).setPhase x ph) h := by
  have hl : x.phase.locked = true := by rcases hp with hp | hp <;> rw [hp] <;> rfl
  have hpl : ph.locked = true ∧ ph.touched = true := by
    rcases hph with rfl | rfl <;> exact ⟨rfl, rfl⟩
  have hv := hi.cache.valid x hx hl
  have hbuf : ∀ i,
      (((s.setBuf x.buf { s.bufs x.buf with data := data }).setPhase x ph).bufs i).block =
      (s.bufs i).block ∧
      (((s.setBuf x.buf { s.bufs x.buf with data := data }).setPhase x ph).bufs i).dirty =
      (s.bufs i).dirty := by
    intro i
    by_cases hix : i = x.buf
    · subst hix; simp [setPhase, setBuf]
    · simp [setPhase, setBuf, hix]
  exact {
    cache := hi.cache.update hx _ _ (hi.cache.other_unlocked hx hl) rfl rfl
      (by rw [if_pos hpl.1]; exact hi.cache.owner x hx hl) (fun _ => hv) (fun _ => hv)
      fun _ => hi.cache.valid_lt _ _ (hi.cache.hold_block x hx) hv
    coherent := hi.coherent.update hi.cache hx _ _ rfl (Or.inl hpl.2) fun _ _ => rfl
    touched := by
      intro y hy ht
      rcases (mem_setPhase (s := s.setBuf ..) hx).mp hy with rfl | ⟨hy, -⟩
      · exact ⟨hops, hout⟩
      · exact hi.touched y hy ht
    nodup_ops := hi.nodup_ops
    outstanding := hi.outstanding
    sections := hi.sections.congr (fun _ hq => hq) rfl rfl rfl rfl
    nodup := hi.nodup
    outside := hi.outside
    dirty := fun i hd => by
      rw [(hbuf i).2] at hd
      rw [(hbuf i).1]
      exact hi.dirty i hd
    pinned := fun he b hb => by
      obtain ⟨i, hib, hid⟩ := hi.pinned he b hb
      exact ⟨i, (hbuf i).1.trans hib, (hbuf i).2.trans hid⟩
    unlogged := hi.unlogged
    disk := hi.disk
    thread := Or.inl ⟨rfl, hidle.code, hidle.up, hidle.committing⟩
    returned := hi.returned }

/-- The locked part of `log_write`. -/
theorem Inv.logWrite (hi : Inv cf base .quiet s h) (hidle : Idle s) {x : Hold} (hx : x ∈ s.holds)
    (hp : x.phase = .checked) :
    Inv cf base .quiet ({ s.setBuf x.buf { s.bufs x.buf with dirty := true } with
        lh := if x.block ∈ s.lh then s.lh else s.lh ++ [x.block] }.setPhase x .held)
      { h with cur := h.cur ++ [⟨h.sec x.pid, x.block, (s.bufs x.buf).data⟩] } := by
  obtain ⟨hops, hout⟩ := hi.touched x hx (by rw [hp]; rfl)
  have hl : x.phase.locked = true := by rw [hp]; rfl
  have hv := hi.cache.valid x hx hl
  have hblock := hi.cache.hold_block x hx
  have hlt := hi.cache.valid_lt _ _ hblock hv
  have hlog : logical base { h with cur := h.cur ++
      [⟨h.sec x.pid, x.block, (s.bufs x.buf).data⟩] } =
      Function.update (logical base h) x.block (s.bufs x.buf).data := by
    rw [logical, ← List.append_assoc, apply_concat]
    rfl
  have hbuf : ∀ i, i ≠ x.buf →
      ((s.setBuf x.buf { s.bufs x.buf with dirty := true }).setPhase x .held).bufs i =
      s.bufs i := by
    intro i hix
    simp [setPhase, setBuf, hix]
  have hself : ((s.setBuf x.buf { s.bufs x.buf with dirty := true }).setPhase x .held).bufs x.buf =
      { s.bufs x.buf with dirty := true } := by
    simp [setPhase, setBuf]
  have hmem : ∀ b, b ∈ (if x.block ∈ s.lh then s.lh else s.lh ++ [x.block]) ↔
      b ∈ s.lh ∨ b = x.block := by
    intro b
    split
    · next hm => exact ⟨Or.inl, fun hb => hb.elim id fun hb => hb ▸ hm⟩
    · simp
  have hcache := hi.cache.update hx { s.bufs x.buf with dirty := true } .held
    (hi.cache.other_unlocked hx hl) rfl rfl (hi.cache.owner x hx hl) (fun _ => hv) (fun _ => hv)
    fun _ => hlt
  have hcoh : Coherent ((s.setBuf x.buf { s.bufs x.buf with dirty := true }).setPhase x .held)
      (Function.update (logical base h) x.block (s.bufs x.buf).data) :=
    hi.coherent.update hi.cache hx _ _ rfl (Or.inr (by simp)) fun b hb =>
      Function.update_of_ne hb ..
  exact {
    cache := hcache.congr rfl rfl rfl
    coherent := by rw [hlog]; exact hcoh
    touched := by
      intro y hy ht
      rcases (mem_setPhase (s := s) hx).mp hy with rfl | ⟨hy, -⟩
      · cases ht
      · exact hi.touched y hy ht
    nodup_ops := hi.nodup_ops
    outstanding := hi.outstanding
    sections := hi.sections.logWrite hops (by rfl) _ _
    nodup := by
      change (if x.block ∈ s.lh then s.lh else s.lh ++ [x.block]).Nodup
      split
      · exact hi.nodup
      · next hm =>
        refine List.nodup_append.mpr ⟨hi.nodup, List.nodup_singleton _, fun b hb c hc => ?_⟩
        rw [List.mem_singleton.mp hc]
        rintro rfl
        exact hm hb
    outside := fun b hb => by
      rcases (hmem b).mp hb with hb | rfl
      · exact hi.outside b hb
      · exact ⟨hout, hlt⟩
    dirty := fun i hd => by
      by_cases hix : i = x.buf
      · subst hix
        exact ⟨x.block, (hmem _).mpr (Or.inr rfl), (congrArg Buf.block hself).trans hblock⟩
      · obtain ⟨b, hbm, hbb⟩ := hi.dirty i ((congrArg Buf.dirty (hbuf i hix)).symm.trans hd)
        exact ⟨b, (hmem b).mpr (Or.inl hbm), (congrArg Buf.block (hbuf i hix)).trans hbb⟩
    pinned := fun _ b hb => by
      by_cases hbx : b = x.block
      · subst hbx
        exact ⟨x.buf, (congrArg Buf.block hself).trans hblock, congrArg Buf.dirty hself⟩
      · obtain ⟨i, hib, hid⟩ := hi.pinned rfl b (((hmem b).mp hb).resolve_right hbx)
        have hix : i ≠ x.buf := by
          rintro rfl
          exact hbx (Option.some.inj (hib.symm.trans hblock))
        exact ⟨i, (congrArg Buf.block (hbuf i hix)).trans hib,
          (congrArg Buf.dirty (hbuf i hix)).trans hid⟩
    unlogged := fun _ b hb => by
      have hb : ¬ (b ∈ s.lh ∨ b = x.block) := fun h => hb ((hmem b).mpr h)
      rw [not_or] at hb
      rw [hlog, Function.update_of_ne hb.2]
      exact hi.unlogged rfl b hb.1
    disk := hi.disk
    thread := Or.inl ⟨rfl, hidle.code, hidle.up, hidle.committing⟩
    returned := hi.returned }

/-- The blocks that a step changes or logs are outside the log area. -/
def Event.Outside (cf : Conf) : Event → Prop
  | .call _ (.modify b _) => cf.Outside b
  | .call _ (.logCheck b) => cf.Outside b
  | _ => True

/-- **System calls** keep the invariant. -/
theorem Inv.call (hi : Inv cf base st s h) {p : Pid} {c : Call} (hup : s.up = true)
    (hout : (Event.call p c).Outside cf) (hx : s.call cf p c = some s') :
    ∃ st', Inv cf base st' s' (record h s (.call p c) s') := by
  cases c with
  | beginOp =>
    obtain ⟨⟨hp, hcomm, -⟩, hx⟩ := Option.ite_none_right_eq_some.mp hx
    cases hx
    rcases hi.thread with ⟨rfl, hidle⟩ | ⟨q, fin, hb⟩
    · exact ⟨.quiet, hi.beginOp hidle hp⟩
    · rcases hb.kind with ⟨-, hc, -⟩ | ⟨-, -, hu⟩
      · rw [hcomm] at hc; cases hc
      · rw [hup] at hu; cases hu
  | endOp =>
    obtain ⟨⟨hp, hholds⟩, hx⟩ := Option.ite_none_right_eq_some.mp hx
    obtain ⟨rfl, hidle⟩ := hi.quiet_of_mem_ops hp
    have hi₁ := hi.endOp hidle hp hholds
    have hidle₁ : Idle { s with outstanding := s.outstanding - 1, ops := s.ops.erase p } :=
      ⟨hidle.code, hidle.up, hidle.committing⟩
    dsimp only at hx
    rw [if_neg (by rw [hidle.committing]; nofun)] at hx
    split at hx
    · next hzero =>
      cases hx
      have hops : s.ops.erase p = [] := List.eq_nil_of_length_eq_zero (hi₁.outstanding ▸ hzero)
      have := hi₁.close hidle₁ hops p
      rw [record, if_pos ⟨hidle.committing, rfl⟩]
      exact ⟨.start, this⟩
    · cases hx
      rw [record, if_neg (by simp [hidle.committing])]
      exact ⟨.quiet, hi₁⟩
  | bget b =>
    obtain ⟨hk, hx⟩ := Option.ite_none_right_eq_some.mp hx
    cases hx
    exact ⟨st, hi.cacheStep (cacheStep_bget hi.cache hk)⟩
  | acquire b =>
    obtain ⟨x, hh, hp, hx⟩ := withHold_eq_some.mp hx
    exact ⟨st, hi.cacheStep
      (cacheStep_acquire hi.cache (mem_of_hold hh).1 (List.mem_singleton.mp hp) hx)⟩
  | modify b data =>
    obtain ⟨hops, hx⟩ := Option.ite_none_right_eq_some.mp hx
    obtain ⟨x, hh, hp, hx⟩ := withHold_eq_some.mp hx
    cases hx
    obtain ⟨hm, rfl, rfl⟩ := mem_of_hold hh
    obtain ⟨rfl, hidle⟩ := hi.quiet_of_mem_ops hops
    exact ⟨.quiet, hi.touch hidle hm (by simpa using hp) hops hout data (Or.inl rfl)⟩
  | logCheck b =>
    obtain ⟨hops, hx⟩ := Option.ite_none_right_eq_some.mp hx
    obtain ⟨x, hh, hp, hk⟩ := withHold_eq_some.mp hx
    obtain ⟨hm, rfl, rfl⟩ := mem_of_hold hh
    obtain ⟨rfl, hidle⟩ := hi.quiet_of_mem_ops hops
    split at hk
    · cases hk; exact ⟨.quiet, hi.cacheStep (cacheStep_fail hi.cache .tooBig)⟩
    split at hk
    · cases hk; exact ⟨.quiet, hi.cacheStep (cacheStep_fail hi.cache .outsideTrans)⟩
    cases hk
    have := hi.touch hidle hm (by simpa using hp) hops hout (s.bufs x.buf).data (Or.inr rfl)
    rw [show s.setBuf x.buf { s.bufs x.buf with data := (s.bufs x.buf).data } = s by
      simp [setBuf]] at this
    exact ⟨.quiet, this⟩
  | logWrite b =>
    obtain ⟨x, hh, hp, hx⟩ := withHold_eq_some.mp hx
    cases hx
    obtain ⟨hm, rfl, rfl⟩ := mem_of_hold hh
    have hp := List.mem_singleton.mp hp
    obtain ⟨rfl, hidle⟩ := hi.quiet_of_mem_ops (hi.touched x hm (by rw [hp]; rfl)).1
    simp only [record, hh]
    exact ⟨.quiet, hi.logWrite hidle hm hp⟩
  | release b =>
    obtain ⟨x, hh, hp, hx⟩ := withHold_eq_some.mp hx
    cases hx
    exact ⟨st, hi.cacheStep
      (cacheStep_release hi.cache (mem_of_hold hh).1 (List.mem_singleton.mp hp))⟩
  | brelse b =>
    obtain ⟨x, hh, hp, hx⟩ := withHold_eq_some.mp hx
    cases hx
    exact ⟨st, hi.cacheStep
      (cacheStep_drop hi.cache (mem_of_hold hh).1 (List.mem_singleton.mp hp))⟩

/-! ### Runs -/

/-- `commit` has returned only when its group is durable. -/
theorem Inv.recordReturn (hi : Inv cf base st s h) {p : Pid} (hcode : s.code p = [.endCommit]) :
    Inv cf base st s { h with returned := h.groups.length } := by
  obtain ⟨fin, hb⟩ := hi.busy (p := p) (by rw [hcode]; nofun)
  obtain rfl : st = .finishing := (hcode ▸ hb.code).of_endCommit
  exact {
    cache := hi.cache
    coherent := hi.coherent
    touched := hi.touched
    nodup_ops := hi.nodup_ops
    outstanding := hi.outstanding
    sections := hi.sections.congr (fun _ hq => hq) rfl rfl rfl rfl
    nodup := hi.nodup
    outside := hi.outside
    dirty := hi.dirty
    pinned := hi.pinned
    unlogged := hi.unlogged
    disk := hi.disk
    thread := Or.inr ⟨p, fin, hb.others, hb.code, hb.ops, hb.cur, hb.kind⟩
    returned := le_rfl }

theorem Inv.step {e : Event} (hi : Inv cf base st s h) (hne : e ≠ .crash) (hout : e.Outside cf)
    (hx : step cf s e = some s') : ∃ st', Inv cf base st' s' (record h s e s') := by
  cases e with
  | call p c =>
    obtain ⟨⟨-, hup, -⟩, hx⟩ := Option.ite_none_right_eq_some.mp hx
    exact hi.call hup hout hx
  | kernel p =>
    obtain ⟨-, hx⟩ := Option.ite_none_right_eq_some.mp hx
    cases hcode : s.code p with
    | nil => simp [hcode] at hx
    | cons i c =>
      simp only [hcode] at hx
      obtain ⟨st', hi'⟩ := hi.kernel hcode hx
      refine ⟨st', ?_⟩
      unfold record
      dsimp only
      split
      · next hret => exact hi'.recordReturn hret
      · exact hi'
  | crash => exact absurd rfl hne

/-- At power-on, recovery brings back the log that is on the disk. -/
theorem Inv.boot {d : Disk} (hd : HeaderOk cf d) :
    Inv cf (view cf d) .loading (boot d) History.init where
  cache := boot_cacheInv d
  coherent := boot_coherent d _
  touched := nofun
  nodup_ops := List.nodup_nil
  outstanding := rfl
  sections := Sections.init d
  nodup := List.nodup_nil
  outside := nofun
  dirty _ h := by cases h
  pinned := nofun
  unlogged := nofun
  disk := by
    rw [logical_init]
    exact ⟨hd, fun _ _ => rfl⟩
  thread := by
    have hcode : (Log.boot d).code initPid = recoverFromLog := by simp [Log.boot]
    exact Or.inr ⟨initPid, .initDone, fun q hq => if_neg hq, hcode ▸ .readHead, rfl, rfl,
      Or.inr ⟨rfl, rfl, rfl⟩⟩
  returned := le_rfl

/-- **The invariant holds along every run** between power-on and the next power failure. -/
theorem Inv.of_run {d : Disk} (hd : HeaderOk cf d) {es : List Event}
    (hes : ∀ e ∈ es, e ≠ .crash ∧ e.Outside cf)
    (hr : run (tstep cf) (Log.boot d, History.init) es = some (s, h)) :
    ∃ st, Inv cf (view cf d) st s h := by
  refine run_induct (P := fun es (x : State × History) => (∀ e ∈ es, e ≠ .crash ∧ e.Outside cf) →
    ∃ st, Inv cf (view cf d) st x.1 x.2) hr (fun _ => ⟨_, .boot hd⟩) ?_ hes
  rintro es e ⟨t, k⟩ ⟨t', k'⟩ ih hst hall
  obtain ⟨st, hi⟩ := ih fun e he => hall e (List.mem_append_left _ he)
  obtain ⟨u, hu, hk⟩ := Option.map_eq_some_iff.mp hst
  cases hk
  obtain ⟨hne, hout⟩ := hall e (List.mem_append_right _ (List.mem_singleton_self e))
  exact hi.step hne hout hu

end

end Log

end Xv6
