import Xv6.Log.Alone
import Xv6.Log.Invariant

/-!
# Recovery runs to its end

At boot the first process is alone and no buffer is dirty, so every `bread` of `recover_from_log`
succeeds. There is one lemma for each piece of the program, and the loop of `install_trans` is by
induction on the rounds left.

## Main results

* `exists_runs_recover` — from power-on, `recover_from_log` runs to its end without a panic
-/

namespace Xv6

namespace Log

open State Transition

/-- The first process recovers the log, with `c` left to do and the blocks `bs` locked. -/
structure Recovering (s : State) (c : List Instr) (bs : List ℕ) : Prop where
  alone : Alone initPid bs s
  coherent : ∀ L, Coherent s L
  clean : ∀ i, (s.bufs i).dirty = false
  code : s.code initPid = c

/-- The first process gets from `s` to `s'` by itself. -/
def Runs (cf : Conf) (s s' : State) : Prop :=
  ∃ n, run (step cf) s (List.replicate n (.kernel initPid)) = some s'

/-- Only buffers and their users differ. -/
structure SameLog (s s' : State) : Prop where
  disk : s'.disk = s.disk
  lh : s'.lh = s.lh
  up : s'.up = s.up

section

variable {cf : Conf} {s s' : State} {c : List Instr} {bs : List ℕ} {b : ℕ}

theorem Runs.trans {s'' : State} (h : Runs cf s s') (h' : Runs cf s' s'') : Runs cf s s'' := by
  obtain ⟨n, hn⟩ := h
  obtain ⟨m, hm⟩ := h'
  refine ⟨n + m, ?_⟩
  rw [List.replicate_add, run_append, hn]
  exact hm

/-- One instruction. -/
theorem runs_of_exec {i : Instr} (hcode : s.code initPid = i :: c) (hpanic : s.panic = none)
    (hx : (s.setCode initPid c).exec cf initPid i = some s') : Runs cf s s' := by
  refine ⟨1, ?_⟩
  rw [List.replicate_one, run_cons]
  simp [step, hcode, hpanic, hx]

/-! ### Code and buffers are independent -/

theorem setCode_setCode (s : State) (p : Pid) (c c' : List Instr) :
    (s.setCode p c).setCode p c' = s.setCode p c' := by
  simp [setCode, Function.update_idem]

theorem setCode_push (s : State) (p : Pid) (is c : List Instr) :
    (s.setCode p c).push p is = s.setCode p (is ++ c) := by
  rw [push, setCode_setCode]
  simp [setCode]

theorem bget_setCode (s : State) (p q : Pid) (c : List Instr) (b : ℕ) :
    (s.setCode q c).bget p b = (s.bget p b).setCode q c := by
  have hl : (s.setCode q c).lookup b = s.lookup b := rfl
  have hv : (s.setCode q c).victim = s.victim := rfl
  unfold State.bget
  rw [hl, hv]
  cases s.lookup b <;> cases s.victim <;> rfl

theorem acquire_setCode {q : Pid} {x : Hold} (c : List Instr) (h : s.acquire x = some s') :
    (s.setCode q c).acquire x = some (s'.setCode q c) := by
  have hb : (s.setCode q c).bufs = s.bufs := rfl
  unfold State.acquire at h ⊢
  rw [hb]
  dsimp only at h ⊢
  split_ifs at h ⊢ <;> cases h <;> rfl

theorem Recovering.setCode (h : Recovering s c bs) (c' : List Instr) :
    Recovering (s.setCode initPid c') c' bs where
  alone := h.alone.congr rfl rfl rfl rfl
  coherent := h.coherent
  clean := h.clean
  code := by simp [State.setCode]

theorem Recovering.of_cacheStep (h : Recovering s c bs) (hstep : CacheStep s s') {bs' : List ℕ}
    (halone : Alone initPid bs' s') (c' : List Instr) :
    Recovering (s'.setCode initPid c') c' bs' ∧ SameLog s (s'.setCode initPid c') := by
  have : Recovering s' c bs' :=
    ⟨halone, fun L => hstep.coherent L (h.coherent L), fun i => (hstep.dirty i).1.trans (h.clean i),
      by rw [hstep.code]; exact h.code⟩
  exact ⟨this.setCode c', hstep.disk, hstep.lh, hstep.up⟩

theorem Recovering.card_dirtyBufs (h : Recovering s c bs) : (dirtyBufs s).card = 0 := by
  rw [Finset.card_eq_zero, dirtyBufs, Finset.filter_eq_empty_iff]
  intro i _
  simp [h.clean i]

/-! ### The pieces of the program -/

theorem Recovering.bread (cf : Conf) (h : Recovering s (bread b ++ c) bs) (hb : b ∉ bs)
    (hlt : b < FSSIZE)
    (hlen : bs.length < NBUF) : ∃ s', Runs cf s s' ∧ Recovering s' c (b :: bs) ∧ SameLog s s' := by
  obtain ⟨x, s', hx, hph, hpanic, hacq, hstep, halone⟩ :=
    h.alone.bread hb hlt (by rw [h.card_dirtyBufs]; exact hlen)
  obtain ⟨hrec, hsame⟩ := h.of_cacheStep hstep halone c
  have hget : Runs cf s ((s.bget initPid b).setCode initPid (.acquire b :: c)) := by
    refine runs_of_exec h.code h.alone.panic ?_
    have hnone : (s.setCode initPid (.acquire b :: c)).hold initPid b = none :=
      h.alone.hold_eq_none hb
    rw [← bget_setCode]
    exact if_pos hnone
  refine ⟨_, hget.trans (runs_of_exec (i := .acquire b) (c := c) ?_ hpanic ?_), hrec, hsame⟩
  · simp [State.setCode]
  · rw [setCode_setCode]
    exact withHold_eq_some.mpr ⟨x, hx, by rw [hph]; exact List.mem_singleton_self _,
      acquire_setCode c hacq⟩

theorem Recovering.brelse (cf : Conf) (h : Recovering s (brelse b ++ c) bs) (hb : b ∈ bs) :
    ∃ s', Runs cf s s' ∧ Recovering s' c (bs.erase b) ∧ SameLog s s' := by
  obtain ⟨x, y, hx, hxph, hy, hyph, hstep, halone⟩ := h.alone.brelse hb
  obtain ⟨hrec, hsame⟩ := h.of_cacheStep hstep halone c
  have hrel : Runs cf s ((s.release x).setCode initPid (.brelse b :: c)) :=
    runs_of_exec h.code h.alone.panic
      (withHold_eq_some.mpr ⟨x, hx, by rw [hxph]; exact List.mem_singleton_self _, rfl⟩)
  refine ⟨_, hrel.trans (runs_of_exec (i := .brelse b) (c := c) ?_ h.alone.panic ?_), hrec, hsame⟩
  · simp [State.setCode]
  · rw [setCode_setCode]
    exact withHold_eq_some.mpr ⟨y, hy, by rw [hyph]; exact List.mem_singleton_self _, rfl⟩

/-- The first process writes a buffer it has locked. -/
theorem Recovering.bwrite {x : Hold} (h : Recovering s c bs) (hx : s.hold initPid b = some x)
    (hph : x.phase = .held) (data : Block) (c' : List Instr) :
    Recovering ((s.setCode initPid c').bwrite x data) c' bs := by
  obtain ⟨hmem, -, -⟩ := mem_of_hold hx
  have h' := h.setCode c'
  refine ⟨⟨h'.alone.cache.bwrite hmem hph data, h.alone.panic, h.alone.nodup, h.alone.held,
    h.alone.mem, h.alone.length⟩, fun L => (h'.coherent L).bwrite h'.alone.cache hmem data,
    fun i => ?_, h'.code⟩
  by_cases hi : i = x.buf
  · simp [State.bwrite, setBuf, hi]
  · simpa [State.bwrite, setBuf, hi] using h'.clean i

theorem Recovering.copyWrite (cf : Conf) {src dst : ℕ}
    (h : Recovering s (.copyWrite src dst :: c) bs) (hsrc : src ∈ bs) (hdst : dst ∈ bs) :
    ∃ s', Runs cf s s' ∧ Recovering s' c bs ∧ s'.lh = s.lh ∧ s'.up = s.up := by
  obtain ⟨x, hx, -, -, -, hxph⟩ := h.alone.hold_eq_some hsrc
  obtain ⟨y, hy, -, -, -, hyph⟩ := h.alone.hold_eq_some hdst
  refine ⟨_, runs_of_exec h.code h.alone.panic ?_, h.bwrite hy hyph (s.bufs x.buf).data c, rfl, rfl⟩
  exact withHold_eq_some.mpr ⟨x, hx, by rw [hxph]; exact List.mem_singleton_self _,
    withHold_eq_some.mpr ⟨y, hy, by rw [hyph]; exact List.mem_singleton_self _, rfl⟩⟩

/-- A round of `install_trans`. -/
theorem Recovering.installRound {t : ℕ} (h : Recovering s (installRound cf t b ++ c) [])
    (hlog : cf.logBlock t < FSSIZE) (hlt : b < FSSIZE) (hne : b ≠ cf.logBlock t) :
    ∃ s', Runs cf s s' ∧ Recovering s' c [] ∧ s'.lh = s.lh ∧ s'.up = s.up := by
  simp only [Log.installRound, List.append_assoc] at h
  obtain ⟨s₁, r₁, h₁, e₁⟩ := h.bread cf (by simp) hlog (by simp [NBUF, MAXOPBLOCKS])
  obtain ⟨s₂, r₂, h₂, e₂⟩ := h₁.bread cf (by simpa using hne) hlt
    (by simp [NBUF, MAXOPBLOCKS])
  obtain ⟨s₃, r₃, h₃, l₃, u₃⟩ := h₂.copyWrite cf (by simp) (by simp)
  obtain ⟨s₄, r₄, h₄, e₄⟩ := h₃.brelse cf (by simp)
  obtain ⟨s₅, r₅, h₅, e₅⟩ := h₄.brelse cf (b := b)
    ((List.mem_erase_of_ne hne).mpr List.mem_cons_self)
  refine ⟨s₅, r₁.trans (r₂.trans (r₃.trans (r₄.trans r₅))), ?_, ?_, ?_⟩
  · simpa [List.erase_cons, hne, hne.symm] using h₅
  · rw [e₅.lh, e₄.lh, l₃, e₂.lh, e₁.lh]
  · rw [e₅.up, e₄.up, u₃, e₂.up, e₁.up]

/-- The loop of `install_trans`. -/
theorem Recovering.installTrans (lh : List ℕ) (hlog : ∀ t < lh.length, cf.logBlock t < FSSIZE)
    (hout : ∀ b ∈ lh, b < FSSIZE ∧ ∀ t < lh.length, b ≠ cf.logBlock t) :
    ∀ (n t : ℕ) {s : State}, lh.length ≤ t + n → s.lh = lh →
      Recovering s (.installTrans t :: c) [] →
      ∃ s', Runs cf s s' ∧ Recovering s' c [] ∧ s'.lh = lh ∧ s'.up = s.up := by
  intro n
  induction n with
  | zero =>
    intro t s hle hlh h
    refine ⟨s.setCode initPid c, runs_of_exec h.code h.alone.panic ?_, h.setCode c, hlh, rfl⟩
    have : (s.setCode initPid c).lh[t]? = none := by
      rw [List.getElem?_eq_none_iff]
      exact hlh ▸ hle
    rw [exec, this]
  | succ n ih =>
    intro t s hle hlh h
    by_cases ht : t < lh.length
    · have hget : (s.setCode initPid c).lh[t]? = some lh[t] := by
        rw [show (s.setCode initPid c).lh = lh from hlh, List.getElem?_eq_getElem ht]
      have hrun : Runs cf s (s.setCode initPid
          (Log.installRound cf t lh[t] ++ (.installTrans (t + 1) :: c))) := by
        refine runs_of_exec h.code h.alone.panic ?_
        rw [exec, hget]
        simp only [setCode_push, List.append_assoc, List.singleton_append]
      obtain ⟨hlt, hne⟩ := hout _ (List.getElem_mem ht)
      obtain ⟨s₁, r₁, h₁, l₁, u₁⟩ := (h.setCode (Log.installRound cf t lh[t] ++
        (.installTrans (t + 1) :: c))).installRound (hlog t ht) hlt (hne t ht)
      obtain ⟨s₂, r₂, h₂, l₂, u₂⟩ := ih (t + 1) (by omega) (l₁.trans hlh) h₁
      exact ⟨s₂, hrun.trans (r₁.trans r₂), h₂, l₂, u₂.trans u₁⟩
    · exact ih t (by omega) hlh h

/-- `read_head` and `write_head`: the header block is read, used by `i` and given back. -/
theorem Recovering.useHead {i j : Instr} (h : Recovering s (i :: c) [])
    (hi : ∀ s : State, s.exec cf initPid i =
      some (s.push initPid (Log.bread cf.start ++ [j] ++ Log.brelse cf.start)))
    {P : State → Prop}
    (hj : ∀ {s₁}, Recovering s₁ (j :: (Log.brelse cf.start ++ c)) [cf.start] → SameLog s s₁ →
      ∃ s₂, Runs cf s₁ s₂ ∧ Recovering s₂ (Log.brelse cf.start ++ c) [cf.start] ∧ P s₂)
    (hP : ∀ {s₂ s₃}, SameLog s₂ s₃ → P s₂ → P s₃) :
    ∃ s', Runs cf s s' ∧ Recovering s' c [] ∧ P s' := by
  have hstart : cf.start < FSSIZE := by
    have := cf.size_ge
    have := cf.end_le
    have := LOGSIZE_eq
    omega
  have hrun := runs_of_exec h.code h.alone.panic (hi _)
  rw [setCode_push, List.append_assoc, List.append_assoc] at hrun
  obtain ⟨s₁, r₁, h₁, e₁⟩ :=
    (h.setCode (Log.bread cf.start ++ ([j] ++ (Log.brelse cf.start ++ c)))).bread
    cf (by simp) hstart (by simp [NBUF, MAXOPBLOCKS])
  obtain ⟨s₂, r₂, h₂, p₂⟩ := hj h₁ ⟨e₁.disk, e₁.lh, e₁.up⟩
  obtain ⟨s₃, r₃, h₃, e₃⟩ := h₂.brelse cf (by simp)
  refine ⟨s₃, hrun.trans (r₁.trans (r₂.trans r₃)), ?_, hP e₃ p₂⟩
  simpa using h₃

/-- `read_head`. -/
theorem Recovering.readHead (cf : Conf) (h : Recovering s (.readHead :: c) []) :
    ∃ s', Runs cf s s' ∧ Recovering s' c [] ∧ s'.lh = header cf s.disk ∧ s'.up = s.up := by
  refine h.useHead (P := fun s' => s'.lh = header cf s.disk ∧ s'.up = s.up) (fun _ => rfl)
    (fun {s₁} h₁ e₁ => ?_) fun e hP => ⟨e.lh.trans hP.1, e.up.trans hP.2⟩
  obtain ⟨x, hx, hmem, -, hb, hph⟩ := h₁.alone.hold_eq_some (b := cf.start) (by simp)
  have h' := h₁.setCode (Log.brelse cf.start ++ c)
  refine ⟨_, runs_of_exec h₁.code h₁.alone.panic
    (withHold_eq_some.mpr ⟨x, hx, by rw [hph]; exact List.mem_singleton_self _, rfl⟩),
    ⟨h'.alone.congr rfl rfl rfl rfl, h'.coherent, h'.clean, h'.code⟩, ?_, e₁.up⟩
  -- the buffer holds the header block of the disk
  have hdata := h₁.coherent s.disk x.buf cf.start (hb ▸ h₁.alone.cache.hold_block x hmem)
    (h₁.alone.cache.valid x hmem (by rw [hph]; rfl)) (h₁.alone.cache.untouched hmem hph)
  rw [h₁.clean, if_neg Bool.false_ne_true, e₁.disk] at hdata
  exact congrArg headOf hdata

/-- `write_head`. -/
theorem Recovering.writeHead (cf : Conf) (h : Recovering s (.writeHead :: c) []) :
    ∃ s', Runs cf s s' ∧ Recovering s' c [] ∧ s'.up = s.up := by
  refine h.useHead (P := fun s' => s'.up = s.up) (fun _ => rfl) (fun {s₁} h₁ e₁ => ?_)
    fun e hP => e.up.trans hP
  obtain ⟨x, hx, -, -, -, hph⟩ := h₁.alone.hold_eq_some (b := cf.start) (by simp)
  exact ⟨_, runs_of_exec h₁.code h₁.alone.panic
    (withHold_eq_some.mpr ⟨x, hx, by rw [hph]; exact List.mem_singleton_self _, rfl⟩),
    h₁.bwrite hx hph _ _, e₁.up⟩

end

/-! ### The whole program -/

theorem boot_recovering (d : Disk) : Recovering (boot d) recoverFromLog [] where
  alone := ⟨boot_cacheInv d, rfl, List.nodup_nil, nofun, nofun, le_rfl⟩
  coherent := boot_coherent d
  clean _ := rfl
  code := rfl

/-- **Recovery completes.** From power-on with any header that fits, `recover_from_log` runs to its
end. -/
theorem exists_runs_recover {cf : Conf} {d : Disk} (hd : HeaderOk cf d) :
    ∃ s', Runs cf (boot d) s' ∧ s'.up = true ∧ s'.panic = none := by
  obtain ⟨s₁, r₁, h₁, l₁, -⟩ := (boot_recovering d).readHead cf
  have hsize := cf.size_ge
  have hend := cf.end_le
  have hlen := hd.length_lt
  obtain ⟨s₂, r₂, h₂, -, -⟩ := Recovering.installTrans (header cf d)
    (fun t ht => by unfold Conf.logBlock; omega)
    (fun b hb => ⟨hd.lt_size b hb, fun t ht =>
      cf.ne_logBlock_of_outside (hd.outside b hb) (by omega)⟩)
    (header cf d).length 0 (by omega) l₁ h₁
  have r₃ : Runs cf s₂ { s₂.setCode initPid [.writeHead, .initDone] with lh := [] } :=
    runs_of_exec h₂.code h₂.alone.panic rfl
  have h₃ : Recovering { s₂.setCode initPid [.writeHead, .initDone] with lh := [] }
      [.writeHead, .initDone] [] :=
    have h' := h₂.setCode [.writeHead, .initDone]
    ⟨h'.alone.congr rfl rfl rfl rfl, h'.coherent, h'.clean, h'.code⟩
  obtain ⟨s₄, r₄, h₄, -⟩ := h₃.writeHead cf
  have r₅ : Runs cf s₄ { s₄.setCode initPid [] with up := true } :=
    runs_of_exec h₄.code h₄.alone.panic rfl
  exact ⟨_, r₁.trans (r₂.trans (r₃.trans (r₄.trans r₅))), rfl, h₄.alone.panic⟩

end Log

end Xv6
