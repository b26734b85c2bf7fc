import Xv6.Spinlock.Machine

/-!
# Interrupt nesting

`ncli` and `intena` are fields of a CPU, but what they mean belongs to the thread that the CPU runs.
The invariant says so: `ncli` is the depth of that thread, interrupts are off when it is not `0`,
and for a process `intena` is the interrupt flag at its outermost `pushcli`. `sched` saves `intena`
in a local variable, and the thread has it back before anything else, wherever it goes on. Both
sides of a `swtch` are at depth `1`, so that `ncli` fits the new thread as well.

## Main results

* `Inv.step` — the invariant
* `interrupts_nest` — interrupts nest as `pushcli` and `popcli` promise
-/

namespace Xv6

namespace Spinlock

open Transition

variable {n : ℕ}

/-! ### The depth along a program -/

/-- From depth `d` on, each operation comes at a depth that it is made for. -/
def Suits : List Op → ℕ → Prop
  | [], _ => True
  | o :: rest, d =>
    match o with
    | .pushcli => Suits rest (d + 1)
    | .popcli => 0 < d ∧ Suits rest (d - 1)
    | .swtch => rest = []
    | .pick => d = 1 ∧ rest = []
    | .loop => d = 0 ∧ rest = []
    | .mycpu | .test _ | .check _ | .xchg _ | .setCpu _ _ | .unlock _ | .choose => Suits rest d
    | .cli | .restore | .forkret => False

/-- What a thread does at depth `d` suits it, and an outermost `pushcli` has read its flags. -/
inductive Act.Fits (a : Act) (d : ℕ) : Prop
  | plain (h : Suits a.todo d)
  | cli (o : List Op) (h : a.todo = .cli :: o) (hs : Suits o (d + 1))
      (hread : d = 0 → a.eflags = a.entry)
  | restore (h : a.todo = [.restore])

theorem suits_body (k : Call) {d : ℕ} (h : k.pops = true → 0 < d) : Suits k.body d := by
  cases k with
  | popcli | release => simp [Call.body, release, holding, Suits, h rfl]
  | _ => simp [Call.body, acquire, holding, myproc, sched, Suits]

theorem suits_release : Suits (release .ptable) 1 ∧ Suits (release .ptable ++ [.loop]) 1 := by
  simp [release, holding, Suits]

theorem Suits.ne_restore {o : List Op} {d : ℕ} (h : Suits o d) : o ≠ [.restore] := by
  rintro rfl
  exact h

theorem Act.Fits.suits {a : Act} {d : ℕ} {o : Op} {rest : List Op} (h : a.Fits d)
    (ho : a.todo = o :: rest) (hne : o ≠ .cli ∧ o ≠ .restore := by simp) : Suits (o :: rest) d := by
  cases h with
  | plain hs => exact ho ▸ hs
  | cli o' h' => cases ho.symm.trans h'; exact absurd rfl hne.1
  | restore h' => cases ho.symm.trans h'; exact absurd rfl hne.2

theorem ofNat_eq_zero_iff {d : ℕ} (h : d ≤ 2 ^ 31) : BitVec.ofNat 32 d = 0#32 ↔ d = 0 := by
  constructor
  · intro heq
    have := congrArg BitVec.toNat heq
    simp at this
    omega
  · rintro rfl
    rfl

/-! ### The invariant -/

/-- `intena`, or the copy of it in `sched`, is the interrupt flag at the outermost `pushcli`. -/
def Act.Kept (a : Act) (d : ℕ) (intena : Bool) : Prop :=
  0 < d → (if a.todo = [.restore] then a.intena else intena) = a.entry

/-- CPU `k` runs thread `t`. The flag of a `scheduler` is known until it switches to a process. -/
structure Running (t : Tid n) (k : Cpu) (th : Thread) : Prop where
  ncli : k.ncli = BitVec.ofNat 32 th.depth
  le : th.depth ≤ 2 ^ 31
  masked : 0 < th.depth → k.intr = false
  fits : th.act.Fits th.depth
  frames : ∀ a ∈ th.frames, a.Fits 0
  kept : (∃ p, t = .proc p) ∨ Op.pick ∈ th.act.todo → th.act.Kept th.depth k.intena

/-- A thread that no CPU runs is inside `swtch`, and has `ptable.lock` to release. -/
structure Off (t : Tid n) (th : Thread) : Prop where
  depth : th.depth = 1
  frames : ∀ a ∈ th.frames, a.Fits 0
  proc : ∀ p, t = .proc p → th.act.todo = [.restore] ∧ th.act.intena = th.act.entry ∨
    th.act.todo = .forkret :: release .ptable
  sched : ∀ c, t = .sched c → th.act.todo = release .ptable ++ [.loop]

/-- **The invariant.** -/
structure Inv (s : State n) : Prop where
  home : ∀ c c', s.cur c = .sched c' → c' = c
  inj : Function.Injective s.cur
  running : ∀ c, Running (s.cur c) (s.cpu c) (s.current c)
  off : ∀ t, (∀ c, s.cur c ≠ t) → Off t (s.thread t)

theorem inv_boot (n : ℕ) : Inv (boot n) where
  home c c' h := (Tid.sched.inj h).symm
  inj c c' h := Tid.sched.inj h
  running c :=
    { ncli := rfl
      le := Nat.zero_le _
      masked := fun h => absurd h (Nat.lt_irrefl 0)
      fits := .plain ⟨rfl, rfl⟩
      frames := by simp [State.current, boot]
      kept := fun _ h => absurd h (Nat.lt_irrefl 0) }
  off t h := by
    cases t with
    | proc p => exact ⟨rfl, by simp [boot], fun _ _ => .inr rfl, by rintro _ ⟨⟩⟩
    | sched c => exact absurd rfl (h c)

namespace Running

variable {t : Tid n} {k : Cpu} {th : Thread} {o : List Op}

/-- The operation at the front changes nothing but `r`. -/
theorem pop (h : Running t k th) (hs : Suits o th.depth) {op : Op}
    (ho : th.act.todo = op :: o) (hne : op ≠ .restore) (r : Bool) :
    Running t k { th with act := { th.act with todo := o, r := r } } := by
  refine { h with fits := .plain hs, kept := fun ht hd => ?_ }
  have hk := h.kept (ht.imp_right fun hmem => ho ▸ List.mem_cons_of_mem op hmem) hd
  simpa [hs.ne_restore, ho, hne] using hk

/-- At depth `d > 0`, the decrement of `popcli` gives `d - 1`, which is not negative. -/
theorem ncli_sub_one (h : Running t k th) (hd : 0 < th.depth) :
    k.ncli - 1 = BitVec.ofNat 32 (th.depth - 1) ∧ (k.ncli - 1).slt 0 = false := by
  have hle := h.le
  have hsub : k.ncli - 1 = BitVec.ofNat 32 (th.depth - 1) := by
    rw [h.ncli]
    bv_omega
  refine ⟨hsub, ?_⟩
  change (k.ncli - 1).slt 0#32 = false
  rw [hsub, BitVec.slt_zero_eq_msb, BitVec.msb_eq_false_iff_two_mul_lt]
  simp
  omega

end Running

namespace Inv

variable {s s' : State n} {c : Fin (n + 1)} {o : Op} {rest : List Op}

/-- **A step of one CPU.** Only the CPU and the thread that it runs matter. -/
theorem put (h : Inv s) {k : Cpu} {th : Thread} (hr : Running (s.cur c) k th) :
    Inv (s.put c k th) where
  home := h.home
  inj := h.inj
  running c' := by
    by_cases hc : c' = c
    · subst hc
      simpa [State.put, State.current] using hr
    · have hne : s.cur c' ≠ s.cur c := fun heq => hc (h.inj heq)
      simpa [State.put, State.current, hc, hne] using h.running c'
  off t ht := by
    have hne : t ≠ s.cur c := (ht c).symm
    simpa [State.put, hne] using h.off t ht

theorem setLock (h : Inv s) (lk : LockId) (l : Lock n) : Inv (s.setLock lk l) :=
  ⟨h.home, h.inj, h.running, h.off⟩

/-- **A `swtch`** of CPU `c` to thread `t`. -/
theorem switch (h : Inv s) {t : Tid n} {k : Cpu} {th₀ th₁ : Thread} (hfree : ∀ c', s.cur c' ≠ t)
    (hhome : ∀ c', t = .sched c' → c' = c) (h₀ : Off (s.cur c) th₀) (h₁ : Running t k th₁) :
    Inv { s with
      cpu := Function.update s.cpu c k
      cur := Function.update s.cur c t
      thread := Function.update (Function.update s.thread (s.cur c) th₀) t th₁ } := by
  refine ⟨fun c₁ c₂ heq => ?_, fun c₁ c₂ heq => ?_, fun c' => ?_, fun t' ht' => ?_⟩
  · by_cases hc₁ : c₁ = c
    · subst hc₁
      exact hhome c₂ (by simpa using heq)
    · exact h.home c₁ c₂ (by simpa [hc₁] using heq)
  · by_cases hc₁ : c₁ = c <;> by_cases hc₂ : c₂ = c <;> simp [hc₁, hc₂] at heq ⊢
    · exact absurd heq.symm (hfree c₂)
    · exact absurd heq (hfree c₁)
    · exact h.inj heq
  · by_cases hc' : c' = c
    · subst hc'
      simpa [State.current] using h₁
    · have hne : s.cur c' ≠ s.cur c := fun heq => hc' (h.inj heq)
      simpa [State.current, hc', hne, hfree c'] using h.running c'
  · have hne : t' ≠ t := by simpa using (ht' c).symm
    by_cases hcur : t' = s.cur c
    · subst hcur
      simpa [hne] using h₀
    · have hoff : Off t' (s.thread t') := by
        refine h.off t' fun c' heq => ?_
        have hc' : c' ≠ c := by rintro rfl; exact hcur heq.symm
        exact ht' c' (by simpa [hc'] using heq)
      simpa [hne, hcur] using hoff

/-- `sched` switches to `scheduler`. Both are at depth `1`. -/
theorem swtch (h : Inv s) {p : ℕ} (hc : s.cur c = .proc p) (hintr : (s.cpu c).intr = false)
    (hncli : (s.cpu c).ncli = 1)
    (ho : (s.current c).act.todo = [.swtch]) {th : Thread}
    (hth : th = { s.current c with act := { (s.current c).act with
      todo := [.restore], intena := (s.cpu c).intena } }) :
    Inv { s.put c (s.cpu c) th with cur := Function.update s.cur c (.sched c) } := by
  have hr := h.running c
  have hdepth : (s.current c).depth = 1 := by
    have heq := congrArg BitVec.toNat (hr.ncli.symm.trans hncli)
    have hle := hr.le
    simp at heq
    omega
  have hkept : (s.cpu c).intena = (s.current c).act.entry := by
    simpa [ho] using hr.kept (.inl ⟨p, hc⟩) (by omega)
  have hfree : ∀ c', s.cur c' ≠ .sched c := by
    intro c' heq
    obtain rfl := h.home c' c heq
    cases hc.symm.trans heq
  have hw := h.off _ hfree
  have htodo := hw.sched c rfl
  have h₀ : Off (s.cur c) th := by
    rw [hc, hth]
    exact ⟨hdepth, hr.frames, fun _ _ => .inl ⟨rfl, hkept⟩, by rintro _ ⟨⟩⟩
  have h₁ : Running (.sched c) (s.cpu c) (s.thread (.sched c)) := by
    refine ⟨by rw [hw.depth, hncli]; rfl, by rw [hw.depth]; decide, fun _ => hintr,
      .plain (by rw [htodo, hw.depth]; exact suits_release.2), hw.frames, ?_⟩
    rintro (⟨_, ⟨⟩⟩ | hmem)
    rw [htodo] at hmem
    simp [release, holding] at hmem
  have hs := h.switch hfree (fun c' heq => (Tid.sched.inj heq).symm) h₀ h₁
  rw [Function.update_comm (hfree c), Function.update_eq_self (Tid.sched c) s.thread] at hs
  exact hs

theorem exec (h : Inv s) (ho : (s.current c).act.todo = o :: rest)
    (hlt : o = .cli → (s.current c).depth < 2 ^ 31)
    (hst : exec s c (s.cpu c) (s.current c) rest o = some s') : Inv s' := by
  have hr := h.running c
  have hkept : (∃ p, s.cur c = .proc p) ∨ Op.pick ∈ rest → _ := fun ht =>
    hr.kept (ht.imp_right fun hmem => ho ▸ List.mem_cons_of_mem o hmem)
  have hpop : Suits rest (s.current c).depth → o ≠ .restore → ∀ r, Inv (s.put c (s.cpu c)
      { s.current c with act := { (s.current c).act with todo := rest, r := r } }) :=
    fun hs hne r => h.put (hr.pop hs ho hne r)
  cases o with
  | pushcli =>
    cases hst
    have hfits := hr.fits.suits ho
    refine h.put { hr with
      fits := .cli rest rfl hfits fun hd => (if_pos hd).symm
      kept := fun ht (hd : 0 < (s.current c).depth) => ?_ }
    simpa [ho, hd.ne'] using hkept (by simpa using ht) hd
  | cli =>
    cases hst
    obtain ⟨hs, hread⟩ : Suits rest ((s.current c).depth + 1) ∧
        ((s.current c).depth = 0 → (s.current c).act.eflags = (s.current c).act.entry) := by
      cases hr.fits with
      | plain hs => rw [ho] at hs; exact hs.elim
      | cli o' h' hs hread => cases ho.symm.trans h'; exact ⟨hs, hread⟩
      | restore h' => cases ho.symm.trans h'
    refine h.put ⟨?_, hlt rfl, fun _ => rfl, .plain hs, hr.frames, fun ht _ => ?_⟩
    · simp only [hr.ncli, BitVec.ofNat_add]
      rfl
    · have hz : (s.cpu c).ncli = 0#32 ↔ (s.current c).depth = 0 := by
        rw [hr.ncli]
        exact ofNat_eq_zero_iff hr.le
      by_cases hd : (s.current c).depth = 0
      · simpa [Thread.setTodo, hs.ne_restore, hz, hd] using hread hd
      · simpa [Thread.setTodo, hs.ne_restore, hz, hd, ho] using hkept ht (Nat.pos_of_ne_zero hd)
  | popcli =>
    obtain ⟨hd, hs⟩ := hr.fits.suits ho
    have hncli := (hr.ncli_sub_one hd).1
    have hle := (Nat.sub_le _ 1).trans hr.le
    obtain ⟨-, hst⟩ := Option.ite_none_left_eq_some.mp hst
    cases hst
    refine h.put ⟨hncli, hle, fun hd' => ?_, .plain hs, hr.frames, fun ht _ => ?_⟩
    · refine decide_eq_false fun hz => hd'.ne' ?_
      exact (ofNat_eq_zero_iff hle).mp (hncli.symm.trans hz.1)
    · simpa [Thread.setTodo, hs.ne_restore, ho] using hkept ht hd
  | loop =>
    cases hst
    obtain ⟨hd, -⟩ := hr.fits.suits ho
    exact h.put { hr with
      masked := fun hd' => absurd hd hd'.ne'
      fits := .plain (by simp [Thread.setTodo, hd, acquire, holding, Suits])
      kept := fun _ hd' => absurd hd hd'.ne' }
  | choose =>
    cases hst
    have hs := hr.fits.suits ho
    refine h.put { hr with
      fits := .plain (by simpa [Thread.setTodo, switchuvm, Suits] using hs)
      kept := fun ht hd => ?_ }
    have hk := hkept (by simpa [Thread.setTodo, switchuvm] using ht) hd
    simpa [Thread.setTodo, switchuvm, ho] using hk
  | restore =>
    have hrest : rest = [] := by
      cases hr.fits with
      | plain hs => rw [ho] at hs; exact hs.elim
      | cli o' h' => cases ho.symm.trans h'
      | restore h' => cases ho.symm.trans h'; rfl
    obtain ⟨-, hst⟩ := Option.ite_none_left_eq_some.mp hst
    cases hst
    subst hrest
    refine h.put { hr with fits := .plain trivial, kept := fun ht hd => ?_ }
    simpa [Thread.setTodo, ho] using hkept ht hd
  | swtch =>
    cases hc : s.cur c with
    | sched c' => simp [Spinlock.exec, hc] at hst
    | proc p =>
      have hrest : rest = [] := hr.fits.suits ho
      simp only [Spinlock.exec, hc] at hst
      obtain ⟨hok, hst⟩ := Option.ite_none_left_eq_some.mp hst
      cases hst
      subst hrest
      exact h.swtch hc (by simpa using fun h => hok (.inl h)) (not_not.mp fun h => hok (.inr h)) ho
        rfl
  | forkret | pick => cases hst
  | xchg lk =>
    simp only [Spinlock.exec] at hst
    split at hst
    · cases hst
      exact h
    · cases hst
      exact (hpop (hr.fits.suits ho) (by rintro ⟨⟩) _).setLock _ _
  | unlock lk =>
    cases hst
    exact (hpop (hr.fits.suits ho) (by rintro ⟨⟩) _).setLock _ _
  | mycpu | test lk | check want | setCpu lk set =>
    have hpop := hpop (hr.fits.suits ho) (by rintro ⟨⟩)
    simp only [Spinlock.exec] at hst
    split at hst <;> cases hst
    first | exact hpop _ | exact (hpop _).setLock _ _

/-- A process goes on at depth `1`. A new one has the `intena` of `scheduler`. -/
theorem resumed (h : Inv s) (ho : (s.current c).act.todo = [.pick]) {p : ℕ} {th : Thread}
    (hth : Off (.proc p : Tid n) th) :
    Running (.proc p : Tid n) (s.cpu c) (th.resumed (s.current c).act.entry) := by
  have hr := h.running c
  obtain ⟨hd, -⟩ := hr.fits.suits ho
  have hkept : (s.cpu c).intena = (s.current c).act.entry := by
    simpa [ho] using hr.kept (.inr (by simp [ho])) (by omega)
  have hrun : ∀ a : Act, a.Fits 1 → a.Kept 1 (s.cpu c).intena →
      Running (.proc p : Tid n) (s.cpu c) { th with act := a } := fun a hfits hk =>
    { ncli := by rw [hr.ncli, hd, hth.depth]
      le := by rw [hth.depth]; decide
      masked := fun _ => hr.masked (by omega)
      fits := by rwa [hth.depth]
      frames := hth.frames
      kept := fun _ => by rwa [hth.depth] }
  rcases hth.proc p rfl with ⟨htodo, hent⟩ | htodo
  · simp only [Thread.resumed, htodo]
    exact hrun _ (.restore htodo) fun _ => by simpa [htodo] using hent
  · simp only [Thread.resumed, htodo]
    refine hrun _ (.plain suits_release.1) fun _ => ?_
    simpa [suits_release.1.ne_restore] using hkept

theorem step (h : Inv s) {e : Event n} (hok : Balanced s e) (hst : step s e = some s') :
    Inv s' := by
  cases e with
  | exec c =>
    simp only [Spinlock.step] at hst
    split at hst
    · rename_i o rest ho
      exact h.exec ho (fun hcli => hok (by rw [ho, hcli]; rfl)) hst
    · cases hst
  | call c k =>
    obtain ⟨⟨ho, -⟩, hst⟩ := Option.ite_none_right_eq_some.mp hst
    cases hst
    have hr := h.running c
    refine h.put { hr with
      fits := .plain (suits_body k hok)
      kept := fun ht hd => ?_ }
    have hbody : Op.pick ∉ k.body ∧ k.body ≠ [.restore] := by
      cases k <;> simp [Call.body, acquire, release, holding, myproc, sched]
    simpa [Thread.setTodo, hbody.2, ho] using hr.kept (.inl (ht.resolve_right hbody.1)) hd
  | interrupt c =>
    obtain ⟨hintr, hst⟩ := Option.ite_none_right_eq_some.mp hst
    cases hst
    have hr := h.running c
    have hd : (s.current c).depth = 0 := by
      by_contra hd
      cases hintr.symm.trans (hr.masked (Nat.pos_of_ne_zero hd))
    refine h.put ⟨hr.ncli, hr.le, fun _ => rfl, .plain trivial,
      List.forall_mem_cons.mpr ⟨hd ▸ hr.fits, hr.frames⟩, fun _ hd' => absurd hd hd'.ne'⟩
  | iret c =>
    simp only [Spinlock.step] at hst
    split at hst
    · rename_i a fs ho hf
      cases hst
      have hr := h.running c
      have hd : (s.current c).depth = 0 := hok
      have hfr := List.forall_mem_cons.mp (hf ▸ hr.frames)
      exact h.put ⟨hr.ncli, hr.le, fun hd' => absurd hd hd'.ne',
        hd ▸ hfr.1, hfr.2, fun _ hd' => absurd hd hd'.ne'⟩
    · cases hst
  | pick c p =>
    have hr := h.running c
    cases p with
    | none =>
      obtain ⟨ho, hst⟩ := Option.ite_none_right_eq_some.mp hst
      obtain ⟨hd, -⟩ := hr.fits.suits ho
      cases hst
      refine h.put { hr with
        fits := .plain (by rw [Thread.setTodo, hd]; exact suits_release.2)
        kept := fun ht hd => ?_ }
      have hk := hr.kept (.inr (by simp [ho])) hd
      simpa [Thread.setTodo, ho, suits_release.2.ne_restore] using hk
    | some p =>
      obtain ⟨⟨hc, ho, hfree⟩, hst⟩ := Option.ite_none_right_eq_some.mp hst
      obtain ⟨hd, -⟩ := hr.fits.suits ho
      cases hst
      refine h.switch hfree (by rintro _ ⟨⟩) ?_ (h.resumed ho (h.off _ hfree))
      rw [hc]
      exact ⟨hd, hr.frames, by rintro _ ⟨⟩, fun _ _ => rfl⟩

end Inv

/-! ### Nesting -/

/-- **Interrupt nesting.** In every run, interrupts are off on a CPU whose `ncli` is positive,
`popcli` does not panic, and the outermost `popcli` of a process gives it the interrupt flag that it
had at the matching `pushcli`, whatever CPUs it has been on since. -/
theorem interrupts_nest {s : State n} (h : Reach step Balanced (boot n) s) (c : Fin (n + 1)) :
    (0 < (s.cpu c).ncli.toInt → (s.cpu c).intr = false) ∧
    ((s.current c).act.todo.head? = some .popcli → ∃ s', step s (.exec c) = some s' ∧
      ∀ p, s.cur c = .proc p → (s.current c).depth = 1 →
        (s'.cpu c).intr = (s.current c).act.entry) := by
  have hr := (h.induct (P := Inv) (inv_boot n) fun _ _ _ hi hok hst => hi.step hok hst).running c
  refine ⟨fun hpos => hr.masked (Nat.pos_of_ne_zero fun hd => ?_), fun hhead => ?_⟩
  · rw [hr.ncli, hd] at hpos
    exact absurd hpos (by decide)
  · obtain ⟨rest, ho⟩ := List.head?_eq_some_iff.mp hhead
    obtain ⟨hd, -⟩ := hr.fits.suits ho
    obtain ⟨hncli, hpos⟩ := hr.ncli_sub_one hd
    simp only [step, ho, exec, hr.masked hd, hpos, Bool.false_eq_true, or_self, if_false]
    refine ⟨_, rfl, fun p hc hd => ?_⟩
    have hkept : (s.cpu c).intena = (s.current c).act.entry := by
      simpa [ho] using hr.kept (.inl ⟨p, hc⟩) (by omega)
    rw [hd] at hncli
    simp only [State.put, Function.update_self, hkept, hncli]
    cases (s.current c).act.entry <;> rfl

instance (s : State n) : DecidablePred (Balanced s)
  | .call c k => inferInstanceAs (Decidable (k.pops = true → 0 < (s.current c).depth))
  | .iret c => inferInstanceAs (Decidable ((s.current c).depth = 0))
  | .exec c => inferInstanceAs (Decidable
      ((s.current c).act.todo.head? = some .cli → (s.current c).depth < 2 ^ 31))
  | .interrupt _ | .pick _ _ => .isTrue trivial

/-- On CPU `c` a process starts, calls `acquire(&ptable.lock)` with interrupts on and then `sched`;
it goes on on CPU `c'` and is about to end its `release`. -/
def migrates (c c' : Fin (n + 1)) : List (Event n) :=
  let go k (c : Fin (n + 1)) : List (Event n) := .replicate k (.exec c)
  go 15 c ++ .pick c (some 0) :: go 8 c ++ .call c (.acquire .ptable) :: go 9 c ++
    .call c .sched :: go 18 c ++ go 15 c' ++ .pick c' (some 0) :: .exec c' ::
    .call c' (.release .ptable) :: go 7 c'

theorem interrupts_nest_migrates :
    ∃ s s', Reach step Balanced (boot 1) s ∧ s.cur 1 = .proc 0 ∧ step s (.exec 1) = some s' ∧
      (s'.cpu 1).intr = (s.current 1).act.entry ∧ (s.current 1).act.entry = true := by
  obtain ⟨s, hrun, hc, hhead, hd, hent⟩ := exists_of_any
    (fun s e => if Balanced s e then step s e else none) (boot 1) (migrates 0 1)
    (fun s => s.cur 1 = .proc 0 ∧ (s.current 1).act.todo.head? = some .popcli ∧
      (s.current 1).depth = 1 ∧ (s.current 1).act.entry = true) (by decide +kernel)
  have hreach := (Trace.of_run_ite hrun).reach
  obtain ⟨s', hst, hflag⟩ := (interrupts_nest hreach 1).2 hhead
  exact ⟨s, s', hreach, hc, hst, hflag 0 hc hd, hent⟩

end Spinlock

end Xv6
