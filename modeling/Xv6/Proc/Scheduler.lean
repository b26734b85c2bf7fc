import Xv6.Proc.Table

/-!
# The choice made by `scheduler`

`scheduler` looks at the table three times: once to see whether anything is `RUNNABLE` (`flag`),
once for the least priority (`mn`), once to collect the `RUNNABLE` processes of that priority in
`plist`. The passes are kept apart here as they are in the source, each as the loop over the slots
that the code runs, and each gets one lemma that says what the loop computes.

`mn` is an `int` and `prio` a `uint`; the comparison converts `mn` to unsigned and the assignment
converts back, so the bits are all that matters and `mn` is a bit vector compared as unsigned. It
starts at the sentinel `20`, which is what makes the second and third pass disagree when every
`RUNNABLE` process has a larger priority.

`plist` is the list of writes `plist[idx] = p`, each with the index it goes to. The array has
`plistSize` slots; whether the indices stay below it is a question about tables, not something the
loop checks.

## Main results

* `schedFlag_iff`, `schedMn_spec`, `schedPlist_spec` — what the three passes compute
* `schedIdx_pos_iff` — `idx` is positive exactly when some `RUNNABLE` priority is at most `20`
* `schedPlist_index_lt_iff` — the indices written are those below `idx`
-/

namespace Xv6

namespace Proc

/-- `struct proc* plist[50]`. -/
def plistSize : ℕ := 50

/-- The first pass: `flag`. -/
def schedFlag (t : PTable) : Bool :=
  slots.foldl (fun flag p => if (t p).state ≠ .runnable then flag else true) false

/-- The second pass: `mn`, starting from `20`. -/
def schedMn (t : PTable) : BitVec 32 :=
  slots.foldl (fun mn p =>
    if (t p).state = .runnable then (if mn > (t p).prio then (t p).prio else mn) else mn) 20#32

/-- `idx` and the writes `plist[i] = p` made so far, in order. -/
structure Plist where
  idx : ℕ
  writes : List (ℕ × Slot)
  deriving DecidableEq, Repr

/-- One round of the third pass. -/
def Plist.visit (t : PTable) (mn : BitVec 32) (l : Plist) (p : Slot) : Plist :=
  if (t p).state = .runnable ∧ (t p).prio = mn then ⟨l.idx + 1, l.writes ++ [(l.idx, p)]⟩ else l

/-- The third pass: `idx` and the contents of `plist`. -/
def schedPlist (t : PTable) : Plist := slots.foldl (Plist.visit t (schedMn t)) ⟨0, []⟩

/-- `plist[sch]` after the third pass: the last value written there, if any was. -/
def Plist.read (l : Plist) (sch : ℕ) : Option Slot := l.writes.reverse.lookup sch

/-- `sch = ticks%idx`. -/
def schedSch (t : PTable) (ticks : BitVec 32) : ℕ := ticks.toNat % (schedPlist t).idx

/-- `RUNNABLE` with the least priority, as the third pass tests it. -/
def IsCandidate (t : PTable) (p : Slot) : Prop :=
  (t p).state = .runnable ∧ (t p).prio = schedMn t

instance (t : PTable) : DecidablePred (IsCandidate t) := fun p =>
  inferInstanceAs (Decidable ((t p).state = .runnable ∧ (t p).prio = schedMn t))

/-! ### The first pass -/

private theorem flagLoop (t : PTable) (ps : List Slot) (b : Bool) :
    ps.foldl (fun flag p => if (t p).state ≠ .runnable then flag else true) b = true ↔
      b = true ∨ ∃ p ∈ ps, (t p).state = .runnable := by
  induction ps generalizing b with
  | nil => simp
  | cons p ps ih =>
    rw [List.foldl_cons, ih]
    by_cases h : (t p).state = .runnable <;> simp [h]

theorem schedFlag_iff (t : PTable) : schedFlag t = true ↔ ∃ p, (t p).state = .runnable := by
  rw [schedFlag, flagLoop]
  simp

/-! ### The second pass -/

/-- The loop invariant: the accumulator never grows, ends below every priority visited, and is
either where it started or one of those priorities. -/
private theorem mnLoop (t : PTable) (ps : List Slot) (m r : BitVec 32)
    (hr : ps.foldl (fun mn p => if (t p).state = .runnable then
      (if mn > (t p).prio then (t p).prio else mn) else mn) m = r) :
    r.toNat ≤ m.toNat ∧ (∀ p ∈ ps, (t p).state = .runnable → r.toNat ≤ (t p).prio.toNat) ∧
      (r = m ∨ ∃ p ∈ ps, (t p).state = .runnable ∧ (t p).prio = r) := by
  induction ps generalizing m with
  | nil => simp [← hr]
  | cons p ps ih =>
    rw [List.foldl_cons] at hr
    obtain ⟨hle, hall, hatt⟩ := ih _ hr
    -- the accumulator after `p`, when `p` counts and when it does not
    by_cases hp : (t p).state = .runnable ∧ (t p).prio < m
    · rw [if_pos hp.1, if_pos hp.2] at hle hatt
      have hlt : (t p).prio.toNat < m.toNat := BitVec.lt_def.mp hp.2
      refine ⟨by omega, ?_, Or.inr ?_⟩
      · intro q hq hqr
        rcases List.mem_cons.mp hq with rfl | hq
        · exact hle
        · exact hall q hq hqr
      · rcases hatt with heq | ⟨q, hq, hqr, hqe⟩
        · exact ⟨p, List.mem_cons_self .., hp.1, heq.symm⟩
        · exact ⟨q, List.mem_cons_of_mem _ hq, hqr, hqe⟩
    · have hacc : (if (t p).state = .runnable then
          (if m > (t p).prio then (t p).prio else m) else m) = m := by
        split
        · next h => exact if_neg fun hlt => hp ⟨h, hlt⟩
        · rfl
      rw [hacc] at hle hatt
      refine ⟨hle, ?_, ?_⟩
      · intro q hq hqr
        rcases List.mem_cons.mp hq with rfl | hq
        · have hge : ¬ (t q).prio.toNat < m.toNat := fun h => hp ⟨hqr, BitVec.lt_def.mpr h⟩
          omega
        · exact hall q hq hqr
      · rcases hatt with heq | ⟨q, hq, hqr, hqe⟩
        · exact Or.inl heq
        · exact Or.inr ⟨q, List.mem_cons_of_mem _ hq, hqr, hqe⟩

/-- **The second pass.** `mn` is at most the sentinel and at most every `RUNNABLE` priority, and is
one of those values. -/
theorem schedMn_spec (t : PTable) :
    (schedMn t).toNat ≤ 20 ∧ (∀ p, (t p).state = .runnable → (schedMn t).toNat ≤ (t p).prio.toNat) ∧
      (schedMn t = 20#32 ∨ ∃ p, (t p).state = .runnable ∧ (t p).prio = schedMn t) := by
  obtain ⟨hle, hall, hatt⟩ := mnLoop t slots 20#32 (schedMn t) rfl
  exact ⟨hle, fun p => hall p (mem_slots p), hatt.imp_right fun ⟨p, _, hp⟩ => ⟨p, hp⟩⟩

/-! ### The third pass -/

private theorem plistLoop (t : PTable) (mn : BitVec 32) (ps : List Slot) (l : Plist)
    (hl : l.idx = l.writes.length) :
    (ps.foldl (Plist.visit t mn) l).writes =
        l.writes ++ ((ps.filter fun p => (t p).state = .runnable ∧ (t p).prio = mn).mapIdx
          fun i p => (l.idx + i, p)) ∧
      (ps.foldl (Plist.visit t mn) l).idx = (ps.foldl (Plist.visit t mn) l).writes.length := by
  induction ps generalizing l with
  | nil => simpa using hl
  | cons p ps ih =>
    rw [List.foldl_cons]
    by_cases hp : (t p).state = .runnable ∧ (t p).prio = mn
    · have hv : Plist.visit t mn l p = ⟨l.idx + 1, l.writes ++ [(l.idx, p)]⟩ := if_pos hp
      obtain ⟨hw, hi⟩ := ih (Plist.visit t mn l p) (by simp [hv, hl])
      refine ⟨?_, hi⟩
      rw [hw, hv]
      simp [hp, List.mapIdx_cons, Nat.add_assoc, Nat.add_comm 1]
    · have hv : Plist.visit t mn l p = l := if_neg hp
      rw [hv]
      simpa [hp] using ih l hl

/-- **The third pass.** `plist` receives the candidates in table order, at the indices `0, 1, …`,
and `idx` is their number. -/
theorem schedPlist_spec (t : PTable) :
    (schedPlist t).writes = (slots.filter (IsCandidate t)).mapIdx (fun i p => (i, p)) ∧
      (schedPlist t).idx = (slots.filter (IsCandidate t)).length := by
  obtain ⟨hw, hi⟩ := plistLoop t (schedMn t) slots ⟨0, []⟩ rfl
  have hw' : (schedPlist t).writes = (slots.filter (IsCandidate t)).mapIdx (fun i p => (i, p)) := by
    rw [schedPlist, hw]
    simp only [List.nil_append, Nat.zero_add]
    rfl
  refine ⟨hw', ?_⟩
  have hlen : (schedPlist t).idx = (schedPlist t).writes.length := hi
  rw [hlen, hw', List.length_mapIdx]

/-- The divisor of `ticks%idx` is positive exactly when the sentinel does not hide every
`RUNNABLE` process. -/
theorem schedIdx_pos_iff (t : PTable) :
    (schedPlist t).idx ≠ 0 ↔ ∃ p, (t p).state = .runnable ∧ (t p).prio.toNat ≤ 20 := by
  obtain ⟨hle, hall, hatt⟩ := schedMn_spec t
  have hne : (schedPlist t).idx ≠ 0 ↔ ∃ p, IsCandidate t p := by
    rw [(schedPlist_spec t).2]
    simp [List.filter_eq_nil_iff]
  rw [hne]
  constructor
  · rintro ⟨p, hp, hprio⟩
    exact ⟨p, hp, by rw [hprio]; exact hle⟩
  · rintro ⟨p, hp, hprio⟩
    rcases hatt with heq | ⟨q, hq, hqe⟩
    · -- the sentinel itself is the minimum, so `p` has priority exactly 20
      refine ⟨p, hp, ?_⟩
      have hge := hall p hp
      rw [heq] at hge ⊢
      exact BitVec.eq_of_toNat_eq (Nat.le_antisymm hprio hge)
    · exact ⟨q, hq, hqe⟩

/-- The indices at which `plist` is written are exactly those below `idx`. -/
theorem schedPlist_index_lt_iff (t : PTable) (i : ℕ) :
    (∃ p, (i, p) ∈ (schedPlist t).writes) ↔ i < (schedPlist t).idx := by
  obtain ⟨hw, hi⟩ := schedPlist_spec t
  rw [hw, hi]
  constructor
  · rintro ⟨p, hp⟩
    obtain ⟨j, hj, hjp⟩ := List.mem_mapIdx.mp hp
    cases hjp
    exact hj
  · intro h
    exact ⟨_, List.mem_mapIdx.mpr ⟨i, h, rfl⟩⟩

/-- Whatever is read from `plist` is a candidate. -/
theorem schedPlist_read {t : PTable} {i : ℕ} {p : Slot} (h : (schedPlist t).read i = some p) :
    IsCandidate t p := by
  have hmem : (i, p) ∈ (schedPlist t).writes := by
    obtain ⟨l₁, l₂, heq, -⟩ := List.lookup_eq_some_iff.mp h
    exact List.mem_reverse.mp (heq ▸ by simp)
  rw [(schedPlist_spec t).1] at hmem
  obtain ⟨j, hj, hjp⟩ := List.mem_mapIdx.mp hmem
  have hp : (slots.filter (IsCandidate t))[j] = p := (Prod.mk.inj hjp).2
  have := List.mem_filter.mp (List.getElem_mem hj)
  rw [hp] at this
  simpa using this.2

/-- A `RUNNABLE` process of priority at most `20` that comes before all the others is picked
whatever `ticks` is. -/
theorem schedPlist_of_least {t : PTable} {p : Slot} (hp : (t p).state = .runnable)
    (hprio : (t p).prio.toNat ≤ 20)
    (hleast : ∀ q, (t q).state = .runnable → q ≠ p → (t p).prio.toNat < (t q).prio.toNat)
    (ticks : BitVec 32) :
    (schedPlist t).idx = 1 ∧ (schedPlist t).read (schedSch t ticks) = some p := by
  have hcand : ∀ q, IsCandidate t q ↔ q = p := by
    obtain ⟨q, hq⟩ : ∃ q, IsCandidate t q := by
      have hne := (schedIdx_pos_iff t).mpr ⟨p, hp, hprio⟩
      rw [(schedPlist_spec t).2] at hne
      obtain ⟨q, hq⟩ := List.exists_mem_of_length_pos (Nat.pos_of_ne_zero hne)
      exact ⟨q, by simpa using (List.mem_filter.mp hq).2⟩
    have hall : ∀ r, IsCandidate t r → r = p := by
      intro r hr
      by_contra hne
      have hlt := hleast r hr.1 hne
      have hle := (schedMn_spec t).2.1 p hp
      rw [← hr.2] at hle
      omega
    obtain rfl := hall q hq
    exact fun r => ⟨hall r, fun hr => hr ▸ hq⟩
  have hfilter : slots.filter (IsCandidate t) = [p] := by
    have : slots.filter (IsCandidate t) = slots.filter (· = p) :=
      List.filter_congr fun q _ => by simp [hcand q]
    rw [this, List.filter_eq, List.count_eq_one_of_mem nodup_slots (mem_slots p)]
    rfl
  obtain ⟨hw, hi⟩ := schedPlist_spec t
  rw [hfilter] at hw hi
  have hidx : (schedPlist t).idx = 1 := hi
  refine ⟨hidx, ?_⟩
  rw [schedSch, hidx, Nat.mod_one, Plist.read, hw]
  rfl

end Proc

end Xv6
