import Xv6.Lib.Monitor

/-!
# Sleep-locks

`sleeplock.c` as a monitor under the spinlock `lk->lk`. A process may be killed at any time.

## Main results

* `sleeplock_exclusive` — only its holder gives up a sleep-lock, and nobody sleeps for a free one
-/

namespace Xv6

namespace Sleeplock

open Monitor Transition

/-- `struct sleeplock`. -/
structure Lock where
  locked : Bool
  pid : ℕ

/-- The points of the code. A call carries `myproc()->pid`. -/
inductive Point
  | acquiresleep (pid : ℕ)
  | releasesleep
  | wakeup
  | released
  | holdingsleep (pid : ℕ)

inductive Result
  | acquired
  | released
  | holding (r : Bool)

def code : Code Lock Point Unit Result where
  entry
    | .acquiresleep _, _ | .releasesleep, _ | .holdingsleep _, _ => true
    | .wakeup, _ | .released, _ => false
  next
    | _, .acquiresleep p, lk =>
      if lk.locked then .wait () (.acquiresleep p) else .leave .acquired ⟨true, p⟩
    | _, .releasesleep, _ => .go .wakeup ⟨false, 0⟩
    | _, .wakeup, _ => .wakeup () .released
    | _, .released, lk => .leave .released lk
    | _, .holdingsleep p, lk => .leave (.holding (lk.locked && lk.pid == p)) lk

abbrev Machine := State ℕ Lock Point Unit Result

variable {s s' : Machine} {e : Event ℕ Point} {t u : ℕ} {lk lk' : Lock}
  {x : Thread Point Unit Result}

/-- What process `t` has to see to at a point. -/
def Point.Ok (lk : Lock) (t : ℕ) : Point → Prop
  | .acquiresleep p | .holdingsleep p => p = t
  | .releasesleep => lk = ⟨true, t⟩
  | .wakeup | .released => True

/-- Processes are their pids, and call `releasesleep` only for a lock that they hold. -/
def Proper (s : Machine) : Event ℕ Point → Prop
  | .call t k => k.Ok s.data t
  | _ => True

/-- What holds of process `t`, by where it is. It sleeps in `acquiresleep` only. -/
def Ok (lk : Lock) (t : ℕ) : Thread Point Unit Result → Prop
  | .want k | .inside k => k.Ok lk t
  | .asleep _ k => k = .acquiresleep t
  | .out _ => True

/-- **The invariant.** Whoever sleeps waits for a lock that is held, or a wakeup is on its way. -/
structure Inv (s : Machine) : Prop where
  exclusive : Exclusive s
  ok : ∀ t, Ok s.data t (s.thread t)
  asleep : (sleepers s.thread).Nonempty → s.data.locked = true ∨ s.point = some .wakeup

/-- The lock changes for process `t` only if it does not hold it. -/
theorem Ok.next (h : Ok lk t x) (hlk : lk = ⟨true, t⟩ → lk' = lk) :
    Ok lk' t x ∧ Ok lk' t (x.wake ()) ∧ Ok lk' t x.rouse := by
  cases x with
  | out r => exact ⟨trivial, trivial, trivial⟩
  | want k | inside k =>
    have hk : k.Ok lk' t := by cases k <;> first | exact h | exact (hlk h).trans h
    exact ⟨hk, hk, hk⟩
  | asleep c k => exact ⟨h, h ▸ rfl, h ▸ rfl⟩

/-- Thread `t` changes, and the others stay where they are or are woken. -/
theorem Inv.ok_set (h : Inv s) (hlk : s.data = ⟨true, u⟩ → u ≠ t → lk = s.data)
    {f : ℕ → Thread Point Unit Result} (hf : f u = s.thread u ∨ f u = (s.thread u).wake ())
    (ht : Ok lk t x) : Ok lk u (Function.update f t x u) := by
  by_cases hut : u = t
  · rwa [hut, Function.update_self]
  · have hu := (h.ok u).next fun hd => hlk hd hut
    rw [Function.update_of_ne hut]
    rcases hf with hf | hf <;> rw [hf]
    exacts [hu.1, hu.2.1]

theorem Inv.ok_step (h : Inv s) (hok : Proper s e) (hst : step code s e = some s') (u : ℕ) :
    Ok s'.data u (s'.thread u) := by
  have hset : ∀ {t x}, Ok s.data t x → Ok s.data u (Function.update s.thread t x u) :=
    h.ok_set (fun _ _ => rfl) (.inl rfl)
  cases Step.of_step hst with
  | call t k r ht he => exact hset hok
  | enter t k ht hl => exact hset (x := .inside k) (ht ▸ h.ok t :)
  | renew t r ht => exact hset (x := .out _) trivial
  | mark t => exact hset ((h.ok t).next fun _ => rfl).2.2
  | move t k ht =>
    have hk := ht ▸ h.ok t
    cases k with
    | acquiresleep p =>
      simp only [code]
      split
      · exact hset (congrArg Point.acquiresleep hk)
      · exact h.ok_set (fun hl _ => by simp_all) (.inl rfl) trivial
    | releasesleep => exact h.ok_set (fun hl hu => by simp_all [Ok, Point.Ok]) (.inl rfl) trivial
    | wakeup => exact h.ok_set (fun _ _ => rfl) (.inr rfl) trivial
    | released | holdingsleep => exact hset (x := .out _) trivial

theorem Inv.step (h : Inv s) (hok : Proper s e) (hst : step code s e = some s') : Inv s' where
  exclusive := h.exclusive.step hst
  ok := h.ok_step hok hst
  asleep := by
    have hv := View.of_step h.exclusive hst
    have hA := h.asleep
    generalize s'.point = k', s'.data = lk', sleepers s'.thread = A at hv ⊢
    cases hv with
    | quiet e A he hsub => exact fun hne => hA (hne.mono hsub)
    | enter t k ht hp => exact fun hne => .inl ((hA hne).resolve_right (by simp [hp]))
    | move t k m ht hp hm =>
      subst hm
      rw [hp] at hA
      cases k with
      | acquiresleep p =>
        simp only [code]
        split
        · exact fun _ => .inl ‹_›
        · exact fun _ => .inl rfl
      | releasesleep => exact fun _ => .inr rfl
      | wakeup => simp [code, Move.sleepers, Set.Nonempty]
      | released | holdingsleep => exact fun hne => .inl ((hA hne).resolve_right (by simp))

/-- **Sleep-locks exclude.** In every run a lock that is held stays with its process until that
process is in `releasesleep`, a lock that is free is taken by a process that returns from
`acquiresleep`, and while the spinlock is free nobody sleeps for a lock that is not held. -/
theorem sleeplock_exclusive (h : Reach (step code) Proper (init ⟨false, 0⟩) s) :
    (s.lock = none → ∀ t c k, s.thread t = .asleep c k → s.data.locked = true) ∧
    ∀ e s', step code s e = some s' → s'.data ≠ s.data →
      (e = .move s.data.pid ∧ s.data.locked = true ∧ s.thread s.data.pid = .inside .releasesleep) ∨
      ∃ t, e = .move t ∧ s.data.locked = false ∧ s'.data = ⟨true, t⟩ ∧
        s'.thread t = .out (some .acquired) := by
  have hinit : Inv (init ⟨false, 0⟩) :=
    ⟨by rintro t k ⟨⟩, fun _ => trivial, by rintro ⟨_, _, _, ⟨⟩⟩⟩
  have hi : Inv s := h.induct hinit fun _ _ _ hi hok hst => hi.step hok hst
  refine ⟨fun hl t c k ht => ?_, fun e s' hst hne => ?_⟩
  · exact (hi.asleep ⟨c, t, k, ht⟩).resolve_right (by simp [State.point, hl])
  · cases Step.of_step hst with
    | move t k ht =>
      have hk := ht ▸ hi.ok t
      cases k with
      | acquiresleep p =>
        obtain rfl : p = t := hk
        simp only [code] at hne ⊢
        split at hne
        · exact absurd rfl hne
        · rename_i hl
          rw [if_neg hl]
          exact .inr ⟨p, rfl, by simpa using hl, rfl, State.thread_setThread⟩
      | releasesleep =>
        have hd : s.data = ⟨true, t⟩ := hk
        exact .inl (hd ▸ ⟨rfl, rfl, ht⟩)
      | wakeup | released | holdingsleep => exact absurd rfl hne
    | _ => exact absurd rfl hne

/-- Process `0` gets the lock, and process `1` has to wait for it. -/
def contended : List (Event ℕ Point) :=
  [.call 0 (.acquiresleep 0), .enter 0, .move 0, .call 1 (.acquiresleep 1), .enter 1, .move 1]

theorem sleeplock_exclusive_contended : ∃ s : Machine,
    run (step code) (init ⟨false, 0⟩) contended = some s ∧
    s.thread 1 = .asleep () (.acquiresleep 1) ∧ s.data.locked = true := by
  have h : Reach (step code) Proper (init ⟨false, 0⟩) _ :=
    .of_run contended .init (by simp [contended, Proper, Point.Ok]) rfl
  exact ⟨_, rfl, rfl, (sleeplock_exclusive h).1 rfl 1 () _ rfl⟩

end Sleeplock

end Xv6
