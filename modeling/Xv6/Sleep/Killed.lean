import Xv6.Console.Machine
import Xv6.Pipe.Machine
import Xv6.Proc.Slots

/-!
# Sleepers that have been killed

`kill` sets `killed` and makes the process runnable if it sleeps. `wait`, `piperead`, `pipewrite`
and `consoleread` test `killed` before they sleep. In `wait` the test and the sleep are under one
hold of `ptable.lock`, which `kill` needs too, so no process that sleeps in `wait` has been killed.
In the others the test is under the lock of the pipe or of the console, and a `kill` between the
test and `acquire(&ptable.lock)` in `sleep` is seen by neither: the process sleeps although it has
been killed.

## Main definitions

* `Pipe.InWindow`, `Console.InWindow` — the points between the test and the sleep

## Main results

* `killed_sleepers` — no killed process sleeps in `wait`, nor in the other loops if no process is
  killed between test and sleep; one that is killed there sleeps
* `killed_in_window` — a run of each of the three in which that happens
-/

namespace Xv6

open Transition

/-! ### `wait` -/

namespace Proc

variable {n : ℕ}

/-- A killed process does not sleep in `wait`. -/
def WaitsAlive (q : Proc) (p : Slot) : Prop :=
  q.state = .sleeping → q.chan = some (.proc p) → q.killed = false

theorem WaitsAlive.of_slotStep {s : State n} {p : Slot} {e : Event n} {q : Proc} (hwf : Wf s)
    (hp : WaitsAlive (s.ptable p) p) (h : SlotStep s p e q) : WaitsAlive q p := by
  cases h with
  | same | kalloc | copyuvm | feedback | setprio => exact hp
  | sleep c chan hw hc =>
    rintro - ⟨⟩
    cases hc
  | waits c e hm he hk hz => exact fun _ _ => hk
  | bereaved c p' st hw hr ha hst =>
    intro hs hc
    obtain rfl | ⟨-, rfl⟩ := hst
    · exact hp hs hc
    · cases hs
  | killed c pid hpid hf =>
    intro hs
    dsimp only at hs
    split at hs
    · cases hs
    · next h => exact absurd hs h
  | fault c hw =>
    intro hs
    have hrun := hwf.running c p (mode_of_work hw).1
    exact absurd (hs.symm.trans hrun) nofun
  | unchan => exact fun _ => nofun
  | _ => exact nofun

theorem waitsAlive_of_reach {second : BitVec 32} {s : State n}
    (h : Reach step (fun _ _ => True) (boot n second) s) (p : Slot) :
    WaitsAlive (s.ptable p) p := by
  have hinv : Wf s ∧ WaitsAlive (s.ptable p) p :=
    h.induct (P := fun s => Wf s ∧ WaitsAlive (s.ptable p) p) ⟨boot_wf n second, ?_⟩
      fun s e s' ih _ hst => ⟨ih.1.step hst, .of_slotStep ih.1 ih.2 (SlotStep.of_step ih.1 hst p)⟩
  · exact hinv.2
  · intro hs
    by_cases hp : p = 0
    · subst hp
      cases hs
    · rw [boot_ptable_of_ne n second hp] at hs
      cases hs

end Proc

/-! ### Pipes -/

namespace Pipe

/-- The points between a test of `killed` and the `sleep` that follows it. -/
def InWindow : Point → Prop
  | .writeFull _ _ | .writeSleep _ _ | .readSleep _ => True
  | _ => False

theorem looks : Monitor.Looks code InWindow where
  bound {k} h := by
    cases k with
    | writeSleep addr i => exact .wait .nwrite (.write addr i) fun _ _ => rfl
    | readSleep n => exact .wait .nread (.read n) fun _ _ => rfl
    | writeFull addr i =>
      exact .wakeup .nread (.writeSleep addr i) (fun _ _ => rfl)
        (.wait .nwrite (.write addr i) fun _ _ => rfl)
    | _ => exact h.elim
  wait {m k p c k'} h := by
    have hnext := Next.of_next m k p
    rw [show next m k p = _ from h] at hnext
    cases hnext with
    | writeSleep | readSleep => exact ⟨trivial, not_false⟩
  go {m k p k' p'} h hk := by
    have hnext := Next.of_next m k p
    rw [show next m k p = _ from h] at hnext
    cases hnext with
    | writeFull _ _ _ _ hm | readWaits _ _ _ hm => exact hm
    | _ => exact hk.elim
  wakeup {m k p c k'} h hk := by
    have hnext := Next.of_next m k p
    rw [show next m k p = _ from h] at hnext
    cases hnext with
    | writeWake => trivial
    | _ => exact hk.elim
  entry {k p} h := by
    cases k with
    | writeFull | writeSleep | readSleep => cases h
    | _ => exact not_false

end Pipe

/-! ### The console -/

namespace Console

/-- The point between the test of `killed` and the `sleep` that follows it. -/
def InWindow : Point → Prop
  | .readSleep _ _ => True
  | _ => False

theorem looks : Monitor.Looks code InWindow where
  bound {k} h := by
    cases k with
    | readSleep target got => exact .wait .r (.read target got) fun _ _ => rfl
    | _ => exact h.elim
  wait {m k i c k'} h := by
    have hnext := Next.of_next m k i
    rw [show next m k i = _ from h] at hnext
    cases hnext with
    | readSleep => exact ⟨trivial, not_false⟩
  go {m k i k' i'} h hk := by
    have hnext := Next.of_next m k i
    rw [show next m k i = _ from h] at hnext
    cases hnext with
    | readWaits _ _ _ _ hm => exact hm
    | _ => exact hk.elim
  wakeup {m k i c k'} h hk := by
    have hnext := Next.of_next m k i
    rw [show next m k i = _ from h] at hnext
    cases hnext with
    | commit => exact hk.elim
  entry {k i} h := by
    cases k with
    | readSleep => cases h
    | _ => exact not_false

end Console

/-! ### The four loops -/

namespace Sleep

/-- In runs of the code `C` from data `d`: no marked thread is asleep as long as no thread is marked
at one of the points `W`, and a thread that is marked there goes to sleep with its mark, all by
itself, leaving the lock free. -/
def SleepsMarkedOnlyFrom {σ κ χ ρ : Type} [DecidableEq χ] (C : Monitor.Code σ κ χ ρ) (W : κ → Prop)
    (d : σ) : Prop :=
  ∀ (τ : Type) [DecidableEq τ] (s : Monitor.State τ σ κ χ ρ) (t : τ),
    (Reach (Monitor.step C) (Monitor.MarkOutside W) (Monitor.init d) s →
      ∀ c k, s.thread t = .asleep c k → s.marked t = false) ∧
    (Reach (Monitor.step C) (fun _ _ => True) (Monitor.init d) s →
      ∀ k, s.thread t = .inside k → W k →
        ∃ j s' c k', run (Monitor.step C) s (.mark t :: List.replicate j (.move t)) = some s' ∧
          s'.lock = none ∧ s'.thread t = .asleep c k' ∧ s'.marked t = true)

theorem sleepsMarkedOnlyFrom_of_looks {σ κ χ ρ : Type} [DecidableEq χ] {C : Monitor.Code σ κ χ ρ}
    {W : κ → Prop} (hC : Monitor.Looks C W) (d : σ) : SleepsMarkedOnlyFrom C W d := by
  intro τ _ s t
  refine ⟨fun h c k ht => Monitor.unmarked_of_reach hC h ht, fun _ k ht hk => ?_⟩
  obtain ⟨s₁, hs₁⟩ : ∃ s₁, Monitor.step C s (.mark t) = some s₁ := ⟨_, rfl⟩
  have ht₁ : s₁.thread t = .inside k := by
    cases hs₁
    simp [Monitor.State.setThread, ht, Monitor.Thread.rouse]
  have hm₁ : s₁.marked t = true := by
    cases hs₁
    simp [Monitor.State.setThread]
  obtain ⟨j, s', c, k', hrun, hl, hth, hm⟩ := (hC.bound hk).sleeps ht₁ hm₁
  exact ⟨j, s', c, k', (run_cons_eq_some _).mpr ⟨s₁, hs₁, hrun⟩, hl, hth, hm⟩

/-- **Killed processes do not sleep** in `wait`, and in `piperead`, `pipewrite` and `consoleread`
they sleep only if they are killed between the test of `killed` and `sleep`. -/
theorem killed_sleepers (n : ℕ) (second : BitVec 32) (data : Bytes PIPESIZE) :
    (∀ (s : Proc.State n) p, Reach Proc.step (fun _ _ => True) (Proc.boot n second) s →
      (s.ptable p).killed = true →
        ¬ ((s.ptable p).state = .sleeping ∧ (s.ptable p).chan = some (.proc p))) ∧
    SleepsMarkedOnlyFrom Pipe.code Pipe.InWindow (Pipe.new data) ∧
    SleepsMarkedOnlyFrom Console.code Console.InWindow Console.empty := by
  refine ⟨?_, sleepsMarkedOnlyFrom_of_looks Pipe.looks _,
    sleepsMarkedOnlyFrom_of_looks Console.looks _⟩
  rintro s p h hk ⟨hs, hc⟩
  have := Proc.waitsAlive_of_reach h p hs hc
  rw [hk] at this
  cases this

/-- One process calls the code at `k`, makes `j` moves, is killed and makes `l` moves more. -/
def killedAfter {κ : Type} (k : κ) (j l : ℕ) : List (Monitor.Event Unit κ) :=
  ([.call () k, .enter ()] : List (Monitor.Event Unit κ)) ++
    List.replicate j (Monitor.Event.move ()) ++
    Monitor.Event.mark () :: List.replicate l (Monitor.Event.move ())

/-- The process has been killed and sleeps on `c`, and the lock is free. -/
def SleepsKilled {σ κ χ ρ : Type} (s : Monitor.State Unit σ κ χ ρ) (c : χ) (k : κ) : Prop :=
  s.lock = none ∧ s.thread () = .asleep c k ∧ s.marked () = true

instance {σ κ χ ρ : Type} [DecidableEq κ] [DecidableEq χ] [DecidableEq ρ]
    (s : Monitor.State Unit σ κ χ ρ) (c : χ) (k : κ) : Decidable (SleepsKilled s c k) :=
  inferInstanceAs (Decidable (_ ∧ _ ∧ _))

/-- A process that reads from an empty pipe, one that writes `513` bytes to a pipe and one that
reads from the console before anything has been typed, each killed before `sleep`. -/
theorem killed_in_window :
    (∃ s, run (Monitor.step Pipe.code) (Monitor.init (Pipe.new (Bytes.zero _)))
      (killedAfter (.read 1) 1 1) = some s ∧ SleepsKilled s .nread (.read 1)) ∧
    (∃ s, run (Monitor.step Pipe.code) (Monitor.init (Pipe.new (Bytes.zero _)))
      (killedAfter (.write (List.replicate 513 0) 0) 513 2) = some s ∧
        SleepsKilled s .nwrite (.write (List.replicate 513 0) 512)) ∧
    (∃ s, run (Monitor.step Console.code) (Monitor.init Console.empty)
      (killedAfter (.read 1 []) 1 1) = some s ∧ SleepsKilled s .r (.read 1 [])) := by
  refine ⟨?_, ?_, ?_⟩
  · exact exists_of_any (Monitor.step Pipe.code) _ (killedAfter (.read 1) 1 1)
      (SleepsKilled · .nread (.read 1)) (by decide +kernel)
  · exact exists_of_any (Monitor.step Pipe.code) _
      (killedAfter (.write (List.replicate 513 0) 0) 513 2)
      (SleepsKilled · .nwrite (.write (List.replicate 513 0) 512)) (by decide +kernel)
  · exact exists_of_any (Monitor.step Console.code) _ (killedAfter (.read 1 []) 1 1)
      (SleepsKilled · .r (.read 1 [])) (by decide +kernel)

end Sleep

end Xv6
