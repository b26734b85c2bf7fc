import Xv6.Lib.Shares
import Xv6.Vm.Machine

/-!
# References to open files

`ref` of an entry of `ftable` counts the slots of `ofile` that point to the entry, over all
processes. A system call is not a single change: `filealloc` and `filedup` make a reference before
there is a slot for it, `dup` fills the slot first, and the undo paths of `open` and `pipe` take
back what was done. What counts is the difference that a call or one round of a loop makes in the
end: a slot is filled or cleared, and one count goes up or down by one.

`fork` fills the slots of a process that has none, because `exit` has cleared them all.

## Main definitions

* `State.refs` — the number of slots that point to a file
* `Accounted` — the invariant between system calls
* `SameOpen`, `Same` — what calls leave behind that fail, or have nothing to do with files

## Main results

* `Counted.fill`, `Counted.clear` — one slot is filled or cleared
-/

namespace Xv6

namespace Vm

open Proc (Slot)

variable {s s' s'' : State} {x : Fin NFILE} {p : Slot} {fd : Fin NOFILE} {o : Option (Fin NFILE)}

/-- The slot `i.2` of `ofile` in process `i.1`. -/
def State.desc (s : State) (i : Slot × Fin NOFILE) : Option (Fin NFILE) := (s.proc i.1).ofile i.2

/-- The number of slots that point to the file `x`. -/
def State.refs (s : State) (x : Fin NFILE) : ℕ :=
  (Finset.univ.filter fun i => s.desc i = some x).card

/-- `ref` counts the slots. -/
def Counted (s : State) : Prop := ∀ x, (s.file x).ref = s.refs x

/-- **The invariant between system calls**: `ref` counts the slots, and only live processes have
open files. -/
structure Accounted (s : State) : Prop where
  counted : Counted s
  tidy : ∀ q, (s.proc q).status ≠ .live → (s.proc q).ofile = fun _ => none

/-! ### One slot -/

/-- The processes with another entry in a slot. -/
def State.setSlot (s : State) (p : Slot) (fd : Fin NOFILE) (o : Option (Fin NFILE)) :
    Slot → Process :=
  Function.update s.proc p { s.proc p with ofile := Function.update (s.proc p).ofile fd o }

theorem State.desc_setSlot (h : s'.proc = s.setSlot p fd o) :
    s'.desc = Function.update s.desc (p, fd) o := by
  funext ⟨q, fd'⟩
  rw [desc, h, setSlot]
  by_cases hq : q = p
  · subst hq
    by_cases hfd : fd' = fd
    · subst hfd
      simp
    · rw [Function.update_of_ne (fun h => hfd (congrArg Prod.snd h))]
      simp [desc, hfd]
  · rw [Function.update_of_ne (fun h => hq (congrArg Prod.fst h))]
    simp [desc, hq]

theorem State.refs_setSlot (h : s'.proc = s.setSlot p fd o) (x : Fin NFILE) :
    (s'.refs x : ℤ) = s.refs x + (if o = some x then 1 else 0) -
      (if (s.proc p).ofile fd = some x then 1 else 0) := by
  rw [refs, desc_setSlot h]
  exact Shares.card_update s.desc (p, fd) o (some x)

/-- No slot points to a file exactly if the number of slots that do is `0`. -/
theorem State.refs_eq_zero : s.refs x = 0 ↔ ∀ p fd, (s.proc p).ofile fd ≠ some x := by
  rw [refs, Shares.card_eq_zero]
  exact ⟨fun h p fd => h (p, fd), fun h i => h i.1 i.2⟩

/-- What `fileclose` makes of an entry. -/
def File.close (f : File) : File :=
  if f.ref - 1 > 0 then { f with ref := f.ref - 1 } else { f with ref := 0, type := .none }

theorem File.close_ref (f : File) : f.close.ref = f.ref - 1 := by
  rw [close]
  split
  · rfl
  · simp only
    omega

namespace Counted

/-- Nothing changes that counts. -/
theorem congr (h : Counted s) (href : ∀ x, (s'.file x).ref = (s.file x).ref)
    (hofile : ∀ q, (s'.proc q).ofile = (s.proc q).ofile) : Counted s' := by
  have hdesc : s'.desc = s.desc := funext fun i => congrFun (hofile i.1) i.2
  intro x
  rw [href, h x, State.refs, State.refs, hdesc]

/-- A slot that was free is filled. -/
theorem fill (h : Counted s) (hnone : (s.proc p).ofile fd = none)
    (hproc : s'.proc = s.setSlot p fd (some x)) (href : (s'.file x).ref = (s.file x).ref + 1)
    (hold : ∀ y ≠ x, s'.file y = s.file y) : Counted s' := by
  intro y
  have hrefs := State.refs_setSlot hproc y
  have hy := h y
  simp only [hnone, reduceCtorEq, if_false] at hrefs
  by_cases hyx : y = x
  · subst hyx
    rw [if_pos rfl] at hrefs
    omega
  · rw [if_neg fun heq => hyx (Option.some.inj heq).symm] at hrefs
    rw [hold y hyx]
    omega

/-- A slot is cleared. -/
theorem clear (h : Counted s) (hsome : (s.proc p).ofile fd = some x)
    (hproc : s'.proc = s.setSlot p fd none)
    (hfile : s'.file = Function.update s.file x (s.file x).close) : Counted s' := by
  intro y
  have hrefs := State.refs_setSlot hproc y
  have hy := h y
  simp only [hsome, reduceCtorEq, if_false] at hrefs
  by_cases hyx : y = x
  · subst hyx
    rw [if_pos rfl] at hrefs
    rw [hfile, Function.update_self, File.close_ref]
    omega
  · rw [if_neg fun heq => hyx (Option.some.inj heq).symm] at hrefs
    rw [hfile, Function.update_of_ne hyx]
    omega

end Counted

/-- The slots of a live process have changed. -/
theorem Accounted.of_counted (h : Accounted s) (hlive : (s.proc p).status = .live)
    {ofile : Fin NOFILE → Option (Fin NFILE)}
    (hproc : s'.proc = Function.update s.proc p { s.proc p with ofile := ofile })
    (hs' : Counted s') : Accounted s' := by
  refine ⟨hs', fun q hq => ?_⟩
  rw [hproc] at hq ⊢
  have hqp : q ≠ p := by
    rintro rfl
    rw [Function.update_self] at hq
    exact hq hlive
  rw [Function.update_of_ne hqp] at hq ⊢
  exact h.tidy q hq

/-! ### Calls that change no slot -/

/-- The files that are open are the same. -/
def SameOpen (file file' : Fin NFILE → File) : Prop :=
  ∀ y, file' y = file y ∨ (file y).ref = 0 ∧ (file' y).ref = 0

theorem SameOpen.refl (file : Fin NFILE → File) : SameOpen file file := fun _ => .inl rfl

theorem SameOpen.ref_eq {file file' : Fin NFILE → File} (h : SameOpen file file') (y : Fin NFILE) :
    (file' y).ref = (file y).ref := by
  rcases h y with heq | ⟨h0, h0'⟩
  · rw [heq]
  · rw [h0, h0']

theorem SameOpen.accounted (h : SameOpen s.file s'.file) (hproc : s'.proc = s.proc)
    (hs : Accounted s) : Accounted s' := by
  refine ⟨hs.counted.congr h.ref_eq fun q => by rw [hproc], fun q => ?_⟩
  rw [hproc]
  exact hs.tidy q

/-- Nothing has changed in the files and the slots, and no live process has ceased to be live. -/
structure Same (s s' : State) : Prop where
  file : s'.file = s.file
  ofile : ∀ q, (s'.proc q).ofile = (s.proc q).ofile
  status : ∀ q, (s'.proc q).status ≠ .live → (s.proc q).status ≠ .live

theorem Same.phys (s : State) (p : Phys) : Same s { s with phys := p } :=
  ⟨rfl, fun _ => rfl, fun _ h => h⟩

theorem ofile_update {proc : Slot → Process} {r : Process} (h : r.ofile = (proc p).ofile)
    (q : Slot) : (Function.update proc p r q).ofile = (proc q).ofile := by
  by_cases hq : q = p
  · rw [hq, Function.update_self, h]
  · rw [Function.update_of_ne hq]

/-- Other fields of a process are assigned to. -/
theorem Same.setProc {r : Process} (hproc : s'.proc = Function.update s.proc p r)
    (hfile : s'.file = s.file) (hofile : r.ofile = (s.proc p).ofile)
    (hstatus : r.status ≠ .live → (s.proc p).status ≠ .live) : Same s s' := by
  refine ⟨hfile, fun q => hproc ▸ ofile_update hofile q, fun q => ?_⟩
  rw [hproc]
  by_cases hq : q = p
  · rw [hq, Function.update_self]
    exact hstatus
  · rw [Function.update_of_ne hq]
    exact id

theorem Same.accounted (h : Same s s') (hs : Accounted s) : Accounted s' :=
  ⟨hs.counted.congr (fun x => by rw [h.file]) h.ofile,
    fun q hq => (h.ofile q).trans (hs.tidy q (h.status q hq))⟩

end Vm

end Xv6
