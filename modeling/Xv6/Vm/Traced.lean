import Xv6.Lib.Ghost
import Xv6.Vm.Load

/-!
# What `copyout` touches

The argument phase of `exec` once more, with a log of what `uva2ka` is told by `walkpgdir` and of
the bytes that `copyout` writes.

## Main definitions

* `Access` — an entry of the log
* `uva2kaT`, `copyoutT`, `pushArgsT`, `pushStackT`

## Main results

* `erases_pushStack` — without the log this is `pushStack`
-/

namespace Xv6

namespace Vm

open Ghost

/-- What `walkpgdir` has returned to `uva2ka`, or bytes of a frame that `copyout` has written. -/
inductive Access
  | walk (pte : Option (ℕ × ℕ))
  | write (f off n : ℕ)

/-- Programs with a log of accesses. -/
abbrev MT := Logged Halt Phys Access

variable (L : Layout)

/-- `uva2ka`, with its log. -/
def uva2kaT (pgdir uva : ℕ) : MT ℕ := do
  let r ← lift (walkpgdir pgdir uva false)
  note (.walk r)
  let pte ← match r with
    | some (pgtab, i) => lift (load pgtab i)
    | none => throw .fault
  if ¬ Present pte then return 0
  if ¬ User pte then return 0
  return P2V (frame pte * PGSIZE)

/-- The loop of `copyout`, with its log. -/
def copyoutLoopT (cr3 pgdir : ℕ) (p : ℕ → UInt8) : ℕ → ℕ → ℕ → ℕ → MT Bool
  | 0, _, _, _ => throw .diverged
  | r + 1, va, copied, len => do
    if len = 0 then return true
    let va0 := PGROUNDDOWN va
    let pa0 ← uva2kaT pgdir va0
    if pa0 = 0 then return false
    let n := min (PGSIZE - (va - va0)) len
    let f ← lift (kernelFrame L cr3 pa0 true)
    note (.write f (va - va0) n)
    lift (modify fun s => { s with
      mem := Function.update s.mem f ((s.mem f).blit (va - va0) n fun k => p (copied + k)) })
    copyoutLoopT cr3 pgdir p r ((va0 + PGSIZE) % 2 ^ 32) (copied + n) (len - n)

/-- `copyout`, with its log. -/
def copyoutT (cr3 pgdir va : ℕ) (p : ℕ → UInt8) (len : ℕ) : MT Bool :=
  copyoutLoopT L cr3 pgdir p (len + 1) va 0 len

/-- The loop of `exec` over the argument strings, with its log. -/
def pushArgsT (cr3 pgdir : ℕ) : List (List UInt8) → ℕ → ℕ → List ℕ → MT (Option (ℕ × List ℕ))
  | [], _, sp, ptrs => return some (sp, ptrs)
  | s :: argv, argc, sp, ptrs => do
    if argc ≥ MAXARG then return none
    let sp := (sp + (2 ^ 32 - (s.length + 1))) % 2 ^ 32 / 4 * 4
    if ← copyoutT L cr3 pgdir sp (cstring s) (s.length + 1) then
      pushArgsT cr3 pgdir argv (argc + 1) sp (ptrs ++ [sp])
    else return none

/-- `exec` from the argument strings on, with its log. -/
def pushStackT (cr3 pgdir : ℕ) (ip : Image) (argv : List (List UInt8)) (sz : ℕ) :
    MT (Option Loaded) := do
  match ← pushArgsT L cr3 pgdir argv 0 sz [] with
  | none => return none
  | some (sp, ptrs) =>
    let argc := argv.length
    let ustack := [0xffffffff, argc, (sp + (2 ^ 32 - (argc + 1) * 4)) % 2 ^ 32] ++ ptrs ++ [0]
    let sp := (sp + (2 ^ 32 - (3 + argc + 1) * 4)) % 2 ^ 32
    if ← copyoutT L cr3 pgdir sp (wordBytes ustack) ((3 + argc + 1) * 4) then
      return some { pgdir := pgdir, sz := sz, eip := ip.elfhdr.entry, esp := sp }
    else return none

/-! ### The log does not matter -/

theorem erases_uva2ka (pgdir uva : ℕ) : Erases (uva2kaT pgdir uva) (uva2ka pgdir uva) := by
  refine (Erases.lift _).bind fun r => Erases.note_bind ?_
  cases r with
  | none => exact (Erases.throw _).bind fun pte => .ite (.pure _) (.ite (.pure _) (.pure _))
  | some x =>
    refine (Erases.lift _).bind fun pte => ?_
    exact .ite (.pure _) (.ite (.pure _) (.pure _))

theorem erases_copyoutLoop (cr3 pgdir : ℕ) (p : ℕ → UInt8) (r va copied len : ℕ) :
    Erases (copyoutLoopT L cr3 pgdir p r va copied len)
      (copyoutLoop L cr3 pgdir p r va copied len) := by
  induction r generalizing va copied len with
  | zero => exact Erases.throw _
  | succ r ih =>
    rw [copyoutLoopT, copyoutLoop]
    refine .ite (.pure _) ((erases_uva2ka _ _).bind fun pa0 => .ite (.pure _) ?_)
    refine (Erases.lift _).bind fun f => Erases.note_bind ?_
    exact (Erases.lift _).bind fun _ => ih _ _ _

theorem erases_copyout (cr3 pgdir va : ℕ) (p : ℕ → UInt8) (len : ℕ) :
    Erases (copyoutT L cr3 pgdir va p len) (copyout L cr3 pgdir va p len) :=
  erases_copyoutLoop L _ _ _ _ _ _ _

theorem erases_pushArgs (cr3 pgdir : ℕ) (argv : List (List UInt8)) (argc sp : ℕ) (ptrs : List ℕ) :
    Erases (pushArgsT L cr3 pgdir argv argc sp ptrs) (pushArgs L cr3 pgdir argv argc sp ptrs) := by
  induction argv generalizing argc sp ptrs with
  | nil => exact Erases.pure _
  | cons s argv ih =>
    rw [pushArgsT, pushArgs]
    exact .ite (.pure _) ((erases_copyout L _ _ _ _ _).bind fun b => .ite (ih _ _ _) (.pure _))

/-- **The log does not matter** to the argument phase. -/
theorem erases_pushStack (cr3 pgdir : ℕ) (ip : Image) (argv : List (List UInt8)) (sz : ℕ) :
    Erases (pushStackT L cr3 pgdir ip argv sz) (pushStack L cr3 pgdir ip argv sz) := by
  rw [pushStackT, pushStack]
  refine (erases_pushArgs L _ _ _ _ _ _).bind fun r => ?_
  cases r with
  | none => exact Erases.pure _
  | some x => exact (erases_copyout L _ _ _ _ _).bind fun b => .ite (.pure _) (.pure _)

end Vm

end Xv6
