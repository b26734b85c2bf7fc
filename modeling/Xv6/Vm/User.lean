import Xv6.Vm.Pagetable

/-!
# User memory

How the kernel gets at the memory of a process: through the page table that it runs on, for the
arguments of system calls (`syscall.c`), and through a page directory that is being built, for the
stack of a new program (`uva2ka` and `copyout` of `vm.c`).

`uva2ka` does not test whether `walkpgdir` has found an entry. If it has not then it uses a null
pointer, which has no meaning in C: the kernel stops there.

## Main definitions

* `kernelFrame` — where an address leads to
* `fetchint`, `fetchstr`, `argptr`
* `uva2ka`, `copyout`
-/

namespace Xv6

namespace Vm

variable (L : Layout)

/-- The frame that the kernel reaches at the address `va` while it runs on the page directory `cr3`.
The pages of the kernel's text are read-only; the space of the devices is not memory. -/
def kernelFrame (cr3 va : ℕ) (write : Bool) : M ℕ := do
  if va < KERNBASE then
    let pte := (← get).mem.pte cr3 (va / PGSIZE)
    if Present pte ∧ (write = true → Writable pte) then return frame pte
    throw .fault
  if va < P2V PHYSTOP ∧ ¬ (write = true ∧ KERNLINK ≤ va ∧ va < L.data) then
    return V2P va / PGSIZE
  throw .fault

/-- The byte at an address. -/
def loadByte (cr3 va : ℕ) : M UInt8 := do
  let f ← kernelFrame L cr3 va false
  return ((← get).mem f).get (va % PGSIZE)

/-- `fetchint` for a process of size `sz`. -/
def fetchint (cr3 sz addr : ℕ) : M (Option ℕ) := do
  if addr ≥ sz ∨ (addr + 4) % 2 ^ 32 > sz then return none
  let b₀ ← loadByte L cr3 addr
  let b₁ ← loadByte L cr3 (addr + 1)
  let b₂ ← loadByte L cr3 (addr + 2)
  let b₃ ← loadByte L cr3 (addr + 3)
  return some (b₀.toNat + 256 * (b₁.toNat + 256 * (b₂.toNat + 256 * b₃.toNat)))

/-- The loop of `fetchstr`, with the number of bytes up to `ep`. -/
def fetchstrLoop (cr3 : ℕ) : ℕ → ℕ → M (Option (List UInt8))
  | 0, _ => return none
  | n + 1, s => do
    let c ← loadByte L cr3 s
    if c = 0 then return some []
    match ← fetchstrLoop cr3 n (s + 1) with
    | none => return none
    | some cs => return some (c :: cs)

/-- `fetchstr` for a process of size `sz`. It returns the string without the NUL, where the source
returns its length and a pointer to it. -/
def fetchstr (cr3 sz addr : ℕ) : M (Option (List UInt8)) := do
  if addr ≥ sz then return none
  fetchstrLoop L cr3 (sz - addr) addr

/-- `argptr` for a process of size `sz`, with the argument `i` of the system call and the `int`
`size`. -/
def argptr (sz i : ℕ) (size : BitVec 32) : Option ℕ :=
  if size.toInt < 0 ∨ i ≥ sz ∨ (i + size.toNat) % 2 ^ 32 > sz then none else some i

/-- The kernel address of the page with user address `uva`, `0` if there is none. -/
def uva2ka (pgdir uva : ℕ) : M ℕ := do
  let pte ← match ← walkpgdir pgdir uva false with
    | some (pgtab, i) => load pgtab i
    -- `*pte` with `pte == 0`
    | none => throw .fault
  if ¬ Present pte then return 0
  if ¬ User pte then return 0
  return P2V (frame pte * PGSIZE)

/-- The loop of `copyout`, with the bytes copied so far. -/
def copyoutLoop (cr3 pgdir : ℕ) (p : ℕ → UInt8) : ℕ → ℕ → ℕ → ℕ → M Bool
  | 0, _, _, _ => throw .diverged
  | r + 1, va, copied, len => do
    if len = 0 then return true
    let va0 := PGROUNDDOWN va
    let pa0 ← uva2ka pgdir va0
    if pa0 = 0 then return false
    let n := min (PGSIZE - (va - va0)) len
    let f ← kernelFrame L cr3 pa0 true
    modify fun s => { s with
      mem := Function.update s.mem f ((s.mem f).blit (va - va0) n fun k => p (copied + k)) }
    copyoutLoop cr3 pgdir p r ((va0 + PGSIZE) % 2 ^ 32) (copied + n) (len - n)

/-- `copyout` of the bytes `p 0, …, p (len - 1)`. -/
def copyout (cr3 pgdir va : ℕ) (p : ℕ → UInt8) (len : ℕ) : M Bool :=
  copyoutLoop L cr3 pgdir p (len + 1) va 0 len

end Vm

end Xv6
