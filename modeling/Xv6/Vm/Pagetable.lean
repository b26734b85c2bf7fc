import Xv6.Vm.Kalloc

/-!
# Page tables

The functions of `vm.c` on page directories, one by one. A `pde_t*` or `char*` that points to the
start of a page is the frame of that page; a `pte_t*` is the frame of a page table together with an
index. The null pointer is `none`, and a function that returns `-1` or `0` for success returns
`false` or `true`.

## Main definitions

* `walkpgdir`, `mappages`, `setupkvm`
* `allocuvm`, `deallocuvm`, `freevm`, `copyuvm`
* `inituvm`, `clearpteu`
-/

namespace Xv6

namespace Vm

variable (L : Layout)

/-- The entry for the address `va`: the frame of its page table and the index in it. -/
def walkpgdir (pgdir va : ℕ) (alloc : Bool) : M (Option (ℕ × ℕ)) := do
  let pde ← load pgdir (PDX va)
  if Present pde then return some (frame pde, PTX va)
  if alloc = false then return none
  match ← kalloc with
  | none => return none
  | some pgtab =>
    memset pgtab 0
    store pgdir (PDX va) (mkPte (pgtab * PGSIZE) (PTE_W ||| PTE_U))
    return some (pgtab, PTX va)

/-- The loop of `mappages`. -/
def mappagesLoop (pgdir last perm : ℕ) : ℕ → ℕ → ℕ → M Bool
  | 0, _, _ => throw .diverged
  | n + 1, a, pa => do
    match ← walkpgdir pgdir a true with
    | none => return false
    | some (pgtab, i) =>
      if Present (← load pgtab i) then throw .remap
      store pgtab i (mkPte pa perm)
      if a = last then return true
      mappagesLoop pgdir last perm n ((a + PGSIZE) % 2 ^ 32) ((pa + PGSIZE) % 2 ^ 32)

def mappages (pgdir va size pa perm : ℕ) : M Bool :=
  mappagesLoop pgdir (PGROUNDDOWN ((va + size + (2 ^ 32 - 1)) % 2 ^ 32)) perm ROUNDS
    (PGROUNDDOWN va) pa

/-- The loop of `deallocuvm`. -/
def deallocuvmLoop (pgdir oldsz : ℕ) : ℕ → ℕ → M Unit
  | 0, _ => throw .diverged
  | n + 1, a => do
    if a < oldsz then
      match ← walkpgdir pgdir a false with
      | none =>
        -- on to the first page of the next page table
        let a := (PGADDR (PDX a + 1) 0 0 + (2 ^ 32 - PGSIZE)) % 2 ^ 32
        deallocuvmLoop pgdir oldsz n ((a + PGSIZE) % 2 ^ 32)
      | some (pgtab, i) =>
        let pte ← load pgtab i
        if Present pte then
          if frame pte = 0 then throw .kfree
          kfree L (frame pte)
          store pgtab i 0
        deallocuvmLoop pgdir oldsz n ((a + PGSIZE) % 2 ^ 32)

def deallocuvm (pgdir oldsz newsz : ℕ) : M ℕ := do
  if newsz ≥ oldsz then return oldsz
  deallocuvmLoop L pgdir oldsz ROUNDS (PGROUNDUP newsz)
  return newsz

/-- The loop of `freevm` over the entries of the page directory. -/
def freevmLoop (pgdir : ℕ) : List ℕ → M Unit
  | [] => return
  | i :: is => do
    let pde ← load pgdir i
    if Present pde then kfree L (frame pde)
    freevmLoop pgdir is

def freevm (pgdir : Option ℕ) : M Unit := do
  match pgdir with
  | none => throw .freevm
  | some pgdir =>
    let _ ← deallocuvm L pgdir KERNBASE 0
    freevmLoop L pgdir (List.range NPDENTRIES)
    kfree L pgdir

/-- The loop of `allocuvm`. -/
def allocuvmLoop (pgdir oldsz newsz : ℕ) : ℕ → ℕ → M ℕ
  | 0, _ => throw .diverged
  | n + 1, a => do
    if a < newsz then
      match ← kalloc with
      | none =>
        let _ ← deallocuvm L pgdir newsz oldsz
        return 0
      | some mem =>
        memset mem 0
        if ← mappages pgdir a PGSIZE (mem * PGSIZE) (PTE_W ||| PTE_U) then
          allocuvmLoop pgdir oldsz newsz n ((a + PGSIZE) % 2 ^ 32)
        else
          let _ ← deallocuvm L pgdir newsz oldsz
          kfree L mem
          return 0
    else return newsz

def allocuvm (pgdir oldsz newsz : ℕ) : M ℕ := do
  if newsz ≥ KERNBASE then return 0
  if newsz < oldsz then return oldsz
  allocuvmLoop L pgdir oldsz newsz ROUNDS (PGROUNDUP oldsz)

/-- An entry of `kmap`. -/
structure Kmap where
  virt : ℕ
  physStart : ℕ
  physEnd : ℕ
  perm : ℕ

/-- The kernel's mappings, which are present in every page table. -/
def kmap : List Kmap :=
  [⟨KERNBASE, 0, EXTMEM, PTE_W⟩,
   ⟨KERNLINK, V2P KERNLINK, V2P L.data, 0⟩,
   ⟨L.data, V2P L.data, PHYSTOP, PTE_W⟩,
   ⟨DEVSPACE, DEVSPACE, 0, PTE_W⟩]

/-- The loop of `setupkvm`. -/
def setupkvmLoop (pgdir : ℕ) : List Kmap → M (Option ℕ)
  | [] => return some pgdir
  | k :: ks => do
    if ← mappages pgdir k.virt ((k.physEnd + (2 ^ 32 - k.physStart)) % 2 ^ 32) k.physStart k.perm
    then setupkvmLoop pgdir ks
    else
      freevm L (some pgdir)
      return none

def setupkvm : M (Option ℕ) := do
  match ← kalloc with
  | none => return none
  | some pgdir =>
    memset pgdir 0
    if P2V PHYSTOP > DEVSPACE then throw .phystop
    setupkvmLoop L pgdir (kmap L)

/-- `inituvm`, with the program as the bytes `init 0, …, init (sz - 1)`. The page it asks for is not
checked: a null pointer is not mapped writable. -/
def inituvm (pgdir : ℕ) (init : ℕ → UInt8) (sz : ℕ) : M Unit := do
  if sz ≥ PGSIZE then throw .inituvm
  match ← kalloc with
  | none => throw .fault
  | some mem =>
    memset mem 0
    let _ ← mappages pgdir 0 PGSIZE (mem * PGSIZE) (PTE_W ||| PTE_U)
    modify fun p => { p with mem := Function.update p.mem mem ((p.mem mem).blit 0 sz init) }

def clearpteu (pgdir uva : ℕ) : M Unit := do
  match ← walkpgdir pgdir uva false with
  | none => throw .clearpteu
  | some (pgtab, i) => store pgtab i ((← load pgtab i) &&& (2 ^ 32 - 1 - PTE_U))

/-- The loop of `copyuvm` over the pages of the parent. -/
def copyuvmLoop (pgdir sz d : ℕ) : ℕ → ℕ → M (Option ℕ)
  | 0, _ => throw .diverged
  | n + 1, i => do
    if i < sz then
      match ← walkpgdir pgdir i false with
      | none => throw .copyuvmPte
      | some (pgtab, j) =>
        let pte ← load pgtab j
        if ¬ Present pte then throw .copyuvmPage
        match ← kalloc with
        | none =>
          freevm L (some d)
          return none
        | some mem =>
          modify fun p => { p with mem := Function.update p.mem mem (p.mem (frame pte)) }
          if ← mappages d i PGSIZE (mem * PGSIZE) (PTE_FLAGS pte) then
            copyuvmLoop pgdir sz d n ((i + PGSIZE) % 2 ^ 32)
          else
            kfree L mem
            freevm L (some d)
            return none
    else return some d

def copyuvm (pgdir sz : ℕ) : M (Option ℕ) := do
  match ← setupkvm L with
  | none => return none
  | some d => copyuvmLoop L pgdir sz d ROUNDS 0

end Vm

end Xv6
