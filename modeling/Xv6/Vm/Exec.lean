import Xv6.Vm.User

/-!
# `exec`

A program file is an array of bytes, of which `readi` delivers a part. The ELF header and the
program headers are read out of those bytes field by field. Path lookup and the locks of the inode
are left out, and so are the trap frame and the name of the process.

The argument strings are in the memory of the calling process, which does not change until the new
image is complete, so they are passed as lists of bytes.

## Main definitions

* `Image`, `Image.readi` — files
* `loaduvm`, `loadSegments`, `pushArgs`
* `loading`, `pushStack` — the part of `exec` that depends on the file, and the part for the
  arguments
* `exec`
-/

namespace Xv6

namespace Vm

/-- Maximum number of arguments of `exec`. -/
abbrev MAXARG : ℕ := 32

abbrev ELF_MAGIC : ℕ := 0x464C457F

abbrev ELF_PROG_LOAD : ℕ := 1

/-- The contents of a file. -/
structure Image where
  size : ℕ
  byte : ℕ → UInt8

namespace Image

/-- The number of bytes that `readi(ip, dst, off, n)` delivers, `none` for `-1`. -/
def readi (ip : Image) (off n : ℕ) : Option ℕ :=
  if off > ip.size ∨ (off + n) % 2 ^ 32 < off then none
  else some (if off + n > ip.size then ip.size - off else n)

/-- The little-endian number of `k` bytes at an offset. -/
def num (ip : Image) (off : ℕ) : ℕ → ℕ
  | 0 => 0
  | k + 1 => (ip.byte off).toNat + 256 * ip.num (off + 1) k

end Image

/-- The fields of `struct elfhdr` that `exec` uses. -/
structure Elfhdr where
  magic : ℕ
  entry : ℕ
  phoff : ℕ
  phnum : ℕ

/-- The fields of `struct proghdr` that `exec` uses. -/
structure Proghdr where
  type : ℕ
  off : ℕ
  vaddr : ℕ
  filesz : ℕ
  memsz : ℕ

/-- `sizeof(struct elfhdr)`. -/
abbrev sizeofElfhdr : ℕ := 52

/-- `sizeof(struct proghdr)`. -/
abbrev sizeofProghdr : ℕ := 32

def Image.elfhdr (ip : Image) : Elfhdr where
  magic := ip.num 0 4
  entry := ip.num 24 4
  phoff := ip.num 28 4
  phnum := ip.num 44 2

def Image.proghdr (ip : Image) (off : ℕ) : Proghdr where
  type := ip.num off 4
  off := ip.num (off + 4) 4
  vaddr := ip.num (off + 8) 4
  filesz := ip.num (off + 16) 4
  memsz := ip.num (off + 20) 4

variable (L : Layout)

/-- The loop of `loaduvm`. -/
def loaduvmLoop (pgdir addr : ℕ) (ip : Image) (offset sz : ℕ) : ℕ → ℕ → M Bool
  | 0, _ => throw .diverged
  | r + 1, i => do
    if i < sz then
      match ← walkpgdir pgdir ((addr + i) % 2 ^ 32) false with
      | none => throw .loaduvm
      | some (pgtab, j) =>
        let pte ← load pgtab j
        let n := if sz - i < PGSIZE then sz - i else PGSIZE
        let off := (offset + i) % 2 ^ 32
        match ip.readi off n with
        | none => return false
        | some got =>
          -- what was read is in memory also if it is less than was asked for
          modify fun s =>
            let f := frame pte
            { s with
              mem := Function.update s.mem f ((s.mem f).blit 0 got fun k => ip.byte (off + k)) }
          if got ≠ n then return false
          loaduvmLoop pgdir addr ip offset sz r ((i + PGSIZE) % 2 ^ 32)
    else return true

def loaduvm (pgdir addr : ℕ) (ip : Image) (offset sz : ℕ) : M Bool := do
  if addr % PGSIZE ≠ 0 then throw .loaduvmAlign
  loaduvmLoop pgdir addr ip offset sz ROUNDS 0

/-- The loop of `exec` over the program headers; the size of the image, `none` for `goto bad`. -/
def loadSegments (pgdir : ℕ) (ip : Image) : ℕ → ℕ → ℕ → M (Option ℕ)
  | 0, _, sz => return some sz
  | n + 1, off, sz => do
    if ip.readi off sizeofProghdr ≠ some sizeofProghdr then return none
    let ph := ip.proghdr off
    let next := (off + sizeofProghdr) % 2 ^ 32
    if ph.type ≠ ELF_PROG_LOAD then loadSegments pgdir ip n next sz
    else if ph.memsz < ph.filesz then return none
    else if (ph.vaddr + ph.memsz) % 2 ^ 32 < ph.vaddr then return none
    else do
      let sz ← allocuvm L pgdir sz ((ph.vaddr + ph.memsz) % 2 ^ 32)
      if sz = 0 then return none
      if ph.vaddr % PGSIZE ≠ 0 then return none
      if ← loaduvm pgdir ph.vaddr ip ph.off ph.filesz then loadSegments pgdir ip n next sz
      else return none

/-- The bytes of a list, `0` after its end: a C string. -/
def cstring (s : List UInt8) (k : ℕ) : UInt8 := s.getD k 0

/-- The bytes of an array of `uint`s. -/
def wordBytes (ws : List ℕ) (k : ℕ) : UInt8 := Bytes.digit (ws.getD (k / 4) 0) (k % 4)

/-- The loop of `exec` over the argument strings: the stack pointer and the pointers to the
copies. -/
def pushArgs (cr3 pgdir : ℕ) : List (List UInt8) → ℕ → ℕ → List ℕ → M (Option (ℕ × List ℕ))
  | [], _, sp, ptrs => return some (sp, ptrs)
  | s :: argv, argc, sp, ptrs => do
    if argc ≥ MAXARG then return none
    let sp := (sp + (2 ^ 32 - (s.length + 1))) % 2 ^ 32 / 4 * 4
    if ← copyout L cr3 pgdir sp (cstring s) (s.length + 1) then
      pushArgs cr3 pgdir argv (argc + 1) sp (ptrs ++ [sp])
    else return none

/-- What `exec` assigns to the process. -/
structure Loaded where
  pgdir : ℕ
  sz : ℕ
  eip : ℕ
  esp : ℕ

/-! ### The phases of `exec` -/

/-- `exec` between `setupkvm` and the argument strings: the segments, the stack and the page below
it. -/
def loadImage (pgdir : ℕ) (ip : Image) : M (Option ℕ) := do
  match ← loadSegments L pgdir ip ip.elfhdr.phnum ip.elfhdr.phoff 0 with
  | none => return none
  | some sz =>
    let sz := PGROUNDUP sz
    let sz ← allocuvm L pgdir sz ((sz + 2 * PGSIZE) % 2 ^ 32)
    if sz = 0 then return none
    clearpteu pgdir (sz - 2 * PGSIZE)
    return some sz

/-- `exec` from the argument strings to the commitment to the new image. -/
def pushStack (cr3 pgdir : ℕ) (ip : Image) (argv : List (List UInt8)) (sz : ℕ) :
    M (Option Loaded) := do
  match ← pushArgs L cr3 pgdir argv 0 sz [] with
  | none => return none
  | some (sp, ptrs) =>
    let argc := argv.length
    let ustack := [0xffffffff, argc, (sp + (2 ^ 32 - (argc + 1) * 4)) % 2 ^ 32] ++ ptrs ++ [0]
    let sp := (sp + (2 ^ 32 - (3 + argc + 1) * 4)) % 2 ^ 32
    if ← copyout L cr3 pgdir sp (wordBytes ustack) ((3 + argc + 1) * 4) then
      return some { pgdir := pgdir, sz := sz, eip := ip.elfhdr.entry, esp := sp }
    else return none

/-- **The loading phase** of `exec`, with the way out through `bad`: the new page directory and its
size. -/
def loading (ip : Image) : M (Option (ℕ × ℕ)) := do
  if ip.readi 0 sizeofElfhdr ≠ some sizeofElfhdr then return none
  if ip.elfhdr.magic ≠ ELF_MAGIC then return none
  match ← setupkvm L with
  | none => return none
  | some pgdir =>
    match ← loadImage L pgdir ip with
    | some sz => return some (pgdir, sz)
    | none =>
      freevm L (some pgdir)
      return none

/-- `exec` of the file `ip`, up to the commitment to the new image; `none` for `goto bad`. -/
def exec (cr3 : ℕ) (ip : Image) (argv : List (List UInt8)) : M (Option Loaded) := do
  match ← loading L ip with
  | none => return none
  | some (pgdir, sz) =>
    match ← pushStack L cr3 pgdir ip argv sz with
    | some img => return some img
    | none =>
      freevm L (some pgdir)
      return none

end Vm

end Xv6
