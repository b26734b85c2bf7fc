import Xv6.Lib.Transition

/-!
# The user heap

`umalloc.c`: the allocator that programs are linked with. Memory is a header at every address; the
addresses are those of bytes, and a header takes eight of them. The free blocks are a circular list
from `base`, which is not on the heap, and `freep` points into it; it is null before the first call
of `malloc`.

A program calls `malloc` and `free` and writes to the blocks that it owns. `sbrk` may refuse to let
the heap grow, but if it grows, it grows in one piece and below `2 ^ 32`. The loops count down their
rounds, so a call that does not come to an end, or ends in a page fault, returns `none`.

## Main definitions

* `free`, `morecore`, `malloc`
* `Config`, `Event`, `step` — a program and its heap
-/

namespace Xv6

namespace Umalloc

/-- `union header`. -/
structure Header where
  ptr : ℕ
  size : ℕ
  deriving DecidableEq, Repr

/-- The memory, `freep`, and the end of the heap. -/
structure State where
  mem : ℕ → Header
  freep : ℕ
  brk : ℕ

namespace State

/-- `p->s.ptr = q`. -/
def setPtr (s : State) (p q : ℕ) : State :=
  { s with mem := Function.update s.mem p { s.mem p with ptr := q } }

/-- `p->s.size = n`. -/
def setSize (s : State) (p n : ℕ) : State :=
  { s with mem := Function.update s.mem p { s.mem p with size := n } }

/-- `p->s.ptr`. -/
def ptr (s : State) (p : ℕ) : ℕ := (s.mem p).ptr

/-- `p->s.size`. -/
def size (s : State) (p : ℕ) : ℕ := (s.mem p).size

end State

/-- `p + n`, for a pointer to headers. -/
def plus (p n : ℕ) : ℕ := (p + n * 8) % 2 ^ 32

/-! ### `free` -/

/-- The loop of `free`: the block behind which `bp` is to be inserted. -/
def findPlace (s : State) (bp : ℕ) : ℕ → ℕ → Option ℕ
  | 0, _ => none
  | fuel + 1, p =>
    if bp > p ∧ bp < s.ptr p then some p
    else if p ≥ s.ptr p ∧ (bp > p ∨ bp < s.ptr p) then some p
    else findPlace s bp fuel (s.ptr p)

/-- The block behind `bp` becomes part of it, or its successor. -/
def joinNext (s : State) (bp p : ℕ) : State :=
  if plus bp (s.size bp) = s.ptr p then
    let s := s.setSize bp ((s.size bp + s.size (s.ptr p)) % 2 ^ 32)
    s.setPtr bp (s.ptr (s.ptr p))
  else s.setPtr bp (s.ptr p)

/-- `bp` becomes part of the block before it, or its successor. -/
def joinPrev (s : State) (bp p : ℕ) : State :=
  if plus p (s.size p) = bp then
    let s := s.setSize p ((s.size p + s.size bp) % 2 ^ 32)
    s.setPtr p (s.ptr bp)
  else s.setPtr p bp

def free (fuel : ℕ) (s : State) (ap : ℕ) : Option State := do
  let bp := ap - 8
  let p ← findPlace s bp fuel s.freep
  let s := joinPrev (joinNext s bp p) bp p
  return { s with freep := p }

/-! ### `malloc` -/

/-- Where the last page of the process ends. -/
def pageEnd (brk : ℕ) : ℕ := (brk + 4095) / 4096 * 4096

/-- `sbrk`. The size of the process is a `uint`, and `n` is read as an `int`: from `2 ^ 31` on it is
negative. A process that grows may be refused; one that shrinks by more than it has stays as it is,
and one that shrinks to nothing gets an error. -/
def sbrk (grant : Bool) (s : State) (n : ℕ) : Option (ℕ × State) :=
  if n < 2 ^ 31 then
    if n = 0 ∨ grant ∧ s.brk + n < 2 ^ 32 then some (s.brk, { s with brk := s.brk + n }) else none
  else
    let brk := (s.brk + n) % 2 ^ 32
    if brk ≥ s.brk then some (s.brk, s)
    else if brk = 0 then none
    else some (s.brk, { s with brk })

/-- `morecore` returns a block of the free list, or null. The new block is written to, so it must be
on a page of the process. -/
def morecore (fuel : ℕ) (grant : Bool) (s : State) (nu : ℕ) : Option (ℕ × State) := do
  let nu := if nu < 4096 then 4096 else nu
  match sbrk grant s (nu * 8 % 2 ^ 32) with
  | none => return (0, s)
  | some (hp, s) =>
    if pageEnd s.brk < hp + 8 then none
    let s := s.setSize hp nu
    let s ← free fuel s (plus hp 1)
    return (s.freep, s)

/-- `p` is large enough: the block is taken out of the list, or its end is cut off. -/
def take (s : State) (prevp p nunits : ℕ) : ℕ × State :=
  if s.size p = nunits then
    (plus p 1, { s.setPtr prevp (s.ptr p) with freep := prevp })
  else
    let s := s.setSize p (s.size p - nunits)
    let p := plus p (s.size p)
    let s := s.setSize p nunits
    (plus p 1, { s with freep := prevp })

/-- The loop of `malloc`; `grants` says what the next calls of `sbrk` answer. -/
def search (nunits : ℕ) : ℕ → List Bool → State → ℕ → ℕ → Option (ℕ × State)
  | 0, _, _, _, _ => none
  | fuel + 1, grants, s, prevp, p =>
    if s.size p ≥ nunits then some (take s prevp p nunits)
    else if p = s.freep then do
      let (p, s) ← morecore fuel (grants.headD false) s nunits
      if p = 0 then return (0, s)
      search nunits fuel grants.tail s p (s.ptr p)
    else search nunits fuel grants s p (s.ptr p)

/-- The units of a block for `nbytes`. -/
def unitsOf (nbytes : ℕ) : ℕ := (nbytes + 8 - 1) % 2 ^ 32 / 8 + 1

def malloc (fuel base : ℕ) (grants : List Bool) (s : State) (nbytes : ℕ) :
    Option (ℕ × State) :=
  let nunits := unitsOf nbytes
  let s := if s.freep = 0 then
      { (s.setPtr base base).setSize base 0 with freep := base }
    else s
  search nunits fuel grants s s.freep (s.ptr s.freep)

/-! ### Programs -/

/-- A program: its heap, and the blocks that it owns with the numbers of bytes it has asked for. -/
structure Config where
  heap : State
  live : List (ℕ × ℕ)

inductive Event
  /-- A call of `malloc`, and what `sbrk` answers if it is called. -/
  | malloc (nbytes : ℕ) (grants : List Bool)
  /-- A call of `free` for a block that the program owns. -/
  | free (ap : ℕ)
  /-- The program writes to the `i`-th unit of a block that it owns. -/
  | write (ap i : ℕ) (h : Header)

/-- What a call of `malloc` must be for. -/
def Asks (nbytes : ℕ) : Prop := ((nbytes + 7) / 8 + 1) * 8 < 2 ^ 31

instance (nbytes : ℕ) : Decidable (Asks nbytes) := inferInstanceAs (Decidable (_ < _))

/-- One step of a program. -/
def step (fuel base : ℕ) (c : Config) : Event → Option Config
  | .malloc nbytes grants =>
    if Asks nbytes then do
      let (p, s) ← malloc fuel base grants c.heap nbytes
      return ⟨s, if p = 0 then c.live else (p, nbytes) :: c.live⟩
    else none
  | .free ap =>
    if ap ∈ c.live.map Prod.fst then do
      let s ← free fuel c.heap ap
      return ⟨s, c.live.filter (·.1 ≠ ap)⟩
    else none
  | .write ap i h =>
    if ap ∈ c.live.map Prod.fst ∧ i + 1 < c.heap.size (ap - 8) then
      some { c with heap.mem := Function.update c.heap.mem (ap + 8 * i) h }
    else none

/-- A program that starts, with the heap at `brk`. -/
def start (mem : ℕ → Header) (brk : ℕ) : Config := ⟨⟨mem, 0, brk⟩, []⟩

end Umalloc

end Xv6
