import Xv6.Lib.Copy

/-!
# The two `memmove`

The kernel has a `memmove` in `string.c` that copies from the end when the destination overlaps the
source from above. The user library has one in `ulib.c` that always copies from the start.

Memory is an array of bytes, and a pointer is a 32-bit word.

## Main definitions

* `Kernel.memmove`, `Ulib.memmove` — the two functions
* `Movable` — what `Ulib.memmove` can move

## Main results

* `memmove_iff` — both move the bytes exactly if the user library can
-/

namespace Xv6

open Copy

/-- The bytes of an address space. -/
abbrev Memory := ℕ → UInt8

namespace Memory

/-- `while(n-- > 0) *d++ = *s++;` -/
def copyForward : ℕ → Memory → UInt32 → UInt32 → Memory
  | 0, m, _, _ => m
  | n + 1, m, d, s => copyForward n (Function.update m d.toNat (m s.toNat)) (d + 1) (s + 1)

/-- `while(n-- > 0) *--d = *--s;` -/
def copyBackward : ℕ → Memory → UInt32 → UInt32 → Memory
  | 0, m, _, _ => m
  | n + 1, m, d, s =>
    copyBackward n (Function.update m (d - 1).toNat (m (s - 1).toNat)) (d - 1) (s - 1)

end Memory

/-- `memmove` of `string.c`: the pointer that it returns, and the memory. -/
def Kernel.memmove (m : Memory) (dst src n : UInt32) : UInt32 × Memory :=
  if src < dst ∧ src + n > dst then (dst, m.copyBackward n.toNat (dst + n) (src + n))
  else (dst, m.copyForward n.toNat dst src)

/-- `memmove` of `ulib.c`; its `n` is an `int`. -/
def Ulib.memmove (m : Memory) (vdst vsrc : UInt32) (n : Int32) : UInt32 × Memory :=
  (vdst, m.copyForward n.toInt.toNat vdst vsrc)

/-! ### The loops -/

section Loops

variable {m : Memory} {d s : UInt32} {n : ℕ}

theorem toNat_add_one (h : d.toNat + 1 < 2 ^ 32) : (d + 1).toNat = d.toNat + 1 := by
  rw [UInt32.toNat_add]
  exact Nat.mod_eq_of_lt h

theorem copyForward_eq (hd : d.toNat + n ≤ 2 ^ 32) (hs : s.toNat + n ≤ 2 ^ 32) :
    m.copyForward n d s = copyUp n m d.toNat s.toNat := by
  induction n generalizing m d s with
  | zero => rfl
  | succ n ih =>
    rw [Memory.copyForward, copyUp]
    cases n with
    | zero => rfl
    | succ n =>
      have hd' : (d + 1).toNat = d.toNat + 1 := toNat_add_one (by omega)
      have hs' : (s + 1).toNat = s.toNat + 1 := toNat_add_one (by omega)
      rw [ih (by omega) (by omega), hd', hs']

theorem toNat_add_ofNat {k : ℕ} (h : d.toNat + k < 2 ^ 32) :
    (d + UInt32.ofNat k).toNat = d.toNat + k := by
  have hk : (UInt32.ofNat k).toNat = k :=
    UInt32.toNat_ofNat_of_lt' (Nat.lt_of_le_of_lt (Nat.le_add_left k _) h)
  rw [UInt32.toNat_add, hk]
  exact Nat.mod_eq_of_lt h

/-- The pointers start behind the last byte, which may be the end of the address space. -/
theorem copyBackward_eq (hd : d.toNat + n ≤ 2 ^ 32) (hs : s.toNat + n ≤ 2 ^ 32) :
    m.copyBackward n (d + UInt32.ofNat n) (s + UInt32.ofNat n) = copyDown n m d.toNat s.toNat := by
  induction n generalizing m with
  | zero => rfl
  | succ n ih =>
    have hpred : ∀ p : UInt32, p + UInt32.ofNat (n + 1) - 1 = p + UInt32.ofNat n := fun p => by
      rw [UInt32.ofNat_add, ← UInt32.add_assoc]
      exact UInt32.add_sub_cancel _ _
    rw [Memory.copyBackward, copyDown, hpred, hpred, toNat_add_ofNat (by omega),
      toNat_add_ofNat (by omega), ih (by omega) (by omega)]

end Loops

/-! ### What is moved -/

variable {m : Memory} {dst src n : UInt32}

/-- The kernel's `memmove` moves the bytes, however they overlap. -/
theorem copies_kernel (hdst : dst.toNat + n.toNat ≤ 2 ^ 32) (hsrc : src.toNat + n.toNat ≤ 2 ^ 32) :
    Copies m (Kernel.memmove m dst src n).2 dst.toNat src.toNat n.toNat := by
  have hn : UInt32.ofNat n.toNat = n := UInt32.ofNat_toNat
  have hend : src < dst → (src + n).toNat = src.toNat + n.toNat := fun hlt => by
    rw [UInt32.lt_iff_toNat_lt] at hlt
    rw [← hn, toNat_add_ofNat (by omega), hn]
  rw [Kernel.memmove]
  split
  · next hover =>
    have hback := copyBackward_eq (m := m) hdst hsrc
    rw [hn] at hback
    rw [hback]
    exact copies_copyDown (Nat.le_of_lt (UInt32.lt_iff_toNat_lt.mp hover.1))
  · next hover =>
    rw [copyForward_eq hdst hsrc, copies_copyUp_iff]
    intro hlt k hk
    have hlt' : src < dst := UInt32.lt_iff_toNat_lt.mpr hlt
    refine absurd ⟨hlt', ?_⟩ hover
    rw [gt_iff_lt, UInt32.lt_iff_toNat_lt, hend hlt']
    omega

/-- The rounds of the loop for an `int`. -/
theorem rounds_eq (n : UInt32) :
    n.toInt32.toInt.toNat = if n.toNat < 2 ^ 31 then n.toNat else 0 := by
  have hint : n.toInt32.toInt = _ := BitVec.toInt_eq_toNat_cond n.toBitVec
  have hnat : n.toBitVec.toNat = n.toNat := rfl
  have hlt := n.toNat_lt
  rw [hint, hnat]
  split <;> split <;> omega

/-- **What `ulib.c` can move**: a number of bytes that is positive as an `int`, and that do not move
up over bytes that are still to be copied, unless these do not change by that. A number that is
negative as an `int` moves nothing. -/
def Movable (m : Memory) (dst src n : UInt32) : Prop :=
  if n.toNat < 2 ^ 31 then src.toNat < dst.toNat → ∀ k, dst.toNat - src.toNat + k < n.toNat →
    m (dst.toNat + k) = m (src.toNat + k)
  else ∀ k < n.toNat, m (dst.toNat + k) = m (src.toNat + k)

theorem copies_ulib_iff (hdst : dst.toNat + n.toNat ≤ 2 ^ 32)
    (hsrc : src.toNat + n.toNat ≤ 2 ^ 32) :
    Copies m (Ulib.memmove m dst src n.toInt32).2 dst.toNat src.toNat n.toNat ↔
    Movable m dst src n := by
  rw [Ulib.memmove, rounds_eq, Movable]
  split
  · rw [copyForward_eq hdst hsrc, copies_copyUp_iff]
  · exact copies_self_iff

/-- **Both `memmove` move the bytes**, change no other byte and agree exactly if the user library's
can move them. -/
theorem memmove_iff (m : Memory) (dst src n : UInt32) (hdst : dst.toNat + n.toNat ≤ 2 ^ 32)
    (hsrc : src.toNat + n.toNat ≤ 2 ^ 32) :
    (Copies m (Kernel.memmove m dst src n).2 dst.toNat src.toNat n.toNat ∧
      Copies m (Ulib.memmove m dst src n.toInt32).2 dst.toNat src.toNat n.toNat ∧
      Kernel.memmove m dst src n = Ulib.memmove m dst src n.toInt32) ↔ Movable m dst src n := by
  rw [← copies_ulib_iff hdst hsrc]
  refine ⟨fun h => h.2.1, fun h => ⟨copies_kernel hdst hsrc, h, Prod.ext ?_ ?_⟩⟩
  · rw [Kernel.memmove]
    split <;> rfl
  · exact (copies_kernel hdst hsrc).unique h

/-- A memory in which neighbouring bytes differ. -/
def counting : Memory := fun a => UInt8.ofNat a

/-- Four bytes move down by one. -/
theorem memmove_iff_down : Movable counting 0x1000 0x1001 4 ∧
    Kernel.memmove counting 0x1000 0x1001 4 = Ulib.memmove counting 0x1000 0x1001 4 := by
  have hmovable : Movable counting 0x1000 0x1001 4 := by
    rw [Movable, if_pos (by decide)]
    exact fun hlt => absurd hlt (by decide)
  exact ⟨hmovable,
    ((memmove_iff counting 0x1000 0x1001 4 (by decide) (by decide)).mpr hmovable).2.2⟩

/-- **Two bytes move up by one**: with the user library the first one arrives twice. -/
theorem memmove_up_ne :
    (Kernel.memmove counting 0x1001 0x1000 2).2 0x1002 = counting 0x1001 ∧
      (Ulib.memmove counting 0x1001 0x1000 2).2 0x1002 = counting 0x1000 ∧
      ¬ Copies counting (Ulib.memmove counting 0x1001 0x1000 2).2 0x1001 0x1000 2 := by
  refine ⟨by decide, by decide, fun h => ?_⟩
  have hlast := h.copied 1 (by decide)
  exact absurd hlast (by decide)

end Xv6
