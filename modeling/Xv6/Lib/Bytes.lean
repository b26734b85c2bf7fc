import Mathlib

/-!
# Byte arrays and little-endian numbers in them

An array of `N` bytes with the two operations C code performs on a buffer: copying a stretch of
bytes into it, and storing or loading a number of `k` bytes at an offset, least significant byte
first. Offsets are plain numbers; what lies outside the array reads as `0` and is not written, so no
lemma carries a bounds proof it does not need.

An array is kept as one bit vector, byte `i` in bits `8 * i` and up. Nothing below the single bytes
depends on that; it lets the kernel compute with whole arrays.

## Main definitions

* `Bytes.blit` — copy `len` bytes to an offset
* `Bytes.num`, `Bytes.setNum` — load and store a `k`-byte number

## Main results

* `Bytes.num_setNum` — what was stored is loaded again, modulo `256 ^ k`
* `Bytes.num_blit_of_disjoint` — a number elsewhere is not affected
-/

/-- An array of `N` bytes. -/
structure Bytes (N : ℕ) where
  bits : BitVec (8 * N)
  deriving DecidableEq

namespace Bytes

variable {N : ℕ}

/-- The byte at an offset, `0` outside the array. -/
def get (b : Bytes N) (i : ℕ) : UInt8 := ⟨b.bits.extractLsb' (8 * i) 8⟩

/-- All bytes `0`. -/
def zero (N : ℕ) : Bytes N := ⟨0#(8 * N)⟩

/-- Store one byte. -/
def set (b : Bytes N) (i : ℕ) (v : UInt8) : Bytes N :=
  ⟨b.bits &&& ~~~((BitVec.allOnes 8).setWidth (8 * N) <<< (8 * i)) |||
    v.toBitVec.setWidth (8 * N) <<< (8 * i)⟩

/-- Copy the bytes `src 0, …, src (len - 1)` to offset `off`. -/
def blit (b : Bytes N) (off : ℕ) : ℕ → (ℕ → UInt8) → Bytes N
  | 0, _ => b
  | len + 1, src => (b.blit off len src).set (off + len) (src len)

/-- The array with given bytes. -/
def ofFn (f : ℕ → UInt8) : Bytes N := (zero N).blit 0 N f

/-- The `k`-byte number at offset `off`. -/
def num (b : Bytes N) (off : ℕ) : ℕ → ℕ
  | 0 => 0
  | k + 1 => (b.get off).toNat + 256 * b.num (off + 1) k

/-- The `j`-th byte of a number. -/
def digit (v j : ℕ) : UInt8 := UInt8.ofNat (v / 256 ^ j)

/-- Store a `k`-byte number at offset `off`. -/
def setNum (b : Bytes N) (off k v : ℕ) : Bytes N := b.blit off k (digit v)

/-! ### Single bytes -/

theorem getLsbD_get (b : Bytes N) (i k : ℕ) :
    (b.get i).toBitVec.getLsbD k = (decide (k < 8) && b.bits.getLsbD (8 * i + k)) :=
  BitVec.getLsbD_extractLsb' ..

@[ext] theorem ext {b b' : Bytes N} (h : ∀ i < N, b.get i = b'.get i) : b = b' := by
  obtain ⟨x⟩ := b
  obtain ⟨y⟩ := b'
  congr 1
  refine BitVec.eq_of_getLsbD_eq fun i hi => ?_
  have := congrArg (fun v => v.toBitVec.getLsbD (i % 8)) (h (i / 8) (by omega))
  simp only [getLsbD_get, decide_eq_true (Nat.mod_lt i (by decide : 0 < 8)), Bool.true_and,
    Nat.div_add_mod] at this
  exact this

theorem get_of_le (b : Bytes N) {i : ℕ} (h : N ≤ i) : b.get i = 0 := by
  refine UInt8.toBitVec_inj.mp (BitVec.eq_of_getLsbD_eq fun k _ => ?_)
  rw [getLsbD_get, BitVec.getLsbD_of_ge _ _ (by omega), Bool.and_false]
  exact (BitVec.getLsbD_zero).symm

@[simp] theorem get_zero (i : ℕ) : (zero N).get i = 0 := by
  refine UInt8.toBitVec_inj.mp (BitVec.eq_of_getLsbD_eq fun k _ => ?_)
  rw [getLsbD_get, zero, BitVec.getLsbD_zero, Bool.and_false]
  exact (BitVec.getLsbD_zero).symm

theorem get_set (b : Bytes N) (i : ℕ) (v : UInt8) (j : ℕ) :
    (b.set i v).get j = if j = i ∧ i < N then v else b.get j := by
  refine UInt8.toBitVec_inj.mp (BitVec.eq_of_getLsbD_eq fun k hk => ?_)
  rw [getLsbD_get, set, BitVec.getLsbD_or, BitVec.getLsbD_and, BitVec.getLsbD_not,
    BitVec.getLsbD_shiftLeft, BitVec.getLsbD_shiftLeft, BitVec.getLsbD_setWidth,
    BitVec.getLsbD_setWidth, BitVec.getLsbD_allOnes, decide_eq_true hk, Bool.true_and]
  by_cases hN : 8 * j + k < 8 * N
  · rw [decide_eq_true hN]
    rcases Nat.lt_trichotomy j i with hji | rfl | hji
    · rw [if_neg (by omega), getLsbD_get, decide_eq_true hk,
        decide_eq_true (show 8 * j + k < 8 * i by omega)]
      simp
    · rw [if_pos ⟨rfl, by omega⟩, decide_eq_false (show ¬8 * j + k < 8 * j by omega),
        Nat.add_sub_cancel_left, decide_eq_true hk, decide_eq_true (show k < 8 * N by omega)]
      simp
    · rw [if_neg (by omega), getLsbD_get, decide_eq_true hk,
        BitVec.getLsbD_of_ge v.toBitVec _ (show 8 ≤ 8 * j + k - 8 * i by omega),
        decide_eq_false (show ¬8 * j + k - 8 * i < 8 by omega)]
      simp
  · rw [if_neg (by omega), getLsbD_get, BitVec.getLsbD_of_ge b.bits _ (by omega),
      decide_eq_false hN]
    simp

theorem get_blit (b : Bytes N) (off len : ℕ) (src : ℕ → UInt8) (i : ℕ) :
    (b.blit off len src).get i =
      if off ≤ i ∧ i < off + len ∧ i < N then src (i - off) else b.get i := by
  induction len with
  | zero => rw [blit, if_neg (by omega)]
  | succ len ih =>
    rw [blit, get_set, ih]
    by_cases hi : i = off + len
    · subst hi
      by_cases hN : off + len < N
      · rw [if_pos ⟨rfl, hN⟩, if_pos ⟨by omega, by omega, hN⟩, Nat.add_sub_cancel_left]
      · rw [if_neg (by omega), if_neg (by omega), if_neg (by omega)]
    · rw [if_neg (by omega)]
      by_cases hin : off ≤ i ∧ i < off + len ∧ i < N
      · rw [if_pos hin, if_pos ⟨by omega, by omega, hin.2.2⟩]
      · rw [if_neg hin, if_neg (by omega)]

theorem get_ofFn (f : ℕ → UInt8) {i : ℕ} (hi : i < N) : (ofFn f : Bytes N).get i = f i := by
  rw [ofFn, get_blit, if_pos ⟨Nat.zero_le i, by omega, hi⟩, Nat.sub_zero]

theorem get_blit_of_lt {b : Bytes N} {off len : ℕ} {src : ℕ → UInt8} {j : ℕ} (hj : j < len)
    (hN : off + j < N) : (b.blit off len src).get (off + j) = src j := by
  rw [get_blit, if_pos ⟨by omega, by omega, hN⟩, Nat.add_sub_cancel_left]

theorem get_blit_of_outside {b : Bytes N} {off len : ℕ} {src : ℕ → UInt8} {i : ℕ}
    (hi : i < off ∨ off + len ≤ i) : (b.blit off len src).get i = b.get i := by
  rw [get_blit, if_neg (by omega)]

/-! ### Numbers -/

@[simp] theorem num_zero (b : Bytes N) (off : ℕ) : b.num off 0 = 0 := rfl

theorem num_succ (b : Bytes N) (off k : ℕ) :
    b.num off (k + 1) = (b.get off).toNat + 256 * b.num (off + 1) k := rfl

theorem num_lt (b : Bytes N) (off k : ℕ) : b.num off k < 256 ^ k := by
  induction k generalizing off with
  | zero => exact Nat.one_pos
  | succ k ih =>
    have hbyte : (b.get off).toNat < 256 := UInt8.toNat_lt _
    have hrest := ih (off + 1)
    rw [num_succ, pow_succ]
    omega

@[simp] theorem zero_num (off k : ℕ) : (zero N).num off k = 0 := by
  induction k generalizing off with
  | zero => rfl
  | succ k ih => rw [num_succ, ih, get_zero]; rfl

/-- A number is determined by its bytes. -/
theorem num_congr {b b' : Bytes N} {off k : ℕ} (h : ∀ j < k, b.get (off + j) = b'.get (off + j)) :
    b.num off k = b'.num off k := by
  induction k generalizing off with
  | zero => rfl
  | succ k ih =>
    have hfirst : b.get off = b'.get off := h 0 (Nat.succ_pos k)
    have hrest : b.num (off + 1) k = b'.num (off + 1) k := ih fun j hj => by
      rw [Nat.add_assoc, Nat.add_comm 1 j]
      exact h (j + 1) (Nat.succ_lt_succ hj)
    rw [num_succ, num_succ, hfirst, hrest]

theorem digit_zero (v : ℕ) : (digit v 0).toNat = v % 256 := by
  rw [digit, pow_zero, Nat.div_one, UInt8.toNat_ofNat']

theorem digit_succ (v j : ℕ) : digit v (j + 1) = digit (v / 256) j := by
  rw [digit, digit, pow_succ', Nat.div_div_eq_div_mul]

theorem num_of_digits {b : Bytes N} {off k v : ℕ} (h : ∀ j < k, b.get (off + j) = digit v j) :
    b.num off k = v % 256 ^ k := by
  induction k generalizing off v with
  | zero => rw [num_zero, pow_zero, Nat.mod_one]
  | succ k ih =>
    have hrest : b.num (off + 1) k = v / 256 % 256 ^ k := ih fun j hj => by
      rw [← digit_succ, ← h (j + 1) (Nat.succ_lt_succ hj), Nat.add_assoc, Nat.add_comm 1 j]
    have hfirst : b.get off = digit v 0 := h 0 (Nat.succ_pos k)
    rw [num_succ, hrest, hfirst, digit_zero, pow_succ', Nat.mod_mul]

theorem num_setNum (b : Bytes N) {off k : ℕ} (v : ℕ) (hN : off + k ≤ N) :
    (b.setNum off k v).num off k = v % 256 ^ k :=
  num_of_digits fun j hj => get_blit_of_lt hj (by omega)

theorem num_setNum_of_lt (b : Bytes N) {off k v : ℕ} (hN : off + k ≤ N) (hv : v < 256 ^ k) :
    (b.setNum off k v).num off k = v := by
  rw [num_setNum b v hN, Nat.mod_eq_of_lt hv]

theorem num_blit_of_disjoint (b : Bytes N) {off len : ℕ} (src : ℕ → UInt8) {off' k : ℕ}
    (h : off' + k ≤ off ∨ off + len ≤ off') : (b.blit off len src).num off' k = b.num off' k :=
  num_congr fun j hj => get_blit_of_outside (by omega)

theorem num_setNum_of_disjoint (b : Bytes N) {off k : ℕ} (v : ℕ) {off' k' : ℕ}
    (h : off' + k' ≤ off ∨ off + k ≤ off') : (b.setNum off k v).num off' k' = b.num off' k' :=
  num_blit_of_disjoint b _ h

end Bytes
