import Xv6.Disk

/-!
# The header block of the log

`struct logheader` as it stands in the first block of the log: the number `n` of logged blocks and
their block numbers. In memory the header is the list of the block numbers; `n` is its length.

## Main definitions

* `Conf` — where the log is, as `initlog` reads it from the superblock
* `headOf`, `putHead` — the loops of `read_head` and `write_head`
* `view` — what a block outside the log holds once the log has been installed

## Main results

* `headOf_putHead` — a header that was written is read back
-/

namespace Xv6

namespace Log

/-- Where the log is: `log.start` and `log.size`. The size is at least `LOGSIZE`, which is what
`mkfs` writes to the superblock. -/
structure Conf where
  start : ℕ
  size : ℕ
  size_ge : LOGSIZE ≤ size
  end_le : start + size ≤ FSSIZE

namespace Conf

variable (cf : Conf)

/-- The block of the log that takes the `tail`-th logged block. -/
def logBlock (tail : ℕ) : ℕ := cf.start + tail + 1

/-- The blocks outside the log area. -/
def Outside (b : ℕ) : Prop := b < cf.start ∨ cf.start + cf.size ≤ b

instance : DecidablePred cf.Outside := fun b =>
  inferInstanceAs (Decidable (b < cf.start ∨ cf.start + cf.size ≤ b))

theorem start_ne_logBlock (t : ℕ) : cf.start ≠ cf.logBlock t := by
  unfold logBlock
  omega

theorem logBlock_inj {t t' : ℕ} (h : cf.logBlock t = cf.logBlock t') : t = t' := by
  unfold logBlock at h
  omega

theorem ne_start_of_outside {b : ℕ} (h : cf.Outside b) : b ≠ cf.start := by
  have := cf.size_ge
  have := LOGSIZE_eq
  unfold Outside at h
  omega

theorem ne_logBlock_of_outside {b t : ℕ} (h : cf.Outside b) (ht : t + 1 < LOGSIZE) :
    b ≠ cf.logBlock t := by
  have := cf.size_ge
  unfold Outside at h
  unfold logBlock
  omega

end Conf

/-- The layout that `mkfs` writes. -/
def mkfsConf : Conf := { start := 2, size := LOGSIZE, size_ge := le_rfl, end_le := by decide }

/-- `log.lh.n`, a signed `int`, as the number of rounds of the loops over it. -/
def headLength (b : Block) : ℕ := if b.uint 0 < 2 ^ 31 then b.uint 0 else 0

/-- The loop of `read_head`. -/
def headOf (b : Block) : List ℕ := (List.range (headLength b)).map fun i => b.uint (4 + 4 * i)

/-- The loop of `write_head`, from entry `i` on. -/
def putEntries (b : Block) (i : ℕ) : List ℕ → Block
  | [] => b
  | x :: xs => putEntries (b.setUint (4 + 4 * i) x) (i + 1) xs

/-- The stores of `write_head`. -/
def putHead (b : Block) (lh : List ℕ) : Block := putEntries (b.setUint 0 lh.length) 0 lh

theorem uint_putEntries_of_lt (xs : List ℕ) {b : Block} {i off : ℕ} (h : off + 4 ≤ 4 + 4 * i) :
    (putEntries b i xs).uint off = b.uint off := by
  induction xs generalizing b i with
  | nil => rfl
  | cons x xs ih =>
    rw [putEntries, ih (by omega), Block.uint_setUint_of_disjoint (Or.inl h)]

theorem uint_putEntries {xs : List ℕ} {b : Block} {i j : ℕ} (hj : j < xs.length)
    (hsize : 4 + 4 * (i + xs.length) ≤ BSIZE) (hxs : ∀ x ∈ xs, x < 256 ^ 4) :
    (putEntries b i xs).uint (4 + 4 * (i + j)) = xs[j] := by
  induction xs generalizing b i j with
  | nil => exact absurd hj (Nat.not_lt_zero j)
  | cons x xs ih =>
    rw [List.length_cons] at hsize hj
    rw [putEntries]
    cases j with
    | zero =>
      rw [uint_putEntries_of_lt xs (by omega), Nat.add_zero,
        Block.uint_setUint (by omega) (hxs x (List.mem_cons_self ..))]
      rfl
    | succ j =>
      have := ih (b := b.setUint (4 + 4 * i) x) (i := i + 1) (j := j) (by omega) (by omega)
        fun y hy => hxs y (List.mem_cons_of_mem _ hy)
      rwa [show i + 1 + j = i + (j + 1) by omega] at this

/-- **A header that was written is read back.** -/
theorem headOf_putHead {b : Block} {lh : List ℕ} (hlen : lh.length ≤ LOGSIZE)
    (hlh : ∀ x ∈ lh, x < FSSIZE) : headOf (putHead b lh) = lh := by
  have hentry : ∀ x ∈ lh, x < 256 ^ 4 := fun x hx =>
    Nat.lt_of_lt_of_le (hlh x hx) (by norm_num)
  rw [LOGSIZE_eq] at hlen
  have hlen' : headLength (putHead b lh) = lh.length := by
    have : (putHead b lh).uint 0 = lh.length := by
      rw [putHead, uint_putEntries_of_lt lh (by decide),
        Block.uint_setUint (by decide) (by omega)]
    rw [headLength, this, if_pos (by omega)]
  refine List.ext_getElem (by simp [headOf, hlen']) fun j h₁ h₂ => ?_
  simp only [headOf, List.getElem_map, List.getElem_range]
  have := uint_putEntries (b := b.setUint 0 lh.length) (i := 0) h₂ (by rw [BSIZE_eq]; omega) hentry
  rwa [Nat.zero_add] at this

/-! ### What the log stands for -/

/-- The header on a disk. -/
def header (cf : Conf) (d : Disk) : List ℕ := headOf (d cf.start)

/-- A header that `recover_from_log` can act on: it fits the log area, and the blocks it names are
distinct blocks of the disk outside that area. -/
structure HeaderOk (cf : Conf) (d : Disk) : Prop where
  length_lt : (header cf d).length < LOGSIZE
  nodup : (header cf d).Nodup
  outside : ∀ b ∈ header cf d, cf.Outside b
  lt_size : ∀ b ∈ header cf d, b < FSSIZE

/-- What block `b` holds once the log on `d` has been installed. -/
def view (cf : Conf) (d : Disk) (b : ℕ) : Block :=
  match (header cf d).idxOf? b with
  | some t => d (cf.logBlock t)
  | none => d b

theorem view_of_notMem {cf : Conf} {d : Disk} {b : ℕ} (h : b ∉ header cf d) :
    view cf d b = d b := by
  rw [view, List.idxOf?_eq_none_iff.mpr h]

theorem view_getElem {cf : Conf} {d : Disk} (hd : (header cf d).Nodup) {t : ℕ}
    (ht : t < (header cf d).length) : view cf d ((header cf d)[t]) = d (cf.logBlock t) := by
  rw [view, List.idxOf?_eq_some_iff.mpr ⟨ht, rfl, fun j hj heq => ?_⟩]
  have := (List.Nodup.getElem_inj_iff hd).mp heq
  omega

end Log

end Xv6
