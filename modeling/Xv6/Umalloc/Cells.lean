import Xv6.Lib.Ring
import Xv6.Umalloc.Machine

/-!
# The heap as a row of blocks

What the allocator is for: the heap is a row of blocks without gaps, each with an owner or free, and
no two free ones side by side. Their addresses follow from their sizes. `IsHeap` says that memory
represents such a row: every block has its size in its header, and the free blocks are the circular
list from `base`, in the order of their addresses.

## Main definitions

* `Cell`, `frees`, `lives` — the blocks, and the addresses of the free and of the owned ones
* `IsHeap` — memory represents a row of blocks
-/

namespace Xv6

namespace Umalloc

/-- A block: its units, header included, and the bytes that its owner has asked for. -/
structure Cell where
  size : ℕ
  owner : Option ℕ
  deriving DecidableEq, Repr

/-! ### Addresses -/

/-- Where a row of blocks ends that starts at `a`. -/
def stop : ℕ → List Cell → ℕ
  | a, [] => a
  | a, c :: cs => stop (a + c.size * 8) cs

/-- The addresses of the free blocks. -/
def frees : ℕ → List Cell → List ℕ
  | _, [] => []
  | a, c :: cs =>
    if c.owner = none then a :: frees (a + c.size * 8) cs else frees (a + c.size * 8) cs

/-- The pointers to the owned blocks, with what was asked for. -/
def lives : ℕ → List Cell → List (ℕ × ℕ)
  | _, [] => []
  | a, c :: cs =>
    match c.owner with
    | none => lives (a + c.size * 8) cs
    | some n => (a + 8, n) :: lives (a + c.size * 8) cs

/-- Every block has its size in its header. -/
def Headers (size : ℕ → ℕ) : ℕ → List Cell → Prop
  | _, [] => True
  | a, c :: cs => size a = c.size ∧ Headers size (a + c.size * 8) cs

variable {a x : ℕ} {n : ℕ} {c : Cell} {cs A C : List Cell} {size size' : ℕ → ℕ}

@[simp] theorem stop_append (a : ℕ) (A C : List Cell) : stop a (A ++ C) = stop (stop a A) C := by
  induction A generalizing a with
  | nil => rfl
  | cons c A ih => exact ih _

@[simp] theorem stop_cons (a : ℕ) (c : Cell) (cs : List Cell) :
    stop a (c :: cs) = stop (a + c.size * 8) cs := rfl

@[simp] theorem frees_append (a : ℕ) (A C : List Cell) :
    frees a (A ++ C) = frees a A ++ frees (stop a A) C := by
  induction A generalizing a with
  | nil => rfl
  | cons c A ih =>
    simp only [List.cons_append, frees, stop, ih]
    split <;> rfl

@[simp] theorem lives_append (a : ℕ) (A C : List Cell) :
    lives a (A ++ C) = lives a A ++ lives (stop a A) C := by
  induction A generalizing a with
  | nil => rfl
  | cons c A ih =>
    simp only [List.cons_append, lives, stop, ih]
    split <;> rfl

theorem headers_append (size : ℕ → ℕ) (a : ℕ) (A C : List Cell) :
    Headers size a (A ++ C) ↔ Headers size a A ∧ Headers size (stop a A) C := by
  induction A generalizing a with
  | nil => simp [Headers, stop]
  | cons c A ih => simp only [List.cons_append, Headers, stop, ih, and_assoc]

@[simp] theorem frees_free : frees a (⟨n, none⟩ :: cs) = a :: frees (a + n * 8) cs := rfl

@[simp] theorem frees_live {k : ℕ} : frees a (⟨n, some k⟩ :: cs) = frees (a + n * 8) cs := rfl

@[simp] theorem lives_free : lives a (⟨n, none⟩ :: cs) = lives (a + n * 8) cs := rfl

@[simp] theorem lives_live {k : ℕ} :
    lives a (⟨n, some k⟩ :: cs) = (a + 8, k) :: lives (a + n * 8) cs := rfl

theorem le_stop (a : ℕ) (cs : List Cell) : a ≤ stop a cs := by
  induction cs generalizing a with
  | nil => exact le_rfl
  | cons c cs ih => exact (Nat.le_add_right _ _).trans (ih _)

/-- Blocks have a header at least. -/
abbrev Solid (cs : List Cell) : Prop := ∀ c ∈ cs, 0 < c.size

theorem solid_split {d : Cell} : Solid (A ++ d :: C) ↔ Solid A ∧ 0 < d.size ∧ Solid C := by
  simp only [Solid, List.mem_append, List.mem_cons, or_imp, forall_and, forall_eq]

/-- An owner has what was asked for. -/
abbrev Roomy (cs : List Cell) : Prop := ∀ c ∈ cs, ∀ k ∈ c.owner, k + 8 ≤ c.size * 8

theorem roomy_split {d : Cell} :
    Roomy (A ++ d :: C) ↔ Roomy A ∧ (∀ k ∈ d.owner, k + 8 ≤ d.size * 8) ∧ Roomy C := by
  simp only [Roomy, List.mem_append, List.mem_cons, or_imp, forall_and, forall_eq]

theorem Solid.length_le (h : Solid cs) (a : ℕ) : a + cs.length * 8 ≤ stop a cs := by
  induction cs generalizing a with
  | nil => exact le_rfl
  | cons c cs ih =>
    have h₁ := ih (fun d hd => h d (List.mem_cons_of_mem _ hd)) (a + c.size * 8)
    have h₂ := h c List.mem_cons_self
    simp only [List.length_cons, stop]
    omega

theorem length_frees_le (a : ℕ) (cs : List Cell) : (frees a cs).length ≤ cs.length := by
  induction cs generalizing a with
  | nil => exact le_rfl
  | cons c cs ih =>
    have := ih (a + c.size * 8)
    simp only [frees]
    split <;> simp <;> omega

theorem le_of_mem_frees (hx : x ∈ frees a cs) : a ≤ x := by
  induction cs generalizing a with
  | nil => simp [frees] at hx
  | cons c cs ih =>
    have hstep : x ∈ frees (a + c.size * 8) cs → a ≤ x := fun h =>
      (Nat.le_add_right _ _).trans (ih h)
    simp only [frees] at hx
    split at hx
    · exact (List.mem_cons.mp hx).elim (fun h => h.ge) hstep
    · exact hstep hx

/-- A free block, with what is before and behind it. -/
theorem exists_of_mem_frees (hx : x ∈ frees a cs) :
    ∃ A n C, cs = A ++ ⟨n, none⟩ :: C ∧ x = stop a A := by
  induction cs generalizing a with
  | nil => simp [frees] at hx
  | cons c cs ih =>
    have hstep : x ∈ frees (a + c.size * 8) cs →
        ∃ A n C, c :: cs = A ++ ⟨n, none⟩ :: C ∧ x = stop a A := by
      intro h
      obtain ⟨A, n, C, rfl, rfl⟩ := ih h
      exact ⟨c :: A, n, C, rfl, rfl⟩
    obtain ⟨n, owner⟩ := c
    cases owner with
    | none =>
      rcases List.mem_cons.mp hx with rfl | hx
      · exact ⟨[], n, cs, rfl, rfl⟩
      · exact hstep hx
    | some k => exact hstep hx

/-- An owned block, with what is before and behind it. -/
theorem exists_of_mem_lives {y : ℕ × ℕ} (hy : y ∈ lives a cs) :
    ∃ A n C, cs = A ++ ⟨n, some y.2⟩ :: C ∧ y.1 = stop a A + 8 := by
  induction cs generalizing a with
  | nil => simp [lives] at hy
  | cons c cs ih =>
    have hstep : y ∈ lives (a + c.size * 8) cs →
        ∃ A n C, c :: cs = A ++ ⟨n, some y.2⟩ :: C ∧ y.1 = stop a A + 8 := by
      intro h
      obtain ⟨A, n, C, hcs, hy⟩ := ih h
      exact ⟨c :: A, n, C, by rw [hcs]; rfl, hy⟩
    obtain ⟨n, owner⟩ := c
    cases owner with
    | none => exact hstep hy
    | some k =>
      rcases List.mem_cons.mp hy with rfl | hy
      · exact ⟨[], n, cs, rfl, rfl⟩
      · exact hstep hy

theorem headers_split {d : Cell} : Headers size a (A ++ d :: C) ↔
    Headers size a A ∧ size (stop a A) = d.size ∧ Headers size (stop a A + d.size * 8) C := by
  rw [headers_append, Headers]

theorem Headers.congr (h : Headers size a cs) (hs : Solid cs)
    (heq : ∀ x, a ≤ x → x < stop a cs → size' x = size x) : Headers size' a cs := by
  induction cs generalizing a with
  | nil => trivial
  | cons c cs ih =>
    have hle := le_stop (a + c.size * 8) cs
    have hc := hs c List.mem_cons_self
    refine ⟨?_, ih h.2 (fun d hd => hs d (List.mem_cons_of_mem _ hd)) fun x hx hx' => ?_⟩
    · rw [heq a le_rfl (by simp only [stop]; omega), h.1]
    · exact heq x (by omega) hx'

/-- A free block ends in the row. -/
theorem Headers.end_le (h : Headers size a cs) (hx : x ∈ frees a cs) :
    x + size x * 8 ≤ stop a cs := by
  obtain ⟨A, n, C, rfl, rfl⟩ := exists_of_mem_frees hx
  rw [headers_append] at h
  rw [stop_append, h.2.1]
  exact le_stop _ _

theorem Solid.lt_stop (h : Solid cs) (hx : x ∈ frees a cs) : x < stop a cs := by
  obtain ⟨A, n, C, rfl, rfl⟩ := exists_of_mem_frees hx
  have hn : 0 < n := h ⟨n, none⟩ (by simp)
  have hle := le_stop (stop a A + n * 8) C
  rw [stop_append]
  exact Nat.lt_of_lt_of_le (by omega) hle

theorem Solid.frees_sorted (h : Solid cs) (a : ℕ) : (frees a cs).Pairwise (· < ·) := by
  induction cs generalizing a with
  | nil => exact .nil
  | cons c cs ih =>
    have ih' := ih (fun d hd => h d (List.mem_cons_of_mem _ hd)) (a + c.size * 8)
    have hc := h c List.mem_cons_self
    simp only [frees]
    split
    · refine List.pairwise_cons.mpr ⟨fun x hx => ?_, ih'⟩
      have := le_of_mem_frees hx
      omega
    · exact ih'

/-- A free block has an address. -/
theorem Headers.exists_free (h : Headers size a cs) (hc : c ∈ cs) (ho : c.owner = none) :
    ∃ x ∈ frees a cs, size x = c.size := by
  obtain ⟨A, C, rfl⟩ := List.append_of_mem hc
  obtain ⟨n, owner⟩ := c
  obtain rfl : owner = none := ho
  exact ⟨stop a A, by simp, (headers_split.mp h).2.1⟩

/-! ### Memory -/

/-- Blocks that may be side by side. -/
def Apart (c d : Cell) : Prop := ¬(c.owner = none ∧ d.owner = none)

/-- Memory represents the row of blocks from `b₀` on. -/
structure IsHeap (base b₀ : ℕ) (cs : List Cell) (s : State) : Prop where
  brk : s.brk = stop b₀ cs
  small : stop b₀ cs < 2 ^ 32
  solid : Solid cs
  room : Roomy cs
  headers : Headers s.size b₀ cs
  zero : s.size base = 0
  ring : LinkPath s.ptr (base :: frees b₀ cs ++ [base])
  entry : s.freep ∈ base :: frees b₀ cs
  apart : cs.IsChain Apart

end Umalloc

end Xv6
