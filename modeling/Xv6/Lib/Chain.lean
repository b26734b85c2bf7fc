import Mathlib

/-!
# Singly linked lists through cells

Cells are linked by pointers: `next a` is the pointer stored in cell `a`, `addr a` is the pointer to
cell `a`, and `null` is the pointer that ends a list. `Chain next addr null p l` says that following
the pointers from `p` one meets exactly the cells of `l`, in that order. Nothing here mentions a
particular memory.

## Main results

* `Chain.congr` — a list does not notice changes of other cells
* `Chain.snoc` — a cell is appended by changing the last pointer
-/

/-- Following the pointers from `p` one meets exactly the cells of the list. -/
def Chain {α β : Type*} (next : α → β) (addr : α → β) (null : β) : β → List α → Prop
  | p, [] => p = null
  | p, a :: l => p = addr a ∧ Chain next addr null (next a) l

namespace Chain

variable {α β : Type*} {next next' addr : α → β} {null p : β} {a : α} {l l' : List α}

/-- A list does not notice changes of other cells. -/
theorem congr (h : Chain next addr null p l) (hl : ∀ a ∈ l, next' a = next a) :
    Chain next' addr null p l := by
  induction l generalizing p with
  | nil => exact h
  | cons a l ih =>
    refine ⟨h.1, ?_⟩
    rw [hl a (List.mem_cons_self ..)]
    exact ih h.2 fun b hb => hl b (List.mem_cons_of_mem _ hb)

/-- A cell is appended by changing the pointer of the last cell. -/
theorem snoc {x : α} (h : Chain next addr null p (l ++ [x])) (hl : ∀ a ∈ l, next' a = next a)
    (hx : next' x = addr a) (ha : next' a = null) : Chain next' addr null p (l ++ [x] ++ [a]) := by
  induction l generalizing p with
  | nil => exact ⟨h.1, hx, ha⟩
  | cons b l ih =>
    refine ⟨h.1, ?_⟩
    rw [hl b (List.mem_cons_self ..)]
    exact ih h.2 fun c hc => hl c (List.mem_cons_of_mem _ hc)

end Chain
