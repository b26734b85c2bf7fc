import Mathlib

/-!
# Circular singly linked lists

`LinkPath next c` says that the nodes of `c` follow each other; a circular list that is entered at
`h` is a path from `h` back to `h`. A loop that follows the pointers finds a node from wherever on
the circle it starts. Nothing here mentions a particular list.

## Main results

* `LinkPath.rotate` — a circle can be entered anywhere
* `LinkPath.walk` — a loop that looks for the only node with a property finds it
* `LinkPath.gap` — in a sorted circle nothing lies between a node and its successor
-/

variable {α : Type*}

/-- The nodes follow each other. -/
def LinkPath (next : α → α) (c : List α) : Prop := c.IsChain fun a b => next a = b

namespace LinkPath

variable {next next' : α → α} {c d l l₁ l₂ : List α} {h x y : α}

/-- Only the last pointer does not matter. -/
theorem congr (hp : LinkPath next (c ++ [x])) (hc : ∀ a ∈ c, next' a = next a) :
    LinkPath next' (c ++ [x]) := by
  induction c with
  | nil => exact List.isChain_singleton x
  | cons a c ih =>
    have ih' := ih (List.IsChain.tail hp) fun b hb => hc b (List.mem_cons_of_mem a hb)
    refine List.isChain_cons.mpr ⟨fun b hb => ?_, ih'⟩
    rw [hc a List.mem_cons_self]
    exact (List.isChain_cons.mp hp).1 b hb

/-- A path, cut at a node. -/
theorem cut : LinkPath next (c ++ x :: d) ↔ LinkPath next (c ++ [x]) ∧ LinkPath next (x :: d) :=
  List.isChain_split

/-- A path, cut at a pointer. -/
theorem cut_next :
    LinkPath next (c ++ x :: y :: d) ↔ LinkPath next (c ++ [x]) ∧ next x = y ∧
    LinkPath next (y :: d) :=
  List.isChain_append_cons_cons

/-- What a pointer leads to. -/
theorem next_of_head (hp : LinkPath next (x :: c)) (hy : y ∈ c.head?) : next x = y :=
  (List.isChain_cons.mp hp).1 y hy

/-- **The pointer of a node is changed**, so that it leads to the beginning of another path. -/
theorem attach [DecidableEq α] {v z : α} (hp : LinkPath next (c ++ [x]))
    (hd : LinkPath next (d ++ [z]))
    (hv : v ∈ (d ++ [z]).head?) (hxc : x ∉ c) (hxd : x ∉ d) :
    LinkPath (Function.update next x v) (c ++ x :: d ++ [z]) := by
  have hne : ∀ a, a ≠ x → Function.update next x v a = next a := fun a ha =>
    Function.update_of_ne ha _ _
  have h₁ : LinkPath (Function.update next x v) (c ++ [x]) :=
    hp.congr fun a ha => hne a fun h => hxc (h ▸ ha)
  have h₂ : LinkPath (Function.update next x v) (d ++ [z]) :=
    hd.congr fun a ha => hne a fun h => hxd (h ▸ ha)
  have h₃ : LinkPath (Function.update next x v) (x :: (d ++ [z])) :=
    List.isChain_cons.mpr ⟨fun y hy => by
      rw [Function.update_self]
      exact Option.some.inj (hv.symm.trans hy), h₂⟩
  simpa using cut.mpr ⟨h₁, h₃⟩

/-- **A circle** can be entered anywhere. -/
theorem rotate (hp : LinkPath next (h :: l₁ ++ x :: l₂ ++ [h])) :
    LinkPath next (x :: l₂ ++ h :: l₁ ++ [x]) := by
  have hp' : LinkPath next ((h :: l₁) ++ x :: (l₂ ++ [h])) := by simpa using hp
  obtain ⟨h₁, h₂⟩ := cut.mp hp'
  have : LinkPath next ((x :: l₂) ++ h :: (l₁ ++ [x])) := cut.mpr ⟨h₂, h₁⟩
  simpa using this

/-- A circle, entered at another of its nodes. -/
theorem enter (hp : LinkPath next (h :: l ++ [h])) (hy : y ∈ h :: l) :
    ∃ m, LinkPath next (y :: m ++ [y]) ∧ (y :: m).Perm (h :: l) := by
  rcases List.mem_cons.mp hy with rfl | hy
  · exact ⟨l, hp, .refl _⟩
  · obtain ⟨l₁, l₂, rfl⟩ := List.append_of_mem hy
    refine ⟨l₂ ++ h :: l₁, by simpa using rotate (by simpa using hp), ?_⟩
    have : (y :: l₂ ++ h :: l₁).Perm (h :: l₁ ++ y :: l₂) := List.perm_append_comm
    exact this

/-- There is one way only to a node of a circle. -/
theorem pred_unique {z : α} (hp : LinkPath next (h :: l₁ ++ x :: l₂ ++ [h]))
    (hn : (h :: l₁ ++ x :: l₂).Nodup) (hz : z ∈ h :: l₁ ++ x :: l₂) (hzx : next z = x) :
    ∃ c, h :: l₁ = c ++ [z] := by
  have hp' := rotate hp
  have hperm : (x :: l₂ ++ h :: l₁).Perm (h :: l₁ ++ x :: l₂) := List.perm_append_comm
  obtain ⟨a, b, hab⟩ := List.append_of_mem (hperm.mem_iff.mpr hz)
  cases b with
  | nil =>
    obtain ⟨c, y, hc⟩ := List.eq_nil_or_concat'  (h :: l₁) |>.resolve_left (by simp)
    have : (x :: l₂ ++ c) ++ [y] = a ++ [z] := by rw [← hab, hc]; simp
    exact ⟨c, by rw [hc, (List.append_inj' this rfl).2]⟩
  | cons w b =>
    -- then `x` would be met twice
    rw [hab, List.append_assoc] at hp'
    obtain rfl : x = w := hzx.symm.trans (cut_next.mp hp').2.1
    have hn' : (a ++ z :: x :: b).Nodup := hab ▸ hperm.nodup_iff.mpr hn
    cases a with
    | nil =>
      obtain ⟨rfl, -⟩ := List.cons.inj hab
      simp at hn'
    | cons a as =>
      obtain ⟨rfl, -⟩ := List.cons.inj hab
      simp at hn'

end LinkPath

/-- The loop that follows the pointers until it stops, in at most so many rounds. -/
def walk (next : α → α) (stop : α → Bool) : ℕ → α → Option α
  | 0, _ => none
  | fuel + 1, x => if stop x then some x else walk next stop fuel (next x)

namespace LinkPath

variable {next : α → α} {c l : List α} {h x y : α} {stop : α → Bool} {fuel : ℕ}

theorem walk_line (hp : LinkPath next (c ++ [x])) (hy : y ∈ (c ++ [x]).head?)
    (hc : ∀ a ∈ c, stop a = false) (hx : stop x = true) (hf : c.length < fuel) :
    walk next stop fuel y = some x := by
  induction c generalizing y fuel with
  | nil =>
    obtain ⟨fuel, rfl⟩ := Nat.exists_eq_succ_of_ne_zero (Nat.ne_of_gt hf)
    obtain rfl : x = y := by simpa using hy
    rw [walk, if_pos hx]
  | cons a c ih =>
    obtain ⟨fuel, rfl⟩ := Nat.exists_eq_succ_of_ne_zero (Nat.ne_of_gt (Nat.zero_lt_of_lt hf))
    obtain rfl : a = y := by simpa using hy
    obtain ⟨hnext, hp'⟩ := List.isChain_cons.mp hp
    have ha : stop a = false := hc a List.mem_cons_self
    rw [walk, ha]
    refine ih hp' ?_ (fun b hb => hc b (List.mem_cons_of_mem a hb)) (Nat.lt_of_succ_lt_succ hf)
    cases c with
    | nil => exact congrArg some (hnext x rfl).symm
    | cons b c => exact congrArg some (hnext b rfl).symm

/-- **Looking around a circle** for the only node where the loop stops. -/
theorem walk (hp : LinkPath next (h :: l ++ [h])) (hy : y ∈ h :: l) (hx : x ∈ h :: l)
    (hstop : ∀ a ∈ h :: l, stop a = true ↔ a = x) (hf : l.length < fuel) :
    walk next stop fuel y = some x := by
  obtain ⟨m, hm, hperm⟩ := hp.enter hy
  obtain ⟨c, d, hcd, hxc⟩ := List.eq_append_cons_of_mem (hperm.mem_iff.mpr hx)
  have hlen : c.length ≤ l.length := by
    have h₁ := congrArg List.length hcd
    have h₂ := hperm.length_eq
    simp only [List.length_cons, List.length_append] at h₁ h₂
    omega
  rw [hcd, List.append_assoc] at hm
  refine walk_line (cut.mp hm).1 ?_ (fun a ha => ?_) ((hstop x hx).mpr rfl) (by omega)
  · have := congrArg List.head? hcd
    cases c <;> simpa using this.symm
  · have hmem : a ∈ h :: l := hperm.mem_iff.mp (hcd ▸ List.mem_append_left _ ha)
    refine Bool.eq_false_iff.mpr fun hst => hxc ?_
    rwa [← (hstop a hmem).mp hst]

/-- **In a sorted circle** a node is the last one, or its successor is the next larger node. -/
theorem gap [LinearOrder α] (hp : LinkPath next (h :: l ++ [h])) (hs : (h :: l).Pairwise (· < ·))
    (hx : x ∈ h :: l) : (next x = h ∧ ∀ a ∈ h :: l, a ≤ x) ∨
      (next x ∈ l ∧ x < next x ∧ ∀ a ∈ h :: l, a ≤ x ∨ next x ≤ a) := by
  obtain ⟨c, d, hcd⟩ := List.append_of_mem hx
  rw [hcd] at hs hp ⊢
  have hc : ∀ a ∈ c, a ≤ x := fun a ha =>
    le_of_lt ((List.pairwise_append.mp hs).2.2 a ha x List.mem_cons_self)
  cases d with
  | nil =>
    refine .inl ⟨(cut_next.mp (by simpa using hp)).2.1, fun a ha => ?_⟩
    rcases List.mem_append.mp ha with ha | ha
    · exact hc a ha
    · exact le_of_eq (List.mem_singleton.mp ha)
  | cons y d =>
    have hnext : next x = y := (cut_next.mp (by simpa using hp)).2.1
    have hs' := List.pairwise_cons.mp (List.pairwise_append.mp hs).2.1
    have hd : ∀ a ∈ y :: d, y ≤ a := fun a ha => by
      rcases List.mem_cons.mp ha with rfl | ha
      · exact le_rfl
      · exact le_of_lt ((List.pairwise_cons.mp hs'.2).1 a ha)
    rw [hnext]
    refine .inr ⟨?_, hs'.1 y List.mem_cons_self, fun a ha => ?_⟩
    · cases c with
      | nil => exact (List.cons.inj hcd).2 ▸ List.mem_cons_self
      | cons b c => exact (List.cons.inj hcd).2 ▸ by simp
    · rcases List.mem_append.mp ha with ha | ha
      · exact .inl (hc a ha)
      · rcases List.mem_cons.mp ha with rfl | ha
        · exact .inl le_rfl
        · exact .inr (hd a ha)

end LinkPath
