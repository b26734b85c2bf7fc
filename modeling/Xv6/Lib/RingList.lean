import Mathlib

/-!
# Circular doubly linked lists

Nodes are linked by two pointers each, `next` and `prev`. `RingList next prev h l` says that from
the node `h` on one meets the nodes of `l` and then `h` again, all different, and that `prev` leads
back the same way. A node is taken out and put in behind `h` by the usual four assignments. Nothing
here mentions a particular list.

## Main results

* `RingList.reverse` — the same list seen through `prev`
* `RingList.unlink`, `RingList.link` — a node is taken out, a node is put in behind the first
* `RingList.seek` — a loop that looks for a node finds the first one in the order of the list
-/

variable {α : Type*}

/-- Consecutive nodes are linked both ways. -/
def Links.Linked (next prev : α → α) (c : List α) : Prop :=
  c.IsChain fun a b => next a = b ∧ prev b = a

/-- A circular list, entered at `h`. -/
structure RingList (next prev : α → α) (h : α) (l : List α) : Prop where
  nodup : (h :: l).Nodup
  linked : Links.Linked next prev (h :: l ++ [h])

/-- The pointers of all nodes. -/
structure Links (α : Type*) where
  next : α → α
  prev : α → α

namespace Links

variable [DecidableEq α]

/-- `x->next = y`. -/
def setNext (L : Links α) (x y : α) : Links α := { L with next := Function.update L.next x y }

/-- `x->prev = y`. -/
def setPrev (L : Links α) (x y : α) : Links α := { L with prev := Function.update L.prev x y }

/-- `x->next->prev = x->prev; x->prev->next = x->next`. -/
def unlink (L : Links α) (x : α) : Links α :=
  let L := L.setPrev (L.next x) (L.prev x)
  L.setNext (L.prev x) (L.next x)

/-- `x->next = h->next; x->prev = h; h->next->prev = x; h->next = x`. -/
def link (L : Links α) (h x : α) : Links α :=
  let L := L.setNext x (L.next h)
  let L := L.setPrev x h
  let L := L.setPrev (L.next h) x
  L.setNext h x

end Links

/-- The loop that follows `f` from `x` on until it meets `h`, and stops early at a node with `P`; in
at most so many rounds. -/
def Links.seek [DecidableEq α] (f : α → α) (h : α) (P : α → Bool) : ℕ → α → Option (Option α)
  | 0, _ => none
  | fuel + 1, x =>
    if x = h then some none
    else if P x then some (some x)
    else Links.seek f h P fuel (f x)

namespace Links.Linked

variable {next prev next' prev' : α → α} {c : List α}

/-- A chain does not notice changes of pointers that it does not use. -/
theorem congr (h : Links.Linked next prev c) (hn : ∀ a ∈ c.dropLast, next' a = next a)
    (hp : ∀ b ∈ c.tail, prev' b = prev b) : Links.Linked next' prev' c := by
  induction c with
  | nil => exact .nil
  | cons a c ih =>
    cases c with
    | nil => exact .singleton a
    | cons b c =>
      obtain ⟨hab, hc⟩ := List.isChain_cons_cons.mp h
      refine List.isChain_cons_cons.mpr ⟨?_, ih hc (fun x hx => hn x ?_) fun x hx => hp x ?_⟩
      · rw [hn a (List.mem_cons_self ..), hp b (List.mem_cons_self ..)]
        exact hab
      · exact List.mem_cons_of_mem _ hx
      · exact List.mem_cons_of_mem _ hx

theorem reverse (h : Links.Linked next prev c) : Links.Linked prev next c.reverse := by
  rw [Links.Linked, List.isChain_reverse]
  exact h.imp fun _ _ hab => ⟨hab.2, hab.1⟩

end Links.Linked

namespace RingList

variable {next prev : α → α} {h x : α} {l l₁ l₂ : List α}

/-- The same list seen through `prev`. -/
theorem reverse (r : RingList next prev h l) : RingList prev next h l.reverse := by
  refine ⟨?_, ?_⟩
  · have := r.nodup
    rw [List.nodup_cons] at this ⊢
    rwa [List.mem_reverse, List.nodup_reverse]
  · have := r.linked.reverse
    rwa [List.reverse_append, List.reverse_singleton, List.singleton_append,
      List.reverse_cons] at this

omit next prev in
private theorem around {p s : α} {c₁ c₂ : List α} (h₁ : h :: l₁ = c₁ ++ [p])
    (h₂ : l₂ ++ [h] = s :: c₂) : h :: (l₁ ++ x :: l₂) ++ [h] = c₁ ++ p :: x :: s :: c₂ := by
  calc h :: (l₁ ++ x :: l₂) ++ [h] = (h :: l₁) ++ x :: (l₂ ++ [h]) := by simp
    _ = c₁ ++ p :: x :: s :: c₂ := by rw [h₁, h₂]; simp

/-- The neighbours of a node of the list. -/
theorem neighbours (r : RingList next prev h (l₁ ++ x :: l₂)) :
    (∃ c, h :: l₁ = c ++ [prev x]) ∧ ∃ c, l₂ ++ [h] = next x :: c := by
  obtain ⟨c₁, p, hc₁⟩ := (List.eq_nil_or_concat' (h :: l₁)).resolve_left nofun
  obtain ⟨s, c₂, hc₂⟩ := List.exists_cons_of_ne_nil
    (List.append_ne_nil_of_right_ne_nil l₂ (List.cons_ne_nil h []))
  have hl := r.linked
  rw [around hc₁ hc₂] at hl
  obtain ⟨-, hpx, hl⟩ := List.isChain_append_cons_cons.mp hl
  obtain ⟨hxs, -⟩ := List.isChain_cons_cons.mp hl
  rw [hpx.2, hxs.1]
  exact ⟨⟨c₁, hc₁⟩, c₂, hc₂⟩

variable [DecidableEq α]

private theorem unlink_update (r : RingList next prev h (l₁ ++ x :: l₂)) :
    RingList (Function.update next (prev x) (next x)) (Function.update prev (next x) (prev x)) h
      (l₁ ++ l₂) := by
  obtain ⟨⟨c₁, hc₁⟩, c₂, hc₂⟩ := r.neighbours
  generalize prev x = p at *
  generalize next x = s at *
  have hl := r.linked
  rw [around hc₁ hc₂] at hl
  obtain ⟨hleft, -, hl⟩ := List.isChain_append_cons_cons.mp hl
  obtain ⟨-, hright⟩ := List.isChain_cons_cons.mp hl
  have hnd := r.nodup
  have hsub : (h :: (l₁ ++ l₂)).Sublist (h :: (l₁ ++ x :: l₂)) :=
    ((List.sublist_cons_self x l₂).append_left l₁).cons_cons h
  refine ⟨hnd.sublist hsub, ?_⟩
  have hnew : h :: (l₁ ++ l₂) ++ [h] = c₁ ++ p :: s :: c₂ := by
    calc h :: (l₁ ++ l₂) ++ [h] = (h :: l₁) ++ (l₂ ++ [h]) := by simp
      _ = c₁ ++ p :: s :: c₂ := by rw [hc₁, hc₂]; simp
  have hnd₁ : (c₁ ++ [p]).Nodup := hc₁ ▸ hnd.sublist ((List.sublist_append_left l₁ _).cons_cons h)
  have hnd₂ : (s :: c₂).Nodup := by
    rw [← hc₂, ← List.concat_eq_append]
    refine List.Nodup.concat ?_ ?_
    · exact fun hm => (List.nodup_cons.mp hnd).1
        (List.mem_append_right _ (List.mem_cons_of_mem _ hm))
    · exact ((List.nodup_append.mp (List.nodup_cons.mp hnd).2).2.1).of_cons
  -- `p` comes before `x` and `s` behind it
  have hp : p ∉ l₂ := by
    intro hm
    have hp₁ : p ∈ h :: l₁ := hc₁ ▸ List.mem_append_right _ (List.mem_singleton_self p)
    have : (h :: l₁ ++ x :: l₂).Nodup := hnd
    exact List.disjoint_of_nodup_append this hp₁ (List.mem_cons_of_mem _ hm)
  have hs : s ∉ l₁ := by
    intro hm
    have hs₂ : s ∈ l₂ ++ [h] := hc₂ ▸ List.mem_cons_self ..
    obtain hs₂ | hs₂ := List.mem_append.mp hs₂
    · exact List.disjoint_of_nodup_append (List.nodup_cons.mp hnd).2 hm (List.mem_cons_of_mem _ hs₂)
    · rw [List.mem_singleton] at hs₂
      subst hs₂
      exact (List.nodup_cons.mp hnd).1 (List.mem_append_left _ hm)
  rw [hnew]
  refine List.isChain_append_cons_cons.mpr
    ⟨?_, ⟨Function.update_self .., Function.update_self ..⟩, ?_⟩
  · refine Links.Linked.congr hleft (fun a ha => Function.update_of_ne ?_ ..)
      fun b hb => Function.update_of_ne ?_ ..
    · rintro rfl
      rw [List.dropLast_concat] at ha
      exact List.disjoint_of_nodup_append hnd₁ ha (List.mem_singleton_self a)
    · rintro rfl
      rw [← hc₁] at hb
      exact hs hb
  · refine Links.Linked.congr hright (fun a ha => Function.update_of_ne ?_ ..)
      fun b hb => Function.update_of_ne ?_ ..
    · rintro rfl
      rw [← hc₂, List.dropLast_concat] at ha
      exact hp ha
    · rintro rfl
      exact (List.nodup_cons.mp hnd₂).1 hb

private theorem link_update (r : RingList next prev h l) (hx : x ∉ h :: l) :
    RingList (Function.update (Function.update next x (next h)) h x)
      (Function.update (Function.update prev x h) (next h) x) h (x :: l) := by
  have hxh : x ≠ h := fun he => hx (he ▸ List.mem_cons_self ..)
  have hxl : x ∉ l := fun hm => hx (List.mem_cons_of_mem _ hm)
  have hnd := List.nodup_cons.mp r.nodup
  obtain ⟨s, c, hc⟩ := List.exists_cons_of_ne_nil
    (List.append_ne_nil_of_right_ne_nil l (List.cons_ne_nil h []))
  have hl : Links.Linked next prev (h :: (l ++ [h])) := r.linked
  rw [hc] at hl
  obtain ⟨hhs, hl⟩ := List.isChain_cons_cons.mp hl
  have hsx : s ≠ x := by
    rintro rfl
    have : s ∈ l ++ [h] := hc ▸ List.mem_cons_self ..
    obtain hm | hm := List.mem_append.mp this
    · exact hxl hm
    · exact hxh (List.mem_singleton.mp hm)
  have hnd₂ : (s :: c).Nodup := by
    rw [← hc, ← List.concat_eq_append]
    exact List.Nodup.concat hnd.1 hnd.2
  rw [hhs.1]
  refine ⟨?_, ?_⟩
  · rw [List.nodup_cons, List.nodup_cons, List.mem_cons, not_or]
    exact ⟨⟨hxh.symm, hnd.1⟩, hxl, hnd.2⟩
  · change Links.Linked _ _ (h :: x :: (l ++ [h]))
    rw [hc]
    refine List.isChain_cons_cons.mpr ⟨⟨Function.update_self .., ?_⟩,
      List.isChain_cons_cons.mpr ⟨⟨?_, Function.update_self ..⟩, ?_⟩⟩
    · rw [Function.update_of_ne hsx.symm, Function.update_self]
    · rw [Function.update_of_ne hxh, Function.update_self]
    · refine Links.Linked.congr hl (fun a ha => ?_) fun b hb => ?_
      · rw [← hc, List.dropLast_concat] at ha
        rw [Function.update_of_ne (by rintro rfl; exact hnd.1 ha),
          Function.update_of_ne (by rintro rfl; exact hxl ha)]
      · have hbs : b ≠ s := by rintro rfl; exact (List.nodup_cons.mp hnd₂).1 hb
        have hbx : b ≠ x := by
          rintro rfl
          have : b ∈ l ++ [h] := hc ▸ List.mem_cons_of_mem _ hb
          obtain hm | hm := List.mem_append.mp this
          · exact hxl hm
          · exact hxh (List.mem_singleton.mp hm)
        rw [Function.update_of_ne hbs, Function.update_of_ne hbx]

variable {L : Links α}

/-- **A node is taken out.** -/
theorem unlink (r : RingList L.next L.prev h (l₁ ++ x :: l₂)) :
    RingList (L.unlink x).next (L.unlink x).prev h (l₁ ++ l₂) := by
  -- the first assignment does not touch `x->prev`
  have hne : x ≠ L.next x := by
    obtain ⟨-, c, hc⟩ := r.neighbours
    intro he
    have hx : x ∈ l₂ ++ [h] := by
      rw [hc]
      exact he ▸ List.mem_cons_self ..
    have hnd := r.nodup
    obtain hx | hx := List.mem_append.mp hx
    · exact (List.nodup_cons.mp (List.nodup_append.mp (List.nodup_cons.mp hnd).2).2.1).1 hx
    · rw [List.mem_singleton] at hx
      subst hx
      exact (List.nodup_cons.mp hnd).1 (List.mem_append_right _ (List.mem_cons_self ..))
  have hprev : (L.setPrev (L.next x) (L.prev x)).prev x = L.prev x := Function.update_of_ne hne ..
  rw [Links.unlink, hprev]
  exact r.unlink_update

/-- **A node is put in behind the first.** -/
theorem link (r : RingList L.next L.prev h l) (hx : x ∉ h :: l) :
    RingList (L.link h x).next (L.link h x).prev h (x :: l) := by
  have hne : h ≠ x := fun he => hx (he ▸ List.mem_cons_self ..)
  have hnext : ((L.setNext x (L.next h)).setPrev x h).next h = L.next h :=
    Function.update_of_ne hne ..
  rw [Links.link, hnext]
  exact r.link_update hx

/-- Looking along a chain that ends in `h`. -/
private theorem seek_linked {P : α → Bool} {fuel : ℕ} {y : α}
    (hl : Links.Linked next prev (y :: l ++ [h])) (hh : h ∉ l) (hf : l.length < fuel) :
    Links.seek next h P fuel (next y) = some (l.find? P) := by
  induction l generalizing y fuel with
  | nil =>
    obtain ⟨fuel, rfl⟩ := Nat.exists_eq_succ_of_ne_zero (Nat.ne_of_gt hf)
    obtain ⟨hy, -⟩ := List.isChain_cons_cons.mp hl
    rw [Links.seek, if_pos hy.1]
    rfl
  | cons a l ih =>
    obtain ⟨fuel, rfl⟩ := Nat.exists_eq_succ_of_ne_zero (Nat.ne_of_gt (Nat.zero_lt_of_lt hf))
    obtain ⟨hy, hl⟩ := List.isChain_cons_cons.mp hl
    rw [List.mem_cons, not_or] at hh
    rw [Links.seek, hy.1, if_neg (Ne.symm hh.1), List.find?_cons]
    cases hP : P a with
    | true => rfl
    | false =>
      simp only [Bool.false_eq_true, if_false]
      exact ih hl hh.2 (Nat.lt_of_succ_lt_succ hf)

/-- **Looking for a node** finds the first one in the order of the list. -/
theorem seek (r : RingList next prev h l) {P : α → Bool} {fuel : ℕ} (hf : l.length < fuel) :
    Links.seek next h P fuel (next h) = some (l.find? P) :=
  seek_linked r.linked (List.nodup_cons.mp r.nodup).1 hf

end RingList
