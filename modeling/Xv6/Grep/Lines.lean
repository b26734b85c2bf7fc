import Xv6.Grep.Match

/-!
# Reading lines

`grep` of `grep.c`. Each call of `read` adds a chunk to the buffer; complete lines are matched and
taken out, and what is left is moved to the front. But a buffer without a newline is thrown away, so
a chunk without a newline cuts off the beginning of the line that it belongs to.

## Main definitions

* `grep` — the output, for the chunks that `read` returns
* `lines`, `rest` — the complete lines of a stream, and what is behind them

## Main results

* `grep_iff` — for which chunks the output is right
-/

namespace Xv6

namespace Grep

/-- `'\n'`. -/
abbrev newline : UInt8 := 10

/-! ### The function -/

/-- `strchr(s, c)`: what is before the first `c`, and what is behind it. -/
def strchr (c : UInt8) : Str → Option (Str × Str)
  | [] => none
  | d :: s =>
    if d = 0 then none
    else if d = c then some ([], s)
    else (strchr c s).map fun x => (d :: x.1, x.2)

/-- The loop from `p` on: the lines that it finds, and where `p` points in the end. Every round
takes a character at least. -/
def findLines : ℕ → Str → List Str × Str
  | 0, p => ([], p)
  | n + 1, p =>
    match strchr newline p with
    | none => ([], p)
    | some (line, p') => (line :: (findLines n p').1, (findLines n p').2)

/-- What is written for the lines of a buffer. -/
def output (pattern buf : Str) : Str :=
  (findLines buf.length buf).1.flatMap fun line =>
    if matchPattern pattern line then line ++ [newline] else []

/-- What is kept of a buffer: nothing, if `p` has not moved. -/
def keep (buf : Str) : Str :=
  let p := (findLines buf.length buf).2
  if p.length = buf.length then [] else p

/-- `grep`: what is written, with `m` at the front of the buffer, if `read` returns these chunks. -/
def grep (pattern : Str) : Str → List Str → Str
  | _, [] => []
  | m, c :: cs => output pattern (m ++ c) ++ grep pattern (keep (m ++ c)) cs

/-- `read` can return these chunks: there is room for each of them in the buffer. -/
def Reads : Str → List Str → Prop
  | _, [] => True
  | m, c :: cs => (c ≠ [] ∧ c.length ≤ 1024 - m.length - 1) ∧ Reads (keep (m ++ c)) cs

/-! ### Lines -/

/-- The complete lines of a stream, and what is behind the last newline. -/
def cut : Str → List Str × Str
  | [] => ([], [])
  | c :: s =>
    if c = newline then ([] :: (cut s).1, (cut s).2)
    else
      match (cut s).1 with
      | [] => ([], c :: (cut s).2)
      | l :: ls => ((c :: l) :: ls, (cut s).2)

/-- The complete lines of a stream. -/
def lines (s : Str) : List Str := (cut s).1

/-- What is behind the last newline. -/
def rest (s : Str) : Str := (cut s).2

/-- The lines that match, each with its newline. -/
def expected (pattern s : Str) : Str :=
  ((lines s).filter (matchPattern pattern)).flatMap (· ++ [newline])

/-- A first line, with the newline at its end. -/
theorem cut_line {l : Str} (hl : newline ∉ l) (s : Str) :
    lines (l ++ newline :: s) = l :: lines s ∧ rest (l ++ newline :: s) = rest s := by
  induction l with
  | nil => exact ⟨rfl, rfl⟩
  | cons c l ih =>
    rw [List.mem_cons, not_or] at hl
    have hc : c ≠ newline := fun h => hl.1 h.symm
    obtain ⟨h₁, h₂⟩ := ih hl.2
    rw [lines] at h₁
    rw [rest] at h₂
    rw [List.cons_append, lines, rest, cut, if_neg hc, h₁, h₂]
    exact ⟨rfl, rfl⟩

theorem cut_of_not_mem {s : Str} (hs : newline ∉ s) : lines s = [] ∧ rest s = s := by
  induction s with
  | nil => exact ⟨rfl, rfl⟩
  | cons c s ih =>
    rw [List.mem_cons, not_or] at hs
    have hc : c ≠ newline := fun h => hs.1 h.symm
    obtain ⟨h₁, h₂⟩ := ih hs.2
    rw [lines] at h₁
    rw [rest] at h₂
    rw [lines, rest, cut, if_neg hc, h₁, h₂]
    exact ⟨rfl, rfl⟩

/-- A stream has no newline, or is a line and what comes after it. -/
theorem exists_line (s : Str) : newline ∉ s ∨ ∃ l s', s = l ++ newline :: s' ∧ newline ∉ l := by
  by_cases h : newline ∈ s
  · obtain ⟨l, s', hs, hl⟩ := List.eq_append_cons_of_mem h
    exact .inr ⟨l, s', hs, hl⟩
  · exact .inl h

/-- **Induction on the lines of a stream.** -/
theorem line_induction {P : Str → Prop} (rest : ∀ s, newline ∉ s → P s)
    (line : ∀ l s, newline ∉ l → P s → P (l ++ newline :: s)) (s : Str) : P s := by
  induction h : s.length using Nat.strong_induction_on generalizing s with
  | _ n ih =>
    rcases exists_line s with hs | ⟨l, s', rfl, hl⟩
    · exact rest s hs
    · have hlt : s'.length < n := by
        rw [← h, List.length_append, List.length_cons]
        omega
      exact line l s' hl (ih _ hlt _ rfl)

/-- **Lines of a stream that comes in two parts.** -/
theorem lines_append (a b : Str) : lines (a ++ b) = lines a ++ lines (rest a ++ b) := by
  induction a using line_induction with
  | rest a ha => rw [(cut_of_not_mem ha).1, (cut_of_not_mem ha).2, List.nil_append]
  | line l a hl ih =>
    rw [List.append_assoc, List.cons_append, (cut_line hl _).1, (cut_line hl _).1,
      (cut_line hl _).2, ih, List.cons_append]

theorem newline_not_mem_rest (s : Str) : newline ∉ rest s := by
  induction s using line_induction with
  | rest s hs => rwa [(cut_of_not_mem hs).2]
  | line l s hl ih => rwa [(cut_line hl _).2]

theorem length_rest_le (s : Str) : (rest s).length ≤ s.length := by
  induction s using line_induction with
  | rest s hs => rw [(cut_of_not_mem hs).2]
  | line l s hl ih =>
    rw [(cut_line hl _).2, List.length_append, List.length_cons]
    omega

theorem mem_of_mem_rest {x : UInt8} {s : Str} (h : x ∈ rest s) : x ∈ s := by
  induction s using line_induction with
  | rest s hs => rwa [(cut_of_not_mem hs).2] at h
  | line l s hl ih =>
    rw [(cut_line hl _).2] at h
    exact List.mem_append_right _ (List.mem_cons_of_mem _ (ih h))

/-! ### One buffer -/

theorem strchr_of_not_mem {s : Str} (hs : newline ∉ s) : strchr newline s = none := by
  induction s with
  | nil => rfl
  | cons c s ih =>
    rw [List.mem_cons, not_or] at hs
    rw [strchr, ih hs.2, Option.map_none, if_neg (fun h => hs.1 h.symm : c ≠ newline), ite_self]

theorem strchr_line {l : Str} (hl : newline ∉ l) (h0 : 0 ∉ l) (s : Str) :
    strchr newline (l ++ newline :: s) = some (l, s) := by
  induction l with
  | nil => rfl
  | cons c l ih =>
    rw [List.mem_cons, not_or] at hl h0
    rw [List.cons_append, strchr, if_neg fun h => h0.1 h.symm, if_neg fun h => hl.1 h.symm,
      ih hl.2 h0.2, Option.map_some]

/-- **The loop finds the lines of the buffer.** -/
theorem findLines_eq {n : ℕ} {p : Str} (hn : p.length ≤ n) (h0 : 0 ∉ p) :
    findLines n p = (lines p, rest p) := by
  induction n generalizing p with
  | zero =>
    obtain rfl : p = [] := List.length_eq_zero_iff.mp (Nat.le_zero.mp hn)
    rfl
  | succ n ih =>
    rcases exists_line p with hp | ⟨l, p', rfl, hl⟩
    · rw [findLines, strchr_of_not_mem hp, (cut_of_not_mem hp).1, (cut_of_not_mem hp).2]
    · have hn' : p'.length ≤ n := by
        rw [List.length_append, List.length_cons] at hn
        omega
      have h0l : 0 ∉ l := fun h => h0 (List.mem_append_left _ h)
      have h0p : 0 ∉ p' := fun h => h0 (List.mem_append_right _ (List.mem_cons_of_mem _ h))
      rw [findLines, strchr_line hl h0l, (cut_line hl _).1, (cut_line hl _).2]
      show (l :: (findLines n p').1, (findLines n p').2) = _
      rw [ih hn' h0p]

theorem output_eq {buf : Str} (h0 : 0 ∉ buf) (pattern : Str) :
    output pattern buf = expected pattern buf := by
  rw [output, findLines_eq le_rfl h0, expected]
  generalize lines buf = ls
  induction ls with
  | nil => rfl
  | cons l ls ih =>
    rw [List.flatMap_cons, ih, List.filter_cons]
    split
    · rw [List.flatMap_cons]
    · rw [List.nil_append]

theorem keep_of_not_mem {buf : Str} (h0 : 0 ∉ buf) (h : newline ∉ buf) : keep buf = [] := by
  rw [keep, findLines_eq le_rfl h0, (cut_of_not_mem h).2]
  exact if_pos rfl

theorem keep_of_mem {buf : Str} (h0 : 0 ∉ buf) (h : newline ∈ buf) : keep buf = rest buf := by
  rw [keep, findLines_eq le_rfl h0]
  obtain hb | ⟨l, p, rfl, hl⟩ := exists_line buf
  · exact absurd h hb
  · have hlt : (rest p).length < (l ++ newline :: p).length := by
      have := length_rest_le p
      rw [List.length_append, List.length_cons]
      omega
    rw [(cut_line hl p).2]
    exact if_neg hlt.ne

/-! ### All chunks -/

/-- A chunk without a newline is the beginning of no line: every chunk has a newline, or no newline
comes after it. -/
def Whole : List Str → Prop
  | [] => True
  | c :: cs => (newline ∉ c → newline ∉ cs.flatten) ∧ Whole cs

theorem expected_append (pattern a b : Str) :
    expected pattern (a ++ b) = expected pattern a ++ expected pattern (rest a ++ b) := by
  rw [expected, lines_append, List.filter_append, List.flatMap_append]
  rfl

theorem expected_of_not_mem {s : Str} (hs : newline ∉ s) (pattern : Str) :
    expected pattern s = [] := by
  rw [expected, (cut_of_not_mem hs).1]
  rfl

theorem whole_of_not_mem {cs : List Str} (h : newline ∉ cs.flatten) : Whole cs := by
  induction cs with
  | nil => trivial
  | cons c cs ih =>
    rw [List.flatten_cons, List.mem_append, not_or] at h
    exact ⟨fun _ => h.2, ih h.2⟩

/-- Chunks without a newline print nothing. -/
theorem grep_of_not_mem {cs : List Str} (h : newline ∉ cs.flatten) (h0 : 0 ∉ cs.flatten)
    (pattern : Str) : grep pattern [] cs = [] := by
  induction cs with
  | nil => rfl
  | cons c cs ih =>
    rw [List.flatten_cons, List.mem_append, not_or] at h h0
    rw [grep, List.nil_append, output_eq h0.1, expected_of_not_mem h.1, keep_of_not_mem h0.1 h.1,
      ih h.2 h0.2, List.nil_append]

/-- **Whole lines are printed.** What is kept is the beginning of the next line. -/
theorem Whole.grep {cs : List Str} (hw : Whole cs) {m : Str} (hm : newline ∉ m)
    (h0 : 0 ∉ m ++ cs.flatten) (pattern : Str) :
    Grep.grep pattern m cs = expected pattern (m ++ cs.flatten) := by
  induction cs generalizing m with
  | nil =>
    rw [List.flatten_nil, List.append_nil, expected_of_not_mem hm]
    rfl
  | cons c cs ih =>
    rw [List.flatten_cons, ← List.append_assoc] at h0 ⊢
    have hb : 0 ∉ m ++ c := fun h => h0 (List.mem_append_left _ h)
    have hcs : 0 ∉ cs.flatten := fun h => h0 (List.mem_append_right _ h)
    rw [Grep.grep, output_eq hb]
    by_cases hc : newline ∈ c
    · have hr : 0 ∉ rest (m ++ c) ++ cs.flatten := by
        rw [List.mem_append, not_or]
        exact ⟨fun h => hb (mem_of_mem_rest h), hcs⟩
      rw [keep_of_mem hb (List.mem_append_right _ hc), ih hw.2 (newline_not_mem_rest _) hr,
        expected_append pattern (m ++ c)]
    · have hmc : newline ∉ m ++ c := by
        rw [List.mem_append, not_or]
        exact ⟨hm, hc⟩
      have hn : newline ∉ m ++ c ++ cs.flatten := by
        rw [List.mem_append, not_or]
        exact ⟨hmc, hw.1 hc⟩
      rw [keep_of_not_mem hb hmc, grep_of_not_mem (hw.1 hc) hcs, expected_of_not_mem hmc,
        expected_of_not_mem hn, List.append_nil]

/-- The empty pattern matches every line. -/
theorem matchPattern_nil (text : Str) : matchPattern [] text = true := by
  cases text <;> rfl

theorem length_expected_nil (s : Str) :
    (expected [] s).length = ((lines s).map fun l => l.length + 1).sum := by
  have hall : (lines s).filter (matchPattern []) = lines s :=
    List.filter_eq_self.mpr fun l _ => matchPattern_nil l
  rw [expected, hall, List.length_flatMap]
  simp

/-- What stands in front of a line is printed with it. -/
theorem length_expected_append {a b : Str} (ha : newline ∉ a) (hb : newline ∈ b) :
    (expected [] (a ++ b)).length = a.length + (expected [] b).length := by
  obtain h | ⟨l, b, rfl, hl⟩ := exists_line b
  · exact absurd hb h
  · have hal : newline ∉ a ++ l := by
      rw [List.mem_append, not_or]
      exact ⟨ha, hl⟩
    rw [← List.append_assoc, length_expected_nil, length_expected_nil, (cut_line hal _).1,
      (cut_line hl _).1, List.map_cons, List.sum_cons, List.map_cons, List.sum_cons,
      List.length_append]
    omega

/-- **No more than the lines is printed**, and less if the beginning of a line is lost. -/
theorem length_grep_le {cs : List Str} (hne : ∀ c ∈ cs, c ≠ []) {m : Str} (hm : newline ∉ m)
    (h0 : 0 ∉ m ++ cs.flatten) :
    (grep [] m cs).length ≤ (expected [] (m ++ cs.flatten)).length ∧
      (¬ Whole cs → (grep [] m cs).length < (expected [] (m ++ cs.flatten)).length) := by
  induction cs generalizing m with
  | nil => exact ⟨Nat.zero_le _, fun h => absurd trivial h⟩
  | cons c cs ih =>
    rw [List.flatten_cons, ← List.append_assoc] at h0 ⊢
    have hb : 0 ∉ m ++ c := fun h => h0 (List.mem_append_left _ h)
    have hcs : 0 ∉ cs.flatten := fun h => h0 (List.mem_append_right _ h)
    have hne' : ∀ c ∈ cs, c ≠ [] := fun d hd => hne d (List.mem_cons_of_mem _ hd)
    rw [grep, output_eq hb]
    by_cases hc : newline ∈ c
    · have hr : 0 ∉ rest (m ++ c) ++ cs.flatten := by
        rw [List.mem_append, not_or]
        exact ⟨fun h => hb (mem_of_mem_rest h), hcs⟩
      obtain ⟨hle, hlt⟩ := ih hne' (newline_not_mem_rest (m ++ c)) hr
      rw [keep_of_mem hb (List.mem_append_right _ hc), expected_append [] (m ++ c),
        List.length_append, List.length_append]
      refine ⟨Nat.add_le_add_left hle _, fun hw => Nat.add_lt_add_left (hlt fun hw' => ?_) _⟩
      exact hw ⟨fun h => absurd hc h, hw'⟩
    · have hmc : newline ∉ m ++ c := by
        rw [List.mem_append, not_or]
        exact ⟨hm, hc⟩
      obtain ⟨hle, -⟩ := ih hne' List.not_mem_nil hcs
      rw [List.nil_append] at hle
      rw [keep_of_not_mem hb hmc, expected_of_not_mem hmc, List.nil_append]
      by_cases hn : newline ∈ cs.flatten
      · -- the buffer belongs to the first line of the other chunks
        have hpos : 0 < c.length := List.length_pos_iff.mpr (hne c List.mem_cons_self)
        rw [length_expected_append hmc hn, List.length_append]
        exact ⟨by omega, fun _ => by omega⟩
      · rw [grep_of_not_mem hn hcs]
        refine ⟨Nat.zero_le _, fun hw => absurd ⟨fun _ => hn, ?_⟩ hw⟩
        exact whole_of_not_mem hn

theorem Reads.ne_nil {m : Str} {cs : List Str} (h : Reads m cs) : ∀ c ∈ cs, c ≠ [] := by
  induction cs generalizing m with
  | nil => simp
  | cons d cs ih =>
    intro c hc
    rcases List.mem_cons.mp hc with rfl | hc
    · exact h.1.1
    · exact ih h.2 c hc

/-- **For which chunks `grep` is right.** It prints the lines that match, whatever the pattern is,
exactly if no chunk without a newline comes before a newline. -/
theorem grep_iff {chunks : List Str} (hr : Reads [] chunks) (h0 : 0 ∉ chunks.flatten) :
    (∀ pattern, grep pattern [] chunks = expected pattern chunks.flatten) ↔ Whole chunks := by
  refine ⟨fun h => ?_, fun hw pattern => hw.grep List.not_mem_nil h0 pattern⟩
  by_contra hw
  have hlt := (length_grep_le hr.ne_nil List.not_mem_nil h0).2 hw
  rw [h [], List.nil_append] at hlt
  exact lt_irrefl _ hlt

/-- `"ab\n"` and `"a\n"` from two calls of `read`. -/
theorem grep_iff_two : Reads [] [[97, 98, 10, 97], [10]] ∧
    ∀ pattern, grep pattern [] [[97, 98, 10, 97], [10]] = expected pattern [97, 98, 10, 97, 10] :=
  have hr : Reads [] [[97, 98, 10, 97], [10]] :=
    ⟨by decide, by decide, trivial⟩
  ⟨hr, (grep_iff hr (by decide)).mpr ⟨by decide, by decide, trivial⟩⟩

/-- The line `"ab\n"`, with its first byte from one call of `read` and the others from the next:
`grep` prints nothing for the pattern `a`. -/
theorem grep_loses_line : Reads [] [[97], [98, 10]] ∧ grep [97] [] [[97], [98, 10]] = [] ∧
    expected [97] [97, 98, 10] = [97, 98, 10] :=
  ⟨⟨by decide, by decide, trivial⟩, by decide, by decide⟩

end Grep

end Xv6
