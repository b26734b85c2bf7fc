import Mathlib

/-!
# Pattern matching

`grep.c` from `match` on. A string is the list of its characters in front of the `NUL`. The
functions `matchhere` and `matchstar` call each other; here `matchstar` is given what `matchhere`
answers for the rest of the pattern.

What a pattern means is said without the functions: it is cut into atoms and anchors, each atom has
a language, and the text must have a substring in the product of these languages.

## Main definitions

* `matchstar`, `matchhere`, `matchPattern`
* `atoms`, `atEnd`, `language` — the meaning of a pattern

## Main results

* `matchPattern_iff`
-/

namespace Xv6

namespace Grep

/-- A string, without the `NUL` at its end. -/
abbrev Str := List UInt8

/-- `'*'`. -/
abbrev chStar : UInt8 := 42

/-- `'.'`. -/
abbrev chDot : UInt8 := 46

/-- `'$'`. -/
abbrev chDollar : UInt8 := 36

/-- `'^'`. -/
abbrev chCaret : UInt8 := 94

/-! ### The functions -/

/-- The loop of `matchstar(c, re, text)`, where `here` is `matchhere(re, ·)`. -/
def matchstar (c : UInt8) (here : Str → Bool) : Str → Bool
  | [] => here []
  | t :: text => here (t :: text) || ((t = c || c = chDot) && matchstar c here text)

/-- The pattern at the beginning of the text. -/
def matchhere : Str → Str → Bool
  | [], _ => true
  | [c], text =>
    if c = chDollar then text.isEmpty
    else
      match text with
      | [] => false
      | t :: text => (c = chDot || c = t) && matchhere [] text
  | c :: d :: re, text =>
    if d = chStar then matchstar c (matchhere re) text
    else
      match text with
      | [] => false
      | t :: text => (c = chDot || c = t) && matchhere (d :: re) text

theorem matchhere_single (c : UInt8) (text : Str) :
    matchhere [c] text =
      if c = chDollar then text.isEmpty
      else
        match text with
        | [] => false
        | t :: text => (c = chDot || c = t) && matchhere [] text := by
  cases text <;> rfl

theorem matchhere_cons (c d : UInt8) (re text : Str) :
    matchhere (c :: d :: re) text =
      if d = chStar then matchstar c (matchhere re) text
      else
        match text with
        | [] => false
        | t :: text => (c = chDot || c = t) && matchhere (d :: re) text := by
  cases text <;> rfl

/-- The loop of `match` over the text. -/
def matchany (re : Str) : Str → Bool
  | [] => matchhere re []
  | t :: text => matchhere re (t :: text) || matchany re text

/-- `match`. -/
def matchPattern (re text : Str) : Bool :=
  match re with
  | c :: re => if c = chCaret then matchhere re text else matchany (c :: re) text
  | [] => matchany [] text

/-! ### The meaning of a pattern -/

/-- A character, or any number of characters. -/
inductive Atom
  | one (c : UInt8)
  | star (c : UInt8)

/-- The atoms of a pattern without `^` in front. -/
def atoms : Str → List Atom
  | [] => []
  | [c] => if c = chDollar then [] else [.one c]
  | c :: d :: re => if d = chStar then .star c :: atoms re else .one c :: atoms (d :: re)

/-- Whether the pattern has a `$` at its end that is not followed by `*`. -/
def atEnd : Str → Bool
  | [] => false
  | [c] => c = chDollar
  | _ :: d :: re => if d = chStar then atEnd re else atEnd (d :: re)

/-- Whether the pattern has a `^` in front. -/
def atStart : Str → Bool
  | [] => false
  | c :: _ => c = chCaret

/-- The pattern without a `^` in front. -/
def body (re : Str) : Str := if atStart re then re.tail else re

/-- The strings of one character that `c` stands for; `.` stands for any. -/
def char (c : UInt8) : Language UInt8 := {w | ∃ d, w = [d] ∧ (c = chDot ∨ d = c)}

def Atom.language : Atom → Language UInt8
  | .one c => char c
  | .star c => KStar.kstar (char c)

/-- The language of a pattern without anchors. -/
def language (re : Str) : Language UInt8 := ((atoms re).map Atom.language).prod

/-- What `matchhere` has to find: a string of the language at the beginning of the text. -/
def Here (re text : Str) : Prop :=
  ∃ u v, text = u ++ v ∧ u ∈ language re ∧ (atEnd re → v = [])

/-! ### Stars -/

theorem mem_kstar_char (c : UInt8) (w : Str) :
    w ∈ KStar.kstar (char c) ↔ ∀ d ∈ w, c = chDot ∨ d = c := by
  rw [Language.mem_kstar]
  constructor
  · rintro ⟨L, rfl, hL⟩ d hd
    obtain ⟨y, hy, hdy⟩ := List.mem_flatten.mp hd
    obtain ⟨e, rfl, he⟩ := hL y hy
    rwa [List.mem_singleton.mp hdy]
  · intro h
    refine ⟨w.map fun d => [d], (List.flatMap_singleton' w).symm, fun y hy => ?_⟩
    obtain ⟨d, hd, rfl⟩ := List.mem_map.mp hy
    exact ⟨d, rfl, h d hd⟩

/-- **`matchstar`** tries every number of characters. -/
theorem matchstar_iff {c : UInt8} {here : Str → Bool} {text : Str} :
    matchstar c here text = true ↔
      ∃ u v, text = u ++ v ∧ (∀ d ∈ u, c = chDot ∨ d = c) ∧ here v = true := by
  induction text with
  | nil =>
    constructor
    · intro h
      exact ⟨[], [], rfl, nofun, h⟩
    · rintro ⟨u, v, huv, -, hv⟩
      obtain ⟨-, rfl⟩ := List.append_eq_nil_iff.mp huv.symm
      exact hv
  | cons t text ih =>
    rw [matchstar, Bool.or_eq_true, Bool.and_eq_true, ih]
    constructor
    · rintro (h | ⟨ht, u, v, rfl, hu, hv⟩)
      · exact ⟨[], t :: text, rfl, nofun, h⟩
      · refine ⟨t :: u, v, rfl, List.forall_mem_cons.mpr ⟨?_, hu⟩, hv⟩
        simpa [or_comm] using ht
    · rintro ⟨u, v, huv, hu, hv⟩
      cases u with
      | nil => exact .inl (huv ▸ hv)
      | cons d u =>
        obtain ⟨rfl, rfl⟩ := List.cons.inj huv
        refine .inr ⟨?_, u, v, rfl, fun e he => hu e (List.mem_cons_of_mem _ he), hv⟩
        simpa [or_comm] using hu t List.mem_cons_self

/-! ### Patterns -/

theorem here_nil (text : Str) : Here [] text :=
  ⟨[], text, rfl, rfl, nofun⟩

/-- A pattern that begins with a star. -/
theorem here_star {c : UInt8} {re text : Str} :
    Here (c :: chStar :: re) text ↔
      ∃ u v, text = u ++ v ∧ (∀ d ∈ u, c = chDot ∨ d = c) ∧ Here re v := by
  have hlang : language (c :: chStar :: re) = KStar.kstar (char c) * language re := rfl
  have hend : atEnd (c :: chStar :: re) = atEnd re := rfl
  rw [Here, hlang, hend]
  constructor
  · rintro ⟨u, w, rfl, hu, hw⟩
    obtain ⟨a, ha, b, hb, rfl⟩ := Language.mem_mul.mp hu
    exact ⟨a, b ++ w, by simp, (mem_kstar_char c a).mp ha, b, w, rfl, hb, hw⟩
  · rintro ⟨a, _, rfl, ha, b, w, rfl, hb, hw⟩
    refine ⟨a ++ b, w, by simp, Language.mem_mul.mpr ⟨a, ?_, b, hb, rfl⟩, hw⟩
    exact (mem_kstar_char c a).mpr ha

/-- A pattern that begins with a character, and what follows. -/
theorem here_char {c : UInt8} {re re' text : Str}
    (hlang : language re = char c * language re') (hend : atEnd re = atEnd re') :
    Here re text ↔ ∃ t v, text = t :: v ∧ (c = chDot ∨ c = t) ∧ Here re' v := by
  rw [Here, hlang, hend]
  constructor
  · rintro ⟨u, w, rfl, hu, hw⟩
    obtain ⟨_, ⟨t, rfl, ht⟩, b, hb, rfl⟩ := Language.mem_mul.mp hu
    exact ⟨t, b ++ w, by simp, ht.imp_right Eq.symm, b, w, rfl, hb, hw⟩
  · rintro ⟨t, _, rfl, ht, b, w, rfl, hb, hw⟩
    refine ⟨t :: b, w, by simp, Language.mem_mul.mpr ⟨[t], ?_, b, hb, rfl⟩, hw⟩
    exact ⟨t, rfl, ht.imp_right Eq.symm⟩

/-- The step of `matchhere` over one character. -/
theorem match_char_iff {c : UInt8} {text : Str} {here : Str → Bool} {P : Str → Prop}
    (hP : ∀ v, here v = true ↔ P v) :
    (match text with
      | [] => false
      | t :: text => (decide (c = chDot) || decide (c = t)) && here text) = true ↔
      ∃ t v, text = t :: v ∧ (c = chDot ∨ c = t) ∧ P v := by
  cases text with
  | nil => simp
  | cons t text => simp [hP]

/-- A pattern that is `$`. -/
theorem here_dollar {text : Str} : Here [chDollar] text ↔ text = [] := by
  constructor
  · rintro ⟨u, v, rfl, hu, hv⟩
    obtain rfl : u = [] := hu
    exact hv rfl
  · rintro rfl
    exact ⟨[], [], rfl, rfl, fun _ => rfl⟩

/-- **`matchhere`** looks at the beginning of the text. -/
theorem matchhere_iff : ∀ {re text : Str}, matchhere re text = true ↔ Here re text
  | [], text => ⟨fun _ => here_nil text, fun _ => rfl⟩
  | [c], text => by
    rw [matchhere_single]
    by_cases hc : c = chDollar
    · rw [if_pos hc, hc, here_dollar, List.isEmpty_iff]
    · have hlang : language [c] = char c * language [] := by
        simp [language, atoms, hc, Atom.language]
      have hend : atEnd [c] = atEnd [] := by simp [atEnd, hc]
      rw [if_neg hc, here_char hlang hend]
      exact match_char_iff fun _ => matchhere_iff
  | c :: d :: re, text => by
    rw [matchhere_cons]
    by_cases hd : d = chStar
    · subst hd
      rw [if_pos rfl, here_star, matchstar_iff]
      simp only [matchhere_iff]
    · have hlang : language (c :: d :: re) = char c * language (d :: re) := by
        simp [language, atoms, hd, Atom.language]
      have hend : atEnd (c :: d :: re) = atEnd (d :: re) := by simp [atEnd, hd]
      rw [if_neg hd, here_char hlang hend]
      exact match_char_iff fun _ => matchhere_iff

/-- The loop of `match` tries every place. -/
theorem matchany_iff {re text : Str} :
    matchany re text = true ↔ ∃ u v, text = u ++ v ∧ Here re v := by
  induction text with
  | nil =>
    rw [matchany, matchhere_iff]
    constructor
    · intro h
      exact ⟨[], [], rfl, h⟩
    · rintro ⟨u, v, huv, hv⟩
      obtain ⟨-, rfl⟩ := List.append_eq_nil_iff.mp huv.symm
      exact hv
  | cons t text ih =>
    rw [matchany, Bool.or_eq_true, matchhere_iff, ih]
    constructor
    · rintro (h | ⟨u, v, rfl, hv⟩)
      · exact ⟨[], t :: text, rfl, h⟩
      · exact ⟨t :: u, v, rfl, hv⟩
    · rintro ⟨u, v, huv, hv⟩
      cases u with
      | nil => exact .inl (huv ▸ hv)
      | cons d u =>
        obtain ⟨rfl, rfl⟩ := List.cons.inj huv
        exact .inr ⟨u, v, rfl, hv⟩

/-- **`match`** finds a substring in the language of the pattern. A `^` in front of the pattern
anchors the substring at the beginning of the text, a `$` at its end anchors it at the end. -/
theorem matchPattern_iff (re text : Str) :
    matchPattern re text = true ↔
      ∃ u v w, text = u ++ v ++ w ∧ v ∈ language (body re) ∧ (atStart re → u = []) ∧
        (atEnd (body re) → w = []) := by
  by_cases hre : atStart re
  · obtain ⟨re, rfl⟩ : ∃ re', re = chCaret :: re' := by
      cases re with
      | nil => cases hre
      | cons c re => exact ⟨re, by rw [of_decide_eq_true hre]⟩
    have hm : matchPattern (chCaret :: re) text = matchhere re text := rfl
    have hbody : body (chCaret :: re) = re := rfl
    rw [hm, matchhere_iff, hbody]
    constructor
    · rintro ⟨v, w, rfl, hv, hw⟩
      exact ⟨[], v, w, rfl, hv, fun _ => rfl, hw⟩
    · rintro ⟨u, v, w, rfl, hv, hu, hw⟩
      rw [hu rfl]
      exact ⟨v, w, rfl, hv, hw⟩
  · have hm : matchPattern re text = matchany re text := by
      cases re with
      | nil => rfl
      | cons c re => exact if_neg fun h => hre (decide_eq_true h)
    have hbody : body re = re := if_neg hre
    rw [hm, matchany_iff, hbody]
    constructor
    · rintro ⟨u, _, rfl, v, w, rfl, hv, hw⟩
      exact ⟨u, v, w, by simp, hv, fun h => absurd h hre, hw⟩
    · rintro ⟨u, v, w, rfl, hv, -, hw⟩
      exact ⟨u, v ++ w, by simp, v, w, rfl, hv, hw⟩

/-- `^*a*$` is anchored at both ends, and its first `*` stands for itself. -/
example : matchPattern [94, 42, 97, 42, 36] [42, 97, 97] = true ∧
    matchPattern [94, 42, 97, 42, 36] [97, 42, 97] = false := by decide

end Grep

end Xv6
