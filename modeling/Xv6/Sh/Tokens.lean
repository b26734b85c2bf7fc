import Xv6.Sh.Parser

/-!
# The tokens of a command line

`tokens` is what `gettoken` finds when it is called again and again. `At s T ps` says that `ps`
points into the line `s`, with the tokens `T` still to come; in these terms `gettoken` takes the
first token and `peek` looks at it.

## Main definitions

* `Token`, `tokens`
* `At`, `Span.Valid`

## Main results

* `At.wp_peek`, `At.wp_gettoken_sym`, `At.wp_gettoken_word`, `At.wp_gettoken_nil`
-/

namespace Xv6

namespace Sh

variable {s ps : Ptr}

/-! ### Tokens -/

inductive Token
  | sym (k : Sym)
  | word (w : List UInt8)
  deriving DecidableEq, Repr

/-- The characters between the pointers of a span. -/
def Span.text (w : Span) : List UInt8 := w.q.take (w.q.length - w.eq.length)

/-- What `gettoken` returns, in front of the tokens that follow. -/
def emit : Ret × Span → List Token → List Token
  | (.zero, _), _ => []
  | (.sym k, _), T => .sym k :: T
  | (.word, w), T => .word w.text :: T

/-- The tokens that the next `n` calls of `gettoken` find. -/
def tokensWith : ℕ → Ptr → List Token
  | 0, _ => []
  | n + 1, ps =>
    match gettoken ps with
    | .ok r ps' => emit r (tokensWith n ps')
    | .error _ _ => []

/-- The tokens of a line; each has a character at least. -/
def tokens (ps : Ptr) : List Token := tokensWith ps.length ps

/-! ### Scanning -/

theorem skip_suffix (ps : Ptr) : skip ps <:+ ps := List.dropWhile_suffix _

theorem head_skip {c : UInt8} (h : c ∈ (skip ps).head?) : c ∉ whitespace := by
  have := List.head?_dropWhile_not (· ∈ whitespace) ps
  rw [← skip, Option.mem_def.mp h] at this
  simpa using this

theorem skip_of_head (h : ∀ c ∈ ps.head?, c ∉ whitespace) : skip ps = ps := by
  cases ps with
  | nil => rfl
  | cons c ps => exact List.dropWhile_cons_of_neg (by simpa using h c rfl)

@[simp] theorem skip_skip (ps : Ptr) : skip (skip ps) = skip ps := skip_of_head fun _ => head_skip

theorem gettoken_eq (ps : Ptr) :
    gettoken ps = .ok ((scan (skip ps)).1, ⟨skip ps, (scan (skip ps)).2⟩)
      (skip (scan (skip ps)).2) := rfl

/-- The characters of a symbol. -/
def Sym.text : Sym → List UInt8
  | .bar => [124]
  | .lparen => [40]
  | .rparen => [41]
  | .semi => [59]
  | .amp => [38]
  | .lt => [60]
  | .gt => [62]
  | .gtgt => [62, 62]

/-- The first one of them. -/
def Sym.char (k : Sym) : UInt8 := k.text.headI

/-- What the `switch` of `gettoken` finds. -/
inductive Scanned : Ptr → Ret → Ptr → Prop
  | zero : Scanned [] .zero []
  | sym (k : Sym) (eq : Ptr) (hgt : k = .gt → eq.head? ≠ some 62) :
    Scanned (k.text ++ eq) (.sym k) eq
  | word (x eq : Ptr) (hne : x ≠ []) (hx : ∀ c ∈ x, isWord c) (heq : ∀ c ∈ eq.head?, ¬isWord c) :
    Scanned (x ++ eq) .word eq

theorem scanned_scan (h0 : 0 ∉ s) (hs : ∀ c ∈ s.head?, c ∉ whitespace) :
    Scanned s (scan s).1 (scan s).2 := by
  cases s with
  | nil => exact .zero
  | cons c s =>
    have hc0 : c ≠ 0 := fun h => h0 (by simp [h])
    have hcw : c ∉ whitespace := hs c rfl
    simp only [scan, if_neg hc0]
    split_ifs with h1 h2 h3 h4 h5 h6 h7
    · subst h1; exact .sym .bar s nofun
    · subst h2; exact .sym .lparen s nofun
    · subst h3; exact .sym .rparen s nofun
    · subst h4; exact .sym .semi s nofun
    · subst h5; exact .sym .amp s nofun
    · subst h6; exact .sym .lt s nofun
    · subst h7
      split
      · exact .sym .gtgt _ nofun
      · rename_i hne
        refine .sym .gt s fun _ h => ?_
        obtain ⟨s', rfl⟩ := List.head?_eq_some_iff.mp h
        exact hne s' rfl
    · have hc : isWord c := by simp [isWord, hcw, symbols, h1, h2, h3, h4, h5, h6, h7]
      have hsplit := List.takeWhile_append_dropWhile (p := isWord) (l := c :: s)
      have := Scanned.word ((c :: s).takeWhile isWord) ((c :: s).dropWhile isWord) (by simp [hc])
        (fun _ h => List.mem_takeWhile_imp h) fun d hd => by
          have := List.head?_dropWhile_not isWord (c :: s)
          rw [Option.mem_def.mp hd] at this
          simpa using this
      rwa [hsplit] at this

namespace Scanned

variable {r : Ret} {eq : Ptr}

theorem suffix (h : Scanned s r eq) : eq <:+ s := by
  cases h with
  | zero => exact List.suffix_rfl
  | sym k eq => exact List.suffix_append _ _
  | word x eq => exact List.suffix_append _ _

theorem length_lt (h : Scanned s r eq) (hr : r ≠ .zero) : eq.length < s.length := by
  cases h with
  | zero => exact absurd rfl hr
  | sym k eq => cases k <;> simp [Sym.text]
  | word x eq hne => simpa using List.length_pos_iff.mpr hne

/-- The `switch` finds nothing else. -/
theorem scan_eq (h : Scanned s r eq) (h0 : 0 ∉ s) : scan s = (r, eq) := by
  cases h with
  | zero => rfl
  | sym k eq hgt =>
    cases k with
    | gt =>
      cases eq with
      | nil => rfl
      | cons d eq =>
        have hd : d ≠ 62 := fun h => hgt rfl (by simp [h])
        change scan (62 :: d :: eq) = (Ret.sym .gt, d :: eq)
        simp [scan, hd]
    | _ => rfl
  | word x eq hne hx heq =>
    obtain ⟨c, x, rfl⟩ := List.exists_cons_of_ne_nil hne
    have hc : isWord c := hx c (by simp)
    have hc0 : c ≠ 0 := fun h => h0 (by simp [h])
    have hdrop : (c :: x ++ eq).dropWhile isWord = eq := by
      rw [List.dropWhile_append_of_pos hx]
      cases eq with
      | nil => rfl
      | cons d eq => exact List.dropWhile_cons_of_neg (heq d rfl)
    simp only [isWord, symbols, List.mem_cons, not_or, decide_eq_true_eq] at hc
    obtain ⟨-, h6, h1, h7, h5, h4, h2, h3, -⟩ := hc
    have hscan : scan (c :: x ++ eq) = (.word, (c :: x ++ eq).dropWhile isWord) := by
      simp only [List.cons_append, scan, if_neg hc0, if_neg h1, if_neg h2, if_neg h3, if_neg h4,
        if_neg h5, if_neg h6, if_neg h7]
    rw [hscan, hdrop]

end Scanned

theorem not_mem_of_suffix (h0 : 0 ∉ s) (h : ps <:+ s) : 0 ∉ ps := fun hp => h0 (h.subset hp)

theorem scanned_skip (h0 : 0 ∉ ps) :
    Scanned (skip ps) (scan (skip ps)).1 (scan (skip ps)).2 :=
  scanned_scan (not_mem_of_suffix h0 (skip_suffix ps)) fun _ => head_skip

theorem tokensWith_succ (n : ℕ) (ps : Ptr) : tokensWith (n + 1) ps =
    emit ((scan (skip ps)).1, ⟨skip ps, (scan (skip ps)).2⟩)
      (tokensWith n (skip (scan (skip ps)).2)) := rfl

@[simp] theorem tokensWith_nil (n : ℕ) : tokensWith n [] = [] := by
  cases n <;> rfl

theorem tokensWith_eq {n m : ℕ} (h0 : 0 ∉ ps) (hn : ps.length ≤ n) (hm : ps.length ≤ m) :
    tokensWith n ps = tokensWith m ps := by
  induction n generalizing m ps with
  | zero => simp [List.eq_nil_of_length_eq_zero (Nat.le_zero.mp hn)]
  | succ n ih =>
    cases m with
    | zero => simp [List.eq_nil_of_length_eq_zero (Nat.le_zero.mp hm)]
    | succ m =>
      have hscan := scanned_skip h0
      rw [tokensWith_succ, tokensWith_succ]
      by_cases hr : (scan (skip ps)).1 = .zero
      · rw [hr]; rfl
      · have hlt := hscan.length_lt hr
        have h1 := (skip_suffix ps).length_le
        have h2 := (skip_suffix (scan (skip ps)).2).length_le
        have hsuf : skip (scan (skip ps)).2 <:+ ps :=
          ((skip_suffix _).trans hscan.suffix).trans (skip_suffix ps)
        rw [ih (not_mem_of_suffix h0 hsuf) (by omega) (by omega : _ ≤ m)]

theorem tokens_eq (h0 : 0 ∉ ps) : tokens ps =
    emit ((scan (skip ps)).1, ⟨skip ps, (scan (skip ps)).2⟩)
      (tokens (skip (scan (skip ps)).2)) := by
  have hscan := scanned_skip h0
  have hsuf : skip (scan (skip ps)).2 <:+ ps :=
    ((skip_suffix _).trans hscan.suffix).trans (skip_suffix ps)
  rw [tokens, tokensWith_eq h0 le_rfl (Nat.le_succ _), tokensWith_succ,
    tokensWith_eq (not_mem_of_suffix h0 hsuf) hsuf.length_le le_rfl, tokens]

theorem tokens_skip (h0 : 0 ∉ ps) : tokens (skip ps) = tokens ps := by
  rw [tokens_eq h0, tokens_eq (not_mem_of_suffix h0 (skip_suffix ps)), skip_skip]

/-! ### Words -/

/-- The text of a word token. -/
def IsWord (x : List UInt8) : Prop := x ≠ [] ∧ ∀ c ∈ x, c ≠ 0 ∧ isWord c

/-- The pointers of a word of the line `s`, which ends where no word goes on. -/
structure Span.Word (s : Ptr) (w : Span) : Prop where
  suffix : w.q <:+ s
  split : w.q = w.text ++ w.eq
  word : IsWord w.text
  stop : ∀ c ∈ w.eq.head?, ¬isWord c

theorem Span.Word.mono {w : Span} (h : w.Word ps) (hs : ps <:+ s) : w.Word s :=
  { h with suffix := h.suffix.trans hs }

/-- The places in the line `s` that calls of `gettoken` and `peek` lead to. -/
inductive Reached (s : Ptr) : Ptr → Prop
  | start : Reached s s
  | skip {ps : Ptr} (h : Reached s ps) : Reached s (skip ps)
  | next {ps ps' : Ptr} {r : Ret × Span} (h : Reached s ps) (hg : gettoken ps = .ok r ps') :
    Reached s ps'

/-- The pointers of a word that `gettoken` finds in the line `s`. -/
structure Span.Valid (s : Ptr) (w : Span) : Prop extends Span.Word s w where
  lexed : ∃ ps ps', Reached s ps ∧ gettoken ps = .ok (.word, w) ps'

/-- **What `gettoken` does** at a place of the line: there is nothing, a symbol, or a word. -/
theorem gettoken_cases (h0 : 0 ∉ ps) :
    (tokens ps = [] ∧ skip ps = [] ∧ ∃ w, gettoken ps = .ok (.zero, w) []) ∨
    (∃ k w ps', tokens ps = .sym k :: tokens ps' ∧ (skip ps).head? = some k.char ∧ ps' <:+ ps ∧
      gettoken ps = .ok (.sym k, w) ps') ∨
    ∃ w ps', tokens ps = .word w.text :: tokens ps' ∧ w.Word ps ∧ w.q = skip ps ∧ ps' <:+ ps ∧
      gettoken ps = .ok (.word, w) ps' := by
  have hscan := scanned_skip h0
  have hsuf := ((skip_suffix (scan (skip ps)).2).trans hscan.suffix).trans (skip_suffix ps)
  have htok := tokens_eq h0
  have hget := gettoken_eq ps
  have h0' := not_mem_of_suffix h0 (skip_suffix ps)
  have hq := skip_suffix ps
  generalize skip ps = q at *
  generalize (scan q).1 = r, (scan q).2 = eq at *
  cases hscan with
  | zero => exact .inl ⟨htok, rfl, _, hget⟩
  | sym k => exact .inr (.inl ⟨k, _, _, htok, by cases k <;> rfl, hsuf, hget⟩)
  | word x eq hne hx hstop =>
    have htext : Span.text ⟨x ++ eq, eq⟩ = x := by simp [Span.text]
    refine .inr (.inr ⟨_, _, htok, ⟨hq, ?_, ?_, hstop⟩, rfl, hsuf, hget⟩)
    · rw [htext]
    · rw [htext]
      exact ⟨hne, fun c hc => ⟨fun h => h0' (by simp [← h, hc]), hx c hc⟩⟩

theorem length_tokens_le (ps : Ptr) : (tokens ps).length ≤ ps.length := by
  suffices h : ∀ n ps, (tokensWith n ps).length ≤ n from h _ _
  intro n
  induction n with
  | zero => intro ps; simp [tokensWith]
  | succ n ih =>
    intro ps
    rw [tokensWith_succ]
    have := ih (skip (scan (skip ps)).2)
    unfold emit
    split <;> simp <;> omega

/-- The words among the tokens are words. -/
theorem isWord_of_mem_tokens {x : List UInt8} (h0 : 0 ∉ ps) (hx : .word x ∈ tokens ps) :
    IsWord x := by
  generalize hn : (tokens ps).length = n
  induction n generalizing ps with
  | zero => simp [List.eq_nil_of_length_eq_zero hn] at hx
  | succ n ih =>
    obtain ⟨ht, -⟩ | ⟨k, w, ps', ht, -, hs, -⟩ | ⟨w, ps', ht, hw, -, hs, -⟩ := gettoken_cases h0
    · simp [ht] at hn
    · rw [ht] at hx hn
      exact ih (not_mem_of_suffix h0 hs) (by simpa using hx) (by simpa using hn)
    · rw [ht] at hx hn
      rcases List.mem_cons.mp hx with h | h
      · cases h; exact hw.word
      · exact ih (not_mem_of_suffix h0 hs) h (by simpa using hn)

/-! ### Places in the line -/

/-- The parser is in the line `s`, in front of the tokens `T`. -/
structure At (s : Ptr) (T : List Token) (ps : Ptr) : Prop where
  nonzero : 0 ∉ s
  reached : Reached s ps
  suffix : ps <:+ s
  tokens : tokens ps = T

/-- A symbol that begins with one of the characters. -/
def starts (toks : List UInt8) : List Token → Bool
  | .sym k :: _ => k.char ∈ toks
  | _ => false

namespace At

variable {T : List Token} {k : Sym} {x : List UInt8} {E : Halt → Ptr → Prop}

theorem not_mem (h : At s T ps) : 0 ∉ ps := not_mem_of_suffix h.nonzero h.suffix

theorem skip (h : At s T ps) : At s T (skip ps) :=
  ⟨h.nonzero, h.reached.skip, (skip_suffix ps).trans h.suffix,
    (tokens_skip h.not_mem).trans h.tokens⟩

theorem skip_eq_nil (h : At s T ps) : Sh.skip ps = [] ↔ T = [] := by
  rw [← h.tokens]
  obtain ⟨ht, hs, -⟩ | ⟨k, w, ps', ht, hh, -⟩ | ⟨w, ps', ht, hw, hq, -⟩ := gettoken_cases h.not_mem
  · simp [ht, hs]
  · have : Sh.skip ps ≠ [] := fun h' => by simp [h'] at hh
    simp [ht, this]
  · have : w.q ≠ [] := by rw [hw.split]; simp [hw.word.1]
    rw [← hq]; simp [ht, this]

/-- **`peek`** looks at the next token. -/
theorem wp_peek {toks : List UInt8} {Q : Bool → Ptr → Prop} (h : At s T ps) (ht : toks ⊆ symbols)
    (hQ : ∀ ps', At s T ps' → Q (starts toks T) ps') : Wp (peek toks) ps Q E := by
  have hval : ((Sh.skip ps).head?.any fun c => c ≠ 0 ∧ c ∈ toks) = starts toks T := by
    rw [← h.tokens]
    obtain ⟨ht', hs, -⟩ | ⟨k, w, ps', ht', hh, -⟩ | ⟨w, ps', ht', hw, hq, -⟩ :=
      gettoken_cases h.not_mem
    · simp [ht', hs, starts]
    · have : k.char ≠ 0 := by cases k <;> decide
      simp [ht', hh, starts, this]
    · obtain ⟨c, x, hx⟩ := List.exists_cons_of_ne_nil hw.word.1
      have hc : isWord c := (hw.word.2 c (by simp [hx])).2
      have : c ∉ toks := fun hm => by simp [isWord, ht hm] at hc
      simp [ht', ← hq, hw.split, hx, starts, this]
  have := hQ _ h.skip
  rw [← hval] at this
  exact this

/-- A branch on the next token. -/
theorem wp_if_peek {α : Type} {x y : P α} {toks : List UInt8} {Q : α → Ptr → Prop} (h : At s T ps)
    (ht : toks ⊆ symbols) (hx : starts toks T = true → ∀ ps', At s T ps' → Wp x ps' Q E)
    (hy : starts toks T = false → ∀ ps', At s T ps' → Wp y ps' Q E) :
    Wp (peek toks >>= fun b => if b = true then x else y) ps Q E := by
  rw [wp_bind]
  refine h.wp_peek ht fun ps' h' => wp_ite.mpr ⟨fun hst => hx hst ps' h', fun hst => ?_⟩
  exact hy (Bool.eq_false_iff.mpr hst) ps' h'

/-- **`gettoken`** at a symbol. -/
theorem wp_gettoken_sym {Q : Ret × Span → Ptr → Prop} (h : At s (.sym k :: T) ps)
    (hQ : ∀ w ps', At s T ps' → Q (.sym k, w) ps') : Wp gettoken ps Q E := by
  have htok := h.tokens
  obtain ⟨ht, -⟩ | ⟨k', w, ps', ht, -, hs, hg⟩ | ⟨w, ps', ht, -⟩ := gettoken_cases h.not_mem
  · simp [ht] at htok
  · rw [ht] at htok
    injection htok with hk hT
    cases hk
    exact (Wp.of_ok hg).mpr (hQ _ _ ⟨h.nonzero, h.reached.next hg, hs.trans h.suffix, hT⟩)
  · simp [ht] at htok

/-- **`gettoken`** at a word. -/
theorem wp_gettoken_word {Q : Ret × Span → Ptr → Prop} (h : At s (.word x :: T) ps)
    (hQ : ∀ w ps', w.Valid s → w.text = x → At s T ps' → Q (.word, w) ps') :
    Wp gettoken ps Q E := by
  have htok := h.tokens
  obtain ⟨ht, -⟩ | ⟨k', w, ps', ht, -⟩ | ⟨w, ps', ht, hw, -, hs, hg⟩ := gettoken_cases h.not_mem
  · simp [ht] at htok
  · simp [ht] at htok
  · rw [ht] at htok
    injection htok with hx hT
    have hv : w.Valid s := ⟨hw.mono h.suffix, ps, ps', h.reached, hg⟩
    exact (Wp.of_ok hg).mpr (hQ _ _ hv (by simpa using hx)
      ⟨h.nonzero, h.reached.next hg, hs.trans h.suffix, hT⟩)

/-- **`gettoken`** at the end of the line. -/
theorem wp_gettoken_nil {Q : Ret × Span → Ptr → Prop} (h : At s [] ps)
    (hQ : ∀ w ps', At s [] ps' → Q (.zero, w) ps') : Wp gettoken ps Q E := by
  have htok := h.tokens
  obtain ⟨-, hs, w, hg⟩ | ⟨k', w, ps', ht, -⟩ | ⟨w, ps', ht, -⟩ := gettoken_cases h.not_mem
  · exact (Wp.of_ok hg).mpr (hQ _ _ (hs ▸ h.skip))
  · simp [ht] at htok
  · simp [ht] at htok

/-- **`gettoken`**, at what is there. -/
theorem wp_gettoken {Q : Ret × Span → Ptr → Prop} (h : At s T ps)
    (hnil : ∀ w ps', T = [] → At s [] ps' → Q (.zero, w) ps')
    (hsym : ∀ k T' w ps', T = .sym k :: T' → At s T' ps' → Q (.sym k, w) ps')
    (hword : ∀ T' w ps', T = .word w.text :: T' → w.Valid s → At s T' ps' → Q (.word, w) ps') :
    Wp gettoken ps Q E := by
  match T with
  | [] => exact h.wp_gettoken_nil fun w ps' => hnil w ps' rfl
  | .sym k :: T => exact h.wp_gettoken_sym fun w ps' => hsym k T w ps' rfl
  | .word x :: T =>
    exact h.wp_gettoken_word fun w ps' hw hx => hword T w ps' (by rw [hx]) hw

end At

end Sh

end Xv6
