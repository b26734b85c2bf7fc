import Xv6.Sh.Grammar

/-!
# Parsing and printing commands

`parsecmd` returns the command of a line if the tokens of the line derive from the grammar, and
stops with a message otherwise. A command that it returns can be printed so that it is parsed again
to the same command: parentheses go around what is too weak for its place.

## Main definitions

* `Cmd.sentence`, `print` — a command as tokens, and as text

## Main results

* `parsecmd_correct`
-/

namespace Xv6

namespace Sh

variable {s ps : Ptr} {T : List Token}

/-! ### Strings -/

theorem eq_of_suffix_of_length_eq {l l' : Ptr} (h : l <:+ s) (h' : l' <:+ s)
    (hlen : l.length = l'.length) : l = l' :=
  (List.suffix_of_suffix_length_le h h' hlen.le).eq_of_length hlen

/-- A string ends at the first `NUL`. -/
theorem cstring_append {z : List ℕ} {x eq : Ptr} (h0 : ∀ c ∈ x, c ≠ 0) (heq : eq.length ∈ z)
    (hz : ∀ b, b <:+ x → b ≠ [] → (b ++ eq).length ∉ z) : cstring z (x ++ eq) = x := by
  induction x with
  | nil =>
    cases eq with
    | nil => rfl
    | cons c eq => simp only [List.nil_append, cstring, if_pos (Or.inr heq)]
  | cons c x ih =>
    have hc : ¬(c = 0 ∨ (c :: (x ++ eq)).length ∈ z) := by
      rintro (h | h)
      · exact h0 c (by simp) h
      · exact hz _ List.suffix_rfl (by simp) h
    rw [List.cons_append, cstring, if_neg hc, ih (fun d hd => h0 d (by simp [hd]))
      fun b hb hne => hz b (hb.trans (List.suffix_cons c x)) hne]

/-- **`nulterminate`** ends every word where it ends in the line, and none before. -/
theorem cstring_nulterminate {c : Cmd Span} {w : Span} (h : c.Valid s) (hw : w ∈ c.words) :
    cstring (nulterminate c) w.q = w.text := by
  have hv := h w hw
  rw [hv.split]
  refine cstring_append (fun d hd => (hv.word.2 d hd).1) (List.mem_map_of_mem hw) ?_
  intro b hb hne hmem
  obtain ⟨w', hw', hlen⟩ := List.mem_map.mp hmem
  have hv' := h w' hw'
  -- the word `w'` would end inside `w`
  have hsuf : b ++ w.eq <:+ s := by
    obtain ⟨a, ha⟩ := hb
    refine List.IsSuffix.trans ⟨a, ?_⟩ hv.suffix
    rw [← List.append_assoc, ha, ← hv.split]
  have hsuf' : w'.eq <:+ s := (hv'.split ▸ List.suffix_append _ _ : w'.eq <:+ w'.q).trans hv'.suffix
  obtain ⟨d, b, rfl⟩ := List.exists_cons_of_ne_nil hne
  have heq := eq_of_suffix_of_length_eq hsuf' hsuf hlen
  exact hv'.stop d (by simp [heq]) (hv.word.2 d (hb.subset (by simp))).2

theorem Cmd.map_congr {α β : Type} {f g : α → β} (c : Cmd α) (h : ∀ w ∈ c.words, f w = g w) :
    c.map f = c.map g := by
  induction c with
  | exec argv => simpa [Cmd.map, Cmd.words] using h
  | redir c file mode fd ih =>
    simp only [Cmd.words, List.mem_append, List.mem_singleton] at h
    rw [Cmd.map, Cmd.map, ih fun w hw => h w (.inl hw), h file (.inr rfl)]
  | pipe l r ihl ihr =>
    simp only [Cmd.words, List.mem_append] at h
    rw [Cmd.map, Cmd.map, ihl fun w hw => h w (.inl hw), ihr fun w hw => h w (.inr hw)]
  | list l r ihl ihr =>
    simp only [Cmd.words, List.mem_append] at h
    rw [Cmd.map, Cmd.map, ihl fun w hw => h w (.inl hw), ihr fun w hw => h w (.inr hw)]
  | back c ih => rw [Cmd.map, Cmd.map, ih h]

theorem map_cstring {c : Cmd Span} (h : c.Valid s) :
    (c.map fun w => cstring (nulterminate c) w.q) = c.text :=
  c.map_congr fun _ hw => cstring_nulterminate h hw

/-! ### `parsecmd` -/

theorem wp_peek_nil {Q : Bool → Ptr → Prop} {E : Halt → Ptr → Prop} (h : Q false (skip ps)) :
    Wp (peek []) ps Q E := by
  have hval : ((skip ps).head?.any fun c => c ≠ 0 ∧ c ∈ ([] : List UInt8)) = false := by simp
  rw [← hval] at h
  exact h

/-- What follows `parseline` in `parsecmd`. -/
theorem wp_parseall {n : ℕ} {Q : Cmd Span → Ptr → Prop} {Q' : Cmd Word → Prop} {E : Halt → Prop}
    (h : Wp (parseline n) ps Q fun e _ => E e)
    (hend : ∀ c ps', Q c ps' → ∃ T, At s T ps' ∧ c.Valid s ∧ (T ≠ [] → E (.panic .leftovers)) ∧
      (T = [] → Q' c.text)) :
    Wp (parseall n) ps (fun t _ => Q' t) fun e _ => E e := by
  refine h.bind ?_ fun _ _ h => h
  intro c ps' hQ
  obtain ⟨T, hT, hc, hne, hnil⟩ := hend c ps' hQ
  rw [wp_bind]
  refine wp_peek_nil ?_
  rw [wp_bind, wp_get]
  refine wp_ite.mpr ⟨fun hps => ?_, fun hps => ?_⟩
  · exact hne fun h => hps (hT.skip_eq_nil.mpr h)
  · rw [wp_pure, map_cstring hc]
    exact hnil (hT.skip_eq_nil.mp (not_not.mp hps))

theorem atStart (h0 : 0 ∉ s) : At s (tokens s) s := ⟨h0, .start, List.suffix_rfl, rfl⟩

/-- What `parsecmd` returns is derived, and it does not run for ever. -/
theorem parseall_sound (n : ℕ) (h0 : 0 ∉ s) :
    Wp (parseall n) s (fun t _ => Derives .line (tokens s) t)
      fun e _ => e = .diverged → n < 4 * s.length + 4 := by
  have hlen := length_tokens_le s
  refine wp_parseall (s := s) (((sound s n).parse .line _ s (atStart h0)).mono
    (fun _ _ h => h) fun e _ he hd => ?_) ?_
  · exact (he hd).trans_le (by simp only [Nonterminal.rank]; omega)
  · rintro c ps' ⟨T₁, T₂, hT, h₂, hc, hder⟩
    refine ⟨T₂, h₂, hc, fun _ => (by rintro ⟨⟩), fun hnil => ?_⟩
    rwa [hT, hnil, List.append_nil]

/-- What is derived is what `parsecmd` returns. -/
theorem parseall_complete {t : Cmd Word} (n : ℕ) (h0 : 0 ∉ s) (h : Derives .line (tokens s) t) :
    Wp (parseall n) s (fun t' _ => t' = t) fun e _ => e = .diverged := by
  have hat : At s (tokens s ++ []) s := by simpa using atStart h0
  have hacc := (complete h n [] s rfl hat).and ((sound s n).parse .line _ s (atStart h0))
  refine wp_parseall (s := s) (hacc.mono (fun _ _ h => h) fun e _ he => he.1) ?_
  rintro c ps' ⟨⟨h', rfl⟩, T₁, T₂, -, -, hc, -⟩
  exact ⟨[], h', hc, fun h => absurd rfl h, fun _ => rfl⟩

/-! ### The buffer -/

/-- The line with `NUL`s written at the positions `z`, counted from its end. -/
def written (z : List ℕ) : Ptr → Ptr
  | [] => []
  | c :: s => (if (c :: s).length ∈ z then 0 else c) :: written z s

theorem cstring_eq (z : List ℕ) (q : Ptr) : cstring z q = (written z q).takeWhile (· ≠ 0) := by
  induction q with
  | nil => rfl
  | cons c q ih =>
    rw [cstring, written, List.takeWhile_cons, ih]
    by_cases hz : (c :: q).length ∈ z
    · rw [if_pos (Or.inr hz), if_pos hz]
      rfl
    · rw [if_neg hz]
      by_cases hc : c = 0
      · rw [if_pos (Or.inl hc), hc]
        rfl
      · rw [if_neg (not_or.mpr ⟨hc, hz⟩)]
        simp [hc]

theorem drop_written (z : List ℕ) {q : Ptr} (h : q <:+ s) :
    (written z s).drop (s.length - q.length) = written z q := by
  obtain ⟨a, rfl⟩ := h
  rw [List.length_append, Nat.add_sub_cancel]
  induction a with
  | nil => rfl
  | cons c a ih => exact ih

/-- **The words after `nulterminate`.** Every word of an accepted command is a word that `gettoken`
has found in the line, and in the buffer with all `NUL`s written the string at its pointer is the
text of that word. -/
theorem nulterminate_correct {n : ℕ} {t : Cmd Word} (h0 : 0 ∉ s) (h : parsecmd n s = .ok t) :
    ∃ cmd ps, parseline n s = .ok cmd ps ∧
      t = cmd.map (fun w => cstring (nulterminate cmd) w.q) ∧
      ∀ w ∈ cmd.words, (∃ p p', Reached s p ∧ gettoken p = .ok (.word, w) p') ∧
        w.q = w.text ++ w.eq ∧
        ((written (nulterminate cmd) s).drop (s.length - w.q.length)).takeWhile (· ≠ 0) =
          w.text := by
  have hsound : Wp (parseline n) s (Parsed s .line (tokens s)) _ :=
    (sound s n).parse .line _ s (atStart h0)
  cases hx : parseline n s with
  | error e ps =>
    have hline : Wp (parseline n) s (fun _ _ => False) fun _ _ => True :=
      (Wp.of_error hx).mpr trivial
    have hall : Wp (parseall n) s (fun _ _ => False) fun _ _ => True :=
      hline.bind (fun _ _ h => h.elim) fun _ _ _ => trivial
    unfold parsecmd at h
    split at h
    · rename_i hy
      exact ((Wp.of_ok hy).mp hall).elim
    · cases h
  | ok cmd ps =>
    obtain ⟨T₁, T₂, -, -, hvalid, -⟩ := (Wp.of_ok hx).mp hsound
    have hline : Wp (parseline n) s (fun c p => c = cmd) fun _ _ => False := (Wp.of_ok hx).mpr rfl
    have hall : Wp (parseall n) s (fun t _ => t = cmd.map fun w => cstring (nulterminate cmd) w.q)
        fun _ _ => True := by
      refine hline.bind ?_ fun _ _ h => h.elim
      rintro _ ps' rfl
      rw [wp_bind]
      refine wp_peek_nil ?_
      rw [wp_bind, wp_get]
      exact wp_ite.mpr ⟨fun _ => trivial, fun _ => rfl⟩
    refine ⟨cmd, ps, rfl, ?_, fun w hw => ⟨(hvalid w hw).lexed, (hvalid w hw).split, ?_⟩⟩
    · unfold parsecmd at h
      split at h
      · rename_i hy
        cases h
        exact (Wp.of_ok hy).mp hall
      · cases h
    · rw [drop_written _ (hvalid w hw).suffix, ← cstring_eq]
      exact cstring_nulterminate hvalid hw

/-- The line `a>b;c|d`, where a symbol is all that is between two words. -/
theorem nulterminate_correct_line :
    let s : Ptr := [97, 62, 98, 59, 99, 124, 100]
    let t : Cmd Word := .list (.redir (.exec [[97]]) [98] 0x201 1)
      (.pipe (.exec [[99]]) (.exec [[100]]))
    ∃ cmd ps, parseline 100 s = .ok cmd ps ∧
      t = cmd.map (fun w => cstring (nulterminate cmd) w.q) ∧
      ∀ w ∈ cmd.words,
        ((written (nulterminate cmd) s).drop (s.length - w.q.length)).takeWhile (· ≠ 0) =
          w.text := by
  intro s t
  have hok : parsecmd 100 s = .ok t := by decide +kernel
  obtain ⟨cmd, ps, hline, ht, hwords⟩ := nulterminate_correct (by decide) hok
  exact ⟨cmd, ps, hline, ht, fun w hw => (hwords w hw).2.2⟩

/-! ### Printing -/

/-- How weakly the parts of a command hang together. -/
def Cmd.level : Cmd Word → ℕ
  | .exec _ | .redir .. => 0
  | .pipe .. => 1
  | .back _ => 2
  | .list .. => 3

/-- A sentence of level `l` in a place for level `k`. -/
def fit (k l : ℕ) (T : List Token) : List Token :=
  if l ≤ k then T else .sym .lparen :: T ++ [.sym .rparen]

/-- The tokens of a command. -/
def Cmd.sentence : Cmd Word → List Token
  | .exec argv => argv.map .word
  | .redir cmd file mode _ =>
    fit 0 cmd.level cmd.sentence ++
      [.sym (if mode = O_RDONLY then .lt else .gt), .word file]
  | .pipe left right =>
    fit 0 left.level left.sentence ++ .sym .bar :: fit 1 right.level right.sentence
  | .back cmd => fit 2 cmd.level cmd.sentence ++ [.sym .amp]
  | .list left right =>
    fit 2 left.level left.sentence ++ .sym .semi :: fit 3 right.level right.sentence

/-- The characters of a token. -/
def Token.text : Token → List UInt8
  | .sym k => k.text
  | .word w => w

/-- The tokens with a blank behind each. -/
def spaced (T : List Token) : Ptr := T.flatMap fun t => t.text ++ [32]

/-- A command as text. -/
def print (c : Cmd Word) : Ptr := spaced c.sentence

theorem spaced_nonzero (hT : ∀ w, .word w ∈ T → IsWord w) : 0 ∉ spaced T := by
  intro h
  obtain ⟨t, ht, h0⟩ := List.mem_flatMap.mp h
  rcases List.mem_append.mp h0 with h0 | h0
  · cases t with
    | sym k => cases k <;> revert h0 <;> decide
    | word w => exact ((hT w ht).2 0 h0).1 rfl
  · revert h0; decide

/-- What `gettoken` returns at a token. -/
def Token.ret : Token → Ret
  | .sym k => .sym k
  | .word _ => .word

theorem emit_text (t : Token) (eq : Ptr) (T : List Token) :
    emit (t.ret, ⟨t.text ++ eq, eq⟩) T = t :: T := by
  cases t with
  | sym k => rfl
  | word w => simp [Token.ret, Token.text, emit, Span.text]

section

variable {t : Token} (ht : ∀ w, t = .word w → IsWord w)
include ht

theorem scanned_text (rest : Ptr) : Scanned (t.text ++ 32 :: rest) t.ret (32 :: rest) := by
  cases t with
  | sym k => exact .sym k _ fun _ => by simp
  | word w =>
    have hblank : ∀ c ∈ (32 :: rest).head?, ¬isWord c := by simp [isWord, whitespace]
    exact .word w _ (ht w rfl).1 (fun c hc => ((ht w rfl).2 c hc).2) hblank

theorem skip_text (rest : Ptr) : skip (t.text ++ rest) = t.text ++ rest := by
  refine skip_of_head fun c hc => ?_
  cases t with
  | sym k => cases k <;> cases hc <;> decide
  | word w =>
    obtain ⟨d, w, rfl⟩ := List.exists_cons_of_ne_nil (ht w rfl).1
    cases hc
    have := ((ht _ rfl).2 c (by simp)).2
    simp only [isWord, decide_eq_true_eq] at this
    exact this.1

end

/-- **The tokens of a printed sentence** are those that were printed. -/
theorem tokens_spaced (hT : ∀ w, .word w ∈ T → IsWord w) : tokens (spaced T) = T := by
  induction T with
  | nil => rfl
  | cons t T ih =>
    have ht : ∀ w, t = .word w → IsWord w := fun w h => hT w (by simp [h])
    have hT' : ∀ w, .word w ∈ T → IsWord w := fun w h => hT w (by simp [h])
    have hsplit : spaced (t :: T) = t.text ++ 32 :: spaced T := by simp [spaced]
    have h0 := spaced_nonzero hT
    have hblank : skip (32 :: spaced T) = skip (spaced T) := rfl
    rw [tokens_eq h0]
    rw [hsplit] at h0 ⊢
    rw [skip_text ht, (scanned_text ht _).scan_eq h0]
    dsimp only
    rw [emit_text, hblank, tokens_skip (spaced_nonzero hT'), ih hT']

/-! ### The commands of the grammar -/

namespace Cmd

/-- What commands the parser can build. -/
def WellFormed : Cmd Word → Prop
  | .exec argv => argv.length ≤ 9
  | .redir cmd _ mode fd =>
    cmd.WellFormed ∧ (mode = O_RDONLY ∧ fd = 0 ∨ mode = O_WRONLY ||| O_CREATE ∧ fd = 1)
  | .pipe left right | .list left right => left.WellFormed ∧ right.WellFormed
  | .back cmd => cmd.WellFormed

end Cmd

theorem wellFormed_redirs {c : Cmd Word} (rs : List Redir) (h : c.WellFormed) :
    (rs.foldl Redir.wrap c).WellFormed := by
  induction rs generalizing c with
  | nil => exact h
  | cons r rs ih =>
    refine ih ?_
    unfold Redir.wrap
    split <;> simp [Cmd.WellFormed, h]

theorem wellFormed_backs {c : Cmd Word} (m : ℕ) (h : c.WellFormed) :
    (Cmd.back^[m] c).WellFormed := by
  induction m generalizing c with
  | zero => exact h
  | succ m ih => exact @ih (.back c) h

theorem Derives.wellFormed {k : Nonterminal} {c : Cmd Word} (h : Derives k T c) :
    c.WellFormed := by
  induction h with
  | line m _ ih => exact wellFormed_backs m ih
  | list m _ _ ih ih' => exact ⟨wellFormed_backs m ih, ih'⟩
  | exec _ ih => exact ih
  | pipe _ _ ih ih' => exact ⟨ih, ih'⟩
  | block rs _ ih => exact wellFormed_redirs rs ih
  | simple rs as hlen => exact wellFormed_redirs _ (by simpa [Cmd.WellFormed] using hlen)

theorem words_redirs (rs : List Redir) (c : Cmd Word) :
    (rs.foldl Redir.wrap c).words = c.words ++ rs.map Redir.file := by
  induction rs generalizing c with
  | nil => simp
  | cons r rs ih =>
    have : (Redir.wrap c r).words = c.words ++ [r.file] := by
      unfold Redir.wrap
      split <;> rfl
    simp [ih, this]

theorem mem_redirTokens {rs : List Redir} {w : Word} (h : w ∈ rs.map Redir.file) :
    .word w ∈ redirTokens rs := by
  obtain ⟨r, hr, rfl⟩ := List.mem_map.mp h
  exact List.mem_flatMap.mpr ⟨r, hr, by simp [Redir.tokens]⟩

/-- The words of a command come from its tokens. -/
theorem Derives.mem_of_words {k : Nonterminal} {c : Cmd Word} {w : Word} (h : Derives k T c)
    (hw : w ∈ c.words) : .word w ∈ T := by
  induction h with
  | line m _ ih =>
    rw [words_back] at hw
    exact List.mem_append_left _ (ih hw)
  | list m _ _ ih ih' =>
    rw [Cmd.words, words_back] at hw
    rcases List.mem_append.mp hw with hw | hw
    · exact List.mem_append_left _ (List.mem_append_left _ (ih hw))
    · exact List.mem_append_right _ (List.mem_cons_of_mem _ (ih' hw))
  | exec _ ih => exact ih hw
  | pipe _ _ ih ih' =>
    rcases List.mem_append.mp hw with hw | hw
    · exact List.mem_append_left _ (ih hw)
    · exact List.mem_append_right _ (List.mem_cons_of_mem _ (ih' hw))
  | block rs _ ih =>
    rw [words_redirs] at hw
    rcases List.mem_append.mp hw with hw | hw
    · exact List.mem_append_left _ (List.mem_cons_of_mem _ (ih hw))
    · exact List.mem_append_right _ (List.mem_cons_of_mem _ (mem_redirTokens hw))
  | simple rs as =>
    rw [simpleCmd, words_redirs, List.map_append] at hw
    simp only [List.mem_append, Cmd.words] at hw
    rcases hw with hw | hw | hw
    · obtain ⟨a, ha, rfl⟩ := List.mem_map.mp hw
      exact List.mem_append_right _ (List.mem_flatMap.mpr ⟨a, ha, List.mem_cons_self⟩)
    · exact List.mem_append_left _ (mem_redirTokens hw)
    · obtain ⟨r, hr, rfl⟩ := List.mem_map.mp hw
      obtain ⟨a, ha, hra⟩ := List.mem_flatMap.mp hr
      have := mem_redirTokens (List.mem_map_of_mem hra)
      exact List.mem_append_right _ (List.mem_flatMap.mpr ⟨a, ha, List.mem_cons_of_mem _ this⟩)

theorem mem_of_mem_fit {k l : ℕ} {w : Word} (h : .word w ∈ fit k l T) : .word w ∈ T := by
  unfold fit at h
  split at h <;> simpa using h

/-- The words of the printed sentence are those of the command. -/
theorem Cmd.mem_words_of_sentence {c : Cmd Word} {w : Word} (h : .word w ∈ c.sentence) :
    w ∈ c.words := by
  induction c with
  | exec argv => simpa [Cmd.sentence, Cmd.words] using h
  | redir c file mode fd ih =>
    rcases List.mem_append.mp h with h | h
    · exact List.mem_append_left _ (ih (mem_of_mem_fit h))
    · exact List.mem_append_right _ (by simpa using h)
  | pipe l r ihl ihr =>
    simp only [Cmd.sentence, List.mem_append, List.mem_cons, reduceCtorEq, false_or] at h
    exact List.mem_append.mpr (h.imp (ihl ∘ mem_of_mem_fit) (ihr ∘ mem_of_mem_fit))
  | list l r ihl ihr =>
    simp only [Cmd.sentence, List.mem_append, List.mem_cons, reduceCtorEq, false_or] at h
    exact List.mem_append.mpr (h.imp (ihl ∘ mem_of_mem_fit) (ihr ∘ mem_of_mem_fit))
  | back c ih =>
    simp only [Cmd.sentence, List.mem_append, List.mem_singleton, reduceCtorEq, or_false] at h
    exact ih (mem_of_mem_fit h)

/-! ### The printed sentence derives the command -/

/-- `pipe '&'*`. -/
def Backs (T : List Token) (c : Cmd Word) : Prop :=
  ∃ m T' c', Derives .pipe T' c' ∧ T = T' ++ List.replicate m (.sym .amp) ∧ c = Cmd.back^[m] c'

/-- A sentence of a level. -/
inductive Sentence : ℕ → List Token → Cmd Word → Prop
  | exec {T c} (h : Derives .exec T c) : Sentence 0 T c
  | pipe {T c} (h : Derives .pipe T c) : Sentence 1 T c
  | back {T c} (h : Backs T c) : Sentence 2 T c
  | line {T c} (h : Derives .line T c) : Sentence 3 T c

namespace Sentence

variable {c : Cmd Word} {k l : ℕ}

theorem succ (h : Sentence k T c) (hk : k < 3) : Sentence (k + 1) T c := by
  cases h with
  | exec h => exact .pipe (.exec h)
  | pipe h => exact .back ⟨0, T, c, h, by simp, rfl⟩
  | back h =>
    obtain ⟨m, T', c', h, rfl, rfl⟩ := h
    exact .line (.line m h)
  | line h => omega

theorem mono (h : Sentence l T c) (hl : l ≤ k) (hk : k ≤ 3) : Sentence k T c := by
  induction k, hl using Nat.le_induction with
  | base => exact h
  | succ k _ ih => exact (ih (by omega)).succ (by omega)

theorem level_le (h : Sentence k T c) : k ≤ 3 := by
  cases h <;> decide

/-- Parentheses make a sentence fit any place. -/
theorem fit (h : Sentence l T c) (hk : k ≤ 3) : Sentence k (fit k l T) c := by
  unfold Sh.fit
  split
  · exact h.mono ‹_› hk
  · cases h.mono h.level_le le_rfl with
    | line h => exact (Sentence.exec (.block [] h)).mono (Nat.zero_le k) hk

end Sentence

/-- One more redirection. -/
theorem Derives.redir {c : Cmd Word} (h : Derives .exec T c) (r : Redir) :
    Derives .exec (T ++ r.tokens) (Redir.wrap c r) := by
  have happ : ∀ rs, redirTokens (rs ++ [r]) = redirTokens rs ++ r.tokens := by simp [redirTokens]
  cases h with
  | block rs h =>
    have := Derives.block (rs ++ [r]) h
    rw [happ, List.foldl_append] at this
    simpa using this
  | simple rs as hlen =>
    obtain rfl | ⟨as, a, rfl⟩ := List.eq_nil_or_concat' as
    · have := Derives.simple (rs ++ [r]) [] (Nat.zero_le _)
      rw [happ] at this
      simpa [simpleCmd, argTokens] using this
    · -- it belongs to the last word
      have := Derives.simple rs (as ++ [(a.1, a.2 ++ [r])]) (by simpa using hlen)
      simpa [simpleCmd, argTokens, happ] using this

/-- **The printed sentence** derives the command. -/
theorem Cmd.WellFormed.sentence {c : Cmd Word} (h : c.WellFormed) :
    Sentence c.level c.sentence c := by
  induction c with
  | exec argv =>
    have hlen : (argv.map fun w => (w, ([] : List Redir))).length ≤ 9 := by
      rw [List.length_map]
      exact h
    have htok : argTokens (argv.map fun w => (w, [])) = argv.map .word := by
      rw [argTokens, List.flatMap_map, List.map_eq_flatMap]
      rfl
    have hredir : (argv.map fun w => (w, ([] : List Redir))).flatMap Prod.snd = [] := by simp
    have hwords : (argv.map fun w => (w, ([] : List Redir))).map Prod.fst = argv := by
      simp [Function.comp_def]
    have hder := Derives.simple [] _ hlen
    rw [htok, hredir, hwords] at hder
    exact .exec hder
  | redir c file mode fd ih =>
    obtain ⟨hc, hmode⟩ := h
    cases (ih hc).fit (k := 0) (by decide) with
    | exec h =>
      obtain ⟨rfl, rfl⟩ | ⟨rfl, rfl⟩ := hmode
      · exact .exec (h.redir ⟨.lt, file⟩)
      · exact .exec (h.redir ⟨.gt, file⟩)
  | pipe l r ihl ihr =>
    cases (ihl h.1).fit (k := 0) (by decide) with
    | exec hl =>
      cases (ihr h.2).fit (k := 1) (by decide) with
      | pipe hr => exact .pipe (.pipe hl hr)
  | list l r ihl ihr =>
    cases (ihl h.1).fit (k := 2) (by decide) with
    | back hl =>
      cases (ihr h.2).fit (k := 3) (by decide) with
      | line hr =>
        obtain ⟨m, T', c', hl, hT, hc⟩ := hl
        have := Derives.list m hl hr
        rw [← hT, ← hc] at this
        exact .line this
  | back c ih =>
    cases (ih h).fit (k := 2) (by decide) with
    | back hb =>
      obtain ⟨m, T', c', hp, hT, rfl⟩ := hb
      refine .back ⟨m + 1, T', c', hp, ?_, (Function.iterate_succ_apply' _ _ _).symm⟩
      rw [Cmd.sentence, hT, List.append_assoc, ← List.replicate_succ']

/-! ### Correctness -/

theorem parsecmd_ok_iff {n : ℕ} {t : Cmd Word} (h0 : 0 ∉ s) (hn : 4 * s.length + 4 ≤ n) :
    parsecmd n s = .ok t ↔ Derives .line (tokens s) t := by
  have hsound := parseall_sound n h0
  constructor
  · intro h
    unfold parsecmd at h
    split at h
    · rename_i hx
      cases h
      exact (Wp.of_ok hx).mp hsound
    · cases h
  · intro h
    have hcomplete := hsound.and (parseall_complete n h0 h)
    unfold parsecmd
    split
    · rename_i hx
      rw [((Wp.of_ok hx).mp hcomplete).2]
    · rename_i hx
      obtain ⟨hlt, rfl⟩ := (Wp.of_error hx).mp hcomplete
      exact absurd (hlt rfl) (Nat.not_lt.mpr hn)

theorem parsecmd_panics {n : ℕ} (h0 : 0 ∉ s) (hn : 4 * s.length + 4 ≤ n)
    (h : ¬∃ t, Derives .line (tokens s) t) : ∃ p, parsecmd n s = .error (.panic p) := by
  have hsound := parseall_sound n h0
  unfold parsecmd
  split
  · rename_i t _ hx
    exact absurd ⟨t, (Wp.of_ok hx).mp hsound⟩ h
  · rename_i e _ hx
    cases e with
    | panic p => exact ⟨p, rfl⟩
    | diverged => exact absurd ((Wp.of_error hx).mp hsound rfl) (Nat.not_lt.mpr hn)

theorem derives_print {t : Cmd Word} (h0 : 0 ∉ s) (h : Derives .line (tokens s) t) :
    0 ∉ print t ∧ Derives .line (tokens (print t)) t := by
  have hwords : ∀ w, .word w ∈ t.sentence → IsWord w := fun w hw =>
    isWord_of_mem_tokens h0 (h.mem_of_words (Cmd.mem_words_of_sentence hw))
  refine ⟨spaced_nonzero hwords, ?_⟩
  rw [print, tokens_spaced hwords]
  cases h.wellFormed.sentence.mono h.wellFormed.sentence.level_le le_rfl with
  | line h => exact h

/-- **The parser of the shell** returns a command just for the lines of the grammar, namely the
command that the grammar gives them, and stops with a message otherwise. It comes to an end, if only
its calls may nest deeply enough. What it has returned it returns again for the printed command. -/
theorem parsecmd_correct {n : ℕ} (h0 : 0 ∉ s) (hn : 4 * s.length + 4 ≤ n) :
    (∀ t, parsecmd n s = .ok t ↔ Derives .line (tokens s) t) ∧
    ((¬∃ t, Derives .line (tokens s) t) → ∃ p, parsecmd n s = .error (.panic p)) ∧
    ∀ t, parsecmd n s = .ok t → ∀ m, 4 * (print t).length + 4 ≤ m →
      parsecmd m (print t) = .ok t := by
  refine ⟨fun t => parsecmd_ok_iff h0 hn, parsecmd_panics h0 hn, fun t ht m hm => ?_⟩
  obtain ⟨h0', hder⟩ := derives_print h0 ((parsecmd_ok_iff h0 hn).mp ht)
  exact (parsecmd_ok_iff h0' hm).mpr hder

/-- The line `(a > f; b) < g | c &`. -/
theorem parsecmd_correct_line :
    let s : Ptr := [40, 97, 32, 62, 32, 102, 59, 32, 98, 41, 60, 103, 124, 99, 32, 38]
    let t : Cmd Word := .back (.pipe (.redir (.list (.redir (.exec [[97]]) [102] 0x201 1)
      (.exec [[98]])) [103] 0 0) (.exec [[99]]))
    0 ∉ s ∧ parsecmd 100 s = .ok t ∧ Derives .line (tokens s) t ∧
    parsecmd 200 (print t) = .ok t := by
  intro s t
  have h0 : 0 ∉ s := by decide
  have hok : parsecmd 100 s = .ok t := by decide +kernel
  obtain ⟨hiff, -, hprint⟩ := parsecmd_correct (n := 100) h0 (by decide)
  exact ⟨h0, hok, (hiff t).mp hok, hprint t hok 200 (by decide +kernel)⟩

end Sh

end Xv6
