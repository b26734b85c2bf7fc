import Xv6.Sh.Tokens

/-!
# The grammar of commands

The language that `parsecmd` accepts, and the command that each of its sentences stands for:

    line  ::= pipe '&'* [';' line]
    pipe  ::= exec ['|' pipe]
    exec  ::= '(' line ')' redir*
            | redir* (word redir*)*        with fewer than MAXARGS words
    redir ::= ('<' | '>' | '>>') word

The parser is sound: what it returns is the command of the tokens that it has consumed, and it comes
to an end if it may nest its calls four times as deep as there are tokens. It is complete: in front
of a sentence, and of something that cannot continue it, it consumes just the sentence.

## Main definitions

* `Derives` — the grammar

## Main results

* `sound` — what the parser returns is derived
* `complete` — what is derived is what the parser returns
-/

namespace Xv6

namespace Sh

variable {s ps : Ptr} {T : List Token}

abbrev Word := List UInt8

/-! ### The grammar -/

/-- `'<'`, `'>'` and `'>>'`. -/
inductive Op
  | lt | gt | gtgt
  deriving DecidableEq, Repr

def Op.sym : Op → Sym
  | .lt => .lt
  | .gt => .gt
  | .gtgt => .gtgt

/-- `redir`. -/
structure Redir where
  op : Op
  file : Word

namespace Redir

def tokens (r : Redir) : List Token := [.sym r.op.sym, .word r.file]

/-- The redirection around a command. -/
def wrap (c : Cmd Word) (r : Redir) : Cmd Word :=
  match r.op with
  | .lt => .redir c r.file O_RDONLY 0
  | .gt | .gtgt => .redir c r.file (O_WRONLY ||| O_CREATE) 1

end Redir

/-- `redir*`. -/
def redirTokens (rs : List Redir) : List Token := rs.flatMap Redir.tokens

/-- `(word redir*)*`. -/
def argTokens (as : List (Word × List Redir)) : List Token :=
  as.flatMap fun a => .word a.1 :: redirTokens a.2

/-- The command of words and redirections: all words go to the `execcmd`. -/
def simpleCmd (rs : List Redir) (ws : List Word) : Cmd Word := rs.foldl Redir.wrap (.exec ws)

inductive Nonterminal
  | line | pipe | exec
  deriving DecidableEq, Repr

/-- A sequence of tokens derives from a nonterminal, and stands for a command. -/
inductive Derives : Nonterminal → List Token → Cmd Word → Prop
  | line {T c} (n : ℕ) (h : Derives .pipe T c) :
    Derives .line (T ++ List.replicate n (Token.sym .amp)) (Cmd.back^[n] c)
  | list {T T' c c'} (n : ℕ) (h : Derives .pipe T c) (h' : Derives .line T' c') :
    Derives .line (T ++ List.replicate n (Token.sym .amp) ++ .sym .semi :: T')
      (.list (Cmd.back^[n] c) c')
  | exec {T c} (h : Derives .exec T c) : Derives .pipe T c
  | pipe {T T' c c'} (h : Derives .exec T c) (h' : Derives .pipe T' c') :
    Derives .pipe (T ++ .sym .bar :: T') (.pipe c c')
  | block {T c} (rs : List Redir) (h : Derives .line T c) :
    Derives .exec (.sym .lparen :: T ++ .sym .rparen :: redirTokens rs) (rs.foldl Redir.wrap c)
  | simple (rs : List Redir) (as : List (Word × List Redir)) (h : as.length ≤ 9) :
    Derives .exec (redirTokens rs ++ argTokens as)
      (simpleCmd (rs ++ as.flatMap Prod.snd) (as.map Prod.fst))

/-! ### Commands with pointers -/

namespace Cmd

/-- The words that the pointers of a command stand for. -/
def text (c : Cmd Span) : Cmd Word := c.map Span.text

/-- All pointers are into the line `s`. -/
def Valid (s : Ptr) (c : Cmd Span) : Prop := ∀ w ∈ c.words, w.Valid s

theorem Valid.of_subset {c c' : Cmd Span} {w : Span} (h : c.Valid s) (hw : w.Valid s)
    (hsub : ∀ w' ∈ c'.words, w' ∈ c.words ∨ w' = w) : c'.Valid s := by
  intro w' hw'
  rcases hsub w' hw' with h' | rfl
  · exact h w' h'
  · exact hw

theorem mem_words_addArg {c : Cmd Span} {w w' : Span} (h : w' ∈ (c.addArg w).words) :
    w' ∈ c.words ∨ w' = w := by
  induction c with
  | exec argv => simpa [addArg, words] using h
  | redir c file mode fd ih =>
    simp only [addArg, words, List.mem_append] at h ⊢
    tauto
  | _ => exact .inl h

end Cmd

theorem addArg_text (c : Cmd Span) (w : Span) : (c.addArg w).text = c.text.addArg w.text := by
  induction c with
  | exec argv => simp [Cmd.addArg, Cmd.text, Cmd.map]
  | redir c file mode fd ih => simpa [Cmd.addArg, Cmd.text, Cmd.map] using ih
  | _ => rfl

theorem addArg_simpleCmd (rs : List Redir) (ws : List Word) (w : Word) :
    (simpleCmd rs ws).addArg w = simpleCmd rs (ws ++ [w]) := by
  induction rs using List.reverseRecOn with
  | nil => rfl
  | append_singleton rs r ih =>
    simp only [simpleCmd, List.foldl_append, List.foldl_cons, List.foldl_nil] at ih ⊢
    rw [← ih]
    unfold Redir.wrap
    split <;> rfl

theorem redircmd_text (op : Op) (c : Cmd Span) (w : Span) :
    (redircmd (.sym op.sym) c w).text = Redir.wrap c.text ⟨op, w.text⟩ := by
  cases op <;> rfl

theorem redircmd_words (op : Op) (c : Cmd Span) (w : Span) :
    (redircmd (.sym op.sym) c w).words = c.words ++ [w] := by
  cases op <;> rfl

theorem starts_redir : starts [60, 62] T = true ↔ ∃ op T', T = .sym (Op.sym op) :: T' := by
  constructor
  · intro h
    match T, h with
    | .sym .lt :: T, _ => exact ⟨.lt, T, rfl⟩
    | .sym .gt :: T, _ => exact ⟨.gt, T, rfl⟩
    | .sym .gtgt :: T, _ => exact ⟨.gtgt, T, rfl⟩
  · rintro ⟨op, T', rfl⟩
    cases op <;> rfl

/-! ### Soundness -/

/-- The loop of `parseredirs` consumes redirections. -/
theorem wp_parseredirs {c : Cmd Span} (n : ℕ) (h : At s T ps) (hc : c.Valid s) :
    Wp (parseredirs n c) ps
      (fun c' ps' => ∃ rs T', T = redirTokens rs ++ T' ∧ At s T' ps' ∧ c'.Valid s ∧
        c'.text = rs.foldl Redir.wrap c.text)
      fun e _ => e = .diverged → n ≤ T.length := by
  induction n generalizing T ps c with
  | zero => exact fun _ => Nat.zero_le _
  | succ n ih =>
    rw [parseredirs]
    refine h.wp_if_peek (by decide) (fun hst ps₁ h₁ => ?_) fun _ ps₁ h₁ => ?_
    · obtain ⟨op, T, rfl⟩ := starts_redir.mp hst
      simp only [wp_bind]
      refine h₁.wp_gettoken_sym fun _ ps₂ h₂ => h₂.wp_gettoken ?_ ?_ ?_
      · refine fun _ _ _ _ => wp_ite.mpr ⟨fun _ => ?_, fun h => absurd ?_ h⟩ <;> rintro ⟨⟩
      · refine fun _ _ _ _ _ _ => wp_ite.mpr ⟨fun _ => ?_, fun h => absurd ?_ h⟩ <;> rintro ⟨⟩
      · rintro T w ps₃ rfl hw h₃
        have hc' : (redircmd (.sym op.sym) c w).Valid s :=
          hc.of_subset hw fun w' hw' => by simpa [redircmd_words] using hw'
        refine wp_ite.mpr ⟨fun h => absurd rfl h, fun _ => (ih h₃ hc').mono ?_ ?_⟩
        · rintro c' ps' ⟨rs, T', rfl, hT', hv, htext⟩
          refine ⟨⟨op, w.text⟩ :: rs, T', rfl, hT', hv, ?_⟩
          rw [htext, redircmd_text, List.foldl_cons]
        · intro e _ he hd
          have := he hd
          simp only [List.length_cons]
          omega
    · exact ⟨[], T, rfl, h₁, hc, rfl⟩

/-- The loop of `parseexec` consumes words and redirections. -/
theorem wp_parseargs {c : Cmd Span} {rs : List Redir} {ws : List Word} (n : ℕ) (h : At s T ps)
    (hc : c.Valid s) (htext : c.text = simpleCmd rs ws) (hws : ws.length ≤ 9) :
    Wp (parseargs n c ws.length) ps
      (fun c' ps' => ∃ as T', T = argTokens as ++ T' ∧ At s T' ps' ∧ c'.Valid s ∧
        ws.length + as.length ≤ 9 ∧
        c'.text = simpleCmd (rs ++ as.flatMap Prod.snd) (ws ++ as.map Prod.fst))
      fun e _ => e = .diverged → n ≤ T.length := by
  induction n generalizing T ps c rs ws with
  | zero => exact fun _ => Nat.zero_le _
  | succ n ih =>
    have hstop : ∀ ps', At s T ps' → ∃ as T', T = argTokens as ++ T' ∧ At s T' ps' ∧ c.Valid s ∧
        ws.length + as.length ≤ 9 ∧
        c.text = simpleCmd (rs ++ as.flatMap Prod.snd) (ws ++ as.map Prod.fst) :=
      fun ps' h' => ⟨[], T, rfl, h', hc, hws, by simpa using htext⟩
    rw [parseargs]
    refine h.wp_if_peek (by decide) (fun _ ps₁ h₁ => hstop ps₁ h₁) fun _ ps₁ h₁ => ?_
    simp only [wp_bind]
    refine h₁.wp_gettoken ?_ ?_ ?_
    · rintro w ps₂ rfl h₂
      exact wp_ite.mpr ⟨fun _ => hstop ps₂ h₂, fun h => absurd rfl h⟩
    · rintro k T w ps₂ rfl h₂
      refine wp_ite.mpr ⟨?_, fun _ => wp_ite.mpr ⟨fun _ => ?_, fun h => absurd ?_ h⟩⟩ <;> rintro ⟨⟩
    · rintro T w ps₂ rfl hw h₂
      refine wp_ite.mpr ⟨by rintro ⟨⟩, fun _ => wp_ite.mpr ⟨fun h => absurd rfl h, fun _ => ?_⟩⟩
      refine wp_ite.mpr ⟨fun _ => (by rintro ⟨⟩), fun hmax => ?_⟩
      have hlt : ws.length + 1 < 10 := Nat.not_le.mp hmax
      have hc' : (c.addArg w).Valid s := hc.of_subset hw fun w' => Cmd.mem_words_addArg
      have htext' : (c.addArg w).text = simpleCmd rs (ws ++ [w.text]) := by
        rw [addArg_text, htext, addArg_simpleCmd]
      have hlen : (ws ++ [w.text]).length = ws.length + 1 := by simp
      refine (wp_parseredirs n h₂ hc').bind ?_ ?_
      · rintro c₁ ps₃ ⟨rs', T', rfl, h₃, hc₁, htext₁⟩
        have htext₁' : c₁.text = simpleCmd (rs ++ rs') (ws ++ [w.text]) := by
          rw [htext₁, htext', simpleCmd, simpleCmd, List.foldl_append]
        have := ih h₃ hc₁ htext₁' (by simp only [hlen]; omega)
        rw [hlen] at this
        refine this.mono ?_ ?_
        · rintro c' ps' ⟨as, T'', rfl, h₄, hv, hle, ht⟩
          refine ⟨(w.text, rs') :: as, T'', by simp [argTokens], h₄, hv, ?_, ?_⟩
          · simp only [List.length_cons]; omega
          · rw [ht]; simp
        · intro e _ he hd
          have := he hd
          simp only [List.length_cons, List.length_append]
          omega
      · intro e _ he hd
        have := he hd
        simp only [List.length_cons]
        omega

theorem starts_sym {k : Sym} (hk : k ≠ .gt) (hk' : k ≠ .gtgt) :
    starts [k.char] T = true ↔ ∃ T', T = .sym k :: T' := by
  match T with
  | [] => simp [starts]
  | .word _ :: _ => simp [starts]
  | .sym k' :: T => cases k <;> cases k' <;> simp_all [starts, Sym.char, Sym.text]

/-- The loop of `parseline` consumes `&`s. -/
theorem wp_parsebacks {c : Cmd Span} (n : ℕ) (h : At s T ps) :
    Wp (parsebacks n c) ps
      (fun c' ps' => ∃ m T', T = List.replicate m (Token.sym .amp) ++ T' ∧ At s T' ps' ∧
        c' = Cmd.back^[m] c)
      fun e _ => e = .diverged → n ≤ T.length := by
  induction n generalizing T ps c with
  | zero => exact fun _ => Nat.zero_le _
  | succ n ih =>
    rw [parsebacks]
    refine h.wp_if_peek (by decide) (fun hst ps₁ h₁ => ?_) fun _ ps₁ h₁ => ?_
    · obtain ⟨T, rfl⟩ := (starts_sym (k := .amp) nofun nofun).mp hst
      simp only [wp_bind]
      refine h₁.wp_gettoken_sym fun _ ps₂ h₂ => (ih h₂).mono ?_ ?_
      · rintro c' ps' ⟨m, T', rfl, h', rfl⟩
        exact ⟨m + 1, T', rfl, h', rfl⟩
      · intro e _ he hd
        have := he hd
        simp only [List.length_cons]
        omega
    · exact ⟨0, T, rfl, h₁, rfl⟩

theorem words_back {α : Type} (m : ℕ) (c : Cmd α) : (Cmd.back^[m] c).words = c.words := by
  induction m generalizing c with
  | zero => rfl
  | succ m ih => exact ih (.back c)

theorem text_back (m : ℕ) (c : Cmd Span) : (Cmd.back^[m] c).text = Cmd.back^[m] c.text := by
  induction m generalizing c with
  | zero => rfl
  | succ m ih => exact ih (.back c)

theorem Cmd.Valid.append {c c' d : Cmd Span} (h : c.Valid s) (h' : c'.Valid s)
    (hd : d.words = c.words ++ c'.words) : d.Valid s := by
  intro w hw
  rw [hd, List.mem_append] at hw
  exact hw.elim (h w) (h' w)

/-- The procedure for a nonterminal. -/
def parse : Nonterminal → ℕ → P (Cmd Span)
  | .line => parseline
  | .pipe => parsepipe
  | .exec => parseexec

/-- How many calls lead from the procedure to the next token. -/
def Nonterminal.rank : Nonterminal → ℕ
  | .line => 4
  | .pipe => 3
  | .exec => 2

/-- A command of the first of the tokens `T`. -/
def Parsed (s : Ptr) (k : Nonterminal) (T : List Token) (c : Cmd Span) (ps : Ptr) : Prop :=
  ∃ T₁ T₂, T = T₁ ++ T₂ ∧ At s T₂ ps ∧ c.Valid s ∧ Derives k T₁ c.text

/-- What the procedures do when they may nest `n` calls. -/
structure Sound (s : Ptr) (n : ℕ) : Prop where
  parse : ∀ k T ps, At s T ps →
    Wp (parse k n) ps (Parsed s k T) fun e _ => e = .diverged → n < 4 * T.length + k.rank
  block : ∀ T ps, At s T ps →
    Wp (parseblock n) ps (Parsed s .exec T) fun e _ => e = .diverged → n < 4 * T.length + 1

namespace Sound

variable {n : ℕ}

theorem line (ih : Sound s n) (h : At s T ps) : Wp (parseline (n + 1)) ps (Parsed s .line T)
    fun e _ => e = .diverged → n + 1 < 4 * T.length + 4 := by
  rw [parseline]
  refine (ih.parse .pipe T ps h).bind ?_ fun e _ he hd => Nat.succ_lt_succ (he hd)
  rintro c ps₁ ⟨T₁, T₂, rfl, h₁, hc, hder⟩
  refine (wp_parsebacks n h₁).bind ?_ fun e _ he hd => by
    have := he hd
    simp only [List.length_append]
    omega
  rintro _ ps₂ ⟨m, T₃, rfl, h₂, rfl⟩
  have hc' : (Cmd.back^[m] c).Valid s := fun w hw => hc w (words_back m c ▸ hw)
  refine h₂.wp_if_peek (by decide) (fun hst ps₃ h₃ => ?_) fun _ ps₃ h₃ => ?_
  · obtain ⟨T₄, rfl⟩ := (starts_sym (k := .semi) nofun nofun).mp hst
    simp only [wp_bind]
    refine h₃.wp_gettoken_sym fun _ ps₄ h₄ => (ih.parse .line T₄ ps₄ h₄).mono ?_ ?_
    · rintro c' ps' ⟨T₅, T₆, rfl, h₅, hv, hder'⟩
      refine ⟨T₁ ++ List.replicate m (Token.sym .amp) ++ .sym .semi :: T₅, T₆, by simp, h₅,
        hc'.append hv rfl, ?_⟩
      have := Derives.list m hder hder'
      rwa [← text_back] at this
    · intro e _ he hd
      have := he hd
      simp only [List.length_append, List.length_cons, Nonterminal.rank] at *
      omega
  · refine ⟨_, T₃, (List.append_assoc _ _ _).symm, h₃, hc', ?_⟩
    rw [text_back]
    exact .line m hder

theorem pipe (ih : Sound s n) (h : At s T ps) : Wp (parsepipe (n + 1)) ps (Parsed s .pipe T)
    fun e _ => e = .diverged → n + 1 < 4 * T.length + 3 := by
  rw [parsepipe]
  refine (ih.parse .exec T ps h).bind ?_ fun e _ he hd => Nat.succ_lt_succ (he hd)
  rintro c ps₁ ⟨T₁, T₂, rfl, h₁, hc, hder⟩
  refine h₁.wp_if_peek (by decide) (fun hst ps₂ h₂ => ?_) fun _ ps₂ h₂ => ?_
  · obtain ⟨T₃, rfl⟩ := (starts_sym (k := .bar) nofun nofun).mp hst
    simp only [wp_bind]
    refine h₂.wp_gettoken_sym fun _ ps₃ h₃ => (ih.parse .pipe T₃ ps₃ h₃).mono ?_ ?_
    · rintro c' ps' ⟨T₄, T₅, rfl, h₄, hv, hder'⟩
      exact ⟨T₁ ++ .sym .bar :: T₄, T₅, by simp, h₄, hc.append hv rfl, .pipe hder hder'⟩
    · intro e _ he hd
      have := he hd
      simp only [List.length_append, List.length_cons, Nonterminal.rank] at *
      omega
  · exact ⟨T₁, T₂, rfl, h₂, hc, .exec hder⟩

theorem exec (ih : Sound s n) (h : At s T ps) : Wp (parseexec (n + 1)) ps (Parsed s .exec T)
    fun e _ => e = .diverged → n + 1 < 4 * T.length + 2 := by
  rw [parseexec]
  refine h.wp_if_peek (by decide) (fun _ ps₁ h₁ => ?_) fun _ ps₁ h₁ => ?_
  · exact (ih.block T ps₁ h₁).mono (fun _ _ h => h) fun e _ he hd => Nat.succ_lt_succ (he hd)
  · refine (wp_parseredirs n h₁ (c := .exec []) nofun).bind ?_ fun e _ he hd => by
      have := he hd
      omega
    rintro c ps₂ ⟨rs, T', rfl, h₂, hc, htext⟩
    have htext' : c.text = simpleCmd rs [] := htext
    refine (wp_parseargs n h₂ hc htext' (Nat.zero_le _)).mono ?_ ?_
    · rintro c' ps' ⟨as, T₃, rfl, h₃, hv, hle, ht⟩
      refine ⟨redirTokens rs ++ argTokens as, T₃, by simp, h₃, hv, ?_⟩
      rw [ht]
      exact .simple rs as (by simpa using hle)
    · intro e _ he hd
      have := he hd
      simp only [List.length_append]
      omega

theorem blockStep (ih : Sound s n) (h : At s T ps) :
    Wp (parseblock (n + 1)) ps (Parsed s .exec T)
      fun e _ => e = .diverged → n + 1 < 4 * T.length + 1 := by
  rw [parseblock]
  refine h.wp_if_peek (by decide) (fun hst ps₁ h₁ => ?_) fun _ ps₁ h₁ => nofun
  obtain ⟨T, rfl⟩ := (starts_sym (k := .lparen) nofun nofun).mp hst
  rw [wp_bind]
  refine h₁.wp_gettoken_sym fun _ ps₂ h₂ => (ih.parse .line T ps₂ h₂).bind ?_ ?_
  · rintro c ps₃ ⟨T₁, T₂, rfl, h₃, hc, hder⟩
    refine h₃.wp_if_peek (by decide) (fun hst ps₄ h₄ => ?_) fun _ ps₄ h₄ => nofun
    obtain ⟨T₃, rfl⟩ := (starts_sym (k := .rparen) nofun nofun).mp hst
    rw [wp_bind]
    refine h₄.wp_gettoken_sym fun _ ps₅ h₅ => (wp_parseredirs n h₅ hc).mono ?_ ?_
    · rintro c' ps' ⟨rs, T', rfl, h₆, hv, ht⟩
      refine ⟨.sym .lparen :: T₁ ++ .sym .rparen :: redirTokens rs, T', by simp, h₆, hv, ?_⟩
      rw [ht]
      exact .block rs hder
    · intro e _ he hd
      have := he hd
      simp only [List.length_append, List.length_cons]
      omega
  · intro e _ he hd
    have := he hd
    simp only [List.length_cons, Nonterminal.rank] at *
    omega

end Sound

/-- **The parser is sound, and it stops.** -/
theorem sound (s : Ptr) (n : ℕ) : Sound s n := by
  induction n with
  | zero =>
    refine ⟨fun k T ps h => ?_, fun T ps h => ?_⟩
    · cases k <;> exact fun _ => Nat.succ_pos _
    · exact fun _ => Nat.succ_pos _
  | succ n ih =>
    refine ⟨fun k T ps h => ?_, fun T ps h => ih.blockStep h⟩
    cases k with
    | line => exact ih.line h
    | pipe => exact ih.pipe h
    | exec => exact ih.exec h

/-! ### Completeness -/

/-- What may follow a sentence. -/
def follows : Nonterminal → List Token → Bool
  | _, [] => true
  | .line, .sym a :: _ => a = .rparen
  | .pipe, .sym a :: _ => a ∈ [.rparen, .amp, .semi]
  | .exec, .sym a :: _ => a ∈ [.rparen, .amp, .semi, .bar]
  | _, .word _ :: _ => false

section

variable {R : List Token}

theorem follows_pipe (h : follows .line R) : follows .pipe R := by
  match R, h with
  | [], _ => rfl
  | .sym .rparen :: _, _ => rfl

theorem follows_exec (h : follows .pipe R) : follows .exec R := by
  match R, h with
  | [], _ => rfl
  | .sym .rparen :: _, _ | .sym .amp :: _, _ | .sym .semi :: _, _ => rfl

theorem starts_of_follows {k : Nonterminal} {toks : List UInt8} (h : follows k R)
    (ht : ∀ a : Sym, follows k [.sym a] → a.char ∉ toks) : starts toks R = false := by
  match R with
  | [] => rfl
  | .word _ :: _ => rfl
  | .sym a :: R => simpa [starts] using ht a (by cases k <;> exact h)

/-- What the procedures do in front of a sentence. -/
abbrev Accepts (x : P (Cmd Span)) (ps : Ptr) (s : Ptr) (R : List Token) (c : Cmd Word) : Prop :=
  Wp x ps (fun c' ps' => At s R ps' ∧ c'.text = c) fun e _ => e = .diverged

theorem accepts_parseredirs {c : Cmd Span} {rs : List Redir} (n : ℕ)
    (h : At s (redirTokens rs ++ R) ps) (hR : starts [60, 62] R = false) :
    Accepts (parseredirs n c) ps s R (rs.foldl Redir.wrap c.text) := by
  induction rs generalizing n c ps with
  | nil =>
    cases n with
    | zero => rfl
    | succ n =>
      rw [Accepts, parseredirs]
      refine h.wp_if_peek (by decide) (fun hst ps₁ h₁ => ?_) fun _ ps₁ h₁ => ⟨h₁, rfl⟩
      exact absurd (hst.symm.trans hR) nofun
  | cons r rs ih =>
    cases n with
    | zero => rfl
    | succ n =>
      have hst : starts [60, 62] (redirTokens (r :: rs) ++ R) = true :=
        starts_redir.mpr ⟨r.op, _, rfl⟩
      rw [Accepts, parseredirs]
      refine h.wp_if_peek (by decide) (fun _ ps₁ h₁ => ?_) fun hst' => ?_
      case refine_2 => exact absurd (hst.symm.trans hst') nofun
      simp only [wp_bind]
      refine At.wp_gettoken_sym (k := r.op.sym) h₁ fun _ ps₂ h₂ => ?_
      refine At.wp_gettoken_word (x := r.file) h₂ fun w ps₃ _ hw h₃ => ?_
      refine wp_ite.mpr ⟨fun h' => absurd rfl h', fun _ => ?_⟩
      have := ih n (c := redircmd (.sym r.op.sym) c w) h₃
      rwa [redircmd_text, hw] at this

theorem accepts_parseargs {c : Cmd Span} {rs : List Redir} {ws : List Word}
    {as : List (Word × List Redir)} (n : ℕ) (h : At s (argTokens as ++ R) ps)
    (hR : follows .exec R) (htext : c.text = simpleCmd rs ws) (hlen : ws.length + as.length ≤ 9) :
    Accepts (parseargs n c ws.length) ps s R
      (simpleCmd (rs ++ as.flatMap Prod.snd) (ws ++ as.map Prod.fst)) := by
  induction as generalizing n c ps rs ws with
  | nil =>
    cases n with
    | zero => rfl
    | succ n =>
      rw [List.flatMap_nil, List.append_nil, List.map_nil, List.append_nil, Accepts, parseargs]
      refine h.wp_if_peek (by decide) (fun _ ps₁ h₁ => ⟨h₁, htext⟩) fun hst ps₁ h₁ => ?_
      -- only the end of the line may follow that `peek` does not stop at
      match R, hR with
      | [], _ =>
        rw [wp_bind]
        exact At.wp_gettoken_nil h₁ fun w ps₂ h₂ => ⟨h₂, htext⟩
      | .sym .rparen :: _, _ | .sym .amp :: _, _ | .sym .semi :: _, _ | .sym .bar :: _, _ =>
        exact absurd hst nofun
  | cons a as ih =>
    cases n with
    | zero => rfl
    | succ n =>
      rw [Accepts, parseargs]
      refine h.wp_if_peek (by decide) nofun fun _ ps₁ h₁ => ?_
      rw [wp_bind]
      have h₁' : At s (.word a.1 :: (redirTokens a.2 ++ (argTokens as ++ R))) ps₁ := by
        simpa [argTokens] using h₁
      simp only [List.length_cons] at hlen
      refine h₁'.wp_gettoken_word fun w ps₂ _ hw h₂ => ?_
      refine wp_ite.mpr ⟨nofun, fun _ => wp_ite.mpr ⟨fun h => absurd rfl h, fun _ => ?_⟩⟩
      have hmax : ¬ws.length + 1 ≥ MAXARGS := Nat.not_le.mpr (show ws.length + 1 < 10 by omega)
      refine wp_ite.mpr ⟨fun h => absurd h hmax, fun _ => ?_⟩
      have hfree : starts [60, 62] (argTokens as ++ R) = false := by
        cases as with
        | nil => exact starts_of_follows hR fun a => by cases a <;> decide
        | cons b as => rfl
      refine (accepts_parseredirs n h₂ hfree).bind ?_ fun _ _ h => h
      rintro c' ps₃ ⟨h₃, htext₃⟩
      have hlen' : (ws ++ [a.1]).length = ws.length + 1 := by simp
      have htext' : c'.text = simpleCmd (rs ++ a.2) (ws ++ [a.1]) := by
        rw [htext₃, addArg_text, htext, hw, addArg_simpleCmd, simpleCmd, simpleCmd,
          List.foldl_append]
      have := ih n h₃ htext' (by omega)
      rw [hlen'] at this
      simpa using this

theorem accepts_parsebacks {c : Cmd Span} {m : ℕ} (n : ℕ)
    (h : At s (List.replicate m (Token.sym .amp) ++ R) ps) (hR : starts [38] R = false) :
    Accepts (parsebacks n c) ps s R (Cmd.back^[m] c.text) := by
  induction m generalizing n c ps with
  | zero =>
    cases n with
    | zero => rfl
    | succ n =>
      rw [Accepts, parsebacks]
      refine h.wp_if_peek (by decide) (fun hst ps₁ h₁ => ?_) fun _ ps₁ h₁ => ?_
      · exact absurd (hst.symm.trans hR) nofun
      · exact ⟨by simpa using h₁, rfl⟩
  | succ m ih =>
    cases n with
    | zero => rfl
    | succ n =>
      rw [Accepts, parsebacks]
      refine h.wp_if_peek (by decide) (fun _ ps₁ h₁ => ?_) nofun
      rw [wp_bind]
      exact At.wp_gettoken_sym (k := .amp) h₁ fun _ ps₂ h₂ => ih n h₂

theorem follows_amps {m : ℕ} (h : follows .pipe R) :
    follows .pipe (List.replicate m (Token.sym .amp) ++ R) := by
  cases m with
  | zero => simpa using h
  | succ m => rfl

/-- `parseline`, up to the `&`s. -/
theorem accepts_backs {T : List Token} {c : Cmd Word} {m n : ℕ} {x : Cmd Span → P (Cmd Span)}
    {d : Cmd Word} {R' : List Token} (h : At s (T ++ List.replicate m (Token.sym .amp) ++ R) ps)
    (hR : follows .pipe R) (hamp : starts [38] R = false)
    (ih : ∀ (n : ℕ) (R : List Token) (ps : Ptr), follows .pipe R → At s (T ++ R) ps →
      Accepts (parsepipe n) ps s R c)
    (hx : ∀ c' ps', At s R ps' → c'.text = Cmd.back^[m] c → Accepts (x c') ps' s R' d) :
    Accepts (parsepipe n >>= fun c => parsebacks n c >>= x) ps s R' d := by
  rw [List.append_assoc] at h
  refine (ih n _ ps (follows_amps hR) h).bind ?_ fun _ _ h => h
  rintro c₁ ps₁ ⟨h₁, rfl⟩
  refine (accepts_parsebacks n h₁ hamp).bind ?_ fun _ _ h => h
  rintro c₂ ps₂ ⟨h₂, ht⟩
  exact hx c₂ ps₂ h₂ ht

/-- **The parser is complete.** -/
theorem complete {k : Nonterminal} {T : List Token} {c : Cmd Word} (hd : Derives k T c) (n : ℕ)
    (R : List Token) (ps : Ptr) (hR : follows k R) (h : At s (T ++ R) ps) :
    Accepts (parse k n) ps s R c := by
  induction hd generalizing n R ps with
  | line m _ ih =>
    cases n with
    | zero => rfl
    | succ n =>
      have hamp : starts [38] R = false := starts_of_follows hR fun a => by cases a <;> decide
      have hsemi : starts [59] R = false := starts_of_follows hR fun a => by cases a <;> decide
      rw [parse, parseline]
      refine accepts_backs h (follows_pipe hR) hamp ih fun c₂ ps₂ h₂ ht => ?_
      rw [Accepts]
      refine h₂.wp_if_peek (by decide) (fun hst ps₃ h₃ => ?_) fun _ ps₃ h₃ => ⟨h₃, ht⟩
      exact absurd (hst.symm.trans hsemi) nofun
  | @list T T' c c' m _ _ ih ih' =>
    cases n with
    | zero => rfl
    | succ n =>
      rw [List.append_assoc] at h
      rw [parse, parseline]
      refine accepts_backs h rfl rfl ih fun c₂ ps₂ h₂ ht => ?_
      rw [Accepts]
      refine h₂.wp_if_peek (by decide) (fun _ ps₃ h₃ => ?_) nofun
      rw [wp_bind]
      refine At.wp_gettoken_sym (k := .semi) h₃ fun _ ps₄ h₄ => ?_
      refine (ih' n R ps₄ hR h₄).bind ?_ fun _ _ h => h
      rintro c₅ ps₅ ⟨h₅, rfl⟩
      exact ⟨h₅, by rw [← ht]; rfl⟩
  | exec _ ih =>
    cases n with
    | zero => rfl
    | succ n =>
      have hbar : starts [124] R = false := starts_of_follows hR fun a => by cases a <;> decide
      rw [parse, parsepipe]
      refine (ih n R ps (follows_exec hR) h).bind ?_ fun _ _ h => h
      rintro c₁ ps₁ ⟨h₁, ht⟩
      refine h₁.wp_if_peek (by decide) (fun hst ps₂ h₂ => ?_) fun _ ps₂ h₂ => ⟨h₂, ht⟩
      exact absurd (hst.symm.trans hbar) nofun
  | @pipe T T' c c' _ _ ih ih' =>
    cases n with
    | zero => rfl
    | succ n =>
      rw [List.append_assoc] at h
      rw [parse, parsepipe]
      refine (ih n _ ps rfl h).bind ?_ fun _ _ h => h
      rintro c₁ ps₁ ⟨h₁, rfl⟩
      refine h₁.wp_if_peek (by decide) (fun _ ps₂ h₂ => ?_) nofun
      rw [wp_bind]
      refine At.wp_gettoken_sym (k := .bar) h₂ fun _ ps₃ h₃ => ?_
      refine (ih' n R ps₃ hR h₃).bind ?_ fun _ _ h => h
      rintro c₄ ps₄ ⟨h₄, rfl⟩
      exact ⟨h₄, rfl⟩
  | @block T c rs _ ih =>
    cases n with
    | zero => rfl
    | succ n =>
      have hredir : starts [60, 62] R = false := starts_of_follows hR fun a => by cases a <;> decide
      have h' : At s (.sym .lparen :: (T ++ .sym .rparen :: (redirTokens rs ++ R))) ps := by
        simpa using h
      rw [parse, parseexec, Accepts]
      refine h'.wp_if_peek (by decide) (fun _ ps₁ h₁ => ?_) nofun
      cases n with
      | zero => rfl
      | succ n =>
        rw [parseblock]
        refine h₁.wp_if_peek (by decide) (fun _ ps₂ h₂ => ?_) nofun
        rw [wp_bind]
        refine h₂.wp_gettoken_sym fun _ ps₃ h₃ => (ih n _ ps₃ rfl h₃).bind ?_ fun _ _ h => h
        rintro c₁ ps₄ ⟨h₄, rfl⟩
        refine h₄.wp_if_peek (by decide) (fun _ ps₅ h₅ => ?_) nofun
        rw [wp_bind]
        exact h₅.wp_gettoken_sym fun _ ps₆ h₆ => accepts_parseredirs n h₆ hredir
  | simple rs as hlen =>
    cases n with
    | zero => rfl
    | succ n =>
      have hfree : starts [60, 62] (argTokens as ++ R) = false := by
        cases as with
        | nil => exact starts_of_follows hR fun a => by cases a <;> decide
        | cons b as => rfl
      have hparen : starts [40] (redirTokens rs ++ (argTokens as ++ R)) = false := by
        match rs, as with
        | ⟨.lt, _⟩ :: _, _ | ⟨.gt, _⟩ :: _, _ | ⟨.gtgt, _⟩ :: _, _ => rfl
        | [], _ :: _ => rfl
        | [], [] => exact starts_of_follows hR fun a => by cases a <;> decide
      rw [List.append_assoc] at h
      rw [parse, parseexec, Accepts]
      refine h.wp_if_peek (by decide) (fun hst ps₁ h₁ => ?_) fun _ ps₁ h₁ => ?_
      · exact absurd (hst.symm.trans hparen) nofun
      · refine (accepts_parseredirs (c := .exec []) n h₁ hfree).bind ?_ fun _ _ h => h
        rintro c₂ ps₂ ⟨h₂, ht⟩
        have := accepts_parseargs n h₂ hR (show c₂.text = simpleCmd rs [] from ht) (by simpa)
        simpa using this

end

end Sh

end Xv6
