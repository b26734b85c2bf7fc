import Xv6.Lib.Wp

/-!
# The parser of the shell

`sh.c` from `gettoken` to `nulterminate`. A pointer into the command line is what it points to, up
to the end `es` of the line; `*ps` is the state of the parser. A command refers to its words by two
pointers each, to the first character and behind the last one, and `nulterminate` writes a `NUL` at
all of the latter; only then are the words strings.

The procedures call each other without a bound, so they count down the calls; `diverged` is what
happens when the count is exhausted. Memory for the commands, and the stack, are not limited.

## Main definitions

* `gettoken`, `peek`
* `parseredirs`, `parseexec`, `parseblock`, `parsepipe`, `parseline`
* `nulterminate`, `parsecmd`
-/

namespace Xv6

namespace Sh

/-- A pointer into the command line. -/
abbrev Ptr := List UInt8

abbrev MAXARGS : ℕ := 10

abbrev O_RDONLY : ℕ := 0x000

abbrev O_WRONLY : ℕ := 0x001

abbrev O_CREATE : ℕ := 0x200

/-! ### Commands -/

/-- `struct cmd`, with words of type `α`. -/
inductive Cmd (α : Type)
  | exec (argv : List α)
  | redir (cmd : Cmd α) (file : α) (mode fd : ℕ)
  | pipe (left right : Cmd α)
  | list (left right : Cmd α)
  | back (cmd : Cmd α)
  deriving DecidableEq, Repr

namespace Cmd

variable {α β : Type}

/-- A word is added to the `execcmd` around which redirections may have been wrapped already. -/
def addArg (a : α) : Cmd α → Cmd α
  | .exec argv => .exec (argv ++ [a])
  | .redir cmd file mode fd => .redir (cmd.addArg a) file mode fd
  | c => c

def map (f : α → β) : Cmd α → Cmd β
  | .exec argv => .exec (argv.map f)
  | .redir cmd file mode fd => .redir (cmd.map f) (f file) mode fd
  | .pipe left right => .pipe (left.map f) (right.map f)
  | .list left right => .list (left.map f) (right.map f)
  | .back cmd => .back (cmd.map f)

/-- The words of a command, in the order in which `nulterminate` comes to them. -/
def words : Cmd α → List α
  | .exec argv => argv
  | .redir cmd file _ _ => cmd.words ++ [file]
  | .pipe left right | .list left right => left.words ++ right.words
  | .back cmd => cmd.words

end Cmd

/-- `q` and `eq`: the first character of a word, and what follows it. -/
structure Span where
  q : Ptr
  eq : Ptr
  deriving DecidableEq, Repr

/-- Where the parser may stop. -/
inductive Panic
  | missingFile
  | parseblock
  | missingParen
  /-- A symbol where `parseexec` needs a word. -/
  | notWord
  | tooManyArgs
  /-- Something behind the command. -/
  | leftovers
  deriving DecidableEq, Repr

/-- What `panic` is called with. -/
def Panic.text : Panic → String
  | .missingFile => "missing file for redirection"
  | .parseblock => "parseblock"
  | .missingParen => "syntax - missing )"
  | .notWord | .leftovers => "syntax"
  | .tooManyArgs => "too many args"

inductive Halt
  | panic (p : Panic)
  /-- The calls do not come to an end. -/
  | diverged
  deriving DecidableEq, Repr

/-- Programs that move `*ps`. -/
abbrev P := EStateM Halt Ptr

/-! ### Tokens -/

/-- The characters of `" \t\r\n\v"`. -/
def whitespace : List UInt8 := [32, 9, 13, 10, 11]

/-- The characters of `"<|>&;()"`. -/
def symbols : List UInt8 := [60, 124, 62, 38, 59, 40, 41]

/-- The symbols that `gettoken` returns; `+` stands for `>>`. -/
inductive Sym
  | bar | lparen | rparen | semi | amp | lt | gt | gtgt
  deriving DecidableEq, Repr

/-- What `gettoken` returns. -/
inductive Ret
  | zero
  | sym (k : Sym)
  | word
  deriving DecidableEq, Repr

/-- `while(s < es && strchr(whitespace, *s)) s++`. -/
def skip (s : Ptr) : Ptr := s.dropWhile (· ∈ whitespace)

/-- A character of a word. -/
def isWord (c : UInt8) : Bool := c ∉ whitespace ∧ c ∉ symbols

/-- The `switch` of `gettoken`: the token at `s`, and what follows it. -/
def scan : Ptr → Ret × Ptr
  | [] => (.zero, [])
  | c :: s =>
    if c = 0 then (.zero, c :: s)
    else if c = 124 then (.sym .bar, s)
    else if c = 40 then (.sym .lparen, s)
    else if c = 41 then (.sym .rparen, s)
    else if c = 59 then (.sym .semi, s)
    else if c = 38 then (.sym .amp, s)
    else if c = 60 then (.sym .lt, s)
    else if c = 62 then
      match s with
      | 62 :: s => (.sym .gtgt, s)
      | _ => (.sym .gt, s)
    else (.word, (c :: s).dropWhile isWord)

def gettoken : P (Ret × Span) := do
  let s := skip (← get)
  let (ret, eq) := scan s
  set (skip eq)
  return (ret, ⟨s, eq⟩)

def peek (toks : List UInt8) : P Bool := do
  let s := skip (← get)
  set s
  return s.head?.any fun c => c ≠ 0 ∧ c ∈ toks

/-! ### Commands -/

/-- The redirection that a token stands for. -/
def redircmd (tok : Ret) (cmd : Cmd Span) (file : Span) : Cmd Span :=
  match tok with
  | .sym .lt => .redir cmd file O_RDONLY 0
  | .sym .gt => .redir cmd file (O_WRONLY ||| O_CREATE) 1
  | .sym .gtgt => .redir cmd file (O_WRONLY ||| O_CREATE) 1
  | _ => cmd

def parseredirs : ℕ → Cmd Span → P (Cmd Span)
  | 0, _ => throw .diverged
  | n + 1, cmd => do
    if ← peek [60, 62] then
      let (tok, _) ← gettoken
      let (tok', file) ← gettoken
      if tok' ≠ .word then throw (.panic .missingFile)
      parseredirs n (redircmd tok cmd file)
    else return cmd

/-- The loop of `parseexec` over the words. -/
def parseargs : ℕ → Cmd Span → ℕ → P (Cmd Span)
  | 0, _, _ => throw .diverged
  | n + 1, ret, argc => do
    if ← peek [124, 41, 38, 59] then return ret
    let (tok, arg) ← gettoken
    if tok = .zero then return ret
    if tok ≠ .word then throw (.panic .notWord)
    let ret := ret.addArg arg
    let argc := argc + 1
    if argc ≥ MAXARGS then throw (.panic .tooManyArgs)
    let ret ← parseredirs n ret
    parseargs n ret argc

/-- The loop of `parseline` over the `&`s. -/
def parsebacks : ℕ → Cmd Span → P (Cmd Span)
  | 0, _ => throw .diverged
  | n + 1, cmd => do
    if ← peek [38] then
      let _ ← gettoken
      parsebacks n (.back cmd)
    else return cmd

mutual

def parseline : ℕ → P (Cmd Span)
  | 0 => throw .diverged
  | n + 1 => do
    let cmd ← parsepipe n
    let cmd ← parsebacks n cmd
    if ← peek [59] then
      let _ ← gettoken
      return .list cmd (← parseline n)
    else return cmd

def parsepipe : ℕ → P (Cmd Span)
  | 0 => throw .diverged
  | n + 1 => do
    let cmd ← parseexec n
    if ← peek [124] then
      let _ ← gettoken
      return .pipe cmd (← parsepipe n)
    else return cmd

def parseexec : ℕ → P (Cmd Span)
  | 0 => throw .diverged
  | n + 1 => do
    if ← peek [40] then parseblock n
    else
      let ret ← parseredirs n (.exec [])
      parseargs n ret 0

def parseblock : ℕ → P (Cmd Span)
  | 0 => throw .diverged
  | n + 1 => do
    if ← peek [40] then
      let _ ← gettoken
      let cmd ← parseline n
      if ← peek [41] then
        let _ ← gettoken
        parseredirs n cmd
      else throw (.panic .missingParen)
    else throw (.panic .parseblock)

end

/-- Where `nulterminate` writes a `NUL`, as the distance from the end of the line. -/
def nulterminate (cmd : Cmd Span) : List ℕ := cmd.words.map fun w => w.eq.length

/-- The string at a pointer, when there are `NUL`s at the positions `z`. -/
def cstring (z : List ℕ) : Ptr → List UInt8
  | [] => []
  | c :: s => if c = 0 ∨ (c :: s).length ∈ z then [] else c :: cstring z s

/-- The body of `parsecmd`. -/
def parseall (n : ℕ) : P (Cmd (List UInt8)) := do
  let cmd ← parseline n
  let _ ← peek []
  if (← get) ≠ [] then throw (.panic .leftovers)
  return cmd.map fun w => cstring (nulterminate cmd) w.q

/-- `parsecmd` of a command line, with calls nested at most `n` deep. -/
def parsecmd (n : ℕ) (s : Ptr) : Except Halt (Cmd (List UInt8)) :=
  match parseall n s with
  | .ok cmd _ => .ok cmd
  | .error e _ => .error e

end Sh

end Xv6
