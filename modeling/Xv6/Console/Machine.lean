import Xv6.Lib.Bytes
import Xv6.Lib.Monitor

/-!
# The console

`consoleread` and `consoleintr` as the code of a monitor whose lock is `cons.lock`. The only channel
is `&input.r`. `consoleintr` is run by an interrupt handler, which is a thread like the others here;
a call of it brings the characters that `getc` will return. What is echoed to the screen, and the
process listing of `^P`, are left out. -/

namespace Xv6

/-- Size of the input buffer. -/
abbrev INPUT_BUF : Nat := 128

namespace Console

/-- `input`. -/
structure Input where
  buf : Bytes INPUT_BUF
  r : BitVec 32
  w : BitVec 32
  e : BitVec 32

/-- `&input.r`. -/
inductive Chan
  | r
  deriving DecidableEq, Repr

/-- What the two functions return. -/
inductive Result
  /-- `consoleread` has stored these bytes at `dst`. -/
  | read (got : List UInt8)
  /-- The value `-1`. -/
  | failed
  /-- `consoleintr` returns nothing; it may call `procdump` first. -/
  | handled (doprocdump : Bool)
  deriving DecidableEq, Repr

/-- The points of the two functions at which something is done. -/
inductive Point
  /-- `consoleread`, at the test of the `while` loops, with the bytes read so far. -/
  | read (target : ℕ) (got : List UInt8)
  /-- `consoleread`, before `sleep`. -/
  | readSleep (target : ℕ) (got : List UInt8)
  /-- `consoleread`, before `release`. -/
  | readEnd (got : List UInt8)
  /-- `consoleintr`, at the test of the outer loop, with the characters still to come. -/
  | intr (cs : List UInt8) (doprocdump : Bool)
  /-- `consoleintr`, before `wakeup`. -/
  | commit (cs : List UInt8) (doprocdump : Bool)
  /-- `consoleintr`, at the test of the loop of `^U`. -/
  | killLine (cs : List UInt8) (doprocdump : Bool)
  deriving DecidableEq, Repr

/-- `C('D')`. -/
def ctrlD : UInt8 := 4

/-- `C('H')`. -/
def ctrlH : UInt8 := 8

/-- `C('P')`. -/
def ctrlP : UInt8 := 16

/-- `C('U')`. -/
def ctrlU : UInt8 := 21

/-- `'\x7f'`. -/
def del : UInt8 := 127

/-- The newline character. -/
def newline : UInt8 := 10

/-- The carriage return character. -/
def carriageReturn : UInt8 := 13

/-- The byte of `input.buf` at an index taken modulo its size. -/
def Input.at (i : Input) (j : BitVec 32) : UInt8 := i.buf.get (j.toNat % INPUT_BUF)

/-- `input.buf[input.e++ % INPUT_BUF] = c`. -/
def Input.put (i : Input) (c : UInt8) : Input :=
  { i with buf := i.buf.set (i.e.toNat % INPUT_BUF) c, e := i.e + 1#32 }

/-- `(c == '\r') ? '\n' : c`. -/
def unreturn (c : UInt8) : UInt8 := if c = carriageReturn then newline else c

/-- With `c` stored last, the line is passed on to `consoleread`. -/
def Input.Commits (i : Input) (c : UInt8) : Prop :=
  c = newline ∨ c = ctrlD ∨ i.e = i.r + BitVec.ofNat 32 INPUT_BUF

instance (i : Input) (c : UInt8) : Decidable (i.Commits c) :=
  inferInstanceAs (Decidable (_ ∨ _ ∨ _))

/-- What is done at each point. -/
def next (killed : Bool) (k : Point) (i : Input) : Monitor.Move Input Point Chan Result :=
  match k with
  | .read target got =>
    if got.length < target then
      if i.r = i.w then
        if killed then .leave .failed i else .go (.readSleep target got) i
      else
        let c := i.at i.r
        let i' := { i with r := i.r + 1#32 }
        if c = ctrlD then
          -- `^D` is kept for the next call unless it is the first thing that is read
          .go (.readEnd got) (if got = [] then i' else i)
        else if c = newline then .go (.readEnd (got ++ [c])) i'
        else .go (.read target (got ++ [c])) i'
    else .go (.readEnd got) i
  | .readSleep target got => .wait .r (.read target got)
  | .readEnd got => .leave (.read got) i
  | .intr [] doprocdump => .leave (.handled doprocdump) i
  | .intr (c :: cs) doprocdump =>
    if c = ctrlP then .go (.intr cs true) i
    else if c = ctrlU then .go (.killLine cs doprocdump) i
    else if c = ctrlH ∨ c = del then
      .go (.intr cs doprocdump) (if i.e ≠ i.w then { i with e := i.e - 1#32 } else i)
    else if c ≠ 0 ∧ i.e - i.r < BitVec.ofNat 32 INPUT_BUF then
      let i := i.put (unreturn c)
      if i.Commits (unreturn c) then .go (.commit cs doprocdump) { i with w := i.e }
      else .go (.intr cs doprocdump) i
    else .go (.intr cs doprocdump) i
  | .commit cs doprocdump => .wakeup .r (.intr cs doprocdump)
  | .killLine cs doprocdump =>
    if i.e ≠ i.w ∧ i.at (i.e - 1#32) ≠ newline then
      .go (.killLine cs doprocdump) { i with e := i.e - 1#32 }
    else .go (.intr cs doprocdump) i

/-- The two functions. -/
def code : Monitor.Code Input Point Chan Result where
  entry k _ :=
    match k with
    | .read _ [] | .intr _ false => true
    | _ => false
  next := next

/-- The zero-initialised input. -/
def empty : Input := { buf := Bytes.zero _, r := 0, w := 0, e := 0 }

/-! ### Inversion -/

/-- What can be done at each point, and when. -/
inductive Next (killed : Bool) (i : Input) : Point → Monitor.Move Input Point Chan Result → Prop
  | readFails (n got) (hn : got.length < n) (hi : i.r = i.w) (hk : killed = true) :
      Next killed i (.read n got) (.leave .failed i)
  | readWaits (n got) (hn : got.length < n) (hi : i.r = i.w) (hk : killed = false) :
      Next killed i (.read n got) (.go (.readSleep n got) i)
  | readEof (n got) (hn : got.length < n) (hi : i.r ≠ i.w) (hc : i.at i.r = ctrlD) :
      Next killed i (.read n got)
        (.go (.readEnd got) (if got = [] then { i with r := i.r + 1#32 } else i))
  | readLine (n got) (hn : got.length < n) (hi : i.r ≠ i.w) (hc : i.at i.r = newline) :
      Next killed i (.read n got)
        (.go (.readEnd (got ++ [i.at i.r])) { i with r := i.r + 1#32 })
  | readByte (n got) (hn : got.length < n) (hi : i.r ≠ i.w) (hc : i.at i.r ≠ ctrlD)
      (hc' : i.at i.r ≠ newline) :
      Next killed i (.read n got)
        (.go (.read n (got ++ [i.at i.r])) { i with r := i.r + 1#32 })
  | readDone (n got) (hn : n ≤ got.length) : Next killed i (.read n got) (.go (.readEnd got) i)
  | readSleep (n got) : Next killed i (.readSleep n got) (.wait .r (.read n got))
  | readEnd (got) : Next killed i (.readEnd got) (.leave (.read got) i)
  | handled (dump) : Next killed i (.intr [] dump) (.leave (.handled dump) i)
  | procdump (cs dump) : Next killed i (.intr (ctrlP :: cs) dump) (.go (.intr cs true) i)
  | killStart (cs dump) : Next killed i (.intr (ctrlU :: cs) dump) (.go (.killLine cs dump) i)
  | backspace (c cs dump) (hc : c = ctrlH ∨ c = del) :
      Next killed i (.intr (c :: cs) dump)
        (.go (.intr cs dump) (if i.e ≠ i.w then { i with e := i.e - 1#32 } else i))
  | store (c cs dump) (hP : c ≠ ctrlP) (hU : c ≠ ctrlU) (hH : ¬ (c = ctrlH ∨ c = del)) (h0 : c ≠ 0)
      (hi : i.e - i.r < BitVec.ofNat 32 INPUT_BUF)
      (hn : ¬ (i.put (unreturn c)).Commits (unreturn c)) :
      Next killed i (.intr (c :: cs) dump) (.go (.intr cs dump) (i.put (unreturn c)))
  | storeLast (c cs dump) (hP : c ≠ ctrlP) (hU : c ≠ ctrlU) (hH : ¬ (c = ctrlH ∨ c = del))
      (h0 : c ≠ 0) (hi : i.e - i.r < BitVec.ofNat 32 INPUT_BUF)
      (hn : (i.put (unreturn c)).Commits (unreturn c)) :
      Next killed i (.intr (c :: cs) dump)
        (.go (.commit cs dump) { i.put (unreturn c) with w := i.e + 1#32 })
  | dropped (c cs dump) (hP : c ≠ ctrlP) (hU : c ≠ ctrlU) (hH : ¬ (c = ctrlH ∨ c = del))
      (h : c = 0 ∨ BitVec.ofNat 32 INPUT_BUF ≤ i.e - i.r) :
      Next killed i (.intr (c :: cs) dump) (.go (.intr cs dump) i)
  | commit (cs dump) : Next killed i (.commit cs dump) (.wakeup .r (.intr cs dump))
  | killByte (cs dump) (hi : i.e ≠ i.w) (hc : i.at (i.e - 1#32) ≠ newline) :
      Next killed i (.killLine cs dump) (.go (.killLine cs dump) { i with e := i.e - 1#32 })
  | killDone (cs dump) (h : i.e = i.w ∨ i.at (i.e - 1#32) = newline) :
      Next killed i (.killLine cs dump) (.go (.intr cs dump) i)

private theorem Next.of_read (killed : Bool) (n : ℕ) (got : List UInt8) (i : Input) :
    Next killed i (.read n got) (next killed (.read n got) i) := by
  simp only [next]
  split
  · next hn =>
    split
    · next hi =>
      split
      · next hk => exact .readFails n got hn hi hk
      · next hk => exact .readWaits n got hn hi (by simpa using hk)
    · next hi =>
      split
      · next hc => exact .readEof n got hn hi hc
      · next hc =>
        split
        · next hc' => exact .readLine n got hn hi hc'
        · next hc' => exact .readByte n got hn hi hc hc'
  · next hn => exact .readDone n got (Nat.le_of_not_lt hn)

private theorem Next.of_intr (killed : Bool) (c : UInt8) (cs : List UInt8)
    (dump : Bool) (i : Input) :
    Next killed i (.intr (c :: cs) dump) (next killed (.intr (c :: cs) dump) i) := by
  simp only [next]
  split
  · next h => subst h; exact .procdump cs dump
  · next hP =>
    split
    · next h => subst h; exact .killStart cs dump
    · next hU =>
      split
      · next hH => exact .backspace c cs dump hH
      · next hH =>
        split
        · next h =>
          split
          · next hn => exact .storeLast c cs dump hP hU hH h.1 h.2 hn
          · next hn => exact .store c cs dump hP hU hH h.1 h.2 hn
        · next h =>
          exact .dropped c cs dump hP hU hH
            ((not_and_or.mp h).imp not_not.mp BitVec.not_lt.mp)

theorem Next.of_next (killed : Bool) (k : Point) (i : Input) :
    Next killed i k (next killed k i) := by
  cases k with
  | read n got => exact .of_read killed n got i
  | readSleep n got => exact .readSleep n got
  | readEnd got => exact .readEnd got
  | intr cs dump =>
    cases cs with
    | nil => exact .handled dump
    | cons c cs => exact .of_intr killed c cs dump i
  | commit cs dump => exact .commit cs dump
  | killLine cs dump =>
    simp only [next]
    split
    · next h => exact .killByte cs dump h.1 h.2
    · next h => exact .killDone cs dump ((not_and_or.mp h).imp not_not.mp not_not.mp)

end Console

end Xv6
