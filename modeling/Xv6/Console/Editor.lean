import Xv6.Console.Machine

/-!
# The line editor of the console

`input.r`, `input.w` and `input.e` only count up, apart from erased characters and a `^D` that is
put back, and are taken modulo `INPUT_BUF` for an index. What they stand for is a queue of committed
bytes, from `r` to `w`, and the line that is being edited, from `w` to `e`. `Editor` is that view of
the console, which knows nothing about indices, locks and sleeping readers; a character is typed in
one step.

`consoleread` may have taken a part of what it wants and sleep, while other calls take what comes
next. So the order of the bytes is that in which they are stored at `dst`, whichever call it is. A
`^D` is stored nowhere: it is the call that returns nothing.

## Main definitions

* `Editor`, `Editor.type`, `Editor.take` — the reference editor
* `Holds` — what the indices stand for
* `ops`, `delivered` — what a step of the console is to the editor, and what it delivers

## Main results

* `Next.edit` — one move of the console follows the editor
* `line_editor` — every run does
-/

namespace Xv6

namespace Console

open Transition Monitor

/-! ### The reference editor -/

/-- All bytes that have been committed, how many of them have been taken, and the line being
edited. -/
structure Editor where
  committed : List UInt8
  taken : ℕ
  line : List UInt8
  deriving DecidableEq, Repr

namespace Editor

/-- Committed bytes that are still to be taken. -/
def pending (d : Editor) : List UInt8 := d.committed.drop d.taken

/-- There is no room for another character. -/
def Full (d : Editor) : Prop := INPUT_BUF ≤ d.pending.length + d.line.length

instance (d : Editor) : Decidable d.Full := inferInstanceAs (Decidable (_ ≤ _))

/-- The line is passed on. -/
def commit (d : Editor) : Editor := { d with committed := d.committed ++ d.line, line := [] }

/-- A character is added to the line, which may end with it. -/
def add (d : Editor) (c : UInt8) : Editor :=
  let d' := { d with line := d.line ++ [c] }
  if c = newline ∨ c = ctrlD ∨ d'.Full then d'.commit else d'

/-- A character is typed. -/
def type (d : Editor) (c : UInt8) : Editor :=
  if c = 0 ∨ c = ctrlP then d
  else if c = ctrlU then { d with line := [] }
  else if c = ctrlH ∨ c = del then { d with line := d.line.dropLast }
  else if d.Full then d
  else d.add (unreturn c)

/-- A byte is taken. -/
def take (d : Editor) : Editor := { d with taken := d.taken + 1 }

/-- Nothing has been typed yet. -/
def blank : Editor := ⟨[], 0, []⟩

end Editor

/-- What may happen to the editor. -/
inductive Op
  | type (c : UInt8)
  | take
  deriving DecidableEq, Repr

def Op.run (d : Editor) : Op → Editor
  | .type c => d.type c
  | .take => d.take

/-! ### The indices -/

/-- From `r` to `w` there are the bytes `p`, and from `w` to `e` the bytes `l`. -/
structure Holds (i : Input) (p l : List UInt8) : Prop where
  length : p.length + l.length ≤ INPUT_BUF
  w : i.w = i.r + BitVec.ofNat 32 p.length
  e : i.e = i.r + BitVec.ofNat 32 (p.length + l.length)
  bytes : ∀ j < p.length + l.length, (p ++ l)[j]? = some (i.at (i.r + BitVec.ofNat 32 j))

theorem index_eq (r : BitVec 32) (j : ℕ) :
    (r + BitVec.ofNat 32 j).toNat % INPUT_BUF = (r.toNat + j) % INPUT_BUF := by
  rw [BitVec.toNat_add, BitVec.toNat_ofNat]
  simp only [INPUT_BUF]
  omega

namespace Holds

variable {i : Input} {p l : List UInt8} {c : UInt8}

theorem sub_r (h : Holds i p l) : (i.w - i.r).toNat = p.length ∧
    (i.e - i.r).toNat = p.length + l.length := by
  have hlen := h.length
  rw [h.w, h.e]
  simp only [INPUT_BUF] at hlen
  constructor <;> bv_omega

theorem r_eq_w (h : Holds i p l) : i.r = i.w ↔ p = [] := by
  have hlen := h.length
  rw [← List.length_eq_zero_iff, h.w]
  simp only [INPUT_BUF] at hlen
  bv_omega

theorem e_eq_w (h : Holds i p l) : i.e = i.w ↔ l = [] := by
  have hlen := h.length
  rw [← List.length_eq_zero_iff, h.w, h.e]
  simp only [INPUT_BUF] at hlen
  bv_omega

theorem room (h : Holds i p l) :
    i.e - i.r < BitVec.ofNat 32 INPUT_BUF ↔ p.length + l.length < INPUT_BUF := by
  have hlen := h.length
  rw [h.e]
  simp only [INPUT_BUF] at hlen ⊢
  bv_omega

theorem full (h : Holds i p l) :
    i.e = i.r + BitVec.ofNat 32 INPUT_BUF ↔ INPUT_BUF ≤ p.length + l.length := by
  have hlen := h.length
  rw [h.e]
  simp only [INPUT_BUF] at hlen ⊢
  bv_omega

/-- The first byte is taken. -/
theorem take (h : Holds i (c :: p) l) : i.at i.r = c ∧ Holds { i with r := i.r + 1#32 } p l := by
  have hlen := h.length
  have hbytes := h.bytes
  simp only [List.length_cons] at hlen hbytes
  refine ⟨?_, ⟨by omega, ?_, ?_, fun j hj => ?_⟩⟩
  · have := hbytes 0 (by omega)
    simpa using this.symm
  · have hw := h.w
    simp only [List.length_cons] at hw
    simp only [hw]
    bv_omega
  · have he := h.e
    simp only [List.length_cons] at he
    simp only [he]
    bv_omega
  · have hnext := hbytes (j + 1) (by omega)
    have hidx : i.r + BitVec.ofNat 32 (j + 1) = i.r + 1#32 + BitVec.ofNat 32 j := by bv_omega
    rw [hidx, List.cons_append, List.getElem?_cons_succ] at hnext
    exact hnext

/-- A byte is stored behind the line. -/
theorem put (h : Holds i p l) (hroom : p.length + l.length < INPUT_BUF) (c : UInt8) :
    Holds (i.put c) p (l ++ [c]) := by
  have hnew : p.length + (l ++ [c]).length = p.length + l.length + 1 := by
    rw [List.length_append, List.length_singleton, Nat.add_assoc]
  refine ⟨by omega, h.w, ?_, fun j hj => ?_⟩
  · rw [hnew]
    simp only [Input.put, h.e]
    bv_omega
  · have he : i.e.toNat % INPUT_BUF = (i.r.toNat + (p.length + l.length)) % INPUT_BUF := by
      rw [h.e, index_eq]
    rw [hnew] at hj
    rw [← List.append_assoc, Input.at, index_eq]
    simp only [Input.put]
    rw [Bytes.get_set, he]
    by_cases hlast : j = p.length + l.length
    · rw [hlast, if_pos ⟨rfl, Nat.mod_lt _ (by decide)⟩, ← List.length_append,
        List.getElem?_concat_length]
    · have hlt : j < p.length + l.length := by omega
      have hne : (i.r.toNat + j) % INPUT_BUF ≠ (i.r.toNat + (p.length + l.length)) % INPUT_BUF := by
        simp only [INPUT_BUF] at hroom ⊢
        omega
      rw [if_neg fun hh => hne hh.1, List.getElem?_append_left
        (by rw [List.length_append]; exact hlt), h.bytes j hlt, Input.at, index_eq]

/-- The line is passed on. -/
theorem commit (h : Holds i p l) : Holds { i with w := i.e } (p ++ l) [] := by
  have hlen : (p ++ l).length + ([] : List UInt8).length = p.length + l.length := by
    rw [List.length_append, List.length_nil, Nat.add_zero]
  refine ⟨hlen.trans_le h.length, ?_, ?_, fun j hj => ?_⟩
  · simp only [List.length_append]
    exact h.e
  · rw [hlen]
    exact h.e
  · rw [hlen] at hj
    rw [List.append_nil]
    exact h.bytes j hj

/-- The last character of the line is erased. -/
theorem erase (h : Holds i p (l ++ [c])) :
    i.at (i.e - 1#32) = c ∧ Holds { i with e := i.e - 1#32 } p l := by
  have hlen := h.length
  have hbytes := h.bytes
  have he := h.e
  rw [List.length_append, List.length_singleton] at hlen hbytes he
  have he' : i.e - 1#32 = i.r + BitVec.ofNat 32 (p.length + l.length) := by
    rw [he]
    bv_omega
  refine ⟨?_, ⟨by omega, h.w, he', fun j hj => ?_⟩⟩
  · have hlast := hbytes (p.length + l.length) (by omega)
    rw [← List.append_assoc, ← List.length_append, List.getElem?_concat_length,
      List.length_append] at hlast
    rw [he']
    exact (Option.some.inj hlast).symm
  · have hold := hbytes j (by omega)
    rw [← List.append_assoc, List.getElem?_append_left (by rw [List.length_append]; omega)] at hold
    exact hold

end Holds

/-! ### One move -/

/-- What `consoleread` delivers. -/
inductive Output
  /-- A byte, stored at `dst`. -/
  | byte (c : UInt8)
  /-- The end of the file: a call returns nothing. -/
  | eof
  deriving DecidableEq, Repr

/-- How a committed byte is delivered. -/
def Output.of (c : UInt8) : Output := if c = ctrlD then .eof else .byte c

/-- The bytes that a call of `consoleread` has stored at `dst`. -/
def Point.got : Point → List UInt8
  | .read _ got | .readSleep _ got | .readEnd got => got
  | _ => []

/-- What a move from a point delivers. -/
def deliveredBy (k : Point) : Move Input Point Chan Result → List Output
  | .go k' _ => (k'.got.drop k.got.length).map .byte
  | .leave (.read []) _ => [.eof]
  | _ => []

/-- A `^D` that has been taken by a call which has yet to return. -/
def Point.eof : Point → List Output
  | .readEnd [] => [.eof]
  | _ => []

/-- What is done at a point, to the editor. A line is killed as soon as the `^U` is there. -/
def Point.ops (i : Input) : Point → List Op
  | .intr (c :: _) _ => [.type c]
  | .read n got =>
    if got.length < n ∧ i.r ≠ i.w ∧ (i.at i.r = ctrlD → got = []) then [.take] else []
  | _ => []

/-- In the loop that kills a line. -/
def Point.kills : Point → Bool
  | .killLine _ _ => true
  | _ => false

/-- A call of `consoleread` wants something. -/
def Point.Wants : Point → Prop
  | .read n _ | .readSleep n _ => 0 < n
  | _ => True

/-- The console stands for the editor, but that the line is `l`. -/
structure Stands (i : Input) (d : Editor) (l : List UInt8) (outs : List Output) : Prop where
  taken : d.taken ≤ d.committed.length
  ring : Holds i d.pending l
  plain : newline ∉ l
  order : outs = (d.committed.take d.taken).map Output.of

/-- **The console stands for the editor**, at a point of the thread that has the lock. While a line
is killed, a part of it is still in the buffer. -/
def Rel (k : Option Point) (i : Input) (d : Editor) (outs : List Output) : Prop :=
  ∃ l, Stands i d l (outs ++ k.elim [] Point.eof) ∧ if k.any Point.kills then d.line =
    [] else l = d.line

namespace Stands

variable {i : Input} {d : Editor} {l : List UInt8} {outs : List Output} {c : UInt8}

theorem take (h : Stands i d l outs) (hne : i.r ≠ i.w) :
    Stands { i with r := i.r + 1#32 } d.take l (outs ++ [.of (i.at i.r)]) := by
  obtain ⟨c, p, hp⟩ : ∃ c p, d.pending = c :: p :=
    List.exists_cons_of_ne_nil fun hnil => hne (h.ring.r_eq_w.mpr hnil)
  have hget : d.committed[d.taken]? = some c := by
    rw [← Nat.add_zero d.taken, ← List.getElem?_drop]
    change d.pending[0]? = _
    rw [hp]
    rfl
  have hrest : d.take.pending = p := by
    have : (d.committed.drop d.taken).tail = p := by
      change d.pending.tail = p
      rw [hp, List.tail_cons]
    rw [← this, List.tail_drop]
    rfl
  have hring := h.ring
  rw [hp] at hring
  obtain ⟨hc, hring'⟩ := hring.take
  refine ⟨?_, by rw [hrest]; exact hring', h.plain, ?_⟩
  · exact (List.getElem?_eq_some_iff.mp hget).1
  · change _ = (d.committed.take (d.taken + 1)).map Output.of
    rw [List.take_add_one, hget, List.map_append, ← h.order, hc]
    rfl

/-- Another line is being edited. -/
theorem setLine (h : Stands i d l outs) (x : List UInt8) : Stands i { d with line := x } l outs :=
  ⟨h.taken, h.ring, h.plain, h.order⟩

theorem erase (h : Stands i d (l ++ [c]) outs) :
    i.at (i.e - 1#32) = c ∧ Stands { i with e := i.e - 1#32 } d l outs := by
  obtain ⟨hc, hring⟩ := h.ring.erase
  exact ⟨hc, h.taken, hring, fun hl => h.plain (List.mem_append_left _ hl), h.order⟩

theorem put (h : Stands i d l outs) (hroom : d.pending.length + l.length < INPUT_BUF)
    (hc : c ≠ newline) : Stands (i.put c) d (l ++ [c]) outs := by
  refine ⟨h.taken, h.ring.put hroom c, ?_, h.order⟩
  rw [List.mem_append, List.mem_singleton]
  exact fun hmem => hmem.elim h.plain fun heq => hc heq.symm

/-- The line is passed on, with a byte behind it. -/
theorem commit (h : Stands i d d.line outs) (hroom : d.pending.length + d.line.length < INPUT_BUF)
    (c : UInt8) :
    Stands { i.put c with w := i.e + 1#32 } ({ d with line := d.line ++ [c] } : Editor).commit []
      outs := by
  have hring := (h.ring.put hroom c).commit
  have hpending : ({ d with line := d.line ++ [c] } : Editor).commit.pending =
      d.pending ++ (d.line ++ [c]) := List.drop_append_of_le_length h.taken
  refine ⟨?_, ?_, List.not_mem_nil, ?_⟩
  · change d.taken ≤ (d.committed ++ (d.line ++ [c])).length
    rw [List.length_append]
    exact h.taken.trans (Nat.le_add_right ..)
  · rw [hpending]
    exact hring
  · change outs = ((d.committed ++ (d.line ++ [c])).take d.taken).map Output.of
    rw [List.take_append_of_le_length h.taken]
    exact h.order

end Stands

/-- Characters that are neither kept out nor do something to the line. -/
theorem Editor.type_of_plain {c : UInt8} (hP : c ≠ ctrlP) (hU : c ≠ ctrlU)
    (hH : ¬ (c = ctrlH ∨ c = del))
    (h0 : c ≠ 0) (d : Editor) : d.type c = if d.Full then d else d.add (unreturn c) := by
  rw [Editor.type, if_neg (not_or.mpr ⟨h0, hP⟩), if_neg hU, if_neg hH]

/-- With `c` in the buffer behind the line, the console and the editor agree on whether it ends. -/
theorem Holds.commits_iff {i : Input} {d : Editor} {c : UInt8} (h : Holds i d.pending d.line)
    (hroom : d.pending.length + d.line.length < INPUT_BUF) :
    (i.put c).Commits c ↔
      c = newline ∨ c = ctrlD ∨ ({ d with line := d.line ++ [c] } : Editor).Full :=
  or_congr_right (or_congr_right (h.put hroom c).full)

section Move

variable {i : Input} {d : Editor} {outs : List Output} {k : Option Point}

theorem Rel.stands (h : Rel k i d outs) (hk : k.any Point.kills = false)
    (he : k.elim [] Point.eof = []) : Stands i d d.line outs := by
  obtain ⟨l, hl, hline⟩ := h
  rw [hk] at hline
  rw [he, List.append_nil] at hl
  exact hline ▸ hl

theorem Stands.rel (h : Stands i d d.line outs) (hk : k.any Point.kills = false)
    (he : k.elim [] Point.eof = []) : Rel k i d outs := by
  refine ⟨d.line, ?_, ?_⟩
  · rw [he, List.append_nil]
    exact h
  · rw [hk]
    rfl

/-- A byte is taken and stored at `dst`. -/
theorem Stands.takeByte (h : Stands i d d.line outs) (hne : i.r ≠ i.w) (hc : i.at i.r ≠ ctrlD)
    (hk : k.any Point.kills = false) (he : k.elim [] Point.eof = []) :
    Rel k { i with r := i.r + 1#32 } d.take (outs ++ [.byte (i.at i.r)]) := by
  have htake := h.take hne
  rw [Output.of, if_neg hc] at htake
  exact Stands.rel htake hk he

theorem ops_read {n : ℕ} {got : List UInt8} (hn : got.length < n) (hi : i.r ≠ i.w)
    (hc : i.at i.r = ctrlD → got = []) : Point.ops i (.read n got) = [.take] :=
  if_pos ⟨hn, hi, hc⟩

theorem Stands.backspace (h : Stands i d d.line outs) {c : UInt8} (hc : c = ctrlH ∨ c = del) :
    Stands (if i.e ≠ i.w then { i with e := i.e - 1#32 } else i) (d.type c)
    (d.type c).line outs := by
  have htype : d.type c = { d with line := d.line.dropLast } := by
    rw [Editor.type]
    obtain rfl | rfl := hc <;> rfl
  rw [htype]
  obtain hnil | ⟨x, b, hx⟩ := List.eq_nil_or_concat' d.line
  · rw [if_neg (not_not.mpr (h.ring.e_eq_w.mpr hnil)), hnil]
    exact (hnil ▸ h).setLine _
  · have hne : i.e ≠ i.w := fun he => by
      have hnil := h.ring.e_eq_w.mp he
      rw [hx] at hnil
      exact List.append_ne_nil_of_right_ne_nil x (List.cons_ne_nil b []) hnil
    rw [if_pos hne]
    have h' := h
    rw [hx] at h'
    have hdrop : d.line.dropLast = x := by rw [hx, List.dropLast_concat]
    exact hdrop.symm ▸ (h'.erase.2).setLine _

/-- **One move of the console** follows the editor. -/
theorem Next.edit {killed : Bool} {k : Point} {m : Move Input Point Chan Result}
    (h : Next killed i k m) (hk : k.Wants) (hrel : Rel (some k) i d outs) :
    Rel m.point (m.data i) ((k.ops i).foldl Op.run d) (outs ++ deliveredBy k m) := by
  cases h with
  | readFails n got hn hi _ =>
    have hops : Point.ops i (.read n got) = [] := if_neg fun hh => hh.2.1 hi
    rw [hops]
    exact (List.append_nil outs).symm ▸ (hrel.stands rfl rfl).rel rfl rfl
  | readWaits n got hn hi _ =>
    have hops : Point.ops i (.read n got) = [] := if_neg fun hh => hh.2.1 hi
    have hout : deliveredBy (.read n got) (.go (.readSleep n got) i) = [] := by
      simp [deliveredBy, Point.got]
    rw [hops, hout, List.append_nil]
    exact (hrel.stands rfl rfl).rel rfl rfl
  | readEof n got hn hi hc =>
    have hs := hrel.stands rfl rfl
    have hout : ∀ i', deliveredBy (.read n got) (.go (.readEnd got) i') = [] := fun i' => by
      simp [deliveredBy, Point.got]
    rw [hout, List.append_nil]
    cases got with
    | nil =>
      rw [ops_read hn hi fun _ => rfl]
      have htake := hs.take hi
      rw [hc] at htake
      exact ⟨d.line, htake, rfl⟩
    | cons b got =>
      have hops : Point.ops i (.read n (b :: got)) = [] := if_neg fun hh => nomatch hh.2.2 hc
      rw [hops]
      exact hs.rel rfl rfl
  | readLine n got hn hi hc =>
    have hne : i.at i.r ≠ ctrlD := by
      rw [hc]
      decide
    have hout : deliveredBy (.read n got) (.go (.readEnd (got ++ [i.at i.r])) { i with
        r := i.r + 1#32 }) = [.byte (i.at i.r)] := by simp [deliveredBy, Point.got]
    rw [ops_read hn hi fun h => absurd h hne, hout]
    refine (hrel.stands rfl rfl).takeByte hi hne rfl ?_
    cases got <;> rfl
  | readByte n got hn hi hc _ =>
    have hout : deliveredBy (.read n got) (.go (.read n (got ++ [i.at i.r])) { i with
        r := i.r + 1#32 }) = [.byte (i.at i.r)] := by simp [deliveredBy, Point.got]
    rw [ops_read hn hi fun h => absurd h hc, hout]
    exact (hrel.stands rfl rfl).takeByte hi hc rfl rfl
  | readDone n got hn =>
    have hops : Point.ops i (.read n got) = [] := if_neg fun hh => Nat.not_lt.mpr hn hh.1
    have hout : deliveredBy (.read n got) (.go (.readEnd got) i) = [] := by
      simp [deliveredBy, Point.got]
    rw [hops, hout, List.append_nil]
    refine (hrel.stands rfl rfl).rel rfl ?_
    -- a call that wants something has got something
    cases got with
    | nil => exact absurd hk (Nat.not_lt.mpr hn)
    | cons b got => rfl
  | readSleep n got => exact (List.append_nil outs).symm ▸ (hrel.stands rfl rfl).rel rfl rfl
  | readEnd got =>
    obtain ⟨l, hl, hline⟩ := hrel
    cases got with
    | nil =>
      refine ⟨l, ?_, hline⟩
      rw [List.append_assoc]
      exact hl
    | cons b got =>
      refine ⟨l, ?_, hline⟩
      rw [List.append_assoc]
      exact hl
  | handled dump => exact (List.append_nil outs).symm ▸ (hrel.stands rfl rfl).rel rfl rfl
  | procdump cs dump => exact (List.append_nil outs).symm ▸ (hrel.stands rfl rfl).rel rfl rfl
  | killStart cs dump =>
    have hs := (hrel.stands rfl rfl).setLine []
    refine ⟨d.line, ?_, rfl⟩
    change Stands i { d with line := [] } d.line ((outs ++ []) ++ [])
    rw [List.append_nil, List.append_nil]
    exact hs
  | backspace c cs dump hc =>
    change Rel _ _ (d.type c) (outs ++ [])
    rw [List.append_nil]
    exact Stands.rel ((hrel.stands rfl rfl).backspace hc) rfl rfl
  | store c cs dump hP hU hH h0 hi hn =>
    have hs := hrel.stands rfl rfl
    have hroom := hs.ring.room.mp hi
    have hfull : ¬ d.Full := Nat.not_le.mpr hroom
    have hmore := mt (hs.ring.commits_iff hroom).mpr hn
    change Rel _ _ (d.type c) (outs ++ [])
    rw [List.append_nil, Editor.type_of_plain hP hU hH h0, if_neg hfull, Editor.add,
      if_neg hmore]
    exact Stands.rel ((hs.put hroom fun h => hmore (.inl h)).setLine _) rfl rfl
  | storeLast c cs dump hP hU hH h0 hi hn =>
    have hs := hrel.stands rfl rfl
    have hroom := hs.ring.room.mp hi
    have hfull : ¬ d.Full := Nat.not_le.mpr hroom
    have hlast := (hs.ring.commits_iff hroom).mp hn
    change Rel _ _ (d.type c) (outs ++ [])
    rw [List.append_nil, Editor.type_of_plain hP hU hH h0, if_neg hfull, Editor.add,
      if_pos hlast]
    exact Stands.rel (hs.commit hroom _) rfl rfl
  | dropped c cs dump hP hU hH h =>
    have hs := hrel.stands rfl rfl
    have htype : d.type c = d := by
      by_cases h0 : c = 0
      · exact if_pos (.inl h0)
      · have hfull : d.Full := Nat.not_lt.mp fun hlt =>
          absurd (hs.ring.room.mpr hlt) (BitVec.not_lt.mpr (h.resolve_left h0))
        rw [Editor.type_of_plain hP hU hH h0, if_pos hfull]
    change Rel _ _ (d.type c) (outs ++ [])
    rw [List.append_nil, htype]
    exact hs.rel rfl rfl
  | commit cs dump => exact (List.append_nil outs).symm ▸ (hrel.stands rfl rfl).rel rfl rfl
  | killByte cs dump hi hc =>
    obtain ⟨l, hl, hline⟩ := hrel
    obtain ⟨x, c, rfl⟩ : ∃ x c, l = x ++ [c] :=
      (List.eq_nil_or_concat' l).resolve_left fun hnil => hi (hl.ring.e_eq_w.mpr hnil)
    refine ⟨x, ?_, hline⟩
    rw [List.append_assoc]
    exact hl.erase.2
  | killDone cs dump h =>
    obtain ⟨l, hl, hline⟩ := hrel
    have hnil : l = [] := by
      by_contra hne
      obtain ⟨x, c, rfl⟩ := (List.eq_nil_or_concat' l).resolve_left hne
      refine h.elim (fun he => hne (hl.ring.e_eq_w.mp he)) fun hnl => hl.plain ?_
      rw [← hl.erase.1, hnl]
      exact List.mem_append_right _ (List.mem_singleton_self _)
    refine ⟨l, ?_, hnil.trans hline.symm⟩
    rw [List.append_assoc]
    exact hl

end Move

/-! ### Runs -/

variable {τ : Type*}

/-- The console and its users. -/
abbrev ConsoleState (τ : Type*) := Monitor.State τ Input Point Chan Result

/-- What a step is to the editor. -/
def ops (s : ConsoleState τ) : Event τ Point → List Op
  | .move t => (s.thread t).point.elim [] (Point.ops s.data)
  | _ => []

/-- What a step delivers. -/
def delivered (s : ConsoleState τ) : Event τ Point → List Output
  | .move t => (s.thread t).point.elim [] fun k => deliveredBy k (next (s.marked t) k s.data)
  | _ => []

/-- Calls of `consoleread` ask for something. -/
def Asks : Event τ Point → Prop
  | .call _ (.read n _) => 0 < n
  | _ => True

/-- The points at which a thread gets the lock. -/
def Point.Starts : Point → Prop
  | .read _ _ | .intr _ _ => True
  | _ => False

/-- Where a thread may be. -/
def Placed : Thread Point Chan Result → Prop
  | .out _ => True
  | .want k | .asleep _ k => k.Starts ∧ k.Wants
  | .inside k => k.Wants

theorem local_placed [DecidableEq τ] (s : ConsoleState τ) {e : Event τ Point} (he : Asks e) :
    Local code s e fun _ th => Placed th where
  call := by
    rintro t k rfl hk
    cases k with
    | read n got => exact ⟨trivial, he⟩
    | intr cs dump => exact ⟨trivial, trivial⟩
    | _ => cases hk
  enter h := h.2
  go := by
    intro m k d k' d' h hm
    have hn := Next.of_next m k d
    change next m k d = _ at hm
    rw [hm] at hn
    cases hn <;> trivial
  wakeup := by
    intro m k d c k' h hm
    have hn := Next.of_next m k d
    change next m k d = _ at hm
    rw [hm] at hn
    cases hn
    trivial
  wait := by
    intro m k d c k' h hm
    have hn := Next.of_next m k d
    change next m k d = _ at hm
    rw [hm] at hn
    cases hn
    exact ⟨trivial, h⟩
  out := trivial
  woken h := h
  mark := by
    intro t _ h
    cases ht : s.thread t <;> rw [ht] at h <;> exact h

/-- The invariant, with what the editor has done and what has been delivered so far. -/
structure Inv (os : List Op) (outs : List Output) (s : ConsoleState τ) : Prop where
  exclusive : Exclusive s
  placed : ∀ t, Placed (s.thread t)
  rel : Rel s.point s.data (os.foldl Op.run .blank) outs

theorem Inv.step [DecidableEq τ] {os : List Op} {outs : List Output} {s s' : ConsoleState τ}
    {e : Event τ Point} (hs : Inv os outs s) (he : Asks e) (h : step code s e = some s') :
    Inv (os ++ ops s e) (outs ++ delivered s e) s' := by
  have hv := View.of_step hs.exclusive h
  refine ⟨hs.exclusive.step h, (local_placed s he).step hs.placed h, ?_⟩
  rw [List.foldl_append]
  generalize s'.point = k', s'.data = i', sleepers s'.thread = A at hv ⊢
  cases hv with
  | quiet e A hmove hA =>
    have h₁ : ops s e = [] := by cases e <;> first | rfl | exact absurd rfl (hmove _)
    have h₂ : delivered s e = [] := by cases e <;> first | rfl | exact absurd rfl (hmove _)
    rw [h₁, h₂, List.append_nil]
    exact hs.rel
  | enter t k ht hp =>
    have hplaced := hs.placed t
    rw [ht] at hplaced
    have hrel := hs.rel
    rw [hp] at hrel
    have hk : (some k).any Point.kills = false ∧ (some k).elim [] Point.eof = [] := by
      cases k with
      | read | intr => exact ⟨rfl, rfl⟩
      | _ => exact hplaced.1.elim
    exact (List.append_nil outs).symm ▸ (hrel.stands rfl rfl).rel hk.1 hk.2
  | move t k m ht hp hm =>
    have hn : Next (s.marked t) s.data k m := by
      rw [hm]
      exact Next.of_next ..
    have hplaced := hs.placed t
    rw [ht] at hplaced
    have hrel := hs.rel
    rw [hp] at hrel
    have h₁ : ops s (.move t) = k.ops s.data := by simp [ops, ht, Thread.point]
    have h₂ : delivered s (.move t) = deliveredBy k m := by
      simp only [delivered, ht, Thread.point, hm, Option.elim_some]
      rfl
    rw [h₁, h₂]
    exact hn.edit hplaced hrel

/-- A console that has been used before and is empty again: its indices are anywhere. -/
def idle (buf : Bytes INPUT_BUF) (c : BitVec 32) : Input := ⟨buf, c, c, c⟩

theorem Inv.init (buf : Bytes INPUT_BUF) (c : BitVec 32) :
    Inv [] [] (init (idle buf c) : ConsoleState τ) := by
  have hring : Holds (idle buf c) [] [] := by
    refine ⟨Nat.zero_le _, ?_, ?_, fun j hj => absurd hj (Nat.not_lt_zero j)⟩
    · exact (BitVec.add_zero c).symm
    · exact (BitVec.add_zero c).symm
  refine ⟨fun _ _ ht => ?_, fun _ => trivial,
    ⟨[], ⟨Nat.le_refl 0, hring, List.not_mem_nil, rfl⟩, rfl⟩⟩
  cases ht

theorem inv_of_run [DecidableEq τ] {buf : Bytes INPUT_BUF} {c : BitVec 32}
    {es : List (Event τ Point)}
    {s : ConsoleState τ} (hr : run (step code) (init (idle buf c)) es = some s)
    (hes : ∀ e ∈ es, Asks e) :
    Inv (record (step code) ops (init (idle buf c)) es)
      (record (step code) delivered (init (idle buf c)) es) s := by
  induction es using List.reverseRecOn generalizing s with
  | nil =>
    cases hr
    exact Inv.init buf c
  | append_singleton es e ih =>
    obtain ⟨u, hru, hlast⟩ := (run_append_eq_some _).mp hr
    obtain ⟨s', hst, hnil⟩ := (run_cons_eq_some _).mp hlast
    cases hnil
    rw [record_snoc _ _ hru, record_snoc _ _ hru]
    exact (ih hru fun e he => hes e (List.mem_append_left _ he)).step
      (hes e (List.mem_append_right _ (List.mem_singleton_self e))) hst

/-- **The line editor.** At every moment of every run of typed characters and calls of
`consoleread`, whose indices may start anywhere: `r`, `w` and `e` are in this order and at most
`INPUT_BUF` apart; what has been delivered is what the reference editor has committed, up to the
number of bytes taken. The only thing that may be missing is the return of a call that has taken a
`^D` and still has the lock. When the lock is free, the rest of what has been committed is between
`r` and `w`, and the line between `w` and `e`. -/
theorem line_editor [DecidableEq τ] (buf : Bytes INPUT_BUF) (c : BitVec 32)
    (es : List (Event τ Point))
    (s : ConsoleState τ) (hr : run (step code) (init (idle buf c)) es = some s)
    (hes : ∀ e ∈ es, Asks e) :
    let d := (record (step code) ops (init (idle buf c)) es).foldl Op.run .blank
    let outs := record (step code) delivered (init (idle buf c)) es
    (s.data.w - s.data.r ≤ s.data.e - s.data.r ∧
      s.data.e - s.data.r ≤ BitVec.ofNat 32 INPUT_BUF) ∧
    d.taken ≤ d.committed.length ∧
    outs ++ s.point.elim [] Point.eof = (d.committed.take d.taken).map Output.of ∧
    (s.lock = none → outs = (d.committed.take d.taken).map Output.of ∧
      Holds s.data d.pending d.line) := by
  intro d outs
  obtain ⟨-, -, hrel⟩ := inv_of_run hr hes
  have hfree : s.lock = none → s.point = none := fun hl => by rw [State.point, hl]; rfl
  refine ⟨?_, ?_, ?_, fun hl => ?_⟩
  · obtain ⟨l, hl, -⟩ := hrel
    obtain ⟨hw, he⟩ := hl.ring.sub_r
    have hlen := hl.ring.length
    simp only [INPUT_BUF] at hlen ⊢
    constructor <;> bv_omega
  · obtain ⟨l, hl, -⟩ := hrel
    exact hl.taken
  · obtain ⟨l, hl, -⟩ := hrel
    exact hl.order
  · rw [hfree hl] at hrel
    have hs := hrel.stands rfl rfl
    exact ⟨hs.order, hs.ring⟩

/-- A call of `consoleread`, with the lock. -/
abbrev callRead : List (Event Bool Point) := [.call false (.read 10 []), .enter false]

/-- A line is typed with a mistake in it, then half a line and `^D`; three calls read it. -/
def typeAndRead : List (Event Bool Point) :=
  ([.call true (.intr [97, 8, 98, 13, 99, 4] false), .enter true] : List (Event Bool Point)) ++
    List.replicate 9 (Event.move true) ++ callRead ++ List.replicate 3 (Event.move false) ++
    callRead ++ List.replicate 3 (Event.move false) ++ callRead ++
    List.replicate 2 (Event.move false)

/-- The indices wrap around on the way, and the last call returns nothing. -/
theorem line_editor_wraps :
    ∃ s : ConsoleState Bool, run (step code) (init (idle (.zero _) (-1#32))) typeAndRead = some s ∧
      record (step code) delivered (init (idle (.zero _) (-1#32))) typeAndRead =
        [.byte 98, .byte newline, .byte 99, .eof] ∧
      s.data.w - s.data.r ≤ s.data.e - s.data.r := by
  obtain ⟨s, hs, -⟩ := exists_of_any (step code) (init (idle (.zero _) (-1#32))) typeAndRead
    (fun _ => True) (by decide +kernel)
  refine ⟨s, hs, by decide +kernel, (line_editor (.zero _) (-1#32) typeAndRead s hs ?_).1.1⟩
  simp [typeAndRead, List.replicate, Asks]

end Console

end Xv6
