import Xv6.Pipe.Machine

/-!
# A pipe is a queue

The buffer is indexed by two counters of 32 bits that are never reset, so what is in the pipe is
what lies between them. As `PIPESIZE` divides `2 ^ 32`, an index does not jump when a counter wraps
around.

Beside a run stand two histories: the bytes that the rounds of `pipewrite` have stored, and the
bytes that the calls of `piperead` have returned. The invariant is that the first is the second,
followed by what a `piperead` that is still inside the lock has taken, followed by what is in the
pipe.

## Main definitions

* `Pipe.contents` — the bytes between `nread` and `nwrite`
* `Pipe.stored`, `Pipe.returned` — what a step stores and what it returns

## Main results

* `Pipe.fifo` — every run of any number of readers and writers keeps the order
-/

namespace Xv6

namespace Pipe

open Transition Monitor

/-- How many bytes the pipe holds, `p->nwrite - p->nread`. -/
def count (p : Pipe) : ℕ := (p.nwrite - p.nread).toNat

/-- The bytes between `nread` and `nwrite`. -/
def contents (p : Pipe) : List UInt8 :=
  (List.range p.count).map fun i => p.data.get ((p.nread + BitVec.ofNat 32 i).toNat % PIPESIZE)

/-! ### The counters -/

theorem index_eq (r : BitVec 32) (i : ℕ) :
    (r + BitVec.ofNat 32 i).toNat % PIPESIZE = (r.toNat + i) % PIPESIZE := by
  rw [BitVec.toNat_add, BitVec.toNat_ofNat]
  simp only [PIPESIZE]
  omega

theorem count_eq_zero {p : Pipe} : p.count = 0 ↔ p.Empty := by
  rw [count, Empty]
  constructor
  · intro h
    bv_omega
  · intro h
    rw [h]
    simp

theorem count_ne_full {p : Pipe} (h : ¬ p.Full) : p.count ≠ PIPESIZE := by
  intro h'
  rw [count] at h'
  exact h (by rw [Full]; bv_omega)

theorem nwrite_eq (p : Pipe) :
    p.nwrite.toNat % PIPESIZE = (p.nread.toNat + p.count) % PIPESIZE := by
  simp only [count, PIPESIZE]
  bv_omega

theorem length_contents (p : Pipe) : p.contents.length = p.count := by
  simp [contents]

theorem count_put {p : Pipe} (b : UInt8) (h : p.count < PIPESIZE) :
    (p.put b).count = p.count + 1 := by
  simp only [count, put, PIPESIZE] at h ⊢
  bv_omega

/-- `pipewrite` stores behind what is there. -/
theorem contents_put {p : Pipe} (b : UInt8) (h : p.count < PIPESIZE) :
    (p.put b).contents = p.contents ++ [b] := by
  rw [contents, count_put b h, List.range_succ, List.map_append, contents]
  congr 1
  · refine List.map_congr_left fun i hi => ?_
    have hi : i < p.count := List.mem_range.mp hi
    have hne : (p.nread + BitVec.ofNat 32 i).toNat % PIPESIZE ≠ p.nwrite.toNat % PIPESIZE := by
      rw [index_eq, nwrite_eq]
      simp only [PIPESIZE] at h ⊢
      omega
    simp only [put]
    rw [Bytes.get_set, if_neg fun h => hne h.1]
  · have heq : (p.nread + BitVec.ofNat 32 p.count).toNat % PIPESIZE =
        p.nwrite.toNat % PIPESIZE := by
      rw [index_eq, nwrite_eq]
    simp only [put, List.map_cons, List.map_nil, heq]
    rw [Bytes.get_set, if_pos ⟨rfl, Nat.mod_lt _ (by decide)⟩]

/-- `piperead` takes the first byte. -/
theorem contents_take {p : Pipe} (h : ¬ p.Empty) :
    p.contents = p.front :: contents { p with nread := p.nread + 1#32 } := by
  have hc : p.count = count { p with nread := p.nread + 1#32 } + 1 := by
    simp only [count]
    rw [Empty] at h
    bv_omega
  rw [contents, hc, List.range_succ_eq_map, List.map_cons, List.map_map]
  congr 1
  · simp [front]
  · refine List.map_congr_left fun i _ => ?_
    have hi : p.nread + BitVec.ofNat 32 (i + 1) = p.nread + 1#32 + BitVec.ofNat 32 i := by
      bv_omega
    rw [Function.comp_apply, hi]

/-! ### Histories -/

/-- The byte that is stored in the buffer at a point, if any. -/
def Point.stored (p : Pipe) : Point → List UInt8
  | .write addr i => if p.Full then [] else addr[i]?.toList
  | _ => []

/-- The bytes that a call of `piperead` has taken when it is at a point. -/
def Point.taken : Point → List UInt8
  | .readCopy _ got | .readEnd got => got
  | _ => []

/-- The bytes that a call of `piperead` returns with a move. -/
def returnedBy : Move Pipe Point Chan Result → List UInt8
  | .leave (.read got) _ => got
  | _ => []

/-- **What one move does to the queue**: what it stores goes in behind, what it returns has been
taken in front. -/
theorem Next.queue {killed : Bool} {p : Pipe} {k : Point} {m : Move Pipe Point Chan Result}
    (h : Next killed p k m) (hc : p.count ≤ PIPESIZE) :
    k.taken ++ p.contents ++ k.stored p =
        returnedBy m ++ (m.point.elim [] Point.taken ++ (m.data p).contents) ∧
      (m.data p).count ≤ PIPESIZE := by
  cases h with
  | put addr i b hb hf =>
    have hlt : p.count < PIPESIZE := lt_of_le_of_ne hc (count_ne_full hf)
    refine ⟨?_, (count_put b hlt).trans_le hlt⟩
    have hst : Point.stored p (.write addr i) = [b] := by simp [Point.stored, hf, hb]
    rw [hst]
    exact (contents_put b hlt).symm
  | take n got hn he =>
    have hc' : p.count = count { p with nread := p.nread + 1#32 } + 1 := by
      simpa [length_contents] using congrArg List.length (contents_take he)
    refine ⟨?_, ?_⟩
    · simp [Point.taken, Point.stored, returnedBy, Move.point, Move.data, contents_take he]
    · exact (Nat.le_succ _).trans (hc'.symm.trans_le hc)
  | writeFails addr i hf h =>
    have hst : Point.stored p (.write addr i) = [] := by simp [Point.stored, hf]
    exact ⟨by rw [hst]; exact List.append_nil _, hc⟩
  | writeFull addr i hf ho hk =>
    have hst : Point.stored p (.write addr i) = [] := by simp [Point.stored, hf]
    exact ⟨by rw [hst]; exact List.append_nil _, hc⟩
  | writeDone addr i hi =>
    have hst : Point.stored p (.write addr i) = [] := by simp [Point.stored, hi]
    exact ⟨by rw [hst]; exact List.append_nil _, hc⟩
  | _ => exact ⟨List.append_nil _, hc⟩

variable {τ : Type*}

/-- The bytes that a step stores in the buffer. -/
def stored (s : PipeState τ) : Event τ Point → List UInt8
  | .move t => (s.thread t).point.elim [] (Point.stored s.data)
  | _ => []

/-- The bytes that a call of `piperead` returns with a step. -/
def returned (s : PipeState τ) : Event τ Point → List UInt8
  | .move t => (s.thread t).point.elim [] fun k => returnedBy (next (s.marked t) k s.data)
  | _ => []

/-- The bytes that the `piperead` inside the lock has taken, and not yet returned. -/
def taken (s : PipeState τ) : List UInt8 := s.point.elim [] Point.taken

/-! ### Runs -/

/-- The invariant, with what has been stored and what has been returned so far. -/
structure Queue (ins outs : List UInt8) (s : PipeState τ) : Prop where
  wf : Wf s
  order : ins = outs ++ (taken s ++ s.data.contents)
  count : s.data.count ≤ PIPESIZE

theorem Starts.taken {k : Point} (h : Starts k) : k.taken = [] := by
  cases h <;> rfl

theorem Queue.step [DecidableEq τ] {ins outs : List UInt8} {s s' : PipeState τ} {e : Event τ Point}
    (hs : Queue ins outs s) (h : step code s e = some s') :
    Queue (ins ++ stored s e) (outs ++ returned s e) s' := by
  have hv := View.of_step hs.wf.exclusive h
  suffices hq : ins ++ stored s e = outs ++ returned s e ++ (taken s' ++ s'.data.contents) ∧
      s'.data.count ≤ PIPESIZE from
    ⟨hs.wf.step h, hq.1, hq.2⟩
  rw [taken]
  generalize s'.point = k', s'.data = p', sleepers s'.thread = A at hv ⊢
  cases hv with
  | quiet e A he hA =>
    have h₁ : stored s e = [] := by cases e <;> first | rfl | exact absurd rfl (he _)
    have h₂ : returned s e = [] := by cases e <;> first | rfl | exact absurd rfl (he _)
    rw [h₁, h₂, List.append_nil, List.append_nil]
    exact ⟨hs.order, hs.count⟩
  | enter t k ht hp =>
    have hk := (hs.wf.starts ht).taken
    have hord := hs.order
    rw [taken, hp] at hord
    simpa [stored, returned, hk] using ⟨hord, hs.count⟩
  | move t k m ht hp hm =>
    have hn : Next (s.marked t) s.data k m := by
      rw [hm]
      exact Next.of_next ..
    obtain ⟨hq, hc⟩ := hn.queue hs.count
    refine ⟨?_, hc⟩
    have h₁ : stored s (.move t) = k.stored s.data := by simp [stored, ht, Thread.point]
    have h₂ : returned s (.move t) = returnedBy m := by
      simp only [returned, ht, Thread.point, hm, Option.elim_some]
      rfl
    have hord := hs.order
    rw [taken, hp, Option.elim_some] at hord
    rw [h₁, h₂, hord, List.append_assoc, List.append_assoc outs, ← hq]

/-- A pipe that has been used before and is empty again: its counters are anywhere. With `0` it is
the pipe that `pipealloc` makes. -/
def idle (data : Bytes PIPESIZE) (c : BitVec 32) : Pipe :=
  { new data with nread := c, nwrite := c }

/-- **First in, first out.** At every moment of every run, what `piperead` has returned is a prefix
of what `pipewrite` has stored. Behind it comes what a `piperead` that still has the lock has taken,
which is nothing when the lock is free, and then what is between `nread` and `nwrite`, which is
never more than `PIPESIZE` bytes. The counters may start anywhere and wrap around any number of
times. -/
theorem fifo [DecidableEq τ] (data : Bytes PIPESIZE) (c : BitVec 32) (es : List (Event τ Point))
    (s : PipeState τ) (hr : run (step code) (init (idle data c)) es = some s) :
    let ins := record (step code) stored (init (idle data c)) es
    let outs := record (step code) returned (init (idle data c)) es
    outs <+: ins ∧ ins = outs ++ (taken s ++ s.data.contents) ∧
      (s.lock = none → ins = outs ++ s.data.contents) ∧
      s.data.contents.length = (s.data.nwrite - s.data.nread).toNat ∧
      (s.data.nwrite - s.data.nread).toNat ≤ PIPESIZE := by
  have h0 : Queue [] [] (init (idle data c) : PipeState τ) := by
    have hempty : (idle data c).count = 0 := count_eq_zero.mpr rfl
    refine ⟨wf_init _, ?_, ?_⟩
    · simp [taken, State.point, init, contents, hempty]
    · exact hempty.trans_le (Nat.zero_le _)
  have hq := record_induct₂ (P := Queue) hr h0 fun _ _ _ _ _ h hst => h.step hst
  refine ⟨⟨_, hq.order.symm⟩, hq.order, fun hl => ?_, length_contents _, hq.count⟩
  have ht : taken s = [] := by rw [taken, State.point, hl]; rfl
  have hord := hq.order
  rwa [ht, List.nil_append] at hord

/-- One process writes two bytes while another reads, and `nwrite` wraps around in between. -/
theorem fifo_wraps :
    ∃ s : PipeState Bool, ∃ es, run (step code) (init (idle (.zero _) (-1#32))) es = some s ∧
      record (step code) returned (init (idle (.zero _) (-1#32))) es = [65, 66] ∧
      record (step code) returned (init (idle (.zero _) (-1#32))) es <+:
        record (step code) stored (init (idle (.zero _) (-1#32))) es := by
  refine ⟨_, [.call true (.write [65, 66, 67] 0), .enter true, .move true, .move true, .move true,
    .move true, .move true, .call false (.read 2), .enter false, .move false, .move false,
    .move false, .move false, .move false], rfl, ?_, (fifo (.zero _) (-1#32) _ _ rfl).1⟩
  decide +kernel

end Pipe

end Xv6
