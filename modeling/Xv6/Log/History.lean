import Xv6.Log.Cache

/-!
# What a run has logged

The observer of a run: every `log_write` with the section it belongs to, that is, the stretch
between a `begin_op` and its `end_op`, the commit groups these writes fall into, and how many calls
of `commit` have returned. `record` is computed from the steps and never read by them.

## Main definitions

* `History`, `record`, `tstep` — the observed system
* `apply` — the contents of the disk after a list of writes
* `Whole` — no section is spread over two groups
-/

namespace Xv6

namespace Log

open State

/-- A `log_write`: the section, the block and its contents. -/
structure Entry where
  sec : ℕ
  block : ℕ
  data : Block

/-- What has been logged so far. -/
structure History where
  /-- The groups handed to `commit`, oldest first. -/
  groups : List (List Entry)
  /-- The writes since then. -/
  cur : List Entry
  /-- How many groups had their `commit` return. -/
  returned : ℕ
  /-- The section a process is in, or was in last. -/
  sec : Pid → ℕ
  nextSec : ℕ

/-- Nothing has been logged. -/
def History.init : History := ⟨[], [], 0, fun _ => 0, 0⟩

/-- The observation of the step `e` from `s` to `s'`. -/
def record (h : History) (s : State) (e : Event) (s' : State) : History :=
  match e with
  | .call p .beginOp =>
      { h with sec := Function.update h.sec p h.nextSec, nextSec := h.nextSec + 1 }
  | .call p (.logWrite b) =>
    match s.hold p b with
    | some hd => { h with cur := h.cur ++ [⟨h.sec p, b, (s.bufs hd.buf).data⟩] }
    | none => h
  | .call _ .endOp =>
    if s.committing = false ∧ s'.committing = true then
      { h with groups := h.groups ++ [h.cur], cur := [] }
    else h
  | .kernel p =>
    -- `commit` has returned when only the end of `end_op` is left
    if s'.code p = [.endCommit] then { h with returned := h.groups.length } else h
  | _ => h

/-- The observed system. -/
def tstep (cf : Conf) (x : State × History) (e : Event) : Option (State × History) :=
  (step cf x.1 e).map fun s' => (s', record x.2 x.1 e s')

/-- The contents of the disk after a list of writes. -/
def apply (base : ℕ → Block) (es : List Entry) : ℕ → Block :=
  es.foldl (fun d e => Function.update d e.block e.data) base

/-- No section has writes in two different groups. -/
def Whole (h : History) : Prop :=
  (h.groups ++ [h.cur]).Pairwise fun g g' => ∀ e ∈ g, ∀ e' ∈ g', e.sec ≠ e'.sec

@[simp] theorem apply_nil (base : ℕ → Block) : apply base [] = base := rfl

theorem apply_concat (base : ℕ → Block) (es : List Entry) (e : Entry) :
    apply base (es ++ [e]) = Function.update (apply base es) e.block e.data := by
  simp [apply]

/-- The contents as the processes see them. -/
def logical (base : ℕ → Block) (h : History) : ℕ → Block :=
  apply base (h.groups.flatten ++ h.cur)

theorem logical_init (base : ℕ → Block) : logical base History.init = base := rfl

/-! ### Sections -/

/-- Sections are numbered in order of `begin_op`, and a group is closed when no section is open:
below some number all sections are in closed groups, and the others are still being written. -/
structure Sections (s : State) (h : History) : Prop where
  whole : h.groups.Pairwise fun g g' => ∀ e ∈ g, ∀ e' ∈ g', e.sec ≠ e'.sec
  bound : ∃ lo, lo ≤ h.nextSec ∧ (∀ g ∈ h.groups, ∀ e ∈ g, e.sec < lo) ∧
    (∀ e ∈ h.cur, lo ≤ e.sec ∧ e.sec < h.nextSec) ∧
    ∀ p ∈ s.ops, lo ≤ h.sec p ∧ h.sec p < h.nextSec

theorem Sections.toWhole {s : State} {h : History} (hs : Sections s h) : Whole h := by
  obtain ⟨lo, -, hlt, hge, -⟩ := hs.bound
  rw [Whole, List.pairwise_append]
  refine ⟨hs.whole, List.pairwise_singleton .., fun g hg g' hg' e he e' he' => ?_⟩
  rw [List.mem_singleton.mp hg'] at he'
  have := hlt g hg e he
  have := hge e' he'
  omega

theorem Sections.init (d : Disk) : Sections (boot d) History.init :=
  ⟨List.Pairwise.nil, 0, le_rfl, fun _ hg => absurd hg List.not_mem_nil,
    fun _ he => absurd he List.not_mem_nil, fun _ hp => absurd hp List.not_mem_nil⟩

/-- The sections are affected only by the calls that `record` looks at. -/
theorem Sections.congr {s s' : State} {h h' : History} (hs : Sections s h)
    (hops : ∀ p ∈ s'.ops, p ∈ s.ops) (hgroups : h'.groups = h.groups) (hcur : h'.cur = h.cur)
    (hsec : h'.sec = h.sec) (hnext : h'.nextSec = h.nextSec) : Sections s' h' := by
  obtain ⟨hw, lo, hlo, hlt, hge, hop⟩ := hs
  refine ⟨by rw [hgroups]; exact hw, lo, by rw [hnext]; exact hlo, by rw [hgroups]; exact hlt,
    by rw [hcur, hnext]; exact hge, fun p hp => by rw [hsec, hnext]; exact hop p (hops p hp)⟩

theorem Sections.beginOp {s s' : State} {h : History} (hs : Sections s h) {p : Pid}
    (hp : p ∉ s.ops) (hops : s'.ops = p :: s.ops) :
    Sections s' { h with sec := Function.update h.sec p h.nextSec, nextSec := h.nextSec + 1 } := by
  obtain ⟨hw, lo, hlo, hlt, hge, hop⟩ := hs
  refine ⟨hw, lo, by simp only; omega, hlt, fun e he => ?_, fun q hq => ?_⟩
  · have := hge e he
    simp only
    omega
  · rw [hops] at hq
    simp only
    rcases List.mem_cons.mp hq with rfl | hq
    · rw [Function.update_self]
      omega
    · have hqp : q ≠ p := fun h => hp (h ▸ hq)
      rw [Function.update_of_ne hqp]
      have := hop q hq
      omega

theorem Sections.logWrite {s s' : State} {h : History} (hs : Sections s h) {p : Pid}
    (hp : p ∈ s.ops) (hops : s'.ops = s.ops) (b : ℕ) (data : Block) :
    Sections s' { h with cur := h.cur ++ [⟨h.sec p, b, data⟩] } := by
  obtain ⟨hw, lo, hlo, hlt, hge, hop⟩ := hs
  refine ⟨hw, lo, hlo, hlt, fun e he => ?_, fun q hq => hop q (hops ▸ hq)⟩
  rcases List.mem_append.mp he with he | he
  · exact hge e he
  · rw [List.mem_singleton.mp he]
    exact hop p hp

theorem Sections.close {s s' : State} {h : History} (hs : Sections s h) (hops : s'.ops = []) :
    Sections s' { h with groups := h.groups ++ [h.cur], cur := [] } := by
  obtain ⟨lo, hlo, hlt, hge, hop⟩ := hs.bound
  refine ⟨hs.toWhole, h.nextSec, le_rfl, fun g hg e he => ?_,
    fun _ he => absurd he List.not_mem_nil, ?_⟩
  · rcases List.mem_append.mp hg with hg | hg
    · have := hlt g hg e he
      omega
    · rw [List.mem_singleton.mp hg] at he
      exact (hge e he).2
  · rw [hops]
    nofun

end Log

end Xv6
