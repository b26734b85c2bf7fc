import Xv6.Log.History

/-!
# The stages of a commit

Where a commit or a recovery stands, and what is on the disk at that point. `At` reads the stage off
the instructions that are left; the instructions of `bread` and `brelse` do not change it. `DiskAt`
says what the disk holds at each stage, in terms of the contents `old` that are in place and the
contents `new` that the transaction leads to.

## Main definitions

* `Stage`, `At` — the stages and the code that belongs to each
* `DiskAt` — the disk at each stage

## Main results

* `DiskAt.view_eq` — what recovery makes of the disk, at each stage
-/

namespace Xv6

namespace Log

/-- The stages of the log. -/
inductive Stage
  /-- Nobody is in `commit` or `recover_from_log`. -/
  | quiet
  /-- In `recover_from_log`, before the header is in memory. -/
  | loading
  /-- At the start of `commit`. -/
  | start
  /-- In `write_log` or the first `write_head`, with `t` blocks in the log. -/
  | writing (t : ℕ)
  /-- In `install_trans`, with `t` blocks in their home location. -/
  | installing (t : ℕ)
  /-- After `log.lh.n = 0`. -/
  | clearing
  /-- The header has been erased. -/
  | finishing
  deriving DecidableEq

/-- The stages before the header is written. -/
def Stage.early : Stage → Bool
  | .quiet | .start | .writing _ => true
  | _ => false

/-- The logged blocks that are not in their home location yet. -/
def Stage.pending (st : Stage) (lh : List ℕ) : List ℕ :=
  match st with
  | .quiet | .start | .writing _ => lh
  | .installing t => lh.drop t
  | _ => []

/-- The instructions of `bread` and `brelse`. -/
def Instr.Plain : Instr → Prop
  | .bget _ | .acquire _ | .release _ | .brelse _ => True
  | _ => False

/-- The instructions left at each stage; `fin` is the last one. -/
inductive At (cf : Conf) (fin : Instr) (lh : List ℕ) : Stage → List Instr → Prop
  | plain {i : Instr} {st : Stage} {c : List Instr} (hi : i.Plain) (h : At cf fin lh st c) :
      At cf fin lh st (i :: c)
  | readHead : At cf fin lh .loading [.readHead, .installTrans 0, .clear, .writeHead, fin]
  | loadHead : At cf fin lh .loading
      (.loadHead :: (brelse cf.start ++ [.installTrans 0, .clear, .writeHead, fin]))
  | commit : At cf fin lh .start [.commit, fin]
  | writeLog {t : ℕ} (ht : t ≤ lh.length) : At cf fin lh (.writing t)
      [.writeLog t, .writeHead, .installTrans 0, .clear, .writeHead, fin]
  | copyLog {t b : ℕ} {c : List Instr} (hb : lh[t]? = some b)
      (h : At cf fin lh (.writing (t + 1)) c) :
      At cf fin lh (.writing t) (.copyWrite b (cf.logBlock t) :: c)
  | writeHead : At cf fin lh (.writing lh.length)
      [.writeHead, .installTrans 0, .clear, .writeHead, fin]
  | storeHead {c : List Instr} (h : At cf fin lh (.installing 0) c) :
      At cf fin lh (.writing lh.length) (.storeHead :: c)
  | installTrans {t : ℕ} (ht : t ≤ lh.length) :
      At cf fin lh (.installing t) [.installTrans t, .clear, .writeHead, fin]
  | copyHome {t b : ℕ} {c : List Instr} (hb : lh[t]? = some b)
      (h : At cf fin lh (.installing (t + 1)) c) :
      At cf fin lh (.installing t) (.copyWrite (cf.logBlock t) b :: c)
  | clear : At cf fin lh (.installing lh.length) [.clear, .writeHead, fin]
  | eraseHead : At cf fin lh .clearing [.writeHead, fin]
  | storeEmpty {c : List Instr} (h : At cf fin lh .finishing c) :
      At cf fin lh .clearing (.storeHead :: c)
  | done (hfin : fin = .endCommit ∨ fin = .initDone) : At cf fin lh .finishing [fin]

section

variable {cf : Conf} {fin : Instr} {lh : List ℕ} {st : Stage} {c : List Instr}

theorem At.bread (h : At cf fin lh st c) (b : ℕ) : At cf fin lh st (bread b ++ c) :=
  .plain trivial (.plain trivial h)

theorem At.brelse (h : At cf fin lh st c) (b : ℕ) : At cf fin lh st (brelse b ++ c) :=
  .plain trivial (.plain trivial h)

theorem At.of_plain {i : Instr} (hi : i.Plain) (h : At cf fin lh st (i :: c)) :
    At cf fin lh st c := by
  cases h with
  | plain _ h => exact h
  | done hfin => rcases hfin with rfl | rfl <;> exact hi.elim
  | _ => exact hi.elim

/-- The only stage with the end of `end_op` left is the last. -/
theorem At.of_endCommit (h : At cf fin lh st [.endCommit]) : st = .finishing := by
  cases h with
  | plain hi _ => exact hi.elim
  | done => rfl

end

/-! ### The disk at each stage -/

/-- What the disk holds at each stage. -/
def DiskAt (cf : Conf) (st : Stage) (lh : List ℕ) (d : Disk) (old new : ℕ → Block) : Prop :=
  match st with
  | .quiet | .start => header cf d = [] ∧ ∀ b, cf.Outside b → d b = old b
  | .loading => HeaderOk cf d ∧ ∀ b, cf.Outside b → view cf d b = new b
  | .writing t =>
    header cf d = [] ∧ (∀ b, cf.Outside b → d b = old b) ∧ lh ≠ [] ∧
      (t = 0 ∨ lh.length < LOGSIZE) ∧
      ∀ j b, j < t → lh[j]? = some b → d (cf.logBlock j) = new b
  | .installing t =>
    header cf d = lh ∧ lh.length < LOGSIZE ∧
      (∀ j b, lh[j]? = some b → d (cf.logBlock j) = new b) ∧
      ∀ b, cf.Outside b → b ∉ lh.drop t → d b = new b
  | .clearing =>
    lh = [] ∧ HeaderOk cf d ∧ (∀ j b, (header cf d)[j]? = some b → d (cf.logBlock j) = new b) ∧
      ∀ b, cf.Outside b → d b = new b
  | .finishing => lh = [] ∧ header cf d = [] ∧ ∀ b, cf.Outside b → d b = new b

theorem HeaderOk.of_nil {cf : Conf} {d : Disk} (h : header cf d = []) : HeaderOk cf d := by
  constructor <;> simp [h]

/-- A header all of whose blocks stand in the log is as good as having them installed. -/
theorem view_eq_of_log {cf : Conf} {d : Disk} {new : ℕ → Block} (hnd : (header cf d).Nodup)
    (hlog : ∀ j b, (header cf d)[j]? = some b → d (cf.logBlock j) = new b)
    {b : ℕ} (hb : b ∉ header cf d → d b = new b) : view cf d b = new b := by
  by_cases hm : b ∈ header cf d
  · obtain ⟨t, ht, rfl⟩ := List.getElem_of_mem hm
    rw [view_getElem hnd ht]
    exact hlog t _ (List.getElem?_eq_getElem ht)
  · rw [view_of_notMem hm]
    exact hb hm

/-- **What recovery makes of the disk**, at each stage: the old contents before the header is
written, the new ones from then on. -/
theorem DiskAt.view_eq {cf : Conf} {st : Stage} {lh : List ℕ} {d : Disk} {old new : ℕ → Block}
    (h : DiskAt cf st lh d old new) (hnd : lh.Nodup) (hlh : ∀ b ∈ lh, cf.Outside b ∧ b < FSSIZE) :
    HeaderOk cf d ∧
      ∀ b, cf.Outside b → view cf d b = if st.early then old b else new b := by
  have hnil : header cf d = [] → ∀ b, view cf d b = d b := fun h b =>
    view_of_notMem (by rw [h]; exact List.not_mem_nil)
  cases st with
  | quiet => exact ⟨.of_nil h.1, fun b hb => (hnil h.1 b).trans (h.2 b hb)⟩
  | start => exact ⟨.of_nil h.1, fun b hb => (hnil h.1 b).trans (h.2 b hb)⟩
  | loading => exact h
  | writing t => exact ⟨.of_nil h.1, fun b hb => (hnil h.1 b).trans (h.2.1 b hb)⟩
  | installing t =>
    obtain ⟨hhead, hlen, hlog, hhome⟩ := h
    refine ⟨⟨by rw [hhead]; exact hlen, by rw [hhead]; exact hnd,
      by rw [hhead]; exact fun b hb => (hlh b hb).1,
      by rw [hhead]; exact fun b hb => (hlh b hb).2⟩, fun b hb => ?_⟩
    refine view_eq_of_log (by rw [hhead]; exact hnd) (by rw [hhead]; exact hlog) fun hm => ?_
    rw [hhead] at hm
    exact hhome b hb fun hd => hm (List.mem_of_mem_drop hd)
  | clearing =>
    obtain ⟨-, hok, hlog, hhome⟩ := h
    exact ⟨hok, fun b hb => view_eq_of_log hok.nodup hlog fun _ => hhome b hb⟩
  | finishing => exact ⟨.of_nil h.2.1, fun b hb => (hnil h.2.1 b).trans (h.2.2 b hb)⟩

/-! ### The single writes -/

/-- `write_log` writes a block of the log. -/
theorem DiskAt.copyLog {cf : Conf} {t b : ℕ} {lh : List ℕ} {d : Disk} {old new : ℕ → Block}
    (h : DiskAt cf (.writing t) lh d old new) (hlen : lh.length < LOGSIZE) (hb : lh[t]? = some b) :
    DiskAt cf (.writing (t + 1)) lh (Function.update d (cf.logBlock t) (new b)) old new := by
  obtain ⟨hhead, hhome, hne, -, hlog⟩ := h
  have htlen : t < lh.length := (List.getElem?_eq_some_iff.mp hb).1
  refine ⟨?_, fun c hc => ?_, hne, Or.inr hlen, fun j c hj hc => ?_⟩
  · rw [header, Function.update_of_ne (cf.start_ne_logBlock t)]
    exact hhead
  · rw [Function.update_of_ne (cf.ne_logBlock_of_outside hc (by omega))]
    exact hhome c hc
  · by_cases hjt : j = t
    · subst hjt
      rw [Function.update_self, Option.some.inj (hb.symm.trans hc)]
    · rw [Function.update_of_ne (fun h => hjt (cf.logBlock_inj h))]
      exact hlog j c (by omega) hc

/-- The first `write_head` is the point at which the transaction commits. -/
theorem DiskAt.storeHead {cf : Conf} {lh : List ℕ} {d : Disk} {old new : ℕ → Block}
    (h : DiskAt cf (.writing lh.length) lh d old new) (hlh : ∀ b ∈ lh, b < FSSIZE)
    (hold : ∀ b ∉ lh, new b = old b) (data : Block) :
    DiskAt cf (.installing 0) lh (Function.update d cf.start (putHead data lh)) old new := by
  obtain ⟨-, hhome, hne, hlen, hlog⟩ := h
  have hlen : lh.length < LOGSIZE := hlen.resolve_left fun h0 =>
    hne (List.eq_nil_of_length_eq_zero h0)
  refine ⟨?_, hlen, fun j b hb => ?_, fun b hb hm => ?_⟩
  · rw [header, Function.update_self, headOf_putHead hlen.le hlh]
  · rw [Function.update_of_ne (cf.start_ne_logBlock j).symm]
    exact hlog j b (List.getElem?_eq_some_iff.mp hb).1 hb
  · rw [Function.update_of_ne (cf.ne_start_of_outside hb), hhome b hb, hold b hm]

/-- `install_trans` writes a block to its home location. -/
theorem DiskAt.copyHome {cf : Conf} {t b : ℕ} {lh : List ℕ} {d : Disk} {old new : ℕ → Block}
    (h : DiskAt cf (.installing t) lh d old new) (hlh : ∀ b ∈ lh, cf.Outside b)
    (hb : lh[t]? = some b) :
    DiskAt cf (.installing (t + 1)) lh (Function.update d b (new b)) old new := by
  obtain ⟨hhead, hlen, hlog, hhome⟩ := h
  obtain ⟨htlen, hbt⟩ := List.getElem?_eq_some_iff.mp hb
  have hout : cf.Outside b := hlh b (List.mem_of_getElem? hb)
  refine ⟨?_, hlen, fun j c hc => ?_, fun c hc hm => ?_⟩
  · rw [header, Function.update_of_ne (cf.ne_start_of_outside hout).symm]
    exact hhead
  · have hj := (List.getElem?_eq_some_iff.mp hc).1
    rw [Function.update_of_ne (cf.ne_logBlock_of_outside hout (by omega)).symm]
    exact hlog j c hc
  · by_cases hcb : c = b
    · subst hcb
      rw [Function.update_self]
    · rw [Function.update_of_ne hcb]
      refine hhome c hc fun hd => ?_
      rw [List.drop_eq_getElem_cons htlen, hbt] at hd
      exact (List.mem_cons.mp hd).elim hcb hm

/-- The last `write_head` erases the header. -/
theorem DiskAt.eraseHead {cf : Conf} {lh : List ℕ} {d : Disk} {old new : ℕ → Block}
    (h : DiskAt cf .clearing lh d old new) (data : Block) :
    DiskAt cf .finishing lh (Function.update d cf.start (putHead data lh)) old new := by
  obtain ⟨rfl, -, -, hhome⟩ := h
  refine ⟨rfl, ?_, fun b hb => ?_⟩
  · rw [header, Function.update_self, headOf_putHead (by decide) (by simp)]
  · rw [Function.update_of_ne (cf.ne_start_of_outside hb)]
    exact hhome b hb

end Log

end Xv6
