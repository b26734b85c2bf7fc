import Xv6.Vm.Argv
import Xv6.Vm.Machine

/-!
# The arguments of system calls

`fetchint`, `fetchstr` and `argptr` compare an address with the size of the process and nothing
else. In an address space in which every page below `sz` is mapped this is enough: what they accept
is mapped, and since `sz` is below `KERNBASE` the sums that they form do not wrap around.

## Main definitions

* `Reads` — a program that changes nothing
* `Mapped` — a range of mapped user memory

## Main results

* `Covers.fetchint_mapped`, `Covers.fetchstr_mapped`, `Covers.argptr_mapped`
-/

namespace Xv6

namespace Vm

variable {L : Layout} {p : Phys} {cr3 sz va : ℕ} {α β : Type}

/-- A program that returns and changes nothing, or stops at an address that is not mapped. -/
def Reads (x : M α) : Prop := ∀ p, (∃ a, x p = .ok a p) ∨ x p = .error .fault p

namespace Reads

theorem pure (a : α) : Reads (Pure.pure a) := fun _ => Or.inl ⟨a, rfl⟩

theorem get : Reads (MonadState.get : M Phys) := fun p => Or.inl ⟨p, rfl⟩

theorem fault : Reads (throw .fault : M α) := fun _ => Or.inr rfl

theorem bind {x : M α} {f : α → M β} (hx : Reads x) (hf : ∀ a, Reads (f a)) : Reads (x >>= f) := by
  intro p
  change (∃ b, EStateM.bind x f p = _) ∨ EStateM.bind x f p = _
  rw [EStateM.bind]
  rcases hx p with ⟨a, ha⟩ | he
  · rw [ha]
    exact hf a p
  · rw [he]
    exact Or.inr rfl

theorem ite {c : Prop} [Decidable c] {x y : M α} (hx : Reads x) (hy : Reads y) :
    Reads (if c then x else y) := by
  split
  · exact hx
  · exact hy

/-- What is read is read in the state as it is. -/
theorem wp {x : M α} (hx : Reads x) {Q : α → Phys → Prop} {E : Halt → Phys → Prop}
    (hQ : ∀ a, x p = .ok a p → Q a p) (hE : E .fault p) : Wp x p Q E := by
  rcases hx p with ⟨a, ha⟩ | he
  · exact (Wp.of_ok ha).mpr (hQ a ha)
  · exact (Wp.of_error he).mpr hE

end Reads

theorem reads_kernelFrame (b : Bool) : Reads (kernelFrame L cr3 va b) := by
  unfold kernelFrame
  refine .ite ?_ (.ite (.pure _) .fault)
  exact .bind .get fun _ => .ite (.pure _) .fault

theorem reads_loadByte : Reads (loadByte L cr3 va) :=
  .bind (reads_kernelFrame false) fun _ => .bind .get fun _ => .pure _

theorem reads_fetchint (addr : ℕ) : Reads (fetchint L cr3 sz addr) :=
  .ite (.pure _) (.bind reads_loadByte fun _ => .bind reads_loadByte fun _ =>
    .bind reads_loadByte fun _ => .bind reads_loadByte fun _ => .pure _)

theorem reads_fetchstrLoop (n a : ℕ) : Reads (fetchstrLoop L cr3 n a) := by
  induction n generalizing a with
  | zero => exact .pure _
  | succ n ih =>
    refine .bind reads_loadByte fun c => .ite (.pure _) (.bind (ih _) fun r => ?_)
    cases r <;> exact .pure _

theorem reads_fetchstr (addr : ℕ) : Reads (fetchstr L cr3 sz addr) :=
  .ite (.pure _) (reads_fetchstrLoop _ _)

theorem reads_fetchArgv (uargv n i : ℕ) : Reads (fetchArgv L cr3 sz uargv n i) := by
  induction n generalizing i with
  | zero => exact .pure _
  | succ n ih =>
    refine .bind (reads_fetchint _) fun r => ?_
    cases r with
    | none => exact .pure _
    | some uarg =>
      refine .ite (.pure _) (.bind (reads_fetchstr _) fun r => ?_)
      cases r with
      | none => exact .pure _
      | some str =>
        refine .bind (ih _) fun r => ?_
        cases r <;> exact .pure _

/-! ### The length of a string -/

theorem wp_fetchstrLoop_length (n a : ℕ) : Wp (fetchstrLoop L cr3 n a) p
    (fun r _ => ∀ cs, r = some cs → cs.length < n) fun _ _ => True := by
  induction n generalizing a with
  | zero => rintro cs ⟨⟩
  | succ n ih =>
    rw [fetchstrLoop, wp_bind]
    refine reads_loadByte.wp (fun c _ => ?_) trivial
    rw [wp_ite]
    refine ⟨fun _ => ?_, fun _ => ?_⟩
    · rintro cs ⟨⟩
      exact Nat.succ_pos n
    · refine (ih (a + 1)).bind (fun r _ hr => ?_) fun _ _ _ => trivial
      cases r with
      | none => rintro cs ⟨⟩
      | some cs =>
        rintro _ ⟨⟩
        exact Nat.succ_lt_succ (hr cs rfl)

/-- `exec` takes fewer than `n` arguments, each shorter than the process that passes it. -/
theorem wp_fetchArgv_length (uargv n i : ℕ) : Wp (fetchArgv L cr3 sz uargv n i) p
    (fun r _ => ∀ argv, r = some argv → argv.length < n ∧ ∀ a ∈ argv, a.length < sz)
    fun _ _ => True := by
  induction n generalizing i with
  | zero => rintro argv ⟨⟩
  | succ n ih =>
    rw [fetchArgv, wp_bind]
    refine (reads_fetchint _).wp (fun r _ => ?_) trivial
    cases r with
    | none => rintro argv ⟨⟩
    | some uarg =>
      rw [wp_ite]
      refine ⟨fun _ => ?_, fun _ => ?_⟩
      · rintro argv ⟨⟩
        exact ⟨Nat.succ_pos n, fun a ha => absurd ha List.not_mem_nil⟩
      rw [wp_bind]
      refine (reads_fetchstr _).wp (fun r hr => ?_) trivial
      cases r with
      | none => rintro argv ⟨⟩
      | some cs =>
        have hcs : cs.length < sz := by
          rw [fetchstr] at hr
          split at hr
          · cases hr
          · have := (Wp.of_ok hr).mp (wp_fetchstrLoop_length _ _) cs rfl
            omega
        refine (ih (i + 1)).bind (fun r _ hargv => ?_) fun _ _ _ => trivial
        cases r with
        | none => rintro argv ⟨⟩
        | some argv =>
          rintro _ ⟨⟩
          obtain ⟨hargc, hall⟩ := hargv argv rfl
          exact ⟨Nat.succ_lt_succ hargc, List.forall_mem_cons.mpr ⟨hcs, hall⟩⟩

/-! ### Ranges that are mapped -/

/-- A range of `n` bytes from `a` on is mapped in user memory. -/
structure Mapped (m : Mem) (d a n : ℕ) : Prop where
  bound : a + n ≤ KERNBASE
  present : ∀ b, a ≤ b → b < a + n → Present (m.pte d (b / PGSIZE))

theorem Covers.mapped {d a n : ℕ} (h : Covers (p.mem.pte d) sz) (hn : a + n ≤ sz) :
    Mapped p.mem d a n := by
  refine ⟨hn.trans (Nat.le_of_lt h.bound), fun b _ hb => h.present _ ((lt_npages _).mp ?_)⟩
  have := Nat.div_mul_le_self b PGSIZE
  omega

theorem wp_loadByte {d : ℕ} (h : Covers (p.mem.pte d) sz) (hva : va < sz) {Q : UInt8 → Phys → Prop}
    {E : Halt → Phys → Prop} : Wp (loadByte L d va) p Q E ↔ Q (p.mem.byte d va) p := by
  have hlow : va < KERNBASE := hva.trans h.bound
  have hpres := (h.mapped (n := 1) hva).present va (Nat.le_refl _) (Nat.lt_succ_self _)
  simp only [loadByte, kernelFrame, wp_bind]
  rw [if_pos hlow]
  simp only [wp_bind, wp_get]
  rw [if_pos ⟨hpres, (by rintro ⟨⟩)⟩]
  rfl

theorem wp_fetchint {d : ℕ} (h : Covers (p.mem.pte d) sz) (hva : va + 4 ≤ sz)
    {Q : Option ℕ → Phys → Prop} {E : Halt → Phys → Prop} : Wp (fetchint L d sz va) p Q E ↔
      Q (some ((p.mem.byte d va).toNat + 256 * ((p.mem.byte d (va + 1)).toNat +
        256 * ((p.mem.byte d (va + 2)).toNat + 256 * (p.mem.byte d (va + 3)).toNat)))) p := by
  have hbound := h.bound
  have hok : ¬ (va ≥ sz ∨ (va + 4) % 2 ^ 32 > sz) := by
    simp only [KERNBASE] at hbound
    omega
  rw [fetchint, if_neg hok]
  simp only [wp_bind]
  rw [wp_loadByte h (by omega), wp_loadByte h (by omega), wp_loadByte h (by omega),
    wp_loadByte h (by omega), wp_pure]

/-- **`fetchint`** does not stop, and what it accepts is mapped. -/
theorem Covers.fetchint_mapped {d addr : ℕ} (h : Covers (p.mem.pte d) sz) :
    ∃ r, fetchint L d sz addr p = .ok r p ∧ (r ≠ none → Mapped p.mem d addr 4) := by
  have hwp : Wp (fetchint L d sz addr) p
      (fun r p' => p' = p ∧ (r ≠ none → Mapped p.mem d addr 4)) fun _ _ => False := by
    by_cases hle : addr + 4 ≤ sz
    · exact (wp_fetchint h hle).mpr ⟨rfl, fun _ => h.mapped hle⟩
    · have hbound := h.bound
      have hbad : addr ≥ sz ∨ (addr + 4) % 2 ^ 32 > sz := by
        simp only [KERNBASE] at hbound
        omega
      rw [fetchint, if_pos hbad]
      exact ⟨rfl, fun hne => absurd rfl hne⟩
  obtain ⟨r, p', hr, rfl, hmapped⟩ := hwp.ok
  exact ⟨r, hr, hmapped⟩

/-- The loop of `fetchstr` over `n` mapped bytes. -/
theorem Covers.wp_fetchstrLoop {d a : ℕ} (h : Covers (p.mem.pte d) sz) (n : ℕ) (ha : a + n ≤ sz)
    {Q : Option (List UInt8) → Phys → Prop} (hnone : Q none p)
    (hsome : ∀ cs : List UInt8, cs.length < n → Q (some cs) p) {E : Halt → Phys → Prop} :
    Wp (fetchstrLoop L d n a) p Q E := by
  induction n generalizing a Q with
  | zero => exact hnone
  | succ n ih =>
    simp only [fetchstrLoop, wp_bind]
    rw [wp_loadByte h (by omega), wp_ite]
    refine ⟨fun _ => hsome [] (Nat.succ_pos n), fun _ => ?_⟩
    rw [wp_bind]
    refine ih (by omega) hnone fun cs hcs => hsome (_ :: cs) ?_
    rw [List.length_cons]
    omega

/-- A string of `n` times the same letter. -/
theorem wp_fetchstrLoop_replicate {d a r : ℕ} {c : UInt8} (hc : c ≠ 0) (n : ℕ)
    (h : Covers (p.mem.pte d) sz) (hn : n < r) (ha : a + n < sz)
    (hbytes : ∀ i < n, p.mem.byte d (a + i) = c) (hend : p.mem.byte d (a + n) = 0)
    {Q : Option (List UInt8) → Phys → Prop} (hQ : Q (some (List.replicate n c)) p)
    {E : Halt → Phys → Prop} : Wp (fetchstrLoop L d r a) p Q E := by
  induction n generalizing a r Q with
  | zero =>
    obtain ⟨r, rfl⟩ : ∃ r', r = r' + 1 := ⟨r - 1, by omega⟩
    rw [Nat.add_zero] at hend
    simp only [fetchstrLoop, wp_bind]
    rw [wp_loadByte h (by omega), if_pos hend]
    exact hQ
  | succ n ih =>
    obtain ⟨r, rfl⟩ : ∃ r', r = r' + 1 := ⟨r - 1, by omega⟩
    have hfirst : p.mem.byte d a = c := hbytes 0 (Nat.succ_pos n)
    simp only [fetchstrLoop, wp_bind]
    rw [wp_loadByte h (by omega), hfirst, if_neg hc, wp_bind]
    refine ih (by omega) (by omega) (fun i hi => ?_) ?_ hQ
    · rw [Nat.add_assoc, Nat.add_comm 1 i]
      exact hbytes (i + 1) (by omega)
    · rw [Nat.add_assoc, Nat.add_comm 1 n]
      exact hend

/-- **`fetchstr`** does not stop, and what it accepts is mapped, with the NUL. -/
theorem Covers.fetchstr_mapped {d addr : ℕ} (h : Covers (p.mem.pte d) sz) :
    ∃ r, fetchstr L d sz addr p = .ok r p ∧
      ∀ cs, r = some cs → Mapped p.mem d addr (cs.length + 1) := by
  have hwp : Wp (fetchstr L d sz addr) p
      (fun r p' => p' = p ∧ ∀ cs, r = some cs → Mapped p.mem d addr (cs.length + 1))
      fun _ _ => False := by
    rw [fetchstr, wp_ite]
    refine ⟨fun _ => ⟨rfl, nofun⟩, fun hok => ?_⟩
    refine h.wp_fetchstrLoop _ (by omega) ⟨rfl, nofun⟩ fun cs hcs => ⟨rfl, ?_⟩
    rintro cs' ⟨⟩
    exact h.mapped (by omega)
  obtain ⟨r, p', hr, rfl, hmapped⟩ := hwp.ok
  exact ⟨r, hr, hmapped⟩

/-- **`argptr`**: what it accepts is mapped. -/
theorem Covers.argptr_mapped {d i a : ℕ} {size : BitVec 32} (h : Covers (p.mem.pte d) sz)
    (hi : i < 2 ^ 32) (ha : argptr sz i size = some a) : a = i ∧ Mapped p.mem d i size.toNat := by
  rw [Vm.argptr] at ha
  split at ha
  · cases ha
  · rename_i hok
    cases ha
    refine ⟨rfl, h.mapped ?_⟩
    have hbound := h.bound
    have htoInt := BitVec.toInt_eq_toNat_cond size
    have htoNat := size.isLt
    simp only [KERNBASE] at hbound
    split at htoInt <;> omega

end Vm

end Xv6
