import Xv6.Param

/-!
# The MP configuration table

`mpinit` looks for the table with which the firmware describes the processors and walks over its
entries. An entry is as long as its type says. For a type that it does not know it clears `ismp`, to
panic after the loop, but the `break` leaves only the `switch`, and the walk stays where it is.

Memory is read at virtual addresses of 32 bits, and pointers wrap as they do in the machine.

## Main definitions

* `mpsearch`, `mpconfig`, `mpinit` — the functions of `mp.c`
* `Ends`, `Meets` — a walk that reaches the end of the table, and one that meets an unknown type

## Main results

* `mpinit_iff` — `mpinit` comes to an end exactly if the walk does without meeting an unknown type
-/

namespace Xv6

namespace Mp

/-- Maximum number of CPUs. -/
abbrev NCPU : ℕ := 8

/-- The bytes of memory, at their virtual addresses. -/
abbrev Mem := UInt32 → UInt8

def P2V (a : UInt32) : UInt32 := a + 0x80000000

/-- The 16-bit number at an address. -/
def ushort (mem : Mem) (a : UInt32) : UInt32 := (mem a).toUInt32 ||| (mem (a + 1)).toUInt32 <<< 8

/-- The 32-bit number at an address. -/
def uint (mem : Mem) (a : UInt32) : UInt32 := ushort mem a ||| ushort mem (a + 2) <<< 16

def sum (mem : Mem) (addr : UInt32) (len : ℕ) : UInt8 :=
  (List.range len).foldl (fun n i => n + mem (addr + UInt32.ofNat i)) 0

/-- `memcmp(addr, s, 4) == 0`. -/
def isSignature (mem : Mem) (addr : UInt32) (s : List UInt8) : Bool :=
  (List.range 4).map (fun i => mem (addr + UInt32.ofNat i)) = s

/-! ### Finding the table -/

/-- Look for an MP structure, of 16 bytes, in the `len` bytes at `a`. -/
def mpsearch1 (mem : Mem) (a : UInt32) (len : ℕ) : Option UInt32 :=
  ((List.range (len / 16)).map fun i => P2V a + UInt32.ofNat (16 * i)).find? fun p =>
    isSignature mem p [0x5F, 0x4D, 0x50, 0x5F] && sum mem p 16 = 0

def mpsearch (mem : Mem) : Option UInt32 :=
  let bda := P2V 0x400
  let p := ((mem (bda + 0x0F)).toUInt32 <<< 8 ||| (mem (bda + 0x0E)).toUInt32) <<< 4
  let first :=
    if p ≠ 0 then mpsearch1 mem p 1024
    else mpsearch1 mem
      (((mem (bda + 0x14)).toUInt32 <<< 8 ||| (mem (bda + 0x13)).toUInt32) * 1024 - 1024)
      1024
  match first with
  | some mp => some mp
  | none => mpsearch1 mem 0xF0000 0x10000

/-- `mp->physaddr`. -/
def physaddr (mem : Mem) (mp : UInt32) : UInt32 := uint mem (mp + 4)

/-- `conf->length`. -/
def length (mem : Mem) (conf : UInt32) : UInt32 := ushort mem (conf + 4)

/-- The MP structure and the configuration table. -/
def mpconfig (mem : Mem) : Option (UInt32 × UInt32) :=
  match mpsearch mem with
  | none => none
  | some mp =>
    if physaddr mem mp = 0 then none
    else
      let conf := P2V (physaddr mem mp)
      if ¬ isSignature mem conf [0x50, 0x43, 0x4D, 0x50] then none
      else if mem (conf + 6) ≠ 1 ∧ mem (conf + 6) ≠ 4 then none
      else if sum mem conf (length mem conf).toNat ≠ 0 then none
      else some (mp, conf)

/-! ### Walking over the entries -/

abbrev MPPROC : UInt8 := 0
abbrev MPBUS : UInt8 := 1
abbrev MPIOAPIC : UInt8 := 2
abbrev MPIOINTR : UInt8 := 3
abbrev MPLINTR : UInt8 := 4

/-- What the loop of `mpinit` assigns to. -/
structure Walk where
  p : UInt32
  ismp : Bool
  /-- The `apicid` of `cpus[0]`, …, `cpus[ncpu - 1]`. -/
  cpus : List UInt8
  ioapicid : UInt8
  deriving DecidableEq

/-- The `switch` in the loop. -/
def mpEntry (mem : Mem) (s : Walk) : Walk :=
  let type := mem s.p
  if type = MPPROC then
    { s with
      cpus := if s.cpus.length < NCPU then s.cpus ++ [mem (s.p + 1)] else s.cpus
      p := s.p + 20 }
  else if type = MPIOAPIC then { s with ioapicid := mem (s.p + 1), p := s.p + 8 }
  else if type = MPBUS ∨ type = MPIOINTR ∨ type = MPLINTR then { s with p := s.p + 8 }
  else { s with ismp := false }

/-- The loop; it may have no end. -/
def mpLoop (mem : Mem) (e : UInt32) : ℕ → Walk → Option Walk
  | 0, _ => none
  | fuel + 1, s => if s.p < e then mpLoop mem e fuel (mpEntry mem s) else some s

/-- How `mpinit` ends. -/
inductive Outcome
  /-- `Expect to run on an SMP`. -/
  | noSmp
  /-- `Didn't find a suitable machine`. -/
  | unsuitable (s : Walk)
  /-- It returns, with `lapic` set; `imcr` says that external interrupts have been masked. -/
  | found (s : Walk) (lapic : UInt32) (imcr : Bool)
  deriving DecidableEq

/-- The processors that have been recorded. -/
def Outcome.cpus : Outcome → List UInt8
  | noSmp => []
  | unsuitable s => s.cpus
  | found s _ _ => s.cpus

/-- Where the entries start, and the end of the table. -/
def firstEntry (conf : UInt32) : UInt32 := conf + 44

def lastEntry (mem : Mem) (conf : UInt32) : UInt32 := conf + length mem conf

def mpinit (mem : Mem) (fuel : ℕ) : Option Outcome :=
  match mpconfig mem with
  | none => some .noSmp
  | some (mp, conf) =>
    match mpLoop mem (lastEntry mem conf) fuel ⟨firstEntry conf, true, [], 0⟩ with
    | none => none
    | some s =>
      if ¬ s.ismp then some (.unsuitable s)
      else some (.found s (uint mem (conf + 36)) (mem (mp + 12) ≠ 0))

/-! ### The walk -/

/-- The size of an entry; other types are not known. -/
def entrySize (type : UInt8) : Option UInt32 :=
  if type = MPPROC then some 20
  else if type = MPIOAPIC ∨ type = MPBUS ∨ type = MPIOINTR ∨ type = MPLINTR then some 8
  else none

/-- The walk reaches the end of the table. -/
inductive Ends (mem : Mem) (e : UInt32) : UInt32 → Prop
  | done {p} : ¬ p < e → Ends mem e p
  | entry {p n} : p < e → entrySize (mem p) = some n → Ends mem e (p + n) → Ends mem e p

/-- The walk meets an entry of an unknown type. -/
inductive Meets (mem : Mem) (e : UInt32) : UInt32 → Prop
  | here {p} : p < e → entrySize (mem p) = none → Meets mem e p
  | entry {p n} : p < e → entrySize (mem p) = some n → Meets mem e (p + n) → Meets mem e p

variable {mem : Mem} {e p n : UInt32} {s t : Walk} {fuel : ℕ}

theorem Ends.not_meets (h : Ends mem e p) : ¬ Meets mem e p := by
  induction h with
  | done hend =>
    intro hm
    cases hm with
    | here hlt => exact hend hlt
    | entry hlt => exact hend hlt
  | entry _ hsize _ ih =>
    intro hm
    cases hm with
    | here _ hnone =>
      rw [hsize] at hnone
      cases hnone
    | entry _ hsize' hm =>
      rw [hsize] at hsize'
      rw [← Option.some.inj hsize'] at hm
      exact ih hm

theorem mpEntry_of_known (h : entrySize (mem s.p) = some n) : (mpEntry mem s).p = s.p + n ∧
    (mpEntry mem s).ismp = s.ismp ∧
    (s.cpus.length ≤ NCPU → (mpEntry mem s).cpus.length ≤ NCPU) := by
  rw [entrySize] at h
  rw [mpEntry]
  by_cases hproc : mem s.p = MPPROC
  · rw [if_pos hproc] at h
    rw [if_pos hproc]
    refine ⟨by rw [← Option.some.inj h], rfl, fun hle => ?_⟩
    split
    · next hlt =>
      rw [List.length_append, List.length_singleton]
      exact hlt
    · exact hle
  · rw [if_neg hproc] at h
    rw [if_neg hproc]
    split at h
    · next htype =>
      rw [← Option.some.inj h]
      by_cases hio : mem s.p = MPIOAPIC
      · rw [if_pos hio]
        exact ⟨rfl, rfl, id⟩
      · rw [if_neg hio, if_pos (htype.resolve_left hio)]
        exact ⟨rfl, rfl, id⟩
    · cases h

/-- The `break` leaves the `switch` only: the walk stays at an entry of an unknown type. -/
theorem mpEntry_of_unknown (h : entrySize (mem s.p) = none) :
    mpEntry mem s = { s with ismp := false } := by
  rw [entrySize] at h
  split at h
  · cases h
  · next hproc =>
    split at h
    · cases h
    · next hother =>
      rw [not_or] at hother
      rw [mpEntry, if_neg hproc, if_neg hother.1, if_neg hother.2]

theorem ends_of_mpLoop (h : mpLoop mem e fuel s = some t) : Ends mem e s.p := by
  induction fuel generalizing s with
  | zero => cases h
  | succ fuel ih =>
    rw [mpLoop] at h
    split at h
    · next hlt =>
      have hrest := ih h
      cases hsize : entrySize (mem s.p) with
      | none => rwa [mpEntry_of_unknown hsize] at hrest
      | some n =>
        rw [(mpEntry_of_known hsize).1] at hrest
        exact .entry hlt hsize hrest
    · next hend => exact .done hend

theorem Ends.mpLoop (h : Ends mem e p) (hp : s.p = p) (hcpus : s.cpus.length ≤ NCPU) :
    ∃ fuel t, mpLoop mem e fuel s = some t ∧ t.ismp = s.ismp ∧ t.cpus.length ≤ NCPU := by
  induction h generalizing s with
  | done hend =>
    subst hp
    exact ⟨1, s, if_neg hend, rfl, hcpus⟩
  | entry hlt hsize _ ih =>
    subst hp
    obtain ⟨hnext, hismp, hle⟩ := mpEntry_of_known hsize
    obtain ⟨fuel, t, hloop, ht, htcpus⟩ := ih hnext (hle hcpus)
    exact ⟨fuel + 1, t, (if_pos hlt).trans hloop, ht.trans hismp, htcpus⟩

theorem toNat_of_entrySize {type : UInt8} (h : entrySize type = some n) :
    8 ≤ n.toNat ∧ n.toNat ≤ 20 := by
  rw [entrySize] at h
  split at h
  · rw [← Option.some.inj h]
    decide
  · split at h
    · rw [← Option.some.inj h]
      decide
    · cases h

/-- Unless pointers wrap, only an unknown type can keep the walk from its end. -/
theorem ends_of_not_meets (hfit : e.toNat + 20 ≤ 2 ^ 32) (h : ¬ Meets mem e p) : Ends mem e p := by
  -- the distance to the end gets smaller
  obtain ⟨k, hk⟩ : ∃ k, e.toNat - p.toNat ≤ k := ⟨_, Nat.le_refl _⟩
  induction k generalizing p with
  | zero =>
    refine .done fun hlt => ?_
    rw [UInt32.lt_iff_toNat_lt] at hlt
    omega
  | succ k ih =>
    by_cases hlt : p < e
    · cases hsize : entrySize (mem p) with
      | none => exact absurd (.here hlt hsize) h
      | some n =>
        have hn := toNat_of_entrySize hsize
        have hlt' := UInt32.lt_iff_toNat_lt.mp hlt
        have hnext : (p + n).toNat = p.toNat + n.toNat := by
          rw [UInt32.toNat_add]
          exact Nat.mod_eq_of_lt (by omega)
        exact .entry hlt hsize (ih (fun hm => h (.entry hlt hsize hm)) (by omega))
    · exact .done hlt

/-- **`mpinit`** comes to an end, with at most `NCPU` processors recorded, and panics exactly if it
met an unknown type, if and only if the walk reaches the end of the table over entries of known
types. For a table that is not at the very end of the address space this is so exactly if no unknown
type is met. -/
theorem mpinit_iff (mem : Mem) (mp conf : UInt32) (hconf : mpconfig mem = some (mp, conf)) :
    ((∃ fuel out, mpinit mem fuel = some out ∧ out.cpus.length ≤ NCPU ∧
        ((∃ s, out = .unsuitable s) ↔ Meets mem (lastEntry mem conf) (firstEntry conf))) ↔
      Ends mem (lastEntry mem conf) (firstEntry conf)) ∧
    ((lastEntry mem conf).toNat + 20 ≤ 2 ^ 32 →
      (Ends mem (lastEntry mem conf) (firstEntry conf) ↔
        ¬ Meets mem (lastEntry mem conf) (firstEntry conf))) := by
  refine ⟨⟨?_, fun hends => ?_⟩, fun hfit => ⟨Ends.not_meets, ends_of_not_meets hfit⟩⟩
  · rintro ⟨fuel, out, hout, -⟩
    simp only [mpinit, hconf] at hout
    cases hloop : mpLoop mem (lastEntry mem conf) fuel ⟨firstEntry conf, true, [], 0⟩ with
    | none =>
      rw [hloop] at hout
      cases hout
    | some t => exact ends_of_mpLoop hloop
  · obtain ⟨fuel, t, hloop, hismp, hcpus⟩ :=
      hends.mpLoop (s := ⟨firstEntry conf, true, [], 0⟩) rfl (Nat.zero_le _)
    refine ⟨fuel, .found t (uint mem (conf + 36)) (mem (mp + 12) ≠ 0), ?_, hcpus, ?_⟩
    · simp [mpinit, hconf, hloop, hismp]
    · refine iff_of_false ?_ hends.not_meets
      rintro ⟨s, hs⟩
      cases hs

/-! ### Two tables -/

/-- A memory with a table of one entry. -/
def image (type : UInt8) : Mem := fun a =>
  if a = 0x8000040F then 0x90
  else if 0x80090000 ≤ a ∧ a < 0x80090010 then
    [0x5F, 0x4D, 0x50, 0x5F, 0, 0x10, 0x09, 0, 1, 4, 135].getD (a - 0x80090000).toNat 0
  else if 0x80091000 ≤ a ∧ a < 0x8009102C then
    ([0x50, 0x43, 0x4D, 0x50, 64, 0, 4, 174 - type] ++ List.replicate 28 0 ++
      [0, 0, 0xE0, 0xFE]).getD
      (a - 0x80091000).toNat 0
  else if a = 0x8009102C then type
  else 0

/-- One processor is found. -/
theorem mpinit_iff_processor : mpconfig (image MPPROC) = some (0x80090000, 0x80091000) ∧
    ∃ fuel out, mpinit (image MPPROC) fuel = some out ∧ out.cpus.length ≤ NCPU := by
  have hconf : mpconfig (image MPPROC) = some (0x80090000, 0x80091000) := by decide +kernel
  have hends : Ends (image MPPROC) (lastEntry (image MPPROC) 0x80091000) (firstEntry 0x80091000) :=
    .entry (n := 20) (by decide) (by decide) (.done (by decide))
  obtain ⟨fuel, out, hout, hcpus, -⟩ := (mpinit_iff _ _ _ hconf).1.mpr hends
  exact ⟨hconf, fuel, out, hout, hcpus⟩

/-- **A table with an entry of type 5**, with which `mpinit` never ends: it does not panic
either. -/
theorem mpinit_endless : mpconfig (image 5) = some (0x80090000, 0x80091000) ∧
    Meets (image 5) (lastEntry (image 5) 0x80091000) (firstEntry 0x80091000) ∧
    ∀ fuel, mpinit (image 5) fuel = none := by
  have hconf : mpconfig (image 5) = some (0x80090000, 0x80091000) := by decide +kernel
  have hmeets : Meets (image 5) (lastEntry (image 5) 0x80091000) (firstEntry 0x80091000) :=
    .here (by decide) (by decide)
  refine ⟨hconf, hmeets, fun fuel => ?_⟩
  cases hloop : mpLoop (image 5) (lastEntry (image 5) 0x80091000) fuel
      ⟨firstEntry 0x80091000, true, [], 0⟩ with
  | none => simp only [mpinit, hconf, hloop]
  | some t => exact absurd hmeets (ends_of_mpLoop hloop).not_meets

end Mp

end Xv6
