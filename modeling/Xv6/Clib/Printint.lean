import Xv6.Lib.Bytes

/-!
# Numbers in print

`printint` of the kernel's `console.c` and of the user library's `printf.c` write a number into a
buffer of 16 bytes, the last digit first, and print the buffer backwards. `atoi` of `ulib.c` reads
decimal numbers.

## Main definitions

* `Kernel.printint`, `Ulib.printint`, `Ulib.atoi` — the functions
* `numeral`, `signed` — the canonical numeral of a number, and of an `int`

## Main results

* `printint_eq` — both print the canonical numeral, and `atoi` reads it back
-/

namespace Xv6

/-! ### The functions -/

/-- `buf[i] = c`, which must not be outside of the buffer. -/
def storeChar (buf : Bytes 16) (i : ℕ) (c : UInt8) : Option (Bytes 16) :=
  if i < 16 then some (buf.set i c) else none

/-- `do { buf[i++] = digits[x % base]; } while((x /= base) != 0);` The buffer ends before the fuel
does. -/
def digitLoop (digits : List UInt8) (base : UInt32) :
    ℕ → Bytes 16 → ℕ → UInt32 → Option (Bytes 16 × ℕ)
  | 0, _, _, _ => none
  | fuel + 1, buf, i, x => do
    let buf ← storeChar buf i (digits.getD (x % base).toNat 0)
    if x / base ≠ 0 then digitLoop digits base fuel buf (i + 1) (x / base)
    else return (buf, i + 1)

/-- `while(--i >= 0)`, with the bytes that are put out. -/
def putBack (buf : Bytes 16) : ℕ → List UInt8
  | 0 => []
  | i + 1 => buf.get i :: putBack buf i

/-- `"0123456789abcdef"`. -/
def Kernel.digits : List UInt8 :=
  [48, 49, 50, 51, 52, 53, 54, 55, 56, 57, 97, 98, 99, 100, 101, 102]

/-- `"0123456789ABCDEF"`. -/
def Ulib.digits : List UInt8 :=
  [48, 49, 50, 51, 52, 53, 54, 55, 56, 57, 65, 66, 67, 68, 69, 70]

/-- `'-'`. -/
abbrev minus : UInt8 := 45

/-- `printint` of `console.c`: the bytes that go to `consputc`. -/
def Kernel.printint (xx base sign : Int32) : Option (List UInt8) := do
  let sign' : Int32 := if sign ≠ 0 then (if xx < 0 then 1 else 0) else sign
  let x : UInt32 := if sign ≠ 0 ∧ sign' ≠ 0 then (-xx).toUInt32 else xx.toUInt32
  let (buf, i) ← digitLoop Kernel.digits base.toUInt32 17 (Bytes.zero 16) 0 x
  if sign' ≠ 0 then
    let buf ← storeChar buf i minus
    return putBack buf (i + 1)
  else return putBack buf i

/-- `printint` of `printf.c`: the bytes that `putc` writes, each with its file descriptor. -/
def Ulib.printint (fd xx base sgn : Int32) : Option (List (Int32 × UInt8)) := do
  let neg : Bool := sgn ≠ 0 ∧ xx < 0
  let x : UInt32 := if neg then (-xx).toUInt32 else xx.toUInt32
  let (buf, i) ← digitLoop Ulib.digits base.toUInt32 17 (Bytes.zero 16) 0 x
  if neg then
    let buf ← storeChar buf i minus
    return (putBack buf (i + 1)).map fun c => (fd, c)
  else return (putBack buf i).map fun c => (fd, c)

/-- The loop of `atoi`. -/
def atoiLoop (n : Int32) : List UInt8 → Int32
  | [] => n
  | c :: s => if 48 ≤ c ∧ c ≤ 57 then atoiLoop (n * 10 + c.toUInt32.toInt32 - 48) s else n

def Ulib.atoi (s : List UInt8) : Int32 := atoiLoop 0 s

/-! ### Numerals -/

/-- The digits of a number, the last one first; `0` has one digit. -/
def lowDigits (b n : ℕ) : List ℕ := if n = 0 then [0] else Nat.digits b n

/-- **The canonical numeral** of a number. -/
def numeral (digits : List UInt8) (b n : ℕ) : List UInt8 :=
  ((lowDigits b n).map fun d => digits.getD d 0).reverse

/-- The canonical numeral of an `int`, of its unsigned value if it is to be printed without a
sign. -/
def signed (digits : List UInt8) (b : ℕ) (sign : Bool) (xx : Int32) : List UInt8 :=
  if sign then (if xx < 0 then [minus] else []) ++ numeral digits b xx.toInt.natAbs
  else numeral digits b xx.toUInt32.toNat

variable {b n i : ℕ} {digits : List UInt8} {buf : Bytes 16}

theorem lowDigits_eq (hb : 1 < b) (n : ℕ) :
    lowDigits b n = n % b :: if n / b = 0 then [] else lowDigits b (n / b) := by
  by_cases hn : n = 0
  · subst hn
    simp [lowDigits]
  · rw [lowDigits, if_neg hn, Nat.digits_eq_cons_digits_div hb hn]
    congr 1
    by_cases hdiv : n / b = 0
    · rw [if_pos hdiv, hdiv, Nat.digits_zero]
    · rw [if_neg hdiv, lowDigits, if_neg hdiv]

theorem length_lowDigits_le (hb : 1 < b) {k : ℕ} (hk : 0 < k) (hn : n < b ^ k) :
    (lowDigits b n).length ≤ k := by
  rw [lowDigits]
  split
  · exact hk
  · exact (Nat.digits_length_le_iff hb n).mpr hn

theorem ofDigits_lowDigits (b n : ℕ) : Nat.ofDigits b (lowDigits b n) = n := by
  rw [lowDigits]
  split
  · next hn => simp [hn]
  · exact Nat.ofDigits_digits b n

theorem lt_of_mem_lowDigits (hb : 1 < b) {d : ℕ} (hd : d ∈ lowDigits b n) : d < b := by
  rw [lowDigits] at hd
  split at hd
  · rw [List.mem_singleton.mp hd]
    omega
  · exact Nat.digits_lt_base hb hd

/-- The first digit of a number is not zero. -/
theorem getLast_lowDigits (hn : n ≠ 0) (d : ℕ) (hd : (lowDigits b n).getLast? = some d) :
    d ≠ 0 := by
  rw [lowDigits, if_neg hn, List.getLast?_eq_some_getLast
    (Nat.digits_ne_nil_iff_ne_zero.mpr hn)] at hd
  rw [← Option.some.inj hd]
  exact Nat.getLast_digit_ne_zero b hn

/-! ### The buffer -/

theorem putBack_set {k : ℕ} (hk : k ≤ i) (c : UInt8) : putBack (buf.set i c) k = putBack buf k := by
  induction k with
  | zero => rfl
  | succ k ih =>
    have hne : ¬ (k = i ∧ i < 16) := by omega
    rw [putBack, putBack, ih (by omega), Bytes.get_set, if_neg hne]

/-- A byte that is stored behind the others is printed before them. -/
theorem putBack_store (hi : i < 16) (c : UInt8) :
    putBack (buf.set i c) (i + 1) = c :: putBack buf i := by
  rw [putBack, putBack_set (Nat.le_refl i), Bytes.get_set, if_pos ⟨rfl, hi⟩]

theorem storeChar_eq (hi : i < 16) (c : UInt8) : storeChar buf i c = some (buf.set i c) := if_pos hi

/-- **The loop** stores the digits of the number. -/
theorem digitLoop_eq {base x : UInt32} (hb : 1 < base.toNat) {fuel : ℕ}
    (hfuel : (lowDigits base.toNat x.toNat).length ≤ fuel)
    (hi : i + (lowDigits base.toNat x.toNat).length ≤ 16) :
    ∃ buf', digitLoop digits base fuel buf i x =
        some (buf', i + (lowDigits base.toNat x.toNat).length) ∧
      putBack buf' (i + (lowDigits base.toNat x.toNat).length) =
        numeral digits base.toNat x.toNat ++ putBack buf i := by
  induction fuel generalizing buf i x with
  | zero =>
    rw [lowDigits_eq hb] at hfuel
    exact absurd hfuel (Nat.not_succ_le_zero _)
  | succ fuel ih =>
    have hmod : (x % base).toNat = x.toNat % base.toNat := UInt32.toNat_mod x base
    have hdiv : (x / base).toNat = x.toNat / base.toNat := UInt32.toNat_div x base
    have hzero : x / base = 0 ↔ x.toNat / base.toNat = 0 := by
      rw [← hdiv, ← UInt32.toNat_inj]
      rfl
    rw [digitLoop, numeral]
    rw [lowDigits_eq hb] at hfuel hi ⊢
    rw [List.length_cons] at hfuel hi ⊢
    have hlt : i < 16 := by omega
    rw [storeChar_eq hlt, hmod]
    by_cases hlast : x / base = 0
    · rw [if_pos (hzero.mp hlast)] at hi ⊢
      refine ⟨buf.set i (digits.getD (x.toNat % base.toNat) 0), by simp [hlast], ?_⟩
      exact putBack_store hlt _
    · rw [if_neg (mt hzero.mpr hlast)] at hi hfuel ⊢
      rw [← hdiv] at hi hfuel ⊢
      obtain ⟨buf', hloop, hput⟩ := @ih (i + 1) (buf.set i (digits.getD (x.toNat % base.toNat) 0))
        (x / base) (by omega) (by omega)
      rw [Nat.add_assoc, Nat.add_comm 1] at hloop hput
      refine ⟨buf', by simpa [hlast] using hloop, ?_⟩
      rw [hput, putBack_store hlt, numeral]
      simp

/-! ### What is printed -/

/-- A number of 32 bits has at most ten digits. -/
theorem length_lowDigits_word {base : UInt32} (hb : 10 ≤ base.toNat) (x : UInt32) :
    (lowDigits base.toNat x.toNat).length ≤ 10 := by
  have hx := x.toNat_lt
  have hpow : 10 ^ 10 ≤ base.toNat ^ 10 := Nat.pow_le_pow_left hb 10
  exact length_lowDigits_le (by omega) (by decide) (by omega)

/-- The value of an `int`. -/
theorem toNat_toUInt32_of_nonneg {xx : Int32} (h : ¬ xx < 0) :
    xx.toUInt32.toNat = xx.toInt.natAbs := by
  have hint : xx.toInt = _ := BitVec.toInt_eq_toNat_cond xx.toBitVec
  have hnat : xx.toBitVec.toNat = xx.toUInt32.toNat := rfl
  have hlt := xx.toUInt32.toNat_lt
  have hneg : ¬ xx.toInt < 0 := fun hx => h (Int32.lt_iff_toInt_lt.mpr hx)
  rw [hnat] at hint
  split at hint <;> omega

/-- The negation, which is right for the least `int` as well. -/
theorem toNat_neg_of_neg {xx : Int32} (h : xx < 0) : (-xx).toUInt32.toNat = xx.toInt.natAbs := by
  have hint : xx.toInt = _ := BitVec.toInt_eq_toNat_cond xx.toBitVec
  have hnat : xx.toBitVec.toNat = xx.toUInt32.toNat := rfl
  have hlt := xx.toUInt32.toNat_lt
  have hneg : xx.toInt < 0 := Int32.lt_iff_toInt_lt.mp h
  have hnegate : (-xx).toUInt32.toNat = (2 ^ 32 - xx.toUInt32.toNat) % 2 ^ 32 :=
    BitVec.toNat_neg xx.toBitVec
  rw [hnat] at hint
  rw [hnegate]
  split at hint <;> omega

/-- The bytes for a number, with a sign or without. -/
theorem print_eq {base x : UInt32} (hb : 10 ≤ base.toNat) (neg : Bool) :
    ((digitLoop digits base 17 (Bytes.zero 16) 0 x).bind fun r =>
      if neg then (storeChar r.1 r.2 minus).bind fun buf => some (putBack buf (r.2 + 1))
      else some (putBack r.1 r.2)) =
    some ((if neg then [minus] else []) ++ numeral digits base.toNat x.toNat) := by
  have hlen := length_lowDigits_word hb x
  obtain ⟨buf, hloop, hput⟩ := @digitLoop_eq 0 digits (Bytes.zero 16) base x
    (by omega) 17 (by omega)
    (by omega)
  rw [Nat.zero_add, putBack, List.append_nil] at hput
  rw [hloop, Nat.zero_add]
  have hstore : storeChar buf (lowDigits base.toNat x.toNat).length minus = _ :=
    storeChar_eq (by omega) minus
  cases neg with
  | false => simp [hput]
  | true => simp [hstore, putBack_store (Nat.lt_of_le_of_lt hlen (by decide)), hput]

theorem kernel_printint_eq {xx base sign : Int32} (hb : 10 ≤ base.toUInt32.toNat) :
    Kernel.printint xx base sign =
      some (signed Kernel.digits base.toUInt32.toNat (sign ≠ 0) xx) := by
  have hprint := fun x neg => @print_eq Kernel.digits base.toUInt32 x hb neg
  rw [Kernel.printint, signed]
  by_cases hsign : sign = 0
  · have := hprint xx.toUInt32 false
    simpa [hsign] using this
  · by_cases hneg : xx < 0
    · have := hprint (-xx).toUInt32 true
      rw [toNat_neg_of_neg hneg] at this
      simpa [hsign, hneg] using this
    · have := hprint xx.toUInt32 false
      rw [toNat_toUInt32_of_nonneg hneg] at this
      simpa [hsign, hneg] using this

theorem ulib_printint_eq {fd xx base sgn : Int32} (hb : 10 ≤ base.toUInt32.toNat) :
    Ulib.printint fd xx base sgn =
      some ((signed Ulib.digits base.toUInt32.toNat (sgn ≠ 0) xx).map fun c => (fd, c)) := by
  have hprint := fun x neg =>
    congrArg (Option.map (List.map fun c => (fd, c))) (@print_eq Ulib.digits base.toUInt32 x hb neg)
  rw [Ulib.printint, signed]
  by_cases hneg : sgn ≠ 0 ∧ xx < 0
  · have := hprint (-xx).toUInt32 true
    rw [toNat_neg_of_neg hneg.2] at this
    simpa [hneg.1, hneg.2, Option.map_bind, Function.comp_def] using this
  · have := hprint xx.toUInt32 false
    by_cases hsgn : sgn = 0
    · simpa [hsgn, Option.map_bind, Function.comp_def] using this
    · have hxx : ¬ xx < 0 := fun hxx => hneg ⟨hsgn, hxx⟩
      rw [toNat_toUInt32_of_nonneg hxx] at this
      simpa [hsgn, hxx, Option.map_bind, Function.comp_def] using this

/-! ### Reading -/

/-- `atoi` reads one digit after the other. -/
theorem atoiLoop_digits (ds : List ℕ) (hds : ∀ d ∈ ds, d < 10) (n : ℕ) :
    atoiLoop (Int32.ofNat n) (ds.map fun d => UInt8.ofNat (48 + d)) =
      Int32.ofNat (ds.foldl (fun n d => n * 10 + d) n) := by
  induction ds generalizing n with
  | nil => rfl
  | cons d ds ih =>
    have hd : d < 10 := hds d List.mem_cons_self
    have hsize : 48 + d < UInt8.size := Nat.lt_trans (Nat.add_lt_add_left hd 48) (by decide)
    have hc : (UInt8.ofNat (48 + d)).toNat = 48 + d := UInt8.toNat_ofNat_of_lt' hsize
    have hdigit : 48 ≤ UInt8.ofNat (48 + d) ∧ UInt8.ofNat (48 + d) ≤ 57 := by
      rw [UInt8.le_iff_toNat_le, UInt8.le_iff_toNat_le, hc]
      exact ⟨Nat.le_add_right 48 d, Nat.add_le_add_left (Nat.le_of_lt_succ hd) 48⟩
    have hstep : Int32.ofNat n * 10 + (UInt8.ofNat (48 + d)).toUInt32.toInt32 - 48 =
        Int32.ofNat (n * 10 + d) := by
      have hchar : (UInt8.ofNat (48 + d)).toUInt32.toInt32 = Int32.ofNat d + Int32.ofNat 48 := by
        rw [← Int32.ofNat_add, UInt8.toUInt32_ofNat' hsize, Nat.add_comm]
        rfl
      rw [hchar, Int32.ofNat_add, Int32.ofNat_mul, ← Int32.add_assoc]
      exact Int32.add_sub_cancel _ _
    rw [List.map_cons, atoiLoop, if_pos hdigit, hstep, List.foldl_cons]
    exact ih (fun e he => hds e (List.mem_cons_of_mem d he)) _

/-- The first ten digits are the same in both tables. -/
theorem getD_digits {d : ℕ} (hd : d < 10) :
    Kernel.digits.getD d 0 = UInt8.ofNat (48 + d) ∧
    Ulib.digits.getD d 0 = UInt8.ofNat (48 + d) := by
  interval_cases d <;> exact ⟨rfl, rfl⟩

/-- **`atoi` reads a numeral back.** -/
theorem atoi_numeral (hdigits : ∀ d < 10, digits.getD d 0 = UInt8.ofNat (48 + d)) (n : ℕ) :
    Ulib.atoi (numeral digits 10 n) = Int32.ofNat n := by
  have hlt : ∀ d ∈ (lowDigits 10 n).reverse, d < 10 := fun d hd =>
    lt_of_mem_lowDigits (by decide) (List.mem_reverse.mp hd)
  have hmap : numeral digits 10 n = (lowDigits 10 n).reverse.map fun d => UInt8.ofNat (48 + d) := by
    rw [numeral, ← List.map_reverse]
    exact List.map_congr_left fun d hd => hdigits d (hlt d hd)
  have hvalue : (lowDigits 10 n).reverse.foldl (fun n d => n * 10 + d) 0 = n := by
    rw [List.foldl_reverse]
    conv_rhs => rw [← ofDigits_lowDigits 10 n, Nat.ofDigits_eq_foldr]
    simp only [Nat.cast_id, Nat.add_comm, Nat.mul_comm]
  rw [Ulib.atoi, hmap]
  exact (atoiLoop_digits _ hlt 0).trans (congrArg Int32.ofNat hvalue)

/-- A numeral does not start with a zero, unless the number is zero. -/
theorem head_numeral_ne (hdigits : ∀ d < b, d ≠ 0 → digits.getD d 0 ≠ 48) (hb : 1 < b)
    (hn : n ≠ 0) :
    (numeral digits b n).head? ≠ some 48 := by
  rw [numeral, List.head?_reverse, List.getLast?_map]
  intro hzero
  obtain ⟨d, hd, hzero⟩ := Option.map_eq_some_iff.mp hzero
  exact hdigits d (lt_of_mem_lowDigits hb (List.mem_of_getLast? hd))
    (getLast_lowDigits hn d hd) hzero

/-- A minus sign is printed for negative numbers only. -/
theorem minus_mem_signed_iff (hdigits : minus ∉ digits) {sign : Bool} {xx : Int32} :
    minus ∈ signed digits b sign xx ↔ sign = true ∧ xx < 0 := by
  have hnot : ∀ n, minus ∉ numeral digits b n := fun n hmem => by
    rw [numeral, List.mem_reverse, List.mem_map] at hmem
    obtain ⟨d, -, hd⟩ := hmem
    rw [List.getD_eq_getElem?_getD] at hd
    cases hget : digits[d]? with
    | none =>
      rw [hget] at hd
      exact absurd hd (by decide)
    | some c =>
      rw [hget] at hd
      exact hdigits ((show c = minus from hd) ▸ List.mem_of_getElem? hget)
  rw [signed]
  cases sign with
  | false => simp [hnot]
  | true => by_cases hneg : xx < 0 <;> simp [hneg, hnot]

/-- **Numbers in print**: for every number, base and sign flag both `printint` stay within their
buffer and print the canonical numeral, without leading zeros and with a minus sign exactly for
negative numbers, and `atoi` reads the decimal numeral of a number that is not negative back. -/
theorem printint_eq (fd xx base sign : Int32) (hbase : base = 10 ∨ base = 16) :
    Kernel.printint xx base sign =
        some (signed Kernel.digits base.toUInt32.toNat (sign ≠ 0) xx) ∧
      Ulib.printint fd xx base sign =
        some ((signed Ulib.digits base.toUInt32.toNat (sign ≠ 0) xx).map fun c => (fd, c)) ∧
      (∀ digits ∈ [Kernel.digits, Ulib.digits],
        (∀ n ≠ 0, (numeral digits base.toUInt32.toNat n).head? ≠ some 48) ∧
        (minus ∈ signed digits base.toUInt32.toNat (sign ≠ 0) xx ↔ sign ≠ 0 ∧ xx < 0)) ∧
      (0 ≤ xx → (Kernel.printint xx 10 1).map Ulib.atoi = some xx ∧
        (Ulib.printint fd xx 10 1).map (fun out => Ulib.atoi (out.map Prod.snd)) = some xx) := by
  have hb : 10 ≤ base.toUInt32.toNat ∧ base.toUInt32.toNat ≤ 16 := by
    rcases hbase with rfl | rfl <;> decide
  refine ⟨kernel_printint_eq hb.1, ulib_printint_eq hb.1,
    fun digits hdigits => ⟨fun n hn => ?_, ?_⟩, fun hxx => ?_⟩
  · have hnonzero : ∀ d < 16, d ≠ 0 → digits.getD d 0 ≠ 48 := by
      rw [List.mem_pair] at hdigits
      rcases hdigits with rfl | rfl <;> decide
    exact head_numeral_ne (fun d hd => hnonzero d (by omega)) (by omega) hn
  · have hminus : minus ∉ digits := by
      rw [List.mem_pair] at hdigits
      rcases hdigits with rfl | rfl <;> decide
    rw [minus_mem_signed_iff hminus, decide_eq_true_eq]
  · have hnot : ¬ xx < 0 := Int32.not_lt.mpr hxx
    have hvalue : Int32.ofNat xx.toInt.natAbs = xx := by
      rw [← toNat_toUInt32_of_nonneg hnot]
      exact congrArg UInt32.toInt32 UInt32.ofNat_toNat
    have hsigned : ∀ digits, signed digits 10 true xx = numeral digits 10 xx.toInt.natAbs := by
      simp [signed, hnot]
    have hkernel := @kernel_printint_eq xx 10 1 (by decide)
    have hulib := @ulib_printint_eq fd xx 10 1 (by decide)
    have hmap : ∀ out : List UInt8, (out.map fun c => (fd, c)).map Prod.snd = out := by simp
    rw [hkernel, hulib, Option.map_some, Option.map_some, hmap]
    refine ⟨congrArg some ?_, congrArg some ?_⟩
    · exact ((congrArg Ulib.atoi (hsigned _)).trans
        (atoi_numeral (fun d hd => (getD_digits hd).1) _)).trans hvalue
    · exact ((congrArg Ulib.atoi (hsigned _)).trans
        (atoi_numeral (fun d hd => (getD_digits hd).2) _)).trans hvalue

/-- The least `int`, in decimal. -/
theorem printint_eq_min : Kernel.printint (-2147483648) 10 1 =
      some (signed Kernel.digits 10 true (-2147483648)) ∧
    Kernel.printint (-2147483648) 10 1 = some [45, 50, 49, 52, 55, 52, 56, 51, 54, 52, 56] :=
  ⟨(printint_eq 1 (-2147483648) 10 1 (.inl rfl)).1, by decide⟩

end Xv6
