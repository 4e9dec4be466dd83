import SadOS.Fs.Server
import SadOS.Lib.Numeral
import SadOS.Lib.Packed
import Mathlib.Data.BitVec

/-!
# Numbers as text

`itoa` of `libc/printf.c` and of `sys/printk.c`, which have the same text.  Called with a
null pointer it counts the characters that it would write.

## Main definitions

* `itoa` — the source, with `countLoop`, `zeroLoop`, `padLoop`, `digitLoop`.
* `numberText` — the characters of a number.
* `readNumber` — the number that characters stand for.
* `itoa_formats` — what `itoa` writes and returns.
-/

namespace SadOS.Libc

open Fs (cstr toInt)

/-- A base that there are enough characters for. -/
structure Base where
  val : ℕ
  two_le : 2 ≤ val
  le_sixteen : val ≤ 16

def decimal : Base := ⟨10, by decide, by decide⟩
def hexadecimal : Base := ⟨16, by decide, by decide⟩

/-! ## The source -/

def minus : UInt8 := 45
def zeroChar : UInt8 := 48

/-- `"0123456789abcdef"[d]`. -/
def digitChar (d : ℕ) : UInt8 := (cstr "0123456789abcdef").getD d 0

/-- `a > 0 ? a : -a` for signed numbers, and `a` for others. -/
def magnitude (a : BitVec 64) (sign : Bool) : ℕ :=
  if sign then if 0 < a.toInt then a.toNat else (-a).toNat else a.toNat

/-- `a < 0 && sign`. -/
def isNegative (a : BitVec 64) (sign : Bool) : Bool := decide (a.toInt < 0) && sign

theorem div_base_lt (base : Base) {tmp : ℕ} (h : tmp ≠ 0) : tmp / base.val < tmp :=
  Nat.div_lt_self (Nat.pos_of_ne_zero h) base.two_le

/-- The first loop, which counts the digits. -/
def countLoop (base : Base) (tmp n : ℕ) : ℕ :=
  if h : tmp = 0 then n
  else
    have := div_base_lt base h
    countLoop base (tmp / base.val) (n + 1)
termination_by tmp

/-- `while(t--) *(str++) = '0'`. -/
def zeroLoop : ℕ → ℕ → (ℕ → UInt8) → ℕ → UInt8
  | 0, _, m => m
  | t + 1, str, m => zeroLoop t (str + 1) (Function.update m str zeroChar)

/-- `while((width--) > n) *(str++) = '0'`: the new `str`, and the memory. -/
def padLoop (n : ℕ) : ℕ → ℕ → (ℕ → UInt8) → ℕ × (ℕ → UInt8)
  | 0, str, m => (str, m)
  | width + 1, str, m =>
    if width + 1 > n then padLoop n width (str + 1) (Function.update m str zeroChar) else (str, m)

/-- The last loop, which writes the digits from the last one on. -/
def digitLoop (base : Base) (str tmp n : ℕ) (m : ℕ → UInt8) : ℕ → UInt8 :=
  if h : tmp = 0 then m
  else
    have := div_base_lt base h
    digitLoop base str (tmp / base.val) (n - 1)
      (Function.update m (str + (n - 1)) (digitChar (tmp % base.val)))
termination_by tmp

/-- `itoa`, where `str` is not given for a null pointer: what it returns, and the memory. -/
def itoa (a : BitVec 64) (base : Base) (str : Option ℕ) (width : ℕ) (sign : Bool)
    (m : ℕ → UInt8) : ℤ × (ℕ → UInt8) :=
  let tmp := magnitude a sign
  let n := countLoop base tmp 0
  if n = 0 then
    let width := if width = 0 then 1 else width
    match str with
    | none => (width, m)
    | some str => (width, zeroLoop width str m)
  else
    let ret := if n < width then width else n
    -- `ret++` on an `int`
    let ret := if isNegative a sign then toInt (ret + 1) else ret
    match str with
    | none => (ret, m)
    | some str =>
      let (str, m) :=
        if isNegative a sign then (str + 1, Function.update m str minus) else (str, m)
      let (str, m) := padLoop n width str m
      (ret, digitLoop base str tmp n m)

end SadOS.Libc

namespace SadOS.Kernel

open Libc (Base)

/-- `itoa` of `sys/printk.c`, which has the same text. -/
def itoa (a : BitVec 64) (base : Base) (str : Option ℕ) (width : ℕ) (sign : Bool)
    (m : ℕ → UInt8) : ℤ × (ℕ → UInt8) :=
  Libc.itoa a base str width sign m

end SadOS.Kernel

namespace SadOS.Libc

open Fs (toInt)

/-! ## Texts of numbers -/

/-- The number that is written behind the sign. -/
def absValue (a : BitVec 64) (sign : Bool) : ℕ := if sign then a.toInt.natAbs else a.toNat

/-- The characters of a number. -/
def numberText (a : BitVec 64) (base : Base) (width : ℕ) (sign : Bool) : List UInt8 :=
  (if isNegative a sign then [minus] else []) ++
    (numeral base.val width (absValue a sign)).map digitChar

/-- The digit that a character stands for. -/
def digitValue (c : UInt8) : ℕ := if c.toNat < 97 then c.toNat - 48 else c.toNat - 97 + 10

/-- The number that characters stand for. -/
def readNumber (base : Base) : List UInt8 → BitVec 64
  | [] => 0
  | c :: cs =>
    if c = minus then -BitVec.ofNat 64 (numeralValue base.val (cs.map digitValue))
    else BitVec.ofNat 64 (numeralValue base.val ((c :: cs).map digitValue))

theorem digitValue_digitChar {d : ℕ} (hd : d < 16) : digitValue (digitChar d) = d := by
  revert d
  decide

theorem digitChar_ne_minus {d : ℕ} (hd : d < 16) : digitChar d ≠ minus := by
  revert d
  decide

/-! ## The loops -/

section loops

variable {base : Base} {a : BitVec 64} {sign : Bool} {width : ℕ}

theorem one_lt_base (base : Base) : 1 < base.val := base.two_le

theorem digits_step (base : Base) {tmp : ℕ} (h : tmp ≠ 0) :
    base.val.digits tmp = tmp % base.val :: base.val.digits (tmp / base.val) :=
  Nat.digits_eq_cons_digits_div (one_lt_base base) h

theorem countLoop_eq (base : Base) (tmp n : ℕ) :
    countLoop base tmp n = n + (base.val.digits tmp).length := by
  fun_induction countLoop base tmp n with
  | case1 n => rw [Nat.digits_zero, List.length_nil, Nat.add_zero]
  | case2 tmp n h _ ih =>
    rw [ih, digits_step base h, List.length_cons]
    omega

theorem zeroLoop_eq (t str : ℕ) (m : ℕ → UInt8) :
    zeroLoop t str m = splice m str (List.replicate t zeroChar) := by
  induction t generalizing str m with
  | zero => exact (splice_nil m str).symm
  | succ t ih => rw [zeroLoop, ih, List.replicate_succ, splice_cons]

theorem padLoop_eq (n width str : ℕ) (m : ℕ → UInt8) :
    padLoop n width str m =
      (str + (width - n), splice m str (List.replicate (width - n) zeroChar)) := by
  induction width generalizing str m with
  | zero =>
    rw [Nat.zero_sub, List.replicate_zero, splice_nil]
    rfl
  | succ width ih =>
    rw [padLoop]
    split
    next h =>
      have hsub : width + 1 - n = width - n + 1 := by omega
      rw [ih, hsub, List.replicate_succ, splice_cons]
      congr 1
      omega
    next h =>
      rw [Nat.sub_eq_zero_of_le (by omega), List.replicate_zero, splice_nil]
      rfl

/-- The digits are written from the last one on. -/
theorem digitLoop_eq (base : Base) (str tmp : ℕ) (m : ℕ → UInt8) :
    digitLoop base str tmp (base.val.digits tmp).length m =
      splice m str ((base.val.digits tmp).reverse.map digitChar) := by
  induction tmp using Nat.strong_induction_on generalizing m with
  | h tmp ih =>
    rw [digitLoop]
    split
    next h =>
      subst h
      rw [Nat.digits_zero, List.reverse_nil, List.map_nil, splice_nil]
    next h =>
      rw [digits_step base h, List.length_cons, Nat.add_sub_cancel, ih _ (div_base_lt base h),
        List.reverse_cons, List.map_append, List.map_singleton, splice_concat, List.length_map,
        List.length_reverse]

/-! ## What is written -/

theorem magnitude_eq (a : BitVec 64) (sign : Bool) : magnitude a sign = absValue a sign := by
  cases sign with
  | false => rfl
  | true =>
    have hlt := a.isLt
    simp only [magnitude, absValue, if_true, BitVec.toInt_eq_toNat_cond, BitVec.toNat_neg]
    split <;> split <;> omega

theorem absValue_lt (a : BitVec 64) (sign : Bool) : absValue a sign < 2 ^ 64 := by
  have hlt := a.isLt
  have hint := BitVec.toInt_eq_toNat_cond a
  cases sign with
  | false => exact hlt
  | true =>
    rw [absValue, if_pos rfl]
    split at hint <;> omega

theorem absValue_ne_zero (h : isNegative a sign = true) : absValue a sign ≠ 0 := by
  rw [isNegative, Bool.and_eq_true, decide_eq_true_eq] at h
  rw [absValue, if_pos h.2]
  omega

/-- There are at most 64 digits. -/
theorem length_digits_absValue (a : BitVec 64) (base : Base) (sign : Bool) :
    (base.val.digits (absValue a sign)).length ≤ 64 :=
  length_digits_le (one_lt_base base)
    ((absValue_lt a sign).trans_le (Nat.pow_le_pow_left base.two_le 64))

theorem length_numberText (a : BitVec 64) (base : Base) (width : ℕ) (sign : Bool) :
    (numberText a base width sign).length =
      (if isNegative a sign then 1 else 0) +
        max (max width 1) (base.val.digits (absValue a sign)).length := by
  rw [numberText, List.length_append, List.length_map, length_numeral]
  split <;> rfl

theorem absValue_of_negative (h : isNegative a sign = true) : absValue a sign = (-a).toNat := by
  rw [isNegative, Bool.and_eq_true, decide_eq_true_eq] at h
  rw [← magnitude_eq, magnitude, if_pos h.2, if_neg (by omega)]

theorem absValue_of_not_negative (h : ¬isNegative a sign = true) : absValue a sign = a.toNat := by
  rw [isNegative, Bool.and_eq_true, decide_eq_true_eq] at h
  have hint := BitVec.toInt_eq_toNat_cond a
  rw [absValue]
  split_ifs with hsign
  · have hnonneg : 0 ≤ a.toInt := by
      by_contra hlt
      exact h ⟨by omega, hsign⟩
    have habs := Int.natAbs_of_nonneg hnonneg
    split at hint <;> omega
  · rfl

/-- Reading back. -/
theorem readNumber_numberText (a : BitVec 64) (base : Base) (width : ℕ) (sign : Bool) :
    readNumber base (numberText a base width sign) = a := by
  have hdigit : ∀ d ∈ numeral base.val width (absValue a sign), d < 16 := fun d hd =>
    (lt_of_mem_numeral (one_lt_base base) hd).trans_le base.le_sixteen
  have hread : ((numeral base.val width (absValue a sign)).map digitChar).map digitValue =
      numeral base.val width (absValue a sign) := by
    rw [List.map_map]
    exact (List.map_congr_left fun d hd => digitValue_digitChar (hdigit d hd)).trans (List.map_id _)
  by_cases hneg : isNegative a sign = true
  · rw [numberText, if_pos hneg, List.singleton_append, readNumber, if_pos rfl, hread,
      numeralValue_numeral, absValue_of_negative hneg, BitVec.ofNat_toNat, BitVec.setWidth_eq,
      neg_neg]
  · rw [numberText, if_neg hneg, List.nil_append]
    have hlen := length_numeral base.val width (absValue a sign)
    cases hl : numeral base.val width (absValue a sign) with
    | nil =>
      rw [hl, List.length_nil] at hlen
      omega
    | cons d l =>
      have hne : digitChar d ≠ minus := digitChar_ne_minus (hdigit d (hl ▸ List.mem_cons_self))
      rw [hl, List.map_cons, List.map_cons] at hread
      rw [List.map_cons, readNumber, if_neg hne, List.map_cons, hread, ← hl, numeralValue_numeral,
        absValue_of_not_negative hneg, BitVec.ofNat_toNat, BitVec.setWidth_eq]

end loops

/-! ## What `itoa` does -/

theorem int_of_lt {n : ℤ} (hlo : 0 ≤ n) (hhi : n < 2 ^ 31) : toInt n = n :=
  Int.bmod_eq_of_le (by omega) (by omega)

/-- The one number of characters that is no `int`. -/
theorem toInt_length_numberText (a : BitVec 64) (base : Base) {width : ℕ} (hwidth : width < 2 ^ 31)
    (sign : Bool) :
    toInt (numberText a base width sign).length =
      if isNegative a sign ∧ width = 2 ^ 31 - 1 then -2 ^ 31
      else ((numberText a base width sign).length : ℤ) := by
  have hdigits := length_digits_absValue a base sign
  have hlen := length_numberText a base width sign
  split
  next h =>
    rw [if_pos h.1] at hlen
    rw [show (numberText a base width sign).length = 2 ^ 31 by omega]
    rfl
  next h =>
    refine int_of_lt (Int.natCast_nonneg _) ?_
    by_cases hneg : isNegative a sign = true
    · have hne : width ≠ 2 ^ 31 - 1 := fun heq => h ⟨hneg, heq⟩
      rw [if_pos hneg] at hlen
      omega
    · rw [if_neg hneg] at hlen
      omega

/-- What `itoa` returns and writes. -/
theorem itoa_eq (a : BitVec 64) (base : Base) (str : Option ℕ) {width : ℕ} (hwidth : width < 2 ^ 31)
    (sign : Bool) (m : ℕ → UInt8) :
    itoa a base str width sign m =
      (toInt (numberText a base width sign).length,
        str.elim m fun str => splice m str (numberText a base width sign)) := by
  have hdigits := length_digits_absValue a base sign
  have hlen := length_numberText a base width sign
  have hint := toInt_length_numberText a base hwidth sign
  rw [itoa]
  simp only [countLoop_eq, magnitude_eq, Nat.zero_add]
  split
  next hzero =>
    -- the number is zero
    have habs : absValue a sign = 0 := Nat.digits_eq_nil_iff_eq_zero.1 (List.length_eq_zero_iff.1 hzero)
    have hneg : ¬isNegative a sign = true := fun h => absValue_ne_zero h habs
    have hwidth' : (if width = 0 then 1 else width) = max width 1 := by
      split <;> omega
    have htext : numberText a base width sign = List.replicate (max width 1) zeroChar := by
      rw [numberText, if_neg hneg, habs, numeral_zero, List.map_replicate]
      rfl
    rw [hwidth', htext, List.length_replicate, int_of_lt (by omega) (by omega)]
    cases str with
    | none => rfl
    | some str => simp only [zeroLoop_eq, Option.elim_some]
  next hzero =>
    have habs : absValue a sign ≠ 0 := fun h => hzero (by rw [h, Nat.digits_zero]; rfl)
    generalize hn : (base.val.digits (absValue a sign)).length = n at *
    have hmax : (if n < width then width else n) = max (max width 1) n := by
      split <;> omega
    have hret : (if isNegative a sign = true then toInt (↑(max (max width 1) n) + 1)
        else ((max (max width 1) n : ℕ) : ℤ)) = toInt (numberText a base width sign).length := by
      rw [hlen]
      split
      · rw [Nat.add_comm, Nat.cast_add, Nat.cast_one]
      · rw [Nat.zero_add, int_of_lt (by omega) (by omega)]
    simp only [hmax]
    rw [hret]
    cases str with
    | none => rfl
    | some str =>
      have hdigitLoop := fun x => digitLoop_eq base x (absValue a sign)
      have htext : (numeral base.val width (absValue a sign)).map digitChar =
          List.replicate (width - n) zeroChar ++
            (base.val.digits (absValue a sign)).reverse.map digitChar := by
        rw [numeral_of_pos _ _ habs, hn, List.map_append, List.map_replicate]
        rfl
      rw [hn] at hdigitLoop
      simp only [padLoop_eq, hdigitLoop, Option.elim_some, numberText, htext]
      have hpadLen : ∀ q, q + (width - n) = q + (List.replicate (width - n) zeroChar).length := by
        simp
      split
      · rw [hpadLen, splice_splice, List.singleton_append, splice_cons]
      · rw [hpadLen, splice_splice, List.nil_append]

/-- A call that writes the text of the number, or only counts its characters.  There may be
as many as `2 ^ 31` of them, which an `int` has no value for. -/
def Formats (itoa : BitVec 64 → Base → Option ℕ → ℕ → Bool → (ℕ → UInt8) → ℤ × (ℕ → UInt8))
    (a : BitVec 64) (base : Base) (width : ℕ) (sign : Bool) : Prop :=
  let text := numberText a base width sign
  let ret := if isNegative a sign ∧ width = 2 ^ 31 - 1 then -2 ^ 31 else (text.length : ℤ)
  ∀ (str : ℕ) (m : ℕ → UInt8),
    itoa a base (some str) width sign m = (ret, splice m str text) ∧
      itoa a base none width sign m = (ret, m)

/-- Both functions write the text of the number, from which the number can be read back. -/
theorem itoa_formats (a : BitVec 64) (base : Base) {width : ℕ} (hwidth : width < 2 ^ 31)
    (sign : Bool) :
    Formats itoa a base width sign ∧ Formats Kernel.itoa a base width sign ∧
      readNumber base (numberText a base width sign) = a := by
  have hformats : Formats itoa a base width sign := by
    intro str m
    rw [itoa_eq a base (some str) hwidth, itoa_eq a base none hwidth,
      toInt_length_numberText a base hwidth]
    exact ⟨rfl, rfl⟩
  exact ⟨hformats, hformats, readNumber_numberText a base width sign⟩

/-- The least number, in base 2. -/
theorem itoa_formats_least :
    Formats itoa (BitVec.intMin 64) ⟨2, by decide, by decide⟩ 0 true ∧
      Formats Kernel.itoa (BitVec.intMin 64) ⟨2, by decide, by decide⟩ 0 true ∧
      readNumber ⟨2, by decide, by decide⟩
        (numberText (BitVec.intMin 64) ⟨2, by decide, by decide⟩ 0 true) = BitVec.intMin 64 :=
  itoa_formats _ _ (by decide) _

/-- The minus sign may be one character too many to count. -/
theorem itoa_miscounts : ¬∀ (a : BitVec 64) (base : Base) (width : ℕ) (sign : Bool)
    (m : ℕ → UInt8), width < 2 ^ 31 →
      (itoa a base none width sign m).1 = (numberText a base width sign).length := by
  intro h
  have hwidth : 2 ^ 31 - 1 < 2 ^ 31 := by decide
  have heq := h (-1) decimal (2 ^ 31 - 1) true (fun _ => 0) hwidth
  have hneg : isNegative (-1) true = true := by decide
  rw [itoa_eq _ _ _ hwidth, toInt_length_numberText _ _ hwidth, if_pos ⟨hneg, rfl⟩] at heq
  omega

end SadOS.Libc
