import Mathlib.Data.Nat.Digits.Lemmas
import Mathlib.Tactic.Common

/-!
# Numerals

The digits of a number from the highest on, as they are written, with zeros in front up to
a width.  A number has at least one digit.

## Main definitions

* `numeral b width n` — the digits of `n` in base `b`.
* `numeralValue b l` — the number that digits stand for.
* `numeralValue_numeral` — writing and reading.
-/

namespace SadOS

/-- The digits of `n` in base `b`, at least `width` of them and at least one. -/
def numeral (b width n : ℕ) : List ℕ :=
  List.replicate (max width 1 - (b.digits n).length) 0 ++ (b.digits n).reverse

/-- The number that digits stand for, read from the left. -/
def numeralValue (b : ℕ) (l : List ℕ) : ℕ := l.foldl (fun acc d => acc * b + d) 0

variable {b width n : ℕ}

theorem numeralValue_concat (b : ℕ) (l : List ℕ) (d : ℕ) :
    numeralValue b (l ++ [d]) = numeralValue b l * b + d := by
  rw [numeralValue, List.foldl_append]
  rfl

theorem numeralValue_reverse (b : ℕ) (l : List ℕ) :
    numeralValue b l.reverse = Nat.ofDigits b l := by
  induction l with
  | nil => rfl
  | cons d l ih =>
    rw [List.reverse_cons, numeralValue_concat, ih, Nat.ofDigits_cons]
    ring

theorem numeralValue_numeral (b width n : ℕ) : numeralValue b (numeral b width n) = n := by
  have hrev : numeral b width n = (b.digits n ++
      List.replicate (max width 1 - (b.digits n).length) 0).reverse := by
    rw [List.reverse_append, List.reverse_replicate, numeral]
  rw [hrev, numeralValue_reverse, Nat.ofDigits_append_replicate_zero, Nat.ofDigits_digits]

theorem length_numeral (b width n : ℕ) :
    (numeral b width n).length = max (max width 1) (b.digits n).length := by
  rw [numeral, List.length_append, List.length_replicate, List.length_reverse]
  omega

theorem lt_of_mem_numeral (hb : 1 < b) {d : ℕ} (hd : d ∈ numeral b width n) : d < b := by
  rcases List.mem_append.1 hd with hd | hd
  · rw [List.eq_of_mem_replicate hd]
    omega
  · exact Nat.digits_lt_base hb (List.mem_reverse.1 hd)

/-- A number below `b ^ k` has at most `k` digits. -/
theorem length_digits_le (hb : 1 < b) {k : ℕ} (hn : n < b ^ k) : (b.digits n).length ≤ k :=
  (Nat.digits_length_le_iff hb n).2 hn

/-- The number zero is written with zeros only. -/
theorem numeral_zero (b width : ℕ) : numeral b width 0 = List.replicate (max width 1) 0 := by
  rw [numeral, Nat.digits_zero, List.length_nil, Nat.sub_zero, List.reverse_nil, List.append_nil]

/-- Other numbers have at least one digit by themselves. -/
theorem numeral_of_pos (b width : ℕ) (hn : n ≠ 0) :
    numeral b width n =
      List.replicate (width - (b.digits n).length) 0 ++ (b.digits n).reverse := by
  have hpos : 0 < (b.digits n).length :=
    List.length_pos_iff.2 (Nat.digits_ne_nil_iff_ne_zero.2 hn)
  rw [numeral, show max width 1 - (b.digits n).length = width - (b.digits n).length by omega]

end SadOS
