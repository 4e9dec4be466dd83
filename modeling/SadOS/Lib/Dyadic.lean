import Mathlib.Data.Nat.Bitwise
import Mathlib.Tactic.Ring
import Mathlib.Tactic.Linarith

/-!
# Tilings by aligned blocks

A block of order `k` has `2 ^ k` elements and begins at a multiple of `2 ^ k`.  A tiling
covers a set with such blocks, without overlap.  The buddy of a block is the other half of
the block of the next order that it is in.  If that block belongs to the set, then some
block begins where the buddy begins, and is no larger.

## Main definitions

* `Tiling P ord` — the blocks tile `P`; the one at `x` has order `ord x`.
* `Tiling.split`, `Tiling.merge`, `Tiling.add` — changes of the blocks.
* `xor_two_pow` — the buddy of a block.
* `Tiling.buddy` — the block at the begin of the buddy.
-/

namespace SadOS

/-- The blocks `ord` tile the set `P`. -/
structure Tiling (P : ℕ → Prop) (ord : ℕ → Option ℕ) : Prop where
  aligned : ∀ x k, ord x = some k → 2 ^ k ∣ x
  apart : ∀ x y k j, ord x = some k → ord y = some j → x ≠ y → x + 2 ^ k ≤ y ∨ y + 2 ^ j ≤ x
  covers : ∀ a, P a ↔ ∃ x k, ord x = some k ∧ x ≤ a ∧ a < x + 2 ^ k

/-- The buddy of an aligned block lies behind it or before it. -/
theorem xor_two_pow {x k : ℕ} (hx : 2 ^ k ∣ x) :
    (2 ^ (k + 1) ∣ x ∧ x ^^^ 2 ^ k = x + 2 ^ k) ∨
      (2 ^ (k + 1) ∣ x ^^^ 2 ^ k ∧ x = (x ^^^ 2 ^ k) + 2 ^ k) := by
  obtain ⟨n, rfl⟩ := hx
  have hxor : 2 ^ k * n ^^^ 2 ^ k = 2 ^ k * (n ^^^ 1) := by
    have h := Nat.shiftLeft_xor_distrib (a := n) (b := 1) (i := k)
    simp only [Nat.shiftLeft_eq, one_mul] at h
    rw [mul_comm _ n, ← h, mul_comm]
  rw [hxor, pow_succ]
  rcases Nat.even_or_odd n with hn | hn
  · left
    rw [Nat.xor_one_of_even hn]
    exact ⟨Nat.mul_dvd_mul_left _ hn.two_dvd, by ring⟩
  · right
    rw [Nat.xor_one_of_odd hn]
    obtain ⟨m, rfl⟩ := hn
    rw [Nat.add_sub_cancel]
    exact ⟨Nat.mul_dvd_mul_left _ (Nat.dvd_mul_right 2 m), by ring⟩

/-- Multiples of a number do not lie closer than it. -/
theorem add_le_of_dvd {n a b : ℕ} (ha : n ∣ a) (hb : n ∣ b) (h : a < b) : a + n ≤ b := by
  obtain ⟨c, rfl⟩ := ha
  obtain ⟨d, rfl⟩ := hb
  calc n * c + n = n * (c + 1) := (Nat.mul_succ n c).symm
    _ ≤ n * d := Nat.mul_le_mul_left n (Nat.lt_of_mul_lt_mul_left h)

theorem two_pow_pos (k : ℕ) : 0 < 2 ^ k := Nat.pow_pos (by decide)

namespace Tiling

variable {P : ℕ → Prop} {ord : ℕ → Option ℕ} {x y k j : ℕ}

/-- A block is cut in halves. -/
theorem split (h : Tiling P ord) (hx : ord x = some (k + 1)) :
    Tiling P (Function.update (Function.update ord x (some k)) (x + 2 ^ k) (some k)) := by
  have hpos := two_pow_pos k
  have hdvd : 2 ^ (k + 1) ∣ x := h.aligned x (k + 1) hx
  have htwo : 2 ^ (k + 1) = 2 ^ k + 2 ^ k := by ring
  -- the blocks of the new tiling
  have hcases : ∀ y j, Function.update (Function.update ord x (some k)) (x + 2 ^ k) (some k) y =
      some j ↔ (y = x + 2 ^ k ∧ j = k) ∨ (y = x ∧ j = k) ∨
        (y ≠ x ∧ y ≠ x + 2 ^ k ∧ ord y = some j) := by
    intro y j
    simp only [Function.update_apply]
    split_ifs with h₁ h₂
    · simp [h₁, eq_comm]
    · subst h₂
      simp [eq_comm]
    · simp [h₁, h₂]
  have hout : ∀ y j, y ≠ x → ord y = some j → x + 2 ^ (k + 1) ≤ y ∨ y + 2 ^ j ≤ x := fun y j hne hy =>
    h.apart x y (k + 1) j hx hy hne.symm
  refine ⟨fun y j hy => ?_, fun y z j i hy hz hne => ?_, fun a => ?_⟩
  · rcases (hcases y j).1 hy with ⟨rfl, rfl⟩ | ⟨rfl, rfl⟩ | ⟨-, -, hy⟩
    · exact (Nat.dvd_add_right ((Nat.pow_dvd_pow 2 (Nat.le_succ j)).trans hdvd)).2 dvd_rfl
    · exact (Nat.pow_dvd_pow 2 (Nat.le_succ j)).trans hdvd
    · exact h.aligned y j hy
  · have hpj := two_pow_pos j
    have hpi := two_pow_pos i
    rcases (hcases y j).1 hy with ⟨rfl, rfl⟩ | ⟨rfl, rfl⟩ | ⟨hyx, hyx', hy₀⟩ <;>
      rcases (hcases z i).1 hz with ⟨rfl, rfl⟩ | ⟨rfl, rfl⟩ | ⟨hzx, hzx', hz₀⟩
    · exact absurd rfl hne
    · omega
    · have := hout z i hzx hz₀
      omega
    · omega
    · exact absurd rfl hne
    · have := hout z i hzx hz₀
      omega
    · have := hout y j hyx hy₀
      omega
    · have := hout y j hyx hy₀
      omega
    · exact h.apart y z j i hy₀ hz₀ hne
  · rw [h.covers a]
    constructor
    · rintro ⟨y, j, hy, hlo, hhi⟩
      by_cases hyx : y = x
      · subst hyx
        rw [hx, Option.some.injEq] at hy
        subst hy
        rcases Nat.lt_or_ge a (y + 2 ^ k) with ha | ha
        · exact ⟨y, k, (hcases y k).2 (.inr (.inl ⟨rfl, rfl⟩)), hlo, ha⟩
        · exact ⟨y + 2 ^ k, k, (hcases _ k).2 (.inl ⟨rfl, rfl⟩), ha, by omega⟩
      · refine ⟨y, j, (hcases y j).2 (.inr (.inr ⟨hyx, ?_, hy⟩)), hlo, hhi⟩
        have := hout y j hyx hy
        have hpj := two_pow_pos j
        omega
    · rintro ⟨y, j, hy, hlo, hhi⟩
      rcases (hcases y j).1 hy with ⟨rfl, rfl⟩ | ⟨rfl, rfl⟩ | ⟨-, -, hy⟩
      · exact ⟨x, j + 1, hx, by omega, by omega⟩
      · exact ⟨y, j + 1, hx, by omega, by omega⟩
      · exact ⟨y, j, hy, hlo, hhi⟩

/-- Two halves become one block. -/
theorem merge (h : Tiling P ord) (hx : ord x = some k) (hx' : ord (x + 2 ^ k) = some k)
    (hdvd : 2 ^ (k + 1) ∣ x) :
    Tiling P (Function.update (Function.update ord (x + 2 ^ k) none) x (some (k + 1))) := by
  have hpos := two_pow_pos k
  have htwo : 2 ^ (k + 1) = 2 ^ k + 2 ^ k := by ring
  have hcases : ∀ y j, Function.update (Function.update ord (x + 2 ^ k) none) x (some (k + 1)) y =
      some j ↔ (y = x ∧ j = k + 1) ∨ (y ≠ x ∧ y ≠ x + 2 ^ k ∧ ord y = some j) := by
    intro y j
    simp only [Function.update_apply]
    split_ifs with h₁ h₂
    · simp [h₁, eq_comm]
    · simp [h₂]
    · simp [h₁, h₂]
  have hout : ∀ y j, y ≠ x → y ≠ x + 2 ^ k → ord y = some j →
      x + 2 ^ (k + 1) ≤ y ∨ y + 2 ^ j ≤ x := by
    intro y j hyx hyx' hy
    have h₁ := h.apart x y k j hx hy hyx.symm
    have h₂ := h.apart (x + 2 ^ k) y k j hx' hy hyx'.symm
    have hpj := two_pow_pos j
    omega
  refine ⟨fun y j hy => ?_, fun y z j i hy hz hne => ?_, fun a => ?_⟩
  · rcases (hcases y j).1 hy with ⟨rfl, rfl⟩ | ⟨-, -, hy⟩
    · exact hdvd
    · exact h.aligned y j hy
  · rcases (hcases y j).1 hy with ⟨rfl, rfl⟩ | ⟨hyx, hyx', hy₀⟩ <;>
      rcases (hcases z i).1 hz with ⟨rfl, rfl⟩ | ⟨hzx, hzx', hz₀⟩
    · exact absurd rfl hne
    · exact hout z i hzx hzx' hz₀
    · exact (hout y j hyx hyx' hy₀).symm
    · exact h.apart y z j i hy₀ hz₀ hne
  · rw [h.covers a]
    constructor
    · rintro ⟨y, j, hy, hlo, hhi⟩
      by_cases hyx : y = x
      · subst hyx
        rw [hx, Option.some.injEq] at hy
        subst hy
        exact ⟨y, k + 1, (hcases y _).2 (.inl ⟨rfl, rfl⟩), hlo, by omega⟩
      · by_cases hyx' : y = x + 2 ^ k
        · rw [hyx', hx', Option.some.injEq] at hy
          subst hy
          exact ⟨x, k + 1, (hcases x _).2 (.inl ⟨rfl, rfl⟩), by omega, by omega⟩
        · exact ⟨y, j, (hcases y j).2 (.inr ⟨hyx, hyx', hy⟩), hlo, hhi⟩
    · rintro ⟨y, j, hy, hlo, hhi⟩
      rcases (hcases y j).1 hy with ⟨rfl, rfl⟩ | ⟨-, -, hy⟩
      · rcases Nat.lt_or_ge a (y + 2 ^ k) with ha | ha
        · exact ⟨y, k, hx, hlo, ha⟩
        · exact ⟨y + 2 ^ k, k, hx', ha, by omega⟩
      · exact ⟨y, j, hy, hlo, hhi⟩

/-- A block outside the set is added to it. -/
theorem add (h : Tiling P ord) (hdvd : 2 ^ k ∣ x)
    (hfresh : ∀ a, x ≤ a → a < x + 2 ^ k → ¬P a) :
    Tiling (fun a => (x ≤ a ∧ a < x + 2 ^ k) ∨ P a) (Function.update ord x (some k)) := by
  have hpos := two_pow_pos k
  have hout : ∀ y j, ord y = some j → x + 2 ^ k ≤ y ∨ y + 2 ^ j ≤ x := by
    intro y j hy
    have hpj := two_pow_pos j
    by_contra hne
    rcases Nat.lt_or_ge y x with hlt | hge
    · exact hfresh x (le_refl x) (by omega) ((h.covers x).2 ⟨y, j, hy, by omega, by omega⟩)
    · exact hfresh y hge (by omega) ((h.covers y).2 ⟨y, j, hy, le_refl y, by omega⟩)
  have hnone : ord x = none := by
    rw [Option.eq_none_iff_forall_ne_some]
    intro j hj
    have := hout x j hj
    have hpj := two_pow_pos j
    omega
  have hcases : ∀ y j, Function.update ord x (some k) y = some j ↔
      (y = x ∧ j = k) ∨ ord y = some j := by
    intro y j
    rw [Function.update_apply]
    split_ifs with hyx
    · subst hyx
      simp [hnone, eq_comm]
    · simp [hyx]
  refine ⟨fun y j hy => ?_, fun y z j i hy hz hne => ?_, fun a => ?_⟩
  · rcases (hcases y j).1 hy with ⟨rfl, rfl⟩ | hy
    · exact hdvd
    · exact h.aligned y j hy
  · rcases (hcases y j).1 hy with ⟨rfl, rfl⟩ | hy₀ <;>
      rcases (hcases z i).1 hz with ⟨rfl, rfl⟩ | hz₀
    · exact absurd rfl hne
    · exact hout z i hz₀
    · exact (hout y j hy₀).symm
    · exact h.apart y z j i hy₀ hz₀ hne
  · rw [h.covers a]
    constructor
    · rintro (⟨hlo, hhi⟩ | ⟨y, j, hy, hlo, hhi⟩)
      · exact ⟨x, k, (hcases x k).2 (.inl ⟨rfl, rfl⟩), hlo, hhi⟩
      · exact ⟨y, j, (hcases y j).2 (.inr hy), hlo, hhi⟩
    · rintro ⟨y, j, hy, hlo, hhi⟩
      rcases (hcases y j).1 hy with ⟨rfl, rfl⟩ | hy
      · exact .inl ⟨hlo, hhi⟩
      · exact .inr ⟨y, j, hy, hlo, hhi⟩

/-- Where the buddy of a block begins, a block begins, and it is no larger. -/
theorem buddy (h : Tiling P ord) (hx : ord x = some k) (hP : P (x ^^^ 2 ^ k)) :
    ∃ j ≤ k, ord (x ^^^ 2 ^ k) = some j := by
  have hpos := two_pow_pos k
  have htwo : 2 ^ (k + 1) = 2 ^ k + 2 ^ k := by ring
  obtain ⟨z, j, hz, hlo, hhi⟩ := (h.covers _).1 hP
  have hzdvd := h.aligned z j hz
  have hpj := two_pow_pos j
  rcases xor_two_pow (h.aligned x k hx) with ⟨hdvd, hbud⟩ | ⟨hdvd, hbud⟩
  · rw [hbud] at hlo hhi ⊢
    have hzx : x ≠ z := by
      rintro rfl
      rw [hx, Option.some.injEq] at hz
      subst hz
      omega
    have hapart := h.apart x z k j hx hz hzx
    have hzeq : z = x + 2 ^ k := by omega
    subst hzeq
    refine ⟨j, ?_, hz⟩
    by_contra hjk
    have hdvd' : 2 ^ (k + 1) ∣ x + 2 ^ k := (Nat.pow_dvd_pow 2 (by omega)).trans hzdvd
    have := Nat.le_of_dvd hpos ((Nat.dvd_add_right hdvd).1 hdvd')
    omega
  · obtain ⟨y, hy⟩ : ∃ y, y = x ^^^ 2 ^ k := ⟨_, rfl⟩
    rw [← hy] at hlo hhi hdvd hbud ⊢
    have hzx : x ≠ z := by omega
    have hapart := h.apart x z k j hx hz hzx
    have hjk : j ≤ k := by
      by_contra hjk
      have hz' : 2 ^ (k + 1) ∣ z + 2 ^ j :=
        (Nat.dvd_add_right ((Nat.pow_dvd_pow 2 (by omega)).trans hzdvd)).2
          (Nat.pow_dvd_pow 2 (by omega))
      have := add_le_of_dvd hdvd hz' hhi
      omega
    refine ⟨j, hjk, ?_⟩
    have hy' : 2 ^ j ∣ y := (Nat.pow_dvd_pow 2 (by omega)).trans hdvd
    rcases Nat.lt_or_ge z y with hlt | hge
    · have := add_le_of_dvd hzdvd hy' hlt
      omega
    · rw [show y = z by omega]
      exact hz

end Tiling

end SadOS
