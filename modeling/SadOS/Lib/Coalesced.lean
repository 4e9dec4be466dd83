import SadOS.Lib.Dyadic

/-!
# Coalesced blocks

A set of free blocks is coalesced if no block is free together with its buddy.  `F k x` says that
the block of order `k` at `x` is free.  A block that is cut in halves and handed out leaves the
rest coalesced; a block that comes back keeps it so if its buddy is not free, and two buddies that
become one if the buddy of the result is not free.

## Main definitions

* `Coalesced` — no block up to an order is free together with its buddy.
* `CoalescedBut` — no other block than one.

## Main results

* `CoalescedBut.split`, `CoalescedBut.take` — halves of a block, one of which goes.
* `Coalesced.insert`, `Coalesced.merge` — a block comes back.
* `Coalesced.lt_order` — all of a tiling is free.
-/

namespace SadOS

theorem xor_two_pow_ne (x k : ℕ) : x ^^^ 2 ^ k ≠ x := by
  intro h
  have hzero : 2 ^ k = 0 := by rw [← Nat.xor_xor_cancel_left x (2 ^ k), h, Nat.xor_self]
  exact (two_pow_pos k).ne' hzero

/-- No block of an order up to `top` is free together with its buddy. -/
def Coalesced (top : ℕ) (F : ℕ → ℕ → Prop) : Prop :=
  ∀ k ≤ top, ∀ x, F k x → ¬F k (x ^^^ 2 ^ k)

/-- No block but the one of order `o` at `z` is free together with its buddy. -/
def CoalescedBut (top o z : ℕ) (F : ℕ → ℕ → Prop) : Prop :=
  ∀ k ≤ top, ∀ x, F k x → F k (x ^^^ 2 ^ k) → k = o ∧ (x = z ∨ x ^^^ 2 ^ k = z)

variable {top o k x z : ℕ} {F F' : ℕ → ℕ → Prop} {P : ℕ → Prop} {ord : ℕ → Option ℕ}

namespace Coalesced

theorem but (h : Coalesced top F) (o z : ℕ) : CoalescedBut top o z F :=
  fun k hk x hx hb => absurd hb (h k hk x hx)

/-- Fewer free blocks. -/
theorem mono (h : Coalesced top F) (hsub : ∀ k x, F' k x → F k x) : Coalesced top F' :=
  fun k hk x hx hb => h k hk x (hsub k x hx) (hsub k _ hb)

/-- One more block. -/
theorem insert_but (h : Coalesced top F) (hF : ∀ j y, F' j y ↔ (y = x ∧ j = k) ∨ F j y) :
    CoalescedBut top k x F' := by
  intro j hj y hy hb
  rcases (hF j y).1 hy with ⟨rfl, rfl⟩ | hy
  · exact ⟨rfl, .inl rfl⟩
  · rcases (hF j _).1 hb with ⟨rfl, rfl⟩ | hb
    · exact ⟨rfl, .inr rfl⟩
    · exact absurd hb (h j hj y hy)

/-- One more block, whose buddy is not free. -/
theorem insert (h : Coalesced top F) (hbud : k ≤ top → ¬F k (x ^^^ 2 ^ k))
    (hF : ∀ j y, F' j y ↔ (y = x ∧ j = k) ∨ F j y) : Coalesced top F' := by
  intro j hj y hy hb
  obtain ⟨rfl, hcases⟩ := h.insert_but hF j hj y hy hb
  have hne := xor_two_pow_ne y j
  rcases hcases with rfl | hyx
  · rcases (hF j _).1 hb with ⟨heq, -⟩ | hb
    · exact hne heq
    · exact hbud hj hb
  · rcases (hF j y).1 hy with ⟨heq, -⟩ | hy
    · exact hne (hyx.trans heq.symm)
    · rw [← hyx, Nat.xor_xor_cancel_right] at hbud
      exact hbud hj hy

/-- A free block goes into one of the next order. -/
theorem merge (h : Coalesced top F) (hbud : k + 1 ≤ top → ¬F (k + 1) (x ^^^ 2 ^ (k + 1)))
    (hF : ∀ j y, F' j y ↔ (y = x ∧ j = k + 1) ∨ (y ≠ z ∧ F j y)) : Coalesced top F' :=
  (h.mono fun _ _ hy => hy.2).insert (fun hk hb => hbud hk hb.2) hF

end Coalesced

namespace CoalescedBut

/-- The block goes. -/
theorem take (h : CoalescedBut top o z F) (hF : ∀ j y, F' j y ↔ y ≠ z ∧ F j y) :
    Coalesced top F' := by
  intro j hj y hy hb
  obtain ⟨hyz, hy⟩ := (hF j y).1 hy
  obtain ⟨hbz, hb⟩ := (hF j _).1 hb
  rcases (h j hj y hy hb).2 with heq | heq
  · exact hyz heq
  · exact hbz heq

/-- The block is cut in halves. -/
theorem split (h : CoalescedBut top (k + 1) z F) (hz : 2 ^ (k + 1) ∣ z)
    (hF : ∀ j y, F' j y ↔ ((y = z ∨ y = z + 2 ^ k) ∧ j = k) ∨ (y ≠ z ∧ F j y)) :
    CoalescedBut top k z F' := by
  have hhalf : z ^^^ 2 ^ k = z + 2 ^ k := by
    rcases xor_two_pow ((Nat.pow_dvd_pow 2 (Nat.le_succ k)).trans hz) with ⟨-, heq⟩ | ⟨hdvd, heq⟩
    · exact heq
    · have hpos := two_pow_pos k
      have hle := add_le_of_dvd hdvd hz (by omega)
      rw [pow_succ] at hle
      omega
  intro j hj y hy hb
  rcases (hF j y).1 hy with ⟨rfl | rfl, rfl⟩ | ⟨hyz, hy⟩
  · exact ⟨rfl, .inl rfl⟩
  · refine ⟨rfl, .inr ?_⟩
    rw [← hhalf, Nat.xor_xor_cancel_right]
  · rcases (hF j _).1 hb with ⟨heq | heq, rfl⟩ | ⟨hbz, hb⟩
    · exact ⟨rfl, .inr heq⟩
    · -- the buddy of the second half is the first one
      have hyz' : y = z := by rw [← Nat.xor_xor_cancel_right y (2 ^ j), heq, ← hhalf,
        Nat.xor_xor_cancel_right]
      exact absurd hyz' hyz
    · rcases (h j hj y hy hb).2 with heq | heq
      · exact absurd heq hyz
      · exact absurd heq hbz

end CoalescedBut

/-- If all blocks are free and the buddies are in the set, then the blocks are large. -/
theorem Coalesced.lt_order (h : Coalesced top F) (ht : Tiling P ord)
    (hF : ∀ x k, ord x = some k → F k x)
    (hP : ∀ x k, ord x = some k → k ≤ top → P (x ^^^ 2 ^ k)) (hx : ord x = some k) : top < k := by
  induction k using Nat.strongRecOn generalizing x with
  | ind k ih =>
    by_contra hk
    obtain ⟨j, hjk, hj⟩ := ht.buddy hx (hP x k hx (by omega))
    rcases Nat.lt_or_eq_of_le hjk with hlt | rfl
    · have := ih j hlt hj
      omega
    · exact h j (by omega) x (hF x j hx) (hF _ j hj)

end SadOS
