import Mathlib.Data.Finset.Insert
import Mathlib.Data.Finset.Erase
import SadOS.Kernel.Step

/-!
# Sets of descriptors

`struct fd_set` of `include/uapi/port.h` against finite sets of numbers.  The masks are
`int`s: `1 << 40` is `1 << 8`, and `1 << 31` has all the bits from 31 to 63.  So a word
holds its bits 31 to 63 all at once, some of them at numbers beyond `nfds`, where nobody
sees them until `nfds` grows.

## Main definitions

* `FdOp`, `FdSet.apply`, `FdOp.on` — the operations, on the words and on sets.
* `FdSet.Agrees` — the words stand for the set.
* `FdSet.Harmless` — an operation whose mask changes no other descriptor.

## Main results

* `FdSet.Packed.isEmpty_iff` — `fd_set_empty` asks whether no descriptor is set.
* `FdSet.apply_agrees_iff` — one operation.
* `fdSet_iff` — which sequences of operations keep the agreement.
* `fdSet_fails` — `fd_set_set(32)`.
-/

namespace SadOS.Kernel

/-- `fd_set_set` and `fd_clear`. -/
inductive FdOp
  | set (fd : ℕ)
  | clear (fd : ℕ)
  deriving DecidableEq, Repr

namespace FdOp

def fd : FdOp → ℕ
  | set fd => fd
  | clear fd => fd

/-- What the operation means. -/
def on (A : Finset ℕ) : FdOp → Finset ℕ
  | set fd => insert fd A
  | clear fd => A.erase fd

end FdOp

namespace FdSet

/-- `fd_set_set`. -/
def set (fds : FdSet) (fd : ℕ) : FdSet :=
  if 512 ≤ fd then fds
  else
    { bitmask := Function.update fds.bitmask (fd / 64) (fds.bitmask (fd / 64) ||| bit fd)
      nfds := if fds.nfds ≤ fd then fd + 1 else fds.nfds }

/-- `fd_is_set` for any `int`. -/
def isSetInt (fds : FdSet) (k : ℤ) : Bool := 0 ≤ k && fds.isSet k.toNat

def apply (fds : FdSet) : FdOp → FdSet
  | .set fd => fds.set fd
  | .clear fd => fds.clear fd

/-- The words stand for the set. -/
def Agrees (fds : FdSet) (A : Finset ℕ) : Prop :=
  (∀ k, fds.isSetInt k = true ↔ ∃ n ∈ A, (n : ℤ) = k) ∧ (fds.isEmpty = true ↔ A = ∅)

/-- The bit of a descriptor, whether `nfds` is above it or not. -/
def Stored (fds : FdSet) (k : ℕ) : Prop := (fds.bitmask (k / 64)).testBit (k % 64) = true

/-- The mask that the processor computes for `fd` has the bit of `k`. -/
def Hits (fd k : ℕ) : Prop := k / 64 = fd / 64 ∧ (bit fd).testBit (k % 64) = true

/-- The mask changes the bit of its own descriptor, if a change is needed, and of no other
below `nfds`; and `nfds` does not grow over bits that are there already. -/
def Harmless (fds : FdSet) : FdOp → Prop
  | .set fd =>
    (Hits fd fd ∨ fds.Stored fd) ∧
    (∀ k : ℕ, (k < fds.nfds ∨ k < fd) → k ≠ fd → Hits fd k → fds.isSet k = true) ∧
    ∀ k : ℕ, fds.nfds ≤ k → k < fd → ¬fds.Stored k
  | .clear fd =>
    (fd : ℤ) < fds.nfds →
      (Hits fd fd ∨ fds.nfds = fd + 1 ∨ fds.isSet fd = false) ∧
      ∀ k : ℕ, k ≠ fd → fds.isSet k = true → ¬Hits fd k

/-! ## Masks -/

theorem testBit_bit (fd : ℕ) {k : ℕ} (hk : k < 64) :
    (bit fd).testBit k = true ↔ k = fd % 32 ∨ fd % 32 = 31 ∧ 31 ≤ k := by
  unfold bit
  split
  · rename_i h
    have hmask : ∀ k < 64, (2 ^ 64 - 2 ^ 31).testBit k = decide (31 ≤ k) := by decide
    rw [hmask k hk, decide_eq_true_eq]
    omega
  · rename_i h
    rw [Nat.testBit_two_pow, decide_eq_true_eq]
    omega

theorem bit_lt (fd : ℕ) : bit fd < 2 ^ 64 := by
  unfold bit
  split
  · decide
  · exact Nat.pow_lt_pow_right (by decide) (by omega)

theorem hits_iff (fd k : ℕ) :
    Hits fd k ↔ k / 64 = fd / 64 ∧ (k % 64 = fd % 32 ∨ fd % 32 = 31 ∧ 31 ≤ k % 64) := by
  rw [Hits, testBit_bit fd (Nat.mod_lt k (by decide))]

theorem isSet_iff (fds : FdSet) (k : ℕ) :
    fds.isSet k = true ↔ (k : ℤ) < fds.nfds ∧ fds.Stored k := by
  simp [isSet, Stored]

/-! ## What the operations store -/

section Store

variable (fds : FdSet) {fd : ℕ}

theorem nfds_set (h : fd < 512) :
    (fds.set fd).nfds = if fds.nfds ≤ fd then (fd : ℤ) + 1 else fds.nfds := by
  rw [set, if_neg (by omega)]

theorem stored_set (h : fd < 512) (k : ℕ) : (fds.set fd).Stored k ↔ fds.Stored k ∨ Hits fd k := by
  rw [set, if_neg (by omega), Stored, Stored, Hits]
  dsimp only
  by_cases hk : k / 64 = fd / 64
  · rw [hk, Function.update_self, Nat.testBit_or, Bool.or_eq_true]
    simp
  · rw [Function.update_of_ne hk]
    simp [hk]

theorem clear_of_le (h : fds.nfds ≤ fd) : fds.clear fd = fds := by rw [clear, if_pos h]

theorem nfds_clear (h : (fd : ℤ) < fds.nfds) :
    (fds.clear fd).nfds = if (fd : ℤ) = fds.nfds - 1 then fds.nfds - 1 else fds.nfds := by
  rw [clear, if_neg (by omega)]

theorem stored_clear (h : (fd : ℤ) < fds.nfds) (k : ℕ) :
    (fds.clear fd).Stored k ↔ fds.Stored k ∧ ¬Hits fd k := by
  rw [clear, if_neg (by omega), Stored, Stored, Hits]
  dsimp only
  by_cases hk : k / 64 = fd / 64
  · have hmask : 2 ^ 64 - 1 - bit fd = 2 ^ 64 - (bit fd + 1) := by omega
    rw [hk, Function.update_self, Nat.testBit_and, hmask, Nat.testBit_two_pow_sub_succ (bit_lt fd)]
    have : k % 64 < 64 := Nat.mod_lt k (by decide)
    simp [this]
  · rw [Function.update_of_ne hk]
    simp [hk]

end Store

/-! ## Bits beyond `nfds` -/

/-- The bits 31 to 63 of a word are the same, and the lowest bit of those, or the only bit,
belongs to a descriptor below `nfds`. -/
structure Packed (fds : FdSet) : Prop where
  nonneg : 0 ≤ fds.nfds
  le : fds.nfds ≤ 512
  word : ∀ i j, (fds.bitmask i).testBit j = true → j < 64
  first : ∀ k, fds.Stored k → ((64 * (k / 64) + min (k % 64) 31 : ℕ) : ℤ) < fds.nfds
  high : ∀ k, fds.Stored k → 31 ≤ k % 64 → fds.Stored (64 * (k / 64) + 31)

theorem packed_zero : Packed zero :=
  ⟨by simp [zero], by simp [zero], by simp [zero], by simp [zero, Stored], by simp [zero, Stored]⟩

namespace Packed

variable {fds : FdSet}

theorem set (h : Packed fds) {fd : ℕ} (hfd : fd < 512) : Packed (fds.set fd) := by
  have hn := nfds_set fds hfd
  have hge : fds.nfds ≤ (fds.set fd).nfds ∧ (fd : ℤ) < (fds.set fd).nfds := by
    rw [hn]
    split <;> omega
  refine ⟨by have := h.nonneg; omega, ?_, ?_, ?_, ?_⟩
  · have := h.le
    rw [hn]
    split <;> omega
  · intro i j hij
    rw [FdSet.set, if_neg (by omega)] at hij
    dsimp only at hij
    by_cases hi : i = fd / 64
    · rw [hi, Function.update_self, Nat.testBit_or, Bool.or_eq_true] at hij
      rcases hij with hij | hij
      · exact h.word _ j hij
      · by_contra hj
        have := Nat.testBit_lt_two_pow (lt_of_lt_of_le (bit_lt fd)
          (Nat.pow_le_pow_right (by decide) (by omega : 64 ≤ j)))
        rw [this] at hij
        cases hij
    · rw [Function.update_of_ne hi] at hij
      exact h.word i j hij
  · intro k hk
    rcases (stored_set fds hfd k).1 hk with hk | hk
    · have := h.first k hk
      omega
    · -- a mask has no bit above that of its descriptor but those from 31 on
      have := (hits_iff fd k).1 hk
      omega
  · intro k hk hhigh
    rw [stored_set fds hfd] at hk ⊢
    rcases hk with hk | hk
    · exact .inl (h.high k hk hhigh)
    · rw [hits_iff] at hk ⊢
      exact .inr (by omega)

theorem clear (h : Packed fds) (fd : ℕ) : Packed (fds.clear fd) := by
  by_cases hfd : fds.nfds ≤ fd
  · rwa [clear_of_le fds hfd]
  rw [not_le] at hfd
  have hn := nfds_clear fds hfd
  have hle : (fds.clear fd).nfds ≤ fds.nfds := by
    rw [hn]
    split <;> omega
  refine ⟨?_, hle.trans h.le, ?_, ?_, ?_⟩
  · have := h.nonneg
    rw [hn]
    split <;> omega
  · intro i j hij
    rw [FdSet.clear, if_neg (by omega)] at hij
    dsimp only at hij
    by_cases hi : i = fd / 64
    · rw [hi, Function.update_self, Nat.testBit_and, Bool.and_eq_true] at hij
      exact h.word _ j hij.1
    · rw [Function.update_of_ne hi] at hij
      exact h.word i j hij
  · intro k hk
    rw [stored_clear fds hfd] at hk
    have hfirst := h.first k hk.1
    rw [hn]
    split
    · -- the last descriptor was the one that the bit needs: then its mask has the bit
      rename_i hlast
      by_contra hnot
      refine hk.2 ((hits_iff fd k).2 ?_)
      omega
    · exact hfirst
  · intro k hk hhigh
    rw [stored_clear fds hfd] at hk ⊢
    refine ⟨h.high k hk.1 hhigh, fun hhits => hk.2 ?_⟩
    rw [hits_iff] at hhits ⊢
    omega

theorem apply (h : Packed fds) {op : FdOp} (hop : op.fd < 512) : Packed (fds.apply op) := by
  cases op with
  | set fd => exact h.set hop
  | clear fd => exact h.clear fd

/-- `fd_set_empty` looks at whole words, but a word with a bit has a bit below `nfds`. -/
theorem isEmpty_iff (h : Packed fds) : fds.isEmpty = true ↔ ∀ k, fds.isSet k = false := by
  have hempty : fds.isEmpty = true ↔
      ∀ i : ℕ, i < 8 → (64 * i : ℤ) < fds.nfds → fds.bitmask i = 0 := by
    simp only [isEmpty, List.all_eq_true, List.mem_range, Bool.or_eq_true, decide_eq_true_eq,
      beq_iff_eq]
    constructor
    · intro hall i hi hlt
      rcases hall i hi with hle | hzero
      · omega
      · exact hzero
    · intro hall i hi
      by_cases hlt : (64 * i : ℤ) < fds.nfds
      · exact .inr (hall i hi hlt)
      · exact .inl (by omega)
  rw [hempty]
  constructor
  · intro hall k
    rw [Bool.eq_false_iff, Ne, isSet_iff]
    rintro ⟨hlt, hk⟩
    have hle := h.le
    have hzero := hall (k / 64) (by omega) (by omega)
    rw [Stored, hzero, Nat.zero_testBit] at hk
    cases hk
  · intro hall i hi hlt
    by_contra hne
    obtain ⟨j, hj⟩ := Nat.exists_testBit_of_ne_zero hne
    have hj64 := h.word i j hj
    have hstored : fds.Stored (64 * i + j) := by
      rw [Stored]
      rwa [show (64 * i + j) / 64 = i by omega, show (64 * i + j) % 64 = j by omega]
    have hfirst := h.first _ hstored
    -- the bit itself, or bit 31 of its word
    obtain ⟨k, hk, hkn⟩ : ∃ k : ℕ, fds.Stored k ∧ (k : ℤ) < fds.nfds := by
      by_cases hlow : j < 31
      · exact ⟨64 * i + j, hstored, by omega⟩
      · exact ⟨_, h.high _ hstored (by omega), by omega⟩
    have := (isSet_iff fds k).2 ⟨hkn, hk⟩
    rw [hall k] at this
    cases this

end Packed

/-- The agreement is about `fd_is_set`. -/
theorem Packed.agrees_iff {fds : FdSet} (h : Packed fds) (A : Finset ℕ) :
    fds.Agrees A ↔ ∀ k, fds.isSet k = true ↔ k ∈ A := by
  have hnat : ∀ k : ℕ, fds.isSetInt k = fds.isSet k := by
    intro k
    simp [isSetInt]
  have hint : (∀ k, fds.isSetInt k = true ↔ ∃ n ∈ A, (n : ℤ) = k) ↔
      ∀ k, fds.isSet k = true ↔ k ∈ A := by
    constructor
    · intro hk k
      rw [← hnat, hk k]
      simp only [Int.natCast_inj, exists_eq_right]
    · intro hk k
      by_cases hneg : 0 ≤ k
      · lift k to ℕ using hneg
        rw [hnat, hk k]
        simp only [Int.natCast_inj, exists_eq_right]
      · have hout : fds.isSetInt k = false := by simp [isSetInt, hneg]
        rw [hout]
        simp only [Bool.false_eq_true, false_iff]
        rintro ⟨n, -, rfl⟩
        exact hneg (Int.natCast_nonneg n)
  rw [Agrees, hint]
  refine ⟨And.left, fun hA => ⟨hA, ?_⟩⟩
  rw [h.isEmpty_iff, Finset.eq_empty_iff_forall_notMem]
  refine forall_congr' fun k => ?_
  rw [← hA k, Bool.not_eq_true]

/-! ## One operation -/

variable {fds : FdSet} {A : Finset ℕ} {fd : ℕ}

theorem set_isSet_iff (hA : ∀ k, fds.isSet k = true ↔ k ∈ A) (hfd : fd < 512) :
    (∀ k, (fds.set fd).isSet k = true ↔ k ∈ insert fd A) ↔ fds.Harmless (.set fd) := by
  have hn := nfds_set fds hfd
  have hmem : ∀ k, ((fds.set fd).isSet k = true ↔ k ∈ insert fd A) ↔
      ((k : ℤ) < (fds.set fd).nfds ∧ (fds.Stored k ∨ Hits fd k) ↔
        k = fd ∨ (k : ℤ) < fds.nfds ∧ fds.Stored k) := by
    intro k
    rw [isSet_iff, stored_set fds hfd, Finset.mem_insert, ← hA k, isSet_iff]
  rw [forall_congr' hmem]
  simp only [Harmless, isSet_iff]
  constructor
  · intro hall
    refine ⟨?_, ?_, ?_⟩
    · exact ((hall fd).2 (.inl rfl)).2.symm
    · intro k hk hne hhits
      refine ((hall k).1 ⟨?_, .inr hhits⟩).resolve_left hne
      rw [hn]
      split <;> omega
    · intro k hle hlt hstored
      have := (hall k).1 ⟨by rw [hn, if_pos (by omega)]; omega, .inl hstored⟩
      omega
  · rintro ⟨hself, hother, hhidden⟩ k
    by_cases hk : k = fd
    · subst hk
      simp only [true_or, iff_true]
      exact ⟨by rw [hn]; split <;> omega, hself.symm⟩
    constructor
    · rintro ⟨hlt, hbit⟩
      have hlt : (k : ℤ) < fds.nfds ∨ k < fd := by
        rw [hn] at hlt
        split at hlt <;> omega
      rcases hbit with hbit | hbit
      · refine .inr ⟨?_, hbit⟩
        by_contra hge
        exact hhidden k (by omega) (by omega) hbit
      · exact .inr (hother k hlt hk hbit)
    · rintro (rfl | ⟨hlt, hbit⟩)
      · exact absurd rfl hk
      · exact ⟨by rw [hn]; split <;> omega, .inl hbit⟩

theorem clear_isSet_iff (hA : ∀ k, fds.isSet k = true ↔ k ∈ A) :
    (∀ k, (fds.clear fd).isSet k = true ↔ k ∈ A.erase fd) ↔ fds.Harmless (.clear fd) := by
  by_cases hfd : fds.nfds ≤ fd
  · -- nothing happens, and the number is not in the set
    have hnot : fd ∉ A := by
      rw [← hA fd, isSet_iff]
      omega
    rw [clear_of_le fds hfd, Finset.erase_eq_of_notMem hnot]
    exact ⟨fun _ hlt => absurd hlt (by omega), fun _ => hA⟩
  rw [not_le] at hfd
  have hn := nfds_clear fds hfd
  have hmem : ∀ k, ((fds.clear fd).isSet k = true ↔ k ∈ A.erase fd) ↔
      ((k : ℤ) < (fds.clear fd).nfds ∧ fds.Stored k ∧ ¬Hits fd k ↔
        k ≠ fd ∧ (k : ℤ) < fds.nfds ∧ fds.Stored k) := by
    intro k
    rw [isSet_iff, stored_clear fds hfd, Finset.mem_erase, ← hA k, isSet_iff]
  rw [forall_congr' hmem]
  simp only [Harmless, Bool.eq_false_iff, Ne, isSet_iff]
  constructor
  · intro hall _
    constructor
    · by_contra hnot
      simp only [not_or, not_not] at hnot
      obtain ⟨hhits, hlast, hstored⟩ := hnot
      have := (hall fd).1 ⟨by rw [hn, if_neg (by omega)]; exact hfd, hstored.2, hhits⟩
      exact this.1 rfl
    · rintro k hne ⟨hlt, hbit⟩
      exact ((hall k).2 ⟨hne, hlt, hbit⟩).2.2
  · intro hok k
    obtain ⟨hself, hother⟩ := hok hfd
    constructor
    · rintro ⟨hlt, hbit, hhits⟩
      refine ⟨?_, ?_, hbit⟩
      · rintro rfl
        rcases hself with h₁ | h₁ | h₁
        · exact hhits h₁
        · rw [hn, if_pos (by omega)] at hlt
          omega
        · exact h₁ ⟨hfd, hbit⟩
      · rw [hn] at hlt
        split at hlt <;> omega
    · rintro ⟨hne, hlt, hbit⟩
      refine ⟨?_, hbit, hother k hne ⟨hlt, hbit⟩⟩
      rw [hn]
      split <;> omega

/-- From words that stand for a set, exactly the harmless operations lead to words that
stand for the next one. -/
theorem apply_agrees_iff (h : Packed fds) (hA : fds.Agrees A) {op : FdOp} (hop : op.fd < 512) :
    (fds.apply op).Agrees (op.on A) ↔ fds.Harmless op := by
  rw [h.agrees_iff] at hA
  rw [(h.apply hop).agrees_iff]
  cases op with
  | set fd => exact set_isSet_iff hA hop
  | clear fd => exact clear_isSet_iff hA

end FdSet

/-! ## Sequences of operations -/

/-- The words after a sequence of operations. -/
def fdSetRun (ops : List FdOp) : FdSet := ops.foldl FdSet.apply FdSet.zero

/-- The set after the same sequence. -/
def fdSetOf (ops : List FdOp) : Finset ℕ := ops.foldl FdOp.on ∅

theorem packed_run {ops : List FdOp} (h : ∀ op ∈ ops, op.fd < 512) : (fdSetRun ops).Packed := by
  induction ops using List.reverseRecOn with
  | nil => exact FdSet.packed_zero
  | append_singleton ops op ih =>
    rw [fdSetRun, List.foldl_append, List.foldl_cons, List.foldl_nil]
    exact (ih fun op' hop' => h op' (List.mem_append_left _ hop')).apply (h op (by simp))

/-- **`struct fd_set` is a set** all along a sequence of operations exactly if every one of
them is harmless where it is called. -/
theorem fdSet_iff (ops : List FdOp) (hops : ∀ op ∈ ops, op.fd < 512) :
    (∀ l, l <+: ops → (fdSetRun l).Agrees (fdSetOf l)) ↔
      ∀ l op, l ++ [op] <+: ops → (fdSetRun l).Harmless op := by
  have hstep : ∀ l op, l ++ [op] <+: ops → (fdSetRun l).Agrees (fdSetOf l) →
      ((fdSetRun (l ++ [op])).Agrees (fdSetOf (l ++ [op])) ↔ (fdSetRun l).Harmless op) := by
    intro l op hl hA
    have hmem : ∀ op' ∈ l ++ [op], op'.fd < 512 := fun op' hop' => hops op' (hl.subset hop')
    have hpacked : (fdSetRun l).Packed := packed_run fun op' hop' => hmem op' (by simp [hop'])
    have := FdSet.apply_agrees_iff hpacked hA (hmem op (by simp))
    simpa only [fdSetRun, fdSetOf, List.foldl_append, List.foldl_cons, List.foldl_nil] using this
  constructor
  · intro hall l op hl
    exact (hstep l op hl (hall l ((List.prefix_append l [op]).trans hl))).1 (hall _ hl)
  · intro hall l hl
    induction l using List.reverseRecOn with
    | nil =>
      refine (FdSet.packed_zero.agrees_iff ∅).2 fun k => ?_
      simp [FdSet.isSet, FdSet.zero]
    | append_singleton l op ih =>
      have hA := ih ((List.prefix_append l [op]).trans hl)
      exact (hstep l op hl hA).2 (hall l op hl)

/-- Masks of the lowest 31 bits are right, and nothing else is stored then. -/
theorem harmless_of_low {ops : List FdOp} (hops : ∀ op ∈ ops, op.fd < 512 ∧ op.fd % 64 < 31) :
    ∀ l op, l ++ [op] <+: ops → (fdSetRun l).Harmless op := by
  have hits_low : ∀ op ∈ ops, ∀ k, FdSet.Hits op.fd k ↔ k = op.fd := by
    intro op hop k
    have := (hops op hop).2
    rw [FdSet.hits_iff]
    omega
  have hlow : ∀ l, l <+: ops → ∀ k, (fdSetRun l).Stored k → k % 64 < 31 := by
    intro l hl
    induction l using List.reverseRecOn with
    | nil =>
      intro k hk
      simp [fdSetRun, FdSet.zero, FdSet.Stored] at hk
    | append_singleton l op ih =>
      have ih := ih ((List.prefix_append l [op]).trans hl)
      have hop : op ∈ ops := hl.subset (by simp)
      intro k hk
      rw [fdSetRun, List.foldl_append, List.foldl_cons, List.foldl_nil] at hk
      cases op with
      | set fd =>
        rcases (FdSet.stored_set _ (hops _ hop).1 k).1 hk with hk | hk
        · exact ih k hk
        · rw [(hits_low _ hop k).1 hk]
          exact (hops _ hop).2
      | clear fd =>
        by_cases hfd : (fdSetRun l).nfds ≤ fd
        · rw [FdSet.apply, ← fdSetRun, FdSet.clear_of_le _ hfd] at hk
          exact ih k hk
        · exact ih k ((FdSet.stored_clear _ (not_le.1 hfd) k).1 hk).1
  intro l op hl
  have hop : op ∈ ops := hl.subset (by simp)
  have hself := hits_low op hop
  have hbits := hlow l ((List.prefix_append l [op]).trans hl)
  have hpacked : (fdSetRun l).Packed := packed_run fun op' hop' =>
    (hops op' (hl.subset (by simp [hop']))).1
  cases op with
  | set fd =>
    refine ⟨.inl ((hself fd).2 rfl), fun k _ hne hhits => absurd ((hself k).1 hhits) hne, ?_⟩
    intro k hle _ hk
    have := hpacked.first k hk
    have := hbits k hk
    omega
  | clear fd =>
    intro _
    exact ⟨.inl ((hself fd).2 rfl), fun k hne _ hhits => hne ((hself k).1 hhits)⟩

theorem fdSet_iff_low : (fdSetRun [.set 5, .set 70, .clear 5]).Agrees {70} :=
  (fdSet_iff [.set 5, .set 70, .clear 5] (by decide)).2 (harmless_of_low (by decide)) _
    List.prefix_rfl

/-- After `fd_set_set(32)` the descriptor 32 is not set. -/
theorem fdSet_fails :
    ¬∀ ops : List FdOp, (∀ op ∈ ops, op.fd < 512) → (fdSetRun ops).Agrees (fdSetOf ops) := by
  intro h
  have hset := ((h [.set 32] (by decide)).1 32).2 ⟨32, by decide, rfl⟩
  exact absurd hset (by decide)

end SadOS.Kernel
