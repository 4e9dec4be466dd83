import Mathlib.Logic.Function.Basic
import Mathlib.Tactic.Common
import Mathlib.Tactic.Ring

/-!
# Copies of memory

`memcpy`, `memmove` and `bcopy` of `libc/string.c`, which `sys/lib/string.c` has as well.  A
copy runs over its bytes from the end at which the bytes that it has still to read cannot be
overwritten.  Addresses have 64 bits, and are added modulo `2 ^ 64`.

## Main definitions

* `memcpy`, `memmove`, `bcopy` — the source.
* `Copied` — some bytes stand at another place, and all others are as before.

## Main results

* `copyForward_copied`, `copyBackward_copied` — the loops, for ranges whose order allows them.
* `memcpy_copied` — all copies.
-/

namespace SadOS.Libc

/-- A byte at every address. -/
abbrev Memory := BitVec 64 → UInt8

variable {m m' : Memory} {dst src : BitVec 64} {n : ℕ}

/-! ## The source -/

/-- The loop of `memcpy` that copies forward. -/
def copyForward : ℕ → BitVec 64 → BitVec 64 → Memory → Memory
  | 0, _, _, m => m
  | s + 1, dst, src, m => copyForward s (dst + 1) (src + 1) (Function.update m dst (m src))

/-- The loop of `memcpy` that copies backward. -/
def copyBackward : ℕ → BitVec 64 → BitVec 64 → Memory → Memory
  | 0, _, _, m => m
  | s + 1, dst, src, m =>
    copyBackward s (dst - 1) (src - 1) (Function.update m (dst - 1) (m (src - 1)))

/-- `memcpy`: what it returns, and memory. -/
def memcpy (dst src s : BitVec 64) (m : Memory) : BitVec 64 × Memory :=
  if dst < src then (dst, copyForward s.toNat dst src m)
  else (dst, copyBackward s.toNat (dst + s) (src + s) m)

def memmove (s1 s2 n : BitVec 64) (m : Memory) : BitVec 64 × Memory := memcpy s1 s2 n m

def bcopy (s1 s2 n : BitVec 64) (m : Memory) : Memory := (memcpy s2 s1 n m).2

/-! ## What a copy does -/

/-- The `n` bytes that stood at `src` stand at `dst`, and all other bytes are as before. -/
structure Copied (m m' : Memory) (dst src : BitVec 64) (n : ℕ) : Prop where
  copied : ∀ k < n, m' (dst + BitVec.ofNat 64 k) = m (src + BitVec.ofNat 64 k)
  other : ∀ a, (∀ k < n, a ≠ dst + BitVec.ofNat 64 k) → m' a = m a

@[simp] theorem add_ofNat_zero (p : BitVec 64) : p + BitVec.ofNat 64 0 = p := BitVec.add_zero p

/-- The next address. -/
theorem add_ofNat_succ (p : BitVec 64) (k : ℕ) :
    p + BitVec.ofNat 64 (k + 1) = p + 1 + BitVec.ofNat 64 k := by
  rw [Nat.add_comm, BitVec.ofNat_add, ← BitVec.add_assoc]
  rfl

theorem add_ofNat_succ_sub (p : BitVec 64) (k : ℕ) :
    p + BitVec.ofNat 64 (k + 1) - 1 = p + BitVec.ofNat 64 k := by
  rw [BitVec.ofNat_add, ← BitVec.add_assoc]
  exact BitVec.add_sub_cancel _ 1

/-- Fewer than `2 ^ 64` addresses in a row are different ones. -/
theorem add_ofNat_ne (p : BitVec 64) {j k : ℕ} (hj : j < 2 ^ 64) (hk : k < 2 ^ 64) (hne : j ≠ k) :
    p + BitVec.ofNat 64 j ≠ p + BitVec.ofNat 64 k := by
  intro h
  have heq := congrArg BitVec.toNat ((BitVec.add_right_inj p).1 h)
  rw [BitVec.toNat_ofNat, BitVec.toNat_ofNat, Nat.mod_eq_of_lt hj, Nat.mod_eq_of_lt hk] at heq
  exact hne heq

theorem toNat_add_ofNat {p : BitVec 64} {k : ℕ} (h : p.toNat + k < 2 ^ 64) :
    (p + BitVec.ofNat 64 k).toNat = p.toNat + k := by
  rw [BitVec.toNat_add, BitVec.toNat_ofNat, Nat.add_mod_mod, Nat.mod_eq_of_lt h]

/-- Forward, if no byte is put where a later one is read. -/
theorem copyForward_copied (hn : n ≤ 2 ^ 64)
    (h : ∀ j < n, ∀ k < j, dst + BitVec.ofNat 64 k ≠ src + BitVec.ofNat 64 j) :
    Copied m (copyForward n dst src m) dst src n := by
  induction n generalizing dst src m with
  | zero => exact ⟨by simp, fun a _ => rfl⟩
  | succ n ih =>
    have hrest : Copied (Function.update m dst (m src))
        (copyForward (n + 1) dst src m) (dst + 1) (src + 1) n := by
      refine ih (by omega) fun j hj k hk => ?_
      rw [← add_ofNat_succ, ← add_ofNat_succ]
      exact h (j + 1) (by omega) (k + 1) (by omega)
    constructor
    · intro k hk
      cases k with
      | zero =>
        rw [add_ofNat_zero, add_ofNat_zero, hrest.other, Function.update_self]
        intro k hk
        rw [← add_ofNat_succ]
        simpa using add_ofNat_ne dst (j := 0) (k := k + 1) (by omega) (by omega) (by omega)
      | succ k =>
        have hread := h (k + 1) hk 0 (by omega)
        rw [add_ofNat_zero, add_ofNat_succ] at hread
        rw [add_ofNat_succ, add_ofNat_succ, hrest.copied k (by omega),
          Function.update_of_ne hread.symm]
    · intro a ha
      have hfirst : a ≠ dst := by simpa using ha 0 (by omega)
      have hlater : ∀ k < n, a ≠ dst + 1 + BitVec.ofNat 64 k := fun k hk => by
        rw [← add_ofNat_succ]
        exact ha (k + 1) (by omega)
      rw [hrest.other a hlater, Function.update_of_ne hfirst]

/-- Backward, if no byte is put where one before it is read. -/
theorem copyBackward_copied (hn : n ≤ 2 ^ 64)
    (h : ∀ k < n, ∀ j < k, dst + BitVec.ofNat 64 k ≠ src + BitVec.ofNat 64 j) :
    Copied m (copyBackward n (dst + BitVec.ofNat 64 n) (src + BitVec.ofNat 64 n) m) dst src n := by
  induction n generalizing m with
  | zero => exact ⟨by simp, fun a _ => rfl⟩
  | succ n ih =>
    have hrest := ih (m := Function.update m (dst + BitVec.ofNat 64 n) (m (src + BitVec.ofNat 64 n)))
      (by omega) fun k hk => h k (by omega)
    rw [copyBackward, add_ofNat_succ_sub, add_ofNat_succ_sub]
    constructor
    · intro k hk
      rcases Nat.lt_succ_iff_lt_or_eq.1 hk with hlt | rfl
      · rw [hrest.copied k hlt, Function.update_of_ne (h n (by omega) k hlt).symm]
      · rw [hrest.other, Function.update_self]
        exact fun j hj => add_ofNat_ne dst (by omega) (by omega) (by omega)
    · intro a ha
      rw [hrest.other a fun k hk => ha k (by omega), Function.update_of_ne (ha n (by omega))]

/-! ## All copies -/

/-- Both ranges lie below `2 ^ 64`, and may overlap in any way. -/
theorem memcpy_copied (m : Memory) (dst src n : BitVec 64) (hdst : dst.toNat + n.toNat ≤ 2 ^ 64)
    (hsrc : src.toNat + n.toNat ≤ 2 ^ 64) :
    ∃ m', memcpy dst src n m = (dst, m') ∧ memmove dst src n m = (dst, m') ∧
      bcopy src dst n m = m' ∧ Copied m m' dst src n.toNat := by
  suffices hcopy : (memcpy dst src n m).1 = dst ∧ Copied m (memcpy dst src n m).2 dst src n.toNat from
    ⟨_, Prod.ext hcopy.1 rfl, Prod.ext hcopy.1 rfl, rfl, hcopy.2⟩
  rw [memcpy]
  by_cases hlt : dst < src
  · rw [if_pos hlt]
    refine ⟨rfl, copyForward_copied (Nat.le_of_lt n.isLt) fun j hj k hk heq => ?_⟩
    have hord : dst.toNat < src.toNat := hlt
    have haddr := congrArg BitVec.toNat heq
    rw [toNat_add_ofNat (by omega), toNat_add_ofNat (by omega)] at haddr
    omega
  · have hend : ∀ p : BitVec 64, p + n = p + BitVec.ofNat 64 n.toNat := by simp
    rw [if_neg hlt, hend dst, hend src]
    refine ⟨rfl, copyBackward_copied (Nat.le_of_lt n.isLt) fun k hk j hj heq => ?_⟩
    have hord : src.toNat ≤ dst.toNat := Nat.not_lt.1 hlt
    have haddr := congrArg BitVec.toNat heq
    rw [toNat_add_ofNat (by omega), toNat_add_ofNat (by omega)] at haddr
    omega

/-- Three bytes that move by one. -/
theorem memcpy_copied_next : ∃ m', memcpy 1 0 3 (fun a => UInt8.ofNat a.toNat) = (1, m') ∧
      memmove 1 0 3 (fun a => UInt8.ofNat a.toNat) = (1, m') ∧ bcopy 0 1 3 (fun a => UInt8.ofNat a.toNat) = m' ∧
      Copied (fun a => UInt8.ofNat a.toNat) m' 1 0 3 :=
  memcpy_copied _ 1 0 3 (by decide) (by decide)

end SadOS.Libc
