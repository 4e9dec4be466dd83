import Mathlib.Order.Basic
import Mathlib.Tactic.Ring

/-!
# Chains of intervals

A list of intervals, each with its begin and its end, is a chain from `lo` to `hi` if
each begins where the one before ends, or later, the first not before `lo` and the last
ending at `hi` or before.  Intervals may be empty.

## Main definitions

* `Chain hi lo l` — the chain.
* `chain_append` — a chain in two parts.
* `Chain.remove`, `Chain.refine` — one interval less, or smaller ones.
* `Chain.pairwise`, `Chain.bounds` — what a chain is for.
* `Tiles hi lo l` — a chain without gaps; `Tiles.countP_eq`, what lies in it.
* `countP_le_one_iff` — what lies in at most one.
-/

namespace SadOS

variable {α : Type} [Preorder α] {hi lo lo' : α} {l r : List (α × α)} {x : α × α}

/-- The intervals of `l` follow each other between `lo` and `hi`. -/
def Chain (hi : α) : α → List (α × α) → Prop
  | lo, [] => lo ≤ hi
  | lo, x :: rest => lo ≤ x.1 ∧ x.1 ≤ x.2 ∧ Chain hi x.2 rest

@[simp] theorem chain_nil : Chain hi lo [] ↔ lo ≤ hi := Iff.rfl

@[simp] theorem chain_cons :
    Chain hi lo (x :: l) ↔ lo ≤ x.1 ∧ x.1 ≤ x.2 ∧ Chain hi x.2 l := Iff.rfl

/-- A chain may begin earlier. -/
theorem Chain.mono (h : Chain hi lo l) (hlo : lo' ≤ lo) : Chain hi lo' l := by
  cases l with
  | nil => exact hlo.trans h
  | cons x rest => exact ⟨hlo.trans h.1, h.2⟩

theorem chain_append : Chain hi lo (l ++ r) ↔ ∃ m, Chain m lo l ∧ Chain hi m r := by
  induction l generalizing lo with
  | nil =>
    constructor
    · exact fun h => ⟨lo, le_refl lo, h⟩
    · rintro ⟨m, hm, h⟩
      exact h.mono hm
  | cons x rest ih =>
    rw [List.cons_append, chain_cons, ih]
    constructor
    · rintro ⟨hx, hx', m, hm, h⟩
      exact ⟨m, ⟨hx, hx', hm⟩, h⟩
    · rintro ⟨m, ⟨hx, hx', hm⟩, h⟩
      exact ⟨hx, hx', m, hm, h⟩

namespace Chain

theorem lo_le_hi (h : Chain hi lo l) : lo ≤ hi := by
  induction l generalizing lo with
  | nil => exact h
  | cons x rest ih => exact h.1.trans (h.2.1.trans (ih h.2.2))

/-- The intervals of a chain lie between its ends. -/
theorem bounds (h : Chain hi lo l) : ∀ x ∈ l, lo ≤ x.1 ∧ x.1 ≤ x.2 ∧ x.2 ≤ hi := by
  induction l generalizing lo with
  | nil => simp
  | cons x rest ih =>
    intro y hy
    rcases List.mem_cons.1 hy with rfl | hy
    · exact ⟨h.1, h.2.1, h.2.2.lo_le_hi⟩
    · obtain ⟨hlo, hrest⟩ := ih h.2.2 y hy
      exact ⟨h.1.trans (h.2.1.trans hlo), hrest⟩

/-- They follow each other. -/
theorem pairwise (h : Chain hi lo l) : l.Pairwise fun x y => x.2 ≤ y.1 := by
  induction l generalizing lo with
  | nil => exact List.Pairwise.nil
  | cons x rest ih =>
    exact List.pairwise_cons.2 ⟨fun y hy => (h.2.2.bounds y hy).1, ih h.2.2⟩

/-- An interval goes. -/
theorem remove (h : Chain hi lo (l ++ x :: r)) : Chain hi lo (l ++ r) := by
  obtain ⟨m, hl, hx, hx', hr⟩ := chain_append.1 h
  exact chain_append.2 ⟨m, hl, hr.mono (hx.trans hx')⟩

/-- Smaller intervals take the place of one. -/
theorem refine (h : Chain hi lo (l ++ x :: r)) {mid : List (α × α)} (hmid : Chain x.2 x.1 mid) :
    Chain hi lo (l ++ (mid ++ r)) := by
  obtain ⟨m, hl, hx, -, hr⟩ := chain_append.1 h
  exact chain_append.2 ⟨m, hl, chain_append.2 ⟨x.2, hmid.mono hx, hr⟩⟩

end Chain

/-- The intervals of `l` follow each other from `lo` to `hi` without a gap. -/
def Tiles (hi : α) : α → List (α × α) → Prop
  | lo, [] => lo = hi
  | lo, x :: rest => lo = x.1 ∧ x.1 ≤ x.2 ∧ Tiles hi x.2 rest

@[simp] theorem tiles_nil : Tiles hi lo [] ↔ lo = hi := Iff.rfl

@[simp] theorem tiles_cons :
    Tiles hi lo (x :: l) ↔ lo = x.1 ∧ x.1 ≤ x.2 ∧ Tiles hi x.2 l := Iff.rfl

namespace Tiles

theorem chain (h : Tiles hi lo l) : Chain hi lo l := by
  induction l generalizing lo with
  | nil => exact le_of_eq h
  | cons x rest ih => exact ⟨le_of_eq h.1, h.2.1, ih h.2.2⟩

theorem append {mid : α} (hl : Tiles mid lo l) (hr : Tiles hi mid r) : Tiles hi lo (l ++ r) := by
  induction l generalizing lo with
  | nil =>
    obtain rfl : lo = mid := hl
    exact hr
  | cons x rest ih => exact ⟨hl.1, hl.2.1, ih hl.2.2⟩

end Tiles

/-- A point between the ends lies in one interval, and no other point in any. -/
theorem Tiles.countP_eq {α : Type} [LinearOrder α] {hi lo : α} {l : List (α × α)}
    (h : Tiles hi lo l) (p : α) :
    l.countP (fun x => x.1 ≤ p ∧ p < x.2) = if lo ≤ p ∧ p < hi then 1 else 0 := by
  induction l generalizing lo with
  | nil =>
    obtain rfl : lo = hi := h
    have hempty : ¬(lo ≤ p ∧ p < lo) := fun hp => absurd hp.2 (not_lt.2 hp.1)
    simp [hempty]
  | cons x rest ih =>
    obtain ⟨rfl, hx, hrest⟩ := h
    have hhi := hrest.chain.lo_le_hi
    rw [List.countP_cons, ih hrest]
    rcases lt_or_ge p x.2 with hp | hp
    · have hlt : p < hi := hp.trans_le hhi
      simp [hp, hlt, not_le.2 hp]
    · simp [hp, not_lt.2 hp, hx.trans hp]

/-- At most one element of a list has a property if no two do. -/
theorem countP_le_one_iff {α : Type} {P : α → Prop} [DecidablePred P] {l : List α} :
    l.countP (fun x => P x) ≤ 1 ↔ l.Pairwise fun x y => ¬(P x ∧ P y) := by
  induction l with
  | nil => simp
  | cons x rest ih =>
    rw [List.countP_cons, List.pairwise_cons, ← ih]
    by_cases hx : P x
    · have hzero : rest.countP (fun y => P y) = 0 ↔ ∀ y ∈ rest, ¬P y := by simp
      simp only [hx, decide_true, reduceIte, true_and, ← hzero]
      omega
    · simp [hx]

end SadOS
