import Mathlib.Data.List.Range
import Mathlib.Logic.Function.Basic
import Mathlib.Tactic.Common

/-!
# Ring buffers

A ring of `N` cells with a head, where elements are taken, and a tail, where they are put.  It is
empty when the two are equal, so that it has room for `N - 1` elements.

## Main definitions

* `Ring`, `Ring.push`, `Ring.pop` — the ring.
* `Ring.items` — the elements from the head to the tail.

## Main results

* `Ring.items_push`, `Ring.items_pop` — the ring is a queue.
* `Ring.items_push_of_full` — an element too many empties it.
-/

namespace SadOS

/-- A ring of `N` cells. -/
structure Ring (N : ℕ) (α : Type) where
  cells : ℕ → α
  head : ℕ
  tail : ℕ
  head_lt : head < N
  tail_lt : tail < N

namespace Ring

variable {N : ℕ} {α : Type} {r : Ring N α}

/-- The next index. -/
def next (N i : ℕ) : ℕ := (i + 1) % N

theorem next_lt {i : ℕ} (h : i < N) : next N i < N := Nat.mod_lt _ (Nat.zero_lt_of_lt h)

theorem next_eq {i : ℕ} (h : i < N) : next N i = if i + 1 = N then 0 else i + 1 := by
  rw [next]
  split
  case isTrue heq => rw [heq, Nat.mod_self]
  case isFalse hne => exact Nat.mod_eq_of_lt (by omega)

/-- A ring without elements. -/
def empty (h : 0 < N) (cells : ℕ → α) : Ring N α := ⟨cells, 0, 0, h, h⟩

/-- An element is put at the tail, whether there is room or not. -/
def push (r : Ring N α) (x : α) : Ring N α where
  cells := Function.update r.cells r.tail x
  head := r.head
  tail := next N r.tail
  head_lt := r.head_lt
  tail_lt := next_lt r.tail_lt

/-- The head goes on. -/
def pop (r : Ring N α) : Ring N α where
  cells := r.cells
  head := next N r.head
  tail := r.tail
  head_lt := next_lt r.head_lt
  tail_lt := r.tail_lt

@[simp] theorem head_push (x : α) : (r.push x).head = r.head := rfl
@[simp] theorem tail_push (x : α) : (r.push x).tail = next N r.tail := rfl
@[simp] theorem cells_push (x : α) : (r.push x).cells = Function.update r.cells r.tail x := rfl

@[simp] theorem head_pop : r.pop.head = next N r.head := rfl
@[simp] theorem tail_pop : r.pop.tail = r.tail := rfl
@[simp] theorem cells_pop : r.pop.cells = r.cells := rfl

/-- The element at the head. -/
def front (r : Ring N α) : α := r.cells r.head

def IsEmpty (r : Ring N α) : Prop := r.tail = r.head

def IsFull (r : Ring N α) : Prop := next N r.tail = r.head

instance (r : Ring N α) : Decidable r.IsEmpty := inferInstanceAs (Decidable (_ = _))

instance (r : Ring N α) : Decidable r.IsFull := inferInstanceAs (Decidable (_ = _))

/-- The number of elements. -/
def count (r : Ring N α) : ℕ := if r.head ≤ r.tail then r.tail - r.head else r.tail + N - r.head

/-- The elements. -/
def items (r : Ring N α) : List α :=
  (List.range r.count).map fun i => r.cells ((r.head + i) % N)

@[simp] theorem length_items (r : Ring N α) : r.items.length = r.count := by simp [items]

@[simp] theorem items_empty (h : 0 < N) (cells : ℕ → α) : (empty h cells).items = [] := rfl

theorem count_lt (r : Ring N α) : r.count < N := by
  have hhead := r.head_lt
  have htail := r.tail_lt
  rw [count]
  split <;> omega

theorem count_eq_zero_iff : r.count = 0 ↔ r.IsEmpty := by
  have hhead := r.head_lt
  rw [count, IsEmpty]
  split <;> omega

theorem items_eq_nil_iff : r.items = [] ↔ r.IsEmpty := by
  rw [← count_eq_zero_iff, ← length_items, List.length_eq_zero_iff]

/-- The index of an element, which is not the tail. -/
theorem index_ne_tail {i : ℕ} (h : i < r.count) : (r.head + i) % N ≠ r.tail := by
  have hhead := r.head_lt
  have htail := r.tail_lt
  have hcount := r.count_lt
  by_cases hlt : r.head + i < N
  · rw [Nat.mod_eq_of_lt hlt]
    rw [count] at h
    split at h <;> omega
  · rw [Nat.mod_eq_sub_mod (by omega), Nat.mod_eq_of_lt (by omega)]
    rw [count] at h
    split at h <;> omega

theorem index_count (r : Ring N α) : (r.head + r.count) % N = r.tail := by
  have hhead := r.head_lt
  have htail := r.tail_lt
  rw [count]
  split
  · rw [Nat.add_sub_cancel' (by omega), Nat.mod_eq_of_lt htail]
  · rw [Nat.add_sub_cancel' (by omega), Nat.add_mod_right, Nat.mod_eq_of_lt htail]

theorem count_push (h : ¬r.IsFull) (x : α) : (r.push x).count = r.count + 1 := by
  have hhead := r.head_lt
  have htail := r.tail_lt
  have hne : next N r.tail ≠ r.head := h
  rw [count, count, head_push, tail_push]
  rw [next_eq htail] at hne ⊢
  by_cases hwrap : r.tail + 1 = N
  · rw [if_pos hwrap] at hne ⊢
    split <;> split <;> omega
  · rw [if_neg hwrap] at hne ⊢
    split <;> split <;> omega

/-- Where there is room, the ring is a queue. -/
theorem items_push (h : ¬r.IsFull) (x : α) : (r.push x).items = r.items ++ [x] := by
  rw [items, count_push h, List.range_succ, List.map_append, List.map_singleton]
  congr 1
  · refine List.map_congr_left fun i hi => ?_
    exact Function.update_of_ne (index_ne_tail (List.mem_range.1 hi)) x r.cells
  · rw [head_push, cells_push, index_count, Function.update_self]

/-- One element too many. -/
theorem items_push_of_full (h : r.IsFull) (x : α) : (r.push x).items = [] :=
  items_eq_nil_iff.2 h

theorem count_pop (h : ¬r.IsEmpty) : r.count = r.pop.count + 1 := by
  have hhead := r.head_lt
  have htail := r.tail_lt
  have hne : r.tail ≠ r.head := h
  rw [count, count, head_pop, tail_pop, next_eq hhead]
  split <;> split <;> split <;> omega

theorem items_pop (h : ¬r.IsEmpty) : r.items = r.front :: r.pop.items := by
  have hhead := r.head_lt
  rw [items, count_pop h, List.range_succ_eq_map, List.map_cons, List.map_map, Nat.add_zero,
    Nat.mod_eq_of_lt hhead]
  refine congrArg (r.front :: ·) (List.map_congr_left fun i _ => ?_)
  show r.cells ((r.head + (i + 1)) % N) = r.cells ((next N r.head + i) % N)
  rw [next, Nat.mod_add_mod, Nat.add_right_comm, Nat.add_assoc]

end Ring

end SadOS
