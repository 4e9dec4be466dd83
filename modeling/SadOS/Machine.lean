import Mathlib.Data.Nat.Bitwise
import Mathlib.Data.Nat.Log
import Mathlib.Tactic.Common

/-!
# Outcomes of kernel code

Kernel functions are Lean functions that return the new state or a `Fault`.  A
fault ends the run: `panic` prints, clears the interrupt flag and idles, and a
bad pointer taken in the kernel reaches `page_fault_handler`, which panics too.

Sequencing is that of `Except`, so the only inversion rule the development needs
is `bind_eq_ok`.

## Main definitions

* `Fault` — the ways in which kernel code stops.
* `PAGE_SIZE`, `pageAlign`, `isAligned` — page arithmetic.
* `wadd`, `wsub` — 64-bit addition and subtraction of addresses.
-/

namespace SadOS

/-- The ways in which kernel code stops without returning. -/
inductive Fault
  /-- A call of `panic`. -/
  | panic (msg : String)
  /-- A read or write through a null pointer. -/
  | nullDeref
  /-- A read or write through a pointer to an object that was freed, or that is
  not of the kind the code expects. -/
  | badPointer
  /-- `list_del` on a node that is on no list. -/
  | badUnlink
  /-- An array access outside the array. -/
  | outOfBounds
  /-- A 2M or 1G page in the user half of a page table. -/
  | hugePage
  /-- The page allocator has no page left and follows a null `usable_head`. -/
  | outOfMemory
  deriving DecidableEq, Repr, Inhabited

/-- A fault-free sequence is a fault-free first part and a fault-free rest. -/
@[simp] theorem bind_eq_ok {α β : Type} {x : Except Fault α} {f : α → Except Fault β} {b : β} :
    (x >>= f) = .ok b ↔ ∃ a, x = .ok a ∧ f a = .ok b := by
  cases x with
  | error e => simp [bind, Except.bind]
  | ok a => simp [bind, Except.bind]

@[simp] theorem ok_bind {α β : Type} (a : α) (f : α → Except Fault β) :
    ((.ok a : Except Fault α) >>= f) = f a := rfl

@[simp] theorem error_bind {α β : Type} (e : Fault) (f : α → Except Fault β) :
    ((.error e : Except Fault α) >>= f) = .error e := rfl

@[simp] theorem pure_eq_ok {α : Type} (a : α) : (pure a : Except Fault α) = .ok a := rfl

@[simp] theorem throw_eq_error {α : Type} (e : Fault) :
    (throw e : Except Fault α) = .error e := rfl

/-- `BIT(PAGE_SIZE_BIT)`. -/
def PAGE_SIZE : ℕ := 4096

/-- `ALIGN(x, PAGE_SIZE_BIT)`. -/
def pageAlign (x : ℕ) : ℕ := x - x % 4096

/-- `IS_ALIGNED(x, PAGE_SIZE_BIT)`. -/
def isAligned (x : ℕ) : Bool := x % 4096 == 0

/-- 64-bit addition. -/
def wadd (a b : ℕ) : ℕ := (a + b) % 2 ^ 64

/-- 64-bit subtraction. -/
def wsub (a b : ℕ) : ℕ := (a + (2 ^ 64 - b % 2 ^ 64)) % 2 ^ 64

end SadOS
