import Mathlib.Data.List.Basic
import Mathlib.Tactic.Common

/-!
# Computations with their accesses

A computation over a state that says, beside its result and the new state, which accesses
it has made.  A sequence makes the accesses of its parts.

## Main definitions

* `Traced` — a computation, with `Traced.val`, `Traced.state`, `Traced.trace`.
* `Traced.load`, `Traced.store`, `Traced.touch`, `Traced.modify` — single steps.
* `Traced.Touches` — all accesses are of a kind.
-/

namespace SadOS

/-- A computation over states `σ` with accesses `ι`. -/
structure Traced (σ ι α : Type) where
  run : σ → α × σ × List ι

namespace Traced

variable {σ ι α β : Type} {P Q : ι → Prop}

def val (p : Traced σ ι α) (s : σ) : α := (p.run s).1
def state (p : Traced σ ι α) (s : σ) : σ := (p.run s).2.1
def trace (p : Traced σ ι α) (s : σ) : List ι := (p.run s).2.2

instance : Monad (Traced σ ι) where
  pure a := ⟨fun s => (a, s, [])⟩
  bind p f := ⟨fun s =>
    let next := (f (p.val s)).run (p.state s)
    (next.1, next.2.1, p.trace s ++ next.2.2)⟩

/-- A part of the state is read. -/
def load (f : σ → α) (i : ι) : Traced σ ι α := ⟨fun s => (f s, s, [i])⟩

/-- The state is written. -/
def store (g : σ → σ) (i : ι) : Traced σ ι Unit := ⟨fun s => ((), g s, [i])⟩

/-- An access without an effect. -/
def touch (i : ι) : Traced σ ι Unit := ⟨fun s => ((), s, [i])⟩

/-- A step that is no access of the computation's own. -/
def modify (g : σ → σ) : Traced σ ι Unit := ⟨fun s => ((), g s, [])⟩

/-! ## Results, states and accesses -/

section lemmas

variable (a : α) (p q : Traced σ ι α) (f : α → Traced σ ι β) (s : σ)

@[simp] theorem val_pure : (Pure.pure a : Traced σ ι α).val s = a := rfl
@[simp] theorem state_pure : (Pure.pure a : Traced σ ι α).state s = s := rfl
@[simp] theorem trace_pure : (Pure.pure a : Traced σ ι α).trace s = [] := rfl

@[simp] theorem val_bind : (p >>= f).val s = (f (p.val s)).val (p.state s) := rfl
@[simp] theorem state_bind : (p >>= f).state s = (f (p.val s)).state (p.state s) := rfl
@[simp] theorem trace_bind :
    (p >>= f).trace s = p.trace s ++ (f (p.val s)).trace (p.state s) := rfl

variable (c : Prop) [Decidable c]

@[simp] theorem val_ite : (if c then p else q).val s = if c then p.val s else q.val s := by
  split <;> rfl

@[simp] theorem state_ite : (if c then p else q).state s = if c then p.state s else q.state s := by
  split <;> rfl

@[simp] theorem trace_ite : (if c then p else q).trace s = if c then p.trace s else q.trace s := by
  split <;> rfl

end lemmas

/-! ## Kinds of accesses -/

/-- From every state, all accesses are of the kind `P`. -/
def Touches (P : ι → Prop) (p : Traced σ ι α) : Prop := ∀ s, ∀ i ∈ p.trace s, P i

namespace Touches

variable {p q : Traced σ ι α} {f : α → Traced σ ι β} {i : ι}

theorem pure (a : α) : Touches P (Pure.pure a : Traced σ ι α) := fun _ _ hi => nomatch hi

theorem bind (hp : Touches P p) (hf : ∀ a, Touches P (f a)) : Touches P (p >>= f) := by
  intro s i hi
  rw [trace_bind] at hi
  rcases List.mem_append.1 hi with hi | hi
  · exact hp s i hi
  · exact hf _ _ i hi

theorem load (r : σ → α) (hi : P i) : Touches P (load r i) := by
  intro s j hj
  rw [List.mem_singleton.1 hj]
  exact hi

theorem store (g : σ → σ) (hi : P i) : Touches P (store g i) := by
  intro s j hj
  rw [List.mem_singleton.1 hj]
  exact hi

theorem modify (g : σ → σ) : Touches P (modify g : Traced σ ι Unit) := fun _ _ hi => nomatch hi

theorem ite {c : Prop} [Decidable c] (hp : c → Touches P p) (hq : ¬c → Touches P q) :
    Touches P (if c then p else q) := by
  split
  · exact hp ‹c›
  · exact hq ‹¬c›

end Touches

end Traced

end SadOS
