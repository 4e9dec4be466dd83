import Mathlib.Tactic.Common

/-!
# Postconditions of computations that may stop

A computation returns a value or stops with an error.  `Safely H Q x` says that
`x` returns a value satisfying `Q`, or stops with an error that satisfies `H`.
The rules below follow the shape of a program: sequencing, branching, and a loop
over a list.

## Main definitions

* `Safely H Q x` — the postcondition.
* `safely_bind`, `Safely.mono`, `Safely.and` — sequencing and consequence.
* `safely_foldlM` — a loop, with an invariant over the elements that are left.
* `Along ok f s l`, `safely_along` — a run, all of whose steps meet a condition.
* `Always p f s l`, `foldl_always` — the same for steps that cannot stop.
* `StandsFor I abs x y`, `standsFor_foldlM` — refinement, of a computation and of a run.
-/

namespace SadOS

variable {ε α β σ : Type} {H : ε → Prop} {Q R : α → Prop}

/-- `x` returns a value with `Q`, or stops with an error that `H` allows. -/
def Safely (H : ε → Prop) (Q : α → Prop) : Except ε α → Prop
  | .ok a => Q a
  | .error e => H e

@[simp] theorem safely_ok (a : α) : Safely H Q (.ok a) ↔ Q a := Iff.rfl

@[simp] theorem safely_error (e : ε) : Safely H Q (.error e) ↔ H e := Iff.rfl

@[simp] theorem safely_pure (a : α) : Safely H Q (pure a) ↔ Q a := Iff.rfl

@[simp] theorem safely_throw (e : ε) : Safely H Q (throw e) ↔ H e := Iff.rfl

/-- Sequencing: the rest must be safe after whatever the first part returns. -/
@[simp] theorem safely_bind {Q : β → Prop} {x : Except ε α} {f : α → Except ε β} :
    Safely H Q (x >>= f) ↔ Safely H (fun a => Safely H Q (f a)) x := by
  cases x <;> rfl

/-- Consequence. -/
theorem Safely.mono {x : Except ε α} (h : Safely H Q x) (hQ : ∀ a, Q a → R a) :
    Safely H R x := by
  cases x with
  | ok a => exact hQ a h
  | error e => exact h

/-- Two postconditions, of which the first says which errors there are. -/
theorem Safely.and {H' : ε → Prop} {x : Except ε α} (h : Safely H Q x) (h' : Safely H' R x) :
    Safely H (fun a => Q a ∧ R a) x := by
  cases x with
  | ok a => exact ⟨h, h'⟩
  | error e => exact h

/-- What is known of a value that was in fact returned. -/
theorem Safely.of_ok {x : Except ε α} (h : Safely H Q x) {a : α} (hx : x = .ok a) : Q a := by
  subst hx
  exact h

theorem Safely.of_error {x : Except ε α} (h : Safely H Q x) {e : ε} (hx : x = .error e) : H e := by
  subst hx
  exact h

/-- No error is allowed. -/
theorem safely_false {x : Except ε α} :
    Safely (fun _ => False) Q x ↔ ∃ a, x = .ok a ∧ Q a := by
  cases x <;> simp

/-- Whether a value was returned, computed. -/
theorem isOk_iff {x : Except ε α} : x.toOption.isSome = true ↔ ∃ a, x = .ok a := by
  cases x <;> simp [Except.toOption]

/-- A value that was returned and a result that comes of it, computed. -/
theorem exists_of_bind {x : Except ε α} {f : α → Option β} {b : β}
    (h : x.toOption.bind f = some b) : ∃ a, x = .ok a ∧ f a = some b := by
  cases x with
  | ok a => exact ⟨a, rfl, h⟩
  | error e => cases h

/-- The error, computed. -/
def errorOf : Except ε α → Option ε
  | .ok _ => none
  | .error e => some e

theorem errorOf_eq_some {x : Except ε α} {e : ε} : errorOf x = some e ↔ x = .error e := by
  cases x <;> simp [errorOf]

/-- Postconditions that hold of every value need no proof about the program, only
about its errors. -/
theorem safely_iff {x : Except ε α} :
    Safely H Q x ↔ (∀ a, x = .ok a → Q a) ∧ ∀ e, x = .error e → H e := by
  cases x <;> simp

/-- A loop over a list.  `I rest s` holds when the elements `rest` are left. -/
theorem safely_foldlM {f : σ → β → Except ε σ} (I : List β → σ → Prop) {l : List β} {s : σ}
    (h0 : I l s)
    (hstep : ∀ b rest s, I (b :: rest) s → Safely H (I rest) (f s b)) :
    Safely H (I []) (l.foldlM f s) := by
  induction l generalizing s with
  | nil => exact h0
  | cons b rest ih =>
    rw [List.foldlM_cons, safely_bind]
    exact (hstep b rest s h0).mono fun s' h => ih h

/-! ## Runs -/

/-- Every step of the run `l` from `s` meets the condition `ok`. -/
def Along (ok : σ → β → Prop) (f : σ → β → Except ε σ) : σ → List β → Prop
  | _, [] => True
  | s, b :: rest => ok s b ∧ ∀ s', f s b = .ok s' → Along ok f s' rest

/-- An invariant that steps keep under a condition holds at the end of a run whose steps
meet it. -/
theorem safely_along {ok : σ → β → Prop} {f : σ → β → Except ε σ} {I : σ → Prop} {l : List β} {s : σ}
    (h0 : I s) (hstep : ∀ s b, I s → ok s b → Safely H I (f s b)) (hok : Along ok f s l) :
    Safely H I (l.foldlM f s) := by
  induction l generalizing s with
  | nil => exact h0
  | cons b rest ih =>
    rw [List.foldlM_cons, safely_bind, safely_iff]
    have hb := safely_iff.1 (hstep s b h0 hok.1)
    exact ⟨fun s' hs' => ih (hb.1 s' hs') (hok.2 s' hs'), hb.2⟩

/-- A run that meets a condition meets a weaker one. -/
theorem Along.mono {ok ok' : σ → β → Prop} {f : σ → β → Except ε σ} {l : List β} {s : σ}
    (h : Along ok f s l) (hok : ∀ s b, ok s b → ok' s b) : Along ok' f s l := by
  induction l generalizing s with
  | nil => trivial
  | cons b rest ih => exact ⟨hok s b h.1, fun s' hs' => ih (h.2 s' hs')⟩

/-- A step that was made. -/
theorem along_cons {ok : σ → β → Prop} {f : σ → β → Except ε σ} {b : β} {l : List β} {s s' : σ}
    (hs' : f s b = .ok s') (hb : ok s b) (h : Along ok f s' l) : Along ok f s (b :: l) := by
  refine ⟨hb, fun s₁ hs₁ => ?_⟩
  rw [hs', Except.ok.injEq] at hs₁
  exact hs₁ ▸ h

/-- A run reaches its end exactly if all of its steps meet the condition that lets a step be
made. -/
theorem foldlM_ok_iff_along {ok : σ → β → Prop} {f : σ → β → Except ε σ} {I : σ → Prop} {l : List β}
    {s : σ} (h0 : I s) (hstep : ∀ s b, I s → ((∃ s', f s b = .ok s') ↔ ok s b))
    (hkeep : ∀ s b s', I s → f s b = .ok s' → I s') :
    (∃ s', l.foldlM f s = .ok s') ↔ Along ok f s l := by
  induction l generalizing s with
  | nil => exact iff_of_true ⟨s, rfl⟩ trivial
  | cons b rest ih =>
    rw [List.foldlM_cons]
    cases hb : f s b with
    | error e =>
      have hok : ¬ok s b := fun hok => by
        obtain ⟨s', hs'⟩ := (hstep s b h0).2 hok
        rw [hb] at hs'
        cases hs'
      refine iff_of_false ?_ fun h => hok h.1
      rintro ⟨s', hs'⟩
      cases hs'
    | ok s₁ =>
      have hok : ok s b := (hstep s b h0).1 ⟨s₁, hb⟩
      refine (ih (hkeep s b s₁ h0 hb)).trans ⟨fun h => along_cons hb hok h, fun h => h.2 s₁ hb⟩

/-- A condition on the steps alone. -/
theorem along_of_forall {ok : σ → β → Prop} {f : σ → β → Except ε σ} {l : List β} {s : σ}
    (h : ∀ b ∈ l, ∀ s, ok s b) : Along ok f s l := by
  induction l generalizing s with
  | nil => trivial
  | cons b rest ih =>
    exact ⟨h b List.mem_cons_self s, fun _ _ => ih fun b' hb' => h b' (List.mem_cons_of_mem b hb')⟩

/-- A test that every step of a run passes. -/
def alongCheck (check : σ → β → Bool) (f : σ → β → Except ε σ) : σ → List β → Bool
  | _, [] => true
  | s, b :: rest => check s b && match f s b with
    | .ok s' => alongCheck check f s' rest
    | .error _ => true

theorem along_of_check {ok : σ → β → Prop} {c : σ → β → Bool} {f : σ → β → Except ε σ}
    {l : List β} {s : σ} (h : alongCheck c f s l = true)
    (hok : ∀ s b, c s b = true → ok s b) : Along ok f s l := by
  induction l generalizing s with
  | nil => trivial
  | cons b rest ih =>
    rw [alongCheck, Bool.and_eq_true] at h
    refine ⟨hok s b h.1, fun s' hs' => ih ?_⟩
    simpa [hs'] using h.2

/-- Every step of the run `l` from `s` meets the condition `p`, where steps cannot stop. -/
def Always (p : σ → β → Prop) (f : σ → β → σ) : σ → List β → Prop
  | _, [] => True
  | s, b :: rest => p s b ∧ Always p f (f s b) rest

/-- An invariant that steps keep under a condition holds at the end of such a run. -/
theorem foldl_always {p : σ → β → Prop} {f : σ → β → σ} {I : σ → Prop} {l : List β} {s : σ}
    (h0 : I s) (hstep : ∀ s b, I s → p s b → I (f s b)) (h : Always p f s l) : I (l.foldl f s) := by
  induction l generalizing s with
  | nil => exact h0
  | cons b rest ih => exact ih (hstep s b h0 h.1) h.2

/-- Steps that meet a condition meet a weaker one. -/
theorem Always.mono {p q : σ → β → Prop} {f : σ → β → σ} {l : List β} {s : σ} (h : Always p f s l)
    (hpq : ∀ s b, p s b → q s b) : Always q f s l := by
  induction l generalizing s with
  | nil => trivial
  | cons b rest ih => exact ⟨hpq s b h.1, ih h.2⟩

/-- Steps that meet a condition keep an invariant, and meet what follows from it. -/
theorem Always.of_invariant {p q : σ → β → Prop} {f : σ → β → σ} {I : σ → Prop} {l : List β} {s : σ}
    (h : Always p f s l) (h0 : I s) (hstep : ∀ s b, I s → p s b → q s b ∧ I (f s b)) :
    Always q f s l := by
  induction l generalizing s with
  | nil => trivial
  | cons b rest ih =>
    obtain ⟨hq, hI⟩ := hstep s b h0 h.1
    exact ⟨hq, ih h.2 hI⟩

/-- A test that every step of such a run passes. -/
def alwaysCheck (check : σ → β → Bool) (f : σ → β → σ) : σ → List β → Bool
  | _, [] => true
  | s, b :: rest => check s b && alwaysCheck check f (f s b) rest

theorem always_of_check {p : σ → β → Prop} {c : σ → β → Bool} {f : σ → β → σ} {l : List β} {s : σ}
    (h : alwaysCheck c f s l = true) (hp : ∀ s b, c s b = true → p s b) : Always p f s l := by
  induction l generalizing s with
  | nil => trivial
  | cons b rest ih =>
    rw [alwaysCheck, Bool.and_eq_true] at h
    exact ⟨hp s b h.1, ih h.2⟩

/-! ## Refinement -/

/-- `y` is what `x` stands for: a state that `x` returns has the invariant `I`, and its abstraction
is what `y` returns, or both stop with one error. -/
def StandsFor {τ : Type} (I : σ → Prop) (abs : σ → τ) (x : Except ε σ) (y : Except ε τ) : Prop :=
  Safely (fun e => y = .error e) (fun s => I s ∧ y = .ok (abs s)) x

section Refinement

variable {τ : Type} {I : σ → Prop} {abs : σ → τ}

theorem StandsFor.map_eq {x : Except ε σ} {y : Except ε τ} (h : StandsFor I abs x y) :
    x.map abs = y := by
  cases x with
  | ok s => exact h.2.symm
  | error e => exact h.symm

/-- Sequencing. -/
theorem StandsFor.bind {x : Except ε σ} {y : Except ε τ} {f : σ → Except ε σ} {g : τ → Except ε τ}
    (h : StandsFor I abs x y) (hstep : ∀ s, I s → StandsFor I abs (f s) (g (abs s))) :
    StandsFor I abs (x >>= f) (y >>= g) := by
  cases x with
  | ok s =>
    obtain ⟨hs, rfl⟩ := h
    exact hstep s hs
  | error e =>
    obtain rfl : y = .error e := h
    rfl

/-- Steps that are those of the abstract system make runs that are. -/
theorem standsFor_foldlM {f : σ → β → Except ε σ} {g : τ → β → Except ε τ} {l : List β} {s : σ}
    (h0 : I s) (hstep : ∀ s b, I s → StandsFor I abs (f s b) (g (abs s) b)) :
    StandsFor I abs (l.foldlM f s) (l.foldlM g (abs s)) := by
  induction l generalizing s with
  | nil => exact ⟨h0, rfl⟩
  | cons b rest ih =>
    simp only [List.foldlM_cons]
    exact (hstep s b h0).bind fun s' hs' => ih hs'

end Refinement

end SadOS
