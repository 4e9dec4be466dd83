import Mathlib.Data.List.Perm.Basic

/-!
# Overtaking in a queue

A queue that serves its head and takes newcomers at both ends.  An element that waits in it is
overtaken only by those that are put in front of it, and those that wait behind it stay behind it.

## Main definitions

* `Turn` — newcomers in front, or newcomers at the back and then the head is served.
* `Plays q es q'` — the turns `es` lead from the queue `q` to the queue `q'`.
* `taken`, `pushed` — the elements that were served, and those that were put in front.

## Main results

* `Plays.waits` — what happens to an element until it is served.
-/

namespace SadOS.Overtaking

variable {α : Type}

/-- What happens to a queue. -/
inductive Turn (α : Type)
  /-- Newcomers in front. -/
  | front (w : List α)
  /-- Newcomers at the back, and then the head is served. -/
  | take (back : List α) (x : α)

namespace Turn

/-- A turn leads from one queue to another. -/
def Moves (q : List α) : Turn α → List α → Prop
  | .front w, q' => q' = w ++ q
  | .take back x, q' => q ++ back = x :: q'

/-- The element that is served. -/
def taken : Turn α → List α
  | .front _ => []
  | .take _ x => [x]

/-- The newcomers in front. -/
def pushed : Turn α → List α
  | .front w => w
  | .take _ _ => []

end Turn

/-- Turns lead from one queue to another. -/
inductive Plays : List α → List (Turn α) → List α → Prop
  | nil (q : List α) : Plays q [] q
  | cons {q q' q'' : List α} {e : Turn α} {es : List (Turn α)} (he : e.Moves q q')
      (h : Plays q' es q'') : Plays q (e :: es) q''

/-- The elements that were served, in this order. -/
def taken (es : List (Turn α)) : List α := es.flatMap Turn.taken

/-- The elements that were put in front, in this order. -/
def pushed (es : List (Turn α)) : List α := es.flatMap Turn.pushed

@[simp] theorem taken_nil : taken ([] : List (Turn α)) = [] := rfl

@[simp] theorem pushed_nil : pushed ([] : List (Turn α)) = [] := rfl

@[simp] theorem taken_cons (e : Turn α) (es : List (Turn α)) :
    taken (e :: es) = e.taken ++ taken es := rfl

@[simp] theorem pushed_cons (e : Turn α) (es : List (Turn α)) :
    pushed (e :: es) = e.pushed ++ pushed es := rfl

/-- The element `t` waits behind `a'`, of which nothing was behind it before, and all
that stood before `t` at some time and does not now was served. -/
structure Behind (a b : List α) (t : α) (es : List (Turn α)) (a' b' q : List α) : Prop where
  eq : q = a' ++ t :: b'
  after : b <+: b'
  before : (taken es ++ a').Perm (pushed es ++ a)

/-- The turns `es` served all that stood before `t` at some time, those of `a` in their order,
and the next turn serves `t`. -/
structure Next (a : List α) (es : List (Turn α)) : Prop where
  before : (taken es).Perm (pushed es ++ a)
  order : a.Sublist (taken es)

theorem Behind.front {a b w a' b' q : List α} {t : α} {es : List (Turn α)}
    (h : Behind (w ++ a) b t es a' b' q) : Behind a b t (.front w :: es) a' b' q := by
  refine ⟨h.eq, h.after, ?_⟩
  have hswap := h.before.trans (List.perm_append_comm_assoc (pushed es) w a)
  simpa [Turn.taken, Turn.pushed] using hswap

theorem Behind.take {a b back a' b' q : List α} {x t : α} {es : List (Turn α)}
    (h : Behind a (b ++ back) t es a' b' q) : Behind (x :: a) b t (.take back x :: es) a' b' q :=
  ⟨h.eq, (List.prefix_append b back).trans h.after, (h.before.cons x).trans List.perm_middle.symm⟩

theorem Next.front {a w : List α} {es : List (Turn α)} (h : Next (w ++ a) es) :
    Next a (.front w :: es) := by
  refine ⟨?_, (List.sublist_append_right w a).trans h.order⟩
  have hswap := h.before.trans (List.perm_append_comm_assoc (pushed es) w a)
  simpa [Turn.taken, Turn.pushed] using hswap

theorem Next.take {a back : List α} {x : α} {es : List (Turn α)} (h : Next a es) :
    Next (x :: a) (.take back x :: es) :=
  ⟨(h.before.cons x).trans List.perm_middle.symm, h.order.cons_cons x⟩

/-- An element of a queue waits until all that stands before it was served, and then it is
served. -/
theorem Plays.waits {q q' a b : List α} {t : α} {es : List (Turn α)} (h : Plays q es q')
    (hq : q = a ++ t :: b) :
    (∃ a' b', Behind a b t es a' b' q') ∨
      ∃ es₁ back es₂, es = es₁ ++ .take back t :: es₂ ∧ Next a es₁ := by
  induction h generalizing a b with
  | nil q => exact .inl ⟨a, b, hq, List.prefix_rfl, .rfl⟩
  | @cons q₀ q₁ q₂ e es he _ ih =>
    subst hq
    cases e with
    | front w =>
      rcases ih (a := w ++ a) (b := b) (by rw [he, List.append_assoc]) with
        ⟨a', b', h⟩ | ⟨es₁, back, es₂, rfl, h⟩
      · exact .inl ⟨a', b', h.front⟩
      · exact .inr ⟨.front w :: es₁, back, es₂, rfl, h.front⟩
    | take back x =>
      cases a with
      | nil =>
        -- the head is served
        obtain ⟨rfl, -⟩ := List.cons.inj he
        exact .inr ⟨[], back, es, rfl, .rfl, List.nil_sublist _⟩
      | cons y a =>
        obtain ⟨rfl, hq₁⟩ := List.cons.inj he
        rcases ih (a := a) (b := b ++ back) (by simp [← hq₁]) with
          ⟨a', b', h⟩ | ⟨es₁, back', es₂, rfl, h⟩
        · exact .inl ⟨a', b', h.take⟩
        · exact .inr ⟨.take back y :: es₁, back', es₂, rfl, h.take⟩

end SadOS.Overtaking
