import Mathlib.Data.List.Perm.Basic

/-!
# Channels

A queue to which senders add at its end and from which a receiver takes the first element.  Elements
may also be lost on the way.  What is received and what still waits is then what was sent, in the
same order and without what was lost.

## Main definitions

* `Event` — an element is sent or received, or some are lost.
* `Passes q es q'` — the events `es` lead from the queue `q` to the queue `q'`.
* `sent`, `received`, `lost` — the elements of the events.

## Main results

* `Passes.in_order`, `Passes.conserved` — the order, and that nothing else happens to elements.
* `Passes.exact` — a channel that loses nothing.
-/

namespace SadOS.Fifo

variable {α : Type}

/-- What happens to a queue. -/
inductive Event (α : Type)
  | send (x : α)
  | receive (x : α)
  | lose (xs : List α)

namespace Event

/-- An event leads from one queue to another. -/
def Moves (q : List α) : Event α → List α → Prop
  | send x, q' => q' = q ++ [x]
  | receive x, q' => q = x :: q'
  | lose xs, q' => q'.Sublist q ∧ (xs ++ q').Perm q

def sent : Event α → List α
  | send x => [x]
  | _ => []

def received : Event α → List α
  | receive x => [x]
  | _ => []

def lost : Event α → List α
  | lose xs => xs
  | _ => []

end Event

/-- Events lead from one queue to another. -/
inductive Passes : List α → List (Event α) → List α → Prop
  | nil (q : List α) : Passes q [] q
  | cons {q q' q'' : List α} {e : Event α} {es : List (Event α)} (he : e.Moves q q')
      (h : Passes q' es q'') : Passes q (e :: es) q''

def sent (es : List (Event α)) : List α := es.flatMap Event.sent
def received (es : List (Event α)) : List α := es.flatMap Event.received
def lost (es : List (Event α)) : List α := es.flatMap Event.lost

@[simp] theorem sent_nil : sent ([] : List (Event α)) = [] := rfl
@[simp] theorem received_nil : received ([] : List (Event α)) = [] := rfl
@[simp] theorem lost_nil : lost ([] : List (Event α)) = [] := rfl

@[simp] theorem sent_cons (e : Event α) (es : List (Event α)) :
    sent (e :: es) = e.sent ++ sent es := rfl

@[simp] theorem received_cons (e : Event α) (es : List (Event α)) :
    received (e :: es) = e.received ++ received es := rfl

@[simp] theorem lost_cons (e : Event α) (es : List (Event α)) :
    lost (e :: es) = e.lost ++ lost es := rfl

namespace Passes

variable {q q' q'' : List α} {es es' : List (Event α)}

theorem append (h : Passes q es q') (h' : Passes q' es' q'') : Passes q (es ++ es') q'' := by
  induction h with
  | nil => exact h'
  | cons he _ ih => exact .cons he (ih h')

/-- What was received and what waits is a part of what waited and of what was sent, in order. -/
theorem in_order (h : Passes q es q') : (received es ++ q').Sublist (q ++ sent es) := by
  induction h with
  | nil => simp
  | @cons q₀ q₁ q₂ e es he _ ih =>
    cases e with
    | send x => simpa [show q₁ = q₀ ++ [x] from he, Event.sent, Event.received] using ih
    | receive x => simpa [show q₀ = x :: q₁ from he, Event.sent, Event.received] using ih
    | lose xs => simpa [Event.sent, Event.received] using ih.trans (he.1.append_right (sent es))

/-- Each element was received, was lost, or waits. -/
theorem conserved (h : Passes q es q') :
    (received es ++ lost es ++ q').Perm (q ++ sent es) := by
  induction h with
  | nil => simp
  | @cons q₀ q₁ q₂ e es he _ ih =>
    cases e with
    | send x => simpa [show q₁ = q₀ ++ [x] from he, Event.sent, Event.received, Event.lost] using ih
    | receive x =>
      simpa [show q₀ = x :: q₁ from he, Event.sent, Event.received, Event.lost] using ih
    | lose xs =>
      -- what is lost now stands behind what was received later
      have hswap : (received es ++ (xs ++ lost es) ++ q₂).Perm
          (xs ++ (received es ++ lost es ++ q₂)) := by
        simpa using List.perm_append_comm_assoc (received es) xs (lost es ++ q₂)
      have hq : (xs ++ (q₁ ++ sent es)).Perm (q₀ ++ sent es) := by
        simpa using he.2.append_right (sent es)
      simpa [Event.sent, Event.received, Event.lost] using
        (hswap.trans (ih.append_left xs)).trans hq

/-- If nothing is lost, what was received and what waits is all that waited and that was sent. -/
theorem exact (h : Passes q es q') (hlost : lost es = []) :
    received es ++ q' = q ++ sent es := by
  have hperm := h.conserved
  rw [hlost, List.append_nil] at hperm
  exact h.in_order.eq_of_length hperm.length_eq

end Passes

end SadOS.Fifo
