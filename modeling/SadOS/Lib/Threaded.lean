import Mathlib.Data.List.Nodup
import Mathlib.Logic.Function.Basic

/-!
# Lists threaded through a memory

A singly linked list whose nodes are their own addresses: the word at a node is the
address of the next one, and the address 0 ends the list.

## Main definitions

* `Threaded next h l` — from `h` on, the links `next` run through `l`.
* `Threaded.update`, `Threaded.push`, `Threaded.pop` — writes and list operations.
* `Segment next t h l` — the same for a list that goes on at `t`.
* `Threaded.enqueue` — a new last node, for a list with a pointer to its end.
-/

namespace SadOS

variable {next : ℕ → ℕ} {h : ℕ} {l : List ℕ}

/-- From `h` on, the links run through the nodes `l` and end. -/
def Threaded (next : ℕ → ℕ) : ℕ → List ℕ → Prop
  | h, [] => h = 0
  | h, x :: rest => h = x ∧ x ≠ 0 ∧ Threaded next (next x) rest

@[simp] theorem threaded_nil : Threaded next h [] ↔ h = 0 := Iff.rfl

@[simp] theorem threaded_cons {x : ℕ} {rest : List ℕ} :
    Threaded next h (x :: rest) ↔ h = x ∧ x ≠ 0 ∧ Threaded next (next x) rest := Iff.rfl

namespace Threaded

/-- Only the links of the nodes matter. -/
theorem congr {next' : ℕ → ℕ} (hl : Threaded next h l) (hn : ∀ x ∈ l, next' x = next x) :
    Threaded next' h l := by
  induction l generalizing h with
  | nil => exact hl
  | cons x rest ih =>
    refine ⟨hl.1, hl.2.1, ?_⟩
    rw [hn x List.mem_cons_self]
    exact ih hl.2.2 fun y hy => hn y (List.mem_cons_of_mem x hy)

/-- A write to no node of the list. -/
theorem update (hl : Threaded next h l) {v : ℕ} (hv : v ∉ l) (word : ℕ) :
    Threaded (Function.update next v word) h l := by
  induction l generalizing h with
  | nil => exact hl
  | cons x rest ih =>
    obtain ⟨hx, hrest⟩ : x ≠ v ∧ v ∉ rest := by simpa [eq_comm] using hv
    refine ⟨hl.1, hl.2.1, ?_⟩
    rw [Function.update_of_ne hx]
    exact ih hl.2.2 hrest

/-- A new first node. -/
theorem push (hl : Threaded next h l) {v : ℕ} (hv : v ∉ l) (hv0 : v ≠ 0) :
    Threaded (Function.update next v h) v (v :: l) := by
  refine ⟨rfl, hv0, ?_⟩
  rw [Function.update_self]
  exact hl.update hv h

/-- The first node goes. -/
theorem pop (hl : Threaded next h l) (hh : h ≠ 0) :
    ∃ rest, l = h :: rest ∧ Threaded next (next h) rest := by
  cases l with
  | nil => exact absurd hl hh
  | cons x rest =>
    obtain ⟨rfl, -, hrest⟩ := hl
    exact ⟨rest, rfl, hrest⟩

end Threaded

/-- From `h` on, the links run through the nodes `l` and go on at `t`. -/
def Segment (next : ℕ → ℕ) (t : ℕ) : ℕ → List ℕ → Prop
  | h, [] => h = t
  | h, x :: rest => h = x ∧ x ≠ 0 ∧ Segment next t (next x) rest

@[simp] theorem segment_nil {t : ℕ} : Segment next t h [] ↔ h = t := Iff.rfl

@[simp] theorem segment_cons {t x : ℕ} {rest : List ℕ} :
    Segment next t h (x :: rest) ↔ h = x ∧ x ≠ 0 ∧ Segment next t (next x) rest := Iff.rfl

namespace Segment

variable {t : ℕ}

theorem congr {next' : ℕ → ℕ} (hl : Segment next t h l) (hn : ∀ x ∈ l, next' x = next x) :
    Segment next' t h l := by
  induction l generalizing h with
  | nil => exact hl
  | cons x rest ih =>
    refine ⟨hl.1, hl.2.1, ?_⟩
    rw [hn x List.mem_cons_self]
    exact ih hl.2.2 fun y hy => hn y (List.mem_cons_of_mem x hy)

/-- A write to no node of the list. -/
theorem update (hl : Segment next t h l) {v : ℕ} (hv : v ∉ l) (word : ℕ) :
    Segment (Function.update next v word) t h l :=
  hl.congr fun x hx => Function.update_of_ne (fun hxv : x = v => hv (hxv ▸ hx)) ..

theorem ne_zero (hl : Segment next t h l) {x : ℕ} (hx : x ∈ l) : x ≠ 0 := by
  induction l generalizing h with
  | nil => cases hx
  | cons y rest ih =>
    obtain ⟨-, hy, hrest⟩ := hl
    rcases List.mem_cons.1 hx with rfl | hx
    · exact hy
    · exact ih hrest hx

/-- A link leads to a node, or to where the list goes on. -/
theorem next_mem (hl : Segment next t h l) {x : ℕ} (hx : x ∈ l) : next x = t ∨ next x ∈ l := by
  induction l generalizing h with
  | nil => cases hx
  | cons y rest ih =>
    obtain ⟨-, -, hrest⟩ := hl
    rcases List.mem_cons.1 hx with rfl | hx
    · cases rest with
      | nil => exact .inl hrest
      | cons z rest => exact .inr (hrest.1 ▸ List.mem_cons_of_mem x List.mem_cons_self)
    · exact (ih hrest hx).imp_right (List.mem_cons_of_mem y)

/-- The last link of a list is set to a new node. -/
theorem snoc {x y : ℕ} (hl : Segment next t h (l ++ [y])) (hnodup : (l ++ [y]).Nodup)
    (hx : x ∉ l ++ [y]) (hx0 : x ≠ 0) :
    Segment (Function.update next y x) (next x) h (l ++ [y] ++ [x]) := by
  have hxy : x ≠ y := fun heq => hx (by simp [heq])
  induction l generalizing h with
  | nil =>
    obtain ⟨hy, hy0, -⟩ := hl
    exact ⟨hy, hy0, Function.update_self .., hx0, Function.update_of_ne hxy ..⟩
  | cons z rest ih =>
    obtain ⟨hz, hz0, hrest⟩ := hl
    obtain ⟨hzr, hnodup⟩ := List.nodup_cons.1 hnodup
    have hzy : z ≠ y := fun heq => hzr (by simp [heq])
    refine ⟨hz, hz0, ?_⟩
    rw [Function.update_of_ne hzy]
    exact ih hrest hnodup fun hmem => hx (List.mem_cons_of_mem z hmem)

end Segment

/-- The links after `x` is put behind the last node, if there is one. -/
def linkLast (next : ℕ → ℕ) (last : Option ℕ) (x : ℕ) : ℕ → ℕ :=
  match last with
  | none => next
  | some y => Function.update next y x

/-- The first node after `x` is put behind the last one. -/
def headLast (h : ℕ) (last : Option ℕ) (x : ℕ) : ℕ :=
  match last with
  | none => x
  | some _ => h

namespace Threaded

theorem iff_segment : Threaded next h l ↔ Segment next 0 h l := by
  induction l generalizing h with
  | nil => exact Iff.rfl
  | cons x rest ih => exact and_congr_right fun _ => and_congr_right fun _ => ih

/-- A new last node, which the pointer at the end of the list is set to. -/
theorem enqueue {x : ℕ} (hl : Threaded next h l) (hnodup : l.Nodup) (hx : x ∉ l) (hx0 : x ≠ 0) :
    Threaded (linkLast (Function.update next x 0) l.getLast? x) (headLast h l.getLast? x)
      (l ++ [x]) := by
  rcases List.eq_nil_or_concat l with rfl | ⟨front, y, rfl⟩
  · exact ⟨rfl, hx0, Function.update_self ..⟩
  · rw [List.concat_eq_append] at hl hnodup hx ⊢
    rw [List.getLast?_concat]
    have hseg := (iff_segment.1 (hl.update hx 0)).snoc hnodup hx hx0
    rw [Function.update_self] at hseg
    exact iff_segment.2 hseg

theorem ne_zero (hl : Threaded next h l) {x : ℕ} (hx : x ∈ l) : x ≠ 0 :=
  (iff_segment.1 hl).ne_zero hx

/-- The nodes are those that the links run through. -/
theorem unique {r : List ℕ} (hl : Threaded next h l) (hr : Threaded next h r) : l = r := by
  induction l generalizing h r with
  | nil =>
    cases r with
    | nil => rfl
    | cons y rest => exact absurd (hr.1.symm.trans hl) hr.2.1
  | cons x rest ih =>
    cases r with
    | nil => exact absurd (hl.1.symm.trans hr) hl.2.1
    | cons y rest' =>
      obtain ⟨rfl, -, hrest⟩ := hl
      obtain ⟨rfl, -, hrest'⟩ := hr
      rw [ih hrest hrest']

end Threaded

/-- A write elsewhere than to the last node leaves the links of other lists. -/
theorem linkLast_of_ne {last : Option ℕ} {x y : ℕ} (h : ∀ z, last = some z → y ≠ z) :
    linkLast next last x y = next y := by
  cases last with
  | none => rfl
  | some z => exact Function.update_of_ne (h z rfl) ..

end SadOS
