import Mathlib.Data.List.Nodup
import Mathlib.Logic.Function.Basic
import Mathlib.Tactic.Common

/-!
# Lists with back links

A list threaded through cells: each cell has a `next` link to the cell of the next node,
and each node a `back` link to the cell whose `next` link leads to it.  The first cell is
the head of the list, which is no node.  The address 0 ends a list.  A node is put behind
the head, and any node is taken out, by a few local writes.

## Main definitions

* `Links` — the links, with `Links.push` and `Links.unlink`.
* `Linked f h l` — from the cell `h` on, the links run through the nodes `l`.
* `Lists` — several lists without a common node.
* `Lists.push`, `Lists.unlink` — the writes do what they should.
-/

namespace SadOS

/-- The links of all cells and nodes. -/
@[ext] structure Links where
  next : ℕ → ℕ
  back : ℕ → ℕ

/-- `x` is put behind the cell `h`. -/
def Links.push (f : Links) (h x : ℕ) : Links where
  next := Function.update (Function.update f.next x (f.next h)) h x
  back := if f.next h = 0 then Function.update f.back x h
    else Function.update (Function.update f.back x h) (f.next h) x

/-- The node `x` is taken out. -/
def Links.unlink (f : Links) (x : ℕ) : Links where
  next := Function.update f.next (f.back x) (f.next x)
  back := if f.next x = 0 then f.back else Function.update f.back (f.next x) (f.back x)

/-- From the cell `h` on, the links run through `l`. -/
def Linked (f : Links) : ℕ → List ℕ → Prop
  | h, [] => f.next h = 0
  | h, x :: rest => f.next h = x ∧ x ≠ 0 ∧ f.back x = h ∧ Linked f x rest

variable {f g : Links} {h x y : ℕ} {l l₁ l₂ : List ℕ}

@[simp] theorem linked_nil : Linked f h [] ↔ f.next h = 0 := Iff.rfl

@[simp] theorem linked_cons {rest : List ℕ} :
    Linked f h (x :: rest) ↔ f.next h = x ∧ x ≠ 0 ∧ f.back x = h ∧ Linked f x rest := Iff.rfl

namespace Linked

/-- Only the links of the list matter. -/
theorem congr (hl : Linked f h l) (hnext : ∀ y, y = h ∨ y ∈ l → g.next y = f.next y)
    (hback : ∀ y ∈ l, g.back y = f.back y) : Linked g h l := by
  induction l generalizing h with
  | nil => exact (hnext h (.inl rfl)).trans hl
  | cons x rest ih =>
    obtain ⟨hx, hx0, hb, hrest⟩ := hl
    refine ⟨(hnext h (.inl rfl)).trans hx, hx0, (hback x List.mem_cons_self).trans hb, ?_⟩
    refine ih hrest (fun y hy => hnext y (.inr ?_)) fun y hy => hback y (List.mem_cons_of_mem x hy)
    rcases hy with rfl | hy
    · exact List.mem_cons_self
    · exact List.mem_cons_of_mem x hy

/-- The head leads to the first node, if there is one. -/
theorem next_head (hl : Linked f h l) : f.next h = l.headD 0 := by
  cases l with
  | nil => exact hl
  | cons x rest => exact hl.1

/-- What comes after a node. -/
theorem next_mem (hl : Linked f h l) (hx : x ∈ l) : f.next x = 0 ∨ f.next x ∈ l := by
  induction l generalizing h with
  | nil => cases hx
  | cons y rest ih =>
    obtain ⟨-, -, -, hrest⟩ := hl
    rcases List.mem_cons.1 hx with rfl | hx
    · cases rest with
      | nil => exact .inl hrest
      | cons z rest => exact .inr (by simp [hrest.1])
    · exact (ih hrest hx).imp id (List.mem_cons_of_mem y)

/-- What comes before a node. -/
theorem back_mem (hl : Linked f h l) (hx : x ∈ l) : f.back x = h ∨ f.back x ∈ l := by
  induction l generalizing h with
  | nil => cases hx
  | cons y rest ih =>
    obtain ⟨-, -, hb, hrest⟩ := hl
    rcases List.mem_cons.1 hx with rfl | hx
    · exact .inl hb
    · right
      rcases ih hrest hx with h | h
      · rw [h]
        exact List.mem_cons_self
      · exact List.mem_cons_of_mem y h

/-- No node comes before itself. -/
theorem back_ne (hl : Linked f h l) (hh : h ∉ l) (hnd : l.Nodup) (hx : x ∈ l) : f.back x ≠ x := by
  induction l generalizing h with
  | nil => cases hx
  | cons y rest ih =>
    obtain ⟨-, -, hb, hrest⟩ := hl
    rw [List.nodup_cons] at hnd
    rcases List.mem_cons.1 hx with rfl | hx
    · rw [hb]
      exact fun heq => hh (heq ▸ List.mem_cons_self)
    · exact ih hrest hnd.1 hnd.2 hx

/-- A new first node. -/
theorem push (hl : Linked f h l) (hx0 : x ≠ 0) (hx : x ∉ l) (hxh : x ≠ h) (hh : h ∉ l)
    (hnd : l.Nodup) : Linked (f.push h x) h (x :: l) := by
  have hnext : ∀ y ∈ l, (f.push h x).next y = f.next y := by
    intro y hy
    have hyx : y ≠ x := fun heq => hx (heq ▸ hy)
    have hyh : y ≠ h := fun heq => hh (heq ▸ hy)
    simp [Links.push, hyx, hyh]
  refine ⟨by simp [Links.push], hx0, ?_, ?_⟩
  · have hne : f.next h ≠ 0 → x ≠ f.next h := by
      rintro hne rfl
      cases l with
      | nil => exact hne hl
      | cons z rest => exact hx (by simp [hl.1])
    by_cases hn : f.next h = 0
    · simp [Links.push, hn]
    · simp [Links.push, hn, hne hn]
  · cases l with
    | nil =>
      have hn : f.next h = 0 := hl
      simp [Links.push, hxh, hn]
    | cons z rest =>
      obtain ⟨hz, hz0, hb, hrest⟩ := hl
      refine ⟨by simp [Links.push, hxh, hz], hz0, by simp [Links.push, hz, hz0], ?_⟩
      refine hrest.congr (fun y hy => hnext y (List.mem_cons.2 hy)) fun y hy => ?_
      have hyz : y ≠ z := fun heq => (List.nodup_cons.1 hnd).1 (heq ▸ hy)
      have hyx : y ≠ x := fun heq => hx (heq ▸ List.mem_cons_of_mem z hy)
      simp [Links.push, hz, hz0, hyz, hyx]

/-- A node goes. -/
theorem unlink (hl : Linked f h (l₁ ++ x :: l₂)) (hh : h ∉ l₁ ++ x :: l₂)
    (hnd : (l₁ ++ x :: l₂).Nodup) : Linked (f.unlink x) h (l₁ ++ l₂) := by
  induction l₁ generalizing h with
  | nil =>
    obtain ⟨hx, hx0, hb, hrest⟩ := hl
    rw [List.nil_append, List.nodup_cons] at hnd
    rw [List.nil_append, List.mem_cons, not_or] at hh
    cases l₂ with
    | nil =>
      have hn : f.next x = 0 := hrest
      simp [Links.unlink, hb, hn]
    | cons z rest =>
      obtain ⟨hz, hz0, -, hrest⟩ := hrest
      have hhz : h ∉ z :: rest := hh.2
      refine ⟨by simp [Links.unlink, hb, hz], hz0, by simp [Links.unlink, hb, hz, hz0], ?_⟩
      refine hrest.congr (fun y hy => ?_) fun y hy => ?_
      · have hyh : y ≠ h := fun heq => hhz (heq ▸ List.mem_cons.2 hy)
        simp [Links.unlink, hb, hyh]
      · have hyz : y ≠ z := fun heq => (List.nodup_cons.1 hnd.2).1 (heq ▸ hy)
        simp [Links.unlink, hz, hz0, hyz]
  | cons w l₁ ih =>
    obtain ⟨hw, hw0, hb, hrest⟩ := hl
    rw [List.cons_append, List.nodup_cons] at hnd
    rw [List.cons_append, List.mem_cons, not_or] at hh
    have hxmem : x ∈ l₁ ++ x :: l₂ := List.mem_append_right l₁ List.mem_cons_self
    -- neither link of `h` and `w` is written
    have hback : h ≠ f.back x := by
      rintro rfl
      rcases hrest.back_mem hxmem with heq | hmem
      · exact hh.1 heq
      · exact hh.2 hmem
    have hnext : f.next x ≠ 0 → w ≠ f.next x := by
      rintro hn rfl
      rcases hrest.next_mem hxmem with heq | hmem
      · exact hn heq
      · exact hnd.1 hmem
    refine ⟨by simp [Links.unlink, hback, hw], hw0, ?_, ih hrest hnd.1 hnd.2⟩
    by_cases hn : f.next x = 0
    · simp [Links.unlink, hn, hb]
    · simp [Links.unlink, hn, hnext hn, hb]

end Linked

/-! ## Several lists -/

variable {ι : Type} {head : ι → ℕ} {ls : ι → List ℕ} {i j : ι}

/-- The lists `ls` with the heads `head`, without common nodes. -/
structure Lists (f : Links) (head : ι → ℕ) (ls : ι → List ℕ) : Prop where
  linked : ∀ i, Linked f (head i) (ls i)
  nodup : ∀ i, (ls i).Nodup
  apart : ∀ i j, i ≠ j → ∀ x ∈ ls i, x ∉ ls j
  heads : ∀ i j, head i ∉ ls j
  inj : Function.Injective head

namespace Lists

/-- The first node of a list, or 0. -/
theorem next_head (hf : Lists f head ls) (i : ι) : f.next (head i) = (ls i).headD 0 :=
  (hf.linked i).next_head

/-- A head that leads to a node leads to the first one. -/
theorem exists_cons (hf : Lists f head ls) (hx : f.next (head i) = x) (hx0 : x ≠ 0) :
    ∃ rest, ls i = x :: rest := by
  rw [hf.next_head i] at hx
  cases hl : ls i with
  | nil =>
    rw [hl] at hx
    exact absurd hx.symm hx0
  | cons y rest =>
    rw [hl] at hx
    exact ⟨rest, congrArg (· :: rest) hx⟩

/-- Only the links of the heads and the nodes matter. -/
theorem congr (hf : Lists f head ls) (hhead : ∀ i, g.next (head i) = f.next (head i))
    (hnode : ∀ i, ∀ x ∈ ls i, g.next x = f.next x ∧ g.back x = f.back x) : Lists g head ls := by
  refine ⟨fun i => (hf.linked i).congr ?_ fun y hy => (hnode i y hy).2, hf.nodup, hf.apart,
    hf.heads, hf.inj⟩
  rintro y (rfl | hy)
  · exact hhead i
  · exact (hnode i y hy).1

variable [DecidableEq ι]

/-- A node is put on one of the lists. -/
theorem push (hf : Lists f head ls) (i : ι) (hx0 : x ≠ 0) (hx : ∀ j, x ∉ ls j)
    (hxh : ∀ j, x ≠ head j) : Lists (f.push (head i) x) head (Function.update ls i (x :: ls i)) := by
  constructor
  · intro j
    by_cases hij : j = i
    · subst hij
      rw [Function.update_self]
      exact (hf.linked j).push hx0 (hx j) (hxh j) (hf.heads j j) (hf.nodup j)
    · rw [Function.update_of_ne hij]
      -- the links of another list are not written
      refine (hf.linked j).congr (fun y hy => ?_) fun y hy => ?_
      · have hyx : y ≠ x := by
          rintro rfl
          exact hy.elim (hxh j) (hx j)
        have hyh : y ≠ head i := by
          rintro rfl
          exact hy.elim (fun h => hij (hf.inj h).symm) (hf.heads i j)
        simp [Links.push, hyx, hyh]
      · have hyx : y ≠ x := fun heq => hx j (heq ▸ hy)
        have hyn : f.next (head i) ≠ 0 → y ≠ f.next (head i) := by
          rintro hn rfl
          have hli := hf.linked i
          cases hl : ls i with
          | nil =>
            rw [hl] at hli
            exact hn hli
          | cons z rest =>
            rw [hl] at hli
            exact hf.apart j i hij _ hy (by simp [hl, hli.1])
        by_cases hn : f.next (head i) = 0
        · simp [Links.push, hn, hyx]
        · simp [Links.push, hn, hyx, hyn hn]
  · intro j
    by_cases hij : j = i
    · subst hij
      rw [Function.update_self]
      exact List.nodup_cons.2 ⟨hx j, hf.nodup j⟩
    · rw [Function.update_of_ne hij]
      exact hf.nodup j
  · intro j k hjk y hy hy'
    by_cases hj : j = i
    · subst hj
      rw [Function.update_self] at hy
      rw [Function.update_of_ne hjk.symm] at hy'
      rcases List.mem_cons.1 hy with rfl | hy
      · exact hx k hy'
      · exact hf.apart j k hjk y hy hy'
    · rw [Function.update_of_ne hj] at hy
      by_cases hk : k = i
      · subst hk
        rw [Function.update_self] at hy'
        rcases List.mem_cons.1 hy' with rfl | hy'
        · exact hx j hy
        · exact hf.apart j k hjk y hy hy'
      · rw [Function.update_of_ne hk] at hy'
        exact hf.apart j k hjk y hy hy'
  · intro j k hjk
    by_cases hk : k = i
    · subst hk
      rw [Function.update_self] at hjk
      exact (List.mem_cons.1 hjk).elim (fun h => hxh j h.symm) (hf.heads j k)
    · rw [Function.update_of_ne hk] at hjk
      exact hf.heads j k hjk
  · exact hf.inj

/-- A node is taken out of its list. -/
theorem unlink (hf : Lists f head ls) (hx : x ∈ ls i) :
    Lists (f.unlink x) head (Function.update ls i ((ls i).erase x)) := by
  have hsub : ∀ j, Function.update ls i ((ls i).erase x) j ⊆ ls j := by
    intro j y hy
    by_cases hij : j = i
    · subst hij
      rw [Function.update_self] at hy
      exact List.mem_of_mem_erase hy
    · rwa [Function.update_of_ne hij] at hy
  constructor
  · intro j
    by_cases hij : j = i
    · subst hij
      rw [Function.update_self]
      obtain ⟨l₁, l₂, hl⟩ := List.append_of_mem hx
      have hnd := hf.nodup j
      have hh := hf.heads j j
      have hlinked := hf.linked j
      rw [hl] at hnd hh hlinked ⊢
      have hl₁ : x ∉ l₁ := fun hmem =>
        (List.nodup_append.1 hnd).2.2 x hmem x List.mem_cons_self rfl
      rw [List.erase_append_right _ hl₁, List.erase_cons_head]
      exact hlinked.unlink hh hnd
    · rw [Function.update_of_ne hij]
      refine (hf.linked j).congr (fun y hy => ?_) fun y hy => ?_
      · have hyb : y ≠ f.back x := by
          rintro rfl
          rcases hy with hy | hy <;> rcases (hf.linked i).back_mem hx with hb | hb
          · exact hij (hf.inj (hy.symm.trans hb))
          · exact hf.heads j i (hy ▸ hb)
          · exact hf.heads i j (hb ▸ hy)
          · exact hf.apart j i hij _ hy hb
        simp [Links.unlink, hyb]
      · have hyn : f.next x ≠ 0 → y ≠ f.next x := by
          rintro hn rfl
          rcases (hf.linked i).next_mem hx with h | h
          · exact hn h
          · exact hf.apart j i hij _ hy h
        by_cases hn : f.next x = 0
        · simp [Links.unlink, hn]
        · simp [Links.unlink, hn, hyn hn]
  · intro j
    by_cases hij : j = i
    · subst hij
      rw [Function.update_self]
      exact (hf.nodup j).erase x
    · rw [Function.update_of_ne hij]
      exact hf.nodup j
  · exact fun j k hjk y hy hy' => hf.apart j k hjk y (hsub j hy) (hsub k hy')
  · exact fun j k hjk => hf.heads j k (hsub k hjk)
  · exact hf.inj

/-- The nodes after a `push`. -/
theorem exists_push (hf : Lists f head ls) (i : ι) (hx0 : x ≠ 0) (hx : ∀ j, x ∉ ls j)
    (hxh : ∀ j, x ≠ head j) : ∃ ls', Lists (f.push (head i) x) head ls' ∧
      ∀ y j, y ∈ ls' j ↔ (y = x ∧ j = i) ∨ y ∈ ls j := by
  refine ⟨_, hf.push i hx0 hx hxh, fun y j => ?_⟩
  by_cases hj : j = i
  · subst hj
    simp
  · simp [hj]

/-- The nodes after an `unlink`. -/
theorem exists_unlink (hf : Lists f head ls) (hx : x ∈ ls i) :
    ∃ ls', Lists (f.unlink x) head ls' ∧ ∀ y j, y ∈ ls' j ↔ y ≠ x ∧ y ∈ ls j := by
  refine ⟨_, hf.unlink hx, fun y j => ?_⟩
  by_cases hj : j = i
  · subst hj
    rw [Function.update_self]
    exact (hf.nodup j).mem_erase_iff
  · rw [Function.update_of_ne hj]
    refine ⟨fun hy => ⟨?_, hy⟩, fun hy => hy.2⟩
    rintro rfl
    exact hf.apart j i hj y hy hx

end Lists

end SadOS
