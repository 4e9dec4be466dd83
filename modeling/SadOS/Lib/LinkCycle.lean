import Mathlib.Data.List.Cycle

/-!
# Cycles of double links

Every cell has a link to the next cell and one to the previous cell.  A list is a cycle of links
through the cell at its head and the cells of its nodes.  Nodes come and go by a few local writes,
each of which is a link from one cell to another, set at both of its ends.

## Main definitions

* `DoubleLinks` — the links, with `wire` and `mirror`.
* `DoubleLinks.Round` — the links run around a cycle.
* `Heads` — several lists, by their heads.
* `DoubleLinks.Represents` — the links run around all of them, and these have no common cell.

## Main results

* `Round.insert`, `Round.remove`, `Round.replace`, `Round.merge` — writes to one cycle, or to two.
* `Represents.change` — one list changes, the others are what they were.
-/

namespace SadOS

variable {α : Type*}

/-- The links of all cells. -/
@[ext] structure DoubleLinks (α : Type*) where
  next : α → α
  prev : α → α

namespace DoubleLinks

variable {f f' : DoubleLinks α} {a b n o p x y : α} {l r : List α}

/-- `b` comes after `a`. -/
def Link (f : DoubleLinks α) (a b : α) : Prop := f.next a = b ∧ f.prev b = a

/-- The same links, the other way around. -/
def mirror (f : DoubleLinks α) : DoubleLinks α := ⟨f.prev, f.next⟩

/-- The links run around a cycle. -/
def Round (f : DoubleLinks α) (c : Cycle α) : Prop := c.Chain f.Link

theorem link_mirror : f.mirror.Link a b ↔ f.Link b a := and_comm

/-- A cycle is a path whose last cell leads to the first one. -/
theorem round_cons :
    f.Round (a :: l : List α) ↔ (a :: l).IsChain f.Link ∧ f.Link (l.getLast?.getD a) a := by
  rw [Round, Cycle.chain_coe_cons, ← List.cons_append, List.isChain_append]
  simp [List.getLast?_cons]

@[simp] theorem round_nil : f.Round ([] : List α) := Cycle.Chain.nil _

/-- A cycle has no first cell. -/
theorem Round.rotate (h : f.Round (l ++ r : List α)) : f.Round (r ++ l : List α) := by
  have heq : ((l ++ r : List α) : Cycle α) = (r ++ l : List α) :=
    Cycle.coe_eq_coe.2 List.isRotated_append
  rwa [heq] at h

/-- A node of a list can be taken for the head. -/
theorem Round.at_node (h : f.Round (a :: (l ++ x :: r) : List α)) :
    f.Round (x :: (r ++ a :: l) : List α) := Round.rotate (l := a :: l) (r := x :: r) h

theorem Round.mirror (h : f.Round (a :: l : List α)) : f.mirror.Round (a :: l.reverse : List α) := by
  rw [Round, Cycle.chain_coe_cons] at h ⊢
  have hreverse : a :: (l.reverse ++ [a]) = (a :: (l ++ [a])).reverse := by simp
  rw [hreverse, List.isChain_reverse]
  exact h.imp fun x y hxy => link_mirror.2 hxy

theorem getLast_mem (a : α) (l : List α) : l.getLast?.getD a ∈ a :: l := by
  rcases List.eq_nil_or_concat l with rfl | ⟨s, z, rfl⟩ <;> simp

/-- Only the links of the cells of a cycle matter. -/
theorem Round.congr (h : f.Round (l : Cycle α)) (hnext : ∀ x ∈ l, f'.next x = f.next x)
    (hprev : ∀ x ∈ l, f'.prev x = f.prev x) : f'.Round (l : Cycle α) := by
  cases l with
  | nil => exact round_nil
  | cons a l =>
    rw [round_cons] at h ⊢
    constructor
    · refine h.1.imp_of_mem_imp fun x y hx hy hxy => ⟨?_, ?_⟩
      · rw [hnext x hx, hxy.1]
      · rw [hprev y hy, hxy.2]
    · exact ⟨(hnext _ (getLast_mem a l)).trans h.2.1, (hprev _ List.mem_cons_self).trans h.2.2⟩

/-- The first node, or the head where there is none. -/
theorem Round.next_head (h : f.Round (a :: l : List α)) : f.next a = l.head?.getD a := by
  rw [round_cons] at h
  cases l with
  | nil => exact h.2.1
  | cons b l => exact (List.isChain_cons_cons.1 h.1).1.1

theorem Round.prev_next (h : f.Round (a :: l : List α)) : f.prev (f.next a) = a := by
  rw [round_cons] at h
  cases l with
  | nil => exact h.2.1.symm ▸ h.2.2
  | cons b l =>
    have hlink := (List.isChain_cons_cons.1 h.1).1
    rw [hlink.1, hlink.2]

theorem Round.next_mem (h : f.Round (l : Cycle α)) (hx : x ∈ l) : f.next x ∈ l := by
  obtain ⟨s, r, rfl⟩ := List.append_of_mem hx
  have hhead := (Round.rotate h).next_head
  cases r <;> cases s <;> simp_all

/-- The last node, or the head where there is none. -/
theorem Round.prev_head (h : f.Round (a :: l : List α)) : f.prev a = l.getLast?.getD a := by
  have hmirror := h.mirror.next_head
  rwa [List.head?_reverse] at hmirror

theorem Round.prev_mem (h : f.Round (l : Cycle α)) (hx : x ∈ l) : f.prev x ∈ l := by
  obtain ⟨s, r, rfl⟩ := List.append_of_mem hx
  have hmem : f.prev x ∈ x :: (r ++ s) :=
    (Round.rotate (r := x :: r) h).prev_head ▸ getLast_mem x (r ++ s)
  simp_all [or_comm, or_left_comm]

section wire

variable [DecidableEq α]

/-- A link from `a` to `b`. -/
def wire (f : DoubleLinks α) (a b : α) : DoubleLinks α where
  next := Function.update f.next a b
  prev := Function.update f.prev b a

@[simp] theorem next_wire_self (f : DoubleLinks α) (a b : α) : (f.wire a b).next a = b :=
  Function.update_self ..

@[simp] theorem prev_wire_self (f : DoubleLinks α) (a b : α) : (f.wire a b).prev b = a :=
  Function.update_self ..

theorem next_wire_of_ne (h : x ≠ a) : (f.wire a b).next x = f.next x := Function.update_of_ne h ..

theorem prev_wire_of_ne (h : x ≠ b) : (f.wire a b).prev x = f.prev x := Function.update_of_ne h ..

/-- Other cells have the links they had. -/
theorem same_wire (ha : x ≠ a) (hb : x ≠ b) :
    (f.wire a b).next x = f.next x ∧ (f.wire a b).prev x = f.prev x :=
  ⟨next_wire_of_ne ha, prev_wire_of_ne hb⟩

theorem same_wire_wire (ha : x ≠ a) (hb : x ≠ b) (hn : x ≠ n) (hp : x ≠ p) :
    ((f.wire a b).wire n p).next x = f.next x ∧ ((f.wire a b).wire n p).prev x = f.prev x :=
  ⟨(next_wire_of_ne hn).trans (next_wire_of_ne ha), (prev_wire_of_ne hp).trans (prev_wire_of_ne hb)⟩

theorem link_wire_self (f : DoubleLinks α) (a b : α) : (f.wire a b).Link a b := by simp [Link]

theorem Link.wire (h : f.Link x y) (hx : x ≠ a) (hy : y ≠ b) : (f.wire a b).Link x y :=
  ⟨(next_wire_of_ne hx).trans h.1, (prev_wire_of_ne hy).trans h.2⟩

/-- A new link beside a path. -/
theorem isChain_wire (h : l.IsChain f.Link) (ha : a ∉ l.dropLast) (hb : b ∉ l.tail) :
    l.IsChain (f.wire a b).Link := by
  induction l with
  | nil => exact List.isChain_nil
  | cons x l ih =>
    cases l with
    | nil => exact List.isChain_singleton x
    | cons y l =>
      rw [List.isChain_cons_cons] at h ⊢
      simp only [List.dropLast_cons_cons, List.mem_cons, not_or, List.tail_cons] at ha hb
      exact ⟨h.1.wire (Ne.symm ha.1) (Ne.symm hb.1), ih h.2 ha.2 hb.2⟩

/-- The last cell of a path. -/
theorem getLast_notMem_dropLast (hnd : (a :: l).Nodup) : l.getLast?.getD a ∉ (a :: l).dropLast := by
  rcases List.eq_nil_or_concat l with rfl | ⟨s, z, rfl⟩
  · simp
  · rw [List.concat_eq_append, ← List.cons_append, List.nodup_append] at hnd
    rw [List.concat_eq_append, ← List.cons_append, List.dropLast_concat, List.getLast?_concat]
    exact fun hmem => hnd.2.2 _ hmem z List.mem_cons_self rfl

/-- Two links with four different ends. -/
theorem wire_comm (ha : a ≠ p) (hb : b ≠ n) : (f.wire a b).wire p n = (f.wire p n).wire a b := by
  ext x
  · exact congrFun (Function.update_comm ha ..) x
  · exact congrFun (Function.update_comm hb ..) x

/-- A new node after `p`. -/
theorem Round.insert (h : f.Round (p :: r : List α)) (hnd : (p :: r).Nodup) (hn : n ∉ p :: r) :
    ((f.wire n (f.next p)).wire p n).Round (p :: n :: r : List α) := by
  have hnext := h.next_head
  rw [Round, Cycle.chain_coe_cons] at h ⊢
  obtain ⟨hnp, hnr⟩ : n ≠ p ∧ n ∉ r := by simpa using hn
  obtain ⟨hpr, hr⟩ := List.nodup_cons.1 hnd
  obtain ⟨q, s, hs⟩ : ∃ q s, r ++ [p] = q :: s := by cases r <;> simp
  have hq : f.next p = q := by
    rw [hnext]
    cases r <;> simp_all
  have hlast : (q :: s).dropLast = r := by rw [← hs, List.dropLast_concat]
  have hqs : (q :: s).Nodup := hs ▸ (List.nodup_append_comm.1 hnd)
  have hmem : ∀ x, x ∈ q :: s ↔ x ∈ r ∨ x = p := fun x => by rw [← hs]; simp
  rw [List.cons_append, hs, hq]
  rw [hs] at h
  have hnq : n ∉ q :: s := by rw [hmem]; tauto
  have hqn : q ≠ n := fun heq => hnq (heq ▸ List.mem_cons_self)
  have htail : (q :: s).IsChain ((f.wire n q).wire p n).Link := by
    refine isChain_wire (isChain_wire (List.isChain_cons_cons.1 h).2 ?_ (List.nodup_cons.1 hqs).1) ?_ ?_
    · rwa [hlast]
    · rwa [hlast]
    · exact fun hmem => hnq (List.mem_cons_of_mem q hmem)
  rw [List.isChain_cons_cons, List.isChain_cons_cons]
  exact ⟨link_wire_self _ p n, (link_wire_self f n q).wire hnp hqn, htail⟩

/-- A node goes. -/
theorem Round.remove (h : f.Round (n :: p :: r : List α)) (hnd : (n :: p :: r).Nodup) :
    (f.wire (f.prev n) (f.next n)).Round (p :: r : List α) := by
  have hnext : f.next n = p := h.next_head
  have hprev : f.prev n = r.getLast?.getD p := by
    rw [h.prev_head, List.getLast?_cons, Option.getD_some]
  have hpr : (p :: r).Nodup := (List.nodup_cons.1 hnd).2
  rw [round_cons] at h ⊢
  rw [hnext, hprev]
  exact ⟨isChain_wire (List.isChain_cons_cons.1 h.1).2 (getLast_notMem_dropLast hpr)
    (List.nodup_cons.1 hpr).1, link_wire_self ..⟩

/-- Another node in place of `o`. -/
theorem Round.replace (h : f.Round (o :: p :: r : List α)) (hnd : (o :: p :: r).Nodup)
    (hn : n ∉ o :: p :: r) :
    ((f.wire (f.prev o) n).wire n (f.next o)).Round (n :: p :: r : List α) := by
  have hnext : f.next o = p := h.next_head
  have hremove := h.remove hnd
  obtain ⟨s, z, hsz⟩ : ∃ s z, p :: r = s ++ [z] :=
    ⟨_, _, (List.dropLast_append_getLast (List.cons_ne_nil p r)).symm⟩
  have hprev : f.prev o = z := by rw [h.prev_head, hsz, List.getLast?_concat, Option.getD_some]
  have hnd' : (z :: s).Nodup := by
    rw [← List.singleton_append, List.nodup_append_comm, ← hsz]
    exact (List.nodup_cons.1 hnd).2
  have hmem : ∀ x, x ∈ z :: s ↔ x ∈ p :: r := fun x => by rw [hsz]; simp [or_comm]
  have hn' : n ∉ z :: s := fun hmem' => hn (List.mem_cons_of_mem o ((hmem n).1 hmem'))
  have hnz : n ≠ z := fun heq => hn' (heq ▸ List.mem_cons_self)
  have hnp : n ≠ p := fun heq => hn' ((hmem n).2 (heq ▸ List.mem_cons_self))
  rw [hnext, hprev, hsz] at hremove
  -- the old node goes, and the new one comes after the one before it
  have hinsert := (Round.rotate hremove).insert hnd' hn'
  rw [next_wire_self] at hinsert
  have hround := Round.rotate (l := [z]) (r := n :: s) hinsert
  rw [List.cons_append, ← hsz] at hround
  rw [hnext, hprev]
  refine hround.congr (fun x _ => ?_) fun x _ => ?_
  · by_cases hz : x = z <;> by_cases hn : x = n <;> simp_all [wire]
  · by_cases hz : x = p <;> by_cases hn : x = n <;> simp_all [wire]

/-- Two cycles become one. -/
theorem Round.merge (ha : f.Round (a :: l : List α)) (hb : f.Round (b :: r : List α))
    (hnd : (a :: l ++ b :: r).Nodup) :
    ((f.wire (f.prev b) a).wire (f.prev a) b).Round (a :: l ++ b :: r : List α) := by
  have hza := ha.prev_head
  have hzb := hb.prev_head
  obtain ⟨hal, hbr, hdis⟩ := List.nodup_append.1 hnd
  rw [round_cons] at ha hb
  rw [hza, hzb, List.cons_append, round_cons, ← List.cons_append, List.isChain_append]
  have hlast : (l ++ b :: r).getLast?.getD a = r.getLast?.getD b := by
    rw [List.getLast?_append, List.getLast?_cons]
    rfl
  refine ⟨⟨?_, ?_, ?_⟩, ?_⟩
  · refine isChain_wire (isChain_wire ha.1 ?_ (List.nodup_cons.1 hal).1) (getLast_notMem_dropLast hal) ?_
    · exact fun hmem' => hdis _ (List.mem_of_mem_dropLast hmem') _ (getLast_mem b r) rfl
    · exact fun hmem' => hdis _ (List.mem_cons_of_mem a hmem') _ List.mem_cons_self rfl
  · refine isChain_wire (isChain_wire hb.1 (getLast_notMem_dropLast hbr) ?_) ?_ (List.nodup_cons.1 hbr).1
    · exact fun hmem' => hdis _ List.mem_cons_self _ (List.mem_cons_of_mem b hmem') rfl
    · exact fun hmem' => hdis _ (getLast_mem a l) _ (List.mem_of_mem_dropLast hmem') rfl
  · intro x hx y hy
    rw [List.getLast?_cons, Option.mem_some_iff] at hx
    rw [List.head?_cons, Option.mem_some_iff] at hy
    rw [← hx, ← hy]
    exact link_wire_self ..
  · rw [hlast]
    refine (link_wire_self f _ a).wire (fun heq => hdis _ (getLast_mem a l) _ (getLast_mem b r) heq.symm) fun heq => ?_
    exact hdis _ List.mem_cons_self _ List.mem_cons_self heq

end wire

end DoubleLinks

/-! ## Several lists -/

/-- Lists, by the cells at their heads. -/
abbrev Heads (α : Type*) := α → Option (List α)

namespace Heads

variable {A : Heads α} {g h x : α} {l l' : List α}

/-- The head of a list and its nodes. -/
def cells (A : Heads α) (h : α) : List α := (A h).elim [] (h :: ·)

/-- A cell that is no head and on no list. -/
def Free (A : Heads α) (x : α) : Prop := ∀ h, x ∉ A.cells h

/-- No cell is in two places. -/
structure Apart (A : Heads α) : Prop where
  nodup : ∀ h, (A.cells h).Nodup
  disjoint : ∀ g h, g ≠ h → (A.cells g).Disjoint (A.cells h)

theorem cells_of_eq (hl : A h = some l) : A.cells h = h :: l := by rw [cells, hl]; rfl

theorem cells_update [DecidableEq α] :
    Heads.cells (Function.update A h (some l)) g = if g = h then h :: l else A.cells g := by
  by_cases hg : g = h
  · rw [hg, if_pos rfl]
    exact cells_of_eq (Function.update_self ..)
  · rw [if_neg hg, cells, Function.update_of_ne hg, cells]

/-- A cell has one place. -/
theorem Apart.eq_of_mem (H : A.Apart) (hg : x ∈ A.cells g) (hh : x ∈ A.cells h) : g = h := by
  by_contra hne
  exact H.disjoint g h hne hg hh

/-- One list changes. -/
theorem Apart.change [DecidableEq α] (H : A.Apart) (hnd : (h :: l').Nodup)
    (hnew : ∀ x ∈ h :: l', x ∈ A.cells h ∨ A.Free x) :
    Apart (Function.update A h (some l')) := by
  have hout : ∀ g, g ≠ h → (A.cells g).Disjoint (h :: l') := by
    intro g hg x hx hx'
    rcases hnew x hx' with hmem | hfree
    · exact hg (H.eq_of_mem hx hmem)
    · exact hfree g hx
  constructor
  · intro g
    rw [cells_update]
    split
    · exact hnd
    · exact H.nodup g
  · intro g g' hne
    rw [cells_update, cells_update]
    split <;> split
    · simp_all
    · exact (hout g' ‹_›).symm
    · exact hout g ‹_›
    · exact H.disjoint g g' hne

end Heads

namespace DoubleLinks

variable {f f' : DoubleLinks α} {A : Heads α} {h : α} {l' : List α}

/-- The links run around every list, and no cell is in two places. -/
structure Represents (f : DoubleLinks α) (A : Heads α) : Prop extends A.Apart where
  round : ∀ h, f.Round (A.cells h : Cycle α)

theorem Represents.round_of_eq (H : f.Represents A) {l : List α} (hl : A h = some l) :
    f.Round (h :: l : List α) := Heads.cells_of_eq hl ▸ H.round h

theorem Represents.nodup_of_eq (H : f.Represents A) {l : List α} (hl : A h = some l) :
    (h :: l).Nodup := Heads.cells_of_eq hl ▸ H.nodup h

/-- One list changes, by writes to its cells and to free ones. -/
theorem Represents.change [DecidableEq α] (H : f.Represents A) (hround : f'.Round (h :: l' : List α))
    (hnd : (h :: l').Nodup) (hnew : ∀ x ∈ h :: l', x ∈ A.cells h ∨ A.Free x)
    (hframe : ∀ x, x ∉ A.cells h → x ∉ h :: l' → f'.next x = f.next x ∧ f'.prev x = f.prev x) :
    f'.Represents (Function.update A h (some l')) where
  toApart := H.toApart.change hnd hnew
  round g := by
    rw [Heads.cells_update]
    split
    · exact hround
    · rename_i hg
      have hsame : ∀ x ∈ A.cells g, f'.next x = f.next x ∧ f'.prev x = f.prev x := by
        intro x hx
        refine hframe x (fun hmem => hg (H.eq_of_mem hx hmem)) fun hmem => ?_
        rcases hnew x hmem with hmem | hfree
        · exact hg (H.eq_of_mem hx hmem)
        · exact hfree g hx
      exact (H.round g).congr (fun x hx => (hsame x hx).1) fun x hx => (hsame x hx).2

end DoubleLinks

end SadOS
