import SadOS.Lib.SplayRound
import Mathlib.Data.Set.Insert

/-!
# The splay tree is an ordered set

A comparison function gives a total order of the keys of the elements; two elements
whose comparison is `0` are equal for the tree.  `Splay.Holds` says that the tree in
memory is a search tree whose elements are the abstract set.  The operations keep it:
each splays the tree, after which the root separates what lies before the item from what
lies after it, and changes the tree at the root.

## Main definitions

* `CmpOrder` — the comparison function is a total order.
* `Splay.Shape`, `Splay.Holds` — the tree in memory, and the set that it stands for.
* `SplayCall`, `SetCall`, `SetRun` — calls, and what they do to a set.

## Main results

* `Splay.Shape.splayRoot`, `Splay.Shape.splayLeft`, `Splay.Shape.splayRight` — splaying.
* `splayRun_refines` — every run of calls is a run of the set.
-/

namespace SadOS

open BinaryTree TopDown

variable {α : Type} {cmp : α → α → ℤ}

/-- The comparison function is a total order of the keys of the elements. -/
structure CmpOrder (cmp : α → α → ℤ) : Prop where
  swap : ∀ a b, cmp a b < 0 ↔ 0 < cmp b a
  trans : ∀ a b c, cmp a b ≤ 0 → cmp b c ≤ 0 → cmp a c ≤ 0

namespace CmpOrder

theorem self (h : CmpOrder cmp) (a : α) : cmp a a = 0 := by
  have := h.swap a a
  omega

theorem symm (h : CmpOrder cmp) {a b : α} (hab : cmp a b = 0) : cmp b a = 0 := by
  have h1 := h.swap a b
  have h2 := h.swap b a
  omega

theorem lt_of_le_of_lt (h : CmpOrder cmp) {a b c : α} (hab : cmp a b ≤ 0) (hbc : cmp b c < 0) :
    cmp a c < 0 := by
  by_contra hac
  have hca : cmp c a ≤ 0 := by
    have := h.swap c a
    have := h.swap a c
    omega
  have hcb := h.trans c a b hca hab
  have := h.swap b c
  omega

end CmpOrder

/-- The nodes are in the order of their elements. -/
def Ordered (cmp : α → α → ℤ) (bs : List (ℕ × α)) : Prop := bs.Pairwise fun a b => cmp a.2 b.2 < 0

theorem Ordered.splits (hcmp : CmpOrder cmp) {bs : List (ℕ × α)} (h : Ordered cmp bs) (data : α) :
    Splits (fun b : ℕ × α => cmp data b.2) bs := by
  apply List.Pairwise.imp _ h
  intro a b hab
  rcases lt_or_ge 0 (cmp data a.2) with hpos | hle
  · exact .inl hpos
  · exact .inr (hcmp.lt_of_le_of_lt hle hab)

/-- The tree is in memory, and the pool knows which nodes are free. -/
structure Splay.Shape (s : Splay α) (t : BinaryTree (ℕ × α)) : Prop where
  root : s.root = addrOf t
  stored : Stored s.nodes t
  nodup : (addrs (inorder t) ++ s.freeList).Nodup
  range : ∀ a ∈ addrs (inorder t) ++ s.freeList, tmpRoot < a ∧ a < s.nextNode
  next : tmpRoot < s.nextNode

/-- The tree is a search tree whose elements are `S`. -/
def Splay.Holds (cmp : α → α → ℤ) (s : Splay α) (S : Set α) : Prop :=
  ∃ t, s.Shape t ∧ Ordered cmp (inorder t) ∧ S = {a | a ∈ (inorder t).map Prod.snd}

/-- `NULL` is the address of the empty tree only. -/
theorem addrOf_eq_zero {t : BinaryTree (ℕ × α)} (hpos : 0 ∉ addrs (inorder t)) :
    addrOf t = 0 ↔ t = .nil := by
  cases t with
  | nil => simp
  | node b l r =>
    simp only [addrOf_node, reduceCtorEq, iff_false]
    intro h0
    exact hpos (by simp [← h0])

namespace Splay.Shape

variable {s : Splay α} {t : BinaryTree (ℕ × α)}

theorem nodup_root (h : s.Shape t) : (tmpRoot :: addrs (inorder t)).Nodup := by
  apply List.nodup_cons.2
  constructor
  · intro hmem
    have := h.range _ (List.mem_append_left _ hmem)
    omega
  · exact h.nodup.of_append_left

theorem pos (h : s.Shape t) : 0 ∉ addrs (inorder t) := by
  intro hmem
  have := h.range _ (List.mem_append_left _ hmem)
  omega

theorem numNodes_eq (t : BinaryTree (ℕ × α)) : t.numNodes = (addrs (inorder t)).length := by
  induction t with
  | nil => rfl
  | node b l r ihl ihr =>
    simp only [BinaryTree.numNodes, inorder_node, addrs_append, addrs_cons, List.length_append,
      List.length_cons, ihl, ihr]
    omega

/-- There are enough rounds. -/
theorem numNodes_le (h : s.Shape t) : t.numNodes ≤ s.nextNode := by
  have hsub : addrs (inorder t) ⊆ List.range s.nextNode := fun a ha =>
    List.mem_range.2 (h.range a (List.mem_append_left _ ha)).2
  have hle := (List.subperm_of_subset h.nodup.of_append_left hsub).length_le
  rwa [List.length_range, ← numNodes_eq] at hle

theorem root_eq_zero (h : s.Shape t) : s.root = 0 ↔ t = .nil := by
  rw [h.root, addrOf_eq_zero h.pos]

/-- What `splay(data, &s->root, s->cmp)` does. -/
theorem splayRoot (hcmp : CmpOrder cmp) (data : α) (h : s.Shape t) (ho : Ordered cmp (inorder t))
    (hne : t ≠ .nil) :
    ∃ s' d l r, s.splayRoot cmp data = some s' ∧ s'.Shape (.node d l r) ∧
      inorder (.node d l r) = inorder t ∧ (∀ b ∈ inorder l, 0 < cmp data b.2) ∧
      ∀ b ∈ inorder r, cmp data b.2 < 0 := by
  have hsplit := ho.splits hcmp data
  obtain ⟨m', hrun, hstored, -⟩ :=
    splay_stored cmp data h.stored h.nodup_root h.pos hsplit hne h.numNodes_le
  obtain ⟨d, l, r, htree, hl, hr⟩ := separated_splay hsplit hne h.numNodes_le
  have hin := inorder_splay hsplit hne h.numNodes_le
  rw [htree] at hrun hstored hin
  refine ⟨{ s with root := d.1, nodes := m' }, d, l, r, ?_, ?_, hin, hl, hr⟩
  · simp [Splay.splayRoot, h.root, hrun]
  · exact ⟨rfl, hstored, hin ▸ h.nodup, hin ▸ h.range, h.next⟩

/-- The subtrees of the root are apart from each other, from the root and from `tmp_root`. -/
theorem subtrees {d : ℕ × α} {l r : BinaryTree (ℕ × α)} (h : s.Shape (.node d l r)) :
    (tmpRoot :: addrs (inorder l)).Nodup ∧ (tmpRoot :: addrs (inorder r)).Nodup ∧
      d.1 ≠ tmpRoot ∧ d.1 ∉ addrs (inorder l) ∧ d.1 ∉ addrs (inorder r) ∧
      ∀ a ∈ addrs (inorder l), a ∉ addrs (inorder r) := by
  have hnd := h.nodup_root
  simp only [inorder_node, addrs_append, addrs_cons] at hnd
  refine ⟨by grind, by grind, by grind, by grind, by grind, ?_⟩
  intro a ha ha'
  exact (List.nodup_append.1 (List.nodup_cons.1 hnd).2).2.2 a ha a (List.mem_cons_of_mem _ ha') rfl

theorem numNodes_subtrees {d : ℕ × α} {l r : BinaryTree (ℕ × α)} (h : s.Shape (.node d l r)) :
    l.numNodes ≤ s.nextNode ∧ r.numNodes ≤ s.nextNode := by
  have hle := h.numNodes_le
  simp only [BinaryTree.numNodes] at hle
  omega

/-- What `splay(data, &t->left, s->cmp)` does at the root `t`. -/
theorem splayLeft (hcmp : CmpOrder cmp) (data : α) {d : ℕ × α} {l r : BinaryTree (ℕ × α)}
    (h : s.Shape (.node d l r)) (ho : Ordered cmp (inorder l)) (hne : l ≠ .nil) :
    ∃ s' e ll lr, s.splayLeft cmp data d.1 = some s' ∧ s'.Shape (.node d (.node e ll lr) r) ∧
      inorder (.node e ll lr) = inorder l ∧ (∀ b ∈ inorder ll, 0 < cmp data b.2) ∧
      ∀ b ∈ inorder lr, cmp data b.2 < 0 := by
  obtain ⟨hleft, hright, hdata, hsl, hsr⟩ := h.stored
  obtain ⟨hndl, hndr, hdroot, hdl, hdr, hdisj⟩ := h.subtrees
  have hsplit := ho.splits hcmp data
  have hpos : 0 ∉ addrs (inorder l) := fun h0 => h.pos (by simp [h0])
  obtain ⟨m', hrun, hstored, hoff⟩ :=
    splay_stored cmp data hsl hndl hpos hsplit hne h.numNodes_subtrees.1
  obtain ⟨e, ll, lr, htree, hll, hlr⟩ := separated_splay hsplit hne h.numNodes_subtrees.1
  have hin := inorder_splay hsplit hne h.numNodes_subtrees.1
  rw [htree] at hrun hstored hin
  have hleft' : m'.left d.1 = some (addrOf l) := (hoff.left _ hdroot hdl).trans hleft
  refine ⟨{ s with nodes := m'.putLeft d.1 e.1 }, e, ll, lr, ?_, ?_, hin, hll, hlr⟩
  · simp [Splay.splayLeft, hleft, hrun, SplayNodes.setLeft_eq (m := m') (p := d.1), hleft']
  · have hsr' : Stored m' r := hsr.congr fun a ha => by
      have hroot : a ≠ tmpRoot := by
        rintro rfl
        exact (List.nodup_cons.1 hndr).1 ha
      have hal : a ∉ addrs (inorder l) := fun hal => hdisj a hal ha
      exact ⟨hoff.left a hroot hal, hoff.right a hroot hal, hoff.data a hroot⟩
    have hin' : inorder (.node d (.node e ll lr) r) = inorder (.node d l r) := by
      rw [inorder_node, hin, ← inorder_node]
    refine ⟨h.root, ⟨by simp, ?_, ?_, hstored.putLeft (hin ▸ hdl) _, hsr'.putLeft hdr _⟩,
      hin' ▸ h.nodup, hin' ▸ h.range, h.next⟩
    · exact (hoff.right _ hdroot hdl).trans hright
    · exact (hoff.data _ hdroot).trans hdata

/-- What `splay(data, &t->right, s->cmp)` does at the root `t`. -/
theorem splayRight (hcmp : CmpOrder cmp) (data : α) {d : ℕ × α} {l r : BinaryTree (ℕ × α)}
    (h : s.Shape (.node d l r)) (ho : Ordered cmp (inorder r)) (hne : r ≠ .nil) :
    ∃ s' e rl rr, s.splayRight cmp data d.1 = some s' ∧ s'.Shape (.node d l (.node e rl rr)) ∧
      inorder (.node e rl rr) = inorder r ∧ (∀ b ∈ inorder rl, 0 < cmp data b.2) ∧
      ∀ b ∈ inorder rr, cmp data b.2 < 0 := by
  obtain ⟨hleft, hright, hdata, hsl, hsr⟩ := h.stored
  obtain ⟨hndl, hndr, hdroot, hdl, hdr, hdisj⟩ := h.subtrees
  have hsplit := ho.splits hcmp data
  have hpos : 0 ∉ addrs (inorder r) := fun h0 => h.pos (by simp [h0])
  obtain ⟨m', hrun, hstored, hoff⟩ :=
    splay_stored cmp data hsr hndr hpos hsplit hne h.numNodes_subtrees.2
  obtain ⟨e, rl, rr, htree, hrl, hrr⟩ := separated_splay hsplit hne h.numNodes_subtrees.2
  have hin := inorder_splay hsplit hne h.numNodes_subtrees.2
  rw [htree] at hrun hstored hin
  have hright' : m'.right d.1 = some (addrOf r) := (hoff.right _ hdroot hdr).trans hright
  refine ⟨{ s with nodes := m'.putRight d.1 e.1 }, e, rl, rr, ?_, ?_, hin, hrl, hrr⟩
  · simp [Splay.splayRight, hright, hrun, SplayNodes.setRight_eq (m := m') (p := d.1), hright']
  · have hsl' : Stored m' l := hsl.congr fun a ha => by
      have hroot : a ≠ tmpRoot := by
        rintro rfl
        exact (List.nodup_cons.1 hndl).1 ha
      have har : a ∉ addrs (inorder r) := hdisj a ha
      exact ⟨hoff.left a hroot har, hoff.right a hroot har, hoff.data a hroot⟩
    have hin' : inorder (.node d l (.node e rl rr)) = inorder (.node d l r) := by
      rw [inorder_node, hin, ← inorder_node]
    refine ⟨h.root, ⟨?_, by simp, ?_, hsl'.putRight hdl _, hstored.putRight (hin ▸ hdr) _⟩,
      hin' ▸ h.nodup, hin' ▸ h.range, h.next⟩
    · exact (hoff.left _ hdroot hdr).trans hleft
    · exact (hoff.data _ hdroot).trans hdata

end Splay.Shape

/-- What `obj_pool_alloc` gives: a node that is neither in the tree nor free. -/
theorem Splay.Shape.alloc {s : Splay α} {t : BinaryTree (ℕ × α)} (h : s.Shape t) :
    ∃ p s', s.alloc = (p, s') ∧ s'.Shape t ∧ p ∉ addrs (inorder t) ++ s'.freeList ∧
      tmpRoot < p ∧ p < s'.nextNode ∧ (s'.nodes.left p).isSome ∧ (s'.nodes.right p).isSome := by
  have hstored : ∀ p, p ∉ addrs (inorder t) → Stored (s.nodes.make p) t := by
    intro p hp
    apply h.stored.congr
    intro a ha
    have hne : a ≠ p := by
      rintro rfl
      exact hp ha
    exact ⟨Function.update_of_ne hne _ _, Function.update_of_ne hne _ _,
      Function.update_of_ne hne _ _⟩
  have hnd := h.nodup
  have hrange := h.range
  cases hfree : s.freeList with
  | nil =>
    rw [hfree] at hnd hrange
    have hnew : s.nextNode ∉ addrs (inorder t) ++ [] := fun hmem => by
      have := (hrange _ hmem).2
      omega
    refine ⟨s.nextNode, { s with nextNode := s.nextNode + 1, nodes := s.nodes.make s.nextNode },
      by simp [Splay.alloc, hfree], ⟨h.root, hstored _ (by simpa using hnew),
        by simpa [hfree] using hnd, ?_, ?_⟩, by simpa [hfree] using hnew, h.next, by simp, by simp [SplayNodes.make],
        by simp [SplayNodes.make]⟩
    · intro a ha
      have := hrange a (by simpa [hfree] using ha)
      exact ⟨this.1, by simp only; omega⟩
    · have := h.next
      simp only
      omega
  | cons p rest =>
    rw [hfree] at hnd hrange
    have hnd' := List.nodup_middle.1 hnd
    refine ⟨p, { s with freeList := rest, nodes := s.nodes.make p }, by simp [Splay.alloc, hfree],
      ⟨h.root, hstored _ ?_, (List.nodup_cons.1 hnd').2, ?_, h.next⟩,
      (List.nodup_cons.1 hnd').1, (hrange p (by simp)).1, (hrange p (by simp)).2,
      by simp [SplayNodes.make], by simp [SplayNodes.make]⟩
    · exact fun hmem => (List.nodup_cons.1 hnd').1 (List.mem_append_left _ hmem)
    · intro a ha
      exact hrange a (by simp only [List.mem_append, List.mem_cons] at ha ⊢; tauto)

/-! ### The set -/

/-- The tree after `splay(data, &s->root, s->cmp)`. -/
structure Rooted (cmp : α → α → ℤ) (data : α) (S : Set α) (s : Splay α) (d : ℕ × α)
    (l r : BinaryTree (ℕ × α)) : Prop where
  shape : s.Shape (.node d l r)
  ordered : Ordered cmp (inorder (.node d l r))
  elems : S = {a | a ∈ (inorder (.node d l r)).map Prod.snd}
  before : ∀ b ∈ inorder l, 0 < cmp data b.2
  after : ∀ b ∈ inorder r, cmp data b.2 < 0

theorem Splay.Holds.splayRoot (hcmp : CmpOrder cmp) {s : Splay α} {S : Set α}
    (h : s.Holds cmp S) (data : α) :
    (s.root = 0 ∧ S = ∅ ∧ s.Shape .nil) ∨
      (s.root ≠ 0 ∧ ∃ s' d l r, s.splayRoot cmp data = some s' ∧ Rooted cmp data S s' d l r) := by
  obtain ⟨t, hshape, ho, rfl⟩ := h
  rcases eq_or_ne t .nil with rfl | hne
  · exact .inl ⟨hshape.root_eq_zero.2 rfl, by simp, hshape⟩
  · obtain ⟨s', d, l, r, hrun, hshape', hin, hl, hr⟩ := hshape.splayRoot hcmp data ho hne
    exact .inr ⟨mt hshape.root_eq_zero.1 hne, s', d, l, r, hrun, hshape', hin ▸ ho, by rw [hin],
      hl, hr⟩

namespace Rooted

variable {data : α} {S : Set α} {s : Splay α} {d : ℕ × α} {l r : BinaryTree (ℕ × α)}

theorem holds (h : Rooted cmp data S s d l r) : s.Holds cmp S := ⟨_, h.shape, h.ordered, h.elems⟩

theorem root (h : Rooted cmp data S s d l r) : s.root = d.1 := h.shape.root

theorem left (h : Rooted cmp data S s d l r) : s.nodes.left d.1 = some (addrOf l) :=
  h.shape.stored.1

theorem right (h : Rooted cmp data S s d l r) : s.nodes.right d.1 = some (addrOf r) :=
  h.shape.stored.2.1

theorem data_eq (h : Rooted cmp data S s d l r) : s.nodes.data d.1 = some d.2 :=
  h.shape.stored.2.2.1

theorem mem_iff (h : Rooted cmp data S s d l r) {a : α} :
    a ∈ S ↔ (∃ b ∈ inorder l, b.2 = a) ∨ a = d.2 ∨ ∃ b ∈ inorder r, b.2 = a := by
  rw [h.elems]
  simp only [inorder_node, List.map_append, List.map_cons, Set.mem_ofPred_eq, List.mem_append,
    List.mem_cons, List.mem_map]

/-- The root is the only element that can be equal to the item. -/
theorem eq_root (h : Rooted cmp data S s d l r) {a : α} (ha : a ∈ S) (heq : cmp data a = 0) :
    a = d.2 := by
  rcases h.mem_iff.1 ha with ⟨b, hb, rfl⟩ | rfl | ⟨b, hb, rfl⟩
  · have := h.before b hb
    omega
  · rfl
  · have := h.after b hb
    omega

theorem root_mem (h : Rooted cmp data S s d l r) : d.2 ∈ S := h.mem_iff.2 (.inr (.inl rfl))

theorem left_ne_zero (h : Rooted cmp data S s d l r) (hne : l ≠ .nil) : addrOf l ≠ 0 :=
  mt (addrOf_eq_zero fun h0 => h.shape.pos (by simp [h0])).1 hne

theorem right_ne_zero (h : Rooted cmp data S s d l r) (hne : r ≠ .nil) : addrOf r ≠ 0 :=
  mt (addrOf_eq_zero fun h0 => h.shape.pos (by simp [h0])).1 hne

theorem absent (h : Rooted cmp data S s d l r) (hne : cmp data d.2 ≠ 0) :
    ∀ a ∈ S, cmp data a ≠ 0 := by
  intro a ha heq
  rw [h.eq_root ha heq] at heq
  exact hne heq

end Rooted

/-- The calls on a tree. -/
inductive SplayCall (α : Type)
  | insert (data : α)
  | delete (data : α)
  | find (data : α)

def SplayCall.run (cmp : α → α → ℤ) (s : Splay α) : SplayCall α → Option (Option α × Splay α)
  | .insert data => splayInsert cmp s data
  | .delete data => splayDelete cmp s data
  | .find data => splayFind cmp s data

/-- What a call on the set `S` may return, and the set afterwards. -/
def SetCall (cmp : α → α → ℤ) (S : Set α) : SplayCall α → Option α → Set α → Prop
  | .insert data, ret, S' =>
    (∃ e ∈ S, cmp data e = 0 ∧ ret = some e ∧ S' = S) ∨
      ((∀ e ∈ S, cmp data e ≠ 0) ∧ ret = none ∧ S' = Insert.insert data S)
  | .delete data, ret, S' =>
    (∃ e ∈ S, cmp data e = 0 ∧ ret = some e ∧ S' = S \ {e}) ∨
      ((∀ e ∈ S, cmp data e ≠ 0) ∧ ret = none ∧ S' = S)
  | .find data, ret, S' =>
    (∃ e ∈ S, cmp data e = 0 ∧ ret = some e ∧ S' = S) ∨
      ((∀ e ∈ S, cmp data e ≠ 0) ∧ ret = none ∧ S' = S)

/-- A call on the tree does what it does on the set. -/
def Refines (cmp : α → α → ℤ) (S : Set α) (call : SplayCall α)
    (out : Option (Option α × Splay α)) : Prop :=
  ∃ ret s' S', out = some (ret, s') ∧ SetCall cmp S call ret S' ∧ s'.Holds cmp S'

theorem splayFind_refines (hcmp : CmpOrder cmp) {s : Splay α} {S : Set α} (h : s.Holds cmp S)
    (data : α) : Refines cmp S (.find data) (splayFind cmp s data) := by
  rcases h.splayRoot hcmp data with ⟨hroot, rfl, hshape⟩ | ⟨hroot, s', d, l, r, hrun, hrooted⟩
  · exact ⟨none, s, ∅, by simp [splayFind, hroot], .inr ⟨by simp, rfl, rfl⟩, h⟩
  · rw [splayFind, if_neg hroot]
    simp only [hrun, Option.bind_eq_bind, Option.bind_some, hrooted.root, hrooted.data_eq]
    by_cases heq : cmp data d.2 = 0
    · rw [if_pos heq]
      exact ⟨some d.2, s', S, rfl, .inl ⟨d.2, hrooted.root_mem, heq, rfl, rfl⟩, hrooted.holds⟩
    · rw [if_neg heq]
      exact ⟨none, s', S, rfl, .inr ⟨hrooted.absent heq, rfl, rfl⟩, hrooted.holds⟩

theorem Stored.putData {m : SplayNodes α} {t : BinaryTree (ℕ × α)} (h : Stored m t) {p : ℕ}
    (hp : p ∉ addrs (inorder t)) (data : α) : Stored (m.putData p data) t := by
  apply h.congr
  intro a ha
  have hne : a ≠ p := by
    rintro rfl
    exact hp ha
  exact ⟨rfl, rfl, Function.update_of_ne hne _ _⟩

/-- The new node becomes the root, with the root as its right child. -/
theorem Splay.Shape.insertBefore {s : Splay α} {d : ℕ × α} {l r : BinaryTree (ℕ × α)}
    (h : s.Shape (.node d l r)) {p : ℕ} (hp : p ∉ addrs (inorder (.node d l r)) ++ s.freeList)
    (hroot : tmpRoot < p) (hnext : p < s.nextNode) (data : α) :
    Splay.Shape { s with
      root := p
      nodes := (((s.nodes.putData p data).putLeft p (addrOf l)).putRight p d.1).putLeft d.1 0 }
      (.node (p, data) l (.node d .nil r)) := by
  obtain ⟨hleft, hright, hdata, hsl, hsr⟩ := h.stored
  obtain ⟨-, -, -, hdl, hdr, -⟩ := h.subtrees
  simp only [inorder_node, addrs_append, addrs_cons, List.mem_append, List.mem_cons, not_or] at hp
  obtain ⟨⟨hpl, hpd, hpr⟩, hpf⟩ := hp
  have hnd := h.nodup
  simp only [inorder_node, addrs_append, addrs_cons, List.append_assoc, List.cons_append] at hnd
  refine ⟨rfl, ⟨?_, by simp, by simp, ?_, ⟨by simp, ?_, ?_, trivial, ?_⟩⟩, ?_, ?_, h.next⟩
  · simp [Function.update_of_ne hpd]
  · exact (((hsl.putData hpl _).putLeft hpl _).putRight hpl _).putLeft hdl _
  · simp [Function.update_of_ne (Ne.symm hpd), hright]
  · simp [Function.update_of_ne (Ne.symm hpd), hdata]
  · exact (((hsr.putData hpr _).putLeft hpr _).putRight hpr _).putLeft hdr _
  · simp only [inorder_node, inorder_nil, addrs_append, addrs_cons, List.nil_append,
      List.append_assoc, List.cons_append]
    apply List.nodup_middle.2
    exact List.nodup_cons.2 ⟨by simp [hpl, hpd, hpr, hpf], hnd⟩
  · intro a ha
    have hrange := h.range a
    simp only [inorder_node, inorder_nil, addrs_append, addrs_cons, List.nil_append,
      List.append_assoc, List.cons_append, List.mem_append, List.mem_cons] at ha hrange
    rcases ha with ha | rfl | ha
    · exact hrange (.inl ha)
    · exact ⟨hroot, hnext⟩
    · exact hrange (.inr ha)

/-- The new node becomes the root, with the root as its left child. -/
theorem Splay.Shape.insertAfter {s : Splay α} {d : ℕ × α} {l r : BinaryTree (ℕ × α)}
    (h : s.Shape (.node d l r)) {p : ℕ} (hp : p ∉ addrs (inorder (.node d l r)) ++ s.freeList)
    (hroot : tmpRoot < p) (hnext : p < s.nextNode) (data : α) :
    Splay.Shape { s with
      root := p
      nodes := (((s.nodes.putData p data).putRight p (addrOf r)).putLeft p d.1).putRight d.1 0 }
      (.node (p, data) (.node d l .nil) r) := by
  obtain ⟨hleft, hright, hdata, hsl, hsr⟩ := h.stored
  obtain ⟨-, -, -, hdl, hdr, -⟩ := h.subtrees
  simp only [inorder_node, addrs_append, addrs_cons, List.mem_append, List.mem_cons, not_or] at hp
  obtain ⟨⟨hpl, hpd, hpr⟩, hpf⟩ := hp
  have hnd := h.nodup
  simp only [inorder_node, addrs_append, addrs_cons, List.append_assoc, List.cons_append] at hnd
  refine ⟨rfl, ⟨by simp, ?_, by simp, ⟨?_, by simp, ?_, ?_, trivial⟩, ?_⟩, ?_, ?_, h.next⟩
  · simp [Function.update_of_ne hpd]
  · simp [Function.update_of_ne (Ne.symm hpd), hleft]
  · simp [Function.update_of_ne (Ne.symm hpd), hdata]
  · exact (((hsl.putData hpl _).putRight hpl _).putLeft hpl _).putRight hdl _
  · exact (((hsr.putData hpr _).putRight hpr _).putLeft hpr _).putRight hdr _
  · simp only [inorder_node, inorder_nil, addrs_append, addrs_cons, List.append_assoc,
      List.cons_append, List.nil_append]
    have hperm : (addrs (inorder l) ++ d.1 :: p :: (addrs (inorder r) ++ s.freeList)).Perm
        (p :: (addrs (inorder l) ++ d.1 :: (addrs (inorder r) ++ s.freeList))) := by
      have hmid : ((addrs (inorder l) ++ [d.1]) ++ p :: (addrs (inorder r) ++ s.freeList)).Perm
          (p :: ((addrs (inorder l) ++ [d.1]) ++ (addrs (inorder r) ++ s.freeList))) :=
        List.perm_middle
      simpa using hmid
    exact hperm.nodup_iff.2 (List.nodup_cons.2 ⟨by simp [hpl, hpd, hpr, hpf], hnd⟩)
  · intro a ha
    have hrange := h.range a
    simp only [inorder_node, inorder_nil, addrs_append, addrs_cons,
      List.append_assoc, List.cons_append, List.nil_append, List.mem_append, List.mem_cons]
      at ha hrange
    rcases ha with ha | ha | rfl | ha
    · exact hrange (.inl ha)
    · exact hrange (.inr (.inl ha))
    · exact ⟨hroot, hnext⟩
    · exact hrange (.inr (.inr ha))

/-- A new element between those before it and those after it. -/
theorem Ordered.insert {bs ds : List (ℕ × α)} (h : Ordered cmp (bs ++ ds)) {p : ℕ} {data : α}
    (hb : ∀ b ∈ bs, cmp b.2 data < 0) (hd : ∀ b ∈ ds, cmp data b.2 < 0) :
    Ordered cmp (bs ++ (p, data) :: ds) := by
  obtain ⟨hbs, hds, hbd⟩ := List.pairwise_append.1 h
  apply List.pairwise_append.2
  refine ⟨hbs, List.pairwise_cons.2 ⟨hd, hds⟩, ?_⟩
  intro a ha b hb'
  rcases List.mem_cons.1 hb' with rfl | hb'
  · exact hb a ha
  · exact hbd a ha b hb'

/-- The new node is the whole tree. -/
theorem Splay.Shape.insertFirst {s : Splay α} (h : s.Shape .nil) {p : ℕ} (hp : p ∉ s.freeList)
    (hroot : tmpRoot < p) (hnext : p < s.nextNode) (data : α) :
    Splay.Shape { s with
      root := p, nodes := ((s.nodes.putData p data).putRight p 0).putLeft p 0 }
      (.node (p, data) .nil .nil) := by
  refine ⟨rfl, ⟨by simp, by simp, by simp, trivial, trivial⟩, ?_, ?_, h.next⟩
  · exact List.nodup_cons.2 ⟨hp, h.nodup⟩
  · intro a ha
    rcases List.mem_cons.1 ha with rfl | ha
    · exact ⟨hroot, hnext⟩
    · exact h.range a (by simpa using ha)

namespace Rooted

variable {data : α} {S : Set α} {s s' : Splay α} {d : ℕ × α} {l r : BinaryTree (ℕ × α)} {p : ℕ}

/-- Before a greater root there is room for the item. -/
theorem insertBefore (hcmp : CmpOrder cmp) (h : Rooted cmp data S s d l r)
    (hlt : cmp data d.2 < 0) (hs' : s'.Shape (.node (p, data) l (.node d .nil r))) :
    s'.Holds cmp (Insert.insert data S) := by
  refine ⟨_, hs', ?_, ?_⟩
  · have ho := h.ordered
    simp only [inorder_node, inorder_nil, List.nil_append] at ho ⊢
    apply ho.insert fun b hb => (hcmp.swap _ _).2 (h.before b hb)
    rintro b (_ | ⟨_, hb⟩)
    · exact hlt
    · exact h.after b hb
  · ext a
    rw [Set.mem_insert_iff, h.elems]
    simp
    tauto

/-- After a smaller root there is room for the item. -/
theorem insertAfter (hcmp : CmpOrder cmp) (h : Rooted cmp data S s d l r)
    (hgt : 0 < cmp data d.2) (hs' : s'.Shape (.node (p, data) (.node d l .nil) r)) :
    s'.Holds cmp (Insert.insert data S) := by
  refine ⟨_, hs', ?_, ?_⟩
  · have ho : Ordered cmp ((inorder l ++ [d]) ++ inorder r) := by simpa using h.ordered
    have hless : ∀ b ∈ inorder l ++ [d], cmp b.2 data < 0 := by
      intro b hb
      rcases List.mem_append.1 hb with hb | hb
      · exact (hcmp.swap _ _).2 (h.before b hb)
      · rw [List.mem_singleton.1 hb]
        exact (hcmp.swap _ _).2 hgt
    have hnew := ho.insert (p := p) hless h.after
    simpa using hnew
  · ext a
    rw [Set.mem_insert_iff, h.elems]
    simp
    tauto

end Rooted

theorem splayInsert_refines (hcmp : CmpOrder cmp) {s : Splay α} {S : Set α} (h : s.Holds cmp S)
    (data : α) : Refines cmp S (.insert data) (splayInsert cmp s data) := by
  rcases h.splayRoot hcmp data with ⟨hroot, rfl, hshape⟩ | ⟨hroot, s', d, l, r, hrun, hrooted⟩
  · obtain ⟨p, s₁, halloc, hshape₁, hp, hproot, hpnext, hpl, hpr⟩ := hshape.alloc
    have hnew := hshape₁.insertFirst (by simpa using hp) hproot hpnext data
    refine ⟨none, _, {data}, ?_, .inr ⟨by simp, rfl, by simp⟩, _, hnew, by simp [Ordered], by simp⟩
    simp [splayInsert, hroot, halloc, SplayNodes.setData_eq hpl, SplayNodes.setRight_eq,
      SplayNodes.setLeft_eq, hpl, hpr]
  · rw [splayInsert, if_neg hroot]
    simp only [hrun, Option.bind_eq_bind, Option.bind_some, hrooted.root, hrooted.data_eq]
    by_cases heq : cmp data d.2 = 0
    · rw [if_pos heq]
      exact ⟨some d.2, s', S, rfl, .inl ⟨d.2, hrooted.root_mem, heq, rfl, rfl⟩, hrooted.holds⟩
    · obtain ⟨p, s₁, halloc, hshape₁, hp, hproot, hpnext, hpl, hpr⟩ := hrooted.shape.alloc
      have habsent := hrooted.absent heq
      obtain ⟨hleft, hright, -⟩ := hshape₁.stored
      have hpd : d.1 ≠ p := by
        rintro rfl
        exact hp (by simp)
      rw [if_neg heq, halloc]
      simp only [SplayNodes.setData_eq hpl, Option.bind_some]
      rcases lt_or_gt_of_ne heq with hlt | hgt
      · refine ⟨none, _, Insert.insert data S, ?_, .inr ⟨habsent, rfl, rfl⟩,
          hrooted.insertBefore hcmp hlt (hshape₁.insertBefore hp hproot hpnext data)⟩
        have hw₁ := SplayNodes.setLeft_eq (m := s₁.nodes.putData p data) hpl (addrOf l)
        have hw₂ := SplayNodes.setRight_eq (m := (s₁.nodes.putData p data).putLeft p (addrOf l))
          hpr d.1
        rw [if_pos hlt, SplayNodes.putData_left, hleft, Option.bind_some, hw₁, Option.bind_some,
          hw₂, Option.bind_some, SplayNodes.setLeft_eq]
        · rfl
        · simp [Function.update_of_ne hpd, hleft]
      · refine ⟨none, _, Insert.insert data S, ?_, .inr ⟨habsent, rfl, rfl⟩,
          hrooted.insertAfter hcmp hgt (hshape₁.insertAfter hp hproot hpnext data)⟩
        have hw₁ := SplayNodes.setRight_eq (m := s₁.nodes.putData p data) hpr (addrOf r)
        have hw₂ := SplayNodes.setLeft_eq (m := (s₁.nodes.putData p data).putRight p (addrOf r))
          hpl d.1
        rw [if_neg (by omega), if_pos hgt, SplayNodes.putData_right, hright, Option.bind_some, hw₁,
          Option.bind_some, hw₂, Option.bind_some, SplayNodes.setRight_eq]
        · rfl
        · simp [Function.update_of_ne hpd, hright]

theorem inorder_eq_nil {t : BinaryTree (ℕ × α)} (h : inorder t = []) : t = .nil := by
  cases t with
  | nil => rfl
  | node b l r => simp at h

/-- What `obj_pool_free` leaves of a tree that the node is not part of. -/
theorem Splay.Shape.free {s : Splay α} {t : BinaryTree (ℕ × α)} {p : ℕ} (hroot : s.root = addrOf t)
    (hstored : Stored s.nodes t) (hnd : (p :: (addrs (inorder t) ++ s.freeList)).Nodup)
    (hrange : ∀ a ∈ p :: (addrs (inorder t) ++ s.freeList), tmpRoot < a ∧ a < s.nextNode) :
    (s.free p).Shape t := by
  have hp := (List.nodup_cons.1 hnd).1
  refine ⟨hroot, ?_, List.nodup_middle.2 hnd, ?_, ?_⟩
  · apply hstored.congr
    intro a ha
    have hne : a ≠ p := by
      rintro rfl
      exact hp (List.mem_append_left _ ha)
    exact ⟨Function.update_of_ne hne _ _, Function.update_of_ne hne _ _,
      Function.update_of_ne hne _ _⟩
  · intro a ha
    exact hrange a (by simp only [Splay.free, List.mem_append, List.mem_cons] at ha ⊢; tauto)
  · have := hrange p (by simp)
    change tmpRoot < s.nextNode
    omega

/-- The root of the left subtree takes the place of the root. -/
theorem Splay.Shape.unlinkRoot {s : Splay α} {d e : ℕ × α} {ll r : BinaryTree (ℕ × α)}
    (h : s.Shape (.node d (.node e ll .nil) r)) :
    (Splay.free { s with root := e.1, nodes := s.nodes.putRight e.1 (addrOf r) } d.1).Shape
      (.node e ll r) := by
  obtain ⟨-, -, -, ⟨heleft, heright, hedata, hsll, -⟩, hsr⟩ := h.stored
  have hnd := h.nodup
  have hperm : (d.1 :: (addrs (inorder (.node e ll r)) ++ s.freeList)).Perm
      (addrs (inorder (.node d (.node e ll .nil) r)) ++ s.freeList) := by
    have hmid : ((addrs (inorder ll) ++ [e.1]) ++ d.1 :: (addrs (inorder r) ++ s.freeList)).Perm
        (d.1 :: ((addrs (inorder ll) ++ [e.1]) ++ (addrs (inorder r) ++ s.freeList))) :=
      List.perm_middle
    simpa using hmid.symm
  have hnd' := hperm.nodup_iff.2 hnd
  have hell : e.1 ∉ addrs (inorder ll) := by
    simp only [inorder_node, addrs_append, addrs_cons] at hnd'
    grind
  have her : e.1 ∉ addrs (inorder r) := by
    simp only [inorder_node, addrs_append, addrs_cons] at hnd'
    grind
  refine Splay.Shape.free
    (s := { s with root := e.1, nodes := s.nodes.putRight e.1 (addrOf r) }) rfl ?_ hnd'
    fun a ha => h.range a (hperm.mem_iff.1 ha)
  exact ⟨heleft, by simp, hedata, hsll.putRight hell _, hsr.putRight her _⟩

theorem Splay.Shape.dropRoot {s : Splay α} {d : ℕ × α} {r : BinaryTree (ℕ × α)}
    (h : s.Shape (.node d .nil r)) : (Splay.free { s with root := addrOf r } d.1).Shape r :=
  Splay.Shape.free rfl h.stored.2.2.2.2 (by simpa using h.nodup) (by simpa using h.range)

/-- Without its root, the tree holds the set without the root's element. -/
theorem Rooted.erase (hcmp : CmpOrder cmp) {data : α} {S : Set α} {s : Splay α} {d : ℕ × α}
    {l r : BinaryTree (ℕ × α)} (h : Rooted cmp data S s d l r) {s' : Splay α}
    {t : BinaryTree (ℕ × α)} (hs' : s'.Shape t) (ht : inorder t = inorder l ++ inorder r) :
    s'.Holds cmp (S \ {d.2}) := by
  have ho : Ordered cmp (inorder l ++ d :: inorder r) := h.ordered
  obtain ⟨hol, hor, hlr⟩ := List.pairwise_append.1 ho
  obtain ⟨hdr, hor'⟩ := List.pairwise_cons.1 hor
  refine ⟨t, hs', ?_, ?_⟩
  · rw [ht]
    exact List.pairwise_append.2 ⟨hol, hor', fun a ha b hb => hlr a ha b (.tail _ hb)⟩
  · ext a
    rw [h.elems, ht]
    simp only [Set.mem_sdiff, Set.mem_ofPred_eq, Set.mem_singleton_iff, List.map_append,
      inorder_node, List.map_cons, List.mem_append, List.mem_cons, List.mem_map]
    have hself := hcmp.self d.2
    constructor
    · rintro ⟨hl | rfl | hr, hne⟩
      · exact .inl hl
      · exact absurd rfl hne
      · exact .inr hr
    · rintro (⟨b, hb, rfl⟩ | ⟨b, hb, rfl⟩)
      · refine ⟨.inl ⟨b, hb, rfl⟩, fun heq => ?_⟩
        have := hlr b hb d (.head _)
        rw [heq] at this
        omega
      · refine ⟨.inr (.inr ⟨b, hb, rfl⟩), fun heq => ?_⟩
        have := hdr b hb
        rw [heq] at this
        omega

/-- After the root there is nothing between the root and the largest element before it. -/
theorem Rooted.splayLeft (hcmp : CmpOrder cmp) {data : α} {S : Set α} {s : Splay α} {d : ℕ × α}
    {l r : BinaryTree (ℕ × α)} (h : Rooted cmp data S s d l r) (hne : l ≠ .nil) :
    ∃ s' e ll, s.splayLeft cmp data d.1 = some s' ∧ Rooted cmp data S s' d (.node e ll .nil) r ∧
      inorder l = inorder ll ++ [e] := by
  have hol : Ordered cmp (inorder l) := (List.pairwise_append.1 h.ordered).1
  obtain ⟨s', e, ll, lr, hrun, hshape, hin, hll, hlr⟩ :=
    h.shape.splayLeft hcmp data hol hne
  have hnil : lr = .nil := by
    apply inorder_eq_nil
    apply List.eq_nil_iff_forall_not_mem.2
    intro b hb
    have h1 := hlr b hb
    have h2 := h.before b (hin ▸ by simp [hb])
    omega
  subst hnil
  have hin' : inorder (.node d (.node e ll .nil) r) = inorder (.node d l r) := by
    rw [inorder_node, hin, ← inorder_node]
  refine ⟨s', e, ll, hrun, ⟨hshape, hin' ▸ h.ordered, by rw [hin']; exact h.elems,
    hin ▸ h.before, h.after⟩, ?_⟩
  rw [← hin]
  simp

theorem splayDelete_refines (hcmp : CmpOrder cmp) {s : Splay α} {S : Set α} (h : s.Holds cmp S)
    (data : α) : Refines cmp S (.delete data) (splayDelete cmp s data) := by
  rcases h.splayRoot hcmp data with ⟨hroot, rfl, hshape⟩ | ⟨hroot, s', d, l, r, hrun, hrooted⟩
  · exact ⟨none, s, ∅, by simp [splayDelete, hroot], .inr ⟨by simp, rfl, rfl⟩, h⟩
  · rw [splayDelete, if_neg hroot]
    simp only [hrun, Option.bind_eq_bind, Option.bind_some, hrooted.root, hrooted.data_eq]
    by_cases heq : cmp data d.2 = 0
    · simp only [if_pos heq, hrooted.left, Option.bind_some]
      rcases eq_or_ne l .nil with rfl | hne
      · simp only [addrOf_nil, if_true, hrooted.right, Option.bind_some, Option.pure_def]
        exact ⟨some d.2, _, S \ {d.2}, rfl, .inl ⟨d.2, hrooted.root_mem, heq, rfl, rfl⟩,
          hrooted.erase hcmp hrooted.shape.dropRoot (by simp)⟩
      · have hne0 := hrooted.left_ne_zero hne
        obtain ⟨s'', e, ll, hleft, hrooted', hin⟩ := hrooted.splayLeft hcmp hne
        have heright : (s''.nodes.right e.1).isSome := by
          obtain ⟨-, -, -, ⟨-, heright, -⟩, -⟩ := hrooted'.shape.stored
          simp [heright]
        simp only [if_neg hne0, hleft, hrooted'.left, hrooted'.right, addrOf_node,
          Option.bind_some, SplayNodes.setRight_eq heright, Option.pure_def]
        refine ⟨some d.2, _, S \ {d.2}, rfl, .inl ⟨d.2, hrooted.root_mem, heq, rfl, rfl⟩,
          hrooted.erase hcmp hrooted'.shape.unlinkRoot ?_⟩
        rw [hin]
        simp
    · rw [if_neg heq]
      exact ⟨none, s', S, rfl, .inr ⟨hrooted.absent heq, rfl, rfl⟩, hrooted.holds⟩

/-! ### Runs -/

theorem SplayCall.run_refines (hcmp : CmpOrder cmp) {s : Splay α} {S : Set α} (h : s.Holds cmp S)
    (call : SplayCall α) : Refines cmp S call (call.run cmp s) := by
  cases call with
  | insert data => exact splayInsert_refines hcmp h data
  | delete data => exact splayDelete_refines hcmp h data
  | find data => exact splayFind_refines hcmp h data

/-- A sequence of calls, with what they return. -/
def splayRun (cmp : α → α → ℤ) (s : Splay α) : List (SplayCall α) → Option (List (Option α) × Splay α)
  | [] => some ([], s)
  | call :: calls => do
    let (ret, s) ← call.run cmp s
    let (rets, s) ← splayRun cmp s calls
    return (ret :: rets, s)

/-- A sequence of calls on a set, with what they return. -/
def SetRun (cmp : α → α → ℤ) (S : Set α) : List (SplayCall α) → List (Option α) → Set α → Prop
  | [], rets, S' => rets = [] ∧ S' = S
  | call :: calls, rets, S' => ∃ ret rets' S₁, rets = ret :: rets' ∧ SetCall cmp S call ret S₁ ∧
    SetRun cmp S₁ calls rets' S'

theorem splayNew_holds (cmp : α → α → ℤ) : (splayNew : Splay α).Holds cmp ∅ :=
  ⟨.nil, ⟨rfl, trivial, List.nodup_nil, by simp [splayNew], by simp [splayNew, tmpRoot]⟩, List.Pairwise.nil, by simp⟩

theorem Splay.Holds.splayRun (hcmp : CmpOrder cmp) {s : Splay α} {S : Set α} (h : s.Holds cmp S)
    (calls : List (SplayCall α)) :
    ∃ rets s' S', SadOS.splayRun cmp s calls = some (rets, s') ∧ SetRun cmp S calls rets S' ∧
      s'.Holds cmp S' := by
  induction calls generalizing s S with
  | nil => exact ⟨[], s, S, rfl, ⟨rfl, rfl⟩, h⟩
  | cons call calls ih =>
    obtain ⟨ret, s₁, S₁, hcall, hset, h₁⟩ := call.run_refines hcmp h
    obtain ⟨rets, s', S', hrun, hsets, h'⟩ := ih h₁
    exact ⟨ret :: rets, s', S', by simp [SadOS.splayRun, hcall, hrun],
      ⟨ret, rets, S₁, rfl, hset, hsets⟩, h'⟩

/-- Every sequence of calls on a new tree succeeds, returns what it returns on the empty
set, and leaves a search tree of the elements of the set. -/
theorem splayRun_refines (hcmp : CmpOrder cmp) (calls : List (SplayCall α)) :
    ∃ rets s S, splayRun cmp splayNew calls = some (rets, s) ∧ SetRun cmp ∅ calls rets S ∧
      s.Holds cmp S :=
  (splayNew_holds cmp).splayRun hcmp calls

/-- The order of the natural numbers. -/
def cmpNat (a b : ℕ) : ℤ := a - b

theorem cmpNat_order : CmpOrder cmpNat :=
  ⟨fun a b => by simp only [cmpNat]; omega, fun a b c => by simp only [cmpNat]; omega⟩

theorem splayRun_refines_naturals :
    (splayRun cmpNat splayNew [.insert 3, .insert 5, .insert 4, .delete 3, .find 3]).map Prod.fst =
        some [none, none, none, some 3, none] ∧
      ∃ rets s S,
        splayRun cmpNat splayNew [.insert 3, .insert 5, .insert 4, .delete 3, .find 3] =
          some (rets, s) ∧
        SetRun cmpNat ∅ [.insert 3, .insert 5, .insert 4, .delete 3, .find 3] rets S ∧
        s.Holds cmpNat S :=
  ⟨by decide, splayRun_refines cmpNat_order _⟩

end SadOS
