import SadOS.Lib.SplaySet

/-!
# The neighbour queries of the splay tree

`splay_prev` and `splay_next` splay the tree and look at the root.  A second splay, in
a subtree of the root, is due when the root itself is not the answer; both functions make
it also when the root is the answer, and return the root when it lies on the wrong side.

## Main definitions

* `PrevOf`, `NextOf` — the neighbours of an item in a set.
* `PrevRight`, `NextRight` — the queries return them and keep the set.

## Main results

* `splayPrev_returns`, `splayNext_returns` — what the queries return.
* `splayPrev_iff`, `splayNext_iff`, `splayNeighbours_iff` — when they are right.
-/

namespace SadOS

open BinaryTree TopDown

variable {α : Type} {cmp : α → α → ℤ}

/-- `ret` is the greatest element of `S` that is less than `data`, or `NULL`. -/
def PrevOf (cmp : α → α → ℤ) (S : Set α) (data : α) : Option α → Prop
  | none => ∀ a ∈ S, ¬ cmp a data < 0
  | some e => e ∈ S ∧ cmp e data < 0 ∧ ∀ a ∈ S, cmp a data < 0 → cmp a e ≤ 0

/-- `ret` is the least element of `S` that is greater than `data`, or `NULL`. -/
def NextOf (cmp : α → α → ℤ) (S : Set α) (data : α) : Option α → Prop
  | none => ∀ a ∈ S, ¬ cmp data a < 0
  | some e => e ∈ S ∧ cmp data e < 0 ∧ ∀ a ∈ S, cmp data a < 0 → cmp e a ≤ 0

/-- `splay_prev` returns the element before `data` and keeps the set. -/
def PrevRight (cmp : α → α → ℤ) (s : Splay α) (S : Set α) (data : α) : Prop :=
  ∃ ret s', splayPrev cmp s data = some (ret, s') ∧ s'.Holds cmp S ∧ PrevOf cmp S data ret

/-- `splay_next` returns the element after `data` and keeps the set. -/
def NextRight (cmp : α → α → ℤ) (s : Splay α) (S : Set α) (data : α) : Prop :=
  ∃ ret s', splayNext cmp s data = some (ret, s') ∧ s'.Holds cmp S ∧ NextOf cmp S data ret

theorem CmpOrder.symm_lt (h : CmpOrder cmp) {a b : α} (hab : 0 < cmp a b) : cmp b a < 0 :=
  (h.swap b a).2 hab

/-- An element is equal to the item exactly when the root is. -/
theorem Rooted.exists_eq_iff {data : α} {S : Set α} {s : Splay α} {d : ℕ × α}
    {l r : BinaryTree (ℕ × α)} (h : Rooted cmp data S s d l r) :
    (S = ∅ ∨ ∃ e ∈ S, cmp data e = 0) ↔ cmp data d.2 = 0 := by
  constructor
  · rintro (rfl | ⟨e, he, heq⟩)
    · exact absurd h.root_mem (by simp)
    · rwa [h.eq_root he heq] at heq
  · exact fun heq => .inr ⟨d.2, h.root_mem, heq⟩

/-- Before the root there is nothing between the smallest element after it and the root. -/
theorem Rooted.splayRight (hcmp : CmpOrder cmp) {data : α} {S : Set α} {s : Splay α} {d : ℕ × α}
    {l r : BinaryTree (ℕ × α)} (h : Rooted cmp data S s d l r) (hne : r ≠ .nil) :
    ∃ s' e rr, s.splayRight cmp data d.1 = some s' ∧ Rooted cmp data S s' d l (.node e .nil rr) ∧
      inorder r = e :: inorder rr := by
  have hor : Ordered cmp (inorder r) :=
    (List.pairwise_cons.1 (List.pairwise_append.1 h.ordered).2.1).2
  obtain ⟨s', e, rl, rr, hrun, hshape, hin, hrl, hrr⟩ :=
    h.shape.splayRight hcmp data hor hne
  have hnil : rl = .nil := by
    apply inorder_eq_nil
    apply List.eq_nil_iff_forall_not_mem.2
    intro b hb
    have h1 := hrl b hb
    have h2 := h.after b (hin ▸ by simp [hb])
    omega
  subst hnil
  have hin' : inorder (.node d l (.node e .nil rr)) = inorder (.node d l r) := by
    rw [inorder_node, hin, ← inorder_node]
  refine ⟨s', e, rr, hrun, ⟨hshape, hin' ▸ h.ordered, by rw [hin']; exact h.elems,
    h.before, hin ▸ h.after⟩, ?_⟩
  rw [← hin]
  simp

/-- What `splay_prev` returns once the tree is splayed. -/
theorem splayPrev_returns (hcmp : CmpOrder cmp) {s s' : Splay α} {S : Set α} {data : α}
    {d : ℕ × α} {l r : BinaryTree (ℕ × α)} (hroot : s.root ≠ 0)
    (hrun : s.splayRoot cmp data = some s') (h : Rooted cmp data S s' d l r) :
    ∃ s'', splayPrev cmp s data =
        some (if 0 ≤ cmp data d.2 then (inorder l).getLast?.map Prod.snd else some d.2, s'') ∧
      s''.Holds cmp S := by
  rw [splayPrev, if_neg hroot]
  simp only [hrun, Option.bind_eq_bind, Option.bind_some, h.root, h.data_eq]
  by_cases hge : 0 ≤ cmp data d.2
  · simp only [if_pos hge, h.left, Option.bind_some]
    by_cases hne : l = .nil
    · exact ⟨s', by simp [hne], h.holds⟩
    · obtain ⟨s'', e, ll, hleft, h', hin⟩ := h.splayLeft hcmp hne
      obtain ⟨-, -, -, ⟨-, -, hedata, -⟩, -⟩ := h'.shape.stored
      have hne0 := h.left_ne_zero hne
      exact ⟨s'', by simp [hne0, hleft, h'.left, hedata, hin], h'.holds⟩
  · exact ⟨s', by simp [hge], h.holds⟩

/-- What `splay_next` returns once the tree is splayed. -/
theorem splayNext_returns (hcmp : CmpOrder cmp) {s s' : Splay α} {S : Set α} {data : α}
    {d : ℕ × α} {l r : BinaryTree (ℕ × α)} (hroot : s.root ≠ 0)
    (hrun : s.splayRoot cmp data = some s') (h : Rooted cmp data S s' d l r) :
    ∃ s'', splayNext cmp s data =
        some (if cmp data d.2 ≤ 0 then (inorder r).head?.map Prod.snd else some d.2, s'') ∧
      s''.Holds cmp S := by
  rw [splayNext, if_neg hroot]
  simp only [hrun, Option.bind_eq_bind, Option.bind_some, h.root, h.data_eq]
  by_cases hle : cmp data d.2 ≤ 0
  · simp only [if_pos hle, h.right, Option.bind_some]
    by_cases hne : r = .nil
    · exact ⟨s', by simp [hne], h.holds⟩
    · obtain ⟨s'', e, rr, hright, h', hin⟩ := h.splayRight hcmp hne
      obtain ⟨-, -, -, -, ⟨-, -, hedata, -⟩⟩ := h'.shape.stored
      have hne0 := h.right_ne_zero hne
      exact ⟨s'', by simp [hne0, hright, h'.right, hedata, hin], h'.holds⟩
  · exact ⟨s', by simp [hle], h.holds⟩

/-- The last element left of a root that is equal to the item is the one before the item. -/
theorem Rooted.prevOf (hcmp : CmpOrder cmp) {data : α} {S : Set α} {s : Splay α} {d : ℕ × α}
    {l r : BinaryTree (ℕ × α)} (h : Rooted cmp data S s d l r) (heq : cmp data d.2 = 0) :
    PrevOf cmp S data ((inorder l).getLast?.map Prod.snd) := by
  have hless : ∀ a ∈ S, cmp a data < 0 → ∃ b ∈ inorder l, b.2 = a := by
    intro a ha hlt
    rcases h.mem_iff.1 ha with hl | rfl | ⟨b, hb, rfl⟩
    · exact hl
    · have := hcmp.symm heq
      omega
    · have := (hcmp.swap _ _).1 (h.after b hb)
      omega
  have hol : Ordered cmp (inorder l) := (List.pairwise_append.1 h.ordered).1
  rcases List.eq_nil_or_concat (inorder l) with hnil | ⟨bs, e, hlast⟩
  · rw [hnil]
    intro a ha hlt
    obtain ⟨b, hb, -⟩ := hless a ha hlt
    simp [hnil] at hb
  · rw [List.concat_eq_append] at hlast
    simp only [hlast, List.getLast?_append, List.getLast?_singleton, Option.some_or, Option.map_some]
    have he : e ∈ inorder l := by simp [hlast]
    refine ⟨h.mem_iff.2 (.inl ⟨e, he, rfl⟩), hcmp.symm_lt (h.before e he), ?_⟩
    intro a ha hlt
    obtain ⟨b, hb, rfl⟩ := hless a ha hlt
    rw [hlast] at hb hol
    rcases List.mem_append.1 hb with hb | hb
    · exact ((List.pairwise_append.1 hol).2.2 b hb e (by simp)).le
    · rw [List.mem_singleton.1 hb, hcmp.self]

/-- The first element right of a root that is equal to the item is the one after the item. -/
theorem Rooted.nextOf (hcmp : CmpOrder cmp) {data : α} {S : Set α} {s : Splay α} {d : ℕ × α}
    {l r : BinaryTree (ℕ × α)} (h : Rooted cmp data S s d l r) (heq : cmp data d.2 = 0) :
    NextOf cmp S data ((inorder r).head?.map Prod.snd) := by
  have hmore : ∀ a ∈ S, cmp data a < 0 → ∃ b ∈ inorder r, b.2 = a := by
    intro a ha hlt
    rcases h.mem_iff.1 ha with ⟨b, hb, rfl⟩ | rfl | hr
    · have := h.before b hb
      omega
    · omega
    · exact hr
  have hor : Ordered cmp (inorder r) :=
    (List.pairwise_cons.1 (List.pairwise_append.1 h.ordered).2.1).2
  cases hfirst : inorder r with
  | nil =>
    intro a ha hlt
    obtain ⟨b, hb, -⟩ := hmore a ha hlt
    simp [hfirst] at hb
  | cons e bs =>
    have he : e ∈ inorder r := by simp [hfirst]
    refine ⟨h.mem_iff.2 (.inr (.inr ⟨e, he, rfl⟩)), h.after e he, ?_⟩
    intro a ha hlt
    obtain ⟨b, hb, rfl⟩ := hmore a ha hlt
    rw [hfirst] at hb hor
    rcases List.mem_cons.1 hb with rfl | hb
    · exact (hcmp.self _).le
    · exact ((List.pairwise_cons.1 hor).1 b hb).le

/-- The test for the second splay is the other way round: `splay_prev` returns the root when
it lies after the item, and passes over the root when it lies before it. -/
theorem splayPrev_iff (hcmp : CmpOrder cmp) {s : Splay α} {S : Set α} (h : s.Holds cmp S)
    (data : α) : PrevRight cmp s S data ↔ S = ∅ ∨ ∃ e ∈ S, cmp data e = 0 := by
  rcases h.splayRoot hcmp data with ⟨hroot, rfl, -⟩ | ⟨hroot, s', d, l, r, hrun, hrooted⟩
  · simp only [true_or, iff_true]
    exact ⟨none, s, by simp [splayPrev, hroot], h, by simp [PrevOf]⟩
  · rw [hrooted.exists_eq_iff]
    obtain ⟨s'', hret, hholds⟩ := splayPrev_returns hcmp hroot hrun hrooted
    constructor
    · rintro ⟨ret, s₁, hret', -, hprev⟩
      rw [hret] at hret'
      obtain ⟨rfl, rfl⟩ : _ ∧ _ := by simpa using hret'
      rcases lt_trichotomy (cmp data d.2) 0 with hlt | heq | hgt
      · -- the root lies after the item and is returned
        rw [if_neg (by omega)] at hprev
        have := (hcmp.swap _ _).1 hprev.2.1
        omega
      · exact heq
      · -- the root is the element before the item and is passed over
        rw [if_pos hgt.le] at hprev
        have hd := hcmp.symm_lt hgt
        cases hlast : (inorder l).getLast? with
        | none =>
          rw [hlast] at hprev
          exact absurd hd (hprev d.2 hrooted.root_mem)
        | some e =>
          rw [hlast] at hprev
          have hle := hprev.2.2 d.2 hrooted.root_mem hd
          have he : e ∈ inorder l := List.mem_of_getLast? hlast
          have hlt := (List.pairwise_append.1 hrooted.ordered).2.2 e he d (.head _)
          have := (hcmp.swap _ _).1 hlt
          omega
    · intro heq
      rw [if_pos heq.ge] at hret
      exact ⟨_, s'', hret, hholds, hrooted.prevOf hcmp heq⟩

/-- The test for the second splay of `splay_next` is the other way round, too. -/
theorem splayNext_iff (hcmp : CmpOrder cmp) {s : Splay α} {S : Set α} (h : s.Holds cmp S)
    (data : α) : NextRight cmp s S data ↔ S = ∅ ∨ ∃ e ∈ S, cmp data e = 0 := by
  rcases h.splayRoot hcmp data with ⟨hroot, rfl, -⟩ | ⟨hroot, s', d, l, r, hrun, hrooted⟩
  · simp only [true_or, iff_true]
    exact ⟨none, s, by simp [splayNext, hroot], h, by simp [NextOf]⟩
  · rw [hrooted.exists_eq_iff]
    obtain ⟨s'', hret, hholds⟩ := splayNext_returns hcmp hroot hrun hrooted
    constructor
    · rintro ⟨ret, s₁, hret', -, hnext⟩
      rw [hret] at hret'
      obtain ⟨rfl, rfl⟩ : _ ∧ _ := by simpa using hret'
      rcases lt_trichotomy (cmp data d.2) 0 with hlt | heq | hgt
      · -- the root is the element after the item and is passed over
        rw [if_pos hlt.le] at hnext
        cases hfirst : (inorder r).head? with
        | none =>
          rw [hfirst] at hnext
          exact absurd hlt (hnext d.2 hrooted.root_mem)
        | some e =>
          rw [hfirst] at hnext
          have hle := hnext.2.2 d.2 hrooted.root_mem hlt
          have he : e ∈ inorder r := List.mem_of_head? hfirst
          have hlt' := (List.pairwise_cons.1 (List.pairwise_append.1 hrooted.ordered).2.1).1 e he
          have := (hcmp.swap _ _).1 hlt'
          omega
      · exact heq
      · -- the root lies before the item and is returned
        rw [if_neg (by omega)] at hnext
        have := hnext.2.1
        omega
    · intro heq
      rw [if_pos heq.le] at hret
      exact ⟨_, s'', hret, hholds, hrooted.nextOf hcmp heq⟩

/-- The neighbour queries are right exactly on the empty set and for an item of the set. -/
theorem splayNeighbours_iff (hcmp : CmpOrder cmp) {s : Splay α} {S : Set α} (h : s.Holds cmp S)
    (data : α) : PrevRight cmp s S data ∧ NextRight cmp s S data ↔
      S = ∅ ∨ ∃ e ∈ S, cmp data e = 0 := by
  rw [splayPrev_iff hcmp h, splayNext_iff hcmp h, and_self_iff]

theorem splayNeighbours_iff_between : ∃ s S,
    (splayRun cmpNat splayNew [.insert 3, .insert 5]).map Prod.snd = some s ∧
      (PrevRight cmpNat s S 4 ∧ NextRight cmpNat s S 4 ↔ S = ∅ ∨ ∃ e ∈ S, cmpNat 4 e = 0) := by
  obtain ⟨rets, s, S, hrun, -, hholds⟩ :=
    (splayNew_holds cmpNat).splayRun cmpNat_order [.insert 3, .insert 5]
  exact ⟨s, S, by rw [hrun]; rfl, splayNeighbours_iff cmpNat_order hholds 4⟩

/-- In the tree of 3 and 5 the element after 4 comes out as 3. -/
theorem splayNeighbours_fails : ∃ s S,
    (splayRun cmpNat splayNew [.insert 3, .insert 5]).map Prod.snd = some s ∧
      s.Holds cmpNat S ∧ ¬ (PrevRight cmpNat s S 4 ∧ NextRight cmpNat s S 4) := by
  obtain ⟨rets, s, S, hrun, -, hholds⟩ :=
    (splayNew_holds cmpNat).splayRun cmpNat_order [.insert 3, .insert 5]
  refine ⟨s, S, by rw [hrun]; rfl, hholds, ?_⟩
  rintro ⟨-, ret, s', hret, -, hnext⟩
  have hthree : (splayRun cmpNat splayNew [.insert 3, .insert 5]).bind
      (fun p => (splayNext cmpNat p.2 4).map Prod.fst) = some (some 3) := by decide
  rw [hrun, Option.bind_some, hret, Option.map_some, Option.some_inj] at hthree
  subst hthree
  exact absurd hnext.2.1 (by decide)

end SadOS
