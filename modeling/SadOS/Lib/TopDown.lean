import Mathlib.Data.Tree.Basic
import Mathlib.Data.Int.Notation
import Mathlib.Algebra.Order.Ring.Int
import Mathlib.Algebra.Order.Ring.Nat
import Mathlib.Data.List.Perm.Basic

/-!
# Top-down splaying

The loop of top-down splaying keeps three parts: a spine of what lies before the
item, the subtree still to be searched, and a spine of what lies after it.  A step
moves the root of the subtree to one of the spines, after a rotation when two steps
go the same way.  The item itself is only known through `c`, the outcome of comparing
it with an element.

## Main definitions

* `inorder` — the elements of a tree from left to right.
* `Parts`, `splayStep` — the three parts and one round of the loop.
* `splayLoop`, `splay` — the loop and the splayed tree.

## Main results

* `inorder_splayStep`, `Parted.splayStep` — what one round keeps.
* `inorder_splay`, `separated_splay` — the splayed tree has the same elements, and its
  root separates those before the item from those after it.
-/

namespace TopDown

variable {β : Type*}

open BinaryTree

/-- The elements of a tree from left to right. -/
def inorder : BinaryTree β → List β
  | .nil => []
  | .node b l r => inorder l ++ b :: inorder r

@[simp] theorem inorder_nil : inorder (nil : BinaryTree β) = [] := rfl

@[simp] theorem inorder_node (b : β) (l r : BinaryTree β) :
    inorder (.node b l r) = inorder l ++ b :: inorder r := rfl

/-- A spine: nodes that wait for one child, each with its other subtree, the last one
hung in first. -/
abbrev Spine (β : Type*) := List (β × BinaryTree β)

/-- The elements of a left spine, whose nodes wait for their right child. -/
def inorderL : Spine β → List β
  | [] => []
  | (b, l) :: spine => inorderL spine ++ (inorder l ++ [b])

/-- The elements of a right spine, whose nodes wait for their left child. -/
def inorderR : Spine β → List β
  | [] => []
  | (b, r) :: spine => b :: inorder r ++ inorderR spine

@[simp] theorem inorderL_nil : inorderL ([] : Spine β) = [] := rfl

@[simp] theorem inorderL_cons (b : β) (l : BinaryTree β) (spine : Spine β) :
    inorderL ((b, l) :: spine) = inorderL spine ++ (inorder l ++ [b]) := rfl

@[simp] theorem inorderR_nil : inorderR ([] : Spine β) = [] := rfl

@[simp] theorem inorderR_cons (b : β) (r : BinaryTree β) (spine : Spine β) :
    inorderR ((b, r) :: spine) = b :: inorder r ++ inorderR spine := rfl

/-- Hangs `t` at the end of a left spine. -/
def closeLeft (t : BinaryTree β) : Spine β → BinaryTree β
  | [] => t
  | (b, l) :: spine => closeLeft (.node b l t) spine

/-- Hangs `t` at the end of a right spine. -/
def closeRight (t : BinaryTree β) : Spine β → BinaryTree β
  | [] => t
  | (b, r) :: spine => closeRight (.node b t r) spine

theorem inorder_closeLeft (spine : Spine β) (t : BinaryTree β) :
    inorder (closeLeft t spine) = inorderL spine ++ inorder t := by
  induction spine generalizing t with
  | nil => simp [closeLeft]
  | cons frame spine ih =>
    obtain ⟨b, l⟩ := frame
    simp [closeLeft, ih]

theorem inorder_closeRight (spine : Spine β) (t : BinaryTree β) :
    inorder (closeRight t spine) = inorder t ++ inorderR spine := by
  induction spine generalizing t with
  | nil => simp [closeRight]
  | cons frame spine ih =>
    obtain ⟨b, r⟩ := frame
    simp [closeRight, ih]

/-- What the loop works on: the left spine, the subtree, the right spine. -/
structure Parts (β : Type*) where
  /-- What lies before the item. -/
  before : Spine β
  /-- What is still to be searched. -/
  mid : BinaryTree β
  /-- What lies after the item. -/
  after : Spine β

namespace Parts

/-- The elements of the three parts. -/
def inorder (p : Parts β) : List β :=
  inorderL p.before ++ TopDown.inorder p.mid ++ inorderR p.after

/-- Puts the three parts together, the root of the subtree on top. -/
def assemble : Parts β → BinaryTree β
  | ⟨before, .nil, _⟩ => closeLeft .nil before
  | ⟨before, .node b l r, after⟩ => .node b (closeLeft l before) (closeRight r after)

end Parts

/-- Hangs the root of `.node b l r` in the right spine; `l` is searched next. -/
def linkRight (before : Spine β) (b : β) (l r : BinaryTree β) (after : Spine β) :
    Bool × Parts β :=
  match l with
  | .nil => (false, ⟨before, .node b .nil r, after⟩)
  | l => (true, ⟨before, l, (b, r) :: after⟩)

/-- Hangs the root of `.node b l r` in the left spine; `r` is searched next. -/
def linkLeft (before : Spine β) (b : β) (l r : BinaryTree β) (after : Spine β) :
    Bool × Parts β :=
  match r with
  | .nil => (false, ⟨before, .node b l .nil, after⟩)
  | r => (true, ⟨(b, l) :: before, r, after⟩)

/-- One round of the loop; `false` means that the loop ends. -/
def splayStep (c : β → ℤ) : Parts β → Bool × Parts β
  | ⟨before, .nil, after⟩ => (false, ⟨before, .nil, after⟩)
  | ⟨before, .node b l r, after⟩ =>
    if c b < 0 then
      match l with
      | .node d ll lr =>
        if c d < 0 then linkRight before d ll (.node b lr r) after
        else linkRight before b (.node d ll lr) r after
      | .nil => linkRight before b .nil r after
    else if 0 < c b then
      match r with
      | .node d rl rr =>
        if 0 < c d then linkLeft before d (.node b l rl) rr after
        else linkLeft before b l (.node d rl rr) after
      | .nil => linkLeft before b l .nil after
    else (false, ⟨before, .node b l r, after⟩)

/-- The loop, for at most `fuel` rounds. -/
def splayLoop (c : β → ℤ) : ℕ → Parts β → Parts β
  | 0, p => p
  | fuel + 1, p =>
    match splayStep c p with
    | (true, p') => splayLoop c fuel p'
    | (false, p') => p'

/-- The tree splayed in at most `fuel` rounds. -/
def splay (c : β → ℤ) (fuel : ℕ) (t : BinaryTree β) : BinaryTree β :=
  (splayLoop c fuel ⟨[], t, []⟩).assemble

/-! ### The elements stay in their order -/

theorem inorder_linkRight (before : Spine β) (b : β) (l r : BinaryTree β) (after : Spine β) :
    (linkRight before b l r after).2.inorder =
      inorderL before ++ inorder (.node b l r) ++ inorderR after := by
  cases l <;> simp [linkRight, Parts.inorder]

theorem inorder_linkLeft (before : Spine β) (b : β) (l r : BinaryTree β) (after : Spine β) :
    (linkLeft before b l r after).2.inorder =
      inorderL before ++ inorder (.node b l r) ++ inorderR after := by
  cases r <;> simp [linkLeft, Parts.inorder]

theorem inorder_splayStep (c : β → ℤ) (p : Parts β) :
    (splayStep c p).2.inorder = p.inorder := by
  obtain ⟨before, mid, after⟩ := p
  cases mid with
  | nil => rfl
  | node b l r =>
    simp only [splayStep]
    split_ifs with hlt hgt
    · cases l with
      | nil => exact inorder_linkRight before b .nil r after
      | node d ll lr =>
        dsimp only
        -- the rotation moves no element past another one
        split_ifs <;> rw [inorder_linkRight] <;> simp [Parts.inorder]
    · cases r with
      | nil => exact inorder_linkLeft before b l .nil after
      | node d rl rr =>
        dsimp only
        split_ifs <;> rw [inorder_linkLeft] <;> simp [Parts.inorder]
    · rfl

theorem inorder_splayLoop (c : β → ℤ) (fuel : ℕ) (p : Parts β) :
    (splayLoop c fuel p).inorder = p.inorder := by
  induction fuel generalizing p with
  | zero => rfl
  | succ fuel ih =>
    have hstep := inorder_splayStep c p
    rw [splayLoop]
    split
    next p' hp => rw [ih, ← hstep, hp]
    next p' hp => rw [← hstep, hp]

/-! ### The spines are on the right side of the item -/

/-- Of two elements, the first lies before the item or the second after it. -/
def Splits (c : β → ℤ) (bs : List β) : Prop := bs.Pairwise fun a b => 0 < c a ∨ c b < 0

/-- The left spine lies before the item and the right spine after it. -/
structure Parted (c : β → ℤ) (p : Parts β) : Prop where
  before : ∀ b ∈ inorderL p.before, 0 < c b
  after : ∀ b ∈ inorderR p.after, c b < 0

/-- The root of the subtree separates what lies before the item from what lies after it. -/
def Separated (c : β → ℤ) (t : BinaryTree β) : Prop :=
  ∃ d l r, t = .node d l r ∧ (∀ b ∈ inorder l, 0 < c b) ∧ ∀ b ∈ inorder r, c b < 0

/-- What a round does: it goes on with a smaller subtree, or the root of the subtree
separates the rest. -/
structure Round (c : β → ℤ) (size : ℕ) (out : Bool × Parts β) : Prop where
  parted : Parted c out.2
  next : out.1 = true → out.2.mid ≠ .nil ∧ out.2.mid.numNodes < size
  stop : out.1 = false → Separated c out.2.mid

theorem Round.linkRight {c : β → ℤ} {before after : Spine β} {b : β} {mid l r : BinaryTree β}
    (h : Parted c ⟨before, mid, after⟩) (hb : c b < 0) (hr : ∀ d ∈ inorder r, c d < 0)
    {size : ℕ} (hsize : (node b l r).numNodes ≤ size) :
    Round c size (linkRight before b l r after) := by
  cases l with
  | nil => exact ⟨⟨h.before, h.after⟩, nofun, fun _ => ⟨b, .nil, r, rfl, by simp, hr⟩⟩
  | node d ll lr =>
    refine ⟨⟨h.before, ?_⟩, fun _ => ⟨by simp [TopDown.linkRight], ?_⟩, nofun⟩
    · have hafter := h.after
      simp only [TopDown.linkRight, inorderR_cons, List.cons_append, List.mem_cons,
        List.mem_append] at hafter ⊢
      rintro e (rfl | he | he)
      · exact hb
      · exact hr e he
      · exact hafter e he
    · simp only [TopDown.linkRight, BinaryTree.numNodes] at hsize ⊢
      omega

theorem Round.linkLeft {c : β → ℤ} {before after : Spine β} {b : β} {mid l r : BinaryTree β}
    (h : Parted c ⟨before, mid, after⟩) (hb : 0 < c b) (hl : ∀ d ∈ inorder l, 0 < c d)
    {size : ℕ} (hsize : (node b l r).numNodes ≤ size) :
    Round c size (linkLeft before b l r after) := by
  cases r with
  | nil => exact ⟨⟨h.before, h.after⟩, nofun, fun _ => ⟨b, l, .nil, rfl, hl, by simp⟩⟩
  | node d rl rr =>
    refine ⟨⟨?_, h.after⟩, fun _ => ⟨by simp [TopDown.linkLeft], ?_⟩, nofun⟩
    · have hbefore := h.before
      simp only [TopDown.linkLeft, inorderL_cons, List.mem_append, List.mem_singleton] at hbefore ⊢
      rintro e (he | he | rfl)
      · exact hbefore e he
      · exact hl e he
      · exact hb
    · simp only [TopDown.linkLeft, BinaryTree.numNodes] at hsize ⊢
      omega

/-- What lies right of an element after the item lies after the item. -/
theorem Splits.after {c : β → ℤ} {b : β} {l r : BinaryTree β}
    (h : Splits c (inorder (.node b l r))) (hb : c b ≤ 0) : ∀ d ∈ inorder r, c d < 0 := by
  intro d hd
  have hpair := (List.pairwise_append.1 h).2.1
  exact ((List.pairwise_cons.1 hpair).1 d hd).resolve_left (by omega)

/-- What lies left of an element before the item lies before the item. -/
theorem Splits.before {c : β → ℤ} {b : β} {l r : BinaryTree β}
    (h : Splits c (inorder (.node b l r))) (hb : 0 ≤ c b) : ∀ d ∈ inorder l, 0 < c d := by
  intro d hd
  have hpair := (List.pairwise_append.1 h).2.2 d hd b (by simp)
  exact hpair.resolve_right (by omega)

/-- What one round keeps. -/
theorem Parted.splayStep {c : β → ℤ} {p : Parts β} (h : Parted c p)
    (hsplit : Splits c (inorder p.mid)) (hmid : p.mid ≠ .nil) :
    Round c p.mid.numNodes (splayStep c p) := by
  obtain ⟨before, mid, after⟩ := p
  cases mid with
  | nil => exact absurd rfl hmid
  | node b l r =>
    simp only [TopDown.splayStep]
    split_ifs with hlt hgt
    · have hr := hsplit.after hlt.le
      cases l with
      | nil => exact Round.linkRight h hlt hr le_rfl
      | node d ll lr =>
        dsimp only
        split_ifs with hd
        · refine Round.linkRight h hd ?_ ?_
          · simp only [inorder_node, List.mem_append, List.mem_cons]
            rintro e (he | rfl | he)
            · have hl : Splits c (inorder (.node d ll lr)) := (List.pairwise_append.1 hsplit).1
              exact hl.after hd.le e he
            · exact hlt
            · exact hr e he
          · simp only [BinaryTree.numNodes]
            omega
        · exact Round.linkRight h hlt hr le_rfl
    · have hl := hsplit.before hgt.le
      cases r with
      | nil => exact Round.linkLeft h hgt hl le_rfl
      | node d rl rr =>
        dsimp only
        split_ifs with hd
        · refine Round.linkLeft h hd ?_ ?_
          · simp only [inorder_node, List.mem_append, List.mem_cons]
            rintro e (he | rfl | he)
            · exact hl e he
            · exact hgt
            · have hr : Splits c (inorder (.node d rl rr)) :=
                (List.pairwise_cons.1 (List.pairwise_append.1 hsplit).2.1).2
              exact hr.before hd.le e he
          · simp only [BinaryTree.numNodes]
            omega
        · exact Round.linkLeft h hgt hl le_rfl
    · refine ⟨h, nofun, fun _ => ⟨b, l, r, rfl, hsplit.before ?_, hsplit.after ?_⟩⟩ <;> omega

theorem Splits.mid {c : β → ℤ} {p : Parts β} (h : Splits c p.inorder) :
    Splits c (inorder p.mid) :=
  (List.pairwise_append.1 (List.pairwise_append.1 h).1).2.1

/-- Enough rounds lead to a root that separates the rest. -/
theorem Parted.splayLoop {c : β → ℤ} (fuel : ℕ) {p : Parts β} (h : Parted c p)
    (hsplit : Splits c p.inorder) (hmid : p.mid ≠ .nil) (hfuel : p.mid.numNodes ≤ fuel) :
    Parted c (splayLoop c fuel p) ∧ Separated c (splayLoop c fuel p).mid := by
  induction fuel generalizing p with
  | zero =>
    obtain ⟨before, _ | _, after⟩ := p
    · exact absurd rfl hmid
    · simp at hfuel
  | succ fuel ih =>
    have hround := h.splayStep hsplit.mid hmid
    have hin := inorder_splayStep c p
    rw [TopDown.splayLoop]
    split
    next p' hp =>
      rw [hp] at hround hin
      have hnext := hround.next rfl
      exact ih hround.parted (hin ▸ hsplit) hnext.1 (by simp only at hnext; omega)
    next p' hp =>
      rw [hp] at hround
      exact ⟨hround.parted, hround.stop rfl⟩

/-! ### The splayed tree -/

theorem inorder_assemble {p : Parts β} (h : p.mid ≠ .nil) : inorder p.assemble = p.inorder := by
  obtain ⟨before, _ | ⟨b, l, r⟩, after⟩ := p
  · exact absurd rfl h
  · simp [Parts.assemble, Parts.inorder, inorder_closeLeft, inorder_closeRight]

/-- The parts that the loop ends with, when it starts with a whole tree. -/
theorem splayLoop_tree {c : β → ℤ} {fuel : ℕ} {t : BinaryTree β} (hsplit : Splits c (inorder t))
    (ht : t ≠ .nil) (hfuel : t.numNodes ≤ fuel) :
    Parted c (splayLoop c fuel ⟨[], t, []⟩) ∧ Separated c (splayLoop c fuel ⟨[], t, []⟩).mid :=
  Parted.splayLoop fuel ⟨by simp, by simp⟩ (by simpa [Parts.inorder] using hsplit) ht hfuel

/-- The splayed tree has the elements of the tree in the same order. -/
theorem inorder_splay {c : β → ℤ} {fuel : ℕ} {t : BinaryTree β} (hsplit : Splits c (inorder t))
    (ht : t ≠ .nil) (hfuel : t.numNodes ≤ fuel) : inorder (splay c fuel t) = inorder t := by
  obtain ⟨-, d, l, r, hmid, -⟩ := splayLoop_tree hsplit ht hfuel
  have hne : (splayLoop c fuel ⟨[], t, []⟩).mid ≠ .nil := by
    rw [hmid]
    simp
  rw [splay, inorder_assemble hne, inorder_splayLoop]
  simp [Parts.inorder]

/-- The root of the splayed tree separates what lies before the item from what lies after
it. -/
theorem separated_splay {c : β → ℤ} {fuel : ℕ} {t : BinaryTree β} (hsplit : Splits c (inorder t))
    (ht : t ≠ .nil) (hfuel : t.numNodes ≤ fuel) : Separated c (splay c fuel t) := by
  obtain ⟨hparted, d, l, r, hmid, hl, hr⟩ := splayLoop_tree hsplit ht hfuel
  rcases hp : splayLoop c fuel ⟨[], t, []⟩ with ⟨before, mid, after⟩
  rw [hp] at hparted hmid
  subst hmid
  refine ⟨d, closeLeft l before, closeRight r after, by rw [splay, hp]; rfl, ?_, ?_⟩
  · rw [inorder_closeLeft]
    intro b hb
    exact (List.mem_append.1 hb).elim (hparted.before b) (hl b)
  · rw [inorder_closeRight]
    intro b hb
    exact (List.mem_append.1 hb).elim (hr b) (hparted.after b)

end TopDown
