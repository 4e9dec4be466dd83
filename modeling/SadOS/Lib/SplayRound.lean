import SadOS.Lib.Splay

/-!
# The nodes in memory follow top-down splaying

`Held m x p` says that the memory holds the three parts `p` of the loop of `splay`:
the subtree below `t`, the left spine that ends at `l` and starts at `tmp_root.right`,
and the right spine that ends at `r` and starts at `tmp_root.left`.  Nothing is said of
the pointer that the end of a spine keeps to the next node, which is stale until the
next link.

## Main definitions

* `Stored`, `LeftSpine`, `RightSpine`, `Held` — trees, spines and the three parts in
  memory.
* `SameOff` — what a computation leaves alone.

## Main results

* `Held.splayRound` — one round is one step of top-down splaying.
* `splay_stored` — `splay` leaves the splayed tree.
-/

namespace SadOS

open BinaryTree TopDown

variable {α : Type} {m m' : SplayNodes α}

namespace SplayNodes

@[simp] theorem putLeft_left (m : SplayNodes α) (p v : ℕ) :
    (m.putLeft p v).left = Function.update m.left p (some v) := rfl
@[simp] theorem putLeft_right (m : SplayNodes α) (p v : ℕ) : (m.putLeft p v).right = m.right := rfl
@[simp] theorem putLeft_data (m : SplayNodes α) (p v : ℕ) : (m.putLeft p v).data = m.data := rfl
@[simp] theorem putRight_left (m : SplayNodes α) (p v : ℕ) : (m.putRight p v).left = m.left := rfl
@[simp] theorem putRight_right (m : SplayNodes α) (p v : ℕ) :
    (m.putRight p v).right = Function.update m.right p (some v) := rfl
@[simp] theorem putRight_data (m : SplayNodes α) (p v : ℕ) : (m.putRight p v).data = m.data := rfl

@[simp] theorem putData_left (m : SplayNodes α) (p : ℕ) (d : α) : (m.putData p d).left = m.left := rfl
@[simp] theorem putData_right (m : SplayNodes α) (p : ℕ) (d : α) :
    (m.putData p d).right = m.right := rfl
@[simp] theorem putData_data (m : SplayNodes α) (p : ℕ) (d : α) :
    (m.putData p d).data = Function.update m.data p (some d) := rfl

theorem setLeft_eq {p : ℕ} (h : (m.left p).isSome) (v : ℕ) : m.setLeft p v = some (m.putLeft p v) :=
  if_pos h

theorem setRight_eq {p : ℕ} (h : (m.right p).isSome) (v : ℕ) :
    m.setRight p v = some (m.putRight p v) :=
  if_pos h

theorem setData_eq {p : ℕ} (h : (m.left p).isSome) (d : α) : m.setData p d = some (m.putData p d) :=
  if_pos h

end SplayNodes

/-- The pointer to a tree. -/
def addrOf : BinaryTree (ℕ × α) → ℕ
  | .nil => 0
  | .node b _ _ => b.1

@[simp] theorem addrOf_nil : addrOf (.nil : BinaryTree (ℕ × α)) = 0 := rfl

@[simp] theorem addrOf_node (b : ℕ × α) (l r : BinaryTree (ℕ × α)) :
    addrOf (.node b l r) = b.1 := rfl

/-- The addresses of nodes. -/
def addrs (bs : List (ℕ × α)) : List ℕ := bs.map Prod.fst

@[simp] theorem addrs_nil : addrs ([] : List (ℕ × α)) = [] := rfl

@[simp] theorem addrs_cons (b : ℕ × α) (bs : List (ℕ × α)) : addrs (b :: bs) = b.1 :: addrs bs := rfl

@[simp] theorem addrs_append (bs ds : List (ℕ × α)) : addrs (bs ++ ds) = addrs bs ++ addrs ds :=
  List.map_append

/-- The memory holds the tree. -/
def Stored (m : SplayNodes α) : BinaryTree (ℕ × α) → Prop
  | .nil => True
  | .node b l r => m.left b.1 = some (addrOf l) ∧ m.right b.1 = some (addrOf r) ∧
    m.data b.1 = some b.2 ∧ Stored m l ∧ Stored m r

@[simp] theorem stored_nil : Stored m .nil := trivial

@[simp] theorem stored_node {b : ℕ × α} {l r : BinaryTree (ℕ × α)} :
    Stored m (.node b l r) ↔ m.left b.1 = some (addrOf l) ∧ m.right b.1 = some (addrOf r) ∧
      m.data b.1 = some b.2 ∧ Stored m l ∧ Stored m r := Iff.rfl

/-- The last node of a spine; a spine starts at `tmp_root`. -/
def endOf : TopDown.Spine (ℕ × α) → ℕ
  | [] => tmpRoot
  | (b, _) :: _ => b.1

@[simp] theorem endOf_nil : endOf ([] : TopDown.Spine (ℕ × α)) = tmpRoot := rfl

@[simp] theorem endOf_cons (b : ℕ × α) (t : BinaryTree (ℕ × α)) (spine : TopDown.Spine (ℕ × α)) :
    endOf ((b, t) :: spine) = b.1 := rfl

/-- The memory holds a spine along `right` pointers. -/
def LeftSpine (m : SplayNodes α) : TopDown.Spine (ℕ × α) → Prop
  | [] => True
  | (b, l) :: spine => m.left b.1 = some (addrOf l) ∧ m.data b.1 = some b.2 ∧ Stored m l ∧
    m.right (endOf spine) = some b.1 ∧ LeftSpine m spine

/-- The memory holds a spine along `left` pointers. -/
def RightSpine (m : SplayNodes α) : TopDown.Spine (ℕ × α) → Prop
  | [] => True
  | (b, r) :: spine => m.right b.1 = some (addrOf r) ∧ m.data b.1 = some b.2 ∧ Stored m r ∧
    m.left (endOf spine) = some b.1 ∧ RightSpine m spine

/-- The memory differs at most at `tmp_root` and at the addresses `as`. -/
structure SameOff (as : List ℕ) (m m' : SplayNodes α) : Prop where
  left : ∀ a, a ≠ tmpRoot → a ∉ as → m'.left a = m.left a
  right : ∀ a, a ≠ tmpRoot → a ∉ as → m'.right a = m.right a
  data : ∀ a, a ≠ tmpRoot → m'.data a = m.data a

theorem SameOff.refl (as : List ℕ) (m : SplayNodes α) : SameOff as m m :=
  ⟨fun _ _ _ => rfl, fun _ _ _ => rfl, fun _ _ => rfl⟩

theorem SameOff.trans {as : List ℕ} {m₁ m₂ m₃ : SplayNodes α} (h : SameOff as m₁ m₂)
    (h' : SameOff as m₂ m₃) : SameOff as m₁ m₃ where
  left a ha has := (h'.left a ha has).trans (h.left a ha has)
  right a ha has := (h'.right a ha has).trans (h.right a ha has)
  data a ha := (h'.data a ha).trans (h.data a ha)

theorem SameOff.putLeft {as : List ℕ} {p : ℕ} (hp : p = tmpRoot ∨ p ∈ as) (m : SplayNodes α)
    (v : ℕ) : SameOff as m (m.putLeft p v) where
  left a ha has := Function.update_of_ne (by grind) _ _
  right _ _ _ := rfl
  data _ _ := rfl

theorem SameOff.putRight {as : List ℕ} {p : ℕ} (hp : p = tmpRoot ∨ p ∈ as) (m : SplayNodes α)
    (v : ℕ) : SameOff as m (m.putRight p v) where
  left _ _ _ := rfl
  right a ha has := Function.update_of_ne (by grind) _ _
  data _ _ := rfl

/-! ### Writes that miss a tree or a spine -/

theorem Stored.putLeft {t : BinaryTree (ℕ × α)} (h : Stored m t) {p : ℕ}
    (hp : p ∉ addrs (inorder t)) (v : ℕ) : Stored (m.putLeft p v) t := by
  induction t with
  | nil => trivial
  | node b l r ihl ihr =>
    obtain ⟨hleft, hright, hdata, hl, hr⟩ := h
    simp only [inorder_node, addrs_append, addrs_cons, List.mem_append, List.mem_cons, not_or] at hp
    exact ⟨by simp [Function.update_of_ne (Ne.symm hp.2.1), hleft], hright, hdata,
      ihl hl hp.1, ihr hr hp.2.2⟩

theorem Stored.putRight {t : BinaryTree (ℕ × α)} (h : Stored m t) {p : ℕ}
    (hp : p ∉ addrs (inorder t)) (v : ℕ) : Stored (m.putRight p v) t := by
  induction t with
  | nil => trivial
  | node b l r ihl ihr =>
    obtain ⟨hleft, hright, hdata, hl, hr⟩ := h
    simp only [inorder_node, addrs_append, addrs_cons, List.mem_append, List.mem_cons, not_or] at hp
    exact ⟨hleft, by simp [Function.update_of_ne (Ne.symm hp.2.1), hright], hdata,
      ihl hl hp.1, ihr hr hp.2.2⟩

theorem endOf_mem_left (spine : TopDown.Spine (ℕ × α)) :
    endOf spine = tmpRoot ∨ endOf spine ∈ addrs (inorderL spine) := by
  rcases spine with _ | ⟨⟨b, l⟩, spine⟩
  · exact .inl rfl
  · exact .inr (by simp)

theorem endOf_mem_right (spine : TopDown.Spine (ℕ × α)) :
    endOf spine = tmpRoot ∨ endOf spine ∈ addrs (inorderR spine) := by
  rcases spine with _ | ⟨⟨b, r⟩, spine⟩
  · exact .inl rfl
  · exact .inr (by simp)

theorem LeftSpine.putLeft {spine : TopDown.Spine (ℕ × α)} (h : LeftSpine m spine) {p : ℕ}
    (hp : p ∉ addrs (inorderL spine)) (v : ℕ) : LeftSpine (m.putLeft p v) spine := by
  induction spine with
  | nil => trivial
  | cons frame spine ih =>
    obtain ⟨b, l⟩ := frame
    obtain ⟨hleft, hdata, hl, hlink, hrest⟩ := h
    simp only [inorderL_cons, addrs_append, addrs_cons, addrs_nil, List.mem_append, List.mem_cons,
      List.not_mem_nil, or_false, not_or] at hp
    exact ⟨by simp [Function.update_of_ne (Ne.symm hp.2.2), hleft], hdata, hl.putLeft hp.2.1 v,
      hlink, ih hrest hp.1⟩

theorem RightSpine.putRight {spine : TopDown.Spine (ℕ × α)} (h : RightSpine m spine) {p : ℕ}
    (hp : p ∉ addrs (inorderR spine)) (v : ℕ) : RightSpine (m.putRight p v) spine := by
  induction spine with
  | nil => trivial
  | cons frame spine ih =>
    obtain ⟨b, r⟩ := frame
    obtain ⟨hright, hdata, hr, hlink, hrest⟩ := h
    simp only [inorderR_cons, addrs_append, addrs_cons, List.cons_append, List.mem_append,
      List.mem_cons, not_or] at hp
    exact ⟨by simp [Function.update_of_ne (Ne.symm hp.1), hright], hdata, hr.putRight hp.2.1 v,
      hlink, ih hrest hp.2.2⟩

/-- The write at the end of a spine is the one that the spine allows. -/
theorem LeftSpine.putRight {spine : TopDown.Spine (ℕ × α)} (h : LeftSpine m spine)
    (hnd : (tmpRoot :: addrs (inorderL spine)).Nodup) {p : ℕ}
    (hp : p = endOf spine ∨ p ∉ tmpRoot :: addrs (inorderL spine)) (v : ℕ) :
    LeftSpine (m.putRight p v) spine := by
  induction spine with
  | nil => trivial
  | cons frame spine ih =>
    obtain ⟨b, l⟩ := frame
    obtain ⟨hleft, hdata, hl, hlink, hrest⟩ := h
    have hend := endOf_mem_left spine
    simp only [inorderL_cons, addrs_append, addrs_cons, addrs_nil, endOf_cons] at hnd hp
    have hout : p ∉ tmpRoot :: addrs (inorderL spine) := by grind
    refine ⟨hleft, hdata, hl.putRight (by grind) v, ?_, ih hrest (by grind) (.inr hout)⟩
    rw [SplayNodes.putRight_right, Function.update_of_ne (by grind), hlink]

theorem RightSpine.putLeft {spine : TopDown.Spine (ℕ × α)} (h : RightSpine m spine)
    (hnd : (tmpRoot :: addrs (inorderR spine)).Nodup) {p : ℕ}
    (hp : p = endOf spine ∨ p ∉ tmpRoot :: addrs (inorderR spine)) (v : ℕ) :
    RightSpine (m.putLeft p v) spine := by
  induction spine with
  | nil => trivial
  | cons frame spine ih =>
    obtain ⟨b, r⟩ := frame
    obtain ⟨hright, hdata, hr, hlink, hrest⟩ := h
    have hend := endOf_mem_right spine
    simp only [inorderR_cons, addrs_append, addrs_cons, endOf_cons, List.cons_append] at hnd hp
    have hout : p ∉ tmpRoot :: addrs (inorderR spine) := by grind
    refine ⟨hright, hdata, hr.putLeft (by grind) v, ?_, ih hrest (by grind) (.inr hout)⟩
    rw [SplayNodes.putLeft_left, Function.update_of_ne (by grind), hlink]

/-! ### The loop -/

/-- The memory and the locals hold the three parts. -/
structure Held (m : SplayNodes α) (x : SplayLocals) (p : Parts (ℕ × α)) : Prop where
  t : x.t = addrOf p.mid
  l : x.l = endOf p.before
  r : x.r = endOf p.after
  mid : Stored m p.mid
  before : LeftSpine m p.before
  after : RightSpine m p.after
  openLeft : (m.right (endOf p.before)).isSome
  openRight : (m.left (endOf p.after)).isSome
  nodup : (tmpRoot :: addrs p.inorder).Nodup
  pos : 0 ∉ addrs p.inorder

/-- One round made the step `out` of top-down splaying, from the memory `m`. -/
def Made (m : SplayNodes α) (as : List ℕ) (round : Option (Bool × SplayNodes α × SplayLocals))
    (out : Bool × Parts (ℕ × α)) : Prop :=
  ∃ m' x', round = some (out.1, m', x') ∧ Held m' x' out.2 ∧ SameOff as m m'

theorem Held.linkRight {x : SplayLocals} {before after : TopDown.Spine (ℕ × α)} {b : ℕ × α}
    {l r : BinaryTree (ℕ × α)} (h : Held m x ⟨before, .node b l r, after⟩) (hl : l ≠ .nil) :
    Made m (addrs (Parts.inorder ⟨before, .node b l r, after⟩)) (splayLinkRight m x)
      (TopDown.linkRight before b l r after) := by
  obtain ⟨hleft, hright, hdata, hsl, hsr⟩ := h.mid
  have hnd := h.nodup
  have hend := endOf_mem_right after
  have hr : x.r = endOf after := h.r
  have ht : x.t = b.1 := h.t
  simp only [Parts.inorder, inorder_node, addrs_append, addrs_cons] at hnd
  have hopen : (m.left x.r).isSome := hr ▸ h.openRight
  have hne : b.1 ≠ x.r := by grind
  have hout : TopDown.linkRight before b l r after = (true, ⟨before, l, (b, r) :: after⟩) := by
    cases l with
    | nil => exact absurd rfl hl
    | node d ll lr => rfl
  refine ⟨m.putLeft x.r x.t, ⟨addrOf l, x.l, x.t⟩, ?_, ?_, ?_⟩
  · rw [splayLinkRight, SplayNodes.setLeft_eq hopen, hout]
    simp [ht, Function.update_of_ne hne, hleft]
  · rw [hout]
    exact {
      t := rfl
      l := h.l
      r := ht
      mid := hsl.putLeft (by grind) _
      before := h.before.putLeft (by grind) _
      after := ⟨hright, hdata, hsr.putLeft (by grind) _, by simp [hr, ht],
        h.after.putLeft (by grind) (.inl hr) _⟩
      openLeft := h.openLeft
      openRight := by simp [Function.update_of_ne hne, hleft]
      nodup := by simpa [Parts.inorder] using h.nodup
      pos := by simpa [Parts.inorder] using h.pos }
  · exact SameOff.putLeft (by simp only [Parts.inorder, addrs_append]; grind) _ _

theorem Held.linkLeft {x : SplayLocals} {before after : TopDown.Spine (ℕ × α)} {b : ℕ × α}
    {l r : BinaryTree (ℕ × α)} (h : Held m x ⟨before, .node b l r, after⟩) (hr : r ≠ .nil) :
    Made m (addrs (Parts.inorder ⟨before, .node b l r, after⟩)) (splayLinkLeft m x)
      (TopDown.linkLeft before b l r after) := by
  obtain ⟨hleft, hright, hdata, hsl, hsr⟩ := h.mid
  have hnd := h.nodup
  have hend := endOf_mem_left before
  have hl : x.l = endOf before := h.l
  have ht : x.t = b.1 := h.t
  simp only [Parts.inorder, inorder_node, addrs_append, addrs_cons] at hnd
  have hopen : (m.right x.l).isSome := hl ▸ h.openLeft
  have hne : b.1 ≠ x.l := by grind
  have hout : TopDown.linkLeft before b l r after = (true, ⟨(b, l) :: before, r, after⟩) := by
    cases r with
    | nil => exact absurd rfl hr
    | node d rl rr => rfl
  refine ⟨m.putRight x.l x.t, ⟨addrOf r, x.t, x.r⟩, ?_, ?_, ?_⟩
  · rw [splayLinkLeft, SplayNodes.setRight_eq hopen, hout]
    simp [ht, Function.update_of_ne hne, hright]
  · rw [hout]
    exact {
      t := rfl
      l := ht
      r := h.r
      mid := hsr.putRight (by grind) _
      before := ⟨hleft, hdata, hsl.putRight (by grind) _, by simp [hl, ht],
        h.before.putRight (by grind) (.inl hl) _⟩
      after := h.after.putRight (by grind) _
      openLeft := by simp [Function.update_of_ne hne, hright]
      openRight := h.openRight
      nodup := by simpa [Parts.inorder] using h.nodup
      pos := by simpa [Parts.inorder] using h.pos }
  · exact SameOff.putRight (by simp only [Parts.inorder, addrs_append]; grind) _ _

/-- The spines do not share nodes with each other or with `tmp_root`. -/
theorem Held.spines {x : SplayLocals} {p : Parts (ℕ × α)} (h : Held m x p) :
    (tmpRoot :: addrs (inorderL p.before)).Nodup ∧ (tmpRoot :: addrs (inorderR p.after)).Nodup := by
  have hnd := h.nodup
  simp only [Parts.inorder, addrs_append] at hnd
  exact ⟨by grind, by grind⟩

/-- A node of the subtree is met once. -/
theorem Held.not_mem {x : SplayLocals} {p : Parts (ℕ × α)} (h : Held m x p) {b : ℕ × α}
    {bs ds : List (ℕ × α)} (hmid : inorder p.mid = bs ++ b :: ds) :
    b.1 ≠ tmpRoot ∧ b.1 ∉ addrs (inorderL p.before) ∧ b.1 ∉ addrs (inorderR p.after) ∧
      b.1 ∉ addrs bs ∧ b.1 ∉ addrs ds := by
  have hnd := h.nodup
  simp only [Parts.inorder, hmid, addrs_append, addrs_cons] at hnd
  exact ⟨by grind, by grind, by grind, by grind, by grind⟩

/-- `t->left = tmp->right; tmp->right = t; t = tmp;`. -/
theorem Held.rotateRight {x : SplayLocals} {before after : TopDown.Spine (ℕ × α)} {b d : ℕ × α}
    {ll lr r : BinaryTree (ℕ × α)} (h : Held m x ⟨before, .node b (.node d ll lr) r, after⟩) :
    Held ((m.putLeft b.1 (addrOf lr)).putRight d.1 b.1) { x with t := d.1 }
        ⟨before, .node d ll (.node b lr r), after⟩ := by
  obtain ⟨-, hright, hdata, ⟨hdleft, hdright, hddata, hsll, hslr⟩, hsr⟩ := h.mid
  obtain ⟨hbroot, hbbefore, hbafter, hbl, hbr⟩ := h.not_mem (b := b) (inorder_node b _ r)
  have hsplit : inorder (.node b (.node d ll lr) r) =
      inorder ll ++ d :: (inorder lr ++ b :: inorder r) := by simp
  obtain ⟨hdroot, hdbefore, hdafter, hdll, hdlr⟩ := h.not_mem hsplit
  simp only [inorder_node, addrs_append, addrs_cons, List.mem_append, List.mem_cons, not_or]
    at hbl hdlr
  have hendl : endOf before ≠ d.1 := by rcases endOf_mem_left before with h | h <;> grind
  have hendr : endOf after ≠ b.1 := by rcases endOf_mem_right after with h | h <;> grind
  exact {
    t := rfl
    l := h.l
    r := h.r
    mid := by
      refine ⟨?_, ?_, hddata, (hsll.putLeft hbl.1 _).putRight hdll _, ?_, ?_, hdata,
        (hslr.putLeft hbl.2.2 _).putRight hdlr.1 _, (hsr.putLeft hbr _).putRight hdlr.2.2 _⟩
      · simp [Function.update_of_ne (Ne.symm hbl.2.1), hdleft]
      · simp [addrOf]
      · simp
      · simp [Function.update_of_ne hbl.2.1, hright]
    before := (h.before.putLeft hbbefore _).putRight h.spines.1
      (.inr (List.not_mem_cons_of_ne_of_not_mem hdroot hdbefore)) _
    after := (h.after.putLeft h.spines.2
      (.inr (List.not_mem_cons_of_ne_of_not_mem hbroot hbafter)) _).putRight hdafter _
    openLeft := by
      rw [SplayNodes.putRight_right, Function.update_of_ne hendl]
      exact h.openLeft
    openRight := by
      rw [SplayNodes.putRight_left, SplayNodes.putLeft_left, Function.update_of_ne hendr]
      exact h.openRight
    nodup := by simpa [Parts.inorder] using h.nodup
    pos := by simpa [Parts.inorder] using h.pos }

/-- `t->right = tmp->left; tmp->left = t; t = tmp;`. -/
theorem Held.rotateLeft {x : SplayLocals} {before after : TopDown.Spine (ℕ × α)} {b d : ℕ × α}
    {l rl rr : BinaryTree (ℕ × α)} (h : Held m x ⟨before, .node b l (.node d rl rr), after⟩) :
    Held ((m.putRight b.1 (addrOf rl)).putLeft d.1 b.1) { x with t := d.1 }
        ⟨before, .node d (.node b l rl) rr, after⟩ := by
  obtain ⟨hleft, -, hdata, hsl, ⟨hdleft, hdright, hddata, hsrl, hsrr⟩⟩ := h.mid
  obtain ⟨hbroot, hbbefore, hbafter, hbl, hbr⟩ := h.not_mem (b := b) (inorder_node b l _)
  have hsplit : inorder (.node b l (.node d rl rr)) =
      (inorder l ++ b :: inorder rl) ++ d :: inorder rr := by simp
  obtain ⟨hdroot, hdbefore, hdafter, hdrl, hdrr⟩ := h.not_mem hsplit
  simp only [inorder_node, addrs_append, addrs_cons, List.mem_append, List.mem_cons, not_or]
    at hbr hdrl
  have hendl : endOf before ≠ b.1 := by rcases endOf_mem_left before with h | h <;> grind
  have hendr : endOf after ≠ d.1 := by rcases endOf_mem_right after with h | h <;> grind
  exact {
    t := rfl
    l := h.l
    r := h.r
    mid := by
      refine ⟨?_, ?_, hddata, ⟨?_, ?_, hdata, (hsl.putRight hbl _).putLeft hdrl.1 _,
        (hsrl.putRight hbr.1 _).putLeft hdrl.2.2 _⟩, (hsrr.putRight hbr.2.2 _).putLeft hdrr _⟩
      · simp [addrOf]
      · simp [Function.update_of_ne (Ne.symm hbr.2.1), hdright]
      · simp [Function.update_of_ne hbr.2.1, hleft]
      · simp
    before := (h.before.putRight h.spines.1
      (.inr (List.not_mem_cons_of_ne_of_not_mem hbroot hbbefore)) _).putLeft hdbefore _
    after := (h.after.putRight hbafter _).putLeft h.spines.2
      (.inr (List.not_mem_cons_of_ne_of_not_mem hdroot hdafter)) _
    openLeft := by
      rw [SplayNodes.putLeft_right, SplayNodes.putRight_right, Function.update_of_ne hendl]
      exact h.openLeft
    openRight := by
      rw [SplayNodes.putLeft_left, Function.update_of_ne hendr]
      exact h.openRight
    nodup := by simpa [Parts.inorder] using h.nodup
    pos := by simpa [Parts.inorder] using h.pos }

theorem Made.mono {as : List ℕ} {m m₁ : SplayNodes α}
    {round : Option (Bool × SplayNodes α × SplayLocals)} {out : Bool × Parts (ℕ × α)}
    (h : Made m₁ as round out) (hm : SameOff as m m₁) : Made m as round out := by
  obtain ⟨m', x', hround, hheld, hoff⟩ := h
  exact ⟨m', x', hround, hheld, hm.trans hoff⟩

/-- `if (t->left == NULL) break;` and the link. -/
theorem Held.breakRight {x : SplayLocals} {before after : TopDown.Spine (ℕ × α)} {b : ℕ × α}
    {l r : BinaryTree (ℕ × α)} (h : Held m x ⟨before, .node b l r, after⟩) :
    Made m (addrs (Parts.inorder ⟨before, .node b l r, after⟩))
      (if addrOf l = 0 then some (false, m, x) else splayLinkRight m x)
      (TopDown.linkRight before b l r after) := by
  cases l with
  | nil => exact ⟨m, x, rfl, h, SameOff.refl _ _⟩
  | node d ll lr =>
    have hne : d.1 ≠ 0 := by
      intro h0
      exact h.pos (by simp [Parts.inorder, ← h0])
    rw [if_neg (by simpa [addrOf] using hne)]
    exact h.linkRight (by simp)

/-- `if (t->right == NULL) break;` and the link. -/
theorem Held.breakLeft {x : SplayLocals} {before after : TopDown.Spine (ℕ × α)} {b : ℕ × α}
    {l r : BinaryTree (ℕ × α)} (h : Held m x ⟨before, .node b l r, after⟩) :
    Made m (addrs (Parts.inorder ⟨before, .node b l r, after⟩))
      (if addrOf r = 0 then some (false, m, x) else splayLinkLeft m x)
      (TopDown.linkLeft before b l r after) := by
  cases r with
  | nil => exact ⟨m, x, rfl, h, SameOff.refl _ _⟩
  | node d rl rr =>
    have hne : d.1 ≠ 0 := by
      intro h0
      exact h.pos (by simp [Parts.inorder, ← h0])
    rw [if_neg (by simpa [addrOf] using hne)]
    exact h.linkLeft (by simp)

/-- The round when the item lies before the root of the subtree. -/
theorem Held.splayRound_lt (cmp : α → α → ℤ) (data : α) {x : SplayLocals}
    {before after : TopDown.Spine (ℕ × α)} {b : ℕ × α} {l r : BinaryTree (ℕ × α)}
    (h : Held m x ⟨before, .node b l r, after⟩) (hlt : cmp data b.2 < 0) :
    Made m (addrs (Parts.inorder ⟨before, .node b l r, after⟩)) (SadOS.splayRound cmp data m x)
      (splayStep (fun b => cmp data b.2) ⟨before, .node b l r, after⟩) := by
  obtain ⟨hleft, hright, hdata, hsl, hsr⟩ := h.mid
  have ht : x.t = b.1 := h.t
  simp only [SadOS.splayRound, ht, hdata, hleft, splayStep, Option.bind_eq_bind, Option.bind_some,
    hlt, if_true]
  cases l with
  | nil => exact h.breakRight
  | node d ll lr =>
    obtain ⟨hdleft, hdright, hddata, hsll, hslr⟩ := hsl
    have hne : d.1 ≠ 0 := by
      intro h0
      exact h.pos (by simp [Parts.inorder, ← h0])
    simp only [addrOf, hne, if_false, hddata, Option.bind_some]
    by_cases hd : cmp data d.2 < 0
    · have hrot := h.rotateRight
      obtain ⟨hrleft, -⟩ := hrot.mid
      have hoff : SameOff (addrs (Parts.inorder ⟨before, .node d ll (.node b lr r), after⟩)) m
          ((m.putLeft b.1 (addrOf lr)).putRight d.1 b.1) :=
        (SameOff.putLeft (.inr (by simp [Parts.inorder])) m _).trans
          (SameOff.putRight (.inr (by simp [Parts.inorder])) _ _)
      simp only [hd, if_true, hdright, SplayNodes.setLeft_eq (m := m) (p := b.1) (by simp [hleft]),
        SplayNodes.setRight_eq (m := m.putLeft b.1 (addrOf lr)) (p := d.1) (by simp [hdright]),
        Option.bind_some, hrleft]
      simpa [Parts.inorder] using hrot.breakRight.mono hoff
    · simpa [hd, addrOf, hne] using h.breakRight

/-- The round when the item lies after the root of the subtree. -/
theorem Held.splayRound_gt (cmp : α → α → ℤ) (data : α) {x : SplayLocals}
    {before after : TopDown.Spine (ℕ × α)} {b : ℕ × α} {l r : BinaryTree (ℕ × α)}
    (h : Held m x ⟨before, .node b l r, after⟩) (hgt : 0 < cmp data b.2) :
    Made m (addrs (Parts.inorder ⟨before, .node b l r, after⟩)) (SadOS.splayRound cmp data m x)
      (splayStep (fun b => cmp data b.2) ⟨before, .node b l r, after⟩) := by
  obtain ⟨hleft, hright, hdata, hsl, hsr⟩ := h.mid
  have ht : x.t = b.1 := h.t
  have hlt : ¬ cmp data b.2 < 0 := by omega
  simp only [SadOS.splayRound, ht, hdata, hright, splayStep, Option.bind_eq_bind, Option.bind_some,
    hlt, hgt, if_true, if_false]
  cases r with
  | nil => exact h.breakLeft
  | node d rl rr =>
    obtain ⟨hdleft, hdright, hddata, hsrl, hsrr⟩ := hsr
    have hne : d.1 ≠ 0 := by
      intro h0
      exact h.pos (by simp [Parts.inorder, ← h0])
    simp only [addrOf, hne, if_false, hddata, Option.bind_some]
    by_cases hd : 0 < cmp data d.2
    · have hrot := h.rotateLeft
      obtain ⟨-, hrright, -⟩ := hrot.mid
      have hoff : SameOff (addrs (Parts.inorder ⟨before, .node d (.node b l rl) rr, after⟩)) m
          ((m.putRight b.1 (addrOf rl)).putLeft d.1 b.1) :=
        (SameOff.putRight (.inr (by simp [Parts.inorder])) m _).trans
          (SameOff.putLeft (.inr (by simp [Parts.inorder])) _ _)
      simp only [hd, if_true, hdleft, SplayNodes.setRight_eq (m := m) (p := b.1) (by simp [hright]),
        SplayNodes.setLeft_eq (m := m.putRight b.1 (addrOf rl)) (p := d.1) (by simp [hdleft]),
        Option.bind_some, hrright]
      simpa [Parts.inorder] using hrot.breakLeft.mono hoff
    · simpa [hd, addrOf, hne] using h.breakLeft

/-- One round of the loop is one step of top-down splaying. -/
theorem Held.splayRound (cmp : α → α → ℤ) (data : α) {x : SplayLocals} {p : Parts (ℕ × α)}
    (h : Held m x p) (hmid : p.mid ≠ .nil) :
    Made m (addrs p.inorder) (SadOS.splayRound cmp data m x)
      (splayStep (fun b => cmp data b.2) p) := by
  obtain ⟨before, mid, after⟩ := p
  cases mid with
  | nil => exact absurd rfl hmid
  | node b l r =>
    rcases lt_trichotomy (cmp data b.2) 0 with hlt | heq | hgt
    · exact h.splayRound_lt cmp data hlt
    · have hdata : m.data x.t = some b.2 := by
        rw [h.t]
        exact h.mid.2.2.1
      refine ⟨m, x, ?_, by simpa [splayStep, heq] using h, SameOff.refl _ _⟩
      simp [SadOS.splayRound, hdata, heq, splayStep]
    · exact h.splayRound_gt cmp data hgt

/-- The loop is the loop of top-down splaying. -/
theorem Held.splayRounds {cmp : α → α → ℤ} {data : α} (fuel : ℕ) {m : SplayNodes α}
    {x : SplayLocals} {p : Parts (ℕ × α)} (h : Held m x p)
    (hpart : Parted (fun b => cmp data b.2) p) (hsplit : Splits (fun b => cmp data b.2) p.inorder)
    (hmid : p.mid ≠ .nil) (hfuel : p.mid.numNodes ≤ fuel) :
    ∃ m' x', SadOS.splayRounds cmp data fuel m x = some (m', x') ∧
      Held m' x' (splayLoop (fun b => cmp data b.2) fuel p) ∧ SameOff (addrs p.inorder) m m' := by
  induction fuel generalizing m x p with
  | zero =>
    obtain ⟨before, _ | _, after⟩ := p
    · exact absurd rfl hmid
    · simp at hfuel
  | succ fuel ih =>
    obtain ⟨m', x', hround, hheld, hoff⟩ := h.splayRound cmp data hmid
    have hstep := hpart.splayStep hsplit.mid hmid
    have hin := inorder_splayStep (fun b : ℕ × α => cmp data b.2) p
    simp only [SadOS.splayRounds, hround, Option.bind_eq_bind, Option.bind_some, splayLoop]
    rcases hout : splayStep (fun b : ℕ × α => cmp data b.2) p with ⟨go, p'⟩
    rw [hout] at hheld hstep hin
    simp only at hheld hin
    cases go with
    | false => exact ⟨m', x', rfl, hheld, hoff⟩
    | true =>
      obtain ⟨hne, hsmall⟩ := hstep.next rfl
      simp only at hne hsmall
      obtain ⟨m'', x'', hrun, hheld', hoff'⟩ :=
        ih hheld hstep.parted (hin ▸ hsplit) hne (by omega)
      exact ⟨m'', x'', hrun, hheld', hoff.trans (hin ▸ hoff')⟩

/-! ### Putting the parts together -/

/-- Hanging a tree at the end of a left spine gives the tree that `tmp_root.right` points to. -/
theorem LeftSpine.close {spine : TopDown.Spine (ℕ × α)} (h : LeftSpine m spine)
    {t : BinaryTree (ℕ × α)} (ht : Stored m t) (hend : m.right (endOf spine) = some (addrOf t)) :
    m.right tmpRoot = some (addrOf (closeLeft t spine)) ∧ Stored m (closeLeft t spine) := by
  induction spine generalizing t with
  | nil => exact ⟨hend, ht⟩
  | cons frame spine ih =>
    obtain ⟨b, l⟩ := frame
    obtain ⟨hleft, hdata, hl, hlink, hrest⟩ := h
    have hnode : Stored m (.node b l t) := ⟨hleft, hend, hdata, hl, ht⟩
    exact ih hrest hnode hlink

theorem RightSpine.close {spine : TopDown.Spine (ℕ × α)} (h : RightSpine m spine)
    {t : BinaryTree (ℕ × α)} (ht : Stored m t) (hend : m.left (endOf spine) = some (addrOf t)) :
    m.left tmpRoot = some (addrOf (closeRight t spine)) ∧ Stored m (closeRight t spine) := by
  induction spine generalizing t with
  | nil => exact ⟨hend, ht⟩
  | cons frame spine ih =>
    obtain ⟨b, r⟩ := frame
    obtain ⟨hright, hdata, hr, hlink, hrest⟩ := h
    have hnode : Stored m (.node b t r) := ⟨hend, hright, hdata, ht, hr⟩
    exact ih hrest hnode hlink

theorem Stored.congr {t : BinaryTree (ℕ × α)} (h : Stored m t)
    (hm : ∀ a ∈ addrs (inorder t), m'.left a = m.left a ∧ m'.right a = m.right a ∧
      m'.data a = m.data a) : Stored m' t := by
  induction t with
  | nil => trivial
  | node b l r ihl ihr =>
    obtain ⟨hleft, hright, hdata, hl, hr⟩ := h
    simp only [inorder_node, addrs_append, addrs_cons, List.mem_append, List.mem_cons] at hm
    obtain ⟨hml, hmr, hmd⟩ := hm b.1 (.inr (.inl rfl))
    exact ⟨hml.trans hleft, hmr.trans hright, hmd.trans hdata,
      ihl hl fun a ha => hm a (.inl ha), ihr hr fun a ha => hm a (.inr (.inr ha))⟩

/-- The assignments after the loop of `splay`. -/
def splayClose (m : SplayNodes α) (x : SplayLocals) : Option (ℕ × SplayNodes α) := do
  let tLeft ← m.left x.t
  let m ← m.setRight x.l tLeft
  let tRight ← m.right x.t
  let m ← m.setLeft x.r tRight
  let tmpRight ← m.right tmpRoot
  let m ← m.setLeft x.t tmpRight
  let tmpLeft ← m.left tmpRoot
  let m ← m.setRight x.t tmpLeft
  return (x.t, m.drop tmpRoot)

theorem splay_eq (cmp : α → α → ℤ) (fuel : ℕ) (data : α) (t : ℕ) (m : SplayNodes α) :
    SadOS.splay cmp fuel data t m = if t = 0 then some (t, m) else
      (splayRounds cmp data fuel (m.make tmpRoot) ⟨t, tmpRoot, tmpRoot⟩).bind
        fun p => splayClose p.1 p.2 := rfl

/-- The two assignments that close the spines. -/
theorem Held.closeSpines {x : SplayLocals} {before after : TopDown.Spine (ℕ × α)} {d : ℕ × α}
    {l r : BinaryTree (ℕ × α)} (h : Held m x ⟨before, .node d l r, after⟩) :
    let m₂ := (m.putRight (endOf before) (addrOf l)).putLeft (endOf after) (addrOf r)
    (m₂.right tmpRoot = some (addrOf (closeLeft l before)) ∧ Stored m₂ (closeLeft l before)) ∧
      (m₂.left tmpRoot = some (addrOf (closeRight r after)) ∧ Stored m₂ (closeRight r after)) ∧
      m₂.left d.1 = m.left d.1 ∧ m₂.right d.1 = m.right d.1 ∧ m₂.data d.1 = some d.2 := by
  obtain ⟨-, -, hdata, hsl, hsr⟩ := h.mid
  have hnd := h.nodup
  have hendl := endOf_mem_left before
  have hendr := endOf_mem_right after
  simp only [Parts.inorder, inorder_node, addrs_append, addrs_cons] at hnd
  have hdl : d.1 ≠ endOf before := by grind
  have hdr : d.1 ≠ endOf after := by grind
  refine ⟨?_, ?_, ?_, ?_, hdata⟩
  · exact ((h.before.putRight h.spines.1 (.inl rfl) _).putLeft (by grind) _).close
      ((hsl.putRight (by grind) _).putLeft (by grind) _) (by simp)
  · exact ((h.after.putRight (by grind) _).putLeft h.spines.2 (.inl rfl) _).close
      ((hsr.putRight (by grind) _).putLeft (by grind) _) (by simp)
  · simp [Function.update_of_ne hdr]
  · simp [Function.update_of_ne hdl]

theorem SameOff.drop (as : List ℕ) (m : SplayNodes α) : SameOff as m (m.drop tmpRoot) where
  left _ ha _ := Function.update_of_ne ha _ _
  right _ ha _ := Function.update_of_ne ha _ _
  data _ ha := Function.update_of_ne ha _ _

theorem SameOff.make (as : List ℕ) (m : SplayNodes α) : SameOff as m (m.make tmpRoot) where
  left _ ha _ := Function.update_of_ne ha _ _
  right _ ha _ := Function.update_of_ne ha _ _
  data _ ha := Function.update_of_ne ha _ _

/-- A tree that does not reach `tmp_root` does not notice it. -/
theorem Stored.sameOff {t : BinaryTree (ℕ × α)} (h : Stored m t) (hm : SameOff [] m m')
    (ht : tmpRoot ∉ addrs (inorder t)) : Stored m' t := by
  apply h.congr
  intro a ha
  have hne : a ≠ tmpRoot := by
    rintro rfl
    exact ht ha
  exact ⟨hm.left a hne (by simp), hm.right a hne (by simp), hm.data a hne⟩

theorem Held.splayClose {x : SplayLocals} {before after : TopDown.Spine (ℕ × α)} {d : ℕ × α}
    {l r : BinaryTree (ℕ × α)} (h : Held m x ⟨before, .node d l r, after⟩) :
    ∃ m', SadOS.splayClose m x = some (d.1, m') ∧
      Stored m' (.node d (closeLeft l before) (closeRight r after)) ∧
      SameOff (addrs (Parts.inorder ⟨before, .node d l r, after⟩)) m m' := by
  obtain ⟨hleft, hright, hdata, hsl, hsr⟩ := h.mid
  have ht : x.t = d.1 := h.t
  have hl : x.l = endOf before := h.l
  have hr : x.r = endOf after := h.r
  have hnd := h.nodup
  have hendl := endOf_mem_left before
  have hendr := endOf_mem_right after
  have hne : d.1 ≠ endOf before := by
    simp only [Parts.inorder, inorder_node, addrs_append, addrs_cons] at hnd
    grind
  have hin : d.1 ∈ addrs (Parts.inorder ⟨before, .node d l r, after⟩) := by simp [Parts.inorder]
  have hclose := h.closeSpines
  set lt := closeLeft l before with hlt
  set rt := closeRight r after with hrt
  generalize hm₂ : (m.putRight (endOf before) (addrOf l)).putLeft (endOf after) (addrOf r) = m₂
    at hclose
  obtain ⟨⟨hroot, hclosed⟩, ⟨hroot', hclosed'⟩, hleft₂, hright₂, hdata₂⟩ := hclose
  have hoff₂ : SameOff (addrs (Parts.inorder ⟨before, .node d l r, after⟩)) m m₂ := by
    rw [← hm₂]
    apply (SameOff.putRight _ m _).trans (SameOff.putLeft _ _ _) <;>
      simp only [Parts.inorder, addrs_append] <;> grind
  -- then the root of the middle gets them as its children
  have hperm : tmpRoot :: addrs (inorder (.node d lt rt)) =
      tmpRoot :: addrs (Parts.inorder ⟨before, .node d l r, after⟩) := by
    simp [hlt, hrt, inorder_closeLeft, inorder_closeRight, Parts.inorder]
  have hnd' : (tmpRoot :: addrs (inorder (.node d lt rt))).Nodup := hperm ▸ h.nodup
  simp only [inorder_node, addrs_append, addrs_cons] at hnd'
  have hdroot : d.1 ≠ tmpRoot := by grind
  have hdlt : d.1 ∉ addrs (inorder lt) := by grind
  have hdrt : d.1 ∉ addrs (inorder rt) := by grind
  have hstored : Stored ((m₂.putLeft d.1 (addrOf lt)).putRight d.1 (addrOf rt)) (.node d lt rt) :=
    ⟨by simp, by simp, hdata₂, (hclosed.putLeft hdlt _).putRight hdlt _,
      (hclosed'.putLeft hdrt _).putRight hdrt _⟩
  refine ⟨((m₂.putLeft d.1 (addrOf lt)).putRight d.1 (addrOf rt)).drop tmpRoot, ?_, ?_, ?_⟩
  · simp only [SadOS.splayClose, ht, hl, hr, hleft, Option.bind_eq_bind, Option.bind_some,
      SplayNodes.setRight_eq h.openLeft, SplayNodes.putRight_right, Function.update_of_ne hne,
      hright, SplayNodes.setLeft_eq (m := m.putRight (endOf before) (addrOf l)) h.openRight, hm₂,
      hroot, SplayNodes.setLeft_eq (m := m₂) (p := d.1) (by simp [hleft₂, hleft]),
      SplayNodes.putLeft_left, Function.update_of_ne hdroot.symm, hroot']
    rw [SplayNodes.setRight_eq (by simp [hright₂, hright])]
    rfl
  · apply hstored.sameOff (SameOff.drop _ _)
    simp only [inorder_node, addrs_append, addrs_cons]
    grind
  · exact ((hoff₂.trans (SameOff.putLeft (.inr hin) _ _)).trans
      (SameOff.putRight (.inr hin) _ _)).trans (SameOff.drop _ _)

/-- `splay` leaves the splayed tree, and changes no other node. -/
theorem splay_stored (cmp : α → α → ℤ) (data : α) {fuel : ℕ} {t : BinaryTree (ℕ × α)}
    (ht : Stored m t) (hnd : (tmpRoot :: addrs (inorder t)).Nodup) (hpos : 0 ∉ addrs (inorder t))
    (hsplit : Splits (fun b => cmp data b.2) (inorder t)) (hne : t ≠ .nil)
    (hfuel : t.numNodes ≤ fuel) :
    ∃ m', SadOS.splay cmp fuel data (addrOf t) m =
        some (addrOf (TopDown.splay (fun b => cmp data b.2) fuel t), m') ∧
      Stored m' (TopDown.splay (fun b => cmp data b.2) fuel t) ∧
      SameOff (addrs (inorder t)) m m' := by
  have hheld : Held (m.make tmpRoot) ⟨addrOf t, tmpRoot, tmpRoot⟩ ⟨[], t, []⟩ := {
    t := rfl
    l := rfl
    r := rfl
    mid := ht.sameOff (SameOff.make _ _) (List.nodup_cons.1 hnd).1
    before := trivial
    after := trivial
    openLeft := by simp [SplayNodes.make]
    openRight := by simp [SplayNodes.make]
    nodup := by simpa [Parts.inorder] using hnd
    pos := by simpa [Parts.inorder] using hpos }
  have hin : Parts.inorder ⟨[], t, []⟩ = inorder t := by simp [Parts.inorder]
  obtain ⟨m', x', hrun, hheld', hoff⟩ := hheld.splayRounds fuel ⟨by simp, by simp⟩
    (hin ▸ hsplit) hne hfuel
  obtain ⟨-, d, l, r, hmid, -⟩ := splayLoop_tree hsplit hne hfuel
  have hin' := inorder_splayLoop (fun b : ℕ × α => cmp data b.2) fuel ⟨[], t, []⟩
  rcases hp : splayLoop (fun b : ℕ × α => cmp data b.2) fuel ⟨[], t, []⟩ with ⟨before, mid, after⟩
  rw [hp] at hheld' hmid hin'
  subst hmid
  obtain ⟨m'', hclose, hstored, hoff'⟩ := hheld'.splayClose
  rw [hin', hin] at hoff'
  rw [hin] at hoff
  have hne0 : addrOf t ≠ 0 := by
    cases t with
    | nil => exact absurd rfl hne
    | node b l r =>
      intro h0
      exact hpos (by simp [← h0, addrOf])
  refine ⟨m'', ?_, ?_, ((SameOff.make _ m).trans hoff).trans hoff'⟩
  · rw [splay_eq, if_neg hne0, hrun, Option.bind_some, hclose, TopDown.splay, hp]
    rfl
  · rw [TopDown.splay, hp]
    exact hstored

end SadOS
