import SadOS.Lib.LinkCycle

/-!
# Linked lists

`include/sys/list.h`, which the kernel and the programs use for all of their queues.  A
`struct list_head` is a node itself, and a list is a cycle of links through it.  Nodes are named by
their addresses; the offset of a node in the structure that it is part of has no part in this.

## Main definitions

* `listAdd`, `listDel` and their siblings — the source.
* `listForEach`, `listForEachSafe` — the loops.
* `ListOp.exec` — the calls on memory.
* `ListOp.apply` — the calls on lists.
* `ListOp.Allowed` — what the comments of the source ask of a call.

## Main results

* `list_run_refines` — runs of calls.
* `listForEachSafe_filter` — a loop that takes nodes out.
-/

namespace SadOS.ListHead

/-! ## The source -/

/-- `a->next = b`. -/
def setNext (f : DoubleLinks ℕ) (a b : ℕ) : DoubleLinks ℕ :=
  { f with next := Function.update f.next a b }

/-- `a->prev = b`. -/
def setPrev (f : DoubleLinks ℕ) (a b : ℕ) : DoubleLinks ℕ :=
  { f with prev := Function.update f.prev a b }

/-- `list_head_init`, `list_node_init`. -/
def listHeadInit (f : DoubleLinks ℕ) (h : ℕ) : DoubleLinks ℕ := setNext (setPrev f h h) h h

/-- `list_add_after`. -/
def listAddAfter (f : DoubleLinks ℕ) (p n : ℕ) : DoubleLinks ℕ :=
  let f := setNext f n (f.next p)
  let f := setPrev f n p
  let f := setPrev f (f.next p) n
  setNext f p n

/-- `list_add`. -/
def listAdd (f : DoubleLinks ℕ) (h n : ℕ) : DoubleLinks ℕ := listAddAfter f h n

/-- `list_add_before`. -/
def listAddBefore (f : DoubleLinks ℕ) (p n : ℕ) : DoubleLinks ℕ :=
  let f := setNext f n p
  let f := setPrev f n (f.prev p)
  let f := setNext f (f.prev p) n
  setPrev f p n

/-- `list_add_tail`. -/
def listAddTail (f : DoubleLinks ℕ) (h n : ℕ) : DoubleLinks ℕ := listAddBefore f h n

/-- `list_empty`. -/
def listEmpty (f : DoubleLinks ℕ) (h : ℕ) : Bool := f.next h == h

/-- `list_del`. -/
def listDel (f : DoubleLinks ℕ) (n : ℕ) : DoubleLinks ℕ :=
  let f := setPrev f (f.next n) (f.prev n)
  setNext f (f.prev n) (f.next n)

/-- `list_del_init`. -/
def listDelInit (f : DoubleLinks ℕ) (n : ℕ) : DoubleLinks ℕ := listHeadInit (listDel f n) n

/-- `list_del_from`, which panics at an empty list. -/
def listDelFrom (f : DoubleLinks ℕ) (h n : ℕ) : Option (DoubleLinks ℕ) :=
  if listEmpty f h then none else some (listDel f n)

/-- `list_swap`. -/
def listSwap (f : DoubleLinks ℕ) (o n : ℕ) : DoubleLinks ℕ :=
  let f := setPrev (setNext f n (f.next o)) n (f.prev o)
  let f := setPrev f (f.next n) n
  setNext f (f.prev n) n

/-- `list_top`. -/
def listTop (f : DoubleLinks ℕ) (h : ℕ) : Option ℕ := if listEmpty f h then none else some (f.next h)

/-- `list_pop`. -/
def listPop (f : DoubleLinks ℕ) (h : ℕ) : Option ℕ × DoubleLinks ℕ :=
  if listEmpty f h then (none, f)
  else
    let n := f.next h
    (some n, listDel f n)

/-- `list_tail`. -/
def listTail (f : DoubleLinks ℕ) (h : ℕ) : Option ℕ := if listEmpty f h then none else some (f.prev h)

/-- `list_entry_or_null`. -/
def listEntryOrNull (h n : ℕ) : Option ℕ := if n = h then none else some n

/-- `list_next`. -/
def listNext (f : DoubleLinks ℕ) (h i : ℕ) : Option ℕ := listEntryOrNull h (f.next i)

/-- `list_prev`. -/
def listPrev (f : DoubleLinks ℕ) (h i : ℕ) : Option ℕ := listEntryOrNull h (f.prev i)

/-- `list_append_list`. -/
def listAppendList (f : DoubleLinks ℕ) (to_ from_ : ℕ) : DoubleLinks ℕ :=
  let fromTail := f.prev from_
  let toTail := f.prev to_
  -- sew in head and entire list
  let f := setPrev f to_ fromTail
  let f := setNext f fromTail to_
  let f := setNext f toTail from_
  let f := setPrev f from_ toTail
  -- now remove head
  listHeadInit (listDel f from_) from_

/-- `list_prepend_list`. -/
def listPrependList (f : DoubleLinks ℕ) (to_ from_ : ℕ) : DoubleLinks ℕ :=
  let fromTail := f.prev from_
  let toHead := f.next to_
  -- sew in head and entire list
  let f := setNext f to_ from_
  let f := setPrev f from_ to_
  let f := setPrev f toHead fromTail
  let f := setNext f fromTail toHead
  -- now remove head
  listHeadInit (listDel f from_) from_

/-- The loop of `list_for_each_off_dir_`, from `i` on. -/
def listForEachDir (dir : ℕ → ℕ) (h : ℕ) : ℕ → ℕ → Option (List ℕ)
  | 0, _ => none
  | fuel + 1, i => if i = h then some [] else (listForEachDir dir h fuel (dir i)).map (i :: ·)

/-- The nodes in `list_for_each`. -/
def listForEach (f : DoubleLinks ℕ) (h fuel : ℕ) : Option (List ℕ) :=
  listForEachDir f.next h fuel (f.next h)

/-- The nodes in `list_for_each_rev`. -/
def listForEachRev (f : DoubleLinks ℕ) (h fuel : ℕ) : Option (List ℕ) :=
  listForEachDir f.prev h fuel (f.prev h)

/-- The loop of `list_for_each_safe_off_dir_`, with a body that changes a state. -/
def listForEachSafeDir {σ : Type} (dir : σ → ℕ → ℕ) (body : σ → ℕ → σ) (h : ℕ) :
    ℕ → ℕ → ℕ → σ → Option σ
  | 0, _, _, _ => none
  | fuel + 1, i, nxt, s =>
    if i = h then some s
    else
      let s := body s i
      listForEachSafeDir dir body h fuel nxt (dir s nxt) s

/-- `list_for_each_safe`. -/
def listForEachSafe {σ : Type} (dir : σ → ℕ → ℕ) (body : σ → ℕ → σ) (h fuel : ℕ) (s : σ) : Option σ :=
  listForEachSafeDir dir body h fuel (dir s h) (dir s (dir s h)) s

/-! ## Calls -/

/-- A call. -/
inductive ListOp where
  | headInit (h : ℕ)
  | add (h n : ℕ)
  | addTail (h n : ℕ)
  | addAfter (h p n : ℕ)
  | addBefore (h p n : ℕ)
  | del (n : ℕ)
  | delInit (n : ℕ)
  | delFrom (h n : ℕ)
  | swap (o n : ℕ)
  | pop (h : ℕ)
  | appendList (to_ from_ : ℕ)
  | prependList (to_ from_ : ℕ)
  | empty (h : ℕ)
  | top (h : ℕ)
  | tail (h : ℕ)
  | next (h i : ℕ)
  | prev (h i : ℕ)

/-- What a call returns. -/
inductive Answer where
  | done
  | bool (b : Bool)
  | node (n : Option ℕ)
  deriving DecidableEq

/-- A call on memory, or a panic. -/
def ListOp.exec (f : DoubleLinks ℕ) : ListOp → Option (Answer × DoubleLinks ℕ)
  | .headInit h => some (.done, listHeadInit f h)
  | .add h n => some (.done, listAdd f h n)
  | .addTail h n => some (.done, listAddTail f h n)
  | .addAfter _ p n => some (.done, listAddAfter f p n)
  | .addBefore _ p n => some (.done, listAddBefore f p n)
  | .del n => some (.done, listDel f n)
  | .delInit n => some (.done, listDelInit f n)
  | .delFrom h n => (listDelFrom f h n).map fun f => (.done, f)
  | .swap o n => some (.done, listSwap f o n)
  | .pop h => some (.node (listPop f h).1, (listPop f h).2)
  | .appendList to_ from_ => some (.done, listAppendList f to_ from_)
  | .prependList to_ from_ => some (.done, listPrependList f to_ from_)
  | .empty h => some (.bool (listEmpty f h), f)
  | .top h => some (.node (listTop f h), f)
  | .tail h => some (.node (listTail f h), f)
  | .next h i => some (.node (listNext f h i), f)
  | .prev h i => some (.node (listPrev f h i), f)

/-! ## The same on lists -/

/-- `n` comes after `p`. -/
def insertAfter (p n : ℕ) : List ℕ → List ℕ
  | [] => []
  | x :: l => if x = p then x :: n :: l else x :: insertAfter p n l

/-- `n` comes before `p`. -/
def insertBefore (p n : ℕ) : List ℕ → List ℕ
  | [] => []
  | x :: l => if x = p then n :: x :: l else x :: insertBefore p n l

/-- What comes after `i`. -/
def after (i : ℕ) (l : List ℕ) : Option ℕ := (l.dropWhile (· ≠ i)).tail.head?

/-- The list at a head changes. -/
def upd (A : Heads ℕ) (h : ℕ) (c : List ℕ → List ℕ) : Heads ℕ := Function.update A h ((A h).map c)

/-- A call on lists.  A head stands for the end of its list. -/
def ListOp.apply (A : Heads ℕ) : ListOp → Option (Answer × Heads ℕ)
  | .headInit h => some (.done, Function.update A h (some []))
  | .add h n => some (.done, upd A h (n :: ·))
  | .addTail h n => some (.done, upd A h (· ++ [n]))
  | .addAfter h p n => some (.done, upd A h fun l => (insertAfter p n (h :: l)).tail)
  | .addBefore h p n => some (.done, upd A h fun l => (insertBefore p n (l ++ [h])).dropLast)
  | .del n => some (.done, fun h => (A h).map fun l => l.erase n)
  | .delInit n => some (.done, fun h => (A h).map fun l => l.erase n)
  | .delFrom h n => if A h = some [] then none else some (.done, upd A h fun l => l.erase n)
  | .swap o n => some (.done, fun h => (A h).map fun l => l.map fun x => if x = o then n else x)
  | .pop h => some (.node ((A h).bind List.head?), upd A h List.tail)
  | .appendList to_ from_ => some (.done,
      upd (Function.update A from_ (some [])) to_ (· ++ (A from_).getD []))
  | .prependList to_ from_ => some (.done,
      upd (Function.update A from_ (some [])) to_ ((A from_).getD [] ++ ·))
  | .empty h => some (.bool (A h == some []), A)
  | .top h => some (.node ((A h).bind List.head?), A)
  | .tail h => some (.node ((A h).bind List.getLast?), A)
  | .next h i => some (.node ((A h).bind (after i)), A)
  | .prev h i => some (.node ((A h).bind fun l => after i l.reverse), A)

/-- What is on some list. -/
def OnList (A : Heads ℕ) (n : ℕ) : Prop := ∃ h l, A h = some l ∧ n ∈ l

/-- What the comments of the source ask of a call.  A node after `list_node_init` is an empty list of
its own, which `list_del` may be called with. -/
def ListOp.Allowed (A : Heads ℕ) : ListOp → Prop
  | .headInit h => ¬OnList A h
  | .add h n | .addTail h n => A h ≠ none ∧ A.Free n
  | .addAfter h p n | .addBefore h p n => p ∈ A.cells h ∧ A.Free n
  | .del n | .delInit n => OnList A n ∨ A n = some []
  | .delFrom h n => ∃ l, A h = some l ∧ (l ≠ [] → n ∈ l)
  | .swap o n => OnList A o ∧ A.Free n
  | .pop h | .empty h | .top h | .tail h => A h ≠ none
  | .appendList to_ from_ | .prependList to_ from_ => A to_ ≠ none ∧ A from_ ≠ none ∧ to_ ≠ from_
  | .next h i | .prev h i => ∃ l, A h = some l ∧ i ∈ l

/-! ## Runs -/

/-- A run on memory, with what the calls return. -/
def execAll : List ListOp → DoubleLinks ℕ → Option (List Answer × DoubleLinks ℕ)
  | [], f => some ([], f)
  | op :: ops, f => (op.exec f).bind fun r => (execAll ops r.2).map fun q => (r.1 :: q.1, q.2)

/-- A run on lists. -/
def applyAll : List ListOp → Heads ℕ → Option (List Answer × Heads ℕ)
  | [], A => some ([], A)
  | op :: ops, A => (op.apply A).bind fun r => (applyAll ops r.2).map fun q => (r.1 :: q.1, q.2)

/-- All calls of a run are allowed. -/
def AllAllowed : List ListOp → Heads ℕ → Prop
  | [], _ => True
  | op :: ops, A => op.Allowed A ∧ ∀ r, op.apply A = some r → AllAllowed ops r.2

/-! ## Writes to one list -/

section writes

variable {f : DoubleLinks ℕ} {A : Heads ℕ} {h n o p x : ℕ} {l l₁ l₂ k m r : List ℕ}

@[simp] theorem next_setNext : (setNext f n x).next = Function.update f.next n x := rfl

@[simp] theorem prev_setNext : (setNext f n x).prev = f.prev := rfl

@[simp] theorem next_setPrev : (setPrev f n x).next = f.next := rfl

@[simp] theorem prev_setPrev : (setPrev f n x).prev = Function.update f.prev n x := rfl

theorem listHeadInit_eq (f : DoubleLinks ℕ) (h : ℕ) : listHeadInit f h = f.wire h h := rfl

/-- Two links, as they are written. -/
theorem listAddAfter_eq (hn : n ≠ p) (hnext : f.next p ≠ n) :
    listAddAfter f p n = (f.wire n (f.next p)).wire p n := by
  ext x
  · simp [listAddAfter, DoubleLinks.wire]
  · simp only [listAddAfter, prev_setNext, prev_setPrev, next_setPrev, next_setNext, DoubleLinks.wire,
      Function.update_of_ne hn.symm]
    rw [Function.update_comm hnext]

theorem listAddBefore_eq_mirror : listAddBefore f p n = (listAddAfter f.mirror p n).mirror := rfl

theorem listDel_eq (hnext : f.next n ≠ n) : listDel f n = f.wire (f.prev n) (f.next n) := by
  ext x <;> simp [listDel, DoubleLinks.wire, Function.update_of_ne hnext.symm]

theorem listSwap_eq (hprev : f.prev o ≠ n) (hnext : f.next o ≠ n) :
    listSwap f o n = (f.wire (f.prev o) n).wire n (f.next o) := by
  ext x
  · simp [listSwap, DoubleLinks.wire, Function.update_of_ne hnext.symm, Function.update_comm hprev]
  · simp [listSwap, DoubleLinks.wire]

/-- `list_add_after` in a cycle. -/
theorem round_listAddAfter (h : f.Round (l₁ ++ p :: l₂ : List ℕ)) (hnd : (l₁ ++ p :: l₂).Nodup)
    (hn : n ∉ l₁ ++ p :: l₂) : (listAddAfter f p n).Round (l₁ ++ p :: n :: l₂ : List ℕ) := by
  have hrot : f.Round (p :: (l₂ ++ l₁) : List ℕ) := DoubleLinks.Round.rotate (r := p :: l₂) h
  have hmem : n ∉ p :: (l₂ ++ l₁) := by simp_all
  have hnp : n ≠ p := fun heq => hmem (heq ▸ List.mem_cons_self)
  have hnext : f.next p ≠ n := fun heq => hmem (heq ▸ hrot.next_mem List.mem_cons_self)
  rw [listAddAfter_eq hnp hnext]
  exact DoubleLinks.Round.rotate (l := p :: n :: l₂)
    (hrot.insert (List.nodup_append_comm.1 hnd) hmem)

/-- `list_add_before` in a cycle. -/
theorem round_listAddBefore (h : f.Round (l₁ ++ p :: l₂ : List ℕ)) (hnd : (l₁ ++ p :: l₂).Nodup)
    (hn : n ∉ l₁ ++ p :: l₂) : (listAddBefore f p n).Round (l₁ ++ n :: p :: l₂ : List ℕ) := by
  have hrot : f.Round (p :: (l₂ ++ l₁) : List ℕ) := DoubleLinks.Round.rotate (r := p :: l₂) h
  have hnd' : (p :: (l₂ ++ l₁).reverse).Nodup :=
    ((List.reverse_perm _).cons p).nodup_iff.2 (List.nodup_append_comm.1 hnd)
  have hmem : n ∉ p :: (l₂ ++ l₁).reverse := by simp_all
  have hround := (@round_listAddAfter f.mirror n p [] _ hrot.mirror hnd' hmem).mirror
  have hlist : p :: (n :: (l₂ ++ l₁).reverse).reverse = (p :: l₂) ++ (l₁ ++ [n]) := by simp
  rw [listAddBefore_eq_mirror]
  change ((listAddAfter f.mirror p n).mirror).Round (p :: (n :: (l₂ ++ l₁).reverse).reverse : List ℕ)
    at hround
  rw [hlist] at hround
  have hlist' : l₁ ++ n :: p :: l₂ = (l₁ ++ [n]) ++ (p :: l₂) := by simp
  rw [hlist']
  exact hround.rotate

/-- `list_del` in a cycle that has other cells. -/
theorem round_listDel (h : f.Round (k ++ n :: m : List ℕ)) (hnd : (k ++ n :: m).Nodup)
    (hne : k ++ m ≠ []) :
    listDel f n = f.wire (f.prev n) (f.next n) ∧ (listDel f n).Round (k ++ m : List ℕ) := by
  have hrot : f.Round (n :: (m ++ k) : List ℕ) := DoubleLinks.Round.rotate (r := n :: m) h
  have hnd' : (n :: (m ++ k)).Nodup := List.nodup_append_comm.1 hnd
  obtain ⟨p, r, hpr⟩ : ∃ p r, m ++ k = p :: r :=
    List.exists_cons_of_ne_nil fun hnil => hne (by simp_all)
  rw [hpr] at hrot hnd'
  have hnext : f.next n = p := hrot.next_head
  have hpn : p ≠ n := fun heq => (List.nodup_cons.1 hnd').1 (heq ▸ List.mem_cons_self)
  have heq := listDel_eq (f := f) (n := n) (hnext ▸ hpn)
  refine ⟨heq, ?_⟩
  have hround := hrot.remove hnd'
  rw [← hpr] at hround
  rw [heq]
  exact hround.rotate

/-- `list_swap` in a cycle that has other cells. -/
theorem round_listSwap (h : f.Round (k ++ o :: m : List ℕ)) (hnd : (k ++ o :: m).Nodup)
    (hn : n ∉ k ++ o :: m) (hne : k ++ m ≠ []) :
    listSwap f o n = (f.wire (f.prev o) n).wire n (f.next o) ∧
      (listSwap f o n).Round (k ++ n :: m : List ℕ) := by
  have hrot : f.Round (o :: (m ++ k) : List ℕ) := DoubleLinks.Round.rotate (r := o :: m) h
  have hnd' : (o :: (m ++ k)).Nodup := List.nodup_append_comm.1 hnd
  have hmem : n ∉ o :: (m ++ k) := by simp_all
  have heq := listSwap_eq (f := f) (o := o) (n := n) (fun heq => hmem (heq ▸ hrot.prev_mem List.mem_cons_self))
    fun heq => hmem (heq ▸ hrot.next_mem List.mem_cons_self)
  refine ⟨heq, ?_⟩
  obtain ⟨p, r, hpr⟩ : ∃ p r, m ++ k = p :: r :=
    List.exists_cons_of_ne_nil fun hnil => hne (by simp_all)
  rw [hpr] at hrot hnd' hmem
  have hround := hrot.replace hnd' hmem
  rw [← hpr] at hround
  rw [heq]
  exact DoubleLinks.Round.rotate (l := n :: m) hround

/-- A head that was sewn in goes, and is a cycle of its own. -/
theorem round_removeHead {b : ℕ} {c : List ℕ} (h : f.Round (b :: c : List ℕ)) (hnd : (b :: c).Nodup)
    (hne : c ≠ []) :
    (listHeadInit (listDel f b) b).Round (c : Cycle ℕ) ∧
      (listHeadInit (listDel f b) b).Round ([b] : List ℕ) ∧
      ∀ x ∉ b :: c, (listHeadInit (listDel f b) b).next x = f.next x ∧
        (listHeadInit (listDel f b) b).prev x = f.prev x := by
  obtain ⟨heq, hdel⟩ := round_listDel (f := f) (n := b) (k := []) h hnd hne
  have hb : b ∉ c := (List.nodup_cons.1 hnd).1
  rw [listHeadInit_eq]
  refine ⟨hdel.congr (fun x hx => ?_) (fun x hx => ?_), ?_, fun x hx => ?_⟩
  · exact DoubleLinks.next_wire_of_ne fun heq => hb (heq ▸ hx)
  · exact DoubleLinks.prev_wire_of_ne fun heq => hb (heq ▸ hx)
  · rw [DoubleLinks.round_cons]
    exact ⟨List.isChain_singleton b, DoubleLinks.link_wire_self ..⟩
  · have hxb : x ≠ b := fun heq => hx (heq ▸ List.mem_cons_self)
    rw [heq]
    exact DoubleLinks.same_wire_wire (fun heq => hx (heq ▸ h.prev_mem List.mem_cons_self))
      (fun heq => hx (heq ▸ h.next_mem List.mem_cons_self)) hxb hxb

/-- What is left of two lists whose cells are in one cycle. -/
structure Sewn (f f' : DoubleLinks ℕ) (a b : ℕ) (l r c : List ℕ) : Prop where
  round : f'.Round (a :: c : List ℕ)
  head : f'.Round ([b] : List ℕ)
  same : ∀ x, x ∉ a :: l → x ∉ b :: r → f'.next x = f.next x ∧ f'.prev x = f.prev x

/-- `list_append_list`. -/
theorem sewn_listAppendList {a b : ℕ} (ha : f.Round (a :: l : List ℕ)) (hb : f.Round (b :: r : List ℕ))
    (hnd : (a :: l ++ b :: r).Nodup) : Sewn f (listAppendList f a b) a b l r (l ++ r) := by
  have hmerge := ha.merge hb hnd
  have hrot := DoubleLinks.Round.rotate hmerge
  obtain ⟨hround, hhead, hsame⟩ := round_removeHead hrot (List.nodup_append_comm.1 hnd) (by simp)
  refine ⟨DoubleLinks.Round.rotate (l := r) hround, hhead, fun x hxa hxb => ?_⟩
  have hx : x ∉ b :: (r ++ a :: l) := by simp_all
  have hxb' : x ≠ f.prev b := fun heq => hxb (heq ▸ hb.prev_mem List.mem_cons_self)
  have hxa' : x ≠ f.prev a := fun heq => hxa (heq ▸ ha.prev_mem List.mem_cons_self)
  have hsewn := DoubleLinks.same_wire_wire (f := f) hxb' (List.ne_of_not_mem_cons hxa) hxa'
    (List.ne_of_not_mem_cons hxb)
  exact ⟨(hsame x hx).1.trans hsewn.1, (hsame x hx).2.trans hsewn.2⟩

/-- `list_prepend_list`. -/
theorem sewn_listPrependList {a b : ℕ} (ha : f.Round (a :: l : List ℕ))
    (hb : f.Round (b :: r : List ℕ)) (hnd : (a :: l ++ b :: r).Nodup) :
    Sewn f (listPrependList f a b) a b l r (r ++ l) := by
  have hrota : f.Round (l ++ [a] : List ℕ) := DoubleLinks.Round.rotate (l := [a]) ha
  obtain ⟨q, s, hqs⟩ : ∃ q s, l ++ [a] = q :: s := List.exists_cons_of_ne_nil (by simp)
  have hq : f.next a = q := by
    rw [ha.next_head]
    cases l <;> simp_all
  have hprev : f.prev q = a := hq ▸ ha.prev_next
  have hnd' : (q :: s ++ b :: r).Nodup := by
    rw [← hqs]
    have hperm : (l ++ [a] ++ b :: r).Perm (a :: l ++ b :: r) :=
      (List.perm_append_singleton a l).append_right _
    exact hperm.nodup_iff.2 hnd
  have hmem : ∀ x, x ∈ q :: s ↔ x ∈ a :: l := fun x => by rw [← hqs]; simp [or_comm]
  obtain ⟨-, -, hdis⟩ := List.nodup_append.1 hnd
  have hmerge := DoubleLinks.Round.merge (hqs ▸ hrota) hb hnd'
  rw [hprev, DoubleLinks.wire_comm
    (fun heq => hdis a List.mem_cons_self _ (hb.prev_mem List.mem_cons_self) heq.symm)
    (hdis q ((hmem q).1 List.mem_cons_self) b List.mem_cons_self), ← hqs] at hmerge
  have hrot := DoubleLinks.Round.rotate hmerge
  rw [← hqs] at hnd'
  obtain ⟨hround, hhead, hsame⟩ := round_removeHead hrot (List.nodup_append_comm.1 hnd') (by simp)
  have hsewn' : listPrependList f a b =
      listHeadInit (listDel ((f.wire a b).wire (f.prev b) q) b) b := by
    rw [← hq]
    rfl
  rw [hsewn']
  refine ⟨?_, hhead, fun x hxa hxb => ?_⟩
  · refine DoubleLinks.Round.rotate (l := r ++ l) (r := [a]) ?_
    rw [List.append_assoc]
    exact hround
  · have hx : x ∉ b :: (r ++ (l ++ [a])) := by simp_all
    have hxb' : x ≠ f.prev b := fun heq => hxb (heq ▸ hb.prev_mem List.mem_cons_self)
    have hxq : x ≠ q := fun heq => hxa ((hmem x).1 (heq ▸ List.mem_cons_self))
    have hsewn := DoubleLinks.same_wire_wire (f := f) (List.ne_of_not_mem_cons hxa)
      (List.ne_of_not_mem_cons hxb) hxb' hxq
    exact ⟨(hsame x hx).1.trans hsewn.1, (hsame x hx).2.trans hsewn.2⟩

end writes

/-! ## Calls keep the lists -/

section calls

variable {f : DoubleLinks ℕ} {A : Heads ℕ} {h n o p x : ℕ} {l l₁ l₂ k m r : List ℕ}

theorem insertAfter_append (hp : p ∉ l₁) :
    insertAfter p n (l₁ ++ p :: l₂) = l₁ ++ p :: n :: l₂ := by
  induction l₁ with
  | nil => simp [insertAfter]
  | cons x l₁ ih => simp_all [insertAfter, eq_comm]

theorem insertBefore_append (hp : p ∉ l₁) :
    insertBefore p n (l₁ ++ p :: l₂) = l₁ ++ n :: p :: l₂ := by
  induction l₁ with
  | nil => simp [insertBefore]
  | cons x l₁ ih => simp_all [insertBefore, eq_comm]

/-- The list of a cell. -/
theorem exists_of_mem_cells (hx : x ∈ A.cells h) : ∃ l, A h = some l ∧ A.cells h = h :: l := by
  cases hl : A h with
  | none => simp [Heads.cells, hl] at hx
  | some l => exact ⟨l, rfl, Heads.cells_of_eq hl⟩

/-- A free cell comes to a list. -/
theorem represents_insert {f' : DoubleLinks ℕ} {l' : List ℕ} (H : f.Represents A) (hl : A h = some l)
    (hfree : A.Free n) (hperm : (h :: l').Perm (n :: h :: l)) (hround : f'.Round (h :: l' : List ℕ))
    (hframe : ∀ x ∉ h :: l', f'.next x = f.next x ∧ f'.prev x = f.prev x) :
    f'.Represents (Function.update A h (some l')) := by
  have hcells : A.cells h = h :: l := Heads.cells_of_eq hl
  refine H.change hround ?_ (fun x hx => ?_) fun x _ hx => hframe x hx
  · exact hperm.nodup_iff.2 (List.nodup_cons.2 ⟨hcells ▸ hfree h, H.nodup_of_eq hl⟩)
  · rw [hcells]
    rcases List.mem_cons.1 (hperm.mem_iff.1 hx) with rfl | hmem
    · exact .inr hfree
    · exact .inl hmem

/-- `list_add_after`. -/
theorem represents_listAddAfter (H : f.Represents A) (hp : p ∈ A.cells h) (hfree : A.Free n) :
    (listAddAfter f p n).Represents (upd A h fun l => (insertAfter p n (h :: l)).tail) := by
  obtain ⟨l, hl, hcells⟩ := exists_of_mem_cells hp
  rw [hcells] at hp
  obtain ⟨l₁, l₂, hsplit, hl₁⟩ := List.eq_append_cons_of_mem hp
  have hround := H.round_of_eq hl
  have hnd := H.nodup_of_eq hl
  have hn : n ∉ h :: l := hcells ▸ hfree h
  have hnext := hround.next_mem hp
  have hnp : n ≠ p := fun heq => hn (heq ▸ hp)
  have hnn : f.next p ≠ n := fun heq => hn (heq ▸ hnext)
  have hhead : h :: (l₁ ++ p :: n :: l₂).tail = l₁ ++ p :: n :: l₂ := by cases l₁ <;> simp_all
  have hperm : (l₁ ++ p :: n :: l₂).Perm (n :: h :: l) := by
    rw [hsplit, List.append_cons l₁ p, List.append_cons l₁ p l₂]
    exact List.perm_middle
  rw [upd, hl, Option.map_some, hsplit, insertAfter_append hl₁]
  rw [hsplit] at hround hnd hn
  refine represents_insert H hl hfree (hhead ▸ hperm) (hhead ▸ round_listAddAfter hround hnd hn)
    fun x hx => ?_
  have hout : x ≠ n ∧ x ∉ h :: l := by
    rw [hhead, hperm.mem_iff] at hx
    simpa using hx
  rw [listAddAfter_eq hnp hnn]
  exact DoubleLinks.same_wire_wire hout.1 (fun heq => hout.2 (heq ▸ hnext))
    (fun heq => hout.2 (heq ▸ hp)) hout.1

/-- `list_add_before`. -/
theorem represents_listAddBefore (H : f.Represents A) (hp : p ∈ A.cells h) (hfree : A.Free n) :
    (listAddBefore f p n).Represents
      (upd A h fun l => (insertBefore p n (l ++ [h])).dropLast) := by
  obtain ⟨l, hl, hcells⟩ := exists_of_mem_cells hp
  rw [hcells] at hp
  have hmem : ∀ x, x ∈ h :: l ↔ x ∈ l ++ [h] := fun x => by simp [or_comm]
  obtain ⟨l₁, l₂, hsplit, hl₁⟩ := List.eq_append_cons_of_mem ((hmem p).1 hp)
  have hround := H.round_of_eq hl
  have hrot : f.Round (l ++ [h] : List ℕ) := DoubleLinks.Round.rotate (l := [h]) hround
  have hnd : (l ++ [h]).Nodup := List.nodup_append_comm.1 (H.nodup_of_eq hl)
  have hn : n ∉ h :: l := hcells ▸ hfree h
  have hprev := hround.prev_mem hp
  have hnp : n ≠ p := fun heq => hn (heq ▸ hp)
  have hpn : f.prev p ≠ n := fun heq => hn (heq ▸ hprev)
  obtain ⟨l', hl'⟩ : ∃ l', l₁ ++ n :: p :: l₂ = l' ++ [h] := by
    have hlast : (l₁ ++ n :: p :: l₂).getLast? = some h := by
      have hold := congrArg List.getLast? hsplit
      rw [List.getLast?_concat, List.getLast?_append] at hold
      rw [List.getLast?_append, List.getLast?_cons_cons]
      exact hold.symm
    exact ⟨_, (List.dropLast_append_getLast? h hlast).symm⟩
  have hperm : (h :: l').Perm (n :: h :: l) := by
    have hswap : (h :: l').Perm (l' ++ [h]) := (List.perm_append_singleton h l').symm
    refine hswap.trans ?_
    rw [← hl']
    refine List.perm_middle.trans (List.Perm.cons n ?_)
    rw [← hsplit]
    exact List.perm_append_singleton h l
  rw [upd, hl, Option.map_some, hsplit, insertBefore_append hl₁, hl', List.dropLast_concat]
  have hround' : (listAddBefore f p n).Round (h :: l' : List ℕ) := by
    rw [hsplit] at hrot hnd
    have hadd := round_listAddBefore hrot hnd (by rwa [← hsplit, ← hmem])
    rw [hl'] at hadd
    exact hadd.rotate
  refine represents_insert H hl hfree hperm hround' fun x hx => ?_
  have hout : x ≠ n ∧ x ∉ h :: l := by
    rw [hperm.mem_iff] at hx
    simpa using hx
  have hmirror := listAddAfter_eq (f := f.mirror) (p := p) hnp hpn
  have hsame := DoubleLinks.same_wire_wire (f := f.mirror) (a := n) (b := f.prev p) (n := p) (p := n)
    hout.1 (fun heq => hout.2 (heq ▸ hprev)) (fun heq => hout.2 (heq ▸ hp)) hout.1
  rw [listAddBefore_eq_mirror, hmirror]
  exact ⟨hsame.2, hsame.1⟩

/-- What is on a list is no head. -/
theorem not_onList_of_head (H : f.Represents A) (hl : A h ≠ none) : ¬OnList A h := by
  rintro ⟨g, r, hr, hmem⟩
  obtain ⟨l, hl⟩ := Option.ne_none_iff_exists'.1 hl
  have hg : h ∈ A.cells g := Heads.cells_of_eq hr ▸ List.mem_cons_of_mem g hmem
  have hh : h ∈ A.cells h := Heads.cells_of_eq hl ▸ List.mem_cons_self
  obtain rfl := H.eq_of_mem hg hh
  exact (List.nodup_cons.1 (H.nodup_of_eq hr)).1 hmem

/-- `list_head_init`. -/
theorem represents_listHeadInit (H : f.Represents A) (hh : ¬OnList A h) :
    (listHeadInit f h).Represents (Function.update A h (some [])) := by
  rw [listHeadInit_eq]
  refine H.change ?_ (List.nodup_singleton h) (fun x hx => ?_) fun x _ hx => ?_
  · rw [DoubleLinks.round_cons]
    exact ⟨List.isChain_singleton h, DoubleLinks.link_wire_self ..⟩
  · rw [List.mem_singleton.1 hx]
    cases hl : A h with
    | some l => exact .inl (Heads.cells_of_eq hl ▸ List.mem_cons_self)
    | none =>
      refine .inr fun g hg => ?_
      obtain ⟨r, hr, hcells⟩ := exists_of_mem_cells hg
      rw [hcells] at hg
      rcases List.mem_cons.1 hg with rfl | hmem
      · cases hl.symm.trans hr
      · exact hh ⟨g, r, hr, hmem⟩
  · have hxh : x ≠ h := List.ne_of_not_mem_cons hx
    exact DoubleLinks.same_wire hxh hxh

/-- The links of a free cell. -/
theorem represents_wire_free (H : f.Represents A) (hn : A.Free n) : (f.wire n n).Represents A where
  toApart := H.toApart
  round h := (H.round h).congr
    (fun _ hx => DoubleLinks.next_wire_of_ne fun heq => hn h (heq ▸ hx))
    fun _ hx => DoubleLinks.prev_wire_of_ne fun heq => hn h (heq ▸ hx)

/-- What is done to the list of a node is done to all lists. -/
theorem map_eq_update (H : f.Represents A) (hl : A h = some l) (ho : o ∈ l) {c : List ℕ → List ℕ}
    (hc : ∀ r, o ∉ r → c r = r) : (fun g => (A g).map c) = Function.update A h (some (c l)) := by
  funext g
  by_cases hg : g = h
  · rw [hg, Function.update_self, hl, Option.map_some]
  · rw [Function.update_of_ne hg]
    cases hr : A g with
    | none => rfl
    | some r =>
      rw [Option.map_some, hc r]
      intro hmem
      have hog : o ∈ A.cells g := Heads.cells_of_eq hr ▸ List.mem_cons_of_mem g hmem
      exact hg (H.eq_of_mem hog (Heads.cells_of_eq hl ▸ List.mem_cons_of_mem h ho))

theorem erase_append (hn : n ∉ l₁) : (l₁ ++ n :: l₂).erase n = l₁ ++ l₂ := by
  rw [List.erase_append_right _ hn, List.erase_cons_head]

/-- `list_del`. -/
theorem represents_listDel (H : f.Represents A) (hl : A h = some l) (hn : n ∈ l) :
    (listDel f n).Represents (Function.update A h (some (l.erase n))) := by
  have hround := H.round_of_eq hl
  have hnd := H.nodup_of_eq hl
  obtain ⟨l₁, l₂, rfl, hl₁⟩ := List.eq_append_cons_of_mem hn
  have hmem : n ∈ h :: (l₁ ++ n :: l₂) := List.mem_cons_of_mem h hn
  have hsub : (h :: (l₁ ++ l₂)).Sublist (h :: (l₁ ++ n :: l₂)) :=
    ((List.sublist_cons_self n l₂).append_left l₁).cons_cons h
  obtain ⟨heq, hdel⟩ := round_listDel (k := h :: l₁) hround hnd (by simp)
  rw [erase_append hl₁]
  refine H.change hdel (hnd.sublist hsub) (fun x hx => .inl ?_) fun x hx _ => ?_
  · exact Heads.cells_of_eq hl ▸ hsub.subset hx
  · rw [Heads.cells_of_eq hl] at hx
    rw [heq]
    exact DoubleLinks.same_wire (fun heq => hx (heq ▸ hround.prev_mem hmem))
      fun heq => hx (heq ▸ hround.next_mem hmem)

/-- What was taken out is free. -/
theorem free_of_erase (H : f.Represents A) (hl : A h = some l) (hn : n ∈ l) :
    Heads.Free (Function.update A h (some (l.erase n))) n := by
  have hnd := H.nodup_of_eq hl
  have hcell : n ∈ A.cells h := Heads.cells_of_eq hl ▸ List.mem_cons_of_mem h hn
  intro g hg
  rw [Heads.cells_update] at hg
  split at hg
  · rcases List.mem_cons.1 hg with rfl | hmem
    · exact (List.nodup_cons.1 hnd).1 hn
    · exact (List.nodup_cons.1 hnd).2.not_mem_erase hmem
  · rename_i hne
    exact hne (H.eq_of_mem hg hcell)

theorem map_replace (ho : o ∉ l) : l.map (fun x => if x = o then n else x) = l := by
  have hid : l.map (fun x => if x = o then n else x) = l.map id := by
    refine List.map_congr_left fun x hx => if_neg ?_
    rintro rfl
    exact ho hx
  rw [hid, List.map_id]

/-- `list_swap`. -/
theorem represents_listSwap (H : f.Represents A) (hl : A h = some l) (ho : o ∈ l) (hn : A.Free n) :
    (listSwap f o n).Represents
      (Function.update A h (some (l.map fun x => if x = o then n else x))) := by
  have hround := H.round_of_eq hl
  have hnd := H.nodup_of_eq hl
  have hnew : n ∉ h :: l := Heads.cells_of_eq hl ▸ hn h
  obtain ⟨l₁, l₂, rfl, hl₁⟩ := List.eq_append_cons_of_mem ho
  have hmem : o ∈ h :: (l₁ ++ o :: l₂) := List.mem_cons_of_mem h ho
  have hl₂ : o ∉ l₂ := by
    have hlist := (List.nodup_append.1 (List.nodup_cons.1 hnd).2).2.1
    exact (List.nodup_cons.1 hlist).1
  obtain ⟨heq, hswap⟩ := round_listSwap (k := h :: l₁) hround hnd hnew (by simp)
  have hmap : (l₁ ++ o :: l₂).map (fun x => if x = o then n else x) = l₁ ++ n :: l₂ := by
    rw [List.map_append, List.map_cons, if_pos rfl, map_replace hl₁, map_replace hl₂]
  have hperm : (h :: (l₁ ++ n :: l₂)).Perm (n :: h :: (l₁ ++ l₂)) :=
    (List.perm_middle.cons h).trans (List.Perm.swap n h _)
  have hsub : (h :: (l₁ ++ l₂)).Sublist (h :: (l₁ ++ o :: l₂)) :=
    ((List.sublist_cons_self o l₂).append_left l₁).cons_cons h
  rw [hmap]
  refine H.change hswap ?_ (fun x hx => ?_) fun x hx hx' => ?_
  · exact hperm.nodup_iff.2 (List.nodup_cons.2 ⟨fun hmem => hnew (hsub.subset hmem), hnd.sublist hsub⟩)
  · rcases List.mem_cons.1 (hperm.mem_iff.1 hx) with rfl | hmem'
    · exact .inr hn
    · exact .inl (Heads.cells_of_eq hl ▸ hsub.subset hmem')
  · rw [Heads.cells_of_eq hl] at hx
    have hxn : x ≠ n := fun heq => hx' (hperm.mem_iff.2 (heq ▸ List.mem_cons_self))
    rw [heq]
    exact DoubleLinks.same_wire_wire (fun heq => hx (heq ▸ hround.prev_mem hmem)) hxn hxn
      fun heq => hx (heq ▸ hround.next_mem hmem)

/-- Two lists were sewn together. -/
theorem represents_sewn {f' : DoubleLinks ℕ} {a b : ℕ} {c : List ℕ} (H : f.Represents A)
    (ha : A a = some l) (hb : A b = some r) (hperm : c.Perm (l ++ r)) (hab : a ≠ b)
    (hsewn : Sewn f f' a b l r c) :
    f'.Represents (Function.update (Function.update A b (some [])) a (some c)) := by
  have hempty := represents_listHeadInit H (not_onList_of_head H (hb ▸ Option.some_ne_none r))
  have hcells : Heads.cells (Function.update A b (some [])) a = a :: l := by
    rw [Heads.cells_update, if_neg hab, Heads.cells_of_eq ha]
  have hdis := H.disjoint a b hab
  rw [Heads.cells_of_eq ha, Heads.cells_of_eq hb] at hdis
  have hnda := H.nodup_of_eq ha
  have hndb := H.nodup_of_eq hb
  have hperm' : (a :: c).Perm (a :: l ++ r) := hperm.cons a
  refine hempty.change hsewn.round ?_ (fun x hx => ?_) fun x hx hx' => ?_
  · refine hperm'.nodup_iff.2 (List.nodup_append.2 ⟨hnda, (List.nodup_cons.1 hndb).2, ?_⟩)
    exact fun x hx y hy heq => hdis hx (heq ▸ List.mem_cons_of_mem b hy)
  · rw [hcells]
    rcases List.mem_append.1 (hperm'.mem_iff.1 hx) with hmem | hmem
    · exact .inl hmem
    · -- a node of the list that is now empty
      have hcell : x ∈ A.cells b := Heads.cells_of_eq hb ▸ List.mem_cons_of_mem b hmem
      refine .inr fun g hg => ?_
      rw [Heads.cells_update] at hg
      split at hg
      · exact (List.nodup_cons.1 hndb).1 (List.mem_singleton.1 hg ▸ hmem)
      · rename_i hgb
        exact hgb (H.eq_of_mem hg hcell)
  · rw [hcells] at hx
    have hxr : x ∉ r := fun hmem =>
      hx' (hperm'.mem_iff.2 (List.mem_append_right _ hmem))
    by_cases hxb : x = b
    · have hnext := hsewn.head.next_head
      have hprev := hsewn.head.prev_head
      rw [hxb, listHeadInit_eq, DoubleLinks.next_wire_self, DoubleLinks.prev_wire_self]
      exact ⟨hnext, hprev⟩
    · have hsame := hsewn.same x hx (by simp [hxb, hxr])
      have hinit := DoubleLinks.same_wire (f := f) hxb hxb
      rw [listHeadInit_eq]
      exact ⟨hsame.1.trans hinit.1.symm, hsame.2.trans hinit.2.symm⟩

/-- Two lists, before one of them is sewn into the other. -/
theorem heads_of_two {a b : ℕ} (H : f.Represents A) (ha : A a = some l) (hb : A b = some r)
    (hab : a ≠ b) :
    Function.update A b (some []) a = some l ∧ (a :: l ++ b :: r).Nodup := by
  have hdis := H.disjoint a b hab
  rw [Heads.cells_of_eq ha, Heads.cells_of_eq hb] at hdis
  refine ⟨(Function.update_of_ne hab ..).trans ha, List.nodup_append.2
    ⟨H.nodup_of_eq ha, H.nodup_of_eq hb, ?_⟩⟩
  rintro x hx y hy rfl
  exact hdis hx hy

/-- `list_empty`. -/
theorem listEmpty_eq (H : f.Represents A) (hl : A h = some l) : listEmpty f h = (l == []) := by
  have hnext := (H.round_of_eq hl).next_head
  have hnd := H.nodup_of_eq hl
  rw [listEmpty, hnext]
  cases l with
  | nil => simp
  | cons x r =>
    have hx : x ≠ h := fun heq => (List.nodup_cons.1 hnd).1 (heq ▸ List.mem_cons_self)
    simp [hx]

theorem listTop_eq (H : f.Represents A) (hl : A h = some l) : listTop f h = l.head? := by
  rw [listTop, listEmpty_eq H hl, (H.round_of_eq hl).next_head]
  cases l <;> simp

theorem listTail_eq (H : f.Represents A) (hl : A h = some l) : listTail f h = l.getLast? := by
  rw [listTail, listEmpty_eq H hl, (H.round_of_eq hl).prev_head]
  rcases List.eq_nil_or_concat l with rfl | ⟨s, z, rfl⟩ <;> simp

/-- `list_next` of a node. -/
theorem listNext_eq (hround : f.Round (h :: l : List ℕ)) (hnd : (h :: l).Nodup) (hx : x ∈ l) :
    listNext f h x = after x l := by
  obtain ⟨l₁, l₂, rfl, hl₁⟩ := List.eq_append_cons_of_mem hx
  have hafter : after x (l₁ ++ x :: l₂) = l₂.head? := by
    have hdrop : (l₁ ++ x :: l₂).dropWhile (· ≠ x) = x :: l₂ := by
      rw [List.dropWhile_append_of_pos fun y hy => by
        simpa using fun heq : y = x => hl₁ (heq ▸ hy)]
      simp
    rw [after, hdrop, List.tail_cons]
  have hnext := hround.at_node.next_head
  rw [hafter, listNext, hnext]
  cases l₂ with
  | nil => simp [listEntryOrNull]
  | cons y r =>
    have hyh : y ≠ h := by
      rintro rfl
      simp at hnd
    simp [listEntryOrNull, hyh]

/-- The links the other way around. -/
theorem listPrev_eq (hround : f.Round (h :: l : List ℕ)) (hnd : (h :: l).Nodup) (hx : x ∈ l) :
    listPrev f h x = after x l.reverse := by
  have hnd' : (h :: l.reverse).Nodup := ((List.reverse_perm l).cons h).nodup_iff.2 hnd
  exact listNext_eq hround.mirror hnd' (List.mem_reverse.2 hx)

theorem upd_of_eq (hl : A h = some l) (c : List ℕ → List ℕ) :
    upd A h c = Function.update A h (some (c l)) := by rw [upd, hl, Option.map_some]

/-- `list_del` of a node of some list. -/
theorem represents_listDel_map (H : f.Represents A) (hn : OnList A n) :
    (listDel f n).Represents (fun h => (A h).map fun l => l.erase n) ∧
      Heads.Free (fun h => (A h).map fun l => l.erase n) n := by
  obtain ⟨h, l, hl, hmem⟩ := hn
  rw [map_eq_update H hl hmem fun r hr => List.erase_of_not_mem hr]
  exact ⟨represents_listDel H hl hmem, free_of_erase H hl hmem⟩

/-- `list_del` of a node that is an empty list of its own. -/
theorem listDel_lone (H : f.Represents A) (hn : A n = some []) :
    listDel f n = f ∧ (fun h => (A h).map fun l => l.erase n) = A := by
  have hround := H.round_of_eq hn
  have hnext : f.next n = n := hround.next_head
  have hprev : f.prev n = n := hround.prev_head
  constructor
  · ext x <;> simp [listDel, hnext, hprev, Function.update_apply] <;> grind
  · funext h
    cases hl : A h with
    | none => rfl
    | some l =>
      have hmem : n ∉ l := fun hmem =>
        not_onList_of_head H (hn ▸ Option.some_ne_none []) ⟨h, l, hl, hmem⟩
      rw [Option.map_some, List.erase_of_not_mem hmem]

end calls

/-! ## Runs keep the lists -/

section runs

variable {f : DoubleLinks ℕ} {A : Heads ℕ} {op : ListOp}

/-- One call. -/
theorem Represents.exec (H : f.Represents A) (hop : op.Allowed A) :
    match op.apply A with
    | none => op.exec f = none
    | some r => ∃ f', op.exec f = some (r.1, f') ∧ f'.Represents r.2 := by
  cases op with
  | headInit h => exact ⟨_, rfl, represents_listHeadInit H hop⟩
  | add h n =>
    obtain ⟨hh, hfree⟩ := hop
    obtain ⟨l, hl⟩ := Option.ne_none_iff_exists'.1 hh
    have hadd := represents_listAddAfter (p := h) H
      (Heads.cells_of_eq hl ▸ List.mem_cons_self) hfree
    rw [upd_of_eq hl] at hadd
    refine ⟨_, rfl, ?_⟩
    rw [upd_of_eq hl]
    simpa [insertAfter, listAdd] using hadd
  | addTail h n =>
    obtain ⟨hh, hfree⟩ := hop
    obtain ⟨l, hl⟩ := Option.ne_none_iff_exists'.1 hh
    have hadd := represents_listAddBefore (p := h) H
      (Heads.cells_of_eq hl ▸ List.mem_cons_self) hfree
    have hhl : h ∉ l := (List.nodup_cons.1 (H.nodup_of_eq hl)).1
    have hlist : (insertBefore h n (l ++ [h])).dropLast = l ++ [n] := by
      rw [insertBefore_append hhl, List.append_cons, List.dropLast_concat]
    rw [upd_of_eq hl, hlist] at hadd
    refine ⟨_, rfl, ?_⟩
    rw [upd_of_eq hl]
    exact hadd
  | addAfter h p n => exact ⟨_, rfl, represents_listAddAfter H hop.1 hop.2⟩
  | addBefore h p n => exact ⟨_, rfl, represents_listAddBefore H hop.1 hop.2⟩
  | del n =>
    rcases hop with hmem | hlone
    · exact ⟨_, rfl, (represents_listDel_map H hmem).1⟩
    · obtain ⟨hdel, hsame⟩ := listDel_lone H hlone
      exact ⟨_, rfl, hdel.symm ▸ hsame.symm ▸ H⟩
  | delInit n =>
    rcases hop with hmem | hlone
    · obtain ⟨hdel, hfree⟩ := represents_listDel_map H hmem
      exact ⟨_, rfl, represents_wire_free hdel hfree⟩
    · obtain ⟨hdel, hsame⟩ := listDel_lone H hlone
      have hinit := represents_listHeadInit H (not_onList_of_head H (hlone ▸ Option.some_ne_none []))
      have hself : Function.update A n (some []) = A := hlone ▸ Function.update_eq_self n A
      rw [hself, ← hdel] at hinit
      exact ⟨_, rfl, hsame.symm ▸ hinit⟩
  | delFrom h n =>
    obtain ⟨l, hl, hmem⟩ := hop
    have hempty := listEmpty_eq H hl
    cases l with
    | nil => simp [ListOp.apply, ListOp.exec, listDelFrom, hl, hempty]
    | cons x r =>
      have hdel := represents_listDel H hl (hmem (List.cons_ne_nil x r))
      simp only [ListOp.apply, ListOp.exec, listDelFrom, hl, hempty, upd_of_eq hl]
      exact ⟨_, rfl, hdel⟩
  | swap o n =>
    obtain ⟨⟨h, l, hl, hmem⟩, hfree⟩ := hop
    refine ⟨_, rfl, ?_⟩
    have hmap := map_eq_update H hl hmem (c := fun l => l.map fun x => if x = o then n else x)
      fun r hr => map_replace hr
    dsimp only
    rw [hmap]
    exact represents_listSwap H hl hmem hfree
  | pop h =>
    obtain ⟨l, hl⟩ := Option.ne_none_iff_exists'.1 hop
    have hempty := listEmpty_eq H hl
    have hnext := (H.round_of_eq hl).next_head
    cases l with
    | nil =>
      simp only [ListOp.apply, ListOp.exec, listPop, hl, hempty, upd_of_eq hl]
      refine ⟨f, rfl, ?_⟩
      have hself : Function.update A h (some []) = A := hl ▸ Function.update_eq_self h A
      exact hself.symm ▸ H
    | cons x r =>
      have hdel := represents_listDel H hl List.mem_cons_self
      rw [List.erase_cons_head] at hdel
      simp only [ListOp.apply, ListOp.exec, listPop, hl, hempty, upd_of_eq hl, hnext]
      exact ⟨_, rfl, hdel⟩
  | appendList a b =>
    obtain ⟨ha, hb, hab⟩ := hop
    obtain ⟨l, hl⟩ := Option.ne_none_iff_exists'.1 ha
    obtain ⟨r, hr⟩ := Option.ne_none_iff_exists'.1 hb
    obtain ⟨hlists, hnd⟩ := heads_of_two H hl hr hab
    refine ⟨_, rfl, ?_⟩
    rw [upd_of_eq hlists, hr, Option.getD_some]
    exact represents_sewn H hl hr (List.Perm.refl _) hab
      (sewn_listAppendList (H.round_of_eq hl) (H.round_of_eq hr) hnd)
  | prependList a b =>
    obtain ⟨ha, hb, hab⟩ := hop
    obtain ⟨l, hl⟩ := Option.ne_none_iff_exists'.1 ha
    obtain ⟨r, hr⟩ := Option.ne_none_iff_exists'.1 hb
    obtain ⟨hlists, hnd⟩ := heads_of_two H hl hr hab
    refine ⟨_, rfl, ?_⟩
    rw [upd_of_eq hlists, hr, Option.getD_some]
    exact represents_sewn H hl hr List.perm_append_comm hab
      (sewn_listPrependList (H.round_of_eq hl) (H.round_of_eq hr) hnd)
  | empty h =>
    obtain ⟨l, hl⟩ := Option.ne_none_iff_exists'.1 hop
    refine ⟨f, ?_, H⟩
    simp [ListOp.exec, listEmpty_eq H hl, hl]
  | top h =>
    obtain ⟨l, hl⟩ := Option.ne_none_iff_exists'.1 hop
    exact ⟨f, by simp [ListOp.exec, listTop_eq H hl, hl], H⟩
  | tail h =>
    obtain ⟨l, hl⟩ := Option.ne_none_iff_exists'.1 hop
    exact ⟨f, by simp [ListOp.exec, listTail_eq H hl, hl], H⟩
  | next h i =>
    obtain ⟨l, hl, hmem⟩ := hop
    have hnext := listNext_eq (H.round_of_eq hl) (H.nodup_of_eq hl) hmem
    exact ⟨f, by simp [ListOp.exec, hnext, hl], H⟩
  | prev h i =>
    obtain ⟨l, hl, hmem⟩ := hop
    have hprev := listPrev_eq (H.round_of_eq hl) (H.nodup_of_eq hl) hmem
    exact ⟨f, by simp [ListOp.exec, hprev, hl], H⟩

/-- Memory that has no list. -/
theorem represents_none (f : DoubleLinks ℕ) : f.Represents fun _ => none :=
  ⟨⟨fun _ => List.nodup_nil, fun _ _ _ => List.disjoint_nil_left _⟩, fun _ => DoubleLinks.round_nil⟩

/-- A run. -/
theorem Represents.execAll (H : f.Represents A) {ops : List ListOp} (hops : AllAllowed ops A) :
    match applyAll ops A with
    | none => ListHead.execAll ops f = none
    | some r => ∃ f', ListHead.execAll ops f = some (r.1, f') ∧ f'.Represents r.2 := by
  induction ops generalizing f A with
  | nil => exact ⟨f, rfl, H⟩
  | cons op ops ih =>
    obtain ⟨hop, hops⟩ := hops
    have hstep := Represents.exec H hop
    cases hr : op.apply A with
    | none =>
      rw [hr] at hstep
      dsimp only at hstep
      simp only [applyAll, hr, Option.bind_none, ListHead.execAll, hstep]
    | some r =>
      rw [hr] at hstep
      obtain ⟨f', hexec, hrep⟩ := hstep
      have hrest := ih hrep (hops r hr)
      simp only [applyAll, hr, Option.bind_some, ListHead.execAll, hexec]
      cases hq : applyAll ops r.2 with
      | none =>
        rw [hq] at hrest
        dsimp only at hrest
        rw [hrest]
        rfl
      | some q =>
        rw [hq] at hrest
        obtain ⟨f'', hall, hrep'⟩ := hrest
        rw [hall]
        exact ⟨f'', rfl, hrep'⟩

end runs

/-! ## Loops -/

section loops

variable {f : DoubleLinks ℕ} {A : Heads ℕ} {h i : ℕ} {l : List ℕ}

/-- A loop along links. -/
theorem listForEachDir_eq {dir : ℕ → ℕ} {fuel : ℕ} (hpath : (l ++ [h]).IsChain fun a b => dir a = b)
    (hi : (l ++ [h]).head? = some i) (hh : h ∉ l) (hfuel : l.length < fuel) :
    listForEachDir dir h fuel i = some l := by
  induction l generalizing i fuel with
  | nil =>
    obtain ⟨k, rfl⟩ := Nat.exists_eq_add_of_lt hfuel
    simp_all [listForEachDir]
  | cons x l ih =>
    obtain ⟨k, rfl⟩ := Nat.exists_eq_add_of_lt hfuel
    obtain rfl : x = i := Option.some.inj hi
    obtain ⟨hne, hh⟩ : h ≠ x ∧ h ∉ l := by simpa using hh
    obtain ⟨y, s, hys⟩ : ∃ y s, l ++ [h] = y :: s := List.exists_cons_of_ne_nil (by simp)
    rw [List.cons_append, hys, List.isChain_cons_cons, ← hys] at hpath
    have hrest : listForEachDir dir h (l.length + 1 + k) (dir x) = some l :=
      ih hpath.2 (by rw [hys, hpath.1]; rfl) hh (by omega)
    rw [listForEachDir, if_neg hne.symm, List.length_cons, hrest]
    rfl

/-- `list_for_each`. -/
theorem listForEach_eq (H : f.Represents A) (hl : A h = some l) {fuel : ℕ} (hfuel : l.length < fuel) :
    listForEach f h fuel = some l := by
  have hround := H.round_of_eq hl
  have hhl : h ∉ l := (List.nodup_cons.1 (H.nodup_of_eq hl)).1
  have hnext := hround.next_head
  rw [DoubleLinks.Round, Cycle.chain_coe_cons] at hround
  refine listForEachDir_eq (hround.tail.imp fun a b hab => hab.1) ?_ hhl hfuel
  rw [hnext]
  cases l <;> rfl

/-- `list_for_each_rev`. -/
theorem listForEachRev_eq (H : f.Represents A) (hl : A h = some l) {fuel : ℕ}
    (hfuel : l.length < fuel) : listForEachRev f h fuel = some l.reverse := by
  have hround := (H.round_of_eq hl).mirror
  have hhl : h ∉ l.reverse := by simpa using (List.nodup_cons.1 (H.nodup_of_eq hl)).1
  have hprev : f.prev h = l.reverse.head?.getD h := hround.next_head
  rw [DoubleLinks.Round, Cycle.chain_coe_cons] at hround
  refine listForEachDir_eq (hround.tail.imp fun a b hab => hab.1) ?_ hhl (by simpa using hfuel)
  rw [hprev]
  cases l.reverse <;> rfl

/-- Memory of zeros. -/
def noLinks : DoubleLinks ℕ := ⟨fun _ => 0, fun _ => 0⟩

/-- A list of two nodes. -/
def twoNodes : List ListOp := [.headInit 8, .addTail 8 1, .add 8 2]

/-- The two nodes go to another list, and one of them goes. -/
def moveNodes : List ListOp := twoNodes ++ [.headInit 16, .appendList 16 8, .pop 16]

theorem allAllowed_moveNodes : AllAllowed moveNodes fun _ => none := by
  simp only [moveNodes, twoNodes, List.cons_append, List.nil_append, AllAllowed, ListOp.Allowed,
    ListOp.apply, Option.some.injEq, forall_eq', OnList, Heads.Free, Heads.cells, upd,
    Function.update_apply]
  simp
  grind

/-- A loop whose body may change the links of the node that it is at, and of those before it. -/
theorem listForEachSafeDir_eq {σ : Type} {dir : σ → ℕ → ℕ} {body : σ → ℕ → σ} {nxt fuel : ℕ} {s : σ}
    (hpath : (l ++ [h]).IsChain fun a b => dir s a = b) (hi : (l ++ [h]).head? = some i)
    (hnxt : nxt = dir s i) (hh : h ∉ l) (hfuel : l.length < fuel)
    (hkeep : ∀ l₁ j l₂, l = l₁ ++ j :: l₂ → ∀ x ∈ l₂,
      dir (body (l₁.foldl body s) j) x = dir (l₁.foldl body s) x) :
    listForEachSafeDir dir body h fuel i nxt s = some (l.foldl body s) := by
  induction l generalizing i nxt fuel s with
  | nil =>
    obtain ⟨k, rfl⟩ := Nat.exists_eq_add_of_lt hfuel
    simp_all [listForEachSafeDir]
  | cons x l ih =>
    obtain ⟨k, rfl⟩ := Nat.exists_eq_add_of_lt hfuel
    obtain rfl : x = i := Option.some.inj hi
    obtain ⟨hne, hh⟩ : h ≠ x ∧ h ∉ l := by simpa using hh
    obtain ⟨y, r, hyr⟩ : ∃ y r, l ++ [h] = y :: r := List.exists_cons_of_ne_nil (by simp)
    rw [List.cons_append, hyr, List.isChain_cons_cons, ← hyr] at hpath
    -- the links of the nodes behind are those before the body ran
    have hsame : ∀ a ∈ l, dir (body s x) a = dir s a := hkeep [] x l rfl
    have hpath' : (l ++ [h]).IsChain fun a b => dir (body s x) a = b := by
      obtain ⟨hl, -, hlast⟩ := List.isChain_append.1 hpath.2
      refine List.isChain_append.2 ⟨hl.imp_of_mem_imp fun a b ha _ hab => (hsame a ha).trans hab,
        List.isChain_singleton h, fun a ha b hb => ?_⟩
      exact (hsame a (List.mem_of_getLast? ha)).trans (hlast a ha b hb)
    have hrest : listForEachSafeDir dir body h (l.length + 1 + k) nxt (dir (body s x) nxt) (body s x) =
        some (l.foldl body (body s x)) :=
      ih hpath' (by rw [hyr, hnxt, hpath.1]; rfl) rfl hh (by omega) fun l₁ j l₂ hl z hz =>
        hkeep (x :: l₁) j l₂ (by rw [hl]; rfl) z hz
    rw [listForEachSafeDir, if_neg hne.symm, List.length_cons]
    exact hrest

/-- A body that takes some of the nodes out, and notes which nodes it was run for. -/
def visitDel (P : ℕ → Bool) (s : List ℕ × DoubleLinks ℕ) (i : ℕ) : List ℕ × DoubleLinks ℕ :=
  (s.1 ++ [i], if P i then listDel s.2 i else s.2)

/-- The state of the loop after some of the nodes. -/
theorem represents_visitDel (H : f.Represents A) (P : ℕ → Bool) {k m : List ℕ}
    (hl : A h = some (k ++ m)) :
    (k.foldl (visitDel P) ([], f)).1 = k ∧ (k.foldl (visitDel P) ([], f)).2.Represents
      (Function.update A h (some (k.filter (fun x => !P x) ++ m))) := by
  induction k using List.reverseRecOn generalizing m with
  | nil =>
    have hself : Function.update A h (some m) = A := hl ▸ Function.update_eq_self h A
    exact ⟨rfl, hself.symm ▸ H⟩
  | append_singleton k j ih =>
    rw [List.append_assoc, List.singleton_append] at hl
    obtain ⟨hlog, hrep⟩ := ih hl
    rw [List.foldl_append, List.foldl_cons, List.foldl_nil]
    refine ⟨congrArg (· ++ [j]) hlog, ?_⟩
    have hat : Function.update A h (some (k.filter (fun x => !P x) ++ j :: m)) h =
        some (k.filter (fun x => !P x) ++ j :: m) := Function.update_self ..
    have hnd : (k ++ j :: m).Nodup := (List.nodup_cons.1 (H.nodup_of_eq hl)).2
    have hj : j ∉ k.filter fun x => !P x := fun hmem =>
      (List.nodup_append.1 hnd).2.2 j (List.mem_of_mem_filter hmem) j List.mem_cons_self rfl
    dsimp only [visitDel]
    by_cases hP : P j
    · have hdel := represents_listDel hrep hat (List.mem_append_right _ List.mem_cons_self)
      rw [erase_append hj, Function.update_idem] at hdel
      simpa [hP, List.filter_append] using hdel
    · simpa [hP, List.filter_append] using hrep

/-- `list_for_each_safe` with a body that takes some of the nodes out of the list, as in
`kill_process`: it is run for all nodes in order, and the others stay. -/
theorem listForEachSafe_filter (H : f.Represents A) (hl : A h = some l) (P : ℕ → Bool) {fuel : ℕ}
    (hfuel : l.length < fuel) :
    ∃ f', listForEachSafe (fun s => s.2.next) (visitDel P) h fuel ([], f) = some (l, f') ∧
      f'.Represents (Function.update A h (some (l.filter fun x => !P x))) := by
  have hround := H.round_of_eq hl
  have hhl : h ∉ l := (List.nodup_cons.1 (H.nodup_of_eq hl)).1
  have hnext := hround.next_head
  rw [DoubleLinks.Round, Cycle.chain_coe_cons] at hround
  obtain ⟨hlog, hrep⟩ := represents_visitDel (k := l) (m := []) H P (by rw [hl, List.append_nil])
  rw [List.append_nil] at hrep
  refine ⟨_, ?_, hrep⟩
  have hloop : listForEachSafeDir (fun s => s.2.next) (visitDel P) h fuel (f.next h)
      (f.next (f.next h)) ([], f) = some (l.foldl (visitDel P) ([], f)) := by
    refine listForEachSafeDir_eq (hround.tail.imp fun a b hab => hab.1)
      (by rw [hnext]; cases l <;> rfl) rfl hhl hfuel ?_
    intro l₁ j l₂ hsplit x hx
    obtain ⟨-, hbefore⟩ := represents_visitDel (m := j :: l₂) H P (hsplit ▸ hl)
    generalize l₁.foldl (visitDel P) ([], f) = s at hbefore
    have hat := hbefore.round_of_eq (Function.update_self ..)
    have hnd := hbefore.nodup_of_eq (Function.update_self ..)
    obtain ⟨heq, -⟩ := round_listDel (k := h :: l₁.filter fun x => !P x) hat hnd (by simp)
    have hprev := hat.at_node.prev_head
    dsimp only [visitDel]
    by_cases hP : P j
    · rw [if_pos hP, heq]
      refine DoubleLinks.next_wire_of_ne fun hxp => ?_
      -- the node before `j` is the head, or one that the loop was at
      have hmem : x ∈ h :: l₁.filter fun x => !P x := by
        rw [hxp, hprev, List.getLast?_append, List.getLast?_cons]
        exact DoubleLinks.getLast_mem _ _
      rw [← List.cons_append] at hnd
      exact (List.nodup_append.1 hnd).2.2 x hmem x (List.mem_cons_of_mem j hx) rfl
    · rw [if_neg hP]
  rw [listForEachSafe, hloop]
  exact congrArg some (Prod.ext hlog rfl)

theorem allAllowed_twoNodes : AllAllowed twoNodes fun _ => none := by
  simp only [twoNodes, AllAllowed, ListOp.Allowed, ListOp.apply, Option.some.injEq, forall_eq', OnList,
    Heads.Free, Heads.cells, upd, Function.update_apply]
  simp
  grind

theorem listForEachSafe_filter_twoNodes : ∃ f f',
    listForEachSafe (fun s => s.2.next) (visitDel (· == 2)) 8 3 ([], f) = some ([2, 1], f') ∧
      listForEach f' 8 2 = some [1] := by
  obtain ⟨f, -, H⟩ := Represents.execAll (represents_none noLinks) allAllowed_twoNodes
  obtain ⟨f', hloop, hrep⟩ := listForEachSafe_filter (h := 8) (l := [2, 1]) H (by decide) (· == 2)
    (show 2 < 3 by decide)
  exact ⟨f, f', hloop, listForEach_eq (l := [1]) hrep (by decide) (by decide)⟩

end loops

end SadOS.ListHead
