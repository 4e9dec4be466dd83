import SadOS.Lib.TopDown
import SadOS.Machine
import Mathlib.Logic.Function.Basic
import Mathlib.Data.List.Nodup

/-!
# The splay tree

`sys/lib/splay.c`, with its nodes in memory.  `splay` takes the tree apart while it
descends: what is known to lie before the item hangs on `tmp_root.right`, what lies
after it on `tmp_root.left`, and `l` and `r` point to the ends of these two spines.
Every operation calls it first, also a look-up.

The nodes come from an object pool of the tree's own.  A pointer is a number, `0`
being `NULL`; the first object of the pool is the `struct splay` itself.

## Main definitions

* `SplayNodes` — the fields of the nodes that are allocated.
* `splayRound`, `splayRounds`, `splay` — one round of the loop, the loop, `splay`.
* `Splay`, `splayInsert`, `splayDelete`, `splayPrev`, `splayNext`, `splayFind`,
  `splayNew` — the tree and the operations on it.
-/

namespace SadOS

variable {α : Type}

/-- `&tmp_root`, which is on the stack. -/
def tmpRoot : ℕ := 1

/-- The fields of the `struct splay_node`s; all are `none` where no node is, and `data`
is `none` where it has not been set. -/
structure SplayNodes (α : Type) where
  left : ℕ → Option ℕ
  right : ℕ → Option ℕ
  data : ℕ → Option α

namespace SplayNodes

/-- No node is allocated. -/
def empty : SplayNodes α := ⟨fun _ => none, fun _ => none, fun _ => none⟩

def putLeft (m : SplayNodes α) (p v : ℕ) : SplayNodes α :=
  { m with left := Function.update m.left p (some v) }

def putRight (m : SplayNodes α) (p v : ℕ) : SplayNodes α :=
  { m with right := Function.update m.right p (some v) }

def putData (m : SplayNodes α) (p : ℕ) (d : α) : SplayNodes α :=
  { m with data := Function.update m.data p (some d) }

/-- `p->left = v`. -/
def setLeft (m : SplayNodes α) (p v : ℕ) : Option (SplayNodes α) :=
  if (m.left p).isSome then some (m.putLeft p v) else none

/-- `p->right = v`. -/
def setRight (m : SplayNodes α) (p v : ℕ) : Option (SplayNodes α) :=
  if (m.right p).isSome then some (m.putRight p v) else none

/-- `p->data = d`. -/
def setData (m : SplayNodes α) (p : ℕ) (d : α) : Option (SplayNodes α) :=
  if (m.left p).isSome then some (m.putData p d) else none

/-- A node is made at `p`. -/
def make (m : SplayNodes α) (p : ℕ) : SplayNodes α where
  left := Function.update m.left p (some 0)
  right := Function.update m.right p (some 0)
  data := Function.update m.data p none

/-- The node at `p` is given back. -/
def drop (m : SplayNodes α) (p : ℕ) : SplayNodes α where
  left := Function.update m.left p none
  right := Function.update m.right p none
  data := Function.update m.data p none

end SplayNodes

/-- The local variables of `splay` that its loop changes. -/
structure SplayLocals where
  t : ℕ
  l : ℕ
  r : ℕ
  deriving DecidableEq, Repr

variable (cmp : α → α → ℤ)

/-- `r->left = t; r = t; t = t->left;` and the next round. -/
def splayLinkRight (m : SplayNodes α) (x : SplayLocals) :
    Option (Bool × SplayNodes α × SplayLocals) := do
  let m ← m.setLeft x.r x.t
  let t ← m.left x.t
  return (true, m, { x with r := x.t, t := t })

/-- `l->right = t; l = t; t = t->right;` and the next round. -/
def splayLinkLeft (m : SplayNodes α) (x : SplayLocals) :
    Option (Bool × SplayNodes α × SplayLocals) := do
  let m ← m.setRight x.l x.t
  let t ← m.right x.t
  return (true, m, { x with l := x.t, t := t })

/-- One round of the loop of `splay`; `false` is a `break`. -/
def splayRound (data : α) (m : SplayNodes α) (x : SplayLocals) :
    Option (Bool × SplayNodes α × SplayLocals) := do
  let here ← m.data x.t
  if cmp data here < 0 then
    let tmp ← m.left x.t
    if tmp = 0 then return (false, m, x)
    else
      let there ← m.data tmp
      if cmp data there < 0 then
        -- rotate right
        let tmpRight ← m.right tmp
        let m ← m.setLeft x.t tmpRight
        let m ← m.setRight tmp x.t
        let x := { x with t := tmp }
        let tLeft ← m.left x.t
        if tLeft = 0 then return (false, m, x) else splayLinkRight m x
      else splayLinkRight m x
  else if 0 < cmp data here then
    let tmp ← m.right x.t
    if tmp = 0 then return (false, m, x)
    else
      let there ← m.data tmp
      if 0 < cmp data there then
        -- rotate left
        let tmpLeft ← m.left tmp
        let m ← m.setRight x.t tmpLeft
        let m ← m.setLeft tmp x.t
        let x := { x with t := tmp }
        let tRight ← m.right x.t
        if tRight = 0 then return (false, m, x) else splayLinkLeft m x
      else splayLinkLeft m x
  else return (false, m, x)

/-- The loop of `splay`, which is left within `fuel` rounds. -/
def splayRounds (data : α) : ℕ → SplayNodes α → SplayLocals → Option (SplayNodes α × SplayLocals)
  | 0, _, _ => none
  | fuel + 1, m, x => do
    let (go, m, x) ← splayRound cmp data m x
    if go then splayRounds data fuel m x else return (m, x)

/-- `splay` on the tree that `*rptr = t` points to; returns the new `*rptr`. -/
def splay (fuel : ℕ) (data : α) (t : ℕ) (m : SplayNodes α) : Option (ℕ × SplayNodes α) :=
  if t = 0 then some (t, m) else do
    let (m, x) ← splayRounds cmp data fuel (m.make tmpRoot) ⟨t, tmpRoot, tmpRoot⟩
    let tLeft ← m.left x.t
    let m ← m.setRight x.l tLeft
    let tRight ← m.right x.t
    let m ← m.setLeft x.r tRight
    let tmpRight ← m.right tmpRoot
    let m ← m.setLeft x.t tmpRight
    let tmpLeft ← m.left tmpRoot
    let m ← m.setRight x.t tmpLeft
    return (x.t, m.drop tmpRoot)

/-- `struct splay` with its pool: the free list and the first address never given out. -/
structure Splay (α : Type) where
  root : ℕ
  nodes : SplayNodes α
  freeList : List ℕ
  nextNode : ℕ

/-- `obj_pool_alloc(s->obp)`. -/
def Splay.alloc (s : Splay α) : ℕ × Splay α :=
  match s.freeList with
  | p :: rest => (p, { s with freeList := rest, nodes := s.nodes.make p })
  | [] => (s.nextNode, { s with nextNode := s.nextNode + 1, nodes := s.nodes.make s.nextNode })

/-- `obj_pool_free(s->obp, p)`. -/
def Splay.free (s : Splay α) (p : ℕ) : Splay α :=
  { s with freeList := p :: s.freeList, nodes := s.nodes.drop p }

/-- `splay(data, &s->root, s->cmp)`. -/
def Splay.splayRoot (s : Splay α) (data : α) : Option (Splay α) := do
  let (t, m) ← splay cmp s.nextNode data s.root s.nodes
  return { s with root := t, nodes := m }

/-- `splay(data, &t->left, s->cmp)`. -/
def Splay.splayLeft (s : Splay α) (data : α) (t : ℕ) : Option (Splay α) := do
  let left ← s.nodes.left t
  let (left, m) ← splay cmp s.nextNode data left s.nodes
  let m ← m.setLeft t left
  return { s with nodes := m }

/-- `splay(data, &t->right, s->cmp)`. -/
def Splay.splayRight (s : Splay α) (data : α) (t : ℕ) : Option (Splay α) := do
  let right ← s.nodes.right t
  let (right, m) ← splay cmp s.nextNode data right s.nodes
  let m ← m.setRight t right
  return { s with nodes := m }

/-- Returns the equal element that is in the tree already, or `NULL`. -/
def splayInsert (s : Splay α) (data : α) : Option (Option α × Splay α) :=
  if s.root = 0 then do
    let (new, s) := s.alloc
    let m ← s.nodes.setData new data
    let m ← m.setRight new 0
    let m ← m.setLeft new 0
    return (none, { s with nodes := m, root := new })
  else do
    let s ← s.splayRoot cmp data
    let t := s.root
    let here ← s.nodes.data t
    if cmp data here = 0 then return (some here, s)
    else
      let (new, s) := s.alloc
      let m ← s.nodes.setData new data
      if cmp data here < 0 then
        let tLeft ← m.left t
        let m ← m.setLeft new tLeft
        let m ← m.setRight new t
        let m ← m.setLeft t 0
        return (none, { s with nodes := m, root := new })
      else if 0 < cmp data here then
        let tRight ← m.right t
        let m ← m.setRight new tRight
        let m ← m.setLeft new t
        let m ← m.setRight t 0
        return (none, { s with nodes := m, root := new })
      else return (none, { s with nodes := m })

/-- Returns the element that was deleted, or `NULL`. -/
def splayDelete (s : Splay α) (data : α) : Option (Option α × Splay α) :=
  if s.root = 0 then some (none, s) else do
    let s ← s.splayRoot cmp data
    let t := s.root
    let here ← s.nodes.data t
    if cmp data here = 0 then
      let left ← s.nodes.left t
      let s ←
        if left = 0 then do
          let right ← s.nodes.right t
          pure { s with root := right }
        else do
          let s ← s.splayLeft cmp data t
          let left ← s.nodes.left t
          let right ← s.nodes.right t
          let m ← s.nodes.setRight left right
          pure { s with nodes := m, root := left }
      return (some here, s.free t)
    else return (none, s)

/-- Meant to return the last element that is less than `data`. -/
def splayPrev (s : Splay α) (data : α) : Option (Option α × Splay α) :=
  if s.root = 0 then some (none, s) else do
    let s ← s.splayRoot cmp data
    let t := s.root
    let here ← s.nodes.data t
    if 0 ≤ cmp data here then
      let left ← s.nodes.left t
      if left = 0 then return (none, s)
      else
        let s ← s.splayLeft cmp data t
        let left ← s.nodes.left t
        let found ← s.nodes.data left
        return (some found, s)
    else return (some here, s)

/-- Meant to return the first element that is greater than `data`. -/
def splayNext (s : Splay α) (data : α) : Option (Option α × Splay α) :=
  if s.root = 0 then some (none, s) else do
    let s ← s.splayRoot cmp data
    let t := s.root
    let here ← s.nodes.data t
    if cmp data here ≤ 0 then
      let right ← s.nodes.right t
      if right = 0 then return (none, s)
      else
        let s ← s.splayRight cmp data t
        let right ← s.nodes.right t
        let found ← s.nodes.data right
        return (some found, s)
    else return (some here, s)

/-- Returns the equal element, or `NULL`. -/
def splayFind (s : Splay α) (data : α) : Option (Option α × Splay α) :=
  if s.root = 0 then some (none, s) else do
    let s ← s.splayRoot cmp data
    let here ← s.nodes.data s.root
    if cmp data here = 0 then return (some here, s) else return (none, s)

/-- An empty tree, whose pool has given out one object, the `struct splay`. -/
def splayNew : Splay α where
  root := 0
  nodes := .empty
  freeList := []
  nextNode := tmpRoot + 2

end SadOS
