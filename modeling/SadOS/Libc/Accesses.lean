import SadOS.Lib.Traced
import SadOS.Libc.Malloc

/-!
# The accesses of `malloc` and `free`

The functions of `libc/malloc.c` once more, as computations that say which fields of which
headers and which entries of `_free` they read and write.  Their results and effects are
those of the functions without accesses.

## Main definitions

* `Access` — a field or an entry that is read or written.
* `mallocT`, `freeT` — the functions.
* `val_mallocT`, `state_mallocT`, `state_freeT` — they agree with `malloc` and `free`.
-/

namespace SadOS.Libc.Malloc

/-- What the source reads and writes. -/
inductive Access
  /-- `_free[i]` -/
  | slot (i : ℕ)
  | next (x : ℕ)
  | prev (x : ℕ)
  | flags (x : ℕ)
  /-- `x->flags = v` -/
  | marks (x : ℕ) (v : UInt8)
  /-- `*a`, for the address `a` of a link -/
  | cell (a : ℕ)
  /-- `__builtin_clzl(0)`, which is not defined -/
  | clzZero
  deriving DecidableEq

abbrev Run (α : Type) := Traced Heap Access α

/-! ## Fields -/

def getSlot (base i : ℕ) : Run ℕ := .load (fun h => nextOf h.mem (freeSlot base i)) (.slot i)
def getNext (x : ℕ) : Run ℕ := .load (fun h => nextOf h.mem x) (.next x)
def getPrev (x : ℕ) : Run ℕ := .load (fun h => prevOf h.mem x) (.prev x)
def getFlags (x : ℕ) : Run UInt8 := .load (fun h => flagsOf h.mem x) (.flags x)

def putSlot (base i v : ℕ) : Run Unit :=
  .store (fun h => { h with mem := setNext h.mem (freeSlot base i) v }) (.slot i)

def putNext (x v : ℕ) : Run Unit := .store (fun h => { h with mem := setNext h.mem x v }) (.next x)
def putPrev (x v : ℕ) : Run Unit := .store (fun h => { h with mem := setPrev h.mem x v }) (.prev x)

def putFlags (x : ℕ) (v : UInt8) : Run Unit :=
  .store (fun h => { h with mem := setFlags h.mem x v }) (.marks x v)

/-- `*a = v`. -/
def putCell (a v : ℕ) : Run Unit := .store (fun h => { h with mem := setNext h.mem a v }) (.cell a)

/-- `if (n) n->prev = v`. -/
def putPrevIf (n v : ℕ) : Run Unit := if n ≠ 0 then putPrev n v else pure ()

/-! ## The source -/

/-- `alloc_new`. -/
def allocNewT (page size : ℕ) : Run ℕ := do
  .modify fun h => (allocNew page size h).2
  return (size + 4095) % 2 ^ 64 / 4096 * 4096

/-- `split`. -/
def splitT (base index : ℕ) : Run Unit :=
  if index < 5 then pure ()
  else do
    let tmp ← getSlot base index
    let tmp2 := tmp + 2 ^ (index - 1)
    putSlot base index (← getNext tmp)
    putPrevIf (← getNext tmp) (freeSlot base index)
    putNext tmp tmp2
    putPrev tmp2 tmp
    putNext tmp2 (← getSlot base (index - 1))
    putPrevIf (← getNext tmp2) tmp2
    putSlot base (index - 1) tmp
    putPrev tmp (freeSlot base (index - 1))
    putFlags tmp2 (FREE ||| UInt8.ofNat (index - 1))
    putFlags tmp (FREE ||| UInt8.ofNat (index - 1))

/-- `insert`. -/
def insertT (base order x : ℕ) : Run Unit := do
  putFlags x (UInt8.ofNat order ||| FREE)
  putPrev x (freeSlot base order)
  putNext x (← getSlot base order)
  putSlot base order x
  putPrevIf (← getNext x) x

/-- The loop that looks for a list; `n` orders are left. -/
def findOrderT (base : ℕ) : ℕ → ℕ → Run ℕ
  | 0, xorder => pure xorder
  | n + 1, xorder => do
    let head ← getSlot base xorder
    if head = 0 then findOrderT base n (xorder + 1) else pure xorder

/-- The loop that splits blocks. -/
def splitDownT (base order : ℕ) : ℕ → Run Unit
  | 0 => pure ()
  | n + 1 => do
    splitT base (order + n + 1)
    splitDownT base order n

/-- The first block of a list is taken out. -/
def takeFirstT (base order : ℕ) : Run ℕ := do
  let x ← getSlot base order
  putFlags x ((← getFlags x) &&& ~~~FREE)
  putSlot base order (← getNext x)
  putPrevIf (← getNext x) (freeSlot base order)
  putPrev x 0
  putNext x 0
  return x

/-- `64-__builtin_clzl(n)`. -/
def bitLengthT (n : ℕ) : Run ℕ :=
  if n = 0 then do
    .touch .clzZero
    return bitLength n
  else pure (bitLength n)

/-- The part of `malloc` behind the search, from the order of a list with a block on. -/
def takeSplitT (base order xorder : ℕ) : Run ℕ := do
  splitDownT base order (xorder - order)
  let x ← takeFirstT base order
  return x + sizeofHdr

/-- The same from the order that the search has found. -/
def takeT (base page order xorder : ℕ) : Run ℕ :=
  if xorder ≥ 13 ∧ page = 0 then pure 0
  else if xorder ≥ 13 then do
    let _ ← allocNewT page 0x1000
    insertT base 12 page
    takeSplitT base order 12
  else takeSplitT base order xorder

/-- `malloc`. -/
def mallocT (base page s : ℕ) : Run ℕ :=
  let newsize := wadd s sizeofHdr
  if newsize > 0x1000 then
    if page = 0 then pure 0
    else do
      let newsize ← allocNewT page newsize
      putFlags page HUGE
      putNext page newsize
      return page + sizeofHdr
  else do
    let order ← bitLengthT newsize
    let xorder ← findOrderT base (13 - order) order
    takeT base page order xorder

/-- The part of `free` that takes the buddy out of its list and makes one block of both. -/
def mergeT (base x buddy : ℕ) : Run Unit := do
  putCell (← getPrev buddy) (← getNext buddy)
  let next ← getNext buddy
  putPrevIf next (← getPrev buddy)
  let newHdr := if buddy < x then buddy else x
  insertT base ((← getFlags x).toNat + 1) newHdr

/-- `free`. -/
def freeT (base ptr : ℕ) : Run Unit :=
  if ptr = 0 then pure ()
  else do
    let x := wsub ptr sizeofHdr
    let flags ← getFlags x
    if flags &&& HUGE ≠ 0 then do
      let size ← getNext x
      .modify fun h => { h with unmapped := (x, size) :: h.unmapped }
    else if flags.toNat > 12 then pure ()
    else do
      let buddy := x ^^^ 2 ^ flags.toNat
      if (← getFlags buddy) = FREE ||| flags then mergeT base x buddy
      else insertT base flags.toNat x

/-! ## Agreement -/

section agreement

variable {base : ℕ} {h : Heap}

@[simp] theorem val_getSlot (i : ℕ) : (getSlot base i).val h = nextOf h.mem (freeSlot base i) := rfl
@[simp] theorem val_getNext (x : ℕ) : (getNext x).val h = nextOf h.mem x := rfl
@[simp] theorem val_getPrev (x : ℕ) : (getPrev x).val h = prevOf h.mem x := rfl
@[simp] theorem val_getFlags (x : ℕ) : (getFlags x).val h = flagsOf h.mem x := rfl

@[simp] theorem state_getSlot (i : ℕ) : (getSlot base i).state h = h := rfl
@[simp] theorem state_getNext (x : ℕ) : (getNext x).state h = h := rfl
@[simp] theorem state_getPrev (x : ℕ) : (getPrev x).state h = h := rfl
@[simp] theorem state_getFlags (x : ℕ) : (getFlags x).state h = h := rfl

@[simp] theorem state_putSlot (i v : ℕ) :
    (putSlot base i v).state h = { h with mem := setNext h.mem (freeSlot base i) v } := rfl
@[simp] theorem state_putNext (x v : ℕ) :
    (putNext x v).state h = { h with mem := setNext h.mem x v } := rfl
@[simp] theorem state_putPrev (x v : ℕ) :
    (putPrev x v).state h = { h with mem := setPrev h.mem x v } := rfl
@[simp] theorem state_putFlags (x : ℕ) (v : UInt8) :
    (putFlags x v).state h = { h with mem := setFlags h.mem x v } := rfl
@[simp] theorem state_putCell (a v : ℕ) :
    (putCell a v).state h = { h with mem := setNext h.mem a v } := rfl

@[simp] theorem trace_getNext (x : ℕ) : (getNext x).trace h = [.next x] := rfl
@[simp] theorem trace_getPrev (x : ℕ) : (getPrev x).trace h = [.prev x] := rfl
@[simp] theorem trace_getFlags (x : ℕ) : (getFlags x).trace h = [.flags x] := rfl
@[simp] theorem trace_putCell (a v : ℕ) : (putCell a v).trace h = [.cell a] := rfl

@[simp] theorem state_putPrevIf (n v : ℕ) :
    (putPrevIf n v).state h = { h with mem := setPrevIf h.mem n v } := by
  rw [putPrevIf, Traced.state_ite, setPrevIf]
  split <;> rfl

@[simp] theorem val_allocNewT (page size : ℕ) :
    (allocNewT page size).val h = (allocNew page size h).1 := rfl

@[simp] theorem state_allocNewT (page size : ℕ) :
    (allocNewT page size).state h = (allocNew page size h).2 := rfl

@[simp] theorem state_splitT (index : ℕ) :
    (splitT base index).state h = { h with mem := split base index h.mem } := by
  rw [splitT, split, Traced.state_ite]
  split
  · rfl
  · simp

@[simp] theorem state_insertT (order x : ℕ) :
    (insertT base order x).state h = { h with mem := insert base order x h.mem } := by
  simp [insertT, insert]

@[simp] theorem val_findOrderT (n xorder : ℕ) :
    (findOrderT base n xorder).val h = findOrder base h.mem n xorder := by
  induction n generalizing xorder with
  | zero => rfl
  | succ n ih =>
    rw [findOrderT, findOrder, Traced.val_bind, val_getSlot, state_getSlot, Traced.val_ite, ih,
      Traced.val_pure]

@[simp] theorem state_findOrderT (n xorder : ℕ) : (findOrderT base n xorder).state h = h := by
  induction n generalizing xorder with
  | zero => rfl
  | succ n ih =>
    rw [findOrderT, Traced.state_bind, val_getSlot, state_getSlot, Traced.state_ite, ih,
      Traced.state_pure, ite_self]

@[simp] theorem state_splitDownT (order n : ℕ) :
    (splitDownT base order n).state h = { h with mem := splitDown base order n h.mem } := by
  induction n generalizing h with
  | zero => rfl
  | succ n ih =>
    rw [splitDownT, Traced.state_bind, state_splitT, ih]
    rfl

@[simp] theorem val_takeFirstT (order : ℕ) :
    (takeFirstT base order).val h = (takeFirst base order h.mem).1 := rfl

@[simp] theorem state_takeFirstT (order : ℕ) :
    (takeFirstT base order).state h = { h with mem := (takeFirst base order h.mem).2 } := by
  simp [takeFirstT, takeFirst]

@[simp] theorem val_bitLengthT (n : ℕ) : (bitLengthT n).val h = bitLength n := by
  rw [bitLengthT, Traced.val_ite]
  split <;> rfl

@[simp] theorem state_bitLengthT (n : ℕ) : (bitLengthT n).state h = h := by
  rw [bitLengthT, Traced.state_ite]
  split <;> rfl

/-- `malloc` returns the same and has the same effect. -/
theorem run_mallocT (page s : ℕ) :
    ((mallocT base page s).val h, (mallocT base page s).state h) = malloc base page s h := by
  rw [mallocT, malloc]
  by_cases hhuge : wadd s sizeofHdr > 0x1000
  · simp only [if_pos hhuge]
    by_cases hpage : page = 0
    · simp only [if_pos hpage, Traced.val_pure, Traced.state_pure]
    · simp only [if_neg hpage, Traced.val_bind, Traced.state_bind, val_allocNewT, state_allocNewT,
        state_putFlags, state_putNext, Traced.val_pure, Traced.state_pure]
  simp only [if_neg hhuge, Traced.val_bind, Traced.state_bind, val_bitLengthT, state_bitLengthT,
    val_findOrderT, state_findOrderT]
  generalize bitLength (wadd s sizeofHdr) = order
  generalize findOrder base h.mem (13 - order) order = xorder
  rw [takeT]
  by_cases hlist : xorder ≥ 13
  · by_cases hpage : page = 0
    · simp only [if_pos (And.intro hlist hpage), Traced.val_pure, Traced.state_pure]
    · have hnot : ¬(xorder ≥ 13 ∧ page = 0) := fun hc => hpage hc.2
      simp only [if_neg hnot, if_pos hlist, takeSplitT, Traced.val_bind, Traced.state_bind,
        Traced.val_pure, Traced.state_pure, state_allocNewT, state_insertT, state_splitDownT,
        val_takeFirstT, state_takeFirstT]
  · have hnot : ¬(xorder ≥ 13 ∧ page = 0) := fun hc => hlist hc.1
    simp only [if_neg hnot, if_neg hlist, takeSplitT, Traced.val_bind, Traced.state_bind,
      Traced.val_pure, Traced.state_pure, state_splitDownT, val_takeFirstT, state_takeFirstT]

/-- `free` has the same effect. -/
theorem state_freeT (ptr : ℕ) : (freeT base ptr).state h = free base ptr h := by
  rw [freeT, free, Traced.state_ite]
  refine if_congr Iff.rfl rfl ?_
  rw [Traced.state_bind, val_getFlags, state_getFlags, Traced.state_ite]
  generalize wsub ptr sizeofHdr = x
  refine if_congr Iff.rfl rfl ?_
  rw [Traced.state_ite]
  refine if_congr Iff.rfl rfl ?_
  rw [Traced.state_bind, val_getFlags, state_getFlags, Traced.state_ite]
  generalize x ^^^ 2 ^ (flagsOf h.mem x).toNat = buddy
  refine if_congr Iff.rfl ?_ ?_
  · rw [mergeT, Traced.state_bind, val_getPrev, state_getPrev, Traced.state_bind, val_getNext,
      state_getNext, Traced.state_bind, state_putCell, Traced.state_bind, val_getNext,
      state_getNext, Traced.state_bind, val_getPrev, state_getPrev, Traced.state_bind,
      state_putPrevIf]
    dsimp only
    rw [Traced.state_bind, val_getFlags, state_getFlags, state_insertT]
  · rw [state_insertT]

end agreement

end SadOS.Libc.Malloc
