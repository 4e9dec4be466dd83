import SadOS.Machine
import SadOS.Lib.Outcome
import Mathlib.Data.List.Nodup
import Mathlib.Data.List.Perm.Basic
import Mathlib.Logic.Function.Basic

/-!
# The physical page allocator

`sys/mm/get_page.c`, with the pool of `sys/mm/obj_pool.c` that its `struct
memory_range` objects come from.  A page is named by its virtual address, which is
its physical address plus `KERN_VMBASE`.  The free list is threaded through the
pages: `next v` is the word at the begin of page `v`.  The objects of a pool lie
behind that word, in pages that the pool has taken from the allocator itself.

The last loop of `page_allocator_init` maps the ranges.  It takes pages for page
tables by `get_phys_page`, so it is part of the run that follows.

## Main definitions

* `pageAllocatorInit`, `getPage`, `getPhysPage`, `dropPage` — the source.
* `BootMemory` — the arguments of `page_allocator_init`.
* `PageUsers` — the allocator and its users, with the steps `PageOp`.
-/

namespace SadOS.GetPage

def KERN_VMBASE : ℕ := 0xffff808000000000

/-- `struct smap_t`. -/
structure Smap where
  base : UInt64
  length : UInt64
  type : UInt32
  deriving DecidableEq, Repr

/-- `struct memory_range`; `addr` is the address of the object. -/
structure MemoryRange where
  addr : ℕ
  base : ℕ
  length : ℕ
  deriving DecidableEq, Repr

/-- `struct obj_pool`.  `pages` is the list at `page_head`. -/
structure ObjPool where
  freePage : ℕ
  freeList : List ℕ
  pages : List ℕ
  objSize : ℕ
  pageFree : ℕ

/-- The static variables of `get_page.c` and `obj_pool.c`, and the first words of the
pages. -/
structure Allocator where
  head : ℕ
  next : ℕ → ℕ
  usable : List MemoryRange
  mrngPool : ObjPool
  metaObjPool : ObjPool
  early : Bool

/-! ## The source -/

/-- `obj_pool_free`. -/
def objPoolFree (obp : ObjPool) (obj : ℕ) : Except Fault ObjPool :=
  if wsub (wsub obj (pageAlign obj)) 8 % obp.objSize != 0 then
    throw (.panic "Invalid object free")
  else pure { obp with freeList := obj :: obp.freeList }

/-- `get_phys_page_locked`, and so `get_phys_page`. -/
def getPhysPage (a : Allocator) : Except Fault (ℕ × Allocator) :=
  if a.early then throw (.panic "Early get phys page")
  else if a.head ≠ 0 then
    pure (wsub a.head KERN_VMBASE, { a with head := a.next a.head })
  else match a.usable with
    | [] => throw .outOfMemory
    | mr :: rest =>
      if mr.length = PAGE_SIZE then do
        let pool ← objPoolFree a.mrngPool mr.addr
        pure (mr.base, { a with usable := rest, mrngPool := pool })
      else
        pure (mr.base, { a with usable :=
          { mr with base := wadd mr.base PAGE_SIZE, length := wsub mr.length PAGE_SIZE } :: rest })

/-- `get_page`. -/
def getPage (a : Allocator) : Except Fault (ℕ × Allocator) :=
  if a.head ≠ 0 then pure (a.head, { a with head := a.next a.head })
  else do
    let (ret, a) ← getPhysPage a
    pure (wadd ret KERN_VMBASE, a)

/-- `drop_page`. -/
def dropPage (a : Allocator) (pg : ℕ) : Except Fault Allocator :=
  if pg % 4096 ≠ 0 then throw (.panic "Dropping invalid page")
  else pure { a with next := Function.update a.next pg a.head, head := pg }

/-- `obj_pool_alloc`. -/
def objPoolAlloc (obp : ObjPool) (a : Allocator) : Except Fault (ℕ × ObjPool × Allocator) :=
  match obp.freeList with
  | ret :: rest => pure (ret, { obp with freeList := rest }, a)
  | [] => do
    let (obp, a) ←
      if obp.pageFree < obp.objSize then do
        let (page, a) ← getPage a
        -- `page_header->next = obp->page_head`
        pure ({ obp with pages := page :: obp.pages, freePage := page, pageFree := PAGE_SIZE - 8 },
          { a with next := Function.update a.next page (obp.pages.headD 0) })
      else pure (obp, a)
    pure (wsub (wadd obp.freePage PAGE_SIZE) obp.pageFree,
      { obp with pageFree := obp.pageFree - obp.objSize }, a)

/-- `obj_pool_create`, of the pool for memory ranges.  The new pool is the object that
`meta_obj_pool` gives out. -/
def mrngPoolCreate (a : Allocator) : Except Fault Allocator := do
  let (_, obp, a) ← objPoolAlloc a.metaObjPool a
  pure { a with
    metaObjPool := obp
    mrngPool := { freePage := 0, freeList := [], pages := [], objSize := 24, pageFree := 0 } }

/-- A new `struct memory_range` at `usable_head`. -/
def addRange (a : Allocator) (base length : ℕ) : Except Fault Allocator := do
  let (mr, obp, a) ← objPoolAlloc a.mrngPool a
  pure { a with mrngPool := obp, usable := ⟨mr, base, length⟩ :: a.usable }

/-- The body of the loop over the memory map; the reserved range is `rm`. -/
def addEntry (rmBase rmLength : ℕ) (a : Allocator) (e : Smap) : Except Fault Allocator :=
  let rmend := wadd rmBase rmLength
  let base := e.base.toNat
  let end_ := wadd base e.length.toNat
  if e.type ≠ 1 then pure a
  else if rmend > base ∧ end_ > rmBase then
    if rmend ≥ end_ ∧ rmBase ≤ base then pure a
    else if rmend ≥ end_ then addRange a base (wsub rmBase base)
    else do
      let a ← if rmBase > base then addRange a base (wsub rmBase base) else pure a
      addRange a rmend (wsub end_ rmend)
  else addRange a base e.length.toNat

/-- The `int` value `i*0x1000` as it is added to an address.  From `i = 2 ^ 19` on the
product overflows, here as it does on the machine. -/
def pageOffset (i : ℕ) : ℕ :=
  if i * 0x1000 % 2 ^ 32 < 2 ^ 31 then i * 0x1000 % 2 ^ 32
  else i * 0x1000 % 2 ^ 32 + (2 ^ 64 - 2 ^ 32)

/-- The arguments of `page_allocator_init`. -/
structure BootMemory where
  extraPage : UInt64
  count : ℤ
  smap : List Smap
  rmBase : UInt64
  rmLength : UInt64

/-- `page_allocator_init`, up to the loop that maps the ranges. -/
def pageAllocatorInit (m : BootMemory) (mem : ℕ → ℕ) : Except Fault Allocator :=
  let a : Allocator := {
    head := 0
    next := mem
    usable := []
    mrngPool := { freePage := 0, freeList := [], pages := [], objSize := 0, pageFree := 0 }
    metaObjPool := { freePage := 0, freeList := [], pages := [], objSize := 40, pageFree := 0 }
    early := true }
  if m.count < 4 then throw (.panic "Not enough memory")
  else do
    let a := (List.range m.count.toNat).foldl (fun a i =>
      let fp := wadd m.extraPage.toNat (pageOffset i)
      { a with next := Function.update a.next fp a.head, head := fp }) a
    let a ← mrngPoolCreate a
    let a ← m.smap.foldlM (addEntry m.rmBase.toNat m.rmLength.toNat) a
    pure { a with early := false }

/-! ## The users -/

/-- The calls of the allocator, and writes of its users to the begin of a page. -/
inductive PageOp
  | getPage
  | getPhysPage
  | dropPage (pg : ℕ)
  | write (pg word : ℕ)
  deriving DecidableEq, Repr

/-- The allocator and the pages that are handed out, by their virtual addresses. -/
structure PageUsers where
  alloc : Allocator
  out : List ℕ

/-- A step. -/
def PageUsers.step (w : PageUsers) : PageOp → Except Fault PageUsers
  | .getPage => do
    let (pg, a) ← getPage w.alloc
    pure ⟨a, pg :: w.out⟩
  | .getPhysPage => do
    let (pg, a) ← getPhysPage w.alloc
    pure ⟨a, wadd pg KERN_VMBASE :: w.out⟩
  | .dropPage pg => do
    let a ← dropPage w.alloc pg
    pure ⟨a, w.out.erase pg⟩
  | .write pg word => pure { w with alloc.next := Function.update w.alloc.next pg word }

/-- Only pages that are handed out are dropped, and only those are written. -/
def PageUsers.Legal (w : PageUsers) : PageOp → Prop
  | .getPage => True
  | .getPhysPage => True
  | .dropPage pg => pg ∈ w.out
  | .write pg _ => pg ∈ w.out

/-- The pages that are not free: those of the users and those of the pools. -/
def PageUsers.held (w : PageUsers) : List ℕ :=
  w.out ++ (w.alloc.mrngPool.pages ++ w.alloc.metaObjPool.pages)

/-- `page_allocator_init`, before anything is handed out. -/
def PageUsers.boot (m : BootMemory) (mem : ℕ → ℕ) : Except Fault PageUsers := do
  let a ← pageAllocatorInit m mem
  pure ⟨a, []⟩

/-- A run after `page_allocator_init`. -/
def PageUsers.run (w : PageUsers) (ops : List PageOp) : Except Fault PageUsers :=
  ops.foldlM PageUsers.step w

end SadOS.GetPage
