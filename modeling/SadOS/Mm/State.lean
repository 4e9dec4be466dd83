import SadOS.Machine
import SadOS.Lib.Outcome
import Mathlib.Data.List.AList

/-!
# The state of the memory manager

The structures of `include/sys/mm.h` and `include/sys/copy.h`, and the state that
`sys/mm` works on.  A `struct page` is named by its physical address, which is
its key in `phys_pages`; a `struct page_entry` by its address space and its
address, which are its key in `vaddr_map`; an address space by a number.  Those
maps are radix trees, and used with the discipline under which a radix tree is a
finite map (`binradix_refines_map`), so they are finite maps here.

A page table is the map from the slot of an address, its bits 12 to 47, to the
4K entry that both page-table walks compute.

## Main definitions

* `PageEntry`, `VmArea`, `AddressSpace`, `Page`, `Pte`, `PageList`.
* `State` — the state.
* `State.entry` — `get_allocated_page`.
* `slot` — the bits of an address that a page-table walk looks at.
-/

namespace SadOS.Mm

def VMA_RW : ℕ := 1
def VMA_HW : ℕ := 2
def PF_SHARED : ℕ := 1
def PF_SNAPSHOT : ℕ := 2
def PF_HARDWARE : ℕ := 4
def USER_BASE : ℕ := 0x400000
def USER_TOP : ℕ := 0x7ffffffffffff000

/-- Test of a flag, `flags & f`. -/
def hasFlag (flags f : ℕ) : Bool := flags &&& f != 0

/-- `struct page_entry`, without its own key. -/
structure PageEntry where
  /-- The page, by its physical address. -/
  p : ℕ
  flags : ℕ
  deriving DecidableEq, Repr

/-- The pointer that a `prev` field points to: the list head `as->vma`, or the
`next` field of a VMA. -/
inductive Link where
  | head
  | next (vma : ℕ)
  deriving DecidableEq, Repr

/-- `struct vm_area`.  `id` is its address, `pages` the list of its page entries
by their addresses; `next` is the order of the list. -/
structure VmArea where
  id : ℕ
  vmaFlags : ℕ
  pageSize : ℕ
  vmaBegin : ℕ
  vmaLength : ℕ
  pages : List ℕ
  prev : Link
  deriving DecidableEq, Repr

/-- `struct address_space`.  `vmaPool` is the address of the next VMA that the
pool of the address space gives out. -/
structure AddressSpace where
  vma : List VmArea
  vaddrMap : AList fun _ : ℕ => PageEntry
  lowAddr : ℕ
  highAddr : ℕ
  vmaPool : ℕ

/-- `struct page`.  An owner is a page entry, by address space and address. -/
structure Page where
  refCount : ℕ
  snapCount : ℕ
  owner : List (ℕ × ℕ)
  deriving DecidableEq, Repr

/-- A 4K page-table entry with `PTE_P` set. -/
structure Pte where
  addr : ℕ
  writable : Bool
  deriving DecidableEq, Repr

/-- `struct page_list`: a page, or null for a page that was never touched. -/
structure PageList where
  p : Option ℕ
  flags : ℕ
  deriving DecidableEq, Repr

/-- `struct page_list_head`. -/
structure PageListHead where
  startOffset : ℕ
  npage : ℕ
  ph : List PageList
  deriving DecidableEq, Repr

/-- `struct memory_range` of the list `free_range`. -/
structure MemoryRange where
  base : ℕ
  length : ℕ
  deriving DecidableEq, Repr

/-- The state of the memory manager. -/
structure State where
  /-- The address spaces. -/
  spaces : ℕ → Option AddressSpace
  /-- The next address space of `aspace_pool`. -/
  aspacePool : ℕ
  /-- `phys_pages`. -/
  physPages : ℕ → Option Page
  /-- Physical memory, by page and offset. -/
  mem : ℕ → ℕ → UInt8
  /-- The present 4K entries, by address space and slot. -/
  pte : ℕ → ℕ → Option Pte
  /-- The pages that `get_page` has to give, in order.  Pages of object pools
  and of page tables come from elsewhere. -/
  freePages : List ℕ
  /-- The page lists that are not freed yet. -/
  plists : List (ℕ × PageListHead)
  /-- The next page list. -/
  plistPool : ℕ
  zeroPage : ℕ
  /-- `free_range`. -/
  freeRange : List MemoryRange
  /-- `current->as`. -/
  current : ℕ
  /-- `interrupt_disabled`. -/
  interruptDisabled : ℕ
  /-- What the pool of an address space leaves in `vma_flags` and `page_size` of
  the VMA it gives out. -/
  vmaJunk : ℕ → ℕ → ℕ × ℕ

/-- The faults that stop the machine, as opposed to those after which it runs on
with corrupted memory. -/
def Halts (e : Fault) : Prop := e = .nullDeref ∨ e = .outOfMemory ∨ ∃ msg, e = .panic msg

@[simp] theorem halts_panic (msg : String) : Halts (.panic msg) := .inr (.inr ⟨msg, rfl⟩)
@[simp] theorem halts_nullDeref : Halts .nullDeref := .inl rfl
@[simp] theorem halts_outOfMemory : Halts .outOfMemory := .inr (.inl rfl)

/-- Bits 12 to 47 of an address. -/
def slot (vaddr : ℕ) : ℕ := vaddr / 4096 % 2 ^ 36

/-- Decrement of a 64-bit counter.  A counter is incremented once for each object
that refers to its owner, so an increment does not wrap. -/
def wdec (x : ℕ) : ℕ := if x = 0 then 2 ^ 64 - 1 else x - 1

namespace State

variable (s : State)

/-- `get_allocated_page`. -/
def entry (as vaddr : ℕ) : Option PageEntry := (s.spaces as).bind (·.vaddrMap.lookup vaddr)

/-! ### Reads through pointers -/

def getSpace (as : ℕ) : Except Fault AddressSpace :=
  match s.spaces as with
  | some sp => .ok sp
  | none => .error .badPointer

def getPageRec (p : ℕ) : Except Fault Page :=
  match s.physPages p with
  | some pg => .ok pg
  | none => .error .badPointer

def getEntry (as vaddr : ℕ) : Except Fault PageEntry :=
  match s.entry as vaddr with
  | some pe => .ok pe
  | none => .error .badPointer

/-! ### Writes -/

def setSpace (as : ℕ) (sp : AddressSpace) : State :=
  { s with spaces := Function.update s.spaces as (some sp) }

def setPage (p : ℕ) (pg : Option Page) : State :=
  { s with physPages := Function.update s.physPages p pg }

def setPte (as vaddr : ℕ) (e : Option Pte) : State :=
  { s with pte := Function.update s.pte as (Function.update (s.pte as) (slot vaddr) e) }

def setMem (p : ℕ) (bytes : ℕ → UInt8) : State :=
  { s with mem := Function.update s.mem p bytes }

def setFree (l : List ℕ) : State := { s with freePages := l }

end State

/-! ### Page entries as a map -/

/-- A page entry replaced. -/
def updEnt (ent : ℕ → ℕ → Option PageEntry) (a v : ℕ) (x : Option PageEntry) :
    ℕ → ℕ → Option PageEntry :=
  Function.update ent a (Function.update (ent a) v x)

theorem updEnt_apply (ent : ℕ → ℕ → Option PageEntry) (a v : ℕ) (x : Option PageEntry)
    (a' v' : ℕ) : updEnt ent a v x a' v' = if (a', v') = (a, v) then x else ent a' v' := by
  by_cases ha : a' = a
  · subst ha
    by_cases hv : v' = v <;> simp [updEnt, hv]
  · simp [updEnt, ha]

@[simp] theorem updEnt_self (ent : ℕ → ℕ → Option PageEntry) (a v : ℕ) (x : Option PageEntry) :
    updEnt ent a v x a v = x := by
  simp [updEnt_apply]

theorem updEnt_of_ne {ent : ℕ → ℕ → Option PageEntry} {a v : ℕ} {x : Option PageEntry}
    {o : ℕ × ℕ} (h : o ≠ (a, v)) : updEnt ent a v x o.1 o.2 = ent o.1 o.2 := by
  rw [updEnt_apply, if_neg h]

/-! ### The interrupt counter -/

/-- `disable_interrupts`. -/
def disableInterrupts (s : State) : State := { s with interruptDisabled := s.interruptDisabled + 1 }

/-- `enable_interrupts`. -/
def enableInterrupts (s : State) : Except Fault State :=
  if s.interruptDisabled = 0 then .error (.panic "Invalid call to enable interrupt")
  else .ok { s with interruptDisabled := s.interruptDisabled - 1 }

end SadOS.Mm
