import SadOS.Mm.Copy
import Mathlib.Data.List.Sort

/-!
# Page faults and memory system calls

`sys/mm/page_fault.c` and `sys/mm/syscall.c`, and the access of a user program to
memory: through the page table where the entry permits it, and otherwise through
`page_fault_handler`.

## Main definitions

* `pageFaultHandler` — the handler, with what the entry code does around it.
* `userAccess`, `userRead`, `userWrite` — user accesses.
* `asnew`, `asdestroy`, `sendpage`, `munmap` — the system calls.
-/

namespace SadOS.Mm

def EBADF : ℤ := 9
def EMFILE : ℤ := 24

/-! ## Page faults -/

/-- A page without an entry gets one of the zero page. -/
def zeroFill (s : State) (page : ℕ) : Except Fault State :=
  match s.entry s.current page with
  | some _ => .ok s
  | none => do
    let (_, s) ← assignPage s s.current s.zeroPage page PF_SNAPSHOT
    return s

/-- A page with snapshots is unshared for a write. -/
def unshareForWrite (s : State) (write : Bool) (page : ℕ) (pe : PageEntry) : Except Fault State := do
  let pg ← s.getPageRec pe.p
  if write ∧ 0 < pg.snapCount then unsharePage s s.current page else return s

/-- `page_fault_handler`, entered with `interrupt_disabled = 1`.  The result is
whether the task was killed. -/
def pageFaultHandler (s : State) (user write : Bool) (vaddr : ℕ) : Except Fault (Bool × State) :=
  if !user then .error (.panic "Page fault in the kernel")
  else do
    let page := pageAlign vaddr
    let s := disableInterrupts s
    let sp ← s.getSpace s.current
    match vmaFindByVaddr vaddr sp.vma with
    | none => return (true, s)
    | some vma => do
      let s ← zeroFill s page
      match s.entry s.current page with
      | none => .error (.panic "Can't get back the page we just inserted")
      | some pe =>
        -- `!vma->vma_flags & VMA_RW` negates first
        if write ∧ vma.vmaFlags = 0 then return (true, s)
        else do
          let s ← unshareForWrite s write page pe
          let (_, s) ← addressSpaceMap s page
          let s ← enableInterrupts s
          return (false, s)

/-- `page_fault_entry`. -/
def pageFaultEntry (s : State) (user write : Bool) (vaddr : ℕ) : Except Fault (Bool × State) := do
  let (killed, s) ← pageFaultHandler { s with interruptDisabled := 1 } user write vaddr
  return (killed, { s with interruptDisabled := 0 })

/-- What the page table permits: the page that the access reaches. -/
def State.translate (s : State) (write : Bool) (vaddr : ℕ) : Option ℕ :=
  match s.pte s.current (slot vaddr) with
  | some e => if write && !e.writable then none else some e.addr
  | none => none

/-- An access of the user program that runs in the current address space.  An
address outside the lower canonical half never reaches a page of the program:
the processor raises a protection fault, or the handler finds no VMA. -/
def userAccess (s : State) (write : Bool) (vaddr : ℕ) : Except Fault (Option ℕ × State) :=
  if 2 ^ 47 ≤ vaddr then .ok (none, s)
  else
    match s.translate write vaddr with
    | some page => .ok (some page, s)
    | none => do
      let (killed, s) ← pageFaultEntry s true write vaddr
      if killed then return (none, s) else return (s.translate write vaddr, s)

/-- A byte read by the user program, unless it is killed. -/
def userRead (s : State) (vaddr : ℕ) : Except Fault (Option UInt8 × State) := do
  let (page, s) ← userAccess s false vaddr
  return (page.map fun p => s.mem p (vaddr % 4096), s)

/-- A byte written by the user program. -/
def userWrite (s : State) (vaddr : ℕ) (b : UInt8) : Except Fault (Bool × State) := do
  let (page, s) ← userAccess s true vaddr
  match page with
  | some p => return (true, s.write p (vaddr % 4096) 1 fun _ => b)
  | none => return (false, s)

/-! ## System calls -/

/-- The table of address spaces of a task, `current->astable`. -/
abbrev AsTable := List (Option ℕ)

/-- `file[fd]` after the test `fd <= max_fds`. -/
def fileAt (tab : AsTable) (fd : ℕ) : Except Fault (Option ℕ) :=
  match tab[fd]? with
  | some f => .ok f
  | none => .error .outOfBounds

/-- `fdtable_insert`. -/
def fdtableInsert (d : ℕ) : AsTable → Option (ℕ × AsTable)
  | [] => none
  | none :: rest => some (0, some d :: rest)
  | some f :: rest => (fdtableInsert d rest).map fun r => (r.1 + 1, some f :: r.2)

/-- `_page_entry_visitor`. -/
def pageEntryVisitor (as : ℕ) (s : State) (e : ℕ × PageEntry) : Except Fault State :=
  if hasFlag e.2.flags PF_HARDWARE then .ok s
  else do
    let (_, s) ← assignPage s as e.2.p e.1 PF_SNAPSHOT
    return s

/-- The entries of a `vaddr_map` in the order of their keys. -/
def entriesInOrder (m : AList fun _ : ℕ => PageEntry) : List (ℕ × PageEntry) :=
  (m.entries.map fun e => (e.1, e.2)).insertionSort fun a b => a.1 ≤ b.1

/-- The first loop of `as_snapshot`. -/
def snapshotVma (newAs : ℕ) (s : State) (vma : VmArea) : Except Fault State :=
  if hasFlag vma.vmaFlags VMA_HW then .ok s
  else do
    let (_, s) ← insertVmaToVaddr s newAs vma.vmaBegin vma.vmaLength vma.vmaFlags
    return s

/-- `as_snapshot`. -/
def asSnapshot (s : State) (newAs : ℕ) : Except Fault State := do
  let sp ← s.getSpace s.current
  let s ← sp.vma.foldlM (snapshotVma newAs) s
  let sp ← s.getSpace s.current
  (entriesInOrder sp.vaddrMap).foldlM (pageEntryVisitor newAs) s

/-- `asnew`, with the table of the caller. -/
def asnew (s : State) (tab : AsTable) (snapshot : Bool) : Except Fault ((ℤ × AsTable) × State) := do
  let s := disableInterrupts s
  let (newAs, s) := aspaceNew s
  match fdtableInsert newAs tab with
  | none => do
    let s ← destroyAs s newAs
    let s ← enableInterrupts s
    return ((-EMFILE, tab), s)
  | some (fd, tab) => do
    let s ← (if snapshot then asSnapshot s newAs else .ok s)
    let s ← enableInterrupts s
    return ((fd, tab), s)

/-- `asdestroy`. -/
def asdestroy (s : State) (tab : AsTable) (as : ℤ) : Except Fault ((ℤ × AsTable) × State) := do
  let s := disableInterrupts s
  if as ≤ 0 ∨ (tab.length : ℤ) ≤ as then do
    let s ← enableInterrupts s
    return ((-EBADF, tab), s)
  else
    let f ← fileAt tab as.toNat
    match f with
    | none => do
      let s ← enableInterrupts s
      return ((-EBADF, tab), s)
    | some a => do
      let s ← destroyAs s a
      let s ← enableInterrupts s
      return ((0, tab.set as.toNat none), s)

/-- One page of `sendpage`. -/
def sendOne (as vaddr : ℕ) (vma : VmArea) (s : State) (i : ℕ) : Except Fault State :=
  match s.entry s.current (wadd vaddr i) with
  | some pe => do
    let (_, s) ← assignPage s as pe.p (wadd vma.vmaBegin i) PF_SNAPSHOT
    return s
  | none => .ok s

/-- The part of `sendpage` after the handle is resolved to `_as`. -/
def sendpageTo (s : State) (as vaddr dst len : ℕ) : Except Fault (ℤ × State) :=
  if !isAligned vaddr ∨ !isAligned len then .ok (-EINVAL, s)
  else do
    let ok ← (if vaddr ≠ 0 then validateRange s vaddr 4096 else .ok true)
    if !ok then return (-EINVAL, s)
    else
      let (vma, s) ← (if dst ≠ 0 then insertVmaToVaddr s as dst len VMA_RW
        else insertVmaToAny s as len VMA_RW)
      match vma with
      | .error _ => return (-ENOMEM, s)
      | .ok vma => do
        let s ← (if vaddr ≠ 0 then (pageSteps 0 len).foldlM (sendOne as vaddr vma) s else .ok s)
        return (vma.vmaBegin, s)

/-- `sendpage`.  The test of the handle lets `max_fds` pass. -/
def sendpage (s : State) (tab : AsTable) (as : ℤ) (vaddr dst len : ℕ) :
    Except Fault (ℤ × State) := do
  let s := disableInterrupts s
  let (ret, s) ← (if as < 0 ∨ (tab.length : ℤ) < as then .ok (-EBADF, s)
    else do
      let f ← fileAt tab as.toNat
      match f with
      | none => return (-EBADF, s)
      | some a => sendpageTo s a vaddr dst len)
  let s ← enableInterrupts s
  return (ret, s)

/-- `munmap`. -/
def munmap (s : State) (base len : ℕ) : Except Fault (ℤ × State) :=
  if !isAligned base ∨ !isAligned len then .ok (-EINVAL, s)
  else do
    let s ← removeVmaRange s s.current base len
    return (0, s)

end SadOS.Mm
