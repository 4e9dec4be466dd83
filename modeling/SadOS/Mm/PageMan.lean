import SadOS.Mm.State

/-!
# Reference and snapshot counts of pages

`sys/mm/page_man.c`, with the page allocator and the page-table accesses it uses.
A page entry is a snapshot of its page or shares it; a page with snapshots is to
be mapped read only, and `unshare_page` gives a writer a page of its own.

## Main definitions

* `getPage`, `dropPage` — pages from and to the allocator.
* `ptableGetEntry4k`, `unmap`, `mapPage` — 4K entries of a page table.
* `managePhysPage`, `pageUnref`, `pageEntryUnref` — counts up and down.
* `sharePage`, `unsharePage` — write permission away, and a private copy.
-/

namespace SadOS.Mm

/-! ## Pages -/

/-- `get_page`, the physical address of the page. -/
def getPage (s : State) : Except Fault (ℕ × State) :=
  let s := disableInterrupts s
  match s.freePages with
  | [] => .error .outOfMemory
  | page :: rest => do
    let s ← enableInterrupts (s.setFree rest)
    return (page, s)

/-- `drop_page`.  The link that it stores in the page is not modelled: whoever
gets the page fills it. -/
def dropPage (s : State) (page : ℕ) : Except Fault State :=
  let s := disableInterrupts s
  if isAligned page then enableInterrupts (s.setFree (page :: s.freePages))
  else .error (.panic "Dropping invalid page")

/-! ## Page-table entries -/

/-- `ptable_get_entry_4k`: the entry, if it is present. -/
def ptableGetEntry4k (s : State) (as vaddr : ℕ) : Except Fault (Option Pte) :=
  if 2 ^ 63 ≤ vaddr then
    .error (.panic "Trying to lookup kernel address in user space page table")
  else .ok (s.pte as (slot vaddr))

/-- Write `PTE_W` of a present entry. -/
def setWritable (w : Bool) (s : State) (o : ℕ × ℕ) : Except Fault State := do
  let pte ← ptableGetEntry4k s o.1 o.2
  match pte with
  | some e => .ok (s.setPte o.1 o.2 (some { e with writable := w }))
  | none => .ok s

/-- `unmap`, which walks the page table of the current address space. -/
def unmap (s : State) (vaddr : ℕ) : State := s.setPte s.current vaddr none

/-- `unmap_maybe_current`. -/
def unmapMaybeCurrent (s : State) (as vaddr : ℕ) : Except Fault State :=
  if as = s.current then .ok (unmap s vaddr)
  else do
    let _ ← ptableGetEntry4k s as vaddr
    return s.setPte as vaddr none

/-- `map_page`.  An entry above the 4K level has no place in `State.pte`. -/
def mapPage (s : State) (addr vaddr pgsize : ℕ) (writable : Bool) : Except Fault State :=
  if pgsize = 0 then
    match s.pte s.current (slot vaddr) with
    | some _ => .error (.panic "mapping an already mapped page")
    | none => .ok (s.setPte s.current vaddr (some ⟨addr, writable⟩))
  else .error .hugePage

/-! ## Counts -/

/-- `manage_phys_page_locked`.  Its callers dereference the `ERR_PTR` that stands
for an address that is not aligned. -/
def managePhysPageLocked (s : State) (addr : ℕ) : Except Fault State :=
  if isAligned addr then
    match s.physPages addr with
    | some pg => .ok (s.setPage addr (some { pg with refCount := pg.refCount + 1 }))
    | none => .ok (s.setPage addr (some ⟨1, 0, []⟩))
  else .error .nullDeref

/-- `manage_phys_page`. -/
def managePhysPage (s : State) (addr : ℕ) : Except Fault State := do
  let s ← managePhysPageLocked (disableInterrupts s) addr
  enableInterrupts s

/-- `page_unref`. -/
def pageUnref (s : State) (p : ℕ) (hw : Bool) : Except Fault State := do
  let pg ← s.getPageRec p
  let refCount := wdec pg.refCount
  if refCount = 0 then
    let s := s.setPage p none
    if hw then return s else dropPage s p
  else
    return s.setPage p (some { pg with refCount })

/-- One owner of a page that lost its last snapshot. -/
def restoreWrite (s : State) (o : ℕ × ℕ) : Except Fault State := do
  let pe ← s.getEntry o.1 o.2
  if hasFlag pe.flags PF_SHARED then setWritable true s o
  else .error (.panic "snap_count == 0 but has snapshot")

/-- `p->snap_count--`, and write permission back when no snapshot is left. -/
def dropSnapshot (s : State) (p : ℕ) : Except Fault State := do
  let pg ← s.getPageRec p
  let snapCount := wdec pg.snapCount
  let s := s.setPage p (some { pg with snapCount })
  if snapCount = 0 then pg.owner.foldlM restoreWrite s else return s

/-- `page_entry_unref`. -/
def pageEntryUnref (s : State) (pe : PageEntry) : Except Fault State := do
  let s := disableInterrupts s
  let s ← (if hasFlag pe.flags PF_SNAPSHOT then dropSnapshot s pe.p else pure s)
  let s ← pageUnref s pe.p (hasFlag pe.flags PF_HARDWARE)
  enableInterrupts s

/-! ## Sharing -/

/-- `list_add(&p->owner, &pe->owner_of)`. -/
def addOwner (s : State) (p : ℕ) (o : ℕ × ℕ) : Except Fault State := do
  let pg ← s.getPageRec p
  return s.setPage p (some { pg with owner := o :: pg.owner })

/-- `list_del(&pe->owner_of)`. -/
def delOwner (s : State) (p : ℕ) (o : ℕ × ℕ) : Except Fault State := do
  let pg ← s.getPageRec p
  if o ∈ pg.owner then return s.setPage p (some { pg with owner := pg.owner.erase o })
  else .error .badUnlink

/-- Store a page entry under its key. -/
def State.setEntry (s : State) (as vaddr : ℕ) (pe : PageEntry) : State :=
  match s.spaces as with
  | some sp => s.setSpace as { sp with vaddrMap := sp.vaddrMap.insert vaddr pe }
  | none => s

/-- One owner in `share_page`. -/
def shareOwner (s : State) (o : ℕ × ℕ) : Except Fault State := do
  let pe ← s.getEntry o.1 o.2
  if hasFlag pe.flags PF_HARDWARE then .error (.panic "Sharing PF_HARDWARE page")
  else setWritable false s o

/-- `share_page`. -/
def sharePage (s : State) (p : ℕ) : Except Fault State := do
  let s := disableInterrupts s
  let pg ← s.getPageRec p
  let s ← pg.owner.foldlM shareOwner s
  enableInterrupts s

/-- One owner of `oldp` in `unshare_page`: a shared one moves along to `p`. -/
def moveShared (oldp p : ℕ) (s : State) (o : ℕ × ℕ) : Except Fault State := do
  let oi ← s.getEntry o.1 o.2
  if hasFlag oi.flags PF_SHARED then
    let s ← delOwner s oldp o
    let opg ← s.getPageRec oldp
    let s := s.setPage oldp (some { opg with refCount := wdec opg.refCount })
    let s ← addOwner s p o
    let s := s.setEntry o.1 o.2 { oi with p := p }
    let pg ← s.getPageRec p
    let s := s.setPage p (some { pg with refCount := pg.refCount + 1 })
    let _ ← ptableGetEntry4k s o.1 o.2
    return s.setPte o.1 o.2 none
  else return s

/-- The references of `unshare_page` that go from `oldp` to the copy `page`: with a
shared writer those of all shared entries, with a snapshot its own. -/
def unshareRefs (s : State) (as vaddr : ℕ) (pe : PageEntry) (page : ℕ) : Except Fault State :=
  if hasFlag pe.flags PF_SHARED then do
    let opg ← s.getPageRec pe.p
    opg.owner.foldlM (moveShared pe.p page) s
  else dropSnapshot (s.setEntry as vaddr { pe with flags := PF_SHARED }) pe.p

/-- `unshare_page` of a page with other users: the writer gets a copy. -/
def unshareCopy (s : State) (as vaddr : ℕ) (pe : PageEntry) : Except Fault State := do
  let (page, s) ← getPage s
  let pg ← s.getPageRec pe.p
  if pg.refCount = 1 then .error (.panic "Trying to unshare a page with 1 user")
  else
    let s := s.setMem page (s.mem pe.p)
    let s ← managePhysPage s page
    let s ← delOwner s pe.p (as, vaddr)
    let s ← unshareRefs s as vaddr pe page
    let pe' ← s.getEntry as vaddr
    let s := s.setEntry as vaddr { pe' with p := page }
    let s ← addOwner s page (as, vaddr)
    let s := unmap s vaddr
    let s ← pageUnref s pe.p false
    enableInterrupts s

/-- `unshare_page`. -/
def unsharePage (s : State) (as vaddr : ℕ) : Except Fault State := do
  let pe ← s.getEntry as vaddr
  if as ≠ s.current then .error (.panic "Unsharing page from un-current as")
  else
    let s := disableInterrupts s
    if hasFlag pe.flags PF_HARDWARE then .error (.panic "Unsharing PF_HARDWARE page??")
    else
      let pg ← s.getPageRec pe.p
      if pg.snapCount = 0 then
        -- no snapshots, restore write permission
        let s := disableInterrupts s
        let s ← pg.owner.foldlM (setWritable true) s
        enableInterrupts s
      else if pg.snapCount = pg.refCount ∧ pg.refCount = 1 then
        -- the only snapshot; its flags stay as they are
        let s := s.setPage pe.p (some { pg with snapCount := 0 })
        enableInterrupts (unmap s vaddr)
      else unshareCopy s as vaddr pe

end SadOS.Mm
