import SadOS.Mm.PageMan

/-!
# Address spaces

`sys/mm/aspace.c`.  The VMA list is the list from `as->vma` on; a loop of the
source over `vm_area **now` carries the `Link` that `now` points to.  Addresses
are added modulo `2 ^ 64`, as in the source.

## Main definitions

* `aspaceNew`, `destroyAs` — an address space comes and goes.
* `vmaFindByVaddr`, `validateRange` — searches of the VMA list.
* `insertVmaToVaddr`, `insertVmaToAny`, `removeVmaRange` — updates of it.
* `assignPageNoAddrCheck`, `unassignPage`, `addressSpaceMap` — page entries.
-/

namespace SadOS.Mm

/-! ## Searches -/

/-- The loop of `vma_find_by_vaddr`. -/
def vmaFindByVaddr (addr : ℕ) : List VmArea → Option VmArea
  | [] => none
  | now :: rest =>
    if addr < now.vmaBegin then none
    else if addr < wadd now.vmaBegin now.vmaLength then some now
    else vmaFindByVaddr addr rest

/-- The loop of `validate_range`, with `vma` the list from the current VMA on. -/
def validateRangeFrom (base len : ℕ) : List VmArea → Bool
  | [] => false
  | vma :: rest =>
    if base < vma.vmaBegin then false
    else
      let tmp := wadd vma.vmaBegin vma.vmaLength
      if len ≤ wsub tmp base then true
      else
        let len := wsub len (wsub tmp base)
        if 0 < len then validateRangeFrom tmp len rest else true

/-- The VMAs from the one that contains `addr` on. -/
def vmasFrom (addr : ℕ) : List VmArea → List VmArea
  | [] => []
  | now :: rest =>
    if addr < now.vmaBegin then []
    else if addr < wadd now.vmaBegin now.vmaLength then now :: rest
    else vmasFrom addr rest

/-- `validate_range(base, len) == 0`, for the current address space. -/
def validateRange (s : State) (base len : ℕ) : Except Fault Bool := do
  let as ← s.getSpace s.current
  return validateRangeFrom base len (vmasFrom base as.vma)

/-! ## Page entries -/

/-- `list_del(&pe->siblings)`. -/
def delSibling (vaddr : ℕ) (vma : List VmArea) : List VmArea :=
  vma.map fun v => { v with pages := v.pages.erase vaddr }

/-- `list_add(&vma->pages, &pe->siblings)`. -/
def addSibling (id vaddr : ℕ) (vma : List VmArea) : List VmArea :=
  vma.map fun v => if v.id = id then { v with pages := vaddr :: v.pages } else v

/-- `unassign_page`. -/
def unassignPage (as : ℕ) (s : State) (vaddr : ℕ) : Except Fault State := do
  let s := disableInterrupts s
  let pe ← s.getEntry as vaddr
  let sp ← s.getSpace as
  let s := s.setSpace as { sp with vaddrMap := sp.vaddrMap.erase vaddr }
  let s ← delOwner s pe.p (as, vaddr)
  let sp ← s.getSpace as
  let s := s.setSpace as { sp with vma := delSibling vaddr sp.vma }
  let s ← enableInterrupts s
  let s ← unmapMaybeCurrent s as vaddr
  pageEntryUnref s pe

/-- The entry that `address_space_assign_page_no_addr_check` replaces goes first. -/
def unassignOld (as : ℕ) (s : State) (vaddr : ℕ) : Except Fault State :=
  match s.entry as vaddr with
  | some _ => unassignPage as s vaddr
  | none => .ok s

/-- `p->snap_count++`, and write permission away from everyone with the first
snapshot. -/
def addSnapshot (s : State) (p : ℕ) : Except Fault State := do
  let pg ← s.getPageRec p
  if pg.refCount = 0 then .error (.panic "Invalid snapshot")
  else
    let s := s.setPage p (some { pg with snapCount := pg.snapCount + 1 })
    if pg.snapCount + 1 = 1 then sharePage s p else return s

/-- `address_space_assign_page_no_addr_check`, with the VMA by its address. -/
def assignPageNoAddrCheck (s : State) (as p vaddr vma flags : ℕ) : Except Fault State :=
  if hasFlag flags PF_SHARED ∧ hasFlag flags PF_SNAPSHOT then
    .error (.panic "a page can't be both shared and snapshot")
  else if hasFlag flags PF_HARDWARE ∧ hasFlag flags PF_SNAPSHOT then
    .error (.panic "a page can't be both hardware and snapshot")
  else do
    let s := disableInterrupts s
    let s ← unassignOld as s vaddr
    let pg ← s.getPageRec p
    let s := s.setPage p (some { pg with refCount := pg.refCount + 1 })
    let s ← addOwner s p (as, vaddr)
    let sp ← s.getSpace as
    let s := s.setSpace as
      { sp with vma := addSibling vma vaddr sp.vma, vaddrMap := sp.vaddrMap.insert vaddr ⟨p, flags⟩ }
    let s ← (if hasFlag flags PF_SNAPSHOT then addSnapshot s p else pure s)
    enableInterrupts s

/-- `address_space_assign_page_with_vma`, with what it returns. -/
def assignPageWithVma (s : State) (as : ℕ) (vma : VmArea) (p vaddr flags : ℕ) :
    Except Fault (ℤ × State) :=
  if !isAligned vaddr then .ok (-1, s)
  else if vaddr < vma.vmaBegin ∨ wadd vma.vmaBegin vma.vmaLength ≤ vaddr then .ok (-2, s)
  else do
    let s ← assignPageNoAddrCheck s as p vaddr vma.id flags
    return (0, s)

/-- `address_space_assign_page`.  No VMA is a null pointer, whose `PTR_ERR` is 0. -/
def assignPage (s : State) (as p vaddr flags : ℕ) : Except Fault (ℤ × State) :=
  if !isAligned vaddr then .ok (-1, s)
  else do
    let s := disableInterrupts s
    let sp ← s.getSpace as
    let s ← enableInterrupts s
    match vmaFindByVaddr vaddr sp.vma with
    | none => return (0, s)
    | some vma => do
      let s ← assignPageNoAddrCheck s as p vaddr vma.id flags
      return (0, s)

/-- `address_space_assign_addr_with_vma`. -/
def assignAddrWithVma (s : State) (as : ℕ) (vma : VmArea) (addr vaddr flags : ℕ) :
    Except Fault (ℤ × State) :=
  if !isAligned vaddr then .ok (-1, s)
  else if vaddr < vma.vmaBegin ∨ wadd vma.vmaBegin vma.vmaLength ≤ vaddr then .ok (-2, s)
  else do
    let s ← managePhysPage s addr
    let s ← assignPageNoAddrCheck s as addr vaddr vma.id flags
    let s ← pageUnref s addr false
    return (0, s)

/-- `address_space_map`. -/
def addressSpaceMap (s : State) (vaddr : ℕ) : Except Fault (ℤ × State) :=
  if !isAligned vaddr then .ok (-2, s)
  else do
    let sp ← s.getSpace s.current
    match vmaFindByVaddr vaddr sp.vma with
    | none => return (-1, s)
    | some cvma =>
      match s.entry s.current vaddr with
      | none => return (0, s)
      | some pe => do
        let pg ← s.getPageRec pe.p
        if pg.snapCount = 1 ∧ pg.refCount = 1 then
          -- the only snapshot holder
          if hasFlag pe.flags PF_SNAPSHOT then
            let s := s.setPage pe.p (some { pg with snapCount := 0 })
            let s := s.setEntry s.current vaddr { pe with flags := PF_SHARED }
            let s ← mapPage s pe.p vaddr cvma.pageSize (hasFlag cvma.vmaFlags VMA_RW)
            return (1, s)
          else .error (.panic "Has snap_count but not snapshot holder")
        else
          -- a page with snapshots is mapped read only
          let s ← mapPage s pe.p vaddr cvma.pageSize
            (hasFlag cvma.vmaFlags VMA_RW && pg.snapCount = 0)
          return (1, s)

/-! ## Insertion and removal of VMAs -/

/-- `aspace_new`. -/
def aspaceNew (s : State) : ℕ × State :=
  let as := s.aspacePool
  (as, { s.setSpace as ⟨[], ∅, USER_BASE, USER_TOP, 0⟩ with
    aspacePool := as + 1, pte := Function.update s.pte as fun _ => none })

/-- Point the `prev` of the first VMA of a list to `now`. -/
def setPrev (now : Link) : List VmArea → List VmArea
  | [] => []
  | v :: rest => { v with prev := now } :: rest

/-- The loop of `aspace_add_vma`, or `none` for an overlap. -/
def aspaceAddVma (vma : VmArea) : Link → List VmArea → Option (List VmArea)
  | now, [] => some [{ vma with prev := now }]
  | now, v :: rest =>
    let vmaEnd := wadd vma.vmaBegin vma.vmaLength
    let nowEnd := wadd v.vmaBegin v.vmaLength
    if vmaEnd ≤ v.vmaBegin then
      some ({ vma with prev := now } :: setPrev (.next vma.id) (v :: rest))
    else if vma.vmaBegin < nowEnd ∧ v.vmaBegin < vmaEnd then none
    else (aspaceAddVma vma (.next v.id) rest).map (v :: ·)

/-- `insert_vma_to_vaddr`.  The VMA, or the negative `PTR_ERR`. -/
def insertVmaToVaddr (s : State) (as vaddr len flags : ℕ) :
    Except Fault (Except ℤ VmArea × State) := do
  let s := disableInterrupts s
  let sp ← s.getSpace as
  let vma : VmArea := ⟨sp.vmaPool, flags, 0, vaddr, len, [], .head⟩
  let sp := { sp with vmaPool := sp.vmaPool + 1 }
  let s ← enableInterrupts (s.setSpace as sp)
  if vaddr % 4096 ≠ 0 then return (.error (-2), s)
  else if vaddr < sp.lowAddr ∨ sp.highAddr < vaddr then return (.error (-3), s)
  else
    -- `aspace_add_vma`
    let s := disableInterrupts s
    match aspaceAddVma vma .head sp.vma with
    | none => do
      let s ← enableInterrupts s
      return (.error (-1), s)
    | some l => do
      let s ← enableInterrupts (s.setSpace as { sp with vma := l })
      return (.ok vma, s)

/-- The search of `insert_vma_to_any`: the address it stops at, and whether a VMA
follows there. -/
def findGap (len : ℕ) : ℕ → List VmArea → ℕ × Bool
  | nowAddr, [] => (nowAddr, false)
  | nowAddr, v :: rest =>
    if wadd nowAddr len ≤ v.vmaBegin then (nowAddr, true)
    else findGap len (wadd v.vmaBegin v.vmaLength) rest

/-- The insertion at the place where `findGap` stops. -/
def insertAtGap (nvma : VmArea) (len : ℕ) : ℕ → Link → List VmArea → List VmArea
  | _, now, [] => [{ nvma with prev := now }]
  | nowAddr, now, v :: rest =>
    if wadd nowAddr len ≤ v.vmaBegin then
      { nvma with prev := now } :: setPrev (.next nvma.id) (v :: rest)
    else v :: insertAtGap nvma len (wadd v.vmaBegin v.vmaLength) (.next v.id) rest

/-- `insert_vma_to_any`.  The error return leaves interrupts disabled. -/
def insertVmaToAny (s : State) (as len flags : ℕ) : Except Fault (Except ℤ VmArea × State) := do
  let s := disableInterrupts s
  let sp ← s.getSpace as
  let gap := findGap len sp.lowAddr sp.vma
  if gap.2 = false ∧ sp.highAddr < wadd gap.1 len then return (.error (-1), s)
  else
    let nvma : VmArea := ⟨sp.vmaPool, flags, 0, gap.1, len, [], .head⟩
    let s ← enableInterrupts (s.setSpace as
      { sp with vmaPool := sp.vmaPool + 1, vma := insertAtGap nvma len sp.lowAddr .head sp.vma })
    return (.ok nvma, s)

/-- Rewrite the VMA list of an address space. -/
def State.modifyVma (s : State) (as : ℕ) (f : List VmArea → List VmArea) : State :=
  match s.spaces as with
  | some sp => s.setSpace as { sp with vma := f sp.vma }
  | none => s

/-- `*nowp = tmp->next`, with the back link of what follows. -/
def unlinkVma (id : ℕ) (nowp : Link) : List VmArea → List VmArea
  | [] => []
  | v :: rest => if v.id = id then setPrev nowp rest else v :: unlinkVma id nowp rest

/-- Change the bounds of the VMA with address `id`. -/
def resizeVma (id vmaBegin vmaLength : ℕ) (vma : List VmArea) : List VmArea :=
  vma.map fun v => if v.id = id then { v with vmaBegin, vmaLength } else v

/-- A hole from `base` to `holeEnd` cuts the VMA with address `id` in two.
`vma_flags` and `page_size` of the upper part keep what the pool left there, and
its back link goes to `nowp`. -/
def splitVma (id base holeEnd nid : ℕ) (junk : ℕ × ℕ) (nowp : Link) : List VmArea → List VmArea
  | [] => []
  | v :: rest =>
    if v.id = id then
      { v with
        vmaLength := wsub base v.vmaBegin
        pages := v.pages.filter fun vaddr => decide (vaddr < holeEnd) } ::
      ⟨nid, junk.1, junk.2, holeEnd, wsub (wadd v.vmaBegin v.vmaLength) holeEnd,
        (v.pages.filter fun vaddr => decide (holeEnd ≤ vaddr)).reverse, nowp⟩ ::
      setPrev (.next nid) rest
    else v :: splitVma id base holeEnd nid junk nowp rest

/-- The loop of `remove_vma_range`, over the VMAs from `*nowp` on. -/
def removeVmaRangeFrom (as base len : ℕ) : Link → List VmArea → State → Except Fault State
  | _, [], s => .ok s
  | nowp, v :: rest, s =>
    let nowEnd := wadd v.vmaBegin v.vmaLength
    let holeEnd := wadd base len
    if nowEnd ≤ base then removeVmaRangeFrom as base len (.next v.id) rest s
    else if holeEnd ≤ v.vmaBegin then .ok s
    else if base ≤ v.vmaBegin ∧ nowEnd ≤ holeEnd then do
      let s := s.modifyVma as (unlinkVma v.id nowp)
      let s ← v.pages.foldlM (unassignPage as) s
      removeVmaRangeFrom as base len nowp rest s
    else if v.vmaBegin < base ∧ holeEnd < nowEnd then do
      let sp ← s.getSpace as
      let nid := sp.vmaPool
      let s := s.setSpace as { sp with
        vmaPool := nid + 1
        vma := splitVma v.id base holeEnd nid (s.vmaJunk as nid) nowp sp.vma }
      (v.pages.filter fun vaddr => decide (vaddr < holeEnd ∧ base ≤ vaddr)).foldlM
        (unassignPage as) s
    else do
      let s := s.modifyVma as <|
        if v.vmaBegin < base then resizeVma v.id v.vmaBegin (wsub base v.vmaBegin)
        else resizeVma v.id holeEnd (wsub nowEnd holeEnd)
      let s ← (v.pages.filter fun vaddr => decide (base ≤ vaddr ∧ vaddr < holeEnd)).foldlM
        (unassignPage as) s
      removeVmaRangeFrom as base len (.next v.id) rest s

/-- `remove_vma_range`. -/
def removeVmaRange (s : State) (as base len : ℕ) : Except Fault State :=
  if isAligned base ∧ isAligned len then do
    let sp ← s.getSpace as
    removeVmaRangeFrom as base len .head sp.vma s
  else .error (.panic "Unaligned address")

/-- `destroy_as`.  The page table and the pools go, and the address space with
them. -/
def destroyAs (s : State) (as : ℕ) : Except Fault State := do
  let sp ← s.getSpace as
  let s ← removeVmaRange s as sp.lowAddr (wsub sp.highAddr sp.lowAddr)
  let sp ← s.getSpace as
  if sp.vma ≠ [] then .error (.panic "Not all vma removed")
  else return { s with
    spaces := Function.update s.spaces as none
    pte := Function.update s.pte as fun _ => none }

end SadOS.Mm
