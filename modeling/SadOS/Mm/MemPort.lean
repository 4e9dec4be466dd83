import SadOS.Mm.Syscall

/-!
# Device memory

The service of the memory port, `sys/services/mem.c`, which maps device memory into
the address space of its client, with the list of physical ranges in use of
`sys/mm/paging.c` and `address_space_assign_addr_range` of `sys/mm/aspace.c`.

## Main definitions

* `insertRange` — a physical range, if it is free.
* `assignAddrRange` — its pages in the address space.
* `memPortRequest` — the request.
-/

namespace SadOS.Mm

/-! ## Physical ranges -/

/-- `is_range_reserved`, which tells whether a range does not meet any in the list. -/
def isRangeReserved (base len : ℕ) : List MemoryRange → Bool
  | [] => true
  | now :: rest =>
    if now.base < wadd base len ∧ base < wadd now.base now.length then false
    else if wadd base len ≤ now.base then true
    else isRangeReserved base len rest

/-- The insertion in `insert_range`. -/
def addRange (base len : ℕ) : List MemoryRange → List MemoryRange
  | [] => [⟨base, len⟩]
  | now :: rest =>
    if wadd base len ≤ now.base then ⟨base, len⟩ :: now :: rest else now :: addRange base len rest

/-- `insert_range`, or `none` for the return value -1. -/
def insertRange (s : State) (base len : ℕ) : Option State :=
  if isRangeReserved base len s.freeRange then
    some { s with freeRange := addRange base len s.freeRange }
  else none

/-! ## Pages of a physical range -/

/-- The sanity check of `address_space_assign_addr_range`, over the VMAs from `tvma` on. -/
def checkVmas (tmpLen : ℕ) : List VmArea → Except Fault ℤ
  | [] => .error .nullDeref
  | tvma :: rest =>
    if tmpLen ≤ tvma.vmaLength then .ok 0
    else if !hasFlag tvma.vmaFlags VMA_HW then .ok (-4)
    else match rest with
      | [] => .error .nullDeref
      | nvma :: _ =>
        if nvma.vmaBegin ≠ wadd tvma.vmaBegin tvma.vmaLength then .ok (-3)
        else checkVmas (tmpLen - tvma.vmaLength) rest

/-- The VMAs from `cvma` on, and the offset of its begin, once the loop of
`address_space_assign_addr_range` is at the offset `i`. -/
def advance (i offset : ℕ) : List VmArea → ℕ × List VmArea
  | [] => (offset, [])
  | cvma :: rest =>
    if wadd cvma.vmaLength offset ≤ i then (wadd offset cvma.vmaLength, rest)
    else (offset, cvma :: rest)

/-- The loop of `address_space_assign_addr_range`. -/
def assignAddrs (as addr vaddr : ℕ) : List ℕ → ℕ → List VmArea → State → Except Fault (ℤ × State)
  | [], _, _, s => .ok (0, s)
  | i :: steps, offset, vmas, s =>
    match advance i offset vmas with
    | (_, []) => .error .nullDeref
    | (offset, cvma :: rest) => do
      let (ret, s) ← assignAddrWithVma s as cvma (wadd addr i) (wadd vaddr i)
        (PF_SHARED ||| PF_HARDWARE)
      if ret ≠ 0 then return (ret, s)
      else assignAddrs as addr vaddr steps offset (cvma :: rest) s

/-- `address_space_assign_addr_range`.  Its error returns leave interrupts disabled. -/
def assignAddrRange (s : State) (as addr vaddr len : ℕ) : Except Fault (ℤ × State) :=
  if !isAligned addr ∨ !isAligned vaddr ∨ !isAligned len then .ok (-2, s)
  else do
    let s := disableInterrupts s
    let sp ← s.getSpace as
    match vmasFrom vaddr sp.vma with
    | [] => return (-1, s)
    | cvma :: rest => do
      let ret ← checkVmas len (cvma :: rest)
      if ret ≠ 0 then return (ret, s)
      else
        let (ret, s) ← assignAddrs as addr vaddr (pageSteps 0 len) 0 (cvma :: rest) s
        if ret ≠ 0 then return (ret, s)
        else
          let s ← enableInterrupts s
          return (0, s)

/-! ## Requests -/

/-- `struct mem_req`. -/
structure MemReq where
  physAddr : ℕ
  destAddr : ℕ
  len : ℕ
  deriving DecidableEq, Repr

/-- A 64-bit word of memory, little endian. -/
def wordAt (bytes : ℕ → UInt8) (off : ℕ) : ℕ :=
  (List.range 8).foldr (fun i acc => (bytes (off + i)).toNat + 256 * acc) 0

/-- `sizeof(struct mem_req)`. -/
def MEM_REQ_SIZE : ℕ := 24

def MemReq.ofBytes (bytes : ℕ → UInt8) : MemReq := ⟨wordAt bytes 0, wordAt bytes 8, wordAt bytes 16⟩

/-- `ALIGN_UP(x, PAGE_SIZE_BIT)`. -/
def pageAlignUp (x : ℕ) : ℕ := pageAlign (wadd x 4095)

/-- The insertion of the request is undone: `*vma->prev = vma->next`, where `prev` is the
link to the VMA that the insertion has just stored. -/
def undoInsert (s : State) (as : ℕ) (vma : VmArea) : State :=
  s.modifyVma as fun l => unlinkVma vma.id
    ((l.find? fun v => v.id = vma.id).elim vma.prev VmArea.prev) l

/-- The part of `mem_port_request` after the request is read. -/
def memRequest (s : State) (mreq : MemReq) (alen : ℕ) :
    Except Fault ((ℤ × Option (ℕ × ℕ)) × State) :=
  if !isAligned mreq.physAddr then .ok ((-EINVAL, none), s)
  else do
    let (vma, s) ← (if mreq.destAddr ≠ 0 then
        insertVmaToVaddr s s.current mreq.destAddr alen (VMA_RW ||| VMA_HW)
      else insertVmaToAny s s.current alen (VMA_RW ||| VMA_HW))
    match vma with
    | .error _ => return ((-ENOMEM, none), s)
    | .ok vma =>
      match insertRange s mreq.physAddr alen with
      | none => return ((-EINVAL, none), undoInsert s s.current vma)
      | some s => do
        let (ret, s) ← assignAddrRange s s.current mreq.physAddr vma.vmaBegin alen
        if ret < 0 then .error (.panic "Impossible error\n")
        else return ((0, some (vma.vmaBegin, alen)), s)

/-- `mem_port_request`, with the buffer of its `struct mem_data`, if it makes one. -/
def memPortRequest (s : State) (len buf : ℕ) : Except Fault ((ℤ × Option (ℕ × ℕ)) × State) :=
  if len ≠ MEM_REQ_SIZE then .ok ((-EINVAL, none), s)
  else if buf = 0 then .ok ((-EINVAL, none), s)
  else do
    let s := disableInterrupts s
    let ((ret, bytes), s) ← copyFromUserSimple s buf MEM_REQ_SIZE
    let (r, s) ← (if ret ≠ 0 then .ok ((ret, none), s)
      else memRequest s (MemReq.ofBytes bytes) (pageAlignUp len))
    let s ← enableInterrupts s
    return (r, s)

end SadOS.Mm
