import SadOS.Mm.Aspace

/-!
# Page lists, and copies to and from user memory

`sys/mm/copy.c`.  A page list carries a user buffer from one address space to
another: a copy of the first and of the last page where the buffer covers them
in part, and the pages in between themselves, as snapshots.

## Main definitions

* `mapFromUser`, `mapToUserAs`, `pageListFree` — the life of a page list.
* `copyToUserSimple`, `copyFromUserSimple` — small copies.
-/

namespace SadOS.Mm

def EINVAL : ℤ := 22
def ENOMEM : ℤ := 12

/-- The addresses that a loop `for (i = start; i < stop; i += PAGE_SIZE)` visits. -/
def pageSteps (start stop : ℕ) : List ℕ :=
  (List.range ((stop - start + 4095) / 4096)).map fun i => start + 4096 * i

/-- The offsets of a loop over the pages of a range. -/
theorem forall_pageSteps (len : ℕ) : ∀ i ∈ pageSteps 0 len, i < len := by
  intro i hi
  obtain ⟨k, hk, rfl⟩ := List.mem_map.1 hi
  rw [List.mem_range] at hk
  omega

/-- The bytes `[lo, hi)` of the page at `vaddr`, and zeros outside and where nothing
was touched. -/
def State.copyBytes (s : State) (vaddr lo hi o : ℕ) : UInt8 :=
  match s.entry s.current vaddr with
  | some pe => if lo ≤ o ∧ o < hi then s.mem pe.p o else 0
  | none => 0

/-- A fresh page, cleared, with a copy of the bytes `[lo, hi)` of the page at `vaddr`. -/
def copyPage (s : State) (vaddr lo hi : ℕ) : Except Fault (PageList × State) := do
  let (page, s) ← getPage s
  let s := s.setMem page fun _ => 0
  let s := s.setMem page (s.copyBytes vaddr lo hi)
  let s ← managePhysPage s page
  return (⟨some page, PF_SHARED⟩, s)

/-- One whole page: the page itself, with one more reference and snapshot.  The
`flags` of a node without a page are not initialised. -/
def snapPage (acc : List PageList × State) (vaddr : ℕ) : Except Fault (List PageList × State) :=
  let s := acc.2
  match s.entry s.current vaddr with
  | some pe => do
    let pg ← s.getPageRec pe.p
    return (acc.1 ++ [⟨some pe.p, PF_SNAPSHOT⟩], s.setPage pe.p
      (some { pg with refCount := pg.refCount + 1, snapCount := pg.snapCount + 1 }))
  | none => .ok (acc.1 ++ [⟨none, 0⟩], s)

/-- A finished page list. -/
def State.addPlist (s : State) (startOffset : ℕ) (ph : List PageList) : ℕ × State :=
  (s.plistPool, { s with
    plists := (s.plistPool, ⟨startOffset, ph.length, ph⟩) :: s.plists
    plistPool := s.plistPool + 1 })

/-- `map_from_user`.  The page list, or the negative `PTR_ERR`. -/
def mapFromUser (s : State) (buf len : ℕ) : Except Fault (Except ℤ ℕ × State) := do
  let s := disableInterrupts s
  let ok ← validateRange s buf len
  if !ok then do
    let s ← enableInterrupts s
    return (.error (-EINVAL), s)
  else
    let abuf := pageAlign buf
    let off := buf - abuf
    let (first, s) ← (if abuf ≠ buf then do
        let plen := if len < 4096 - off then len else 4096 - off
        let (pl, s) ← copyPage s abuf off (off + plen)
        return ([pl], s)
      else .ok ([], s))
    if abuf ≠ buf ∧ wadd buf len ≤ wadd abuf 4096 then do
      let (id, s) := s.addPlist off first
      let s ← enableInterrupts s
      return (.ok id, s)
    else
      let stop := wadd buf len
      let astop := pageAlign stop
      let (middle, s) ← (pageSteps (wadd abuf 4096) astop).foldlM snapPage (first, s)
      let (all, s) ← (if stop ≠ astop then do
          let (pl, s) ← copyPage s astop 0 (stop - astop)
          return (middle ++ [pl], s)
        else .ok (middle, s))
      let (id, s) := s.addPlist off all
      let s ← enableInterrupts s
      return (.ok id, s)

def State.getPlist (s : State) (id : ℕ) : Except Fault PageListHead :=
  match s.plists.lookup id with
  | some plh => .ok plh
  | none => .error .badPointer

/-- The loop of `map_to_user_as`. -/
def mapNodes (as : ℕ) (vma : VmArea) : List PageList → ℕ → State → Except Fault State
  | [], _, s => .ok s
  | pl :: rest, vaddr, s => do
    let s ← (match pl.p with
      | some p => do
        let (_, s) ← assignPageWithVma s as vma p vaddr PF_SNAPSHOT
        return s
      | none => .ok s)
    mapNodes as vma rest (wadd vaddr 4096) s

/-- `map_to_user_as`. -/
def mapToUserAs (s : State) (as id vaddr : ℕ) : Except Fault (ℤ × State) := do
  let plh ← s.getPlist id
  if !isAligned vaddr then .error (.panic "Unaligned")
  else
    let len := 4096 * plh.npage % 2 ^ 64
    let (vma, s) ← (if vaddr ≠ 0 then insertVmaToVaddr s as vaddr len VMA_RW
      else insertVmaToAny s as len VMA_RW)
    match vma with
    | .error _ => return (-ENOMEM, s)
    | .ok vma => do
      let s ← mapNodes as vma plh.ph vma.vmaBegin s
      return (vma.vmaBegin, s)

/-- `map_to_user`. -/
def mapToUser (s : State) (id vaddr : ℕ) : Except Fault (ℤ × State) :=
  mapToUserAs s s.current id vaddr

/-- One node in `page_list_free`.  A node without a page is a null pointer. -/
def freeNode (s : State) (pl : PageList) : Except Fault State :=
  match pl.p with
  | none => .error .nullDeref
  | some p => do
    let s ← (if pl.flags = PF_SNAPSHOT then do
        let pg ← s.getPageRec p
        return s.setPage p (some { pg with snapCount := wdec pg.snapCount })
      else .ok s)
    pageUnref s p false

/-- `page_list_free`. -/
def pageListFree (s : State) (id : ℕ) : Except Fault State := do
  let plh ← s.getPlist id
  plh.ph.foldlM freeNode { s with plists := s.plists.filter fun x => x.1 != id }

/-- The page that `copy_to_user_simple` writes to for the user page `aaddr`. -/
def userPage (s : State) (aaddr : ℕ) : Except Fault (ℕ × State) :=
  match s.entry s.current aaddr with
  | none => do
    let (page, s) ← getPage s
    let s := s.setMem page fun _ => 0
    let s ← managePhysPage s page
    let (_, s) ← assignPage s s.current page aaddr PF_SHARED
    let s ← pageUnref s page false
    return (page, s)
  | some pe => do
    let pg ← s.getPageRec pe.p
    let s ← (if 0 < pg.snapCount then unsharePage s s.current aaddr else .ok s)
    let pe ← s.getEntry s.current aaddr
    return (pe.p, s)

/-- `len` bytes written to a page. -/
def State.write (s : State) (page off len : ℕ) (bytes : ℕ → UInt8) : State :=
  s.setMem page fun o => if off ≤ o ∧ o < off + len then bytes (o - off) else s.mem page o

/-- `memcpy` into a page, which must not be back in the allocator. -/
def State.memcpy (s : State) (page off len : ℕ) (bytes : ℕ → UInt8) : Except Fault State := do
  let _ ← s.getPageRec page
  return s.write page off len bytes

/-- The part of `copy_to_user_simple` that goes to one user page. -/
def copyToPage (s : State) (aaddr off len : ℕ) (bytes : ℕ → UInt8) : Except Fault State := do
  let (page, s) ← userPage s aaddr
  s.memcpy page off len bytes

/-- `copy_to_user_simple` of the bytes `src`. -/
def copyToUserSimple (s : State) (src : ℕ → UInt8) (buf len : ℕ) : Except Fault (ℤ × State) :=
  if 4096 < len then .error (.panic "Please use copy_to_user()")
  else do
    let s := disableInterrupts s
    let ok ← validateRange s buf len
    if !ok then do
      let s ← enableInterrupts s
      return (-1, s)
    else
      let aaddr := pageAlign buf
      let crosses := wadd aaddr 4096 < wadd buf len
      let leftover := if crosses then wsub (wadd buf len) (wadd aaddr 4096) else 0
      let len := if crosses then wsub (wadd aaddr 4096) buf else len
      let s ← copyToPage s aaddr (buf - aaddr) len src
      let s ← (if leftover ≠ 0 then
          copyToPage s (wadd aaddr 4096) 0 leftover fun i => src (len + i)
        else .ok s)
      let s ← enableInterrupts s
      return (0, s)

/-- The byte that the kernel reads for the user address `aaddr + off`. -/
def State.kernelByte (s : State) (aaddr off : ℕ) : UInt8 :=
  match s.entry s.current aaddr with
  | some pe => s.mem pe.p off
  | none => 0

/-- `copy_from_user_simple`, with the bytes it leaves in the buffer. -/
def copyFromUserSimple (s : State) (src len : ℕ) : Except Fault ((ℤ × (ℕ → UInt8)) × State) :=
  if 4096 < len then .error (.panic "Please use copy_from_user()")
  else do
    let s := disableInterrupts s
    let ok ← validateRange s src len
    if !ok then do
      let s ← enableInterrupts s
      return ((-1, fun _ => 0), s)
    else
      let aaddr := pageAlign src
      let crosses := wadd aaddr 4096 < wadd src len
      let first := if crosses then wsub (wadd aaddr 4096) src else len
      let dst := fun i => if i < first then s.kernelByte aaddr (src - aaddr + i)
        else if i < len then s.kernelByte (wadd aaddr 4096) (i - first) else 0
      let s ← enableInterrupts s
      return ((0, dst), s)

end SadOS.Mm
