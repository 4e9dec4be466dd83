import SadOS.Kernel.Sched

/-!
# The services of the kernel

`sys/services`: the ports that the kernel itself answers, for device memory, for the
archive of initial files, for the BIOS data area, for I/O ports and for interrupts.

## Main definitions

* `memPortRequest`, `memPortGetResponse` — device memory.
* `tarfsPortGetResponse`, `bdaPortGetResponse` — pages of the kernel.
* `portioRequest`, `portioGetResponse` — I/O ports.
* `intPortConnect`, `intPortAvailable`, `intPortDup`, `intPortDrop` — interrupts.
-/

namespace SadOS.Kernel

/-- `struct response`. -/
structure Response where
  len : ℕ
  buf : ℕ

/-- `len` bytes of memory as a number, little endian. -/
def numAt (bytes : ℕ → UInt8) (off len : ℕ) : ℕ :=
  (List.range len).foldr (fun i acc => (bytes (off + i)).toNat + 256 * acc) 0

/-- A number as a signed one of 32 bits. -/
def toInt32 (n : ℕ) : ℤ := if n < 2 ^ 31 then n else n - 2 ^ 32

/-! ## Device memory -/

/-- `mem_port_request` for the handle `a`, which is the new one in each of its uses. -/
def memPortRequest (s : State) (a len buf : ℕ) : Except Fault (ℤ × State) := do
  let ((ret, md), s) ← s.runMm (Mm.memPortRequest s.mm len buf)
  match md with
  | none => return (ret, s)
  | some (vaddr, mlen) => do
    let r ← s.getReq a
    return (ret, s.setReq a { r with data := .mem vaddr mlen, rops := some .mem })

/-- `mem_port_get_response`. -/
def memPortGetResponse (s : State) (a : ℕ) : Except Fault ((ℤ × Response) × State) := do
  let r ← s.getReq a
  let s := s.setReq a { r with data := .null }
  match r.data with
  | .mem buf len => return ((0, ⟨len, buf⟩), s)
  | .null => return ((-ENOMEM, ⟨0, 0⟩), s)
  | _ => .error .badObject

/-! ## Pages of the kernel -/

/-- A page of the kernel goes into the current address space as a snapshot. -/
def mapKernelPage (m : Mm.State) (paddr vaddr : ℕ) : Except SadOS.Fault Mm.State := do
  let m ← Mm.managePhysPage m paddr
  let (_, m) ← Mm.assignPage m m.current paddr vaddr Mm.PF_SNAPSHOT
  Mm.pageUnref m paddr false

/-- A copy of the bytes `[lo, hi)` of the page at `paddr` goes to the offset `off` of a
fresh page of the current address space. -/
def mapKernelCopy (m : Mm.State) (paddr lo hi off vaddr : ℕ) : Except SadOS.Fault Mm.State := do
  let (page, m) ← Mm.getPage m
  let m := m.setMem page fun o =>
    if off ≤ o ∧ o < off + (hi - lo) then m.mem paddr (o - off + lo) else 0
  let m ← Mm.managePhysPage m page
  let (_, m) ← Mm.assignPage m m.current page vaddr Mm.PF_SHARED
  Mm.pageUnref m page false

/-- The loop over whole pages of the kernel, with the address after the last one. -/
def mapKernelPages (m : Mm.State) (start stop vaddr : ℕ) : Except SadOS.Fault (ℕ × Mm.State) :=
  (Mm.pageSteps start stop).foldlM
    (fun r i => do
      let m ← mapKernelPage r.2 i r.1
      return (wadd r.1 4096, m))
    (vaddr, m)

/-- `bda_port_get_response`.  Its `vma` is not tested before it is used. -/
def bdaGetResponse (m : Mm.State) : Except SadOS.Fault (Response × Mm.State) := do
  let len := 4096 * 16
  let (vma, m) ← Mm.insertVmaToAny m m.current len Mm.VMA_RW
  match vma with
  | .error _ => .error .badPointer
  | .ok vma => do
    let (_, m) ← mapKernelPages m 0 len vma.vmaBegin
    return (⟨len, vma.vmaBegin⟩, m)

/-- `tarfs_port_get_response`, for an archive at the physical addresses `[start, stop)`. -/
def tarfsGetResponse (m : Mm.State) (start stop : ℕ) : Except SadOS.Fault (Response × Mm.State) := do
  let astart := Mm.pageAlignUp start
  let aend := pageAlign stop
  let ustart := pageAlign start
  let (vma, m) ← Mm.insertVmaToAny m m.current (Mm.pageAlignUp stop - ustart) Mm.VMA_RW
  match vma with
  | .error _ => .error .badPointer
  | .ok vma => do
    let (vaddr, m) ← (if astart ≠ start then do
        let m ← mapKernelCopy m ustart (start - ustart) 4096 (start - ustart) vma.vmaBegin
        return (wadd vma.vmaBegin 4096, m)
      else .ok (vma.vmaBegin, m))
    let (vaddr, m) ← mapKernelPages m astart aend vaddr
    let m ← (if aend ≠ stop then mapKernelCopy m aend 0 (stop - aend) 0 vaddr else .ok m)
    return (⟨stop - start, wadd vma.vmaBegin (start - ustart)⟩, m)

/-! ## I/O ports -/

/-- `portio_request` for the new handle `a`. -/
def portioRequest (s : State) (a len buf : ℕ) : Except Fault (ℤ × State) :=
  if len ≠ 8 then .ok (-EINVAL, s)
  else do
    let ((ret, bytes), s) ← s.runMm (Mm.copyFromUserSimple s.mm buf 8)
    if ret ≠ 0 then return (-EFAULT, s)
    else
      let r ← s.getReq a
      let r := { r with rops := some .portio }
      let value := s.inport (numAt bytes 4 2)
      -- the bytes at 6 and 7 are `type` and `len`
      if numAt bytes 6 1 = 1 then return (0, s.setReq a { r with data := .word (2 ^ 64 - 1) })
      else if numAt bytes 6 1 = 2 then
        let value := if numAt bytes 7 1 = 1 then value % 2 ^ 8 else value % 2 ^ 32
        return (0, s.setReq a { r with data := .word value })
      else return (-EINVAL, s.setReq a r)

/-- `portio_get_response`.  It leaves `len` of the response as it is. -/
def portioGetResponse (s : State) (r : Request) : Except Fault ((ℤ × Response) × State) :=
  if r.type ≠ .cookie then .ok ((-EBADF, ⟨0, 0⟩), s)
  else match r.data with
    | .word n => if 2 ^ 63 ≤ n then .ok ((-EINVAL, ⟨0, 0⟩), s) else .ok ((0, ⟨0, n⟩), s)
    | _ => .error .badObject

/-! ## Interrupts -/

/-- `int_port_connect` for the new handle `a`. -/
def intPortConnect (s : State) (a len buf : ℕ) : Except Fault (ℤ × State) :=
  if len ≠ 4 then .ok (-EINVAL, s)
  else do
    let ((ret, bytes), s) ← s.runMm (Mm.copyFromUserSimple s.mm buf 4)
    let vector := toInt32 (numAt bytes 0 4)
    if ret ≠ 0 then return (-EFAULT, s)
    else if vector < 33 ∨ 255 < vector then return (-EINVAL, s)
    else
      let r ← s.getReq a
      let s := s.setReq a { r with data := .word vector.toNat, rops := some .int }
      let s ← linkReq s a (.int vector.toNat)
      return (0, s)

/-- `int_port_available`, which forgets the interrupt it reports. -/
def intPortAvailable (s : State) (a : ℕ) (r : Request) (rw : ℕ) : Except Fault (Bool × State) :=
  if rw = 2 then .ok (false, s)
  else match r.data with
    | .word n => .ok (n &&& 256 ≠ 0, s.setReq a { r with data := .word (n &&& 255) })
    | _ => .error .badObject

/-- `int_port_dup`. -/
def intPortDup (s : State) (old : Request) (new : ℕ) : Except Fault (ℤ × State) :=
  match old.data with
  | .word n => do
    let r ← s.getReq new
    let s := s.setReq new { r with data := .word (n &&& 255), rops := some .int }
    let s ← linkReq s new (.int (n &&& 255))
    return (0, s)
  | _ => .error .badObject

/-- `int_port_drop`. -/
def intPortDrop (s : State) (a : ℕ) : Except Fault State := unlinkReq s a

end SadOS.Kernel
