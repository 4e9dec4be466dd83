import SadOS.Mm.Faults
import SadOS.Mm.Paging

/-!
# What the assignment of a page returns

`address_space_assign_page` and `address_space_assign_addr` of `sys/mm/aspace.c`, with the error
pointers of `include/sys/err.h`.  A negative error code is a pointer to the last page of the
address space.  The null pointer is not one of them, but the test takes it for an error, and the
number that it then returns is zero.

## Main definitions

* `ptrErr`, `ptrIsErr` — `PTR_ERR` and `PTR_IS_ERR`.
* `addressSpaceAssignPage`, `addressSpaceAssignAddr` — the source.
* `AddressSpace.Regular` — an address space with a well-formed VMA list.
* `Truthful` — what is returned agrees with the entry of the address.

## Main results

* `addressSpaceAssignPage_safely` — it has no fault, and panics or returns.
* `assign_truthful_iff` — when what is returned is right.
-/

namespace SadOS.Mm

/-! ## Error pointers -/

/-- `PTR_ERR`: a pointer as a signed number. -/
def ptrErr (x : ℕ) : ℤ := if x < 2 ^ 63 then x else x - 2 ^ 64

/-- `PTR_IS_ERR`. -/
def ptrIsErr (x : ℕ) : Bool := decide (-ptrErr x < 0xfff)

open Paging (KERN_VMBASE)

/-- Where the VMAs are.  A pool takes its pages from the map of physical memory. -/
structure VmaPlaces where
  addr : ℕ → ℕ
  kern : ∀ id, KERN_VMBASE ≤ addr id
  below : ∀ id, addr id + 0xfff ≤ 2 ^ 64

/-- The pointer that `vma_find_by_vaddr` returns. -/
def VmaPlaces.ptr (places : VmaPlaces) : Option VmArea → ℕ
  | none => 0
  | some vma => places.addr vma.id

@[simp] theorem ptrErr_zero : ptrErr 0 = 0 := rfl

/-- The test takes the null pointer for an error, and no VMA. -/
@[simp] theorem VmaPlaces.ptrIsErr_ptr (places : VmaPlaces) (vma : Option VmArea) :
    ptrIsErr (places.ptr vma) = vma.isNone := by
  cases vma with
  | none => rfl
  | some vma =>
    have hkern := places.kern vma.id
    have hbelow := places.below vma.id
    rw [KERN_VMBASE] at hkern
    have hnot : ¬-ptrErr (places.addr vma.id) < 0xfff := by
      rw [ptrErr, if_neg (by omega)]
      omega
    simp [ptr, ptrIsErr, hnot]

/-! ## The source -/

/-- `address_space_assign_page`. -/
def addressSpaceAssignPage (places : VmaPlaces) (s : State) (as p vaddr flags : ℕ) :
    Except Fault (ℤ × State) :=
  if !isAligned vaddr then .ok (-1, s)
  else do
    let s := disableInterrupts s
    let sp ← s.getSpace as
    let s ← enableInterrupts s
    let found := vmaFindByVaddr vaddr sp.vma
    if ptrIsErr (places.ptr found) then return (ptrErr (places.ptr found), s)
    else
      match found with
      | none => .error .nullDeref
      | some vma => do
        let s ← assignPageNoAddrCheck s as p vaddr vma.id flags
        return (0, s)

/-- `address_space_assign_addr`. -/
def addressSpaceAssignAddr (places : VmaPlaces) (s : State) (as addr vaddr flags : ℕ) :
    Except Fault (ℤ × State) :=
  if !isAligned vaddr then .ok (-1, s)
  else do
    let s := disableInterrupts s
    let sp ← s.getSpace as
    let s ← enableInterrupts s
    let found := vmaFindByVaddr vaddr sp.vma
    if ptrIsErr (places.ptr found) then return (ptrErr (places.ptr found), s)
    else
      match found with
      | none => .error .nullDeref
      | some vma => do
        let s ← managePhysPage s addr
        let s ← assignPageNoAddrCheck s as addr vaddr vma.id flags
        let s ← pageUnref s addr false
        return (0, s)

/-! ## The property -/

/-- A well-formed VMA list: the entries of the address space are in its VMAs, at page
addresses. -/
structure AddressSpace.Regular (sp : AddressSpace) : Prop extends sp.Placed where
  noWrap : ∀ v ∈ sp.vma, v.vmaBegin + v.vmaLength < 2 ^ 64
  aligned : ∀ v ∈ sp.vma, ∀ vaddr ∈ v.pages, isAligned vaddr = true

/-- Zero is returned if and only if the address has the entry, and otherwise a negative number,
and the address space is as it was. -/
structure Truthful (s : State) (as vaddr : ℕ) (pe : PageEntry) (r : ℤ × State) : Prop where
  zero_iff : r.1 = 0 ↔ r.2.entry as vaddr = some pe
  failed : r.1 ≠ 0 → r.1 < 0 ∧ r.2.spaces as = s.spaces as

section assign

variable {places : VmaPlaces} {s : State} {as p addr vaddr flags : ℕ} {sp : AddressSpace}
  {pe : PageEntry}

namespace AddressSpace.Regular

/-- The search finds a VMA exactly for the addresses in VMAs. -/
theorem find_eq_none_iff (h : sp.Regular) :
    vmaFindByVaddr vaddr sp.vma = none ↔ ¬Covered sp.vma vaddr := by
  constructor
  · rintro hnone ⟨v, hv, hcov⟩
    rw [VmArea.Covers, wadd_eq (h.noWrap v hv)] at hcov
    obtain ⟨w, hw⟩ := vmaFind_of_contains h.ordered h.noWrap ⟨v, hv, hcov⟩
    rw [hnone] at hw
    cases hw
  · intro hnot
    rw [Option.eq_none_iff_forall_ne_some]
    exact fun w hw => hnot (AddressSpace.Plain.covered_of_find hw)

/-- The address of an entry. -/
theorem covered_of_entry (h : sp.Regular) (hsp : s.spaces as = some sp)
    (hpe : s.entry as vaddr = some pe) : Covered sp.vma vaddr ∧ isAligned vaddr = true := by
  rw [entry_of_space hsp] at hpe
  have hmem := (h.hung.mem_iff vaddr).2 ⟨pe, hpe⟩
  obtain ⟨v, hv, hpage⟩ := List.mem_flatMap.1 hmem
  exact ⟨⟨v, hv, h.covers v hv vaddr hpage⟩, h.aligned v hv vaddr hpage⟩

end AddressSpace.Regular

/-! ## What is returned -/

theorem addressSpaceAssignPage_of_not_aligned (hal : isAligned vaddr = false) :
    addressSpaceAssignPage places s as p vaddr flags = .ok (-1, s) := by
  simp [addressSpaceAssignPage, hal]

theorem addressSpaceAssignAddr_of_not_aligned (hal : isAligned vaddr = false) :
    addressSpaceAssignAddr places s as addr vaddr flags = .ok (-1, s) := by
  simp [addressSpaceAssignAddr, hal]

/-- Without a VMA, zero is returned and nothing happens. -/
theorem addressSpaceAssignPage_of_find_none (hal : isAligned vaddr = true)
    (hsp : s.spaces as = some sp) (hnone : vmaFindByVaddr vaddr sp.vma = none) :
    addressSpaceAssignPage places s as p vaddr flags = .ok (0, s) := by
  have hsp' : (disableInterrupts s).spaces as = some sp := hsp
  simp [addressSpaceAssignPage, hal, getSpace_eq hsp', enableInterrupts_disable, hnone,
    VmaPlaces.ptr, ptrIsErr, pure_eq_ok]

theorem addressSpaceAssignAddr_of_find_none (hal : isAligned vaddr = true)
    (hsp : s.spaces as = some sp) (hnone : vmaFindByVaddr vaddr sp.vma = none) :
    addressSpaceAssignAddr places s as addr vaddr flags = .ok (0, s) := by
  have hsp' : (disableInterrupts s).spaces as = some sp := hsp
  simp [addressSpaceAssignAddr, hal, getSpace_eq hsp', enableInterrupts_disable, hnone,
    VmaPlaces.ptr, ptrIsErr, pure_eq_ok]

theorem addressSpaceAssignPage_of_find {vma : VmArea} (hal : isAligned vaddr = true)
    (hsp : s.spaces as = some sp) (hvma : vmaFindByVaddr vaddr sp.vma = some vma) :
    addressSpaceAssignPage places s as p vaddr flags =
      (assignPageNoAddrCheck s as p vaddr vma.id flags >>= fun s' => .ok (0, s')) := by
  have hsp' : (disableInterrupts s).spaces as = some sp := hsp
  simp [addressSpaceAssignPage, hal, getSpace_eq hsp', enableInterrupts_disable, hvma, pure_eq_ok]

theorem addressSpaceAssignAddr_of_find {vma : VmArea} (hal : isAligned vaddr = true)
    (hsp : s.spaces as = some sp) (hvma : vmaFindByVaddr vaddr sp.vma = some vma) :
    addressSpaceAssignAddr places s as addr vaddr flags =
      (managePhysPage s addr >>= fun s₁ => assignPageNoAddrCheck s₁ as addr vaddr vma.id flags >>=
        fun s₂ => pageUnref s₂ addr false >>= fun s' => .ok (0, s')) := by
  have hsp' : (disableInterrupts s).spaces as = some sp := hsp
  simp [addressSpaceAssignAddr, hal, getSpace_eq hsp', enableInterrupts_disable, hvma, pure_eq_ok]

/-- It is the function that the other modules use. -/
theorem addressSpaceAssignPage_eq (places : VmaPlaces) (s : State) (as p vaddr flags : ℕ) :
    addressSpaceAssignPage places s as p vaddr flags = assignPage s as p vaddr flags := by
  rw [addressSpaceAssignPage, assignPage]
  split
  · rfl
  · refine congrArg _ (funext fun sp => congrArg _ (funext fun s₁ => ?_))
    dsimp only
    cases vmaFindByVaddr vaddr sp.vma with
    | none => rfl
    | some vma => simp

/-- With a reference to the page of its own, the caller sees no fault. -/
theorem addressSpaceAssignPage_safely {stale canon : Prop} {held : List (ℕ × Kind)}
    (h : Sound stale canon held s) (hsp : s.spaces as = some sp) (hflags : ValidFlags flags)
    (href : Consistent.Referred held s p as vaddr)
    (hshared : hasFlag flags PF_SNAPSHOT = false → (p, Kind.shared) ∈ held) :
    Safely Halts (fun r => Sound stale canon held r.2)
      (addressSpaceAssignPage places s as p vaddr flags) := by
  rw [addressSpaceAssignPage_eq]
  exact (h.assignPage ⟨sp, hsp⟩ hflags href hshared).mono fun _ hr => hr.1

/-- A new entry is what zero says. -/
theorem Truthful.of_entry {s' : State} (h : s'.entry as vaddr = some pe) :
    Truthful s as vaddr pe (0, s') :=
  ⟨iff_of_true rfl h, fun hne => absurd rfl hne⟩

/-- An address that has no entry, and is not given one. -/
theorem truthful_iff_of_entry_eq_none {r : ℤ} (hnone : s.entry as vaddr = none) :
    Truthful s as vaddr pe (r, s) ↔ r < 0 := by
  constructor
  · intro h
    have hne : r ≠ 0 := fun hr => by
      have hsome := h.zero_iff.1 hr
      rw [hnone] at hsome
      cases hsome
    exact (h.failed hne).1
  · intro hr
    refine ⟨iff_of_false hr.ne fun hsome => ?_, fun _ => ⟨hr, rfl⟩⟩
    rw [hnone] at hsome
    cases hsome

theorem returns_assignPageNoAddrCheck (s : State) (as p vaddr vma flags : ℕ) :
    Returns (fun s' => s'.entry as vaddr = some ⟨p, flags⟩)
      (assignPageNoAddrCheck s as p vaddr vma flags) := by
  refine (effect_assignPageNoAddrCheck s as p vaddr vma flags).mono ?_
  rintro s' ⟨s₁, -, hnew⟩
  rw [hnew.entry, updEnt_self]

end assign

/-- What is returned is right for addresses that are not aligned, and for those in a VMA. -/
theorem assign_truthful_iff {s : State} {as : ℕ} {sp : AddressSpace} (hsp : s.spaces as = some sp)
    (h : sp.Regular) (places : VmaPlaces) (p addr vaddr flags : ℕ) :
    (Returns (Truthful s as vaddr ⟨p, flags⟩) (addressSpaceAssignPage places s as p vaddr flags) ↔
        isAligned vaddr = false ∨ Covered sp.vma vaddr) ∧
      (Returns (Truthful s as vaddr ⟨addr, flags⟩)
          (addressSpaceAssignAddr places s as addr vaddr flags) ↔
        isAligned vaddr = false ∨ Covered sp.vma vaddr) := by
  cases hal : isAligned vaddr with
  | false =>
    have hnone : s.entry as vaddr = none := by
      rw [Option.eq_none_iff_forall_ne_some]
      intro pe hpe
      rw [(h.covered_of_entry hsp hpe).2] at hal
      cases hal
    simp [addressSpaceAssignPage_of_not_aligned hal, addressSpaceAssignAddr_of_not_aligned hal,
      truthful_iff_of_entry_eq_none hnone]
  | true =>
    cases hfind : vmaFindByVaddr vaddr sp.vma with
    | none =>
      have hnot := h.find_eq_none_iff.1 hfind
      have hnone : s.entry as vaddr = none := by
        rw [Option.eq_none_iff_forall_ne_some]
        exact fun pe hpe => hnot (h.covered_of_entry hsp hpe).1
      simp [addressSpaceAssignPage_of_find_none hal hsp hfind,
        addressSpaceAssignAddr_of_find_none hal hsp hfind, truthful_iff_of_entry_eq_none hnone, hnot]
    | some vma =>
      have hcov : Covered sp.vma vaddr := AddressSpace.Plain.covered_of_find hfind
      constructor
      · refine iff_of_true ?_ (.inr hcov)
        rw [addressSpaceAssignPage_of_find hal hsp hfind]
        simp only [safely_bind]
        exact (returns_assignPageNoAddrCheck s as p vaddr vma.id flags).mono fun s' hs' =>
          Truthful.of_entry hs'
      · refine iff_of_true ?_ (.inr hcov)
        rw [addressSpaceAssignAddr_of_find hal hsp hfind]
        simp only [safely_bind]
        refine (quiet_managePhysPage s addr).mono fun s₁ _ => ?_
        refine (returns_assignPageNoAddrCheck s₁ as addr vaddr vma.id flags).mono fun s₂ h₂ => ?_
        refine (quiet_pageUnref s₂ addr false).mono fun s₃ h₃ => ?_
        exact Truthful.of_entry (by rw [h₃.entry, h₂])

/-- A VMA at the begin of physical memory. -/
def lowPlace (id : ℕ) : ℕ := KERN_VMBASE + 80 * (id % 0x10000)

theorem le_lowPlace (id : ℕ) : KERN_VMBASE ≤ lowPlace id := Nat.le_add_right _ _

theorem lowPlace_le (id : ℕ) : lowPlace id + 0xfff ≤ 2 ^ 64 := by
  rw [lowPlace, KERN_VMBASE]
  omega

/-- VMAs at the begin of physical memory. -/
def lowPlaces : VmaPlaces where
  addr := lowPlace
  kern := le_lowPlace
  below := lowPlace_le

theorem gapped_regular : gapped.Regular where
  ordered := gapped_listed.ordered
  hung := ⟨by decide, fun v => by simp [gapped, pagesOf], gapped_listed.ids, gapped_listed.id_lt⟩
  covers := by simp [gapped]
  noWrap := by decide
  aligned := by simp [gapped]

theorem assign_truthful_iff_gapped :
    (Returns (Truthful ((World.boot [] 0).mm.setSpace 0 gapped) 0 0x400000 ⟨0x5000, PF_SHARED⟩)
        (addressSpaceAssignPage lowPlaces ((World.boot [] 0).mm.setSpace 0 gapped) 0 0x5000 0x400000
          PF_SHARED) ↔
        isAligned 0x400000 = false ∨ Covered gapped.vma 0x400000) ∧
      (Returns (Truthful ((World.boot [] 0).mm.setSpace 0 gapped) 0 0x400000 ⟨0x6000, PF_SHARED⟩)
          (addressSpaceAssignAddr lowPlaces ((World.boot [] 0).mm.setSpace 0 gapped) 0 0x6000 0x400000
            PF_SHARED) ↔
        isAligned 0x400000 = false ∨ Covered gapped.vma 0x400000) :=
  assign_truthful_iff (setSpace_spaces (World.boot [] 0).mm 0 gapped) gapped_regular lowPlaces 0x5000
    0x6000 0x400000 PF_SHARED

/-- In the gap between two VMAs, zero is returned for a page that is not entered. -/
theorem not_truthful_gapped :
    ¬Returns (Truthful ((World.boot [] 0).mm.setSpace 0 gapped) 0 0x401000 ⟨0x5000, PF_SHARED⟩)
      (addressSpaceAssignPage lowPlaces ((World.boot [] 0).mm.setSpace 0 gapped) 0 0x5000 0x401000
        PF_SHARED) := by
  have hsp := setSpace_spaces (World.boot [] 0).mm 0 gapped
  have hnone : ((World.boot [] 0).mm.setSpace 0 gapped).entry 0 0x401000 = none := by
    rw [entry_of_space hsp]
    rfl
  rw [addressSpaceAssignPage_of_find_none (by decide) hsp (by decide)]
  simp [truthful_iff_of_entry_eq_none hnone]

end SadOS.Mm
