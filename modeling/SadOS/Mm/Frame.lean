import SadOS.Mm.Syscall

/-!
# What page operations leave alone

Most operations on pages write page records, page tables and the free list and
nothing else.  The others write page entries and page contents too, but never the
bounds of a VMA, the current address space or the balance of the interrupt counter.
These facts need no invariant: they hold of every state from which the operation
returns.

## Main definitions

* `Quiet s s'` — only page records, page tables and the free list differ.
* `Retag s s'` — page contents differ too, and where page entries point to.
* `AddressSpace.shape` — an address space without its page entries.
* `Frame s s'` — only pages and page entries differ.
* `retag_unsharePage`, `effect_unassignPage`, `effect_assignPageNoAddrCheck` — the
  operations.
-/

namespace SadOS.Mm

/-- The fields of a VMA that no page operation writes. -/
def VmArea.shape (v : VmArea) : ℕ × ℕ × ℕ × ℕ × ℕ × Link :=
  (v.id, v.vmaFlags, v.pageSize, v.vmaBegin, v.vmaLength, v.prev)

/-- An address space without its page entries. -/
def AddressSpace.shape (sp : AddressSpace) : List (ℕ × ℕ × ℕ × ℕ × ℕ × Link) × ℕ × ℕ × ℕ :=
  (sp.vma.map VmArea.shape, sp.lowAddr, sp.highAddr, sp.vmaPool)

/-- An address space without what its page entries hold. -/
def AddressSpace.bones (sp : AddressSpace) : List VmArea × ℕ × ℕ × ℕ :=
  (sp.vma, sp.lowAddr, sp.highAddr, sp.vmaPool)

/-- The state outside pages and address spaces is the same. -/
structure SameRest (s s' : State) : Prop where
  current : s'.current = s.current
  zeroPage : s'.zeroPage = s.zeroPage
  interruptDisabled : s'.interruptDisabled = s.interruptDisabled
  aspacePool : s'.aspacePool = s.aspacePool
  vmaJunk : s'.vmaJunk = s.vmaJunk
  freeRange : s'.freeRange = s.freeRange
  plists : s'.plists = s.plists
  plistPool : s'.plistPool = s.plistPool

/-- `s'` differs from `s` only in page records, page tables and the free list. -/
structure Quiet (s s' : State) : Prop extends SameRest s s' where
  spaces : s'.spaces = s.spaces
  mem : s'.mem = s.mem

/-- `s'` differs from `s` only in pages, page tables and what page entries hold. -/
structure Retag (s s' : State) : Prop extends SameRest s s' where
  bones : ∀ a, (s'.spaces a).map AddressSpace.bones = (s.spaces a).map AddressSpace.bones

/-- `s'` differs from `s` only in pages, page entries and page tables. -/
structure Frame (s s' : State) : Prop extends SameRest s s' where
  shape : ∀ a, (s'.spaces a).map AddressSpace.shape = (s.spaces a).map AddressSpace.shape

/-- Nothing is asked of the faults. -/
abbrev Returns {α : Type} (Q : α → Prop) (x : Except Fault α) : Prop := Safely (fun _ => True) Q x

variable {s s' s'' : State}

@[refl] theorem SameRest.refl (s : State) : SameRest s s := ⟨rfl, rfl, rfl, rfl, rfl, rfl, rfl, rfl⟩

@[trans] theorem SameRest.trans (h : SameRest s s') (h' : SameRest s' s'') : SameRest s s'' :=
  ⟨h'.1.trans h.1, h'.2.trans h.2, h'.3.trans h.3, h'.4.trans h.4, h'.5.trans h.5, h'.6.trans h.6,
    h'.7.trans h.7, h'.8.trans h.8⟩

/-- The end of a section between `disable_interrupts` and `enable_interrupts`. -/
theorem enableInterrupts_eq (h : s'.interruptDisabled = s.interruptDisabled + 1) :
    enableInterrupts s' = .ok { s' with interruptDisabled := s.interruptDisabled } := by
  simp [enableInterrupts, h]

/-! ## Quiet operations -/

namespace Quiet

@[refl] theorem refl (s : State) : Quiet s s := ⟨SameRest.refl s, rfl, rfl⟩

@[trans] theorem trans (h : Quiet s s') (h' : Quiet s' s'') : Quiet s s'' :=
  ⟨h.toSameRest.trans h'.toSameRest, h'.spaces.trans h.spaces, h'.mem.trans h.mem⟩

theorem setPage (s : State) (p : ℕ) (pg : Option Page) : Quiet s (s.setPage p pg) :=
  ⟨⟨rfl, rfl, rfl, rfl, rfl, rfl, rfl, rfl⟩, rfl, rfl⟩

theorem setPte (s : State) (as vaddr : ℕ) (e : Option Pte) : Quiet s (s.setPte as vaddr e) :=
  ⟨⟨rfl, rfl, rfl, rfl, rfl, rfl, rfl, rfl⟩, rfl, rfl⟩

theorem setFree (s : State) (l : List ℕ) : Quiet s (s.setFree l) :=
  ⟨⟨rfl, rfl, rfl, rfl, rfl, rfl, rfl, rfl⟩, rfl, rfl⟩

theorem returns_enable (h : Quiet (disableInterrupts s) s') :
    Returns (Quiet s) (enableInterrupts s') := by
  rw [enableInterrupts_eq (s := s) h.interruptDisabled]
  exact ⟨⟨h.current, h.zeroPage, rfl, h.aspacePool, h.vmaJunk, h.freeRange, h.plists, h.plistPool⟩,
    h.spaces, h.mem⟩

theorem entry (h : Quiet s s') : s'.entry = s.entry := by
  funext a v
  simp [State.entry, h.spaces]

end Quiet

/-- A loop of quiet steps. -/
theorem quiet_foldlM {β : Type} {f : State → β → Except Fault State}
    (hf : ∀ s b, Returns (Quiet s) (f s b)) (l : List β) (s : State) :
    Returns (Quiet s) (l.foldlM f s) := by
  apply safely_foldlM (fun _ s' => Quiet s s') (Quiet.refl s)
  intro b _ s' h
  exact (hf s' b).mono fun _ h' => h.trans h'

/-- What a read through a pointer returns is in the state. -/
theorem returns_getPageRec (s : State) (p : ℕ) :
    Returns (fun pg => s.physPages p = some pg) (s.getPageRec p) := by
  unfold State.getPageRec
  split
  · assumption
  · simp

theorem returns_getEntry (s : State) (as vaddr : ℕ) :
    Returns (fun pe => s.entry as vaddr = some pe) (s.getEntry as vaddr) := by
  unfold State.getEntry
  split
  · assumption
  · simp

theorem returns_getSpace (s : State) (as : ℕ) :
    Returns (fun sp => s.spaces as = some sp) (s.getSpace as) := by
  unfold State.getSpace
  split
  · assumption
  · simp

theorem quiet_getPage (s : State) : Returns (fun r => Quiet s r.2) (getPage s) := by
  rw [getPage]
  split
  · simp
  · rename_i page rest hf
    simp only [safely_bind, safely_pure]
    exact (Quiet.setFree (disableInterrupts s) rest).returns_enable

theorem quiet_dropPage (s : State) (page : ℕ) : Returns (Quiet s) (dropPage s page) := by
  rw [dropPage]
  split
  · exact (Quiet.setFree (disableInterrupts s) _).returns_enable
  · simp

theorem quiet_setWritable (w : Bool) (s : State) (o : ℕ × ℕ) :
    Returns (Quiet s) (setWritable w s o) := by
  rw [setWritable, ptableGetEntry4k]
  split
  · simp
  · simp only [safely_bind, safely_ok]
    split
    · exact Quiet.setPte s _ _ _
    · exact Quiet.refl s

theorem quiet_unmapMaybeCurrent (s : State) (as vaddr : ℕ) :
    Returns (Quiet s) (unmapMaybeCurrent s as vaddr) := by
  rw [unmapMaybeCurrent, ptableGetEntry4k]
  split
  · exact Quiet.setPte s _ _ _
  · split
    · simp
    · exact Quiet.setPte s _ _ _

theorem quiet_mapPage (s : State) (addr vaddr pgsize : ℕ) (w : Bool) :
    Returns (Quiet s) (mapPage s addr vaddr pgsize w) := by
  rw [mapPage]
  split
  · split
    · simp
    · exact Quiet.setPte s _ _ _
  · simp

theorem quiet_managePhysPageLocked (s : State) (addr : ℕ) :
    Returns (Quiet s) (managePhysPageLocked s addr) := by
  rw [managePhysPageLocked]
  split
  · split <;> exact Quiet.setPage s _ _
  · simp

theorem quiet_managePhysPage (s : State) (addr : ℕ) :
    Returns (Quiet s) (managePhysPage s addr) := by
  simp only [managePhysPage, safely_bind]
  exact (quiet_managePhysPageLocked _ addr).mono fun _ h => h.returns_enable

theorem quiet_pageUnref (s : State) (p : ℕ) (hw : Bool) :
    Returns (Quiet s) (pageUnref s p hw) := by
  simp only [pageUnref, safely_bind]
  refine (returns_getPageRec s p).mono fun pg _ => ?_
  split
  · split
    · exact Quiet.setPage s p none
    · exact (quiet_dropPage _ p).mono fun _ h => (Quiet.setPage s p none).trans h
  · exact Quiet.setPage s p _

theorem quiet_restoreWrite (s : State) (o : ℕ × ℕ) : Returns (Quiet s) (restoreWrite s o) := by
  simp only [restoreWrite, safely_bind]
  refine (returns_getEntry s _ _).mono fun pe _ => ?_
  split
  · exact quiet_setWritable true s o
  · simp

theorem quiet_dropSnapshot (s : State) (p : ℕ) : Returns (Quiet s) (dropSnapshot s p) := by
  simp only [dropSnapshot, safely_bind]
  refine (returns_getPageRec s p).mono fun pg _ => ?_
  split
  · exact (quiet_foldlM quiet_restoreWrite _ _).mono fun _ h => (Quiet.setPage s p _).trans h
  · exact Quiet.setPage s p _

theorem quiet_pageEntryUnref (s : State) (pe : PageEntry) :
    Returns (Quiet s) (pageEntryUnref s pe) := by
  have hdrop : Returns (Quiet (disableInterrupts s))
      (if hasFlag pe.flags PF_SNAPSHOT then dropSnapshot (disableInterrupts s) pe.p
        else pure (disableInterrupts s)) := by
    split
    · exact quiet_dropSnapshot _ _
    · exact Quiet.refl _
  simp only [pageEntryUnref, safely_bind]
  refine hdrop.mono fun s₁ h₁ => ?_
  exact (quiet_pageUnref s₁ _ _).mono fun s₂ h₂ => (h₁.trans h₂).returns_enable

theorem quiet_addOwner (s : State) (p : ℕ) (o : ℕ × ℕ) : Returns (Quiet s) (addOwner s p o) := by
  simp only [addOwner, safely_bind]
  exact (returns_getPageRec s p).mono fun pg _ => Quiet.setPage s p _

theorem quiet_delOwner (s : State) (p : ℕ) (o : ℕ × ℕ) : Returns (Quiet s) (delOwner s p o) := by
  simp only [delOwner, safely_bind]
  refine (returns_getPageRec s p).mono fun pg _ => ?_
  split
  · exact Quiet.setPage s p _
  · simp

theorem quiet_shareOwner (s : State) (o : ℕ × ℕ) : Returns (Quiet s) (shareOwner s o) := by
  simp only [shareOwner, safely_bind]
  refine (returns_getEntry s _ _).mono fun pe _ => ?_
  split
  · simp
  · exact quiet_setWritable false s o

theorem quiet_sharePage (s : State) (p : ℕ) : Returns (Quiet s) (sharePage s p) := by
  simp only [sharePage, safely_bind]
  refine (returns_getPageRec _ p).mono fun pg _ => ?_
  exact (quiet_foldlM quiet_shareOwner _ _).mono fun _ h => h.returns_enable

theorem quiet_addSnapshot (s : State) (p : ℕ) : Returns (Quiet s) (addSnapshot s p) := by
  simp only [addSnapshot, safely_bind]
  refine (returns_getPageRec s p).mono fun pg _ => ?_
  split
  · simp
  · split
    · exact (quiet_sharePage _ p).mono fun _ h => (Quiet.setPage s p _).trans h
    · exact Quiet.setPage s p _

/-! ## Entries after an update -/

section Entries

theorem getEntry_eq {s : State} {as v : ℕ} {pe : PageEntry} (h : s.entry as v = some pe) :
    s.getEntry as v = .ok pe := by
  rw [State.getEntry, h]

theorem getSpace_eq {s : State} {as : ℕ} {sp : AddressSpace} (h : s.spaces as = some sp) :
    s.getSpace as = .ok sp := by
  rw [State.getSpace, h]

theorem getPageRec_eq {s : State} {p : ℕ} {pg : Page} (h : s.physPages p = some pg) :
    s.getPageRec p = .ok pg := by
  rw [State.getPageRec, h]

variable {s : State} {as : ℕ} {sp : AddressSpace}

theorem entry_of_space (h : s.spaces as = some sp) (v : ℕ) :
    s.entry as v = sp.vaddrMap.lookup v := by
  simp [State.entry, h]

theorem space_of_entry {v : ℕ} {pe : PageEntry} (h : s.entry as v = some pe) :
    ∃ sp, s.spaces as = some sp := by
  rw [State.entry, Option.bind_eq_some_iff] at h
  obtain ⟨sp, hsp, -⟩ := h
  exact ⟨sp, hsp⟩

theorem entry_setSpace (s : State) (as : ℕ) (sp : AddressSpace) :
    (s.setSpace as sp).entry = Function.update s.entry as (sp.vaddrMap.lookup ·) := by
  funext a v
  by_cases ha : a = as
  · subst ha
    simp [State.entry, State.setSpace]
  · simp [State.entry, State.setSpace, ha]

theorem entry_setSpace_insert (h : s.spaces as = some sp) (vma : List VmArea) (v : ℕ)
    (pe : PageEntry) :
    (s.setSpace as { sp with vma, vaddrMap := sp.vaddrMap.insert v pe }).entry =
      updEnt s.entry as v (some pe) := by
  rw [entry_setSpace, updEnt]
  congr 1
  funext w
  by_cases hw : w = v
  · subst hw
    simp
  · simp [hw, entry_of_space h, AList.lookup_insert_ne]

theorem entry_setSpace_erase (h : s.spaces as = some sp) (vma : List VmArea) (v : ℕ) :
    (s.setSpace as { sp with vma, vaddrMap := sp.vaddrMap.erase v }).entry =
      updEnt s.entry as v none := by
  rw [entry_setSpace, updEnt]
  congr 1
  funext w
  by_cases hw : w = v
  · subst hw
    simp
  · simp [hw, entry_of_space h, AList.lookup_erase_ne]

/-- Only the VMAs change. -/
theorem entry_setSpace_vma (h : s.spaces as = some sp) {sp' : AddressSpace}
    (hmap : sp'.vaddrMap = sp.vaddrMap) : (s.setSpace as sp').entry = s.entry := by
  have hsame : (sp'.vaddrMap.lookup ·) = s.entry as := by
    funext v
    rw [hmap, entry_of_space h]
  rw [entry_setSpace, hsame, Function.update_eq_self]

@[simp] theorem physPages_setEntry (s : State) (as v : ℕ) (pe : PageEntry) :
    (s.setEntry as v pe).physPages = s.physPages := by
  unfold State.setEntry
  split <;> rfl

@[simp] theorem freePages_setEntry (s : State) (as v : ℕ) (pe : PageEntry) :
    (s.setEntry as v pe).freePages = s.freePages := by
  unfold State.setEntry
  split <;> rfl

@[simp] theorem pte_setEntry (s : State) (as v : ℕ) (pe : PageEntry) :
    (s.setEntry as v pe).pte = s.pte := by
  unfold State.setEntry
  split <;> rfl

@[simp] theorem mem_setEntry (s : State) (as v : ℕ) (pe : PageEntry) :
    (s.setEntry as v pe).mem = s.mem := by
  unfold State.setEntry
  split <;> rfl

theorem entry_setEntry (h : s.spaces as = some sp) (v : ℕ) (pe : PageEntry) :
    (s.setEntry as v pe).entry = updEnt s.entry as v (some pe) := by
  rw [State.setEntry, h]
  exact entry_setSpace_insert h sp.vma v pe

end Entries

/-! ## Operations on what page entries hold -/

namespace Retag

@[refl] theorem refl (s : State) : Retag s s := ⟨SameRest.refl s, fun _ => rfl⟩

@[trans] theorem trans (h : Retag s s') (h' : Retag s' s'') : Retag s s'' :=
  ⟨h.toSameRest.trans h'.toSameRest, fun a => (h'.bones a).trans (h.bones a)⟩

theorem setMem (s : State) (p : ℕ) (bytes : ℕ → UInt8) : Retag s (s.setMem p bytes) :=
  ⟨⟨rfl, rfl, rfl, rfl, rfl, rfl, rfl, rfl⟩, fun _ => rfl⟩

theorem setEntry (s : State) (as vaddr : ℕ) (pe : PageEntry) : Retag s (s.setEntry as vaddr pe) := by
  unfold State.setEntry
  split
  · rename_i sp h
    refine ⟨⟨rfl, rfl, rfl, rfl, rfl, rfl, rfl, rfl⟩, ?_⟩
    intro a
    by_cases ha : a = as
    · subst ha
      simp [State.setSpace, h, AddressSpace.bones]
    · simp [State.setSpace, ha]
  · exact refl s

theorem returns_enable (h : Retag (disableInterrupts s) s') :
    Returns (Retag s) (enableInterrupts s') := by
  rw [enableInterrupts_eq (s := s) h.interruptDisabled]
  exact ⟨⟨h.current, h.zeroPage, rfl, h.aspacePool, h.vmaJunk, h.freeRange, h.plists, h.plistPool⟩,
    h.bones⟩

/-- The VMAs of an address space stay. -/
theorem space (h : Retag s s') {a : ℕ} {sp : AddressSpace} (hs : s.spaces a = some sp) :
    ∃ sp', s'.spaces a = some sp' ∧ sp'.bones = sp.bones := by
  have := h.bones a
  rw [hs] at this
  simpa using this

end Retag

theorem Quiet.retag (h : Quiet s s') : Retag s s' := ⟨h.toSameRest, fun a => by rw [h.spaces]⟩

/-- A loop of such steps. -/
theorem retag_foldlM {β : Type} {f : State → β → Except Fault State}
    (hf : ∀ s b, Returns (Retag s) (f s b)) (l : List β) (s : State) :
    Returns (Retag s) (l.foldlM f s) := by
  apply safely_foldlM (fun _ s' => Retag s s') (Retag.refl s)
  intro b _ s' h
  exact (hf s' b).mono fun _ h' => h.trans h'

theorem retag_moveShared (oldp p : ℕ) (s : State) (o : ℕ × ℕ) :
    Returns (Retag s) (moveShared oldp p s o) := by
  simp only [moveShared, safely_bind]
  refine (returns_getEntry s _ _).mono fun oi _ => ?_
  split
  · simp only [safely_bind, safely_pure]
    refine (quiet_delOwner s oldp o).mono fun s₁ h₁ => ?_
    refine (returns_getPageRec s₁ oldp).mono fun opg _ => ?_
    refine (quiet_addOwner _ p o).mono fun s₂ h₂ => ?_
    refine (returns_getPageRec _ p).mono fun pg _ => ?_
    rw [ptableGetEntry4k]
    split
    · simp
    · have hold : Quiet s s₂ := (h₁.trans (Quiet.setPage s₁ oldp _)).trans h₂
      have hnew := (Quiet.setPage (s₂.setEntry o.1 o.2 { oi with p := p }) p
        (some { pg with refCount := pg.refCount + 1 })).trans (Quiet.setPte _ o.1 o.2 none)
      exact (hold.retag.trans (Retag.setEntry s₂ _ _ _)).trans hnew.retag
  · exact Retag.refl s

/-- An entry that points to `page` if it is a shared one. -/
def PageEntry.retarget (page : ℕ) (pe : PageEntry) : PageEntry :=
  if hasFlag pe.flags PF_SHARED then { pe with p := page } else pe

/-- The shared entries of a list point to `page`. -/
def retarget (page : ℕ) (l : List (ℕ × ℕ)) (ent : ℕ → ℕ → Option PageEntry) :
    ℕ → ℕ → Option PageEntry :=
  fun a v => if l.contains (a, v) then (ent a v).map (PageEntry.retarget page) else ent a v

theorem retarget_mem {l : List (ℕ × ℕ)} {a v : ℕ} (h : (a, v) ∈ l) (page : ℕ)
    (ent : ℕ → ℕ → Option PageEntry) :
    retarget page l ent a v = (ent a v).map (PageEntry.retarget page) :=
  if_pos (List.contains_iff_mem.2 h)

theorem retarget_not_mem {l : List (ℕ × ℕ)} {a v : ℕ} (h : (a, v) ∉ l) (page : ℕ)
    (ent : ℕ → ℕ → Option PageEntry) : retarget page l ent a v = ent a v :=
  if_neg fun hc => h (List.contains_iff_mem.1 hc)

theorem PageEntry.retarget_retarget (page : ℕ) (pe : PageEntry) :
    (pe.retarget page).retarget page = pe.retarget page := by
  simp only [PageEntry.retarget]
  split <;> simp [*]

theorem retarget_cons (page : ℕ) (o : ℕ × ℕ) (l : List (ℕ × ℕ)) (ent : ℕ → ℕ → Option PageEntry) :
    retarget page l (retarget page [o] ent) = retarget page (o :: l) ent := by
  funext a v
  by_cases ho : (a, v) = o
  · subst ho
    by_cases hl : (a, v) ∈ l
    · simp [retarget, hl, Function.comp_def, PageEntry.retarget_retarget]
    · simp [retarget, hl]
  · simp [retarget, ho]

theorem effect_moveShared (oldp p : ℕ) (s : State) (o : ℕ × ℕ) :
    Returns (fun s' => s'.entry = retarget p [o] s.entry ∧ s'.mem = s.mem)
      (moveShared oldp p s o) := by
  have hother : ∀ a v, (a, v) ≠ o → retarget p [o] s.entry a v = s.entry a v := by
    intro a v hne
    simp [retarget, hne]
  simp only [moveShared, safely_bind]
  refine (returns_getEntry s _ _).mono fun oi hoi => ?_
  split
  · rename_i hshared
    simp only [safely_bind, safely_pure]
    refine (quiet_delOwner s oldp o).mono fun s₁ h₁ => ?_
    refine (returns_getPageRec s₁ oldp).mono fun opg _ => ?_
    refine (quiet_addOwner _ p o).mono fun s₂ h₂ => ?_
    refine (returns_getPageRec _ p).mono fun pg _ => ?_
    rw [ptableGetEntry4k]
    split
    · simp
    · have hold : Quiet s s₂ := (h₁.trans (Quiet.setPage s₁ oldp _)).trans h₂
      obtain ⟨sp, hsp⟩ := space_of_entry hoi
      rw [← hold.spaces] at hsp
      refine ⟨?_, hold.mem ▸ ?_⟩
      · refine (entry_setEntry hsp o.2 { oi with p := p }).trans ?_
        rw [hold.entry]
        funext a v
        by_cases ho : (a, v) = o
        · rw [← ho] at hoi ⊢
          simp [retarget, hoi, PageEntry.retarget, hshared]
        · rw [hother a v ho, updEnt_apply, if_neg ho]
      · exact mem_setEntry s₂ _ _ _
  · rename_i hshared
    refine ⟨?_, rfl⟩
    funext a v
    by_cases ho : (a, v) = o
    · rw [← ho] at hoi ⊢
      simp [retarget, hoi, PageEntry.retarget, hshared]
    · rw [hother a v ho]

theorem effect_moveShared_all (oldp p : ℕ) (l : List (ℕ × ℕ)) (s : State) :
    Returns (fun s' => s'.entry = retarget p l s.entry ∧ s'.mem = s.mem)
      (l.foldlM (moveShared oldp p) s) := by
  induction l generalizing s with
  | nil =>
    refine ⟨?_, rfl⟩
    funext a v
    simp [retarget]
  | cons o l ih =>
    simp only [List.foldlM_cons, safely_bind]
    refine (effect_moveShared oldp p s o).mono fun s₁ h₁ => (ih s₁).mono fun s₂ h₂ => ?_
    rw [h₂.1, h₂.2, h₁.1, h₁.2, retarget_cons]
    exact ⟨rfl, rfl⟩

theorem retag_unshareRefs (s : State) (as vaddr : ℕ) (pe : PageEntry) (page : ℕ) :
    Returns (Retag s) (unshareRefs s as vaddr pe page) := by
  rw [unshareRefs]
  split
  · simp only [safely_bind]
    exact (returns_getPageRec s _).mono fun _ _ => retag_foldlM (retag_moveShared pe.p page) _ s
  · exact (quiet_dropSnapshot _ _).mono fun _ h => (Retag.setEntry s as vaddr _).trans h.retag

/-- The copy ends a section that its caller begins. -/
theorem retag_unshareCopy (s : State) (as vaddr : ℕ) (pe : PageEntry) :
    Returns (Retag s) (unshareCopy (disableInterrupts s) as vaddr pe) := by
  simp only [unshareCopy, safely_bind]
  refine (quiet_getPage _).mono ?_
  rintro ⟨page, s₁⟩ h₁
  simp only
  refine (returns_getPageRec s₁ _).mono fun pg _ => ?_
  split
  · simp
  · simp only [safely_bind]
    refine (quiet_managePhysPage _ page).mono fun s₂ h₂ => ?_
    refine (quiet_delOwner s₂ _ _).mono fun s₃ h₃ => ?_
    refine (retag_unshareRefs s₃ as vaddr pe page).mono fun s₄ h₄ => ?_
    refine (returns_getEntry s₄ as vaddr).mono fun pe' _ => ?_
    refine (quiet_addOwner _ page _).mono fun s₅ h₅ => ?_
    refine (quiet_pageUnref _ pe.p false).mono fun s₆ h₆ => ?_
    have hcopy : Retag (disableInterrupts s) s₄ :=
      ((h₁.retag.trans (Retag.setMem s₁ page _)).trans (h₂.trans h₃).retag).trans h₄
    have hlast : Quiet _ s₆ := (h₅.trans (Quiet.setPte s₅ _ _ none)).trans h₆
    exact ((hcopy.trans (Retag.setEntry s₄ as vaddr _)).trans hlast.retag).returns_enable

/-- The exit for a page without snapshots does not enable interrupts again, but
both callers look at `snap_count` first. -/
theorem retag_unsharePage {as vaddr : ℕ} {pe : PageEntry} {pg : Page}
    (hpe : s.entry as vaddr = some pe) (hpg : s.physPages pe.p = some pg) (h0 : pg.snapCount ≠ 0) :
    Returns (Retag s) (unsharePage s as vaddr) := by
  have hpg' : (disableInterrupts s).getPageRec pe.p = .ok pg := by
    simp [State.getPageRec, disableInterrupts, hpg]
  rw [unsharePage, State.getEntry, hpe, ok_bind]
  split
  · simp
  · dsimp only
    split
    · simp
    · rw [hpg', ok_bind, if_neg h0]
      split
      · exact ((Quiet.setPage _ _ _).trans (Quiet.setPte _ _ _ _)).retag.returns_enable
      · exact retag_unshareCopy s as vaddr pe

theorem retag_addressSpaceMap (s : State) (vaddr : ℕ) :
    Returns (fun r => Retag s r.2) (addressSpaceMap s vaddr) := by
  unfold addressSpaceMap
  split
  · exact Retag.refl s
  simp only [safely_bind]
  refine (returns_getSpace s _).mono fun sp _ => ?_
  split
  · exact Retag.refl s
  split
  · exact Retag.refl s
  rename_i cvma _ _ pe _
  simp only [safely_bind]
  refine (returns_getPageRec s pe.p).mono fun pg _ => ?_
  split
  · split
    · simp only [safely_bind]
      refine (quiet_mapPage _ _ _ _ _).mono fun s₁ h₁ => ?_
      exact (Quiet.setPage s pe.p _).retag.trans ((Retag.setEntry _ _ _ _).trans h₁.retag)
    · simp
  · simp only [safely_bind]
    exact (quiet_mapPage _ _ _ _ _).mono fun s₁ h₁ => h₁.retag

/-! ## Operations on the entries of a VMA -/

/-- An address space without the entry of `vaddr`. -/
def AddressSpace.unassign (sp : AddressSpace) (vaddr : ℕ) : AddressSpace :=
  { sp with vma := delSibling vaddr sp.vma, vaddrMap := sp.vaddrMap.erase vaddr }

/-- An address space with an entry of `vaddr` on the list of a VMA. -/
def AddressSpace.assign (sp : AddressSpace) (vma vaddr : ℕ) (pe : PageEntry) : AddressSpace :=
  { sp with vma := addSibling vma vaddr sp.vma, vaddrMap := sp.vaddrMap.insert vaddr pe }

@[simp] theorem shape_delSibling (vaddr : ℕ) (vma : List VmArea) :
    (delSibling vaddr vma).map VmArea.shape = vma.map VmArea.shape := by
  simp [delSibling, Function.comp_def, VmArea.shape]

@[simp] theorem shape_addSibling (id vaddr : ℕ) (vma : List VmArea) :
    (addSibling id vaddr vma).map VmArea.shape = vma.map VmArea.shape := by
  simp only [addSibling, List.map_map]
  apply List.map_congr_left
  intro v _
  by_cases hv : v.id = id <;> simp [hv, VmArea.shape]

@[simp] theorem AddressSpace.shape_unassign (sp : AddressSpace) (vaddr : ℕ) :
    (sp.unassign vaddr).shape = sp.shape := by
  simp [AddressSpace.unassign, AddressSpace.shape]

@[simp] theorem AddressSpace.shape_assign (sp : AddressSpace) (vma vaddr : ℕ) (pe : PageEntry) :
    (sp.assign vma vaddr pe).shape = sp.shape := by
  simp [AddressSpace.assign, AddressSpace.shape]

/-- The entry of `vaddr` is gone from `s` to `s'`. -/
def Unassigned (as vaddr : ℕ) (s s' : State) : Prop :=
  ∃ sp, s.spaces as = some sp ∧ Quiet (s.setSpace as (sp.unassign vaddr)) s'

/-- An entry of `vaddr` is new in `s'`. -/
def Assigned (as vma vaddr : ℕ) (pe : PageEntry) (s s' : State) : Prop :=
  ∃ sp, s.spaces as = some sp ∧ Quiet (s.setSpace as (sp.assign vma vaddr pe)) s'

theorem effect_unassignPage (as : ℕ) (s : State) (vaddr : ℕ) :
    Returns (Unassigned as vaddr s) (unassignPage as s vaddr) := by
  simp only [unassignPage, safely_bind]
  refine (returns_getEntry _ as vaddr).mono fun pe _ => ?_
  refine (returns_getSpace _ as).mono fun sp hsp => ?_
  refine (quiet_delOwner _ pe.p _).mono fun s₁ h₁ => ?_
  refine (returns_getSpace s₁ as).mono fun sp₁ hsp₁ => ?_
  have hspaces : s₁.spaces = Function.update s.spaces as
      (some { sp with vaddrMap := sp.vaddrMap.erase vaddr }) := h₁.spaces
  obtain rfl : { sp with vaddrMap := sp.vaddrMap.erase vaddr } = sp₁ := by
    rw [hspaces, Function.update_self, Option.some.injEq] at hsp₁
    exact hsp₁
  have hquiet : Quiet (disableInterrupts (s.setSpace as (sp.unassign vaddr)))
      (s₁.setSpace as { sp with
        vma := delSibling vaddr sp.vma, vaddrMap := sp.vaddrMap.erase vaddr }) := by
    refine ⟨⟨h₁.current, h₁.zeroPage, h₁.interruptDisabled, h₁.aspacePool, h₁.vmaJunk, h₁.freeRange,
      h₁.plists, h₁.plistPool⟩, ?_, h₁.mem⟩
    change Function.update s₁.spaces as _ = Function.update s.spaces as _
    rw [hspaces, Function.update_idem]
    rfl
  refine hquiet.returns_enable.mono fun s₂ h₂ => ?_
  refine (quiet_unmapMaybeCurrent s₂ as vaddr).mono fun s₃ h₃ => ?_
  exact (quiet_pageEntryUnref s₃ pe).mono fun _ h₄ => ⟨sp, hsp, h₂.trans (h₃.trans h₄)⟩

/-- The entry of `vaddr`, if there was one, is gone from `s` to `s'`. -/
def Cleared (as vaddr : ℕ) (s s' : State) : Prop :=
  (∃ pe, s.entry as vaddr = some pe) ∧ Unassigned as vaddr s s' ∨ s.entry as vaddr = none ∧ s' = s

theorem effect_unassignOld (as : ℕ) (s : State) (vaddr : ℕ) :
    Returns (Cleared as vaddr s) (unassignOld as s vaddr) := by
  unfold unassignOld
  split
  · rename_i pe hpe
    exact (effect_unassignPage as s vaddr).mono fun _ h => .inl ⟨⟨pe, hpe⟩, h⟩
  · rename_i hnone
    exact .inr ⟨hnone, rfl⟩

theorem Unassigned.entry {as vaddr : ℕ} (h : Unassigned as vaddr s s') :
    s'.entry = updEnt s.entry as vaddr none := by
  obtain ⟨sp, hsp, hq⟩ := h
  rw [hq.entry]
  exact entry_setSpace_erase hsp _ vaddr

theorem Assigned.entry {as vma vaddr : ℕ} {pe : PageEntry} (h : Assigned as vma vaddr pe s s') :
    s'.entry = updEnt s.entry as vaddr (some pe) := by
  obtain ⟨sp, hsp, hq⟩ := h
  rw [hq.entry]
  exact entry_setSpace_insert hsp _ vaddr pe

theorem Cleared.entry {as vaddr : ℕ} (h : Cleared as vaddr s s') :
    s'.entry = updEnt s.entry as vaddr none := by
  rcases h with ⟨-, h⟩ | ⟨hnone, rfl⟩
  · exact h.entry
  · rw [updEnt, ← hnone, Function.update_eq_self, Function.update_eq_self]

/-- The entry that was there goes, and the new one comes. -/
theorem effect_assignPageNoAddrCheck (s : State) (as p vaddr vma flags : ℕ) :
    Returns (fun s' => ∃ s₁, Cleared as vaddr s s₁ ∧ Assigned as vma vaddr ⟨p, flags⟩ s₁ s')
      (assignPageNoAddrCheck s as p vaddr vma flags) := by
  unfold assignPageNoAddrCheck
  split
  · simp
  split
  · simp
  simp only [safely_bind]
  refine (effect_unassignOld as (disableInterrupts s) vaddr).mono fun s₁ h₁ => ?_
  refine (returns_getPageRec s₁ p).mono fun pg _ => ?_
  refine (quiet_addOwner _ p _).mono fun s₂ h₂ => ?_
  refine (returns_getSpace s₂ as).mono fun sp hsp => ?_
  have hpage : Quiet s₁ s₂ := (Quiet.setPage s₁ p _).trans h₂
  have hcount : s₁.interruptDisabled = s.interruptDisabled + 1 := by
    rcases h₁ with ⟨-, _, -, hq⟩ | ⟨-, rfl⟩
    · exact hq.interruptDisabled
    · rfl
  -- the state after the entry went, outside the section
  obtain ⟨s₁', hs₁', hold⟩ : ∃ s₁', disableInterrupts s₁' = s₁ ∧ Cleared as vaddr s s₁' := by
    refine ⟨{ s₁ with interruptDisabled := s.interruptDisabled }, ?_, ?_⟩
    · rw [disableInterrupts, ← hcount]
    · rcases h₁ with ⟨hsome, sp₀, hsp₀, hq⟩ | ⟨hnone, rfl⟩
      · exact .inl ⟨hsome, sp₀, hsp₀, ⟨hq.current, hq.zeroPage, rfl, hq.aspacePool, hq.vmaJunk,
          hq.freeRange, hq.plists, hq.plistPool⟩, hq.spaces, hq.mem⟩
      · exact .inr ⟨hnone, rfl⟩
  have hsp₁ : s₁'.spaces as = some sp := by
    rw [hpage.spaces, ← hs₁'] at hsp
    exact hsp
  have hins : Quiet (disableInterrupts (s₁'.setSpace as (sp.assign vma vaddr ⟨p, flags⟩)))
      (s₂.setSpace as (sp.assign vma vaddr ⟨p, flags⟩)) := by
    subst hs₁'
    refine ⟨⟨hpage.current, hpage.zeroPage, hpage.interruptDisabled, hpage.aspacePool,
      hpage.vmaJunk, hpage.freeRange, hpage.plists, hpage.plistPool⟩, ?_, hpage.mem⟩
    change Function.update s₂.spaces as _ = Function.update s₁'.spaces as _
    rw [hpage.spaces]
    rfl
  split
  · exact (quiet_addSnapshot _ p).mono fun _ h₃ =>
      (hins.trans h₃).returns_enable.mono fun _ h₄ => ⟨s₁', hold, sp, hsp₁, h₄⟩
  · exact hins.returns_enable.mono fun _ h₄ => ⟨s₁', hold, sp, hsp₁, h₄⟩

/-! ## Operations on page entries -/

namespace Frame

@[refl] theorem refl (s : State) : Frame s s := ⟨SameRest.refl s, fun _ => rfl⟩

@[trans] theorem trans (h : Frame s s') (h' : Frame s' s'') : Frame s s'' :=
  ⟨h.toSameRest.trans h'.toSameRest, fun a => (h'.shape a).trans (h.shape a)⟩

theorem setMem (s : State) (p : ℕ) (bytes : ℕ → UInt8) : Frame s (s.setMem p bytes) :=
  ⟨⟨rfl, rfl, rfl, rfl, rfl, rfl, rfl, rfl⟩, fun _ => rfl⟩

theorem setSpace {as : ℕ} {sp sp' : AddressSpace} (h : s.spaces as = some sp)
    (hsh : sp'.shape = sp.shape) : Frame s (s.setSpace as sp') := by
  refine ⟨⟨rfl, rfl, rfl, rfl, rfl, rfl, rfl, rfl⟩, ?_⟩
  intro a
  by_cases ha : a = as
  · subst ha
    simp [State.setSpace, h, hsh]
  · simp [State.setSpace, ha]

theorem returns_enable (h : Frame (disableInterrupts s) s') :
    Returns (Frame s) (enableInterrupts s') := by
  rw [enableInterrupts_eq (s := s) h.interruptDisabled]
  exact ⟨⟨h.current, h.zeroPage, rfl, h.aspacePool, h.vmaJunk, h.freeRange, h.plists, h.plistPool⟩,
    h.shape⟩

/-- The VMAs of an address space keep their bounds. -/
theorem space (h : Frame s s') {a : ℕ} {sp : AddressSpace} (hs : s.spaces a = some sp) :
    ∃ sp', s'.spaces a = some sp' ∧ sp'.shape = sp.shape := by
  have := h.shape a
  rw [hs] at this
  simpa using this

end Frame

theorem Quiet.frame (h : Quiet s s') : Frame s s' := ⟨h.toSameRest, fun a => by rw [h.spaces]⟩

theorem AddressSpace.shape_of_bones {sp sp' : AddressSpace} (h : sp'.bones = sp.bones) :
    sp'.shape = sp.shape := by
  simp only [AddressSpace.bones, Prod.mk.injEq] at h
  simp [AddressSpace.shape, h]

theorem Retag.frame (h : Retag s s') : Frame s s' := by
  refine ⟨h.toSameRest, fun a => ?_⟩
  have hb := h.bones a
  cases hs : s.spaces a with
  | none =>
    rw [hs, Option.map_none, Option.map_eq_none_iff] at hb
    rw [hb]
  | some sp =>
    obtain ⟨sp', hs', hbones⟩ := h.space hs
    rw [hs', Option.map_some, Option.map_some, AddressSpace.shape_of_bones hbones]

theorem Unassigned.frame {as vaddr : ℕ} (h : Unassigned as vaddr s s') : Frame s s' := by
  obtain ⟨sp, hsp, hq⟩ := h
  exact (Frame.setSpace hsp (by simp)).trans hq.frame

theorem Assigned.frame {as vma vaddr : ℕ} {pe : PageEntry} (h : Assigned as vma vaddr pe s s') :
    Frame s s' := by
  obtain ⟨sp, hsp, hq⟩ := h
  exact (Frame.setSpace hsp (by simp)).trans hq.frame

theorem frame_unassignPage (as : ℕ) (s : State) (vaddr : ℕ) :
    Returns (Frame s) (unassignPage as s vaddr) :=
  (effect_unassignPage as s vaddr).mono fun _ h => h.frame

theorem Cleared.frame {as vaddr : ℕ} (h : Cleared as vaddr s s') : Frame s s' := by
  rcases h with ⟨-, h⟩ | ⟨-, rfl⟩
  · exact h.frame
  · exact Frame.refl _

theorem frame_assignPageNoAddrCheck (s : State) (as p vaddr vma flags : ℕ) :
    Returns (Frame s) (assignPageNoAddrCheck s as p vaddr vma flags) := by
  refine (effect_assignPageNoAddrCheck s as p vaddr vma flags).mono ?_
  rintro s' ⟨s₁, hold, hnew⟩
  exact hold.frame.trans hnew.frame

theorem frame_assignPageWithVma (s : State) (as : ℕ) (vma : VmArea) (p vaddr flags : ℕ) :
    Returns (fun r => Frame s r.2) (assignPageWithVma s as vma p vaddr flags) := by
  unfold assignPageWithVma
  split
  · exact Frame.refl s
  split
  · exact Frame.refl s
  simp only [safely_bind]
  exact frame_assignPageNoAddrCheck s as p vaddr vma.id flags

theorem frame_assignPage (s : State) (as p vaddr flags : ℕ) :
    Returns (fun r => Frame s r.2) (assignPage s as p vaddr flags) := by
  unfold assignPage
  split
  · exact Frame.refl s
  simp only [safely_bind]
  refine (returns_getSpace _ as).mono fun sp _ => ?_
  refine (Frame.refl (disableInterrupts s)).returns_enable.mono fun s₁ h₁ => ?_
  split
  · exact h₁
  · simp only [safely_bind]
    exact (frame_assignPageNoAddrCheck s₁ as p vaddr _ flags).mono fun _ h₂ => h₁.trans h₂

theorem frame_assignAddrWithVma (s : State) (as : ℕ) (vma : VmArea) (addr vaddr flags : ℕ) :
    Returns (fun r => Frame s r.2) (assignAddrWithVma s as vma addr vaddr flags) := by
  unfold assignAddrWithVma
  split
  · exact Frame.refl s
  split
  · exact Frame.refl s
  simp only [safely_bind]
  refine (quiet_managePhysPage s addr).mono fun s₁ h₁ => ?_
  refine (frame_assignPageNoAddrCheck s₁ as addr vaddr vma.id flags).mono fun s₂ h₂ => ?_
  exact (quiet_pageUnref s₂ addr false).mono fun _ h₃ => h₁.frame.trans (h₂.trans h₃.frame)

/-! ## Page lists and copies -/

theorem frame_mapNodes (as : ℕ) (vma : VmArea) (ph : List PageList) (vaddr : ℕ) (s : State) :
    Returns (Frame s) (mapNodes as vma ph vaddr s) := by
  induction ph generalizing vaddr s with
  | nil => exact Frame.refl s
  | cons pl rest ih =>
    simp only [mapNodes, safely_bind]
    split
    · simp only [safely_bind]
      exact (frame_assignPageWithVma s as vma _ vaddr PF_SNAPSHOT).mono fun r h₁ =>
        (ih _ r.2).mono fun _ h₂ => h₁.trans h₂
    · exact ih _ s

theorem frame_copyPage (s : State) (vaddr lo hi : ℕ) :
    Returns (fun r => Frame s r.2) (copyPage s vaddr lo hi) := by
  simp only [copyPage, safely_bind]
  refine (quiet_getPage s).mono ?_
  rintro ⟨page, s₁⟩ h₁
  exact (quiet_managePhysPage _ page).mono fun _ h₂ =>
    h₁.frame.trans ((Frame.setMem s₁ page _).trans ((Frame.setMem _ page _).trans h₂.frame))

theorem quiet_snapPage (acc : List PageList × State) (vaddr : ℕ) :
    Returns (fun r => Quiet acc.2 r.2) (snapPage acc vaddr) := by
  unfold snapPage
  dsimp only
  split
  · simp only [safely_bind]
    exact (returns_getPageRec _ _).mono fun pg _ => Quiet.setPage acc.2 _ _
  · exact Quiet.refl acc.2

theorem quiet_freeNode (s : State) (pl : PageList) : Returns (Quiet s) (freeNode s pl) := by
  unfold freeNode
  split
  · simp
  · rename_i p _
    simp only [safely_bind]
    split
    · simp only [safely_bind]
      refine (returns_getPageRec s p).mono fun pg _ => ?_
      exact (quiet_pageUnref _ p false).mono fun _ h => (Quiet.setPage s p _).trans h
    · exact quiet_pageUnref s p false

theorem frame_userPage (s : State) (aaddr : ℕ) :
    Returns (fun r => Frame s r.2) (userPage s aaddr) := by
  unfold userPage
  split
  · simp only [safely_bind]
    refine (quiet_getPage s).mono ?_
    rintro ⟨page, s₁⟩ h₁
    dsimp only
    refine (quiet_managePhysPage _ page).mono fun s₂ h₂ => ?_
    refine (frame_assignPage s₂ _ page aaddr PF_SHARED).mono ?_
    rintro ⟨_, s₃⟩ h₃
    dsimp only
    exact (quiet_pageUnref s₃ page false).mono fun _ h₄ =>
      h₁.frame.trans ((Frame.setMem s₁ page _).trans (h₂.frame.trans (h₃.trans h₄.frame)))
  · rename_i pe hpe
    simp only [safely_bind]
    refine (returns_getPageRec s pe.p).mono fun pg hpg => ?_
    split
    · rename_i h0
      refine (retag_unsharePage hpe hpg (by omega)).mono fun s₁ h₁ => ?_
      exact (returns_getEntry s₁ _ aaddr).mono fun _ _ => h₁.frame
    · exact (returns_getEntry s _ aaddr).mono fun _ _ => Frame.refl s

theorem frame_memcpy (s : State) (page off len : ℕ) (bytes : ℕ → UInt8) :
    Returns (Frame s) (s.memcpy page off len bytes) := by
  simp only [State.memcpy, safely_bind]
  exact (returns_getPageRec s page).mono fun _ _ => Frame.setMem s page _

theorem frame_copyToPage (s : State) (aaddr off len : ℕ) (bytes : ℕ → UInt8) :
    Returns (Frame s) (copyToPage s aaddr off len bytes) := by
  simp only [copyToPage, safely_bind]
  refine (frame_userPage s aaddr).mono fun r h₁ => ?_
  exact (frame_memcpy r.2 r.1 off len bytes).mono fun _ h₂ => h₁.trans h₂

theorem frame_copyToUserSimple (s : State) (src : ℕ → UInt8) (buf len : ℕ) :
    Returns (fun r => Frame s r.2) (copyToUserSimple s src buf len) := by
  unfold copyToUserSimple
  split
  · simp
  simp only [validateRange, safely_bind, safely_pure]
  refine (returns_getSpace _ _).mono fun sp _ => ?_
  split
  · simp only [safely_bind]
    exact (Frame.refl (disableInterrupts s)).returns_enable
  simp only [safely_bind]
  refine (frame_copyToPage _ _ _ _ _).mono fun s₁ h₁ => ?_
  generalize (if wadd (pageAlign buf) 4096 < wadd buf len then
    wsub (wadd buf len) (wadd (pageAlign buf) 4096) else 0) = leftover
  split
  · exact (frame_copyToPage s₁ _ _ _ _).mono fun s₂ h₂ => (h₁.trans h₂).returns_enable
  · exact h₁.returns_enable

theorem frame_copyFromUserSimple (s : State) (src len : ℕ) :
    Returns (fun r => Frame s r.2) (copyFromUserSimple s src len) := by
  unfold copyFromUserSimple
  split
  · simp
  simp only [validateRange, safely_bind, safely_pure]
  refine (returns_getSpace _ _).mono fun sp _ => ?_
  split
  · simp only [safely_bind]
    exact (Frame.refl (disableInterrupts s)).returns_enable
  · simp only [safely_bind]
    exact (Frame.refl (disableInterrupts s)).returns_enable

end SadOS.Mm
