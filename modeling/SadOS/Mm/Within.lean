import SadOS.Mm.Sendpage
import SadOS.Mm.MemPort

/-!
# Page-table entries outside the addresses of the user

The memory manager writes the page-table entry of an address only if it has a page entry or an
owner there.  As long as all these addresses lie in a set, no other page-table entry changes.

## Main definitions

* `Within` — all addresses lie in a set, and the page table is known outside it.

## Main results

* `Within.sharePage`, `Within.unsharePage`, `Within.assignPage`, `Within.removeVmaRange` —
  the operations.
-/

namespace SadOS.Mm

/-- All page entries and owners lie in `L`, and the address spaces that are left of those of `s₀`
have its page-table entries for other addresses. -/
structure Within (L : ℕ → Prop) (s₀ s : State) : Prop where
  entry : ∀ a v, (s.entry a v).isSome = true → L v
  owner : ∀ p pg, s.physPages p = some pg → ∀ o ∈ pg.owner, L o.2
  pool : s₀.aspacePool ≤ s.aspacePool
  pte : ∀ a < s₀.aspacePool, (s.spaces a).isSome = true → ∀ n, (∀ v, L v → slot v ≠ n) →
    s.pte a n = s₀.pte a n

/-- Where an insertion finds a place, the addresses of the range lie in `L`. -/
def State.PlacesIn (L : ℕ → Prop) (s : State) (as vaddr len flags : ℕ) : Prop :=
  ∀ sp, s.spaces as = some sp → sp.HasPlace vaddr len flags →
    ∀ i < len, L (wadd (s.placedAt as vaddr len) i)

namespace Within

variable {L : ℕ → Prop} {s₀ s s' : State}

/-! ## Writes -/

/-- Only address spaces, records and page tables matter. -/
theorem congr (h : Within L s₀ s) (hspaces : s'.spaces = s.spaces)
    (hphys : s'.physPages = s.physPages) (hpte : s'.pte = s.pte)
    (hpool : s'.aspacePool = s.aspacePool) : Within L s₀ s' where
  entry a v hv := h.entry a v (by rwa [State.entry, hspaces] at hv)
  owner p pg hp := h.owner p pg (by rw [← hphys, hp])
  pool := by rw [hpool]; exact h.pool
  pte a ha hlive n hn := by rw [hpte, h.pte a ha (by rwa [← hspaces]) n hn]

theorem disable (h : Within L s₀ s) : Within L s₀ (disableInterrupts s) := h.congr rfl rfl rfl rfl

theorem enable (h : Within L s₀ s) : Returns (Within L s₀) (enableInterrupts s) := by
  rw [enableInterrupts]
  split
  · trivial
  · exact h.congr rfl rfl rfl rfl

theorem setMem (h : Within L s₀ s) (p : ℕ) (bytes : ℕ → UInt8) : Within L s₀ (s.setMem p bytes) :=
  h.congr rfl rfl rfl rfl

theorem setPage (h : Within L s₀ s) (p : ℕ) {x : Option Page}
    (hx : ∀ pg, x = some pg → ∀ o ∈ pg.owner, L o.2) : Within L s₀ (s.setPage p x) where
  entry := h.entry
  owner q pg hq := by
    by_cases hqp : q = p
    · rw [hqp] at hq
      exact hx pg (by simpa [State.setPage] using hq)
    · exact h.owner q pg (by simpa [State.setPage, Function.update_of_ne hqp] using hq)
  pool := h.pool
  pte := h.pte

/-- A record with owners that it had. -/
theorem setOwners (h : Within L s₀ s) {p : ℕ} {pg : Page} (hp : s.physPages p = some pg)
    (pg' : Page) (hsub : ∀ o ∈ pg'.owner, o ∈ pg.owner) : Within L s₀ (s.setPage p (some pg')) :=
  h.setPage p fun _ hx o ho => by
    cases hx
    exact h.owner p pg hp o (hsub o ho)

theorem setPte (h : Within L s₀ s) (a : ℕ) {v : ℕ} (hv : L v) (x : Option Pte) :
    Within L s₀ (s.setPte a v x) where
  entry := h.entry
  owner := h.owner
  pool := h.pool
  pte b hb₀ hlive n hn := by
    rw [← h.pte b hb₀ hlive n hn]
    by_cases hb : b = a
    · simp only [State.setPte, hb, Function.update_self, Function.update_of_ne (hn v hv).symm]
    · simp only [State.setPte, Function.update_of_ne hb]

/-- An address space that is there. -/
theorem setSpace (h : Within L s₀ s) {a : ℕ} {sp sp' : AddressSpace} (hsp : s.spaces a = some sp)
    (hentry : ∀ v, (sp'.vaddrMap.lookup v).isSome = true → L v) : Within L s₀ (s.setSpace a sp') where
  entry b v hv := by
    by_cases hb : b = a
    · rw [hb, State.entry, setSpace_spaces] at hv
      exact hentry v hv
    · simp only [State.entry, State.setSpace, Function.update_of_ne hb] at hv
      exact h.entry b v hv
  owner := h.owner
  pool := h.pool
  pte b hb₀ hlive := by
    refine h.pte b hb₀ ?_
    by_cases hb : b = a
    · rw [hb, hsp]
      rfl
    · simpa only [State.setSpace, Function.update_of_ne hb] using hlive

/-- The keys of the page entries of an address space. -/
theorem lookup (h : Within L s₀ s) {a : ℕ} {sp : AddressSpace} (hsp : s.spaces a = some sp) (v : ℕ)
    (hv : (sp.vaddrMap.lookup v).isSome = true) : L v :=
  h.entry a v (by rwa [State.entry, hsp])

theorem setEntry (h : Within L s₀ s) (a : ℕ) {v : ℕ} (hv : L v) (pe : PageEntry) :
    Within L s₀ (s.setEntry a v pe) := by
  rw [State.setEntry]
  split
  · rename_i sp hsp
    refine h.setSpace hsp fun w hw => ?_
    by_cases hwv : w = v
    · exact hwv ▸ hv
    · rw [AList.lookup_insert_ne hwv] at hw
      exact h.lookup hsp w hw
  · exact h

theorem getEntry (h : Within L s₀ s) (a v : ℕ) : Returns (fun pe => s.entry a v = some pe ∧ L v)
    (s.getEntry a v) := by
  refine (returns_getEntry s a v).mono fun pe hpe => ⟨hpe, h.entry a v ?_⟩
  rw [hpe]
  rfl

/-! ## Pages -/

theorem getPage (h : Within L s₀ s) : Returns (fun r => Within L s₀ r.2) (getPage s) := by
  refine (returns_getPage s).mono ?_
  rintro ⟨page, s'⟩ ⟨-, hs'⟩
  dsimp only at hs' ⊢
  rw [hs']
  exact h.congr rfl rfl rfl rfl

theorem dropPage (h : Within L s₀ s) (p : ℕ) : Returns (Within L s₀) (dropPage s p) := by
  rw [Mm.dropPage]
  split
  · have h' : Within L s₀ ((disableInterrupts s).setFree (p :: s.freePages)) :=
      h.disable.congr rfl rfl rfl rfl
    exact h'.enable
  · trivial

theorem managePhysPage (h : Within L s₀ s) (p : ℕ) : Returns (Within L s₀) (managePhysPage s p) := by
  simp only [Mm.managePhysPage, managePhysPageLocked, safely_bind]
  split
  · split
    · rename_i pg hp
      exact (h.disable.setOwners hp { pg with refCount := pg.refCount + 1 }
        fun o ho => ho).enable
    · exact (h.disable.setPage p fun pg hpg o ho => by
        cases hpg
        cases ho).enable
  · trivial

theorem pageUnref (h : Within L s₀ s) (p : ℕ) (hw : Bool) : Returns (Within L s₀) (pageUnref s p hw) := by
  simp only [Mm.pageUnref, safely_bind]
  refine (returns_getPageRec s p).mono fun pg hp => ?_
  have hnone : Within L s₀ (s.setPage p none) := h.setPage p fun _ hx => by cases hx
  split
  · split
    · exact hnone
    · exact hnone.dropPage p
  · exact h.setOwners hp _ fun o ho => ho

/-! ## Page tables -/

theorem setWritable (h : Within L s₀ s) (w : Bool) {o : ℕ × ℕ} (ho : L o.2) :
    Returns (Within L s₀) (setWritable w s o) := by
  rw [Mm.setWritable, ptableGetEntry4k]
  split
  · trivial
  · rw [ok_bind]
    split
    · exact h.setPte o.1 ho _
    · exact h

/-- A loop over elements that are good. -/
theorem foldlM {α : Type} {P : α → Prop} {f : State → α → Except Fault State} {l : List α}
    (hl : ∀ x ∈ l, P x)
    (hf : ∀ s x, Within L s₀ s → P x → Returns (Within L s₀) (f s x)) (h : Within L s₀ s) :
    Returns (Within L s₀) (l.foldlM f s) := by
  refine Safely.mono (safely_foldlM (fun rest s => Within L s₀ s ∧ ∀ x ∈ rest, P x) ⟨h, hl⟩ ?_)
    fun s₁ h₁ => h₁.1
  rintro x rest s₁ ⟨h₁, hrest⟩
  refine (hf s₁ x h₁ (hrest x List.mem_cons_self)).mono fun s₂ h₂ => ⟨h₂, fun y hy => ?_⟩
  exact hrest y (List.mem_cons_of_mem _ hy)

theorem restoreWrite (h : Within L s₀ s) {o : ℕ × ℕ} (ho : L o.2) :
    Returns (Within L s₀) (restoreWrite s o) := by
  simp only [Mm.restoreWrite, safely_bind]
  refine (returns_getEntry s _ _).mono fun pe _ => ?_
  split
  · exact h.setWritable true ho
  · trivial

theorem dropSnapshot (h : Within L s₀ s) (p : ℕ) : Returns (Within L s₀) (dropSnapshot s p) := by
  simp only [Mm.dropSnapshot, safely_bind]
  refine (returns_getPageRec s p).mono fun pg hp => ?_
  have h' := h.setOwners hp { pg with snapCount := wdec pg.snapCount } fun o ho => ho
  split
  · exact foldlM (h.owner p pg hp) (fun _ _ h ho => h.restoreWrite ho) h'
  · exact h'

theorem pageEntryUnref (h : Within L s₀ s) (pe : PageEntry) :
    Returns (Within L s₀) (pageEntryUnref s pe) := by
  simp only [Mm.pageEntryUnref, safely_bind]
  have hdrop : Returns (Within L s₀) (if hasFlag pe.flags PF_SNAPSHOT then
      Mm.dropSnapshot (disableInterrupts s) pe.p else pure (disableInterrupts s)) := by
    split
    · exact h.disable.dropSnapshot pe.p
    · exact h.disable
  exact hdrop.mono fun s₁ h₁ => (h₁.pageUnref _ _).mono fun s₂ h₂ => h₂.enable

theorem addOwner (h : Within L s₀ s) (p : ℕ) {o : ℕ × ℕ} (ho : L o.2) :
    Returns (Within L s₀) (addOwner s p o) := by
  simp only [Mm.addOwner, safely_bind]
  refine (returns_getPageRec s p).mono fun pg hp => h.setPage p fun pg' hpg' o' ho' => ?_
  cases hpg'
  rcases List.mem_cons.1 ho' with rfl | ho'
  · exact ho
  · exact h.owner p pg hp o' ho'

theorem delOwner (h : Within L s₀ s) (p : ℕ) (o : ℕ × ℕ) : Returns (Within L s₀) (delOwner s p o) := by
  simp only [Mm.delOwner, safely_bind]
  refine (returns_getPageRec s p).mono fun pg hp => ?_
  split
  · exact h.setOwners hp _ fun o' ho' => List.mem_of_mem_erase ho'
  · trivial

theorem sharePage (h : Within L s₀ s) (p : ℕ) : Returns (Within L s₀) (sharePage s p) := by
  simp only [Mm.sharePage, safely_bind]
  refine (returns_getPageRec _ p).mono fun pg hp => ?_
  refine (foldlM (h.owner p pg hp) (fun s₁ o h₁ ho => ?_) h.disable).mono fun s₂ h₂ => h₂.enable
  simp only [shareOwner, safely_bind]
  refine (returns_getEntry s₁ _ _).mono fun pe _ => ?_
  split
  · trivial
  · exact h₁.setWritable false ho

/-! ## Private copies -/

theorem moveShared (h : Within L s₀ s) (oldp p : ℕ) {o : ℕ × ℕ} (ho : L o.2) :
    Returns (Within L s₀) (moveShared oldp p s o) := by
  simp only [Mm.moveShared, safely_bind]
  refine (returns_getEntry s _ _).mono fun oi _ => ?_
  split
  · simp only [safely_bind]
    refine (h.delOwner oldp o).mono fun s₁ h₁ => ?_
    refine (returns_getPageRec s₁ oldp).mono fun opg hop => ?_
    have h₂ := h₁.setOwners hop { opg with refCount := wdec opg.refCount } fun o ho => ho
    refine (h₂.addOwner p ho).mono fun s₃ h₃ => ?_
    have h₄ := h₃.setEntry o.1 ho { oi with p := p }
    refine (returns_getPageRec _ p).mono fun pg hp => ?_
    have h₅ := h₄.setOwners hp { pg with refCount := pg.refCount + 1 } fun o ho => ho
    rw [ptableGetEntry4k]
    split
    · trivial
    · exact h₅.setPte o.1 ho none
  · exact h

theorem unshareRefs (h : Within L s₀ s) (as : ℕ) {v : ℕ} (hv : L v) (pe : PageEntry) (page : ℕ) :
    Returns (Within L s₀) (unshareRefs s as v pe page) := by
  rw [Mm.unshareRefs]
  split
  · simp only [safely_bind]
    refine (returns_getPageRec s pe.p).mono fun opg hop => ?_
    exact foldlM (h.owner pe.p opg hop) (fun _ _ h ho => h.moveShared pe.p page ho) h
  · exact (h.setEntry as hv _).dropSnapshot pe.p

theorem unshareCopy (h : Within L s₀ s) (as : ℕ) {v : ℕ} (hv : L v) (pe : PageEntry) :
    Returns (Within L s₀) (unshareCopy s as v pe) := by
  simp only [Mm.unshareCopy, safely_bind]
  refine h.getPage.mono ?_
  rintro ⟨page, s₁⟩ h₁
  refine (returns_getPageRec _ pe.p).mono fun pg _ => ?_
  split
  · trivial
  · simp only [safely_bind]
    refine ((Within.setMem h₁ page _).managePhysPage page).mono fun s₂ h₂ => ?_
    refine (h₂.delOwner pe.p _).mono fun s₃ h₃ => ?_
    refine (h₃.unshareRefs as hv pe page).mono fun s₄ h₄ => ?_
    refine (returns_getEntry s₄ as v).mono fun pe' _ => ?_
    refine ((h₄.setEntry as hv _).addOwner page hv).mono fun s₅ h₅ => ?_
    exact ((h₅.setPte s₅.current hv none).pageUnref pe.p false).mono fun s₆ h₆ => h₆.enable

theorem unsharePage (h : Within L s₀ s) (as v : ℕ) : Returns (Within L s₀) (unsharePage s as v) := by
  simp only [Mm.unsharePage, safely_bind]
  refine (h.getEntry as v).mono fun pe hpe => ?_
  split
  · trivial
  split
  · trivial
  simp only [safely_bind]
  refine (returns_getPageRec _ pe.p).mono fun pg hp => ?_
  split
  · simp only [safely_bind]
    exact (foldlM (h.owner pe.p pg hp) (fun _ _ h ho => h.setWritable true ho) h.disable.disable).mono
      fun s₁ h₁ => h₁.enable
  split
  · have h₁ := h.disable.setOwners hp { pg with snapCount := 0 } fun o ho => ho
    exact (h₁.setPte _ hpe.2 none).enable
  · exact h.disable.unshareCopy as hpe.2 pe

/-! ## Page entries -/

theorem setVmas (h : Within L s₀ s) {a : ℕ} {sp : AddressSpace} (hsp : s.spaces a = some sp)
    (vma : List VmArea) (n : ℕ) :
    Within L s₀ (s.setSpace a { sp with vma, vmaPool := n }) :=
  h.setSpace hsp fun v hv => h.lookup hsp v hv

theorem unassignPage (h : Within L s₀ s) (as v : ℕ) : Returns (Within L s₀) (unassignPage as s v) := by
  simp only [Mm.unassignPage, safely_bind]
  refine (h.disable.getEntry as v).mono fun pe hpe => ?_
  refine (returns_getSpace _ as).mono fun sp hsp => ?_
  have h₁ : Within L s₀ ((disableInterrupts s).setSpace as { sp with vaddrMap := sp.vaddrMap.erase v }) := by
    refine h.disable.setSpace hsp fun w hw => ?_
    by_cases hwv : w = v
    · exact hwv ▸ hpe.2
    · rw [AList.lookup_erase_ne hwv] at hw
      exact h.disable.lookup hsp w hw
  refine (h₁.delOwner pe.p _).mono fun s₂ h₂ => ?_
  refine (returns_getSpace s₂ as).mono fun sp₂ hsp₂ => ?_
  refine (h₂.setVmas hsp₂ (delSibling v sp₂.vma) sp₂.vmaPool).enable.mono fun s₃ h₃ => ?_
  have hunmap : Returns (Within L s₀) (unmapMaybeCurrent s₃ as v) := by
    rw [unmapMaybeCurrent, ptableGetEntry4k]
    split
    · exact h₃.setPte _ hpe.2 none
    · split
      · trivial
      · exact h₃.setPte as hpe.2 none
  exact hunmap.mono fun s₄ h₄ => h₄.pageEntryUnref pe

theorem addSnapshot (h : Within L s₀ s) (p : ℕ) : Returns (Within L s₀) (addSnapshot s p) := by
  simp only [Mm.addSnapshot, safely_bind]
  refine (returns_getPageRec s p).mono fun pg hp => ?_
  have h₁ := h.setOwners hp { pg with snapCount := pg.snapCount + 1 } fun o ho => ho
  split
  · trivial
  · split
    · exact h₁.sharePage p
    · exact h₁

theorem assignPageNoAddrCheck (h : Within L s₀ s) (as p : ℕ) {v : ℕ} (hv : L v) (id flags : ℕ) :
    Returns (Within L s₀) (assignPageNoAddrCheck s as p v id flags) := by
  rw [Mm.assignPageNoAddrCheck]
  split
  · trivial
  split
  · trivial
  simp only [safely_bind]
  have hold : Returns (Within L s₀) (unassignOld as (disableInterrupts s) v) := by
    rw [unassignOld]
    split
    · exact h.disable.unassignPage as v
    · exact h.disable
  refine hold.mono fun s₁ h₁ => ?_
  refine (returns_getPageRec s₁ p).mono fun pg hp => ?_
  have h₂ := h₁.setOwners hp { pg with refCount := pg.refCount + 1 } fun o ho => ho
  refine (h₂.addOwner p hv).mono fun s₃ h₃ => ?_
  refine (returns_getSpace s₃ as).mono fun sp hsp => ?_
  have h₄ : Within L s₀ (s₃.setSpace as { sp with
      vma := addSibling id v sp.vma, vaddrMap := sp.vaddrMap.insert v ⟨p, flags⟩ }) := by
    refine h₃.setSpace hsp fun w hw => ?_
    by_cases hwv : w = v
    · exact hwv ▸ hv
    · rw [AList.lookup_insert_ne hwv] at hw
      exact h₃.lookup hsp w hw
  split
  · exact (h₄.addSnapshot p).mono fun s₅ h₅ => h₅.enable
  · exact h₄.enable

theorem assignPage (h : Within L s₀ s) (as p : ℕ) {v : ℕ} (hv : L v) (flags : ℕ) :
    Returns (fun r => Within L s₀ r.2) (assignPage s as p v flags) := by
  rw [Mm.assignPage]
  split
  · exact h
  simp only [safely_bind]
  refine (returns_getSpace _ as).mono fun sp _ => h.disable.enable.mono fun s₁ h₁ => ?_
  split
  · exact h₁
  · simp only [safely_bind, safely_pure]
    exact h₁.assignPageNoAddrCheck as p hv _ flags

theorem assignPageWithVma (h : Within L s₀ s) (as : ℕ) (vma : VmArea) (p : ℕ) {v : ℕ} (hv : L v)
    (flags : ℕ) : Returns (fun r => Within L s₀ r.2) (assignPageWithVma s as vma p v flags) := by
  rw [Mm.assignPageWithVma]
  split
  · exact h
  split
  · exact h
  · simp only [safely_bind, safely_pure]
    exact h.assignPageNoAddrCheck as p hv _ flags

theorem assignAddrWithVma (h : Within L s₀ s) (as : ℕ) (vma : VmArea) (addr : ℕ) {v : ℕ} (hv : L v)
    (flags : ℕ) : Returns (fun r => Within L s₀ r.2) (assignAddrWithVma s as vma addr v flags) := by
  rw [Mm.assignAddrWithVma]
  split
  · exact h
  split
  · exact h
  · simp only [safely_bind, safely_pure]
    exact (h.managePhysPage addr).mono fun s₁ h₁ =>
      (h₁.assignPageNoAddrCheck as addr hv _ flags).mono fun s₂ h₂ => h₂.pageUnref addr false

theorem mapPage (h : Within L s₀ s) (addr : ℕ) {v : ℕ} (hv : L v) (pgsize : ℕ) (w : Bool) :
    Returns (Within L s₀) (mapPage s addr v pgsize w) := by
  rw [Mm.mapPage]
  split
  · split
    · trivial
    · exact h.setPte _ hv _
  · trivial

theorem addressSpaceMap (h : Within L s₀ s) (v : ℕ) :
    Returns (fun r => Within L s₀ r.2) (addressSpaceMap s v) := by
  rw [Mm.addressSpaceMap]
  split
  · exact h
  simp only [safely_bind]
  refine (returns_getSpace s _).mono fun sp _ => ?_
  split
  · exact h
  split
  · exact h
  rename_i pe hpe
  have hv : L v := h.entry s.current v (by rw [hpe]; rfl)
  simp only [safely_bind]
  refine (returns_getPageRec s pe.p).mono fun pg hp => ?_
  split
  · split
    · have h₁ := h.setOwners hp { pg with snapCount := 0 } fun o ho => ho
      simp only [safely_bind, safely_pure]
      exact (h₁.setEntry s.current hv { pe with flags := PF_SHARED }).mapPage _ hv _ _
    · trivial
  · simp only [safely_bind, safely_pure]
    exact h.mapPage _ hv _ _

/-! ## VMAs -/

theorem modifyVma (h : Within L s₀ s) (as : ℕ) (f : List VmArea → List VmArea) :
    Within L s₀ (s.modifyVma as f) := by
  rw [State.modifyVma]
  split
  · rename_i sp hsp
    exact h.setVmas hsp (f sp.vma) sp.vmaPool
  · exact h

theorem unassignPages (h : Within L s₀ s) (as : ℕ) (l : List ℕ) :
    Returns (Within L s₀) (l.foldlM (Mm.unassignPage as) s) :=
  safely_foldlM (fun _ s => Within L s₀ s) h fun v _ _ h => h.unassignPage as v

theorem removeVmaRangeFrom (h : Within L s₀ s) (as base len : ℕ) (now : Link) (l : List VmArea) :
    Returns (Within L s₀) (removeVmaRangeFrom as base len now l s) := by
  induction l generalizing now s with
  | nil => exact h
  | cons v rest ih =>
    rw [Mm.removeVmaRangeFrom]
    dsimp only
    split
    · exact ih h _
    split
    · exact h
    split
    · simp only [safely_bind]
      exact ((h.modifyVma as _).unassignPages as _).mono fun s₁ h₁ => ih h₁ _
    split
    · simp only [safely_bind]
      refine (returns_getSpace s as).mono fun sp hsp => ?_
      exact (h.setVmas hsp _ _).unassignPages as _
    · simp only [safely_bind]
      exact ((h.modifyVma as _).unassignPages as _).mono fun s₁ h₁ => ih h₁ _

theorem removeVmaRange (h : Within L s₀ s) (as base len : ℕ) :
    Returns (Within L s₀) (removeVmaRange s as base len) := by
  rw [Mm.removeVmaRange]
  split
  · simp only [safely_bind]
    exact (returns_getSpace s as).mono fun sp _ => h.removeVmaRangeFrom as base len _ _
  · trivial

/-- A VMA that the insertion adds, and where. -/
theorem insertVmaToVaddr (h : Within L s₀ s) (as vaddr len flags : ℕ) :
    Returns (fun r => Within L s₀ r.2 ∧ r.2.current = s.current ∧ ∀ v, r.1 = .ok v →
        v.vmaBegin = vaddr ∧ v.vmaLength = len ∧ ∃ sp, s.spaces as = some sp ∧ vaddr % 4096 = 0 ∧
          sp.lowAddr ≤ vaddr ∧ vaddr ≤ sp.highAddr ∧
          (aspaceAddVma (sp.newVma vaddr len flags) .head sp.vma).isSome = true)
      (insertVmaToVaddr s as vaddr len flags) := by
  cases hsp : s.spaces as with
  | none =>
    have hbad : (disableInterrupts s).getSpace as = .error .badPointer := by
      simp [State.getSpace, disableInterrupts, hsp]
    rw [Mm.insertVmaToVaddr, hbad]
    trivial
  | some sp =>
    rw [insertVmaToVaddr_eq hsp, Returns, safely_ok]
    have hpool := h.setVmas hsp sp.vma (sp.vmaPool + 1)
    split
    · exact ⟨hpool, rfl, fun v hv => by cases hv⟩
    split
    · exact ⟨hpool, rfl, fun v hv => by cases hv⟩
    rename_i hal hout
    split
    · exact ⟨hpool, rfl, fun v hv => by cases hv⟩
    · rename_i l hl
      refine ⟨h.setVmas hsp _ _, rfl, fun v hv => ?_⟩
      cases hv
      refine ⟨rfl, rfl, sp, rfl, by omega, by omega, by omega, ?_⟩
      rw [hl]
      rfl

theorem insertVmaToAny (h : Within L s₀ s) (as len flags : ℕ) :
    Returns (fun r => Within L s₀ r.2 ∧ r.2.current = s.current ∧ ∀ v, r.1 = .ok v →
        v.vmaLength = len ∧ ∃ sp, s.spaces as = some sp ∧
          v.vmaBegin = (findGap len sp.lowAddr sp.vma).1 ∧
          ¬((findGap len sp.lowAddr sp.vma).2 = false ∧
            sp.highAddr < wadd (findGap len sp.lowAddr sp.vma).1 len))
      (insertVmaToAny s as len flags) := by
  cases hsp : s.spaces as with
  | none =>
    have hbad : (disableInterrupts s).getSpace as = .error .badPointer := by
      simp [State.getSpace, disableInterrupts, hsp]
    rw [Mm.insertVmaToAny]
    dsimp only
    rw [hbad]
    trivial
  | some sp =>
    rw [insertVmaToAny_eq hsp, Returns, safely_ok]
    dsimp only
    split
    · exact ⟨h.disable, rfl, fun v hv => by cases hv⟩
    · rename_i hgap
      refine ⟨h.setVmas hsp _ _, rfl, fun v hv => ?_⟩
      cases hv
      exact ⟨rfl, sp, rfl, rfl, hgap⟩

/-- A range whose addresses lie in `L` where there is a place for it. -/
theorem insertVma (h : Within L s₀ s) {as vaddr len flags : ℕ} (hin : s.PlacesIn L as vaddr len flags) :
    Returns (fun r => Within L s₀ r.2 ∧ r.2.current = s.current ∧ ∀ v, r.1 = .ok v →
        v.vmaLength = len ∧ ∀ i < len, L (wadd v.vmaBegin i))
      (if vaddr ≠ 0 then Mm.insertVmaToVaddr s as vaddr len flags
        else Mm.insertVmaToAny s as len flags) := by
  split
  · rename_i hvaddr
    refine (h.insertVmaToVaddr as vaddr len flags).mono ?_
    rintro r ⟨h₁, hcur, hplace⟩
    refine ⟨h₁, hcur, fun v hv => ?_⟩
    obtain ⟨hbegin, hlen, sp, hsp, hfits⟩ := hplace v hv
    refine ⟨hlen, fun i hi => ?_⟩
    have hplaced : s.placedAt as vaddr len = v.vmaBegin := by
      rw [State.placedAt, if_pos hvaddr, hbegin]
    rw [← hplaced]
    exact hin sp hsp (by rwa [AddressSpace.HasPlace, if_pos hvaddr]) i hi
  · rename_i hvaddr
    refine (h.insertVmaToAny as len flags).mono ?_
    rintro r ⟨h₁, hcur, hplace⟩
    refine ⟨h₁, hcur, fun v hv => ?_⟩
    obtain ⟨hlen, sp, hsp, hbegin, hfits⟩ := hplace v hv
    refine ⟨hlen, fun i hi => ?_⟩
    have hplaced : s.placedAt as vaddr len = v.vmaBegin := by
      rw [State.placedAt, if_neg hvaddr, hsp, hbegin]
    rw [← hplaced]
    exact hin sp hsp (by rwa [AddressSpace.HasPlace, if_neg hvaddr]) i hi

end Within

end SadOS.Mm
