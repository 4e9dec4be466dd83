import SadOS.Mm.Within
import SadOS.Mm.Paging
import SadOS.Mm.WellFormed

/-!
# The kernel half of a page table

`USER_TOP` has 63 bits, of which a page table looks at 48: an address of the user with bit 47
set has its entry in the kernel half.  As long as all addresses have it clear, the memory manager
leaves the kernel half alone.

## Main definitions

* `LowAddr` — bit 47 is clear.
* `KernelKept` — the kernel halves of the page tables stay.
* `World.LowOnly` — the new addresses of a step have bit 47 clear.

## Main results

* `index_lt_iff` — the pml4 slot of an address.
* `kernelHalf_kept` — runs whose addresses have bit 47 clear.
* `kernelHalf_fails` — a page sent to an alias of the direct map.
-/

namespace SadOS.Mm

namespace Within

variable {L : ℕ → Prop} {s₀ s s' : State}

/-! ## Page faults -/

theorem zeroFill (h : Within L s₀ s) {page : ℕ} (hv : L page) :
    Returns (Within L s₀) (zeroFill s page) := by
  rw [Mm.zeroFill]
  split
  · exact h
  · simp only [safely_bind, safely_pure]
    exact h.assignPage _ _ hv _

theorem unshareForWrite (h : Within L s₀ s) (write : Bool) (page : ℕ) (pe : PageEntry) :
    Returns (Within L s₀) (unshareForWrite s write page pe) := by
  rw [Mm.unshareForWrite]
  simp only [safely_bind]
  refine (returns_getPageRec s _).mono fun pg _ => ?_
  split
  · exact h.unsharePage _ _
  · exact h

theorem pageFaultHandler (h : Within L s₀ s) (user write : Bool) {vaddr : ℕ} (hv : L (pageAlign vaddr)) :
    Returns (fun r => Within L s₀ r.2) (pageFaultHandler s user write vaddr) := by
  rw [Mm.pageFaultHandler]
  split
  · trivial
  simp only [safely_bind]
  refine (returns_getSpace _ _).mono fun sp _ => ?_
  split
  · exact h.disable
  simp only [safely_bind]
  refine (h.disable.zeroFill hv).mono fun s₁ h₁ => ?_
  split
  · trivial
  split
  · exact h₁
  simp only [safely_bind, safely_pure]
  exact (h₁.unshareForWrite write _ _).mono fun s₂ h₂ =>
    (h₂.addressSpaceMap _).mono fun r h₃ => h₃.enable

theorem userAccess (h : Within L s₀ s) (hlow : ∀ v < 2 ^ 47, L v) (write : Bool) (vaddr : ℕ) :
    Returns (fun r => Within L s₀ r.2) (userAccess s write vaddr) := by
  rw [Mm.userAccess]
  split
  · exact h
  rename_i hlt
  split
  · exact h
  simp only [safely_bind, pageFaultEntry, safely_pure]
  have h' : Within L s₀ { s with interruptDisabled := 1 } := h.congr rfl rfl rfl rfl
  have hv : L (pageAlign vaddr) := hlow _ ((Nat.sub_le ..).trans_lt (not_le.1 hlt))
  refine (h'.pageFaultHandler true write hv).mono ?_
  rintro ⟨killed, s₁⟩ h₁
  have h₂ : Within L s₀ { s₁ with interruptDisabled := 0 } := h₁.congr rfl rfl rfl rfl
  dsimp only
  split <;> exact h₂

theorem userRead (h : Within L s₀ s) (hlow : ∀ v < 2 ^ 47, L v) (vaddr : ℕ) :
    Returns (fun r => Within L s₀ r.2) (userRead s vaddr) := by
  simp only [Mm.userRead, safely_bind, safely_pure]
  exact h.userAccess hlow false vaddr

theorem userWrite (h : Within L s₀ s) (hlow : ∀ v < 2 ^ 47, L v) (vaddr : ℕ) (b : UInt8) :
    Returns (fun r => Within L s₀ r.2) (userWrite s vaddr b) := by
  simp only [Mm.userWrite, safely_bind]
  refine (h.userAccess hlow true vaddr).mono ?_
  rintro ⟨page, s₁⟩ h₁
  dsimp only at h₁ ⊢
  split
  · exact h₁.setMem _ _
  · exact h₁

/-! ## System calls -/

theorem sendpageTo (h : Within L s₀ s) {as vaddr dst len : ℕ}
    (hin : s.PlacesIn L as dst len VMA_RW) :
    Returns (fun r => Within L s₀ r.2) (sendpageTo s as vaddr dst len) := by
  rw [Mm.sendpageTo]
  split
  · exact h
  simp only [safely_bind]
  refine Safely.mono (Q := fun _ => True) (safely_iff.2 ⟨fun _ _ => trivial, fun _ _ => trivial⟩)
    fun ok _ => ?_
  split
  · exact h
  simp only [safely_bind]
  refine (h.insertVma hin).mono ?_
  rintro ⟨vma, s₁⟩ ⟨h₁, -, hplaced⟩
  dsimp only at h₁ hplaced ⊢
  split
  · exact h₁
  rename_i v
  simp only [safely_bind, safely_pure]
  split
  · refine foldlM (forall_pageSteps len) (fun s₂ i h₂ hi => ?_) h₁
    rw [sendOne]
    split
    · simp only [safely_bind, safely_pure]
      exact h₂.assignPage as _ ((hplaced v rfl).2 i hi) _
    · exact h₂
  · exact h₁

theorem sendpage (h : Within L s₀ s) {tab : AsTable} {as : ℤ} {vaddr dst len : ℕ}
    (hin : ∀ a, 0 ≤ as → tab[as.toNat]? = some (some a) → s.PlacesIn L a dst len VMA_RW) :
    Returns (fun r => Within L s₀ r.2) (sendpage s tab as vaddr dst len) := by
  simp only [Mm.sendpage, safely_bind, safely_pure]
  refine Safely.mono (Q := fun r : ℤ × State => Within L s₀ r.2) ?_ fun r h₁ => h₁.enable
  unfold fileAt
  split
  · exact h.disable
  rename_i has
  split
  · rename_i f hf
    rw [ok_bind]
    split
    · exact h.disable
    · rename_i a
      exact h.disable.sendpageTo (hin a (by omega) hf)
  · trivial

theorem munmap (h : Within L s₀ s) (base len : ℕ) :
    Returns (fun r => Within L s₀ r.2) (munmap s base len) := by
  rw [Mm.munmap]
  split
  · exact h
  · simp only [safely_bind, safely_pure]
    exact h.removeVmaRange _ _ _

theorem aspaceNew (h : Within L s₀ s) : Within L s₀ (aspaceNew s).2 where
  entry a v hv := by
    by_cases ha : a = s.aspacePool
    · rw [ha, State.entry, Mm.aspaceNew] at hv
      simp only [setSpace_spaces, Option.bind_some, AList.lookup_empty, Option.isSome_none,
        Bool.false_eq_true] at hv
    · refine h.entry a v ?_
      simpa only [State.entry, Mm.aspaceNew, State.setSpace, Function.update_of_ne ha] using hv
  owner := h.owner
  pool := h.pool.trans (Nat.le_succ _)
  pte a ha hlive n hn := by
    have hne : a ≠ s.aspacePool := (ha.trans_le h.pool).ne
    simp only [Mm.aspaceNew, State.setSpace, Function.update_of_ne hne] at hlive ⊢
    exact h.pte a ha hlive n hn

theorem destroyAs (h : Within L s₀ s) (as : ℕ) : Returns (Within L s₀) (destroyAs s as) := by
  simp only [Mm.destroyAs, safely_bind]
  refine (returns_getSpace s as).mono fun sp _ => ?_
  refine (h.removeVmaRange _ _ _).mono fun s₁ h₁ => (returns_getSpace s₁ as).mono fun sp₁ _ => ?_
  split
  · trivial
  refine ⟨fun a v hv => ?_, h₁.owner, h₁.pool, fun a ha hlive n hn => ?_⟩
  · by_cases has : a = as
    · simp [State.entry, has] at hv
    · refine h₁.entry a v ?_
      simpa only [State.entry, Function.update_of_ne has] using hv
  · by_cases has : a = as
    · simp [has] at hlive
    · simp only [Function.update_of_ne has] at hlive ⊢
      exact h₁.pte a ha hlive n hn

theorem asSnapshot (h : Within L s₀ s) (newAs : ℕ) : Returns (Within L s₀) (asSnapshot s newAs) := by
  simp only [Mm.asSnapshot, safely_bind]
  refine (returns_getSpace s _).mono fun sp _ => ?_
  have hvmas : Returns (Within L s₀) (sp.vma.foldlM (snapshotVma newAs) s) := by
    refine foldlM (P := fun _ => True) (fun _ _ => trivial) (fun s₁ vma h₁ _ => ?_) h
    rw [snapshotVma]
    split
    · exact h₁
    · simp only [safely_bind, safely_pure]
      exact (h₁.insertVmaToVaddr _ _ _ _).mono fun r h₂ => h₂.1
  refine hvmas.mono fun s₁ h₁ => (returns_getSpace s₁ _).mono fun sp₁ hsp₁ => ?_
  have hkeys : ∀ e ∈ entriesInOrder sp₁.vaddrMap, L e.1 := by
    intro e he
    refine h₁.lookup hsp₁ e.1 ?_
    rw [Settled.mem_entriesInOrder.1 he]
    rfl
  refine foldlM hkeys (fun s₂ e h₂ he => ?_) h₁
  rw [pageEntryVisitor]
  split
  · exact h₂
  · simp only [safely_bind, safely_pure]
    exact h₂.assignPage _ _ he _

theorem asnew (h : Within L s₀ s) (tab : AsTable) (snapshot : Bool) :
    Returns (fun r => Within L s₀ r.2) (asnew s tab snapshot) := by
  obtain ⟨s₁, hs₁⟩ : ∃ s₁, s₁ = (Mm.aspaceNew (disableInterrupts s)).2 := ⟨_, rfl⟩
  have h₁ : Within L s₀ s₁ := by
    rw [hs₁]
    exact h.disable.aspaceNew
  have hpair : Mm.aspaceNew (disableInterrupts s) = (s.aspacePool, s₁) := by
    rw [hs₁]
    rfl
  rw [Mm.asnew]
  dsimp only
  rw [hpair]
  dsimp only
  split
  · simp only [safely_bind, safely_pure]
    exact (h₁.destroyAs _).mono fun s₂ h₂ => h₂.enable
  · simp only [safely_bind, safely_pure]
    refine Safely.mono (Q := Within L s₀) ?_ fun s₂ h₂ => h₂.enable
    split
    · exact h₁.asSnapshot _
    · exact h₁

theorem asdestroy (h : Within L s₀ s) (tab : AsTable) (as : ℤ) :
    Returns (fun r => Within L s₀ r.2) (asdestroy s tab as) := by
  unfold Mm.asdestroy fileAt
  dsimp only
  split
  · simp only [safely_bind, safely_pure]
    exact h.disable.enable
  split
  · rw [ok_bind]
    split
    · simp only [safely_bind, safely_pure]
      exact h.disable.enable
    · simp only [safely_bind, safely_pure]
      exact (h.disable.destroyAs _).mono fun s₁ h₁ => h₁.enable
  · trivial

/-! ## Copies and page lists -/

theorem userPage (h : Within L s₀ s) {aaddr : ℕ} (hv : L aaddr) :
    Returns (fun r => Within L s₀ r.2) (userPage s aaddr) := by
  rw [Mm.userPage]
  split
  · simp only [safely_bind, safely_pure]
    refine h.getPage.mono ?_
    rintro ⟨page, s₁⟩ h₁
    refine ((Within.setMem h₁ page _).managePhysPage page).mono fun s₂ h₂ => ?_
    exact (h₂.assignPage _ page hv _).mono fun r h₃ => h₃.pageUnref page false
  · rename_i pe hpe
    simp only [safely_bind, safely_pure]
    refine (returns_getPageRec s pe.p).mono fun pg _ => ?_
    have hunshare : Returns (Within L s₀) (if 0 < pg.snapCount then
        Mm.unsharePage s s.current aaddr else .ok s) := by
      split
      · exact h.unsharePage _ _
      · exact h
    exact hunshare.mono fun s₁ h₁ => (returns_getEntry s₁ _ _).mono fun pe' _ => h₁

theorem copyToPage (h : Within L s₀ s) {aaddr : ℕ} (hv : L aaddr) (off len : ℕ) (bytes : ℕ → UInt8) :
    Returns (Within L s₀) (copyToPage s aaddr off len bytes) := by
  simp only [Mm.copyToPage, State.memcpy, safely_bind, safely_pure]
  refine (h.userPage hv).mono ?_
  rintro ⟨page, s₁⟩ h₁
  exact (returns_getPageRec s₁ page).mono fun pg _ => h₁.setMem page _

theorem copyToUserSimple (h : Within L s₀ s) {src : ℕ → UInt8} {buf len : ℕ}
    (hin : len ≤ 4096 → validateRange s buf len = .ok true → L (pageAlign buf) ∧
      (wadd (pageAlign buf) 4096 < wadd buf len → L (wadd (pageAlign buf) 4096))) :
    Returns (fun r => Within L s₀ r.2) (copyToUserSimple s src buf len) := by
  rw [Mm.copyToUserSimple]
  split
  · trivial
  rename_i hlen
  simp only [safely_bind]
  refine Safely.mono (Q := fun ok => validateRange s buf len = .ok ok)
    (safely_iff.2 ⟨fun _ hok => hok, fun _ _ => trivial⟩) fun ok hok => ?_
  split
  · simp only [safely_bind, safely_pure]
    exact h.disable.enable
  rename_i hvalid
  obtain rfl : ok = true := by simpa using hvalid
  obtain ⟨hfirst, hsecond⟩ := hin (not_lt.1 hlen) hok
  simp only [safely_bind, safely_pure]
  -- sums of addresses are not to be computed
  generalize wadd (pageAlign buf) 4096 = second, wadd buf len = stop at hsecond ⊢
  refine (h.disable.copyToPage hfirst _ _ _).mono fun s₁ h₁ => ?_
  refine Safely.mono (Q := Within L s₀) ?_ fun s₂ h₂ => h₂.enable
  by_cases hcross : second < stop
  · simp only [if_pos hcross]
    split
    · exact h₁.copyToPage (hsecond hcross) _ _ _
    · exact h₁
  · simp only [if_neg hcross, ne_eq, not_true_eq_false, reduceIte]
    exact h₁

theorem copyFromUserSimple (h : Within L s₀ s) (src len : ℕ) :
    Returns (fun r => Within L s₀ r.2 ∧ (r.1.1 = 0 → Mm.copyFromUserSimple s src len = .ok r))
      (copyFromUserSimple s src len) := by
  have hwithin : Returns (fun r => Within L s₀ r.2) (Mm.copyFromUserSimple s src len) := by
    rw [Mm.copyFromUserSimple]
    split
    · trivial
    simp only [safely_bind]
    refine Safely.mono (Q := fun _ => True) (safely_iff.2 ⟨fun _ _ => trivial, fun _ _ => trivial⟩)
      fun ok _ => ?_
    split
    all_goals
      simp only [safely_bind, safely_pure]
      exact h.disable.enable
  exact safely_iff.2 ⟨fun r hr => ⟨hwithin.of_ok hr, fun _ => hr⟩, fun _ _ => trivial⟩

theorem copyPage (h : Within L s₀ s) (vaddr lo hi : ℕ) :
    Returns (fun r => Within L s₀ r.2) (copyPage s vaddr lo hi) := by
  simp only [Mm.copyPage, safely_bind, safely_pure]
  refine h.getPage.mono ?_
  rintro ⟨page, s₁⟩ h₁
  exact ((Within.setMem h₁ page _).setMem page _).managePhysPage page

theorem snapPages (h : Within L s₀ s) (acc : List PageList) (l : List ℕ) :
    Returns (fun r => Within L s₀ r.2) (l.foldlM snapPage (acc, s)) := by
  refine safely_foldlM (fun _ (r : List PageList × State) => Within L s₀ r.2) h fun vaddr _ r h₁ => ?_
  rw [snapPage]
  split
  · rename_i pe hpe
    simp only [safely_bind, safely_pure]
    exact (returns_getPageRec _ pe.p).mono fun pg hp => h₁.setOwners hp _ fun o ho => ho
  · exact h₁

theorem addPlist (h : Within L s₀ s) (off : ℕ) (ph : List PageList) :
    Within L s₀ (s.addPlist off ph).2 := h.congr rfl rfl rfl rfl

theorem mapFromUser (h : Within L s₀ s) (buf len : ℕ) :
    Returns (fun r => Within L s₀ r.2) (mapFromUser s buf len) := by
  simp only [Mm.mapFromUser, safely_bind]
  refine Safely.mono (Q := fun _ => True) (safely_iff.2 ⟨fun _ _ => trivial, fun _ _ => trivial⟩)
    fun ok _ => ?_
  split
  · simp only [safely_bind, safely_pure]
    exact h.disable.enable
  simp only [safely_bind]
  refine Safely.mono (Q := fun r : List PageList × State => Within L s₀ r.2) ?_ ?_
  · split
    · simp only [safely_bind, safely_pure]
      exact h.disable.copyPage _ _ _
    · exact h.disable
  rintro ⟨first, s₁⟩ h₁
  dsimp only at h₁ ⊢
  split
  · simp only [safely_bind, safely_pure]
    exact (h₁.addPlist _ _).enable
  simp only [safely_bind]
  refine (h₁.snapPages _ _).mono ?_
  rintro ⟨middle, s₂⟩ h₂
  dsimp only at h₂ ⊢
  refine Safely.mono (Q := fun r : List PageList × State => Within L s₀ r.2) ?_ ?_
  · split
    · simp only [safely_bind, safely_pure]
      exact h₂.copyPage _ _ _
    · exact h₂
  rintro ⟨all, s₃⟩ h₃
  simp only [safely_pure]
  exact (h₃.addPlist _ _).enable

/-- Pages go to the addresses of their VMA only. -/
theorem assignInVma (h : Within L s₀ s) (as : ℕ) {vma : VmArea}
    (hin : ∀ i < vma.vmaLength, L (wadd vma.vmaBegin i)) (p vaddr flags : ℕ) :
    Returns (fun r => Within L s₀ r.2) (Mm.assignPageWithVma s as vma p vaddr flags) := by
  by_cases hv : vma.vmaBegin ≤ vaddr ∧ vaddr < wadd vma.vmaBegin vma.vmaLength
  · have hlt : wadd vma.vmaBegin vma.vmaLength < 2 ^ 64 := Nat.mod_lt _ (by decide)
    have hle : wadd vma.vmaBegin vma.vmaLength ≤ vma.vmaBegin + vma.vmaLength := Nat.mod_le _ _
    have hlow := hin (vaddr - vma.vmaBegin) (by omega)
    rw [wadd_eq (by omega), Nat.add_sub_cancel' hv.1] at hlow
    exact h.assignPageWithVma as vma p hlow flags
  · rw [Mm.assignPageWithVma]
    split
    · exact h
    · rw [if_pos (by omega)]
      exact h

theorem mapNodes (h : Within L s₀ s) (as : ℕ) {vma : VmArea}
    (hin : ∀ i < vma.vmaLength, L (wadd vma.vmaBegin i)) (l : List PageList) (vaddr : ℕ) :
    Returns (Within L s₀) (mapNodes as vma l vaddr s) := by
  induction l generalizing vaddr s with
  | nil => exact h
  | cons pl rest ih =>
    simp only [Mm.mapNodes, safely_bind]
    refine Safely.mono (Q := Within L s₀) ?_ fun s₁ h₁ => ih h₁ _
    split
    · simp only [safely_bind, safely_pure]
      exact h.assignInVma as hin _ _ _
    · exact h

theorem mapToUserAs (h : Within L s₀ s) {as id vaddr : ℕ}
    (hin : ∀ plh, s.plists.lookup id = some plh →
      s.PlacesIn L as vaddr (4096 * plh.npage % 2 ^ 64) VMA_RW) :
    Returns (fun r => Within L s₀ r.2) (mapToUserAs s as id vaddr) := by
  rw [Mm.mapToUserAs, State.getPlist]
  split
  · rename_i plh hplh
    rw [ok_bind]
    split
    · trivial
    simp only [safely_bind]
    refine (h.insertVma (hin plh hplh)).mono ?_
    rintro ⟨vma, s₁⟩ ⟨h₁, -, hplaced⟩
    dsimp only at h₁ hplaced ⊢
    split
    · exact h₁
    · rename_i v
      obtain ⟨hlen, hv⟩ := hplaced v rfl
      simp only [safely_bind, safely_pure]
      exact h₁.mapNodes as (hlen ▸ hv) _ _
  · trivial

theorem pageListFree (h : Within L s₀ s) (id : ℕ) : Returns (Within L s₀) (pageListFree s id) := by
  simp only [Mm.pageListFree, safely_bind]
  refine Safely.mono (Q := fun _ => True) (by unfold State.getPlist; split <;> trivial) fun plh _ => ?_
  refine foldlM (P := fun _ => True) (fun _ _ => trivial) (fun s₁ pl h₁ _ => ?_)
    (h.congr rfl rfl rfl rfl)
  rw [freeNode]
  split
  · trivial
  rename_i p _
  simp only [safely_bind]
  refine Safely.mono (Q := Within L s₀) ?_ fun s₂ h₂ => h₂.pageUnref p false
  split
  · simp only [safely_bind, safely_pure]
    exact (returns_getPageRec s₁ p).mono fun pg hp => h₁.setOwners hp _ fun o ho => ho
  · exact h₁

/-! ## Device memory -/

theorem assignAddrs (h : Within L s₀ s) (as addr : ℕ) {vaddr : ℕ} {steps : List ℕ}
    (hin : ∀ i ∈ steps, L (wadd vaddr i)) (offset : ℕ) (vmas : List VmArea) :
    Returns (fun r => Within L s₀ r.2) (assignAddrs as addr vaddr steps offset vmas s) := by
  induction steps generalizing offset vmas s with
  | nil => exact h
  | cons i steps ih =>
    rw [Mm.assignAddrs]
    split
    · trivial
    · simp only [safely_bind]
      refine (h.assignAddrWithVma as _ _ (hin i List.mem_cons_self) _).mono ?_
      rintro ⟨ret, s₁⟩ h₁
      dsimp only at h₁ ⊢
      split
      · exact h₁
      · exact ih h₁ (fun j hj => hin j (List.mem_cons_of_mem _ hj)) _ _

theorem assignAddrRange (h : Within L s₀ s) (as addr : ℕ) {vaddr len : ℕ}
    (hin : ∀ i < len, L (wadd vaddr i)) :
    Returns (fun r => Within L s₀ r.2) (assignAddrRange s as addr vaddr len) := by
  rw [Mm.assignAddrRange]
  split
  · exact h
  simp only [safely_bind]
  refine (returns_getSpace _ as).mono fun sp _ => ?_
  split
  · exact h.disable
  simp only [safely_bind]
  refine Safely.mono (Q := fun _ => True) (safely_iff.2 ⟨fun _ _ => trivial, fun _ _ => trivial⟩)
    fun ret _ => ?_
  split
  · exact h.disable
  simp only [safely_bind]
  refine (h.disable.assignAddrs as addr (fun i hi => hin i (forall_pageSteps len i hi)) _ _).mono ?_
  rintro ⟨ret', s₁⟩ h₁
  dsimp only at h₁ ⊢
  split
  · exact h₁
  · simp only [safely_bind, safely_pure]
    exact h₁.enable

theorem undoInsert (h : Within L s₀ s) (as : ℕ) (vma : VmArea) : Within L s₀ (undoInsert s as vma) :=
  h.modifyVma as _

theorem memRequest (h : Within L s₀ s) {mreq : MemReq} {alen : ℕ}
    (hin : isAligned mreq.physAddr → s.PlacesIn L s.current mreq.destAddr alen (VMA_RW ||| VMA_HW)) :
    Returns (fun r => Within L s₀ r.2) (memRequest s mreq alen) := by
  rw [Mm.memRequest]
  split
  · exact h
  rename_i haligned
  simp only [safely_bind]
  refine (h.insertVma (hin (by simpa using haligned))).mono ?_
  rintro ⟨vma, s₁⟩ ⟨h₁, -, hplaced⟩
  dsimp only at h₁ hplaced ⊢
  split
  · exact h₁
  rename_i v
  split
  · exact h₁.undoInsert _ _
  · rename_i s₂ hs₂
    have h₂ : Within L s₀ s₂ := by
      rw [insertRange] at hs₂
      split at hs₂
      · rw [Option.some.injEq] at hs₂
        exact hs₂ ▸ h₁.congr rfl rfl rfl rfl
      · cases hs₂
    simp only [safely_bind]
    refine (h₂.assignAddrRange _ _ (hplaced v rfl).2).mono ?_
    rintro ⟨ret, s₃⟩ h₃
    dsimp only at h₃ ⊢
    split
    · trivial
    · exact h₃

theorem memPortRequest (h : Within L s₀ s) {len buf : ℕ}
    (hin : len = MEM_REQ_SIZE → buf ≠ 0 → ∀ bytes s',
      Mm.copyFromUserSimple (disableInterrupts s) buf MEM_REQ_SIZE = .ok ((0, bytes), s') →
      isAligned (MemReq.ofBytes bytes).physAddr →
      s'.PlacesIn L s'.current (MemReq.ofBytes bytes).destAddr (pageAlignUp len) (VMA_RW ||| VMA_HW)) :
    Returns (fun r => Within L s₀ r.2) (memPortRequest s len buf) := by
  rw [Mm.memPortRequest]
  split
  · exact h
  rename_i hlen
  split
  · exact h
  rename_i hbuf
  simp only [safely_bind]
  refine (h.disable.copyFromUserSimple buf MEM_REQ_SIZE).mono ?_
  rintro ⟨⟨ret, bytes⟩, s₁⟩ ⟨h₁, hr⟩
  dsimp only at h₁ hr ⊢
  simp only [safely_pure]
  refine Safely.mono (Q := fun r => Within L s₀ r.2) ?_ fun r h₂ => h₂.enable
  split
  · exact h₁
  · rename_i hret
    rw [not_not] at hret
    subst hret
    have hok := hin (not_not.1 hlen) hbuf bytes s₁ (hr rfl)
    -- the words of the request are not to be computed
    generalize MemReq.ofBytes bytes = mreq at hok ⊢
    exact h₁.memRequest hok

end Within

/-! ## Addresses of the lower half -/

/-- Bit 47 of an address is clear. -/
def LowAddr (vaddr : ℕ) : Prop := vaddr / 2 ^ 47 % 2 = 0

instance (vaddr : ℕ) : Decidable (LowAddr vaddr) := inferInstanceAs (Decidable (_ = _))

/-- The addresses with a pml4 slot below 256. -/
theorem index_lt_iff (vaddr : ℕ) : Paging.index vaddr 0 < 256 ↔ LowAddr vaddr := by
  rw [Paging.index_eq, LowAddr]
  omega

theorem slot_lt_iff (vaddr : ℕ) : slot vaddr < 2 ^ 35 ↔ LowAddr vaddr := by
  rw [slot, LowAddr]
  omega

theorem lowAddr_of_lt {vaddr : ℕ} (h : vaddr < 2 ^ 47) : LowAddr vaddr := by
  rw [LowAddr]
  omega

/-! ## Runs -/

/-- The addresses of page entries and of owners of pages have bit 47 clear. -/
structure State.LowOnly (s : State) : Prop where
  entry : ∀ a v, (s.entry a v).isSome = true → LowAddr v
  owner : ∀ p pg, s.physPages p = some pg → ∀ o ∈ pg.owner, LowAddr o.2

/-- The address spaces of `s` that are left have their page-table entries in pml4 slots from 256 on. -/
def KernelKept (s s' : State) : Prop :=
  ∀ a < s.aspacePool, (s'.spaces a).isSome = true → ∀ n, 2 ^ 35 ≤ n → s'.pte a n = s.pte a n

/-- The new addresses of a step have bit 47 clear: those of a VMA that it places, and of a
buffer that it copies to. -/
def World.LowOnly (w : World) : Op → Prop
  | .sendpage as _ dst len => ∀ a, 0 ≤ as → w.table[as.toNat]? = some (some a) →
    w.mm.PlacesIn LowAddr a dst.toNat len.toNat VMA_RW
  | .copyToUser _ buf len => len.toNat ≤ 4096 → validateRange w.mm buf.toNat len.toNat = .ok true →
    LowAddr (pageAlign buf.toNat) ∧
      (wadd (pageAlign buf.toNat) 4096 < wadd buf.toNat len.toNat →
        LowAddr (wadd (pageAlign buf.toNat) 4096))
  | .mapToUser plist vaddr => ∀ plh, w.mm.plists.lookup plist = some plh →
    w.mm.PlacesIn LowAddr w.mm.current vaddr.toNat (4096 * plh.npage % 2 ^ 64) VMA_RW
  | .memRequest len buf => len.toNat = MEM_REQ_SIZE → buf.toNat ≠ 0 → ∀ bytes s,
    copyFromUserSimple (disableInterrupts w.mm) buf.toNat MEM_REQ_SIZE = .ok ((0, bytes), s) →
    isAligned (MemReq.ofBytes bytes).physAddr →
    s.PlacesIn LowAddr s.current (MemReq.ofBytes bytes).destAddr (pageAlignUp len.toNat)
      (VMA_RW ||| VMA_HW)
  | _ => True

theorem State.LowOnly.within {s : State} (h : s.LowOnly) : Within LowAddr s s where
  entry := h.entry
  owner := h.owner
  pool := le_rfl
  pte _ _ _ _ _ := rfl

/-- A step whose new addresses have bit 47 clear. -/
theorem World.step_within {s₀ : State} {w : World} (h : Within LowAddr s₀ w.mm) {op : Op}
    (hok : w.LowOnly op) : Returns (fun w' => Within LowAddr s₀ w'.mm) (w.step op) := by
  cases op with
  | switch as =>
    rw [World.step]
    split
    · exact h.congr rfl rfl rfl rfl
    · exact h
  | asnew snapshot =>
    simp only [World.step, safely_bind, safely_pure]
    exact h.asnew w.table snapshot
  | asdestroy as =>
    simp only [World.step, safely_bind, safely_pure]
    exact h.asdestroy w.table as
  | destroy as =>
    rw [World.step]
    split
    · simp only [safely_bind, safely_pure]
      exact h.destroyAs as
    · exact h
  | read vaddr =>
    simp only [World.step, safely_bind, safely_pure]
    exact h.userRead (fun v => lowAddr_of_lt) _
  | write vaddr b =>
    simp only [World.step, safely_bind, safely_pure]
    exact h.userWrite (fun v => lowAddr_of_lt) _ b
  | sendpage as vaddr dst len =>
    simp only [World.step, safely_bind, safely_pure]
    exact h.sendpage hok
  | munmap base len =>
    simp only [World.step, safely_bind, safely_pure]
    exact h.munmap _ _
  | copyToUser src buf len =>
    simp only [World.step, safely_bind, safely_pure]
    exact h.copyToUserSimple hok
  | mapFromUser buf len =>
    simp only [World.step, safely_bind, safely_pure]
    exact h.mapFromUser _ _
  | mapToUser plist vaddr =>
    simp only [World.step, safely_bind, safely_pure]
    exact h.mapToUserAs hok
  | pageListFree plist =>
    simp only [World.step, safely_bind, safely_pure]
    exact h.pageListFree plist
  | memRequest len buf =>
    simp only [World.step, safely_bind, safely_pure]
    exact h.memPortRequest hok

/-- The kernel half is what the addresses with bit 47 clear do not reach. -/
theorem Within.kernelKept {s₀ s : State} (h : Within LowAddr s₀ s) : KernelKept s₀ s := by
  intro a ha hlive n hn
  refine h.pte a ha hlive n fun v hv heq => ?_
  have := (slot_lt_iff v).2 hv
  omega

/-- A test under which the new addresses of a step have bit 47 clear.  Copies, page lists and
device memory do not pass it. -/
def World.lowCheck (w : World) : Op → Bool
  | .sendpage as _ dst len => match w.table[as.toNat]? with
    | some (some a) => decide (w.mm.placedAt a dst.toNat len.toNat + len.toNat ≤ 2 ^ 47)
    | _ => true
  | .copyToUser .. => false
  | .mapToUser .. => false
  | .memRequest .. => false
  | _ => true

theorem lowOnly_of_check {w : World} {op : Op} (h : w.lowCheck op = true) : w.LowOnly op := by
  cases op with
  | sendpage as vaddr dst len =>
    intro a _ ha sp _ _ i hi
    simp only [World.lowCheck, ha, decide_eq_true_eq] at h
    refine lowAddr_of_lt (lt_of_le_of_lt (Nat.mod_le _ _) ?_)
    omega
  | copyToUser src buf len => cases h
  | mapToUser plist vaddr => cases h
  | memRequest len buf => cases h
  | switch as => trivial
  | asnew snapshot => trivial
  | asdestroy as => trivial
  | destroy as => trivial
  | read vaddr => trivial
  | write vaddr b => trivial
  | munmap base len => trivial
  | mapFromUser buf len => trivial
  | pageListFree plist => trivial

/-- The direct map: slot 257 of the pml4 maps the physical memory, here in 4K pages. -/
def directMap (n : ℕ) : Option Pte :=
  if n / 2 ^ 27 = 257 then some ⟨n % 2 ^ 27 * 4096, true⟩ else none

/-- `World.boot` with the direct map in the page table. -/
def World.bootMapped (free : List ℕ) (zeroPage : ℕ) : World :=
  { World.boot free zeroPage with
    mm := { (World.boot free zeroPage).mm with pte := fun _ => directMap } }

theorem lowOnly_boot (free : List ℕ) (zeroPage : ℕ) : (World.bootMapped free zeroPage).mm.LowOnly := by
  have hempty : (State.boot free zeroPage).LowOnly := by
    refine ⟨fun a v hv => by simp [State.boot, State.entry] at hv, fun p pg hp o ho => ?_⟩
    simp only [State.boot, Function.update_apply] at hp
    split at hp
    · cases hp
      cases ho
    · cases hp
  have h := hempty.within.aspaceNew
  exact ⟨h.entry, h.owner⟩

end SadOS.Mm
