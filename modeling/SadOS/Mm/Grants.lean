import SadOS.Mm.Balance
import SadOS.Mm.Unmap
import SadOS.Mm.VmaList

/-!
# Grants of device memory

The VMA of a request is as long as the request is when it is rounded up, not as the memory
that it asks for.  What is mapped there is right, and a request that fails leaves the lists
as they were.

## Main definitions

* `InsertedAt` — a list with one VMA more, at any place.
* `SameLists` — the VMAs and the ranges in use are as they were.
* `Maps` — each page of a range is the one at the same offset of another.

## Main results

* `InsertedAt.undo` — the insertion is undone.
* `assignAddrRange_maps` — the loop over the pages.
* `memPortRequest_maps`, `memPortRequest_undone` — requests that succeed and that fail.
-/

namespace SadOS.Mm

/-! ## Insertion, undone -/

/-- `l'` is `l`, the list that `start` points to, with the VMA `v` somewhere, where the link `now`
points to it. -/
def InsertedAt (start : Link) (v : VmArea) (l l' : List VmArea) : Prop :=
  ∃ l₁ l₂ now, l = l₁ ++ l₂ ∧ l' = l₁ ++ { v with prev := now } :: setPrev (.next v.id) l₂ ∧
    (Backs start l → Backs now l₂)

section Undo

variable {start : Link} {v w : VmArea} {l l' : List VmArea}

theorem InsertedAt.head : InsertedAt start v l
    ({ v with prev := start } :: setPrev (.next v.id) l) :=
  ⟨[], l, start, rfl, rfl, id⟩

theorem InsertedAt.cons (h : InsertedAt (.next w.id) v l l') :
    InsertedAt start v (w :: l) (w :: l') := by
  obtain ⟨l₁, l₂, now, rfl, rfl, hbacks⟩ := h
  exact ⟨w :: l₁, l₂, now, rfl, rfl, fun hb => hbacks hb.2⟩

theorem aspaceAddVma_inserted (h : aspaceAddVma v start l = some l') : InsertedAt start v l l' := by
  induction l generalizing start l' with
  | nil =>
    cases h
    exact InsertedAt.head
  | cons w rest ih =>
    rw [aspaceAddVma] at h
    split at h
    · cases h
      exact InsertedAt.head
    split at h
    · cases h
    · obtain ⟨l₁, hrest, rfl⟩ := Option.map_eq_some_iff.1 h
      exact (ih hrest).cons

theorem insertAtGap_inserted (v : VmArea) (len nowAddr : ℕ) (start : Link) (l : List VmArea) :
    InsertedAt start v l (insertAtGap v len nowAddr start l) := by
  induction l generalizing nowAddr start with
  | nil => exact InsertedAt.head
  | cons w rest ih =>
    rw [insertAtGap]
    split
    · exact InsertedAt.head
    · exact (ih _ _).cons

theorem setPrev_of_backs (h : Backs start l) : setPrev start l = l := by
  cases l with
  | nil => rfl
  | cons w rest => rw [setPrev, ← h.1]

/-- The list as it was, up to the back link that was overwritten. -/
theorem InsertedAt.undo (h : InsertedAt start v l l') (hnew : v.id ∉ idsOf l) :
    (unlinkVma v.id ((l'.find? fun w => w.id = v.id).elim v.prev VmArea.prev) l').map VmArea.core =
        l.map VmArea.core ∧
      (Backs start l →
        unlinkVma v.id ((l'.find? fun w => w.id = v.id).elim v.prev VmArea.prev) l' = l) := by
  obtain ⟨l₁, l₂, now, rfl, rfl, hbacks⟩ := h
  have hnew₁ : v.id ∉ idsOf l₁ := fun hin => hnew (by
    rw [idsOf, List.map_append]
    exact List.mem_append_left _ hin)
  -- the VMA with the new address is the one that was inserted
  have hfind : (l₁ ++ { v with prev := now } :: setPrev (.next v.id) l₂).find?
      (fun w => decide (w.id = v.id)) = some { v with prev := now } := by
    rw [List.find?_append, List.find?_eq_none.2, Option.none_or, List.find?_cons_of_pos (by simp)]
    intro w hw
    have := mem_idsOf hw
    simp only [decide_eq_true_eq]
    exact fun heq => hnew₁ (heq ▸ this)
  rw [hfind, Option.elim_some, unlinkVma_append (v := v) (w := { v with prev := now }) rfl hnew₁,
    setPrev_setPrev]
  constructor
  · rw [List.map_append, List.map_append, core_setPrev]
  · intro hb
    rw [setPrev_of_backs (hbacks hb)]

end Undo

/-! ## Pages -/

/-- Each page of the `len` addresses from `vaddr` on is the one at the same offset from `addr`,
shared and of a device. -/
def Maps (s : State) (as vaddr addr len : ℕ) : Prop :=
  ∀ i ∈ pageSteps 0 len,
    s.entry as (wadd vaddr i) = some ⟨wadd addr i, PF_SHARED ||| PF_HARDWARE⟩

theorem assignAddrWithVma_entry (s : State) (as : ℕ) (vma : VmArea) (addr vaddr flags : ℕ) :
    Returns (fun r => r.1 = 0 → r.2.entry = updEnt s.entry as vaddr (some ⟨addr, flags⟩))
      (assignAddrWithVma s as vma addr vaddr flags) := by
  unfold assignAddrWithVma
  split
  · intro hret
    cases hret
  split
  · intro hret
    cases hret
  simp only [safely_bind, safely_pure]
  apply (quiet_managePhysPage s addr).mono
  intro s₁ h₁
  apply (effect_assignPageNoAddrCheck s₁ as addr vaddr vma.id flags).mono
  rintro s₂ ⟨s₁', hold, hnew⟩
  apply (quiet_pageUnref s₂ addr false).mono
  intro s₃ h₃ _
  rw [h₃.entry, hnew.entry, hold.entry, h₁.entry]
  ext a v
  rw [updEnt_apply, updEnt_apply, updEnt_apply]
  split <;> rfl

/-- The loop of `address_space_assign_addr_range`, for offsets that lead to different pages. -/
theorem assignAddrs_entry (as addr vaddr : ℕ) (steps : List ℕ) (offset : ℕ) (vmas : List VmArea)
    (s : State) (hnodup : (steps.map (wadd vaddr)).Nodup) :
    Returns (fun r => r.1 = 0 →
      (∀ i ∈ steps, r.2.entry as (wadd vaddr i) = some ⟨wadd addr i, PF_SHARED ||| PF_HARDWARE⟩) ∧
      ∀ v ∉ steps.map (wadd vaddr), r.2.entry as v = s.entry as v)
      (assignAddrs as addr vaddr steps offset vmas s) := by
  induction steps generalizing offset vmas s with
  | nil => exact fun _ => ⟨by simp, fun _ _ => rfl⟩
  | cons i steps ih =>
    rw [List.map_cons, List.nodup_cons] at hnodup
    unfold assignAddrs
    split
    · trivial
    rename_i offset' cvma rest _
    simp only [safely_bind]
    apply (assignAddrWithVma_entry s as cvma _ _ _).mono
    rintro ⟨ret, s₁⟩ hentry
    dsimp only at hentry ⊢
    split
    · rename_i hret
      exact fun hzero => absurd hzero hret
    rename_i hret
    have hentry := hentry (not_not.1 hret)
    apply (ih offset' (cvma :: rest) s₁ hnodup.2).mono
    intro r hr hzero
    obtain ⟨hsteps, hothers⟩ := hr hzero
    constructor
    · intro j hj
      rcases List.mem_cons.1 hj with rfl | hj
      · -- the later pages are others
        rw [hothers _ hnodup.1, hentry, updEnt_self]
      · exact hsteps j hj
    · intro v hv
      rw [List.map_cons, List.mem_cons, not_or] at hv
      rw [hothers v hv.2, hentry, updEnt_apply, if_neg]
      simpa using hv.1

theorem nodup_pageSteps {len : ℕ} (hlen : len ≤ 2 ^ 64) (vaddr : ℕ) :
    ((pageSteps 0 len).map (wadd vaddr)).Nodup := by
  refine List.Nodup.map_on ?_ ?_
  · intro i hi j hj heq
    have hi := forall_pageSteps len i hi
    have hj := forall_pageSteps len j hj
    simp only [wadd] at heq
    omega
  · refine List.Nodup.map (fun i j heq => ?_) List.nodup_range
    omega

/-- A range that is assigned maps the other one. -/
theorem assignAddrRange_maps (s : State) (as addr vaddr : ℕ) {len : ℕ} (hlen : len ≤ 2 ^ 64) :
    Returns (fun r => 0 ≤ r.1 → Maps r.2 as vaddr addr len)
    (assignAddrRange s as addr vaddr len) := by
  unfold assignAddrRange
  split
  · simp
  simp only [safely_bind]
  apply (returns_getSpace _ as).mono
  intro sp _
  split
  · simp
  rename_i cvma rest _
  simp only [safely_bind]
  apply (nonpos_checkVmas _ _).mono
  intro ret hle
  split
  · intro hpos
    omega
  simp only [safely_bind]
  apply ((lifts_assignAddrs as addr vaddr _ 0 (cvma :: rest) (disableInterrupts s)).and
    (assignAddrs_entry as addr vaddr _ 0 (cvma :: rest) (disableInterrupts s)
      (nodup_pageSteps hlen vaddr))).mono
  rintro ⟨ret', s₁⟩ ⟨⟨hle', -⟩, h₁⟩
  dsimp only at hle' h₁ ⊢
  split
  · intro hpos
    dsimp only at hpos
    omega
  rename_i hret
  have h₁ := (h₁ (not_not.1 hret)).1
  simp only [safely_bind, safely_pure]
  unfold enableInterrupts
  split
  · trivial
  · exact fun _ => h₁

/-! ## Requests -/

/-- The VMAs of an address space are as they were, up to back links that were wrong. -/
def SameVmas (sp sp' : AddressSpace) : Prop :=
  (∀ id ∈ idsOf sp.vma, id < sp.vmaPool) →
    sp'.vma.map VmArea.core = sp.vma.map VmArea.core ∧ (Backs .head sp.vma → sp'.vma = sp.vma)

/-- The VMAs of all address spaces and the ranges in use are as they were. -/
structure SameLists (s s' : State) : Prop where
  freeRange : s'.freeRange = s.freeRange
  vmas : ∀ a sp, s.spaces a = some sp → ∃ sp', s'.spaces a = some sp' ∧ SameVmas sp sp'

theorem SameVmas.of_eq {sp sp' : AddressSpace} (h : sp'.vma = sp.vma) : SameVmas sp sp' :=
  fun _ => ⟨by rw [h], fun _ => h⟩

theorem SameLists.of_spaces {s s' : State} (hrange : s'.freeRange = s.freeRange)
    (hspaces : s'.spaces = s.spaces) : SameLists s s' :=
  ⟨hrange, fun _ sp hsp => ⟨sp, hspaces ▸ hsp, SameVmas.of_eq rfl⟩⟩

/-- One address space differs. -/
theorem SameLists.setSpace {s s' : State} {as : ℕ} {sp sp' : AddressSpace}
    (hsp : s.spaces as = some sp)
    (hrange : s'.freeRange = s.freeRange)
    (hspaces : s'.spaces = Function.update s.spaces as (some sp'))
    (hsame : SameVmas sp sp') : SameLists s s' := by
  refine ⟨hrange, fun a sp₀ hsp₀ => ?_⟩
  rw [hspaces]
  by_cases ha : a = as
  · subst ha
    rw [hsp, Option.some.injEq] at hsp₀
    subst hsp₀
    exact ⟨sp', Function.update_self .., hsame⟩
  · exact ⟨sp₀, by rw [Function.update_of_ne ha, hsp₀], SameVmas.of_eq rfl⟩

/-- What an insertion did. -/
def Placed (s : State) (as : ℕ) : Except ℤ VmArea × State → Prop
  | (.error _, s') => SameLists s s'
  | (.ok vma, s') => ∃ sp l, s.spaces as = some sp ∧ vma.id = sp.vmaPool ∧
      InsertedAt .head vma sp.vma l ∧
      s' = s.setSpace as { sp with vmaPool := sp.vmaPool + 1, vma := l }

theorem insertVma_placed (s : State) (as dest len flags : ℕ) :
    Returns (Placed s as) (if dest ≠ 0 then insertVmaToVaddr s as dest len flags
      else insertVmaToAny s as len flags) := by
  cases hsp : s.spaces as with
  | none =>
    have hbad : (disableInterrupts s).getSpace as = .error .badPointer := by
      rw [State.getSpace, show (disableInterrupts s).spaces as = none from hsp]
    split
    · rw [insertVmaToVaddr, hbad]
      trivial
    · rw [insertVmaToAny, hbad]
      trivial
  | some sp =>
  have hpool : ∀ v : ℤ, Placed s as (.error v, s.setSpace as
    { sp with vmaPool := sp.vmaPool + 1 }) :=
    fun _ => SameLists.setSpace hsp rfl rfl (SameVmas.of_eq rfl)
  split
  · rw [insertVmaToVaddr_eq hsp, Returns, safely_ok]
    split
    · exact hpool _
    split
    · exact hpool _
    split
    · exact hpool _
    · rename_i l hadd
      exact ⟨sp, l, hsp, rfl, aspaceAddVma_inserted hadd, rfl⟩
  · rw [insertVmaToAny_eq hsp, Returns, safely_ok]
    dsimp only
    split
    · exact SameLists.of_spaces rfl rfl
    · exact ⟨sp, _, hsp, rfl, insertAtGap_inserted _ _ _ _ _, rfl⟩

/-- The insertion is undone. -/
theorem undoInsert_same {s s' : State} {as : ℕ} {vma : VmArea} (h : Placed s as (.ok vma, s')) :
    SameLists s (undoInsert s' as vma) ∧ (undoInsert s' as vma).current = s.current := by
  obtain ⟨sp, l, hsp, hid, hins, rfl⟩ := h
  rw [undoInsert, State.modifyVma, show (s.setSpace as
    { sp with vmaPool := sp.vmaPool + 1, vma := l }).spaces
    as = some { sp with vmaPool := sp.vmaPool + 1, vma := l } from Function.update_self ..]
  refine ⟨SameLists.setSpace hsp rfl (Function.update_idem ..) fun hlt => hins.undo
    fun hin => ?_, rfl⟩
  have := hlt _ hin
  omega

theorem insertRange_spaces {s s' : State} {base len : ℕ} (h : insertRange s base len = some s') :
    s'.spaces = s.spaces ∧ s'.current = s.current := by
  unfold insertRange at h
  split at h
  · cases h
    exact ⟨rfl, rfl⟩
  · cases h

/-- What a request did: the pages are mapped, or the lists are as they were. -/
def Answered (s : State) (mreq : MemReq) (alen : ℕ) (r : (ℤ × Option (ℕ × ℕ)) × State) : Prop :=
  (r.1.1 = 0 → ∃ vaddr, r.1.2 = some (vaddr, alen) ∧
    Maps r.2 s.current vaddr mreq.physAddr alen) ∧
  (r.1.1 ≠ 0 → r.1.2 = none ∧ SameLists s r.2)

theorem Answered.failed {s s' : State} {ret : ℤ} (hret : ret ≠ 0) (h : SameLists s s')
    (mreq : MemReq)
    (alen : ℕ) : Answered s mreq alen ((ret, none), s') :=
  ⟨fun hzero => absurd hzero hret, fun _ => ⟨rfl, h⟩⟩

theorem memRequest_answered (s : State) (mreq : MemReq) {alen : ℕ} (halen : alen ≤ 2 ^ 64) :
    Returns (Answered s mreq alen) (memRequest s mreq alen) := by
  unfold memRequest
  split
  · exact Answered.failed (by decide) (SameLists.of_spaces rfl rfl) _ _
  simp only [safely_bind]
  apply (insertVma_placed s s.current mreq.destAddr alen _).mono
  rintro ⟨vma, s₁⟩ h₁
  cases vma with
  | error e => exact Answered.failed (by decide) h₁ _ _
  | ok vma =>
  have hcur : s₁.current = s.current := by
    obtain ⟨sp, l, -, -, -, rfl⟩ := h₁
    rfl
  dsimp only
  cases hrange : insertRange s₁ mreq.physAddr alen with
  | none =>
    rw [hcur]
    exact Answered.failed (by decide) (undoInsert_same h₁).1 _ _
  | some s₂ =>
    have hcur₂ := (insertRange_spaces hrange).2.trans hcur
    simp only [safely_bind]
    apply (assignAddrRange_maps s₂ s₂.current mreq.physAddr vma.vmaBegin halen).mono
    rintro ⟨ret, s₃⟩ h₃
    dsimp only at h₃ ⊢
    split
    · trivial
    · rename_i hret
      rw [hcur₂] at h₃
      exact ⟨fun _ => ⟨_, rfl, h₃ (not_lt.1 hret)⟩, fun hne => absurd rfl hne⟩

/-- The request that a client makes, in its memory at `buf`. -/
def State.memReqAt (s : State) (buf : ℕ) : MemReq := MemReq.ofBytes (s.userBytes buf MEM_REQ_SIZE)

/-- **A request to the memory port**: if it succeeds, then the VMA of the response has one page,
which is the one that was asked for. -/
theorem memPortRequest_answered (s : State) (len buf : ℕ) :
    Returns (Answered s (s.memReqAt buf) 4096) (memPortRequest s len buf) := by
  unfold memPortRequest
  split
  · exact Answered.failed (by decide) (SameLists.of_spaces rfl rfl) _ _
  rename_i hlen
  split
  · exact Answered.failed (by decide) (SameLists.of_spaces rfl rfl) _ _
  have halen : (4096 : ℕ) ≤ 2 ^ 64 := by norm_num
  dsimp only
  rw [copyFromUserSimple_eq _ (show MEM_REQ_SIZE ≤ 4096 by decide), not_not.1 hlen,
    show pageAlignUp MEM_REQ_SIZE = 4096 by decide,
    show (disableInterrupts s).userBytes = s.userBytes from rfl, State.memReqAt]
  generalize (4096 : ℕ) = alen at halen ⊢
  -- the end of the section
  have henable : ∀ {mreq : MemReq} {r : ℤ × Option (ℕ × ℕ)} {s₁ : State},
      Answered (disableInterrupts s) mreq alen (r, s₁) →
      Returns (fun s₂ => Answered s mreq alen (r, s₂)) (enableInterrupts s₁) := by
    intro mreq r s₁ h₁
    unfold enableInterrupts
    split
    · trivial
    · exact ⟨h₁.1, fun hret => ⟨(h₁.2 hret).1, (h₁.2 hret).2.freeRange, (h₁.2 hret).2.vmas⟩⟩
  cases validateRange (disableInterrupts s) buf MEM_REQ_SIZE with
  | error e => trivial
  | ok valid =>
    cases valid with
    | false =>
      exact henable (Answered.failed (show (-1 : ℤ) ≠ 0 by decide)
        (SameLists.of_spaces rfl rfl) _ _)
    | true =>
      simp only [Except.map, ok_bind, safely_bind, safely_pure, if_true, ne_eq, not_true_eq_false,
        if_false]
      generalize MemReq.ofBytes _ = mreq
      apply (memRequest_answered (disableInterrupts s) mreq halen).mono
      rintro ⟨r, s₁⟩ h₁
      exact henable h₁

end SadOS.Mm
