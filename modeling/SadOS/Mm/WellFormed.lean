import SadOS.Mm.Layout

/-!
# VMA lists over runs

The VMA list of every address space stays sorted, without overlaps and inside its
address space over every run whose insertions end inside the address space and whose
removals do not wrap into a VMA.  The checks of the source compare begins with the
bounds of the address space, and sums of user values modulo `2 ^ 64` with each other.

## Main definitions

* `State.AllLaid` — the VMA lists of all address spaces are right.
* `AddressSpace.FitsAt`, `AddressSpace.FitsAny` — an insertion ends where it may.
* `World.Fits` — the condition on a step.
* `wellFormed_of_fits` — runs of steps that meet it.
* `World.fitsCheck` — a test under which a step meets it.
* `wellFormed_fails` — a VMA from the last page of an address space on.
-/

namespace SadOS.Mm

/-- The VMAs of every address space are right. -/
def State.AllLaid (s : State) : Prop := ∀ a sp, s.spaces a = some sp → sp.Laid

/-- A VMA at `vaddr` is refused, or overlaps another, or ends in the address space. -/
def AddressSpace.FitsAt (sp : AddressSpace) (vaddr len : ℕ) : Prop :=
  vaddr % 4096 = 0 → sp.lowAddr ≤ vaddr → vaddr ≤ sp.highAddr →
    (∃ v ∈ sp.vma, v.vmaBegin < wadd vaddr len ∧ vaddr < v.vmaBegin + v.vmaLength) ∨
      vaddr + len ≤ sp.highAddr

/-- The gap that `insert_vma_to_any` takes does not wrap. -/
def AddressSpace.FitsAny (sp : AddressSpace) (len : ℕ) : Prop :=
  ((findGap len sp.lowAddr sp.vma).2 = false →
    wadd (findGap len sp.lowAddr sp.vma).1 len ≤ sp.highAddr) →
  (findGap len sp.lowAddr sp.vma).1 + len < 2 ^ 64

/-- An insertion at `vaddr`, or anywhere for zero. -/
def State.Fits (s : State) (as vaddr len : ℕ) : Prop :=
  ∀ sp, s.spaces as = some sp → (vaddr ≠ 0 → sp.FitsAt vaddr len) ∧ (vaddr = 0 → sp.FitsAny len)

/-- An overlap is found. -/
theorem aspaceAddVma_overlap {hi lo : ℕ} {vma : VmArea} {now : Link} {l : List VmArea}
    (h : Chain hi lo (spansOf l)) (hhi : hi < 2 ^ 64) {v : VmArea} (hv : v ∈ l)
    (hbegin : v.vmaBegin < wadd vma.vmaBegin vma.vmaLength)
    (hend : vma.vmaBegin < v.vmaBegin + v.vmaLength) : aspaceAddVma vma now l = none := by
  induction l generalizing lo now with
  | nil => cases hv
  | cons w rest ih =>
    rw [spansOf_cons, chain_cons] at h
    obtain ⟨hw, hw', hrest⟩ := h
    have hwhi : w.vmaBegin + w.vmaLength ≤ hi := hrest.lo_le_hi
    rw [aspaceAddVma, wadd_eq (a := w.vmaBegin) (by omega)]
    rcases List.mem_cons.1 hv with rfl | hv
    · rw [if_neg (by omega), if_pos ⟨hend, hbegin⟩]
    · have hvw := (hrest.bounds v.span (List.mem_map_of_mem hv)).1
      simp only [VmArea.span] at hvw
      rw [if_neg (by omega)]
      split
      · rfl
      · rw [ih hrest hv, Option.map_none]

namespace AddressSpace.Laid

variable {sp : AddressSpace} {vaddr len flags : ℕ}

theorem bumpPool (h : sp.Laid) : AddressSpace.Laid { sp with vmaPool := sp.vmaPool + 1 } :=
  ⟨h.ids, fun id hid => Nat.lt_succ_of_lt (h.id_lt id hid), h.chain, h.low, h.high⟩

/-- One VMA more. -/
theorem addVma (h : sp.Laid) {l : List VmArea}
    (hl : (l.map VmArea.core).Perm ((sp.newVma vaddr len flags).core :: sp.vma.map VmArea.core))
    (hchain : Chain sp.highAddr sp.lowAddr (spansOf l)) :
    AddressSpace.Laid { sp with vma := l, vmaPool := sp.vmaPool + 1 } := by
  have hids := idsOf_of_core hl
  refine ⟨?_, ?_, hchain, h.low, h.high⟩
  · refine hids.nodup_iff.2 (List.nodup_cons.2 ⟨fun hmem => ?_, h.ids⟩)
    exact lt_irrefl _ (h.id_lt _ hmem)
  · intro id hid
    rcases List.mem_cons.1 (hids.mem_iff.1 hid) with rfl | hid
    · exact Nat.lt_succ_self _
    · exact Nat.lt_succ_of_lt (h.id_lt id hid)

/-- `insert_vma_to_vaddr`. -/
theorem insertAt (h : sp.Laid) (hfits : sp.FitsAt vaddr len) (haligned : vaddr % 4096 = 0)
    (hlow : sp.lowAddr ≤ vaddr) (hhigh : vaddr ≤ sp.highAddr) {l : List VmArea}
    (hadd : aspaceAddVma (sp.newVma vaddr len flags) .head sp.vma = some l) :
    AddressSpace.Laid { sp with vma := l, vmaPool := sp.vmaPool + 1 } := by
  refine h.addVma (core_aspaceAddVma hadd) ?_
  rcases hfits haligned hlow hhigh with ⟨v, hv, hbegin, hend⟩ | hend
  · rw [aspaceAddVma_overlap h.chain h.high_lt hv hbegin hend] at hadd
    cases hadd
  · exact chain_aspaceAddVma h.chain h.high_lt hlow hend hadd

/-- `insert_vma_to_any`. -/
theorem insertAny (h : sp.Laid) (hfits : sp.FitsAny len)
    (hgap : ¬((findGap len sp.lowAddr sp.vma).2 = false ∧
      sp.highAddr < wadd (findGap len sp.lowAddr sp.vma).1 len)) :
    AddressSpace.Laid { sp with
      vmaPool := sp.vmaPool + 1
      vma := insertAtGap (sp.newVma (findGap len sp.lowAddr sp.vma).1 len flags) len sp.lowAddr .head
        sp.vma } := by
  rw [not_and, not_lt] at hgap
  exact h.addVma (core_insertAtGap ..) (chain_insertAtGap h.chain h.high_lt rfl rfl (hfits hgap) hgap)

end AddressSpace.Laid

theorem unlinkVma_of_not_mem {id : ℕ} {l : List VmArea} (h : id ∉ idsOf l) (nowp : Link) :
    unlinkVma id nowp l = l := by
  induction l with
  | nil => rfl
  | cons v rest ih =>
    rw [idsOf_cons, List.mem_cons, not_or] at h
    rw [unlinkVma, if_neg (Ne.symm h.1), ih h.2]

/-- A VMA goes, if it is there. -/
theorem AddressSpace.Laid.remove {sp : AddressSpace} (h : sp.Laid) (id : ℕ) (nowp : Link) :
    AddressSpace.Laid { sp with vma := unlinkVma id nowp sp.vma } := by
  by_cases hid : id ∈ idsOf sp.vma
  · obtain ⟨v, hv, rfl⟩ := List.mem_map.1 hid
    obtain ⟨done, rest, hvma⟩ := List.append_of_mem hv
    exact (h.unlink (show posOf sp.vma = posOf done ++ v.pos :: posOf rest by rw [hvma]; simp [posOf]) nowp).1
  · rw [unlinkVma_of_not_mem hid]
    exact h

namespace State.AllLaid

variable {s s' : State}

theorem of_shape (h : s.AllLaid) (hs : SameShape s s') : s'.AllLaid := by
  intro a sp hsp
  have hshape := hs.shape a
  rw [hsp, Option.map_some, eq_comm, Option.map_eq_some_iff] at hshape
  obtain ⟨sp₀, hsp₀, heq⟩ := hshape
  exact (h a sp₀ hsp₀).of_shape heq.symm

theorem of_frame (h : s.AllLaid) (hf : Frame s s') : s'.AllLaid := h.of_shape hf.sameShape

theorem setSpace (h : s.AllLaid) (as : ℕ) {sp : AddressSpace} (hsp : sp.Laid) :
    (s.setSpace as sp).AllLaid := by
  intro a sp' hsp'
  simp only [State.setSpace, Function.update_apply] at hsp'
  split at hsp'
  · rw [Option.some.injEq] at hsp'
    exact hsp' ▸ hsp
  · exact h a sp' hsp'

theorem enable (h : s.AllLaid) : Returns State.AllLaid (enableInterrupts s) := by
  unfold enableInterrupts
  split
  · simp
  · exact h

/-! ## Insertion -/

theorem insertVmaToVaddr (h : s.AllLaid) {as vaddr len : ℕ} (flags : ℕ)
    (hfits : ∀ sp, s.spaces as = some sp → sp.FitsAt vaddr len) :
    Returns (fun r => r.2.AllLaid) (insertVmaToVaddr s as vaddr len flags) := by
  cases hsp : s.spaces as with
  | none =>
    have hbad : (disableInterrupts s).getSpace as = .error .badPointer := by
      simp [State.getSpace, disableInterrupts, hsp]
    unfold Mm.insertVmaToVaddr
    dsimp only
    rw [hbad]
    trivial
  | some sp =>
    have hbump := h.setSpace as (h as sp hsp).bumpPool
    rw [insertVmaToVaddr_eq hsp]
    simp only [safely_ok]
    split
    · exact hbump
    rename_i haligned
    split
    · exact hbump
    rename_i hbounds
    split
    · exact hbump
    · rename_i l hadd
      exact h.setSpace as ((h as sp hsp).insertAt (hfits sp hsp) (by omega) (by omega) (by omega) hadd)

theorem insertVmaToAny (h : s.AllLaid) {as len : ℕ} (flags : ℕ)
    (hfits : ∀ sp, s.spaces as = some sp → sp.FitsAny len) :
    Returns (fun r => r.2.AllLaid) (insertVmaToAny s as len flags) := by
  cases hsp : s.spaces as with
  | none =>
    have hbad : (disableInterrupts s).getSpace as = .error .badPointer := by
      simp [State.getSpace, disableInterrupts, hsp]
    unfold Mm.insertVmaToAny
    dsimp only
    rw [hbad]
    trivial
  | some sp =>
    rw [insertVmaToAny_eq hsp]
    simp only [safely_ok]
    split
    · exact h
    · rename_i hgap
      exact h.setSpace as ((h as sp hsp).insertAny (hfits sp hsp) hgap)

theorem insertVma (h : s.AllLaid) {as vaddr len : ℕ} (flags : ℕ) (hfits : s.Fits as vaddr len) :
    Returns (fun r => r.2.AllLaid)
      (if vaddr ≠ 0 then Mm.insertVmaToVaddr s as vaddr len flags
        else Mm.insertVmaToAny s as len flags) := by
  split
  · rename_i h0
    exact h.insertVmaToVaddr flags fun sp hsp => (hfits sp hsp).1 h0
  · rename_i h0
    exact h.insertVmaToAny flags fun sp hsp => (hfits sp hsp).2 (not_not.1 h0)

theorem mapToUserAs (h : s.AllLaid) {as id vaddr : ℕ}
    (hfits : ∀ plh, s.plists.lookup id = some plh → s.Fits as vaddr (4096 * plh.npage % 2 ^ 64)) :
    Returns (fun r => r.2.AllLaid) (mapToUserAs s as id vaddr) := by
  unfold Mm.mapToUserAs State.getPlist
  split
  · rename_i plh hplh
    rw [ok_bind]
    split
    · simp
    simp only [safely_bind]
    refine (h.insertVma VMA_RW (hfits plh hplh)).mono ?_
    rintro ⟨r, s₁⟩ h₁
    dsimp only at h₁ ⊢
    split
    · exact h₁
    · simp only [safely_bind, safely_pure]
      exact (frame_mapNodes as _ _ _ s₁).mono fun s₂ hf => h₁.of_frame hf
  · trivial

theorem sendpageTo (h : s.AllLaid) {as vaddr dst len : ℕ}
    (hfits : isAligned vaddr → isAligned len → (vaddr ≠ 0 → validateRange s vaddr 4096 = .ok true) →
      s.Fits as dst len) : Returns (fun r => r.2.AllLaid) (sendpageTo s as vaddr dst len) := by
  unfold Mm.sendpageTo
  split
  · exact h
  rename_i haligned
  obtain ⟨hv, hl⟩ : isAligned vaddr = true ∧ isAligned len = true := by simpa [not_or] using haligned
  have hvalid : Returns (fun ok => ok = true → (vaddr ≠ 0 → validateRange s vaddr 4096 = .ok true))
      (if vaddr ≠ 0 then validateRange s vaddr 4096 else .ok true) := by
    split
    · refine safely_iff.2 ⟨fun ok hok htrue _ => ?_, fun _ _ => trivial⟩
      rw [hok, htrue]
    · rename_i h0
      exact fun _ hne => absurd hne h0
  simp only [safely_bind]
  refine hvalid.mono fun ok hok => ?_
  split
  · exact h
  rename_i htrue
  simp only [safely_bind]
  refine (h.insertVma VMA_RW (hfits hv hl (hok (by simpa using htrue)))).mono ?_
  rintro ⟨r, s₁⟩ h₁
  dsimp only at h₁ ⊢
  split
  · exact h₁
  rename_i vma
  simp only [safely_bind, safely_pure]
  split
  · refine safely_foldlM (fun _ s' => State.AllLaid s') h₁ ?_
    intro i rest s₂ h₂
    unfold sendOne
    split
    · simp only [safely_bind, safely_pure]
      exact (frame_assignPage s₂ _ _ _ _).mono fun r hf => h₂.of_frame hf
    · exact h₂
  · exact h₁

/-! ## Removal -/

theorem removeVmaRange (h : s.AllLaid) {as base len : ℕ}
    (hcut : isAligned base → isAligned len → ∀ sp, s.spaces as = some sp → CutOk base len sp.vma) :
    Returns State.AllLaid (removeVmaRange s as base len) := by
  have hlaid : Returns (fun s' => s'.LaidAt as) (Mm.removeVmaRange s as base len) := by
    unfold Mm.removeVmaRange
    split
    · rename_i haligned
      simp only [safely_bind]
      refine (returns_getSpace s as).mono fun sp hsp => ?_
      exact laid_removeVmaRangeFrom [] hsp (h as sp hsp) rfl
        (hcut haligned.1 haligned.2 sp hsp)
    · simp
  refine (hlaid.and (effect_removeVmaRange s as base len)).mono ?_
  rintro s' ⟨⟨sp', hsp', hl'⟩, _, _, htrim⟩ a sp hsp
  by_cases ha : a = as
  · subst ha
    rw [hsp', Option.some.injEq] at hsp
    exact hsp ▸ hl'
  · rw [htrim.other a ha] at hsp
    exact h a sp hsp

theorem destroyAs (h : s.AllLaid) (as : ℕ) : Returns State.AllLaid (destroyAs s as) := by
  simp only [Mm.destroyAs, safely_bind]
  refine (returns_getSpace s as).mono fun sp hsp => ?_
  have hcut : ∀ sp', s.spaces as = some sp' → CutOk sp.lowAddr (wsub sp.highAddr sp.lowAddr) sp'.vma := by
    intro sp' _
    left
    rw [(h as sp hsp).low, (h as sp hsp).high]
    decide
  refine (h.removeVmaRange fun _ _ => hcut).mono fun s₁ h₁ => ?_
  refine (returns_getSpace s₁ as).mono fun sp₁ _ => ?_
  split
  · simp
  · rw [pure_eq_ok, safely_ok]
    intro a sp' hsp'
    simp only [Function.update_apply] at hsp'
    split at hsp'
    · cases hsp'
    · exact h₁ a sp' hsp'

theorem munmap (h : s.AllLaid) {base len : ℕ}
    (hcut : isAligned base → isAligned len → ∀ sp, s.spaces s.current = some sp → CutOk base len sp.vma) :
    Returns (fun r => r.2.AllLaid) (munmap s base len) := by
  unfold Mm.munmap
  split
  · exact h
  · simp only [safely_bind, safely_pure]
    exact h.removeVmaRange hcut

/-! ## Address spaces -/

theorem aspaceNew (h : s.AllLaid) : (aspaceNew s).2.AllLaid :=
  h.setSpace s.aspacePool (show AddressSpace.Laid ⟨[], ∅, USER_BASE, USER_TOP, 0⟩ from
    ⟨List.nodup_nil, by simp, show USER_BASE ≤ USER_TOP by decide, rfl, rfl⟩)

theorem asSnapshot (h : s.AllLaid) (newAs : ℕ) : Returns State.AllLaid (asSnapshot s newAs) := by
  simp only [Mm.asSnapshot, safely_bind]
  refine (returns_getSpace s s.current).mono fun sp hsp => ?_
  have hvmas : Returns State.AllLaid (sp.vma.foldlM (snapshotVma newAs) s) := by
    refine Safely.mono (safely_foldlM (fun rest s' => State.AllLaid s' ∧ rest ⊆ sp.vma)
      ⟨h, List.Subset.refl _⟩ ?_) fun s' hs' => hs'.1
    rintro vma rest s₁ ⟨h₁, hsub⟩
    rw [List.cons_subset] at hsub
    refine Safely.mono (Q := State.AllLaid) ?_ fun s₂ h₂ => ⟨h₂, hsub.2⟩
    unfold snapshotVma
    split
    · exact h₁
    · simp only [safely_bind, safely_pure]
      refine h₁.insertVmaToVaddr _ fun sp' hsp' _ _ _ => .inr ?_
      -- the VMA ends in the parent, and all address spaces have the same bounds
      rw [(h₁ newAs sp' hsp').high, ← (h _ sp hsp).high]
      exact ((h _ sp hsp).span_le hsub.1).2
  refine hvmas.mono fun s₁ h₁ => ?_
  refine (returns_getSpace s₁ s₁.current).mono fun sp₁ _ => ?_
  refine safely_foldlM (fun _ s' => State.AllLaid s') h₁ ?_
  intro e rest s₂ h₂
  unfold pageEntryVisitor
  split
  · exact h₂
  · simp only [safely_bind, safely_pure]
    exact (frame_assignPage s₂ _ _ _ _).mono fun r hf => h₂.of_frame hf

theorem asnew (h : s.AllLaid) (tab : AsTable) (snapshot : Bool) :
    Returns (fun r => r.2.AllLaid) (asnew s tab snapshot) := by
  obtain ⟨s₁, hs₁⟩ : ∃ s₁, s₁ = (Mm.aspaceNew (disableInterrupts s)).2 := ⟨_, rfl⟩
  have h₁ : s₁.AllLaid := by
    rw [hs₁]
    exact State.AllLaid.aspaceNew h
  have hpair : Mm.aspaceNew (disableInterrupts s) = (s.aspacePool, s₁) := by
    rw [hs₁]
    rfl
  rw [Mm.asnew]
  dsimp only
  rw [hpair]
  dsimp only
  split
  · simp only [safely_bind, safely_pure]
    exact (h₁.destroyAs _).mono fun s₂ h₂ => h₂.enable
  · simp only [safely_bind, safely_pure]
    refine Safely.mono (Q := State.AllLaid) ?_ fun s₂ h₂ => h₂.enable
    split
    · exact h₁.asSnapshot _
    · exact h₁

theorem asdestroy (h : s.AllLaid) (tab : AsTable) (as : ℤ) :
    Returns (fun r => r.2.AllLaid) (asdestroy s tab as) := by
  have hoff : (disableInterrupts s).AllLaid := h
  unfold Mm.asdestroy fileAt
  dsimp only
  split
  · simp only [safely_bind, safely_pure]
    exact hoff.enable
  split
  · rw [ok_bind]
    split
    · simp only [safely_bind, safely_pure]
      exact hoff.enable
    · simp only [safely_bind, safely_pure]
      exact (hoff.destroyAs _).mono fun s₁ h₁ => h₁.enable
  · simp

/-! ## Device memory -/

theorem undoInsert (h : s.AllLaid) (as : ℕ) (vma : VmArea) : (undoInsert s as vma).AllLaid := by
  rw [Mm.undoInsert]
  cases hsp : s.spaces as with
  | none =>
    rw [State.modifyVma, hsp]
    exact h
  | some sp =>
    rw [modifyVma_eq hsp]
    exact h.setSpace as ((h as sp hsp).remove vma.id _)

theorem assignAddrs (h : s.AllLaid) (as addr vaddr : ℕ) (steps : List ℕ) (offset : ℕ)
    (vmas : List VmArea) :
    Returns (fun r => r.2.AllLaid) (assignAddrs as addr vaddr steps offset vmas s) := by
  induction steps generalizing offset vmas s with
  | nil => exact h
  | cons i steps ih =>
    rw [Mm.assignAddrs]
    split
    · trivial
    · simp only [safely_bind]
      refine (frame_assignAddrWithVma s as _ _ _ _).mono ?_
      rintro ⟨ret, s₁⟩ hf
      dsimp only at hf ⊢
      split
      · exact h.of_frame hf
      · exact ih (h.of_frame hf) _ _

theorem assignAddrRange (h : s.AllLaid) (as addr vaddr len : ℕ) :
    Returns (fun r => r.2.AllLaid) (assignAddrRange s as addr vaddr len) := by
  have hoff : (disableInterrupts s).AllLaid := h
  unfold Mm.assignAddrRange
  split
  · exact h
  simp only [safely_bind]
  refine (returns_getSpace _ as).mono fun sp _ => ?_
  split
  · exact hoff
  simp only [safely_bind]
  refine Safely.mono (Q := fun _ => True) (safely_iff.2 ⟨fun _ _ => trivial, fun _ _ => trivial⟩)
    fun ret _ => ?_
  split
  · exact hoff
  simp only [safely_bind]
  refine (hoff.assignAddrs as addr vaddr _ _ _).mono ?_
  rintro ⟨ret', s₁⟩ h₁
  dsimp only at h₁ ⊢
  split
  · exact h₁
  · simp only [safely_bind, safely_pure]
    exact h₁.enable

theorem memRequest (h : s.AllLaid) {mreq : MemReq} {alen : ℕ}
    (hfits : isAligned mreq.physAddr → s.Fits s.current mreq.destAddr alen) :
    Returns (fun r => r.2.AllLaid) (memRequest s mreq alen) := by
  unfold Mm.memRequest
  split
  · exact h
  rename_i haligned
  simp only [safely_bind]
  refine (h.insertVma _ (hfits (by simpa using haligned))).mono ?_
  rintro ⟨r, s₁⟩ h₁
  dsimp only at h₁ ⊢
  split
  · exact h₁
  split
  · exact h₁.undoInsert _ _
  · rename_i s₂ hs₂
    have h₂ : s₂.AllLaid := by
      rw [insertRange] at hs₂
      split at hs₂
      · rw [Option.some.injEq] at hs₂
        exact hs₂ ▸ h₁
      · cases hs₂
    simp only [safely_bind]
    refine (h₂.assignAddrRange _ _ _ _).mono ?_
    rintro ⟨ret, s₃⟩ h₃
    dsimp only at h₃ ⊢
    split
    · simp
    · exact h₃

theorem memPortRequest (h : s.AllLaid) {len buf : ℕ}
    (hfits : len = MEM_REQ_SIZE → buf ≠ 0 → ∀ bytes s',
      copyFromUserSimple (disableInterrupts s) buf MEM_REQ_SIZE = .ok ((0, bytes), s') →
      isAligned (MemReq.ofBytes bytes).physAddr →
      s'.Fits s'.current (MemReq.ofBytes bytes).destAddr (pageAlignUp len)) :
    Returns (fun r => r.2.AllLaid) (memPortRequest s len buf) := by
  have hoff : (disableInterrupts s).AllLaid := h
  unfold Mm.memPortRequest
  split
  · exact h
  rename_i hlen
  split
  · exact h
  rename_i hbuf
  have hcopy : Returns (fun r => r.2.AllLaid ∧
      copyFromUserSimple (disableInterrupts s) buf MEM_REQ_SIZE = .ok r)
      (copyFromUserSimple (disableInterrupts s) buf MEM_REQ_SIZE) := by
    have hf := frame_copyFromUserSimple (disableInterrupts s) buf MEM_REQ_SIZE
    exact safely_iff.2 ⟨fun r hr => ⟨hoff.of_frame (hf.of_ok hr), hr⟩, fun _ _ => trivial⟩
  simp only [safely_bind]
  refine hcopy.mono ?_
  rintro ⟨⟨ret, bytes⟩, s₁⟩ ⟨h₁, hr⟩
  dsimp only at h₁ ⊢
  simp only [safely_pure]
  refine Safely.mono (Q := fun r => r.2.AllLaid) ?_ fun r h₂ => h₂.enable
  split
  · exact h₁
  · rename_i hret
    rw [not_not] at hret
    subst hret
    have hok := hfits (not_not.1 hlen) hbuf bytes s₁ hr
    -- the words of the request are not to be computed
    generalize MemReq.ofBytes bytes = mreq at hok ⊢
    exact h₁.memRequest hok

/-! ## User accesses -/

theorem userAccess (h : s.AllLaid) (write : Bool) (vaddr : ℕ) :
    Returns (fun r => r.2.AllLaid) (userAccess s write vaddr) := by
  unfold Mm.userAccess
  split
  · exact h
  split
  · exact h
  simp only [safely_bind]
  refine (frame_pageFaultEntry s true write vaddr).mono ?_
  rintro ⟨killed, s'⟩ hf
  have h' : s'.AllLaid := of_frame (s := { s with interruptDisabled := 0 }) h hf
  split <;> exact h'

theorem userRead (h : s.AllLaid) (vaddr : ℕ) :
    Returns (fun r => r.2.AllLaid) (userRead s vaddr) := by
  simp only [Mm.userRead, safely_bind, safely_pure]
  exact h.userAccess false vaddr

theorem userWrite (h : s.AllLaid) (vaddr : ℕ) (b : UInt8) :
    Returns (fun r => r.2.AllLaid) (userWrite s vaddr b) := by
  simp only [Mm.userWrite, safely_bind]
  refine (h.userAccess true vaddr).mono ?_
  rintro ⟨page, s'⟩ h'
  dsimp only
  split <;> exact h'

end State.AllLaid

/-! ## Runs -/

/-- The insertions of a step end where they may, and its removal does not wrap. -/
def World.Fits (w : World) : Op → Prop
  | .sendpage as vaddr dst len => as ≠ w.table.length ∧
    (0 ≤ as → ∀ a, w.table[as.toNat]? = some (some a) → isAligned vaddr.toNat → isAligned len.toNat →
      (vaddr.toNat ≠ 0 → validateRange w.mm vaddr.toNat 4096 = .ok true) →
      w.mm.Fits a dst.toNat len.toNat)
  | .munmap base len => isAligned base.toNat → isAligned len.toNat →
    ∀ sp, w.mm.spaces w.mm.current = some sp → CutOk base.toNat len.toNat sp.vma
  | .mapToUser plist vaddr => ∀ plh, w.mm.plists.lookup plist = some plh →
    w.mm.Fits w.mm.current vaddr.toNat (4096 * plh.npage % 2 ^ 64)
  | .memRequest len buf => len.toNat = MEM_REQ_SIZE → buf.toNat ≠ 0 → ∀ bytes s,
    copyFromUserSimple (disableInterrupts w.mm) buf.toNat MEM_REQ_SIZE = .ok ((0, bytes), s) →
    isAligned (MemReq.ofBytes bytes).physAddr →
    s.Fits s.current (MemReq.ofBytes bytes).destAddr (pageAlignUp len.toNat)
  | _ => True

theorem validateRange_disable (s : State) (base len : ℕ) :
    validateRange (disableInterrupts s) base len = validateRange s base len := rfl

theorem State.AllLaid.sendpage {s : State} (h : s.AllLaid) {tab : AsTable} {as : ℤ} {vaddr dst len : ℕ}
    (hfits : 0 ≤ as → ∀ a, tab[as.toNat]? = some (some a) → isAligned vaddr → isAligned len →
      (vaddr ≠ 0 → validateRange s vaddr 4096 = .ok true) → s.Fits a dst len) :
    Returns (fun r => r.2.AllLaid) (sendpage s tab as vaddr dst len) := by
  have hoff : (disableInterrupts s).AllLaid := h
  simp only [Mm.sendpage, safely_bind, safely_pure]
  refine Safely.mono (Q := fun r : ℤ × State => r.2.AllLaid) ?_ fun r h₁ => h₁.enable
  unfold fileAt
  split
  · exact hoff
  rename_i has
  split
  · rename_i f hf
    rw [ok_bind]
    split
    · exact hoff
    · rename_i a
      refine hoff.sendpageTo fun hv hl hvalid => ?_
      rw [validateRange_disable] at hvalid
      exact hfits (by omega) a hf hv hl hvalid
  · simp

/-- A step that meets the condition. -/
theorem World.step_laid {w : World} (h : w.mm.AllLaid) {op : Op} (hok : w.Fits op) :
    Returns (fun w' => w'.mm.AllLaid) (w.step op) := by
  cases op with
  | switch as =>
    rw [World.step]
    split <;> exact h
  | asnew snapshot =>
    simp only [World.step, safely_bind, safely_pure]
    exact h.asnew w.table snapshot
  | asdestroy as =>
    simp only [World.step, safely_bind, safely_pure]
    exact h.asdestroy w.table as
  | destroy as =>
    rw [World.step]
    split
    · simp only [safely_bind, safely_pure]
      exact h.destroyAs as
    · exact h
  | read vaddr =>
    simp only [World.step, safely_bind, safely_pure]
    exact h.userRead _
  | write vaddr b =>
    simp only [World.step, safely_bind, safely_pure]
    exact h.userWrite _ b
  | sendpage as vaddr dst len =>
    simp only [World.step, safely_bind, safely_pure]
    exact h.sendpage hok.2
  | munmap base len =>
    simp only [World.step, safely_bind, safely_pure]
    exact h.munmap hok
  | copyToUser src buf len =>
    simp only [World.step, safely_bind, safely_pure]
    exact (frame_copyToUserSimple w.mm src _ _).mono fun r hf => h.of_frame hf
  | mapFromUser buf len =>
    simp only [World.step, safely_bind, safely_pure]
    exact (shape_mapFromUser w.mm _ _).mono fun r hs => h.of_shape hs
  | mapToUser plist vaddr =>
    simp only [World.step, safely_bind, safely_pure]
    exact h.mapToUserAs hok
  | pageListFree plist =>
    simp only [World.step, safely_bind, safely_pure]
    exact (shape_pageListFree w.mm plist).mono fun mm hs => h.of_shape hs
  | memRequest len buf =>
    simp only [World.step, safely_bind, safely_pure]
    exact h.memPortRequest hok

/-- In every run whose steps fit, the VMA lists of every state are well formed. -/
theorem wellFormed_of_fits {w : World} {ops : List Op} (h : w.mm.AllLaid)
    (hok : Along World.Fits World.step w ops) :
    Returns (fun w' => ∀ a sp, w'.mm.spaces a = some sp → sp.WellFormed) (w.run ops) :=
  Safely.mono (safely_along (I := fun w : World => w.mm.AllLaid) h (fun _ _ h hok => World.step_laid h hok)
    hok) fun _ h' a sp hsp => (h' a sp hsp).wellFormed

/-! ## A test of steps -/

/-- A test under which a step fits.  Page lists and device memory do not pass it. -/
def World.fitsCheck (w : World) : Op → Bool
  | .sendpage as _ dst len => as != w.table.length && match w.table[as.toNat]? with
    | some (some a) => (w.mm.spaces a).all fun sp =>
      if dst.toNat = 0 then decide ((findGap len.toNat sp.lowAddr sp.vma).1 + len.toNat < 2 ^ 64)
      else decide (dst.toNat + len.toNat ≤ sp.highAddr)
    | _ => true
  | .munmap base len => decide (base.toNat + len.toNat < 2 ^ 64)
  | .mapToUser .. => false
  | .memRequest .. => false
  | _ => true

theorem fits_of_check {w : World} {op : Op} (h : w.fitsCheck op = true) : w.Fits op := by
  cases op with
  | sendpage as vaddr dst len =>
    simp only [World.fitsCheck, Bool.and_eq_true, bne_iff_ne] at h
    refine ⟨h.1, fun _ a ha _ _ _ sp hsp => ?_⟩
    have h := h.2
    simp only [ha, hsp, Option.all_some] at h
    refine ⟨fun hdst _ _ _ => .inr ?_, fun hdst _ => ?_⟩
    · simpa [hdst] using h
    · simpa [hdst] using h
  | munmap base len => exact fun _ _ _ _ => .inl (by simpa [World.fitsCheck] using h)
  | mapToUser plist vaddr => cases h
  | memRequest len buf => cases h
  | switch as => trivial
  | asnew snapshot => trivial
  | asdestroy as => trivial
  | destroy as => trivial
  | read vaddr => trivial
  | write vaddr b => trivial
  | copyToUser src buf len => trivial
  | mapFromUser buf len => trivial
  | pageListFree plist => trivial

theorem allLaid_boot (free : List ℕ) (zeroPage : ℕ) : (World.boot free zeroPage).mm.AllLaid :=
  State.AllLaid.aspaceNew fun _ _ hsp => by cases hsp

theorem wellFormed_of_fits_cuts :
    ∃ w, (World.boot [0x10000] 0x1000).run [.sendpage 0 0 0x400000 0x3000, .write 0x401000 7,
      .sendpage 0 0 0 0x1000, .munmap 0x401000 0x1000] = .ok w ∧
      ∀ a sp, w.mm.spaces a = some sp → sp.WellFormed := by
  generalize hops : [Op.sendpage 0 0 0x400000 0x3000, .write 0x401000 7, .sendpage 0 0 0 0x1000,
    .munmap 0x401000 0x1000] = ops
  have hok : Along World.Fits World.step (World.boot [0x10000] 0x1000) ops := by
    refine along_of_check (c := World.fitsCheck) ?_ fun _ _ => fits_of_check
    rw [← hops]
    decide +kernel
  obtain ⟨w, hw⟩ : ∃ w, (World.boot [0x10000] 0x1000).run ops = .ok w := by
    rw [← isOk_iff, ← hops]
    decide +kernel
  exact ⟨w, hw, (wellFormed_of_fits (allLaid_boot _ _) hok).of_ok hw⟩

/-- A VMA that begins at `high_addr`. -/
theorem wellFormed_fails : ¬∀ (free : List ℕ) (zeroPage : ℕ) (ops : List Op) (w : World),
    (World.boot free zeroPage).run ops = .ok w →
      ∀ a sp, w.mm.spaces a = some sp → sp.WellFormed := by
  intro h
  obtain ⟨ops, hops⟩ : ∃ ops : List Op, ops = [.sendpage 0 0 0x7ffffffffffff000 0x1000] := ⟨_, rfl⟩
  have hrun : ((World.boot [] 0x1000).run ops).toOption.map
      (fun w => (w.mm.spaces 0).map fun sp => (sp.highAddr, sp.vma)) =
        some (some (0x7ffffffffffff000, [⟨0, VMA_RW, 0, 0x7ffffffffffff000, 0x1000, [], .head⟩])) := by
    rw [hops]
    decide +kernel
  cases hw : (World.boot [] 0x1000).run ops with
  | error e =>
    rw [hw] at hrun
    cases hrun
  | ok w =>
    rw [hw] at hrun
    simp only [Except.toOption, Option.map_some, Option.some.injEq, Option.map_eq_some_iff,
      Prod.mk.injEq] at hrun
    obtain ⟨sp, hsp, hhigh, hvma⟩ := hrun
    have := ((h _ _ ops w hw 0 sp hsp).inside _ (by rw [hvma]; exact List.mem_cons_self)).2
    rw [hhigh] at this
    exact absurd this (by decide)

end SadOS.Mm
