import SadOS.Mm.Ranges

/-!
# System calls keep the accounts

The operations of `sys/mm/aspace.c`, `sys/mm/copy.c` and `sys/mm/syscall.c` on whole
address spaces.  Each of them stops the machine or keeps `Settled`.

## Main definitions

* `Settled.aspaceNew`, `Settled.destroyAs` — an address space comes and goes.
* `Settled.mapToUserAs` — a page list arrives.
* `Settled.sendpageTo`, `Settled.munmap`, `Settled.asSnapshot` — the system calls.
* `State.placedAt` — where an insertion puts a range.
-/

namespace SadOS.Mm

/-- Fewer pages are mapped. -/
theorem Mapped.of_subset {hole : List (ℕ × ℕ)} {phys : ℕ → Option Page}
    {ent : ℕ → ℕ → Option PageEntry} {pte pte' : ℕ → ℕ → Option Pte} (h : Mapped hole phys ent pte)
    (hsub : ∀ a n e, pte' a n = some e → pte a n = some e) : Mapped hole phys ent pte' :=
  ⟨fun a n e he hn => h.entry a n e (hsub a n e he) hn, h.canon⟩

theorem Trimmed.kept {as : ℕ} {gone : List ℕ} {s s' : State} (h : Trimmed as gone s s') :
    Kept s s' := by
  refine ⟨⟨h.current, fun b => ?_⟩, h.zeroPage, h.plists, h.plistPool⟩
  by_cases hb : b = as
  · subst hb
    have := congrArg Option.isSome h.live
    rwa [Option.isSome_map, Option.isSome_map] at this
  · rw [h.other b hb]

/-! ## Address spaces that stay -/

/-- The VMAs of all address spaces keep their bounds, and the same one runs. -/
structure SameShape (s s' : State) : Prop where
  current : s'.current = s.current
  shape : ∀ a, (s'.spaces a).map AddressSpace.shape = (s.spaces a).map AddressSpace.shape

namespace SameShape

variable {s s' s'' : State}

@[refl] theorem refl (s : State) : SameShape s s := ⟨rfl, fun _ => rfl⟩

@[trans] theorem trans (h : SameShape s s') (h' : SameShape s' s'') : SameShape s s'' :=
  ⟨h'.current.trans h.current, fun a => (h'.shape a).trans (h.shape a)⟩

theorem setCounter (h : SameShape s s') (n : ℕ) : SameShape s { s' with interruptDisabled := n } :=
  ⟨h.current, h.shape⟩

theorem returns_enable (h : SameShape s s') : Returns (SameShape s) (enableInterrupts s') := by
  unfold enableInterrupts
  split
  · simp
  · exact h.setCounter _

theorem spaces (h : SameShape s s') : SameSpaces s s' := by
  refine ⟨h.current, fun b => ?_⟩
  have := congrArg Option.isSome (h.shape b)
  rwa [Option.isSome_map, Option.isSome_map] at this

end SameShape

theorem Frame.sameShape {s s' : State} (h : Frame s s') : SameShape s s' := ⟨h.current, h.shape⟩

/-- Page faults set the counter of interrupts, whatever it was. -/
theorem frame_pageFaultEntry (s : State) (user write : Bool) (vaddr : ℕ) :
    Returns (fun r => Frame { s with interruptDisabled := 0 } r.2)
      (pageFaultEntry s user write vaddr) := by
  have hend : ∀ {s₁ s₂ : State}, Frame s₁ s₂ →
      Frame { s₁ with interruptDisabled := 0 } { s₂ with interruptDisabled := 0 } := fun h =>
    ⟨⟨h.current, h.zeroPage, rfl, h.aspacePool, h.vmaJunk, h.freeRange, h.plists, h.plistPool⟩, h.shape⟩
  obtain ⟨s₀, hs₀⟩ : ∃ s₀, s₀ = disableInterrupts { s with interruptDisabled := 1 } := ⟨_, rfl⟩
  have hstart : { s₀ with interruptDisabled := 0 } = { s with interruptDisabled := 0 } := by
    rw [hs₀]
    rfl
  have hhandler : Returns (fun r => Frame { s with interruptDisabled := 0 }
      { r.2 with interruptDisabled := 0 })
      (pageFaultHandler { s with interruptDisabled := 1 } user write vaddr) := by
    rw [← hstart]
    unfold pageFaultHandler
    split
    · simp
    dsimp only
    rw [← hs₀]
    simp only [safely_bind]
    refine (returns_getSpace s₀ _).mono fun sp _ => ?_
    split
    · exact Frame.refl _
    simp only [safely_bind]
    refine Safely.mono (Q := fun s₁ => Frame s₀ s₁) ?_ fun s₁ hf₁ => ?_
    · unfold zeroFill
      split
      · exact Frame.refl s₀
      · simp only [safely_bind]
        exact frame_assignPage s₀ _ _ _ _
    split
    · simp
    rename_i pe hpe
    split
    · exact hend hf₁
    simp only [safely_bind]
    refine Safely.mono (Q := fun s₂ => Retag s₁ s₂) ?_ fun s₂ hr₂ => ?_
    · rw [unshareForWrite]
      simp only [safely_bind]
      refine (returns_getPageRec s₁ pe.p).mono fun pg hp => ?_
      split
      · exact retag_unsharePage hpe hp (by omega)
      · exact Retag.refl s₁
    refine (retag_addressSpaceMap s₂ _).mono fun r hr₃ => ?_
    have hf₃ := hend (hf₁.trans (hr₂.trans hr₃).frame)
    unfold enableInterrupts
    split
    · simp
    · exact hf₃
  simp only [pageFaultEntry, safely_bind]
  exact hhandler.mono fun r hf => hf

theorem kept_pageFaultEntry (s : State) (user write : Bool) (vaddr : ℕ) :
    Returns (fun r => Kept s r.2) (pageFaultEntry s user write vaddr) :=
  (frame_pageFaultEntry s user write vaddr).mono fun _ hf => ((Kept.refl s).setCounter 0).trans hf.kept

theorem kept_copyToUserSimple (s : State) (src : ℕ → UInt8) (buf len : ℕ) :
    Returns (fun r => Kept s r.2) (copyToUserSimple s src buf len) :=
  (frame_copyToUserSimple s src buf len).mono fun _ hf => hf.kept

theorem shape_addPlist (s : State) (off : ℕ) (ph : List PageList) :
    SameShape s (s.addPlist off ph).2 := ⟨rfl, fun _ => rfl⟩

theorem shape_mapFromUser (s : State) (buf len : ℕ) :
    Returns (fun r => SameShape s r.2) (mapFromUser s buf len) := by
  have hfin : ∀ s₁ off ph, SameShape s s₁ →
      Returns (SameShape s) (enableInterrupts (s₁.addPlist off ph).2) := fun s₁ off ph h =>
    (h.trans (shape_addPlist s₁ off ph)).returns_enable
  have hoff : SameShape s (disableInterrupts s) := (SameShape.refl s).setCounter _
  unfold mapFromUser
  dsimp only
  simp only [validateRange, safely_bind, safely_pure]
  refine (returns_getSpace _ _).mono fun sp _ => ?_
  split
  · simp only [safely_bind]
    exact hoff.returns_enable
  simp only [safely_bind]
  refine Safely.mono (Q := fun r : List PageList × State => SameShape s r.2) ?_ ?_
  · split
    · simp only [safely_bind]
      exact (frame_copyPage _ _ _ _).mono fun r hf => hoff.trans hf.sameShape
    · exact hoff
  rintro ⟨first, s₁⟩ h₁
  dsimp only
  split
  · simp only [safely_bind]
    exact hfin s₁ _ _ h₁
  simp only [safely_bind]
  refine Safely.mono (Q := fun r : List PageList × State => SameShape s r.2) ?_ ?_
  · refine safely_foldlM (fun _ (acc : List PageList × State) => SameShape s acc.2) h₁ ?_
    rintro v rest acc h
    exact (quiet_snapPage acc v).mono fun r hq => h.trans hq.frame.sameShape
  rintro ⟨middle, s₂⟩ h₂
  dsimp only
  refine Safely.mono (Q := fun r : List PageList × State => SameShape s r.2) ?_ ?_
  · split
    · simp only [safely_bind]
      exact (frame_copyPage _ _ _ _).mono fun r hf => h₂.trans hf.sameShape
    · exact h₂
  rintro ⟨all, s₃⟩ h₃
  exact hfin s₃ _ _ h₃

theorem shape_pageListFree (s : State) (id : ℕ) :
    Returns (SameShape s) (pageListFree s id) := by
  simp only [pageListFree, safely_bind]
  refine Safely.mono (Q := fun _ => True) (by unfold State.getPlist; split <;> trivial) fun plh _ => ?_
  exact (quiet_foldlM quiet_freeNode plh.ph _).mono fun _ hq => ⟨hq.current, fun b => by rw [hq.spaces]⟩

/-- Where a request for a range of `len` bytes at `vaddr`, or anywhere, puts it. -/
def State.placedAt (s : State) (as vaddr len : ℕ) : ℕ :=
  if vaddr ≠ 0 then vaddr
  else match s.spaces as with
    | some sp => (findGap len sp.lowAddr sp.vma).1
    | none => 0

namespace Settled

variable {stale canon : Prop} {kept : List ℕ} {s s' : State}

/-- The state outside pages and address spaces stays. -/
theorem rest (h : Settled stale canon kept s) (hr : SameRest s s')
    (hc : Consistent stale canon [] (s.nodes ++ kept.map fun p => (p, .shared)) s')
    (ht : Tidy canon (fun _ => []) s') : Settled stale canon kept s' := by
  have hnodes : s'.nodes = s.nodes := by simp only [State.nodes, hr.plists]
  refine ⟨⟨by rw [hnodes]; exact hc, ht, by rw [hnodes]; exact h.sound.spent⟩, ?_, ?_, ?_⟩
  · rw [hr.plists]
    exact h.plist_nodup
  · rw [hr.plists, hr.plistPool]
    exact h.plist_lt
  · rw [hr.zeroPage]
    exact h.zero

theorem of_kept (h : Settled stale canon kept s) (hk : Kept s s')
    (hs : Sound stale canon (s.nodes ++ kept.map fun p => (p, .shared)) s') :
    Settled stale canon kept s' := by
  have hnodes : s'.nodes = s.nodes := by simp only [State.nodes, hk.plists]
  refine ⟨by rw [hnodes]; exact hs, ?_, ?_, ?_⟩
  · rw [hk.plists]
    exact h.plist_nodup
  · rw [hk.plists, hk.plistPool]
    exact h.plist_lt
  · rw [hk.zeroPage]
    exact h.zero

theorem setMem (h : Settled stale canon kept s) (p : ℕ) (bytes : ℕ → UInt8) :
    Settled stale canon kept (s.setMem p bytes) :=
  ⟨h.sound.setMem p bytes, h.plist_nodup, h.plist_lt, h.zero⟩

/-- The counter of interrupts is not part of the accounts. -/
theorem setCounter (h : Settled stale canon kept s) (n : ℕ) :
    Settled stale canon kept { s with interruptDisabled := n } :=
  ⟨⟨⟨h.sound.linked, h.sound.mapped⟩, ⟨h.sound.hung, h.sound.bounds, h.sound.fresh⟩,
    h.sound.spent⟩, h.plist_nodup, h.plist_lt, h.zero⟩

theorem setCurrent (h : Settled stale canon kept s) (a : ℕ) :
    Settled stale canon kept { s with current := a } :=
  ⟨⟨⟨h.sound.linked, h.sound.mapped⟩, ⟨h.sound.hung, h.sound.bounds, h.sound.fresh⟩,
    h.sound.spent⟩, h.plist_nodup, h.plist_lt, h.zero⟩

theorem pageFaultEntry (h : Settled stale canon kept s) {user write : Bool} {vaddr : ℕ}
    (hlive : ∃ sp, s.spaces s.current = some sp) (hok : FaultOk stale s write (pageAlign vaddr)) :
    Safely Halts (fun r => Settled stale canon kept r.2 ∧ Kept s r.2)
      (pageFaultEntry s user write vaddr) :=
  ((h.sound.pageFaultEntry hlive h.zero_held hok).and (kept_pageFaultEntry s user write vaddr)).mono
    fun _ hr => ⟨h.of_kept hr.2 hr.1, hr.2⟩

theorem userAccess (h : Settled stale canon kept s) {write : Bool} {vaddr : ℕ}
    (hlive : ∃ sp, s.spaces s.current = some sp) (hok : FaultOk stale s write (pageAlign vaddr)) :
    Safely Halts (fun r => Settled stale canon kept r.2 ∧ Kept s r.2) (userAccess s write vaddr) := by
  unfold Mm.userAccess
  split
  · exact ⟨h, Kept.refl s⟩
  split
  · exact ⟨h, Kept.refl s⟩
  simp only [safely_bind]
  refine (h.pageFaultEntry hlive hok).mono ?_
  rintro ⟨killed, s'⟩ hr
  split <;> exact hr

theorem userRead (h : Settled stale canon kept s) {vaddr : ℕ}
    (hlive : ∃ sp, s.spaces s.current = some sp) (hok : FaultOk stale s false (pageAlign vaddr)) :
    Safely Halts (fun r => Settled stale canon kept r.2 ∧ Kept s r.2) (userRead s vaddr) := by
  simp only [Mm.userRead, safely_bind, safely_pure]
  exact h.userAccess hlive hok

theorem userWrite (h : Settled stale canon kept s) {vaddr : ℕ}
    (hlive : ∃ sp, s.spaces s.current = some sp) (hok : FaultOk stale s true (pageAlign vaddr))
    (b : UInt8) :
    Safely Halts (fun r => Settled stale canon kept r.2 ∧ Kept s r.2) (userWrite s vaddr b) := by
  simp only [Mm.userWrite, safely_bind]
  refine (h.userAccess hlive hok).mono ?_
  rintro ⟨page, s'⟩ ⟨h', hk⟩
  dsimp only
  split
  · exact ⟨h'.setMem _ _, hk.trans (Frame.setMem s' _ _).kept⟩
  · exact ⟨h', hk⟩

/-! ## Whole address spaces -/

theorem aspaceNew (h : Settled stale canon kept s) :
    Settled stale canon kept (aspaceNew s).2 := by
  have hfresh : s.spaces s.aspacePool = none := h.sound.fresh _ le_rfl
  have hent : (Mm.aspaceNew s).2.entry = s.entry := by
    funext a v
    by_cases ha : a = s.aspacePool
    · subst ha
      simp [Mm.aspaceNew, State.entry, State.setSpace, hfresh]
    · simp [Mm.aspaceNew, State.entry, State.setSpace, ha]
  refine ⟨⟨⟨?_, fun hcan => ?_⟩, ⟨?_, ?_, ?_⟩, h.sound.spent⟩, h.plist_nodup, h.plist_lt, h.zero⟩
  · rw [hent]
    exact h.sound.linked
  · rw [hent]
    refine (h.sound.mapped hcan).of_subset fun a n e he => ?_
    simp only [Mm.aspaceNew, Function.update_apply] at he
    split at he
    · cases he
    · exact he
  · intro a sp hsp
    simp only [Mm.aspaceNew, State.setSpace, Function.update_apply] at hsp
    split at hsp
    · rw [Option.some.injEq] at hsp
      subst hsp
      exact ⟨by simp, by simp, by simp, by simp⟩
    · exact h.sound.hung a sp hsp
  · intro hcan a sp hsp
    simp only [Mm.aspaceNew, State.setSpace, Function.update_apply] at hsp
    split at hsp
    · rw [Option.some.injEq] at hsp
      subst hsp
      simp
    · exact h.sound.bounds hcan a sp hsp
  · intro a ha
    have hne : a ≠ s.aspacePool := by
      simp only [Mm.aspaceNew] at ha
      omega
    simp only [Mm.aspaceNew, State.setSpace, Function.update_of_ne hne] at ha ⊢
    exact h.sound.fresh a (by omega)

end Settled

/-! ## Removal -/

namespace Consistent

variable {stale canon low : Prop} {held : List (ℕ × Kind)} {s : State}

theorem removeVmaRange (h : Consistent stale canon [] held s) (ht : Tidy low (fun _ => []) s) {as : ℕ}
    (has : ∃ sp, s.spaces as = some sp) (base len : ℕ) :
    Safely Halts (fun s' => Consistent stale canon [] held s' ∧ Tidy low (fun _ => []) s')
      (removeVmaRange s as base len) := by
  obtain ⟨sp, hsp⟩ := has
  unfold Mm.removeVmaRange
  split
  · rw [getSpace_eq hsp, ok_bind]
    exact h.removeVmaRangeFrom ht ⟨(ht.hung as sp hsp).ids, sp, hsp, fun v hv => ⟨v, hv, rfl⟩⟩ .head
  · simp

/-- An address space without VMAs goes. -/
theorem dropSpace (h : Consistent stale canon [] held s) (ht : Tidy low (fun _ => []) s) {as : ℕ}
    {sp : AddressSpace} (hsp : s.spaces as = some sp) (hvma : sp.vma = []) {t : State}
    (hs : t = { s with
      spaces := Function.update s.spaces as none
      pte := Function.update s.pte as fun _ => none }) :
    Consistent stale canon [] held t ∧ Tidy low (fun _ => []) t := by
  -- no VMA, so no entry
  have hempty : ∀ v, sp.vaddrMap.lookup v = none := by
    intro v
    have hmem := (ht.hung as sp hsp).mem_iff v
    rw [hvma] at hmem
    by_contra hne
    obtain ⟨pe, hpe⟩ := Option.ne_none_iff_exists'.1 hne
    simpa using hmem.2 ⟨pe, hpe⟩
  have hent : t.entry = s.entry := by
    funext a v
    by_cases ha : a = as
    · subst ha
      rw [entry_of_space hsp, hempty]
      simp [hs, State.entry]
    · simp [hs, State.entry, ha]
  have hspaces : ∀ a sp', t.spaces a = some sp' → s.spaces a = some sp' := by
    intro a sp' hsp'
    simp only [hs, Function.update_apply] at hsp'
    split at hsp'
    · cases hsp'
    · exact hsp'
  refine ⟨⟨?_, fun hcan => ?_⟩, ⟨fun a sp' hsp' => ht.hung a sp' (hspaces a sp' hsp'),
    fun hlow a sp' hsp' => ht.bounds hlow a sp' (hspaces a sp' hsp'), fun a ha => ?_⟩⟩
  · rw [hent, hs]
    exact h.linked
  · rw [hent]
    refine Mapped.of_subset (show Mapped _ _ _ s.pte from ?_) fun a n e he => ?_
    · rw [hs]
      exact h.mapped hcan
    · simp only [hs, Function.update_apply] at he
      split at he
      · cases he
      · exact he
  · simp only [hs, Function.update_apply] at ha ⊢
    split
    · rfl
    · exact ht.fresh a ha

theorem destroyAs (h : Consistent stale canon [] held s) (ht : Tidy low (fun _ => []) s) {as : ℕ}
    (has : ∃ sp, s.spaces as = some sp) :
    Safely Halts (fun t => Consistent stale canon [] held t ∧ Tidy low (fun _ => []) t ∧
        SameRest s t ∧ t.mem = s.mem ∧ ∀ b, t.spaces b = if b = as then none else s.spaces b)
      (destroyAs s as) := by
  obtain ⟨sp, hsp⟩ := has
  simp only [Mm.destroyAs, safely_bind]
  rw [getSpace_eq hsp, safely_ok]
  refine ((h.removeVmaRange ht ⟨sp, hsp⟩ _ _).and (effect_removeVmaRange s as _ _)).mono ?_
  rintro s₁ ⟨⟨h₁, ht₁⟩, _, _, htrim⟩
  cases hsp₁ : s₁.spaces as with
  | none =>
    have := htrim.live
    rw [hsp₁, hsp] at this
    cases this
  | some sp₁ =>
    rw [getSpace_eq hsp₁, safely_ok]
    split
    · simp
    rename_i hvma
    obtain ⟨h₂, ht₂⟩ := h₁.dropSpace ht₁ hsp₁ (not_not.1 hvma) rfl
    refine ⟨h₂, ht₂, htrim.toSameRest.trans ⟨rfl, rfl, rfl, rfl, rfl, rfl, rfl, rfl⟩, htrim.mem,
      fun b => ?_⟩
    by_cases hb : b = as
    · simp [hb]
    · simp [hb, htrim.other b hb]

end Consistent

namespace Settled

variable {stale canon : Prop} {kept : List ℕ} {s s' : State}

/-- The pages of a range go, and its VMAs are cut. -/
theorem removeVmaRange (h : Settled stale canon kept s) {as : ℕ} (has : ∃ sp, s.spaces as = some sp)
    (base len : ℕ) :
    Safely Halts (fun s' => Settled stale canon kept s' ∧
        ∃ sp, s.spaces as = some sp ∧ Trimmed as (gonePages base len sp.vma) s s')
      (removeVmaRange s as base len) := by
  refine ((h.sound.toConsistent.removeVmaRange h.sound.toTidy has base len).and
    (effect_removeVmaRange s as base len)).mono ?_
  rintro s' ⟨⟨hc, ht⟩, sp', hsp', htrim⟩
  exact ⟨h.rest htrim.toSameRest hc ht, sp', hsp', htrim⟩

/-- `destroy_as`. -/
theorem destroyAs (h : Settled stale canon kept s) {as : ℕ} (has : ∃ sp, s.spaces as = some sp) :
    Safely Halts (fun s' => Settled stale canon kept s' ∧ SameRest s s' ∧
        ∀ b, (s'.spaces b).isSome = (b ≠ as && (s.spaces b).isSome)) (destroyAs s as) := by
  refine (h.sound.toConsistent.destroyAs h.sound.toTidy has).mono ?_
  rintro t ⟨hc, ht, hrest, -, hspaces⟩
  refine ⟨h.rest hrest hc ht, hrest, fun b => ?_⟩
  rw [hspaces]
  by_cases hb : b = as <;> simp [hb]

theorem munmap (h : Settled stale canon kept s) (hlive : ∃ sp, s.spaces s.current = some sp)
    (base len : ℕ) :
    Safely Halts (fun r => Settled stale canon kept r.2 ∧ Kept s r.2) (munmap s base len) := by
  unfold Mm.munmap
  split
  · exact ⟨h, Kept.refl s⟩
  · simp only [safely_bind, safely_pure]
    refine (h.removeVmaRange hlive base len).mono ?_
    rintro s' ⟨h', _, _, htrim⟩
    exact ⟨h', htrim.kept⟩

/-! ## Insertion with pages -/

/-- `insert_vma_to_vaddr` for an address, and `insert_vma_to_any` for zero. -/
theorem insertVma (h : Settled stale canon kept s) {as : ℕ} (has : ∃ sp, s.spaces as = some sp)
    {vaddr len flags : ℕ} (hb : canon → s.placedAt as vaddr len + len ≤ 2 ^ 47) :
    Safely Halts (fun r => Settled stale canon kept r.2 ∧ Kept s r.2 ∧ r.2.entry = s.entry ∧
        ∀ vma, r.1 = .ok vma → HasVma r.2 as vma ∧ vma.vmaBegin = s.placedAt as vaddr len)
      (if vaddr ≠ 0 then Mm.insertVmaToVaddr s as vaddr len flags
        else Mm.insertVmaToAny s as len flags) := by
  obtain ⟨sp, hsp⟩ := has
  rw [State.placedAt] at hb ⊢
  split
  · rename_i h0
    rw [if_pos h0] at hb
    exact h.insertVmaToVaddr hsp hb
  · rename_i h0
    rw [if_neg h0] at hb
    simp only [hsp] at hb ⊢
    exact h.insertVmaToAny hsp hb

theorem kept_mapNodes (h : Settled stale canon kept s) {as : ℕ} {vma : VmArea}
    (hvma : HasVma s as vma) {ph : List PageList} (hph : ∀ i ∈ heldBy ph, i ∈ s.nodes) (vaddr : ℕ) :
    Safely Halts (fun s' => Settled stale canon kept s' ∧ Kept s s')
      (Mm.mapNodes as vma ph vaddr s) :=
  ((h.mapNodes hvma hph vaddr).and (frame_mapNodes as vma ph vaddr s)).mono
    fun _ hs' => ⟨hs'.1, hs'.2.kept⟩

/-- `map_to_user_as` of a page list in flight. -/
theorem mapToUserAs (h : Settled stale canon kept s) {as id vaddr : ℕ} {plh : PageListHead}
    (hid : s.plists.lookup id = some plh) (has : ∃ sp, s.spaces as = some sp)
    (hb : canon → s.placedAt as vaddr (4096 * plh.npage % 2 ^ 64) + 4096 * plh.npage % 2 ^ 64 ≤ 2 ^ 47) :
    Safely Halts (fun r => Settled stale canon kept r.2 ∧ Kept s r.2) (mapToUserAs s as id vaddr) := by
  rw [Mm.mapToUserAs, State.getPlist, hid, ok_bind]
  split
  · simp
  simp only [safely_bind]
  refine (h.insertVma has hb).mono ?_
  rintro ⟨r, s₁⟩ ⟨h₁, hk₁, -, hvma⟩
  dsimp only at h₁ hk₁ hvma ⊢
  split
  · exact ⟨h₁, hk₁⟩
  · rename_i vma
    simp only [safely_bind, safely_pure]
    refine (h₁.kept_mapNodes (hvma vma rfl).1 (fun i hi => ?_) _).mono ?_
    · rw [State.nodes, hk₁.plists]
      obtain ⟨l₁, l₂, heq, -⟩ := List.lookup_eq_some_iff.1 hid
      exact List.mem_flatMap.2 ⟨(id, plh), by simp [heq], hi⟩
    · rintro s₂ ⟨h₂, hk₂⟩
      exact ⟨h₂, hk₁.trans hk₂⟩

/-- `address_space_assign_page` as a snapshot of the page of another entry. -/
theorem assignSnapshot (h : Settled stale canon kept s) {as vaddr p : ℕ}
    (has : ∃ sp, s.spaces as = some sp)
    (hp : ∃ a v pe, (a, v) ≠ (as, vaddr) ∧ s.entry a v = some pe ∧ pe.p = p) :
    Safely Halts (fun r => Settled stale canon kept r.2 ∧ Kept s r.2 ∧
        ∀ a v, (a, v) ≠ (as, vaddr) → r.2.entry a v = s.entry a v)
      (Mm.assignPage s as p vaddr PF_SNAPSHOT) := by
  refine ((h.sound.assignPage has validFlags_snapshot (.inr hp) (by simp [hasFlag, PF_SNAPSHOT])).and
    (frame_assignPage s as p vaddr PF_SNAPSHOT)).mono ?_
  rintro ⟨ret, s'⟩ ⟨⟨h', heff⟩, hf⟩
  refine ⟨h.frame hf h', hf.kept, fun a v hne => ?_⟩
  rcases heff with ⟨heq, -⟩ | ⟨id, s₁, hold, hnew⟩
  · rw [heq]
  · rw [hnew.entry, updEnt_of_ne (o := (a, v)) hne, hold.entry, updEnt_of_ne (o := (a, v)) hne]

/-- `sendpage` to an address space, unless it puts a page over itself. -/
theorem sendpageTo (h : Settled stale canon kept s) {as vaddr dst len : ℕ}
    (hlive : ∃ sp, s.spaces s.current = some sp) (has : ∃ sp, s.spaces as = some sp)
    (hb : canon → s.placedAt as dst len + len ≤ 2 ^ 47)
    (hself : as = s.current → ∀ i, wadd vaddr i ≠ wadd (s.placedAt as dst len) i) :
    Safely Halts (fun r => Settled stale canon kept r.2 ∧ Kept s r.2) (sendpageTo s as vaddr dst len) := by
  unfold Mm.sendpageTo
  split
  · exact ⟨h, Kept.refl s⟩
  obtain ⟨sp, hsp⟩ := hlive
  have hvalid : Safely Halts (fun _ => True)
      (if vaddr ≠ 0 then validateRange s vaddr 4096 else .ok true) := by
    split
    · rw [validateRange, getSpace_eq hsp]
      trivial
    · trivial
  simp only [safely_bind]
  refine hvalid.mono fun ok _ => ?_
  split
  · exact ⟨h, Kept.refl s⟩
  simp only [safely_bind]
  refine (h.insertVma has hb).mono ?_
  rintro ⟨r, s₁⟩ ⟨h₁, hk₁, -, hvma⟩
  dsimp only at h₁ hk₁ hvma ⊢
  split
  · exact ⟨h₁, hk₁⟩
  rename_i vma
  have hbegin := (hvma vma rfl).2
  simp only [safely_bind, safely_pure]
  split
  · refine safely_foldlM (fun _ s' => Settled stale canon kept s' ∧ Kept s s') ⟨h₁, hk₁⟩ ?_
    rintro i rest s₂ ⟨h₂, hk₂⟩
    unfold sendOne
    split
    · rename_i pe hpe
      simp only [safely_bind, safely_pure]
      refine (h₂.assignSnapshot (hk₂.space has) ⟨s₂.current, wadd vaddr i, pe, ?_, hpe, rfl⟩).mono ?_
      · rw [hk₂.current, hbegin]
        intro heq
        rw [Prod.mk.injEq] at heq
        exact hself heq.1.symm i heq.2
      · rintro ⟨ret, s₃⟩ ⟨h₃, hk₃, -⟩
        exact ⟨h₃, hk₂.trans hk₃⟩
    · exact ⟨h₂, hk₂⟩
  · exact ⟨h₁, hk₁⟩

/-! ## Forks -/

theorem snapshotVma (h : Settled stale canon kept s) {newAs : ℕ}
    (hnew : ∃ sp, s.spaces newAs = some sp) {vma : VmArea}
    (hb : canon → vma.vmaBegin + vma.vmaLength ≤ 2 ^ 47) :
    Safely Halts (fun s' => Settled stale canon kept s' ∧ Kept s s' ∧ s'.entry = s.entry)
      (snapshotVma newAs s vma) := by
  unfold Mm.snapshotVma
  split
  · exact ⟨h, Kept.refl s, rfl⟩
  · obtain ⟨sp, hsp⟩ := hnew
    simp only [safely_bind, safely_pure]
    refine (h.insertVmaToVaddr hsp hb).mono ?_
    rintro ⟨r, s'⟩ ⟨h', hk', hent, -⟩
    exact ⟨h', hk', hent⟩

theorem mem_entriesInOrder {m : AList fun _ : ℕ => PageEntry} {e : ℕ × PageEntry} :
    e ∈ entriesInOrder m ↔ m.lookup e.1 = some e.2 := by
  rw [entriesInOrder, List.mem_insertionSort, List.mem_map]
  constructor
  · rintro ⟨x, hx, rfl⟩
    exact AList.mem_lookup_iff.2 hx
  · exact fun he => ⟨⟨e.1, e.2⟩, AList.mem_lookup_iff.1 he, rfl⟩

theorem nodup_entriesInOrder (m : AList fun _ : ℕ => PageEntry) :
    ((entriesInOrder m).map Prod.fst).Nodup := by
  have hperm := (List.perm_insertionSort (fun a b : ℕ × PageEntry => a.1 ≤ b.1)
    (m.entries.map fun e => (e.1, e.2))).map Prod.fst
  rw [entriesInOrder, hperm.nodup_iff, List.map_map]
  exact m.nodupKeys

/-- `as_snapshot` into another address space. -/
theorem asSnapshot (h : Settled stale canon kept s) {newAs : ℕ}
    (hlive : ∃ sp, s.spaces s.current = some sp) (hnew : ∃ sp, s.spaces newAs = some sp)
    (hne : newAs ≠ s.current) :
    Safely Halts (fun s' => Settled stale canon kept s' ∧ Kept s s') (asSnapshot s newAs) := by
  obtain ⟨sp, hsp⟩ := hlive
  simp only [Mm.asSnapshot, safely_bind]
  rw [getSpace_eq hsp, safely_ok]
  have hvmas : Safely Halts (fun s' => Settled stale canon kept s' ∧ Kept s s' ∧ s'.entry = s.entry)
      (sp.vma.foldlM (Mm.snapshotVma newAs) s) := by
    refine Safely.mono (safely_foldlM (fun rest s' => Settled stale canon kept s' ∧ Kept s s' ∧
      s'.entry = s.entry ∧ rest ⊆ sp.vma) ⟨h, Kept.refl s, rfl, List.Subset.refl _⟩ ?_)
      fun s' hs' => ⟨hs'.1, hs'.2.1, hs'.2.2.1⟩
    rintro vma rest s₁ ⟨h₁, hk₁, hent₁, hsub⟩
    rw [List.cons_subset] at hsub
    refine (h₁.snapshotVma (hk₁.space hnew) fun hcan =>
      h.sound.bounds hcan _ sp hsp vma hsub.1).mono ?_
    rintro s₂ ⟨h₂, hk₂, hent₂⟩
    exact ⟨h₂, hk₁.trans hk₂, hent₂.trans hent₁, hsub.2⟩
  refine hvmas.mono ?_
  rintro s₁ ⟨h₁, hk₁, hent₁⟩
  obtain ⟨sp₁, hsp₁⟩ := hk₁.space ⟨sp, hsp⟩
  rw [← hk₁.current] at hsp₁
  rw [getSpace_eq hsp₁, safely_ok]
  -- every entry of the parent becomes a snapshot in the child
  refine Safely.mono (safely_foldlM (fun rest s' => Settled stale canon kept s' ∧ Kept s s' ∧
    ∀ e ∈ rest, s'.entry s.current e.1 = some e.2) ⟨h₁, hk₁, fun e he => ?_⟩ ?_)
    fun s' hs' => ⟨hs'.1, hs'.2.1⟩
  · rw [← hk₁.current, entry_of_space hsp₁]
    exact mem_entriesInOrder.1 he
  rintro e rest s₂ ⟨h₂, hk₂, hrest⟩
  have hrest' : ∀ e ∈ rest, s₂.entry s.current e.1 = some e.2 :=
    fun e' he' => hrest e' (List.mem_cons_of_mem _ he')
  unfold pageEntryVisitor
  split
  · exact ⟨h₂, hk₂, hrest'⟩
  · have hkey : ∀ v w : ℕ, ((s.current, v) : ℕ × ℕ) ≠ (newAs, w) := by
      intro v w heq
      rw [Prod.mk.injEq] at heq
      exact hne heq.1.symm
    simp only [safely_bind, safely_pure]
    refine (h₂.assignSnapshot (hk₂.space hnew)
      ⟨s.current, e.1, e.2, hkey _ _, hrest e List.mem_cons_self, rfl⟩).mono ?_
    rintro ⟨ret, s₃⟩ ⟨h₃, hk₃, hent₃⟩
    exact ⟨h₃, hk₂.trans hk₃, fun e' he' => (hent₃ _ _ (hkey _ _)).trans (hrest' e' he')⟩

/-- `asnew`: one address space more if the table has room for its handle. -/
theorem asnew (h : Settled stale canon kept s) (hlive : ∃ sp, s.spaces s.current = some sp)
    (tab : AsTable) (snapshot : Bool) :
    Safely Halts (fun r => Settled stale canon kept r.2 ∧ r.2.current = s.current ∧
        (r.1.2 = tab ∧ (∀ b, (r.2.spaces b).isSome = (s.spaces b).isSome) ∨
          ∃ fd, fdtableInsert s.aspacePool tab = some (fd, r.1.2) ∧
            ∀ b, (r.2.spaces b).isSome = (b = s.aspacePool || (s.spaces b).isSome)))
      (asnew s tab snapshot) := by
  obtain ⟨s₁, hs₁⟩ : ∃ s₁, s₁ = (Mm.aspaceNew (disableInterrupts s)).2 := ⟨_, rfl⟩
  have h₁ : Settled stale canon kept s₁ := by
    rw [hs₁]
    exact h.disable.aspaceNew
  have hfresh : s.spaces s.aspacePool = none := h.sound.fresh _ le_rfl
  have hlive₁ : ∀ b, (s₁.spaces b).isSome = (b = s.aspacePool || (s.spaces b).isSome) := by
    intro b
    by_cases hb : b = s.aspacePool
    · simp [hs₁, Mm.aspaceNew, State.setSpace, disableInterrupts, hb]
    · simp [hs₁, Mm.aspaceNew, State.setSpace, disableInterrupts, hb]
  have hcur₁ : s₁.current = s.current := by
    rw [hs₁]
    rfl
  have hnew : ∃ sp, s₁.spaces s.aspacePool = some sp := by
    rw [← Option.isSome_iff_exists, hlive₁]
    simp
  have hold : ∃ sp, s₁.spaces s₁.current = some sp := by
    rw [← Option.isSome_iff_exists] at hlive ⊢
    rw [hlive₁, hcur₁, hlive, Bool.or_true]
  have hpair : Mm.aspaceNew (disableInterrupts s) = (s.aspacePool, s₁) := by
    rw [hs₁]
    rfl
  rw [Mm.asnew]
  dsimp only
  rw [hpair]
  dsimp only
  split
  · simp only [safely_bind, safely_pure]
    refine (h₁.destroyAs hnew).mono ?_
    rintro s₂ ⟨h₂, hrest, hlive₂⟩
    refine safely_enable ⟨h₂.setCounter _, hrest.current.trans hcur₁, .inl ⟨trivial, fun b => ?_⟩⟩
    refine (hlive₂ b).trans ?_
    rw [hlive₁]
    by_cases hb : b = s.aspacePool
    · simp [hb, hfresh]
    · simp [hb]
  · rename_i fd tab' hfd
    have hne : s.aspacePool ≠ s₁.current := by
      rw [hcur₁]
      rintro heq
      obtain ⟨sp, hsp⟩ := hlive
      rw [← heq, hfresh] at hsp
      cases hsp
    have hsnap : Safely Halts (fun s₂ => Settled stale canon kept s₂ ∧ Kept s₁ s₂)
        (if snapshot = true then Mm.asSnapshot s₁ s.aspacePool else .ok s₁) := by
      split
      · exact h₁.asSnapshot hold hnew hne
      · exact ⟨h₁, Kept.refl s₁⟩
    simp only [safely_bind, safely_pure]
    refine hsnap.mono ?_
    rintro s₂ ⟨h₂, hk₂⟩
    refine safely_enable ⟨h₂.setCounter _, hk₂.current.trans hcur₁, .inr ⟨fd, hfd, fun b => ?_⟩⟩
    exact (hk₂.live b).trans (hlive₁ b)

/-- `asdestroy` of a handle. -/
theorem asdestroy (h : Settled stale canon kept s) {tab : AsTable}
    (htab : ∀ (i : ℕ) a, tab[i]? = some (some a) → ∃ sp, s.spaces a = some sp) (as : ℤ) :
    Safely Halts (fun r => Settled stale canon kept r.2 ∧ r.2.current = s.current ∧
        (r.1.2 = tab ∧ (∀ b, (r.2.spaces b).isSome = (s.spaces b).isSome) ∨
          ∃ i a, i ≠ 0 ∧ tab[i]? = some (some a) ∧ r.1.2 = tab.set i none ∧
            ∀ b, (r.2.spaces b).isSome = (b ≠ a && (s.spaces b).isSome))) (asdestroy s tab as) := by
  have hoff := h.disable
  have hfail : Safely Halts (fun s' => Settled stale canon kept s' ∧ s'.current = s.current ∧
      ∀ b, (s'.spaces b).isSome = (s.spaces b).isSome) (enableInterrupts (disableInterrupts s)) :=
    safely_enable ⟨hoff.setCounter _, rfl, fun _ => rfl⟩
  unfold Mm.asdestroy
  dsimp only
  split
  · simp only [safely_bind, safely_pure]
    exact hfail.mono fun s' hs' => ⟨hs'.1, hs'.2.1, .inl ⟨trivial, hs'.2.2⟩⟩
  rename_i hin
  rw [fileAt]
  cases hget : tab[as.toNat]? with
  | none =>
    rw [List.getElem?_eq_none_iff] at hget
    omega
  | some f =>
    rw [ok_bind]
    cases f with
    | none =>
      simp only [safely_bind, safely_pure]
      exact hfail.mono fun s' hs' => ⟨hs'.1, hs'.2.1, .inl ⟨trivial, hs'.2.2⟩⟩
    | some a =>
      simp only [safely_bind, safely_pure]
      refine (hoff.destroyAs (htab _ a hget)).mono ?_
      rintro s₁ ⟨h₁, hrest, hlive⟩
      exact safely_enable ⟨h₁.setCounter _, hrest.current, .inr ⟨as.toNat, a, by omega, hget, rfl, hlive⟩⟩

/-- `sendpage`, whose handle must not be the first one past the table. -/
theorem sendpage (h : Settled stale canon kept s) {tab : AsTable}
    (hlive : ∃ sp, s.spaces s.current = some sp)
    (htab : ∀ (i : ℕ) a, tab[i]? = some (some a) → ∃ sp, s.spaces a = some sp) {as : ℤ}
    {vaddr dst len : ℕ} (has : as ≠ tab.length)
    (hok : ∀ a, tab[as.toNat]? = some (some a) →
      (canon → s.placedAt a dst len + len ≤ 2 ^ 47) ∧
      (a = s.current → ∀ i, wadd vaddr i ≠ wadd (s.placedAt a dst len) i)) :
    Safely Halts (fun r => Settled stale canon kept r.2 ∧ Kept s r.2)
      (sendpage s tab as vaddr dst len) := by
  have hoff := h.disable
  simp only [Mm.sendpage, safely_bind, safely_pure]
  refine Safely.mono (Q := fun r : ℤ × State => Settled stale canon kept r.2 ∧ Kept s r.2) ?_ ?_
  · split
    · exact ⟨hoff, Kept.disable s⟩
    rename_i hin
    rw [fileAt]
    cases hget : tab[as.toNat]? with
    | none =>
      rw [List.getElem?_eq_none_iff] at hget
      omega
    | some f =>
      rw [ok_bind]
      cases f with
      | none => exact ⟨hoff, Kept.disable s⟩
      | some a =>
        obtain ⟨hb, hself⟩ := hok a hget
        refine (hoff.sendpageTo hlive (htab _ a hget) hb hself).mono ?_
        rintro r ⟨hr, hk⟩
        exact ⟨hr, (Kept.disable s).trans hk⟩
  rintro ⟨ret, s₁⟩ ⟨h₁, hk₁⟩
  exact safely_enable ⟨h₁.setCounter _, hk₁.setCounter _⟩

end Settled

end SadOS.Mm
