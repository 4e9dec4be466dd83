import SadOS.Mm.PageLists
import Mathlib.Data.List.Lattice

/-!
# Ranges of an address space

Insertion, removal and destruction keep the invariant of the memory manager.  The two
insertions are described by what they return; a removal unassigns the page entries
of each VMA that it cuts.

## Main definitions

* `insertVmaToVaddr_eq`, `insertVmaToAny_eq` — what the insertions return.
* `Trimmed` — the page entries of a list are gone, and VMAs were cut.
* `Settled.insertVmaToVaddr`, `Settled.insertVmaToAny` — insertion.
* `Settled.removeVmaRange`, `Settled.destroyAs` — removal.
-/

namespace SadOS.Mm

/-! ## What the insertions return -/

/-- The VMA that `insert_vma_to_vaddr` makes. -/
def AddressSpace.newVma (sp : AddressSpace) (vaddr len flags : ℕ) : VmArea :=
  ⟨sp.vmaPool, flags, 0, vaddr, len, [], .head⟩

theorem insertVmaToVaddr_eq {s : State} {as : ℕ} {sp : AddressSpace} (hsp : s.spaces as = some sp)
    (vaddr len flags : ℕ) :
    insertVmaToVaddr s as vaddr len flags = .ok
      (if vaddr % 4096 ≠ 0 then
        (.error (-2), s.setSpace as { sp with vmaPool := sp.vmaPool + 1 })
      else if vaddr < sp.lowAddr ∨ sp.highAddr < vaddr then
        (.error (-3), s.setSpace as { sp with vmaPool := sp.vmaPool + 1 })
      else match aspaceAddVma (sp.newVma vaddr len flags) .head sp.vma with
        | none => (.error (-1), s.setSpace as { sp with vmaPool := sp.vmaPool + 1 })
        | some l => (.ok (sp.newVma vaddr len flags),
            s.setSpace as { sp with vmaPool := sp.vmaPool + 1, vma := l })) := by
  have hsp' : (disableInterrupts s).spaces as = some sp := hsp
  obtain ⟨s₁, hs₁⟩ : ∃ s₁, s₁ = s.setSpace as { sp with vmaPool := sp.vmaPool + 1 } := ⟨_, rfl⟩
  have hfirst : enableInterrupts ((disableInterrupts s).setSpace as
      { sp with vmaPool := sp.vmaPool + 1 }) = .ok s₁ := by
    rw [hs₁]
    exact enableInterrupts_eq rfl
  rw [insertVmaToVaddr]
  dsimp only
  rw [getSpace_eq hsp', ok_bind, hfirst, ok_bind, ← hs₁]
  split
  · rfl
  split
  · rfl
  rw [AddressSpace.newVma]
  generalize aspaceAddVma _ _ _ = added
  cases added with
  | none =>
    dsimp only
    rw [enableInterrupts_eq (s := s₁) rfl]
    rfl
  | some l =>
    dsimp only
    have hlast : enableInterrupts ((disableInterrupts s₁).setSpace as
        { sp with vmaPool := sp.vmaPool + 1, vma := l }) =
        .ok (s.setSpace as { sp with vmaPool := sp.vmaPool + 1, vma := l }) := by
      rw [enableInterrupts_eq (s := s₁) rfl, hs₁]
      simp [State.setSpace, disableInterrupts]
    rw [hlast]
    rfl

theorem insertVmaToAny_eq {s : State} {as : ℕ} {sp : AddressSpace} (hsp : s.spaces as = some sp)
    (len flags : ℕ) :
    insertVmaToAny s as len flags = .ok
      (let gap := findGap len sp.lowAddr sp.vma
      if gap.2 = false ∧ sp.highAddr < wadd gap.1 len then (.error (-1), disableInterrupts s)
      else (.ok (sp.newVma gap.1 len flags), s.setSpace as { sp with
        vmaPool := sp.vmaPool + 1
        vma := insertAtGap (sp.newVma gap.1 len flags) len sp.lowAddr .head sp.vma })) := by
  have hsp' : (disableInterrupts s).spaces as = some sp := hsp
  rw [insertVmaToAny]
  dsimp only
  rw [getSpace_eq hsp', ok_bind]
  split
  · rfl
  · rw [enableInterrupts_eq (s := s) rfl, ok_bind]
    rfl

/-- The same address spaces are there, and the same one runs. -/
structure SameSpaces (s s' : State) : Prop where
  current : s'.current = s.current
  live : ∀ b, (s'.spaces b).isSome = (s.spaces b).isSome

@[refl] theorem SameSpaces.refl (s : State) : SameSpaces s s := ⟨rfl, fun _ => rfl⟩

@[trans] theorem SameSpaces.trans {s s' s'' : State} (h : SameSpaces s s') (h' : SameSpaces s' s'') :
    SameSpaces s s'' :=
  ⟨h'.current.trans h.current, fun b => (h'.live b).trans (h.live b)⟩

/-- So are the page lists in flight. -/
structure Kept (s s' : State) : Prop extends SameSpaces s s' where
  zeroPage : s'.zeroPage = s.zeroPage
  plists : s'.plists = s.plists
  plistPool : s'.plistPool = s.plistPool

namespace Kept

variable {s s' s'' : State}

@[refl] theorem refl (s : State) : Kept s s := ⟨SameSpaces.refl s, rfl, rfl, rfl⟩

@[trans] theorem trans (h : Kept s s') (h' : Kept s' s'') : Kept s s'' :=
  ⟨h.toSameSpaces.trans h'.toSameSpaces, h'.zeroPage.trans h.zeroPage, h'.plists.trans h.plists,
    h'.plistPool.trans h.plistPool⟩

theorem space (h : Kept s s') {a : ℕ} (ha : ∃ sp, s.spaces a = some sp) :
    ∃ sp, s'.spaces a = some sp := by
  rw [← Option.isSome_iff_exists] at ha ⊢
  rwa [h.live]

theorem setSpace {as : ℕ} {sp : AddressSpace} (h : s.spaces as = some sp) (sp' : AddressSpace) :
    Kept s (s.setSpace as sp') := by
  refine ⟨⟨rfl, fun b => ?_⟩, rfl, rfl, rfl⟩
  by_cases hb : b = as
  · subst hb
    rw [h]
    simp [State.setSpace]
  · simp [State.setSpace, hb]

theorem setCounter (h : Kept s s') (n : ℕ) : Kept s { s' with interruptDisabled := n } :=
  ⟨⟨h.current, h.live⟩, h.zeroPage, h.plists, h.plistPool⟩

theorem disable (s : State) : Kept s (disableInterrupts s) := (refl s).setCounter _

theorem returns_enable (h : Kept s s') : Returns (Kept s) (enableInterrupts s') := by
  unfold enableInterrupts
  split
  · simp
  · exact h.setCounter _

end Kept

theorem Frame.kept {s s' : State} (h : Frame s s') : Kept s s' := by
  refine ⟨⟨h.current, fun b => ?_⟩, h.zeroPage, h.plists, h.plistPool⟩
  have := congrArg Option.isSome (h.shape b)
  rwa [Option.isSome_map, Option.isSome_map] at this

/-! ## Insertion -/

/-- The accounts do not depend on VMAs. -/
theorem Consistent.setVmas {stale canon : Prop} {hole : List (ℕ × ℕ)} {held : List (ℕ × Kind)}
    {s : State} (h : Consistent stale canon hole held s) {as : ℕ} {sp : AddressSpace}
    (hsp : s.spaces as = some sp) (sp' : AddressSpace) (hmap : sp'.vaddrMap = sp.vaddrMap) :
    Consistent stale canon hole held (s.setSpace as sp') := by
  have hent : (s.setSpace as sp').entry = s.entry := entry_setSpace_vma hsp hmap
  refine ⟨?_, ?_⟩
  · rw [hent]
    exact h.linked
  · rw [hent]
    exact h.mapped

/-- Other VMAs that list the same page entries. -/
theorem Sound.setVmas {stale canon : Prop} {held : List (ℕ × Kind)} {s : State}
    (h : Sound stale canon held s) {as : ℕ} {sp : AddressSpace} (hsp : s.spaces as = some sp)
    {vma : List VmArea} {pool : ℕ} (hpages : (pagesOf vma).Perm (pagesOf sp.vma))
    (hids : (idsOf vma).Nodup) (hlt : ∀ id ∈ idsOf vma, id < pool)
    (hb : canon → ∀ v ∈ vma, v.vmaBegin + v.vmaLength ≤ 2 ^ 47) :
    Sound stale canon held (s.setSpace as { sp with vma, vmaPool := pool }) := by
  have ht : Tidy canon _ (s.setSpace as { sp with vma, vmaPool := pool }) := h.toTidy.setSpace hsp
    ((h.hung as sp hsp).of_perm (hpages.append_left []) hids hlt) hb rfl rfl
  rw [Function.update_eq_self] at ht
  exact ⟨h.toConsistent.setVmas hsp _ rfl, ht, h.spent⟩

theorem Settled.setVmas {stale canon : Prop} {kept : List ℕ} {s : State}
    (h : Settled stale canon kept s) {as : ℕ} {sp : AddressSpace} (hsp : s.spaces as = some sp)
    {vma : List VmArea} {pool : ℕ} (hpages : (pagesOf vma).Perm (pagesOf sp.vma))
    (hids : (idsOf vma).Nodup) (hlt : ∀ id ∈ idsOf vma, id < pool)
    (hb : canon → ∀ v ∈ vma, v.vmaBegin + v.vmaLength ≤ 2 ^ 47) :
    Settled stale canon kept (s.setSpace as { sp with vma, vmaPool := pool }) :=
  ⟨h.sound.setVmas hsp hpages hids hlt hb, h.plist_nodup, h.plist_lt, h.zero⟩

/-- The pool of an address space gave a VMA out. -/
theorem Settled.bumpPool {stale canon : Prop} {kept : List ℕ} {s : State}
    (h : Settled stale canon kept s) {as : ℕ} {sp : AddressSpace} (hsp : s.spaces as = some sp) :
    Settled stale canon kept (s.setSpace as { sp with vmaPool := sp.vmaPool + 1 }) := by
  have hh := h.sound.hung as sp hsp
  exact h.setVmas hsp (List.Perm.refl _) hh.ids (fun id hid => Nat.lt_succ_of_lt (hh.id_lt id hid))
    fun hcan => h.sound.bounds hcan as sp hsp

/-- One VMA more, which lists no page entry. -/
theorem Settled.addVma {stale canon : Prop} {kept : List ℕ} {s : State}
    (h : Settled stale canon kept s) {as : ℕ} {sp : AddressSpace} (hsp : s.spaces as = some sp)
    {vaddr len flags : ℕ} {l : List VmArea} (hb : canon → vaddr + len ≤ 2 ^ 47)
    (hl : (l.map VmArea.core).Perm ((sp.newVma vaddr len flags).core :: sp.vma.map VmArea.core)) :
    Settled stale canon kept (s.setSpace as { sp with vma := l, vmaPool := sp.vmaPool + 1 }) ∧
      HasVma (s.setSpace as { sp with vma := l, vmaPool := sp.vmaPool + 1 }) as
        (sp.newVma vaddr len flags) := by
  have hh := h.sound.hung as sp hsp
  have hids := idsOf_of_core hl
  constructor
  · refine h.setVmas hsp (pagesOf_of_core rfl hl) ?_ ?_ ?_
    · refine hids.nodup_iff.2 (List.nodup_cons.2 ⟨fun hmem => ?_, hh.ids⟩)
      exact lt_irrefl _ (hh.id_lt _ hmem)
    · intro id hid
      rcases List.mem_cons.1 (hids.mem_iff.1 hid) with rfl | hid
      · exact Nat.lt_succ_self _
      · exact Nat.lt_succ_of_lt (hh.id_lt id hid)
    · intro hcan v hv
      have hcore := hl.mem_iff.1 (List.mem_map_of_mem (f := VmArea.core) hv)
      rcases List.mem_cons.1 hcore with heq | hmem
      · have hb' := hb hcan
        simp only [VmArea.core, AddressSpace.newVma, VmArea.mk.injEq] at heq
        omega
      · obtain ⟨w, hw, heq⟩ := List.mem_map.1 hmem
        have hb' := h.sound.bounds hcan as sp hsp w hw
        simp only [VmArea.core, VmArea.mk.injEq] at heq
        omega
  · have hmem := hl.mem_iff.2 (List.mem_cons_self (l := sp.vma.map VmArea.core))
    obtain ⟨v, hv, heq⟩ := List.mem_map.1 hmem
    simp only [VmArea.core, VmArea.mk.injEq] at heq
    exact ⟨_, Function.update_self .., v, hv, heq.1, heq.2.2.2.1, heq.2.2.2.2.1⟩

theorem Settled.insertVmaToVaddr {stale canon : Prop} {kept : List ℕ} {s : State}
    (h : Settled stale canon kept s) {as : ℕ} {sp : AddressSpace} (hsp : s.spaces as = some sp)
    {vaddr len flags : ℕ} (hb : canon → vaddr + len ≤ 2 ^ 47) :
    Safely Halts (fun r => Settled stale canon kept r.2 ∧ Kept s r.2 ∧ r.2.entry = s.entry ∧
        ∀ vma, r.1 = .ok vma → HasVma r.2 as vma ∧ vma.vmaBegin = vaddr)
      (insertVmaToVaddr s as vaddr len flags) := by
  rw [insertVmaToVaddr_eq hsp, safely_ok]
  have hfail : ∀ e : ℤ, Settled stale canon kept (s.setSpace as { sp with vmaPool := sp.vmaPool + 1 }) ∧
      Kept s (s.setSpace as { sp with vmaPool := sp.vmaPool + 1 }) ∧
      (s.setSpace as { sp with vmaPool := sp.vmaPool + 1 }).entry = s.entry ∧
      ∀ vma, (Except.error e : Except ℤ VmArea) = .ok vma →
        HasVma (s.setSpace as { sp with vmaPool := sp.vmaPool + 1 }) as vma ∧ vma.vmaBegin = vaddr :=
    fun e => ⟨h.bumpPool hsp, Kept.setSpace hsp _, entry_setSpace_vma hsp rfl, by simp⟩
  split
  · exact hfail _
  split
  · exact hfail _
  split
  · exact hfail _
  · rename_i l hadd
    obtain ⟨h', hvma⟩ := h.addVma hsp hb (core_aspaceAddVma hadd)
    refine ⟨h', Kept.setSpace hsp _, entry_setSpace_vma hsp rfl, ?_⟩
    rintro vma heq
    obtain rfl : sp.newVma vaddr len flags = vma := by simpa using heq
    exact ⟨hvma, rfl⟩

/-- The error return leaves interrupts disabled. -/
theorem Settled.insertVmaToAny {stale canon : Prop} {kept : List ℕ} {s : State}
    (h : Settled stale canon kept s) {as : ℕ} {sp : AddressSpace} (hsp : s.spaces as = some sp)
    {len flags : ℕ} (hb : canon → (findGap len sp.lowAddr sp.vma).1 + len ≤ 2 ^ 47) :
    Safely Halts (fun r => Settled stale canon kept r.2 ∧ Kept s r.2 ∧ r.2.entry = s.entry ∧
        ∀ vma, r.1 = .ok vma → HasVma r.2 as vma ∧
          vma.vmaBegin = (findGap len sp.lowAddr sp.vma).1) (insertVmaToAny s as len flags) := by
  rw [insertVmaToAny_eq hsp, safely_ok]
  dsimp only
  split
  · exact ⟨h.disable, Kept.disable s, rfl, by simp⟩
  · obtain ⟨h', hvma⟩ := h.addVma hsp hb
      (core_insertAtGap (sp.newVma (findGap len sp.lowAddr sp.vma).1 len flags) len sp.lowAddr .head
        sp.vma)
    refine ⟨h', Kept.setSpace hsp _, entry_setSpace_vma hsp rfl, ?_⟩
    rintro vma heq
    obtain rfl : sp.newVma (findGap len sp.lowAddr sp.vma).1 len flags = vma := by simpa using heq
    exact ⟨hvma, rfl⟩

/-! ## Page entries go -/

/-- The entries of `gone` went from the address space `as`, whose VMAs may have changed. -/
structure Trimmed (as : ℕ) (gone : List ℕ) (s s' : State) : Prop extends SameRest s s' where
  mem : s'.mem = s.mem
  other : ∀ b, b ≠ as → s'.spaces b = s.spaces b
  live : (s'.spaces as).map (fun sp => (sp.lowAddr, sp.highAddr)) =
    (s.spaces as).map fun sp => (sp.lowAddr, sp.highAddr)
  entry : ∀ v, s'.entry as v = if v ∈ gone then none else s.entry as v

namespace Trimmed

variable {s s' s'' : State} {as : ℕ} {gone gone' : List ℕ}

theorem refl (as : ℕ) (s : State) : Trimmed as [] s s :=
  ⟨SameRest.refl s, rfl, fun _ _ => rfl, rfl, fun _ => by simp⟩

theorem trans (h : Trimmed as gone s s') (h' : Trimmed as gone' s' s'') :
    Trimmed as (gone ++ gone') s s'' := by
  refine ⟨h.toSameRest.trans h'.toSameRest, h'.mem.trans h.mem,
    fun b hb => (h'.other b hb).trans (h.other b hb), h'.live.trans h.live, fun v => ?_⟩
  rw [h'.entry, h.entry]
  by_cases hv : v ∈ gone
  · simp [hv]
  · simp [hv]

/-- Only VMAs change. -/
theorem setVmas {sp : AddressSpace} (sp' : AddressSpace) (hsp : s.spaces as = some sp)
    (hmap : sp'.vaddrMap = sp.vaddrMap) (hlow : sp'.lowAddr = sp.lowAddr)
    (hhigh : sp'.highAddr = sp.highAddr) : Trimmed as [] s (s.setSpace as sp') := by
  refine ⟨⟨rfl, rfl, rfl, rfl, rfl, rfl, rfl, rfl⟩, rfl, fun b hb => Function.update_of_ne hb _ _, ?_,
    fun v => ?_⟩
  · rw [hsp]
    simp [State.setSpace, hlow, hhigh]
  · rw [entry_setSpace_vma hsp hmap]
    simp

theorem of_unassigned {v : ℕ} (h : Unassigned as v s s') : Trimmed as [v] s s' := by
  have hent := h.entry
  obtain ⟨sp, hsp, hq⟩ := h
  refine ⟨⟨hq.current, hq.zeroPage, hq.interruptDisabled, hq.aspacePool, hq.vmaJunk, hq.freeRange,
    hq.plists, hq.plistPool⟩, hq.mem, fun b hb => ?_, ?_, fun w => ?_⟩
  · rw [hq.spaces]
    exact Function.update_of_ne hb _ _
  · rw [hq.spaces, hsp]
    simp [State.setSpace, AddressSpace.unassign]
  · rw [hent, updEnt_apply]
    simp

end Trimmed

/-- A loop of `unassign_page`. -/
theorem effect_unassignAll (as : ℕ) (l : List ℕ) (s : State) :
    Returns (Trimmed as l s) (l.foldlM (unassignPage as) s) := by
  induction l generalizing s with
  | nil => exact Trimmed.refl as s
  | cons v rest ih =>
    simp only [List.foldlM_cons, safely_bind]
    refine (effect_unassignPage as s v).mono fun s₁ h₁ => ?_
    exact (ih s₁).mono fun s₂ h₂ => (Trimmed.of_unassigned h₁).trans h₂

theorem modifyVma_eq {s : State} {as : ℕ} {sp : AddressSpace} (hsp : s.spaces as = some sp)
    (f : List VmArea → List VmArea) :
    s.modifyVma as f = s.setSpace as { sp with vma := f sp.vma } := by
  rw [State.modifyVma, hsp]

theorem trimmed_modifyVma (s : State) (as : ℕ) (f : List VmArea → List VmArea) :
    Trimmed as [] s (s.modifyVma as f) := by
  cases hsp : s.spaces as with
  | none =>
    rw [State.modifyVma, hsp]
    exact Trimmed.refl as s
  | some sp =>
    rw [modifyVma_eq hsp]
    exact Trimmed.setVmas _ hsp rfl rfl rfl

/-- The page entries that the loop of `remove_vma_range` unassigns. -/
def gonePages (base len : ℕ) : List VmArea → List ℕ
  | [] => []
  | v :: rest =>
    let nowEnd := wadd v.vmaBegin v.vmaLength
    let holeEnd := wadd base len
    if nowEnd ≤ base then gonePages base len rest
    else if holeEnd ≤ v.vmaBegin then []
    else if base ≤ v.vmaBegin ∧ nowEnd ≤ holeEnd then v.pages ++ gonePages base len rest
    else if v.vmaBegin < base ∧ holeEnd < nowEnd then
      v.pages.filter fun vaddr => decide (vaddr < holeEnd ∧ base ≤ vaddr)
    else (v.pages.filter fun vaddr => decide (base ≤ vaddr ∧ vaddr < holeEnd)) ++
      gonePages base len rest

theorem effect_removeVmaRangeFrom (as base len : ℕ) (nowp : Link) (l : List VmArea) (s : State) :
    Returns (Trimmed as (gonePages base len l) s) (removeVmaRangeFrom as base len nowp l s) := by
  induction l generalizing nowp s with
  | nil => exact Trimmed.refl as s
  | cons v rest ih =>
    rw [removeVmaRangeFrom, gonePages]
    dsimp only
    split
    · exact ih _ s
    split
    · exact Trimmed.refl as s
    split
    · simp only [safely_bind]
      refine (effect_unassignAll as v.pages _).mono fun s₁ h₁ => ?_
      have h₁' := (trimmed_modifyVma s as (unlinkVma v.id nowp)).trans h₁
      exact (ih nowp s₁).mono fun s₂ h₂ => h₁'.trans h₂
    split
    · simp only [safely_bind]
      refine (returns_getSpace s as).mono fun sp hsp => ?_
      refine (effect_unassignAll as _ _).mono fun s₁ h₁ => ?_
      refine Trimmed.trans (Trimmed.setVmas { sp with
        vmaPool := sp.vmaPool + 1
        vma := splitVma v.id base (wadd base len) sp.vmaPool (s.vmaJunk as sp.vmaPool) nowp sp.vma }
        hsp rfl rfl rfl) h₁
    · simp only [safely_bind]
      refine (effect_unassignAll as _ _).mono fun s₁ h₁ => ?_
      have h₁' := (trimmed_modifyVma s as _).trans h₁
      exact (ih _ s₁).mono fun s₂ h₂ => h₁'.trans h₂

theorem effect_removeVmaRange (s : State) (as base len : ℕ) :
    Returns (fun s' => ∃ sp, s.spaces as = some sp ∧ Trimmed as (gonePages base len sp.vma) s s')
      (removeVmaRange s as base len) := by
  unfold removeVmaRange
  split
  · simp only [safely_bind]
    refine (returns_getSpace s as).mono fun sp hsp => ?_
    exact (effect_removeVmaRangeFrom as base len .head sp.vma s).mono fun s' h => ⟨sp, hsp, h⟩
  · simp

/-! ## Removal keeps the accounts -/

/-- The entries of `l` go, whether their VMAs still list them or not. -/
theorem Consistent.unassignAll {stale canon low : Prop} {held : List (ℕ × Kind)} {out : ℕ → List ℕ}
    {s : State} (h : Consistent stale canon [] held s) (ht : Tidy low out s) {as : ℕ} {l : List ℕ}
    (hl : l.Nodup) (hent : ∀ v ∈ l, ∃ pe, s.entry as v = some pe) :
    Safely Halts (fun s' => Consistent stale canon [] held s' ∧
      Tidy low (Function.update out as ((out as).diff l)) s') (l.foldlM (Mm.unassignPage as) s) := by
  induction l generalizing out s with
  | nil => exact ⟨h, by simpa using ht⟩
  | cons v rest ih =>
    obtain ⟨hnot, hl⟩ := List.nodup_cons.1 hl
    obtain ⟨pe, hpe⟩ := hent v List.mem_cons_self
    rw [List.foldlM_cons, safely_bind]
    refine ((h.unassignPage hpe List.not_mem_nil).and (effect_unassignPage as s v)).mono ?_
    rintro s₁ ⟨h₁, hu⟩
    refine (ih h₁ (ht.unassigned hu) hl fun w hw => ?_).mono ?_
    · rw [hu.entry, updEnt_of_ne (o := (as, w))]
      · exact hent w (List.mem_cons_of_mem _ hw)
      · rintro heq
        rw [Prod.mk.injEq] at heq
        exact hnot (heq.2 ▸ hw)
    · rintro s₂ ⟨h₂, ht₂⟩
      rw [Function.update_idem, Function.update_self] at ht₂
      exact ⟨h₂, by rwa [List.diff_cons]⟩

/-- The VMAs of `rest` are still those of the address space, apart from their back links. -/
structure Pending (as : ℕ) (rest : List VmArea) (s : State) : Prop where
  ids : (idsOf rest).Nodup
  mem : ∃ sp, s.spaces as = some sp ∧ ∀ v ∈ rest, ∃ w ∈ sp.vma, w.core = v.core

theorem Pending.tail {as : ℕ} {v : VmArea} {rest : List VmArea} {s : State}
    (h : Pending as (v :: rest) s) : Pending as rest s := by
  obtain ⟨hids, sp, hsp, hmem⟩ := h
  exact ⟨(List.nodup_cons.1 hids).2, sp, hsp, fun u hu => hmem u (List.mem_cons_of_mem _ hu)⟩

/-- Unassigning page entries of other VMAs leaves the VMAs of `rest`. -/
theorem Pending.unassignAll {as : ℕ} {rest : List VmArea} {l : List ℕ} {s : State}
    (h : Pending as rest s) (hdisj : ∀ v ∈ l, v ∉ pagesOf rest) :
    Returns (Pending as rest) (l.foldlM (unassignPage as) s) := by
  refine safely_foldlM (fun left s' => Pending as rest s' ∧ left ⊆ l) ⟨h, List.Subset.refl l⟩ ?_
    |>.mono fun s' h' => h'.1
  rintro v left s₁ ⟨⟨hids, sp, hsp, hmem⟩, hsub⟩
  rw [List.cons_subset] at hsub
  refine (effect_unassignPage as s₁ v).mono ?_
  rintro s₂ ⟨sp', hsp', hq⟩
  rw [hsp, Option.some.injEq] at hsp'
  subst hsp'
  refine ⟨⟨hids, sp.unassign v, by rw [hq.spaces]; exact Function.update_self .., ?_⟩, hsub.2⟩
  intro u hu
  obtain ⟨w, hw, hcore⟩ := hmem u hu
  refine ⟨{ w with pages := w.pages.erase v }, List.mem_map_of_mem hw, ?_⟩
  have hnot : v ∉ w.pages := by
    rw [(VmArea.core_eq_iff.1 hcore).2.2.2.2.2]
    exact fun hv => hdisj v hsub.1 (List.mem_flatMap.2 ⟨u, hu, hv⟩)
  rw [List.erase_of_not_mem hnot, ← hcore]

/-- A VMA that the loop of `remove_vma_range` looks at. -/
theorem Pending.head {as : ℕ} {v : VmArea} {rest : List VmArea} {s : State}
    (h : Pending as (v :: rest) s) :
    ∃ sp w, s.spaces as = some sp ∧ w ∈ sp.vma ∧ w.core = v.core ∧
      ∀ u ∈ rest, ∃ x ∈ sp.vma, x.core = u.core ∧ x.id ≠ v.id := by
  obtain ⟨hids, sp, hsp, hmem⟩ := h
  obtain ⟨w, hw, hcore⟩ := hmem v List.mem_cons_self
  refine ⟨sp, w, hsp, hw, hcore, fun u hu => ?_⟩
  obtain ⟨x, hx, hxcore⟩ := hmem u (List.mem_cons_of_mem _ hu)
  refine ⟨x, hx, hxcore, ?_⟩
  rw [(VmArea.core_eq_iff.1 hxcore).1]
  intro hid
  have hmem := mem_idsOf hu
  rw [hid] at hmem
  exact (List.nodup_cons.1 hids).1 hmem

/-- Entries that no VMA lists are not those of the VMAs of `rest`. -/
theorem Pending.disjoint {as : ℕ} {rest : List VmArea} {s : State} {sp : AddressSpace} {l : List ℕ}
    (h : Pending as rest s) (hsp : s.spaces as = some sp) (hh : Hung l sp) :
    ∀ u ∈ l, u ∉ pagesOf rest := by
  intro u hu hmem
  obtain ⟨x, hx, hux⟩ := List.mem_flatMap.1 hmem
  obtain ⟨-, sp', hsp', hpend⟩ := h
  rw [hsp, Option.some.injEq] at hsp'
  subst hsp'
  obtain ⟨y, hy, hycore⟩ := hpend x hx
  rw [← (VmArea.core_eq_iff.1 hycore).2.2.2.2.2] at hux
  exact (List.nodup_append.1 hh.nodup).2.2 u hu u (List.mem_flatMap.2 ⟨y, hy, hux⟩) rfl

/-- Resizing keeps all other VMAs. -/
theorem mem_resizeVma_of_ne {id vmaBegin vmaLength : ℕ} {l : List VmArea} {x : VmArea} (hx : x ∈ l)
    (hid : x.id ≠ id) : x ∈ resizeVma id vmaBegin vmaLength l :=
  List.mem_map.2 ⟨x, hx, if_neg hid⟩

/-- A VMA of the list without the one with the address `v.id`. -/
theorem exists_unlinkVma {v x : VmArea} {l : List VmArea} (hv : v ∈ l) (hids : (idsOf l).Nodup)
    (nowp : Link) (hx : x ∈ l) (hid : x.id ≠ v.id) :
    ∃ y ∈ unlinkVma v.id nowp l, y.core = x.core := by
  have hmem := (core_unlinkVma hv hids nowp).mem_iff.2 (List.mem_map_of_mem (f := VmArea.core) hx)
  rcases List.mem_cons.1 hmem with heq | hmem
  · exact absurd (VmArea.core_eq_iff.1 heq).1 hid
  · exact List.mem_map.1 hmem

/-- `list_del` of a VMA leaves the bounds of the others. -/
theorem bounds_of_core {l l' : List VmArea} (h : ∀ x ∈ l', ∃ y ∈ l, x.core = y.core)
    (hb : ∀ v ∈ l, v.vmaBegin + v.vmaLength ≤ 2 ^ 47) :
    ∀ v ∈ l', v.vmaBegin + v.vmaLength ≤ 2 ^ 47 := by
  intro v hv
  obtain ⟨w, hw, hcore⟩ := h v hv
  have hcore' := VmArea.core_eq_iff.1 hcore
  have := hb w hw
  omega

section Removal

variable {stale canon low : Prop} {held : List (ℕ × Kind)} {s : State}

/-- The first case of `remove_vma_range`: the VMA goes with all its page entries. -/
theorem Consistent.removeWhole (h : Consistent stale canon [] held s)
    (ht : Tidy low (fun _ => []) s) {as : ℕ} {v : VmArea} {rest : List VmArea}
    (hp : Pending as (v :: rest) s) (nowp : Link) :
    Safely Halts (fun s' => Consistent stale canon [] held s' ∧ Tidy low (fun _ => []) s' ∧
      Pending as rest s') (v.pages.foldlM (Mm.unassignPage as) (s.modifyVma as (unlinkVma v.id nowp))) := by
  obtain ⟨sp, w, hsp, hw, hcore, hrest⟩ := hp.head
  obtain ⟨hid, -, -, -, -, hpages⟩ := VmArea.core_eq_iff.1 hcore
  have hh := ht.hung as sp hsp
  have hunlink := core_unlinkVma hw hh.ids nowp
  rw [hid] at hunlink
  have hpagesPerm : (v.pages ++ pagesOf (unlinkVma v.id nowp sp.vma)).Perm (pagesOf sp.vma) := by
    have := hunlink.flatMap_right (f := VmArea.pages)
    rw [← pagesOf, ← pagesOf, pagesOf_cons, pagesOf_map_core, pagesOf_map_core] at this
    rw [← hpages]
    exact this
  have hidsPerm : (w.id :: idsOf (unlinkVma v.id nowp sp.vma)).Perm (idsOf sp.vma) := by
    have := hunlink.map VmArea.id
    rwa [← idsOf, ← idsOf, idsOf_cons, idsOf_map_core, idsOf_map_core] at this
  -- the VMA is off the list, and its entries wait
  obtain ⟨sp₁, hsp₁⟩ : ∃ sp₁, sp₁ = { sp with vma := unlinkVma v.id nowp sp.vma } := ⟨_, rfl⟩
  have hlive₁ : (s.setSpace as sp₁).spaces as = some sp₁ := Function.update_self ..
  have hent₁ : (s.setSpace as sp₁).entry = s.entry := entry_setSpace_vma hsp (by rw [hsp₁])
  have hung₁ : Hung v.pages sp₁ := by
    rw [hsp₁]
    exact hh.of_perm hpagesPerm (List.nodup_cons.1 (hidsPerm.nodup_iff.2 hh.ids)).2 fun id hid =>
      hh.id_lt id (hidsPerm.mem_iff.1 (List.mem_cons_of_mem _ hid))
  have ht₁ : Tidy low (Function.update (fun _ => []) as v.pages) (s.setSpace as sp₁) := by
    refine ht.setSpace hsp hung₁ (fun hcan => ?_) rfl rfl
    rw [hsp₁]
    refine bounds_of_core (fun x hx => ?_) (ht.bounds hcan as sp hsp)
    have hmem := hunlink.mem_iff.1 (List.mem_cons_of_mem _ (List.mem_map_of_mem (f := VmArea.core) hx))
    obtain ⟨y, hy, heq⟩ := List.mem_map.1 hmem
    exact ⟨y, hy, heq.symm⟩
  have hpend₁ : Pending as rest (s.setSpace as sp₁) := by
    refine ⟨(List.nodup_cons.1 hp.ids).2, sp₁, hlive₁, fun u hu => ?_⟩
    obtain ⟨x, hx, hxcore, hne⟩ := hrest u hu
    obtain ⟨y, hy, hycore⟩ := exists_unlinkVma hw hh.ids nowp hx (by rwa [hid])
    rw [hid] at hy
    exact ⟨y, by rwa [hsp₁], hycore.trans hxcore⟩
  have hout : ∀ u ∈ v.pages, ∃ pe, (s.setSpace as sp₁).entry as u = some pe := by
    intro u hu
    rw [entry_of_space hlive₁]
    exact (hung₁.mem_iff u).1 (List.mem_append_left _ hu)
  have hc₁ := h.setVmas hsp sp₁ (by rw [hsp₁])
  rw [modifyVma_eq hsp, ← hsp₁]
  refine ((hc₁.unassignAll ht₁ (List.nodup_append.1 hung₁.nodup).1 hout).and
    (hpend₁.unassignAll (hpend₁.disjoint hlive₁ hung₁))).mono ?_
  rintro s₂ ⟨⟨hc₂, ht₂⟩, hpend₂⟩
  have hnone : v.pages.diff v.pages = [] := by
    induction v.pages with
    | nil => rfl
    | cons u l ih => rwa [List.diff_cons, List.erase_cons_head]
  rw [Function.update_idem, Function.update_self, hnone, Function.update_eq_self] at ht₂
  exact ⟨hc₂, ht₂, hpend₂⟩

/-- The other cases: some VMAs have other bounds, and some page entries go. -/
theorem Consistent.removeCut (h : Consistent stale canon [] held s)
    (ht : Tidy low (fun _ => []) s) {as : ℕ} {sp : AddressSpace} (hsp : s.spaces as = some sp)
    {vma : List VmArea} {pool : ℕ} (hpages : (pagesOf vma).Perm (pagesOf sp.vma))
    (hids : (idsOf vma).Nodup) (hlt : ∀ id ∈ idsOf vma, id < pool)
    (hb : low → ∀ v ∈ vma, v.vmaBegin + v.vmaLength ≤ 2 ^ 47) {l : List ℕ}
    (hl : l.Nodup) (hsub : l ⊆ pagesOf sp.vma) :
    Safely Halts (fun s' => Consistent stale canon [] held s' ∧ Tidy low (fun _ => []) s')
      (l.foldlM (Mm.unassignPage as) (s.setSpace as { sp with vma, vmaPool := pool })) := by
  have hh := ht.hung as sp hsp
  have ht₁ : Tidy low _ (s.setSpace as { sp with vma, vmaPool := pool }) := ht.setSpace hsp
    (hh.of_perm (hpages.append_left []) hids hlt) hb rfl rfl
  rw [Function.update_eq_self] at ht₁
  have hent : (s.setSpace as { sp with vma, vmaPool := pool }).entry = s.entry :=
    entry_setSpace_vma hsp rfl
  refine ((h.setVmas hsp { sp with vma, vmaPool := pool } rfl).unassignAll ht₁ hl
    fun v hv => ?_).mono ?_
  · rw [hent, entry_of_space hsp]
    exact (hh.mem_iff v).1 (by simpa using hsub hv)
  · rintro s' ⟨h', ht'⟩
    rw [List.nil_diff, Function.update_eq_self] at ht'
    exact ⟨h', ht'⟩

/-- A VMA of the list has no page entry twice, and they are entries of the list. -/
theorem Hung.pages_of_core {sp : AddressSpace} (h : Hung [] sp) {v w : VmArea} (hw : w ∈ sp.vma)
    (hcore : w.core = v.core) : v.pages.Nodup ∧ v.pages ⊆ pagesOf sp.vma := by
  rw [← (VmArea.core_eq_iff.1 hcore).2.2.2.2.2]
  have hsub : w.pages.Sublist (pagesOf sp.vma) := by
    rw [pagesOf, List.flatMap_def]
    exact List.sublist_flatten_of_mem (List.mem_map_of_mem hw)
  have hnodup : (pagesOf sp.vma).Nodup := by simpa using h.nodup
  exact ⟨hnodup.sublist hsub, hsub.subset⟩

/-- A page entry is listed by one VMA. -/
theorem Hung.listed_once {sp : AddressSpace} (h : Hung [] sp) {v w : VmArea} (hv : v ∈ sp.vma)
    (hw : w ∈ sp.vma) {u : ℕ} (huv : u ∈ v.pages) (huw : u ∈ w.pages) : v = w := by
  have hnodup : (pagesOf sp.vma).Nodup := by simpa using h.nodup
  rw [pagesOf, List.nodup_flatMap] at hnodup
  have : Std.Symm (Function.onFun List.Disjoint VmArea.pages) := ⟨fun _ _ hd => hd.symm⟩
  by_contra hne
  exact hnodup.2.forall hv hw hne huv huw

/-- The bounds that `remove_vma_range` leaves are inside those it found. -/
theorem cut_bounds {vmaBegin vmaLength base holeEnd : ℕ} (hb : vmaBegin + vmaLength ≤ 2 ^ 47)
    (hbase : base < wadd vmaBegin vmaLength) :
    (vmaBegin < base → vmaBegin + wsub base vmaBegin ≤ 2 ^ 47) ∧
      (holeEnd < wadd vmaBegin vmaLength →
        holeEnd + wsub (wadd vmaBegin vmaLength) holeEnd ≤ 2 ^ 47) := by
  simp only [wadd, wsub] at *
  omega

/-- The loop of `remove_vma_range`. -/
theorem Consistent.removeVmaRangeFrom (h : Consistent stale canon [] held s)
    (ht : Tidy low (fun _ => []) s) {as base len : ℕ} {l : List VmArea} (hp : Pending as l s)
    (nowp : Link) :
    Safely Halts (fun s' => Consistent stale canon [] held s' ∧ Tidy low (fun _ => []) s')
      (removeVmaRangeFrom as base len nowp l s) := by
  induction l generalizing nowp s with
  | nil => exact ⟨h, ht⟩
  | cons v rest ih =>
    rw [Mm.removeVmaRangeFrom]
    dsimp only
    split
    · exact ih h ht hp.tail _
    rename_i hbase
    split
    · exact ⟨h, ht⟩
    split
    · rw [safely_bind]
      refine (h.removeWhole ht hp nowp).mono ?_
      rintro s₁ ⟨h₁, ht₁, hp₁⟩
      exact ih h₁ ht₁ hp₁ nowp
    rename_i hhole hwhole
    obtain ⟨sp, w, hsp, hw, hcore, hrest⟩ := hp.head
    have hh := ht.hung as sp hsp
    obtain ⟨hid, -, -, hwb, hwl, -⟩ := VmArea.core_eq_iff.1 hcore
    obtain ⟨hnodup, hsub⟩ := hh.pages_of_core hw hcore
    have hcut : low → (v.vmaBegin < base → v.vmaBegin + wsub base v.vmaBegin ≤ 2 ^ 47) ∧
        (wadd base len < wadd v.vmaBegin v.vmaLength →
          wadd base len + wsub (wadd v.vmaBegin v.vmaLength) (wadd base len) ≤ 2 ^ 47) := by
      intro hcan
      have hb := ht.bounds hcan as sp hsp w hw
      rw [hwb, hwl] at hb
      exact cut_bounds hb (by omega)
    split
    · rename_i hsplit
      have hids := idsOf_splitVma hw base (wadd base len) sp.vmaPool (s.vmaJunk as sp.vmaPool) nowp
      rw [hid] at hids
      rw [getSpace_eq hsp, ok_bind]
      refine h.removeCut ht hsp (pagesOf_splitVma ..) ?_ ?_ (fun hcan => ?_) (hnodup.filter _)
        (List.Subset.trans List.filter_sublist.subset hsub)
      · refine hids.nodup_iff.2 (List.nodup_cons.2 ⟨fun hmem => ?_, hh.ids⟩)
        exact lt_irrefl _ (hh.id_lt _ hmem)
      · intro id hid
        rcases List.mem_cons.1 (hids.mem_iff.1 hid) with rfl | hid
        · exact Nat.lt_succ_self _
        · exact Nat.lt_succ_of_lt (hh.id_lt id hid)
      · refine bounds_splitVma (P := fun b l => b + l ≤ 2 ^ 47) (ht.bounds hcan as sp hsp) hh.ids hw
          hid ?_ ?_ _ _ _
        · rw [hwb]
          exact (hcut hcan).1 hsplit.1
        · rw [hwb, hwl]
          exact (hcut hcan).2 hsplit.2
    · rename_i hnosplit
      -- the new bounds
      obtain ⟨b, n, hbn, hres⟩ : ∃ b n, (low → b + n ≤ 2 ^ 47) ∧
          (if v.vmaBegin < base then resizeVma v.id v.vmaBegin (wsub base v.vmaBegin)
            else resizeVma v.id (wadd base len) (wsub (wadd v.vmaBegin v.vmaLength) (wadd base len))) =
          resizeVma v.id b n := by
        split
        · rename_i hlow
          exact ⟨_, _, fun hcan => (hcut hcan).1 hlow, rfl⟩
        · rename_i hlow
          exact ⟨_, _, fun hcan => (hcut hcan).2 (by omega), rfl⟩
      have hlive : (s.setSpace as { sp with vma := resizeVma v.id b n sp.vma }).spaces as =
          some { sp with vma := resizeVma v.id b n sp.vma } := Function.update_self ..
      have hp₁ : Pending as rest (s.setSpace as { sp with vma := resizeVma v.id b n sp.vma }) := by
        refine ⟨(List.nodup_cons.1 hp.ids).2, _, hlive, fun u hu => ?_⟩
        obtain ⟨x, hx, hxcore, hne⟩ := hrest u hu
        exact ⟨x, mem_resizeVma_of_ne hx hne, hxcore⟩
      rw [hres, modifyVma_eq hsp, safely_bind]
      refine ((h.removeCut ht hsp (by simp) (by simpa using hh.ids) (by simpa using hh.id_lt)
        (fun hcan => bounds_resizeVma (P := fun b l => b + l ≤ 2 ^ 47) (ht.bounds hcan as sp hsp)
          (hbn hcan)) (hnodup.filter _)
        (List.Subset.trans List.filter_sublist.subset hsub)).and
        (hp₁.unassignAll fun u hu hmem => ?_)).mono ?_
      · -- the VMAs of `rest` list other entries
        have hmemv := List.mem_of_mem_filter hu
        obtain ⟨y, hy, huy⟩ := List.mem_flatMap.1 hmem
        obtain ⟨x, hx, hxcore, hne⟩ := hrest y hy
        rw [← (VmArea.core_eq_iff.1 hxcore).2.2.2.2.2] at huy
        rw [← (VmArea.core_eq_iff.1 hcore).2.2.2.2.2] at hmemv
        rw [← hid] at hne
        exact hne (congrArg VmArea.id (hh.listed_once hx hw huy hmemv))
      · rintro s₁ ⟨⟨h₁, ht₁⟩, hp₂⟩
        exact ih h₁ ht₁ hp₂ _

end Removal

end SadOS.Mm
