import SadOS.Mm.Layout

/-!
# The counter of `disable_interrupts`

The operations of the memory manager give the counter back as they found it, but for
`insert_vma_to_any`, which keeps one count where it finds no room.

## Main definitions

* `Lifts n s s'` — the counter is `n` higher in `s'`.
* `LacksRoom` — `insert_vma_to_any` finds no room.
* `PlistLacksRoom`, `SendLacksRoom`, `MemLacksRoom` — the same for what calls it.

## Main results

* `lifts_insertVmaToAny` — the insertion.
* `lifts_mapToUser`, `lifts_sendpageTo`, `lifts_memPortRequest` — what calls it.
-/

namespace SadOS.Mm

/-- The counter is `n` higher. -/
def Lifts (n : ℕ) (s s' : State) : Prop := s'.interruptDisabled = s.interruptDisabled + n

/-- `insert_vma_to_any` finds no room: the search comes to the end of the list, and the
address space ends before the VMA would. -/
def LacksRoom (s : State) (as len : ℕ) : Prop :=
  ∃ sp, s.spaces as = some sp ∧ (findGap len sp.lowAddr sp.vma).2 = false ∧
    sp.highAddr < wadd (findGap len sp.lowAddr sp.vma).1 len

/-- There is no room for a page list. -/
def PlistLacksRoom (s : State) (as id : ℕ) : Prop :=
  ∃ plh, s.getPlist id = .ok plh ∧ LacksRoom s as (4096 * plh.npage % 2 ^ 64)

open Classical in
/-- One count, where `p` holds. -/
noncomputable def leak (p : Prop) : ℕ := if p then 1 else 0

theorem leak_of {p : Prop} (h : p) : leak p = 1 := if_pos h

theorem leak_of_not {p : Prop} (h : ¬p) : leak p = 0 := if_neg h

variable {n k : ℕ} {s s' s'' : State}

theorem Lifts.refl (s : State) : Lifts 0 s s := rfl

theorem Lifts.trans (h : Lifts n s s') (h' : Lifts k s' s'') : Lifts (n + k) s s'' := by
  rw [Lifts] at *
  omega

theorem SameRest.lifts (h : SameRest s s') : Lifts 0 s s' := h.interruptDisabled

theorem lifts_disable (s : State) : Lifts 1 s (disableInterrupts s) := rfl

theorem Lifts.returns_enable (h : Lifts (n + 1) s s') :
    Returns (Lifts n s) (enableInterrupts s') := by
  rw [Lifts] at h
  rw [enableInterrupts, if_neg (by omega)]
  change s'.interruptDisabled - 1 = s.interruptDisabled + n
  omega

/-- A loop of steps that leave the counter. -/
theorem lifts_foldlM {β : Type} {f : State → β → Except Fault State}
    (hf : ∀ s b, Returns (Lifts 0 s) (f s b)) (l : List β) (s : State) :
    Returns (Lifts 0 s) (l.foldlM f s) := by
  apply safely_foldlM (fun _ s' => Lifts 0 s s') (Lifts.refl s)
  intro b _ s' h
  exact (hf s' b).mono fun _ h' => h.trans h'

/-! ## VMAs -/

theorem lifts_insertVmaToVaddr (s : State) (as vaddr len flags : ℕ) :
    Returns (fun r => Lifts 0 s r.2) (insertVmaToVaddr s as vaddr len flags) := by
  simp only [insertVmaToVaddr, safely_bind]
  apply (returns_getSpace _ as).mono
  intro sp _
  have hset : Lifts 1 s ((disableInterrupts s).setSpace as { sp with vmaPool := sp.vmaPool + 1 }) :=
    rfl
  apply (Lifts.returns_enable (n := 0) hset).mono
  intro s₁ h₁
  split
  · exact h₁
  split
  · exact h₁
  split
  · simp only [safely_bind]
    exact (h₁.trans (lifts_disable s₁)).returns_enable
  · simp only [safely_bind]
    exact Lifts.returns_enable (h₁.trans (lifts_disable s₁))

/-- What the counter is left with by an insertion that finds its own place. -/
theorem lifts_insertVmaToAny (s : State) (as len flags : ℕ) :
    Returns (fun r => Lifts (leak (LacksRoom s as len)) s r.2)
      (insertVmaToAny s as len flags) := by
  simp only [insertVmaToAny, safely_bind]
  apply (returns_getSpace _ as).mono
  intro sp hsp
  have hsp' : s.spaces as = some sp := hsp
  have hiff : LacksRoom s as len ↔ (findGap len sp.lowAddr sp.vma).2 = false ∧
      sp.highAddr < wadd (findGap len sp.lowAddr sp.vma).1 len := by
    constructor
    · rintro ⟨sp₁, hsp₁, hlack⟩
      rw [hsp', Option.some.injEq] at hsp₁
      subst hsp₁
      exact hlack
    · exact fun hlack => ⟨sp, hsp', hlack⟩
  by_cases hlack : LacksRoom s as len
  · rw [if_pos (hiff.1 hlack), leak_of hlack]
    exact lifts_disable s
  · rw [if_neg (mt hiff.2 hlack), leak_of_not hlack]
    simp only [safely_bind]
    apply Safely.mono (Lifts.returns_enable (n := 0) (s := s) ?_) fun _ h => h
    rfl

/-- An insertion that succeeds gives the counter back. -/
theorem lifts_insertVmaToAny_ok (s : State) (as len flags : ℕ) :
    Returns (fun r => ∀ vma, r.1 = .ok vma → Lifts 0 s r.2) (insertVmaToAny s as len flags) := by
  simp only [insertVmaToAny, safely_bind]
  apply (returns_getSpace _ as).mono
  intro sp _
  split
  · intro vma hvma
    cases hvma
  · simp only [safely_bind]
    apply Safely.mono (Lifts.returns_enable (n := 0) (s := s) ?_) fun _ h _ _ => h
    rfl

theorem lifts_modifyVma (s : State) (as : ℕ) (f : List VmArea → List VmArea) :
    Lifts 0 s (s.modifyVma as f) := by
  unfold State.modifyVma
  split <;> rfl

theorem lifts_removeVmaRangeFrom (as base len : ℕ) (now : Link) (l : List VmArea) (s : State) :
    Returns (Lifts 0 s) (removeVmaRangeFrom as base len now l s) := by
  induction l generalizing now s with
  | nil => exact Lifts.refl s
  | cons v rest ih =>
    have hall : ∀ (pages : List ℕ) s₁, Lifts 0 s s₁ → ∀ now,
        Returns (Lifts 0 s) (pages.foldlM (unassignPage as) s₁ >>=
          removeVmaRangeFrom as base len now rest) := by
      intro pages s₁ h₁ now
      rw [Returns, safely_bind]
      apply (frame_unassignAll as pages s₁).mono
      intro s₂ h₂
      apply (ih now s₂).mono
      intro s₃ h₃
      exact (h₁.trans h₂.lifts).trans h₃
    unfold removeVmaRangeFrom
    dsimp only
    split
    · exact ih _ s
    split
    · exact Lifts.refl s
    split
    · exact hall _ _ (lifts_modifyVma s as _) now
    split
    · simp only [safely_bind]
      apply (returns_getSpace s as).mono
      intro sp _
      exact (frame_unassignAll as _ _).mono fun _ h => h.lifts
    · exact hall _ _ (lifts_modifyVma s as _) _

theorem lifts_removeVmaRange (s : State) (as base len : ℕ) :
    Returns (Lifts 0 s) (removeVmaRange s as base len) := by
  unfold removeVmaRange
  split
  · simp only [safely_bind]
    apply (returns_getSpace s as).mono
    intro sp _
    exact lifts_removeVmaRangeFrom as base len _ _ s
  · simp

theorem lifts_destroyAs (s : State) (as : ℕ) : Returns (Lifts 0 s) (destroyAs s as) := by
  simp only [destroyAs, safely_bind]
  apply (returns_getSpace s as).mono
  intro sp _
  apply (lifts_removeVmaRange s as _ _).mono
  intro s₁ h₁
  apply (returns_getSpace s₁ as).mono
  intro sp₁ _
  split
  · simp
  · exact h₁

/-! ## Page lists -/

theorem lifts_mapFromUser (s : State) (buf len : ℕ) :
    Returns (fun r => Lifts 0 s r.2) (mapFromUser s buf len) := by
  have hcopy : ∀ (pls : List PageList) (s₁ : State) (c : Prop) [Decidable c] (vaddr lo hi : ℕ),
      Lifts 1 s s₁ → Returns (fun r : List PageList × State => Lifts 1 s r.2)
        (if c then do
            let r ← copyPage s₁ vaddr lo hi
            return (pls ++ [r.1], r.2)
          else .ok (pls, s₁)) := by
    intro pls s₁ c _ vaddr lo hi h₁
    split
    · simp only [safely_bind]
      exact (frame_copyPage s₁ vaddr lo hi).mono fun _ h => h₁.trans h.lifts
    · exact h₁
  simp only [mapFromUser, validateRange, safely_bind, safely_pure]
  apply (returns_getSpace _ _).mono
  intro sp _
  split
  · simp only [safely_bind]
    exact Lifts.returns_enable (n := 0) (lifts_disable s)
  simp only [safely_bind]
  apply (hcopy [] _ _ _ _ _ (lifts_disable s)).mono
  rintro ⟨first, s₁⟩ h₁
  dsimp only
  split
  · simp only [safely_bind]
    exact Lifts.returns_enable (n := 0) h₁
  simp only [safely_bind]
  apply Safely.mono (Q := fun r : List PageList × State => Lifts 1 s r.2)
  · apply safely_foldlM (fun _ (r : List PageList × State) => Lifts 1 s r.2) h₁
    intro vaddr _ r hr
    exact (quiet_snapPage r vaddr).mono fun _ h => hr.trans h.lifts
  rintro ⟨middle, s₂⟩ h₂
  apply (hcopy middle _ _ _ _ _ h₂).mono
  rintro ⟨all, s₃⟩ h₃
  exact Lifts.returns_enable (n := 0) h₃

theorem lifts_mapToUserAs (s : State) (as id : ℕ) :
    Returns (fun r => Lifts (leak (PlistLacksRoom s as id)) s r.2) (mapToUserAs s as id 0) := by
  have hread : Returns (fun plh => s.getPlist id = .ok plh) (s.getPlist id) :=
    safely_iff.2 ⟨fun _ h => h, fun _ _ => trivial⟩
  simp only [mapToUserAs, safely_bind]
  apply hread.mono
  intro plh hplh
  have hiff : PlistLacksRoom s as id ↔ LacksRoom s as (4096 * plh.npage % 2 ^ 64) := by
    simp [PlistLacksRoom, hplh]
  rw [hiff]
  split
  · simp
  rw [if_neg (by simp)]
  simp only [safely_bind]
  apply (lifts_insertVmaToAny s as _ VMA_RW).mono
  rintro ⟨vma, s₁⟩ h₁
  cases vma with
  | error e => exact h₁
  | ok vma =>
    simp only [safely_bind]
    apply (frame_mapNodes as vma plh.ph vma.vmaBegin s₁).mono
    intro s₂ h₂
    exact h₁.trans h₂.lifts

theorem lifts_mapToUser (s : State) (id : ℕ) :
    Returns (fun r => Lifts (leak (PlistLacksRoom s s.current id)) s r.2) (mapToUser s id 0) :=
  lifts_mapToUserAs s s.current id

/-- An insertion that finds its own place fails exactly if there is no room, and then it has
done nothing. -/
theorem insertVmaToAny_cases (s : State) (as len flags : ℕ) :
    Returns (fun r => (∃ e, r = (.error e, disableInterrupts s) ∧ LacksRoom s as len) ∨
      ∃ vma, r.1 = .ok vma ∧ ¬LacksRoom s as len) (insertVmaToAny s as len flags) := by
  simp only [insertVmaToAny, safely_bind]
  apply (returns_getSpace _ as).mono
  intro sp hsp
  have hsp' : s.spaces as = some sp := hsp
  split
  · rename_i hlack
    exact .inl ⟨-1, rfl, sp, hsp', hlack⟩
  · rename_i hroom
    simp only [safely_bind]
    rw [safely_iff]
    refine ⟨fun s₁ _ => .inr ⟨_, rfl, ?_⟩, fun _ _ => trivial⟩
    rintro ⟨sp₁, hsp₁, hlack⟩
    rw [hsp', Option.some.injEq] at hsp₁
    subst hsp₁
    exact hroom hlack

/-- `map_to_user` fails exactly if there is no room, and then it has done nothing. -/
theorem mapToUser_cases (s : State) (id : ℕ) :
    Returns (fun r => r = (-ENOMEM, disableInterrupts s) ∧ PlistLacksRoom s s.current id ∨
      0 ≤ r.1 ∧ ¬PlistLacksRoom s s.current id) (mapToUser s id 0) := by
  simp only [mapToUser, mapToUserAs, safely_bind]
  cases hplh : s.getPlist id with
  | error e => trivial
  | ok plh =>
    have hiff : PlistLacksRoom s s.current id ↔
        LacksRoom s s.current (4096 * plh.npage % 2 ^ 64) := by
      simp [PlistLacksRoom, hplh]
    rw [safely_ok, hiff]
    split
    · trivial
    rw [if_neg (by simp)]
    simp only [safely_bind]
    apply (insertVmaToAny_cases s s.current _ VMA_RW).mono
    rintro ⟨vma, s₁⟩ (⟨e, heq, hlack⟩ | ⟨v, rfl, hroom⟩)
    · cases heq
      exact .inl ⟨rfl, hlack⟩
    · simp only [safely_bind, safely_pure]
      rw [safely_iff]
      exact ⟨fun _ _ => .inr ⟨Int.natCast_nonneg _, hroom⟩, fun _ _ => trivial⟩

theorem mapToUser_of_lacksRoom {s : State} {id : ℕ} (h : PlistLacksRoom s s.current id) :
    mapToUser s id 0 = .ok (-ENOMEM, disableInterrupts s) := by
  obtain ⟨plh, hplh, sp, hsp, hlack⟩ := h
  have hinsert : insertVmaToAny s s.current (4096 * plh.npage % 2 ^ 64) VMA_RW =
      .ok (.error (-1), disableInterrupts s) := by
    rw [insertVmaToAny]
    dsimp only
    rw [getSpace_eq (s := disableInterrupts s) hsp, ok_bind, if_pos hlack]
    rfl
  rw [mapToUser, mapToUserAs, hplh, ok_bind, if_neg (by simp [isAligned])]
  dsimp only
  rw [if_neg (by simp), hinsert, ok_bind]
  rfl

/-- The VMAs once `insert_vma_to_any` has found a place. -/
def AddressSpace.filled (sp : AddressSpace) (len flags : ℕ) : List VmArea :=
  insertAtGap ⟨sp.vmaPool, flags, 0, (findGap len sp.lowAddr sp.vma).1, len, [], .head⟩
    len sp.lowAddr .head sp.vma

/-- Where there is room, `map_to_user` adds a VMA and fills it. -/
theorem mapToUser_filled {s : State} {id : ℕ} (hroom : ¬PlistLacksRoom s s.current id) :
    Returns (fun r => ∃ plh sp s₁, s.getPlist id = .ok plh ∧ s.spaces s.current = some sp ∧
      s₁.current = s.current ∧ Frame s₁ r.2 ∧ s₁.spaces s.current = some { sp with
        vmaPool := sp.vmaPool + 1, vma := sp.filled (4096 * plh.npage % 2 ^ 64) VMA_RW })
      (mapToUser s id 0) := by
  simp only [mapToUser, mapToUserAs, safely_bind]
  cases hplh : s.getPlist id with
  | error e => trivial
  | ok plh =>
    rw [safely_ok, if_neg (by simp [isAligned]), if_neg (by simp)]
    simp only [insertVmaToAny, safely_bind]
    refine (returns_getSpace _ _).mono fun sp hsp => ?_
    have hsp : s.spaces s.current = some sp := hsp
    rw [if_neg fun h => hroom ⟨plh, hplh, sp, hsp, h⟩]
    simp only [safely_bind]
    rw [enableInterrupts_eq (s := s) rfl, safely_ok]
    simp only [safely_pure, safely_bind]
    refine (frame_mapNodes s.current _ _ _ _).mono fun t ht => ⟨plh, sp, _, rfl, hsp, ?_, ht, ?_⟩
    · rfl
    · exact Function.update_self ..

theorem lifts_copyToUserSimple (s : State) (src : ℕ → UInt8) (buf len : ℕ) :
    Returns (fun r => Lifts 0 s r.2) (copyToUserSimple s src buf len) :=
  (frame_copyToUserSimple s src buf len).mono fun _ h => h.lifts

theorem lifts_copyFromUserSimple (s : State) (src len : ℕ) :
    Returns (fun r => Lifts 0 s r.2) (copyFromUserSimple s src len) :=
  (frame_copyFromUserSimple s src len).mono fun _ h => h.lifts

theorem lifts_pageListFree (s : State) (id : ℕ) : Returns (Lifts 0 s) (pageListFree s id) := by
  simp only [pageListFree, safely_bind]
  unfold State.getPlist
  split
  · exact lifts_foldlM (fun s₁ pl => (quiet_freeNode s₁ pl).mono fun _ h => h.lifts) _ _
  · simp

/-! ## System calls -/

theorem lifts_asSnapshot (s : State) (newAs : ℕ) : Returns (Lifts 0 s) (asSnapshot s newAs) := by
  simp only [asSnapshot, safely_bind]
  apply (returns_getSpace s _).mono
  intro sp _
  have hvmas := lifts_foldlM (f := snapshotVma newAs) ?_ sp.vma s
  · apply hvmas.mono
    intro s₁ h₁
    apply (returns_getSpace s₁ _).mono
    intro sp₁ _
    have hentries := lifts_foldlM (f := pageEntryVisitor newAs) ?_
      (entriesInOrder sp₁.vaddrMap) s₁
    · exact hentries.mono fun _ h₂ => h₁.trans h₂
    · intro s₂ e
      unfold pageEntryVisitor
      split
      · exact Lifts.refl s₂
      · simp only [safely_bind]
        exact (frame_assignPage s₂ _ _ _ _).mono fun _ h => h.lifts
  · intro s₁ vma
    unfold snapshotVma
    split
    · exact Lifts.refl s₁
    · simp only [safely_bind]
      exact lifts_insertVmaToVaddr s₁ _ _ _ _

theorem lifts_asnew (s : State) (tab : AsTable) (snapshot : Bool) :
    Returns (fun r => Lifts 0 s r.2) (asnew s tab snapshot) := by
  simp only [asnew]
  obtain ⟨s₁, hs₁⟩ : ∃ s₁, s₁ = (aspaceNew (disableInterrupts s)).2 := ⟨_, rfl⟩
  have h₁ : Lifts 1 s s₁ := by
    rw [hs₁]
    rfl
  rw [← hs₁]
  split
  · simp only [safely_bind]
    apply (lifts_destroyAs s₁ _).mono
    intro s₂ h₂
    exact Lifts.returns_enable (n := 0) (h₁.trans h₂)
  · simp only [safely_bind]
    apply Safely.mono (Q := Lifts 1 s)
    · split
      · exact (lifts_asSnapshot s₁ _).mono fun _ h₂ => h₁.trans h₂
      · exact h₁
    · intro s₂ h₂
      exact Lifts.returns_enable (n := 0) h₂

theorem lifts_munmap (s : State) (base len : ℕ) :
    Returns (fun r => Lifts 0 s r.2) (munmap s base len) := by
  unfold munmap
  split
  · exact Lifts.refl s
  · simp only [safely_bind]
    exact lifts_removeVmaRange s _ base len

/-- `sendpage` comes to the insertion, and finds no room. -/
def SendLacksRoom (s : State) (as vaddr dst len : ℕ) : Prop :=
  isAligned vaddr = true ∧ isAligned len = true ∧
    (vaddr ≠ 0 → validateRange s vaddr 4096 = .ok true) ∧ dst = 0 ∧ LacksRoom s as len

theorem lifts_sendpageTo (s : State) (as vaddr dst len : ℕ) :
    Returns (fun r => Lifts (leak (SendLacksRoom s as vaddr dst len)) s r.2)
      (sendpageTo s as vaddr dst len) := by
  rw [sendpageTo]
  by_cases hal : isAligned vaddr = true ∧ isAligned len = true
  swap
  · rw [if_pos (by simpa [imp_iff_not_or] using hal), leak_of_not fun h => hal ⟨h.1, h.2.1⟩]
    exact Lifts.refl s
  rw [if_neg (by simp [hal.1, hal.2]), Returns, safely_bind, safely_iff]
  refine ⟨fun ok hok => ?_, fun _ _ => trivial⟩
  cases ok with
  | false =>
    rw [if_pos (show (!false) = true from rfl), leak_of_not]
    · exact Lifts.refl s
    · rintro ⟨-, -, hvalid, -⟩
      split at hok
      · rename_i hv
        rw [hvalid hv] at hok
        cases hok
      · cases hok
  | true =>
    have hvalid : vaddr ≠ 0 → validateRange s vaddr 4096 = .ok true := by
      intro hv
      rwa [if_pos hv] at hok
    rw [if_neg (show ¬(!true) = true by simp), safely_bind]
    apply Safely.mono (Q := fun r : Except ℤ VmArea × State =>
      Lifts (leak (SendLacksRoom s as vaddr dst len)) s r.2)
    · by_cases hdst : dst = 0
      swap
      · rw [if_pos hdst, leak_of_not fun h => hdst h.2.2.2.1]
        exact lifts_insertVmaToVaddr s as dst len VMA_RW
      · rw [if_neg (not_not.2 hdst)]
        have hiff : SendLacksRoom s as vaddr dst len ↔ LacksRoom s as len :=
          ⟨fun h => h.2.2.2.2, fun h => ⟨hal.1, hal.2, hvalid, hdst, h⟩⟩
        rw [hiff]
        exact lifts_insertVmaToAny s as len VMA_RW
    rintro ⟨vma, s₁⟩ h₁
    cases vma with
    | error e => exact h₁
    | ok vma =>
      simp only [safely_bind]
      apply Safely.mono (Q := fun s₂ => Lifts 0 s₁ s₂)
      · split
        · apply lifts_foldlM
          intro s₂ i
          unfold sendOne
          split
          · simp only [safely_bind]
            exact (frame_assignPage s₂ _ _ _ _).mono fun _ h => h.lifts
          · exact Lifts.refl s₂
        · exact Lifts.refl s₁
      · exact fun s₂ h₂ => h₁.trans h₂

/-! ## The memory port -/

theorem nonpos_assignAddrWithVma (s : State) (as : ℕ) (vma : VmArea) (addr vaddr flags : ℕ) :
    Returns (fun r => r.1 ≤ 0) (assignAddrWithVma s as vma addr vaddr flags) := by
  unfold assignAddrWithVma
  split
  · simp
  split
  · simp
  simp only [safely_bind, safely_pure]
  exact safely_iff.2 ⟨fun _ _ => safely_iff.2 ⟨fun _ _ => safely_iff.2 ⟨fun _ _ => le_refl _,
    fun _ _ => trivial⟩, fun _ _ => trivial⟩, fun _ _ => trivial⟩

theorem nonpos_checkVmas (len : ℕ) (l : List VmArea) :
    Returns (fun ret => ret ≤ 0) (checkVmas len l) := by
  induction l generalizing len with
  | nil => trivial
  | cons v rest ih =>
    unfold checkVmas
    split
    · simp
    split
    · simp
    split
    · trivial
    split
    · simp
    · exact ih _

theorem lifts_assignAddrs (as addr vaddr : ℕ) (steps : List ℕ) (offset : ℕ) (vmas : List VmArea)
    (s : State) :
    Returns (fun r => r.1 ≤ 0 ∧ Lifts 0 s r.2) (assignAddrs as addr vaddr steps offset vmas s) := by
  induction steps generalizing offset vmas s with
  | nil => exact ⟨le_refl _, Lifts.refl s⟩
  | cons i steps ih =>
    unfold assignAddrs
    split
    · trivial
    rename_i offset' cvma rest _
    simp only [safely_bind]
    apply ((nonpos_assignAddrWithVma s as cvma _ _ _).and
      (frame_assignAddrWithVma s as cvma _ _ _)).mono
    rintro ⟨ret, s₁⟩ ⟨hle, h₁⟩
    dsimp only
    split
    · exact ⟨hle, h₁.lifts⟩
    · apply (ih offset' (cvma :: rest) s₁).mono
      intro r hr
      exact ⟨hr.1, h₁.lifts.trans hr.2⟩

/-- A range that is assigned leaves the counter.  An error return does not, and its only
caller panics then. -/
theorem lifts_assignAddrRange (s : State) (as addr vaddr len : ℕ) :
    Returns (fun r => 0 ≤ r.1 → Lifts 0 s r.2) (assignAddrRange s as addr vaddr len) := by
  unfold assignAddrRange
  split
  · simp
  simp only [safely_bind]
  apply (returns_getSpace _ as).mono
  intro sp _
  split
  · simp
  simp only [safely_bind]
  apply (nonpos_checkVmas _ _).mono
  intro ret hret
  split
  · intro hpos
    omega
  simp only [safely_bind]
  apply (lifts_assignAddrs as addr vaddr _ _ _ _).mono
  rintro ⟨ret', s₁⟩ ⟨hret', h₁⟩
  dsimp only at hret' ⊢
  split
  · intro hpos
    dsimp only at hpos
    omega
  · simp only [safely_bind]
    apply (Lifts.returns_enable (n := 0) ((lifts_disable s).trans h₁)).mono
    intro s₂ h₂ _
    exact h₂

theorem lifts_memRequest (s : State) (mreq : MemReq) (alen : ℕ) :
    Returns (fun r => Lifts (leak (isAligned mreq.physAddr = true ∧ mreq.destAddr = 0 ∧
        LacksRoom s s.current alen)) s r.2)
      (memRequest s mreq alen) := by
  rw [memRequest]
  by_cases hal : isAligned mreq.physAddr = true
  swap
  · rw [if_pos (by simpa using hal), leak_of_not fun h => hal h.1]
    exact Lifts.refl s
  rw [if_neg (by simp [hal]), Returns, safely_bind]
  apply Safely.mono (Q := fun r : Except ℤ VmArea × State =>
    Lifts (leak (isAligned mreq.physAddr = true ∧ mreq.destAddr = 0 ∧
      LacksRoom s s.current alen)) s r.2)
  · by_cases hdest : mreq.destAddr = 0
    swap
    · rw [if_pos hdest, leak_of_not fun h => hdest h.2.1]
      exact lifts_insertVmaToVaddr s _ _ _ _
    · rw [if_neg (not_not.2 hdest), and_iff_right hal, and_iff_right hdest]
      exact lifts_insertVmaToAny s _ _ _
  rintro ⟨vma, s₁⟩ h₁
  cases vma with
  | error e => exact h₁
  | ok vma =>
    dsimp only
    cases hins : insertRange s₁ mreq.physAddr alen with
    | none => exact h₁.trans (lifts_modifyVma s₁ _ _)
    | some s₂ =>
      have h₂ : Lifts 0 s₁ s₂ := by
        unfold insertRange at hins
        split at hins
        · rw [← Option.some.inj hins]
          rfl
        · cases hins
      simp only [safely_bind]
      apply (lifts_assignAddrRange s₂ _ _ _ _).mono
      rintro ⟨ret, s₃⟩ h₃
      dsimp only at h₃ ⊢
      split
      · trivial
      · rename_i hret
        exact (h₁.trans h₂).trans (h₃ (by omega))

/-- What `copy_from_user_simple` reads. -/
def State.userBytes (s : State) (src len : ℕ) (i : ℕ) : UInt8 :=
  let aaddr := pageAlign src
  let first := if wadd aaddr 4096 < wadd src len then wsub (wadd aaddr 4096) src else len
  if i < first then s.kernelByte aaddr (src - aaddr + i)
  else if i < len then s.kernelByte (wadd aaddr 4096) (i - first) else 0

theorem copyFromUserSimple_eq (s : State) {src len : ℕ} (hlen : len ≤ 4096) :
    copyFromUserSimple s src len = (validateRange s src len).map fun ok =>
      (if ok then (0, s.userBytes src len) else (-1, fun _ => 0), s) := by
  rw [copyFromUserSimple, if_neg (by omega)]
  change (validateRange s src len >>= _) = _
  cases validateRange s src len with
  | error e => rfl
  | ok ok => cases ok <;> rfl

/-- A request to the memory port comes to the insertion, and finds no room. -/
def MemLacksRoom (s : State) (len buf : ℕ) : Prop :=
  len = MEM_REQ_SIZE ∧ buf ≠ 0 ∧ validateRange s buf MEM_REQ_SIZE = .ok true ∧
    isAligned (MemReq.ofBytes (s.userBytes buf MEM_REQ_SIZE)).physAddr = true ∧
    (MemReq.ofBytes (s.userBytes buf MEM_REQ_SIZE)).destAddr = 0 ∧
    LacksRoom s s.current (pageAlignUp len)

theorem lifts_memPortRequest (s : State) (len buf : ℕ) :
    Returns (fun r => Lifts (leak (MemLacksRoom s len buf)) s r.2) (memPortRequest s len buf) := by
  rw [memPortRequest]
  by_cases hlen : len = MEM_REQ_SIZE
  swap
  · rw [if_pos hlen, leak_of_not fun h => hlen h.1]
    exact Lifts.refl s
  rw [if_neg (not_not.2 hlen)]
  by_cases hbuf : buf = 0
  · rw [if_pos hbuf, leak_of_not fun h => h.2.1 hbuf]
    exact Lifts.refl s
  rw [if_neg hbuf]
  dsimp only
  rw [copyFromUserSimple_eq _ (show MEM_REQ_SIZE ≤ 4096 by decide)]
  rw [show validateRange (disableInterrupts s) buf MEM_REQ_SIZE =
    validateRange s buf MEM_REQ_SIZE from rfl]
  cases hvalid : validateRange s buf MEM_REQ_SIZE with
  | error e => trivial
  | ok ok =>
    cases ok with
    | false =>
      rw [leak_of_not]
      · exact Lifts.returns_enable (n := 0) (lifts_disable s)
      · rintro ⟨-, -, h, -⟩
        rw [hvalid] at h
        cases h
    | true =>
      rw [MemLacksRoom, and_iff_right hlen, and_iff_right hbuf, and_iff_right hvalid]
      simp only [Except.map, if_true, ok_bind, ne_eq, not_true_eq_false, if_false]
      rw [show (disableInterrupts s).userBytes = s.userBytes from rfl]
      generalize MemReq.ofBytes (s.userBytes buf MEM_REQ_SIZE) = mreq
      rw [Returns, safely_bind]
      apply (lifts_memRequest (disableInterrupts s) mreq (pageAlignUp len)).mono
      intro r hr
      have hall := (lifts_disable s).trans hr
      rw [Nat.add_comm] at hall
      simp only [safely_bind]
      exact hall.returns_enable

theorem sendLacksRoom_disable (s : State) (as vaddr dst len : ℕ) :
    SendLacksRoom (disableInterrupts s) as vaddr dst len ↔ SendLacksRoom s as vaddr dst len :=
  Iff.rfl

/-! ## User accesses -/

theorem zero_userAccess {s : State} (h : s.interruptDisabled = 0) (write : Bool) (vaddr : ℕ) :
    Returns (fun r => r.2.interruptDisabled = 0) (userAccess s write vaddr) := by
  unfold userAccess
  split
  · exact h
  split
  · exact h
  · simp only [pageFaultEntry, safely_bind]
    refine safely_iff.2 ⟨fun r _ => ?_, fun _ _ => trivial⟩
    rw [safely_pure]
    split <;> rfl

theorem zero_userRead {s : State} (h : s.interruptDisabled = 0) (vaddr : ℕ) :
    Returns (fun r => r.2.interruptDisabled = 0) (userRead s vaddr) := by
  simp only [userRead, safely_bind, safely_pure]
  exact zero_userAccess h false vaddr

theorem zero_userWrite {s : State} (h : s.interruptDisabled = 0) (vaddr : ℕ) (b : UInt8) :
    Returns (fun r => r.2.interruptDisabled = 0) (userWrite s vaddr b) := by
  simp only [userWrite, safely_bind]
  apply (zero_userAccess h true vaddr).mono
  rintro ⟨page, s₁⟩ h₁
  cases page <;> exact h₁

end SadOS.Mm
