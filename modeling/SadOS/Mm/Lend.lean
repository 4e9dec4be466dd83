import SadOS.Mm.Sound

/-!
# Snapshots of pages in new places

`sendpage` and `map_to_user` give the pages of one range of addresses to another range,
where nothing was mapped, as snapshots.  The first snapshot of a page takes write
permission from all its owners, and panics if one of them maps it as a page of hardware,
or at an address that is not one of the user half.

## Main definitions

* `Shareable` — an owner from whom write permission can be taken.
* `State.lend` — a page with one more snapshot.

## Main results

* `shareOwners_ok`, `shareOwners_fail` — when write permission can be taken.
* `assignSnapshot_ok`, `assignSnapshot_fail` — when a page can be lent.
-/

namespace SadOS.Mm

/-- An owner from whom `share_page` can take write permission. -/
def Shareable (s : State) (o : ℕ × ℕ) : Prop :=
  ∃ pe, s.entry o.1 o.2 = some pe ∧ hasFlag pe.flags PF_HARDWARE = false ∧ o.2 < 2 ^ 63

/-- One more snapshot, with the owner `o`. -/
def Page.lend (pg : Page) (o : ℕ × ℕ) : Page :=
  { refCount := pg.refCount + 1, snapCount := pg.snapCount + 1, owner := o :: pg.owner }

/-- A new entry for the page `p`, as a snapshot. -/
def State.lend (s : State) (as vma vaddr p : ℕ) (sp : AddressSpace) (pg : Page) : State :=
  (s.setPage p (some (pg.lend (as, vaddr)))).setSpace as (sp.assign vma vaddr ⟨p, PF_SNAPSHOT⟩)

section Share

variable {s s' : State} {o : ℕ × ℕ} {l : List (ℕ × ℕ)}

theorem shareOwner_ok (h : Shareable s o) : ∃ pte, shareOwner s o = .ok { s with pte } := by
  obtain ⟨pe, hpe, hhw, hlt⟩ := h
  have hbit : ¬2 ^ 63 ≤ o.2 := by omega
  simp only [shareOwner, getEntry_eq hpe, ok_bind, hhw, setWritable, ptableGetEntry4k, hbit,
    Bool.false_eq_true, reduceIte]
  cases s.pte o.1 (slot o.2) with
  | none => exact ⟨s.pte, rfl⟩
  | some e => exact ⟨_, rfl⟩

/-- What was shareable still is. -/
theorem Shareable.of_entry (h : Shareable s o) (he : s'.entry = s.entry) : Shareable s' o := by
  rw [Shareable, he]
  exact h

theorem shareOwners_ok (h : ∀ o ∈ l, Shareable s o) :
    ∃ pte, l.foldlM shareOwner s = .ok { s with pte } := by
  induction l generalizing s with
  | nil => exact ⟨s.pte, rfl⟩
  | cons o rest ih =>
    obtain ⟨pte, hs₁⟩ := shareOwner_ok (h o List.mem_cons_self)
    obtain ⟨pte', hs₂⟩ := @ih { s with pte } fun o' ho' =>
      (h o' (List.mem_cons_of_mem o ho')).of_entry rfl
    refine ⟨pte', ?_⟩
    rw [List.foldlM_cons, hs₁, ok_bind, hs₂]

theorem shareOwner_fail (h : ¬Shareable s o) : shareOwner s o ≠ .ok s' := by
  intro hok
  rw [shareOwner, bind_eq_ok] at hok
  obtain ⟨pe, hpe, hok⟩ := hok
  have hpe' := (returns_getEntry s o.1 o.2).of_ok hpe
  split at hok
  · cases hok
  · rename_i hhw
    rw [setWritable, ptableGetEntry4k] at hok
    split at hok
    · cases hok
    · exact h ⟨pe, hpe', by simpa using hhw, by omega⟩

theorem shareOwners_fail (h : ∃ o ∈ l, ¬Shareable s o) : l.foldlM shareOwner s ≠ .ok s' := by
  induction l generalizing s with
  | nil => simp at h
  | cons o rest ih =>
    rw [List.foldlM_cons, ne_eq, bind_eq_ok]
    rintro ⟨s₁, hs₁, hrest⟩
    obtain ⟨o', ho', hbad⟩ := h
    rcases List.mem_cons.1 ho' with rfl | ho'
    · exact shareOwner_fail hbad hs₁
    · have hentry := ((quiet_shareOwner s o).of_ok hs₁).entry
      exact ih ⟨o', ho', fun hs => hbad (hs.of_entry hentry.symm)⟩ hrest

end Share

section Lend

variable {s s' : State} {as vma vaddr p : ℕ} {sp : AddressSpace} {pg : Page}

/-- A new entry of a page as a snapshot, where there was none. -/
theorem assignSnapshot_eq (hsp : s.spaces as = some sp) (hp : s.physPages p = some pg)
    (hnone : s.entry as vaddr = none) :
    assignPageNoAddrCheck s as p vaddr vma PF_SNAPSHOT =
      (if pg.snapCount = 0 then sharePage (disableInterrupts (s.lend as vma vaddr p sp pg)) p
        else .ok (disableInterrupts (s.lend as vma vaddr p sp pg))) >>= enableInterrupts := by
  have hboth : hasFlag PF_SNAPSHOT PF_SHARED = false := by decide
  have hhw : hasFlag PF_SNAPSHOT PF_HARDWARE = false := by decide
  have hsnap : hasFlag PF_SNAPSHOT PF_SNAPSHOT = true := by decide
  have hnone' : (disableInterrupts s).entry as vaddr = none := hnone
  have hp' : (disableInterrupts s).physPages p = some pg := hp
  obtain ⟨s₁, hs₁⟩ : ∃ s₁, s₁ = (disableInterrupts s).setPage p
      (some { pg with refCount := pg.refCount + 1, owner := (as, vaddr) :: pg.owner }) := ⟨_, rfl⟩
  have hadd : addOwner ((disableInterrupts s).setPage p (some { pg with refCount := pg.refCount + 1 }))
      p (as, vaddr) = .ok s₁ := by
    rw [addOwner, getPageRec_eq (Function.update_self ..), ok_bind, hs₁]
    simp [State.setPage]
  have hsp₁ : s₁.spaces as = some sp := by
    rw [hs₁]
    exact hsp
  obtain ⟨s₂, hs₂⟩ : ∃ s₂, s₂ = s₁.setSpace as (sp.assign vma vaddr ⟨p, PF_SNAPSHOT⟩) := ⟨_, rfl⟩
  have hp₂ : s₂.physPages p =
      some { pg with refCount := pg.refCount + 1, owner := (as, vaddr) :: pg.owner } := by
    rw [hs₂, hs₁]
    exact Function.update_self ..
  have hlend : s₂.setPage p (some (pg.lend (as, vaddr))) =
      disableInterrupts (s.lend as vma vaddr p sp pg) := by
    rw [hs₂, hs₁]
    simp [State.setPage, State.setSpace, State.lend, disableInterrupts]
  rw [assignPageNoAddrCheck, hboth, hhw, hsnap]
  simp only [Bool.false_eq_true, false_and, reduceIte, unassignOld, hnone', ok_bind,
    getPageRec_eq hp', hadd, getSpace_eq hsp₁]
  rw [AddressSpace.assign] at hs₂
  rw [← hs₂, addSnapshot, getPageRec_eq hp₂, ok_bind, if_neg (by simp)]
  rw [Page.lend] at hlend
  rw [hlend]
  by_cases h0 : pg.snapCount = 0
  · simp [h0]
  · simp [h0]

theorem entry_lend (hsp : s.spaces as = some sp) :
    (s.lend as vma vaddr p sp pg).entry = updEnt s.entry as vaddr (some ⟨p, PF_SNAPSHOT⟩) :=
  entry_setSpace_insert (s := s.setPage p (some (pg.lend (as, vaddr)))) hsp _ vaddr _

theorem entry_lend_of_ne (hsp : s.spaces as = some sp) {o : ℕ × ℕ} (ho : o ≠ (as, vaddr)) :
    (s.lend as vma vaddr p sp pg).entry o.1 o.2 = s.entry o.1 o.2 := by
  rw [entry_lend hsp, updEnt_of_ne ho]

/-- An owner that had an entry is not the new one. -/
theorem shareable_lend (hsp : s.spaces as = some sp) (hnone : s.entry as vaddr = none)
    {o : ℕ × ℕ} (ho : (s.entry o.1 o.2).isSome = true) :
    Shareable (s.lend as vma vaddr p sp pg) o ↔ Shareable s o := by
  have hne : o ≠ (as, vaddr) := by
    rintro rfl
    rw [hnone] at ho
    cases ho
  rw [Shareable, Shareable, entry_lend_of_ne hsp hne]

theorem shareable_new (hsp : s.spaces as = some sp) :
    Shareable (s.lend as vma vaddr p sp pg) (as, vaddr) ↔ vaddr < 2 ^ 63 := by
  rw [Shareable, entry_lend hsp, updEnt_self]
  constructor
  · rintro ⟨-, -, -, h⟩
    exact h
  · exact fun h => ⟨_, rfl, show hasFlag PF_SNAPSHOT PF_HARDWARE = false by decide, h⟩

/-- Write permission can be taken from the owners, and from the new one. -/
def CanShare (s : State) (pg : Page) (vaddr : ℕ) : Prop :=
  pg.snapCount = 0 → (∀ o ∈ pg.owner, Shareable s o) ∧ vaddr < 2 ^ 63

theorem assignSnapshot_ok (hsp : s.spaces as = some sp) (hp : s.physPages p = some pg)
    (hnone : s.entry as vaddr = none) (howner : ∀ o ∈ pg.owner, (s.entry o.1 o.2).isSome = true)
    (hshare : CanShare s pg vaddr) :
    ∃ pte, assignPageNoAddrCheck s as p vaddr vma PF_SNAPSHOT =
      .ok { s.lend as vma vaddr p sp pg with pte } := by
  rw [assignSnapshot_eq hsp hp hnone]
  by_cases h0 : pg.snapCount = 0
  · have hp' : (disableInterrupts (disableInterrupts (s.lend as vma vaddr p sp pg))).physPages p =
        some (pg.lend (as, vaddr)) := Function.update_self ..
    obtain ⟨pte, hpte⟩ := shareOwners_ok (l := (pg.lend (as, vaddr)).owner)
      (s := disableInterrupts (disableInterrupts (s.lend as vma vaddr p sp pg))) fun o ho => by
        refine Shareable.of_entry (s := s.lend as vma vaddr p sp pg) ?_ rfl
        rcases List.mem_cons.1 ho with rfl | ho
        · exact (shareable_new hsp).2 (hshare h0).2
        · exact (shareable_lend hsp hnone (howner o ho)).2 ((hshare h0).1 o ho)
    refine ⟨pte, ?_⟩
    rw [if_pos h0, sharePage]
    dsimp only
    rw [getPageRec_eq hp', ok_bind, hpte]
    rfl
  · exact ⟨s.pte, by rw [if_neg h0]; rfl⟩

theorem assignSnapshot_fail (hsp : s.spaces as = some sp) (hp : s.physPages p = some pg)
    (hnone : s.entry as vaddr = none) (howner : ∀ o ∈ pg.owner, (s.entry o.1 o.2).isSome = true)
    (hshare : ¬CanShare s pg vaddr) :
    assignPageNoAddrCheck s as p vaddr vma PF_SNAPSHOT ≠ .ok s' := by
  rw [CanShare, Classical.not_imp] at hshare
  obtain ⟨h0, hbad⟩ := hshare
  rw [assignSnapshot_eq hsp hp hnone, if_pos h0, ne_eq, bind_eq_ok]
  rintro ⟨s₁, hs₁, -⟩
  have hp' : (disableInterrupts (disableInterrupts (s.lend as vma vaddr p sp pg))).physPages p =
      some (pg.lend (as, vaddr)) := Function.update_self ..
  rw [sharePage] at hs₁
  rw [getPageRec_eq hp', ok_bind, bind_eq_ok] at hs₁
  obtain ⟨s₂, hs₂, -⟩ := hs₁
  refine shareOwners_fail ?_ hs₂
  by_cases hnew : vaddr < 2 ^ 63
  · have hold : ∃ o ∈ pg.owner, ¬Shareable s o := by
      by_contra hall
      push Not at hall
      exact hbad ⟨hall, hnew⟩
    obtain ⟨o, ho, hno⟩ := hold
    refine ⟨o, List.mem_cons_of_mem _ ho, fun h => hno ?_⟩
    exact (shareable_lend hsp hnone (howner o ho)).1 (h.of_entry rfl)
  · refine ⟨(as, vaddr), List.mem_cons_self, fun h => hnew ?_⟩
    exact (shareable_new hsp).1 (h.of_entry rfl)

end Lend

end SadOS.Mm
