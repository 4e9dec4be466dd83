import SadOS.Mm.Frame
import SadOS.Mm.Mapped

/-!
# Page operations keep the accounts

The operations of `sys/mm/page_man.c` as moves on the accounts of `Linked` and
`Mapped`.  They stop the machine or keep the accounts, and never follow a pointer
to a page that is gone.

## Main definitions

* `Consistent` — both invariants, of a state.
* `Consistent.pageUnref`, `Consistent.dropSnapshot`, `Consistent.pageEntryUnref` — a
  reference goes.
* `Consistent.unassignPage`, `Consistent.assignPageNoAddrCheck` — an entry goes and
  comes.
-/

namespace SadOS.Mm

/-- The accounts of a state: `Linked` always, and `Mapped` where addresses are
canonical. -/
structure Consistent (stale canon : Prop) (hole : List (ℕ × ℕ)) (held : List (ℕ × Kind))
    (s : State) : Prop where
  linked : Linked stale hole held s.physPages s.entry s.freePages
  mapped : canon → Mapped hole s.physPages s.entry s.pte

/-! ## Loops over the owners of a page -/

theorem safely_setWritable (w : Bool) (s : State) (o : ℕ × ℕ) :
    Safely Halts (fun s' => s' = { s with pte := paint w [o] s.pte }) (setWritable w s o) := by
  rw [setWritable, ptableGetEntry4k]
  split
  · simp
  · rw [ok_bind]
    have hpaint : ∀ x, s.pte o.1 (slot o.2) = x →
        Function.update s.pte o.1 (Function.update (s.pte o.1) (slot o.2)
          (x.map fun e => { e with writable := w })) = paint w [o] s.pte := by
      rintro _ rfl
      funext a n
      by_cases ha : a = o.1
      · subst ha
        by_cases hn : n = slot o.2
        · subst hn
          simp [paint, atSlot]
        · simp [paint, atSlot, hn, Ne.symm hn]
      · simp [paint, atSlot, ha, Ne.symm ha]
    split
    · rename_i e he
      exact congrArg (fun pte => { s with pte }) (hpaint _ he)
    · rename_i he
      have hnone := hpaint _ he
      rw [Option.map_none, ← he, Function.update_eq_self, Function.update_eq_self] at hnone
      rw [← hnone]
      rfl

/-- A loop whose steps paint one owner paints them all. -/
theorem safely_paint {w : Bool} {f : State → ℕ × ℕ → Except Fault State} {s : State}
    {l : List (ℕ × ℕ)}
    (hf : ∀ pte, ∀ o ∈ l, Safely Halts
      (fun s' => s' = { s with pte := paint w [o] pte }) (f { s with pte } o)) :
    Safely Halts (fun s' => s' = { s with pte := paint w l s.pte }) (l.foldlM f s) := by
  have key : ∀ rest ⊆ l, ∀ pte, Safely Halts
      (fun s' => s' = { s with pte := paint w rest pte }) (rest.foldlM f { s with pte }) := by
    intro rest
    induction rest with
    | nil => simp
    | cons o rest ih =>
      intro hsub pte
      rw [List.cons_subset] at hsub
      rw [List.foldlM_cons, safely_bind]
      refine (hf pte o hsub.1).mono fun s' hs' => ?_
      subst hs'
      rw [← paint_cons]
      exact ih hsub.2 (paint w [o] pte)
  exact key l (List.Subset.refl l) s.pte

theorem safely_restoreWrite {s : State} {l : List (ℕ × ℕ)}
    (hl : ∀ o ∈ l, ∃ pe, s.entry o.1 o.2 = some pe) :
    Safely Halts (fun s' => s' = { s with pte := paint true l s.pte })
      (l.foldlM restoreWrite s) := by
  apply safely_paint
  intro pte o ho
  obtain ⟨pe, hpe⟩ := hl o ho
  have hget : State.getEntry { s with pte } o.1 o.2 = .ok pe := by
    have hpe' : State.entry { s with pte } o.1 o.2 = some pe := hpe
    rw [State.getEntry, hpe']
  rw [restoreWrite, hget, ok_bind]
  split
  · exact safely_setWritable true _ o
  · simp

theorem safely_shareOwner {s : State} {l : List (ℕ × ℕ)}
    (hl : ∀ o ∈ l, ∃ pe, s.entry o.1 o.2 = some pe) :
    Safely Halts (fun s' => s' = { s with pte := paint false l s.pte })
      (l.foldlM shareOwner s) := by
  apply safely_paint
  intro pte o ho
  obtain ⟨pe, hpe⟩ := hl o ho
  have hget : State.getEntry { s with pte } o.1 o.2 = .ok pe := by
    have hpe' : State.entry { s with pte } o.1 o.2 = some pe := hpe
    rw [State.getEntry, hpe']
  rw [shareOwner, hget, ok_bind]
  split
  · simp
  · exact safely_setWritable false _ o

theorem safely_enable {Q : State → Prop} {s : State}
    (h : Q { s with interruptDisabled := s.interruptDisabled - 1 }) :
    Safely Halts Q (enableInterrupts s) := by
  unfold enableInterrupts
  split
  · simp
  · exact h

namespace Consistent

variable {stale canon : Prop} {hole : List (ℕ × ℕ)} {held : List (ℕ × Kind)} {s : State} {p : ℕ}
  {pg : Page}

theorem enable (h : Consistent stale canon hole held s) :
    Safely Halts (Consistent stale canon hole held) (enableInterrupts s) :=
  safely_enable ⟨h.linked, h.mapped⟩

theorem perm {held' : List (ℕ × Kind)} (h : Consistent stale canon hole held s)
    (hp : held.Perm held') : Consistent stale canon hole held' s :=
  ⟨h.linked.perm hp, h.mapped⟩

/-- The page of an entry, or of a held reference, has a record. -/
theorem page_of_entry (h : Consistent stale canon hole held s) {a v : ℕ} {e : PageEntry}
    (hpe : s.entry a v = some e) (hav : (a, v) ∉ hole) : ∃ pg, s.physPages e.p = some pg := by
  obtain ⟨pg, hpg, -⟩ := h.linked.entry_owner a v e hpe hav
  exact ⟨pg, hpg⟩

theorem owners (h : Consistent stale canon hole held s) (hp : s.physPages p = some pg) :
    ∀ o ∈ pg.owner, ∃ pe, s.entry o.1 o.2 = some pe ∧ pe.p = p :=
  fun o ho => (h.linked.owner_entry p pg o hp ho).2

/-! ## The allocator -/

theorem getPage (h : Consistent stale canon hole held s) :
    Safely Halts (fun r => Consistent stale canon hole held r.2 ∧ s.physPages r.1 = none ∧
      r.1 ∉ r.2.freePages ∧ r.2.physPages = s.physPages ∧ r.2.pte = s.pte) (getPage s) := by
  rw [Mm.getPage]
  split
  · simp
  · rename_i page rest hfree
    have hfree' : s.freePages = page :: rest := hfree
    have hl := h.linked
    rw [hfree'] at hl
    obtain ⟨hl, hnone, hnot⟩ := hl.pop
    simp only [safely_bind, safely_pure]
    exact safely_enable ⟨⟨hl, h.mapped⟩, hnone, hnot, rfl, rfl⟩

/-- `manage_phys_page` of a page from the allocator. -/
theorem managePhysPage (h : Consistent stale canon hole held s) (hp : s.physPages p = none)
    (hf : p ∉ s.freePages) :
    Safely Halts (fun s' => Consistent stale canon hole ((p, .shared) :: held) s' ∧
      s'.physPages = Function.update s.physPages p (some ⟨1, 0, []⟩) ∧ s'.pte = s.pte)
      (managePhysPage s p) := by
  rw [Mm.managePhysPage, managePhysPageLocked]
  split
  · have hp' : (disableInterrupts s).physPages p = none := hp
    rw [hp', ok_bind]
    refine safely_enable ⟨⟨h.linked.manage hp hf, fun hc => ?_⟩, rfl, rfl⟩
    exact (h.mapped hc).setPage fun _ _ _ pg _ _ _ hpg => by rw [hp] at hpg; cases hpg
  · simp

theorem dropPage (h : Consistent stale canon hole held s)
    (hl : Linked stale hole held s.physPages s.entry (p :: s.freePages)) :
    Safely Halts (Consistent stale canon hole held) (dropPage s p) := by
  rw [Mm.dropPage]
  split
  · exact safely_enable ⟨hl, h.mapped⟩
  · simp

/-! ## Counts -/

/-- A held reference that is no snapshot is given back. -/
theorem pageUnref {k : Kind} (h : Consistent stale canon hole ((p, k) :: held) s) (hk : k ≠ .snap)
    (hw : Bool) : Safely Halts (Consistent stale canon hole held) (pageUnref s p hw) := by
  obtain ⟨pg, hp⟩ := h.linked.held_live (p, k) List.mem_cons_self
  have hc := h.linked.counted p pg hp
  have hpos := hc.pos
  have hdec : wdec pg.refCount = pg.refCount - 1 := by rw [wdec, if_neg (by omega)]
  rw [Mm.pageUnref, State.getPageRec, hp, ok_bind]
  simp only [hdec]
  split
  · rename_i hlast
    obtain ⟨hl, hl'⟩ := h.linked.release hp (by omega)
    have hgone : Consistent stale canon hole held (s.setPage p none) := by
      refine ⟨hl, fun hcan => (h.mapped hcan).delPage fun a v pe hpe hav hpp => ?_⟩
      obtain ⟨pg', hp', -⟩ := hl.entry_owner a v pe hpe hav
      rw [hpp, Function.update_self] at hp'
      cases hp'
    split
    · exact hgone
    · exact hgone.dropPage hl'
  · rename_i hmore
    exact ⟨h.linked.unref hp hk (by omega), fun hcan => (h.mapped hcan).setPage
      fun _ _ _ pg' _ _ _ hp' h0 => by rw [hp, Option.some.injEq] at hp'; subst hp'; exact h0⟩

/-- A held snapshot is given up. -/
theorem dropSnapshot (h : Consistent stale canon hole ((p, .snap) :: held) s) :
    Safely Halts (Consistent stale canon hole ((p, .spent) :: held)) (dropSnapshot s p) := by
  obtain ⟨pg, hp⟩ := h.linked.held_live (p, .snap) List.mem_cons_self
  have howners := h.owners hp
  have hl := h.linked.drop hp
  rw [Mm.dropSnapshot, State.getPageRec, hp, ok_bind]
  dsimp only
  split
  · rename_i h0
    refine (safely_restoreWrite (s := s.setPage p _) fun o ho => ?_).mono fun s' hs' => ?_
    · obtain ⟨pe, hpe, -⟩ := howners o ho
      exact ⟨pe, hpe⟩
    · subst hs'
      refine ⟨hl, fun hcan => ?_⟩
      refine Mapped.restore ((h.mapped hcan).setPage fun _ _ _ _ _ _ _ _ _ => h0)
        (Function.update_self ..) h0 howners
  · rename_i h0
    refine ⟨hl, fun hcan => (h.mapped hcan).setPage fun a v pe pg' hpe hav hpp hp' hz => ?_⟩
    -- a count of zero wraps, but then no entry is left
    rw [hp, Option.some.injEq] at hp'
    subst hp'
    have hmem := h.linked.mem_owner hpe hav (hpp ▸ hp)
    rw [h.linked.owner_eq_nil hp hz] at hmem
    cases hmem

/-- A held reference of any kind is given back, and the entry with it. -/
theorem pageEntryUnref {pe : PageEntry}
    (h : Consistent stale canon hole ((pe.p, pe.kind) :: held) s) :
    Safely Halts (Consistent stale canon hole held) (pageEntryUnref s pe) := by
  have hoff : Consistent stale canon hole ((pe.p, pe.kind) :: held) (disableInterrupts s) :=
    ⟨h.linked, h.mapped⟩
  have hdrop : ∃ k, k ≠ .snap ∧ Safely Halts (Consistent stale canon hole ((pe.p, k) :: held))
      (if hasFlag pe.flags PF_SNAPSHOT then Mm.dropSnapshot (disableInterrupts s) pe.p
        else pure (disableInterrupts s)) := by
    unfold PageEntry.kind at hoff
    split
    · rename_i hsnap
      rw [if_pos hsnap] at hoff
      exact ⟨.spent, by decide, hoff.dropSnapshot⟩
    · rename_i hsnap
      rw [if_neg hsnap] at hoff
      exact ⟨.shared, by decide, hoff⟩
  obtain ⟨k, hk, hdrop⟩ := hdrop
  simp only [Mm.pageEntryUnref, safely_bind]
  refine hdrop.mono fun s₁ h₁ => ?_
  exact (h₁.pageUnref hk _).mono fun s₂ h₂ => h₂.enable

/-! ## Owners -/

end Consistent

theorem delOwner_eq {s : State} {p : ℕ} {pg : Page} {o : ℕ × ℕ} (hp : s.physPages p = some pg)
    (ho : o ∈ pg.owner) :
    delOwner s p o = .ok (s.setPage p (some { pg with owner := pg.owner.erase o })) := by
  rw [delOwner, State.getPageRec, hp, ok_bind, if_pos ho, pure_eq_ok]

theorem addOwner_eq {s : State} {p : ℕ} {pg : Page} (hp : s.physPages p = some pg) (o : ℕ × ℕ) :
    addOwner s p o = .ok (s.setPage p (some { pg with owner := o :: pg.owner })) := by
  rw [addOwner, State.getPageRec, hp, ok_bind, pure_eq_ok]

theorem safely_unmapMaybeCurrent (s : State) (as vaddr : ℕ) :
    Safely Halts (fun s' => s' = s.setPte as vaddr none) (unmapMaybeCurrent s as vaddr) := by
  rw [unmapMaybeCurrent, ptableGetEntry4k]
  split
  · rename_i hcur
    rw [safely_ok, unmap, hcur]
  · split
    · simp
    · simp

/-- Write permission goes from every owner of a page. -/
theorem safely_sharePage {s : State} {p : ℕ} {pg : Page} (hp : s.physPages p = some pg)
    (howners : ∀ o ∈ pg.owner, ∃ pe, s.entry o.1 o.2 = some pe) :
    Safely Halts (fun s' => s'.physPages = s.physPages ∧ s'.entry = s.entry ∧
      s'.freePages = s.freePages ∧ s'.pte = paint false pg.owner s.pte) (sharePage s p) := by
  have hget : (disableInterrupts s).getPageRec p = .ok pg := by
    have hp' : (disableInterrupts s).physPages p = some pg := hp
    rw [State.getPageRec, hp']
  rw [sharePage, hget, ok_bind, safely_bind]
  refine (safely_shareOwner (s := disableInterrupts s) howners).mono fun s₁ hs₁ => ?_
  subst hs₁
  exact safely_enable ⟨rfl, rfl, rfl, rfl⟩

namespace Consistent

variable {stale canon : Prop} {hole : List (ℕ × ℕ)} {held : List (ℕ × Kind)} {s : State} {p : ℕ}
  {pg : Page}

/-! ## Entries come and go -/

theorem unassignPage (h : Consistent stale canon hole held s) {as vaddr : ℕ} {pe : PageEntry}
    (hpe : s.entry as vaddr = some pe) (hav : (as, vaddr) ∉ hole) :
    Safely Halts (Consistent stale canon hole held) (unassignPage as s vaddr) := by
  obtain ⟨sp, hsp⟩ := space_of_entry hpe
  obtain ⟨pg, hp⟩ := h.page_of_entry hpe hav
  have hmem := h.linked.mem_owner hpe hav hp
  -- without the entry
  obtain ⟨s₀, hs₀⟩ : ∃ s₀, s₀ = (disableInterrupts s).setSpace as
    { sp with vaddrMap := sp.vaddrMap.erase vaddr } := ⟨_, rfl⟩
  have hsp₀ : s₀.spaces as = some { sp with vaddrMap := sp.vaddrMap.erase vaddr } := by
    rw [hs₀]
    exact Function.update_self ..
  have hent₀ : s₀.entry = updEnt s.entry as vaddr none := by
    rw [hs₀]
    exact entry_setSpace_erase (s := disableInterrupts s) hsp sp.vma vaddr
  have hp₀ : s₀.physPages pe.p = some pg := by
    rw [hs₀]
    exact hp
  -- without its places in the two lists
  obtain ⟨s₁, hs₁⟩ : ∃ s₁, s₁ = (s₀.setPage pe.p
      (some { pg with owner := pg.owner.erase (as, vaddr) })).setSpace as
    { sp with vma := delSibling vaddr sp.vma, vaddrMap := sp.vaddrMap.erase vaddr } := ⟨_, rfl⟩
  have hphys : s₁.physPages =
      Function.update s.physPages pe.p (some { pg with owner := pg.owner.erase (as, vaddr) }) := by
    rw [hs₁, hs₀]
    rfl
  have hent : s₁.entry = updEnt s.entry as vaddr none := by
    rw [hs₁, ← hent₀]
    exact entry_setSpace_vma (s := s₀.setPage _ _) hsp₀ rfl
  have hfree : s₁.freePages = s.freePages := by
    rw [hs₁, hs₀]
    rfl
  have hpte : s₁.pte = s.pte := by
    rw [hs₁, hs₀]
    rfl
  have hl : Linked stale hole ((pe.p, pe.kind) :: held) s₁.physPages s₁.entry s₁.freePages := by
    rw [hphys, hent, hfree]
    exact ((h.linked.detach hpe hav hp).setEntry List.mem_cons_self (by simp)).closeHole
      (updEnt_self ..)
  have hm : canon → Mapped ((as, vaddr) :: hole) s₁.physPages s₁.entry s₁.pte := by
    intro hcan
    rw [hphys, hent, hpte]
    refine Mapped.setEntry (Mapped.openHole ((h.mapped hcan).setPage ?_) _) List.mem_cons_self
      ((h.mapped hcan).canon as vaddr pe hpe) none
    intro a v pe' pg' _ _ _ hp' h0
    rw [hp, Option.some.injEq] at hp'
    subst hp'
    exact h0
  simp only [Mm.unassignPage, getEntry_eq (s := disableInterrupts s) hpe,
    getSpace_eq (s := disableInterrupts s) hsp, ok_bind]
  rw [← hs₀, delOwner_eq hp₀ hmem, ok_bind,
    getSpace_eq (s := s₀.setPage _ _) hsp₀, ok_bind, ← hs₁]
  simp only [safely_bind]
  refine safely_enable ((safely_unmapMaybeCurrent _ as vaddr).mono fun s₂ hs₂ => ?_)
  have hc : Consistent stale canon hole ((pe.p, pe.kind) :: held) s₂ := by
    subst hs₂
    exact ⟨hl, fun hcan => (hm hcan).unmap⟩
  exact hc.pageEntryUnref

theorem unassignOld (h : Consistent stale canon hole held s) {as vaddr : ℕ}
    (hav : (as, vaddr) ∉ hole) :
    Safely Halts (Consistent stale canon hole held) (unassignOld as s vaddr) := by
  unfold Mm.unassignOld
  split
  · rename_i pe hpe
    exact h.unassignPage hpe hav
  · exact h

/-- A reference to the page `p` that does not go with the entry of `vaddr`. -/
def Referred (held : List (ℕ × Kind)) (s : State) (p as vaddr : ℕ) : Prop :=
  (∃ k, (p, k) ∈ held) ∨
    ∃ a v pe, (a, v) ≠ (as, vaddr) ∧ s.entry a v = some pe ∧ pe.p = p

/-- The end of `address_space_assign_page_no_addr_check`: the entry is stored, but
a snapshot is not counted yet. -/
theorem endAssign (h : Consistent stale canon [] held s) {as vaddr flags : ℕ}
    (hcanon : canon → Canonical vaddr) (hp : s.physPages p = some pg)
    (hnone : s.entry as vaddr = none)
    (hflags : ValidFlags flags) (hspent : held.count (p, .spent) = 0)
    (hshared : hasFlag flags PF_SNAPSHOT = false → (p, Kind.shared) ∈ held) {s₁ : State}
    (hphys : s₁.physPages = Function.update s.physPages p
      (some { pg with refCount := pg.refCount + 1, owner := (as, vaddr) :: pg.owner }))
    (hent : s₁.entry = updEnt s.entry as vaddr (some ⟨p, flags⟩))
    (hfree : s₁.freePages = s.freePages) (hpte : s₁.pte = s.pte) :
    Safely Halts (Consistent stale canon [] held)
      (if hasFlag flags PF_SNAPSHOT then addSnapshot s₁ p else pure s₁) := by
  have hsome : ∀ pe, some (⟨p, flags⟩ : PageEntry) = some pe → ValidFlags pe.flags := by
    rintro pe hpe
    rw [Option.some.injEq] at hpe
    rwa [← hpe]
  -- no page table has the new entry
  have hm : canon → Mapped [] s.physPages s₁.entry s.pte := by
    intro hcan
    rw [hent]
    refine Mapped.closeHole (((h.mapped hcan).openHole (as, vaddr)).setEntry List.mem_cons_self
      (hcanon hcan) _) ?_
    exact (h.mapped hcan).pte_eq_none (hcanon hcan) (by simp) hnone
  split
  · rename_i hsnap
    have hkind : PageEntry.kind ⟨p, flags⟩ = .snap := by rw [PageEntry.kind, if_pos hsnap]
    have hl : Linked stale [] held (Function.update s.physPages p (some ⟨pg.refCount + 1,
        pg.snapCount + 1, (as, vaddr) :: pg.owner⟩)) s₁.entry s₁.freePages := by
      have hl := (((h.linked.refSnap hp hspent).openHole hnone).setEntry List.mem_cons_self hsome)
      rw [← hkind] at hl
      have hl' := Linked.attach (e := ⟨p, flags⟩) hl (updEnt_self ..) List.not_mem_nil
        (Function.update_self ..)
      rwa [Function.update_idem, ← hent, ← hfree] at hl'
    have hp₁ : s₁.physPages p = some
        { pg with refCount := pg.refCount + 1, owner := (as, vaddr) :: pg.owner } := by
      rw [hphys, Function.update_self]
    rw [addSnapshot, getPageRec_eq hp₁, ok_bind, if_neg (by simp)]
    dsimp only
    have hphys₂ : (s₁.setPage p (some ⟨pg.refCount + 1, pg.snapCount + 1,
        (as, vaddr) :: pg.owner⟩)).physPages = Function.update s.physPages p (some ⟨pg.refCount + 1,
          pg.snapCount + 1, (as, vaddr) :: pg.owner⟩) := by
      rw [State.setPage, hphys, Function.update_idem]
    split
    · rename_i hfirst
      refine (safely_sharePage (Function.update_self ..) fun o ho => ?_).mono ?_
      · obtain ⟨pe, hpe, -⟩ := (hl.owner_entry p _ o (Function.update_self ..) ho).2
        exact ⟨pe, hpe⟩
      · rintro s₂ ⟨hphys', hent', hfree', hpte'⟩
        refine ⟨?_, fun hcan => ?_⟩
        · rw [hphys', hent', hfree', hphys₂]
          exact hl
        · rw [hphys', hent', hpte', hphys₂]
          have hpte₁ : (s₁.setPage p (some ⟨pg.refCount + 1, pg.snapCount + 1,
            (as, vaddr) :: pg.owner⟩)).pte = s.pte := hpte
          rw [hpte₁]
          refine (hm hcan).raise fun a v pe hpe _ hpp => ?_
          exact hl.mem_owner hpe List.not_mem_nil (by rw [hpp, Function.update_self])
    · rename_i hmore
      refine ⟨?_, fun hcan => ?_⟩
      · rw [hphys₂]
        exact hl
      · rw [hphys₂]
        have hm' := (hm hcan).setPage (p := p) (q := ⟨pg.refCount + 1, pg.snapCount + 1,
          (as, vaddr) :: pg.owner⟩) fun a v pe pg' _ _ _ hp' h0 => by
            rw [hp, Option.some.injEq] at hp'
            subst hp'
            exact absurd h0 (by simpa using hmore)
        rw [← hpte] at hm'
        exact hm'
  · rename_i hsnap
    have hkind : PageEntry.kind ⟨p, flags⟩ = .shared := by rw [PageEntry.kind, if_neg hsnap]
    have hmem := hshared (by simpa using hsnap)
    refine ⟨?_, fun hcan => ?_⟩
    · have hl := (((h.linked.ref hp hmem).openHole hnone).setEntry List.mem_cons_self hsome)
      rw [← hkind] at hl
      have hl' := Linked.attach (e := ⟨p, flags⟩) hl (updEnt_self ..) List.not_mem_nil
        (Function.update_self ..)
      rwa [Function.update_idem, ← hent, ← hfree, ← hphys] at hl'
    · rw [hphys, hpte]
      refine (hm hcan).setPage fun a v pe pg' _ _ _ hp' h0 => ?_
      rw [hp, Option.some.injEq] at hp'
      subst hp'
      exact h0

theorem assignPageNoAddrCheck (h : Consistent stale canon [] held s) {as vaddr vma flags : ℕ}
    (has : ∃ sp, s.spaces as = some sp) (hcanon : canon → Canonical vaddr) (hflags : ValidFlags flags)
    (hp : Referred held s p as vaddr) (hspent : held.count (p, .spent) = 0)
    (hshared : hasFlag flags PF_SNAPSHOT = false → (p, Kind.shared) ∈ held) :
    Safely Halts (Consistent stale canon [] held)
      (assignPageNoAddrCheck s as p vaddr vma flags) := by
  have hoff : Consistent stale canon [] held (disableInterrupts s) := ⟨h.linked, h.mapped⟩
  unfold Mm.assignPageNoAddrCheck
  split
  · simp
  split
  · simp
  simp only [safely_bind]
  refine ((hoff.unassignOld List.not_mem_nil).and (effect_unassignOld as _ vaddr)).mono ?_
  rintro s₁ ⟨h₁, hold⟩
  have hframe₁ : Frame (disableInterrupts s) s₁ := hold.frame
  have hent₁ : s₁.entry = updEnt s.entry as vaddr none := hold.entry
  -- the page is still there
  obtain ⟨pg, hpg⟩ : ∃ pg, s₁.physPages p = some pg := by
    rcases hp with ⟨k, hk⟩ | ⟨a, v, pe, hne, hpe, rfl⟩
    · exact h₁.linked.held_live _ hk
    · refine h₁.page_of_entry (a := a) (v := v) ?_ List.not_mem_nil
      rw [hent₁, updEnt_of_ne (o := (a, v)) hne, hpe]
  obtain ⟨sp, hsp⟩ : ∃ sp, s₁.spaces as = some sp := by
    obtain ⟨sp, hsp⟩ := has
    obtain ⟨sp', hsp', -⟩ := hframe₁.space (s := disableInterrupts s) hsp
    exact ⟨sp', hsp'⟩
  have hnone : s₁.entry as vaddr = none := by rw [hent₁, updEnt_self]
  rw [getPageRec_eq hpg, safely_ok, addOwner_eq (Function.update_self ..), safely_ok]
  dsimp only
  rw [getSpace_eq (s := (s₁.setPage p _).setPage p _) hsp, safely_ok]
  generalize hs₂ : State.setSpace _ as _ = s₂
  have hphys₂ : s₂.physPages = Function.update s₁.physPages p
      (some { pg with refCount := pg.refCount + 1, owner := (as, vaddr) :: pg.owner }) := by
    rw [← hs₂]
    exact Function.update_idem ..
  have hent₂ : s₂.entry = updEnt s₁.entry as vaddr (some ⟨p, flags⟩) := by
    rw [← hs₂]
    exact entry_setSpace_insert (s := (s₁.setPage p _).setPage p _) hsp _ vaddr ⟨p, flags⟩
  have hfree₂ : s₂.freePages = s₁.freePages := by
    rw [← hs₂]
    rfl
  have hpte₂ : s₂.pte = s₁.pte := by
    rw [← hs₂]
    rfl
  exact (h₁.endAssign hcanon hpg hnone hflags hspent hshared hphys₂ hent₂ hfree₂ hpte₂).mono
    fun s₃ h₃ => h₃.enable

end Consistent

end SadOS.Mm
