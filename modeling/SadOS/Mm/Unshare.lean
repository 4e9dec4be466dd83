import SadOS.Mm.Consistent

/-!
# Private copies and mappings

`unshare_page` gives the writer of a page with snapshots a page of its own, together
with the shared entries of the page if the writer is one of them.
`address_space_map` enters a page into the page table, and makes the sole snapshot
of a page an ordinary entry.

## Main definitions

* `Copied` — what `unshare_page` does to entries and page contents.
* `Consistent.unsharePage`, `Consistent.addressSpaceMap` — the two operations.
-/

namespace SadOS.Mm

namespace Consistent

variable {stale canon : Prop} {hole : List (ℕ × ℕ)} {held : List (ℕ × Kind)} {s : State} {p : ℕ}
  {pg : Page}

/-! ## Private copies -/

/-- A shared entry goes from `oldp` to `page`, both of which somebody else refers to. -/
theorem moveShared (h : Consistent stale canon hole held s) {oldp page : ℕ} {o : ℕ × ℕ}
    (hne : oldp ≠ page) (hold : (oldp, Kind.shared) ∈ held) (hnew : (page, Kind.shared) ∈ held)
    (hp : s.physPages oldp = some pg) (ho : o ∈ pg.owner) :
    Safely Halts (fun s' => Consistent stale canon hole held s' ∧
      ∃ pg', s'.physPages oldp = some pg' ∧ ∀ o' ∈ pg.owner, o' ≠ o → o' ∈ pg'.owner)
      (moveShared oldp page s o) := by
  obtain ⟨a, v⟩ := o
  obtain ⟨hhole, oi, hoi, hoip⟩ := h.linked.owner_entry oldp pg (a, v) hp ho
  subst hoip
  obtain ⟨ng, hng⟩ := h.linked.held_live _ hnew
  simp only at hng hoi
  rw [Mm.moveShared, getEntry_eq hoi, ok_bind]
  split
  swap
  · exact ⟨h, pg, hp, fun o' ho' _ => ho'⟩
  rename_i hshared
  have hkind : oi.kind = .shared := (h.linked.flags a v oi hoi).kind_of_shared hshared
  -- the entry leaves the old page
  have hl₁ := h.linked.detach hoi hhole hp
  rw [hkind] at hl₁
  have hcount := (hl₁.counted _ _ (Function.update_self ..)).refs
  have htwo : pg.refCount ≠ 1 := by
    have hpos : 0 < refsOn held oi.p := List.countP_pos_iff.2 ⟨_, hold, by simp⟩
    simp only [refsOn_cons, if_true] at hcount
    omega
  have hl₂ := hl₁.unref (Function.update_self ..) (by decide) htwo
  rw [Function.update_idem] at hl₂
  -- and joins the new one
  have hl₃ := (hl₂.setEntry (a := a) (v := v) (x := some { oi with p := page }) List.mem_cons_self
    (by simpa using h.linked.flags a v oi hoi)).ref
      (show _ = some ng by rw [Function.update_of_ne hne.symm, hng]) hnew
  rw [← hkind] at hl₃
  have hl₄ := Linked.attach (e := { oi with p := page }) hl₃ (updEnt_self ..) hhole
    (Function.update_self ..)
  rw [Function.update_idem] at hl₄
  have hm : canon → Mapped hole
      (Function.update (Function.update s.physPages oi.p (some ⟨pg.refCount - 1, pg.snapCount,
        pg.owner.erase (a, v)⟩)) page (some ⟨ng.refCount + 1, ng.snapCount, (a, v) :: ng.owner⟩))
      (updEnt s.entry a v (some { oi with p := page }))
      (Function.update s.pte a (Function.update (s.pte a) (slot v) none)) := by
    intro hcan
    have hm := h.mapped hcan
    refine Mapped.unmap (((Mapped.setPage (hm.setPage ?_) ?_).openHole (a, v)).setEntry
      List.mem_cons_self (hm.canon a v oi hoi) _)
    · intro _ _ _ pg' _ _ _ hp' h0
      rw [hp, Option.some.injEq] at hp'
      subst hp'
      exact h0
    · intro _ _ _ ng' _ _ _ hng' h0
      rw [Function.update_of_ne hne.symm, hng, Option.some.injEq] at hng'
      subst hng'
      exact h0
  have hdec : wdec pg.refCount = pg.refCount - 1 := by
    have := (h.linked.counted _ pg hp).pos
    rw [wdec, if_neg (by omega)]
  -- the same steps in the source
  obtain ⟨sp, hsp⟩ := space_of_entry hoi
  rw [delOwner_eq hp ho, ok_bind, getPageRec_eq (Function.update_self ..), ok_bind]
  dsimp only
  have hng' : ((s.setPage oi.p (some { pg with owner := pg.owner.erase (a, v) })).setPage oi.p (some
      { pg with refCount := wdec pg.refCount, owner := pg.owner.erase (a, v) })).physPages page =
      some ng := by
    simp [State.setPage, Function.update_of_ne hne.symm, hng]
  rw [addOwner_eq hng', ok_bind, getPageRec_eq (show _ = some { ng with owner := (a, v) :: ng.owner }
    by rw [physPages_setEntry]; exact Function.update_self ..), ok_bind, ptableGetEntry4k]
  split
  · simp
  rw [ok_bind]
  generalize hs' : State.setPte _ a v none = s'
  have hphys : s'.physPages = Function.update (Function.update s.physPages oi.p
      (some ⟨pg.refCount - 1, pg.snapCount, pg.owner.erase (a, v)⟩)) page
      (some ⟨ng.refCount + 1, ng.snapCount, (a, v) :: ng.owner⟩) := by
    rw [← hs', ← hdec]
    simp [State.setPte, State.setPage]
  have hent : s'.entry = updEnt s.entry a v (some { oi with p := page }) := by
    rw [← hs']
    exact entry_setEntry (s := ((s.setPage oi.p _).setPage oi.p _).setPage page _) hsp v _
  have hfree : s'.freePages = s.freePages := by
    rw [← hs']
    exact freePages_setEntry ..
  have hpte : s'.pte = Function.update s.pte a (Function.update (s.pte a) (slot v) none) := by
    rw [← hs']
    simp [State.setPte, State.setPage]
  refine ⟨⟨?_, ?_⟩, ⟨pg.refCount - 1, pg.snapCount, pg.owner.erase (a, v)⟩, ?_, ?_⟩
  · rw [hphys, hent, hfree]
    exact hl₄
  · rw [hphys, hent, hpte]
    exact hm
  · rw [hphys, Function.update_of_ne hne, Function.update_self]
  · exact fun o' ho' hne' => (List.mem_erase_of_ne hne').2 ho'

/-- All shared entries of `oldp` go. -/
theorem moveShared_all (h : Consistent stale canon hole held s) {oldp page : ℕ}
    (hne : oldp ≠ page) (hold : (oldp, Kind.shared) ∈ held) (hnew : (page, Kind.shared) ∈ held)
    (hp : s.physPages oldp = some pg) :
    Safely Halts (Consistent stale canon hole held) (pg.owner.foldlM (Mm.moveShared oldp page) s) := by
  refine Safely.mono (safely_foldlM (fun rest s' => Consistent stale canon hole held s' ∧ rest.Nodup ∧
    ∃ pg', s'.physPages oldp = some pg' ∧ ∀ o ∈ rest, o ∈ pg'.owner) ?_ ?_) fun s' h' => h'.1
  · exact ⟨h, (h.linked.counted oldp pg hp).nodup, pg, hp, fun o ho => ho⟩
  · rintro o rest s₁ ⟨h₁, hnodup, pg₁, hp₁, hrest⟩
    obtain ⟨hnot, hnodup⟩ := List.nodup_cons.1 hnodup
    refine (h₁.moveShared hne hold hnew hp₁ (hrest o List.mem_cons_self)).mono ?_
    rintro s₂ ⟨h₂, pg₂, hp₂, hkeep⟩
    refine ⟨h₂, hnodup, pg₂, hp₂, fun o' ho' => hkeep o' (hrest o' (List.mem_cons_of_mem _ ho')) ?_⟩
    rintro rfl
    exact hnot ho'

/-- The references that `unshare_page` takes from the page of an entry in transit. -/
theorem unshareRefs {as vaddr page : ℕ} {pe : PageEntry}
    (h : Consistent stale canon [(as, vaddr)] ((pe.p, pe.kind) :: (page, .shared) :: held) s)
    (hpe : s.entry as vaddr = some pe) (hhw : hasFlag pe.flags PF_HARDWARE = false)
    (hne : pe.p ≠ page) (hp : s.physPages pe.p = some pg) :
    Safely Halts (fun s' => s'.mem = s.mem ∧ ∃ k pe', k ≠ Kind.snap ∧
        Consistent stale canon [(as, vaddr)] ((pe.p, k) :: (page, .shared) :: held) s' ∧
        s'.entry as vaddr = some pe' ∧ pe'.kind = .shared ∧
        s'.entry = if hasFlag pe.flags PF_SHARED then retarget page pg.owner s.entry
          else updEnt s.entry as vaddr (some { pe with flags := PF_SHARED }))
      (unshareRefs s as vaddr pe page) := by
  have hflags := h.linked.flags as vaddr pe hpe
  rw [Mm.unshareRefs]
  split
  · rename_i hshared
    have hkind : pe.kind = .shared := hflags.kind_of_shared hshared
    rw [hkind] at h
    have hnot : (as, vaddr) ∉ pg.owner := fun hmem =>
      (h.linked.owner_entry _ pg _ hp hmem).1 List.mem_cons_self
    rw [getPageRec_eq hp, ok_bind]
    refine ((h.moveShared_all hne (by simp) (by simp) hp).and
      (effect_moveShared_all pe.p page pg.owner s)).mono ?_
    rintro s' ⟨h', hent, hmem⟩
    refine ⟨hmem, .shared, pe, by decide, h', ?_, hkind, hent⟩
    rw [hent, retarget_not_mem hnot, hpe]
  · rename_i hshared
    have hsnap : hasFlag pe.flags PF_SNAPSHOT = true := by simpa [hshared, hhw] using hflags.one
    have hkind : pe.kind = .snap := by rw [PageEntry.kind, if_pos hsnap]
    obtain ⟨sp, hsp⟩ := space_of_entry hpe
    have hent := entry_setEntry hsp vaddr { pe with flags := PF_SHARED }
    have hset : Consistent stale canon [(as, vaddr)] ((pe.p, .snap) :: (page, .shared) :: held)
        (s.setEntry as vaddr { pe with flags := PF_SHARED }) := by
      rw [hkind] at h
      refine ⟨?_, fun hcan => ?_⟩
      · rw [physPages_setEntry, hent, freePages_setEntry]
        exact h.linked.setEntry List.mem_cons_self (by simpa using validFlags_shared)
      · rw [physPages_setEntry, hent, pte_setEntry]
        exact (h.mapped hcan).setFlags hpe PF_SHARED
    refine (hset.dropSnapshot.and (quiet_dropSnapshot _ pe.p)).mono ?_
    rintro s' ⟨h', hq⟩
    refine ⟨?_, .spent, { pe with flags := PF_SHARED }, by decide, h', ?_, ?_, ?_⟩
    · rw [hq.mem, mem_setEntry]
    · rw [hq.entry, hent, updEnt_self]
    · exact ValidFlags.kind_of_shared (e := ⟨pe.p, PF_SHARED⟩) validFlags_shared
        (by simp [hasFlag, PF_SHARED])
    · rw [hq.entry, hent]

/-- The page entries once the writer at `vaddr` has the copy `page`, and with a shared
writer all shared entries of its page. -/
def movedEntries (as vaddr page : ℕ) (pe : PageEntry) (pg : Page)
    (ent : ℕ → ℕ → Option PageEntry) : ℕ → ℕ → Option PageEntry :=
  if hasFlag pe.flags PF_SHARED then retarget page pg.owner ent
  else updEnt ent as vaddr (some ⟨page, PF_SHARED⟩)

/-- What `unshare_page` does to entries and page contents when it makes a copy. -/
def Copied (as vaddr : ℕ) (pe : PageEntry) (pg : Page) (s s' : State) : Prop :=
  hasFlag pe.flags PF_HARDWARE = false ∧
    ∃ page, s.physPages page = none ∧ s'.mem = Function.update s.mem page (s.mem pe.p) ∧
    s'.entry = movedEntries as vaddr page pe pg s.entry

/-- The writer's entry in transit joins the owners of the copy. -/
theorem joinCopy {as vaddr page : ℕ} {k : Kind} {pe' : PageEntry}
    (h : Consistent stale canon [(as, vaddr)] ((p, k) :: (page, .shared) :: held) s)
    (hpe : s.entry as vaddr = some pe') (hkind : pe'.kind = .shared) (hcur : s.current = as)
    (hcanon : canon → Canonical vaddr) :
    ∃ s', addOwner (s.setEntry as vaddr { pe' with p := page }) page (as, vaddr) = .ok s' ∧
      Consistent stale canon [] ((p, k) :: held) (unmap s' vaddr) ∧
      (unmap s' vaddr).entry = updEnt s.entry as vaddr (some { pe' with p := page }) ∧
      (unmap s' vaddr).mem = s.mem := by
  obtain ⟨sp, hsp⟩ := space_of_entry hpe
  have hent := entry_setEntry hsp vaddr { pe' with p := page }
  obtain ⟨ng, hng⟩ := h.linked.held_live (page, .shared) (by simp)
  have hswap := h.perm (List.Perm.swap (page, .shared) (p, k) held)
  have hset : Linked stale [(as, vaddr)] ((page, pe'.kind) :: (p, k) :: held) s.physPages
      (updEnt s.entry as vaddr (some { pe' with p := page })) s.freePages := by
    rw [hkind]
    refine hswap.linked.setEntry List.mem_cons_self ?_
    intro x hx
    rw [Option.some.injEq] at hx
    rw [← hx]
    exact h.linked.flags as vaddr pe' hpe
  have hattach := Linked.attach (e := { pe' with p := page }) hset (updEnt_self ..)
    List.not_mem_nil hng
  have hng' : (s.setEntry as vaddr { pe' with p := page }).physPages page = some ng := by
    rw [physPages_setEntry, hng]
  have hcur' : (s.setEntry as vaddr { pe' with p := page }).current = as := by
    rw [State.setEntry, hsp]
    exact hcur
  refine ⟨_, addOwner_eq hng' _, ?_⟩
  generalize hs' : unmap _ vaddr = s'
  have hphys' : s'.physPages =
      Function.update s.physPages page (some { ng with owner := (as, vaddr) :: ng.owner }) := by
    rw [← hs', ← physPages_setEntry s as vaddr { pe' with p := page }]
    rfl
  have hent' : s'.entry = updEnt s.entry as vaddr (some { pe' with p := page }) := by
    rw [← hs', ← hent]
    rfl
  have hfree' : s'.freePages = s.freePages := by
    rw [← hs']
    exact freePages_setEntry ..
  have hpte' : s'.pte = Function.update s.pte as (Function.update (s.pte as) (slot vaddr) none) := by
    rw [← hs']
    simp only [unmap, State.setPte, State.setPage, pte_setEntry, hcur']
  refine ⟨⟨?_, fun hcan => ?_⟩, hent', ?_⟩
  · rw [hphys', hent', hfree']
    exact hattach
  · rw [hphys', hent', hpte']
    have hm := (h.mapped hcan).setEntry List.mem_cons_self (hcanon hcan)
      (some { pe' with p := page })
    refine Mapped.unmap (hm.setPage fun _ _ _ ng' _ _ _ hng' h0 => ?_)
    rw [hng, Option.some.injEq] at hng'
    subst hng'
    exact h0
  · rw [← hs']
    exact mem_setEntry ..

/-- The entries once the writer's has joined the copy, after those that `unshare_page` takes
along. -/
theorem updEnt_eq_movedEntries {as vaddr page : ℕ} {pe pe' : PageEntry}
    {ent ent' : ℕ → ℕ → Option PageEntry} (hnodup : pg.owner.Nodup)
    (howner : (as, vaddr) ∈ pg.owner) (hpe : ent as vaddr = some pe)
    (hent : ent' = if hasFlag pe.flags PF_SHARED then
        retarget page (pg.owner.erase (as, vaddr)) ent
      else updEnt ent as vaddr (some { pe with flags := PF_SHARED }))
    (hpe' : ent' as vaddr = some pe') :
    updEnt ent' as vaddr (some { pe' with p := page }) = movedEntries as vaddr page pe pg ent := by
  have hnotmem : (as, vaddr) ∉ pg.owner.erase (as, vaddr) := hnodup.not_mem_erase
  rw [movedEntries]
  split at hent
  · rename_i hshared
    rw [hent, retarget_not_mem hnotmem, hpe, Option.some.injEq] at hpe'
    subst hpe'
    rw [if_pos hshared, hent]
    funext a v
    rw [updEnt_apply]
    split
    · rename_i heq
      rw [Prod.mk.injEq] at heq
      rw [heq.1, heq.2, retarget_mem howner, hpe, Option.map_some, PageEntry.retarget,
        if_pos hshared]
    · rename_i hneq
      simp only [retarget, List.contains_iff_mem, List.mem_erase_of_ne hneq]
  · rename_i hshared
    rw [hent, updEnt_self, Option.some.injEq] at hpe'
    subst hpe'
    rw [if_neg hshared, hent, updEnt, updEnt, updEnt]
    simp

theorem unshareCopy (h : Consistent stale canon [] held s) {as vaddr : ℕ} {pe : PageEntry}
    (hpe : s.entry as vaddr = some pe) (hcur : as = s.current)
    (hhw : hasFlag pe.flags PF_HARDWARE = false) (hp : s.physPages pe.p = some pg) :
    Safely Halts (fun s' => Consistent stale canon [] held s' ∧ Copied as vaddr pe pg s s')
      (unshareCopy s as vaddr pe) := by
  simp only [Mm.unshareCopy, safely_bind]
  refine (h.getPage.and (quiet_getPage s)).mono ?_
  rintro ⟨page, s₁⟩ ⟨⟨h₁, hnone, hnot, hphys₁, -⟩, hq₁⟩
  dsimp only at h₁ hnone hnot hphys₁ hq₁ ⊢
  have hent₁ : s₁.entry = s.entry := hq₁.entry
  have hp₁ : s₁.physPages pe.p = some pg := by rw [hphys₁, hp]
  have hne : pe.p ≠ page := by
    rintro rfl
    rw [hp] at hnone
    cases hnone
  rw [getPageRec_eq hp₁, safely_ok]
  split
  · simp
  simp only [safely_bind]
  -- the copy, which the caller refers to
  have hmem : Consistent stale canon [] held (s₁.setMem page (s₁.mem pe.p)) := ⟨h₁.linked, h₁.mapped⟩
  refine ((hmem.managePhysPage (by rw [← hphys₁] at hnone; exact hnone) hnot).and
    (quiet_managePhysPage _ page)).mono ?_
  rintro s₂ ⟨⟨h₂, hphys₂, -⟩, hq₂⟩
  have hent₂ : s₂.entry = s.entry := hq₂.entry.trans hent₁
  have hp₂ : s₂.physPages pe.p = some pg := by
    rw [hphys₂, Function.update_of_ne hne]
    exact hp₁
  -- the entry in transit
  have hpe₂ : s₂.entry as vaddr = some pe := by rw [hent₂, hpe]
  have howner := h₂.linked.mem_owner hpe₂ List.not_mem_nil hp₂
  obtain ⟨s₃, hs₃⟩ : ∃ s₃, s₃ = s₂.setPage pe.p (some { pg with owner := pg.owner.erase (as, vaddr) }) :=
    ⟨_, rfl⟩
  rw [delOwner_eq hp₂ howner, safely_ok, ← hs₃]
  have h₃ : Consistent stale canon [(as, vaddr)] ((pe.p, pe.kind) :: (page, .shared) :: held) s₃ := by
    rw [hs₃]
    refine ⟨h₂.linked.detach hpe₂ List.not_mem_nil hp₂, fun hcan => ?_⟩
    refine ((h₂.mapped hcan).openHole _).setPage fun _ _ _ pg' _ _ _ hp' h0 => ?_
    rw [hp₂, Option.some.injEq] at hp'
    subst hp'
    exact h0
  have hent₃ : s₃.entry = s.entry := by
    rw [← hent₂, hs₃]
    rfl
  have hcur₃ : s₃.current = s.current := by
    rw [hs₃]
    exact hq₂.current.trans hq₁.current
  have hmem₃ : s₃.mem = Function.update s.mem page (s.mem pe.p) := by
    rw [hs₃]
    refine hq₂.mem.trans ?_
    rw [State.setMem, hq₁.mem]
  refine ((h₃.unshareRefs (by rw [hent₃, hpe]) hhw hne (by rw [hs₃]; exact Function.update_self ..)).and
    (retag_unshareRefs s₃ as vaddr pe page)).mono ?_
  rintro s₄ ⟨⟨hmem₄, k, pe', hk, h₄, hpe₄, hkind₄, hent₄⟩, hretag⟩
  rw [getEntry_eq hpe₄, safely_ok]
  -- it joins the owners of the copy
  have hcur₄ : s₄.current = as := by rw [hretag.current, hcur₃, hcur]
  obtain ⟨s₅, hs₅, h₆, hent₆, hmem₆⟩ := h₄.joinCopy hpe₄ hkind₄ hcur₄ fun hcan =>
    (h.mapped hcan).canon _ _ _ hpe
  rw [hs₅, safely_ok]
  refine ((h₆.pageUnref hk false).and (quiet_pageUnref _ pe.p false)).mono ?_
  rintro s₇ ⟨h₇, hq₇⟩
  dsimp only at hent₄
  rw [hent₃] at hent₄
  refine safely_enable ⟨⟨h₇.linked, h₇.mapped⟩, hhw, page, hnone, ?_, ?_⟩
  · exact hq₇.mem.trans (hmem₆.trans (hmem₄.trans hmem₃))
  · refine hq₇.entry.trans (hent₆.trans ?_)
    exact updEnt_eq_movedEntries (h.linked.counted _ pg hp).nodup howner hpe hent₄ hpe₄

/-- `unshare_page` for a page with snapshots.  Only a stale count lets the sole
snapshot stay flagged as one. -/
theorem unsharePage (h : Consistent stale canon [] held s) {as vaddr : ℕ} {pe : PageEntry}
    (hpe : s.entry as vaddr = some pe) (hp : s.physPages pe.p = some pg) (h0 : pg.snapCount ≠ 0)
    (hsole : pg.snapCount = 1 → pg.refCount = 1 → stale) :
    Safely Halts (fun s' => Consistent stale canon [] held s' ∧
      (s'.entry = s.entry ∧ s'.mem = s.mem ∨ Copied as vaddr pe pg s s')) (unsharePage s as vaddr) := by
  rw [Mm.unsharePage, getEntry_eq hpe, ok_bind]
  split
  · simp
  rename_i hcur
  rw [not_not] at hcur
  dsimp only
  split
  · simp
  rename_i hhw
  have hp' : (disableInterrupts s).physPages pe.p = some pg := hp
  rw [getPageRec_eq hp', ok_bind, if_neg h0]
  split
  · rename_i honly
    refine safely_enable ⟨⟨?_, fun hcan => ?_⟩, .inl ⟨rfl, rfl⟩⟩
    · exact h.linked.soleStale (hsole (honly.1.trans honly.2) honly.2) hp (honly.1.trans honly.2)
        honly.2
    · have hm := ((h.mapped hcan).setPage (p := pe.p) (q := { pg with snapCount := 0 })
        fun _ _ _ _ _ _ _ _ _ => rfl).openHole (as, vaddr)
      have hm' := hm.unmap
      rw [hcur] at hm'
      exact hm'
  · have hoff : Consistent stale canon [] held (disableInterrupts s) := ⟨h.linked, h.mapped⟩
    exact (hoff.unshareCopy hpe hcur (by simpa using hhw) hp).mono fun s' h' => ⟨h'.1, .inr h'.2⟩

/-! ## Mappings -/

/-- The sole snapshot of a page is made an ordinary entry. -/
def Promoted (as vaddr : ℕ) (s s' : State) : Prop :=
  ∃ pe pg, s.entry as vaddr = some pe ∧ s.physPages pe.p = some pg ∧ pg.refCount = 1 ∧
    s'.entry = updEnt s.entry as vaddr (some { pe with flags := PF_SHARED })

theorem mapPage (h : Consistent stale canon hole held s) {v : ℕ} {e : PageEntry} {w : Bool}
    (hpe : s.entry s.current v = some e) (hp : s.physPages e.p = some pg)
    (hw : w = true → pg.snapCount = 0) :
    Safely Halts (Consistent stale canon hole held) (mapPage s e.p v 0 w) := by
  rw [Mm.mapPage, if_pos rfl]
  split
  · simp
  · exact ⟨h.linked, fun hcan => (h.mapped hcan).map hpe hp hw⟩

theorem addressSpaceMap (h : Consistent stale canon [] held s) {vaddr : ℕ}
    (hsize : ∀ sp vma, s.spaces s.current = some sp → vmaFindByVaddr vaddr sp.vma = some vma →
      vma.pageSize = 0) (hlive : ∃ sp, s.spaces s.current = some sp) :
    Safely Halts (fun r => Consistent stale canon [] held r.2 ∧ r.2.mem = s.mem ∧
      (r.2.entry = s.entry ∨ Promoted s.current vaddr s r.2)) (addressSpaceMap s vaddr) := by
  obtain ⟨sp, hsp⟩ := hlive
  unfold Mm.addressSpaceMap
  split
  · exact ⟨h, rfl, .inl rfl⟩
  rw [getSpace_eq hsp, ok_bind]
  split
  · exact ⟨h, rfl, .inl rfl⟩
  rename_i cvma hfind
  have hzero := hsize sp cvma hsp hfind
  split
  · exact ⟨h, rfl, .inl rfl⟩
  rename_i pe hpe
  obtain ⟨pg, hp⟩ := h.page_of_entry hpe List.not_mem_nil
  rw [getPageRec_eq hp, ok_bind, hzero]
  split
  · rename_i hsole
    split
    · obtain ⟨s₁, hs₁⟩ : ∃ s₁, s₁ = (s.setPage pe.p (some { pg with snapCount := 0 })).setEntry
          s.current vaddr { pe with flags := PF_SHARED } := ⟨_, rfl⟩
      have hent₁ : s₁.entry = updEnt s.entry s.current vaddr (some { pe with flags := PF_SHARED }) := by
        rw [hs₁]
        exact entry_setEntry (s := s.setPage pe.p _) hsp vaddr _
      have hphys₁ : s₁.physPages =
          Function.update s.physPages pe.p (some { pg with snapCount := 0 }) := by
        rw [hs₁, physPages_setEntry]
        rfl
      have hcur₁ : s₁.current = s.current := by
        rw [hs₁]
        exact (Retag.setEntry (s.setPage pe.p _) _ _ _).current
      have hmem₁ : s₁.mem = s.mem := by
        rw [hs₁, mem_setEntry]
        rfl
      have h₁ : Consistent stale canon [] held s₁ := by
        refine ⟨?_, fun hcan => ?_⟩
        · rw [hphys₁, hent₁, hs₁, freePages_setEntry]
          exact h.linked.sole hpe List.not_mem_nil hp hsole.2
        · rw [hphys₁, hent₁, hs₁, pte_setEntry]
          exact ((h.mapped hcan).setPage fun _ _ _ _ _ _ _ _ _ => rfl).setFlags hpe PF_SHARED
      simp only [safely_bind]
      change Safely Halts _ (Mm.mapPage ((s.setPage pe.p _).setEntry s.current vaddr _) _ _ _ _)
      rw [← hs₁]
      have hmap := h₁.mapPage (v := vaddr) (e := { pe with flags := PF_SHARED })
        (w := hasFlag cvma.vmaFlags VMA_RW) (by rw [hcur₁, hent₁, updEnt_self])
        (by rw [hphys₁]; exact Function.update_self ..) fun _ => rfl
      refine (hmap.and (quiet_mapPage _ _ _ _ _)).mono ?_
      rintro s₂ ⟨h₂, hq₂⟩
      refine ⟨h₂, hq₂.mem.trans hmem₁, .inr ⟨pe, pg, hpe, hp, hsole.2, ?_⟩⟩
      rw [hq₂.entry, hent₁]
    · simp
  · simp only [safely_bind]
    have hmap := h.mapPage (v := vaddr) (w := hasFlag cvma.vmaFlags VMA_RW && decide (pg.snapCount = 0))
      hpe hp (by simp)
    refine (hmap.and (quiet_mapPage _ _ _ _ _)).mono ?_
    rintro s₂ ⟨h₂, hq₂⟩
    exact ⟨h₂, hq₂.mem, .inl hq₂.entry⟩

end Consistent

end SadOS.Mm
