import SadOS.Mm.Sound

/-!
# Page lists keep the accounts

A node of a page list in flight holds a reference to its page, and a snapshot of it
where the node says so.  `map_from_user` takes these references, and
`page_list_free` gives them back; `map_to_user` gives the receiver entries of its
own.

## Main definitions

* `State.nodes` — the references that page lists hold.
* `Settled` — the invariant with these and with the pages the kernel keeps.
* `TakesReadOnly` — a page that may be taken as a snapshot as it is.
* `Settled.mapFromUser`, `Settled.mapNodes`, `Settled.pageListFree` — the operations.
* `Settled.copyToUserSimple` — small copies.
-/

namespace SadOS.Mm

/-- The reference that a node holds. -/
def PageList.held (pl : PageList) : List (ℕ × Kind) :=
  match pl.p with
  | some p => [(p, if pl.flags = PF_SNAPSHOT then .snap else .shared)]
  | none => []

/-- The references that the nodes of a page list hold. -/
def heldBy (ph : List PageList) : List (ℕ × Kind) := ph.flatMap PageList.held

@[simp] theorem heldBy_nil : heldBy [] = [] := rfl

@[simp] theorem heldBy_cons (pl : PageList) (ph : List PageList) :
    heldBy (pl :: ph) = pl.held ++ heldBy ph := List.flatMap_cons

@[simp] theorem heldBy_append (ph ph' : List PageList) :
    heldBy (ph ++ ph') = heldBy ph ++ heldBy ph' := List.flatMap_append

/-- The references that all page lists hold. -/
def State.nodes (s : State) : List (ℕ × Kind) := s.plists.flatMap fun x => heldBy x.2.ph

/-! ## Nodes -/

/-- Only the accounts of pages change, and no page loses all its snapshots. -/
structure Raised (s s' : State) : Prop where
  entry : s'.entry = s.entry
  current : s'.current = s.current
  pte : s'.pte = s.pte
  pages : ∀ p pg, s.physPages p = some pg →
    ∃ pg', s'.physPages p = some pg' ∧ (pg'.snapCount = 0 → pg.snapCount = 0)

namespace Raised

variable {s s' s'' : State}

theorem refl (s : State) : Raised s s := ⟨rfl, rfl, rfl, fun _ pg hp => ⟨pg, hp, id⟩⟩

theorem trans (h : Raised s s') (h' : Raised s' s'') : Raised s s'' := by
  refine ⟨h'.entry.trans h.entry, h'.current.trans h.current, h'.pte.trans h.pte, ?_⟩
  intro p pg hp
  obtain ⟨pg', hp', h0⟩ := h.pages p pg hp
  obtain ⟨pg'', hp'', h0'⟩ := h'.pages p pg' hp'
  exact ⟨pg'', hp'', fun hz => h0 (h0' hz)⟩

end Raised

/-- A page that `map_from_user` may take as a snapshot as it is: it has snapshots, or
nobody may write to it. -/
def TakesReadOnly (s : State) (p : ℕ) : Prop :=
  ∀ pg, s.physPages p = some pg → pg.snapCount = 0 →
    ∀ a n e, s.pte a n = some e → e.addr = p → e.writable = false

theorem TakesReadOnly.raised {s s' : State} {p : ℕ} {pg : Page} (h : TakesReadOnly s p)
    (hp : s.physPages p = some pg) (hr : Raised s s') : TakesReadOnly s' p := by
  intro pg' hp' h0 a n e he hep
  obtain ⟨pg'', hp'', hz⟩ := hr.pages p pg hp
  rw [hp', Option.some.injEq] at hp''
  subst hp''
  rw [hr.pte] at he
  exact h pg hp (hz h0) a n e he hep

/-- The record of a page changes while nobody may write to the page. -/
theorem Mapped.setPage_readOnly {hole : List (ℕ × ℕ)} {phys : ℕ → Option Page}
    {ent : ℕ → ℕ → Option PageEntry} {pte : ℕ → ℕ → Option Pte} {p : ℕ} {pg' : Page}
    (h : Mapped hole phys ent pte)
    (hro : ∀ a n e, pte a n = some e → e.addr = p → e.writable = false) :
    Mapped hole (Function.update phys p (some pg')) ent pte := by
  refine ⟨?_, h.canon⟩
  intro a n e he hn
  obtain ⟨v, pe, pg, hpe, hslot, haddr, hpg, hw⟩ := h.entry a n e he hn
  by_cases hpp : pe.p = p
  · refine ⟨v, pe, pg', hpe, hslot, haddr, by rw [hpp, Function.update_self], ?_⟩
    rw [hro a n e he (haddr.trans hpp)]
    simp
  · exact ⟨v, pe, pg, hpe, hslot, haddr, by rw [Function.update_of_ne hpp, hpg], hw⟩

namespace Sound

variable {stale canon : Prop} {held : List (ℕ × Kind)} {s s' : State} {p : ℕ} {pg : Page}

theorem getPage (h : Sound stale canon held s) :
    Safely Halts (fun r => Sound stale canon held r.2 ∧ Quiet s r.2 ∧ s.physPages r.1 = none ∧
      r.1 ∉ r.2.freePages ∧ r.2.physPages = s.physPages ∧ r.2.pte = s.pte) (getPage s) := by
  refine (h.toConsistent.getPage.and (quiet_getPage s)).mono ?_
  rintro r ⟨⟨h', hnone, hnot, hphys, hpte⟩, hq⟩
  exact ⟨⟨h', h.toTidy.quiet hq, h.spent⟩, hq, hnone, hnot, hphys, hpte⟩

theorem managePhysPage (h : Sound stale canon held s) (hp : s.physPages p = none)
    (hf : p ∉ s.freePages) :
    Safely Halts (fun s' => Sound stale canon ((p, .shared) :: held) s' ∧ Quiet s s' ∧
      s'.physPages = Function.update s.physPages p (some ⟨1, 0, []⟩) ∧ s'.pte = s.pte)
      (managePhysPage s p) := by
  refine ((h.toConsistent.managePhysPage hp hf).and (quiet_managePhysPage s p)).mono ?_
  rintro s' ⟨⟨h', hphys, hpte⟩, hq⟩
  refine ⟨⟨h', h.toTidy.quiet hq, ?_⟩, hq, hphys, hpte⟩
  intro i hi
  rcases List.mem_cons.1 hi with rfl | hi
  · simp
  · exact h.spent i hi

theorem pageUnref {k : Kind} (h : Consistent stale canon [] ((p, k) :: held) s)
    (ht : Tidy canon (fun _ => []) s) (hspent : ∀ i ∈ held, i.2 ≠ .spent) (hk : k ≠ .snap)
    (hw : Bool) : Safely Halts (fun s' => Sound stale canon held s' ∧ Quiet s s') (pageUnref s p hw) := by
  refine ((h.pageUnref hk hw).and (quiet_pageUnref s p hw)).mono ?_
  rintro s' ⟨h', hq⟩
  exact ⟨⟨h', ht.quiet hq, hspent⟩, hq⟩

/-- A fresh page with a copy. -/
theorem copyPage (h : Sound stale canon held s) (vaddr lo hi : ℕ) :
    Safely Halts (fun r => Sound stale canon (r.1.held ++ held) r.2 ∧ Frame s r.2 ∧ Raised s r.2)
      (copyPage s vaddr lo hi) := by
  simp only [Mm.copyPage, safely_bind]
  refine h.getPage.mono ?_
  rintro ⟨page, s₁⟩ ⟨h₁, hq₁, hnone, hnot, hphys₁, hpte₁⟩
  dsimp only at h₁ hq₁ hnone hnot hphys₁ hpte₁ ⊢
  have hset : Sound stale canon held ((s₁.setMem page fun _ => 0).setMem page
      ((s₁.setMem page fun _ => 0).copyBytes vaddr lo hi)) := (h₁.setMem page _).setMem page _
  refine (hset.managePhysPage (by rw [← hphys₁] at hnone; exact hnone) hnot).mono ?_
  rintro s₃ ⟨h₃, hq₃, hphys₃, hpte₃⟩
  simp only [safely_pure]
  refine ⟨h₃, hq₁.frame.trans ((Frame.setMem s₁ page _).trans
    ((Frame.setMem _ page _).trans hq₃.frame)), ?_⟩
  refine ⟨hq₃.entry.trans hq₁.entry, hq₃.current.trans hq₁.current, hpte₃.trans hpte₁, ?_⟩
  intro q pg hq
  have hne : q ≠ page := by
    rintro rfl
    rw [hnone] at hq
    cases hq
  refine ⟨pg, ?_, id⟩
  rw [hphys₃, Function.update_of_ne hne]
  exact (congrFun hphys₁ q).trans hq

/-- One whole page. -/
theorem snapPage {acc : List PageList × State} (h : Sound stale canon (heldBy acc.1 ++ held) acc.2)
    {vaddr : ℕ} (hro : canon → ∀ pe, acc.2.entry acc.2.current vaddr = some pe →
      TakesReadOnly acc.2 pe.p) :
    Safely Halts (fun r => Sound stale canon (heldBy r.1 ++ held) r.2 ∧ Frame acc.2 r.2 ∧
      Raised acc.2 r.2) (snapPage acc vaddr) := by
  obtain ⟨nodes, s⟩ := acc
  dsimp only at h hro ⊢
  unfold Mm.snapPage
  dsimp only
  split
  · rename_i pe hpe
    obtain ⟨pg, hp⟩ := h.page_of_entry hpe List.not_mem_nil
    rw [getPageRec_eq hp, ok_bind]
    have hq := Quiet.setPage s pe.p
      (some { pg with refCount := pg.refCount + 1, snapCount := pg.snapCount + 1 })
    have hc : Consistent stale canon [] ((pe.p, .snap) :: (heldBy nodes ++ held))
        (s.setPage pe.p (some { pg with refCount := pg.refCount + 1, snapCount := pg.snapCount + 1 })) := by
      refine ⟨h.linked.refSnap hp (h.count_spent pe.p), fun hcan => ?_⟩
      by_cases h0 : pg.snapCount = 0
      · exact (h.mapped hcan).setPage_readOnly (hro hcan pe hpe pg hp h0)
      · refine (h.mapped hcan).setPage fun _ _ _ pg' _ _ _ hp' hz => ?_
        rw [hp, Option.some.injEq] at hp'
        subst hp'
        exact absurd hz h0
    have hheld : heldBy (nodes ++ [⟨some pe.p, PF_SNAPSHOT⟩]) ++ held =
        heldBy nodes ++ (pe.p, .snap) :: held := by
      simp [PageList.held]
    refine ⟨⟨?_, h.toTidy.quiet hq, ?_⟩, hq.frame, ?_⟩
    · dsimp only
      rw [hheld]
      exact hc.perm List.perm_middle.symm
    · dsimp only
      rw [hheld]
      intro i hi
      rcases List.mem_append.1 hi with hi | hi
      · exact h.spent i (List.mem_append_left _ hi)
      · rcases List.mem_cons.1 hi with rfl | hi
        · simp
        · exact h.spent i (List.mem_append_right _ hi)
    · refine ⟨rfl, rfl, rfl, fun q qg hqg => ?_⟩
      by_cases hqp : q = pe.p
      · subst hqp
        exact ⟨_, Function.update_self .., by simp⟩
      · exact ⟨qg, (Function.update_of_ne hqp ..).trans hqg, id⟩
  · refine ⟨?_, Frame.refl s, Raised.refl s⟩
    simpa [PageList.held] using h

/-- All whole pages. -/
theorem snapPages {nodes : List PageList} (h : Sound stale canon (heldBy nodes ++ held) s)
    {l : List ℕ} (hro : canon → ∀ vaddr ∈ l, ∀ pe, s.entry s.current vaddr = some pe →
      TakesReadOnly s pe.p) :
    Safely Halts (fun r => Sound stale canon (heldBy r.1 ++ held) r.2 ∧ Frame s r.2 ∧ Raised s r.2)
      (l.foldlM Mm.snapPage (nodes, s)) := by
  refine Safely.mono (safely_foldlM (fun rest acc => Sound stale canon (heldBy acc.1 ++ held) acc.2 ∧
    Frame s acc.2 ∧ Raised s acc.2 ∧ rest ⊆ l) ?_ ?_) fun r hr => ⟨hr.1, hr.2.1, hr.2.2.1⟩
  · exact ⟨h, Frame.refl s, Raised.refl s, List.Subset.refl l⟩
  · rintro vaddr rest acc ⟨h₁, hf₁, hr₁, hsub⟩
    rw [List.cons_subset] at hsub
    refine (h₁.snapPage fun hcan pe hpe => ?_).mono ?_
    · rw [hr₁.entry, hr₁.current] at hpe
      obtain ⟨pg, hp⟩ := h.page_of_entry hpe List.not_mem_nil
      exact (hro hcan vaddr hsub.1 pe hpe).raised hp hr₁
    · rintro acc' ⟨h₂, hf₂, hr₂⟩
      exact ⟨h₂, hf₁.trans hf₂, hr₁.trans hr₂, hsub.2⟩

end Sound

/-- The pages that `map_from_user` takes whole. -/
def wholePages (buf len : ℕ) : List ℕ :=
  pageSteps (wadd (pageAlign buf) 4096) (pageAlign (wadd buf len))

/-- The invariant with the page lists in flight and the pages that the kernel keeps. -/
structure Settled (stale canon : Prop) (kept : List ℕ) (s : State) : Prop where
  sound : Sound stale canon (s.nodes ++ kept.map fun p => (p, .shared)) s
  plist_nodup : (s.plists.map (·.1)).Nodup
  plist_lt : ∀ x ∈ s.plists, x.1 < s.plistPool
  zero : s.zeroPage ∈ kept

namespace Settled

variable {stale canon : Prop} {kept : List ℕ} {s s' : State}

/-- The page lists in flight stay. -/
theorem frame (h : Settled stale canon kept s) (hf : Frame s s')
    (hs : Sound stale canon (s.nodes ++ kept.map fun p => (p, .shared)) s') :
    Settled stale canon kept s' := by
  have hnodes : s'.nodes = s.nodes := by simp only [State.nodes, hf.plists]
  refine ⟨by rw [hnodes]; exact hs, ?_, ?_, ?_⟩
  · rw [hf.plists]
    exact h.plist_nodup
  · rw [hf.plists, hf.plistPool]
    exact h.plist_lt
  · rw [hf.zeroPage]
    exact h.zero

theorem zero_held (h : Settled stale canon kept s) :
    (s.zeroPage, Kind.shared) ∈ s.nodes ++ kept.map fun p => (p, .shared) :=
  List.mem_append_right _ (List.mem_map_of_mem h.zero)

theorem enable (h : Settled stale canon kept s) :
    Safely Halts (Settled stale canon kept) (enableInterrupts s) :=
  safely_enable ⟨⟨⟨h.sound.linked, h.sound.mapped⟩, ⟨h.sound.hung, h.sound.bounds, h.sound.fresh⟩,
    h.sound.spent⟩, h.plist_nodup, h.plist_lt, h.zero⟩

theorem disable (h : Settled stale canon kept s) : Settled stale canon kept (disableInterrupts s) :=
  ⟨h.sound.disable, h.plist_nodup, h.plist_lt, h.zero⟩

/-! ## From the sender -/

/-- A finished page list takes over what its nodes hold. -/
theorem addPlist (h : Settled stale canon kept s) (hf : Frame s s') {ph : List PageList}
    (hs : Sound stale canon (heldBy ph ++ (s.nodes ++ kept.map fun p => (p, .shared))) s') (off : ℕ) :
    Settled stale canon kept (s'.addPlist off ph).2 := by
  have hnodes : (s'.addPlist off ph).2.nodes = heldBy ph ++ s.nodes := by
    simp [State.nodes, State.addPlist, hf.plists]
  refine ⟨?_, ?_, ?_, ?_⟩
  · rw [hnodes, List.append_assoc]
    exact ⟨⟨hs.linked, hs.mapped⟩, ⟨hs.hung, hs.bounds, hs.fresh⟩, hs.spent⟩
  · simp only [State.addPlist, List.map_cons, List.nodup_cons, hf.plists]
    refine ⟨fun hmem => ?_, h.plist_nodup⟩
    obtain ⟨x, hx, hid⟩ := List.mem_map.1 hmem
    have := h.plist_lt x hx
    rw [hid, hf.plistPool] at this
    omega
  · intro x hx
    simp only [State.addPlist, List.mem_cons, hf.plists, hf.plistPool] at hx ⊢
    rcases hx with rfl | hx
    · simp
    · have := h.plist_lt x hx
      omega
  · change s'.zeroPage ∈ kept
    rw [hf.zeroPage]
    exact h.zero

theorem mapFromUser (h : Settled stale canon kept s) {buf len : ℕ}
    (hlive : ∃ sp, s.spaces s.current = some sp)
    (hro : canon → ∀ vaddr ∈ wholePages buf len, ∀ pe, s.entry s.current vaddr = some pe →
      TakesReadOnly s pe.p) :
    Safely Halts (fun r => Settled stale canon kept r.2) (mapFromUser s buf len) := by
  obtain ⟨sp, hsp⟩ := hlive
  have hsp' : (disableInterrupts s).spaces (disableInterrupts s).current = some sp := hsp
  have hoff := h.disable
  unfold Mm.mapFromUser
  dsimp only
  rw [validateRange, getSpace_eq hsp', ok_bind, pure_eq_ok, ok_bind]
  split
  · simp only [safely_bind]
    exact hoff.enable
  simp only [safely_bind]
  -- the first page, where the buffer starts inside it
  refine Safely.mono (Q := fun r => Sound stale canon
      (heldBy r.1 ++ (s.nodes ++ kept.map fun p => (p, .shared))) r.2 ∧
        Frame (disableInterrupts s) r.2 ∧ Raised (disableInterrupts s) r.2) ?_ ?_
  · split
    · simp only [safely_bind]
      refine (hoff.sound.copyPage _ _ _).mono ?_
      rintro ⟨pl, s₁⟩ ⟨h₁, hf₁, hr₁⟩
      refine ⟨?_, hf₁, hr₁⟩
      rw [heldBy_cons, heldBy_nil, List.append_nil]
      exact h₁
    · exact ⟨hoff.sound, Frame.refl _, Raised.refl _⟩
  rintro ⟨first, s₁⟩ ⟨h₁, hf₁, hr₁⟩
  dsimp only at h₁ hf₁ hr₁ ⊢
  split
  · simp only [safely_bind]
    exact (hoff.addPlist hf₁ h₁ _).enable
  simp only [safely_bind]
  -- the whole pages
  refine (h₁.snapPages (l := wholePages buf len) fun hcan vaddr hv pe hpe => ?_).mono ?_
  · rw [hr₁.entry, hr₁.current] at hpe
    obtain ⟨pg, hp⟩ := h.sound.page_of_entry hpe List.not_mem_nil
    exact (hro hcan vaddr hv pe hpe).raised hp ⟨hr₁.entry, hr₁.current, hr₁.pte, hr₁.pages⟩
  rintro ⟨middle, s₂⟩ ⟨h₂, hf₂, -⟩
  dsimp only at h₂ hf₂ ⊢
  -- the last page, where the buffer ends inside it
  refine Safely.mono (Q := fun r => Sound stale canon
      (heldBy r.1 ++ (s.nodes ++ kept.map fun p => (p, .shared))) r.2 ∧ Frame s₂ r.2) ?_ ?_
  · split
    · simp only [safely_bind]
      refine (h₂.copyPage _ _ _).mono ?_
      rintro ⟨pl, s₃⟩ ⟨h₃, hf₃, -⟩
      refine ⟨h₃.perm ?_, hf₃⟩
      simp only [heldBy_append, heldBy_cons, heldBy_nil, List.append_nil]
      rw [← List.append_assoc]
      exact List.perm_append_comm.append_right _
    · exact ⟨h₂, Frame.refl s₂⟩
  rintro ⟨all, s₃⟩ ⟨h₃, hf₃⟩
  exact (hoff.addPlist ((hf₁.trans hf₂).trans hf₃) h₃ _).enable

/-! ## To the receiver -/

/-- The nodes of a page list get entries in the receiver. -/
theorem mapNodes (h : Settled stale canon kept s) {as : ℕ} {vma : VmArea} (hvma : HasVma s as vma)
    {ph : List PageList} (hph : ∀ i ∈ heldBy ph, i ∈ s.nodes) (vaddr : ℕ) :
    Safely Halts (Settled stale canon kept) (mapNodes as vma ph vaddr s) := by
  induction ph generalizing vaddr s with
  | nil => exact h
  | cons pl rest ih =>
    have hrest : ∀ i ∈ heldBy rest, i ∈ s.nodes := fun i hi => hph i (by simp [hi])
    simp only [Mm.mapNodes, safely_bind]
    split
    · rename_i p hp
      simp only [safely_bind]
      have hnode : ∃ k, (p, k) ∈ s.nodes ++ kept.map fun p => (p, Kind.shared) := by
        refine ⟨_, List.mem_append_left _ (hph (p, if pl.flags = PF_SNAPSHOT then .snap else .shared) ?_)⟩
        simp [PageList.held, hp]
      refine ((h.sound.assignPageWithVma hvma validFlags_snapshot (.inl hnode)
        (by simp [hasFlag, PF_SNAPSHOT])).and (frame_assignPageWithVma s as vma p vaddr _)).mono ?_
      rintro ⟨ret, s₁⟩ ⟨⟨h₁, -⟩, hf₁⟩
      refine ih (h.frame hf₁ h₁) (hvma.frame hf₁) ?_ _
      have hnodes : s₁.nodes = s.nodes := by
        rw [State.nodes, hf₁.plists, State.nodes]
      rw [hnodes]
      exact hrest
    · exact ih h hvma hrest _

/-! ## The end of a page list -/

/-- A node gives its reference back. -/
theorem freeNode {held : List (ℕ × Kind)} {pl : PageList}
    (h : Sound stale canon (pl.held ++ held) s) :
    Safely Halts (fun s' => Sound stale canon held s' ∧ Quiet s s') (freeNode s pl) := by
  unfold Mm.freeNode
  split
  · simp
  rename_i p hp
  simp only [PageList.held, hp, List.singleton_append] at h
  have hspent : ∀ i ∈ held, i.2 ≠ .spent := fun i hi => h.spent i (List.mem_cons_of_mem _ hi)
  simp only [safely_bind]
  split
  · rename_i hsnap
    rw [if_pos hsnap] at h
    obtain ⟨pg, hpg⟩ := h.linked.held_live (p, .snap) List.mem_cons_self
    rw [getPageRec_eq hpg, ok_bind]
    have hq := Quiet.setPage s p (some { pg with snapCount := wdec pg.snapCount })
    have hc : Consistent stale canon [] ((p, .spent) :: held)
        (s.setPage p (some { pg with snapCount := wdec pg.snapCount })) := by
      refine ⟨h.linked.drop hpg, fun hcan => (h.mapped hcan).setPage ?_⟩
      intro a v pe pg' hpe hav hpp hp' hz
      rw [hpg, Option.some.injEq] at hp'
      subst hp'
      have hmem := h.linked.mem_owner hpe hav (hpp ▸ hpg)
      rw [h.linked.owner_eq_nil hpg hz] at hmem
      cases hmem
    refine (Sound.pageUnref hc (h.toTidy.quiet hq) hspent (by decide) false).mono ?_
    rintro s' ⟨h', hq'⟩
    exact ⟨h', hq.trans hq'⟩
  · rename_i hsnap
    rw [if_neg hsnap] at h
    exact Sound.pageUnref h.toConsistent h.toTidy hspent (by decide) false

theorem freeNodes {held : List (ℕ × Kind)} {ph : List PageList}
    (h : Sound stale canon (heldBy ph ++ held) s) :
    Safely Halts (fun s' => Sound stale canon held s' ∧ Quiet s s') (ph.foldlM Mm.freeNode s) := by
  refine Safely.mono (safely_foldlM (fun rest s' =>
    Sound stale canon (heldBy rest ++ held) s' ∧ Quiet s s') ⟨h, Quiet.refl s⟩ ?_) fun s' h' => h'
  rintro pl rest s₁ ⟨h₁, hq₁⟩
  rw [heldBy_cons, List.append_assoc] at h₁
  refine (freeNode h₁).mono ?_
  rintro s₂ ⟨h₂, hq₂⟩
  exact ⟨h₂, hq₁.trans hq₂⟩

end Settled

/-- The page lists without the one with the address `id`. -/
theorem nodes_perm {l : List (ℕ × PageListHead)} {id : ℕ} {plh : PageListHead}
    (hnodup : (l.map (·.1)).Nodup) (h : l.lookup id = some plh) :
    (l.flatMap fun x => heldBy x.2.ph).Perm
      (heldBy plh.ph ++ (l.filter fun x => x.1 != id).flatMap fun x => heldBy x.2.ph) := by
  induction l with
  | nil => cases h
  | cons x rest ih =>
    obtain ⟨i, q⟩ := x
    obtain ⟨hnot, hnodup'⟩ := List.nodup_cons.1 hnodup
    by_cases hi : id = i
    · subst hi
      rw [List.lookup_cons_self, Option.some.injEq] at h
      subst h
      have hrest : rest.filter (fun x => x.1 != id) = rest := by
        rw [List.filter_eq_self]
        intro x hx
        rw [bne_iff_ne]
        intro heq
        exact hnot (List.mem_map.2 ⟨x, hx, heq⟩)
      simp [hrest]
    · rw [List.lookup_cons, beq_false_of_ne hi] at h
      have hne : (i != id) = true := by simpa using Ne.symm hi
      rw [List.filter_cons_of_pos (by simpa using hne), List.flatMap_cons, List.flatMap_cons]
      refine ((ih hnodup' h).append_left _).trans ?_
      rw [← List.append_assoc, ← List.append_assoc]
      exact List.perm_append_comm.append_right _

namespace Settled

variable {stale canon : Prop} {kept : List ℕ} {s s' : State}

theorem pageListFree (h : Settled stale canon kept s) {id : ℕ} {plh : PageListHead}
    (hid : s.plists.lookup id = some plh) :
    Safely Halts (Settled stale canon kept) (pageListFree s id) := by
  rw [Mm.pageListFree, State.getPlist, hid, ok_bind]
  have hperm := nodes_perm h.plist_nodup hid
  have h' : Sound stale canon (heldBy plh.ph ++ ((s.plists.filter fun x => x.1 != id).flatMap
      (fun x => heldBy x.2.ph) ++ kept.map fun p => (p, .shared)))
      { s with plists := s.plists.filter fun x => x.1 != id } := by
    have hs := h.sound.perm (hperm.append_right _)
    rw [List.append_assoc] at hs
    exact ⟨⟨hs.linked, hs.mapped⟩, ⟨hs.hung, hs.bounds, hs.fresh⟩, hs.spent⟩
  refine (freeNodes h').mono ?_
  rintro s' ⟨hs', hq⟩
  refine ⟨?_, ?_, ?_, ?_⟩
  · have hnodes : s'.nodes = (s.plists.filter fun x => x.1 != id).flatMap fun x => heldBy x.2.ph := by
      simp only [State.nodes, hq.plists]
    rw [hnodes]
    exact hs'
  · rw [hq.plists]
    exact h.plist_nodup.sublist (List.filter_sublist.map _)
  · rw [hq.plists, hq.plistPool]
    exact fun x hx => h.plist_lt x (List.mem_of_mem_filter hx)
  · rw [hq.zeroPage]
    exact h.zero

end Settled

/-! ## Small copies -/

/-- Two states of the same shape have VMAs at the same addresses. -/
theorem vmaFind_isSome {s s' : State} (hf : Frame s s') {a v : ℕ} {sp sp' : AddressSpace}
    (hsp : s.spaces a = some sp) (hsp' : s'.spaces a = some sp')
    (h : ∃ vma, vmaFindByVaddr v sp.vma = some vma) : ∃ vma, vmaFindByVaddr v sp'.vma = some vma := by
  obtain ⟨sp₂, hsp₂, hshape⟩ := hf.space hsp
  rw [hsp', Option.some.injEq] at hsp₂
  subst hsp₂
  simp only [AddressSpace.shape, Prod.mk.injEq] at hshape
  obtain ⟨vma, hvma⟩ := h
  have hsame := vmaFindByVaddr_of_shape v hshape.1
  rw [hvma, Option.map_some] at hsame
  obtain ⟨vma', hvma', -⟩ := Option.map_eq_some_iff.1 hsame
  exact ⟨vma', hvma'⟩

/-- What `copy_to_user_simple` needs of a user page that it writes to: it has an entry,
whose page it may unshare, or it lies in a VMA. -/
structure WriteOk (stale : Prop) (s : State) (page : ℕ) : Prop where
  sole : ∀ pe pg, s.entry s.current page = some pe → s.physPages pe.p = some pg →
    pg.snapCount = 1 → pg.refCount = 1 → stale
  inVma : s.entry s.current page = none → isAligned page = true ∧
    ∃ sp vma, s.spaces s.current = some sp ∧ vmaFindByVaddr page sp.vma = some vma

/-- What `copy_to_user_simple` does to the entries when it makes a user page its own. -/
inductive Owned (s s' : State) (aaddr : ℕ) : Prop
  | same (h : s'.entry = s.entry)
  | fresh (page : ℕ) (hdead : s.physPages page = none) (hnone : s.entry s.current aaddr = none)
      (h : s'.entry = updEnt s.entry s.current aaddr (some ⟨page, PF_SHARED⟩))
  | moved (page : ℕ) (pe : PageEntry) (pg : Page) (hdead : s.physPages page = none)
      (hpe : s.entry s.current aaddr = some pe) (hp : s.physPages pe.p = some pg)
      (hhw : hasFlag pe.flags PF_HARDWARE = false)
      (h : s'.entry = Consistent.movedEntries s.current aaddr page pe pg s.entry)

/-- Page contents do not matter. -/
theorem Owned.setMem {s s' : State} {aaddr : ℕ} (h : Owned s s' aaddr) (p : ℕ)
    (bytes : ℕ → UInt8) : Owned s (s'.setMem p bytes) aaddr := by
  cases h with
  | same h => exact .same h
  | fresh page hdead hnone h => exact .fresh page hdead hnone h
  | moved page pe pg hdead hpe hp hhw h => exact .moved page pe pg hdead hpe hp hhw h

namespace Settled

variable {stale canon : Prop} {kept : List ℕ} {s s' : State}

theorem userPage (h : Settled stale canon kept s) {aaddr : ℕ} (hok : WriteOk stale s aaddr) :
    Safely Halts (fun r => Settled stale canon kept r.2 ∧ Frame s r.2 ∧ Owned s r.2 aaddr ∧
      ∃ pg, r.2.physPages r.1 = some pg) (userPage s aaddr) := by
  unfold Mm.userPage
  split
  · rename_i hnone
    obtain ⟨hal, sp, vma, hsp, hvma⟩ := hok.inVma hnone
    simp only [safely_bind]
    refine h.sound.getPage.mono ?_
    rintro ⟨page, s₁⟩ ⟨h₁, hq₁, hdead, hnot, hphys₁, -⟩
    dsimp only at h₁ hq₁ hdead hnot hphys₁ ⊢
    refine ((h₁.setMem page fun _ => 0).managePhysPage
      (by rw [← hphys₁] at hdead; exact hdead) hnot).mono ?_
    rintro s₂ ⟨h₂, hq₂, -⟩
    have hf₂ : Frame s s₂ := hq₁.frame.trans ((Frame.setMem s₁ page _).trans hq₂.frame)
    obtain ⟨sp₂, hsp₂, -⟩ := hf₂.space hsp
    rw [← hf₂.current] at hsp₂
    refine ((h₂.assignPage ⟨sp₂, hsp₂⟩ validFlags_shared (.inl ⟨.shared, List.mem_cons_self⟩)
      fun _ => List.mem_cons_self).and (frame_assignPage s₂ _ page aaddr _)).mono ?_
    rintro ⟨ret, s₃⟩ ⟨⟨h₃, heff⟩, hf₃⟩
    dsimp only at h₃ heff hf₃ ⊢
    have hent₃ : s₃.entry = updEnt s.entry s.current aaddr (some ⟨page, PF_SHARED⟩) := by
      have hent₂ : s₂.entry = s.entry := hq₂.entry.trans hq₁.entry
      rcases heff with ⟨-, hal' | hnone'⟩ | ⟨id, s', hclear, hnew⟩
      · rw [hal] at hal'
        cases hal'
      · obtain ⟨vma', hvma'⟩ := vmaFind_isSome hf₂ hsp (by rw [← hf₂.current]; exact hsp₂) ⟨vma, hvma⟩
        rw [hnone' sp₂ hsp₂] at hvma'
        cases hvma'
      · rw [hnew.entry, hclear.entry, hent₂, hf₂.current, updEnt, updEnt, updEnt]
        simp
    have hspent : ∀ i ∈ s.nodes ++ kept.map fun p => (p, Kind.shared), i.2 ≠ Kind.spent := h.sound.spent
    refine (Sound.pageUnref h₃.toConsistent h₃.toTidy hspent (by decide) false).mono ?_
    rintro s₄ ⟨h₄, hq₄⟩
    simp only [safely_pure]
    have hf₄ : Frame s s₄ := (hf₂.trans hf₃).trans hq₄.frame
    have hent₄ : s₄.entry = updEnt s.entry s.current aaddr (some ⟨page, PF_SHARED⟩) :=
      hq₄.entry.trans hent₃
    refine ⟨h.frame hf₄ h₄, hf₄, .fresh page hdead hnone hent₄,
      h₄.page_of_entry (a := s.current) (v := aaddr) (e := ⟨page, PF_SHARED⟩) ?_ List.not_mem_nil⟩
    rw [hent₄, updEnt_self]
  · rename_i pe hpe
    obtain ⟨pg, hp⟩ := h.sound.page_of_entry hpe List.not_mem_nil
    rw [getPageRec_eq hp, ok_bind]
    simp only [safely_bind]
    have hstep : Safely Halts (fun s' => Sound stale canon (s.nodes ++ kept.map fun p => (p, .shared)) s' ∧
        Frame s s' ∧ Owned s s' aaddr ∧ ∃ pe', s'.entry s.current aaddr = some pe')
        (if 0 < pg.snapCount then Mm.unsharePage s s.current aaddr else .ok s) := by
      split
      · rename_i h0
        refine (h.sound.unsharePage hpe hp (by omega) (hok.sole pe pg hpe hp)).mono ?_
        rintro s' ⟨h', hr, heff⟩
        rcases heff with ⟨hent, -⟩ | hcopied
        · exact ⟨h', hr.frame, .same hent, pe, by rw [hent, hpe]⟩
        · have hsome := hcopied.isSome hpe s.current aaddr
          obtain ⟨hhw, page, hdead, -, hent⟩ := hcopied
          refine ⟨h', hr.frame, .moved page pe pg hdead hpe hp hhw hent,
            Option.isSome_iff_exists.1 ?_⟩
          rw [hsome, hpe]
          rfl
      · exact ⟨h.sound, Frame.refl s, .same rfl, pe, hpe⟩
    refine hstep.mono ?_
    rintro s' ⟨h', hf', heff, pe', hpe'⟩
    rw [← hf'.current] at hpe'
    rw [getEntry_eq hpe', safely_ok, safely_pure]
    exact ⟨h.frame hf' h', hf', heff, h'.page_of_entry hpe' List.not_mem_nil⟩

theorem copyToPage (h : Settled stale canon kept s) {aaddr : ℕ} (hok : WriteOk stale s aaddr)
    (off len : ℕ) (bytes : ℕ → UInt8) :
    Safely Halts (fun s' => Settled stale canon kept s' ∧ Frame s s' ∧ Owned s s' aaddr)
      (copyToPage s aaddr off len bytes) := by
  simp only [Mm.copyToPage, safely_bind]
  refine (h.userPage hok).mono ?_
  rintro ⟨page, s₁⟩ ⟨h₁, hf₁, heff, pg, hp⟩
  rw [State.memcpy, getPageRec_eq hp, ok_bind]
  have hf₂ := Frame.setMem s₁ page
    fun o => if off ≤ o ∧ o < off + len then bytes (o - off) else s₁.mem page o
  exact ⟨h₁.frame hf₂ (h₁.sound.setMem page _), hf₁.trans hf₂, heff.setMem page _⟩

end Settled

/-- The copy for a first page at `a₁` leaves the entry of a second page at `a₂` as the
only reference to their common page, and a snapshot. -/
def SoleAfterCopy (s : State) (a₁ a₂ : ℕ) : Prop :=
  ∃ e₁ e₂ pg, s.entry s.current a₁ = some e₁ ∧ s.entry s.current a₂ = some e₂ ∧ e₂.p = e₁.p ∧
    s.physPages e₁.p = some pg ∧
    if hasFlag e₁.flags PF_SHARED then pg.snapCount = 1 ∧
      pg.refCount = 1 + pg.owner.countP fun o => (s.entry o.1 o.2).any (hasFlag ·.flags PF_SHARED)
    else pg.snapCount = 2 ∧ pg.refCount = 2

/-- What `copy_to_user_simple` needs of the user pages that it writes to. -/
structure CopyOk (stale : Prop) (s : State) (buf len : ℕ) : Prop where
  first : WriteOk stale s (pageAlign buf)
  second : wadd (pageAlign buf) 4096 < wadd buf len → WriteOk stale s (wadd (pageAlign buf) 4096)
  between : wadd (pageAlign buf) 4096 < wadd buf len →
    SoleAfterCopy s (pageAlign buf) (wadd (pageAlign buf) 4096) → stale

namespace Linked

variable {hole : List (ℕ × ℕ)} {held : List (ℕ × Kind)} {phys : ℕ → Option Page}
  {ent : ℕ → ℕ → Option PageEntry} {avail : List ℕ} {p : ℕ} {pg : Page}

/-- The owners of a page are the entries that point to it. -/
theorem mem_owner_iff {stale : Prop} (h : Linked stale [] held phys ent avail) (hp : phys p = some pg)
    (o : ℕ × ℕ) : o ∈ pg.owner ↔ ∃ pe, ent o.1 o.2 = some pe ∧ pe.p = p := by
  constructor
  · exact fun ho => (h.owner_entry p pg o hp ho).2
  · rintro ⟨pe, hpe, rfl⟩
    exact h.mem_owner hpe List.not_mem_nil hp

/-- A page whose only reference is one snapshot. -/
theorem only_snapshot (h : Linked False [] held phys ent avail) (hp : phys p = some pg)
    (hs : pg.snapCount = 1) (hr : pg.refCount = 1) {a v : ℕ} {pe : PageEntry}
    (hpe : ent a v = some pe) (hpp : pe.p = p) :
    refsOn held p = 0 ∧ pg.owner = [(a, v)] ∧ isSnap ent (a, v) = true := by
  have hc := h.counted p pg hp
  have hmem : (a, v) ∈ pg.owner := (h.mem_owner_iff hp _).2 ⟨pe, hpe, hpp⟩
  have hlen := List.length_pos_of_mem hmem
  have hrefs := hc.refs
  have hle := snap_add_spent_le held p
  have howner : pg.owner = [(a, v)] := by
    obtain ⟨o, ho⟩ := List.length_eq_one_iff.1 (by omega : pg.owner.length = 1)
    rw [ho, List.mem_singleton] at hmem
    rw [ho, hmem]
  refine ⟨by omega, howner, ?_⟩
  have hsnaps : pg.snapCount = snapsOn held ent p pg.owner := by simpa using hc.snaps
  simp only [snapsOn, howner, List.countP_singleton] at hsnaps
  by_contra hno
  rw [if_neg hno] at hsnaps
  omega

/-- The counters of a page that nobody but its owners refers to. -/
theorem counts_of_owner (h : Linked False [] held phys ent avail) (hp : phys p = some pg)
    (h0 : refsOn held p = 0) {l : List (ℕ × ℕ)} (hl : l.Nodup)
    (hmem : ∀ o, (∃ pe, ent o.1 o.2 = some pe ∧ pe.p = p) ↔ o ∈ l) :
    pg.refCount = l.length ∧ pg.snapCount = l.countP (isSnap ent) ∧ pg.owner.Perm l := by
  have hc := h.counted p pg hp
  have hperm : pg.owner.Perm l :=
    (List.perm_ext_iff_of_nodup hc.nodup hl).2 fun o => (h.mem_owner_iff hp o).trans (hmem o)
  have hle := snap_add_spent_le held p
  have hsnaps : pg.snapCount = snapsOn held ent p pg.owner := by simpa using hc.snaps
  refine ⟨by rw [hc.refs, h0, hperm.length_eq, Nat.add_zero], ?_, hperm⟩
  rw [hsnaps, snapsOn, hperm.countP_eq]
  omega

/-- The counters of a page whose owners are shared but for one snapshot. -/
theorem counts_of_shared (h : Linked False [] held phys ent avail) (hp : phys p = some pg)
    (h0 : refsOn held p = 0) {a v : ℕ} {pe : PageEntry} (hpe : ent a v = some pe) (hpp : pe.p = p)
    (hsnap : hasFlag pe.flags PF_SNAPSHOT = true)
    (hothers : ∀ o ∈ pg.owner.erase (a, v),
      (ent o.1 o.2).any (hasFlag ·.flags PF_SHARED) = true) :
    pg.snapCount = 1 ∧
      pg.refCount = 1 + pg.owner.countP fun o => (ent o.1 o.2).any (hasFlag ·.flags PF_SHARED) := by
  have hnotshared : hasFlag pe.flags PF_SHARED = false := by
    have := (h.flags _ _ pe hpe).not_both
    simpa [hsnap] using this
  have hmem : (a, v) ∈ pg.owner := (h.mem_owner_iff hp _).2 ⟨pe, hpe, hpp⟩
  have hperm := List.perm_cons_erase hmem
  have hc := h.counted p pg hp
  have hle := snap_add_spent_le held p
  have hsnaps : pg.snapCount = snapsOn held ent p pg.owner := by simpa using hc.snaps
  have hnosnap : (pg.owner.erase (a, v)).countP (isSnap ent) = 0 := by
    rw [List.countP_eq_zero]
    intro o ho hos
    have hsh := hothers o ho
    obtain ⟨qe, hqe, -⟩ := (h.mem_owner_iff hp o).1 (List.mem_of_mem_erase ho)
    rw [hqe, Option.any_some] at hsh
    simp only [isSnap, hqe, Option.any_some] at hos
    exact (h.flags _ _ qe hqe).not_both ⟨hsh, hos⟩
  constructor
  · rw [hsnaps, snapsOn, hperm.countP_eq, List.countP_cons, hnosnap]
    simp only [isSnap, hpe, Option.any_some, hsnap, if_true]
    omega
  · rw [hc.refs, h0, hperm.length_eq, hperm.countP_eq, List.countP_cons,
      List.countP_eq_length.2 hothers]
    simp only [hpe, Option.any_some, hnotshared, List.length_cons]
    simp
    omega

end Linked

section Moved

variable {as vaddr page : ℕ} {e₁ qe : PageEntry} {pg₁ : Page}
  {ent : ℕ → ℕ → Option PageEntry} {o : ℕ × ℕ}

/-- An entry that is not shared and not the writer's was there before. -/
theorem entry_of_movedEntries (hne : o ≠ (as, vaddr)) (hflag : hasFlag qe.flags PF_SHARED = false)
    (hqe : Consistent.movedEntries as vaddr page e₁ pg₁ ent o.1 o.2 = some qe) :
    ent o.1 o.2 = some qe := by
  rw [Consistent.movedEntries] at hqe
  split at hqe
  · simp only [retarget] at hqe
    split at hqe
    · obtain ⟨pe, hpe, heq⟩ := Option.map_eq_some_iff.1 hqe
      rw [PageEntry.retarget] at heq
      split at heq
      · rename_i hshared
        rw [← heq] at hflag
        simp only at hflag
        rw [hflag] at hshared
        cases hshared
      · rw [hpe, heq]
    · exact hqe
  · rwa [updEnt_of_ne hne] at hqe

/-- An entry on another page stays. -/
theorem movedEntries_of_ne {stale : Prop} {held : List (ℕ × Kind)} {phys : ℕ → Option Page}
    {avail : List ℕ} (h : Linked stale [] held phys ent avail) (he₁ : ent as vaddr = some e₁)
    (hp₁ : phys e₁.p = some pg₁) (hqe : ent o.1 o.2 = some qe) (hne : qe.p ≠ e₁.p) :
    Consistent.movedEntries as vaddr page e₁ pg₁ ent o.1 o.2 = some qe := by
  rw [Consistent.movedEntries]
  split
  · rw [retarget_not_mem, hqe]
    intro hmem
    obtain ⟨qe', hqe', hqp'⟩ := (h.mem_owner_iff hp₁ o).1 hmem
    rw [hqe, Option.some.injEq] at hqe'
    subst hqe'
    exact hne hqp'
  · rw [updEnt_of_ne, hqe]
    rintro rfl
    rw [he₁, Option.some.injEq] at hqe
    subst hqe
    exact hne rfl

/-- No entry comes or goes at another address. -/
theorem Owned.isNone {s s' : State} {a₁ a₂ : ℕ} (h : Owned s s' a₁) (hne : a₂ ≠ a₁)
    (hnone : s'.entry s.current a₂ = none) : s.entry s.current a₂ = none := by
  have hkey : ((s.current, a₂) : ℕ × ℕ) ≠ (s.current, a₁) := by simpa using hne
  cases h with
  | same hent => rwa [hent] at hnone
  | fresh page hdead hn hent => rwa [hent, updEnt_of_ne (o := (s.current, a₂)) hkey] at hnone
  | moved page e₁ pg₁ hdead he₁ hp₁ hhw hent =>
    have := movedEntries_isSome page pg₁ he₁ s.current a₂
    rw [← hent, hnone] at this
    simpa using this.symm

/-- If the copy for the first page takes all entries on its page but a snapshot, then the
snapshot was the last one beside what was copied. -/
theorem soleAfterCopy_of_moved {s : State} {held : List (ℕ × Kind)} {a₁ a₂ : ℕ} {pe : PageEntry}
    (h : Linked False [] held s.physPages s.entry s.freePages) (hne : a₂ ≠ a₁)
    (he₁ : s.entry s.current a₁ = some e₁) (hp₁ : s.physPages e₁.p = some pg₁)
    (hhw : hasFlag e₁.flags PF_HARDWARE = false) (hpe : s.entry s.current a₂ = some pe)
    (hpp : pe.p = e₁.p) (hsnap : hasFlag pe.flags PF_SNAPSHOT = true) (h0 : refsOn held e₁.p = 0)
    (hstay : ∀ o qe, s.entry o.1 o.2 = some qe → qe.p = e₁.p →
      Consistent.movedEntries s.current a₁ page e₁ pg₁ s.entry o.1 o.2 = some qe →
      o = (s.current, a₂)) : SoleAfterCopy s a₁ a₂ := by
  refine ⟨e₁, pe, pg₁, he₁, hpe, hpp, hp₁, ?_⟩
  split
  · rename_i hshared
    rw [Consistent.movedEntries, if_pos hshared] at hstay
    apply h.counts_of_shared hp₁ h0 hpe hpp hsnap
    intro o ho
    obtain ⟨hoa, ho⟩ := (h.counted _ pg₁ hp₁).nodup.mem_erase_iff.1 ho
    obtain ⟨qe, hqe, hqp⟩ := (h.mem_owner_iff hp₁ o).1 ho
    rw [hqe, Option.any_some]
    by_contra hq
    refine hoa (hstay o qe hqe hqp ?_)
    rw [retarget_mem ho, hqe, Option.map_some, PageEntry.retarget, if_neg hq]
  · rename_i hshared
    rw [Consistent.movedEntries, if_neg hshared] at hstay
    have hsnap₁ : hasFlag e₁.flags PF_SNAPSHOT = true := by
      simpa [hshared, hhw] using (h.flags _ _ e₁ he₁).one
    obtain ⟨hr₁, hs₁, -⟩ := h.counts_of_owner hp₁ h0
      (l := [(s.current, a₁), (s.current, a₂)]) (by simpa using hne.symm) fun o => by
        rw [List.mem_cons, List.mem_singleton]
        constructor
        · rintro ⟨qe, hqe, hqp⟩
          by_cases ho : o = (s.current, a₁)
          · exact .inl ho
          · exact .inr (hstay o qe hqe hqp (by rw [updEnt_of_ne ho, hqe]))
        · rintro (rfl | rfl)
          · exact ⟨e₁, he₁, rfl⟩
          · exact ⟨pe, hpe, hpp⟩
    refine ⟨?_, hr₁⟩
    rw [hs₁]
    simp [isSnap, he₁, hpe, hsnap, hsnap₁]

end Moved

namespace Settled

variable {stale canon : Prop} {kept : List ℕ} {s s' : State}

/-- The second page of a small copy, once the first is written. -/
theorem writeOk_second (h : Settled stale canon kept s) (h' : Settled stale canon kept s')
    (hf : Frame s s') {a₁ a₂ : ℕ} (hne : a₂ ≠ a₁) (heff : Owned s s' a₁) (hok : WriteOk stale s a₂)
    (hbetween : SoleAfterCopy s a₁ a₂ → stale) : WriteOk stale s' a₂ := by
  have hkey : ((s.current, a₂) : ℕ × ℕ) ≠ (s.current, a₁) := by simpa using hne
  refine ⟨?_, ?_⟩
  · intro pe pg hpe hp hs1 hr1
    by_contra hst
    obtain rfl : stale = False := propext ⟨hst, False.elim⟩
    have hnodes : s'.nodes = s.nodes := by rw [State.nodes, hf.plists, State.nodes]
    have hl := h.sound.linked
    have hl' := h'.sound.linked
    rw [hnodes] at hl'
    rw [hf.current] at hpe
    obtain ⟨h0, howner, hsnap⟩ := hl'.only_snapshot hp hs1 hr1 hpe rfl
    have honly : ∀ o, (∃ qe, s'.entry o.1 o.2 = some qe ∧ qe.p = pe.p) ↔ o = (s.current, a₂) := by
      intro o
      rw [← hl'.mem_owner_iff hp o, howner, List.mem_singleton]
    have hsnapflag : hasFlag pe.flags PF_SNAPSHOT = true := by simpa [isSnap, hpe] using hsnap
    have hnotshared : hasFlag pe.flags PF_SHARED = false := by
      have := (hl'.flags _ _ pe hpe).not_both
      simpa [hsnapflag] using this
    -- if the entries on the page are the same as before, it was the sole snapshot before
    have hsame : s.entry s.current a₂ = some pe →
        (∀ o, (∃ qe, s.entry o.1 o.2 = some qe ∧ qe.p = pe.p) → o = (s.current, a₂)) → False := by
      intro hpe₀ hsub
      obtain ⟨pg₀, hp₀⟩ := h.sound.page_of_entry hpe₀ List.not_mem_nil
      obtain ⟨hr₀, hs₀, -⟩ := hl.counts_of_owner hp₀ h0 (List.nodup_singleton (s.current, a₂))
        fun o => by
          rw [List.mem_singleton]
          constructor
          · exact hsub o
          · rintro rfl
            exact ⟨pe, hpe₀, rfl⟩
      refine hok.sole pe pg₀ hpe₀ hp₀ ?_ (by simpa using hr₀)
      simp [hs₀, isSnap, hpe₀, hsnapflag]
    cases heff with
    | same hent =>
      rw [hent] at hpe honly
      exact hsame hpe fun o => (honly o).1
    | fresh page hdead hnone hent =>
      rw [hent, updEnt_of_ne (o := (s.current, a₂)) hkey] at hpe
      refine hsame hpe fun o ho => (honly o).1 ?_
      have hne₁ : o ≠ (s.current, a₁) := by
        rintro rfl
        obtain ⟨qe, hqe, -⟩ := ho
        rw [hnone] at hqe
        cases hqe
      rw [hent, updEnt_of_ne hne₁]
      exact ho
    | moved page e₁ pg₁ hdead he₁ hp₁ hhw hent =>
      rw [hent] at hpe honly
      have hkeep := entry_of_movedEntries (o := (s.current, a₂)) hkey hnotshared hpe
      -- an entry on the page of the second one that did not move is the second one
      by_cases hpp : pe.p = e₁.p
      · apply hbetween
        rw [hpp] at h0
        exact soleAfterCopy_of_moved hl hne he₁ hp₁ hhw hkeep hpp hsnapflag h0 fun o qe _ hqp hqe' =>
          (honly o).1 ⟨qe, hqe', hqp.trans hpp.symm⟩
      · apply hsame hkeep
        rintro o ⟨qe, hqe, hqp⟩
        have hne' : qe.p ≠ e₁.p := fun heq => hpp (hqp.symm.trans heq)
        exact (honly o).1 ⟨qe, movedEntries_of_ne hl he₁ hp₁ hqe hne', hqp⟩
  · intro hnone'
    rw [hf.current] at hnone'
    obtain ⟨hal, sp, vma, hsp, hvma⟩ := hok.inVma (heff.isNone hne hnone')
    obtain ⟨sp', hsp', -⟩ := hf.space hsp
    obtain ⟨vma', hvma'⟩ := vmaFind_isSome hf hsp hsp' ⟨vma, hvma⟩
    exact ⟨hal, sp', vma', by rw [hf.current]; exact hsp', hvma'⟩

/-- `copy_to_user_simple`. -/
theorem copyToUserSimple (h : Settled stale canon kept s) {buf len : ℕ}
    (hlive : ∃ sp, s.spaces s.current = some sp) (hok : CopyOk stale s buf len) (src : ℕ → UInt8) :
    Safely Halts (fun r => Settled stale canon kept r.2) (copyToUserSimple s src buf len) := by
  obtain ⟨sp, hsp⟩ := hlive
  have hsp' : (disableInterrupts s).spaces (disableInterrupts s).current = some sp := hsp
  unfold Mm.copyToUserSimple
  split
  · simp
  rename_i hlen
  dsimp only
  rw [validateRange, getSpace_eq hsp', ok_bind, pure_eq_ok, ok_bind]
  split
  · simp only [safely_bind]
    exact h.disable.enable
  simp only [safely_bind]
  refine (h.disable.copyToPage ⟨hok.first.sole, hok.first.inVma⟩ _ _ _).mono ?_
  rintro s₁ ⟨h₁, hf₁, heff₁⟩
  generalize hlo : (if wadd (pageAlign buf) 4096 < wadd buf len then
    wsub (wadd buf len) (wadd (pageAlign buf) 4096) else 0) = leftover
  split
  · rename_i hleft
    have hover : wadd (pageAlign buf) 4096 < wadd buf len := by
      by_contra hno
      rw [if_neg hno] at hlo
      exact hleft hlo.symm
    have hne : wadd (pageAlign buf) 4096 ≠ pageAlign buf := by
      simp only [wadd]
      omega
    have hok₂ : WriteOk stale (disableInterrupts s) (wadd (pageAlign buf) 4096) :=
      ⟨(hok.second hover).sole, (hok.second hover).inVma⟩
    refine (h₁.copyToPage (h.disable.writeOk_second h₁ hf₁ hne heff₁ hok₂ (hok.between hover))
      _ _ _).mono ?_
    rintro s₂ ⟨h₂, -⟩
    exact h₂.enable
  · exact h₁.enable

end Settled

end SadOS.Mm
