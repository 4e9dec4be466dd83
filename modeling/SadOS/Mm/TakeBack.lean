import SadOS.Mm.World
import SadOS.Mm.VmaList

/-!
# Dropping a page list that was just taken

`map_from_user` makes copies of the first and last page of a buffer and takes one more
reference and snapshot of each page in between; `page_list_free` gives them back.  A page in
between that was never touched has a node without a page, whose null pointer
`page_list_free` follows.

## Main definitions

* `PagesOk` — records and free pages fit together.
* `Taken` — what the nodes of a page list took.
* `Undone` — a page list can be dropped, and everything is as before.

## Main results

* `returns_mapFromUser` — taking a page list.
* `Taken.freeNodes` — dropping it.
* `pageListFree_undoes` — when one undoes the other.
-/

namespace SadOS.Mm

/-- Records and free pages fit together. -/
structure PagesOk (s : State) : Prop where
  nodup : s.freePages.Nodup
  dead : ∀ p ∈ s.freePages, s.physPages p = none
  pos : ∀ p pg, s.physPages p = some pg → 0 < pg.refCount
  live : ∀ a v pe, s.entry a v = some pe → (s.physPages pe.p).isSome = true

/-- Every state of the memory manager is like this. -/
theorem Settled.pagesOk {stale canon : Prop} {kept : List ℕ} {s : State}
    (h : Settled stale canon kept s) : PagesOk s where
  nodup := h.sound.linked.free_nodup
  dead := h.sound.linked.free_dead
  pos p pg hp := (h.sound.linked.counted p pg hp).pos
  live a v pe hpe := by
    obtain ⟨pg, hp⟩ := h.sound.page_of_entry hpe List.not_mem_nil
    rw [hp]
    rfl

/-- The pages that nodes copied. -/
def copiesOf (nodes : List PageList) : List ℕ :=
  nodes.filterMap fun n => if n.flags = PF_SNAPSHOT then none else n.p

/-- The pages that nodes took a snapshot of. -/
def snapsOf (nodes : List PageList) : List ℕ :=
  nodes.filterMap fun n => if n.flags = PF_SNAPSHOT then n.p else none

/-- `k` more references, all of them snapshots. -/
def Page.raise (k : ℕ) (pg : Page) : Page :=
  { pg with refCount := pg.refCount + k, snapCount := pg.snapCount + k }

/-- What the nodes of a page list took, from `s` to `s'`. -/
structure Taken (nodes : List PageList) (s s' : State) : Prop where
  pages : ∀ p, s'.physPages p = if p ∈ copiesOf nodes then some ⟨1, 0, []⟩ else
    (s.physPages p).map (Page.raise ((snapsOf nodes).count p))
  free : (copiesOf nodes ++ s'.freePages).Perm s.freePages
  snaps : ∀ p ∈ snapsOf nodes, (s.physPages p).isSome = true
  aligned : ∀ p ∈ copiesOf nodes, isAligned p = true

/-- The page list `id` can be dropped, and every record and every free page is as before. -/
def Undone (s s' : State) (id : ℕ) : Prop :=
  ∃ s₂, pageListFree s' id = .ok s₂ ∧ s₂.physPages = s.physPages ∧ s₂.freePages.Perm s.freePages

@[simp] theorem Page.raise_zero (pg : Page) : pg.raise 0 = pg := rfl

section Nodes

variable (nodes : List PageList) (p : ℕ)

@[simp] theorem copiesOf_nil : copiesOf [] = [] := rfl

@[simp] theorem snapsOf_nil : snapsOf [] = [] := rfl

@[simp] theorem copiesOf_append (nodes' : List PageList) :
    copiesOf (nodes ++ nodes') = copiesOf nodes ++ copiesOf nodes' := List.filterMap_append

@[simp] theorem snapsOf_append (nodes' : List PageList) :
    snapsOf (nodes ++ nodes') = snapsOf nodes ++ snapsOf nodes' := List.filterMap_append

@[simp] theorem copiesOf_copy : copiesOf (⟨some p, PF_SHARED⟩ :: nodes) = p :: copiesOf nodes := rfl

@[simp] theorem snapsOf_copy : snapsOf (⟨some p, PF_SHARED⟩ :: nodes) = snapsOf nodes := rfl

@[simp] theorem copiesOf_snap : copiesOf (⟨some p, PF_SNAPSHOT⟩ :: nodes) = copiesOf nodes := rfl

@[simp] theorem snapsOf_snap : snapsOf (⟨some p, PF_SNAPSHOT⟩ :: nodes) = p :: snapsOf nodes := rfl

@[simp] theorem copiesOf_hole : copiesOf (⟨none, 0⟩ :: nodes) = copiesOf nodes := rfl

@[simp] theorem snapsOf_hole : snapsOf (⟨none, 0⟩ :: nodes) = snapsOf nodes := rfl

end Nodes

namespace Taken

variable {nodes : List PageList} {s s' : State} {p : ℕ}

theorem refl (s : State) : Taken [] s s where
  pages p := by
    cases s.physPages p <;> simp
  free := List.Perm.refl _
  snaps := by simp
  aligned := by simp

/-- Nothing is left to give back. -/
theorem done (h : Taken [] s s') : s'.physPages = s.physPages ∧ s'.freePages.Perm s.freePages := by
  refine ⟨funext fun p => ?_, h.free⟩
  have hp := h.pages p
  rw [hp]
  cases s.physPages p <;> simp

/-! ### Taking -/

/-- A page from the allocator. -/
theorem copy (h : Taken nodes s s') {rest : List ℕ}
    (hfree : s'.freePages = p :: rest) (haligned : isAligned p = true) {s₁ : State}
    (hpages : s₁.physPages = Function.update s'.physPages p (some ⟨1, 0, []⟩))
    (hrest : s₁.freePages = rest) : Taken (nodes ++ [⟨some p, PF_SHARED⟩]) s s₁ := by
  have hperm := h.free
  rw [hfree] at hperm
  refine ⟨fun q => ?_, ?_, by simpa using h.snaps, ?_⟩
  · rw [hpages]
    by_cases hq : q = p
    · subst hq
      simp
    · rw [Function.update_of_ne hq, h.pages q]
      simp [hq]
  · simpa [hrest] using hperm
  · intro q hq
    simp only [copiesOf_append, copiesOf_copy, copiesOf_nil, List.mem_append,
      List.mem_singleton] at hq
    rcases hq with hq | rfl
    · exact h.aligned q hq
    · exact haligned

/-- A page that an entry maps. -/
theorem snap (h : Taken nodes s s') (hs : PagesOk s) {pg : Page} (hp : s'.physPages p = some pg)
    (hlive : (s.physPages p).isSome = true) {s₁ : State}
    (hpages : s₁.physPages = Function.update s'.physPages p (some (pg.raise 1)))
    (hrest : s₁.freePages = s'.freePages) : Taken (nodes ++ [⟨some p, PF_SNAPSHOT⟩]) s s₁ := by
  obtain ⟨pg₀, hpg₀⟩ := Option.isSome_iff_exists.1 hlive
  have hnot : p ∉ copiesOf nodes := fun hmem => by
    rw [hs.dead p (h.free.subset (List.mem_append_left _ hmem))] at hpg₀
    cases hpg₀
  refine ⟨fun q => ?_, by simpa [hrest] using h.free, ?_, by simpa using h.aligned⟩
  · rw [hpages]
    by_cases hq : q = p
    · subst hq
      have hraised := h.pages q
      rw [if_neg hnot, hp, hpg₀, Option.map_some, Option.some.injEq] at hraised
      simp [hnot, hpg₀, hraised, Page.raise, Nat.add_assoc]
    · rw [Function.update_of_ne hq, h.pages q]
      simp [Ne.symm hq]
  · intro q hq
    simp only [snapsOf_append, snapsOf_snap, snapsOf_nil, List.mem_append,
      List.mem_singleton] at hq
    rcases hq with hq | rfl
    · exact h.snaps q hq
    · exact hlive

/-- A page that was never touched. -/
theorem hole (h : Taken nodes s s') : Taken (nodes ++ [⟨none, 0⟩]) s s' where
  pages p := by simpa using h.pages p
  free := by simpa using h.free
  snaps := by simpa using h.snaps
  aligned := by simpa using h.aligned

/-- Only records and free pages matter. -/
theorem congr (h : Taken nodes s s') {s₁ : State} (hpages : s₁.physPages = s'.physPages)
    (hfree : s₁.freePages = s'.freePages) : Taken nodes s s₁ where
  pages p := by
    rw [hpages]
    exact h.pages p
  free := by
    rw [hfree]
    exact h.free
  snaps := h.snaps
  aligned := h.aligned

/-- The next page of the allocator has no record. -/
theorem next_dead (h : Taken nodes s s') (hs : PagesOk s) {rest : List ℕ}
    (hfree : s'.freePages = p :: rest) : s'.physPages p = none := by
  have hperm := h.free
  rw [hfree] at hperm
  have hnodup := hperm.nodup_iff.2 hs.nodup
  have hnot : p ∉ copiesOf nodes := fun hmem =>
    (List.nodup_append.1 hnodup).2.2 p hmem p List.mem_cons_self rfl
  rw [h.pages p, if_neg hnot, hs.dead p (hperm.subset (by simp)), Option.map_none]

end Taken

/-! ## Taking a page list -/

/-- What `map_from_user` keeps after each node. -/
def Took (s : State) (r : List PageList × State) : Prop :=
  Taken r.1 s r.2 ∧ r.2.entry = s.entry ∧ r.2.current = s.current

theorem returns_getPage (s : State) :
    Returns (fun r => s.freePages = r.1 :: r.2.freePages ∧ r.2 = s.setFree r.2.freePages)
      (getPage s) := by
  rw [getPage]
  cases hfree : s.freePages with
  | nil =>
    have hfree' : (disableInterrupts s).freePages = [] := hfree
    simp [hfree']
  | cons page rest =>
    have hfree' : (disableInterrupts s).freePages = page :: rest := hfree
    rw [hfree']
    exact ⟨rfl, rfl⟩

/-- `manage_phys_page` of a page without a record. -/
theorem returns_managePhysPage {s : State} {p : ℕ} (hp : s.physPages p = none) :
    Returns (fun s' => isAligned p = true ∧ s' = s.setPage p (some ⟨1, 0, []⟩))
      (managePhysPage s p) := by
  rw [managePhysPage, managePhysPageLocked]
  by_cases haligned : isAligned p = true
  · have hp' : (disableInterrupts s).physPages p = none := hp
    rw [if_pos haligned, hp']
    exact ⟨haligned, rfl⟩
  · rw [if_neg haligned]
    trivial

theorem returns_copyPage {nodes : List PageList} {s s' : State} (h : Took s (nodes, s'))
    (hs : PagesOk s) (vaddr lo hi : ℕ) :
    Returns (fun r => Took s (nodes ++ [r.1], r.2) ∧ r.1.p.isSome = true)
      (copyPage s' vaddr lo hi) := by
  obtain ⟨htaken, hentry, hcurrent⟩ := h
  simp only [copyPage, safely_bind]
  refine (returns_getPage s').mono ?_
  rintro ⟨page, s₁⟩ ⟨hfree, hs₁⟩
  dsimp only at hfree hs₁
  have hdead := htaken.next_dead hs hfree
  have hdead₁ : s₁.physPages page = none := by
    rw [hs₁]
    exact hdead
  refine (returns_managePhysPage (s := (s₁.setMem page fun _ => 0).setMem page _) hdead₁).mono ?_
  rintro s₂ ⟨haligned, hs₂⟩
  have hpages : s₂.physPages = Function.update s'.physPages page (some ⟨1, 0, []⟩) := by
    rw [hs₂, hs₁]
    rfl
  have hentry₂ : s₂.entry = s'.entry := by
    rw [hs₂, hs₁]
    rfl
  have hcurrent₂ : s₂.current = s'.current := by
    rw [hs₂, hs₁]
    rfl
  have hrest : s₂.freePages = s₁.freePages := by
    rw [hs₂]
    rfl
  exact ⟨⟨htaken.copy hfree haligned hpages hrest, hentry₂.trans hentry, hcurrent₂.trans hcurrent⟩,
    rfl⟩

theorem returns_snapPage {s : State} {acc : List PageList × State} (h : Took s acc)
    (hs : PagesOk s) (vaddr : ℕ) :
    Returns (fun r => Took s r ∧ ((∃ n ∈ r.1, n.p = none) ↔ (∃ n ∈ acc.1, n.p = none) ∨
      (s.entry s.current vaddr).isSome = false)) (snapPage acc vaddr) := by
  obtain ⟨nodes, s'⟩ := acc
  obtain ⟨htaken, hentry, hcurrent⟩ := h
  dsimp only at htaken hentry hcurrent
  unfold snapPage
  dsimp only
  rw [hentry, hcurrent]
  cases hpe : s.entry s.current vaddr with
  | none =>
    refine ⟨⟨htaken.hole, hentry, hcurrent⟩, ?_⟩
    simp
  | some pe =>
    simp only [safely_bind]
    refine (returns_getPageRec s' pe.p).mono fun pg hp => ?_
    refine ⟨⟨htaken.snap hs hp (hs.live _ _ pe hpe) rfl rfl, hentry, hcurrent⟩, ?_⟩
    simp

/-- All pages between the first and the last. -/
theorem returns_snapPages {s : State} {acc : List PageList × State} (h : Took s acc)
    (hs : PagesOk s) (l : List ℕ) :
    Returns (fun r => Took s r ∧ ((∃ n ∈ r.1, n.p = none) ↔ (∃ n ∈ acc.1, n.p = none) ∨
      ∃ vaddr ∈ l, (s.entry s.current vaddr).isSome = false)) (l.foldlM snapPage acc) := by
  induction l generalizing acc with
  | nil => exact ⟨h, by simp⟩
  | cons vaddr rest ih =>
    rw [List.foldlM_cons, Returns, safely_bind]
    refine (returns_snapPage h hs vaddr).mono ?_
    rintro acc' ⟨h', hholes'⟩
    refine (ih h').mono ?_
    rintro r ⟨hr, hholes⟩
    refine ⟨hr, ?_⟩
    rw [hholes, hholes', List.exists_mem_cons_iff, or_assoc]

/-- A finished page list is found under its number. -/
theorem Took.addPlist {s s' : State} {nodes : List PageList} (h : Took s (nodes, s'))
    (off : ℕ) : Returns (fun s₁ => s₁.plists.lookup (s'.addPlist off nodes).1 =
      some ⟨off, nodes.length, nodes⟩ ∧ Taken nodes s s₁)
      (enableInterrupts (s'.addPlist off nodes).2) := by
  rw [enableInterrupts]
  split
  · trivial
  · refine ⟨?_, h.1.congr rfl rfl⟩
    simp [State.addPlist]

/-- A buffer that ends in the page where it begins has no whole page. -/
theorem wholePages_of_le {buf len : ℕ} (h : wadd buf len ≤ wadd (pageAlign buf) 4096) :
    wholePages buf len = [] := by
  have hstop : pageAlign (wadd buf len) ≤ wadd (pageAlign buf) 4096 :=
    (Nat.sub_le _ _).trans h
  rw [wholePages, pageSteps, Nat.sub_eq_zero_of_le hstop]
  rfl

theorem returns_mapFromUser {s : State} (hs : PagesOk s) (buf len : ℕ) :
    Returns (fun r => ∀ id, r.1 = .ok id → ∃ plh, r.2.plists.lookup id = some plh ∧
      Taken plh.ph s r.2 ∧ ((∃ n ∈ plh.ph, n.p = none) ↔
        ∃ vaddr ∈ wholePages buf len, (s.entry s.current vaddr).isSome = false))
      (mapFromUser s buf len) := by
  have hstart : Took s ([], disableInterrupts s) := ⟨(Taken.refl s).congr rfl rfl, rfl, rfl⟩
  unfold mapFromUser
  dsimp only
  simp only [validateRange, safely_bind, safely_pure]
  refine (returns_getSpace _ _).mono fun sp _ => ?_
  split
  · simp only [safely_bind]
    exact (safely_iff.2 ⟨fun s₁ _ => by simp, fun _ _ => trivial⟩)
  simp only [safely_bind]
  -- the first page, where the buffer starts inside it
  refine Safely.mono (Q := fun r : List PageList × State => Took s r ∧ ∀ n ∈ r.1, n.p ≠ none) ?_ ?_
  · split
    · simp only [safely_bind]
      refine (returns_copyPage hstart hs _ _ _).mono ?_
      rintro ⟨pl, s₁⟩ ⟨h₁, hsome⟩
      refine ⟨h₁, ?_⟩
      simpa [Option.isSome_iff_ne_none] using hsome
    · exact ⟨hstart, by simp⟩
  rintro ⟨first, s₁⟩ ⟨h₁, hfirst⟩
  dsimp only at hfirst ⊢
  have hnohole : ¬∃ n ∈ first, n.p = none := by
    rintro ⟨n, hn, hnone⟩
    exact hfirst n hn hnone
  split
  · rename_i hshort
    simp only [safely_bind]
    refine (h₁.addPlist _).mono ?_
    rintro s₂ ⟨hlookup, htaken⟩
    intro id hid
    rw [Except.ok.injEq] at hid
    refine ⟨_, hid ▸ hlookup, htaken, ?_⟩
    rw [wholePages_of_le hshort.2]
    simpa using hfirst
  simp only [safely_bind]
  refine (returns_snapPages h₁ hs _).mono ?_
  rintro ⟨middle, s₂⟩ ⟨h₂, hholes⟩
  dsimp only at hholes ⊢
  -- the last page, where the buffer ends inside it
  refine Safely.mono (Q := fun r : List PageList × State => Took s r ∧
    ((∃ n ∈ r.1, n.p = none) ↔ ∃ n ∈ middle, n.p = none)) ?_ ?_
  · split
    · simp only [safely_bind]
      refine (returns_copyPage h₂ hs _ _ _).mono ?_
      rintro ⟨pl, s₃⟩ ⟨h₃, hsome⟩
      refine ⟨h₃, ?_⟩
      have hne : pl.p ≠ none := by simpa [Option.isSome_iff_ne_none] using hsome
      simp [hne]
    · exact ⟨h₂, Iff.rfl⟩
  rintro ⟨all, s₃⟩ ⟨h₃, hholes₃⟩
  refine (h₃.addPlist _).mono ?_
  rintro s₄ ⟨hlookup, htaken⟩
  intro id hid
  rw [Except.ok.injEq] at hid
  refine ⟨_, hid ▸ hlookup, htaken, ?_⟩
  rw [hholes₃, hholes, or_iff_right hnohole]
  rfl

/-! ## Dropping a page list -/

namespace Taken

variable {rest : List PageList} {s s' : State} {p flags : ℕ}

/-- A copy goes back to the allocator. -/
theorem freeCopy (h : Taken (⟨some p, flags⟩ :: rest) s s') (hs : PagesOk s)
    (hflags : flags ≠ PF_SNAPSHOT) :
    ∃ s₁, freeNode s' ⟨some p, flags⟩ = .ok s₁ ∧ Taken rest s s₁ := by
  have hcopies : copiesOf (⟨some p, flags⟩ :: rest) = p :: copiesOf rest := by
    simp [copiesOf, hflags]
  have hsnaps : snapsOf (⟨some p, flags⟩ :: rest) = snapsOf rest := by simp [snapsOf, hflags]
  obtain ⟨hpages, hfree, hlive, haligned⟩ := h
  rw [hcopies] at hpages hfree haligned
  rw [hsnaps] at hpages hlive
  have hnodup := hfree.nodup_iff.2 hs.nodup
  rw [List.cons_append, List.nodup_cons, List.mem_append, not_or] at hnodup
  have hdead : s.physPages p = none := hs.dead p (hfree.subset (by simp))
  have hp : s'.physPages p = some ⟨1, 0, []⟩ := by rw [hpages p, if_pos List.mem_cons_self]
  have hfreed : freeNode s' ⟨some p, flags⟩ =
      .ok ((s'.setPage p none).setFree (p :: s'.freePages)) := by
    simp only [freeNode, hflags, reduceIte, ok_bind, pageUnref, getPageRec_eq hp, wdec,
      one_ne_zero, dropPage, haligned p List.mem_cons_self]
    rfl
  refine ⟨_, hfreed, fun q => ?_, ?_, hlive, fun q hq => haligned q (List.mem_cons_of_mem p hq)⟩
  · by_cases hq : q = p
    · subst hq
      simp [State.setFree, State.setPage, hnodup.1.1, hdead]
    · have hqp := hpages q
      simp only [List.mem_cons, or_iff_right hq] at hqp
      simpa [State.setFree, State.setPage, Function.update_of_ne hq] using hqp
  · exact List.perm_middle.trans hfree

/-- A snapshot is given up. -/
theorem freeSnap (h : Taken (⟨some p, PF_SNAPSHOT⟩ :: rest) s s') (hs : PagesOk s) :
    ∃ s₁, freeNode s' ⟨some p, PF_SNAPSHOT⟩ = .ok s₁ ∧ Taken rest s s₁ := by
  obtain ⟨hpages, hfree, hlive, haligned⟩ := h
  rw [copiesOf_snap] at hpages hfree haligned
  rw [snapsOf_snap] at hpages hlive
  obtain ⟨pg, hpg⟩ := Option.isSome_iff_exists.1 (hlive p List.mem_cons_self)
  have hnot : p ∉ copiesOf rest := fun hmem => by
    rw [hs.dead p (hfree.subset (List.mem_append_left _ hmem))] at hpg
    cases hpg
  have hpos := hs.pos p pg hpg
  have hp : s'.physPages p = some (pg.raise ((snapsOf rest).count p + 1)) := by
    rw [hpages p, if_neg hnot, hpg, Option.map_some, List.count_cons_self]
  have hfreed : freeNode s' ⟨some p, PF_SNAPSHOT⟩ =
      .ok (s'.setPage p (some (pg.raise ((snapsOf rest).count p)))) := by
    have hsnap : wdec (pg.raise ((snapsOf rest).count p + 1)).snapCount =
        pg.snapCount + (snapsOf rest).count p := by simp [wdec, Page.raise]
    have href : wdec (pg.raise ((snapsOf rest).count p + 1)).refCount =
        pg.refCount + (snapsOf rest).count p := by simp [wdec, Page.raise]
    have hmore : pg.refCount + (snapsOf rest).count p ≠ 0 := by omega
    have hp₁ : ∀ pg₁, (s'.setPage p (some pg₁)).physPages p = some pg₁ := fun pg₁ =>
      Function.update_self ..
    simp only [freeNode, reduceIte, getPageRec_eq hp, ok_bind, pure_eq_ok, hsnap, pageUnref,
      getPageRec_eq (hp₁ _), href, hmore]
    simp [State.setPage, Page.raise]
  refine ⟨_, hfreed, fun q => ?_, hfree, fun q hq => hlive q (List.mem_cons_of_mem p hq), haligned⟩
  by_cases hq : q = p
  · subst hq
    simp [State.setPage, hnot, hpg]
  · have hqp := hpages q
    rw [List.count_cons_of_ne (Ne.symm hq)] at hqp
    simpa [State.setPage, Function.update_of_ne hq] using hqp

/-- All nodes. -/
theorem freeNodes {nodes : List PageList} (h : Taken nodes s s') (hs : PagesOk s)
    (hnodes : ∀ n ∈ nodes, n.p ≠ none) :
    ∃ s₁, nodes.foldlM freeNode s' = .ok s₁ ∧ Taken [] s s₁ := by
  induction nodes generalizing s' with
  | nil => exact ⟨s', rfl, h⟩
  | cons n rest ih =>
    obtain ⟨p, flags⟩ := n
    cases p with
    | none => exact absurd rfl (hnodes _ List.mem_cons_self)
    | some p =>
      have hfirst : ∃ s₁, freeNode s' ⟨some p, flags⟩ = .ok s₁ ∧ Taken rest s s₁ := by
        by_cases hflags : flags = PF_SNAPSHOT
        · subst hflags
          exact h.freeSnap hs
        · exact h.freeCopy hs hflags
      obtain ⟨s₁, hs₁, h₁⟩ := hfirst
      rw [List.foldlM_cons, hs₁, ok_bind]
      exact ih h₁ fun n hn => hnodes n (List.mem_cons_of_mem _ hn)

end Taken

/-- A node without a page is a null pointer. -/
theorem freeNodes_hole {nodes : List PageList} (h : ∃ n ∈ nodes, n.p = none) (s s' : State) :
    nodes.foldlM freeNode s ≠ .ok s' := by
  induction nodes generalizing s with
  | nil => simp at h
  | cons n rest ih =>
    rw [List.exists_mem_cons_iff] at h
    rw [List.foldlM_cons, ne_eq, bind_eq_ok]
    rintro ⟨s₁, hs₁, hrest⟩
    rcases h with hn | hn
    · rw [freeNode, hn] at hs₁
      cases hs₁
    · exact ih hn s₁ hrest

/-- What `page_list_free` goes through. -/
theorem pageListFree_eq {s : State} {id : ℕ} {plh : PageListHead}
    (h : s.plists.lookup id = some plh) :
    pageListFree s id =
      plh.ph.foldlM freeNode { s with plists := s.plists.filter fun x => x.1 != id } := by
  rw [pageListFree, State.getPlist, h, ok_bind]

/-- A page list with a page that was never touched cannot be dropped. -/
theorem not_freed_of_untouched {s s' : State} {buf len id vaddr : ℕ} (hs : PagesOk s)
    (h : mapFromUser s buf len = .ok (.ok id, s')) (hvaddr : vaddr ∈ wholePages buf len)
    (hnone : (s.entry s.current vaddr).isSome = false) : ¬∃ s₂, pageListFree s' id = .ok s₂ := by
  obtain ⟨plh, hlookup, -, hholes⟩ := (returns_mapFromUser hs buf len).of_ok h id rfl
  rintro ⟨s₂, hs₂⟩
  rw [pageListFree_eq hlookup] at hs₂
  exact freeNodes_hole (hholes.2 ⟨vaddr, hvaddr, hnone⟩) _ s₂ hs₂

/-- Dropping a page list that was just taken gives back what it took, unless one of the
pages between the first and the last was never touched. -/
theorem pageListFree_undoes {s s' : State} {buf len id : ℕ} (hs : PagesOk s)
    (h : mapFromUser s buf len = .ok (.ok id, s')) :
    Undone s s' id ↔ ∀ vaddr ∈ wholePages buf len, (s.entry s.current vaddr).isSome = true := by
  constructor
  · rintro ⟨s₂, hs₂, -⟩ vaddr hvaddr
    by_contra hnone
    rw [Bool.not_eq_true] at hnone
    exact not_freed_of_untouched hs h hvaddr hnone ⟨s₂, hs₂⟩
  · intro hall
    obtain ⟨plh, hlookup, htaken, hholes⟩ := (returns_mapFromUser hs buf len).of_ok h id rfl
    have hnodes : ∀ n ∈ plh.ph, n.p ≠ none := by
      intro n hn hnone
      obtain ⟨vaddr, hvaddr, hfalse⟩ := hholes.1 ⟨n, hn, hnone⟩
      rw [hall vaddr hvaddr] at hfalse
      cases hfalse
    have htaken' : Taken plh.ph s { s' with plists := s'.plists.filter fun x => x.1 != id } :=
      htaken.congr rfl rfl
    obtain ⟨s₂, hs₂, hdone⟩ := htaken'.freeNodes hs hnodes
    exact ⟨s₂, (pageListFree_eq hlookup).trans hs₂, hdone.done⟩

/-- An address space of which one page was touched. -/
def touched : State :=
  { (State.boot [0x2000, 0x3000] 0) with
    spaces := fun a => if a = 0 then
      some { gapped with vaddrMap := AList.insert 0x403000 ⟨0x1000, PF_SHARED⟩ ∅ } else none
    physPages := fun p => if p = 0 then some ⟨1, 0, []⟩
      else if p = 0x1000 then some ⟨1, 0, [(0, 0x403000)]⟩ else none }

theorem pagesOk_touched : PagesOk touched where
  nodup := by decide
  dead := by decide
  pos p pg hp := by
    simp only [touched] at hp
    split_ifs at hp <;> cases hp <;> decide
  live a v pe hpe := by
    have hpage : pe.p = 0x1000 := by
      by_cases ha : a = 0
      · simp only [State.entry, touched, ha, reduceIte, Option.bind_some] at hpe
        by_cases hv : v = 0x403000
        · rw [hv, AList.lookup_insert] at hpe
          cases hpe
          rfl
        · rw [AList.lookup_insert_ne hv] at hpe
          cases hpe
      · simp [State.entry, touched, ha] at hpe
    rw [hpage]
    decide

/-- A taken page list, computed. -/
theorem mapFromUser_ok {s : State} {buf len id : ℕ}
    (h : (mapFromUser s buf len).toOption.bind (fun r => r.1.toOption) = some id) :
    ∃ s', mapFromUser s buf len = .ok (.ok id, s') := by
  rw [Option.bind_eq_some_iff] at h
  obtain ⟨⟨r, s'⟩, hr, hid⟩ := h
  refine ⟨s', ?_⟩
  cases hmap : mapFromUser s buf len with
  | error e =>
    rw [hmap] at hr
    cases hr
  | ok r' =>
    rw [hmap] at hr
    cases hr
    cases r with
    | error e => cases hid
    | ok id' =>
      cases hid
      rfl

theorem pageListFree_undoes_touched :
    ∃ s', mapFromUser touched 0x402800 0x2000 = .ok (.ok 0, s') ∧ Undone touched s' 0 := by
  obtain ⟨s', hs'⟩ : ∃ s', mapFromUser touched 0x402800 0x2000 = .ok (.ok 0, s') :=
    mapFromUser_ok (by decide +kernel)
  exact ⟨s', hs', (pageListFree_undoes pagesOk_touched hs').2 (by decide)⟩

/-- A page that was never touched, between the first and the last page of a buffer. -/
theorem pageListFree_fails :
    PagesOk touched ∧ ∃ s', mapFromUser touched 0x402800 0x2800 = .ok (.ok 0, s') ∧
      ¬∃ s₂, pageListFree s' 0 = .ok s₂ := by
  obtain ⟨s', hs'⟩ : ∃ s', mapFromUser touched 0x402800 0x2800 = .ok (.ok 0, s') :=
    mapFromUser_ok (by decide +kernel)
  exact ⟨pagesOk_touched, s', hs', not_freed_of_untouched pagesOk_touched hs'
    (show 0x404000 ∈ wholePages 0x402800 0x2800 by decide) (by decide)⟩

end SadOS.Mm
