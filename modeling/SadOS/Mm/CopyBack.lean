import SadOS.Mm.TakeBack
import SadOS.Mm.VmaList

/-!
# Copies to user memory, and what they leave alone

`copy_to_user_simple` writes to a page that nobody else sees: a fresh one, or the page of
the entry once `unshare_page` has made it private.  What was written is what
`copy_from_user_simple` reads.

## Main definitions

* `State.viewByte`, `State.readByte` — what an address space shows.
* `Lone` — sharing stays within an address space.
* `Prepared` — a user page that may be written.
* `Stored` — a part of the copy.

## Main results

* `Settled.exclusive` — a page without snapshots has no strangers.
* `Settled.stored_copyToPage` — one page.
* `copyBack_exact` — the round trip, and what does not change.
-/

namespace SadOS.Mm

/-- A byte of the page that an address space has at `v`, and zero for none. -/
def State.viewByte (s : State) (a v o : ℕ) : UInt8 := (s.entry a v).elim 0 fun pe => s.mem pe.p o

/-- The byte that an address space has at an address. -/
def State.readByte (s : State) (a addr : ℕ) : UInt8 := s.viewByte a (pageAlign addr) (addr % 4096)

/-- Two entries share a page. -/
def State.SharedOn (s : State) (o o' : ℕ × ℕ) : Prop :=
  ∃ e e', s.entry o.1 o.2 = some e ∧ s.entry o'.1 o'.2 = some e' ∧ e.p = e'.p ∧
    hasFlag e.flags PF_SHARED = true ∧ hasFlag e'.flags PF_SHARED = true

/-- The references beside the page entries: those of page lists, and those that are kept. -/
abbrev State.others (s : State) (kept : List ℕ) : List (ℕ × Kind) :=
  s.nodes ++ kept.map fun p => (p, .shared)

/-- There are no pages of hardware, and pages are shared within an address space only. -/
structure Lone (held : List (ℕ × Kind)) (s : State) : Prop where
  hardware : ∀ a v pe, s.entry a v = some pe → hasFlag pe.flags PF_HARDWARE = false
  together : ∀ o o', s.SharedOn o o' → o.1 = o'.1
  apart : ∀ a v pe, s.entry a v = some pe → hasFlag pe.flags PF_SHARED = true →
    (pe.p, Kind.shared) ∉ held

/-- Only the caller's entry at `aaddr` and those that share its page refer to the page `q`. -/
def State.OwnPage (held : List (ℕ × Kind)) (s : State) (aaddr q : ℕ) : Prop :=
  (∀ a v e, s.entry a v = some e → e.p = q →
    (a, v) = (s.current, aaddr) ∨ s.SharedOn (a, v) (s.current, aaddr)) ∧ ∀ i ∈ held, i.1 ≠ q

/-- The page `q` of the caller's entry at `aaddr` is ready from `s` to `t`, and nothing that
was there looks different. -/
structure Prepared (held : List (ℕ × Kind)) (s t : State) (aaddr q : ℕ) : Prop where
  own : ∀ a v e, t.entry a v = some e → e.p = q →
    (a, v) = (s.current, aaddr) ∨ s.SharedOn (a, v) (s.current, aaddr)
  unlisted : ∀ i ∈ held, i.1 ≠ q
  here : ∃ e, t.entry s.current aaddr = some e ∧ e.p = q
  shared : ∀ o o', o ≠ o' → t.SharedOn o o' → s.SharedOn o o'
  hardware : ∀ a v e, t.entry a v = some e → hasFlag e.flags PF_HARDWARE = true →
    ∃ e₀, s.entry a v = some e₀ ∧ hasFlag e₀.flags PF_HARDWARE = true
  apart : ∀ a v e, t.entry a v = some e → s.physPages e.p ≠ none → s.entry a v = some e
  view : ∀ a v o, t.viewByte a v o = s.viewByte a v o
  mem : ∀ p, s.physPages p ≠ none → t.mem p = s.mem p

section Prepare

variable {held : List (ℕ × Kind)} {s t : State} {aaddr q : ℕ}

theorem State.SharedOn.symm {o o' : ℕ × ℕ} (h : s.SharedOn o o') : s.SharedOn o' o := by
  obtain ⟨e, e', he, he', hp, hs, hs'⟩ := h
  exact ⟨e', e, he', he, hp.symm, hs', hs⟩

theorem State.SharedOn.trans {o o' o'' : ℕ × ℕ} (h : s.SharedOn o o') (h' : s.SharedOn o' o'') :
    s.SharedOn o o'' := by
  obtain ⟨e, e', he, he', hp, hs, -⟩ := h
  obtain ⟨f', f, hf', hf, hp', -, hs'⟩ := h'
  rw [he', Option.some.injEq] at hf'
  exact ⟨e, f, he, hf, hp.trans (hf' ▸ hp'), hs, hs'⟩

/-- The page was ready before. -/
theorem Prepared.of_same {e : PageEntry} (he : s.entry s.current aaddr = some e)
    (hown : s.OwnPage held aaddr e.p) (hentry : t.entry = s.entry) (hmem : t.mem = s.mem) :
    Prepared held s t aaddr e.p where
  own a v e₀ he₀ hp := hown.1 a v e₀ (by rw [← hentry, he₀]) hp
  unlisted := hown.2
  here := ⟨e, by rw [hentry, he], rfl⟩
  shared o o' _ h := by
    rw [State.SharedOn, hentry] at h
    exact h
  hardware a v e₀ he₀ hhw := ⟨e₀, by rw [← hentry, he₀], hhw⟩
  apart a v e₀ he₀ _ := by rw [← hentry, he₀]
  view a v o := by rw [State.viewByte, State.viewByte, hentry, hmem]
  mem p _ := by rw [hmem]

/-- The page is a new one. -/
theorem Prepared.of_new (hheld : ∀ i ∈ held, ∃ pg, s.physPages i.1 = some pg)
    (hdead : s.physPages q = none) (hhere : ∃ e, t.entry s.current aaddr = some e ∧ e.p = q)
    (hold : ∀ a v e, t.entry a v = some e → e.p ≠ q → s.entry a v = some e)
    (hnew : ∀ a v e, t.entry a v = some e → e.p = q → hasFlag e.flags PF_HARDWARE = false ∧
      ((a, v) = (s.current, aaddr) ∨ s.SharedOn (a, v) (s.current, aaddr)))
    (hview : ∀ a v o, t.viewByte a v o = s.viewByte a v o)
    (hmem : ∀ p ≠ q, t.mem p = s.mem p) : Prepared held s t aaddr q where
  own a v e he hq := (hnew a v e he hq).2
  unlisted i hi hq := by
    obtain ⟨pg, hp⟩ := hheld i hi
    rw [hq, hdead] at hp
    cases hp
  here := hhere
  shared := by
    rintro ⟨a, v⟩ ⟨a', v'⟩ hne ⟨e, e', he, he', hp, hs, hs'⟩
    by_cases hq : e.p = q
    · obtain ⟨-, h | h⟩ := hnew a v e he hq <;>
        obtain ⟨-, h' | h'⟩ := hnew a' v' e' he' (hp ▸ hq)
      · exact absurd (h.trans h'.symm) hne
      · exact h ▸ h'.symm
      · exact h' ▸ h
      · exact h.trans h'.symm
    · exact ⟨e, e', hold a v e he hq, hold a' v' e' he' (hp ▸ hq), hp, hs, hs'⟩
  hardware a v e he hhw := by
    by_cases hq : e.p = q
    · rw [(hnew a v e he hq).1] at hhw
      cases hhw
    · exact ⟨e, hold a v e he hq, hhw⟩
  apart a v e he hne := hold a v e he fun hq => hne (hq ▸ hdead)
  view := hview
  mem p hp := hmem p fun hq => hp (hq ▸ hdead)

theorem Prepared.lone (h : Prepared held s t aaddr q) (hs : Lone held s)
    (hheld : ∀ i ∈ held, ∃ pg, s.physPages i.1 = some pg) : Lone held t where
  hardware a v e he := by
    by_contra hhw
    obtain ⟨e₀, he₀, hhw₀⟩ := h.hardware a v e he (by simpa using hhw)
    rw [hs.hardware a v e₀ he₀] at hhw₀
    cases hhw₀
  together o o' hon := by
    by_cases heq : o = o'
    · rw [heq]
    · exact hs.together o o' (h.shared o o' heq hon)
  apart a v e he hsh hmem := by
    obtain ⟨pg, hp⟩ := hheld _ hmem
    dsimp only at hp
    exact hs.apart a v e (h.apart a v e he (by rw [hp]; exact Option.some_ne_none pg)) hsh hmem

end Prepare

/-! ## Who refers to a page -/

section Exclusive

variable {stale canon : Prop} {held : List (ℕ × Kind)} {s : State} {aaddr : ℕ} {pe : PageEntry}
  {pg : Page}

/-- A page with one reference. -/
theorem Sound.ownPage_of_one (h : Sound stale canon held s)
    (hpe : s.entry s.current aaddr = some pe) (hp : s.physPages pe.p = some pg)
    (hone : pg.refCount = 1) : s.OwnPage held aaddr pe.p := by
  have hrefs := (h.linked.counted _ pg hp).refs
  have hmem : (s.current, aaddr) ∈ pg.owner := (h.linked.mem_owner_iff hp _).2 ⟨pe, hpe, rfl⟩
  have hlen := List.length_pos_of_mem hmem
  have howner : pg.owner = [(s.current, aaddr)] := by
    obtain ⟨o, ho⟩ := List.length_eq_one_iff.1 (by omega : pg.owner.length = 1)
    rw [ho, List.mem_singleton] at hmem
    rw [ho, hmem]
  have hnone : refsOn held pe.p = 0 := by omega
  refine ⟨fun a v e he hq => .inl ?_, fun i hi hq => ?_⟩
  · have hav : (a, v) ∈ pg.owner := (h.linked.mem_owner_iff hp _).2 ⟨e, he, hq⟩
    rwa [howner, List.mem_singleton] at hav
  · rw [refsOn, List.countP_eq_zero] at hnone
    exact hnone i hi (by simpa using hq)

/-- A page without snapshots, or with one reference. -/
theorem Sound.ownPage (h : Sound stale canon held s) (hlone : Lone held s)
    (hpe : s.entry s.current aaddr = some pe) (hp : s.physPages pe.p = some pg)
    (hfree : pg.snapCount = 0 ∨ pg.refCount = 1) : s.OwnPage held aaddr pe.p := by
  by_cases hone : pg.refCount = 1
  · exact h.ownPage_of_one hpe hp hone
  have h0 := hfree.resolve_right hone
  have hc := h.linked.counted _ pg hp
  have hsnaps : snapsOn held s.entry pe.p pg.owner = 0 := by
    rcases hc.snaps with hsnaps | ⟨-, hsnaps, hrefs⟩
    · omega
    · rw [h0, wdec] at hsnaps
      rw [h.count_spent] at hrefs
      split at hsnaps
      · cases hsnaps
      · omega
  rw [snapsOn, Nat.add_eq_zero_iff, List.countP_eq_zero, List.count_eq_zero] at hsnaps
  have hshared : ∀ a v e, s.entry a v = some e → e.p = pe.p → hasFlag e.flags PF_SHARED = true := by
    intro a v e he hq
    have hsnap := hsnaps.1 (a, v) ((h.linked.mem_owner_iff hp _).2 ⟨e, he, hq⟩)
    simp only [isSnap, he, Option.any_some, Bool.not_eq_true] at hsnap
    simpa [hsnap, hlone.hardware a v e he] using (h.linked.flags a v e he).one
  have hpeshared := hshared _ _ pe hpe rfl
  refine ⟨fun a v e he hq => .inr ⟨e, pe, he, hpe, hq, hshared a v e he hq, hpeshared⟩, ?_⟩
  rintro ⟨p, k⟩ hi hq
  dsimp only at hq
  subst hq
  cases k with
  | shared => exact hlone.apart _ _ pe hpe hpeshared hi
  | snap => exact hsnaps.2 hi
  | spent => exact h.spent _ hi rfl

end Exclusive

/-! ## The page of a copy -/

section UserPage

variable {stale canon : Prop} {held : List (ℕ × Kind)} {s t : State} {aaddr q : ℕ} {pe : PageEntry}
  {pg : Page}

/-- No entry is on a page without a record. -/
theorem Sound.ne_of_dead (h : Sound stale canon held s) {page : ℕ} (hdead : s.physPages page = none)
    (a v : ℕ) (e : PageEntry) (he : s.entry a v = some e) : e.p ≠ page := by
  rintro rfl
  obtain ⟨pg, hp⟩ := h.page_of_entry he List.not_mem_nil
  rw [hdead] at hp
  cases hp

/-- A page that is mapped in a VMA for the copy. -/
theorem Sound.prepared_fresh (h : Sound stale canon held s) (hnone : s.entry s.current aaddr = none)
    (hal : isAligned aaddr = true) {sp : AddressSpace} (hsp : s.spaces s.current = some sp)
    {w : VmArea} (hw : vmaFindByVaddr aaddr sp.vma = some w)
    (hrun : userPage s aaddr = .ok (q, t)) :
    Prepared held s t aaddr q := by
  refine Safely.of_ok (Q := fun r => Prepared held s r.2 aaddr r.1) (H := fun _ => True) ?_ hrun
  rw [userPage, hnone]
  simp only [safely_bind]
  refine (returns_getPage s).mono ?_
  rintro ⟨page, s₁⟩ ⟨hfree, hs₁⟩
  dsimp only at hfree hs₁ ⊢
  have hdead : s.physPages page = none := h.linked.free_dead page (hfree ▸ List.mem_cons_self)
  have hdead₁ : (s₁.setMem page fun _ => 0).physPages page = none := by
    rw [hs₁]
    exact hdead
  refine (returns_managePhysPage hdead₁).mono ?_
  rintro s₂ ⟨-, hs₂⟩
  have hent₂ : s₂.entry = s.entry := by rw [hs₂, hs₁]; rfl
  have hcur₂ : s₂.current = s.current := by rw [hs₂, hs₁]; rfl
  have hsp₂ : s₂.spaces s₂.current = some sp := by rw [hcur₂, hs₂, hs₁]; exact hsp
  have hmem₂ : s₂.mem = Function.update s.mem page fun _ => 0 := by rw [hs₂, hs₁]; rfl
  rw [assignPage_eq (by simpa [isAligned] using hal) hsp₂ hw, safely_bind]
  refine (effect_assignPageNoAddrCheck s₂ _ page aaddr w.id PF_SHARED).mono ?_
  rintro s₃ ⟨s₂', hclear, hassign⟩
  obtain rfl : s₂' = s₂ := by
    rcases hclear with ⟨⟨pe, hpe⟩, -⟩ | ⟨-, rfl⟩
    · rw [hent₂, hcur₂, hnone] at hpe
      cases hpe
    · rfl
  have hent₃ : s₃.entry = updEnt s.entry s.current aaddr (some ⟨page, PF_SHARED⟩) := by
    rw [hassign.entry, hent₂, hcur₂]
  have hmem₃ : s₃.mem = s₂'.mem := by
    obtain ⟨_, _, hq⟩ := hassign
    exact hq.mem
  refine (quiet_pageUnref s₃ page false).mono fun s₄ h₄ => ?_
  have hent₄ := h₄.entry.trans hent₃
  have hmem₄ := (h₄.mem.trans hmem₃).trans hmem₂
  have hlive := h.ne_of_dead hdead
  -- the new entry is the only one on the page
  have hcases : ∀ a v, (a, v) = (s.current, aaddr) ∧ s₄.entry a v = some ⟨page, PF_SHARED⟩ ∨
      (a, v) ≠ (s.current, aaddr) ∧ s₄.entry a v = s.entry a v := by
    intro a v
    rw [hent₄, updEnt_apply]
    split
    · rename_i heq
      exact .inl ⟨heq, rfl⟩
    · rename_i hne
      exact .inr ⟨hne, rfl⟩
  refine Prepared.of_new h.linked.held_live hdead ⟨⟨page, PF_SHARED⟩, ?_, rfl⟩ ?_ ?_ ?_ ?_
  · rw [hent₄, updEnt_self]
  · intro a v e he hne
    rcases hcases a v with ⟨-, hnew⟩ | ⟨-, hold⟩
    · rw [he, Option.some.injEq] at hnew
      exact absurd (congrArg PageEntry.p hnew) hne
    · rw [← hold, he]
  · intro a v e he hq
    rcases hcases a v with ⟨hav, hnew⟩ | ⟨-, hold⟩
    · rw [he, Option.some.injEq] at hnew
      exact ⟨hnew ▸ show hasFlag PF_SHARED PF_HARDWARE = false by decide, .inl hav⟩
    · exact absurd hq (hlive a v e (hold ▸ he))
  · intro a v o
    rw [State.viewByte, State.viewByte, hmem₄]
    rcases hcases a v with ⟨hav, hnew⟩ | ⟨-, hold⟩
    · rw [Prod.mk.injEq] at hav
      rw [hnew, hav.1, hav.2, hnone, Option.elim_some, Function.update_self, Option.elim_none]
    · rw [hold]
      cases he : s.entry a v with
      | none => rfl
      | some e => rw [Option.elim_some, Option.elim_some, Function.update_of_ne (hlive a v e he)]
  · intro p hp
    rw [hmem₄, Function.update_of_ne hp]

/-- `unshare_page` of a page with snapshots. -/
theorem unsharePage_eq (hpe : s.entry s.current aaddr = some pe)
    (hhw : hasFlag pe.flags PF_HARDWARE = false) (hp : s.physPages pe.p = some pg)
    (h0 : pg.snapCount ≠ 0) : unsharePage s s.current aaddr =
      if pg.snapCount = pg.refCount ∧ pg.refCount = 1 then
        .ok (unmap (s.setPage pe.p (some { pg with snapCount := 0 })) aaddr)
      else unshareCopy (disableInterrupts s) s.current aaddr pe := by
  have hp' : (disableInterrupts s).physPages pe.p = some pg := hp
  rw [unsharePage, getEntry_eq hpe, ok_bind, if_neg (not_not.2 rfl)]
  dsimp only
  rw [hhw, if_neg Bool.false_ne_true, getPageRec_eq hp', ok_bind, if_neg h0]
  rfl

/-- A page that the caller gets in place of one with snapshots. -/
theorem Sound.prepared_copied (h : Sound stale canon held s) (hlone : Lone held s)
    (hpe : s.entry s.current aaddr = some pe) (hp : s.physPages pe.p = some pg)
    (hcopied : Consistent.Copied s.current aaddr pe pg s t) :
    ∃ e, t.entry s.current aaddr = some e ∧ Prepared held s t aaddr e.p := by
  obtain ⟨hhw, page, hdead, hmem, hent⟩ := hcopied
  have hlive := h.ne_of_dead hdead
  -- an entry moves along with the caller's, or stays
  have hcases : ∀ a v, ((a, v) = (s.current, aaddr) ∨ s.SharedOn (a, v) (s.current, aaddr)) ∧
      (∃ e₀ e, s.entry a v = some e₀ ∧ e₀.p = pe.p ∧ t.entry a v = some e ∧ e.p = page ∧
        hasFlag e.flags PF_HARDWARE = false) ∨
      (a, v) ≠ (s.current, aaddr) ∧ t.entry a v = s.entry a v := by
    intro a v
    rw [hent, Consistent.movedEntries]
    split
    · rename_i hshared
      by_cases hav : (a, v) ∈ pg.owner
      · obtain ⟨e₀, he₀, hq⟩ := (h.linked.mem_owner_iff hp _).1 hav
        rw [retarget_mem hav, he₀, Option.map_some, PageEntry.retarget]
        split
        · rename_i hs₀
          exact .inl ⟨.inr ⟨e₀, pe, he₀, hpe, hq, hs₀, hshared⟩, e₀, _, rfl, hq, rfl, rfl,
            hlone.hardware a v e₀ he₀⟩
        · rename_i hs₀
          refine .inr ⟨?_, rfl⟩
          intro heq
          rw [Prod.mk.injEq] at heq
          rw [heq.1, heq.2, hpe, Option.some.injEq] at he₀
          exact hs₀ (he₀ ▸ hshared)
      · refine .inr ⟨?_, retarget_not_mem hav page s.entry⟩
        intro heq
        exact hav (heq ▸ (h.linked.mem_owner_iff hp _).2 ⟨pe, hpe, rfl⟩)
    · rw [updEnt_apply]
      split
      · rename_i heq
        refine .inl ⟨.inl heq, pe, _, ?_, rfl, rfl, rfl,
          show hasFlag PF_SHARED PF_HARDWARE = false by decide⟩
        rw [Prod.mk.injEq] at heq
        rw [heq.1, heq.2, hpe]
      · rename_i hne
        exact .inr ⟨hne, rfl⟩
  obtain ⟨e, he, hq⟩ : ∃ e, t.entry s.current aaddr = some e ∧ e.p = page := by
    rcases hcases s.current aaddr with ⟨-, -, e, -, -, he, hq, -⟩ | ⟨hne, -⟩
    · exact ⟨e, he, hq⟩
    · exact absurd rfl hne
  refine ⟨e, he, hq ▸ Prepared.of_new h.linked.held_live hdead ⟨e, he, hq⟩ ?_ ?_ ?_ ?_⟩
  · intro a v e he hne
    rcases hcases a v with ⟨-, -, e', -, -, he', hq', -⟩ | ⟨-, hold⟩
    · rw [he, Option.some.injEq] at he'
      exact absurd (he' ▸ hq') hne
    · rw [← hold, he]
  · intro a v e he hq
    rcases hcases a v with ⟨hav, -, e', -, -, he', -, hhw'⟩ | ⟨-, hold⟩
    · rw [he, Option.some.injEq] at he'
      exact ⟨he' ▸ hhw', hav⟩
    · exact absurd hq (hlive a v e (hold ▸ he))
  · intro a v o
    rw [State.viewByte, State.viewByte, hmem]
    rcases hcases a v with ⟨-, e₀, e', he₀, hq₀, he', hq', -⟩ | ⟨-, hold⟩
    · rw [he₀, he', Option.elim_some, Option.elim_some, hq', hq₀, Function.update_self]
    · rw [hold]
      cases he : s.entry a v with
      | none => rfl
      | some e => rw [Option.elim_some, Option.elim_some, Function.update_of_ne (hlive a v e he)]
  · intro p hp
    rw [hmem, Function.update_of_ne hp]

/-- A user page once `copy_to_user_simple` has it. -/
theorem Sound.prepared_userPage (h : Sound stale canon held s) (hlone : Lone held s)
    (hin : s.entry s.current aaddr = none → isAligned aaddr = true ∧
      ∃ sp vma, s.spaces s.current = some sp ∧ vmaFindByVaddr aaddr sp.vma = some vma)
    (hrun : userPage s aaddr = .ok (q, t)) : Prepared held s t aaddr q := by
  cases hpe : s.entry s.current aaddr with
  | none =>
    obtain ⟨hal, sp, w, hsp, hw⟩ := hin hpe
    exact h.prepared_fresh hpe hal hsp hw hrun
  | some pe =>
    obtain ⟨pg, hp⟩ := h.page_of_entry hpe List.not_mem_nil
    rw [userPage, hpe] at hrun
    dsimp only at hrun
    rw [getPageRec_eq hp, ok_bind, bind_eq_ok] at hrun
    obtain ⟨s₁, hs₁, hrun⟩ := hrun
    -- the result is the page that the entry has now
    have hresult : ∀ e, s₁.entry s.current aaddr = some e → s₁.current = s.current →
        q = e.p ∧ t = s₁ := by
      intro e he hcur
      rw [getEntry_eq (hcur ▸ he), ok_bind] at hrun
      cases hrun
      exact ⟨rfl, rfl⟩
    by_cases h0 : pg.snapCount = 0
    · rw [if_neg (by omega)] at hs₁
      cases hs₁
      obtain ⟨rfl, rfl⟩ := hresult pe hpe rfl
      exact Prepared.of_same hpe (h.ownPage hlone hpe hp (.inl h0)) rfl rfl
    rw [if_pos (by omega)] at hs₁
    have hcur₁ : s₁.current = s.current := ((retag_unsharePage hpe hp h0).of_ok hs₁).current
    have hhw := hlone.hardware _ _ pe hpe
    rw [unsharePage_eq hpe hhw hp h0] at hs₁
    split at hs₁
    · rename_i hsole
      cases hs₁
      obtain ⟨rfl, rfl⟩ := hresult pe hpe rfl
      exact Prepared.of_same hpe (h.ownPage_of_one hpe hp hsole.2) rfl rfl
    · have hoff : Consistent stale canon [] held (disableInterrupts s) := ⟨h.linked, h.mapped⟩
      have hcopied := ((hoff.unshareCopy hpe rfl hhw hp).of_ok hs₁).2
      obtain ⟨e, he, hprepared⟩ := h.prepared_copied hlone hpe hp hcopied
      obtain ⟨rfl, rfl⟩ := hresult e he hcur₁
      exact hprepared

/-- The page that no VMA takes is back in the allocator when the copy comes to it. -/
theorem Sound.found_of_copyToPage (h : Sound stale canon held s)
    (hnone : s.entry s.current aaddr = none) (hal : isAligned aaddr = true) {off len : ℕ}
    {bytes : ℕ → UInt8} (hrun : copyToPage s aaddr off len bytes = .ok t) :
    ∃ sp vma, s.spaces s.current = some sp ∧ vmaFindByVaddr aaddr sp.vma = some vma := by
  by_contra hlost
  refine Safely.of_ok (Q := fun _ => False) (H := fun _ => True) ?_ hrun
  rw [copyToPage, userPage, hnone]
  simp only [safely_bind]
  refine (returns_getPage s).mono ?_
  rintro ⟨page, s₁⟩ ⟨hfree, hs₁⟩
  dsimp only at hfree hs₁ ⊢
  have hdead₁ : (s₁.setMem page fun _ => 0).physPages page = none := by
    rw [hs₁]
    exact h.linked.free_dead page (hfree ▸ List.mem_cons_self)
  refine (returns_managePhysPage hdead₁).mono ?_
  rintro s₂ ⟨-, hs₂⟩
  have hp₂ : s₂.physPages page = some ⟨1, 0, []⟩ := by rw [hs₂]; exact Function.update_self ..
  rw [Mm.assignPage, hal, Bool.not_true, if_neg Bool.false_ne_true]
  dsimp only
  cases hsp : s₂.spaces s₂.current with
  | none =>
    have hsp' : (disableInterrupts s₂).getSpace s₂.current = .error .badPointer := by
      simp [State.getSpace, disableInterrupts, hsp]
    rw [hsp']
    trivial
  | some sp =>
    have hsp' : (disableInterrupts s₂).spaces s₂.current = some sp := hsp
    have hnot : vmaFindByVaddr aaddr sp.vma = none := by
      rw [hs₂, hs₁] at hsp
      exact Option.eq_none_iff_forall_ne_some.2 fun w hw => hlost ⟨sp, w, hsp, hw⟩
    rw [getSpace_eq hsp', ok_bind, enableInterrupts_disable, ok_bind, hnot]
    dsimp only
    rw [pure_eq_ok, safely_ok, Mm.pageUnref, getPageRec_eq hp₂, ok_bind]
    dsimp only
    rw [if_pos (show wdec 1 = 0 by decide), if_neg Bool.false_ne_true]
    have hgone : Returns (fun s₃ => s₃.physPages page = none)
        (dropPage (s₂.setPage page none) page) := by
      rw [dropPage]
      split
      · exact Function.update_self ..
      · trivial
    refine hgone.mono fun s₃ hs₃ => ?_
    rw [pure_eq_ok, safely_ok]
    dsimp only
    rw [State.memcpy, State.getPageRec, hs₃]
    trivial

end UserPage

/-! ## A part of the copy -/

/-- The caller sees `bytes` at `off` in the page at `aaddr`, and so do the entries that share
its page; nothing else looks different. -/
structure Stored (held : List (ℕ × Kind)) (s t : State) (aaddr off len : ℕ) (bytes : ℕ → UInt8) :
    Prop where
  shared : ∀ o o', o ≠ o' → t.SharedOn o o' → s.SharedOn o o'
  written : ∀ o, off ≤ o → o < off + len → t.viewByte s.current aaddr o = bytes (o - off)
  rest : ∀ a v o, ¬(off ≤ o ∧ o < off + len ∧
      ((a, v) = (s.current, aaddr) ∨ s.SharedOn (a, v) (s.current, aaddr))) →
    t.viewByte a v o = s.viewByte a v o
  listed : ∀ i ∈ held, t.mem i.1 = s.mem i.1

section Store

variable {stale canon : Prop} {held : List (ℕ × Kind)} {kept : List ℕ} {s t : State} {aaddr q : ℕ}

theorem mem_write (s : State) (p off len : ℕ) (bytes : ℕ → UInt8) :
    (s.write p off len bytes).mem = Function.update s.mem p fun o =>
      if off ≤ o ∧ o < off + len then bytes (o - off) else s.mem p o := rfl

theorem Prepared.stored (h : Prepared held s t aaddr q)
    (hheld : ∀ i ∈ held, ∃ pg, s.physPages i.1 = some pg) (off len : ℕ) (bytes : ℕ → UInt8) :
    Stored held s (t.write q off len bytes) aaddr off len bytes where
  shared := h.shared
  written o ho ho' := by
    obtain ⟨e, he, hq⟩ := h.here
    have he' : (t.write q off len bytes).entry s.current aaddr = some e := he
    rw [State.viewByte, he', Option.elim_some, hq, mem_write, Function.update_self,
      if_pos ⟨ho, ho'⟩]
  rest a v o hout := by
    rw [← h.view a v o]
    have hsame : (t.write q off len bytes).entry a v = t.entry a v := rfl
    rw [State.viewByte, State.viewByte, hsame]
    cases he : t.entry a v with
    | none => rfl
    | some e =>
      rw [Option.elim_some, Option.elim_some, mem_write]
      by_cases hq : e.p = q
      · rw [hq, Function.update_self, if_neg]
        exact fun hin => hout ⟨hin.1, hin.2, h.own a v e he hq⟩
      · rw [Function.update_of_ne hq]
  listed i hi := by
    obtain ⟨pg, hp⟩ := hheld i hi
    rw [mem_write, Function.update_of_ne (h.unlisted i hi)]
    exact h.mem i.1 (by rw [hp]; exact Option.some_ne_none pg)

/-- Stale counts do no harm here. -/
theorem Settled.allowStale (h : Settled stale canon kept s) : Settled True canon kept s where
  sound :=
    { h.sound with
      linked :=
        { h.sound.linked with
          counted := fun p pg hp =>
            { h.sound.linked.counted p pg hp with
              snaps := (h.sound.linked.counted p pg hp).snaps.imp_right
                (And.imp_left fun _ => trivial) } } }
  plist_nodup := h.plist_nodup
  plist_lt := h.plist_lt
  zero := h.zero

/-- `copy_to_user_simple` on one page. -/
theorem Settled.stored_copyToPage (h : Settled True canon kept s) (hlone : Lone (s.others kept) s)
    (hal : isAligned aaddr = true) {off len : ℕ} {bytes : ℕ → UInt8}
    (hrun : Mm.copyToPage s aaddr off len bytes = .ok t) :
    Settled True canon kept t ∧ Frame s t ∧ Lone (t.others kept) t ∧
      Stored (s.others kept) s t aaddr off len bytes := by
  have hin : s.entry s.current aaddr = none → isAligned aaddr = true ∧
      ∃ sp vma, s.spaces s.current = some sp ∧ vmaFindByVaddr aaddr sp.vma = some vma :=
    fun hnone => ⟨hal, h.sound.found_of_copyToPage hnone hal hrun⟩
  obtain ⟨ht, hframe, -⟩ := (h.copyToPage ⟨fun _ _ _ _ _ _ => trivial, hin⟩ off len
    bytes).of_ok hrun
  have hheld : t.others kept = s.others kept := by
    rw [State.others, State.others, State.nodes, State.nodes, hframe.plists]
  rw [Mm.copyToPage, bind_eq_ok] at hrun
  obtain ⟨⟨q, s₁⟩, hpage, hrun⟩ := hrun
  dsimp only at hrun
  rw [State.memcpy, bind_eq_ok] at hrun
  obtain ⟨_, -, hrun⟩ := hrun
  cases hrun
  have hprepared := h.sound.prepared_userPage hlone hin hpage
  have hlone' := hprepared.lone hlone h.sound.linked.held_live
  rw [hheld]
  exact ⟨ht, hframe, ⟨hlone'.hardware, hlone'.together, hlone'.apart⟩,
    hprepared.stored h.sound.linked.held_live off len bytes⟩

/-- Nothing is stored. -/
theorem Stored.refl (held : List (ℕ × Kind)) (s : State) (aaddr off : ℕ) (bytes : ℕ → UInt8) :
    Stored held s s aaddr off 0 bytes where
  shared _ _ _ h := h
  written o ho ho' := absurd ho (by omega)
  rest _ _ _ _ := rfl
  listed _ _ := rfl

/-- Two parts, the second of which ends before the first begins. -/
theorem Stored.then {s₁ : State} {a₁ a₂ off len left : ℕ} {bytes bytes' : ℕ → UInt8}
    (h : Stored held s s₁ a₁ off len bytes) (h' : Stored held s₁ t a₂ 0 left bytes')
    (hcur : s₁.current = s.current) (hle : left ≤ off) :
    (∀ i < len, t.viewByte s.current a₁ (off + i) = bytes i) ∧
      (∀ i < left, t.viewByte s.current a₂ i = bytes' i) ∧
      (∀ a v o,
        ¬(off ≤ o ∧ o < off + len ∧
          ((a, v) = (s.current, a₁) ∨ s.SharedOn (a, v) (s.current, a₁))) →
        ¬(o < left ∧ ((a, v) = (s.current, a₂) ∨ s.SharedOn (a, v) (s.current, a₂))) →
        t.viewByte a v o = s.viewByte a v o) ∧
      ∀ i ∈ held, t.mem i.1 = s.mem i.1 := by
  refine ⟨fun i hi => ?_, fun i hi => ?_, fun a v o hout hout' => ?_, fun i hi => ?_⟩
  · rw [h'.rest _ _ _ (by omega), h.written _ (by omega) (by omega), Nat.add_sub_cancel_left]
  · rw [← hcur, h'.written i (Nat.zero_le i) (by omega), Nat.sub_zero]
  · rw [h'.rest, h.rest a v o hout]
    rintro ⟨-, ho, hav⟩
    rw [hcur] at hav
    refine hout' ⟨by omega, ?_⟩
    by_cases heq : (a, v) = (s.current, a₂)
    · exact .inl heq
    · exact .inr (h.shared _ _ heq (hav.resolve_left heq))
  · rw [h'.listed i hi, h.listed i hi]

end Store

/-! ## The test of the range -/

section Shape

variable {l l' : List VmArea}

theorem vmasFrom_of_shape (addr : ℕ) (h : l'.map VmArea.shape = l.map VmArea.shape) :
    (vmasFrom addr l').map VmArea.shape = (vmasFrom addr l).map VmArea.shape := by
  induction l generalizing l' with
  | nil =>
    rw [List.map_nil, List.map_eq_nil_iff] at h
    rw [h]
  | cons v rest ih =>
    cases l' with
    | nil => cases h
    | cons v' rest' =>
      have hall := h
      rw [List.map_cons, List.map_cons, List.cons.injEq] at h
      have hv := h.1
      simp only [VmArea.shape, Prod.mk.injEq] at hv
      simp only [vmasFrom, hv]
      split
      · rfl
      · split
        · exact hall
        · exact ih h.2

theorem validateRangeFrom_of_shape (base len : ℕ) (h : l'.map VmArea.shape = l.map VmArea.shape) :
    validateRangeFrom base len l' = validateRangeFrom base len l := by
  induction l generalizing l' base len with
  | nil =>
    rw [List.map_nil, List.map_eq_nil_iff] at h
    rw [h]
  | cons v rest ih =>
    cases l' with
    | nil => cases h
    | cons v' rest' =>
      rw [List.map_cons, List.map_cons, List.cons.injEq] at h
      have hv := h.1
      simp only [VmArea.shape, Prod.mk.injEq] at hv
      simp only [validateRangeFrom, hv, ih _ _ h.2]

/-- The test depends on the bounds of the VMAs only. -/
theorem validateRange_of_frame {s s' : State} (h : Frame s s') (base len : ℕ) :
    validateRange s' base len = validateRange s base len := by
  rw [validateRange, validateRange, State.getSpace, State.getSpace, h.current]
  cases hsp : s.spaces s.current with
  | none =>
    have hshape := h.shape s.current
    rw [hsp, Option.map_none, Option.map_eq_none_iff] at hshape
    rw [hshape]
  | some sp =>
    obtain ⟨sp', hsp', hshape⟩ := h.space hsp
    simp only [AddressSpace.shape, Prod.mk.injEq] at hshape
    rw [hsp', ok_bind, ok_bind, validateRangeFrom_of_shape _ _ (vmasFrom_of_shape base hshape.1)]

end Shape

/-! ## Both copies -/

/-- What a copy of `src` to the caller's address `buf` does: it can be read back, and what is
not written, also through an entry that shares the page, reads as before. -/
structure CopiedTo (s t : State) (src : ℕ → UInt8) (buf len : ℕ) : Prop where
  back : ∃ dst t', copyFromUserSimple t buf len = .ok ((0, dst), t') ∧ ∀ i < len, dst i = src i
  rest : ∀ addr, ¬(buf ≤ addr ∧ addr < buf + len) →
    (∀ b, buf ≤ b → b < buf + len → pageAlign addr ≠ pageAlign b →
      ¬s.SharedOn (s.current, pageAlign addr) (s.current, pageAlign b)) →
    t.readByte s.current addr = s.readByte s.current addr
  apart : ∀ a ≠ s.current, ∀ addr, t.readByte a addr = s.readByte a addr
  lists : t.plists = s.plists ∧ ∀ x ∈ s.plists, ∀ n ∈ x.2.ph, ∀ p, n.p = some p → t.mem p = s.mem p
  zero : t.mem s.zeroPage = s.mem s.zeroPage

/-- The length of the first part of a copy. -/
def firstPart (buf len : ℕ) : ℕ :=
  if pageAlign buf + 4096 < buf + len then pageAlign buf + 4096 - buf else len

section Copy

variable {stale canon : Prop} {kept : List ℕ} {s t : State} {src : ℕ → UInt8} {buf len : ℕ}

theorem kernelByte_eq (s : State) (v o : ℕ) : s.kernelByte v o = s.viewByte s.current v o := by
  rw [State.kernelByte, State.viewByte]
  cases s.entry s.current v <;> rfl

theorem firstPart_spec (buf : ℕ) (hlen : len ≤ 4096) :
    firstPart buf len ≤ len ∧ buf - pageAlign buf + firstPart buf len ≤ 4096 ∧
      len - firstPart buf len ≤ buf - pageAlign buf ∧
      (firstPart buf len < len → buf + firstPart buf len = pageAlign buf + 4096) ∧
      (0 < len → 0 < firstPart buf len) := by
  rw [firstPart, pageAlign]
  by_cases h : buf - buf % 4096 + 4096 < buf + len
  · rw [if_pos h]
    omega
  · rw [if_neg h]
    omega

theorem pageAlign_bounds (x : ℕ) : pageAlign x ≤ x ∧ x < pageAlign x + 4096 := by
  rw [pageAlign]
  omega

/-- The bounds of the parts, as the source computes them. -/
theorem firstPart_eq (hbuf : buf < USER_TOP) (hlen : len ≤ 4096) :
    wadd (pageAlign buf) 4096 = pageAlign buf + 4096 ∧ wadd buf len = buf + len ∧
      (if pageAlign buf + 4096 < buf + len then wsub (pageAlign buf + 4096) buf else len) =
        firstPart buf len := by
  have htop : USER_TOP = 0x7ffffffffffff000 := rfl
  have haddr := pageAlign_bounds buf
  refine ⟨wadd_eq (by omega), wadd_eq (by omega), ?_⟩
  rw [firstPart]
  split
  · exact wsub_eq (by omega) (by omega)
  · rfl

/-- A copy returns an error exactly where the test of the range does. -/
theorem copyToUserSimple_fails_iff (hlen : len ≤ 4096) :
    (∃ src ret t, copyToUserSimple s src buf len = .ok (ret, t) ∧ ret ≠ 0) ↔
      validateRange s buf len = .ok false := by
  have hsame : validateRange (disableInterrupts s) buf len = validateRange s buf len := rfl
  constructor
  · rintro ⟨src, ret, t, hrun, hret⟩
    rw [copyToUserSimple, if_neg (not_lt.2 hlen)] at hrun
    dsimp only at hrun
    rw [hsame, bind_eq_ok] at hrun
    obtain ⟨ok, hok, hrun⟩ := hrun
    cases ok with
    | false => exact hok
    | true =>
      rw [if_neg (by simp)] at hrun
      simp only [bind_eq_ok, pure_eq_ok, Except.ok.injEq, Prod.mk.injEq] at hrun
      obtain ⟨s₁, -, s₂, -, s₃, -, hzero, -⟩ := hrun
      exact absurd hzero.symm hret
  · intro hbad
    refine ⟨fun _ => 0, -1, s, ?_, by decide⟩
    rw [copyToUserSimple, if_neg (not_lt.2 hlen)]
    dsimp only
    rw [hsame, hbad, ok_bind, if_pos (by simp), enableInterrupts_eq (s := s) rfl,
      ok_bind, pure_eq_ok]
    rfl

/-- The parts of a copy that succeeds. -/
theorem copyToUserSimple_parts (hbuf : buf < USER_TOP)
    (hrun : copyToUserSimple s src buf len = .ok (0, t)) :
    len ≤ 4096 ∧ validateRange s buf len = .ok true ∧ ∃ s₁ s₂,
      copyToPage (disableInterrupts s) (pageAlign buf) (buf - pageAlign buf)
        (firstPart buf len) src = .ok s₁ ∧
      (firstPart buf len = len ∧ s₂ = s₁ ∨ firstPart buf len < len ∧
        copyToPage s₁ (pageAlign buf + 4096) 0 (len - firstPart buf len)
          (fun i => src (firstPart buf len + i)) = .ok s₂) ∧
      enableInterrupts s₂ = .ok t := by
  have htop : USER_TOP = 0x7ffffffffffff000 := rfl
  rw [copyToUserSimple] at hrun
  split at hrun
  · cases hrun
  rename_i hlen
  dsimp only at hrun
  rw [bind_eq_ok] at hrun
  obtain ⟨ok, hok, hrun⟩ := hrun
  cases ok with
  | false =>
    simp only [Bool.not_false, reduceIte] at hrun
    rw [bind_eq_ok] at hrun
    obtain ⟨s', -, hrun⟩ := hrun
    cases hrun
  | true =>
    have haddr := pageAlign_bounds buf
    obtain ⟨hw, hw', hfirst⟩ := firstPart_eq hbuf (not_lt.1 hlen)
    have hleft : (if pageAlign buf + 4096 < buf + len then
        wsub (buf + len) (pageAlign buf + 4096) else 0) = len - firstPart buf len := by
      rw [firstPart]
      split
      · rw [wsub_eq (by omega) (by omega)]
        omega
      · omega
    have hle := (firstPart_spec buf (not_lt.1 hlen)).1
    simp only [Bool.not_true, Bool.false_eq_true, reduceIte, hw, hw', hfirst, hleft] at hrun
    rw [bind_eq_ok] at hrun
    obtain ⟨s₁, hs₁, hrun⟩ := hrun
    rw [bind_eq_ok] at hrun
    obtain ⟨s₂, hs₂, hrun⟩ := hrun
    rw [bind_eq_ok] at hrun
    obtain ⟨s₃, hs₃, hrun⟩ := hrun
    cases hrun
    refine ⟨by omega, hok, s₁, s₂, hs₁, ?_, hs₃⟩
    split at hs₂
    · exact .inr ⟨by omega, hs₂⟩
    · cases hs₂
      exact .inl ⟨by omega, rfl⟩

/-- What is read. -/
theorem copyFromUserSimple_parts (hbuf : buf < USER_TOP) (hlen : len ≤ 4096)
    (hok : validateRange s buf len = .ok true) : ∃ dst s',
      copyFromUserSimple s buf len = .ok ((0, dst), s') ∧
      (∀ i < firstPart buf len,
        dst i = s.viewByte s.current (pageAlign buf) (buf - pageAlign buf + i)) ∧
      ∀ i < len - firstPart buf len,
        dst (firstPart buf len + i) = s.viewByte s.current (pageAlign buf + 4096) i := by
  obtain ⟨hw, hw', hfirst⟩ := firstPart_eq hbuf hlen
  have hok' : validateRange (disableInterrupts s) buf len = .ok true := hok
  rw [copyFromUserSimple, if_neg (by omega)]
  dsimp only
  rw [hok', ok_bind]
  simp only [Bool.not_true, Bool.false_eq_true, reduceIte, hw, hw', hfirst,
    enableInterrupts_disable,
    ok_bind, kernelByte_eq]
  refine ⟨_, _, rfl, fun i hi => if_pos hi, fun i hi => ?_⟩
  rw [if_neg (by omega), if_pos (by omega), Nat.add_sub_cancel_left]
  rfl

/-- A copy of `copy_to_user_simple` is read back by `copy_from_user_simple`, and changes nothing
else that an address space or a page list shows. -/
theorem copyToUser_copiedTo (h : Settled stale canon kept s) (hlone : Lone (s.others kept) s)
    (hbuf : buf < USER_TOP) (hrun : copyToUserSimple s src buf len = .ok (0, t)) :
    CopiedTo s t src buf len := by
  obtain ⟨hlen, hok, s₁, s₂, hs₁, hsecond, henable⟩ := copyToUserSimple_parts hbuf hrun
  obtain ⟨hle, -, hleft, hend, hpos⟩ := firstPart_spec buf hlen
  have haddr := pageAlign_bounds buf
  have hal : isAligned (pageAlign buf) = true := by
    simp only [isAligned, pageAlign, beq_iff_eq]
    omega
  have hal' : isAligned (pageAlign buf + 4096) = true := by
    simp only [isAligned, pageAlign, beq_iff_eq]
    omega
  have hlone₀ : Lone ((disableInterrupts s).others kept) (disableInterrupts s) :=
    ⟨hlone.hardware, hlone.together, hlone.apart⟩
  obtain ⟨h₁, hf₁, hlone₁, hstored₁⟩ :=
    h.allowStale.disable.stored_copyToPage hlone₀ hal hs₁
  -- the second part, if there is one
  obtain ⟨hf₂, hstored₂⟩ : Frame s₁ s₂ ∧ Stored ((disableInterrupts s).others kept) s₁ s₂
      (pageAlign buf + 4096) 0 (len - firstPart buf len) fun i => src (firstPart buf len + i) := by
    rcases hsecond with ⟨heq, rfl⟩ | ⟨-, hs₂⟩
    · rw [heq, Nat.sub_self]
      exact ⟨Frame.refl _, Stored.refl ..⟩
    · obtain ⟨-, hf₂, -, hstored₂⟩ := h₁.stored_copyToPage hlone₁ hal' hs₂
      have hothers : s₁.others kept = (disableInterrupts s).others kept := by
        rw [State.others, State.others, State.nodes, State.nodes, hf₁.plists]
      exact ⟨hf₂, hothers ▸ hstored₂⟩
  obtain ⟨hback₁, hback₂, hrest, hlisted⟩ := hstored₁.then hstored₂ hf₁.current hleft
  have hframe := hf₁.trans hf₂
  obtain rfl : t = { s₂ with interruptDisabled := s.interruptDisabled } := by
    rw [enableInterrupts_eq (s := s) hframe.interruptDisabled] at henable
    cases henable
    rfl
  have hcur : s₂.current = s.current := hframe.current
  refine ⟨?_, fun addr hout halias => ?_, fun a ha addr => ?_, ⟨hframe.plists, ?_⟩, ?_⟩
  · obtain ⟨dst, t', hread, hdst₁, hdst₂⟩ := copyFromUserSimple_parts
      (s := { s₂ with interruptDisabled := s.interruptDisabled }) hbuf hlen
      ((validateRange_of_frame hframe buf len).trans hok)
    refine ⟨dst, t', hread, fun i hi => ?_⟩
    by_cases hfirst : i < firstPart buf len
    · rw [hdst₁ i hfirst]
      exact (congrArg (fun c => s₂.viewByte c _ _) hcur).trans (hback₁ i hfirst)
    · obtain ⟨j, rfl⟩ := Nat.exists_eq_add_of_le (not_lt.1 hfirst)
      rw [hdst₂ j (by omega)]
      exact (congrArg (fun c => s₂.viewByte c _ _) hcur).trans (hback₂ j (by omega))
  · -- an address on a page of the copy is one of the copy, or its entry shares the page
    have hsplit : pageAlign addr + addr % 4096 = addr := by
      rw [pageAlign]
      omega
    have hpage : ∀ b, buf ≤ b → b < buf + len →
      ((s.current, pageAlign addr) = (s.current, pageAlign b) ∨
        s.SharedOn (s.current, pageAlign addr) (s.current, pageAlign b)) →
        pageAlign addr = pageAlign b := by
      rintro b hb hb' (heq | hshared)
      · exact congrArg Prod.snd heq
      · by_contra hne
        exact halias b hb hb' hne hshared
    have hsecond : pageAlign (pageAlign buf + 4096) = pageAlign buf + 4096 := by
      simp only [pageAlign]
      omega
    refine hrest _ _ _ ?_ ?_
    · rintro ⟨hge, hlt, hon⟩
      have hsame := hpage buf le_rfl (by omega) hon
      exact hout ⟨by omega, by omega⟩
    · rintro ⟨hlt, hon⟩
      have hsame := hpage (pageAlign buf + 4096) (by omega) (by omega) (by rw [hsecond]; exact hon)
      rw [hsecond] at hsame
      exact hout ⟨by omega, by omega⟩
  · -- another address space does not share the page
    have hnot : ∀ v w, ¬((a, v) = (s.current, w) ∨ s.SharedOn (a, v) (s.current, w)) := by
      rintro v w (heq | hshared)
      · exact ha (congrArg Prod.fst heq)
      · exact ha (hlone.together _ _ hshared)
    exact hrest _ _ _ (fun hin => hnot _ _ hin.2.2) fun hin => hnot _ _ hin.2
  · intro x hx n hn p hp
    refine hlisted (p, if n.flags = PF_SNAPSHOT then .snap else .shared) (List.mem_append_left _ ?_)
    refine List.mem_flatMap.2 ⟨x, hx, List.mem_flatMap.2 ⟨n, hn, ?_⟩⟩
    rw [PageList.held, hp]
    exact List.mem_singleton_self _
  · exact hlisted (s.zeroPage, .shared) h.zero_held

end Copy

/-! ## A page in flight -/

/-- A page that is mapped, and on a page list. -/
def inFlight (flags : ℕ) : State :=
  { (State.boot [0x2000, 0x3000] 0) with
    spaces := fun a => if a = 0 then some
      { vma := [⟨0, VMA_RW, 0, 0x402000, 0x3000, [0x403000], .head⟩]
        vaddrMap := AList.insert 0x403000 ⟨0x1000, PF_SHARED⟩ ∅
        lowAddr := USER_BASE
        highAddr := USER_TOP
        vmaPool := 1 } else none
    aspacePool := 1
    physPages := fun p => if p = 0 then some ⟨1, 0, []⟩
      else if p = 0x1000 then some ⟨2, if flags = PF_SNAPSHOT then 1 else 0, [(0, 0x403000)]⟩
      else none
    plists := [(0, ⟨0, 1, [⟨some 0x1000, flags⟩]⟩)]
    plistPool := 1 }

theorem inFlight_entry {flags a v : ℕ} {pe : PageEntry} (h : (inFlight flags).entry a v = some pe) :
    a = 0 ∧ v = 0x403000 ∧ pe = ⟨0x1000, PF_SHARED⟩ := by
  simp only [State.entry, inFlight] at h
  split_ifs at h with ha
  · rw [Option.bind_some] at h
    by_cases hv : v = 0x403000
    · rw [hv, AList.lookup_insert, Option.some.injEq] at h
      exact ⟨ha, hv, h.symm⟩
    · rw [AList.lookup_insert_ne hv] at h
      simp at h
  · cases h

theorem inFlight_page {flags p : ℕ} {pg : Page} (h : (inFlight flags).physPages p = some pg) :
    p = 0 ∧ pg = ⟨1, 0, []⟩ ∨
      p = 0x1000 ∧ pg = ⟨2, if flags = PF_SNAPSHOT then 1 else 0, [(0, 0x403000)]⟩ := by
  simp only [inFlight] at h
  split_ifs at h with h0 h1 <;> cases h
  · exact .inl ⟨h0, rfl⟩
  · exact .inr ⟨h1, by simp [*]⟩
  · exact .inr ⟨h1, by simp [*]⟩

theorem settled_inFlight {flags : ℕ} (hflags : flags = PF_SHARED ∨ flags = PF_SNAPSHOT) :
    Settled False True [0] (inFlight flags) := by
  have hlinked : Linked False [] ((inFlight flags).others [0]) (inFlight flags).physPages
      (inFlight flags).entry (inFlight flags).freePages := by
    refine ⟨fun p pg hp => ?_, fun p pg o hp ho => ?_, fun a v pe hpe _ => ?_, fun i hi => ?_,
      fun a v pe hpe => ?_, ?_, ?_⟩
    · rcases inFlight_page hp with ⟨rfl, rfl⟩ | ⟨rfl, rfl⟩ <;> rcases hflags with rfl | rfl
      all_goals exact ⟨by decide, by decide, .inl (by decide), by decide⟩
    · rcases inFlight_page hp with ⟨rfl, rfl⟩ | ⟨rfl, rfl⟩
      · cases ho
      · rw [List.mem_singleton] at ho
        exact ⟨List.not_mem_nil, ⟨0x1000, PF_SHARED⟩, by rw [ho]; rfl, rfl⟩
    · obtain ⟨rfl, rfl, rfl⟩ := inFlight_entry hpe
      exact ⟨_, rfl, List.mem_singleton_self _⟩
    · have hi' : i.1 = 0x1000 ∨ i.1 = 0 := by
        rcases hflags with rfl | rfl <;> revert i <;> decide
      rcases hi' with hi' | hi' <;> rw [hi'] <;> exact ⟨_, rfl⟩
    · obtain ⟨-, -, rfl⟩ := inFlight_entry hpe
      exact validFlags_shared
    · exact (show [0x2000, 0x3000].Nodup by decide)
    · intro p hp
      have hp' : p = 0x2000 ∨ p = 0x3000 := by simpa [inFlight, State.boot] using hp
      rcases hp' with rfl | rfl <;> rfl
  refine ⟨⟨⟨hlinked, fun _ => ⟨fun a n e he => ?_, fun a v pe hpe => ?_⟩⟩, ⟨fun a sp hsp => ?_,
    fun _ a sp hsp => ?_, fun a ha => ?_⟩, ?_⟩, ?_, ?_, ?_⟩
  · cases he
  · obtain ⟨-, rfl, -⟩ := inFlight_entry hpe
    exact ⟨by decide, by decide⟩
  · simp only [inFlight] at hsp
    split_ifs at hsp
    cases hsp
    refine ⟨by decide, fun v => ?_, by decide, by decide⟩
    by_cases hv : v = 0x403000
    · rw [hv, AList.lookup_insert]
      exact iff_of_true (by decide) ⟨_, rfl⟩
    · rw [AList.lookup_insert_ne hv]
      simp [hv, pagesOf]
  · simp only [inFlight] at hsp
    split_ifs at hsp
    cases hsp
    decide
  · have hne : a ≠ 0 := Nat.one_le_iff_ne_zero.1 ha
    exact if_neg hne
  · rcases hflags with rfl | rfl <;> decide
  · exact (show [0].Nodup by decide)
  · intro x hx
    obtain rfl := List.mem_singleton.1 hx
    exact Nat.zero_lt_one
  · exact List.mem_singleton_self _

theorem lone_inFlight : Lone ((inFlight PF_SNAPSHOT).others [0]) (inFlight PF_SNAPSHOT) where
  hardware a v pe hpe := by
    obtain ⟨-, -, rfl⟩ := inFlight_entry hpe
    decide
  together o o' h := by
    obtain ⟨e, e', he, he', -⟩ := h
    rw [(inFlight_entry he).1, (inFlight_entry he').1]
  apart a v pe hpe _ := by
    obtain ⟨-, -, rfl⟩ := inFlight_entry hpe
    decide

/-- A copy that succeeds, computed. -/
theorem copyToUser_ok {s : State} {src : ℕ → UInt8} {buf len : ℕ}
    (h : (copyToUserSimple s src buf len).toOption.map (·.1) = some 0) :
    ∃ t, copyToUserSimple s src buf len = .ok (0, t) := by
  rw [Option.map_eq_some_iff] at h
  obtain ⟨⟨ret, t⟩, hrun, rfl⟩ := h
  refine ⟨t, ?_⟩
  cases hcopy : copyToUserSimple s src buf len with
  | error e =>
    rw [hcopy] at hrun
    cases hrun
  | ok r =>
    rw [hcopy] at hrun
    cases hrun
    rfl

/-- Two bytes of a page with a snapshot on a page list, and two of the page after it. -/
theorem copyToUser_copiedTo_inFlight :
    ∃ t, copyToUserSimple (inFlight PF_SNAPSHOT) (fun i => i.toUInt8) 0x403ffe 4 = .ok (0, t) ∧
      CopiedTo (inFlight PF_SNAPSHOT) t (fun i => i.toUInt8) 0x403ffe 4 := by
  obtain ⟨t, ht⟩ := @copyToUser_ok (inFlight PF_SNAPSHOT) (fun i => i.toUInt8) 0x403ffe 4
    (by decide +kernel)
  exact ⟨t, ht, copyToUser_copiedTo (settled_inFlight (.inr rfl)) lone_inFlight (by decide) ht⟩

/-- A page that a page list shares with an entry. -/
theorem copyToUser_fails :
    Settled False True [0] (inFlight PF_SHARED) ∧
      (∀ a v pe, (inFlight PF_SHARED).entry a v = some pe → hasFlag pe.flags PF_HARDWARE = false) ∧
      (∀ o o', (inFlight PF_SHARED).SharedOn o o' → o.1 = o'.1) ∧
      ∃ t, copyToUserSimple (inFlight PF_SHARED) (fun _ => 1) 0x403000 1 = .ok (0, t) ∧
        ¬CopiedTo (inFlight PF_SHARED) t (fun _ => 1) 0x403000 1 := by
  refine ⟨settled_inFlight (.inl rfl), fun a v pe hpe => ?_, fun o o' h => ?_, ?_⟩
  · obtain ⟨-, -, rfl⟩ := inFlight_entry hpe
    decide
  · obtain ⟨e, e', he, he', -⟩ := h
    rw [(inFlight_entry he).1, (inFlight_entry he').1]
  obtain ⟨t, ht⟩ := @copyToUser_ok (inFlight PF_SHARED) (fun _ => 1) 0x403000 1 (by decide +kernel)
  refine ⟨t, ht, fun h => ?_⟩
  have hpage := h.lists.2 _ (List.mem_singleton_self _) _ (List.mem_singleton_self _) 0x1000 rfl
  have hbyte : (copyToUserSimple (inFlight PF_SHARED) (fun _ => 1) 0x403000 1).toOption.map
      (fun r => r.2.mem 0x1000 0) = some 1 := by decide +kernel
  rw [ht] at hbyte
  change some (t.mem 0x1000 0) = some 1 at hbyte
  rw [hpage] at hbyte
  cases hbyte

end SadOS.Mm
