import SadOS.Mm.Memories

/-!
# Page faults change nothing that is seen

A page fault fills a page in, gives a writer a page of its own or enters a page into the page
table, and all address spaces read as before.  A write then reaches a page that nobody else
refers to.

## Main definitions

* `Forkable.assignPage` — one entry more.
* `Forkable.zeroFill`, `Forkable.unshareForWrite`, `Forkable.addressSpaceMap` — the parts of a
  fault.

## Main results

* `Forkable.userRead` — a read returns the byte that the address space has.
* `Forkable.userWrite` — a write is one of the memories.
-/

namespace SadOS.Mm

/-! ## Pages without snapshots -/

/-- A page to which only entries refer that are no snapshots. -/
theorem Linked.snapCount_eq_zero {stale : Prop} {held : List (ℕ × Kind)} {phys : ℕ → Option Page}
    {ent : ℕ → ℕ → Option PageEntry} {avail : List ℕ} {p : ℕ} {pg : Page}
    (h : Linked stale [] held phys ent avail) (hp : phys p = some pg)
    (hent : ∀ a v e, ent a v = some e → e.p = p → hasFlag e.flags PF_SNAPSHOT = false)
    (hheld : ∀ i ∈ held, i.1 ≠ p) : pg.snapCount = 0 := by
  have hc := h.counted p pg hp
  have hnone : ∀ k, held.count (p, k) = 0 := fun k =>
    List.count_eq_zero.2 fun hmem => hheld _ hmem rfl
  have hsnaps : snapsOn held ent p pg.owner = 0 := by
    rw [snapsOn, hnone, Nat.add_zero, List.countP_eq_zero]
    intro o ho
    obtain ⟨e, he, hq⟩ := (h.mem_owner_iff hp o).1 ho
    simp [isSnap, he, hent o.1 o.2 e he hq]
  rcases hc.snaps with hs | ⟨-, -, hall⟩
  · rw [hs, hsnaps]
  · have hpos := hc.pos
    rw [hsnaps, hnone] at hall
    omega

/-- The entry `e₀` at `o` goes along with the writer's entry `pe` at `w` to a copy `page` of its
page, as `e`. -/
structure Follows (page : ℕ) (o w : ℕ × ℕ) (pe e₀ e : PageEntry) : Prop where
  old : e₀.p = pe.p
  new : e.p = page
  shared : hasFlag e.flags PF_SHARED = true
  hardware : hasFlag e.flags PF_HARDWARE = true → hasFlag e₀.flags PF_HARDWARE = true
  along : o = w ∨ hasFlag e₀.flags PF_SHARED = true ∧ hasFlag pe.flags PF_SHARED = true

/-- A copy for a writer takes an entry along, or leaves it. -/
theorem Linked.moved_or_kept {stale : Prop} {held : List (ℕ × Kind)} {phys : ℕ → Option Page}
    {ent : ℕ → ℕ → Option PageEntry} {avail : List ℕ} {as vaddr : ℕ} {pe : PageEntry} {pg : Page}
    (h : Linked stale [] held phys ent avail) (hpe : ent as vaddr = some pe)
    (hp : phys pe.p = some pg) (page a v : ℕ) :
    (∃ e₀ e, ent a v = some e₀ ∧ Consistent.movedEntries as vaddr page pe pg ent a v = some e ∧
      Follows page (a, v) (as, vaddr) pe e₀ e) ∨
    (a, v) ≠ (as, vaddr) ∧ Consistent.movedEntries as vaddr page pe pg ent a v = ent a v ∧
      ∀ e, ent a v = some e → hasFlag e.flags PF_SHARED = true → e.p = pe.p →
        hasFlag pe.flags PF_SHARED = false := by
  rw [Consistent.movedEntries]
  split
  · rename_i hshared
    by_cases hav : (a, v) ∈ pg.owner
    · obtain ⟨e₀, he₀, hq⟩ := (h.mem_owner_iff hp _).1 hav
      rw [retarget_mem hav, he₀, Option.map_some, PageEntry.retarget]
      split
      · rename_i hs₀
        exact .inl ⟨e₀, _, rfl, rfl, hq, rfl, hs₀, id, .inr ⟨hs₀, hshared⟩⟩
      · rename_i hs₀
        refine .inr ⟨fun heq => ?_, rfl, fun e he hs => ?_⟩
        · rw [Prod.mk.injEq] at heq
          rw [heq.1, heq.2, hpe, Option.some.injEq] at he₀
          exact hs₀ (he₀ ▸ hshared)
        · rw [Option.some.injEq] at he
          exact absurd (he ▸ hs) hs₀
    · refine .inr ⟨fun heq => ?_, retarget_not_mem hav page ent, fun e he _ hq => ?_⟩
      · exact hav (heq ▸ (h.mem_owner_iff hp _).2 ⟨pe, hpe, rfl⟩)
      · exact absurd ((h.mem_owner_iff hp _).2 ⟨e, he, hq⟩) hav
  · rename_i hshared
    rw [updEnt_apply]
    split
    · rename_i heq
      refine .inl ⟨pe, ⟨page, PF_SHARED⟩, ?_, rfl, rfl, rfl, ?_, fun hhw => ?_, .inl heq⟩
      · rw [Prod.mk.injEq] at heq
        rw [heq.1, heq.2, hpe]
      · exact show hasFlag PF_SHARED PF_SHARED = true by decide
      · exact absurd hhw (show ¬hasFlag PF_SHARED PF_HARDWARE = true by decide)
    · rename_i hne
      exact .inr ⟨hne, rfl, fun _ _ _ _ => by simpa using hshared⟩

/-- The only reference to a page is the entry that has it. -/
theorem Sound.only_entry {stale canon : Prop} {held : List (ℕ × Kind)} {s : State} {a v : ℕ}
    {pe : PageEntry} {pg : Page} (h : Sound stale canon held s) (hpe : s.entry a v = some pe)
    (hp : s.physPages pe.p = some pg) (hone : pg.refCount = 1) :
    (∀ b w e, s.entry b w = some e → e.p = pe.p → (b, w) = (a, v)) ∧ ∀ i ∈ held, i.1 ≠ pe.p := by
  have hrefs := (h.linked.counted _ pg hp).refs
  have hmem : (a, v) ∈ pg.owner := (h.linked.mem_owner_iff hp _).2 ⟨pe, hpe, rfl⟩
  have hlen := List.length_pos_of_mem hmem
  have howner : pg.owner = [(a, v)] := by
    obtain ⟨o, ho⟩ := List.length_eq_one_iff.1 (by omega : pg.owner.length = 1)
    rw [ho, List.mem_singleton] at hmem
    rw [ho, hmem]
  have hnone : refsOn held pe.p = 0 := by omega
  refine ⟨fun b w e he hq => ?_, fun i hi hq => ?_⟩
  · have hbw : (b, w) ∈ pg.owner := (h.linked.mem_owner_iff hp _).2 ⟨e, he, hq⟩
    rwa [howner, List.mem_singleton] at hbw
  · rw [refsOn, List.countP_eq_zero] at hnone
    exact hnone i hi (by simpa using hq)

/-! ## States of ordinary memory -/

/-- The shared entries were there before. -/
theorem Lone.of_shared {held : List (ℕ × Kind)} {s t : State} (h : Lone held s)
    (hsh : ∀ a v e, t.entry a v = some e → hasFlag e.flags PF_SHARED = true → s.entry a v = some e)
    (hhw : ∀ a v e, t.entry a v = some e → hasFlag e.flags PF_HARDWARE = false) : Lone held t where
  hardware := hhw
  together o o' := by
    rintro ⟨e, e', he, he', hp, hs, hs'⟩
    exact h.together o o' ⟨e, e', hsh _ _ e he hs, hsh _ _ e' he' hs', hp, hs, hs'⟩
  apart a v e he hs := h.apart a v e (hsh a v e he hs) hs

/-- Which pages are shared depends on the shared entries. -/
theorem sharedOn_congr {s t : State}
    (h : ∀ a v e, hasFlag e.flags PF_SHARED = true → (t.entry a v = some e ↔ s.entry a v = some e))
    (o o' : ℕ × ℕ) : t.SharedOn o o' ↔ s.SharedOn o o' := by
  constructor
  · rintro ⟨e, e', he, he', hp, hs, hs'⟩
    exact ⟨e, e', (h _ _ e hs).1 he, (h _ _ e' hs').1 he', hp, hs, hs'⟩
  · rintro ⟨e, e', he, he', hp, hs, hs'⟩
    exact ⟨e, e', (h _ _ e hs).2 he, (h _ _ e' hs').2 he', hp, hs, hs'⟩

namespace Forkable

variable {kept : List ℕ} {s t : State}

/-- The accounts, with page tables that agree. -/
theorem consistent (h : Forkable kept s) : Consistent True True [] (s.others kept) s :=
  ⟨h.settled.sound.linked, fun _ => h.mapped⟩

theorem setCounter (h : Forkable kept s) (n : ℕ) :
    Forkable kept { s with interruptDisabled := n } :=
  ⟨h.settled.setCounter n, h.mapped, ⟨h.lone.hardware, h.lone.together, h.lone.apart⟩,
    h.plain, h.zero⟩

theorem disable (h : Forkable kept s) : Forkable kept (disableInterrupts s) := h.setCounter _

theorem setCurrent (h : Forkable kept s) (a : ℕ) : Forkable kept { s with current := a } :=
  ⟨h.settled.setCurrent a, h.mapped, ⟨h.lone.hardware, h.lone.together, h.lone.apart⟩,
    h.plain, h.zero⟩

theorem others_eq (hr : SameRest s t) : t.others kept = s.others kept := by
  rw [State.others, State.others, State.nodes, State.nodes, hr.plists]

/-- The entry of an address that a VMA covers. -/
theorem covered_of_entry (h : Forkable kept s) {a v : ℕ} {sp : AddressSpace} {e : PageEntry}
    (hsp : s.spaces a = some sp) (he : s.entry a v = some e) : Covered sp.vma v := by
  rw [entry_of_space hsp] at he
  have hmem := ((h.settled.sound.hung a sp hsp).mem_iff v).2 ⟨e, he⟩
  exact covered_of_mem_pages (h.plain a sp hsp).covers (by simpa using hmem)

/-- Only pages and what page entries hold change. -/
theorem retag (h : Forkable kept s) (hr : Retag s t)
    (hc : Consistent True True [] (s.others kept) t)
    (hdom : ∀ a v, (t.entry a v).isSome = (s.entry a v).isSome) (hlone : Lone (s.others kept) t)
    (hzero : t.mem s.zeroPage = s.mem s.zeroPage) : Forkable kept t where
  settled := h.settled.rest hr.toSameRest ⟨hc.linked, False.elim⟩
    (h.settled.sound.toTidy.retag hr hdom)
  mapped := hc.mapped trivial
  lone := by rwa [others_eq hr.toSameRest]
  plain a sp hsp := by
    have hb := hr.bones a
    rw [hsp, Option.map_some] at hb
    obtain ⟨sp₀, hsp₀, heq⟩ := Option.map_eq_some_iff.1 hb.symm
    simp only [AddressSpace.bones, Prod.mk.injEq] at heq
    exact (h.plain a sp₀ hsp₀).of_vma heq.1.symm
  zero := by rw [hr.zeroPage, hzero, h.zero]

end Forkable

/-! ## One entry more -/

/-- `address_space_assign_page` outside the VMAs. -/
theorem assignPage_of_find_none {s : State} {as p vaddr flags : ℕ} {sp : AddressSpace}
    (haligned : vaddr % 4096 = 0) (hsp : s.spaces as = some sp)
    (hnone : vmaFindByVaddr vaddr sp.vma = none) : assignPage s as p vaddr flags = .ok (0, s) := by
  have hal : isAligned vaddr = true := by simp [isAligned, haligned]
  have hsp' : (disableInterrupts s).spaces as = some sp := hsp
  simp only [assignPage, hal, getSpace_eq hsp', enableInterrupts_disable, ok_bind, hnone,
    Bool.not_true, Bool.false_eq_true, reduceIte, pure_eq_ok]

/-- An entry of a page is new, as a snapshot. -/
structure Added (as vaddr p : ℕ) (s t : State) : Prop extends Frame s t where
  mem : t.mem = s.mem
  other : ∀ b, b ≠ as → t.spaces b = s.spaces b
  entry : t.entry = updEnt s.entry as vaddr (some ⟨p, PF_SNAPSHOT⟩)

namespace Added

variable {s t : State} {as vaddr p : ℕ}

theorem entry_iff (h : Added as vaddr p s t) (hnone : s.entry as vaddr = none) (a v : ℕ)
    (e : PageEntry) : t.entry a v = some e ↔
      (a, v) = (as, vaddr) ∧ e = ⟨p, PF_SNAPSHOT⟩ ∨ s.entry a v = some e := by
  rw [h.entry, updEnt_apply]
  split
  · rename_i heq
    rw [Prod.mk.injEq] at heq
    rw [heq.1, heq.2, hnone]
    simp [eq_comm]
  · rename_i hne
    simp [hne]

theorem shared_iff (h : Added as vaddr p s t) (hnone : s.entry as vaddr = none) (a v : ℕ)
    (e : PageEntry) (hs : hasFlag e.flags PF_SHARED = true) :
    t.entry a v = some e ↔ s.entry a v = some e := by
  rw [h.entry_iff hnone]
  refine or_iff_right ?_
  rintro ⟨-, rfl⟩
  exact absurd hs (show ¬hasFlag PF_SNAPSHOT PF_SHARED = true by decide)

end Added

namespace Forkable

variable {kept : List ℕ} {s t : State}

/-- `address_space_assign_page` as a snapshot, at an address without an entry. -/
theorem assignPage (h : Forkable kept s) {as p vaddr : ℕ} {sp : AddressSpace}
    (hsp : s.spaces as = some sp) (hcanon : Canonical vaddr) (hnone : s.entry as vaddr = none)
    (href : Consistent.Referred (s.others kept) s p as vaddr) :
    Safely Halts (fun r => Forkable kept r.2 ∧
        (¬Covered sp.vma vaddr ∧ r.2 = s ∨ Covered sp.vma vaddr ∧ Added as vaddr p s r.2))
      (assignPage s as p vaddr PF_SNAPSHOT) := by
  have hplain := h.plain as sp hsp
  cases hfind : vmaFindByVaddr vaddr sp.vma with
  | none =>
    rw [assignPage_of_find_none hcanon.1 hsp hfind, safely_ok]
    refine ⟨h, .inl ⟨fun hcov => ?_, rfl⟩⟩
    obtain ⟨v, hv⟩ := hplain.find hcov
    rw [hfind] at hv
    cases hv
  | some w =>
    rw [assignPage_eq hcanon.1 hsp hfind, safely_bind]
    refine ((h.consistent.assignPageNoAddrCheck ⟨sp, hsp⟩ (fun _ => hcanon) validFlags_snapshot href
      (h.settled.sound.count_spent p) (by simp [hasFlag, PF_SNAPSHOT])).and
      (effect_assignPageNoAddrCheck s as p vaddr w.id PF_SNAPSHOT)).mono ?_
    rintro t ⟨hc, s₁, hclear, hassign⟩
    obtain rfl : s₁ = s := by
      rcases hclear with ⟨⟨pe, hpe⟩, -⟩ | ⟨-, rfl⟩
      · rw [hnone] at hpe
        cases hpe
      · rfl
    have hframe := hassign.frame
    have hent := hassign.entry
    have hmem_w := (vmaFindByVaddr_spec hfind).1
    have htidy := h.settled.sound.toTidy.assigned (fun sp' hsp' => by
      rw [hsp, Option.some.injEq] at hsp'
      exact hsp' ▸ mem_idsOf hmem_w) hnone hassign
    obtain ⟨sp', hsp', hq⟩ := hassign
    rw [hsp, Option.some.injEq] at hsp'
    subst hsp'
    have hadded : Added as vaddr p s₁ t := by
      refine ⟨hframe, hq.mem, fun b hb => ?_, hent⟩
      rw [hq.spaces]
      exact Function.update_of_ne hb _ _
    refine ⟨⟨h.settled.rest hframe.toSameRest ⟨hc.linked, False.elim⟩ htidy,
      hc.mapped trivial, ?_, ?_, ?_⟩,
      .inr ⟨AddressSpace.Plain.covered_of_find hfind, hadded⟩⟩
    · rw [others_eq hframe.toSameRest]
      refine h.lone.of_shared (fun a v e he hs => (hadded.shared_iff hnone a v e hs).1 he)
        fun a v e he => ?_
      rcases (hadded.entry_iff hnone a v e).1 he with ⟨-, rfl⟩ | he
      · exact show hasFlag PF_SNAPSHOT PF_HARDWARE = false by decide
      · exact h.lone.hardware a v e he
    · intro a x hx
      rw [hq.spaces] at hx
      by_cases ha : a = as
      · rw [ha] at hx
        simp only [State.setSpace, Function.update_self, Option.some.injEq] at hx
        rw [← hx]
        exact hplain.assign (h.settled.sound.hung as sp hsp).ids hfind _
      · simp only [State.setSpace, Function.update_of_ne ha] at hx
        exact h.plain a x hx
    · rw [hframe.zeroPage, hq.mem]
      exact h.zero

/-! ## The parts of a fault -/

/-- A page that was never touched is filled with zeros. -/
theorem zeroFill (h : Forkable kept s) {x : ℕ} {sp : AddressSpace}
    (hsp : s.spaces s.current = some sp) (hcov : Covered sp.vma x) (hx : x < 2 ^ 47) :
    Safely Halts (fun t => Forkable kept t ∧ Looks s t ∧
        ∃ pe, t.entry s.current (pageAlign x) = some pe) (zeroFill s (pageAlign x)) := by
  have hle := pageAlign_bounds x
  unfold Mm.zeroFill
  split
  · rename_i pe hpe
    exact ⟨h, Looks.refl s, pe, hpe⟩
  · rename_i hnone
    simp only [safely_bind, safely_pure]
    refine (h.assignPage hsp ⟨pageAlign_mod x, by omega⟩ hnone
      (.inl ⟨_, h.settled.zero_held⟩)).mono ?_
    rintro ⟨ret, t⟩ ⟨ht, ⟨hnot, -⟩ | ⟨-, hadded⟩⟩
    · exact absurd (((h.plain _ sp hsp).covered_pageAlign x).2 hcov) hnot
    · refine ⟨ht, ⟨hadded.toFrame.sameShape, fun a v o => ?_, fun o o' _ => ?_⟩,
        ⟨s.zeroPage, PF_SNAPSHOT⟩, ?_⟩
      · rw [State.viewByte, State.viewByte, hadded.entry, hadded.mem, updEnt_apply]
        split
        · rename_i heq
          rw [Prod.mk.injEq] at heq
          rw [heq.1, heq.2, hnone, Option.elim_some, Option.elim_none, h.zero]
        · rfl
      · exact sharedOn_congr (hadded.shared_iff hnone) o o'
      · rw [hadded.entry, updEnt_self]

/-- The writer gets a copy of its page. -/
theorem copied (h : Forkable kept s) {page : ℕ} {pe : PageEntry} {pg : Page}
    (hpe : s.entry s.current page = some pe) (hp : s.physPages pe.p = some pg) (hr : Retag s t)
    (hc : Consistent True True [] (s.others kept) t)
    (hcopied : Consistent.Copied s.current page pe pg s t) :
    Forkable kept t ∧ Looks s t ∧ ∃ e pg', t.entry s.current page = some e ∧
      t.physPages e.p = some pg' ∧ pg'.snapCount = 0 := by
  have hsound := h.settled.sound
  obtain ⟨e, he, hprepared⟩ := hsound.prepared_copied h.lone hpe hp hcopied
  have hdom := hcopied.isSome hpe
  obtain ⟨-, new, hdead, -, hent⟩ := hcopied
  have hcases := fun a v => hsound.linked.moved_or_kept hpe hp new a v
  rw [← hent] at hcases
  have hzero : t.mem s.zeroPage = s.mem s.zeroPage := by
    obtain ⟨zg, hz⟩ := hsound.linked.held_live _ h.settled.zero_held
    exact hprepared.mem _ (by rw [hz]; exact Option.some_ne_none zg)
  have hq : e.p = new := by
    rcases hcases s.current page with ⟨_, e', -, he', hf⟩ | ⟨hne, -⟩
    · rw [he, Option.some.injEq] at he'
      exact he' ▸ hf.new
    · exact absurd rfl hne
  -- whether a shared entry goes along depends on its page only
  have hshared : ∀ a v e₀, s.entry a v = some e₀ → hasFlag e₀.flags PF_SHARED = true →
      ∃ g, t.entry a v = some g ∧ hasFlag g.flags PF_SHARED = true ∧
        g.p = if e₀.p = pe.p ∧ hasFlag pe.flags PF_SHARED = true then new else e₀.p := by
    intro a v e₀ he₀ hs₀
    rcases hcases a v with ⟨f, g, hf, hg, hfol⟩ | ⟨-, hkeep, hstay⟩
    · rw [he₀, Option.some.injEq] at hf
      subst hf
      have hs : hasFlag pe.flags PF_SHARED = true := by
        rcases hfol.along with heq | ⟨-, hs⟩
        · rw [Prod.mk.injEq] at heq
          rw [heq.1, heq.2, hpe, Option.some.injEq] at he₀
          exact he₀ ▸ hs₀
        · exact hs
      exact ⟨g, hg, hfol.shared, by rw [if_pos ⟨hfol.old, hs⟩, hfol.new]⟩
    · refine ⟨e₀, hkeep.trans he₀, hs₀, (if_neg fun hin => ?_).symm⟩
      rw [hstay e₀ he₀ hs₀ hin.1] at hin
      cases hin.2
  refine ⟨h.retag hr hc hdom (hprepared.lone h.lone hsound.linked.held_live) hzero,
    ⟨hr.frame.sameShape, hprepared.view, fun o o' hne => ⟨hprepared.shared o o' hne, ?_⟩⟩, e, ?_⟩
  · rintro ⟨e₁, e₂, he₁, he₂, hsame, hs₁, hs₂⟩
    obtain ⟨g₁, hg₁, hgs₁, hgp₁⟩ := hshared o.1 o.2 e₁ he₁ hs₁
    obtain ⟨g₂, hg₂, hgs₂, hgp₂⟩ := hshared o'.1 o'.2 e₂ he₂ hs₂
    exact ⟨g₁, g₂, hg₁, hg₂, by rw [hgp₁, hgp₂, hsame], hgs₁, hgs₂⟩
  · obtain ⟨pg', hp'⟩ := Consistent.page_of_entry hc he List.not_mem_nil
    refine ⟨pg', he, hp', hc.linked.snapCount_eq_zero hp' (fun a v f hf hfp => ?_)
      hprepared.unlisted⟩
    rcases hcases a v with ⟨_, g, -, hg, hfol⟩ | ⟨-, hkeep, -⟩
    · rw [hf, Option.some.injEq] at hg
      have hboth := (hc.linked.flags a v f hf).not_both
      rw [hg, hfol.shared] at hboth
      simpa [hg] using hboth
    · rw [hkeep] at hf
      exact absurd (hfp.trans hq) (hsound.ne_of_dead hdead a v f hf)

/-- The writer's page has no snapshots once it is unshared. -/
theorem unshareForWrite (h : Forkable kept s) {write : Bool} {page : ℕ} {pe : PageEntry}
    (hpe : s.entry s.current page = some pe) :
    Safely Halts (fun t => Forkable kept t ∧ Retag s t ∧ Looks s t ∧ ∃ e pg,
        t.entry s.current page = some e ∧ t.physPages e.p = some pg ∧
          (write = true → pg.snapCount = 0))
      (unshareForWrite s write page pe) := by
  have hsound := h.settled.sound
  obtain ⟨pg, hp⟩ := hsound.page_of_entry hpe List.not_mem_nil
  have hhw := h.lone.hardware _ _ pe hpe
  rw [Mm.unshareForWrite, getPageRec_eq hp, ok_bind]
  split
  swap
  · rename_i hw
    exact ⟨h, Retag.refl s, Looks.refl s, pe, pg, hpe, hp, fun hwrite => by
      simpa [hwrite] using hw⟩
  rename_i hw
  have h0 : pg.snapCount ≠ 0 := by omega
  have hboth := (h.consistent.unsharePage hpe hp h0 fun _ _ => trivial).and
    (retag_unsharePage hpe hp h0)
  rw [unsharePage_eq hpe hhw hp h0] at hboth ⊢
  split at hboth
  · -- the only snapshot
    rename_i hsole
    rw [if_pos hsole]
    obtain ⟨⟨hc, -⟩, hr⟩ := hboth
    refine ⟨h.retag hr hc (fun _ _ => rfl) ?_ rfl, hr,
      Looks.of_same hr.frame.sameShape rfl rfl, pe, _,
      hpe, Function.update_self .., fun _ => rfl⟩
    exact ⟨h.lone.hardware, h.lone.together, h.lone.apart⟩
  · rename_i hsole
    rw [if_neg hsole]
    have hoff : Consistent True True [] (s.others kept) (disableInterrupts s) :=
      ⟨h.consistent.linked, h.consistent.mapped⟩
    refine ((hoff.unshareCopy hpe rfl hhw hp).and (retag_unshareCopy s s.current page pe)).mono ?_
    rintro t ⟨⟨hc, hcopied⟩, hr⟩
    obtain ⟨ht, hlooks, e, pg', he, hp', hz⟩ := h.copied hpe hp hr hc hcopied
    exact ⟨ht, hr, hlooks, e, pg', he, hp', fun _ => hz⟩

/-- The only entry of a page is made an ordinary one. -/
theorem promoted (h : Forkable kept s) {page : ℕ} (hr : Retag s t)
    (hc : Consistent True True [] (s.others kept) t) (hmem : t.mem = s.mem)
    (hpromoted : Consistent.Promoted s.current page s t) : Forkable kept t ∧ Looks s t := by
  have hdom := hpromoted.isSome
  obtain ⟨pe, pg, hpe, hp, hone, hent⟩ := hpromoted
  obtain ⟨honly, hunlisted⟩ := h.settled.sound.only_entry hpe hp hone
  -- the entry has the page that it had, and shares it with no other
  have hcases : ∀ a v e, t.entry a v = some e →
      (a, v) = (s.current, page) ∧ e = ⟨pe.p, PF_SHARED⟩ ∨
        (a, v) ≠ (s.current, page) ∧ s.entry a v = some e := by
    intro a v e he
    rw [hent, updEnt_apply] at he
    split at he
    · rename_i heq
      rw [Option.some.injEq] at he
      exact .inl ⟨heq, he.symm⟩
    · rename_i hne
      exact .inr ⟨hne, he⟩
  have hother : ∀ a v e, s.entry a v = some e → (a, v) ≠ (s.current, page) →
      t.entry a v = some e ∧ e.p ≠ pe.p := by
    intro a v e he hne
    refine ⟨by rw [hent, updEnt_apply, if_neg hne, he], fun hq => hne (honly a v e he hq)⟩
  have hapart : ∀ o o', t.SharedOn o o' →
      o = (s.current, page) ∧ o' = (s.current, page) ∨ s.SharedOn o o' := by
    rintro o o' ⟨e, e', he, he', hq, hs, hs'⟩
    rcases hcases _ _ e he with ⟨ho, rfl⟩ | ⟨ho, he⟩ <;>
      rcases hcases _ _ e' he' with ⟨ho', rfl⟩ | ⟨ho', he'⟩
    · exact .inl ⟨ho, ho'⟩
    · exact absurd hq.symm (hother _ _ e' he' ho').2
    · exact absurd hq (hother _ _ e he ho).2
    · exact .inr ⟨e, e', he, he', hq, hs, hs'⟩
  refine ⟨h.retag hr hc hdom ⟨fun a v e he => ?_, fun o o' ho => ?_, fun a v e he hs => ?_⟩
    (by rw [hmem]),
    hr.frame.sameShape, fun a v o => ?_, fun o o' hne => ⟨fun ho => ?_, ?_⟩⟩
  · rcases hcases a v e he with ⟨-, rfl⟩ | ⟨-, he⟩
    · exact show hasFlag PF_SHARED PF_HARDWARE = false by decide
    · exact h.lone.hardware a v e he
  · rcases hapart o o' ho with ⟨rfl, rfl⟩ | ho
    · rfl
    · exact h.lone.together o o' ho
  · rcases hcases a v e he with ⟨-, rfl⟩ | ⟨-, he⟩
    · exact fun hmem => hunlisted _ hmem rfl
    · exact h.lone.apart a v e he hs
  · rw [State.viewByte, State.viewByte, hmem, hent, updEnt_apply]
    split
    · rename_i heq
      rw [Prod.mk.injEq] at heq
      rw [heq.1, heq.2, hpe, Option.elim_some, Option.elim_some]
    · rfl
  · rcases hapart o o' ho with ⟨rfl, rfl⟩ | ho
    · exact absurd rfl hne
    · exact ho
  · -- two entries that share a page are none of them the only one
    rintro ⟨e, e', he, he', hq, hs, hs'⟩
    have hne₁ : o ≠ (s.current, page) := by
      rintro rfl
      rw [hpe, Option.some.injEq] at he
      exact hne (honly _ _ e' he' (he ▸ hq.symm)).symm
    have hne₂ : o' ≠ (s.current, page) := by
      rintro rfl
      rw [hpe, Option.some.injEq] at he'
      exact hne (honly _ _ e he (he' ▸ hq))
    exact ⟨e, e', (hother _ _ e he hne₁).1, (hother _ _ e' he' hne₂).1, hq, hs, hs'⟩

end Forkable

/-- What `address_space_map` enters into the page table. -/
theorem returns_addressSpaceMap {s : State} {page : ℕ} {sp : AddressSpace} {cvma : VmArea}
    {pe : PageEntry} {pg : Page} (hal : page % 4096 = 0) (hsp : s.spaces s.current = some sp)
    (hfind : vmaFindByVaddr page sp.vma = some cvma) (hpe : s.entry s.current page = some pe)
    (hp : s.physPages pe.p = some pg) :
    Returns (fun r => ∃ w, r.2.pte s.current (slot page) = some ⟨pe.p, w⟩ ∧
        (pg.snapCount = 0 → w = hasFlag cvma.vmaFlags VMA_RW)) (addressSpaceMap s page) := by
  have hmap : ∀ (s' : State) (w : Bool), s'.current = s.current →
      Returns (fun t => t.pte s.current (slot page) = some ⟨pe.p, w⟩)
        (mapPage s' pe.p page cvma.pageSize w) := by
    intro s' w hcur
    rw [mapPage]
    split
    · split
      · trivial
      · change (s'.setPte s'.current page (some ⟨pe.p, w⟩)).pte s.current (slot page) =
          some ⟨pe.p, w⟩
        simp only [State.setPte, hcur, Function.update_self]
    · trivial
  have hal' : isAligned page = true := by simp [isAligned, hal]
  rw [addressSpaceMap, hal', Bool.not_true, if_neg Bool.false_ne_true, getSpace_eq hsp,
    ok_bind, hfind]
  dsimp only
  rw [hpe]
  dsimp only
  rw [getPageRec_eq hp, ok_bind]
  split
  · rename_i hsole
    split
    · simp only [safely_bind, safely_pure]
      refine (hmap _ _ ?_).mono fun t ht => ⟨_, ht, fun h0 => absurd hsole.1 (by omega)⟩
      exact (Retag.setEntry (s.setPage pe.p _) _ _ _).current
    · trivial
  · simp only [safely_bind, safely_pure]
    refine (hmap s _ rfl).mono fun t ht => ⟨_, ht, fun h0 => ?_⟩
    simp [h0]

theorem translate_pageAlign (s : State) (write : Bool) (x : ℕ) :
    s.translate write (pageAlign x) = s.translate write x := by
  rw [State.translate, State.translate, slot_pageAlign]

namespace Forkable

variable {kept : List ℕ} {s t : State}

/-- The page of the fault is in the page table after it. -/
theorem addressSpaceMap (h : Forkable kept s) {page : ℕ} {write : Bool} {sp : AddressSpace}
    {pe : PageEntry} {pg : Page} (hsp : s.spaces s.current = some sp) (hcov : Covered sp.vma page)
    (hal : page % 4096 = 0) (hpe : s.entry s.current page = some pe)
    (hp : s.physPages pe.p = some pg) (hfree : write = true → pg.snapCount = 0) :
    Safely Halts (fun r => Forkable kept r.2 ∧ Looks s r.2 ∧
        ∃ q, r.2.translate write page = some q) (addressSpaceMap s page) := by
  obtain ⟨cvma, hfind⟩ := (h.plain _ sp hsp).find hcov
  have hplain : ∀ v, vmaFindByVaddr page sp.vma = some v → v.Plain :=
    fun v hv => (h.plain _ sp hsp).plain v (vmaFindByVaddr_spec hv).1
  have hsize : ∀ sp' vma, s.spaces s.current = some sp' → vmaFindByVaddr page sp'.vma = some vma →
      vma.pageSize = 0 := by
    intro sp' vma hsp' hvma
    rw [hsp, Option.some.injEq] at hsp'
    exact (hplain vma (hsp' ▸ hvma)).small
  refine (((h.consistent.addressSpaceMap hsize ⟨sp, hsp⟩).and (retag_addressSpaceMap s page)).and
    (returns_addressSpaceMap hal hsp hfind hpe hp)).mono ?_
  rintro ⟨ret, t⟩ ⟨⟨⟨hc, hmem, heff⟩, hr⟩, w, hpte, hw⟩
  dsimp only at hc hmem heff hr hpte ⊢
  have hboth : Forkable kept t ∧ Looks s t := by
    rcases heff with hent | hpromoted
    · refine ⟨h.retag hr hc (fun a v => by rw [hent])
        (h.lone.of_shared (fun a v e he _ => hent ▸ he)
        fun a v e he => h.lone.hardware a v e (hent ▸ he)) (by rw [hmem]),
        Looks.of_same hr.frame.sameShape hent hmem⟩
    · exact h.promoted hr hc hmem hpromoted
  refine ⟨hboth.1, hboth.2, pe.p, ?_⟩
  rw [State.translate, hr.current, hpte]
  dsimp only
  cases write with
  | false => rfl
  | true =>
    rw [hw (hfree rfl), (hplain cvma hfind).writable]
    rfl

/-! ## User accesses -/

/-- A page fault of the program, up to the counter of interrupts. -/
theorem pageFaultHandler (h : Forkable kept s) {write : Bool} {x : ℕ} {sp : AddressSpace}
    (hsp : s.spaces s.current = some sp) (hx : x < 2 ^ 47) :
    Safely Halts (fun r => Forkable kept r.2 ∧ Looks s r.2 ∧
        (r.1 = true → ¬Covered sp.vma x) ∧ (r.1 = false → ∃ q, r.2.translate write x = some q))
      (pageFaultHandler s true write x) := by
  have hoff : Looks s (disableInterrupts s) :=
    Looks.of_same ((SameShape.refl s).setCounter _) rfl rfl
  have hsp' : (disableInterrupts s).spaces (disableInterrupts s).current = some sp := hsp
  rw [Mm.pageFaultHandler, Bool.not_true, if_neg Bool.false_ne_true]
  dsimp only
  rw [getSpace_eq hsp', ok_bind]
  cases hfind : vmaFindByVaddr x sp.vma with
  | none =>
    refine ⟨h.disable, hoff, fun _ hcov => ?_, by simp⟩
    obtain ⟨v, hv⟩ := (h.plain _ sp hsp).find hcov
    rw [hfind] at hv
    cases hv
  | some vma =>
    have hcov := AddressSpace.Plain.covered_of_find hfind
    have hwritable := ((h.plain _ sp hsp).plain vma (vmaFindByVaddr_spec hfind).1).writable
    dsimp only
    rw [safely_bind]
    refine (h.disable.zeroFill hsp' hcov hx).mono ?_
    rintro s₁ ⟨h₁, hl₁, pe, hpe⟩
    have hcur₁ : s₁.current = s.current := hl₁.current
    have hpe₁ : s₁.entry s₁.current (pageAlign x) = some pe := by rw [hcur₁]; exact hpe
    rw [hpe₁]
    dsimp only
    rw [if_neg, safely_bind]
    swap
    · rintro ⟨-, hzero⟩
      rw [hzero] at hwritable
      cases hwritable
    refine (h₁.unshareForWrite hpe₁).mono ?_
    rintro s₂ ⟨h₂, hr₂, hl₂, e, pg, he, hp, hfree⟩
    have hcur₂ : s₂.current = s₁.current := hl₂.current
    rw [← hcur₂] at he
    have hshape := (hl₁.toSameShape.trans hl₂.toSameShape).shape s.current
    have hsp₀ : (disableInterrupts s).spaces s.current = some sp := hsp
    rw [hsp₀, Option.map_some] at hshape
    obtain ⟨sp₂, hsp₂, heq⟩ := Option.map_eq_some_iff.1 hshape
    rw [← hcur₁, ← hcur₂] at hsp₂
    have hcov₂ : Covered sp₂.vma (pageAlign x) :=
      (covered_of_shape heq _).2 (((h.plain _ sp hsp).covered_pageAlign x).2 hcov)
    simp only [safely_bind, safely_pure]
    refine (h₂.addressSpaceMap hsp₂ hcov₂ (pageAlign_mod x) he hp hfree).mono ?_
    rintro ⟨ret, s₃⟩ ⟨h₃, hl₃, q, hq⟩
    refine safely_enable ⟨h₃.setCounter _, ?_, by simp, fun _ => ⟨q, ?_⟩⟩
    · exact ((hoff.trans hl₁).trans (hl₂.trans hl₃)).trans
        (Looks.of_same ((SameShape.refl s₃).setCounter _) rfl rfl)
    · rwa [translate_pageAlign] at hq

theorem pageFaultEntry (h : Forkable kept s) {write : Bool} {x : ℕ} {sp : AddressSpace}
    (hsp : s.spaces s.current = some sp) (hx : x < 2 ^ 47) :
    Safely Halts (fun r => Forkable kept r.2 ∧ Looks s r.2 ∧
        (r.1 = true → ¬Covered sp.vma x) ∧ (r.1 = false → ∃ q, r.2.translate write x = some q))
      (pageFaultEntry s true write x) := by
  have hcount : ∀ (t : State) n, Looks t { t with interruptDisabled := n } := fun t n =>
    Looks.of_same ((SameShape.refl t).setCounter n) rfl rfl
  simp only [Mm.pageFaultEntry, safely_bind, safely_pure]
  refine ((h.setCounter 1).pageFaultHandler (s := { s with interruptDisabled := 1 }) hsp hx).mono ?_
  rintro ⟨killed, t⟩ ⟨ht, hl, hkilled, hmapped⟩
  exact ⟨ht.setCounter 0, (hcount s 1).trans (hl.trans (hcount t 0)), hkilled, hmapped⟩

/-- What the page table permits is the page of the entry, and one to write to has no snapshots. -/
theorem of_translate (h : Forkable kept s) {write : Bool} {x q : ℕ}
    (hq : s.translate write x = some q) (hx : x < 2 ^ 47) :
    ∃ pe pg, s.entry s.current (pageAlign x) = some pe ∧ pe.p = q ∧ s.physPages q = some pg ∧
      (write = true → pg.snapCount = 0) := by
  have hle := pageAlign_bounds x
  rw [State.translate] at hq
  split at hq
  swap
  · cases hq
  rename_i e he
  split at hq
  · cases hq
  rename_i hpermits
  rw [Option.some.injEq] at hq
  obtain ⟨v, pe, pg, hpe, hslot, haddr, hp, hw⟩ := h.mapped.entry _ _ e he (by simp)
  obtain rfl : v = pageAlign x := by
    refine (h.mapped.canon _ v pe hpe).slot_inj ⟨pageAlign_mod x, by omega⟩ ?_
    rw [hslot, slot_pageAlign]
  have hpq : pe.p = q := haddr.symm.trans hq
  refine ⟨pe, pg, hpe, hpq, hpq ▸ hp, fun hwrite => hw ?_⟩
  simpa [hwrite] using hpermits

/-- A user access reaches the page of the entry, if a VMA covers the address. -/
theorem userAccess (h : Forkable kept s) {write : Bool} {x : ℕ} {sp : AddressSpace}
    (hsp : s.spaces s.current = some sp) :
    Safely Halts (fun r => Forkable kept r.2 ∧ Looks s r.2 ∧
        (r.1 = none → x < 2 ^ 47 → ¬Covered sp.vma x) ∧
        ∀ q, r.1 = some q → x < 2 ^ 47 ∧ r.2.translate write x = some q)
    (userAccess s write x) := by
  unfold Mm.userAccess
  split
  · exact ⟨h, Looks.refl s, fun _ hx => by omega, by simp⟩
  rename_i hx
  rw [not_le] at hx
  split
  · rename_i q hq
    exact ⟨h, Looks.refl s, by simp, fun q' hq' => ⟨hx, hq.trans hq'⟩⟩
  · simp only [safely_bind]
    refine (h.pageFaultEntry hsp hx).mono ?_
    rintro ⟨killed, t⟩ ⟨ht, hl, hkilled, hmapped⟩
    dsimp only at hkilled hmapped ⊢
    split
    · rename_i hk
      exact ⟨ht, hl, fun _ _ => hkilled hk, by simp⟩
    · rename_i hk
      obtain ⟨q, hq⟩ := hmapped (by simpa using hk)
      refine ⟨ht, hl, fun hnone => ?_, fun q' hq' => ⟨hx, hq'⟩⟩
      dsimp only at hnone
      rw [hq] at hnone
      cases hnone

/-- A read returns the byte that the address space has. -/
theorem userRead (h : Forkable kept s) {x : ℕ} {sp : AddressSpace}
    (hsp : s.spaces s.current = some sp) :
    Safely Halts (fun r => Forkable kept r.2 ∧ Looks s r.2 ∧
        (Covered sp.vma x → x < 2 ^ 47 → r.1 = some (s.readByte s.current x))) (userRead s x) := by
  simp only [Mm.userRead, safely_bind, safely_pure]
  refine (h.userAccess hsp).mono ?_
  rintro ⟨page, t⟩ ⟨ht, hl, hnone, hsome⟩
  refine ⟨ht, hl, fun hcov hx => ?_⟩
  cases page with
  | none => exact absurd hcov (hnone rfl hx)
  | some q =>
    obtain ⟨pe, pg, hpe, hq, -⟩ := ht.of_translate (hsome q rfl).2 hx
    rw [← hl.readByte, ← hl.current, State.readByte, State.viewByte, hpe, Option.elim_some, hq]
    rfl

/-- The page that a write reaches is the writer's own. -/
theorem write (h : Forkable kept s) {x q : ℕ} (hq : s.translate true x = some q) (hx : x < 2 ^ 47)
    (b : UInt8) : Forkable kept (s.write q (x % 4096) 1 fun _ => b) ∧
      Stored (s.others kept) s (s.write q (x % 4096) 1 fun _ => b) (pageAlign x) (x % 4096) 1
        fun _ => b := by
  have hsound := h.settled.sound
  obtain ⟨pe, pg, hpe, hpq, hp, hfree⟩ := h.of_translate hq hx
  have hown := hsound.ownPage h.lone hpe (hpq ▸ hp) (.inl (hfree rfl))
  have hstored := (Prepared.of_same hpe hown rfl rfl).stored hsound.linked.held_live (x % 4096) 1
    fun _ => b
  rw [hpq] at hstored
  refine ⟨⟨h.settled.setMem q _, h.mapped,
    ⟨h.lone.hardware, h.lone.together, h.lone.apart⟩, h.plain, ?_⟩,
    hstored⟩
  exact (hstored.listed _ h.settled.zero_held).trans h.zero

end Forkable

/-! ## Writes of the memories -/

/-- What was stored shows in the memories. -/
theorem Shows.write {kept : List ℕ} {s t : State} {m : Memories} {x : ℕ} {b : UInt8}
    (h : Shows s m) (hf : Forkable kept s) (hlive : s.Live s.current)
    (hspaces : t.spaces = s.spaces)
    (hst : Stored (s.others kept) s t (pageAlign x) (x % 4096) 1 fun _ => b) :
    Shows t (m.write s.current x b) := by
  have hent : t.entry = s.entry := by
    funext a v
    rw [State.entry, State.entry, hspaces]
  have hview : ∀ v w o, s.SharedOn (s.current, v) (s.current, w) →
      t.viewByte s.current v o = t.viewByte s.current w o := by
    rintro v w o ⟨e, e', he, he', hp, -⟩
    dsimp only at he he'
    rw [State.viewByte, State.viewByte, hent, he, he', Option.elim_some, Option.elim_some, hp]
  refine fun a => ⟨fun sp y hsp hcov => ?_, fun v w ha hne => ?_⟩
  · rw [hspaces] at hsp
    have hold := (h a).byte sp y hsp hcov
    by_cases ha : a = s.current
    · subst ha
      have hsame : pageAlign y ≠ pageAlign x →
        (m.same s.current (pageAlign y) (pageAlign x) = true ↔
          s.SharedOn (s.current, pageAlign y) (s.current, pageAlign x)) := (h _).same _ _ hlive
      rw [Memories.write]
      dsimp only
      rw [Function.update_self]
      split
      · rename_i hr
        obtain ⟨hmod, hpage⟩ := hr
        have hwritten := hst.written (x % 4096) le_rfl (Nat.lt_succ_self _)
        rw [State.readByte, hmod]
        by_cases heq : pageAlign y = pageAlign x
        · rw [heq, hwritten]
        · rw [hview _ _ _ ((hsame heq).1 (hpage.resolve_left heq)), hwritten]
      · rename_i hr
        rw [← hold, State.readByte, State.readByte]
        refine hst.rest _ _ _ ?_
        rintro ⟨hle, hlt, hpage⟩
        refine hr ⟨by omega, ?_⟩
        by_cases heq : pageAlign y = pageAlign x
        · exact .inl heq
        · refine .inr ((hsame heq).2 (hpage.resolve_left fun hpair => heq (Prod.mk.inj hpair).2))
    · rw [Memories.write]
      dsimp only
      rw [Function.update_of_ne ha, ← hold, State.readByte, State.readByte]
      refine hst.rest _ _ _ ?_
      rintro ⟨-, -, hpair | hshared⟩
      · exact ha (Prod.mk.inj hpair).1
      · exact ha (hf.lone.together _ _ hshared)
  · rw [State.SharedOn, hent]
    exact (h a).same v w (by rwa [State.Live, hspaces] at ha) hne

/-- A write outside the VMAs does not show. -/
theorem Shows.write_uncovered {kept : List ℕ} {s : State} {m : Memories} {x : ℕ} {sp : AddressSpace}
    (h : Shows s m) (hf : Forkable kept s) (hsp : s.spaces s.current = some sp)
    (hx : ¬Covered sp.vma x) (b : UInt8) : Shows s (m.write s.current x b) := by
  refine fun a => ⟨fun sp' y hsp' hcov => ?_, (h a).same⟩
  rw [(h a).byte sp' y hsp' hcov, Memories.write]
  dsimp only
  by_cases ha : a = s.current
  · subst ha
    rw [hsp, Option.some.injEq] at hsp'
    subst hsp'
    rw [Function.update_self, if_neg]
    rintro ⟨hmod, hpage⟩
    by_cases heq : pageAlign y = pageAlign x
    · exact hx (eq_of_pageAlign heq hmod ▸ hcov)
    · have hlive : s.Live s.current := by
        rw [State.Live, hsp]
        rfl
      obtain ⟨-, e, -, he, -⟩ := ((h _).same _ _ hlive heq).1 (hpage.resolve_left heq)
      exact hx (((hf.plain _ sp hsp).covered_pageAlign x).1 (hf.covered_of_entry hsp he))
  · rw [Function.update_of_ne ha]

/-- A write of the program is one of the memories. -/
theorem Forkable.userWrite {kept : List ℕ} {s : State} (h : Forkable kept s) {x : ℕ}
    {sp : AddressSpace} (hsp : s.spaces s.current = some sp) (b : UInt8) {m : Memories}
    (hm : Shows s m) :
    Safely Halts (fun r => Forkable kept r.2 ∧
        Shows r.2 (if x < 2 ^ 47 then m.write s.current x b else m)) (userWrite s x b) := by
  simp only [Mm.userWrite, safely_bind]
  refine (h.userAccess hsp).mono ?_
  rintro ⟨page, t⟩ ⟨ht, hl, hnone, hsome⟩
  dsimp only at ht hl hnone hsome ⊢
  have hcur : t.current = s.current := hl.current
  have hmt := hm.of_looks hl
  have hshape := hl.shape s.current
  rw [hsp, Option.map_some] at hshape
  obtain ⟨spt, hspt, heq⟩ := Option.map_eq_some_iff.1 hshape
  rw [← hcur] at hspt ⊢
  cases page with
  | none =>
    refine ⟨ht, ?_⟩
    split
    · rename_i hx
      exact hmt.write_uncovered ht hspt (fun hcov => hnone rfl hx
        ((covered_of_shape heq x).1 hcov)) b
    · exact hmt
  | some q =>
    obtain ⟨hx, hq⟩ := hsome q rfl
    obtain ⟨hwritten, hstored⟩ := ht.write hq hx b
    rw [if_pos hx]
    refine ⟨hwritten, hmt.write ht ?_ rfl hstored⟩
    rw [State.Live, hspt]
    rfl

end SadOS.Mm
