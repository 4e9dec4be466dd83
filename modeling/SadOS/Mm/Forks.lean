import SadOS.Mm.Faults

/-!
# Forks of ordinary memory

The child of `asnew` has VMAs of its parent, and at each of their addresses the page of the
parent as a snapshot: it reads what the parent reads, and shares no page that can be written.

## Main definitions

* `Mirrors` — the first loop of `as_snapshot`: VMAs.
* `Snapped` — the second loop: page entries.

## Main results

* `Forkable.asSnapshot` — the child has VMAs and pages of its parent.
* `Forkable.asnew` — a fork is one of the memories.
-/

namespace SadOS.Mm

/-! ## VMAs of ordinary memory -/

namespace AddressSpace.Plain

variable {sp : AddressSpace} {v : VmArea} {l : List VmArea}

/-- One VMA more, without page entries. -/
theorem insert (h : sp.Plain) (hv : v.Plain) (hpages : v.pages = []) (hins : Inserted v sp.vma l)
    (pool : ℕ) : AddressSpace.Plain { sp with vmaPool := pool, vma := l } := by
  have hordered := hins.ordered h.ordered
  obtain ⟨l₁, l₂, now, hl, rfl, -⟩ := hins
  have hmem : ∀ w, w ∈ l₁ ∨ w ∈ l₂ → w ∈ sp.vma := fun w hw => by rw [hl]; simpa using hw
  have hset : ∀ {P : VmArea → Prop}, (∀ w p, P w → P { w with prev := p }) → P v →
      (∀ w ∈ sp.vma, P w) → ∀ w ∈ l₁ ++ { v with prev := now } :: setPrev (.next v.id) l₂, P w := by
    intro P hP hPv hall w hw
    rcases List.mem_append.1 hw with hw | hw
    · exact hall w (hmem w (.inl hw))
    rcases List.mem_cons.1 hw with rfl | hw
    · exact hP v now hPv
    · exact forall_setPrev hP (fun w hw => hall w (hmem w (.inr hw))) w hw
  refine ⟨hordered, hset (fun w p hw => hw.congr rfl rfl rfl rfl) hv h.plain, ?_⟩
  refine hset (P := fun w => ∀ a ∈ w.pages, w.Covers a) (fun w p hw => hw) ?_ h.covers
  simp [hpages]

end AddressSpace.Plain

theorem Inserted.covered {v : VmArea} {l l' : List VmArea} (h : Inserted v l l') (x : ℕ) :
    Covered l' x ↔ v.Covers x ∨ Covered l x := by
  obtain ⟨l₁, l₂, now, rfl, rfl, -⟩ := h
  have happ : ∀ k k' : List VmArea, Covered (k ++ k') x ↔ Covered k x ∨ Covered k' x := by
    intro k k'
    simp only [Covered, List.mem_append, or_and_right, exists_or]
  have hnow : ({ v with prev := now } : VmArea).Covers x ↔ v.Covers x := Iff.rfl
  rw [happ, happ, covered_cons, covered_setPrev, hnow]
  tauto

/-- Page entries are the same. -/
theorem Lone.congr {held : List (ℕ × Kind)} {s t : State} (h : Lone held s)
    (hent : t.entry = s.entry) : Lone held t :=
  h.of_shared (fun _ _ _ he _ => hent ▸ he) fun a v e he => h.hardware a v e (hent ▸ he)

namespace Forkable

variable {kept : List ℕ} {s t : State}

/-- The VMAs of an address space change. -/
theorem setVmas (h : Forkable kept s) {as : ℕ} {sp sp' : AddressSpace}
    (hsp : s.spaces as = some sp) (hmap : sp'.vaddrMap = sp.vaddrMap)
    (hs : Settled True False kept (s.setSpace as sp')) (hplain : sp'.Plain) :
    Forkable kept (s.setSpace as sp') := by
  have hent := entry_setSpace_vma hsp hmap
  refine ⟨hs, ?_, h.lone.congr hent, ?_, h.zero⟩
  · rw [hent]
    exact h.mapped
  · intro a x hx
    by_cases ha : a = as
    · rw [ha] at hx
      simp only [State.setSpace, Function.update_self, Option.some.injEq] at hx
      exact hx ▸ hplain
    · simp only [State.setSpace, Function.update_of_ne ha] at hx
      exact h.plain a x hx

/-- A new address space has no VMAs. -/
theorem aspaceNew (h : Forkable kept s) :
    Forkable kept (aspaceNew s).2 ∧ (Mm.aspaceNew s).2.entry = s.entry := by
  have hfresh : s.spaces s.aspacePool = none := h.settled.sound.fresh _ le_rfl
  have hent : (Mm.aspaceNew s).2.entry = s.entry := by
    funext a v
    by_cases ha : a = s.aspacePool
    · subst ha
      simp [Mm.aspaceNew, State.entry, State.setSpace, hfresh]
    · simp [Mm.aspaceNew, State.entry, State.setSpace, ha]
  refine ⟨⟨h.settled.aspaceNew, ?_, h.lone.congr hent, ?_, h.zero⟩, hent⟩
  · rw [hent]
    refine h.mapped.of_subset fun a n e he => ?_
    simp only [Mm.aspaceNew, Function.update_apply] at he
    split at he
    · cases he
    · exact he
  · intro a sp hsp
    simp only [Mm.aspaceNew, State.setSpace, Function.update_apply] at hsp
    split at hsp
    · rw [Option.some.injEq] at hsp
      subst hsp
      exact ⟨List.Pairwise.nil, by simp, by simp⟩
    · exact h.plain a sp hsp

/-- Entries go, with no effect on what is left. -/
theorem of_entries (h : Forkable kept s) (hs : Settled True False kept t)
    (hc : Consistent True True [] (s.others kept) t) (hr : SameRest s t) (hmem : t.mem = s.mem)
    (hent : ∀ a v e, t.entry a v = some e → s.entry a v = some e)
    (hplain : ∀ a sp, t.spaces a = some sp → sp.Plain) : Forkable kept t where
  settled := hs
  mapped := hc.mapped trivial
  lone := by
    rw [others_eq hr]
    exact h.lone.of_shared (fun a v e he _ => hent a v e he)
      fun a v e he => h.lone.hardware a v e (hent a v e he)
  plain := hplain
  zero := by rw [hr.zeroPage, hmem, h.zero]

/-- An address space goes. -/
theorem destroyAs (h : Forkable kept s) {as : ℕ} (has : ∃ sp, s.spaces as = some sp) :
    Safely Halts (fun t => Forkable kept t ∧ SameRest s t ∧ t.mem = s.mem ∧
        ∀ b, t.spaces b = if b = as then none else s.spaces b) (destroyAs s as) := by
  refine ((h.settled.destroyAs has).and
    (h.consistent.destroyAs h.settled.sound.toTidy has)).mono ?_
  rintro t ⟨⟨hs, -, -⟩, hc, -, hr, hmem, hspaces⟩
  have hsub : ∀ a sp, t.spaces a = some sp → s.spaces a = some sp := by
    intro a sp hsp
    rw [hspaces] at hsp
    split at hsp
    · cases hsp
    · exact hsp
  refine ⟨h.of_entries hs hc hr hmem (fun a v e he => ?_)
    fun a sp hsp => h.plain a sp (hsub a sp hsp), hr, hmem, hspaces⟩
  rw [State.entry, hspaces] at he
  split at he
  · cases he
  · exact he

end Forkable

/-! ## The VMAs of the child -/

/-- The state `s` in the first loop of `as_snapshot` from `s₀` on: the address space `new` has
some of the VMAs `vma`, and no page entries. -/
structure Mirrors (kept : List ℕ) (s₀ : State) (new : ℕ) (vma : List VmArea) (s : State) :
    Prop where
  forkable : Forkable kept s
  current : s.current = s₀.current
  entry : s.entry = s₀.entry
  mem : s.mem = s₀.mem
  other : ∀ b, b ≠ new → s.spaces b = s₀.spaces b
  child : ∃ c, s.spaces new = some c ∧ Backs .head c.vma ∧ ∀ x, Covered c.vma x → Covered vma x

namespace Mirrors

variable {kept : List ℕ} {s₀ s : State} {new : ℕ} {vma : List VmArea}

/-- The VMAs of the child change. -/
theorem setVmas (h : Mirrors kept s₀ new vma s) {c c' : AddressSpace} (hc : s.spaces new = some c)
    (hmap : c'.vaddrMap = c.vaddrMap) (hs : Settled True False kept (s.setSpace new c'))
    (hplain : c'.Plain) (hbacks : Backs .head c'.vma)
    (hcov : ∀ x, Covered c'.vma x → Covered vma x) :
    Mirrors kept s₀ new vma (s.setSpace new c') := by
  refine ⟨h.forkable.setVmas hc hmap hs hplain, h.current,
    (entry_setSpace_vma hc hmap).trans h.entry, h.mem, fun b hb => ?_,
    ⟨c', setSpace_spaces s new c', hbacks, hcov⟩⟩
  exact (Function.update_of_ne hb ..).trans (h.other b hb)

/-- One VMA of the parent. -/
theorem snapshotVma (h : Mirrors kept s₀ new vma s) {v : VmArea} (hv : v ∈ vma)
    (hplain : v.Plain) : Safely Halts (Mirrors kept s₀ new vma) (snapshotVma new s v) := by
  obtain ⟨c, hc, hbacks, hcov⟩ := h.child
  have hcp := h.forkable.plain new c hc
  have hsettled : Safely Halts _ (insertVmaToVaddr s new v.vmaBegin v.vmaLength v.vmaFlags) :=
    h.forkable.settled.insertVmaToVaddr hc False.elim
  rw [insertVmaToVaddr_eq hc, safely_ok] at hsettled
  have hbump : Mirrors kept s₀ new vma (s.setSpace new { c with vmaPool := c.vmaPool + 1 }) :=
    h.setVmas hc rfl (h.forkable.settled.bumpPool hc) (hcp.of_vma rfl) hbacks hcov
  rw [Mm.snapshotVma, if_neg (by simp [hplain.software])]
  simp only [insertVmaToVaddr_eq hc, safely_bind, safely_ok, safely_pure]
  split
  · exact hbump
  split
  · exact hbump
  rename_i hal hrange
  rw [if_neg hal, if_neg hrange] at hsettled
  split
  · exact hbump
  · rename_i l hl
    rw [hl] at hsettled
    have hnew : (c.newVma v.vmaBegin v.vmaLength v.vmaFlags).Plain :=
      hplain.congr rfl hplain.small.symm rfl rfl
    obtain ⟨hins, hbacks'⟩ := (aspaceAddVma_spec hcp.ordered
      (fun w hw => (hcp.plain w hw).noWrap) hnew.noWrap hbacks).2 l hl
    refine h.setVmas hc rfl hsettled.1 (hcp.insert hnew rfl hins _) hbacks' fun x hx => ?_
    rcases (hins.covered x).1 hx with hx | hx
    · exact ⟨v, hv, hx⟩
    · exact hcov x hx

theorem vmas (h : Mirrors kept s₀ new vma s) (hplain : ∀ v ∈ vma, v.Plain) :
    Safely Halts (Mirrors kept s₀ new vma) (vma.foldlM (Mm.snapshotVma new) s) := by
  refine Safely.mono (safely_foldlM (fun rest s' => Mirrors kept s₀ new vma s' ∧ rest ⊆ vma)
    ⟨h, List.Subset.refl _⟩ ?_) fun s' hs' => hs'.1
  rintro v rest s₁ ⟨h₁, hsub⟩
  rw [List.cons_subset] at hsub
  exact (h₁.snapshotVma hsub.1 (hplain v hsub.1)).mono fun s₂ h₂ => ⟨h₂, hsub.2⟩

end Mirrors

/-! ## The page entries of the child -/

/-- The state `s` in the second loop of `as_snapshot` from `s₁` on: the entries in `done` are
snapshots in the address space `new`, at the addresses that its VMAs cover. -/
structure Snapped (kept : List ℕ) (s₁ : State) (new : ℕ) (c : AddressSpace)
    (done : List (ℕ × PageEntry)) (s : State) : Prop where
  forkable : Forkable kept s
  shape : SameShape s₁ s
  mem : s.mem = s₁.mem
  other : ∀ b v, b ≠ new → s.entry b v = s₁.entry b v
  child : ∀ v e, s.entry new v = some e ↔
    ∃ e₀, (v, e₀) ∈ done ∧ Covered c.vma v ∧ e = ⟨e₀.p, PF_SNAPSHOT⟩

namespace Snapped

variable {kept : List ℕ} {s₁ s : State} {new : ℕ} {c : AddressSpace} {done : List (ℕ × PageEntry)}

/-- One entry of the parent `cur`. -/
theorem pageEntryVisitor (h : Snapped kept s₁ new c done s) (hc : s₁.spaces new = some c)
    {cur : ℕ} {x : ℕ × PageEntry} (hx : s₁.entry cur x.1 = some x.2) (hne : cur ≠ new)
    (hnot : x.1 ∉ done.map Prod.fst) :
    Safely Halts (Snapped kept s₁ new c (done ++ [x])) (pageEntryVisitor new s x) := by
  have hx' : s.entry cur x.1 = some x.2 := (h.other cur x.1 hne).trans hx
  have hshape := h.shape.shape new
  rw [hc, Option.map_some] at hshape
  obtain ⟨c', hc', heq⟩ := Option.map_eq_some_iff.1 hshape
  have hcov := covered_of_shape heq x.1
  have hnone : s.entry new x.1 = none := by
    rw [Option.eq_none_iff_forall_ne_some]
    intro e he
    obtain ⟨e₀, hmem, -⟩ := (h.child x.1 e).1 he
    exact hnot (List.mem_map.2 ⟨(x.1, e₀), hmem, rfl⟩)
  have hold : ∀ v e, (∃ e₀, (v, e₀) ∈ done ++ [x] ∧ Covered c.vma v ∧ e = ⟨e₀.p, PF_SNAPSHOT⟩) ↔
      (v = x.1 ∧ Covered c.vma v ∧ e = ⟨x.2.p, PF_SNAPSHOT⟩) ∨ s.entry new v = some e := by
    intro v e
    rw [h.child]
    simp only [List.mem_append, List.mem_singleton, or_and_right, exists_or, Prod.ext_iff]
    rw [or_comm]
    refine or_congr_left ⟨?_, ?_⟩
    · rintro ⟨e₀, ⟨hv, rfl⟩, hcv, he⟩
      exact ⟨hv, hcv, he⟩
    · rintro ⟨hv, hcv, he⟩
      exact ⟨x.2, ⟨hv, rfl⟩, hcv, he⟩
  rw [Mm.pageEntryVisitor, if_neg (by simp [h.forkable.lone.hardware cur x.1 x.2 hx'])]
  simp only [safely_bind, safely_pure]
  refine (h.forkable.assignPage hc' (h.forkable.mapped.canon cur x.1 x.2 hx') hnone
    (.inr ⟨cur, x.1, x.2, fun heq => hne (Prod.mk.inj heq).1, hx', rfl⟩)).mono ?_
  rintro ⟨ret, t⟩ ⟨ht, ⟨hnot, hsame⟩ | ⟨hcovered, hadded⟩⟩
  · -- no VMA of the child covers the address
    dsimp only at hsame
    subst hsame
    refine ⟨h.forkable, h.shape, h.mem, h.other, fun v e => ?_⟩
    rw [hold]
    refine (or_iff_right ?_).symm
    rintro ⟨rfl, hcv, -⟩
    exact hnot (hcov.2 hcv)
  · refine ⟨ht, h.shape.trans hadded.toFrame.sameShape, hadded.mem.trans h.mem,
      fun b v hb => ?_, fun v e => ?_⟩
    · rw [hadded.entry, updEnt_of_ne (o := (b, v)) fun heq => hb (Prod.mk.inj heq).1]
      exact h.other b v hb
    · rw [hold, hadded.entry_iff hnone]
      refine or_congr_left ⟨?_, ?_⟩
      · rintro ⟨heq, rfl⟩
        obtain rfl : v = x.1 := (Prod.mk.inj heq).2
        exact ⟨rfl, hcov.1 hcovered, rfl⟩
      · rintro ⟨rfl, -, rfl⟩
        exact ⟨rfl, rfl⟩

theorem entries (hf : Forkable kept s₁) (hc : s₁.spaces new = some c)
    (hempty : ∀ v, s₁.entry new v = none) {cur : ℕ} (hne : cur ≠ new)
    {l : List (ℕ × PageEntry)} (hl : ∀ x ∈ l, s₁.entry cur x.1 = some x.2)
    (hnodup : (l.map Prod.fst).Nodup) :
    Safely Halts (Snapped kept s₁ new c l) (l.foldlM (Mm.pageEntryVisitor new) s₁) := by
  have hstart : Snapped kept s₁ new c [] s₁ :=
    ⟨hf, SameShape.refl s₁, rfl, fun _ _ _ => rfl, fun v e => by simp [hempty]⟩
  refine Safely.mono (safely_foldlM (fun rest s' => ∃ done, done ++ rest = l ∧
    Snapped kept s₁ new c done s') ⟨[], rfl, hstart⟩ ?_) ?_
  · rintro x rest s' ⟨done, rfl, h⟩
    have hx : x ∈ done ++ x :: rest := by simp
    have hnot : x.1 ∉ done.map Prod.fst := by
      rw [List.map_append, List.map_cons, List.nodup_middle, List.nodup_cons] at hnodup
      exact fun hmem => hnodup.1 (List.mem_append_left _ hmem)
    exact (h.pageEntryVisitor hc (hl x hx) hne hnot).mono fun t ht => ⟨done ++ [x], by simp, ht⟩
  · rintro t ⟨done, hdone, h⟩
    rw [List.append_nil] at hdone
    exact hdone ▸ h

end Snapped

/-! ## The child -/

/-- The address space `new` is a snapshot of the current one, and the others stay. -/
structure Forked (s t : State) (new : ℕ) : Prop where
  current : t.current = s.current
  mem : t.mem = s.mem
  shape : ∀ b, b ≠ new →
    (t.spaces b).map AddressSpace.shape = (s.spaces b).map AddressSpace.shape
  other : ∀ b v, b ≠ new → t.entry b v = s.entry b v
  child : ∃ sp c, s.spaces s.current = some sp ∧ t.spaces new = some c ∧
    (∀ x, Covered c.vma x → Covered sp.vma x) ∧ ∀ v e, t.entry new v = some e ↔
      ∃ e₀, s.entry s.current v = some e₀ ∧ Covered c.vma v ∧ e = ⟨e₀.p, PF_SNAPSHOT⟩

theorem Forkable.asSnapshot {kept : List ℕ} {s : State} (h : Forkable kept s) {new : ℕ}
    {sp c : AddressSpace} (hsp : s.spaces s.current = some sp) (hc : s.spaces new = some c)
    (hvma : c.vma = []) (hempty : ∀ v, s.entry new v = none) (hne : s.current ≠ new) :
    Safely Halts (fun t => Forkable kept t ∧ Forked s t new) (asSnapshot s new) := by
  have hstart : Mirrors kept s new sp.vma s :=
    ⟨h, rfl, rfl, rfl, fun _ _ => rfl, c, hc, by rw [hvma]; trivial, by simp [hvma]⟩
  simp only [Mm.asSnapshot, safely_bind]
  rw [getSpace_eq hsp, safely_ok]
  refine (hstart.vmas (h.plain _ sp hsp).plain).mono ?_
  intro s₁ h₁
  obtain ⟨c₁, hc₁, -, hcov⟩ := h₁.child
  have hsp₁ : s₁.spaces s₁.current = some sp := by rw [h₁.current, h₁.other _ hne, hsp]
  rw [getSpace_eq hsp₁, safely_ok]
  have hl : ∀ x ∈ entriesInOrder sp.vaddrMap, s₁.entry s.current x.1 = some x.2 := by
    intro x hx
    rw [h₁.entry, entry_of_space hsp]
    exact Settled.mem_entriesInOrder.1 hx
  refine (Snapped.entries h₁.forkable hc₁ (fun v => by rw [h₁.entry, hempty]) hne hl
    (Settled.nodup_entriesInOrder _)).mono ?_
  intro t ht
  have hshape := ht.shape.shape new
  rw [hc₁, Option.map_some] at hshape
  obtain ⟨c₂, hc₂, heq⟩ := Option.map_eq_some_iff.1 hshape
  refine ⟨ht.forkable, ht.shape.current.trans h₁.current, ht.mem.trans h₁.mem, fun b hb => ?_,
    fun b v hb => ?_, sp, c₂, hsp, hc₂, fun x hx => hcov x ((covered_of_shape heq x).1 hx),
    fun v e => ?_⟩
  · rw [ht.shape.shape b, h₁.other b hb]
  · rw [ht.other b v hb, h₁.entry]
  · rw [ht.child]
    simp only [covered_of_shape heq, Settled.mem_entriesInOrder, entry_of_space hsp]

/-- A fork is one of the memories. -/
theorem Forked.shows {kept : List ℕ} {s t : State} {m : Memories} {new : ℕ}
    (h : ∀ a, a ≠ new → ShowsAt s m a) (hne : s.current ≠ new) (ht : Forkable kept t)
    (hf : Forked s t new) : Shows t (m.fork s.current new) := by
  intro a
  by_cases ha : a = new
  swap
  · exact (h a ha).congr (hf.shape a ha) (fun v => hf.other a v ha) hf.mem
      (Function.update_of_ne ha ..) (Function.update_of_ne ha ..)
  subst ha
  obtain ⟨sp, c, hsp, hc, hcov, hent⟩ := hf.child
  refine ⟨fun sp' x hsp' hx => ?_, fun v w _ _ => ?_⟩
  · obtain rfl : c = sp' := Option.some.inj (hc.symm.trans hsp')
    have hpage := ((ht.plain a c hc).covered_pageAlign x).2 hx
    rw [Memories.fork]
    dsimp only
    rw [Function.update_self, ← (h _ hne).byte sp x hsp (hcov x hx), State.readByte,
      State.readByte, State.viewByte, State.viewByte, hf.mem]
    cases he : s.entry s.current (pageAlign x) with
    | none =>
      have hnone : t.entry a (pageAlign x) = none := by
        rw [Option.eq_none_iff_forall_ne_some]
        intro e hte
        obtain ⟨e₀, he₀, -⟩ := (hent _ e).1 hte
        rw [he] at he₀
        cases he₀
      rw [hnone]
    | some e₀ =>
      rw [(hent _ _).2 ⟨e₀, he, hpage, rfl⟩]
      rfl
  · have hsame : (m.fork s.current a).same a = fun _ _ => false := Function.update_self ..
    rw [hsame]
    refine iff_of_false Bool.false_ne_true ?_
    rintro ⟨e, -, he, -, -, hs, -⟩
    obtain ⟨e₀, -, -, rfl⟩ := (hent v e).1 he
    exact absurd hs (show ¬hasFlag PF_SNAPSHOT PF_SHARED = true by decide)

/-- `asnew` of a snapshot is a fork, with or without a handle of the child. -/
theorem Forkable.asnew {kept : List ℕ} {s : State} (h : Forkable kept s) {m : Memories}
    (hlive : ∃ sp, s.spaces s.current = some sp) (hm : Shows s m) (tab : AsTable) :
    Safely Halts (fun r => Forkable kept r.2 ∧ Shows r.2 (m.fork s.current s.aspacePool))
      (asnew s tab true) := by
  obtain ⟨sp, hsp⟩ := hlive
  obtain ⟨s₁, hs₁⟩ : ∃ s₁, s₁ = (Mm.aspaceNew (disableInterrupts s)).2 := ⟨_, rfl⟩
  obtain ⟨h₁, hent₁⟩ := h.disable.aspaceNew
  rw [← hs₁] at h₁ hent₁
  have hfresh : s.spaces s.aspacePool = none := h.settled.sound.fresh _ le_rfl
  have hne : s.current ≠ s.aspacePool := by
    intro heq
    rw [heq, hfresh] at hsp
    cases hsp
  have hcur₁ : s₁.current = s.current := by rw [hs₁]; rfl
  have hmem₁ : s₁.mem = s.mem := by rw [hs₁]; rfl
  have hold : ∀ b, b ≠ s.aspacePool → s₁.spaces b = s.spaces b := by
    intro b hb
    rw [hs₁]
    exact Function.update_of_ne hb ..
  have hsp₁ : s₁.spaces s₁.current = some sp := by rw [hcur₁, hold _ hne, hsp]
  have hnew : ∃ c, s₁.spaces s.aspacePool = some c ∧ c.vma = [] := by
    rw [hs₁]
    exact ⟨_, Function.update_self .., rfl⟩
  have hshows : ∀ a, a ≠ s.aspacePool → ShowsAt s₁ m a := fun a ha =>
    (hm a).congr (by rw [hold a ha]) (fun v => by rw [hent₁]; rfl) hmem₁ rfl rfl
  have hempty : ∀ v, s₁.entry s.aspacePool v = none := by
    intro v
    rw [hent₁]
    simp [State.entry, disableInterrupts, hfresh]
  have hpair : Mm.aspaceNew (disableInterrupts s) = (s.aspacePool, s₁) := by
    rw [hs₁]
    rfl
  obtain ⟨c, hc, hvma⟩ := hnew
  rw [Mm.asnew]
  dsimp only
  rw [hpair]
  dsimp only
  split
  · -- no handle is free: the child goes again
    simp only [safely_bind, safely_pure]
    refine (h₁.destroyAs ⟨c, hc⟩).mono ?_
    rintro t ⟨ht, hr, hmem, hspaces⟩
    refine safely_enable ⟨ht.setCounter _, fun a => ?_⟩
    by_cases ha : a = s.aspacePool
    · exact showsAt_of_none ((hspaces a).trans (if_pos ha))
    · have hsame : t.spaces a = s₁.spaces a := (hspaces a).trans (if_neg ha)
      have hshow : ShowsAt t (m.fork s.current s.aspacePool) a :=
        (hshows a ha).congr (congrArg _ hsame)
          (fun v => by rw [State.entry, State.entry, hsame]) hmem
          (Function.update_of_ne ha ..) (Function.update_of_ne ha ..)
      exact hshow.congr rfl (fun _ => rfl) rfl rfl rfl
  · rw [if_pos rfl]
    simp only [safely_bind, safely_pure]
    refine (h₁.asSnapshot hsp₁ hc hvma hempty (hcur₁ ▸ hne)).mono ?_
    rintro t ⟨ht, hf⟩
    have hforked := hf.shows hshows (hcur₁ ▸ hne) ht
    rw [hcur₁] at hforked
    exact safely_enable ⟨ht.setCounter _, hforked.of_looks
      (Looks.of_same ((SameShape.refl t).setCounter _) rfl rfl)⟩

end SadOS.Mm
