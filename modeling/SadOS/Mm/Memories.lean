import SadOS.Mm.CopyBack
import SadOS.Mm.Unmap

/-!
# Private memories

What copy-on-write is to look like: each address space has a memory of its own, a fork copies
the whole of it, and a write changes the memory of the writer only, at all the addresses where
the writer has the page.

## Main definitions

* `Memories` — the memories, and which pages of an address space are the same.
* `Memories.step` — forks, writes and removals of a range.
* `ShowsAt`, `Shows` — the address spaces read as the memories say.
* `Looks` — two states that read alike.
* `AddressSpace.Plain`, `Forkable` — the states of ordinary memory.
-/

namespace SadOS.Mm

/-! ## The memories -/

/-- The memory of each address space, and the pairs of its pages that are the same page. -/
structure Memories where
  byte : ℕ → ℕ → UInt8
  same : ℕ → ℕ → ℕ → Bool

namespace Memories

/-- The child gets a copy of the memory of its parent, in which no two pages are the same. -/
def fork (m : Memories) (parent child : ℕ) : Memories where
  byte := Function.update m.byte child (m.byte parent)
  same := Function.update m.same child fun _ _ => false

/-- `y` is the address `x`, or reaches the same byte through another page. -/
def Reaches (m : Memories) (a x y : ℕ) : Prop :=
  y % 4096 = x % 4096 ∧ (pageAlign y = pageAlign x ∨ m.same a (pageAlign y) (pageAlign x) = true)

instance (m : Memories) (a x y : ℕ) : Decidable (m.Reaches a x y) :=
  inferInstanceAs (Decidable (_ ∧ (_ ∨ _)))

def write (m : Memories) (a x : ℕ) (b : UInt8) : Memories :=
  { m with byte := Function.update m.byte a fun y => if m.Reaches a x y then b else m.byte a y }

/-- The pages of a range are no longer the same as others. -/
def munmap (m : Memories) (a base len : ℕ) : Memories :=
  { m with same := Function.update m.same a fun v w =>
      m.same a v w && !decide (base ≤ v ∧ v < wadd base len) &&
        !decide (base ≤ w ∧ w < wadd base len) }

/-- What a step of the current address space means.  `new` is the address space that a fork
makes; a write outside the lower canonical half, and a range of parts of pages, are refused. -/
def step (cur new : ℕ) (m : Memories) : Op → Memories
  | .asnew true => m.fork cur new
  | .write vaddr b => if vaddr.toNat < 2 ^ 47 then m.write cur vaddr.toNat b else m
  | .munmap base len =>
    if isAligned base.toNat ∧ isAligned len.toNat then m.munmap cur base.toNat len.toNat else m
  | _ => m

end Memories

/-- What the address spaces read, where zeros stand for what was never touched. -/
def State.memories (s : State) : Memories where
  byte := s.readByte
  same a v w := (s.entry a v).any fun e => (s.entry a w).any fun e' =>
    e.p == e'.p && hasFlag e.flags PF_SHARED && hasFlag e'.flags PF_SHARED

/-- The addresses of the VMAs of `a` read as the memories say. -/
structure ShowsAt (s : State) (m : Memories) (a : ℕ) : Prop where
  byte : ∀ sp x, s.spaces a = some sp → Covered sp.vma x → s.readByte a x = m.byte a x
  same : ∀ v w, s.Live a → v ≠ w → (m.same a v w = true ↔ s.SharedOn (a, v) (a, w))

/-- All address spaces read as the memories say. -/
def Shows (s : State) (m : Memories) : Prop := ∀ a, ShowsAt s m a

theorem shows_memories (s : State) : Shows s s.memories := by
  refine fun a => ⟨fun _ _ _ _ => rfl, fun v w _ _ => ?_⟩
  simp only [State.memories, State.SharedOn, Option.any_eq_true, Bool.and_eq_true, beq_iff_eq]
  constructor
  · rintro ⟨e, he, e', he', ⟨hp, hs⟩, hs'⟩
    exact ⟨e, e', he, he', hp, hs, hs'⟩
  · rintro ⟨e, e', he, he', hp, hs, hs'⟩
    exact ⟨e, he, e', he', ⟨hp, hs⟩, hs'⟩

/-- The state `t` reads as `s` does, and the same pages are shared. -/
structure Looks (s t : State) : Prop extends SameShape s t where
  view : ∀ a v o, t.viewByte a v o = s.viewByte a v o
  shared : ∀ o o', o ≠ o' → (t.SharedOn o o' ↔ s.SharedOn o o')

/-! ## Ordinary memory -/

/-- A VMA of ordinary memory: whole pages of 4K, which may be written. -/
structure VmArea.Plain (v : VmArea) : Prop where
  writable : hasFlag v.vmaFlags VMA_RW = true
  software : hasFlag v.vmaFlags VMA_HW = false
  small : v.pageSize = 0
  begin_aligned : v.vmaBegin % 4096 = 0
  length_aligned : v.vmaLength % 4096 = 0
  noWrap : v.vmaBegin + v.vmaLength < 2 ^ 64

/-- The VMAs are sorted and disjoint, and list page entries of their own addresses. -/
structure AddressSpace.Plain (sp : AddressSpace) : Prop where
  ordered : Ordered sp.vma
  plain : ∀ v ∈ sp.vma, v.Plain
  covers : ∀ v ∈ sp.vma, ∀ vaddr ∈ v.pages, v.Covers vaddr

/-- The states of ordinary memory.  The counts agree with the page entries, the page lists in
flight and the pages that the kernel keeps; page tables agree with them too. -/
structure Forkable (kept : List ℕ) (s : State) : Prop where
  settled : Settled True False kept s
  mapped : Mapped [] s.physPages s.entry s.pte
  lone : Lone (s.others kept) s
  plain : ∀ a sp, s.spaces a = some sp → sp.Plain
  zero : s.mem s.zeroPage = fun _ => 0

/-! ## Pages and addresses -/

theorem pageAlign_mod (x : ℕ) : pageAlign x % 4096 = 0 := by
  rw [pageAlign]
  omega

theorem pageAlign_add_mod (x : ℕ) : pageAlign x + x % 4096 = x := by
  rw [pageAlign]
  omega

/-- Two addresses at the same place of the same page. -/
theorem eq_of_pageAlign {x y : ℕ} (h : pageAlign y = pageAlign x) (hmod : y % 4096 = x % 4096) :
    y = x := by
  rw [← pageAlign_add_mod x, ← pageAlign_add_mod y, h, hmod]

theorem slot_pageAlign (x : ℕ) : slot (pageAlign x) = slot x := by
  rw [slot, slot, pageAlign]
  omega

namespace VmArea.Plain

variable {v : VmArea}

/-- A VMA covers a page or none of it. -/
theorem covers_pageAlign (h : v.Plain) (x : ℕ) : v.Covers (pageAlign x) ↔ v.Covers x := by
  obtain ⟨-, -, -, hb, hl, hw⟩ := h
  rw [VmArea.Covers, VmArea.Covers, wadd_eq hw, pageAlign]
  omega

theorem contains_iff (h : v.Plain) (x : ℕ) : v.Contains x ↔ v.Covers x := by
  rw [VmArea.Contains, VmArea.Covers, wadd_eq h.noWrap]

/-- Only the bounds and the attributes matter. -/
theorem congr {w : VmArea} (h : v.Plain) (hflags : w.vmaFlags = v.vmaFlags)
    (hsize : w.pageSize = v.pageSize) (hb : w.vmaBegin = v.vmaBegin)
    (hl : w.vmaLength = v.vmaLength) : w.Plain := by
  obtain ⟨h₁, h₂, h₃, h₄, h₅, h₆⟩ := h
  exact ⟨by rw [hflags, h₁], by rw [hflags, h₂], by rw [hsize, h₃], by rw [hb, h₄],
    by rw [hl, h₅], by rwa [hb, hl]⟩

end VmArea.Plain

namespace AddressSpace.Plain

variable {sp sp' : AddressSpace}

theorem covered_pageAlign (h : sp.Plain) (x : ℕ) :
    Covered sp.vma (pageAlign x) ↔ Covered sp.vma x := by
  constructor
  · rintro ⟨v, hv, hc⟩
    exact ⟨v, hv, ((h.plain v hv).covers_pageAlign x).1 hc⟩
  · rintro ⟨v, hv, hc⟩
    exact ⟨v, hv, ((h.plain v hv).covers_pageAlign x).2 hc⟩

/-- The search finds the VMA that covers the address. -/
theorem find (h : sp.Plain) {x : ℕ} (hx : Covered sp.vma x) :
    ∃ v, vmaFindByVaddr x sp.vma = some v := by
  obtain ⟨v, hv, hc⟩ := hx
  exact vmaFind_of_contains h.ordered (fun v hv => (h.plain v hv).noWrap)
    ⟨v, hv, ((h.plain v hv).contains_iff x).2 hc⟩

theorem covered_of_find {x : ℕ} {v : VmArea} (hv : vmaFindByVaddr x sp.vma = some v) :
    Covered sp.vma x := by
  obtain ⟨hmem, hb⟩ := vmaFindByVaddr_spec hv
  exact ⟨v, hmem, hb⟩

theorem of_vma (h : sp.Plain) (hvma : sp'.vma = sp.vma) : sp'.Plain := by
  refine ⟨?_, ?_, ?_⟩ <;> rw [hvma]
  · exact h.ordered
  · exact h.plain
  · exact h.covers

/-- One page entry more, on the list of the VMA that covers its address. -/
theorem assign (h : sp.Plain) (hids : (idsOf sp.vma).Nodup) {x : ℕ} {v : VmArea}
    (hv : vmaFindByVaddr x sp.vma = some v) (pe : PageEntry) : (sp.assign v.id x pe).Plain := by
  obtain ⟨hmem, hb⟩ := vmaFindByVaddr_spec hv
  have hsame : ∀ u ∈ (sp.assign v.id x pe).vma, ∃ w ∈ sp.vma, u.shape = w.shape ∧
      (u.pages = w.pages ∨ w = v ∧ u.pages = x :: w.pages) := by
    intro u hu
    obtain ⟨w, hw, rfl⟩ := List.mem_map.1 hu
    refine ⟨w, hw, ?_⟩
    split
    · rename_i hid
      exact ⟨rfl, .inr ⟨eq_of_id hids hw hmem hid, rfl⟩⟩
    · exact ⟨rfl, .inl rfl⟩
  refine ⟨?_, fun u hu => ?_, fun u hu a ha => ?_⟩
  · have hord : ∀ l : List VmArea, Ordered (addSibling v.id x l) ↔ Ordered l := by
      intro l
      rw [Ordered, Ordered, addSibling, List.pairwise_map]
      refine List.Pairwise.iff fun y z => ?_
      split <;> split <;> rfl
    exact (hord sp.vma).2 h.ordered
  · obtain ⟨w, hw, hshape, -⟩ := hsame u hu
    simp only [VmArea.shape, Prod.mk.injEq] at hshape
    exact (h.plain w hw).congr hshape.2.1 hshape.2.2.1 hshape.2.2.2.1 hshape.2.2.2.2.1
  · obtain ⟨w, hw, hshape, hpages⟩ := hsame u hu
    simp only [VmArea.shape, Prod.mk.injEq] at hshape
    have hcov : ∀ y, w.Covers y → u.Covers y := by
      intro y hy
      rw [VmArea.Covers, hshape.2.2.2.1, hshape.2.2.2.2.1]
      exact hy
    rcases hpages with hpages | ⟨rfl, hpages⟩
    · exact hcov a (h.covers w hw a (hpages ▸ ha))
    · rw [hpages] at ha
      rcases List.mem_cons.1 ha with rfl | ha
      · exact hcov a hb
      · exact hcov a (h.covers w hw a ha)

end AddressSpace.Plain

/-- The covered addresses are a matter of the shape. -/
theorem covered_of_shape {sp sp' : AddressSpace} (h : sp'.shape = sp.shape) (x : ℕ) :
    Covered sp'.vma x ↔ Covered sp.vma x := by
  have hsub : ∀ {sp sp' : AddressSpace}, sp'.shape = sp.shape → Covered sp'.vma x →
      Covered sp.vma x := by
    rintro sp sp' h ⟨v, hv, hc⟩
    simp only [AddressSpace.shape, Prod.mk.injEq] at h
    have hmem : v.shape ∈ sp.vma.map VmArea.shape := by
      rw [← h.1]
      exact List.mem_map_of_mem hv
    obtain ⟨w, hw, heq⟩ := List.mem_map.1 hmem
    simp only [VmArea.shape, Prod.mk.injEq] at heq
    refine ⟨w, hw, ?_⟩
    rw [VmArea.Covers, heq.2.2.2.1, heq.2.2.2.2.1]
    exact hc
  exact ⟨hsub h, hsub h.symm⟩

/-! ## States that read alike -/

namespace Looks

variable {s t u : State}

@[refl] theorem refl (s : State) : Looks s s :=
    ⟨SameShape.refl s, fun _ _ _ => rfl, fun _ _ _ => Iff.rfl⟩

@[trans] theorem trans (h : Looks s t) (h' : Looks t u) : Looks s u :=
  ⟨h.toSameShape.trans h'.toSameShape, fun a v o => (h'.view a v o).trans (h.view a v o),
    fun o o' hne => (h'.shared o o' hne).trans (h.shared o o' hne)⟩

/-- Page entries and page contents are the same. -/
theorem of_same (hs : SameShape s t) (hentry : t.entry = s.entry) (hmem : t.mem = s.mem) :
    Looks s t := by
  refine ⟨hs, fun a v o => ?_, fun o o' _ => ?_⟩
  · rw [State.viewByte, State.viewByte, hentry, hmem]
  · rw [State.SharedOn, State.SharedOn, hentry]

theorem readByte (h : Looks s t) (a x : ℕ) : t.readByte a x = s.readByte a x := h.view a _ _

theorem live (h : Looks s t) (a : ℕ) : t.Live a ↔ s.Live a := by
  rw [State.Live, State.Live, h.toSameShape.spaces.live]

end Looks

theorem Shows.of_looks {s t : State} {m : Memories} (h : Shows s m) (hl : Looks s t) :
    Shows t m := by
  refine fun a => ⟨fun sp x hsp hx => ?_, fun v w ha hne => ?_⟩
  · have hshape := hl.shape a
    rw [hsp, Option.map_some] at hshape
    obtain ⟨sp₀, hsp₀, heq⟩ := Option.map_eq_some_iff.1 hshape.symm
    rw [hl.readByte]
    exact (h a).byte sp₀ x hsp₀ ((covered_of_shape heq.symm x).1 hx)
  · rw [hl.shared _ _ fun heq => hne (Prod.mk.inj heq).2]
    exact (h a).same v w ((hl.live a).1 ha) hne

/-- An address space that reads as before, with a memory that stays. -/
theorem ShowsAt.congr {s t : State} {m m' : Memories} {a : ℕ} (h : ShowsAt s m a)
    (hshape : (t.spaces a).map AddressSpace.shape = (s.spaces a).map AddressSpace.shape)
    (hent : ∀ v, t.entry a v = s.entry a v) (hmem : t.mem = s.mem) (hbyte : m'.byte a = m.byte a)
    (hsame : m'.same a = m.same a) : ShowsAt t m' a := by
  refine ⟨fun sp x hsp hx => ?_, fun v w ha hne => ?_⟩
  · rw [hsp, Option.map_some] at hshape
    obtain ⟨sp₀, hsp₀, heq⟩ := Option.map_eq_some_iff.1 hshape.symm
    rw [hbyte, ← h.byte sp₀ x hsp₀ ((covered_of_shape heq.symm x).1 hx)]
    simp only [State.readByte, State.viewByte, hent, hmem]
  · have hlive : s.Live a := by
      rw [State.Live, ← Option.isSome_map (f := AddressSpace.shape), ← hshape, Option.isSome_map]
      exact ha
    rw [hsame, h.same v w hlive hne, State.SharedOn, State.SharedOn, hent, hent]

/-- An address space that is not there. -/
theorem showsAt_of_none {t : State} {m : Memories} {a : ℕ} (h : t.spaces a = none) :
    ShowsAt t m a := by
  refine ⟨fun sp x hsp => ?_, fun v w ha => ?_⟩
  · rw [h] at hsp
    cases hsp
  · rw [State.Live, h] at ha
    cases ha

end SadOS.Mm
