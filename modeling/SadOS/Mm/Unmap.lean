import SadOS.Mm.VmaList
import Mathlib.Data.List.Flatten

/-!
# Removal of a range of addresses

What `remove_vma_range` leaves of a VMA list: `cutVmas` computes it, back links and page
lists included, without the state.

## Main definitions

* `VmArea.Covers` — an address is in a VMA.
* `AddressSpace.Placed` — each page entry hangs on the VMA that covers its address.
* `cutVmas` — the VMAs that are left of a list.
* `AddressSpace.Keeps` — VMAs keep their attributes, and back links are right.

## Main results

* `returns_removeVmaRange` — `remove_vma_range` computes `cutVmas`.
* `removeVmaRange_exact` — the addresses and the page entries that are left.
* `removeVmaRange_keeps_iff` — when attributes and back links are kept.
-/

namespace SadOS.Mm

/-- An address is in a VMA, by the test of `vma_find_by_vaddr`. -/
def VmArea.Covers (v : VmArea) (addr : ℕ) : Prop :=
  v.vmaBegin ≤ addr ∧ addr < wadd v.vmaBegin v.vmaLength

instance (v : VmArea) (addr : ℕ) : Decidable (v.Covers addr) :=
  inferInstanceAs (Decidable (_ ∧ _))

/-- The list is sorted and disjoint, and each page entry hangs on the VMA that covers its
address. -/
structure AddressSpace.Placed (sp : AddressSpace) : Prop where
  ordered : Ordered sp.vma
  hung : Hung [] sp
  covers : ∀ v ∈ sp.vma, ∀ vaddr ∈ v.pages, v.Covers vaddr

/-- The part of a VMA below `base`. -/
def VmArea.below (v : VmArea) (base : ℕ) : VmArea := { v with vmaLength := wsub base v.vmaBegin }

/-- The part of a VMA from `holeEnd` on. -/
def VmArea.above (v : VmArea) (holeEnd : ℕ) : VmArea :=
  { v with vmaBegin := holeEnd, vmaLength := wsub (wadd v.vmaBegin v.vmaLength) holeEnd }

/-- The range cuts the VMA in two. -/
def VmArea.CutBy (v : VmArea) (base holeEnd : ℕ) : Prop :=
  v.vmaBegin < base ∧ base < wadd v.vmaBegin v.vmaLength ∧
    v.vmaBegin < holeEnd ∧ holeEnd < wadd v.vmaBegin v.vmaLength

instance (v : VmArea) (base holeEnd : ℕ) : Decidable (v.CutBy base holeEnd) :=
  inferInstanceAs (Decidable (_ ∧ _))

/-- What `remove_vma_range` leaves of the list that `now` points to. -/
def cutVmas (base holeEnd nid : ℕ) (junk : ℕ × ℕ) : Link → List VmArea → List VmArea
  | _, [] => []
  | now, v :: rest =>
    let nowEnd := wadd v.vmaBegin v.vmaLength
    if nowEnd ≤ base then v :: cutVmas base holeEnd nid junk (.next v.id) rest
    else if holeEnd ≤ v.vmaBegin then v :: rest
    else if base ≤ v.vmaBegin ∧ nowEnd ≤ holeEnd then
      setPrev now (cutVmas base holeEnd nid junk now rest)
    else if v.vmaBegin < base ∧ holeEnd < nowEnd then
      { v.below base with pages := v.pages.filter fun a => decide (a < holeEnd ∧ ¬base ≤ a) } ::
        { v.above holeEnd with
          id := nid, vmaFlags := junk.1, pageSize := junk.2, prev := now
          pages := (v.pages.filter fun a => decide (holeEnd ≤ a)).reverse } ::
        setPrev (.next nid) rest
    else
      { (if v.vmaBegin < base then v.below base else v.above holeEnd) with
        pages := v.pages.filter fun a => decide (¬(base ≤ a ∧ a < holeEnd)) } ::
        cutVmas base holeEnd nid junk (.next v.id) rest

/-! ## The list that is left -/

/-- The VMAs without the page entries of `l`. -/
def dropPages (l : List ℕ) (vma : List VmArea) : List VmArea :=
  vma.map fun v => { v with pages := v.pages.diff l }

@[simp] theorem dropPages_append (l : List ℕ) (vma vma' : List VmArea) :
    dropPages l (vma ++ vma') = dropPages l vma ++ dropPages l vma' := List.map_append

@[simp] theorem dropPages_cons (l : List ℕ) (v : VmArea) (vma : List VmArea) :
    dropPages l (v :: vma) = { v with pages := v.pages.diff l } :: dropPages l vma := rfl

@[simp] theorem idsOf_dropPages (l : List ℕ) (vma : List VmArea) :
    idsOf (dropPages l vma) = idsOf vma := by
  simp [dropPages, idsOf, Function.comp_def]

theorem diff_eq_self {l l' : List ℕ} (h : ∀ a ∈ l, a ∉ l') : l'.diff l = l' := by
  induction l with
  | nil => simp
  | cons a l ih =>
    rw [List.diff_cons, List.erase_of_not_mem (h a List.mem_cons_self)]
    exact ih fun b hb => h b (List.mem_cons_of_mem _ hb)

/-- Page entries of other VMAs. -/
theorem dropPages_eq_self {l : List ℕ} {vma : List VmArea} (h : ∀ a ∈ l, a ∉ pagesOf vma) :
    dropPages l vma = vma := by
  rw [dropPages]
  conv_rhs => rw [← List.map_id vma]
  apply List.map_congr_left
  intro v hv
  rw [diff_eq_self fun a ha hmem => h a ha (List.mem_flatMap.2 ⟨v, hv, hmem⟩)]
  rfl

theorem diff_filter {l : List ℕ} (h : l.Nodup) (p q : ℕ → Bool) :
    (l.filter p).diff (l.filter q) = l.filter fun a => p a && !q a := by
  rw [(h.filter p).sdiff_eq_filter, List.filter_filter]
  apply List.filter_congr
  intro a ha
  simp [ha, Bool.and_comm]

/-- A loop of `unassign_page` takes entries off the VMAs. -/
theorem returns_unassignAll {as : ℕ} {sp : AddressSpace} {s : State} (hsp : s.spaces as = some sp)
    (l : List ℕ) :
    Returns (fun s' => ∃ sp', s'.spaces as = some sp' ∧ sp'.vma = dropPages l sp.vma ∧
      sp'.vmaPool = sp.vmaPool ∧ s'.vmaJunk = s.vmaJunk) (l.foldlM (unassignPage as) s) := by
  induction l generalizing s sp with
  | nil => exact ⟨sp, hsp, by simp [dropPages], rfl, rfl⟩
  | cons a l ih =>
    simp only [List.foldlM_cons, safely_bind]
    refine (effect_unassignPage as s a).mono ?_
    rintro s₁ ⟨sp₀, hsp₀, hq⟩
    rw [hsp, Option.some.injEq] at hsp₀
    subst hsp₀
    have hsp₁ : s₁.spaces as = some (sp.unassign a) := by
      rw [hq.spaces]
      exact Function.update_self ..
    refine (ih hsp₁).mono ?_
    rintro s₂ ⟨sp₂, hsp₂, hvma, hpool, hjunk⟩
    refine ⟨sp₂, hsp₂, ?_, hpool, hjunk.trans hq.vmaJunk⟩
    rw [hvma]
    simp [dropPages, AddressSpace.unassign, delSibling, Function.comp_def]

section Edits

variable {done rest : List VmArea} {v w : VmArea}

theorem unlinkVma_append (hid : w.id = v.id) (hnot : v.id ∉ idsOf done) (now : Link) :
    unlinkVma v.id now (done ++ w :: rest) = done ++ setPrev now rest := by
  induction done with
  | nil => rw [List.nil_append, unlinkVma, if_pos hid, List.nil_append]
  | cons x done ih =>
    rw [idsOf_cons, List.mem_cons, not_or] at hnot
    rw [List.cons_append, unlinkVma, if_neg (Ne.symm hnot.1), ih hnot.2, List.cons_append]

theorem splitVma_append (hnot : v.id ∉ idsOf done) (base holeEnd nid : ℕ)
    (junk : ℕ × ℕ) (now : Link) :
    splitVma v.id base holeEnd nid junk now (done ++ w :: rest) =
      done ++ splitVma v.id base holeEnd nid junk now (w :: rest) := by
  induction done with
  | nil => rfl
  | cons x done ih =>
    rw [idsOf_cons, List.mem_cons, not_or] at hnot
    rw [List.cons_append, splitVma, if_neg (Ne.symm hnot.1), ih hnot.2, List.cons_append]

theorem resizeVma_eq_self (hnot : v.id ∉ idsOf done) (b n : ℕ) : resizeVma v.id b n done = done := by
  rw [resizeVma]
  conv_rhs => rw [← List.map_id done]
  apply List.map_congr_left
  intro x hx
  rw [if_neg]
  · rfl
  · intro heq
    exact hnot (heq ▸ mem_idsOf hx)

theorem resizeVma_append (hid : w.id = v.id) (hnot : v.id ∉ idsOf done) (hrest : v.id ∉ idsOf rest)
    (b n : ℕ) : resizeVma v.id b n (done ++ w :: rest) =
      done ++ { w with vmaBegin := b, vmaLength := n } :: rest := by
  rw [resizeVma, List.map_append, List.map_cons, if_pos hid]
  exact congrArg₂ _ (resizeVma_eq_self hnot b n) (congrArg _ (resizeVma_eq_self hrest b n))

end Edits

theorem setPrev_cons (now : Link) (v : VmArea) (l : List VmArea) :
    setPrev now (v :: l) = { v with prev := now } :: l := rfl

@[simp] theorem setPrev_setPrev (now now' : Link) (l : List VmArea) :
    setPrev now (setPrev now' l) = setPrev now l := by
  cases l <;> rfl

theorem exists_setPrev (l : List VmArea) : ∃ p, setPrev p l = l := by
  cases l with
  | nil => exact ⟨.head, rfl⟩
  | cons v rest => exact ⟨v.prev, rfl⟩

/-- The first link may be set before or after. -/
theorem cutVmas_setPrev (base holeEnd nid : ℕ) (junk : ℕ × ℕ) (now : Link) (l : List VmArea) :
    cutVmas base holeEnd nid junk now (setPrev now l) =
      setPrev now (cutVmas base holeEnd nid junk now l) := by
  cases l with
  | nil => rfl
  | cons v rest =>
    simp only [setPrev_cons, cutVmas, VmArea.below, VmArea.above]
    split
    · rfl
    split
    · rfl
    split
    · rw [setPrev_setPrev]
    split
    · rfl
    · split <;> rfl

@[simp] theorem idsOf_append (l l' : List VmArea) : idsOf (l ++ l') = idsOf l ++ idsOf l' :=
  List.map_append

@[simp] theorem pagesOf_append (l l' : List VmArea) : pagesOf (l ++ l') = pagesOf l ++ pagesOf l' :=
  List.flatMap_append

@[simp] theorem dropPages_setPrev (l : List ℕ) (now : Link) (vma : List VmArea) :
    dropPages l (setPrev now vma) = setPrev now (dropPages l vma) := by
  cases vma <;> rfl

/-- The VMAs and their page entries are distinct. -/
structure AddressSpace.Distinct (sp : AddressSpace) : Prop where
  ids : (idsOf sp.vma).Nodup
  pages : (pagesOf sp.vma).Nodup
  id_lt : ∀ id ∈ idsOf sp.vma, id < sp.vmaPool

namespace AddressSpace.Distinct

variable {sp sp' : AddressSpace} {done rest : List VmArea} {v : VmArea}

theorem of_sublist (h : sp.Distinct) (hids : (idsOf sp'.vma).Sublist (idsOf sp.vma))
    (hpages : (pagesOf sp'.vma).Sublist (pagesOf sp.vma)) (hpool : sp'.vmaPool = sp.vmaPool) :
    sp'.Distinct := by
  refine ⟨hids.nodup h.ids, hpages.nodup h.pages, fun id hid => ?_⟩
  rw [hpool]
  exact h.id_lt id (hids.subset hid)

theorem dropPages (h : sp.Distinct) {l : List ℕ} (hvma : sp'.vma = Mm.dropPages l sp.vma)
    (hpool : sp'.vmaPool = sp.vmaPool) : sp'.Distinct := by
  refine h.of_sublist ?_ ?_ hpool
  · rw [hvma, idsOf_dropPages]
  · rw [hvma, pagesOf, pagesOf, Mm.dropPages, List.flatMap_map]
    exact List.Sublist.flatMap_right sp.vma fun v _ => List.diff_sublist _ _

/-- A VMA of the list is not among the others. -/
theorem idsAt (h : sp.Distinct) (hvma : sp.vma = done ++ v :: rest) :
    v.id ∉ idsOf done ∧ v.id ∉ idsOf rest := by
  have hids := h.ids
  rw [hvma, idsOf_append, idsOf_cons, List.nodup_append, List.nodup_cons] at hids
  obtain ⟨-, ⟨hrest, -⟩, hdone⟩ := hids
  exact ⟨fun hmem => hdone _ hmem _ List.mem_cons_self rfl, hrest⟩

/-- Its page entries are its own. -/
theorem pagesAt (h : sp.Distinct) (hvma : sp.vma = done ++ v :: rest) :
    v.pages.Nodup ∧ ∀ l ⊆ v.pages, Mm.dropPages l done = done ∧ Mm.dropPages l rest = rest := by
  have hpages := h.pages
  simp only [hvma, pagesOf_append, pagesOf_cons, List.nodup_append, List.mem_append] at hpages
  obtain ⟨-, ⟨hv, -, hvrest⟩, hdisj⟩ := hpages
  refine ⟨hv, fun l hl => ⟨dropPages_eq_self fun a ha hmem => ?_, dropPages_eq_self fun a ha hmem => ?_⟩⟩
  · exact hdisj a hmem a (.inl (hl ha)) rfl
  · exact hvrest a (hl ha) a hmem rfl

/-- The first case: the VMA goes. -/
theorem unlink (h : sp.Distinct) (hvma : sp.vma = done ++ v :: rest) (now : Link) :
    unlinkVma v.id now sp.vma = done ++ setPrev now rest ∧
      AddressSpace.Distinct { sp with vma := unlinkVma v.id now sp.vma } := by
  have heq : unlinkVma v.id now sp.vma = done ++ setPrev now rest := by
    rw [hvma, unlinkVma_append rfl (h.idsAt hvma).1]
  refine ⟨heq, h.of_sublist ?_ ?_ rfl⟩
  · dsimp only
    rw [heq, hvma, idsOf_append, idsOf_append, idsOf_setPrev, idsOf_cons]
    exact List.Sublist.append_left (List.sublist_cons_self _ _) _
  · dsimp only
    rw [heq, hvma, pagesOf_append, pagesOf_append, pagesOf_setPrev, pagesOf_cons]
    exact List.Sublist.append_left (List.sublist_append_right _ _) _

/-- The second: a VMA is cut in two. -/
theorem split (h : sp.Distinct) (hvma : sp.vma = done ++ v :: rest) (base holeEnd : ℕ)
    (junk : ℕ × ℕ) (now : Link) :
    AddressSpace.Distinct { sp with
      vmaPool := sp.vmaPool + 1
      vma := splitVma v.id base holeEnd sp.vmaPool junk now sp.vma } := by
  have hids := idsOf_splitVma (v := v) (l := sp.vma) (by simp [hvma]) base holeEnd sp.vmaPool junk now
  refine ⟨hids.nodup_iff.2 (List.nodup_cons.2 ⟨fun hmem => ?_, h.ids⟩),
    (pagesOf_splitVma v.id base holeEnd sp.vmaPool junk now sp.vma).nodup_iff.2 h.pages,
    fun id hid => ?_⟩
  · have := h.id_lt _ hmem
    omega
  · change id < sp.vmaPool + 1
    rcases List.mem_cons.1 (hids.subset hid) with rfl | hid
    · omega
    · have := h.id_lt id hid
      omega

/-- The third: it loses its begin or its end. -/
theorem resize (h : sp.Distinct) (hvma : sp.vma = done ++ v :: rest) (b n : ℕ) :
    resizeVma v.id b n sp.vma = done ++ { v with vmaBegin := b, vmaLength := n } :: rest ∧
      AddressSpace.Distinct { sp with vma := resizeVma v.id b n sp.vma } := by
  refine ⟨?_, h.of_sublist ?_ ?_ rfl⟩
  · rw [hvma, resizeVma_append rfl (h.idsAt hvma).1 (h.idsAt hvma).2]
  · rw [idsOf_resizeVma]
  · rw [pagesOf_resizeVma]

end AddressSpace.Distinct

/-- The loop of `remove_vma_range`, with the VMAs `l` left, whose first may have got a new
back link. -/
theorem returns_removeVmaRangeFrom {as base len : ℕ} {now p : Link} {l : List VmArea} {s : State}
    {sp : AddressSpace} (done : List VmArea) (hsp : s.spaces as = some sp)
    (hvma : sp.vma = done ++ setPrev p l) (h : sp.Distinct) :
    Returns (fun s' => ∃ sp', s'.spaces as = some sp' ∧ sp'.Distinct ∧
      sp'.vma = done ++ cutVmas base (wadd base len) sp.vmaPool (s.vmaJunk as sp.vmaPool) now
        (setPrev p l))
      (removeVmaRangeFrom as base len now l s) := by
  induction l generalizing now p s sp done with
  | nil => exact ⟨sp, hsp, h, hvma⟩
  | cons v rest ih =>
    rw [setPrev_cons] at hvma
    obtain ⟨p', hp'⟩ := exists_setPrev rest
    have hnext : sp.vma = (done ++ [{ v with prev := p }]) ++ setPrev p' rest := by
      rw [hvma, hp', List.append_assoc]
      rfl
    obtain ⟨hnodup, hkeep⟩ := h.pagesAt hvma
    rw [removeVmaRangeFrom, setPrev_cons, cutVmas]
    dsimp only
    by_cases h₁ : wadd v.vmaBegin v.vmaLength ≤ base
    · simp only [if_pos h₁]
      refine (ih _ hsp hnext h).mono ?_
      rintro s' ⟨sp', hsp', hd, hvma'⟩
      rw [hp', List.append_assoc] at hvma'
      exact ⟨sp', hsp', hd, hvma'⟩
    simp only [if_neg h₁]
    by_cases h₂ : wadd base len ≤ v.vmaBegin
    · simp only [if_pos h₂]
      exact ⟨sp, hsp, h, hvma⟩
    simp only [if_neg h₂]
    by_cases h₃ : base ≤ v.vmaBegin ∧ wadd v.vmaBegin v.vmaLength ≤ wadd base len
    · -- the whole VMA
      simp only [if_pos h₃]
      obtain ⟨heq, hd⟩ := h.unlink hvma now
      rw [modifyVma_eq hsp]
      simp only [safely_bind]
      refine (returns_unassignAll (setSpace_spaces s as _) v.pages).mono ?_
      rintro s₂ ⟨sp₂, hsp₂, hvma₂, hpool₂, hjunk₂⟩
      have hd₂ := hd.dropPages hvma₂ hpool₂
      have hlist : sp₂.vma = done ++ setPrev now rest := by
        rw [hvma₂]
        dsimp only
        rw [heq, dropPages_append, dropPages_setPrev, (hkeep v.pages (List.Subset.refl _)).1,
          (hkeep v.pages (List.Subset.refl _)).2]
      refine (ih done hsp₂ hlist hd₂).mono ?_
      rintro s' ⟨sp', hsp', hd', hvma'⟩
      rw [hpool₂, hjunk₂, cutVmas_setPrev] at hvma'
      exact ⟨sp', hsp', hd', hvma'⟩
    simp only [if_neg h₃]
    by_cases h₄ : v.vmaBegin < base ∧ wadd base len < wadd v.vmaBegin v.vmaLength
    · -- a hole in it
      simp only [if_pos h₄]
      rw [getSpace_eq hsp, ok_bind]
      refine (returns_unassignAll (setSpace_spaces s as _) _).mono ?_
      rintro s₂ ⟨sp₂, hsp₂, hvma₂, hpool₂, hjunk₂⟩
      have hd₂ := (h.split hvma base (wadd base len) (s.vmaJunk as sp.vmaPool) now).dropPages hvma₂ hpool₂
      refine ⟨sp₂, hsp₂, hd₂, ?_⟩
      have hsub := hkeep _ (List.filter_subset_self (p := fun a => decide (a < wadd base len ∧ base ≤ a)) v.pages)
      rw [hvma₂]
      dsimp only
      rw [hvma, splitVma_append (h.idsAt hvma).1, splitVma, if_pos rfl]
      simp only [dropPages_append, dropPages_cons, dropPages_setPrev, hsub.1, hsub.2]
      rw [diff_filter hnodup, diff_eq_self]
      · have hlow : (fun a => decide (a < wadd base len) && !decide (a < wadd base len ∧ base ≤ a)) =
            fun a => decide (a < wadd base len ∧ ¬base ≤ a) := by
          funext a
          rw [← decide_not, ← Bool.decide_and]
          exact decide_eq_decide.2 (by tauto)
        rw [hlow]
        rfl
      · intro a ha hmem
        simp only [List.mem_filter, List.mem_reverse, decide_eq_true_eq] at ha hmem
        omega
    · -- its begin or its end
      simp only [if_neg h₄, safely_bind]
      obtain ⟨b, n, hf, hpart⟩ : ∃ b n, (if v.vmaBegin < base then
          resizeVma v.id v.vmaBegin (wsub base v.vmaBegin)
          else resizeVma v.id (wadd base len) (wsub (wadd v.vmaBegin v.vmaLength) (wadd base len))) =
            resizeVma v.id b n ∧
          (if v.vmaBegin < base then VmArea.below { v with prev := p } base
            else VmArea.above { v with prev := p } (wadd base len)) =
            { v with vmaBegin := b, vmaLength := n, prev := p } := by
        split
        · exact ⟨_, _, rfl, rfl⟩
        · exact ⟨_, _, rfl, rfl⟩
      obtain ⟨heq, hd⟩ := h.resize hvma b n
      rw [hf, modifyVma_eq hsp]
      refine (returns_unassignAll (setSpace_spaces s as _) _).mono ?_
      rintro s₂ ⟨sp₂, hsp₂, hvma₂, hpool₂, hjunk₂⟩
      have hd₂ := hd.dropPages hvma₂ hpool₂
      have hsub := hkeep _ (List.filter_subset_self
        (p := fun a => decide (base ≤ a ∧ a < wadd base len)) v.pages)
      have hout : v.pages.diff (v.pages.filter fun a => decide (base ≤ a ∧ a < wadd base len)) =
          v.pages.filter fun a => decide (¬(base ≤ a ∧ a < wadd base len)) := by
        rw [hnodup.sdiff_eq_filter]
        apply List.filter_congr
        intro a ha
        simp [ha]
      have hlist : sp₂.vma = (done ++ [{ v with
          vmaBegin := b, vmaLength := n, prev := p
          pages := v.pages.filter fun a => decide (¬(base ≤ a ∧ a < wadd base len)) }]) ++
          setPrev p' rest := by
        rw [hvma₂]
        dsimp only at heq ⊢
        rw [heq, dropPages_append, dropPages_cons, hsub.1, hsub.2, hp', hout, List.append_assoc]
        rfl
      refine (ih _ hsp₂ hlist hd₂).mono ?_
      rintro s' ⟨sp', hsp', hd', hvma'⟩
      rw [hpool₂, hjunk₂, hp', List.append_assoc] at hvma'
      refine ⟨sp', hsp', hd', ?_⟩
      rw [hvma', hpart]
      rfl

theorem returns_removeVmaRange {as base len : ℕ} {s : State} {sp : AddressSpace}
    (hsp : s.spaces as = some sp) (h : sp.Distinct) :
    Returns (fun s' => ∃ sp', s'.spaces as = some sp' ∧ sp'.Distinct ∧
      sp'.vma = cutVmas base (wadd base len) sp.vmaPool (s.vmaJunk as sp.vmaPool) .head sp.vma)
      (removeVmaRange s as base len) := by
  obtain ⟨p, hp⟩ := exists_setPrev sp.vma
  unfold removeVmaRange
  split
  · rw [getSpace_eq hsp, ok_bind]
    have hloop := @returns_removeVmaRangeFrom as base len .head p sp.vma s sp [] hsp hp.symm h
    rwa [hp] at hloop
  · simp

/-! ## Attributes and back links -/

theorem wadd_wsub {a b : ℕ} (ha : a < 2 ^ 64) : wadd b (wsub a b) = a := by
  simp only [wadd, wsub]
  omega

theorem wadd_lt (a b : ℕ) : wadd a b < 2 ^ 64 := Nat.mod_lt _ (by decide)

namespace VmArea

variable {v : VmArea} {base holeEnd addr : ℕ}

theorem below_covers (hbase : base < 2 ^ 64) :
    (v.below base).Covers addr ↔ v.vmaBegin ≤ addr ∧ addr < base := by
  simp only [Covers, below, wadd_wsub hbase]

theorem above_covers :
    (v.above holeEnd).Covers addr ↔ holeEnd ≤ addr ∧ addr < wadd v.vmaBegin v.vmaLength := by
  simp only [Covers, above, wadd_wsub (wadd_lt _ _)]

theorem Covers.contains (h : v.Covers addr) : v.Contains addr :=
  ⟨h.1, h.2.trans_le (wadd_le _ _)⟩

end VmArea

section Cut

variable {base holeEnd nid : ℕ} {junk : ℕ × ℕ} {now : Link} {l : List VmArea}

/-- What holds of VMAs whatever their back links. -/
theorem forall_setPrev {P : VmArea → Prop} (hP : ∀ v p, P v → P { v with prev := p })
    (h : ∀ v ∈ l, P v) : ∀ v ∈ setPrev now l, P v := by
  cases l with
  | nil => exact h
  | cons w rest =>
    intro v hv
    rcases List.mem_cons.1 hv with rfl | hv
    · exact hP w now (h w List.mem_cons_self)
    · exact h v (List.mem_cons_of_mem _ hv)

/-- Each VMA that is left is a part of one with the same attributes. -/
theorem cutVmas_part (hbase : base < 2 ^ 64) (hcut : ∀ v ∈ l, ¬v.CutBy base holeEnd) :
    ∀ w ∈ cutVmas base holeEnd nid junk now l, ∃ v ∈ l, w.vmaFlags = v.vmaFlags ∧
      w.pageSize = v.pageSize ∧ ∀ a, w.Covers a → v.Covers a := by
  induction l generalizing now with
  | nil => simp [cutVmas]
  | cons v rest ih =>
    have hrest : ∀ now, ∀ w ∈ cutVmas base holeEnd nid junk now rest, ∃ v' ∈ v :: rest,
        w.vmaFlags = v'.vmaFlags ∧ w.pageSize = v'.pageSize ∧ ∀ a, w.Covers a → v'.Covers a := by
      intro now w hw
      obtain ⟨v', hv', h⟩ := ih (fun u hu => hcut u (List.mem_cons_of_mem _ hu)) w hw
      exact ⟨v', List.mem_cons_of_mem _ hv', h⟩
    have hv' := hcut v List.mem_cons_self
    rw [cutVmas]
    dsimp only
    split
    · intro w hw
      rcases List.mem_cons.1 hw with rfl | hw
      · exact ⟨w, List.mem_cons_self, rfl, rfl, fun _ h => h⟩
      · exact hrest _ w hw
    split
    · exact fun w hw => ⟨w, hw, rfl, rfl, fun _ h => h⟩
    split
    · exact forall_setPrev (fun _ _ h => h) (hrest now)
    rename_i hnear hfar hin
    split
    · rename_i hsplit
      exact absurd ⟨hsplit.1, by omega, by omega, hsplit.2⟩ hv'
    · rename_i hsplit
      intro w hw
      rcases List.mem_cons.1 hw with rfl | hw
      · refine ⟨v, List.mem_cons_self, ?_⟩
        split
        · refine ⟨rfl, rfl, fun a ha => ?_⟩
          obtain ⟨hle, hlt⟩ := (VmArea.below_covers hbase).1 (show (v.below base).Covers a from ha)
          exact ⟨hle, by omega⟩
        · refine ⟨rfl, rfl, fun a ha => ?_⟩
          obtain ⟨hle, hlt⟩ := VmArea.above_covers.1 (show (v.above holeEnd).Covers a from ha)
          exact ⟨by omega, hlt⟩
      · exact hrest _ w hw

theorem Backs.setPrev_eq (h : Backs now l) : setPrev now l = l := by
  cases l with
  | nil => rfl
  | cons v rest => rw [setPrev_cons, ← h.1]

theorem backs_cutVmas_setPrev {p : Link} (hb : Backs p l) (hcut : ∀ v ∈ l, ¬v.CutBy base holeEnd) :
    Backs now (setPrev now (cutVmas base holeEnd nid junk now l)) := by
  induction l generalizing now p with
  | nil => trivial
  | cons v rest ih =>
    have hcut' : ∀ v ∈ rest, ¬v.CutBy base holeEnd := fun u hu => hcut u (List.mem_cons_of_mem _ hu)
    have hv := hcut v List.mem_cons_self
    have hnext : Backs (.next v.id) (cutVmas base holeEnd nid junk (.next v.id) rest) := by
      have h := @ih (.next v.id) (.next v.id) hb.2 hcut'
      rwa [← cutVmas_setPrev, hb.2.setPrev_eq] at h
    rw [cutVmas]
    dsimp only
    split
    · exact ⟨rfl, hnext⟩
    split
    · exact ⟨rfl, hb.2⟩
    split
    · rw [setPrev_setPrev]
      exact ih hb.2 hcut'
    rename_i hnear hfar hin
    split
    · rename_i hsplit
      exact absurd ⟨hsplit.1, by omega, by omega, hsplit.2⟩ hv
    · refine ⟨rfl, ?_⟩
      dsimp only
      split <;> exact hnext

/-- The back links are right if no VMA is cut in two. -/
theorem backs_cutVmas (hb : Backs now l) (hcut : ∀ v ∈ l, ¬v.CutBy base holeEnd) :
    Backs now (cutVmas base holeEnd nid junk now l) := by
  have h := @backs_cutVmas_setPrev base holeEnd nid junk now l now hb hcut
  rwa [← cutVmas_setPrev, hb.setPrev_eq] at h

/-- A VMA that is cut in two breaks them. -/
theorem not_backs_cutVmas (ho : Ordered l) (hids : (idsOf l).Nodup)
    (hnow : ∀ id ∈ idsOf l, now ≠ .next id) {v : VmArea} (hv : v ∈ l)
    (hcut : v.CutBy base holeEnd) : ¬Backs now (cutVmas base holeEnd nid junk now l) := by
  induction l generalizing now with
  | nil => cases hv
  | cons u rest ih =>
    obtain ⟨h₁, h₂, h₃, h₄⟩ := hcut
    rw [idsOf_cons, List.nodup_cons] at hids
    rw [cutVmas]
    dsimp only
    rcases List.mem_cons.1 hv with rfl | hv
    · rw [if_neg (by omega), if_neg (by omega), if_neg (by omega), if_pos ⟨h₁, h₄⟩]
      rintro ⟨-, hp, -⟩
      exact hnow v.id List.mem_cons_self hp
    · have hle := ho.le hv
      have hwrap := wadd_le u.vmaBegin u.vmaLength
      rw [if_pos (by omega)]
      rintro ⟨-, hb⟩
      refine ih ho.of_cons hids.2 (fun id hid heq => ?_) hv hb
      injection heq with heq
      exact hids.1 (heq ▸ hid)

end Cut

/-- The VMAs that are left have the attributes they had, and back links are right. -/
structure AddressSpace.Keeps (sp sp' : AddressSpace) : Prop where
  attributes : ∀ w ∈ sp'.vma, ∀ v ∈ sp.vma, ∀ addr, w.Covers addr → v.Covers addr →
    w.vmaFlags = v.vmaFlags ∧ w.pageSize = v.pageSize
  links : BackLinks sp'.vma

/-- No two VMAs cover an address. -/
theorem Ordered.eq_of_covers {l : List VmArea} (ho : Ordered l) {v w : VmArea} (hv : v ∈ l)
    (hw : w ∈ l) {addr : ℕ} (hva : v.Covers addr) (hwa : w.Covers addr) : v = w := by
  induction l with
  | nil => cases hv
  | cons u rest ih =>
    have hsep : ∀ x ∈ rest, ∀ y, y = u → ¬(x.Covers addr ∧ y.Covers addr) := by
      rintro x hx y rfl ⟨hxa, hya⟩
      have h₁ := ho.le hx
      have h₂ := hxa.contains.1
      have h₃ := hya.contains.2
      omega
    rcases List.mem_cons.1 hv with hvu | hv
    · rcases List.mem_cons.1 hw with hwu | hw
      · exact hvu.trans hwu.symm
      · exact absurd ⟨hwa, hva⟩ (hsep w hw v hvu)
    · rcases List.mem_cons.1 hw with hwu | hw
      · exact absurd ⟨hva, hwa⟩ (hsep v hv w hwu)
      · exact ih ho.of_cons hv hw

theorem AddressSpace.Placed.distinct {sp : AddressSpace} (h : sp.Placed) : sp.Distinct :=
  ⟨h.hung.ids, by simpa using h.hung.nodup, h.hung.id_lt⟩

section Keeps

variable {as base len : ℕ} {s s' : State} {sp sp' : AddressSpace}

theorem not_keeps_of_cutBy (hsp : s.spaces as = some sp) (hp : sp.Placed)
    (hok : removeVmaRange s as base len = .ok s') (hsp' : s'.spaces as = some sp') {v : VmArea}
    (hv : v ∈ sp.vma) (hcut : v.CutBy base (wadd base len)) : ¬sp.Keeps sp' := by
  obtain ⟨sp₁, hsp₁, hd, hvma⟩ := (returns_removeVmaRange hsp hp.distinct).of_ok hok
  rw [hsp', Option.some.injEq] at hsp₁
  subst hsp₁
  rintro ⟨-, hl⟩
  rw [backLinks_iff hd.ids, hvma] at hl
  exact not_backs_cutVmas hp.ordered hp.hung.ids (fun _ _ => by simp) hv hcut hl

theorem keeps_of_not_cutBy (hsp : s.spaces as = some sp) (hp : sp.Placed)
    (hlinks : BackLinks sp.vma) (hbase : base < 2 ^ 64) (hok : removeVmaRange s as base len = .ok s')
    (hsp' : s'.spaces as = some sp') (hcut : ∀ v ∈ sp.vma, ¬v.CutBy base (wadd base len)) :
    sp.Keeps sp' := by
  obtain ⟨sp₁, hsp₁, hd, hvma⟩ := (returns_removeVmaRange hsp hp.distinct).of_ok hok
  rw [hsp', Option.some.injEq] at hsp₁
  subst hsp₁
  refine ⟨fun w hw v hv addr hwa hva => ?_, ?_⟩
  · rw [hvma] at hw
    obtain ⟨u, hu, hflags, hsize, hpart⟩ := cutVmas_part hbase hcut w hw
    obtain rfl := hp.ordered.eq_of_covers hu hv (hpart addr hwa) hva
    exact ⟨hflags, hsize⟩
  · rw [backLinks_iff hd.ids, hvma]
    exact backs_cutVmas ((backLinks_iff hp.hung.ids).1 hlinks) hcut

/-- The removal keeps attributes and back links exactly if it cuts no VMA in two. -/
theorem removeVmaRange_keeps_iff (hsp : s.spaces as = some sp) (hp : sp.Placed)
    (hlinks : BackLinks sp.vma) (hbase : base < 2 ^ 64) (hok : removeVmaRange s as base len = .ok s')
    (hsp' : s'.spaces as = some sp') :
    sp.Keeps sp' ↔ ¬∃ v ∈ sp.vma, v.CutBy base (wadd base len) := by
  constructor
  · rintro hkeeps ⟨v, hv, hcut⟩
    exact not_keeps_of_cutBy hsp hp hok hsp' hv hcut hkeeps
  · intro hcut
    exact keeps_of_not_cutBy hsp hp hlinks hbase hok hsp' fun v hv h => hcut ⟨v, hv, h⟩

end Keeps

theorem gapped_placed : gapped.Placed where
  ordered := gapped_listed.ordered
  hung := ⟨by decide, fun v => by simp [gapped], gapped_listed.ids, gapped_listed.id_lt⟩
  covers := by simp [gapped]

/-- The upper VMA loses its first page. -/
theorem removeVmaRange_keeps_iff_gapped :
    ∃ s' sp', removeVmaRange ((World.boot [] 0).mm.setSpace 0 gapped) 0 0x402000 0x1000 = .ok s' ∧
      s'.spaces 0 = some sp' ∧ gapped.Keeps sp' := by
  obtain ⟨s', hok⟩ : ∃ s', removeVmaRange ((World.boot [] 0).mm.setSpace 0 gapped) 0 0x402000 0x1000 =
      .ok s' := by
    rw [← isOk_iff]
    decide +kernel
  obtain ⟨sp', hsp', -⟩ :=
    (returns_removeVmaRange (setSpace_spaces _ 0 gapped) gapped_placed.distinct).of_ok hok
  refine ⟨s', sp', hok, hsp', (removeVmaRange_keeps_iff (setSpace_spaces _ 0 gapped) gapped_placed
    gapped_listed.links (by decide) hok hsp').2 ?_⟩
  simp only [VmArea.CutBy]
  decide

/-- A hole in the upper VMA. -/
theorem removeVmaRange_keeps_fails : ¬∀ (s s' : State) (sp sp' : AddressSpace) (as base len : ℕ),
    s.spaces as = some sp → sp.Placed → BackLinks sp.vma → base < 2 ^ 64 →
      removeVmaRange s as base len = .ok s' → s'.spaces as = some sp' → sp.Keeps sp' := by
  intro h
  obtain ⟨s', hok⟩ : ∃ s', removeVmaRange ((World.boot [] 0).mm.setSpace 0 gapped) 0 0x403000 0x1000 =
      .ok s' := by
    rw [← isOk_iff]
    decide +kernel
  obtain ⟨sp', hsp', -⟩ :=
    (returns_removeVmaRange (setSpace_spaces _ 0 gapped) gapped_placed.distinct).of_ok hok
  refine not_keeps_of_cutBy (v := ⟨1, 0, 0, 0x402000, 0x3000, [], .next 0⟩) (setSpace_spaces _ 0 gapped)
    gapped_placed hok hsp' (by simp [gapped]) ?_ ?_
  · simp only [VmArea.CutBy]
    decide
  · exact h _ s' gapped sp' 0 0x403000 0x1000 (setSpace_spaces _ 0 gapped) gapped_placed
      gapped_listed.links (by decide) hok hsp'

/-! ## What is left -/

/-- An address is in one of the VMAs. -/
def Covered (l : List VmArea) (addr : ℕ) : Prop := ∃ v ∈ l, v.Covers addr

instance (l : List VmArea) (addr : ℕ) : Decidable (Covered l addr) :=
  inferInstanceAs (Decidable (∃ v ∈ l, v.Covers addr))

@[simp] theorem covered_nil (addr : ℕ) : ¬Covered [] addr := by
  simp [Covered]

@[simp] theorem covered_cons (v : VmArea) (l : List VmArea) (addr : ℕ) :
    Covered (v :: l) addr ↔ v.Covers addr ∨ Covered l addr := by
  simp [Covered]

@[simp] theorem covered_setPrev (now : Link) (l : List VmArea) (addr : ℕ) :
    Covered (setPrev now l) addr ↔ Covered l addr := by
  cases l with
  | nil => rfl
  | cons v rest =>
    rw [setPrev_cons, covered_cons, covered_cons]
    rfl

section Exact

variable {base holeEnd nid : ℕ} {junk : ℕ × ℕ} {now : Link} {l : List VmArea}

/-- The addresses of a sorted list are not below its first VMA. -/
theorem Covered.le {v : VmArea} {addr : ℕ} (ho : Ordered (v :: l)) (h : Covered l addr) :
    wadd v.vmaBegin v.vmaLength ≤ addr ∧ v.vmaBegin ≤ addr := by
  obtain ⟨w, hw, hc⟩ := h
  have hend := (ho.le hw).trans hc.1
  have hwrap := wadd_le v.vmaBegin v.vmaLength
  omega

theorem covered_of_mem_pages (hc : ∀ v ∈ l, ∀ a ∈ v.pages, v.Covers a) {a : ℕ}
    (h : a ∈ pagesOf l) : Covered l a := by
  obtain ⟨w, hw, haw⟩ := List.mem_flatMap.1 h
  exact ⟨w, hw, hc w hw a haw⟩

theorem covered_cutVmas (ho : Ordered l) (hle : base ≤ holeEnd) (hhole : holeEnd < 2 ^ 64)
    (addr : ℕ) : Covered (cutVmas base holeEnd nid junk now l) addr ↔
      Covered l addr ∧ ¬(base ≤ addr ∧ addr < holeEnd) := by
  induction l generalizing now with
  | nil => simp [cutVmas]
  | cons v rest ih =>
    have hrest : Covered rest addr → wadd v.vmaBegin v.vmaLength ≤ addr ∧ v.vmaBegin ≤ addr :=
      fun h => h.le ho
    have hv : v.Covers addr ↔ v.vmaBegin ≤ addr ∧ addr < wadd v.vmaBegin v.vmaLength := Iff.rfl
    have hbelow : (v.below base).Covers addr ↔ v.vmaBegin ≤ addr ∧ addr < base :=
      VmArea.below_covers (hle.trans_lt hhole)
    have habove : (v.above holeEnd).Covers addr ↔
        holeEnd ≤ addr ∧ addr < wadd v.vmaBegin v.vmaLength := VmArea.above_covers
    rw [cutVmas]
    dsimp only
    split
    · rw [covered_cons, covered_cons, ih ho.of_cons, hv]
      grind
    split
    · rename_i hfar
      refine (and_iff_left_of_imp fun h => ?_).symm
      rw [covered_cons] at h
      rcases h with h | h
      · have := h.1
        omega
      · have := (hrest h).2
        omega
    split
    · rw [covered_setPrev, covered_cons, ih ho.of_cons, hv]
      grind
    split
    · have h₁ : VmArea.Covers { v.below base with
          pages := v.pages.filter fun a => decide (a < holeEnd ∧ ¬base ≤ a) } addr ↔
            v.vmaBegin ≤ addr ∧ addr < base := hbelow
      have h₂ : VmArea.Covers { v.above holeEnd with
          id := nid, vmaFlags := junk.1, pageSize := junk.2, prev := now
          pages := (v.pages.filter fun a => decide (holeEnd ≤ a)).reverse } addr ↔
            holeEnd ≤ addr ∧ addr < wadd v.vmaBegin v.vmaLength := habove
      rw [covered_cons, covered_cons, covered_cons, covered_setPrev, hv, h₁, h₂]
      grind
    · rw [covered_cons, covered_cons, ih ho.of_cons, hv]
      split
      · have h₁ : VmArea.Covers { v.below base with
            pages := v.pages.filter fun a => decide (¬(base ≤ a ∧ a < holeEnd)) } addr ↔
              v.vmaBegin ≤ addr ∧ addr < base := hbelow
        rw [h₁]
        grind
      · have h₁ : VmArea.Covers { v.above holeEnd with
            pages := v.pages.filter fun a => decide (¬(base ≤ a ∧ a < holeEnd)) } addr ↔
              holeEnd ≤ addr ∧ addr < wadd v.vmaBegin v.vmaLength := habove
        rw [h₁]
        grind

theorem cutVmas_le {lo : ℕ} (h : ∀ v ∈ l, lo ≤ v.vmaBegin) :
    ∀ w ∈ cutVmas base holeEnd nid junk now l, lo ≤ w.vmaBegin := by
  induction l generalizing now with
  | nil => simp [cutVmas]
  | cons v rest ih =>
    have hv := h v List.mem_cons_self
    have hrest : ∀ u ∈ rest, lo ≤ u.vmaBegin := fun u hu => h u (List.mem_cons_of_mem _ hu)
    rw [cutVmas]
    dsimp only
    split
    · exact List.forall_mem_cons.2 ⟨hv, ih hrest⟩
    split
    · exact h
    rename_i hfar
    have hhole : lo ≤ holeEnd := by omega
    split
    · exact forall_setPrev (fun _ _ h => h) (ih hrest)
    split
    · exact List.forall_mem_cons.2 ⟨hv, List.forall_mem_cons.2 ⟨hhole,
        forall_setPrev (fun _ _ h => h) hrest⟩⟩
    · refine List.forall_mem_cons.2 ⟨?_, ih hrest⟩
      dsimp only
      split
      · exact hv
      · exact hhole

theorem ordered_cons {v : VmArea} :
    Ordered (v :: l) ↔ (∀ w ∈ l, v.vmaBegin + v.vmaLength ≤ w.vmaBegin) ∧ Ordered l :=
  List.pairwise_cons

theorem ordered_cutVmas (ho : Ordered l) (hle : base ≤ holeEnd) (hhole : holeEnd < 2 ^ 64) :
    Ordered (cutVmas base holeEnd nid junk now l) := by
  induction l generalizing now with
  | nil => exact List.Pairwise.nil
  | cons v rest ih =>
    have hv : ∀ w ∈ rest, v.vmaBegin + v.vmaLength ≤ w.vmaBegin := (ordered_cons.1 ho).1
    have hend := wadd_le v.vmaBegin v.vmaLength
    have hlt := wadd_lt v.vmaBegin v.vmaLength
    rw [cutVmas]
    dsimp only
    split
    · exact ordered_cons.2 ⟨cutVmas_le hv, ih ho.of_cons⟩
    split
    · exact ho
    split
    · exact ordered_setPrev.2 (ih ho.of_cons)
    split
    · refine ordered_cons.2 ⟨List.forall_mem_cons.2 ⟨?_, ?_⟩, ordered_cons.2 ⟨?_, ?_⟩⟩
      · simp only [VmArea.below, VmArea.above,
          wsub_eq (show v.vmaBegin ≤ base by omega) (hle.trans_lt hhole)]
        omega
      · refine forall_setPrev (fun _ _ h => h) fun w hw => ?_
        have := hv w hw
        simp only [VmArea.below, wsub_eq (show v.vmaBegin ≤ base by omega) (hle.trans_lt hhole)]
        omega
      · refine forall_setPrev (fun _ _ h => h) fun w hw => ?_
        have := hv w hw
        simp only [VmArea.above, wsub_eq (show holeEnd ≤ wadd v.vmaBegin v.vmaLength by omega) hlt]
        omega
      · exact ordered_setPrev.2 ho.of_cons
    · refine ordered_cons.2 ⟨cutVmas_le fun w hw => ?_, ih ho.of_cons⟩
      have := hv w hw
      dsimp only
      split
      · simp only [VmArea.below, wsub_eq (show v.vmaBegin ≤ base by omega) (hle.trans_lt hhole)]
        omega
      · simp only [VmArea.above, wsub_eq (show holeEnd ≤ wadd v.vmaBegin v.vmaLength by omega) hlt]
        omega

/-- Each page entry that is left hangs on the VMA that covers its address. -/
theorem covers_cutVmas (hc : ∀ v ∈ l, ∀ a ∈ v.pages, v.Covers a) (hle : base ≤ holeEnd)
    (hhole : holeEnd < 2 ^ 64) :
    ∀ w ∈ cutVmas base holeEnd nid junk now l, ∀ a ∈ w.pages, w.Covers a := by
  induction l generalizing now with
  | nil => simp [cutVmas]
  | cons v rest ih =>
    obtain ⟨hv, hrest⟩ := List.forall_mem_cons.1 hc
    rw [cutVmas]
    dsimp only
    split
    · exact List.forall_mem_cons.2 ⟨hv, ih hrest⟩
    split
    · exact hc
    split
    · exact forall_setPrev (fun _ _ h => h) (ih hrest)
    split
    · refine List.forall_mem_cons.2 ⟨fun a ha => ?_, List.forall_mem_cons.2 ⟨fun a ha => ?_,
        forall_setPrev (fun _ _ h => h) hrest⟩⟩
      · simp only [List.mem_filter, decide_eq_true_eq] at ha
        obtain ⟨h₁, h₂⟩ := hv a ha.1
        exact (VmArea.below_covers (v := v) (hle.trans_lt hhole)).2 ⟨h₁, by omega⟩
      · simp only [List.mem_reverse, List.mem_filter, decide_eq_true_eq] at ha
        exact (VmArea.above_covers (v := v)).2 ⟨ha.2, (hv a ha.1).2⟩
    · refine List.forall_mem_cons.2 ⟨fun a ha => ?_, ih hrest⟩
      simp only [List.mem_filter, decide_eq_true_eq] at ha
      obtain ⟨h₁, h₂⟩ := hv a ha.1
      change VmArea.Covers (if v.vmaBegin < base then v.below base else v.above holeEnd) a
      split
      · exact (VmArea.below_covers (v := v) (hle.trans_lt hhole)).2 ⟨h₁, by omega⟩
      · exact (VmArea.above_covers (v := v)).2 ⟨by omega, h₂⟩

theorem mem_pagesOf_cutVmas (ho : Ordered l) (hc : ∀ v ∈ l, ∀ a ∈ v.pages, v.Covers a) (a : ℕ) :
    a ∈ pagesOf (cutVmas base holeEnd nid junk now l) ↔
      a ∈ pagesOf l ∧ ¬(base ≤ a ∧ a < holeEnd) := by
  induction l generalizing now with
  | nil => simp [cutVmas]
  | cons v rest ih =>
    obtain ⟨hv, hrest⟩ := List.forall_mem_cons.1 hc
    have hva : a ∈ v.pages → v.vmaBegin ≤ a ∧ a < wadd v.vmaBegin v.vmaLength := hv a
    have hra : a ∈ pagesOf rest → wadd v.vmaBegin v.vmaLength ≤ a ∧ v.vmaBegin ≤ a :=
      fun h => (covered_of_mem_pages hrest h).le ho
    have ih := fun now => @ih now ho.of_cons hrest
    rw [cutVmas]
    dsimp only
    split
    · simp only [pagesOf_cons, List.mem_append, ih]
      grind
    split
    · simp only [pagesOf_cons, List.mem_append]
      grind
    split
    · simp only [pagesOf_setPrev, pagesOf_cons, List.mem_append, ih]
      grind
    split
    · simp only [pagesOf_setPrev, pagesOf_cons, List.mem_append, List.mem_reverse, List.mem_filter,
        decide_eq_true_eq]
      grind
    · simp only [pagesOf_cons, List.mem_append, List.mem_filter, decide_eq_true_eq, ih]
      grind

theorem mem_gonePages {len : ℕ} (ho : Ordered l) (hc : ∀ v ∈ l, ∀ a ∈ v.pages, v.Covers a)
    (a : ℕ) :
    a ∈ gonePages base len l ↔ a ∈ pagesOf l ∧ base ≤ a ∧ a < wadd base len := by
  induction l with
  | nil => simp [gonePages]
  | cons v rest ih =>
    obtain ⟨hv, hrest⟩ := List.forall_mem_cons.1 hc
    have hva : a ∈ v.pages → v.vmaBegin ≤ a ∧ a < wadd v.vmaBegin v.vmaLength := hv a
    have hra : a ∈ pagesOf rest → wadd v.vmaBegin v.vmaLength ≤ a ∧ v.vmaBegin ≤ a :=
      fun h => (covered_of_mem_pages hrest h).le ho
    have ih := ih ho.of_cons hrest
    rw [gonePages]
    split
    · simp only [pagesOf_cons, List.mem_append, ih]
      grind
    split
    · simp only [pagesOf_cons, List.mem_append, List.not_mem_nil]
      grind
    split
    · simp only [pagesOf_cons, List.mem_append, ih]
      grind
    split
    · simp only [pagesOf_cons, List.mem_append, List.mem_filter, decide_eq_true_eq]
      grind
    · simp only [pagesOf_cons, List.mem_append, List.mem_filter, decide_eq_true_eq, ih]
      grind

end Exact

/-- The removal of a range takes its addresses and page entries, and nothing else. -/
theorem removeVmaRange_exact {as base len : ℕ} {s s' : State} {sp : AddressSpace}
    (hsp : s.spaces as = some sp) (hp : sp.Placed) (hend : base + len < 2 ^ 64)
    (hok : removeVmaRange s as base len = .ok s') :
    ∃ sp', s'.spaces as = some sp' ∧ sp'.Placed ∧
      (∀ addr, Covered sp'.vma addr ↔ Covered sp.vma addr ∧ ¬(base ≤ addr ∧ addr < base + len)) ∧
      ∀ vaddr, sp'.vaddrMap.lookup vaddr =
        if base ≤ vaddr ∧ vaddr < base + len then none else sp.vaddrMap.lookup vaddr := by
  obtain ⟨sp', hsp', hd, hvma⟩ := (returns_removeVmaRange hsp hp.distinct).of_ok hok
  obtain ⟨sp₀, hsp₀, htrim⟩ := (effect_removeVmaRange s as base len).of_ok hok
  rw [hsp, Option.some.injEq] at hsp₀
  subst hsp₀
  have hhole : wadd base len = base + len := wadd_eq hend
  have hpages : ∀ a, a ∈ pagesOf sp.vma ↔ ∃ pe, sp.vaddrMap.lookup a = some pe := by
    simpa using hp.hung.mem_iff
  have hmap : ∀ vaddr, sp'.vaddrMap.lookup vaddr =
      if base ≤ vaddr ∧ vaddr < base + len then none else sp.vaddrMap.lookup vaddr := by
    intro a
    have hent := htrim.entry a
    rw [entry_of_space hsp', entry_of_space hsp] at hent
    rw [hent]
    by_cases hin : base ≤ a ∧ a < base + len
    · rw [if_pos hin]
      split
      · rfl
      · rename_i hgone
        rw [mem_gonePages hp.ordered hp.covers, hhole, hpages] at hgone
        rw [Option.eq_none_iff_forall_ne_some]
        exact fun pe hpe => hgone ⟨⟨pe, hpe⟩, hin⟩
    · rw [if_neg hin, if_neg]
      rw [mem_gonePages hp.ordered hp.covers, hhole]
      exact fun h => hin h.2
  refine ⟨sp', hsp', ⟨?_, ⟨by simpa using hd.pages, fun a => ?_, hd.ids, hd.id_lt⟩, ?_⟩, ?_, hmap⟩
  · rw [hvma]
    exact ordered_cutVmas hp.ordered (by omega) (wadd_lt _ _)
  · rw [List.nil_append, hvma, mem_pagesOf_cutVmas hp.ordered hp.covers, hpages, hmap, hhole]
    by_cases hin : base ≤ a ∧ a < base + len <;> simp [hin]
  · rw [hvma]
    exact covers_cutVmas hp.covers (by omega) (wadd_lt _ _)
  · intro addr
    rw [hvma, covered_cutVmas hp.ordered (by omega) (wadd_lt _ _), hhole]

theorem removeVmaRange_exact_gapped :
    ∃ s' sp', removeVmaRange ((World.boot [] 0).mm.setSpace 0 gapped) 0 0x400000 0x3000 = .ok s' ∧
      s'.spaces 0 = some sp' ∧ sp'.Placed ∧
      ∀ addr, Covered sp'.vma addr ↔
        Covered gapped.vma addr ∧ ¬(0x400000 ≤ addr ∧ addr < 0x400000 + 0x3000) := by
  obtain ⟨s', hok⟩ : ∃ s', removeVmaRange ((World.boot [] 0).mm.setSpace 0 gapped) 0 0x400000 0x3000 =
      .ok s' := by
    rw [← isOk_iff]
    decide +kernel
  obtain ⟨sp', hsp', hplaced, hcovered, -⟩ :=
    removeVmaRange_exact (setSpace_spaces _ 0 gapped) gapped_placed (by decide) hok
  exact ⟨s', sp', hok, hsp', hplaced, hcovered⟩

end SadOS.Mm
