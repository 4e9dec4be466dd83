import SadOS.Mm.Aspace
import Mathlib.Data.List.Perm.Basic
import Mathlib.Data.List.Nodup

/-!
# Updates of a VMA list

What the insertions and removals do to the VMAs of a list, apart from their order
and their back links: which VMAs there are, and which page entries they list.

## Main definitions

* `VmArea.core` — a VMA without its back link.
* `pagesOf`, `idsOf` — the listed page entries, and the addresses of the VMAs.
* `core_aspaceAddVma`, `core_insertAtGap`, `core_unlinkVma` — one VMA more or less.
* `pagesOf_splitVma`, `pagesOf_delSibling`, `pagesOf_addSibling` — page entries move.
-/

namespace SadOS.Mm

/-- A VMA without its back link. -/
def VmArea.core (v : VmArea) : VmArea := { v with prev := .head }

theorem VmArea.core_eq_iff {v w : VmArea} : v.core = w.core ↔ v.id = w.id ∧
    v.vmaFlags = w.vmaFlags ∧ v.pageSize = w.pageSize ∧ v.vmaBegin = w.vmaBegin ∧
    v.vmaLength = w.vmaLength ∧ v.pages = w.pages := by
  simp [VmArea.core]

/-- The page entries that the VMAs list. -/
def pagesOf (l : List VmArea) : List ℕ := l.flatMap (·.pages)

/-- The addresses of the VMAs. -/
def idsOf (l : List VmArea) : List ℕ := l.map (·.id)

@[simp] theorem pagesOf_nil : pagesOf [] = [] := rfl

@[simp] theorem pagesOf_cons (v : VmArea) (l : List VmArea) :
    pagesOf (v :: l) = v.pages ++ pagesOf l := List.flatMap_cons

@[simp] theorem idsOf_nil : idsOf [] = [] := rfl

@[simp] theorem idsOf_cons (v : VmArea) (l : List VmArea) : idsOf (v :: l) = v.id :: idsOf l := rfl

theorem mem_idsOf {v : VmArea} {l : List VmArea} (h : v ∈ l) : v.id ∈ idsOf l :=
  List.mem_map_of_mem h

/-- The VMA with an address is the one. -/
theorem eq_of_id {l : List VmArea} (h : (idsOf l).Nodup) {v w : VmArea} (hv : v ∈ l) (hw : w ∈ l)
    (hid : v.id = w.id) : v = w :=
  List.inj_on_of_nodup_map h hv hw hid

theorem pagesOf_map_core (l : List VmArea) : pagesOf (l.map VmArea.core) = pagesOf l := by
  simp [pagesOf, List.flatMap_map, VmArea.core]

theorem idsOf_map_core (l : List VmArea) : idsOf (l.map VmArea.core) = idsOf l := by
  simp [idsOf, VmArea.core, Function.comp_def]

/-! ## Insertion -/

@[simp] theorem core_setPrev (now : Link) (l : List VmArea) :
    (setPrev now l).map VmArea.core = l.map VmArea.core := by
  cases l with
  | nil => rfl
  | cons v rest => rfl

theorem core_aspaceAddVma {vma : VmArea} {now : Link} {l l' : List VmArea}
    (h : aspaceAddVma vma now l = some l') :
    (l'.map VmArea.core).Perm (vma.core :: l.map VmArea.core) := by
  induction l generalizing now l' with
  | nil =>
    rw [aspaceAddVma, Option.some.injEq] at h
    subst h
    exact List.Perm.refl _
  | cons v rest ih =>
    rw [aspaceAddVma] at h
    split at h
    · rw [Option.some.injEq] at h
      subst h
      simp [VmArea.core]
    · split at h
      · cases h
      · obtain ⟨l₁, hl₁, rfl⟩ := Option.map_eq_some_iff.1 h
        exact ((ih hl₁).cons v.core).trans (List.Perm.swap _ _ _)

theorem core_insertAtGap (nvma : VmArea) (len nowAddr : ℕ) (now : Link) (l : List VmArea) :
    ((insertAtGap nvma len nowAddr now l).map VmArea.core).Perm
      (nvma.core :: l.map VmArea.core) := by
  induction l generalizing nowAddr now with
  | nil => exact List.Perm.refl _
  | cons v rest ih =>
    rw [insertAtGap]
    split
    · simp [VmArea.core]
    · exact ((ih _ _).cons v.core).trans (List.Perm.swap _ _ _)

/-- A list with one VMA more, which lists no page entry yet. -/
theorem pagesOf_of_core {l l' : List VmArea} {vma : VmArea} (hp : vma.pages = [])
    (h : (l'.map VmArea.core).Perm (vma.core :: l.map VmArea.core)) :
    (pagesOf l').Perm (pagesOf l) := by
  have := h.flatMap_right (f := VmArea.pages)
  rw [← pagesOf, ← pagesOf, pagesOf_map_core, pagesOf_cons, pagesOf_map_core] at this
  simpa [VmArea.core, hp] using this

theorem idsOf_of_core {l l' : List VmArea} {vma : VmArea}
    (h : (l'.map VmArea.core).Perm (vma.core :: l.map VmArea.core)) :
    (idsOf l').Perm (vma.id :: idsOf l) := by
  have := h.map VmArea.id
  rwa [← idsOf, idsOf_map_core, List.map_cons, ← idsOf, idsOf_map_core] at this

/-! ## Removal -/

theorem core_unlinkVma {v : VmArea} {l : List VmArea} (hv : v ∈ l) (hids : (idsOf l).Nodup)
    (nowp : Link) :
    (v.core :: (unlinkVma v.id nowp l).map VmArea.core).Perm (l.map VmArea.core) := by
  induction l with
  | nil => cases hv
  | cons w rest ih =>
    obtain ⟨hnot, hids'⟩ := List.nodup_cons.1 hids
    by_cases hid : w.id = v.id
    · have hwv : w = v := eq_of_id hids List.mem_cons_self hv hid
      rw [unlinkVma, if_pos hid, hwv]
      simp
    · rcases List.mem_cons.1 hv with rfl | hv
      · exact absurd rfl hid
      · rw [unlinkVma, if_neg hid]
        exact (List.Perm.swap _ _ _).trans ((ih hv hids').cons w.core)

@[simp] theorem pagesOf_resizeVma (id vmaBegin vmaLength : ℕ) (l : List VmArea) :
    pagesOf (resizeVma id vmaBegin vmaLength l) = pagesOf l := by
  simp only [resizeVma, pagesOf, List.flatMap_map]
  congr 1
  funext v
  split <;> rfl

@[simp] theorem idsOf_resizeVma (id vmaBegin vmaLength : ℕ) (l : List VmArea) :
    idsOf (resizeVma id vmaBegin vmaLength l) = idsOf l := by
  simp only [resizeVma, idsOf, List.map_map]
  congr 1
  funext v
  simp only [Function.comp_apply]
  split <;> rfl

@[simp] theorem pagesOf_setPrev (now : Link) (l : List VmArea) :
    pagesOf (setPrev now l) = pagesOf l := by
  rw [← pagesOf_map_core, core_setPrev, pagesOf_map_core]

@[simp] theorem idsOf_setPrev (now : Link) (l : List VmArea) : idsOf (setPrev now l) = idsOf l := by
  rw [← idsOf_map_core, core_setPrev, idsOf_map_core]

theorem pagesOf_splitVma (id base holeEnd nid : ℕ) (junk : ℕ × ℕ) (nowp : Link) (l : List VmArea) :
    (pagesOf (splitVma id base holeEnd nid junk nowp l)).Perm (pagesOf l) := by
  induction l with
  | nil => exact List.Perm.refl _
  | cons v rest ih =>
    rw [splitVma]
    split
    · simp only [pagesOf_cons, pagesOf_setPrev, ← List.append_assoc]
      refine List.Perm.append_right _ ?_
      have hupper : (fun vaddr => decide (holeEnd ≤ vaddr)) = fun vaddr => !decide (vaddr < holeEnd) := by
        funext vaddr
        rw [← decide_not]
        simp only [Nat.not_lt]
      rw [hupper]
      exact (List.Perm.append_left _ (List.reverse_perm _)).trans
        (List.filter_append_perm (fun vaddr => decide (vaddr < holeEnd)) v.pages)
    · simp only [pagesOf_cons]
      exact ih.append_left _

theorem idsOf_splitVma {v : VmArea} {l : List VmArea} (hv : v ∈ l) (base holeEnd nid : ℕ)
    (junk : ℕ × ℕ) (nowp : Link) :
    (idsOf (splitVma v.id base holeEnd nid junk nowp l)).Perm (nid :: idsOf l) := by
  induction l with
  | nil => cases hv
  | cons w rest ih =>
    rw [splitVma]
    split
    · simp only [idsOf_cons, idsOf_setPrev]
      exact List.Perm.swap _ _ _
    · rename_i hid
      rcases List.mem_cons.1 hv with rfl | hv
      · exact absurd rfl hid
      · simp only [idsOf_cons]
        exact ((ih hv).cons w.id).trans (List.Perm.swap _ _ _)

/-! ## Bounds -/

section Bounds

variable {P : ℕ → ℕ → Prop} {l : List VmArea}

theorem bounds_setPrev (h : ∀ v ∈ l, P v.vmaBegin v.vmaLength) (now : Link) :
    ∀ v ∈ setPrev now l, P v.vmaBegin v.vmaLength := by
  cases l with
  | nil => exact h
  | cons v rest =>
    intro u hu
    rcases List.mem_cons.1 hu with rfl | hu
    · exact h v List.mem_cons_self
    · exact h u (List.mem_cons_of_mem _ hu)

theorem bounds_resizeVma (h : ∀ v ∈ l, P v.vmaBegin v.vmaLength) {id vmaBegin vmaLength : ℕ}
    (hnew : P vmaBegin vmaLength) :
    ∀ v ∈ resizeVma id vmaBegin vmaLength l, P v.vmaBegin v.vmaLength := by
  intro u hu
  obtain ⟨v, hv, rfl⟩ := List.mem_map.1 hu
  split
  · exact hnew
  · exact h v hv

theorem bounds_splitVma (h : ∀ v ∈ l, P v.vmaBegin v.vmaLength) {id base holeEnd : ℕ}
    (hids : (idsOf l).Nodup) {w : VmArea} (hw : w ∈ l) (hid : w.id = id)
    (hlow : P w.vmaBegin (wsub base w.vmaBegin))
    (hup : P holeEnd (wsub (wadd w.vmaBegin w.vmaLength) holeEnd)) (nid : ℕ) (junk : ℕ × ℕ)
    (nowp : Link) :
    ∀ v ∈ splitVma id base holeEnd nid junk nowp l, P v.vmaBegin v.vmaLength := by
  induction l with
  | nil => cases hw
  | cons x rest ih =>
    rw [splitVma]
    have hrest : ∀ v ∈ rest, P v.vmaBegin v.vmaLength := fun v hv => h v (List.mem_cons_of_mem _ hv)
    split
    · rename_i hx
      obtain rfl := eq_of_id hids List.mem_cons_self hw (hx.trans hid.symm)
      intro u hu
      rcases List.mem_cons.1 hu with rfl | hu
      · exact hlow
      rcases List.mem_cons.1 hu with rfl | hu
      · exact hup
      · exact bounds_setPrev hrest _ u hu
    · rename_i hx
      intro u hu
      rcases List.mem_cons.1 hu with rfl | hu
      · exact h u List.mem_cons_self
      rcases List.mem_cons.1 hw with rfl | hw
      · exact absurd hid hx
      · exact ih hrest (List.nodup_cons.1 hids).2 hw u hu

end Bounds

/-! ## Page entries -/

@[simp] theorem idsOf_delSibling (vaddr : ℕ) (l : List VmArea) :
    idsOf (delSibling vaddr l) = idsOf l := by
  simp [delSibling, idsOf, Function.comp_def]

@[simp] theorem idsOf_addSibling (id vaddr : ℕ) (l : List VmArea) :
    idsOf (addSibling id vaddr l) = idsOf l := by
  simp only [addSibling, idsOf, List.map_map]
  congr 1
  funext v
  simp only [Function.comp_apply]
  split <;> rfl

theorem pagesOf_delSibling {l : List VmArea} (h : (pagesOf l).Nodup) (vaddr : ℕ) :
    pagesOf (delSibling vaddr l) = (pagesOf l).erase vaddr := by
  induction l with
  | nil => rfl
  | cons v rest ih =>
    rw [pagesOf_cons, List.nodup_append] at h
    obtain ⟨-, hrest, hdisj⟩ := h
    have hmap : delSibling vaddr (v :: rest) =
        { v with pages := v.pages.erase vaddr } :: delSibling vaddr rest := rfl
    rw [hmap, pagesOf_cons, pagesOf_cons, ih hrest]
    by_cases hv : vaddr ∈ v.pages
    · have hnot : vaddr ∉ pagesOf rest := fun hmem => hdisj vaddr hv vaddr hmem rfl
      rw [List.erase_append_left _ hv, List.erase_of_not_mem hnot]
    · rw [List.erase_append_right _ hv, List.erase_of_not_mem hv]

theorem pagesOf_addSibling {l : List VmArea} {id : ℕ} (hid : id ∈ idsOf l) (h : (idsOf l).Nodup)
    (vaddr : ℕ) : (pagesOf (addSibling id vaddr l)).Perm (vaddr :: pagesOf l) := by
  induction l with
  | nil => cases hid
  | cons v rest ih =>
    obtain ⟨hnot, hrest⟩ := List.nodup_cons.1 h
    by_cases hv : v.id = id
    · have hsame : addSibling id vaddr rest = rest := by
        simp only [addSibling]
        conv_rhs => rw [← List.map_id rest]
        apply List.map_congr_left
        intro w hw
        rw [if_neg]
        · rfl
        · rintro rfl
          have hmem : v.id ∈ idsOf rest := by
            rw [hv]
            exact mem_idsOf hw
          exact hnot hmem
      have hmap : addSibling id vaddr (v :: rest) =
          { v with pages := vaddr :: v.pages } :: addSibling id vaddr rest := by
        simp [addSibling, hv]
      rw [hmap, hsame]
      simp
    · have hmap : addSibling id vaddr (v :: rest) = v :: addSibling id vaddr rest := by
        simp [addSibling, hv]
      have hid' : id ∈ idsOf rest := by
        rcases List.mem_cons.1 hid with rfl | hid
        · exact absurd rfl hv
        · exact hid
      rw [hmap, pagesOf_cons, pagesOf_cons]
      exact ((ih hid' hrest).append_left v.pages).trans List.perm_middle

end SadOS.Mm
