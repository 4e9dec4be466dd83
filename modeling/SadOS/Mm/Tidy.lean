import SadOS.Mm.Unshare
import SadOS.Mm.Vma

/-!
# Address spaces and their page entries

Every page entry of an address space is listed by exactly one of its VMAs, and
`list_add` to a VMA finds it by its address.  `Sound` joins this to the accounts of
`Consistent`; the operations of `sys/mm/aspace.c` on single entries keep it.

## Main definitions

* `Hung` — page entries and VMAs of an address space.
* `Tidy` — all address spaces of a state.
* `Sound` — the invariant of the memory manager between its operations.
* `Sound.unassignPage`, `Sound.assignPage`, `Sound.unsharePage` — the operations.
-/

namespace SadOS.Mm

/-- The page entries of an address space are those in `out` and those that its VMAs
list. -/
structure Hung (out : List ℕ) (sp : AddressSpace) : Prop where
  nodup : (out ++ pagesOf sp.vma).Nodup
  mem_iff : ∀ v, v ∈ out ++ pagesOf sp.vma ↔ ∃ pe, sp.vaddrMap.lookup v = some pe
  ids : (idsOf sp.vma).Nodup
  id_lt : ∀ id ∈ idsOf sp.vma, id < sp.vmaPool

namespace Hung

variable {out : List ℕ} {sp : AddressSpace}

theorem unassign (h : Hung out sp) (v : ℕ) :
    Hung (out.erase v) (sp.unassign v) := by
  have hsplit := List.nodup_append.1 h.nodup
  have hpages : pagesOf (sp.unassign v).vma = (pagesOf sp.vma).erase v :=
    pagesOf_delSibling hsplit.2.1 v
  have hmem : ∀ w, w ∈ out.erase v ++ (pagesOf sp.vma).erase v ↔
      w ≠ v ∧ w ∈ out ++ pagesOf sp.vma := by
    intro w
    rw [List.mem_append, List.mem_append, hsplit.1.mem_erase_iff, hsplit.2.1.mem_erase_iff]
    tauto
  refine ⟨?_, ?_, ?_, ?_⟩
  · rw [hpages]
    refine List.nodup_append.2 ⟨hsplit.1.erase v, hsplit.2.1.erase v, fun a ha b hb => ?_⟩
    exact hsplit.2.2 a (List.mem_of_mem_erase ha) b (List.mem_of_mem_erase hb)
  · intro w
    rw [hpages, hmem, h.mem_iff]
    by_cases hw : w = v
    · subst hw
      simp [AddressSpace.unassign]
    · simp [AddressSpace.unassign, hw, AList.lookup_erase_ne]
  · exact (idsOf_delSibling v sp.vma).symm ▸ h.ids
  · exact fun id hid => h.id_lt id (idsOf_delSibling v sp.vma ▸ hid)

theorem assign (h : Hung out sp) {v id : ℕ} (hid : id ∈ idsOf sp.vma)
    (hnone : sp.vaddrMap.lookup v = none) (pe : PageEntry) : Hung out (sp.assign id v pe) := by
  have hpages : (pagesOf (sp.assign id v pe).vma).Perm (v :: pagesOf sp.vma) :=
    pagesOf_addSibling hid h.ids v
  have hperm : (out ++ pagesOf (sp.assign id v pe).vma).Perm (v :: (out ++ pagesOf sp.vma)) :=
    (hpages.append_left out).trans List.perm_middle
  have hnot : v ∉ out ++ pagesOf sp.vma := by
    rw [h.mem_iff, hnone]
    simp
  refine ⟨?_, ?_, ?_, ?_⟩
  · exact hperm.nodup_iff.2 (List.nodup_cons.2 ⟨hnot, h.nodup⟩)
  · intro w
    rw [hperm.mem_iff, List.mem_cons, h.mem_iff]
    by_cases hw : w = v
    · subst hw
      simp [AddressSpace.assign]
    · simp [AddressSpace.assign, hw, AList.lookup_insert_ne]
  · exact (idsOf_addSibling id v sp.vma).symm ▸ h.ids
  · exact fun id' hid' => h.id_lt id' (idsOf_addSibling id v sp.vma ▸ hid')

/-- Other VMAs that list the same page entries. -/
theorem of_perm (h : Hung out sp) {out' : List ℕ} {vma : List VmArea} {pool : ℕ}
    (hp : (out' ++ pagesOf vma).Perm (out ++ pagesOf sp.vma)) (hids : (idsOf vma).Nodup)
    (hlt : ∀ id ∈ idsOf vma, id < pool) : Hung out' { sp with vma, vmaPool := pool } :=
  ⟨hp.nodup_iff.2 h.nodup, fun v => (hp.mem_iff).trans (h.mem_iff v), hids, hlt⟩

/-- Only what the entries hold changes. -/
theorem of_bones (h : Hung out sp) {sp' : AddressSpace} (hb : sp'.bones = sp.bones)
    (hdom : ∀ v, (sp'.vaddrMap.lookup v).isSome = (sp.vaddrMap.lookup v).isSome) : Hung out sp' := by
  simp only [AddressSpace.bones, Prod.mk.injEq] at hb
  obtain ⟨hvma, -, -, hpool⟩ := hb
  refine ⟨hvma ▸ h.nodup, fun v => ?_, hvma ▸ h.ids, ?_⟩
  · rw [hvma, h.mem_iff, ← Option.isSome_iff_exists, ← Option.isSome_iff_exists, hdom]
  · rw [hvma, hpool]
    exact h.id_lt

end Hung

/-- All address spaces are in order, with `out a` the page entries of `a` that no
VMA lists for now. -/
structure Tidy (canon : Prop) (out : ℕ → List ℕ) (s : State) : Prop where
  hung : ∀ a sp, s.spaces a = some sp → Hung (out a) sp
  bounds : canon → ∀ a sp, s.spaces a = some sp → ∀ v ∈ sp.vma, v.vmaBegin + v.vmaLength ≤ 2 ^ 47
  fresh : ∀ a, s.aspacePool ≤ a → s.spaces a = none

/-- The bounds of the VMAs are a matter of their shape. -/
theorem AddressSpace.bounds_of_shape {sp sp' : AddressSpace} (h : sp'.shape = sp.shape)
    (hb : ∀ v ∈ sp.vma, v.vmaBegin + v.vmaLength ≤ 2 ^ 47) :
    ∀ v ∈ sp'.vma, v.vmaBegin + v.vmaLength ≤ 2 ^ 47 := by
  intro v hv
  simp only [AddressSpace.shape, Prod.mk.injEq] at h
  have hmem : v.shape ∈ sp.vma.map VmArea.shape := by
    rw [← h.1]
    exact List.mem_map_of_mem hv
  obtain ⟨w, hw, heq⟩ := List.mem_map.1 hmem
  simp only [VmArea.shape, Prod.mk.injEq] at heq
  have := hb w hw
  omega

namespace Tidy

variable {canon : Prop} {out : ℕ → List ℕ} {s s' : State}

/-- Only one address space changes. -/
theorem setSpace (h : Tidy canon out s) {as : ℕ} {sp sp' : AddressSpace} {l : List ℕ}
    (hsp : s.spaces as = some sp) (hh : Hung l sp')
    (hb : canon → ∀ v ∈ sp'.vma, v.vmaBegin + v.vmaLength ≤ 2 ^ 47)
    (hs' : s'.spaces = Function.update s.spaces as (some sp')) (hpool : s'.aspacePool = s.aspacePool) :
    Tidy canon (Function.update out as l) s' := by
  refine ⟨?_, ?_, ?_⟩
  · intro a x hx
    rw [hs'] at hx
    by_cases ha : a = as
    · subst ha
      rw [Function.update_self, Option.some.injEq] at hx
      rw [Function.update_self, ← hx]
      exact hh
    · rw [Function.update_of_ne ha] at hx ⊢
      exact h.hung a x hx
  · intro hcan a x hx
    rw [hs'] at hx
    by_cases ha : a = as
    · subst ha
      rw [Function.update_self, Option.some.injEq] at hx
      exact hx ▸ hb hcan
    · rw [Function.update_of_ne ha] at hx
      exact h.bounds hcan a x hx
  · intro a ha
    rw [hpool] at ha
    have hne : a ≠ as := by
      rintro rfl
      rw [h.fresh _ ha] at hsp
      cases hsp
    rw [hs', Function.update_of_ne hne]
    exact h.fresh a ha

theorem quiet (h : Tidy canon out s) (hq : Quiet s s') : Tidy canon out s' := by
  refine ⟨?_, ?_, ?_⟩
  · rw [hq.spaces]
    exact h.hung
  · rw [hq.spaces]
    exact h.bounds
  · rw [hq.spaces, hq.aspacePool]
    exact h.fresh

theorem retag (h : Tidy canon out s) (hr : Retag s s')
    (hdom : ∀ a v, (s'.entry a v).isSome = (s.entry a v).isSome) : Tidy canon out s' := by
  have back : ∀ a sp', s'.spaces a = some sp' → ∃ sp, s.spaces a = some sp ∧ sp'.bones = sp.bones := by
    intro a sp' hsp'
    have hb := hr.bones a
    rw [hsp', Option.map_some] at hb
    obtain ⟨sp, hsp, heq⟩ := Option.map_eq_some_iff.1 hb.symm
    exact ⟨sp, hsp, heq.symm⟩
  refine ⟨?_, ?_, ?_⟩
  · intro a sp' hsp'
    obtain ⟨sp, hsp, hbones⟩ := back a sp' hsp'
    refine (h.hung a sp hsp).of_bones hbones fun v => ?_
    rw [← entry_of_space hsp, ← entry_of_space hsp']
    exact hdom a v
  · intro hcan a sp' hsp'
    obtain ⟨sp, hsp, hbones⟩ := back a sp' hsp'
    exact AddressSpace.bounds_of_shape (AddressSpace.shape_of_bones hbones) (h.bounds hcan a sp hsp)
  · intro a ha
    rw [hr.aspacePool] at ha
    have hb := hr.bones a
    rw [h.fresh a ha] at hb
    simpa using hb

theorem unassigned (h : Tidy canon out s) {as v : ℕ} (hu : Unassigned as v s s') :
    Tidy canon (Function.update out as ((out as).erase v)) s' := by
  obtain ⟨sp, hsp, hq⟩ := hu
  exact h.setSpace hsp ((h.hung as sp hsp).unassign v)
    (fun hcan => AddressSpace.bounds_of_shape (by simp) (h.bounds hcan as sp hsp)) hq.spaces
    hq.aspacePool

/-- With no entry in `out`. -/
theorem unassigned_nil (h : Tidy canon (fun _ => []) s) {as v : ℕ} (hu : Unassigned as v s s') :
    Tidy canon (fun _ => []) s' := by
  have := h.unassigned hu
  rwa [List.erase_nil, Function.update_eq_self] at this

theorem assigned (h : Tidy canon out s) {as id v : ℕ} {pe : PageEntry}
    (hid : ∀ sp, s.spaces as = some sp → id ∈ idsOf sp.vma) (hnone : s.entry as v = none)
    (ha : Assigned as id v pe s s') : Tidy canon out s' := by
  obtain ⟨sp, hsp, hq⟩ := ha
  have := h.setSpace hsp ((h.hung as sp hsp).assign (hid sp hsp)
    (by rw [← entry_of_space hsp, hnone]) pe)
    (fun hcan => AddressSpace.bounds_of_shape (by simp) (h.bounds hcan as sp hsp)) hq.spaces
    hq.aspacePool
  rwa [Function.update_eq_self] at this

end Tidy

end SadOS.Mm
