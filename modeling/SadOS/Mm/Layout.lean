import SadOS.Mm.World
import SadOS.Lib.Chain

/-!
# The VMAs of an address space

The VMA list of an address space is sorted and without overlaps, wraps or VMAs outside
the address space, over every run whose insertions end inside the address space and
whose removals do not wrap into a VMA.  The accounts of pages play no part.

## Main definitions

* `AddressSpace.WellFormed` — what the list is to be.
* `AddressSpace.Laid` — the invariant, with the VMAs as a chain of intervals.
* `chain_aspaceAddVma`, `chain_insertAtGap`, `Laid.removeVmaRangeFrom` — the updates.
* `World.Fits` — the condition on a step.
* `wellFormed_of_fits`, `wellFormed_fails` — the results.
-/

namespace SadOS.Mm

/-- An address lies in a VMA. -/
def VmArea.Contains (v : VmArea) (addr : ℕ) : Prop :=
  v.vmaBegin ≤ addr ∧ addr < v.vmaBegin + v.vmaLength

/-- The VMAs are sorted and disjoint, do not wrap, and lie in the address space. -/
structure AddressSpace.WellFormed (sp : AddressSpace) : Prop where
  sorted : sp.vma.Pairwise fun v w => v.vmaBegin ≤ w.vmaBegin
  disjoint : sp.vma.Pairwise fun v w => ∀ addr, ¬(v.Contains addr ∧ w.Contains addr)
  noWrap : ∀ v ∈ sp.vma, v.vmaBegin + v.vmaLength < 2 ^ 64
  inside : ∀ v ∈ sp.vma, sp.lowAddr ≤ v.vmaBegin ∧ v.vmaBegin + v.vmaLength ≤ sp.highAddr

/-- The interval of a VMA. -/
def VmArea.span (v : VmArea) : ℕ × ℕ := (v.vmaBegin, v.vmaBegin + v.vmaLength)

/-- The intervals of a VMA list. -/
def spansOf (l : List VmArea) : List (ℕ × ℕ) := l.map VmArea.span

/-- The VMAs of an address space are a chain, and each has an address of its own. -/
structure AddressSpace.Laid (sp : AddressSpace) : Prop where
  ids : (idsOf sp.vma).Nodup
  id_lt : ∀ id ∈ idsOf sp.vma, id < sp.vmaPool
  chain : Chain sp.highAddr sp.lowAddr (spansOf sp.vma)
  low : sp.lowAddr = USER_BASE
  high : sp.highAddr = USER_TOP

@[simp] theorem spansOf_nil : spansOf [] = [] := rfl

@[simp] theorem spansOf_cons (v : VmArea) (l : List VmArea) :
    spansOf (v :: l) = v.span :: spansOf l := rfl

@[simp] theorem spansOf_setPrev (now : Link) (l : List VmArea) :
    spansOf (setPrev now l) = spansOf l := by
  cases l <;> rfl

theorem USER_TOP_lt : USER_TOP < 2 ^ 64 := by decide

namespace AddressSpace.Laid

variable {sp sp' : AddressSpace}

theorem high_lt (h : sp.Laid) : sp.highAddr < 2 ^ 64 := by
  rw [h.high]
  exact USER_TOP_lt

/-- The ends of the VMAs. -/
theorem span_le (h : sp.Laid) {v : VmArea} (hv : v ∈ sp.vma) :
    sp.lowAddr ≤ v.vmaBegin ∧ v.vmaBegin + v.vmaLength ≤ sp.highAddr := by
  obtain ⟨hlo, -, hhi⟩ := h.chain.bounds v.span (List.mem_map_of_mem hv)
  exact ⟨hlo, hhi⟩

theorem wellFormed (h : sp.Laid) : sp.WellFormed := by
  have hpair := h.chain.pairwise
  rw [spansOf, List.pairwise_map] at hpair
  have hlt := h.high_lt
  refine ⟨hpair.imp fun hvw => ?_, hpair.imp fun hvw => ?_, fun v hv => ?_, fun v hv => h.span_le hv⟩
  · simp only [VmArea.span] at hvw
    omega
  · rintro addr ⟨⟨-, hv⟩, hw, -⟩
    simp only [VmArea.span] at hvw
    omega
  · have := (h.span_le hv).2
    omega

theorem of_shape (h : sp.Laid) (hs : sp'.shape = sp.shape) : sp'.Laid := by
  have hids := AddressSpace.idsOf_of_shape hs
  simp only [AddressSpace.shape, Prod.mk.injEq] at hs
  obtain ⟨hvma, hlow, hhigh, hpool⟩ := hs
  have hspans : spansOf sp'.vma = spansOf sp.vma := by
    have := congrArg (List.map fun x : ℕ × ℕ × ℕ × ℕ × ℕ × Link => (x.2.2.2.1, x.2.2.2.1 + x.2.2.2.2.1))
      hvma
    rwa [List.map_map, List.map_map] at this
  refine ⟨by rw [hids]; exact h.ids, by rw [hids, hpool]; exact h.id_lt, ?_, hlow.trans h.low,
    hhigh.trans h.high⟩
  rw [hspans, hlow, hhigh]
  exact h.chain

end AddressSpace.Laid

/-! ## Insertion -/

theorem wadd_eq {a b : ℕ} (h : a + b < 2 ^ 64) : wadd a b = a + b := Nat.mod_eq_of_lt h

theorem wsub_eq {a b : ℕ} (h : b ≤ a) (ha : a < 2 ^ 64) : wsub a b = a - b := by
  simp only [wsub]
  omega

theorem chain_aspaceAddVma {hi lo : ℕ} {vma : VmArea} {now : Link} {l l' : List VmArea}
    (h : Chain hi lo (spansOf l)) (hhi : hi < 2 ^ 64) (hlo : lo ≤ vma.vmaBegin)
    (hend : vma.vmaBegin + vma.vmaLength ≤ hi) (hadd : aspaceAddVma vma now l = some l') :
    Chain hi lo (spansOf l') := by
  induction l generalizing lo now l' with
  | nil =>
    rw [aspaceAddVma, Option.some.injEq] at hadd
    subst hadd
    exact ⟨hlo, Nat.le_add_right _ _, hend⟩
  | cons v rest ih =>
    rw [spansOf_cons, chain_cons] at h
    obtain ⟨hv, hv', hrest⟩ := h
    have hvhi : v.vmaBegin + v.vmaLength ≤ hi := hrest.lo_le_hi
    rw [aspaceAddVma] at hadd
    rw [wadd_eq (by omega), wadd_eq (by omega)] at hadd
    split at hadd
    · rename_i hbefore
      rw [Option.some.injEq] at hadd
      subst hadd
      rw [spansOf_cons, spansOf_setPrev, spansOf_cons]
      exact ⟨hlo, Nat.le_add_right _ _, hbefore, hv', hrest⟩
    · split at hadd
      · cases hadd
      · rename_i hbefore hoverlap
        obtain ⟨l₁, hl₁, rfl⟩ := Option.map_eq_some_iff.1 hadd
        refine ⟨hv, hv', ih hrest ?_ hl₁⟩
        change v.vmaBegin + v.vmaLength ≤ vma.vmaBegin
        omega

theorem chain_insertAtGap {hi lo len : ℕ} {nvma : VmArea} {now : Link} {l : List VmArea}
    (h : Chain hi lo (spansOf l)) (hhi : hi < 2 ^ 64)
    (hbegin : nvma.vmaBegin = (findGap len lo l).1) (hlen : nvma.vmaLength = len)
    (hwrap : (findGap len lo l).1 + len < 2 ^ 64)
    (hend : (findGap len lo l).2 = false → wadd (findGap len lo l).1 len ≤ hi) :
    Chain hi lo (spansOf (insertAtGap nvma len lo now l)) := by
  induction l generalizing lo now with
  | nil =>
    simp only [findGap] at hbegin hwrap hend
    have hend := hend trivial
    rw [wadd_eq hwrap] at hend
    refine ⟨hbegin.ge, Nat.le_add_right _ _, ?_⟩
    change nvma.vmaBegin + nvma.vmaLength ≤ hi
    omega
  | cons v rest ih =>
    rw [spansOf_cons, chain_cons] at h
    obtain ⟨hv, hv', hrest⟩ := h
    have hvhi : v.vmaBegin + v.vmaLength ≤ hi := hrest.lo_le_hi
    rw [findGap] at hbegin hwrap hend
    rw [insertAtGap]
    split
    · rename_i hgap
      simp only [if_pos hgap] at hbegin hwrap
      rw [wadd_eq hwrap] at hgap
      rw [spansOf_cons, spansOf_setPrev, spansOf_cons]
      refine ⟨hbegin.ge, Nat.le_add_right _ _, ?_, hv', hrest⟩
      change nvma.vmaBegin + nvma.vmaLength ≤ v.vmaBegin
      omega
    · rename_i hgap
      simp only [if_neg hgap] at hbegin hwrap hend
      rw [wadd_eq (by omega)] at hbegin hwrap hend ⊢
      exact ⟨hv, hv', ih hrest hbegin hwrap hend⟩

/-! ## Removal -/

/-- The address and the interval of a VMA. -/
def VmArea.pos (v : VmArea) : ℕ × ℕ × ℕ := (v.id, v.span)

def posOf (l : List VmArea) : List (ℕ × ℕ × ℕ) := l.map VmArea.pos

@[simp] theorem posOf_nil : posOf [] = [] := rfl

@[simp] theorem posOf_cons (v : VmArea) (l : List VmArea) : posOf (v :: l) = v.pos :: posOf l := rfl

@[simp] theorem posOf_setPrev (now : Link) (l : List VmArea) : posOf (setPrev now l) = posOf l := by
  cases l <;> rfl

theorem idsOf_eq (l : List VmArea) : idsOf l = (posOf l).map Prod.fst := by
  simp [idsOf, posOf, VmArea.pos, Function.comp_def]

theorem spansOf_eq (l : List VmArea) : spansOf l = (posOf l).map Prod.snd := by
  simp [spansOf, posOf, VmArea.pos, Function.comp_def]

theorem posOf_of_shape {sp sp' : AddressSpace} (h : sp'.shape = sp.shape) :
    posOf sp'.vma = posOf sp.vma := by
  simp only [AddressSpace.shape, Prod.mk.injEq] at h
  have := congrArg (List.map fun x : ℕ × ℕ × ℕ × ℕ × ℕ × Link =>
    (x.1, x.2.2.2.1, x.2.2.2.1 + x.2.2.2.2.1)) h.1
  rwa [List.map_map, List.map_map] at this

section Positions

variable {l : List VmArea} {done rest : List (ℕ × ℕ × ℕ)} {v : VmArea}

/-- `unlinkVma` at a VMA of the list. -/
theorem posOf_unlinkVma (h : posOf l = done ++ v.pos :: rest) (hnot : v.id ∉ done.map Prod.fst)
    (nowp : Link) : posOf (unlinkVma v.id nowp l) = done ++ rest := by
  induction l generalizing done with
  | nil => simp at h
  | cons w l ih =>
    cases done with
    | nil =>
      rw [posOf_cons, List.nil_append, List.cons.injEq] at h
      have hid : w.id = v.id := congrArg Prod.fst h.1
      rw [unlinkVma, if_pos hid, posOf_setPrev, h.2, List.nil_append]
    | cons x done =>
      rw [posOf_cons, List.cons_append, List.cons.injEq] at h
      rw [List.map_cons, List.mem_cons, not_or] at hnot
      have hid : w.id ≠ v.id := by
        have hx : w.id = x.1 := congrArg Prod.fst h.1
        rw [hx]
        exact Ne.symm hnot.1
      rw [unlinkVma, if_neg hid, posOf_cons, ih h.2 hnot.2, h.1, List.cons_append]

theorem posOf_resizeVma (h : posOf l = done ++ v.pos :: rest) (hnot : v.id ∉ done.map Prod.fst)
    (hrest : v.id ∉ rest.map Prod.fst) (b n : ℕ) :
    posOf (resizeVma v.id b n l) = done ++ (v.id, b, b + n) :: rest := by
  have hmap : posOf (resizeVma v.id b n l) =
      (posOf l).map fun x => if x.1 = v.id then (v.id, b, b + n) else x := by
    simp only [posOf, resizeVma, List.map_map]
    apply List.map_congr_left
    intro w _
    by_cases hid : w.id = v.id <;> simp [VmArea.pos, VmArea.span, hid]
  have hkeep : ∀ m : List (ℕ × ℕ × ℕ), v.id ∉ m.map Prod.fst →
      m.map (fun x => if x.1 = v.id then (v.id, b, b + n) else x) = m := by
    intro m hm
    conv_rhs => rw [← List.map_id m]
    apply List.map_congr_left
    intro x hx
    rw [if_neg]
    · rfl
    · rintro heq
      exact hm (heq ▸ List.mem_map_of_mem hx)
  rw [hmap, h, List.map_append, List.map_cons, hkeep done hnot, hkeep rest hrest]
  simp [VmArea.pos]

theorem posOf_splitVma (h : posOf l = done ++ v.pos :: rest) (hnot : v.id ∉ done.map Prod.fst)
    (base holeEnd nid : ℕ) (junk : ℕ × ℕ) (nowp : Link) :
    posOf (splitVma v.id base holeEnd nid junk nowp l) =
      done ++ (v.id, v.vmaBegin, v.vmaBegin + wsub base v.vmaBegin) ::
        (nid, holeEnd, holeEnd + wsub (wadd v.vmaBegin (v.span.2 - v.vmaBegin)) holeEnd) :: rest := by
  induction l generalizing done with
  | nil => simp at h
  | cons w l ih =>
    cases done with
    | nil =>
      rw [posOf_cons, List.nil_append, List.cons.injEq] at h
      obtain ⟨hw, hl⟩ := h
      simp only [VmArea.pos, VmArea.span, Prod.mk.injEq] at hw
      obtain ⟨hid, hb, he⟩ := hw
      have hlen : v.span.2 - v.vmaBegin = w.vmaLength := by
        simp only [VmArea.span]
        omega
      rw [splitVma, if_pos hid, hlen]
      simp [VmArea.pos, VmArea.span, hid, hb, hl]
    | cons x done =>
      rw [posOf_cons, List.cons_append, List.cons.injEq] at h
      rw [List.map_cons, List.mem_cons, not_or] at hnot
      have hid : w.id ≠ v.id := by
        have hx : w.id = x.1 := congrArg Prod.fst h.1
        rw [hx]
        exact Ne.symm hnot.1
      rw [splitVma, if_neg hid, posOf_cons, ih h.2 hnot.2, h.1, List.cons_append]

end Positions

/-- A loop of `unassign_page` leaves the bounds of VMAs. -/
theorem frame_unassignAll (as : ℕ) (l : List ℕ) (s : State) :
    Returns (Frame s) (l.foldlM (unassignPage as) s) := by
  refine safely_foldlM (fun _ s' => Frame s s') (Frame.refl s) ?_
  intro v rest s' h
  exact (frame_unassignPage as s' v).mono fun _ h' => h.trans h'

/-- The removal of a range does not wrap, or not into a VMA. -/
def CutOk (base len : ℕ) (l : List VmArea) : Prop :=
  base + len < 2 ^ 64 ∨
    ∀ v ∈ l, ¬(v.vmaBegin < wadd base len ∧ base < v.vmaBegin + v.vmaLength)

namespace AddressSpace.Laid

variable {sp : AddressSpace} {done rest : List (ℕ × ℕ × ℕ)} {v : VmArea}

/-- New VMAs for one, each in its bounds and with an address of its own. -/
theorem replace (h : sp.Laid) (hpos : posOf sp.vma = done ++ v.pos :: rest) {vma : List VmArea}
    (mid : List (ℕ × ℕ × ℕ)) {pool : ℕ} (hvma : posOf vma = done ++ (mid ++ rest))
    (hmid : Chain (v.vmaBegin + v.vmaLength) v.vmaBegin (mid.map Prod.snd))
    (hids : ∀ x ∈ mid, x.1 = v.id ∨ sp.vmaPool ≤ x.1 ∧ x.1 < pool) (hnodup : (mid.map Prod.fst).Nodup)
    (hpool : sp.vmaPool ≤ pool) : AddressSpace.Laid { sp with vma, vmaPool := pool } := by
  have hold := h.ids
  have hlt := h.id_lt
  have hchain := h.chain
  rw [idsOf_eq, hpos, List.map_append, List.map_cons] at hold hlt
  rw [spansOf_eq, hpos, List.map_append, List.map_cons] at hchain
  have hvlt : v.id < sp.vmaPool := hlt v.id (by simp [VmArea.pos])
  have hkeep : (done.map Prod.fst ++ rest.map Prod.fst).Nodup ∧
      ∀ id ∈ done.map Prod.fst ++ rest.map Prod.fst, id ≠ v.id ∧ id < sp.vmaPool := by
    have hperm : (done.map Prod.fst ++ v.pos.1 :: rest.map Prod.fst).Perm
        (v.pos.1 :: (done.map Prod.fst ++ rest.map Prod.fst)) := List.perm_middle
    obtain ⟨hnot, hnd⟩ := List.nodup_cons.1 (hperm.nodup_iff.1 hold)
    refine ⟨hnd, fun id hid => ⟨?_, hlt id (hperm.mem_iff.2 (List.mem_cons_of_mem _ hid))⟩⟩
    rintro rfl
    exact hnot hid
  have hmidlt : ∀ id ∈ mid.map Prod.fst, id < pool := by
    intro id hid
    obtain ⟨x, hx, rfl⟩ := List.mem_map.1 hid
    rcases hids x hx with heq | hx'
    · omega
    · exact hx'.2
  refine ⟨?_, ?_, ?_, h.low, h.high⟩
  · rw [idsOf_eq]
    simp only
    rw [hvma, List.map_append, List.map_append]
    have hperm : (done.map Prod.fst ++ (mid.map Prod.fst ++ rest.map Prod.fst)).Perm
        (mid.map Prod.fst ++ (done.map Prod.fst ++ rest.map Prod.fst)) := by
      rw [← List.append_assoc, ← List.append_assoc]
      exact List.perm_append_comm.append_right _
    refine hperm.nodup_iff.2 (List.nodup_append.2 ⟨hnodup, hkeep.1, fun a ha b hb => ?_⟩)
    obtain ⟨x, hx, rfl⟩ := List.mem_map.1 ha
    obtain ⟨hbne, hblt⟩ := hkeep.2 b hb
    rcases hids x hx with heq | hx'
    · rw [heq]
      exact Ne.symm hbne
    · omega
  · intro id hid
    rw [idsOf_eq] at hid
    simp only at hid
    rw [hvma, List.map_append, List.map_append, List.mem_append, List.mem_append] at hid
    change id < pool
    rcases hid with hid | hid | hid
    · have := (hkeep.2 id (List.mem_append_left _ hid)).2
      omega
    · exact hmidlt id hid
    · have := (hkeep.2 id (List.mem_append_right _ hid)).2
      omega
  · rw [spansOf_eq]
    simp only
    rw [hvma, List.map_append, List.map_append]
    exact hchain.refine hmid

/-- A VMA stands once in the list. -/
theorem nodup_pos (h : sp.Laid) (hpos : posOf sp.vma = done ++ v.pos :: rest) :
    v.id ∉ done.map Prod.fst ∧ v.id ∉ rest.map Prod.fst := by
  have hids := h.ids
  rw [idsOf_eq, hpos, List.map_append, List.map_cons, List.nodup_append, List.nodup_cons] at hids
  obtain ⟨-, ⟨hrest, -⟩, hdone⟩ := hids
  exact ⟨fun hmem => hdone _ hmem _ List.mem_cons_self rfl, hrest⟩

/-- A VMA goes. -/
theorem unlink (h : sp.Laid) (hpos : posOf sp.vma = done ++ v.pos :: rest) (nowp : Link) :
    AddressSpace.Laid { sp with vma := unlinkVma v.id nowp sp.vma } ∧
      posOf (unlinkVma v.id nowp sp.vma) = done ++ rest := by
  have hvma := posOf_unlinkVma hpos (h.nodup_pos hpos).1 nowp
  exact ⟨h.replace hpos [] hvma (Nat.le_add_right _ _) (by simp) (by simp) le_rfl, hvma⟩

/-- A VMA shrinks. -/
theorem resize (h : sp.Laid) (hpos : posOf sp.vma = done ++ v.pos :: rest) {b n : ℕ}
    (hb : v.vmaBegin ≤ b) (hn : b + n ≤ v.vmaBegin + v.vmaLength) :
    AddressSpace.Laid { sp with vma := resizeVma v.id b n sp.vma } ∧
      posOf (resizeVma v.id b n sp.vma) = (done ++ [(v.id, b, b + n)]) ++ rest := by
  have hnot := h.nodup_pos hpos
  have hvma := posOf_resizeVma hpos hnot.1 hnot.2 b n
  refine ⟨h.replace hpos [(v.id, b, b + n)] hvma ⟨hb, Nat.le_add_right _ _, hn⟩ ?_ ?_ le_rfl, ?_⟩
  · simp
  · simp
  · rw [hvma, List.append_assoc]
    rfl

/-- A VMA is cut in two. -/
theorem split (h : sp.Laid) (hpos : posOf sp.vma = done ++ v.pos :: rest) (base holeEnd : ℕ)
    (hbase : v.vmaBegin ≤ base) (hhole : base ≤ holeEnd)
    (hend : holeEnd ≤ v.vmaBegin + v.vmaLength) (hlt : v.vmaBegin + v.vmaLength < 2 ^ 64)
    (junk : ℕ × ℕ) (nowp : Link) :
    AddressSpace.Laid { sp with
      vmaPool := sp.vmaPool + 1
      vma := splitVma v.id base holeEnd sp.vmaPool junk nowp sp.vma } := by
  have hvma := posOf_splitVma hpos (h.nodup_pos hpos).1 base holeEnd sp.vmaPool junk nowp
  have hlen : v.span.2 - v.vmaBegin = v.vmaLength := Nat.add_sub_cancel_left _ _
  rw [hlen, wadd_eq hlt, wsub_eq hbase (by omega), wsub_eq hend hlt] at hvma
  have hid : v.id < sp.vmaPool := by
    refine h.id_lt v.id ?_
    rw [idsOf_eq, hpos]
    simp [VmArea.pos]
  refine h.replace hpos [_, _] hvma ?_ ?_ ?_ (Nat.le_succ _)
  · simp only [List.map_cons, List.map_nil, chain_cons, chain_nil]
    omega
  · simp
  · simpa using Nat.ne_of_lt hid

end AddressSpace.Laid

/-- The VMAs of the address space `as` are right. -/
def State.LaidAt (s : State) (as : ℕ) : Prop := ∃ sp, s.spaces as = some sp ∧ sp.Laid

theorem State.LaidAt.of_shape {s s' : State} {as : ℕ} (h : s.LaidAt as)
    (hs : (s'.spaces as).map AddressSpace.shape = (s.spaces as).map AddressSpace.shape) :
    s'.LaidAt as := by
  obtain ⟨sp, hsp, hlaid⟩ := h
  rw [hsp, Option.map_some, Option.map_eq_some_iff] at hs
  obtain ⟨sp', hsp', hshape⟩ := hs
  exact ⟨sp', hsp', hlaid.of_shape hshape⟩

/-- Page entries go after VMAs were cut. -/
theorem laid_unassignAll {as : ℕ} {sp : AddressSpace} {s : State} (hsp : s.spaces as = some sp)
    (h : sp.Laid) (l : List ℕ) :
    Returns (fun s' => ∃ sp', s'.spaces as = some sp' ∧ sp'.Laid ∧ posOf sp'.vma = posOf sp.vma)
      (l.foldlM (unassignPage as) s) := by
  refine (frame_unassignAll as l s).mono fun s' hf => ?_
  have hshape := hf.shape as
  rw [hsp, Option.map_some, Option.map_eq_some_iff] at hshape
  obtain ⟨sp', hsp', hshape⟩ := hshape
  exact ⟨sp', hsp', h.of_shape hshape, posOf_of_shape hshape⟩

/-- The loop of `remove_vma_range`, with the VMAs `l` left. -/
theorem laid_removeVmaRangeFrom {as base len : ℕ} {now : Link} {l : List VmArea} {s : State}
    {sp : AddressSpace} (done : List (ℕ × ℕ × ℕ)) (hsp : s.spaces as = some sp) (h : sp.Laid)
    (hpos : posOf sp.vma = done ++ posOf l) (hcut : CutOk base len l) :
    Returns (fun s' => s'.LaidAt as) (removeVmaRangeFrom as base len now l s) := by
  induction l generalizing now s sp done with
  | nil => exact ⟨sp, hsp, h⟩
  | cons v rest ih =>
    rw [posOf_cons] at hpos
    have hend : v.vmaBegin + v.vmaLength < 2 ^ 64 := by
      have hb := h.chain.bounds v.span (by rw [spansOf_eq, hpos]; simp [VmArea.pos])
      have hhi := h.high_lt
      simp only [VmArea.span] at hb
      omega
    have hcut' : CutOk base len rest :=
      hcut.imp_right fun hn w hw => hn w (List.mem_cons_of_mem _ hw)
    have hnext : posOf sp.vma = (done ++ [v.pos]) ++ posOf rest := by rw [hpos, List.append_assoc]; rfl
    rw [removeVmaRangeFrom]
    dsimp only
    rw [wadd_eq hend]
    split
    · exact ih _ hsp h hnext hcut'
    split
    · exact ⟨sp, hsp, h⟩
    rename_i hbase hhole
    split
    · -- the whole VMA
      obtain ⟨h₁, hpos₁⟩ := h.unlink hpos now
      rw [modifyVma_eq hsp]
      simp only [safely_bind]
      refine (laid_unassignAll (s := s.setSpace as _) (Function.update_self ..) h₁ _).mono ?_
      rintro s₂ ⟨sp₂, hsp₂, h₂, hpos₂⟩
      exact ih _ hsp₂ h₂ (hpos₂.trans hpos₁) hcut'
    rename_i hwhole
    split
    · -- a hole in it
      rename_i hsplit
      have hwrap : base + len < 2 ^ 64 := by
        refine hcut.resolve_right fun hn => hn v List.mem_cons_self ?_
        omega
      have hholeEnd := wadd_eq hwrap
      have h₁ := h.split hpos base (wadd base len) (by omega) (by omega)
        (by omega) hend (s.vmaJunk as sp.vmaPool) now
      rw [getSpace_eq hsp, ok_bind]
      refine (laid_unassignAll (s := s.setSpace as _) (Function.update_self ..) h₁ _).mono ?_
      rintro s₂ ⟨sp₂, hsp₂, h₂, -⟩
      exact ⟨sp₂, hsp₂, h₂⟩
    · -- its begin or its end
      rename_i hsplit
      obtain ⟨f, hf⟩ : ∃ f, f = (if v.vmaBegin < base then resizeVma v.id v.vmaBegin (wsub base v.vmaBegin)
        else resizeVma v.id (wadd base len) (wsub (v.vmaBegin + v.vmaLength) (wadd base len))) :=
        ⟨_, rfl⟩
      obtain ⟨done', h₁, hpos₁⟩ : ∃ done', AddressSpace.Laid { sp with vma := f sp.vma } ∧
          posOf (f sp.vma) = done' ++ posOf rest := by
        rw [hf]
        split
        · rw [wsub_eq (by omega) (by omega)]
          exact ⟨_, h.resize hpos le_rfl (by omega)⟩
        · rw [wsub_eq (by omega) hend]
          exact ⟨_, h.resize hpos (by omega) (by omega)⟩
      rw [← hf, modifyVma_eq hsp]
      simp only [safely_bind]
      refine (laid_unassignAll (s := s.setSpace as _) (Function.update_self ..) h₁ _).mono ?_
      rintro s₂ ⟨sp₂, hsp₂, h₂, hpos₂⟩
      exact ih _ hsp₂ h₂ (hpos₂.trans hpos₁) hcut'

end SadOS.Mm
