import SadOS.Mm.Layout

/-!
# The list of VMAs

What `insert_vma_to_vaddr`, `insert_vma_to_any` and `validate_range` do on a list of any
shape, told by the set of addresses that the VMAs cover.

## Main definitions

* `Ordered` — each VMA ends before the next begins.
* `Link.deref`, `BackLinks` — `*v->prev == v`.
* `AddressSpace.Listed` — the list is in order.
* `Inserted` — a list with one VMA more.

## Main results

* `backLinks_iff` — the back links, along the list.
* `insertVma_correct` — both insertions.
* `validateRange_iff` — the test of a range of addresses.
-/

namespace SadOS.Mm

/-- Each VMA ends before the next begins. -/
def Ordered (l : List VmArea) : Prop :=
  l.Pairwise fun v w => v.vmaBegin + v.vmaLength ≤ w.vmaBegin

/-- The VMA that a link points to, in the list that `now` points to. -/
def Link.deref (x : Link) : Link → List VmArea → Option ℕ
  | _, [] => none
  | now, v :: rest => if x = now then some v.id else x.deref (.next v.id) rest

/-- `*v->prev == v` for each VMA. -/
def BackLinks (l : List VmArea) : Prop := ∀ v ∈ l, v.prev.deref .head l = some v.id

/-- The list is in order, and its VMAs are objects of the pool. -/
structure AddressSpace.Listed (sp : AddressSpace) : Prop where
  ids : (idsOf sp.vma).Nodup
  id_lt : ∀ id ∈ idsOf sp.vma, id < sp.vmaPool
  ordered : Ordered sp.vma
  links : BackLinks sp.vma

/-- `l'` is `l` with the VMA `v` between those before and those after its addresses. -/
def Inserted (v : VmArea) (l l' : List VmArea) : Prop :=
  ∃ l₁ l₂ now, l = l₁ ++ l₂ ∧ l' = l₁ ++ { v with prev := now } :: setPrev (.next v.id) l₂ ∧
    (∀ w ∈ l₁, w.vmaBegin + w.vmaLength ≤ v.vmaBegin) ∧
    ∀ w ∈ l₂, v.vmaBegin + v.vmaLength ≤ w.vmaBegin

/-- `len` addresses from `a` on are in no VMA. -/
def Clear (l : List VmArea) (a len : ℕ) : Prop :=
  ∀ addr, a ≤ addr → addr < a + len → ∀ w ∈ l, ¬w.Contains addr

/-- An insertion of `len` addresses takes the least of the places, and fails if there is
none. -/
def Inserts (as : ℕ) (sp : AddressSpace) (len flags : ℕ) (places : Set ℕ)
    (out : Except Fault (Except ℤ VmArea × State)) : Prop :=
  ∃ r s' sp', out = .ok (r, s') ∧ s'.spaces as = some sp' ∧
    Ordered sp'.vma ∧ BackLinks sp'.vma ∧
    match r with
    | .ok v => IsLeast places v.vmaBegin ∧ v.vmaLength = len ∧ v.vmaFlags = flags ∧
        Inserted v sp.vma sp'.vma
    | .error _ => places = ∅ ∧ sp'.vma = sp.vma

/-- Where `insert_vma_to_vaddr` may put a VMA. -/
def vaddrPlaces (sp : AddressSpace) (vaddr len : ℕ) : Set ℕ :=
  {a | a = vaddr ∧ a % 4096 = 0 ∧ sp.lowAddr ≤ a ∧ a ≤ sp.highAddr ∧ Clear sp.vma a len}

/-- Where `insert_vma_to_any` may put a VMA. -/
def anyPlaces (sp : AddressSpace) (len : ℕ) : Set ℕ :=
  {a | sp.lowAddr ≤ a ∧ a + len ≤ sp.highAddr ∧ Clear sp.vma a len}

/-- The VMAs are not empty and lie in the address space. -/
structure AddressSpace.Bounded (sp : AddressSpace) : Prop where
  low_le : sp.lowAddr ≤ sp.highAddr
  low : ∀ w ∈ sp.vma, sp.lowAddr ≤ w.vmaBegin
  high : ∀ w ∈ sp.vma, w.vmaBegin + w.vmaLength ≤ sp.highAddr
  pos : ∀ w ∈ sp.vma, 0 < w.vmaLength

/-! ## Back links -/

/-- The back links of the list that `now` points to, one after the other. -/
def Backs : Link → List VmArea → Prop
  | _, [] => True
  | now, v :: rest => v.prev = now ∧ Backs (.next v.id) rest

@[simp] theorem backs_nil (now : Link) : Backs now [] := trivial

@[simp] theorem backs_cons (now : Link) (v : VmArea) (rest : List VmArea) :
    Backs now (v :: rest) ↔ v.prev = now ∧ Backs (.next v.id) rest := Iff.rfl

/-- A link that is followed is the first one, or that of a VMA. -/
theorem Backs.prev_eq {now : Link} {l : List VmArea} (h : Backs now l) {v : VmArea} (hv : v ∈ l) :
    v.prev = now ∨ ∃ id ∈ idsOf l, v.prev = .next id := by
  induction l generalizing now with
  | nil => cases hv
  | cons w rest ih =>
    rcases List.mem_cons.1 hv with rfl | hv
    · exact .inl h.1
    · right
      rcases ih h.2 hv with hp | ⟨id, hid, hp⟩
      · exact ⟨w.id, List.mem_cons_self, hp⟩
      · exact ⟨id, List.mem_cons_of_mem _ hid, hp⟩

theorem deref_mem {x now : Link} {l : List VmArea} {id : ℕ} (h : x.deref now l = some id) :
    id ∈ idsOf l := by
  induction l generalizing now with
  | nil => cases h
  | cons v rest ih =>
    rw [Link.deref] at h
    split at h
    · rw [← Option.some.inj h]
      exact List.mem_cons_self
    · exact List.mem_cons_of_mem _ (ih h)

theorem backs_iff {now : Link} {l : List VmArea} (hids : (idsOf l).Nodup)
    (hnow : ∀ id ∈ idsOf l, now ≠ .next id) :
    Backs now l ↔ ∀ v ∈ l, v.prev.deref now l = some v.id := by
  induction l generalizing now with
  | nil => simp
  | cons v rest ih =>
    rw [idsOf_cons, List.nodup_cons] at hids
    have hnext : ∀ id ∈ idsOf rest, Link.next v.id ≠ .next id := by
      intro id hid heq
      injection heq with heq
      exact hids.1 (heq ▸ hid)
    have hih := ih hids.2 hnext
    constructor
    · rintro ⟨hv, hrest⟩ w hw
      rcases List.mem_cons.1 hw with rfl | hw
      · rw [Link.deref, if_pos hv]
      · have hne : w.prev ≠ now := by
          intro heq
          rcases hrest.prev_eq hw with hp | ⟨id, hid, hp⟩
          · exact hnow v.id List.mem_cons_self (heq ▸ hp)
          · exact hnow id (List.mem_cons_of_mem _ hid) (heq ▸ hp)
        rw [Link.deref, if_neg hne]
        exact hih.1 hrest w hw
    · intro hall
      constructor
      · by_contra hne
        have hv := hall v List.mem_cons_self
        rw [Link.deref, if_neg hne] at hv
        exact hids.1 (deref_mem hv)
      · refine hih.2 fun w hw => ?_
        have hw' := hall w (List.mem_cons_of_mem _ hw)
        rw [Link.deref] at hw'
        split at hw'
        · exact absurd (Option.some.inj hw' ▸ mem_idsOf hw) hids.1
        · exact hw'

/-- The back links are right exactly if each points to the link before its VMA. -/
theorem backLinks_iff {l : List VmArea} (hids : (idsOf l).Nodup) :
    BackLinks l ↔ Backs .head l :=
  (backs_iff hids fun _ _ => by simp).symm

/-! ## Insertion -/

section Insert

variable {l l' : List VmArea} {v w : VmArea} {now : Link}

theorem ordered_setPrev : Ordered (setPrev now l) ↔ Ordered l := by
  cases l <;> simp [setPrev, Ordered]

theorem Ordered.of_cons (h : Ordered (w :: l)) : Ordered l := (List.pairwise_cons.1 h).2

theorem Ordered.le (h : Ordered (w :: l)) {u : VmArea} (hu : u ∈ l) :
    w.vmaBegin + w.vmaLength ≤ u.vmaBegin :=
  (List.pairwise_cons.1 h).1 u hu

namespace Inserted

theorem cons (h : Inserted v l l') (hw : w.vmaBegin + w.vmaLength ≤ v.vmaBegin) :
    Inserted v (w :: l) (w :: l') := by
  obtain ⟨l₁, l₂, now, rfl, rfl, h₁, h₂⟩ := h
  refine ⟨w :: l₁, l₂, now, rfl, rfl, ?_, h₂⟩
  intro u hu
  rcases List.mem_cons.1 hu with rfl | hu
  · exact hw
  · exact h₁ u hu

/-- The new VMA comes first. -/
theorem head (h : ∀ w ∈ l, v.vmaBegin + v.vmaLength ≤ w.vmaBegin) :
    Inserted v l ({ v with prev := now } :: setPrev (.next v.id) l) :=
  ⟨[], l, now, rfl, rfl, by simp, h⟩

theorem idsOf (h : Inserted v l l') : (idsOf l').Perm (v.id :: idsOf l) := by
  obtain ⟨l₁, l₂, now, rfl, rfl, -⟩ := h
  have hset : Mm.idsOf (setPrev (.next v.id) l₂) = Mm.idsOf l₂ := by cases l₂ <;> rfl
  simp only [Mm.idsOf, List.map_append, List.map_cons] at hset ⊢
  rw [hset]
  exact List.perm_middle

theorem ordered (h : Inserted v l l') (ho : Ordered l) : Ordered l' := by
  obtain ⟨l₁, l₂, now, rfl, rfl, h₁, h₂⟩ := h
  obtain ⟨ho₁, ho₂, ho₃⟩ := List.pairwise_append.1 ho
  have hset : ∀ u ∈ setPrev (.next v.id) l₂, ∃ u' ∈ l₂, u.vmaBegin = u'.vmaBegin := by
    intro u hu
    cases l₂ with
    | nil => cases hu
    | cons x rest =>
      rcases List.mem_cons.1 hu with rfl | hu
      · exact ⟨x, List.mem_cons_self, rfl⟩
      · exact ⟨u, List.mem_cons_of_mem _ hu, rfl⟩
  refine List.pairwise_append.2 ⟨ho₁, List.pairwise_cons.2 ⟨?_, ordered_setPrev.2 ho₂⟩, ?_⟩
  · intro u hu
    obtain ⟨u', hu', heq⟩ := hset u hu
    rw [heq]
    exact h₂ u' hu'
  · intro x hx u hu
    rcases List.mem_cons.1 hu with rfl | hu
    · exact h₁ x hx
    · obtain ⟨u', hu', heq⟩ := hset u hu
      rw [heq]
      exact ho₃ x hx u' hu'

end Inserted

/-- The loop of `aspace_add_vma`. -/
theorem aspaceAddVma_spec (ho : Ordered l) (hwrap : ∀ w ∈ l, w.vmaBegin + w.vmaLength < 2 ^ 64)
    (hv : v.vmaBegin + v.vmaLength < 2 ^ 64) (hb : Backs now l) :
    (aspaceAddVma v now l = none ↔
      ∃ w ∈ l, w.vmaBegin < v.vmaBegin + v.vmaLength ∧ v.vmaBegin < w.vmaBegin + w.vmaLength) ∧
    ∀ l', aspaceAddVma v now l = some l' → Inserted v l l' ∧ Backs now l' := by
  induction l generalizing now with
  | nil =>
    refine ⟨by simp [aspaceAddVma], ?_⟩
    rintro l' ⟨⟩
    exact ⟨Inserted.head (by simp), rfl, trivial⟩
  | cons w rest ih =>
    have hafter : v.vmaBegin + v.vmaLength ≤ w.vmaBegin →
        ∀ u ∈ w :: rest, v.vmaBegin + v.vmaLength ≤ u.vmaBegin := by
      intro hle u hu
      rcases List.mem_cons.1 hu with rfl | hu
      · exact hle
      · have := ho.le hu
        omega
    obtain ⟨ih₁, ih₂⟩ := ih ho.of_cons (fun u hu => hwrap u (List.mem_cons_of_mem _ hu)) hb.2
    rw [aspaceAddVma, wadd_eq hv, wadd_eq (hwrap w List.mem_cons_self)]
    split
    · rename_i hle
      refine ⟨?_, ?_⟩
      · simp only [reduceCtorEq, false_iff]
        rintro ⟨u, hu, hlt, -⟩
        have := hafter hle u hu
        omega
      · rintro l' ⟨⟩
        exact ⟨Inserted.head (hafter hle), rfl, rfl, hb.2⟩
    split
    · rename_i hover
      exact ⟨by simp only [true_iff]; exact ⟨w, List.mem_cons_self, hover.2, hover.1⟩, by simp⟩
    · rename_i hle hover
      refine ⟨?_, ?_⟩
      · rw [Option.map_eq_none_iff, ih₁]
        constructor
        · rintro ⟨u, hu, h⟩
          exact ⟨u, List.mem_cons_of_mem _ hu, h⟩
        · rintro ⟨u, hu, h⟩
          rcases List.mem_cons.1 hu with rfl | hu
          · exact absurd ⟨h.2, h.1⟩ hover
          · exact ⟨u, hu, h⟩
      · intro l' hl'
        obtain ⟨l₁, hl₁, rfl⟩ := Option.map_eq_some_iff.1 hl'
        obtain ⟨hins, hbacks⟩ := ih₂ l₁ hl₁
        exact ⟨hins.cons (by omega), hb.1, hbacks⟩

/-- A range of `len` addresses from `a` on meets no VMA. -/
def Free (l : List VmArea) (a len : ℕ) : Prop :=
  ∀ w ∈ l, a + len ≤ w.vmaBegin ∨ w.vmaBegin + w.vmaLength ≤ a

/-- The search of `insert_vma_to_any` stops at the lowest address from `lo` on where
`len` addresses are free. -/
theorem findGap_spec {lo hi len : ℕ} (ho : Ordered l) (hlo : lo ≤ hi)
    (hin : ∀ w ∈ l, lo ≤ w.vmaBegin ∧ w.vmaBegin + w.vmaLength ≤ hi) (hwrap : hi + len < 2 ^ 64) :
    lo ≤ (findGap len lo l).1 ∧ (findGap len lo l).1 ≤ hi ∧ Free l (findGap len lo l).1 len ∧
      (∀ a, lo ≤ a → Free l a len → (findGap len lo l).1 ≤ a) ∧
      ((findGap len lo l).2 = true → (findGap len lo l).1 + len ≤ hi) := by
  induction l generalizing lo with
  | nil =>
    refine ⟨le_rfl, hlo, by simp [Free], fun a ha _ => ha, ?_⟩
    simp [findGap]
  | cons w rest ih =>
    obtain ⟨hw, hwhi⟩ := hin w List.mem_cons_self
    rw [findGap, wadd_eq (by omega), wadd_eq (by omega)]
    split
    · rename_i hle
      refine ⟨le_rfl, hlo, ?_, fun a ha _ => ha, fun _ => by dsimp only; omega⟩
      intro u hu
      left
      rcases List.mem_cons.1 hu with rfl | hu
      · exact hle
      · have := ho.le hu
        dsimp only
        omega
    · rename_i hle
      obtain ⟨h₁, h₂, h₃, h₄, h₅⟩ := ih ho.of_cons hwhi fun u hu =>
        ⟨ho.le hu, (hin u (List.mem_cons_of_mem _ hu)).2⟩
      refine ⟨by omega, h₂, ?_, ?_, h₅⟩
      · intro u hu
        rcases List.mem_cons.1 hu with rfl | hu
        · exact .inr h₁
        · exact h₃ u hu
      · intro a ha hfree
        refine h₄ a ?_ fun u hu => hfree u (List.mem_cons_of_mem _ hu)
        rcases hfree w List.mem_cons_self with h | h <;> omega

/-- The insertion at that place. -/
theorem insertAtGap_spec {lo hi len : ℕ} (ho : Ordered l)
    (hin : ∀ w ∈ l, lo ≤ w.vmaBegin ∧ w.vmaBegin + w.vmaLength ≤ hi) (hwrap : hi + len < 2 ^ 64)
    (hbegin : v.vmaBegin = (findGap len lo l).1) (hlen : v.vmaLength = len) (hb : Backs now l)
    (hlo : lo ≤ hi) :
    Inserted v l (insertAtGap v len lo now l) ∧ Backs now (insertAtGap v len lo now l) := by
  induction l generalizing lo now with
  | nil => exact ⟨Inserted.head (by simp), rfl, trivial⟩
  | cons w rest ih =>
    obtain ⟨hw, hwhi⟩ := hin w List.mem_cons_self
    have hin' : ∀ u ∈ rest, w.vmaBegin + w.vmaLength ≤ u.vmaBegin ∧ u.vmaBegin + u.vmaLength ≤ hi :=
      fun u hu => ⟨ho.le hu, (hin u (List.mem_cons_of_mem _ hu)).2⟩
    rw [findGap, wadd_eq (by omega), wadd_eq (by omega)] at hbegin
    rw [insertAtGap, wadd_eq (by omega), wadd_eq (by omega)]
    split
    · rename_i hle
      rw [if_pos hle] at hbegin
      refine ⟨Inserted.head ?_, rfl, rfl, hb.2⟩
      intro u hu
      dsimp only at hbegin
      rcases List.mem_cons.1 hu with rfl | hu
      · omega
      · have := ho.le hu
        omega
    · rename_i hle
      rw [if_neg hle] at hbegin
      obtain ⟨hins, hbacks⟩ := ih ho.of_cons hin' hbegin hb.2 hwhi
      have hge := (findGap_spec ho.of_cons hwhi hin' hwrap).1
      exact ⟨hins.cons (by omega), hb.1, hbacks⟩

end Insert

/-- The list after an insertion is in order, too. -/
theorem AddressSpace.Listed.insert {sp : AddressSpace} (h : sp.Listed) {v : VmArea} {l : List VmArea}
    (hv : v.id = sp.vmaPool) (hins : Inserted v sp.vma l) (hb : Backs .head l) :
    AddressSpace.Listed { sp with vma := l, vmaPool := sp.vmaPool + 1 } := by
  have hids := hins.idsOf
  have hnot : v.id ∉ idsOf sp.vma := by
    intro hin
    have := h.id_lt _ hin
    omega
  have hnodup : (idsOf l).Nodup := hids.nodup_iff.2 (List.nodup_cons.2 ⟨hnot, h.ids⟩)
  refine ⟨hnodup, ?_, hins.ordered h.ordered, (backLinks_iff hnodup).2 hb⟩
  intro id hid
  change id < sp.vmaPool + 1
  rcases List.mem_cons.1 (hids.subset hid) with rfl | hid
  · omega
  · have := h.id_lt id hid
    omega

/-- Two ranges that are not empty and share no address lie one after the other. -/
theorem clear_iff_free {l : List VmArea} {a len : ℕ} (hlen : 0 < len)
    (hpos : ∀ w ∈ l, 0 < w.vmaLength) : Clear l a len ↔ Free l a len := by
  constructor
  · intro h w hw
    by_contra hne
    have hw' := hpos w hw
    refine h (max a w.vmaBegin) (le_max_left _ _) (by omega) w hw ⟨le_max_right _ _, by omega⟩
  · intro h addr hle hlt w hw hc
    simp only [VmArea.Contains] at hc
    rcases h w hw with h | h <;> omega

/-- A section without interrupts that changes one address space. -/
theorem enableInterrupts_setSpace (s : State) (as : ℕ) (sp : AddressSpace) :
    enableInterrupts ((disableInterrupts s).setSpace as sp) = .ok (s.setSpace as sp) := by
  simp [enableInterrupts, disableInterrupts, State.setSpace]

theorem enableInterrupts_disable (s : State) : enableInterrupts (disableInterrupts s) = .ok s := by
  simp [enableInterrupts, disableInterrupts]

@[simp] theorem setSpace_spaces (s : State) (as : ℕ) (sp : AddressSpace) :
    (s.setSpace as sp).spaces as = some sp := Function.update_self ..

section Insertion

variable {s : State} {as vaddr len flags : ℕ} {sp : AddressSpace}

/-- A failed insertion. -/
theorem inserts_error {s' : State} {sp' : AddressSpace} {places : Set ℕ} {e : ℤ} (hl : sp.Listed)
    (hsp' : s'.spaces as = some sp') (hvma : sp'.vma = sp.vma) (hempty : places = ∅) :
    Inserts as sp len flags places (.ok (.error e, s')) := by
  refine ⟨.error e, s', sp', rfl, hsp', ?_, ?_, hempty, hvma⟩
  · rw [hvma]
    exact hl.ordered
  · rw [hvma]
    exact hl.links

/-- A successful insertion. -/
theorem inserts_ok {s' : State} {l : List VmArea} {places : Set ℕ} {v : VmArea} (hl : sp.Listed)
    (hsp' : s'.spaces as = some { sp with vma := l, vmaPool := sp.vmaPool + 1 })
    (hid : v.id = sp.vmaPool) (hins : Inserted v sp.vma l) (hb : Backs .head l)
    (hleast : IsLeast places v.vmaBegin) (hlen : v.vmaLength = len) (hflags : v.vmaFlags = flags) :
    Inserts as sp len flags places (.ok (.ok v, s')) := by
  have h := hl.insert hid hins hb
  exact ⟨.ok v, s', _, rfl, hsp', h.ordered, h.links, hleast, hlen, hflags, hins⟩

theorem insertVmaToVaddr_inserts (hsp : s.spaces as = some sp) (hl : sp.Listed) (hb : sp.Bounded)
    (hlen : 0 < len) (hhigh : sp.highAddr + len < 2 ^ 64) (hvaddr : vaddr + len < 2 ^ 64) :
    Inserts as sp len flags (vaddrPlaces sp vaddr len) (insertVmaToVaddr s as vaddr len flags) := by
  have hwrap : ∀ w ∈ sp.vma, w.vmaBegin + w.vmaLength < 2 ^ 64 := by
    intro w hw
    have := hb.high w hw
    omega
  obtain ⟨hnone, hsome⟩ := aspaceAddVma_spec (v := ⟨sp.vmaPool, flags, 0, vaddr, len, [], .head⟩)
    hl.ordered hwrap hvaddr ((backLinks_iff hl.ids).1 hl.links)
  simp only [insertVmaToVaddr, getSpace_eq (s := disableInterrupts s) hsp, ok_bind,
    enableInterrupts_setSpace]
  split
  · rename_i halign
    refine inserts_error hl (setSpace_spaces ..) rfl (Set.eq_empty_of_forall_notMem ?_)
    rintro a ⟨rfl, ha, -⟩
    exact halign ha
  split
  · rename_i hout
    refine inserts_error hl (setSpace_spaces ..) rfl (Set.eq_empty_of_forall_notMem ?_)
    rintro a ⟨rfl, -, hlow, hhigh, -⟩
    omega
  rename_i halign hout
  split
  · rename_i heq
    rw [enableInterrupts_disable]
    refine inserts_error hl (setSpace_spaces ..) rfl (Set.eq_empty_of_forall_notMem ?_)
    rintro a ⟨rfl, -, -, -, hclear⟩
    obtain ⟨w, hw, hlt, hgt⟩ := hnone.1 heq
    dsimp only at hlt hgt
    rcases (clear_iff_free hlen hb.pos).1 hclear w hw with h | h <;> omega
  · rename_i l heq
    obtain ⟨hins, hbacks⟩ := hsome l heq
    refine inserts_ok hl (setSpace_spaces ..) rfl hins hbacks ⟨?_, fun a ha => ha.1.ge⟩ rfl rfl
    refine ⟨rfl, not_not.1 halign, by dsimp only; omega, by dsimp only; omega, ?_⟩
    refine (clear_iff_free hlen hb.pos).2 fun w hw => ?_
    by_contra hover
    have := hnone.2 ⟨w, hw, by dsimp only at hover ⊢; omega, by dsimp only at hover ⊢; omega⟩
    rw [this] at heq
    cases heq

theorem insertVmaToAny_inserts (hsp : s.spaces as = some sp) (hl : sp.Listed) (hb : sp.Bounded)
    (hlen : 0 < len) (hhigh : sp.highAddr + len < 2 ^ 64) :
    Inserts as sp len flags (anyPlaces sp len) (insertVmaToAny s as len flags) := by
  have hin : ∀ w ∈ sp.vma, sp.lowAddr ≤ w.vmaBegin ∧ w.vmaBegin + w.vmaLength ≤ sp.highAddr :=
    fun w hw => ⟨hb.low w hw, hb.high w hw⟩
  obtain ⟨hge, hle, hfree, hleast, hend⟩ := findGap_spec hl.ordered hb.low_le hin hhigh
  simp only [insertVmaToAny, getSpace_eq (s := disableInterrupts s) hsp, ok_bind,
    enableInterrupts_setSpace, wadd_eq (show (findGap len sp.lowAddr sp.vma).1 + len < 2 ^ 64 by omega)]
  split
  · rename_i hfail
    refine inserts_error hl hsp rfl (Set.eq_empty_of_forall_notMem ?_)
    rintro a ⟨hlow, ha, hclear⟩
    have := hleast a hlow ((clear_iff_free hlen hb.pos).1 hclear)
    omega
  · rename_i hfit
    obtain ⟨hins, hbacks⟩ := insertAtGap_spec
      (v := ⟨sp.vmaPool, flags, 0, (findGap len sp.lowAddr sp.vma).1, len, [], .head⟩)
      hl.ordered hin hhigh rfl rfl ((backLinks_iff hl.ids).1 hl.links) hb.low_le
    refine inserts_ok hl (setSpace_spaces ..) rfl hins hbacks ⟨⟨hge, ?_, ?_⟩, ?_⟩ rfl rfl
    · rcases Bool.eq_false_or_eq_true (findGap len sp.lowAddr sp.vma).2 with h | h
      · exact hend h
      · by_contra hlt
        exact hfit ⟨h, by dsimp only at hlt; omega⟩
    · exact (clear_iff_free hlen hb.pos).2 hfree
    · rintro a ⟨hlow, -, hclear⟩
      exact hleast a hlow ((clear_iff_free hlen hb.pos).1 hclear)

/-- Both insertions take the least place there is, and fail if there is none. -/
theorem insertVma_correct (hsp : s.spaces as = some sp) (hl : sp.Listed) (hb : sp.Bounded)
    (hlen : 0 < len) (hhigh : sp.highAddr + len < 2 ^ 64) :
    (vaddr + len < 2 ^ 64 →
      Inserts as sp len flags (vaddrPlaces sp vaddr len) (insertVmaToVaddr s as vaddr len flags)) ∧
    Inserts as sp len flags (anyPlaces sp len) (insertVmaToAny s as len flags) :=
  ⟨insertVmaToVaddr_inserts hsp hl hb hlen hhigh, insertVmaToAny_inserts hsp hl hb hlen hhigh⟩

end Insertion

/-- Two VMAs with a page between them. -/
def gapped : AddressSpace where
  vma := [⟨0, VMA_RW, 0, 0x400000, 0x1000, [], .head⟩, ⟨1, 0, 0, 0x402000, 0x3000, [], .next 0⟩]
  vaddrMap := ∅
  lowAddr := USER_BASE
  highAddr := USER_TOP
  vmaPool := 2

theorem gapped_listed : gapped.Listed where
  ids := by decide
  id_lt := by decide
  ordered := by simp [Ordered, gapped]
  links := by simp [BackLinks, gapped, Link.deref]

theorem gapped_bounded : gapped.Bounded where
  low_le := by decide
  low := by decide
  high := by decide
  pos := by decide

theorem insertVma_correct_gapped :
    Inserts 0 gapped 0x1000 VMA_RW (vaddrPlaces gapped 0x401000 0x1000)
      (insertVmaToVaddr ((World.boot [] 0).mm.setSpace 0 gapped) 0 0x401000 0x1000 VMA_RW) ∧
    Inserts 0 gapped 0x1000 VMA_RW (anyPlaces gapped 0x1000)
      (insertVmaToAny ((World.boot [] 0).mm.setSpace 0 gapped) 0 0x1000 VMA_RW) := by
  obtain ⟨hvaddr, hany⟩ := @insertVma_correct _ 0 0x401000 0x1000 VMA_RW gapped
    (setSpace_spaces (World.boot [] 0).mm 0 gapped) gapped_listed gapped_bounded (by decide) (by decide)
  exact ⟨hvaddr (by decide), hany⟩

/-- `address_space_assign_page` in a VMA. -/
theorem assignPage_eq {s : State} {as p vaddr flags : ℕ} {sp : AddressSpace} {w : VmArea}
    (haligned : vaddr % 4096 = 0) (hsp : s.spaces as = some sp)
    (hw : vmaFindByVaddr vaddr sp.vma = some w) :
    assignPage s as p vaddr flags =
      (assignPageNoAddrCheck s as p vaddr w.id flags >>= fun s' => .ok (0, s')) := by
  have hal : isAligned vaddr = true := by simp [isAligned, haligned]
  have hsp' : (disableInterrupts s).spaces as = some sp := hsp
  simp only [assignPage, hal, getSpace_eq hsp', enableInterrupts_disable, ok_bind, hw,
    Bool.not_true, Bool.false_eq_true, reduceIte, pure_eq_ok]

/-! ## The test of a range -/

section Validate

variable {l : List VmArea} {base len : ℕ}

/-- An address below all VMAs is in none. -/
theorem not_contains_of_lt {a : ℕ} (h : ∀ v ∈ l, a < v.vmaBegin) : ¬∃ v ∈ l, v.Contains a := by
  rintro ⟨v, hv, hle, -⟩
  have := h v hv
  omega

/-- The VMAs from the one that contains `base` on contain the same addresses from `base` on. -/
theorem vmasFrom_spec (ho : Ordered l) (hwrap : ∀ v ∈ l, v.vmaBegin + v.vmaLength < 2 ^ 64) :
    Ordered (vmasFrom base l) ∧ (∀ v ∈ vmasFrom base l, v ∈ l) ∧
      (∀ v ∈ vmasFrom base l, base ≤ v.vmaBegin + v.vmaLength) ∧
      ((∃ v ∈ l, v.Contains base) →
        ∀ a, base ≤ a → (∃ v ∈ l, v.Contains a) → ∃ v ∈ vmasFrom base l, v.Contains a) := by
  induction l with
  | nil => simp [vmasFrom, Ordered]
  | cons w rest ih =>
    rw [vmasFrom, wadd_eq (hwrap w List.mem_cons_self)]
    split
    · rename_i hlt
      refine ⟨List.Pairwise.nil, by simp, by simp, fun hbase => absurd hbase ?_⟩
      refine not_contains_of_lt fun v hv => ?_
      rcases List.mem_cons.1 hv with rfl | hv
      · exact hlt
      · have := ho.le hv
        omega
    split
    · rename_i hle hlt
      refine ⟨ho, fun v hv => hv, fun v hv => ?_, fun _ a _ ha => ha⟩
      rcases List.mem_cons.1 hv with rfl | hv
      · exact hlt.le
      · have := ho.le hv
        omega
    · rename_i hle hge
      obtain ⟨h₁, h₂, h₃, h₄⟩ := ih ho.of_cons fun v hv => hwrap v (List.mem_cons_of_mem _ hv)
      -- `w` ends at or before `base`
      have hnot : ∀ a, base ≤ a → (∃ v ∈ w :: rest, v.Contains a) → ∃ v ∈ rest, v.Contains a := by
        rintro a ha ⟨v, hv, hc⟩
        rcases List.mem_cons.1 hv with rfl | hv
        · have := hc.2
          omega
        · exact ⟨v, hv, hc⟩
      exact ⟨h₁, fun v hv => List.mem_cons_of_mem _ (h₂ v hv), h₃, fun hbase a ha hc =>
        h₄ (hnot base le_rfl hbase) a ha (hnot a ha hc)⟩

/-- The loop of `validate_range`. -/
theorem validateRangeFrom_iff (ho : Ordered l)
    (hwrap : ∀ v ∈ l, v.vmaBegin + v.vmaLength < 2 ^ 64)
    (hbase : ∀ v ∈ l, base ≤ v.vmaBegin + v.vmaLength) (hlen : 0 < len) (hlen' : len < 2 ^ 64) :
    validateRangeFrom base len l = true ↔
      ∀ a, base ≤ a → a < base + len → ∃ v ∈ l, v.Contains a := by
  induction l generalizing base len with
  | nil =>
    simp only [validateRangeFrom, Bool.false_eq_true, List.not_mem_nil, false_and, exists_false,
      false_iff]
    intro h
    exact h base le_rfl (by omega)
  | cons v rest ih =>
    have hv := hwrap v List.mem_cons_self
    have hb := hbase v List.mem_cons_self
    simp only [validateRangeFrom, wadd_eq hv, wsub_eq hb hv]
    split
    · rename_i hlt
      simp only [Bool.false_eq_true, false_iff]
      intro h
      refine not_contains_of_lt (fun w hw => ?_) (h base le_rfl (by omega))
      rcases List.mem_cons.1 hw with rfl | hw
      · exact hlt
      · have := ho.le hw
        omega
    split
    · rename_i hlt hle
      simp only [true_iff]
      exact fun a ha ha' => ⟨v, List.mem_cons_self, by omega, by omega⟩
    · rename_i hlt hgt
      rw [wsub_eq (by omega) hlen', if_pos (by omega), ih ho.of_cons
        (fun w hw => hwrap w (List.mem_cons_of_mem _ hw))
        (fun w hw => (ho.le hw).trans (Nat.le_add_right _ _)) (by omega) (by omega)]
      constructor
      · intro h a ha ha'
        by_cases hin : a < v.vmaBegin + v.vmaLength
        · exact ⟨v, List.mem_cons_self, by omega, hin⟩
        · obtain ⟨w, hw, hc⟩ := h a (by omega) (by omega)
          exact ⟨w, List.mem_cons_of_mem _ hw, hc⟩
      · intro h a ha ha'
        obtain ⟨w, hw, hc⟩ := h a (by omega) (by omega)
        rcases List.mem_cons.1 hw with rfl | hw
        · have := hc.2
          omega
        · exact ⟨w, hw, hc⟩

/-- The search for the first VMA, and the loop from there on. -/
theorem validateRangeFrom_vmasFrom (ho : Ordered l)
    (hwrap : ∀ v ∈ l, v.vmaBegin + v.vmaLength < 2 ^ 64) (hlen : 0 < len) (hlen' : len < 2 ^ 64) :
    validateRangeFrom base len (vmasFrom base l) = true ↔
      ∀ a, base ≤ a → a < base + len → ∃ v ∈ l, v.Contains a := by
  obtain ⟨h₁, h₂, h₃, h₄⟩ := @vmasFrom_spec l base ho hwrap
  rw [validateRangeFrom_iff h₁ (fun v hv => hwrap v (h₂ v hv)) h₃ hlen hlen']
  constructor
  · intro h a ha ha'
    obtain ⟨v, hv, hc⟩ := h a ha ha'
    exact ⟨v, h₂ v hv, hc⟩
  · intro h a ha ha'
    exact h₄ (h base le_rfl (by omega)) a ha (h a ha ha')

/-- The test of a range succeeds exactly if each of its addresses is in a VMA. -/
theorem validateRange_iff {s : State} {sp : AddressSpace} (hsp : s.spaces s.current = some sp)
    (ho : Ordered sp.vma) (hwrap : ∀ v ∈ sp.vma, v.vmaBegin + v.vmaLength < 2 ^ 64)
    (hlen : 0 < len) (hlen' : len < 2 ^ 64) :
    ∃ b, validateRange s base len = .ok b ∧
      (b = true ↔ ∀ a, base ≤ a → a < base + len → ∃ v ∈ sp.vma, v.Contains a) := by
  refine ⟨validateRangeFrom base len (vmasFrom base sp.vma), ?_,
    validateRangeFrom_vmasFrom ho hwrap hlen hlen'⟩
  simp only [validateRange, getSpace_eq hsp, ok_bind, pure_eq_ok]

/-- The search for a VMA finds one that contains the address. -/
theorem vmaFind_of_contains {addr : ℕ} (ho : Ordered l)
    (hwrap : ∀ v ∈ l, v.vmaBegin + v.vmaLength < 2 ^ 64) (h : ∃ v ∈ l, v.Contains addr) :
    ∃ v, vmaFindByVaddr addr l = some v := by
  induction l with
  | nil => simp at h
  | cons w rest ih =>
    rw [vmaFindByVaddr, wadd_eq (hwrap w List.mem_cons_self)]
    obtain ⟨v, hv, hle, hlt⟩ := h
    rcases List.mem_cons.1 hv with rfl | hv
    · rw [if_neg (by omega), if_pos hlt]
      exact ⟨v, rfl⟩
    · have hw := ho.le hv
      rw [if_neg (by omega)]
      split
      · exact ⟨w, rfl⟩
      · exact ih ho.of_cons (fun u hu => hwrap u (List.mem_cons_of_mem _ hu)) ⟨v, hv, hle, hlt⟩

end Validate

theorem validateRange_iff_gapped :
    ∃ b, validateRange ((World.boot [] 0).mm.setSpace 0 gapped) 0x400800 0x1000 = .ok b ∧
      (b = true ↔ ∀ a, 0x400800 ≤ a → a < 0x400800 + 0x1000 → ∃ v ∈ gapped.vma, v.Contains a) :=
  validateRange_iff (s := (World.boot [] 0).mm.setSpace 0 gapped) (setSpace_spaces _ 0 gapped)
    gapped_listed.ordered (by decide) (by decide) (by decide)

end SadOS.Mm
