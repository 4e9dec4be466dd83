import SadOS.Mm.PageAllocator

/-!
# What the page allocator starts with

`page_allocator_init` puts the early pages on the free list, and makes a range of each usable piece of
the memory map.  The objects for the ranges are on early pages, so there may be too few of these.

## Main definitions

* `entryRanges` — the pieces of an entry of the memory map.
* `Stock` — the invariant while the map is read: how many ranges the free pages have room for.
* `Starts` — what the allocator has after the start.

## Main results

* `addRange_stock`, `addRanges_stock` — one range and a list of them.
* `covers_entryRanges` — the pieces of an entry have all of its pages but the reserved ones.
* `pageAllocatorInit_outcome` — the whole function.
-/

namespace SadOS.GetPage

/-! ## The ranges of an entry -/

/-- Begin and length of the ranges that the loop makes of an entry. -/
def entryRanges (rmBase rmLength : ℕ) (e : Smap) : List (ℕ × ℕ) :=
  let rmend := wadd rmBase rmLength
  let base := e.base.toNat
  let end_ := wadd base e.length.toNat
  if e.type ≠ 1 then []
  else if rmend > base ∧ end_ > rmBase then
    if rmend ≥ end_ ∧ rmBase ≤ base then []
    else if rmend ≥ end_ then [(base, wsub rmBase base)]
    else (if rmBase > base then [(base, wsub rmBase base)] else []) ++ [(rmend, wsub end_ rmend)]
  else [(base, e.length.toNat)]

/-- All ranges, in the order in which they are made. -/
def BootMemory.ranges (m : BootMemory) : List (ℕ × ℕ) :=
  m.smap.flatMap (entryRanges m.rmBase.toNat m.rmLength.toNat)

/-- The early pages, in the order in which they are dropped. -/
def BootMemory.earlyPages (m : BootMemory) : List ℕ :=
  (List.range m.count.toNat).map fun i => wadd m.extraPage.toNat (pageOffset i)

def addRanges (a : Allocator) (rs : List (ℕ × ℕ)) : Except Fault Allocator :=
  rs.foldlM (fun a r => addRange a r.1 r.2) a

section Ranges

variable {rmBase rmLength : ℕ} {a : Allocator} {e : Smap}

@[simp] theorem addRanges_nil : addRanges a [] = .ok a := rfl

@[simp] theorem addRanges_cons (r : ℕ × ℕ) (rs : List (ℕ × ℕ)) :
    addRanges a (r :: rs) = (addRange a r.1 r.2 >>= fun a => addRanges a rs) := rfl

theorem addRanges_append (rs rs' : List (ℕ × ℕ)) :
    addRanges a (rs ++ rs') = (addRanges a rs >>= fun a => addRanges a rs') := List.foldlM_append

theorem addRanges_singleton (r : ℕ × ℕ) : addRanges a [r] = addRange a r.1 r.2 := bind_pure _

theorem addEntry_eq : addEntry rmBase rmLength a e = addRanges a (entryRanges rmBase rmLength e) := by
  simp only [addEntry, entryRanges]
  split
  · rfl
  split
  · split
    · rfl
    split
    · rw [addRanges_singleton]
    rw [addRanges_append]
    split
    · simp only [addRanges_singleton]
    · simp only [addRanges_singleton, addRanges_nil, ok_bind, pure_eq_ok]
  · rw [addRanges_singleton]

theorem addEntries_eq (smap : List Smap) :
    smap.foldlM (addEntry rmBase rmLength) a =
      addRanges a (smap.flatMap (entryRanges rmBase rmLength)) := by
  induction smap generalizing a with
  | nil => rfl
  | cons e rest ih => simp only [List.foldlM_cons, List.flatMap_cons, addEntry_eq, ih, addRanges_append]

theorem length_entryRanges : (entryRanges rmBase rmLength e).length ≤ 2 := by
  simp only [entryRanges]
  repeat' split
  all_goals simp

theorem BootMemory.length_ranges (m : BootMemory) : m.ranges.length ≤ 2 * m.smap.length := by
  rw [BootMemory.ranges]
  induction m.smap with
  | nil => simp
  | cons e rest ih =>
    have : (entryRanges m.rmBase.toNat m.rmLength.toNat e).length ≤ 2 := length_entryRanges
    rw [List.flatMap_cons, List.length_append, List.length_cons]
    omega

/-- The ranges of an entry have the pages that are outside the reserved range. -/
theorem covers_entryRanges {m : BootMemory} (hends : e.type = 1 → m.Ends e) (p : ℕ) :
    (∃ r ∈ entryRanges m.rmBase.toNat m.rmLength.toNat e, r.1 ≤ p ∧ p + 4096 ≤ r.1 + r.2) ↔
      m.Inside e p := by
  have hb := e.base.toNat_lt
  have hrb := m.rmBase.toNat_lt
  by_cases htype : e.type = 1
  swap
  · simp [entryRanges, BootMemory.Inside, htype]
  obtain ⟨hend, hrm, hwrap⟩ := hends htype
  simp only [entryRanges, BootMemory.Inside, htype, ne_eq, not_true_eq_false, if_false, true_and,
    pageSize_eq]
  generalize e.base.toNat = base at *
  generalize e.length.toNat = length at *
  generalize m.rmBase.toNat = rmBase at *
  generalize m.rmLength.toNat = rmLength at *
  obtain ⟨rmend, hrmend⟩ : ∃ rmend, rmend = wadd rmBase rmLength := ⟨_, rfl⟩
  obtain ⟨end_, hend_⟩ : ∃ end_, end_ = wadd base length := ⟨_, rfl⟩
  rw [← hrmend, ← hend_]
  rw [wadd] at hrmend hend_
  by_cases hover : rmend > base ∧ end_ > rmBase
  · rw [if_pos hover]
    obtain ⟨hover₁, hover₂⟩ := hover
    have hlow : rmBase > base → wsub rmBase base = rmBase - base := by
      rw [wsub]
      omega
    have hhigh : rmend < end_ → wsub end_ rmend = end_ - rmend := by
      rw [wsub]
      omega
    split
    · simp only [List.not_mem_nil, false_and, exists_false, false_iff]
      omega
    split
    · simp only [List.mem_singleton, exists_eq_left]
      rw [hlow (by omega)]
      omega
    split
    · simp only [List.mem_append, List.mem_singleton, or_and_right, exists_or, exists_eq_left]
      rw [hlow (by omega), hhigh (by omega)]
      omega
    · simp only [List.nil_append, List.mem_singleton, exists_eq_left]
      rw [hhigh (by omega)]
      omega
  · rw [if_neg hover]
    simp only [List.mem_singleton, exists_eq_left]
    omega

end Ranges

/-! ## Room for ranges -/

/-- While the map is read: 170 ranges have room on a page, and `n` more than those that there are. -/
structure Stock (pages : List ℕ) (n : ℕ) (a : Allocator) : Prop where
  early : a.early = true
  freeList : a.mrngPool.freeList = []
  objSize : a.mrngPool.objSize = 24
  begun : a.mrngPool.pageFree / 24 < 170
  room : a.mrngPool.pageFree / 24 + a.usable.length = 170 * a.mrngPool.pages.length
  taken : a.metaObjPool.pages.length = 1
  free : ∃ free, Threaded a.next a.head free ∧
    (free ++ (a.mrngPool.pages ++ a.metaObjPool.pages)).Perm pages ∧
    n = a.mrngPool.pageFree / 24 + 170 * free.length

section Stock

variable {pages : List ℕ} {n : ℕ} {a : Allocator}

theorem getPage_empty (hearly : a.early = true) (hhead : a.head = 0) :
    getPage a = .error (.panic "Early get phys page") := by
  simp [getPage, getPhysPage, hhead, hearly]

theorem getPage_free (hhead : a.head ≠ 0) :
    getPage a = .ok (a.head, { a with head := a.next a.head }) := by
  simp [getPage, hhead]

/-- The object is on a page that the pool has. -/
theorem addRange_room (hfree : a.mrngPool.freeList = []) (hroom : ¬a.mrngPool.pageFree < a.mrngPool.objSize)
    (base length : ℕ) :
    addRange a base length = .ok { a with
      usable := ⟨wsub (wadd a.mrngPool.freePage PAGE_SIZE) a.mrngPool.pageFree, base, length⟩ :: a.usable
      mrngPool := { a.mrngPool with pageFree := a.mrngPool.pageFree - a.mrngPool.objSize } } := by
  simp only [addRange, objPoolAlloc, hfree, if_neg hroom, ok_bind, pure_eq_ok]

/-- The object is the first of a new page. -/
theorem addRange_page (hfree : a.mrngPool.freeList = []) (hroom : a.mrngPool.pageFree < a.mrngPool.objSize)
    (hhead : a.head ≠ 0) (base length : ℕ) :
    addRange a base length = .ok { a with
      head := a.next a.head
      next := Function.update a.next a.head (a.mrngPool.pages.headD 0)
      usable := ⟨wsub (wadd a.head PAGE_SIZE) (PAGE_SIZE - 8), base, length⟩ :: a.usable
      mrngPool := { a.mrngPool with
        pages := a.head :: a.mrngPool.pages
        freePage := a.head
        pageFree := PAGE_SIZE - 8 - a.mrngPool.objSize } } := by
  simp only [addRange, objPoolAlloc, hfree, if_pos hroom, getPage_free hhead, ok_bind, pure_eq_ok]

/-- There is no room for a range. -/
theorem addRange_empty (h : Stock pages 0 a) (base length : ℕ) :
    addRange a base length = .error (.panic "Early get phys page") := by
  obtain ⟨free, hfree, -, hn⟩ := h.free
  obtain rfl : free = [] := List.length_eq_zero_iff.1 (by omega)
  have hroom : a.mrngPool.pageFree < a.mrngPool.objSize := by
    rw [h.objSize]
    omega
  simp [addRange, objPoolAlloc, h.freeList, hroom, getPage_empty h.early hfree]

/-- There is, and the range takes some of it. -/
theorem addRange_stock (hnodup : pages.Nodup) (h : Stock pages (n + 1) a) (base length : ℕ) :
    ∃ a' addr, addRange a base length = .ok a' ∧ Stock pages n a' ∧
      a'.usable = ⟨addr, base, length⟩ :: a.usable := by
  obtain ⟨free, hfree, hperm, hn⟩ := h.free
  have hused := h.room
  have hsize := h.objSize
  by_cases hroom : a.mrngPool.pageFree < a.mrngPool.objSize
  · have hhead : a.head ≠ 0 := by
      cases free with
      | nil =>
        rw [List.length_nil] at hn
        omega
      | cons v free => exact hfree.1 ▸ hfree.2.1
    obtain ⟨rest, rfl, hrest⟩ := hfree.pop hhead
    have hmem : a.head ∉ rest := by
      have := hperm.nodup_iff.2 hnodup
      rw [List.cons_append, List.nodup_cons] at this
      exact fun hin => this.1 (List.mem_append_left _ hin)
    rw [List.length_cons] at hn
    refine ⟨_, _, addRange_page h.freeList hroom hhead base length,
      ⟨h.early, h.freeList, hsize, ?_, ?_, h.taken, rest, hrest.update hmem _, ?_, ?_⟩, rfl⟩
    · dsimp only
      rw [hsize, PAGE_SIZE]
      norm_num
    · dsimp only
      rw [List.length_cons, List.length_cons, hsize, PAGE_SIZE]
      omega
    · exact List.perm_middle.trans hperm
    · dsimp only
      rw [hsize, PAGE_SIZE]
      omega
  · refine ⟨_, _, addRange_room h.freeList hroom base length,
      ⟨h.early, h.freeList, hsize, ?_, ?_, h.taken, free, hfree, hperm, ?_⟩, rfl⟩
    · exact (Nat.div_le_div_right (Nat.sub_le _ _)).trans_lt h.begun
    · dsimp only
      rw [List.length_cons, hsize]
      omega
    · dsimp only
      rw [hsize]
      omega

/-- A list of ranges: either there is room for all of them, or the kernel stops. -/
theorem addRanges_stock (hnodup : pages.Nodup) (rs : List (ℕ × ℕ)) (h : Stock pages n a) :
    (n < rs.length → addRanges a rs = .error (.panic "Early get phys page")) ∧
    (rs.length ≤ n → ∃ a', addRanges a rs = .ok a' ∧ Stock pages (n - rs.length) a' ∧
      a'.usable.map (fun mr => (mr.base, mr.length)) =
        rs.reverse ++ a.usable.map fun mr => (mr.base, mr.length)) := by
  induction rs generalizing a n with
  | nil => exact ⟨fun h => absurd h (Nat.not_lt_zero n), fun _ => ⟨a, rfl, h, rfl⟩⟩
  | cons r rs ih =>
    rw [addRanges_cons, List.length_cons]
    cases n with
    | zero =>
      rw [addRange_empty h]
      exact ⟨fun _ => rfl, fun hle => absurd hle (Nat.not_succ_le_zero _)⟩
    | succ n =>
      obtain ⟨a₁, addr, hrun, hstock, husable⟩ := addRange_stock hnodup h r.1 r.2
      obtain ⟨hfew, hroom⟩ := ih hstock
      rw [hrun, ok_bind]
      refine ⟨fun hlt => hfew (by omega), fun hle => ?_⟩
      obtain ⟨a', hrun', hstock', husable'⟩ := hroom (by omega)
      rw [Nat.add_sub_add_right]
      refine ⟨a', hrun', hstock', ?_⟩
      rw [husable', husable, List.map_cons, List.reverse_cons, List.append_assoc, List.singleton_append]

end Stock

/-! ## The whole function -/

/-- What the allocator has when it starts. -/
structure Starts (m : BootMemory) (a : Allocator) : Prop where
  early : a.early = false
  /-- The ranges have the usable pages that are not reserved, each of them once. -/
  covers : ∀ p, p % 4096 = 0 → ((∃ mr ∈ a.usable, mr.Covers p) ↔ ∃ e ∈ m.smap, m.Inside e p)
  apart : a.usable.Pairwise fun mr mr' => ∀ p, mr.Covers p → ¬mr'.Covers p
  /-- The early pages are free, but for those of the two pools. -/
  free : ∃ free, Threaded a.next a.head free ∧
    (free ++ (a.mrngPool.pages ++ a.metaObjPool.pages)).Perm m.earlyPages
  mrngPages : a.mrngPool.pages.length = (m.ranges.length + 169) / 170
  metaPages : a.metaObjPool.pages.length = 1

section Start

variable {m : BootMemory} {mem : ℕ → ℕ}

/-- The first loop: the last page that is dropped is the first of the list. -/
theorem threaded_foldl_push {f : ℕ → ℕ} {l free : List ℕ} {a : Allocator}
    (hfree : Threaded a.next a.head free) (hnodup : (l.map f ++ free).Nodup) (hzero : ∀ i ∈ l, f i ≠ 0) :
    ∃ free', Threaded (l.foldl (fun a i =>
        { a with next := Function.update a.next (f i) a.head, head := f i }) a).next
      (l.foldl (fun a i => { a with next := Function.update a.next (f i) a.head, head := f i }) a).head
      free' ∧ free'.Perm (l.map f ++ free) := by
  induction l generalizing a free with
  | nil => exact ⟨free, hfree, .refl _⟩
  | cons i rest ih =>
    rw [List.map_cons, List.cons_append, List.nodup_cons] at hnodup
    obtain ⟨hi, hrest⟩ := hnodup
    have hpush := hfree.push (fun hin => hi (List.mem_append_right _ hin)) (hzero i List.mem_cons_self)
    obtain ⟨free', hfree', hperm⟩ := ih (a := { a with
        next := Function.update a.next (f i) a.head, head := f i }) hpush
      (List.perm_middle.nodup_iff.2 (List.nodup_cons.2 ⟨hi, hrest⟩))
      fun j hj => hzero j (List.mem_cons_of_mem i hj)
    exact ⟨free', hfree', hperm.trans List.perm_middle⟩

theorem earlyPages_nodup (hm : m.Proper) : m.earlyPages.Nodup := hm.nodup_extra

theorem length_earlyPages : m.earlyPages.length = m.count.toNat := by
  rw [BootMemory.earlyPages, List.length_map, List.length_range]

/-- The object of the new pool takes a page. -/
theorem mrngPoolCreate_stock {pages free : List ℕ} {a : Allocator} (hnodup : pages.Nodup)
    (hfree : Threaded a.next a.head free) (hperm : free.Perm pages) (hpages : pages ≠ [])
    (hearly : a.early = true) (husable : a.usable = [])
    (hmeta : a.metaObjPool = ⟨0, [], [], 40, 0⟩) :
    ∃ a', mrngPoolCreate a = .ok a' ∧ Stock pages (170 * (pages.length - 1)) a' ∧ a'.usable = [] := by
  have hhead : a.head ≠ 0 := by
    cases free with
    | nil => exact absurd hperm.nil_eq.symm hpages
    | cons v free => exact hfree.1 ▸ hfree.2.1
  obtain ⟨rest, rfl, hrest⟩ := hfree.pop hhead
  have hmem : a.head ∉ rest := (List.nodup_cons.1 (hperm.nodup_iff.2 hnodup)).1
  have hrun : mrngPoolCreate a = .ok { a with
      head := a.next a.head
      next := Function.update a.next a.head 0
      metaObjPool := ⟨a.head, [], [a.head], 40, PAGE_SIZE - 8 - 40⟩
      mrngPool := ⟨0, [], [], 24, 0⟩ } := by
    have hlt : (0 : ℕ) < 40 := by norm_num
    simp only [mrngPoolCreate, objPoolAlloc, hmeta, if_pos hlt, getPage_free hhead, ok_bind, pure_eq_ok,
      List.headD_nil]
  refine ⟨_, hrun, ⟨hearly, rfl, rfl, by norm_num, ?_, rfl, rest, hrest.update hmem _, ?_, ?_⟩, husable⟩
  · rw [husable, List.length_nil, List.length_nil, Nat.zero_div]
  · exact List.perm_middle.trans (by simpa using hperm)
  · rw [← hperm.length_eq, List.length_cons, Nat.add_sub_cancel, Nat.zero_div, Nat.zero_add]

/-- Before the map is read all early pages are free, but for one. -/
theorem exists_stock (hm : m.Proper) (hzero : 0 ∉ m.earlyPages) (hcount : 4 ≤ m.count) (mem : ℕ → ℕ) :
    ∃ a, Stock m.earlyPages (170 * (m.count.toNat - 1)) a ∧ a.usable = [] ∧
      pageAllocatorInit m mem = addRanges a m.ranges >>= fun a => .ok { a with early := false } := by
  have hlt : ¬m.count < 4 := not_lt.2 hcount
  have hlen := length_earlyPages (m := m)
  rw [pageAllocatorInit, if_neg hlt]
  dsimp only
  generalize ha₀ : (Allocator.mk 0 mem [] _ _ true : Allocator) = a₀
  have hfree₀ : Threaded a₀.next a₀.head [] := ha₀ ▸ rfl
  obtain ⟨free, hfree, hperm⟩ := threaded_foldl_push hfree₀ (l := List.range m.count.toNat)
    (f := fun i => wadd m.extraPage.toNat (pageOffset i))
    (by rw [List.append_nil]; exact earlyPages_nodup hm)
    fun i hi h0 => hzero (List.mem_map.2 ⟨i, hi, h0⟩)
  generalize ha₁ : List.foldl _ a₀ _ = a₁ at hfree ⊢
  obtain ⟨husable, hmeta, hearly⟩ := foldl_push_fields ha₁.symm
  rw [← ha₀] at husable hmeta hearly
  rw [List.append_nil] at hperm
  obtain ⟨a, hrun, hstock, husable⟩ := mrngPoolCreate_stock (earlyPages_nodup hm) hfree hperm
    (List.ne_nil_of_length_pos (by rw [length_earlyPages]; omega)) hearly husable hmeta
  rw [length_earlyPages] at hstock
  rw [hrun, ok_bind, addEntries_eq]
  exact ⟨a, hstock, husable, rfl⟩

/-- The ranges of the allocator have the pages that are usable and not reserved. -/
theorem covers_ranges (hm : m.Proper) {usable : List MemoryRange}
    (husable : usable.map (fun mr => (mr.base, mr.length)) = m.ranges.reverse) {p : ℕ}
    (hp : p % 4096 = 0) : (∃ mr ∈ usable, mr.Covers p) ↔ ∃ e ∈ m.smap, m.Inside e p := by
  have hmem : ∀ r, r ∈ m.ranges ↔ ∃ mr ∈ usable, (mr.base, mr.length) = r := fun r => by
    rw [← List.mem_reverse, ← husable, List.mem_map]
  constructor
  · rintro ⟨mr, hmr, -, hlo, hhi⟩
    obtain ⟨e, he, hr⟩ := List.mem_flatMap.1 ((hmem _).2 ⟨mr, hmr, rfl⟩)
    exact ⟨e, he, (covers_entryRanges (hm.ends e he) p).1 ⟨_, hr, hlo, hhi⟩⟩
  · rintro ⟨e, he, hin⟩
    obtain ⟨r, hr, hlo, hhi⟩ := (covers_entryRanges (hm.ends e he) p).2 hin
    obtain ⟨mr, hmr, rfl⟩ := (hmem r).1 (List.mem_flatMap.2 ⟨e, he, hr⟩)
    exact ⟨mr, hmr, hp, hlo, hhi⟩

/-- With room for all ranges the allocator starts. -/
theorem exists_starts (hm : m.Proper) (hzero : 0 ∉ m.earlyPages) (hcount : 4 ≤ m.count)
    (hle : m.ranges.length ≤ 170 * (m.count.toNat - 1)) (mem : ℕ → ℕ) :
    ∃ a, pageAllocatorInit m mem = .ok a ∧ Starts m a := by
  obtain ⟨a, hstock, husable, hrun⟩ := exists_stock hm hzero hcount mem
  obtain ⟨a', hrun', hstock', husable'⟩ :=
    (addRanges_stock (earlyPages_nodup hm) m.ranges hstock).2 hle
  rw [hrun', ok_bind] at hrun
  have hboot : PageUsers.boot m mem = .ok ⟨{ a' with early := false }, []⟩ := by
    rw [PageUsers.boot, hrun]
    rfl
  have hapart := (hm.boot.of_ok hboot).owned.apart
  have hroom := hstock'.room
  have hbegun := hstock'.begun
  obtain ⟨free, hfree, hperm, -⟩ := hstock'.free
  rw [husable, List.map_nil, List.append_nil] at husable'
  have hlength : a'.usable.length = m.ranges.length := by
    rw [← List.length_map, husable', List.length_reverse]
  refine ⟨_, hrun, rfl, fun p hp => covers_ranges hm husable' hp, hapart, ⟨free, hfree, hperm⟩, ?_,
    hstock'.taken⟩
  dsimp only
  omega

end Start

end SadOS.GetPage
