import SadOS.Libc.Accesses
import SadOS.Libc.Buddy

/-!
# The sizes of requests

Which requests `malloc` gets right.  The order of a block is the length of its size in
bits, so a size of 4096 bytes with the header is sent to a list that does not exist.  The
size wraps around when the header is added, or when it is rounded up to pages, near the
end of `size_t`.

## Main definitions

* `WellFormed` — the allocator states.
* `Meets` — `malloc` keeps to its lists and returns nothing, or a block with room.
* `SizeFits` — the requests for which it does.
* `meets_iff` — it does for no others.
-/

namespace SadOS.Libc.Malloc

/-- The pages for blocks.  Other areas are longer. -/
def buddyPages (h : Heap) : List (ℕ × ℕ) := h.pages.filter fun p => p.2 = 4096

/-- Free lists and blocks as they should be. -/
def WellFormed (base : ℕ) (h : Heap) : Prop := ∃ ord ls, Buddies base h.mem (buddyPages h) ord ls

/-- An access to one of the 13 lists, or to a header. -/
def Access.InFree : Access → Prop
  | .slot i => i < 13
  | .clzZero => False
  | _ => True

/-- The pointer is behind the header of a block, or of an area just obtained, with room for
`s` bytes. -/
def HasRoom (base s : ℕ) (before after : Heap) (ptr : ℕ) : Prop :=
  (∃ ord ls x k, Buddies base after.mem (buddyPages after) ord ls ∧ Busy ord ls x k ∧
    ptr = x + sizeofHdr ∧ sizeofHdr + s ≤ 2 ^ k) ∨
  ∃ x n, after.pages = (x, n) :: before.pages ∧ flagsOf after.mem x = HUGE ∧
    nextOf after.mem x = n ∧ ptr = x + sizeofHdr ∧ sizeofHdr + s ≤ n

/-- `malloc`, where `sendpage` returns `page`, keeps to its lists, and returns nothing or a
block with room. -/
structure Meets (base page s : ℕ) (h : Heap) : Prop where
  accesses : ∀ a ∈ (mallocT base page s).trace h, a.InFree
  room : (malloc base page s h).1 = 0 ∨
    HasRoom base s h (malloc base page s h).2 (malloc base page s h).1

/-- The request, with its header, is not one page and does not reach the last page of
`size_t`; or there is no block for what the sum has become, and `sendpage` fails. -/
def SizeFits (base page s : ℕ) (h : Heap) : Prop :=
  s + sizeofHdr ≤ 2 ^ 64 - 4096 ∧ s + sizeofHdr ≠ 4096 ∨
    wadd s sizeofHdr ≠ 0 ∧ page = 0 ∧ (4096 < wadd s sizeofHdr ∨
      ∀ i < 13, bitLength (wadd s sizeofHdr) ≤ i → nextOf h.mem (freeSlot base i) = 0)

/-! ## Accesses -/

section accesses

variable {base page order n : ℕ}

theorem touches_putPrevIf (n v : ℕ) : Traced.Touches Access.InFree (putPrevIf n v) :=
  .ite (fun _ => .store _ trivial) fun _ => .pure ()

theorem touches_findOrderT {o : ℕ} (h : o + n ≤ 13) :
    Traced.Touches Access.InFree (findOrderT base n o) := by
  induction n generalizing o with
  | zero => exact .pure o
  | succ n ih =>
    refine .bind (.load _ (by change o < 13; omega)) fun head => ?_
    exact .ite (fun _ => ih (by omega)) fun _ => .pure o

theorem touches_insertT (h : order < 13) (x : ℕ) :
    Traced.Touches Access.InFree (insertT base order x) :=
  .bind (.store _ trivial) fun _ => .bind (.store _ trivial) fun _ =>
    .bind (.load _ h) fun _ => .bind (.store _ trivial) fun _ =>
      .bind (.store _ h) fun _ => .bind (.load _ trivial) fun _ => touches_putPrevIf _ _

theorem touches_splitT (h : order < 13) : Traced.Touches Access.InFree (splitT base order) := by
  have hbelow : (Access.slot (order - 1)).InFree := by
    change order - 1 < 13
    omega
  refine .ite (fun _ => .pure ()) fun _ => ?_
  refine .bind (.load _ h) fun _ => .bind (.load _ trivial) fun _ => ?_
  refine .bind (.store _ h) fun _ => .bind (.load _ trivial) fun _ => ?_
  refine .bind (touches_putPrevIf _ _) fun _ => .bind (.store _ trivial) fun _ => ?_
  refine .bind (.store _ trivial) fun _ => .bind (.load _ hbelow) fun _ => ?_
  refine .bind (.store _ trivial) fun _ => .bind (.load _ trivial) fun _ => ?_
  refine .bind (touches_putPrevIf _ _) fun _ => .bind (.store _ hbelow) fun _ => ?_
  exact .bind (.store _ trivial) fun _ => .bind (.store _ trivial) fun _ => .store _ trivial

theorem touches_splitDownT (h : order + n < 13) :
    Traced.Touches Access.InFree (splitDownT base order n) := by
  induction n with
  | zero => exact .pure ()
  | succ n ih => exact .bind (touches_splitT h) fun _ => ih (by omega)

theorem touches_takeFirstT (h : order < 13) :
    Traced.Touches Access.InFree (takeFirstT base order) := by
  refine .bind (.load _ h) fun _ => .bind (.load _ trivial) fun _ => ?_
  refine .bind (.store _ trivial) fun _ => .bind (.load _ trivial) fun _ => ?_
  refine .bind (.store _ h) fun _ => .bind (.load _ trivial) fun _ => ?_
  refine .bind (touches_putPrevIf _ _) fun _ => .bind (.store _ trivial) fun _ => ?_
  exact .bind (.store _ trivial) fun _ => .pure _

theorem touches_takeSplitT {xorder : ℕ} (h : order ≤ 12) (hx : xorder < 13) :
    Traced.Touches Access.InFree (takeSplitT base order xorder) := by
  refine .bind (touches_splitDownT (by omega)) fun _ => ?_
  exact .bind (touches_takeFirstT (by omega)) fun _ => .pure _

theorem touches_takeT (h : order ≤ 12) (xorder : ℕ) :
    Traced.Touches Access.InFree (takeT base page order xorder) := by
  refine .ite (fun _ => .pure 0) fun _ => .ite (fun _ => ?_) fun hlist => ?_
  · refine .bind (.bind (.modify _) fun _ => .pure _) fun _ => ?_
    exact .bind (touches_insertT (by decide) page) fun _ => touches_takeSplitT h (by decide)
  · exact touches_takeSplitT h (by omega)

theorem trace_bitLengthT {n : ℕ} (hn : n ≠ 0) (h : Heap) : (bitLengthT n).trace h = [] := by
  rw [bitLengthT, if_neg hn]
  rfl

/-- The accesses of a small request. -/
theorem trace_mallocT_small {page s : ℕ} (hsize : wadd s sizeofHdr ≤ 4096)
    (hne : wadd s sizeofHdr ≠ 0) (h : Heap) :
    (mallocT base page s).trace h =
      (findOrderT base (13 - bitLength (wadd s sizeofHdr))
          (bitLength (wadd s sizeofHdr))).trace h ++
        (takeT base page (bitLength (wadd s sizeofHdr)) (findOrder base h.mem
          (13 - bitLength (wadd s sizeofHdr)) (bitLength (wadd s sizeofHdr)))).trace h := by
  rw [mallocT, if_neg (Nat.not_lt.2 hsize), Traced.trace_bind, val_bitLengthT, state_bitLengthT,
    trace_bitLengthT hne, Traced.trace_bind, val_findOrderT, state_findOrderT, List.nil_append]

theorem inFree_of_small {page s : ℕ} (hsize : wadd s sizeofHdr ≤ 4095)
    (hne : wadd s sizeofHdr ≠ 0) (h : Heap) : ∀ a ∈ (mallocT base page s).trace h, a.InFree := by
  have horder : bitLength (wadd s sizeofHdr) ≤ 12 := by
    have hlog := (Nat.log2_lt (k := 12) hne).2 (by norm_num; omega)
    rw [bitLength]
    omega
  intro a ha
  rw [trace_mallocT_small (by omega) hne] at ha
  rcases List.mem_append.1 ha with ha | ha
  · exact touches_findOrderT (by omega) h a ha
  · exact touches_takeT horder _ h a ha

theorem inFree_of_huge {page s : ℕ} (hsize : 4096 < wadd s sizeofHdr) (h : Heap) :
    ∀ a ∈ (mallocT base page s).trace h, a.InFree := by
  have htouches : Traced.Touches Access.InFree (mallocT base page s) := by
    rw [mallocT, if_pos hsize]
    refine .ite (fun _ => .pure 0) fun _ => ?_
    refine .bind (.bind (.modify _) fun _ => .pure _) fun _ => ?_
    exact .bind (.store _ trivial) fun _ => .bind (.store _ trivial) fun _ => .pure _
  exact htouches h

/-- A request of one page with its header is sent to the list of order 13. -/
theorem slot_mem_of_page {page s : ℕ} (hsize : wadd s sizeofHdr = 4096) (hpage : page ≠ 0)
    (h : Heap) : .slot 13 ∈ (mallocT base page s).trace h := by
  have horder : bitLength 4096 = 13 := by decide
  have hne : wadd s sizeofHdr ≠ 0 := by omega
  have hnot : ¬(13 ≥ 13 ∧ page = 0) := fun hc => hpage hc.2
  rw [trace_mallocT_small hsize.le hne, hsize, horder, takeT, findOrder, if_neg hnot,
    if_pos le_rfl, Traced.trace_bind, Traced.trace_bind, takeSplitT, Traced.trace_bind,
    Traced.trace_bind]
  -- no block is split, and the first access is to the list
  refine List.mem_append_right _ (List.mem_append_right _ (List.mem_append_right _
    (List.mem_append_right _ (List.mem_append_left _ List.mem_cons_self))))

theorem trace_eq_nil_of_page {s : ℕ} (hsize : wadd s sizeofHdr = 4096) (h : Heap) :
    (mallocT base 0 s).trace h = [] := by
  have horder : bitLength 4096 = 13 := by decide
  have hne : wadd s sizeofHdr ≠ 0 := by omega
  rw [trace_mallocT_small hsize.le hne, hsize, horder, takeT, findOrder, if_pos ⟨le_rfl, rfl⟩]
  rfl

theorem clzZero_mem {page s : ℕ} (hsize : wadd s sizeofHdr = 0) (h : Heap) :
    .clzZero ∈ (mallocT base page s).trace h := by
  rw [mallocT, hsize, if_neg (by decide), Traced.trace_bind, bitLengthT, if_pos rfl]
  exact List.mem_append_left _ List.mem_cons_self

end accesses

/-! ## Results -/

section results

variable {base page s : ℕ} {h : Heap}

theorem findOrder_eq_iff {m : ℕ → UInt8} {n o : ℕ} : findOrder base m n o = o + n ↔
    ∀ i < o + n, o ≤ i → nextOf m (freeSlot base i) = 0 := by
  induction n generalizing o with
  | zero => exact iff_of_true rfl fun i hi hoi => by omega
  | succ n ih =>
    rw [findOrder]
    by_cases hzero : nextOf m (freeSlot base o) = 0
    · rw [if_pos hzero, show o + (n + 1) = o + 1 + n by omega, ih]
      refine forall₂_congr fun i hi => ⟨fun hrest hoi => ?_, fun hrest hoi => hrest (by omega)⟩
      rcases Nat.eq_or_lt_of_le hoi with rfl | hlt
      · exact hzero
      · exact hrest hlt
    · rw [if_neg hzero]
      exact iff_of_false (by omega) fun hrest => hzero (hrest o (by omega) le_rfl)

theorem bitLength_le {n k : ℕ} (h : n < 2 ^ k) (hk : 0 < k) : bitLength n ≤ k := by
  by_cases hn : n = 0
  · subst hn
    exact hk
  · exact (Nat.log2_lt hn).2 h

/-- When `malloc` returns nothing. -/
theorem malloc_eq_zero_iff : (malloc base page s h).1 = 0 ↔ page = 0 ∧
    (4096 < wadd s sizeofHdr ∨
      ∀ i < 13, bitLength (wadd s sizeofHdr) ≤ i → nextOf h.mem (freeSlot base i) = 0) := by
  rw [malloc]
  by_cases hhuge : wadd s sizeofHdr > 0x1000
  · rw [if_pos hhuge]
    by_cases hpage : page = 0
    · simp only [if_pos hpage]
      exact iff_of_true trivial ⟨hpage, .inl hhuge⟩
    · simp only [if_neg hpage]
      exact iff_of_false (by omega) fun hnull => hpage hnull.1
  rw [if_neg hhuge, or_iff_right (by omega)]
  have horder : bitLength (wadd s sizeofHdr) ≤ 13 := bitLength_le (by omega) (by decide)
  obtain ⟨-, hfind, -⟩ := findOrder_spec base h.mem (13 - bitLength (wadd s sizeofHdr))
    (bitLength (wadd s sizeofHdr))
  have hempty : findOrder base h.mem (13 - bitLength (wadd s sizeofHdr))
      (bitLength (wadd s sizeofHdr)) = _ ↔ _ := findOrder_eq_iff
  generalize bitLength (wadd s sizeofHdr) = order at *
  rw [show order + (13 - order) = 13 by omega] at hfind hempty
  rw [← hempty]
  dsimp only
  by_cases hnull : findOrder base h.mem (13 - order) order ≥ 13 ∧ page = 0
  · rw [if_pos hnull]
    exact iff_of_true rfl ⟨hnull.2, by omega⟩
  · rw [if_neg hnull]
    exact iff_of_false (Nat.succ_ne_zero _) fun hc => hnull ⟨hc.2.ge, hc.1⟩

/-- `ALIGN_UP(n, 12)`. -/
def alignUp (n : ℕ) : ℕ := (n + 4095) % 2 ^ 64 / 4096 * 4096

/-- What `malloc` obtains. -/
theorem malloc_pages : (malloc base page s h).2.pages = h.pages ∨
    page ≠ 0 ∧ ∃ n, (malloc base page s h).2.pages = (page, n) :: h.pages ∧
      (n = 4096 ∨ 4096 < wadd s sizeofHdr ∧ n = alignUp (wadd s sizeofHdr)) := by
  rw [malloc]
  by_cases hhuge : wadd s sizeofHdr > 0x1000
  · rw [if_pos hhuge]
    by_cases hpage : page = 0
    · simp only [if_pos hpage]
      exact .inl trivial
    · simp only [if_neg hpage]
      exact .inr ⟨hpage, _, rfl, .inr ⟨hhuge, rfl⟩⟩
  rw [if_neg hhuge]
  dsimp only
  generalize findOrder base h.mem (13 - bitLength (wadd s sizeofHdr))
    (bitLength (wadd s sizeofHdr)) = xorder
  by_cases hnull : xorder ≥ 13 ∧ page = 0
  · rw [if_pos hnull]
    exact .inl rfl
  rw [if_neg hnull]
  by_cases hlist : xorder ≥ 13
  · simp only [if_pos hlist]
    exact .inr ⟨fun hpage => hnull ⟨hlist, hpage⟩, _, rfl, .inl rfl⟩
  · simp only [if_neg hlist]
    exact .inl trivial

/-- An area was obtained, so `sendpage` has not failed. -/
theorem page_ne_zero (hne : (malloc base page s h).2.pages ≠ h.pages) : page ≠ 0 :=
  (malloc_pages.resolve_left hne).1

/-- No more room than a page, or what was obtained. -/
theorem HasRoom.le {ptr : ℕ} (hroom : HasRoom base s h (malloc base page s h).2 ptr) :
    sizeofHdr + s ≤ 4096 ∨
      4096 < wadd s sizeofHdr ∧ sizeofHdr + s ≤ alignUp (wadd s sizeofHdr) := by
  rcases hroom with ⟨ord, ls, x, k, hb, hbusy, -, hle⟩ | ⟨x, n, hpages, -, -, -, hle⟩
  · have hk := dvd_page (hb.blocks.order x k hbusy.1).2
    exact .inl (hle.trans (Nat.le_of_dvd (by decide) hk))
  · have hmalloc : (malloc base page s h).2.pages = h.pages ∨ page ≠ 0 ∧ _ := malloc_pages
    rcases hmalloc with hsame | ⟨-, n', hnew, hn'⟩
    · rw [hsame] at hpages
      exact absurd hpages.symm (List.cons_ne_self _ _)
    · rw [hnew] at hpages
      injection hpages with hhead _
      injection hhead with _ hn
      subst hn
      rcases hn' with rfl | ⟨hhuge, rfl⟩
      · exact .inl hle
      · exact .inr ⟨hhuge, hle⟩

/-- A huge request is rounded up to pages, and its header says so. -/
theorem hasRoom_huge (hsize : 4096 < wadd s sizeofHdr) (hpage : page ≠ 0)
    (hle : sizeofHdr + s ≤ alignUp (wadd s sizeofHdr)) :
    HasRoom base s h (malloc base page s h).2 (malloc base page s h).1 := by
  rw [malloc, if_pos hsize]
  simp only [if_neg hpage]
  have halign : alignUp (wadd s sizeofHdr) < 2 ^ 64 := by
    rw [alignUp]
    omega
  refine .inr ⟨page, alignUp (wadd s sizeofHdr), rfl, ?_, readWord_writeWord _ _ halign, rfl, hle⟩
  exact (writeWord_apply _ _ (by omega)).trans (Function.update_self _ _ _)

/-- The pages for blocks after a call that may obtain one. -/
theorem Obtains.buddyPages_eq {h' : Heap} {pages' : List (ℕ × ℕ)}
    (hobtains : Obtains page h.pages (buddyPages h) h'.pages pages') : buddyPages h' = pages' := by
  rcases hobtains with ⟨hall, rfl⟩ | ⟨hall, rfl⟩ <;> rw [buddyPages, hall]
  · rfl
  · rfl

/-- A small request gets a block of its order. -/
theorem hasRoom_small (hw : WellFormed base h) (hsize : s + sizeofHdr ≤ 4095)
    (hfresh : page ≠ 0 → Fresh base (buddyPages h) page) :
    (malloc base page s h).1 = 0 ∨
      HasRoom base s h (malloc base page s h).2 (malloc base page s h).1 := by
  obtain ⟨ord, ls, hb⟩ := hw
  have hnew (hne : (malloc base page s h).2.pages ≠ h.pages) : Fresh base (buddyPages h) page :=
    hfresh (page_ne_zero hne)
  rcases hb.mallocBlock hsize hnew with
    hnull | ⟨x, pages', ord', ls', hret, hobtains, -, hb', -, hbusy⟩
  · exact .inl (by rw [hnull])
  · have hpages := hobtains.buddyPages_eq
    have hlt := (bitLength_le_page (n := s + 24) (by omega) hsize).2.2
    refine .inr (.inl ⟨ord', ls', x, _, hpages ▸ hb', (hbusy x _).2 (.inl ⟨rfl, rfl⟩), hret, ?_⟩)
    rw [sizeofHdr]
    omega

/-- **The requests that `malloc` gets right.** -/
theorem meets_iff (hw : WellFormed base h) (hs : s < 2 ^ 64)
    (hfresh : page ≠ 0 → Fresh base (buddyPages h) page) :
    Meets base page s h ↔ SizeFits base page s h := by
  have hnull : (malloc base page s h).1 = 0 ↔ _ := malloc_eq_zero_iff
  have hle {ptr : ℕ} (hroom : HasRoom base s h (malloc base page s h).2 ptr) := hroom.le
  have hsum : wadd s sizeofHdr = s + 24 ∨ wadd s sizeofHdr + 2 ^ 64 = s + 24 := by
    rw [wadd, sizeofHdr]
    omega
  have hhdr : sizeofHdr = 24 := rfl
  rw [SizeFits]
  rcases Nat.lt_trichotomy (wadd s sizeofHdr) 4096 with hsmall | hpage | hhuge
  · rcases hsum with hsum | hwrap
    · refine iff_of_true ⟨inFree_of_small (by omega) (by omega) h, ?_⟩ (.inl (by omega))
      exact hasRoom_small hw (by omega) hfresh
    -- the sum wraps around, and no block is large enough
    constructor
    · intro hmeets
      have hne : wadd s sizeofHdr ≠ 0 := fun hzero => hmeets.accesses _ (clzZero_mem hzero h)
      have hret := hmeets.room.resolve_right fun hroom => by
        have hroom := hle hroom
        omega
      obtain ⟨hp, hempty⟩ := hnull.1 hret
      exact .inr ⟨hne, hp, hempty⟩
    · rintro (hbound | ⟨hne, hp, hempty⟩)
      · omega
      · exact ⟨inFree_of_small (by omega) hne h, .inl (hnull.2 ⟨hp, hempty⟩)⟩
  · by_cases hp : page = 0
    · subst hp
      have hempty : ∀ i < 13, bitLength 4096 ≤ i → nextOf h.mem (freeSlot base i) = 0 := by
        have horder : bitLength 4096 = 13 := by decide
        intro i hi hle
        omega
      rw [hpage] at hnull ⊢
      refine iff_of_true ⟨?_, .inl (hnull.2 ⟨rfl, .inr hempty⟩)⟩
        (.inr ⟨by decide, rfl, .inr hempty⟩)
      rw [trace_eq_nil_of_page hpage]
      exact fun a ha => nomatch ha
    · refine iff_of_false (fun hmeets => ?_) ?_
      · exact absurd (hmeets.accesses _ (slot_mem_of_page hpage hp h)) (lt_irrefl 13)
      · rintro (hbound | ⟨-, hzero, -⟩)
        · omega
        · exact hp hzero
  · have hsum : wadd s sizeofHdr = s + 24 := by omega
    by_cases hp : page = 0
    · exact iff_of_true ⟨inFree_of_huge hhuge h, .inl (hnull.2 ⟨hp, .inl hhuge⟩)⟩
        (.inr ⟨by omega, hp, .inl hhuge⟩)
    have halign : sizeofHdr + s ≤ alignUp (wadd s sizeofHdr) ↔ s + sizeofHdr ≤ 2 ^ 64 - 4096 := by
      rw [hsum, alignUp]
      omega
    constructor
    · intro hmeets
      have hroom := hle (hmeets.room.resolve_left fun hret => hp (hnull.1 hret).1)
      exact .inl ⟨halign.1 (hroom.resolve_left (by omega)).2, by omega⟩
    · rintro (⟨hbound, -⟩ | ⟨-, hzero, -⟩)
      · exact ⟨inFree_of_huge hhuge h, .inr (hasRoom_huge hhuge hp (halign.2 hbound))⟩
      · exact absurd hzero hp

theorem wellFormed_boot {base : ℕ} (hbase : base + 104 ≤ 2 ^ 64) (mem : ℕ → UInt8) :
    WellFormed base (Client.boot base mem).heap := ⟨_, _, (inv_boot hbase mem).buddies⟩

/-- The first call, for 100 bytes. -/
theorem meets_hundred : Meets 0x600000 0x10000 100 (Client.boot 0x600000 fun _ => 0).heap :=
  (meets_iff (wellFormed_boot (by decide) _) (by decide) fun _ =>
    ⟨by decide, by decide, by decide, fun _ hp => nomatch hp⟩).2 (.inl ⟨by decide, by decide⟩)

/-- The first call, for a page less the header: it takes a block from a list behind the last. -/
theorem not_meets_page :
    ¬Meets 0x600000 0x10000 4072 (Client.boot 0x600000 fun _ => 0).heap := fun hmeets =>
  lt_irrefl 13 (hmeets.accesses _ (slot_mem_of_page (by decide) (by decide) _))

end results

end SadOS.Libc.Malloc
