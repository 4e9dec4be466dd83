import SadOS.Libc.Sizes

/-!
# What `free` touches

`free` looks at the flags of the buddy.  A block of a whole page has its buddy in the next
or the last page, which need not belong to the allocator, and if that is free, too, both
become a block of order 13.

## Main definitions

* `HeaderIn`, `Access.Inside` — accesses to the lists and to headers in pages.
* `FreeInside` — all accesses of `free` are of this kind.
* `FreeFits` — the blocks for which they are.
* `freeInside_iff` — they are for no others.
-/

namespace SadOS.Libc.Malloc

/-- A header in one of the pages. -/
def HeaderIn (pages : List (ℕ × ℕ)) (x : ℕ) : Prop :=
  ∃ p ∈ pages, p.1 ≤ x ∧ x + sizeofHdr ≤ p.1 + p.2

instance (pages : List (ℕ × ℕ)) (x : ℕ) : Decidable (HeaderIn pages x) :=
  inferInstanceAs (Decidable (∃ p ∈ pages, p.1 ≤ x ∧ x + sizeofHdr ≤ p.1 + p.2))

/-- An access to the heads of the lists, or to a header in the pages, where no order above
12 is written. -/
def Access.Inside (base : ℕ) (pages : List (ℕ × ℕ)) : Access → Prop
  | .slot i => i < 13
  | .next x => HeaderIn pages x
  | .prev x => HeaderIn pages x
  | .flags x => HeaderIn pages x
  | .marks x v => HeaderIn pages x ∧ (v &&& ~~~FREE).toNat ≤ 12
  | .cell a => (∃ i < 13, a = freeSlot base i) ∨ HeaderIn pages a
  | .clzZero => False

instance (base : ℕ) (pages : List (ℕ × ℕ)) : (a : Access) → Decidable (a.Inside base pages)
  | .slot i => inferInstanceAs (Decidable (i < 13))
  | .next x | .prev x | .flags x => inferInstanceAs (Decidable (HeaderIn pages x))
  | .marks x v => inferInstanceAs (Decidable (HeaderIn pages x ∧ (v &&& ~~~FREE).toNat ≤ 12))
  | .cell a => inferInstanceAs (Decidable ((∃ i < 13, a = freeSlot base i) ∨ HeaderIn pages a))
  | .clzZero => inferInstanceAs (Decidable False)

/-- `free` stays in the lists and the pages for blocks. -/
def FreeInside (base : ℕ) (h : Heap) (ptr : ℕ) : Prop :=
  ∀ a ∈ (freeT base ptr).trace h, a.Inside base (buddyPages h)

instance (base : ℕ) (h : Heap) (ptr : ℕ) : Decidable (FreeInside base h ptr) :=
  inferInstanceAs (Decidable (∀ a ∈ (freeT base ptr).trace h, a.Inside base (buddyPages h)))

/-- The block is smaller than a page, or its buddy is another page for blocks that is not
free as a whole. -/
def FreeFits (h : Heap) (x k : ℕ) : Prop :=
  k ≤ 11 ∨ (x ^^^ 2 ^ k, 4096) ∈ buddyPages h ∧ flagsOf h.mem (x ^^^ 2 ^ k) ≠ FREE ||| 12

section inside

variable {base x k : ℕ} {h : Heap} {pages : List (ℕ × ℕ)} {ord : ℕ → Option ℕ}
  {ls : Fin 13 → List ℕ} {f : Links} {g : ℕ → UInt8} {i : Fin 13}

theorem headerIn_block {m : ℕ → UInt8} (hb : Buddies base m pages ord ls) (hx : ord x = some k) :
    HeaderIn pages x := by
  obtain ⟨p, hp, hlo, hhi⟩ := hb.blocks.page_of hx
  have hsize := Nat.le_of_dvd (two_pow_pos k) (thirtyTwo_dvd (hb.blocks.order x k hx).1)
  exact ⟨_, hp, hlo, by rw [sizeofHdr]; omega⟩

theorem inside_putPrevIf {n v : ℕ} (hn : n = 0 ∨ HeaderIn pages n) :
    ∀ a ∈ (putPrevIf n v).trace h, a.Inside base pages := by
  intro a ha
  rw [putPrevIf, Traced.trace_ite] at ha
  split at ha
  next hne =>
    rw [List.mem_singleton.1 ha]
    exact hn.resolve_left hne
  next => cases ha

theorem marks_toNat : ∀ i : Fin 13, ((UInt8.ofNat i ||| FREE) &&& ~~~FREE).toNat ≤ 12 := by decide

/-- `insert` stays inside. -/
theorem inside_insertT (hs : Shows base h.mem f g) (hbase : base + 104 ≤ 2 ^ 64)
    (hnode : Node base x) (hx : HeaderIn pages x) (i : Fin 13)
    (hhead : f.next (freeSlot base i) = 0 ∨
      Node base (f.next (freeSlot base i)) ∧ HeaderIn pages (f.next (freeSlot base i))) :
    ∀ a ∈ (insertT base i x).trace h, a.Inside base pages := by
  have hi := i.isLt
  have hslot : freeSlot base i < 2 ^ 64 := by
    unfold freeSlot
    omega
  have hlt : f.next (freeSlot base i) < 2 ^ 64 := by
    rcases hhead with h | h
    · omega
    · exact h.1.lt
  -- the first block of the list is read back from the new header
  have h₁ := (hs.setFlags hnode (UInt8.ofNat i ||| FREE)).setPrev hnode hslot
  have h₂ := (h₁.setNext hnode.cell hlt).setNext (cell_slot hi) hnode.lt
  have hread := h₂.next x hnode.cell
  dsimp only at hread
  rw [Function.update_of_ne (hnode.ne_slot hi), Function.update_self] at hread
  intro a ha
  simp only [insertT, Traced.trace_bind, state_putFlags, state_putPrev, val_getSlot, state_getSlot,
    state_putNext, state_putSlot, val_getNext, state_getNext, List.mem_append] at ha
  rcases ha with ha | ha | ha | ha | ha | ha | ha
  · rw [List.mem_singleton.1 ha]
    exact ⟨hx, marks_toNat i⟩
  · rw [List.mem_singleton.1 ha]
    exact hx
  · rw [List.mem_singleton.1 ha]
    exact hi
  · rw [List.mem_singleton.1 ha]
    exact hx
  · rw [List.mem_singleton.1 ha]
    exact hi
  · rw [List.mem_singleton.1 ha]
    exact hx
  · refine inside_putPrevIf ?_ a ha
    rw [h₁.next _ (cell_slot hi)]
    dsimp only
    rw [hread]
    exact hhead.imp id And.right

/-- The memory without the buddy, as `mergeT` leaves it for `insertT`. -/
def removed (m : ℕ → UInt8) (y : ℕ) : ℕ → UInt8 :=
  setPrevIf (setNext m (prevOf m y) (nextOf m y)) (nextOf (setNext m (prevOf m y) (nextOf m y)) y)
    (prevOf (setNext m (prevOf m y) (nextOf m y)) y)

theorem trace_mergeT (x y : ℕ) : (mergeT base x y).trace h =
    [.prev y, .next y, .cell (prevOf h.mem y), .next y, .prev y] ++
      (putPrevIf (nextOf (setNext h.mem (prevOf h.mem y) (nextOf h.mem y)) y)
        (prevOf (setNext h.mem (prevOf h.mem y) (nextOf h.mem y)) y)).trace
          { h with mem := setNext h.mem (prevOf h.mem y) (nextOf h.mem y) } ++
      .flags x :: (insertT base ((flagsOf (removed h.mem y) x).toNat + 1)
        (if y < x then y else x)).trace { h with mem := removed h.mem y } := by
  rw [mergeT, Traced.trace_bind, val_getPrev, state_getPrev, Traced.trace_bind, val_getNext,
    state_getNext, Traced.trace_bind, state_putCell, Traced.trace_bind, val_getNext, state_getNext,
    Traced.trace_bind, val_getPrev, state_getPrev, Traced.trace_bind, state_putPrevIf]
  dsimp only
  rw [Traced.trace_bind, val_getFlags, state_getFlags, trace_getPrev, trace_getNext, trace_putCell,
    trace_getNext, trace_getPrev, trace_getFlags, removed]
  simp only [List.cons_append, List.nil_append]

theorem slot_mem_insertT (order x : ℕ) : .slot order ∈ (insertT base order x).trace h := by
  rw [insertT, Traced.trace_bind, Traced.trace_bind, Traced.trace_bind]
  exact List.mem_append_right _ (List.mem_append_right _
    (List.mem_append_left _ List.mem_cons_self))

/-- The link of a free block is still there when the block before it skips it. -/
theorem Buddies.next_removed {m : ℕ → UInt8} (hb : Buddies base m pages ord ls) {y : ℕ}
    (hy : y ∈ ls i) : nextOf (setNext m (prevOf m y) (nextOf m y)) y = nextOf m y := by
  have hlinked := hb.lists.linked i
  have hcell : Cell base (prevOf m y) := by
    rcases hlinked.back_mem hy with heq | hmem
    · exact .inr ⟨i, i.isLt, heq⟩
    · exact (hb.node_of_mem hmem).cell
  have hlt : nextOf m y < 2 ^ 64 := by
    rcases hb.node_next hy with heq | hnode
    · have hzero : nextOf m y = 0 := heq
      omega
    · exact hnode.lt
  have hne : prevOf m y ≠ y := hlinked.back_ne (hb.lists.heads i i) (hb.lists.nodup i) hy
  have hread := ((shows_self base m).setNext hcell hlt).next y (hb.node_of_mem hy).cell
  dsimp only at hread
  rw [Function.update_of_ne hne.symm] at hread
  exact hread

/-- A block and its free buddy, smaller than a page, are merged inside. -/
theorem inside_mergeT (hb : Buddies base h.mem pages ord ls) (hk : k ≤ 11) (hx : Busy ord ls x k)
    {y : ℕ} (hi : i.val = k) (hy : y ∈ ls i) :
    ∀ a ∈ (mergeT base x y).trace h, a.Inside base pages := by
  have hxin := headerIn_block hb hx.1
  have hmem {z : ℕ} {j : Fin 13} (hz : z ∈ ls j) : HeaderIn pages z :=
    headerIn_block hb (hb.free j z hz).1
  have hlinked := hb.lists.linked i
  have hback : (∃ j < 13, prevOf h.mem y = freeSlot base j) ∨ HeaderIn pages (prevOf h.mem y) :=
    (hlinked.back_mem hy).imp (fun heq => ⟨i, i.isLt, heq⟩) hmem
  have hnext : nextOf h.mem y = 0 ∨ HeaderIn pages (nextOf h.mem y) :=
    (hlinked.next_mem hy).imp id hmem
  have hs₁ : Shows base (removed h.mem y) ((linksOf h.mem).unlink y) (flagsOf h.mem) :=
    hb.shows_remove hy
  have hflags : flagsOf (removed h.mem y) x = UInt8.ofNat k :=
    (hs₁.flags x (hb.node hx.1)).trans (hb.busy x k hx.1 hx.2)
  have htoNat : (UInt8.ofNat k).toNat = k := flags_toNat ⟨k, by omega⟩
  have hhdr : HeaderIn pages (if y < x then y else x) ∧ Node base (if y < x then y else x) := by
    split
    · exact ⟨hmem hy, hb.node_of_mem hy⟩
    · exact ⟨hxin, hb.node hx.1⟩
  rw [trace_mergeT, hflags, htoNat]
  have hfirst := hb.next_head_unlink hy ⟨k + 1, by omega⟩
  generalize removed h.mem y = m₁ at hs₁
  intro a ha
  simp only [List.mem_append, List.mem_cons, List.not_mem_nil, or_false] at ha
  rcases ha with ((rfl | rfl | rfl | rfl | rfl) | ha) | rfl | ha
  · exact hmem hy
  · exact hmem hy
  · exact hback
  · exact hmem hy
  · exact hmem hy
  · refine inside_putPrevIf ?_ a ha
    rw [hb.next_removed hy]
    exact hnext
  · exact hxin
  · refine inside_insertT (h := { h with mem := m₁ }) hs₁ hb.blocks.base hhdr.2 hhdr.1
      ⟨k + 1, by omega⟩ ?_ a ha
    exact hfirst.imp id fun hz => ⟨hb.node_of_mem hz, hmem hz⟩

/-- The accesses of `free` to a busy block. -/
theorem trace_freeT (hb : Buddies base h.mem pages ord ls) (hx : Busy ord ls x k) :
    (freeT base (x + sizeofHdr)).trace h = .flags x :: .flags (x ^^^ 2 ^ k) ::
      if flagsOf h.mem (x ^^^ 2 ^ k) = FREE ||| UInt8.ofNat k then
        (mergeT base x (x ^^^ 2 ^ k)).trace h
      else (insertT base k x).trace h := by
  have hnode := hb.node hx.1
  have hsub : wsub (x + sizeofHdr) sizeofHdr = x := by
    have := hnode.lt
    unfold wsub sizeofHdr
    omega
  have hflags := hb.busy x k hx.1 hx.2
  have hk : k < 13 := Nat.lt_succ_of_le (hb.blocks.order x k hx.1).2
  have htoNat : (UInt8.ofNat k).toNat = k := flags_toNat ⟨k, hk⟩
  have hhuge : UInt8.ofNat k &&& HUGE = 0 := flags_and_huge ⟨k, hk⟩
  have hptr : x + sizeofHdr ≠ 0 := Nat.succ_ne_zero _
  rw [freeT, if_neg hptr, hsub]
  dsimp only
  rw [Traced.trace_bind, val_getFlags, state_getFlags, hflags, if_neg (not_not.2 hhuge), htoNat,
    if_neg (by omega), Traced.trace_bind, val_getFlags, state_getFlags, Traced.trace_ite]
  rfl

/-- The beginning of a page for blocks, where a free block of a whole page begins. -/
theorem Buddies.mem_of_page {m : ℕ → UInt8} (hb : Buddies base m pages ord ls) {y : ℕ}
    (hy : (y, 4096) ∈ pages) (hflags : flagsOf m y = FREE ||| 12) : y ∈ ls 12 := by
  obtain ⟨-, haligned, -⟩ := hb.blocks.pages _ hy
  dsimp only at haligned
  obtain ⟨z, j, hz, hlo, hhi⟩ :=
    (hb.blocks.tiles.covers y).1 ⟨_, hy, le_refl y, by dsimp only; omega⟩
  have hdvd : 2 ^ j ∣ y :=
    (dvd_page (hb.blocks.order z j hz).2).trans (Nat.dvd_of_mod_eq_zero haligned)
  -- the block of the first byte begins there
  have hzy : z = y := by
    by_contra hne
    have := add_le_of_dvd (hb.blocks.tiles.aligned z j hz) hdvd (by omega)
    omega
  exact hb.mem_of_flags (hzy ▸ hz) hflags

/-- A header at the beginning of a page is in this page. -/
theorem HeaderIn.page {m : ℕ → UInt8} (hb : Buddies base m pages ord ls) {y : ℕ}
    (hy : HeaderIn pages y) (haligned : 4096 ∣ y) : (y, 4096) ∈ pages := by
  obtain ⟨⟨p, n⟩, hp, hlo, hhi⟩ := hy
  obtain ⟨hn, hpage, -⟩ := hb.blocks.pages _ hp
  dsimp only at hlo hhi hn hpage
  subst hn
  have hpy : p = y := by
    by_contra hne
    have := add_le_of_dvd (Nat.dvd_of_mod_eq_zero hpage) haligned (by omega)
    rw [sizeofHdr] at hhi
    omega
  exact hpy ▸ hp

/-- The buddy of a whole page begins a page. -/
theorem dvd_buddy {x : ℕ} (hx : 2 ^ k ∣ x) : 2 ^ k ∣ x ^^^ 2 ^ k := by
  have htwo : 2 ^ k ∣ 2 ^ (k + 1) := Nat.pow_dvd_pow 2 (Nat.le_succ k)
  rcases xor_two_pow hx with ⟨-, hbud⟩ | ⟨hdvd, -⟩
  · rw [hbud]
    exact Nat.dvd_add hx (dvd_refl _)
  · exact htwo.trans hdvd

/-- Two free pages are put on the list of order 13, which does not exist. -/
theorem slot_mem_mergeT (hb : Buddies base h.mem pages ord ls) (hx : Busy ord ls x 12) {y : ℕ}
    (hy : y ∈ ls 12) : .slot 13 ∈ (mergeT base x y).trace h := by
  have hs₁ : Shows base (removed h.mem y) ((linksOf h.mem).unlink y) (flagsOf h.mem) :=
    hb.shows_remove hy
  have hflags : flagsOf (removed h.mem y) x = 12 :=
    (hs₁.flags x (hb.node hx.1)).trans (hb.busy x 12 hx.1 hx.2)
  rw [trace_mergeT, hflags]
  exact List.mem_append_right _ (List.mem_cons_of_mem _ (slot_mem_insertT 13 _))

/-- `free` puts a block on the list of its order inside. -/
theorem inside_insertT_self (hb : Buddies base h.mem pages ord ls) (hx : Busy ord ls x i) :
    ∀ a ∈ (insertT base i x).trace h, a.Inside base pages := by
  refine inside_insertT (shows_self base h.mem) hb.blocks.base (hb.node hx.1)
    (headerIn_block hb hx.1) i ?_
  exact (hb.next_head i).imp id fun hz =>
    ⟨hb.node_of_mem hz, headerIn_block hb (hb.free i _ hz).1⟩

/-- Blocks smaller than a page are freed inside. -/
theorem freeInside_of_le (hb : Buddies base h.mem (buddyPages h) ord ls) (hx : Busy ord ls x k)
    (hk : k ≤ 11) : FreeInside base h (x + sizeofHdr) := by
  obtain ⟨j, -, hj⟩ := hb.blocks.buddy hx.1 hk
  have hfin : k < 13 := by omega
  rw [FreeInside, trace_freeT hb hx, List.forall_mem_cons, List.forall_mem_cons]
  refine ⟨headerIn_block hb hx.1, headerIn_block hb hj, ?_⟩
  split
  next hfree =>
    exact inside_mergeT (i := ⟨k, hfin⟩) hb hk hx rfl ((hb.flags_buddy hx hk rfl).1 hfree)
  next => exact inside_insertT_self (i := ⟨k, hfin⟩) hb hx

/-- A whole page is freed inside when its neighbour is a page for blocks, not free as a
whole. -/
theorem freeInside_page_iff (hb : Buddies base h.mem (buddyPages h) ord ls)
    (hx : Busy ord ls x 12) : FreeInside base h (x + sizeofHdr) ↔
      (x ^^^ 2 ^ 12, 4096) ∈ buddyPages h ∧ flagsOf h.mem (x ^^^ 2 ^ 12) ≠ FREE ||| 12 := by
  have hdvd := dvd_buddy (hb.blocks.tiles.aligned x 12 hx.1)
  have htrace := trace_freeT hb hx
  generalize x ^^^ 2 ^ 12 = y at *
  rw [FreeInside, htrace, List.forall_mem_cons, List.forall_mem_cons]
  constructor
  · rintro ⟨-, hbuddy, hrest⟩
    have hpage := HeaderIn.page hb hbuddy hdvd
    refine ⟨hpage, fun hflags => ?_⟩
    have hfree : flagsOf h.mem y = FREE ||| UInt8.ofNat 12 := hflags
    rw [if_pos hfree] at hrest
    have hslot : 13 < 13 := hrest _ (slot_mem_mergeT hb hx (hb.mem_of_page hpage hflags))
    exact absurd hslot (lt_irrefl 13)
  · rintro ⟨hpage, hflags⟩
    have hfree : ¬flagsOf h.mem y = FREE ||| UInt8.ofNat 12 := hflags
    rw [if_neg hfree]
    exact ⟨headerIn_block hb hx.1, ⟨_, hpage, le_refl _, by rw [sizeofHdr]; omega⟩,
      inside_insertT_self (i := 12) hb hx⟩

/-- **The blocks that `free` handles inside.** -/
theorem freeInside_iff (hb : Buddies base h.mem (buddyPages h) ord ls) (hx : Busy ord ls x k) :
    FreeInside base h (x + sizeofHdr) ↔ FreeFits h x k := by
  rcases Nat.lt_or_eq_of_le (hb.blocks.order x k hx.1).2 with hlt | rfl
  · have hk : k ≤ 11 := Nat.le_of_lt_succ hlt
    exact iff_of_true (freeInside_of_le hb hx hk) (.inl hk)
  · rw [freeInside_page_iff hb hx, FreeFits, or_iff_right (by decide)]

end inside

end SadOS.Libc.Malloc
