import SadOS.Libc.Headers
import SadOS.Lib.Coalesced
import SadOS.Lib.Outcome

/-!
# The buddy allocator

The blocks of `malloc.c` tile the pages that it has obtained.  Those on the free lists are
the free ones.  `free` reads the flags of a buddy where a block begins, for the buddy lies
in the same page, so it never takes other bytes for a header.

## Main definitions

* `Buddies` — the invariant of the memory.
* `Client` — the allocator and the blocks that are in use, with the steps `MallocOp`.
* `Sound` — what a client relies on.
* `sound_run` — it holds in every run.
-/

namespace SadOS.Libc.Malloc

/-! ## The invariant -/

/-- The addresses of the pages. -/
def InPages (pages : List (ℕ × ℕ)) (a : ℕ) : Prop := ∃ p ∈ pages, p.1 ≤ a ∧ a < p.1 + p.2

/-- The heads of the lists. -/
def heads (base : ℕ) (i : Fin 13) : ℕ := freeSlot base i

/-- The blocks `ord` tile the pages. -/
structure Blocks (base : ℕ) (pages : List (ℕ × ℕ)) (ord : ℕ → Option ℕ) : Prop where
  tiles : Tiling (InPages pages) ord
  order : ∀ x k, ord x = some k → 5 ≤ k ∧ k ≤ 12
  pages : ∀ p ∈ pages, p.2 = 4096 ∧ p.1 % 4096 = 0 ∧ p.1 ≠ 0 ∧ p.1 + 4096 ≤ 2 ^ 64 ∧
    (p.1 + 4096 ≤ base ∨ base + 104 ≤ p.1)
  base : base + 104 ≤ 2 ^ 64

/-- The lists `ls` have the free blocks; the flags of a block are its order. -/
structure Buddies (base : ℕ) (m : ℕ → UInt8) (pages : List (ℕ × ℕ)) (ord : ℕ → Option ℕ)
    (ls : Fin 13 → List ℕ) : Prop where
  blocks : Blocks base pages ord
  lists : Lists (linksOf m) (heads base) ls
  free : ∀ i, ∀ x ∈ ls i, ord x = some i.val ∧ flagsOf m x = UInt8.ofNat i ||| FREE
  busy : ∀ x k, ord x = some k → (∀ i, x ∉ ls i) → flagsOf m x = UInt8.ofNat k

/-- A block that is on no list. -/
def Busy (ord : ℕ → Option ℕ) (ls : Fin 13 → List ℕ) (x k : ℕ) : Prop :=
  ord x = some k ∧ ∀ i, x ∉ ls i

/-- A block on the list of its order. -/
def FreeAt (ls : Fin 13 → List ℕ) (k x : ℕ) : Prop := ∃ i : Fin 13, i.val = k ∧ x ∈ ls i

/-- The headers of other areas keep their length and their flags. -/
def Keeps (base : ℕ) (pages : List (ℕ × ℕ)) (m m' : ℕ → UInt8) : Prop :=
  ∀ y, Node base y → ¬InPages pages y → nextOf m' y = nextOf m y ∧ flagsOf m' y = flagsOf m y

theorem flags_ne_free : ∀ j k : Fin 13, UInt8.ofNat j ≠ FREE ||| UInt8.ofNat k := by decide

theorem free_flags_inj :
    ∀ j k : Fin 13, UInt8.ofNat j ||| FREE = FREE ||| UInt8.ofNat k → j = k := by
  decide

theorem flags_and_huge : ∀ k : Fin 13, UInt8.ofNat k &&& HUGE = 0 := by decide

theorem flags_and_free : ∀ k : Fin 13, (UInt8.ofNat k ||| FREE) &&& ~~~FREE = UInt8.ofNat k := by
  decide

theorem flags_toNat : ∀ k : Fin 13, (UInt8.ofNat k).toNat = k := by decide

theorem thirtyTwo_dvd {k : ℕ} (hk : 5 ≤ k) : 32 ∣ 2 ^ k := Nat.pow_dvd_pow 2 hk

theorem dvd_page {k : ℕ} (hk : k ≤ 12) : 2 ^ k ∣ 4096 := Nat.pow_dvd_pow 2 hk

section FreeAt

variable {ls ls' : Fin 13 → List ℕ} {i : Fin 13} {x y k : ℕ}

@[simp] theorem freeAt_val : FreeAt ls i x ↔ x ∈ ls i := by
  constructor
  · rintro ⟨j, hj, hx⟩
    rwa [← Fin.ext hj]
  · exact fun hx => ⟨i, rfl, hx⟩

/-- A block is put on a list. -/
theorem freeAt_insert (h : ∀ y j, y ∈ ls' j ↔ (y = x ∧ j = i) ∨ y ∈ ls j) (j y : ℕ) :
    FreeAt ls' j y ↔ (y = x ∧ j = i) ∨ FreeAt ls j y := by
  constructor
  · rintro ⟨j, rfl, hy⟩
    rcases (h y j).1 hy with ⟨rfl, rfl⟩ | hy
    · exact .inl ⟨rfl, rfl⟩
    · exact .inr ⟨j, rfl, hy⟩
  · rintro (⟨rfl, rfl⟩ | ⟨j, rfl, hy⟩)
    · exact ⟨i, rfl, (h _ i).2 (.inl ⟨rfl, rfl⟩)⟩
    · exact ⟨j, rfl, (h y j).2 (.inr hy)⟩

/-- The halves of a block are put on a list. -/
theorem freeAt_halves {x₂ : ℕ}
    (h : ∀ y j, y ∈ ls' j ↔ ((y = x ∨ y = x₂) ∧ j = i) ∨ (y ≠ x ∧ y ∈ ls j)) (j y : ℕ) :
    FreeAt ls' j y ↔ ((y = x ∨ y = x₂) ∧ j = i) ∨ (y ≠ x ∧ FreeAt ls j y) := by
  constructor
  · rintro ⟨j, rfl, hy⟩
    rcases (h y j).1 hy with ⟨hyx, rfl⟩ | ⟨hyx, hy⟩
    · exact .inl ⟨hyx, rfl⟩
    · exact .inr ⟨hyx, j, rfl, hy⟩
  · rintro (⟨hyx, rfl⟩ | ⟨hyx, j, rfl, hy⟩)
    · exact ⟨i, rfl, (h y i).2 (.inl ⟨hyx, rfl⟩)⟩
    · exact ⟨j, rfl, (h y j).2 (.inr ⟨hyx, hy⟩)⟩

/-- A block is taken out of its list. -/
theorem freeAt_remove (h : ∀ y j, y ∈ ls' j ↔ y ≠ x ∧ y ∈ ls j) (j y : ℕ) :
    FreeAt ls' j y ↔ y ≠ x ∧ FreeAt ls j y := by
  constructor
  · rintro ⟨j, rfl, hy⟩
    obtain ⟨hyx, hy⟩ := (h y j).1 hy
    exact ⟨hyx, j, rfl, hy⟩
  · rintro ⟨hyx, j, rfl, hy⟩
    exact ⟨j, rfl, (h y j).2 ⟨hyx, hy⟩⟩

end FreeAt

namespace Blocks

variable {base : ℕ} {pages : List (ℕ × ℕ)} {ord : ℕ → Option ℕ} {x k : ℕ}

/-- The page of a block. -/
theorem page_of (h : Blocks base pages ord) (hx : ord x = some k) :
    ∃ p, (p, 4096) ∈ pages ∧ p ≤ x ∧ x + 2 ^ k ≤ p + 4096 := by
  obtain ⟨⟨p, n⟩, hp, hlo, hhi⟩ := (h.tiles.covers x).2
    ⟨x, k, hx, le_refl x, Nat.lt_add_of_pos_right (two_pow_pos k)⟩
  obtain ⟨hn, haligned, -⟩ := h.pages _ hp
  dsimp only at hlo hhi hn haligned
  subst hn
  refine ⟨p, hp, hlo, ?_⟩
  have hk := dvd_page (h.order x k hx).2
  exact add_le_of_dvd (h.tiles.aligned x k hx)
    ((Nat.dvd_add_right (hk.trans (Nat.dvd_of_mod_eq_zero haligned))).2 hk) hhi

theorem inPages (h : Blocks base pages ord) (hx : ord x = some k) : InPages pages x := by
  obtain ⟨p, hp, hlo, hhi⟩ := h.page_of hx
  have hpos := two_pow_pos k
  exact ⟨_, hp, hlo, by dsimp only; omega⟩

/-- A block has a header. -/
theorem node (h : Blocks base pages ord) (hx : ord x = some k) : Node base x := by
  obtain ⟨p, hp, hlo, hhi⟩ := h.page_of hx
  obtain ⟨-, -, hp0, hlt, hbase⟩ := h.pages _ hp
  dsimp only at hp0 hlt hbase
  have h32 := (thirtyTwo_dvd (h.order x k hx).1).trans (h.tiles.aligned x k hx)
  have hsize := Nat.le_of_dvd (two_pow_pos k) (thirtyTwo_dvd (h.order x k hx).1)
  exact ⟨Nat.mod_eq_zero_of_dvd h32, by omega, by omega, by omega⟩

/-- The second half of a block is no block. -/
theorem half_eq_none (h : Blocks base pages ord) (hx : ord x = some (k + 1)) :
    ord (x + 2 ^ k) = none := by
  rw [Option.eq_none_iff_forall_ne_some]
  intro j hj
  have hk := two_pow_pos k
  have hpj := two_pow_pos j
  have := h.tiles.apart x (x + 2 ^ k) (k + 1) j hx hj (by omega)
  rw [pow_succ] at this
  omega

theorem split (h : Blocks base pages ord) (hx : ord x = some (k + 1)) (hk : 5 ≤ k) :
    Blocks base pages (Function.update (Function.update ord x (some k)) (x + 2 ^ k) (some k)) := by
  refine ⟨h.tiles.split hx, fun y j hy => ?_, h.pages, h.base⟩
  have := (h.order x (k + 1) hx).2
  simp only [Function.update_apply] at hy
  split_ifs at hy
  · cases hy
    omega
  · cases hy
    omega
  · exact h.order y j hy

/-- The buddy of a block smaller than a page is in the same page. -/
theorem buddy (h : Blocks base pages ord) (hx : ord x = some k) (hk : k ≤ 11) :
    ∃ j ≤ k, ord (x ^^^ 2 ^ k) = some j := by
  refine h.tiles.buddy hx ?_
  obtain ⟨p, hp, hlo, hhi⟩ := h.page_of hx
  obtain ⟨-, haligned, -⟩ := h.pages _ hp
  have hpage : 2 ^ (k + 1) ∣ p :=
    (dvd_page (by omega)).trans (Nat.dvd_of_mod_eq_zero haligned)
  have hpos := two_pow_pos k
  have htwo : 2 ^ (k + 1) = 2 ^ k + 2 ^ k := by rw [pow_succ]; omega
  refine ⟨(p, 4096), hp, ?_⟩
  dsimp only
  rcases xor_two_pow (h.tiles.aligned x k hx) with ⟨hdvd, hbud⟩ | ⟨hdvd, hbud⟩
  · have := add_le_of_dvd hdvd ((Nat.dvd_add_right hpage).2 (dvd_page (by omega))) (by omega)
    omega
  · refine ⟨?_, by omega⟩
    by_contra hlt
    have := add_le_of_dvd hdvd hpage (by omega)
    omega

/-- A block and its buddy become one. -/
theorem merge (h : Blocks base pages ord) (hx : ord x = some k) (hbud : ord (x ^^^ 2 ^ k) = some k)
    (hk : k ≤ 11) {lo hi : ℕ} (hlo : lo = min x (x ^^^ 2 ^ k)) (hhi : hi = max x (x ^^^ 2 ^ k)) :
    Blocks base pages (Function.update (Function.update ord hi none) lo (some (k + 1))) := by
  have hpos := two_pow_pos k
  obtain ⟨hdvd, hlo', hhi', heq⟩ : 2 ^ (k + 1) ∣ lo ∧ ord lo = some k ∧ ord (lo + 2 ^ k) = some k ∧
      hi = lo + 2 ^ k := by
    rcases xor_two_pow (h.tiles.aligned x k hx) with ⟨hdvd, hx'⟩ | ⟨hdvd, hx'⟩
    · have hlo' : lo = x := by omega
      have hhi' : hi = x + 2 ^ k := by omega
      rw [hlo', hhi', ← hx']
      exact ⟨hdvd, hx, hbud, rfl⟩
    · have hlo' : lo = x ^^^ 2 ^ k := by omega
      have hhi' : hi = x := by omega
      rw [hlo', hhi', ← hx']
      exact ⟨hdvd, hbud, hx, rfl⟩
  rw [heq]
  refine ⟨h.tiles.merge hlo' hhi' hdvd, fun y j hy => ?_, h.pages, h.base⟩
  have := (h.order x k hx).1
  simp only [Function.update_apply] at hy
  split_ifs at hy
  · cases hy
    omega
  · exact h.order y j hy

/-- A new page is one block. -/
theorem add (h : Blocks base pages ord) {page : ℕ} (haligned : page % 4096 = 0) (hpos : page ≠ 0)
    (hlt : page + 4096 ≤ 2 ^ 64) (hbase : page + 4096 ≤ base ∨ base + 104 ≤ page)
    (hfresh : ∀ p ∈ pages, page + 4096 ≤ p.1 ∨ p.1 + p.2 ≤ page) :
    Blocks base ((page, 4096) :: pages) (Function.update ord page (some 12)) := by
  have hadd := h.tiles.add (x := page) (k := 12) (Nat.dvd_of_mod_eq_zero haligned) ?_
  · refine ⟨⟨hadd.aligned, hadd.apart, fun a => (?_ : _ ↔ _).trans (hadd.covers a)⟩,
      fun y j hy => ?_, ?_, h.base⟩
    · simp [InPages]
    · rw [Function.update_apply] at hy
      split_ifs at hy
      · cases hy
        omega
      · exact h.order y j hy
    · rintro p hp
      rcases List.mem_cons.1 hp with rfl | hp
      · exact ⟨rfl, haligned, hpos, hlt, hbase⟩
      · exact h.pages p hp
  · rintro a hlo hhi ⟨p, hp, hlo', hhi'⟩
    have := hfresh p hp
    norm_num at hhi
    omega

end Blocks

namespace Keeps

variable {base : ℕ} {pages : List (ℕ × ℕ)} {m m' m'' : ℕ → UInt8}

theorem refl (base : ℕ) (pages : List (ℕ × ℕ)) (m : ℕ → UInt8) : Keeps base pages m m :=
  fun _ _ _ => ⟨rfl, rfl⟩

theorem trans (h : Keeps base pages m m') (h' : Keeps base pages m' m'') :
    Keeps base pages m m'' := by
  intro y hy hout
  obtain ⟨hnext, hflags⟩ := h y hy hout
  obtain ⟨hnext', hflags'⟩ := h' y hy hout
  exact ⟨hnext'.trans hnext, hflags'.trans hflags⟩

/-- Only the nodes of the pages have other links and flags. -/
theorem of_shows {f : Links} {g : ℕ → UInt8} (hs : Shows base m' f g)
    (hnext : ∀ y, Node base y → ¬InPages pages y → f.next y = nextOf m y)
    (hflags : ∀ y, Node base y → ¬InPages pages y → g y = flagsOf m y) : Keeps base pages m m' :=
  fun y hy hout => ⟨(hs.next y hy.cell).trans (hnext y hy hout),
    (hs.flags y hy).trans (hflags y hy hout)⟩

end Keeps

namespace Buddies

variable {base : ℕ} {m : ℕ → UInt8} {pages : List (ℕ × ℕ)} {ord : ℕ → Option ℕ}
  {ls : Fin 13 → List ℕ} {x y k : ℕ} {i : Fin 13}

theorem node (h : Buddies base m pages ord ls) (hx : ord x = some k) : Node base x :=
  h.blocks.node hx

theorem node_of_mem (h : Buddies base m pages ord ls) (hx : x ∈ ls i) : Node base x :=
  h.node (h.free i x hx).1

/-- The head of a list leads to a header or to nothing. -/
theorem next_head (h : Buddies base m pages ord ls) (i : Fin 13) :
    nextOf m (freeSlot base i) = 0 ∨ nextOf m (freeSlot base i) ∈ ls i := by
  have hhead : nextOf m (freeSlot base i) = (ls i).headD 0 := h.lists.next_head i
  rw [hhead]
  cases ls i with
  | nil => exact .inl rfl
  | cons x rest => exact .inr List.mem_cons_self

theorem node_head (h : Buddies base m pages ord ls) (i : Fin 13) :
    (linksOf m).next (freeSlot base i) = 0 ∨ Node base ((linksOf m).next (freeSlot base i)) :=
  (h.next_head i).imp id h.node_of_mem

theorem node_next (h : Buddies base m pages ord ls) (hx : x ∈ ls i) :
    (linksOf m).next x = 0 ∨ Node base ((linksOf m).next x) :=
  ((h.lists.linked i).next_mem hx).imp id h.node_of_mem

/-- The invariant of a memory that shows some links and flags. -/
theorem of_shows {f : Links} {g : ℕ → UInt8} (hb : Blocks base pages ord) (hs : Shows base m f g)
    (hl : Lists f (heads base) ls)
    (hfree : ∀ i, ∀ x ∈ ls i, ord x = some i.val ∧ g x = UInt8.ofNat i ||| FREE)
    (hbusy : ∀ x k, ord x = some k → (∀ i, x ∉ ls i) → g x = UInt8.ofNat k) :
    Buddies base m pages ord ls := by
  have hnode : ∀ i, ∀ x ∈ ls i, Node base x := fun i x hx => hb.node (hfree i x hx).1
  refine ⟨hb, ?_, fun i x hx => ?_, fun x k hx hx' => ?_⟩
  · exact hl.congr (fun i => hs.next _ (cell_slot i.isLt))
      fun i x hx => ⟨hs.next x (hnode i x hx).cell, hs.back x (hnode i x hx)⟩
  · rw [hs.flags x (hnode i x hx)]
    exact hfree i x hx
  · rw [hs.flags x (hb.node hx)]
    exact hbusy x k hx hx'

/-- Only the headers of blocks and the array `_free` matter. -/
theorem frame (h : Buddies base m pages ord ls) {m' : ℕ → UInt8}
    (hblock : ∀ x k, ord x = some k → ∀ j < 24, m' (x + j) = m (x + j))
    (hslot : ∀ j < 104, m' (base + j) = m (base + j)) : Buddies base m' pages ord ls := by
  have hflags : ∀ x k, ord x = some k → flagsOf m' x = flagsOf m x := fun x k hx =>
    hblock x k hx 16 (by decide)
  refine ⟨h.blocks, h.lists.congr (fun i => readWord_congr fun j hj => ?_)
    fun i x hx => ⟨readWord_congr fun j hj => ?_, readWord_congr fun j hj => ?_⟩,
    fun i x hx => ?_, fun x k hx hx' => ?_⟩
  · have := hslot (8 * i.val + j) (by omega)
    rwa [← Nat.add_assoc] at this
  · exact hblock x i (h.free i x hx).1 j (by omega)
  · have := hblock x i (h.free i x hx).1 (8 + j) (by omega)
    rwa [← Nat.add_assoc] at this
  · rw [hflags x i (h.free i x hx).1]
    exact h.free i x hx
  · rw [hflags x k hx]
    exact h.busy x k hx hx'

/-! ## Steps -/

/-- A busy block is put on the list of its order. -/
theorem insert (h : Buddies base m pages ord ls) (hx : Busy ord ls x i.val) :
    ∃ ls', Buddies base (Malloc.insert base i x m) pages ord ls' ∧
      ∀ y j, y ∈ ls' j ↔ (y = x ∧ j = i) ∨ y ∈ ls j := by
  have hnode := h.node hx.1
  obtain ⟨ls', hlists, hmem⟩ := h.lists.exists_push i hnode.2.1 hx.2 fun j => hnode.ne_slot j.isLt
  refine ⟨ls', of_shows h.blocks
    ((shows_self base m).insert h.blocks.base hnode i.isLt (h.node_head i)) hlists
    (fun j y hy => ?_) fun y k hy hy' => ?_, hmem⟩
  · rcases (hmem y j).1 hy with ⟨rfl, rfl⟩ | hy
    · rw [Function.update_self]
      exact ⟨hx.1, rfl⟩
    · have hyx : y ≠ x := fun heq => hx.2 j (heq ▸ hy)
      rw [Function.update_of_ne hyx]
      exact h.free j y hy
  · have hyx : y ≠ x := fun heq => hy' i ((hmem y i).2 (.inl ⟨heq, rfl⟩))
    rw [Function.update_of_ne hyx]
    exact h.busy y k hy fun j hj => hy' j ((hmem y j).2 (.inr hj))

theorem ne_of_not_inPages (h : Buddies base m pages ord ls) (hx : ord x = some k) {y : ℕ}
    (hout : ¬InPages pages y) : y ≠ x := fun heq => hout (heq ▸ h.blocks.inPages hx)

theorem keeps_insert (h : Buddies base m pages ord ls) {pages' : List (ℕ × ℕ)}
    (hnode : Node base x) (hx : InPages pages' x) (i : Fin 13) :
    Keeps base pages' m (Malloc.insert base i x m) := by
  have hne {y : ℕ} (hout : ¬InPages pages' y) : y ≠ x := fun heq => hout (heq ▸ hx)
  refine .of_shows ((shows_self base m).insert h.blocks.base hnode i.isLt (h.node_head i))
    (fun y hy hout => ?_) fun y _ hout => Function.update_of_ne (hne hout) _ _
  simp [Links.push, hy.ne_slot i.isLt, hne hout, linksOf]

/-- The first block of a list becomes busy. -/
theorem takeFirst (h : Buddies base m pages ord ls) {rest : List ℕ} (hx : ls i = x :: rest) :
    (Malloc.takeFirst base i m).1 = x ∧
      ∃ ls', Buddies base (Malloc.takeFirst base i m).2 pages ord ls' ∧
        ∀ y j, y ∈ ls' j ↔ y ≠ x ∧ y ∈ ls j := by
  have hmemx : x ∈ ls i := hx ▸ List.mem_cons_self
  have hnode := h.node_of_mem hmemx
  have hlinked := h.lists.linked i
  rw [hx] at hlinked
  obtain ⟨hret, hs⟩ := (shows_self base m).takeFirst h.blocks.base i.isLt hnode hlinked.1
    hlinked.2.2.1 (h.node_next hmemx)
  obtain ⟨ls', hlists, hmem⟩ := h.lists.exists_unlink hmemx
  refine ⟨hret, ls', of_shows h.blocks hs (hlists.congr (fun j => ?_) fun j y hy => ?_)
    (fun j y hy => ?_) fun y k hy hy' => ?_, hmem⟩
  · exact Function.update_of_ne (hnode.ne_slot j.isLt).symm _ _
  · have hyx := ((hmem y j).1 hy).1
    exact ⟨Function.update_of_ne hyx _ _, Function.update_of_ne hyx _ _⟩
  · obtain ⟨hyx, hy⟩ := (hmem y j).1 hy
    rw [Function.update_of_ne hyx]
    exact h.free j y hy
  · by_cases hyx : y = x
    · subst hyx
      obtain ⟨hord, hflags⟩ := h.free i y hmemx
      rw [hy, Option.some.injEq] at hord
      rw [Function.update_self, hord]
      exact (congrArg (· &&& ~~~FREE) hflags).trans (flags_and_free i)
    · rw [Function.update_of_ne hyx]
      exact h.busy y k hy fun j hj => hy' j ((hmem y j).2 ⟨hyx, hj⟩)

theorem keeps_takeFirst (h : Buddies base m pages ord ls) {rest : List ℕ} (hx : ls i = x :: rest) :
    Keeps base pages m (Malloc.takeFirst base i m).2 := by
  have hmemx : x ∈ ls i := hx ▸ List.mem_cons_self
  have hordx := (h.free i x hmemx).1
  have hlinked := h.lists.linked i
  rw [hx] at hlinked
  obtain ⟨-, hs⟩ := (shows_self base m).takeFirst h.blocks.base i.isLt
    (h.node_of_mem hmemx) hlinked.1
    hlinked.2.2.1 (h.node_next hmemx)
  refine .of_shows hs (fun y hy hout => ?_)
    fun y _ hout => Function.update_of_ne (h.ne_of_not_inPages hordx hout) _ _
  have hback : (linksOf m).back x = freeSlot base i := hlinked.2.2.1
  dsimp only [Links.unlink]
  rw [Function.update_of_ne (h.ne_of_not_inPages hordx hout), hback,
    Function.update_of_ne (hy.ne_slot i.isLt)]
  rfl

/-- A user writes to the payload of a busy block. -/
theorem write (h : Buddies base m pages ord ls) (hx : ord x = some k) {a : ℕ} (hlo : x + 24 ≤ a)
    (hhi : a < x + 2 ^ k) (b : UInt8) : Buddies base (Function.update m a b) pages ord ls := by
  refine h.frame (fun y j hy n hn => Function.update_of_ne ?_ _ _)
    fun n hn => Function.update_of_ne ?_ _ _
  · have hsize := Nat.le_of_dvd (two_pow_pos j) (thirtyTwo_dvd (h.blocks.order y j hy).1)
    by_cases hyx : y = x
    · omega
    · have := h.blocks.tiles.apart y x j k hy hx hyx
      omega
  · obtain ⟨p, hp, hplo, hphi⟩ := h.blocks.page_of hx
    have := (h.blocks.pages _ hp).2.2.2.2
    dsimp only at this
    omega

/-- The invariant does not depend on the bytes of an area that no block meets. -/
theorem zeroPage (h : Buddies base m pages ord ls) {page : ℕ}
    (hbase : page + 4096 ≤ base ∨ base + 104 ≤ page)
    (hfresh : ∀ p ∈ pages, page + 4096 ≤ p.1 ∨ p.1 + p.2 ≤ page) :
    Buddies base (fun a => if page ≤ a ∧ a < page + 4096 then 0 else m a) pages ord ls := by
  refine h.frame (fun y k hy n hn => if_neg ?_) fun n hn => if_neg (by omega)
  obtain ⟨p, hp, hplo, hphi⟩ := h.blocks.page_of hy
  have hsize := Nat.le_of_dvd (two_pow_pos k) (thirtyTwo_dvd (h.blocks.order y k hy).1)
  have := hfresh _ hp
  dsimp only at this
  omega

theorem keeps_zeroPage {page : ℕ} (haligned : page % 4096 = 0) (pages : List (ℕ × ℕ))
    (m : ℕ → UInt8) : Keeps base ((page, 4096) :: pages) m
      fun a => if page ≤ a ∧ a < page + 4096 then 0 else m a := by
  intro y hy hout
  have hy32 := hy.1
  have hpage : y < page ∨ page + 4096 ≤ y := by
    by_contra hin
    exact hout ⟨_, List.mem_cons_self, by dsimp only; omega, by dsimp only; omega⟩
  exact ⟨readWord_congr fun j hj => if_neg (by omega), if_neg (by omega)⟩

/-- A new page is put on the last list. -/
theorem addPage (h : Buddies base m pages ord ls) {page : ℕ} (haligned : page % 4096 = 0)
    (hpos : page ≠ 0) (hlt : page + 4096 ≤ 2 ^ 64)
    (hbase : page + 4096 ≤ base ∨ base + 104 ≤ page)
    (hfresh : ∀ p ∈ pages, page + 4096 ≤ p.1 ∨ p.1 + p.2 ≤ page) :
    ∃ ls', Buddies base (Malloc.insert base 12 page m) ((page, 4096) :: pages)
      (Function.update ord page (some 12)) ls' ∧ (∃ rest, ls' 12 = page :: rest) ∧
        (∀ y j, Busy (Function.update ord page (some 12)) ls' y j ↔ Busy ord ls y j) ∧
        ∀ y j, y ∈ ls' j ↔ (y = page ∧ j = 12) ∨ y ∈ ls j := by
  have hblocks := h.blocks.add haligned hpos hlt hbase hfresh
  have hnode : Node base page := hblocks.node (Function.update_self _ _ _)
  have hnone : ∀ y k, ord y = some k → y ≠ page := by
    rintro y k hy rfl
    obtain ⟨p, hp, hplo, hphi⟩ := h.blocks.page_of hy
    have := hfresh _ hp
    have hpk := two_pow_pos k
    dsimp only at this
    omega
  have hnot : ∀ j, page ∉ ls j := fun j hj => hnone page j (h.free j page hj).1 rfl
  obtain ⟨ls', hlists, hmem⟩ := h.lists.exists_push 12 hnode.2.1 hnot fun j => hnode.ne_slot j.isLt
  have hout : ∀ y, (∀ j, y ∉ ls' j) ↔ y ≠ page ∧ ∀ j, y ∉ ls j := by
    intro y
    simp only [hmem]
    constructor
    · exact fun hy => ⟨fun heq => hy 12 (.inl ⟨heq, rfl⟩), fun j hj => hy j (.inr hj)⟩
    · rintro ⟨hyp, hy⟩ j (⟨heq, -⟩ | hj)
      · exact hyp heq
      · exact hy j hj
  refine ⟨ls', of_shows hblocks
    ((shows_self base m).insert h.blocks.base hnode (by decide) (h.node_head 12)) hlists
    (fun j y hy => ?_) (fun y k hy hy' => ?_), ?_, fun y j => ?_, hmem⟩
  · rcases (hmem y j).1 hy with ⟨rfl, rfl⟩ | hy
    · exact ⟨Function.update_self _ _ _, Function.update_self _ _ _⟩
    · have hyp : y ≠ page := fun heq => hnot j (heq ▸ hy)
      rw [Function.update_of_ne hyp, Function.update_of_ne hyp]
      exact h.free j y hy
  · obtain ⟨hyp, hy'⟩ := (hout y).1 hy'
    rw [Function.update_of_ne hyp] at hy ⊢
    exact h.busy y k hy hy'
  · exact hlists.exists_cons (by simp [Links.push]) hnode.2.1
  · constructor
    · rintro ⟨hy, hy'⟩
      obtain ⟨hyp, hy'⟩ := (hout y).1 hy'
      rw [Function.update_of_ne hyp] at hy
      exact ⟨hy, hy'⟩
    · rintro ⟨hy, hy'⟩
      have hyp := hnone y j hy
      refine ⟨?_, (hout y).2 ⟨hyp, hy'⟩⟩
      rw [Function.update_of_ne hyp]
      exact hy

/-- The halves of a block that was free, on the list below. -/
theorem exists_halves {f : Links} (hf : Lists f (heads base) ls) (i₀ : Fin 13)
    {x₂ : ℕ} {i₁ : Fin 13}
    (hx : x ∈ ls i₁) (hx₂ : ∀ j, x₂ ∉ ls j) (hnode : Node base x) (hnode₂ : Node base x₂)
    (hne : x ≠ x₂) :
    ∃ ls', Lists (((f.unlink x).push (heads base i₀) x₂).push (heads base i₀) x) (heads base) ls' ∧
      ∀ y j, y ∈ ls' j ↔ ((y = x ∨ y = x₂) ∧ j = i₀) ∨ (y ≠ x ∧ y ∈ ls j) := by
  obtain ⟨ls₁, hl₁, hmem₁⟩ := hf.exists_unlink hx
  obtain ⟨ls₂, hl₂, hmem₂⟩ := hl₁.exists_push i₀ hnode₂.2.1
    (fun j hj => hx₂ j ((hmem₁ _ j).1 hj).2) fun j => hnode₂.ne_slot j.isLt
  have hx' : ∀ j, x ∉ ls₂ j := by
    intro j hj
    rcases (hmem₂ x j).1 hj with ⟨heq, -⟩ | hj
    · exact hne heq
    · exact ((hmem₁ x j).1 hj).1 rfl
  obtain ⟨ls₃, hl₃, hmem₃⟩ := hl₂.exists_push i₀ hnode.2.1 hx' fun j => hnode.ne_slot j.isLt
  refine ⟨ls₃, hl₃, fun y j => ?_⟩
  rw [hmem₃, hmem₂, hmem₁, or_and_right, or_assoc]

/-- The second half of a block is on no list. -/
theorem half_not_mem (h : Buddies base m pages ord ls) {k : ℕ} (hx : ord x = some (k + 1))
    (j : Fin 13) : x + 2 ^ k ∉ ls j := by
  intro hj
  have hfree := (h.free j _ hj).1
  rw [h.blocks.half_eq_none hx] at hfree
  cases hfree

theorem node_half (h : Buddies base m pages ord ls) {k : ℕ} (hx : ord x = some (k + 1))
    (hk₅ : 5 ≤ k) : Node base (x + 2 ^ k) :=
  (h.blocks.split hx hk₅).node (Function.update_self _ _ _)

/-- The links and flags after a split. -/
theorem shows_split (h : Buddies base m pages ord ls) {k : ℕ} (hk : k + 1 < 13) (hk₅ : 5 ≤ k)
    {i₁ : Fin 13} (hi₁ : i₁.val = k + 1) {rest : List ℕ} (hx : ls i₁ = x :: rest) :
    Shows base (Malloc.split base (k + 1) m)
      ((((linksOf m).unlink x).push (freeSlot base k) (x + 2 ^ k)).push (freeSlot base k) x)
      (Function.update (Function.update (flagsOf m) (x + 2 ^ k) (UInt8.ofNat k ||| FREE)) x
        (UInt8.ofNat k ||| FREE)) := by
  have hmemx : x ∈ ls i₁ := hx ▸ List.mem_cons_self
  have hord : ord x = some (k + 1) := by rw [(h.free i₁ x hmemx).1, hi₁]
  have hlinked := h.lists.linked i₁
  rw [hx] at hlinked
  have hhead₁ : heads base i₁ = freeSlot base (k + 1) := by rw [heads, hi₁]
  have hfirst : nextOf m (freeSlot base k) = 0 ∨ nextOf m (freeSlot base k) ∈ ls ⟨k, by omega⟩ :=
    h.next_head ⟨k, by omega⟩
  have hnode₂ := h.node_half hord hk₅
  have hne : nextOf m (freeSlot base k) ≠ x + 2 ^ k := by
    rcases hfirst with h0 | hfirst
    · exact fun heq => hnode₂.2.1 (heq.symm.trans h0)
    · exact fun heq => h.half_not_mem hord _ (heq ▸ hfirst)
  exact (shows_self base m).split h.blocks.base hk (by omega) (h.node hord) hnode₂
    (hhead₁ ▸ hlinked.1) (hhead₁ ▸ hlinked.2.2.1) (h.node_next hmemx)
    (hfirst.imp id h.node_of_mem) hne

/-- The first block of a list is split. -/
theorem split (h : Buddies base m pages ord ls) {k : ℕ} (hk : k + 1 < 13) (hk₅ : 5 ≤ k)
    {i₀ i₁ : Fin 13} (hi₀ : i₀.val = k) (hi₁ : i₁.val = k + 1) {rest : List ℕ}
    (hx : ls i₁ = x :: rest) :
    ∃ ord' ls', Buddies base (Malloc.split base (k + 1) m) pages ord' ls' ∧
      (∃ rest', ls' i₀ = x :: rest') ∧ (∀ y j, Busy ord' ls' y j ↔ Busy ord ls y j) ∧
      ∀ y j, y ∈ ls' j ↔ ((y = x ∨ y = x + 2 ^ k) ∧ j = i₀) ∨ (y ≠ x ∧ y ∈ ls j) := by
  have hmemx : x ∈ ls i₁ := hx ▸ List.mem_cons_self
  have hord : ord x = some (k + 1) := by rw [(h.free i₁ x hmemx).1, hi₁]
  have hblocks := h.blocks.split hord hk₅
  have hnone := h.blocks.half_eq_none hord
  have hnode := h.node hord
  have hnode₂ := h.node_half hord hk₅
  have hhead₀ : heads base i₀ = freeSlot base k := by rw [heads, hi₀]
  have hnot₂ := h.half_not_mem hord
  have hs := h.shows_split hk hk₅ hi₁ hx
  generalize x + 2 ^ k = x₂ at *
  have hxx₂ : x ≠ x₂ := by
    rintro rfl
    rw [hord] at hnone
    cases hnone
  obtain ⟨ls', hlists, hmem⟩ := exists_halves h.lists i₀ hmemx hnot₂ hnode hnode₂ hxx₂
  have hhead : ∃ rest', ls' i₀ = x :: rest' :=
    hlists.exists_cons (by simp [Links.push]) hnode.2.1
  rw [hhead₀] at hlists
  have hout : ∀ y, (∀ j, y ∉ ls' j) ↔ y ≠ x ∧ y ≠ x₂ ∧ ∀ j, y ∉ ls j := by
    intro y
    simp only [hmem]
    constructor
    · refine fun hy => ⟨fun heq => hy i₀ (.inl ⟨.inl heq, rfl⟩),
        fun heq => hy i₀ (.inl ⟨.inr heq, rfl⟩), fun j hj => hy j (.inr ⟨?_, hj⟩)⟩
      exact fun heq => hy i₀ (.inl ⟨.inl heq, rfl⟩)
    · rintro ⟨hyx, hyx₂, hy⟩ j (⟨heq | heq, -⟩ | ⟨-, hj⟩)
      · exact hyx heq
      · exact hyx₂ heq
      · exact hy j hj
  refine ⟨_, ls', of_shows hblocks hs hlists (fun j y hy => ?_) (fun y j hy hy' => ?_),
    hhead, fun y j => ?_, hmem⟩
  · rcases (hmem y j).1 hy with ⟨rfl | rfl, rfl⟩ | ⟨hyx, hy⟩
    · rw [Function.update_of_ne hxx₂, Function.update_self, Function.update_self, hi₀]
      exact ⟨rfl, rfl⟩
    · rw [Function.update_self, Function.update_of_ne hxx₂.symm, Function.update_self, hi₀]
      exact ⟨rfl, rfl⟩
    · have hyx₂ : y ≠ x₂ := fun heq => hnot₂ j (heq ▸ hy)
      rw [Function.update_of_ne hyx₂, Function.update_of_ne hyx, Function.update_of_ne hyx,
        Function.update_of_ne hyx₂]
      exact h.free j y hy
  · obtain ⟨hyx, hyx₂, hy'⟩ := (hout y).1 hy'
    rw [Function.update_of_ne hyx₂, Function.update_of_ne hyx] at hy
    rw [Function.update_of_ne hyx, Function.update_of_ne hyx₂]
    exact h.busy y j hy hy'
  · constructor
    · rintro ⟨hy, hy'⟩
      obtain ⟨hyx, hyx₂, hy'⟩ := (hout y).1 hy'
      rw [Function.update_of_ne hyx₂, Function.update_of_ne hyx] at hy
      exact ⟨hy, hy'⟩
    · rintro ⟨hy, hy'⟩
      have hyx : y ≠ x := fun heq => hy' i₁ (heq ▸ hmemx)
      have hyx₂ : y ≠ x₂ := by
        rintro rfl
        rw [hnone] at hy
        cases hy
      refine ⟨?_, (hout y).2 ⟨hyx, hyx₂, hy'⟩⟩
      rw [Function.update_of_ne hyx₂, Function.update_of_ne hyx]
      exact hy

theorem keeps_split (h : Buddies base m pages ord ls) {k : ℕ} (hk : k + 1 < 13) (hk₅ : 5 ≤ k)
    {i₁ : Fin 13} (hi₁ : i₁.val = k + 1) {rest : List ℕ} (hx : ls i₁ = x :: rest) :
    Keeps base pages m (Malloc.split base (k + 1) m) := by
  have hord : ord x = some (k + 1) := by rw [(h.free i₁ x (hx ▸ List.mem_cons_self)).1, hi₁]
  have hlinked := h.lists.linked i₁
  rw [hx] at hlinked
  have hback : (linksOf m).back x = freeSlot base (k + 1) := by
    rw [hlinked.2.2.1, heads, hi₁]
  have hne₂ {y : ℕ} (hout : ¬InPages pages y) : y ≠ x + 2 ^ k := fun heq =>
    hout (heq ▸ (h.blocks.split hord hk₅).inPages (Function.update_self _ _ _))
  refine .of_shows (h.shows_split hk hk₅ hi₁ hx) (fun y hy hout => ?_) fun y _ hout => ?_
  · dsimp only [Links.push, Links.unlink]
    have hslot : y ≠ freeSlot base k := hy.ne_slot (Nat.lt_of_succ_lt hk)
    rw [hback]
    simp only [Function.update_of_ne hslot, Function.update_of_ne (h.ne_of_not_inPages hord hout),
      Function.update_of_ne (hne₂ hout), Function.update_of_ne (hy.ne_slot hk)]
    rfl
  · rw [Function.update_of_ne (h.ne_of_not_inPages hord hout), Function.update_of_ne (hne₂ hout)]

/-- The flags of a block say whether it is a free block of some order. -/
theorem mem_of_flags (h : Buddies base m pages ord ls) (hy : ord y = some k)
    (hflags : flagsOf m y = FREE ||| UInt8.ofNat i) : y ∈ ls i := by
  by_cases hmem : ∀ l, y ∉ ls l
  · -- a busy block, whose flags are its order
    rw [h.busy y k hy hmem] at hflags
    have hk : k < 13 := Nat.lt_succ_of_le (h.blocks.order y k hy).2
    exact absurd hflags (flags_ne_free ⟨k, hk⟩ i)
  · push Not at hmem
    obtain ⟨l, hl⟩ := hmem
    rw [(h.free l y hl).2] at hflags
    have hli := free_flags_inj l i hflags
    exact hli ▸ hl

/-- The flags at the begin of the buddy say whether the buddy is a free block. -/
theorem flags_buddy (h : Buddies base m pages ord ls) {k : ℕ} (hx : Busy ord ls x k) (hk : k ≤ 11)
    (hi : i.val = k) : flagsOf m (x ^^^ 2 ^ k) = FREE ||| UInt8.ofNat k ↔ x ^^^ 2 ^ k ∈ ls i := by
  obtain ⟨j, hjk, hj⟩ := h.blocks.buddy hx.1 hk
  constructor
  · intro hflags
    rw [← hi] at hflags hj ⊢
    exact h.mem_of_flags hj hflags
  · intro hmem
    rw [(h.free i _ hmem).2, hi, UInt8.or_comm]

/-- The memory without a free block. -/
theorem shows_remove (h : Buddies base m pages ord ls) (hy : y ∈ ls i) :
    Shows base (setPrevIf (setNext m (prevOf m y) (nextOf m y))
      (nextOf (setNext m (prevOf m y) (nextOf m y)) y)
      (prevOf (setNext m (prevOf m y) (nextOf m y)) y)) ((linksOf m).unlink y) (flagsOf m) := by
  have hlinked := h.lists.linked i
  have hback : Cell base ((linksOf m).back y) := by
    rcases hlinked.back_mem hy with heq | hmem
    · rw [heq]
      exact cell_slot i.isLt
    · exact (h.node_of_mem hmem).cell
  exact (shows_self base m).removeBuddy (h.node_of_mem hy) hback h.blocks.base
    (hlinked.back_ne (h.lists.heads i i) (h.lists.nodup i) hy) (h.node_next hy)

theorem next_head_unlink (h : Buddies base m pages ord ls) (hy : y ∈ ls i) (j : Fin 13) :
    ((linksOf m).unlink y).next (freeSlot base j) = 0 ∨
      ((linksOf m).unlink y).next (freeSlot base j) ∈ ls j := by
  obtain ⟨ls₁, hlists₁, hmem₁⟩ := h.lists.exists_unlink hy
  have hhead : ((linksOf m).unlink y).next (freeSlot base j) = (ls₁ j).headD 0 :=
    hlists₁.next_head j
  rw [hhead]
  cases hl : ls₁ j with
  | nil => exact .inl rfl
  | cons z rest =>
    have hz : z ∈ ls₁ j := hl ▸ List.mem_cons_self
    exact .inr ((hmem₁ z j).1 hz).2

theorem node_head_unlink (h : Buddies base m pages ord ls) (hy : y ∈ ls i) (j : Fin 13) :
    ((linksOf m).unlink y).next (freeSlot base j) = 0 ∨
      Node base (((linksOf m).unlink y).next (freeSlot base j)) :=
  (h.next_head_unlink hy j).imp id h.node_of_mem

/-- A busy block and its free buddy become one free block. -/
theorem merge (h : Buddies base m pages ord ls) {k : ℕ} (hk : k ≤ 11) (hx : Busy ord ls x k)
    (hi : i.val = k) (hbud : x ^^^ 2 ^ k ∈ ls i) {m₁ : ℕ → UInt8}
    (hm₁ : m₁ = setPrevIf (setNext m (prevOf m (x ^^^ 2 ^ k)) (nextOf m (x ^^^ 2 ^ k)))
      (nextOf (setNext m (prevOf m (x ^^^ 2 ^ k)) (nextOf m (x ^^^ 2 ^ k))) (x ^^^ 2 ^ k))
      (prevOf (setNext m (prevOf m (x ^^^ 2 ^ k)) (nextOf m (x ^^^ 2 ^ k))) (x ^^^ 2 ^ k))) :
    flagsOf m₁ x = UInt8.ofNat k ∧
      ∃ ord' ls', Buddies base (Malloc.insert base (k + 1) (min x (x ^^^ 2 ^ k)) m₁) pages
          ord' ls' ∧
        (∀ y j, Busy ord' ls' y j ↔ y ≠ x ∧ Busy ord ls y j) ∧
        ∀ j y, FreeAt ls' j y ↔ (y = min x (x ^^^ 2 ^ k) ∧ j = k + 1) ∨
          (y ≠ x ^^^ 2 ^ k ∧ FreeAt ls j y) := by
  obtain ⟨hordy, -⟩ := h.free i _ hbud
  rw [hi] at hordy
  have hblocks := h.blocks.merge hx.1 hordy hk rfl rfl
  have hxy : x ≠ x ^^^ 2 ^ k := fun heq => hx.2 i (heq ▸ hbud)
  generalize x ^^^ 2 ^ k = y at *
  have hnode := h.node hx.1
  have hnodey := h.node hordy
  have hs₁ := h.shows_remove hbud
  obtain ⟨ls₁, hlists₁, hmem₁⟩ := h.lists.exists_unlink hbud
  rw [show Malloc.setPrevIf _ _ _ = m₁ from hm₁.symm] at hs₁
  refine ⟨(hs₁.flags x hnode).trans (h.busy x k hx.1 hx.2), ?_⟩
  obtain ⟨lo, hlo⟩ : ∃ lo, lo = min x y := ⟨_, rfl⟩
  obtain ⟨hi', hhi'⟩ : ∃ hi', hi' = max x y := ⟨_, rfl⟩
  rw [← hlo, ← hhi'] at hblocks
  rw [← hlo]
  have hlohi : lo ≠ hi' ∧ ((lo = x ∧ hi' = y) ∨ (lo = y ∧ hi' = x)) := by omega
  have hnodelo : Node base lo := by
    rcases hlohi.2 with ⟨h, -⟩ | ⟨h, -⟩ <;> rw [h] <;> assumption
  have hnotlo : ∀ j, lo ∉ ls₁ j := by
    intro j hj
    obtain ⟨hne, hj⟩ := (hmem₁ lo j).1 hj
    rcases hlohi.2 with ⟨h, -⟩ | ⟨h, -⟩
    · exact hx.2 j (h ▸ hj)
    · exact hne h
  have hfirst := h.node_head_unlink hbud ⟨k + 1, by omega⟩
  have hs₂ := hs₁.insert h.blocks.base hnodelo (by omega) hfirst
  obtain ⟨ls₂, hlists₂, hmem₂⟩ := hlists₁.exists_push ⟨k + 1, by omega⟩ hnodelo.2.1 hnotlo
    fun j => hnodelo.ne_slot j.isLt
  have hmem : ∀ z j, z ∈ ls₂ j ↔ (z = lo ∧ j.val = k + 1) ∨ (z ≠ y ∧ z ∈ ls j) := by
    intro z j
    rw [hmem₂, hmem₁, Fin.ext_iff]
  have hout : ∀ z, (∀ j, z ∉ ls₂ j) → z ≠ lo ∧ (z ≠ hi' → ∀ j, z ∉ ls j) := by
    intro z hz
    have hzlo : z ≠ lo := fun heq => hz ⟨k + 1, by omega⟩ ((hmem z _).2 (.inl ⟨heq, rfl⟩))
    exact ⟨hzlo, fun hzhi j hj => hz j ((hmem z j).2 (.inr ⟨by omega, hj⟩))⟩
  refine ⟨_, ls₂, of_shows hblocks hs₂ hlists₂ (fun j z hz => ?_) (fun z j hz hz' => ?_),
    fun z j => ?_, fun j z => ?_⟩
  · rcases (hmem z j).1 hz with ⟨rfl, hj⟩ | ⟨hzy, hz⟩
    · rw [Function.update_self, Function.update_self, hj]
      exact ⟨rfl, rfl⟩
    · have hzx : z ≠ x := fun heq => hx.2 j (heq ▸ hz)
      have hzlo : z ≠ lo := by omega
      have hzhi : z ≠ hi' := by omega
      rw [Function.update_of_ne hzlo, Function.update_of_ne hzhi, Function.update_of_ne hzlo]
      exact h.free j z hz
  · obtain ⟨hzlo, hz'⟩ := hout z hz'
    rw [Function.update_of_ne hzlo] at hz ⊢
    by_cases hzhi : z = hi'
    · rw [hzhi, Function.update_self] at hz
      cases hz
    · rw [Function.update_of_ne hzhi] at hz
      exact h.busy z j hz (hz' hzhi)
  · constructor
    · rintro ⟨hz, hz'⟩
      obtain ⟨hzlo, hz'⟩ := hout z hz'
      rw [Function.update_of_ne hzlo] at hz
      by_cases hzhi : z = hi'
      · rw [hzhi, Function.update_self] at hz
        cases hz
      · rw [Function.update_of_ne hzhi] at hz
        exact ⟨by omega, hz, hz' hzhi⟩
    · rintro ⟨hzx, hz, hz'⟩
      have hzy : z ≠ y := fun heq => hz' i (heq ▸ hbud)
      have hzlo : z ≠ lo := by omega
      have hzhi : z ≠ hi' := by omega
      refine ⟨?_, fun j hj => ?_⟩
      · rw [Function.update_of_ne hzlo, Function.update_of_ne hzhi]
        exact hz
      · rcases (hmem z j).1 hj with ⟨heq, -⟩ | ⟨-, hj⟩
        · exact hzlo heq
        · exact hz' j hj
  · rw [freeAt_insert hmem₂, freeAt_remove hmem₁]

theorem keeps_merge (h : Buddies base m pages ord ls) {k : ℕ} (hk : k ≤ 11) (hx : Busy ord ls x k)
    (hbud : x ^^^ 2 ^ k ∈ ls i) {m₁ : ℕ → UInt8}
    (hm₁ : m₁ = setPrevIf (setNext m (prevOf m (x ^^^ 2 ^ k)) (nextOf m (x ^^^ 2 ^ k)))
      (nextOf (setNext m (prevOf m (x ^^^ 2 ^ k)) (nextOf m (x ^^^ 2 ^ k))) (x ^^^ 2 ^ k))
      (prevOf (setNext m (prevOf m (x ^^^ 2 ^ k)) (nextOf m (x ^^^ 2 ^ k))) (x ^^^ 2 ^ k))) :
    Keeps base pages m (Malloc.insert base (k + 1) (min x (x ^^^ 2 ^ k)) m₁) := by
  have hordy := (h.free i _ hbud).1
  have hs₁ := h.shows_remove hbud
  have hfirst := h.node_head_unlink hbud ⟨k + 1, by omega⟩
  have hback := (h.lists.linked i).back_mem hbud
  generalize x ^^^ 2 ^ k = y at *
  rw [← hm₁] at hs₁
  have hlo : min x y = x ∨ min x y = y := by omega
  have hnode : Node base (min x y) := by
    rcases hlo with heq | heq <;> rw [heq]
    · exact h.node hx.1
    · exact h.node hordy
  have hne {z : ℕ} (hout : ¬InPages pages z) : z ≠ min x y := by
    rcases hlo with heq | heq <;> rw [heq]
    · exact h.ne_of_not_inPages hx.1 hout
    · exact h.ne_of_not_inPages hordy hout
  refine .of_shows (hs₁.insert h.blocks.base hnode (by omega) hfirst) (fun z hz hout => ?_)
    fun z _ hout => Function.update_of_ne (hne hout) _ _
  have hcell : z ≠ (linksOf m).back y := by
    rcases hback with heq | hmem
    · rw [heq]
      exact hz.ne_slot i.isLt
    · exact h.ne_of_not_inPages (h.free i _ hmem).1 hout
  have hslot : z ≠ freeSlot base (k + 1) := hz.ne_slot (by omega)
  dsimp only [Links.push, Links.unlink]
  rw [Function.update_of_ne hslot, Function.update_of_ne (hne hout), Function.update_of_ne hcell]
  rfl

/-- The first block of a list is split until there is one of the order that is wanted. -/
theorem splitDown {order : ℕ} (horder : 5 ≤ order) {n : ℕ} (h : Buddies base m pages ord ls)
    (hi : i.val = order + n) {rest : List ℕ} (hls : ls i = x :: rest) :
    ∃ ord' ls', Buddies base (Malloc.splitDown base order n m) pages ord' ls' ∧
      (∃ j : Fin 13, j.val = order ∧ ∃ rest', ls' j = x :: rest') ∧
      (∀ y j, Busy ord' ls' y j ↔ Busy ord ls y j) ∧
      ∀ top, CoalescedBut top (order + n) x (FreeAt ls) → CoalescedBut top order x (FreeAt ls') := by
  induction n generalizing m ord ls i rest with
  | zero => exact ⟨ord, ls, h, ⟨i, hi, rest, hls⟩, fun _ _ => Iff.rfl, fun _ hc => hc⟩
  | succ n ih =>
    have hlt := i.isLt
    have hi₀ : order + n < 13 := by omega
    have hval : (⟨order + n, hi₀⟩ : Fin 13).val = order + n := rfl
    obtain ⟨ord₁, ls₁, h₁, ⟨rest₁, hls₁⟩, hbusy₁, hmem₁⟩ := h.split (by omega) (by omega) hval hi hls
    obtain ⟨ord₂, ls₂, h₂, hmem₂, hbusy₂, hbut₂⟩ := ih h₁ rfl hls₁
    refine ⟨ord₂, ls₂, h₂, hmem₂, fun y j => (hbusy₂ y j).trans (hbusy₁ y j), fun top hc => ?_⟩
    have hord : ord x = some (order + n + 1) := by
      rw [(h.free i x (hls ▸ List.mem_cons_self)).1, hi, Nat.add_assoc]
    exact hbut₂ top (hc.split (h.blocks.tiles.aligned x _ hord) (freeAt_halves hmem₁))

theorem keeps_splitDown {order : ℕ} (horder : 5 ≤ order) {n : ℕ} (h : Buddies base m pages ord ls)
    (hi : i.val = order + n) (hls : x ∈ ls i) :
    Keeps base pages m (Malloc.splitDown base order n m) := by
  induction n generalizing m ord ls i x with
  | zero => exact .refl base pages m
  | succ n ih =>
    have hlt := i.isLt
    cases hl : ls i with
    | nil =>
      rw [hl] at hls
      cases hls
    | cons z rest =>
      have hi₀ : order + n < 13 := by omega
      have hval : (⟨order + n, hi₀⟩ : Fin 13).val = order + n := rfl
      obtain ⟨ord₁, ls₁, h₁, ⟨rest₁, hls₁⟩, -⟩ := h.split (by omega) (by omega) hval hi hl
      have hmem₁ : z ∈ ls₁ ⟨order + n, hi₀⟩ := hls₁ ▸ List.mem_cons_self
      exact (h.keeps_split (k := order + n) (by omega) (by omega) hi hl).trans (ih h₁ rfl hmem₁)

end Buddies

/-! ## `malloc` and `free` -/

section Calls

variable {base : ℕ} {m : ℕ → UInt8} {pages : List (ℕ × ℕ)} {ord : ℕ → Option ℕ}
  {ls : Fin 13 → List ℕ} {x k : ℕ}

/-- The order of a block for `n` bytes. -/
theorem bitLength_spec {n : ℕ} (hlo : 24 ≤ n) (hhi : n ≤ 2047) :
    5 ≤ bitLength n ∧ bitLength n ≤ 11 ∧ n < 2 ^ bitLength n := by
  have hn : n ≠ 0 := by omega
  refine ⟨?_, ?_, Nat.lt_log2_self⟩
  · have := (Nat.le_log2 (k := 4) hn).2 (by norm_num; omega)
    unfold bitLength
    omega
  · have := (Nat.log2_lt (k := 11) hn).2 (by norm_num; omega)
    unfold bitLength
    omega

theorem findOrder_spec (base : ℕ) (m : ℕ → UInt8) (n o : ℕ) :
    o ≤ findOrder base m n o ∧ findOrder base m n o ≤ o + n ∧
      (findOrder base m n o < o + n → nextOf m (freeSlot base (findOrder base m n o)) ≠ 0) := by
  induction n generalizing o with
  | zero => exact ⟨le_refl o, le_refl o, fun h => absurd h (Nat.lt_irrefl o)⟩
  | succ n ih =>
    rw [findOrder]
    split
    next h0 =>
      obtain ⟨hlo, hhi, hne⟩ := ih (o + 1)
      exact ⟨by omega, by omega, fun h => hne (by omega)⟩
    next h0 => exact ⟨le_refl o, by omega, fun _ => h0⟩

/-- The page that `sendpage` returns is a new one. -/
structure Fresh (base : ℕ) (pages : List (ℕ × ℕ)) (page : ℕ) : Prop where
  aligned : page % 4096 = 0
  fits : page + 4096 ≤ 2 ^ 64
  base : page + 4096 ≤ base ∨ base + 104 ≤ page
  apart : ∀ p ∈ pages, page + 4096 ≤ p.1 ∨ p.1 + p.2 ≤ page

/-- What `malloc` does once there is a block that is large enough. -/
theorem Buddies.takeSplit (h : Buddies base m pages ord ls) {order : ℕ} (horder : 5 ≤ order)
    {i : Fin 13} (hi : order ≤ i) {rest : List ℕ} (hls : ls i = x :: rest) {m' : ℕ → UInt8}
    (hm' : m' = Malloc.splitDown base order (i - order) m) :
    ∃ ord' ls', (Malloc.takeFirst base order m').1 = x ∧
      Buddies base (Malloc.takeFirst base order m').2 pages ord' ls' ∧ (∀ k, ¬Busy ord ls x k) ∧
      (∀ y j, Busy ord' ls' y j ↔ (y = x ∧ j = order) ∨ Busy ord ls y j) ∧
      ∀ top, CoalescedBut top i x (FreeAt ls) → Coalesced top (FreeAt ls') := by
  have hsum : i.val = order + (i - order) := by omega
  obtain ⟨ord₂, ls₂, h₂, ⟨j, hj, rest₂, hls₂⟩, hbusy₂, hbut₂⟩ := h.splitDown horder hsum hls
  rw [← hm'] at h₂
  have hx : x ∈ ls₂ j := hls₂ ▸ List.mem_cons_self
  have hordx := (h₂.free j x hx).1
  obtain ⟨hret, ls₃, h₃, hmem₃⟩ := h₂.takeFirst hls₂
  rw [hj] at hret h₃ hordx
  refine ⟨ord₂, ls₃, hret, h₃, fun k hk => ((hbusy₂ x k).2 hk).2 j hx, fun y l => ?_,
    fun top hc => ?_⟩
  · rw [← hbusy₂ y l]
    constructor
    · rintro ⟨hy, hy'⟩
      by_cases hyx : y = x
      · rw [hyx, hordx, Option.some.injEq] at hy
        exact .inl ⟨hyx, hy.symm⟩
      · exact .inr ⟨hy, fun i hi => hy' i ((hmem₃ y i).2 ⟨hyx, hi⟩)⟩
    · rintro (⟨rfl, rfl⟩ | ⟨hy, hy'⟩)
      · exact ⟨hordx, fun i hi => ((hmem₃ y i).1 hi).1 rfl⟩
      · exact ⟨hy, fun i hi => hy' i ((hmem₃ y i).1 hi).2⟩
  · rw [hsum] at hc
    exact (hbut₂ top hc).take (freeAt_remove hmem₃)

theorem Buddies.keeps_takeSplit (h : Buddies base m pages ord ls) {order : ℕ} (horder : 5 ≤ order)
    {i : Fin 13} (hi : order ≤ i) {rest : List ℕ} (hls : ls i = x :: rest) {m' : ℕ → UInt8}
    (hm' : m' = Malloc.splitDown base order (i - order) m) :
    Keeps base pages m (Malloc.takeFirst base order m').2 := by
  have hsum : i.val = order + (i - order) := by omega
  have hdown := h.keeps_splitDown horder hsum (hls ▸ List.mem_cons_self)
  obtain ⟨ord₂, ls₂, h₂, ⟨j, hj, rest₂, hls₂⟩, -⟩ := h.splitDown horder hsum hls
  rw [← hm'] at h₂ hdown
  have htake := h₂.keeps_takeFirst hls₂
  rw [hj] at htake
  exact hdown.trans htake

theorem bitLength_le_page {n : ℕ} (hlo : 24 ≤ n) (hhi : n ≤ 4095) :
    5 ≤ bitLength n ∧ bitLength n ≤ 12 ∧ n < 2 ^ bitLength n := by
  have hn : n ≠ 0 := by omega
  refine ⟨?_, ?_, Nat.lt_log2_self⟩
  · have := (Nat.le_log2 (k := 4) hn).2 (by norm_num; omega)
    unfold bitLength
    omega
  · have := (Nat.log2_lt (k := 12) hn).2 (by norm_num; omega)
    unfold bitLength
    omega

/-- The pages for blocks, among all, before and after a call that may obtain one. -/
def Obtains (page : ℕ) (all pages all' pages' : List (ℕ × ℕ)) : Prop :=
  (all' = all ∧ pages' = pages) ∨
    (all' = (page, 4096) :: all ∧ pages' = (page, 4096) :: pages)

/-- A block from `malloc` was on no list and was not busy before. -/
theorem Buddies.mallocStep {h : Heap} (hb : Buddies base h.mem pages ord ls) {s page : ℕ}
    (hs : s + 24 ≤ 4095)
    (hfresh : (Malloc.malloc base page s h).2.pages ≠ h.pages → Fresh base pages page) :
    Malloc.malloc base page s h = (0, h) ∨ ∃ x pages' ord' ls',
      (Malloc.malloc base page s h).1 = x + 24 ∧
      Obtains page h.pages pages (Malloc.malloc base page s h).2.pages pages' ∧
      Keeps base pages' h.mem (Malloc.malloc base page s h).2.mem ∧
      Buddies base (Malloc.malloc base page s h).2.mem pages' ord' ls' ∧
      (∀ k, ¬Busy ord ls x k) ∧
      (∀ y j, Busy ord' ls' y j ↔ (y = x ∧ j = bitLength (s + 24)) ∨ Busy ord ls y j) ∧
      ∀ top, Coalesced top (FreeAt ls) → Coalesced top (FreeAt ls') := by
  have hsize : wadd s sizeofHdr = s + 24 := by
    unfold wadd sizeofHdr
    omega
  obtain ⟨horder, horder', -⟩ := bitLength_le_page (n := s + 24) (by omega) hs
  obtain ⟨order, ho⟩ : ∃ order, order = bitLength (s + 24) := ⟨_, rfl⟩
  rw [← ho] at horder horder' ⊢
  obtain ⟨hflo, hfhi, hfne⟩ := findOrder_spec base h.mem (13 - order) order
  rw [Malloc.malloc, hsize, if_neg (by omega), ← ho] at hfresh ⊢
  dsimp only at hfresh ⊢
  obtain ⟨xorder, hxo⟩ : ∃ xorder, xorder = findOrder base h.mem (13 - order) order := ⟨_, rfl⟩
  rw [← hxo] at hflo hfhi hfne hfresh ⊢
  by_cases hlist : xorder ≥ 13
  · by_cases hpage : page = 0
    · rw [if_pos ⟨hlist, hpage⟩]
      exact .inl rfl
    · right
      rw [if_neg (fun hc => hpage hc.2), if_pos hlist] at hfresh ⊢
      simp only [allocNew, Nat.reduceAdd, Nat.reduceMod, Nat.reduceDiv, Nat.reduceMul,
        Nat.reducePow] at hfresh ⊢
      obtain ⟨haligned, hfits, hbase, hapart⟩ := hfresh (List.cons_ne_self _ _)
      have hzero := hb.zeroPage hbase hapart
      have hnode : Node base page := (hb.blocks.add haligned hpage hfits hbase hapart).node
        (Function.update_self _ _ _)
      have hin : InPages ((page, 4096) :: pages) page :=
        ⟨_, List.mem_cons_self, le_rfl, by dsimp only; omega⟩
      have hkeeps : Keeps base ((page, 4096) :: pages) h.mem _ :=
        (keeps_zeroPage haligned pages h.mem).trans (hzero.keeps_insert hnode hin 12)
      obtain ⟨ls₁, h₁, ⟨rest₁, hls₁⟩, hbusy₁, hmem₁⟩ :=
        hzero.addPage haligned hpage hfits hbase hapart
      have h12 : order ≤ (12 : Fin 13).val := by
        change order ≤ 12
        omega
      obtain ⟨ord', ls', hret, h₂, hx, hbusy₂, hcoal⟩ := h₁.takeSplit horder h12 hls₁ rfl
      exact ⟨page, (page, 4096) :: pages, ord', ls', congrArg (· + 24) hret, .inr ⟨rfl, rfl⟩,
        hkeeps.trans (h₁.keeps_takeSplit horder h12 hls₁ rfl), h₂,
        fun k hk => hx k ((hbusy₁ page k).2 hk),
        fun y j => (hbusy₂ y j).trans (or_congr Iff.rfl (hbusy₁ y j)),
        fun top hc => hcoal top (hc.insert_but (freeAt_insert hmem₁))⟩
  · right
    rw [if_neg (fun hc => hlist hc.1), if_neg hlist]
    have hi : xorder < 13 := by omega
    obtain ⟨rest, hls⟩ : ∃ rest, ls ⟨xorder, hi⟩ = nextOf h.mem (freeSlot base xorder) :: rest :=
      hb.lists.exists_cons rfl (hfne (by omega))
    dsimp only
    obtain ⟨m', hm'⟩ : ∃ m', m' = Malloc.splitDown base order (xorder - order) h.mem := ⟨_, rfl⟩
    rw [← hm']
    obtain ⟨ord', ls', hret, hb', hnew, hbusy, hcoal⟩ :=
      hb.takeSplit horder (i := ⟨xorder, hi⟩) hflo hls hm'
    exact ⟨_, pages, ord', ls', congrArg (· + 24) hret, .inl ⟨rfl, rfl⟩,
      hb.keeps_takeSplit horder (i := ⟨xorder, hi⟩) hflo hls hm', hb', hnew, hbusy,
      fun top hc => hcoal top (hc.but _ _)⟩

/-- `mallocStep` for what is busy. -/
theorem Buddies.mallocBlock {h : Heap} (hb : Buddies base h.mem pages ord ls) {s page : ℕ}
    (hs : s + 24 ≤ 4095)
    (hfresh : (Malloc.malloc base page s h).2.pages ≠ h.pages → Fresh base pages page) :
    Malloc.malloc base page s h = (0, h) ∨ ∃ x pages' ord' ls',
      (Malloc.malloc base page s h).1 = x + 24 ∧
      Obtains page h.pages pages (Malloc.malloc base page s h).2.pages pages' ∧
      Keeps base pages' h.mem (Malloc.malloc base page s h).2.mem ∧
      Buddies base (Malloc.malloc base page s h).2.mem pages' ord' ls' ∧
      (∀ k, ¬Busy ord ls x k) ∧
      ∀ y j, Busy ord' ls' y j ↔ (y = x ∧ j = bitLength (s + 24)) ∨ Busy ord ls y j := by
  refine (hb.mallocStep hs hfresh).imp id ?_
  rintro ⟨x, pages', ord', ls', hret, hobtains, hkeeps, hb', hnew, hbusy, -⟩
  exact ⟨x, pages', ord', ls', hret, hobtains, hkeeps, hb', hnew, hbusy⟩

/-- A small block from `malloc` was on no list and was not busy before. -/
theorem Buddies.malloc {h : Heap} (hb : Buddies base h.mem h.pages ord ls) {s page : ℕ}
    (hs : s + 24 ≤ 2047)
    (hfresh : (Malloc.malloc base page s h).2.pages ≠ h.pages → Fresh base h.pages page) :
    Malloc.malloc base page s h = (0, h) ∨ ∃ x ord' ls', (Malloc.malloc base page s h).1 = x + 24 ∧
      Buddies base (Malloc.malloc base page s h).2.mem (Malloc.malloc base page s h).2.pages
        ord' ls' ∧
      (∀ k, ¬Busy ord ls x k) ∧
      (∀ y j, Busy ord' ls' y j ↔ (y = x ∧ j = bitLength (s + 24)) ∨ Busy ord ls y j) ∧
      ∀ top, Coalesced top (FreeAt ls) → Coalesced top (FreeAt ls') := by
  refine (hb.mallocStep (by omega) hfresh).imp id ?_
  rintro ⟨x, pages', ord', ls', hret, hobtains, -, hb', hx⟩
  have hpages : pages' = (Malloc.malloc base page s h).2.pages := by
    rcases hobtains with ⟨hall, hpages⟩ | ⟨hall, hpages⟩ <;> rw [hall, hpages]
  exact ⟨x, ord', ls', hret, hpages ▸ hb', hx⟩

/-- The block that `free` puts on a list is not free together with its buddy. -/
def LastMerge (m : ℕ → UInt8) (ls : Fin 13 → List ℕ) (top x k : ℕ) : Prop :=
  flagsOf m (x ^^^ 2 ^ k) = FREE ||| UInt8.ofNat k → k + 1 ≤ top →
    ¬FreeAt ls (k + 1) (min x (x ^^^ 2 ^ k) ^^^ 2 ^ (k + 1))

/-- `free` of a busy block, smaller than a page or next to no free page. -/
theorem Buddies.freeStep {h : Heap} (hb : Buddies base h.mem pages ord ls)
    (hx : Busy ord ls x k) (hk : k ≤ 11 ∨ k = 12 ∧ flagsOf h.mem (x ^^^ 2 ^ k) ≠ FREE ||| 12) :
    (Malloc.free base (x + 24) h).pages = h.pages ∧
      Keeps base pages h.mem (Malloc.free base (x + 24) h).mem ∧
      ∃ ord' ls', Buddies base (Malloc.free base (x + 24) h).mem pages ord' ls' ∧
        (∀ y j, Busy ord' ls' y j ↔ y ≠ x ∧ Busy ord ls y j) ∧
        ∀ top, k ≤ 11 → LastMerge h.mem ls top x k → Coalesced top (FreeAt ls) →
          Coalesced top (FreeAt ls') := by
  have hnode := hb.node hx.1
  have hsub : wsub (x + 24) sizeofHdr = x := by
    have := hnode.lt
    unfold wsub sizeofHdr
    omega
  have hflags := hb.busy x k hx.1 hx.2
  have hk' : k < 13 := by omega
  have htoNat : (UInt8.ofNat k).toNat = k := flags_toNat ⟨k, hk'⟩
  have hhuge : UInt8.ofNat k &&& HUGE = 0 := flags_and_huge ⟨k, hk'⟩
  rw [Malloc.free, if_neg (by omega), hsub]
  simp only [hflags, htoNat, hhuge, ne_eq, not_true_eq_false, if_false]
  rw [if_neg (by omega)]
  obtain ⟨y, hy⟩ : ∃ y, y = x ^^^ 2 ^ k := ⟨_, rfl⟩
  rw [← hy] at hk ⊢
  by_cases hbuddy : flagsOf h.mem y = FREE ||| UInt8.ofNat k
  · have hk11 : k ≤ 11 := by
      rcases hk with hk | ⟨rfl, hne⟩
      · exact hk
      · exact absurd hbuddy hne
    have hmem : y ∈ ls ⟨k, hk'⟩ := hy ▸ (hb.flags_buddy (i := ⟨k, hk'⟩) hx hk11 rfl).1 (hy ▸ hbuddy)
    have hmerge := hb.merge (i := ⟨k, hk'⟩) hk11 hx rfl
    have hkeeps := hb.keeps_merge (i := ⟨k, hk'⟩) hk11 hx
    rw [← hy] at hmerge hkeeps
    rw [if_pos hbuddy]
    obtain ⟨m₁, hm₁⟩ : ∃ m₁, m₁ = setPrevIf (setNext h.mem (prevOf h.mem y) (nextOf h.mem y))
      (nextOf (setNext h.mem (prevOf h.mem y) (nextOf h.mem y)) y)
      (prevOf (setNext h.mem (prevOf h.mem y) (nextOf h.mem y)) y) := ⟨_, rfl⟩
    rw [← hm₁]
    obtain ⟨hflags₁, ord', ls', h', hbusy, hfree⟩ := hmerge hmem hm₁
    have hmin : (if y < x then y else x) = min x y := by
      split <;> omega
    rw [hflags₁, htoNat, hmin]
    dsimp only
    refine ⟨rfl, hkeeps hmem hm₁, ord', ls', h', hbusy, fun top _ hapart hc => ?_⟩
    rw [LastMerge, ← hy] at hapart
    exact hc.merge (hapart hbuddy) hfree
  · rw [if_neg hbuddy]
    have hkeeps := hb.keeps_insert hnode (hb.blocks.inPages hx.1) ⟨k, hk'⟩
    obtain ⟨ls', h', hmem'⟩ := Buddies.insert (i := ⟨k, hk'⟩) hb hx
    dsimp only at h' hkeeps ⊢
    refine ⟨rfl, hkeeps, ord, ls', h', fun y j => ?_, fun top hk11 _ hc => ?_⟩
    · constructor
      · rintro ⟨hy, hy'⟩
        have hyx : y ≠ x := fun heq => hy' ⟨k, hk'⟩ ((hmem' y _).2 (.inl ⟨heq, rfl⟩))
        exact ⟨hyx, hy, fun i hi => hy' i ((hmem' y i).2 (.inr hi))⟩
      · rintro ⟨hyx, hy, hy'⟩
        refine ⟨hy, fun i hi => ?_⟩
        rcases (hmem' y i).1 hi with ⟨heq, -⟩ | hi
        · exact hyx heq
        · exact hy' i hi
    · refine hc.insert (fun _ hfree => hbuddy ?_) (freeAt_insert hmem')
      have hmem : x ^^^ 2 ^ k ∈ ls ⟨k, hk'⟩ := (freeAt_val (i := ⟨k, hk'⟩)).1 hfree
      rw [hy]
      exact (hb.flags_buddy (i := ⟨k, hk'⟩) hx hk11 rfl).2 hmem

/-- `freeStep` for what is busy. -/
theorem Buddies.freeBusy {h : Heap} (hb : Buddies base h.mem pages ord ls)
    (hx : Busy ord ls x k) (hk : k ≤ 11 ∨ k = 12 ∧ flagsOf h.mem (x ^^^ 2 ^ k) ≠ FREE ||| 12) :
    (Malloc.free base (x + 24) h).pages = h.pages ∧
      Keeps base pages h.mem (Malloc.free base (x + 24) h).mem ∧
      ∃ ord' ls', Buddies base (Malloc.free base (x + 24) h).mem pages ord' ls' ∧
        ∀ y j, Busy ord' ls' y j ↔ y ≠ x ∧ Busy ord ls y j := by
  obtain ⟨hpages, hkeeps, ord', ls', hb', hbusy, -⟩ := hb.freeStep hx hk
  exact ⟨hpages, hkeeps, ord', ls', hb', hbusy⟩

/-- `free` of a busy block. -/
theorem Buddies.freeBlock {h : Heap} (hb : Buddies base h.mem h.pages ord ls)
    (hx : Busy ord ls x k) (hk : k ≤ 11) :
    (Malloc.free base (x + 24) h).pages = h.pages ∧
      ∃ ord' ls', Buddies base (Malloc.free base (x + 24) h).mem h.pages ord' ls' ∧
        (∀ y j, Busy ord' ls' y j ↔ y ≠ x ∧ Busy ord ls y j) ∧
        ∀ top, LastMerge h.mem ls top x k → Coalesced top (FreeAt ls) → Coalesced top (FreeAt ls') := by
  obtain ⟨hpages, -, ord', ls', hb', hbusy, hcoal⟩ := hb.freeStep hx (.inl hk)
  exact ⟨hpages, ord', ls', hb', hbusy, fun top => hcoal top hk⟩

end Calls

/-! ## Runs -/

/-- A block that is in use: its header, its order, and the bytes that were asked for. -/
structure Block where
  addr : ℕ
  order : ℕ
  size : ℕ
  deriving DecidableEq, Repr

/-- The begin of the bytes for the user. -/
def Block.payload (b : Block) : ℕ := b.addr + sizeofHdr

/-- The end of the block. -/
def Block.fin (b : Block) : ℕ := b.addr + 2 ^ b.order

/-- The allocator and the blocks in use. -/
structure Client where
  heap : Heap
  live : List Block

/-- `malloc`, where `sendpage` returns `page` if it is called; `free`; a write by the
user. -/
inductive MallocOp
  | malloc (s page : ℕ)
  | free (ptr : ℕ)
  | write (a : ℕ) (b : UInt8)
  deriving DecidableEq

def Client.step (base : ℕ) (w : Client) : MallocOp → Client
  | .malloc s page =>
    let (ptr, heap) := Malloc.malloc base page s w.heap
    { heap := heap
      live := if ptr = 0 then w.live
        else ⟨ptr - sizeofHdr, bitLength (s + sizeofHdr), s⟩ :: w.live }
  | .free ptr =>
    { heap := Malloc.free base ptr w.heap
      live := w.live.filter fun b => b.payload != ptr }
  | .write a b => { w with heap.mem := Function.update w.heap.mem a b }

/-- Requests are small, `sendpage` returns new pages, blocks in use are freed, and users
write to their payloads. -/
def Client.Legal (base : ℕ) (w : Client) : MallocOp → Prop
  | .malloc s page => s + sizeofHdr ≤ 2047 ∧
      ((Malloc.malloc base page s w.heap).2.pages ≠ w.heap.pages → Fresh base w.heap.pages page)
  | .free ptr => ∃ b ∈ w.live, b.payload = ptr
  | .write a _ => ∃ b ∈ w.live, b.payload ≤ a ∧ a < b.fin

/-- The block that is given back by a call. -/
def Client.Frees (w : Client) (op : MallocOp) (b : Block) : Prop := b ∈ w.live ∧ op = .free b.payload

/-- Before the first call, after `clear_free`. -/
def Client.boot (base : ℕ) (mem : ℕ → UInt8) : Client := ⟨⟨clearFree base mem, [], []⟩, []⟩

def Client.run (base : ℕ) (w : Client) (ops : List MallocOp) : Client :=
  ops.foldl (Client.step base) w

/-- The free blocks `ls` and those in use tile the pages; the free lists are linked and
have exactly the free blocks of their orders; payloads are apart and large enough. -/
def Sound (base : ℕ) (w : Client) : Prop :=
  ∃ ord ls, Buddies base w.heap.mem w.heap.pages ord ls ∧
    (∀ x k, ord x = some k ↔
      (∃ i : Fin 13, i.val = k ∧ x ∈ ls i) ∨ ∃ b ∈ w.live, b.addr = x ∧ b.order = k) ∧
    (∀ b ∈ w.live, ∀ i, b.addr ∉ ls i) ∧
    (w.live.Pairwise fun b c => b.fin ≤ c.payload ∨ c.fin ≤ b.payload) ∧
    ∀ b ∈ w.live, b.payload + b.size ≤ b.fin

/-- The invariant: the busy blocks are those in use. -/
structure Inv (base : ℕ) (w : Client) (ord : ℕ → Option ℕ) (ls : Fin 13 → List ℕ) : Prop where
  buddies : Buddies base w.heap.mem w.heap.pages ord ls
  busy : ∀ x k, Busy ord ls x k ↔ ∃ b ∈ w.live, b.addr = x ∧ b.order = k
  distinct : (w.live.map Block.addr).Nodup
  room : ∀ b ∈ w.live, b.order ≤ 11 ∧ b.size + 24 ≤ 2 ^ b.order

namespace Inv

variable {base : ℕ} {w : Client} {ord : ℕ → Option ℕ} {ls : Fin 13 → List ℕ}

theorem busy_of_mem (h : Inv base w ord ls) {b : Block} (hb : b ∈ w.live) :
    Busy ord ls b.addr b.order := (h.busy _ _).2 ⟨b, hb, rfl, rfl⟩

theorem sound (h : Inv base w ord ls) : Sound base w := by
  refine ⟨ord, ls, h.buddies, fun x k => ?_, fun b hb => (h.busy_of_mem hb).2, ?_, ?_⟩
  · constructor
    · intro hx
      by_cases hmem : ∃ i, x ∈ ls i
      · obtain ⟨i, hi⟩ := hmem
        have hord := (h.buddies.free i x hi).1
        rw [hx, Option.some.injEq] at hord
        exact .inl ⟨i, hord.symm, hi⟩
      · push Not at hmem
        exact .inr ((h.busy x k).1 ⟨hx, hmem⟩)
    · rintro (⟨i, rfl, hi⟩ | hb)
      · exact (h.buddies.free i x hi).1
      · exact ((h.busy x k).2 hb).1
  · have hpw := List.pairwise_map.1 h.distinct
    refine hpw.imp_of_mem fun {b c} hb hc hne => ?_
    have := h.buddies.blocks.tiles.apart _ _ _ _ (h.busy_of_mem hb).1 (h.busy_of_mem hc).1 hne
    unfold Block.fin Block.payload
    omega
  · intro b hb
    have := (h.room b hb).2
    unfold Block.payload Block.fin sizeofHdr
    omega

theorem step (h : Inv base w ord ls) {op : MallocOp} (hok : w.Legal base op) :
    ∃ ord' ls', Inv base (w.step base op) ord' ls' ∧
      ∀ top, (∀ b, w.Frees op b → LastMerge w.heap.mem ls top b.addr b.order) →
        Coalesced top (FreeAt ls) → Coalesced top (FreeAt ls') := by
  cases op with
  | malloc s page =>
    obtain ⟨hs, hfresh⟩ := hok
    obtain ⟨-, horder, hlt⟩ := bitLength_spec (n := s + 24) (by omega) hs
    rcases h.buddies.malloc hs hfresh with hret | ⟨x, ord', ls', hret, hb, hnew, hbusy, hcoal⟩
    · refine ⟨ord, ls, ?_, fun top _ hc => hc⟩
      rw [Client.step, hret]
      exact h
    · refine ⟨ord', ls', ?_, fun top _ => hcoal top⟩
      rw [Client.step]
      generalize Malloc.malloc base page s w.heap = r at hret hb ⊢
      obtain ⟨ptr, heap⟩ := r
      dsimp only at hret hb ⊢
      rw [if_neg (by omega), hret]
      have hx : x + 24 - sizeofHdr = x := rfl
      rw [hx]
      refine ⟨hb, fun y k => ?_, ?_, ?_⟩
      · rw [hbusy, h.busy]
        simp only [List.mem_cons, exists_eq_or_imp]
        refine or_congr ⟨?_, ?_⟩ Iff.rfl
        · rintro ⟨rfl, rfl⟩
          exact ⟨rfl, rfl⟩
        · rintro ⟨rfl, rfl⟩
          exact ⟨rfl, rfl⟩
      · rw [List.map_cons, List.nodup_cons]
        refine ⟨fun hmem => ?_, h.distinct⟩
        obtain ⟨b, hb, hbx⟩ := List.mem_map.1 hmem
        have hbx' : b.addr = x := hbx
        exact hnew b.order (hbx' ▸ h.busy_of_mem hb)
      · intro b hb
        rcases List.mem_cons.1 hb with rfl | hb
        · exact ⟨horder, hlt.le⟩
        · exact h.room b hb
  | free ptr =>
    obtain ⟨b, hb, rfl⟩ := hok
    obtain ⟨hpages, ord', ls', hb', hbusy, hcoal⟩ :=
      h.buddies.freeBlock (h.busy_of_mem hb) (h.room b hb).1
    have hmem : ∀ c, c ∈ w.live.filter (fun c => c.payload != b.payload) ↔
        c ∈ w.live ∧ c.addr ≠ b.addr := by
      intro c
      have : c.payload = b.payload ↔ c.addr = b.addr := Nat.add_right_cancel_iff
      simp [this]
    refine ⟨ord', ls', ⟨?_, fun y k => ?_, ?_, fun c hc => h.room c ((hmem c).1 hc).1⟩,
      fun top hapart => hcoal top (hapart b ⟨hb, rfl⟩)⟩
    · change Buddies base (Malloc.free base (b.addr + 24) w.heap).mem
        (Malloc.free base (b.addr + 24) w.heap).pages ord' ls'
      rw [hpages]
      exact hb'
    · rw [hbusy, h.busy]
      constructor
      · rintro ⟨hne, c, hc, rfl, rfl⟩
        exact ⟨c, (hmem c).2 ⟨hc, hne⟩, rfl, rfl⟩
      · rintro ⟨c, hc, rfl, rfl⟩
        exact ⟨((hmem c).1 hc).2, c, ((hmem c).1 hc).1, rfl, rfl⟩
    · exact h.distinct.sublist (List.filter_sublist.map _)
  | write a v =>
    obtain ⟨b, hb, hlo, hhi⟩ := hok
    exact ⟨ord, ls, ⟨h.buddies.write (h.busy_of_mem hb).1 hlo hhi v, h.busy, h.distinct, h.room⟩,
      fun top _ hc => hc⟩

end Inv

theorem inv_boot {base : ℕ} (hbase : base + 104 ≤ 2 ^ 64) (mem : ℕ → UInt8) :
    Inv base (Client.boot base mem) (fun _ => none) fun _ => [] := by
  have hempty : Tiling (InPages []) fun _ => none :=
    ⟨by simp, by simp, by simp [InPages]⟩
  refine ⟨⟨⟨hempty, by simp, by simp [Client.boot], hbase⟩, ⟨fun i => ?_, by simp, by simp, by simp,
    fun i j hij => ?_⟩, by simp, by simp⟩, ?_, List.nodup_nil, by simp [Client.boot]⟩
  · have hbyte : ∀ n < 8, clearFree base mem (freeSlot base i + n) = 0 := by
      intro n hn
      have := i.isLt
      unfold clearFree freeSlot
      exact if_pos (by omega)
    have hzero : readWord (clearFree base mem) (freeSlot base i) = readWord (fun _ => 0) 0 :=
      congrArg leValue (List.map_congr_left fun n hn => hbyte n (List.mem_range.1 hn))
    exact hzero
  · exact Fin.ext (freeSlot_inj hij)
  · intro x k
    simp [Busy, Client.boot]

/-- The allocator is sound in every run in which its users keep to their blocks. -/
theorem sound_run {base : ℕ} (hbase : base + 104 ≤ 2 ^ 64) {mem : ℕ → UInt8} {ops : List MallocOp}
    (hok : Always (Client.Legal base) (Client.step base) (Client.boot base mem) ops) :
    Sound base ((Client.boot base mem).run base ops) := by
  have hinv : ∃ ord ls, Inv base ((Client.boot base mem).run base ops) ord ls :=
    foldl_always (I := fun w => ∃ ord ls, Inv base w ord ls) ⟨_, _, inv_boot hbase mem⟩
      (fun w op hw hop => by
        obtain ⟨ord, ls, h⟩ := hw
        obtain ⟨ord', ls', h', -⟩ := h.step hop
        exact ⟨ord', ls', h'⟩) hok
  obtain ⟨ord, ls, h⟩ := hinv
  exact h.sound

/-! ## A test of steps -/

/-- `Fresh`, computed. -/
def freshCheck (base : ℕ) (pages : List (ℕ × ℕ)) (page : ℕ) : Bool :=
  page % 4096 == 0 && decide (page + 4096 ≤ 2 ^ 64) &&
    decide (page + 4096 ≤ base ∨ base + 104 ≤ page) &&
    pages.all fun p => decide (page + 4096 ≤ p.1 ∨ p.1 + p.2 ≤ page)

/-- `Client.Legal`, computed. -/
def Client.check (base : ℕ) (w : Client) : MallocOp → Bool
  | .malloc s page => decide (s + sizeofHdr ≤ 2047) &&
      ((Malloc.malloc base page s w.heap).2.pages == w.heap.pages ||
        freshCheck base w.heap.pages page)
  | .free ptr => w.live.any fun b => b.payload == ptr
  | .write a _ => w.live.any fun b => decide (b.payload ≤ a) && decide (a < b.fin)

theorem legal_of_check {base : ℕ} {w : Client} {op : MallocOp} (h : w.check base op = true) :
    w.Legal base op := by
  cases op with
  | malloc s page =>
    simp only [Client.check, Bool.and_eq_true, Bool.or_eq_true, decide_eq_true_eq, beq_iff_eq] at h
    refine ⟨h.1, fun hne => ?_⟩
    have hfresh := h.2.resolve_left hne
    simp only [freshCheck, Bool.and_eq_true, decide_eq_true_eq, beq_iff_eq,
      List.all_eq_true] at hfresh
    exact ⟨hfresh.1.1.1, hfresh.1.1.2, hfresh.1.2, hfresh.2⟩
  | free ptr =>
    simp only [Client.check, List.any_eq_true, beq_iff_eq] at h
    exact h
  | write a v =>
    simp only [Client.check, List.any_eq_true, Bool.and_eq_true, decide_eq_true_eq] at h
    exact h

/-- A page is obtained and split; a block is written, another one allocated, and the first
one freed. -/
theorem sound_run_splits :
    Sound 0x600000 ((Client.boot 0x600000 fun _ => 0).run 0x600000 [.malloc 2000 0x10000,
      .write 0x10018 0xff, .malloc 1000 0, .free 0x10018]) :=
  sound_run (by decide) (always_of_check (c := Client.check 0x600000) (by decide +kernel)
    fun _ _ => legal_of_check)

end SadOS.Libc.Malloc
