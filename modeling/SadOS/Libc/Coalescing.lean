import SadOS.Libc.Buddy

/-!
# Coalescing

`free` joins a block with its buddy if the buddy is free, and puts the result on the list of the
next order.  It does not look for the buddy of the result.  As long as that is not free either, no
two buddies are free, and when everything is freed each page is one block.

## Main definitions

* `OnList` — the free lists in memory.
* `FullyCoalesced` — no two buddies are free.
* `Client.MergesOnce` — `free` needs no second merge.

## Main results

* `onList_iff` — the free lists of the invariant are those in memory.
* `fullyCoalesced_run` — runs in which one merge is always enough.
-/

namespace SadOS.Libc.Malloc

/-- A header is on the list of an order. -/
inductive OnList (base : ℕ) (m : ℕ → UInt8) (i : ℕ) : ℕ → Prop
  | first (h : nextOf m (freeSlot base i) ≠ 0) : OnList base m i (nextOf m (freeSlot base i))
  | next {x : ℕ} (hx : OnList base m i x) (h : nextOf m x ≠ 0) : OnList base m i (nextOf m x)

/-- No two free blocks up to an order are buddies, and with all blocks free each page is one. -/
structure FullyCoalesced (base top : ℕ) (w : Client) : Prop where
  apart : Coalesced top (OnList base w.heap.mem)
  whole : w.live = [] → ∀ p ∈ w.heap.pages, OnList base w.heap.mem 12 p.1

/-- If a block that is freed joins its buddy, then the buddy of the result is not free. -/
def Client.MergesOnce (base top : ℕ) (w : Client) (op : MallocOp) : Prop :=
  ∀ b, w.Frees op b →
    flagsOf w.heap.mem (b.addr ^^^ 2 ^ b.order) = FREE ||| UInt8.ofNat b.order → b.order + 1 ≤ top →
    ¬OnList base w.heap.mem (b.order + 1) (min b.addr (b.addr ^^^ 2 ^ b.order) ^^^ 2 ^ (b.order + 1))

section lists

variable {base : ℕ} {m : ℕ → UInt8} {ls : Fin 13 → List ℕ} {i : Fin 13} {x : ℕ}

/-- What links lead to is on the list. -/
theorem onList_of_linked {l : List ℕ} {h : ℕ} (hl : Linked (linksOf m) h l)
    (hh : h = freeSlot base i ∨ OnList base m i h) (hx : x ∈ l) : OnList base m i x := by
  induction l generalizing h with
  | nil => cases hx
  | cons y rest ih =>
    obtain ⟨hy, hy0, -, hrest⟩ := hl
    have hnext : nextOf m h = y := hy
    have hon : OnList base m i y := by
      rcases hh with rfl | hh
      · rw [← hnext] at hy0 ⊢
        exact .first hy0
      · rw [← hnext] at hy0 ⊢
        exact .next hh hy0
    rcases List.mem_cons.1 hx with rfl | hx
    · exact hon
    · exact ih hrest (.inr hon) hx

/-- The lists in memory. -/
theorem onList_iff (h : Lists (linksOf m) (heads base) ls) : OnList base m i x ↔ x ∈ ls i := by
  constructor
  · intro hx
    induction hx with
    | first h0 =>
      obtain ⟨rest, hls⟩ := h.exists_cons (i := i) rfl h0
      rw [hls]
      exact List.mem_cons_self
    | next _ h0 ih => exact ((h.linked i).next_mem ih).resolve_left h0
  · exact onList_of_linked (h.linked i) (.inl rfl)

/-- The free blocks of the invariant are those in memory. -/
theorem freeAt_iff (h : Lists (linksOf m) (heads base) ls) {k : ℕ} (hk : k ≤ 12) :
    FreeAt ls k x ↔ OnList base m k x :=
  (freeAt_val (i := ⟨k, Nat.lt_succ_of_le hk⟩)).trans (onList_iff h).symm

theorem coalesced_iff (h : Lists (linksOf m) (heads base) ls) {top : ℕ} (htop : top ≤ 12) :
    Coalesced top (FreeAt ls) ↔ Coalesced top (OnList base m) := by
  refine forall_congr' fun k => forall_congr' fun hk => forall_congr' fun x => ?_
  rw [freeAt_iff h (hk.trans htop), freeAt_iff h (hk.trans htop)]

end lists

section runs

variable {base top : ℕ} {w : Client} {ord : ℕ → Option ℕ} {ls : Fin 13 → List ℕ}

/-- With all blocks free, each has the order of a page. -/
theorem Inv.order_eq (h : Inv base w ord ls) (htop : 11 ≤ top) (hc : Coalesced top (FreeAt ls))
    (hlive : w.live = []) {x k : ℕ} (hx : ord x = some k) : x ∈ ls 12 ∧ k = 12 := by
  have hfree : ∀ y j, ord y = some j → FreeAt ls j y := by
    intro y j hy
    by_contra hnot
    have hbusy : Busy ord ls y j := by
      refine ⟨hy, fun i hi => hnot ⟨i, ?_, hi⟩⟩
      have hord := (h.buddies.free i y hi).1
      rw [hy, Option.some.injEq] at hord
      exact hord.symm
    obtain ⟨b, hb, -⟩ := (h.busy y j).1 hbusy
    rw [hlive] at hb
    cases hb
  have hc' : Coalesced 11 (FreeAt ls) := fun j hj => hc j (hj.trans htop)
  have hlt := hc'.lt_order h.buddies.blocks.tiles hfree (fun y j hy hj => by
    obtain ⟨i, -, hi⟩ := h.buddies.blocks.buddy hy hj
    exact h.buddies.blocks.inPages hi) hx
  have hle := (h.buddies.blocks.order x k hx).2
  obtain rfl : k = 12 := by omega
  exact ⟨(freeAt_val (i := 12)).1 (hfree x 12 hx), rfl⟩

/-- With all blocks free, each page is a block. -/
theorem Inv.page_mem (h : Inv base w ord ls) (htop : 11 ≤ top) (hc : Coalesced top (FreeAt ls))
    (hlive : w.live = []) {p : ℕ × ℕ} (hp : p ∈ w.heap.pages) : p.1 ∈ ls 12 := by
  obtain ⟨hsize, haligned, -⟩ := h.buddies.blocks.pages p hp
  have hin : InPages w.heap.pages p.1 := ⟨p, hp, le_rfl, by omega⟩
  obtain ⟨x, k, hx, hlo, hhi⟩ := (h.buddies.blocks.tiles.covers p.1).1 hin
  obtain ⟨hmem, rfl⟩ := h.order_eq htop hc hlive hx
  have hdvd := h.buddies.blocks.tiles.aligned x 12 hx
  have hxp : x = p.1 := by omega
  rwa [← hxp]

theorem Inv.fullyCoalesced (h : Inv base w ord ls) (hlo : 11 ≤ top) (hhi : top ≤ 12)
    (hc : Coalesced top (FreeAt ls)) : FullyCoalesced base top w :=
  ⟨(coalesced_iff h.buddies.lists hhi).1 hc, fun hlive _ hp =>
    (onList_iff (i := 12) h.buddies.lists).2 (h.page_mem hlo hc hlive hp)⟩

/-- A call that needs one merge at most. -/
theorem Inv.step_coalesced (h : Inv base w ord ls) (hhi : top ≤ 12) (hc : Coalesced top (FreeAt ls))
    {op : MallocOp} (hok : w.Legal base op) (honce : w.MergesOnce base top op) :
    ∃ ord' ls', Inv base (w.step base op) ord' ls' ∧ Coalesced top (FreeAt ls') := by
  obtain ⟨ord', ls', h', hcoal⟩ := h.step hok
  refine ⟨ord', ls', h', hcoal top (fun b hb hflags hle => ?_) hc⟩
  rw [freeAt_iff h.buddies.lists (hle.trans hhi)]
  exact honce b hb hflags hle

end runs

/-- No two buddies are free in runs in which `free` never needs a second merge, and each page is
one block when nothing is in use.  With `top = 11` these are the buddies inside pages, and with
`top = 12` pages count as buddies too. -/
theorem fullyCoalesced_run {base top : ℕ} (hbase : base + 104 ≤ 2 ^ 64) (hlo : 11 ≤ top)
    (hhi : top ≤ 12) {mem : ℕ → UInt8} {ops : List MallocOp}
    (hok : Always (fun w op => w.Legal base op ∧ w.MergesOnce base top op) (Client.step base)
      (Client.boot base mem) ops) :
    FullyCoalesced base top ((Client.boot base mem).run base ops) := by
  have hinv : ∃ ord ls, Inv base ((Client.boot base mem).run base ops) ord ls ∧
      Coalesced top (FreeAt ls) :=
    foldl_always (I := fun w => ∃ ord ls, Inv base w ord ls ∧ Coalesced top (FreeAt ls))
      ⟨_, _, inv_boot hbase mem, fun k _ x hx => by simp [FreeAt] at hx⟩
      (fun w op hw hop => by
        obtain ⟨ord, ls, h, hc⟩ := hw
        exact h.step_coalesced hhi hc hop.1 hop.2) hok
  obtain ⟨ord, ls, h, hc⟩ := hinv
  exact h.fullyCoalesced hlo hhi hc

/-! ## Two runs -/

/-- A sufficient test for `Client.MergesOnce`: the buddy is not free, or the order is the last. -/
def Client.mergesCheck (top : ℕ) (w : Client) : MallocOp → Bool
  | .free ptr => w.live.all fun b => b.payload != ptr || decide (top < b.order + 1) ||
      flagsOf w.heap.mem (b.addr ^^^ 2 ^ b.order) != FREE ||| UInt8.ofNat b.order
  | _ => true

theorem mergesOnce_of_check {base top : ℕ} {w : Client} {op : MallocOp}
    (h : w.mergesCheck top op = true) : w.MergesOnce base top op := by
  rintro b ⟨hb, rfl⟩ hflags hle
  have hcheck := List.all_eq_true.1 h b hb
  simp [hflags] at hcheck
  omega

/-- A block of half a page and its buddy. -/
theorem fullyCoalesced_run_halves :
    FullyCoalesced 0x600000 11 ((Client.boot 0x600000 fun _ => 0).run 0x600000
      [.malloc 2000 0x10000, .malloc 900 0, .free 0x10018, .malloc 2000 0x20000, .free 0x10018]) :=
  fullyCoalesced_run (by decide) (by decide) (by decide)
    (always_of_check (c := fun w op => Client.check 0x600000 w op && w.mergesCheck 11 op)
      (by decide +kernel) fun _ _ hc =>
        ⟨legal_of_check (Bool.and_eq_true_iff.1 hc).1, mergesOnce_of_check (Bool.and_eq_true_iff.1 hc).2⟩)

/-- A quarter of a page joins its buddy, and two free halves are left. -/
theorem not_fullyCoalesced_quarter :
    ¬∀ ops, Always (Client.Legal 0x600000) (Client.step 0x600000)
        (Client.boot 0x600000 fun _ => 0) ops →
      FullyCoalesced 0x600000 11 ((Client.boot 0x600000 fun _ => 0).run 0x600000 ops) := by
  intro hall
  have h := hall [.malloc 900 0x10000, .free 0x10018]
    (always_of_check (c := Client.check 0x600000) (by decide +kernel) fun _ _ => legal_of_check)
  obtain ⟨w, hw⟩ : ∃ w, w = (Client.boot 0x600000 fun _ => 0).run 0x600000
    [.malloc 900 0x10000, .free 0x10018] := ⟨_, rfl⟩
  have hfirst : nextOf w.heap.mem (freeSlot 0x600000 11) = 0x10000 := by
    rw [hw]
    decide +kernel
  have hnext : nextOf w.heap.mem 0x10000 = 0x10800 := by
    rw [hw]
    decide +kernel
  rw [← hw] at h
  have hlo : OnList 0x600000 w.heap.mem 11 0x10000 := by
    rw [← hfirst]
    exact .first (by rw [hfirst]; decide)
  have hhi : OnList 0x600000 w.heap.mem 11 0x10800 := by
    rw [← hnext]
    exact .next hlo (by rw [hnext]; decide)
  exact h.apart 11 (by decide) 0x10000 hlo hhi

end SadOS.Libc.Malloc
