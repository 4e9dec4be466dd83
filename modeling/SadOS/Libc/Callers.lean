import SadOS.Libc.Inside

/-!
# Runs with blocks of all sizes

Callers of `malloc` and `free` with blocks of up to a page and with areas of their own.
As long as requests have the sizes that `malloc` gets right, and no whole page is freed
next to a page that is not the allocator's or is free itself, the headers of all blocks
and areas stay as they should be.

## Main definitions

* `Caller` — the allocator, the blocks and the areas in use, with `Caller.step`.
* `Caller.Legal` — a step of a caller that keeps to its memory.
* `Caller.Fits` — a step that `malloc.c` gets right.
* `Caller.Inv` — the invariant.
* `frees_inside_iff` — which blocks can be freed.
-/

namespace SadOS.Libc.Malloc

/-! ## Steps -/

/-- Areas that do not meet. -/
def Apart (p q : ℕ × ℕ) : Prop := p.1 + p.2 ≤ q.1 ∨ q.1 + q.2 ≤ p.1

/-- An area of pages apart from `_free` and from others. -/
structure ClearOf (base : ℕ) (areas : List (ℕ × ℕ)) (p : ℕ × ℕ) : Prop where
  aligned : p.1 % 4096 = 0
  fits : p.1 + p.2 ≤ 2 ^ 64
  base : p.1 + p.2 ≤ base ∨ base + 104 ≤ p.1
  apart : ∀ q ∈ areas, Apart p q

/-- The allocator, the blocks in use, and the areas in use with their lengths. -/
structure Caller where
  heap : Heap
  blocks : List Block
  huge : List (ℕ × ℕ)

/-- What `malloc` asks `sendpage` for, if it does. -/
def askedFor (s : ℕ) : ℕ :=
  if wadd s sizeofHdr > 0x1000 then alignUp (wadd s sizeofHdr) else 0x1000

namespace Caller

/-- The pages for blocks and the areas in use. -/
def areas (w : Caller) : List (ℕ × ℕ) := buddyPages w.heap ++ w.huge

def step (base : ℕ) (w : Caller) : MallocOp → Caller
  | .malloc s page =>
    let (ptr, heap) := malloc base page s w.heap
    if ptr = 0 then { w with heap := heap }
    else if wadd s sizeofHdr > 0x1000 then
      { w with heap := heap, huge := (ptr - sizeofHdr, askedFor s) :: w.huge }
    else
      { w with
        heap := heap
        blocks := ⟨ptr - sizeofHdr, bitLength (wadd s sizeofHdr), s⟩ :: w.blocks }
  | .free ptr =>
    { heap := free base ptr w.heap
      blocks := w.blocks.filter fun b => b.payload != ptr
      huge := w.huge.filter fun p => p.1 + sizeofHdr != ptr }
  | .write a b => { w with heap.mem := Function.update w.heap.mem a b }

/-- Requests are of type `size_t`, `sendpage` returns new pages, what is freed is in use or
`NULL`, and callers write behind headers. -/
def Legal (base : ℕ) (w : Caller) : MallocOp → Prop
  | .malloc s page => s < 2 ^ 64 ∧ (page ≠ 0 → ClearOf base w.areas (page, askedFor s))
  | .free ptr =>
    ptr = 0 ∨ (∃ b ∈ w.blocks, b.payload = ptr) ∨ ∃ p ∈ w.huge, p.1 + sizeofHdr = ptr
  | .write a _ => (∃ b ∈ w.blocks, b.payload ≤ a ∧ a < b.fin) ∨
      ∃ p ∈ w.huge, p.1 + sizeofHdr ≤ a ∧ a < p.1 + p.2

/-- The steps that `malloc.c` gets right. -/
def Fits (base : ℕ) (w : Caller) : MallocOp → Prop
  | .malloc s page => SizeFits base page s w.heap
  | .free ptr => ∀ b ∈ w.blocks, b.payload = ptr → FreeFits w.heap b.addr b.order
  | .write _ _ => True

/-- Before the first call, after `clear_free`. -/
def boot (base : ℕ) (mem : ℕ → UInt8) : Caller := ⟨⟨clearFree base mem, [], []⟩, [], []⟩

def run (base : ℕ) (w : Caller) (ops : List MallocOp) : Caller := ops.foldl (step base) w

end Caller

/-! ## The invariant -/

/-- An area of a caller's own, with its length in its header. -/
structure HugeArea (base : ℕ) (h : Heap) (p : ℕ × ℕ) : Prop where
  clear : ClearOf base (buddyPages h) p
  pos : p.1 ≠ 0
  len : 4096 < p.2
  flags : flagsOf h.mem p.1 = HUGE
  next : nextOf h.mem p.1 = p.2

/-- The busy blocks are those in use, and the areas are apart. -/
structure Caller.Inv (base : ℕ) (w : Caller) (ord : ℕ → Option ℕ) (ls : Fin 13 → List ℕ) :
    Prop where
  buddies : Buddies base w.heap.mem (buddyPages w.heap) ord ls
  busy : ∀ x k, Busy ord ls x k ↔ ∃ b ∈ w.blocks, b.addr = x ∧ b.order = k
  huge : ∀ p ∈ w.huge, HugeArea base w.heap p
  apart : ∀ p ∈ w.huge, ∀ q ∈ w.huge, p = q ∨ Apart p q

theorem Apart.symm {p q : ℕ × ℕ} (h : Apart p q) : Apart q p := Or.symm h

namespace HugeArea

variable {base : ℕ} {h h' : Heap} {p : ℕ × ℕ}

theorem node (hp : HugeArea base h p) : Node base p.1 := by
  obtain ⟨⟨haligned, hfits, hbase, -⟩, hpos, hlen, -, -⟩ := hp
  exact ⟨by omega, hpos, by omega, by omega⟩

theorem not_inPages (hp : HugeArea base h p) : ¬InPages (buddyPages h) p.1 := by
  rintro ⟨q, hq, hlo, hhi⟩
  have hlen := hp.len
  rcases hp.clear.apart q hq with hapart | hapart <;> omega

/-- The area stays as it is as long as its header does. -/
theorem congr (hp : HugeArea base h p) (hclear : ∀ q ∈ buddyPages h', Apart p q)
    (hnext : nextOf h'.mem p.1 = nextOf h.mem p.1)
    (hflags : flagsOf h'.mem p.1 = flagsOf h.mem p.1) : HugeArea base h' p :=
  ⟨⟨hp.clear.aligned, hp.clear.fits, hp.clear.base, hclear⟩, hp.pos, hp.len,
    hflags.trans hp.flags, hnext.trans hp.next⟩

theorem keeps (hp : HugeArea base h p) (hclear : ∀ q ∈ buddyPages h', Apart p q)
    (hkeeps : Keeps base (buddyPages h') h.mem h'.mem) : HugeArea base h' p := by
  have hout : ¬InPages (buddyPages h') p.1 := by
    rintro ⟨q, hq, hlo, hhi⟩
    have hlen := hp.len
    rcases hclear q hq with hapart | hapart <;> omega
  obtain ⟨hnext, hflags⟩ := hkeeps p.1 hp.node hout
  exact hp.congr hclear hnext hflags

/-- Bytes elsewhere do not matter. -/
theorem frame (hp : HugeArea base h p) (hpages : buddyPages h' = buddyPages h)
    (hmem : ∀ j < 24, h'.mem (p.1 + j) = h.mem (p.1 + j)) : HugeArea base h' p :=
  hp.congr (hpages ▸ hp.clear.apart) (readWord_congr fun j hj => hmem j (by omega))
    (hmem 16 (by decide))

end HugeArea

/-! ## Results of `malloc` -/

section malloc

variable {base page s : ℕ} {h : Heap}

/-- A request that fails changes nothing. -/
theorem malloc_of_null (hnull : (malloc base page s h).1 = 0) : malloc base page s h = (0, h) := by
  rw [malloc] at hnull ⊢
  by_cases hhuge : wadd s sizeofHdr > 0x1000
  · rw [if_pos hhuge] at hnull ⊢
    by_cases hpage : page = 0
    · simp only [if_pos hpage]
    · simp only [if_neg hpage, sizeofHdr] at hnull
      omega
  rw [if_neg hhuge] at hnull ⊢
  dsimp only at hnull ⊢
  split
  next => rfl
  next hlist =>
    rw [if_neg hlist] at hnull
    exact absurd hnull (Nat.succ_ne_zero _)

/-- A huge request: the area is obtained and gets a header. -/
theorem malloc_huge (hsize : 4096 < wadd s sizeofHdr) (hpage : page ≠ 0) :
    malloc base page s h = (page + sizeofHdr,
      { (allocNew page (wadd s sizeofHdr) h).2 with
        mem := setNext (setFlags (allocNew page (wadd s sizeofHdr) h).2.mem page HUGE) page
          (alignUp (wadd s sizeofHdr)) }) := by
  rw [malloc, if_pos hsize]
  simp only [if_neg hpage]
  rfl

theorem alignUp_bounds {n : ℕ} (hlo : 4096 < n) (hhi : n ≤ 2 ^ 64 - 4096) :
    4096 < alignUp n ∧ alignUp n < 2 ^ 64 := by
  rw [alignUp]
  omega

/-- Nothing changes outside the area. -/
theorem malloc_huge_apply (hsize : 4096 < wadd s sizeofHdr) (hpage : page ≠ 0)
    (hlen : 4096 < alignUp (wadd s sizeofHdr)) {a : ℕ}
    (ha : a < page ∨ page + alignUp (wadd s sizeofHdr) ≤ a) :
    (malloc base page s h).2.mem a = h.mem a := by
  rw [malloc_huge hsize hpage]
  have hne : a ≠ page + 16 := by omega
  calc writeWord (setFlags (allocNew page (wadd s sizeofHdr) h).2.mem page HUGE) page
        (alignUp (wadd s sizeofHdr)) a
      = setFlags (allocNew page (wadd s sizeofHdr) h).2.mem page HUGE a :=
        writeWord_apply _ _ (by omega)
    _ = (allocNew page (wadd s sizeofHdr) h).2.mem a := Function.update_of_ne hne _ _
    _ = h.mem a := if_neg fun hin => by
        change page ≤ a ∧ a < page + alignUp (wadd s sizeofHdr) at hin
        omega

theorem buddyPages_malloc_huge (hsize : 4096 < wadd s sizeofHdr) (hpage : page ≠ 0)
    (hlen : 4096 < alignUp (wadd s sizeofHdr)) :
    buddyPages (malloc base page s h).2 = buddyPages h := by
  rw [malloc_huge hsize hpage]
  refine List.filter_cons_of_neg ?_
  rw [decide_eq_true_eq]
  exact hlen.ne'

/-- The area of a huge request. -/
theorem hugeArea_malloc (hsize : 4096 < wadd s sizeofHdr) (hle : wadd s sizeofHdr ≤ 2 ^ 64 - 4096)
    (hpage : page ≠ 0) (hclear : ClearOf base (buddyPages h) (page, alignUp (wadd s sizeofHdr))) :
    HugeArea base (malloc base page s h).2 (page, alignUp (wadd s sizeofHdr)) := by
  obtain ⟨hlen, hlt⟩ := alignUp_bounds hsize hle
  refine ⟨?_, hpage, hlen, ?_, ?_⟩
  · rw [buddyPages_malloc_huge hsize hpage hlen]
    exact hclear
  · rw [malloc_huge hsize hpage]
    exact (writeWord_apply _ _ (by omega)).trans (Function.update_self _ _ _)
  · rw [malloc_huge hsize hpage]
    exact readWord_writeWord _ _ hlt

end malloc

/-! ## Every step keeps the invariant -/

namespace Caller.Inv

variable {base : ℕ} {w : Caller} {ord : ℕ → Option ℕ} {ls : Fin 13 → List ℕ}

theorem busy_of_mem (hw : w.Inv base ord ls) {b : Block} (hb : b ∈ w.blocks) :
    Busy ord ls b.addr b.order := (hw.busy _ _).2 ⟨b, hb, rfl, rfl⟩

/-- A request that fails. -/
theorem malloc_null (hw : w.Inv base ord ls) {s page : ℕ}
    (hnull : (malloc base page s w.heap).1 = 0) :
    (w.step base (.malloc s page)).Inv base ord ls := by
  rw [step, malloc_of_null hnull]
  exact hw

/-- A request for a block. -/
theorem malloc_small (hw : w.Inv base ord ls) {s page : ℕ} (hs : s + sizeofHdr ≤ 4095)
    (hclear : page ≠ 0 → ClearOf base w.areas (page, askedFor s)) :
    ∃ ord' ls', (w.step base (.malloc s page)).Inv base ord' ls' := by
  have hsum : wadd s sizeofHdr = s + 24 := by
    rw [wadd, sizeofHdr] at *
    omega
  have hnot : ¬wadd s sizeofHdr > 0x1000 := by
    rw [hsum]
    rw [sizeofHdr] at hs
    omega
  have hasked : askedFor s = 4096 := if_neg hnot
  have hnew : (malloc base page s w.heap).2.pages ≠ w.heap.pages →
      Fresh base (buddyPages w.heap) page := by
    intro hne
    have hc := hasked ▸ hclear (page_ne_zero hne)
    exact ⟨hc.aligned, hc.fits, hc.base, fun p hp => hc.apart p (List.mem_append_left _ hp)⟩
  rcases hw.buddies.mallocBlock hs hnew with
    hnull | ⟨x, pages', ord', ls', hret, hobtains, hkeeps, hb', -, hbusy⟩
  · exact ⟨ord, ls, hw.malloc_null (congrArg Prod.fst hnull)⟩
  have hpages := hobtains.buddyPages_eq
  have hapart : ∀ p ∈ w.huge, ∀ q ∈ pages', Apart p q := by
    intro p hp q hq
    rcases hobtains with ⟨-, rfl⟩ | ⟨hall, rfl⟩
    · exact (hw.huge p hp).clear.apart q hq
    rcases List.mem_cons.1 hq with rfl | hq
    · have hne : (malloc base page s w.heap).2.pages ≠ w.heap.pages := by
        rw [hall]
        exact List.cons_ne_self _ _
      have hc := hasked ▸ hclear (page_ne_zero hne)
      exact (hc.apart p (List.mem_append_right _ hp)).symm
    · exact (hw.huge p hp).clear.apart q hq
  refine ⟨ord', ls', ?_⟩
  rw [step]
  generalize malloc base page s w.heap = r at hret hpages hkeeps hb' ⊢
  obtain ⟨ptr, heap⟩ := r
  dsimp only at hret hpages hkeeps hb' ⊢
  subst hpages
  rw [if_neg (by omega), if_neg hnot, hret, hsum]
  refine ⟨hb', fun y k => ?_, fun p hp => (hw.huge p hp).keeps (hapart p hp) hkeeps, hw.apart⟩
  rw [hbusy, hw.busy]
  simp only [List.mem_cons, exists_eq_or_imp]
  refine or_congr ⟨?_, ?_⟩ Iff.rfl
  · rintro ⟨rfl, rfl⟩
    exact ⟨rfl, rfl⟩
  · rintro ⟨rfl, rfl⟩
    exact ⟨rfl, rfl⟩

/-- A request for an area. -/
theorem malloc_area (hw : w.Inv base ord ls) {s page : ℕ} (hsize : 4096 < wadd s sizeofHdr)
    (hle : wadd s sizeofHdr ≤ 2 ^ 64 - 4096) (hpage : page ≠ 0)
    (hclear : ClearOf base w.areas (page, askedFor s)) :
    (w.step base (.malloc s page)).Inv base ord ls := by
  have hasked : askedFor s = alignUp (wadd s sizeofHdr) := if_pos hsize
  rw [hasked] at hclear
  obtain ⟨hlen, -⟩ := alignUp_bounds hsize hle
  have hpages : buddyPages (malloc base page s w.heap).2 = buddyPages w.heap :=
    buddyPages_malloc_huge hsize hpage hlen
  have hmem {a : ℕ} (ha : a < page ∨ page + alignUp (wadd s sizeofHdr) ≤ a) :
      (malloc base page s w.heap).2.mem a = w.heap.mem a :=
    malloc_huge_apply hsize hpage hlen ha
  have hnewArea := hugeArea_malloc (h := w.heap) hsize hle hpage
    ⟨hclear.aligned, hclear.fits, hclear.base,
      fun q hq => hclear.apart q (List.mem_append_left _ hq)⟩
  have hret : (malloc base page s w.heap).1 = page + sizeofHdr := by
    rw [malloc_huge hsize hpage]
  rw [step]
  generalize malloc base page s w.heap = r at hret hpages hmem hnewArea ⊢
  obtain ⟨ptr, heap⟩ := r
  dsimp only at hret hpages hmem hnewArea ⊢
  have hptr : ¬page + sizeofHdr = 0 := Nat.succ_ne_zero _
  rw [hret, if_neg hptr, if_pos hsize, Nat.add_sub_cancel, hasked]
  have hout {q : ℕ × ℕ} (hq : q ∈ w.areas) {a : ℕ} (hlo : q.1 ≤ a) (hhi : a < q.1 + q.2) :
      heap.mem a = w.heap.mem a := by
    have hapart := hclear.apart q hq
    rw [Apart] at hapart
    exact hmem (by omega)
  have hold : ∀ p ∈ w.huge, HugeArea base heap p := by
    intro p hp
    have hlen := (hw.huge p hp).len
    exact (hw.huge p hp).frame hpages fun j hj =>
      hout (List.mem_append_right _ hp) (Nat.le_add_right _ _) (by omega)
  refine ⟨?_, hw.busy, fun p hp => ?_, fun p hp q hq => ?_⟩
  · dsimp only
    rw [hpages]
    refine hw.buddies.frame (fun x k hx j hj => ?_) fun j hj => ?_
    · obtain ⟨q, hq, hlo, hhi⟩ := hw.buddies.blocks.page_of hx
      have hsize := Nat.le_of_dvd (two_pow_pos k)
        (thirtyTwo_dvd (hw.buddies.blocks.order x k hx).1)
      exact hout (List.mem_append_left _ hq) (by dsimp only; omega) (by dsimp only; omega)
    · have hbase := hclear.base
      dsimp only at hbase
      exact hmem (by omega)
  · rcases List.mem_cons.1 hp with rfl | hp
    · exact hnewArea
    · exact hold p hp
  · have hnew {q : ℕ × ℕ} (hq : q ∈ w.huge) := hclear.apart q (List.mem_append_right _ hq)
    rcases List.mem_cons.1 hp with rfl | hp <;> rcases List.mem_cons.1 hq with rfl | hq
    · exact .inl rfl
    · exact .inr (hnew hq)
    · exact .inr (hnew hp).symm
    · exact hw.apart p hp q hq

theorem mem_filter_blocks {ptr : ℕ} {c : Block} :
    c ∈ (w.blocks.filter fun b => b.payload != ptr) ↔ c ∈ w.blocks ∧ c.payload ≠ ptr := by
  rw [List.mem_filter, bne_iff_ne]

/-- What is left of the areas is apart. -/
theorem apart_filter (hw : w.Inv base ord ls) (P : ℕ × ℕ → Bool) :
    ∀ p ∈ w.huge.filter P, ∀ q ∈ w.huge.filter P, p = q ∨ Apart p q :=
  fun p hp q hq => hw.apart p (List.mem_of_mem_filter hp) q (List.mem_of_mem_filter hq)

/-- A call that changes no header and frees no block. -/
theorem free_other (hw : w.Inv base ord ls) {ptr : ℕ}
    (hmem : (free base ptr w.heap).mem = w.heap.mem)
    (hpages : (free base ptr w.heap).pages = w.heap.pages) (hne : ∀ b ∈ w.blocks, b.payload ≠ ptr) :
    (w.step base (.free ptr)).Inv base ord ls := by
  have hbuddy : buddyPages (free base ptr w.heap) = buddyPages w.heap := by
    rw [buddyPages, hpages, buddyPages]
  have hblocks : (w.blocks.filter fun b => b.payload != ptr) = w.blocks :=
    List.filter_eq_self.2 fun b hb => bne_iff_ne.2 (hne b hb)
  refine ⟨?_, ?_, fun p hp => ?_, hw.apart_filter _⟩
  · change Buddies base (free base ptr w.heap).mem (buddyPages (free base ptr w.heap)) ord ls
    rw [hmem, hbuddy]
    exact hw.buddies
  · change ∀ x k, Busy ord ls x k ↔ ∃ b ∈ w.blocks.filter _, _
    rw [hblocks]
    exact hw.busy
  · exact (hw.huge p (List.mem_of_mem_filter hp)).frame hbuddy fun j _ =>
      congrFun hmem (p.1 + j)

/-- A block is freed. -/
theorem free_block (hw : w.Inv base ord ls) {b : Block} (hb : b ∈ w.blocks)
    (hfits : FreeFits w.heap b.addr b.order) :
    ∃ ord' ls', (w.step base (.free b.payload)).Inv base ord' ls' := by
  have hbusy := hw.busy_of_mem hb
  have hk : b.order ≤ 11 ∨
      b.order = 12 ∧ flagsOf w.heap.mem (b.addr ^^^ 2 ^ b.order) ≠ FREE ||| 12 := by
    rcases Nat.lt_or_eq_of_le (hw.buddies.blocks.order _ _ hbusy.1).2 with hlt | heq
    · exact .inl (Nat.le_of_lt_succ hlt)
    · exact hfits.imp id fun h => ⟨heq, h.2⟩
  obtain ⟨hpages, hkeeps, ord', ls', hb', hbusy'⟩ := hw.buddies.freeBusy hbusy hk
  have hbuddy : buddyPages (free base b.payload w.heap) = buddyPages w.heap :=
    congrArg (List.filter fun p : ℕ × ℕ => p.2 = 4096) hpages
  have hpayload {c : Block} : c.payload ≠ b.payload ↔ c.addr ≠ b.addr :=
    not_congr Nat.add_right_cancel_iff
  refine ⟨ord', ls', ?_, fun y k => ?_, fun p hp => ?_, hw.apart_filter _⟩
  · change Buddies base _ (buddyPages (free base b.payload w.heap)) ord' ls'
    rw [hbuddy]
    exact hb'
  · rw [hbusy', hw.busy]
    change _ ↔ ∃ c ∈ w.blocks.filter _, _
    constructor
    · rintro ⟨hne, c, hc, rfl, rfl⟩
      exact ⟨c, mem_filter_blocks.2 ⟨hc, hpayload.2 hne⟩, rfl, rfl⟩
    · rintro ⟨c, hc, rfl, rfl⟩
      obtain ⟨hc, hne⟩ := mem_filter_blocks.1 hc
      exact ⟨hpayload.1 hne, c, hc, rfl, rfl⟩
  · have harea := hw.huge p (List.mem_of_mem_filter hp)
    exact harea.keeps (hbuddy ▸ harea.clear.apart) (hbuddy ▸ hkeeps)

/-- `free` of an area unmaps it. -/
theorem free_area (hw : w.Inv base ord ls) {p : ℕ × ℕ} (hp : p ∈ w.huge) :
    (w.step base (.free (p.1 + sizeofHdr))).Inv base ord ls := by
  have harea := hw.huge p hp
  have hsub : wsub (p.1 + sizeofHdr) sizeofHdr = p.1 := by
    have := harea.node.lt
    unfold wsub sizeofHdr
    omega
  have hptr : ¬p.1 + sizeofHdr = 0 := Nat.succ_ne_zero _
  have hflags : flagsOf w.heap.mem p.1 &&& HUGE ≠ 0 := by
    rw [harea.flags]
    decide
  have hfree : free base (p.1 + sizeofHdr) w.heap =
      { w.heap with unmapped := (p.1, nextOf w.heap.mem p.1) :: w.heap.unmapped } := by
    rw [free, if_neg hptr, hsub]
    dsimp only
    rw [if_pos hflags]
  refine hw.free_other (by rw [hfree]) (by rw [hfree]) fun b hb heq => ?_
  have haddr : b.addr = p.1 := Nat.add_right_cancel heq
  exact harea.not_inPages (haddr ▸ hw.buddies.blocks.inPages (hw.busy_of_mem hb).1)

/-- A caller writes to a block or an area. -/
theorem write (hw : w.Inv base ord ls) {a : ℕ} (b : UInt8) (hok : w.Legal base (.write a b)) :
    (w.step base (.write a b)).Inv base ord ls := by
  rcases hok with ⟨c, hc, hlo, hhi⟩ | ⟨p, hp, hlo, hhi⟩
  · have hord := (hw.busy_of_mem hc).1
    obtain ⟨q, hq, hqlo, hqhi⟩ := hw.buddies.blocks.page_of hord
    rw [Block.payload] at hlo
    rw [Block.fin] at hhi
    refine ⟨hw.buddies.write hord hlo hhi b, hw.busy, fun p hp => ?_, hw.apart⟩
    have harea := hw.huge p hp
    have hlen := harea.len
    refine harea.frame rfl fun j hj => Function.update_of_ne ?_ _ _
    rcases harea.clear.apart _ hq with hapart | hapart <;> dsimp only at hapart <;> omega
  · rw [sizeofHdr] at hlo
    have harea := hw.huge p hp
    have hbase := harea.clear.base
    refine ⟨hw.buddies.frame (fun x k hx j hj => Function.update_of_ne ?_ _ _)
      fun j hj => Function.update_of_ne ?_ _ _, hw.busy, fun q hq => ?_, hw.apart⟩
    · obtain ⟨q, hq, hqlo, hqhi⟩ := hw.buddies.blocks.page_of hx
      have hsize := Nat.le_of_dvd (two_pow_pos k)
        (thirtyTwo_dvd (hw.buddies.blocks.order x k hx).1)
      rcases harea.clear.apart _ hq with hapart | hapart <;> dsimp only at hapart <;> omega
    · omega
    · have hq' := hw.huge q hq
      have hlen := hq'.len
      refine hq'.frame rfl fun j hj => Function.update_of_ne ?_ _ _
      rcases hw.apart p hp q hq with rfl | hapart | hapart
      · omega
      · omega
      · omega

/-- Every step that is legal and fits. -/
theorem step (hw : w.Inv base ord ls) {op : MallocOp} (hok : w.Legal base op)
    (hfits : w.Fits base op) : ∃ ord' ls', (w.step base op).Inv base ord' ls' := by
  cases op with
  | malloc s page =>
    obtain ⟨hs, hclear⟩ := hok
    by_cases hnull : (malloc base page s w.heap).1 = 0
    · exact ⟨ord, ls, hw.malloc_null hnull⟩
    have hsize : s + sizeofHdr ≤ 2 ^ 64 - 4096 ∧ s + sizeofHdr ≠ 4096 :=
      hfits.resolve_right fun hfail => hnull (malloc_eq_zero_iff.2 hfail.2)
    have hsum : wadd s sizeofHdr = s + sizeofHdr := Nat.mod_eq_of_lt (by omega)
    rcases Nat.lt_or_gt_of_ne hsize.2 with hsmall | hhuge
    · exact hw.malloc_small (Nat.le_of_lt_succ hsmall) hclear
    · have hpage : page ≠ 0 := fun hzero =>
        hnull (malloc_eq_zero_iff.2 ⟨hzero, .inl (hsum ▸ hhuge)⟩)
      exact ⟨ord, ls, hw.malloc_area (hsum ▸ hhuge) (hsum ▸ hsize.1) hpage (hclear hpage)⟩
  | free ptr =>
    rcases hok with rfl | ⟨b, hb, rfl⟩ | ⟨p, hp, rfl⟩
    · exact ⟨ord, ls, hw.free_other rfl rfl fun b _ => Nat.succ_ne_zero _⟩
    · exact hw.free_block hb (hfits b hb rfl)
    · exact ⟨ord, ls, hw.free_area hp⟩
  | write a b => exact ⟨ord, ls, hw.write b hok⟩

end Caller.Inv

/-! ## Runs -/

theorem caller_inv_boot {base : ℕ} (hbase : base + 104 ≤ 2 ^ 64) (mem : ℕ → UInt8) :
    (Caller.boot base mem).Inv base (fun _ => none) fun _ => [] :=
  ⟨(inv_boot hbase mem).buddies, fun x k => by simp [Busy, Caller.boot], by simp [Caller.boot],
    by simp [Caller.boot]⟩

/-- The invariant holds in every run of steps that are legal and fit. -/
theorem exists_inv_run {base : ℕ} (hbase : base + 104 ≤ 2 ^ 64) {mem : ℕ → UInt8}
    {ops : List MallocOp} (hok : Always (fun w op => Caller.Legal base w op ∧ w.Fits base op)
      (Caller.step base) (Caller.boot base mem) ops) :
    ∃ ord ls, ((Caller.boot base mem).run base ops).Inv base ord ls :=
  foldl_always (I := fun w => ∃ ord ls, w.Inv base ord ls) ⟨_, _, caller_inv_boot hbase mem⟩
    (fun w op hw hop => by
      obtain ⟨ord, ls, hw⟩ := hw
      exact hw.step hop.1 hop.2) hok

/-- **In every run, which blocks `free` handles inside.** -/
theorem frees_inside_iff {base : ℕ} (hbase : base + 104 ≤ 2 ^ 64) {mem : ℕ → UInt8}
    {ops : List MallocOp} (hok : Always (fun w op => Caller.Legal base w op ∧ w.Fits base op)
      (Caller.step base) (Caller.boot base mem) ops) {b : Block}
    (hb : b ∈ ((Caller.boot base mem).run base ops).blocks) :
    FreeInside base ((Caller.boot base mem).run base ops).heap b.payload ↔
      FreeFits ((Caller.boot base mem).run base ops).heap b.addr b.order := by
  obtain ⟨ord, ls, hw⟩ := exists_inv_run hbase hok
  exact freeInside_iff hw.buddies (hw.busy_of_mem hb)

/-! ## A test of steps -/

instance (p q : ℕ × ℕ) : Decidable (Apart p q) :=
  inferInstanceAs (Decidable (p.1 + p.2 ≤ q.1 ∨ q.1 + q.2 ≤ p.1))

instance (base : ℕ) (areas : List (ℕ × ℕ)) (p : ℕ × ℕ) : Decidable (ClearOf base areas p) :=
  decidable_of_iff (p.1 % 4096 = 0 ∧ p.1 + p.2 ≤ 2 ^ 64 ∧
      (p.1 + p.2 ≤ base ∨ base + 104 ≤ p.1) ∧ ∀ q ∈ areas, Apart p q)
    ⟨fun ⟨h₁, h₂, h₃, h₄⟩ => ⟨h₁, h₂, h₃, h₄⟩, fun ⟨h₁, h₂, h₃, h₄⟩ => ⟨h₁, h₂, h₃, h₄⟩⟩

instance (base : ℕ) (w : Caller) : (op : MallocOp) → Decidable (w.Legal base op)
  | .malloc s page => inferInstanceAs
    (Decidable (s < 2 ^ 64 ∧ (page ≠ 0 → ClearOf base w.areas (page, askedFor s))))
  | .free ptr => inferInstanceAs (Decidable
    (ptr = 0 ∨ (∃ b ∈ w.blocks, b.payload = ptr) ∨ ∃ p ∈ w.huge, p.1 + sizeofHdr = ptr))
  | .write a _ => inferInstanceAs (Decidable ((∃ b ∈ w.blocks, b.payload ≤ a ∧ a < b.fin) ∨
      ∃ p ∈ w.huge, p.1 + sizeofHdr ≤ a ∧ a < p.1 + p.2))

instance (base page s : ℕ) (h : Heap) : Decidable (SizeFits base page s h) :=
  inferInstanceAs (Decidable (s + sizeofHdr ≤ 2 ^ 64 - 4096 ∧ s + sizeofHdr ≠ 4096 ∨
    wadd s sizeofHdr ≠ 0 ∧ page = 0 ∧ (4096 < wadd s sizeofHdr ∨
      ∀ i < 13, bitLength (wadd s sizeofHdr) ≤ i → nextOf h.mem (freeSlot base i) = 0)))

instance (h : Heap) (x k : ℕ) : Decidable (FreeFits h x k) :=
  inferInstanceAs (Decidable
    (k ≤ 11 ∨ (x ^^^ 2 ^ k, 4096) ∈ buddyPages h ∧ flagsOf h.mem (x ^^^ 2 ^ k) ≠ FREE ||| 12))

instance (base : ℕ) (w : Caller) : (op : MallocOp) → Decidable (w.Fits base op)
  | .malloc s page => inferInstanceAs (Decidable (SizeFits base page s w.heap))
  | .free ptr => inferInstanceAs
    (Decidable (∀ b ∈ w.blocks, b.payload = ptr → FreeFits w.heap b.addr b.order))
  | .write _ _ => inferInstanceAs (Decidable True)

/-- Two whole pages side by side and an area, which is unmapped; then each of the pages can be
freed. -/
theorem frees_inside_pages : FreeInside 0x600000 ((Caller.boot 0x600000 fun _ => 0).run 0x600000
    [.malloc 3000 0x10000, .malloc 3000 0x11000, .malloc 9000 0x20000, .free 0x20018]).heap
      0x10018 :=
  (frees_inside_iff (b := ⟨0x10000, 12, 3000⟩) (by decide)
    (always_of_check (c := fun w op => decide (Caller.Legal 0x600000 w op ∧ w.Fits 0x600000 op))
      (by decide +kernel) fun _ _ => of_decide_eq_true) (by decide +kernel)).2 (by decide +kernel)

/-- The page of the first block is freed: the allocator looks at the next page, which it has
not obtained. -/
theorem not_frees_inside :
    let w := (Caller.boot 0x600000 fun _ => 0).run 0x600000 [.malloc 3000 0x10000]
    Always (Caller.Legal 0x600000) (Caller.step 0x600000) (Caller.boot 0x600000 fun _ => 0)
      [.malloc 3000 0x10000] ∧ ⟨0x10000, 12, 3000⟩ ∈ w.blocks ∧
      ¬FreeInside 0x600000 w.heap 0x10018 := by
  exact ⟨always_of_check (c := fun w op => decide (Caller.Legal 0x600000 w op)) (by decide +kernel)
    fun _ _ => of_decide_eq_true, by decide +kernel, by decide +kernel⟩

end SadOS.Libc.Malloc
