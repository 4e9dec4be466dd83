import SadOS.Mm.MapLarge
import SadOS.Lib.Chain

/-!
# The direct map

The last loop of `page_allocator_init` maps the usable memory at `KERN_VMBASE`: each range
by pages of 4K up to a multiple of 2M, by pages of 2M from there on, and by pages of 4K
again for what is left.  The three loops count with an `int`.  If the range contains no
multiple of 2M, the third loop begins before the range does.

## Main definitions

* `mapRanges` — the source.
* `rangeCalls` — the calls of `map_page` for one range.
* `MapsExactly` — each whole page is mapped once, and nothing else is.
* `FitsLoops` — the ranges that the loops cut right.

## Main results

* `mapRanges_eq` — the loops are their calls.
* `mapCalls_ok` — calls for different pages.
* `mapsExactly_iff` — when the map is right.
-/

namespace SadOS.Mm.Paging

/-! ## The source -/

/-- `ALIGN`. -/
def align (x n : ℕ) : ℕ := x - x % 2 ^ n

/-- `ALIGN_UP`. -/
def alignUp (x n : ℕ) : ℕ := align (wadd x (2 ^ n - 1)) n

/-- The conversion of a `uint64_t` to an `int`. -/
def toInt (x : ℕ) : ℤ :=
  if x % 2 ^ 32 < 2 ^ 31 then (x % 2 ^ 32 : ℕ) else (x % 2 ^ 32 : ℕ) - 2 ^ 32

/-- The conversion of an `int` to a `uint64_t`. -/
def toU64 (i : ℤ) : ℕ := (i % 2 ^ 64).toNat

/-- The values of `i` in `for (i = lo; i < hi; i += step)`, with the rounds that are left. -/
def forInt (step : ℕ) (hi : ℤ) : ℕ → ℤ → List ℤ
  | 0, _ => []
  | n + 1, i => if i < hi then i :: forInt step hi n (toInt (wadd (toU64 i) step)) else []

/-- The size of a page of each level. -/
def pageSize (pgsize : ℕ) : ℕ := 4096 * 512 ^ pgsize

/-- The values of `i` in a loop over pages from `lo` up to `hi`. -/
def pagesInt (lo hi : ℤ) (pgsize : ℕ) : List ℤ :=
  forInt (pageSize pgsize) hi ((hi - lo).toNat / pageSize pgsize + 1) lo

/-- The call `map_page(i, KERN_VMBASE+i, pgsize, PTE_W)`. -/
structure MapCall where
  addr : ℕ
  pgsize : ℕ
  deriving DecidableEq, Repr

section

variable (cr3 : ℕ) (gpp : ℕ → ℕ)

def mapCall (s : Tables) (c : MapCall) : Except Fault Tables :=
  mapPage cr3 gpp s c.addr (wadd KERN_VMBASE c.addr) c.pgsize PTE_W

/-- One of the loops over the pages of a range. -/
def mapLoop (lo hi : ℤ) (pgsize : ℕ) (s : Tables) : Except Fault Tables :=
  (pagesInt lo hi pgsize).foldlM (fun s i => mapCall cr3 gpp s ⟨toU64 i, pgsize⟩) s

/-- The body of the loop of `page_allocator_init` over the ranges. -/
def mapRange (s : Tables) (mr : MemoryRange) : Except Fault Tables := do
  let begin := toInt (alignUp mr.base 12)
  let stop := toInt (align (wadd mr.base mr.length) 12)
  let end2 := toInt (alignUp (toU64 begin) 21)
  let end3 := toInt (align (wadd mr.base mr.length) 21)
  let s ← mapLoop cr3 gpp begin (min stop end2) 0 s
  let s ← mapLoop cr3 gpp end2 end3 1 s
  mapLoop cr3 gpp end3 stop 0 s

/-- The loop of `page_allocator_init` over the ranges. -/
def mapRanges (s : Tables) (ranges : List MemoryRange) : Except Fault Tables :=
  ranges.foldlM (mapRange cr3 gpp) s

end

/-! ## What it should do -/

def MapCall.size (c : MapCall) : ℕ := pageSize c.pgsize

/-- The calls of one of the loops. -/
def loopCalls (lo hi : ℤ) (pgsize : ℕ) : List MapCall :=
  (pagesInt lo hi pgsize).map fun i => ⟨toU64 i, pgsize⟩

/-- The calls for one range. -/
def rangeCalls (mr : MemoryRange) : List MapCall :=
  let begin := toInt (alignUp mr.base 12)
  let stop := toInt (align (wadd mr.base mr.length) 12)
  let end2 := toInt (alignUp (toU64 begin) 21)
  let end3 := toInt (align (wadd mr.base mr.length) 21)
  loopCalls begin (min stop end2) 0 ++ loopCalls end2 end3 1 ++ loopCalls end3 stop 0

/-- The page at `p` lies in the range. -/
def WholePage (mr : MemoryRange) (p : ℕ) : Prop :=
  p % 4096 = 0 ∧ mr.base ≤ p ∧ p + 4096 ≤ mr.base + mr.length

instance (mr : MemoryRange) (p : ℕ) : Decidable (WholePage mr p) :=
  inferInstanceAs (Decidable (_ ∧ _))

/-- The call maps the page at `p`. -/
def MapCall.Covers (c : MapCall) (p : ℕ) : Prop := c.addr ≤ p ∧ p + 4096 ≤ c.addr + c.size

instance (c : MapCall) (p : ℕ) : Decidable (c.Covers p) := inferInstanceAs (Decidable (_ ∧ _))

/-- The call is for a page of 4K or 2M, at a multiple of its size. -/
structure MapCall.Aligned (c : MapCall) : Prop where
  level : c.pgsize ≤ 1
  addr : c.addr % c.size = 0

/-- The indices of the entry that a call sets. -/
def MapCall.entry (c : MapCall) : List ℕ :=
  (path (wadd KERN_VMBASE c.addr)).take (4 - c.pgsize)

/-- Tables in which nothing is mapped yet where the calls map, and a supply of frames for
new tables. -/
structure Prepared (cr3 : ℕ) (gpp : ℕ → ℕ) (calls : List MapCall) (s : Tables) : Prop where
  ready : Ready cr3 gpp (3 * calls.length) s
  absent : ∀ c ∈ calls, Absent s.mem cr3 c.entry

/-- The two halves of the addresses that a processor accepts. -/
def Canonical (va : ℕ) : Prop := va < 2 ^ 47 ∨ 2 ^ 64 - 2 ^ 47 ≤ va ∧ va < 2 ^ 64

/-- The calls stay inside their ranges and map each whole page once, so that none of them
panics, and afterwards the pages are mapped and no address outside the ranges is that was
not before. -/
structure MapsExactly (ranges : List MemoryRange) : Prop where
  inside : ∀ mr ∈ ranges, ∀ c ∈ rangeCalls mr,
    mr.base ≤ c.addr ∧ c.addr + c.size ≤ mr.base + mr.length
  once : ∀ mr ∈ ranges, ∀ p, WholePage mr p →
    (ranges.flatMap rangeCalls).countP (fun c => c.Covers p) = 1
  mapped : ∀ cr3 gpp s, Prepared cr3 gpp (ranges.flatMap rangeCalls) s →
    ∃ s', mapRanges cr3 gpp s ranges = .ok s' ∧
      (∀ mr ∈ ranges, ∀ p, WholePage mr p → ∀ o < 4096,
        translate s'.mem cr3 (KERN_VMBASE + p + o) = some (p + o)) ∧
      ∀ va, Canonical va → index va 0 ≠ 256 →
        (∀ mr ∈ ranges, ¬(KERN_VMBASE + mr.base ≤ va ∧
          va < KERN_VMBASE + mr.base + mr.length)) →
        leaf s'.mem cr3 va = leaf s.mem cr3 va

/-- The ranges that the loops cut right: those with a multiple of 2M between their first and
their last page, those that end with a page before one, and, with the end at 2G, those without
a whole page. -/
def FitsLoops (mr : MemoryRange) : Prop :=
  (mr.base + mr.length = 2 ^ 31 ∧ align (mr.base + mr.length) 12 ≤ alignUp mr.base 12) ∨
    (mr.base + mr.length < 2 ^ 31 ∧ mr.base ≤ 2 ^ 31 - 2 ^ 21 ∧
      (alignUp mr.base 21 ≤ align (mr.base + mr.length) 21 ∨
        align (mr.base + mr.length) 12 = align (mr.base + mr.length) 21))

instance (mr : MemoryRange) : Decidable (FitsLoops mr) := inferInstanceAs (Decidable (_ ∨ _))

/-- No two ranges have a whole page in common. -/
def NoSharedPage (ranges : List MemoryRange) : Prop :=
  ranges.Pairwise fun mr mr' => ∀ p, ¬(WholePage mr p ∧ WholePage mr' p)

/-! ## The loops and their calls -/

section Calls

variable (cr3 : ℕ) (gpp : ℕ → ℕ) (s : Tables)

theorem mapLoop_eq (lo hi : ℤ) (pgsize : ℕ) :
    mapLoop cr3 gpp lo hi pgsize s = (loopCalls lo hi pgsize).foldlM (mapCall cr3 gpp) s := by
  rw [mapLoop, loopCalls, List.foldlM_map]

theorem mapRange_eq (mr : MemoryRange) :
    mapRange cr3 gpp s mr = (rangeCalls mr).foldlM (mapCall cr3 gpp) s := by
  simp only [mapRange, rangeCalls, mapLoop_eq, List.foldlM_append, bind_assoc]

/-- The loops make their calls in turn. -/
theorem mapRanges_eq (ranges : List MemoryRange) :
    mapRanges cr3 gpp s ranges = (ranges.flatMap rangeCalls).foldlM (mapCall cr3 gpp) s := by
  rw [mapRanges]
  induction ranges generalizing s with
  | nil => rfl
  | cons mr rest ih =>
    simp only [List.foldlM_cons, List.flatMap_cons, List.foldlM_append, mapRange_eq, ih]

end Calls

section Words

variable {x n : ℕ}

theorem toInt_of_lt (h : x < 2 ^ 31) : toInt x = x := by
  have hmod : x % 2 ^ 32 = x := Nat.mod_eq_of_lt (by omega)
  rw [toInt, hmod, if_pos h]

theorem align_le (x n : ℕ) : align x n ≤ x := Nat.sub_le _ _

theorem toU64_of_nat (h : x < 2 ^ 64) : toU64 x = x := by
  rw [toU64]
  omega

theorem pageSize_eq (pgsize : ℕ) : pageSize pgsize = 2 ^ (12 + 9 * pgsize) := by
  rw [pageSize, pow_add, pow_mul]
  norm_num

theorem pageSize_pos (pgsize : ℕ) : 0 < pageSize pgsize := by
  rw [pageSize_eq]
  exact Nat.two_pow_pos _

/-- What a call that is aligned may look like. -/
theorem MapCall.Aligned.cases {c : MapCall} (h : c.Aligned) :
    c.pgsize = 0 ∧ c.size = 4096 ∧ c.addr % 4096 = 0 ∨
      c.pgsize = 1 ∧ c.size = 2097152 ∧ c.addr % 2097152 = 0 := by
  obtain ⟨hlevel, haddr⟩ := h
  rw [MapCall.size] at haddr ⊢
  rcases Nat.le_one_iff_eq_zero_or_eq_one.1 hlevel with h | h <;> rw [h] at haddr ⊢
  · exact .inl ⟨rfl, rfl, haddr⟩
  · exact .inr ⟨rfl, rfl, haddr⟩

/-- It covers each page that it reaches. -/
theorem MapCall.Aligned.covers_iff {c : MapCall} (h : c.Aligned) {p : ℕ} (hp : p % 4096 = 0) :
    c.Covers p ↔ c.addr ≤ p ∧ p < c.addr + c.size := by
  rw [MapCall.Covers]
  rcases h.cases with ⟨-, hsize, haddr⟩ | ⟨-, hsize, haddr⟩ <;> rw [hsize] <;> omega

end Words

/-! ## One loop -/

/-- The pages from `lo` to `hi`, one after the other. -/
structure Cut (lo hi : ℕ) (calls : List MapCall) : Prop where
  tiles : Tiles hi lo (calls.map fun c => (c.addr, c.addr + c.size))
  aligned : ∀ c ∈ calls, c.Aligned

namespace Cut

variable {lo mid hi : ℕ} {l r : List MapCall}

theorem empty (n : ℕ) : Cut n n [] := ⟨rfl, by simp⟩

theorem append (hl : Cut lo mid l) (hr : Cut mid hi r) : Cut lo hi (l ++ r) where
  tiles := by
    rw [List.map_append]
    exact hl.tiles.append hr.tiles
  aligned c hc := (List.mem_append.1 hc).elim (hl.aligned c) (hr.aligned c)

theorem bounds (h : Cut lo hi l) {c : MapCall} (hc : c ∈ l) : lo ≤ c.addr ∧ c.addr + c.size ≤ hi := by
  have hspan := h.tiles.chain.bounds _ (List.mem_map_of_mem hc)
  exact ⟨hspan.1, hspan.2.2⟩

/-- Each page between the ends is covered once. -/
theorem countP_eq (h : Cut lo hi l) {p : ℕ} (hp : p % 4096 = 0) :
    l.countP (fun c => c.Covers p) = if lo ≤ p ∧ p < hi then 1 else 0 := by
  rw [← h.tiles.countP_eq p, List.countP_map]
  refine List.countP_congr fun c hc => ?_
  simpa using (h.aligned c hc).covers_iff hp

end Cut

theorem forInt_nil {step n : ℕ} {lo hi : ℤ} (h : hi ≤ lo) : forInt step hi n lo = [] := by
  cases n with
  | zero => rfl
  | succ n => rw [forInt, if_neg (not_lt.2 h)]

theorem loopCalls_nil {lo hi : ℤ} (h : hi ≤ lo) (pgsize : ℕ) : loopCalls lo hi pgsize = [] := by
  rw [loopCalls, pagesInt, forInt_nil h, List.map_nil]

/-- A loop that meets its end. -/
theorem forInt_cut {lo hi n rounds pgsize : ℕ} (hsize : pgsize ≤ 1)
    (haligned : lo % pageSize pgsize = 0) (hcount : lo + n * pageSize pgsize = hi)
    (hhi : hi < 2 ^ 31) (hn : n ≤ rounds) :
    Cut lo hi ((forInt (pageSize pgsize) hi rounds lo).map fun i => ⟨toU64 i, pgsize⟩) := by
  have hpos := pageSize_pos pgsize
  induction n generalizing lo rounds with
  | zero =>
    obtain rfl : lo = hi := by omega
    rw [forInt_nil le_rfl]
    exact Cut.empty lo
  | succ n ih =>
    obtain ⟨rounds, rfl⟩ := Nat.exists_eq_succ_of_ne_zero (show rounds ≠ 0 by omega)
    rw [Nat.succ_mul] at hcount
    have hlt : (lo : ℤ) < hi := by omega
    have haddr : toU64 lo = lo := toU64_of_nat (by omega)
    have hnext : toInt (wadd (toU64 lo) (pageSize pgsize)) = (lo + pageSize pgsize : ℕ) := by
      rw [haddr, wadd, Nat.mod_eq_of_lt (by omega), toInt_of_lt (by omega)]
    have haligned' : (lo + pageSize pgsize) % pageSize pgsize = 0 := by
      rw [Nat.add_mod_right]
      exact haligned
    have hrest := ih haligned' (by omega) (Nat.le_of_succ_le_succ hn)
    rw [Nat.succ_eq_add_one, forInt, if_pos hlt, hnext, List.map_cons, haddr]
    constructor
    · exact ⟨rfl, Nat.le_add_right _ _, hrest.tiles⟩
    · intro c hc
      rcases List.mem_cons.1 hc with rfl | hc
      · exact ⟨hsize, haligned⟩
      · exact hrest.aligned c hc

theorem loopCalls_cut {lo hi pgsize : ℕ} (hsize : pgsize ≤ 1) (hle : lo ≤ hi) (hhi : hi < 2 ^ 31)
    (hlo : lo % pageSize pgsize = 0) (hhi' : hi % pageSize pgsize = 0) :
    Cut lo hi (loopCalls lo hi pgsize) := by
  have hdiff : (hi - lo) % pageSize pgsize = 0 := Nat.sub_mod_eq_zero_of_mod_eq (hhi'.trans hlo.symm)
  have hcount : lo + (hi - lo) / pageSize pgsize * pageSize pgsize = hi := by
    rw [Nat.div_mul_cancel (Nat.dvd_of_mod_eq_zero hdiff)]
    omega
  have hrounds : ((hi : ℤ) - lo).toNat = hi - lo := by omega
  rw [loopCalls, pagesInt, hrounds]
  exact forInt_cut hsize hlo hcount hhi (Nat.le_succ _)

/-! ## One range -/

/-- The calls that a range should have. -/
structure Exact (mr : MemoryRange) (calls : List MapCall) : Prop where
  aligned : ∀ c ∈ calls, c.Aligned
  inside : ∀ c ∈ calls, mr.base ≤ c.addr ∧ c.addr + c.size ≤ mr.base + mr.length
  once : ∀ p, p % 4096 = 0 →
    calls.countP (fun c => c.Covers p) = if WholePage mr p then 1 else 0

section Range

variable {mr : MemoryRange}

theorem Cut.exact {lo hi : ℕ} {calls : List MapCall} (h : Cut lo hi calls) (hlo : mr.base ≤ lo)
    (hhi : hi ≤ mr.base + mr.length)
    (hpages : ∀ p, p % 4096 = 0 → (WholePage mr p ↔ lo ≤ p ∧ p < hi)) : Exact mr calls where
  aligned := h.aligned
  inside c hc := ⟨hlo.trans (h.bounds hc).1, (h.bounds hc).2.trans hhi⟩
  once p hp := by simp only [h.countP_eq hp, hpages p hp]

/-- A range without a page needs no call. -/
theorem exact_nil (h : ∀ p, ¬WholePage mr p) : Exact mr [] where
  aligned := by simp
  inside := by simp
  once p _ := by simp [h p]

/-- The begin and the ends of the loops, while the begin is not rounded up beyond 2G. -/
theorem rangeCalls_eq (hend : mr.base + mr.length < 2 ^ 31) (hbase : mr.base ≤ 2 ^ 31 - 2 ^ 21) :
    rangeCalls mr =
      loopCalls (alignUp mr.base 12)
        (min (align (mr.base + mr.length) 12) (alignUp mr.base 21) : ℕ) 0 ++
      loopCalls (alignUp mr.base 21) (align (mr.base + mr.length) 21) 1 ++
      loopCalls (align (mr.base + mr.length) 21) (align (mr.base + mr.length) 12) 0 := by
  have hsum : wadd mr.base mr.length = mr.base + mr.length := Nat.mod_eq_of_lt (by omega)
  have hbegin : toInt (alignUp mr.base 12) = alignUp mr.base 12 := toInt_of_lt (by
    simp only [alignUp, align, wadd]
    omega)
  have hround : alignUp (toU64 (alignUp mr.base 12)) 21 = alignUp mr.base 21 := by
    simp only [alignUp, align, wadd, toU64]
    omega
  have hend2 : toInt (alignUp mr.base 21) = alignUp mr.base 21 := toInt_of_lt (by
    simp only [alignUp, align, wadd]
    omega)
  have hstop : toInt (align (mr.base + mr.length) 12) = align (mr.base + mr.length) 12 :=
    toInt_of_lt (by
      simp only [align]
      omega)
  have hend3 : toInt (align (mr.base + mr.length) 21) = align (mr.base + mr.length) 21 :=
    toInt_of_lt (by
      simp only [align]
      omega)
  simp only [rangeCalls, hsum, hbegin, hround, hend2, hstop, hend3, Nat.cast_min]

/-- A range that ends at 2G gets no call: its end is a negative `int`. -/
theorem rangeCalls_end (hend : mr.base + mr.length = 2 ^ 31) : rangeCalls mr = [] := by
  have hsum : wadd mr.base mr.length = 2 ^ 31 := by
    rw [wadd, hend]
    rfl
  have hstop : toInt (align (2 ^ 31) 12) = -2 ^ 31 ∧ toInt (align (2 ^ 31) 21) = -2 ^ 31 := by decide
  have hlow : ∀ n, -2 ^ 31 ≤ toInt n := by
    intro n
    rw [toInt]
    split <;> omega
  simp only [rangeCalls, hsum, hstop.1, hstop.2, List.append_eq_nil_iff]
  exact ⟨⟨loopCalls_nil (min_le_left _ _ |>.trans (hlow _)) 0, loopCalls_nil (hlow _) 1⟩,
    loopCalls_nil le_rfl 0⟩

/-- If there is a multiple of 2M, the loops meet there. -/
theorem exact_of_middle (hend : mr.base + mr.length < 2 ^ 31) (hbase : mr.base ≤ 2 ^ 31 - 2 ^ 21)
    (hmiddle : alignUp mr.base 21 ≤ align (mr.base + mr.length) 21) : Exact mr (rangeCalls mr) := by
  have hmin : min (align (mr.base + mr.length) 12) (alignUp mr.base 21) = alignUp mr.base 21 := by
    simp only [alignUp, align, wadd] at hmiddle ⊢
    omega
  have hfirst : Cut (alignUp mr.base 12) (alignUp mr.base 21)
      (loopCalls (alignUp mr.base 12) (alignUp mr.base 21) 0) := by
    apply loopCalls_cut (by omega) <;> simp only [alignUp, align, wadd, pageSize] <;> omega
  have hsecond : Cut (alignUp mr.base 21) (align (mr.base + mr.length) 21)
      (loopCalls (alignUp mr.base 21) (align (mr.base + mr.length) 21) 1) := by
    apply loopCalls_cut (by omega) <;> simp only [alignUp, align, wadd, pageSize] at hmiddle ⊢ <;> omega
  have hthird : Cut (align (mr.base + mr.length) 21) (align (mr.base + mr.length) 12)
      (loopCalls (align (mr.base + mr.length) 21) (align (mr.base + mr.length) 12) 0) := by
    apply loopCalls_cut (by omega) <;> simp only [align, pageSize] <;> omega
  rw [rangeCalls_eq hend hbase, hmin]
  apply ((hfirst.append hsecond).append hthird).exact
  · simp only [alignUp, align, wadd]
    omega
  · exact align_le _ _
  · intro p hp
    simp only [WholePage, alignUp, align, wadd]
    omega

/-- If there is none, but the last page ends at one, there is no whole page. -/
theorem exact_of_tail (hend : mr.base + mr.length < 2 ^ 31) (hbase : mr.base ≤ 2 ^ 31 - 2 ^ 21)
    (hmiddle : align (mr.base + mr.length) 21 < alignUp mr.base 21)
    (htail : align (mr.base + mr.length) 12 = align (mr.base + mr.length) 21) :
    Exact mr (rangeCalls mr) := by
  have hnone : align (mr.base + mr.length) 12 ≤ alignUp mr.base 12 := by
    simp only [alignUp, align, wadd] at hmiddle htail ⊢
    omega
  have hcalls : rangeCalls mr = [] := by
    rw [rangeCalls_eq hend hbase, loopCalls_nil, loopCalls_nil, loopCalls_nil]
    · rfl
    · exact Nat.cast_le.2 htail.le
    · exact Nat.cast_le.2 hmiddle.le
    · exact Nat.cast_le.2 ((min_le_left _ _).trans hnone)
  rw [hcalls]
  apply exact_nil
  rintro p ⟨haligned, hlo, hhi⟩
  simp only [alignUp, align, wadd] at hnone
  omega

/-- A range that ends at 2G gets no call. -/
theorem exact_of_end (hend : mr.base + mr.length = 2 ^ 31)
    (hnone : align (mr.base + mr.length) 12 ≤ alignUp mr.base 12) : Exact mr (rangeCalls mr) := by
  rw [rangeCalls_end hend]
  apply exact_nil
  rintro p ⟨haligned, hlo, hhi⟩
  simp only [alignUp, align, wadd] at hnone
  omega

/-- The loops cut such a range right. -/
theorem FitsLoops.exact (h : FitsLoops mr) : Exact mr (rangeCalls mr) := by
  rcases h with ⟨hend, hnone⟩ | ⟨hend, hbase, hcut⟩
  · exact exact_of_end hend hnone
  · rcases le_or_gt (alignUp mr.base 21) (align (mr.base + mr.length) 21) with hmiddle | hmiddle
    · exact exact_of_middle hend hbase hmiddle
    · exact exact_of_tail hend hbase hmiddle (hcut.resolve_left (not_le.2 hmiddle))

theorem head_mem_loopCalls {lo hi : ℤ} (h : lo < hi) (pgsize : ℕ) :
    ⟨toU64 lo, pgsize⟩ ∈ loopCalls lo hi pgsize := by
  rw [loopCalls, pagesInt, forInt, if_pos h]
  exact List.mem_cons_self

/-- A range that begins in the last 2M: rounded up, its begin is a negative `int`. -/
theorem rangeCalls_high (hend : mr.base + mr.length < 2 ^ 31) (hbase : 2 ^ 31 - 2 ^ 21 < mr.base) :
    ⟨2 ^ 64 - 2 ^ 31, 1⟩ ∈ rangeCalls mr := by
  have hsum : wadd mr.base mr.length = mr.base + mr.length := Nat.mod_eq_of_lt (by omega)
  have hend2 : toInt (alignUp (toU64 (toInt (alignUp mr.base 12))) 21) = -2 ^ 31 := by
    rcases lt_or_ge (alignUp mr.base 12) (2 ^ 31) with hlt | hge
    · have hround : alignUp (toU64 (alignUp mr.base 12)) 21 = 2 ^ 31 := by
        rw [toU64_of_nat (by omega)]
        simp only [alignUp, align, wadd] at hlt ⊢
        omega
      rw [toInt_of_lt hlt, hround]
      decide
    · have hround : alignUp mr.base 12 = 2 ^ 31 := by
        simp only [alignUp, align, wadd] at hge ⊢
        omega
      rw [hround]
      decide
  have hend3 : toInt (align (mr.base + mr.length) 21) = (2 ^ 31 - 2 ^ 21 : ℕ) := by
    rw [toInt_of_lt] <;> simp only [align] <;> omega
  have hsecond := head_mem_loopCalls (show (-2 ^ 31 : ℤ) < (2 ^ 31 - 2 ^ 21 : ℕ) by norm_num) 1
  simp only [rangeCalls, hsum, hend2, hend3, List.mem_append]
  exact .inl (.inr hsecond)

/-- Other ranges below 2G get a call outside. -/
theorem outside_of_not_fits (hend : mr.base + mr.length < 2 ^ 31) (h : ¬FitsLoops mr) :
    ∃ c ∈ rangeCalls mr, ¬(mr.base ≤ c.addr ∧ c.addr + c.size ≤ mr.base + mr.length) := by
  rcases le_or_gt mr.base (2 ^ 31 - 2 ^ 21) with hbase | hbase
  · have hcut := not_or.1 fun hcut => h (.inr ⟨hend, hbase, hcut⟩)
    have hthird : (align (mr.base + mr.length) 21 : ℤ) < align (mr.base + mr.length) 12 := by
      simp only [align] at hcut ⊢
      omega
    refine ⟨⟨align (mr.base + mr.length) 21, 0⟩, ?_, fun hin => ?_⟩
    · have hhead := head_mem_loopCalls hthird 0
      rw [toU64_of_nat (by simp only [align]; omega)] at hhead
      rw [rangeCalls_eq hend hbase]
      exact List.mem_append_right _ hhead
    · have hlo := hin.1
      simp only [alignUp, align, wadd] at hcut hlo
      omega
  · refine ⟨_, rangeCalls_high hend hbase, fun hin => ?_⟩
    have hhi := hin.2
    simp only at hhi
    omega

end Range

/-! ## The run -/

/-- Calls without a common page. -/
def MapCall.Apart (c d : MapCall) : Prop := c.addr + c.size ≤ d.addr ∨ d.addr + d.size ≤ c.addr

section Run

variable {cr3 va : ℕ} {gpp : ℕ → ℕ} {c d : MapCall}

/-- Calls that overlap cover a common page. -/
theorem MapCall.Aligned.apart (hc : c.Aligned) (hd : d.Aligned)
    (h : ∀ p, p % 4096 = 0 → ¬(c.Covers p ∧ d.Covers p)) : c.Apart d := by
  have hpage : ∀ p, p % 4096 = 0 →
      ¬((c.addr ≤ p ∧ p < c.addr + c.size) ∧ d.addr ≤ p ∧ p < d.addr + d.size) := by
    intro p hp
    rw [← hc.covers_iff hp, ← hd.covers_iff hp]
    exact h p hp
  have hc' : c.addr % 4096 = 0 ∧ 0 < c.size := by rcases hc.cases with h | h <;> omega
  have hd' : d.addr % 4096 = 0 ∧ 0 < d.size := by rcases hd.cases with h | h <;> omega
  have hfirst := hpage c.addr hc'.1
  have hsecond := hpage d.addr hd'.1
  rw [MapCall.Apart]
  omega

theorem kern_wadd {pa : ℕ} (h : pa < 2 ^ 31) : wadd KERN_VMBASE pa = KERN_VMBASE + pa := by
  rw [wadd, KERN_VMBASE]
  omega

theorem index_kern {pa : ℕ} (h : pa < 2 ^ 31) : index (KERN_VMBASE + pa) 0 = 257 := by
  rw [index_eq, KERN_VMBASE]
  omega

/-- The addresses that an entry of a call maps. -/
theorem entry_prefix_iff (hc : c.Aligned) (hlt : c.addr + c.size ≤ 2 ^ 31) (hva : Canonical va) :
    c.entry <+: path va ↔
      KERN_VMBASE + c.addr ≤ va ∧ va < KERN_VMBASE + (c.addr + c.size) := by
  rw [Canonical] at hva
  rcases hc.cases with ⟨hlevel, hsize, haddr⟩ | ⟨hlevel, hsize, haddr⟩ <;> rw [hsize] at hlt ⊢
  · have hadd := kern_wadd (show c.addr < 2 ^ 31 by omega)
    rw [MapCall.entry, hlevel, hadd]
    simp only [path, index_eq, KERN_VMBASE, List.take, List.cons_prefix_cons, List.prefix_rfl, and_true]
    omega
  · have hadd := kern_wadd (show c.addr < 2 ^ 31 by omega)
    rw [MapCall.entry, hlevel, hadd]
    simp only [path, index_eq, KERN_VMBASE, List.take, List.cons_prefix_cons, List.nil_prefix, and_true]
    omega

theorem entry_index (hc : c.Aligned) (hlt : c.addr + c.size ≤ 2 ^ 31) :
    index (wadd KERN_VMBASE c.addr) 0 ≠ 256 := by
  have hlt' : c.addr < 2 ^ 31 := by rcases hc.cases with h | h <;> omega
  rw [kern_wadd hlt', index_kern hlt']
  norm_num

theorem canonical_kern {pa : ℕ} (h : pa < 2 ^ 31) : Canonical (KERN_VMBASE + pa) := by
  rw [Canonical, KERN_VMBASE]
  omega

/-- The entries of calls without a common page are not below each other. -/
theorem MapCall.Apart.entry_off (h : c.Apart d) (hc : c.Aligned) (hd : d.Aligned)
    (hclt : c.addr + c.size ≤ 2 ^ 31) (hdlt : d.addr + d.size ≤ 2 ^ 31) : ¬c.entry <+: d.entry := by
  intro hpre
  have hcsize : 0 < c.size := by rcases hc.cases with h | h <;> omega
  have hdsize : 0 < d.size := by rcases hd.cases with h | h <;> omega
  have hpath : c.entry <+: path (KERN_VMBASE + d.addr) := by
    rw [← kern_wadd (show d.addr < 2 ^ 31 by omega)]
    exact hpre.trans (List.take_prefix _ _)
  have hin := (entry_prefix_iff hc hclt (canonical_kern (by omega))).1 hpath
  rw [MapCall.Apart] at h
  omega

/-- One call where nothing is mapped. -/
theorem mapCall_ok {N : ℕ} {s : Tables} (hs : Ready cr3 gpp (3 + N) s) (hc : c.Aligned)
    (hlt : c.addr + c.size ≤ 2 ^ 31) (habsent : Absent s.mem cr3 c.entry) :
    ∃ s', mapCall cr3 gpp s c = .ok s' ∧ Ready cr3 gpp N s' ∧
      (∀ pa, c.addr ≤ pa → pa < c.addr + c.size →
        translate s'.mem cr3 (KERN_VMBASE + pa) = some pa) ∧
      Kept cr3 c.entry s.mem s'.mem := by
  have haligned : c.addr % 2 ^ (12 + 9 * c.pgsize) = 0 := by
    rw [← pageSize_eq]
    exact hc.addr
  have hsize : 0 < c.size := pageSize_pos _
  have hs' : Ready cr3 gpp (3 - c.pgsize + N) s := hs.mono (by omega)
  obtain ⟨s', hrun, hready, hpages, hkept⟩ := mapPage_absent hs' (entry_index hc hlt) hc.level haligned (show c.addr < 2 ^ 52 by omega)
    (show PTE_W.testBit 7 = false by decide) habsent
  refine ⟨s', hrun, hready, fun pa hlo hhi => ?_, hkept⟩
  have hpre : c.entry <+: path (KERN_VMBASE + pa) :=
    (entry_prefix_iff hc hlt (canonical_kern (by omega))).2 (by omega)
  rw [hpages _ hpre, Option.some.injEq, ← pageSize_eq]
  change c.addr + (KERN_VMBASE + pa) % c.size = pa
  rcases hc.cases with ⟨-, hsize, haddr⟩ | ⟨-, hsize, haddr⟩ <;> rw [hsize] at hhi ⊢ <;>
    rw [KERN_VMBASE] <;> omega

/-- Calls for different pages where nothing is mapped. -/
theorem mapCalls_ok {calls : List MapCall} {s : Tables} (hs : Prepared cr3 gpp calls s)
    (hvalid : ∀ c ∈ calls, c.Aligned ∧ c.addr + c.size ≤ 2 ^ 31)
    (hapart : calls.Pairwise MapCall.Apart) :
    ∃ s', calls.foldlM (mapCall cr3 gpp) s = .ok s' ∧
      (∀ c ∈ calls, ∀ pa, c.addr ≤ pa → pa < c.addr + c.size →
        translate s'.mem cr3 (KERN_VMBASE + pa) = some pa) ∧
      ∀ va, Canonical va → index va 0 ≠ 256 →
        (∀ c ∈ calls, ¬(KERN_VMBASE + c.addr ≤ va ∧ va < KERN_VMBASE + (c.addr + c.size))) →
        leaf s'.mem cr3 va = leaf s.mem cr3 va := by
  induction calls generalizing s with
  | nil => exact ⟨s, rfl, by simp, fun _ _ _ _ => rfl⟩
  | cons c rest ih =>
    obtain ⟨hc, hlt⟩ := hvalid c List.mem_cons_self
    have hrest : ∀ d ∈ rest, d.Aligned ∧ d.addr + d.size ≤ 2 ^ 31 := fun d hd =>
      hvalid d (List.mem_cons_of_mem c hd)
    obtain ⟨hfirst, hothers⟩ := List.pairwise_cons.1 hapart
    have hready : Ready cr3 gpp (3 + 3 * rest.length) s := by
      have hlength : 3 * (c :: rest).length = 3 + 3 * rest.length := by
        rw [List.length_cons]
        omega
      exact hlength ▸ hs.ready
    obtain ⟨s₁, hrun, hready₁, hpages, hkept⟩ :=
      mapCall_ok hready hc hlt (hs.absent c List.mem_cons_self)
    have hprepared : Prepared cr3 gpp rest s₁ := by
      refine ⟨hready₁, fun d hd => ?_⟩
      obtain ⟨hd', hdlt⟩ := hrest d hd
      exact hkept.absent _ (entryPath_take (entry_index hd' hdlt) _)
        ((hfirst d hd).entry_off hc hd' hlt hdlt)
        (MapCall.Apart.entry_off (Or.symm (hfirst d hd)) hd' hc hdlt hlt)
        (hs.absent d (List.mem_cons_of_mem c hd))
    obtain ⟨s', hrun', hpages', hkept'⟩ := ih hprepared hrest hothers
    refine ⟨s', ?_, ?_, fun va hva hne hout => ?_⟩
    · rw [List.foldlM_cons, hrun, ok_bind, hrun']
    · intro d hd pa hlo hhi
      rcases List.mem_cons.1 hd with rfl | hd
      · -- the other calls leave the pages of the first
        have hsame := hkept' (KERN_VMBASE + pa) (canonical_kern (by omega))
          (by rw [index_kern (by omega)]; norm_num) fun e he hin => by
            have hapart := hfirst e he
            rw [MapCall.Apart] at hapart
            omega
        rw [translate, hsame]
        exact hpages pa hlo hhi
      · exact hpages' d hd pa hlo hhi
    · rw [hkept' va hva hne fun d hd => hout d (List.mem_cons_of_mem c hd)]
      exact hkept.leaf va hne fun hpre =>
        hout c List.mem_cons_self ((entry_prefix_iff hc hlt hva).1 hpre)

end Run

/-! ## All ranges -/

section Ranges

variable {ranges : List MemoryRange}

/-- A page is covered as often as it lies in a range. -/
theorem countP_calls (h : ∀ mr ∈ ranges, Exact mr (rangeCalls mr)) {p : ℕ} (hp : p % 4096 = 0) :
    (ranges.flatMap rangeCalls).countP (fun c => c.Covers p) =
      ranges.countP (fun mr => WholePage mr p) := by
  induction ranges with
  | nil => rfl
  | cons mr rest ih =>
    rw [List.flatMap_cons, List.countP_append, (h mr List.mem_cons_self).once p hp,
      ih fun mr hmr => h mr (List.mem_cons_of_mem _ hmr), List.countP_cons, Nat.add_comm]
    simp

theorem noSharedPage_iff :
    NoSharedPage ranges ↔ ∀ p, ranges.countP (fun mr => WholePage mr p) ≤ 1 := by
  simp only [countP_le_one_iff, NoSharedPage, List.pairwise_iff_forall_sublist]
  exact ⟨fun h p _ _ hsub => h hsub p, fun h _ _ hsub p => h p hsub⟩

/-- Aligned calls that cover no page twice are apart. -/
theorem pairwise_apart {calls : List MapCall} (haligned : ∀ c ∈ calls, c.Aligned)
    (h : ∀ p, p % 4096 = 0 → calls.countP (fun c => c.Covers p) ≤ 1) :
    calls.Pairwise MapCall.Apart := by
  apply List.pairwise_iff_forall_sublist.2
  intro c d hsub
  have hc := haligned c (hsub.subset (by simp))
  have hd := haligned d (hsub.subset (by simp))
  apply hc.apart hd
  intro p hp
  exact List.pairwise_iff_forall_sublist.1 (countP_le_one_iff.1 (h p hp)) hsub

/-- Ranges that fit the loops are mapped. -/
theorem mapsExactly_of_fits (hlow : ∀ mr ∈ ranges, mr.base + mr.length ≤ 2 ^ 31)
    (hfits : ∀ mr ∈ ranges, FitsLoops mr) (hshared : NoSharedPage ranges) :
    MapsExactly ranges := by
  have hexact : ∀ mr ∈ ranges, Exact mr (rangeCalls mr) := fun mr hmr => (hfits mr hmr).exact
  have hcount : ∀ p, p % 4096 = 0 →
      (ranges.flatMap rangeCalls).countP (fun c => c.Covers p) ≤ 1 := by
    intro p hp
    rw [countP_calls hexact hp]
    exact noSharedPage_iff.1 hshared p
  have honce : ∀ mr ∈ ranges, ∀ p, WholePage mr p →
      (ranges.flatMap rangeCalls).countP (fun c => c.Covers p) = 1 := by
    intro mr hmr p hp
    have hpos : 0 < ranges.countP (fun mr => WholePage mr p) :=
      List.countP_pos_iff.2 ⟨mr, hmr, decide_eq_true hp⟩
    rw [← countP_calls hexact hp.1] at hpos
    exact Nat.le_antisymm (hcount p hp.1) hpos
  constructor
  · exact fun mr hmr => (hexact mr hmr).inside
  · exact honce
  · intro cr3 gpp s hs
    have hcall : ∀ c ∈ ranges.flatMap rangeCalls, c.Aligned ∧
        ∃ mr ∈ ranges, mr.base ≤ c.addr ∧ c.addr + c.size ≤ mr.base + mr.length := by
      intro c hc
      obtain ⟨mr, hmr, hc⟩ := List.mem_flatMap.1 hc
      exact ⟨(hexact mr hmr).aligned c hc, mr, hmr, (hexact mr hmr).inside c hc⟩
    have hvalid : ∀ c ∈ ranges.flatMap rangeCalls, c.Aligned ∧ c.addr + c.size ≤ 2 ^ 31 := by
      intro c hc
      obtain ⟨haligned, mr, hmr, -, hhi⟩ := hcall c hc
      exact ⟨haligned, hhi.trans (hlow mr hmr)⟩
    obtain ⟨s', hrun, hpages, hkept⟩ :=
      mapCalls_ok hs hvalid (pairwise_apart (fun c hc => (hvalid c hc).1) hcount)
    refine ⟨s', ?_, ?_, ?_⟩
    · rw [mapRanges_eq, hrun]
    · intro mr hmr p hp o ho
      have hpos := (honce mr hmr p hp).symm ▸ Nat.one_pos
      obtain ⟨c, hc, hcovers⟩ := List.countP_pos_iff.1 hpos
      obtain ⟨hlo, hhi⟩ := of_decide_eq_true hcovers
      rw [Nat.add_assoc]
      exact hpages c hc (p + o) (by omega) (by omega)
    · intro va hva hne hout
      apply hkept va hva hne
      intro c hc hin
      obtain ⟨-, mr, hmr, hlo, hhi⟩ := hcall c hc
      exact hout mr hmr (by omega)

/-- Ranges that are mapped fit the loops. -/
theorem MapsExactly.fits (h : MapsExactly ranges) {mr : MemoryRange} (hmr : mr ∈ ranges)
    (hlow : ∀ mr ∈ ranges, mr.base + mr.length ≤ 2 ^ 31) : FitsLoops mr := by
  by_contra hnot
  rcases (hlow mr hmr).lt_or_eq with hend | hend
  · obtain ⟨c, hc, hout⟩ := outside_of_not_fits hend hnot
    exact hout (h.inside mr hmr c hc)
  · -- the last page below 2G is covered by no call for any range
    have hpage : WholePage mr (2 ^ 31 - 4096) := by
      have hsome := not_le.1 fun hnone => hnot (.inl ⟨hend, hnone⟩)
      simp only [WholePage, alignUp, align, wadd] at hsome ⊢
      omega
    have hpos := (h.once mr hmr _ hpage).symm ▸ Nat.one_pos
    obtain ⟨c, hc, hcovers⟩ := List.countP_pos_iff.1 hpos
    obtain ⟨hlo, hhi⟩ := of_decide_eq_true hcovers
    obtain ⟨mr', hmr', hc⟩ := List.mem_flatMap.1 hc
    have hin := h.inside mr' hmr' c hc
    have hend' : mr'.base + mr'.length = 2 ^ 31 := by
      have hle := hlow mr' hmr'
      omega
    rw [rangeCalls_end hend'] at hc
    exact absurd hc List.not_mem_nil

end Ranges

/-- The direct map is right for ranges below 2G if and only if the loops cut each of them
right and no two share a page. -/
theorem mapsExactly_iff {ranges : List MemoryRange}
    (hlow : ∀ mr ∈ ranges, mr.base + mr.length ≤ 2 ^ 31) :
    MapsExactly ranges ↔ (∀ mr ∈ ranges, FitsLoops mr) ∧ NoSharedPage ranges := by
  constructor
  · intro h
    have hfits : ∀ mr ∈ ranges, FitsLoops mr := fun mr hmr => h.fits hmr hlow
    refine ⟨hfits, noSharedPage_iff.2 fun p => ?_⟩
    rcases Nat.eq_zero_or_pos (ranges.countP fun mr => WholePage mr p) with hzero | hpos
    · omega
    · obtain ⟨mr, hmr, hp⟩ := List.countP_pos_iff.1 hpos
      have hp := of_decide_eq_true hp
      have honce := h.once mr hmr p hp
      rw [countP_calls (fun mr hmr => (hfits mr hmr).exact) hp.1] at honce
      exact honce.le
  · rintro ⟨hfits, hshared⟩
    exact mapsExactly_of_fits hlow hfits hshared

open TableTree in
/-- Tables with nothing but the slot of the pml4 are prepared. -/
theorem prepared_bare {calls : List MapCall} (hcount : 3 * calls.length ≤ 2 ^ 39)
    (h : ∀ c ∈ calls, c.addr < 2 ^ 31 ∧ c.pgsize ≤ 1) :
    Prepared 0x1000 nextFrames calls ⟨bare, 0⟩ where
  ready := {
    self := by decide
    tree := isTree_bare
    supply := by
      rw [Nat.zero_add]
      exact supply_bare hcount }
  absent c hc := by
    obtain ⟨haddr, hlevel⟩ := h c hc
    have hindex : index (wadd KERN_VMBASE c.addr) 0 = 257 := by rw [kern_wadd haddr, index_kern haddr]
    have hzero : bare 0x1000 257 = 0 := by decide
    have hsplit : ∃ j r, c.entry = 257 :: j :: r := by
      rw [MapCall.entry, path, hindex]
      rcases Nat.le_one_iff_eq_zero_or_eq_one.1 hlevel with h | h <;> rw [h] <;> exact ⟨_, _, rfl⟩
    obtain ⟨j, r, hentry⟩ := hsplit
    refine ⟨r.length + 1, 0, ?_, present_zero⟩
    rw [hentry, walk_cons]
    dsimp only
    rw [hzero, nextTable_zero]
    rfl

/-- The memory from 1M up to 128M. -/
theorem mapsExactly_iff_extended :
    MapsExactly [⟨0x100000, 0x7f00000⟩] ∧
      ∃ s', mapRanges 0x1000 nextFrames ⟨bare, 0⟩ [⟨0x100000, 0x7f00000⟩] = .ok s' ∧
        translate s'.mem 0x1000 (KERN_VMBASE + 0x100000 + 8) = some 0x100008 := by
  have h : MapsExactly [⟨0x100000, 0x7f00000⟩] :=
    (mapsExactly_iff (by simp)).2 ⟨by decide, List.pairwise_singleton _ _⟩
  have hprepared : Prepared 0x1000 nextFrames ([⟨0x100000, 0x7f00000⟩].flatMap rangeCalls) ⟨bare, 0⟩ :=
    prepared_bare (by decide +kernel) (by decide +kernel)
  obtain ⟨s', hrun, hpages, -⟩ := h.mapped _ _ _ hprepared
  exact ⟨h, s', hrun, hpages _ List.mem_cons_self 0x100000 (by decide) 8 (by norm_num)⟩

/-- Two pages at 4K: the third loop begins at 0, which is not in the range. -/
theorem mapsExactly_fails : ¬MapsExactly [⟨0x1000, 0x2000⟩] := by
  intro h
  have hcall : (⟨0, 0⟩ : MapCall) ∈ rangeCalls ⟨0x1000, 0x2000⟩ := by decide
  have hinside := h.inside _ List.mem_cons_self _ hcall
  simp at hinside

end SadOS.Mm.Paging
