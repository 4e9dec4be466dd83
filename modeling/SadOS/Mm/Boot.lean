import SadOS.Mm.DirectMap
import SadOS.Mm.AllocatorInit
import Mathlib.Data.Finset.Card

/-!
# Memory at boot

`memory_init` of `sys/mm/paging.c` makes the first page tables behind the kernel image, and maps the
memory around them with pages that it takes one after the other.  What is left of these pages, and the
memory map of the firmware, it passes to the page allocator.

The first tables are written before they are in use, through the map of the boot loader, where the
address `physoffset + p` is that of the frame `p`.

## Main definitions

* `firstTables`, `mapEarly`, `lowMemory`, `memoryInit` — the source.
* `Firmware` — a memory map.
* `missing` — the tables that a mapping may still need.
* `Boots` — what `memory_init` leaves behind.

## Main results

* `missing_mapCalls` — mappings take no more pages than tables are missing.
* `bootCalls_ok` — the loops, with the number of the pages they take.
* `memoryInit_boots` — the whole function.
-/

namespace SadOS.Mm.Paging

open TableTree GetPage

/-! ## The source -/

/-- Symbols of `linker.script`. -/
def physbase : ℕ := 0x200000
def physoffset : ℕ := 0xffffffff80000000
def kernbase : ℕ := physoffset + physbase

/-- The tables that `memory_init` makes itself, from the address `pml4` on. -/
def firstTables (mem : Memory) (pml4 : ℕ) : Memory :=
  let frame addr := wsub addr physoffset
  let pdp := wadd pml4 0x1000
  let pd := wadd pdp 0x1000
  let mem := Function.update mem (frame pml4) fun _ => 0
  let mem := setWord mem (frame pml4) (index kernbase 0)
    (pteSetBase 0 (frame pdp) 0 ||| (PTE_P ||| PTE_W))
  let mem := Function.update mem (frame pdp) fun _ => 0
  let mem := setWord mem (frame pdp) (index kernbase 1)
    (pteSetBase 0 (frame pd) 0 ||| (PTE_P ||| PTE_W))
  let mem := Function.update mem (frame pd) fun _ => 0
  -- two pages of 2M for the kernel image
  let mem := setWord mem (frame pd) (index kernbase 2)
    (pteSetBase 0 physbase 1 ||| (PTE_P ||| PTE_W))
  let mem := setWord mem (frame pd) (index kernbase 2 + 1)
    (pteSetBase 0 (physbase + 0x200000) 1 ||| (PTE_P ||| PTE_W))
  setWord mem (frame pml4) 256 (pteSetBase 0 (frame pml4) 0 ||| (PTE_P ||| PTE_W))

/-- What `get_phys_page_early` returns the `k`-th time, from `endaddr` on. -/
def getPhysPageEarly (endaddr k : ℕ) : ℕ := wsub (wadd endaddr (4096 * k)) physoffset

/-- `for (i = lo; i < hi; i += 0x1000) map_4k_early(i, i+KERN_VMBASE)`. -/
def mapEarly (cr3 endaddr lo hi : ℕ) (s : Tables) : Except Fault Tables :=
  (List.range ((hi - lo + 4095) / 4096)).foldlM (fun s k =>
    let i := lo + 4096 * k
    mapPage cr3 (getPhysPageEarly endaddr) s i (wadd i KERN_VMBASE) 0 PTE_W) s

/-- `top`, for the first entry of the memory map. -/
def lowTop (e : Smap) : ℕ :=
  if e.length.toNat > 0x9f000 then 0x9f000 else e.length.toNat &&& 0xfffffffffffff000

/-- The low memory is mapped, and taken from the memory map. -/
def lowMemory (cr3 endaddr : ℕ) (s : Tables) : List Smap → Except Fault (Tables × List Smap)
  | [] => .error .outOfBounds
  | e :: rest =>
    if e.base = 0 then do
      let s ← mapEarly cr3 endaddr 0 (lowTop e) s
      if (e.length.toNat &&& 0xfffffffffffff000) > lowTop e then
        return (s, { e with base := .ofNat (lowTop e), length := e.length - .ofNat (lowTop e) } :: rest)
      else return (s, rest)
    else .ok (s, e :: rest)

/-- The address of the pml4, which is what `cr3` gets, the tables, `physend`, and the arguments of
`page_allocator_init`. -/
structure Booted where
  cr3 : ℕ
  tables : Tables
  physend : ℕ
  args : BootMemory

/-- `memory_init`, up to the call of `page_allocator_init`. -/
def memoryInit (kernend : ℕ) (mem : Memory) (smap : List Smap) : Except Fault Booted := do
  let firstaddr := wadd kernend 0x1000 &&& 0xfffffffffffff000
  let endaddr := wadd firstaddr 0x3000
  let cr3 := wsub firstaddr physoffset
  let physend := wsub endaddr physoffset
  let s ← mapEarly cr3 endaddr physend (physend + 0x10000) ⟨firstTables mem firstaddr, 0⟩
  let (s, smap) ← lowMemory cr3 endaddr s smap
  let extraPage := wadd (getPhysPageEarly endaddr s.taken) KERN_VMBASE
  let npage := toInt (wsub (wadd (physend + 0x10000) KERN_VMBASE) extraPage >>> 12)
  let rmBase := physbase &&& 0xfffffffffffff000
  return ⟨cr3, s, physend, ⟨.ofNat extraPage, npage, smap, .ofNat rmBase,
    .ofNat (physend + 0x10000 - rmBase)⟩⟩

/-- A memory map, of which the ranges of usable memory neither wrap nor overlap. -/
structure Firmware (smap : List Smap) : Prop where
  ne_nil : smap ≠ []
  ends : ∀ e ∈ smap, e.type = 1 → e.base.toNat + e.length.toNat < 2 ^ 64
  apart : smap.Pairwise fun e e' => e.type = 1 → e'.type = 1 →
    e.base.toNat + e.length.toNat ≤ e'.base.toNat ∨ e'.base.toNat + e'.length.toNat ≤ e.base.toNat

/-! ## The first tables -/

section First

variable (mem : Memory) {first F : ℕ}

/-- The place of the tables: behind the begin of the kernel, within its first 6M. -/
structure Place (first F : ℕ) : Prop where
  addr : first = physoffset + F
  aligned : F % 4096 = 0
  lo : physbase ≤ F
  hi : F ≤ 0x600000

theorem Place.frame (h : Place first F) {k : ℕ} (hk : k < 2 ^ 20) :
    wsub (wadd first k) physoffset = F + k := by
  have hhi := h.hi
  rw [h.addr, wsub, wadd, physoffset]
  omega

theorem index_kernbase : index kernbase 0 = 511 ∧ index kernbase 1 = 510 ∧ index kernbase 2 = 1 := by
  decide

/-- The words of the first tables. -/
theorem firstTables_apply (h : Place first F) :
    (∀ i, firstTables mem first F i = if i = 256 then F ||| 3
      else if i = 511 then F + 0x1000 ||| 3 else 0) ∧
    (∀ i, firstTables mem first (F + 0x1000) i = if i = 510 then F + 0x2000 ||| 3 else 0) ∧
    ∀ i, firstTables mem first (F + 0x2000) i = if i = 2 then 0x400083
      else if i = 1 then 0x200083 else 0 := by
  have hhi := h.hi
  have haligned := h.aligned
  obtain ⟨h0, h1, h2⟩ := index_kernbase
  have hpml4 : wsub first physoffset = F := by
    have := h.frame (k := 0) (by norm_num)
    rwa [show wadd first 0 = first by rw [wadd, h.addr, physoffset]; omega] at this
  have hpdp := h.frame (k := 0x1000) (by norm_num)
  have hpd : wsub (wadd (wadd first 0x1000) 0x1000) physoffset = F + 0x2000 := by
    rw [← h.frame (k := 0x2000) (by norm_num), wadd, wadd, wadd, Nat.mod_add_mod, Nat.add_assoc]
  have h3 : PTE_P ||| PTE_W = 3 := by decide
  have hset : ∀ k, k % 4096 = 0 → k ≤ 0x2000 → pteSetBase 0 (F + k) 0 = F + k := fun k hk hle =>
    pteSetBase_zero (by omega) (by omega)
  have hset0 : pteSetBase 0 F 0 = F := pteSetBase_zero haligned (by omega)
  have hset1 := hset 0x1000 (by norm_num) (by norm_num)
  have hset2 := hset 0x2000 (by norm_num) (by norm_num)
  have hbig1 : pteSetBase 0 physbase 1 ||| 3 = 0x200083 := by decide
  have hbig2 : pteSetBase 0 (physbase + 0x200000) 1 ||| 3 = 0x400083 := by decide
  simp only [firstTables, hpml4, hpdp, hpd, h0, h1, h2, hset0, hset1, hset2, h3]
  refine ⟨fun i => ?_, fun i => ?_, fun i => ?_⟩
  · simp [setWord_apply]
  · simp [setWord_apply]
  · simp [setWord_apply, hbig1, hbig2]

theorem nextTable_or_three {base : ℕ} (haligned : base % 4096 = 0) (hbase : base < 2 ^ 52) :
    nextTable (base ||| 3) = some base := by
  rw [nextTable_eq_some, present_or haligned, huge_or haligned]
  exact ⟨by decide, by decide, pteGetBase_or haligned hbase (by decide)⟩

/-- What the entries of the first tables refer to. -/
theorem nextTable_first (h : Place first F) :
    nextTable (firstTables mem first F 256) = some F ∧
    (∀ i ≠ 256, nextTable (firstTables mem first F i) = if i = 511 then some (F + 0x1000) else none) ∧
    (∀ i, nextTable (firstTables mem first (F + 0x1000) i) =
      if i = 510 then some (F + 0x2000) else none) ∧
    ∀ i, nextTable (firstTables mem first (F + 0x2000) i) = none := by
  have hhi := h.hi
  have haligned := h.aligned
  obtain ⟨h0, h1, h2⟩ := firstTables_apply mem h
  refine ⟨?_, fun i hi => ?_, fun i => ?_, fun i => ?_⟩
  · rw [h0, if_pos rfl, nextTable_or_three haligned (by omega)]
  · rw [h0, if_neg hi]
    split
    · exact nextTable_or_three (by omega) (by omega)
    · exact nextTable_zero
  · rw [h1]
    split
    · exact nextTable_or_three (by omega) (by omega)
    · exact nextTable_zero
  · rw [h2]
    split
    · decide
    split
    · decide
    · exact nextTable_zero

/-- There are three tables. -/
theorem descend_first (h : Place first F) {p : List ℕ} (hp : TablePath p) {f : ℕ}
    (hf : descend nextTable (firstTables mem first) F p = some f) :
    p = [] ∧ f = F ∨ p = [511] ∧ f = F + 0x1000 ∨ p = [511, 510] ∧ f = F + 0x2000 := by
  obtain ⟨-, h0, h1, h2⟩ := nextTable_first mem h
  cases p with
  | nil =>
    cases hf
    exact .inl ⟨rfl, rfl⟩
  | cons i p =>
    rw [descend_cons, h0 i (hp.head i rfl)] at hf
    by_cases hi : i = 511
    · subst hi
      rw [if_pos rfl, Option.bind_some] at hf
      cases p with
      | nil =>
        cases hf
        exact .inr (.inl ⟨rfl, rfl⟩)
      | cons j p =>
        rw [descend_cons, h1 j] at hf
        by_cases hj : j = 510
        · subst hj
          rw [if_pos rfl, Option.bind_some] at hf
          cases p with
          | nil =>
            cases hf
            exact .inr (.inr ⟨rfl, rfl⟩)
          | cons k p =>
            rw [descend_cons, h2 k] at hf
            cases hf
        · rw [if_neg hj] at hf
          cases hf
    · rw [if_neg hi] at hf
      cases hf

theorem isTree_first (h : Place first F) : IsTree nextTable TablePath (firstTables mem first) F := by
  intro p q f hp hq hpf hqf
  rcases descend_first mem h hp hpf with ⟨rfl, hf⟩ | ⟨rfl, hf⟩ | ⟨rfl, hf⟩ <;>
    rcases descend_first mem h hq hqf with ⟨rfl, hf'⟩ | ⟨rfl, hf'⟩ | ⟨rfl, hf'⟩ <;>
    first | rfl | omega

/-- The pages that `get_phys_page_early` returns. -/
theorem getPhysPageEarly_eq (h : Place first F) {k : ℕ} (hk : k < 4096) :
    getPhysPageEarly (wadd first 0x3000) k = F + 0x3000 + 4096 * k := by
  have hhi := h.hi
  rw [h.addr, getPhysPageEarly, wsub, wadd, wadd, physoffset]
  omega

theorem supply_first (h : Place first F) {n : ℕ} (hn : n ≤ 4096) :
    Supply (getPhysPageEarly (wadd first 0x3000)) (firstTables mem first) F 0 n := by
  have heq : ∀ k < n, getPhysPageEarly (wadd first 0x3000) k = F + 0x3000 + 4096 * k :=
    fun k hk => getPhysPageEarly_eq h (by omega)
  have haligned := h.aligned
  have hhi := h.hi
  refine ⟨fun k _ hk => ?_, fun k _ hk => ?_, fun k _ hk p hp hpf => ?_, fun j k _ hjk hk => ?_⟩
  · rw [heq k hk]
    omega
  · rw [heq k hk]
    omega
  · rw [heq k hk] at hpf
    rcases descend_first mem h hp hpf with ⟨-, hf⟩ | ⟨-, hf⟩ | ⟨-, hf⟩ <;> omega
  · rw [heq j (by omega), heq k hk]
    omega

theorem ready_first (h : Place first F) {n : ℕ} (hn : n ≤ 4096) :
    Ready F (getPhysPageEarly (wadd first 0x3000)) n ⟨firstTables mem first, 0⟩ := by
  refine ⟨?_, ?_, ?_⟩ <;> dsimp only
  · exact (nextTable_first mem h).1
  · exact isTree_first mem h
  · rw [Nat.zero_add]
    exact supply_first mem h hn

/-- The first tables map the kernel image, and nothing else. -/
theorem translate_first (h : Place first F) {va : ℕ} (hva : Canonical va) (hself : index va 0 ≠ 256) :
    translate (firstTables mem first) F va =
      if kernbase ≤ va ∧ va < kernbase + 0x400000 then some (va - physoffset) else none := by
  obtain ⟨-, h0, h1, h2⟩ := nextTable_first mem h
  obtain ⟨w0, w1, w2⟩ := firstTables_apply mem h
  have hindex := fun i => index_eq va i
  rw [Canonical] at hva
  have hkern : (kernbase ≤ va ∧ va < kernbase + 0x400000) ↔
      index va 0 = 511 ∧ index va 1 = 510 ∧ (index va 2 = 1 ∨ index va 2 = 2) := by
    rw [hindex, hindex, hindex, kernbase, physoffset, physbase]
    omega
  by_cases hi0 : index va 0 = 511
  · by_cases hi1 : index va 1 = 510
    · have hwalk : walk nextTable (firstTables mem first) F (path va) =
          some (1, firstTables mem first (F + 0x2000) (index va 2)) := by
        rw [path, walk_cons, h0 _ hself, if_pos hi0, Option.elim_some, walk_cons, h1, if_pos hi1,
          Option.elim_some, walk_cons, h2]
        rfl
      have hin := hkern.trans (and_iff_right hi0) |>.trans (and_iff_right hi1)
      rw [translate, leaf, hwalk, w2]
      dsimp only
      rw [hindex] at hi0 hi1
      -- each of the two pages of 2M, and the entries beside them
      by_cases hi2 : index va 2 = 2
      · rw [if_pos hi2, if_pos (hin.2 (.inr hi2)), if_pos (by decide), Option.map_some,
          show pteGetBase 0x400083 = 0x400000 by decide, Option.some.injEq]
        rw [hindex] at hi2
        dsimp only
        rw [physoffset]
        omega
      by_cases hi2' : index va 2 = 1
      · rw [if_neg hi2, if_pos hi2', if_pos (hin.2 (.inl hi2')), if_pos (by decide), Option.map_some,
          show pteGetBase 0x200083 = 0x200000 by decide, Option.some.injEq]
        rw [hindex] at hi2'
        dsimp only
        rw [physoffset]
        omega
      · rw [if_neg hi2, if_neg hi2', if_neg (mt hin.1 (by simp [hi2, hi2'])), present_zero]
        rfl
    · have hwalk : walk nextTable (firstTables mem first) F (path va) = some (2, 0) := by
        have hword : firstTables mem first (F + 0x1000) (index va 1) = 0 := by rw [w1, if_neg hi1]
        rw [path, walk_cons, h0 _ hself, if_pos hi0, Option.elim_some, walk_cons, h1, if_neg hi1, hword]
        rfl
      rw [if_neg fun hin => hi1 (hkern.1 hin).2.1, translate, leaf, hwalk]
      rfl
  · have hwalk : walk nextTable (firstTables mem first) F (path va) = some (3, 0) := by
      have hword : firstTables mem first F (index va 0) = 0 := by rw [w0, if_neg hself, if_neg hi0]
      rw [path, walk_cons, h0 _ hself, if_neg hi0, hword]
      rfl
    rw [if_neg fun hin => hi0 (hkern.1 hin).1, translate, leaf, hwalk]
    rfl

end First

/-! ## How many tables a mapping needs -/

section Missing

variable {cr3 va t i n N flags : ℕ} {gpp : ℕ → ℕ} {s s' : Tables}

/-- Tables that are there stay. -/
def KeepsTables (cr3 : ℕ) (m m' : Memory) : Prop :=
  ∀ q, TablePath q → (descend nextTable m cr3 q).isSome → (descend nextTable m' cr3 q).isSome

theorem keepsTables_link (hs : Ready cr3 gpp (n + 1) s) (hva : index va 0 ≠ 256) (hi : i < 3)
    (hflags : flags.testBit 7 = false)
    (ht : descend nextTable s.mem cr3 ((path va).take i) = some t)
    (hempty : nextTable (s.mem t (index va i)) = none) :
    KeepsTables cr3 s.mem (link s.mem t (index va i) (tableEntry gpp s flags) (gpp s.taken) 0) := by
  intro q hq hsome
  have hfresh := hs.fresh hva hi hflags ht hempty
  rw [hfresh.descend_off hq]
  · exact hsome
  · rintro ⟨r, rfl⟩
    rw [descend_append, descend_snoc ht, hempty] at hsome
    cases hsome

/-- The loop of `get_pte_addr_checked` takes a page for each level below the last table that is
there. -/
theorem checkLevels_taken (hs : Ready cr3 gpp (n + N) s) (hva : index va 0 ≠ 256) (hin : i + n ≤ 3)
    (ht : descend nextTable s.mem cr3 ((path va).take i) = some t) (hflags : flags.testBit 7 = false)
    (h : checkLevels cr3 gpp va flags true n i s = .ok (s', true)) :
    KeepsTables cr3 s.mem s'.mem ∧ ∀ d ≤ i + n,
      (descend nextTable s.mem cr3 ((path va).take d)).isSome → s'.taken ≤ s.taken + (i + n - d) := by
  induction n generalizing i t s with
  | zero =>
    cases h
    exact ⟨fun _ _ hq => hq, fun d _ _ => Nat.le_add_right _ _⟩
  | succ n ih =>
    have hload := load_getPteAddr hs.self (show i ≤ 3 by omega) ht
    have hsucc := descend_take_succ ht (show i < 4 by omega)
    rw [checkLevels, hload, ok_bind] at h
    cases hp : present (s.mem t (index va i)) with
    | false =>
      have hempty : nextTable (s.mem t (index va i)) = none := by simp [nextTable, hp]
      have hs₁ : Ready cr3 gpp (n + N + 1) s := by
        have hn : n + N + 1 = n + 1 + N := by omega
        exact hn ▸ hs
      have hnew := hs₁.descend_addTable hva (show i < 3 by omega) hflags ht hempty
      simp only [hp, Bool.not_false, Bool.not_true, Bool.false_eq_true, reduceIte,
        addTable_eq hs₁ hva (show i < 3 by omega) hflags ht hempty, ok_bind] at h
      obtain ⟨hkeeps, htaken⟩ := ih (hs₁.addTable hva (by omega) hflags ht hempty) (by omega) hnew h
      refine ⟨fun q hq hsome => hkeeps q hq
        (keepsTables_link hs₁ hva (by omega) hflags ht hempty q hq hsome), fun d hd hsome => ?_⟩
      have hdi : d ≤ i := by
        by_contra hlt
        rw [descend_take_none (hsucc.trans hempty) (show i + 1 ≤ d by omega)] at hsome
        cases hsome
      have htaken := htaken (i + 1) (by omega) (Option.isSome_of_eq_some hnew)
      dsimp only at htaken
      omega
    | true =>
      cases hh : huge (s.mem t (index va i)) with
      | true =>
        have h3 : i ≠ 3 := by omega
        simp [hp, hh, h3] at h
      | false =>
        have hnext : nextTable (s.mem t (index va i)) = some (pteGetBase (s.mem t (index va i))) :=
          nextTable_eq_some.2 ⟨hp, hh, rfl⟩
        simp only [hp, hh, Bool.not_true, Bool.false_eq_true, reduceIte, Bool.and_false] at h
        obtain ⟨hkeeps, htaken⟩ := ih (hs.mono (by omega)) (by omega) (hsucc.trans hnext) h
        refine ⟨hkeeps, fun d hd hsome => ?_⟩
        rcases Nat.lt_or_ge i d with hlt | hge
        · have := htaken d (by omega) hsome
          omega
        · have := htaken (i + 1) (by omega) (Option.isSome_of_eq_some (hsucc.trans hnext))
          omega

/-- A page of 4K takes one page for each level below the last table that is there. -/
theorem mapPage_taken {addr : ℕ} (hs : Ready cr3 gpp (3 + N) s) (hva : index va 0 ≠ 256)
    (hflags : flags.testBit 7 = false) (habsent : Absent s.mem cr3 ((path va).take 4))
    (h : mapPage cr3 gpp s addr va 0 flags = .ok s') :
    KeepsTables cr3 s.mem s'.mem ∧ (descend nextTable s'.mem cr3 ((path va).take 3)).isSome ∧
      ∀ d ≤ 3, (descend nextTable s.mem cr3 ((path va).take d)).isSome →
        s'.taken ≤ s.taken + (3 - d) := by
  obtain ⟨s₁, t, hloop, hready, ht, hfree, -⟩ :=
    checkLevels_absent (i := 0) (n := 3) hs hva (by omega) rfl hflags habsent
  obtain ⟨hkeeps, htaken⟩ := checkLevels_taken (i := 0) hs hva (by omega) rfl hflags hloop
  rw [Nat.zero_add] at ht hfree
  have hload := load_getPteAddr hready.self le_rfl ht
  have hstore := store_getPteAddr hready.self le_rfl ht (pageEntry addr 0 flags)
  rw [pageEntry] at hstore
  simp only [mapPage, getPteAddrChecked, hloop, ok_bind, reduceIte, Nat.sub_zero, hload, hfree,
    Bool.false_eq_true, hstore, Except.ok.injEq] at h
  subst h
  have hsame : ∀ q, TablePath q → descend nextTable (setWord s₁.mem t (index va 3)
      (pteSetFlags (pteSetBase 0 addr 0) flags ||| PTE_P)) cr3 q = descend nextTable s₁.mem cr3 q :=
    fun q hq => descend_setEntry hready hva le_rfl ht hfree (fun h => absurd h (lt_irrefl 3)) hq
  refine ⟨fun q hq hsome => ?_, ?_, fun d hd hsome => htaken d (by omega) hsome⟩
  · dsimp only
    rw [hsame q hq]
    exact hkeeps q hq hsome
  · dsimp only
    rw [hsame _ (tablePath_take hva (by omega)), ht]
    rfl

/-- The pages that mappings in the first GiB may still take for tables: for the tables above all of
them, and for each block of 2M. -/
def missing (cr3 : ℕ) (blocks : Finset ℕ) (m : Memory) : ℕ :=
  (if (descend nextTable m cr3 [257, 0]).isSome then 0 else 2) +
    (blocks.filter fun b => (descend nextTable m cr3 [257, 0, b]).isNone).card

theorem path_kern {pa : ℕ} (h : pa < 2 ^ 30) :
    path (wadd KERN_VMBASE pa) = [257, 0, pa / 2 ^ 21, pa / 4096 % 512] := by
  rw [kern_wadd (show pa < 2 ^ 31 by omega)]
  simp only [path, index_eq, KERN_VMBASE, List.cons.injEq, and_true]
  omega

theorem tablePath_block {b : ℕ} (hb : b < 512) : TablePath [257, 0, b] ∧ TablePath [257, 0] :=
  ⟨⟨by simp, by simp, by simp [hb]⟩, ⟨by simp, by simp, by simp⟩⟩

/-- A page that is taken for a table is not missing any more. -/
theorem missing_mapPage {blocks : Finset ℕ} (hblocks : ∀ b ∈ blocks, b < 512) {addr pa : ℕ}
    (hpa : pa < 2 ^ 30) (hblock : pa / 2 ^ 21 ∈ blocks) (hs : Ready cr3 gpp (3 + N) s)
    (habsent : Absent s.mem cr3 ((path (wadd KERN_VMBASE pa)).take 4))
    (h : mapPage cr3 gpp s addr (wadd KERN_VMBASE pa) 0 PTE_W = .ok s') :
    s'.taken + missing cr3 blocks s'.mem ≤ s.taken + missing cr3 blocks s.mem := by
  have hpath := path_kern hpa
  have hva : index (wadd KERN_VMBASE pa) 0 ≠ 256 := by
    rw [kern_wadd (by omega), index_kern (by omega)]
    norm_num
  obtain ⟨hkeeps, hafter, htaken⟩ := mapPage_taken hs hva (by decide) habsent h
  have h2 : (path (wadd KERN_VMBASE pa)).take 2 = [257, 0] := by rw [hpath]; rfl
  have h3 : (path (wadd KERN_VMBASE pa)).take 3 = [257, 0, pa / 2 ^ 21] := by rw [hpath]; rfl
  have hpd : (descend nextTable s'.mem cr3 [257, 0]).isSome := by
    rw [← h2]
    by_contra hnone
    rw [descend_take_none (Option.not_isSome_iff_eq_none.1 hnone) (show 2 ≤ 3 by norm_num)] at hafter
    cases hafter
  rw [h3] at hafter
  -- the blocks without a table are those from before, but not that of the page
  have hsub : (blocks.filter fun b => (descend nextTable s'.mem cr3 [257, 0, b]).isNone) ⊆
      (blocks.filter fun b => (descend nextTable s.mem cr3 [257, 0, b]).isNone).erase (pa / 2 ^ 21) := by
    intro b hb
    obtain ⟨hmem, hnone⟩ := Finset.mem_filter.1 hb
    rw [Option.isNone_iff_eq_none] at hnone
    refine Finset.mem_erase.2 ⟨?_, Finset.mem_filter.2 ⟨hmem, ?_⟩⟩
    · rintro rfl
      rw [hnone] at hafter
      cases hafter
    · by_contra hsome
      have hkept := hkeeps _ (tablePath_block (hblocks b hmem)).1 (by
        simpa [Option.isSome_iff_ne_none] using hsome)
      rw [hnone] at hkept
      cases hkept
  have hcard := Finset.card_le_card hsub
  simp only [missing, if_pos hpd, Nat.zero_add]
  by_cases hbefore : (descend nextTable s.mem cr3 [257, 0, pa / 2 ^ 21]).isSome
  · have := htaken 3 le_rfl (h3 ▸ hbefore)
    have := hcard.trans Finset.card_erase_le
    omega
  · have hin : pa / 2 ^ 21 ∈ blocks.filter fun b =>
        (descend nextTable s.mem cr3 [257, 0, b]).isNone :=
      Finset.mem_filter.2 ⟨hblock, by simpa using hbefore⟩
    have hpos := Finset.card_pos.2 ⟨_, hin⟩
    rw [Finset.card_erase_of_mem hin] at hcard
    split
    · rename_i hsome
      have := htaken 2 (by norm_num) (h2 ▸ hsome)
      omega
    · have := htaken 0 (Nat.zero_le 3) rfl
      omega

/-- What a run of calls takes. -/
theorem missing_mapCalls {blocks : Finset ℕ} (hblocks : ∀ b ∈ blocks, b < 512) {calls : List MapCall}
    (hs : Ready cr3 gpp (3 * calls.length + N) s) (habsent : ∀ c ∈ calls, Absent s.mem cr3 c.entry)
    (hvalid : ∀ c ∈ calls, c.pgsize = 0 ∧ c.addr % 4096 = 0 ∧ c.addr < 2 ^ 30 ∧ c.addr / 2 ^ 21 ∈ blocks)
    (hapart : calls.Pairwise MapCall.Apart) (h : calls.foldlM (mapCall cr3 gpp) s = .ok s') :
    Ready cr3 gpp N s' ∧ s'.taken + missing cr3 blocks s'.mem ≤ s.taken + missing cr3 blocks s.mem := by
  induction calls generalizing s with
  | nil =>
    cases h
    simp only [List.length_nil, Nat.mul_zero, Nat.zero_add] at hs
    exact ⟨hs, le_rfl⟩
  | cons c rest ih =>
    have haligned : ∀ d ∈ c :: rest, d.Aligned ∧ d.addr + d.size ≤ 2 ^ 31 := by
      intro d hd
      obtain ⟨hlevel, haddr, hlt, -⟩ := hvalid d hd
      have hsize : d.size = 4096 := by rw [MapCall.size, hlevel]; rfl
      exact ⟨⟨by omega, by rw [hsize]; exact haddr⟩, by omega⟩
    obtain ⟨hfirst, hothers⟩ := List.pairwise_cons.1 hapart
    obtain ⟨hlevel, -, hlt, hblock⟩ := hvalid c List.mem_cons_self
    obtain ⟨hc, hclt⟩ := haligned c List.mem_cons_self
    have hready : Ready cr3 gpp (3 + (3 * rest.length + N)) s := by
      refine hs.mono ?_
      rw [List.length_cons]
      omega
    obtain ⟨s₁, hrun, hready₁, -, hkept⟩ :=
      mapCall_ok hready hc hclt (habsent c List.mem_cons_self)
    have hentry : c.entry = (path (wadd KERN_VMBASE c.addr)).take 4 := by rw [MapCall.entry, hlevel]
    have hmissing := missing_mapPage hblocks hlt hblock hready (hentry ▸ habsent c List.mem_cons_self)
      (show mapPage cr3 gpp s c.addr (wadd KERN_VMBASE c.addr) 0 PTE_W = .ok s₁ by
        rw [← hrun, mapCall, hlevel])
    have habsent₁ : ∀ d ∈ rest, Absent s₁.mem cr3 d.entry := by
      intro d hd
      obtain ⟨hd', hdlt⟩ := haligned d (List.mem_cons_of_mem c hd)
      exact hkept.absent _ (entryPath_take (entry_index hd' hdlt) _)
        ((hfirst d hd).entry_off hc hd' hclt hdlt)
        (MapCall.Apart.entry_off (Or.symm (hfirst d hd)) hd' hc hdlt hclt)
        (habsent d (List.mem_cons_of_mem c hd))
    rw [List.foldlM_cons, hrun, ok_bind] at h
    obtain ⟨hready', hle⟩ := ih hready₁ habsent₁
      (fun d hd => hvalid d (List.mem_cons_of_mem c hd)) hothers h
    exact ⟨hready', hle.trans hmissing⟩

end Missing

/-! ## The loops -/

section Loops

variable {cr3 endaddr lo hi : ℕ} {s : Tables}

/-- The calls of one of the loops. -/
def earlyCalls (lo hi : ℕ) : List MapCall :=
  (List.range ((hi - lo + 4095) / 4096)).map fun k => ⟨lo + 4096 * k, 0⟩

theorem mapEarly_eq : mapEarly cr3 endaddr lo hi s =
    (earlyCalls lo hi).foldlM (mapCall cr3 (getPhysPageEarly endaddr)) s := by
  rw [earlyCalls, List.foldlM_map, mapEarly]
  simp only [mapCall, wadd, Nat.add_comm]

/-- The calls for the low memory. -/
def lowCalls : List Smap → List MapCall
  | [] => []
  | e :: _ => if e.base = 0 then earlyCalls 0 (lowTop e) else []

/-- The memory map without the low memory. -/
def trimmed : List Smap → List Smap
  | [] => []
  | e :: rest =>
    if e.base = 0 then
      if (e.length.toNat &&& 0xfffffffffffff000) > lowTop e then
        { e with base := .ofNat (lowTop e), length := e.length - .ofNat (lowTop e) } :: rest
      else rest
    else e :: rest

theorem lowMemory_eq {smap : List Smap} (hne : smap ≠ []) : lowMemory cr3 endaddr s smap = do
    let s ← (lowCalls smap).foldlM (mapCall cr3 (getPhysPageEarly endaddr)) s
    return (s, trimmed smap) := by
  cases smap with
  | nil => exact absurd rfl hne
  | cons e rest =>
    rw [lowMemory, lowCalls, trimmed]
    by_cases hbase : e.base = 0
    · simp only [if_pos hbase, mapEarly_eq]
      split <;> rfl
    · simp only [if_neg hbase]
      rfl

/-- The arguments of `page_allocator_init`, after `taken` pages were taken. -/
def bootArgs (first F taken : ℕ) (smap : List Smap) : BootMemory :=
  let extraPage := wadd (getPhysPageEarly (wadd first 0x3000) taken) KERN_VMBASE
  ⟨.ofNat extraPage, toInt (wsub (wadd (F + 0x13000) KERN_VMBASE) extraPage >>> 12), trimmed smap,
    .ofNat physbase, .ofNat (F + 0x13000 - physbase)⟩

/-- The calls of both loops. -/
theorem memoryInit_eq {smap : List Smap} (hne : smap ≠ []) {first F kernend : ℕ} {mem : Memory}
    (h : Place first F) (hfirst : wadd kernend 0x1000 &&& 0xfffffffffffff000 = first) :
    memoryInit kernend mem smap = do
      let s ← (earlyCalls (F + 0x3000) (F + 0x13000) ++ lowCalls smap).foldlM
        (mapCall F (getPhysPageEarly (wadd first 0x3000))) ⟨firstTables mem first, 0⟩
      return ⟨F, s, F + 0x3000, bootArgs first F s.taken smap⟩ := by
  have hcr3 : wsub first physoffset = F := by
    have := h.frame (k := 0) (by norm_num)
    rwa [show wadd first 0 = first by have := h.hi; rw [wadd, h.addr, physoffset]; omega] at this
  have hphysend := h.frame (k := 0x3000) (by norm_num)
  have hrm : physbase &&& 0xfffffffffffff000 = physbase := by decide
  simp only [memoryInit, hfirst, hcr3, hphysend, hrm, mapEarly_eq, lowMemory_eq hne,
    List.foldlM_append, bind_assoc, pure_bind, Nat.add_assoc, Nat.reduceAdd, bootArgs]

end Loops

/-! ## The memory map -/

section Map

variable {smap : List Smap} {e : Smap}

theorem and_page (x : ℕ) (hx : x < 2 ^ 64) : x &&& 0xfffffffffffff000 = x / 4096 * 4096 := by
  have h : x &&& 0xfffffffffffff000 = x / 4096 % 2 ^ 52 * 4096 := and_field x 52 12
  rw [h, Nat.mod_eq_of_lt (by omega)]

theorem lowTop_le (e : Smap) :
    lowTop e % 4096 = 0 ∧ lowTop e ≤ 0x9f000 ∧ lowTop e ≤ e.length.toNat := by
  rw [lowTop, and_page _ e.length.toNat_lt]
  split <;> omega

/-- The first entry without the low memory. -/
theorem toNat_trim (hlen : lowTop e ≤ e.length.toNat) :
    (UInt64.ofNat (lowTop e)).toNat = lowTop e ∧
      (e.length - .ofNat (lowTop e)).toNat = e.length.toNat - lowTop e := by
  have hlt := e.length.toNat_lt
  have htop : (UInt64.ofNat (lowTop e)).toNat = lowTop e := UInt64.toNat_ofNat_of_lt' (lt_of_le_of_lt hlen hlt)
  refine ⟨htop, ?_⟩
  rw [UInt64.toNat_sub_of_le _ _ (UInt64.le_iff_toNat_le.2 (by omega)), htop]

/-- What is left of an entry lies in it. -/
theorem mem_trimmed (h : e ∈ trimmed smap) : ∃ e' ∈ smap, e.type = e'.type ∧
    e'.base.toNat ≤ e.base.toNat ∧
    e.base.toNat + e.length.toNat ≤ e'.base.toNat + e'.length.toNat := by
  cases smap with
  | nil => exact absurd h List.not_mem_nil
  | cons e₀ rest =>
    rw [trimmed] at h
    have hrest : e ∈ rest → ∃ e' ∈ e₀ :: rest, e.type = e'.type ∧ e'.base.toNat ≤ e.base.toNat ∧
        e.base.toNat + e.length.toNat ≤ e'.base.toNat + e'.length.toNat :=
      fun h => ⟨e, List.mem_cons_of_mem _ h, rfl, le_rfl, le_rfl⟩
    split at h
    · rename_i hbase
      split at h
      · rcases List.mem_cons.1 h with rfl | h
        · obtain ⟨-, htop, hlen⟩ := lowTop_le e₀
          obtain ⟨hbase', hlength⟩ := toNat_trim hlen
          refine ⟨e₀, List.mem_cons_self, rfl, ?_, ?_⟩
          · rw [hbase]
            exact Nat.zero_le _
          · dsimp only
            rw [hbase', hlength, hbase, UInt64.toNat_zero]
            omega
        · exact hrest h
      · exact hrest h
    · rcases List.mem_cons.1 h with rfl | h
      · exact ⟨e, List.mem_cons_self, rfl, le_rfl, le_rfl⟩
      · exact hrest h

/-- No usable memory is left below `lowTop`, if that was usable memory. -/
theorem lowTop_le_of_mem_trimmed (hfw : Firmware smap) (h : e ∈ trimmed smap) (htype : e.type = 1)
    {e₀ : Smap} (hhead : e₀ ∈ smap.head?) (htype₀ : e₀.type = 1) (hbase : e₀.base = 0)
    (hne : e.length ≠ 0) : lowTop e₀ ≤ e.base.toNat := by
  cases smap with
  | nil => cases hhead
  | cons e' rest =>
    obtain rfl : e' = e₀ := by simpa using hhead
    obtain ⟨-, htop, hlen⟩ := lowTop_le e'
    have hrest : e ∈ rest → lowTop e' ≤ e.base.toNat := by
      intro he
      have hapart := (List.pairwise_cons.1 hfw.apart).1 e he htype₀ htype
      have hpos : 0 < e.length.toNat := Nat.pos_of_ne_zero fun h0 =>
        hne (UInt64.toNat_inj.1 h0)
      rw [hbase, UInt64.toNat_zero] at hapart
      omega
    rw [trimmed, if_pos hbase] at h
    split at h
    · rcases List.mem_cons.1 h with rfl | h
      · exact (toNat_trim hlen).1.ge
      · exact hrest h
    · exact hrest h

/-- All other usable pages are left. -/
theorem exists_trimmed (he : e ∈ smap) (htype : e.type = 1) {p : ℕ} (hlo : e.base.toNat ≤ p)
    (hp : p % 4096 = 0) (hhi : p + 4096 ≤ e.base.toNat + e.length.toNat)
    (hlow : ∀ e₀ ∈ smap.head?, e₀.type = 1 → e₀.base = 0 → lowTop e₀ ≤ p) :
    ∃ e' ∈ trimmed smap, e'.type = 1 ∧ e'.base.toNat ≤ p ∧
      p + 4096 ≤ e'.base.toNat + e'.length.toNat := by
  cases smap with
  | nil => exact absurd he List.not_mem_nil
  | cons e₀ rest =>
    rw [trimmed]
    rcases List.mem_cons.1 he with rfl | he
    · by_cases hbase : e.base = 0
      · obtain ⟨-, htop, hlen⟩ := lowTop_le e
        obtain ⟨hbase', hlength⟩ := toNat_trim hlen
        have hle := hlow e rfl htype hbase
        rw [hbase, UInt64.toNat_zero, Nat.zero_add] at hhi
        have hlt : (e.length.toNat &&& 0xfffffffffffff000) > lowTop e := by
          rw [and_page _ e.length.toNat_lt]
          omega
        rw [if_pos hbase, if_pos hlt]
        refine ⟨_, List.mem_cons_self, htype, ?_, ?_⟩
        · rw [hbase']
          exact hle
        · rw [hbase', hlength]
          omega
      · rw [if_neg hbase]
        exact ⟨e, List.mem_cons_self, htype, hlo, hhi⟩
    · refine ⟨e, ?_, htype, hlo, hhi⟩
      split
      · split
        · exact List.mem_cons_of_mem _ he
        · exact he
      · exact List.mem_cons_of_mem _ he

theorem length_trimmed (smap : List Smap) : (trimmed smap).length ≤ smap.length := by
  cases smap with
  | nil => exact le_rfl
  | cons e rest =>
    rw [trimmed]
    split
    · split
      · simp
      · simp
    · simp

theorem Firmware.trimmed (h : Firmware smap) :
    (∀ e ∈ trimmed smap, e.type = 1 → e.base.toNat + e.length.toNat < 2 ^ 64) ∧
    (trimmed smap).Pairwise fun e e' => e.type = 1 → e'.type = 1 →
      e.base.toNat + e.length.toNat ≤ e'.base.toNat ∨
        e'.base.toNat + e'.length.toNat ≤ e.base.toNat := by
  refine ⟨fun e he htype => ?_, ?_⟩
  · obtain ⟨e', he', htype', -, hend⟩ := mem_trimmed he
    exact lt_of_le_of_lt hend (h.ends e' he' (htype' ▸ htype))
  · have hapart := h.apart
    cases smap with
    | nil => exact .nil
    | cons e₀ rest =>
      obtain ⟨hfirst, hrest⟩ := List.pairwise_cons.1 hapart
      rw [Paging.trimmed]
      split
      · rename_i hbase
        split
        · obtain ⟨-, htop, hlen⟩ := lowTop_le e₀
          obtain ⟨hbase', hlength⟩ := toNat_trim hlen
          refine List.pairwise_cons.2 ⟨fun e he htype₀ htype => ?_, hrest⟩
          have := hfirst e he htype₀ htype
          rw [hbase, UInt64.toNat_zero] at this
          dsimp only
          rw [hbase', hlength]
          omega
        · exact hrest
      · exact hapart

end Map

/-! ## The whole function -/

/-- What `memory_init` leaves behind. -/
structure Boots (smap : List Smap) (b : Booted) : Prop where
  /-- The kernel image, the memory behind it and the low memory are mapped, and nothing else. -/
  kernel : ∀ va, kernbase ≤ va → va < kernbase + 0x400000 →
    translate b.tables.mem b.cr3 va = some (va - physoffset)
  early : ∀ pa, b.physend ≤ pa → pa < b.physend + 0x10000 →
    translate b.tables.mem b.cr3 (KERN_VMBASE + pa) = some pa
  low : ∀ e ∈ smap.head?, e.base = 0 → ∀ pa < lowTop e,
    translate b.tables.mem b.cr3 (KERN_VMBASE + pa) = some pa
  only : ∀ va, Canonical va → index va 0 ≠ 256 → (translate b.tables.mem b.cr3 va).isSome →
    (kernbase ≤ va ∧ va < kernbase + 0x400000) ∨
      ∃ pa, va = KERN_VMBASE + pa ∧ (b.physend ≤ pa ∧ pa < b.physend + 0x10000 ∨
        ∃ e ∈ smap.head?, e.base = 0 ∧ pa < lowTop e)
  /-- `map_page` can go on. -/
  self : nextTable (b.tables.mem b.cr3 256) = some b.cr3
  tree : IsTree nextTable TablePath b.tables.mem b.cr3
  /-- The arguments of `page_allocator_init`. -/
  proper : b.args.Proper
  count : 11 ≤ b.args.count
  /-- The early pages are mapped, and no tables. -/
  extra : ∀ v, b.args.Extra v → ∃ pa, v = KERN_VMBASE + pa ∧ b.physend ≤ pa ∧
    pa + PAGE_SIZE ≤ b.physend + 0x10000 ∧ Unused nextTable TablePath b.tables.mem b.cr3 pa
  /-- Other pages are the usable memory that is neither the kernel nor behind it nor low memory. -/
  inside : ∀ p, p % PAGE_SIZE = 0 → ((∃ e ∈ b.args.smap, b.args.Inside e p) ↔
    (∃ e ∈ smap, e.type = 1 ∧ e.base.toNat ≤ p ∧ p + PAGE_SIZE ≤ e.base.toNat + e.length.toNat) ∧
    (p + PAGE_SIZE ≤ physbase ∨ b.physend + 0x10000 ≤ p) ∧
    ∀ e ∈ smap.head?, e.type = 1 → e.base = 0 → lowTop e ≤ p)
  /-- The page allocator starts with them. -/
  starts : smap.length ≤ 850 → ∀ words, ∃ a, pageAllocatorInit b.args words = .ok a ∧ Starts b.args a

section Calls

variable {lo hi F first : ℕ} {c : MapCall} {smap : List Smap} {mem : Memory}

theorem mem_earlyCalls (hlo : lo % 4096 = 0) (hhi : hi % 4096 = 0) :
    c ∈ earlyCalls lo hi ↔ c.pgsize = 0 ∧ c.addr % 4096 = 0 ∧ lo ≤ c.addr ∧ c.addr + 4096 ≤ hi := by
  simp only [earlyCalls, List.mem_map, List.mem_range]
  constructor
  · rintro ⟨k, hk, rfl⟩
    dsimp only
    omega
  · rintro ⟨hlevel, haddr, hle, hlt⟩
    refine ⟨(c.addr - lo) / 4096, by omega, ?_⟩
    obtain ⟨addr, pgsize⟩ := c
    dsimp only at hlevel haddr hle hlt ⊢
    rw [MapCall.mk.injEq]
    omega

theorem apart_earlyCalls (lo hi : ℕ) : (earlyCalls lo hi).Pairwise MapCall.Apart := by
  rw [earlyCalls, List.pairwise_map]
  refine List.pairwise_lt_range.imp fun {j k} hjk => .inl ?_
  rw [MapCall.size, pageSize]
  dsimp only
  omega

theorem mem_lowCalls : c ∈ lowCalls smap ↔ ∃ e ∈ smap.head?, e.base = 0 ∧ c.pgsize = 0 ∧
    c.addr % 4096 = 0 ∧ c.addr + 4096 ≤ lowTop e := by
  cases smap with
  | nil => simp [lowCalls]
  | cons e rest =>
    rw [lowCalls]
    split
    · rename_i hbase
      rw [mem_earlyCalls (by norm_num) (lowTop_le e).1]
      simp [hbase]
    · rename_i hbase
      simp [hbase]

/-- The calls of `memory_init`. -/
def bootCalls (F : ℕ) (smap : List Smap) : List MapCall :=
  earlyCalls (F + 0x3000) (F + 0x13000) ++ lowCalls smap

/-- The blocks of 2M that they are in. -/
def bootBlocks (F : ℕ) : Finset ℕ := {0, (F + 0x3000) / 2 ^ 21, (F + 0x12000) / 2 ^ 21}

theorem length_bootCalls (F : ℕ) (smap : List Smap) : (bootCalls F smap).length ≤ 175 := by
  have hlow : (lowCalls smap).length ≤ 159 := by
    cases smap with
    | nil => exact Nat.zero_le _
    | cons e rest =>
      have htop := (lowTop_le e).2.1
      rw [lowCalls]
      split
      · rw [earlyCalls, List.length_map, List.length_range]
        omega
      · exact Nat.zero_le _
  rw [bootCalls, List.length_append, earlyCalls, List.length_map, List.length_range]
  omega

theorem bootCalls_valid (h : Place first F) (hc : c ∈ bootCalls F smap) :
    c.pgsize = 0 ∧ c.addr % 4096 = 0 ∧ c.addr < 2 ^ 30 ∧ c.addr / 2 ^ 21 ∈ bootBlocks F := by
  have hhi := h.hi
  have haligned := h.aligned
  simp only [bootBlocks, Finset.mem_insert, Finset.mem_singleton]
  rcases List.mem_append.1 hc with hc | hc
  · obtain ⟨hlevel, haddr, hle, hlt⟩ := (mem_earlyCalls (by omega) (by omega)).1 hc
    exact ⟨hlevel, haddr, by omega, by omega⟩
  · obtain ⟨e, -, -, hlevel, haddr, hlt⟩ := mem_lowCalls.1 hc
    have htop := (lowTop_le e).2.1
    exact ⟨hlevel, haddr, by omega, by omega⟩

theorem bootCalls_aligned (h : Place first F) (hc : c ∈ bootCalls F smap) :
    c.size = 4096 ∧ c.Aligned ∧ c.addr + c.size ≤ 2 ^ 31 := by
  obtain ⟨hlevel, haddr, hlt, -⟩ := bootCalls_valid h hc
  have hsize : c.size = 4096 := by rw [MapCall.size, hlevel]; rfl
  exact ⟨hsize, ⟨by omega, by rw [hsize]; exact haddr⟩, by omega⟩

theorem bootCalls_apart (h : Place first F) : (bootCalls F smap).Pairwise MapCall.Apart := by
  have haligned := h.aligned
  have hlo := h.lo
  rw [physbase] at hlo
  refine List.pairwise_append.2 ⟨apart_earlyCalls _ _, ?_, fun c hc d hd => .inr ?_⟩
  · cases smap with
    | nil => exact .nil
    | cons e rest =>
      rw [lowCalls]
      split
      · exact apart_earlyCalls _ _
      · exact .nil
  · obtain ⟨-, -, hle, -⟩ := (mem_earlyCalls (by omega) (by omega)).1 hc
    obtain ⟨e, -, -, hlevel, -, hlt⟩ := mem_lowCalls.1 hd
    have htop := (lowTop_le e).2.1
    have hsize : d.size = 4096 := by rw [MapCall.size, hlevel]; rfl
    omega

/-- In the first tables there is nothing where the calls map. -/
theorem absent_first (h : Place first F) (hc : c ∈ bootCalls F smap) :
    Absent (firstTables mem first) F c.entry := by
  obtain ⟨hlevel, -, hlt, -⟩ := bootCalls_valid h hc
  have hnext : nextTable (firstTables mem first F 257) = none := by
    rw [(nextTable_first mem h).2.1 257 (by norm_num), if_neg (by norm_num)]
  have hword : firstTables mem first F 257 = 0 := by
    rw [(firstTables_apply mem h).1, if_neg (by norm_num), if_neg (by norm_num)]
  refine ⟨3, 0, ?_, present_zero⟩
  rw [MapCall.entry, hlevel, path_kern hlt]
  change walk nextTable _ F [257, 0, c.addr / 2 ^ 21, c.addr / 4096 % 512] = _
  rw [walk_cons, hnext, Option.elim_none, hword]
  rfl

theorem card_bootBlocks (F : ℕ) : (bootBlocks F).card ≤ 3 := Finset.card_le_three

/-- The run of the calls. -/
theorem bootCalls_ok (h : Place first F) (mem : Memory) (smap : List Smap) :
    ∃ s, (bootCalls F smap).foldlM (mapCall F (getPhysPageEarly (wadd first 0x3000)))
        ⟨firstTables mem first, 0⟩ = .ok s ∧
      Ready F (getPhysPageEarly (wadd first 0x3000)) 16 s ∧ s.taken ≤ 5 ∧
      (∀ c ∈ bootCalls F smap, ∀ pa, c.addr ≤ pa → pa < c.addr + 4096 →
        translate s.mem F (KERN_VMBASE + pa) = some pa) ∧
      ∀ va, Canonical va → index va 0 ≠ 256 →
        (∀ c ∈ bootCalls F smap, ¬(KERN_VMBASE + c.addr ≤ va ∧ va < KERN_VMBASE + (c.addr + 4096))) →
        translate s.mem F va = translate (firstTables mem first) F va := by
  have hlen := length_bootCalls F smap
  have hready := ready_first mem h (show 3 * (bootCalls F smap).length + 16 ≤ 4096 by omega)
  have habsent : ∀ c ∈ bootCalls F smap, Absent (firstTables mem first) F c.entry :=
    fun c hc => absent_first h hc
  have hprepared : Prepared F (getPhysPageEarly (wadd first 0x3000)) (bootCalls F smap)
      ⟨firstTables mem first, 0⟩ := ⟨hready.mono (Nat.le_add_right _ _), habsent⟩
  obtain ⟨s, hrun, hpages, hkept⟩ := mapCalls_ok hprepared
    (fun c hc => (bootCalls_aligned h hc).2) (bootCalls_apart h)
  have hblocks : ∀ b ∈ bootBlocks F, b < 512 := by
    have hhi := h.hi
    simp only [bootBlocks, Finset.mem_insert, Finset.mem_singleton]
    omega
  obtain ⟨hready', htaken⟩ := missing_mapCalls hblocks hready habsent
    (fun c hc => bootCalls_valid h hc) (bootCalls_apart h) hrun
  have hmissing : missing F (bootBlocks F) (firstTables mem first) ≤ 5 := by
    have hcard := (Finset.card_filter_le (bootBlocks F) fun b =>
      (descend nextTable (firstTables mem first) F [257, 0, b]).isNone).trans (card_bootBlocks F)
    rw [missing]
    split <;> omega
  refine ⟨s, hrun, hready', ?_, fun c hc pa hlo hhi => ?_, fun va hva hself hout => ?_⟩
  · dsimp only at htaken
    omega
  · exact hpages c hc pa hlo ((bootCalls_aligned h hc).1.symm ▸ hhi)
  · rw [translate, translate, hkept va hva hself fun c hc => (bootCalls_aligned h hc).1.symm ▸ hout c hc]

end Calls

section Boots

variable {first F k : ℕ} {smap : List Smap}

/-- The arguments in numbers. -/
theorem bootArgs_eq (h : Place first F) (hk : k ≤ 5) (smap : List Smap) :
    (bootArgs first F k smap).extraPage.toNat = KERN_VMBASE + (F + 0x3000 + 4096 * k) ∧
      (bootArgs first F k smap).count = 16 - k ∧
      (bootArgs first F k smap).rmBase.toNat = physbase ∧
      (bootArgs first F k smap).rmLength.toNat = F + 0x13000 - physbase := by
  have hhi := h.hi
  have hextra : wadd (F + 0x3000 + 4096 * k) KERN_VMBASE = KERN_VMBASE + (F + 0x3000 + 4096 * k) := by
    rw [wadd, KERN_VMBASE]
    omega
  have hpages : wsub (wadd (F + 0x13000) KERN_VMBASE) (KERN_VMBASE + (F + 0x3000 + 4096 * k)) >>> 12 =
      16 - k := by
    rw [Nat.shiftRight_eq_div_pow, wsub, wadd, KERN_VMBASE]
    omega
  simp only [bootArgs, getPhysPageEarly_eq h (show k < 4096 by omega), hextra, hpages]
  refine ⟨UInt64.toNat_ofNat_of_lt' ?_, ?_, by decide, UInt64.toNat_ofNat_of_lt' ?_⟩
  · rw [KERN_VMBASE, UInt64.size]
    omega
  · rw [toInt_of_lt (by omega)]
    omega
  · rw [physbase, UInt64.size]
    omega

/-- The early pages are those that were not taken. -/
theorem bootArgs_extra (h : Place first F) (hk : k ≤ 5) {v : ℕ}
    (hv : (bootArgs first F k smap).Extra v) :
    ∃ j, k ≤ j ∧ j < 16 ∧ v = KERN_VMBASE + (F + 0x3000 + 4096 * j) := by
  obtain ⟨hextra, hcount, -, -⟩ := bootArgs_eq h hk smap
  have hhi := h.hi
  obtain ⟨i, hi, rfl⟩ := hv
  rw [hcount] at hi
  refine ⟨k + i, Nat.le_add_right k i, by omega, ?_⟩
  rw [hextra, wadd, KERN_VMBASE, PAGE_SIZE]
  omega

theorem bootArgs_proper (h : Place first F) (hk : k ≤ 5) (hfw : Firmware smap) :
    (bootArgs first F k smap).Proper := by
  obtain ⟨hextra, hcount, hbase, hlength⟩ := bootArgs_eq h hk smap
  obtain ⟨hends, hapart⟩ := hfw.trimmed
  have hhi := h.hi
  have hlo := h.lo
  have haligned := h.aligned
  rw [physbase] at hlo hlength
  rw [physbase] at hbase
  refine ⟨?_, ?_, fun e he htype => ?_, ?_, fun e he p hp hin hearly => ?_⟩
  · rw [hextra, KERN_VMBASE]
    omega
  · rw [hcount]
    omega
  · have := hends e he htype
    rw [BootMemory.Ends, hbase, hlength]
    omega
  · refine hapart.imp fun {e e'} hapart p hp hin hin' => ?_
    obtain ⟨htype, hle, hlt, -⟩ := hin
    obtain ⟨htype', hle', hlt', -⟩ := hin'
    rw [PAGE_SIZE] at hlt hlt'
    rcases hapart htype htype' with h | h <;> omega
  · obtain ⟨htype, hle, hlt, hout⟩ := hin
    have := hends e he htype
    obtain ⟨j, -, hj, heq⟩ := bootArgs_extra h hk hearly
    rw [hbase, hlength] at hout
    rw [wadd, GetPage.KERN_VMBASE, KERN_VMBASE] at heq
    rw [PAGE_SIZE] at hlt hout
    omega

/-- The kernel image fits into two pages of 2M. -/
theorem exists_place {kernend : ℕ} (hlo : kernbase ≤ kernend) (hhi : kernend < kernbase + 0x400000) :
    ∃ F, Place (wadd kernend 0x1000 &&& 0xfffffffffffff000) F := by
  rw [kernbase, physoffset, physbase] at hlo hhi
  have hadd : wadd kernend 0x1000 = kernend + 0x1000 := by
    rw [wadd]
    omega
  rw [hadd, and_page _ (by omega)]
  refine ⟨(kernend + 0x1000) / 4096 * 4096 - physoffset, ?_, ?_, ?_, ?_⟩
  · rw [physoffset]
    omega
  · rw [physoffset]
    omega
  · rw [physoffset, physbase]
    omega
  · rw [physoffset]
    omega

end Boots

end SadOS.Mm.Paging
