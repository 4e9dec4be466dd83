import SadOS.Mm.Paging

/-!
# Mapping one page

`map_page` goes down to the table of the last level, adds the tables that are missing on the
way, and sets the entry.  The tables are a tree apart from slot 256 of the pml4, and a
frame for a new table is not part of it, so that each round of the loop keeps the tree and
every translation, and the last write changes one page.  The flags of the page are those of
the new tables too: bit 7 among them makes a new table a large page.

## Main definitions

* `TablePath`, `Supply` — the tree, and the frames for new tables.
* `Ready` — the state of the loop.
* `lastFlags` — the flags of a mapping.

## Main results

* `checkLevels_ready` — the loop.
* `mapPage_exact` — what a new mapping changes.
-/

namespace SadOS.Mm.Paging

open TableTree

/-- A path to a table that does not go through slot 256 of the pml4. -/
structure TablePath (p : List ℕ) : Prop where
  length : p.length ≤ 3
  head : ∀ i, p.head? = some i → i ≠ 256
  indices : ∀ i ∈ p, i < 512

/-- The calls `lo` to `hi` of the allocator return frames that are not in use as tables. -/
structure Supply (gpp : ℕ → ℕ) (m : Memory) (cr3 lo hi : ℕ) : Prop where
  aligned : ∀ k, lo ≤ k → k < hi → gpp k % 4096 = 0
  bound : ∀ k, lo ≤ k → k < hi → gpp k < 2 ^ 52
  unused : ∀ k, lo ≤ k → k < hi → Unused nextTable TablePath m cr3 (gpp k)
  distinct : ∀ j k, lo ≤ j → j < k → k < hi → gpp k ≠ gpp j

/-- The state of the loop with `n` rounds left. -/
structure Ready (cr3 : ℕ) (gpp : ℕ → ℕ) (n : ℕ) (s : Tables) : Prop where
  self : nextTable (s.mem cr3 256) = some cr3
  tree : IsTree nextTable TablePath s.mem cr3
  supply : Supply gpp s.mem cr3 s.taken (s.taken + n)

/-- All bits of the entry that maps an address, beside the base. -/
def lastFlags (m : Memory) (cr3 va : ℕ) : Option ℕ :=
  (leaf m cr3 va).map fun (_, pte) => pte &&& 0xfff0000000000fff

theorem TablePath.of_append {p q : List ℕ} (h : TablePath (p ++ q)) : TablePath p where
  length := by
    have := h.length
    simp only [List.length_append] at this
    omega
  head i hi := h.head i (by cases p <;> simp_all)
  indices i hi := h.indices i (List.mem_append_left q hi)

/-- A path to an entry passes tables only. -/
theorem tablePath_of_split {va : ℕ} (hva : index va 0 ≠ 256) {p r : List ℕ} {j : ℕ}
    (h : path va = p ++ j :: r) : TablePath p := by
  have hlen := congrArg List.length h
  have hmem : ∀ i ∈ path va, i < 512 := by
    intro i hi
    simp only [path, List.mem_cons, List.not_mem_nil, or_false] at hi
    rcases hi with rfl | rfl | rfl | rfl <;> exact index_lt
  refine ⟨?_, fun i hi => ?_, fun i hi => hmem i (h ▸ List.mem_append_left _ hi)⟩
  · simp only [path, List.length_append, List.length_cons, List.length_nil] at hlen
    omega
  · cases p with
    | nil => simp at hi
    | cons i' p =>
      rw [path, List.cons_append, List.cons.injEq] at h
      cases hi
      exact h.1 ▸ hva

theorem tablePath_take {va : ℕ} (hva : index va 0 ≠ 256) {i : ℕ} (hi : i < 4) :
    TablePath ((path va).take i) := by
  refine tablePath_of_split hva (j := index va i) (r := (path va).drop (i + 1)) ?_
  interval_cases i <;> rfl

/-! ## Entries -/

section Entries

variable {base low flags : ℕ}

theorem pteSetBase_zero (haligned : base % 4096 = 0) (hbase : base < 2 ^ 52) :
    pteSetBase 0 base 0 = base := by
  have hmask : base &&& 0xfffffffffffff000 = base / 4096 % 2 ^ 52 * 4096 := and_field _ 52 12
  simp only [pteSetBase, Nat.zero_and, Nat.zero_or, hmask, OfNat.zero_ne_ofNat, reduceIte,
    ne_eq, not_true_eq_false, Nat.reduceEqDiff]
  omega

/-- The parts of an entry. -/
theorem pteGetBase_or (haligned : base % 4096 = 0) (hbase : base < 2 ^ 52) (hlow : low < 4096) :
    pteGetBase (base ||| low) = base := by
  rw [pteGetBase_eq, or_low 12 haligned hlow]
  omega

theorem flags_or (haligned : base % 4096 = 0) (hbase : base < 2 ^ 52) (hlow : low < 4096) :
    (base ||| low) &&& 0xfff0000000000fff = low := by
  have hmask : (0xfff0000000000fff : ℕ) = (2 ^ 12 - 1) <<< 52 ||| (2 ^ 12 - 1) := by decide
  rw [hmask, Nat.and_or_distrib_left, and_field, and_low, or_low 12 haligned hlow]
  have hhigh : (base + low) / 2 ^ 52 % 2 ^ 12 * 2 ^ 52 = 0 := by omega
  rw [hhigh, Nat.zero_or]
  omega

theorem present_or (haligned : base % 4096 = 0) :
    present (base ||| low) = low.testBit 0 := by
  have h : base.testBit 0 = false := testBit_low (k := 12) haligned (by norm_num)
  rw [Bool.eq_iff_iff, present, bne_iff_ne, PTE_P]
  rw [show (1 : ℕ) = 2 ^ 0 from rfl, and_bit_ne_zero, Nat.testBit_or, h, Bool.false_or]

theorem huge_or (haligned : base % 4096 = 0) : huge (base ||| low) = low.testBit 7 := by
  have h : base.testBit 7 = false := testBit_low (k := 12) haligned (by norm_num)
  rw [Bool.eq_iff_iff, huge, bne_iff_ne, and_bit_ne_zero, Nat.testBit_or, h, Bool.false_or]

theorem flags_lt (flags : ℕ) {k : ℕ} (hk : k < 4096) : flags &&& 0xfff ||| k < 4096 :=
  Nat.or_lt_two_pow (n := 12) (Nat.and_lt_two_pow flags (by norm_num)) hk

/-- The entry of a new table. -/
theorem nextTable_entry (haligned : base % 4096 = 0) (hbase : base < 2 ^ 52)
    (hflags : flags.testBit 7 = false) :
    nextTable (pteSetFlags (pteSetBase 0 base 0) flags ||| (PTE_P ||| PTE_W)) = some base := by
  rw [pteSetBase_zero haligned hbase, pteSetFlags, Nat.or_assoc, nextTable_eq_some,
    present_or haligned, huge_or haligned]
  refine ⟨?_, ?_, pteGetBase_or haligned hbase (flags_lt flags (by decide))⟩
  · simp [PTE_P, PTE_W]
  · simp [PTE_P, PTE_W, hflags]
    decide

end Entries

/-! ## A new table -/

section NewTable

variable {cr3 va t i n flags : ℕ} {gpp : ℕ → ℕ} {s : Tables}

theorem present_zero : present 0 = false := by decide

/-- The entry that refers to the new table. -/
def tableEntry (gpp : ℕ → ℕ) (s : Tables) (flags : ℕ) : ℕ :=
  pteSetFlags (pteSetBase 0 (gpp s.taken) 0) flags ||| (PTE_P ||| PTE_W)

theorem ok_prefix {q : List ℕ} (hq : TablePath q) {p' r : List ℕ} {j : ℕ} (h : q = p' ++ j :: r) :
    TablePath p' :=
  TablePath.of_append (h ▸ hq)

theorem Ready.mono {n n' : ℕ} (hs : Ready cr3 gpp n s) (hn : n' ≤ n) : Ready cr3 gpp n' s where
  self := hs.self
  tree := hs.tree
  supply := {
    aligned := fun k hk hk' => hs.supply.aligned k hk (by omega)
    bound := fun k hk hk' => hs.supply.bound k hk (by omega)
    unused := fun k hk hk' => hs.supply.unused k hk (by omega)
    distinct := fun j k hj hjk hk => hs.supply.distinct j k hj hjk (by omega) }

/-- A new table under the entry of level `i`. -/
theorem Ready.fresh (hs : Ready cr3 gpp (n + 1) s) (hva : index va 0 ≠ 256) (hi : i < 3)
    (hflags : flags.testBit 7 = false)
    (ht : descend nextTable s.mem cr3 ((path va).take i) = some t)
    (hempty : nextTable (s.mem t (index va i)) = none) :
    Fresh nextTable TablePath s.mem cr3 ((path va).take i) t (index va i) (tableEntry gpp s flags)
      (gpp s.taken) 0 where
  tree := hs.tree
  prefixes _ _ := TablePath.of_append
  path := by
    rw [← take_path va (by omega)]
    exact tablePath_take hva (by omega)
  table := ht
  empty := hempty
  refers := nextTable_entry (hs.supply.aligned _ le_rfl (by omega))
    (hs.supply.bound _ le_rfl (by omega)) hflags
  clear := nextTable_zero
  unused := hs.supply.unused _ le_rfl (by omega)

/-- The self reference is not the entry of a path beside it. -/
theorem setWord_self_slot (hs : Ready cr3 gpp n s) (hva : index va 0 ≠ 256) (hi : i < 4)
    (ht : descend nextTable s.mem cr3 ((path va).take i) = some t) (e : ℕ) :
    setWord s.mem t (index va i) e cr3 256 = s.mem cr3 256 := by
  refine setWord_of_ne ?_
  rintro ⟨rfl, h256⟩
  have hnil := hs.tree _ [] cr3 (tablePath_take hva hi) ⟨by simp, by simp, by simp⟩ ht rfl
  have hzero : i = 0 := by
    have := congrArg List.length hnil
    simp [path] at this
    omega
  subst hzero
  exact hva h256.symm

/-- What the new table costs. -/
theorem addTable_eq (hs : Ready cr3 gpp (n + 1) s) (hva : index va 0 ≠ 256) (hi : i < 3)
    (hflags : flags.testBit 7 = false)
    (ht : descend nextTable s.mem cr3 ((path va).take i) = some t)
    (hempty : nextTable (s.mem t (index va i)) = none) :
    addTable cr3 gpp s va i flags =
      .ok ⟨link s.mem t (index va i) (tableEntry gpp s flags) (gpp s.taken) 0, s.taken + 1⟩ := by
  have hfresh := hs.fresh hva hi hflags ht hempty
  have hself : nextTable (setWord s.mem t (index va i) (tableEntry gpp s flags) cr3 256) =
      some cr3 := by
    rw [setWord_self_slot hs hva (by omega) ht]
    exact hs.self
  have hnext : descend nextTable (setWord s.mem t (index va i) (tableEntry gpp s flags)) cr3
      ((path va).take (i + 1)) = some (gpp s.taken) := by
    rw [take_path va (by omega), descend_setWord_through hs.tree hfresh.ok_path
      (fun _ _ _ h => ok_prefix hfresh.ok_path h) ht]
    exact hfresh.refers
  have hstore := store_getPteAddr hs.self (show i ≤ 3 by omega) ht (tableEntry gpp s flags)
  have hclear := memsetPage_getPteAddr hself (show i + 1 ≤ 3 by omega) hnext
  rw [tableEntry] at hstore hclear
  simp only [addTable]
  rw [hstore, ok_bind, hclear]
  rfl

theorem Ready.addTable (hs : Ready cr3 gpp (n + 1) s) (hva : index va 0 ≠ 256) (hi : i < 3)
    (hflags : flags.testBit 7 = false)
    (ht : descend nextTable s.mem cr3 ((path va).take i) = some t)
    (hempty : nextTable (s.mem t (index va i)) = none) :
    Ready cr3 gpp n
      ⟨link s.mem t (index va i) (tableEntry gpp s flags) (gpp s.taken) 0, s.taken + 1⟩ := by
  have hfresh := hs.fresh hva hi hflags ht hempty
  have hroot : cr3 ≠ gpp s.taken := by
    rintro h
    exact hfresh.unused [] ⟨by simp, by simp, by simp⟩ (by rw [← h]; rfl)
  have hcount : s.taken + 1 + n = s.taken + (n + 1) := by omega
  refine ⟨?_, hfresh.isTree, ?_⟩
  · simp only [link, Function.update_of_ne hroot]
    rw [setWord_self_slot hs hva (by omega) ht]
    exact hs.self
  · change Supply gpp _ cr3 (s.taken + 1) (s.taken + 1 + n)
    rw [hcount]
    exact {
      aligned := fun k hk => hs.supply.aligned k (by omega)
      bound := fun k hk => hs.supply.bound k (by omega)
      unused := fun k hk hk' => hfresh.unused_of_ne (hs.supply.distinct _ k le_rfl hk hk')
        (hs.supply.unused k (by omega) hk')
      distinct := fun j k hj => hs.supply.distinct j k (by omega) }

/-- The walk to the new table. -/
theorem Ready.descend_addTable (hs : Ready cr3 gpp (n + 1) s) (hva : index va 0 ≠ 256) (hi : i < 3)
    (hflags : flags.testBit 7 = false)
    (ht : descend nextTable s.mem cr3 ((path va).take i) = some t)
    (hempty : nextTable (s.mem t (index va i)) = none) :
    descend nextTable (link s.mem t (index va i) (tableEntry gpp s flags) (gpp s.taken) 0) cr3
      ((path va).take (i + 1)) = some (gpp s.taken) := by
  rw [take_path va (by omega)]
  exact (hs.fresh hva hi hflags ht hempty).descend_new

/-- A new table maps nothing. -/
theorem leaf_link (hs : Ready cr3 gpp (n + 1) s) (hva : index va 0 ≠ 256) (hi : i < 3)
    (hflags : flags.testBit 7 = false)
    (ht : descend nextTable s.mem cr3 ((path va).take i) = some t)
    (hempty : present (s.mem t (index va i)) = false) {va' : ℕ} (hva' : index va' 0 ≠ 256) :
    leaf (link s.mem t (index va i) (tableEntry gpp s flags) (gpp s.taken) 0) cr3 va' =
      leaf s.mem cr3 va' := by
  have hnone : nextTable (s.mem t (index va i)) = none := by simp [nextTable, hempty]
  have hfresh := hs.fresh hva hi hflags ht hnone
  by_cases hpre : ((path va).take i ++ [index va i]) <+: path va'
  · obtain ⟨r, hr⟩ := hpre
    have hlen := congrArg List.length hr
    simp only [path, List.length_append, List.length_take, List.length_cons,
      List.length_nil] at hlen
    obtain ⟨j, r, rfl⟩ := List.exists_cons_of_length_pos (l := r) (by omega)
    obtain ⟨hbefore, hafter⟩ := hfresh.walk_under j r
    rw [leaf, leaf, ← hr, hbefore, hafter]
    simp [hempty, present_zero]
  · rw [leaf, leaf, hfresh.walk_off (fun p' j r h => tablePath_of_split hva' h) hpre]

/-- The loop of `get_pte_addr_checked`: every translation stays, and there is a table of the
last level. -/
theorem checkLevels_ready (hs : Ready cr3 gpp n s) (hva : index va 0 ≠ 256) (hi : i + n = 3)
    (ht : descend nextTable s.mem cr3 ((path va).take i) = some t)
    (hflags : flags.testBit 7 = false ∨
      (descend nextTable s.mem cr3 ((path va).take 3)).isSome = true) :
    Safely (fun e => ∃ msg, e = .panic msg)
      (fun r => r.2 = true ∧ Ready cr3 gpp 0 r.1 ∧
        (descend nextTable r.1.mem cr3 ((path va).take 3)).isSome = true ∧
        ∀ va', index va' 0 ≠ 256 → leaf r.1.mem cr3 va' = leaf s.mem cr3 va')
      (checkLevels cr3 gpp va flags true n i s) := by
  induction n generalizing i t s with
  | zero =>
    obtain rfl : i = 3 := by omega
    exact ⟨rfl, hs, by rw [ht]; rfl, fun _ _ => rfl⟩
  | succ n ih =>
    have hload := load_getPteAddr hs.self (show i ≤ 3 by omega) ht
    have hsucc := descend_take_succ ht (show i < 4 by omega)
    rw [checkLevels, hload, ok_bind]
    cases hp : present (s.mem t (index va i)) with
    | false =>
      -- The entry refers to no table yet.
      have hempty : nextTable (s.mem t (index va i)) = none := by simp [nextTable, hp]
      have hclear : flags.testBit 7 = false := by
        rw [descend_take_none (hsucc.trans hempty) (by omega)] at hflags
        simpa using hflags
      have hnew := hs.descend_addTable hva (show i < 3 by omega) hclear ht hempty
      have hrest := ih (hs.addTable hva (by omega) hclear ht hempty) (by omega) hnew (.inl hclear)
      simp only [Bool.not_false, Bool.not_true, Bool.false_eq_true, reduceIte,
        addTable_eq hs hva (show i < 3 by omega) hclear ht hempty, ok_bind]
      exact hrest.mono fun r h => ⟨h.1, h.2.1, h.2.2.1, fun va' hva' =>
        (h.2.2.2 va' hva').trans (leaf_link hs hva (by omega) hclear ht hp hva')⟩
    | true =>
      cases hh : huge (s.mem t (index va i)) with
      | true =>
        have h3 : i ≠ 3 := by omega
        simp [h3]
      | false =>
        have hnext : nextTable (s.mem t (index va i)) = some (pteGetBase (s.mem t (index va i))) :=
          nextTable_eq_some.2 ⟨hp, hh, rfl⟩
        simp only [Bool.not_true, Bool.false_eq_true, reduceIte, Bool.and_false]
        exact ih (hs.mono (Nat.le_succ n)) (by omega) (hsucc.trans hnext) hflags

end NewTable

/-! ## The last entry -/

section LastEntry

variable {cr3 va t n addr flags : ℕ} {gpp : ℕ → ℕ} {s : Tables}

theorem take_three (va : ℕ) : (path va).take 3 ++ [index va 3] = path va := rfl

/-- The entry of a mapped page. -/
theorem leaf_setWord_self (hs : Ready cr3 gpp n s) (hva : index va 0 ≠ 256)
    (ht : descend nextTable s.mem cr3 ((path va).take 3) = some t) {e : ℕ}
    (he : present e = true) :
    leaf (setWord s.mem t (index va 3) e) cr3 va = some (0, e) := by
  have hpath := tablePath_take hva (show 3 < 4 by omega)
  have ht' : descend nextTable (setWord s.mem t (index va 3) e) cr3 ((path va).take 3) = some t := by
    rw [descend_setWord hs.tree hpath ht (fun _ _ _ h => ok_prefix hpath h)
      fun hlong => absurd hlong.length_le (by simp [path])]
    exact ht
  have hwalk : walk nextTable (setWord s.mem t (index va 3) e) cr3 (path va) = some (0, e) := by
    rw [← take_three, walk_append ht' (by simp), walk, setWord_self]
  rw [leaf, hwalk]
  simp [he]

/-- No other page is mapped by that entry. -/
theorem leaf_setWord_of_ne (hs : Ready cr3 gpp n s) (hva : index va 0 ≠ 256)
    (ht : descend nextTable s.mem cr3 ((path va).take 3) = some t) (e : ℕ) {va' : ℕ}
    (hva' : index va' 0 ≠ 256) (hne : slot va' ≠ slot va) :
    leaf (setWord s.mem t (index va 3) e) cr3 va' = leaf s.mem cr3 va' := by
  have hnot : ¬((path va).take 3 ++ [index va 3]) <+: path va' := by
    rw [take_three]
    intro hpre
    exact hne (path_inj.1 (hpre.eq_of_length rfl).symm)
  rw [leaf, leaf, walk_setWord hs.tree (tablePath_take hva (by omega)) ht
    (fun p' j r h => tablePath_of_split hva' h) hnot]

/-- The last entry maps the page at `addr`. -/
theorem lastEntry_parts (haligned : addr % 4096 = 0) (haddr : addr < 2 ^ 52) (flags : ℕ) :
    present (pteSetFlags (pteSetBase 0 addr 0) flags ||| PTE_P) = true ∧
      pteGetBase (pteSetFlags (pteSetBase 0 addr 0) flags ||| PTE_P) = addr ∧
      (pteSetFlags (pteSetBase 0 addr 0) flags ||| PTE_P) &&& 0xfff0000000000fff =
        flags &&& 0xfff ||| PTE_P := by
  have hlow := flags_lt flags (show PTE_P < 4096 by decide)
  rw [pteSetBase_zero haligned haddr, pteSetFlags, Nat.or_assoc]
  refine ⟨?_, pteGetBase_or haligned haddr hlow, flags_or haligned haddr hlow⟩
  rw [present_or haligned]
  simp [PTE_P]

end LastEntry

/-- What the flags of a new mapping may be: those of a page of 4K, or, where no table is
missing, any. -/
def FlagsFit (m : Memory) (cr3 vaddr flags : ℕ) : Prop :=
  flags.testBit 7 = false ∨ (descend nextTable m cr3 ((path vaddr).take 3)).isSome = true

/-- `map_page` panics, or maps the page and changes no other translation. -/
theorem mapPage_safe {cr3 addr vaddr flags : ℕ} {gpp : ℕ → ℕ} {s : Tables}
    (hs : Ready cr3 gpp 3 s) (hva : index vaddr 0 ≠ 256) (haligned : addr % 4096 = 0)
    (haddr : addr < 2 ^ 52) (hflags : FlagsFit s.mem cr3 vaddr flags) :
    Safely (fun e => ∃ msg, e = .panic msg)
      (fun s' => translate s'.mem cr3 vaddr = some (addr + vaddr % 4096) ∧
        lastFlags s'.mem cr3 vaddr = some (flags &&& 0xfff ||| PTE_P) ∧
        ∀ va', index va' 0 ≠ 256 → slot va' ≠ slot vaddr →
          leaf s'.mem cr3 va' = leaf s.mem cr3 va')
      (mapPage cr3 gpp s addr vaddr 0 flags) := by
  have hloop := checkLevels_ready (n := 3) hs hva rfl rfl hflags
  simp only [mapPage, getPteAddrChecked, safely_bind]
  refine hloop.mono fun r h => ?_
  obtain ⟨hfound, hr, htable, hsame⟩ := h
  obtain ⟨t, ht⟩ := Option.isSome_iff_exists.1 htable
  have hload := load_getPteAddr hr.self le_rfl ht
  have hpresent := lastEntry_parts haligned haddr flags
  simp only [hfound, reduceIte, safely_ok, Nat.sub_zero, hload, ok_bind]
  cases hp : present (r.1.mem t (index vaddr 3)) with
  | true => simp
  | false =>
    have hstore := store_getPteAddr hr.self le_rfl ht
      (pteSetFlags (pteSetBase 0 addr 0) flags ||| PTE_P)
    have hleaf := leaf_setWord_self hr hva ht hpresent.1
    simp only [Bool.false_eq_true, reduceIte, hstore, ok_bind, safely_ok]
    refine ⟨?_, ?_, fun va' hva' hne => ?_⟩
    · simp only [translate, hleaf, Option.map_some, hpresent.2.1, Option.some.injEq]
      omega
    · simp only [lastFlags, hleaf, Option.map_some, hpresent.2.2]
    · rw [leaf_setWord_of_ne hr hva ht _ hva' hne, hsame va' hva']

/-- A pml4 with nothing but its own slot. -/
def bare : Memory := fun f i => if f = 0x1000 ∧ i = 256 then 0x1003 else 0

/-- Frames from 8K on. -/
def nextFrames (k : ℕ) : ℕ := 0x2000 + 4096 * k

theorem descend_bare {p : List ℕ} {f : ℕ} (hp : TablePath p)
    (h : descend nextTable bare 0x1000 p = some f) : p = [] ∧ f = 0x1000 := by
  cases p with
  | nil => exact ⟨rfl, (Option.some.inj h).symm⟩
  | cons i r =>
    have hi : i ≠ 256 := hp.head i rfl
    rw [descend_cons, show bare 0x1000 i = 0 by simp [bare, hi], nextTable_zero] at h
    cases h

theorem isTree_bare : IsTree nextTable TablePath bare 0x1000 := by
  intro p q f hp hq hpf hqf
  rw [(descend_bare hp hpf).1, (descend_bare hq hqf).1]

theorem supply_bare {n : ℕ} (hn : n ≤ 2 ^ 39) : Supply nextFrames bare 0x1000 0 n where
  aligned k _ _ := by
    rw [nextFrames]
    omega
  bound k _ hk := by
    rw [nextFrames]
    omega
  unused k _ _ p hp hpf := by
    have := (descend_bare hp hpf).2
    rw [nextFrames] at this
    omega
  distinct j k _ hjk _ := by
    rw [nextFrames, nextFrames]
    omega

end SadOS.Mm.Paging
