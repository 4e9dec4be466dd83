import SadOS.Mm.State
import SadOS.Lib.Masks
import SadOS.Lib.TableTree
import Mathlib.Tactic.IntervalCases

/-!
# The walks of the page tables

`sys/mm/paging.c` reaches the tables of the current address space through slot 256 of the
pml4, which refers to the pml4 itself: an address with that slot makes the processor walk
the tables as if they were pages.  `sys/mm/page_table.c` walks the tables of any address
space by the direct map of the memory.  Here memory is the words of each frame, and the
processor's walk is `translate`.  It does not check that an address is canonical, takes no
part in protection, and caches nothing.

## Main definitions

* `translate`, `load`, `store` — the processor.
* `getPteAddr`, `getPteAddrChecked`, `mapPage`, `unmap` — through the slot.
* `ptableGetEntry4k`, `unmapMaybeCurrent` — through the direct map.

## Main results

* `translate_getPteAddr` — what an address through the slot refers to.
* `unmapMaybeCurrent_user` — which entry is cleared.
* `walks_agree` — both walks find the same entry.
-/

namespace SadOS.Mm.Paging

open TableTree

def PTE_P : ℕ := 1
def PTE_W : ℕ := 2
def KERN_VMBASE : ℕ := 0xffff808000000000

/-- The physical memory: the 512 words of the frame at each physical address. -/
abbrev Memory := ℕ → ℕ → ℕ

/-! ## Entries -/

/-- `pte_set_base`, whose name for the entry is `in`. -/
def pteSetBase (pte base type : ℕ) : ℕ :=
  let clr := pte &&& 0xfff0000000000fff
  let sanitizedBase := base &&& 0xfffffffffffff000
  let sanitizedBase :=
    if type = 1 then sanitizedBase &&& 0xffffffffffe00000
    else if type = 2 then sanitizedBase &&& 0xffffffffc0000000
    else sanitizedBase
  let out := clr ||| sanitizedBase
  if type ≠ 0 then out ||| 2 ^ 7 else out

/-- `pte_get_base`. -/
def pteGetBase (pte : ℕ) : ℕ := pte &&& 0xffffffffff000

/-- `pte_set_flags`. -/
def pteSetFlags (pte flags : ℕ) : ℕ := pte ||| (flags &&& 0xfff)

/-- `*pte & PTE_P`. -/
def present (pte : ℕ) : Bool := pte &&& PTE_P != 0

/-- `*pte & BIT(7)`. -/
def huge (pte : ℕ) : Bool := pte &&& 2 ^ 7 != 0

/-- The table of the next level that an entry refers to. -/
def nextTable (pte : ℕ) : Option ℕ :=
  if present pte && !huge pte then some (pteGetBase pte) else none

/-! ## The processor -/

/-- The index of an address in the table of level `i`. -/
def index (va i : ℕ) : ℕ := va >>> (39 - 9 * i) &&& 0x1ff

/-- The indices of an address. -/
def path (va : ℕ) : List ℕ := [index va 0, index va 1, index va 2, index va 3]

/-- The entry that maps an address, and how many levels are left under it: none for a 4K
page, one for a 2M and two for a 1G page.  A pml4 entry cannot map a page. -/
def leaf (m : Memory) (cr3 va : ℕ) : Option (ℕ × ℕ) :=
  match walk nextTable m cr3 (path va) with
  | some (left, pte) => if present pte && left < 3 then some (left, pte) else none
  | none => none

/-- The physical address. -/
def translate (m : Memory) (cr3 va : ℕ) : Option ℕ :=
  (leaf m cr3 va).map fun (left, pte) =>
    pteGetBase pte / 2 ^ (12 + 9 * left) * 2 ^ (12 + 9 * left) + va % 2 ^ (12 + 9 * left)

/-- A read through a virtual address. -/
def load (m : Memory) (cr3 va : ℕ) : Except Fault ℕ :=
  match translate m cr3 va with
  | some pa => .ok (m (pageAlign pa) (pa % 4096 / 8))
  | none => .error .badPointer

/-- A write through a virtual address. -/
def store (m : Memory) (cr3 va val : ℕ) : Except Fault Memory :=
  match translate m cr3 va with
  | some pa => .ok (setWord m (pageAlign pa) (pa % 4096 / 8) val)
  | none => .error .badPointer

/-- `memset(va, 0, 0x1000)`, for the address of a page. -/
def memsetPage (m : Memory) (cr3 va : ℕ) : Except Fault Memory :=
  match translate m cr3 va with
  | some pa => .ok (Function.update m (pageAlign pa) fun _ => 0)
  | none => .error .badPointer

/-! ## The walk through the slot -/

/-- `get_pte_addr`. -/
def getPteAddr (addr level : ℕ) : ℕ :=
  let addr := addr &&& 0xffffffffffff
  let res := (List.range (4 - level)).foldl (fun res i => res ||| 0x100 <<< (39 - 9 * i)) 0
  let addr := addr >>> 12
  let addr := if level < 3 then addr >>> (9 * (3 - level) - 3) else addr <<< 3
  let res := res ||| (addr &&& 0xfffffffffffffff8)
  res ||| 0xffff000000000000

/-- The memory, and how many frames `gpp` returned so far. -/
structure Tables where
  mem : Memory
  taken : ℕ

section

variable (cr3 : ℕ) (gpp : ℕ → ℕ)

/-- The new table that the loop of `get_pte_addr_checked` puts under an entry. -/
def addTable (s : Tables) (vaddr i flags : ℕ) : Except Fault Tables := do
  let entry := pteSetBase 0 (gpp s.taken) 0
  let entry := pteSetFlags entry flags
  let entry := entry ||| (PTE_P ||| PTE_W)
  let mem ← store s.mem cr3 (getPteAddr vaddr i) entry
  let mem ← memsetPage mem cr3 (getPteAddr vaddr (i + 1) &&& 0xfffffffffffff000)
  .ok ⟨mem, s.taken + 1⟩

/-- The loop of `get_pte_addr_checked` from level `i` on, with the rounds that are left, and
whether it comes to its end. -/
def checkLevels (vaddr flags : ℕ) (create : Bool) : ℕ → ℕ → Tables → Except Fault (Tables × Bool)
  | 0, _, s => .ok (s, true)
  | n + 1, i, s => do
    let pte ← load s.mem cr3 (getPteAddr vaddr i)
    if !present pte then
      if !create then
        .ok (s, false)
      else do
        let s ← addTable cr3 gpp s vaddr i flags
        checkLevels vaddr flags create n (i + 1) s
    else if i ≠ 3 && huge pte then
      .error (.panic "Xx")
    else
      checkLevels vaddr flags create n (i + 1) s

/-- `get_pte_addr_checked`. -/
def getPteAddrChecked (s : Tables) (vaddr pgsize flags : ℕ) (create : Bool) :
    Except Fault (Tables × Option ℕ) := do
  let (s, found) ← checkLevels cr3 gpp vaddr flags create (3 - pgsize) 0 s
  .ok (s, if found then some (getPteAddr vaddr (3 - pgsize)) else none)

/-- `_map_page`; `map_page` is this function with `get_phys_page` for `gpp`. -/
def mapPage (s : Tables) (addr vaddr pgsize flags : ℕ) : Except Fault Tables := do
  let (s, pte) ← getPteAddrChecked cr3 gpp s vaddr pgsize flags true
  match pte with
  | none => .error .nullDeref
  | some pte => do
    if present (← load s.mem cr3 pte) then
      .error (.panic "mapping an already mapped page")
    else do
      let entry := pteSetBase 0 addr pgsize
      let entry := pteSetFlags entry flags
      let entry := entry ||| PTE_P
      .ok { s with mem := ← store s.mem cr3 pte entry }

/-- `unmap`, which passes no `gpp`. -/
def unmap (m : Memory) (vaddr : ℕ) : Except Fault Memory := do
  let (s, pte) ← getPteAddrChecked cr3 (fun _ => 0) ⟨m, 0⟩ vaddr 0 0 false
  match pte with
  | none => .ok s.mem
  | some pte => store s.mem cr3 pte 0

end

/-! ## The walk through the direct map -/

/-- The loop of `ptable_get_entry_4k`, with the rounds that are left: the table of the last
level. -/
def tableBase (m : Memory) (cr3 vaddr : ℕ) : ℕ → ℕ → ℕ → Except Fault (Option ℕ)
  | 0, _, base => .ok (some base)
  | n + 1, i, base => do
    let offset := vaddr >>> (39 - i * 9) &&& 0x1ff
    let pte ← load m cr3 (wadd base (8 * offset))
    if pte &&& 1 = 0 then
      .ok none
    else
      tableBase m cr3 vaddr n (i + 1) (wadd (pteGetBase pte) KERN_VMBASE)

/-- `ptable_get_entry_4k`, while `cr3` is the current pml4. -/
def ptableGetEntry4k (m : Memory) (cr3 pml4 vaddr : ℕ) : Except Fault (Option ℕ) :=
  if vaddr &&& 2 ^ 63 ≠ 0 then
    .error (.panic "Trying to lookup kernel address in user space page table\n")
  else do
    match ← tableBase m cr3 vaddr 3 0 pml4 with
    | none => .ok none
    | some base =>
      let offset := vaddr >>> 12 &&& 0x1ff
      .ok (some (wadd base (8 * offset)))

/-- `unmap_maybe_current`, for the address space with the pml4 in the frame `root`. -/
def unmapMaybeCurrent (m : Memory) (cr3 root vaddr : ℕ) : Except Fault Memory :=
  if root = cr3 then
    unmap cr3 m vaddr
  else do
    match ← ptableGetEntry4k m cr3 (wadd root KERN_VMBASE) vaddr with
    | none => .ok m
    | some pte => store m cr3 pte 0

/-! ## Addresses and entries -/

theorem index_eq (va i : ℕ) : index va i = va / 2 ^ (39 - 9 * i) % 512 := by
  rw [index, Nat.shiftRight_eq_div_pow]
  exact and_low _ 9

theorem pteGetBase_eq (pte : ℕ) : pteGetBase pte = pte / 4096 % 2 ^ 40 * 4096 := by
  exact and_field pte 40 12

/-- The part of an address through the slot that selects the slot. -/
def selfPart (level : ℕ) : ℕ :=
  (List.range (4 - level)).foldl (fun res i => res ||| 0x100 <<< (39 - 9 * i)) 0

theorem getPteAddr_eq (va : ℕ) {level : ℕ} (h : level ≤ 3) :
    getPteAddr va level =
      0xffff000000000000 + selfPart level + va % 2 ^ 48 / 2 ^ (39 - 9 * level) * 8 := by
  have hlow : va &&& 0xffffffffffff = va % 2 ^ 48 := and_low va 48
  have hmul : ∀ n, n &&& 0xfffffffffffffff8 = n / 8 % 2 ^ 61 * 8 := fun n => and_field n 61 3
  have hself : selfPart level % 2 ^ (12 + 9 * level) = 0 ∧ selfPart level + 2 ^ (12 + 9 * level) ≤ 2 ^ 48 := by
    interval_cases level <;> decide
  have hfield : (va % 2 ^ 48) / 2 ^ (39 - 9 * level) * 8 < 2 ^ (12 + 9 * level) := by
    interval_cases level <;> omega
  have haddr : (if level < 3 then (va % 2 ^ 48) >>> 12 >>> (9 * (3 - level) - 3)
      else (va % 2 ^ 48) >>> 12 <<< 3) / 8 % 2 ^ 61 * 8 = va % 2 ^ 48 / 2 ^ (39 - 9 * level) * 8 := by
    interval_cases level <;> simp only [Nat.shiftRight_eq_div_pow, Nat.shiftLeft_eq, Nat.reduceLT, reduceIte] <;> omega
  rw [getPteAddr, hlow, hmul, haddr]
  change (selfPart level ||| _) ||| _ = _
  rw [or_low _ hself.1 hfield, Nat.or_comm, or_low 48 (by norm_num)]
  · omega
  · exact (Nat.add_lt_add_left hfield _).trans_le hself.2


/-- The indices of an address through the slot: the slot, and then those of the address. -/
theorem path_getPteAddr (va : ℕ) {level : ℕ} (h : level ≤ 3) :
    path (getPteAddr va level) = List.replicate (4 - level) 256 ++ (path va).take level ∧
      getPteAddr va level % 4096 = 8 * index va level := by
  have h0 : selfPart 0 = 2 ^ 47 + 2 ^ 38 + 2 ^ 29 + 2 ^ 20 := by decide
  have h1 : selfPart 1 = 2 ^ 47 + 2 ^ 38 + 2 ^ 29 := by decide
  have h2 : selfPart 2 = 2 ^ 47 + 2 ^ 38 := by decide
  have h3 : selfPart 3 = 2 ^ 47 := by decide
  simp only [path, index_eq, getPteAddr_eq va h]
  interval_cases level <;>
    simp only [List.replicate, List.take, List.cons_append, List.nil_append, List.cons.injEq,
      and_true, h0, h1, h2, h3] <;> omega

/-- The indices of an address are its slot. -/
theorem path_inj {va va' : ℕ} : path va = path va' ↔ slot va = slot va' := by
  simp only [path, index_eq, slot, List.cons.injEq, and_true]
  omega

theorem nextTable_eq_some {pte t : ℕ} :
    nextTable pte = some t ↔ present pte = true ∧ huge pte = false ∧ pteGetBase pte = t := by
  rw [nextTable]
  cases present pte <;> cases huge pte <;> simp

/-- A table begins at the address of a page. -/
theorem aligned_of_nextTable {pte t : ℕ} (h : nextTable pte = some t) : t % 4096 = 0 := by
  obtain ⟨-, -, rfl⟩ := nextTable_eq_some.1 h
  rw [pteGetBase_eq]
  omega

theorem nextTable_zero : nextTable 0 = none := by decide

section Processor

variable {m : Memory} {cr3 t va i : ℕ} {q : List ℕ}

/-- An address whose walk uses the table `t` as a page. -/
theorem translate_of_descend (hq : path va = q) (h : descend nextTable m cr3 q = some t) :
    translate m cr3 va = some (t + va % 4096) := by
  obtain ⟨pte, hwalk, hnext⟩ := walk_of_descend (by rw [← hq, path]; simp) h
  obtain ⟨hp, -, hbase⟩ := nextTable_eq_some.1 hnext
  have haligned := aligned_of_nextTable hnext
  rw [translate, leaf, hq, hwalk]
  simp only [hp, hbase, Bool.true_and, Nat.ofNat_pos, decide_true, reduceIte, Option.map_some,
    Option.some.injEq]
  omega

theorem load_of_translate (h : translate m cr3 va = some (t + 8 * i)) (ht : t % 4096 = 0)
    (hi : i < 512) : load m cr3 va = .ok (m t i) := by
  rw [load, h]
  simp only [pageAlign]
  congr 2 <;> omega

theorem store_of_translate (h : translate m cr3 va = some (t + 8 * i)) (ht : t % 4096 = 0)
    (hi : i < 512) (val : ℕ) : store m cr3 va val = .ok (setWord m t i val) := by
  rw [store, h]
  simp only [pageAlign]
  congr 2 <;> omega

/-- A slot that refers to its own table leads back to it. -/
theorem descend_self (hself : nextTable (m cr3 256) = some cr3) (n : ℕ) (p : List ℕ) :
    descend nextTable m cr3 (List.replicate n 256 ++ p) = descend nextTable m cr3 p := by
  induction n with
  | zero => rfl
  | succ n ih =>
    rw [List.replicate_succ, List.cons_append, descend_cons, hself]
    exact ih

/-- An address through the slot refers to the entry of its level. -/
theorem translate_getPteAddr (hself : nextTable (m cr3 256) = some cr3) {level : ℕ}
    (hlevel : level ≤ 3) (h : descend nextTable m cr3 ((path va).take level) = some t) :
    translate m cr3 (getPteAddr va level) = some (t + 8 * index va level) := by
  obtain ⟨hpath, hoffset⟩ := path_getPteAddr va hlevel
  rw [translate_of_descend hpath ((descend_self hself _ _).trans h), hoffset]

theorem index_lt : index va i < 512 := by
  rw [index_eq]
  omega

/-- Every table along a path begins at the address of a page. -/
theorem aligned_of_descend (hself : nextTable (m cr3 256) = some cr3)
    (h : descend nextTable m cr3 q = some t) : t % 4096 = 0 := by
  rcases List.eq_nil_or_concat q with rfl | ⟨p, j, rfl⟩
  · cases h
    exact aligned_of_nextTable hself
  · rw [List.concat_eq_append, descend_append, Option.bind_eq_some_iff] at h
    obtain ⟨g, hg, h⟩ := h
    rw [descend_cons, Option.bind_eq_some_iff] at h
    obtain ⟨t', ht', h⟩ := h
    cases h
    exact aligned_of_nextTable ht'

theorem load_getPteAddr (hself : nextTable (m cr3 256) = some cr3) {level : ℕ}
    (hlevel : level ≤ 3) (h : descend nextTable m cr3 ((path va).take level) = some t) :
    load m cr3 (getPteAddr va level) = .ok (m t (index va level)) :=
  load_of_translate (translate_getPteAddr hself hlevel h) (aligned_of_descend hself h) index_lt

theorem store_getPteAddr (hself : nextTable (m cr3 256) = some cr3) {level : ℕ}
    (hlevel : level ≤ 3) (h : descend nextTable m cr3 ((path va).take level) = some t) (val : ℕ) :
    store m cr3 (getPteAddr va level) val = .ok (setWord m t (index va level) val) :=
  store_of_translate (translate_getPteAddr hself hlevel h) (aligned_of_descend hself h) index_lt val

/-- The page of the address of an entry is the table. -/
theorem memsetPage_getPteAddr (hself : nextTable (m cr3 256) = some cr3) {level : ℕ}
    (hlevel : level ≤ 3) (h : descend nextTable m cr3 ((path va).take level) = some t) :
    memsetPage m cr3 (getPteAddr va level &&& 0xfffffffffffff000) =
      .ok (Function.update m t fun _ => 0) := by
  have hpage : getPteAddr va level &&& 0xfffffffffffff000 =
      getPteAddr va level / 4096 % 2 ^ 52 * 4096 := and_field _ 52 12
  have hslot : path (getPteAddr va level / 4096 % 2 ^ 52 * 4096) = path (getPteAddr va level) := by
    rw [path_inj, slot, slot]
    omega
  have haligned := aligned_of_descend hself h
  rw [hpage, memsetPage, translate_of_descend (hslot.trans (path_getPteAddr va hlevel).1)
    ((descend_self hself _ _).trans h)]
  simp only [pageAlign]
  congr 2
  omega

end Processor

/-! ## Both walks -/

/-- A path under the user half. -/
structure UserPath (p : List ℕ) : Prop where
  length : p.length ≤ 3
  head : ∀ i, p.head? = some i → i < 256
  indices : ∀ i ∈ p, i < 512

/-- No entry above the last level of the user half maps a page. -/
def NoHuge (m : Memory) (root : ℕ) : Prop :=
  ∀ p i f, UserPath (p ++ [i]) → descend nextTable m root p = some f →
    present (m f i) = true → huge (m f i) = false

/-- The tables of the user half are inside the direct map. -/
def DirectMapped (m : Memory) (cr3 root : ℕ) : Prop :=
  ∀ p f, UserPath p → descend nextTable m root p = some f →
    ∀ o < 4096, translate m cr3 (wadd f KERN_VMBASE + o) = some (f + o)

theorem take_path (va : ℕ) {i : ℕ} (hi : i < 4) :
    (path va).take (i + 1) = (path va).take i ++ [index va i] := by
  interval_cases i <;> rfl

theorem userPath_take {va : ℕ} (hva : va < 2 ^ 47) {i : ℕ} (hi : i ≤ 3) :
    UserPath ((path va).take i) where
  length := by simp [hi]
  head := by
    have h0 := index_eq va 0
    interval_cases i <;> simp [path, h0] <;> omega
  indices j hj := by
    have hmem := List.mem_of_mem_take hj
    simp only [path, List.mem_cons, List.not_mem_nil, or_false] at hmem
    rcases hmem with rfl | rfl | rfl | rfl <;> exact index_lt

section Walks

variable {m : Memory} {root cr3 va t i n : ℕ}

/-- What the entry of a level says about the table of the next one. -/
theorem descend_take_succ (ht : descend nextTable m root ((path va).take i) = some t) (hi : i < 4) :
    descend nextTable m root ((path va).take (i + 1)) = nextTable (m t (index va i)) := by
  rw [take_path va hi, descend_snoc ht]

/-- A path that ends early. -/
theorem descend_take_none (h : descend nextTable m root ((path va).take i) = none) {j : ℕ}
    (hij : i ≤ j) : descend nextTable m root ((path va).take j) = none := by
  obtain ⟨r, hr⟩ := List.take_prefix_take_left (l := path va) hij
  rw [← hr, descend_append, h]
  rfl

/-- Which entries on the way down a user address takes. -/
theorem nextTable_of_noHuge (hhuge : NoHuge m root) (hva : va < 2 ^ 47) (hi : i < 3)
    (ht : descend nextTable m root ((path va).take i) = some t) :
    nextTable (m t (index va i)) =
      if present (m t (index va i)) then some (pteGetBase (m t (index va i))) else none := by
  have huser := userPath_take hva (show i + 1 ≤ 3 by omega)
  rw [take_path va (by omega)] at huser
  have h := hhuge _ _ t huser ht
  rw [nextTable]
  cases hp : present (m t (index va i)) with
  | false => simp
  | true => simp [h hp]

/-- The loop of `get_pte_addr_checked`, which comes to its end if there is a table of the last
level. -/
theorem checkLevels_user (hself : nextTable (m root 256) = some root) (hhuge : NoHuge m root)
    (hva : va < 2 ^ 47) (gpp : ℕ → ℕ) (flags k : ℕ) (hi : i + n = 3)
    (ht : descend nextTable m root ((path va).take i) = some t) :
    checkLevels root gpp va flags false n i ⟨m, k⟩ =
      .ok (⟨m, k⟩, (descend nextTable m root ((path va).take 3)).isSome) := by
  induction n generalizing i t with
  | zero =>
    obtain rfl : i = 3 := by omega
    rw [ht]
    rfl
  | succ n ih =>
    have hload := load_getPteAddr hself (show i ≤ 3 by omega) ht
    have hnext := nextTable_of_noHuge hhuge hva (show i < 3 by omega) ht
    have hsucc := descend_take_succ ht (show i < 4 by omega)
    rw [checkLevels, hload, ok_bind]
    cases hp : present (m t (index va i)) with
    | false =>
      rw [hnext, hp] at hsucc
      rw [descend_take_none hsucc (by omega)]
      rfl
    | true =>
      rw [hnext, hp] at hsucc
      have hnh : huge (m t (index va i)) = false := by
        rw [nextTable, hp] at hnext
        simpa using hnext
      simp only [hnh, Bool.not_true, Bool.false_eq_true, reduceIte, Bool.and_false]
      exact ih (by omega) hsucc

/-- The loop of `ptable_get_entry_4k`. -/
theorem tableBase_user (hself : nextTable (m root 256) = some root) (hhuge : NoHuge m root)
    (hdirect : DirectMapped m cr3 root) (hva : va < 2 ^ 47) (hi : i + n = 3)
    (ht : descend nextTable m root ((path va).take i) = some t) :
    tableBase m cr3 va n i (wadd t KERN_VMBASE) =
      .ok ((descend nextTable m root ((path va).take 3)).map fun f => wadd f KERN_VMBASE) := by
  induction n generalizing i t with
  | zero =>
    obtain rfl : i = 3 := by omega
    rw [ht]
    rfl
  | succ n ih =>
    have haligned := aligned_of_descend hself ht
    have hentry : wadd (wadd t KERN_VMBASE) (8 * index va i) =
        wadd t KERN_VMBASE + 8 * index va i := by
      have := (index_lt : index va i < 512)
      simp only [wadd, KERN_VMBASE]
      omega
    have hload : load m cr3 (wadd (wadd t KERN_VMBASE) (8 * index va i)) =
        .ok (m t (index va i)) := by
      refine load_of_translate ?_ haligned index_lt
      have := (index_lt : index va i < 512)
      rw [hentry]
      exact hdirect _ t (userPath_take hva (by omega)) ht _ (by omega)
    have hnext := nextTable_of_noHuge hhuge hva (show i < 3 by omega) ht
    have hsucc := descend_take_succ ht (show i < 4 by omega)
    have hindex : va >>> (39 - i * 9) &&& 0x1ff = index va i := by
      rw [index, Nat.mul_comm]
    rw [tableBase, hindex, hload, ok_bind]
    cases hp : present (m t (index va i)) with
    | false =>
      have hzero : m t (index va i) &&& 1 = 0 := by simpa [present, PTE_P] using hp
      rw [hnext, hp] at hsucc
      rw [descend_take_none hsucc (by omega)]
      simp [hzero]
    | true =>
      have hone : ¬m t (index va i) &&& 1 = 0 := by simpa [present, PTE_P] using hp
      rw [hnext, hp] at hsucc
      simp only [hone, reduceIte]
      exact ih (by omega) hsucc

/-- Where `ptable_get_entry_4k` finds the entry of the last level. -/
theorem ptableGetEntry4k_user (hself : nextTable (m root 256) = some root) (hhuge : NoHuge m root)
    (hdirect : DirectMapped m cr3 root) (hva : va < 2 ^ 47) :
    ptableGetEntry4k m cr3 (wadd root KERN_VMBASE) va =
      .ok ((descend nextTable m root ((path va).take 3)).map fun f =>
        wadd f KERN_VMBASE + 8 * index va 3) := by
  have hbit : va &&& 2 ^ 63 = 0 := by
    rw [Nat.and_two_pow, Nat.testBit_lt_two_pow (by omega)]
    simp
  have hindex : va >>> 12 &&& 0x1ff = index va 3 := rfl
  rw [ptableGetEntry4k, hbit, tableBase_user hself hhuge hdirect hva (n := 3) rfl rfl, hindex]
  cases ht : descend nextTable m root ((path va).take 3) with
  | none => rfl
  | some t =>
    have haligned := aligned_of_descend hself ht
    have hlt := (index_lt : index va 3 < 512)
    simp only [ne_eq, not_true_eq_false, reduceIte, Option.map_some, ok_bind, Except.ok.injEq,
      Option.some.injEq]
    simp only [wadd, KERN_VMBASE]
    omega

/-- Where `get_pte_addr_checked` finds it. -/
theorem getPteAddrChecked_user (hself : nextTable (m root 256) = some root) (hhuge : NoHuge m root)
    (hva : va < 2 ^ 47) (gpp : ℕ → ℕ) (flags k : ℕ) :
    getPteAddrChecked root gpp ⟨m, k⟩ va 0 flags false =
      .ok (⟨m, k⟩, (descend nextTable m root ((path va).take 3)).map fun _ => getPteAddr va 3) := by
  rw [getPteAddrChecked, checkLevels_user hself hhuge hva gpp flags k (n := 3) rfl rfl]
  cases descend nextTable m root ((path va).take 3) <;> rfl

/-- `unmap` clears the entry of the last level, if there is one. -/
theorem unmap_user (hself : nextTable (m root 256) = some root) (hhuge : NoHuge m root)
    (hva : va < 2 ^ 47) :
    unmap root m va = .ok ((descend nextTable m root ((path va).take 3)).elim m fun t =>
      setWord m t (index va 3) 0) := by
  rw [unmap, getPteAddrChecked_user hself hhuge hva]
  cases ht : descend nextTable m root ((path va).take 3) with
  | none => rfl
  | some t => exact store_getPteAddr hself le_rfl ht 0

theorem unmapMaybeCurrent_user (hself : nextTable (m root 256) = some root) (hhuge : NoHuge m root)
    (hdirect : root ≠ cr3 → DirectMapped m cr3 root) (hva : va < 2 ^ 47) :
    unmapMaybeCurrent m cr3 root va =
      .ok ((descend nextTable m root ((path va).take 3)).elim m fun t =>
        setWord m t (index va 3) 0) := by
  rw [unmapMaybeCurrent]
  by_cases hcur : root = cr3
  · rw [if_pos hcur, ← hcur, unmap_user hself hhuge hva]
  · rw [if_neg hcur, ptableGetEntry4k_user hself hhuge (hdirect hcur) hva]
    cases ht : descend nextTable m root ((path va).take 3) with
    | none => rfl
    | some t =>
      have hlt := (index_lt : index va 3 < 512)
      exact store_of_translate (hdirect hcur _ t (userPath_take hva le_rfl) ht _ (by omega))
        (aligned_of_descend hself ht) hlt 0

end Walks

/-- A lookup through the slot and one through the direct map find the same entry, so that
`unmap_maybe_current` clears the same one whether or not the address space is current. -/
theorem walks_agree {m : Memory} {root cr3 vaddr : ℕ} (hself : nextTable (m root 256) = some root)
    (hhuge : NoHuge m root) (hdirect : DirectMapped m cr3 root) (hv : vaddr < 2 ^ 47)
    (gpp : ℕ → ℕ) (flags k : ℕ) :
    ∃ pte pte' : Option ℕ,
      getPteAddrChecked root gpp ⟨m, k⟩ vaddr 0 flags false = .ok (⟨m, k⟩, pte) ∧
      ptableGetEntry4k m cr3 (wadd root KERN_VMBASE) vaddr = .ok pte' ∧
      (pte = none ↔ pte' = none) ∧
      (∀ x y, pte = some x → pte' = some y →
        ∃ pa, translate m root x = some pa ∧ translate m cr3 y = some pa) ∧
      unmapMaybeCurrent m cr3 root vaddr = unmapMaybeCurrent m root root vaddr ∧
      (pte = none → unmapMaybeCurrent m cr3 root vaddr = .ok m) ∧
      ∀ x pa, pte = some x → translate m root x = some pa →
        unmapMaybeCurrent m cr3 root vaddr =
          .ok (setWord m (pageAlign pa) (pa % 4096 / 8) 0) := by
  have hother := unmapMaybeCurrent_user hself hhuge (fun _ => hdirect) hv
  have hcurrent := unmapMaybeCurrent_user hself hhuge (fun h => absurd rfl h) hv
  refine ⟨_, _, getPteAddrChecked_user hself hhuge hv gpp flags k,
    ptableGetEntry4k_user hself hhuge hdirect hv, ?_⟩
  rw [hother, hcurrent]
  cases ht : descend nextTable m root ((path vaddr).take 3) with
  | none => simp
  | some t =>
    have haligned := aligned_of_descend hself ht
    have hlt := (index_lt : index vaddr 3 < 512)
    have hslot := translate_getPteAddr hself le_rfl ht
    have hdirect' := hdirect _ t (userPath_take hv le_rfl) ht (8 * index vaddr 3) (by omega)
    refine ⟨by simp, fun x y hx hy => ?_, rfl, by simp, fun x pa hx hpa => ?_⟩
    · cases hx
      cases hy
      exact ⟨_, hslot, hdirect'⟩
    · cases hx
      rw [hslot, Option.some.injEq] at hpa
      have hbase : pageAlign pa = t := by
        rw [pageAlign]
        omega
      have hword : pa % 4096 / 8 = index vaddr 3 := by omega
      rw [hbase, hword]
      rfl

/-- The first gigabyte in the direct map, and a table of the last level for the first 2M. -/
def lowGigabyte : Memory := fun f i =>
  if f = 0x1000 then
    if i = 0 then 0x2003 else if i = 256 then 0x1003 else if i = 257 then 0x5003 else 0
  else if f = 0x2000 ∧ i = 0 then 0x3003
  else if f = 0x3000 ∧ i = 0 then 0x4003
  else if f = 0x5000 ∧ i = 0 then 0x83
  else 0

theorem nextTable_lowGigabyte {f i t : ℕ} (h : nextTable (lowGigabyte f i) = some t) :
    (f = 0x1000 ∧ (i = 0 ∧ t = 0x2000 ∨ i = 256 ∧ t = 0x1000 ∨ i = 257 ∧ t = 0x5000)) ∨
      (f = 0x2000 ∧ t = 0x3000) ∨ (f = 0x3000 ∧ t = 0x4000) := by
  have h2 : nextTable 0x2003 = some 0x2000 := by decide
  have h1 : nextTable 0x1003 = some 0x1000 := by decide
  have h5 : nextTable 0x5003 = some 0x5000 := by decide
  have h3 : nextTable 0x3003 = some 0x3000 := by decide
  have h4 : nextTable 0x4003 = some 0x4000 := by decide
  have h0 : nextTable 0x83 = none := by decide
  unfold lowGigabyte at h
  split_ifs at h <;> simp_all [nextTable_zero]

/-- The tables under the user half. -/
theorem descend_lowGigabyte {p : List ℕ} {f : ℕ} (hp : ∀ i, p.head? = some i → i < 256)
    (h : descend nextTable lowGigabyte 0x1000 p = some f) :
    f = 0x1000 ∧ p = [] ∨ f = 0x2000 ∨ f = 0x3000 ∨ f = 0x4000 := by
  induction p using List.reverseRecOn generalizing f with
  | nil =>
    cases h
    exact .inl ⟨rfl, rfl⟩
  | append_singleton p i ih =>
    rw [descend_append, Option.bind_eq_some_iff] at h
    obtain ⟨g, hg, h⟩ := h
    rw [← List.nil_append [i], descend_snoc rfl] at h
    have hedge := nextTable_lowGigabyte h
    have hg' := ih (fun j hj => hp j (by cases p <;> simp_all)) hg
    rcases hg' with ⟨rfl, rfl⟩ | hg'
    · have := hp i rfl
      omega
    · omega

theorem noHuge_lowGigabyte : NoHuge lowGigabyte 0x1000 := by
  intro p i f hp hf _
  have hf' := descend_lowGigabyte (fun j hj => hp.head j (by cases p <;> simp_all)) hf
  have hne : f ≠ 0x5000 := by omega
  unfold lowGigabyte
  split_ifs <;> first | decide | simp_all

theorem directMapped_lowGigabyte : DirectMapped lowGigabyte 0x1000 0x1000 := by
  intro p f hp hf o ho
  have hf' : f % 4096 = 0 ∧ f < 0x5000 := by
    have := descend_lowGigabyte hp.head hf
    omega
  have hva : wadd f KERN_VMBASE + o = 0xffff808000000000 + (f + o) := by
    simp only [wadd, KERN_VMBASE]
    omega
  have hpath : path (wadd f KERN_VMBASE + o) = [257, 0, 0, f / 4096] := by
    simp only [hva, path, index_eq, List.cons.injEq, and_true]
    omega
  have h5 : nextTable (lowGigabyte 0x1000 257) = some 0x5000 := by decide
  have h0 : nextTable (lowGigabyte 0x5000 0) = none := by decide
  have hp : present (lowGigabyte 0x5000 0) = true := by decide
  have hb : pteGetBase (lowGigabyte 0x5000 0) = 0 := by decide
  have hwalk : walk nextTable lowGigabyte 0x1000 [257, 0, 0, f / 4096] =
      some (2, lowGigabyte 0x5000 0) := by
    rw [walk_cons, h5, Option.elim_some, walk_cons, h0]
    rfl
  have hleaf : leaf lowGigabyte 0x1000 (wadd f KERN_VMBASE + o) = some (2, lowGigabyte 0x5000 0) := by
    rw [leaf, hpath, hwalk]
    simp [hp]
  have hoffset : (0xffff808000000000 + (f + o)) % 2 ^ 30 = f + o := by omega
  rw [hva] at hleaf
  simp only [hva, translate, hleaf, hb, Option.map_some, Option.some.injEq, Nat.zero_div,
    Nat.zero_mul, Nat.zero_add]
  exact hoffset

theorem walks_agree_lowGigabyte :
    ∃ pte pte' : Option ℕ,
      getPteAddrChecked 0x1000 (fun _ => 0) ⟨lowGigabyte, 0⟩ 0x5000 0 0 false =
        .ok (⟨lowGigabyte, 0⟩, pte) ∧
      ptableGetEntry4k lowGigabyte 0x1000 (wadd 0x1000 KERN_VMBASE) 0x5000 = .ok pte' ∧
      (pte = none ↔ pte' = none) := by
  obtain ⟨pte, pte', h, h', hnone, -⟩ := walks_agree (m := lowGigabyte)
    (by decide) noHuge_lowGigabyte directMapped_lowGigabyte (show 0x5000 < 2 ^ 47 by norm_num)
    (fun _ => 0) 0 0
  exact ⟨pte, pte', h, h', hnone⟩

end SadOS.Mm.Paging
