import SadOS.Mm.MapPage

/-!
# Mapping pages of 4K and 2M where nothing is mapped

If the walk to an entry stops at an entry that is not present, `map_page` does not panic:
it adds the tables that are missing and sets the entry.  The walks to other entries that
stopped so still do, and every page that was mapped stays mapped.

## Main definitions

* `Absent` — a walk stops at an entry that is not present.
* `EntryPath` — a path of indices to an entry.
* `Kept` — what one mapping leaves to the others.

## Main results

* `checkLevels_absent` — the loop of `get_pte_addr_checked`.
* `mapPage_absent` — `map_page`.
-/

namespace SadOS.Mm.Paging

open TableTree

/-- The walk along `q` stops at an entry that is not present. -/
def Absent (m : Memory) (cr3 : ℕ) (q : List ℕ) : Prop :=
  ∃ left e, walk nextTable m cr3 q = some (left, e) ∧ present e = false

/-- A path to an entry passes tables beside slot 256 only. -/
def EntryPath (q : List ℕ) : Prop := ∀ p j r, q = p ++ j :: r → TablePath p

/-- After a mapping with the entry at the end of `q`, pages elsewhere are mapped as before,
and walks to entries elsewhere stop as before at an entry that is not present. -/
structure Kept (cr3 : ℕ) (q : List ℕ) (m m' : Memory) : Prop where
  leaf : ∀ va, index va 0 ≠ 256 → ¬ q <+: path va → leaf m' cr3 va = leaf m cr3 va
  absent : ∀ q', EntryPath q' → ¬ q <+: q' → ¬ q' <+: q → Absent m cr3 q' → Absent m' cr3 q'

theorem Kept.refl (cr3 : ℕ) (q : List ℕ) (m : Memory) : Kept cr3 q m m :=
  ⟨fun _ _ _ => rfl, fun _ _ _ _ h => h⟩

theorem Kept.trans {cr3 : ℕ} {q : List ℕ} {m₁ m₂ m₃ : Memory} (h : Kept cr3 q m₁ m₂)
    (h' : Kept cr3 q m₂ m₃) : Kept cr3 q m₁ m₃ where
  leaf va hva hq := (h'.leaf va hva hq).trans (h.leaf va hva hq)
  absent q' hp hq hq' ha := h'.absent q' hp hq hq' (h.absent q' hp hq hq' ha)

theorem entryPath_take {va : ℕ} (hva : index va 0 ≠ 256) (k : ℕ) :
    EntryPath ((path va).take k) := by
  intro p j r h
  have hsplit : path va = p ++ j :: (r ++ (path va).drop k) := by
    calc path va = (path va).take k ++ (path va).drop k := (List.take_append_drop k _).symm
      _ = p ++ j :: (r ++ (path va).drop k) := by rw [h]; simp
  exact tablePath_of_split hva hsplit

section Loop

variable {cr3 va t i n N flags : ℕ} {gpp : ℕ → ℕ} {s : Tables}

/-- A new table under an entry on the way keeps what lies elsewhere. -/
theorem kept_link (hs : Ready cr3 gpp (n + 1) s) (hva : index va 0 ≠ 256) (hi : i < 3)
    (hflags : flags.testBit 7 = false)
    (ht : descend nextTable s.mem cr3 ((path va).take i) = some t)
    (hempty : present (s.mem t (index va i)) = false) {q : List ℕ}
    (hq : (path va).take (i + 1) <+: q) :
    Kept cr3 q s.mem (link s.mem t (index va i) (tableEntry gpp s flags) (gpp s.taken) 0) where
  leaf va' hva' _ := leaf_link hs hva hi hflags ht hempty hva'
  absent q' hq' _ hnot := by
    have hnone : nextTable (s.mem t (index va i)) = none := by simp [nextTable, hempty]
    have hfresh := hs.fresh hva hi hflags ht hnone
    rintro ⟨left, e, hwalk, he⟩
    rw [take_path va (by omega)] at hq
    by_cases hpre : ((path va).take i ++ [index va i]) <+: q'
    · obtain ⟨r, rfl⟩ := hpre
      cases r with
      | nil => exact absurd hq (by simpa using hnot)
      | cons j r => exact ⟨r.length, 0, (hfresh.walk_under j r).2, present_zero⟩
    · exact ⟨left, e, by rw [hfresh.walk_off hq' hpre, hwalk], he⟩

/-- A new table has no entry that is present. -/
theorem Ready.absent_addTable (hs : Ready cr3 gpp (N + 1) s) (hva : index va 0 ≠ 256) (hi : i < 3)
    (hflags : flags.testBit 7 = false)
    (ht : descend nextTable s.mem cr3 ((path va).take i) = some t)
    (hempty : nextTable (s.mem t (index va i)) = none) (hin : i + 1 + n ≤ 3) :
    Absent (link s.mem t (index va i) (tableEntry gpp s flags) (gpp s.taken) 0) cr3
      ((path va).take (i + 1 + n + 1)) := by
  have hfresh := hs.fresh hva hi hflags ht hempty
  have hpre : (path va).take (i + 1) <+: (path va).take (i + 1 + n + 1) :=
    List.take_prefix_take_left (by omega)
  obtain ⟨r, hr⟩ := hpre
  rw [take_path va (by omega)] at hr
  cases r with
  | nil =>
    have hlen := congrArg List.length hr
    simp only [path, List.append_nil, List.length_append, List.length_take, List.length_cons,
      List.length_nil] at hlen
    omega
  | cons j r =>
    rw [← hr]
    exact ⟨r.length, 0, (hfresh.walk_under j r).2, present_zero⟩

/-- On the way to an absent entry, an entry is not present or refers to a table. -/
theorem Absent.next {m : Memory} (h : Absent m cr3 ((path va).take (i + 1 + n + 1)))
    (hin : i + 1 + n ≤ 3) (ht : descend nextTable m cr3 ((path va).take i) = some t) :
    present (m t (index va i)) = false ∨ ∃ t', nextTable (m t (index va i)) = some t' := by
  obtain ⟨left, e, hwalk, he⟩ := h
  have hsplit : (path va).take (i + 1 + n + 1) =
      (path va).take i ++ index va i :: index va (i + 1) :: ((path va).take (i + 1 + n + 1)).drop (i + 2) := by
    have h₁ : i < 3 := by omega
    have h₂ : n < 3 := by omega
    interval_cases i <;> interval_cases n <;> rfl
  rw [hsplit, walk_append ht (by simp), walk_cons] at hwalk
  cases hnext : nextTable (m t (index va i)) with
  | none =>
    rw [hnext, Option.elim_none, Option.some.injEq, Prod.mk.injEq] at hwalk
    exact .inl (hwalk.2 ▸ he)
  | some t' => exact .inr ⟨t', rfl⟩

/-- The entry at the end of the way. -/
theorem Absent.last {m : Memory} (h : Absent m cr3 ((path va).take (i + 1))) (hi : i < 4)
    (ht : descend nextTable m cr3 ((path va).take i) = some t) :
    present (m t (index va i)) = false := by
  obtain ⟨left, e, hwalk, he⟩ := h
  rw [take_path va hi, walk_append ht (by simp), walk, Option.some.injEq, Prod.mk.injEq] at hwalk
  exact hwalk.2 ▸ he

/-- The loop of `get_pte_addr_checked` on the way to an absent entry comes to its end. -/
theorem checkLevels_absent (hs : Ready cr3 gpp (n + N) s) (hva : index va 0 ≠ 256)
    (hin : i + n ≤ 3) (ht : descend nextTable s.mem cr3 ((path va).take i) = some t)
    (hflags : flags.testBit 7 = false)
    (habsent : Absent s.mem cr3 ((path va).take (i + n + 1))) :
    ∃ s' t', checkLevels cr3 gpp va flags true n i s = .ok (s', true) ∧ Ready cr3 gpp N s' ∧
      descend nextTable s'.mem cr3 ((path va).take (i + n)) = some t' ∧
      present (s'.mem t' (index va (i + n))) = false ∧
      Kept cr3 ((path va).take (i + n + 1)) s.mem s'.mem := by
  induction n generalizing i t s with
  | zero =>
    exact ⟨s, t, rfl, by simpa using hs, ht, habsent.last (by omega) ht, Kept.refl _ _ _⟩
  | succ n ih =>
    have hload := load_getPteAddr hs.self (show i ≤ 3 by omega) ht
    have hsucc := descend_take_succ ht (show i < 4 by omega)
    have hcount : i + (n + 1) = i + 1 + n := by omega
    rw [hcount] at habsent hin ⊢
    rw [checkLevels, hload, ok_bind]
    rcases habsent.next hin ht with hp | ⟨t', hnext⟩
    · -- the tables from here on are missing
      have hempty : nextTable (s.mem t (index va i)) = none := by simp [nextTable, hp]
      have hs₁ : Ready cr3 gpp (n + N + 1) s := by
        have hn : n + N + 1 = n + 1 + N := by omega
        exact hn ▸ hs
      have hnew := hs₁.descend_addTable hva (show i < 3 by omega) hflags ht hempty
      have hpre : (path va).take (i + 1) <+: (path va).take (i + 1 + n + 1) :=
        List.take_prefix_take_left (by omega)
      have hkept := kept_link hs₁ hva (show i < 3 by omega) hflags ht hp hpre
      have habsent' := hs₁.absent_addTable hva (show i < 3 by omega) hflags ht hempty hin
      obtain ⟨s', t', hrun, hready, htable, hfree, hkept'⟩ :=
        ih (hs₁.addTable hva (by omega) hflags ht hempty) hin hnew habsent'
      refine ⟨s', t', ?_, hready, htable, hfree, hkept.trans hkept'⟩
      simp only [hp, Bool.not_false, Bool.not_true, Bool.false_eq_true, reduceIte,
        addTable_eq hs₁ hva (show i < 3 by omega) hflags ht hempty, ok_bind, hrun]
    · obtain ⟨hp, hh, -⟩ := nextTable_eq_some.1 hnext
      obtain ⟨s', t'', hrun, hready, htable, hfree, hkept⟩ :=
        ih (hs.mono (by omega)) hin (hsucc.trans hnext) habsent
      refine ⟨s', t'', ?_, hready, htable, hfree, hkept⟩
      simp only [hp, hh, Bool.not_true, Bool.false_eq_true, reduceIte, Bool.and_false, hrun]

end Loop

section Entry

variable {cr3 va t k n N addr pgsize flags : ℕ} {gpp : ℕ → ℕ} {s : Tables}

/-- The entry that `map_page` sets. -/
def pageEntry (addr pgsize flags : ℕ) : ℕ := pteSetFlags (pteSetBase 0 addr pgsize) flags ||| PTE_P

theorem pteSetBase_large (haligned : addr % 2 ^ 21 = 0) (haddr : addr < 2 ^ 52) :
    pteSetBase 0 addr 1 = addr ||| 2 ^ 7 := by
  have hmask : addr &&& 0xfffffffffffff000 = addr / 4096 % 2 ^ 52 * 4096 := and_field _ 52 12
  have hmask' : addr &&& 0xffffffffffe00000 = addr / 2 ^ 21 % 2 ^ 43 * 2 ^ 21 := by
    rw [show (0xffffffffffe00000 : ℕ) = (2 ^ 43 - 1) <<< 21 by decide]
    exact and_field addr 43 21
  have hsame : addr / 4096 % 2 ^ 52 * 4096 = addr := by omega
  have hsame' : addr / 2 ^ 21 % 2 ^ 43 * 2 ^ 21 = addr := by
    have hlt : addr / 2 ^ 21 < 2 ^ 31 := Nat.div_lt_of_lt_mul (by simpa using haddr)
    rw [Nat.mod_eq_of_lt (hlt.trans (by norm_num))]
    exact Nat.div_mul_cancel (Nat.dvd_of_mod_eq_zero haligned)
  simp only [pteSetBase, Nat.zero_and, Nat.zero_or, hmask, hsame, hmask', hsame', reduceIte, ne_eq,
    one_ne_zero, not_false_eq_true]

/-- The parts of the entry. -/
theorem pageEntry_parts (hsize : pgsize ≤ 1) (haligned : addr % 2 ^ (12 + 9 * pgsize) = 0)
    (haddr : addr < 2 ^ 52) (flags : ℕ) :
    present (pageEntry addr pgsize flags) = true ∧
      pteGetBase (pageEntry addr pgsize flags) = addr ∧
      (pgsize = 1 → nextTable (pageEntry addr pgsize flags) = none) := by
  have h4k : addr % 4096 = 0 := by
    rcases Nat.le_one_iff_eq_zero_or_eq_one.1 hsize with rfl | rfl <;> omega
  rcases Nat.le_one_iff_eq_zero_or_eq_one.1 hsize with rfl | rfl
  · obtain ⟨hp, hb, -⟩ := lastEntry_parts h4k haddr flags
    exact ⟨hp, hb, by simp⟩
  · have hlow : 2 ^ 7 ||| (flags &&& 0xfff ||| PTE_P) < 4096 :=
      Nat.or_lt_two_pow (n := 12) (by norm_num) (flags_lt flags (by decide))
    have heq : pageEntry addr 1 flags = addr ||| (2 ^ 7 ||| (flags &&& 0xfff ||| PTE_P)) := by
      rw [pageEntry, pteSetBase_large haligned haddr, pteSetFlags, Nat.or_assoc, Nat.or_assoc]
    have hp : present (pageEntry addr 1 flags) = true := by
      rw [heq, present_or h4k]
      simp [PTE_P]
    have hh : huge (pageEntry addr 1 flags) = true := by
      rw [heq, huge_or h4k, Nat.testBit_or]
      exact Bool.or_eq_true_iff.2 (.inl (by decide))
    exact ⟨hp, by rw [heq, pteGetBase_or h4k haddr hlow], fun _ => by simp [nextTable, hh]⟩

/-- The entry changes no path to a table: either it is of the last level, or it refers to
none. -/
theorem descend_setEntry (hs : Ready cr3 gpp n s) (hva : index va 0 ≠ 256) (hk : k ≤ 3)
    (ht : descend nextTable s.mem cr3 ((path va).take k) = some t)
    (hfree : present (s.mem t (index va k)) = false) {e : ℕ}
    (he : k < 3 → nextTable e = none) {q : List ℕ} (hq : TablePath q) :
    descend nextTable (setWord s.mem t (index va k) e) cr3 q = descend nextTable s.mem cr3 q := by
  have hpath := tablePath_take hva (show k < 4 by omega)
  by_cases hpre : ((path va).take k ++ [index va k]) <+: q
  · obtain ⟨r, rfl⟩ := hpre
    have hlen := hq.length
    simp only [path, List.length_append, List.length_take, List.length_cons, List.length_nil] at hlen
    have hthrough := descend_setWord_through (e := e) (i := index va k) hs.tree hpath
      (fun _ _ _ h => ok_prefix hpath h) ht
    have hbefore : nextTable (s.mem t (index va k)) = none := by simp [nextTable, hfree]
    rw [descend_append, hthrough, he (by omega), descend_append, descend_snoc ht, hbefore]
    rfl
  · exact descend_setWord hs.tree hpath ht (fun _ _ _ h => ok_prefix hq h) hpre

theorem Ready.setEntry (hs : Ready cr3 gpp n s) (hva : index va 0 ≠ 256) (hk : k ≤ 3)
    (ht : descend nextTable s.mem cr3 ((path va).take k) = some t)
    (hfree : present (s.mem t (index va k)) = false) {e : ℕ} (he : k < 3 → nextTable e = none) :
    Ready cr3 gpp n { s with mem := setWord s.mem t (index va k) e } where
  self := by
    dsimp only
    rw [setWord_self_slot hs hva (by omega) ht]
    exact hs.self
  tree p q f hp hq hpf hqf := by
    dsimp only at hpf hqf
    rw [descend_setEntry hs hva hk ht hfree he hp] at hpf
    rw [descend_setEntry hs hva hk ht hfree he hq] at hqf
    exact hs.tree p q f hp hq hpf hqf
  supply := {
    aligned := hs.supply.aligned
    bound := hs.supply.bound
    unused := fun j hj hj' q hq hqf => by
      dsimp only at hqf
      rw [descend_setEntry hs hva hk ht hfree he hq] at hqf
      exact hs.supply.unused j hj hj' q hq hqf
    distinct := hs.supply.distinct }

/-- The entry keeps what lies elsewhere. -/
theorem kept_setEntry (hs : Ready cr3 gpp n s) (hva : index va 0 ≠ 256) (hk : k ≤ 3)
    (ht : descend nextTable s.mem cr3 ((path va).take k) = some t) (e : ℕ) :
    Kept cr3 ((path va).take (k + 1)) s.mem (setWord s.mem t (index va k) e) where
  leaf va' hva' hnot := by
    rw [take_path va (by omega)] at hnot
    rw [leaf, leaf, walk_setWord hs.tree (tablePath_take hva (by omega)) ht
      (fun p' j r h => tablePath_of_split hva' h) hnot]
  absent q' hq' hnot _ := by
    rw [take_path va (by omega)] at hnot
    rintro ⟨left, e', hwalk, he'⟩
    exact ⟨left, e', by rw [walk_setWord hs.tree (tablePath_take hva (by omega)) ht hq' hnot, hwalk],
      he'⟩

/-- The pages under the entry. -/
theorem leaf_setEntry (hs : Ready cr3 gpp n s) (hva : index va 0 ≠ 256) (hsize : pgsize ≤ 1)
    (ht : descend nextTable s.mem cr3 ((path va).take (3 - pgsize)) = some t) {e : ℕ}
    (hp : present e = true) (he : pgsize = 1 → nextTable e = none) {va' : ℕ}
    (hpre : (path va).take (4 - pgsize) <+: path va') :
    leaf (setWord s.mem t (index va (3 - pgsize)) e) cr3 va' = some (pgsize, e) := by
  have hpath := tablePath_take hva (show 3 - pgsize < 4 by omega)
  have ht' : descend nextTable (setWord s.mem t (index va (3 - pgsize)) e) cr3
      ((path va).take (3 - pgsize)) = some t := by
    rw [descend_setWord hs.tree hpath ht (fun _ _ _ h => ok_prefix hpath h)
      fun hlong => absurd hlong.length_le (by simp only [List.length_append, List.length_cons]; omega)]
    exact ht
  obtain ⟨r, hr⟩ := hpre
  have hlen := congrArg List.length hr
  simp only [path, List.length_append, List.length_take, List.length_cons, List.length_nil] at hlen
  have hone : 4 - pgsize = 3 - pgsize + 1 := by omega
  rw [hone, take_path va (by omega), List.append_assoc] at hr
  have hwalk : walk nextTable (setWord s.mem t (index va (3 - pgsize)) e) cr3 (path va') =
      some (pgsize, e) := by
    rw [← hr, walk_append ht' (by simp)]
    rcases Nat.le_one_iff_eq_zero_or_eq_one.1 hsize with rfl | rfl
    · obtain rfl : r = [] := List.eq_nil_of_length_eq_zero (by omega)
      rw [List.append_nil, walk, setWord_self]
    · obtain ⟨j, rfl⟩ := List.length_eq_one_iff.1 (show r.length = 1 by omega)
      rw [List.cons_append, List.nil_append, walk_cons, setWord_self, he rfl]
      rfl
  rw [leaf, hwalk]
  simp only [hp, Bool.true_and]
  rw [if_pos (by simp; omega)]

end Entry

/-- Where nothing is mapped, `map_page` maps the page and keeps what is mapped elsewhere. -/
theorem mapPage_absent {cr3 addr va pgsize flags N : ℕ} {gpp : ℕ → ℕ} {s : Tables}
    (hs : Ready cr3 gpp (3 - pgsize + N) s) (hva : index va 0 ≠ 256) (hsize : pgsize ≤ 1)
    (haligned : addr % 2 ^ (12 + 9 * pgsize) = 0) (haddr : addr < 2 ^ 52)
    (hflags : flags.testBit 7 = false) (habsent : Absent s.mem cr3 ((path va).take (4 - pgsize))) :
    ∃ s', mapPage cr3 gpp s addr va pgsize flags = .ok s' ∧ Ready cr3 gpp N s' ∧
      (∀ va', (path va).take (4 - pgsize) <+: path va' →
        translate s'.mem cr3 va' = some (addr + va' % 2 ^ (12 + 9 * pgsize))) ∧
      Kept cr3 ((path va).take (4 - pgsize)) s.mem s'.mem := by
  have hone : 4 - pgsize = 0 + (3 - pgsize) + 1 := by omega
  rw [hone] at habsent ⊢
  obtain ⟨s₁, t, hloop, hready, ht, hfree, hkept⟩ :=
    checkLevels_absent (i := 0) hs hva (by omega) rfl hflags habsent
  rw [Nat.zero_add] at ht hfree hkept ⊢
  obtain ⟨hpresent, hbase, hnext⟩ := pageEntry_parts hsize haligned haddr flags
  have hload := load_getPteAddr hready.self (show 3 - pgsize ≤ 3 by omega) ht
  have hstore := store_getPteAddr hready.self (show 3 - pgsize ≤ 3 by omega) ht
    (pageEntry addr pgsize flags)
  rw [pageEntry] at hstore
  refine ⟨{ s₁ with mem := setWord s₁.mem t (index va (3 - pgsize)) (pageEntry addr pgsize flags) },
    ?_, ?_, ?_, ?_⟩
  · simp only [mapPage, getPteAddrChecked, hloop, ok_bind, reduceIte, hload, hfree,
      Bool.false_eq_true, hstore]
    rfl
  · exact hready.setEntry hva (by omega) ht hfree fun h => hnext (by omega)
  · intro va' hpre
    have hpre' : (path va).take (4 - pgsize) <+: path va' := by
      rw [show 4 - pgsize = 3 - pgsize + 1 by omega]
      exact hpre
    have hleaf := leaf_setEntry hready hva hsize ht hpresent hnext hpre'
    simp only [translate, hleaf, Option.map_some, hbase, Option.some.injEq]
    rcases Nat.le_one_iff_eq_zero_or_eq_one.1 hsize with rfl | rfl <;> omega
  · exact hkept.trans (kept_setEntry hready hva (by omega) ht _)

end SadOS.Mm.Paging
