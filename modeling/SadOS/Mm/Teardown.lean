import SadOS.Mm.MapPage
import SadOS.Lib.PostOrder

/-!
# Tearing down a page table

`destroy_as` lets `walk_user_page_table` drop the tables of the user half.  The walk
returns from a table only after those under it, drops it, and clears the entry above it,
all through the direct map of the memory.  A dropped page is on the list of the page
allocator, which keeps its link in the first word of the page; the walk must not touch it
any more, and in the model it stops if it does.

The walk takes bit 7 of an entry for the mark of a large page, whether the entry is present
or not.

## Main definitions

* `Teardown`, `dropPage`, `freePageTable`, `walkPageTable`, `walkUserPageTable`,
  `destroyTables` — the source.
* `TreeShaped`, `NoHugeEntry` — the page tables that can be torn down.
* `Freed` — what is dropped, and in which order.

## Main results

* `walkPageTable_postorder` — the walk drops the tables under a table, and then that table.
* `destroyTables_freed` — exactly the tables of the user half and the pml4 are dropped.
-/

namespace SadOS.Mm.Paging

open TableTree

/-! ## The source -/

/-- The memory, the list of the page allocator, and the pages it was given, last first. -/
structure Teardown where
  mem : Memory
  head : ℕ
  dropped : List ℕ

/-- A read through the direct map. -/
def Teardown.read (s : Teardown) (a : ℕ) : Except Fault ℕ :=
  if pageAlign a ∈ s.dropped then .error .badPointer
  else
    let pa := wsub a KERN_VMBASE
    .ok (s.mem (pageAlign pa) (pa % 4096 / 8))

/-- A write through the direct map. -/
def Teardown.write (s : Teardown) (a v : ℕ) : Except Fault Teardown :=
  if pageAlign a ∈ s.dropped then .error .badPointer
  else
    let pa := wsub a KERN_VMBASE
    .ok { s with mem := setWord s.mem (pageAlign pa) (pa % 4096 / 8) v }

/-- `drop_page`. -/
def dropPage (s : Teardown) (pg : ℕ) : Except Fault Teardown :=
  if pg &&& 0xfff ≠ 0 then .error (.panic "Dropping invalid page")
  else do
    let s ← s.write pg s.head
    .ok { s with head := pg, dropped := pg :: s.dropped }

/-- `free_page_table`. -/
def freePageTable (s : Teardown) (ptBase pte : ℕ) : Except Fault Teardown := do
  let s ← dropPage s ptBase
  if pte ≠ 0 then s.write pte 0 else .ok s

/-- The entries of a table that `_walk_page_table` looks at, with `n` levels under them. -/
def top (n : ℕ) : ℕ := if n = 2 then 256 else 512

/-- `_walk_page_table` at depth `3 - n`. -/
def walkPageTable (fn : Teardown → ℕ → ℕ → Except Fault Teardown) :
    ℕ → ℕ → ℕ → Teardown → Except Fault Teardown
  | 0, pt, pte, s => fn s pt pte
  | n + 1, pt, pte, s => do
    let s ← (List.range (top n)).foldlM (fun s i => do
      let entry ← s.read (wadd pt (8 * i))
      if huge entry then
        .error (.panic "Huge page in user space")
      else if present entry then
        walkPageTable fn n (wadd KERN_VMBASE (pteGetBase entry)) (wadd pt (8 * i)) s
      else
        .ok s) s
    fn s pt pte

/-- `walk_user_page_table`. -/
def walkUserPageTable (pml4 : ℕ) (fn : Teardown → ℕ → ℕ → Except Fault Teardown) (s : Teardown) :
    Except Fault Teardown :=
  walkPageTable fn 3 pml4 0 s

/-- What `destroy_as` does with the page table, after the VMAs are gone. -/
def destroyTables (pml4 : ℕ) (s : Teardown) : Except Fault Teardown :=
  walkUserPageTable pml4 freePageTable s

/-! ## Addresses in the direct map -/

/-- Where the direct map has a frame. -/
def direct (f : ℕ) : ℕ := wadd KERN_VMBASE f

/-- The address of a frame of the memory. -/
def IsFrame (f : ℕ) : Prop := f % 4096 = 0 ∧ f < 2 ^ 64

instance (f : ℕ) : Decidable (IsFrame f) := inferInstanceAs (Decidable (_ ∧ _))

section Direct

variable {f g i j : ℕ}

theorem direct_aligned (hf : IsFrame f) : direct f % 4096 = 0 := by
  obtain ⟨h, h'⟩ := hf
  simp only [direct, wadd, KERN_VMBASE]
  omega

theorem direct_inj (hf : IsFrame f) (hg : IsFrame g) (h : direct f = direct g) : f = g := by
  obtain ⟨-, hf⟩ := hf
  obtain ⟨-, hg⟩ := hg
  simp only [direct, wadd, KERN_VMBASE] at h
  omega

/-- The entry `i` of the table in the frame `f`. -/
theorem entry_address (hf : IsFrame f) (hi : i < 512) :
    pageAlign (wadd (direct f) (8 * i)) = direct f ∧
      pageAlign (wsub (wadd (direct f) (8 * i)) KERN_VMBASE) = f ∧
      wsub (wadd (direct f) (8 * i)) KERN_VMBASE % 4096 / 8 = i := by
  obtain ⟨h, h'⟩ := hf
  simp only [direct, wadd, wsub, pageAlign, KERN_VMBASE]
  omega

theorem entry_zero (hf : IsFrame f) : wadd (direct f) (8 * 0) = direct f := by
  obtain ⟨h, h'⟩ := hf
  simp only [direct, wadd, KERN_VMBASE]
  omega

theorem entry_inj (hf : IsFrame f) (hg : IsFrame g) (hi : i < 512) (hj : j < 512)
    (h : wadd (direct f) (8 * i) = wadd (direct g) (8 * j)) : f = g ∧ i = j := by
  have h₁ := entry_address hf hi
  have h₂ := entry_address hg hj
  rw [h] at h₁
  exact ⟨h₁.2.1.symm.trans h₂.2.1, h₁.2.2.symm.trans h₂.2.2⟩

variable {s : Teardown}

theorem read_entry (hf : IsFrame f) (hi : i < 512) (hs : direct f ∉ s.dropped) :
    s.read (wadd (direct f) (8 * i)) = .ok (s.mem f i) := by
  obtain ⟨hpage, hframe, hword⟩ := entry_address hf hi
  simp only [Teardown.read, hpage, hs, if_false, hframe, hword]

theorem write_entry (hf : IsFrame f) (hi : i < 512) (hs : direct f ∉ s.dropped) (v : ℕ) :
    s.write (wadd (direct f) (8 * i)) v = .ok { s with mem := setWord s.mem f i v } := by
  obtain ⟨hpage, hframe, hword⟩ := entry_address hf hi
  simp only [Teardown.write, hpage, hs, if_false, hframe, hword]

/-- A page that was not dropped is put on the list. -/
theorem dropPage_eq (hf : IsFrame f) (hs : direct f ∉ s.dropped) :
    dropPage s (direct f) = .ok
      { mem := setWord s.mem f 0 s.head, head := direct f, dropped := direct f :: s.dropped } := by
  have hmask : direct f &&& 0xfff = 0 := (and_low (direct f) 12).trans (direct_aligned hf)
  have hwrite := write_entry hf (show 0 < 512 by decide) hs s.head
  rw [entry_zero hf] at hwrite
  rw [dropPage, hmask, if_neg (by simp), hwrite]
  rfl

end Direct

/-! ## The walk -/

section Walk

variable {m : Memory} {s : Teardown} {n t pte : ℕ}

theorem isFrame_of_nextTable {pte : ℕ} (h : nextTable pte = some t) : IsFrame t := by
  obtain ⟨-, -, rfl⟩ := nextTable_eq_some.1 h
  rw [IsFrame, pteGetBase_eq]
  omega

theorem isFrame_of_descend (ht : IsFrame t) {p : List ℕ} {g : ℕ}
    (hd : descend nextTable m t p = some g) : IsFrame g := by
  rcases List.eq_nil_or_concat p with rfl | ⟨q, j, rfl⟩
  · exact Option.some.inj hd ▸ ht
  · rw [List.concat_eq_append, descend_append, Option.bind_eq_some_iff] at hd
    obtain ⟨f, -, hd⟩ := hd
    rw [descend_cons, Option.bind_eq_some_iff] at hd
    obtain ⟨t', ht', hd⟩ := hd
    exact Option.some.inj hd ▸ isFrame_of_nextTable ht'

theorem isFrame_of_mem (ht : IsFrame t) {g : ℕ} (hg : g ∈ postorder nextTable m top n t) :
    IsFrame g := by
  obtain ⟨p, -, hd⟩ := mem_postorder.1 hg
  exact isFrame_of_descend ht hd

theorem isFrame_of_underWords {is : List ℕ} {g : ℕ}
    (hg : g ∈ underWords nextTable m top n t is) : IsFrame g := by
  obtain ⟨i, -, t', ht', hg⟩ := mem_underWords.1 hg
  exact isFrame_of_mem (isFrame_of_nextTable ht') hg

/-- The pointer to the entry above a table: none, or an entry of a table that is still there. -/
def EntryAbove (s : Teardown) (ts : List ℕ) (pte : ℕ) : Prop :=
  pte = 0 ∨ ∃ f i, IsFrame f ∧ i < 512 ∧ pte = wadd (direct f) (8 * i) ∧ f ∉ ts ∧
    direct f ∉ s.dropped

/-- What a walk that drops the tables `ts` leaves. -/
structure Walked (s s' : Teardown) (ts : List ℕ) (pte : ℕ) : Prop where
  dropped : s'.dropped = (ts.map direct).reverse ++ s.dropped
  mem : ∀ g i, IsFrame g → i < 512 → g ∉ ts → pte ≠ wadd (direct g) (8 * i) →
    s'.mem g i = s.mem g i

/-- What the walk finds: the tables are as they were, and none of them was dropped. -/
structure Intact (m : Memory) (s : Teardown) (ts : List ℕ) : Prop where
  mem : ∀ g ∈ ts, ∀ i < 512, s.mem g i = m g i
  live : ∀ g ∈ ts, direct g ∉ s.dropped

/-- `free_page_table` on a table that is still there. -/
theorem freePageTable_walked (ht : IsFrame t) (hs : direct t ∉ s.dropped)
    (hpte : EntryAbove s [t] pte) :
    ∃ s', freePageTable s (direct t) pte = .ok s' ∧ Walked s s' [t] pte := by
  have hmem : ∀ g i, g ∉ [t] → setWord s.mem t 0 s.head g i = s.mem g i := by
    intro g i hg
    exact setWord_of_ne fun h => hg (by simp [h.1])
  rw [freePageTable, dropPage_eq ht hs, ok_bind]
  rcases hpte with rfl | ⟨f, i, hf, hi, rfl, hne, hlive⟩
  · refine ⟨_, by rw [if_neg (by simp)], by simp, fun g i _ _ hg _ => hmem g i hg⟩
  · by_cases h0 : wadd (direct f) (8 * i) = 0
    · exact ⟨_, by rw [if_neg (by simp [h0])], by simp, fun g i _ _ hg _ => hmem g i hg⟩
    · have hft : f ≠ t := by simpa using hne
      have hlive' : direct f ∉ direct t :: s.dropped := by
        simp only [List.mem_cons, not_or]
        exact ⟨fun h => hft (direct_inj hf ht h), hlive⟩
      refine ⟨_, by rw [if_pos h0, write_entry hf hi hlive'], by simp, fun g j hg hj hgt hne => ?_⟩
      dsimp only
      rw [setWord_of_ne, hmem g j hgt]
      rintro ⟨rfl, rfl⟩
      exact hne rfl

/-- The entries that are looked at have no mark of a large page. -/
def NoMark (m : Memory) (n t : ℕ) : Prop :=
  ∀ p i f, Within top n (p ++ [i]) → descend nextTable m t p = some f → huge (m f i) = false

theorem NoMark.under (h : NoMark m (n + 1) t) {i t' : ℕ} (hi : i < top n)
    (ht' : nextTable (m t i) = some t') : NoMark m n t' := by
  intro p j f hp hd
  exact h (i :: p) j f ⟨hi, hp⟩ (by rw [descend_cons, ht']; exact hd)

/-- The body of the loop of `_walk_page_table`. -/
def walkEntry (n t : ℕ) (s : Teardown) (i : ℕ) : Except Fault Teardown := do
  let entry ← s.read (wadd (direct t) (8 * i))
  if huge entry then
    .error (.panic "Huge page in user space")
  else if present entry then
    walkPageTable freePageTable n (wadd KERN_VMBASE (pteGetBase entry)) (wadd (direct t) (8 * i)) s
  else
    .ok s

theorem walkPageTable_succ :
    walkPageTable freePageTable (n + 1) (direct t) pte s =
      ((List.range (top n)).foldlM (walkEntry n t) s >>= fun s =>
        freePageTable s (direct t) pte) := rfl

theorem top_le (n : ℕ) : top n ≤ 512 := by
  rw [top]
  split <;> omega

/-- What the walk of one level promises, for the induction over the levels. -/
def Drops (m : Memory) (n : ℕ) : Prop :=
  ∀ {t pte s}, IsFrame t → (postorder nextTable m top n t).Nodup → NoMark m n t →
    Intact m s (postorder nextTable m top n t) →
    EntryAbove s (postorder nextTable m top n t) pte →
    ∃ s', walkPageTable freePageTable n (direct t) pte s = .ok s' ∧
      Walked s s' (postorder nextTable m top n t) pte

/-- Other pages than `ts` are not dropped with them. -/
theorem not_dropped {s s' : Teardown} {ts : List ℕ} (hts : ∀ g ∈ ts, IsFrame g)
    (hdropped : s'.dropped = (ts.map direct).reverse ++ s.dropped) {g : ℕ} (hg : IsFrame g)
    (hgt : g ∉ ts) (hgs : direct g ∉ s.dropped) : direct g ∉ s'.dropped := by
  rw [hdropped, List.mem_append, List.mem_reverse, List.mem_map, not_or]
  refine ⟨?_, hgs⟩
  rintro ⟨g', hg', heq⟩
  exact hgt (direct_inj (hts g' hg') hg heq ▸ hg')

/-- What a part of the loop over the entries of `t` leaves: the tables `ts` are dropped, and
only entries `is` of `t` are changed beside them. -/
structure Looped (t : ℕ) (is : List ℕ) (s s' : Teardown) (ts : List ℕ) : Prop where
  dropped : s'.dropped = (ts.map direct).reverse ++ s.dropped
  mem : ∀ g i, IsFrame g → i < 512 → g ∉ ts → ¬(g = t ∧ i ∈ is) → s'.mem g i = s.mem g i

/-- One round of the loop. -/
theorem walkEntry_looped (hdrop : Drops m n) (ht : IsFrame t) (hmark : NoMark m (n + 1) t) {i : ℕ}
    (hi : i < top n)
    (hnd : ((nextTable (m t i)).elim [] (postorder nextTable m top n) ++ [t]).Nodup)
    (hs : Intact m s ((nextTable (m t i)).elim [] (postorder nextTable m top n)))
    (hword : s.mem t i = m t i) (hlive : direct t ∉ s.dropped) :
    ∃ s', walkEntry n t s i = .ok s' ∧
      Looped t [i] s s' ((nextTable (m t i)).elim [] (postorder nextTable m top n)) := by
  have hi' : i < 512 := hi.trans_le (top_le n)
  have hhuge : huge (m t i) = false := hmark [] i t ⟨hi, within_nil⟩ rfl
  rw [walkEntry, read_entry ht hi' hlive, hword, ok_bind, hhuge]
  cases hp : present (m t i) with
  | false =>
    have hnext : nextTable (m t i) = none := by simp [nextTable, hp]
    exact ⟨s, rfl, by simp [hnext], fun _ _ _ _ _ _ => rfl⟩
  | true =>
    have hnext : nextTable (m t i) = some (pteGetBase (m t i)) := by simp [nextTable, hp, hhuge]
    rw [hnext, Option.elim_some] at hnd hs ⊢
    have hframe := isFrame_of_nextTable hnext
    have hnot : t ∉ postorder nextTable m top n (pteGetBase (m t i)) := fun hmem =>
      (List.nodup_append.1 hnd).2.2 t hmem t (by simp) rfl
    obtain ⟨s', hwalk, hwalked⟩ := hdrop hframe (List.nodup_append.1 hnd).1
      (hmark.under hi hnext) hs (.inr ⟨t, i, ht, hi', rfl, hnot, hlive⟩)
    refine ⟨s', hwalk, hwalked.dropped, fun g j hg hj hgt hne => ?_⟩
    apply hwalked.mem g j hg hj hgt
    intro heq
    obtain ⟨rfl, rfl⟩ := entry_inj ht hg hi' hj heq
    exact hne ⟨rfl, by simp⟩

/-- The loop over the entries `is`. -/
theorem walkEntries_looped (hdrop : Drops m n) (ht : IsFrame t) (hmark : NoMark m (n + 1) t)
    {is : List ℕ} (his : is.Nodup) (hlt : ∀ i ∈ is, i < top n)
    (hnd : (underWords nextTable m top n t is ++ [t]).Nodup)
    (hs : Intact m s (underWords nextTable m top n t is)) (hwords : ∀ i ∈ is, s.mem t i = m t i)
    (hlive : direct t ∉ s.dropped) :
    ∃ s', is.foldlM (walkEntry n t) s = .ok s' ∧
      Looped t is s s' (underWords nextTable m top n t is) := by
  induction is generalizing s with
  | nil => exact ⟨s, rfl, rfl, fun _ _ _ _ _ _ => rfl⟩
  | cons i is ih =>
    have hframes : ∀ g ∈ underWords nextTable m top n t (i :: is), IsFrame g := fun g hg =>
      isFrame_of_underWords hg
    rw [underWords_cons] at hnd hs hframes ⊢
    obtain ⟨s₁, hstep, hdropped, hmem⟩ := walkEntry_looped hdrop ht hmark (hlt i (by simp))
      (hnd.sublist ((List.sublist_append_left _ _).append (List.Sublist.refl _)))
      ⟨fun g hg => hs.mem g (List.mem_append_left _ hg),
        fun g hg => hs.live g (List.mem_append_left _ hg)⟩ (hwords i (by simp)) hlive
    generalize (nextTable (m t i)).elim [] (postorder nextTable m top n) = ts at *
    generalize underWords nextTable m top n t is = us at *
    rw [List.append_assoc, List.nodup_append] at hnd
    obtain ⟨-, hndu, hdisj⟩ := hnd
    have hus : ∀ g ∈ us, g ∉ ts ∧ g ≠ t := fun g hg =>
      ⟨fun hg' => hdisj g hg' g (List.mem_append_left _ hg) rfl,
        fun hgt => (List.nodup_append.1 hndu).2.2 g hg t (by simp) hgt⟩
    have htnot : t ∉ ts := fun hg => hdisj t hg t (by simp) rfl
    obtain ⟨hi, his⟩ := List.nodup_cons.1 his
    have hlive₁ : ∀ g, IsFrame g → g ∉ ts → direct g ∉ s.dropped → direct g ∉ s₁.dropped :=
      fun g => not_dropped (fun g' hg' => hframes g' (List.mem_append_left _ hg')) hdropped
    obtain ⟨s', hrun, hdropped', hmem'⟩ := ih his (fun j hj => hlt j (List.mem_cons_of_mem _ hj)) hndu
      ⟨fun g hg j hj => (hmem g j (hframes g (List.mem_append_right _ hg)) hj (hus g hg).1
          fun h => (hus g hg).2 h.1).trans (hs.mem g (List.mem_append_right _ hg) j hj),
        fun g hg => hlive₁ g (hframes g (List.mem_append_right _ hg)) (hus g hg).1
          (hs.live g (List.mem_append_right _ hg))⟩
      (fun j hj => (hmem t j ht ((hlt j (List.mem_cons_of_mem _ hj)).trans_le (top_le n)) htnot
        fun h => hi (List.mem_singleton.1 h.2 ▸ hj)).trans (hwords j (List.mem_cons_of_mem _ hj)))
      (hlive₁ t ht htnot hlive)
    refine ⟨s', by rw [List.foldlM_cons, hstep]; exact hrun, ?_, ?_⟩
    · rw [hdropped', hdropped]
      simp
    · intro g j hg hj hgts hne
      rw [List.mem_append, not_or] at hgts
      rw [hmem' g j hg hj hgts.2 fun h => hne ⟨h.1, List.mem_cons_of_mem _ h.2⟩]
      exact hmem g j hg hj hgts.1 fun h => hne ⟨h.1, by rw [List.mem_singleton.1 h.2]; simp⟩

/-- The walk drops the tables under a table, and then that table. -/
theorem walkPageTable_postorder (m : Memory) (n : ℕ) : Drops m n := by
  induction n with
  | zero =>
    intro t pte s ht hnd hmark hs hpte
    exact freePageTable_walked ht (hs.live t self_mem_postorder) hpte
  | succ n ih =>
    intro t pte s ht hnd hmark hs hpte
    rw [postorder_succ] at hnd hs hpte ⊢
    have hself : t ∈ underWords nextTable m top n t (List.range (top n)) ++ [t] := by simp
    obtain ⟨s₁, hloop, hdropped, hmem⟩ := walkEntries_looped ih ht hmark List.nodup_range
      (fun i hi => List.mem_range.1 hi) hnd
      ⟨fun g hg => hs.mem g (List.mem_append_left _ hg),
        fun g hg => hs.live g (List.mem_append_left _ hg)⟩
      (fun i hi => hs.mem t hself i ((List.mem_range.1 hi).trans_le (top_le n))) (hs.live t hself)
    have hframes : ∀ g ∈ underWords nextTable m top n t (List.range (top n)), IsFrame g :=
      fun g hg => isFrame_of_underWords hg
    generalize underWords nextTable m top n t (List.range (top n)) = ts at *
    have hlive : ∀ g, IsFrame g → g ∉ ts → direct g ∉ s.dropped → direct g ∉ s₁.dropped :=
      fun g => not_dropped hframes hdropped
    have htnot : t ∉ ts := fun hg => (List.nodup_append.1 hnd).2.2 t hg t (by simp) rfl
    have hpte₁ : EntryAbove s₁ [t] pte := by
      rcases hpte with rfl | ⟨f, i, hf, hi, rfl, hnot, hfl⟩
      · exact .inl rfl
      · rw [List.mem_append, not_or] at hnot
        exact .inr ⟨f, i, hf, hi, rfl, hnot.2, hlive f hf hnot.1 hfl⟩
    obtain ⟨s', hfree, hdropped', hmem'⟩ :=
      freePageTable_walked ht (hlive t ht htnot (hs.live t hself)) hpte₁
    refine ⟨s', by rw [walkPageTable_succ, hloop]; exact hfree, ?_, ?_⟩
    · rw [hdropped', hdropped]
      simp
    · intro g i hg hi hgts hne
      rw [List.mem_append, not_or] at hgts
      rw [hmem' g i hg hi hgts.2 hne]
      exact hmem g i hg hi hgts.1 fun h => hgts.2 (by simp [h.1])

end Walk

/-! ## The user half -/

/-- No two paths lead to one table, and no page that the user half maps is a table. -/
structure TreeShaped (m : Memory) (root : ℕ) : Prop where
  tables : IsTree nextTable TablePath m root
  pages : ∀ p q t i, UserPath p → p.length = 3 → descend nextTable m root p = some t → i < 512 →
    present (m t i) = true → TablePath q → descend nextTable m root q ≠ some (pteGetBase (m t i))

/-- No entry above the last level of the user half is marked as a large page. -/
def NoHugeEntry (m : Memory) (root : ℕ) : Prop :=
  ∀ p i f, UserPath (p ++ [i]) → descend nextTable m root p = some f → huge (m f i) = false

/-- The pages `dropped`, last first, are those of the tables of the user half and of the
pml4, each once and after the tables under it; they are no data page and no table of the
other half. -/
structure Freed (m : Memory) (root : ℕ) (dropped : List ℕ) : Prop where
  once : dropped.Nodup
  tables : ∀ a, a ∈ dropped ↔
    ∃ p f, UserPath p ∧ descend nextTable m root p = some f ∧ a = direct f
  order : ∀ p q f g, q ≠ [] → UserPath (p ++ q) → descend nextTable m root p = some f →
    descend nextTable m f q = some g → [direct g, direct f].Sublist dropped.reverse
  pages : ∀ p t i, UserPath p → p.length = 3 → descend nextTable m root p = some t → i < 512 →
    present (m t i) = true → direct (pteGetBase (m t i)) ∉ dropped
  kernel : ∀ p i f, TablePath (i :: p) → 256 ≤ i → descend nextTable m root (i :: p) = some f →
    direct f ∉ dropped

theorem within_iff {p : List ℕ} : Within top 3 p ↔ UserPath p := by
  have htop : top 2 = 256 ∧ top 1 = 512 ∧ top 0 = 512 := by decide
  constructor
  · intro h
    rcases p with _ | ⟨a, _ | ⟨b, _ | ⟨c, _ | ⟨d, p⟩⟩⟩⟩
    · exact ⟨by simp, by simp, by simp⟩
    · simp only [within_cons, htop] at h
      exact ⟨by simp, by simpa using h.1, by simp; omega⟩
    · simp only [within_cons, htop] at h
      exact ⟨by simp, by simpa using h.1, by simp; omega⟩
    · simp only [within_cons, htop] at h
      exact ⟨by simp, by simpa using h.1, by simp; omega⟩
    · exact h.2.2.2.elim
  · intro h
    have hlen := h.length
    have hhead := h.head
    have hidx := h.indices
    rcases p with _ | ⟨a, _ | ⟨b, _ | ⟨c, _ | ⟨d, p⟩⟩⟩⟩
    · exact within_nil
    · simpa [htop] using hhead
    · simp_all
    · simp_all
    · simp only [List.length_cons] at hlen
      omega

theorem UserPath.tablePath {p : List ℕ} (h : UserPath p) : TablePath p where
  length := h.length
  head i hi := (h.head i hi).ne
  indices := h.indices

/-- The walk of `destroy_as` comes to its end, and drops what it should. -/
theorem destroyTables_freed {s : Teardown} {root : ℕ} (hroot : IsFrame root)
    (htree : TreeShaped s.mem root) (hhuge : NoHugeEntry s.mem root) (hs : s.dropped = []) :
    ∃ s', destroyTables (direct root) s = .ok s' ∧ Freed s.mem root s'.dropped := by
  have hnd : (postorder nextTable s.mem top 3 root).Nodup :=
    nodup_postorder fun p q f hp hq => htree.tables p q f (within_iff.1 hp).tablePath
      (within_iff.1 hq).tablePath
  obtain ⟨s', hrun, hdropped, -⟩ := walkPageTable_postorder s.mem 3 hroot hnd
    (fun p i f hp => hhuge p i f (within_iff.1 hp)) ⟨fun _ _ _ _ => rfl, by simp [hs]⟩
    (.inl (rfl : (0 : ℕ) = 0))
  rw [hs, List.append_nil] at hdropped
  have hframes : ∀ g ∈ postorder nextTable s.mem top 3 root, IsFrame g := fun g =>
    isFrame_of_mem hroot
  have hmem : ∀ a, a ∈ s'.dropped ↔
      ∃ p f, UserPath p ∧ descend nextTable s.mem root p = some f ∧ a = direct f := by
    intro a
    rw [hdropped, List.mem_reverse, List.mem_map]
    constructor
    · rintro ⟨f, hf, rfl⟩
      obtain ⟨p, hp, hd⟩ := mem_postorder.1 hf
      exact ⟨p, f, within_iff.1 hp, hd, rfl⟩
    · rintro ⟨p, f, hp, hd, rfl⟩
      exact ⟨f, mem_postorder.2 ⟨p, within_iff.2 hp, hd⟩, rfl⟩
  refine ⟨s', hrun, ?_, hmem, ?_, ?_, ?_⟩
  · rw [hdropped, List.nodup_reverse]
    exact hnd.map_on fun f hf g hg heq => direct_inj (hframes f hf) (hframes g hg) heq
  · intro p q f g hq hpq hf hg
    rw [hdropped, List.reverse_reverse]
    exact (sublist_postorder hq (within_iff.2 hpq) hf hg).map direct
  · intro p t i hp hlen ht hi hpresent hmem'
    obtain ⟨q, f, hq, hf, heq⟩ := (hmem _).1 hmem'
    have hbase : IsFrame (pteGetBase (s.mem t i)) := by
      rw [IsFrame, pteGetBase_eq]
      omega
    have hff := hframes f (mem_postorder.2 ⟨q, within_iff.2 hq, hf⟩)
    exact htree.pages p q t i hp hlen ht hi hpresent hq.tablePath
      (direct_inj hbase hff heq ▸ hf)
  · intro p i f hp hi hf hmem'
    obtain ⟨q, g, hq, hg, heq⟩ := (hmem _).1 hmem'
    have hgf := hframes g (mem_postorder.2 ⟨q, within_iff.2 hq, hg⟩)
    obtain rfl := direct_inj (isFrame_of_descend hroot hf) hgf heq
    -- the path of a user table has a smaller first index, or none
    have hpath := htree.tables _ _ f hp hq.tablePath hf hg
    rw [← hpath] at hq
    have := hq.head i rfl
    omega

/-- A pml4 with its own slot and a table under slot 0. -/
def oneTable : Memory := fun f i =>
  if f = 0x1000 ∧ i = 256 then 0x1003 else if f = 0x1000 ∧ i = 0 then 0x2007 else 0

theorem descend_oneTable {p : List ℕ} {f : ℕ} (hp : TablePath p)
    (h : descend nextTable oneTable 0x1000 p = some f) :
    (p = [] ∧ f = 0x1000) ∨ (p = [0] ∧ f = 0x2000) := by
  rcases p with _ | ⟨i, r⟩
  · exact .inl ⟨rfl, (Option.some.inj h).symm⟩
  · have hi : i ≠ 256 := hp.head i rfl
    rw [descend_cons] at h
    rcases Nat.eq_zero_or_pos i with rfl | hpos
    · rw [show nextTable (oneTable 0x1000 0) = some 0x2000 by decide, Option.bind_some] at h
      rcases r with _ | ⟨j, r⟩
      · exact .inr ⟨rfl, (Option.some.inj h).symm⟩
      · rw [descend_cons, show oneTable 0x2000 j = 0 by simp [oneTable], nextTable_zero] at h
        cases h
    · rw [show oneTable 0x1000 i = 0 by simp [oneTable, hi, hpos.ne'], nextTable_zero] at h
      cases h

theorem treeShaped_oneTable : TreeShaped oneTable 0x1000 where
  tables p q f hp hq hpf hqf := by
    rcases descend_oneTable hp hpf with ⟨rfl, rfl⟩ | ⟨rfl, rfl⟩ <;>
      rcases descend_oneTable hq hqf with ⟨rfl, h⟩ | ⟨rfl, h⟩ <;> first | rfl | cases h
  pages p q t i hp hlen ht _ _ _ := by
    rcases descend_oneTable hp.tablePath ht with ⟨rfl, -⟩ | ⟨rfl, -⟩ <;> simp at hlen

theorem noHugeEntry_oneTable : NoHugeEntry oneTable 0x1000 := by
  intro p i f hp hf
  have htable := TablePath.of_append hp.tablePath
  rcases descend_oneTable htable hf with ⟨rfl, rfl⟩ | ⟨rfl, rfl⟩
  · have hi : i < 256 := hp.head i rfl
    rcases Nat.eq_zero_or_pos i with rfl | hpos
    · decide
    · rw [show oneTable 0x1000 i = 0 by simp [oneTable, hi.ne, hpos.ne']]
      decide
  · rw [show oneTable 0x2000 i = 0 by simp [oneTable]]
    decide

theorem destroyTables_freed_oneTable :
    ∃ s', destroyTables (direct 0x1000) ⟨oneTable, 0, []⟩ = .ok s' ∧
      Freed oneTable 0x1000 s'.dropped :=
  destroyTables_freed (s := ⟨oneTable, 0, []⟩) (by decide) treeShaped_oneTable
    noHugeEntry_oneTable rfl

end SadOS.Mm.Paging
