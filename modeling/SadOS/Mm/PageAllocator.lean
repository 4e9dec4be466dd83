import SadOS.Mm.GetPage
import SadOS.Lib.Threaded
import Mathlib.Tactic.Linarith

/-!
# What the page allocator hands out

A page that is handed out is aligned, it is an early page or lies inside the memory of
the firmware map that is free to use, and nobody else has it.  This holds while the
allocator takes whole aligned pages from its ranges: it never rounds a range to page
boundaries, and it compares the length that is left with `PAGE_SIZE` for equality only.

## Main definitions

* `BootMemory.Inside`, `BootMemory.Extra` — the memory that may be handed out.
* `BootMemory.Proper` — the ranges of the arguments do not wrap or overlap.
* `Owned` — the invariant: free pages, pages that are held and ranges are apart.
* `handsOut_of_whole` — the result over runs.
-/

namespace SadOS.GetPage

/-! ## Memory that may be handed out -/

/-- The page at physical address `p` lies wholly inside the type-1 range `e`, and outside
the reserved range. -/
def BootMemory.Inside (m : BootMemory) (e : Smap) (p : ℕ) : Prop :=
  e.type = 1 ∧ e.base.toNat ≤ p ∧ p + PAGE_SIZE ≤ e.base.toNat + e.length.toNat ∧
    (p + PAGE_SIZE ≤ m.rmBase.toNat ∨ m.rmBase.toNat + m.rmLength.toNat ≤ p)

/-- The early pages. -/
def BootMemory.Extra (m : BootMemory) (v : ℕ) : Prop :=
  ∃ i : ℕ, (i : ℤ) < m.count ∧ v = wadd m.extraPage.toNat (i * PAGE_SIZE)

/-- The virtual address of a page of the map. -/
def BootMemory.Usable (m : BootMemory) (v : ℕ) : Prop :=
  ∃ e ∈ m.smap, ∃ p, m.Inside e p ∧ v = wadd p KERN_VMBASE

/-- A type-1 range ends at `2 ^ 64` at the latest, and so does the reserved range.  One
that ends there, where the end wraps to 0, does not overlap the other. -/
def BootMemory.Ends (m : BootMemory) (e : Smap) : Prop :=
  e.base.toNat + e.length.toNat ≤ 2 ^ 64 ∧ m.rmBase.toNat + m.rmLength.toNat ≤ 2 ^ 64 ∧
    (e.base.toNat + e.length.toNat = 2 ^ 64 ∨ m.rmBase.toNat + m.rmLength.toNat = 2 ^ 64 →
      e.base.toNat + e.length.toNat ≤ m.rmBase.toNat ∨
        m.rmBase.toNat + m.rmLength.toNat ≤ e.base.toNat)

/-- The early pages are aligned and their offsets fit an `int`; the ranges do not wrap;
no aligned page can be handed out for two reasons. -/
structure BootMemory.Proper (m : BootMemory) : Prop where
  aligned : m.extraPage.toNat % 4096 = 0
  few : m.count ≤ 2 ^ 19
  ends : ∀ e ∈ m.smap, e.type = 1 → m.Ends e
  apart : m.smap.Pairwise fun e e' => ∀ p, p % 4096 = 0 → m.Inside e p → ¬m.Inside e' p
  extra : ∀ e ∈ m.smap, ∀ p, p % 4096 = 0 → m.Inside e p → ¬m.Extra (wadd p KERN_VMBASE)

/-- The pages that are handed out are aligned, each is handed out to one user, and they
are early pages or usable ones. -/
structure HandsOut (m : BootMemory) (w : PageUsers) : Prop where
  aligned : ∀ v ∈ w.out, v % 4096 = 0
  once : w.held.Nodup
  inside : ∀ v ∈ w.out, m.Extra v ∨ m.Usable v

/-- If the page comes from a range, then the range begins with a whole aligned page. -/
def PageUsers.Whole (w : PageUsers) : PageOp → Prop
  | .getPage => w.alloc.head = 0 → ∀ mr rest, w.alloc.usable = mr :: rest →
      mr.base % 4096 = 0 ∧ PAGE_SIZE ≤ mr.length
  | .getPhysPage => w.alloc.head = 0 → ∀ mr rest, w.alloc.usable = mr :: rest →
      mr.base % 4096 = 0 ∧ PAGE_SIZE ≤ mr.length
  | .dropPage _ => True
  | .write _ _ => True

/-! ## The invariant -/

/-- An aligned page inside a range. -/
def MemoryRange.Covers (mr : MemoryRange) (p : ℕ) : Prop :=
  p % 4096 = 0 ∧ mr.base ≤ p ∧ p + 4096 ≤ mr.base + mr.length

/-- The free pages, the pages `held` and the ranges are apart.  `F` holds of the former,
`W` of the pages of the ranges. -/
structure Owned (F W : ℕ → Prop) (a : Allocator) (held : List ℕ) : Prop where
  pages : ∃ free, Threaded a.next a.head free ∧ (free ++ held).Nodup ∧
    (∀ v ∈ free ++ held, F v) ∧
    ∀ mr ∈ a.usable, ∀ p, mr.Covers p → wadd p KERN_VMBASE ∉ free ++ held
  ends : ∀ mr ∈ a.usable, mr.base + mr.length ≤ 2 ^ 64
  inside : ∀ mr ∈ a.usable, ∀ p, mr.Covers p → W p
  apart : a.usable.Pairwise fun mr mr' => ∀ p, mr.Covers p → ¬mr'.Covers p

theorem wadd_kern_mod (p : ℕ) : wadd p KERN_VMBASE % 4096 = p % 4096 := by
  unfold wadd KERN_VMBASE
  omega

theorem wadd_kern_inj {p q : ℕ} (hp : p < 2 ^ 64) (hq : q < 2 ^ 64)
    (h : wadd p KERN_VMBASE = wadd q KERN_VMBASE) : p = q := by
  unfold wadd KERN_VMBASE at h
  omega

theorem wadd_wsub_kern {v : ℕ} (hv : v < 2 ^ 64) : wadd (wsub v KERN_VMBASE) KERN_VMBASE = v := by
  unfold wadd wsub KERN_VMBASE
  omega

namespace Owned

variable {F F' W W' : ℕ → Prop} {a a' : Allocator} {held held' : List ℕ}

theorem perm (h : Owned F W a held) (hp : held.Perm held') : Owned F W a held' := by
  obtain ⟨free, hl, hnd, hF, hfresh⟩ := h.pages
  have hp' : (free ++ held).Perm (free ++ held') := List.Perm.append_left free hp
  refine { h with pages := ⟨free, hl, hp'.nodup_iff.1 hnd, fun v hv => hF v (hp'.mem_iff.2 hv),
    fun mr hmr p hp hv => hfresh mr hmr p hp (hp'.mem_iff.2 hv)⟩ }

/-- The pools and the early phase do not matter. -/
theorem congr (h : Owned F W a held) (hhead : a'.head = a.head) (hnext : a'.next = a.next)
    (husable : a'.usable = a.usable) : Owned F W a' held := by
  obtain ⟨pages, ends, inside, apart⟩ := h
  constructor
  · rw [hhead, hnext, husable]
    exact pages
  · rw [husable]
    exact ends
  · rw [husable]
    exact inside
  · rw [husable]
    exact apart

theorem mono (h : Owned F W a held) (hF : ∀ v, F v → F' v) (hW : ∀ p, p % 4096 = 0 → W p → W' p) :
    Owned F' W' a held := by
  obtain ⟨free, hl, hnd, hfree, hfresh⟩ := h.pages
  exact ⟨⟨free, hl, hnd, fun v hv => hF v (hfree v hv), hfresh⟩, h.ends,
    fun mr hmr p hp => hW p hp.1 (h.inside mr hmr p hp), h.apart⟩

theorem nodup (h : Owned F W a held) : held.Nodup := by
  obtain ⟨free, -, hnd, -⟩ := h.pages
  exact (List.nodup_append.1 hnd).2.1

theorem of_mem (h : Owned F W a held) {v : ℕ} (hv : v ∈ held) : F v := by
  obtain ⟨free, -, -, hF, -⟩ := h.pages
  exact hF v (List.mem_append_right free hv)

/-- A user writes to a page. -/
theorem write (h : Owned F W a held) {v : ℕ} (hv : v ∈ held) (word : ℕ) :
    Owned F W { a with next := Function.update a.next v word } held := by
  obtain ⟨free, hl, hnd, hF, hfresh⟩ := h.pages
  have hfree : v ∉ free := fun hv' => (List.nodup_append.1 hnd).2.2 v hv' v hv rfl
  exact ⟨⟨free, hl.update hfree word, hnd, hF, hfresh⟩, h.ends, h.inside, h.apart⟩

/-- A page goes back to the free list.  The page at address 0 is lost, and with it the
list. -/
theorem drop {v : ℕ} (h : Owned F W a (v :: held)) :
    Owned F W { a with next := Function.update a.next v a.head, head := v } held := by
  obtain ⟨free, hl, hnd, hF, hfresh⟩ := h.pages
  have hfree : v ∉ free := fun hv' =>
    (List.nodup_append.1 hnd).2.2 v hv' v List.mem_cons_self rfl
  by_cases hv : v = 0
  · refine ⟨⟨[], hv, ?_, fun x hx => hF x ?_, fun mr hmr p hp hx => hfresh mr hmr p hp ?_⟩,
      h.ends, h.inside, h.apart⟩
    · exact (List.nodup_cons.1 (List.nodup_append.1 hnd).2.1).2
    · exact List.mem_append_right free (List.mem_cons_of_mem v hx)
    · exact List.mem_append_right free (List.mem_cons_of_mem v hx)
  · have hp : (free ++ v :: held).Perm (v :: free ++ held) := List.perm_middle
    exact ⟨⟨v :: free, hl.push hfree hv, hp.nodup_iff.1 hnd, fun x hx => hF x (hp.mem_iff.2 hx),
      fun mr hmr p hc hx => hfresh mr hmr p hc (hp.mem_iff.2 hx)⟩, h.ends, h.inside, h.apart⟩

/-- A page from the free list. -/
theorem pop (h : Owned F W a held) (hhead : a.head ≠ 0) :
    Owned F W { a with head := a.next a.head } (a.head :: held) := by
  obtain ⟨free, hl, hnd, hF, hfresh⟩ := h.pages
  obtain ⟨rest, rfl, hrest⟩ := hl.pop hhead
  have hp : (a.head :: rest ++ held).Perm (rest ++ a.head :: held) := List.perm_middle.symm
  exact ⟨⟨rest, hrest, hp.nodup_iff.1 hnd, fun x hx => hF x (hp.mem_iff.2 hx),
    fun mr hmr p hc hx => hfresh mr hmr p hc (hp.mem_iff.2 hx)⟩, h.ends, h.inside, h.apart⟩

/-- A whole aligned page from the first range, of which `left` is what remains. -/
theorem take (h : Owned F W a held) {mr : MemoryRange} {rest left : List MemoryRange}
    (husable : a.usable = mr :: rest) (hbase : mr.base % 4096 = 0) (hlength : 4096 ≤ mr.length)
    (hleft : ∀ mr' ∈ left, mr'.base = mr.base + 4096 ∧ mr'.length = mr.length - 4096)
    (hone : left.length ≤ 1) (hF : ∀ p, p % 4096 = 0 → W p → F (wadd p KERN_VMBASE))
    (pool : ObjPool) :
    Owned F W { a with usable := left ++ rest, mrngPool := pool }
      (wadd mr.base KERN_VMBASE :: held) := by
  obtain ⟨free, hl, hnd, hFfree, hfresh⟩ := h.pages
  have hends := h.ends
  have hin := h.inside
  have hap := h.apart
  rw [husable] at hfresh hends hin hap
  have hcov : mr.Covers mr.base := ⟨hbase, le_refl _, by omega⟩
  have hmr := List.mem_cons_self (a := mr) (l := rest)
  have hlt := hends mr hmr
  -- the pages of what remains are pages of the range, but not its first
  have hsub : ∀ mr' ∈ left, ∀ p, mr'.Covers p → mr.Covers p ∧ p ≠ mr.base := by
    rintro mr' hmr' p ⟨hp, hlo, hhi⟩
    obtain ⟨hb, hle⟩ := hleft mr' hmr'
    rw [hb] at hlo
    rw [hb, hle] at hhi
    exact ⟨⟨hp, by omega, by omega⟩, by omega⟩
  have hnew : ∀ mr' ∈ left ++ rest, ∀ p, mr'.Covers p → p < 2 ^ 64 ∧ p ≠ mr.base ∧
      ∃ mr'' ∈ mr :: rest, mr''.Covers p := by
    intro mr' hmr' p hp
    rcases List.mem_append.1 hmr' with hmr' | hmr'
    · obtain ⟨hp', hne⟩ := hsub mr' hmr' p hp
      exact ⟨by have := hp'.2.2; omega, hne, mr, hmr, hp'⟩
    · refine ⟨?_, ?_, mr', List.mem_cons_of_mem mr hmr', hp⟩
      · have := hends mr' (List.mem_cons_of_mem mr hmr')
        have := hp.2.2
        omega
      · rintro rfl
        exact (List.pairwise_cons.1 hap).1 mr' hmr' mr.base hcov hp
  obtain ⟨pg, hpg⟩ : ∃ pg, pg = wadd mr.base KERN_VMBASE := ⟨_, rfl⟩
  have hpgF : F pg := hpg ▸ hF mr.base hbase (hin mr hmr mr.base hcov)
  have hpgfresh : pg ∉ free ++ held := hpg ▸ hfresh mr hmr mr.base hcov
  rw [← hpg]
  have hp : (pg :: (free ++ held)).Perm (free ++ pg :: held) := List.perm_middle.symm
  refine ⟨⟨free, hl, hp.nodup_iff.1 (List.nodup_cons.2 ⟨hpgfresh, hnd⟩), ?_, ?_⟩, ?_, ?_, ?_⟩
  · intro v hv
    rcases List.mem_cons.1 (hp.mem_iff.2 hv) with rfl | hv
    · exact hpgF
    · exact hFfree v hv
  · intro mr' hmr' p hc hv
    obtain ⟨hlt', hne, mr'', hmr'', hc'⟩ := hnew mr' hmr' p hc
    rcases List.mem_cons.1 (hp.mem_iff.2 hv) with heq | hv
    · exact hne (wadd_kern_inj hlt' (by omega) (heq.trans hpg))
    · exact hfresh mr'' hmr'' p hc' hv
  · intro mr' hmr'
    rcases List.mem_append.1 hmr' with hmr' | hmr'
    · obtain ⟨hb, hle⟩ := hleft mr' hmr'
      omega
    · exact hends mr' (List.mem_cons_of_mem mr hmr')
  · intro mr' hmr' p hc
    obtain ⟨-, -, mr'', hmr'', hc'⟩ := hnew mr' hmr' p hc
    exact hin mr'' hmr'' p hc'
  · refine List.pairwise_append.2 ⟨?_, (List.pairwise_cons.1 hap).2, fun mr' hmr' mr'' hmr'' p hc => ?_⟩
    · match left, hone with
      | [], _ => exact List.Pairwise.nil
      | [_], _ => exact List.pairwise_singleton _ _
    · exact (List.pairwise_cons.1 hap).1 mr'' hmr'' p (hsub mr' hmr' p hc).1

/-- A range more. -/
theorem add (h : Owned F W a held) (mr : MemoryRange) (hend : mr.base + mr.length ≤ 2 ^ 64)
    (hW : ∀ p, mr.Covers p → W p) (hapart : ∀ mr' ∈ a.usable, ∀ p, mr.Covers p → ¬mr'.Covers p)
    (hF : ∀ p, mr.Covers p → ¬F (wadd p KERN_VMBASE)) :
    Owned F W { a with usable := mr :: a.usable } held := by
  obtain ⟨free, hl, hnd, hFfree, hfresh⟩ := h.pages
  refine ⟨⟨free, hl, hnd, hFfree, ?_⟩, ?_, ?_, List.pairwise_cons.2 ⟨hapart, h.apart⟩⟩
  · rintro mr' hmr' p hc hv
    rcases List.mem_cons.1 hmr' with rfl | hmr'
    · exact hF p hc (hFfree _ hv)
    · exact hfresh mr' hmr' p hc hv
  · rintro mr' hmr'
    rcases List.mem_cons.1 hmr' with rfl | hmr'
    · exact hend
    · exact h.ends mr' hmr'
  · rintro mr' hmr'
    rcases List.mem_cons.1 hmr' with rfl | hmr'
    · exact hW
    · exact h.inside mr' hmr'

end Owned

/-! ## The functions -/

section Functions

variable {F W : ℕ → Prop} {a : Allocator} {held : List ℕ}

theorem pageSize_eq : PAGE_SIZE = 4096 := rfl

theorem objPoolFree_pages {obp obp' : ObjPool} {obj : ℕ} (h : objPoolFree obp obj = .ok obp') :
    obp'.pages = obp.pages := by
  unfold objPoolFree at h
  generalize wsub (wsub obj (pageAlign obj)) 8 % obp.objSize = rest at h
  by_cases hrest : rest = 0
  · rw [hrest] at h
    cases h
    rfl
  · simp [hrest] at h

/-- From the free list, or the first page of a range that begins with a whole one. -/
theorem getPhysPage_owned (h : Owned F W a held) (hlt : ∀ v, F v → v < 2 ^ 64)
    (hF : ∀ p, p % 4096 = 0 → W p → F (wadd p KERN_VMBASE))
    (hwhole : a.head = 0 → ∀ mr rest, a.usable = mr :: rest →
      mr.base % 4096 = 0 ∧ PAGE_SIZE ≤ mr.length) :
    Safely (fun _ => True) (fun r => Owned F W r.2 (wadd r.1 KERN_VMBASE :: held) ∧
      r.2.early = false ∧ r.2.mrngPool.pages = a.mrngPool.pages ∧
      r.2.metaObjPool.pages = a.metaObjPool.pages) (getPhysPage a) := by
  unfold getPhysPage
  split
  · trivial
  next hearly =>
  have hearly : a.early = false := by simpa using hearly
  split
  next hhead =>
    have hpop := h.pop hhead
    have hv := hlt _ (hpop.of_mem List.mem_cons_self)
    rw [safely_pure]
    dsimp only
    rw [wadd_wsub_kern hv]
    exact ⟨hpop, hearly, rfl, rfl⟩
  next hhead =>
    have hhead : a.head = 0 := not_not.1 hhead
    split
    · trivial
    next mr rest husable =>
    obtain ⟨hbase, hlength⟩ := hwhole hhead mr rest husable
    rw [pageSize_eq] at hlength
    by_cases hlast : mr.length = PAGE_SIZE
    · rw [if_pos hlast, safely_bind]
      rw [safely_iff]
      refine ⟨fun pool hpool => ?_, fun _ _ => trivial⟩
      have htake : Owned F W { a with usable := [] ++ rest, mrngPool := pool }
          (wadd mr.base KERN_VMBASE :: held) :=
        h.take husable hbase hlength (by simp) (by simp) hF pool
      rw [safely_pure]
      exact ⟨htake, hearly, objPoolFree_pages hpool, rfl⟩
    · rw [if_neg hlast]
      have hend := h.ends mr (husable ▸ List.mem_cons_self)
      obtain ⟨hbase', hlength'⟩ : wadd mr.base PAGE_SIZE = mr.base + 4096 ∧
          wsub mr.length PAGE_SIZE = mr.length - 4096 := by
        simp only [wadd, wsub, pageSize_eq] at hlast ⊢
        constructor <;> omega
      rw [hbase', hlength']
      have htake : Owned F W { a with
          usable := [{ mr with base := mr.base + 4096, length := mr.length - 4096 }] ++ rest,
          mrngPool := a.mrngPool } (wadd mr.base KERN_VMBASE :: held) :=
        h.take husable hbase hlength (by simp) (by simp) hF a.mrngPool
      rw [safely_pure]
      exact ⟨htake, hearly, rfl, rfl⟩

theorem getPage_owned (h : Owned F W a held) (hlt : ∀ v, F v → v < 2 ^ 64)
    (hF : ∀ p, p % 4096 = 0 → W p → F (wadd p KERN_VMBASE))
    (hwhole : a.head = 0 → ∀ mr rest, a.usable = mr :: rest →
      mr.base % 4096 = 0 ∧ PAGE_SIZE ≤ mr.length) (hearly : a.early = false) :
    Safely (fun _ => True) (fun r => Owned F W r.2 (r.1 :: held) ∧ r.2.early = false ∧
      r.2.mrngPool.pages = a.mrngPool.pages ∧ r.2.metaObjPool.pages = a.metaObjPool.pages)
      (getPage a) := by
  unfold getPage
  split
  next hhead => exact ⟨h.pop hhead, hearly, rfl, rfl⟩
  next hhead =>
    rw [safely_bind]
    exact getPhysPage_owned h hlt hF hwhole

/-- In the early phase pages come from the free list only. -/
theorem getPage_early (h : Owned F W a held) (hearly : a.early = true) :
    Safely (fun _ => True) (fun r => Owned F W r.2 (r.1 :: held) ∧
      r.2 = { a with head := a.next a.head }) (getPage a) := by
  unfold getPage
  split
  next hhead => exact ⟨h.pop hhead, rfl⟩
  next hhead =>
    have hpanic : getPhysPage a = .error (.panic "Early get phys page") := by
      simp [getPhysPage, hearly]
    simp [hpanic]

/-- A pool takes pages from the free list. -/
theorem objPoolAlloc_owned {obp : ObjPool} {others : List ℕ} (h : Owned F W a (obp.pages ++ others))
    (hearly : a.early = true) :
    Safely (fun _ => True) (fun r => Owned F W r.2.2 (r.2.1.pages ++ others) ∧
      r.2.2.early = true ∧ r.2.2.usable = a.usable ∧ r.2.2.mrngPool = a.mrngPool ∧
      r.2.2.metaObjPool = a.metaObjPool) (objPoolAlloc obp a) := by
  unfold objPoolAlloc
  split
  · exact ⟨h, hearly, rfl, rfl, rfl⟩
  · split
    · simp only [safely_bind]
      refine (getPage_early h hearly).mono ?_
      rintro ⟨page, a'⟩ ⟨hown, rfl⟩
      exact ⟨hown.write List.mem_cons_self _, hearly, rfl, rfl, rfl⟩
    · exact ⟨h, hearly, rfl, rfl, rfl⟩

end Functions

/-! ## The start -/

/-- The pages that are free at first. -/
def BootMemory.Early (m : BootMemory) (v : ℕ) : Prop := v % 4096 = 0 ∧ v < 2 ^ 64 ∧ m.Extra v

/-- The pages that are handed out. -/
def BootMemory.Fit (m : BootMemory) (v : ℕ) : Prop :=
  v % 4096 = 0 ∧ v < 2 ^ 64 ∧ (m.Extra v ∨ m.Usable v)

theorem pageOffset_eq {i : ℕ} (hi : i < 2 ^ 19) : pageOffset i = i * 4096 := by
  unfold pageOffset
  split <;> omega

/-- The first loop drops one page after the other. -/
theorem owned_foldl_push {F W : ℕ → Prop} {f : ℕ → ℕ} {l : List ℕ} {a : Allocator}
    (h : Owned F W a (l.map f)) :
    Owned F W (l.foldl (fun a i =>
      { a with next := Function.update a.next (f i) a.head, head := f i }) a) [] := by
  induction l generalizing a with
  | nil => exact h
  | cons i rest ih => exact ih h.drop

theorem foldl_push_fields {f : ℕ → ℕ} {l : List ℕ} {a a' : Allocator}
    (h : a' = l.foldl (fun a i =>
      { a with next := Function.update a.next (f i) a.head, head := f i }) a) :
    a'.usable = a.usable ∧ a'.metaObjPool = a.metaObjPool ∧ a'.early = a.early := by
  induction l generalizing a with
  | nil => simp [h]
  | cons i rest ih =>
    rw [List.foldl_cons] at h
    have hr := ih h
    exact hr

/-- The early pages are distinct pages. -/
theorem BootMemory.Proper.nodup_extra {m : BootMemory} (h : m.Proper) :
    ((List.range m.count.toNat).map fun i => wadd m.extraPage.toNat (pageOffset i)).Nodup := by
  have hfew := h.few
  refine List.Nodup.map_on (fun i hi j hj hij => ?_) List.nodup_range
  rw [List.mem_range] at hi hj
  rw [pageOffset_eq (by omega), pageOffset_eq (by omega)] at hij
  unfold wadd at hij
  omega

theorem BootMemory.Proper.early_extra {m : BootMemory} (h : m.Proper) {i : ℕ}
    (hi : i < m.count.toNat) : m.Early (wadd m.extraPage.toNat (pageOffset i)) := by
  have hfew := h.few
  have haligned := h.aligned
  rw [pageOffset_eq (by omega)]
  refine ⟨?_, ?_, i, by omega, rfl⟩
  · unfold wadd
    omega
  · unfold wadd
    omega

/-- While the map is read: the ranges hold no page of an entry that is still to come. -/
structure Loading (m : BootMemory) (rest : List Smap) (a : Allocator) : Prop where
  owned : Owned m.Early (fun p => ∃ e ∈ m.smap, m.Inside e p) a
    (a.mrngPool.pages ++ a.metaObjPool.pages)
  early : a.early = true
  apart : ∀ mr ∈ a.usable, ∀ e ∈ rest, ∀ p, mr.Covers p → ¬m.Inside e p

namespace Loading

variable {m : BootMemory} {rest : List Smap} {a : Allocator} {e : Smap}

/-- A piece of the entry `e` becomes a range. -/
theorem addRange (h : Loading m rest a) (hm : m.Proper) (he : e ∈ m.smap)
    (hrest : ∀ e' ∈ rest, ∀ p, p % 4096 = 0 → m.Inside e p → ¬m.Inside e' p) {base length : ℕ}
    (hend : base + length ≤ 2 ^ 64)
    (hin : ∀ p, p % 4096 = 0 → base ≤ p → p + 4096 ≤ base + length → m.Inside e p)
    (hapart : ∀ mr ∈ a.usable, ∀ p, p % 4096 = 0 → base ≤ p → p + 4096 ≤ base + length →
      ¬mr.Covers p) :
    Safely (fun _ => True) (fun a' => Loading m rest a' ∧
      ∃ addr, a'.usable = ⟨addr, base, length⟩ :: a.usable) (GetPage.addRange a base length) := by
  unfold GetPage.addRange
  rw [safely_bind]
  refine (objPoolAlloc_owned h.owned h.early).mono ?_
  rintro ⟨mr, obp, a'⟩ ⟨hown, hearly, husable, -, hmeta⟩
  dsimp only at hown hearly husable hmeta ⊢
  rw [safely_pure]
  have hadd := hown.add ⟨mr, base, length⟩ hend
    (fun p hp => ⟨e, he, hin p hp.1 hp.2.1 hp.2.2⟩)
    (fun mr' hmr' p hp => hapart mr' (husable ▸ hmr') p hp.1 hp.2.1 hp.2.2)
    (fun p hp hF => hm.extra e he p hp.1 (hin p hp.1 hp.2.1 hp.2.2) hF.2.2)
  refine ⟨⟨?_, hearly, ?_⟩, mr, by rw [husable]⟩
  · dsimp only
    rw [hmeta]
    exact hadd.congr rfl rfl rfl
  · intro mr' hmr' e' he' p hp
    rcases List.mem_cons.1 hmr' with rfl | hmr'
    · exact hrest e' he' p hp.1 (hin p hp.1 hp.2.1 hp.2.2)
    · exact h.apart mr' (husable ▸ hmr') e' he' p hp

/-- The next entry of the map: the four ways in which it and the reserved range lie. -/
theorem addEntry (h : Loading m (e :: rest) a) (hm : m.Proper) (he : e ∈ m.smap)
    (hrest : ∀ e' ∈ rest, ∀ p, p % 4096 = 0 → m.Inside e p → ¬m.Inside e' p) :
    Safely (fun _ => True) (Loading m rest)
      (GetPage.addEntry m.rmBase.toNat m.rmLength.toNat a e) := by
  have hold : ∀ mr ∈ a.usable, ∀ p, m.Inside e p → ¬mr.Covers p := fun mr hmr p hin hp =>
    h.apart mr hmr e List.mem_cons_self p hp hin
  have h' : Loading m rest a := ⟨h.owned, h.early, fun mr hmr e' he' =>
    h.apart mr hmr e' (List.mem_cons_of_mem e he')⟩
  unfold GetPage.addEntry
  by_cases htype : e.type = 1
  swap
  · simpa [htype] using h'
  simp only [htype, ne_eq, not_true_eq_false, if_false]
  obtain ⟨hend, hrm, hwrap⟩ := hm.ends e he htype
  have hb := e.base.toNat_lt
  have hrb := m.rmBase.toNat_lt
  have hin : ∀ p, m.Inside e p ↔ e.base.toNat ≤ p ∧ p + 4096 ≤ e.base.toNat + e.length.toNat ∧
      (p + 4096 ≤ m.rmBase.toNat ∨ m.rmBase.toNat + m.rmLength.toNat ≤ p) := by
    intro p
    simp [BootMemory.Inside, htype, pageSize_eq]
  generalize e.base.toNat = base at *
  generalize e.length.toNat = length at *
  generalize m.rmBase.toNat = rmBase at *
  generalize m.rmLength.toNat = rmLength at *
  obtain ⟨rmend, hrmend⟩ : ∃ rmend, rmend = wadd rmBase rmLength := ⟨_, rfl⟩
  obtain ⟨end_, hend_⟩ : ∃ end_, end_ = wadd base length := ⟨_, rfl⟩
  rw [← hrmend, ← hend_]
  unfold wadd at hrmend hend_
  by_cases hover : rmend > base ∧ end_ > rmBase
  · rw [if_pos hover]
    obtain ⟨hover₁, hover₂⟩ := hover
    have hrmend' : rmend = rmBase + rmLength := by omega
    have hend' : end_ = base + length := by omega
    by_cases hcovered : rmend ≥ end_ ∧ rmBase ≤ base
    · rw [if_pos hcovered]
      exact h'
    rw [if_neg hcovered]
    by_cases hhigh : rmend ≥ end_
    · have hlen : wsub rmBase base = rmBase - base := by unfold wsub; omega
      rw [if_pos hhigh, hlen]
      have hpiece : ∀ p, p % 4096 = 0 → base ≤ p → p + 4096 ≤ base + (rmBase - base) →
          m.Inside e p := fun p _ hlo hhi => (hin p).2 (by omega)
      exact (h'.addRange hm he hrest (by omega) hpiece fun mr hmr p hp hlo hhi =>
        hold mr hmr p (hpiece p hp hlo hhi)).mono fun a' h => h.1
    · rw [if_neg hhigh]
      have hlen : wsub end_ rmend = end_ - rmend := by unfold wsub; omega
      have hpiece₂ : ∀ p, p % 4096 = 0 → rmend ≤ p → p + 4096 ≤ rmend + (end_ - rmend) →
          m.Inside e p := fun p _ hlo hhi => (hin p).2 (by omega)
      rw [hlen]
      by_cases hlow : rmBase > base
      · have hlen : wsub rmBase base = rmBase - base := by unfold wsub; omega
        rw [if_pos hlow, hlen, safely_bind]
        have hpiece : ∀ p, p % 4096 = 0 → base ≤ p → p + 4096 ≤ base + (rmBase - base) →
            m.Inside e p := fun p _ hlo hhi => (hin p).2 (by omega)
        refine (h'.addRange hm he hrest (by omega) hpiece fun mr hmr p hp hlo hhi =>
          hold mr hmr p (hpiece p hp hlo hhi)).mono ?_
        rintro a₁ ⟨h₁, addr, husable⟩
        refine (h₁.addRange hm he hrest (by omega) hpiece₂ fun mr hmr p hp hlo hhi hc => ?_).mono
          fun a' h => h.1
        rw [husable] at hmr
        rcases List.mem_cons.1 hmr with rfl | hmr
        · have hc' : p + 4096 ≤ base + (rmBase - base) := hc.2.2
          omega
        · exact hold mr hmr p (hpiece₂ p hp hlo hhi) hc
      · rw [if_neg hlow, pure_eq_ok, ok_bind]
        exact (h'.addRange hm he hrest (by omega) hpiece₂ fun mr hmr p hp hlo hhi =>
          hold mr hmr p (hpiece₂ p hp hlo hhi)).mono fun a' h => h.1
  · rw [if_neg hover]
    have hpiece : ∀ p, p % 4096 = 0 → base ≤ p → p + 4096 ≤ base + length → m.Inside e p :=
      fun p _ hlo hhi => (hin p).2 (by omega)
    exact (h'.addRange hm he hrest (by omega) hpiece fun mr hmr p hp hlo hhi =>
      hold mr hmr p (hpiece p hp hlo hhi)).mono fun a' h => h.1

end Loading

/-! ## Runs -/

/-- The invariant of a run. -/
structure PageUsers.Apart (m : BootMemory) (w : PageUsers) : Prop where
  owned : Owned m.Fit (fun p => ∃ e ∈ m.smap, m.Inside e p) w.alloc w.held
  early : w.alloc.early = false

namespace BootMemory

variable {m : BootMemory} {mem : ℕ → ℕ}

theorem Fit.lt {v : ℕ} (h : m.Fit v) : v < 2 ^ 64 := h.2.1

theorem fit_of_inside {p : ℕ} (hp : p % 4096 = 0) (h : ∃ e ∈ m.smap, m.Inside e p) :
    m.Fit (wadd p KERN_VMBASE) := by
  obtain ⟨e, he, hin⟩ := h
  refine ⟨?_, ?_, .inr ⟨e, he, p, hin, rfl⟩⟩
  · rw [wadd_kern_mod]
    exact hp
  · unfold wadd
    omega

/-- The allocator starts with the early pages and with ranges that lie apart. -/
theorem Proper.boot (h : m.Proper) :
    Safely (fun _ => True) (PageUsers.Apart m) (PageUsers.boot m mem) := by
  unfold PageUsers.boot pageAllocatorInit
  rw [safely_bind]
  by_cases hcount : m.count < 4
  · simp [hcount]
  rw [if_neg hcount]
  dsimp only
  generalize ha₀ : (Allocator.mk 0 mem [] _ _ true : Allocator) = a₀
  have h₀ : Owned m.Early (fun p => ∃ e ∈ m.smap, m.Inside e p) a₀
      ((List.range m.count.toNat).map fun i => wadd m.extraPage.toNat (pageOffset i)) := by
    refine ⟨⟨[], ?_, h.nodup_extra, ?_, ?_⟩, ?_, ?_, ?_⟩
    · rw [← ha₀]
      rfl
    · intro v hv
      obtain ⟨i, hi, rfl⟩ := List.mem_map.1 hv
      exact h.early_extra (List.mem_range.1 hi)
    · simp [← ha₀]
    · simp [← ha₀]
    · simp [← ha₀]
    · simp [← ha₀]
  have h₁ := owned_foldl_push h₀
  generalize ha₁ : List.foldl _ a₀ _ = a₁ at h₁ ⊢
  obtain ⟨husable, hmeta, hearly⟩ := foldl_push_fields ha₁.symm
  rw [← ha₀] at husable hmeta hearly
  have h₂ : Owned m.Early (fun p => ∃ e ∈ m.smap, m.Inside e p) a₁
      (a₁.metaObjPool.pages ++ []) := by
    rw [hmeta]
    exact h₁
  rw [safely_bind, mrngPoolCreate, safely_bind]
  refine (objPoolAlloc_owned h₂ hearly).mono ?_
  rintro ⟨ret, obp, a₂⟩ ⟨hown, hearly₂, husable₂, -, -⟩
  dsimp only at hown hearly₂ husable₂ ⊢
  rw [safely_pure, safely_bind]
  refine Safely.mono (safely_foldlM (fun rest a => (∀ e ∈ rest, e ∈ m.smap) ∧
    (rest.Pairwise fun e e' => ∀ p, p % 4096 = 0 → m.Inside e p → ¬m.Inside e' p) ∧
    Loading m rest a) ⟨fun e he => he, h.apart, ?_, hearly₂, ?_⟩ ?_) ?_
  · refine (hown.perm ?_).congr rfl rfl rfl
    simp
  · simp [husable₂, husable]
  · rintro e rest a ⟨hmem, hpw, hload⟩
    rw [List.pairwise_cons] at hpw
    exact (hload.addEntry h (hmem e List.mem_cons_self) hpw.1).mono fun a' ha' =>
      ⟨fun e' he' => hmem e' (List.mem_cons_of_mem e he'), hpw.2, ha'⟩
  · rintro a ⟨-, -, hload⟩
    rw [safely_pure, safely_pure]
    exact ⟨(hload.owned.mono (fun v hv => ⟨hv.1, hv.2.1, .inl hv.2.2⟩) fun p _ hp => hp).congr
      rfl rfl rfl, rfl⟩

end BootMemory

namespace PageUsers.Apart

variable {m : BootMemory} {w : PageUsers}

theorem handsOut (h : w.Apart m) : HandsOut m w :=
  ⟨fun _ hv => (h.owned.of_mem (List.mem_append_left _ hv)).1, h.owned.nodup,
    fun _ hv => (h.owned.of_mem (List.mem_append_left _ hv)).2.2⟩

theorem step (h : w.Apart m) {op : PageOp} (hlegal : w.Legal op) (hwhole : w.Whole op) :
    Safely (fun _ => True) (PageUsers.Apart m) (w.step op) := by
  cases op with
  | getPage =>
    rw [PageUsers.step, safely_bind]
    refine (getPage_owned h.owned (fun v hv => hv.lt) (fun p => BootMemory.fit_of_inside) hwhole
      h.early).mono ?_
    rintro ⟨pg, a⟩ ⟨hown, hearly, hmrng, hmeta⟩
    dsimp only at hown hearly hmrng hmeta
    rw [safely_pure]
    refine ⟨?_, hearly⟩
    simpa [held, hmrng, hmeta] using hown
  | getPhysPage =>
    rw [PageUsers.step, safely_bind]
    refine (getPhysPage_owned h.owned (fun v hv => hv.lt) (fun p => BootMemory.fit_of_inside)
      hwhole).mono ?_
    rintro ⟨pg, a⟩ ⟨hown, hearly, hmrng, hmeta⟩
    dsimp only at hown hearly hmrng hmeta
    rw [safely_pure]
    refine ⟨?_, hearly⟩
    simpa [held, hmrng, hmeta] using hown
  | dropPage pg =>
    have hp : w.held.Perm (pg :: (w.out.erase pg ++
        (w.alloc.mrngPool.pages ++ w.alloc.metaObjPool.pages))) :=
      (List.perm_cons_erase hlegal).append_right _
    rw [PageUsers.step, GetPage.dropPage]
    split
    · trivial
    · exact ⟨(h.owned.perm hp).drop, h.early⟩
  | write pg word =>
    exact ⟨h.owned.write (List.mem_append_left _ hlegal) word, h.early⟩

end PageUsers.Apart

/-! ## A test of steps -/

/-- `Legal` and `Whole`, computed. -/
def PageUsers.check (w : PageUsers) : PageOp → Bool
  | .getPage => w.alloc.head != 0 || w.alloc.usable.all fun mr =>
      mr.base % 4096 == 0 && decide (PAGE_SIZE ≤ mr.length)
  | .getPhysPage => w.alloc.head != 0 || w.alloc.usable.all fun mr =>
      mr.base % 4096 == 0 && decide (PAGE_SIZE ≤ mr.length)
  | .dropPage pg => decide (pg ∈ w.out)
  | .write pg _ => decide (pg ∈ w.out)

theorem whole_of_check {w : PageUsers} {op : PageOp} (h : w.check op = true) :
    w.Legal op ∧ w.Whole op := by
  have hrange : (w.alloc.head != 0 || w.alloc.usable.all fun mr =>
      mr.base % 4096 == 0 && decide (PAGE_SIZE ≤ mr.length)) = true →
      w.alloc.head = 0 → ∀ mr rest, w.alloc.usable = mr :: rest →
        mr.base % 4096 = 0 ∧ PAGE_SIZE ≤ mr.length := by
    intro h hhead mr rest husable
    simp only [hhead, husable, bne_self_eq_false, Bool.false_or, List.all_cons, Bool.and_eq_true,
      beq_iff_eq, decide_eq_true_eq] at h
    exact h.1
  cases op with
  | getPage => exact ⟨trivial, hrange h⟩
  | getPhysPage => exact ⟨trivial, hrange h⟩
  | dropPage pg => exact ⟨by simpa [PageUsers.check, PageUsers.Legal] using h, trivial⟩
  | write pg word => exact ⟨by simpa [PageUsers.check, PageUsers.Legal] using h, trivial⟩

/-- While the pages that are taken from ranges are whole aligned pages of them, the pages
that are handed out are as they should be. -/
theorem handsOut_of_whole {m : BootMemory} (hm : m.Proper) {mem : ℕ → ℕ} {w₀ : PageUsers}
    (hboot : PageUsers.boot m mem = .ok w₀) {ops : List PageOp}
    (hok : Along (fun w op => w.Legal op ∧ w.Whole op) PageUsers.step w₀ ops) :
    Safely (fun _ => True) (HandsOut m) (w₀.run ops) :=
  (safely_along (hm.boot.of_ok hboot) (fun _ _ h hok => h.step hok.1 hok.2) hok).mono
    fun _ h => h.handsOut

/-- Two ranges of whole pages, one of them around the reserved range. -/
def wholeMap : BootMemory where
  extraPage := 0xffff808000200000
  count := 4
  smap := [⟨0x100000, 0x300000, 1⟩, ⟨0xf0000, 0x10000, 2⟩, ⟨0x800000, 0x1000, 1⟩]
  rmBase := 0x180000
  rmLength := 0x90000

theorem wholeMap_proper : wholeMap.Proper := by
  refine ⟨by decide, by decide, ?_, ?_, ?_⟩
  · intro e he
    simp only [wholeMap, List.mem_cons, List.not_mem_nil, or_false] at he
    rcases he with rfl | rfl | rfl <;> simp [wholeMap, BootMemory.Ends]
  · simp only [wholeMap, BootMemory.Inside, List.pairwise_cons]
    simp
    omega
  · rintro e he p - ⟨htype, hlo, hhi, hrm⟩ ⟨i, hi, heq⟩
    simp only [wholeMap, List.mem_cons, List.not_mem_nil, or_false] at he hi
    rcases he with rfl | rfl | rfl <;>
      simp [wholeMap, wadd, KERN_VMBASE, pageSize_eq] at htype hlo hhi hrm heq <;> omega

/-- All early pages, a range as a whole, the begin of another, and a page that goes back. -/
theorem handsOut_of_whole_recycles :
    ∃ w₀ w, PageUsers.boot wholeMap (fun _ => 0) = .ok w₀ ∧
      w₀.run [.getPage, .getPage, .getPhysPage, .getPhysPage, .write (0x210000 + KERN_VMBASE) 7,
        .dropPage (0x210000 + KERN_VMBASE), .getPage, .getPage] = .ok w ∧ HandsOut wholeMap w := by
  generalize hops : [PageOp.getPage, .getPage, .getPhysPage, .getPhysPage,
    .write (0x210000 + KERN_VMBASE) 7, .dropPage (0x210000 + KERN_VMBASE), .getPage, .getPage] = ops
  obtain ⟨w₀, hw₀⟩ : ∃ w₀, PageUsers.boot wholeMap (fun _ => 0) = .ok w₀ := by
    rw [← isOk_iff]
    decide +kernel
  have hcheck : (PageUsers.boot wholeMap (fun _ => 0)).toOption.map (fun w₀ =>
      (alongCheck PageUsers.check PageUsers.step w₀ ops, (w₀.run ops).toOption.isSome)) =
        some (true, true) := by
    rw [← hops]
    decide +kernel
  rw [hw₀, Except.toOption, Option.map_some, Option.some.injEq, Prod.mk.injEq] at hcheck
  obtain ⟨hcheck, hrun⟩ := hcheck
  obtain ⟨w, hw⟩ := isOk_iff.1 hrun
  exact ⟨w₀, w, hw₀, hw, (handsOut_of_whole wholeMap_proper hw₀
    (along_of_check hcheck fun _ _ => whole_of_check)).of_ok hw⟩

/-- A range of one and a half pages. -/
def halfMap : BootMemory where
  extraPage := 0xffff808000200000
  count := 4
  smap := [⟨0x800000, 0x1800, 1⟩]
  rmBase := 0x100000
  rmLength := 0x200000

/-- The second page of the range does not lie wholly inside it. -/
theorem handsOut_fails : ¬∀ (m : BootMemory) (mem : ℕ → ℕ) (w₀ w : PageUsers) (ops : List PageOp),
    PageUsers.boot m mem = .ok w₀ → Along PageUsers.Legal PageUsers.step w₀ ops →
      w₀.run ops = .ok w → HandsOut m w := by
  intro h
  generalize hops : List.replicate 4 PageOp.getPage = ops at h
  have hrun : (PageUsers.boot halfMap (fun _ => 0)).toOption.map (fun w₀ =>
      (w₀.run ops).toOption.map fun w => w.out.head?) =
        some (some (some 0xffff808000801000)) := by
    rw [← hops]
    decide +kernel
  cases hw₀ : PageUsers.boot halfMap (fun _ => 0) with
  | error e =>
    rw [hw₀] at hrun
    cases hrun
  | ok w₀ =>
    rw [hw₀, Except.toOption, Option.map_some, Option.some.injEq] at hrun
    cases hw : w₀.run ops with
    | error e =>
      rw [hw] at hrun
      cases hrun
    | ok w =>
      rw [hw, Except.toOption, Option.map_some, Option.some.injEq] at hrun
      have hlegal : Along PageUsers.Legal PageUsers.step w₀ ops := by
        refine along_of_forall fun op hop _ => ?_
        rw [← hops] at hop
        rw [List.eq_of_mem_replicate hop]
        trivial
      rcases (h halfMap _ w₀ w ops hw₀ hlegal hw).inside _ (List.mem_of_mem_head? hrun) with
        ⟨i, hi, heq⟩ | ⟨e, he, p, ⟨-, hlo, hhi, -⟩, heq⟩
      · simp [halfMap, wadd, pageSize_eq] at hi heq
        omega
      · simp [halfMap] at he
        subst he
        simp [wadd, KERN_VMBASE, pageSize_eq] at hlo hhi heq
        omega

end SadOS.GetPage
