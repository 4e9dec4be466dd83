import SadOS.Mm.State
import Mathlib.Data.List.Count
import Mathlib.Data.List.Nodup
import Mathlib.Data.List.Perm.Basic
import Mathlib.Tactic.Linarith

/-!
# The accounting of references to pages

A page is referred to by page entries, which stand on its `owner` list, and by
others that hold a reference for themselves: nodes of page lists, and callers of
`manage_phys_page`.  `Linked` says that the two counters of every page are the
numbers of these references.  It is stated over the components of the state that
it looks at, and it is parametrized by

* `hole`, the entries in transit, which are on no `owner` list for now;
* `held`, the references that no entry stands for, each with its kind;
* `stale`, whether a page may be one snapshot short, as the sole owner that
  `unshare_page` leaves flagged as a snapshot makes it.

Each lemma is one elementary move of the operations on pages.

## Main definitions

* `Kind`, `Counted`, `Linked` — the invariant.
* `Linked.detach`, `Linked.attach` — an entry leaves and joins an `owner` list.
* `Linked.ref`, `Linked.refSnap`, `Linked.unref`, `Linked.free` — `ref_count`.
* `Linked.drop`, `Linked.sole`, `Linked.soleStale` — `snap_count`.
-/

namespace SadOS.Mm

/-- What a reference contributes to: to `ref_count` alone, to `snap_count` too, or
to `ref_count` alone once it gave its snapshot up. -/
inductive Kind where
  | shared
  | snap
  | spent
  deriving DecidableEq, Repr

/-- The kind of the reference that a page entry is. -/
def PageEntry.kind (pe : PageEntry) : Kind :=
  if hasFlag pe.flags PF_SNAPSHOT then .snap else .shared

/-- Whether an owner is a snapshot. -/
def isSnap (ent : ℕ → ℕ → Option PageEntry) (o : ℕ × ℕ) : Bool :=
  (ent o.1 o.2).any fun pe => hasFlag pe.flags PF_SNAPSHOT

/-- The held references to a page. -/
def refsOn (held : List (ℕ × Kind)) (p : ℕ) : ℕ := held.countP fun i => i.1 == p

/-- The snapshots of a page. -/
def snapsOn (held : List (ℕ × Kind)) (ent : ℕ → ℕ → Option PageEntry) (p : ℕ)
    (owner : List (ℕ × ℕ)) : ℕ :=
  owner.countP (isSnap ent) + held.count (p, .snap)

/-- The counters of a page agree with the references to it. -/
structure Counted (stale : Prop) (held : List (ℕ × Kind)) (ent : ℕ → ℕ → Option PageEntry)
    (p : ℕ) (pg : Page) : Prop where
  pos : 0 < pg.refCount
  refs : pg.refCount = pg.owner.length + refsOn held p
  snaps : pg.snapCount = snapsOn held ent p pg.owner ∨
    stale ∧ pg.snapCount = wdec (snapsOn held ent p pg.owner) ∧
      snapsOn held ent p pg.owner + held.count (p, .spent) = pg.refCount
  nodup : pg.owner.Nodup

/-- An entry shares its page or is a snapshot of it, unless it is one of hardware. -/
structure ValidFlags (flags : ℕ) : Prop where
  not_both : ¬(hasFlag flags PF_SHARED = true ∧ hasFlag flags PF_SNAPSHOT = true)
  one : hasFlag flags PF_SHARED = true ∨ hasFlag flags PF_SNAPSHOT = true ∨
    hasFlag flags PF_HARDWARE = true

theorem ValidFlags.kind_of_shared {e : PageEntry} (h : ValidFlags e.flags)
    (hs : hasFlag e.flags PF_SHARED = true) : e.kind = .shared := by
  have := h.not_both
  simp only [hs, true_and] at this
  rw [PageEntry.kind, if_neg this]

theorem validFlags_shared : ValidFlags PF_SHARED := ⟨by decide, by decide⟩

theorem validFlags_snapshot : ValidFlags PF_SNAPSHOT := ⟨by decide, by decide⟩

/-- The accounting of all references. -/
structure Linked (stale : Prop) (hole : List (ℕ × ℕ)) (held : List (ℕ × Kind))
    (phys : ℕ → Option Page) (ent : ℕ → ℕ → Option PageEntry) (avail : List ℕ) : Prop where
  counted : ∀ p pg, phys p = some pg → Counted stale held ent p pg
  owner_entry : ∀ p pg o, phys p = some pg → o ∈ pg.owner →
    o ∉ hole ∧ ∃ pe, ent o.1 o.2 = some pe ∧ pe.p = p
  entry_owner : ∀ a v pe, ent a v = some pe → (a, v) ∉ hole →
    ∃ pg, phys pe.p = some pg ∧ (a, v) ∈ pg.owner
  held_live : ∀ i ∈ held, ∃ pg, phys i.1 = some pg
  flags : ∀ a v pe, ent a v = some pe → ValidFlags pe.flags
  free_nodup : avail.Nodup
  free_dead : ∀ p ∈ avail, phys p = none

theorem isSnap_updEnt_of_ne {ent : ℕ → ℕ → Option PageEntry} {a v : ℕ} {x : Option PageEntry}
    {o : ℕ × ℕ} (h : o ≠ (a, v)) : isSnap (updEnt ent a v x) o = isSnap ent o := by
  rw [isSnap, updEnt_of_ne h, isSnap]

/-! ## Counting -/

section Counting

variable {held held' : List (ℕ × Kind)} {ent : ℕ → ℕ → Option PageEntry} {p q : ℕ} {pg : Page}

@[simp] theorem refsOn_cons (i : ℕ × Kind) :
    refsOn (i :: held) q = refsOn held q + if i.1 = q then 1 else 0 := by
  simp [refsOn, List.countP_cons]

/-- The held references of two lists differ only in those to `p`. -/
def AgreeOff (p : ℕ) (held held' : List (ℕ × Kind)) : Prop :=
  held.filter (fun i => i.1 != p) = held'.filter fun i => i.1 != p

theorem AgreeOff.refsOn (h : AgreeOff p held held') (hq : q ≠ p) :
    refsOn held q = refsOn held' q := by
  have key : ∀ l : List (ℕ × Kind), Mm.refsOn l q = Mm.refsOn (l.filter fun i => i.1 != p) q := by
    intro l
    simp only [Mm.refsOn, List.countP_filter]
    apply List.countP_congr
    intro i _
    simp only [beq_iff_eq, Bool.and_eq_true, bne_iff_ne, ne_eq]
    constructor
    · intro hi
      exact ⟨hi, by rw [hi]; exact hq⟩
    · exact And.left
  rw [key held, key held', h]

theorem AgreeOff.count (h : AgreeOff p held held') (hq : q ≠ p) (k : Kind) :
    held.count (q, k) = held'.count (q, k) := by
  have key : ∀ l : List (ℕ × Kind), (l.filter fun i => i.1 != p).count (q, k) = l.count (q, k) :=
    fun l => List.count_filter (by simpa using hq)
  rw [← key held, ← key held', h]

theorem Counted.agreeOff {stale : Prop} (h : Counted stale held ent q pg)
    (ha : AgreeOff p held held') (hq : q ≠ p) : Counted stale held' ent q pg := by
  have hs : snapsOn held' ent q pg.owner = snapsOn held ent q pg.owner := by
    simp only [snapsOn, ha.count hq]
  refine ⟨h.pos, ?_, ?_, h.nodup⟩
  · rw [← ha.refsOn hq]
    exact h.refs
  · rw [hs, ← ha.count hq]
    exact h.snaps

/-- Snapshots are references. -/
theorem snap_add_spent_le (held : List (ℕ × Kind)) (p : ℕ) :
    held.count (p, .shared) + held.count (p, .snap) + held.count (p, .spent) ≤ refsOn held p := by
  induction held with
  | nil => simp
  | cons i rest ih =>
    obtain ⟨q, k⟩ := i
    by_cases hq : q = p
    · subst hq
      cases k <;> simp <;> omega
    · simpa [hq] using ih

/-- Which entries are snapshots is all that counting asks of them. -/
theorem snapsOn_congr {ent' : ℕ → ℕ → Option PageEntry}
    (h : ∀ o ∈ pg.owner, isSnap ent o = isSnap ent' o) :
    snapsOn held ent p pg.owner = snapsOn held ent' p pg.owner := by
  simp only [snapsOn]
  congr 1
  exact List.countP_congr fun o ho => by rw [h o ho]

theorem Counted.congr {stale : Prop} {ent' : ℕ → ℕ → Option PageEntry}
    (h : Counted stale held ent p pg) (he : ∀ o ∈ pg.owner, isSnap ent o = isSnap ent' o) :
    Counted stale held ent' p pg := by
  refine ⟨h.pos, h.refs, ?_, h.nodup⟩
  rw [← snapsOn_congr he]
  exact h.snaps

end Counting

/-! ## The moves -/

namespace Linked

variable {stale : Prop} {hole : List (ℕ × ℕ)} {held held' : List (ℕ × Kind)}
  {phys : ℕ → Option Page} {ent : ℕ → ℕ → Option PageEntry} {avail : List ℕ} {p : ℕ} {pg : Page}

/-- Only the record of the page `p` and the references to it change. -/
theorem update (h : Linked stale hole held phys ent avail) (hp : phys p = some pg)
    {hole' : List (ℕ × ℕ)} {ent' : ℕ → ℕ → Option PageEntry} {pg' : Page}
    (hagree : AgreeOff p held held') (hc : Counted stale held' ent' p pg')
    (hother : ∀ q qg o, phys q = some qg → o ∈ qg.owner → q ≠ p →
      o ∉ hole' ∧ ent' o.1 o.2 = ent o.1 o.2)
    (howner : ∀ o ∈ pg'.owner, o ∉ hole' ∧ ∃ pe, ent' o.1 o.2 = some pe ∧ pe.p = p)
    (hentry : ∀ a v pe, ent' a v = some pe → (a, v) ∉ hole' →
      pe.p = p ∧ (a, v) ∈ pg'.owner ∨
        pe.p ≠ p ∧ ∃ qg, phys pe.p = some qg ∧ (a, v) ∈ qg.owner)
    (hflags : ∀ a v pe, ent' a v = some pe → ValidFlags pe.flags) :
    Linked stale hole' held' (Function.update phys p (some pg')) ent' avail := by
  constructor
  · intro q qg hq
    by_cases hqp : q = p
    · subst hqp
      rw [Function.update_self, Option.some.injEq] at hq
      exact hq ▸ hc
    · rw [Function.update_of_ne hqp] at hq
      refine ((h.counted q qg hq).agreeOff hagree hqp).congr fun o ho => ?_
      rw [isSnap, isSnap, (hother q qg o hq ho hqp).2]
  · intro q qg o hq ho
    by_cases hqp : q = p
    · subst hqp
      rw [Function.update_self, Option.some.injEq] at hq
      subst hq
      exact howner o ho
    · rw [Function.update_of_ne hqp] at hq
      obtain ⟨hhole, he⟩ := hother q qg o hq ho hqp
      rw [he]
      exact ⟨hhole, (h.owner_entry q qg o hq ho).2⟩
  · intro a v pe hpe hav
    rcases hentry a v pe hpe hav with ⟨hpp, hmem⟩ | ⟨hpp, qg, hq, hmem⟩
    · exact ⟨pg', by rw [hpp, Function.update_self], hmem⟩
    · exact ⟨qg, by rw [Function.update_of_ne hpp, hq], hmem⟩
  · intro i hi
    by_cases hip : i.1 = p
    · exact ⟨pg', by rw [hip, Function.update_self]⟩
    · have hi' : i ∈ held.filter fun i => i.1 != p := by
        rw [hagree]
        simpa [hip] using hi
      obtain ⟨qg, hq⟩ := h.held_live i (List.mem_of_mem_filter hi')
      exact ⟨qg, by rw [Function.update_of_ne hip, hq]⟩
  · exact hflags
  · exact h.free_nodup
  · intro q hq
    have hqp : q ≠ p := by
      rintro rfl
      rw [h.free_dead q hq] at hp
      cases hp
    rw [Function.update_of_ne hqp]
    exact h.free_dead q hq

/-- An entry outside `hole` is on the list of its page. -/
theorem mem_owner (h : Linked stale hole held phys ent avail) {a v : ℕ} {pe : PageEntry}
    (hpe : ent a v = some pe) (hav : (a, v) ∉ hole) (hp : phys pe.p = some pg) :
    (a, v) ∈ pg.owner := by
  obtain ⟨pg', hp', hmem⟩ := h.entry_owner a v pe hpe hav
  rw [hp, Option.some.injEq] at hp'
  rwa [hp']

/-- The owners of another page are other entries. -/
theorem owner_ne (h : Linked stale hole held phys ent avail) {a v q : ℕ} {pe : PageEntry} {qg : Page}
    (hpe : ent a v = some pe) (hq : phys q = some qg) (hqp : q ≠ pe.p) {o : ℕ × ℕ}
    (ho : o ∈ qg.owner) : o ≠ (a, v) := by
  rintro rfl
  obtain ⟨-, qe, hqe, hpq⟩ := h.owner_entry q qg _ hq ho
  rw [hpe, Option.some.injEq] at hqe
  exact hqp (by rw [← hpq, hqe])

/-- A page whose owners stay gets new counters. -/
theorem setCounts (h : Linked stale hole held phys ent avail) (hp : phys p = some pg) {pg' : Page}
    (howner : pg'.owner = pg.owner) (hagree : AgreeOff p held held')
    (hc : Counted stale held' ent p pg') :
    Linked stale hole held' (Function.update phys p (some pg')) ent avail := by
  refine h.update hp hagree hc ?_ ?_ ?_ h.flags
  · exact fun q qg o hq ho _ => ⟨(h.owner_entry q qg o hq ho).1, rfl⟩
  · exact fun o ho => h.owner_entry p pg o hp (howner ▸ ho)
  · intro a v pe hpe hav
    obtain ⟨qg, hq, hmem⟩ := h.entry_owner a v pe hpe hav
    by_cases hpp : pe.p = p
    · rw [hpp, hp, Option.some.injEq] at hq
      subst hq
      exact .inl ⟨hpp, howner ▸ hmem⟩
    · exact .inr ⟨hpp, qg, hq, hmem⟩

/-- The order of the held references does not matter. -/
theorem perm (h : Linked stale hole held phys ent avail) (hp : held.Perm held') :
    Linked stale hole held' phys ent avail := by
  refine ⟨?_, h.owner_entry, h.entry_owner, fun i hi => h.held_live i (hp.mem_iff.2 hi), h.flags,
    h.free_nodup, h.free_dead⟩
  intro q qg hq
  have hc := h.counted q qg hq
  have hs : snapsOn held' ent q qg.owner = snapsOn held ent q qg.owner := by
    simp only [snapsOn, hp.count_eq]
  refine ⟨hc.pos, ?_, ?_, hc.nodup⟩
  · rw [refsOn, ← hp.countP_eq]
    exact hc.refs
  · rw [hs, ← hp.count_eq]
    exact hc.snaps

/-! ### References -/

/-- The first reference to a page that nobody manages. -/
theorem manage (h : Linked stale hole held phys ent avail) (hp : phys p = none) (hf : p ∉ avail) :
    Linked stale hole ((p, .shared) :: held) (Function.update phys p (some ⟨1, 0, []⟩)) ent avail := by
  have hheld : ∀ i ∈ held, i.1 ≠ p := by
    intro i hi hip
    obtain ⟨qg, hq⟩ := h.held_live i hi
    rw [hip, hp] at hq
    cases hq
  have hnone : refsOn held p = 0 := by
    rw [refsOn, List.countP_eq_zero]
    simpa using hheld
  have hsnap := snap_add_spent_le held p
  constructor
  · intro q qg hq
    by_cases hqp : q = p
    · subst hqp
      rw [Function.update_self, Option.some.injEq] at hq
      subst hq
      refine ⟨by simp, by simp [hnone], .inl ?_, List.nodup_nil⟩
      simp [snapsOn]
      omega
    · rw [Function.update_of_ne hqp] at hq
      refine (h.counted q qg hq).agreeOff (p := p) ?_ hqp
      simp [AgreeOff]
  · intro q qg o hq ho
    by_cases hqp : q = p
    · subst hqp
      rw [Function.update_self, Option.some.injEq] at hq
      subst hq
      cases ho
    · rw [Function.update_of_ne hqp] at hq
      exact h.owner_entry q qg o hq ho
  · intro a v pe hpe hav
    obtain ⟨qg, hq, hmem⟩ := h.entry_owner a v pe hpe hav
    have hqp : pe.p ≠ p := by
      intro hqp
      rw [hqp, hp] at hq
      cases hq
    exact ⟨qg, by rw [Function.update_of_ne hqp, hq], hmem⟩
  · intro i hi
    rcases List.mem_cons.1 hi with rfl | hi
    · exact ⟨_, Function.update_self ..⟩
    · obtain ⟨qg, hq⟩ := h.held_live i hi
      exact ⟨qg, by rw [Function.update_of_ne (hheld i hi), hq]⟩
  · exact h.flags
  · exact h.free_nodup
  · intro q hq
    have hqp : q ≠ p := by
      rintro rfl
      exact hf hq
    rw [Function.update_of_ne hqp]
    exact h.free_dead q hq

/-- A page with an ordinary reference is not stale. -/
theorem exact_of_shared (h : Linked stale hole held phys ent avail) (hp : phys p = some pg)
    (hmem : (p, Kind.shared) ∈ held) : pg.snapCount = snapsOn held ent p pg.owner := by
  have hc := h.counted p pg hp
  have hrefs := hc.refs
  have hle := snap_add_spent_le held p
  have hcount := List.count_pos_iff.2 hmem
  have hown : pg.owner.countP (isSnap ent) ≤ pg.owner.length := List.countP_le_length
  rcases hc.snaps with hs | ⟨-, -, hall⟩
  · exact hs
  · simp only [snapsOn] at hall
    omega

/-- One more reference, which is no snapshot. -/
theorem ref (h : Linked stale hole held phys ent avail) (hp : phys p = some pg)
    (hmem : (p, Kind.shared) ∈ held) :
    Linked stale hole ((p, .shared) :: held)
      (Function.update phys p (some { pg with refCount := pg.refCount + 1 })) ent avail := by
  have hexact := h.exact_of_shared hp hmem
  have hc := h.counted p pg hp
  refine h.setCounts hp rfl (by simp [AgreeOff]) ⟨by simp, ?_, .inl ?_, hc.nodup⟩
  · have := hc.refs
    simp only [refsOn_cons, if_true]
    omega
  · simpa [snapsOn, List.count_cons] using hexact

/-- One more reference, which is a snapshot. -/
theorem refSnap (h : Linked stale hole held phys ent avail) (hp : phys p = some pg)
    (hspent : held.count (p, .spent) = 0) :
    Linked stale hole ((p, .snap) :: held) (Function.update phys p
      (some { pg with refCount := pg.refCount + 1, snapCount := pg.snapCount + 1 })) ent avail := by
  have hc := h.counted p pg hp
  have hpos := hc.pos
  have hsnaps : snapsOn ((p, .snap) :: held) ent p pg.owner = snapsOn held ent p pg.owner + 1 := by
    simp [snapsOn]
    omega
  refine h.setCounts hp rfl (by simp [AgreeOff]) ⟨by simp, ?_, ?_, hc.nodup⟩
  · have := hc.refs
    simp only [refsOn_cons, if_true]
    omega
  · rw [hsnaps]
    rcases hc.snaps with hs | ⟨hst, hs, hall⟩
    · left
      simp [hs]
    · right
      refine ⟨hst, ?_, ?_⟩
      · simp only [wdec] at hs ⊢
        split at hs <;> simp <;> omega
      · simp only [List.count_cons]
        simp
        omega

/-- A held reference that is no snapshot is given back, and others are left. -/
theorem unref {k : Kind} (h : Linked stale hole ((p, k) :: held) phys ent avail)
    (hp : phys p = some pg) (hk : k ≠ .snap) (h1 : pg.refCount ≠ 1) :
    Linked stale hole held
      (Function.update phys p (some { pg with refCount := pg.refCount - 1 })) ent avail := by
  have hc := h.counted p pg hp
  have hpos := hc.pos
  have hrefs := hc.refs
  have hle := snap_add_spent_le held p
  have hown : pg.owner.countP (isSnap ent) ≤ pg.owner.length := List.countP_le_length
  have hsnaps : snapsOn held ent p pg.owner = snapsOn ((p, k) :: held) ent p pg.owner := by
    simp [snapsOn, hk]
  simp only [refsOn_cons, if_true] at hrefs
  refine h.setCounts hp rfl (by simp [AgreeOff]) ⟨?_, ?_, ?_, hc.nodup⟩
  · simp only
    omega
  · simp only
    omega
  · rw [hsnaps]
    rcases hc.snaps with hs | ⟨hst, hs, hall⟩
    · exact .inl hs
    · refine .inr ⟨hst, hs, ?_⟩
      rw [← hsnaps] at hall ⊢
      simp only [snapsOn, List.count_cons, beq_iff_eq, Prod.mk.injEq, true_and] at hall ⊢
      cases k with
      | snap => exact absurd rfl hk
      | shared =>
        -- a stale page has no reference of this kind
        simp at hall
        omega
      | spent =>
        simp at hall
        omega

/-- The last reference is given back. -/
theorem release {k : Kind} (h : Linked stale hole ((p, k) :: held) phys ent avail)
    (hp : phys p = some pg) (h1 : pg.refCount = 1) :
    Linked stale hole held (Function.update phys p none) ent avail ∧
      Linked stale hole held (Function.update phys p none) ent (p :: avail) := by
  have hc := h.counted p pg hp
  have hrefs := hc.refs
  simp only [refsOn_cons, if_true] at hrefs
  have howner : pg.owner = [] := List.length_eq_zero_iff.1 (by omega)
  have hheld : ∀ i ∈ held, i.1 ≠ p := by
    have h0 : refsOn held p = 0 := by omega
    rw [refsOn, List.countP_eq_zero] at h0
    simpa using h0
  have hdead : ∀ q, phys q = none → Function.update phys p none q = none := by
    intro q hq
    by_cases hqp : q = p
    · rw [hqp, Function.update_self]
    · rw [Function.update_of_ne hqp, hq]
  have hbase : Linked stale hole held (Function.update phys p none) ent avail := by
    constructor
    · intro q qg hq
      by_cases hqp : q = p
      · rw [hqp, Function.update_self] at hq
        cases hq
      · rw [Function.update_of_ne hqp] at hq
        exact (h.counted q qg hq).agreeOff (p := p) (by simp [AgreeOff]) hqp
    · intro q qg o hq ho
      by_cases hqp : q = p
      · rw [hqp, Function.update_self] at hq
        cases hq
      · rw [Function.update_of_ne hqp] at hq
        exact h.owner_entry q qg o hq ho
    · intro a v pe hpe hav
      obtain ⟨qg, hq, hmem⟩ := h.entry_owner a v pe hpe hav
      have hqp : pe.p ≠ p := by
        intro hqp
        rw [hqp, hp, Option.some.injEq] at hq
        rw [← hq, howner] at hmem
        cases hmem
      exact ⟨qg, by rw [Function.update_of_ne hqp, hq], hmem⟩
    · intro i hi
      obtain ⟨qg, hq⟩ := h.held_live i (List.mem_cons_of_mem _ hi)
      exact ⟨qg, by rw [Function.update_of_ne (hheld i hi), hq]⟩
    · exact h.flags
    · exact h.free_nodup
    · exact fun q hq => hdead q (h.free_dead q hq)
  refine ⟨hbase, { hbase with free_nodup := ?_, free_dead := ?_ }⟩
  · refine List.nodup_cons.2 ⟨fun hmem => ?_, h.free_nodup⟩
    rw [h.free_dead p hmem] at hp
    cases hp
  · intro q hq
    rcases List.mem_cons.1 hq with rfl | hq
    · exact Function.update_self ..
    · exact hbase.free_dead q hq

/-- The allocator gives a page out. -/
theorem pop (h : Linked stale hole held phys ent (p :: avail)) :
    Linked stale hole held phys ent avail ∧ phys p = none ∧ p ∉ avail := by
  obtain ⟨hnot, hnodup⟩ := List.nodup_cons.1 h.free_nodup
  exact ⟨{ h with
      free_nodup := hnodup
      free_dead := fun q hq => h.free_dead q (List.mem_cons_of_mem _ hq) },
    h.free_dead p List.mem_cons_self, hnot⟩

/-! ### Snapshots -/

/-- A held snapshot is given up, the reference is kept. -/
theorem drop (h : Linked stale hole ((p, .snap) :: held) phys ent avail) (hp : phys p = some pg) :
    Linked stale hole ((p, .spent) :: held)
      (Function.update phys p (some { pg with snapCount := wdec pg.snapCount })) ent avail := by
  have hc := h.counted p pg hp
  have hsnaps : snapsOn ((p, .snap) :: held) ent p pg.owner =
      snapsOn ((p, .spent) :: held) ent p pg.owner + 1 := by
    simp [snapsOn]
    omega
  refine h.setCounts hp rfl (by simp [AgreeOff]) ⟨hc.pos, ?_, ?_, hc.nodup⟩
  · simpa using hc.refs
  · rcases hc.snaps with hs | ⟨hst, hs, hall⟩
    · left
      rw [hs, hsnaps]
      simp [wdec]
    · right
      refine ⟨hst, ?_, ?_⟩
      · rw [hs, hsnaps]
        simp [wdec]
      · rw [hsnaps] at hall
        simp at hall ⊢
        omega

/-- A snapshot that the count does not show is the only reference. -/
theorem owner_eq_nil (h : Linked stale hole ((p, .snap) :: held) phys ent avail)
    (hp : phys p = some pg) (h0 : pg.snapCount = 0) : pg.owner = [] := by
  have hc := h.counted p pg hp
  have hrefs := hc.refs
  have hle := snap_add_spent_le held p
  have hsnaps := hc.snaps
  simp only [refsOn_cons, if_true] at hrefs
  simp only [snapsOn, List.count_cons_self, List.count_cons, h0] at hsnaps
  apply List.length_eq_zero_iff.1
  rcases hsnaps with hs | ⟨-, hs, hall⟩
  · omega
  · simp only [wdec] at hs
    simp at hall
    split at hs <;> omega

/-- The only snapshot of a page becomes its only, ordinary owner. -/
theorem sole (h : Linked stale hole held phys ent avail) {a v : ℕ} {pe : PageEntry}
    (hpe : ent a v = some pe) (hav : (a, v) ∉ hole) (hp : phys pe.p = some pg)
    (href : pg.refCount = 1) :
    Linked stale hole held (Function.update phys pe.p (some { pg with snapCount := 0 }))
      (updEnt ent a v (some { pe with flags := PF_SHARED })) avail := by
  have hc := h.counted _ pg hp
  have hmem := h.mem_owner hpe hav hp
  have hrefs := hc.refs
  have hle := snap_add_spent_le held pe.p
  have hlen := List.length_pos_of_mem hmem
  have howner : pg.owner = [(a, v)] := by
    obtain ⟨o, ho⟩ := List.length_eq_one_iff.1 (by omega : pg.owner.length = 1)
    rw [ho, List.mem_singleton] at hmem
    rw [ho, hmem]
  have hn : snapsOn held (updEnt ent a v (some { pe with flags := PF_SHARED })) pe.p pg.owner = 0 := by
    have h0 : held.count (pe.p, .snap) = 0 := by omega
    have hshared : isSnap (updEnt ent a v (some { pe with flags := PF_SHARED })) (a, v) = false := by
      simp [isSnap, hasFlag, PF_SHARED, PF_SNAPSHOT]
    simp [snapsOn, howner, hshared, h0]
  refine h.update hp rfl ⟨hc.pos, hc.refs, .inl hn.symm, hc.nodup⟩ ?_ ?_ ?_ ?_
  · intro q qg o hq ho hqp
    rw [updEnt_of_ne (h.owner_ne hpe hq hqp ho)]
    exact ⟨(h.owner_entry q qg o hq ho).1, rfl⟩
  · intro o ho
    obtain rfl : o = (a, v) := by simpa [howner] using ho
    exact ⟨hav, _, updEnt_self .., rfl⟩
  · intro a' v' pe' hpe' hav'
    rw [updEnt_apply] at hpe'
    split at hpe'
    · rename_i heq
      rw [heq]
      rw [Option.some.injEq] at hpe'
      exact .inl ⟨by rw [← hpe'], hmem⟩
    · obtain ⟨qg, hq, hmem'⟩ := h.entry_owner a' v' pe' hpe' hav'
      by_cases hpp : pe'.p = pe.p
      · rw [hpp, hp, Option.some.injEq] at hq
        subst hq
        exact .inl ⟨hpp, hmem'⟩
      · exact .inr ⟨hpp, qg, hq, hmem'⟩
  · intro a' v' pe' hpe'
    rw [updEnt_apply] at hpe'
    split at hpe'
    · rw [Option.some.injEq] at hpe'
      subst hpe'
      exact validFlags_shared
    · exact h.flags a' v' pe' hpe'

/-- The only snapshot of a page is forgotten in the count alone. -/
theorem soleStale (h : Linked stale hole held phys ent avail) (hst : stale) (hp : phys p = some pg)
    (hsnap : pg.snapCount = 1) (href : pg.refCount = 1) :
    Linked stale hole held (Function.update phys p (some { pg with snapCount := 0 })) ent avail := by
  have hc := h.counted p pg hp
  have hrefs := hc.refs
  have hle := snap_add_spent_le held p
  have hown : pg.owner.countP (isSnap ent) ≤ pg.owner.length := List.countP_le_length
  have hn : snapsOn held ent p pg.owner = 1 := by
    rcases hc.snaps with hs | ⟨-, hs, hall⟩
    · omega
    · simp only [wdec] at hs
      split at hs <;> omega
  refine h.setCounts hp rfl rfl ⟨hc.pos, hc.refs, .inr ⟨hst, ?_, ?_⟩, hc.nodup⟩
  · simp [hn, wdec]
  · simp only [snapsOn] at hn ⊢
    omega

/-! ### Entries in transit -/

/-- An entry leaves the `owner` list of its page, and its reference is held. -/
theorem detach (h : Linked stale hole held phys ent avail) {a v : ℕ} {pe : PageEntry}
    (hpe : ent a v = some pe) (hav : (a, v) ∉ hole) (hp : phys pe.p = some pg) :
    Linked stale ((a, v) :: hole) ((pe.p, pe.kind) :: held)
      (Function.update phys pe.p (some { pg with owner := pg.owner.erase (a, v) })) ent avail := by
  have hc := h.counted _ pg hp
  have hmem := h.mem_owner hpe hav hp
  have hlen := List.length_erase_of_mem hmem
  have hpos := List.length_pos_of_mem hmem
  have hn : snapsOn ((pe.p, pe.kind) :: held) ent pe.p (pg.owner.erase (a, v)) =
      snapsOn held ent pe.p pg.owner := by
    have herase : pg.owner.countP (isSnap ent) = (pg.owner.erase (a, v)).countP (isSnap ent) +
        if isSnap ent (a, v) then 1 else 0 := by
      rw [(List.perm_cons_erase hmem).countP_eq, List.countP_cons]
    have hsnap : isSnap ent (a, v) = hasFlag pe.flags PF_SNAPSHOT := by simp [isSnap, hpe]
    simp only [snapsOn, herase, hsnap, List.count_cons, PageEntry.kind]
    cases hasFlag pe.flags PF_SNAPSHOT <;> simp
    omega
  have hspent : ((pe.p, pe.kind) :: held).count (pe.p, .spent) = held.count (pe.p, .spent) := by
    simp only [PageEntry.kind]
    cases hasFlag pe.flags PF_SNAPSHOT <;> simp
  have hagree : AgreeOff pe.p held ((pe.p, pe.kind) :: held) := by simp [AgreeOff]
  refine h.update hp hagree ⟨hc.pos, ?_, ?_, hc.nodup.erase _⟩ ?_ ?_ ?_ h.flags
  · have := hc.refs
    simp only [refsOn_cons, if_true]
    omega
  · simp only [hn, hspent]
    exact hc.snaps
  · intro q qg o hq ho hqp
    have hne := h.owner_ne hpe hq hqp ho
    exact ⟨by simp [hne, (h.owner_entry q qg o hq ho).1], rfl⟩
  · intro o ho
    obtain ⟨hhole, he⟩ := h.owner_entry _ pg o hp (List.mem_of_mem_erase ho)
    have hne : o ≠ (a, v) := by
      rintro rfl
      exact hc.nodup.not_mem_erase ho
    exact ⟨by simp [hne, hhole], he⟩
  · intro a' v' pe' hpe' hav'
    rw [List.mem_cons, not_or] at hav'
    obtain ⟨qg, hq, hmem'⟩ := h.entry_owner a' v' pe' hpe' hav'.2
    by_cases hpp : pe'.p = pe.p
    · rw [hpp, hp, Option.some.injEq] at hq
      subst hq
      exact .inl ⟨hpp, (List.mem_erase_of_ne hav'.1).2 hmem'⟩
    · exact .inr ⟨hpp, qg, hq, hmem'⟩

/-- An entry that is on no list joins the `owner` list of its page. -/
theorem attach {a v : ℕ} {e : PageEntry}
    (h : Linked stale ((a, v) :: hole) ((e.p, e.kind) :: held) phys ent avail)
    (hpe : ent a v = some e) (hav : (a, v) ∉ hole) (hp : phys e.p = some pg) :
    Linked stale hole held
      (Function.update phys e.p (some { pg with owner := (a, v) :: pg.owner })) ent avail := by
  have hc := h.counted _ pg hp
  have hn : snapsOn held ent e.p ((a, v) :: pg.owner) =
      snapsOn ((e.p, e.kind) :: held) ent e.p pg.owner := by
    have hsnap : isSnap ent (a, v) = hasFlag e.flags PF_SNAPSHOT := by simp [isSnap, hpe]
    simp only [snapsOn, List.countP_cons, hsnap, List.count_cons, PageEntry.kind]
    cases hasFlag e.flags PF_SNAPSHOT <;> simp
    omega
  have hspent : ((e.p, e.kind) :: held).count (e.p, .spent) = held.count (e.p, .spent) := by
    simp only [PageEntry.kind]
    cases hasFlag e.flags PF_SNAPSHOT <;> simp
  have hagree : AgreeOff e.p ((e.p, e.kind) :: held) held := by simp [AgreeOff]
  refine h.update hp hagree ⟨hc.pos, ?_, ?_, List.nodup_cons.2 ⟨fun hmem => ?_, hc.nodup⟩⟩
    ?_ ?_ ?_ h.flags
  · have := hc.refs
    simp only [refsOn_cons, if_true] at this
    simp only [List.length_cons]
    omega
  · rw [hn, ← hspent]
    exact hc.snaps
  · exact (h.owner_entry _ pg _ hp hmem).1 List.mem_cons_self
  · intro q qg o hq ho _
    exact ⟨fun hmem => (h.owner_entry q qg o hq ho).1 (List.mem_cons_of_mem _ hmem), rfl⟩
  · intro o ho
    rcases List.mem_cons.1 ho with rfl | ho
    · exact ⟨hav, e, hpe, rfl⟩
    · obtain ⟨hhole, he⟩ := h.owner_entry _ pg o hp ho
      exact ⟨fun hmem => hhole (List.mem_cons_of_mem _ hmem), he⟩
  · intro a' v' e' hpe' hav'
    by_cases heq : (a', v') = (a, v)
    · have hpe₂ : e = e' := by
        rw [Prod.mk.injEq] at heq
        rwa [heq.1, heq.2, hpe, Option.some.injEq] at hpe'
      rw [heq]
      exact .inl ⟨by rw [hpe₂], List.mem_cons_self⟩
    · obtain ⟨qg, hq, hmem'⟩ := h.entry_owner a' v' e' hpe' (by simp [heq, hav'])
      by_cases hpp : e'.p = e.p
      · rw [hpp, hp, Option.some.injEq] at hq
        subst hq
        exact .inl ⟨hpp, List.mem_cons_of_mem _ hmem'⟩
      · exact .inr ⟨hpp, qg, hq, hmem'⟩

/-- An entry in transit may change. -/
theorem setEntry {a v : ℕ} {x : Option PageEntry}
    (h : Linked stale hole held phys ent avail) (hav : (a, v) ∈ hole)
    (hx : ∀ pe, x = some pe → ValidFlags pe.flags) :
    Linked stale hole held phys (updEnt ent a v x) avail := by
  have hne : ∀ p pg o, phys p = some pg → o ∈ pg.owner → o ≠ (a, v) := by
    rintro p pg o hp ho rfl
    exact (h.owner_entry p pg _ hp ho).1 hav
  refine ⟨?_, ?_, ?_, h.held_live, ?_, h.free_nodup, h.free_dead⟩
  · intro p pg hp
    refine (h.counted p pg hp).congr fun o ho => ?_
    rw [isSnap_updEnt_of_ne (hne p pg o hp ho)]
  · intro p pg o hp ho
    rw [updEnt_of_ne (hne p pg o hp ho)]
    exact h.owner_entry p pg o hp ho
  · intro a' v' pe hpe hav'
    have hne' : (a', v') ≠ (a, v) := by
      intro heq
      rw [heq] at hav'
      exact hav' hav
    rw [updEnt_apply, if_neg hne'] at hpe
    exact h.entry_owner a' v' pe hpe hav'
  · intro a' v' pe hpe
    rw [updEnt_apply] at hpe
    split at hpe
    · exact hx pe hpe
    · exact h.flags a' v' pe hpe

/-- An entry that does not exist may count as in transit. -/
theorem openHole {a v : ℕ} (h : Linked stale hole held phys ent avail) (hnone : ent a v = none) :
    Linked stale ((a, v) :: hole) held phys ent avail := by
  refine ⟨h.counted, ?_, ?_, h.held_live, h.flags, h.free_nodup, h.free_dead⟩
  · intro p pg o hp ho
    obtain ⟨hhole, pe, hpe, hpp⟩ := h.owner_entry p pg o hp ho
    refine ⟨?_, pe, hpe, hpp⟩
    rw [List.mem_cons, not_or]
    refine ⟨?_, hhole⟩
    rintro rfl
    rw [hnone] at hpe
    cases hpe
  · intro a' v' pe hpe hav'
    exact h.entry_owner a' v' pe hpe fun hmem => hav' (List.mem_cons_of_mem _ hmem)

theorem closeHole {a v : ℕ} (h : Linked stale ((a, v) :: hole) held phys ent avail)
    (hnone : ent a v = none) : Linked stale hole held phys ent avail := by
  refine ⟨h.counted, ?_, ?_, h.held_live, h.flags, h.free_nodup, h.free_dead⟩
  · intro p pg o hp ho
    obtain ⟨hhole, he⟩ := h.owner_entry p pg o hp ho
    exact ⟨fun hmem => hhole (List.mem_cons_of_mem _ hmem), he⟩
  · intro a' v' pe hpe hav'
    have hne : (a', v') ≠ (a, v) := by
      intro heq
      rw [Prod.mk.injEq] at heq
      rw [heq.1, heq.2, hnone] at hpe
      cases hpe
    exact h.entry_owner a' v' pe hpe (by simp [hne, hav'])

end Linked

end SadOS.Mm
