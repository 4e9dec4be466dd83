import SadOS.Mm.Linked

/-!
# Page tables and page entries

`Mapped` says that every present 4K entry stands for a page entry, and is writable
only if the page has no snapshots.  The entries in transit, in `hole`, are exempt,
and so are their slots.  Two page entries of one address space must not share a
slot, which canonical addresses do not.

## Main definitions

* `Mapped` — the invariant.
* `paint` — the write permission of all owners of a page at once.
* `Mapped.raise`, `Mapped.restore` — the first snapshot, and the last one gone.
* `Mapped.map`, `Mapped.unmap`, `Mapped.setEntry` — one entry.
-/

namespace SadOS.Mm

/-- An address of a page in the lower canonical half. -/
def Canonical (v : ℕ) : Prop := v % 4096 = 0 ∧ v < 2 ^ 47

theorem Canonical.slot_inj {v w : ℕ} (hv : Canonical v) (hw : Canonical w)
    (h : slot v = slot w) : v = w := by
  obtain ⟨hv0, hv⟩ := hv
  obtain ⟨hw0, hw⟩ := hw
  simp only [slot] at h
  omega

/-- The page tables agree with the page entries. -/
structure Mapped (hole : List (ℕ × ℕ)) (phys : ℕ → Option Page)
    (ent : ℕ → ℕ → Option PageEntry) (pte : ℕ → ℕ → Option Pte) : Prop where
  entry : ∀ a n e, pte a n = some e → (∀ v, (a, v) ∈ hole → slot v ≠ n) →
    ∃ v pe pg, ent a v = some pe ∧ slot v = n ∧ e.addr = pe.p ∧ phys pe.p = some pg ∧
      (e.writable = true → pg.snapCount = 0)
  canon : ∀ a v pe, ent a v = some pe → Canonical v

/-- Whether an address space and a slot are those of an owner in the list. -/
def atSlot (l : List (ℕ × ℕ)) (a n : ℕ) : Bool := l.any fun o => o.1 == a && slot o.2 == n

/-- The write permission of all owners in a list. -/
def paint (w : Bool) (l : List (ℕ × ℕ)) (pte : ℕ → ℕ → Option Pte) : ℕ → ℕ → Option Pte :=
  fun a n => (pte a n).map fun e => if atSlot l a n then { e with writable := w } else e

@[simp] theorem paint_nil (w : Bool) (pte : ℕ → ℕ → Option Pte) : paint w [] pte = pte := by
  funext a n
  simp [paint, atSlot]

theorem paint_cons (w : Bool) (o : ℕ × ℕ) (l : List (ℕ × ℕ)) (pte : ℕ → ℕ → Option Pte) :
    paint w l (paint w [o] pte) = paint w (o :: l) pte := by
  funext a n
  simp only [paint, Option.map_map]
  congr 1
  funext e
  have hcons : atSlot (o :: l) a n = (atSlot [o] a n || atSlot l a n) := by simp [atSlot]
  rw [Function.comp_apply, hcons]
  cases atSlot [o] a n <;> cases atSlot l a n <;> rfl

namespace Mapped

variable {hole : List (ℕ × ℕ)} {phys : ℕ → Option Page} {ent : ℕ → ℕ → Option PageEntry}
  {pte : ℕ → ℕ → Option Pte} {p : ℕ} {pg : Page}

/-- What a present entry outside `hole` says about the page entry in its slot. -/
theorem of_pte (h : Mapped hole phys ent pte) {a v : ℕ} {pe : PageEntry} {e : Pte}
    (hpe : ent a v = some pe) (hhole : ∀ w, (a, w) ∈ hole → slot w ≠ slot v)
    (he : pte a (slot v) = some e) :
    e.addr = pe.p ∧ ∃ pg, phys pe.p = some pg ∧ (e.writable = true → pg.snapCount = 0) := by
  obtain ⟨w, qe, pg, hqe, hslot, haddr, hpg, hw⟩ := h.entry a (slot v) e he hhole
  obtain rfl := (h.canon a w qe hqe).slot_inj (h.canon a v pe hpe) hslot
  rw [hpe, Option.some.injEq] at hqe
  subst hqe
  exact ⟨haddr, pg, hpg, hw⟩

/-- An address without an entry has an empty slot. -/
theorem pte_eq_none (h : Mapped hole phys ent pte) {a v : ℕ} (hv : Canonical v)
    (hhole : ∀ w, (a, w) ∈ hole → slot w ≠ slot v) (hnone : ent a v = none) :
    pte a (slot v) = none := by
  by_contra hsome
  obtain ⟨e, he⟩ := Option.ne_none_iff_exists'.1 hsome
  obtain ⟨w, qe, pg, hqe, hslot, -⟩ := h.entry a (slot v) e he hhole
  obtain rfl := (h.canon a w qe hqe).slot_inj hv hslot
  rw [hnone] at hqe
  cases hqe

/-! ### Page records -/

/-- A page record changes, and a page with entries but without snapshots gets none. -/
theorem setPage (h : Mapped hole phys ent pte) {q : Page}
    (hp : ∀ a v pe pg, ent a v = some pe → (a, v) ∉ hole → pe.p = p → phys p = some pg →
      pg.snapCount = 0 → q.snapCount = 0) :
    Mapped hole (Function.update phys p (some q)) ent pte := by
  refine ⟨?_, h.canon⟩
  intro a n e he hn
  obtain ⟨v, pe, pg, hpe, hslot, haddr, hpg, hw⟩ := h.entry a n e he hn
  by_cases hpp : pe.p = p
  · refine ⟨v, pe, q, hpe, hslot, haddr, by rw [hpp, Function.update_self], ?_⟩
    exact fun hwr => hp a v pe pg hpe (fun hmem => hn v hmem hslot) hpp (hpp ▸ hpg) (hw hwr)
  · exact ⟨v, pe, pg, hpe, hslot, haddr, by rw [Function.update_of_ne hpp, hpg], hw⟩

/-- A page that no entry refers to goes. -/
theorem delPage (h : Mapped hole phys ent pte)
    (hp : ∀ a v pe, ent a v = some pe → (a, v) ∉ hole → pe.p ≠ p) :
    Mapped hole (Function.update phys p none) ent pte := by
  refine ⟨?_, h.canon⟩
  intro a n e he hn
  obtain ⟨v, pe, pg, hpe, hslot, haddr, hpg, hw⟩ := h.entry a n e he hn
  have hpp : pe.p ≠ p := hp a v pe hpe fun hmem => hn v hmem hslot
  exact ⟨v, pe, pg, hpe, hslot, haddr, by rw [Function.update_of_ne hpp, hpg], hw⟩

/-! ### Write permissions -/

theorem atSlot_of_mem {l : List (ℕ × ℕ)} {a v : ℕ} (h : (a, v) ∈ l) : atSlot l a (slot v) = true := by
  simp only [atSlot, List.any_eq_true]
  exact ⟨(a, v), h, by simp⟩

/-- Write permission is taken from every owner of a page, which may have snapshots
then. -/
theorem raise (h : Mapped hole phys ent pte) {l : List (ℕ × ℕ)} {pg' : Page}
    (hl : ∀ a v pe, ent a v = some pe → (a, v) ∉ hole → pe.p = p → (a, v) ∈ l) :
    Mapped hole (Function.update phys p (some pg')) ent (paint false l pte) := by
  refine ⟨?_, h.canon⟩
  intro a n e he hn
  obtain ⟨e₀, he₀, rfl⟩ := Option.map_eq_some_iff.1 he
  obtain ⟨v, pe, pg, hpe, hslot, haddr, hpg, hw⟩ := h.entry a n e₀ he₀ hn
  by_cases hpp : pe.p = p
  · have hat : atSlot l a n = true := by
      rw [← hslot]
      exact atSlot_of_mem (hl a v pe hpe (fun hmem => hn v hmem hslot) hpp)
    refine ⟨v, pe, pg', hpe, hslot, ?_, by rw [hpp, Function.update_self], ?_⟩
    · simpa [hat] using haddr
    · simp [hat]
  · refine ⟨v, pe, pg, hpe, hslot, ?_, by rw [Function.update_of_ne hpp, hpg], ?_⟩
    · split <;> exact haddr
    · split
      · simp
      · exact hw

/-- Write permission is given back to owners of a page without snapshots. -/
theorem restore (h : Mapped hole phys ent pte) {l : List (ℕ × ℕ)} (hp : phys p = some pg)
    (h0 : pg.snapCount = 0) (hl : ∀ o ∈ l, ∃ pe, ent o.1 o.2 = some pe ∧ pe.p = p) :
    Mapped hole phys ent (paint true l pte) := by
  refine ⟨?_, h.canon⟩
  intro a n e he hn
  obtain ⟨e₀, he₀, rfl⟩ := Option.map_eq_some_iff.1 he
  by_cases hat : atSlot l a n = true
  · obtain ⟨o, ho, hon⟩ := List.any_eq_true.1 hat
    simp only [Bool.and_eq_true, beq_iff_eq] at hon
    obtain ⟨rfl, rfl⟩ := hon
    obtain ⟨pe, hpe, hpp⟩ := hl o ho
    obtain ⟨haddr, -, -, -⟩ := h.of_pte hpe hn he₀
    refine ⟨o.2, pe, pg, hpe, rfl, by simpa [hat] using haddr, by rw [hpp, hp], fun _ => h0⟩
  · simp only [hat]
    exact h.entry a n e₀ he₀ hn

/-! ### Single entries -/

/-- The entry at an address is mapped. -/
theorem map (h : Mapped hole phys ent pte) {a v : ℕ} {pe : PageEntry} (hpe : ent a v = some pe)
    (hp : phys pe.p = some pg) {w : Bool} (hw : w = true → pg.snapCount = 0) :
    Mapped hole phys ent
      (Function.update pte a (Function.update (pte a) (slot v) (some ⟨pe.p, w⟩))) := by
  refine ⟨?_, h.canon⟩
  intro a' n e he hn
  by_cases hat : a' = a ∧ n = slot v
  · obtain ⟨rfl, rfl⟩ := hat
    rw [Function.update_self, Function.update_self, Option.some.injEq] at he
    subst he
    exact ⟨v, pe, pg, hpe, rfl, rfl, hp, hw⟩
  · refine h.entry a' n e ?_ hn
    rw [← he]
    by_cases ha : a' = a
    · subst ha
      rw [Function.update_self, Function.update_of_ne fun hv => hat ⟨rfl, hv⟩]
    · rw [Function.update_of_ne ha]

theorem openHole (h : Mapped hole phys ent pte) (o : ℕ × ℕ) : Mapped (o :: hole) phys ent pte :=
  ⟨fun a n e he hn => h.entry a n e he fun v hv => hn v (List.mem_cons_of_mem _ hv), h.canon⟩

/-- The slot of an entry in transit is cleared. -/
theorem unmap {a v : ℕ} (h : Mapped ((a, v) :: hole) phys ent pte) :
    Mapped hole phys ent (Function.update pte a (Function.update (pte a) (slot v) none)) := by
  refine ⟨?_, h.canon⟩
  intro a' n e he hn
  by_cases ha : a' = a
  · subst ha
    rw [Function.update_self] at he
    by_cases hnv : n = slot v
    · rw [hnv, Function.update_self] at he
      cases he
    · rw [Function.update_of_ne hnv] at he
      refine h.entry a' n e he fun w hw => ?_
      rcases List.mem_cons.1 hw with heq | hw
      · rw [Prod.mk.injEq] at heq
        rw [heq.2]
        exact Ne.symm hnv
      · exact hn w hw
  · rw [Function.update_of_ne ha] at he
    refine h.entry a' n e he fun w hw => ?_
    rcases List.mem_cons.1 hw with heq | hw
    · rw [Prod.mk.injEq] at heq
      exact absurd heq.1 ha
    · exact hn w hw

theorem closeHole {a v : ℕ} (h : Mapped ((a, v) :: hole) phys ent pte)
    (hnone : pte a (slot v) = none) : Mapped hole phys ent pte := by
  have := h.unmap
  rwa [← hnone, Function.update_eq_self, Function.update_eq_self] at this

/-- An entry in transit may change. -/
theorem setEntry (h : Mapped hole phys ent pte) {a v : ℕ} (hav : (a, v) ∈ hole)
    (hv : Canonical v) (x : Option PageEntry) : Mapped hole phys (updEnt ent a v x) pte := by
  constructor
  · intro a' n e he hn
    obtain ⟨w, pe, pg, hpe, hslot, hrest⟩ := h.entry a' n e he hn
    have hne : (a', w) ≠ (a, v) := by
      intro heq
      rw [← heq] at hav
      exact hn w hav hslot
    exact ⟨w, pe, pg, by rw [updEnt_apply, if_neg hne, hpe], hslot, hrest⟩
  · intro a' w pe hpe
    rw [updEnt_apply] at hpe
    split at hpe
    · rename_i heq
      rw [Prod.mk.injEq] at heq
      rw [heq.2]
      exact hv
    · exact h.canon a' w pe hpe

/-- The flags of an entry do not matter. -/
theorem setFlags (h : Mapped hole phys ent pte) {a v : ℕ} {pe : PageEntry}
    (hpe : ent a v = some pe) (flags : ℕ) :
    Mapped hole phys (updEnt ent a v (some { pe with flags })) pte := by
  constructor
  · intro a' n e he hn
    obtain ⟨w, qe, pg, hqe, hslot, haddr, hpg, hw⟩ := h.entry a' n e he hn
    by_cases heq : (a', w) = (a, v)
    · rw [Prod.mk.injEq] at heq
      obtain ⟨rfl, rfl⟩ := heq
      rw [hpe, Option.some.injEq] at hqe
      subst hqe
      exact ⟨w, _, pg, updEnt_self .., hslot, haddr, hpg, hw⟩
    · exact ⟨w, qe, pg, by rw [updEnt_apply, if_neg heq, hqe], hslot, haddr, hpg, hw⟩
  · intro a' w qe hqe
    rw [updEnt_apply] at hqe
    split at hqe
    · rename_i heq
      rw [Prod.mk.injEq] at heq
      obtain ⟨rfl, rfl⟩ := heq
      exact h.canon a' w pe hpe
    · exact h.canon a' w qe hqe

end Mapped

end SadOS.Mm
