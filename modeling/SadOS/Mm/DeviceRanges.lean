import SadOS.Lib.Threaded
import SadOS.Mm.GetPage
import SadOS.Mm.MemPort

/-!
# Ranges of device memory

The list of physical ranges in use of `sys/mm/paging.c`, with its links.  It begins with
the entries of type 1 of the map of the firmware, in the order of the map, and the last
of them has no end: `next` keeps what the pool left there.  A range is free if the
search comes to an entry behind it without meeting one that overlaps it.

## Main definitions

* `memoryRangeInit`, `isRangeReserved`, `insertRange` — the source.
* `Safe` — what is granted is free, and every search ends.
* `Guarded x l` — the search for an address meets a range that has it.
* `Covered`, `Ends` — the map and the memory for which the list works.

## Main results

* `isRangeReserved_segment`, `insertLink_segment` — the loops do what those on lists do.
* `safe_iff` — every sequence of calls.
* `safe_fails` — a map that is not sorted.
-/

namespace SadOS.Frng

open Mm (MemoryRange)
open GetPage (Smap)

/-! ## The source -/

/-- The memory that `frng_pool` takes its objects from, by the addresses of objects. -/
structure Memory where
  base : ℕ → ℕ
  length : ℕ → ℕ
  next : ℕ → ℕ

/-- The objects that `obj_pool_alloc` gives out, one after the other.  None is given back. -/
structure FrngPool where
  slot : ℕ → ℕ
  injective : Function.Injective slot
  ne_zero : ∀ n, slot n ≠ 0

/-- `free_range`, and how many objects `frng_pool` has given out. -/
structure State where
  mem : Memory
  freeRange : ℕ
  used : ℕ

/-- A `struct memory_range **`. -/
inductive Link
  | freeRange
  | next (mr : ℕ)
  deriving DecidableEq

def State.load (s : State) : Link → ℕ
  | .freeRange => s.freeRange
  | .next mr => s.mem.next mr

def State.store (s : State) (lk : Link) (mr : ℕ) : State :=
  match lk with
  | .freeRange => { s with freeRange := mr }
  | .next p => { s with mem := { s.mem with next := Function.update s.mem.next p mr } }

/-- `base` and `length` of an object. -/
def State.setRange (s : State) (mr base length : ℕ) : State :=
  { s with mem := { s.mem with
      base := Function.update s.mem.base mr base
      length := Function.update s.mem.length mr length } }

/-- One entry in `memory_range_init`, with the link `ptr` that the next object goes to.  An
entry of another type takes an object, too. -/
def initEntry (pool : FrngPool) (x : State × Link) (e : Smap) : State × Link :=
  let mr := pool.slot x.1.used
  let s := { x.1 with used := x.1.used + 1 }
  if e.type ≠ 1 then (s, x.2)
  else ((s.setRange mr e.base.toNat e.length.toNat).store x.2 mr, .next mr)

/-- `memory_range_init`, with its `ptr` at the end. -/
def memoryRangeInit (pool : FrngPool) (mem : Memory) (smap : List Smap) : State × Link :=
  smap.foldl (initEntry pool) (⟨mem, 0, 0⟩, .freeRange)

/-- The loop of `is_range_reserved` from `now` on, or `none` if it takes longer. -/
def isRangeReserved (mem : Memory) (base len : ℕ) (fuel now : ℕ) : Option Bool :=
  if now = 0 then some true
  else match fuel with
    | 0 => none
    | fuel + 1 =>
      if mem.base now < wadd base len ∧ base < wadd (mem.base now) (mem.length now) then some false
      else if wadd base len ≤ mem.base now then some true
      else isRangeReserved mem base len fuel (mem.next now)

/-- The loop of `insert_range` from `nowp` on. -/
def insertLink (s : State) (base len : ℕ) (fuel : ℕ) (nowp : Link) : Option Link :=
  if s.load nowp = 0 then some nowp
  else match fuel with
    | 0 => none
    | fuel + 1 =>
      if wadd base len ≤ s.mem.base (s.load nowp) then some nowp
      else insertLink s base len fuel (.next (s.load nowp))

/-- `insert_range`. -/
def insertRange (pool : FrngPool) (fuel : ℕ) (s : State) (base len : ℕ) : Option (ℤ × State) := do
  let ok ← isRangeReserved s.mem base len fuel s.freeRange
  if !ok then return (-1, s)
  else
    let new := pool.slot s.used
    let s := State.setRange { s with used := s.used + 1 } new base len
    let nowp ← insertLink s base len fuel .freeRange
    let s := s.store (.next new) (s.load nowp)
    return (0, s.store nowp new)

/-! ## The property -/

/-- Some address is in both ranges. -/
def Overlaps (r r' : MemoryRange) : Prop :=
  ∃ x, (r.base ≤ x ∧ x < r.base + r.length) ∧ r'.base ≤ x ∧ x < r'.base + r'.length

/-- The ranges of type 1. -/
def ram (smap : List Smap) : List MemoryRange :=
  (smap.filter fun e => e.type = 1).map fun e => ⟨e.base.toNat, e.length.toNat⟩

/-- A call, with the ranges that were granted. -/
def call (pool : FrngPool) (fuel : ℕ) (x : State × List MemoryRange) (r : MemoryRange) :
    Option (State × List MemoryRange) := do
  let (ret, s) ← insertRange pool fuel x.1 r.base r.length
  return (s, if ret = 0 then r :: x.2 else x.2)

/-- After every sequence of calls, the next one ends, and succeeds only for a range that meets
none of type 1 and none that was granted. -/
def Safe (pool : FrngPool) (mem : Memory) (smap : List Smap) : Prop :=
  ∀ fuel (l : List MemoryRange) x, (∀ r ∈ l, r.base + r.length < 2 ^ 64) →
    l.foldlM (call pool fuel) ((memoryRangeInit pool mem smap).1, []) = some x →
      ∀ r : MemoryRange, r.base + r.length < 2 ^ 64 →
        (∃ fuel y, insertRange pool fuel x.1 r.base r.length = some y) ∧
          ∀ fuel s', insertRange pool fuel x.1 r.base r.length = some (0, s') →
            ∀ r' ∈ ram smap ++ x.2, ¬Overlaps r r'

/-- `base` and `length` of the object `mr`. -/
def State.range (s : State) (mr : ℕ) : MemoryRange := ⟨s.mem.base mr, s.mem.length mr⟩

/-! ## The loops -/

section

variable {s : State} {t h : ℕ} {nodes : List ℕ} {base len : ℕ}

/-- A range from which on no search goes. -/
def Stops (stop : ℕ) (l : List MemoryRange) : Prop := ∃ r ∈ l, stop ≤ r.base

theorem Stops.tail {stop : ℕ} {r : MemoryRange} {l : List MemoryRange} (h : Stops stop (r :: l))
    (hr : ¬stop ≤ r.base) : Stops stop l := by
  obtain ⟨r', hmem, hle⟩ := h
  rcases List.mem_cons.1 hmem with rfl | hmem
  · exact absurd hle hr
  · exact ⟨r', hmem, hle⟩

/-- The search for a free range, over the list that the links run through. -/
theorem isRangeReserved_segment (hl : Segment s.mem.next t h nodes)
    (hend : t = 0 ∨ Stops (wadd base len) (nodes.map s.range)) {fuel : ℕ}
    (hfuel : nodes.length ≤ fuel) :
    isRangeReserved s.mem base len fuel h =
      some (Mm.isRangeReserved base len (nodes.map s.range)) := by
  induction nodes generalizing h fuel with
  | nil =>
    obtain rfl : h = t := hl
    rcases hend with rfl | ⟨r, hr, -⟩
    · rw [isRangeReserved.eq_def, if_pos rfl]
      rfl
    · cases hr
  | cons x rest ih =>
    obtain ⟨rfl, hx, hrest⟩ := hl
    cases fuel with
    | zero => cases hfuel
    | succ fuel =>
      rw [isRangeReserved, if_neg hx, List.map_cons, Mm.isRangeReserved]
      have hr : s.range h = ⟨s.mem.base h, s.mem.length h⟩ := rfl
      rw [hr]
      by_cases hover : s.mem.base h < wadd base len ∧ base < wadd (s.mem.base h) (s.mem.length h)
      · simp only [if_pos hover]
      by_cases hstop : wadd base len ≤ s.mem.base h
      · simp only [if_neg hover, if_pos hstop]
      simp only [if_neg hover, if_neg hstop]
      exact ih hrest (hend.imp_right fun hs => hs.tail hstop) (Nat.le_of_succ_le_succ hfuel)

/-- The state once `insert_range` has stored the new object. -/
def State.link (s : State) (nowp : Link) (new : ℕ) : State :=
  (s.store (.next new) (s.load nowp)).store nowp new

@[simp] theorem link_range (s : State) (nowp : Link) (new : ℕ) :
    (s.link nowp new).range = s.range := by
  cases nowp <;> rfl

@[simp] theorem link_used (s : State) (nowp : Link) (new : ℕ) :
    (s.link nowp new).used = s.used := by
  cases nowp <;> rfl

theorem link_next {nowp : Link} {new x : ℕ} (hnew : x ≠ new) (hx : nowp ≠ .next x) :
    (s.link nowp new).mem.next x = s.mem.next x := by
  cases nowp with
  | freeRange => exact Function.update_of_ne hnew ..
  | next p =>
    have hp : x ≠ p := fun heq => hx (heq ▸ rfl)
    exact (Function.update_of_ne hp ..).trans (Function.update_of_ne hnew ..)

theorem link_load {nowp lk : Link} {new : ℕ} (hne : lk ≠ .next new) (hlk : nowp ≠ lk) :
    (s.link nowp new).load lk = s.load lk := by
  cases lk with
  | freeRange =>
    cases nowp with
    | freeRange => exact absurd rfl hlk
    | next p => rfl
  | next x => exact link_next (fun heq => hne (heq ▸ rfl)) hlk

theorem link_self {nowp : Link} {new : ℕ} (hne : nowp ≠ .next new) :
    (s.link nowp new).load nowp = new ∧ (s.link nowp new).mem.next new = s.load nowp := by
  cases nowp with
  | freeRange => exact ⟨rfl, Function.update_self ..⟩
  | next p =>
    have hp : new ≠ p := fun heq => hne (heq ▸ rfl)
    exact ⟨Function.update_self .., (Function.update_of_ne hp ..).trans (Function.update_self ..)⟩

/-- Where `insert_range` stores the new object. -/
theorem insertLink_segment (lk : Link) {new : ℕ} (hl : Segment s.mem.next t (s.load lk) nodes)
    (hend : t = 0 ∨ Stops (wadd base len) (nodes.map s.range)) (hnodup : nodes.Nodup)
    (hlk : ∀ x ∈ nodes, lk ≠ .next x) (hnew : new ∉ nodes) (hnew0 : new ≠ 0) (hne : lk ≠ .next new)
    (hrange : s.range new = ⟨base, len⟩) {fuel : ℕ} (hfuel : nodes.length ≤ fuel) :
    ∃ nowp nodes', insertLink s base len fuel lk = some nowp ∧
      Segment (s.link nowp new).mem.next t ((s.link nowp new).load lk) nodes' ∧
      nodes'.map s.range = Mm.addRange base len (nodes.map s.range) ∧
      nodes'.Perm (new :: nodes) ∧ (nowp = lk ∨ ∃ x ∈ nodes, nowp = .next x) := by
  induction nodes generalizing lk fuel with
  | nil =>
    have hload : s.load lk = t := hl
    rcases hend with rfl | ⟨r, hr, -⟩
    · refine ⟨lk, [new], by rw [insertLink.eq_def, if_pos hload], ?_, ?_,
        List.Perm.refl _, .inl rfl⟩
      · obtain ⟨hself, hnext⟩ := link_self (s := s) hne
        exact ⟨hself, hnew0, hnext.trans hload⟩
      · rw [List.map_cons, hrange]
        rfl
    · cases hr
  | cons x rest ih =>
    obtain ⟨hload, hx, hrest⟩ := hl
    obtain ⟨hxr, hnodup⟩ := List.nodup_cons.1 hnodup
    obtain ⟨hnewx, hnewr⟩ : new ≠ x ∧ new ∉ rest := by simpa using hnew
    cases fuel with
    | zero => cases hfuel
    | succ fuel =>
      rw [insertLink, if_neg (hload ▸ hx), List.map_cons, Mm.addRange]
      by_cases hstop : wadd base len ≤ s.mem.base x
      · -- the place before `x`
        refine ⟨lk, new :: x :: rest, ?_, ?_, ?_, List.Perm.refl _, .inl rfl⟩
        · rw [hload]
          exact if_pos hstop
        · obtain ⟨hself, hnext⟩ := link_self (s := s) hne
          refine ⟨hself, hnew0, ?_⟩
          rw [hnext]
          have hseg : Segment s.mem.next t (s.load lk) (x :: rest) := ⟨hload, hx, hrest⟩
          refine hseg.congr fun y hy => link_next ?_ (hlk y hy)
          rintro rfl
          exact hnew hy
        · rw [if_pos (show _ ≤ (s.range x).base from hstop), List.map_cons, List.map_cons, hrange]
      · have hlink : ∀ y ∈ rest, Link.next x ≠ .next y := by
          rintro y hy heq
          cases heq
          exact hxr hy
        obtain ⟨nowp, nodes', hfound, hseg, hmap, hperm, hnowp⟩ :=
          ih (.next x) hrest (hend.imp_right fun hs => hs.tail hstop) hnodup hlink hnewr
            (fun heq => hnewx (Link.next.inj heq).symm) (Nat.le_of_succ_le_succ hfuel)
        have hother : nowp ≠ lk := by
          rintro rfl
          rcases hnowp with rfl | ⟨y, hy, rfl⟩
          · exact hlk x List.mem_cons_self rfl
          · exact hlk y (List.mem_cons_of_mem x hy) rfl
        refine ⟨nowp, x :: nodes', ?_, ?_, ?_, ?_, .inr ?_⟩
        · rw [hload]
          exact (if_neg hstop).trans hfound
        · exact ⟨(link_load hne hother).trans hload, hx, hseg⟩
        · rw [if_neg (show ¬_ ≤ (s.range x).base from hstop), List.map_cons, hmap]
        · exact (hperm.cons x).trans (List.Perm.swap new x rest)
        · rcases hnowp with rfl | ⟨y, hy, rfl⟩
          · exact ⟨x, List.mem_cons_self, rfl⟩
          · exact ⟨y, List.mem_cons_of_mem x hy, rfl⟩

theorem isRangeReserved_mono {mem : Memory} {fuel fuel' now : ℕ} {b : Bool}
    (h : isRangeReserved mem base len fuel now = some b) (hle : fuel ≤ fuel') :
    isRangeReserved mem base len fuel' now = some b := by
  induction fuel generalizing now fuel' with
  | zero =>
    rw [isRangeReserved.eq_def] at h ⊢
    split at h
    · rw [if_pos ‹_›]
      exact h
    · cases h
  | succ fuel ih =>
    obtain ⟨fuel', rfl⟩ := Nat.exists_eq_add_of_le' hle
    rw [isRangeReserved.eq_def] at h ⊢
    split at h
    · rw [if_pos ‹_›]
      exact h
    rw [if_neg ‹_›]
    change (if _ then _ else if _ then _ else isRangeReserved mem base len
      (fuel' + fuel) _) = some b
    dsimp only at h
    split at h
    · rw [if_pos ‹_›]
      exact h
    rw [if_neg ‹_›]
    split at h
    · rw [if_pos ‹_›]
      exact h
    rw [if_neg ‹_›]
    exact ih h (Nat.le_add_left fuel fuel')

theorem insertLink_mono {fuel fuel' : ℕ} {nowp lk : Link}
    (h : insertLink s base len fuel nowp = some lk) (hle : fuel ≤ fuel') :
    insertLink s base len fuel' nowp = some lk := by
  induction fuel generalizing nowp fuel' with
  | zero =>
    rw [insertLink.eq_def] at h ⊢
    split at h
    · rw [if_pos ‹_›]
      exact h
    · cases h
  | succ fuel ih =>
    obtain ⟨fuel', rfl⟩ := Nat.exists_eq_add_of_le' hle
    rw [insertLink.eq_def] at h ⊢
    split at h
    · rw [if_pos ‹_›]
      exact h
    rw [if_neg ‹_›]
    change (if _ then _ else insertLink s base len (fuel' + fuel) _) = some lk
    dsimp only at h
    split at h
    · rw [if_pos ‹_›]
      exact h
    rw [if_neg ‹_›]
    exact ih h (Nat.le_add_left fuel fuel')

theorem insertRange_mono {pool : FrngPool} {fuel fuel' : ℕ} {y : ℤ × State}
    (h : insertRange pool fuel s base len = some y) (hle : fuel ≤ fuel') :
    insertRange pool fuel' s base len = some y := by
  rw [insertRange, Option.bind_eq_bind, Option.bind_eq_some_iff] at h ⊢
  obtain ⟨ok, hok, h⟩ := h
  refine ⟨ok, isRangeReserved_mono hok hle, ?_⟩
  split at h
  · rw [if_pos ‹_›]
    exact h
  rw [if_neg ‹_›]
  dsimp only at h ⊢
  rw [Option.bind_eq_bind, Option.bind_eq_some_iff] at h ⊢
  obtain ⟨lk, hlk, h⟩ := h
  exact ⟨lk, insertLink_mono hlk hle, h⟩

/-! ## `insert_range` -/

/-- The links run through the ranges `l`, and then lead to `t`. -/
structure Chained (pool : FrngPool) (t : ℕ) (s : State) (l : List MemoryRange) : Prop where
  nodes : ∃ nodes, Segment s.mem.next t s.freeRange nodes ∧ nodes.map s.range = l ∧ nodes.Nodup ∧
    ∀ a ∈ nodes, ∃ n < s.used, a = pool.slot n

/-- `insert_range` on the links does what it does on the list. -/
theorem Chained.insert {pool : FrngPool} {l : List MemoryRange} (h : Chained pool t s l)
    (hend : t = 0 ∨ Stops (wadd base len) l) :
    ∃ fuel, (Mm.isRangeReserved base len l = false ∧
        insertRange pool fuel s base len = some (-1, s)) ∨
      Mm.isRangeReserved base len l = true ∧ ∃ s', insertRange pool fuel s base len = some (0, s') ∧
        Chained pool t s' (Mm.addRange base len l) := by
  obtain ⟨nodes, hseg, rfl, hnodup, hslots⟩ := h.nodes
  refine ⟨nodes.length, ?_⟩
  have hsearch := isRangeReserved_segment hseg hend (le_refl _)
  cases hok : Mm.isRangeReserved base len (nodes.map s.range) with
  | false =>
    rw [hok] at hsearch
    refine .inl ⟨rfl, ?_⟩
    rw [insertRange, hsearch]
    rfl
  | true =>
    rw [hok] at hsearch
    refine .inr ⟨rfl, ?_⟩
    obtain ⟨new, hnew⟩ : ∃ new, new = pool.slot s.used := ⟨_, rfl⟩
    have hfresh : new ∉ nodes := by
      intro hmem
      obtain ⟨n, hn, heq⟩ := hslots new hmem
      exact absurd (pool.injective (heq.symm.trans hnew)) hn.ne
    obtain ⟨s₁, hs₁⟩ :
        ∃ s₁, s₁ = State.setRange { s with used := s.used + 1 } new base len := ⟨_, rfl⟩
    have hnext₁ : s₁.mem.next = s.mem.next ∧ s₁.freeRange = s.freeRange ∧ s₁.used = s.used + 1 := by
      rw [hs₁]
      exact ⟨rfl, rfl, rfl⟩
    have hrange₁ : ∀ a ∈ nodes, s₁.range a = s.range a := by
      intro a ha
      have hne : a ≠ new := fun heq => hfresh (heq ▸ ha)
      rw [hs₁]
      simp only [State.range, State.setRange, Function.update_of_ne hne]
    have hmap : nodes.map s₁.range = nodes.map s.range := List.map_congr_left hrange₁
    have hself : s₁.range new = ⟨base, len⟩ := by
      rw [hs₁]
      simp only [State.range, State.setRange, Function.update_self]
    have hseg₁ : Segment s₁.mem.next t (s₁.load .freeRange) nodes := by
      rw [hnext₁.1]
      change Segment s.mem.next t s₁.freeRange nodes
      rw [hnext₁.2.1]
      exact hseg
    obtain ⟨nowp, nodes', hfound, hseg', hmap', hperm, hnowp⟩ := insertLink_segment
      .freeRange hseg₁ (by rw [hmap]; exact hend) hnodup (fun _ _ => by simp) hfresh
      (hnew ▸ pool.ne_zero _) (by simp) hself (le_refl _)
    refine ⟨s₁.link nowp new, ?_, ⟨nodes', hseg', ?_, ?_, ?_⟩⟩
    · rw [insertRange, hsearch]
      simp only [Option.bind_eq_bind, Option.bind_some, Bool.not_true, Bool.false_eq_true,
        if_false, ← hnew,
        ← hs₁, hfound]
      rfl
    · rw [link_range, hmap', hmap]
    · exact hperm.nodup_iff.2 (List.nodup_cons.2 ⟨hfresh, hnodup⟩)
    · intro a ha
      rw [link_used, hnext₁.2.2]
      rcases List.mem_cons.1 (hperm.mem_iff.1 ha) with rfl | ha
      · exact ⟨s.used, Nat.lt_succ_self _, hnew⟩
      · obtain ⟨n, hn, heq⟩ := hslots a ha
        exact ⟨n, hn.trans (Nat.lt_succ_self _), heq⟩

end

/-! ## Which ranges a search meets -/

/-- The search for the address `x` meets a range that has it: those before begin at `x` or
below. -/
def Guarded (x : ℕ) : List MemoryRange → Prop
  | [] => False
  | r :: rest => r.base ≤ x ∧ (x < wadd r.base r.length ∨ Guarded x rest)

section

variable {l : List MemoryRange} {x base len : ℕ}

/-- A range with a guarded address is not free. -/
theorem Guarded.reserved (h : Guarded x l) (hfit : base + len < 2 ^ 64) (hlo : base ≤ x)
    (hhi : x < base + len) : Mm.isRangeReserved base len l = false := by
  have hend : wadd base len = base + len := Nat.mod_eq_of_lt hfit
  induction l with
  | nil => exact h.elim
  | cons r rest ih =>
    obtain ⟨hbase, hr⟩ := h
    rw [Mm.isRangeReserved, hend]
    split
    · rfl
    rename_i hover
    rw [if_neg (by omega)]
    refine ih (hr.resolve_left fun hlt => hover ⟨by omega, by omega⟩)

/-- An address that is not guarded is free, as a range of its own. -/
theorem reserved_of_not_guarded (h : ¬Guarded x l) (hfit : x + 1 < 2 ^ 64) :
    Mm.isRangeReserved x 1 l = true := by
  have hend : wadd x 1 = x + 1 := Nat.mod_eq_of_lt hfit
  induction l with
  | nil => rfl
  | cons r rest ih =>
    rw [Mm.isRangeReserved, hend]
    have hover : ¬(r.base < x + 1 ∧ x < wadd r.base r.length) :=
      fun hx => h ⟨Nat.lt_succ_iff.1 hx.1, .inl hx.2⟩
    rw [if_neg hover]
    split
    · rfl
    · rename_i hstop
      exact ih fun hr => h ⟨by omega, .inr hr⟩

/-- The insertion keeps the guards. -/
theorem Guarded.addRange (h : Guarded x l) (hfit : base + len < 2 ^ 64) :
    Guarded x (Mm.addRange base len l) := by
  have hend : wadd base len = base + len := Nat.mod_eq_of_lt hfit
  induction l with
  | nil => exact h.elim
  | cons r rest ih =>
    obtain ⟨hbase, hr⟩ := h
    rw [Mm.addRange, hend]
    split
    · exact ⟨by dsimp only; omega, .inr ⟨hbase, hr⟩⟩
    · exact ⟨hbase, hr.imp_right ih⟩

/-- The new range is guarded, unless a range before it goes over the end of memory. -/
theorem guarded_new (hfree : Mm.isRangeReserved base len l = true) (hfit : base + len < 2 ^ 64)
    (hwrap : ∀ r ∈ l, wadd r.base r.length < r.base → r.base < base + len → r.base ≤ base)
    (hlo : base ≤ x) (hhi : x < base + len) : Guarded x (Mm.addRange base len l) := by
  have hend : wadd base len = base + len := Nat.mod_eq_of_lt hfit
  induction l with
  | nil => exact ⟨hlo, .inl (hend ▸ hhi)⟩
  | cons r rest ih =>
    rw [Mm.isRangeReserved] at hfree
    rw [Mm.addRange]
    split at hfree
    · cases hfree
    rename_i hover
    split at hfree
    · rw [if_pos ‹_›]
      exact ⟨hlo, .inl (hend ▸ hhi)⟩
    · rename_i hstop
      rw [if_neg hstop]
      rw [hend] at hover hstop
      have hr := hwrap r List.mem_cons_self
      refine ⟨?_, .inr (ih hfree fun r' hr' => hwrap r' (List.mem_cons_of_mem r hr'))⟩
      by_cases hle : wadd r.base r.length < r.base
      · have := hr hle (by omega)
        omega
      · omega

end

/-! ## `memory_range_init` -/

theorem ram_append (smap smap' : List Smap) : ram (smap ++ smap') = ram smap ++ ram smap' := by
  rw [ram, List.filter_append, List.map_append]
  rfl

theorem ram_singleton (e : Smap) :
    ram [e] = if e.type = 1 then [⟨e.base.toNat, e.length.toNat⟩] else [] := by
  by_cases h : e.type = 1 <;> simp [ram, h]

/-- The loop of `memory_range_init` has come past the entries `done`.  It has written to the
objects of the list and, but for the last of them, to their links. -/
structure Loaded (pool : FrngPool) (mem : Memory) (done : List Smap) (x : State × Link) : Prop where
  nodes : ∃ nodes, (Segment x.1.mem.next (x.1.load x.2) x.1.freeRange nodes ∧
    nodes.map x.1.range = ram done ∧ nodes.Nodup ∧ ∀ a ∈ nodes, ∃ n < x.1.used, a = pool.slot n) ∧
    (nodes = [] ∧ x.2 = .freeRange ∧ x.1.freeRange = 0 ∨ ∃ pre last, nodes = pre ++ [last] ∧
      x.2 = .next last) ∧
    (∀ a, a ∉ nodes ∨ x.2 = .next a → x.1.mem.next a = mem.next a) ∧
    ∀ a ∉ nodes, x.1.mem.base a = mem.base a

theorem Loaded.entry {pool : FrngPool} {mem : Memory} {done : List Smap} {x : State × Link}
    (h : Loaded pool mem done x) (e : Smap) :
    Loaded pool mem (done ++ [e]) (initEntry pool x e) := by
  obtain ⟨s, ptr⟩ := x
  obtain ⟨nodes, ⟨hseg, hmap, hnodup, hslots⟩, hptr, hnext, hbase⟩ := h.nodes
  have hslots' : ∀ a ∈ nodes, ∃ n < s.used + 1, a = pool.slot n := by
    intro a ha
    obtain ⟨n, hn, heq⟩ := hslots a ha
    exact ⟨n, hn.trans (Nat.lt_succ_self _), heq⟩
  by_cases htype : e.type ≠ 1
  · rw [initEntry, if_pos htype]
    have hram : ram (done ++ [e]) = ram done := by
      rw [ram_append, ram_singleton, if_neg htype, List.append_nil]
    refine ⟨nodes, ⟨?_, hram ▸ hmap, hnodup, hslots'⟩, hptr, hnext, hbase⟩
    cases ptr <;> exact hseg
  · rw [initEntry, if_neg htype]
    rw [not_not] at htype
    obtain ⟨mr, hmr⟩ : ∃ mr, mr = pool.slot s.used := ⟨_, rfl⟩
    have hmr0 : mr ≠ 0 := hmr ▸ pool.ne_zero _
    have hfresh : mr ∉ nodes := by
      intro hmem
      obtain ⟨n, hn, heq⟩ := hslots mr hmem
      exact absurd (pool.injective (heq.symm.trans hmr)) hn.ne
    have hram : ram (done ++ [e]) = ram done ++ [⟨e.base.toNat, e.length.toNat⟩] := by
      rw [ram_append, ram_singleton, if_pos htype]
    dsimp only
    rw [← hmr]
    obtain ⟨s₁, hs₁⟩ : ∃ s₁, s₁ = State.setRange { s with used := s.used + 1 } mr e.base.toNat
        e.length.toNat := ⟨_, rfl⟩
    rw [← hs₁]
    have hnodup' : (nodes ++ [mr]).Nodup := by
      rw [List.nodup_append_comm]
      exact List.nodup_cons.2 ⟨hfresh, hnodup⟩
    have hrange : ∀ a, a ≠ mr → s₁.range a = s.range a := by
      intro a ha
      rw [hs₁]
      simp only [State.range, State.setRange, Function.update_of_ne ha]
    have hself : s₁.range mr = ⟨e.base.toNat, e.length.toNat⟩ := by
      rw [hs₁]
      simp only [State.range, State.setRange, Function.update_self]
    have hstore : (s₁.store ptr mr).range = s₁.range ∧ (s₁.store ptr mr).used = s.used + 1 := by
      rw [hs₁]
      cases ptr <;> exact ⟨rfl, rfl⟩
    refine ⟨nodes ++ [mr], ⟨?_, ?_, hnodup', ?_⟩, .inr ⟨nodes, mr, rfl, rfl⟩, ?_, ?_⟩
    · -- the new object is the last one
      rcases hptr with ⟨rfl, hfree, -⟩ | ⟨pre, last, rfl, hlast⟩
      · have hfree : ptr = .freeRange := hfree
        rw [hs₁, hfree]
        exact ⟨rfl, hmr0, rfl⟩
      · have hlast : ptr = .next last := hlast
        have hne : mr ≠ last := fun heq => hfresh (by simp [heq])
        have hsnoc := hseg.snoc hnodup hfresh hmr0
        rw [hs₁, hlast]
        change Segment (Function.update s.mem.next last mr)
          (Function.update s.mem.next last mr mr) _ _
        rw [Function.update_of_ne hne]
        exact hsnoc
    · rw [hstore.1, List.map_append, hram,
        List.map_congr_left fun a ha => hrange a fun heq => hfresh (heq ▸ ha)]
      rw [show nodes.map s.range = ram done from hmap, List.map_singleton, hself]
    · intro a ha
      rw [hstore.2]
      rcases List.mem_append.1 ha with ha | ha
      · exact hslots' a ha
      · exact ⟨s.used, Nat.lt_succ_self _, (List.mem_singleton.1 ha).trans hmr⟩
    · intro a ha
      have hmem : a ∉ nodes := by
        rcases ha with ha | ha
        · exact fun h => ha (List.mem_append_left _ h)
        · cases ha
          exact hfresh
      refine Eq.trans ?_ (hnext a (.inl hmem))
      rw [hs₁]
      rcases hptr with ⟨-, hfree, -⟩ | ⟨pre, last, rfl, hlast⟩
      · have hfree : ptr = .freeRange := hfree
        rw [hfree]
        rfl
      · have hlast : ptr = .next last := hlast
        have hne : a ≠ last := fun heq => hmem (by simp [heq])
        rw [hlast]
        exact Function.update_of_ne hne ..
    · intro a ha
      have hne : a ≠ mr := fun heq => ha (by simp [heq])
      have hmem : a ∉ nodes := fun h => ha (List.mem_append_left _ h)
      refine Eq.trans ?_ (hbase a hmem)
      rw [hs₁]
      cases ptr <;> exact Function.update_of_ne hne ..

theorem loaded_init (pool : FrngPool) (mem : Memory) (smap : List Smap) :
    Loaded pool mem smap (memoryRangeInit pool mem smap) := by
  have hstart : Loaded pool mem [] (⟨mem, 0, 0⟩, .freeRange) :=
    ⟨[], ⟨rfl, rfl, List.nodup_nil, by simp⟩, .inl ⟨rfl, rfl, rfl⟩, fun _ _ => rfl, fun _ _ => rfl⟩
  have hloop : ∀ (rest done : List Smap) x, Loaded pool mem done x →
      Loaded pool mem (done ++ rest) (rest.foldl (initEntry pool) x) := by
    intro rest
    induction rest with
    | nil => exact fun done x hx => (List.append_nil done).symm ▸ hx
    | cons e rest ih =>
      intro done x hx
      have := ih (done ++ [e]) _ (hx.entry e)
      rwa [List.append_assoc] at this
  exact hloop smap [] _ hstart

/-- Where the links of the list lead after its last range. -/
def endOf (pool : FrngPool) (mem : Memory) (smap : List Smap) : ℕ :=
  (memoryRangeInit pool mem smap).1.load (memoryRangeInit pool mem smap).2

/-- Each address of a range of type 1 is guarded, but for the last of all addresses, which no
call can ask for. -/
def Covered (smap : List Smap) : Prop :=
  ∀ x < 2 ^ 64 - 1, (∃ r ∈ ram smap, r.base ≤ x ∧ x < r.base + r.length) → Guarded x (ram smap)

/-- The search comes to an end: there is no range, `next` of the last one happens to be null,
or a range begins where every search stops. -/
def Ends (smap : List Smap) (last : ℕ) : Prop :=
  ram smap = [] ∨ last = 0 ∨ ∃ r ∈ ram smap, r.base = 2 ^ 64 - 1

/-! ## Sequences of calls -/

section

variable {pool : FrngPool} {t : ℕ} {smap : List Smap} {x : State × List MemoryRange}

/-- What holds between the calls. -/
structure Granting (pool : FrngPool) (t : ℕ) (smap : List Smap)
    (x : State × List MemoryRange) : Prop where
  list : ∃ l, Chained pool t x.1 l ∧ (∀ r ∈ l, r ∈ ram smap ∨ r.base + r.length < 2 ^ 64) ∧
    (t = 0 ∨ ∃ r ∈ l, r.base = 2 ^ 64 - 1) ∧
    ∀ y < 2 ^ 64 - 1, (∃ r ∈ ram smap ++ x.2, r.base ≤ y ∧ y < r.base + r.length) → Guarded y l

theorem granting_init (mem : Memory) (hcovered : Covered smap)
    (hends : Ends smap (endOf pool mem smap)) :
    Granting pool (endOf pool mem smap) smap ((memoryRangeInit pool mem smap).1, []) := by
  obtain ⟨nodes, ⟨hseg, hmap, hnodup, hslots⟩, hptr, -, -⟩ := (loaded_init pool mem smap).nodes
  refine ⟨ram smap, ⟨nodes, hseg, hmap, hnodup, hslots⟩, fun r hr => .inl hr, ?_, ?_⟩
  · rcases hends with hnil | hnull | hlast
    · -- without a range nothing was written to `free_range`
      rw [hnil, List.map_eq_nil_iff] at hmap
      subst hmap
      rcases hptr with ⟨-, hptr, hfree⟩ | ⟨pre, last, hnodes, -⟩
      · refine .inl ?_
        rw [endOf, hptr]
        exact hfree
      · simp at hnodes
    · exact .inl hnull
    · exact .inr hlast
  · intro y hy hram
    rw [List.append_nil] at hram
    exact hcovered y hy hram

theorem mem_addRange {base len : ℕ} {l : List MemoryRange} {r : MemoryRange} :
    r ∈ Mm.addRange base len l ↔ r = ⟨base, len⟩ ∨ r ∈ l := by
  induction l with
  | nil => simp [Mm.addRange]
  | cons r' rest ih =>
    rw [Mm.addRange]
    split
    · simp
    · simp only [List.mem_cons, ih]
      tauto

/-- Two runs of `insert_range` that come to an end agree. -/
theorem insertRange_agree {fuel fuel' base len : ℕ} {s : State} {y y' : ℤ × State}
    (h : insertRange pool fuel s base len = some y)
    (h' : insertRange pool fuel' s base len = some y') :
    y = y' := by
  have h₁ := insertRange_mono h (le_max_left fuel fuel')
  have h₂ := insertRange_mono h' (le_max_right fuel fuel')
  rw [h₁] at h₂
  exact Option.some.inj h₂

theorem Granting.call (h : Granting pool t smap x) {r : MemoryRange}
    (hfit : r.base + r.length < 2 ^ 64) :
    (∃ fuel y, insertRange pool fuel x.1 r.base r.length = some y) ∧
      ∀ fuel ret s', insertRange pool fuel x.1 r.base r.length = some (ret, s') →
        (ret = 0 → ∀ r' ∈ ram smap ++ x.2, ¬Overlaps r r') ∧
          Granting pool t smap (s', if ret = 0 then r :: x.2 else x.2) := by
  obtain ⟨l, hchain, hmem, hstop, hguard⟩ := h.list
  have hend : t = 0 ∨ Stops (wadd r.base r.length) l := by
    refine hstop.imp_right ?_
    rintro ⟨r', hr', hbase⟩
    refine ⟨r', hr', ?_⟩
    rw [hbase, wadd, Nat.mod_eq_of_lt hfit]
    omega
  obtain ⟨fuel, ⟨-, hrun⟩ | ⟨hfree, s', hrun, hchain'⟩⟩ := hchain.insert hend
  · refine ⟨⟨fuel, _, hrun⟩, fun fuel' ret s' hrun' => ?_⟩
    obtain ⟨rfl, rfl⟩ := Prod.mk.inj (insertRange_agree hrun hrun')
    exact ⟨fun hret => absurd hret (by decide), h⟩
  · refine ⟨⟨fuel, _, hrun⟩, fun fuel' ret s'' hrun' => ?_⟩
    obtain ⟨rfl, rfl⟩ := Prod.mk.inj (insertRange_agree hrun hrun')
    have hnone : ∀ y, r.base ≤ y → y < r.base + r.length → ¬Guarded y l := by
      intro y hlo hhi hy
      rw [hy.reserved hfit hlo hhi] at hfree
      cases hfree
    refine ⟨fun _ r' hr' => ?_, ?_⟩
    · rintro ⟨y, ⟨hlo, hhi⟩, hin⟩
      exact hnone y hlo hhi (hguard y (by omega) ⟨r', hr', hin⟩)
    rw [if_pos rfl]
    refine ⟨_, hchain', ?_, ?_, ?_⟩
    · intro r' hr'
      rcases mem_addRange.1 hr' with rfl | hr'
      · exact .inr hfit
      · exact hmem r' hr'
    · exact hstop.imp_right fun ⟨r', hr', hbase⟩ => ⟨r', mem_addRange.2 (.inr hr'), hbase⟩
    · rintro y hy ⟨r', hr', hin⟩
      rcases List.mem_append.1 hr' with hr' | hr'
      · exact (hguard y hy ⟨r', List.mem_append_left _ hr', hin⟩).addRange hfit
      rcases List.mem_cons.1 hr' with rfl | hr'
      · refine guarded_new hfree hfit ?_ hin.1 hin.2
        -- a range over the end of memory is one of type 1, and its begin is guarded
        intro r₀ hr₀ hwrap hlt
        by_contra hbase
        rcases hmem r₀ hr₀ with hram | hsmall
        · refine hnone r₀.base (by omega) hlt (hguard r₀.base (by omega) ?_)
          refine ⟨r₀, List.mem_append_left _ hram, le_refl _, ?_⟩
          rcases Nat.eq_zero_or_pos r₀.length with hzero | hpos
          · rw [hzero, wadd, Nat.add_zero, Nat.mod_eq_of_lt (by omega)] at hwrap
            exact absurd hwrap (lt_irrefl _)
          · omega
        · rw [wadd, Nat.mod_eq_of_lt hsmall] at hwrap
          omega
      · exact (hguard y hy ⟨r', List.mem_append_right _ hr', hin⟩).addRange hfit

theorem granting_run {fuel : ℕ} {l : List MemoryRange} {y : State × List MemoryRange}
    (h : Granting pool t smap x) (hfit : ∀ r ∈ l, r.base + r.length < 2 ^ 64)
    (hrun : l.foldlM (Frng.call pool fuel) x = some y) : Granting pool t smap y := by
  induction l generalizing x with
  | nil =>
    cases hrun
    exact h
  | cons r rest ih =>
    rw [List.foldlM_cons, Option.bind_eq_bind, Option.bind_eq_some_iff] at hrun
    obtain ⟨x₁, hx₁, hrun⟩ := hrun
    refine ih ?_ (fun r' hr' => hfit r' (List.mem_cons_of_mem r hr')) hrun
    rw [Frng.call, Option.bind_eq_bind, Option.bind_eq_some_iff] at hx₁
    obtain ⟨⟨ret, s'⟩, hins, hx₁⟩ := hx₁
    cases hx₁
    exact ((h.call (hfit r List.mem_cons_self)).2 fuel ret s' hins).2

/-- Where the conditions hold, every sequence of calls is safe. -/
theorem safe_of_covered {mem : Memory} (hcovered : Covered smap)
    (hends : Ends smap (endOf pool mem smap)) :
    Safe pool mem smap := by
  intro fuel l x hfit hrun r hr
  obtain ⟨hreturns, hcalls⟩ := (granting_run (granting_init mem hcovered hends) hfit hrun).call hr
  exact ⟨hreturns, fun fuel s' hs' => (hcalls fuel 0 s' hs').1 rfl⟩

end

/-! ## What goes wrong otherwise -/

/-- The search goes on for ever where no link is null and no range stops it. -/
theorem isRangeReserved_forever (mem : Memory) (hnext : ∀ a ≠ 0, mem.next a ≠ 0)
    (hbase : ∀ a ≠ 0, mem.base a < 2 ^ 64 - 1) (fuel : ℕ) {now : ℕ} (hnow : now ≠ 0) :
    isRangeReserved mem (2 ^ 64 - 1) 0 fuel now = none := by
  have hend : wadd (2 ^ 64 - 1) 0 = 2 ^ 64 - 1 := by decide
  induction fuel generalizing now with
  | zero => rw [isRangeReserved.eq_def, if_neg hnow]
  | succ fuel ih =>
    have hlt := hbase now hnow
    have hmod : wadd (mem.base now) (mem.length now) < 2 ^ 64 := Nat.mod_lt _ (by decide)
    rw [isRangeReserved.eq_def, if_neg hnow]
    dsimp only
    rw [hend, if_neg (by omega), if_neg (by omega)]
    exact ih (hnext now hnow)

/-- A pool whose memory leads from every object to `last`. -/
def leadsTo (last : ℕ) : Memory := ⟨fun _ => 0, fun _ => 0, fun _ => last⟩

theorem ends_of_safe {pool : FrngPool} {smap : List Smap} {last : ℕ} (hram : ram smap ≠ [])
    (hend : endOf pool (leadsTo last) smap = last) (h : Safe pool (leadsTo last) smap) :
    Ends smap last := by
  by_contra hno
  have hlast : last ≠ 0 := fun heq => hno (.inr (.inl heq))
  obtain ⟨nodes, ⟨hseg, hmap, -, -⟩, -, hnext, hbase⟩ :=
    (loaded_init pool (leadsTo last) smap).nodes
  obtain ⟨s, hs⟩ : ∃ s, s = (memoryRangeInit pool (leadsTo last) smap).1 := ⟨_, rfl⟩
  have hseg : Segment s.mem.next last s.freeRange nodes := by
    rw [endOf] at hend
    rw [hend] at hseg
    rw [hs]
    exact hseg
  rw [← hs] at hmap hnext hbase
  have hfree : s.freeRange ≠ 0 := by
    cases nodes with
    | nil => exact absurd hmap.symm hram
    | cons a rest => exact hseg.1 ▸ hseg.2.1
  have hforever := fun fuel => isRangeReserved_forever s.mem ?_ ?_ fuel hfree
  · obtain ⟨fuel, y, hy⟩ := (h 0 [] _ (by simp) rfl ⟨2 ^ 64 - 1, 0⟩ (by decide)).1
    rw [← hs, insertRange, hforever fuel] at hy
    cases hy
  · intro a ha
    by_cases hmem : a ∈ nodes
    · rcases hseg.next_mem hmem with heq | hnode
      · rw [heq]
        exact hlast
      · exact hseg.ne_zero hnode
    · rw [hnext a (.inl hmem)]
      exact hlast
  · intro a ha
    by_cases hmem : a ∈ nodes
    · have hrange : s.range a ∈ ram smap := hmap ▸ List.mem_map_of_mem hmem
      have hne : s.mem.base a ≠ 2 ^ 64 - 1 := fun heq => hno (.inr (.inr ⟨_, hrange, heq⟩))
      obtain ⟨e, -, he⟩ := List.mem_map.1 hrange
      have hlt : s.mem.base a < 2 ^ 64 := by
        rw [show s.mem.base a = e.base.toNat from congrArg MemoryRange.base he.symm]
        exact e.base.toNat_lt
      omega
    · rw [hbase a hmem]
      show (0 : ℕ) < 2 ^ 64 - 1
      decide

theorem covered_of_safe {pool : FrngPool} {mem : Memory} {smap : List Smap} (hram : ram smap ≠ [])
    (hends : Ends smap (endOf pool mem smap)) (h : Safe pool mem smap) : Covered smap := by
  intro x hx hin
  by_contra hno
  obtain ⟨r, hr, hin⟩ := hin
  have hfit : x + 1 < 2 ^ 64 := by omega
  have hwadd : wadd x 1 = x + 1 := Nat.mod_eq_of_lt hfit
  obtain ⟨nodes, hnodes, -⟩ := (loaded_init pool mem smap).nodes
  have hchain : Chained pool (endOf pool mem smap) (memoryRangeInit pool mem smap).1 (ram smap) :=
    ⟨nodes, hnodes⟩
  have hstop : endOf pool mem smap = 0 ∨ Stops (wadd x 1) (ram smap) := by
    refine (hends.resolve_left hram).imp_right ?_
    rintro ⟨r', hr', hbase⟩
    refine ⟨r', hr', ?_⟩
    omega
  have hfree := reserved_of_not_guarded hno hfit
  obtain ⟨fuel, ⟨hreserved, -⟩ | ⟨-, s', hrun, -⟩⟩ := hchain.insert hstop
  · rw [hfree] at hreserved
    cases hreserved
  · have hsafe := (h 0 [] _ (by simp) rfl ⟨x, 1⟩ hfit).2 fuel s' hrun r (by simpa using hr)
    exact hsafe ⟨x, ⟨le_refl _, Nat.lt_succ_self _⟩, hin⟩

/-- **Device memory is never memory of type 1**, exactly for the maps whose ranges are
guarded in the order of the map and whose list ends, whatever else the pool left in memory. -/
theorem safe_iff (pool : FrngPool) (smap : List Smap) (last : ℕ) :
    (∀ mem, endOf pool mem smap = last → Safe pool mem smap) ↔ Covered smap ∧ Ends smap last := by
  constructor
  · intro hsafe
    by_cases hram : ram smap = []
    · refine ⟨fun x _ hin => ?_, .inl hram⟩
      obtain ⟨r, hr, -⟩ := hin
      rw [hram] at hr
      cases hr
    · have hend : endOf pool (leadsTo last) smap = last := by
        obtain ⟨nodes, ⟨-, hmap, -, -⟩, hptr, hnext, -⟩ :=
          (loaded_init pool (leadsTo last) smap).nodes
        rcases hptr with ⟨rfl, -, -⟩ | ⟨pre, node, -, hptr⟩
        · exact absurd hmap.symm hram
        · rw [endOf, hptr]
          exact hnext node (.inr hptr)
      have hsafe := hsafe _ hend
      have hends := ends_of_safe hram hend hsafe
      exact ⟨covered_of_safe hram (hend.symm ▸ hends) hsafe, hends⟩
  · rintro ⟨hcovered, hends⟩ mem rfl
    exact safe_of_covered hcovered hends

/-- A map with two ranges of type 1, the upper one first. -/
def descending : List Smap := [⟨0x200000, 0x1000, 1⟩, ⟨0x100000, 0x1000, 1⟩]

def countingPool : FrngPool := ⟨Nat.succ, Nat.succ_injective, Nat.succ_ne_zero⟩

/-- The search for the lower range stops at the upper one, and the lower one is granted. -/
theorem safe_fails : ¬∀ (pool : FrngPool) (mem : Memory) (smap : List Smap),
    Safe pool mem smap := by
  intro h
  have hret :
      (insertRange countingPool 2 (memoryRangeInit countingPool (leadsTo 0) descending).1 0x100000
      0x1000).map Prod.fst = some 0 := by
    decide
  obtain ⟨⟨ret, s'⟩, hrun, hzero⟩ := Option.map_eq_some_iff.1 hret
  obtain rfl : ret = 0 := hzero
  have hsafe := (h countingPool (leadsTo 0) descending 0 [] _ (by simp) rfl ⟨0x100000, 0x1000⟩
    (by decide)).2
  exact hsafe 2 s' hrun ⟨0x100000, 0x1000⟩ (by decide) ⟨0x100000, by decide, by decide⟩

end SadOS.Frng
