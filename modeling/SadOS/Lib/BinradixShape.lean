import SadOS.Lib.BinradixMap

/-!
# The shape of the radix tree

A well-formed subtree is determined by the lookups it serves: where two inner nodes of one
set of keys are met at the same offset, their segments end at the first bit in which two of
the keys differ.  So a tree does not tell in which order its keys came, and a traversal meets
the keys in their order.

## Main definitions

* `BinradixNode.SameShape` — equal up to bits of `part` outside the segments.
* `binradixForEach` — the traversal.

## Main results

* `binradix_history_independent` — the tree is a function of the map.
* `binradixForEach_visits` — the traversal visits each datum once, in the order of the keys.
-/

namespace SadOS

variable {α : Type}

open BinradixNode

/-! ## Lookups below a node -/

/-- A lookup reads the bits from the offset down. -/
theorem findFrom_congr_key {t : BinradixNode α} {off : ℕ} (hoff : off ≤ 63) {k k' : BitVec 64}
    (h : AgreeBelow off k k') : binradixFindFrom t k off = binradixFindFrom t k' off := by
  induction t generalizing off with
  | null => rfl
  | node c0 c1 dat part len ih0 ih1 =>
    have hseg : bineq part k off len = bineq part k' off len := by
      rw [Bool.eq_iff_iff, bineq_iff hoff, bineq_iff hoff]
      exact ⟨fun hk i hi hl => (hk i hi hl).trans (h i hi),
        fun hk i hi hl => (hk i hi hl).trans (h i hi).symm⟩
    have hbelow : AgreeBelow (off - len) k k' := fun i hi => h i (by omega)
    simp only [binradixFindFrom, hseg, h (off - len) (by omega), ih0 (by omega) hbelow,
      ih1 (by omega) hbelow]

/-- The keys of a node agree with its segment. -/
theorem seg_of_find {c0 c1 : BinradixNode α} {dat : Option α} {part k : BitVec 64} {len off : ℕ}
    (hoff : off ≤ 63) {d : α} (h : binradixFindFrom (.node c0 c1 dat part len) k off = some d) :
    ∀ i, i ≤ off → off < i + len → part.getLsbD i = k.getLsbD i := by
  have hseg : bineq part k off len = true := by
    by_contra hne
    simp [binradixFindFrom, hne] at h
  exact (bineq_iff hoff _ _).1 hseg

/-- A stored key has the bit that leads to it. -/
theorem bitAt_of_find {t : BinradixNode α} {off : ℕ} (hoff : off ≤ 63) (ht : t.Wf off)
    {k : BitVec 64} {d : α} (h : binradixFindFrom t k off = some d) :
    t.bitAt off = k.getLsbD off := by
  by_contra hne
  rw [findFrom_none_of_bitAt hoff ht hne] at h
  cases h

/-- What a child serves is served by its parent, for the keys in the segment. -/
theorem find_child {c0 c1 : BinradixNode α} {dat : Option α} {part k : BitVec 64} {len off : ℕ}
    (hoff : off ≤ 63) (hle : len ≤ off)
    (hseg : ∀ i, i ≤ off → off < i + len → part.getLsbD i = k.getLsbD i) :
    binradixFindFrom (.node c0 c1 dat part len) k off =
      if k.getLsbD (off - len) then binradixFindFrom c1 k (off - len)
      else binradixFindFrom c0 k (off - len) := by
  rw [binradixFindFrom, if_pos ((bineq_iff hoff _ _).2 hseg), if_pos hle]

/-- A key in the segment of a node, with given bits below. -/
theorem find_joinBits {c0 c1 : BinradixNode α} {dat : Option α} {part p k : BitVec 64}
    {len off : ℕ} (hoff : off ≤ 63) (hle : len ≤ off)
    (hp : ∀ i, i ≤ off → off < i + len → part.getLsbD i = p.getLsbD i) :
    binradixFindFrom (.node c0 c1 dat part len) (joinBits (off - len + 1) p k) off =
      if k.getLsbD (off - len) then binradixFindFrom c1 k (off - len)
      else binradixFindFrom c0 k (off - len) := by
  have hbits : ∀ i, i < 64 → (joinBits (off - len + 1) p k).getLsbD i =
      if i < off - len + 1 then k.getLsbD i else p.getLsbD i :=
    fun i hi => getLsbD_joinBits (by omega) p k hi
  have hbelow : AgreeBelow (off - len) (joinBits (off - len + 1) p k) k := by
    intro i hi
    rw [hbits i (by omega), if_pos (by omega)]
  rw [find_child hoff hle, hbelow _ le_rfl, findFrom_congr_key (by omega) hbelow,
    findFrom_congr_key (t := c0) (by omega) hbelow]
  intro i hi hl
  rw [hbits i (by omega), if_neg (by omega), hp i hi hl]

/-- Every subtree stores a key. -/
theorem exists_find {t : BinradixNode α} {off : ℕ} (hoff : off ≤ 63) (ht : t.Wf off) :
    ∃ k d, binradixFindFrom t k off = some d := by
  induction t generalizing off with
  | null => exact ht.elim
  | node c0 c1 dat part len ih0 ih1 =>
    cases dat with
    | some d =>
      obtain ⟨rfl, rfl, rfl⟩ := ht
      exact ⟨part, d, (findFrom_leaf hoff d part part).1 fun _ _ => rfl⟩
    | none =>
      obtain ⟨hpos, hle, -, h1, -, hb1⟩ := ht
      obtain ⟨k, d, hk⟩ := ih1 (by omega) h1
      refine ⟨joinBits (off - len + 1) part k, d, ?_⟩
      rw [find_joinBits hoff hle fun _ _ _ => rfl, ← bitAt_of_find (by omega) h1 hk, hb1, if_pos rfl]
      exact hk

/-- An inner node stores keys with either bit after its segment. -/
theorem exists_find_bit {c0 c1 : BinradixNode α} {part : BitVec 64} {len off : ℕ} (hoff : off ≤ 63)
    (ht : (BinradixNode.node c0 c1 none part len).Wf off) (b : Bool) :
    ∃ k d, binradixFindFrom (.node c0 c1 none part len) k off = some d ∧
      k.getLsbD (off - len) = b := by
  obtain ⟨hpos, hle, h0, h1, hb0, hb1⟩ := ht
  have hchild : ∀ c : BinradixNode α, c.Wf (off - len) → c.bitAt (off - len) = b →
      (if b then c1 else c0) = c → ∃ k d,
        binradixFindFrom (.node c0 c1 none part len) k off = some d ∧ k.getLsbD (off - len) = b := by
    intro c hc hcb hsel
    obtain ⟨k, d, hk⟩ := exists_find (by omega) hc
    have hkb : k.getLsbD (off - len) = b := (bitAt_of_find (by omega) hc hk).symm.trans hcb
    refine ⟨joinBits (off - len + 1) part k, d, ?_, ?_⟩
    · rw [find_joinBits hoff hle fun _ _ _ => rfl, hkb]
      cases b
      · rw [if_neg (by simp)]
        rw [if_neg (by simp)] at hsel
        exact hsel ▸ hk
      · rw [if_pos rfl]
        rw [if_pos rfl] at hsel
        exact hsel ▸ hk
    · rw [getLsbD_joinBits (by omega) _ _ (by omega), if_pos (by omega), hkb]
  cases b with
  | false => exact hchild c0 h0 hb0 rfl
  | true => exact hchild c1 h1 hb1 rfl

/-! ## The shape -/

/-- Two subtrees met at an offset are equal, up to bits of `part` outside the segments. -/
def BinradixNode.SameShape : BinradixNode α → BinradixNode α → ℕ → Prop
  | .null, .null, _ => True
  | .node next0 next1 data part len, .node next0' next1' data' part' len', off =>
    data = data' ∧ len = len' ∧
      (∀ i, i ≤ off → off < i + len → part.getLsbD i = part'.getLsbD i) ∧
      SameShape next0 next0' (off - len) ∧ SameShape next1 next1' (off - len)
  | _, _, _ => False

/-- The segment of a node ends where two of its keys part. -/
theorem len_le_of_find {c0 c1 c0' c1' : BinradixNode α} {dat' : Option α} {part part' : BitVec 64}
    {len len' off : ℕ} (hoff : off ≤ 63) (ht : (BinradixNode.node c0 c1 none part len).Wf off)
    (h : ∀ k, binradixFindFrom (.node c0 c1 none part len) k off =
      binradixFindFrom (.node c0' c1' dat' part' len') k off) : len' ≤ len := by
  have hle : len ≤ off := ht.2.1
  obtain ⟨k0, d0, hk0, hb0⟩ := exists_find_bit hoff ht false
  obtain ⟨k1, d1, hk1, hb1⟩ := exists_find_bit hoff ht true
  rw [h] at hk0 hk1
  by_contra hlt
  have h0 := seg_of_find hoff hk0 (off - len) (by omega) (by omega)
  have h1 := seg_of_find hoff hk1 (off - len) (by omega) (by omega)
  rw [h0, hb0, hb1] at h1
  cases h1

/-- The child on the side of a bit serves what the other tree's child serves. -/
theorem find_child_eq {c0 c1 c0' c1' : BinradixNode α} {part part' : BitVec 64} {len off : ℕ}
    (hoff : off ≤ 63) (hle : len ≤ off)
    (hseg : ∀ i, i ≤ off → off < i + len → part.getLsbD i = part'.getLsbD i)
    (h : ∀ k, binradixFindFrom (.node c0 c1 none part len) k off =
      binradixFindFrom (.node c0' c1' none part' len) k off) (k : BitVec 64) :
    (if k.getLsbD (off - len) then binradixFindFrom c1 k (off - len)
      else binradixFindFrom c0 k (off - len)) =
      if k.getLsbD (off - len) then binradixFindFrom c1' k (off - len)
      else binradixFindFrom c0' k (off - len) := by
  have hk := h (joinBits (off - len + 1) part k)
  rw [find_joinBits hoff hle fun _ _ _ => rfl,
    find_joinBits hoff hle fun i hi hl => (hseg i hi hl).symm] at hk
  exact hk

/-- Two subtrees whose keys start with one bit agree if they agree on that bit. -/
theorem find_eq_of_bit {c c' : BinradixNode α} {off : ℕ} {b : Bool} (hoff : off ≤ 63)
    (hc : c.Wf off) (hc' : c'.Wf off) (hb : c.bitAt off = b) (hb' : c'.bitAt off = b)
    (h : ∀ k : BitVec 64, k.getLsbD off = b → binradixFindFrom c k off = binradixFindFrom c' k off)
    (k : BitVec 64) : binradixFindFrom c k off = binradixFindFrom c' k off := by
  by_cases hk : k.getLsbD off = b
  · exact h k hk
  · rw [findFrom_none_of_bitAt hoff hc fun he => hk (he.symm.trans hb),
      findFrom_none_of_bitAt hoff hc' fun he => hk (he.symm.trans hb')]

/-- **Equal lookups, equal shapes.** -/
theorem sameShape_of_find {t t' : BinradixNode α} {off : ℕ} (hoff : off ≤ 63) (ht : t.Wf off)
    (ht' : t'.Wf off) (h : ∀ k, binradixFindFrom t k off = binradixFindFrom t' k off) :
    t.SameShape t' off := by
  induction t generalizing t' off with
  | null => exact ht.elim
  | node c0 c1 dat part len ih0 ih1 =>
    rcases t' with _ | ⟨c0', c1', dat', part', len'⟩
    · exact ht'.elim
    cases dat with
    | some d =>
      obtain ⟨rfl, rfl, rfl⟩ := ht
      cases dat' with
      | some d' =>
        obtain ⟨rfl, rfl, rfl⟩ := ht'
        have hfind := (findFrom_leaf hoff d part part).1 fun _ _ => rfl
        rw [binradixLeaf, h] at hfind
        have hseg := seg_of_find hoff hfind
        have hagree : AgreeBelow off part part' := fun i hi => (hseg i hi (by omega)).symm
        rw [← binradixLeaf, (findFrom_leaf hoff d' part' part).1 hagree] at hfind
        exact ⟨(Option.some.inj hfind).symm ▸ rfl, rfl, fun i hi hl => (hseg i hi hl).symm, trivial,
          trivial⟩
      | none =>
        have hle := ht'.2.1
        have := len_le_of_find hoff ht' fun k => (h k).symm
        omega
    | none =>
      obtain ⟨hpos, hle, h0, h1, hb0, hb1⟩ := ht
      cases dat' with
      | some d' =>
        have := len_le_of_find hoff ⟨hpos, hle, h0, h1, hb0, hb1⟩ h
        have := ht'.2.2
        omega
      | none =>
        obtain rfl : len = len' := le_antisymm (len_le_of_find hoff ht' fun k => (h k).symm)
          (len_le_of_find hoff ⟨hpos, hle, h0, h1, hb0, hb1⟩ h)
        obtain ⟨-, -, h0', h1', hb0', hb1'⟩ := ht'
        -- any stored key carries both segments
        obtain ⟨k, d, hk⟩ := exists_find hoff
          (show (BinradixNode.node c0 c1 none part len).Wf off from ⟨hpos, hle, h0, h1, hb0, hb1⟩)
        have hseg : ∀ i, i ≤ off → off < i + len → part.getLsbD i = part'.getLsbD i := fun i hi hl =>
          (seg_of_find hoff hk i hi hl).trans (seg_of_find hoff ((h k).symm.trans hk) i hi hl).symm
        have hchild := find_child_eq hoff hle hseg h
        refine ⟨rfl, rfl, hseg, ?_, ?_⟩
        · refine ih0 (by omega) h0 h0' (find_eq_of_bit (by omega) h0 h0' hb0 hb0' ?_)
          intro k hkb
          simpa [hkb] using hchild k
        · refine ih1 (by omega) h1 h1' (find_eq_of_bit (by omega) h1 h1' hb1 hb1' ?_)
          intro k hkb
          simpa [hkb] using hchild k

/-! ## The whole tree -/

theorem BinradixNode.ChildWf.sameShape {c c' : BinradixNode α} {b : Bool} (hc : ChildWf c b)
    (hc' : ChildWf c' b)
    (h : ∀ k : BitVec 64, k.getLsbD 63 = b → binradixFindFrom c k 63 = binradixFindFrom c' k 63) :
    c.SameShape c' 63 := by
  -- a child that is absent serves no key, one that is present serves some key with its bit
  have hnone : ∀ {c : BinradixNode α}, c.Wf 63 → c.bitAt 63 = b →
      ∃ k : BitVec 64, k.getLsbD 63 = b ∧ binradixFindFrom c k 63 ≠ none := by
    intro c hwf hb
    obtain ⟨k, d, hk⟩ := exists_find le_rfl hwf
    exact ⟨k, (bitAt_of_find le_rfl hwf hk).symm.trans hb, by simp [hk]⟩
  rcases hc with rfl | ⟨hwf, hb⟩ <;> rcases hc' with rfl | ⟨hwf', hb'⟩
  · trivial
  · obtain ⟨k, hkb, hk⟩ := hnone hwf' hb'
    exact absurd (h k hkb).symm hk
  · obtain ⟨k, hkb, hk⟩ := hnone hwf hb
    exact absurd (h k hkb) hk
  · exact sameShape_of_find le_rfl hwf hwf' (find_eq_of_bit le_rfl hwf hwf' hb hb' h)

/-- The two halves of a tree. -/
theorem BinradixNode.RootWf.halves {root : BinradixNode α} (h : root.RootWf) :
    ∃ next0 next1 part, root = .node next0 next1 none part 0 ∧ ChildWf next0 false ∧
      ChildWf next1 true ∧ ∀ key, binradixFind root key =
        if key.getLsbD 63 then binradixFindFrom next1 key 63 else binradixFindFrom next0 key 63 := by
  rcases root with _ | ⟨next0, next1, _ | x, part, _ | len⟩
  · exact h.elim
  · exact ⟨next0, next1, part, rfl, h.1, h.2, fun key => find_eq_of_rootWf key⟩
  · exact h.elim
  · exact h.elim
  · exact h.elim

/-- Two trees that store one map have one shape. -/
theorem Represents.sameShape {root root' : BinradixNode α} {m : BitVec 64 → Option α}
    (h : Represents root m) (h' : Represents root' m) : root.SameShape root' 63 := by
  obtain ⟨c0, c1, part, rfl, hc0, hc1, hf⟩ := h.wf.halves
  obtain ⟨c0', c1', part', rfl, hc0', hc1', hf'⟩ := h'.wf.halves
  have hfind : ∀ k : BitVec 64, (if k.getLsbD 63 then binradixFindFrom c1 k 63
      else binradixFindFrom c0 k 63) = if k.getLsbD 63 then binradixFindFrom c1' k 63
      else binradixFindFrom c0' k 63 := by
    intro k
    rw [← hf, ← hf', h.find, h'.find]
  refine ⟨rfl, rfl, fun i _ hl => by omega, ?_, ?_⟩
  · refine hc0.sameShape hc0' fun k hk => ?_
    have hk' := hfind k
    rwa [hk, if_neg Bool.false_ne_true, if_neg Bool.false_ne_true] at hk'
  · refine hc1.sameShape hc1' fun k hk => ?_
    have hk' := hfind k
    rwa [hk, if_pos rfl, if_pos rfl] at hk'

/-- **The shape does not depend on the history.**  Two runs that end with one map end with
trees of one shape; an insertion that is taken back restores the shape. -/
theorem binradix_history_independent (part part' : BitVec 64) (ops ops' : List (MapOp α))
    (hops : Disciplined (fun _ => none) ops) (hops' : Disciplined (fun _ => none) ops')
    (hmap : (runMap (fun _ => none) ops).2 = (runMap (fun _ => none) ops').2) :
    ∃ rets rets' root root', runTree (binradixNew part) ops = .ok (rets, root) ∧
      runTree (binradixNew part') ops' = .ok (rets', root') ∧ root.SameShape root' 63 ∧
      ∀ key d, (runMap (fun _ => none) ops).2 key = none → ∃ root'',
        binradixDelete (binradixInsert root key d).2 key = .ok (some d, root'') ∧
          root''.SameShape root 63 := by
  obtain ⟨root, hrun, hrep⟩ := represents_run (represents_new part) hops
  obtain ⟨root', hrun', hrep'⟩ := represents_run (represents_new part') hops'
  refine ⟨_, _, root, root', hrun, hrun', hrep.sameShape (hmap ▸ hrep'), fun key d hkey => ?_⟩
  set m := (runMap (fun _ => none) ops).2 with hm
  have hinsert : (MapOp.insert key d).Allowed m := hkey
  obtain ⟨root₁, hins, hrep₁⟩ := represents_step hrep hinsert
  have hdelete : (MapOp.delete key).Allowed (MapOp.onMap m (.insert key d)).2 := by
    simp [MapOp.Allowed, MapOp.onMap]
  obtain ⟨root₂, hdel, hrep₂⟩ := represents_step hrep₁ hdelete
  obtain rfl : root₁ = (binradixInsert root key d).2 := by
    rw [MapOp.onTree, Except.ok.injEq] at hins
    rw [hins]
  have hback : (MapOp.onMap (MapOp.onMap m (.insert key d)).2 (.delete key)).2 = m := by
    funext k
    by_cases hk : k = key <;> simp [MapOp.onMap, hk, hkey]
  refine ⟨root₂, ?_, (hback ▸ hrep₂).sameShape hrep⟩
  simpa [MapOp.onTree, MapOp.onMap] using hdel

/-- The same two keys in either order, with a third one that comes and goes. -/
theorem binradix_history_independent_orders :
    ∃ rets rets' root root', runTree (binradixNew 7#64)
        [.insert 4#64 1, .insert 0x8000000000000000#64 3, .insert 6#64 2,
          .delete 0x8000000000000000#64] = .ok (rets, root) ∧
      runTree (binradixNew 0#64) [.insert 6#64 2, .insert 4#64 1] = .ok (rets', root') ∧
      root.SameShape root' 63 := by
  obtain ⟨rets, rets', root, root', hrun, hrun', hshape, -⟩ := binradix_history_independent 7#64 0#64
    [.insert 4#64 1, .insert 0x8000000000000000#64 3, .insert 6#64 2,
      .delete 0x8000000000000000#64] [.insert 6#64 2, .insert 4#64 1]
    ⟨by decide, by decide, by decide, by decide, trivial⟩ ⟨by decide, by decide, trivial⟩ (by
      funext k
      by_cases h4 : k = 4#64
      · subst h4; decide
      · by_cases h6 : k = 6#64
        · subst h6; decide
        · by_cases h8 : k = 0x8000000000000000#64
          · subst h8; decide
          · simp [runMap, MapOp.onMap, h4, h6, h8])
  exact ⟨rets, rets', root, root', hrun, hrun', hshape⟩

/-! ## The traversal -/

/-- `_binradix_for_each`, with a visitor that changes the state `s`.  A null child is
skipped by the caller. -/
def binradixForEachFrom {σ : Type} (v : α → σ → Except Fault σ) :
    BinradixNode α → σ → Except Fault σ
  | .null, s => .ok s
  | .node _ _ (some d) _ _, s => v d s
  | .node next0 next1 none _ _, s => do
    let s ← binradixForEachFrom v next0 s
    binradixForEachFrom v next1 s

/-- `binradix_for_each`. -/
def binradixForEach {σ : Type} (root : BinradixNode α) (v : α → σ → Except Fault σ) (s : σ) :
    Except Fault σ :=
  match root with
  | .null => .error .nullDeref
  | .node next0 next1 _ _ _ => do
    -- the root is skipped, its datum is the pool
    let s ← binradixForEachFrom v next0 s
    binradixForEachFrom v next1 s

/-- The traversal of `t` visits the data in `l`, which are those of the keys that `t` serves
and that agree with `acc` above `off`, in ascending order of the keys. -/
structure Visits (t : BinradixNode α) (off : ℕ) (acc : BitVec 64) (l : List (BitVec 64 × α)) :
    Prop where
  visit : ∀ {σ : Type} (v : α → σ → Except Fault σ) (s : σ),
    binradixForEachFrom v t s = l.foldlM (fun s e => v e.2 s) s
  sorted : l.Pairwise fun e e' => e.1 < e'.1
  mem_iff : ∀ k d, (k, d) ∈ l ↔
    (∀ i, off < i → i < 64 → k.getLsbD i = acc.getLsbD i) ∧ binradixFindFrom t k off = some d

/-- The highest bit in which two numbers differ orders them. -/
theorem lt_of_getLsbD {a b : BitVec 64} {i : ℕ} (ha : a.getLsbD i = false)
    (hb : b.getLsbD i = true) (h : ∀ j, i < j → j < 64 → a.getLsbD j = b.getLsbD j) : a < b := by
  rw [BitVec.lt_def]
  apply Nat.lt_of_testBit i
  · rw [BitVec.testBit_toNat]
    exact ha
  · rw [BitVec.testBit_toNat]
    exact hb
  · intro j hj
    rw [BitVec.testBit_toNat, BitVec.testBit_toNat]
    by_cases hj64 : j < 64
    · exact h j hj hj64
    · rw [BitVec.getLsbD_of_ge a j (by omega), BitVec.getLsbD_of_ge b j (by omega)]

/-- The keys of a child on the left come before those of a child on the right. -/
theorem Visits.append {c0 c1 : BinradixNode α} {off : ℕ} {acc : BitVec 64}
    {l0 l1 : List (BitVec 64 × α)} (h0 : Visits c0 off acc l0)
    (h1 : Visits c1 off acc l1)
    (hb0 : ∀ k d, binradixFindFrom c0 k off = some d → k.getLsbD off = false)
    (hb1 : ∀ k d, binradixFindFrom c1 k off = some d → k.getLsbD off = true) :
    (l0 ++ l1).Pairwise fun e e' => e.1 < e'.1 := by
  refine List.pairwise_append.2 ⟨h0.sorted, h1.sorted, ?_⟩
  rintro ⟨k, d⟩ hk ⟨k', d'⟩ hk'
  obtain ⟨hacc, hf⟩ := (h0.mem_iff k d).1 hk
  obtain ⟨hacc', hf'⟩ := (h1.mem_iff k' d').1 hk'
  exact lt_of_getLsbD (hb0 k d hf) (hb1 k' d' hf') fun j hj hj64 =>
    (hacc j hj hj64).trans (hacc' j hj hj64).symm

/-- A lookup in a pair of children, one for each bit. -/
theorem mem_append_iff {c0 c1 : BinradixNode α} {off : ℕ} {acc : BitVec 64}
    {l0 l1 : List (BitVec 64 × α)} (h0 : Visits c0 off acc l0) (h1 : Visits c1 off acc l1)
    (hb0 : ∀ k d, binradixFindFrom c0 k off = some d → k.getLsbD off = false)
    (hb1 : ∀ k d, binradixFindFrom c1 k off = some d → k.getLsbD off = true) (k : BitVec 64)
    (d : α) : (k, d) ∈ l0 ++ l1 ↔ (∀ i, off < i → i < 64 → k.getLsbD i = acc.getLsbD i) ∧
      (if k.getLsbD off then binradixFindFrom c1 k off else binradixFindFrom c0 k off) =
        some d := by
  rw [List.mem_append, h0.mem_iff, h1.mem_iff]
  constructor
  · rintro (⟨hacc, hf⟩ | ⟨hacc, hf⟩)
    · exact ⟨hacc, by simpa [hb0 k d hf] using hf⟩
    · exact ⟨hacc, by simpa [hb1 k d hf] using hf⟩
  · rintro ⟨hacc, hf⟩
    cases hk : k.getLsbD off with
    | false => exact .inl ⟨hacc, by simpa [hk] using hf⟩
    | true => exact .inr ⟨hacc, by simpa [hk] using hf⟩

theorem visits_leaf {off : ℕ} (hoff : off ≤ 63) (acc part : BitVec 64) (d : α) :
    Visits (binradixLeaf part d (off + 1)) off acc [(joinBits (off + 1) acc part, d)] := by
  have hbits : ∀ i, i < 64 → (joinBits (off + 1) acc part).getLsbD i =
      if i < off + 1 then part.getLsbD i else acc.getLsbD i :=
    fun i hi => getLsbD_joinBits (by omega) acc part hi
  refine ⟨?_, List.pairwise_singleton .., ?_⟩
  · intro σ v s
    rw [binradixLeaf, binradixForEachFrom, List.foldlM_cons]
    cases v d s <;> rfl
  · intro k d'
    rw [List.mem_singleton, Prod.mk.injEq]
    constructor
    · rintro ⟨rfl, rfl⟩
      refine ⟨fun i hi hi64 => by rw [hbits i hi64, if_neg (by omega)], ?_⟩
      refine (findFrom_leaf hoff d' part _).1 fun i hi => ?_
      rw [hbits i (by omega), if_pos (by omega)]
    · rintro ⟨hacc, hf⟩
      have hagree : AgreeBelow off k part := fun i hi =>
        (seg_of_find hoff hf i hi (by omega)).symm
      have hd := (findFrom_leaf hoff d part k).1 hagree
      rw [hf, Option.some.injEq] at hd
      refine ⟨BitVec.eq_of_getLsbD_eq fun i hi => ?_, hd⟩
      rw [hbits i hi]
      by_cases hio : i < off + 1
      · rw [if_pos hio, hagree i (by omega)]
      · rw [if_neg hio, hacc i (by omega) hi]

/-- The segment of a node is part of what the keys below it share. -/
theorem Visits.node {c0 c1 : BinradixNode α} {off len : ℕ} {acc part : BitVec 64}
    {l0 l1 : List (BitVec 64 × α)} (hoff : off ≤ 63)
    (ht : (BinradixNode.node c0 c1 none part len).Wf off)
    (hl0 : Visits c0 (off - len) (joinBits (off + 1) acc part) l0)
    (hl1 : Visits c1 (off - len) (joinBits (off + 1) acc part) l1) :
    Visits (.node c0 c1 none part len) off acc (l0 ++ l1) := by
  obtain ⟨hpos, hle, h0, h1, hb0, hb1⟩ := ht
  have hbits : ∀ i, i < 64 → (joinBits (off + 1) acc part).getLsbD i =
      if i < off + 1 then part.getLsbD i else acc.getLsbD i :=
    fun i hi => getLsbD_joinBits (by omega) acc part hi
  have hf0 : ∀ k d, binradixFindFrom c0 k (off - len) = some d → k.getLsbD (off - len) = false :=
    fun k d hf => (bitAt_of_find (by omega) h0 hf).symm.trans hb0
  have hf1 : ∀ k d, binradixFindFrom c1 k (off - len) = some d → k.getLsbD (off - len) = true :=
    fun k d hf => (bitAt_of_find (by omega) h1 hf).symm.trans hb1
  refine ⟨?_, hl0.append hl1 hf0 hf1, ?_⟩
  · intro σ v s
    rw [binradixForEachFrom, List.foldlM_append, hl0.visit]
    congr 1
    funext s
    exact hl1.visit v s
  · intro k d
    rw [mem_append_iff hl0 hl1 hf0 hf1]
    constructor
    · rintro ⟨hacc, hf⟩
      refine ⟨fun i hi hi64 => ?_, ?_⟩
      · rw [hacc i (by omega) hi64, hbits i hi64, if_neg (by omega)]
      · rw [find_child hoff hle]
        · exact hf
        · intro i hi hl
          rw [hacc i (by omega) (by omega), hbits i (by omega), if_pos (by omega)]
    · rintro ⟨hacc, hf⟩
      have hseg := seg_of_find hoff hf
      refine ⟨fun i hi hi64 => ?_, ?_⟩
      · rw [hbits i hi64]
        by_cases hio : i < off + 1
        · rw [if_pos hio, hseg i (by omega) (by omega)]
        · rw [if_neg hio, hacc i (by omega) hi64]
      · rwa [find_child hoff hle hseg] at hf

/-- **The traversal of a subtree.** -/
theorem exists_visits {t : BinradixNode α} {off : ℕ} (hoff : off ≤ 63) (ht : t.Wf off)
    (acc : BitVec 64) : ∃ l, Visits t off acc l := by
  induction t generalizing off acc with
  | null => exact ht.elim
  | node c0 c1 dat part len ih0 ih1 =>
    cases dat with
    | some d =>
      obtain ⟨rfl, rfl, rfl⟩ := ht
      exact ⟨_, visits_leaf hoff acc part d⟩
    | none =>
      have h := ht
      obtain ⟨-, -, h0, h1, -⟩ := h
      obtain ⟨l0, hl0⟩ := ih0 (by omega) h0 (joinBits (off + 1) acc part)
      obtain ⟨l1, hl1⟩ := ih1 (by omega) h1 (joinBits (off + 1) acc part)
      exact ⟨_, hl0.node hoff ht hl1⟩

/-- A child of the root, present or not. -/
theorem BinradixNode.ChildWf.exists_visits {c : BinradixNode α} {b : Bool} (hc : ChildWf c b) :
    ∃ l, Visits c 63 0#64 l ∧ ∀ k d, binradixFindFrom c k 63 = some d → k.getLsbD 63 = b := by
  rcases hc with rfl | ⟨hwf, hb⟩
  · refine ⟨[], ⟨fun v s => rfl, List.Pairwise.nil, fun k d => ?_⟩, fun k d h => ?_⟩
    · simp [binradixFindFrom]
    · simp [binradixFindFrom] at h
  · obtain ⟨l, hl⟩ := SadOS.exists_visits le_rfl hwf 0#64
    exact ⟨l, hl, fun k d h => (bitAt_of_find le_rfl hwf h).symm.trans hb⟩

/-- **The traversal visits each datum once, in ascending order of the keys.** -/
theorem binradixForEach_visits (part : BitVec 64) (ops : List (MapOp α))
    (hops : Disciplined (fun _ => none) ops) :
    ∃ rets root, ∃ l : List (BitVec 64 × α), runTree (binradixNew part) ops = .ok (rets, root) ∧
      (l.Pairwise fun e e' => e.1 < e'.1) ∧
      (∀ k d, (k, d) ∈ l ↔ (runMap (fun _ => none) ops).2 k = some d) ∧
      ∀ (σ : Type) (v : α → σ → Except Fault σ) (s : σ),
        binradixForEach root v s = l.foldlM (fun s e => v e.2 s) s := by
  obtain ⟨root, hrun, hrep⟩ := represents_run (represents_new part) hops
  obtain ⟨c0, c1, part, rfl, hc0, hc1, hf⟩ := hrep.wf.halves
  obtain ⟨l0, hl0, hb0⟩ := hc0.exists_visits
  obtain ⟨l1, hl1, hb1⟩ := hc1.exists_visits
  refine ⟨_, _, l0 ++ l1, hrun, hl0.append hl1 hb0 hb1, fun k d => ?_, fun σ v s => ?_⟩
  · rw [mem_append_iff hl0 hl1 hb0 hb1, ← hf, hrep.find, and_iff_right]
    intro i hi hi64
    omega
  · rw [binradixForEach, List.foldlM_append, hl0.visit]
    congr 1
    funext s
    exact hl1.visit v s

/-- Data of either half, collected in order. -/
theorem binradixForEach_visits_halves :
    ∃ rets root, ∃ l : List (BitVec 64 × ℕ), runTree (binradixNew 7#64)
        [.insert 0x8000000000000000#64 3, .insert 6#64 2, .insert 4#64 1] = .ok (rets, root) ∧
      (l.Pairwise fun e e' => e.1 < e'.1) ∧ (6#64, 2) ∈ l := by
  obtain ⟨rets, root, l, hrun, hsorted, hmem, -⟩ := binradixForEach_visits 7#64
    [.insert 0x8000000000000000#64 3, .insert 6#64 2, .insert 4#64 1]
    ⟨by decide, by decide, by decide, trivial⟩
  exact ⟨rets, root, l, hrun, hsorted, (hmem _ _).2 (by decide)⟩

end SadOS
