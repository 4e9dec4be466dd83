import SadOS.Lib.BinradixShape

/-!
# Keys that are alone in their half

The root of the radix tree has two halves, one for each value of bit 63.  A half with one key
is a leaf whose segment has all 64 bits, and a half without keys is null.  An insertion
recognises a key that is stored by the mask of the next bit, which was shifted out of the
word; for the lone leaf that shift is by 64, which the processor takes for a shift by 0.  A
deletion that walks into the null half reads through it.

## Main definitions

* `binradixInsertShifts` — the counts of the shifts of an insertion.

## Main results

* `binradixInsert_duplicate_iff` — an insertion of a stored key.
* `binradixDelete_absent_iff` — a deletion of a key that is not stored.
-/

namespace SadOS

variable {α : Type}

open BinradixNode

/-! ## The shifts of an insertion -/

/-- The shifts of `bincmp`. -/
def bincmpShifts (off nbit : ℕ) : List ℕ :=
  off :: if off < nbit + 63 then [off + 1 - nbit] else []

/-- The counts of the shifts in the loop of `binradix_insert`, from `now` met at `keyOff`
with the mask `keyOffS`. -/
def binradixInsertShiftsFrom (key : BitVec 64) : BinradixNode α → BitVec 64 → ℤ → List ℕ
  | .null, _, _ => []
  | .node next0 next1 _ part len, keyOffS, keyOff =>
    let x := bincmp part key (toU8 keyOff) len
    bincmpShifts (toU8 keyOff) len ++
      if x ≠ 0#64 then
        let hb : ℤ := 63 - hibit x
        [(keyOff - hb).toNat]
      else
        let keyOffS := keyOffS >>> (len % 64)
        let keyOff := keyOff - len
        len :: if keyOffS = 0#64 then []
          else if key &&& keyOffS ≠ 0#64 then binradixInsertShiftsFrom key next1 keyOffS keyOff
          else binradixInsertShiftsFrom key next0 keyOffS keyOff

def binradixInsertShifts (root : BinradixNode α) (key : BitVec 64) : List ℕ :=
  binradixInsertShiftsFrom key root (1#64 <<< 63) 63

theorem bincmpShifts_lt {off nbit : ℕ} (hoff : off ≤ 63) : ∀ n ∈ bincmpShifts off nbit, n < 64 := by
  intro n hn
  rw [bincmpShifts, List.mem_cons] at hn
  rcases hn with rfl | hn
  · omega
  · split at hn
    · rw [List.mem_singleton] at hn
      -- a count of 64 is that of an empty segment at bit 63, which takes the other branch
      rename_i h
      omega
    · cases hn

/-- A node whose segment matches passes the insertion on to a child. -/
theorem insertShiftsFrom_node {off len : ℕ} (hoff : off ≤ 63) (hle : len ≤ off)
    {part key : BitVec 64} (hx : bincmp part key off len = 0#64) (c0 c1 : BinradixNode α)
    (dat : Option α) :
    binradixInsertShiftsFrom key (.node c0 c1 dat part len) (1#64 <<< off) off =
      bincmpShifts off len ++ len ::
        binradixInsertShiftsFrom key (if key.getLsbD (off - len) then c1 else c0)
          (1#64 <<< (off - len)) (off - len : ℕ) := by
  have hu8 : toU8 (off : ℤ) = off := by unfold toU8; omega
  have hint : (off : ℤ) - (len : ℤ) = ((off - len : ℕ) : ℤ) := by omega
  have hmk := and_mask_ne_zero (show off - len ≤ 63 by omega) key
  have hnz := mask_ne_zero (show off - len ≤ 63 by omega)
  simp only [binradixInsertShiftsFrom, hu8, hx, ne_eq, not_true_eq_false, if_false, hint,
    mask_shiftRight hoff hle, hnz] at hmk ⊢
  by_cases hk : key.getLsbD (off - len) = true
  · rw [if_pos (hmk.2 hk), if_pos hk]
  · rw [if_neg (mt hmk.1 hk), if_neg hk]

/-- With every bit the same, there is nothing to compare. -/
theorem bincmp_of_bineq {off len : ℕ} (hoff : off ≤ 63) {part key : BitVec 64}
    (h : bineq part key off len = true) : bincmp part key off len = 0#64 := by
  rw [bineq_iff hoff] at h
  apply BitVec.eq_of_getLsbD_eq
  intro i _
  rw [getLsbD_bincmp hoff, BitVec.getLsbD_zero]
  by_cases hi : i ≤ off <;> by_cases hl : off < i + len <;> simp [hi, hl, h i]

/-! ## An insertion of a stored key -/

/-- What the source means to do with a key that is stored under the datum `d`. -/
def DuplicateKept (root : BinradixNode α) (key : BitVec 64) (data d : α) : Prop :=
  binradixInsert root key data = (some d, root) ∧ ∀ n ∈ binradixInsertShifts root key, n < 64

/-- A leaf below bit 63 that is met with its own key. -/
theorem insertFrom_leaf_low {key part : BitVec 64} {d : α} (data : α) {off : ℕ} (hlt : off < 63)
    (hx : bincmp part key off (off + 1 : ℕ) = 0#64) :
    binradixInsertFrom key data (binradixLeaf part d (off + 1)) (1#64 <<< off) off =
        (some d, binradixLeaf part d (off + 1)) ∧
      ∀ n ∈ binradixInsertShiftsFrom key (binradixLeaf part d (off + 1)) (1#64 <<< off) off,
        n < 64 := by
  have hu8 : toU8 (off : ℤ) = off := by unfold toU8; omega
  -- the mask leaves the word
  have hout : (1#64 <<< off) >>> ((off + 1) % 64) = 0#64 := by
    rw [Nat.mod_eq_of_lt (by omega)]
    apply BitVec.eq_of_getLsbD_eq
    intro i _
    rw [BitVec.getLsbD_ushiftRight, BitVec.getLsbD_shiftLeft, BitVec.getLsbD_one]
    grind
  simp only [binradixLeaf, binradixInsertFrom, binradixInsertShiftsFrom, hu8, hx, hout, ne_eq,
    not_true_eq_false, if_false, if_true, true_and]
  intro n hn
  rw [List.mem_append, List.mem_singleton] at hn
  rcases hn with hn | rfl
  · exact bincmpShifts_lt (by omega) n hn
  · omega

/-- Not the only key of a half: the leaf is met below bit 63. -/
theorem insertFrom_duplicate {key : BitVec 64} {d : α} (data : α) {t : BinradixNode α} {off : ℕ}
    (hoff : off ≤ 63) (ht : t.Wf off) (hfind : binradixFindFrom t key off = some d)
    (hleaf : ∀ part, t = binradixLeaf part d (off + 1) → off < 63) :
    binradixInsertFrom key data t (1#64 <<< off) off = (some d, t) ∧
      ∀ n ∈ binradixInsertShiftsFrom key t (1#64 <<< off) off, n < 64 := by
  induction t generalizing off with
  | null => exact ht.elim
  | node c0 c1 dat part len ih0 ih1 =>
    have hx : bincmp part key off len = 0#64 :=
      bincmp_of_bineq hoff ((bineq_iff hoff _ _).2 (seg_of_find hoff hfind))
    cases dat with
    | some d' =>
      obtain ⟨rfl, rfl, rfl⟩ := ht
      obtain rfl : d' = d := by
        have hagree : AgreeBelow off key part := fun i hi =>
          (seg_of_find hoff hfind i hi (by omega)).symm
        have := (findFrom_leaf hoff d' part key).1 hagree
        rw [binradixLeaf, hfind, Option.some.injEq] at this
        exact this.symm
      exact insertFrom_leaf_low data (hleaf part rfl) hx
    | none =>
      obtain ⟨hpos, hle, h0, h1, -, -⟩ := ht
      rw [insertFrom_node hoff hle hx, insertShiftsFrom_node hoff hle hx]
      rw [find_child hoff hle (seg_of_find hoff hfind)] at hfind
      have hrest : ∀ c : BinradixNode α,
          (∀ n ∈ binradixInsertShiftsFrom key c (1#64 <<< (off - len)) (off - len : ℕ), n < 64) →
          ∀ n ∈ bincmpShifts off len ++ len ::
            binradixInsertShiftsFrom key c (1#64 <<< (off - len)) (off - len : ℕ), n < 64 := by
        intro c hc n hn
        rw [List.mem_append, List.mem_cons] at hn
        rcases hn with hn | rfl | hn
        · exact bincmpShifts_lt hoff n hn
        · omega
        · exact hc n hn
      cases hk : key.getLsbD (off - len) with
      | true =>
        rw [hk, if_pos rfl] at hfind
        obtain ⟨hins, hshift⟩ := ih1 (by omega) h1 hfind fun _ _ => by omega
        rw [if_pos rfl, if_pos rfl, hins]
        exact ⟨rfl, hrest c1 hshift⟩
      | false =>
        rw [hk, if_neg Bool.false_ne_true] at hfind
        obtain ⟨hins, hshift⟩ := ih0 (by omega) h0 hfind fun _ _ => by omega
        rw [if_neg Bool.false_ne_true, if_neg Bool.false_ne_true, hins]
        exact ⟨rfl, hrest c0 hshift⟩

/-- The only key of a half: another leaf is hung under its leaf. -/
theorem insertFrom_lone (key part : BitVec 64) (d data : α)
    (hagree : AgreeBelow 63 key part) :
    (binradixInsertFrom key data (binradixLeaf part d 64) (1#64 <<< 63) (63 : ℕ)).1 = none := by
  obtain rfl : key = part := agreeBelow_63_iff.1 hagree
  have hx : bincmp key key 63 64 = 0#64 :=
    bincmp_of_bineq le_rfl ((bineq_iff le_rfl _ _).2 fun _ _ _ => rfl)
  have hu8 : toU8 ((63 : ℕ) : ℤ) = 63 := by decide
  have hmask : (1#64 <<< 63) >>> (64 % 64) ≠ 0#64 := by decide
  simp only [binradixInsertFrom, binradixLeaf, hu8, hx, ne_eq, not_true_eq_false, if_false, hmask]
  split <;> rfl

/-- Which halves have more than one key. -/
theorem exists_other_iff {c : BinradixNode α} {key : BitVec 64} {d : α} (hc : c.Wf 63)
    (hfind : binradixFindFrom c key 63 = some d) :
    (∃ k, k ≠ key ∧ binradixFindFrom c k 63 ≠ none) ↔ ∀ part, c ≠ binradixLeaf part d 64 := by
  constructor
  · rintro ⟨k, hne, hk⟩ part rfl
    have hpart : ∀ k', binradixFindFrom (binradixLeaf part d 64) k' 63 ≠ none → k' = part := by
      intro k' hk'
      by_contra h
      exact hk' ((findFrom_leaf le_rfl d part k').2 (mt agreeBelow_63_iff.1 h))
    exact hne ((hpart k hk).trans (hpart key (by simp [hfind])).symm)
  · intro hleaf
    rcases c with _ | ⟨c0, c1, _ | d', part, len⟩
    · exact hc.elim
    · -- one of the two keys after the segment differs from `key`
      obtain ⟨k, d', hk, hbit⟩ := exists_find_bit le_rfl hc (!key.getLsbD (63 - len))
      refine ⟨k, ?_, by simp [hk]⟩
      rintro rfl
      cases hb : k.getLsbD (63 - len) <;> simp [hb] at hbit
    · obtain ⟨rfl, rfl, rfl⟩ := hc
      obtain rfl : d' = d := by
        have hagree : AgreeBelow 63 key part := fun i hi =>
          (seg_of_find le_rfl hfind i hi (by omega)).symm
        have := (findFrom_leaf le_rfl d' part key).1 hagree
        rw [binradixLeaf, hfind, Option.some.injEq] at this
        exact this.symm
      exact absurd rfl (hleaf part)

/-! ## The halves of a tree -/

/-- `next[bit]`. -/
def BinradixNode.next : BinradixNode α → Bool → BinradixNode α
  | .null, _ => .null
  | .node next0 next1 _ _ _, bit => if bit then next1 else next0

/-- The node with another `next[bit]`. -/
def BinradixNode.setNext : BinradixNode α → Bool → BinradixNode α → BinradixNode α
  | .null, _, _ => .null
  | .node next0 next1 data part len, bit, c =>
    if bit then .node next0 c data part len else .node c next1 data part len

@[simp] theorem BinradixNode.setNext_next (t : BinradixNode α) (bit : Bool) :
    t.setNext bit (t.next bit) = t := by
  cases t <;> cases bit <;> rfl

section Root

variable {root : BinradixNode α} (h : root.RootWf) (key : BitVec 64)

include h

theorem childWf_next (bit : Bool) : ChildWf (root.next bit) bit := by
  obtain ⟨c0, c1, part, rfl, h0, h1, -⟩ := h.halves
  cases bit
  · exact h0
  · exact h1

theorem find_next : binradixFind root key = binradixFindFrom (root.next (key.getLsbD 63)) key 63 := by
  obtain ⟨c0, c1, part, rfl, -, -, hf⟩ := h.halves
  rw [hf, next]
  cases key.getLsbD 63 <;> rfl

/-- The keys of a half are those with its bit. -/
theorem find_next_of_ne {k : BitVec 64} {bit : Bool}
    (hk : binradixFindFrom (root.next bit) k 63 ≠ none) : k.getLsbD 63 = bit := by
  rcases childWf_next h bit with hnull | ⟨hwf, hb⟩
  · rw [hnull] at hk
    exact absurd rfl hk
  · obtain ⟨d, hd⟩ := Option.ne_none_iff_exists'.1 hk
    exact (bitAt_of_find le_rfl hwf hd).symm.trans hb

theorem insert_next (data : α) : binradixInsert root key data =
    ((binradixInsertFrom key data (root.next (key.getLsbD 63)) (1#64 <<< 63) (63 : ℕ)).1,
      root.setNext (key.getLsbD 63)
        (binradixInsertFrom key data (root.next (key.getLsbD 63)) (1#64 <<< 63) (63 : ℕ)).2) := by
  obtain ⟨c0, c1, part, rfl, -, -, -⟩ := h.halves
  have hzero : bincmp part key 63 0 = 0#64 := rfl
  have hnode := insertFrom_node le_rfl (Nat.zero_le 63) hzero data c0 c1 none
  rw [Nat.sub_zero] at hnode
  refine hnode.trans ?_
  cases key.getLsbD 63 <;> rfl

theorem insertShifts_next : binradixInsertShifts root key = bincmpShifts 63 0 ++ 0 ::
    binradixInsertShiftsFrom key (root.next (key.getLsbD 63)) (1#64 <<< 63) (63 : ℕ) := by
  obtain ⟨c0, c1, part, rfl, -, -, -⟩ := h.halves
  have hzero : bincmp part key 63 0 = 0#64 := rfl
  have hnode := insertShiftsFrom_node le_rfl (Nat.zero_le 63) hzero c0 c1 none
  rw [Nat.sub_zero] at hnode
  exact hnode

/-- An insertion of a stored key is right if the key is not a lone leaf. -/
theorem duplicateKept_iff {d : α} (hfind : binradixFind root key = some d) (data : α) :
    DuplicateKept root key data d ↔
      ∀ part, root.next (key.getLsbD 63) ≠ binradixLeaf part d 64 := by
  rw [find_next h] at hfind
  have hwf : (root.next (key.getLsbD 63)).Wf 63 := by
    rcases childWf_next h (key.getLsbD 63) with hnull | ⟨hwf, -⟩
    · rw [hnull] at hfind
      cases hfind
    · exact hwf
  rw [DuplicateKept, insert_next h, insertShifts_next h]
  constructor
  · rintro ⟨hins, -⟩ part hleaf
    rw [hleaf] at hfind hins
    have hagree : AgreeBelow 63 key part := fun i hi =>
      (seg_of_find le_rfl hfind i hi (by omega)).symm
    rw [insertFrom_lone key part d data hagree, Prod.mk.injEq] at hins
    cases hins.1
  · intro hleaf
    obtain ⟨hins, hshift⟩ := insertFrom_duplicate data le_rfl hwf hfind
      fun part hpart => absurd hpart (hleaf part)
    rw [hins]
    refine ⟨by rw [setNext_next], fun n hn => ?_⟩
    rw [List.mem_append, List.mem_cons] at hn
    rcases hn with hn | rfl | hn
    · exact bincmpShifts_lt le_rfl n hn
    · omega
    · exact hshift n hn

/-- Another key in the half of a key. -/
theorem exists_other_next : (∃ k, k ≠ key ∧ binradixFind root k ≠ none ∧
      k.getLsbD 63 = key.getLsbD 63) ↔
    ∃ k, k ≠ key ∧ binradixFindFrom (root.next (key.getLsbD 63)) k 63 ≠ none := by
  constructor
  · rintro ⟨k, hne, hk, hbit⟩
    rw [find_next h, hbit] at hk
    exact ⟨k, hne, hk⟩
  · rintro ⟨k, hne, hk⟩
    have hbit := find_next_of_ne h hk
    refine ⟨k, hne, ?_, hbit⟩
    rw [find_next h, hbit]
    exact hk

end Root

/-- **An insertion of a stored key** returns its datum, changes nothing and shifts by less
than 64, exactly if another key is stored in the same half. -/
theorem binradixInsert_duplicate_iff (part : BitVec 64) (ops : List (MapOp α))
    (hops : Disciplined (fun _ => none) ops) :
    ∃ rets root, runTree (binradixNew part) ops = .ok (rets, root) ∧
      ∀ key d data, (runMap (fun _ => none) ops).2 key = some d →
        (DuplicateKept root key data d ↔ ∃ k, k ≠ key ∧
          (runMap (fun _ => none) ops).2 k ≠ none ∧ k.getLsbD 63 = key.getLsbD 63) := by
  obtain ⟨root, hrun, hrep⟩ := represents_run (represents_new part) hops
  refine ⟨_, root, hrun, fun key d data hkey => ?_⟩
  have hfind : binradixFind root key = some d := (hrep.find key).trans hkey
  have hwf : (root.next (key.getLsbD 63)).Wf 63 := by
    rcases childWf_next hrep.wf (key.getLsbD 63) with hnull | ⟨hwf, -⟩
    · rw [find_next hrep.wf, hnull] at hfind
      cases hfind
    · exact hwf
  rw [duplicateKept_iff hrep.wf key hfind data,
    ← exists_other_iff hwf ((find_next hrep.wf key).symm.trans hfind),
    ← exists_other_next hrep.wf key]
  simp only [hrep.find]

/-- The key 4 beside the key 6. -/
theorem binradixInsert_duplicate_iff_beside :
    ∃ rets root, runTree (binradixNew 7#64) [.insert 4#64 1, .insert 6#64 2] = .ok (rets, root) ∧
      DuplicateKept root 4#64 5 1 := by
  obtain ⟨rets, root, hrun, hiff⟩ := binradixInsert_duplicate_iff 7#64
    [.insert 4#64 1, .insert 6#64 2] ⟨by decide, by decide, trivial⟩
  exact ⟨rets, root, hrun, (hiff 4#64 1 5 (by decide)).2 ⟨6#64, by decide, by decide, by decide⟩⟩

/-- A tree with the key 4 only takes it a second time. -/
theorem binradixInsert_duplicate_fails : ¬∀ (part : BitVec 64) (ops : List (MapOp ℕ)),
    Disciplined (fun _ => none) ops → ∀ rets root,
      runTree (binradixNew part) ops = .ok (rets, root) → ∀ key d data,
        (runMap (fun _ => none) ops).2 key = some d → DuplicateKept root key data d := by
  intro hall
  have hkept := hall 0#64 [.insert 4#64 1] ⟨by decide, trivial⟩ [none]
    (binradixInsert (binradixNew 0#64) 4#64 1).2 (by decide) 4#64 1 5 (by decide)
  exact absurd hkept.1 (by decide)

/-! ## A deletion of a key that is not stored -/

/-- The walk ends at a segment that differs. -/
theorem deleteFrom_absent {key : BitVec 64} {t : BinradixNode α} {off : ℕ} (hoff : off ≤ 63)
    (ht : t.Wf off) (hfind : binradixFindFrom t key off = none) :
    binradixDeleteFrom key t off = .absent := by
  induction t generalizing off with
  | null => exact ht.elim
  | node c0 c1 dat part len ih0 ih1 =>
    rw [binradixDeleteFrom]
    by_cases hseg : bineq part key off len = true
    · rw [binradixFindFrom, if_pos hseg] at hfind
      cases dat with
      | some d =>
        -- a leaf that matches would have been found
        rw [if_neg (by have := ht.2.2; omega)] at hfind
        cases hfind
      | none =>
        obtain ⟨hpos, hle, h0, h1, -, -⟩ := ht
        rw [if_pos hle] at hfind
        rw [if_pos hseg, if_neg (by omega)]
        cases hk : key.getLsbD (off - len) with
        | true =>
          rw [hk, if_pos rfl] at hfind
          rw [if_pos rfl, ih1 (by omega) h1 hfind]
        | false =>
          rw [hk, if_neg Bool.false_ne_true] at hfind
          rw [if_neg Bool.false_ne_true, ih0 (by omega) h0 hfind]
    · rw [if_neg hseg]

/-- The walk runs off the root, and the code reads through null. -/
theorem delete_null {root : BinradixNode α} (h : root.RootWf) {key : BitVec 64}
    (hnull : root.next (key.getLsbD 63) = .null) :
    binradixDelete root key = .error .nullDeref := by
  obtain ⟨c0, c1, part, rfl, -, -, -⟩ := h.halves
  have hseg : bineq part key 63 0 = true := rfl
  change (if key.getLsbD 63 then c1 else c0) = .null at hnull
  simp only [binradixDelete, hseg, if_true, Nat.not_lt_zero, Nat.sub_zero, if_false, hnull]
  rfl

/-- A deletion that finds nothing in the half of the key. -/
theorem delete_absent {root : BinradixNode α} (h : root.RootWf) {key : BitVec 64}
    (hne : root.next (key.getLsbD 63) ≠ .null) (hfind : binradixFind root key = none) :
    binradixDelete root key = .ok (none, root) := by
  obtain ⟨hwf, -⟩ := (childWf_next h _).resolve_left hne
  rw [find_next h] at hfind
  have habsent := deleteFrom_absent le_rfl hwf hfind
  obtain ⟨c0, c1, part, rfl, -, -, -⟩ := h.halves
  have hseg : bineq part key 63 0 = true := rfl
  change binradixDeleteFrom key (if key.getLsbD 63 then c1 else c0) 63 = .absent at habsent
  simp only [binradixDelete, hseg, if_true, Nat.not_lt_zero, Nat.sub_zero, if_false, habsent]

/-- A half without keys is null. -/
theorem next_ne_null_iff {root : BinradixNode α} (h : root.RootWf) (bit : Bool) :
    root.next bit ≠ .null ↔ ∃ k, binradixFind root k ≠ none ∧ k.getLsbD 63 = bit := by
  constructor
  · intro hne
    obtain ⟨hwf, -⟩ := (childWf_next h bit).resolve_left hne
    obtain ⟨k, d, hk⟩ := exists_find le_rfl hwf
    have hbit := find_next_of_ne h (k := k) (by rw [hk]; exact Option.some_ne_none d)
    exact ⟨k, by rw [find_next h, hbit, hk]; exact Option.some_ne_none d, hbit⟩
  · rintro ⟨k, hk, rfl⟩ hnull
    rw [find_next h, hnull] at hk
    exact hk rfl

/-- **A deletion of a key that is not stored** returns null and changes nothing, exactly if
some key is stored in the same half; otherwise it reads through null. -/
theorem binradixDelete_absent_iff (part : BitVec 64) (ops : List (MapOp α))
    (hops : Disciplined (fun _ => none) ops) :
    ∃ rets root, runTree (binradixNew part) ops = .ok (rets, root) ∧
      ∀ key, (runMap (fun _ => none) ops).2 key = none →
        (binradixDelete root key = .ok (none, root) ↔ ∃ k,
          (runMap (fun _ => none) ops).2 k ≠ none ∧ k.getLsbD 63 = key.getLsbD 63) := by
  obtain ⟨root, hrun, hrep⟩ := represents_run (represents_new part) hops
  refine ⟨_, root, hrun, fun key hkey => ?_⟩
  have hfind : binradixFind root key = none := (hrep.find key).trans hkey
  have hhalf := next_ne_null_iff hrep.wf (key.getLsbD 63)
  simp only [hrep.find] at hhalf
  rw [← hhalf]
  constructor
  · rintro hdel hnull
    rw [delete_null hrep.wf hnull] at hdel
    cases hdel
  · intro hne
    exact delete_absent hrep.wf hne hfind

/-- The key 6 beside the key 4. -/
theorem binradixDelete_absent_iff_beside :
    ∃ rets root, runTree (binradixNew 7#64) [.insert 4#64 1] = .ok (rets, root) ∧
      binradixDelete root 6#64 = .ok (none, root) := by
  obtain ⟨rets, root, hrun, hiff⟩ := binradixDelete_absent_iff 7#64 [.insert 4#64 1]
    ⟨by decide, trivial⟩
  exact ⟨rets, root, hrun, (hiff 6#64 (by decide)).2 ⟨4#64, by decide, by decide⟩⟩

/-- A deletion in the empty tree. -/
theorem binradixDelete_absent_fails : ¬∀ (part : BitVec 64) (ops : List (MapOp ℕ)),
    Disciplined (fun _ => none) ops → ∀ rets root,
      runTree (binradixNew part) ops = .ok (rets, root) → ∀ key,
        (runMap (fun _ => none) ops).2 key = none →
          binradixDelete root key = .ok (none, root) := by
  intro hall
  have hdel := hall 0#64 [] trivial [] (binradixNew 0#64) rfl 4#64 rfl
  exact absurd hdel (by decide)

end SadOS
