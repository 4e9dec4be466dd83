import SadOS.Lib.Binradix

/-!
# The radix tree is a finite map

The subtree met at offset `off` maps the low `off + 1` bits of a key to a datum.
`Wf off` says that an inner node has two children, that the segment of each child
starts with the bit that leads to it, and that a leaf consumes all bits that are
left.  Insertion and deletion keep it, which is what makes the mask arithmetic on
partial keys right.

## Main definitions

* `BinradixNode.Wf`, `BinradixNode.RootWf` — well-formed subtrees and trees.
* `find_insertFrom`, `find_deleteFrom` — the two operations below the root.
* `runTree_refines` — runs of the tree against runs of an abstract map.
-/

namespace SadOS

variable {α : Type}

namespace BinradixNode

/-- The bit of `part` at `off`. -/
def bitAt : BinradixNode α → ℕ → Bool
  | .null, _ => false
  | .node _ _ _ part _, off => part.getLsbD off

/-- A well-formed subtree whose segment starts at `off`. -/
def Wf : BinradixNode α → ℕ → Prop
  | .null, _ => False
  | .node next0 next1 (some _) _ len, off => next0 = .null ∧ next1 = .null ∧ len = off + 1
  | .node next0 next1 none _ len, off =>
    0 < len ∧ len ≤ off ∧ Wf next0 (off - len) ∧ Wf next1 (off - len) ∧
      next0.bitAt (off - len) = false ∧ next1.bitAt (off - len) = true

/-- A child of the root is absent or starts with the bit that leads to it. -/
def ChildWf (child : BinradixNode α) (bit : Bool) : Prop :=
  child = .null ∨ child.Wf 63 ∧ child.bitAt 63 = bit

/-- A well-formed tree: the root has an empty segment and no datum. -/
def RootWf : BinradixNode α → Prop
  | .node next0 next1 none _ 0 => ChildWf next0 false ∧ ChildWf next1 true
  | _ => False

end BinradixNode

open BinradixNode

/-- `a` and `b` agree in the bits from `off` down. -/
def AgreeBelow (off : ℕ) (a b : BitVec 64) : Prop := ∀ i, i ≤ off → a.getLsbD i = b.getLsbD i

theorem agreeBelow_63_iff {a b : BitVec 64} : AgreeBelow 63 a b ↔ a = b := by
  constructor
  · intro h
    apply BitVec.eq_of_getLsbD_eq
    intro i hi
    exact h i (by omega)
  · rintro rfl i _
    rfl

/-- A key in a segment agrees with another one if that one is in the segment and
agrees below it. -/
theorem agreeBelow_iff {off len : ℕ} (hoff : off ≤ 63) {part key : BitVec 64}
    (hseg : bineq part key off len = true) (k : BitVec 64) :
    AgreeBelow off k key ↔ bineq part k off len = true ∧
      (len ≤ off → AgreeBelow (off - len) k key) := by
  rw [bineq_iff hoff] at hseg ⊢
  constructor
  · exact fun h => ⟨fun i hi hl => (hseg i hi hl).trans (h i hi).symm,
      fun _ i hi => h i (by omega)⟩
  · rintro ⟨hhi, hlo⟩ i hi
    by_cases hl : off < i + len
    · exact (hhi i hi hl).symm.trans (hseg i hi hl)
    · exact hlo (by omega) i (by omega)

/-- What `binradix_find` does at a leaf. -/
theorem findFrom_leaf {off : ℕ} (hoff : off ≤ 63) (d : α) (part key : BitVec 64) :
    (AgreeBelow off key part →
      binradixFindFrom (binradixLeaf part d (off + 1)) key off = some d) ∧
    (¬ AgreeBelow off key part →
      binradixFindFrom (binradixLeaf part d (off + 1)) key off = none) := by
  have heq : bineq part key off (off + 1) = true ↔ AgreeBelow off key part := by
    rw [bineq_iff hoff]
    exact ⟨fun h i hi => (h i hi (by omega)).symm, fun h i hi _ => (h i hi).symm⟩
  constructor
  · intro h
    simp [binradixFindFrom, binradixLeaf, heq.2 h]
  · intro h
    have hne : bineq part key off (off + 1) = false := by
      simpa using mt heq.1 h
    simp [binradixFindFrom, binradixLeaf, hne]

/-- A segment of `n + r` bits is a segment of `n` bits followed by one of `r`. -/
theorem findFrom_append {off n r : ℕ} (hoff : off ≤ 63) (hn : n ≤ off) (c0 c1 : BinradixNode α)
    (dat : Option α) (part key : BitVec 64) :
    binradixFindFrom (.node c0 c1 dat part (n + r)) key off =
      if bineq part key off n then binradixFindFrom (.node c0 c1 dat part r) key (off - n)
      else none := by
  have hiff : bineq part key off (n + r) = true ↔
      bineq part key off n = true ∧ bineq part key (off - n) r = true := by
    rw [bineq_iff hoff, bineq_iff hoff, bineq_iff (show off - n ≤ 63 by omega)]
    constructor
    · exact fun h => ⟨fun i hi hlt => h i hi (by omega), fun i hi hlt => h i (by omega) (by omega)⟩
    · rintro ⟨h1, h2⟩ i hi hlt
      rcases Nat.lt_or_ge (off - n) i with h | h
      · exact h1 i hi (by omega)
      · exact h2 i h (by omega)
  have hsub : off - (n + r) = off - n - r := by omega
  have hle : n + r ≤ off ↔ r ≤ off - n := by omega
  simp only [binradixFindFrom, hiff, hsub, hle]
  by_cases h1 : bineq part key off n = true <;> simp [h1]

/-- Only the bits of the segment of `part` matter. -/
theorem findFrom_congr_part {off len : ℕ} (hoff : off ≤ 63) (c0 c1 : BinradixNode α)
    (dat : Option α) {p q : BitVec 64} (key : BitVec 64)
    (h : ∀ i, i ≤ off → off < i + len → p.getLsbD i = q.getLsbD i) :
    binradixFindFrom (.node c0 c1 dat p len) key off =
      binradixFindFrom (.node c0 c1 dat q len) key off := by
  have hiff : bineq p key off len = bineq q key off len := by
    rw [Bool.eq_iff_iff, bineq_iff hoff, bineq_iff hoff]
    exact ⟨fun hp i hi hl => (h i hi hl).symm.trans (hp i hi hl),
      fun hq i hi hl => (h i hi hl).trans (hq i hi hl)⟩
  simp only [binradixFindFrom, hiff]

/-- The walk of a well-formed subtree only follows the bit that its segment starts with. -/
theorem findFrom_none_of_bitAt {off : ℕ} (hoff : off ≤ 63) {t : BinradixNode α} (ht : t.Wf off)
    {key : BitVec 64} (hbit : t.bitAt off ≠ key.getLsbD off) : binradixFindFrom t key off = none := by
  rcases t with _ | ⟨c0, c1, dat, part, len⟩
  · rfl
  · have hlen : 0 < len := by
      cases dat with
      | none => exact ht.1
      | some d => rw [ht.2.2]; omega
    have hne : bineq part key off len = false := by
      rw [Bool.eq_false_iff]
      intro h
      exact hbit ((bineq_iff hoff _ _).1 h off le_rfl (by omega))
    simp [binradixFindFrom, hne]

/-! ## Insertion -/

/-- The mask of bit `off` tests that bit. -/
theorem and_mask_ne_zero {off : ℕ} (hoff : off ≤ 63) (key : BitVec 64) :
    key &&& (1#64 <<< off) ≠ 0#64 ↔ key.getLsbD off = true := by
  have hmask : ∀ i, (1#64 <<< off).getLsbD i = decide (i = off) := by
    intro i
    rw [BitVec.getLsbD_shiftLeft, BitVec.getLsbD_one]
    grind
  constructor
  · intro h
    by_contra hkey
    apply h
    apply BitVec.eq_of_getLsbD_eq
    intro i _
    rw [BitVec.getLsbD_and, hmask]
    by_cases hi : i = off <;> simp_all
  · intro hkey h
    have hbit : (key &&& (1#64 <<< off)).getLsbD off = true := by
      rw [BitVec.getLsbD_and, hmask, hkey]
      simp
    simp [h] at hbit

theorem mask_shiftRight {off n : ℕ} (hoff : off ≤ 63) (hn : n ≤ off) :
    (1#64 <<< off) >>> (n % 64) = 1#64 <<< (off - n) := by
  have hmod : n % 64 = n := Nat.mod_eq_of_lt (by omega)
  apply BitVec.eq_of_getLsbD_eq
  intro i hi
  rw [hmod, BitVec.getLsbD_ushiftRight, BitVec.getLsbD_shiftLeft, BitVec.getLsbD_shiftLeft,
    BitVec.getLsbD_one, BitVec.getLsbD_one]
  grind

theorem mask_ne_zero {off : ℕ} (hoff : off ≤ 63) : 1#64 <<< off ≠ 0#64 := by
  intro h
  have hbit := (and_mask_ne_zero hoff (1#64 <<< off)).2
  rw [BitVec.getLsbD_shiftLeft] at hbit
  simp [h] at hbit
  omega

/-- Where a key leaves a segment. -/
theorem bincmp_ne_zero {off len : ℕ} (hoff : off ≤ 63) {part key : BitVec 64}
    (hx : bincmp part key off len ≠ 0#64) :
    ∃ hb, hb ≤ off ∧ off < hb + len ∧ (63 - hibit (bincmp part key off len) : ℤ) = hb ∧
      part.getLsbD hb ≠ key.getLsbD hb ∧
      ∀ i, hb < i → i ≤ off → part.getLsbD i = key.getLsbD i := by
  obtain ⟨hle, hset, hclear⟩ := hibit_spec hx
  set hb := 63 - hibit (bincmp part key off len) with hhb
  rw [getLsbD_bincmp hoff] at hset
  simp only [Bool.and_eq_true, decide_eq_true_eq, bne_iff_ne, ne_eq] at hset
  refine ⟨hb, hset.1.1, hset.1.2, by omega, hset.2, ?_⟩
  intro i hi hio
  have hz := hclear i hi
  rw [getLsbD_bincmp hoff] at hz
  have hlt : off < i + len := by omega
  simpa [hio, hlt] using hz

/-- With no bit to differ in, the segment matches. -/
theorem bineq_of_bincmp_eq_zero {off len : ℕ} {part key : BitVec 64}
    (hx : bincmp part key off len = 0#64) : bineq part key off len = true := by
  simp [bineq, hx]

theorem wf_leaf (key : BitVec 64) (d : α) (off : ℕ) : (binradixLeaf key d (off + 1)).Wf off :=
  ⟨rfl, rfl, rfl⟩

/-- The subtree `t'` at `off` maps what agrees with `key` to `d`, and the rest as `t` does. -/
def MapsTo (off : ℕ) (key : BitVec 64) (d : Option α) (t t' : BinradixNode α) : Prop :=
  ∀ k, (AgreeBelow off k key → binradixFindFrom t' k off = d) ∧
    (¬ AgreeBelow off k key → binradixFindFrom t' k off = binradixFindFrom t k off)

/-- What insertion of a fresh key does at a subtree. -/
structure InsertSpec (off : ℕ) (key : BitVec 64) (d : α) (t : BinradixNode α)
    (r : Option α × BinradixNode α) : Prop where
  ret : r.1 = none
  wf : r.2.Wf off
  bitAt : r.2.bitAt off = key.getLsbD off
  maps : MapsTo off key (some d) t r.2

/-- The first branch of the loop: the segment is cut at the bit `hb`. -/
theorem insertFrom_split {off : ℕ} (hoff : off ≤ 63) {key : BitVec 64} {d : α}
    {c0 c1 : BinradixNode α} {dat : Option α} {part : BitVec 64} {len : ℕ}
    (hwf : (BinradixNode.node c0 c1 dat part len).Wf off)
    (hbit : part.getLsbD off = key.getLsbD off) (hx : bincmp part key off len ≠ 0#64) :
    InsertSpec off key d (.node c0 c1 dat part len)
      (binradixInsertFrom key d (.node c0 c1 dat part len) (1#64 <<< off) off) := by
  obtain ⟨hb, hle, hlt, hhb, hdiff, hsame⟩ := bincmp_ne_zero hoff hx
  have hne : hb ≠ off := by
    rintro rfl
    exact hdiff hbit
  have hu8 : toU8 (off : ℤ) = off := by unfold toU8; omega
  obtain ⟨r, hr, hn⟩ : ∃ r, 0 < r ∧ len = (off - hb) + r := ⟨len - (off - hb), by omega, by omega⟩
  -- the copy of the old node keeps the rest of the segment
  have hrest : (BinradixNode.node c0 c1 dat part r).Wf hb := by
    have hsub : off - len = hb - r := by omega
    cases dat with
    | some x => exact ⟨hwf.1, hwf.2.1, by have := hwf.2.2; omega⟩
    | none =>
      obtain ⟨_, h2, h3, h4, h5, h6⟩ := hwf
      rw [hsub] at h3 h4 h5 h6
      exact ⟨hr, by omega, h3, h4, h5, h6⟩
  have hsubn : off - (off - hb) = hb := by omega
  have hlenr : len - (off - hb) = r := by omega
  have hmask : (1#64 <<< off) >>> ((off - hb) % 64) = 1#64 <<< hb := by
    rw [mask_shiftRight hoff (by omega), hsubn]
  have hnat : ((off : ℤ) - (hb : ℤ)).toNat = off - hb := by omega
  have hnat1 : ((hb : ℤ) + 1).toNat = hb + 1 := by omega
  have hseg : bineq part key off (off - hb) = true :=
    (bineq_iff hoff _ _).2 fun i hi hl => hsame i (by omega) hi
  -- either child may hold the new leaf, but lookups see the same thing
  obtain ⟨t', ht', hret, hwf', hbit', hfind⟩ : ∃ t', t' =
      (binradixInsertFrom key d (.node c0 c1 dat part len) (1#64 <<< off) off).2 ∧
      (binradixInsertFrom key d (.node c0 c1 dat part len) (1#64 <<< off) off).1 = none ∧
      t'.Wf off ∧ t'.bitAt off = part.getLsbD off ∧
      ∀ k, binradixFindFrom t' k off = if bineq part k off (off - hb) then
        (if k.getLsbD hb = key.getLsbD hb then binradixFindFrom (binradixLeaf key d (hb + 1)) k hb
          else binradixFindFrom (.node c0 c1 dat part r) k hb) else none := by
    have hmk := and_mask_ne_zero (show hb ≤ 63 by omega) key
    simp only [binradixInsertFrom, hu8, hx, hhb, hnat, hnat1, hmask, hlenr, ne_eq,
      not_false_eq_true, if_true] at hmk ⊢
    cases hk : key.getLsbD hb with
    | true =>
      rw [if_pos (hmk.2 hk)]
      refine ⟨_, rfl, rfl, ⟨by omega, by omega, ?_, ?_, ?_, ?_⟩, rfl, ?_⟩
      · rw [hsubn]; exact hrest
      · rw [hsubn]; exact wf_leaf key d hb
      · rw [hsubn]; simpa [BinradixNode.bitAt, hk] using hdiff
      · rw [hsubn]; exact hk
      · intro k
        rw [binradixFindFrom, hsubn]
        cases hkk : k.getLsbD hb <;> simp
    | false =>
      rw [if_neg (mt hmk.1 (by simp [hk]))]
      refine ⟨_, rfl, rfl, ⟨by omega, by omega, ?_, ?_, ?_, ?_⟩, rfl, ?_⟩
      · rw [hsubn]; exact wf_leaf key d hb
      · rw [hsubn]; exact hrest
      · rw [hsubn]; exact hk
      · rw [hsubn]; simpa [BinradixNode.bitAt, hk] using hdiff
      · intro k
        rw [binradixFindFrom, hsubn]
        cases hkk : k.getLsbD hb <;> simp
  refine ⟨hret, ht' ▸ hwf', by rw [← ht', hbit', hbit], ?_⟩
  rw [← ht']
  intro k
  obtain ⟨hin, hout⟩ := findFrom_leaf (show hb ≤ 63 by omega) d key k
  rw [agreeBelow_iff hoff hseg, hfind k, hn, findFrom_append hoff (by omega), hsubn]
  refine ⟨fun ⟨h1, h2⟩ => by simpa [h1, h2 (by omega) hb le_rfl] using hin (h2 (by omega)),
    fun h => ?_⟩
  by_cases hk : bineq part k off (off - hb) = true
  · have hne : ¬ AgreeBelow hb k key := fun h2 => h ⟨hk, fun _ => h2⟩
    by_cases hkb : k.getLsbD hb = key.getLsbD hb
    · have hold : binradixFindFrom (.node c0 c1 dat part r) k hb = none := by
        apply findFrom_none_of_bitAt (by omega) hrest
        rw [hkb]
        exact hdiff
      simpa [hk, hkb, hold] using hout hne
    · simp [hk, hkb]
  · simp [hk]

/-- An update of the child on the side of `key` is an update of the node. -/
theorem mapsTo_child {off len : ℕ} (hoff : off ≤ 63) (hle : len ≤ off) {part key : BitVec 64}
    (hseg : bineq part key off len = true) {d : Option α} {c0 c1 c0' c1' : BinradixNode α}
    (h : MapsTo (off - len) key d (if key.getLsbD (off - len) then c1 else c0)
      (if key.getLsbD (off - len) then c1' else c0'))
    (hother : (if key.getLsbD (off - len) then c0' else c1') =
      if key.getLsbD (off - len) then c0 else c1) (dat : Option α) :
    MapsTo off key d (.node c0 c1 dat part len) (.node c0' c1' dat part len) := by
  intro k
  obtain ⟨hin, hout⟩ := h k
  rw [agreeBelow_iff hoff hseg]
  simp only [binradixFindFrom, hle, if_true, forall_const]
  constructor
  · rintro ⟨h1, h2⟩
    rw [if_pos h1, ← hin h2, h2 _ le_rfl]
    cases key.getLsbD (off - len) <;> simp
  · intro hne
    by_cases h1 : bineq part k off len = true
    · rw [if_pos h1, if_pos h1]
      have hne' : ¬ AgreeBelow (off - len) k key := fun h2 => hne ⟨h1, h2⟩
      specialize hout hne'
      cases hk : k.getLsbD (off - len) <;> cases hkey : key.getLsbD (off - len) <;>
        simp_all
    · rw [if_neg h1, if_neg h1]

theorem mapsTo_next1 {off len : ℕ} (hoff : off ≤ 63) (hle : len ≤ off) {part key : BitVec 64}
    (hseg : bineq part key off len = true) (hk : key.getLsbD (off - len) = true) {d : Option α}
    {c0 c1 c1' : BinradixNode α} (h : MapsTo (off - len) key d c1 c1') (dat : Option α) :
    MapsTo off key d (.node c0 c1 dat part len) (.node c0 c1' dat part len) :=
  mapsTo_child hoff hle hseg (by rw [hk, if_pos rfl, if_pos rfl]; exact h)
    (by rw [hk, if_pos rfl, if_pos rfl]) dat

theorem mapsTo_next0 {off len : ℕ} (hoff : off ≤ 63) (hle : len ≤ off) {part key : BitVec 64}
    (hseg : bineq part key off len = true) (hk : key.getLsbD (off - len) = false) {d : Option α}
    {c0 c1 c0' : BinradixNode α} (h : MapsTo (off - len) key d c0 c0') (dat : Option α) :
    MapsTo off key d (.node c0 c1 dat part len) (.node c0' c1 dat part len) :=
  mapsTo_child hoff hle hseg (by rw [hk, if_neg (by simp), if_neg (by simp)]; exact h)
    (by rw [hk, if_neg (by simp), if_neg (by simp)]) dat

/-- A node whose segment matches passes the insertion on to a child. -/
theorem insertFrom_node {off len : ℕ} (hoff : off ≤ 63) (hle : len ≤ off) {part key : BitVec 64}
    (hx : bincmp part key off len = 0#64) (d : α) (c0 c1 : BinradixNode α) (dat : Option α) :
    binradixInsertFrom key d (.node c0 c1 dat part len) (1#64 <<< off) off =
      if key.getLsbD (off - len) then
        ((binradixInsertFrom key d c1 (1#64 <<< (off - len)) (off - len : ℕ)).1,
          .node c0 (binradixInsertFrom key d c1 (1#64 <<< (off - len)) (off - len : ℕ)).2 dat part len)
      else
        ((binradixInsertFrom key d c0 (1#64 <<< (off - len)) (off - len : ℕ)).1,
          .node (binradixInsertFrom key d c0 (1#64 <<< (off - len)) (off - len : ℕ)).2 c1 dat part len) := by
  have hu8 : toU8 (off : ℤ) = off := by unfold toU8; omega
  have hint : (off : ℤ) - (len : ℤ) = ((off - len : ℕ) : ℤ) := by omega
  have hmk := and_mask_ne_zero (show off - len ≤ 63 by omega) key
  have hnz := mask_ne_zero (show off - len ≤ 63 by omega)
  simp only [binradixInsertFrom, hu8, hx, ne_eq, not_true_eq_false, if_false, hint,
    mask_shiftRight hoff hle, hnz] at hmk ⊢
  by_cases hk : key.getLsbD (off - len) = true
  · rw [if_pos (hmk.2 hk), if_pos hk]
  · rw [if_neg (mt hmk.1 hk), if_neg hk]

/-- **Insertion of a fresh key below the root.** -/
theorem insertFrom_spec {key : BitVec 64} {d : α} : ∀ {t : BinradixNode α} {off : ℕ}, off ≤ 63 →
    t.Wf off → t.bitAt off = key.getLsbD off → binradixFindFrom t key off = none →
    InsertSpec off key d t (binradixInsertFrom key d t (1#64 <<< off) off) := by
  intro t
  induction t with
  | null => exact fun _ h => h.elim
  | node c0 c1 dat part len ih0 ih1 =>
    intro off hoff hwf hbit hfresh
    by_cases hx : bincmp part key off len = 0#64
    · have hseg := bineq_of_bincmp_eq_zero hx
      rcases dat with _ | x
      · obtain ⟨hpos, hle, h0, h1, hb0, hb1⟩ := hwf
        rw [insertFrom_node hoff hle hx]
        simp only [binradixFindFrom, hseg, hle, if_true] at hfresh
        cases hk : key.getLsbD (off - len) with
        | true =>
          rw [hk, if_pos rfl] at hfresh
          obtain ⟨hret, hwf', hbit', hmaps⟩ := ih1 (by omega) h1 (hb1.trans hk.symm) hfresh
          refine ⟨hret, ⟨hpos, hle, h0, hwf', hb0, hbit'.trans hk⟩, hbit, ?_⟩
          exact mapsTo_next1 hoff hle hseg hk hmaps _
        | false =>
          rw [hk, if_neg (by simp)] at hfresh
          obtain ⟨hret, hwf', hbit', hmaps⟩ := ih0 (by omega) h0 (hb0.trans hk.symm) hfresh
          refine ⟨hret, ⟨hpos, hle, hwf', h1, hbit'.trans hk, hb1⟩, hbit, ?_⟩
          exact mapsTo_next0 hoff hle hseg hk hmaps _
      · -- a leaf that matches holds the key already
        obtain ⟨rfl, rfl, rfl⟩ := hwf
        simp [binradixFindFrom, hseg] at hfresh
    · exact insertFrom_split hoff hwf hbit hx

/-! ## Deletion -/

/-- What deletion of a stored key does at a subtree that is not the leaf itself. -/
structure DeleteSpec (off : ℕ) (key : BitVec 64) (t t' : BinradixNode α) : Prop where
  wf : t'.Wf off
  bitAt : t'.bitAt off = t.bitAt off
  maps : MapsTo off key none t t'

/-- The sibling of an unlinked leaf, merged into the parent, serves the lookups
that the parent served for it. -/
theorem merge_spec {off len : ℕ} (hoff : off ≤ 63) (hpos : 0 < len) (hle : len ≤ off)
    (part : BitVec 64) {side : Bool} {m : BinradixNode α} (hm : m.Wf (off - len))
    (hside : m.bitAt (off - len) = side) (ret : Option α) :
    ∃ t', binradixMerge part len (off - len) ret m = .done ret t' ∧ t'.Wf off ∧
      t'.bitAt off = part.getLsbD off ∧
      ∀ k, binradixFindFrom t' k off = if bineq part k off len then
        (if k.getLsbD (off - len) = side then binradixFindFrom m k (off - len) else none)
        else none := by
  rcases m with _ | ⟨m0, m1, mdata, mpart, mlen⟩
  · exact hm.elim
  have hmlen : 0 < mlen := by
    cases mdata with
    | none => exact hm.1
    | some x => rw [hm.2.2]; omega
  set merged := joinBits (off - len + 1) part mpart with hmerged
  have hbits : ∀ i, i < 64 → merged.getLsbD i =
      if i < off - len + 1 then mpart.getLsbD i else part.getLsbD i :=
    fun i hi => getLsbD_joinBits (by omega) part mpart hi
  have hmerge : binradixMerge part len (off - len) ret (.node m0 m1 mdata mpart mlen) =
      .done ret (.node m0 m1 mdata merged (len + mlen)) := by
    rw [hmerged, joinBits, ← shiftLeft_two]
    rfl
  refine ⟨_, hmerge, ?_, ?_, ?_⟩
  · cases mdata with
    | some x => exact ⟨hm.1, hm.2.1, by have := hm.2.2; omega⟩
    | none =>
      obtain ⟨h1, h2, h3, h4, h5, h6⟩ := hm
      have hsub : off - (len + mlen) = off - len - mlen := by omega
      exact ⟨by omega, by omega, hsub ▸ h3, hsub ▸ h4, hsub ▸ h5, hsub ▸ h6⟩
  · change merged.getLsbD off = _
    rw [hbits off (by omega), if_neg (by omega)]
  · intro k
    have hseg : bineq merged k off len = bineq part k off len := by
      rw [Bool.eq_iff_iff, bineq_iff hoff, bineq_iff hoff]
      have hsame : ∀ i, i ≤ off → off < i + len → merged.getLsbD i = part.getLsbD i := by
        intro i hi hl
        rw [hbits i (by omega), if_neg (by omega)]
      exact ⟨fun h i hi hl => (hsame i hi hl).symm.trans (h i hi hl),
        fun h i hi hl => (hsame i hi hl).trans (h i hi hl)⟩
    have hlow : binradixFindFrom (.node m0 m1 mdata merged mlen) k (off - len) =
        binradixFindFrom (.node m0 m1 mdata mpart mlen) k (off - len) := by
      apply findFrom_congr_part (by omega)
      intro i hi _
      rw [hbits i (by omega), if_pos (by omega)]
    rw [findFrom_append hoff hle, hseg, hlow]
    by_cases h1 : bineq part k off len = true
    · rw [if_pos h1, if_pos h1]
      by_cases h2 : k.getLsbD (off - len) = side
      · rw [if_pos h2]
      · rw [if_neg h2]
        exact findFrom_none_of_bitAt (by omega) hm (fun h => h2 (h.symm.trans hside))
    · rw [if_neg h1, if_neg h1]

/-- A leaf that a key reaches serves exactly the keys that agree with it. -/
theorem findFrom_leaf_eq_none {off : ℕ} (hoff : off ≤ 63) {d d' : α} {part key k : BitVec 64}
    (h : binradixFindFrom (binradixLeaf part d (off + 1)) key off = some d')
    (hk : ¬ AgreeBelow off k key) :
    binradixFindFrom (binradixLeaf part d (off + 1)) k off = none := by
  have hkey : AgreeBelow off key part := by
    by_contra hne
    simp [(findFrom_leaf hoff d part key).2 hne] at h
  apply (findFrom_leaf hoff d part k).2
  exact fun hpart => hk fun i hi => (hpart i hi).trans (hkey i hi).symm

/-- Unlinking the leaf on the side of the key, and merging the other child. -/
theorem mapsTo_merge {off len : ℕ} (hoff : off ≤ 63) (hle : len ≤ off) {part key : BitVec 64}
    (hseg : bineq part key off len = true) {c0 c1 t' : BinradixNode α} (side : Bool) {d' : α}
    {lpart : BitVec 64} {d : α} (hkey : key.getLsbD (off - len) = !side)
    (hleaf : (if side then c0 else c1) = binradixLeaf lpart d (off - len + 1))
    (hfind : binradixFindFrom (binradixLeaf lpart d (off - len + 1)) key (off - len) = some d')
    (ht' : ∀ k, binradixFindFrom t' k off = if bineq part k off len then
      (if k.getLsbD (off - len) = side then
        binradixFindFrom (if side then c1 else c0) k (off - len) else none) else none) :
    MapsTo off key none (.node c0 c1 none part len) t' := by
  intro k
  rw [agreeBelow_iff hoff hseg, ht' k]
  simp only [binradixFindFrom, hle, if_true, forall_const]
  constructor
  · rintro ⟨h1, h2⟩
    have hne : ¬ k.getLsbD (off - len) = side := by
      rw [h2 _ le_rfl, hkey]
      cases side <;> simp
    rw [if_pos h1, if_neg hne]
  · intro hne
    by_cases h1 : bineq part k off len = true
    · rw [if_pos h1, if_pos h1]
      have hnone : binradixFindFrom (binradixLeaf lpart d (off - len + 1)) k (off - len) = none :=
        findFrom_leaf_eq_none (by omega) hfind fun h2 => hne ⟨h1, h2⟩
      rw [← hleaf] at hnone
      cases hk : k.getLsbD (off - len) <;> cases side <;> simp_all
    · rw [if_neg h1, if_neg h1]

/-- **Deletion of a stored key below the root.** -/
theorem deleteFrom_spec {key : BitVec 64} {d : α} : ∀ {t : BinradixNode α} {off : ℕ}, off ≤ 63 →
    t.Wf off → binradixFindFrom t key off = some d →
    (∃ part, t = binradixLeaf part d (off + 1) ∧
      binradixDeleteFrom key t off = .leaf (some d)) ∨
    ∃ t', binradixDeleteFrom key t off = .done (some d) t' ∧ DeleteSpec off key t t' := by
  intro t
  induction t with
  | null => exact fun _ h => h.elim
  | node c0 c1 dat part len ih0 ih1 =>
    intro off hoff hwf hfind
    have hseg : bineq part key off len = true := by
      by_contra h
      simp [binradixFindFrom, h] at hfind
    rcases dat with _ | x
    · obtain ⟨hpos, hle, h0, h1, hb0, hb1⟩ := hwf
      right
      simp only [binradixDeleteFrom, hseg, if_true, show ¬ off < len by omega, if_false]
      simp only [binradixFindFrom, hseg, hle, if_true] at hfind
      cases hk : key.getLsbD (off - len) with
      | true =>
        rw [hk, if_pos rfl] at hfind
        rcases ih1 (by omega) h1 hfind with ⟨lpart, rfl, hdel⟩ | ⟨t', hdel, hspec⟩
        · obtain ⟨t', hmerge, hwf', hbit', ht'⟩ := merge_spec hoff hpos hle part h0 hb0 (some d)
          refine ⟨t', by simp [hdel, hmerge], hwf', hbit', ?_⟩
          exact mapsTo_merge hoff hle hseg false (by simp [hk]) (by simp) hfind
            (by simpa using ht')
        · refine ⟨.node c0 t' none part len, by simp [hdel],
            ⟨hpos, hle, h0, hspec.wf, hb0, hspec.bitAt.trans hb1⟩, rfl, ?_⟩
          exact mapsTo_next1 hoff hle hseg hk hspec.maps _
      | false =>
        rw [hk, if_neg (by simp)] at hfind
        rcases ih0 (by omega) h0 hfind with ⟨lpart, rfl, hdel⟩ | ⟨t', hdel, hspec⟩
        · obtain ⟨t', hmerge, hwf', hbit', ht'⟩ := merge_spec hoff hpos hle part h1 hb1 (some d)
          refine ⟨t', by simp [hdel, hmerge], hwf', hbit', ?_⟩
          exact mapsTo_merge hoff hle hseg true (by simp [hk]) (by simp) hfind
            (by simpa using ht')
        · refine ⟨.node t' c1 none part len, by simp [hdel],
            ⟨hpos, hle, hspec.wf, h1, hspec.bitAt.trans hb0, hb1⟩, rfl, ?_⟩
          exact mapsTo_next0 hoff hle hseg hk hspec.maps _
    · left
      obtain ⟨rfl, rfl, rfl⟩ := hwf
      obtain rfl : x = d := by simpa [binradixFindFrom, hseg] using hfind
      exact ⟨part, rfl, by simp [binradixDeleteFrom, hseg]⟩

/-! ## The whole tree -/

theorem find_eq_of_rootWf {next0 next1 : BinradixNode α} {dat : Option α} {part : BitVec 64}
    (key : BitVec 64) : binradixFind (.node next0 next1 dat part 0) key =
      if key.getLsbD 63 then binradixFindFrom next1 key 63 else binradixFindFrom next0 key 63 := by
  simp [binradixFind, binradixFindFrom, bineq]

/-- At the root, keys that agree are equal. -/
theorem find_of_mapsTo {key : BitVec 64} {d : Option α} {t t' : BinradixNode α}
    (h : MapsTo 63 key d t t') (k : BitVec 64) :
    binradixFind t' k = if k = key then d else binradixFind t k := by
  obtain ⟨hin, hout⟩ := h k
  rw [agreeBelow_63_iff] at hin hout
  by_cases hk : k = key
  · rw [if_pos hk]; exact hin hk
  · rw [if_neg hk]; exact hout hk

/-- Insertion of a fresh key keeps the tree well formed and stores the datum. -/
theorem binradixInsert_spec {root : BinradixNode α} (hwf : root.RootWf) {key : BitVec 64}
    (d : α) (hfresh : binradixFind root key = none) :
    (binradixInsert root key d).1 = none ∧ (binradixInsert root key d).2.RootWf ∧
      ∀ k, binradixFind (binradixInsert root key d).2 k =
        if k = key then some d else binradixFind root k := by
  rcases root with _ | ⟨next0, next1, _ | x, part, _ | len⟩
  · exact hwf.elim
  · obtain ⟨h0, h1⟩ := hwf
    have hseg : bineq part key 63 0 = true := rfl
    have hx : bincmp part key 63 0 = 0#64 := rfl
    have hnode := insertFrom_node (show 63 ≤ 63 by omega) (Nat.zero_le 63) hx d next0 next1 none
    -- the child on the side of the key, present or not
    have hchild : ∀ c : BinradixNode α, ChildWf c (key.getLsbD 63) →
        binradixFindFrom c key 63 = none →
        InsertSpec 63 key d c (binradixInsertFrom key d c (1#64 <<< 63) (63 : ℕ)) := by
      rintro c (rfl | ⟨hc, hb⟩) hf
      · refine ⟨rfl, wf_leaf key d 63, rfl, ?_⟩
        intro k
        exact findFrom_leaf le_rfl d key k
      · exact insertFrom_spec le_rfl hc hb hf
    rw [find_eq_of_rootWf] at hfresh
    change (binradixInsertFrom key d _ (1#64 <<< 63) (63 : ℕ)).1 = none ∧
      (binradixInsertFrom key d _ (1#64 <<< 63) (63 : ℕ)).2.RootWf ∧ _
    cases hk : key.getLsbD 63 with
    | true =>
      rw [hk, if_pos rfl] at hfresh
      obtain ⟨hret, hwf', hbit', hmaps⟩ := hchild next1 (hk ▸ h1) hfresh
      simp only [Nat.sub_zero, hk, if_true] at hnode
      refine ⟨by rw [hnode]; exact hret, by rw [hnode]; exact ⟨h0, .inr ⟨hwf', hbit'.trans hk⟩⟩, ?_⟩
      apply find_of_mapsTo
      change MapsTo 63 key (some d) _ (binradixInsertFrom key d _ (1#64 <<< 63) (63 : ℕ)).2
      rw [hnode]
      exact mapsTo_next1 le_rfl (Nat.zero_le 63) hseg hk hmaps _
    | false =>
      rw [hk, if_neg (by simp)] at hfresh
      obtain ⟨hret, hwf', hbit', hmaps⟩ := hchild next0 (hk ▸ h0) hfresh
      simp only [Nat.sub_zero, hk, Bool.false_eq_true, if_false] at hnode
      refine ⟨by rw [hnode]; exact hret, by rw [hnode]; exact ⟨.inr ⟨hwf', hbit'.trans hk⟩, h1⟩, ?_⟩
      apply find_of_mapsTo
      change MapsTo 63 key (some d) _ (binradixInsertFrom key d _ (1#64 <<< 63) (63 : ℕ)).2
      rw [hnode]
      exact mapsTo_next0 le_rfl (Nat.zero_le 63) hseg hk hmaps _
  · exact hwf.elim
  · exact hwf.elim
  · exact hwf.elim

/-- Deletion of a stored key keeps the tree well formed and returns the datum. -/
theorem binradixDelete_spec {root : BinradixNode α} (hwf : root.RootWf) {key : BitVec 64} {d : α}
    (hfind : binradixFind root key = some d) :
    ∃ root', binradixDelete root key = .ok (some d, root') ∧ root'.RootWf ∧
      ∀ k, binradixFind root' k = if k = key then none else binradixFind root k := by
  rcases root with _ | ⟨next0, next1, _ | x, part, _ | len⟩
  · exact hwf.elim
  · obtain ⟨h0, h1⟩ := hwf
    have hseg : bineq part key 63 0 = true := rfl
    -- the child on the side of the key, which is present
    have hchild : ∀ c : BinradixNode α, ChildWf c (key.getLsbD 63) →
        binradixFindFrom c key 63 = some d →
        ∃ c', ChildWf c' (key.getLsbD 63) ∧ MapsTo 63 key none c c' ∧
          (binradixDeleteFrom key c 63 = .leaf (some d) ∧ c' = .null ∨
            binradixDeleteFrom key c 63 = .done (some d) c') := by
      rintro c (rfl | ⟨hc, hb⟩) hf
      · simp [binradixFindFrom] at hf
      · rcases deleteFrom_spec le_rfl hc hf with ⟨lpart, rfl, hdel⟩ | ⟨c', hdel, hspec⟩
        · refine ⟨.null, .inl rfl, ?_, .inl ⟨hdel, rfl⟩⟩
          intro k
          exact ⟨fun _ => rfl, fun h => (findFrom_leaf_eq_none le_rfl hf h).symm⟩
        · exact ⟨c', .inr ⟨hspec.wf, hspec.bitAt.trans hb⟩, hspec.maps, .inr hdel⟩
    rw [find_eq_of_rootWf] at hfind
    simp only [binradixDelete, hseg, if_true, Nat.not_lt_zero, Nat.sub_zero, if_false]
    cases hk : key.getLsbD 63 with
    | true =>
      rw [hk, if_pos rfl] at hfind
      obtain ⟨c', hc', hmaps, hdel⟩ := hchild next1 (hk ▸ h1) hfind
      refine ⟨.node next0 c' none part 0, ?_, ⟨h0, hk ▸ hc'⟩, find_of_mapsTo ?_⟩
      · rcases hdel with ⟨hdel, rfl⟩ | hdel <;> simp [hdel]
      · exact mapsTo_next1 le_rfl (Nat.zero_le 63) hseg hk hmaps _
    | false =>
      rw [hk, if_neg (by simp)] at hfind
      obtain ⟨c', hc', hmaps, hdel⟩ := hchild next0 (hk ▸ h0) hfind
      refine ⟨.node c' next1 none part 0, ?_, ⟨hk ▸ hc', h1⟩, find_of_mapsTo ?_⟩
      · rcases hdel with ⟨hdel, rfl⟩ | hdel <;> simp [hdel]
      · exact mapsTo_next0 le_rfl (Nat.zero_le 63) hseg hk hmaps _
  · exact hwf.elim
  · exact hwf.elim
  · exact hwf.elim

/-! ## Runs -/

/-- A call of `binradix_insert` or `binradix_delete`.  Data are not null. -/
inductive MapOp (α : Type) where
  | insert (key : BitVec 64) (data : α)
  | delete (key : BitVec 64)
  deriving DecidableEq, Repr

/-- What the callers keep: only fresh keys are inserted, and only stored keys are
deleted. -/
def MapOp.Allowed (m : BitVec 64 → Option α) : MapOp α → Prop
  | .insert key _ => m key = none
  | .delete key => m key ≠ none

instance [DecidableEq α] (m : BitVec 64 → Option α) : (op : MapOp α) → Decidable (op.Allowed m)
  | .insert key _ => inferInstanceAs (Decidable (m key = none))
  | .delete key => inferInstanceAs (Decidable (m key ≠ none))

/-- The operation on the abstract map, with what it returns. -/
def MapOp.onMap (m : BitVec 64 → Option α) : MapOp α → Option α × (BitVec 64 → Option α)
  | .insert key d => (none, fun k => if k = key then some d else m k)
  | .delete key => (m key, fun k => if k = key then none else m k)

/-- The operation on the tree, with what it returns. -/
def MapOp.onTree (root : BinradixNode α) : MapOp α → Except Fault (Option α × BinradixNode α)
  | .insert key d => .ok (binradixInsert root key d)
  | .delete key => binradixDelete root key

/-- A sequence of calls that keeps the discipline of the callers. -/
def Disciplined (m : BitVec 64 → Option α) : List (MapOp α) → Prop
  | [] => True
  | op :: ops => op.Allowed m ∧ Disciplined (op.onMap m).2 ops

def runMap (m : BitVec 64 → Option α) : List (MapOp α) → List (Option α) × (BitVec 64 → Option α)
  | [] => ([], m)
  | op :: ops =>
    let rest := runMap (op.onMap m).2 ops
    ((op.onMap m).1 :: rest.1, rest.2)

def runTree (root : BinradixNode α) :
    List (MapOp α) → Except Fault (List (Option α) × BinradixNode α)
  | [] => .ok ([], root)
  | op :: ops => do
    let (ret, root) ← op.onTree root
    let (rets, root) ← runTree root ops
    return (ret :: rets, root)

/-- The tree stores the abstract map. -/
structure Represents (root : BinradixNode α) (m : BitVec 64 → Option α) : Prop where
  wf : root.RootWf
  find : ∀ k, binradixFind root k = m k

theorem represents_new (part : BitVec 64) :
    Represents (binradixNew part : BinradixNode α) fun _ => none := by
  refine ⟨⟨.inl rfl, .inl rfl⟩, ?_⟩
  intro k
  rw [binradixNew, find_eq_of_rootWf]
  split <;> rfl

/-- One call: the tree returns what the map returns, and still stores the map. -/
theorem represents_step {root : BinradixNode α} {m : BitVec 64 → Option α}
    (hrep : Represents root m) {op : MapOp α} (hop : op.Allowed m) :
    ∃ root', op.onTree root = .ok ((op.onMap m).1, root') ∧ Represents root' (op.onMap m).2 := by
  cases op with
  | insert key d =>
    have hfresh : binradixFind root key = none := (hrep.find key).trans hop
    obtain ⟨hret, hwf, hfind⟩ := binradixInsert_spec hrep.wf d hfresh
    refine ⟨(binradixInsert root key d).2, ?_, hwf, ?_⟩
    · rw [MapOp.onTree, MapOp.onMap, ← hret]
    · intro k
      simp only [hfind k, hrep.find, MapOp.onMap]
  | delete key =>
    obtain ⟨d, hd⟩ := Option.ne_none_iff_exists'.1 hop
    obtain ⟨root', hdel, hwf, hfind⟩ := binradixDelete_spec hrep.wf ((hrep.find key).trans hd)
    refine ⟨root', by rw [MapOp.onTree, MapOp.onMap, hdel, hd], hwf, ?_⟩
    intro k
    simp only [hfind k, hrep.find, MapOp.onMap]

theorem represents_run {root : BinradixNode α} {m : BitVec 64 → Option α}
    (hrep : Represents root m) {ops : List (MapOp α)} (hops : Disciplined m ops) :
    ∃ root', runTree root ops = .ok ((runMap m ops).1, root') ∧
      Represents root' (runMap m ops).2 := by
  induction ops generalizing root m with
  | nil => exact ⟨root, rfl, hrep⟩
  | cons op ops ih =>
    obtain ⟨root₁, hstep, hrep₁⟩ := represents_step hrep hops.1
    obtain ⟨root₂, hrun, hrep₂⟩ := ih hrep₁ hops.2
    exact ⟨root₂, by simp [runTree, hstep, hrun, runMap], hrep₂⟩

/-- **The radix tree is a finite map.**  Every insert returns null and every
delete the datum it removes, as the abstract map says, and afterwards every key
is found exactly as in the abstract map. -/
theorem binradix_refines_map (part : BitVec 64) (ops : List (MapOp α))
    (hops : Disciplined (fun _ => none) ops) :
    ∃ root, runTree (binradixNew part) ops = .ok ((runMap (fun _ => none) ops).1, root) ∧
      ∀ k, binradixFind root k = (runMap (fun _ => none) ops).2 k := by
  obtain ⟨root, hrun, hrep⟩ := represents_run (represents_new part) hops
  exact ⟨root, hrun, hrep.find⟩

/-- Two keys that part at bit 63, a split at bit 1, and a merge on the way back. -/
theorem binradix_refines_map_split :
    ∃ root, runTree (binradixNew 7#64)
        [.insert 4#64 1, .insert 6#64 2, .insert 0x8000000000000000#64 3, .delete 4#64] =
        .ok ([none, none, none, some 1], root) ∧
      binradixFind root 6#64 = some 2 ∧ binradixFind root 4#64 = none := by
  obtain ⟨root, hrun, hfind⟩ := binradix_refines_map 7#64
    [.insert 4#64 1, .insert 6#64 2, .insert 0x8000000000000000#64 3, .delete 4#64]
    ⟨by decide, by decide, by decide, by decide, trivial⟩
  refine ⟨root, hrun, ?_, ?_⟩
  · rw [hfind]; decide
  · rw [hfind]; decide

end SadOS
