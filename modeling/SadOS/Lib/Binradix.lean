import SadOS.Machine

/-!
# The fixed-length binary radix tree

`sys/lib/binradix.c`.  A node consumes a segment of `len` key bits, the bits of
`part` at and below the offset at which the walk meets the node; the bits of
`part` outside the segment are whatever earlier splits and merges left there.
The next bit chooses the child, and the segment of the child includes that bit.
The root has an empty segment.

Pointers to nodes are never shared, so a tree is an inductive value and an
update in place is an update of that value.

## Main definitions

* `BinradixNode` — `struct binradix_node`, with `null` for the null pointer.
* `binradixFind`, `binradixInsert`, `binradixDelete` — the operations.
* `BinradixNode.Wf` — what the operations keep true of a node met at an offset.
-/

namespace SadOS

/-- A pointer to a `struct binradix_node`.  `data` is null at every node that is
not a leaf; the pool that the root keeps there is not an entry of the tree. -/
inductive BinradixNode (α : Type) where
  | null
  | node (next0 next1 : BinradixNode α) (data : Option α) (part : BitVec 64) (len : ℕ)
  deriving DecidableEq, Repr

variable {α : Type}

/-- `__builtin_clzll`, the number of zeros above the highest set bit. -/
def hibit (x : BitVec 64) : ℕ := 63 - x.toNat.log2

/-- The bits in which `a` and `b` differ, among the `nbit` bits from `off` down. -/
def bincmp (a b : BitVec 64) (off nbit : ℕ) : BitVec 64 :=
  let x := (a ^^^ b) &&& ((2#64 <<< off) - 1#64)
  if off < nbit + 63 then x &&& ~~~((1#64 <<< (off + 1 - nbit)) - 1#64) else 0#64

def bineq (a b : BitVec 64) (off nbit : ℕ) : Bool :=
  nbit == 0 || bincmp a b off nbit == 0#64

/-- The loop of `binradix_find`, from the node `now` met at offset `keyOff`. -/
def binradixFindFrom : BinradixNode α → BitVec 64 → ℕ → Option α
  | .null, _, _ => none
  | .node next0 next1 data part len, key, keyOff =>
    if bineq part key keyOff len then
      if len ≤ keyOff then
        if key.getLsbD (keyOff - len) then binradixFindFrom next1 key (keyOff - len)
        else binradixFindFrom next0 key (keyOff - len)
      else data
    else none

def binradixFind (root : BinradixNode α) (key : BitVec 64) : Option α :=
  binradixFindFrom root key 63

/-- A new leaf for the bits of `key` from `len - 1` down. -/
def binradixLeaf (key : BitVec 64) (data : α) (len : ℕ) : BinradixNode α :=
  .node .null .null (some data) key len

/-- The `int` offset of `binradix_insert` as the `uint8_t` argument of `bincmp`. -/
def toU8 (x : ℤ) : ℕ := (x % 256).toNat

/-- The loop of `binradix_insert`, from `now` met at `keyOff`, with the mask
`keyOffS` of that bit.  Shift counts are taken modulo 64.  A null child is where
the new leaf goes.  Returns the datum of a duplicate, and the tree. -/
def binradixInsertFrom (key : BitVec 64) (data : α) :
    BinradixNode α → BitVec 64 → ℤ → Option α × BinradixNode α
  | .null, _, keyOff => (none, binradixLeaf key data (keyOff + 1).toNat)
  | .node next0 next1 old part len, keyOffS, keyOff =>
    let x := bincmp part key (toU8 keyOff) len
    if x ≠ 0#64 then
      let hb : ℤ := 63 - hibit x
      let n := (keyOff - hb).toNat
      let bit := key &&& (keyOffS >>> (n % 64)) ≠ 0#64
      let rest := .node next0 next1 old part (len - n)
      let new := binradixLeaf key data (hb + 1).toNat
      -- the old node keeps its address and its `part`, the new copy its children
      if bit then (none, .node rest new none part n) else (none, .node new rest none part n)
    else
      let keyOffS := keyOffS >>> (len % 64)
      let keyOff := keyOff - len
      let bit := key &&& keyOffS ≠ 0#64
      if keyOffS = 0#64 then (old, .node next0 next1 old part len)
      else if bit then
        let r := binradixInsertFrom key data next1 keyOffS keyOff
        (r.1, .node next0 r.2 old part len)
      else
        let r := binradixInsertFrom key data next0 keyOffS keyOff
        (r.1, .node r.2 next1 old part len)

def binradixInsert (root : BinradixNode α) (key : BitVec 64) (data : α) :
    Option α × BinradixNode α :=
  binradixInsertFrom key data root (1#64 <<< 63) 63

/-- Where the walk of `binradix_delete` stopped, as seen from a node on it. -/
inductive DeleteStop (α : Type) where
  /-- The segment of a node differs from the key. -/
  | absent
  /-- The walk ran into a null child. -/
  | null
  /-- The walk ended at this very node, a leaf with this datum. -/
  | leaf (ret : Option α)
  /-- The leaf was unlinked below, and this is the node afterwards. -/
  | done (ret : Option α) (now : BinradixNode α)
  | fault (e : Fault)

/-- `parent` takes over the segment, the children and the datum of the child
that remains when the other one is unlinked at `keyOff`. -/
def binradixMerge (part : BitVec 64) (len keyOff : ℕ) (ret : Option α) :
    BinradixNode α → DeleteStop α
  | .null => .fault .nullDeref
  | .node m0 m1 mdata mpart mlen =>
    let mask := (2#64 <<< keyOff) - 1#64
    .done ret (.node m0 m1 mdata ((part &&& ~~~mask) ||| (mpart &&& mask)) (len + mlen))

/-- The walk of `binradix_delete` below the root, from `now` met at `keyOff`. -/
def binradixDeleteFrom (key : BitVec 64) : BinradixNode α → ℕ → DeleteStop α
  | .null, _ => .null
  | .node next0 next1 data part len, keyOff =>
    if bineq part key keyOff len then
      if keyOff < len then .leaf data
      else if key.getLsbD (keyOff - len) then
        match binradixDeleteFrom key next1 (keyOff - len) with
        | .leaf ret => binradixMerge part len (keyOff - len) ret next0
        | .done ret now => .done ret (.node next0 now data part len)
        | stop => stop
      else
        match binradixDeleteFrom key next0 (keyOff - len) with
        | .leaf ret => binradixMerge part len (keyOff - len) ret next1
        | .done ret now => .done ret (.node now next1 data part len)
        | stop => stop
    else .absent

/-- The root never merges.  A walk that runs off the tree has `now` null, and
the code then reads `now->data`. -/
def binradixDelete (root : BinradixNode α) (key : BitVec 64) :
    Except Fault (Option α × BinradixNode α) :=
  match root with
  | .null => .error .nullDeref
  | .node next0 next1 data part len =>
    if bineq part key 63 len then
      if 63 < len then .error .nullDeref
      else
        let side := key.getLsbD (63 - len)
        match binradixDeleteFrom key (if side then next1 else next0) (63 - len) with
        | .absent => .ok (none, root)
        | .null => .error .nullDeref
        | .leaf ret =>
          .ok (ret, if side then .node next0 .null data part len
            else .node .null next1 data part len)
        | .done ret now =>
          .ok (ret, if side then .node next0 now data part len
            else .node now next1 data part len)
        | .fault e => .error e
    else .ok (none, root)

/-- `binradix_new`.  The `part` of the root is not initialised. -/
def binradixNew (part : BitVec 64) : BinradixNode α := .node .null .null none part 0

/-! ## Bits of a segment -/

/-- Bit `i` of the mask of the `m` low bits. -/
theorem getLsbD_lowMask {m : ℕ} (hm : m ≤ 64) (i : ℕ) :
    ((1#64 <<< m) - 1#64).getLsbD i = decide (i < m) := by
  have hnat : ((1#64 <<< m) - 1#64).toNat = 2 ^ m - 1 := by
    rw [BitVec.toNat_sub, BitVec.toNat_shiftLeft]
    simp only [BitVec.toNat_ofNat, Nat.shiftLeft_eq]
    have hpos : 0 < 2 ^ m := Nat.two_pow_pos _
    rcases Nat.lt_or_ge m 64 with h | h
    · have : 2 ^ m ≤ 2 ^ 63 := Nat.pow_le_pow_right (by decide) (by omega)
      omega
    · obtain rfl : m = 64 := by omega
      decide
  rw [← BitVec.testBit_toNat, hnat, Nat.testBit_two_pow_sub_one]

theorem shiftLeft_two (off : ℕ) : 2#64 <<< off = 1#64 <<< (off + 1) := by
  rw [Nat.add_comm, BitVec.shiftLeft_add]
  rfl

/-- The bits of `b` below `m`, and those of `a` above. -/
def joinBits (m : ℕ) (a b : BitVec 64) : BitVec 64 :=
  (a &&& ~~~((1#64 <<< m) - 1#64)) ||| (b &&& ((1#64 <<< m) - 1#64))

theorem getLsbD_joinBits {m : ℕ} (hm : m ≤ 64) (a b : BitVec 64) {i : ℕ} (hi : i < 64) :
    (joinBits m a b).getLsbD i = if i < m then b.getLsbD i else a.getLsbD i := by
  rw [joinBits, BitVec.getLsbD_or, BitVec.getLsbD_and, BitVec.getLsbD_and, BitVec.getLsbD_not,
    getLsbD_lowMask hm]
  by_cases h : i < m <;> simp [h, hi]

/-- `bincmp` is the exclusive or, cut to the segment. -/
theorem getLsbD_bincmp {off : ℕ} (hoff : off ≤ 63) (nbit : ℕ) (a b : BitVec 64) (i : ℕ) :
    (bincmp a b off nbit).getLsbD i =
      (decide (i ≤ off) && decide (off < i + nbit) && (a.getLsbD i ^^ b.getLsbD i)) := by
  by_cases hlt : off < nbit + 63
  · simp only [bincmp, hlt, if_true, shiftLeft_two, BitVec.getLsbD_and, BitVec.getLsbD_xor,
      BitVec.getLsbD_not, getLsbD_lowMask (show off + 1 ≤ 64 by omega),
      getLsbD_lowMask (show off + 1 - nbit ≤ 64 by omega)]
    by_cases hi : i ≤ off <;> by_cases hn : off < i + nbit <;> simp [hi, hn] <;>
      grind
  · -- only an empty segment at bit 63 skips the second mask
    simp only [bincmp, hlt, if_false, BitVec.getLsbD_zero]
    by_cases hi : i ≤ off <;> by_cases hn : off < i + nbit <;> simp [hi, hn]
    omega

theorem bineq_iff {off nbit : ℕ} (hoff : off ≤ 63) (a b : BitVec 64) :
    bineq a b off nbit = true ↔
      ∀ i, i ≤ off → off < i + nbit → a.getLsbD i = b.getLsbD i := by
  rcases Nat.eq_zero_or_pos nbit with rfl | hpos
  · simp only [bineq, beq_self_eq_true, Bool.true_or, true_iff]
    omega
  · have hne : (nbit == 0) = false := by simp; omega
    simp only [bineq, hne, Bool.false_or, beq_iff_eq]
    constructor
    · intro h i hi hn
      have hbit := getLsbD_bincmp hoff nbit a b i
      simpa [h, hi, hn] using hbit
    · intro h
      apply BitVec.eq_of_getLsbD_eq
      intro i _
      rw [getLsbD_bincmp hoff]
      by_cases hi : i ≤ off <;> by_cases hn : off < i + nbit <;> simp [hi, hn, h i]

/-- `63 - hibit x` is the highest set bit of `x`. -/
theorem hibit_spec {x : BitVec 64} (hx : x ≠ 0#64) :
    hibit x ≤ 63 ∧ x.getLsbD (63 - hibit x) = true ∧
      ∀ i, 63 - hibit x < i → x.getLsbD i = false := by
  have hnat : x.toNat ≠ 0 := by
    intro h
    exact hx (BitVec.eq_of_toNat_eq (by simpa using h))
  have hlog : x.toNat.log2 < 64 := (Nat.log2_lt hnat).2 x.isLt
  have heq : 63 - hibit x = x.toNat.log2 := by unfold hibit; omega
  refine ⟨by unfold hibit; omega, ?_, ?_⟩
  · rw [heq, ← BitVec.testBit_toNat]
    exact Nat.testBit_log2 hnat
  · intro i hi
    rw [heq] at hi
    rw [← BitVec.testBit_toNat]
    apply Nat.testBit_lt_two_pow
    exact (Nat.log2_lt hnat).1 hi

end SadOS
