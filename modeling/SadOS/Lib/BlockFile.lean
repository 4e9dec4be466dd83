import SadOS.Lib.Packed

/-!
# Files in blocks

A file has its bytes in sectors of a drive, of one length and in an order of its own.  A
transfer is cut where the sectors end, and each part goes through the buffer.

## Main definitions

* `Drive.patch` — some bytes of a sector are changed.
* `Drive.fileByte` — the bytes of a file.
* `overwrite` — a list with some bytes changed, or added at its end.

## Main results

* `Drive.fileByte_patch`, `Drive.slice_load` — a part of a transfer.
* `slice_splice_eq_overwrite` — the file behind all parts.
-/

namespace SadOS

variable {α : Type} {S : ℕ} {d : Drive α} {i m n off : ℕ} {l : List α} {β : ℕ → ℕ}

/-! ## Transfers -/

section cut

variable {p k : ℕ}

/-- The parts of a transfer of `n` bytes from the place `p` on, with `k` whole blocks. -/
theorem transfer_parts (hS : 0 < S) (hk : (p + n) / S = p / S + 1 + k) :
    p + (S - p % S) = (p / S + 1) * S ∧ (p / S + 1) * S + k * S = (p + n) / S * S ∧
      S - p % S + k * S + (p + n) % S = n := by
  have hp := Nat.div_add_mod' p S
  have hpn := Nat.div_add_mod' (p + n) S
  have hmod := Nat.mod_lt p hS
  have hsucc : (p / S + 1) * S = p / S * S + S := Nat.succ_mul _ S
  have hlast : (p / S + 1) * S + k * S = (p + n) / S * S := by rw [hk, ← Nat.add_mul]
  exact ⟨by omega, hlast, by omega⟩

theorem slice_parts (hS : 0 < S) (hk : (p + n) / S = p / S + 1 + k) (b : ℕ → α) :
    slice b p n = slice b p (S - p % S) ++ slice b ((p / S + 1) * S) (k * S) ++
      slice b ((p + n) / S * S) ((p + n) % S) := by
  obtain ⟨hhead, hmiddle, hlen⟩ := transfer_parts hS hk
  rw [← hmiddle, ← hhead, ← slice_add, Nat.add_assoc, ← slice_add, hlen]

/-- A part of a part. -/
theorem take_drop_slice (b : ℕ → α) (n p k : ℕ) :
    ((slice b 0 n).drop p).take k = slice b p (min k (n - p)) := by
  refine List.ext_getElem? fun i => ?_
  rcases Nat.lt_or_ge i (min k (n - p)) with hi | hi
  · rw [List.getElem?_take_of_lt (by omega), List.getElem?_drop, getElem?_slice b (by omega),
      getElem?_slice b hi, Nat.zero_add]
  · rw [List.getElem?_eq_none, List.getElem?_eq_none (by rw [length_slice]; exact hi)]
    rw [List.length_take, List.length_drop, length_slice]
    exact hi

end cut

/-- Writes to equal bytes. -/
theorem splice_congr {b b' : ℕ → α} {k : ℕ} (h : b' k = b k) :
    splice b' off l k = splice b off l k := by
  rw [splice, splice, h]

/-- Where the list is written. -/
theorem splice_eq_getElem (b : ℕ → α) {k : ℕ} (hk : off ≤ k) (hlt : k - off < l.length) :
    splice b off l k = l[k - off] := by
  rw [splice, if_pos hk, List.getElem?_eq_getElem hlt, Option.getD_some]

namespace Drive

/-- The bytes `l` at the offset `off` of a sector. -/
def patch (S : ℕ) (d : Drive α) (i off : ℕ) (l : List α) : Drive α :=
  let d := d.load S i
  { d with buf := splice d.buf off l }.store S i

theorem sector_patch_of_ne (hm : m ≠ i) : (d.patch S i off l).sector m = d.sector m :=
  Function.update_of_ne hm ..

theorem sector_patch {k : ℕ} (hk : k < S) :
    (d.patch S i off l).sector i k = splice (d.sector i) off l k := by
  refine (congrFun (Function.update_self i _ d.sector) k).trans ?_
  rw [if_pos hk]
  exact splice_congr (if_pos hk)

/-- What is read back. -/
theorem slice_patch (h : off + l.length ≤ S) :
    slice ((d.patch S i off l).sector i) off l.length = l := by
  have hcongr : ∀ k < l.length, (d.patch S i off l).sector i (off + k) =
      splice (d.sector i) off l (off + k) := fun k hk => sector_patch (by omega)
  rw [slice_congr hcongr, slice_splice]

/-- The byte `k` of a file with the blocks `β`. -/
def fileByte (S : ℕ) (d : Drive α) (β : ℕ → ℕ) (k : ℕ) : α := d.sector (β (k / S)) (k % S)

/-- A file whose blocks do not change. -/
theorem fileByte_congr {d' : Drive α} {k : ℕ}
    (h : d'.sector (β (k / S)) = d.sector (β (k / S))) :
    d'.fileByte S β k = d.fileByte S β k := by
  rw [fileByte, fileByte, h]

/-- A write to a block is a write to the file. -/
theorem fileByte_patch (hS : 0 < S) (hinj : ∀ j < n, β j = β i → j = i)
    (hoff : off + l.length ≤ S) {k : ℕ} (hk : k / S < n) :
    (d.patch S (β i) off l).fileByte S β k = splice (d.fileByte S β) (i * S + off) l k := by
  have hdiv := Nat.div_add_mod' k S
  have hmod := Nat.mod_lt k hS
  by_cases hj : k / S = i
  · subst hj
    rw [fileByte, sector_patch hmod, splice, splice, fileByte,
      show k % S - off = k - (k / S * S + off) by omega]
    exact if_congr (by omega) rfl rfl
  · rw [fileByte, sector_patch_of_ne fun h => hj (hinj _ hk h), ← fileByte]
    rcases Nat.lt_or_gt_of_ne hj with hlt | hgt
    · have hle : (k / S + 1) * S ≤ i * S := Nat.mul_le_mul_right S hlt
      rw [Nat.succ_mul] at hle
      rw [splice_of_lt _ l (by omega)]
    · have hle : (i + 1) * S ≤ k / S * S := Nat.mul_le_mul_right S hgt
      rw [Nat.succ_mul] at hle
      rw [splice_of_le _ l (by omega)]

/-- A read of a part of a block. -/
theorem slice_load (hn : off + n ≤ S) :
    slice (d.load S (β i)).buf off n = slice (d.fileByte S β) (i * S + off) n := by
  refine List.map_congr_left fun k hk => ?_
  have hlt : off + k < S := by
    have hk := List.mem_range.1 hk
    omega
  have hdiv : (i * S + off + k) / S = i := by
    rw [Nat.add_assoc, Nat.add_comm, Nat.add_mul_div_right _ _ (by omega), Nat.div_eq_of_lt hlt,
      Nat.zero_add]
  have hmod : (i * S + off + k) % S = off + k := by
    rw [Nat.add_assoc, Nat.add_comm, Nat.add_mul_mod_self_right, Nat.mod_eq_of_lt hlt]
  rw [fileByte, hdiv, hmod]
  exact if_pos hlt

end Drive

/-- The list `c` with `l` from the place `p` on. -/
def overwrite (c : List α) (p : ℕ) (l : List α) : List α := c.take p ++ l ++ c.drop (p + l.length)

theorem length_overwrite (c : List α) {p : ℕ} (hp : p ≤ c.length) (l : List α) :
    (overwrite c p l).length = max c.length (p + l.length) := by
  rw [overwrite, List.length_append, List.length_append, List.length_take, List.length_drop]
  omega

theorem slice_splice_eq_overwrite (b : ℕ → α) {p L : ℕ} (hp : p ≤ L) (l : List α) :
    slice (splice b p l) 0 (max L (p + l.length)) = overwrite (slice b 0 L) p l := by
  have hlen : ((slice b 0 L).take p).length = p := by rw [List.length_take, length_slice]; omega
  refine List.ext_getElem? fun k => ?_
  rw [overwrite, List.append_assoc]
  rcases Nat.lt_or_ge k (max L (p + l.length)) with hk | hk
  · rw [getElem?_slice _ hk, Nat.zero_add]
    rcases Nat.lt_or_ge k p with hkp | hkp
    · rw [splice_of_lt _ l hkp, List.getElem?_append_left (by omega),
        List.getElem?_take_of_lt hkp, getElem?_slice b (by omega), Nat.zero_add]
    rw [List.getElem?_append_right (by omega), hlen]
    rcases Nat.lt_or_ge k (p + l.length) with hkl | hkl
    · rw [List.getElem?_append_left (by omega), splice_eq_getElem b hkp (by omega),
        List.getElem?_eq_getElem (by omega)]
    · rw [List.getElem?_append_right (by omega), List.getElem?_drop,
        show p + l.length + (k - p - l.length) = k by omega, splice_of_le _ l hkl,
        getElem?_slice b (by omega), Nat.zero_add]
  · rw [List.getElem?_eq_none (by rw [length_slice]; exact hk), List.getElem?_eq_none]
    rw [List.length_append, List.length_append, hlen, List.length_drop, length_slice]
    omega

end SadOS
