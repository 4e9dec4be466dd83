import Mathlib.Data.List.Basic
import Mathlib.Logic.Function.Basic
import Mathlib.Tactic.Common

/-!
# Records packed in sectors

Records of one size are packed in sectors of a drive, several in a sector, and are read
and written through a scratch buffer that is longer than a sector.  A record at the end
of a sector may stick out of it.  What sticks out is not on the drive, only in the
buffer.

## Main definitions

* `splice`, `slice` — writes and reads of some bytes of a buffer.
* `Drive` — the drive and the buffer.
* `Table` — the records of one size.
* `Table.Keeps` — the drive has the part of each record that lies in its sector.
* `Table.get_eq_iff` — when a record is read as it was written.
-/

namespace SadOS

variable {α : Type}

/-! ## Bytes of a buffer -/

/-- The bytes `l` at offset `off`. -/
def splice (b : ℕ → α) (off : ℕ) (l : List α) : ℕ → α :=
  fun k => if off ≤ k then (l[k - off]?).getD (b k) else b k

/-- The `n` bytes from offset `off` on. -/
def slice (b : ℕ → α) (off n : ℕ) : List α := (List.range n).map fun k => b (off + k)

@[simp] theorem length_slice (b : ℕ → α) (off n : ℕ) : (slice b off n).length = n := by
  simp [slice]

theorem getElem?_slice (b : ℕ → α) {off n k : ℕ} (hk : k < n) :
    (slice b off n)[k]? = some (b (off + k)) := by
  simp [slice, hk]

theorem splice_of_lt (b : ℕ → α) {off k : ℕ} (l : List α) (hk : k < off) :
    splice b off l k = b k := by
  simp [splice, Nat.not_le.2 hk]

theorem splice_of_le (b : ℕ → α) {off k : ℕ} (l : List α) (hk : off + l.length ≤ k) :
    splice b off l k = b k := by
  have hlen : l.length ≤ k - off := by omega
  simp [splice, hlen]

@[simp] theorem splice_nil (b : ℕ → α) (off : ℕ) : splice b off [] = b := by
  funext k
  simp [splice]

/-- One write after the other. -/
theorem splice_splice (b : ℕ → α) (off : ℕ) (l r : List α) :
    splice (splice b off l) (off + l.length) r = splice b off (l ++ r) := by
  funext k
  rcases Nat.lt_or_ge k (off + l.length) with hk | hk
  · rw [splice_of_lt _ r hk]
    simp only [splice]
    split
    next hoff => rw [List.getElem?_append_left (by omega)]
    next => rfl
  · have hoff : off ≤ k := by omega
    have hlen : l.length ≤ k - off := by omega
    have hsub : k - off - l.length = k - (off + l.length) := by omega
    simp only [splice, if_pos hk, if_pos hoff, List.getElem?_append_right hlen, hsub,
      List.getElem?_eq_none hlen, Option.getD_none]

/-- A write of one element. -/
theorem splice_singleton (b : ℕ → α) (off : ℕ) (x : α) :
    splice b off [x] = Function.update b off x := by
  funext k
  by_cases hk : k = off
  · subst hk
    simp [splice]
  · rw [Function.update_of_ne hk]
    rcases Nat.lt_or_ge k off with hlt | hge
    · exact splice_of_lt b [x] hlt
    · exact splice_of_le b [x] (by rw [List.length_singleton]; omega)

/-- A write that begins with one element. -/
theorem splice_cons (b : ℕ → α) (off : ℕ) (x : α) (l : List α) :
    splice b off (x :: l) = splice (Function.update b off x) (off + 1) l := by
  rw [← splice_singleton, ← List.length_singleton (a := x), splice_splice]
  rfl

/-- Writes that do not overlap, in any order. -/
theorem splice_comm (b : ℕ → α) {off off' : ℕ} {l r : List α}
    (h : off + l.length ≤ off' ∨ off' + r.length ≤ off) :
    splice (splice b off l) off' r = splice (splice b off' r) off l := by
  have haux : ∀ {p q : ℕ} {u v : List α}, p + u.length ≤ q →
      splice (splice b p u) q v = splice (splice b q v) p u := by
    intro p q u v hpq
    funext k
    rcases Nat.lt_or_ge k q with hk | hk
    · rw [splice_of_lt _ v hk]
      simp only [splice, if_neg (Nat.not_le.2 hk)]
    · rw [splice_of_le _ u (by omega)]
      simp only [splice, if_pos hk, List.getElem?_eq_none (show u.length ≤ k - p by omega),
        Option.getD_none, ite_self]
  rcases h with h | h
  · exact haux h
  · exact (haux h).symm

/-- A write whose last element is written first. -/
theorem splice_concat (b : ℕ → α) (off : ℕ) (l : List α) (x : α) :
    splice b off (l ++ [x]) = splice (Function.update b (off + l.length) x) off l := by
  rw [← splice_splice, splice_comm b (.inl (Nat.le_refl _)), splice_singleton]

/-- What was put somewhere is there. -/
theorem slice_splice (b : ℕ → α) (off : ℕ) (l : List α) :
    slice (splice b off l) off l.length = l := by
  apply List.ext_getElem?
  intro k
  rcases Nat.lt_or_ge k l.length with hk | hk
  · rw [getElem?_slice _ hk, List.getElem?_eq_getElem hk]
    simp [splice, hk]
  · simp [slice, hk]

theorem slice_add (b : ℕ → α) (off n k : ℕ) :
    slice b off (n + k) = slice b off n ++ slice b (off + n) k := by
  rw [slice, slice, slice, List.range_add, List.map_append, List.map_map]
  simp only [Function.comp_def, Nat.add_assoc]

theorem slice_congr {b b' : ℕ → α} {off n : ℕ} (h : ∀ k < n, b' (off + k) = b (off + k)) :
    slice b' off n = slice b off n :=
  List.map_congr_left fun k hk => h k (List.mem_range.1 hk)

/-- A change of the buffer that stays between two offsets. -/
def Local (lo hi : ℕ) (f : (ℕ → α) → ℕ → α) : Prop := ∀ b k, k < lo ∨ hi ≤ k → f b k = b k

theorem local_splice {lo hi off : ℕ} {l : List α} (hlo : lo ≤ off) (hhi : off + l.length ≤ hi) :
    Local lo hi fun b => splice b off l := by
  rintro b k (hk | hk)
  · exact splice_of_lt b l (by omega)
  · exact splice_of_le b l (by omega)

theorem Local.comp {lo hi : ℕ} {f g : (ℕ → α) → ℕ → α} (hg : Local lo hi g) (hf : Local lo hi f) :
    Local lo hi fun b => g (f b) :=
  fun b k hk => (hg (f b) k hk).trans (hf b k hk)

theorem Local.foldl {ι : Type} {lo hi : ℕ} {f : ι → (ℕ → α) → ℕ → α} {l : List ι}
    (hf : ∀ i ∈ l, Local lo hi (f i)) : Local lo hi fun b => l.foldl (fun b i => f i b) b := by
  induction l with
  | nil => exact fun _ _ _ => rfl
  | cons i rest ih =>
    exact (ih fun j hj => hf j (List.mem_cons_of_mem i hj)).comp (hf i List.mem_cons_self)

/-! ## The drive -/

/-- The sectors of a drive, and the scratch buffer. -/
structure Drive (α : Type) where
  sector : ℕ → ℕ → α
  buf : ℕ → α

variable {S : ℕ} {d : Drive α}

/-- A sector of length `S` into the buffer. -/
def Drive.load (S : ℕ) (d : Drive α) (i : ℕ) : Drive α :=
  { d with buf := fun k => if k < S then d.sector i k else d.buf k }

/-- The begin of the buffer into a sector. -/
def Drive.store (S : ℕ) (d : Drive α) (i : ℕ) : Drive α :=
  { d with sector := Function.update d.sector i fun k => if k < S then d.buf k else d.sector i k }

/-- A sector is changed by `f`. -/
def Drive.modify (S m : ℕ) (f : (ℕ → α) → ℕ → α) (d : Drive α) : Drive α :=
  { d.load S m with buf := f (d.load S m).buf }.store S m

namespace Drive

variable {m k : ℕ} {f : (ℕ → α) → ℕ → α} {P : ℕ → (ℕ → α) → Prop} {Q : (ℕ → α) → Prop}

@[simp] theorem sector_load (d : Drive α) (m : ℕ) : (d.load S m).sector = d.sector := rfl

theorem buf_load_of_lt (h : k < S) : (d.load S m).buf k = d.sector m k := if_pos h

theorem buf_load_of_le (h : S ≤ k) : (d.load S m).buf k = d.buf k := if_neg (Nat.not_lt.2 h)

@[simp] theorem buf_modify : (d.modify S m f).buf = f (d.load S m).buf := rfl

theorem sector_modify_of_ne {m' : ℕ} (h : m' ≠ m) : (d.modify S m f).sector m' = d.sector m' := by
  simp [modify, store, h]

theorem sector_modify_of_lt (h : k < S) :
    (d.modify S m f).sector m k = f (d.load S m).buf k := by
  simp [modify, store, h]

/-- Properties of the sectors, and of the buffer behind them, are kept by changes that keep them
in the buffer. -/
theorem modify_induction (hP : ∀ m b b', (∀ k < S, b' k = b k) → P m b → P m b')
    (hQ : ∀ b b', (∀ k, S ≤ k → b' k = b k) → Q b → Q b')
    (hf : ∀ b, P m b → Q b → P m (f b) ∧ Q (f b)) (h : (∀ m, P m (d.sector m)) ∧ Q d.buf) :
    (∀ m', P m' ((d.modify S m f).sector m')) ∧ Q (d.modify S m f).buf := by
  obtain ⟨hsector, hbuf⟩ := hf (d.load S m).buf
    (hP m _ _ (fun k hk => buf_load_of_lt hk) (h.1 m))
    (hQ _ _ (fun k hk => buf_load_of_le hk) h.2)
  refine ⟨fun m' => ?_, hbuf⟩
  by_cases heq : m' = m
  · subst heq
    exact hP _ _ _ (fun k hk => sector_modify_of_lt hk) hsector
  · rw [sector_modify_of_ne heq]
    exact h.1 m'

end Drive

/-- Records of length `size`, `per` of them in a sector, from the sector `start` on. -/
structure Table where
  start : ℕ
  per : ℕ
  size : ℕ

namespace Table

variable {t : Table} {i j n : ℕ} {last : ℕ → List α} {f : (ℕ → α) → ℕ → α}

/-- The sector of a record. -/
def block (t : Table) (i : ℕ) : ℕ := t.start + i / t.per

/-- The offset of a record. -/
def off (t : Table) (i : ℕ) : ℕ := i % t.per * t.size

/-- A record is read. -/
def get (S : ℕ) (t : Table) (i : ℕ) (d : Drive α) : List α × Drive α :=
  let d := d.load S (t.block i)
  (slice d.buf (t.off i) t.size, d)

/-- A record is changed by `f`. -/
def modify (S : ℕ) (t : Table) (i : ℕ) (f : (ℕ → α) → ℕ → α) (d : Drive α) : Drive α :=
  let d := d.load S (t.block i)
  { d with buf := f d.buf }.store S (t.block i)

/-- The record that `modify` writes. -/
def modified (S : ℕ) (t : Table) (i : ℕ) (f : (ℕ → α) → ℕ → α) (d : Drive α) : List α :=
  slice (f (d.load S (t.block i)).buf) (t.off i) t.size

/-- The drive has the records `last`, as far as they lie in their sectors. -/
def Keeps (S : ℕ) (t : Table) (n : ℕ) (last : ℕ → List α) (d : Drive α) : Prop :=
  ∀ i < n, (last i).length = t.size ∧
    ∀ k < t.size, t.off i + k < S → (last i)[k]? = some (d.sector (t.block i) (t.off i + k))

/-- The rest of record `i` is in the buffer. -/
def Overhang (S : ℕ) (t : Table) (i : ℕ) (l : List α) (d : Drive α) : Prop :=
  ∀ k < t.size, S ≤ t.off i + k → l[k]? = some (d.buf (t.off i + k))

/-- A record is read as it was written if and only if its rest is in the buffer. -/
theorem get_eq_iff (h : t.Keeps S n last d) (hi : i < n) :
    (t.get S i d).1 = last i ↔ t.Overhang S i (last i) d := by
  obtain ⟨hlen, hin⟩ := h i hi
  constructor
  · intro heq k hk hS
    rw [← heq, get, getElem?_slice _ hk]
    simp [Drive.load, Nat.not_lt.2 hS]
  · intro hover
    apply List.ext_getElem?
    intro k
    rcases Nat.lt_or_ge k t.size with hk | hk
    · rw [get, getElem?_slice _ hk]
      rcases Nat.lt_or_ge (t.off i + k) S with hS | hS
      · rw [hin k hk hS]
        simp [Drive.load, hS]
      · rw [hover k hk hS]
        simp [Drive.load, Nat.not_lt.2 hS]
    · rw [List.getElem?_eq_none (by simpa [get] using hk), List.getElem?_eq_none (by omega)]

/-- A record inside its sector has no rest. -/
theorem overhang_of_le (h : t.off i + t.size ≤ S) (l : List α) : t.Overhang S i l d :=
  fun k hk hS => absurd hS (by omega)

theorem Keeps.load (h : t.Keeps S n last d) (m : ℕ) : t.Keeps S n last (d.load S m) := h

/-- Sectors without records of the table may change. -/
theorem Keeps.congr (h : t.Keeps S n last d) {d' : Drive α}
    (heq : ∀ i < n, d'.sector (t.block i) = d.sector (t.block i)) : t.Keeps S n last d' := by
  intro i hi
  obtain ⟨hlen, hin⟩ := h i hi
  refine ⟨hlen, fun k hk hS => ?_⟩
  rw [heq i hi]
  exact hin k hk hS

/-- Records of one sector do not overlap. -/
theorem off_disjoint (hb : t.block i = t.block j) (hij : i ≠ j) :
    t.off i + t.size ≤ t.off j ∨ t.off j + t.size ≤ t.off i := by
  have hdiv : i / t.per = j / t.per := Nat.add_left_cancel hb
  have hmod : i % t.per ≠ j % t.per := by
    intro hmod
    apply hij
    rw [← Nat.div_add_mod i t.per, ← Nat.div_add_mod j t.per, hdiv, hmod]
  rcases Nat.lt_or_gt_of_ne hmod with h | h
  · left
    calc t.off i + t.size = (i % t.per + 1) * t.size := (Nat.succ_mul _ _).symm
      _ ≤ t.off j := Nat.mul_le_mul_right _ h
  · right
    calc t.off j + t.size = (j % t.per + 1) * t.size := (Nat.succ_mul _ _).symm
      _ ≤ t.off i := Nat.mul_le_mul_right _ h

/-- A record changes, the others stay. -/
theorem Keeps.modify (h : t.Keeps S n last d) (hf : Local (t.off i) (t.off i + t.size) f) :
    t.Keeps S n (Function.update last i (t.modified S i f d)) (t.modify S i f d) := by
  intro j hj
  obtain ⟨hlen, hin⟩ := h j hj
  by_cases hij : j = i
  · subst hij
    rw [Function.update_self]
    refine ⟨length_slice _ _ _, fun k hk hS => ?_⟩
    rw [modified, getElem?_slice _ hk]
    simp [Table.modify, Drive.store, hS]
  · rw [Function.update_of_ne hij]
    refine ⟨hlen, fun k hk hS => ?_⟩
    rw [hin k hk hS]
    by_cases hb : t.block j = t.block i
    · have hout : t.off j + k < t.off i ∨ t.off i + t.size ≤ t.off j + k := by
        rcases off_disjoint hb hij with h | h <;> omega
      simp [Table.modify, Drive.store, hb, hS, hf _ _ hout, Drive.load]
    · simp [Table.modify, Drive.store, hb, Drive.load]

theorem sector_modify {m : ℕ} (hm : m ≠ t.block i) :
    (t.modify S i f d).sector m = d.sector m := by
  simp [Table.modify, Drive.store, Drive.load, hm]

end Table

end SadOS
