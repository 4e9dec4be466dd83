import Mathlib.Data.List.Basic
import Mathlib.Tactic.Common
import Mathlib.Tactic.Ring

/-!
# Bytes in memory

A memory is a range of addresses and their bytes.  Loads and stores outside the range
return nothing.  Words are little endian, strings end with a zero byte, and an array of
strings is an array of addresses that ends with a null address.

## Main definitions

* `ByteMem`, `ByteMem.load`, `ByteMem.storeAll` — the memory and accesses to it.
* `ByteMem.Holds` — some bytes stand at an address.
* `leBytes`, `leValue` — words as bytes.
* `ByteMem.cstring`, `ByteMem.stringArray` — strings, and arrays of them.
* `ByteMem.Points` — an array of addresses of strings that follow each other.
-/

namespace SadOS

/-- The bytes at the addresses from `lo` on, before `hi`. -/
structure ByteMem where
  lo : ℤ
  hi : ℤ
  bytes : ℤ → UInt8

/-! ## Words -/

/-- The `w` low bytes of a number, the lowest first. -/
def leBytes : ℕ → ℕ → List UInt8
  | 0, _ => []
  | w + 1, x => UInt8.ofNat x :: leBytes w (x / 256)

def leValue : List UInt8 → ℕ
  | [] => 0
  | b :: rest => b.toNat + 256 * leValue rest

@[simp] theorem leBytes_zero (x : ℕ) : leBytes 0 x = [] := rfl

@[simp] theorem leBytes_succ (w x : ℕ) :
    leBytes (w + 1) x = UInt8.ofNat x :: leBytes w (x / 256) := rfl

@[simp] theorem length_leBytes (w x : ℕ) : (leBytes w x).length = w := by
  induction w generalizing x with
  | zero => rfl
  | succ w ih => rw [leBytes_succ, List.length_cons, ih]

theorem leValue_leBytes {w x : ℕ} (h : x < 256 ^ w) : leValue (leBytes w x) = x := by
  induction w generalizing x with
  | zero =>
    rw [pow_zero, Nat.lt_one_iff] at h
    rw [h]
    rfl
  | succ w ih =>
    have hx : x / 256 < 256 ^ w := by
      rw [pow_succ] at h
      exact Nat.div_lt_of_lt_mul (by omega)
    rw [leBytes_succ, leValue, ih hx, UInt8.toNat_ofNat']
    omega

namespace ByteMem

variable {m m' : ByteMem} {a b : ℤ} {l r : List UInt8}

/-! ## Accesses -/

def load (m : ByteMem) (a : ℤ) : Option UInt8 :=
  if m.lo ≤ a ∧ a < m.hi then some (m.bytes a) else none

/-- The bytes of a list stored one after the other, the first at `a`. -/
def storeAll (m : ByteMem) (a : ℤ) : List UInt8 → Option ByteMem
  | [] => some m
  | x :: rest =>
    if m.lo ≤ a ∧ a < m.hi then
      storeAll { m with bytes := Function.update m.bytes a x } (a + 1) rest
    else none

def loadAll (m : ByteMem) (a : ℤ) : ℕ → Option (List UInt8)
  | 0 => some []
  | n + 1 => do
    let x ← m.load a
    let rest ← loadAll m (a + 1) n
    return x :: rest

/-- The bytes of `l` stand at `a`. -/
def Holds (m : ByteMem) (a : ℤ) : List UInt8 → Prop
  | [] => True
  | x :: rest => m.load a = some x ∧ m.Holds (a + 1) rest

@[simp] theorem holds_nil : m.Holds a [] := trivial

@[simp] theorem holds_cons {x : UInt8} :
    m.Holds a (x :: l) ↔ m.load a = some x ∧ m.Holds (a + 1) l := Iff.rfl

theorem holds_append : m.Holds a (l ++ r) ↔ m.Holds a l ∧ m.Holds (a + l.length) r := by
  induction l generalizing a with
  | nil => simp
  | cons x l ih =>
    rw [List.cons_append, holds_cons, holds_cons, ih, and_assoc, List.length_cons]
    have hlen : a + 1 + (l.length : ℤ) = a + ((l.length + 1 : ℕ) : ℤ) := by
      push_cast
      ring
    rw [hlen]

/-- Two memories with the same range and the same bytes between two addresses. -/
structure SameOn (m m' : ByteMem) (P : ℤ → Prop) : Prop where
  lo : m'.lo = m.lo
  hi : m'.hi = m.hi
  bytes : ∀ x, P x → m'.bytes x = m.bytes x

namespace SameOn

variable {P Q : ℤ → Prop} {m'' : ByteMem}

theorem refl (m : ByteMem) (P : ℤ → Prop) : SameOn m m P := ⟨rfl, rfl, fun _ _ => rfl⟩

theorem trans (h : SameOn m m' P) (h' : SameOn m' m'' P) : SameOn m m'' P :=
  ⟨h'.lo.trans h.lo, h'.hi.trans h.hi, fun x hx => (h'.bytes x hx).trans (h.bytes x hx)⟩

theorem mono (h : SameOn m m' P) (hPQ : ∀ x, Q x → P x) : SameOn m m' Q :=
  ⟨h.lo, h.hi, fun x hx => h.bytes x (hPQ x hx)⟩

theorem load (h : SameOn m m' P) (ha : P a) : m'.load a = m.load a := by
  rw [ByteMem.load, ByteMem.load, h.lo, h.hi, h.bytes a ha]

theorem holds (h : SameOn m m' P) (hl : m.Holds a l) (ha : ∀ x, a ≤ x → x < a + l.length → P x) :
    m'.Holds a l := by
  induction l generalizing a with
  | nil => trivial
  | cons x l ih =>
    rw [List.length_cons] at ha
    refine ⟨?_, ih hl.2 fun y hy hy' => ha y (by omega) (by push_cast; omega)⟩
    rw [h.load (ha a le_rfl (by push_cast; omega))]
    exact hl.1

end SameOn

/-- Stores in the range of the memory. -/
theorem storeAll_spec (hlo : m.lo ≤ a) (hhi : a + l.length ≤ m.hi) :
    ∃ m', m.storeAll a l = some m' ∧ SameOn m m' (fun x => x < a ∨ a + l.length ≤ x) ∧
      m'.Holds a l := by
  induction l generalizing m a with
  | nil => exact ⟨m, rfl, SameOn.refl m _, trivial⟩
  | cons x l ih =>
    rw [List.length_cons] at hhi
    push_cast at hhi
    obtain ⟨m₁, hm₁⟩ : ∃ m₁ : ByteMem, m₁ = { m with bytes := Function.update m.bytes a x } := ⟨_, rfl⟩
    have hsame₁ : SameOn m m₁ (fun y => y ≠ a) := by
      rw [hm₁]
      exact ⟨rfl, rfl, fun y hy => Function.update_of_ne hy _ _⟩
    have hload : m₁.load a = some x := by
      rw [hm₁, load, if_pos ⟨hlo, by simp only; omega⟩]
      exact congrArg some (Function.update_self ..)
    obtain ⟨m', hm', hsame', hholds'⟩ := ih (m := m₁) (a := a + 1) (by rw [hsame₁.lo]; omega)
      (by rw [hsame₁.hi]; omega)
    refine ⟨m', ?_, (hsame₁.mono fun y hy => ?_).trans (hsame'.mono fun y hy => ?_), ?_, hholds'⟩
    · rw [storeAll, if_pos ⟨hlo, by omega⟩, ← hm₁, hm']
    · simp only [List.length_cons] at hy
      push_cast at hy
      omega
    · simp only [List.length_cons] at hy
      push_cast at hy
      omega
    · rw [hsame'.load (.inl (by omega)), hload]

/-- Stores that succeed begin in the range. -/
theorem lo_le_of_storeAll (h : m.storeAll a l = some m') (hl : l ≠ []) : m.lo ≤ a := by
  cases l with
  | nil => exact absurd rfl hl
  | cons x l =>
    rw [storeAll] at h
    split at h
    · rename_i hin
      exact hin.1
    · cases h

/-- Stores that succeed end in the range. -/
theorem end_le_of_storeAll (h : m.storeAll a l = some m') (hl : l ≠ []) :
    a + l.length ≤ m.hi := by
  induction l generalizing m a with
  | nil => exact absurd rfl hl
  | cons x l ih =>
    rw [storeAll] at h
    split at h
    · rename_i hin
      rw [List.length_cons]
      push_cast
      cases l with
      | nil =>
        rw [List.length_nil]
        push_cast
        omega
      | cons y l =>
        have hend := ih h (List.cons_ne_nil y l)
        simp only at hend
        omega
    · cases h

/-- Bytes put behind those that stand at an address. -/
theorem Holds.put {u : List UInt8} (h : m.Holds a u) (hlo : m.lo ≤ a)
    (hhi : a + u.length + l.length ≤ m.hi) : ∃ m', m.storeAll (a + u.length) l = some m' ∧
      m'.Holds a (u ++ l) ∧ m'.lo = m.lo ∧ m'.hi = m.hi := by
  obtain ⟨m', hm', hsame, hholds⟩ := storeAll_spec (m := m) (a := a + u.length) (l := l)
    (by omega) hhi
  refine ⟨m', hm', holds_append.2 ⟨hsame.holds h fun x _ hx => .inl hx, hholds⟩, hsame.lo, hsame.hi⟩

theorem Holds.load_append {u : List UInt8} {x : UInt8} (h : m.Holds a (u ++ x :: l)) :
    m.load (a + u.length) = some x := (holds_append.1 h).2.1

theorem lo_of_storeAll (h : m.storeAll a l = some m') : m'.lo = m.lo := by
  induction l generalizing m a with
  | nil =>
    rw [storeAll, Option.some.injEq] at h
    rw [h]
  | cons x l ih =>
    rw [storeAll] at h
    split at h
    · have hlo := ih h
      exact hlo
    · cases h

theorem hi_of_storeAll (h : m.storeAll a l = some m') : m'.hi = m.hi := by
  induction l generalizing m a with
  | nil =>
    rw [storeAll, Option.some.injEq] at h
    rw [h]
  | cons x l ih =>
    rw [storeAll] at h
    split at h
    · have hhi := ih h
      exact hhi
    · cases h

/-- A byte is one of those stored, or as before. -/
theorem bytes_of_storeAll (h : m.storeAll a l = some m') (x : ℤ) :
    (a ≤ x ∧ x < a + l.length ∧ m'.bytes x ∈ l) ∨
      (x < a ∨ a + l.length ≤ x) ∧ m'.bytes x = m.bytes x := by
  induction l generalizing m a with
  | nil =>
    cases h
    refine .inr ⟨?_, rfl⟩
    rw [List.length_nil]
    omega
  | cons y l ih =>
    rw [storeAll] at h
    split at h
    · rw [List.length_cons]
      push_cast
      rcases ih h with ⟨hlo, hhi, hmem⟩ | ⟨hout, heq⟩
      · exact .inl ⟨by omega, by omega, List.mem_cons_of_mem y hmem⟩
      · by_cases hx : x = a
        · subst hx
          simp only [Function.update_self] at heq
          exact .inl ⟨le_rfl, by omega, by rw [heq]; exact List.mem_cons_self⟩
        · simp only [Function.update_of_ne hx] at heq
          exact .inr ⟨by omega, heq⟩
    · cases h

theorem storeAll_append (m : ByteMem) (a : ℤ) (l r : List UInt8) :
    m.storeAll a (l ++ r) = (m.storeAll a l).bind fun m' => m'.storeAll (a + l.length) r := by
  induction l generalizing m a with
  | nil => simp [storeAll]
  | cons x l ih =>
    have hlen : a + 1 + (l.length : ℤ) = a + ((l.length + 1 : ℕ) : ℤ) := by
      push_cast
      ring
    rw [List.cons_append, storeAll, storeAll, List.length_cons]
    split
    · rw [ih, hlen]
    · rfl

theorem loadAll_of_holds (h : m.Holds a l) : m.loadAll a l.length = some l := by
  induction l generalizing a with
  | nil => rfl
  | cons x l ih =>
    rw [List.length_cons, loadAll, h.1, ih h.2]
    rfl

theorem Holds.bytes_eq {i : ℕ} (h : m.Holds a l) (hi : i < l.length) :
    m.bytes (a + i) = l[i] := by
  induction l generalizing a i with
  | nil => exact absurd hi (Nat.not_lt_zero i)
  | cons x l ih =>
    cases i with
    | zero =>
      have hload := h.1
      rw [load] at hload
      split at hload
      · rw [Nat.cast_zero, add_zero]
        exact Option.some.inj hload
      · cases hload
    | succ i =>
      rw [Nat.cast_succ, ← add_assoc, add_right_comm]
      exact ih h.2 (Nat.lt_of_succ_lt_succ hi)

/-- The memory with the bytes of `l` at `a`. -/
def put (m : ByteMem) (a : ℤ) (l : List UInt8) : ByteMem :=
  { m with bytes := fun x => if a ≤ x ∧ x < a + l.length then l.getD (x - a).toNat 0 else m.bytes x }

theorem sameOn_put (m : ByteMem) (a : ℤ) (l : List UInt8) :
    SameOn m (m.put a l) (fun x => x < a ∨ a + l.length ≤ x) :=
  ⟨rfl, rfl, fun _ hx => if_neg (by omega)⟩

theorem holds_put (hlo : m.lo ≤ a) (hhi : a + l.length ≤ m.hi) : (m.put a l).Holds a l := by
  have hat : ∀ (r : List UInt8) (i : ℕ), (∀ k, r[k]? = l[i + k]?) → i + r.length = l.length →
      (m.put a l).Holds (a + i) r := by
    intro r
    induction r with
    | nil => exact fun _ _ _ => trivial
    | cons x r ih =>
      intro i hr hlen
      rw [List.length_cons] at hlen
      refine ⟨?_, ?_⟩
      · have hx : l[i]? = some x := (hr 0).symm
        rw [load, if_pos ⟨by rw [put]; dsimp only; omega, by rw [put]; dsimp only; omega⟩, put]
        dsimp only
        rw [if_pos ⟨by omega, by omega⟩, show (a + i - a).toNat = i by omega,
          List.getD_eq_getElem?_getD, hx]
        rfl
      · have hrest := ih (i + 1) (fun k => by
          rw [Nat.add_assoc, Nat.add_comm 1 k, ← hr (k + 1)]
          rfl) (by omega)
        rwa [Nat.cast_succ, ← add_assoc] at hrest
  simpa using hat l 0 (fun k => by rw [Nat.zero_add]) (Nat.zero_add _)

/-! ## Words in memory -/

/-- A 64-bit word. -/
def storeWord (m : ByteMem) (a : ℤ) (x : ℕ) : Option ByteMem := m.storeAll a (leBytes 8 x)

def loadWord (m : ByteMem) (a : ℤ) : Option ℕ := (m.loadAll a 8).map leValue

theorem loadWord_of_holds {x : ℕ} (h : m.Holds a (leBytes 8 x)) (hx : x < 2 ^ 64) :
    m.loadWord a = some x := by
  have hl := loadAll_of_holds h
  rw [length_leBytes] at hl
  rw [loadWord, hl, Option.map_some, leValue_leBytes (by omega)]

/-! ## Strings -/

/-- The string at `a`, if it ends within the next `n` bytes. -/
def cstringFrom (m : ByteMem) : ℕ → ℤ → Option (List UInt8)
  | 0, _ => none
  | n + 1, a => do
    let x ← m.load a
    if x = 0 then return []
    else
      let rest ← cstringFrom m n (a + 1)
      return x :: rest

/-- The string at `a`, which must end in the memory. -/
def cstring (m : ByteMem) (a : ℤ) : Option (List UInt8) := m.cstringFrom (m.hi - a).toNat a

theorem cstringFrom_of_holds {n : ℕ} (h : m.Holds a (l ++ [0])) (hl : ∀ x ∈ l, x ≠ 0)
    (hn : l.length < n) : m.cstringFrom n a = some l := by
  induction l generalizing a n with
  | nil =>
    obtain ⟨n, rfl⟩ := Nat.exists_eq_succ_of_ne_zero (Nat.ne_of_gt hn)
    rw [cstringFrom, h.1]
    rfl
  | cons x l ih =>
    obtain ⟨n, rfl⟩ := Nat.exists_eq_succ_of_ne_zero (Nat.ne_of_gt (Nat.zero_lt_of_lt hn))
    rw [List.length_cons] at hn
    have hrest := ih h.2 (fun y hy => hl y (List.mem_cons_of_mem _ hy)) (Nat.lt_of_succ_lt_succ hn)
    rw [cstringFrom, h.1]
    simp [hl x List.mem_cons_self, hrest]

/-- Bytes that stand in the memory end in it. -/
theorem Holds.end_le (h : m.Holds a l) (hl : l ≠ []) : m.lo ≤ a ∧ a + l.length ≤ m.hi := by
  induction l generalizing a with
  | nil => exact absurd rfl hl
  | cons x l ih =>
    have hin : m.lo ≤ a ∧ a < m.hi := by
      have := h.1
      rw [load] at this
      split at this
      · assumption
      · cases this
    rw [List.length_cons]
    push_cast
    cases l with
    | nil => exact ⟨hin.1, by simp; omega⟩
    | cons y l =>
      have := (ih h.2 (by simp)).2
      exact ⟨hin.1, by omega⟩

theorem cstring_of_holds (h : m.Holds a (l ++ [0])) (hl : ∀ x ∈ l, x ≠ 0) :
    m.cstring a = some l := by
  have hend := (h.end_le (by simp)).2
  rw [List.length_append, List.length_singleton] at hend
  push_cast at hend
  exact cstringFrom_of_holds h hl (by omega)

/-- The bytes of a string, and the zero behind them. -/
theorem holds_of_cstring (h : m.cstring a = some l) : m.Holds a (l ++ [0]) := by
  rw [cstring] at h
  generalize (m.hi - a).toNat = n at h
  induction n generalizing a l with
  | zero => cases h
  | succ n ih =>
    rw [cstringFrom] at h
    obtain ⟨x, hx, h⟩ := Option.bind_eq_some_iff.1 h
    split at h
    next hzero =>
      cases h
      exact ⟨hzero ▸ hx, trivial⟩
    next =>
      obtain ⟨rest, hrest, h⟩ := Option.bind_eq_some_iff.1 h
      cases h
      exact ⟨hx, ih hrest⟩

/-- A string has no zeros. -/
theorem ne_zero_of_cstring (h : m.cstring a = some l) : ∀ x ∈ l, x ≠ 0 := by
  have hfrom {n : ℕ} {a : ℤ} {l : List UInt8} (h : m.cstringFrom n a = some l) :
      ∀ x ∈ l, x ≠ 0 := by
    induction n generalizing a l with
    | zero => cases h
    | succ n ih =>
      rw [cstringFrom] at h
      obtain ⟨y, -, h⟩ := Option.bind_eq_some_iff.1 h
      by_cases hy : y = 0
      · rw [if_pos hy] at h
        cases h
        simp
      · rw [if_neg hy] at h
        obtain ⟨rest, hrest, h⟩ := Option.bind_eq_some_iff.1 h
        cases h
        exact List.forall_mem_cons.2 ⟨hy, ih hrest⟩
  exact hfrom h

/-- No string ends in a memory without zeros. -/
theorem cstring_eq_none (h : ∀ x, m.bytes x ≠ 0) (a : ℤ) : m.cstring a = none := by
  have hfrom (n : ℕ) (a : ℤ) : m.cstringFrom n a = none := by
    induction n generalizing a with
    | zero => rfl
    | succ n ih =>
      rw [cstringFrom]
      cases hload : m.load a with
      | none => rfl
      | some x =>
        have hx : x ≠ 0 := by
          rw [load] at hload
          split at hload
          · cases hload
            exact h a
          · cases hload
        simp [hx, ih]
  exact hfrom _ a

/-! ## Arrays of strings -/

/-- The strings of an array of addresses that ends with a null address, of which at
most `n` are read. -/
def stringArrayFrom (m : ByteMem) : ℕ → ℤ → Option (List (List UInt8))
  | 0, _ => none
  | n + 1, a => do
    let p ← m.loadWord a
    if p = 0 then return []
    else
      let s ← m.cstring p
      let rest ← stringArrayFrom m n (a + 8)
      return s :: rest

def stringArray (m : ByteMem) (a : ℤ) : Option (List (List UInt8)) :=
  m.stringArrayFrom (m.hi - a).toNat a

/-- The array at `a` points to the strings, which stand one after the other from `p` on. -/
def Points (m : ByteMem) : ℤ → ℕ → List (List UInt8) → Prop
  | _, _, [] => True
  | a, p, s :: rest => m.Holds a (leBytes 8 p) ∧ m.Holds p (s ++ [0]) ∧
    m.Points (a + 8) (p + s.length + 1) rest

/-- The bytes of strings that stand one after the other. -/
def stringBytes (ss : List (List UInt8)) : List UInt8 := ss.flatMap fun s => s ++ [0]

@[simp] theorem stringBytes_nil : stringBytes [] = [] := rfl

@[simp] theorem stringBytes_cons (s : List UInt8) (ss : List (List UInt8)) :
    stringBytes (s :: ss) = s ++ [0] ++ stringBytes ss := rfl

theorem SameOn.points {P : ℤ → Prop} (h : SameOn m m' P) {p : ℕ} {ss : List (List UInt8)}
    (hp : m.Points a p ss) (ha : ∀ x, a ≤ x → x < a + 8 * ss.length → P x)
    (hs : ∀ x, (p : ℤ) ≤ x → x < p + (stringBytes ss).length → P x) : m'.Points a p ss := by
  induction ss generalizing a p with
  | nil => trivial
  | cons s ss ih =>
    simp only [stringBytes_cons, List.length_append, List.length_cons, List.length_nil] at ha hs
    push_cast at ha hs
    refine ⟨h.holds hp.1 fun x hx hx' => ha x hx ?_, h.holds hp.2.1 fun x hx hx' => hs x hx ?_,
      ih hp.2.2 (fun x hx hx' => ha x (by omega) (by omega)) fun x hx hx' => hs x ?_ ?_⟩
    · rw [length_leBytes] at hx'
      omega
    · simp only [List.length_append, List.length_singleton] at hx'
      push_cast at hx'
      omega
    · push_cast at hx
      omega
    · push_cast at hx'
      omega

theorem stringArrayFrom_of_points {n p : ℕ} {ss : List (List UInt8)} (hp : m.Points a p ss)
    (hnul : ∀ s ∈ ss, ∀ x ∈ s, x ≠ 0) (hend : m.Holds (a + 8 * ss.length) (leBytes 8 0))
    (hpos : 0 < p) (hlt : p + (stringBytes ss).length < 2 ^ 64) (hn : ss.length < n) :
    m.stringArrayFrom n a = some ss := by
  induction ss generalizing a n p with
  | nil =>
    obtain ⟨n, rfl⟩ := Nat.exists_eq_succ_of_ne_zero (Nat.ne_of_gt hn)
    simp only [List.length_nil, Nat.cast_zero, mul_zero, add_zero] at hend
    rw [stringArrayFrom, loadWord_of_holds hend (by omega)]
    rfl
  | cons s ss ih =>
    obtain ⟨n, rfl⟩ := Nat.exists_eq_succ_of_ne_zero (Nat.ne_of_gt (Nat.zero_lt_of_lt hn))
    simp only [stringBytes_cons, List.length_append, List.length_cons, List.length_nil] at hlt hn hend
    have hslot : a + 8 * ((ss.length + 1 : ℕ) : ℤ) = a + 8 + 8 * ss.length := by
      push_cast
      ring
    rw [hslot] at hend
    have hs := cstring_of_holds hp.2.1 (hnul s List.mem_cons_self)
    have hrest := ih hp.2.2 (fun t ht => hnul t (List.mem_cons_of_mem _ ht)) hend (by omega) (by omega)
      (Nat.lt_of_succ_lt_succ hn)
    rw [stringArrayFrom, loadWord_of_holds hp.1 (by omega)]
    simp [Nat.ne_of_gt hpos, hs, hrest]

theorem stringArray_of_points {p : ℕ} {ss : List (List UInt8)} (hp : m.Points a p ss)
    (hnul : ∀ s ∈ ss, ∀ x ∈ s, x ≠ 0) (hend : m.Holds (a + 8 * ss.length) (leBytes 8 0))
    (hpos : 0 < p) (hlt : p + (stringBytes ss).length < 2 ^ 64) :
    m.stringArray a = some ss := by
  have hle := (hend.end_le (by simp)).2
  rw [length_leBytes] at hle
  exact stringArrayFrom_of_points hp hnul hend hpos hlt (by push_cast at hle; omega)

end ByteMem

end SadOS
