import SadOS.Libc.Exec

/-!
# Splitting a string

`split` of `libc/util.h` cuts a string at a delimiter, in place, and puts the addresses of
the pieces into an array, which it allocates anew if `count_chr` finds more pieces than
the array has entries.

Behind a delimiter the scan goes on one character too far.

## Main definitions

* `strchr`, `countChr`, `unescape`, `split` — the functions.
* `scan` — the pieces that the scan makes of a text.
* `splitLoop_scan` — the loop, by induction on the text.
* `splits_iff` — when `split` gives the fields of a string.
-/

namespace SadOS.Libc

/-- The number of characters that can be read from `a` on, and one. -/
def room (m : ByteMem) (a : ℤ) : ℕ := (m.hi - a).toNat + 1

/-! ## The functions -/

def strchrFrom (m : ByteMem) (c : UInt8) : ℕ → ℤ → Option (Option ℤ)
  | 0, _ => none
  | n + 1, a => do
    let x ← m.load a
    if x = 0 then return none
    else if x = c then return some a
    else strchrFrom m c n (a + 1)

/-- The address of a character, or a null pointer. -/
def strchr (m : ByteMem) (a : ℤ) (c : UInt8) : Option (Option ℤ) := strchrFrom m c (room m a) a

def countChrFrom (m : ByteMem) (chr : UInt8) : ℕ → ℤ → ℕ → Option ℕ
  | 0, _, _ => none
  | n + 1, str, c => do
    let x ← m.load str
    if x = 0 then return c
    else match ← strchr m str chr with
      | none => return c
      | some str => countChrFrom m chr n (str + 1) (c + 1)

def countChr (m : ByteMem) (str : ℤ) (chr : UInt8) : Option ℕ :=
    countChrFrom m chr (room m str) str 0

/-- The loop of `unescape`, from `in` on. -/
def unescapeFrom : ℕ → ByteMem → ℤ → ℤ → Option ByteMem
  | 0, _, _, _ => none
  | n + 1, m, a, out => do
    let x ← m.load a
    if x = 0 then m.storeAll out [0]
    else if x ≠ 92 then
      let m ← m.storeAll out [x]
      unescapeFrom n m (a + 1) (out + 1)
    else unescapeFrom n m (a + 1) out

def unescape (m : ByteMem) (a : ℤ) : Option ByteMem := unescapeFrom (room m a) m a a

def SPLIT_UNESC : ℕ := 1
def SPLIT_NOESC : ℕ := 2
def SPLIT_ANY : ℕ := 4

/-- `opt & flag`. -/
def has (opt flag : ℕ) : Bool := opt &&& flag ≠ 0

/-- `while(*str == d) str++`. -/
def skipFrom (m : ByteMem) (d : UInt8) : ℕ → ℤ → Option ℤ
  | 0, _ => none
  | n + 1, a => do
    let x ← m.load a
    if x = d then skipFrom m d n (a + 1) else return a

/-- The delimiters at the end of the string, from `end` back. -/
def trimFrom (d : UInt8) (opt : ℕ) : ℕ → ByteMem → ℤ → Option ByteMem
  | 0, _, _ => none
  | n + 1, m, a => do
    let x ← m.load a
    if x ≠ d then return m
    else
      let y ← m.load (a - 1)
      if y = 92 ∧ ¬has opt SPLIT_NOESC then return m
      else
        let m ← m.storeAll a [0]
        trimFrom d opt n m (a - 1)

/-- `while(*tmp == d) *(tmp++) = '\\0'`. -/
def clearFrom (d : UInt8) : ℕ → ByteMem → ℤ → Option (ByteMem × ℤ)
  | 0, _, _ => none
  | n + 1, m, tmp => do
    let x ← m.load tmp
    if x ≠ d then return (m, tmp)
    else
      let m ← m.storeAll tmp [0]
      clearFrom d n m (tmp + 1)

/-- `(*arr)[i] = p`. -/
def putAt (arr : List ℤ) (i : ℕ) (p : ℤ) : Option (List ℤ) :=
  if i < arr.length then some (arr.set i p) else none

/-- Whether the string is cut at `tmp`. -/
def cutsAt (m : ByteMem) (str : ℤ) (opt : ℕ) (tmp : ℤ) : Option Bool := do
  if tmp ≠ str then
    let x ← m.load (tmp - 1)
    return x ≠ 92 ∨ has opt SPLIT_NOESC
  else return has opt SPLIT_NOESC

/-- `if (opt & SPLIT_UNESC) unescape((*arr)[c-1])`. -/
def unescapeLast (m : ByteMem) (arr : List ℤ) (c opt : ℕ) : Option ByteMem :=
  if has opt SPLIT_UNESC then do
    let piece ← arr[c - 1]?
    unescape m piece
  else some m

/-- `if (opt & SPLIT_ANY)`, the delimiters that follow. -/
def clearMore (m : ByteMem) (tmp : ℤ) (d : UInt8) (opt : ℕ) : Option (ByteMem × ℤ) :=
  if has opt SPLIT_ANY then clearFrom d (room m tmp) m tmp else some (m, tmp)

/-- The loop over the delimiters, with the number of pieces so far. -/
def splitLoop (str : ℤ) (d : UInt8) (opt : ℕ) :
    ℕ → ByteMem → List ℤ → ℕ → ℤ → Option (ByteMem × List ℤ × ℕ)
  | 0, _, _, _, _ => none
  | n + 1, m, arr, c, tmp => do
    let x ← m.load tmp
    if x = 0 then return (m, arr, c)
    else match ← strchr m tmp d with
      | none => return (m, arr, c)
      | some tmp =>
        if ← cutsAt m str opt tmp then
          let m ← unescapeLast m arr c opt
          let m ← m.storeAll tmp [0]
          let (m, tmp) ← clearMore m (tmp + 1) d opt
          let arr ← putAt arr c tmp
          splitLoop str d opt n m arr (c + 1) (tmp + 1)
        else splitLoop str d opt n m arr c (tmp + 1)

/-- The string without the delimiters at its ends. -/
def trim (m : ByteMem) (str : ℤ) (d : UInt8) (opt : ℕ) : Option (ByteMem × ℤ) := do
  let str ← skipFrom m d (room m str) str
  let s ← m.cstring str
  let stop := str + s.length - 1
  let m ← trimFrom d opt ((stop - m.lo).toNat + 1) m stop
  return (m, str)

/-- `split`, with an array that has `*len` entries. -/
def split (m : ByteMem) (str : ℤ) (d : UInt8) (arr : List ℤ) (opt : ℕ) :
    Option (ByteMem × List ℤ × ℕ) := do
  let (m, str) ← if has opt SPLIT_ANY then trim m str d opt else some (m, str)
  let k ← countChr m str d
  let arr := if arr.length < k + 1 then List.replicate (k + 1) 0 else arr
  let arr ← putAt arr 0 str
  let (m, arr, c) ← splitLoop str d opt (room m str) m arr 1 str
  let m ← unescapeLast m arr c opt
  return (m, arr, c)

/-! ## Searching -/

section search

variable {m : ByteMem} {a : ℤ} {d : UInt8} {t u v : List UInt8}

theorem length_lt_room (h : m.Holds a (t ++ [0])) : t.length < room m a := by
  have hend := (h.end_le (by simp)).2
  rw [List.length_append, List.length_singleton] at hend
  push_cast at hend
  rw [room]
  omega

theorem strchrFrom_none {n : ℕ} (h : m.Holds a (t ++ [0])) (ht : ∀ x ∈ t, x ≠ 0) (hd : d ∉ t)
    (hn : t.length < n) : strchrFrom m d n a = some none := by
  induction t generalizing a n with
  | nil =>
    obtain ⟨n, rfl⟩ := Nat.exists_eq_succ_of_ne_zero (Nat.ne_of_gt hn)
    rw [strchrFrom, h.1]
    rfl
  | cons x t ih =>
    obtain ⟨n, rfl⟩ := Nat.exists_eq_succ_of_ne_zero (Nat.ne_of_gt (Nat.zero_lt_of_lt hn))
    rw [List.length_cons] at hn
    rw [List.mem_cons, not_or] at hd
    have hrest := ih h.2 (fun y hy => ht y (List.mem_cons_of_mem _ hy)) hd.2
      (Nat.lt_of_succ_lt_succ hn)
    rw [strchrFrom, h.1]
    simp [ht x List.mem_cons_self, Ne.symm hd.1, hrest]

theorem strchrFrom_some {n : ℕ} (h : m.Holds a (u ++ d :: v)) (hu : ∀ x ∈ u, x ≠ 0) (hd0 : d ≠ 0)
    (hd : d ∉ u) (hn : u.length < n) : strchrFrom m d n a = some (some (a + u.length)) := by
  induction u generalizing a n with
  | nil =>
    obtain ⟨n, rfl⟩ := Nat.exists_eq_succ_of_ne_zero (Nat.ne_of_gt hn)
    rw [strchrFrom, h.1]
    simp [hd0]
  | cons x u ih =>
    obtain ⟨n, rfl⟩ := Nat.exists_eq_succ_of_ne_zero (Nat.ne_of_gt (Nat.zero_lt_of_lt hn))
    rw [List.length_cons] at hn
    rw [List.mem_cons, not_or] at hd
    have hrest := ih h.2 (fun y hy => hu y (List.mem_cons_of_mem _ hy)) hd.2
      (Nat.lt_of_succ_lt_succ hn)
    have hlen : a + 1 + (u.length : ℤ) = a + ((u.length + 1 : ℕ) : ℤ) := by
      push_cast
      ring
    rw [strchrFrom, h.1]
    simp only [Option.bind_eq_bind, Option.bind_some, hu x List.mem_cons_self,
      Ne.symm hd.1, if_false,
      hrest, List.length_cons, hlen]

theorem strchr_none (h : m.Holds a (t ++ [0])) (ht : ∀ x ∈ t, x ≠ 0) (hd : d ∉ t) :
    strchr m a d = some none := strchrFrom_none h ht hd (length_lt_room h)

theorem strchr_some (h : m.Holds a (u ++ d :: v ++ [0])) (hu : ∀ x ∈ u, x ≠ 0) (hd0 : d ≠ 0)
    (hd : d ∉ u) : strchr m a d = some (some (a + u.length)) := by
  have hroom := length_lt_room h
  rw [List.length_append] at hroom
  rw [List.append_assoc, List.cons_append] at h
  exact strchrFrom_some h hu hd0 hd (by omega)

/-- The text behind a delimiter. -/
theorem holds_behind (h : m.Holds a (u ++ d :: v ++ [0])) :
    m.Holds (a + u.length + 1) (v ++ [0]) := by
  rw [List.append_assoc, ByteMem.holds_append, List.cons_append] at h
  exact h.2.2

theorem countChrFrom_eq (hd0 : d ≠ 0) {n c : ℕ} (h : m.Holds a (t ++ [0])) (ht : ∀ x ∈ t, x ≠ 0)
    (hn : t.length < n) : countChrFrom m d n a c = some (c + t.count d) := by
  induction n generalizing a t c with
  | zero => exact absurd hn (Nat.not_lt_zero _)
  | succ n ih =>
    rw [countChrFrom]
    by_cases hd : d ∈ t
    · obtain ⟨u, v, rfl, hu⟩ := List.eq_append_cons_of_mem hd
      have hsome := strchr_some h (fun x hx => ht x (List.mem_append_left _ hx)) hd0 hu
      have hv : ∀ x ∈ v, x ≠ 0 := fun x hx =>
        ht x (List.mem_append_right u (List.mem_cons_of_mem d hx))
      have hrest := ih (c := c + 1) (holds_behind h) hv (by
        rw [List.length_append, List.length_cons] at hn
        omega)
      obtain ⟨x, hx, hx0⟩ : ∃ x, m.load a = some x ∧ x ≠ 0 := by
        cases u with
        | nil => exact ⟨d, h.1, hd0⟩
        | cons x u => exact ⟨x, h.1, ht x (by simp)⟩
      simp only [hx, Option.bind_eq_bind, Option.bind_some, hx0, if_false, hsome, hrest,
        List.count_append, List.count_cons_self, List.count_eq_zero_of_not_mem hu]
      congr 1
      omega
    · have hnone := strchr_none h ht hd
      cases t with
      | nil =>
        rw [h.1]
        rfl
      | cons x t =>
        rw [h.1]
        simp [hnone, List.count_eq_zero_of_not_mem hd]

/-- `count_chr` counts. -/
theorem countChr_eq (hd0 : d ≠ 0) (h : m.Holds a (t ++ [0])) (ht : ∀ x ∈ t, x ≠ 0) :
    countChr m a d = some (t.count d) := by
  rw [countChr, countChrFrom_eq hd0 h ht (length_lt_room h), zero_add]

end search

/-! ## The pieces -/

/-- What the scan makes of a text: the rest of the piece that it is in, and the pieces
after it.  The character behind a delimiter is not looked at, and it must be there. -/
def scan (d : UInt8) : List UInt8 → Option (List UInt8 × List (List UInt8))
  | [] => some ([], [])
  | [b] => if b = d then none else some ([b], [])
  | b :: x :: t =>
    if b = d then (scan d t).map fun y => ([], (x :: y.1) :: y.2)
    else (scan d (x :: t)).map fun y => (b :: y.1, y.2)

/-- Every delimiter has a character behind it that is none. -/
def separated (d : UInt8) : List UInt8 → Bool
  | [] => true
  | [b] => b ≠ d
  | b :: x :: t => (b ≠ d ∨ x ≠ d) ∧ separated d (x :: t)

section scan

variable {d b : UInt8} {t u : List UInt8}

theorem scan_cons (hb : b ≠ d) (t : List UInt8) :
    scan d (b :: t) = (scan d t).map fun y => (b :: y.1, y.2) := by
  cases t with
  | nil => simp [scan, hb]
  | cons x t => rw [scan, if_neg hb]

theorem scan_append (hu : d ∉ u) (t : List UInt8) :
    scan d (u ++ t) = (scan d t).map fun y => (u ++ y.1, y.2) := by
  induction u with
  | nil => simp
  | cons b u ih =>
    rw [List.mem_cons, not_or] at hu
    rw [List.cons_append, scan_cons (Ne.symm hu.1), ih hu.2, Option.map_map]
    rfl

theorem scan_of_not_mem (ht : d ∉ t) : scan d t = some (t, []) := by
  rw [← List.append_nil t, scan_append ht]
  rfl

theorem separated_cons (hb : b ≠ d) (t : List UInt8) : separated d (b :: t) = separated d t := by
  cases t with
  | nil => simp [separated, hb]
  | cons x t => simp [separated, hb]

/-- The pieces joined again. -/
theorem intercalate_scan {h : List UInt8} {fs : List (List UInt8)} (hs : scan d t = some (h, fs)) :
    [d].intercalate (h :: fs) = t := by
  fun_induction scan d t generalizing h fs with
  | case1 =>
    cases hs
    rfl
  | case2 => cases hs
  | case3 b hb =>
    cases hs
    rfl
  | case4 x t ih =>
    obtain ⟨⟨h', fs'⟩, hscan, heq⟩ := Option.map_eq_some_iff.1 hs
    cases heq
    have hrest := ih hscan
    rw [List.intercalate_cons_cons, List.nil_append, List.intercalate_cons_cons_left, hrest]
    rfl
  | case5 b x t hb ih =>
    obtain ⟨⟨h', fs'⟩, hscan, heq⟩ := Option.map_eq_some_iff.1 hs
    cases heq
    rw [List.intercalate_cons_cons_left, ih hscan]

theorem mem_intercalate {fs : List (List UInt8)} {f sep : List UInt8} (hf : f ∈ fs) {x : UInt8}
    (hx : x ∈ f) : x ∈ sep.intercalate fs := by
  induction fs with
  | nil => cases hf
  | cons g fs ih =>
    cases fs with
    | nil =>
      rw [List.mem_singleton.1 hf] at hx
      rw [List.intercalate_singleton]
      exact hx
    | cons g' fs =>
      rw [List.intercalate_cons_cons]
      rcases List.mem_cons.1 hf with rfl | hf
      · exact List.mem_append_left _ (List.mem_append_left _ hx)
      · exact List.mem_append_right _ (ih hf)

theorem mem_of_scan {h f : List UInt8} {fs : List (List UInt8)} (hs : scan d t = some (h, fs))
    (hf : f ∈ h :: fs) {x : UInt8} (hx : x ∈ f) : x ∈ t :=
  intercalate_scan hs ▸ mem_intercalate hf hx

/-- The pieces are the fields if every delimiter is separated from the next one. -/
theorem separated_iff : separated d t = true ↔
    ∃ h fs, scan d t = some (h, fs) ∧ ∀ f ∈ h :: fs, d ∉ f := by
  fun_induction scan d t with
  | case1 => simp [separated]
  | case2 => simp [separated]
  | case3 b hb => simp [separated, hb, Ne.symm hb]
  | case4 x t ih =>
    by_cases hx : x = d
    · -- the piece behind the delimiter begins with one
      refine iff_of_false (by simp [separated, hx]) ?_
      rintro ⟨h, fs, hscan, hfree⟩
      obtain ⟨⟨h', fs'⟩, -, heq⟩ := Option.map_eq_some_iff.1 hscan
      cases heq
      exact hfree (x :: h') (by simp) (by simp [hx])
    · have hsep : separated d (d :: x :: t) = separated d t := by
        rw [separated, separated_cons hx]
        simp [hx]
      rw [hsep, ih]
      constructor
      · rintro ⟨h, fs, hscan, hfree⟩
        refine ⟨[], (x :: h) :: fs, by rw [hscan]; rfl, ?_⟩
        simp only [List.mem_cons, forall_eq_or_imp] at hfree ⊢
        exact ⟨List.not_mem_nil, by simp [Ne.symm hx, hfree.1], hfree.2⟩
      · rintro ⟨h, fs, hscan, hfree⟩
        obtain ⟨⟨h', fs'⟩, hscan', heq⟩ := Option.map_eq_some_iff.1 hscan
        cases heq
        refine ⟨h', fs', hscan', ?_⟩
        simp only [List.mem_cons, forall_eq_or_imp, not_or] at hfree ⊢
        exact ⟨hfree.2.1.2, hfree.2.2⟩
  | case5 b x t hb ih =>
    rw [separated_cons hb, ih]
    constructor
    · rintro ⟨h, fs, hscan, hfree⟩
      refine ⟨b :: h, fs, by rw [hscan]; rfl, ?_⟩
      simp only [List.mem_cons, forall_eq_or_imp, not_or] at hfree ⊢
      exact ⟨⟨Ne.symm hb, hfree.1⟩, hfree.2⟩
    · rintro ⟨h, fs, hscan, hfree⟩
      obtain ⟨⟨h', fs'⟩, hscan', heq⟩ := Option.map_eq_some_iff.1 hscan
      cases heq
      refine ⟨h', fs', hscan', ?_⟩
      simp only [List.mem_cons, forall_eq_or_imp, not_or] at hfree ⊢
      exact ⟨hfree.1.2, hfree.2⟩

/-- One piece more than delimiters, if they are the fields. -/
theorem count_intercalate {fs : List (List UInt8)} (hfree : ∀ f ∈ fs, d ∉ f) (hne : fs ≠ []) :
    ([d].intercalate fs).count d + 1 = fs.length := by
  induction fs with
  | nil => exact absurd rfl hne
  | cons f fs ih =>
    have hf : f.count d = 0 := List.count_eq_zero_of_not_mem (hfree f List.mem_cons_self)
    cases fs with
    | nil => rw [List.intercalate_singleton, hf, List.length_singleton]
    | cons g fs =>
      have hrest := ih (fun x hx => hfree x (List.mem_cons_of_mem f hx)) (List.cons_ne_nil g fs)
      rw [List.intercalate_cons_cons, List.count_append, List.count_append, hf, List.length_cons,
        ← hrest, List.count_singleton_self]
      omega

end scan

/-! ## The loop -/

section loop

variable {m : ByteMem} {d : UInt8} {str tmp : ℤ} {t : List UInt8} {arr : List ℤ} {c n : ℕ}

theorem has_noesc : has SPLIT_NOESC SPLIT_NOESC = true := by decide

/-- A cut at every delimiter. -/
theorem cutsAt_noesc (hlo : m.lo ≤ str) (htmp : str ≤ tmp) (hhi : tmp ≤ m.hi) :
    cutsAt m str SPLIT_NOESC tmp = some true := by
  rw [cutsAt]
  by_cases heq : tmp = str
  · simp [heq, has_noesc]
  · have hload : m.load (tmp - 1) = some (m.bytes (tmp - 1)) := by
      rw [ByteMem.load, if_pos ⟨by omega, by omega⟩]
    simp [heq, hload, has_noesc]

/-- The pieces that the entries of an array from `c` on point to. -/
def PiecesAt (m : ByteMem) (arr : List ℤ) (c : ℕ) (fs : List (List UInt8)) : Prop :=
  ∀ i f, fs[i]? = some f → ∃ p, arr[c + i]? = some p ∧ m.Holds p (f ++ [0])

/-- A turn of the loop that finds a delimiter. -/
theorem splitLoop_cut {u v : List UInt8} (h : m.Holds tmp (u ++ d :: v ++ [0]))
    (hu : ∀ x ∈ u, x ≠ 0) (hd0 : d ≠ 0) (hd : d ∉ u) (hlo : m.lo ≤ str) (htmp : str ≤ tmp)
    (hc : c < arr.length) :
    ∃ m', m.storeAll (tmp + u.length) [0] = some m' ∧
      splitLoop str d SPLIT_NOESC (n + 1) m arr c tmp =
        splitLoop str d SPLIT_NOESC n m' (arr.set c (tmp + u.length + 1)) (c + 1)
          (tmp + u.length + 1 + 1) := by
  obtain ⟨x, hx, hx0⟩ : ∃ x, m.load tmp = some x ∧ x ≠ 0 := by
    cases u with
    | nil => exact ⟨d, h.1, hd0⟩
    | cons x u => exact ⟨x, h.1, hu x (by simp)⟩
  have hend := h.end_le (by simp)
  rw [List.length_append, List.length_append, List.length_cons, List.length_singleton] at hend
  push_cast at hend
  obtain ⟨m', hm', -, -⟩ := ByteMem.storeAll_spec (m := m) (a := tmp + u.length) (l := [0])
    (by omega) (by rw [List.length_singleton]; push_cast; omega)
  refine ⟨m', hm', ?_⟩
  have hcut : cutsAt m str SPLIT_NOESC (tmp + u.length) = some true :=
    cutsAt_noesc hlo (by omega) (by omega)
  have hlast : unescapeLast m arr c SPLIT_NOESC = some m := rfl
  have hmore (m : ByteMem) (tmp : ℤ) : clearMore m tmp d SPLIT_NOESC = some (m, tmp) := rfl
  rw [splitLoop, hx]
  simp only [Option.bind_eq_bind, Option.bind_some, hx0, if_false, strchr_some h hu hd0 hd, hcut,
    if_true, hlast, hm', hmore, putAt, if_pos hc]

/-- What the loop leaves: a piece at `tmp`, pieces behind it, and nothing else changed. -/
structure Leaves (m : ByteMem) (arr : List ℤ) (c : ℕ) (tmp : ℤ) (m' : ByteMem) (arr' : List ℤ)
    (u : List UInt8) (fs : List (List UInt8)) : Prop where
  length : arr'.length = arr.length
  same : m.SameOn m' fun x => x < tmp
  piece : m'.Holds tmp (u ++ [0])
  before : ∀ i < c, arr'[i]? = arr[i]?
  pieces : PiecesAt m' arr' c fs

/-- A cut behind `u`, and what the loop leaves behind it. -/
theorem Leaves.cut {m₁ m' : ByteMem} {arr' : List ℤ} {u w : List UInt8} {x : UInt8}
    {fs : List (List UInt8)} (hu : m.Holds tmp u)
    (hsame : m.SameOn m₁ fun y => y < tmp + u.length ∨ tmp + u.length + 1 ≤ y)
    (hzero : m₁.Holds (tmp + u.length) [0]) (hx : m.load (tmp + u.length + 1) = some x)
    (hc : c < arr.length) (h : Leaves m₁ (arr.set c (tmp + u.length + 1)) (c + 1)
      (tmp + u.length + 1 + 1) m' arr' w fs) :
    Leaves m arr c tmp m' arr' u ((x :: w) :: fs) := by
  have hmem : m.SameOn m' (fun y => y < tmp + u.length) :=
    (hsame.mono fun y hy => .inl hy).trans (h.same.mono fun y hy => by omega)
  refine ⟨by rw [h.length, List.length_set], hmem.mono fun y hy => by omega, ?_, fun i hi => ?_,
    fun i f hf => ?_⟩
  · refine ByteMem.holds_append.2 ⟨hmem.holds hu fun y _ hy => hy, ?_⟩
    refine h.same.holds hzero fun y _ hy => ?_
    rw [List.length_singleton] at hy
    push_cast at hy
    omega
  · rw [h.before i (by omega), List.getElem?_set_ne (by omega)]
  · cases i with
    | zero =>
      obtain rfl : x :: w = f := Option.some.inj hf
      refine ⟨tmp + u.length + 1, ?_, ?_, h.piece⟩
      · rw [h.before _ (by omega), Nat.add_zero, List.getElem?_set_self (by omega)]
      · rw [h.same.load (by omega), hsame.load (.inr le_rfl), hx]
    | succ i =>
      obtain ⟨p, hp, hholds⟩ := h.pieces i f hf
      refine ⟨p, ?_, hholds⟩
      rw [← hp]
      congr 1
      omega

/-- The scan goes on behind the end of the string. -/
theorem splitLoop_outside (h : m.hi ≤ tmp) : splitLoop str d SPLIT_NOESC n m arr c tmp = none := by
  have hload : m.load tmp = none := by
    rw [ByteMem.load, if_neg (by omega)]
  cases n with
  | zero => rfl
  | succ n =>
    rw [splitLoop, hload]
    rfl

/-- No delimiter is left. -/
theorem splitLoop_rest (h : m.Holds tmp (t ++ [0])) (ht : ∀ x ∈ t, x ≠ 0) (hd : d ∉ t) :
    splitLoop str d SPLIT_NOESC (n + 1) m arr c tmp = some (m, arr, c) := by
  rw [splitLoop]
  cases t with
  | nil =>
    rw [h.1]
    rfl
  | cons x t =>
    rw [h.1]
    simp [strchr_none h ht hd]

/-- **The loop makes the pieces of `scan`**, or leaves the memory. -/
theorem splitLoop_scan (hd0 : d ≠ 0) (h : m.Holds tmp (t ++ [0])) (ht : ∀ x ∈ t, x ≠ 0)
    (hhi : m.hi = tmp + t.length + 1) (hlo : m.lo ≤ str) (htmp : str ≤ tmp)
    (hc : c + t.count d ≤ arr.length) (hn : t.length < n) :
    match scan d t with
    | none => splitLoop str d SPLIT_NOESC n m arr c tmp = none
    | some (u, fs) => ∃ m' arr', splitLoop str d SPLIT_NOESC n m arr c tmp =
        some (m', arr', c + fs.length) ∧ Leaves m arr c tmp m' arr' u fs := by
  induction n generalizing m arr c tmp t with
  | zero => exact absurd hn (Nat.not_lt_zero _)
  | succ n ih =>
    by_cases hd : d ∈ t
    · obtain ⟨u, v, rfl, hu⟩ := List.eq_append_cons_of_mem hd
      have hu0 : ∀ x ∈ u, x ≠ 0 := fun x hx => ht x (List.mem_append_left _ hx)
      rw [List.count_append, List.count_cons_self] at hc
      rw [List.length_append, List.length_cons] at hn hhi
      push_cast at hhi
      obtain ⟨m₁, hm₁, hloop⟩ := splitLoop_cut (n := n) h hu0 hd0 hu hlo htmp
        (by omega : c < arr.length)
      obtain ⟨m₁', hm₁', hsame, hzero⟩ := ByteMem.storeAll_spec (m := m)
        (a := tmp + u.length) (l := [0])
        (by omega) (by rw [List.length_singleton]; push_cast; omega)
      obtain rfl := Option.some.inj (hm₁.symm.trans hm₁')
      rw [hloop, scan_append hu]
      have hbehind := holds_behind h
      cases v with
      | nil =>
        rw [scan, if_pos rfl]
        refine splitLoop_outside ?_
        rw [hsame.hi, hhi, List.length_nil]
        push_cast
        omega
      | cons x v =>
        rw [scan, if_pos rfl]
        rw [List.length_cons] at hn hhi
        push_cast at hhi
        have hv : m₁.Holds (tmp + u.length + 1 + 1) (v ++ [0]) := by
          refine hsame.holds hbehind.2 fun y hy _ => .inr ?_
          rw [List.length_singleton]
          push_cast
          omega
        have hroom : c + 1 + v.count d ≤ (arr.set c (tmp + u.length + 1)).length := by
          rw [List.length_set]
          have hcount := List.count_le_count_cons (a := d) (b := x) (l := v)
          omega
        have hrest := ih hv (fun y hy => ht y (by simp [hy])) (by rw [hsame.hi, hhi]; ring)
          (hsame.lo ▸ hlo) (by omega) hroom (by omega)
        cases hscan : scan d v with
        | none =>
          rw [hscan] at hrest
          exact hrest
        | some y =>
          obtain ⟨w, fs⟩ := y
          rw [hscan] at hrest
          obtain ⟨m', arr', hloop', hleaves⟩ := hrest
          have hpiece : m.Holds tmp u := by
            rw [List.append_assoc] at h
            exact (ByteMem.holds_append.1 h).1
          have hlen : c + 1 + fs.length = c + ((x :: w) :: fs).length := by
            rw [List.length_cons]
            omega
          refine ⟨m', arr', by rw [hloop', hlen], ?_⟩
          dsimp only
          rw [List.append_nil]
          exact hleaves.cut hpiece hsame hzero hbehind.1 (by omega)
    · rw [scan_of_not_mem hd]
      exact ⟨m, arr, splitLoop_rest h ht hd, rfl, ByteMem.SameOn.refl m _, h, fun _ _ => rfl,
        fun i f hf => by simp at hf⟩

end loop

/-! ## The fields of a string -/

/-- A block with a string in it and nothing else. -/
def CString.block (s : CString) (str : ℤ) : ByteMem where
  lo := str
  hi := str + s.strlen + 1
  bytes := fun a => (s.bytes ++ [0]).getD (a - str).toNat 0

/-- `split` gives the fields of the string: it stays in the string and in its array, and the
pieces are free of delimiters, one more than there are delimiters, and make up the string. -/
def SplitsIntoFields (s : CString) (str : ℤ) (d : UInt8) (arr : List ℤ) : Prop :=
  ∃ m arr' c fs, split (s.block str) str d arr SPLIT_NOESC = some (m, arr', c) ∧
    c = fs.length ∧ (arr'.take c).map m.cstring = fs.map some ∧
    fs.length = s.bytes.count d + 1 ∧ (∀ f ∈ fs, d ∉ f) ∧ [d].intercalate fs = s.bytes

section fields

variable {s : CString} {d : UInt8}

theorem block_holds (s : CString) (str : ℤ) : (s.block str).Holds str (s.bytes ++ [0]) := by
  have hholds (l r : List UInt8) (h : s.bytes ++ [0] = l ++ r) :
      (s.block str).Holds (str + l.length) r := by
    induction r generalizing l with
    | nil => trivial
    | cons x r ih =>
      have hlen := congrArg List.length h
      simp only [List.length_append, List.length_cons, List.length_nil] at hlen
      refine ⟨?_, ?_⟩
      · have hin : (s.block str).lo ≤ str + l.length ∧ str + l.length < (s.block str).hi := by
          simp only [CString.block, CString.strlen]
          omega
        rw [ByteMem.load, if_pos hin]
        simp [CString.block, h]
      · have hrest := ih (l ++ [x]) (by rw [List.append_assoc]; exact h)
        rw [List.length_append, List.length_singleton] at hrest
        push_cast at hrest
        rw [← add_assoc] at hrest
        exact hrest
  have h := hholds [] (s.bytes ++ [0]) rfl
  rw [List.length_nil] at h
  simpa using h

/-- The array that the pieces are put into. -/
theorem exists_array (arr : List ℤ) (k : ℕ) (str : ℤ) : ∃ arr',
    putAt (if arr.length < k + 1 then List.replicate (k + 1) 0 else arr) 0 str = some arr' ∧
      k + 1 ≤ arr'.length ∧ arr'[0]? = some str := by
  obtain ⟨arr₁, harr₁, hlen⟩ : ∃ arr₁ : List ℤ,
      (if arr.length < k + 1 then List.replicate (k + 1) 0 else arr) = arr₁ ∧
        k + 1 ≤ arr₁.length := by
    split
    · exact ⟨_, rfl, by rw [List.length_replicate]⟩
    · exact ⟨arr, rfl, by omega⟩
  rw [harr₁, putAt, if_pos (by omega)]
  exact ⟨_, rfl, by rw [List.length_set]; exact hlen, List.getElem?_set_self (by omega)⟩

/-- **The pieces of a string**, as `scan` has them. -/
theorem split_scan (hd0 : d ≠ 0) (s : CString) (str : ℤ) (arr : List ℤ) :
    match scan d s.bytes with
    | none => split (s.block str) str d arr SPLIT_NOESC = none
    | some (u, fs) => ∃ m arr', split (s.block str) str d arr SPLIT_NOESC =
        some (m, arr', fs.length + 1) ∧
        (arr'.take (fs.length + 1)).map m.cstring = (u :: fs).map some := by
  have hholds := block_holds s str
  have hcount := countChr_eq hd0 hholds s.noNul
  obtain ⟨arr₁, harr₁, hlen, hfirst⟩ := exists_array arr (s.bytes.count d) str
  have hroom : 1 + s.bytes.count d ≤ arr₁.length := by omega
  have hlo : (s.block str).lo ≤ str := le_rfl
  have hloop := splitLoop_scan hd0 hholds s.noNul rfl hlo le_rfl hroom (length_lt_room hholds)
  have hsplit : split (s.block str) str d arr SPLIT_NOESC =
      splitLoop str d SPLIT_NOESC (room (s.block str) str) (s.block str) arr₁ 1 str := by
    have hany : has SPLIT_NOESC SPLIT_ANY = false := rfl
    have hlast (m : ByteMem) (arr : List ℤ) (c : ℕ) :
      unescapeLast m arr c SPLIT_NOESC = some m := rfl
    rw [split]
    simp only [hany, Bool.false_eq_true, if_false, Option.bind_eq_bind, Option.bind_some, hcount,
      harr₁, hlast]
    cases splitLoop str d SPLIT_NOESC (room (s.block str) str) (s.block str) arr₁ 1 str <;> rfl
  rw [hsplit]
  cases hscan : scan d s.bytes with
  | none =>
    rw [hscan] at hloop
    exact hloop
  | some y =>
    obtain ⟨u, fs⟩ := y
    rw [hscan] at hloop
    obtain ⟨m, arr', hloop', -, -, hu, harr, hpieces⟩ := hloop
    refine ⟨m, arr', by rw [hloop', Nat.add_comm], List.ext_getElem? fun i => ?_⟩
    have hnoNul : ∀ f ∈ u :: fs, ∀ x ∈ f, x ≠ 0 := fun f hf x hx =>
      s.noNul x (mem_of_scan hscan hf hx)
    rw [List.getElem?_map, List.getElem?_map, List.getElem?_take]
    cases i with
    | zero =>
      rw [if_pos (Nat.succ_pos _), harr 0 Nat.one_pos, hfirst]
      exact congrArg some (ByteMem.cstring_of_holds hu (hnoNul u List.mem_cons_self))
    | succ i =>
      rw [List.getElem?_cons_succ]
      by_cases hi : i < fs.length
      · obtain ⟨p, hp, hpiece⟩ := hpieces i fs[i] (List.getElem?_eq_getElem hi)
        rw [if_pos (by omega), Nat.add_comm i 1, hp, List.getElem?_eq_getElem hi]
        exact congrArg some (ByteMem.cstring_of_holds hpiece
          (hnoNul fs[i] (List.mem_cons_of_mem u (List.getElem_mem hi))))
      · rw [if_neg (by omega), List.getElem?_eq_none (by omega)]
        rfl

/-- The pieces of `scan` are the fields, or nothing is. -/
theorem splits_iff_scan (hd0 : d ≠ 0) (s : CString) (str : ℤ) (arr : List ℤ) :
    SplitsIntoFields s str d arr ↔
      ∃ u fs, scan d s.bytes = some (u, fs) ∧ ∀ f ∈ u :: fs, d ∉ f := by
  have hsplit := split_scan hd0 s str arr
  constructor
  · rintro ⟨m, arr', c, fs, heq, hc, hfields, -, hfree, -⟩
    cases hscan : scan d s.bytes with
    | none =>
      rw [hscan] at hsplit
      rw [hsplit] at heq
      cases heq
    | some y =>
      obtain ⟨u, fs'⟩ := y
      rw [hscan] at hsplit
      obtain ⟨m', arr'', heq', hfields'⟩ := hsplit
      rw [heq'] at heq
      cases heq
      rw [hfields'] at hfields
      obtain rfl := List.map_injective_iff.2 (Option.some_injective _) hfields
      exact ⟨u, fs', rfl, hfree⟩
  · rintro ⟨u, fs, hscan, hfree⟩
    rw [hscan] at hsplit
    obtain ⟨m, arr', heq, hfields⟩ := hsplit
    have hjoin := intercalate_scan hscan
    have hlen := count_intercalate hfree (List.cons_ne_nil u fs)
    rw [hjoin] at hlen
    exact ⟨m, arr', _, u :: fs, heq, rfl, hfields, hlen.symm, hfree, hjoin⟩

end fields

end SadOS.Libc
