import Mathlib.Data.List.Induction
import SadOS.Libc.Exec

/-!
# The working directory

`chdir` of `libc/getcwd.c` edits a copy of the working directory in place, with a pointer
to its last character, and `getcwd` copies it out.  Both have buffers of `PATH_MAX`
bytes.  A store outside a buffer returns nothing.

The edits of the string are those of `walk`, a function on texts: a name is appended,
and `..` takes the last name away.

## Main definitions

* `chdir`, `getcwd` — the functions, and `chdirLoop`, the loop over the components.
* `pieces` — the components that the loop reads in a path.
* `walk` — what they do to the text of a directory.
* `chdirLoop_walk`, `chdir_text` — the loop and `chdir` on texts.
-/

namespace SadOS.Libc

def ENOENT : ℕ := 2
def EINVAL : ℕ := 22
def ERANGE : ℕ := 34
def ENAMETOOLONG : ℕ := 36

abbrev slash : UInt8 := 47
abbrev dot : UInt8 := 46

/-! ## The functions -/

/-- `__cwd` and `__cwd_new`. -/
structure CwdBuffers where
  cwd : ByteMem
  new : ByteMem

/-- The number of bytes is an `int`.  A negative one stands for almost `2 ^ 64` of them,
which leave every buffer. -/
def strcpy (m : ByteMem) (dst : ℤ) (src : List UInt8) : Option ByteMem :=
  let count := (src.length + 1) % 2 ^ 32
  if count < 2 ^ 31 then m.storeAll dst ((src ++ [0]).take count) else none

theorem strcpy_eq {m : ByteMem} {dst : ℤ} {src : List UInt8} (h : src.length + 1 < 2 ^ 31) :
    strcpy m dst src = m.storeAll dst (src ++ [0]) := by
  have hmod : (src.length + 1) % 2 ^ 32 = src.length + 1 := Nat.mod_eq_of_lt (by omega)
  have hlen : (src ++ [0]).length ≤ src.length + 1 := by rw [List.length_append]; rfl
  rw [strcpy]
  simp only [hmod, if_pos h, List.take_of_length_le hlen]

theorem length_lt_int {t : List UInt8} (h : t.length < PATH_MAX) : t.length + 1 < 2 ^ 31 := by
  rw [PATH_MAX] at h
  omega

/-- At most `count` characters, and always a zero behind them. -/
def strncpy (m : ByteMem) (dest : ℤ) (source : List UInt8) (count : ℕ) : Option ByteMem :=
  m.storeAll dest (source.take count ++ [0])

/-- What `getcwd` returns: a copy, the buffer, or an error. -/
inductive GotCwd
  | copy (s : List UInt8)
  | buf (m : ByteMem)
  | error (errno : ℕ)

def getcwd (s : CwdBuffers) (buf : Option ByteMem) (size : ℕ) : Option GotCwd := do
  let str ← s.cwd.cstring 0
  match buf with
  | none => return .copy str
  | some buf =>
    if size = 0 then return .error EINVAL
    else if size < str.length then return .error ERANGE
    else do
      let buf ← strcpy buf 0 str
      return .buf buf

/-- `while(cwd_end >= __cwd_new && *cwd_end != '/') cwd_end--`. -/
def lastSlash (new : ByteMem) : ℕ → ℤ → Option ℤ
  | 0, _ => none
  | n + 1, e =>
    if 0 ≤ e then do
      let x ← new.load e
      if x ≠ slash then lastSlash new n (e - 1) else return e
    else return e

/-- `..`, where the directory is not the root. -/
def popName (new : ByteMem) (e : ℤ) : Option (ByteMem × ℤ) := do
  let e ← lastSlash new (e.toNat + 2) e
  if e ≠ 0 then do
    let new ← new.storeAll e [0]
    return (new, e - 1)
  else do
    let new ← new.storeAll (e + 1) [0]
    return (new, e)

/-- Any other component, of `len` characters. -/
def pushName (new : ByteMem) (e : ℤ) (path : List UInt8) (len : ℕ) : Option (ByteMem × ℤ) := do
  let (new, e) ← if e ≠ 0 then (new.storeAll (e + 1) [slash]).map fun new => (new, e + 1)
    else some (new, e)
  let new ← strncpy new (e + 1) path len
  let e := e + 1 + len
  let new ← new.storeAll e [0]
  return (new, e - 1)

/-- `path` begins with `..` and a slash, or is `..`. -/
def beginsWithDots (path : List UInt8) : Prop :=
  path[0]? = some dot ∧ path[1]? = some dot ∧ (path[2]? = some slash ∨ path[2]? = none)

instance (path : List UInt8) : Decidable (beginsWithDots path) :=
  inferInstanceAs (Decidable (_ ∧ _ ∧ _))

/-- The loop over the components, with `__cwd_new` and the offset of `cwd_end`. -/
def chdirLoop : ℕ → ByteMem → ℤ → List UInt8 → Option (ByteMem × Except ℕ Unit)
  | 0, _, _, _ => none
  | n + 1, new, e, path =>
    if path = [] then some (new, .ok ())
    else if beginsWithDots path then
      if e = 0 then some (new, .error ENOENT)
      else do
        let (new, e) ← popName new e
        if path[2]? ≠ none then chdirLoop n new e (path.drop 3) else return (new, .ok ())
    else
      let len := (path.takeWhile (· ≠ slash)).length
      if e + len + 1 > PATH_MAX then some (new, .error ENAMETOOLONG)
      else do
        let (new, e) ← pushName new e path len
        if path.drop len ≠ [] then chdirLoop n new e (path.drop (len + 1))
        else return (new, .ok ())

/-- `chdir`, with the `errno` of a failure. -/
def chdir (s : CwdBuffers) (path : List UInt8) : Option (CwdBuffers × Except ℕ Unit) := do
  let str ← s.cwd.cstring 0
  let new ← strcpy s.new 0 str
  if path.head? = some slash then do
    let cwd ← strncpy s.cwd 0 path PATH_MAX
    return (⟨cwd, new⟩, .ok ())
  else do
    let e : ℤ := str.length - 1
    let x ← new.load e
    let e := if x = slash ∧ e ≠ 0 then e - 1 else e
    let (new, ret) ← chdirLoop (path.length + 1) new e path
    match ret with
    | .error errno => return (⟨s.cwd, new⟩, .error errno)
    | .ok () => do
      let str ← new.cstring 0
      let cwd ← strcpy s.cwd 0 str
      return (⟨cwd, new⟩, .ok ())

/-! ## Directories as texts -/

/-- The components that the loop reads: nothing behind a slash at the end. -/
def pieces : List UInt8 → List (List UInt8)
  | [] => []
  | c :: rest =>
    if c = slash then [] :: pieces rest
    else match pieces rest with
      | [] => [[c]]
      | p :: ps => (c :: p) :: ps

/-- A directory without its last name. -/
def popText (t : List UInt8) : List UInt8 :=
  let front := ((t.reverse.dropWhile (· ≠ slash)).drop 1).reverse
  if front = [] then [slash] else front

/-- A directory with one more name.  The root alone has one character. -/
def pushText (t p : List UInt8) : List UInt8 :=
  if t.length = 1 then t ++ p else t ++ slash :: p

/-- The components of a path, from the directory `t` on: another directory, an error, or
nothing for a name that is let through and does not fit. -/
def walk (t : List UInt8) : List (List UInt8) → Option (Except ℕ (List UInt8))
  | [] => some (.ok t)
  | p :: ps =>
    if p = [dot, dot] then if t.length = 1 then some (.error ENOENT) else walk (popText t) ps
    else if PATH_MAX < t.length + p.length then some (.error ENAMETOOLONG)
    else if (pushText t p).length < PATH_MAX then walk (pushText t p) ps
    else none

/-- A slash at the end of a directory, other than the root, is no part of its last name. -/
def trimSlash (t : List UInt8) : List UInt8 :=
  if t.getLast? = some slash ∧ t.length ≠ 1 then t.dropLast else t

/-- `chdir` on texts. -/
def chdirText (t path : List UInt8) : Option (Except ℕ (List UInt8)) :=
  if path.head? = some slash then if path.length < PATH_MAX then some (.ok path) else none
  else if path = [] then some (.ok t)
  else walk (trimSlash t) (pieces path)

section pieces

variable {u v : List UInt8}

theorem pieces_append_slash (hu : slash ∉ u) (v : List UInt8) :
    pieces (u ++ slash :: v) = u :: pieces v := by
  induction u with
  | nil => rfl
  | cons c u ih =>
    rw [List.mem_cons, not_or] at hu
    rw [List.cons_append, pieces, if_neg (Ne.symm hu.1), ih hu.2]

theorem pieces_of_not_mem (hu : slash ∉ u) (hne : u ≠ []) : pieces u = [u] := by
  induction u with
  | nil => exact absurd rfl hne
  | cons c u ih =>
    rw [List.mem_cons, not_or] at hu
    rw [pieces, if_neg (Ne.symm hu.1)]
    cases u with
    | nil => rfl
    | cons c' u => rw [ih hu.2 (List.cons_ne_nil c' u)]

theorem takeWhile_append_slash (hu : slash ∉ u) (v : List UInt8) :
    (u ++ slash :: v).takeWhile (· ≠ slash) = u := by
  induction u with
  | nil => simp
  | cons c u ih =>
    rw [List.mem_cons, not_or] at hu
    rw [List.cons_append, List.takeWhile_cons, if_pos (by simpa using Ne.symm hu.1), ih hu.2]

theorem takeWhile_of_not_mem (hu : slash ∉ u) : u.takeWhile (· ≠ slash) = u := by
  induction u with
  | nil => rfl
  | cons c u ih =>
    rw [List.mem_cons, not_or] at hu
    rw [List.takeWhile_cons, if_pos (by simpa using Ne.symm hu.1), ih hu.2]

/-- The first component, and what follows it. -/
theorem exists_piece {path : List UInt8} (hne : path ≠ []) : ∃ u, slash ∉ u ∧
    path.takeWhile (· ≠ slash) = u ∧ (path = u ∧ pieces path = [u] ∨
      ∃ v, path = u ++ slash :: v ∧ pieces path = u :: pieces v) := by
  by_cases hmem : slash ∈ path
  · obtain ⟨u, v, rfl, hu⟩ := List.eq_append_cons_of_mem hmem
    exact ⟨u, hu, takeWhile_append_slash hu v, .inr ⟨v, rfl, pieces_append_slash hu v⟩⟩
  · exact ⟨path, hmem, takeWhile_of_not_mem hmem, .inl ⟨rfl, pieces_of_not_mem hmem hne⟩⟩

/-- The test for `..` looks at the first component. -/
theorem beginsWithDots_append (hu : slash ∉ u) (v : List UInt8) :
    beginsWithDots (u ++ slash :: v) ↔ u = [dot, dot] := by
  rw [beginsWithDots]
  rcases u with _ | ⟨a, _ | ⟨b, _ | ⟨c, u⟩⟩⟩
  · simp [show slash ≠ dot by decide]
  · simp [show slash ≠ dot by decide]
  · simp
  · have hc : c ≠ slash := fun heq => hu (by simp [heq])
    simp [hc]

theorem beginsWithDots_of_not_mem (hu : slash ∉ u) : beginsWithDots u ↔ u = [dot, dot] := by
  rw [beginsWithDots]
  rcases u with _ | ⟨a, _ | ⟨b, _ | ⟨c, u⟩⟩⟩
  · simp
  · simp
  · simp
  · have hc : c ≠ slash := fun heq => hu (by simp [heq])
    simp [hc]

end pieces

section texts

variable {t a b p : List UInt8}

theorem dropWhile_append_slash (ha : slash ∉ a) (b : List UInt8) :
    (a ++ slash :: b).dropWhile (· ≠ slash) = slash :: b := by
  induction a with
  | nil => simp
  | cons c a ih =>
    rw [List.mem_cons, not_or] at ha
    rw [List.cons_append, List.dropWhile_cons, if_pos (by simpa using Ne.symm ha.1), ih ha.2]

theorem popText_append (hb : slash ∉ b) :
    popText (a ++ slash :: b) = if a = [] then [slash] else a := by
  have hrev : (a ++ slash :: b).reverse = b.reverse ++ slash :: a.reverse := by simp
  have hdrop := dropWhile_append_slash (by simpa using hb : slash ∉ b.reverse) a.reverse
  rw [popText, hrev, hdrop, List.drop_one, List.tail_cons, List.reverse_reverse]

/-- The last slash of a text that begins with one. -/
theorem exists_last_slash (ht : t.head? = some slash) :
    ∃ a b, t = a ++ slash :: b ∧ slash ∉ b := by
  have hmem : slash ∈ t.reverse := List.mem_reverse.2 (List.mem_of_mem_head? ht)
  obtain ⟨u, v, heq, hu⟩ := List.eq_append_cons_of_mem hmem
  refine ⟨v.reverse, u.reverse, ?_, by simpa using hu⟩
  rw [← List.reverse_reverse t, heq]
  simp

theorem head_pushText (ht : t.head? = some slash) : (pushText t p).head? = some slash := by
  cases t with
  | nil => cases ht
  | cons c t =>
    rw [pushText]
    split <;> exact ht

theorem head_popText (ht : t.head? = some slash) : (popText t).head? = some slash := by
  obtain ⟨a, b, rfl, hb⟩ := exists_last_slash ht
  rw [popText_append hb]
  cases a with
  | nil => rfl
  | cons c a => exact ht

end texts

/-! ## The edits in memory -/

/-- A string of a buffer of `PATH_MAX` bytes. -/
structure InBuffer (m : ByteMem) (t : List UInt8) : Prop where
  lo : m.lo = 0
  hi : m.hi = PATH_MAX
  holds : m.Holds 0 (t ++ [0])
  noNul : ∀ x ∈ t, x ≠ 0

/-- The first characters of a buffer of `PATH_MAX` bytes. -/
structure Begins (m : ByteMem) (t : List UInt8) : Prop where
  lo : m.lo = 0
  hi : m.hi = PATH_MAX
  holds : m.Holds 0 t
  noNul : ∀ x ∈ t, x ≠ 0

/-- `__cwd_new` with `cwd_end` on the last character of the text `t`. -/
structure Edits (new : ByteMem) (e : ℤ) (t tail : List UInt8) : Prop where
  text : InBuffer new (t ++ tail)
  head : t.head? = some slash
  last : e + 1 = t.length

section memory

variable {m new : ByteMem} {e : ℤ} {t u w tail p path : List UInt8} {len : ℕ}

namespace InBuffer

theorem length_lt (h : InBuffer m t) : t.length < PATH_MAX := by
  have hend := (h.holds.end_le (by simp)).2
  rw [h.hi, List.length_append, List.length_singleton] at hend
  push_cast at hend
  omega

theorem cstring (h : InBuffer m t) : m.cstring 0 = some t :=
    ByteMem.cstring_of_holds h.holds h.noNul

theorem begins (h : InBuffer m (u ++ tail)) : Begins m u := by
  have hholds := h.holds
  rw [List.append_assoc] at hholds
  exact ⟨h.lo, h.hi, (ByteMem.holds_append.1 hholds).1, fun x hx =>
    h.noNul x (List.mem_append_left tail hx)⟩

/-- The last character. -/
theorem load_last {x : UInt8} (h : InBuffer m (u ++ [x])) : m.load u.length = some x := by
  have hholds := h.holds
  rw [List.append_assoc, List.singleton_append] at hholds
  have hload := hholds.load_append
  rwa [zero_add] at hload

end InBuffer

namespace Begins

/-- Characters that are put behind the first ones. -/
theorem put (h : Begins m u) (hw : ∀ x ∈ w, x ≠ 0) (hlen : u.length + w.length ≤ PATH_MAX) :
    ∃ m', m.storeAll u.length w = some m' ∧ Begins m' (u ++ w) := by
  obtain ⟨m', hm', hholds, hlo, hhi⟩ := h.holds.put (l := w) h.lo.le (by
    rw [h.hi]
    omega)
  rw [zero_add] at hm'
  refine ⟨m', hm', hlo.trans h.lo, hhi.trans h.hi, hholds, fun x hx => ?_⟩
  rcases List.mem_append.1 hx with hx | hx
  · exact h.noNul x hx
  · exact hw x hx

/-- A string that is put behind the first characters. -/
theorem putString (h : Begins m u) (hw : ∀ x ∈ w, x ≠ 0) (hlen : u.length + w.length < PATH_MAX) :
    ∃ m', m.storeAll u.length (w ++ [0]) = some m' ∧ InBuffer m' (u ++ w) := by
  obtain ⟨m', hm', hholds, hlo, hhi⟩ := h.holds.put (l := w ++ [0]) h.lo.le (by
    rw [h.hi, List.length_append, List.length_singleton]
    push_cast
    omega)
  rw [zero_add] at hm'
  refine ⟨m', hm', hlo.trans h.lo, hhi.trans h.hi, ?_, fun x hx => ?_⟩
  · rw [List.append_assoc]
    exact hholds
  · rcases List.mem_append.1 hx with hx | hx
    · exact h.noNul x hx
    · exact hw x hx

end Begins

/-- The pointer goes back to the last slash. -/
theorem lastSlash_eq {a b rest : List UInt8} (h : m.Holds 0 (a ++ slash :: (b ++ rest)))
    (hb : slash ∉ b) {n : ℕ} (hn : b.length < n) :
    lastSlash m n (a.length + b.length) = some (a.length : ℤ) := by
  induction b using List.reverseRecOn generalizing n rest with
  | nil =>
    obtain ⟨n, rfl⟩ := Nat.exists_eq_succ_of_ne_zero (Nat.ne_of_gt hn)
    have hload := h.load_append
    rw [zero_add] at hload
    simp [lastSlash, hload]
  | append_singleton b c ih =>
    rw [List.length_append, List.length_singleton] at hn
    obtain ⟨n, rfl⟩ := Nat.exists_eq_succ_of_ne_zero (Nat.ne_of_gt (Nat.zero_lt_of_lt hn))
    have hc : c ≠ slash := fun heq => hb (by simp [heq])
    have hload : m.load (a.length + (b ++ [c]).length) = some c := by
      have h' : m.Holds 0 ((a ++ slash :: b) ++ c :: rest) := by simpa using h
      have hload := h'.load_append
      rw [List.length_append, List.length_cons, zero_add] at hload
      rw [List.length_append, List.length_singleton, ← hload]
      congr 1
    have hholds : m.Holds 0 (a ++ slash :: (b ++ c :: rest)) := by simpa using h
    have hrest := ih hholds (fun hmem => hb (by simp [hmem])) (Nat.lt_of_succ_lt_succ hn)
    have hback : (a.length : ℤ) + (b ++ [c]).length - 1 = a.length + b.length := by
      rw [List.length_append, List.length_singleton]
      push_cast
      ring
    rw [lastSlash, if_pos (by omega), hload]
    simp only [Option.bind_eq_bind, Option.bind_some, ne_eq, hc, not_false_eq_true,
      if_true, hback, hrest]

/-- `..` takes a name away. -/
theorem popName_eq (h : Edits new e t tail) :
    ∃ new' e', popName new e = some (new', e') ∧ Edits new' e' (popText t) [] := by
  obtain ⟨a, b, rfl, hb⟩ := exists_last_slash h.head
  have hholds : new.Holds 0 (a ++ slash :: (b ++ (tail ++ [0]))) := by simpa using h.text.holds
  have he : e = a.length + b.length := by
    have hlast := h.last
    rw [List.length_append, List.length_cons] at hlast
    push_cast at hlast
    omega
  have hslash := lastSlash_eq hholds hb (n := e.toNat + 2) (by omega)
  rw [← he] at hslash
  have hhead := head_popText h.head
  rw [popText_append hb] at hhead ⊢
  rw [popName, hslash]
  have hlt := h.text.length_lt
  rw [List.length_append, List.length_append, List.length_cons] at hlt
  by_cases ha : a = []
  · subst ha
    have htext : InBuffer new ([slash] ++ (b ++ tail)) := by simpa using h.text
    obtain ⟨new', hnew', htext⟩ := htext.begins.putString (w := []) (by simp) (by decide)
    refine ⟨new', 0, ?_, ?_, hhead, rfl⟩
    · rw [List.length_singleton] at hnew'
      push_cast at hnew'
      rw [List.nil_append] at hnew'
      simp [hnew']
    · simpa using htext
  · have hlen : a.length ≠ 0 := fun hzero => ha (List.eq_nil_of_length_eq_zero hzero)
    have htext : InBuffer new (a ++ slash :: (b ++ tail)) := by simpa using h.text
    obtain ⟨new', hnew', htext⟩ :=
      htext.begins.putString (w := []) (by simp) (by rw [List.length_nil]; omega)
    rw [if_neg ha] at hhead ⊢
    refine ⟨new', a.length - 1, ?_, by simpa using htext, hhead, by omega⟩
    rw [List.nil_append] at hnew'
    simp only [Option.bind_eq_bind, Option.bind_some, ne_eq, Nat.cast_eq_zero, hlen,
      not_false_eq_true,
      if_true, hnew', Option.pure_def]

/-- A name is appended, with a zero written behind it twice. -/
theorem putName {m : ByteMem} {u : List UInt8} (h : Begins m u) (hp : ∀ x ∈ path.take len, x ≠ 0)
    (hlen : (path.take len).length = len) (hfit : u.length + len < PATH_MAX) :
    ∃ m₁ m₂, strncpy m u.length path len = some m₁ ∧ m₁.storeAll (u.length + len) [0] = some m₂ ∧
      InBuffer m₂ (u ++ path.take len) := by
  obtain ⟨m₁, hm₁, htext₁⟩ := h.putString hp (by omega)
  have hbegins : Begins m₁ (u ++ path.take len) := by
    rw [← List.append_nil (u ++ path.take len)] at htext₁
    exact htext₁.begins
  obtain ⟨m₂, hm₂, htext₂⟩ := hbegins.putString (w := []) (by simp) (by
    rw [List.length_append, hlen, List.length_nil]
    exact hfit)
  rw [List.length_append, hlen, List.nil_append] at hm₂
  push_cast at hm₂
  rw [List.append_nil] at htext₂
  exact ⟨m₁, m₂, hm₁, hm₂, htext₂⟩

theorem pushName_fits (h : Edits new e t tail) (hp : ∀ x ∈ path.take len, x ≠ 0)
    (hlen : (path.take len).length = len) (hfit : (pushText t (path.take len)).length < PATH_MAX) :
    ∃ new' e', pushName new e path len = some (new', e') ∧
      Edits new' e' (pushText t (path.take len)) [] := by
  have hhead := head_pushText (p := path.take len) h.head
  have hlast := h.last
  have hbegins := h.text.begins
  rw [pushName]
  rw [pushText] at hfit hhead ⊢
  by_cases hroot : t.length = 1
  · rw [if_pos hroot] at hfit hhead ⊢
    rw [List.length_append, hlen] at hfit
    have he : ¬e ≠ 0 := by omega
    obtain ⟨m₁, m₂, hm₁, hm₂, htext⟩ := putName hbegins hp hlen hfit
    rw [← hlast] at hm₁ hm₂
    refine ⟨m₂, e + 1 + len - 1, ?_, by rw [List.append_nil]; exact htext, hhead, ?_⟩
    · simp only [if_neg he, Option.bind_eq_bind, Option.bind_some, hm₁, hm₂, Option.pure_def]
    · rw [List.length_append, hlen]
      omega
  · rw [if_neg hroot] at hfit hhead ⊢
    rw [List.length_append, List.length_cons, hlen] at hfit
    have he : e ≠ 0 := by omega
    obtain ⟨m₀, hm₀, hbegins₀⟩ := hbegins.put (w := [slash]) (by simp [slash]) (by
      rw [List.length_singleton]
      omega)
    obtain ⟨m₁, m₂, hm₁, hm₂, htext⟩ := putName hbegins₀ hp hlen (by
      rw [List.length_append, List.length_singleton]
      omega)
    rw [← hlast] at hm₀
    rw [List.length_append, List.length_singleton] at hm₁ hm₂
    push_cast at hm₁ hm₂
    rw [← hlast] at hm₁ hm₂
    refine ⟨m₂, e + 1 + 1 + len - 1, ?_, by simpa using htext, hhead, ?_⟩
    · simp only [if_pos he, hm₀, Option.map_some, Option.bind_eq_bind, Option.bind_some, hm₁, hm₂,
        Option.pure_def]
    · rw [List.length_append, List.length_cons, hlen]
      omega

/-- A name that does not fit is stored out of range. -/
theorem pushName_none (h : Edits new e t tail) (hlen : (path.take len).length = len)
    (hfit : PATH_MAX ≤ (pushText t (path.take len)).length) : pushName new e path len = none := by
  have hlast := h.last
  rw [pushText] at hfit
  rw [pushName]
  by_cases hroot : t.length = 1
  · rw [if_pos hroot, List.length_append, hlen] at hfit
    have he : ¬e ≠ 0 := by omega
    have hnone : strncpy new (e + 1) path len = none := by
      refine Option.eq_none_iff_forall_ne_some.2 fun m' hm' => ?_
      have hend := ByteMem.end_le_of_storeAll hm' (by simp)
      rw [h.text.hi, List.length_append, List.length_singleton, hlen] at hend
      push_cast at hend
      omega
    simp only [if_neg he, Option.bind_eq_bind, Option.bind_some, hnone, Option.bind_none]
  · rw [if_neg hroot, List.length_append, List.length_cons, hlen] at hfit
    have he : e ≠ 0 := by omega
    cases hm₀ : new.storeAll (e + 1) [slash] with
    | none => simp only [if_pos he, Option.map_none, Option.bind_eq_bind, Option.bind_none]
    | some m₀ =>
      have hhi : m₀.hi = new.hi := ByteMem.hi_of_storeAll hm₀
      have hnone : strncpy m₀ (e + 1 + 1) path len = none := by
        refine Option.eq_none_iff_forall_ne_some.2 fun m' hm' => ?_
        have hend := ByteMem.end_le_of_storeAll hm' (by simp)
        rw [hhi, h.text.hi, List.length_append, List.length_singleton, hlen] at hend
        push_cast at hend
        omega
      simp only [if_pos he, Option.map_some, Option.bind_eq_bind, Option.bind_some, hnone,
        Option.bind_none]

end memory

/-! ## The loop -/

section loop

variable {new : ByteMem} {e : ℤ} {t tail path : List UInt8} {n : ℕ}

/-- What the loop does to a directory. -/
def Walks (r : Option (ByteMem × Except ℕ Unit)) (x : Option (Except ℕ (List UInt8))) : Prop :=
  match x with
  | none => r = none
  | some (.error errno) => ∃ new, r = some (new, .error errno) ∧ new.lo = 0 ∧ new.hi = PATH_MAX
  | some (.ok t) => ∃ new, r = some (new, .ok ()) ∧ InBuffer new t

/-- **The loop walks through the components of the path.** -/
theorem chdirLoop_walk (h : Edits new e t tail) (hpath : ∀ x ∈ path, x ≠ 0) (hn : path.length < n)
    (htail : path = [] → tail = []) :
    Walks (chdirLoop n new e path) (walk t (pieces path)) := by
  induction n generalizing new e t tail path with
  | zero => exact absurd hn (Nat.not_lt_zero _)
  | succ n ih =>
    rw [chdirLoop]
    by_cases hnil : path = []
    · have htext := h.text
      rw [htail hnil, List.append_nil] at htext
      rw [if_pos hnil, hnil]
      exact ⟨new, rfl, htext⟩
    rw [if_neg hnil]
    obtain ⟨u, hu, htake, hpieces⟩ := exists_piece hnil
    have hlast := h.last
    -- the next turn begins behind the slash
    have hrest {new' : ByteMem} {e' : ℤ} {t' v : List UInt8} (h' : Edits new' e' t' [])
        (hv : path = u ++ slash :: v) : Walks (chdirLoop n new' e' v) (walk t' (pieces v)) := by
      refine ih h' (fun x hx => hpath x (by simp [hv, hx])) ?_ fun _ => rfl
      rw [hv, List.length_append, List.length_cons] at hn
      omega
    by_cases hdots : u = [dot, dot]
    · have hbegins : beginsWithDots path := by
        rcases hpieces with ⟨rfl, -⟩ | ⟨v, rfl, -⟩
        · exact (beginsWithDots_of_not_mem hu).2 hdots
        · exact (beginsWithDots_append hu v).2 hdots
      rw [if_pos hbegins]
      by_cases hroot : t.length = 1
      · have hwalk : walk t (pieces path) = some (.error ENOENT) := by
          rcases hpieces with ⟨-, hp⟩ | ⟨v, -, hp⟩ <;> rw [hp, walk, if_pos hdots, if_pos hroot]
        rw [if_pos (by omega), hwalk]
        exact ⟨new, rfl, h.text.lo, h.text.hi⟩
      · obtain ⟨new', e', hpop, hedits⟩ := popName_eq h
        rw [if_neg (by omega : ¬e = 0), hpop]
        rcases hpieces with ⟨hp, hps⟩ | ⟨v, hp, hps⟩
        · have htwo : path[2]? = none := by rw [hp, hdots]; rfl
          rw [hps, walk, if_pos hdots, if_neg hroot]
          simp only [Option.bind_eq_bind, Option.bind_some, htwo, ne_eq,
            not_true_eq_false, if_false]
          exact ⟨new', rfl, by simpa using hedits.text⟩
        · have htwo : path[2]? = some slash := by rw [hp, hdots]; rfl
          have hdrop : path.drop 3 = v := by rw [hp, hdots]; rfl
          rw [hps, walk, if_pos hdots, if_neg hroot]
          simp only [Option.bind_eq_bind, Option.bind_some, htwo, ne_eq, reduceCtorEq,
            not_false_eq_true,
            if_true, hdrop]
          exact hrest hedits hp
    · have hbegins : ¬beginsWithDots path := by
        rcases hpieces with ⟨rfl, -⟩ | ⟨v, rfl, -⟩
        · exact fun hb => hdots ((beginsWithDots_of_not_mem hu).1 hb)
        · exact fun hb => hdots ((beginsWithDots_append hu v).1 hb)
      have htakeLen : path.take u.length = u := by
        rcases hpieces with ⟨hp, -⟩ | ⟨v, hp, -⟩
        · rw [hp, List.take_length]
        · rw [hp, List.take_left]
      have hwalk : ∃ ps, pieces path = u :: ps := by
        rcases hpieces with ⟨-, hp⟩ | ⟨v, -, hp⟩
        · exact ⟨[], hp⟩
        · exact ⟨_, hp⟩
      simp only [if_neg hbegins, htake]
      by_cases hlong : PATH_MAX < t.length + u.length
      · obtain ⟨ps, hps⟩ := hwalk
        rw [if_pos (by omega), hps, walk, if_neg hdots, if_pos hlong]
        exact ⟨new, rfl, h.text.lo, h.text.hi⟩
      rw [if_neg (by omega)]
      by_cases hfit : (pushText t u).length < PATH_MAX
      · have hname : ∀ x ∈ path.take u.length, x ≠ 0 := fun x hx =>
          hpath x (List.mem_of_mem_take hx)
        obtain ⟨new', e', hpush, hedits⟩ := pushName_fits h hname (by rw [htakeLen])
          (by rw [htakeLen]; exact hfit)
        rw [htakeLen] at hedits
        rw [hpush]
        rcases hpieces with ⟨hp, hps⟩ | ⟨v, hp, hps⟩
        · have hdrop : path.drop u.length = [] := by rw [hp, List.drop_length]
          rw [hps, walk, if_neg hdots, if_neg hlong, if_pos hfit]
          simp only [Option.bind_eq_bind, Option.bind_some, hdrop, ne_eq,
            not_true_eq_false, if_false]
          exact ⟨new', rfl, by simpa using hedits.text⟩
        · have hdrop : path.drop u.length = slash :: v := by rw [hp, List.drop_left]
          have hdrop' : path.drop (u.length + 1) = v := by
            rw [← List.drop_drop, hdrop, List.drop_one, List.tail_cons]
          rw [hps, walk, if_neg hdots, if_neg hlong, if_pos hfit]
          simp only [Option.bind_eq_bind, Option.bind_some, hdrop, hdrop', ne_eq, reduceCtorEq,
            not_false_eq_true, if_true]
          exact hrest hedits hp
      · have hnone : pushName new e path u.length = none :=
          pushName_none h (by rw [htakeLen]) (by rw [htakeLen]; omega)
        obtain ⟨ps, hps⟩ := hwalk
        rw [hps, walk, if_neg hdots, if_neg hlong, if_neg hfit, hnone]
        rfl

end loop

/-! ## `chdir` -/

/-- The working directory is the text `t`. -/
structure IsCwd (s : CwdBuffers) (t : List UInt8) : Prop where
  text : InBuffer s.cwd t
  newLo : s.new.lo = 0
  newHi : s.new.hi = PATH_MAX
  head : t.head? = some slash

/-- The buffers of the first program, whose directory is the root. -/
def rootCwd : CwdBuffers where
  cwd := ⟨0, PATH_MAX, Function.update (fun _ => 0) 0 slash⟩
  new := ⟨0, PATH_MAX, fun _ => 0⟩

theorem isCwd_root : IsCwd rootCwd [slash] where
  text := ⟨rfl, rfl, ⟨rfl, rfl, trivial⟩, by simp [slash]⟩
  newLo := rfl
  newHi := rfl
  head := rfl

section chdir

variable {s : CwdBuffers} {t path : List UInt8}

theorem head_walk {ps : List (List UInt8)} {t' : List UInt8} (h : walk t ps = some (.ok t'))
    (ht : t.head? = some slash) : t'.head? = some slash := by
  induction ps generalizing t with
  | nil =>
    cases h
    exact ht
  | cons p ps ih =>
    rw [walk] at h
    split_ifs at h with hdots hroot hlong hfit
    · cases h
    · exact ih h (head_popText ht)
    · cases h
    · exact ih h (head_pushText ht)

/-- A string of another buffer is copied into a buffer of `PATH_MAX` bytes. -/
theorem strcpy_inBuffer {m : ByteMem} (hlo : m.lo = 0) (hhi : m.hi = PATH_MAX)
    (ht : ∀ x ∈ t, x ≠ 0) (hlen : t.length < PATH_MAX) :
    ∃ m', strcpy m 0 t = some m' ∧ InBuffer m' t := by
  have hbegins : Begins m [] := ⟨hlo, hhi, trivial, by simp⟩
  rw [strcpy_eq (length_lt_int hlen)]
  exact hbegins.putString ht (by simpa using hlen)

/-- The pointer to the last character, before a slash at the end. -/
theorem edits_trimSlash {new : ByteMem} (h : InBuffer new t) (ht : t.head? = some slash) :
    ∃ x tail, new.load ((t.length : ℤ) - 1) = some x ∧
      Edits new (if x = slash ∧ (t.length : ℤ) - 1 ≠ 0 then (t.length : ℤ) - 1 - 1
    else t.length - 1)
        (trimSlash t) tail := by
  obtain ⟨front, x, rfl⟩ : ∃ front x, t = front ++ [x] := by
    rcases List.eq_nil_or_concat t with rfl | ⟨front, x, rfl⟩
    · cases ht
    · exact ⟨front, x, List.concat_eq_append⟩
  have hlen : (((front ++ [x]).length : ℕ) : ℤ) - 1 = front.length := by
    rw [List.length_append, List.length_singleton]
    push_cast
    ring
  have hload := h.load_last
  rw [hlen]
  refine ⟨x, if x = slash ∧ front ≠ [] then [slash] else [], hload, ?_⟩
  have hfront : (front.length : ℤ) ≠ 0 ↔ front ≠ [] := by
    rw [Ne, Nat.cast_eq_zero, List.length_eq_zero_iff]
  have htrim : trimSlash (front ++ [x]) = if x = slash ∧
    front ≠ [] then front else front ++ [x] := by
    rw [trimSlash, List.getLast?_concat, List.dropLast_concat, List.length_append,
      List.length_singleton]
    have hone : front.length + 1 ≠ 1 ↔ front ≠ [] := by
      rw [Ne, Nat.add_eq_right, List.length_eq_zero_iff]
    simp only [Option.some.injEq, hone]
  rw [htrim]
  by_cases hslash : x = slash ∧ front ≠ []
  · rw [if_pos ⟨hslash.1, hfront.2 hslash.2⟩, if_pos hslash, if_pos hslash]
    refine ⟨by rw [hslash.1] at h; exact h, ?_, by omega⟩
    obtain ⟨c, front, rfl⟩ := List.exists_cons_of_ne_nil hslash.2
    exact ht
  · rw [if_neg fun hx => hslash ⟨hx.1, hfront.1 hx.2⟩, if_neg hslash, if_neg hslash]
    refine ⟨by rw [List.append_nil]; exact h, ht, ?_⟩
    rw [List.length_append, List.length_singleton]
    push_cast
    ring

/-- **`chdir` on texts.** -/
theorem chdir_text (h : IsCwd s t) (hpath : ∀ x ∈ path, x ≠ 0) :
    match chdirText t path with
    | none => chdir s path = none
    | some (.error errno) => ∃ s', chdir s path = some (s', .error errno) ∧ IsCwd s' t
    | some (.ok t') => ∃ s', chdir s path = some (s', .ok ()) ∧ IsCwd s' t' := by
  obtain ⟨new, hnew, htext⟩ := strcpy_inBuffer h.newLo h.newHi h.text.noNul h.text.length_lt
  rw [chdir, h.text.cstring, chdirText]
  simp only [Option.bind_eq_bind, Option.bind_some, hnew]
  by_cases habs : path.head? = some slash
  · rw [if_pos habs, if_pos habs]
    by_cases hlen : path.length < PATH_MAX
    · obtain ⟨cwd, hcwd, htext'⟩ := strcpy_inBuffer (t := path) h.text.lo h.text.hi hpath hlen
      have hcopy : strncpy s.cwd 0 path PATH_MAX = some cwd := by
        rw [strncpy, List.take_of_length_le hlen.le, ← strcpy_eq (length_lt_int hlen)]
        exact hcwd
      rw [if_pos hlen, hcopy]
      exact ⟨_, rfl, htext', htext.lo, htext.hi, habs⟩
    · have hcopy : strncpy s.cwd 0 path PATH_MAX = none := by
        refine Option.eq_none_iff_forall_ne_some.2 fun m' hm' => ?_
        have hend := ByteMem.end_le_of_storeAll hm' (by simp)
        rw [h.text.hi, List.length_append, List.length_singleton, List.length_take] at hend
        push_cast at hend
        omega
      rw [if_neg hlen, hcopy]
      rfl
  rw [if_neg habs, if_neg habs]
  obtain ⟨x, tail, hload, hedits⟩ := edits_trimSlash htext h.head
  rw [hload]
  simp only [Option.bind_some]
  -- the new directory is copied back
  have hback {new' : ByteMem} {t' : List UInt8} (htext' : InBuffer new' t')
      (hhead : t'.head? = some slash) : ∃ cwd, new'.cstring 0 = some t' ∧
        strcpy s.cwd 0 t' = some cwd ∧ IsCwd ⟨cwd, new'⟩ t' := by
    obtain ⟨cwd, hcwd, hcwdText⟩ := strcpy_inBuffer h.text.lo h.text.hi htext'.noNul
      htext'.length_lt
    exact ⟨cwd, htext'.cstring, hcwd, hcwdText, htext'.lo, htext'.hi, hhead⟩
  by_cases hnil : path = []
  · subst hnil
    obtain ⟨cwd, hstr, hcwd, hs'⟩ := hback htext h.head
    rw [if_pos rfl, List.length_nil, chdirLoop, if_pos rfl]
    simp only [Option.bind_some, hstr, hcwd]
    exact ⟨_, rfl, hs'⟩
  rw [if_neg hnil]
  have hloop := chdirLoop_walk (n := path.length + 1) hedits hpath (Nat.lt_succ_self _)
    fun heq => absurd heq hnil
  cases hwalk : walk (trimSlash t) (pieces path) with
  | none =>
    rw [hwalk] at hloop
    rw [hloop]
    rfl
  | some r =>
    rw [hwalk] at hloop
    cases r with
    | error errno =>
      obtain ⟨new', hnew', hlo, hhi⟩ := hloop
      rw [hnew']
      exact ⟨_, rfl, h.text, hlo, hhi, h.head⟩
    | ok t' =>
      obtain ⟨new', hnew', htext'⟩ := hloop
      obtain ⟨cwd, hstr, hcwd, hs'⟩ := hback htext' (head_walk hwalk hedits.head)
      rw [hnew']
      simp only [Option.bind_some, hstr, hcwd]
      exact ⟨_, rfl, hs'⟩

end chdir

end SadOS.Libc
