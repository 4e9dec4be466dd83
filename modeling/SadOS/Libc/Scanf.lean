import SadOS.Lib.Outcome
import SadOS.Libc.Printf
import Mathlib.Data.Int.ConditionallyCompleteOrder
import Mathlib.Data.List.Basic
import Mathlib.Tactic.Ring

/-!
# `scanf`

`scanf` of `libc/scanf.c` reads its input character by character, one ahead of what it has
matched.  The character read ahead is kept in a static variable from call to call.

At the end of the input `read` returns no character, and may leave any byte in the variable,
as `read` of `libc/rw.c` copies a byte of the response in any case.

## Main definitions

* `scanf` — the source, with `skipSpaces`, `stringLoop`, `hexPrefix`, `numberLoop`, `scanLoop`.
* `leaves` — what a format leaves of an input.
* `Accounts` — a call returns the number of the conversions it has stored, and leaves the
  characters that it has not matched.
* `Clean` — the calls that do, for all input but where `%x` stops at a capital letter.
* `scanf_accounts` — in runs of such calls, all do.
-/

namespace SadOS.Libc

/-! ## The source -/

/-- What `read` does at the end of the input: what it returns, and the byte it leaves. -/
structure Ending where
  ret : ℤ
  fill : Option UInt8
  ret_le : ret ≤ 0

/-- `readahead`, and what `read` has not returned yet. -/
structure Scanner where
  readahead : UInt8
  input : List UInt8
  deriving DecidableEq

/-- What is stored for a conversion. -/
inductive Conv
  | str (s : List UInt8)
  | int (n : BitVec 32)
  | chr (c : UInt8)
  deriving DecidableEq

/-- A call: the scanner, what was stored so far, and how many characters were gone past. -/
structure Scan extends Scanner where
  stored : List Conv
  taken : ℕ

def Scan.store (s : Scan) (c : Conv) : Scan := { s with stored := s.stored ++ [c] }

def isspace (c : UInt8) : Bool := c == ' '.toUInt8 || c == '\n'.toUInt8 || c == '\t'.toUInt8

/-- A `char` as a number. -/
def charVal (c : UInt8) : ℤ := c.toInt8.toInt

/-- `ret = read(1, &readahead, 1)`, behind a character that was matched. -/
def readNext (e : Ending) (s : Scan) : ℤ × Scan :=
  match s.input with
  | c :: input => (1, { s with readahead := c, input := input, taken := s.taken + 1 })
  | [] => (e.ret, { s with readahead := e.fill.getD s.readahead, taken := s.taken + 1 })

theorem length_readNext {e : Ending} {s : Scan} (h : ¬(readNext e s).1 ≤ 0) :
    (readNext e s).2.input.length < s.input.length := by
  rw [readNext] at h ⊢
  cases hs : s.input with
  | nil =>
    rw [hs] at h
    exact absurd e.ret_le h
  | cons c input => exact Nat.lt_succ_self _

/-- `while (isspace(readahead))`: whether the input goes on. -/
def skipSpaces (e : Ending) (s : Scan) : Bool × Scan :=
  if isspace s.readahead then
    if h : (readNext e s).1 ≤ 0 then (false, (readNext e s).2)
    else
      have := length_readNext h
      skipSpaces e (readNext e s).2
  else (true, s)
termination_by s.input.length

/-- The loop of `%s`: whether the input goes on, and the string. -/
def stringLoop (e : Ending) (s : Scan) (str : List UInt8) : Bool × List UInt8 × Scan :=
  if !isspace s.readahead then
    let str := str ++ [s.readahead]
    if h : (readNext e s).1 ≤ 0 then (false, str, (readNext e s).2)
    else
      have := length_readNext h
      stringLoop e (readNext e s).2 str
  else (true, str, s)
termination_by s.input.length

/-- The prefix `0x` of `%x`, of which the `x` may be missing. -/
def hexPrefix (e : Ending) (s : Scan) : Bool × Scan :=
  if s.readahead = '0'.toUInt8 then
    let (ret, s) := readNext e s
    if ret ≤ 0 then (false, s)
    else if s.readahead = 'x'.toUInt8 then
      let (ret, s) := readNext e s
      if ret ≤ 0 then (false, s) else (true, s)
    else (true, s)
  else (true, s)

/-- `if (readahead >= 'A' && readahead <= 'Z') readahead += 32`. -/
def foldCase (c : UInt8) : UInt8 := if 65 ≤ charVal c ∧ charVal c ≤ 90 then c + 32 else c

/-- Letters are folded for base 16. -/
def Scan.fold (base : Base) (s : Scan) : Scan :=
  { s with readahead := if base.val = 10 then s.readahead else foldCase s.readahead }

/-- Whether the loop over the digits goes on. -/
def isDigit (base : Base) (c : UInt8) : Bool :=
  if base.val = 10 then !(decide (charVal c > 57) || decide (charVal c < 48))
  else !((decide (charVal c < 48) || decide (charVal c > 57)) &&
    (decide (charVal c < 97) || decide (charVal c > 102)))

/-- `res *= base`, and the next digit, on an `int`. -/
def addDigit (base : Base) (res : BitVec 32) (c : UInt8) : BitVec 32 :=
  let res := res * BitVec.ofNat 32 base.val
  if charVal c ≥ 97 then res + BitVec.ofInt 32 (charVal c - 97 + 10)
  else res + BitVec.ofInt 32 (charVal c - 48)

/-- The loop over the digits, which folds the case of letters for base 16. -/
def numberLoop (e : Ending) (base : Base) (s : Scan) (res : BitVec 32) :
    Bool × BitVec 32 × Scan :=
  if isDigit base (s.fold base).readahead then
    let res := addDigit base res (s.fold base).readahead
    if h : (readNext e (s.fold base)).1 ≤ 0 then (false, res, (readNext e (s.fold base)).2)
    else
      have : (readNext e (s.fold base)).2.input.length < s.input.length := length_readNext h
      numberLoop e base (readNext e (s.fold base)).2 res
  else (true, res, s.fold base)
termination_by s.input.length

/-- The loop over the format: what is returned, and the state. -/
def scanLoop (e : Ending) : List UInt8 → ℤ → Scan → ℤ × Scan
  | [], readCount, s => (readCount, s)
  | f :: fmt, readCount, s =>
    if isspace f then
      match skipSpaces e s with
      | (false, s) => (0, s)
      | (true, s) => scanLoop e fmt readCount s
    else if f = percent then
      match fmt with
      | [] => (readCount, s)
      | d :: fmt =>
        if d = percent then
          if s.readahead ≠ percent then (readCount, s)
          else
            let (ret, s) := readNext e s
            if ret ≤ 0 then (0, s) else scanLoop e fmt readCount s
        else if d = 's'.toUInt8 ∨ d = 'd'.toUInt8 ∨ d = 'x'.toUInt8 then
          match skipSpaces e s with
          | (false, s) => (0, s)
          | (true, s) =>
            if d = 's'.toUInt8 then
              match stringLoop e s [] with
              | (false, str, s) => (readCount + 1, s.store (.str str))
              | (true, str, s) => scanLoop e fmt (readCount + 1) (s.store (.str str))
            else
              let base := if d = 'x'.toUInt8 then hexadecimal else decimal
              match if d = 'x'.toUInt8 then hexPrefix e s else (true, s) with
              | (false, s) => (0, s.store (.int 0))
              | (true, s) =>
                match numberLoop e base s 0 with
                | (false, res, s) => (readCount + 1, s.store (.int res))
                | (true, res, s) => scanLoop e fmt (readCount + 1) (s.store (.int res))
        else if d = 'c'.toUInt8 then
          let (ret, s) := readNext e (s.store (.chr s.readahead))
          if ret ≤ 0 then (0, s) else scanLoop e fmt (readCount + 1) s
        else (readCount, s)
    else if s.readahead ≠ f then (readCount, s)
    else
      let (ret, s) := readNext e s
      if ret ≤ 0 then (0, s) else scanLoop e fmt readCount s

/-- `scanf`. -/
def scanf (e : Ending) (fmt : CString) (s : Scanner) : ℤ × Scan :=
  if s.readahead = 0 then
    match s.input with
    | [] => (0, ⟨⟨e.fill.getD 0, []⟩, [], 0⟩)
    | c :: input => scanLoop e fmt.bytes 0 ⟨⟨c, input⟩, [], 0⟩
  else scanLoop e fmt.bytes 0 ⟨s, [], 0⟩

/-! ## What calls leave -/

/-- The characters that have not been matched. -/
def Scanner.pending (s : Scanner) : List UInt8 :=
  if s.readahead = 0 then s.input else s.readahead :: s.input

/-- A call returns the number of the conversions that it has stored, and what was not matched
is left as it was. -/
def Accounts (e : Ending) (s : Scanner) (fmt : CString) : Prop :=
  let r := scanf e fmt s
  r.1 = r.2.stored.length ∧ r.2.toScanner.pending = s.pending.drop r.2.taken

/-- What a format leaves of an input. -/
inductive Left
  /-- The call stops at the first of these characters. -/
  | rest (l : List UInt8)
  /-- The input ends, and the call returns the number of conversions or not. -/
  | nothing (counted : Bool)
  /-- A conversion `%x` stops at a capital letter. -/
  | folds
  deriving DecidableEq

/-- What is left behind the prefix `0x`, if the input goes on. -/
def behindPrefix (l : List UInt8) : List UInt8 :=
  match l with
  | [] => []
  | c :: l =>
    if c = '0'.toUInt8 then
      match l with
      | [] => []
      | d :: l => if d = 'x'.toUInt8 then l else d :: l
    else c :: l

/-- What a format leaves of the input `l`, when `n` conversions were stored before. -/
def leaves : List UInt8 → ℕ → List UInt8 → Left
  | [], _, l => .rest l
  | f :: fmt, n, l =>
    if isspace f then
      match l.dropWhile isspace with
      | [] => .nothing (n == 0)
      | c :: l => leaves fmt n (c :: l)
    else if f = percent then
      match fmt with
      | [] => .rest l
      | d :: fmt =>
        if d = percent then
          if l.head? ≠ some percent then .rest l
          else if l.tail = [] then .nothing (n == 0)
          else leaves fmt n l.tail
        else if d = 's'.toUInt8 ∨ d = 'd'.toUInt8 ∨ d = 'x'.toUInt8 then
          match l.dropWhile isspace with
          | [] => .nothing (n == 0)
          | c :: l =>
            if d = 's'.toUInt8 then
              match (c :: l).dropWhile fun c => !isspace c with
              | [] => .nothing true
              | c :: l => leaves fmt (n + 1) (c :: l)
            else if d = 'd'.toUInt8 then
              match (c :: l).dropWhile (isDigit decimal) with
              | [] => .nothing true
              | c :: l => leaves fmt (n + 1) (c :: l)
            else
              match behindPrefix (c :: l) with
              | [] => .nothing false
              | c :: l =>
                match (c :: l).dropWhile fun c => isDigit hexadecimal (foldCase c) with
                | [] => .nothing true
                | c :: l => if foldCase c ≠ c then .folds else leaves fmt (n + 1) (c :: l)
        else if d = 'c'.toUInt8 then
          if l.tail = [] then .nothing false else leaves fmt (n + 1) l.tail
        else .rest l
    else if l.head? ≠ some f then .rest l
    else if l.tail = [] then .nothing (n == 0)
    else leaves fmt n l.tail

/-- The byte in `readahead` once the input has ended, but for the case of a letter. -/
def leftover (e : Ending) (l : List UInt8) : UInt8 := e.fill.getD (l.getLastD 0)

/-- The call stops at a character other than a zero and does not change it; or it finds the
end of the input, counts what it has stored, and no character is left. -/
def Clean (e : Ending) (s : Scanner) (fmt : CString) : Prop :=
  if s.pending = [] then leftover e [] = 0
  else
    match leaves fmt.bytes 0 s.pending with
    | .rest l => l.head? ≠ some 0
    | .nothing counted => counted = true ∧ leftover e s.pending = 0
    | .folds => False

/-! ## The loops -/

section loops

variable {e : Ending} {s : Scan} {l : List UInt8}

theorem readNext_cons {c : UInt8} {input : List UInt8} (h : s.input = c :: input) :
    readNext e s = (1, { s with readahead := c, input := input, taken := s.taken + 1 }) := by
  rw [readNext, h]

theorem readNext_nil (h : s.input = []) :
    readNext e s = (e.ret, { s with readahead := e.fill.getD s.readahead, taken := s.taken + 1 }) := by
  rw [readNext, h]

/-- A change of `readahead`. -/
def Scan.map (g : UInt8 → UInt8) (s : Scan) : Scan := { s with readahead := g s.readahead }

/-- `while (p(readahead)) read(...)`, where `g` is done to each character. -/
def passWhile (e : Ending) (p : UInt8 → Bool) (g : UInt8 → UInt8) (s : Scan) : Bool × Scan :=
  if p (g s.readahead) then
    if h : (readNext e (s.map g)).1 ≤ 0 then (false, (readNext e (s.map g)).2)
    else
      have : (readNext e (s.map g)).2.input.length < s.input.length := length_readNext h
      passWhile e p g (readNext e (s.map g)).2
  else (true, s.map g)
termination_by s.input.length

variable {p : UInt8 → Bool} {g : UInt8 → UInt8}

theorem passWhile_stop (hp : ¬p (g s.readahead) = true) : passWhile e p g s = (true, s.map g) := by
  rw [passWhile, if_neg hp]

theorem passWhile_end (hp : p (g s.readahead) = true) (h : (readNext e (s.map g)).1 ≤ 0) :
    passWhile e p g s = (false, (readNext e (s.map g)).2) := by
  rw [passWhile, if_pos hp, dif_pos h]

theorem passWhile_go (hp : p (g s.readahead) = true) (h : ¬(readNext e (s.map g)).1 ≤ 0) :
    passWhile e p g s = passWhile e p g (readNext e (s.map g)).2 := by
  rw [passWhile, if_pos hp, dif_neg h]

theorem skipSpaces_eq (e : Ending) (s : Scan) : skipSpaces e s = passWhile e isspace id s := by
  fun_induction skipSpaces e s with
  | case1 s hp h => exact (passWhile_end (g := id) hp h).symm
  | case2 s hp h _ ih => exact ih.trans (passWhile_go (g := id) hp h).symm
  | case3 s hp => exact (passWhile_stop (g := id) hp).symm

theorem stringLoop_eq (e : Ending) (s : Scan) (str : List UInt8) :
    ∃ str', stringLoop e s str = ((passWhile e (fun c => !isspace c) id s).1, str',
      (passWhile e (fun c => !isspace c) id s).2) := by
  fun_induction stringLoop e s str with
  | case1 s str hp str' h =>
    refine ⟨str', ?_⟩
    rw [passWhile_end (p := fun c => !isspace c) (g := id) hp h]
    rfl
  | case2 s str hp str' h _ ih =>
    obtain ⟨str₁, ih⟩ := ih
    refine ⟨str₁, ?_⟩
    rw [passWhile_go (p := fun c => !isspace c) (g := id) hp h]
    exact ih
  | case3 s str hp =>
    refine ⟨str, ?_⟩
    rw [passWhile_stop (p := fun c => !isspace c) (g := id) hp]
    rfl

/-- What is done to a character for a base. -/
def foldFor (base : Base) (c : UInt8) : UInt8 := if base.val = 10 then c else foldCase c

theorem numberLoop_eq (e : Ending) (base : Base) (s : Scan) (res : BitVec 32) :
    ∃ res', numberLoop e base s res = ((passWhile e (isDigit base) (foldFor base) s).1, res',
      (passWhile e (isDigit base) (foldFor base) s).2) := by
  fun_induction numberLoop e base s res with
  | case1 s res hp res' h =>
    refine ⟨res', ?_⟩
    rw [passWhile_end (p := isDigit base) (g := foldFor base) hp h]
    rfl
  | case2 s res hp res' h _ ih =>
    obtain ⟨res₁, ih⟩ := ih
    refine ⟨res₁, ?_⟩
    rw [passWhile_go (p := isDigit base) (g := foldFor base) hp h]
    exact ih
  | case3 s res hp =>
    refine ⟨res, ?_⟩
    rw [passWhile_stop (p := isDigit base) (g := foldFor base) hp]
    rfl

/-! ### Characters that were gone past -/

/-- The character read ahead, and the input behind it. -/
def Scan.chars (s : Scan) : List UInt8 := s.readahead :: s.input

/-- Some characters were gone past, and the next one is read ahead. -/
structure Moved (s s' : Scan) : Prop where
  suffix : s'.chars <:+ s.chars
  taken : s'.taken + s'.chars.length = s.taken + s.chars.length

/-- All characters were gone past. -/
structure Ended (e : Ending) (s s' : Scan) : Prop where
  input : s'.input = []
  taken : s'.taken = s.taken + s.chars.length
  readahead : s'.readahead = 0 ↔ leftover e s.chars = 0

theorem Moved.refl (s : Scan) : Moved s s := ⟨List.suffix_refl _, rfl⟩

theorem Moved.trans {s₁ s₂ : Scan} (h : Moved s s₁) (h' : Moved s₁ s₂) : Moved s s₂ :=
  ⟨h'.suffix.trans h.suffix, h'.taken.trans h.taken⟩

/-- The last character is that of any suffix. -/
theorem Moved.leftover {s₁ : Scan} (h : Moved s s₁) (e : Ending) :
    leftover e s₁.chars = leftover e s.chars := by
  obtain ⟨pre, hpre⟩ := h.suffix
  have hne : s₁.chars ≠ [] := List.cons_ne_nil _ _
  rw [Libc.leftover, Libc.leftover, ← hpre, List.getLastD_eq_getLast?, List.getLastD_eq_getLast?,
    List.getLast?_append_of_ne_nil _ hne]

theorem Moved.ended {s₁ s₂ : Scan} (h : Moved s s₁) (h' : Ended e s₁ s₂) : Ended e s s₂ :=
  ⟨h'.input, h'.taken.trans h.taken, h'.readahead.trans (by rw [h.leftover e])⟩

theorem readNext_ended (h : s.input = []) :
    (readNext e s).1 ≤ 0 ∧ (readNext e s).2.stored = s.stored ∧ Ended e s (readNext e s).2 := by
  rw [readNext_nil h]
  refine ⟨e.ret_le, rfl, h, ?_, ?_⟩
  · rw [Scan.chars, h]
    rfl
  · rw [leftover, Scan.chars, h]
    exact Iff.rfl

theorem readNext_goes (h : s.input ≠ []) :
    ¬(readNext e s).1 ≤ 0 ∧ (readNext e s).2.stored = s.stored ∧
      (readNext e s).2.taken = s.taken + 1 ∧ (readNext e s).2.chars = s.input := by
  obtain ⟨c, l, hl⟩ := List.exists_cons_of_ne_nil h
  rw [readNext_cons hl]
  exact ⟨Int.not_le.2 Int.one_pos, rfl, rfl, hl.symm⟩

/-- One character was gone past. -/
theorem moved_tail {s₁ : Scan} (htaken : s₁.taken = s.taken + 1) (hchars : s₁.chars = s.input) :
    Moved s s₁ := by
  refine ⟨?_, ?_⟩
  · rw [hchars, Scan.chars]
    exact List.suffix_cons _ _
  · rw [hchars, htaken, Scan.chars, List.length_cons]
    omega

/-- A change that leaves zeros does not matter at the end. -/
theorem Ended.of_map {s' : Scan} (hg : ∀ c, g c = 0 ↔ c = 0) (h : Ended e (s.map g) s')
    (hs : s.input = []) : Ended e s s' := by
  refine ⟨h.input, h.taken, h.readahead.trans ?_⟩
  have hchars : s.chars = [s.readahead] := by rw [Scan.chars, hs]
  have hmap : (s.map g).chars = [g s.readahead] := by
    rw [Scan.chars, show (s.map g).input = s.input from rfl, hs]
    rfl
  rw [leftover, leftover, hchars, hmap]
  cases e.fill with
  | none => exact hg _
  | some b => exact Iff.rfl

/-- A loop that goes past the characters with a property. -/
theorem passWhile_spec (hg : ∀ c, g c = 0 ↔ c = 0) (e : Ending) (s : Scan) :
    match s.chars.dropWhile fun c => p (g c) with
    | [] => ∃ s', passWhile e p g s = (false, s') ∧ s'.stored = s.stored ∧ Ended e s s'
    | c :: l => ∃ s₁, passWhile e p g s = (true, s₁.map g) ∧ s₁.stored = s.stored ∧ Moved s s₁ ∧
        s₁.chars = c :: l := by
  fun_induction passWhile e p g s with
  | case1 s hp h =>
    have hs : s.input = [] := by
      by_contra hne
      exact (readNext_goes (s := s.map g) hne).1 h
    obtain ⟨-, hstored, hended⟩ := readNext_ended (e := e) (s := s.map g) hs
    have hdrop : s.chars.dropWhile (fun c => p (g c)) = [] := by
      rw [Scan.chars, hs]
      exact List.dropWhile_cons_of_pos hp
    rw [hdrop]
    exact ⟨_, rfl, hstored, hended.of_map hg hs⟩
  | case2 s hp h _ ih =>
    have hs : s.input ≠ [] := fun hnil => h (readNext_ended (s := s.map g) hnil).1
    obtain ⟨-, hstored, htaken, hchars⟩ := readNext_goes (e := e) (s := s.map g) hs
    have hmoved : Moved s (readNext e (s.map g)).2 := moved_tail htaken hchars
    have hdrop : s.chars.dropWhile (fun c => p (g c)) =
        (readNext e (s.map g)).2.chars.dropWhile fun c => p (g c) := by
      rw [hchars]
      exact List.dropWhile_cons_of_pos hp
    rw [hdrop]
    split at ih
    next hnil =>
      obtain ⟨s', hs', hstored', hended⟩ := ih
      exact ⟨s', hs', hstored'.trans hstored, hmoved.ended hended⟩
    next c l hcons =>
      obtain ⟨s₁, hs₁, hstored₁, hmoved₁, hchars₁⟩ := ih
      exact ⟨s₁, hs₁, hstored₁.trans hstored, hmoved.trans hmoved₁, hchars₁⟩
  | case3 s hp =>
    have hdrop : s.chars.dropWhile (fun c => p (g c)) = s.chars :=
      List.dropWhile_cons_of_neg hp
    rw [hdrop]
    exact ⟨s, rfl, rfl, Moved.refl s, rfl⟩

theorem behindPrefix_of_ne {c : UInt8} (h : c ≠ '0'.toUInt8) (l : List UInt8) :
    behindPrefix (c :: l) = c :: l := if_neg h

theorem behindPrefix_zero {c : UInt8} (h : c = '0'.toUInt8) (l : List UInt8) :
    behindPrefix (c :: l) =
      match l with
      | [] => []
      | d :: l => if d = 'x'.toUInt8 then l else d :: l := if_pos h

theorem hexPrefix_spec (e : Ending) (s : Scan) :
    match behindPrefix s.chars with
    | [] => ∃ s', hexPrefix e s = (false, s') ∧ s'.stored = s.stored ∧ Ended e s s'
    | c :: l => ∃ s₁, hexPrefix e s = (true, s₁) ∧ s₁.stored = s.stored ∧ Moved s s₁ ∧
        s₁.chars = c :: l := by
  by_cases hzero : s.readahead = '0'.toUInt8
  case neg =>
    rw [hexPrefix, if_neg hzero, Scan.chars, behindPrefix_of_ne hzero]
    exact ⟨s, rfl, rfl, Moved.refl s, rfl⟩
  rw [hexPrefix, if_pos hzero]
  by_cases hs : s.input = []
  · obtain ⟨hret, hstored, hended⟩ := readNext_ended (e := e) hs
    rw [Scan.chars, behindPrefix_zero hzero, hs]
    simp only [if_pos hret]
    exact ⟨_, rfl, hstored, hended⟩
  obtain ⟨hret, hstored, htaken, hchars⟩ := readNext_goes (e := e) hs
  have hmoved : Moved s (readNext e s).2 := moved_tail htaken hchars
  simp only [if_neg hret]
  generalize (readNext e s).2 = s₁ at hstored htaken hchars hmoved ⊢
  by_cases hx : s₁.readahead = 'x'.toUInt8
  case neg =>
    have hbehind : behindPrefix s.chars = s₁.chars := by
      rw [Scan.chars, behindPrefix_zero hzero, ← hchars, Scan.chars]
      exact if_neg hx
    rw [hbehind, if_neg hx]
    exact ⟨s₁, rfl, hstored, hmoved, rfl⟩
  have hbehind : behindPrefix s.chars = s₁.input := by
    rw [Scan.chars, behindPrefix_zero hzero, ← hchars, Scan.chars]
    exact if_pos hx
  rw [hbehind, if_pos hx]
  by_cases hs₁ : s₁.input = []
  · obtain ⟨hret₁, hstored₁, hended₁⟩ := readNext_ended (e := e) hs₁
    rw [hs₁]
    simp only [if_pos hret₁]
    exact ⟨_, rfl, hstored₁.trans hstored, hmoved.ended hended₁⟩
  · obtain ⟨hret₁, hstored₁, htaken₁, hchars₁⟩ := readNext_goes (e := e) hs₁
    rw [← hchars₁, Scan.chars]
    simp only [if_neg hret₁]
    exact ⟨_, rfl, hstored₁.trans hstored, hmoved.trans (moved_tail htaken₁ hchars₁), rfl⟩

end loops

/-! ## What is left -/

/-- A call does what `leaves` says. -/
def Meets (e : Ending) (s : Scan) (left : Left) (r : ℤ × Scan) : Prop :=
  match left with
  | .rest l => r.1 = r.2.stored.length ∧ Moved s r.2 ∧ r.2.chars = l
  | .nothing counted => Ended e s r.2 ∧ (r.1 = r.2.stored.length ↔ counted = true)
  | .folds => True

section meets

variable {e : Ending} {s s₁ : Scan} {left : Left} {r : ℤ × Scan}

theorem Meets.trans (h : Moved s s₁) (h' : Meets e s₁ left r) : Meets e s left r := by
  cases left with
  | rest l => exact ⟨h'.1, h.trans h'.2.1, h'.2.2⟩
  | nothing counted => exact ⟨h.ended h'.1, h'.2⟩
  | folds => trivial

/-- The end of the input, where nothing is returned. -/
theorem meets_errq (h : Ended e s s₁) {n : ℕ} (hn : s₁.stored.length = n) :
    Meets e s (.nothing (n == 0)) (0, s₁) := by
  refine ⟨h, ?_⟩
  rw [hn, beq_iff_eq]
  omega

theorem charVal_eq (c : UInt8) :
    charVal c = if c.toNat < 128 then (c.toNat : ℤ) else c.toNat - 256 := by
  have hint := BitVec.toInt_eq_toNat_cond c.toBitVec
  have hnat : c.toBitVec.toNat = c.toNat := rfl
  rw [hnat] at hint
  rw [charVal, show c.toInt8.toInt = c.toBitVec.toInt from rfl, hint]
  split_ifs <;> omega

theorem foldCase_eq_zero (c : UInt8) : foldCase c = 0 ↔ c = 0 := by
  rw [foldCase]
  split
  next h =>
    have hval := charVal_eq c
    have hlt := c.toNat_lt
    have hsum : (c + 32).toNat = (c.toNat + 32) % 256 := UInt8.toNat_add c 32
    rw [← UInt8.toNat_inj, ← UInt8.toNat_inj, hsum, UInt8.toNat_zero]
    split at hval <;> omega
  next => exact Iff.rfl

theorem foldFor_eq_zero (base : Base) (c : UInt8) : foldFor base c = 0 ↔ c = 0 := by
  rw [foldFor]
  split
  · exact Iff.rfl
  · exact foldCase_eq_zero c

theorem skipSpaces_spec (e : Ending) (s : Scan) :
    match s.chars.dropWhile isspace with
    | [] => ∃ s', skipSpaces e s = (false, s') ∧ s'.stored = s.stored ∧ Ended e s s'
    | c :: l => ∃ s₁, skipSpaces e s = (true, s₁) ∧ s₁.stored = s.stored ∧ Moved s s₁ ∧
        s₁.chars = c :: l := by
  rw [skipSpaces_eq]
  exact passWhile_spec (g := id) (fun _ => Iff.rfl) e s

theorem stringLoop_spec (e : Ending) (s : Scan) (str : List UInt8) :
    match s.chars.dropWhile fun c => !isspace c with
    | [] => ∃ str' s', stringLoop e s str = (false, str', s') ∧ s'.stored = s.stored ∧ Ended e s s'
    | c :: l => ∃ str' s₁, stringLoop e s str = (true, str', s₁) ∧ s₁.stored = s.stored ∧
        Moved s s₁ ∧ s₁.chars = c :: l := by
  obtain ⟨str', hstr⟩ := stringLoop_eq e s str
  have hspec := passWhile_spec (p := fun c => !isspace c) (g := id) (fun _ => Iff.rfl) e s
  rw [hstr]
  simp only [id_eq] at hspec
  split at hspec
  next =>
    obtain ⟨s', hs', hspec⟩ := hspec
    exact ⟨str', s', by rw [hs'], hspec⟩
  next =>
    obtain ⟨s₁, hs₁, hspec⟩ := hspec
    exact ⟨str', s₁, by rw [hs₁]; rfl, hspec⟩

theorem numberLoop_spec (e : Ending) (base : Base) (s : Scan) (res : BitVec 32) :
    match s.chars.dropWhile fun c => isDigit base (foldFor base c) with
    | [] => ∃ res' s', numberLoop e base s res = (false, res', s') ∧ s'.stored = s.stored ∧
        Ended e s s'
    | c :: l => ∃ res' s₁, numberLoop e base s res = (true, res', s₁.map (foldFor base)) ∧
        s₁.stored = s.stored ∧ Moved s s₁ ∧ s₁.chars = c :: l := by
  obtain ⟨res', hres⟩ := numberLoop_eq e base s res
  have hspec := passWhile_spec (p := isDigit base) (foldFor_eq_zero base) e s
  rw [hres]
  split at hspec
  next =>
    obtain ⟨s', hs', hspec⟩ := hspec
    exact ⟨res', s', by rw [hs'], hspec⟩
  next =>
    obtain ⟨s₁, hs₁, hspec⟩ := hspec
    exact ⟨res', s₁, by rw [hs₁], hspec⟩

end meets

section scanLoop

variable {e : Ending} {f d : UInt8} {fmt : List UInt8} {n : ℤ} {s : Scan}

theorem scanLoop_space (hf : isspace f = true) :
    scanLoop e (f :: fmt) n s =
      match skipSpaces e s with
      | (false, s) => (0, s)
      | (true, s) => scanLoop e fmt n s := by
  rw [scanLoop.eq_def]
  exact if_pos hf

/-- A character that must be in the input. -/
theorem scanLoop_lit (hf : ¬isspace f = true) (hp : f ≠ percent) :
    scanLoop e (f :: fmt) n s =
      if s.readahead ≠ f then (n, s)
      else if (readNext e s).1 ≤ 0 then (0, (readNext e s).2)
      else scanLoop e fmt n (readNext e s).2 := by
  rw [scanLoop.eq_def]
  exact (if_neg hf).trans (if_neg hp)

theorem scanLoop_percent :
    scanLoop e (percent :: percent :: fmt) n s =
      if s.readahead ≠ percent then (n, s)
      else if (readNext e s).1 ≤ 0 then (0, (readNext e s).2)
      else scanLoop e fmt n (readNext e s).2 := rfl

theorem scanLoop_conv (hd : d = 's'.toUInt8 ∨ d = 'd'.toUInt8 ∨ d = 'x'.toUInt8) :
    scanLoop e (percent :: d :: fmt) n s =
      match skipSpaces e s with
      | (false, s) => (0, s)
      | (true, s) =>
        if d = 's'.toUInt8 then
          match stringLoop e s [] with
          | (false, str, s) => (n + 1, s.store (.str str))
          | (true, str, s) => scanLoop e fmt (n + 1) (s.store (.str str))
        else
          match if d = 'x'.toUInt8 then hexPrefix e s else (true, s) with
          | (false, s) => (0, s.store (.int 0))
          | (true, s) =>
            match numberLoop e (if d = 'x'.toUInt8 then hexadecimal else decimal) s 0 with
            | (false, res, s) => (n + 1, s.store (.int res))
            | (true, res, s) => scanLoop e fmt (n + 1) (s.store (.int res)) := by
  have hne : d ≠ percent := by
    rintro rfl
    exact absurd hd (by decide)
  exact (if_neg hne).trans (if_pos hd)

theorem scanLoop_char :
    scanLoop e (percent :: 'c'.toUInt8 :: fmt) n s =
      if (readNext e (s.store (.chr s.readahead))).1 ≤ 0 then
        (0, (readNext e (s.store (.chr s.readahead))).2)
      else scanLoop e fmt (n + 1) (readNext e (s.store (.chr s.readahead))).2 := rfl

theorem scanLoop_other (hd : ¬(d = 's'.toUInt8 ∨ d = 'd'.toUInt8 ∨ d = 'x'.toUInt8))
    (hp : d ≠ percent) (hc : d ≠ 'c'.toUInt8) :
    scanLoop e (percent :: d :: fmt) n s = (n, s) :=
  (if_neg hp).trans ((if_neg hd).trans (if_neg hc))

end scanLoop

section leaves

variable {e : Ending} {s : Scan} {n : ℕ}

@[simp] theorem length_store (s : Scan) (c : Conv) :
    (s.store c).stored.length = s.stored.length + 1 := by
  rw [Scan.store, List.length_append, List.length_singleton]

theorem head?_chars {f : UInt8} : s.chars.head? ≠ some f ↔ s.readahead ≠ f := by
  rw [Scan.chars, List.head?_cons, ne_eq, Option.some.injEq]

/-- A stop in front of a character. -/
theorem meets_stop (hn : s.stored.length = n) : Meets e s (.rest s.chars) ((n : ℤ), s) :=
  ⟨by rw [hn], Moved.refl s, rfl⟩

theorem Meets.of_store {c : Conv} {left : Left} {r : ℤ × Scan} (h : Meets e (s.store c) left r) :
    Meets e s left r := by
  have hmoved : Moved s (s.store c) := ⟨List.suffix_refl _, rfl⟩
  exact h.trans hmoved

theorem Ended.of_store {s' : Scan} (h : Ended e s s') (c : Conv) : Ended e s (s'.store c) :=
  ⟨h.input, h.taken, h.readahead⟩

/-- The end of the input inside of a conversion, which is counted. -/
theorem meets_end {s' : Scan} (h : Ended e s s') (hn : s'.stored.length = n) (c : Conv) :
    Meets e s (.nothing true) ((n : ℤ) + 1, s'.store c) := by
  refine ⟨h.of_store c, iff_of_true ?_ rfl⟩
  rw [length_store, hn]
  rfl

/-- The digits of `%d`. -/
theorem decimal_spec (e : Ending) (s : Scan) :
    match s.chars.dropWhile (isDigit decimal) with
    | [] => ∃ res s', numberLoop e decimal s 0 = (false, res, s') ∧ s'.stored = s.stored ∧
        Ended e s s'
    | c :: l => ∃ res s₁, numberLoop e decimal s 0 = (true, res, s₁) ∧ s₁.stored = s.stored ∧
        Moved s s₁ ∧ s₁.chars = c :: l := numberLoop_spec e decimal s 0

/-- The digits of `%x`, where no capital letter follows. -/
theorem hexadecimal_spec (e : Ending) (s : Scan) :
    match s.chars.dropWhile fun c => isDigit hexadecimal (foldCase c) with
    | [] => ∃ res s', numberLoop e hexadecimal s 0 = (false, res, s') ∧ s'.stored = s.stored ∧
        Ended e s s'
    | c :: l => foldCase c = c → ∃ res s₁, numberLoop e hexadecimal s 0 = (true, res, s₁) ∧
        s₁.stored = s.stored ∧ Moved s s₁ ∧ s₁.chars = c :: l := by
  have hspec := numberLoop_spec e hexadecimal s 0
  have hfold : (fun c => isDigit hexadecimal (foldFor hexadecimal c)) =
      fun c => isDigit hexadecimal (foldCase c) := rfl
  rw [hfold] at hspec
  split at hspec
  next => exact hspec
  next c l hcons =>
    intro hc
    obtain ⟨res, s₁, hs₁, hstored, hmoved, hchars⟩ := hspec
    have hmap : s₁.map (foldFor hexadecimal) = s₁ := by
      have hhead : foldFor hexadecimal s₁.readahead = s₁.readahead := by
        rw [Scan.chars, List.cons.injEq] at hchars
        rw [hchars.1]
        exact hc
      rw [Scan.map, hhead]
    rw [hmap] at hs₁
    exact ⟨res, s₁, hs₁, hstored, hmoved, hchars⟩

/-- `scanLoop` leaves what `leaves` says. -/
theorem scanLoop_meets (e : Ending) (fmt : List UInt8) (l : List UInt8) (hl : s.chars = l)
    (hn : s.stored.length = n) : Meets e s (leaves fmt n l) (scanLoop e fmt n s) := by
  fun_induction leaves fmt n l generalizing s with
  | case1 n l =>
    subst hl
    exact meets_stop hn
  | case2 f fmt n l hf hnil =>
    have hspec := skipSpaces_spec e s
    rw [hl, hnil] at hspec
    obtain ⟨s', hs', hstored, hended⟩ := hspec
    rw [scanLoop_space hf, hs']
    exact meets_errq hended (by rw [hstored, hn])
  | case3 f fmt n l hf c l' hcons ih =>
    have hspec := skipSpaces_spec e s
    rw [hl, hcons] at hspec
    obtain ⟨s₁, hs₁, hstored, hmoved, hchars⟩ := hspec
    rw [scanLoop_space hf, hs₁]
    exact (ih hchars (by rw [hstored, hn])).trans hmoved
  | case4 n l hf =>
    subst hl
    exact meets_stop hn
  | case5 n l fmt hhead hf =>
    subst hl
    rw [scanLoop_percent, if_pos (head?_chars.1 hhead)]
    exact meets_stop hn
  | case6 n l fmt hhead htail hf =>
    subst hl
    obtain ⟨hret, hstored, hended⟩ := readNext_ended (e := e) htail
    rw [scanLoop_percent, if_neg (mt head?_chars.2 hhead), if_pos hret]
    exact meets_errq hended (by rw [hstored, hn])
  | case7 n l fmt hhead htail hf ih =>
    subst hl
    obtain ⟨hret, hstored, htaken, hchars⟩ := readNext_goes (e := e) htail
    rw [scanLoop_percent, if_neg (mt head?_chars.2 hhead), if_neg hret]
    exact (ih hchars (by rw [hstored, hn])).trans (moved_tail htaken hchars)
  | case8 n l d fmt hp hd hnil hf =>
    have hspec := skipSpaces_spec e s
    rw [hl, hnil] at hspec
    obtain ⟨s', hs', hstored, hended⟩ := hspec
    rw [scanLoop_conv hd, hs']
    exact meets_errq hended (by rw [hstored, hn])
  | case9 n l fmt c l' hcons hnil hf hp hd =>
    have hspec := skipSpaces_spec e s
    rw [hl, hcons] at hspec
    obtain ⟨s₁, hs₁, hstored, hmoved, hchars⟩ := hspec
    have hstr := stringLoop_spec e s₁ []
    rw [hchars, hnil] at hstr
    obtain ⟨str, s', hs', hstored', hended⟩ := hstr
    rw [scanLoop_conv hd, hs₁]
    simp only [if_true, hs']
    exact meets_end (hmoved.ended hended) (by rw [hstored', hstored, hn]) _
  | case10 n l fmt c l' hcons c' l'' hcons' hf hp hd ih =>
    have hspec := skipSpaces_spec e s
    rw [hl, hcons] at hspec
    obtain ⟨s₁, hs₁, hstored, hmoved, hchars⟩ := hspec
    have hstr := stringLoop_spec e s₁ []
    rw [hchars, hcons'] at hstr
    obtain ⟨str, s₂, hs₂, hstored₂, hmoved₂, hchars₂⟩ := hstr
    rw [scanLoop_conv hd, hs₁]
    simp only [if_true, hs₂]
    have hmeets := ih (s := s₂.store (.str str)) hchars₂ (by rw [length_store, hstored₂, hstored, hn])
    exact (hmeets.of_store.trans hmoved₂).trans hmoved
  | case11 n l fmt c l' hcons hnil hf hp hd hs =>
    have hspec := skipSpaces_spec e s
    rw [hl, hcons] at hspec
    obtain ⟨s₁, hs₁, hstored, hmoved, hchars⟩ := hspec
    have hnum := decimal_spec e s₁
    rw [hchars, hnil] at hnum
    obtain ⟨res, s', hs', hstored', hended⟩ := hnum
    rw [scanLoop_conv hd, hs₁]
    simp only [if_neg hs, if_neg (show 'd'.toUInt8 ≠ 'x'.toUInt8 by decide), hs']
    exact meets_end (hmoved.ended hended) (by rw [hstored', hstored, hn]) _
  | case12 n l fmt c l' hcons c' l'' hcons' hf hp hd hs ih =>
    have hspec := skipSpaces_spec e s
    rw [hl, hcons] at hspec
    obtain ⟨s₁, hs₁, hstored, hmoved, hchars⟩ := hspec
    have hnum := decimal_spec e s₁
    rw [hchars, hcons'] at hnum
    obtain ⟨res, s₂, hs₂, hstored₂, hmoved₂, hchars₂⟩ := hnum
    rw [scanLoop_conv hd, hs₁]
    simp only [if_neg hs, if_neg (show 'd'.toUInt8 ≠ 'x'.toUInt8 by decide), hs₂]
    have hmeets := ih (s := s₂.store (.int res)) hchars₂ (by rw [length_store, hstored₂, hstored, hn])
    exact (hmeets.of_store.trans hmoved₂).trans hmoved
  | case13 n l d fmt hp hd c l' hcons hs hdec hnil hf =>
    have hx : d = 'x'.toUInt8 := (hd.resolve_left hs).resolve_left hdec
    have hspec := skipSpaces_spec e s
    rw [hl, hcons] at hspec
    obtain ⟨s₁, hs₁, hstored, hmoved, hchars⟩ := hspec
    have hpre := hexPrefix_spec e s₁
    rw [hchars, hnil] at hpre
    obtain ⟨s', hs', hstored', hended⟩ := hpre
    rw [scanLoop_conv hd, hs₁]
    simp only [if_neg hs, if_pos hx, hs']
    refine ⟨(hmoved.ended hended).of_store _, iff_of_false ?_ Bool.false_ne_true⟩
    rw [length_store]
    omega
  | case14 n l d fmt hp hd c l' hcons hs hdec c' l'' hpre' hnil hf =>
    have hx : d = 'x'.toUInt8 := (hd.resolve_left hs).resolve_left hdec
    have hspec := skipSpaces_spec e s
    rw [hl, hcons] at hspec
    obtain ⟨s₁, hs₁, hstored, hmoved, hchars⟩ := hspec
    have hpre := hexPrefix_spec e s₁
    rw [hchars, hpre'] at hpre
    obtain ⟨s₂, hs₂, hstored₂, hmoved₂, hchars₂⟩ := hpre
    have hnum := hexadecimal_spec e s₂
    rw [hchars₂, hnil] at hnum
    obtain ⟨res, s', hs', hstored', hended⟩ := hnum
    rw [scanLoop_conv hd, hs₁]
    simp only [if_neg hs, if_pos hx, hs₂, hs']
    exact meets_end (hmoved.ended (hmoved₂.ended hended))
      (by rw [hstored', hstored₂, hstored, hn]) _
  | case15 => trivial
  | case16 n l d fmt hp hd c l' hcons hs hdec c' l'' hpre' c₃ l₃ hcons' hfold hf ih =>
    have hx : d = 'x'.toUInt8 := (hd.resolve_left hs).resolve_left hdec
    have hspec := skipSpaces_spec e s
    rw [hl, hcons] at hspec
    obtain ⟨s₁, hs₁, hstored, hmoved, hchars⟩ := hspec
    have hpre := hexPrefix_spec e s₁
    rw [hchars, hpre'] at hpre
    obtain ⟨s₂, hs₂, hstored₂, hmoved₂, hchars₂⟩ := hpre
    have hnum := hexadecimal_spec e s₂
    rw [hchars₂, hcons'] at hnum
    obtain ⟨res, s₃, hs₃, hstored₃, hmoved₃, hchars₃⟩ := hnum (not_not.1 hfold)
    rw [scanLoop_conv hd, hs₁]
    simp only [if_neg hs, if_pos hx, hs₂, hs₃]
    have hmeets := ih (s := s₃.store (.int res)) hchars₃
      (by rw [length_store, hstored₃, hstored₂, hstored, hn])
    exact ((hmeets.of_store.trans hmoved₃).trans hmoved₂).trans hmoved
  | case17 n l fmt htail hf hp hd =>
    subst hl
    obtain ⟨hret, hstored, hended⟩ :=
      readNext_ended (e := e) (s := s.store (.chr s.readahead)) htail
    rw [scanLoop_char, if_pos hret]
    refine ⟨⟨hended.input, hended.taken, hended.readahead⟩, iff_of_false ?_ Bool.false_ne_true⟩
    rw [hstored, length_store]
    omega
  | case18 n l fmt htail hf hp hd ih =>
    subst hl
    obtain ⟨hret, hstored, htaken, hchars⟩ :=
      readNext_goes (e := e) (s := s.store (.chr s.readahead)) htail
    rw [scanLoop_char, if_neg hret]
    exact (ih hchars (by rw [hstored, length_store, hn])).trans (moved_tail htaken hchars)
  | case19 n l d fmt hp hd hc hf =>
    subst hl
    rw [scanLoop_other hd hp hc]
    exact meets_stop hn
  | case20 f fmt n l hf hp hhead =>
    subst hl
    rw [scanLoop_lit hf hp, if_pos (head?_chars.1 hhead)]
    exact meets_stop hn
  | case21 f fmt n l hf hp hhead htail =>
    subst hl
    obtain ⟨hret, hstored, hended⟩ := readNext_ended (e := e) htail
    rw [scanLoop_lit hf hp, if_neg (mt head?_chars.2 hhead), if_pos hret]
    exact meets_errq hended (by rw [hstored, hn])
  | case22 f fmt n l hf hp hhead htail ih =>
    subst hl
    obtain ⟨hret, hstored, htaken, hchars⟩ := readNext_goes (e := e) htail
    rw [scanLoop_lit hf hp, if_neg (mt head?_chars.2 hhead), if_neg hret]
    exact (ih hchars (by rw [hstored, hn])).trans (moved_tail htaken hchars)

end leaves

/-! ## Calls that account for their input -/

section accounts

variable {e : Ending} {s : Scanner} {fmt : CString}

theorem scanf_nil (h : s.pending = []) : scanf e fmt s = (0, ⟨⟨e.fill.getD 0, []⟩, [], 0⟩) := by
  rw [Scanner.pending] at h
  split at h
  next hzero => rw [scanf, if_pos hzero, h]
  next => cases h

/-- A call that has a character. -/
theorem scanf_cons {c : UInt8} {l : List UInt8} (h : s.pending = c :: l) :
    scanf e fmt s = scanLoop e fmt.bytes 0 ⟨⟨c, l⟩, [], 0⟩ := by
  rw [Scanner.pending] at h
  split at h
  next hzero => rw [scanf, if_pos hzero, h]
  next hne =>
    rw [List.cons.injEq] at h
    rw [scanf, if_neg hne, ← h.1, ← h.2]

/-- Without a character, the byte that `read` leaves is kept. -/
theorem accounts_nil (h : s.pending = []) : Accounts e s fmt ↔ leftover e [] = 0 := by
  rw [Accounts, scanf_nil h, h]
  simp only [Scanner.pending, List.drop_nil, leftover, List.getLastD_nil, List.length_nil,
    Nat.cast_zero, true_and]
  split
  next hzero => exact iff_of_true rfl hzero
  next hne => exact iff_of_false (List.cons_ne_nil _ _) hne

/-- But for capital letters behind `%x`, the clean calls are those that account for their
input. -/
theorem accounts_iff_clean (hfolds : leaves fmt.bytes 0 s.pending ≠ .folds) :
    Accounts e s fmt ↔ Clean e s fmt := by
  rw [Clean]
  cases hpending : s.pending with
  | nil =>
    rw [if_pos rfl]
    exact accounts_nil hpending
  | cons c l =>
    rw [hpending] at hfolds
    rw [if_neg (List.cons_ne_nil c l), Accounts, scanf_cons hpending, hpending]
    have hmeets := scanLoop_meets (s := ⟨⟨c, l⟩, [], 0⟩) (n := 0) e fmt.bytes (c :: l) rfl rfl
    rw [Nat.cast_zero] at hmeets
    generalize scanLoop e fmt.bytes 0 ⟨⟨c, l⟩, [], 0⟩ = r at hmeets
    cases hleft : leaves fmt.bytes 0 (c :: l) with
    | rest l' =>
      rw [hleft] at hmeets
      obtain ⟨hret, hmoved, hchars⟩ := hmeets
      have htaken := hmoved.taken
      have hlen : Scan.chars ⟨⟨c, l⟩, [], 0⟩ = c :: l := rfl
      have hdrop : r.2.chars = (c :: l).drop r.2.taken := by
        have hsuffix := List.suffix_iff_eq_drop.1 hmoved.suffix
        rw [hlen] at hsuffix htaken
        rw [show r.2.taken = (c :: l).length - r.2.chars.length by dsimp only at htaken; omega]
        exact hsuffix
      rw [← hdrop, ← hchars]
      dsimp only
      rw [Scanner.pending, Scan.chars, List.head?_cons, ne_eq, Option.some.injEq]
      refine ⟨fun h hzero => ?_, fun h => ⟨hret, if_neg h⟩⟩
      rw [if_pos hzero] at h
      exact List.cons_ne_self _ _ h.2.symm
    | nothing counted =>
      rw [hleft] at hmeets
      obtain ⟨hended, hret⟩ := hmeets
      have hlen : Scan.chars ⟨⟨c, l⟩, [], 0⟩ = c :: l := rfl
      have htaken := hended.taken
      have hzero := hended.readahead
      rw [hlen] at htaken hzero
      have hdrop : (c :: l).drop r.2.taken = [] := List.drop_eq_nil_of_le (by
        dsimp only at htaken
        omega)
      dsimp only
      rw [hdrop, hret, ← hzero, Scanner.pending, hended.input]
      refine and_congr Iff.rfl ⟨fun h => ?_, fun h => if_pos h⟩
      by_contra hne
      rw [if_neg hne] at h
      cases h
    | folds => exact absurd hleft hfolds

theorem accounts_of_clean (h : Clean e s fmt) : Accounts e s fmt := by
  by_cases hnil : s.pending = []
  · rw [Clean, if_pos hnil] at h
    exact (accounts_nil hnil).2 h
  · refine (accounts_iff_clean fun hfolds => ?_).2 h
    rw [Clean, if_neg hnil, hfolds] at h
    exact h

/-- The format `%c`. -/
def charFormat : CString where
  bytes := [percent, 'c'.toUInt8]
  noNul := by
    simp only [List.forall_mem_cons]
    exact ⟨by decide, by decide, fun _ h => absurd h List.not_mem_nil⟩

/-- A call. -/
def scanStep (e : Ending) (s : Scanner) (fmt : CString) : Scanner := (scanf e fmt s).2.toScanner

/-- How many characters were matched in a run. -/
def takenBy (e : Ending) : Scanner → List CString → ℕ
  | _, [] => 0
  | s, fmt :: fmts => (scanf e fmt s).2.taken + takenBy e (scanStep e s fmt) fmts

/-- In runs of clean calls, each call returns the number of the conversions that it has stored
and leaves what it has not matched to the next ones. -/
theorem scanf_accounts {fmts : List CString} (h : Always (Clean e) (scanStep e) s fmts) :
    Always (Accounts e) (scanStep e) s fmts ∧
      (fmts.foldl (scanStep e) s).pending = s.pending.drop (takenBy e s fmts) := by
  have haccounts : Always (Accounts e) (scanStep e) s fmts := h.mono fun s fmt => accounts_of_clean
  refine ⟨haccounts, ?_⟩
  clear h
  induction fmts generalizing s with
  | nil => rfl
  | cons fmt fmts ih =>
    rw [List.foldl_cons, ih haccounts.2, takenBy, ← List.drop_drop]
    exact congrArg (List.drop _) haccounts.1.2

/-- Three characters, two of which are read with `%c`. -/
theorem scanf_accounts_chars :
    Always (Accounts ⟨0, none, le_rfl⟩) (scanStep ⟨0, none, le_rfl⟩) ⟨0, [97, 98, 99]⟩
        [charFormat, charFormat] ∧
      ([charFormat, charFormat].foldl (scanStep ⟨0, none, le_rfl⟩) ⟨0, [97, 98, 99]⟩).pending =
        (Scanner.pending ⟨0, [97, 98, 99]⟩).drop
          (takenBy ⟨0, none, le_rfl⟩ ⟨0, [97, 98, 99]⟩ [charFormat, charFormat]) :=
  scanf_accounts (by
    have hclean₁ : Clean ⟨0, none, le_rfl⟩ ⟨0, [97, 98, 99]⟩ charFormat :=
      show ([98, 99] : List UInt8).head? ≠ some 0 by decide
    have hclean₂ : Clean ⟨0, none, le_rfl⟩ ⟨98, [99]⟩ charFormat :=
      show ([99] : List UInt8).head? ≠ some 0 by decide
    exact ⟨hclean₁, hclean₂, trivial⟩)

/-- `%c` is stored, but not counted at the end of the input. -/
theorem scanf_miscounts : ¬∀ (e : Ending) (s : Scanner) (fmts : List CString),
    Always (Accounts e) (scanStep e) s fmts := by
  intro h
  have hret := (h ⟨0, none, le_rfl⟩ ⟨0, [97]⟩ [charFormat]).1.1
  revert hret
  decide

end accounts

end SadOS.Libc
