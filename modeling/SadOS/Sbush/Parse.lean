import SadOS.Lib.ByteMem

/-!
# The parser of the shell

`parse` of `bin/sbush/parse.c` reads a command from the standard input, character by
character, and builds a list of pipe parts, each of which has a list of arguments.  The
text of an argument is collected in a `struct str` (`bin/sbush/str.c`), a list of blocks
of 128 bytes.  Both lists of nodes grow at their ends, through a pointer to the pointer
that is next to be set.

A node is its address, and `malloc` gives a new one.  A block of characters is a value
here, and what `free` does is left out, since nothing of it is read again.

## Main definitions

* `append`, `dump` — `struct str`.
* `Parser` — the locals of `parse` and the nodes it has made.
* `turn` — one turn of its loop.
* `loop`, `parse` — the function, with a bound on the turns of the loop.
* `Command` — what a command says to those who follow its pointers.
-/

namespace SadOS.Sbush

/-! ## `str.c` -/

/-- The first `len` bytes of the array of a `struct str_block`. -/
structure StrBlock where
  s : List UInt8
  fits : s.length ≤ 128

/-- The blocks from `head` to `tail`. -/
structure Str where
  len : ℕ
  blocks : List StrBlock

def strNew : Str := ⟨0, []⟩

def strBlockNew (c : UInt8) : StrBlock := ⟨[c], by simp⟩

def append (s : Str) (c : UInt8) : Str :=
  match s.blocks.getLast? with
  | none => ⟨s.len + 1, [strBlockNew c]⟩
  | some tail =>
    if h : tail.s.length = 128 then ⟨s.len + 1, s.blocks ++ [strBlockNew c]⟩
    else
      have fits : (tail.s ++ [c]).length ≤ 128 := by
        have htail := tail.fits
        rw [List.length_append, List.length_singleton]
        omega
      ⟨s.len + 1, s.blocks.dropLast ++ [⟨tail.s ++ [c], fits⟩]⟩

/-- `memcpy(stmp, tmp->s, tmp->len)`, with `stmp` moved behind the bytes. -/
def copyBlock (x : ByteMem × ℤ) (b : StrBlock) : Option (ByteMem × ℤ) := do
  let m ← x.1.storeAll x.2 b.s
  return (m, x.2 + b.s.length)

/-- The block of `len+1` bytes that `dump` fills. -/
def dump (s : Str) : Option (List UInt8) := do
  let (m, _) ← s.blocks.foldlM copyBlock (⟨0, s.len + 1, fun _ => 0⟩, 0)
  let m ← m.storeAll s.len [0]
  m.loadAll 0 (s.len + 1)

/-! ## `parse.c` -/

/-- `struct argv_part`.  The string is the block it points to. -/
structure ArgvPart where
  str : Option (List UInt8)
  next : ℕ

structure PipePart where
  argc : ℕ
  argv0 : ℕ
  next : ℕ

structure Cmd where
  npipe : ℕ
  pipe0 : ℕ

/-- What `nowpp` points to. -/
inductive PipePlace
  | pipe0
  | next (part : ℕ)

/-- What `nowap` points to. -/
inductive ArgvPlace
  | null
  | argv0 (part : ℕ)
  | next (arg : ℕ)

/-- `state`: 0, consuming space, an argument, expecting one of the quotes, and 5. -/
inductive State
  | start
  | space
  | argvPart
  | double
  | single
  | newline
  deriving DecidableEq

/-- The nodes that `parse` has made, and its locals.  The next node is put at `top`. -/
structure Parser where
  pipes : ℕ → PipePart
  args : ℕ → ArgvPart
  top : ℕ
  ret : Cmd
  w : Str
  nowp : ℕ
  nowpp : PipePlace
  nowa : ℕ
  nowap : ArgvPlace
  state : State

abbrev newline : UInt8 := 10
abbrev space : UInt8 := 32
abbrev dquote : UInt8 := 34
abbrev squote : UInt8 := 39
abbrev backslash : UInt8 := 92
abbrev bar : UInt8 := 124

/-- A `char` below zero. -/
def negative (p : UInt8) : Prop := 128 ≤ p

instance : DecidablePred negative := fun p => inferInstanceAs (Decidable (128 ≤ p))

/-- The next character, or −1 when there is none. -/
def getchar : List UInt8 → UInt8 × List UInt8
  | [] => (255, [])
  | b :: input => (b, input)

namespace Parser

/-- `*nowpp = pipe_part_new()`, and what follows it. -/
def pipePartNew (s : Parser) : Parser :=
  let part := s.top
  let pipes := Function.update s.pipes part ⟨0, 0, 0⟩
  let s := { s with top := s.top + 1 }
  let s := match s.nowpp with
    | .pipe0 => { s with pipes := pipes, ret := { s.ret with pipe0 := part } }
    | .next p => { s with pipes := Function.update pipes p { pipes p with next := part } }
  { s with
    ret := { s.ret with npipe := s.ret.npipe + 1 }
    nowp := part, nowpp := .next part, nowap := .argv0 part, nowa := 0 }

/-- `*nowap = argv_part_new()`, and what follows it.  There is nothing to be set at a null
pointer. -/
def argvPartNew (s : Parser) : Option Parser :=
  let arg := s.top
  let args := Function.update s.args arg ⟨none, 0⟩
  let s := { s with args := args, top := s.top + 1 }
  let s := match s.nowap with
    | .null => none
    | .argv0 p => some { s with pipes := Function.update s.pipes p { s.pipes p with argv0 := arg } }
    | .next a => some { s with args := Function.update s.args a { s.args a with next := arg } }
  s.bind fun s =>
    if s.nowp = 0 then none
    else
      let part := { s.pipes s.nowp with argc := (s.pipes s.nowp).argc + 1 }
      some { s with
        pipes := Function.update s.pipes s.nowp part
        nowa := arg, nowap := .next arg }

/-- `dump(w, &nowa->str)`. -/
def dumpArg (s : Parser) : Option Parser :=
  if s.nowa = 0 then none
  else (dump s.w).map fun block =>
    { s with args := Function.update s.args s.nowa { s.args s.nowa with str := some block } }

/-- `if (state == 2) dump(w, &nowa->str)`. -/
def dumpLast (s : Parser) : Option Parser :=
  if s.state = .argvPart then s.dumpArg else some s

/-- The same, with a new `w` for the next argument. -/
def endArg (s : Parser) : Option Parser :=
  if s.state = .argvPart then (s.dumpArg).map fun s => { s with w := strNew } else some s

/-- What comes before the first character of an argument, or before a quote. -/
def beginArg (s : Parser) : Option Parser :=
  let s := if s.state = .start then { s.pipePartNew with state := .space } else s
  if s.state = .space then s.argvPartNew else some s

end Parser

/-- How a turn of the loop ends: on to the next character, out of the loop, or with a
syntax error. -/
inductive Turn
  | getchar (s : Parser) (input : List UInt8)
  | leave (s : Parser) (input : List UInt8)
  | null (input : List UInt8)

/-- The turn in a quoted text. -/
def quotedTurn (s : Parser) (p : UInt8) (input : List UInt8) : Turn :=
  let exp := if s.state = .double then dquote else squote
  if p = exp then .getchar { s with state := .argvPart } input
  else
    let escape : Bool := p = backslash
    let (p, input) := if escape then getchar input else (p, input)
    if negative p then .leave s input
    else if p ≠ newline ∨ ¬escape then .getchar { s with w := append s.w p } input
    else .getchar s input

/-- `default:` -/
def otherTurn (s : Parser) (p : UInt8) (input : List UInt8) : Option Turn := do
  let s ← s.beginArg
  return .getchar { s with w := append s.w p, state := .argvPart } input

/-- The turn for the character `p`.  Nothing is returned for a null pointer that is
followed. -/
def turn (s : Parser) (p : UInt8) (input : List UInt8) : Option Turn :=
  if s.state = .double ∨ s.state = .single then some (quotedTurn s p input)
  else if p = newline then do
    let s ← s.dumpLast
    return .leave { s with state := .newline } input
  else if p = space then
    if s.state = .argvPart then do
      let s ← s.endArg
      return .getchar { s with state := .space } input
    else some (.getchar s input)
  else if p = squote ∨ p = dquote then do
    let s ← s.beginArg
    return .getchar { s with state := if p = squote then .single else .double } input
  else if p = bar then do
    let s ← s.endArg
    return .getchar { s with state := .space }.pipePartNew input
  else if p = backslash then
    let (p, input) := getchar input
    if negative p then some (.null input)
    else if p = newline then some (.getchar s input)
    else otherTurn s p input
  else otherTurn s p input

/-- What `parse` returns, with the input it has not read, or the end at a null pointer. -/
inductive Parsed
  | command (s : Parser) (input : List UInt8)
  | null (input : List UInt8)
  | fault

/-- Behind the loop. -/
def leave (s : Parser) (input : List UInt8) : Parsed :=
  if s.state = .double ∨ s.state = .single then .null input else .command s input

/-- `while(p)`, for at most so many turns. -/
def loop : ℕ → Parser → UInt8 → List UInt8 → Option Parsed
  | 0, _, _, _ => none
  | n + 1, s, p, input =>
    if p = 0 then some (leave s input)
    else match turn s p input with
      | none => some .fault
      | some (.getchar s input) => loop n s (getchar input).1 (getchar input).2
      | some (.leave s input) => some (leave s input)
      | some (.null input) => some (.null input)

/-- The locals before the loop. -/
def Parser.init : Parser where
  pipes := fun _ => ⟨0, 0, 0⟩
  args := fun _ => ⟨none, 0⟩
  top := 1
  ret := ⟨0, 0⟩
  w := strNew
  nowp := 0
  nowpp := .pipe0
  nowa := 0
  nowap := .null
  state := .start

def parse (n : ℕ) (input : List UInt8) : Option Parsed :=
  let (p, input) := getchar input
  if negative p then some (.null input) else loop n Parser.init p input

end SadOS.Sbush
