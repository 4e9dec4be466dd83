import SadOS.Console.Screen
import SadOS.Lib.Ring
import SadOS.Lib.Outcome

/-!
# Keyboard input of the console

The keyboard half of `bin/console/main.c`: scan codes are put together to lines, complete lines
wait in a ring until the control process reads them, and reads wait in another ring until there is
a line.  A line is in an allocation of 1024 bytes; `send_result` gives away what is left of the first
line, or a part of it.

Lines are numbered in the order in which their memory is allocated, and their memory is that of a
`Memory`, which stands for `malloc` and `free`.  There is always memory.  The screen, and the
memory of the answers, are not here.

## Main definitions

* `Memory` — `malloc` and `free`, and what is behind the arrays.
* `Terminal` — the variables, and what was stored, answered and freed.
* `stateTransition`, `sendResult`, `serveWaiting`, `handleRequest` — the source.
* `Input`, `Terminal.step` — scan codes, and turns of the main loop.
* `HasString` — a line that has an end.
* `Terminal.Owned` — what each allocation is used for.

## Main results

* `sendResult_of_ends`, `sendResult_of_not_ends` — what `send_result` does.
* `isEmpty_serveWaiting` — the loop of `main` ends with a ring that is empty.
-/

namespace SadOS.Console

/-! ## The source -/

/-- The argument of `malloc` for a line. -/
def lineSize : ℕ := 1024

/-- `readable_lines`, `pending_read` and `pending_read_len` have 1024 elements, and
`(i + 1) & 1023` is the next index. -/
def ringSize : ℕ := 1024

theorem ringSize_pos : 0 < ringSize := by decide

def EIO : ℕ := 5

/-- The bytes of the lines. -/
abbrev LineMem := ℕ → ℕ → UInt8

/-- What other code does with the memory. -/
structure Memory where
  /-- What is in the memory of a line when `malloc` returns it. -/
  block : LineMem
  /-- The string behind the memory of a line, at the time of an answer. -/
  behind : ℕ → List UInt8
  /-- What is behind `key_map` and `shift_map`. -/
  pastMap : Bool → ℕ → UInt8
  /-- The lines after `free` of a pointer to the byte `off` of a line. -/
  freed : (line off : ℕ) → LineMem → LineMem
  /-- `free` of what `malloc` returned leaves the other lines alone. -/
  frame : ∀ line mem other, other ≠ line → freed line 0 mem other = mem other

inductive KeyState where
  | IDLE | E0_WAIT | E1_WAIT1 | E1_WAIT2
  deriving DecidableEq

def LCTRL_DOWN : UInt8 := 1
def RCTRL_DOWN : UInt8 := 2
def LSHIFT_DOWN : UInt8 := 4
def RSHIFT_DOWN : UInt8 := 8
def CAPS_LOCK : UInt8 := 16

def tab : UInt8 := 9

def keyMap : List UInt8 :=
  [0, 27, 49, 50, 51, 52, 53, 54,
    55, 56, 57, 48, 45, 61, 127, 9,
    113, 119, 101, 114, 116, 121, 117, 105,
    111, 112, 91, 93, 13, 0, 97, 115,
    100, 102, 103, 104, 106, 107, 108, 59,
    39, 96, 0, 92, 122, 120, 99, 118,
    98, 110, 109, 44, 46, 47, 0, 42,
    0, 32, 0, 0, 0, 0, 0, 0,
    0, 0, 0, 0, 0, 0, 0, 0,
    0, 0, 45, 0, 0, 0, 43, 0,
    0, 0, 0, 0, 0, 0, 60, 0,
    0, 0, 0, 0, 0, 0, 0, 0,
    0]

def shiftMap : List UInt8 :=
  [0, 27, 33, 64, 35, 36, 37, 94,
    38, 42, 40, 41, 95, 43, 127, 9,
    81, 87, 69, 82, 84, 89, 85, 73,
    79, 80, 123, 125, 13, 0, 65, 83,
    68, 70, 71, 72, 74, 75, 76, 58,
    34, 126, 48, 124, 90, 88, 67, 86,
    66, 78, 77, 60, 62, 63, 0, 42,
    0, 32, 0, 0, 0, 0, 0, 0,
    0, 0, 0, 0, 0, 0, 0, 0,
    0, 0, 45, 0, 0, 0, 43, 0,
    0, 0, 0, 0, 0, 0, 62, 0,
    0, 0, 0, 0, 0, 0, 0, 0,
    0]

/-- An answer to a read: the handle, the line, and bytes of it. -/
structure Answer where
  handle : ℕ
  line : ℕ
  bytes : List UInt8
  deriving DecidableEq

/-- A response to another request. -/
structure Reply where
  handle : ℕ
  err : ℕ
  len : ℕ
  deriving DecidableEq

/-- A call of `free` with the byte `off` of a line, which had the string `string`. -/
structure Freed where
  line : ℕ
  off : ℕ
  string : List UInt8
  deriving DecidableEq

/-- The variables of the console, with what it has done.

`done` and `typing` are the lines as they were typed: a character goes to the line when it is shown
or, a tab, when there is room for it, and an Enter that is not ignored ends the line. -/
structure Terminal where
  state : KeyState
  state2 : UInt8
  lineBuffer : ℕ
  lbend : ℕ
  rlOff : ℕ
  /-- `readable_lines` with `rlh` and `rlt`. -/
  readableLines : Ring ringSize ℕ
  /-- `pending_read` and `pending_read_len`, with `ph` and `pt`. -/
  pendingRead : Ring ringSize (ℕ × ℤ)
  controlPid : ℕ
  mem : LineMem
  allocated : ℕ
  done : List (List UInt8)
  typing : List UInt8
  /-- The offsets of stores to lines. -/
  stores : List ℕ
  /-- The handles of the reads of the control process. -/
  asked : List ℕ
  answers : List Answer
  replies : List Reply
  frees : List Freed

/-- `line_buffer[k] = c`. -/
def Terminal.store (k : ℕ) (c : UInt8) (s : Terminal) : Terminal :=
  { s with
    mem := Function.update s.mem s.lineBuffer (Function.update (s.mem s.lineBuffer) k c)
    stores := k :: s.stores }

/-- A read of `key_map` or `shift_map`. -/
def mapAt (map : List UInt8) (past : ℕ → UInt8) (symbol : ℕ) : UInt8 :=
  (map[symbol]?).getD (past symbol)

/-- The character of a key. -/
def keyChar (M : Memory) (state2 : UInt8) (symbol : ℕ) : UInt8 :=
  let c := mapAt keyMap (M.pastMap false) symbol
  if state2 &&& 12 ≠ 0 then mapAt shiftMap (M.pastMap true) symbol else c

def IsLetter (c : UInt8) : Prop := 97 ≤ c ∧ c ≤ 122 ∨ 65 ≤ c ∧ c ≤ 90

instance (c : UInt8) : Decidable (IsLetter c) := inferInstanceAs (Decidable (_ ∨ _))

/-- Letters with `CAPS_LOCK`. -/
def capsChar (state2 c : UInt8) : UInt8 :=
  if IsLetter c ∧ state2 &&& CAPS_LOCK ≠ 0 then c ^^^ 32 else c

/-- The end of `do_key`. -/
def Terminal.typeChar (c : UInt8) (s : Terminal) : Terminal :=
  let s := { s.store s.lbend c with lbend := s.lbend + 1, typing := s.typing ++ [c] }
  s.store s.lbend 0

/-- `do_key`. -/
def doKey (M : Memory) (symbol : ℕ) (up : Bool) (s : Terminal) : Terminal :=
  if up then s
  else
    let c := keyChar M s.state2 symbol
    -- not printable
    if c = 0 then s
    else
      let c := capsChar s.state2 c
      if s.state2 &&& 3 ≠ 0 then s
      else if s.lbend ≥ 1023 then s
      else s.typeChar c

/-- A tab: there is no zero behind it. -/
def Terminal.typeTab (s : Terminal) : Terminal :=
  if s.lbend < lineSize then
    { s.store s.lbend tab with lbend := s.lbend + 1, typing := s.typing ++ [tab] }
  else s

/-- Enter, which is ignored when there are 1023 lines. -/
def Terminal.enter (M : Memory) (s : Terminal) : Terminal :=
  if s.readableLines.IsFull then s
  else
    let s := if s.lbend < lineSize then
        { s.store s.lbend newline with lbend := s.lbend + 1 }
      else s
    { s with
      readableLines := s.readableLines.push s.lineBuffer
      lineBuffer := s.allocated
      mem := Function.update s.mem s.allocated (M.block s.allocated)
      allocated := s.allocated + 1
      lbend := 0
      done := s.done ++ [s.typing ++ [newline]]
      typing := [] }

/-- `do_control_key`. -/
def doControlKey (M : Memory) (symbol : ℕ) (up : Bool) (s : Terminal) : Terminal :=
  if up then s
  else if 0x3b ≤ symbol ∧ symbol < 0x44 then s
  else if symbol = 0x1c then s.enter M
  else if symbol = 0x0f then s.typeTab
  else s

/-- `lshift`, `rshift`, `lctrl`, `rctrl`. -/
def modifier (bit : UInt8) (up : Bool) (s : Terminal) : Terminal :=
  { s with state2 := if up then s.state2 &&& ~~~bit else s.state2 ||| bit }

/-- `caps`. -/
def caps (up : Bool) (s : Terminal) : Terminal :=
  if up then s else { s with state2 := s.state2 ^^^ CAPS_LOCK }

/-- `state_transition`. -/
def stateTransition (M : Memory) (code : UInt8) (s : Terminal) : Terminal :=
  let up : Bool := code &&& 0x80 ≠ 0
  let symbol := (code &&& 0x7f).toNat
  match s.state with
  | .E1_WAIT1 => { s with state := .E1_WAIT2 }
  | .E1_WAIT2 => { s with state := .IDLE }
  | .E0_WAIT =>
    let s := if symbol = 0x1d then modifier RCTRL_DOWN up s else s
    { s with state := .IDLE }
  | .IDLE =>
    if code = 0xe0 then { s with state := .E0_WAIT }
    else if code = 0xe1 then { s with state := .E1_WAIT1 }
    else if 0x3b ≤ code ∧ code ≤ 0x58 then doControlKey M symbol up s
    else if symbol = 0x2a then modifier LSHIFT_DOWN up s
    else if symbol = 0x36 then modifier RSHIFT_DOWN up s
    else if symbol = 0x1d then modifier LCTRL_DOWN up s
    else if symbol = 0x3a then caps up s
    else if symbol = 0x0e ∨ symbol = 0x1c ∨ symbol = 0x0f ∨ symbol = 0x01 then
      doControlKey M symbol up s
    else doKey M symbol up s

/-- The string at the byte `off` of a line. -/
def Terminal.stringAt (M : Memory) (s : Terminal) (line off : ℕ) : List UInt8 :=
  let own := (slice (s.mem line) off (lineSize - off)).takeWhile fun c => c ≠ 0
  if own.length < lineSize - off then own else own ++ M.behind s.answers.length

/-- `readable_lines[rlh] + rl_off`, as a string. -/
def Terminal.src (M : Memory) (s : Terminal) : List UInt8 :=
  s.stringAt M s.readableLines.front s.rlOff

/-- `len >= strlen(src)`, where a negative length becomes a large `size_t`. -/
def Terminal.Ends (M : Memory) (s : Terminal) (len : ℤ) : Prop := len < 0 ∨ (s.src M).length ≤ len

instance (M : Memory) (s : Terminal) (len : ℤ) : Decidable (s.Ends M len) :=
  inferInstanceAs (Decidable (_ ∨ _))

/-- `send_result`. -/
def sendResult (M : Memory) (handle : ℕ) (len : ℤ) (s : Terminal) : Terminal :=
  let line := s.readableLines.front
  let src := s.src M
  if s.Ends M len then
    { s with
      readableLines := s.readableLines.pop
      rlOff := 0
      answers := s.answers ++ [⟨handle, line, src⟩]
      frees := s.frees ++ [⟨line, s.rlOff, s.stringAt M line 0⟩]
      mem := M.freed line s.rlOff s.mem }
  else
    { s with
      rlOff := s.rlOff + len.toNat
      answers := s.answers ++ [⟨handle, line, src.take len.toNat⟩] }

/-- A pending read is taken. -/
def Terminal.takeRead (s : Terminal) : Terminal := { s with pendingRead := s.pendingRead.pop }

/-- The loop of `main` over pending reads, of which there are at most `n`. -/
def serveWaiting (M : Memory) : ℕ → Terminal → Terminal
  | 0, s => s
  | n + 1, s =>
    if s.readableLines.IsEmpty ∨ s.pendingRead.IsEmpty then s
    else
      let (handle, len) := s.pendingRead.front
      serveWaiting M n (sendResult M handle len s.takeRead)

/-- The types of requests, with what they carry. -/
inductive RequestType where
  | IO_READ (len : ℕ)
  | IO_WRITE (str : List UInt8)
  | setControl
  | other

structure Request where
  handle : ℕ
  pid : ℕ
  type : RequestType

/-- The end of the main loop, for a request. -/
def handleRequest (M : Memory) (x : Request) (s : Terminal) : Terminal :=
  match x.type with
  | .IO_READ len =>
    if x.pid ≠ s.controlPid then { s with replies := s.replies ++ [⟨x.handle, EIO, 0⟩] }
    else
      let s := { s with asked := s.asked ++ [x.handle] }
      if s.readableLines.IsEmpty then
        { s with pendingRead := s.pendingRead.push (x.handle, Libc.toInt len) }
      else sendResult M x.handle (Libc.toInt len) s
  | .IO_WRITE str => { s with replies := s.replies ++ [⟨x.handle, 0, str.length⟩] }
  | .setControl => { s with controlPid := x.pid }
  | .other => s

/-- What the main loop gets: a scan code in `handle_kbd`, or the rest of a turn, with a request or
without one. -/
inductive Input where
  | scan (code : UInt8)
  | turn (x : Option Request)

/-- The part of a turn behind `handle_kbd`, up to the request. -/
def Terminal.serve (M : Memory) (s : Terminal) : Terminal := serveWaiting M s.pendingRead.count s

def Terminal.step (M : Memory) (s : Terminal) : Input → Terminal
  | .scan code => stateTransition M code s
  | .turn none => s.serve M
  | .turn (some x) => handleRequest M x (s.serve M)

/-- At the begin of the main loop. -/
def Terminal.boot (M : Memory) : Terminal where
  state := .IDLE
  state2 := 0
  lineBuffer := 0
  lbend := 0
  rlOff := 0
  readableLines := .empty ringSize_pos fun _ => 0
  pendingRead := .empty ringSize_pos fun _ => (0, 0)
  controlPid := 1
  mem := M.block
  allocated := 1
  done := []
  typing := []
  stores := []
  asked := []
  answers := []
  replies := []
  frees := []

/-! ## Conditions on a step -/

/-- The code is that of an Enter which is not ignored. -/
def Terminal.EndsLine (s : Terminal) (code : UInt8) : Prop :=
  s.state = .IDLE ∧ code = 0x1c ∧ ¬s.readableLines.IsFull

/-- A condition on the answers that the loop of `main` gives. -/
def EachServed (M : Memory) (P : Terminal → ℤ → Prop) : ℕ → Terminal → Prop
  | 0, _ => True
  | n + 1, s => s.readableLines.IsEmpty ∨ s.pendingRead.IsEmpty ∨
      P s.takeRead s.pendingRead.front.2 ∧
        EachServed M P n (sendResult M s.pendingRead.front.1 s.pendingRead.front.2 s.takeRead)

/-- The request is a read of the control process. -/
def Request.Reads (x : Request) (s : Terminal) (len : ℕ) : Prop :=
  x.type = .IO_READ len ∧ x.pid = s.controlPid

/-- A condition on the answers of a step. -/
def Terminal.EachAnswer (M : Memory) (P : Terminal → ℤ → Prop) (s : Terminal) : Input → Prop
  | .scan _ => True
  | .turn none => EachServed M P s.pendingRead.count s
  | .turn (some x) => EachServed M P s.pendingRead.count s ∧
      ∀ len, x.Reads (s.serve M) len → ¬(s.serve M).readableLines.IsEmpty →
        P (s.serve M) (Libc.toInt len)

/-! ## Strings -/

/-- A line has a string, which ends inside its memory. -/
structure HasString (b : ℕ → UInt8) (l : List UInt8) : Prop where
  short : l.length < lineSize
  chars : ∀ k c, l[k]? = some c → b k = c ∧ c ≠ 0
  zero : b l.length = 0

theorem exists_hasString {b : ℕ → UInt8} {k : ℕ} (hk : k < lineSize) (hzero : b k = 0) :
    ∃ l, HasString b l := by
  have hex : ∃ n, b n = 0 := ⟨k, hzero⟩
  have hle : Nat.find hex ≤ k := Nat.find_min' hex hzero
  refine ⟨slice b 0 (Nat.find hex), ?_, fun i c hi => ?_, ?_⟩
  · rw [length_slice]
    omega
  · have hlt : i < Nat.find hex := by
      simpa using (List.getElem?_eq_some_iff.1 hi).1
    rw [getElem?_slice _ hlt, Nat.zero_add, Option.some.injEq] at hi
    exact ⟨hi, hi ▸ Nat.find_min hex hlt⟩
  · rw [length_slice]
    exact Nat.find_spec hex

theorem HasString.length_le {b : ℕ → UInt8} {l l' : List UInt8} (h : HasString b l)
    (h' : HasString b l') : l'.length ≤ l.length :=
  Nat.not_lt.1 fun hlt => (h'.chars _ _ (List.getElem?_eq_getElem hlt)).2
    ((h'.chars _ _ (List.getElem?_eq_getElem hlt)).1.symm.trans h.zero)

theorem HasString.unique {b : ℕ → UInt8} {l l' : List UInt8} (h : HasString b l)
    (h' : HasString b l') : l = l' := by
  have hlen : l.length = l'.length := le_antisymm (h'.length_le h) (h.length_le h')
  refine List.ext_getElem hlen fun k hk hk' => ?_
  rw [← (h.chars k _ (List.getElem?_eq_getElem hk)).1, (h'.chars k _ (List.getElem?_eq_getElem hk')).1]

/-- The rest of a string. -/
theorem stringAt_of_hasString {M : Memory} {s : Terminal} {line off : ℕ} {l : List UInt8}
    (h : HasString (s.mem line) l) (hoff : off ≤ l.length) : s.stringAt M line off = l.drop off := by
  have hshort := h.short
  obtain ⟨n, hn⟩ := Nat.exists_eq_add_of_lt hshort
  have hlen : lineSize - off = (l.length - off) + (n + 1) := by omega
  have hchars : slice (s.mem line) off (l.length - off) = l.drop off := by
    refine List.ext_getElem? fun i => ?_
    by_cases hi : i < l.length - off
    · rw [getElem?_slice _ hi, List.getElem?_drop]
      have hget := List.getElem?_eq_getElem (show off + i < l.length by omega)
      rw [hget, (h.chars _ _ hget).1]
    · rw [List.getElem?_eq_none (by rw [length_slice]; omega),
        List.getElem?_eq_none (by rw [List.length_drop]; omega)]
  have hrest : slice (s.mem line) l.length (n + 1) = 0 :: slice (s.mem line) (l.length + 1) n := by
    rw [Nat.add_comm n, slice_add, slice, List.range_one, List.map_singleton, Nat.add_zero, h.zero]
    rfl
  have hown : (slice (s.mem line) off (lineSize - off)).takeWhile (fun c => c ≠ 0) = l.drop off := by
    rw [hlen, slice_add, hchars, Nat.add_sub_cancel' hoff, hrest,
      List.takeWhile_append_of_pos fun c hc => ?_]
    · simp
    · obtain ⟨k, hk⟩ := List.getElem?_of_mem (List.mem_of_mem_drop hc)
      simpa using (h.chars k c hk).2
  rw [Terminal.stringAt, hown, if_pos (by rw [List.length_drop]; omega)]

/-! ## Keys -/

section keys

variable {M : Memory} {s : Terminal}

theorem capsChar_ne_zero {state2 c : UInt8} (h : c ≠ 0) : capsChar state2 c ≠ 0 := by
  rw [capsChar]
  split
  case isTrue hif =>
    intro hzero
    have heq : c = 32 := UInt8.xor_eq_zero_iff.1 hzero
    rw [heq] at hif
    exact absurd hif.1 (by decide)
  case isFalse => exact h

theorem and_eq_of_and_eq_zero {code : UInt8} (h : code &&& 0x80 = 0) : code &&& 0x7f = code := by
  have hall : ∀ n < 256, n &&& 128 = 0 → n &&& 127 = n := by decide +kernel
  have hzero := congrArg UInt8.toNat h
  rw [UInt8.toNat_and] at hzero
  apply UInt8.toNat_inj.1
  rw [UInt8.toNat_and]
  exact hall _ code.toNat_lt hzero

/-- What a scan code does: it changes the state of the keyboard, puts a character or a tab on the
line, or ends the line. -/
inductive KeyStep (M : Memory) (code : UInt8) (s : Terminal) : Terminal → Prop where
  | state (state : KeyState) (state2 : UInt8) : KeyStep M code s { s with state, state2 }
  | char (c : UInt8) (hc : c ≠ 0) (hroom : s.lbend < 1023) : KeyStep M code s (s.typeChar c)
  | tab (hroom : s.lbend < lineSize) : KeyStep M code s s.typeTab
  | enter (h : s.EndsLine code) : KeyStep M code s (s.enter M)

variable {code : UInt8} {symbol : ℕ} {up : Bool}

theorem keyStep_self : KeyStep M code s s := .state s.state s.state2

/-- A key with a character. -/
theorem keyStep_doKey : KeyStep M code s (doKey M symbol up s) := by
  rw [doKey]
  split
  · exact keyStep_self
  · dsimp only
    split
    · exact keyStep_self
    · next hc =>
      split
      · exact keyStep_self
      · split
        · exact keyStep_self
        · next hroom => exact .char _ (capsChar_ne_zero hc) (Nat.not_le.1 hroom)

/-- A key without one. -/
theorem keyStep_doControlKey (hidle : s.state = .IDLE)
    (hcode : symbol = 0x1c → up = false → code = 0x1c) :
    KeyStep M code s (doControlKey M symbol up s) := by
  rw [doControlKey]
  split
  · exact keyStep_self
  · next hup =>
    split
    · exact keyStep_self
    · split
      · next hsymbol =>
        by_cases hfull : s.readableLines.IsFull
        · rw [Terminal.enter, if_pos hfull]
          exact keyStep_self
        · exact .enter ⟨hidle, hcode hsymbol (by simpa using hup), hfull⟩
      · split
        · by_cases hroom : s.lbend < lineSize
          · exact .tab hroom
          · rw [Terminal.typeTab, if_neg hroom]
            exact keyStep_self
        · exact keyStep_self

theorem keyStep_caps : KeyStep M code s (caps up s) := by
  rw [caps]
  split
  · exact keyStep_self
  · exact .state s.state _

theorem keyStep_stateTransition (M : Memory) (code : UInt8) (s : Terminal) :
    KeyStep M code s (stateTransition M code s) := by
  obtain ⟨up, hup⟩ : ∃ up : Bool, up = decide (code &&& 0x80 ≠ 0) := ⟨_, rfl⟩
  obtain ⟨symbol, hsymbol⟩ : ∃ symbol, symbol = (code &&& 0x7f).toNat := ⟨_, rfl⟩
  have hcode : symbol = 0x1c → up = false → code = 0x1c := by
    intro hsym hdown
    rw [hdown] at hup
    rw [hsymbol, and_eq_of_and_eq_zero (by simpa using hup.symm)] at hsym
    exact UInt8.toNat_inj.1 hsym
  rw [stateTransition, ← hup, ← hsymbol]
  dsimp only
  split
  · exact .state _ s.state2
  · exact .state _ s.state2
  · split
    · exact .state _ _
    · exact .state _ s.state2
  · next hidle =>
    split
    · exact .state _ s.state2
    · split
      · exact .state _ s.state2
      · split
        · exact keyStep_doControlKey hidle hcode
        · split
          · exact .state s.state _
          · split
            · exact .state s.state _
            · split
              · exact .state s.state _
              · split
                · exact keyStep_caps
                · split
                  · exact keyStep_doControlKey hidle hcode
                  · exact keyStep_doKey

end keys

/-! ## Answers -/

section answers

variable {M : Memory} {s : Terminal} {handle n : ℕ} {len : ℤ}

/-- The first line is given away, and freed. -/
theorem sendResult_of_ends (h : s.Ends M len) : sendResult M handle len s =
    { s with
      readableLines := s.readableLines.pop
      rlOff := 0
      answers := s.answers ++ [⟨handle, s.readableLines.front, s.src M⟩]
      frees := s.frees ++
        [⟨s.readableLines.front, s.rlOff, s.stringAt M s.readableLines.front 0⟩]
      mem := M.freed s.readableLines.front s.rlOff s.mem } := by
  rw [sendResult, if_pos h]

/-- A part of the first line is given away. -/
theorem sendResult_of_not_ends (h : ¬s.Ends M len) : sendResult M handle len s =
    { s with
      rlOff := s.rlOff + len.toNat
      answers := s.answers ++ [⟨handle, s.readableLines.front, (s.src M).take len.toNat⟩] } := by
  rw [sendResult, if_neg h]

@[simp] theorem pendingRead_sendResult :
    (sendResult M handle len s).pendingRead = s.pendingRead := by
  rw [sendResult]
  split <;> rfl

@[simp] theorem asked_sendResult : (sendResult M handle len s).asked = s.asked := by
  rw [sendResult]
  split <;> rfl

/-- One answer, to the read. -/
theorem handles_sendResult : (sendResult M handle len s).answers.map Answer.handle =
    s.answers.map Answer.handle ++ [handle] := by
  rw [sendResult]
  split <;> exact List.map_append

theorem eachServed_of_forall {P : Terminal → ℤ → Prop} (h : ∀ s len, P s len) (n : ℕ) (s : Terminal) :
    EachServed M P n s := by
  induction n generalizing s with
  | zero => trivial
  | succ n ih => exact .inr (.inr ⟨h _ _, ih _⟩)

/-- What a step of the loop keeps, the loop keeps. -/
theorem serveWaiting_induction {I : Terminal → Prop} {P : Terminal → ℤ → Prop}
    (hstep : ∀ s, I s → ¬s.readableLines.IsEmpty → ¬s.pendingRead.IsEmpty →
      P s.takeRead s.pendingRead.front.2 →
        I (sendResult M s.pendingRead.front.1 s.pendingRead.front.2 s.takeRead))
    (h : I s) (hP : EachServed M P n s) : I (serveWaiting M n s) := by
  induction n generalizing s with
  | zero => exact h
  | succ n ih =>
    rw [serveWaiting]
    split
    · exact h
    · next hne =>
      rw [not_or] at hne
      obtain ⟨hfirst, hrest⟩ := (hP.resolve_left hne.1).resolve_left hne.2
      exact ih (hstep s h hne.1 hne.2 hfirst) hrest

/-- The loop ends because one of the rings is empty. -/
theorem isEmpty_serveWaiting (hn : s.pendingRead.count ≤ n) :
    (serveWaiting M n s).readableLines.IsEmpty ∨ (serveWaiting M n s).pendingRead.IsEmpty := by
  induction n generalizing s with
  | zero => exact .inr (Ring.count_eq_zero_iff.1 (Nat.le_zero.1 hn))
  | succ n ih =>
    rw [serveWaiting]
    split
    · assumption
    · next hne =>
      rw [not_or] at hne
      refine ih ?_
      rw [pendingRead_sendResult]
      have hcount := Ring.count_pop hne.2
      show s.pendingRead.pop.count ≤ n
      omega

end answers

/-! ## The memory of the lines -/

section memory

variable {M : Memory} {s : Terminal} {c : UInt8}

@[simp] theorem mem_store_lineBuffer {k : ℕ} :
    (s.store k c).mem s.lineBuffer = Function.update (s.mem s.lineBuffer) k c :=
  Function.update_self _ _ _

@[simp] theorem mem_typeChar_lineBuffer : (s.typeChar c).mem s.lineBuffer =
    Function.update (Function.update (s.mem s.lineBuffer) s.lbend c) (s.lbend + 1) 0 := by
  simp [Terminal.typeChar, Terminal.store]

@[simp] theorem rlOff_enter : (s.enter M).rlOff = s.rlOff := by
  rw [Terminal.enter]
  split
  · rfl
  · split <;> rfl

@[simp] theorem answers_enter : (s.enter M).answers = s.answers := by
  rw [Terminal.enter]
  split
  · rfl
  · split <;> rfl

@[simp] theorem pendingRead_enter : (s.enter M).pendingRead = s.pendingRead := by
  rw [Terminal.enter]
  split
  · rfl
  · split <;> rfl

@[simp] theorem asked_enter : (s.enter M).asked = s.asked := by
  rw [Terminal.enter]
  split
  · rfl
  · split <;> rfl

@[simp] theorem frees_enter : (s.enter M).frees = s.frees := by
  rw [Terminal.enter]
  split
  · rfl
  · split <;> rfl

/-- The line that was typed is the last one that waits. -/
theorem items_enter (hfull : ¬s.readableLines.IsFull) :
    (s.enter M).readableLines.items = s.readableLines.items ++ [s.lineBuffer] := by
  rw [Terminal.enter, if_neg hfull, ← Ring.items_push hfull]
  split <;> rfl

theorem done_enter (hfull : ¬s.readableLines.IsFull) :
    (s.enter M).done = s.done ++ [s.typing ++ [newline]] := by
  rw [Terminal.enter, if_neg hfull]
  split <;> rfl

end memory

/-- An Enter that stores a newline. -/
theorem enter_eq {M : Memory} {s : Terminal} (hfull : ¬s.readableLines.IsFull)
    (hroom : s.lbend < lineSize) : s.enter M =
      { s.store s.lbend newline with
        readableLines := s.readableLines.push s.lineBuffer
        lineBuffer := s.allocated
        mem := Function.update (s.store s.lbend newline).mem s.allocated (M.block s.allocated)
        allocated := s.allocated + 1
        lbend := 0
        done := s.done ++ [s.typing ++ [newline]]
        typing := [] } := by
  rw [Terminal.enter, if_neg hfull, if_pos hroom]
  rfl

/-- An allocation was freed, or has a line that waits, or is the one for the line that is typed; and
stores are inside of allocations. -/
structure Terminal.Owned (s : Terminal) : Prop where
  ids : s.frees.map Freed.line ++ s.readableLines.items ++ [s.lineBuffer] = List.range s.allocated
  room : s.lbend ≤ lineSize
  stores : ∀ k ∈ s.stores, k < lineSize

namespace Terminal.Owned

variable {M : Memory} {s : Terminal}

theorem nodup (h : s.Owned) :
    (s.frees.map Freed.line ++ s.readableLines.items ++ [s.lineBuffer]).Nodup :=
  h.ids ▸ List.nodup_range

/-- The line that is typed does not wait. -/
theorem lineBuffer_notMem (h : s.Owned) : s.lineBuffer ∉ s.readableLines.items := fun hmem =>
  List.disjoint_of_nodup_append h.nodup (List.mem_append_right _ hmem) (List.mem_singleton_self _)

theorem lt_allocated (h : s.Owned) {i : ℕ}
    (hi : i ∈ s.frees.map Freed.line ++ s.readableLines.items ++ [s.lineBuffer]) :
    i < s.allocated := by
  rwa [h.ids, List.mem_range] at hi

theorem store (h : s.Owned) {k : ℕ} (hk : k < lineSize) (c : UInt8) : (s.store k c).Owned :=
  ⟨h.ids, h.room, List.forall_mem_cons.2 ⟨hk, h.stores⟩⟩

theorem typeChar (h : s.Owned) (hroom : s.lbend < 1023) (c : UInt8) : (s.typeChar c).Owned := by
  have hlt : s.lbend + 1 < lineSize := Nat.succ_lt_succ hroom
  have hput := h.store (Nat.lt_of_succ_lt hlt) c
  refine store (s := { s.store s.lbend c with
    lbend := s.lbend + 1
    typing := s.typing ++ [c] }) ⟨hput.ids, hlt.le, hput.stores⟩ hlt 0

theorem typeTab (h : s.Owned) (hroom : s.lbend < lineSize) : s.typeTab.Owned := by
  have hput := h.store hroom tab
  rw [Terminal.typeTab, if_pos hroom]
  exact ⟨hput.ids, hroom, hput.stores⟩

theorem enter (h : s.Owned) (hfull : ¬s.readableLines.IsFull) : (s.enter M).Owned := by
  have hids : s.frees.map Freed.line ++ (s.readableLines.push s.lineBuffer).items ++ [s.allocated] =
      List.range (s.allocated + 1) := by
    rw [Ring.items_push hfull, List.range_succ, ← h.ids]
    simp
  rw [Terminal.enter, if_neg hfull]
  split
  · next hroom => exact ⟨hids, Nat.zero_le _, (h.store hroom newline).stores⟩
  · exact ⟨hids, Nat.zero_le _, h.stores⟩

/-- The first line was not freed. -/
theorem front_notMem (h : s.Owned) (hne : ¬s.readableLines.IsEmpty) :
    s.readableLines.front ∉ s.frees.map Freed.line := by
  have hnodup := h.nodup
  rw [Ring.items_pop hne, List.append_assoc] at hnodup
  exact fun hmem => List.disjoint_of_nodup_append hnodup hmem (by simp)

/-- The lines behind the first are others, and were not freed. -/
theorem pop_disjoint (h : s.Owned) (hne : ¬s.readableLines.IsEmpty) {i : ℕ}
    (hi : i ∈ s.readableLines.pop.items) :
    i ≠ s.readableLines.front ∧ i ∉ s.frees.map Freed.line := by
  have hnodup := (List.nodup_append.1 h.nodup).1
  rw [Ring.items_pop hne] at hnodup
  refine ⟨fun heq => ?_, fun hmem => ?_⟩
  · have hcons := (List.nodup_append.1 hnodup).2.1
    exact (List.nodup_cons.1 hcons).1 (heq ▸ hi)
  · exact List.disjoint_of_nodup_append hnodup hmem (List.mem_cons_of_mem _ hi)

/-- Stores to the line that is typed leave the lines alone that wait. -/
theorem mem_store (h : s.Owned) {i k : ℕ} {c : UInt8} (hi : i ∈ s.readableLines.items) :
    (s.store k c).mem i = s.mem i :=
  Function.update_of_ne (ne_of_mem_of_not_mem hi h.lineBuffer_notMem) _ _

theorem mem_enter (h : s.Owned) (hfull : ¬s.readableLines.IsFull) (hroom : s.lbend < lineSize) {i : ℕ}
    (hi : i ∈ s.readableLines.items) : (s.enter M).mem i = s.mem i := by
  have hne : i ≠ s.allocated := Nat.ne_of_lt (h.lt_allocated (by simp [hi]))
  rw [enter_eq hfull hroom]
  exact (Function.update_of_ne hne _ _).trans (h.mem_store hi)

/-- The line that is put in the ring. -/
theorem mem_enter_lineBuffer (h : s.Owned) (hfull : ¬s.readableLines.IsFull)
    (hroom : s.lbend < lineSize) :
    (s.enter M).mem s.lineBuffer = Function.update (s.mem s.lineBuffer) s.lbend newline := by
  have hne : s.lineBuffer ≠ s.allocated := Nat.ne_of_lt (h.lt_allocated (by simp))
  rw [enter_eq hfull hroom]
  exact (Function.update_of_ne hne _ _).trans (Function.update_self _ _ _)

theorem sendResult (h : s.Owned) (M : Memory) (handle : ℕ) (len : ℤ)
    (hne : ¬s.readableLines.IsEmpty) : (sendResult M handle len s).Owned := by
  by_cases hends : s.Ends M len
  · rw [sendResult_of_ends hends]
    refine ⟨?_, h.room, h.stores⟩
    have hids := h.ids
    rw [Ring.items_pop hne] at hids
    rw [← hids]
    simp
  · rw [sendResult_of_not_ends hends]
    exact ⟨h.ids, h.room, h.stores⟩

end Terminal.Owned

/-! ## Inputs -/

/-- Memory of zeros. -/
def zeroMemory : Memory where
  block _ _ := 0
  behind _ := []
  pastMap _ _ := 0
  freed _ _ mem := mem
  frame _ _ _ _ := rfl

/-- The scan codes of the line "hi". -/
def typeHi : List Input := [.scan 0x23, .scan 0x17, .scan 0x1c]

/-- A read of the control process. -/
def readRequest (handle len : ℕ) : Input := .turn (some ⟨handle, 1, .IO_READ len⟩)

end SadOS.Console
