import SadOS.Sbush.Nodes

/-!
# What the parser reads

A command is a list of pipe parts, and a part is a list of words.  `read` gives the
command that stands at the beginning of a text, one character after the other, and the
parser computes the same with its nodes.

## Main definitions

* `Reading`, `Reading.step`, `read` — a command that is being read.
* `Shows` — the nodes of the parser say what was read.
* `turn_shows` — a turn of the loop, in every state.
* `loop_shows`, `parse_shows` — the parser and `read` agree.
-/

namespace SadOS.Sbush

/-! ## Reading a command -/

inductive Quote
  | double
  | single
  deriving DecidableEq

def Quote.char : Quote → UInt8
  | .double => dquote
  | .single => squote

abbrev Word := List UInt8

/-- What has been read: the parts before the last bar, the words of the part after it, and
the word that is being read. -/
inductive Reading
  | start
  | gap (front : List (List Word)) (cur : List Word)
  | word (front : List (List Word)) (cur : List Word) (w : Word)
  | quoted (q : Quote) (front : List (List Word)) (cur : List Word) (w : Word)

namespace Reading

/-- A character of a word. -/
def push (c : UInt8) : Reading → Reading
  | start => word [] [] [c]
  | gap front cur => word front cur [c]
  | word front cur w => word front cur (w ++ [c])
  | quoted q front cur w => quoted q front cur (w ++ [c])

/-- A quote begins. -/
def openQuote (q : Quote) : Reading → Reading
  | start => quoted q [] [] []
  | gap front cur => quoted q front cur []
  | word front cur w => quoted q front cur w
  | quoted q' front cur w => quoted q' front cur w

/-- A space ends a word. -/
def space : Reading → Reading
  | word front cur w => gap front (cur ++ [w])
  | r => r

/-- A bar ends a word and a part. -/
def bar : Reading → Reading
  | start => gap [] []
  | gap front cur => gap (front ++ [cur]) []
  | word front cur w => gap (front ++ [cur ++ [w]]) []
  | r => r

/-- The parts at the end of a line. -/
def parts : Reading → List (List Word)
  | start => []
  | gap front cur => front ++ [cur]
  | word front cur w | quoted _ front cur w => front ++ [cur ++ [w]]

/-- The strings of the nodes: the word that is being read has none. -/
def strings : Reading → List (List (Option Word))
  | start => []
  | gap front cur => front.map (·.map some) ++ [cur.map some]
  | word front cur _ | quoted _ front cur _ => front.map (·.map some) ++ [cur.map some ++ [none]]

end Reading

/-- A command, with the strings of its words, or none for a syntax error. -/
inductive Reply
  | command (parts : List (List (Option Word)))
  | null

/-- What a character does: it is read, with a backslash before the next one or not, or the
command ends with it. -/
inductive Next
  | read (escape : Bool) (r : Reading)
  | reply (x : Reply)

namespace Reading

/-- A character outside quotes. -/
def bare (r : Reading) (c : UInt8) : Next :=
  if c = 0 then .reply (.command r.strings)
  else if c = newline then .reply (.command (r.parts.map (·.map some)))
  else if c = Sbush.space then .read false r.space
  else if c = squote then .read false (r.openQuote .single)
  else if c = dquote then .read false (r.openQuote .double)
  else if c = Sbush.bar then .read false r.bar
  else if c = backslash then .read true r
  else .read false (r.push c)

/-- A character inside quotes. -/
def inside (q : Quote) (front : List (List Word)) (cur : List Word) (w : Word) (c : UInt8) : Next :=
  if c = 0 then .reply .null
  else if c = q.char then .read false (word front cur w)
  else if c = backslash then .read true (quoted q front cur w)
  else if negative c then .reply .null
  else .read false (quoted q front cur (w ++ [c]))

/-- A character behind a backslash. -/
def escaped (r : Reading) (c : UInt8) : Next :=
  if negative c then .reply .null
  else if c = newline then .read false r
  else .read false (r.push c)

def plain (r : Reading) (c : UInt8) : Next :=
  match r with
  | quoted q front cur w => inside q front cur w c
  | r => r.bare c

def step (escape : Bool) (r : Reading) (c : UInt8) : Next :=
  if escape then r.escaped c else r.plain c

/-- What a text gives that ends here: outside quotes nothing. -/
def runOut (escape : Bool) (r : Reading) : Option Reply :=
  match escape, r with
  | true, _ => some .null
  | false, quoted .. => some .null
  | false, _ => none

end Reading

/-- The command at the beginning of a text, and the rest of the text. -/
def read (escape : Bool) (r : Reading) : List UInt8 → Option (Reply × List UInt8)
  | [] => (r.runOut escape).map fun x => (x, [])
  | c :: input =>
    match r.step escape c with
    | .read escape r => read escape r input
    | .reply x => some (x, input)

/-- A line: nothing is read of it if its first character is negative. -/
def readLine (input : List UInt8) : Option (Reply × List UInt8) :=
  if negative (getchar input).1 then some (.null, (getchar input).2) else read false .start input

/-! ## The nodes and what was read -/

/-- The pointers of the parser are at the end of its lists. -/
structure Cursor (s : Parser) (parts : List PartAt) : Prop where
  nowpp : s.nowpp.node = (parts.map Prod.fst).getLast?
  nowp : ∀ p, parts.getLast? = some p → p.1 = s.nowp ∧ s.nowap = argPlace p
  nowa : ∀ p a, parts.getLast? = some p → p.2.getLast? = some a → s.nowa = a

namespace Reading

def state : Reading → State
  | start => .start
  | gap .. => .space
  | word .. => .argvPart
  | quoted .double .. => .double
  | quoted .single .. => .single

def text : Reading → Word
  | start | gap .. => []
  | word _ _ w | quoted _ _ _ w => w

/-- A word that is being read. -/
def begun : Reading → Reading
  | start => word [] [] []
  | gap front cur => word front cur []
  | r => r

end Reading

/-- The strings in memory. -/
def blocks (strings : List (List (Option Word))) : List (List (Option (List UInt8))) :=
  strings.map (·.map (Option.map (· ++ [0])))

theorem blocks_append (l r : List (List (Option Word))) : blocks (l ++ r) = blocks l ++ blocks r :=
  List.map_append

/-- The nodes of the parser say what was read. -/
structure Shows (s : Parser) (r : Reading) (parts : List PartAt) : Prop where
  nodes : Nodes s parts (blocks r.strings)
  cursor : Cursor s parts
  state : s.state = r.state
  w : s.w.Holds r.text

theorem shows_init : Shows Parser.init .start [] :=
  ⟨nodes_init, ⟨rfl, by simp, by simp⟩, rfl, strNew_holds⟩

section operations

variable {s : Parser} {r : Reading} {parts : List PartAt}

theorem Cursor.congr {s' : Parser} (h : Cursor s parts) (hnowp : s'.nowp = s.nowp)
    (hnowpp : s'.nowpp = s.nowpp) (hnowa : s'.nowa = s.nowa) (hnowap : s'.nowap = s.nowap) :
    Cursor s' parts := by
  obtain ⟨h1, h2, h3⟩ := h
  constructor <;> simp only [hnowp, hnowpp, hnowa, hnowap] <;> assumption

/-- The cursor behind a new part. -/
theorem cursor_pipePartNew (s : Parser) (parts : List PartAt) :
    Cursor s.pipePartNew (parts ++ [(s.top, [])]) where
  nowpp := by simp [PipePlace.node]
  nowp := by simp [argPlace]
  nowa p a hp ha := by
    rw [List.getLast?_concat, Option.some.injEq] at hp
    rw [← hp] at ha
    cases ha

/-- The last part, where a word can begin. -/
theorem exists_last {strings : List (List (Option (List UInt8)))}
    {words : List (Option (List UInt8))}
    (h : Nodes s parts (strings ++ [words])) : ∃ front p, parts = front ++ [p] := by
  rcases List.eq_nil_or_concat parts with rfl | ⟨front, p, rfl⟩
  · exact absurd h.strings (by simp)
  · exact ⟨front, p, List.concat_eq_append⟩

/-- A new argument in the last part. -/
theorem argvPartNew_nodes {strings : List (List (Option (List UInt8)))}
    {words : List (Option (List UInt8))} (h : Nodes s parts (strings ++ [words]))
    (hc : Cursor s parts) : ∃ s' parts', s.argvPartNew = some s' ∧
      Nodes s' parts' (strings ++ [words ++ [none]]) ∧ Cursor s' parts' ∧ s'.w = s.w := by
  obtain ⟨front, p, rfl⟩ := exists_last h
  obtain ⟨hnowp, hnowap⟩ := hc.nowp p (List.getLast?_concat ..)
  have hp0 : s.nowp ≠ 0 := hnowp ▸ h.pipes.ne_zero (List.mem_map_of_mem (by simp))
  obtain ⟨s', hs', hadd⟩ := argvPartNew_added hnowp hp0 hnowap
  refine ⟨s', _, hs', h.argAdded hadd, ⟨?_, ?_, ?_⟩, hadd.w⟩
  · rw [hadd.nowpp, hc.nowpp, List.map_append, List.map_append]
    rfl
  · intro q hq
    rw [List.getLast?_concat, Option.some.injEq] at hq
    rw [← hq, hadd.nowp, hadd.nowap, argPlace, List.getLast?_concat]
    exact ⟨hnowp, rfl⟩
  · intro q a hq ha
    rw [List.getLast?_concat, Option.some.injEq] at hq
    rw [← hq, List.getLast?_concat, Option.some.injEq] at ha
    rw [hadd.nowa, ha]

/-- The word that comes next has a node, outside quotes. -/
theorem beginArg_nodes (h : Shows s r parts) (hr : ∀ q front cur w, r ≠ .quoted q front cur w) :
    ∃ s' parts', s.beginArg = some s' ∧ Nodes s' parts' (blocks r.begun.strings) ∧
      Cursor s' parts' ∧ s'.w.Holds r.begun.text := by
  obtain ⟨hnodes, hcursor, hstate, hw⟩ := h
  rw [Parser.beginArg, hstate]
  cases r with
  | start =>
    have hnodes' : Nodes { s.pipePartNew with state := .space } (parts ++ [(s.top, [])])
        ([] ++ [[]]) := (hnodes.pipePartNew hcursor.nowpp).congr rfl rfl rfl rfl
    have hcursor' : Cursor { s.pipePartNew with state := .space } (parts ++ [(s.top, [])]) :=
      (cursor_pipePartNew s parts).congr rfl rfl rfl rfl
    obtain ⟨s', parts', hs', hn, hc, hw'⟩ := argvPartNew_nodes hnodes' hcursor'
    refine ⟨s', parts', hs', hn, hc, ?_⟩
    rw [hw']
    exact (Parser.pipePartNew_w s).symm ▸ hw
  | gap front cur =>
    rw [Reading.strings, blocks_append] at hnodes
    obtain ⟨s', parts', hs', hn, hc, hw'⟩ := argvPartNew_nodes hnodes hcursor
    refine ⟨s', parts', ?_, ?_, hc, hw' ▸ hw⟩
    · simpa only [Reading.state, hstate, reduceCtorEq, if_true, if_false] using hs'
    · rw [Reading.begun, Reading.strings, blocks_append]
      simpa [blocks] using hn
  | word front cur w =>
    refine ⟨s, parts, ?_, hnodes, hcursor, hw⟩
    simp only [Reading.state, hstate, reduceCtorEq, if_false]
  | quoted q front cur w => exact absurd rfl (hr q front cur w)

/-- The word that was read gets its string. -/
theorem dumpArg_nodes {front : List (List Word)} {cur : List Word} {w : Word}
    (h : Shows s (.word front cur w) parts) : ∃ s', s.dumpArg = some s' ∧
      Nodes s' parts (blocks (front.map (·.map some) ++ [(cur ++ [w]).map some])) ∧
      Cursor s' parts := by
  obtain ⟨hnodes, hcursor, -, hw⟩ := h
  rw [Reading.strings, blocks_append] at hnodes
  obtain ⟨init, ⟨node, args⟩, rfl⟩ := exists_last hnodes
  have hlast := hnodes.strings_concat.2
  rcases List.eq_nil_or_concat args with rfl | ⟨args, a, rfl⟩
  · exact absurd hlast (by simp)
  · rw [List.concat_eq_append] at hnodes hcursor ⊢
    have ha := hcursor.nowa _ a (List.getLast?_concat ..) (List.getLast?_concat ..)
    have hnodes' : Nodes s (init ++ [(node, args ++ [a])]) (blocks (front.map (·.map some)) ++
        [(cur.map some).map (Option.map (· ++ [0])) ++ [none]]) := by
      simpa [blocks] using hnodes
    obtain ⟨s', hs', hn, heq⟩ := hnodes'.dumpArg ha (w := w) hw
    refine ⟨s', hs', ?_, ?_⟩
    · rw [blocks_append]
      simpa [blocks] using hn
    · rw [heq]
      exact hcursor.congr rfl rfl rfl rfl

end operations

/-! ## A turn of the loop -/

namespace Reading

/-- The characters that a turn of the loop takes: one, or a backslash and the next one. -/
def turn (r : Reading) (p : UInt8) (input : List UInt8) : Next × List UInt8 :=
  match r.plain p with
  | .read true r => (r.escaped (getchar input).1, (getchar input).2)
  | x => (x, input)

variable (r : Reading) (q : Quote) (c : UInt8)

@[simp] theorem strings_push : (r.push c).strings = r.begun.strings := by
  cases r <;> rfl

@[simp] theorem text_push : (r.push c).text = r.text ++ [c] := by
  cases r <;> rfl

@[simp] theorem text_begun : r.begun.text = r.text := by
  cases r <;> rfl

@[simp] theorem text_openQuote : (r.openQuote q).text = r.text := by
  cases r <;> rfl

@[simp] theorem strings_openQuote : (r.openQuote q).strings = r.begun.strings := by
  cases r <;> rfl

end Reading

/-- The turn does what the reading does. -/
def Gives (t : Option Turn) (x : Next) (input : List UInt8) : Prop :=
  match x with
  | .read _ r => ∃ s parts, t = some (.getchar s input) ∧ Shows s r parts
  | .reply .null => t = some (.null input) ∨
      ∃ s, t = some (.leave s input) ∧ (s.state = .double ∨ s.state = .single)
  | .reply (.command strings) => ∃ s parts, t = some (.leave s input) ∧
      ¬(s.state = .double ∨ s.state = .single) ∧ Nodes s parts (blocks strings)

section turns

variable {s : Parser} {r : Reading} {parts : List PartAt} {p : UInt8}

theorem otherTurn_gives (h : Shows s r parts) (hr : ∀ q front cur w, r ≠ .quoted q front cur w)
    (p : UInt8) (input : List UInt8) :
    Gives (otherTurn s p input) (.read false (r.push p)) input := by
  obtain ⟨s', parts', hs', hn, hc, hw⟩ := beginArg_nodes h hr
  refine ⟨{ s' with w := append s'.w p, state := .argvPart }, parts', ?_, ?_, ?_, ?_, ?_⟩
  · rw [otherTurn, hs']
    rfl
  · rw [Reading.strings_push]
    exact hn.congr rfl rfl rfl rfl
  · exact hc.congr rfl rfl rfl rfl
  · cases r with
    | quoted q front cur w => exact absurd rfl (hr q front cur w)
    | _ => rfl
  · rw [Reading.text_push, ← Reading.text_begun]
    exact append_holds hw p

theorem quotedTurn_gives {q : Quote} {front : List (List Word)} {cur : List Word} {w : Word}
    (h : Shows s (.quoted q front cur w) parts) (hp : p ≠ 0) (input : List UInt8) :
    Gives (some (quotedTurn s p input)) (Reading.turn (.quoted q front cur w) p input).1
      (Reading.turn (.quoted q front cur w) p input).2 := by
  obtain ⟨hnodes, hcursor, hstate, hw⟩ := h
  have hexp : (if s.state = .double then dquote else squote) = q.char := by
    rw [hstate]
    cases q <;> rfl
  have hquoted : s.state = .double ∨ s.state = .single := by
    rw [hstate]
    cases q
    · exact .inl rfl
    · exact .inr rfl
  rw [quotedTurn, hexp, Reading.turn, Reading.plain, Reading.inside, if_neg hp]
  by_cases hq : p = q.char
  · rw [if_pos hq, if_pos hq]
    exact ⟨_, parts, rfl, hnodes.congr rfl rfl rfl rfl, hcursor.congr rfl rfl rfl rfl, rfl, hw⟩
  rw [if_neg hq, if_neg hq]
  -- a character of the word, behind a backslash or not
  have hpush (c : UInt8) (input : List UInt8) :
      Gives (some (.getchar { s with w := append s.w c } input))
        (.read false (.quoted q front cur (w ++ [c]))) input := by
    refine ⟨_, parts, rfl, hnodes.congr rfl rfl rfl rfl, hcursor.congr rfl rfl rfl rfl, ?_,
      append_holds hw c⟩
    rw [hstate]
    cases q <;> rfl
  by_cases hback : p = backslash
  · simp only [hback, decide_true, if_true, Reading.escaped, not_true_eq_false, or_false]
    by_cases hneg : negative (getchar input).1
    · rw [if_pos hneg, if_pos hneg]
      exact .inr ⟨s, rfl, hquoted⟩
    rw [if_neg hneg, if_neg hneg]
    by_cases hnl : (getchar input).1 = newline
    · rw [if_neg (not_not.2 hnl), if_pos hnl]
      exact ⟨s, parts, rfl, hnodes, hcursor, hstate, hw⟩
    · rw [if_pos hnl, if_neg hnl]
      exact hpush _ _
  · simp only [hback, decide_false, Bool.false_eq_true, if_false, not_false_eq_true,
      or_true, if_true]
    by_cases hneg : negative p
    · rw [if_pos hneg, if_pos hneg]
      exact .inr ⟨s, rfl, hquoted⟩
    · rw [if_neg hneg, if_neg hneg]
      exact hpush p input

/-- The end of a line. -/
theorem newline_gives (h : Shows s r parts) (hr : ∀ q front cur w, r ≠ .quoted q front cur w)
    (input : List UInt8) :
    Gives (do
      let s ← s.dumpLast
      return .leave { s with state := .newline } input)
      (.reply (.command (r.parts.map (·.map some)))) input := by
  obtain ⟨s', hs', hn⟩ : ∃ s', s.dumpLast = some s' ∧
      Nodes s' parts (blocks (r.parts.map (·.map some))) := by
    rw [Parser.dumpLast, h.state]
    cases r with
    | start => exact ⟨s, rfl, h.nodes⟩
    | gap front cur =>
      refine ⟨s, rfl, ?_⟩
      simpa [Reading.parts, Reading.strings] using h.nodes
    | word front cur w =>
      obtain ⟨s', hs', hn, -⟩ := dumpArg_nodes h
      refine ⟨s', hs', ?_⟩
      simpa [Reading.parts] using hn
    | quoted q front cur w => exact absurd rfl (hr q front cur w)
  rw [hs']
  exact ⟨_, parts, rfl, by simp, hn.congr rfl rfl rfl rfl⟩

/-- The end of a word. -/
theorem space_gives (h : Shows s r parts) (hr : ∀ q front cur w, r ≠ .quoted q front cur w)
    (input : List UInt8) :
    Gives (if s.state = .argvPart then do
        let s ← s.endArg
        return .getchar { s with state := .space } input
      else some (.getchar s input)) (.read false r.space) input := by
  rw [h.state]
  cases r with
  | start => exact ⟨s, parts, rfl, h⟩
  | gap front cur => exact ⟨s, parts, rfl, h⟩
  | word front cur w =>
    obtain ⟨s', hs', hn, hc⟩ := dumpArg_nodes h
    rw [Reading.state, if_pos rfl, Parser.endArg, h.state, Reading.state, if_pos rfl, hs']
    exact ⟨_, parts, rfl, hn.congr rfl rfl rfl rfl, hc.congr rfl rfl rfl rfl, rfl, strNew_holds⟩
  | quoted q front cur w => exact absurd rfl (hr q front cur w)

/-- A quote begins. -/
theorem quote_gives (h : Shows s r parts) (hr : ∀ q front cur w, r ≠ .quoted q front cur w)
    (q : Quote) (input : List UInt8) :
    Gives (do
      let s ← s.beginArg
      return .getchar { s with state := (Reading.quoted q [] [] []).state } input)
      (.read false (r.openQuote q)) input := by
  obtain ⟨s', parts', hs', hn, hc, hw⟩ := beginArg_nodes h hr
  rw [hs']
  refine ⟨_, parts', rfl, ?_, hc.congr rfl rfl rfl rfl, ?_, ?_⟩
  · rw [Reading.strings_openQuote]
    exact hn.congr rfl rfl rfl rfl
  · cases r with
    | quoted q front cur w => exact absurd rfl (hr q front cur w)
    | _ => cases q <;> rfl
  · rw [Reading.text_openQuote, ← Reading.text_begun]
    exact hw

/-- The end of a part. -/
theorem bar_gives (h : Shows s r parts) (hr : ∀ q front cur w, r ≠ .quoted q front cur w)
    (input : List UInt8) :
    Gives (do
      let s ← s.endArg
      return .getchar { s with state := .space }.pipePartNew input) (.read false r.bar) input := by
  obtain ⟨s', hs', hn, hc, hw⟩ : ∃ s', s.endArg = some s' ∧
      Nodes s' parts (blocks (r.parts.map (·.map some))) ∧ Cursor s' parts ∧ s'.w.Holds [] := by
    rw [Parser.endArg, h.state]
    cases r with
    | start => exact ⟨s, rfl, h.nodes, h.cursor, h.w⟩
    | gap front cur =>
      refine ⟨s, rfl, ?_, h.cursor, h.w⟩
      simpa [Reading.parts, Reading.strings] using h.nodes
    | word front cur w =>
      obtain ⟨s', hs', hn, hc⟩ := dumpArg_nodes h
      refine ⟨{ s' with w := strNew }, ?_, ?_, hc.congr rfl rfl rfl rfl, strNew_holds⟩
      · rw [Reading.state, if_pos rfl, hs']
        rfl
      · have hn' : Nodes { s' with w := strNew } _ _ := hn.congr rfl rfl rfl rfl
        simpa [Reading.parts] using hn'
    | quoted q front cur w => exact absurd rfl (hr q front cur w)
  rw [hs']
  have hn' : Nodes { s' with state := .space } parts (blocks (r.parts.map (·.map some))) :=
    hn.congr rfl rfl rfl rfl
  refine ⟨_, parts ++ [(s'.top, [])], rfl, ?_, cursor_pipePartNew .., ?_, ?_⟩
  · have hbar : r.bar.strings = r.parts.map (·.map some) ++ [[]] := by
      cases r with
      | quoted q front cur w => exact absurd rfl (hr q front cur w)
      | _ => simp [Reading.bar, Reading.strings, Reading.parts]
    rw [hbar, blocks_append]
    exact hn'.pipePartNew hc.nowpp
  · rw [Parser.pipePartNew_state]
    cases r with
    | quoted q front cur w => exact absurd rfl (hr q front cur w)
    | _ => rfl
  · rw [Parser.pipePartNew_w]
    cases r with
    | quoted q front cur w => exact absurd rfl (hr q front cur w)
    | _ => exact hw

/-- A turn outside quotes. -/
theorem bareTurn_gives (h : Shows s r parts) (hr : ∀ q front cur w, r ≠ .quoted q front cur w)
    (hp : p ≠ 0) (input : List UInt8) :
    Gives (turn s p input) (r.turn p input).1 (r.turn p input).2 := by
  have hplain : r.plain p = r.bare p := by
    cases r with
    | quoted q front cur w => exact absurd rfl (hr q front cur w)
    | _ => rfl
  have hopen : ¬(s.state = .double ∨ s.state = .single) := by
    rw [h.state]
    cases r with
    | quoted q front cur w => exact absurd rfl (hr q front cur w)
    | _ => simp [Reading.state]
  rw [turn, if_neg hopen, Reading.turn, hplain, Reading.bare, if_neg hp]
  by_cases hnl : p = newline
  · rw [if_pos hnl, if_pos hnl]
    exact newline_gives h hr input
  rw [if_neg hnl, if_neg hnl]
  by_cases hsp : p = space
  · rw [if_pos hsp, if_pos hsp]
    exact space_gives h hr input
  rw [if_neg hsp, if_neg hsp]
  by_cases hsq : p = squote
  · rw [if_pos (.inl hsq), if_pos hsq, if_pos hsq]
    exact quote_gives h hr .single input
  by_cases hdq : p = dquote
  · rw [if_pos (.inr hdq), if_neg hsq, if_neg hsq, if_pos hdq]
    exact quote_gives h hr .double input
  rw [if_neg (not_or.2 ⟨hsq, hdq⟩), if_neg hsq, if_neg hdq]
  by_cases hbar : p = bar
  · rw [if_pos hbar, if_pos hbar]
    exact bar_gives h hr input
  rw [if_neg hbar, if_neg hbar]
  by_cases hback : p = backslash
  · rw [if_pos hback, if_pos hback]
    simp only [Reading.escaped]
    by_cases hneg : negative (getchar input).1
    · rw [if_pos hneg, if_pos hneg]
      exact .inl rfl
    rw [if_neg hneg, if_neg hneg]
    by_cases hesc : (getchar input).1 = newline
    · rw [if_pos hesc, if_pos hesc]
      exact ⟨s, parts, rfl, h⟩
    · rw [if_neg hesc, if_neg hesc]
      exact otherTurn_gives h hr _ _
  · rw [if_neg hback, if_neg hback]
    exact otherTurn_gives h hr p input

/-- Every turn of the loop. -/
theorem turn_shows (h : Shows s r parts) (hp : p ≠ 0) (input : List UInt8) :
    Gives (turn s p input) (r.turn p input).1 (r.turn p input).2 := by
  cases r with
  | quoted q front cur w =>
    have hquoted : s.state = .double ∨ s.state = .single := by
      rw [h.state]
      cases q
      · exact .inl rfl
      · exact .inr rfl
    rw [turn, if_pos hquoted]
    exact quotedTurn_gives h hp input
  | _ => exact bareTurn_gives h (by simp) hp input

end turns

/-! ## The loop -/

section loop

variable {s : Parser} {r : Reading} {parts : List PartAt}

theorem escaped_cases (r : Reading) (c : UInt8) :
    r.escaped c = .reply .null ∨ ∃ r', r.escaped c = .read false r' := by
  rw [Reading.escaped]
  split
  · exact .inl rfl
  · split
    · exact .inr ⟨_, rfl⟩
    · exact .inr ⟨_, rfl⟩

/-- Two steps of `read` for a turn that takes two characters. -/
theorem read_cons (r : Reading) (p : UInt8) (input : List UInt8) :
    match (r.turn p input).1 with
    | .read _ r' => read false r (p :: input) = read false r' (r.turn p input).2
    | .reply x => read false r (p :: input) = some (x, (r.turn p input).2) := by
  rw [read, Reading.step, if_neg Bool.false_ne_true, Reading.turn]
  cases hplain : r.plain p with
  | reply x => rfl
  | read escape r' =>
    cases escape with
    | false => rfl
    | true =>
      cases input with
      | nil => rfl
      | cons c input =>
        simp only [getchar, read, Reading.step, if_true]
        rcases escaped_cases r' c with hesc | ⟨r'', hesc⟩
        · rw [hesc]
        · rw [hesc]

theorem negative_minus_one : negative 255 := by decide

/-- The end of the input: a quote is not closed, or characters come for ever. -/
theorem turn_nil (r : Reading) :
    r.turn 255 [] = (.reply .null, []) ∧ read false r [] = some (.null, []) ∨
    r.turn 255 [] = (.read false (r.push 255), []) ∧ read false r [] = none ∧
      read false (r.push 255) [] = none := by
  cases r with
  | quoted q front cur w =>
    refine .inl ⟨?_, rfl⟩
    rw [Reading.turn, Reading.plain, Reading.inside, if_neg (by decide),
      if_neg (by cases q <;> decide),
      if_neg (by decide), if_pos negative_minus_one]
  | _ => exact .inr ⟨rfl, rfl, rfl⟩

/-- The same for the next character, whether there is one or not. -/
theorem read_getchar (r : Reading) (l : List UInt8) :
    match (r.turn (getchar l).1 (getchar l).2).1 with
    | .read _ r' => read false r l = read false r' (r.turn (getchar l).1 (getchar l).2).2
    | .reply x => read false r l = some (x, (r.turn (getchar l).1 (getchar l).2).2) := by
  cases l with
  | cons p input => exact read_cons r p input
  | nil =>
    rw [getchar]
    rcases turn_nil r with ⟨hturn, hread⟩ | ⟨hturn, hread, hpush⟩
    · rw [hturn]
      exact hread
    · rw [hturn]
      exact hread.trans hpush.symm

/-- A turn takes a character. -/
theorem length_turn (r : Reading) (l : List UInt8) :
    (r.turn (getchar l).1 (getchar l).2).2.length ≤ l.length - 1 := by
  have hgetchar (l : List UInt8) : (getchar l).2.length = l.length - 1 := by
    cases l <;> rfl
  rw [Reading.turn]
  split
  · rw [hgetchar, hgetchar]
    omega
  · rw [hgetchar]

/-- What `parse` returns is what was read. -/
def Agrees (parsed : Parsed) (x : Reply × List UInt8) : Prop :=
  match x.1 with
  | .null => parsed = .null x.2
  | .command strings => ∃ s parts, parsed = .command s x.2 ∧ Nodes s parts (blocks strings)

theorem leave_of_quoted {input : List UInt8} (h : s.state = .double ∨ s.state = .single) :
    leave s input = .null input := if_pos h

theorem leave_of_bare {input : List UInt8} (h : ¬(s.state = .double ∨ s.state = .single)) :
    leave s input = .command s input := if_neg h

/-- A zero character, at which the loop ends. -/
def Reading.atZero : Reading → Reply
  | quoted .. => .null
  | r => .command r.strings

theorem read_zero {l : List UInt8} (hl : (getchar l).1 = 0) :
    read false r l = some (r.atZero, (getchar l).2) := by
  cases l with
  | nil => exact absurd hl (by decide)
  | cons p input =>
    obtain rfl : p = 0 := hl
    cases r <;> rfl

theorem leave_agrees (h : Shows s r parts) {input : List UInt8} :
    Agrees (leave s input) (r.atZero, input) := by
  cases r with
  | quoted q front cur w =>
    refine leave_of_quoted ?_
    rw [h.state]
    cases q
    · exact .inl rfl
    · exact .inr rfl
  | _ => exact ⟨s, parts, leave_of_bare (by rw [h.state]; simp [Reading.state]), h.nodes⟩

/-- The loop, by induction on the bound of its turns. -/
theorem loop_shows (n : ℕ) (h : Shows s r parts) (l : List UInt8) :
    match loop n s (getchar l).1 (getchar l).2 with
    | none => read false r l = none ∨ n ≤ l.length
    | some parsed => ∃ x, read false r l = some x ∧ Agrees parsed x := by
  induction n generalizing s r parts l with
  | zero => exact .inr (Nat.zero_le _)
  | succ n ih =>
    rw [loop]
    by_cases hp : (getchar l).1 = 0
    · rw [if_pos hp]
      exact ⟨_, read_zero hp, leave_agrees h⟩
    rw [if_neg hp]
    have hread := read_getchar r l
    have hlen := length_turn r l
    have hgives := turn_shows h hp (getchar l).2
    cases hnext : (r.turn (getchar l).1 (getchar l).2).1 with
    | read escape r' =>
      rw [hnext] at hread hgives
      obtain ⟨s', parts', hs', hshows⟩ := hgives
      have hrest := ih hshows (r.turn (getchar l).1 (getchar l).2).2
      simp only [hs', hread]
      cases hloop : loop n s' (getchar (r.turn (getchar l).1 (getchar l).2).2).1
        (getchar (r.turn (getchar l).1 (getchar l).2).2).2 with
      | some parsed =>
        rw [hloop] at hrest
        exact hrest
      | none =>
        rw [hloop] at hrest
        rcases hrest with hnone | hn
        · exact .inl hnone
        cases l with
        | cons p input =>
          rw [List.length_cons] at hlen ⊢
          exact .inr (by omega)
        | nil =>
          -- the input is at its end, outside quotes
          rcases turn_nil r with ⟨hturn, -⟩ | ⟨-, hnone, -⟩
          · rw [getchar, hturn] at hnext
            cases hnext
          · exact .inl (hread.symm.trans hnone)
    | reply x =>
      rw [hnext] at hread hgives
      cases x with
      | null =>
        refine hgives.elim (fun hs' => ?_) fun ⟨s', hs', hquoted⟩ => ?_
        · rw [hs']
          exact ⟨_, hread, rfl⟩
        · rw [hs']
          exact ⟨_, hread, leave_of_quoted hquoted⟩
      | command strings =>
        obtain ⟨s', parts', hs', hbare, hnodes⟩ := hgives
        rw [hs']
        exact ⟨_, hread, s', parts', leave_of_bare hbare, hnodes⟩

end loop

/-- **The parser reads a line.**  It returns what `readLine` says, if there are turns
enough, and nothing else. -/
theorem parse_shows (n : ℕ) (input : List UInt8) :
    match parse n input with
    | none => readLine input = none ∨ n ≤ input.length
    | some parsed => ∃ x, readLine input = some x ∧ Agrees parsed x := by
  rw [parse, readLine]
  by_cases hneg : negative (getchar input).1
  · simp only [if_pos hneg]
    exact ⟨_, rfl, rfl⟩
  · simp only [if_neg hneg]
    exact loop_shows n shows_init input

/-- `parse` returns. -/
def Returns (input : List UInt8) : Prop := ∃ n parsed, parse n input = some parsed

theorem returns_iff (input : List UInt8) : Returns input ↔ (readLine input).isSome := by
  constructor
  · rintro ⟨n, parsed, hparse⟩
    have hshows := parse_shows n input
    rw [hparse] at hshows
    obtain ⟨x, hx, -⟩ := hshows
    rw [hx]
    rfl
  · intro hsome
    have hshows := parse_shows (input.length + 1) input
    cases hparse : parse (input.length + 1) input with
    | some parsed => exact ⟨_, _, hparse⟩
    | none =>
      rw [hparse] at hshows
      rcases hshows with hnone | hle
      · rw [hnone] at hsome
        cases hsome
      · omega

end SadOS.Sbush
