import SadOS.Sbush.Reading

/-!
# What the shell can rely on

Words in double quotes come back as they were, whatever is in them.  A command whose
parts have a word each is one that `pipe_exec` can follow, and `parse` returns, unless the
input ends outside quotes: then it goes on reading −1.

## Main definitions

* `Lists`, `Says`, `WellFormed` — what those see who follow the pointers of a command.
* `render` — a command as a text.
* `Ending`, `filled` — how the text of a command ends, and that its bars have words.
* `parse_render`, `wellFormed_iff`, `returns_iff_ending` — the three results.
-/

namespace SadOS.Sbush

/-! ## A command and its pointers -/

/-- The nodes that the links of a command run through. -/
structure Lists (s : Parser) (parts : List PartAt) : Prop where
  pipes : Threaded (fun p => (s.pipes p).next) s.ret.pipe0 (parts.map Prod.fst)
  args : ∀ p ∈ parts, Threaded (fun a => (s.args a).next) (s.pipes p.1).argv0 p.2

/-- The command has these words, and counts them right. -/
def Says (s : Parser) (cmds : List (List Word)) : Prop :=
  ∃ parts, Lists s parts ∧ s.ret.npipe = cmds.length ∧
    parts.map (fun p => (s.pipes p.1).argc) = cmds.map List.length ∧
    parts.map (fun p => p.2.map fun a => (s.args a).str) =
      cmds.map fun ws => ws.map fun w => some (w ++ [0])

/-- The command can be followed: it counts its nodes right, every part has an argument, and
every argument a string. -/
def WellFormed (s : Parser) : Prop :=
  ∃ parts, Lists s parts ∧ s.ret.npipe = parts.length ∧
    ∀ p ∈ parts, (s.pipes p.1).argc = p.2.length ∧ 1 ≤ (s.pipes p.1).argc ∧
      ∀ a ∈ p.2, (s.args a).str ≠ none

section lists

variable {s : Parser} {parts : List PartAt} {strings : List (List (Option Word))}

theorem Lists.unique {parts' : List PartAt} (h : Lists s parts) (h' : Lists s parts') :
    parts = parts' := by
  have hnodes := h.pipes.unique h'.pipes
  have hargs := h.args
  have hargs' := h'.args
  clear h h'
  induction parts generalizing parts' with
  | nil => exact (List.map_eq_nil_iff.1 hnodes.symm).symm
  | cons p parts ih =>
    cases parts' with
    | nil => cases hnodes
    | cons p' parts' =>
      obtain ⟨hnode, hnodes⟩ := List.cons.inj hnodes
      have hp := hargs p List.mem_cons_self
      rw [hnode] at hp
      have hlist := hp.unique (hargs' p' List.mem_cons_self)
      rw [Prod.ext hnode hlist, ih hnodes (fun q hq => hargs q (List.mem_cons_of_mem p hq))
        fun q hq => hargs' q (List.mem_cons_of_mem p' hq)]

theorem Nodes.lists {strings : List (List (Option (List UInt8)))} (h : Nodes s parts strings) :
    Lists s parts := ⟨h.pipes, h.args⟩

/-- Every part has a word, and every word a string. -/
def Full (strings : List (List (Option Word))) : Prop :=
  ∀ ws ∈ strings, ws ≠ [] ∧ none ∉ ws

theorem Nodes.wellFormed_iff_full (h : Nodes s parts (blocks strings)) :
    WellFormed s ↔ Full strings := by
  have hstrings := h.strings
  constructor
  · rintro ⟨parts', hlists, -, hparts⟩ ws hws
    obtain rfl := hlists.unique h.lists
    obtain ⟨p, hp, heq⟩ : ∃ p ∈ parts', p.2.map (fun a => (s.args a).str) =
        ws.map (Option.map (· ++ [0])) := by
      have hmem : ws.map (Option.map (· ++ [0])) ∈ blocks strings := List.mem_map_of_mem hws
      rw [← hstrings] at hmem
      exact List.mem_map.1 hmem
    obtain ⟨hargc, hpos, hstr⟩ := hparts p hp
    constructor
    · rintro rfl
      have hnil : p.2 = [] := List.map_eq_nil_iff.1 heq
      rw [hargc, hnil] at hpos
      exact absurd hpos (by decide)
    · intro hnone
      have hmem : none ∈ ws.map (Option.map (· ++ [0])) := List.mem_map.2 ⟨none, hnone, rfl⟩
      rw [← heq] at hmem
      obtain ⟨a, ha, heq⟩ := List.mem_map.1 hmem
      exact hstr a ha heq
  · intro hfull
    refine ⟨parts, h.lists, h.npipe, fun p hp => ?_⟩
    have hmem : p.2.map (fun a => (s.args a).str) ∈ blocks strings :=
      hstrings ▸ List.mem_map_of_mem hp
    obtain ⟨ws, hws, heq⟩ := List.mem_map.1 hmem
    obtain ⟨hne, hnone⟩ := hfull ws hws
    refine ⟨h.argc p hp, ?_, fun a ha hstr => hnone ?_⟩
    · rw [h.argc p hp, ← List.length_map (fun a => (s.args a).str), ← heq, List.length_map]
      exact List.length_pos_iff.2 hne
    · have hmem : none ∈ ws.map (Option.map (· ++ [0])) := by
        rw [heq]
        exact List.mem_map.2 ⟨a, ha, hstr⟩
      obtain ⟨w, hw, heq⟩ := List.mem_map.1 hmem
      rw [Option.map_eq_none_iff] at heq
      exact heq ▸ hw

theorem Nodes.says {cmds : List (List Word)} (h : Nodes s parts (blocks (cmds.map (·.map some)))) :
    Says s cmds := by
  have hstrings : parts.map (fun p => p.2.map fun a => (s.args a).str) =
      cmds.map fun ws => ws.map fun w => some (w ++ [0]) := by
    rw [h.strings]
    simp [blocks]
  have hlength : parts.map (fun p => p.2.length) = cmds.map List.length := by
    have hlen := congrArg (List.map List.length) hstrings
    simpa [Function.comp_def] using hlen
  refine ⟨parts, h.lists, ?_, ?_, hstrings⟩
  · rw [h.npipe]
    simpa using congrArg List.length hlength
  · rw [← hlength]
    exact List.map_congr_left h.argc

end lists

/-! ## A command as a text -/

/-- A backslash comes before double quotes and backslashes. -/
def escapeByte (c : UInt8) : List UInt8 :=
  if c = dquote ∨ c = backslash then [backslash, c] else [c]

def quoteWord (w : Word) : List UInt8 := dquote :: (w.flatMap escapeByte ++ [dquote])

def renderPart (ws : List Word) : List UInt8 := [space].intercalate (ws.map quoteWord)

def render (cmds : List (List Word)) : List UInt8 :=
  [bar].intercalate (cmds.map renderPart) ++ [newline]

section render

variable {front : List (List Word)} {cur : List Word}

/-- The text inside the quotes of a word. -/
theorem read_escaped (w v : Word) (hv : ∀ c ∈ v, 1 ≤ c ∧ c ≤ 127) (rest : List UInt8) :
    read false (.quoted .double front cur w) (v.flatMap escapeByte ++ dquote :: rest) =
      read false (.word front cur (w ++ v)) rest := by
  induction v generalizing w with
  | nil =>
    rw [List.append_nil]
    rfl
  | cons c v ih =>
    have hrest := ih (w ++ [c]) fun x hx => hv x (List.mem_cons_of_mem c hx)
    obtain ⟨hpos, hle⟩ := hv c List.mem_cons_self
    have hzero : c ≠ 0 := by
      rintro rfl
      exact absurd hpos (by decide)
    have hneg : ¬negative c := fun hneg => absurd (UInt8.le_trans hneg hle) (by decide)
    rw [List.append_assoc, List.singleton_append] at hrest
    rw [List.flatMap_cons, List.append_assoc, escapeByte, ← hrest]
    by_cases hesc : c = dquote ∨ c = backslash
    · have hnl : c ≠ newline := by
        rintro rfl
        exact absurd hesc (by decide)
      have hstep : Reading.step true (.quoted .double front cur w) c =
          .read false (.quoted .double front cur (w ++ [c])) := by
        rw [Reading.step, if_pos rfl, Reading.escaped, if_neg hneg, if_neg hnl]
        rfl
      rw [if_pos hesc, List.cons_append, List.singleton_append, read]
      have hback : Reading.step false (.quoted .double front cur w) backslash =
          .read true (.quoted .double front cur w) := rfl
      rw [hback]
      simp only [read, hstep]
    · obtain ⟨hdq, hback⟩ := not_or.1 hesc
      have hstep : Reading.step false (.quoted .double front cur w) c =
          .read false (.quoted .double front cur (w ++ [c])) := by
        rw [Reading.step, if_neg Bool.false_ne_true, Reading.plain, Reading.inside, if_neg hzero,
          Quote.char, if_neg hdq, if_neg hback, if_neg hneg]
      rw [if_neg hesc, List.singleton_append, read, hstep]

/-- Where a word may begin: at the start, and after a space or a bar. -/
def Reading.Ready (r : Reading) (front : List (List Word)) (cur : List Word) : Prop :=
  r = .gap front cur ∨ r = .start ∧ front = [] ∧ cur = []

theorem read_quoteWord {r : Reading} (hr : r.Ready front cur) {w : Word}
    (hw : ∀ c ∈ w, 1 ≤ c ∧ c ≤ 127) (rest : List UInt8) :
    read false r (quoteWord w ++ rest) = read false (.word front cur w) rest := by
  have hquote : read false r (quoteWord w ++ rest) =
      read false (.quoted .double front cur []) (w.flatMap escapeByte ++ dquote :: rest) := by
    rw [quoteWord, List.cons_append, List.append_assoc, List.singleton_append]
    obtain rfl | ⟨rfl, rfl, rfl⟩ := hr <;> rfl
  rw [hquote, read_escaped [] w hw, List.nil_append]

/-- The words of a part, up to the last one. -/
theorem read_renderPart {r : Reading} (hr : r.Ready front cur) {ws : List Word} (hne : ws ≠ [])
    (hws : ∀ w ∈ ws, ∀ c ∈ w, 1 ≤ c ∧ c ≤ 127) :
    ∃ cur' w', cur' ++ [w'] = cur ++ ws ∧
      ∀ rest, read false r (renderPart ws ++ rest) = read false (.word front cur' w') rest := by
  induction ws generalizing r cur with
  | nil => exact absurd rfl hne
  | cons w ws ih =>
    have hw := read_quoteWord hr (hws w List.mem_cons_self)
    cases ws with
    | nil =>
      refine ⟨cur, w, rfl, fun rest => ?_⟩
      rw [renderPart, List.map_singleton, List.intercalate_singleton, hw]
    | cons v ws =>
      obtain ⟨cur', w', heq, hread⟩ := ih (r := .gap front (cur ++ [w])) (.inl rfl)
        (List.cons_ne_nil v ws) fun x hx => hws x (List.mem_cons_of_mem w hx)
      rw [List.append_assoc] at heq
      refine ⟨cur', w', heq, fun rest => ?_⟩
      rw [← hread rest, renderPart, List.map_cons, List.map_cons, List.intercalate_cons_cons,
        List.append_assoc, List.append_assoc, hw]
      rfl

/-- The parts of a command, up to its last word. -/
theorem read_parts {r : Reading} (hr : r.Ready front []) {cmds : List (List Word)} (hne : cmds ≠ [])
    (hparts : ∀ ws ∈ cmds, ws ≠ []) (hws : ∀ ws ∈ cmds, ∀ w ∈ ws, ∀ c ∈ w, 1 ≤ c ∧ c ≤ 127) :
    ∃ front' cur' w', front' ++ [cur' ++ [w']] = front ++ cmds ∧ ∀ rest,
      read false r ([bar].intercalate (cmds.map renderPart) ++ rest) =
        read false (.word front' cur' w') rest := by
  induction cmds generalizing r front with
  | nil => exact absurd rfl hne
  | cons ws cmds ih =>
    obtain ⟨cur', w', heq, hread⟩ := read_renderPart hr (hparts ws List.mem_cons_self)
      (hws ws List.mem_cons_self)
    rw [List.nil_append] at heq
    cases cmds with
    | nil =>
      refine ⟨front, cur', w', by rw [heq], fun rest => ?_⟩
      rw [List.map_singleton, List.intercalate_singleton, hread]
    | cons vs cmds =>
      obtain ⟨front', cur'', w'', heq', hread'⟩ := ih (r := .gap (front ++ [ws]) []) (.inl rfl)
        (List.cons_ne_nil vs cmds) (fun x hx => hparts x (List.mem_cons_of_mem ws hx))
        fun x hx => hws x (List.mem_cons_of_mem ws hx)
      rw [List.append_assoc] at heq'
      refine ⟨front', cur'', w'', heq', fun rest => ?_⟩
      rw [← hread' rest, List.map_cons, List.map_cons, List.intercalate_cons_cons,
        List.append_assoc, List.append_assoc, hread, ← heq]
      rfl

end render

/-- The first character of a rendered command. -/
theorem getchar_render {cmds : List (List Word)} (hne : cmds ≠ []) (hparts : ∀ ws ∈ cmds, ws ≠ [])
    (rest : List UInt8) : (getchar (render cmds ++ rest)).1 = dquote := by
  obtain ⟨ws, cmds, rfl⟩ := List.exists_cons_of_ne_nil hne
  obtain ⟨w, ws, rfl⟩ := List.exists_cons_of_ne_nil (hparts ws List.mem_cons_self)
  cases cmds <;> cases ws <;> rfl

/-- **Quoting is undone.**  A command that is rendered comes back with its words in their
order, and the input behind it is not read. -/
theorem parse_render {cmds : List (List Word)} (hne : cmds ≠ []) (hparts : ∀ ws ∈ cmds, ws ≠ [])
    (hws : ∀ ws ∈ cmds, ∀ w ∈ ws, ∀ c ∈ w, 1 ≤ c ∧ c ≤ 127) (rest : List UInt8) :
    ∃ n s, parse n (render cmds ++ rest) = some (.command s rest) ∧ Says s cmds := by
  obtain ⟨front, cur, w, heq, hread⟩ :=
    read_parts (r := .start) (.inr ⟨rfl, rfl, rfl⟩) hne hparts hws
  have hline : readLine (render cmds ++ rest) = some (.command (cmds.map (·.map some)), rest) := by
    rw [readLine, getchar_render hne hparts, if_neg (by decide), render, List.append_assoc, hread,
      ← List.nil_append cmds, ← heq]
    rfl
  have hshows := parse_shows ((render cmds ++ rest).length + 1) (render cmds ++ rest)
  cases hparse : parse ((render cmds ++ rest).length + 1) (render cmds ++ rest) with
  | none =>
    rw [hparse, hline] at hshows
    rcases hshows with hnone | hle
    · cases hnone
    · omega
  | some parsed =>
    rw [hparse, hline] at hshows
    obtain ⟨x, hx, hagrees⟩ := hshows
    obtain rfl := Option.some.inj hx
    obtain ⟨s, parts, rfl, hnodes⟩ := hagrees
    exact ⟨_, s, hparse, hnodes.says⟩

theorem parse_render_pipe : ∃ n s, parse n (render [[[97, 32], []], [[34, 92]]] ++ [97]) =
    some (.command s [97]) ∧ Says s [[[97, 32], []], [[34, 92]]] :=
  parse_render (by decide) (by decide) (by simp) [97]

/-! ## The end of a command -/

/-- How the text of a command ends: with its line, with a syntax error, or never. -/
inductive Ending
  | line
  | error
  | never
  deriving DecidableEq

/-- The quotes and backslashes of a text: the ending, inside a quote or not, and behind a
backslash or not. -/
def ending : Option Quote → Bool → List UInt8 → Ending
  | none, false, [] => .never
  | _, _, [] => .error
  | q, true, c :: text => if negative c then .error else ending q false text
  | none, false, c :: text =>
    if c = newline ∨ c = 0 then .line
    else if c = squote then ending (some .single) false text
    else if c = dquote then ending (some .double) false text
    else ending none (c = backslash) text
  | some q, false, c :: text =>
    if c = 0 ∨ negative c then .error
    else if c = q.char then ending none false text
    else ending (some q) (c = backslash) text

/-- The quote that a reading is in. -/
def Reading.quote : Reading → Option Quote
  | quoted q .. => some q
  | _ => none

def endingOf : Option (Reply × List UInt8) → Ending
  | none => .never
  | some (.null, _) => .error
  | some (.command _, _) => .line

theorem not_negative_char (q : Quote) : ¬negative q.char := by
  cases q <;> decide

/-- A character inside quotes. -/
theorem inside_cases (q : Quote) (front : List (List Word)) (cur : List Word)
    (w : Word) (c : UInt8) :
    (c = 0 ∨ negative c) ∧ Reading.inside q front cur w c = .reply .null ∨
    ¬(c = 0 ∨ negative c) ∧ c = q.char ∧
      Reading.inside q front cur w c = .read false (.word front cur w) ∨
    ¬(c = 0 ∨ negative c) ∧ c ≠ q.char ∧ ∃ w',
      Reading.inside q front cur w c = .read (c = backslash) (.quoted q front cur w') := by
  rw [Reading.inside]
  by_cases hzero : c = 0
  · exact .inl ⟨.inl hzero, if_pos hzero⟩
  rw [if_neg hzero]
  by_cases hq : c = q.char
  · refine .inr (.inl ⟨?_, hq, if_pos hq⟩)
    exact not_or.2 ⟨hzero, hq ▸ not_negative_char q⟩
  rw [if_neg hq]
  by_cases hback : c = backslash
  · refine .inr (.inr ⟨not_or.2 ⟨hzero, ?_⟩, hq, w, ?_⟩)
    · rw [hback]
      decide
    · rw [if_pos hback, decide_eq_true hback]
  rw [if_neg hback]
  by_cases hneg : negative c
  · exact .inl ⟨.inr hneg, if_pos hneg⟩
  · refine .inr (.inr ⟨not_or.2 ⟨hzero, hneg⟩, hq, w ++ [c], ?_⟩)
    rw [if_neg hneg, decide_eq_false hback]

/-- The part that a reading is in: nothing of the line, nothing behind a bar, between words,
or in a word. -/
inductive Place
  | line
  | bar
  | gap
  | word
  deriving DecidableEq

namespace Reading

def place : Reading → Place
  | start => .line
  | gap _ [] => .bar
  | gap _ (_ :: _) => .gap
  | word .. | quoted .. => .word

def front : Reading → List (List Word)
  | start => []
  | gap front _ | word front _ _ | quoted _ front _ _ => front

variable {r : Reading}

theorem quote_push (c : UInt8) : (r.push c).quote = r.quote := by
  cases r <;> rfl

theorem quote_openQuote (hr : r.quote = none) (q : Quote) : (r.openQuote q).quote = some q := by
  cases r with
  | quoted q' front cur w => cases hr
  | _ => rfl

theorem quote_space : r.space.quote = r.quote := by
  cases r <;> rfl

theorem quote_bar : r.bar.quote = r.quote := by
  cases r <;> rfl

end Reading

/-- A character outside quotes. -/
theorem plain_of_bare {r : Reading} (hr : r.quote = none) (c : UInt8) : r.plain c = r.bare c := by
  cases r with
  | quoted q front cur w => cases hr
  | _ => rfl

/-- **The ending is that of the text.** -/
theorem ending_read (escape : Bool) (r : Reading) (l : List UInt8) :
    ending r.quote escape l = endingOf (read escape r l) := by
  induction l generalizing escape r with
  | nil => cases escape <;> cases r <;> rfl
  | cons c l ih =>
    rw [read, Reading.step]
    cases escape with
    | true =>
      rw [if_pos rfl, Reading.escaped, ending]
      by_cases hneg : negative c
      · rw [if_pos hneg, if_pos hneg]
        rfl
      rw [if_neg hneg, if_neg hneg]
      by_cases hnl : c = newline
      · rw [if_pos hnl]
        exact ih false r
      · rw [if_neg hnl, ← Reading.quote_push c]
        exact ih false (r.push c)
    | false =>
      rw [if_neg Bool.false_ne_true]
      cases hquote : r.quote with
      | some q =>
        obtain ⟨q', front, cur, w, rfl⟩ : ∃ q' front cur w, r = .quoted q' front cur w := by
          cases r with
          | quoted q' front cur w => exact ⟨q', front, cur, w, rfl⟩
          | _ => cases hquote
        obtain rfl : q' = q := Option.some.inj hquote
        rw [ending, Reading.plain]
        rcases inside_cases q' front cur w c with ⟨hbad, h⟩ | ⟨hbad, hq, h⟩ | ⟨hbad, hq, w', h⟩
        · rw [if_pos hbad, h]
          rfl
        · rw [if_neg hbad, if_pos hq, h]
          exact ih false (.word front cur w)
        · rw [if_neg hbad, if_neg hq, h]
          exact ih _ (.quoted q' front cur w')
      | none =>
        rw [plain_of_bare hquote, Reading.bare, ending]
        by_cases hzero : c = 0
        · rw [if_pos (.inr hzero), if_pos hzero]
          rfl
        by_cases hnl : c = newline
        · rw [if_pos (.inl hnl), if_neg hzero, if_pos hnl]
          rfl
        rw [if_neg (not_or.2 ⟨hnl, hzero⟩), if_neg hzero, if_neg hnl]
        by_cases hsp : c = space
        · have hne : c ≠ squote ∧ c ≠ dquote ∧ c ≠ backslash := by
            rw [hsp]
            decide
          rw [if_neg hne.1, if_neg hne.2.1, decide_eq_false hne.2.2, if_pos hsp, ← hquote,
            ← Reading.quote_space]
          exact ih false r.space
        rw [if_neg hsp]
        by_cases hsq : c = squote
        · rw [if_pos hsq, if_pos hsq, ← Reading.quote_openQuote hquote]
          exact ih false (r.openQuote .single)
        rw [if_neg hsq, if_neg hsq]
        by_cases hdq : c = dquote
        · rw [if_pos hdq, if_pos hdq, ← Reading.quote_openQuote hquote]
          exact ih false (r.openQuote .double)
        rw [if_neg hdq, if_neg hdq]
        by_cases hbar : c = bar
        · have hne : c ≠ backslash := by
            rw [hbar]
            decide
          rw [if_pos hbar, decide_eq_false hne, ← hquote, ← Reading.quote_bar]
          exact ih false r.bar
        rw [if_neg hbar]
        by_cases hback : c = backslash
        · rw [if_pos hback, decide_eq_true hback, ← hquote]
          exact ih true r
        · rw [if_neg hback, decide_eq_false hback, ← hquote, ← Reading.quote_push c]
          exact ih false (r.push c)

/-- **When the parser returns.**  The first character is negative or not there, or the line
ends, or a quote or a backslash meets the end of the input or a negative character. -/
theorem returns_iff_ending (input : List UInt8) :
    Returns input ↔ negative (getchar input).1 ∨ ending none false input ≠ .never := by
  rw [returns_iff, readLine]
  by_cases hneg : negative (getchar input).1
  · rw [if_pos hneg]
    exact ⟨fun _ => .inl hneg, fun _ => rfl⟩
  · have hending := ending_read false .start input
    rw [if_neg hneg, or_iff_right hneg]
    change _ ↔ ending (Reading.quote .start) false input ≠ .never
    rw [hending]
    rcases hread : read false .start input with _ | ⟨_ | _, _⟩ <;> simp [endingOf]

/-- A line that ends in a word, with the input. -/
theorem not_returns_of_open_word : ¬Returns [97] := by
  rw [returns_iff]
  decide

/-! ## Parts without words -/

/-- The place after a space. -/
def Place.space : Place → Place
  | word => gap
  | x => x

/-- Every bar of the text stands behind a word, except at the beginning of the line, the
line does not end behind a bar, and no zero character stands behind a word, if a command
comes of it at all. -/
def filled : Place → Option Quote → Bool → List UInt8 → Bool
  | _, _, _, [] => true
  | x, q, true, c :: text =>
    if negative c then true else filled (if c = newline then x else .word) q false text
  | x, none, false, c :: text =>
    if c = 0 then x ≠ .bar ∧ x ≠ .word
    else if c = newline then x ≠ .bar
    else if c = space then filled x.space none false text
    else if c = squote then filled .word (some .single) false text
    else if c = dquote then filled .word (some .double) false text
    else if c = bar then
      if x = .bar then ending none false text ≠ .line else filled .bar none false text
    else if c = backslash then filled x none true text
    else filled .word none false text
  | x, some q, false, c :: text =>
    if c = 0 ∨ negative c then true
    else if c = q.char then filled x none false text
    else filled x (some q) (c = backslash) text

/-- The commands that may come of a text are full. -/
def Fills (x : Option (Reply × List UInt8)) : Prop :=
  ∀ strings rest, x = some (.command strings, rest) → Full strings

theorem fills_none : Fills none := fun _ _ h => by cases h

theorem fills_null {rest : List UInt8} : Fills (some (.null, rest)) := fun _ _ h => by cases h

theorem fills_command {strings : List (List (Option Word))} {rest : List UInt8} :
    Fills (some (.command strings, rest)) ↔ Full strings := by
  constructor
  · exact fun h => h strings rest rfl
  · rintro h strings' rest' heq
    cases heq
    exact h

namespace Reading

variable {r : Reading}

theorem front_push (c : UInt8) : (r.push c).front = r.front := by
  cases r <;> rfl

theorem front_openQuote (q : Quote) : (r.openQuote q).front = r.front := by
  cases r <;> rfl

theorem front_space : r.space.front = r.front := by
  cases r <;> rfl

theorem mem_front_bar {ws : List Word} (hws : ws ∈ r.front) : ws ∈ r.bar.front := by
  cases r with
  | start => cases hws
  | gap front cur => exact List.mem_append_left _ hws
  | word front cur w => exact List.mem_append_left _ hws
  | quoted q front cur w => exact hws

theorem mem_strings {ws : List Word} (hws : ws ∈ r.front) : ws.map some ∈ r.strings := by
  cases r with
  | start => cases hws
  | _ => exact List.mem_append_left _ (List.mem_map_of_mem hws)

theorem mem_parts {ws : List Word} (hws : ws ∈ r.front) : ws ∈ r.parts := by
  cases r with
  | start => cases hws
  | _ => exact List.mem_append_left _ hws

theorem place_push (c : UInt8) : (r.push c).place = .word := by
  cases r <;> rfl

theorem place_openQuote (q : Quote) : (r.openQuote q).place = .word := by
  cases r <;> rfl

theorem place_space (hr : r.quote = none) : r.space.place = r.place.space := by
  cases r with
  | gap front cur => cases cur <;> rfl
  | word front cur w => cases cur <;> rfl
  | start => rfl
  | quoted q front cur w => cases hr

theorem place_bar (hr : r.quote = none) : r.bar.place = .bar := by
  cases r with
  | quoted q front cur w => cases hr
  | _ => rfl

theorem empty_mem_front_bar (h : r.place = .bar) : [] ∈ r.bar.front := by
  cases r with
  | gap front cur =>
    cases cur with
    | nil => exact List.mem_append_right front List.mem_cons_self
    | cons w ws => cases h
  | _ => cases h

theorem front_bar_ne_nil (hr : r.quote = none) (hgood : ∀ ws ∈ r.front, ws ≠ [])
    (h : r.place ≠ .bar) : ∀ ws ∈ r.bar.front, ws ≠ [] := by
  cases r with
  | start => exact hgood
  | gap front cur =>
    cases cur with
    | nil => exact absurd rfl h
    | cons w ws =>
      intro vs hvs
      rcases List.mem_append.1 hvs with hvs | hvs
      · exact hgood vs hvs
      · rw [List.mem_singleton.1 hvs]
        exact List.cons_ne_nil w ws
  | word front cur w =>
    intro vs hvs
    rcases List.mem_append.1 hvs with hvs | hvs
    · exact hgood vs hvs
    · rw [List.mem_singleton.1 hvs]
      exact List.append_ne_nil_of_right_ne_nil cur (List.cons_ne_nil w [])
  | quoted q front cur w => cases hr

/-- The words at the end of a line. -/
theorem full_parts (hr : r.quote = none) (hgood : ∀ ws ∈ r.front, ws ≠ []) :
    Full (r.parts.map (·.map some)) ↔ r.place ≠ .bar := by
  have hfront : ∀ ws ∈ r.front, ws.map some ≠ [] ∧ none ∉ ws.map some := fun ws hws =>
    ⟨by simpa using hgood ws hws, by simp⟩
  cases r with
  | start => simp [Full, parts, place]
  | gap front cur =>
    cases cur with
    | nil => simp [Full, parts, place]
    | cons w ws =>
      simp only [place, ne_eq, reduceCtorEq, not_false_eq_true, iff_true]
      intro vs hvs
      rw [parts, List.map_append, List.mem_append] at hvs
      rcases hvs with hvs | hvs
      · obtain ⟨us, hus, rfl⟩ := List.mem_map.1 hvs
        exact hfront us hus
      · rw [List.map_singleton, List.mem_singleton] at hvs
        simp [hvs]
  | word front cur w =>
    simp only [place, ne_eq, reduceCtorEq, not_false_eq_true, iff_true]
    intro vs hvs
    rw [parts, List.map_append, List.mem_append] at hvs
    rcases hvs with hvs | hvs
    · obtain ⟨us, hus, rfl⟩ := List.mem_map.1 hvs
      exact hfront us hus
    · rw [List.map_singleton, List.mem_singleton] at hvs
      simp [hvs]
  | quoted q front cur w => cases hr

/-- The words at a zero character. -/
theorem full_strings (hr : r.quote = none) (hgood : ∀ ws ∈ r.front, ws ≠ []) :
    Full r.strings ↔ r.place ≠ .bar ∧ r.place ≠ .word := by
  cases r with
  | word front cur w => simp [Full, strings, place]
  | quoted q front cur w => cases hr
  | start => simp [Full, strings, place]
  | gap front cur =>
    have hparts := full_parts hr hgood
    have hstrings : (gap front cur).strings = (gap front cur).parts.map (·.map some) := by
      simp [strings, parts]
    have hword : (gap front cur).place ≠ .word := by
      cases cur <;> simp [place]
    rw [hstrings, hparts, and_iff_left hword]

/-- The parts before the last bar stay. -/
theorem step_front {ws : List Word} (h : ws ∈ r.front) (escape : Bool) (c : UInt8) :
    match r.step escape c with
    | .read _ r' => ws ∈ r'.front
    | .reply .null => True
    | .reply (.command strings) => ws.map some ∈ strings := by
  rw [step]
  cases escape with
  | true =>
    rw [if_pos rfl, escaped]
    split_ifs
    · trivial
    · exact h
    · simpa only [front_push] using h
  | false =>
    rw [if_neg Bool.false_ne_true]
    cases hquote : r.quote with
    | some q =>
      cases r with
      | quoted q' front cur w =>
        rw [plain]
        rcases inside_cases q' front cur w c with ⟨-, hnext⟩ | ⟨-, -, hnext⟩ | ⟨-, -, w', hnext⟩
        · rw [hnext]
          trivial
        · rw [hnext]
          exact h
        · rw [hnext]
          exact h
      | _ => cases hquote
    | none =>
      rw [plain_of_bare hquote, bare]
      split_ifs
      · exact mem_strings h
      · exact List.mem_map_of_mem (mem_parts h)
      · simpa only [front_space] using h
      · simpa only [front_openQuote] using h
      · simpa only [front_openQuote] using h
      · exact mem_front_bar h
      · exact h
      · simpa only [front_push] using h

end Reading

theorem read_front {ws : List Word} {escape : Bool} {r : Reading} {l rest : List UInt8}
    {strings : List (List (Option Word))} (h : ws ∈ r.front)
    (hread : read escape r l = some (.command strings, rest)) : ws.map some ∈ strings := by
  induction l generalizing escape r with
  | nil => cases escape <;> cases r <;> cases hread
  | cons c l ih =>
    have hstep := Reading.step_front h escape c
    rw [read] at hread
    rcases hnext : r.step escape c with ⟨escape', r'⟩ | ⟨_ | _⟩
    · rw [hnext] at hstep hread
      exact ih hstep hread
    · rw [hnext] at hstep hread
      cases hread
      exact hstep
    · rw [hnext] at hread
      cases hread

/-- A part without words spoils every command that comes of the rest. -/
theorem fills_of_empty {r : Reading} {l : List UInt8} (hempty : [] ∈ r.front) :
    Fills (read false r l) ↔ endingOf (read false r l) ≠ .line := by
  rcases hread : read false r l with _ | ⟨_ | _, rest⟩
  · simp [fills_none, endingOf]
  · rename_i strings
    have hmem := read_front hempty hread
    rw [fills_command]
    refine ⟨fun hfull => ?_, fun hne => absurd rfl hne⟩
    exact absurd rfl (hfull _ hmem).1
  · simp [fills_null, endingOf]

/-- **The bars and words of a text say whether its command is full.** -/
theorem filled_read (escape : Bool) {r : Reading} (l : List UInt8)
    (hgood : ∀ ws ∈ r.front, ws ≠ []) :
    filled r.place r.quote escape l = true ↔ Fills (read escape r l) := by
  induction l generalizing escape r with
  | nil =>
    have hnil : filled r.place r.quote escape [] = true := by
      simp [filled]
    refine iff_of_true hnil ?_
    cases escape with
    | true => exact fills_null
    | false =>
      cases r with
      | quoted q front cur w => exact fills_null
      | _ => exact fills_none
  | cons c l ih =>
    rw [read, Reading.step]
    cases escape with
    | true =>
      rw [if_pos rfl, Reading.escaped, filled]
      by_cases hneg : negative c
      · rw [if_pos hneg, if_pos hneg]
        exact iff_of_true rfl fills_null
      rw [if_neg hneg, if_neg hneg]
      by_cases hnl : c = newline
      · rw [if_pos hnl, if_pos hnl]
        exact ih false hgood
      · rw [if_neg hnl, if_neg hnl, ← Reading.quote_push c, ← Reading.place_push (r := r) c]
        exact ih false ((Reading.front_push (r := r) c).symm ▸ hgood)
    | false =>
      rw [if_neg Bool.false_ne_true]
      cases hquote : r.quote with
      | some q =>
        obtain ⟨q', front, cur, w, rfl⟩ : ∃ q' front cur w, r = .quoted q' front cur w := by
          cases r with
          | quoted q' front cur w => exact ⟨q', front, cur, w, rfl⟩
          | _ => cases hquote
        obtain rfl : q' = q := Option.some.inj hquote
        rw [filled, Reading.plain]
        rcases inside_cases q' front cur w c with ⟨hbad, h⟩ | ⟨hbad, hq, h⟩ | ⟨hbad, hq, w', h⟩
        · rw [if_pos hbad, h]
          exact iff_of_true rfl fills_null
        · rw [if_neg hbad, if_pos hq, h]
          exact ih false (r := .word front cur w) hgood
        · rw [if_neg hbad, if_neg hq, h]
          exact ih _ (r := .quoted q' front cur w') hgood
      | none =>
        rw [plain_of_bare hquote, Reading.bare, filled]
        by_cases hzero : c = 0
        · rw [if_pos hzero, if_pos hzero, fills_command, Reading.full_strings hquote hgood]
          exact decide_eq_true_iff
        rw [if_neg hzero, if_neg hzero]
        by_cases hnl : c = newline
        · rw [if_pos hnl, if_pos hnl, fills_command, Reading.full_parts hquote hgood]
          exact decide_eq_true_iff
        rw [if_neg hnl, if_neg hnl]
        by_cases hsp : c = space
        · rw [if_pos hsp, if_pos hsp, ← Reading.place_space hquote, ← hquote, ← Reading.quote_space]
          exact ih false (Reading.front_space.symm ▸ hgood)
        rw [if_neg hsp, if_neg hsp]
        by_cases hsq : c = squote
        · rw [if_pos hsq, if_pos hsq, ← Reading.quote_openQuote hquote,
            ← Reading.place_openQuote (r := r) .single]
          exact ih false ((Reading.front_openQuote (r := r) _).symm ▸ hgood)
        rw [if_neg hsq, if_neg hsq]
        by_cases hdq : c = dquote
        · rw [if_pos hdq, if_pos hdq, ← Reading.quote_openQuote hquote,
            ← Reading.place_openQuote (r := r) .double]
          exact ih false ((Reading.front_openQuote (r := r) _).symm ▸ hgood)
        rw [if_neg hdq, if_neg hdq]
        by_cases hbar : c = bar
        · rw [if_pos hbar, if_pos hbar]
          by_cases hplace : r.place = .bar
          · -- two bars with no word between them
            have hending := ending_read false r.bar l
            rw [Reading.quote_bar, hquote] at hending
            rw [if_pos hplace, hending, decide_eq_true_iff]
            exact (fills_of_empty (Reading.empty_mem_front_bar hplace)).symm
          · rw [if_neg hplace, ← Reading.place_bar hquote, ← hquote, ← Reading.quote_bar]
            exact ih false (Reading.front_bar_ne_nil hquote hgood hplace)
        rw [if_neg hbar, if_neg hbar]
        by_cases hback : c = backslash
        · rw [if_pos hback, if_pos hback, ← hquote]
          exact ih true hgood
        · rw [if_neg hback, if_neg hback, ← hquote, ← Reading.quote_push c,
            ← Reading.place_push (r := r) c]
          exact ih false ((Reading.front_push (r := r) c).symm ▸ hgood)

/-- The commands that `parse` returns are those of the line. -/
theorem wellFormed_iff_fills (input : List UInt8) :
    (∀ n s rest, parse n input = some (.command s rest) → WellFormed s) ↔
      Fills (readLine input) := by
  constructor
  · intro h strings rest hread
    have hshows := parse_shows (input.length + 1) input
    cases hparse : parse (input.length + 1) input with
    | none =>
      rw [hparse, hread] at hshows
      rcases hshows with hnone | hle
      · cases hnone
      · omega
    | some parsed =>
      rw [hparse] at hshows
      obtain ⟨x, hx, hagrees⟩ := hshows
      obtain rfl := Option.some.inj (hx.symm.trans hread)
      obtain ⟨s, parts, rfl, hnodes⟩ := hagrees
      exact hnodes.wellFormed_iff_full.1 (h _ s rest hparse)
  · intro h n s rest hparse
    have hshows := parse_shows n input
    rw [hparse] at hshows
    obtain ⟨⟨strings | _, rest'⟩, hx, hagrees⟩ := hshows
    · obtain ⟨s', parts, heq, hnodes⟩ := hagrees
      cases heq
      exact hnodes.wellFormed_iff_full.2 (h _ _ hx)
    · cases hagrees

/-- **When commands can be followed.** -/
theorem wellFormed_iff (input : List UInt8) :
    (∀ n s rest, parse n input = some (.command s rest) → WellFormed s) ↔
      negative (getchar input).1 ∨ filled .line none false input = true := by
  rw [wellFormed_iff_fills, readLine]
  by_cases hneg : negative (getchar input).1
  · rw [if_pos hneg]
    exact iff_of_true fills_null (.inl hneg)
  · rw [if_neg hneg, or_iff_right hneg]
    exact (filled_read false (r := .start) input (by simp [Reading.front])).symm

/-- A line with nothing on it but a bar. -/
theorem not_wellFormed_of_bar :
    ¬∀ n s rest, parse n [bar, newline] = some (.command s rest) → WellFormed s := by
  rw [wellFormed_iff_fills]
  intro h
  exact (h [[]] [] rfl [] (by simp)).1 rfl

end SadOS.Sbush
