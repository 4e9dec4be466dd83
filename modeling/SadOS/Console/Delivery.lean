import SadOS.Console.Input

/-!
# Delivery of input

Reads of the control process are answered in the order in which they come, with the lines as they
were typed.  An Enter stores no zero, so the line goes on with what was in its memory before, unless
the next byte is a zero.  The ring of the pending reads is not looked at before a read is put in, and
the read that fills it empties it.

## Main definitions

* `Terminal.Delivers`, `Terminal.AnswersReads` — the property.
* `Terminal.KeepsInput` — when it holds.
* `Terminal.Queued` — the invariant: the lines that wait are what was typed and is not answered.

## Main results

* `Terminal.Queued.enter`, `Terminal.Queued.sendResult` — a line is put in the ring, and taken out.
* `answersReads_run` — runs in which input is delivered.
-/

namespace SadOS.Console

/-! ## The property -/

/-- The bytes of answers. -/
def answered (answers : List Answer) : List UInt8 := answers.flatMap Answer.bytes

/-- Each read has one answer or waits, in the order in which they came, and what is answered is the
begin of the lines that were typed. -/
structure Terminal.Delivers (s : Terminal) : Prop where
  order : s.answers.map Answer.handle ++ s.pendingRead.items.map Prod.fst = s.asked
  bytes : answered s.answers <+: s.done.flatten

/-- The property after a step.  After a turn of the main loop, reads wait only if all lines have been
given away. -/
structure Terminal.AnswersReads (M : Memory) (s : Terminal) (x : Input) : Prop where
  delivers : (s.step M x).Delivers
  prompt : ∀ r, x = .turn r → (s.step M x).pendingRead.items = [] ∨
    answered (s.step M x).answers = (s.step M x).done.flatten

/-! ## When it holds -/

/-- When a line ends, the byte behind its newline is a zero; `free` leaves the other lines alone; and
there is room for a read that has to wait. -/
structure Terminal.KeepsInput (M : Memory) (s : Terminal) (x : Input) : Prop where
  zero : ∀ code, x = .scan code → s.EndsLine code →
    s.lbend + 1 < lineSize ∧ s.mem s.lineBuffer (s.lbend + 1) = 0
  harmless : s.EachAnswer M (fun s len => s.Ends M len → ∀ i ≠ s.readableLines.front,
    M.freed s.readableLines.front s.rlOff s.mem i = s.mem i) x
  room : ∀ r len, x = .turn (some r) → r.Reads (s.serve M) len →
    (s.serve M).readableLines.IsEmpty → ¬(s.serve M).pendingRead.IsFull

/-! ## The invariant -/

/-- The bytes of a line that is typed, which has no end. -/
structure HasChars (b : ℕ → UInt8) (n : ℕ) (l : List UInt8) : Prop where
  length : l.length = n
  chars : ∀ k c, l[k]? = some c → b k = c ∧ c ≠ 0

/-- The strings of lines. -/
def HasStrings (mem : LineMem) (lines : List ℕ) (strs : List (List UInt8)) : Prop :=
  List.Forall₂ (fun i l => HasString (mem i) l) lines strs

/-- The lines that wait have strings, which are what is not yet answered of the lines that were
typed. -/
structure Terminal.Queued (s : Terminal) : Prop where
  owned : s.Owned
  typing : HasChars (s.mem s.lineBuffer) s.lbend s.typing
  lines : ∃ strs, HasStrings s.mem s.readableLines.items strs ∧
    s.rlOff ≤ (strs.headD []).length ∧
    s.done.flatten = answered s.answers ++ strs.flatten.drop s.rlOff

/-- Each read has one answer or waits. -/
def Terminal.Ordered (s : Terminal) : Prop :=
  s.answers.map Answer.handle ++ s.pendingRead.items.map Prod.fst = s.asked

@[simp] theorem answered_concat (answers : List Answer) (a : Answer) :
    answered (answers ++ [a]) = answered answers ++ a.bytes := by
  simp [answered]

section chars

variable {b : ℕ → UInt8} {n : ℕ} {l : List UInt8} {c : UInt8}

/-- One more character. -/
theorem HasChars.concat (h : HasChars b n l) (hc : c ≠ 0) :
    HasChars (Function.update b n c) (n + 1) (l ++ [c]) := by
  have hlen := h.length
  refine ⟨by simp [hlen], fun k c' hk => ?_⟩
  by_cases hlt : k < l.length
  · rw [List.getElem?_append_left hlt] at hk
    rw [Function.update_of_ne (by omega)]
    exact h.chars k c' hk
  · have hkn : k < (l ++ [c]).length := (List.getElem?_eq_some_iff.1 hk).1
    obtain rfl : k = n := by
      rw [List.length_append, List.length_singleton] at hkn
      omega
    rw [List.getElem?_append_right (by omega), hlen, Nat.sub_self] at hk
    rw [Function.update_self]
    exact ⟨by simpa using hk, by simpa [← (show c = c' by simpa using hk)] using hc⟩

/-- Stores behind the characters. -/
theorem HasChars.update (h : HasChars b n l) {k : ℕ} (hk : n ≤ k) (c : UInt8) :
    HasChars (Function.update b k c) n l := by
  refine ⟨h.length, fun i c' hi => ?_⟩
  have hlt : i < n := h.length ▸ (List.getElem?_eq_some_iff.1 hi).1
  rw [Function.update_of_ne (by omega)]
  exact h.chars i c' hi

/-- A zero behind the characters makes a string. -/
theorem HasChars.hasString (h : HasChars b n l) (hn : n < lineSize) (hzero : b n = 0) :
    HasString b l := ⟨h.length ▸ hn, h.chars, h.length ▸ hzero⟩

end chars

theorem HasStrings.congr {mem mem' : LineMem} {lines : List ℕ} {strs : List (List UInt8)}
    (h : HasStrings mem lines strs) (hmem : ∀ i ∈ lines, mem' i = mem i) :
    HasStrings mem' lines strs := by
  induction h with
  | nil => exact .nil
  | cons hl _ ih =>
    obtain ⟨hfirst, hrest⟩ := List.forall_mem_cons.1 hmem
    exact .cons (hfirst ▸ hl) (ih hrest)

theorem HasStrings.concat {mem : LineMem} {lines : List ℕ} {strs : List (List UInt8)} {i : ℕ}
    {l : List UInt8} (h : HasStrings mem lines strs) (hl : HasString (mem i) l) :
    HasStrings mem (lines ++ [i]) (strs ++ [l]) := by
  induction h with
  | nil => exact .cons hl .nil
  | cons hfirst _ ih => exact .cons hfirst ih

/-- The length of the first list. -/
theorem length_headD_le (strs : List (List UInt8)) :
    (strs.headD []).length ≤ strs.flatten.length := by
  cases strs with
  | nil => exact le_refl _
  | cons l ls => simp

namespace Terminal

theorem Queued.delivers {s : Terminal} (h : s.Queued) (horder : s.Ordered) : s.Delivers := by
  obtain ⟨strs, -, -, hdone⟩ := h.lines
  exact ⟨horder, _, hdone.symm⟩

theorem queued_boot (M : Memory) : (boot M).Queued := by
  exact ⟨⟨rfl, Nat.zero_le _, nofun⟩, ⟨rfl, nofun⟩, ⟨[], .nil, le_refl _, rfl⟩⟩

namespace Queued

variable {M : Memory} {s : Terminal} {handle : ℕ} {len : ℤ}

/-- The line that is typed changes. -/
theorem congr {s' : Terminal} (h : s.Queued) (howned : s'.Owned)
    (htyping : HasChars (s'.mem s'.lineBuffer) s'.lbend s'.typing)
    (hlines : s'.readableLines = s.readableLines) (hoff : s'.rlOff = s.rlOff)
    (hdone : s'.done = s.done) (hanswers : s'.answers = s.answers)
    (hmem : ∀ i ∈ s.readableLines.items, s'.mem i = s.mem i) : s'.Queued := by
  obtain ⟨strs, hstrs, hhead, hflat⟩ := h.lines
  refine ⟨howned, htyping, strs, ?_, ?_, ?_⟩
  · rw [hlines]
    exact hstrs.congr hmem
  · rwa [hoff]
  · rwa [hdone, hanswers, hoff]

theorem state (h : s.Queued) (state : KeyState) (state2 : UInt8) :
    Queued { s with state, state2 } :=
  h.congr ⟨h.owned.ids, h.owned.room, h.owned.stores⟩ h.typing rfl rfl rfl rfl
    fun _ _ => rfl

theorem typeChar (h : s.Queued) (hroom : s.lbend < 1023) {c : UInt8} (hc : c ≠ 0) :
    (s.typeChar c).Queued := by
  refine h.congr (h.owned.typeChar hroom c) ?_ rfl rfl rfl rfl fun i hi => ?_
  · show HasChars ((s.typeChar c).mem s.lineBuffer) (s.lbend + 1) (s.typing ++ [c])
    rw [mem_typeChar_lineBuffer]
    exact (h.typing.concat hc).update (le_refl _) 0
  · have hne := ne_of_mem_of_not_mem hi h.owned.lineBuffer_notMem
    exact (Function.update_of_ne hne _ _).trans (h.owned.mem_store hi)

theorem typeTab (h : s.Queued) (hroom : s.lbend < lineSize) : s.typeTab.Queued := by
  have howned := h.owned.typeTab hroom
  rw [Terminal.typeTab, if_pos hroom] at howned ⊢
  refine h.congr howned ?_ rfl rfl rfl rfl fun i hi => h.owned.mem_store hi
  show HasChars ((s.store s.lbend tab).mem s.lineBuffer) (s.lbend + 1) (s.typing ++ [tab])
  rw [mem_store_lineBuffer]
  exact h.typing.concat (by decide)

/-- A line with a zero behind it. -/
theorem enter (h : s.Queued) (hfull : ¬s.readableLines.IsFull) (hroom : s.lbend + 1 < lineSize)
    (hzero : s.mem s.lineBuffer (s.lbend + 1) = 0) : (s.enter M).Queued := by
  obtain ⟨strs, hstrs, hhead, hflat⟩ := h.lines
  have hlt : s.lbend < lineSize := Nat.lt_of_succ_lt hroom
  have hline : HasString ((s.enter M).mem s.lineBuffer) (s.typing ++ [newline]) := by
    rw [h.owned.mem_enter_lineBuffer hfull hlt]
    refine (h.typing.concat (by decide)).hasString hroom ?_
    rw [Function.update_of_ne (by omega), hzero]
  have hlines : HasStrings (s.enter M).mem (s.readableLines.items ++ [s.lineBuffer])
      (strs ++ [s.typing ++ [newline]]) :=
    (hstrs.congr fun i hi => h.owned.mem_enter hfull hlt hi).concat hline
  have hoff : s.rlOff ≤ strs.flatten.length := hhead.trans (length_headD_le strs)
  refine ⟨h.owned.enter hfull, ?_, strs ++ [s.typing ++ [newline]], ?_, ?_, ?_⟩
  · rw [enter_eq hfull hlt]
    exact ⟨rfl, nofun⟩
  · rwa [items_enter hfull]
  · rw [rlOff_enter]
    refine hhead.trans ?_
    cases strs with
    | nil => exact Nat.zero_le _
    | cons l ls => exact le_refl _
  · rw [done_enter hfull, answers_enter, rlOff_enter, List.flatten_concat, hflat, List.flatten_concat,
      List.append_assoc, List.drop_append_of_le_length hoff]

/-- A read is answered. -/
theorem sendResult (h : s.Queued) (hne : ¬s.readableLines.IsEmpty)
    (hharmless : s.Ends M len → ∀ i ≠ s.readableLines.front,
      M.freed s.readableLines.front s.rlOff s.mem i = s.mem i) :
    (sendResult M handle len s).Queued := by
  have howned := h.owned.sendResult M handle len hne
  obtain ⟨strs, hstrs, hhead, hflat⟩ := h.lines
  rw [Ring.items_pop hne] at hstrs
  cases hstrs with
  | @cons _ l _ ls hl hls =>
    have hoff : s.rlOff ≤ l.length := hhead
    have hsrc : s.src M = l.drop s.rlOff := stringAt_of_hasString hl hoff
    rw [List.flatten_cons, List.drop_append_of_le_length hoff] at hflat
    by_cases hends : s.Ends M len
    · rw [sendResult_of_ends hends] at howned ⊢
      have hfront : s.readableLines.front ∈ s.readableLines.items := by simp [Ring.items_pop hne]
      have htyped : s.lineBuffer ≠ s.readableLines.front :=
        (ne_of_mem_of_not_mem hfront h.owned.lineBuffer_notMem).symm
      refine ⟨howned, ?_, ls, ?_, Nat.zero_le _, ?_⟩
      · show HasChars (M.freed _ _ s.mem s.lineBuffer) s.lbend s.typing
        rw [hharmless hends _ htyped]
        exact h.typing
      · exact HasStrings.congr hls fun i hi => hharmless hends i (h.owned.pop_disjoint hne hi).1
      · rw [answered_concat, hsrc, List.drop_zero, List.append_assoc]
        exact hflat
    · rw [sendResult_of_not_ends hends] at howned ⊢
      have hlen : s.rlOff + len.toNat ≤ l.length := by
        rw [Terminal.Ends, hsrc, List.length_drop] at hends
        omega
      refine ⟨howned, h.typing, l :: ls, ?_, hlen, ?_⟩
      · show HasStrings s.mem s.readableLines.items (l :: ls)
        rw [Ring.items_pop hne]
        exact .cons hl hls
      · rw [answered_concat, hsrc, List.flatten_cons, List.drop_append_of_le_length hlen,
          ← List.drop_drop, List.append_assoc, ← List.append_assoc ((l.drop s.rlOff).take len.toNat),
          List.take_append_drop]
        exact hflat

theorem takeRead (h : s.Queued) : s.takeRead.Queued :=
  h.congr ⟨h.owned.ids, h.owned.room, h.owned.stores⟩ h.typing rfl rfl rfl rfl fun _ _ => rfl

/-- The loop of `main`. -/
theorem serve (h : s.Queued) (hharmless : EachServed M (fun s len => s.Ends M len →
      ∀ i ≠ s.readableLines.front, M.freed s.readableLines.front s.rlOff s.mem i = s.mem i)
    s.pendingRead.count s) : (s.serve M).Queued :=
  serveWaiting_induction (fun _ hs hne _ hP => hs.takeRead.sendResult hne hP) h hharmless

theorem handleRequest (h : s.Queued) {x : Request}
    (hharmless : ∀ n, x.Reads s n → ¬s.readableLines.IsEmpty → s.Ends M (Libc.toInt n) →
      ∀ i ≠ s.readableLines.front, M.freed s.readableLines.front s.rlOff s.mem i = s.mem i) :
    (handleRequest M x s).Queued := by
  have howned : s.Owned := h.owned
  rw [Console.handleRequest]
  split
  · next n htype =>
    split
    · exact h.congr ⟨howned.ids, howned.room, howned.stores⟩ h.typing rfl rfl rfl rfl fun _ _ => rfl
    · next hpid =>
      have hasked : Queued { s with asked := s.asked ++ [x.handle] } :=
        h.congr ⟨howned.ids, howned.room, howned.stores⟩ h.typing rfl rfl rfl rfl fun _ _ => rfl
      dsimp only
      split
      · exact h.congr ⟨howned.ids, howned.room, howned.stores⟩ h.typing rfl rfl rfl rfl
          fun _ _ => rfl
      · next hne => exact hasked.sendResult hne (hharmless n ⟨htype, not_not.1 hpid⟩ hne)
  · exact h.congr ⟨howned.ids, howned.room, howned.stores⟩ h.typing rfl rfl rfl rfl fun _ _ => rfl
  · exact h.congr ⟨howned.ids, howned.room, howned.stores⟩ h.typing rfl rfl rfl rfl fun _ _ => rfl
  · exact h

/-- One step. -/
theorem step (h : s.Queued) {x : Input} (hx : s.KeepsInput M x) : (s.step M x).Queued := by
  cases x with
  | scan code =>
    have hkey := keyStep_stateTransition M code s
    show (stateTransition M code s).Queued
    generalize stateTransition M code s = s' at hkey ⊢
    cases hkey with
    | state state state2 => exact h.state state state2
    | char c hc hroom => exact h.typeChar hroom hc
    | tab hroom => exact h.typeTab hroom
    | enter hends =>
      obtain ⟨hroom, hzero⟩ := hx.zero code rfl hends
      exact h.enter hends.2.2 hroom hzero
  | turn x =>
    cases x with
    | none => exact h.serve hx.harmless
    | some x => exact (h.serve hx.harmless.1).handleRequest hx.harmless.2

end Queued

namespace Ordered

variable {M : Memory} {s : Terminal}

/-- The loop of `main` answers the reads that wait, the first one first. -/
theorem serve (h : s.Ordered) : (s.serve M).Ordered := by
  refine serveWaiting_induction (fun s hs _ hne _ => ?_) h
    (eachServed_of_forall (P := fun _ _ => True) (fun _ _ => trivial) _ _)
  have hs' : s.answers.map Answer.handle ++ s.pendingRead.items.map Prod.fst = s.asked := hs
  rw [Ring.items_pop hne, List.map_cons, List.append_cons] at hs'
  rw [Ordered, handles_sendResult, pendingRead_sendResult, asked_sendResult]
  exact hs'

/-- The reads wait until there are lines. -/
theorem isEmpty_serve (M : Memory) (s : Terminal) :
    (s.serve M).readableLines.IsEmpty ∨ (s.serve M).pendingRead.items = [] :=
  (isEmpty_serveWaiting (le_refl _)).imp_right Ring.items_eq_nil_iff.2

theorem handleRequest (h : s.Ordered) {x : Request}
    (hprompt : s.readableLines.IsEmpty ∨ s.pendingRead.items = [])
    (hroom : ∀ n, x.Reads s n → s.readableLines.IsEmpty → ¬s.pendingRead.IsFull) :
    (handleRequest M x s).Ordered ∧ ((handleRequest M x s).readableLines.IsEmpty ∨
      (handleRequest M x s).pendingRead.items = []) := by
  rw [Console.handleRequest]
  split
  · next n htype =>
    split
    · exact ⟨h, hprompt⟩
    · next hpid =>
      dsimp only
      split
      · next hempty =>
        have hfull := hroom n ⟨htype, not_not.1 hpid⟩ hempty
        refine ⟨?_, .inl hempty⟩
        have h' : s.answers.map Answer.handle ++ s.pendingRead.items.map Prod.fst = s.asked := h
        rw [Ordered]
        dsimp only
        rw [Ring.items_push hfull, List.map_append, ← List.append_assoc, h']
        rfl
      · next hne =>
        have hnil := hprompt.resolve_left hne
        have h' : s.answers.map Answer.handle ++ s.pendingRead.items.map Prod.fst = s.asked := h
        rw [hnil, List.map_nil, List.append_nil] at h'
        refine ⟨?_, .inr ?_⟩
        · rw [Ordered, handles_sendResult, pendingRead_sendResult, asked_sendResult, hnil]
          simp [h']
        · rw [pendingRead_sendResult]
          exact hnil
  · exact ⟨h, hprompt⟩
  · exact ⟨h, hprompt⟩
  · exact ⟨h, hprompt⟩

end Ordered

/-- Without lines, all that was typed is answered. -/
theorem Queued.answered_eq {s : Terminal} (h : s.Queued) (hempty : s.readableLines.IsEmpty) :
    answered s.answers = s.done.flatten := by
  obtain ⟨strs, hstrs, -, hflat⟩ := h.lines
  rw [Ring.items_eq_nil_iff.2 hempty] at hstrs
  cases hstrs
  simpa using hflat.symm

/-- The reads after a turn. -/
theorem Ordered.turn {M : Memory} {s : Terminal} (h : s.Ordered) {r : Option Request}
    (hroom : ∀ x len, r = some x → x.Reads (s.serve M) len → (s.serve M).readableLines.IsEmpty →
      ¬(s.serve M).pendingRead.IsFull) :
    (s.step M (.turn r)).Ordered ∧ ((s.step M (.turn r)).readableLines.IsEmpty ∨
      (s.step M (.turn r)).pendingRead.items = []) := by
  cases r with
  | none => exact ⟨h.serve, isEmpty_serve M s⟩
  | some x => exact h.serve.handleRequest (isEmpty_serve M s) fun n => hroom x n rfl

theorem Ordered.scan {M : Memory} {s : Terminal} (h : s.Ordered) (code : UInt8) :
    (s.step M (.scan code)).Ordered := by
  have hkey := keyStep_stateTransition M code s
  show (stateTransition M code s).Ordered
  generalize stateTransition M code s = s' at hkey ⊢
  cases hkey with
  | state state state2 => exact h
  | char c hc hroom => exact h
  | tab hroom =>
    rw [Terminal.typeTab, if_pos hroom]
    exact h
  | enter hends =>
    rw [Ordered, answers_enter, pendingRead_enter, asked_enter]
    exact h

end Terminal

/-- Runs in which lines have an end behind their newlines, `free` does no harm, and less than 1023
reads wait. -/
theorem answersReads_run (M : Memory) {inputs : List Input}
    (h : Always (Terminal.KeepsInput M) (Terminal.step M) (Terminal.boot M) inputs) :
    Always (Terminal.AnswersReads M) (Terminal.step M) (Terminal.boot M) inputs := by
  refine h.of_invariant (I := fun s => s.Queued ∧ s.Ordered) ⟨Terminal.queued_boot M, rfl⟩
    fun s x hs hx => ?_
  obtain ⟨hqueued, hordered⟩ := hs
  have hqueued' := hqueued.step hx
  cases x with
  | scan code =>
    have hordered' := hordered.scan (M := M) code
    exact ⟨⟨hqueued'.delivers hordered', nofun⟩, hqueued', hordered'⟩
  | turn r =>
    obtain ⟨hordered', hprompt⟩ := hordered.turn (M := M) (r := r) fun x len heq =>
      hx.room x len (congrArg Input.turn heq)
    exact ⟨⟨hqueued'.delivers hordered', fun _ _ => (hprompt.imp_left hqueued'.answered_eq).symm⟩,
      hqueued', hordered'⟩

/-! ## Two runs -/

theorem harmless_zeroMemory (s : Terminal) (x : Input) : s.EachAnswer zeroMemory (fun s len =>
    s.Ends zeroMemory len → ∀ i ≠ s.readableLines.front,
      zeroMemory.freed s.readableLines.front s.rlOff s.mem i = s.mem i) x := by
  cases x with
  | scan code => trivial
  | turn r =>
    cases r with
    | none => exact eachServed_of_forall (fun _ _ _ _ _ => rfl) _ _
    | some x => exact ⟨eachServed_of_forall (fun _ _ _ _ _ => rfl) _ _, fun _ _ _ _ _ _ => rfl⟩

/-- A read waits for a line, and gets the begin of it; the next one gets the rest. -/
theorem answersReads_run_hi : Always (Terminal.AnswersReads zeroMemory) (Terminal.step zeroMemory)
    (Terminal.boot zeroMemory)
    (readRequest 7 1 :: typeHi ++ [.turn none, readRequest 8 10]) := by
  have hscan {s : Terminal} {code : UInt8} (h : code ≠ 0x1c) : s.KeepsInput zeroMemory (.scan code) :=
    ⟨fun code' heq hends => absurd hends.2.1 (Input.scan.inj heq ▸ h), trivial, nofun⟩
  refine answersReads_run zeroMemory ⟨⟨nofun, harmless_zeroMemory _ _, ?_⟩, hscan (by decide),
    hscan (by decide), ⟨fun _ _ _ => ?_, trivial, nofun⟩, ⟨nofun, harmless_zeroMemory _ _, nofun⟩,
    ⟨nofun, harmless_zeroMemory _ _, ?_⟩, trivial⟩
  · intro _ _ _ _ _
    decide +kernel
  · decide +kernel
  · intro _ _ _ _ _
    decide +kernel

/-- Memory in which the third line is where the first one was. -/
def reusedMemory : Memory :=
  { zeroMemory with block := fun n k => if n = 2 then [97, 98, 10].getD k 0 else 0 }

/-- The lines "ab", "" and "" are typed, and each is read; what is read of the third one goes on with
the end of the first one. -/
theorem not_answersReads_reused : ¬Always (Terminal.AnswersReads reusedMemory)
    (Terminal.step reusedMemory) (Terminal.boot reusedMemory)
    [.scan 0x1e, .scan 0x30, .scan 0x1c, readRequest 1 100, .scan 0x1c, readRequest 2 100,
      .scan 0x1c, readRequest 3 100] := by
  rintro ⟨-, -, -, -, -, -, -, hlast, -⟩
  exact absurd hlast.delivers.bytes.length_le (by decide +kernel)

end SadOS.Console
