import SadOS.Console.Input

/-!
# The memory of lines

A line is in one allocation until it is freed.  A letter stores a zero behind itself, but a tab and
an Enter do not; so a line ends inside of its memory if there is a zero that was there before.
`send_result` frees the pointer to the bytes that it has not given away before, which is the pointer
that `malloc` returned only if it gives away the whole line at once.

## Main definitions

* `Terminal.Safe`, `Terminal.KeepsLines` — the property.
* `Terminal.ClosesLines` — when it holds.
* `Terminal.Kept` — the invariant.

## Main results

* `Terminal.Kept.sendResult` — what an answer keeps.
* `keepsLines_run` — runs in which each line has an end, and is given away at once.
-/

namespace SadOS.Console

/-! ## The property -/

/-- The bytes of a line that were given away. -/
def bytesOf (line : ℕ) (answers : List Answer) : List UInt8 :=
  (answers.filter fun a => a.line = line).flatMap Answer.bytes

/-- Lines that wait have an end in their memory, stores are inside of the memory of a line, and each
allocation waits, is in use, or was freed once, by the pointer to its begin, when the whole line had
been given away. -/
structure Terminal.Safe (s : Terminal) : Prop where
  terminated : ∀ i ∈ s.readableLines.items, ∃ k < lineSize, s.mem i k = 0
  stores : ∀ k ∈ s.stores, k < lineSize
  once : s.frees.map Freed.line ++ s.readableLines.items ++ [s.lineBuffer] = List.range s.allocated
  freed : ∀ f ∈ s.frees, f.off = 0 ∧ bytesOf f.line s.answers = f.string

/-- The property after a step. -/
def Terminal.KeepsLines (M : Memory) (s : Terminal) (x : Input) : Prop := (s.step M x).Safe

/-! ## When it holds -/

/-- When a line ends, there is a zero behind its newline; and when the rest of a line is read,
nothing of it was read before. -/
structure Terminal.ClosesLines (M : Memory) (s : Terminal) (x : Input) : Prop where
  zero : ∀ code, x = .scan code → s.EndsLine code →
    ∃ k, s.lbend < k ∧ k < lineSize ∧ s.mem s.lineBuffer k = 0
  whole : s.EachAnswer M (fun s len => s.Ends M len → s.rlOff = 0) x

/-! ## The invariant -/

/-- With what was read of the first line. -/
structure Terminal.Kept (s : Terminal) : Prop where
  owned : s.Owned
  terminated : ∀ i ∈ s.readableLines.items, ∃ k < lineSize, s.mem i k = 0
  copied : ∀ i l, s.readableLines.items.head? = some i → HasString (s.mem i) l →
    s.rlOff ≤ l.length ∧ bytesOf i s.answers = l.take s.rlOff
  idle : s.readableLines.items = [] → s.rlOff = 0
  fresh : ∀ a ∈ s.answers,
    a.line ∈ s.frees.map Freed.line ∨ s.readableLines.items.head? = some a.line
  freed : ∀ f ∈ s.frees, f.off = 0 ∧ bytesOf f.line s.answers = f.string

section bytes

variable {i : ℕ} {answers : List Answer} {a : Answer}

@[simp] theorem bytesOf_nil (i : ℕ) : bytesOf i [] = [] := rfl

theorem bytesOf_concat : bytesOf i (answers ++ [a]) =
    bytesOf i answers ++ if a.line = i then a.bytes else [] := by
  rw [bytesOf, List.filter_append, List.flatMap_append, bytesOf]
  by_cases h : a.line = i <;> simp [h]

theorem bytesOf_concat_of_ne (h : a.line ≠ i) : bytesOf i (answers ++ [a]) = bytesOf i answers := by
  rw [bytesOf_concat, if_neg h, List.append_nil]

theorem bytesOf_eq_nil (h : ∀ a ∈ answers, a.line ≠ i) : bytesOf i answers = [] := by
  rw [bytesOf, List.filter_eq_nil_iff.2 fun a ha => by simpa using h a ha, List.flatMap_nil]

end bytes

namespace Terminal

theorem Kept.safe {s : Terminal} (h : s.Kept) : s.Safe :=
  ⟨h.terminated, h.owned.stores, h.owned.ids, h.freed⟩

theorem kept_boot (M : Memory) : (boot M).Kept := by
  refine ⟨⟨rfl, Nat.zero_le _, nofun⟩, ?_, ?_, fun _ => rfl, nofun, nofun⟩
  · simp [boot]
  · simp [boot]

namespace Kept

variable {M : Memory} {s : Terminal} {handle : ℕ} {len : ℤ}

/-- Memory changes, but not that of lines which wait. -/
theorem congr {s' : Terminal} (h : s.Kept) (howned : s'.Owned)
    (hlines : s'.readableLines = s.readableLines) (hoff : s'.rlOff = s.rlOff)
    (hanswers : s'.answers = s.answers) (hfrees : s'.frees = s.frees)
    (hmem : ∀ i ∈ s.readableLines.items, s'.mem i = s.mem i) : s'.Kept := by
  refine ⟨howned, fun i hi => ?_, fun i l hi hl => ?_, fun hnil => ?_, ?_, ?_⟩
  · rw [hlines] at hi
    rw [hmem i hi]
    exact h.terminated i hi
  · rw [hlines] at hi
    rw [hmem i (List.mem_of_head? hi)] at hl
    rw [hoff, hanswers]
    exact h.copied i l hi hl
  · rw [hlines] at hnil
    rw [hoff]
    exact h.idle hnil
  · rw [hanswers, hfrees, hlines]
    exact h.fresh
  · rw [hfrees, hanswers]
    exact h.freed

theorem state (h : s.Kept) (state : KeyState) (state2 : UInt8) :
    Kept { s with state, state2 } :=
  h.congr ⟨h.owned.ids, h.owned.room, h.owned.stores⟩ rfl rfl rfl rfl fun _ _ => rfl

theorem typeChar (h : s.Kept) (hroom : s.lbend < 1023) (c : UInt8) : (s.typeChar c).Kept := by
  refine h.congr (h.owned.typeChar hroom c) rfl rfl rfl rfl fun i hi => ?_
  have hne := ne_of_mem_of_not_mem hi h.owned.lineBuffer_notMem
  exact (Function.update_of_ne hne _ _).trans (h.owned.mem_store hi)

theorem typeTab (h : s.Kept) (hroom : s.lbend < lineSize) : s.typeTab.Kept := by
  have howned := h.owned.typeTab hroom
  rw [Terminal.typeTab, if_pos hroom] at howned ⊢
  exact h.congr howned rfl rfl rfl rfl fun i hi => h.owned.mem_store hi

theorem enter (h : s.Kept) (hfull : ¬s.readableLines.IsFull)
    (hzero : ∃ k, s.lbend < k ∧ k < lineSize ∧ s.mem s.lineBuffer k = 0) : (s.enter M).Kept := by
  obtain ⟨k, hlt, hk, hzero⟩ := hzero
  have hroom : s.lbend < lineSize := hlt.trans hk
  have hlines := items_enter (M := M) hfull
  have hmem := h.owned.mem_enter_lineBuffer (M := M) hfull hroom
  -- the first line is the same one, or the new one when there was none
  have hhead : ∀ i, (s.enter M).readableLines.items.head? = some i →
      s.readableLines.items.head? = some i ∨ s.readableLines.items = [] ∧ i = s.lineBuffer := by
    intro i hi
    rw [hlines] at hi
    cases hitems : s.readableLines.items with
    | nil => exact .inr ⟨rfl, by simpa [hitems, eq_comm] using hi⟩
    | cons j rest => exact .inl (by simpa [hitems] using hi)
  refine ⟨h.owned.enter hfull, fun i hi => ?_, fun i l hi hl => ?_, fun hnil => ?_, fun a ha => ?_, ?_⟩
  · rw [hlines] at hi
    rcases List.mem_append.1 hi with hi | hi
    · rw [h.owned.mem_enter hfull hroom hi]
      exact h.terminated i hi
    · rw [List.mem_singleton.1 hi, hmem]
      exact ⟨k, hk, by rw [Function.update_of_ne (Nat.ne_of_gt hlt), hzero]⟩
  · rw [rlOff_enter, answers_enter]
    rcases hhead i hi with hold | ⟨hnil, rfl⟩
    · rw [h.owned.mem_enter hfull hroom (List.mem_of_head? hold)] at hl
      exact h.copied i l hold hl
    · rw [h.idle hnil, List.take_zero]
      refine ⟨Nat.zero_le _, bytesOf_eq_nil fun a ha heq => ?_⟩
      have hfreed := (h.fresh a ha).resolve_right (by rw [hnil]; exact nofun)
      have hnodup := h.owned.nodup
      rw [hnil, List.append_nil] at hnodup
      exact List.disjoint_of_nodup_append hnodup (heq ▸ hfreed) (List.mem_singleton_self _)
  · rw [hlines] at hnil
    simp at hnil
  · rw [answers_enter] at ha
    rw [frees_enter, hlines]
    refine (h.fresh a ha).imp_right fun hold => ?_
    rw [List.head?_append, hold]
    rfl
  · rw [frees_enter, answers_enter]
    exact h.freed

/-- The string of the first line, and what is known of it. -/
theorem exists_front (h : s.Kept) (hne : ¬s.readableLines.IsEmpty) :
    ∃ l, HasString (s.mem s.readableLines.front) l ∧ s.rlOff ≤ l.length ∧
      bytesOf s.readableLines.front s.answers = l.take s.rlOff ∧ s.src M = l.drop s.rlOff ∧
        s.stringAt M s.readableLines.front 0 = l := by
  have hitems := Ring.items_pop hne
  obtain ⟨k, hk, hzero⟩ := h.terminated s.readableLines.front (by simp [hitems])
  obtain ⟨l, hl⟩ := exists_hasString hk hzero
  obtain ⟨hoff, hbytes⟩ := h.copied _ l (by simp [hitems]) hl
  exact ⟨l, hl, hoff, hbytes, stringAt_of_hasString hl hoff,
    stringAt_of_hasString hl (Nat.zero_le _)⟩

/-- A line is given away at once. -/
theorem sendResult_whole (h : s.Kept) (hne : ¬s.readableLines.IsEmpty) (hends : s.Ends M len)
    (hoff : s.rlOff = 0) : (sendResult M handle len s).Kept := by
  have howned := h.owned.sendResult M handle len hne
  have hitems := Ring.items_pop hne
  obtain ⟨l, -, -, hbytes, hsrc, hstring⟩ := h.exists_front (M := M) hne
  rw [hoff, List.take_zero] at hbytes
  rw [hoff, List.drop_zero] at hsrc
  have hnot := h.owned.front_notMem hne
  have hfreed : ∀ f ∈ s.frees, s.readableLines.front ≠ f.line :=
    fun f hf heq => hnot (heq ▸ List.mem_map_of_mem hf)
  rw [sendResult_of_ends hends] at howned ⊢
  rw [hsrc, hstring, hoff] at howned ⊢
  have hmem : ∀ i ∈ s.readableLines.pop.items,
      M.freed s.readableLines.front 0 s.mem i = s.mem i :=
    fun i hi => M.frame _ _ _ (h.owned.pop_disjoint hne hi).1
  refine ⟨howned, fun i hi => ?_, fun i l' hi hl' => ?_, fun _ => rfl, fun a ha => .inl ?_,
    fun f hf => ?_⟩
  · show ∃ k < lineSize, M.freed _ 0 s.mem i k = 0
    rw [hmem i hi]
    exact h.terminated i (by rw [hitems]; exact List.mem_cons_of_mem _ hi)
  · refine ⟨Nat.zero_le _, ?_⟩
    obtain ⟨hfront, hnot⟩ := h.owned.pop_disjoint hne (List.mem_of_head? hi)
    show bytesOf i (s.answers ++ [_]) = l'.take 0
    rw [bytesOf_concat_of_ne (Ne.symm hfront), List.take_zero]
    refine bytesOf_eq_nil fun a ha heq => ?_
    rcases h.fresh a ha with hline | hline
    · exact hnot (heq ▸ hline)
    · rw [hitems, List.head?_cons, Option.some.injEq] at hline
      exact hfront (hline.trans heq).symm
  · show a.line ∈ (s.frees ++ [_]).map Freed.line
    rw [List.map_append, List.map_singleton, List.mem_append, List.mem_singleton]
    rcases List.mem_append.1 ha with ha | ha
    · refine (h.fresh a ha).imp_right fun hline => ?_
      rw [hitems, List.head?_cons, Option.some.injEq] at hline
      exact hline.symm
    · rw [List.mem_singleton.1 ha]
      exact .inr rfl
  · show f.off = 0 ∧ bytesOf f.line (s.answers ++ [_]) = f.string
    rcases List.mem_append.1 hf with hf | hf
    · rw [bytesOf_concat_of_ne (hfreed f hf)]
      exact h.freed f hf
    · rw [List.mem_singleton.1 hf, bytesOf_concat, hbytes]
      simp

/-- A part of a line is given away. -/
theorem sendResult_part (h : s.Kept) (hne : ¬s.readableLines.IsEmpty) (hends : ¬s.Ends M len) :
    (sendResult M handle len s).Kept := by
  have howned := h.owned.sendResult M handle len hne
  have hitems := Ring.items_pop hne
  obtain ⟨l, hl, hoff, hbytes, hsrc, -⟩ := h.exists_front (M := M) hne
  have hlen : s.rlOff + len.toNat ≤ l.length := by
    rw [Terminal.Ends, hsrc, List.length_drop] at hends
    omega
  have hnot := h.owned.front_notMem hne
  rw [sendResult_of_not_ends hends] at howned ⊢
  refine ⟨howned, h.terminated, fun i l' hi hl' => ?_, fun hnil => ?_, fun a ha => ?_, fun f hf => ?_⟩
  · have hfront : s.readableLines.items.head? = some i := hi
    rw [hitems, List.head?_cons, Option.some.injEq] at hfront
    subst hfront
    obtain rfl : l = l' := hl.unique hl'
    refine ⟨hlen, ?_⟩
    show bytesOf s.readableLines.front (s.answers ++ [_]) = l.take (s.rlOff + len.toNat)
    rw [bytesOf_concat, hbytes, hsrc, List.take_add, if_pos rfl]
  · exact absurd (Ring.items_eq_nil_iff.1 hnil) hne
  · rcases List.mem_append.1 ha with ha | ha
    · exact h.fresh a ha
    · rw [List.mem_singleton.1 ha]
      exact .inr (by simp [hitems])
  · show f.off = 0 ∧ bytesOf f.line (s.answers ++ [_]) = f.string
    have hother : s.readableLines.front ≠ f.line := fun heq => hnot (heq ▸ List.mem_map_of_mem hf)
    rw [bytesOf_concat_of_ne hother]
    exact h.freed f hf

/-- A read gets the whole line, or a part of a line whose rest stays. -/
theorem sendResult (h : s.Kept) (hne : ¬s.readableLines.IsEmpty)
    (hwhole : s.Ends M len → s.rlOff = 0) : (sendResult M handle len s).Kept := by
  by_cases hends : s.Ends M len
  · exact h.sendResult_whole hne hends (hwhole hends)
  · exact h.sendResult_part hne hends

theorem takeRead (h : s.Kept) : s.takeRead.Kept :=
  h.congr ⟨h.owned.ids, h.owned.room, h.owned.stores⟩ rfl rfl rfl rfl fun _ _ => rfl

/-- The loop of `main`. -/
theorem serve (h : s.Kept)
    (hwhole : EachServed M (fun s len => s.Ends M len → s.rlOff = 0) s.pendingRead.count s) :
    (s.serve M).Kept :=
  serveWaiting_induction (fun _ hs hne _ hP => hs.takeRead.sendResult hne hP) h hwhole

theorem handleRequest (h : s.Kept) {x : Request}
    (hwhole : ∀ n, x.Reads s n → ¬s.readableLines.IsEmpty →
      s.Ends M (Libc.toInt n) → s.rlOff = 0) : (handleRequest M x s).Kept := by
  have howned : s.Owned := h.owned
  rw [Console.handleRequest]
  split
  · next n htype =>
    split
    · exact h.congr ⟨howned.ids, howned.room, howned.stores⟩ rfl rfl rfl rfl fun _ _ => rfl
    · next hpid =>
      have hasked : Kept { s with asked := s.asked ++ [x.handle] } :=
        h.congr ⟨howned.ids, howned.room, howned.stores⟩ rfl rfl rfl rfl fun _ _ => rfl
      dsimp only
      split
      · exact h.congr ⟨howned.ids, howned.room, howned.stores⟩ rfl rfl rfl rfl fun _ _ => rfl
      · next hne => exact hasked.sendResult hne (hwhole n ⟨htype, not_not.1 hpid⟩ hne)
  · exact h.congr ⟨howned.ids, howned.room, howned.stores⟩ rfl rfl rfl rfl fun _ _ => rfl
  · exact h.congr ⟨howned.ids, howned.room, howned.stores⟩ rfl rfl rfl rfl fun _ _ => rfl
  · exact h

/-- One step. -/
theorem step (h : s.Kept) {x : Input} (hx : s.ClosesLines M x) : (s.step M x).Kept := by
  cases x with
  | scan code =>
    have hkey := keyStep_stateTransition M code s
    show (stateTransition M code s).Kept
    generalize stateTransition M code s = s' at hkey ⊢
    cases hkey with
    | state state state2 => exact h.state state state2
    | char c hc hroom => exact h.typeChar hroom c
    | tab hroom => exact h.typeTab hroom
    | enter hends => exact h.enter hends.2.2 (hx.zero code rfl hends)
  | turn x =>
    cases x with
    | none => exact h.serve hx.whole
    | some x => exact (h.serve hx.whole.1).handleRequest hx.whole.2

end Kept

end Terminal

/-- Runs in which each line has an end when it is put in the ring, and no line is given away in
parts. -/
theorem keepsLines_run (M : Memory) {inputs : List Input}
    (h : Always (Terminal.ClosesLines M) (Terminal.step M) (Terminal.boot M) inputs) :
    Always (Terminal.KeepsLines M) (Terminal.step M) (Terminal.boot M) inputs :=
  h.of_invariant (Terminal.kept_boot M) fun _ _ hkept hx => ⟨(hkept.step hx).safe, hkept.step hx⟩

/-! ## Two runs -/

theorem closesLines_of_ne {M : Memory} {s : Terminal} {code : UInt8} (h : code ≠ 0x1c) :
    s.ClosesLines M (.scan code) where
  zero code' heq hends := by
    obtain rfl := Input.scan.inj heq
    exact absurd hends.2.1 h
  whole := trivial

theorem keepsLines_run_hi : Always (Terminal.KeepsLines zeroMemory) (Terminal.step zeroMemory)
    (Terminal.boot zeroMemory) (typeHi ++ [readRequest 7 10]) := by
  refine keepsLines_run zeroMemory ⟨closesLines_of_ne (by decide), closesLines_of_ne (by decide),
    ⟨fun _ _ _ => ⟨3, ?_, by decide, ?_⟩, trivial⟩, ⟨nofun, ?_, fun _ _ _ _ => ?_⟩, trivial⟩
  · decide +kernel
  · decide +kernel
  · trivial
  · rfl

/-- The line is read in two parts, and the second is freed. -/
theorem not_keepsLines_parts : ¬Always (Terminal.KeepsLines zeroMemory) (Terminal.step zeroMemory)
    (Terminal.boot zeroMemory) (typeHi ++ [readRequest 7 1, readRequest 8 10]) := by
  rintro ⟨-, -, -, -, hsafe, -⟩
  have hfreed := hsafe.freed ⟨0, 1, [104, 105, 10]⟩ (by decide +kernel)
  exact absurd hfreed.1 (by decide)

end SadOS.Console
