import SadOS.Libc.Scanf

/-!
# Numbers from `printf` to `scanf`

What `printf` writes for a number, and `scanf` makes of it.  `%x` writes the number as a
`long`, and `scanf` reads an `int` with wraparound; for `%d`, `scanf` has no sign.

## Main results

* `numberLoop_digits` — the loop over the digits of a number, for any base.
* `roundTrips_iff` — `%d` gives back the numbers that are not negative, `%x` all numbers.
-/

namespace SadOS.Libc

/-- The format `%d`. -/
def intFormat : CString where
  bytes := [percent, 'd'.toUInt8]
  noNul := by
    simp only [List.forall_mem_cons]
    exact ⟨by decide, by decide, fun _ h => absurd h List.not_mem_nil⟩

/-- The text that `printf` writes for a number in this format is scanned to the number, if a
space follows it. -/
def RoundTrips (format : CString) (n : BitVec 32) : Prop :=
  ∀ val : VaList, val.int 0 = n → ∀ (res : ℕ) (m : ℕ → UInt8),
    ∃ p, printf format val (some res) m = .printed p ∧
      ∀ (e : Ending) (s : Scanner) (rest : List UInt8),
        s.pending = p.written ++ ' '.toUInt8 :: rest → (scanf e format s).2.stored = [.int n]

/-! ## Digits -/

section digits

variable {e : Ending} {base : Base} {s : Scan} {ds : List ℕ} {d : ℕ} {rest : List UInt8}

theorem foldCase_digitChar (hd : d < 16) : foldCase (digitChar d) = digitChar d := by
  revert d
  decide

theorem isDigit_digitChar (hd : d < base.val) : isDigit base (digitChar d) = true := by
  by_cases hten : base.val = 10
  · rw [hten] at hd
    rw [isDigit, if_pos hten]
    revert d
    decide
  · have hlt : d < 16 := hd.trans_le base.le_sixteen
    rw [isDigit, if_neg hten]
    clear hd
    revert d
    decide

theorem isDigit_space (base : Base) : isDigit base ' '.toUInt8 = false := by
  rw [isDigit]
  split <;> decide

theorem foldFor_digitChar (hd : d < base.val) : foldFor base (digitChar d) = digitChar d := by
  rw [foldFor]
  split
  · rfl
  · exact foldCase_digitChar (hd.trans_le base.le_sixteen)

theorem foldFor_space (base : Base) : foldFor base ' '.toUInt8 = ' '.toUInt8 := by
  rw [foldFor]
  split <;> decide

theorem addDigit_digitChar (hd : d < base.val) (res : BitVec 32) :
    addDigit base res (digitChar d) =
      res * BitVec.ofNat 32 base.val + BitVec.ofNat 32 d := by
  have hval : (if charVal (digitChar d) ≥ 97 then BitVec.ofInt 32 (charVal (digitChar d) - 97 + 10)
      else BitVec.ofInt 32 (charVal (digitChar d) - 48)) = BitVec.ofNat 32 d := by
    have hlt : d < 16 := hd.trans_le base.le_sixteen
    clear hd
    revert d
    decide
  rw [addDigit, ← hval]
  split <;> rfl

/-- The digits of a number are gone past, up to a space, and added up. -/
theorem numberLoop_digits {b : Base} (hds : ∀ d ∈ ds, d < b.val)
    (hs : s.chars = ds.map digitChar ++ ' '.toUInt8 :: rest) (acc : ℕ) :
    ∃ s', numberLoop e b s (BitVec.ofNat 32 acc) =
        (true, BitVec.ofNat 32 (ds.foldl (fun acc d => acc * b.val + d) acc), s') ∧
      s'.stored = s.stored := by
  induction ds generalizing s acc with
  | nil =>
    have hhead : (s.fold b).readahead = ' '.toUInt8 := by
      rw [Scan.chars, List.map_nil, List.nil_append, List.cons.injEq] at hs
      exact (congrArg (foldFor b) hs.1).trans (foldFor_space b)
    refine ⟨s.fold b, ?_, rfl⟩
    rw [numberLoop, hhead, isDigit_space, if_neg Bool.false_ne_true]
    rfl
  | cons d ds ih =>
    obtain ⟨hd, hds⟩ := List.forall_mem_cons.1 hds
    rw [Scan.chars, List.map_cons, List.cons_append, List.cons.injEq] at hs
    have hhead : (s.fold b).readahead = digitChar d :=
      (congrArg (foldFor b) hs.1).trans (foldFor_digitChar hd)
    have hinput : (s.fold b).input ≠ [] := by
      rw [show (s.fold b).input = s.input from rfl, hs.2]
      exact List.append_ne_nil_of_right_ne_nil _ (List.cons_ne_nil _ _)
    obtain ⟨hret, hstored, -, hchars⟩ := readNext_goes (e := e) hinput
    obtain ⟨s', hs', hstored'⟩ := ih hds (hchars.trans hs.2) (acc * b.val + d)
    refine ⟨s', ?_, hstored'.trans hstored⟩
    rw [numberLoop, hhead, if_pos (isDigit_digitChar hd), dif_neg hret, addDigit_digitChar hd,
      ← BitVec.ofNat_mul, ← BitVec.ofNat_add, hs', List.foldl_cons]

theorem skipSpaces_stop (h : isspace s.readahead = false) : skipSpaces e s = (true, s) := by
  rw [skipSpaces, h, if_neg Bool.false_ne_true]

theorem isspace_digitChar (hd : d < 16) : isspace (digitChar d) = false := by
  revert d
  decide

theorem digitChar_ne_x (hd : d < 16) : digitChar d ≠ 'x'.toUInt8 := by
  revert d
  decide

theorem digitChar_ne_zero (hd : d < 16) : digitChar d ≠ 0 := by
  revert d
  decide

theorem eq_zero_of_digitChar (hd : d < 16) (h : digitChar d = '0'.toUInt8) : d = 0 := by
  revert d
  decide

/-- The prefix of `%x` takes at most a digit zero from a number. -/
theorem hexPrefix_digits (hd : d < 16) (hds : ∀ d ∈ ds, d < 16)
    (hs : s.chars = (d :: ds).map digitChar ++ ' '.toUInt8 :: rest) :
    ∃ s' ds', hexPrefix e s = (true, s') ∧ s'.stored = s.stored ∧ (∀ d ∈ ds', d < 16) ∧
      s'.chars = ds'.map digitChar ++ ' '.toUInt8 :: rest ∧
      numeralValue 16 ds' = numeralValue 16 (d :: ds) := by
  have hchars := hs
  rw [Scan.chars, List.map_cons, List.cons_append, List.cons.injEq] at hs
  by_cases hzero : digitChar d = '0'.toUInt8
  · have hinput : s.input ≠ [] := by
      rw [hs.2]
      exact List.append_ne_nil_of_right_ne_nil _ (List.cons_ne_nil _ _)
    obtain ⟨hret, hstored, -, hchars⟩ := readNext_goes (e := e) hinput
    refine ⟨(readNext e s).2, ds, ?_, hstored, hds, hchars.trans hs.2, ?_⟩
    · have hx : (readNext e s).2.readahead ≠ 'x'.toUInt8 := by
        rw [hs.2, Scan.chars] at hchars
        cases ds with
        | nil =>
          rw [(List.cons.inj hchars).1]
          decide
        | cons d' ds =>
          rw [(List.cons.inj hchars).1]
          exact digitChar_ne_x (hds d' List.mem_cons_self)
      rw [hexPrefix, if_pos (hs.1.trans hzero)]
      dsimp only
      rw [if_neg hret, if_neg hx]
    · rw [eq_zero_of_digitChar hd hzero]
      rfl
  · refine ⟨s, d :: ds, ?_, rfl, List.forall_mem_cons.2 ⟨hd, hds⟩, hchars, rfl⟩
    rw [hexPrefix, if_neg (hs.1.symm ▸ hzero)]

/-- `%d` stores a number that is in the input with a space behind it. -/
theorem scanLoop_int (hds : ∀ x ∈ d :: ds, x < 10)
    (hs : s.chars = (d :: ds).map digitChar ++ ' '.toUInt8 :: rest) (n : ℤ) :
    (scanLoop e intFormat.bytes n s).2.stored =
      s.stored ++ [.int (BitVec.ofNat 32 (numeralValue 10 (d :: ds)))] := by
  have hd : d < 10 := hds d List.mem_cons_self
  have hhead : s.readahead = digitChar d := (List.cons.inj hs).1
  obtain ⟨s', hs', hstored⟩ := numberLoop_digits (b := decimal) hds hs 0
  rw [show intFormat.bytes = [percent, 'd'.toUInt8] from rfl, scanLoop_conv (.inr (.inl rfl)),
    skipSpaces_stop (by rw [hhead, isspace_digitChar (by omega)])]
  have hx : 'd'.toUInt8 ≠ 'x'.toUInt8 := by decide
  have hstr : 'd'.toUInt8 ≠ 's'.toUInt8 := by decide
  simp only [if_neg hx, if_neg hstr]
  rw [show (0 : BitVec 32) = BitVec.ofNat 32 0 from rfl, hs']
  simp only [scanLoop, Scan.store, hstored]
  rfl

/-- `%x` does so, too. -/
theorem scanLoop_hex (hds : ∀ x ∈ d :: ds, x < 16)
    (hs : s.chars = (d :: ds).map digitChar ++ ' '.toUInt8 :: rest) (n : ℤ) :
    (scanLoop e hexFormat.bytes n s).2.stored =
      s.stored ++ [.int (BitVec.ofNat 32 (numeralValue 16 (d :: ds)))] := by
  obtain ⟨hd, hrest⟩ := List.forall_mem_cons.1 hds
  have hhead : s.readahead = digitChar d := (List.cons.inj hs).1
  obtain ⟨s₁, ds', hs₁, hstored₁, hds', hchars, hvalue⟩ := hexPrefix_digits (e := e) hd hrest hs
  obtain ⟨s', hs', hstored⟩ := numberLoop_digits (b := hexadecimal) hds' hchars 0
  rw [show hexFormat.bytes = [percent, 'x'.toUInt8] from rfl, scanLoop_conv (.inr (.inr rfl)),
    skipSpaces_stop (by rw [hhead, isspace_digitChar hd])]
  have hstr : 'x'.toUInt8 ≠ 's'.toUInt8 := by decide
  simp only [if_neg hstr, if_true, hs₁]
  rw [show (0 : BitVec 32) = BitVec.ofNat 32 0 from rfl, hs', ← hvalue]
  simp only [scanLoop, Scan.store, hstored, hstored₁]
  rfl

/-- `%d` stores zero in front of a minus sign. -/
theorem scanLoop_minus (hs : s.readahead = minus) (n : ℤ) :
    (scanLoop e intFormat.bytes n s).2.stored = s.stored ++ [.int 0] := by
  have hspace : isspace s.readahead = false := by
    rw [hs]
    decide
  have hdigit : isDigit decimal (s.fold decimal).readahead = false := by
    rw [show (s.fold decimal).readahead = s.readahead from rfl, hs]
    decide
  have hx : 'd'.toUInt8 ≠ 'x'.toUInt8 := by decide
  have hstr : 'd'.toUInt8 ≠ 's'.toUInt8 := by decide
  rw [show intFormat.bytes = [percent, 'd'.toUInt8] from rfl, scanLoop_conv (.inr (.inl rfl)),
    skipSpaces_stop hspace]
  simp only [if_neg hx, if_neg hstr]
  rw [numberLoop, hdigit, if_neg Bool.false_ne_true]
  simp only [scanLoop, Scan.store]
  rfl

end digits

/-! ## Numbers -/

section numbers

variable {format : CString} {val : VaList} {n : BitVec 32} {text : List UInt8}

/-- A format for one number, for which `printf` writes `text`. -/
theorem roundTrips_of {d : Directive} (hds : directives format.bytes 0 = some [d])
    (hd : ∀ i, d ≠ .str i) (htext : ∀ val : VaList, val.int 0 = n → d.shown val = text)
    (hlt : text.length < 2 ^ 64) :
    RoundTrips format n ↔ ∀ (e : Ending) (s : Scanner) (rest : List UInt8),
      s.pending = text ++ ' '.toUInt8 :: rest → (scanf e format s).2.stored = [.int n] := by
  have hprintf : ∀ val : VaList, val.int 0 = n → ∀ (res : ℕ) (m : ℕ → UInt8),
      ∃ p, printf format val (some res) m = .printed p ∧ p.written = text := by
    intro val hval res m
    have hshown : shown val [d] = text := by
      rw [shown_cons, htext val hval]
      exact List.append_nil _
    have hshort : Short val [d] := fun i hi => absurd (List.mem_singleton.1 hi).symm (hd i)
    exact ⟨_, printf_spec hds hshort (hshown ▸ hlt) res m, hshown⟩
  constructor
  · intro h e s rest hs
    have hval : VaList.int ⟨fun _ => n.setWidth 64, fun _ => ⟨[], fun _ h => absurd h List.not_mem_nil⟩⟩
        0 = n := by simp [VaList.int]
    obtain ⟨p, hp, hscan⟩ := h _ hval 0 fun _ => 0
    obtain ⟨p', hp', hwritten⟩ := hprintf _ hval 0 fun _ => 0
    have hpp : p = p' := PrintResult.printed.inj (hp.symm.trans hp')
    exact hscan e s rest (by rw [hpp, hwritten, hs])
  · intro h val hval res m
    obtain ⟨p, hp, hwritten⟩ := hprintf val hval res m
    exact ⟨p, hp, fun e s rest hs => h e s rest (by rw [hs, hwritten])⟩

/-- A text of digits. -/
theorem exists_digits {b : ℕ} (hb : 1 < b) (width k : ℕ) :
    ∃ d ds, numeral b width k = d :: ds ∧ ∀ x ∈ d :: ds, x < b := by
  have hlt : ∀ x ∈ numeral b width k, x < b := fun x hx => lt_of_mem_numeral hb hx
  cases hnum : numeral b width k with
  | nil =>
    have hlen := length_numeral b width k
    rw [hnum, List.length_nil] at hlen
    omega
  | cons d ds => exact ⟨d, ds, rfl, hnum ▸ hlt⟩

theorem ofNat_toLong (n : BitVec 32) : BitVec.ofNat 32 (toLong n).toNat = n := by
  have hint : (toLong n).toInt = n.toInt := BitVec.toInt_signExtend_of_le (by decide)
  have hn := BitVec.toInt_eq_toNat_cond n
  have hl := BitVec.toInt_eq_toNat_cond (toLong n)
  have hlt := n.isLt
  refine BitVec.eq_of_toNat_eq ?_
  rw [BitVec.toNat_ofNat]
  split at hn <;> split at hl <;> omega

theorem ofNat_natAbs {n : BitVec 32} (hn : 0 ≤ n.toInt) : BitVec.ofNat 32 n.toInt.natAbs = n := by
  have hcond := BitVec.toInt_eq_toNat_cond n
  have hlt := n.isLt
  refine BitVec.eq_of_toNat_eq ?_
  rw [BitVec.toNat_ofNat]
  split at hcond <;> omega

theorem roundTrips_hex (n : BitVec 32) : RoundTrips hexFormat n := by
  have hlt : (hexText (toLong n).toNat).length < 2 ^ 64 := by
    have hdigits : (Nat.digits 16 (toLong n).toNat).length ≤ 64 :=
      length_digits_le (by decide) ((toLong n).isLt.trans_le (by decide))
    rw [length_hexText]
    omega
  refine (roundTrips_of (d := .hex 0) rfl (fun _ => nofun)
    (fun val hval => congrArg (fun n => hexText (toLong n).toNat) hval) hlt).2 fun e s rest hs => ?_
  obtain ⟨d, ds, hnum, hds⟩ := exists_digits (b := 16) (by decide) 0 (toLong n).toNat
  rw [hexText, hnum] at hs
  rw [scanf_cons hs, scanLoop_hex hds rfl, ← hnum, numeralValue_numeral, ofNat_toLong]
  rfl

theorem roundTrips_int (n : BitVec 32) : RoundTrips intFormat n ↔ 0 ≤ n.toInt := by
  have hlt : (intText n.toInt).length < 2 ^ 64 := by
    rw [← numberText_int, length_numberText]
    have hdigits := length_digits_absValue (toLong n) decimal true
    split <;> omega
  refine (roundTrips_of (d := .int 0) rfl (fun _ => nofun)
    (fun val hval => congrArg (fun n : BitVec 32 => intText n.toInt) hval) hlt).trans ⟨?_, ?_⟩
  · intro h
    by_contra hneg
    have hs : Scanner.pending ⟨0, intText n.toInt ++ ' '.toUInt8 :: []⟩ =
        minus :: ((numeral 10 0 n.toInt.natAbs).map digitChar ++ [' '.toUInt8]) := by
      rw [intText, if_pos (not_le.1 hneg)]
      rfl
    have hstored := h ⟨0, none, le_rfl⟩ ⟨0, intText n.toInt ++ ' '.toUInt8 :: []⟩ [] rfl
    rw [scanf_cons hs, scanLoop_minus rfl] at hstored
    cases hstored
    exact hneg (by decide)
  · intro hn e s rest hs
    obtain ⟨d, ds, hnum, hds⟩ := exists_digits (b := 10) (by decide) 0 n.toInt.natAbs
    rw [intText, if_neg (not_lt.2 hn), List.nil_append, hnum] at hs
    rw [scanf_cons hs, scanLoop_int hds rfl, ← hnum, numeralValue_numeral, ofNat_natAbs hn]
    rfl

end numbers

/-- With `%d`, the numbers that are not negative come back, and with `%x` all numbers. -/
theorem roundTrips_iff (n : BitVec 32) :
    (RoundTrips intFormat n ↔ 0 ≤ n.toInt) ∧ RoundTrips hexFormat n :=
  ⟨roundTrips_int n, roundTrips_hex n⟩

/-- The number `-1` is read as zero. -/
theorem minus_one_lost : ¬∀ n : BitVec 32, RoundTrips intFormat n ∧ RoundTrips hexFormat n := by
  intro h
  have hneg := (roundTrips_int (-1)).1 (h (-1)).1
  revert hneg
  decide

end SadOS.Libc
