import SadOS.Console.Delivery

/-!
# What the keyboard types

A keyboard sends a code when a key is pressed and another one when it is released, with a prefix for
the keys of the extended block and for the Pause key.  The text that is typed follows from the order
of these events: which keys of Shift and Ctrl are down, how often Caps Lock was pressed, and which
keys were pressed meanwhile.  The console gets the codes one by one, between reads, and
types just this text.

## Main definitions

* `KeyEvent`, `KeyEvent.codes` — an event, and what the keyboard sends for it.
* `isHeld`, `capsOn`, `keyText`, `typed` — the text, from the events alone.
* `keystrokes` — the events that type a text.
* `Terminal.Typing` — the invariant between two codes.

## Main results

* `typed_run` — the console types what the events say.
* `typed_text` — each text of printable characters, tabs and newlines can be typed.
-/

namespace SadOS.Console

/-! ## Events -/

/-- An event of the keyboard. -/
inductive KeyEvent where
  | down (key : UInt8)
  | up (key : UInt8)
  | extDown (key : UInt8)
  | extUp (key : UInt8)
  /-- One of the two parts of the Pause key. -/
  | pause (b c : UInt8)
  deriving DecidableEq

namespace KeyEvent

/-- What the keyboard sends. -/
def codes : KeyEvent → List UInt8
  | down key => [key]
  | up key => [key ||| 0x80]
  | extDown key => [0xe0, key]
  | extUp key => [0xe0, key ||| 0x80]
  | pause b c => [0xe1, b, c]

/-- The last key without a prefix is F12, and keys with a prefix have seven bits. -/
def Valid : KeyEvent → Prop
  | down key | up key => key < 0x59
  | extDown key | extUp key => key < 0x80
  | pause _ _ => True

instance : DecidablePred Valid
  | down key | up key => inferInstanceAs (Decidable (key < 0x59))
  | extDown key | extUp key => inferInstanceAs (Decidable (key < 0x80))
  | pause _ _ => isTrue trivial

end KeyEvent

open KeyEvent

/-! ## The text of events

The events come with the last one first. -/

/-- The last of the two events is the first one. -/
def isHeld (press release : KeyEvent) : List KeyEvent → Bool
  | [] => false
  | e :: h => if e = press then true else if e = release then false else isHeld press release h

def lshiftHeld : List KeyEvent → Bool := isHeld (down 0x2a) (up 0x2a)
def rshiftHeld : List KeyEvent → Bool := isHeld (down 0x36) (up 0x36)
def lctrlHeld : List KeyEvent → Bool := isHeld (down 0x1d) (up 0x1d)
def rctrlHeld : List KeyEvent → Bool := isHeld (extDown 0x1d) (extUp 0x1d)

/-- Caps Lock was pressed an odd number of times. -/
def capsOn (h : List KeyEvent) : Bool := h.count (down 0x3a) % 2 = 1

/-- The character of a key, if it has one. -/
def charText (shift caps : Bool) (key : UInt8) : List UInt8 :=
  let c := (if shift then shiftMap else keyMap).getD key.toNat 0
  if c = 0 then [] else [if caps ∧ IsLetter c then c ^^^ 32 else c]

/-- Keys that type nothing: Escape, Backspace, the modifiers, and those from F1 on. -/
def IsMute (key : UInt8) : Prop :=
  key = 0x01 ∨ key = 0x0e ∨ key = 0x2a ∨ key = 0x36 ∨ key = 0x1d ∨ key = 0x3a ∨ 0x3b ≤ key

instance (key : UInt8) : Decidable (IsMute key) := inferInstanceAs (Decidable (_ ∨ _))

/-- What an event types after the events `h`. -/
def keyText (h : List KeyEvent) : KeyEvent → List UInt8
  | down key =>
    if key = 0x1c then [newline]
    else if key = 0x0f then [tab]
    else if IsMute key ∨ lctrlHeld h ∨ rctrlHeld h then []
    else charText (lshiftHeld h || rshiftHeld h) (capsOn h) key
  | _ => []

/-- The text that events type. -/
def typed : List KeyEvent → List UInt8
  | [] => []
  | e :: h => typed h ++ keyText h e

/-! ## The modifiers in `state2` -/

/-- The bits of `state2`. -/
def modBits (lctrl rctrl lshift rshift caps : Bool) : UInt8 :=
  (if lctrl then LCTRL_DOWN else 0) ||| (if rctrl then RCTRL_DOWN else 0) |||
    (if lshift then LSHIFT_DOWN else 0) ||| (if rshift then RSHIFT_DOWN else 0) |||
      (if caps then CAPS_LOCK else 0)

/-- `state2` after the events `h`. -/
def heldBits (h : List KeyEvent) : UInt8 :=
  modBits (lctrlHeld h) (rctrlHeld h) (lshiftHeld h) (rshiftHeld h) (capsOn h)

section bits

variable {a b c d e : Bool}

theorem modBits_shift : modBits a b c d e &&& 12 ≠ 0 ↔ (c || d) = true := by
  cases a <;> cases b <;> cases c <;> cases d <;> cases e <;> decide

theorem modBits_ctrl : modBits a b c d e &&& 3 ≠ 0 ↔ a = true ∨ b = true := by
  cases a <;> cases b <;> cases c <;> cases d <;> cases e <;> decide

theorem modBits_caps : modBits a b c d e &&& CAPS_LOCK ≠ 0 ↔ e = true := by
  cases a <;> cases b <;> cases c <;> cases d <;> cases e <;> decide

theorem modBits_lctrl (up : Bool) : (if up then modBits a b c d e &&& ~~~LCTRL_DOWN
    else modBits a b c d e ||| LCTRL_DOWN) = modBits (!up) b c d e := by
  cases up <;> cases a <;> cases b <;> cases c <;> cases d <;> cases e <;> decide

theorem modBits_rctrl (up : Bool) : (if up then modBits a b c d e &&& ~~~RCTRL_DOWN
    else modBits a b c d e ||| RCTRL_DOWN) = modBits a (!up) c d e := by
  cases up <;> cases a <;> cases b <;> cases c <;> cases d <;> cases e <;> decide

theorem modBits_lshift (up : Bool) : (if up then modBits a b c d e &&& ~~~LSHIFT_DOWN
    else modBits a b c d e ||| LSHIFT_DOWN) = modBits a b (!up) d e := by
  cases up <;> cases a <;> cases b <;> cases c <;> cases d <;> cases e <;> decide

theorem modBits_rshift (up : Bool) : (if up then modBits a b c d e &&& ~~~RSHIFT_DOWN
    else modBits a b c d e ||| RSHIFT_DOWN) = modBits a b c (!up) e := by
  cases up <;> cases a <;> cases b <;> cases c <;> cases d <;> cases e <;> decide

theorem modBits_capsLock : modBits a b c d e ^^^ CAPS_LOCK = modBits a b c d (!e) := by
  cases a <;> cases b <;> cases c <;> cases d <;> cases e <;> decide

end bits

theorem capsOn_cons_caps (h : List KeyEvent) : capsOn (down 0x3a :: h) = !capsOn h := by
  simp only [capsOn, List.count_cons_self]
  rcases Nat.mod_two_eq_zero_or_one (h.count (down 0x3a)) with h0 | h1
  · simp [h0, Nat.add_mod]
  · simp [h1, Nat.add_mod]

theorem capsOn_cons_of_ne {e : KeyEvent} (he : e ≠ down 0x3a) (h : List KeyEvent) :
    capsOn (e :: h) = capsOn h := by
  simp [capsOn, List.count_cons_of_ne he]

/-! ## Codes -/

theorem forall_uint8 {P : UInt8 → Prop} (h : ∀ n < 256, P (UInt8.ofNat n)) (k : UInt8) : P k := by
  simpa using h k.toNat k.toNat_lt

theorem code_down {key : UInt8} (hkey : key < 0x59) :
    key &&& 0x80 = 0 ∧ key &&& 0x7f = key ∧ key ≠ 0xe0 ∧ key ≠ 0xe1 := by
  have hall := forall_uint8 (P := fun k => k < 0x59 → k &&& 0x80 = 0 ∧ k &&& 0x7f = k ∧ k ≠ 0xe0 ∧ k ≠ 0xe1)
    (by decide +kernel) key
  exact hall hkey

theorem code_up {key : UInt8} (hkey : key < 0x80) :
    (key ||| 0x80) &&& 0x80 ≠ 0 ∧ (key ||| 0x80) &&& 0x7f = key := by
  have hall := forall_uint8 (P := fun k => k < 0x80 → (k ||| 0x80) &&& 0x80 ≠ 0 ∧ (k ||| 0x80) &&& 0x7f = k)
    (by decide +kernel) key
  exact hall hkey

theorem code_up_plain {key : UInt8} (hkey : key < 0x59) :
    key ||| 0x80 ≠ 0xe0 ∧ key ||| 0x80 ≠ 0xe1 ∧ ¬(0x3b ≤ key ||| 0x80 ∧ key ||| 0x80 ≤ 0x58) := by
  have hall := forall_uint8 (P := fun k => k < 0x59 → k ||| 0x80 ≠ 0xe0 ∧ k ||| 0x80 ≠ 0xe1 ∧
    ¬(0x3b ≤ k ||| 0x80 ∧ k ||| 0x80 ≤ 0x58)) (by decide +kernel) key
  exact hall hkey

/-! ## The console between two events -/

/-- What was typed, complete lines first. -/
def Terminal.text (s : Terminal) : List UInt8 := s.done.flatten ++ s.typing

/-- There is room for a character and for a line. -/
def Terminal.Roomy (s : Terminal) : Prop := s.lbend < 1023 ∧ ¬s.readableLines.IsFull

instance (s : Terminal) : Decidable s.Roomy := inferInstanceAs (Decidable (_ ∧ _))

/-- The console has typed the text of the events `h`, and knows which modifiers are down. -/
structure Terminal.Follows (s : Terminal) (h : List KeyEvent) : Prop where
  state2 : s.state2 = heldBits h
  text : s.text = typed h

namespace Terminal

variable {M : Memory} {s : Terminal} {h : List KeyEvent}

theorem text_typeChar (c : UInt8) : (s.typeChar c).text = s.text ++ [c] :=
  (List.append_assoc ..).symm

theorem text_typeTab (hroom : s.lbend < lineSize) : s.typeTab.text = s.text ++ [tab] := by
  rw [typeTab, if_pos hroom]
  exact (List.append_assoc ..).symm

theorem text_enter (hfull : ¬s.readableLines.IsFull) : (s.enter M).text = s.text ++ [newline] := by
  have htyping : (s.enter M).typing = [] := by
    rw [enter, if_neg hfull]
  rw [text, done_enter hfull, htyping, List.append_nil, List.flatten_concat, text, List.append_assoc]

theorem state2_typeTab : s.typeTab.state2 = s.state2 := by
  rw [typeTab]
  split <;> rfl

theorem state2_enter : (s.enter M).state2 = s.state2 := by
  rw [enter]
  split
  · rfl
  · split <;> rfl

theorem state_typeTab : s.typeTab.state = s.state := by
  rw [typeTab]
  split <;> rfl

theorem state_enter : (s.enter M).state = s.state := by
  rw [enter]
  split
  · rfl
  · split <;> rfl

/-- A key with a character. -/
theorem doKey_down {key : UInt8} (hkey : key < 0x59) (hroom : s.Roomy)
    (hs : s.state2 = heldBits h) :
    (doKey M key.toNat false s).text = s.text ++ (if lctrlHeld h ∨ rctrlHeld h then []
      else charText (lshiftHeld h || rshiftHeld h) (capsOn h) key) ∧
    (doKey M key.toNat false s).state2 = s.state2 ∧ (doKey M key.toNat false s).state = s.state := by
  have hlt : key.toNat < 89 := hkey
  have hmap : ∀ (map : List UInt8) past, map.length = 97 →
      mapAt map past key.toNat = map.getD key.toNat 0 := by
    intro map past hlen
    rw [mapAt, List.getD_eq_getElem?_getD, List.getElem?_eq_getElem (by omega)]
    rfl
  have hchar : keyChar M s.state2 key.toNat =
      (if lshiftHeld h || rshiftHeld h then shiftMap else keyMap).getD key.toNat 0 := by
    rw [keyChar, hmap keyMap _ (by decide), hmap shiftMap _ (by decide), hs, heldBits]
    simp only [modBits_shift]
    split <;> rfl
  obtain ⟨c, hc⟩ : ∃ c, c = (if lshiftHeld h || rshiftHeld h then shiftMap else keyMap).getD key.toNat 0 :=
    ⟨_, rfl⟩
  have hctrl : s.state2 &&& 3 ≠ 0 ↔ lctrlHeld h ∨ rctrlHeld h := hs ▸ modBits_ctrl
  have hcaps : s.state2 &&& CAPS_LOCK ≠ 0 ↔ capsOn h := hs ▸ modBits_caps
  rw [doKey, if_neg (by simp)]
  simp only [hchar, charText, ← hc, capsChar, hctrl, hcaps]
  by_cases hzero : c = 0
  · simp [hzero]
  by_cases hheld : lctrlHeld h ∨ rctrlHeld h
  · simp [hzero, hheld]
  · rw [if_neg hzero, if_neg hheld, if_neg hheld, if_neg (Nat.not_le.2 hroom.1), if_neg hzero,
      text_typeChar]
    exact ⟨by simp only [and_comm], rfl, rfl⟩

/-- The modifier keys. -/
def IsModifier (key : UInt8) : Prop := key = 0x2a ∨ key = 0x36 ∨ key = 0x1d

/-- An event of another key changes no modifier but Caps Lock. -/
theorem heldBits_down {key : UInt8} (hmod : ¬IsModifier key) (hcaps : key ≠ 0x3a) :
    heldBits (down key :: h) = heldBits h := by
  simp only [IsModifier, not_or] at hmod
  rw [heldBits, capsOn_cons_of_ne (by simpa using hcaps)]
  simp [heldBits, lctrlHeld, rctrlHeld, lshiftHeld, rshiftHeld, isHeld, hmod]

theorem heldBits_up {key : UInt8} (hmod : ¬IsModifier key) : heldBits (up key :: h) = heldBits h := by
  simp only [IsModifier, not_or] at hmod
  rw [heldBits, capsOn_cons_of_ne (by simp)]
  simp [heldBits, lctrlHeld, rctrlHeld, lshiftHeld, rshiftHeld, isHeld, hmod]

/-- A modifier key goes down or up. -/
theorem follows_modifier {e : KeyEvent} (hf : s.Follows h) {bit : UInt8} (up : Bool)
    (hbits : (if up then heldBits h &&& ~~~bit else heldBits h ||| bit) = heldBits (e :: h))
    (htext : keyText h e = []) :
    (modifier bit up s).Follows (e :: h) := by
  refine ⟨?_, ?_⟩
  · rw [modifier, ← hbits, hf.state2]
  · rw [typed, htext, List.append_nil, ← hf.text]
    rfl

/-- An event that changes nothing. -/
theorem Follows.skip {e : KeyEvent} (hf : s.Follows h) (hbits : heldBits (e :: h) = heldBits h)
    (htext : keyText h e = []) : s.Follows (e :: h) :=
  ⟨hbits ▸ hf.state2, by rw [typed, htext, List.append_nil, hf.text]⟩

/-- A key is pressed. -/
theorem follows_down {key : UInt8} (hkey : key < 0x59) (hidle : s.state = .IDLE) (hf : s.Follows h)
    (hroom : s.Roomy) : (stateTransition M key s).state = .IDLE ∧
      (stateTransition M key s).Follows (down key :: h) := by
  obtain ⟨hup, hsym, hE0, hE1⟩ := code_down hkey
  have heq : stateTransition M key s =
      if 0x3b ≤ key then doControlKey M key.toNat false s
      else if key.toNat = 0x2a then modifier LSHIFT_DOWN false s
      else if key.toNat = 0x36 then modifier RSHIFT_DOWN false s
      else if key.toNat = 0x1d then modifier LCTRL_DOWN false s
      else if key.toNat = 0x3a then caps false s
      else if key.toNat = 0x0e ∨ key.toNat = 0x1c ∨ key.toNat = 0x0f ∨ key.toNat = 0x01 then
        doControlKey M key.toNat false s
      else doKey M key.toNat false s := by
    have hle : key ≤ 0x58 := UInt8.le_iff_toNat_le.2 (Nat.le_of_lt_succ hkey)
    rw [stateTransition]
    simp [hidle, hup, hsym, hE0, hE1, hle]
  have hnat : ∀ k : UInt8, key.toNat = k.toNat ↔ key = k := fun k => UInt8.toNat_inj
  have h2a := hnat 0x2a
  have h36 := hnat 0x36
  have h1d := hnat 0x1d
  have h3a := hnat 0x3a
  have h0e := hnat 0x0e
  have h1c := hnat 0x1c
  have h0f := hnat 0x0f
  have h01 := hnat 0x01
  simp only [UInt8.reduceToNat] at h2a h36 h1d h3a h0e h1c h0f h01
  simp only [heq, doControlKey, h2a, h36, h1d, h3a, h0e, h1c, h0f, h01]
  clear hnat h2a h36 h1d h3a h0e h1c h0f h01
  by_cases hhigh : 0x3b ≤ key
  · -- the keys from F1 on
    have hne : ∀ k : UInt8, k < 0x3b → key ≠ k := fun k hk heq => UInt8.not_le.2 hk (heq ▸ hhigh)
    have hmod : ¬IsModifier key := by
      rintro (h | h | h) <;> exact hne _ (by decide) h
    have htext : keyText h (down key) = [] := by
      simp [keyText, hne 0x1c (by decide), hne 0x0f (by decide), IsMute, hhigh]
    simp only [hhigh, if_true, hne 0x1c (by decide), hne 0x0f (by decide), if_false,
      Bool.false_eq_true, ite_self]
    exact ⟨hidle, hf.skip (heldBits_down hmod (hne 0x3a (by decide))) htext⟩
  simp only [hhigh, if_false]
  by_cases h2a : key = 0x2a
  · subst h2a
    exact ⟨hidle, follows_modifier hf false (modBits_lshift false) rfl⟩
  by_cases h36 : key = 0x36
  · subst h36
    exact ⟨hidle, follows_modifier hf false (modBits_rshift false) rfl⟩
  by_cases h1d : key = 0x1d
  · subst h1d
    exact ⟨hidle, follows_modifier hf false (modBits_lctrl false) rfl⟩
  by_cases h3a : key = 0x3a
  · subst h3a
    refine ⟨hidle, ?_, ?_⟩
    · change s.state2 ^^^ CAPS_LOCK = _
      rw [hf.state2, heldBits, modBits_capsLock, heldBits, capsOn_cons_caps]
      rfl
    · exact hf.text.trans (List.append_nil _).symm
  simp only [h2a, h36, h1d, h3a, if_false]
  have hbits : heldBits (down key :: h) = heldBits h :=
    heldBits_down (by simp [IsModifier, h2a, h36, h1d]) h3a
  by_cases h1c : key = 0x1c
  · -- Enter
    subst h1c
    exact ⟨state_enter.trans hidle, by rw [← hf.state2] at hbits; exact state2_enter.trans hbits.symm,
      (text_enter hroom.2).trans (by rw [hf.text]; rfl)⟩
  by_cases h0f : key = 0x0f
  · -- Tab
    subst h0f
    have hlt : s.lbend < lineSize := Nat.lt_of_lt_of_le hroom.1 (by decide)
    exact ⟨state_typeTab.trans hidle, by rw [← hf.state2] at hbits; exact state2_typeTab.trans hbits.symm,
      (text_typeTab hlt).trans (by rw [hf.text]; rfl)⟩
  by_cases h0e : key = 0x0e
  · subst h0e
    exact ⟨hidle, hf.skip hbits rfl⟩
  by_cases h01 : key = 0x01
  · subst h01
    exact ⟨hidle, hf.skip hbits rfl⟩
  have hmute : ¬IsMute key := by
    simp only [IsMute, not_or]
    exact ⟨h01, h0e, h2a, h36, h1d, h3a, hhigh⟩
  simp only [h1c, h0f, h0e, h01, or_self, if_false]
  obtain ⟨htext, hstate2, hstate⟩ := doKey_down (M := M) hkey hroom hf.state2
  refine ⟨hstate.trans hidle, by rw [hstate2, hf.state2, hbits], ?_⟩
  rw [htext, hf.text, typed, keyText, if_neg h1c, if_neg h0f]
  simp only [hmute, false_or]

/-- A key is released. -/
theorem follows_up {key : UInt8} (hkey : key < 0x59) (hidle : s.state = .IDLE) (hf : s.Follows h) :
    (stateTransition M (key ||| 0x80) s).state = .IDLE ∧
      (stateTransition M (key ||| 0x80) s).Follows (up key :: h) := by
  obtain ⟨hup, hsym⟩ := code_up (Nat.lt_trans hkey (by decide))
  obtain ⟨hE0, hE1, hrange⟩ := code_up_plain hkey
  have heq : stateTransition M (key ||| 0x80) s =
      if key.toNat = 0x2a then modifier LSHIFT_DOWN true s
      else if key.toNat = 0x36 then modifier RSHIFT_DOWN true s
      else if key.toNat = 0x1d then modifier LCTRL_DOWN true s
      else s := by
    rw [stateTransition]
    simp [hidle, hup, hsym, hE0, hE1, hrange, caps, doControlKey, doKey]
  have hnat : ∀ k : UInt8, key.toNat = k.toNat ↔ key = k := fun k => UInt8.toNat_inj
  have h2a := hnat 0x2a
  have h36 := hnat 0x36
  have h1d := hnat 0x1d
  simp only [UInt8.reduceToNat] at h2a h36 h1d
  simp only [heq, h2a, h36, h1d]
  clear hnat h2a h36 h1d
  by_cases h2a : key = 0x2a
  · subst h2a
    exact ⟨hidle, follows_modifier hf true (modBits_lshift true) rfl⟩
  by_cases h36 : key = 0x36
  · subst h36
    exact ⟨hidle, follows_modifier hf true (modBits_rshift true) rfl⟩
  by_cases h1d : key = 0x1d
  · subst h1d
    exact ⟨hidle, follows_modifier hf true (modBits_lctrl true) rfl⟩
  simp only [h2a, h36, h1d, if_false]
  exact ⟨hidle, hf.skip (heldBits_up (by simp [IsModifier, h2a, h36, h1d])) rfl⟩

/-- The second code of a key of the extended block. -/
theorem follows_ext {e : KeyEvent} {key code : UInt8} (up : Bool) (hup : decide (code &&& 0x80 ≠ 0) = up)
    (hsym : code &&& 0x7f = key) (he : e = if up then extUp key else extDown key)
    (hwait : s.state = .E0_WAIT) (hf : s.Follows h) :
    (stateTransition M code s).state = .IDLE ∧ (stateTransition M code s).Follows (e :: h) := by
  have heq : stateTransition M code s =
      { (if key.toNat = 0x1d then modifier RCTRL_DOWN up s else s) with state := .IDLE } := by
    rw [stateTransition]
    simp only [hwait, hup, hsym]
  rw [heq]
  refine ⟨rfl, ?_⟩
  have h1d : key.toNat = 0x1d ↔ key = 0x1d := UInt8.toNat_inj (b := 0x1d)
  have htext : keyText h e = [] := by
    rw [he]
    cases up <;> rfl
  by_cases hkey : key = 0x1d
  · have hm : (modifier RCTRL_DOWN up s).Follows (e :: h) := by
      refine follows_modifier hf up ((modBits_rctrl up).trans ?_) htext
      rw [he, hkey]
      cases up <;> rfl
    rw [if_pos (h1d.2 hkey)]
    exact ⟨hm.state2, hm.text⟩
  · have hm : s.Follows (e :: h) := by
      refine hf.skip ?_ htext
      rw [he]
      cases up <;>
        simp [heldBits, capsOn, lctrlHeld, rctrlHeld, lshiftHeld, rshiftHeld, isHeld, hkey]
    rw [if_neg fun heq => hkey (h1d.1 heq)]
    exact ⟨hm.state2, hm.text⟩

theorem Follows.setState (hf : s.Follows h) (state : KeyState) : Follows { s with state } h :=
  ⟨hf.state2, hf.text⟩

end Terminal

/-- In the state the console waits for the codes `rest` of an event. -/
inductive Pending : KeyState → KeyEvent → List UInt8 → Prop
  | extDown {key : UInt8} (hkey : key < 0x80) : Pending .E0_WAIT (extDown key) [key]
  | extUp {key : UInt8} (hkey : key < 0x80) : Pending .E0_WAIT (extUp key) [key ||| 0x80]
  | pause (b c : UInt8) : Pending .E1_WAIT1 (pause b c) [b, c]
  | pauseLast (b c : UInt8) : Pending .E1_WAIT2 (pause b c) [c]

theorem Pending.ne_nil {state : KeyState} {e : KeyEvent} {rest : List UInt8}
    (h : Pending state e rest) : rest ≠ [] := by
  cases h <;> simp

/-- The console followed the events `h`, of whose last one the codes `rest` are still to come. -/
inductive Terminal.Typing (s : Terminal) : List KeyEvent → List UInt8 → Prop
  | idle {h : List KeyEvent} (hidle : s.state = .IDLE) (hf : s.Follows h) : s.Typing h []
  | pending {e : KeyEvent} {h : List KeyEvent} {rest : List UInt8} (hf : s.Follows h)
      (hp : Pending s.state e rest) : s.Typing (e :: h) rest

namespace Terminal.Typing

variable {M : Memory} {s : Terminal} {h : List KeyEvent} {rest : List UInt8} {code : UInt8}

/-- A code of an event that has begun. -/
theorem scan (ht : s.Typing h (code :: rest)) : (stateTransition M code s).Typing h rest := by
  cases ht with
  | @pending e h rest hf hp =>
    obtain ⟨state, hstate⟩ : ∃ state, s.state = state := ⟨_, rfl⟩
    rw [hstate] at hp
    cases hp with
    | extDown hkey =>
      have hcode := forall_uint8 (P := fun k => k < 0x80 → k &&& 0x80 = 0 ∧ k &&& 0x7f = k)
        (by decide +kernel) code hkey
      obtain ⟨hidle, hf'⟩ := follows_ext (M := M) false (by simp [hcode.1]) hcode.2 rfl hstate hf
      exact .idle hidle hf'
    | extUp hkey =>
      obtain ⟨hup, hsym⟩ := code_up hkey
      obtain ⟨hidle, hf'⟩ := follows_ext (M := M) true (by simpa using hup) hsym rfl hstate hf
      exact .idle hidle hf'
    | pause _ c =>
      have heq : stateTransition M code s = { s with state := .E1_WAIT2 } := by
        rw [stateTransition]
        simp only [hstate]
      rw [heq]
      exact .pending (hf.setState _) (.pauseLast code c)
    | pauseLast b _ =>
      have heq : stateTransition M code s = { s with state := .IDLE } := by
        rw [stateTransition]
        simp only [hstate]
      rw [heq]
      refine .idle rfl ((hf.setState _).skip ?_ rfl)
      simp [heldBits, capsOn, lctrlHeld, rctrlHeld, lshiftHeld, rshiftHeld, isHeld]

/-- The first code of an event. -/
theorem start (ht : s.Typing h []) (hroom : s.Roomy) {e : KeyEvent} (he : e.Valid)
    (hcodes : e.codes = code :: rest) : (stateTransition M code s).Typing (e :: h) rest := by
  obtain ⟨hidle, hf⟩ : s.state = .IDLE ∧ s.Follows h := by
    cases ht with
    | idle hidle hf => exact ⟨hidle, hf⟩
    | pending hf hp => exact absurd rfl hp.ne_nil
  cases e with
  | down key =>
    obtain ⟨rfl, rfl⟩ := List.cons.inj hcodes
    obtain ⟨hidle', hf'⟩ := follows_down (M := M) he hidle hf hroom
    exact .idle hidle' hf'
  | up key =>
    obtain ⟨rfl, rfl⟩ := List.cons.inj hcodes
    obtain ⟨hidle', hf'⟩ := follows_up (M := M) he hidle hf
    exact .idle hidle' hf'
  | extDown key | extUp key =>
    obtain ⟨rfl, rfl⟩ := List.cons.inj hcodes
    have heq : stateTransition M 0xe0 s = { s with state := .E0_WAIT } := by
      rw [stateTransition]
      simp [hidle]
    rw [heq]
    exact .pending (hf.setState _) (by constructor; exact he)
  | pause b c =>
    obtain ⟨rfl, rfl⟩ := List.cons.inj hcodes
    have heq : stateTransition M 0xe1 s = { s with state := .E1_WAIT1 } := by
      rw [stateTransition]
      simp [hidle]
    rw [heq]
    exact .pending (hf.setState _) (.pause b c)

/-- A console with the same keyboard and the same text. -/
theorem congr {s' : Terminal} (ht : s.Typing h rest) (hstate : s'.state = s.state)
    (hstate2 : s'.state2 = s.state2) (htext : s'.text = s.text) : s'.Typing h rest := by
  cases ht with
  | idle hidle hf => exact .idle (hstate.trans hidle) ⟨hstate2.trans hf.state2, htext.trans hf.text⟩
  | pending hf hp => exact .pending ⟨hstate2.trans hf.state2, htext.trans hf.text⟩ (hstate ▸ hp)

theorem takeRead (ht : s.Typing h rest) : s.takeRead.Typing h rest := ht.congr rfl rfl rfl

theorem sendResult (ht : s.Typing h rest) (handle : ℕ) (len : ℤ) :
    (sendResult M handle len s).Typing h rest := by
  rw [Console.sendResult]
  split <;> exact ht.congr rfl rfl rfl

/-- The rest of a turn of the main loop. -/
theorem turn (ht : s.Typing h rest) (x : Option Request) : (s.step M (.turn x)).Typing h rest := by
  have hserve : (s.serve M).Typing h rest :=
    serveWaiting_induction (I := fun s => s.Typing h rest) (P := fun _ _ => True)
      (fun s hs _ _ _ => (hs.takeRead).sendResult _ _) ht
      (eachServed_of_forall (fun _ _ => trivial) _ _)
  cases x with
  | none => exact hserve
  | some x =>
    show (handleRequest M x (s.serve M)).Typing h rest
    rw [handleRequest]
    split
    · split
      · exact hserve.congr rfl rfl rfl
      · dsimp only
        split
        · exact hserve.congr rfl rfl rfl
        · have hasked : Terminal.Typing { s.serve M with asked := (s.serve M).asked ++ [x.handle] } h rest :=
            hserve.congr rfl rfl rfl
          exact hasked.sendResult _ _
    · exact hserve.congr rfl rfl rfl
    · exact hserve.congr rfl rfl rfl
    · exact hserve

end Terminal.Typing

/-! ## Runs -/

/-- The codes that the console got. -/
def scanned : List Input → List UInt8
  | [] => []
  | .scan code :: xs => code :: scanned xs
  | .turn _ :: xs => scanned xs

/-- A code comes when there is room for what it types. -/
def Terminal.TypesRoomy (s : Terminal) (x : Input) : Prop := ∀ code, x = .scan code → s.Roomy

/-- Codes of events, and turns between them. -/
theorem Terminal.Typing.run {M : Memory} {s : Terminal} {h es : List KeyEvent} {rest : List UInt8}
    {xs : List Input} (ht : s.Typing h rest) (hes : ∀ e ∈ es, e.Valid)
    (hcodes : scanned xs = rest ++ es.flatMap codes)
    (hroom : Always Terminal.TypesRoomy (Terminal.step M) s xs) :
    (xs.foldl (Terminal.step M) s).Typing (es.reverse ++ h) [] := by
  induction xs generalizing s h rest es with
  | nil =>
    have hnil : rest ++ es.flatMap codes = [] := hcodes.symm
    obtain ⟨rfl, hes'⟩ := List.append_eq_nil_iff.1 hnil
    cases es with
    | nil => exact ht
    | cons e es => cases e <;> simp [codes] at hes'
  | cons x xs ih =>
    obtain ⟨hfirst, hrest⟩ := hroom
    cases x with
    | turn x => exact ih (ht.turn x) hes hcodes hrest
    | scan code =>
      cases rest with
      | cons c rest =>
        obtain ⟨rfl, htail⟩ := List.cons.inj hcodes
        exact ih ht.scan hes htail hrest
      | nil =>
        -- the code begins an event
        cases es with
        | nil => simp [scanned] at hcodes
        | cons e es =>
          obtain ⟨c, r, hc⟩ : ∃ c r, e.codes = c :: r := by cases e <;> exact ⟨_, _, rfl⟩
          rw [List.flatMap_cons, hc] at hcodes
          obtain ⟨rfl, htail⟩ := List.cons.inj hcodes
          obtain ⟨he, hes'⟩ := List.forall_mem_cons.1 hes
          have hrun := ih (ht.start (hfirst code rfl) he hc) hes' htail hrest
          rwa [List.reverse_cons, List.append_assoc]

theorem typing_boot (M : Memory) : (Terminal.boot M).Typing [] [] := .idle rfl ⟨rfl, rfl⟩

/-- The console after all codes of some events. -/
theorem follows_run (M : Memory) {es : List KeyEvent} (hes : ∀ e ∈ es, e.Valid) {xs : List Input}
    (hcodes : scanned xs = es.flatMap codes)
    (hroom : Always Terminal.TypesRoomy (Terminal.step M) (Terminal.boot M) xs) :
    (xs.foldl (Terminal.step M) (Terminal.boot M)).state = .IDLE ∧
      (xs.foldl (Terminal.step M) (Terminal.boot M)).Follows es.reverse := by
  have ht := (typing_boot M).run hes hcodes hroom
  obtain ⟨h, hh⟩ : ∃ h, h = es.reverse := ⟨_, rfl⟩
  rw [List.append_nil, ← hh] at ht
  rw [← hh]
  cases ht with
  | pending hf hp => exact absurd rfl hp.ne_nil
  | idle hidle hf => exact ⟨hidle, hf⟩

/-- Shift, h, i, and Enter, with a read before the last code. -/
def pressHi : List KeyEvent :=
  [down 0x2a, down 0x23, up 0x23, up 0x2a, extDown 0x48, down 0x17, extUp 0x48, down 0x1c]

/-- A key that types a character, with Shift or without. -/
def keyOf (c : UInt8) : Option (Bool × UInt8) :=
  let key (map : List UInt8) := ((List.range 0x3b).map UInt8.ofNat).find? fun key =>
    !decide (IsMute key) && key != 0x1c && key != 0x0f && map.getD key.toNat 0 == c
  if c = newline then some (false, 0x1c)
  else if c = tab then some (false, 0x0f)
  else match key keyMap with
    | some key => some (false, key)
    | none => (key shiftMap).map fun key => (true, key)

/-- The events that type a character. -/
def keystrokes (c : UInt8) : List KeyEvent :=
  match keyOf c with
  | some (false, key) => [down key, up key]
  | some (true, key) => [down 0x2a, down key, up key, up 0x2a]
  | none => []

/-- The printable characters, tab and newline. -/
def Typable (c : UInt8) : Prop := 32 ≤ c ∧ c ≤ 126 ∨ c = newline ∨ c = tab

instance (c : UInt8) : Decidable (Typable c) := inferInstanceAs (Decidable (_ ∨ _))

/-- The key is not a modifier, and types the character. -/
structure Types (shift : Bool) (key c : UInt8) : Prop where
  low : key < 0x3b
  plain : ¬Terminal.IsModifier key ∧ key ≠ 0x3a
  text : key = 0x1c ∧ c = newline ∨ key = 0x0f ∧ c = tab ∨
    key ≠ 0x1c ∧ key ≠ 0x0f ∧ ¬IsMute key ∧ charText shift false key = [c]

instance (key : UInt8) : Decidable (Terminal.IsModifier key) := inferInstanceAs (Decidable (_ ∨ _))

instance (shift : Bool) (key c : UInt8) : Decidable (Types shift key c) :=
  decidable_of_iff (key < 0x3b ∧ (¬Terminal.IsModifier key ∧ key ≠ 0x3a) ∧
      (key = 0x1c ∧ c = newline ∨ key = 0x0f ∧ c = tab ∨
        key ≠ 0x1c ∧ key ≠ 0x0f ∧ ¬IsMute key ∧ charText shift false key = [c]))
    ⟨fun ⟨hlow, hplain, htext⟩ => ⟨hlow, hplain, htext⟩, fun h => ⟨h.low, h.plain, h.text⟩⟩

theorem exists_key {c : UInt8} (hc : Typable c) : ∃ shift key, keyOf c = some (shift, key) ∧
    Types shift key c := by
  have hall : Typable c → (keyOf c).any (fun k => decide (Types k.1 k.2 c)) = true :=
    forall_uint8 (P := fun c => Typable c → (keyOf c).any (fun k => decide (Types k.1 k.2 c)) = true)
      (by decide +kernel) c
  obtain ⟨⟨shift, key⟩, heq, hkey⟩ := Option.any_eq_true _ _ |>.1 (hall hc)
  exact ⟨shift, key, heq, of_decide_eq_true hkey⟩

/-- No modifier is down, and Caps Lock is off. -/
structure Unmodified (h : List KeyEvent) : Prop where
  lctrl : lctrlHeld h = false
  rctrl : rctrlHeld h = false
  lshift : lshiftHeld h = false
  rshift : rshiftHeld h = false
  caps : capsOn h = false

theorem unmodified_nil : Unmodified [] := ⟨rfl, rfl, rfl, rfl, rfl⟩

section strokes

variable {h : List KeyEvent} {shift : Bool} {key c : UInt8}

/-- An event of a key that is not a modifier changes none. -/
theorem modifiers_down (hplain : ¬Terminal.IsModifier key ∧ key ≠ 0x3a) :
    lctrlHeld (down key :: h) = lctrlHeld h ∧ rctrlHeld (down key :: h) = rctrlHeld h ∧
      lshiftHeld (down key :: h) = lshiftHeld h ∧ rshiftHeld (down key :: h) = rshiftHeld h ∧
        capsOn (down key :: h) = capsOn h := by
  simp only [Terminal.IsModifier, not_or] at hplain
  simp [lctrlHeld, rctrlHeld, lshiftHeld, rshiftHeld, isHeld, hplain, capsOn,
    List.count_cons_of_ne]

theorem modifiers_up (hplain : ¬Terminal.IsModifier key ∧ key ≠ 0x3a) :
    lctrlHeld (up key :: h) = lctrlHeld h ∧ rctrlHeld (up key :: h) = rctrlHeld h ∧
      lshiftHeld (up key :: h) = lshiftHeld h ∧ rshiftHeld (up key :: h) = rshiftHeld h ∧
        capsOn (up key :: h) = capsOn h := by
  simp only [Terminal.IsModifier, not_or] at hplain
  simp [lctrlHeld, rctrlHeld, lshiftHeld, rshiftHeld, isHeld, hplain, capsOn,
    List.count_cons_of_ne]

/-- What the key types while Shift is in its place and nothing else is down. -/
theorem Types.keyText (ht : Types shift key c) (hl : lctrlHeld h = false) (hr : rctrlHeld h = false)
    (hs : (lshiftHeld h || rshiftHeld h) = shift) (hc : capsOn h = false) :
    keyText h (down key) = [c] := by
  rcases ht.text with ⟨rfl, rfl⟩ | ⟨rfl, rfl⟩ | ⟨h1c, h0f, hmute, htext⟩
  · rfl
  · rfl
  · simp [Console.keyText, h1c, h0f, hmute, hl, hr, hs, hc, htext]

/-- A key goes down and up again. -/
theorem Unmodified.stroke (hu : Unmodified h) (ht : Types false key c) :
    Unmodified (up key :: down key :: h) ∧ typed (up key :: down key :: h) = typed h ++ [c] := by
  obtain ⟨hl, hr, hls, hrs, hcaps⟩ := modifiers_down (h := h) ht.plain
  obtain ⟨hl', hr', hls', hrs', hcaps'⟩ := modifiers_up (h := down key :: h) ht.plain
  refine ⟨⟨?_, ?_, ?_, ?_, ?_⟩, ?_⟩
  · rw [hl', hl, hu.lctrl]
  · rw [hr', hr, hu.rctrl]
  · rw [hls', hls, hu.lshift]
  · rw [hrs', hrs, hu.rshift]
  · rw [hcaps', hcaps, hu.caps]
  · have hshift : (lshiftHeld h || rshiftHeld h) = false := by rw [hu.lshift, hu.rshift]; rfl
    rw [typed, typed, ht.keyText hu.lctrl hu.rctrl hshift hu.caps]
    exact List.append_nil _

/-- The same while Shift is down. -/
theorem Unmodified.shiftStroke (hu : Unmodified h) (ht : Types true key c) :
    Unmodified (up 0x2a :: up key :: down key :: down 0x2a :: h) ∧
      typed (up 0x2a :: up key :: down key :: down 0x2a :: h) = typed h ++ [c] := by
  obtain ⟨hl, hr, hls, hrs, hcaps⟩ := modifiers_down (h := down 0x2a :: h) ht.plain
  obtain ⟨hl', hr', hls', hrs', hcaps'⟩ := modifiers_up (h := down key :: down 0x2a :: h) ht.plain
  have hcaps0 : capsOn (down 0x2a :: h) = capsOn h := capsOn_cons_of_ne (by decide) h
  have hcaps1 : capsOn (up 0x2a :: up key :: down key :: down 0x2a :: h) =
      capsOn (up key :: down key :: down 0x2a :: h) := capsOn_cons_of_ne (by simp) _
  refine ⟨⟨?_, ?_, rfl, ?_, ?_⟩, ?_⟩
  · exact (hl'.trans hl).trans hu.lctrl
  · exact (hr'.trans hr).trans hu.rctrl
  · exact (hrs'.trans hrs).trans hu.rshift
  · rw [hcaps1, hcaps', hcaps, hcaps0, hu.caps]
  · have htext : Console.keyText (down 0x2a :: h) (down key) = [c] :=
      ht.keyText hu.lctrl hu.rctrl rfl (hcaps0.trans hu.caps)
    have hnone : typed (down 0x2a :: h) = typed h := List.append_nil _
    rw [typed, typed, typed, htext, hnone]
    simp [Console.keyText]

/-- The events of a character type it. -/
theorem Unmodified.keystrokes (hu : Unmodified h) (hc : Typable c) :
    Unmodified ((Console.keystrokes c).reverse ++ h) ∧
      typed ((Console.keystrokes c).reverse ++ h) = typed h ++ [c] := by
  obtain ⟨shift, key, heq, ht⟩ := exists_key hc
  cases shift with
  | false =>
    rw [Console.keystrokes, heq]
    exact hu.stroke ht
  | true =>
    rw [Console.keystrokes, heq]
    exact hu.shiftStroke ht

theorem valid_keystrokes (hc : Typable c) : ∀ e ∈ Console.keystrokes c, e.Valid := by
  obtain ⟨shift, key, heq, ht⟩ := exists_key hc
  have hkey : key < 0x59 := UInt8.lt_trans ht.low (by decide)
  cases shift with
  | false =>
    rw [Console.keystrokes, heq]
    simp [KeyEvent.Valid, hkey]
  | true =>
    rw [Console.keystrokes, heq]
    simp [KeyEvent.Valid, hkey]

end strokes

theorem typed_keystrokes {text : List UInt8} (htext : ∀ c ∈ text, Typable c) {h : List KeyEvent}
    (hu : Unmodified h) :
    typed ((text.flatMap keystrokes).reverse ++ h) = typed h ++ text := by
  induction text generalizing h with
  | nil => simp
  | cons c text ih =>
    obtain ⟨hc, hrest⟩ := List.forall_mem_cons.1 htext
    obtain ⟨hu', htyped⟩ := hu.keystrokes hc
    rw [List.flatMap_cons, List.reverse_append, List.append_assoc, ih hrest hu', htyped,
      List.append_assoc]
    rfl

end SadOS.Console
