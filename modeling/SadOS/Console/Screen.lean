import Mathlib.Data.List.Induction
import Mathlib.Tactic.Ring
import SadOS.Lib.Packed
import SadOS.Libc.Exec

/-!
# The text screen

`set_cursor`, `blit`, `line_feed` and `vga_puts` of `bin/console/main.c`, which
`sys/drivers/vga_text.c` has as well.  The screen has 25 rows of 80 cells, of two bytes each.
What is printed goes to the screen and to a ring; when the last row is full, the screen is
drawn again from the ring.

## Main definitions

* `Vga` — the positions, the ring, the cursor and the memory, with the addresses that were
  written.
* `vgaPuts` — the source.
* `wrap` — a text in lines of at most 80 characters.
* `Vga.Shows` — the screen shows the last lines of a text.
* `Vga.Holds` — the screen has a text from its begin on.

## Main results

* `Vga.Tracks.putChar` — what a character does, also when the screen is drawn again.
* `screen_iff` — when the screen shows the text.
-/

namespace SadOS.Console

open Libc (CString)

/-! ## The source -/

def R : ℕ := 25
def C : ℕ := 80

/-- `sizeof(buffer)`. -/
def VBUF_SIZE : ℕ := 4096

/-- The second byte of each cell. -/
def color : UInt8 := 0x07

def newline : UInt8 := 10

/-- Memory, and the addresses that were written. -/
structure Video where
  mem : ℕ → UInt8
  written : List ℕ

/-- `*a = b`. -/
def Video.store (w : Video) (a : ℕ) (b : UInt8) : Video where
  mem := Function.update w.mem a b
  written := a :: w.written

/-- The variables of the driver, the cursor registers and the screen. -/
structure Vga where
  posX : ℕ
  posY : ℕ
  vbase : ℕ
  voff : ℕ
  buffer : ℕ → UInt8
  offset : ℕ
  cursor : ℕ
  video : Video

/-- `set_cursor`: the low byte and the high byte of the position. -/
def Vga.setCursor (v : Vga) : Vga :=
  let pos := (v.posX * C + v.posY) % 2 ^ 16
  { v with cursor := pos % 256 + 256 * (pos / 256 % 256) }

/-- `buffer[offset] = b; offset = (offset+1)%VBUF_SIZE`. -/
def Vga.record (v : Vga) (b : UInt8) : Vga :=
  { v with buffer := Function.update v.buffer v.offset b, offset := (v.offset + 1) % VBUF_SIZE }

/-- `*(voff++) = b`. -/
def Vga.emit (v : Vga) (b : UInt8) : Vga :=
  { v with voff := v.voff + 1, video := v.video.store v.voff b }

/-- A cell in the ring and on the screen, and `pos_y++`. -/
def Vga.putCell (v : Vga) (b : UInt8) : Vga :=
  let v := (v.record b).record color
  let v := (v.emit b).emit color
  { v with posY := v.posY + 1 }

/-- The first loop of `blit`, which ends before it has gone around the ring. -/
def copyRing (buffer : ℕ → UInt8) (offset : ℕ) : ℕ → ℕ → ℕ → Video → ℕ × Video
  | 0, _, p, w => (p, w)
  | n + 1, start, p, w =>
    if start = offset then (p, w)
    else copyRing buffer offset n ((start + 1) % VBUF_SIZE) (p + 1) (w.store p (buffer start))

/-- The second loop of `blit`. -/
def clearRest (vbase : ℕ) : ℕ → ℕ → Video → Video
  | 0, _, w => w
  | n + 1, p, w =>
    if p - vbase ≤ R * C * 2 then clearRest vbase n (p + 2) ((w.store p 0).store (p + 1) color)
    else w

/-- Where `blit` begins in the ring. -/
def Vga.start (v : Vga) : ℤ :=
  let start : ℤ := v.offset - (v.posY + (v.posX - 1) * C) * 2
  if start < 0 then start + VBUF_SIZE else start

/-- `blit`. -/
def Vga.blit (v : Vga) : Vga :=
  let drawn := copyRing v.buffer v.offset VBUF_SIZE v.start.toNat v.vbase v.video
  { v with voff := drawn.1, video := clearRest v.vbase (R * C * 2) drawn.1 drawn.2 }

/-- The loop of `line_feed`, for `n` cells. -/
def clearLine : ℕ → Vga → Vga
  | 0, v => v
  | n + 1, v => clearLine n (v.putCell 0)

/-- `line_feed`. -/
def Vga.lineFeed (v : Vga) : Vga :=
  let v := clearLine (C - v.posY) v
  let v := { v with posX := v.posX + 1, posY := 0 }
  let v := if v.posX ≥ R then { v with posX := R - 1 }.blit else v
  v.setCursor

/-- The loop of `vga_puts` for one character. -/
def Vga.putChar (v : Vga) (c : UInt8) : Vga :=
  if c = newline then v.lineFeed
  else
    let v := v.putCell c
    if v.posY ≥ C then v.lineFeed else v

/-- `vga_puts`: what it returns, and the state. -/
def vgaPuts (str : CString) (v : Vga) : ℕ × Vga :=
  (str.strlen, (str.bytes.foldl Vga.putChar v).setCursor)

/-- Before anything is printed, with the screen at `vbase` and the cursor anywhere. -/
def Vga.boot (vbase cursor : ℕ) (mem : ℕ → UInt8) : Vga :=
  ⟨0, 0, vbase, vbase, fun _ => 0, 0, cursor, ⟨mem, []⟩⟩

/-- Strings that are printed one after the other. -/
def Vga.run (v : Vga) (strs : List CString) : Vga := strs.foldl (fun v str => (vgaPuts str v).2) v

/-! ## Lines -/

/-- The lines that are complete, and the last one. -/
structure Wrapped where
  done : List (List UInt8)
  last : List UInt8

/-- A line ends at a newline, and when it has 80 characters. -/
def Wrapped.add (t : Wrapped) (c : UInt8) : Wrapped :=
  if c = newline then ⟨t.done ++ [t.last], []⟩
  else if t.last.length + 1 < C then ⟨t.done, t.last ++ [c]⟩
  else ⟨t.done ++ [t.last ++ [c]], []⟩

def wrap (text : List UInt8) : Wrapped := text.foldl Wrapped.add ⟨[], []⟩

def Wrapped.lines (t : Wrapped) : List (List UInt8) := t.done ++ [t.last]

/-- The text of some strings. -/
def textOf (strs : List CString) : List UInt8 := strs.flatMap CString.bytes

/-! ## What the screen shows -/

/-- The address of a cell. -/
def cellAt (vbase r c : ℕ) : ℕ := vbase + 2 * (r * C + c)

/-- A cell has a character. -/
def HasCell (mem : ℕ → UInt8) (a : ℕ) (b : UInt8) : Prop := mem a = b ∧ mem (a + 1) = color

/-- The row `r` shows a line.  Behind it the row is blank, but the last line has the cells of the
screen `mem₀` behind it. -/
structure ShowsLine (mem₀ mem : ℕ → UInt8) (vbase r : ℕ) (complete : Prop) (line : List UInt8) :
    Prop where
  text : ∀ c b, (line)[c]? = some b → HasCell mem (cellAt vbase r c) b
  blank : complete → ∀ c, line.length ≤ c → c < C → HasCell mem (cellAt vbase r c) 0
  rest : ¬complete → ∀ a, cellAt vbase r line.length ≤ a → a < cellAt vbase r C → mem a = mem₀ a

/-- The rows `0..pos_x` show the last lines of a text, the next character goes behind it, and no
byte outside of the screen was written. -/
structure Vga.Shows (mem₀ : ℕ → UInt8) (v : Vga) (t : Wrapped) : Prop where
  posX : v.posX < R
  posY : v.posY < C
  voff : v.voff = cellAt v.vbase v.posX v.posY
  rows : ∃ first, t.lines.length = first + (v.posX + 1) ∧ ∀ r ≤ v.posX, ∀ line,
    t.lines[first + r]? = some line → ShowsLine mem₀ v.video.mem v.vbase r (r < v.posX) line
  inside : ∀ a ∈ v.video.written, v.vbase ≤ a ∧ a < v.vbase + R * C * 2

/-- After some strings; with no string the cursor has not been set. -/
structure Vga.Correct (vbase : ℕ) (mem₀ : ℕ → UInt8) (v : Vga) (strs : List CString) : Prop where
  base : v.vbase = vbase
  screen : v.Shows mem₀ (wrap (textOf strs))
  cursor : strs ≠ [] → v.vbase + 2 * v.cursor = v.voff

/-! ## Cells in a row -/

/-- The bytes of a cell. -/
def cell (b : UInt8) : List UInt8 := [b, color]

/-- The cells of a complete line. -/
def pad (line : List UInt8) : List UInt8 := line ++ List.replicate (C - line.length) 0

/-- The characters on the screen, with those that end the lines. -/
def Wrapped.cells (t : Wrapped) : List UInt8 := t.done.flatMap pad ++ t.last

/-- The lines fit on the screen. -/
structure Wrapped.Wf (t : Wrapped) : Prop where
  done : ∀ line ∈ t.done, line.length ≤ C
  last : t.last.length < C

@[simp] theorem length_cell (b : UInt8) : (cell b).length = 2 := rfl

@[simp] theorem length_flatMap_cell (l : List UInt8) : (l.flatMap cell).length = 2 * l.length := by
  simp [List.length_flatMap, Nat.mul_comm]

theorem length_pad {line : List UInt8} (h : line.length ≤ C) : (pad line).length = C := by
  simp [pad, h]

/-- An element of lists of one length that follow each other. -/
theorem getElem?_flatMap_of_length {α β : Type} {f : α → List β} {n : ℕ} {l : List α}
    (h : ∀ a ∈ l, (f a).length = n) {i k : ℕ} (hk : k < n) {a : α} (ha : l[i]? = some a) :
    (l.flatMap f)[i * n + k]? = (f a)[k]? := by
  induction l generalizing i with
  | nil => simp at ha
  | cons x l ih =>
    obtain ⟨hx, hl⟩ := List.forall_mem_cons.1 h
    cases i with
    | zero =>
      obtain rfl : x = a := by simpa using ha
      rw [List.flatMap_cons, Nat.zero_mul, Nat.zero_add, List.getElem?_append_left (by omega)]
    | succ i =>
      rw [List.flatMap_cons, Nat.succ_mul, List.getElem?_append_right (by omega), hx,
        show i * n + n + k - n = i * n + k by omega]
      exact ih hl (by simpa using ha)

theorem length_flatMap_of_length {α β : Type} {f : α → List β} {n : ℕ} {l : List α}
    (h : ∀ a ∈ l, (f a).length = n) : (l.flatMap f).length = l.length * n := by
  induction l with
  | nil => simp
  | cons x l ih =>
    obtain ⟨hx, hl⟩ := List.forall_mem_cons.1 h
    rw [List.flatMap_cons, List.length_append, hx, ih hl, List.length_cons, Nat.succ_mul,
      Nat.add_comm]

namespace Wrapped

variable {t : Wrapped} {c : UInt8}

theorem Wf.length_pad (h : t.Wf) : ∀ line ∈ t.done, (pad line).length = C :=
  fun line hline => Console.length_pad (h.done line hline)

theorem Wf.length_cells (h : t.Wf) : t.cells.length = t.done.length * C + t.last.length := by
  rw [cells, List.length_append, length_flatMap_of_length h.length_pad]

/-- The cells of a complete line. -/
theorem Wf.cells_done (h : t.Wf) {r k : ℕ} {line : List UInt8} (hline : t.done[r]? = some line)
    (hk : k < C) : t.cells[r * C + k]? = (pad line)[k]? := by
  have hlen := length_flatMap_of_length h.length_pad
  have hr : r < t.done.length := (List.getElem?_eq_some_iff.1 hline).1
  have hle : (r + 1) * C ≤ t.done.length * C := Nat.mul_le_mul_right C hr
  rw [Nat.succ_mul] at hle
  rw [cells, List.getElem?_append_left (by omega), getElem?_flatMap_of_length h.length_pad hk hline]

/-- The cells of the last line. -/
theorem Wf.cells_last (h : t.Wf) (k : ℕ) : t.cells[t.done.length * C + k]? = t.last[k]? := by
  have hlen := length_flatMap_of_length h.length_pad
  rw [cells, List.getElem?_append_right (by omega), hlen, Nat.add_sub_cancel_left]

theorem add_newline : t.add newline = ⟨t.done ++ [t.last], []⟩ := by simp [add]

theorem add_short (hc : c ≠ newline) (h : t.last.length + 1 < C) :
    t.add c = ⟨t.done, t.last ++ [c]⟩ := by simp [add, hc, h]

theorem add_full (hc : c ≠ newline) (h : C ≤ t.last.length + 1) :
    t.add c = ⟨t.done ++ [t.last ++ [c]], []⟩ := by simp [add, hc, Nat.not_lt.2 h]

theorem Wf.add (h : t.Wf) (c : UInt8) : (t.add c).Wf := by
  have hlast := h.last
  rw [Wrapped.add]
  split
  · refine ⟨fun line hline => ?_, show 0 < C by decide⟩
    rcases List.mem_append.1 hline with hline | hline
    · exact h.done line hline
    · rw [List.mem_singleton.1 hline]
      exact hlast.le
  · split
    · exact ⟨h.done, by simpa⟩
    · refine ⟨fun line hline => ?_, show 0 < C by decide⟩
      rcases List.mem_append.1 hline with hline | hline
      · exact h.done line hline
      · rw [List.mem_singleton.1 hline, List.length_append, List.length_singleton]
        exact hlast

/-- Lines do not get lost. -/
theorem length_done_le_add (t : Wrapped) (c : UInt8) : t.done.length ≤ (t.add c).done.length := by
  rw [add]
  split
  · simp
  · split <;> simp

end Wrapped

/-! ## Printing before the screen is full -/

/-- The screen has the cells `l` from its begin on. -/
structure Vga.Holds (mem₀ : ℕ → UInt8) (v : Vga) (l : List UInt8) : Prop where
  voff : v.voff = v.vbase + 2 * l.length
  offset : v.offset = 2 * l.length % VBUF_SIZE
  mem : v.video.mem = splice mem₀ v.vbase (l.flatMap cell)
  inside : ∀ a ∈ v.video.written, v.vbase ≤ a ∧ a < v.voff

section steps

variable {mem₀ : ℕ → UInt8} {v : Vga} {l : List UInt8} {t : Wrapped}

@[simp] theorem vbase_setCursor (v : Vga) : v.setCursor.vbase = v.vbase := rfl
@[simp] theorem posX_setCursor (v : Vga) : v.setCursor.posX = v.posX := rfl
@[simp] theorem posY_setCursor (v : Vga) : v.setCursor.posY = v.posY := rfl
@[simp] theorem voff_setCursor (v : Vga) : v.setCursor.voff = v.voff := rfl
@[simp] theorem video_setCursor (v : Vga) : v.setCursor.video = v.video := rfl

@[simp] theorem vbase_putCell (v : Vga) (b : UInt8) : (v.putCell b).vbase = v.vbase := rfl
@[simp] theorem posX_putCell (v : Vga) (b : UInt8) : (v.putCell b).posX = v.posX := rfl
@[simp] theorem posY_putCell (v : Vga) (b : UInt8) : (v.putCell b).posY = v.posY + 1 := rfl

@[simp] theorem vbase_clearLine (n : ℕ) (v : Vga) : (clearLine n v).vbase = v.vbase := by
  induction n generalizing v with
  | zero => rfl
  | succ n ih => simp [clearLine, ih]

@[simp] theorem posX_clearLine (n : ℕ) (v : Vga) : (clearLine n v).posX = v.posX := by
  induction n generalizing v with
  | zero => rfl
  | succ n ih => simp [clearLine, ih]

/-- The position in the cursor registers. -/
theorem cursor_setCursor {v : Vga} (h : v.posX * C + v.posY < 2 ^ 16) :
    v.setCursor.cursor = v.posX * C + v.posY := by
  simp only [Vga.setCursor, Nat.mod_eq_of_lt h]
  omega

theorem Vga.Holds.setCursor (h : v.Holds mem₀ l) : v.setCursor.Holds mem₀ l :=
  ⟨h.voff, h.offset, h.mem, h.inside⟩

/-- One more cell. -/
theorem Vga.Holds.putCell (h : v.Holds mem₀ l) (b : UInt8) : (v.putCell b).Holds mem₀ (l ++ [b]) := by
  have hvoff := h.voff
  constructor
  · show v.voff + 1 + 1 = v.vbase + 2 * (l ++ [b]).length
    rw [hvoff, List.length_append, List.length_singleton]
    omega
  · show ((v.offset + 1) % VBUF_SIZE + 1) % VBUF_SIZE = 2 * (l ++ [b]).length % VBUF_SIZE
    rw [h.offset, List.length_append, List.length_singleton, VBUF_SIZE]
    omega
  · show Function.update (Function.update v.video.mem v.voff b) (v.voff + 1) color =
      splice mem₀ v.vbase ((l ++ [b]).flatMap cell)
    have hlen : v.voff = v.vbase + (l.flatMap cell).length := by rw [hvoff, length_flatMap_cell]
    rw [h.mem, List.flatMap_append, List.flatMap_singleton, cell, ← splice_splice, splice_cons,
      splice_singleton, ← hlen]
  · intro a ha
    have hcases : a = v.voff + 1 ∨ a = v.voff ∨ a ∈ v.video.written := by
      simpa [Vga.putCell, Vga.emit, Vga.record, Video.store] using ha
    show v.vbase ≤ a ∧ a < v.voff + 1 + 1
    rcases hcases with rfl | rfl | ha
    · omega
    · omega
    · have hold := h.inside a ha
      omega

theorem Vga.Holds.clearLine (h : v.Holds mem₀ l) (n : ℕ) :
    (clearLine n v).Holds mem₀ (l ++ List.replicate n 0) := by
  induction n generalizing v l with
  | zero => simpa [Console.clearLine] using h
  | succ n ih =>
    rw [Console.clearLine, List.replicate_succ, List.append_cons]
    exact ih (h.putCell 0)

/-- The end of a line, when there is a row below. -/
theorem Vga.Holds.lineFeed (h : v.Holds mem₀ l) (hx : v.posX + 1 < R) :
    v.lineFeed.Holds mem₀ (l ++ List.replicate (C - v.posY) 0) ∧ v.lineFeed.posX = v.posX + 1 ∧
      v.lineFeed.posY = 0 := by
  have hclear := h.clearLine (C - v.posY)
  have hrow : ¬v.posX + 1 ≥ R := by omega
  have heq : v.lineFeed = Vga.setCursor { Console.clearLine (C - v.posY) v with
      posX := v.posX + 1, posY := 0 } := by
    simp only [Vga.lineFeed, posX_clearLine, if_neg hrow]
  rw [heq]
  exact ⟨Vga.Holds.setCursor ⟨hclear.voff, hclear.offset, hclear.mem, hclear.inside⟩, rfl, rfl⟩

/-- The rows of the screen are the lines of a text. -/
structure Vga.Fits (mem₀ : ℕ → UInt8) (v : Vga) (t : Wrapped) : Prop where
  wf : t.Wf
  posX : v.posX = t.done.length
  posY : v.posY = t.last.length
  holds : v.Holds mem₀ t.cells

/-- A character that goes on the screen, or ends a line when there is a row below. -/
theorem Vga.Fits.putChar (h : v.Fits mem₀ t) {c : UInt8} (hroom : (t.add c).done.length < R) :
    (v.putChar c).Fits mem₀ (t.add c) := by
  have hposX := h.posX
  have hposY := h.posY
  by_cases hc : c = newline
  · subst hc
    have hwf := h.wf.add newline
    rw [Wrapped.add_newline] at hroom hwf ⊢
    rw [List.length_append, List.length_singleton] at hroom
    obtain ⟨hholds, hx, hy⟩ := h.holds.lineFeed (by omega)
    refine ⟨hwf, ?_, ?_, ?_⟩
    · simp [Vga.putChar, hx, hposX]
    · simp [Vga.putChar, hy]
    · simpa [Vga.putChar, Wrapped.cells, pad, hposY] using hholds
  · have hput := h.holds.putCell c
    have hwf := h.wf.add c
    by_cases hlt : t.last.length + 1 < C
    · rw [Wrapped.add_short hc hlt] at hwf ⊢
      have heq : v.putChar c = v.putCell c := by
        rw [Vga.putChar, if_neg hc]
        exact if_neg (by rw [posY_putCell]; omega)
      rw [heq]
      refine ⟨hwf, hposX, ?_, ?_⟩
      · simp [hposY]
      · simpa [Wrapped.cells] using hput
    · have hlast := h.wf.last
      rw [Wrapped.add_full hc (by omega)] at hroom hwf ⊢
      rw [List.length_append, List.length_singleton] at hroom
      have heq : v.putChar c = (v.putCell c).lineFeed := by
        rw [Vga.putChar, if_neg hc]
        exact if_pos (by rw [posY_putCell]; omega)
      obtain ⟨hholds, hx, hy⟩ := hput.lineFeed (by rw [posX_putCell]; omega)
      have hlen : t.last.length + 1 = C := by omega
      rw [heq]
      refine ⟨hwf, ?_, ?_, ?_⟩
      · simp [hx, hposX]
      · simp [hy]
      · simpa [Wrapped.cells, pad, hposY, hlen] using hholds

/-! ## Drawing the screen again -/

/-- As far as the ring is not gone around, its bytes fill memory from `p` on. -/
theorem copyRing_fst (b : ℕ → UInt8) {offset start n : ℕ} (hle : start ≤ offset)
    (hoffset : offset < VBUF_SIZE) (hn : offset - start < n) (p : ℕ) (w : Video) :
    (copyRing b offset n start p w).1 = p + (offset - start) := by
  induction n generalizing start p w with
  | zero => omega
  | succ n ih =>
    rw [copyRing]
    by_cases heq : start = offset
    · rw [if_pos heq, heq, Nat.sub_self, Nat.add_zero]
    · have hnext : (start + 1) % VBUF_SIZE = start + 1 := Nat.mod_eq_of_lt (by omega)
      rw [if_neg heq, hnext, ih (by omega) (by omega)]
      omega

theorem written_subset_store (w : Video) (a : ℕ) (b : UInt8) :
    w.written ⊆ (w.store a b).written := List.subset_cons_self a w.written

theorem written_subset_copyRing (b : ℕ → UInt8) (offset n start p : ℕ) (w : Video) :
    w.written ⊆ (copyRing b offset n start p w).2.written := by
  induction n generalizing start p w with
  | zero => exact List.Subset.refl _
  | succ n ih =>
    rw [copyRing]
    split
    · exact List.Subset.refl _
    · exact List.Subset.trans (written_subset_store _ _ _) (ih _ _ _)

theorem written_subset_clearRest (vbase n p : ℕ) (w : Video) :
    w.written ⊆ (clearRest vbase n p w).written := by
  induction n generalizing p w with
  | zero => exact List.Subset.refl _
  | succ n ih =>
    rw [clearRest]
    split
    · exact List.Subset.trans (List.Subset.trans (written_subset_store _ _ _)
        (written_subset_store _ _ _)) (ih _ _)
    · exact List.Subset.refl _

/-- The last cell that is cleared lies behind the screen. -/
theorem mem_written_clearRest {vbase k n : ℕ} (hk : k ≤ R * C) (hn : R * C - k < n) (w : Video) :
    vbase + R * C * 2 ∈ (clearRest vbase n (vbase + 2 * k) w).written := by
  induction n generalizing k w with
  | zero => omega
  | succ n ih =>
    rw [clearRest, if_pos (by omega)]
    rcases Nat.eq_or_lt_of_le hk with rfl | hlt
    · refine written_subset_clearRest _ _ _ _ (List.mem_cons_of_mem _ ?_)
      rw [Nat.mul_comm 2]
      exact List.mem_cons_self
    · exact ih (k := k + 1) (by omega) (by omega) _

@[simp] theorem vbase_lineFeed (v : Vga) : v.lineFeed.vbase = v.vbase := by
  simp only [Vga.lineFeed, vbase_setCursor]
  split
  · exact vbase_clearLine _ _
  · exact vbase_clearLine _ _

@[simp] theorem vbase_putChar (v : Vga) (c : UInt8) : (v.putChar c).vbase = v.vbase := by
  rw [Vga.putChar]
  split
  · exact vbase_lineFeed v
  · dsimp only
    split
    · rw [vbase_lineFeed, vbase_putCell]
    · exact vbase_putCell v c

theorem written_subset_putCell (v : Vga) (b : UInt8) :
    v.video.written ⊆ (v.putCell b).video.written :=
  List.Subset.trans (written_subset_store _ _ _) (written_subset_store _ _ _)

theorem written_subset_clearLine (n : ℕ) (v : Vga) :
    v.video.written ⊆ (clearLine n v).video.written := by
  induction n generalizing v with
  | zero => exact List.Subset.refl _
  | succ n ih => exact List.Subset.trans (written_subset_putCell v 0) (ih _)

theorem written_subset_blit (v : Vga) : v.video.written ⊆ v.blit.video.written := by
  rw [Vga.blit]
  exact List.Subset.trans (written_subset_copyRing _ _ _ _ _ _) (written_subset_clearRest _ _ _ _)

theorem written_subset_lineFeed (v : Vga) : v.video.written ⊆ v.lineFeed.video.written := by
  refine List.Subset.trans (written_subset_clearLine (C - v.posY) v) ?_
  simp only [Vga.lineFeed, video_setCursor]
  split
  · exact written_subset_blit { clearLine (C - v.posY) v with posX := R - 1, posY := 0 }
  · exact List.Subset.refl _

theorem written_subset_putChar (v : Vga) (c : UInt8) :
    v.video.written ⊆ (v.putChar c).video.written := by
  have hput := written_subset_putCell v c
  rw [Vga.putChar]
  split
  · exact written_subset_lineFeed v
  · dsimp only
    split
    · exact List.Subset.trans hput (written_subset_lineFeed _)
    · exact hput

/-- 23 rows are drawn, and all cells behind them up to one behind the screen. -/
theorem mem_written_blit {v : Vga} (hx : v.posX = R - 1) (hy : v.posY = 0)
    (hoffset : v.offset = R * C * 2 % VBUF_SIZE) :
    v.vbase + R * C * 2 ∈ v.blit.video.written := by
  have hring : v.offset = 4000 := hoffset
  have hstart : v.start.toNat = 320 := by
    rw [Vga.start, hring, hx, hy]
    decide
  have hcopy := copyRing_fst v.buffer (show 320 ≤ 4000 by decide) (show 4000 < VBUF_SIZE by decide)
    (show 4000 - 320 < VBUF_SIZE by decide) v.vbase v.video
  rw [Vga.blit, hstart, hring]
  dsimp only
  rw [hcopy]
  exact mem_written_clearRest (k := 23 * C) (by decide) (by decide) _

/-- The end of the last row: a byte behind the screen is written. -/
theorem Vga.Holds.mem_written_lineFeed (h : v.Holds mem₀ l) (hx : v.posX + 1 = R)
    (hl : l.length + (C - v.posY) = R * C) :
    v.vbase + R * C * 2 ∈ v.lineFeed.video.written := by
  have hoffset := (h.clearLine (C - v.posY)).offset
  rw [List.length_append, List.length_replicate, hl, Nat.mul_comm] at hoffset
  simp only [Vga.lineFeed, video_setCursor, posX_clearLine, if_pos hx.ge]
  have hblit := mem_written_blit (v := { Console.clearLine (C - v.posY) v with
    posX := R - 1, posY := 0 }) rfl rfl hoffset
  rwa [show Vga.vbase { Console.clearLine (C - v.posY) v with posX := R - 1, posY := 0 } = v.vbase
    from vbase_clearLine _ _] at hblit

/-! ## All texts -/

/-- The screen has the text, or a byte behind it was written. -/
def Vga.Tracks (mem₀ : ℕ → UInt8) (v : Vga) (t : Wrapped) : Prop :=
  if t.done.length < R then v.Fits mem₀ t else v.vbase + R * C * 2 ∈ v.video.written

theorem Vga.Tracks.setCursor (h : v.Tracks mem₀ t) : v.setCursor.Tracks mem₀ t := by
  rw [Vga.Tracks] at h ⊢
  split at h
  case isTrue hlt =>
    rw [if_pos hlt]
    exact ⟨h.wf, h.posX, h.posY, h.holds.setCursor⟩
  case isFalse hge =>
    rw [if_neg hge]
    exact h

/-- One character. -/
theorem Vga.Tracks.putChar (h : v.Tracks mem₀ t) (c : UInt8) :
    (v.putChar c).Tracks mem₀ (t.add c) := by
  have hle := t.length_done_le_add c
  by_cases hroom : (t.add c).done.length < R
  · rw [Vga.Tracks, if_pos (hle.trans_lt hroom)] at h
    rw [Vga.Tracks, if_pos hroom]
    exact h.putChar hroom
  rw [Vga.Tracks, if_neg hroom, vbase_putChar]
  by_cases hlt : t.done.length < R
  · -- the character ends the last row
    rw [Vga.Tracks, if_pos hlt] at h
    have hcells := h.wf.length_cells
    have hposX := h.posX
    have hposY := h.posY
    have hlast := h.wf.last
    by_cases hc : c = newline
    · subst hc
      rw [Wrapped.add_newline, List.length_append, List.length_singleton] at hroom
      have hdone : t.done.length = R - 1 := by omega
      rw [hdone] at hcells hposX
      have hmem := h.holds.mem_written_lineFeed (by rw [hposX]; rfl) (by
        rw [hcells, hposY, show R * C = (R - 1) * C + C from rfl]
        omega)
      simpa [Vga.putChar] using hmem
    · have hfull : ¬t.last.length + 1 < C := by
        intro hshort
        rw [Wrapped.add_short hc hshort] at hroom
        exact hroom hlt
      rw [Wrapped.add_full hc (by omega), List.length_append, List.length_singleton] at hroom
      have hdone : t.done.length = R - 1 := by omega
      rw [hdone] at hcells hposX
      have hmem := (h.holds.putCell c).mem_written_lineFeed
        (by rw [posX_putCell, hposX]; rfl) (by
          rw [posY_putCell, List.length_append, hcells, List.length_singleton, hposY,
            show R * C = (R - 1) * C + C from rfl]
          omega)
      have heq : v.putChar c = (v.putCell c).lineFeed := by
        rw [Vga.putChar, if_neg hc]
        exact if_pos (by rw [posY_putCell]; omega)
      rwa [heq]
  · rw [Vga.Tracks, if_neg hlt] at h
    exact written_subset_putChar v c h

theorem Vga.Tracks.puts (h : v.Tracks mem₀ t) (str : CString) :
    (vgaPuts str v).2.Tracks mem₀ (str.bytes.foldl Wrapped.add t) := by
  have hchars : ∀ l : List UInt8, (l.foldl Vga.putChar v).Tracks mem₀ (l.foldl Wrapped.add t) := by
    intro l
    induction l using List.reverseRecOn with
    | nil => exact h
    | append_singleton l c ih =>
      rw [List.foldl_append, List.foldl_append]
      exact ih.putChar c
  exact (hchars str.bytes).setCursor

theorem tracks_boot (vbase cursor : ℕ) (mem : ℕ → UInt8) :
    (Vga.boot vbase cursor mem).Tracks mem (wrap []) :=
  ⟨⟨by simp [wrap], show 0 < C by decide⟩, rfl, rfl,
    ⟨rfl, rfl, by simp [Vga.boot, wrap, Wrapped.cells], by simp [Vga.boot]⟩⟩

theorem tracks_run (vbase cursor : ℕ) (mem : ℕ → UInt8) (strs : List CString) :
    ((Vga.boot vbase cursor mem).run strs).Tracks mem (wrap (textOf strs)) := by
  induction strs using List.reverseRecOn with
  | nil => exact tracks_boot vbase cursor mem
  | append_singleton strs str ih =>
    have hputs := ih.puts str
    rw [wrap, ← List.foldl_append] at hputs
    simpa [Vga.run, textOf, wrap] using hputs

/-! ## What the screen shows -/

/-- A cell that the screen holds. -/
theorem Vga.Holds.hasCell (h : v.Holds mem₀ l) {r c : ℕ} {b : UInt8}
    (hb : l[r * C + c]? = some b) : HasCell v.video.mem (cellAt v.vbase r c) b := by
  have hbyte : ∀ j < 2, (l.flatMap cell)[(r * C + c) * 2 + j]? = (cell b)[j]? := fun j hj =>
    getElem?_flatMap_of_length (fun x _ => length_cell x) hj hb
  have hread : ∀ j < 2, v.video.mem (v.vbase + ((r * C + c) * 2 + j)) = ((cell b)[j]?).getD 0 := by
    intro j hj
    have hj' : ∃ x, (cell b)[j]? = some x :=
      ⟨(cell b)[j], List.getElem?_eq_getElem (by simpa using hj)⟩
    obtain ⟨x, hx⟩ := hj'
    rw [h.mem, splice, if_pos (Nat.le_add_right _ _), Nat.add_sub_cancel_left, hbyte j hj, hx]
    rfl
  have hat : cellAt v.vbase r c = v.vbase + ((r * C + c) * 2 + 0) := by
    rw [cellAt]
    omega
  constructor
  · rw [hat, hread 0 (by decide)]
    rfl
  · rw [hat, Nat.add_assoc, Nat.add_assoc, hread 1 (by decide)]
    rfl

/-- The lines of a text that fits are in the rows. -/
theorem Vga.Fits.shows (h : v.Fits mem₀ t) (hroom : t.done.length < R) : v.Shows mem₀ t := by
  have hcells := h.wf.length_cells
  have hlast := h.wf.last
  have hvoff : v.voff = cellAt v.vbase v.posX v.posY := by
    rw [h.holds.voff, hcells, h.posX, h.posY, cellAt]
  refine ⟨h.posX ▸ hroom, h.posY ▸ hlast, hvoff, ⟨0, ?_, ?_⟩, ?_⟩
  · simp [Wrapped.lines, h.posX]
  · intro r hr line hline
    rw [h.posX] at hr ⊢
    rw [Nat.zero_add, Wrapped.lines] at hline
    by_cases hlt : r < t.done.length
    · -- a complete line, with zeros behind it
      rw [List.getElem?_append_left hlt] at hline
      have hlen := h.wf.done line (List.mem_of_getElem? hline)
      refine ⟨fun c b hb => h.holds.hasCell ?_, fun _ c hle hc => h.holds.hasCell ?_,
        fun hnot => absurd hlt hnot⟩
      · have hc : c < line.length := (List.getElem?_eq_some_iff.1 hb).1
        rw [h.wf.cells_done hline (by omega), pad, List.getElem?_append_left hc, hb]
      · rw [h.wf.cells_done hline hc, pad, List.getElem?_append_right hle,
          List.getElem?_replicate_of_lt (by omega)]
    · -- the last line, with the old screen behind it
      obtain rfl : r = t.done.length := by omega
      obtain rfl : t.last = line := by simpa using hline
      refine ⟨fun c b hb => h.holds.hasCell ?_, fun hdone => absurd hdone hlt, fun _ a hle _ => ?_⟩
      · rw [h.wf.cells_last, hb]
      · rw [h.holds.mem, splice_of_le]
        rw [cellAt] at hle
        rw [length_flatMap_cell, hcells]
        omega
  · intro a ha
    have hin := h.holds.inside a ha
    rw [h.holds.voff, hcells] at hin
    have hle : t.done.length * C + C ≤ R * C := by
      rw [← Nat.succ_mul]
      exact Nat.mul_le_mul_right C hroom
    omega

/-- The cursor is set by each call. -/
theorem cursor_run (v : Vga) {strs : List CString} (h : strs ≠ []) :
    (v.run strs).setCursor.cursor = (v.run strs).cursor := by
  induction strs using List.reverseRecOn with
  | nil => exact absurd rfl h
  | append_singleton strs str _ => rw [Vga.run, List.foldl_append]; rfl

/-- The screen stays where it is. -/
theorem vbase_run (v : Vga) (strs : List CString) : (v.run strs).vbase = v.vbase := by
  have hchars : ∀ (l : List UInt8) (v : Vga), (l.foldl Vga.putChar v).vbase = v.vbase := by
    intro l
    induction l with
    | nil => exact fun _ => rfl
    | cons c l ih => exact fun v => (ih _).trans (vbase_putChar v c)
  induction strs generalizing v with
  | nil => rfl
  | cons str strs ih => exact (ih _).trans (hchars str.bytes v)

end steps

/-- The screen shows what was printed as long as that has at most 25 lines. -/
theorem screen_iff (vbase cursor : ℕ) (mem : ℕ → UInt8) (strs : List CString) :
    ((Vga.boot vbase cursor mem).run strs).Correct vbase mem strs ↔
      (wrap (textOf strs)).done.length < R := by
  have htracks := tracks_run vbase cursor mem strs
  rw [Vga.Tracks] at htracks
  constructor
  · intro h
    by_contra hroom
    rw [if_neg hroom] at htracks
    exact Nat.lt_irrefl _ (h.screen.inside _ htracks).2
  · intro hroom
    rw [if_pos hroom] at htracks
    have hshows := htracks.shows hroom
    refine ⟨vbase_run _ strs, hshows, fun hne => ?_⟩
    have hpos := hshows.posX
    have hcol := hshows.posY
    rw [R] at hpos
    rw [C] at hcol
    rw [← cursor_run _ hne, cursor_setCursor (by rw [C]; omega), hshows.voff, cellAt]

/-- A text of 25 empty lines. -/
def newlines : CString where
  bytes := List.replicate 25 newline
  noNul _ hx := List.eq_of_mem_replicate hx ▸ by decide

/-- 25 newlines: two bytes behind the screen are written. -/
theorem not_correct_newlines :
    ¬((Vga.boot 0xb8000 0 fun _ => 0).run [newlines]).Correct 0xb8000 (fun _ => 0) [newlines] := by
  intro h
  have htracks := tracks_run 0xb8000 0 (fun _ => 0) [newlines]
  rw [Vga.Tracks, if_neg (by decide +kernel)] at htracks
  exact Nat.lt_irrefl _ (h.screen.inside _ htracks).2

end SadOS.Console
