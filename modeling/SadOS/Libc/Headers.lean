import SadOS.Libc.Malloc
import SadOS.Lib.BackLinks

/-!
# The headers of blocks

What the stores of `malloc.c` do to the links and flags of headers.  Headers lie at
multiples of 32, so a store to one of them changes no other, and the array `_free` is
apart from them.

## Main definitions

* `Node`, `Cell` — addresses of headers, and of `next` links.
* `Shows` — the links and flags that a memory holds.
* `Shows.insert`, `Shows.split`, `Shows.takeFirst`, `Shows.removeBuddy` — the source in terms
  of links.
-/

namespace SadOS.Libc.Malloc

variable {base : ℕ} {m m' : ℕ → UInt8} {f : Links} {g : ℕ → UInt8} {a v x n : ℕ}

/-- A header can lie here. -/
def Node (base x : ℕ) : Prop :=
  x % 32 = 0 ∧ x ≠ 0 ∧ x + 32 ≤ 2 ^ 64 ∧ (x + 32 ≤ base ∨ base + 104 ≤ x)

/-- The address of a `next` link, in a header or in `_free`. -/
def Cell (base a : ℕ) : Prop := Node base a ∨ ∃ i < 13, a = freeSlot base i

/-- The memory holds the links `f` and the flags `g`. -/
structure Shows (base : ℕ) (m : ℕ → UInt8) (f : Links) (g : ℕ → UInt8) : Prop where
  next : ∀ a, Cell base a → nextOf m a = f.next a
  back : ∀ x, Node base x → prevOf m x = f.back x
  flags : ∀ x, Node base x → flagsOf m x = g x

/-- The links in a memory. -/
def linksOf (m : ℕ → UInt8) : Links := ⟨nextOf m, prevOf m⟩

theorem shows_self (base : ℕ) (m : ℕ → UInt8) : Shows base m (linksOf m) (flagsOf m) :=
  ⟨fun _ _ => rfl, fun _ _ => rfl, fun _ _ => rfl⟩

theorem Node.cell (h : Node base x) : Cell base x := .inl h

theorem Node.lt (h : Node base x) : x < 2 ^ 64 := by
  have := h.2.2.1
  omega

theorem cell_slot {i : ℕ} (hi : i < 13) : Cell base (freeSlot base i) := .inr ⟨i, hi, rfl⟩

theorem Node.ne_slot (h : Node base x) {i : ℕ} (hi : i < 13) : x ≠ freeSlot base i := by
  rintro rfl
  obtain ⟨-, -, -, h⟩ := h
  unfold freeSlot at h
  omega

theorem freeSlot_inj {i j : ℕ} (h : freeSlot base i = freeSlot base j) : i = j := by
  unfold freeSlot at h
  omega

/-! ## Stores -/

/-- A word at one header field leaves another alone. -/
theorem Cell.disjoint {b : ℕ} (ha : Cell base a) (hb : Cell base b) (hne : a ≠ b) :
    b + 8 ≤ a ∨ a + 8 ≤ b := by
  have hslot : ∀ i, freeSlot base i = base + 8 * i := fun _ => rfl
  rcases ha with ⟨ha, -, -, ha'⟩ | ⟨i, hi, hai⟩ <;> rcases hb with ⟨hb, -, -, hb'⟩ | ⟨j, hj, hbj⟩
  · omega
  · have := hslot j
    omega
  · have := hslot i
    omega
  · have := hslot i
    have := hslot j
    omega

/-- The `next` link of a cell lies before or behind the other fields of a header. -/
theorem Cell.outside (ha : Cell base a) (hx : Node base x) :
    a + 8 ≤ x + 8 ∨ x + 24 ≤ a := by
  obtain ⟨hx, -, -, hx'⟩ := hx
  rcases ha with ⟨ha, -, -, ha'⟩ | ⟨i, hi, rfl⟩
  · omega
  · simp only [freeSlot]
    omega

namespace Shows

/-- `x->next = v`, or a store to `_free`. -/
theorem setNext (h : Shows base m f g) (ha : Cell base a) (hv : v < 2 ^ 64) :
    Shows base (Malloc.setNext m a v) ⟨Function.update f.next a v, f.back⟩ g := by
  refine ⟨fun b hb => ?_, fun x hx => ?_, fun x hx => ?_⟩
  · by_cases hab : b = a
    · subst hab
      dsimp only
      rw [Function.update_self]
      exact readWord_writeWord m b hv
    · dsimp only
      rw [Function.update_of_ne hab, ← h.next b hb]
      exact readWord_writeWord_of_disjoint m v (ha.disjoint hb (Ne.symm hab))
  · rw [← h.back x hx]
    have := ha.outside hx
    exact readWord_writeWord_of_disjoint m v (by omega)
  · rw [← h.flags x hx]
    have := ha.outside hx
    exact writeWord_apply m v (by omega)

/-- `x->prev = v`. -/
theorem setPrev (h : Shows base m f g) (hx : Node base x) (hv : v < 2 ^ 64) :
    Shows base (Malloc.setPrev m x v) ⟨f.next, Function.update f.back x v⟩ g := by
  refine ⟨fun b hb => ?_, fun y hy => ?_, fun y hy => ?_⟩
  · rw [← h.next b hb]
    have := hb.outside hx
    exact readWord_writeWord_of_disjoint m v (by omega)
  · by_cases hyx : y = x
    · subst hyx
      dsimp only
      rw [Function.update_self]
      exact readWord_writeWord m (y + 8) hv
    · have hdis : y + 8 + 8 ≤ x + 8 ∨ x + 8 + 8 ≤ y + 8 := by
        have := hx.1
        have := hy.1
        omega
      dsimp only
      rw [Function.update_of_ne hyx, ← h.back y hy]
      exact readWord_writeWord_of_disjoint m v hdis
  · rw [← h.flags y hy]
    have hx₁ := hx.1
    have hy₁ := hy.1
    exact writeWord_apply m v (by omega)

/-- `if (n) n->prev = v`. -/
theorem setPrevIf (h : Shows base m f g) (hn : n = 0 ∨ Node base n) (hv : v < 2 ^ 64) :
    Shows base (Malloc.setPrevIf m n v)
      ⟨f.next, if n = 0 then f.back else Function.update f.back n v⟩ g := by
  by_cases h0 : n = 0
  · simpa [Malloc.setPrevIf, h0] using h
  · simpa [Malloc.setPrevIf, h0] using h.setPrev (hn.resolve_left h0) hv

/-- `x->flags = v`. -/
theorem setFlags (h : Shows base m f g) (hx : Node base x) (v : UInt8) :
    Shows base (Malloc.setFlags m x v) f (Function.update g x v) := by
  refine ⟨fun b hb => ?_, fun y hy => ?_, fun y hy => ?_⟩
  · rw [← h.next b hb]
    have := hb.outside hx
    exact readWord_update m v (by omega)
  · rw [← h.back y hy]
    have hx₁ := hx.1
    have hy₁ := hy.1
    exact readWord_update m v (by omega)
  · by_cases hyx : y = x
    · subst hyx
      rw [Function.update_self]
      exact Function.update_self _ _ _
    · have hne : y + 16 ≠ x + 16 := by omega
      rw [Function.update_of_ne hyx, ← h.flags y hy]
      exact Function.update_of_ne hne v m

/-! ## The functions -/

/-- `insert` puts a block behind the head of its list. -/
theorem insert (h : Shows base m f g) (hbase : base + 104 ≤ 2 ^ 64) (hx : Node base x) {i : ℕ}
    (hi : i < 13) (hhead : f.next (freeSlot base i) = 0 ∨ Node base (f.next (freeSlot base i))) :
    Shows base (Malloc.insert base i x m) (f.push (freeSlot base i) x)
      (Function.update g x (UInt8.ofNat i ||| FREE)) := by
  have hslot : freeSlot base i < 2 ^ 64 := by
    unfold freeSlot
    omega
  have hne := hx.ne_slot hi
  have h₁ := (h.setFlags hx (UInt8.ofNat i ||| FREE)).setPrev hx hslot
  have hlt : f.next (freeSlot base i) < 2 ^ 64 := by
    rcases hhead with h | h
    · omega
    · exact h.lt
  unfold Malloc.insert
  dsimp only
  rw [h₁.next _ (cell_slot hi)]
  have h₂ := (h₁.setNext hx.cell hlt).setNext (cell_slot hi) hx.lt
  rw [h₂.next _ hx.cell]
  have h₃ := h₂.setPrevIf hhead hx.lt
  simpa [Links.push, hne] using h₃

/-- The removal of a block in `free`. -/
theorem removeBuddy (h : Shows base m f g) (hx : Node base x)
    (hback : Cell base (f.back x)) (hbase : base + 104 ≤ 2 ^ 64) (hne : f.back x ≠ x)
    (hnext : f.next x = 0 ∨ Node base (f.next x)) :
    Shows base
      (Malloc.setPrevIf (Malloc.setNext m (prevOf m x) (nextOf m x))
        (nextOf (Malloc.setNext m (prevOf m x) (nextOf m x)) x)
        (prevOf (Malloc.setNext m (prevOf m x) (nextOf m x)) x)) (f.unlink x) g := by
  have hlt : f.next x < 2 ^ 64 := by
    rcases hnext with h | h
    · omega
    · exact h.lt
  have hblt : f.back x < 2 ^ 64 := by
    rcases hback with h | ⟨i, hi, h⟩
    · exact h.lt
    · rw [h, freeSlot]
      omega
  rw [h.back x hx, h.next x hx.cell]
  have h₁ := h.setNext hback hlt
  rw [h₁.next x hx.cell, h₁.back x hx]
  have h₂ := h₁.setPrevIf hnext hblt
  simpa [Links.unlink, hne.symm] using h₂

/-- The removal of a first block in `malloc`. -/
theorem takeFirst (h : Shows base m f g) (hbase : base + 104 ≤ 2 ^ 64) {i : ℕ} (hi : i < 13)
    (hx : Node base x) (hhead : f.next (freeSlot base i) = x) (hback : f.back x = freeSlot base i)
    (hnext : f.next x = 0 ∨ Node base (f.next x)) :
    (Malloc.takeFirst base i m).1 = x ∧
      Shows base (Malloc.takeFirst base i m).2
        ⟨Function.update (f.unlink x).next x 0, Function.update (f.unlink x).back x 0⟩
        (Function.update g x (g x &&& ~~~FREE)) := by
  have hslot : freeSlot base i < 2 ^ 64 := by
    unfold freeSlot
    omega
  have hlt : f.next x < 2 ^ 64 := by
    rcases hnext with h | h
    · omega
    · exact h.lt
  have hne := hx.ne_slot hi
  unfold Malloc.takeFirst
  dsimp only
  rw [h.next _ (cell_slot hi), hhead, h.flags x hx]
  refine ⟨rfl, ?_⟩
  have h₁ := h.setFlags hx (g x &&& ~~~FREE)
  rw [h₁.next x hx.cell]
  have h₂ := h₁.setNext (cell_slot hi) hlt
  rw [h₂.next x hx.cell]
  have h₃ := h₂.setPrevIf hnext hslot
  have h₄ := (h₃.setPrev hx (v := 0) (by decide)).setNext hx.cell (v := 0) (by decide)
  simpa [Links.unlink, hne, hback] using h₄

/-- `split` takes a block out of its list and puts its halves on the list below. -/
theorem split (h : Shows base m f g) (hbase : base + 104 ≤ 2 ^ 64) {i : ℕ} (hi : i + 1 < 13)
    (hi' : 4 ≤ i) (hx : Node base x) (hx₂ : Node base (x + 2 ^ i))
    (hhead : f.next (freeSlot base (i + 1)) = x) (hback : f.back x = freeSlot base (i + 1))
    (hnext : f.next x = 0 ∨ Node base (f.next x))
    (hfirst : f.next (freeSlot base i) = 0 ∨ Node base (f.next (freeSlot base i)))
    (hne : f.next (freeSlot base i) ≠ x + 2 ^ i) :
    Shows base (Malloc.split base (i + 1) m)
      (((f.unlink x).push (freeSlot base i) (x + 2 ^ i)).push (freeSlot base i) x)
      (Function.update (Function.update g (x + 2 ^ i) (UInt8.ofNat i ||| FREE)) x
        (UInt8.ofNat i ||| FREE)) := by
  have hslot : ∀ j < 13, freeSlot base j < 2 ^ 64 := fun j hj => by
    unfold freeSlot
    omega
  have hlt : ∀ y, y = 0 ∨ Node base y → y < 2 ^ 64 := by
    rintro y (rfl | hy)
    · decide
    · exact hy.lt
  have hi₀ : i < 13 := Nat.lt_of_succ_lt hi
  have hpos : x + 2 ^ i ≠ x := (Nat.lt_add_of_pos_right (Nat.pow_pos (by decide))).ne'
  have hs₁ := hx.ne_slot hi
  have hs₀ := hx.ne_slot hi₀
  have hs₂ := hx₂.ne_slot hi₀
  have hs₃ := hx₂.ne_slot hi
  have hss : freeSlot base i ≠ freeSlot base (i + 1) := fun h => by
    have := freeSlot_inj h
    omega
  unfold Malloc.split
  rw [if_neg (by omega)]
  simp only [Nat.add_sub_cancel]
  rw [h.next _ (cell_slot hi), hhead, h.next x hx.cell]
  have h₁ := h.setNext (cell_slot hi) (hlt _ hnext)
  rw [h₁.next x hx.cell]
  simp only [Function.update_of_ne hs₁]
  have h₂ := ((h₁.setPrevIf hnext (hslot _ hi)).setNext hx.cell hx₂.lt).setPrev hx₂ hx.lt
  rw [h₂.next _ (cell_slot hi₀)]
  simp only [Function.update_of_ne hs₀.symm, Function.update_of_ne hss]
  have h₃ := h₂.setNext hx₂.cell (hlt _ hfirst)
  rw [h₃.next _ hx₂.cell]
  simp only [Function.update_self]
  have h₄ := ((((h₃.setPrevIf hfirst hx₂.lt).setNext (cell_slot hi₀) hx.lt).setPrev hx
    (hslot _ hi₀)).setFlags hx₂ (FREE ||| UInt8.ofNat i)).setFlags hx (FREE ||| UInt8.ofNat i)
  rw [UInt8.or_comm FREE] at h₄ ⊢
  have hx₂0 : x + 2 ^ i ≠ 0 := hx₂.2.1
  generalize x + 2 ^ i = x₂ at *
  generalize freeSlot base i = slot₀ at *
  generalize freeSlot base (i + 1) = slot₁ at *
  have hlinks : ((f.unlink x).push slot₀ x₂).push slot₀ x = ⟨Function.update (Function.update
      (Function.update (Function.update f.next slot₁ (f.next x)) x x₂) x₂ (f.next slot₀)) slot₀ x,
      Function.update (if f.next slot₀ = 0 then Function.update (if f.next x = 0 then f.back
        else Function.update f.back (f.next x) slot₁) x₂ x else Function.update (Function.update
          (if f.next x = 0 then f.back else Function.update f.back (f.next x) slot₁) x₂ x)
            (f.next slot₀) x₂) x slot₀⟩ := by
    refine Links.ext ?_ ?_
    · funext y
      simp only [Links.push, Links.unlink, hback, Function.update_apply]
      grind
    · funext y
      simp only [Links.push, Links.unlink, hback, Function.update_apply]
      grind
  rw [hlinks]
  exact h₄

end Shows

end SadOS.Libc.Malloc
