import SadOS.Lib.Packed
import SadOS.Lib.ByteMem

/-!
# Words in a memory of bytes

A memory that has a byte at every address, with 64-bit words in it.

## Main definitions

* `readWord`, `writeWord` — little endian words.
* `readWord_writeWord`, `readWord_writeWord_of_disjoint` — loads after stores.
-/

namespace SadOS

variable {m m' : ℕ → UInt8} {a b v : ℕ}

/-- The word at an address. -/
def readWord (m : ℕ → UInt8) (a : ℕ) : ℕ := leValue (slice m a 8)

/-- A word at an address. -/
def writeWord (m : ℕ → UInt8) (a v : ℕ) : ℕ → UInt8 := splice m a (leBytes 8 v)

/-- Only the bytes of the word matter. -/
theorem readWord_congr (h : ∀ k < 8, m' (a + k) = m (a + k)) : readWord m' a = readWord m a := by
  have hslice : slice m' a 8 = slice m a 8 :=
    List.map_congr_left fun k hk => h k (List.mem_range.1 hk)
  rw [readWord, readWord, hslice]

/-- A word that was stored. -/
theorem readWord_writeWord (m : ℕ → UInt8) (a : ℕ) (hv : v < 2 ^ 64) :
    readWord (writeWord m a v) a = v := by
  have h := slice_splice m a (leBytes 8 v)
  rw [length_leBytes] at h
  rw [readWord, writeWord, h]
  exact leValue_leBytes hv

/-- Bytes outside of the word stay. -/
theorem writeWord_apply (m : ℕ → UInt8) (v : ℕ) (h : b < a ∨ a + 8 ≤ b) :
    writeWord m a v b = m b := by
  rcases h with h | h
  · exact splice_of_lt m _ h
  · exact splice_of_le m _ (by rwa [length_leBytes])

/-- A word that does not overlap the stored one. -/
theorem readWord_writeWord_of_disjoint (m : ℕ → UInt8) (v : ℕ) (h : b + 8 ≤ a ∨ a + 8 ≤ b) :
    readWord (writeWord m a v) b = readWord m b :=
  readWord_congr fun k hk => writeWord_apply m v (by omega)

/-- A byte elsewhere. -/
theorem readWord_update (m : ℕ → UInt8) (v : UInt8) (h : a < b ∨ b + 8 ≤ a) :
    readWord (Function.update m a v) b = readWord m b :=
  readWord_congr fun k hk => Function.update_of_ne (by omega) v m

end SadOS
