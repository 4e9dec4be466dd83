import SadOS.Lib.Words
import SadOS.Machine

/-!
# `malloc` and `free`

`libc/malloc.c`, over a memory of bytes.  The array `_free` is at the address `base`; it
has the heads of 13 lists.  A block begins with its header, `struct _hdr`: the links
`next` and `prev` and the byte `flags`, 24 bytes with padding.

## Main definitions

* `split`, `insert`, `malloc`, `free` — the source.
* `Heap` — the memory, and what `sendpage` and `munmap` were called for.
-/

namespace SadOS.Libc.Malloc

def HUGE : UInt8 := 16
def FREE : UInt8 := 32

/-- `sizeof(struct _hdr)`. -/
def sizeofHdr : ℕ := 24

/-- The memory, the pages obtained so far with their lengths, and the areas that were
unmapped. -/
structure Heap where
  mem : ℕ → UInt8
  pages : List (ℕ × ℕ)
  unmapped : List (ℕ × ℕ)

/-! ## Headers -/

/-- `&_free[i]`. -/
def freeSlot (base i : ℕ) : ℕ := base + 8 * i

/-- `x->next`. -/
def nextOf (m : ℕ → UInt8) (x : ℕ) : ℕ := readWord m x

/-- `x->prev`. -/
def prevOf (m : ℕ → UInt8) (x : ℕ) : ℕ := readWord m (x + 8)

/-- `x->flags`. -/
def flagsOf (m : ℕ → UInt8) (x : ℕ) : UInt8 := m (x + 16)

/-- `x->next = v`, where `&x->next` is `x`. -/
def setNext (m : ℕ → UInt8) (x v : ℕ) : ℕ → UInt8 := writeWord m x v

/-- `x->prev = v`. -/
def setPrev (m : ℕ → UInt8) (x v : ℕ) : ℕ → UInt8 := writeWord m (x + 8) v

/-- `x->flags = v`. -/
def setFlags (m : ℕ → UInt8) (x : ℕ) (v : UInt8) : ℕ → UInt8 := Function.update m (x + 16) v

/-- `if (n) n->prev = v`. -/
def setPrevIf (m : ℕ → UInt8) (n v : ℕ) : ℕ → UInt8 := if n ≠ 0 then setPrev m n v else m

/-! ## The source -/

/-- `clear_free`. -/
def clearFree (base : ℕ) (m : ℕ → UInt8) : ℕ → UInt8 :=
  fun a => if base ≤ a ∧ a < base + 104 then 0 else m a

/-- `alloc_new`, where `sendpage` returns `page`: the rounded size, and the heap. -/
def allocNew (page size : ℕ) (h : Heap) : ℕ × Heap :=
  let size := (size + 4095) % 2 ^ 64 / 4096 * 4096
  (size, { h with
    mem := fun a => if page ≤ a ∧ a < page + size then 0 else h.mem a
    pages := (page, size) :: h.pages })

/-- `split`. -/
def split (base index : ℕ) (m : ℕ → UInt8) : ℕ → UInt8 :=
  if index < 5 then m
  else
    let tmp := nextOf m (freeSlot base index)
    let tmp2 := tmp + 2 ^ (index - 1)
    -- remove `tmp` from the list of the index
    let m := setNext m (freeSlot base index) (nextOf m tmp)
    let m := setPrevIf m (nextOf m tmp) (freeSlot base index)
    -- `tmp` is split into `tmp` and `tmp2`
    let m := setNext m tmp tmp2
    let m := setPrev m tmp2 tmp
    let m := setNext m tmp2 (nextOf m (freeSlot base (index - 1)))
    let m := setPrevIf m (nextOf m tmp2) tmp2
    let m := setNext m (freeSlot base (index - 1)) tmp
    let m := setPrev m tmp (freeSlot base (index - 1))
    let m := setFlags m tmp2 (FREE ||| UInt8.ofNat (index - 1))
    setFlags m tmp (FREE ||| UInt8.ofNat (index - 1))

/-- `insert`. -/
def insert (base order x : ℕ) (m : ℕ → UInt8) : ℕ → UInt8 :=
  let m := setFlags m x (UInt8.ofNat order ||| FREE)
  let m := setPrev m x (freeSlot base order)
  let m := setNext m x (nextOf m (freeSlot base order))
  let m := setNext m (freeSlot base order) x
  setPrevIf m (nextOf m x) x

/-- The loop that looks for a list of order `xorder` or more; `n` orders are left. -/
def findOrder (base : ℕ) (m : ℕ → UInt8) : ℕ → ℕ → ℕ
  | 0, xorder => xorder
  | n + 1, xorder =>
    if nextOf m (freeSlot base xorder) = 0 then findOrder base m n (xorder + 1) else xorder

/-- The loop that splits blocks, `n` times from order `order + n` down. -/
def splitDown (base order : ℕ) : ℕ → (ℕ → UInt8) → ℕ → UInt8
  | 0, m => m
  | n + 1, m => splitDown base order n (split base (order + n + 1) m)

/-- The first block of the list of `order` is taken out and marked. -/
def takeFirst (base order : ℕ) (m : ℕ → UInt8) : ℕ × (ℕ → UInt8) :=
  let x := nextOf m (freeSlot base order)
  let m := setFlags m x (flagsOf m x &&& ~~~FREE)
  let m := setNext m (freeSlot base order) (nextOf m x)
  let m := setPrevIf m (nextOf m x) (freeSlot base order)
  let m := setPrev m x 0
  (x, setNext m x 0)

/-- `64-__builtin_clzl(n)`. -/
def bitLength (n : ℕ) : ℕ := n.log2 + 1

/-- `malloc`, where `sendpage` returns `page` if it is called. -/
def malloc (base page s : ℕ) (h : Heap) : ℕ × Heap :=
  let newsize := wadd s sizeofHdr
  if newsize > 0x1000 then
    let (newsize, h') := allocNew page newsize h
    if page = 0 then (0, h)
    else
      (page + sizeofHdr, { h' with mem := setNext (setFlags h'.mem page HUGE) page newsize })
  else
    let order := bitLength newsize
    let xorder := findOrder base h.mem (13 - order) order
    if xorder ≥ 13 ∧ page = 0 then (0, h)
    else
      let (xorder, h) :=
        if xorder ≥ 13 then
          let (_, h) := allocNew page 0x1000 h
          (12, { h with mem := insert base 12 page h.mem })
        else (xorder, h)
      let m := splitDown base order (xorder - order) h.mem
      let (x, m) := takeFirst base order m
      (x + sizeofHdr, { h with mem := m })

/-- `free`. -/
def free (base ptr : ℕ) (h : Heap) : Heap :=
  if ptr = 0 then h
  else
    let x := wsub ptr sizeofHdr
    if flagsOf h.mem x &&& HUGE ≠ 0 then
      { h with unmapped := (x, nextOf h.mem x) :: h.unmapped }
    else if (flagsOf h.mem x).toNat > 12 then h
    else
      let buddy := x ^^^ 2 ^ (flagsOf h.mem x).toNat
      if flagsOf h.mem buddy = FREE ||| flagsOf h.mem x then
        -- remove the buddy from its list
        let m := setNext h.mem (prevOf h.mem buddy) (nextOf h.mem buddy)
        let m := setPrevIf m (nextOf m buddy) (prevOf m buddy)
        let newHdr := if buddy < x then buddy else x
        { h with mem := insert base ((flagsOf m x).toNat + 1) newHdr m }
      else { h with mem := insert base (flagsOf h.mem x).toNat x h.mem }

end SadOS.Libc.Malloc
