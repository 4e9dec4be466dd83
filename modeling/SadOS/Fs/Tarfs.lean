import SadOS.Lib.ByteMem
import SadOS.Fs.Server

/-!
# The index of an archive

`tarfs_init` of `bin/fs/tarfs.c` goes through the headers of an archive.  It rewrites each
name in place, and fills the tables `tarfs_entry` and `tarfs_inode`.

Reads outside of the archive, writes outside of the name of a header, and entries behind the
ends of the tables are faults here, so that every run ends: a loop that does not end runs out
of entries.

## Main definitions

* `changeFormat`, `getParent`, `nodeInit`, `initLoop`, `tarfsInit` — the source.
* `Walkable` — a walk over the headers that leaves neither the archive nor the tables.
* `tarfsInit_safe_iff` — there are no faults exactly if the archive is walkable.
-/

namespace SadOS.Fs

/-! ## The source -/

def TAR_COUNT : ℕ := 200
def slash : UInt8 := '/'.toUInt8

/-- The size of `struct posix_header_ustar`, and the offsets and sizes of its members. -/
def sizeofHeader : ℕ := 512
def headerName : ℕ := 0
def headerSize : ℕ := 124
def nameLength : ℕ := 100

/-- The sizes of `d_subdirs`, `d_iname` and `parent_dir`. -/
def subdirCount : ℕ := 30
def inameLength : ℕ := 30
def parentDirLength : ℕ := 200

/-- An archive, of a whole number of blocks. -/
structure Archive where
  blocks : ℕ
  bytes : ℤ → UInt8

def Archive.mem (a : Archive) : ByteMem := ⟨0, sizeofHeader * a.blocks, a.bytes⟩

/-- A member of `tarfs_inode`, where `i_data[0]` is an address in the archive or null. -/
structure TarInode where
  blockCount : ℤ
  fileLen : ℤ
  data : Option ℤ
  deriving DecidableEq

/-- A member of `tarfs_entry`; entries and inodes are given by their indices. -/
structure TarDentry where
  parent : Option ℕ
  subdirs : List (Option ℕ)
  iname : List UInt8
  inode : ℕ
  deriving DecidableEq

/-- The archive, and the entries of the tables that are in use. -/
structure Tarfs where
  mem : ByteMem
  entry : List TarDentry
  inode : List TarInode

/-- The value that the loop of `oct_to_int` makes of a string. -/
def octValue (octStr : List UInt8) : ℤ :=
  octStr.foldl (fun ret c => toInt (8 * ret + c.toInt8.toInt - 48)) 0

/-- `oct_to_int`, whose index is an `int` and must not overflow. -/
def octToInt (m : ByteMem) (octStr : ℤ) : Option ℤ := do
  let s ← m.cstring octStr
  if s.length < 2 ^ 31 then return octValue s else none

/-- `get_file_index`. -/
def getFileIndex (entry : List TarDentry) (fname : List UInt8) : Option ℕ :=
  entry.findIdx? fun d => d.iname = fname

/-- The place of the last slash of the first `i` characters. -/
def lastSlash (s : List UInt8) : ℕ → Option ℕ
  | 0 => none
  | i + 1 => if s[i]? = some slash then some i else lastSlash s i

/-- `parent_dir`. -/
def parentDir (s : List UInt8) : Option (List UInt8) :=
  match lastSlash s s.length with
  | none => some []
  | some 0 => some [slash]
  | some i => if i < parentDirLength then some (s.take i) else none

/-- `get_parent`. -/
def getParent (entry : List TarDentry) (name : List UInt8) : Option (Option ℕ) := do
  let dir ← parentDir name
  return getFileIndex entry dir

/-- A store to a character of a name. -/
def storeName (m : ByteMem) (str i : ℤ) (c : UInt8) : Option ByteMem :=
  if 0 ≤ i ∧ i < nameLength then m.storeAll (str + i) [c] else none

/-- `str[i + 1] = str[i]`, from `n` down. -/
def shiftLoop (m : ByteMem) (str : ℤ) : ℕ → Option ByteMem
  | 0 => some m
  | i + 1 => do
    let c ← m.load (str + i)
    let m ← storeName m str (i + 1) c
    shiftLoop m str i

/-- `change_format` behind `strlen`. -/
def changeFormatFrom (m : ByteMem) (ch : UInt8) (str len : ℤ) : Option ByteMem := do
  let m ← shiftLoop m str len.toNat
  let m ← storeName m str 0 ch
  let c ← m.load (str + len)
  if c = slash then storeName m str len 0 else storeName m str (len + 1) 0

/-- `change_format`. -/
def changeFormat (m : ByteMem) (ch : UInt8) (str : ℤ) : Option ByteMem := do
  let s ← m.cstring str
  changeFormatFrom m ch str (toInt s.length)

/-- The first empty slot of `d_subdirs`, if there is one. -/
def fillSlot (k : ℕ) : List (Option ℕ) → List (Option ℕ)
  | [] => []
  | none :: rest => some k :: rest
  | some x :: rest => some x :: fillSlot k rest

/-- `tarfs_node_init`, for the entry behind the others. -/
def nodeInit (entry : List TarDentry) (parent : Option ℕ) (iname : List UInt8) :
    Option (List TarDentry) :=
  if iname.length + 1 ≤ inameLength then
    let k := entry.length
    let entry := match parent with
      | none => entry
      | some p => entry.modify p fun d => { d with subdirs := fillSlot k d.subdirs }
    some (entry ++ [⟨parent, List.replicate subdirCount none, iname, k⟩])
  else none

/-- `cur_block_count`. -/
def blockCount (size : ℤ) : ℤ :=
  if size.tmod 512 = 0 then size.tdiv 512 else size.tdiv 512 + 1

/-- What the body of the loop of `tarfs_init` does for the size of a file: the next header, and
the state. -/
def addFile (header size : ℤ) (s : Tarfs) : ℤ × Tarfs :=
  let curBlockCount := blockCount size
  (header + sizeofHeader * (curBlockCount + 1),
    { s with inode := s.inode ++ [⟨curBlockCount, size, some (header + sizeofHeader)⟩] })

/-- The body of the loop of `tarfs_init`. -/
def addHeader (header : ℤ) (s : Tarfs) : Option (ℤ × Tarfs) := do
  let mem ← changeFormat s.mem slash (header + headerName)
  let size ← octToInt mem (header + headerSize)
  let name ← mem.cstring (header + headerName)
  let parent ← getParent s.entry name
  let entry ← nodeInit s.entry parent name
  return addFile header size ⟨mem, entry, s.inode⟩

/-- Whether the loop of `tarfs_init` ends at a header. -/
def atEnd (stop header : ℤ) (m : ByteMem) : Option Bool :=
  if header = stop then some true
  else do
    let name ← m.cstring (header + headerName)
    return name = []

/-- The loop of `tarfs_init`, when there is room for a number of entries. -/
def initLoop (stop : ℤ) : ℕ → ℤ → Tarfs → Option Tarfs
  | 0, header, s => do
    if ← atEnd stop header s.mem then return s else none
  | room + 1, header, s => do
    if ← atEnd stop header s.mem then return s
    else
      let (header, s) ← addHeader header s
      initLoop stop room header s

/-- The state before the loop: the root. -/
def Archive.start (a : Archive) : Tarfs where
  mem := a.mem
  entry := [⟨none, List.replicate subdirCount none, root, 0⟩]
  inode := [⟨1, 0, none⟩]

/-- `tarfs_init`. -/
def tarfsInit (a : Archive) : Option Tarfs :=
  let tarfsLen := toInt (sizeofHeader * a.blocks)
  initLoop tarfsLen (TAR_COUNT - 1) 0 a.start

/-! ## Walks -/

/-- A name without a slash at its end. -/
def dropSlash (t : List UInt8) : List UInt8 :=
  if t.getLast? = some slash then t.dropLast else t

/-- The name that `change_format` makes of a name for a length; a length of `-1` makes it look at
the character in front of the name. -/
def newNameFrom (before : Option UInt8) (s : List UInt8) (len : ℤ) : Option (List UInt8) :=
  if 0 ≤ len then some (dropSlash (slash :: s.take len.toNat))
  else if len = -1 ∧ before.isSome ∧ before ≠ some slash then some []
  else none

/-- The name that `change_format` makes of a name: its length is an `int`. -/
def newName (before : Option UInt8) (s : List UInt8) : Option (List UInt8) :=
  newNameFrom before s (toInt s.length)

/-- One header of a walk: the next header, and the archive with the new name. -/
def walkStep (m : ByteMem) (header : ℤ) : Option (ℤ × ByteMem) := do
  let s ← m.cstring header
  let t ← newName (m.load (header - 1)) s
  if t.length + 1 ≤ inameLength then
    let m := m.put header (t ++ [0])
    let size ← octToInt m (header + headerSize)
    return (header + sizeofHeader * (blockCount size + 1), m)
  else none

/-- A walk ends at `stop` or at an empty name. -/
def EndsAt (stop header : ℤ) (m : ByteMem) : Prop := header = stop ∨ m.cstring header = some []

/-- A walk over at most `room` headers. -/
def Walkable (stop : ℤ) : ℕ → ℤ → ByteMem → Prop
  | 0, header, m => EndsAt stop header m
  | room + 1, header, m =>
    EndsAt stop header m ∨ ∃ x, walkStep m header = some x ∧ Walkable stop room x.1 x.2

/-! ## The name -/

section name

variable {m : ByteMem} {str : ℤ} {s : List UInt8}

theorem bytes_mk (m : ByteMem) (f : ℤ → UInt8) (h : ∀ a, m.bytes a = f a) :
    m = { m with bytes := f } := by
  obtain ⟨lo, hi, bytes⟩ := m
  rw [ByteMem.mk.injEq]
  exact ⟨rfl, rfl, funext h⟩

theorem storeName_eq {i : ℤ} (hi : 0 ≤ i) (hlt : i < nameLength) (hlo : m.lo ≤ str + i)
    (hhi : str + i < m.hi) (c : UInt8) :
    storeName m str i c = some { m with bytes := Function.update m.bytes (str + i) c } := by
  rw [storeName, if_pos ⟨hi, hlt⟩, ByteMem.storeAll, if_pos ⟨hlo, hhi⟩]
  rfl

theorem storeName_none {i : ℤ} (h : ¬(0 ≤ i ∧ i < nameLength)) (c : UInt8) :
    storeName m str i c = none := if_neg h

/-- The loop moves the characters up by one. -/
theorem shiftLoop_eq (n : ℕ) (hn : n < nameLength) (hlo : m.lo ≤ str) (hhi : str + n < m.hi) :
    shiftLoop m str n = some { m with bytes := fun a =>
      if str < a ∧ a ≤ str + n then m.bytes (a - 1) else m.bytes a } := by
  induction n generalizing m with
  | zero =>
    rw [shiftLoop, Option.some.injEq]
    exact bytes_mk m _ fun a => (if_neg (by omega)).symm
  | succ n ih =>
    push_cast at hhi
    rw [shiftLoop, ByteMem.load, if_pos ⟨by omega, by omega⟩]
    simp only [Option.bind_eq_bind, Option.bind_some]
    have hrest := ih (m := { m with
      bytes := Function.update m.bytes (str + (n + 1)) (m.bytes (str + n)) })
      (by omega) hlo (show str + n < m.hi by omega)
    rw [storeName_eq (by omega) (by exact_mod_cast hn) (by omega) (by omega), Option.bind_some,
      hrest, Option.some.injEq, ByteMem.mk.injEq]
    refine ⟨rfl, rfl, funext fun a => ?_⟩
    dsimp only
    by_cases ha : a = str + (n + 1)
    · subst ha
      rw [if_neg (by omega), if_pos ⟨by omega, by push_cast; omega⟩, Function.update_self]
      congr 1
      omega
    · rw [Function.update_of_ne ha]
      by_cases hin : str < a ∧ a ≤ str + n
      · rw [if_pos hin, if_pos ⟨hin.1, by push_cast; omega⟩, Function.update_of_ne (by omega)]
      · rw [if_neg hin, if_neg (by push_cast; omega)]

theorem shiftLoop_none {n : ℕ} (hn : nameLength ≤ n) : shiftLoop m str n = none := by
  cases n with
  | zero => exact absurd hn (by decide)
  | succ n =>
    have hstore : ∀ c, storeName m str (n + 1) c = none := fun c => storeName_none (by omega) c
    rw [shiftLoop]
    simp only [hstore]
    cases m.load (str + n) <;> rfl

/-- The memory with some bytes, told by the bytes. -/
theorem eq_put {f : ℤ → UInt8} {l : List UInt8} (hl : ∀ i (hi : i < l.length), f (str + i) = l[i])
    (hout : ∀ a, a < str ∨ str + l.length ≤ a → f a = m.bytes a) :
    { m with bytes := f } = m.put str l := by
  rw [ByteMem.put, ByteMem.mk.injEq]
  refine ⟨rfl, rfl, funext fun a => ?_⟩
  by_cases ha : str ≤ a ∧ a < str + l.length
  · have hi : (a - str).toNat < l.length := by omega
    rw [if_pos ha, List.getD_eq_getElem _ _ hi, ← hl _ hi]
    congr 1
    omega
  · rw [if_neg ha]
    exact hout a (by omega)

theorem toInt_le (n : ℕ) : toInt n ≤ n := by
  rw [toInt, Int.bmod_def]
  split <;> omega

/-- The characters that are stored for a name, in terms of those before. -/
theorem put_shifted {n : ℕ} (hbytes : ∀ i (hi : i < s.length), m.bytes (str + i) = s[i])
    (hn : n ≤ s.length) {x : ℤ} (hx : str + n ≤ x) (hx' : x ≤ str + n + 1) :
    ({ m with bytes := Function.update (Function.update (fun a =>
      if str < a ∧ a ≤ str + n then m.bytes (a - 1) else m.bytes a) (str + 0) slash) x 0 } : ByteMem) =
      m.put str ((slash :: s.take n).take (x - str).toNat ++ [0]) := by
  have hlen : ((slash :: s.take n).take (x - str).toNat ++ [0]).length = (x - str).toNat + 1 := by
    rw [List.length_append, List.length_take, List.length_cons, List.length_take,
      List.length_singleton]
    omega
  refine eq_put (fun i hi => ?_) fun a ha => ?_
  · rw [hlen] at hi
    have htake : ((slash :: s.take n).take (x - str).toNat).length = (x - str).toNat := by
      rw [List.length_take, List.length_cons, List.length_take]
      omega
    by_cases hix : i = (x - str).toNat
    · rw [List.getElem_append_right (by omega), show str + i = x by omega, Function.update_self]
      simp only [htake, hix, Nat.sub_self, List.getElem_cons_zero]
    · rw [List.getElem_append_left (by omega), List.getElem_take, Function.update_of_ne (by omega)]
      cases i with
      | zero => exact Function.update_self ..
      | succ i =>
        rw [Function.update_of_ne (by omega), if_pos ⟨by omega, by omega⟩, List.getElem_cons_succ,
          List.getElem_take, ← hbytes i (by omega)]
        congr 1
        omega
  · rw [hlen] at ha
    rw [Function.update_of_ne (by omega), Function.update_of_ne (by omega), if_neg (by omega)]

theorem getLast?_shifted {n : ℕ} (hn : n ≤ s.length) :
    (slash :: s.take n).getLast? = (slash :: s)[n]? := by
  have hlen : (slash :: s.take n).length = n + 1 := by
    rw [List.length_cons, List.length_take]
    omega
  rw [List.getLast?_eq_getElem?, hlen, Nat.add_sub_cancel, ← List.take_succ_cons,
    List.getElem?_take_of_lt (Nat.lt_succ_self n)]

theorem bytes_of_cstring (hs : m.cstring str = some s) :
    m.lo ≤ str ∧ str + s.length + 1 ≤ m.hi ∧ ∀ i (hi : i < s.length), m.bytes (str + i) = s[i] := by
  have hholds := ByteMem.holds_of_cstring hs
  obtain ⟨hlo, hend⟩ := hholds.end_le (by simp)
  rw [List.length_append, List.length_singleton] at hend
  push_cast at hend
  refine ⟨hlo, by omega, fun i hi => ?_⟩
  rw [hholds.bytes_eq (by rw [List.length_append]; omega), List.getElem_append_left hi]

/-- `change_format` for a length that is not negative. -/
theorem changeFormatFrom_natCast {n : ℕ} (hs : m.cstring str = some s)
    (hroom : str + nameLength ≤ m.hi) (hn : n ≤ s.length) :
    changeFormatFrom m slash str n =
      if (dropSlash (slash :: s.take n)).length + 1 ≤ nameLength then
        some (m.put str (dropSlash (slash :: s.take n) ++ [0]))
      else none := by
  obtain ⟨hlo, hend, hbytes⟩ := bytes_of_cstring hs
  have hlength : (slash :: s.take n).length = n + 1 := by
    rw [List.length_cons, List.length_take]
    omega
  have hge : n ≤ (dropSlash (slash :: s.take n)).length := by
    rw [dropSlash]
    split
    · rw [List.length_dropLast]
      omega
    · omega
  rw [changeFormatFrom, Int.toNat_natCast]
  simp only [Option.bind_eq_bind]
  by_cases hlong : nameLength ≤ n
  · rw [shiftLoop_none hlong, if_neg (by omega)]
    rfl
  have hroom' : nameLength = 100 := rfl
  have hput := fun x => put_shifted (x := x) hbytes hn
  have hshift := shiftLoop_eq n (by omega) hlo (by omega)
  have hf : ∀ a, str < a → a ≤ str + n → (fun a => if str < a ∧ a ≤ str + (n : ℤ) then
      m.bytes (a - 1) else m.bytes a) a = m.bytes (a - 1) := fun a ha ha' => if_pos ⟨ha, ha'⟩
  generalize (fun a => if str < a ∧ a ≤ str + (n : ℤ) then m.bytes (a - 1) else m.bytes a) = f
    at hput hshift hf
  have hstore := storeName_eq (m := { m with bytes := f }) (i := 0) (by omega) (by omega)
    (show m.lo ≤ str + 0 by omega) (show str + 0 < m.hi by omega) slash
  have hlast : ((slash :: s.take n).getLast? = some slash ↔
      Function.update f (str + 0) slash (str + n) = slash) := by
    rw [getLast?_shifted hn]
    cases n with
    | zero =>
      refine iff_of_true rfl ?_
      rw [Nat.cast_zero]
      exact Function.update_self ..
    | succ k =>
      rw [List.getElem?_cons_succ, List.getElem?_eq_getElem (by omega), Option.some.injEq,
        Function.update_of_ne (by omega), hf _ (by omega) le_rfl, ← hbytes k (by omega),
        show str + ((k + 1 : ℕ) : ℤ) - 1 = str + k by omega]
  rw [hshift, Option.bind_some, hstore, Option.bind_some, ByteMem.load,
    if_pos ⟨show m.lo ≤ str + n by omega, show str + n < m.hi by omega⟩, Option.bind_some, dropSlash]
  dsimp only
  have hfinal : ∀ i : ℤ, n ≤ i → i ≤ n + 1 → i < nameLength →
      storeName { m with bytes := Function.update f (str + 0) slash } str i 0 =
        some (m.put str ((slash :: s.take n).take i.toNat ++ [0])) := by
    intro i hi hi' hlt
    have heq := storeName_eq (m := { m with bytes := Function.update f (str + 0) slash })
      (by omega) hlt (show m.lo ≤ str + i by omega) (show str + i < m.hi by omega) 0
    rw [heq]
    dsimp only
    rw [hput (str + i) (by omega) (by omega), show str + i - str = i by omega]
  by_cases hslash : (slash :: s.take n).getLast? = some slash
  · rw [if_pos hslash, if_pos (hlast.1 hslash), List.length_dropLast, if_pos (by omega),
      hfinal n le_rfl (by omega) (by omega), List.dropLast_eq_take, hlength, Int.toNat_natCast,
      Nat.add_sub_cancel]
  · rw [if_neg hslash, if_neg (mt hlast.2 hslash), hlength]
    by_cases hend' : n + 1 < nameLength
    · rw [if_pos (by omega), hfinal (n + 1) (by omega) le_rfl (by omega),
        List.take_of_length_le (by omega)]
    · rw [if_neg (by omega), storeName_none (by omega)]

/-- `change_format` for a negative length: only a length of `-1` ends in the name. -/
theorem changeFormatFrom_neg {len : ℤ} (hs : m.cstring str = some s)
    (hroom : str + nameLength ≤ m.hi) (hlen : len < 0) :
    changeFormatFrom m slash str len =
      if len = -1 ∧ (m.load (str - 1)).isSome ∧ m.load (str - 1) ≠ some slash then
        some (m.put str [0])
      else none := by
  obtain ⟨hlo, -, -⟩ := bytes_of_cstring hs
  have hroom' : nameLength = 100 := rfl
  have hstore := storeName_eq (m := m) (i := 0) le_rfl (by omega)
    (show m.lo ≤ str + 0 by omega) (show str + 0 < m.hi by omega) slash
  have hload : ByteMem.load { m with bytes := Function.update m.bytes (str + 0) slash } (str + len) =
      m.load (str + len) := by
    rw [ByteMem.load, ByteMem.load]
    dsimp only
    rw [Function.update_of_ne (by omega)]
  rw [changeFormatFrom, Int.toNat_of_nonpos hlen.le, shiftLoop]
  simp only [Option.bind_eq_bind, Option.bind_some, hstore, hload]
  by_cases hone : len = -1
  · subst hone
    rw [show str + -1 = str - 1 by omega]
    cases hc : m.load (str - 1) with
    | none => rfl
    | some c =>
      rw [Option.bind_some]
      by_cases hslash : c = slash
      · rw [if_pos hslash, storeName_none (by decide), if_neg (by simp [hslash])]
      · have hzero := storeName_eq
          (m := { m with bytes := Function.update m.bytes (str + 0) slash }) (i := 0)
          le_rfl (by omega) (show m.lo ≤ str + 0 by omega) (show str + 0 < m.hi by omega) 0
        rw [if_neg hslash, if_pos ⟨rfl, rfl, by simpa using hslash⟩, show (-1 : ℤ) + 1 = 0 from rfl,
          hzero, Option.some.injEq]
        dsimp only
        rw [Function.update_idem]
        refine eq_put (fun i hi => ?_) fun a ha => ?_
        · obtain rfl : i = 0 := Nat.lt_one_iff.1 hi
          exact Function.update_self ..
        · exact Function.update_of_ne (by rw [List.length_singleton] at ha; omega) _ _
  · rw [if_neg fun h => hone h.1]
    cases m.load (str + len) with
    | none => rfl
    | some c =>
      rw [Option.bind_some, storeName_none (by omega), storeName_none (by omega), ite_self]

/-- `change_format`, in terms of the name. -/
theorem changeFormat_eq (hs : m.cstring str = some s) (hroom : str + nameLength ≤ m.hi) :
    changeFormat m slash str = (newName (m.load (str - 1)) s).bind fun t =>
      if t.length + 1 ≤ nameLength then some (m.put str (t ++ [0])) else none := by
  have hle := toInt_le s.length
  rw [changeFormat, hs, newName, Option.bind_eq_bind, Option.bind_some]
  generalize toInt s.length = len at hle
  rw [newNameFrom]
  by_cases hlen : 0 ≤ len
  · obtain ⟨n, rfl⟩ := Int.eq_ofNat_of_zero_le hlen
    rw [if_pos hlen, Option.bind_some]
    exact changeFormatFrom_natCast hs hroom (by omega)
  · rw [if_neg hlen, changeFormatFrom_neg hs hroom (by omega)]
    split
    · rfl
    · rfl

/-- The characters of the new name. -/
theorem ne_zero_of_newName {before : Option UInt8} {t : List UInt8} (hs : ∀ c ∈ s, c ≠ 0)
    (h : newName before s = some t) : ∀ c ∈ t, c ≠ 0 := by
  rw [newName] at h
  generalize toInt s.length = len at h
  rw [newNameFrom] at h
  split at h
  · cases h
    have hall : ∀ c ∈ slash :: s.take len.toNat, c ≠ 0 :=
      List.forall_mem_cons.2 ⟨by decide, fun c hc => hs c (List.mem_of_mem_take hc)⟩
    rw [dropSlash]
    split
    · exact fun c hc => hall c (List.dropLast_subset _ hc)
    · exact hall
  · split at h
    · cases h
      exact fun c hc => absurd hc List.not_mem_nil
    · cases h

end name

/-! ## Headers -/

section headers

variable {s : Tarfs} {header stop : ℤ}

theorem lt_of_lastSlash {t : List UInt8} {n i : ℕ} (h : lastSlash t n = some i) : i < n := by
  induction n with
  | zero => cases h
  | succ n ih =>
    rw [lastSlash] at h
    split at h
    · cases h
      exact Nat.lt_succ_self _
    · exact (ih h).trans (Nat.lt_succ_self n)

theorem getParent_of_short (entry : List TarDentry) {t : List UInt8} (h : t.length ≤ parentDirLength) :
    ∃ parent, getParent entry t = some parent := by
  have hdir : ∃ dir, parentDir t = some dir := by
    rw [parentDir]
    cases hi : lastSlash t t.length with
    | none => exact ⟨[], rfl⟩
    | some i =>
      have hlt := lt_of_lastSlash hi
      cases i with
      | zero => exact ⟨[slash], rfl⟩
      | succ i =>
        have hlt' : i + 1 < parentDirLength := by omega
        exact ⟨t.take (i + 1), if_pos hlt'⟩
  obtain ⟨dir, hdir⟩ := hdir
  exact ⟨getFileIndex entry dir, by rw [getParent, hdir]; rfl⟩

/-- The body of the loop makes a step of the walk. -/
theorem addHeader_walk (hroom : header + sizeofHeader ≤ s.mem.hi) :
    (addHeader header s).map (fun x => (x.1, x.2.mem)) = walkStep s.mem header := by
  have hname : header + (headerName : ℤ) = header := add_zero header
  rw [addHeader, walkStep, hname]
  cases hs : s.mem.cstring header with
  | none =>
    rw [changeFormat, hs]
    rfl
  | some str =>
    obtain ⟨hlo, -, -⟩ := bytes_of_cstring hs
    have hroom' : nameLength = 100 := rfl
    have hheader : sizeofHeader = 512 := rfl
    have hiname : inameLength = 30 := rfl
    rw [changeFormat_eq hs (by omega)]
    simp only [Option.bind_eq_bind]
    rw [Option.bind_some]
    cases ht : newName (s.mem.load (header - 1)) str with
    | none => rfl
    | some t =>
      rw [Option.bind_some, Option.bind_some]
      by_cases hlong : t.length + 1 ≤ nameLength
      · have hcstring := ByteMem.cstring_of_holds
          (ByteMem.holds_put (m := s.mem) (a := header) (l := t ++ [0]) hlo (by
            rw [List.length_append, List.length_singleton]
            omega)) (ne_zero_of_newName (ByteMem.ne_zero_of_cstring hs) ht)
        obtain ⟨parent, hparent⟩ := getParent_of_short s.entry (show t.length ≤ 200 by omega)
        rw [if_pos hlong, Option.bind_some]
        cases octToInt (s.mem.put header (t ++ [0])) (header + headerSize) with
        | none =>
          rw [Option.bind_none, Option.bind_none, ite_self]
          rfl
        | some size =>
          rw [Option.bind_some, Option.bind_some, hcstring, Option.bind_some, hparent,
            Option.bind_some, nodeInit]
          by_cases hshort : t.length + 1 ≤ inameLength
          · rw [if_pos hshort, if_pos hshort, Option.bind_some]
            rfl
          · rw [if_neg hshort, if_neg hshort]
            rfl
      · rw [if_neg hlong, if_neg (by omega)]
        rfl

/-- A step of the walk goes on by whole blocks. -/
theorem walkStep_spec {m : ByteMem} {x : ℤ × ByteMem} (h : walkStep m header = some x) :
    x.2.hi = m.hi ∧ ∃ k, x.1 = header + sizeofHeader * k := by
  rw [walkStep] at h
  obtain ⟨str, -, h⟩ := Option.bind_eq_some_iff.1 h
  obtain ⟨t, -, h⟩ := Option.bind_eq_some_iff.1 h
  split at h
  · obtain ⟨size, -, h⟩ := Option.bind_eq_some_iff.1 h
    cases h
    exact ⟨rfl, _, rfl⟩
  · cases h

/-- Whether the loop ends, with what is known of the name. -/
theorem atEnd_cases (stop header : ℤ) (m : ByteMem) :
    atEnd stop header m = some true ∧ EndsAt stop header m ∨
      atEnd stop header m = none ∧ ¬EndsAt stop header m ∧ walkStep m header = none ∨
      atEnd stop header m = some false ∧ ¬EndsAt stop header m ∧ ∃ str, m.cstring header = some str := by
  have hname : header + (headerName : ℤ) = header := add_zero header
  rw [atEnd, hname]
  by_cases hstop : header = stop
  · exact .inl ⟨if_pos hstop, .inl hstop⟩
  rw [if_neg hstop]
  cases hs : m.cstring header with
  | none =>
    refine .inr (.inl ⟨rfl, fun h => ?_, ?_⟩)
    · rcases h with h | h
      · exact hstop h
      · rw [hs] at h
        cases h
    · rw [walkStep, hs]
      rfl
  | some str =>
    cases str with
    | nil => exact .inl ⟨rfl, .inr hs⟩
    | cons c str =>
      refine .inr (.inr ⟨rfl, fun h => ?_, _, rfl⟩)
      rcases h with h | h
      · exact hstop h
      · rw [hs] at h
        cases h

/-- Behind a header there is room for all of it. -/
theorem header_end_le {m : ByteMem} {str : List UInt8} (hheader : header % sizeofHeader = 0)
    (hhi : m.hi % sizeofHeader = 0) (hs : m.cstring header = some str) :
    header + sizeofHeader ≤ m.hi := by
  obtain ⟨-, hend, -⟩ := bytes_of_cstring hs
  have hsize : sizeofHeader = 512 := rfl
  rw [hsize] at hheader hhi ⊢
  omega

/-- The loop meets no fault exactly if there is a walk. -/
theorem initLoop_isSome (hheader : header % sizeofHeader = 0) (hhi : s.mem.hi % sizeofHeader = 0)
    (room : ℕ) : (initLoop stop room header s).isSome ↔ Walkable stop room header s.mem := by
  induction room generalizing header s with
  | zero =>
    rw [initLoop, Walkable]
    rcases atEnd_cases stop header s.mem with ⟨hend, h⟩ | ⟨hend, h, -⟩ | ⟨hend, h, -⟩
    · exact iff_of_true (by rw [hend]; rfl) h
    · exact iff_of_false (by rw [hend]; exact Bool.false_ne_true) h
    · exact iff_of_false (by rw [hend]; exact Bool.false_ne_true) h
  | succ room ih =>
    rw [initLoop, Walkable]
    rcases atEnd_cases stop header s.mem with ⟨hend, h⟩ | ⟨hend, h, hwalk⟩ | ⟨hend, h, str, hs⟩
    · exact iff_of_true (by rw [hend]; rfl) (.inl h)
    · refine iff_of_false (by rw [hend]; exact Bool.false_ne_true) ?_
      rintro (h' | ⟨x, hx, -⟩)
      · exact h h'
      · rw [hwalk] at hx
        cases hx
    · have hadd := addHeader_walk (header_end_le hheader hhi hs)
      rw [hend, or_iff_right h]
      cases hstep : addHeader header s with
      | none =>
        rw [hstep] at hadd
        refine iff_of_false Bool.false_ne_true ?_
        rintro ⟨x, hx, -⟩
        rw [← hadd] at hx
        cases hx
      | some x =>
        rw [hstep, Option.map_some] at hadd
        obtain ⟨hhi', k, hk⟩ := walkStep_spec hadd.symm
        have hx := ih (s := x.2) (show x.1 % sizeofHeader = 0 by
          rw [show x.1 = header + sizeofHeader * k from hk, Int.add_mul_emod_self_left, hheader])
          (by rw [show x.2.mem.hi = s.mem.hi from hhi', hhi])
        refine hx.trans ⟨fun hwalk => ⟨_, hadd.symm, hwalk⟩, ?_⟩
        rintro ⟨y, hy, hwalk⟩
        rw [← hadd, Option.some.injEq] at hy
        subst hy
        exact hwalk

end headers

/-- `tarfs_init` meets no fault exactly if there is a walk over at most 199 headers. -/
theorem tarfsInit_safe_iff (a : Archive) :
    (tarfsInit a).isSome ↔
      Walkable (toInt (sizeofHeader * a.blocks)) (TAR_COUNT - 1) 0 a.mem :=
  initLoop_isSome (s := a.start) rfl (Int.mul_emod_right _ _) _

/-- The name of a header may not end in the archive. -/
theorem tarfsInit_faults : ¬∀ a : Archive, (tarfsInit a).isSome := by
  intro h
  have hsome := h ⟨1, fun _ => 'a'.toUInt8⟩
  have hstring : ByteMem.cstring (Archive.mem ⟨1, fun _ => 'a'.toUInt8⟩) 0 = none :=
    ByteMem.cstring_eq_none (fun _ => by show 'a'.toUInt8 ≠ 0; decide) 0
  have hend : atEnd (toInt (sizeofHeader * (1 : ℕ))) 0 (Archive.mem ⟨1, fun _ => 'a'.toUInt8⟩) =
      none := by
    rw [atEnd, if_neg (by decide), show (0 : ℤ) + (headerName : ℤ) = 0 from rfl, hstring]
    rfl
  rw [tarfsInit, show TAR_COUNT - 1 = 198 + 1 from rfl, initLoop] at hsome
  rw [show (Archive.start ⟨1, fun _ => 'a'.toUInt8⟩).mem = Archive.mem ⟨1, fun _ => 'a'.toUInt8⟩ from rfl,
    hend] at hsome
  exact Bool.false_ne_true hsome

end SadOS.Fs
