import SadOS.Fs.Metadata
import SadOS.Fs.Server
import SadOS.Lib.BlockFile

/-!
# Contents of files on disk

`read_sata_wrapper` and `write_sata_wrapper` of `bin/fs/fs.c`, and the functions under them.
A file has its data in blocks, whose numbers stand in `i_data` of its inode; a transfer is cut
into a part of the first block, whole blocks, and a part of the last one.

Inodes are taken to be read as they were last written.  Accesses outside of `i_data`, of
`common_buf` and of the buffer of the caller are faults.

## Main definitions

* `SataInode`, `SataFs`, `SataFile` — the data.
* `readSataWrapper`, `writeSataWrapper` — the source.
* `Writes` — what a write does to the blocks of a file, and to no others.

## Main results

* `readBlocks_eq`, `writeBlocks_writes` — transfers.
* `newBlocks_eq` — new blocks belong to no other file.
-/

namespace SadOS.Fs

/-! ## The source -/

def DATA_BITMAP_START_INDEX : ℕ := 2
def DATA_START_INDEX : ℕ := 34

/-- The length of `common_buf`, and of `i_data`. -/
def commonBufLength : ℕ := 4096
def dataCount : ℕ := 15

/-- `struct inode`, where `i_data` has numbers of blocks. -/
structure SataInode where
  fileLen : ℤ
  blockCount : ℤ
  iData : ℕ → ℕ

/-- `i_data[i]`. -/
def SataInode.block (cur : SataInode) (i : ℤ) : Option ℕ :=
  if 0 ≤ i ∧ i < dataCount then some (cur.iData i.toNat) else none

/-- The disk, and the inodes as they were last written. -/
structure SataFs where
  disk : Disk
  inode : ℕ → SataInode

/-- `struct file`. -/
structure SataFile where
  inode : ℕ
  fPos : ℤ

/-- `get_inode`. -/
def SataFs.getInode (s : SataFs) (index : ℕ) : SataInode × SataFs :=
  (s.inode index, { s with disk := readSata s.disk (INODE_START_INDEX + index / 4) })

/-- `write_inode`. -/
def SataFs.writeInode (s : SataFs) (index : ℕ) (inode : SataInode) : SataFs where
  disk := readSata s.disk (INODE_START_INDEX + index / 4)
  inode := Function.update s.inode index inode

/-- `get_free_data`. -/
def getFreeData (d : Disk) : Option ℕ × Disk :=
  let d := readSata d DATA_BITMAP_START_INDEX
  let dataBitmap := slice d.buf 0 BLOCK_SIZE
  (dataBitmap.findIdx? fun x => x = 0, d)

/-- `set_data_bitmap`. -/
def setDataBitmap (dataId : ℕ) (d : Disk) : Disk := setBitmap DATA_BITMAP_START_INDEX dataId d

/-- `get_data`. -/
def getData (dataIndex : ℕ) (offset count : ℤ) (d : Disk) : Option (List UInt8 × Disk) :=
  let d := readSata d (DATA_START_INDEX + dataIndex)
  if 0 ≤ offset ∧ 0 ≤ count ∧ offset + count ≤ commonBufLength then
    some (slice d.buf offset.toNat count.toNat, d)
  else none

/-- `write_data`, for `count` characters at `buf_ptr`, which is `buf + pos`. -/
def writeData (dataIndex : ℕ) (buf : List UInt8) (pos : ℕ) (offset count : ℤ) (d : Disk) :
    Option Disk :=
  let d := readSata d (DATA_START_INDEX + dataIndex)
  if 0 ≤ offset ∧ 0 ≤ count ∧ offset + count ≤ commonBufLength ∧ pos + count ≤ buf.length then
    let d := { d with buf := splice d.buf offset.toNat ((buf.drop pos).take count.toNat) }
    some (writeSata d (DATA_START_INDEX + dataIndex))
  else none

/-- The loop of `read_sata_wrapper`, for `n` blocks. -/
def readMiddle (cur : SataInode) : ℕ → ℤ → Disk → Option (List UInt8 × Disk)
  | 0, _, d => some ([], d)
  | n + 1, i, d => do
    let dataIndex ← cur.block i
    let (bytes, d) ← getData dataIndex 0 BLOCK_SIZE d
    let (rest, d) ← readMiddle cur n (i + 1) d
    return (bytes ++ rest, d)

/-- The transfer of `read_sata_wrapper`. -/
def readBlocks (cur : SataInode) (fPos count : ℤ) (d : Disk) : Option (List UInt8 × Disk) := do
  let first := fPos.tdiv BLOCK_SIZE
  let last := (toInt (fPos + count)).tdiv BLOCK_SIZE
  let firstIndex ← cur.block first
  if first = last then getData firstIndex (fPos.tmod BLOCK_SIZE) count d
  else
    let (head, d) ← getData firstIndex (fPos.tmod BLOCK_SIZE) (BLOCK_SIZE - fPos.tmod BLOCK_SIZE) d
    let (middle, d) ← readMiddle cur (last - 1 - first).toNat (first + 1) d
    let lastIndex ← cur.block last
    let (tail, d) ← getData lastIndex 0 ((toInt (fPos + count)).tmod BLOCK_SIZE) d
    return (head ++ middle ++ tail, d)

/-- `read_sata_wrapper`: what it returns, the characters that it stores, and the state. -/
def readSataWrapper (s : SataFs) (fd : SataFile) (count : ℤ) :
    Option (ℤ × List UInt8 × SataFile × SataFs) := do
  let (cur, s) := s.getInode fd.inode
  if fd.fPos = cur.fileLen then return (0, [], fd, s)
  else
    let count := if cur.fileLen ≤ toInt (fd.fPos + count) then toInt (cur.fileLen - fd.fPos)
      else count
    let (bytes, d) ← readBlocks cur fd.fPos count s.disk
    return (count, bytes, { fd with fPos := toInt (fd.fPos + count) }, { s with disk := d })

/-- `i_data[block_count++] = data_index`. -/
def SataInode.addBlock (cur : SataInode) (dataIndex : ℕ) : Option SataInode :=
  if 0 ≤ cur.blockCount ∧ cur.blockCount < dataCount then
    some { cur with
      iData := Function.update cur.iData cur.blockCount.toNat dataIndex
      blockCount := cur.blockCount + 1 }
  else none

/-- The loop of `write_sata_wrapper` that makes `n` new blocks.  Without a free block there is
a store in front of the bitmap. -/
def newBlocks : ℕ → SataInode → Disk → Option (SataInode × Disk)
  | 0, cur, d => some (cur, d)
  | n + 1, cur, d => do
    let (free, d) := getFreeData d
    let dataIndex ← free
    let d := setDataBitmap dataIndex d
    let cur ← cur.addBlock dataIndex
    newBlocks n cur d

/-- The loop of `write_sata_wrapper` over `n` whole blocks. -/
def writeMiddle (cur : SataInode) (buf : List UInt8) : ℕ → ℤ → ℕ → Disk → Option Disk
  | 0, _, _, d => some d
  | n + 1, i, pos, d => do
    let dataIndex ← cur.block i
    let d ← writeData dataIndex buf pos 0 BLOCK_SIZE d
    writeMiddle cur buf n (i + 1) (pos + BLOCK_SIZE) d

/-- The transfer of `write_sata_wrapper`. -/
def writeBlocks (cur : SataInode) (buf : List UInt8) (fPos count : ℤ) (d : Disk) : Option Disk := do
  let first := fPos.tdiv BLOCK_SIZE
  let last := (toInt (fPos + count)).tdiv BLOCK_SIZE
  let firstIndex ← cur.block first
  if first = last then writeData firstIndex buf 0 (fPos.tmod BLOCK_SIZE) count d
  else
    let room := BLOCK_SIZE - fPos.tmod BLOCK_SIZE
    let d ← writeData firstIndex buf 0 (fPos.tmod BLOCK_SIZE) room d
    let n := (last - 1 - first).toNat
    let d ← writeMiddle cur buf n (first + 1) room.toNat d
    let lastIndex ← cur.block last
    writeData lastIndex buf (room.toNat + n * BLOCK_SIZE) 0
      ((toInt (fPos + count)).tmod BLOCK_SIZE) d

/-- `write_sata_wrapper`: what it returns, and the state. -/
def writeSataWrapper (s : SataFs) (fd : SataFile) (buf : List UInt8) (count : ℤ) :
    Option (ℤ × SataFile × SataFs) := do
  let (cur, s) := s.getInode fd.inode
  let last := (toInt (fd.fPos + count)).tdiv BLOCK_SIZE
  let newBlockCount := last - (cur.blockCount - 1)
  let (cur, d) ← newBlocks newBlockCount.toNat cur s.disk
  let d ← writeBlocks cur buf fd.fPos count d
  let fPos := toInt (fd.fPos + count)
  let cur := if cur.fileLen ≤ fPos then { cur with fileLen := fPos } else cur
  let s := { s with disk := d }.writeInode fd.inode cur
  let (_, s) := s.getInode fd.inode
  return (count, { fd with fPos := fPos }, s)

/-! ## Reads -/

section transfer

variable {x : SataInode} {d d' d'' : Disk} {i j n o p : ℕ}

/-- The sector of a block. -/
def SataInode.sectorOf (x : SataInode) (k : ℕ) : ℕ := DATA_START_INDEX + x.iData k

/-- A byte of a file. -/
def SataInode.byte (x : SataInode) (d : Disk) (k : ℕ) : UInt8 := d.fileByte BLOCK_SIZE x.sectorOf k

theorem SataInode.byte_congr (x : SataInode) (h : d'.sector = d.sector) : x.byte d' = x.byte d := by
  funext k
  exact Drive.fileByte_congr (congrFun h _)

theorem SataInode.block_natCast (x : SataInode) (h : i < dataCount) :
    x.block i = some (x.iData i) := by
  rw [SataInode.block, if_pos ⟨Int.natCast_nonneg i, by exact_mod_cast h⟩, Int.toNat_natCast]

theorem getData_eq (h : o + n ≤ BLOCK_SIZE) :
    getData (x.iData i) o n d =
      some (slice (x.byte d) (i * BLOCK_SIZE + o) n, readSata d (x.sectorOf i)) := by
  have hlen : BLOCK_SIZE ≤ commonBufLength := by decide
  have hslice : slice (readSata d (x.sectorOf i)).buf o n =
      slice (x.byte d) (i * BLOCK_SIZE + o) n := Drive.slice_load h
  rw [getData, if_pos ⟨Int.natCast_nonneg o, Int.natCast_nonneg n, by omega⟩, Int.toNat_natCast,
    Int.toNat_natCast, ← hslice]
  rfl

/-- The loop over whole blocks. -/
theorem readMiddle_eq (x : SataInode) (n i : ℕ) (d : Disk) (h : i + n ≤ dataCount) :
    ∃ d', readMiddle x n i d = some (slice (x.byte d) (i * BLOCK_SIZE) (n * BLOCK_SIZE), d') ∧
      d'.sector = d.sector := by
  induction n generalizing i d with
  | zero =>
    rw [Nat.zero_mul]
    exact ⟨d, rfl, rfl⟩
  | succ n ih =>
    have hdata := getData_eq (x := x) (d := d) (i := i) (o := 0) (n := BLOCK_SIZE) (by omega)
    rw [Nat.add_zero, Nat.cast_zero] at hdata
    obtain ⟨d', hrest, hsector⟩ := ih (i + 1) (readSata d (x.sectorOf i)) (by omega)
    rw [x.byte_congr (show (readSata d (x.sectorOf i)).sector = d.sector from rfl),
      Nat.cast_add_one] at hrest
    refine ⟨d', ?_, hsector⟩
    have hsplit : slice (x.byte d) (i * BLOCK_SIZE) ((n + 1) * BLOCK_SIZE) =
        slice (x.byte d) (i * BLOCK_SIZE) BLOCK_SIZE ++
          slice (x.byte d) ((i + 1) * BLOCK_SIZE) (n * BLOCK_SIZE) := by
      rw [Nat.succ_mul n, Nat.add_comm (n * BLOCK_SIZE), slice_add, Nat.succ_mul i]
    rw [readMiddle, x.block_natCast (by omega), Option.bind_eq_bind, Option.bind_some, hdata,
      Option.bind_eq_bind, Option.bind_some, hsplit]
    dsimp only
    rw [hrest, Option.bind_some]
    rfl

/-- The place of a byte in its block. -/
theorem div_mul_add_mod (p : ℕ) : p / BLOCK_SIZE * BLOCK_SIZE + p % BLOCK_SIZE = p :=
  Nat.div_add_mod' p BLOCK_SIZE

/-- A transfer out of the blocks of a file. -/
theorem readBlocks_eq (x : SataInode) (p n : ℕ) (d : Disk) (h : p + n < dataCount * BLOCK_SIZE) :
    ∃ d', readBlocks x p n d = some (slice (x.byte d) p n, d') ∧ d'.sector = d.sector := by
  have hpos : 0 < BLOCK_SIZE := by decide
  have hbound : dataCount * BLOCK_SIZE < 2 ^ 31 := by decide
  have hsum : toInt ((p : ℤ) + n) = (p + n : ℕ) := by
    rw [Nat.cast_add]
    exact toInt_of_range (by omega) (by omega)
  have hlastlt : (p + n) / BLOCK_SIZE < dataCount := Nat.div_lt_of_lt_mul (by rwa [Nat.mul_comm])
  have hle : p / BLOCK_SIZE ≤ (p + n) / BLOCK_SIZE := Nat.div_le_div_right (Nat.le_add_right p n)
  have hfirst := x.block_natCast (i := p / BLOCK_SIZE) (by omega)
  have hlast := x.block_natCast (i := (p + n) / BLOCK_SIZE) hlastlt
  have hmod := Nat.mod_lt p hpos
  have hmodn := Nat.mod_lt (p + n) hpos
  have hp := div_mul_add_mod p
  rw [readBlocks, hsum, ← Int.ofNat_tdiv, ← Int.ofNat_tdiv, ← Int.ofNat_tmod, ← Int.ofNat_tmod, hfirst,
    hlast]
  simp only [Option.bind_eq_bind, Option.bind_some]
  by_cases heq : p / BLOCK_SIZE = (p + n) / BLOCK_SIZE
  · have hpn := div_mul_add_mod (p + n)
    rw [← heq] at hpn
    rw [if_pos (congrArg _ heq), getData_eq (by omega), hp]
    exact ⟨_, rfl, rfl⟩
  · have hlt : p / BLOCK_SIZE + 1 ≤ (p + n) / BLOCK_SIZE := Nat.lt_of_le_of_ne hle heq
    obtain ⟨k, hk⟩ := Nat.exists_eq_add_of_le hlt
    have hroom : ((BLOCK_SIZE : ℤ) - (p % BLOCK_SIZE : ℕ)) = (BLOCK_SIZE - p % BLOCK_SIZE : ℕ) := by
      omega
    have hcount : (((p + n) / BLOCK_SIZE : ℕ) - 1 - (p / BLOCK_SIZE : ℕ) : ℤ).toNat = k := by omega
    have hhead := getData_eq (x := x) (d := d) (i := p / BLOCK_SIZE) (o := p % BLOCK_SIZE)
      (n := BLOCK_SIZE - p % BLOCK_SIZE) (by omega)
    obtain ⟨d₁, hmiddle, hsector⟩ := readMiddle_eq x k (p / BLOCK_SIZE + 1)
      (readSata d (x.sectorOf (p / BLOCK_SIZE))) (by omega)
    have htail := getData_eq (x := x) (d := d₁) (i := (p + n) / BLOCK_SIZE) (o := 0)
      (n := (p + n) % BLOCK_SIZE) (by omega)
    have hsector' : d₁.sector = d.sector := hsector
    rw [x.byte_congr (show (readSata d (x.sectorOf (p / BLOCK_SIZE))).sector = d.sector from rfl)]
      at hmiddle
    rw [x.byte_congr hsector', Nat.add_zero, Nat.cast_zero] at htail
    rw [Nat.cast_add_one] at hmiddle
    rw [hp] at hhead
    rw [if_neg (by omega), hroom, hhead, Option.bind_some]
    dsimp only
    rw [hcount, hmiddle, Option.bind_some]
    dsimp only
    rw [htail, Option.bind_some, slice_parts hpos hk]
    exact ⟨_, rfl, hsector'⟩

/-- `read_sata_wrapper` returns bytes of the file. -/
theorem readSataWrapper_eq {s : SataFs} {L : ℕ} {count : ℤ} (hlen : (s.inode i).fileLen = L)
    (hp : p ≤ L) (hL : L < dataCount * BLOCK_SIZE) (hcount : 0 ≤ count)
    (hsum : p = L ∨ p + count < 2 ^ 31) :
    ∃ d', readSataWrapper s ⟨i, p⟩ count =
        some (((min count.toNat (L - p) : ℕ) : ℤ),
          slice ((s.inode i).byte s.disk) p (min count.toNat (L - p)),
          ⟨i, ((p + min count.toNat (L - p) : ℕ) : ℤ)⟩, { s with disk := d' }) ∧
      d'.sector = s.disk.sector := by
  have hbound : dataCount * BLOCK_SIZE < 2 ^ 31 := by decide
  rw [readSataWrapper, SataFs.getInode]
  dsimp only
  by_cases heq : p = L
  · subst heq
    rw [if_pos hlen.symm, Nat.sub_self, Nat.min_zero]
    exact ⟨_, rfl, rfl⟩
  · have hclamp : (if (s.inode i).fileLen ≤ toInt (p + count) then toInt ((s.inode i).fileLen - p)
        else count) = (min count.toNat (L - p) : ℕ) := by
      rw [hlen, toInt_of_range (by omega) (by omega), toInt_of_range (by omega) (by omega)]
      split <;> omega
    obtain ⟨d', hread, hsector⟩ := readBlocks_eq (s.inode i) p (min count.toNat (L - p))
      (readSata s.disk (INODE_START_INDEX + i / 4)) (by omega)
    have hpos : toInt (p + (min count.toNat (L - p) : ℕ)) = (p + min count.toNat (L - p) : ℕ) := by
      rw [toInt_of_range (by omega) (by omega), Nat.cast_add]
    rw [(s.inode i).byte_congr (show (readSata s.disk (INODE_START_INDEX + i / 4)).sector =
      s.disk.sector from rfl)] at hread
    rw [if_neg (by omega), hclamp, hread, Option.bind_eq_bind, Option.bind_some, hpos]
    exact ⟨d', rfl, hsector⟩

/-- A block behind `INT_MAX` is not one of the file. -/
theorem readBlocks_none {count : ℤ} (x : SataInode) (d : Disk) (hp : p < dataCount * BLOCK_SIZE)
    (hlt : count < 2 ^ 31) (hsum : 2 ^ 31 ≤ p + count) : readBlocks x p count d = none := by
  have hbound : dataCount * BLOCK_SIZE = 7680 := by decide
  have hwrap : toInt (p + count) = -((2 ^ 32 - (p + count)).toNat : ℤ) := by
    rw [toInt, Int.bmod_def]
    omega
  have hneg : (toInt (p + count)).tdiv BLOCK_SIZE < 0 := by
    have hdiv : 1 ≤ (2 ^ 32 - (p + count)).toNat / BLOCK_SIZE :=
      (Nat.one_le_div_iff (by decide)).2 (by rw [show BLOCK_SIZE = 512 from rfl]; omega)
    rw [hwrap, Int.neg_tdiv, ← Int.ofNat_tdiv]
    omega
  have hne : (p : ℤ).tdiv BLOCK_SIZE ≠ (toInt (p + count)).tdiv BLOCK_SIZE := by
    have hfirst : 0 ≤ (p : ℤ).tdiv BLOCK_SIZE := Int.natCast_nonneg (p / BLOCK_SIZE)
    omega
  have hlast : x.block ((toInt (p + count)).tdiv BLOCK_SIZE) = none := if_neg (by omega)
  rw [readBlocks, hlast]
  cases x.block ((p : ℤ).tdiv BLOCK_SIZE) with
  | none => rfl
  | some firstIndex =>
    rw [Option.bind_eq_bind, Option.bind_some, if_neg hne]
    cases getData firstIndex ((p : ℤ).tmod BLOCK_SIZE) (BLOCK_SIZE - (p : ℤ).tmod BLOCK_SIZE) d with
    | none => rfl
    | some head =>
      rw [Option.bind_eq_bind, Option.bind_some]
      dsimp only
      cases readMiddle x _ _ head.2 <;> rfl

theorem readSataWrapper_none {s : SataFs} {L : ℕ} {count : ℤ} (hlen : (s.inode i).fileLen = L)
    (hp : p < L) (hL : L < dataCount * BLOCK_SIZE) (hlt : count < 2 ^ 31)
    (hsum : 2 ^ 31 ≤ p + count) : readSataWrapper s ⟨i, p⟩ count = none := by
  have hbound : dataCount * BLOCK_SIZE < 2 ^ 31 := by decide
  have hwrap : toInt (p + count) = p + count - 2 ^ 32 := by
    rw [toInt, Int.bmod_def]
    omega
  rw [readSataWrapper, SataFs.getInode]
  dsimp only
  rw [if_neg (by omega), if_neg (by omega), readBlocks_none _ _ (hp.trans hL) hlt hsum]
  rfl

/-! ## Writes -/

/-- The bytes `l` are written to the place `p` of a file, in its first `n` blocks. -/
structure Writes (x : SataInode) (n p : ℕ) (l : List UInt8) (d d' : Disk) : Prop where
  other : ∀ m, (∀ k < n, m ≠ x.sectorOf k) → d'.sector m = d.sector m
  byte : ∀ k, k / BLOCK_SIZE < n → x.byte d' k = splice (x.byte d) p l k

/-- The first `n` blocks are different ones. -/
def SataInode.Distinct (x : SataInode) (n : ℕ) : Prop :=
  ∀ j < n, ∀ i < n, x.sectorOf j = x.sectorOf i → j = i

theorem Writes.nil (x : SataInode) (n p : ℕ) (d : Disk) : Writes x n p [] d d :=
  ⟨fun _ _ => rfl, fun k _ => by rw [splice_nil]⟩

theorem Writes.trans {l r : List UInt8} {q : ℕ} (h : Writes x n p l d d')
    (h' : Writes x n q r d' d'') (hq : p + l.length = q) : Writes x n p (l ++ r) d d'' := by
  subst hq
  refine ⟨fun m hm => (h'.other m hm).trans (h.other m hm), fun k hk => ?_⟩
  rw [h'.byte k hk, splice_congr (h.byte k hk), splice_splice]

/-- A write to one block. -/
theorem writeData_writes (hx : x.Distinct n) (hi : i < n) {b : List UInt8} {q c : ℕ}
    (hoff : o + c ≤ BLOCK_SIZE) (hpos : q + c ≤ b.length) (d : Disk) :
    ∃ d', writeData (x.iData i) b q o c d = some d' ∧
      Writes x n (i * BLOCK_SIZE + o) ((b.drop q).take c) d d' := by
  have hlen : BLOCK_SIZE ≤ commonBufLength := by decide
  have hc : ((b.drop q).take c).length = c := by
    rw [List.length_take, List.length_drop]
    omega
  refine ⟨d.patch BLOCK_SIZE (x.sectorOf i) o ((b.drop q).take c), ?_, fun m hm => ?_,
    fun k hk => ?_⟩
  · rw [writeData, if_pos ⟨Int.natCast_nonneg o, Int.natCast_nonneg c, by omega, by omega⟩,
      Int.toNat_natCast, Int.toNat_natCast]
    rfl
  · exact Drive.sector_patch_of_ne (hm i hi)
  · exact Drive.fileByte_patch (by decide) (fun j hj => hx j hj i hi) (by omega) hk

/-- The loop over whole blocks. -/
theorem writeMiddle_writes (hx : x.Distinct n) (hn : n ≤ dataCount) {b : List UInt8} (k : ℕ)
    {i q : ℕ} (hi : i + k ≤ n) (hpos : q + k * BLOCK_SIZE ≤ b.length) (d : Disk) :
    ∃ d', writeMiddle x b k i q d = some d' ∧
      Writes x n (i * BLOCK_SIZE) ((b.drop q).take (k * BLOCK_SIZE)) d d' := by
  induction k generalizing i q d with
  | zero =>
    rw [Nat.zero_mul]
    exact ⟨d, rfl, Writes.nil x n _ d⟩
  | succ k ih =>
    rw [Nat.succ_mul] at hpos
    obtain ⟨d₁, hdata, hwrites⟩ := writeData_writes (o := 0) (c := BLOCK_SIZE) hx
      (show i < n by omega) (by omega) (show q + BLOCK_SIZE ≤ b.length by omega) d
    obtain ⟨d₂, hrest, hwrites'⟩ := ih (i := i + 1) (q := q + BLOCK_SIZE) (by omega) (by omega) d₁
    have hlen : ((b.drop q).take BLOCK_SIZE).length = BLOCK_SIZE := by
      rw [List.length_take, List.length_drop]
      omega
    have hsplit : (b.drop q).take ((k + 1) * BLOCK_SIZE) = (b.drop q).take BLOCK_SIZE ++
        (b.drop (q + BLOCK_SIZE)).take (k * BLOCK_SIZE) := by
      rw [Nat.succ_mul, Nat.add_comm (k * BLOCK_SIZE), List.take_add, List.drop_drop]
    rw [Nat.add_zero] at hwrites
    rw [Nat.cast_zero] at hdata
    rw [Nat.cast_add_one] at hrest
    refine ⟨d₂, ?_, ?_⟩
    · rw [writeMiddle, x.block_natCast (by omega), Option.bind_eq_bind, Option.bind_some, hdata,
        Option.bind_eq_bind, Option.bind_some, hrest]
    · rw [hsplit]
      exact hwrites.trans hwrites' (by rw [hlen, ← Nat.succ_mul])

/-- A transfer into the blocks of a file. -/
theorem writeBlocks_writes (hx : x.Distinct n) (hn : n ≤ dataCount) {b : List UInt8} (p : ℕ)
    (h : (p + b.length) / BLOCK_SIZE < n) (d : Disk) :
    ∃ d', writeBlocks x b p b.length d = some d' ∧ Writes x n p b d d' := by
  have hpos : 0 < BLOCK_SIZE := by decide
  have hbound : dataCount * BLOCK_SIZE < 2 ^ 31 := by decide
  have hlt : p + b.length < dataCount * BLOCK_SIZE :=
    (Nat.div_lt_iff_lt_mul hpos).1 (h.trans_le hn)
  have hsum : toInt ((p : ℤ) + b.length) = (p + b.length : ℕ) := by
    rw [Nat.cast_add]
    exact toInt_of_range (by omega) (by omega)
  have hle : p / BLOCK_SIZE ≤ (p + b.length) / BLOCK_SIZE :=
    Nat.div_le_div_right (Nat.le_add_right p b.length)
  have hfirst := x.block_natCast (i := p / BLOCK_SIZE) (by omega)
  have hlast := x.block_natCast (i := (p + b.length) / BLOCK_SIZE) (by omega)
  have hmod := Nat.mod_lt p hpos
  have hmodn := Nat.mod_lt (p + b.length) hpos
  have hp := div_mul_add_mod p
  rw [writeBlocks, hsum, ← Int.ofNat_tdiv, ← Int.ofNat_tdiv, ← Int.ofNat_tmod, ← Int.ofNat_tmod,
    hfirst, hlast]
  simp only [Option.bind_eq_bind, Option.bind_some]
  by_cases heq : p / BLOCK_SIZE = (p + b.length) / BLOCK_SIZE
  · have hpn := div_mul_add_mod (p + b.length)
    rw [← heq] at hpn
    obtain ⟨d', hdata, hwrites⟩ := writeData_writes (o := p % BLOCK_SIZE) (q := 0)
      (c := b.length) (b := b) hx (show p / BLOCK_SIZE < n by omega) (by omega) (by omega) d
    rw [hp, List.drop_zero, List.take_length] at hwrites
    exact ⟨d', (if_pos (congrArg _ heq)).trans hdata, hwrites⟩
  · obtain ⟨k, hk⟩ := Nat.exists_eq_add_of_le (Nat.lt_of_le_of_ne hle heq)
    obtain ⟨hhead, hmiddle, hlen⟩ := transfer_parts hpos hk
    have hroom : ((BLOCK_SIZE : ℤ) - (p % BLOCK_SIZE : ℕ)) = (BLOCK_SIZE - p % BLOCK_SIZE : ℕ) := by
      omega
    have hcount : (((p + b.length) / BLOCK_SIZE : ℕ) - 1 - (p / BLOCK_SIZE : ℕ) : ℤ).toNat = k := by
      omega
    obtain ⟨d₁, hdata₁, hwrites₁⟩ := writeData_writes (o := p % BLOCK_SIZE) (q := 0)
      (c := BLOCK_SIZE - p % BLOCK_SIZE) (b := b) hx (show p / BLOCK_SIZE < n by omega)
      (by omega) (by omega) d
    obtain ⟨d₂, hdata₂, hwrites₂⟩ := writeMiddle_writes (b := b) hx hn k
      (i := p / BLOCK_SIZE + 1) (q := BLOCK_SIZE - p % BLOCK_SIZE) (by omega) (by omega) d₁
    obtain ⟨d₃, hdata₃, hwrites₃⟩ := writeData_writes (o := 0)
      (q := BLOCK_SIZE - p % BLOCK_SIZE + k * BLOCK_SIZE) (c := (p + b.length) % BLOCK_SIZE)
      (b := b) hx h (by omega) (by omega) d₂
    rw [hp, List.drop_zero] at hwrites₁
    rw [Nat.cast_add_one] at hdata₂
    rw [Nat.cast_zero] at hdata₃
    refine ⟨d₃, ?_, ?_⟩
    · rw [if_neg (by omega), hroom, hdata₁, Option.bind_some, hcount, Int.toNat_natCast, hdata₂,
        Option.bind_some, hdata₃]
    · have hlen₁ : (b.take (BLOCK_SIZE - p % BLOCK_SIZE)).length = BLOCK_SIZE - p % BLOCK_SIZE := by
        rw [List.length_take]
        omega
      have hlen₂ : ((b.drop (BLOCK_SIZE - p % BLOCK_SIZE)).take (k * BLOCK_SIZE)).length =
          k * BLOCK_SIZE := by
        rw [List.length_take, List.length_drop]
        omega
      have hparts : b = b.take (BLOCK_SIZE - p % BLOCK_SIZE) ++
          ((b.drop (BLOCK_SIZE - p % BLOCK_SIZE)).take (k * BLOCK_SIZE) ++
            (b.drop (BLOCK_SIZE - p % BLOCK_SIZE + k * BLOCK_SIZE)).take
              ((p + b.length) % BLOCK_SIZE)) := by
        rw [← List.append_assoc, ← List.take_add, ← List.take_add, hlen, List.take_length]
      rw [Nat.add_zero] at hwrites₃
      have hall := hwrites₁.trans (hwrites₂.trans hwrites₃ (by rw [hlen₂, hmiddle]))
        (by rw [hlen₁, hhead])
      rwa [← hparts] at hall

end transfer

/-! ## New blocks -/

section alloc

variable {inode : ℕ → SataInode} {x : SataInode} {d : Disk} {i id : ℕ}

def dataBitmap (d : Disk) : List UInt8 := slice (d.sector DATA_BITMAP_START_INDEX) 0 BLOCK_SIZE

def freeBlocks (d : Disk) : ℕ := (dataBitmap d).count 0

/-- The blocks of the files are in use, and belong to one file each. -/
structure Blocks (inode : ℕ → SataInode) (d : Disk) : Prop where
  used : ∀ i k : ℕ, k < (inode i).blockCount →
    ∃ b, (dataBitmap d)[(inode i).iData k]? = some b ∧ b ≠ 0
  distinct : ∀ i j k l : ℕ, k < (inode i).blockCount → l < (inode j).blockCount →
    (inode i).iData k = (inode j).iData l → i = j ∧ k = l

theorem dataBitmap_congr {d' : Disk}
    (h : d'.sector DATA_BITMAP_START_INDEX = d.sector DATA_BITMAP_START_INDEX) :
    dataBitmap d' = dataBitmap d := congrArg (slice · 0 BLOCK_SIZE) h

theorem Blocks.congr {d' : Disk} (h : Blocks inode d)
    (heq : d'.sector DATA_BITMAP_START_INDEX = d.sector DATA_BITMAP_START_INDEX) :
    Blocks inode d' := by
  refine ⟨fun i k hk => ?_, h.distinct⟩
  rw [dataBitmap_congr heq]
  exact h.used i k hk

theorem Blocks.congr_inode {inode' : ℕ → SataInode} (h : Blocks inode d)
    (hcount : ∀ j, (inode' j).blockCount = (inode j).blockCount)
    (hdata : ∀ j, (inode' j).iData = (inode j).iData) : Blocks inode' d := by
  refine ⟨fun j k hk => ?_, fun j j' k k' hk hk' heq => ?_⟩
  · rw [hdata]
    exact h.used j k (hcount j ▸ hk)
  · rw [hdata, hdata] at heq
    exact h.distinct j j' k k' (hcount j ▸ hk) (hcount j' ▸ hk') heq

/-- The bitmap in `common_buf`. -/
theorem slice_readSata (d : Disk) :
    slice (readSata d DATA_BITMAP_START_INDEX).buf 0 BLOCK_SIZE = dataBitmap d :=
  slice_congr fun k hk => if_pos (by rwa [Nat.zero_add])

theorem getFreeData_eq (d : Disk) : getFreeData d =
    ((dataBitmap d).findIdx? fun x => x = 0, readSata d DATA_BITMAP_START_INDEX) := by
  rw [getFreeData, slice_readSata]

theorem setDataBitmap_eq (id : ℕ) (d : Disk) : setDataBitmap id d =
    d.patch BLOCK_SIZE DATA_BITMAP_START_INDEX 0 ((dataBitmap d).set id 1) := by
  rw [setDataBitmap, setBitmap, slice_readSata]
  rfl

theorem dataBitmap_setDataBitmap (id : ℕ) (d : Disk) :
    dataBitmap (setDataBitmap id d) = (dataBitmap d).set id 1 := by
  have hlen : ((dataBitmap d).set id 1).length = BLOCK_SIZE := by
    rw [List.length_set, dataBitmap, length_slice]
  have hslice := Drive.slice_patch (d := d) (S := BLOCK_SIZE) (i := DATA_BITMAP_START_INDEX)
    (l := (dataBitmap d).set id 1) (show 0 + ((dataBitmap d).set id 1).length ≤ BLOCK_SIZE by omega)
  rw [hlen] at hslice
  rw [setDataBitmap_eq, dataBitmap, hslice]

theorem sector_setDataBitmap {m : ℕ} (hm : m ≠ DATA_BITMAP_START_INDEX) (id : ℕ) (d : Disk) :
    (setDataBitmap id d).sector m = d.sector m := sector_setBitmap hm

theorem freeBlocks_setDataBitmap (hfree : (dataBitmap d)[id]? = some 0) :
    freeBlocks (setDataBitmap id d) + 1 = freeBlocks d := by
  obtain ⟨hlt, hget⟩ := List.getElem?_eq_some_iff.1 hfree
  have hpos : 0 < (dataBitmap d).count 0 := List.count_pos_iff.2 (hget ▸ List.getElem_mem hlt)
  rw [freeBlocks, dataBitmap_setDataBitmap, List.count_set hlt, hget, freeBlocks,
    if_pos (by decide), if_neg (by decide)]
  omega

/-- A new block belongs to no other file. -/
theorem Blocks.addBlock (h : Blocks inode d) (hx : inode i = x)
    (hfree : (dataBitmap d)[id]? = some 0) {y : SataInode} (hy : x.addBlock id = some y) :
    Blocks (Function.update inode i y) (setDataBitmap id d) := by
  obtain ⟨hlt, hget⟩ := List.getElem?_eq_some_iff.1 hfree
  rw [SataInode.addBlock] at hy
  split at hy
  case isFalse => cases hy
  case isTrue hcount =>
  have hy := Option.some.inj hy
  have hnew : ∀ j k : ℕ, k < (inode j).blockCount → (inode j).iData k ≠ id := by
    intro j k hk heq
    obtain ⟨b, hb, hne⟩ := h.used j k hk
    rw [heq, hfree] at hb
    exact hne (Option.some.inj hb).symm
  subst hx
  -- a block is the new one, or one that was there
  have hcases : ∀ j k : ℕ, k < (Function.update inode i y j).blockCount →
      (j = i ∧ k = (inode i).blockCount.toNat ∧ (Function.update inode i y j).iData k = id) ∨
        (k < (inode j).blockCount ∧ (Function.update inode i y j).iData k = (inode j).iData k) := by
    intro j k hk
    by_cases hj : j = i
    · subst hj
      rw [Function.update_self] at hk ⊢
      rw [← hy] at hk ⊢
      dsimp only at hk ⊢
      by_cases hlast : k = (inode j).blockCount.toNat
      · exact .inl ⟨rfl, hlast, by rw [hlast, Function.update_self]⟩
      · exact .inr ⟨by omega, Function.update_of_ne hlast ..⟩
    · rw [Function.update_of_ne hj] at hk ⊢
      exact .inr ⟨hk, rfl⟩
  constructor
  · intro j k hk
    rw [dataBitmap_setDataBitmap]
    rcases hcases j k hk with ⟨-, -, hid⟩ | ⟨hk, hold⟩
    · rw [hid, List.getElem?_set_self hlt]
      exact ⟨1, rfl, by decide⟩
    · rw [hold, List.getElem?_set_ne (hnew j k hk).symm]
      exact h.used j k hk
  · intro j j' k k' hk hk' heq
    rcases hcases j k hk with ⟨rfl, rfl, hid⟩ | ⟨hold_lt, hold⟩
    · rcases hcases j' k' hk' with ⟨rfl, rfl, -⟩ | ⟨hk', hold'⟩
      · exact ⟨rfl, rfl⟩
      · exact absurd (hold'.symm.trans (heq.symm.trans hid)) (hnew j' k' hk')
    · rcases hcases j' k' hk' with ⟨rfl, rfl, hid⟩ | ⟨hk', hold'⟩
      · exact absurd (hold.symm.trans (heq.trans hid)) (hnew j k hold_lt)
      · exact h.distinct j j' k k' hold_lt hk' (hold.symm.trans (heq.trans hold'))

/-- The new blocks of a file belong to no other one. -/
theorem newBlocks_eq (h : Blocks inode d) (hx : inode i = x) {n : ℕ} (hcount : 0 ≤ x.blockCount)
    (hn : x.blockCount + n ≤ dataCount) (hfree : n ≤ freeBlocks d) :
    ∃ y d', newBlocks n x d = some (y, d') ∧ Blocks (Function.update inode i y) d' ∧
      y.blockCount = x.blockCount + n ∧ y.fileLen = x.fileLen ∧
      (∀ k : ℕ, k < x.blockCount → y.iData k = x.iData k) ∧
      ∀ m, m ≠ DATA_BITMAP_START_INDEX → d'.sector m = d.sector m := by
  induction n generalizing inode x d with
  | zero =>
    refine ⟨x, d, rfl, ?_, (add_zero _).symm, rfl, fun _ _ => rfl, fun _ _ => rfl⟩
    rwa [← hx, Function.update_eq_self]
  | succ n ih =>
    push_cast at hn
    have hmem : (0 : UInt8) ∈ dataBitmap d := List.count_pos_iff.1 (by rw [← freeBlocks]; omega)
    obtain ⟨id, hid⟩ : ∃ id, (dataBitmap d).findIdx? (fun x => x = 0) = some id := by
      rw [← Option.ne_none_iff_exists']
      intro hnone
      exact absurd (List.findIdx?_eq_none_iff.1 hnone 0 hmem) (by decide)
    obtain ⟨hlt, hzero, -⟩ := List.findIdx?_eq_some_iff_getElem.1 hid
    have hget : (dataBitmap d)[id]? = some 0 := by
      rw [List.getElem?_eq_getElem hlt, of_decide_eq_true hzero]
    obtain ⟨d₁, hd₁⟩ : ∃ d₁, d₁ = readSata d DATA_BITMAP_START_INDEX := ⟨_, rfl⟩
    have hsector₁ : d₁.sector = d.sector := by rw [hd₁]; rfl
    have hbitmap₁ := dataBitmap_congr (congrFun hsector₁ DATA_BITMAP_START_INDEX)
    have hadd : x.addBlock id = some { x with
        iData := Function.update x.iData x.blockCount.toNat id
        blockCount := x.blockCount + 1 } := if_pos ⟨hcount, by omega⟩
    have hfree₁ : freeBlocks d₁ = freeBlocks d := by rw [freeBlocks, hbitmap₁, ← freeBlocks]
    have hget₁ : (dataBitmap d₁)[id]? = some 0 := by
      rw [hbitmap₁]
      exact hget
    have hfree' := freeBlocks_setDataBitmap hget₁
    have hblocks := (h.congr (congrFun hsector₁ _)).addBlock hx hget₁ hadd
    generalize hy : ({ x with
        iData := Function.update x.iData x.blockCount.toNat id
        blockCount := x.blockCount + 1 } : SataInode) = y at hadd hblocks
    obtain ⟨hcount', hlen', hdata'⟩ : y.blockCount = x.blockCount + 1 ∧ y.fileLen = x.fileLen ∧
        ∀ k : ℕ, k < x.blockCount → y.iData k = x.iData k := by
      subst hy
      exact ⟨rfl, rfl, fun k hk => Function.update_of_ne (by omega) ..⟩
    obtain ⟨z, d', hloop, hblocks', hcount'', hlen'', hdata'', hsector⟩ :=
      ih hblocks (Function.update_self i y inode) (by omega) (by omega) (by omega)
    rw [Function.update_idem] at hblocks'
    refine ⟨z, d', ?_, hblocks', ?_, hlen''.trans hlen', fun k hk => ?_, fun m hm => ?_⟩
    · rw [newBlocks, getFreeData_eq, hid, ← hd₁]
      dsimp only
      rw [Option.bind_eq_bind, Option.bind_some, hadd, Option.bind_eq_bind, Option.bind_some, hloop]
    · rw [hcount'', hcount']
      push_cast
      omega
    · rw [hdata'' k (by omega), hdata' k hk]
    · rw [hsector m hm, sector_setDataBitmap hm, hsector₁]

/-- What `write_sata_wrapper` does to the file `i`, which had `n` bytes, and to the others. -/
structure SataFs.Wrote (s s' : SataFs) (i n p : ℕ) (buf : List UInt8) : Prop where
  blocks : Blocks s'.inode s'.disk
  other : ∀ j, j ≠ i → s'.inode j = s.inode j
  otherByte : ∀ j, j ≠ i → ∀ k : ℕ, (k / BLOCK_SIZE : ℕ) < (s.inode j).blockCount →
    (s.inode j).byte s'.disk k = (s.inode j).byte s.disk k
  fileLen : (s'.inode i).fileLen = max n (p + buf.length) 
  blockCount : (s'.inode i).blockCount = (max n (p + buf.length) / BLOCK_SIZE + 1 : ℕ)
  byte : ∀ k < max n (p + buf.length),
    (s'.inode i).byte s'.disk k = splice ((s.inode i).byte s.disk) p buf k

/-- `write_sata_wrapper` writes to its file. -/
theorem writeSataWrapper_wrote {s : SataFs} {n p : ℕ} {buf : List UInt8}
    (hblocks : Blocks s.inode s.disk) (hlen : (s.inode i).fileLen = n)
    (hcount : (s.inode i).blockCount = (n / BLOCK_SIZE + 1 : ℕ) ∨
      ((s.inode i).blockCount = 0 ∧ n = 0))
    (hn : n < dataCount * BLOCK_SIZE) (hp : p ≤ n) (hfit : p + buf.length < dataCount * BLOCK_SIZE)
    (hfree : ((p + buf.length) / BLOCK_SIZE + 1 : ℕ) - (s.inode i).blockCount ≤ freeBlocks s.disk) :
    ∃ s', writeSataWrapper s ⟨i, p⟩ buf buf.length =
        some ((buf.length : ℤ), ⟨i, ((p + buf.length : ℕ) : ℤ)⟩, s') ∧ s.Wrote s' i n p buf := by
  have hbound : dataCount * BLOCK_SIZE < 2 ^ 31 := by decide
  have hpos : 0 < BLOCK_SIZE := by decide
  have hsum : toInt ((p : ℤ) + buf.length) = (p + buf.length : ℕ) := by
    rw [Nat.cast_add]
    exact toInt_of_range (by omega) (by omega)
  have hlast : (p + buf.length) / BLOCK_SIZE < dataCount := (Nat.div_lt_iff_lt_mul hpos).2 hfit
  have hend : n / BLOCK_SIZE < dataCount := (Nat.div_lt_iff_lt_mul hpos).2 hn
  have hmax : max n (p + buf.length) / BLOCK_SIZE =
      max (n / BLOCK_SIZE) ((p + buf.length) / BLOCK_SIZE) :=
    (show Monotone (· / BLOCK_SIZE) from fun _ _ h => Nat.div_le_div_right h).map_max
  obtain ⟨d₀, hd₀⟩ : ∃ d₀, d₀ = readSata s.disk (INODE_START_INDEX + i / 4) := ⟨_, rfl⟩
  have hsector₀ : d₀.sector = s.disk.sector := by rw [hd₀]; rfl
  have hfree₀ : freeBlocks d₀ = freeBlocks s.disk :=
    congrArg (List.count 0) (dataBitmap_congr (congrFun hsector₀ _))
  obtain ⟨last, hlastEq⟩ : ∃ last, (p + buf.length) / BLOCK_SIZE = last := ⟨_, rfl⟩
  have hzero : n = 0 → n / BLOCK_SIZE = 0 := by rintro rfl; exact Nat.zero_div _
  obtain ⟨blocks, hblocksEq⟩ : ∃ blocks, n / BLOCK_SIZE = blocks := ⟨_, rfl⟩
  rw [hblocksEq] at hcount hend hzero
  rw [hlastEq] at hlast hfree
  rw [hblocksEq, hlastEq] at hmax
  obtain ⟨y, d₁, hnew, hblocks₁, hcount₁, hlen₁, hdata₁, hsector₁⟩ := newBlocks_eq
    (n := ((last : ℤ) - ((s.inode i).blockCount - 1)).toNat)
    (hblocks.congr (congrFun hsector₀ _)) (show s.inode i = s.inode i from rfl) (by omega)
    (by omega) (by omega)
  have hcounty : y.blockCount = (max blocks last + 1 : ℕ) := by
    rw [hcount₁]
    omega
  have hdistinct : y.Distinct (max blocks last + 1) := by
    intro k hk l hl heq
    refine (hblocks₁.distinct i i k l ?_ ?_ ?_).2
    · rw [Function.update_self, hcounty]
      exact_mod_cast hk
    · rw [Function.update_self, hcounty]
      exact_mod_cast hl
    · rw [Function.update_self]
      exact Nat.add_left_cancel heq
  obtain ⟨d₂, hwrite, hwrites⟩ := writeBlocks_writes (b := buf) hdistinct (by omega) p
    (by omega) d₁
  obtain ⟨z, hz⟩ : ∃ z : SataInode, z = if y.fileLen ≤ (p + buf.length : ℕ) then
    { y with fileLen := (p + buf.length : ℕ) } else y := ⟨_, rfl⟩
  obtain ⟨hlenz, hcountz, hdataz⟩ : z.fileLen = max n (p + buf.length) ∧
      z.blockCount = y.blockCount ∧ z.iData = y.iData := by
    rw [hz]
    split
    · exact ⟨by dsimp only; omega, rfl, rfl⟩
    · exact ⟨by omega, rfl, rfl⟩
  have hsectorOf : z.sectorOf = y.sectorOf := by
    funext k
    rw [SataInode.sectorOf, hdataz, SataInode.sectorOf]
  obtain ⟨s', hs'⟩ : ∃ s', s' = (({ s with disk := d₂ } : SataFs).writeInode i z |>.getInode i).2 :=
    ⟨_, rfl⟩
  have hsector' : s'.disk.sector = d₂.sector := by rw [hs']; rfl
  have hinode' : s'.inode = Function.update s.inode i z := by rw [hs']; rfl
  have hdatasector : ∀ (x : SataInode) k, x.sectorOf k ≠ DATA_BITMAP_START_INDEX := by
    intro x k
    rw [SataInode.sectorOf, show DATA_BITMAP_START_INDEX = 2 from rfl,
      show DATA_START_INDEX = 34 from rfl]
    omega
  have hbitmap : d₂.sector DATA_BITMAP_START_INDEX = d₁.sector DATA_BITMAP_START_INDEX :=
    hwrites.other _ fun k _ => (hdatasector y k).symm
  have hold : ∀ (x : SataInode) k, d₁.sector (x.sectorOf k) = s.disk.sector (x.sectorOf k) :=
    fun x k => (hsector₁ _ (hdatasector x k)).trans (congrFun hsector₀ _)
  refine ⟨s', ?_, ?_, fun j hj => ?_, fun j hj k hk => ?_, ?_, ?_, fun k hk => ?_⟩
  · rw [writeSataWrapper, SataFs.getInode]
    dsimp only
    rw [hsum, ← Int.ofNat_tdiv, hlastEq, ← hd₀, hnew, Option.bind_eq_bind, Option.bind_some]
    dsimp only
    rw [hwrite, Option.bind_eq_bind, Option.bind_some, ← hz, hs']
    rfl
  · have hblocks' : Blocks s'.inode d₁ := by
      refine hblocks₁.congr_inode (fun j => ?_) fun j => ?_
      · by_cases hj : j = i
        · rw [hinode', hj, Function.update_self, Function.update_self, hcountz]
        · rw [hinode', Function.update_of_ne hj, Function.update_of_ne hj]
      · by_cases hj : j = i
        · rw [hinode', hj, Function.update_self, Function.update_self, hdataz]
        · rw [hinode', Function.update_of_ne hj, Function.update_of_ne hj]
    exact hblocks'.congr ((congrFun hsector' _).trans hbitmap)
  · rw [hinode', Function.update_of_ne hj]
  · refine Drive.fileByte_congr ?_
    rw [hsector', hwrites.other _ fun l hl heq => ?_, hold]
    refine hj (hblocks₁.distinct j i (k / BLOCK_SIZE) l ?_ ?_ ?_).1
    · rw [Function.update_of_ne hj]
      exact hk
    · rw [Function.update_self, hcounty]
      exact_mod_cast hl
    · rw [Function.update_of_ne hj, Function.update_self]
      exact Nat.add_left_cancel heq
  · rw [hinode', Function.update_self, hlenz]
  · rw [hinode', Function.update_self, hcountz, hcounty, hmax]
  · have hkdiv : k / BLOCK_SIZE < max blocks last + 1 := by
      have hle : k / BLOCK_SIZE ≤ max n (p + buf.length) / BLOCK_SIZE :=
        Nat.div_le_div_right hk.le
      omega
    have hbyte : (s'.inode i).byte s'.disk k = y.byte d₂ k := by
      rw [hinode', Function.update_self, SataInode.byte_congr z hsector', SataInode.byte, hsectorOf,
        SataInode.byte]
    rw [hbyte, hwrites.byte k hkdiv]
    rcases Nat.lt_or_ge k n with hkn | hkn
    · refine splice_congr ?_
      have hle : k / BLOCK_SIZE ≤ n / BLOCK_SIZE := Nat.div_le_div_right hkn.le
      have hdata := hdata₁ (k / BLOCK_SIZE) (by omega)
      rw [SataInode.byte, Drive.fileByte, hold, SataInode.sectorOf, hdata]
      rfl
    · rw [splice_eq_getElem _ (by omega) (by omega), splice_eq_getElem _ (by omega) (by omega)]

end alloc

end SadOS.Fs
