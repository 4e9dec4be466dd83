import SadOS.Fs.DiskFull
import SadOS.Fs.SataDir

/-!
# The regions of the disk

The disk has 40 inodes in the sectors 4 to 13 and 40 directory entries in the sectors 14 to 33,
and an inode has 15 blocks.  `sata_open` takes numbers up to 511 from its bitmaps, and
`write_sata_wrapper` adds blocks without a look at the length of `i_data`; the bytes behind
`i_data` are those of `flags`.  The writes here are on the bytes of the disk.

## Main definitions

* `RegionAccess` — the sectors and slots that are written.
* `writeRaw` — `write_sata_wrapper`, on bytes.
* `DiskWorld` — the disk, the open files and the accesses.
* `DiskWorld.Correct` — the property, and `DiskWorld.Fits`, when it holds.
* `Fenced` — the invariant: used inodes, the numbers in the directory entries and the block counts
  are in their ranges.

## Main results

* `sataOpen_spec`, `writeRaw_spec` — what the calls keep.
* `correct_run` — runs that stay in the regions.
-/

namespace SadOS.Fs

/-! ## Accesses -/

/-- What is written to the tables: the sector of an inode, that of a directory entry, and an entry
of `i_data`. -/
inductive RegionAccess where
  | inode (sector : ℕ)
  | dentry (sector : ℕ)
  | slot (i : ℤ)

/-- The access is in its region. -/
def RegionAccess.InRange : RegionAccess → Prop
  | .inode m => 4 ≤ m ∧ m ≤ 13
  | .dentry m => 14 ≤ m ∧ m ≤ 33
  | .slot i => 0 ≤ i ∧ i ≤ 14

/-- What a new file is written to. -/
def Created.accesses (c : Created) : List RegionAccess :=
  [.inode (INODE_START_INDEX + c.inode / 4), .dentry (DENTRY_START_INDEX + c.dentry / 2),
    .dentry (DENTRY_START_INDEX + c.parent / 2)]

def Opened.accesses : Opened → List RegionAccess
  | .created c => c.accesses
  | _ => []

/-! ## The source -/

/-- `file_len`. -/
def fileLenOf (cur : ℕ → UInt8) : ℤ := toInt (field cur (offsetOf inodeMembers 1) 4)

/-- `file_len = x`. -/
def setFileLen (cur : ℕ → UInt8) (x : ℤ) : ℕ → UInt8 :=
  assign cur (offsetOf inodeMembers 1) 4 (x % 2 ^ 32).toNat

/-- `block_count`. -/
def blockCountOf (cur : ℕ → UInt8) : ℤ := toInt (field cur (offsetOf inodeMembers 2) 4)

/-- `block_count = x`. -/
def setBlockCount (cur : ℕ → UInt8) (x : ℤ) : ℕ → UInt8 :=
  assign cur (offsetOf inodeMembers 2) 4 (x % 2 ^ 32).toNat

/-- `i_data[k]`, wherever that is, as an `int`. -/
def blockOf (cur : ℕ → UInt8) (k : ℤ) : ℤ :=
  toInt (field cur (offsetOf inodeMembers 3 + 8 * k).toNat 8)

/-- `i_data[k] = x`. -/
def setBlock (cur : ℕ → UInt8) (k : ℤ) (x : ℕ) : ℕ → UInt8 :=
  assign cur (offsetOf inodeMembers 3 + 8 * k).toNat 8 x

/-- The loop of `write_sata_wrapper` that makes new blocks, with the entries of `i_data` that it
stores to. -/
structure RawClaim where
  full : Bool
  cur : ℕ → UInt8
  disk : Disk
  slots : List ℤ

/-- The loop for `n` new blocks. -/
def claimRaw : ℕ → (ℕ → UInt8) → Disk → RawClaim
  | 0, cur, d => ⟨false, cur, d, []⟩
  | n + 1, cur, d =>
    let (dataIndex, d) := getFreeDataInt d
    let d := setDataBitmapInt dataIndex d
    if dataIndex = -1 then ⟨true, cur, d, []⟩
    else
      -- `i_data[block_count++] = data_index`
      let k := blockCountOf cur
      let r := claimRaw n (setBlockCount (setBlock cur k dataIndex.toNat) (k + 1)) d
      { r with slots := k :: r.slots }

/-- `write_data`; a sector has a number of 32 bits. -/
def writeDataRaw (dataIndex : ℤ) (buf : List UInt8) (pos : ℕ) (offset count : ℤ) (d : Disk) : Disk :=
  let m := ((DATA_START_INDEX + dataIndex) % 2 ^ 32).toNat
  let d := readSata d m
  let d := { d with buf := splice d.buf offset.toNat ((buf.drop pos).take count.toNat) }
  writeSata d m

/-- The loop of `write_sata_wrapper` over `n` whole blocks. -/
def writeMiddleRaw (cur : ℕ → UInt8) (buf : List UInt8) : ℕ → ℤ → ℕ → Disk → Disk
  | 0, _, _, d => d
  | n + 1, i, pos, d =>
    writeMiddleRaw cur buf n (i + 1) (pos + BLOCK_SIZE)
      (writeDataRaw (blockOf cur i) buf pos 0 BLOCK_SIZE d)

/-- The transfer of `write_sata_wrapper`. -/
def writeBlocksRaw (cur : ℕ → UInt8) (buf : List UInt8) (fPos count : ℤ) (d : Disk) : Disk :=
  let first := fPos.tdiv BLOCK_SIZE
  let last := (toInt (fPos + count)).tdiv BLOCK_SIZE
  if first = last then writeDataRaw (blockOf cur first) buf 0 (fPos.tmod BLOCK_SIZE) count d
  else
    let room := BLOCK_SIZE - fPos.tmod BLOCK_SIZE
    let d := writeDataRaw (blockOf cur first) buf 0 (fPos.tmod BLOCK_SIZE) room d
    let n := (last - 1 - first).toNat
    let d := writeMiddleRaw cur buf n (first + 1) room.toNat d
    writeDataRaw (blockOf cur last) buf (room.toNat + n * BLOCK_SIZE) 0
      ((toInt (fPos + count)).tmod BLOCK_SIZE) d

/-- What `write_sata_wrapper` returns, the file, the disk and the accesses. -/
structure RawWrite where
  ret : ℤ
  file : SataFile
  disk : Disk
  accesses : List RegionAccess

/-- `write_sata_wrapper`. -/
def writeRaw (fd : SataFile) (buf : List UInt8) (d : Disk) : RawWrite :=
  let (inode, d) := getInode fd.inode d
  let count : ℤ := buf.length
  let cur := byteOf inode
  let r := claimRaw (newBlockCount ⟨0, blockCountOf cur, fun _ => 0⟩ fd.fPos count) cur d
  if r.full then ⟨-ENOSPC, fd, r.disk, r.slots.map .slot⟩
  else
    let d := writeBlocksRaw r.cur buf fd.fPos count r.disk
    let fPos := toInt (fd.fPos + count)
    let cur := if fileLenOf r.cur ≤ fPos then setFileLen r.cur fPos else r.cur
    let d := writeInode fd.inode ⟨slice cur 0 sizeofInode, length_slice _ _ _⟩ d
    let d := (getInode fd.inode d).2
    ⟨count, { fd with fPos := fPos }, d,
      r.slots.map .slot ++ [.inode (INODE_START_INDEX + fd.inode / 4)]⟩

/-! ## Runs -/

/-- The disk, the open files, and what was written to the tables. -/
structure DiskWorld where
  disk : Disk
  files : List SataFile
  log : List RegionAccess

/-- `sata_open` with `O_CREAT`, and `write_sata_wrapper` on an open file. -/
inductive DiskOp where
  | open (pathname : List UInt8) (heap : ℕ → UInt8)
  | write (fd : ℕ) (buf : List UInt8)

def DiskWorld.step (w : DiskWorld) : DiskOp → DiskWorld
  | .open pathname heap =>
    let (o, d) := sataOpen pathname heap w.disk
    { disk := d
      files := w.files ++ (o.inode.map fun i => ⟨i, 0⟩).toList
      log := w.log ++ o.accesses }
  | .write fd buf =>
    match w.files[fd]? with
    | none => w
    | some f =>
      let r := writeRaw f buf w.disk
      { disk := r.disk, files := w.files.set fd r.file, log := w.log ++ r.accesses }

/-- After `init_fs`. -/
def DiskWorld.boot (sector : ℕ → ℕ → UInt8) (heap : ℕ → UInt8) : DiskWorld where
  disk := initFs sector heap
  files := []
  log := [.inode INODE_START_INDEX, .dentry DENTRY_START_INDEX]

/-! ## The property -/

/-- Whether a bitmap has one of the first 40 slots free. -/
def HasFree (index : ℕ) (d : Disk) : Prop := ∃ i < 40, d.sector index i = 0

/-- The inode of an open file, as it is read. -/
def inodeAt (f : SataFile) (d : Disk) : ℕ → UInt8 := byteOf (getInode f.inode d).1

/-- A file cannot be created without a free inode and directory entry, and no write can go behind
the last block. -/
def DiskWorld.FailsWhenFull (w : DiskWorld) : DiskOp → Prop
  | .open pathname heap => ¬HasFree INODE_BITMAP_START_INDEX w.disk ∨
      ¬HasFree DENTRY_BITMAP_START_INDEX w.disk → ∀ c, (sataOpen pathname heap w.disk).1 ≠ .created c
  | .write fd buf => ∀ f, w.files[fd]? = some f →
      dataCount * BLOCK_SIZE ≤ f.fPos + buf.length → (writeRaw f buf w.disk).ret < 0

/-- All accesses were in their regions, and calls fail for want of room. -/
structure DiskWorld.Correct (w : DiskWorld) (op : DiskOp) : Prop where
  regions : ∀ a ∈ (w.step op).log, a.InRange
  full : w.FailsWhenFull op

/-! ## When it holds -/

/-- A name that is not there, in a directory that is. -/
def IsNew (pathname : List UInt8) (d : Disk) : Prop :=
  let (bitmap, d) := readBitmap INODE_BITMAP_START_INDEX d
  let (found, d) := lookup true pathname bitmap BLOCK_SIZE 0 d
  found = none ∧ (sataGetParent pathname d).1 ≠ none

/-- The first free numbers are those of table entries. -/
def Roomy (d : Disk) : Prop :=
  ∀ i j, (getFree INODE_BITMAP_START_INDEX d).1 = some i →
    (getFree DENTRY_BITMAP_START_INDEX d).1 = some j → i < 40 ∧ j < 40

/-- A new file gets numbers below 40.  A write ends in front of block 15, or there is no free block
before that; and the blocks that the file has already are numbers of blocks. -/
def DiskWorld.Fits (w : DiskWorld) : DiskOp → Prop
  | .open pathname _ => pathname.length < fnameLength ∧ (IsNew pathname w.disk → Roomy w.disk)
  | .write fd buf => ∀ f, w.files[fd]? = some f →
      (f.fPos + buf.length < dataCount * BLOCK_SIZE ∨ f.fPos + buf.length < 2 ^ 31 ∧
        blockCountOf (inodeAt f w.disk) + freeBlocks w.disk ≤ dataCount) ∧
      ∀ k, 0 ≤ k → k < blockCountOf (inodeAt f w.disk) → 0 ≤ blockOf (inodeAt f w.disk) k

/-! ## Fields -/

section fields

variable {b b' : ℕ → UInt8} {off off' width width' x lo hi : ℕ} {f : (ℕ → UInt8) → ℕ → UInt8}

theorem field_congr (h : ∀ k < width, b' (off + k) = b (off + k)) :
    field b' off width = field b off width := congrArg leValue (slice_congr h)

theorem field_of_local (hf : Local lo hi f) (h : off + width ≤ lo ∨ hi ≤ off) :
    field (f b) off width = field b off width :=
  field_congr fun k hk => hf b _ (by omega)

theorem field_assign (h : x < 256 ^ width) : field (assign b off width x) off width = x := by
  have hslice := slice_splice b off (leBytes width x)
  rw [length_leBytes] at hslice
  rw [field, assign, hslice, leValue_leBytes h]

theorem field_assign_of_disjoint (h : off + width ≤ off' ∨ off' + width' ≤ off) :
    field (assign b off' width' x) off width = field b off width :=
  field_of_local (local_assign (le_refl off') (le_refl _)) h

/-- A field of a structure that is put somewhere. -/
theorem field_splice {l : List UInt8} (h : off + width ≤ l.length) (at_ : ℕ) :
    field (splice b at_ l) (at_ + off) width = field (byteOf l) off width := by
  refine congrArg leValue (List.map_congr_left fun k hk => ?_)
  rw [List.mem_range] at hk
  rw [splice, if_pos (by omega), Nat.add_assoc, Nat.add_sub_cancel_left, byteOf,
    List.getD_eq_getElem?_getD, List.getElem?_eq_getElem (by omega)]
  rfl

/-- A field of a structure that is read. -/
theorem field_slice (h : off + width ≤ x) (at_ : ℕ) :
    field (byteOf (slice b at_ x)) off width = field b (at_ + off) width := by
  refine congrArg leValue (List.map_congr_left fun k hk => ?_)
  rw [List.mem_range] at hk
  rw [byteOf, List.getD_eq_getElem?_getD, getElem?_slice _ (by omega), Nat.add_assoc]
  rfl

/-- A field of a sector that is read. -/
theorem field_readSata {d : Disk} {m : ℕ} (h : off + width ≤ BLOCK_SIZE) :
    field (readSata d m).buf off width = field (d.sector m) off width :=
  field_congr fun _ hk => Drive.buf_load_of_lt (by omega)

end fields

/-! ## The invariant -/

theorem offsetOf_blockCount : offsetOf inodeMembers 2 = 8 := rfl

theorem offsetOf_iData : offsetOf inodeMembers 3 = 16 := rfl

theorem offsetOf_subdirs : offsetOf dentryMembers 2 = 16 := rfl

theorem offsetOf_dentryId : offsetOf dentryMembers 4 = 288 := rfl

/-- What is known of a sector, and of the buffer that it was read to: in the bitmap of the inodes
those behind the table are free, directory entries have numbers of entries, and inodes at most as
many blocks as `i_data` has room for. -/
structure Fence (m : ℕ) (b : ℕ → UInt8) : Prop where
  bitmap : m = INODE_BITMAP_START_INDEX → ∀ i < BLOCK_SIZE, b i ≠ 0 → i < 40
  ids : DENTRY_START_INDEX ≤ m → m < DATA_START_INDEX → field b (offsetOf dentryMembers 4) 4 < 40
  counts : INODE_START_INDEX ≤ m → m < DENTRY_START_INDEX → ∀ i < 4,
    field b (i * sizeofInode + offsetOf inodeMembers 2) 4 ≤ dataCount

/-- The number in a directory entry that sticks out of its sector. -/
def TailId (b : ℕ → UInt8) : Prop := field b (sizeofDentry + offsetOf dentryMembers 4) 4 < 40

/-- The whole disk, and `common_buf`. -/
def Fenced (d : Disk) : Prop := (∀ m, Fence m (d.sector m)) ∧ TailId d.buf

theorem Fence.congr {m : ℕ} {b b' : ℕ → UInt8} (h : ∀ k < BLOCK_SIZE, b' k = b k)
    (hb : Fence m b) : Fence m b' where
  bitmap hm i hi hne := hb.bitmap hm i hi (h i hi ▸ hne)
  ids hlo hhi := by
    rw [field_congr fun k hk => h _ (by simp only [offsetOf_dentryId, BLOCK_SIZE]; omega)]
    exact hb.ids hlo hhi
  counts hlo hhi i hi := by
    rw [field_congr fun k hk => h _ (by
      simp only [offsetOf_blockCount, sizeofInode_eq, BLOCK_SIZE]
      omega)]
    exact hb.counts hlo hhi i hi

theorem TailId.congr {b b' : ℕ → UInt8} (h : ∀ k, BLOCK_SIZE ≤ k → b' k = b k) (hb : TailId b) :
    TailId b' := by
  rw [TailId, field_congr fun k hk => h _ (by
    simp only [offsetOf_dentryId, sizeofDentry_eq, BLOCK_SIZE]
    omega)]
  exact hb

namespace Fenced

variable {d : Disk} {m : ℕ} {f : (ℕ → UInt8) → ℕ → UInt8}

/-- A sector is read. -/
theorem readSata (h : Fenced d) (m : ℕ) : Fenced (Fs.readSata d m) :=
  ⟨h.1, h.2.congr fun _ hk => Drive.buf_load_of_le hk⟩

/-- A sector is changed. -/
theorem modify (h : Fenced d) (hf : ∀ b, Fence m b → TailId b → Fence m (f b) ∧ TailId (f b)) :
    Fenced (d.modify BLOCK_SIZE m f) :=
  Drive.modify_induction (fun _ _ _ => Fence.congr) (fun _ _ => TailId.congr) hf h

/-- A sector is changed in front of the number that sticks out. -/
theorem modify_local (h : Fenced d) {lo hi : ℕ} (hlocal : Local lo hi f)
    (hhi : hi ≤ sizeofDentry + offsetOf dentryMembers 4)
    (hf : ∀ b, Fence m b → Fence m (f b)) : Fenced (d.modify BLOCK_SIZE m f) := by
  refine h.modify fun b hb htail => ⟨hf b hb, ?_⟩
  rw [TailId, field_of_local hlocal (.inr hhi)]
  exact htail

/-- A bitmap changes; the inodes have numbers of entries. -/
theorem setBitmap (h : Fenced d) (index id : ℕ) (hindex : index < 4)
    (hid : index = INODE_BITMAP_START_INDEX → id < 40) : Fenced (Fs.setBitmap index id d) := by
  have hlocal : Local 0 BLOCK_SIZE
      fun b : ℕ → UInt8 => splice b 0 ((slice b 0 BLOCK_SIZE).set id 1) := by
    intro b k hk
    exact splice_of_le _ _ (by rw [List.length_set, length_slice]; omega)
  have heq : Fs.setBitmap index id d = d.modify BLOCK_SIZE index
      fun b => splice b 0 ((slice b 0 BLOCK_SIZE).set id 1) := rfl
  rw [heq]
  refine h.modify_local hlocal ?_ fun b hb => ⟨fun hm i hi hne => ?_, fun hlo => ?_, fun hlo => ?_⟩
  · rw [sizeofDentry_eq, offsetOf_dentryId, BLOCK_SIZE]
    omega
  · by_cases hi' : i = id
    · exact hi' ▸ hid hm
    · refine hb.bitmap hm i hi ?_
      have hget : ((slice b 0 BLOCK_SIZE).set id 1)[i]? = some (b i) := by
        rw [List.getElem?_set_ne (Ne.symm hi'), getElem?_slice _ hi, Nat.zero_add]
      simpa [splice, hget] using hne
  · exact absurd hlo (by unfold DENTRY_START_INDEX; omega)
  · exact absurd hlo (by unfold INODE_START_INDEX; omega)

/-- The number of blocks of a new inode. -/
theorem field_fillInode (at_ i flags : ℕ) (b : ℕ → UInt8) :
    field (fillInode at_ i flags b) (at_ + offsetOf inodeMembers 2) 4 = 0 := by
  have hloop : Local (at_ + 16) (at_ + 120) fun b : ℕ → UInt8 => (List.range 13).foldl
      (fun b k => assign b (at_ + offsetOf inodeMembers 3 + 8 * k) 8 0) b := by
    refine Local.foldl fun k hk => ?_
    rw [List.mem_range] at hk
    exact local_assign (by rw [offsetOf_iData]; omega) (by rw [offsetOf_iData]; omega)
  have hflags : offsetOf inodeMembers 4 = 136 := rfl
  simp only [fillInode]
  rw [field_assign_of_disjoint (.inl ?_), field_of_local hloop (.inl ?_), field_assign (by decide)]
  · rw [offsetOf_blockCount]
    omega
  · rw [offsetOf_blockCount, hflags]
    omega

/-- An inode changes, and has at most as many blocks as there is room for. -/
theorem modifyInode (h : Fenced d) {i : ℕ} (hi : i < 40)
    (hlocal : Local (i % 4 * sizeofInode) (i % 4 * sizeofInode + sizeofInode) f)
    (hf : ∀ b, field (f b) (i % 4 * sizeofInode + offsetOf inodeMembers 2) 4 ≤ dataCount) :
    Fenced (d.modify BLOCK_SIZE (INODE_START_INDEX + i / 4) f) := by
  refine h.modify_local hlocal ?_ fun b hb => ⟨fun hm => ?_, fun hlo => ?_,
    fun hlo hhi j hj => ?_⟩
  · rw [sizeofInode_eq, sizeofDentry_eq, offsetOf_dentryId]
    omega
  · exact absurd hm (by unfold INODE_START_INDEX INODE_BITMAP_START_INDEX; omega)
  · exact absurd hlo (by unfold INODE_START_INDEX DENTRY_START_INDEX; omega)
  · by_cases hij : j = i % 4
    · exact hij ▸ hf b
    · rw [field_of_local hlocal]
      · exact hb.counts hlo hhi j hj
      · simp only [sizeofInode_eq, offsetOf_blockCount]
        omega

theorem buildInode (h : Fenced d) {i : ℕ} (hi : i < 40) (flags : ℕ) :
    Fenced (Fs.buildInode i flags d) := by
  refine (h.setBitmap INODE_BITMAP_START_INDEX i (by decide) fun _ => hi).modifyInode hi
    (local_fillInode _ i flags) fun b => ?_
  rw [field_fillInode]
  exact Nat.zero_le _

theorem writeInode (h : Fenced d) {i : ℕ} (hi : i < 40) {s : Struct sizeofInode}
    (hs : field (byteOf s.bytes) (offsetOf inodeMembers 2) 4 ≤ dataCount) :
    Fenced (Fs.writeInode i s d) := by
  have hlen := s.length_eq
  refine h.modifyInode hi (f := fun b => splice b (i % 4 * sizeofInode) s.bytes)
    (local_splice (le_refl _) (by rw [hlen])) fun b => ?_
  rw [field_splice (by rw [hlen]; decide)]
  exact hs

/-- A directory entry is written. -/
theorem writeDentry (h : Fenced d) {j : ℕ} (hj : j < 40) {s : Struct sizeofDentry}
    (hs : dentryId s.bytes < 40) : Fenced (Fs.writeDentry j s d) := by
  have hlen := s.length_eq
  have hlocal : Local (j % 2 * sizeofDentry) (j % 2 * sizeofDentry + sizeofDentry)
      fun b => splice b (j % 2 * sizeofDentry) s.bytes := local_splice (le_refl _) (by rw [hlen])
  have hfield : ∀ b, field (splice b (j % 2 * sizeofDentry) s.bytes)
      (j % 2 * sizeofDentry + offsetOf dentryMembers 4) 4 < 40 := by
    intro b
    rw [field_splice (by rw [hlen]; decide)]
    exact hs
  refine h.modify (f := fun b => splice b (j % 2 * sizeofDentry) s.bytes)
    (m := DENTRY_START_INDEX + j / 2) fun b hb htail => ⟨⟨fun hm => ?_, fun hlo hhi => ?_,
    fun hlo hhi => ?_⟩, ?_⟩
  · exact absurd hm (by unfold DENTRY_START_INDEX INODE_BITMAP_START_INDEX; omega)
  · rcases Nat.mod_two_eq_zero_or_one j with hmod | hmod
    · simpa [hmod] using hfield b
    · rw [field_of_local hlocal (.inl ?_)]
      · exact hb.ids hlo hhi
      · rw [hmod, offsetOf_dentryId, sizeofDentry_eq]
        omega
  · exact absurd hhi (by omega)
  · rcases Nat.mod_two_eq_zero_or_one j with hmod | hmod
    · rw [TailId, field_of_local hlocal (.inr ?_)]
      · exact htail
      · rw [hmod, offsetOf_dentryId, sizeofDentry_eq]
        omega
    · simpa [hmod, TailId] using hfield b

/-- A directory entry is read. -/
theorem dentryId_getDentry (h : Fenced d) {j : ℕ} (hj : j < 40) :
    dentryId (getDentry j d).1 < 40 := by
  have hbuf := h.readSata (DENTRY_START_INDEX + j / 2)
  rw [dentryId, getDentry, field_slice (by decide)]
  rcases Nat.mod_two_eq_zero_or_one j with hmod | hmod
  · rw [hmod, Nat.zero_mul, Nat.zero_add, field_readSata (by decide)]
    refine (h.1 _).ids (by omega) ?_
    unfold DENTRY_START_INDEX DATA_START_INDEX
    omega
  · rw [hmod, Nat.one_mul]
    exact hbuf.2

theorem buildDentry (h : Fenced d) (inode parent : ℕ) {j : ℕ} (hj : j < 40) (iname : List UInt8)
    (heap : ℕ → UInt8) : Fenced (Fs.buildDentry inode j parent iname heap d) := by
  refine ((h.setBitmap DENTRY_BITMAP_START_INDEX j (by decide) nofun).readSata _).writeDentry hj ?_
  rw [dentryId, builtDentry, field_slice (by decide), Nat.zero_add, fillDentry]
  rwa [field_assign (by omega)]

end Fenced

/-! ## New files -/

section files

variable {d : Disk} {pathname : List UInt8}

/-- Ids in the bitmap of the inodes. -/
def BoundedIds (bitmap : List UInt8) : Prop := ∀ i, bitmap.getD i 0 ≠ 0 → i < 40

theorem readBitmap_eq (index : ℕ) (d : Disk) :
    readBitmap index d = (slice (d.sector index) 0 BLOCK_SIZE, readSata d index) := by
  have hslice : slice (readSata d index).buf 0 BLOCK_SIZE = slice (d.sector index) 0 BLOCK_SIZE :=
    slice_congr fun k hk => Drive.buf_load_of_lt (by rwa [Nat.zero_add])
  rw [readBitmap, hslice]

theorem getFree_eq (index : ℕ) (d : Disk) : getFree index d =
    ((slice (d.sector index) 0 BLOCK_SIZE).findIdx? fun x => x = 0, readSata d index) := by
  rw [getFree, readBitmap_eq]

theorem Fenced.boundedIds (h : Fenced d) :
    BoundedIds (slice (d.sector INODE_BITMAP_START_INDEX) 0 BLOCK_SIZE) := by
  intro i hne
  rw [List.getD_eq_getElem?_getD] at hne
  by_cases hi : i < BLOCK_SIZE
  · rw [getElem?_slice _ hi, Option.getD_some, Nat.zero_add] at hne
    exact (h.1 _).bitmap rfl i hi hne
  · rw [List.getElem?_eq_none (by simpa using hi)] at hne
    exact absurd rfl hne

/-- A loop over the ids finds one of them, and only reads. -/
theorem lookup_spec {bitmap : List UInt8} (inodes : Bool) (name : List UInt8)
    (hids : BoundedIds bitmap) (n i : ℕ) (h : Fenced d) :
    (lookup inodes name bitmap n i d).2.sector = d.sector ∧
      Fenced (lookup inodes name bitmap n i d).2 ∧
      ∀ x, (lookup inodes name bitmap n i d).1 = some x → x.1 < 40 ∧ dentryId x.2 < 40 := by
  induction n generalizing i d with
  | zero => exact ⟨rfl, h, nofun⟩
  | succ n ih =>
    rw [lookup]
    split
    case isTrue hzero => exact ih (i + 1) h
    case isFalse hne =>
      have hi : i < 40 := hids i hne
      obtain ⟨e, he⟩ : ∃ e, e = if inodes then (getInode i d).2 else d := ⟨_, rfl⟩
      have hsector : e.sector = d.sector := by
        rw [he]
        split <;> rfl
      have hfenced : Fenced e := by
        rw [he]
        split
        · exact h.readSata _
        · exact h
      rw [← he]
      dsimp only
      split
      · refine ⟨hsector, hfenced.readSata _, fun x hx => ?_⟩
        rw [← Option.some.inj hx]
        exact ⟨hi, hfenced.dentryId_getDentry hi⟩
      · obtain ⟨hs, hrest⟩ := ih (i + 1) (hfenced.readSata (DENTRY_START_INDEX + i / 2))
        exact ⟨hs.trans hsector, hrest⟩

/-- The parent is an entry of the table. -/
theorem sataGetParent_spec (name : List UInt8) (h : Fenced d) :
    (sataGetParent name d).2.sector = d.sector ∧ Fenced (sataGetParent name d).2 ∧
      ∀ p, (sataGetParent name d).1 = some p → p < 40 := by
  have hspec := lookup_spec false ((parentDir name).getD []) h.boundedIds BLOCK_SIZE 0
    (h.readSata INODE_BITMAP_START_INDEX)
  rw [sataGetParent, readBitmap_eq]
  dsimp only
  generalize lookup false _ _ _ _ _ = r at hspec ⊢
  obtain ⟨hsector, hfenced, hfound⟩ := hspec
  refine ⟨hsector, hfenced, fun p hp => ?_⟩
  split at hp
  · cases hp
  · obtain ⟨x, hx, rfl⟩ := Option.map_eq_some_iff.1 hp
    exact (hfound x hx).2

/-- A free number depends on the bitmap only. -/
theorem getFree_congr {d' : Disk} {index : ℕ} (h : d'.sector index = d.sector index) :
    (getFree index d').1 = (getFree index d).1 := by
  rw [getFree_eq, getFree_eq, h]

theorem roomy_congr {d' : Disk} (h : d'.sector = d.sector) : Roomy d' ↔ Roomy d := by
  rw [Roomy, Roomy, getFree_congr (congrFun h INODE_BITMAP_START_INDEX),
    getFree_congr (congrFun h DENTRY_BITMAP_START_INDEX)]

/-- A free number. -/
theorem sector_of_getFree {index i : ℕ} (h : (getFree index d).1 = some i) :
    i < BLOCK_SIZE ∧ d.sector index i = 0 := by
  rw [getFree_eq] at h
  dsimp only at h
  obtain ⟨hlt, hzero, -⟩ := List.findIdx?_eq_some_iff_getElem.1 h
  have hi : i < BLOCK_SIZE := by simpa using hlt
  have hget : (slice (d.sector index) 0 BLOCK_SIZE)[i]? = some (d.sector index (0 + i)) :=
    getElem?_slice _ hi
  rw [List.getElem?_eq_getElem hlt, Nat.zero_add] at hget
  have hzero' := of_decide_eq_true hzero
  rw [hzero'] at hget
  exact ⟨hi, (Option.some.inj hget).symm⟩

/-- The number in the entry stays. -/
theorem dentryId_addSubdir (id n i : ℕ) (s : Struct sizeofDentry) (h : i + n ≤ clearedSlots) :
    dentryId (addSubdir id n i s).bytes = dentryId s.bytes := by
  induction n generalizing i with
  | zero => rfl
  | succ n ih =>
    rw [addSubdir]
    split
    · rw [dentryId, setDentrySlot, field_slice (by decide), Nat.zero_add,
        field_assign_of_disjoint (.inr ?_)]
      · rfl
      · rw [offsetOf_subdirs, offsetOf_dentryId]
        unfold clearedSlots at h
        omega
    · exact ih (i + 1) (by omega)

/-- A new file with numbers of entries. -/
theorem Fenced.buildFile (h : Fenced d) {c : Created} (hinode : c.inode < 40) (hdentry : c.dentry < 40)
    (hparent : c.parent < 40) (pathname : List UInt8) (heap : ℕ → UInt8) :
    Fenced (Fs.buildFile c pathname heap d) := by
  have hbuilt := (h.buildInode hinode O_CREAT).buildDentry c.inode c.parent hdentry pathname heap
  refine (hbuilt.readSata (DENTRY_START_INDEX + c.parent / 2)).writeDentry hparent ?_
  rw [dentryId_addSubdir _ _ _ _ (by decide)]
  exact hbuilt.dentryId_getDentry hparent

/-- The new file gets numbers of entries that were free. -/
theorem createFile_spec (pathname : List UInt8) (heap : ℕ → UInt8) (h : Fenced d)
    (hroomy : (sataGetParent pathname d).1 ≠ none → Roomy d) :
    Fenced (createFile pathname heap d).2 ∧ ∀ c, (createFile pathname heap d).1 = some c →
      (c.inode < 40 ∧ c.dentry < 40 ∧ c.parent < 40) ∧
        d.sector INODE_BITMAP_START_INDEX c.inode = 0 ∧
        d.sector DENTRY_BITMAP_START_INDEX c.dentry = 0 := by
  have hspec := sataGetParent_spec pathname h
  unfold createFile
  generalize sataGetParent pathname d = q at hroomy hspec ⊢
  obtain ⟨parent, e⟩ := q
  obtain ⟨hsector, hfenced, hparent⟩ := hspec
  dsimp only at hroomy hsector hfenced hparent ⊢
  cases parent with
  | none => exact ⟨hfenced, nofun⟩
  | some parent =>
    have hinode := getFree_congr (congrFun hsector INODE_BITMAP_START_INDEX)
    have hdentry : (getFree DENTRY_BITMAP_START_INDEX (readSata e INODE_BITMAP_START_INDEX)).1 =
        (getFree DENTRY_BITMAP_START_INDEX d).1 :=
      getFree_congr (congrFun hsector DENTRY_BITMAP_START_INDEX)
    obtain ⟨inodeId, hinodeId⟩ : ∃ x, getFree INODE_BITMAP_START_INDEX e =
        (x, readSata e INODE_BITMAP_START_INDEX) := ⟨_, getFree_eq _ _⟩
    obtain ⟨dentryId, hdentryId⟩ : ∃ x,
        getFree DENTRY_BITMAP_START_INDEX (readSata e INODE_BITMAP_START_INDEX) =
          (x, readSata (readSata e INODE_BITMAP_START_INDEX) DENTRY_BITMAP_START_INDEX) :=
      ⟨_, getFree_eq _ _⟩
    have hread := (hfenced.readSata INODE_BITMAP_START_INDEX).readSata DENTRY_BITMAP_START_INDEX
    rw [hinodeId] at hinode ⊢
    rw [hdentryId] at hdentry
    dsimp only at hinode ⊢
    rw [hdentryId]
    cases inodeId with
    | none => exact ⟨hread, nofun⟩
    | some inode =>
      cases dentryId with
      | none => exact ⟨hread, nofun⟩
      | some dentry =>
        obtain ⟨hlt, hlt'⟩ := hroomy (by simp) inode dentry hinode.symm hdentry.symm
        have hparent := hparent parent rfl
        refine ⟨hread.buildFile hlt hlt' hparent pathname heap, fun c hc => ?_⟩
        rw [← Option.some.inj hc]
        exact ⟨⟨hlt, hlt', hparent⟩, (sector_of_getFree hinode.symm).2,
          (sector_of_getFree hdentry.symm).2⟩

/-- `sata_open`, where the numbers of files are those of entries. -/
theorem sataOpen_spec (pathname : List UInt8) (heap : ℕ → UInt8) (h : Fenced d)
    (hroomy : IsNew pathname d → Roomy d) :
    Fenced (sataOpen pathname heap d).2 ∧
      (∀ i, (sataOpen pathname heap d).1.inode = some i → i < 40) ∧
      ∀ c, (sataOpen pathname heap d).1 = .created c →
        (c.inode < 40 ∧ c.dentry < 40 ∧ c.parent < 40) ∧
          d.sector INODE_BITMAP_START_INDEX c.inode = 0 ∧
          d.sector DENTRY_BITMAP_START_INDEX c.dentry = 0 := by
  have hspec := lookup_spec true pathname h.boundedIds BLOCK_SIZE 0
    (h.readSata INODE_BITMAP_START_INDEX)
  rw [IsNew, readBitmap_eq] at hroomy
  unfold sataOpen
  rw [readBitmap_eq]
  dsimp only at hroomy ⊢
  generalize lookup true _ _ _ _ _ = r at hspec hroomy ⊢
  obtain ⟨found, e⟩ := r
  obtain ⟨hsector, hfenced, hfound⟩ := hspec
  dsimp only at hsector hfenced hfound hroomy ⊢
  cases found with
  | some x =>
    refine ⟨hfenced, fun i hi => ?_, nofun⟩
    rw [← Option.some.inj hi]
    exact (hfound x rfl).1
  | none =>
    have hsame : e.sector = d.sector := hsector
    have hcreate := createFile_spec pathname heap hfenced fun hne =>
      (roomy_congr hsame).2 (hroomy ⟨rfl, hne⟩)
    generalize createFile pathname heap e = q at hcreate ⊢
    obtain ⟨created, e'⟩ := q
    obtain ⟨hfenced', hnew⟩ := hcreate
    cases created with
    | none => exact ⟨hfenced', nofun, nofun⟩
    | some c =>
      refine ⟨hfenced', fun i hi => ?_, fun c' hc' => ?_⟩
      · rw [← Option.some.inj hi]
        exact (hnew c rfl).1.1
      · obtain rfl := Opened.created.inj hc'
        rw [← hsame]
        exact hnew c rfl

end files

/-! ## Writes -/

section writes

variable {cur : ℕ → UInt8} {d : Disk} {n c k x : ℕ} {i : ℤ}

/-- The number in `block_count`. -/
def countOf (cur : ℕ → UInt8) : ℕ := field cur (offsetOf inodeMembers 2) 4

theorem blockCountOf_eq (h : countOf cur < 2 ^ 31) : blockCountOf cur = countOf cur :=
  toInt_of_range (by omega) (by exact_mod_cast h)

theorem blockOf_natCast (cur : ℕ → UInt8) (k : ℕ) :
    blockOf cur k = toInt (field cur (offsetOf inodeMembers 3 + 8 * k) 8) := rfl

theorem countOf_setBlock (cur : ℕ → UInt8) (k x : ℕ) : countOf (setBlock cur k x) = countOf cur := by
  refine field_assign_of_disjoint (.inl ?_)
  rw [offsetOf_blockCount, offsetOf_iData]
  omega

theorem countOf_setBlockCount (h : x < 2 ^ 31) : countOf (setBlockCount cur x) = x := by
  have hx : ((x : ℤ) % 2 ^ 32).toNat = x := by omega
  rw [countOf, setBlockCount, hx]
  exact field_assign (by omega)

theorem countOf_setFileLen (cur : ℕ → UInt8) (i : ℤ) : countOf (setFileLen cur i) = countOf cur :=
  field_assign_of_disjoint (.inr (by decide))

theorem blockOf_setBlockCount (cur : ℕ → UInt8) (i : ℤ) (k : ℕ) :
    blockOf (setBlockCount cur i) k = blockOf cur k := by
  rw [blockOf_natCast, blockOf_natCast, setBlockCount, field_assign_of_disjoint (.inr ?_)]
  rw [offsetOf_blockCount, offsetOf_iData]
  omega

theorem blockOf_setBlock_self (h : x < 2 ^ 31) : blockOf (setBlock cur k x) k = x := by
  have hfield : field (setBlock cur k x) (offsetOf inodeMembers 3 + 8 * k) 8 = x :=
    field_assign (by omega)
  rw [blockOf_natCast, hfield]
  exact toInt_of_range (by omega) (by exact_mod_cast h)

theorem blockOf_setBlock_of_ne {k' : ℕ} (h : k' ≠ k) :
    blockOf (setBlock cur k x) k' = blockOf cur k' := by
  have hfield : field (setBlock cur k x) (offsetOf inodeMembers 3 + 8 * k') 8 =
      field cur (offsetOf inodeMembers 3 + 8 * k') 8 := by
    refine field_assign_of_disjoint ?_
    omega
  rw [blockOf_natCast, blockOf_natCast, hfield]

/-- What the loop that makes `n` new blocks does, for an inode that has `c`. -/
structure RawClaim.Spec (n c : ℕ) (d : Disk) (r : RawClaim) : Prop where
  fenced : Fenced r.disk
  full_iff : r.full = true ↔ freeBlocks d < n
  mem_slots : ∀ i, i ∈ r.slots ↔ (c : ℤ) ≤ i ∧ i < c + min n (freeBlocks d)
  count : r.full = false → countOf r.cur = c + n
  blocks : r.full = false → ∀ k < c + n, 0 ≤ blockOf r.cur k

/-- The numbers of the new blocks come behind those that are there. -/
theorem claimRaw_spec (h : Fenced d) (hc : countOf cur = c) (hn : c + n < 2 ^ 31)
    (hblocks : ∀ k < c, 0 ≤ blockOf cur k) : (claimRaw n cur d).Spec n c d := by
  induction n generalizing c cur d with
  | zero =>
    refine ⟨h, by simp [claimRaw], fun i => ?_, fun _ => hc, fun _ => hblocks⟩
    simp [claimRaw]
  | succ n ih =>
    by_cases hfree : freeBlocks d = 0
    · have hclaim : claimRaw (n + 1) cur d = ⟨true, cur,
          setDataBitmapInt (-1) (readSata d DATA_BITMAP_START_INDEX), []⟩ := by
        simp [claimRaw, getFreeDataInt_of_full hfree]
      rw [hclaim]
      refine ⟨?_, by simp [hfree], fun i => ?_, nofun, nofun⟩
      · exact (h.readSata _).modify (f := fun b => b) fun b hb htail => ⟨hb, htail⟩
      · simp [hfree]
    · obtain ⟨id, hid, hget, -, hcount⟩ := exists_getFreeDataInt hfree
      have hne : ¬(id : ℤ) = -1 := by omega
      have hold : blockCountOf cur = c := by rw [blockCountOf_eq (by omega), hc]
      obtain ⟨cur', hcur'⟩ : ∃ cur', cur' = setBlockCount (setBlock cur c id) (c + 1) := ⟨_, rfl⟩
      obtain ⟨d', hd'⟩ : ∃ d', d' = setDataBitmap id (readSata d DATA_BITMAP_START_INDEX) := ⟨_, rfl⟩
      have hclaim : claimRaw (n + 1) cur d =
          { claimRaw n cur' d' with slots := (c : ℤ) :: (claimRaw n cur' d').slots } := by
        simp [claimRaw, hget, if_neg hne, hold, hcur', hd']
      have hstep : ((c : ℤ) + 1) = (c + 1 : ℕ) := by rw [Nat.cast_add_one]
      have hc' : countOf cur' = c + 1 := by
        rw [hcur', hstep, countOf_setBlockCount (by omega)]
      have hblocks' : ∀ k < c + 1, 0 ≤ blockOf cur' k := by
        intro k hk
        rw [hcur', blockOf_setBlockCount]
        rcases Nat.lt_succ_iff_lt_or_eq.1 hk with hlt | heq
        · rw [blockOf_setBlock_of_ne (Nat.ne_of_lt hlt)]
          exact hblocks k hlt
        · rw [heq, blockOf_setBlock_self (by unfold BLOCK_SIZE at hid; omega)]
          exact Int.natCast_nonneg id
      have hfenced : Fenced d' := by
        rw [hd']
        exact (h.readSata _).setBitmap _ _ (by decide) nofun
      have hspec := ih hfenced hc' (by omega) hblocks'
      rw [← hd'] at hcount
      rw [hclaim]
      refine ⟨hspec.fenced, ?_, fun i => ?_, fun hfull => ?_, fun hfull k hk => ?_⟩
      · rw [hspec.full_iff]
        omega
      · rw [List.mem_cons, hspec.mem_slots]
        push_cast
        omega
      · rw [hspec.count hfull]
        omega
      · exact hspec.blocks hfull k (by omega)

/-- A block is written. -/
theorem Fenced.writeDataRaw (h : Fenced d) {b : ℤ} (hlo : 0 ≤ b) (hhi : b < 2 ^ 31)
    (buf : List UInt8) (pos : ℕ) {offset count : ℤ} (hoff : 0 ≤ offset) (hcount : 0 ≤ count)
    (hroom : offset + count ≤ BLOCK_SIZE) : Fenced (Fs.writeDataRaw b buf pos offset count d) := by
  have hm : DATA_START_INDEX ≤ ((DATA_START_INDEX + b) % 2 ^ 32).toNat := by
    unfold DATA_START_INDEX
    omega
  have hlocal : Local 0 BLOCK_SIZE
      fun b' => splice b' offset.toNat ((buf.drop pos).take count.toNat) := by
    refine local_splice (Nat.zero_le _) ?_
    have := List.length_take_le count.toNat (buf.drop pos)
    omega
  refine h.modify_local (m := ((DATA_START_INDEX + b) % 2 ^ 32).toNat) hlocal ?_
    fun b' _ => ⟨fun heq => ?_, fun _ hlt => ?_, fun _ hlt => ?_⟩
  · rw [sizeofDentry_eq, offsetOf_dentryId, BLOCK_SIZE]
    omega
  · unfold DATA_START_INDEX INODE_BITMAP_START_INDEX at *
    omega
  · omega
  · unfold DATA_START_INDEX DENTRY_START_INDEX at *
    omega

theorem blockOf_lt (cur : ℕ → UInt8) (i : ℤ) : blockOf cur i < 2 ^ 31 := (toInt_range _).2

theorem Fenced.writeMiddleRaw (h : Fenced d) (cur : ℕ → UInt8) (buf : List UInt8) (n k pos : ℕ)
    (hblocks : ∀ j < k + n, 0 ≤ blockOf cur j) :
    Fenced (Fs.writeMiddleRaw cur buf n k pos d) := by
  induction n generalizing k pos d with
  | zero => exact h
  | succ n ih =>
    rw [Fs.writeMiddleRaw, ← Nat.cast_add_one]
    exact ih (h.writeDataRaw (hblocks k (by omega)) (blockOf_lt cur k) buf pos (le_refl 0)
      (by omega) (by omega)) (k + 1) _ fun j hj => hblocks j (by omega)

/-- A transfer to blocks of the file. -/
theorem Fenced.writeBlocksRaw (h : Fenced d) (buf : List UInt8) (p n : ℕ) (hsum : p + n < 2 ^ 31)
    (hblocks : ∀ k ≤ (p + n) / BLOCK_SIZE, 0 ≤ blockOf cur k) :
    Fenced (Fs.writeBlocksRaw cur buf p n d) := by
  have hint : toInt ((p : ℤ) + n) = (p + n : ℕ) := by
    rw [Nat.cast_add]
    exact toInt_of_range (by omega) (by omega)
  have hpos : 0 < BLOCK_SIZE := by decide
  have hle : p / BLOCK_SIZE ≤ (p + n) / BLOCK_SIZE := Nat.div_le_div_right (Nat.le_add_right p n)
  have hp := div_mul_add_mod p
  have hmod := Nat.mod_lt p hpos
  have hmodn := Nat.mod_lt (p + n) hpos
  rw [Fs.writeBlocksRaw, hint, ← Int.ofNat_tdiv, ← Int.ofNat_tdiv, ← Int.ofNat_tmod,
    ← Int.ofNat_tmod]
  dsimp only
  by_cases heq : p / BLOCK_SIZE = (p + n) / BLOCK_SIZE
  · have hpn := div_mul_add_mod (p + n)
    rw [← heq] at hpn
    rw [if_pos (congrArg _ heq)]
    exact h.writeDataRaw (hblocks _ hle) (blockOf_lt cur _) buf 0 (by omega) (by omega) (by omega)
  · rw [if_neg (by omega)]
    have hhead : Fenced (Fs.writeDataRaw (blockOf cur (p / BLOCK_SIZE : ℕ)) buf 0
        (p % BLOCK_SIZE : ℕ) (BLOCK_SIZE - (p % BLOCK_SIZE : ℕ)) d) :=
      h.writeDataRaw (hblocks _ hle) (blockOf_lt cur _) buf 0 (by omega) (by omega) (by omega)
    have hmiddle := hhead.writeMiddleRaw cur buf
      (((p + n) / BLOCK_SIZE : ℕ) - 1 - (p / BLOCK_SIZE : ℕ) : ℤ).toNat (p / BLOCK_SIZE + 1)
      (BLOCK_SIZE - (p % BLOCK_SIZE : ℕ) : ℤ).toNat fun j hj => hblocks j (by omega)
    rw [Nat.cast_add_one] at hmiddle
    exact hmiddle.writeDataRaw (hblocks _ (le_refl _)) (blockOf_lt cur _) buf _ (le_refl 0) (by omega)
      (by omega)

/-- An inode that is read. -/
theorem Fenced.countOf_inodeAt (h : Fenced d) {f : SataFile} (hf : f.inode < 40) :
    countOf (inodeAt f d) ≤ dataCount := by
  have hmod : f.inode % 4 < 4 := Nat.mod_lt _ (by decide)
  have hsector : INODE_START_INDEX + f.inode / 4 < DENTRY_START_INDEX := by
    unfold INODE_START_INDEX DENTRY_START_INDEX
    omega
  rw [countOf, inodeAt, getInode]
  dsimp only
  rw [field_slice (by decide), field_readSata ?_]
  · exact (h.1 _).counts (Nat.le_add_right _ _) hsector _ hmod
  · rw [sizeofInode_eq, offsetOf_blockCount, BLOCK_SIZE]
    omega

/-- What `write_sata_wrapper` keeps. -/
structure RawWrite.Spec (f : SataFile) (n : ℕ) (r : RawWrite) : Prop where
  fenced : Fenced r.disk
  accesses : ∀ a ∈ r.accesses, a.InRange
  inode : r.file.inode = f.inode
  fPos : 0 ≤ r.file.fPos ∧ r.file.fPos < dataCount * BLOCK_SIZE
  full : dataCount * BLOCK_SIZE ≤ f.fPos + n → r.ret < 0

theorem toNat_sub_pred (a b : ℕ) : ((a : ℤ) - ((b : ℤ) - 1)).toNat = a + 1 - b := by omega

/-- A write that ends inside the blocks, or for which there are not enough. -/
theorem writeRaw_spec (h : Fenced d) {f : SataFile} {p : ℕ} (buf : List UInt8) (hf : f.inode < 40)
    (hp : f.fPos = p) (hlt : p < dataCount * BLOCK_SIZE)
    (hroom : p + buf.length < dataCount * BLOCK_SIZE ∨ p + buf.length < 2 ^ 31 ∧
      blockCountOf (inodeAt f d) + freeBlocks d ≤ dataCount)
    (hblocks : ∀ k, 0 ≤ k → k < blockCountOf (inodeAt f d) → 0 ≤ blockOf (inodeAt f d) k) :
    (writeRaw f buf d).Spec f buf.length := by
  obtain ⟨cur, hcur⟩ : ∃ cur, cur = inodeAt f d := ⟨_, rfl⟩
  obtain ⟨d₀, hd₀⟩ : ∃ d₀, d₀ = readSata d (INODE_START_INDEX + f.inode / 4) := ⟨_, rfl⟩
  have hbound : dataCount * BLOCK_SIZE = 7680 := by decide
  have hcount : countOf cur ≤ dataCount := hcur ▸ h.countOf_inodeAt hf
  have hbc : blockCountOf cur = countOf cur := blockCountOf_eq (by unfold dataCount at hcount; omega)
  rw [← hcur] at hroom hblocks
  have hsum : toInt ((p : ℤ) + buf.length) = (p + buf.length : ℕ) := by
    rw [Nat.cast_add]
    exact toInt_of_range (by omega) (by omega)
  obtain ⟨last, hlast⟩ : ∃ last, last = (p + buf.length) / BLOCK_SIZE := ⟨_, rfl⟩
  obtain ⟨n, hn⟩ : ∃ n, n = last + 1 - countOf cur := ⟨_, rfl⟩
  have hnew : newBlockCount ⟨0, blockCountOf cur, fun _ => 0⟩ f.fPos buf.length = n := by
    rw [newBlockCount, hp, hsum, ← Int.ofNat_tdiv, ← hlast, hn, hbc]
    exact toNat_sub_pred last (countOf cur)
  have hsmall : last < 2 ^ 22 := by
    rw [hlast, BLOCK_SIZE]
    omega
  have hfree : freeBlocks d₀ = freeBlocks d := by
    rw [hd₀]
    exact congrArg (List.count 0) (dataBitmap_readSata d _)
  have hspec : (claimRaw n cur d₀).Spec n (countOf cur) d₀ :=
    claimRaw_spec (hd₀ ▸ h.readSata _) rfl (by unfold dataCount at hcount; omega)
      fun k hk => hblocks k (by omega) (by omega)
  have hget : byteOf (getInode f.inode d).1 = cur := hcur.symm
  have hget' : (getInode f.inode d).2 = d₀ := hd₀.symm
  obtain ⟨r, hr⟩ : ∃ r, r = claimRaw n cur d₀ := ⟨_, rfl⟩
  rw [← hr] at hspec
  simp only [writeRaw, hget, hget', hnew, ← hr]
  have hslots : last < dataCount ∨ countOf cur + freeBlocks d ≤ dataCount →
      ∀ a ∈ r.slots.map RegionAccess.slot, a.InRange := by
    intro hor a ha
    obtain ⟨i, hi, rfl⟩ := List.mem_map.1 ha
    have hrange := (hspec.mem_slots i).1 hi
    rw [hfree] at hrange
    have hroom' : countOf cur + min n (freeBlocks d) ≤ dataCount := by omega
    unfold dataCount at hroom'
    exact ⟨by omega, by omega⟩
  by_cases hfull : r.full = true
  · rw [if_pos hfull]
    have hless := hspec.full_iff.1 hfull
    have hlt : 0 ≤ f.fPos ∧ f.fPos < dataCount * BLOCK_SIZE := by
      rw [hp]
      exact_mod_cast And.intro (Nat.zero_le p) hlt
    refine ⟨hspec.fenced, hslots ?_, rfl, hlt, fun _ => neg_lt_zero.2 (by decide)⟩
    rcases hroom with hroom | ⟨-, hroom⟩
    · exact .inl (by rw [hlast, BLOCK_SIZE]; unfold dataCount; omega)
    · exact .inr (by omega)
  · rw [if_neg hfull]
    have hnot : r.full = false := Bool.eq_false_of_not_eq_true hfull
    have henough : n ≤ freeBlocks d := by
      rw [← hfree]
      exact Nat.not_lt.1 fun hless => hfull (hspec.full_iff.2 hless)
    have hlastlt : last < dataCount := by
      rcases hroom with hroom | ⟨-, hroom⟩
      · rw [hlast, BLOCK_SIZE]
        unfold dataCount
        omega
      · omega
    have hend : p + buf.length < dataCount * BLOCK_SIZE :=
      (Nat.div_lt_iff_lt_mul (by decide)).1 (hlast ▸ hlastlt)
    have hblocks' := hspec.blocks hnot
    have htransfer : Fenced (writeBlocksRaw r.cur buf p buf.length r.disk) :=
      hspec.fenced.writeBlocksRaw buf p buf.length (by omega) fun k hk => hblocks' k (by omega)
    have hpos : toInt (f.fPos + buf.length) = (p + buf.length : ℕ) := by rw [hp, hsum]
    rw [← hp] at htransfer
    refine ⟨(htransfer.writeInode hf ?_).readSata _, fun a ha => ?_, rfl, ?_, fun hge => ?_⟩
    · rw [field_slice (by decide), Nat.zero_add]
      have hsame : countOf (if fileLenOf r.cur ≤ toInt (f.fPos + buf.length) then
          setFileLen r.cur (toInt (f.fPos + buf.length)) else r.cur) = countOf r.cur := by
        split
        · exact countOf_setFileLen _ _
        · rfl
      have hcount' := hspec.count hnot
      rw [← hsame] at hcount'
      exact (le_of_eq hcount').trans (by omega)
    · rcases List.mem_append.1 ha with ha | ha
      · exact hslots (.inl hlastlt) a ha
      · rw [List.mem_singleton] at ha
        rw [ha]
        unfold RegionAccess.InRange INODE_START_INDEX
        omega
    · have hrange : (0 : ℤ) ≤ (p + buf.length : ℕ) ∧
          ((p + buf.length : ℕ) : ℤ) < dataCount * BLOCK_SIZE :=
        ⟨Int.natCast_nonneg _, by exact_mod_cast hend⟩
      rw [← hpos] at hrange
      exact hrange
    · rw [hp] at hge
      exact absurd (by exact_mod_cast hge) (Nat.not_le.2 hend)

end writes

/-! ## Runs -/

section runs

variable {sector : ℕ → ℕ → UInt8} {heap : ℕ → UInt8} {w : DiskWorld} {op : DiskOp}

theorem buf_format (sector : ℕ → ℕ → UInt8) : (format sector).buf = fun _ => 0 := by
  have hloop (l : List ℕ) (d : Disk) : (l.foldl writeSata d).buf = d.buf := by
    induction l generalizing d with
    | nil => rfl
    | cons m rest ih => rw [List.foldl_cons, ih]; rfl
  exact hloop _ _

/-- A disk that is cleared. -/
theorem fenced_format (sector : ℕ → ℕ → UInt8) : Fenced (format sector) := by
  have hzero : ∀ {b : ℕ → UInt8} {off : ℕ}, (∀ k < off + 4, b k = 0) → field b off 4 = 0 := by
    intro b off hb
    exact (field_congr (b := fun _ => 0) fun k hk => hb _ (by omega)).trans rfl
  have hsector : ∀ {m k : ℕ}, m < DATA_START_INDEX → k < BLOCK_SIZE → (format sector).sector m k = 0 :=
    fun hm hk => sector_format sector (hm.trans (by decide)) hk
  refine ⟨fun m => ⟨fun hm i hi hne => absurd (hsector ?_ hi) hne, fun _ hhi => ?_,
    fun _ hhi i hi => ?_⟩, ?_⟩
  · rw [hm]
    decide
  · rw [hzero fun k hk => hsector hhi (by rw [offsetOf_dentryId] at hk; unfold BLOCK_SIZE; omega)]
    decide
  · rw [hzero fun k hk => hsector (hhi.trans (by decide)) ?_]
    · exact Nat.zero_le _
    · rw [sizeofInode_eq, offsetOf_blockCount] at hk
      unfold BLOCK_SIZE
      omega
  · rw [TailId, buf_format, hzero fun _ _ => rfl]
    decide

/-- The invariant of the runs. -/
structure DiskWorld.Kept (w : DiskWorld) : Prop where
  fenced : Fenced w.disk
  files : ∀ f ∈ w.files, f.inode < 40 ∧ 0 ≤ f.fPos ∧ f.fPos < dataCount * BLOCK_SIZE
  log : ∀ a ∈ w.log, a.InRange

theorem kept_boot (sector : ℕ → ℕ → UInt8) (heap : ℕ → UInt8) : (DiskWorld.boot sector heap).Kept := by
  refine ⟨((fenced_format sector).buildInode (by decide) 0).buildDentry _ _ (by decide) _ _,
    nofun, ?_⟩
  simp [DiskWorld.boot, RegionAccess.InRange, INODE_START_INDEX, DENTRY_START_INDEX]

/-- The sectors of the entries of a table. -/
theorem Created.inRange {c : Created} (hinode : c.inode < 40) (hdentry : c.dentry < 40)
    (hparent : c.parent < 40) : ∀ a ∈ c.accesses, a.InRange := by
  simp only [Created.accesses, List.forall_mem_cons, RegionAccess.InRange, INODE_START_INDEX,
    DENTRY_START_INDEX]
  refine ⟨?_, ?_, ?_, nofun⟩ <;> omega

namespace DiskWorld

theorem step_open (w : DiskWorld) (pathname : List UInt8) (heap : ℕ → UInt8) :
    w.step (.open pathname heap) =
      { disk := (sataOpen pathname heap w.disk).2
        files := w.files ++
          ((sataOpen pathname heap w.disk).1.inode.map fun i => (⟨i, 0⟩ : SataFile)).toList
        log := w.log ++ (sataOpen pathname heap w.disk).1.accesses } := by
  rw [DiskWorld.step]

theorem step_write {fd : ℕ} {f : SataFile} (h : w.files[fd]? = some f) (buf : List UInt8) :
    w.step (.write fd buf) =
      { disk := (writeRaw f buf w.disk).disk
        files := w.files.set fd (writeRaw f buf w.disk).file
        log := w.log ++ (writeRaw f buf w.disk).accesses } := by
  rw [DiskWorld.step, h]

theorem Kept.open (h : w.Kept) {pathname : List UInt8} {heap : ℕ → UInt8}
    (hfits : w.Fits (.open pathname heap)) :
    w.Correct (.open pathname heap) ∧ (w.step (.open pathname heap)).Kept := by
  have hspec := sataOpen_spec pathname heap h.fenced hfits.2
  have hnew : (∀ a ∈ (w.step (.open pathname heap)).log, a.InRange) ∧
      (w.step (.open pathname heap)).Kept := by
    rw [step_open]
    generalize sataOpen pathname heap w.disk = q at hspec ⊢
    obtain ⟨o, d⟩ := q
    obtain ⟨hfenced, hinode, hcreated⟩ := hspec
    have hlog : ∀ a ∈ w.log ++ o.accesses, a.InRange := by
      intro a ha
      rcases List.mem_append.1 ha with ha | ha
      · exact h.log a ha
      · cases o with
        | failed => cases ha
        | found i => cases ha
        | created c =>
          obtain ⟨⟨hi, hj, hp⟩, -⟩ := hcreated c rfl
          exact Created.inRange hi hj hp a ha
    refine ⟨hlog, hfenced, fun f hf => ?_, hlog⟩
    rcases List.mem_append.1 hf with hf | hf
    · exact h.files f hf
    · rw [Option.mem_toList, Option.map_eq_some_iff] at hf
      obtain ⟨i, hi, rfl⟩ := hf
      have hpos : (0 : ℤ) < dataCount * BLOCK_SIZE := by decide
      exact ⟨hinode i hi, le_refl 0, hpos⟩
  refine ⟨⟨hnew.1, fun hfull c hc => ?_⟩, hnew.2⟩
  obtain ⟨⟨hi, hj, -⟩, hfree, hfree'⟩ := hspec.2.2 c hc
  rcases hfull with hfull | hfull
  · exact hfull ⟨c.inode, hi, hfree⟩
  · exact hfull ⟨c.dentry, hj, hfree'⟩

theorem Kept.write (h : w.Kept) {fd : ℕ} {buf : List UInt8} (hfits : w.Fits (.write fd buf)) :
    w.Correct (.write fd buf) ∧ (w.step (.write fd buf)).Kept := by
  cases hf : w.files[fd]? with
  | none =>
    have hstep : w.step (.write fd buf) = w := by rw [DiskWorld.step, hf]
    have hfull : w.FailsWhenFull (.write fd buf) := by
      intro f hf'
      rw [hf] at hf'
      cases hf'
    refine ⟨⟨?_, hfull⟩, ?_⟩
    · rw [hstep]
      exact h.log
    · rw [hstep]
      exact h
  | some f =>
    obtain ⟨hinode, hlo, hhi⟩ := h.files f (List.mem_of_getElem? hf)
    obtain ⟨p, hp⟩ := Int.eq_ofNat_of_zero_le hlo
    obtain ⟨hroom, hblocks⟩ := hfits f hf
    rw [hp] at hhi hroom
    have hspec := writeRaw_spec h.fenced buf hinode hp (by exact_mod_cast hhi)
      (by exact_mod_cast hroom) hblocks
    have hlog : ∀ a ∈ (w.step (.write fd buf)).log, a.InRange := by
      rw [step_write hf]
      intro a ha
      rcases List.mem_append.1 ha with ha | ha
      · exact h.log a ha
      · exact hspec.accesses a ha
    refine ⟨⟨hlog, fun f' hf' hge => ?_⟩, ?_⟩
    · rw [hf] at hf'
      obtain rfl := Option.some.inj hf'
      exact hspec.full hge
    · refine ⟨?_, fun g hg => ?_, hlog⟩
      · rw [step_write hf]
        exact hspec.fenced
      · rw [step_write hf] at hg
        rcases List.mem_or_eq_of_mem_set hg with hg | rfl
        · exact h.files g hg
        · exact ⟨hspec.inode ▸ hinode, hspec.fPos⟩

/-- One call. -/
theorem Kept.step (h : w.Kept) (hfits : w.Fits op) : w.Correct op ∧ (w.step op).Kept := by
  cases op with
  | «open» pathname heap => exact h.open hfits
  | write fd buf => exact h.write hfits

end DiskWorld

/-- In a run in which new files get numbers of entries, and writes end inside the blocks or run out
of them, all accesses are in their regions, and calls fail for want of room. -/
theorem correct_run (sector : ℕ → ℕ → UInt8) (heap : ℕ → UInt8) {ops : List DiskOp}
    (h : Always DiskWorld.Fits DiskWorld.step (DiskWorld.boot sector heap) ops) :
    Always DiskWorld.Correct DiskWorld.step (DiskWorld.boot sector heap) ops :=
  h.of_invariant (kept_boot sector heap) fun _ _ hkept hfits => hkept.step hfits

end runs

/-! ## A file that is too long -/

/-- A disk of zero bytes after `init_fs`. -/
def smallBoot : DiskWorld := DiskWorld.boot (fun _ _ => 0) fun _ => 0

/-- The root is opened. -/
def openRoot : DiskOp := .open [slash] fun _ => 0

theorem getFree_smallBoot : (getFree INODE_BITMAP_START_INDEX smallBoot.disk).1 = some 1 ∧
    (getFree DENTRY_BITMAP_START_INDEX smallBoot.disk).1 = some 1 := by decide +kernel

theorem fits_openRoot : smallBoot.Fits openRoot := by
  refine ⟨by decide, fun _ i j hi hj => ?_⟩
  rw [getFree_smallBoot.1] at hi
  rw [getFree_smallBoot.2] at hj
  rw [← Option.some.inj hi, ← Option.some.inj hj]
  decide

theorem inode_openRoot : (sataOpen [slash] (fun _ => 0) smallBoot.disk).1.inode = some 0 := by
  decide +kernel

theorem files_openRoot : (smallBoot.step openRoot).files = [⟨0, 0⟩] := by
  rw [openRoot, DiskWorld.step_open, inode_openRoot]
  rfl

theorem countOf_openRoot : countOf (inodeAt ⟨0, 0⟩ (smallBoot.step openRoot).disk) = 0 := by
  decide +kernel

theorem freeBlocks_openRoot : freeBlocks (smallBoot.step openRoot).disk = 512 := by decide +kernel

/-- The root has no blocks. -/
theorem blockCountOf_openRoot : blockCountOf (inodeAt ⟨0, 0⟩ (smallBoot.step openRoot).disk) = 0 := by
  rw [blockCountOf_eq (by rw [countOf_openRoot]; decide), countOf_openRoot]
  rfl

theorem correct_run_root : Always DiskWorld.Correct DiskWorld.step
    (DiskWorld.boot (fun _ _ => 0) fun _ => 0) [openRoot, .write 0 [104, 105]] := by
  refine correct_run (fun _ _ => 0) (fun _ => 0) ⟨fits_openRoot, fun f hf => ?_, trivial⟩
  change (smallBoot.step openRoot).files[0]? = some f at hf
  rw [files_openRoot] at hf
  obtain rfl := Option.some.inj hf
  refine ⟨.inl (by decide), fun k hlo hhi => ?_⟩
  change k < blockCountOf (inodeAt ⟨0, 0⟩ (smallBoot.step openRoot).disk) at hhi
  rw [blockCountOf_openRoot] at hhi
  omega

/-- The entries of `i_data` that a write stores to. -/
theorem mem_accesses_writeRaw {f : SataFile} {buf : List UInt8} {d : Disk} {i : ℤ}
    (h : i ∈ (claimRaw (newBlockCount ⟨0, blockCountOf (inodeAt f d), fun _ => 0⟩ f.fPos buf.length)
      (inodeAt f d) (readSata d (INODE_START_INDEX + f.inode / 4))).slots) :
    .slot i ∈ (writeRaw f buf d).accesses := by
  have hslot := List.mem_map_of_mem (f := RegionAccess.slot) h
  unfold writeRaw
  dsimp only
  split
  · exact hslot
  · exact List.mem_append_left _ hslot

/-- A write behind the last block stores to an entry behind `i_data`. -/
theorem slot_of_long (buf : List UInt8) (h : buf.length = dataCount * BLOCK_SIZE) :
    .slot 15 ∈ (writeRaw ⟨0, 0⟩ buf (smallBoot.step openRoot).disk).accesses := by
  have hfenced : Fenced (smallBoot.step openRoot).disk :=
    ((kept_boot (fun _ _ => 0) fun _ => 0).step fits_openRoot).2.fenced
  refine mem_accesses_writeRaw ?_
  have hnew : newBlockCount ⟨0, 0, fun _ => 0⟩ 0 buf.length = 16 := by
    rw [h]
    decide
  have hspec := claimRaw_spec (n := 16) (hfenced.readSata (INODE_START_INDEX + 0 / 4))
    countOf_openRoot (by decide) (by simp)
  have hfree : freeBlocks (readSata (smallBoot.step openRoot).disk (INODE_START_INDEX + 0 / 4)) =
      512 := (congrArg (List.count 0) (dataBitmap_readSata _ _)).trans freeBlocks_openRoot
  rw [blockCountOf_openRoot, hnew]
  refine (hspec.mem_slots 15).2 ?_
  rw [hfree]
  decide

/-- 7680 bytes are written to the root. -/
theorem not_correct_long : ¬Always DiskWorld.Correct DiskWorld.step
    (DiskWorld.boot (fun _ _ => 0) fun _ => 0)
    [openRoot, .write 0 (List.replicate (dataCount * BLOCK_SIZE) 1)] := by
  rintro ⟨-, hcorrect, -⟩
  have hlog := hcorrect.regions (.slot 15)
  change _ ∈ ((smallBoot.step openRoot).step _).log → _ at hlog
  rw [DiskWorld.step_write (by rw [files_openRoot]; rfl)] at hlog
  have hin := hlog (List.mem_append_right _ (slot_of_long _ List.length_replicate))
  exact absurd hin.2 (by decide)

end SadOS.Fs
