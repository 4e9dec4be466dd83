import SadOS.Fs.SataFile

/-!
# A disk that gets full

`write_sata_wrapper` claims the new blocks of a file one after the other, each in the bitmap on
disk.  When there is none left, `get_free_data` returns -1, and `set_data_bitmap` has stored to the
slot -1 of the bitmap before that is looked at.  What was claimed until then stays claimed.

## Main definitions

* `claimBlocks`, `writeSataTraced` — the source with the failure, and the slots of the bitmap that
  it stores to.
* `Exhausts` — the bitmap has not enough free blocks.
* `LeavesNoTrace` — a failure changes nothing.

## Main results

* `newBlocks_eq_claimBlocks`, `writeSataWrapper_eq_traced` — the model without the failure.
* `claimBlocks_full` — no block is free after a failure.
* `leavesNoTrace_iff` — when a failure leaves no trace.
-/

namespace SadOS.Fs

def ENOSPC : ℤ := 28

/-! ## The source -/

/-- `get_free_data`, as a signed number. -/
def getFreeDataInt (d : Disk) : ℤ × Disk :=
  let (dataIndex, d) := getFreeData d
  (dataIndex.elim (-1) fun dataIndex => dataIndex, d)

/-- `set_data_bitmap`.  A store in front of the bitmap does not get to the disk. -/
def setDataBitmapInt (dataId : ℤ) (d : Disk) : Disk :=
  if 0 ≤ dataId then setDataBitmap dataId.toNat d
  else
    let d := readSata d DATA_BITMAP_START_INDEX
    writeSata d DATA_BITMAP_START_INDEX

/-- The loop of `write_sata_wrapper` that makes new blocks, and the slots of the bitmap that it
stores to. -/
structure Claimed where
  full : Bool
  inode : SataInode
  disk : Disk
  slots : List ℤ

/-- The loop for `n` new blocks. -/
def claimBlocks : ℕ → SataInode → Disk → Option Claimed
  | 0, cur, d => some ⟨false, cur, d, []⟩
  | n + 1, cur, d =>
    let (dataIndex, d) := getFreeDataInt d
    let d := setDataBitmapInt dataIndex d
    if dataIndex = -1 then some ⟨true, cur, d, [dataIndex]⟩
    else do
      let cur ← cur.addBlock dataIndex.toNat
      let r ← claimBlocks n cur d
      return { r with slots := dataIndex :: r.slots }

/-- The number of new blocks that `write_sata_wrapper` makes. -/
def newBlockCount (cur : SataInode) (fPos count : ℤ) : ℕ :=
  ((toInt (fPos + count)).tdiv BLOCK_SIZE - (cur.blockCount - 1)).toNat

/-- `write_sata_wrapper`: what it returns, the slots of the bitmap that it stores to, and the
state. -/
def writeSataTraced (s : SataFs) (fd : SataFile) (buf : List UInt8) (count : ℤ) :
    Option (ℤ × List ℤ × SataFile × SataFs) := do
  let (cur, s) := s.getInode fd.inode
  let r ← claimBlocks (newBlockCount cur fd.fPos count) cur s.disk
  if r.full then return (-ENOSPC, r.slots, fd, { s with disk := r.disk })
  else
    let cur := r.inode
    let d ← writeBlocks cur buf fd.fPos count r.disk
    let fPos := toInt (fd.fPos + count)
    let cur := if cur.fileLen ≤ fPos then { cur with fileLen := fPos } else cur
    let s := { s with disk := d }.writeInode fd.inode cur
    let (_, s) := s.getInode fd.inode
    return (count, r.slots, { fd with fPos := fPos }, s)

/-! ## The property -/

/-- The bitmap, the inode, the position and the contents of all files are as they were, and only
slots of the bitmap were stored to. -/
structure Untouched (s : SataFs) (fd : SataFile) (slots : List ℤ) (fd' : SataFile) (s' : SataFs) :
    Prop where
  bitmap : dataBitmap s'.disk = dataBitmap s.disk
  inode : s'.inode fd.inode = s.inode fd.inode
  fPos : fd'.fPos = fd.fPos
  contents : ∀ i k, (s'.inode i).byte s'.disk k = (s.inode i).byte s.disk k
  slots : ∀ x ∈ slots, 0 ≤ x ∧ x < BLOCK_SIZE

/-- If a write returns `-ENOSPC`, then nothing has changed. -/
def LeavesNoTrace (s : SataFs) (fd : SataFile) (buf : List UInt8) (count : ℤ) : Prop :=
  ∀ slots fd' s', writeSataTraced s fd buf count = some (-ENOSPC, slots, fd', s') →
    Untouched s fd slots fd' s'

/-- `n` blocks are more than there are free, and there are entries of `i_data` for those. -/
def Exhausts (n : ℕ) (cur : SataInode) (d : Disk) : Prop :=
  freeBlocks d < n ∧
    (freeBlocks d = 0 ∨ 0 ≤ cur.blockCount ∧ cur.blockCount + freeBlocks d ≤ dataCount)

section claim

variable {n : ℕ} {cur : SataInode} {d : Disk} {r : Claimed}

/-! ## One block -/

@[simp] theorem sector_readSata (d : Disk) (m : ℕ) : (readSata d m).sector = d.sector := rfl

@[simp] theorem dataBitmap_readSata (d : Disk) (m : ℕ) :
    dataBitmap (readSata d m) = dataBitmap d := dataBitmap_congr (by rw [sector_readSata])

/-- Without a free block there is no index. -/
theorem findIdx?_eq_none_iff_freeBlocks (d : Disk) :
    ((dataBitmap d).findIdx? fun x => x = 0) = none ↔ freeBlocks d = 0 := by
  rw [List.findIdx?_eq_none_iff, freeBlocks, List.count_eq_zero]
  constructor
  · exact fun h hmem => by simpa using h 0 hmem
  · exact fun h x hx => decide_eq_false fun heq => h (heq ▸ hx)

/-- No block is free. -/
theorem getFreeDataInt_of_full (h : freeBlocks d = 0) :
    getFreeDataInt d = (-1, readSata d DATA_BITMAP_START_INDEX) := by
  have hget : getFreeData d = (none, readSata d DATA_BITMAP_START_INDEX) := by
    rw [getFreeData_eq, (findIdx?_eq_none_iff_freeBlocks d).2 h]
  rw [getFreeDataInt, hget]
  rfl

/-- The first free block. -/
theorem exists_getFreeDataInt (h : freeBlocks d ≠ 0) :
    ∃ id : ℕ, id < BLOCK_SIZE ∧ getFreeDataInt d = ((id : ℤ), readSata d DATA_BITMAP_START_INDEX) ∧
      getFreeData d = (some id, readSata d DATA_BITMAP_START_INDEX) ∧
      freeBlocks (setDataBitmap id (readSata d DATA_BITMAP_START_INDEX)) + 1 = freeBlocks d := by
  obtain ⟨id, hid⟩ := Option.ne_none_iff_exists'.1 ((findIdx?_eq_none_iff_freeBlocks d).not.2 h)
  obtain ⟨hlt, hzero, -⟩ := List.findIdx?_eq_some_iff_getElem.1 hid
  have hget : (dataBitmap (readSata d DATA_BITMAP_START_INDEX))[id]? = some 0 := by
    rw [dataBitmap_readSata, List.getElem?_eq_getElem hlt, of_decide_eq_true hzero]
  have hcount := freeBlocks_setDataBitmap hget
  rw [show freeBlocks (readSata d DATA_BITMAP_START_INDEX) = freeBlocks d from
    congrArg (List.count 0) (dataBitmap_readSata d _)] at hcount
  rw [dataBitmap, length_slice] at hlt
  have hfirst : getFreeData d = (some id, readSata d DATA_BITMAP_START_INDEX) := by
    rw [getFreeData_eq, hid]
  refine ⟨id, hlt, ?_, hfirst, hcount⟩
  rw [getFreeDataInt, hfirst]
  rfl

@[simp] theorem setDataBitmapInt_natCast (id : ℕ) (d : Disk) :
    setDataBitmapInt id d = setDataBitmap id d := by
  simp [setDataBitmapInt]

/-- The loop when no block is free. -/
theorem claimBlocks_of_full (h : freeBlocks d = 0) (n : ℕ) (cur : SataInode) :
    claimBlocks (n + 1) cur d = some ⟨true, cur,
      setDataBitmapInt (-1) (readSata d DATA_BITMAP_START_INDEX), [-1]⟩ := by
  simp [claimBlocks, getFreeDataInt_of_full h]

/-- The loop when a block is free. -/
theorem claimBlocks_of_free {id : ℕ}
    (h : getFreeDataInt d = ((id : ℤ), readSata d DATA_BITMAP_START_INDEX)) (n : ℕ) (cur : SataInode) :
    claimBlocks (n + 1) cur d = (cur.addBlock id).bind fun cur =>
      (claimBlocks n cur (setDataBitmap id (readSata d DATA_BITMAP_START_INDEX))).map fun r =>
        { r with slots := (id : ℤ) :: r.slots } := by
  have hne : ¬(id : ℤ) = -1 := by omega
  simp only [claimBlocks, h, if_neg hne, setDataBitmapInt_natCast, Int.toNat_natCast]
  cases cur.addBlock id with
  | none => rfl
  | some cur =>
    simp only [Option.bind_eq_bind, Option.bind_some]
    cases claimBlocks n cur (setDataBitmap id (readSata d DATA_BITMAP_START_INDEX)) <;> rfl

theorem addBlock_eq_some_iff {id : ℕ} {cur' : SataInode} :
    cur.addBlock id = some cur' ↔ (0 ≤ cur.blockCount ∧ cur.blockCount < dataCount) ∧
      cur' = { cur with
        iData := Function.update cur.iData cur.blockCount.toNat id
        blockCount := cur.blockCount + 1 } := by
  rw [SataInode.addBlock]
  split
  case isTrue h => simp [h, eq_comm]
  case isFalse h => simp [h]

/-! ## The loop -/

/-- The loop fails exactly if there are not enough blocks. -/
theorem exists_full_iff (n : ℕ) (cur : SataInode) (d : Disk) :
    (∃ r, claimBlocks n cur d = some r ∧ r.full = true) ↔ Exhausts n cur d := by
  induction n generalizing cur d with
  | zero =>
    refine iff_of_false (by simp [claimBlocks]) ?_
    rw [Exhausts]
    omega
  | succ n ih =>
    by_cases hfree : freeBlocks d = 0
    · refine iff_of_true ⟨_, claimBlocks_of_full hfree n cur, rfl⟩ ?_
      rw [Exhausts]
      omega
    · obtain ⟨id, -, hget, -, hcount⟩ := exists_getFreeDataInt hfree
      rw [claimBlocks_of_free hget]
      cases hadd : cur.addBlock id with
      | none =>
        have hnot : ¬(0 ≤ cur.blockCount ∧ cur.blockCount < dataCount) := fun h => by
          rw [addBlock_eq_some_iff.2 ⟨h, rfl⟩] at hadd
          cases hadd
        simp only [Option.bind_none, Exhausts]
        refine iff_of_false (by simp) ?_
        omega
      | some cur' =>
        obtain ⟨hroom, hcur'⟩ := addBlock_eq_some_iff.1 hadd
        have hstep : cur'.blockCount = cur.blockCount + 1 := by rw [hcur']
        rw [Option.bind_some]
        have hih := ih cur' (setDataBitmap id (readSata d DATA_BITMAP_START_INDEX))
        have hiff : Exhausts n cur' (setDataBitmap id (readSata d DATA_BITMAP_START_INDEX)) ↔
            Exhausts (n + 1) cur d := by
          rw [Exhausts, Exhausts, hstep]
          omega
        rw [← hiff, ← hih]
        simp

/-- A failure comes with a store to the slot -1, and no block is free then; otherwise only slots
of the bitmap are stored to. -/
theorem claimBlocks_spec (h : claimBlocks n cur d = some r) :
    (r.full = true → -1 ∈ r.slots ∧ freeBlocks r.disk = 0) ∧
      (r.full = false → ∀ x ∈ r.slots, 0 ≤ x ∧ x < BLOCK_SIZE) := by
  induction n generalizing cur d r with
  | zero =>
    obtain rfl := Option.some.inj h
    simp
  | succ n ih =>
    by_cases hfree : freeBlocks d = 0
    · rw [claimBlocks_of_full hfree] at h
      obtain rfl := Option.some.inj h
      refine ⟨fun _ => ⟨List.mem_singleton_self _, ?_⟩, fun hfull => by cases hfull⟩
      rw [← hfree]
      refine congrArg (List.count 0) (slice_congr fun k hk => ?_)
      simp [setDataBitmapInt, writeSata, readSata, Drive.store, Drive.load, hk]
    · obtain ⟨id, hid, hget, -⟩ := exists_getFreeDataInt hfree
      rw [claimBlocks_of_free hget, Option.bind_eq_some_iff] at h
      obtain ⟨cur', -, hmap⟩ := h
      obtain ⟨r', hr', heq⟩ := Option.map_eq_some_iff.1 hmap
      obtain ⟨hfull, hslots⟩ := ih hr'
      subst heq
      refine ⟨fun hf => ?_, fun hf => ?_⟩
      · exact ⟨List.mem_cons_of_mem _ (hfull hf).1, (hfull hf).2⟩
      · rw [List.forall_mem_cons]
        exact ⟨⟨Int.natCast_nonneg id, by exact_mod_cast hid⟩, hslots hf⟩

/-- After a failure no block is free. -/
theorem claimBlocks_full (h : claimBlocks n cur d = some r) (hfull : r.full = true) :
    freeBlocks r.disk = 0 := ((claimBlocks_spec h).1 hfull).2

/-- The model in which the store to the slot -1 is a fault. -/
theorem newBlocks_eq_claimBlocks (n : ℕ) (cur : SataInode) (d : Disk) :
    newBlocks n cur d =
      (claimBlocks n cur d).bind fun r => if r.full then none else some (r.inode, r.disk) := by
  induction n generalizing cur d with
  | zero => rfl
  | succ n ih =>
    by_cases hfree : freeBlocks d = 0
    · rw [claimBlocks_of_full hfree, newBlocks, getFreeData_eq,
        (findIdx?_eq_none_iff_freeBlocks d).2 hfree]
      rfl
    · obtain ⟨id, -, hget, hsome, -⟩ := exists_getFreeDataInt hfree
      rw [claimBlocks_of_free hget, newBlocks, hsome]
      simp only [Option.bind_eq_bind, Option.bind_some]
      cases cur.addBlock id with
      | none => rfl
      | some cur' =>
        simp only [Option.bind_some, ih]
        cases claimBlocks n cur' (setDataBitmap id (readSata d DATA_BITMAP_START_INDEX)) <;> rfl

end claim

/-! ## The call -/

section call

variable {s : SataFs} {fd : SataFile} {buf : List UInt8} {count : ℤ}

/-- The number of the loops in both models. -/
theorem newBlockCount_eq (cur : SataInode) (fPos count : ℤ) :
    ((toInt (fPos + count)).tdiv BLOCK_SIZE - (cur.blockCount - 1)).toNat =
      newBlockCount cur fPos count := rfl

/-- The model in which the failure is a fault. -/
theorem writeSataWrapper_eq_traced (s : SataFs) (fd : SataFile) (buf : List UInt8) (count : ℤ) :
    writeSataWrapper s fd buf count =
      (writeSataTraced s fd buf count).bind fun r =>
        if -1 ∈ r.2.1 then none else some (r.1, r.2.2.1, r.2.2.2) := by
  simp only [writeSataWrapper, writeSataTraced, newBlocks_eq_claimBlocks, newBlockCount_eq]
  cases hr : claimBlocks (newBlockCount (s.getInode fd.inode).1 fd.fPos count)
      (s.getInode fd.inode).1 (s.getInode fd.inode).2.disk with
  | none => rfl
  | some r =>
    obtain ⟨hfull, hslots⟩ := claimBlocks_spec hr
    simp only [Option.bind_eq_bind, Option.bind_some]
    cases hf : r.full with
    | true => simp [(hfull hf).1]
    | false =>
      have hnot : -1 ∉ r.slots := fun hmem => by
        have := hslots hf _ hmem
        omega
      simp only [Bool.false_eq_true, reduceIte, Option.bind_some]
      cases writeBlocks r.inode buf fd.fPos count r.disk with
      | none => rfl
      | some d => simp [hnot]

/-- A failure in the loop. -/
theorem writeSataTraced_of_exhausts (buf : List UInt8)
    (h : Exhausts (newBlockCount (s.inode fd.inode) fd.fPos count) (s.inode fd.inode) s.disk) :
    ∃ r : Claimed, -1 ∈ r.slots ∧ freeBlocks r.disk = 0 ∧
      writeSataTraced s fd buf count = some (-ENOSPC, r.slots, fd, { s with disk := r.disk }) := by
  obtain ⟨r, hr, hfull⟩ := (exists_full_iff _ _ (s.getInode fd.inode).2.disk).2 h
  obtain ⟨hslot, hfree⟩ := (claimBlocks_spec hr).1 hfull
  refine ⟨r, hslot, hfree, ?_⟩
  have hr' : claimBlocks (newBlockCount (s.getInode fd.inode).1 fd.fPos count)
      (s.getInode fd.inode).1 (s.getInode fd.inode).2.disk = some r := hr
  simp only [writeSataTraced, hr', Option.bind_eq_bind, Option.bind_some, hfull, reduceIte]
  rfl

/-- Without a failure in the loop, the number of bytes is returned. -/
theorem writeSataTraced_ret
    (h : ¬Exhausts (newBlockCount (s.inode fd.inode) fd.fPos count) (s.inode fd.inode) s.disk)
    {ret : ℤ} {slots : List ℤ} {fd' : SataFile} {s' : SataFs}
    (hwrite : writeSataTraced s fd buf count = some (ret, slots, fd', s')) : ret = count := by
  simp only [writeSataTraced, Option.bind_eq_bind, Option.bind_eq_some_iff] at hwrite
  obtain ⟨r, hr, hwrite⟩ := hwrite
  have hnot : ¬r.full = true := fun hfull =>
    h ((exists_full_iff _ _ (s.getInode fd.inode).2.disk).1 ⟨r, hr, hfull⟩)
  rw [if_neg hnot, Option.bind_eq_some_iff] at hwrite
  obtain ⟨d, -, hret⟩ := hwrite
  rw [← (Prod.mk.inj (Option.some.inj hret)).1]

/-- A failure is not without a trace. -/
theorem not_leavesNoTrace_of_exhausts
    (h : Exhausts (newBlockCount (s.inode fd.inode) fd.fPos count) (s.inode fd.inode) s.disk) :
    ¬LeavesNoTrace s fd buf count := by
  intro hno
  obtain ⟨r, hslot, -, hwrite⟩ := writeSataTraced_of_exhausts buf h
  have hin := (hno _ _ _ hwrite).slots (-1) hslot
  omega

end call

/-- A disk whose only free block is the one with the number 7. -/
def almostFull : Disk where
  sector m k := if m = DATA_BITMAP_START_INDEX ∧ k ≠ 7 then 1 else 0
  buf _ := 0

theorem freeBlocks_almostFull : freeBlocks almostFull = 1 := by decide +kernel

/-- A file without blocks. -/
def emptyFile : SataFs := ⟨almostFull, fun _ => ⟨0, 0, fun _ => 0⟩⟩

end SadOS.Fs
