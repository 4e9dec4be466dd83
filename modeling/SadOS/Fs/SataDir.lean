import SadOS.Fs.Metadata
import SadOS.Fs.TarListing

/-!
# Creating files on disk

`sata_open` of `bin/fs/fs.c` and the functions under it, on the bytes of the disk.  The numbers of
inodes and directory entries come from bitmaps of 512 bytes, and the number of the parent from the
entry that was found.  Neither is compared with the 40 entries of the tables.

Names are shorter than `fname` of `struct file`.  A name that has no zero byte in its entry ends
with the entry.

## Main definitions

* `dentrySlot`, `dentryName`, `dentryId` — fields of a `struct dentry`.
* `lookup`, `sataGetParent`, `createFile`, `sataOpen` — the source.
-/

namespace SadOS.Fs

def O_CREAT : ℕ := 0x40

/-- The length of `fname` of `struct file`. -/
def fnameLength : ℕ := 200

/-- The slots that `build_dentry` clears, and `sata_open` fills. -/
def clearedSlots : ℕ := 24

/-! ## Fields -/

/-- A byte of a structure. -/
def byteOf (s : List UInt8) (k : ℕ) : UInt8 := s.getD k 0

/-- An unsigned number of `width` bytes at the offset `off`. -/
def field (b : ℕ → UInt8) (off width : ℕ) : ℕ := leValue (slice b off width)

/-- `d_subdirs[i]`. -/
def dentrySlot (s : List UInt8) (i : ℕ) : ℕ := field (byteOf s) (offsetOf dentryMembers 2 + 8 * i) 8

/-- `d_subdirs[i] = x`. -/
def setDentrySlot (s : Struct sizeofDentry) (i x : ℕ) : Struct sizeofDentry where
  bytes := slice (assign (byteOf s.bytes) (offsetOf dentryMembers 2 + 8 * i) 8 x) 0 sizeofDentry
  length_eq := length_slice _ _ _

/-- The string in `d_iname`. -/
def dentryName (s : List UInt8) : List UInt8 :=
  (slice (byteOf s) (offsetOf dentryMembers 3) (sizeofDentry - offsetOf dentryMembers 3)).takeWhile
    fun c => c ≠ 0

/-- `dentry_id`. -/
def dentryId (s : List UInt8) : ℕ := field (byteOf s) (offsetOf dentryMembers 4) 4

/-! ## The source -/

/-- What `get_dentry` reads. -/
def dentryAt (j : ℕ) (d : Disk) : Struct sizeofDentry := ⟨(getDentry j d).1, length_slice _ _ _⟩

/-- `read_inode_bitmap`, `read_dentry_bitmap`. -/
def readBitmap (index : ℕ) (d : Disk) : List UInt8 × Disk :=
  let d := readSata d index
  (slice d.buf 0 BLOCK_SIZE, d)

/-- `get_free_inode`, `get_free_dentry`, where `-1` is nothing. -/
def getFree (index : ℕ) (d : Disk) : Option ℕ × Disk :=
  let (bitmap, d) := readBitmap index d
  (bitmap.findIdx? fun x => x = 0, d)

/-- A loop over the ids in a bitmap, which ends at a directory entry with a name.  The loop of
`sata_open` reads the inodes as well. -/
def lookup (inodes : Bool) (name bitmap : List UInt8) : ℕ → ℕ → Disk → Option (ℕ × List UInt8) × Disk
  | 0, _, d => (none, d)
  | n + 1, i, d =>
    if bitmap.getD i 0 = 0 then lookup inodes name bitmap n (i + 1) d
    else
      let d := if inodes then (getInode i d).2 else d
      let (dentry, d) := getDentry i d
      if dentryName dentry = name then (some (i, dentry), d)
      else lookup inodes name bitmap n (i + 1) d

/-- `sata_get_parent`, where `-1` is nothing.  `parent_dir` has room for a name that fits
`fname`. -/
def sataGetParent (name : List UInt8) (d : Disk) : Option ℕ × Disk :=
  let (bitmap, d) := readBitmap INODE_BITMAP_START_INDEX d
  let (found, d) := lookup false ((parentDir name).getD []) bitmap BLOCK_SIZE 0 d
  let parent := found.map fun x => dentryId x.2
  (if parent = some (2 ^ 32 - 1) then none else parent, d)

/-- The loop of `sata_open` over `n` slots of the parent. -/
def addSubdir (id : ℕ) : ℕ → ℕ → Struct sizeofDentry → Struct sizeofDentry
  | 0, _, s => s
  | n + 1, i, s =>
    if dentrySlot s.bytes i = 0 then setDentrySlot s i id else addSubdir id n (i + 1) s

/-- The numbers of a new file: its inode, its directory entry, and its parent. -/
structure Created where
  inode : ℕ
  dentry : ℕ
  parent : ℕ
  deriving DecidableEq

/-- The end of `sata_open` for a new file; `heap` is what memory has under `new_dentry`. -/
def buildFile (c : Created) (pathname : List UInt8) (heap : ℕ → UInt8) (d : Disk) : Disk :=
  let d := buildInode c.inode O_CREAT d
  let d := buildDentry c.inode c.dentry c.parent pathname heap d
  let parentDentry := dentryAt c.parent d
  let d := (getDentry c.parent d).2
  writeDentry c.parent (addSubdir c.inode clearedSlots 0 parentDentry) d

/-- `sata_open` with `O_CREAT`, for a name that was not found. -/
def createFile (pathname : List UInt8) (heap : ℕ → UInt8) (d : Disk) : Option Created × Disk :=
  let (parent, d) := sataGetParent pathname d
  match parent with
  | none => (none, d)
  | some parent =>
    let (inodeId, d) := getFree INODE_BITMAP_START_INDEX d
    let (dentryId, d) := getFree DENTRY_BITMAP_START_INDEX d
    match inodeId, dentryId with
    | some inode, some dentry =>
      (some ⟨inode, dentry, parent⟩, buildFile ⟨inode, dentry, parent⟩ pathname heap d)
    | _, _ => (none, d)

/-- What `sata_open` does: no file is opened, one that is there, or a new one. -/
inductive Opened where
  | failed
  | found (inode : ℕ)
  | created (c : Created)

/-- `inode` of the `struct file` that `sata_open` returns. -/
def Opened.inode : Opened → Option ℕ
  | .failed => none
  | .found i => some i
  | .created c => some c.inode

/-- `sata_open` with `O_CREAT`. -/
def sataOpen (pathname : List UInt8) (heap : ℕ → UInt8) (d : Disk) : Opened × Disk :=
  let (bitmap, d) := readBitmap INODE_BITMAP_START_INDEX d
  let (found, d) := lookup true pathname bitmap BLOCK_SIZE 0 d
  match found with
  | some (i, _) => (.found i, d)
  | none =>
    match createFile pathname heap d with
    | (some c, d) => (.created c, d)
    | (none, d) => (.failed, d)

/-- `init_fs`: the disk is cleared, and gets the root. -/
def initFs (sector : ℕ → ℕ → UInt8) (heap : ℕ → UInt8) : Disk :=
  buildDentry 0 0 (2 ^ 64 - 1) [slash] heap (buildInode 0 0 (format sector))

end SadOS.Fs
