import SadOS.Lib.Packed
import SadOS.Lib.ByteMem
import SadOS.Lib.Outcome
import SadOS.Machine

/-!
# Inodes and directory entries on disk

The functions of `bin/fs/fs.c` that read and write inodes and directory entries, with
the sectors of the disk and the scratch page `common_buf`.  An inode has 144 bytes and
four of them share a sector; a directory entry has 304 and two share one.  So the last
one of each sector sticks out of it.

## Main definitions

* `structLayout` — offsets and size of the members of a C structure.
* `buildInode`, `writeInode`, `getInode`, `buildDentry`, `writeDentry`, `getDentry`.
* `Store` — the disk, with the structures that were last written.
* `readsBack_iff` — when structures are read as they were written.
-/

namespace SadOS.Fs

/-! ## Layout -/

/-- A member of a structure: the size and the alignment of its elements, and their
number. -/
structure Member where
  size : ℕ
  align : ℕ
  count : ℕ

/-- The least multiple of `align` from `n` on. -/
def roundUp (n align : ℕ) : ℕ := (n + align - 1) / align * align

/-- The offsets of the members, and the size of the structure. -/
def structLayout (members : List Member) : List ℕ × ℕ :=
  let r := members.foldl (fun (r : List ℕ × ℕ) m =>
    let off := roundUp r.2 m.align
    (r.1 ++ [off], off + m.size * m.count)) ([], 0)
  (r.1, roundUp r.2 ((members.map Member.align).foldl max 1))

def int : Member := ⟨4, 4, 1⟩
def pointers (count : ℕ) : Member := ⟨8, 8, count⟩

/-- `struct inode`: `inode_id`, `file_len`, `block_count`, `i_data`, `flags`. -/
def inodeMembers : List Member := [int, int, int, pointers 15, ⟨2, 2, 1⟩]

/-- `struct dentry`: `d_sb`, `d_parent`, `d_subdirs`, `d_iname`, `dentry_id`, `d_inode`. -/
def dentryMembers : List Member := [pointers 1, pointers 1, pointers 30, ⟨1, 1, 30⟩, int, pointers 1]

def sizeofInode : ℕ := (structLayout inodeMembers).2
def sizeofDentry : ℕ := (structLayout dentryMembers).2

/-- The offset of a member. -/
def offsetOf (members : List Member) (n : ℕ) : ℕ := (structLayout members).1.getD n 0

theorem sizeofInode_eq : sizeofInode = 144 := rfl

theorem sizeofDentry_eq : sizeofDentry = 304 := rfl

/-- A structure of `n` bytes. -/
structure Struct (n : ℕ) where
  bytes : List UInt8
  length_eq : bytes.length = n

/-! ## The source -/

def BLOCK_SIZE : ℕ := 512
def INODE_BITMAP_START_INDEX : ℕ := 1
def DENTRY_BITMAP_START_INDEX : ℕ := 3
def INODE_START_INDEX : ℕ := 4
def DENTRY_START_INDEX : ℕ := 14
def TOTAL_BLOCK_COUNT : ℕ := 44

/-- The disk, and `common_buf`. -/
abbrev Disk := Drive UInt8

/-- `read_sata(pdtable[0], index, 0, 1, common_buf)`. -/
def readSata (d : Disk) (index : ℕ) : Disk := d.load BLOCK_SIZE index

/-- `write_sata(pdtable[0], index, 0, 1, common_buf)`. -/
def writeSata (d : Disk) (index : ℕ) : Disk := d.store BLOCK_SIZE index

/-- `set_inode_bitmap`, `set_dentry_bitmap`. -/
def setBitmap (index id : ℕ) (d : Disk) : Disk :=
  let d := readSata d index
  let bitmap := slice d.buf 0 BLOCK_SIZE
  let d := { d with buf := splice d.buf 0 (bitmap.set id 1) }
  writeSata d index

def inodeTable : Table := ⟨INODE_START_INDEX, 4, sizeofInode⟩
def dentryTable : Table := ⟨DENTRY_START_INDEX, 2, sizeofDentry⟩

/-- An integer of `width` bytes to the offset `off`. -/
def assign (b : ℕ → UInt8) (off width x : ℕ) : ℕ → UInt8 := splice b off (leBytes width x)

/-- The assignments of `build_inode`, through the pointer `common_buf + at_`. -/
def fillInode (at_ id flags : ℕ) (b : ℕ → UInt8) : ℕ → UInt8 :=
  let field := fun n => at_ + offsetOf inodeMembers n
  let b := assign b (field 0) 4 id
  let b := assign b (field 1) 4 0
  let b := assign b (field 2) 4 0
  let b := (List.range 13).foldl (fun b i => assign b (field 3 + 8 * i) 8 0) b
  assign b (field 4) 2 flags

/-- `build_inode`. -/
def buildInode (id flags : ℕ) (d : Disk) : Disk :=
  let d := setBitmap INODE_BITMAP_START_INDEX id d
  let blockId := id / 4
  let blockOffset := id % 4
  let d := readSata d (INODE_START_INDEX + blockId)
  let d := { d with buf := fillInode (blockOffset * sizeofInode) id flags d.buf }
  writeSata d (INODE_START_INDEX + blockId)

/-- `write_inode`. -/
def writeInode (i : ℕ) (s : Struct sizeofInode) (d : Disk) : Disk :=
  let blockId := i / 4
  let blockOffset := i % 4
  let d := readSata d (INODE_START_INDEX + blockId)
  let d := { d with buf := splice d.buf (blockOffset * sizeofInode) s.bytes }
  writeSata d (INODE_START_INDEX + blockId)

/-- `get_inode`. -/
def getInode (i : ℕ) (d : Disk) : List UInt8 × Disk :=
  let blockId := i / 4
  let blockOffset := i % 4
  let d := readSata d (INODE_START_INDEX + blockId)
  (slice d.buf (blockOffset * sizeofInode) sizeofInode, d)

/-- `write_dentry`. -/
def writeDentry (j : ℕ) (s : Struct sizeofDentry) (d : Disk) : Disk :=
  let blockId := j / 2
  let blockOffset := j % 2
  let d := readSata d (DENTRY_START_INDEX + blockId)
  let d := { d with buf := splice d.buf (blockOffset * sizeofDentry) s.bytes }
  writeSata d (DENTRY_START_INDEX + blockId)

/-- `get_dentry`. -/
def getDentry (j : ℕ) (d : Disk) : List UInt8 × Disk :=
  let blockId := j / 2
  let blockOffset := j % 2
  let d := readSata d (DENTRY_START_INDEX + blockId)
  (slice d.buf (blockOffset * sizeofDentry) sizeofDentry, d)

/-- The assignments of `build_dentry` to `new_dentry`, where memory had the bytes `heap`.
For odd ids `new_dentry` was moved past the object that `malloc` returned. -/
def fillDentry (inodeId dentryId dParent : ℕ) (iname : List UInt8) (heap : ℕ → UInt8) : ℕ → UInt8 :=
  let field := offsetOf dentryMembers
  let b := assign heap (field 1) 8 dParent
  let b := (List.range 24).foldl (fun b i => assign b (field 2 + 8 * i) 8 0) b
  -- `strcpy`, which does not look at the length of `d_iname`
  let b := splice b (field 3) (iname ++ [0])
  let b := assign b (field 5) 8 inodeId
  assign b (field 4) 4 dentryId

/-- The structure that `build_dentry` builds. -/
def builtDentry (inodeId dentryId dParent : ℕ) (iname : List UInt8) (heap : ℕ → UInt8) :
    Struct sizeofDentry where
  bytes := slice (fillDentry inodeId dentryId dParent iname heap) 0 sizeofDentry
  length_eq := length_slice _ _ _

/-- `build_dentry`. -/
def buildDentry (inodeId dentryId dParent : ℕ) (iname : List UInt8) (heap : ℕ → UInt8)
    (d : Disk) : Disk :=
  let d := setBitmap DENTRY_BITMAP_START_INDEX dentryId d
  let d := readSata d (DENTRY_START_INDEX + dentryId / 2)
  writeDentry dentryId (builtDentry inodeId dentryId dParent iname heap) d

/-- The begin of `init_fs`: all sectors in use are cleared. -/
def format (sector : ℕ → ℕ → UInt8) : Disk :=
  (List.range TOTAL_BLOCK_COUNT).foldl writeSata ⟨sector, fun _ => 0⟩

/-! ## The store -/

inductive FsOp
  | writeInode (i : Fin 40) (s : Struct sizeofInode)
  | buildInode (i : Fin 40) (flags : UInt16)
  | getInode (i : Fin 40)
  | writeDentry (j : Fin 40) (s : Struct sizeofDentry)
  | buildDentry (j : Fin 40) (inodeId dParent : UInt64) (iname : List UInt8) (heap : ℕ → UInt8)
  | getDentry (j : Fin 40)

/-- The disk, and the inodes and directory entries as they were last written. -/
structure Store where
  disk : Disk
  inode : ℕ → List UInt8
  dentry : ℕ → List UInt8

/-- The inode that `build_inode` builds in `common_buf`. -/
def builtInode (i flags : ℕ) (d : Disk) : List UInt8 :=
  inodeTable.modified BLOCK_SIZE i (fillInode (i % 4 * sizeofInode) i flags)
    (setBitmap INODE_BITMAP_START_INDEX i d)

def Store.step (w : Store) : FsOp → Store
  | .writeInode i s =>
    { w with disk := writeInode i s w.disk, inode := Function.update w.inode i s.bytes }
  | .buildInode i flags =>
    { w with
      disk := buildInode i flags.toNat w.disk
      inode := Function.update w.inode i (builtInode i flags.toNat w.disk) }
  | .getInode i => { w with disk := (getInode i w.disk).2 }
  | .writeDentry j s =>
    { w with disk := writeDentry j s w.disk, dentry := Function.update w.dentry j s.bytes }
  | .buildDentry j inodeId dParent iname heap =>
    { w with
      disk := buildDentry inodeId.toNat j dParent.toNat iname heap w.disk
      dentry := Function.update w.dentry j
        (builtDentry inodeId.toNat j dParent.toNat iname heap).bytes }
  | .getDentry j => { w with disk := (getDentry j w.disk).2 }

/-- A structure that is read is the one that was last written. -/
def Store.ReadsBack (w : Store) : FsOp → Prop
  | .getInode i => (getInode i w.disk).1 = w.inode i
  | .getDentry j => (getDentry j w.disk).1 = w.dentry j
  | _ => True

/-- What sticks out of the sector, of a structure that is read, is still in `common_buf`. -/
def Store.TailInBuffer (w : Store) : FsOp → Prop
  | .getInode i => inodeTable.Overhang BLOCK_SIZE i (w.inode i) w.disk
  | .getDentry j => dentryTable.Overhang BLOCK_SIZE j (w.dentry j) w.disk
  | _ => True

/-- After `init_fs` has cleared the disk. -/
def Store.boot (sector : ℕ → ℕ → UInt8) : Store where
  disk := format sector
  inode := fun _ => List.replicate sizeofInode 0
  dentry := fun _ => List.replicate sizeofDentry 0

/-! ## The source in terms of tables -/

theorem writeInode_eq (i : ℕ) (s : Struct sizeofInode) (d : Disk) :
    writeInode i s d =
      inodeTable.modify BLOCK_SIZE i (fun b => splice b (inodeTable.off i) s.bytes) d := rfl

theorem buildInode_eq (i flags : ℕ) (d : Disk) :
    buildInode i flags d = inodeTable.modify BLOCK_SIZE i
      (fillInode (inodeTable.off i) i flags) (setBitmap INODE_BITMAP_START_INDEX i d) := rfl

theorem getInode_eq (i : ℕ) (d : Disk) : getInode i d = inodeTable.get BLOCK_SIZE i d := rfl

theorem writeDentry_eq (j : ℕ) (s : Struct sizeofDentry) (d : Disk) :
    writeDentry j s d =
      dentryTable.modify BLOCK_SIZE j (fun b => splice b (dentryTable.off j) s.bytes) d := rfl

theorem getDentry_eq (j : ℕ) (d : Disk) : getDentry j d = dentryTable.get BLOCK_SIZE j d := rfl

theorem local_assign {lo hi off width x : ℕ} (hlo : lo ≤ off) (hhi : off + width ≤ hi) :
    Local lo hi fun b => assign b off width x :=
  local_splice hlo (by rwa [length_leBytes])

/-- `build_inode` stays inside the inode. -/
theorem local_fillInode (at_ i flags : ℕ) :
    Local at_ (at_ + sizeofInode) (fillInode at_ i flags) := by
  have hid : offsetOf inodeMembers 0 = 0 := rfl
  have hlen : offsetOf inodeMembers 1 = 4 := rfl
  have hcount : offsetOf inodeMembers 2 = 8 := rfl
  have hdata : offsetOf inodeMembers 3 = 16 := rfl
  have hflags : offsetOf inodeMembers 4 = 136 := rfl
  have hsize : sizeofInode = 144 := rfl
  have h₀ : Local at_ (at_ + sizeofInode) fun b => assign b (at_ + offsetOf inodeMembers 0) 4 i :=
    local_assign (by omega) (by omega)
  have h₁ : Local at_ (at_ + sizeofInode) fun b => assign b (at_ + offsetOf inodeMembers 1) 4 0 :=
    local_assign (by omega) (by omega)
  have h₂ : Local at_ (at_ + sizeofInode) fun b => assign b (at_ + offsetOf inodeMembers 2) 4 0 :=
    local_assign (by omega) (by omega)
  have h₃ : Local at_ (at_ + sizeofInode) fun b => (List.range 13).foldl
      (fun b k => assign b (at_ + offsetOf inodeMembers 3 + 8 * k) 8 0) b := by
    refine Local.foldl fun k hk => ?_
    rw [List.mem_range] at hk
    exact local_assign (by omega) (by omega)
  have h₄ : Local at_ (at_ + sizeofInode)
      fun b => assign b (at_ + offsetOf inodeMembers 4) 2 flags :=
    local_assign (by omega) (by omega)
  exact h₄.comp (h₃.comp (h₂.comp (h₁.comp h₀)))

/-! ## The invariant -/

/-- Each structure is on the disk, as far as it lies in its sector. -/
structure Store.Holds (w : Store) : Prop where
  inode : inodeTable.Keeps BLOCK_SIZE 40 w.inode w.disk
  dentry : dentryTable.Keeps BLOCK_SIZE 40 w.dentry w.disk

theorem block_inode {i : ℕ} (hi : i < 40) :
    4 ≤ inodeTable.block i ∧ inodeTable.block i < 14 := by
  have hblock : inodeTable.block i = 4 + i / 4 := rfl
  omega

theorem block_dentry {j : ℕ} (hj : j < 40) :
    14 ≤ dentryTable.block j ∧ dentryTable.block j < 34 := by
  have hblock : dentryTable.block j = 14 + j / 2 := rfl
  omega

theorem sector_setBitmap {index id m : ℕ} {d : Disk} (hm : m ≠ index) :
    (setBitmap index id d).sector m = d.sector m := by
  simp [setBitmap, writeSata, readSata, Drive.store, Drive.load, hm]

namespace Store.Holds

variable {w : Store}

/-- A sector is read. -/
theorem load (h : w.Holds) (m : ℕ) : Holds { w with disk := readSata w.disk m } :=
  ⟨h.inode.load m, h.dentry.load m⟩

/-- A bitmap changes. -/
theorem setBitmap (h : w.Holds) {index : ℕ} (hindex : index < 4) (id : ℕ) :
    Holds { w with disk := Fs.setBitmap index id w.disk } := by
  refine ⟨h.inode.congr fun i hi => sector_setBitmap ?_,
    h.dentry.congr fun j hj => sector_setBitmap ?_⟩
  · have := block_inode hi
    omega
  · have := block_dentry hj
    omega

/-- An inode changes. -/
theorem modifyInode (h : w.Holds) {i : ℕ} (hi : i < 40) {f : (ℕ → UInt8) → ℕ → UInt8}
    (hf : Local (inodeTable.off i) (inodeTable.off i + inodeTable.size) f) :
    Holds { w with
      disk := inodeTable.modify BLOCK_SIZE i f w.disk
      inode := Function.update w.inode i (inodeTable.modified BLOCK_SIZE i f w.disk) } := by
  refine ⟨h.inode.modify hf, h.dentry.congr fun j hj => Table.sector_modify ?_⟩
  have := block_inode hi
  have := block_dentry hj
  omega

/-- A directory entry changes. -/
theorem modifyDentry (h : w.Holds) {j : ℕ} (hj : j < 40) {f : (ℕ → UInt8) → ℕ → UInt8}
    (hf : Local (dentryTable.off j) (dentryTable.off j + dentryTable.size) f) :
    Holds { w with
      disk := dentryTable.modify BLOCK_SIZE j f w.disk
      dentry := Function.update w.dentry j (dentryTable.modified BLOCK_SIZE j f w.disk) } := by
  refine ⟨h.inode.congr fun i hi => Table.sector_modify ?_, h.dentry.modify hf⟩
  have := block_inode hi
  have := block_dentry hj
  omega

end Store.Holds

/-- A structure that is put as a whole is the one that is written. -/
theorem modified_splice (t : Table) (i : ℕ) {l : List UInt8} (hl : l.length = t.size) (d : Disk) :
    t.modified BLOCK_SIZE i (fun b => splice b (t.off i) l) d = l := by
  rw [Table.modified, ← hl]
  exact slice_splice _ _ _

theorem Store.Holds.step {w : Store} (h : w.Holds) (op : FsOp) : (w.step op).Holds := by
  cases op with
  | writeInode i s =>
    have hmod := h.modifyInode i.isLt (local_splice (l := s.bytes) (le_refl _) (by
      rw [s.length_eq]
      exact le_refl _))
    rw [modified_splice inodeTable i s.length_eq] at hmod
    exact hmod
  | buildInode i flags =>
    exact (h.setBitmap (by decide) i).modifyInode i.isLt (local_fillInode _ i flags.toNat)
  | getInode i => exact h.load _
  | writeDentry j s =>
    have hmod := h.modifyDentry j.isLt (local_splice (l := s.bytes) (le_refl _) (by
      rw [s.length_eq]
      exact le_refl _))
    rw [modified_splice dentryTable j s.length_eq] at hmod
    exact hmod
  | buildDentry j inodeId dParent iname heap =>
    obtain ⟨s, hs⟩ : ∃ s, s = builtDentry inodeId.toNat j dParent.toNat iname heap := ⟨_, rfl⟩
    have hindex : DENTRY_BITMAP_START_INDEX < 4 := by decide
    have hbit := h.setBitmap hindex j
    have hmod := (hbit.load (DENTRY_START_INDEX + j / 2)).modifyDentry j.isLt
      (local_splice (l := s.bytes) (le_refl _) (by
        rw [s.length_eq]
        exact le_refl _))
    rw [modified_splice dentryTable j s.length_eq, hs] at hmod
    exact hmod
  | getDentry j => exact h.load _

/-- The loop of `init_fs` clears the sectors. -/
theorem sector_format (sector : ℕ → ℕ → UInt8) {m k : ℕ} (hm : m < TOTAL_BLOCK_COUNT)
    (hk : k < BLOCK_SIZE) : (format sector).sector m k = 0 := by
  have hloop : ∀ n, ((List.range n).foldl writeSata ⟨sector, fun _ => 0⟩).buf = (fun _ => 0) ∧
      ∀ m < n, ((List.range n).foldl writeSata ⟨sector, fun _ => 0⟩).sector m k = 0 := by
    intro n
    induction n with
    | zero => exact ⟨rfl, by simp⟩
    | succ n ih =>
      rw [List.range_succ, List.foldl_append]
      refine ⟨ih.1, fun m hm => ?_⟩
      by_cases hmn : m = n
      · simp [writeSata, Drive.store, hmn, ih.1, hk]
      · have := ih.2 m (by omega)
        simpa [writeSata, Drive.store, hmn] using this
  exact (hloop _).2 m hm

theorem holds_boot (sector : ℕ → ℕ → UInt8) : (Store.boot sector).Holds := by
  refine ⟨fun i hi => ⟨List.length_replicate, fun k hk hS => ?_⟩,
    fun j hj => ⟨List.length_replicate, fun k hk hS => ?_⟩⟩
  · have hblock := block_inode hi
    rw [show (Store.boot sector).disk = format sector from rfl, sector_format sector
      (by unfold TOTAL_BLOCK_COUNT; omega) hS]
    exact List.getElem?_replicate_of_lt hk
  · have hblock := block_dentry hj
    rw [show (Store.boot sector).disk = format sector from rfl, sector_format sector
      (by unfold TOTAL_BLOCK_COUNT; omega) hS]
    exact List.getElem?_replicate_of_lt hk

/-- One read. -/
theorem Store.Holds.read_iff {w : Store} (h : w.Holds) (op : FsOp) :
    w.ReadsBack op ↔ w.TailInBuffer op := by
  cases op with
  | getInode i => exact Table.get_eq_iff h.inode i.isLt
  | getDentry j => exact Table.get_eq_iff h.dentry j.isLt
  | writeInode i s => exact Iff.rfl
  | buildInode i flags => exact Iff.rfl
  | writeDentry j s => exact Iff.rfl
  | buildDentry j inodeId dParent iname heap => exact Iff.rfl

/-- Structures are read as they were last written exactly in those runs in which
`common_buf` still has the part of each that sticks out of its sector. -/
theorem readsBack_iff (sector : ℕ → ℕ → UInt8) (ops : List FsOp) :
    Always Store.ReadsBack Store.step (Store.boot sector) ops ↔
      Always Store.TailInBuffer Store.step (Store.boot sector) ops := by
  have hrun : ∀ (w : Store), w.Holds →
      (Always Store.ReadsBack Store.step w ops ↔ Always Store.TailInBuffer Store.step w ops) := by
    induction ops with
    | nil => exact fun _ _ => Iff.rfl
    | cons op rest ih => exact fun w h => and_congr (h.read_iff op) (ih _ (h.step op))
  exact hrun _ (holds_boot sector)

/-- Three inodes of four lie inside their sectors. -/
theorem tail_inode_of_inside {i : ℕ} (hi : i % 4 ≠ 3) (l : List UInt8) (d : Disk) :
    inodeTable.Overhang BLOCK_SIZE i l d := by
  refine Table.overhang_of_le ?_ l
  have hoff : inodeTable.off i + inodeTable.size = i % 4 * 144 + 144 := rfl
  rw [hoff, BLOCK_SIZE]
  omega

/-- One directory entry of two does. -/
theorem tail_dentry_of_inside {j : ℕ} (hj : j % 2 = 0) (l : List UInt8) (d : Disk) :
    dentryTable.Overhang BLOCK_SIZE j l d := by
  refine Table.overhang_of_le ?_ l
  have hoff : dentryTable.off j + dentryTable.size = j % 2 * 304 + 304 := rfl
  rw [hoff, BLOCK_SIZE]
  omega

/-- Two inodes at the ends of their sectors: the flags of one are read as those of the
other. -/
theorem readsBack_fails : ¬∀ (sector : ℕ → ℕ → UInt8) (ops : List FsOp),
    Always Store.ReadsBack Store.step (Store.boot sector) ops := by
  intro h
  obtain ⟨-, -, hread, -⟩ := h (fun _ _ => 0) [.buildInode 3 1, .buildInode 7 2, .getInode 3]
  have hflags := congrArg (fun l => l[offsetOf inodeMembers 4]?) hread
  revert hflags
  decide +kernel

end SadOS.Fs
