import SadOS.Fs.SataFile

/-!
# Files on disk as byte strings

Reads and writes through many descriptors, on many files, in any order.  A file on disk stands
for a list of bytes, which a write overwrites or makes longer, and of which a read returns a
part.

## Main definitions

* `ByteFiles`, `ByteFiles.step` — files as lists of bytes.
* `SataWorld`, `SataWorld.step` — files on disk, and descriptors.
* `SataWorld.Stands` — a disk stands for lists of bytes.
* `SataWorld.Sound` — the invariant.
* `RunStands` — what a run returns is what it returns of lists of bytes.

## Main results

* `Sound.step_of_fits`, `Sound.step_of_not_fits` — an operation.
* `byteFiles_iff` — a run.
-/

namespace SadOS.Fs

/-! ## Lists of bytes -/

/-- The bytes of files, and the file and position of every descriptor. -/
structure ByteFiles where
  content : ℕ → List UInt8
  owner : ℕ → ℕ
  pos : ℕ → ℕ

inductive FileOp
  | read (fd : ℕ) (count : ℤ)
  | write (fd : ℕ) (buf : List UInt8)

/-- What an operation returns and stores. -/
def ByteFiles.step (a : ByteFiles) : FileOp → ByteFiles × ℤ × List UInt8
  | .read fd count =>
    let bytes := ((a.content (a.owner fd)).drop (a.pos fd)).take count.toNat
    ({ a with pos := Function.update a.pos fd (a.pos fd + bytes.length) }, bytes.length, bytes)
  | .write fd buf =>
    let content := overwrite (a.content (a.owner fd)) (a.pos fd) buf
    ({ a with
      content := Function.update a.content (a.owner fd) content
      pos := Function.update a.pos fd (a.pos fd + buf.length) }, buf.length, [])

/-! ## The disk -/

/-- The disk, and the descriptors. -/
structure SataWorld where
  fs : SataFs
  fds : ℕ → SataFile

def SataWorld.step (w : SataWorld) : FileOp → Option (SataWorld × ℤ × List UInt8)
  | .read fd count => do
    let (ret, bytes, f, fs) ← readSataWrapper w.fs (w.fds fd) count
    return (⟨fs, Function.update w.fds fd f⟩, ret, bytes)
  | .write fd buf => do
    let (ret, f, fs) ← writeSataWrapper w.fs (w.fds fd) buf buf.length
    return (⟨fs, Function.update w.fds fd f⟩, ret, [])

/-- A disk stands for lists of bytes. -/
structure SataWorld.Stands (w : SataWorld) (a : ByteFiles) : Prop where
  fileLen : ∀ i, (w.fs.inode i).fileLen = (a.content i).length
  content : ∀ i, a.content i = slice ((w.fs.inode i).byte w.fs.disk) 0 (a.content i).length
  fds : ∀ fd, w.fds fd = ⟨a.owner fd, a.pos fd⟩

/-- The count of a read is an `int` that is not negative.  With a write the file has less than
`15 * 512` bytes, and there are free blocks. -/
def SataWorld.Allows (w : SataWorld) (a : ByteFiles) : FileOp → Prop
  | .read _ count => 0 ≤ count ∧ count < 2 ^ 31
  | .write fd buf => a.pos fd + buf.length < dataCount * BLOCK_SIZE ∧
      ((a.pos fd + buf.length) / BLOCK_SIZE + 1 : ℕ) - (w.fs.inode (a.owner fd)).blockCount ≤
        freeBlocks w.fs.disk

/-- A read is at the end of its file, or the sum of position and count is an `int`. -/
def ByteFiles.Fits (a : ByteFiles) : FileOp → Prop
  | .read fd count => a.pos fd = (a.content (a.owner fd)).length ∨ a.pos fd + count < 2 ^ 31
  | .write _ _ => True

/-- In a run every operation is allowed. -/
def RunAllows : SataWorld → ByteFiles → List FileOp → Prop
  | _, _, [] => True
  | w, a, op :: ops => w.Allows a op ∧ ∀ r, w.step op = some r → RunAllows r.1 (a.step op).1 ops

/-- In a run every operation does what it does to lists of bytes. -/
def RunStands : SataWorld → ByteFiles → List FileOp → Prop
  | _, _, [] => True
  | w, a, op :: ops => ∃ w', w.step op = some (w', (a.step op).2) ∧ w'.Stands (a.step op).1 ∧
      RunStands w' (a.step op).1 ops

def RunFits : ByteFiles → List FileOp → Prop
  | _, [] => True
  | a, op :: ops => a.Fits op ∧ RunFits (a.step op).1 ops

/-- The blocks of the files are their own, and are as many as their lengths need; descriptors are
in their files. -/
structure SataWorld.Sound (w : SataWorld) (a : ByteFiles) : Prop extends w.Stands a where
  blocks : Blocks w.fs.inode w.fs.disk
  count : ∀ i, (w.fs.inode i).blockCount = ((a.content i).length / BLOCK_SIZE + 1 : ℕ) ∨
    ((w.fs.inode i).blockCount = 0 ∧ (a.content i).length = 0)
  short : ∀ i, (a.content i).length < dataCount * BLOCK_SIZE
  pos_le : ∀ fd, a.pos fd ≤ (a.content (a.owner fd)).length

/-! ## Reads -/

section read

variable {w : SataWorld} {a : ByteFiles} {fd : ℕ} {count : ℤ}

/-- A descriptor is moved. -/
theorem fds_update (h : ∀ fd, w.fds fd = ⟨a.owner fd, a.pos fd⟩) (p : ℕ) (fd' : ℕ) :
    Function.update w.fds fd ⟨a.owner fd, p⟩ fd' =
      ⟨a.owner fd', (Function.update a.pos fd p fd' : ℕ)⟩ := by
  by_cases hfd : fd' = fd
  · subst hfd
    rw [Function.update_self, Function.update_self]
  · rw [Function.update_of_ne hfd, Function.update_of_ne hfd]
    exact h fd'

/-- A read changes the buffer of the disk and the position. -/
theorem SataWorld.Sound.read (h : w.Sound a) {d : Disk} (hd : d.sector = w.fs.disk.sector)
    {p : ℕ} (hp : p ≤ (a.content (a.owner fd)).length) :
    SataWorld.Sound ⟨{ w.fs with disk := d }, Function.update w.fds fd ⟨a.owner fd, p⟩⟩
      { a with pos := Function.update a.pos fd p } := by
  refine ⟨⟨h.fileLen, fun i => ?_, fds_update h.fds p⟩, h.blocks.congr (congrFun hd _), h.count,
    h.short, fun fd' => ?_⟩
  · rw [(w.fs.inode i).byte_congr hd]
    exact h.content i
  · dsimp only
    by_cases hfd : fd' = fd
    · subst hfd
      rw [Function.update_self]
      exact hp
    · rw [Function.update_of_ne hfd]
      exact h.pos_le fd'

/-- The bytes that a read returns. -/
theorem SataWorld.Sound.bytes (h : w.Sound a) (i p n : ℕ) : ((a.content i).drop p).take n =
    slice ((w.fs.inode i).byte w.fs.disk) p (min n ((a.content i).length - p)) := by
  nth_rewrite 1 [h.content i]
  exact take_drop_slice _ _ p n

theorem SataWorld.Sound.step_read (h : w.Sound a) (hcount : 0 ≤ count)
    (hfits : a.Fits (.read fd count)) : ∃ w', w.step (.read fd count) =
      some (w', (a.step (.read fd count)).2) ∧ w'.Sound (a.step (.read fd count)).1 := by
  obtain ⟨d', hread, hsector⟩ := readSataWrapper_eq (h.fileLen (a.owner fd)) (h.pos_le fd)
    (h.short (a.owner fd)) hcount hfits
  have hle := h.pos_le fd
  have hstep : a.step (.read fd count) =
      ({ a with pos := Function.update a.pos fd (a.pos fd +
          min count.toNat ((a.content (a.owner fd)).length - a.pos fd)) },
        ((min count.toNat ((a.content (a.owner fd)).length - a.pos fd) : ℕ) : ℤ),
        slice ((w.fs.inode (a.owner fd)).byte w.fs.disk) (a.pos fd)
          (min count.toNat ((a.content (a.owner fd)).length - a.pos fd))) := by
    rw [ByteFiles.step, h.bytes, length_slice]
  rw [hstep]
  refine ⟨_, ?_, h.read hsector ?_⟩
  · rw [SataWorld.step, h.fds fd, hread]
    rfl
  · omega

theorem SataWorld.Sound.step_read_of_not_fits (h : w.Sound a) (hlt : count < 2 ^ 31)
    (hfits : ¬a.Fits (.read fd count)) : w.step (.read fd count) = none := by
  obtain ⟨hne, hsum⟩ := not_or.1 hfits
  rw [SataWorld.step, h.fds fd, readSataWrapper_none (h.fileLen (a.owner fd))
    (Nat.lt_of_le_of_ne (h.pos_le fd) hne) (h.short (a.owner fd)) hlt (not_lt.1 hsum)]
  rfl

end read

/-! ## Writes -/

theorem SataWorld.Sound.step_write {w : SataWorld} {a : ByteFiles} {fd : ℕ} {buf : List UInt8}
    (h : w.Sound a) (hallows : w.Allows a (.write fd buf)) : ∃ w', w.step (.write fd buf) =
      some (w', (a.step (.write fd buf)).2) ∧ w'.Sound (a.step (.write fd buf)).1 := by
  obtain ⟨hfit, hfree⟩ := hallows
  obtain ⟨s', hwrite, hwrote⟩ := writeSataWrapper_wrote h.blocks (h.fileLen (a.owner fd))
    (h.count (a.owner fd)) (h.short (a.owner fd)) (h.pos_le fd) hfit hfree
  have hlen := length_overwrite (a.content (a.owner fd)) (h.pos_le fd) buf
  obtain ⟨content, hcontent⟩ : ∃ content, content = overwrite (a.content (a.owner fd)) (a.pos fd) buf :=
    ⟨_, rfl⟩
  have hstep : (a.step (.write fd buf)).1 = { a with
      content := Function.update a.content (a.owner fd) content
      pos := Function.update a.pos fd (a.pos fd + buf.length) } := by rw [hcontent]; rfl
  rw [← hcontent] at hlen
  rw [hstep]
  refine ⟨⟨s', Function.update w.fds fd ⟨a.owner fd, (a.pos fd + buf.length : ℕ)⟩⟩, ?_, ?_⟩
  · rw [SataWorld.step, h.fds fd, hwrite]
    rfl
  have hmine : content = slice ((s'.inode (a.owner fd)).byte s'.disk) 0 content.length := by
    have hbyte : ∀ k < content.length, (s'.inode (a.owner fd)).byte s'.disk (0 + k) =
        splice ((w.fs.inode (a.owner fd)).byte w.fs.disk) (a.pos fd) buf (0 + k) := by
      intro k hk
      rw [Nat.zero_add]
      exact hwrote.byte k (hlen ▸ hk)
    rw [slice_congr hbyte, hlen, slice_splice_eq_overwrite _ (h.pos_le fd), ← h.content, hcontent]
  have hother : ∀ i, i ≠ a.owner fd →
      a.content i = slice ((s'.inode i).byte s'.disk) 0 (a.content i).length := by
    intro i hi
    have hbyte : ∀ k < (a.content i).length, (s'.inode i).byte s'.disk (0 + k) =
        (w.fs.inode i).byte w.fs.disk (0 + k) := by
      intro k hk
      have hle : k / BLOCK_SIZE ≤ (a.content i).length / BLOCK_SIZE := Nat.div_le_div_right hk.le
      have hcount := h.count i
      rw [Nat.zero_add, hwrote.other i hi]
      exact hwrote.otherByte i hi k (by omega)
    rw [slice_congr hbyte]
    exact h.content i
  refine ⟨⟨fun i => ?_, fun i => ?_, fds_update h.fds _⟩, hwrote.blocks, fun i => ?_, fun i => ?_,
    fun fd' => ?_⟩
  all_goals dsimp only
  · by_cases hi : i = a.owner fd
    · rw [hi, Function.update_self, hwrote.fileLen, hlen]
    · rw [Function.update_of_ne hi, hwrote.other i hi, h.fileLen i]
  · by_cases hi : i = a.owner fd
    · rw [hi, Function.update_self]
      exact hmine
    · rw [Function.update_of_ne hi]
      exact hother i hi
  · by_cases hi : i = a.owner fd
    · rw [hi, Function.update_self, hwrote.blockCount, hlen]
      exact .inl rfl
    · rw [Function.update_of_ne hi, hwrote.other i hi]
      exact h.count i
  · by_cases hi : i = a.owner fd
    · rw [hi, Function.update_self, hlen]
      exact max_lt (h.short _) hfit
    · rw [Function.update_of_ne hi]
      exact h.short i
  · have hmono : (a.content (a.owner fd')).length ≤
        (Function.update a.content (a.owner fd) content (a.owner fd')).length := by
      by_cases hi : a.owner fd' = a.owner fd
      · rw [hi, Function.update_self, hlen]
        exact le_max_left _ _
      · rw [Function.update_of_ne hi]
    by_cases hfd : fd' = fd
    · rw [hfd, Function.update_self, Function.update_self, hlen]
      exact le_max_right _ _
    · rw [Function.update_of_ne hfd]
      exact (h.pos_le fd').trans hmono

/-! ## Runs -/

section run

variable {w : SataWorld} {a : ByteFiles}

theorem runStands_iff (h : w.Sound a) {ops : List FileOp} (hallows : RunAllows w a ops) :
    RunStands w a ops ↔ RunFits a ops := by
  induction ops generalizing w a with
  | nil => exact Iff.rfl
  | cons op ops ih =>
    obtain ⟨hop, hops⟩ := hallows
    have hstep : a.Fits op → ∃ w', w.step op = some (w', (a.step op).2) ∧
        w'.Sound (a.step op).1 := by
      cases op with
      | read fd count => exact h.step_read hop.1
      | write fd buf => exact fun _ => h.step_write hop
    have hfits : ∀ r, w.step op = some r → a.Fits op := by
      cases op with
      | read fd count =>
        intro r hr
        by_contra hfits
        cases (h.step_read_of_not_fits hop.2 hfits).symm.trans hr
      | write fd buf => exact fun _ _ => trivial
    constructor
    · rintro ⟨w', hw, -, hrun⟩
      obtain ⟨w'', hw', hsound⟩ := hstep (hfits _ hw)
      obtain rfl : w'' = w' := (Prod.mk.inj (Option.some.inj (hw'.symm.trans hw))).1
      exact ⟨hfits _ hw, (ih hsound (hops _ hw)).1 hrun⟩
    · rintro ⟨hfit, hrun⟩
      obtain ⟨w', hw, hsound⟩ := hstep hfit
      exact ⟨w', hw, hsound.toStands, (ih hsound (hops _ hw)).2 hrun⟩

/-- Files that were just created, and descriptors at their begin. -/
def SataWorld.fresh (disk : Disk) (iData : ℕ → ℕ → ℕ) (owner : ℕ → ℕ) : SataWorld where
  fs := ⟨disk, fun i => ⟨0, 0, iData i⟩⟩
  fds fd := ⟨owner fd, 0⟩

def ByteFiles.empty (owner : ℕ → ℕ) : ByteFiles := ⟨fun _ => [], owner, fun _ => 0⟩

theorem sound_fresh (disk : Disk) (iData : ℕ → ℕ → ℕ) (owner : ℕ → ℕ) :
    (SataWorld.fresh disk iData owner).Sound (ByteFiles.empty owner) where
  fileLen _ := rfl
  content _ := rfl
  fds _ := rfl
  blocks := by
    refine ⟨fun i k hk => ?_, fun i j k l hk => ?_⟩
    · exact absurd hk (not_lt.2 (Int.natCast_nonneg k))
    · exact absurd hk (not_lt.2 (Int.natCast_nonneg k))
  count _ := .inr ⟨rfl, rfl⟩
  short _ := show 0 < dataCount * BLOCK_SIZE by decide
  pos_le _ := le_rfl

/-- In a run of reads and writes, through any descriptors, the files are lists of bytes exactly if
every read is at the end of its file or has no overflow. -/
theorem byteFiles_iff (disk : Disk) (iData : ℕ → ℕ → ℕ) (owner : ℕ → ℕ) (ops : List FileOp)
    (hallows : RunAllows (SataWorld.fresh disk iData owner) (ByteFiles.empty owner) ops) :
    RunStands (SataWorld.fresh disk iData owner) (ByteFiles.empty owner) ops ↔
      RunFits (ByteFiles.empty owner) ops := runStands_iff (sound_fresh disk iData owner) hallows

/-- A disk of zeros. -/
def zeroDisk : Disk := ⟨fun _ _ => 0, fun _ => 0⟩

theorem freeBlocks_zeroDisk : freeBlocks zeroDisk = BLOCK_SIZE := by
  have hbitmap : dataBitmap zeroDisk = List.replicate BLOCK_SIZE 0 := by
    have hlen : (dataBitmap zeroDisk).length = BLOCK_SIZE := length_slice _ _ _
    refine List.eq_replicate_iff.2 ⟨hlen, fun b hb => ?_⟩
    obtain ⟨k, -, rfl⟩ := List.mem_map.1 hb
    rfl
  rw [freeBlocks, hbitmap, List.count_replicate_self]

/-- The file `0` is written with the descriptor `0`, and read with another one. -/
theorem runAllows_zeroDisk (counts : List ℤ) (hcounts : ∀ c ∈ counts, 0 ≤ c ∧ c < 2 ^ 31) :
    RunAllows (SataWorld.fresh zeroDisk (fun _ _ => 0) fun _ => 0) (ByteFiles.empty fun _ => 0)
      (.write 0 [97, 98] :: counts.map (.read 1)) := by
  have hreads : ∀ w a, RunAllows w a (counts.map (.read 1)) := by
    induction counts with
    | nil => exact fun _ _ => trivial
    | cons c counts ih =>
      exact fun w a => ⟨hcounts c List.mem_cons_self, fun r _ =>
        ih (fun c hc => hcounts c (List.mem_cons_of_mem _ hc)) _ _⟩
  have hfree : freeBlocks (SataWorld.fresh zeroDisk (fun _ _ => 0) fun _ => 0).fs.disk = BLOCK_SIZE :=
    freeBlocks_zeroDisk
  refine ⟨⟨by decide, ?_⟩, fun r _ => hreads _ _⟩
  rw [hfree]
  decide

theorem byteFiles_zeroDisk :
    RunStands (SataWorld.fresh zeroDisk (fun _ _ => 0) fun _ => 0) (ByteFiles.empty fun _ => 0)
      [.write 0 [97, 98], .read 1 1, .read 1 5] :=
  (byteFiles_iff _ _ _ _ (runAllows_zeroDisk [1, 5] (by decide))).2
    ⟨trivial, .inr (by decide), .inr (by decide), trivial⟩

/-- A read of many bytes in a file is none of a list of bytes. -/
theorem byteFiles_overflow : ¬∀ (disk : Disk) (iData : ℕ → ℕ → ℕ) (owner : ℕ → ℕ)
    (ops : List FileOp), RunAllows (SataWorld.fresh disk iData owner) (ByteFiles.empty owner) ops →
      RunStands (SataWorld.fresh disk iData owner) (ByteFiles.empty owner) ops := by
  intro h
  have hallows := runAllows_zeroDisk [1, 2 ^ 31 - 1] (by decide)
  have hfits := (runStands_iff (sound_fresh _ _ _) hallows).1 (h _ _ _ _ hallows)
  rcases hfits.2.2.1 with hend | hsum
  · exact absurd hend (by decide)
  · exact absurd hsum (by decide)

end run

end SadOS.Fs
