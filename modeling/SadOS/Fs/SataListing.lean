import Mathlib.Data.List.Find
import SadOS.Fs.DentryParts

/-!
# Listing a directory on disk

`open_sata_dir` and `read_sata_dir` of `bin/fs/fs.c`, after some files were created.  A directory
entry with an odd number is read with the name and the number of the last one of those, and a
directory has 24 slots that were cleared, of 30.

## Main definitions

* `openSataDir`, `readSataDir` — the source.
* `DirWorld` — the disk, and the files that were created.
* `DirWorld.Lists` — the property, and `DirWorld.Listable`, when it holds.
* `DirWorld.Fits` — when a file can be created.
* `DirWorld.Holds` — the invariant: the slots have the numbers of the members.

## Main results

* `DirWorld.Holds.step` — what a new file keeps.
* `directories_listed_iff` — when directories are listed.
-/

namespace SadOS.Fs

/-! ## The source -/

/-- `open_sata_dir`. -/
def openSataDir (path : List UInt8) (d : Disk) : Option DentryReader × Disk :=
  let (bitmap, d) := readBitmap DENTRY_BITMAP_START_INDEX d
  let (found, d) := lookup false path bitmap BLOCK_SIZE 0 d
  (found.map fun x => ⟨x.1, 0, 1⟩, d)

/-- `get_dentry` for an `int`.  Nothing is in front of `common_buf`. -/
def getDentryInt (index : ℤ) (d : Disk) : Option (List UInt8 × Disk) :=
  let d := readSata d ((DENTRY_START_INDEX + index.tdiv 2) % 2 ^ 32).toNat
  let off := index.tmod 2 * sizeofDentry
  if 0 ≤ off then some (slice d.buf off.toNat sizeofDentry, d) else none

/-- `read_sata_dir`; slots that are not there are faults. -/
def readSataDir (reader : DentryReader) (d : Disk) :
    Option (Option (List UInt8) × DentryReader × Disk) := do
  let dentry := getDentry reader.dentry d
  let slot ← if 0 ≤ reader.offset ∧ reader.offset < subdirCount then
      some (dentrySlot dentry.1 reader.offset.toNat)
    else none
  if slot = 0 then return (none, reader, dentry.2)
  else
    let next ← getDentryInt (toInt slot) dentry.2
    return (some next.1, { reader with offset := reader.offset + 1 }, next.2)

theorem readSataDir_eq (reader : DentryReader) (d : Disk) : readSataDir reader d =
    if 0 ≤ reader.offset ∧ reader.offset < subdirCount then
      if dentrySlot (getDentry reader.dentry d).1 reader.offset.toNat = 0 then
        some (none, reader, (getDentry reader.dentry d).2)
      else (getDentryInt (toInt (dentrySlot (getDentry reader.dentry d).1 reader.offset.toNat))
        (getDentry reader.dentry d).2).map fun next =>
          (some next.1, { reader with offset := reader.offset + 1 }, next.2)
    else none := by
  rw [readSataDir]
  generalize getDentry reader.dentry d = dentry
  dsimp only
  generalize dentrySlot dentry.1 reader.offset.toNat = slot
  by_cases hin : 0 ≤ reader.offset ∧ reader.offset < subdirCount
  · rw [if_pos hin, if_pos hin, Option.bind_eq_bind, Option.bind_some]
    by_cases hzero : slot = 0
    · rw [if_pos hzero, if_pos hzero]
      rfl
    · rw [if_neg hzero, if_neg hzero]
      cases getDentryInt (toInt slot) dentry.2 <;> rfl
  · rw [if_neg hin, if_neg hin]
    rfl

/-! ## Files -/

/-- A call of `sata_open` with `O_CREAT`; `heap` is what memory has under `new_dentry`. -/
structure Creation where
  pathname : List UInt8
  heap : ℕ → UInt8
  noNul : ∀ c ∈ pathname, c ≠ 0

/-- The number and the name of a new file. -/
def Opened.files (pathname : List UInt8) : Opened → List (ℕ × List UInt8)
  | .created c => [(c.inode, pathname)]
  | _ => []

/-- The disk, and the numbers and names of the files in the order in which they were created. -/
structure DirWorld where
  disk : Disk
  files : List (ℕ × List UInt8)

namespace DirWorld

def step (w : DirWorld) (c : Creation) : DirWorld :=
  let r := sataOpen c.pathname c.heap w.disk
  ⟨r.2, w.files ++ r.1.files c.pathname⟩

/-- After `init_fs`: the root. -/
def boot (sector : ℕ → ℕ → UInt8) (heap : ℕ → UInt8) : DirWorld :=
  ⟨initFs sector heap, [(0, [slash])]⟩

/-- The files that were created in a directory. -/
def members (w : DirWorld) (path : List UInt8) : List (ℕ × List UInt8) :=
  w.files.filter fun f => f.1 ≠ 0 ∧ parentDir f.2 = some path

/-! ## The property -/

/-- `read_sata_dir`, with the number and the name in the entry that it returns. -/
def readdir (s : DentryReader × Disk) :
    Option (Option (ℕ × List UInt8) × (DentryReader × Disk)) :=
  (readSataDir s.1 s.2).map fun r => (r.1.map fun dentry => shownOf (byteOf dentry), r.2)

/-- The directory is opened, and calls of `readdir` return every member once, and then nothing.
The last of them reads a slot that was cleared. -/
def Lists (w : DirWorld) (f : ℕ × List UInt8) : Prop :=
  ∃ reader, (openSataDir f.2 w.disk).1 = some reader ∧ reader.dentry = f.1 ∧
    ∃ (rs : List (ℕ × List UInt8)) (s : DentryReader × Disk),
      calls readdir ((w.members f.2).length + 1) (reader, (openSataDir f.2 w.disk).2) =
        some (rs.map some ++ [none], s) ∧
      rs.Perm (w.members f.2) ∧ s.1.offset < clearedSlots

/-! ## When it holds -/

/-- What the entry of a file is read as: all those with odd numbers as the last one. -/
def shownAs (w : DirWorld) (f : ℕ × List UInt8) : ℕ × List UInt8 :=
  if f.1 % 2 = 0 then f else ((w.files.filter fun g => g.1 % 2 = 1).getLast?).getD f

/-- A short name, an entry for it, and no name of a file that cannot be found. -/
def Fits (w : DirWorld) (c : Creation) : Prop :=
  c.pathname.length < inameLength ∧ (w.files.length < 40 ∨ ∃ f ∈ w.files, f.2 = c.pathname) ∧
    ∀ f ∈ w.files, f.2 = c.pathname → w.shownAs f = f

/-- A directory has an even number, or the first odd one while there is no other; and less than 24
members, none of them with an odd number that is not the last. -/
def Listable (w : DirWorld) (f : ℕ × List UInt8) : Prop :=
  (f.1 % 2 = 0 ∨ f.1 = 1 ∧ w.shownAs f = f) ∧ (w.members f.2).length < clearedSlots ∧
    ∀ g ∈ w.members f.2, w.shownAs g = g

/-! ## The invariant -/

/-- Inodes and entries have the numbers of the files, slots have those of the members, and entries
are shown as said. -/
structure Holds (w : DirWorld) : Prop where
  numbers : w.files.map Prod.fst = List.range w.files.length
  room : w.files.length ≤ 40
  names : (w.files.map Prod.snd).Nodup
  parents : ∀ f ∈ w.files, f.1 ≠ 0 → ∃ g ∈ w.files, parentDir f.2 = some g.2
  inodes : ∀ k < BLOCK_SIZE, w.disk.sector INODE_BITMAP_START_INDEX k ≠ 0 ↔ k < w.files.length
  dentries : ∀ k < BLOCK_SIZE, w.disk.sector DENTRY_BITMAP_START_INDEX k ≠ 0 ↔ k < w.files.length
  slots : ∀ f ∈ w.files, ∀ i < clearedSlots,
    slotOf (inSector f.1 w.disk) i = (((w.members f.2).map Prod.fst)[i]?).getD 0
  even : ∀ f ∈ w.files, f.1 % 2 = 0 → shownOf (inSector f.1 w.disk) = f
  odd : ∀ f ∈ w.files, f.1 % 2 = 1 → shownOf (rest w.disk) = w.shownAs f

section files

variable {w : DirWorld} {f g : ℕ × List UInt8}

theorem mem_members {path : List UInt8} :
    f ∈ w.members path ↔ f ∈ w.files ∧ f.1 ≠ 0 ∧ parentDir f.2 = some path := by
  simp [members]

theorem shownAs_even (h : f.1 % 2 = 0) : w.shownAs f = f := if_pos h

/-- The last file with an odd number. -/
theorem shownAs_odd (hf : f ∈ w.files) (h : f.1 % 2 = 1) :
    w.shownAs f ∈ w.files ∧ (w.shownAs f).1 % 2 = 1 ∧
      ∀ g, g.1 % 2 = 1 → w.shownAs g = w.shownAs f := by
  have hne : w.files.filter (fun g => g.1 % 2 = 1) ≠ [] := fun hnil => by
    simpa [h] using List.filter_eq_nil_iff.1 hnil f hf
  have hshown : ∀ g : ℕ × List UInt8, g.1 % 2 = 1 → w.shownAs g =
      (w.files.filter fun g => g.1 % 2 = 1).getLast hne := by
    intro g hg
    rw [shownAs, if_neg (by omega), List.getLast?_eq_some_getLast hne]
    rfl
  have hmem := List.getLast_mem hne
  rw [hshown f h]
  rw [List.mem_filter, decide_eq_true_iff] at hmem
  exact ⟨hmem.1, hmem.2, hshown⟩

theorem shownAs_mem (hf : f ∈ w.files) : w.shownAs f ∈ w.files := by
  rcases Nat.mod_two_eq_zero_or_one f.1 with h | h
  · rwa [shownAs_even h]
  · exact (shownAs_odd hf h).1

/-- A file is shown as one whose number is even as well, or odd as well. -/
theorem shownAs_mod (hf : f ∈ w.files) : (w.shownAs f).1 % 2 = f.1 % 2 := by
  rcases Nat.mod_two_eq_zero_or_one f.1 with h | h
  · rw [shownAs_even h]
  · rw [(shownAs_odd hf h).2.1, h]

namespace Holds

/-- The file with a number. -/
theorem getElem (h : w.Holds) {i : ℕ} (hi : i < w.files.length) : (w.files[i]).1 = i := by
  have hget : (w.files.map Prod.fst)[i]? = some i := by
    rw [h.numbers]
    exact List.getElem?_range hi
  rw [List.getElem?_map, List.getElem?_eq_getElem hi] at hget
  exact Option.some.inj hget

theorem lt (h : w.Holds) (hf : f ∈ w.files) : f.1 < w.files.length := by
  have hmem : f.1 ∈ w.files.map Prod.fst := List.mem_map_of_mem hf
  rwa [h.numbers, List.mem_range] at hmem

theorem eq_of_name (h : w.Holds) (hf : f ∈ w.files) (hg : g ∈ w.files) (heq : f.2 = g.2) : f = g :=
  List.inj_on_of_nodup_map h.names hf hg heq

theorem eq_of_number (h : w.Holds) (hf : f ∈ w.files) (hg : g ∈ w.files) (heq : f.1 = g.1) : f = g :=
  List.inj_on_of_nodup_map (f := Prod.fst) (by rw [h.numbers]; exact List.nodup_range) hf hg heq

/-- What is read. -/
theorem shown (h : w.Holds) (hf : f ∈ w.files) :
    shownOf (byteOf (getDentry f.1 w.disk).1) = w.shownAs f := by
  rcases Nat.mod_two_eq_zero_or_one f.1 with hmod | hmod
  · rw [shownOf_getDentry_even hmod, h.even f hf hmod, shownAs_even hmod]
  · rw [shownOf_getDentry_odd hmod, h.odd f hf hmod]

/-- Reads keep all. -/
theorem reads (h : w.Holds) {d : Disk} (hd : Reads w.disk d) : Holds { w with disk := d } where
  numbers := h.numbers
  room := h.room
  names := h.names
  parents := h.parents
  inodes := hd.sector ▸ h.inodes
  dentries := hd.sector ▸ h.dentries
  slots f hf i hi := by
    rw [hd.inSector]
    exact h.slots f hf i hi
  even f hf hmod := by
    rw [hd.inSector]
    exact h.even f hf hmod
  odd f hf hmod := (shownOf_congr fun _ hlo _ => hd.rest hlo).trans (h.odd f hf hmod)

/-- The loops over the entries, in terms of the files. -/
theorem lookup_files (h : w.Holds) (inodes : Bool) (name : List UInt8) {index : ℕ} {d : Disk}
    (hbits : ∀ k < BLOCK_SIZE, w.disk.sector index k ≠ 0 ↔ k < w.files.length)
    (hd : Reads w.disk d) :
    (lookup inodes name (slice (w.disk.sector index) 0 BLOCK_SIZE) BLOCK_SIZE 0 d).1 =
      (w.files.find? fun f => (w.shownAs f).2 = name).map fun f =>
        (f.1, (getDentry f.1 w.disk).1) := by
  have hbit : ∀ k < BLOCK_SIZE, (slice (w.disk.sector index) 0 BLOCK_SIZE).getD k 0 ≠ 0 ↔
      k < w.files.length := by
    intro k hk
    rw [List.getD_eq_getElem?_getD, getElem?_slice _ hk, Nat.zero_add]
    exact hbits k hk
  have hroom : w.files.length ≤ BLOCK_SIZE := h.room.trans (by decide)
  have hsplit : List.range' 0 BLOCK_SIZE = w.files.map Prod.fst ++
      List.range' w.files.length (BLOCK_SIZE - w.files.length) := by
    rw [h.numbers, List.range_eq_range']
    have happend := List.range'_append_1 (s := 0) (m := w.files.length)
      (n := BLOCK_SIZE - w.files.length)
    rwa [Nat.zero_add, Nat.add_sub_cancel' hroom, eq_comm] at happend
  rw [(lookup_eq _ _ _ _ _ _).1, hsplit, List.find?_append, List.find?_map]
  have hnone : (List.range' w.files.length (BLOCK_SIZE - w.files.length)).find? (fun j =>
      (slice (w.disk.sector index) 0 BLOCK_SIZE).getD j 0 ≠ 0 ∧
        dentryName (Fs.getDentry j d).1 = name) = none := by
    rw [List.find?_eq_none]
    intro j hj hused
    rw [List.mem_range'_1] at hj
    rw [decide_eq_true_iff] at hused
    exact absurd ((hbit j (by omega)).1 hused.1) (Nat.not_lt.2 hj.1)
  have hsome : w.files.find? ((fun j => (slice (w.disk.sector index) 0 BLOCK_SIZE).getD j 0 ≠ 0 ∧
      dentryName (Fs.getDentry j d).1 = name : ℕ → Bool) ∘ Prod.fst) =
        w.files.find? fun f => (w.shownAs f).2 = name := by
    refine List.find?_congr fun f hf => ?_
    have hused := (hbit f.1 ((h.lt hf).trans_le hroom)).2 (h.lt hf)
    have hname : dentryName (Fs.getDentry f.1 d).1 = (w.shownAs f).2 := by
      rw [hd.getDentry, ← h.shown hf]
      rfl
    simp only [Function.comp_apply, hname, hused, ne_eq, not_false_eq_true, true_and]
  rw [hnone, hsome, Option.or_none, Option.map_map]
  simp only [Function.comp_def, hd.getDentry]

/-! ## Opening -/

theorem openSataDir_files (h : w.Holds) (path : List UInt8) :
    (openSataDir path w.disk).1 =
        (w.files.find? fun f => (w.shownAs f).2 = path).map (fun f => ⟨f.1, 0, 1⟩) ∧
      Reads w.disk (openSataDir path w.disk).2 := by
  have hread : Reads w.disk (readSata w.disk DENTRY_BITMAP_START_INDEX) :=
    (Reads.refl w.disk).readSata _
  rw [openSataDir, readBitmap_eq]
  dsimp only
  constructor
  · rw [h.lookup_files false path h.dentries hread, Option.map_map]
    rfl
  · exact hread.trans (lookup_eq _ _ _ _ _ _).2

/-- A directory is opened if no other entry is shown with its name. -/
theorem openSataDir_iff (h : w.Holds) (hf : f ∈ w.files) :
    (openSataDir f.2 w.disk).1 = some ⟨f.1, 0, 1⟩ ↔ f.1 % 2 = 0 ∨ f.1 = 1 ∧ w.shownAs f = f := by
  have hiff : ∀ g ∈ w.files, ((w.shownAs g).2 = f.2 ↔ w.shownAs g = f) := fun g hg =>
    ⟨fun heq => h.eq_of_name (shownAs_mem hg) hf heq, fun heq => heq ▸ rfl⟩
  rw [(h.openSataDir_files f.2).1]
  constructor
  · intro hopen
    obtain ⟨g, hg, heq⟩ := Option.map_eq_some_iff.1 hopen
    have hmem := List.mem_of_find?_eq_some hg
    obtain rfl : g = f := h.eq_of_number hmem hf (congrArg DentryReader.dentry heq)
    have hname := List.find?_some hg
    rw [decide_eq_true_iff] at hname
    have hshown := (hiff g hmem).1 hname
    rcases Nat.mod_two_eq_zero_or_one g.1 with hmod | hmod
    · exact .inl hmod
    · -- the first odd number is 1, which is shown as the same file
      refine .inr ⟨?_, hshown⟩
      by_contra hne
      have hlt : 1 < w.files.length := by
        have hlt := h.lt hf
        omega
      have hone : w.files[1].1 = 1 := h.getElem hlt
      obtain ⟨-, i, hi, hat, hfirst⟩ := List.find?_eq_some_iff_getElem.1 hg
      have hnum : i = g.1 := by rw [← h.getElem hi, hat]
      have hbefore := hfirst 1 (by omega)
      have hsame : w.shownAs w.files[1] = w.shownAs g :=
        (shownAs_odd hf hmod).2.2 _ (by rw [hone])
      simp [hsame, hshown] at hbefore
  · intro hor
    have hshown : w.shownAs f = f := by
      rcases hor with hmod | ⟨-, hshown⟩
      · exact shownAs_even hmod
      · exact hshown
    have hsome : (w.files.find? fun g => (w.shownAs g).2 = f.2).isSome := by
      rw [List.find?_isSome]
      exact ⟨f, hf, by simp [hshown]⟩
    obtain ⟨g, hg⟩ := Option.isSome_iff_exists.1 hsome
    have hmem := List.mem_of_find?_eq_some hg
    have hname := List.find?_some hg
    rw [decide_eq_true_iff] at hname
    have hgf := (hiff g hmem).1 hname
    have hmod' := shownAs_mod hmem
    rw [hgf] at hmod'
    have hnum : g.1 = f.1 := by
      rcases hor with hmod | ⟨hone, -⟩
      · rw [shownAs_even (by omega)] at hgf
        rw [hgf]
      · -- an odd number that is found is not behind that of `f`
        obtain ⟨-, i, hi, hat, hfirst⟩ := List.find?_eq_some_iff_getElem.1 hg
        have hnum : i = g.1 := by rw [← h.getElem hi, hat]
        by_contra hne
        have hlt := h.lt hf
        have hat' : w.files[f.1] = f :=
          h.eq_of_number (List.getElem_mem _) hf (h.getElem hlt)
        have hbefore := hfirst f.1 (by omega)
        simp [hat', hshown] at hbefore
    rw [hg, Option.map_some, hnum]

/-! ## Reading -/

/-- One call of `readdir`, in front of the slots that were not cleared. -/
theorem readdir_eq (h : w.Holds) (hf : f ∈ w.files) {i : ℕ} (hi : i < clearedSlots) {d : Disk}
    (hd : Reads w.disk d) : ∃ d', Reads w.disk d' ∧
      readdir (⟨f.1, i, 1⟩, d) = some (match (w.members f.2)[i]? with
        | none => (none, (⟨f.1, i, 1⟩, d'))
        | some g => (some (w.shownAs g), (⟨f.1, i + 1, 1⟩, d'))) := by
  have hslot : dentrySlot (Fs.getDentry f.1 d).1 i = (((w.members f.2).map Prod.fst)[i]?).getD 0 := by
    rw [hd.getDentry]
    exact (slotOf_getDentry hi).trans (h.slots f hf i hi)
  have hin : (0 : ℤ) ≤ i ∧ (i : ℤ) < subdirCount := by
    unfold clearedSlots at hi
    unfold subdirCount
    omega
  have hread : Reads w.disk (Fs.getDentry f.1 d).2 := hd.readSata _
  rw [List.getElem?_map] at hslot
  rw [readdir, readSataDir_eq]
  dsimp only
  rw [if_pos hin, Int.toNat_natCast]
  cases hg : (w.members f.2)[i]? with
  | none =>
    rw [hg, Option.map_none, Option.getD_none] at hslot
    refine ⟨_, hread, ?_⟩
    rw [if_pos hslot]
    rfl
  | some g =>
    obtain ⟨hmem, hne, -⟩ := mem_members.1 (List.mem_of_getElem? hg)
    have hlt : g.1 < 40 := (h.lt hmem).trans_le h.room
    rw [hg, Option.map_some, Option.getD_some] at hslot
    have hint : getDentryInt (toInt g.1) (Fs.getDentry f.1 d).2 =
        some (Fs.getDentry g.1 (Fs.getDentry f.1 d).2) := by
      have hcast : toInt (g.1 : ℤ) = g.1 := toInt_of_range (by omega) (by omega)
      have hsector : ((DENTRY_START_INDEX + (g.1 : ℤ).tdiv 2) % 2 ^ 32).toNat =
          DENTRY_START_INDEX + g.1 / 2 := by
        have hdiv : (g.1 : ℤ).tdiv 2 = (g.1 / 2 : ℕ) := (Int.ofNat_tdiv g.1 2).symm
        rw [hdiv, DENTRY_START_INDEX]
        omega
      have hoff : (g.1 : ℤ).tmod 2 * sizeofDentry = (g.1 % 2 * sizeofDentry : ℕ) := by
        rw [Nat.cast_mul]
        exact congrArg (· * (sizeofDentry : ℤ)) (Int.ofNat_tmod g.1 2).symm
      rw [getDentryInt, hcast, hsector, hoff, if_pos (Int.natCast_nonneg _), Int.toNat_natCast]
      rfl
    refine ⟨(Fs.getDentry g.1 (Fs.getDentry f.1 d).2).2, hread.readSata _, ?_⟩
    rw [hslot, if_neg hne, hint, Option.map_some, Option.map_some, hread.getDentry, Option.map_some,
      h.shown hmem]

/-- All calls, when the slots behind the members are cleared. -/
theorem calls_readdir (h : w.Holds) (hf : f ∈ w.files)
    (hlen : (w.members f.2).length < clearedSlots) {n i : ℕ} (hn : i + n = (w.members f.2).length)
    {d : Disk} (hd : Reads w.disk d) : ∃ d',
      calls readdir (n + 1) (⟨f.1, i, 1⟩, d) =
        some ((((w.members f.2).drop i).map w.shownAs).map some ++ [none],
          (⟨f.1, (w.members f.2).length, 1⟩, d')) := by
  induction n generalizing i d with
  | zero =>
    obtain ⟨d', -, hcall⟩ := h.readdir_eq hf (i := i) (by omega) hd
    rw [List.getElem?_eq_none (by omega)] at hcall
    refine ⟨d', ?_⟩
    rw [calls, hcall, List.drop_of_length_le (by omega), ← hn, Nat.add_zero]
    rfl
  | succ n ih =>
    have hi : i < (w.members f.2).length := by omega
    obtain ⟨d', hd', hcall⟩ := h.readdir_eq hf (i := i) (by omega) hd
    rw [List.getElem?_eq_getElem hi] at hcall
    obtain ⟨e, he⟩ := ih (i := i + 1) (by omega) hd'
    refine ⟨e, ?_⟩
    rw [Nat.cast_add_one] at he
    rw [calls, hcall, Option.bind_eq_bind, Option.bind_some]
    dsimp only
    rw [he, List.drop_eq_getElem_cons hi]
    rfl

end Holds

/-- The offset counts the entries that were returned. -/
theorem offset_calls {n : ℕ} {s s' : DentryReader × Disk} {l : List (Option (ℕ × List UInt8))}
    (h : calls readdir n s = some (l, s')) :
    s'.1.offset = s.1.offset + l.countP Option.isSome := by
  induction n generalizing s l with
  | zero =>
    obtain ⟨rfl, rfl⟩ := Prod.mk.inj (Option.some.inj h)
    simp
  | succ n ih =>
    obtain ⟨r, hr, hrest⟩ := Option.bind_eq_some_iff.1 h
    obtain ⟨q, hq, hl⟩ := Option.bind_eq_some_iff.1 hrest
    obtain ⟨rfl, rfl⟩ := Prod.mk.inj (Option.some.inj hl)
    have hstep : r.2.1.offset = s.1.offset + if r.1.isSome then 1 else 0 := by
      obtain ⟨x, hx, rfl⟩ := Option.map_eq_some_iff.1 hr
      rw [readSataDir_eq] at hx
      split at hx
      case isFalse => cases hx
      case isTrue =>
      split at hx
      · obtain rfl := Option.some.inj hx
        simp
      · obtain ⟨next, -, rfl⟩ := Option.map_eq_some_iff.1 hx
        simp
    have hih := ih hq
    rw [hih, hstep, List.countP_cons]
    push_cast
    omega

/-- Members are shown as members, once each, if each is shown as itself. -/
theorem perm_members_iff {path : List UInt8} :
    ((w.members path).map w.shownAs).Perm (w.members path) ↔
      ∀ g ∈ w.members path, w.shownAs g = g := by
  constructor
  · intro hperm g hg
    rcases Nat.mod_two_eq_zero_or_one g.1 with hmod | hmod
    · exact shownAs_even hmod
    · -- `g` is what some file with an odd number is shown as, and so is any other of those
      obtain ⟨x, hx, hxg⟩ := List.mem_map.1 (hperm.mem_iff.2 hg)
      have hxmod := shownAs_mod (mem_members.1 hx).1
      rw [hxg, hmod] at hxmod
      rw [(shownAs_odd (mem_members.1 hx).1 hxmod.symm).2.2 g hmod, hxg]
  · intro hsame
    rw [List.map_congr_left hsame, List.map_id']

/-- The directories that are listed. -/
theorem Holds.lists_iff (h : w.Holds) (hf : f ∈ w.files) : w.Lists f ↔ w.Listable f := by
  obtain ⟨hopens, hread⟩ := h.openSataDir_files f.2
  constructor
  · rintro ⟨reader, hopen, hnum, rs, s, hcalls, hperm, hoff⟩
    obtain rfl : reader = ⟨f.1, 0, 1⟩ := by
      rw [hopens] at hopen
      obtain ⟨g, -, rfl⟩ := Option.map_eq_some_iff.1 hopen
      rw [← hnum]
    have hcount := offset_calls hcalls
    have hsome : (rs.map some ++ [none]).countP Option.isSome = rs.length := by
      simp [List.countP_append, List.countP_map, Function.comp_def]
    have hlen : (w.members f.2).length < clearedSlots := by
      rw [← hperm.length_eq]
      rw [hcount, hsome] at hoff
      dsimp only at hoff
      omega
    obtain ⟨d', hall⟩ := h.calls_readdir hf hlen (Nat.zero_add _) hread
    rw [Nat.cast_zero, hcalls] at hall
    have hrs := List.append_cancel_right (Prod.mk.inj (Option.some.inj hall)).1
    have hrs' : rs = (w.members f.2).map w.shownAs :=
      List.map_injective_iff.2 (Option.some_injective _) hrs
    exact ⟨(h.openSataDir_iff hf).1 hopen, hlen, perm_members_iff.1 (hrs' ▸ hperm)⟩
  · rintro ⟨hopen, hlen, hsame⟩
    obtain ⟨d', hall⟩ := h.calls_readdir hf hlen (Nat.zero_add _) hread
    rw [Nat.cast_zero, List.drop_zero] at hall
    refine ⟨⟨f.1, 0, 1⟩, (h.openSataDir_iff hf).2 hopen, rfl, _, _, hall, perm_members_iff.2 hsame, ?_⟩
    dsimp only
    omega

/-! ## New files -/

namespace Holds

/-- A free number is the one behind those of the files. -/
theorem getFree_files (hroom : w.files.length < 40) {index : ℕ} {d : Disk}
    (hbits : ∀ k < BLOCK_SIZE, w.disk.sector index k ≠ 0 ↔ k < w.files.length)
    (hd : Reads w.disk d) : (getFree index d).1 = some w.files.length := by
  have hlt : w.files.length < BLOCK_SIZE := hroom.trans (by decide)
  have hget : ∀ k (hk : k < BLOCK_SIZE), (slice (w.disk.sector index) 0 BLOCK_SIZE)[k]? =
      some (w.disk.sector index k) := fun k hk => by rw [getElem?_slice _ hk, Nat.zero_add]
  rw [getFree_eq, hd.sector]
  dsimp only
  refine List.findIdx?_eq_some_iff_getElem.2 ⟨by rwa [length_slice], ?_, fun j hj => ?_⟩
  · have hzero : w.disk.sector index w.files.length = 0 := by
      by_contra hne
      exact Nat.lt_irrefl _ ((hbits _ hlt).1 hne)
    have hat := hget _ hlt
    rw [List.getElem?_eq_getElem (by rwa [length_slice]), hzero] at hat
    rw [Option.some.inj hat]
    rfl
  · have hj' : j < BLOCK_SIZE := hj.trans hlt
    have hne := (hbits j hj').2 hj
    have hat := hget _ hj'
    rw [List.getElem?_eq_getElem (by rwa [length_slice])] at hat
    rw [Option.some.inj hat, decide_eq_true_iff]
    exact hne

/-- `sata_get_parent`, in terms of the files. -/
theorem sataGetParent_files (h : w.Holds) (name : List UInt8) {d : Disk} (hd : Reads w.disk d) :
    (sataGetParent name d).1 =
        (w.files.find? fun f => (w.shownAs f).2 = (parentDir name).getD []).map (fun f =>
          (w.shownAs f).1) ∧
      Reads w.disk (sataGetParent name d).2 := by
  have hread : Reads w.disk (readSata d INODE_BITMAP_START_INDEX) := hd.readSata _
  have hfind := h.lookup_files false ((parentDir name).getD []) h.inodes hread
  rw [sataGetParent, readBitmap_eq, hd.sector]
  dsimp only
  refine ⟨?_, hread.trans (lookup_eq _ _ _ _ _ _).2⟩
  rw [hfind, Option.map_map]
  cases hf : w.files.find? fun f => (w.shownAs f).2 = (parentDir name).getD [] with
  | none => rfl
  | some f =>
    have hmem := List.mem_of_find?_eq_some hf
    have hid : dentryId (Fs.getDentry f.1 w.disk).1 = (w.shownAs f).1 := by
      rw [← h.shown hmem]
      rfl
    have hlt := (h.lt (shownAs_mem hmem)).trans_le h.room
    have hne : ¬some (w.shownAs f).1 = some (2 ^ 32 - 1) := fun heq => by
      have hval := Option.some.inj heq
      omega
    rw [Option.map_some, Option.map_some, Function.comp_apply, hid, if_neg hne]

/-- The end of `sata_open`: the numbers are those behind the files, and the parent is what the
first entry with the name of the directory is shown as. -/
theorem createFile_files (h : w.Holds) (hroom : w.files.length < 40) (name : List UInt8)
    (heap : ℕ → UInt8) {d : Disk} (hd : Reads w.disk d) :
    match w.files.find? fun f => (w.shownAs f).2 = (parentDir name).getD [] with
    | none => (createFile name heap d).1 = none ∧ Reads w.disk (createFile name heap d).2
    | some g => ∃ d', Reads w.disk d' ∧ createFile name heap d =
        (some ⟨w.files.length, w.files.length, (w.shownAs g).1⟩,
          buildFile ⟨w.files.length, w.files.length, (w.shownAs g).1⟩ name heap d') := by
  obtain ⟨hparent, hread⟩ := h.sataGetParent_files name hd
  unfold createFile
  generalize sataGetParent name d = q at hparent hread ⊢
  obtain ⟨parent, e⟩ := q
  dsimp only at hparent hread ⊢
  cases hg : w.files.find? fun f => (w.shownAs f).2 = (parentDir name).getD [] with
  | none =>
    rw [hg, Option.map_none] at hparent
    rw [hparent]
    exact ⟨rfl, hread⟩
  | some g =>
    rw [hg, Option.map_some] at hparent
    have hinode := getFree_files hroom h.inodes hread
    have hread' := hread.readSata INODE_BITMAP_START_INDEX
    have hdentry := getFree_files hroom h.dentries hread'
    have hinode' : getFree INODE_BITMAP_START_INDEX e =
        (some w.files.length, Fs.readSata e INODE_BITMAP_START_INDEX) := by
      rw [← hinode, getFree_eq]
    have hdentry' : getFree DENTRY_BITMAP_START_INDEX (Fs.readSata e INODE_BITMAP_START_INDEX) =
        (some w.files.length,
          Fs.readSata (Fs.readSata e INODE_BITMAP_START_INDEX) DENTRY_BITMAP_START_INDEX) := by
      rw [← hdentry, getFree_eq]
    rw [hparent]
    dsimp only
    rw [hinode']
    dsimp only
    rw [hdentry']
    exact ⟨_, hread'.readSata DENTRY_BITMAP_START_INDEX, rfl⟩

/-- `sata_open` of a file that is there. -/
theorem step_of_found (h : w.Holds) {c : Creation} (hf : f ∈ w.files) (hname : f.2 = c.pathname)
    (hshown : w.shownAs f = f) : ∃ d', Reads w.disk d' ∧ w.step c = ⟨d', w.files⟩ := by
  have hread : Reads w.disk (Fs.readSata w.disk INODE_BITMAP_START_INDEX) :=
    (Reads.refl w.disk).readSata _
  have hfind := h.lookup_files true c.pathname h.inodes hread
  have hread' := hread.trans (lookup_eq true c.pathname
    (slice (w.disk.sector INODE_BITMAP_START_INDEX) 0 BLOCK_SIZE) BLOCK_SIZE 0 _).2
  have hsome : (w.files.find? fun g => (w.shownAs g).2 = c.pathname).isSome := by
    rw [List.find?_isSome]
    exact ⟨f, hf, by simp [hshown, hname]⟩
  obtain ⟨g, hg⟩ := Option.isSome_iff_exists.1 hsome
  rw [hg, Option.map_some] at hfind
  unfold DirWorld.step sataOpen
  rw [readBitmap_eq]
  dsimp only
  generalize lookup true _ _ _ _ _ = r at hfind hread' ⊢
  obtain ⟨found, d'⟩ := r
  dsimp only at hfind hread' ⊢
  rw [hfind]
  exact ⟨d', hread', congrArg (DirWorld.mk d') (List.append_nil w.files)⟩

/-- `sata_open` of a new file. -/
theorem step_of_new (h : w.Holds) {c : Creation} (hroom : w.files.length < 40)
    (hnew : ∀ f ∈ w.files, f.2 ≠ c.pathname) :
    match w.files.find? fun f => (w.shownAs f).2 = (parentDir c.pathname).getD [] with
    | none => ∃ d', Reads w.disk d' ∧ w.step c = ⟨d', w.files⟩
    | some g => ∃ d', Reads w.disk d' ∧ w.step c =
        ⟨buildFile ⟨w.files.length, w.files.length, (w.shownAs g).1⟩ c.pathname c.heap d',
          w.files ++ [(w.files.length, c.pathname)]⟩ := by
  have hread : Reads w.disk (Fs.readSata w.disk INODE_BITMAP_START_INDEX) :=
    (Reads.refl w.disk).readSata _
  have hfind := h.lookup_files true c.pathname h.inodes hread
  have hread' := hread.trans (lookup_eq true c.pathname
    (slice (w.disk.sector INODE_BITMAP_START_INDEX) 0 BLOCK_SIZE) BLOCK_SIZE 0 _).2
  have hnone : (w.files.find? fun g => (w.shownAs g).2 = c.pathname) = none := by
    rw [List.find?_eq_none]
    intro g hg hname
    exact hnew _ (shownAs_mem hg) (of_decide_eq_true hname)
  rw [hnone, Option.map_none] at hfind
  unfold DirWorld.step sataOpen
  rw [readBitmap_eq]
  dsimp only
  generalize lookup true _ _ _ _ _ = r at hfind hread' ⊢
  obtain ⟨found, d'⟩ := r
  dsimp only at hfind hread' ⊢
  rw [hfind]
  have hcreate := h.createFile_files hroom c.pathname c.heap hread'
  dsimp only
  cases hg : w.files.find? fun f => (w.shownAs f).2 = (parentDir c.pathname).getD [] with
  | none =>
    rw [hg] at hcreate
    obtain ⟨hfailed, hread''⟩ := hcreate
    generalize createFile c.pathname c.heap d' = q at hfailed hread'' ⊢
    obtain ⟨created, e⟩ := q
    dsimp only at hfailed hread'' ⊢
    rw [hfailed]
    exact ⟨e, hread'', congrArg (DirWorld.mk e) (List.append_nil w.files)⟩
  | some g =>
    rw [hg] at hcreate
    obtain ⟨e, hread'', hcreated⟩ := hcreate
    rw [hcreated]
    exact ⟨e, hread'', rfl⟩

end Holds

/-- The members with one more file. -/
theorem members_concat (d : Disk) (x : ℕ × List UInt8) (path : List UInt8) :
    (⟨d, w.files ++ [x]⟩ : DirWorld).members path =
      w.members path ++ if x.1 ≠ 0 ∧ parentDir x.2 = some path then [x] else [] := by
  by_cases hx : x.1 ≠ 0 ∧ parentDir x.2 = some path <;> simp [members, List.filter_append, hx]

/-- A new file with an odd number is what all those are shown as. -/
theorem shownAs_concat (d : Disk) (x f : ℕ × List UInt8) :
    (⟨d, w.files ++ [x]⟩ : DirWorld).shownAs f =
      if f.1 % 2 = 1 ∧ x.1 % 2 = 1 then x else w.shownAs f := by
  rcases Nat.mod_two_eq_zero_or_one f.1 with hf | hf
  · simp [shownAs, hf]
  · rcases Nat.mod_two_eq_zero_or_one x.1 with hx | hx <;>
      simp [shownAs, List.filter_append, hf, hx]

namespace Holds

/-- A new file in a directory keeps the invariant. -/
theorem create (h : w.Holds) (hroom : w.files.length < 40) {name : List UInt8}
    (hnew : ∀ f ∈ w.files, f.2 ≠ name) {q : ℕ × List UInt8} (hq : q ∈ w.files)
    (hdir : parentDir name = some q.2) {d' : Disk}
    (hd : NewFile w.files.length q.1 name w.disk d') :
    Holds ⟨d', w.files ++ [(w.files.length, name)]⟩ := by
  have hpos : w.files.length ≠ 0 := (Nat.zero_le q.1).trans_lt (h.lt hq) |>.ne'
  have hbits : ∀ index, (∀ k < BLOCK_SIZE, w.disk.sector index k ≠ 0 ↔ k < w.files.length) →
      (∀ k < BLOCK_SIZE, d'.sector index k =
        if k = w.files.length then 1 else w.disk.sector index k) →
      ∀ k < BLOCK_SIZE, d'.sector index k ≠ 0 ↔
        k < (w.files ++ [(w.files.length, name)]).length := by
    intro index hold hset k hk
    rw [hset k hk, List.length_append, List.length_singleton]
    by_cases hlast : k = w.files.length
    · simp [hlast]
    · rw [if_neg hlast, hold k hk]
      omega
  refine ⟨?_, ?_, ?_, fun f hf hne => ?_, hbits _ h.inodes hd.inodes, hbits _ h.dentries hd.dentries,
    fun f hf i hi => ?_, fun f hf heven => ?_, fun f hf hodd => ?_⟩
  · rw [List.map_append, h.numbers, List.length_append, List.length_singleton, List.range_succ]
    rfl
  · rw [List.length_append, List.length_singleton]
    omega
  · rw [List.map_append, List.map_singleton, List.nodup_append]
    refine ⟨h.names, List.nodup_singleton _, fun a ha b hb => ?_⟩
    obtain ⟨f, hf, rfl⟩ := List.mem_map.1 ha
    rw [List.mem_singleton.1 hb]
    exact hnew f hf
  · rcases List.mem_append.1 hf with hf | hf
    · obtain ⟨g, hg, hparent⟩ := h.parents f hf hne
      exact ⟨g, List.mem_append_left _ hg, hparent⟩
    · rw [List.mem_singleton.1 hf]
      exact ⟨q, List.mem_append_left _ hq, hdir⟩
  · rw [members_concat, hdir]
    rcases List.mem_append.1 hf with hf | hf
    · by_cases hfq : f = q
      · subst hfq
        rw [if_pos ⟨hpos, rfl⟩, List.map_append]
        refine hd.slots_parent _ (fun x hx => ?_) (h.slots f hf) i hi
        obtain ⟨g, hg, rfl⟩ := List.mem_map.1 hx
        exact (mem_members.1 hg).2.1
      · have hne : ¬(w.files.length ≠ 0 ∧ some q.2 = some f.2) := fun hand =>
          hfq (h.eq_of_name hf hq (Option.some.inj hand.2).symm)
        rw [if_neg hne, List.append_nil, hd.slots f.1 (h.lt hf).ne
          (fun hnum => hfq (h.eq_of_number hf hq hnum)) i hi]
        exact h.slots f hf i hi
    · -- no file was created in the new one
      rw [List.mem_singleton.1 hf, hd.slots_new i hi]
      have hnone : w.members name = [] := by
        refine List.filter_eq_nil_iff.2 fun g hg hmem => ?_
        obtain ⟨hne, hparent⟩ := of_decide_eq_true hmem
        obtain ⟨g', hg', hname⟩ := h.parents g hg hne
        rw [hparent] at hname
        exact hnew g' hg' (Option.some.inj hname).symm
      have hne : ¬(w.files.length ≠ 0 ∧ some q.2 = some name) := fun hand =>
        hnew q hq (Option.some.inj hand.2)
      rw [hnone, if_neg hne]
      rfl
  · rcases List.mem_append.1 hf with hf | hf
    · rw [hd.shown f.1 (h.lt hf).ne heven, h.even f hf heven]
    · rw [List.mem_singleton.1 hf] at heven ⊢
      exact (hd.even heven).1
  · rw [shownAs_concat]
    rcases Nat.mod_two_eq_zero_or_one w.files.length with hmod | hmod
    · rw [if_neg (by simp [hmod]), (hd.even hmod).2]
      rcases List.mem_append.1 hf with hf | hf
      · exact h.odd f hf hodd
      · rw [List.mem_singleton.1 hf] at hodd
        exact absurd hmod (by simp [hodd])
    · rw [if_pos ⟨hodd, hmod⟩, hd.odd hmod]

/-- One call of `sata_open`. -/
theorem step (h : w.Holds) {c : Creation} (hfits : w.Fits c) : (w.step c).Holds := by
  obtain ⟨hshort, hroom, hshown⟩ := hfits
  by_cases hex : ∃ f ∈ w.files, f.2 = c.pathname
  · obtain ⟨f, hf, hname⟩ := hex
    obtain ⟨d', hread, hstep⟩ := h.step_of_found hf hname (hshown f hf hname)
    rw [hstep]
    exact h.reads hread
  · have hroom' := hroom.resolve_right hex
    have hnew : ∀ f ∈ w.files, f.2 ≠ c.pathname := fun f hf hname => hex ⟨f, hf, hname⟩
    have hstep := h.step_of_new hroom' hnew
    cases hg : w.files.find? fun f => (w.shownAs f).2 = (parentDir c.pathname).getD [] with
    | none =>
      rw [hg] at hstep
      obtain ⟨d', hread, hstep⟩ := hstep
      rw [hstep]
      exact h.reads hread
    | some g =>
      rw [hg] at hstep
      obtain ⟨d', hread, hstep⟩ := hstep
      have hmem := shownAs_mem (List.mem_of_find?_eq_some hg)
      have hname := List.find?_some hg
      rw [decide_eq_true_iff] at hname
      obtain ⟨dir, hdir⟩ : ∃ dir, parentDir c.pathname = some dir := by
        obtain ⟨parent, hparent⟩ := getParent_of_short [] (t := c.pathname) (by
          unfold inameLength at hshort
          unfold parentDirLength
          omega)
        obtain ⟨dir, hdir, -⟩ := Option.bind_eq_some_iff.1 hparent
        exact ⟨dir, hdir⟩
      rw [hdir, Option.getD_some] at hname
      have hlt := h.lt hmem
      rw [hstep]
      exact (h.reads hread).create hroom' hnew hmem (hdir.trans (congrArg some hname.symm))
        (newFile_buildFile c.heap hroom' hlt.ne hshort c.noNul)

end Holds

end files

/-- After `init_fs`. -/
theorem holds_boot (sector : ℕ → ℕ → UInt8) (heap : ℕ → UInt8) : (boot sector heap).Holds := by
  have hnew : NewEntry 0 [slash] (format sector) (initFs sector heap) :=
    newEntry_build 0 (by decide) (by decide) (by decide +kernel)
  have hbit : ∀ index, index < TOTAL_BLOCK_COUNT → (∀ k < BLOCK_SIZE,
      (initFs sector heap).sector index k = if k = 0 then 1 else (format sector).sector index k) →
      ∀ k < BLOCK_SIZE, (initFs sector heap).sector index k ≠ 0 ↔ k < 1 := by
    intro index hindex hset k hk
    rw [hset k hk, sector_format sector hindex hk]
    by_cases hzero : k = 0 <;> simp [hzero]
  refine ⟨rfl, show 1 ≤ 40 by decide, List.nodup_singleton _, fun f hf hne => ?_, hbit _ (by decide) hnew.inodes,
    hbit _ (by decide) hnew.dentries, fun f hf i hi => ?_, fun f hf heven => ?_, fun f hf hodd => ?_⟩
  all_goals rw [boot, List.mem_singleton] at hf; subst hf
  · exact absurd rfl hne
  · exact hnew.slots i hi
  · exact (hnew.even rfl).1
  · cases hodd

end DirWorld

/-- Directories of the archive are listed if they have less than 30 members.  Those on disk are
after runs in which files are created with short names and numbers of entries: if they are opened,
have less than 24 members, and none of these has an odd number that is not the last. -/
theorem directories_listed_iff {a : Archive} {t : Tarfs} {dirPath : List UInt8}
    {reader : DentryReader} (hinit : tarfsInit a = some t)
    (hopen : openTarfsDir t.entry dirPath = some reader)
    (hlen : (childrenOf (t.entry.map TarDentry.parent) reader.dentry).length ≤ subdirCount)
    (sector : ℕ → ℕ → UInt8) (heap : ℕ → UInt8) {cs : List Creation}
    (hfits : Always DirWorld.Fits DirWorld.step (DirWorld.boot sector heap) cs)
    {f : ℕ × List UInt8} (hf : f ∈ (cs.foldl DirWorld.step (DirWorld.boot sector heap)).files) :
    (ListsAll (readTarfsDir t.entry) reader
        (childrenOf (t.entry.map TarDentry.parent) reader.dentry) ↔
      (childrenOf (t.entry.map TarDentry.parent) reader.dentry).length < subdirCount) ∧
    ((cs.foldl DirWorld.step (DirWorld.boot sector heap)).Lists f ↔
      (cs.foldl DirWorld.step (DirWorld.boot sector heap)).Listable f) := by
  constructor
  · exact listsAll_tarfs_iff (tarfsInit_filled hinit) hopen hlen
  · have hholds : (cs.foldl DirWorld.step (DirWorld.boot sector heap)).Holds :=
      foldl_always (DirWorld.holds_boot sector heap) (fun w c h => h.step) hfits
    exact hholds.lists_iff hf

/-! ## Files in the root -/

/-- A file is created in the root. -/
theorem DirWorld.Holds.step_root {w : DirWorld} (h : w.Holds) (hroot : (0, [slash]) ∈ w.files)
    (hroom : w.files.length < 40) {c : Creation} (hnew : ∀ f ∈ w.files, f.2 ≠ c.pathname)
    (hdir : parentDir c.pathname = some [slash]) :
    (w.step c).files = w.files ++ [(w.files.length, c.pathname)] := by
  have hstep := h.step_of_new hroom hnew
  have hsome : (w.files.find? fun f =>
      (w.shownAs f).2 = (parentDir c.pathname).getD []).isSome := by
    rw [List.find?_isSome]
    exact ⟨_, hroot, by rw [hdir]; rfl⟩
  obtain ⟨g, hg⟩ := Option.isSome_iff_exists.1 hsome
  rw [hg] at hstep
  obtain ⟨d', -, hstep⟩ := hstep
  rw [hstep]

theorem letter_ne_zero (i : Fin 26) : ∀ c ∈ [slash, 97 + UInt8.ofNat i], c ≠ 0 := by
  revert i
  decide +kernel

/-- A file with a name of one letter. -/
def createLetter (i : Fin 26) : Creation where
  pathname := [slash, 97 + UInt8.ofNat i]
  heap _ := 0
  noNul := letter_ne_zero i

/-- A letter that is not there yet. -/
theorem DirWorld.Holds.step_letter {w : DirWorld} (h : w.Holds) (hroot : (0, [slash]) ∈ w.files)
    (hroom : w.files.length < 40) {i : Fin 26}
    (hnew : ∀ f ∈ w.files, f.2 ≠ (createLetter i).pathname) : w.Fits (createLetter i) ∧
      (w.step (createLetter i)).Holds ∧
      (w.step (createLetter i)).files = w.files ++ [(w.files.length, (createLetter i).pathname)] := by
  have hfits : w.Fits (createLetter i) :=
    ⟨show 2 < inameLength by decide, .inl hroom, fun f hf hname => absurd hname (hnew f hf)⟩
  have hdir : ∀ i : Fin 26, parentDir (createLetter i).pathname = some [slash] := by decide
  exact ⟨hfits, h.step hfits, h.step_root hroot hroom hnew (hdir i)⟩

/-- An empty archive, and one file in the root of the disk. -/
theorem directories_listed_iff_one :
    (ListsAll (readTarfsDir [⟨none, List.replicate subdirCount none, root, 0⟩]) ⟨0, 0, 0⟩ [] ↔
      0 < subdirCount) ∧
    (([createLetter 0].foldl DirWorld.step (DirWorld.boot (fun _ _ => 0) fun _ => 0)).Lists
        (0, [slash]) ↔
      ([createLetter 0].foldl DirWorld.step (DirWorld.boot (fun _ _ => 0) fun _ => 0)).Listable
        (0, [slash])) := by
  obtain ⟨hfits, -, hfiles⟩ := (DirWorld.holds_boot (fun _ _ => 0) fun _ => 0).step_letter
    (List.mem_singleton_self _) (show 1 < 40 by decide) (i := 0) (by decide)
  have hmem : ((0, [slash]) : ℕ × List UInt8) ∈
      ([createLetter 0].foldl DirWorld.step (DirWorld.boot (fun _ _ => 0) fun _ => 0)).files := by
    rw [List.foldl_cons, List.foldl_nil, hfiles]
    exact List.mem_append_left _ (List.mem_singleton_self _)
  have hinit : tarfsInit ⟨0, fun _ => 0⟩ = some (Archive.start ⟨0, fun _ => 0⟩) := rfl
  have hopen : openTarfsDir (Archive.start ⟨0, fun _ => 0⟩).entry root = some ⟨0, 0, 0⟩ := rfl
  have hrun : Always DirWorld.Fits DirWorld.step (DirWorld.boot (fun _ _ => 0) fun _ => 0)
      [createLetter 0] := ⟨hfits, trivial⟩
  exact directories_listed_iff hinit hopen (Nat.zero_le _) (fun _ _ => 0) (fun _ => 0) hrun hmem

/-- Three files in the root: the first one is listed as the third. -/
theorem not_lists_three :
    ¬([createLetter 0, createLetter 1, createLetter 2].foldl DirWorld.step
      (DirWorld.boot (fun _ _ => 0) fun _ => 0)).Lists (0, [slash]) := by
  intro hlists
  rw [List.foldl_cons, List.foldl_cons, List.foldl_cons, List.foldl_nil] at hlists
  obtain ⟨-, h₁, hfiles₁⟩ := (DirWorld.holds_boot (fun _ _ => 0) fun _ => 0).step_letter
    (List.mem_singleton_self _) (show 1 < 40 by decide) (i := 0) (by decide)
  generalize (DirWorld.boot (fun _ _ => 0) fun _ => 0).step (createLetter 0) = w₁ at hlists h₁ hfiles₁
  change w₁.files = [(0, [slash]), (1, [slash, 97])] at hfiles₁
  obtain ⟨-, h₂, hfiles₂⟩ := h₁.step_letter (i := 1) (by rw [hfiles₁]; decide)
    (by rw [hfiles₁]; decide) (by rw [hfiles₁]; decide)
  rw [hfiles₁] at hfiles₂
  generalize w₁.step (createLetter 1) = w₂ at hlists h₂ hfiles₂
  change w₂.files = [(0, [slash]), (1, [slash, 97]), (2, [slash, 98])] at hfiles₂
  obtain ⟨-, h₃, hfiles₃⟩ := h₂.step_letter (i := 2) (by rw [hfiles₂]; decide)
    (by rw [hfiles₂]; decide) (by rw [hfiles₂]; decide)
  rw [hfiles₂] at hfiles₃
  generalize w₂.step (createLetter 2) = w₃ at hlists h₃ hfiles₃
  change w₃.files = [(0, [slash]), (1, [slash, 97]), (2, [slash, 98]), (3, [slash, 99])] at hfiles₃
  obtain ⟨d, files⟩ := w₃
  obtain rfl := hfiles₃
  obtain ⟨-, -, hshown⟩ := (h₃.lists_iff List.mem_cons_self).1 hlists
  have hmem : ((1, [slash, 97]) : ℕ × List UInt8) ∈
      [(0, [slash]), (1, [slash, 97]), (2, [slash, 98]), (3, [slash, 99])] := by decide
  exact absurd (hshown (1, [slash, 97]) (DirWorld.mem_members.2 ⟨hmem, by decide, by decide⟩))
    (show ((3, [slash, 99]) : ℕ × List UInt8) ≠ (1, [slash, 97]) by decide)

end SadOS.Fs
