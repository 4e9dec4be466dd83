import SadOS.Fs.Regions

/-!
# The two parts of a directory entry

A directory entry with an even number lies in its sector.  One with an odd number has only the
first 24 slots there; its name and its number are in the rest of `common_buf`, which has room for
one entry.

## Main definitions

* `inSector`, `rest` — the two parts.
* `slotOf`, `shownOf` — the slots, and what a listing shows.

## Main results

* `buildDentry_new` — what a new file changes.
* `slotOf_addSubdir` — the slot that the parent gets.
* `lookup_eq` — the loop over the entries.
-/

namespace SadOS.Fs

/-! ## Parts -/

/-- The bytes of an entry in its sector. -/
def inSector (j : ℕ) (d : Disk) : ℕ → UInt8 :=
  fun k => d.sector (DENTRY_START_INDEX + j / 2) (j % 2 * sizeofDentry + k)

/-- The bytes of an entry with an odd number in `common_buf`. -/
def rest (d : Disk) : ℕ → UInt8 := fun k => d.buf (sizeofDentry + k)

/-- The bytes of an entry that are in its sector. -/
def Inside (j k : ℕ) : Prop := k < sizeofDentry ∧ j % 2 * sizeofDentry + k < BLOCK_SIZE

/-- `d_subdirs[i]`. -/
def slotOf (b : ℕ → UInt8) (i : ℕ) : ℕ := field b (offsetOf dentryMembers 2 + 8 * i) 8

/-- The string in `d_iname`. -/
def nameOf (b : ℕ → UInt8) : List UInt8 :=
  (slice b (offsetOf dentryMembers 3) (sizeofDentry - offsetOf dentryMembers 3)).takeWhile
    fun c => c ≠ 0

/-- `dentry_id`, and the string in `d_iname`. -/
def shownOf (b : ℕ → UInt8) : ℕ × List UInt8 := (field b (offsetOf dentryMembers 4) 4, nameOf b)

/-- Only the buffer in front of the rest is changed. -/
structure Reads (d d' : Disk) : Prop where
  sector : d'.sector = d.sector
  buf : ∀ k, BLOCK_SIZE ≤ k → d'.buf k = d.buf k

section parts

variable {d d' : Disk} {j p k i : ℕ} {b b' : ℕ → UInt8}

theorem offsetOf_iname : offsetOf dentryMembers 3 = 256 := rfl

theorem inside_iff : Inside j k ↔ k < 304 ∧ j % 2 * 304 + k < 512 := Iff.rfl

/-- The first 24 slots of an entry. -/
theorem inside_of_lt (h : k < 208) : Inside j k := by
  rw [inside_iff]
  omega

theorem inside_of_even (hj : j % 2 = 0) (h : k < 304) : Inside j k := by
  rw [inside_iff]
  omega

theorem slotOf_congr (h : ∀ k < 208, b' k = b k) (hi : i < clearedSlots) :
    slotOf b' i = slotOf b i := by
  refine field_congr fun k hk => h _ ?_
  rw [offsetOf_subdirs]
  unfold clearedSlots at hi
  omega

theorem shownOf_congr (h : ∀ k, 208 ≤ k → k < 304 → b' k = b k) : shownOf b' = shownOf b := by
  have hid : field b' (offsetOf dentryMembers 4) 4 = field b (offsetOf dentryMembers 4) 4 :=
    field_congr fun k hk => by
      rw [offsetOf_dentryId]
      exact h _ (by omega) (by omega)
  have hname : nameOf b' = nameOf b := by
    refine congrArg (List.takeWhile _) (slice_congr fun k hk => ?_)
    rw [sizeofDentry_eq, offsetOf_iname] at hk
    rw [offsetOf_iname]
    exact h _ (by omega) (by omega)
  rw [shownOf, shownOf, hid, hname]

/-! ## Reads -/

namespace Reads

@[refl] theorem refl (d : Disk) : Reads d d := ⟨rfl, fun _ _ => rfl⟩

theorem trans {d'' : Disk} (h : Reads d d') (h' : Reads d' d'') : Reads d d'' :=
  ⟨h'.sector.trans h.sector, fun k hk => (h'.buf k hk).trans (h.buf k hk)⟩

theorem readSata (h : Reads d d') (m : ℕ) : Reads d (Fs.readSata d' m) :=
  h.trans ⟨rfl, fun _ hk => Drive.buf_load_of_le hk⟩

theorem inSector (h : Reads d d') (j : ℕ) : Fs.inSector j d' = Fs.inSector j d := by
  funext k
  rw [Fs.inSector, h.sector, Fs.inSector]

theorem rest (h : Reads d d') (hk : 208 ≤ k) : Fs.rest d' k = Fs.rest d k :=
  h.buf _ (by rw [sizeofDentry_eq, BLOCK_SIZE]; omega)

end Reads

/-- A byte that `get_dentry` reads. -/
theorem byteOf_getDentry (hk : k < 304) :
    byteOf (getDentry j d).1 k = if j % 2 * 304 + k < 512 then inSector j d k else rest d k := by
  have hget : (getDentry j d).1[k]? =
      some ((readSata d (DENTRY_START_INDEX + j / 2)).buf (j % 2 * 304 + k)) := getElem?_slice _ hk
  rw [byteOf, List.getD_eq_getElem?_getD, hget, Option.getD_some]
  split
  case isTrue hlt => exact Drive.buf_load_of_lt hlt
  case isFalse hge =>
    have hodd : j % 2 = 1 := by omega
    rw [hodd, Nat.one_mul]
    refine Drive.buf_load_of_le ?_
    rw [BLOCK_SIZE]
    omega

theorem byteOf_getDentry_inside (h : Inside j k) : byteOf (getDentry j d).1 k = inSector j d k := by
  rw [byteOf_getDentry h.1]
  exact if_pos h.2

theorem byteOf_getDentry_rest (hj : j % 2 = 1) (hlo : 208 ≤ k) (hhi : k < 304) :
    byteOf (getDentry j d).1 k = rest d k := by
  rw [byteOf_getDentry hhi, if_neg (by omega)]

/-- A read does not change what is read next. -/
theorem Reads.getDentry (h : Reads d d') (j : ℕ) : (Fs.getDentry j d').1 = (Fs.getDentry j d).1 := by
  refine slice_congr fun k hk => ?_
  by_cases hlt : j % 2 * sizeofDentry + k < BLOCK_SIZE
  · rw [Fs.readSata, Fs.readSata, Drive.buf_load_of_lt hlt, Drive.buf_load_of_lt hlt, h.sector]
  · rw [Fs.readSata, Fs.readSata, Drive.buf_load_of_le (by omega), Drive.buf_load_of_le (by omega)]
    exact h.buf _ (by omega)

theorem slotOf_getDentry (hi : i < clearedSlots) :
    slotOf (byteOf (getDentry j d).1) i = slotOf (inSector j d) i :=
  slotOf_congr (fun _ hk => byteOf_getDentry_inside (inside_of_lt hk)) hi

theorem shownOf_getDentry_even (hj : j % 2 = 0) :
    shownOf (byteOf (getDentry j d).1) = shownOf (inSector j d) :=
  shownOf_congr fun _ _ hk => byteOf_getDentry_inside (inside_of_even hj hk)

theorem shownOf_getDentry_odd (hj : j % 2 = 1) :
    shownOf (byteOf (getDentry j d).1) = shownOf (rest d) :=
  shownOf_congr fun _ hlo hhi => byteOf_getDentry_rest hj hlo hhi

/-! ## Writes -/

section writes

variable {s : Struct sizeofDentry}

theorem buf_writeDentry (p : ℕ) (s : Struct sizeofDentry) (d : Disk) :
    (writeDentry p s d).buf =
      splice (readSata d (DENTRY_START_INDEX + p / 2)).buf (p % 2 * sizeofDentry) s.bytes := rfl

theorem sector_writeDentry (h : k < BLOCK_SIZE) :
    (writeDentry p s d).sector (DENTRY_START_INDEX + p / 2) k = (writeDentry p s d).buf k :=
  Drive.sector_modify_of_lt (f := fun b => splice b (p % 2 * sizeofDentry) s.bytes) h

/-- Other sectors stay. -/
theorem sector_writeDentry_of_ne {m : ℕ} (h : m ≠ DENTRY_START_INDEX + p / 2) :
    (writeDentry p s d).sector m = d.sector m :=
  Drive.sector_modify_of_ne (f := fun b => splice b (p % 2 * sizeofDentry) s.bytes) h

/-- The bytes that are put into the buffer. -/
theorem splice_struct (b : ℕ → UInt8) (off : ℕ) (h : k < 304) :
    splice b off s.bytes (off + k) = byteOf s.bytes k := by
  have hlt : k < s.bytes.length := by rwa [s.length_eq]
  rw [splice, if_pos (Nat.le_add_right _ _), Nat.add_sub_cancel_left, byteOf,
    List.getD_eq_getElem?_getD, List.getElem?_eq_getElem hlt]
  rfl

theorem inSector_writeDentry (h : Inside p k) : inSector p (writeDentry p s d) k = byteOf s.bytes k := by
  rw [inSector, sector_writeDentry h.2, buf_writeDentry, splice_struct _ _ h.1]

/-- The other entry of a sector stays. -/
theorem inSector_writeDentry_of_ne (hj : j ≠ p) (h : Inside j k) :
    inSector j (writeDentry p s d) k = inSector j d k := by
  by_cases hb : DENTRY_START_INDEX + j / 2 = DENTRY_START_INDEX + p / 2
  · obtain ⟨hk, hin⟩ := inside_iff.1 h
    have hlen : s.bytes.length = 304 := s.length_eq
    have hload : (readSata d (DENTRY_START_INDEX + p / 2)).buf (j % 2 * sizeofDentry + k) =
        inSector j d k := by
      rw [inSector, hb]
      exact Drive.buf_load_of_lt h.2
    rw [← hload, inSector, hb, sector_writeDentry h.2, buf_writeDentry]
    rcases Nat.mod_two_eq_zero_or_one j with hmod | hmod
    · refine splice_of_lt _ _ ?_
      change j % 2 * 304 + k < p % 2 * 304
      omega
    · refine splice_of_le _ _ ?_
      rw [hlen]
      change p % 2 * 304 + 304 ≤ j % 2 * 304 + k
      omega
  · rw [inSector, sector_writeDentry_of_ne hb, inSector]

/-- An entry with an odd number replaces the rest. -/
theorem rest_writeDentry_odd (hp : p % 2 = 1) (h : k < 304) :
    rest (writeDentry p s d) k = byteOf s.bytes k := by
  rw [rest, buf_writeDentry, hp, Nat.one_mul, splice_struct _ _ h]

/-- An entry with an even number leaves the rest. -/
theorem rest_writeDentry_even (hp : p % 2 = 0) (h : 208 ≤ k) :
    rest (writeDentry p s d) k = rest d k := by
  have hlen : s.bytes.length = 304 := s.length_eq
  rw [rest, buf_writeDentry, splice_of_le _ _ (by rw [hp, hlen, sizeofDentry_eq]; omega)]
  refine Drive.buf_load_of_le ?_
  rw [sizeofDentry_eq, BLOCK_SIZE]
  omega

end writes

/-! ## Bitmaps and inodes -/

theorem setBitmap_eq (index id : ℕ) (d : Disk) : setBitmap index id d =
    d.modify BLOCK_SIZE index fun b => splice b 0 ((slice b 0 BLOCK_SIZE).set id 1) := rfl

/-- A bit is set, the others stay. -/
theorem sector_setBitmap_self (index : ℕ) {id : ℕ} (hk : k < BLOCK_SIZE) :
    (setBitmap index id d).sector index k = if k = id then 1 else d.sector index k := by
  have hget : (slice (d.load BLOCK_SIZE index).buf 0 BLOCK_SIZE)[k]? = some (d.sector index k) := by
    rw [getElem?_slice _ hk, Nat.zero_add, Drive.buf_load_of_lt hk]
  rw [setBitmap_eq, Drive.sector_modify_of_lt hk, splice, if_pos (Nat.zero_le k), Nat.sub_zero,
    List.getElem?_set]
  by_cases h : id = k
  · rw [if_pos h, if_pos h.symm, if_pos (by rwa [length_slice, h])]
    rfl
  · rw [if_neg h, if_neg (Ne.symm h), hget]
    rfl

theorem rest_setBitmap (index id : ℕ) (h : 208 ≤ k) : rest (setBitmap index id d) k = rest d k := by
  have hk : BLOCK_SIZE ≤ sizeofDentry + k := by
    rw [sizeofDentry_eq, BLOCK_SIZE]
    omega
  rw [rest, setBitmap_eq, Drive.buf_modify, splice_of_le _ _ (by simpa using hk),
    Drive.buf_load_of_le hk, rest]

theorem sector_buildInode_of_ne {m id flags : ℕ} (h : m ≠ INODE_START_INDEX + id / 4) :
    (buildInode id flags d).sector m = (setBitmap INODE_BITMAP_START_INDEX id d).sector m :=
  Drive.sector_modify_of_ne (f := fillInode (id % 4 * sizeofInode) id flags) h

/-- One inode of four changes what is behind a sector in `common_buf`, and has an odd number. -/
theorem rest_buildInode {id : ℕ} (flags : ℕ) (hid : id % 2 = 0) (h : 208 ≤ k) :
    rest (buildInode id flags d) k = rest d k := by
  have hk : BLOCK_SIZE ≤ sizeofDentry + k := by
    rw [sizeofDentry_eq, BLOCK_SIZE]
    omega
  have hbuf : (buildInode id flags d).buf = fillInode (id % 4 * sizeofInode) id flags
      ((setBitmap INODE_BITMAP_START_INDEX id d).load BLOCK_SIZE (INODE_START_INDEX + id / 4)).buf :=
    rfl
  rw [rest, hbuf, local_fillInode _ _ _ _ _ (.inr ?_), Drive.buf_load_of_le hk]
  · exact rest_setBitmap _ _ h
  · rw [sizeofInode_eq, sizeofDentry_eq]
    omega

/-! ## A new entry -/

section built

variable {inode n parent : ℕ} {name : List UInt8} {heap : ℕ → UInt8}

/-- The loop of `build_dentry` over the slots. -/
theorem field_clear (b : ℕ → UInt8) {m : ℕ} (hi : i < m) :
    field ((List.range m).foldl (fun b i => assign b (offsetOf dentryMembers 2 + 8 * i) 8 0) b)
      (offsetOf dentryMembers 2 + 8 * i) 8 = 0 := by
  induction m with
  | zero => cases hi
  | succ m ih =>
    rw [List.range_succ, List.foldl_append, List.foldl_cons, List.foldl_nil]
    by_cases heq : i = m
    · rw [heq, field_assign (by decide)]
    · rw [field_assign_of_disjoint (by omega)]
      exact ih (by omega)

theorem byteOf_builtDentry (h : k < 304) :
    byteOf (builtDentry inode n parent name heap).bytes k = fillDentry inode n parent name heap k := by
  have hget : (builtDentry inode n parent name heap).bytes[k]? =
      some (fillDentry inode n parent name heap (0 + k)) := getElem?_slice _ h
  rw [byteOf, List.getD_eq_getElem?_getD, hget, Nat.zero_add]
  rfl

theorem slotOf_builtDentry (hi : i < clearedSlots) :
    slotOf (byteOf (builtDentry inode n parent name heap).bytes) i = 0 := by
  unfold clearedSlots at hi
  have hid : offsetOf dentryMembers 4 = 288 := rfl
  have hinode : offsetOf dentryMembers 5 = 296 := rfl
  have hname : offsetOf dentryMembers 3 = 256 := rfl
  have hslots : offsetOf dentryMembers 2 = 16 := rfl
  have hfill : slotOf (byteOf (builtDentry inode n parent name heap).bytes) i =
      slotOf (fillDentry inode n parent name heap) i :=
    slotOf_congr (fun k hk => byteOf_builtDentry (by omega)) hi
  rw [hfill, slotOf, fillDentry, field_assign_of_disjoint (.inl (by omega)), field_assign_of_disjoint (.inl (by omega)),
    field_of_local (local_splice (le_refl _) (le_refl _)) (.inl (by omega)), field_clear _ hi]

/-- A short name is shown as it was given. -/
theorem shownOf_builtDentry (hn : n < 40) (hshort : name.length < inameLength)
    (hnul : ∀ c ∈ name, c ≠ 0) :
    shownOf (byteOf (builtDentry inode n parent name heap).bytes) = (n, name) := by
  unfold inameLength at hshort
  have hfill : shownOf (byteOf (builtDentry inode n parent name heap).bytes) =
      shownOf (fillDentry inode n parent name heap) :=
    shownOf_congr fun k _ hk => byteOf_builtDentry hk
  have hid : field (fillDentry inode n parent name heap) (offsetOf dentryMembers 4) 4 = n := by
    rw [fillDentry]
    exact field_assign (by omega)
  obtain ⟨b, hb⟩ : ∃ b, fillDentry inode n parent name heap =
      assign (assign (splice b 256 (name ++ [0])) 296 8 inode) 288 4 n := ⟨_, rfl⟩
  have hbyte : ∀ k < 288, fillDentry inode n parent name heap k = splice b 256 (name ++ [0]) k := by
    intro k hk
    rw [hb, assign, splice_of_lt _ _ hk, assign, splice_of_lt _ _ (by omega)]
  have hlen : (name ++ [(0 : UInt8)]).length = name.length + 1 := by simp
  have hslice : slice (fillDentry inode n parent name heap) 256 (name.length + 1) = name ++ [0] := by
    rw [← hlen]
    exact (slice_congr fun k hk => hbyte _ (by omega)).trans (slice_splice b 256 _)
  have hname : nameOf (fillDentry inode n parent name heap) = name := by
    have hsize : 48 = (name.length + 1) + (47 - name.length) := by omega
    change (slice (fillDentry inode n parent name heap) 256 48).takeWhile (fun c => c ≠ 0) = name
    rw [hsize, slice_add, hslice, List.append_assoc,
      List.takeWhile_append_of_pos fun c hc => by simpa using hnul c hc]
    simp
  rw [hfill, shownOf, hid, hname]

/-- What a new entry changes: the bitmaps, the entry, and the rest if its number is odd. -/
structure NewEntry (n : ℕ) (name : List UInt8) (d d' : Disk) : Prop where
  inodes : ∀ k < BLOCK_SIZE, d'.sector INODE_BITMAP_START_INDEX k =
    if k = n then 1 else d.sector INODE_BITMAP_START_INDEX k
  dentries : ∀ k < BLOCK_SIZE, d'.sector DENTRY_BITMAP_START_INDEX k =
    if k = n then 1 else d.sector DENTRY_BITMAP_START_INDEX k
  other : ∀ j, j ≠ n → ∀ k, Inside j k → inSector j d' k = inSector j d k
  slots : ∀ i < clearedSlots, slotOf (inSector n d') i = 0
  even : n % 2 = 0 → shownOf (inSector n d') = (n, name) ∧
    ∀ k, 208 ≤ k → rest d' k = rest d k
  odd : n % 2 = 1 → shownOf (rest d') = (n, name)

theorem newEntry_build (flags : ℕ) (hn : n < 40) (hshort : name.length < inameLength)
    (hnul : ∀ c ∈ name, c ≠ 0) :
    NewEntry n name d (buildDentry inode n parent name heap (buildInode n flags d)) := by
  obtain ⟨s, hs⟩ : ∃ s, s = builtDentry inode n parent name heap := ⟨_, rfl⟩
  obtain ⟨e, he⟩ : ∃ e, e = setBitmap DENTRY_BITMAP_START_INDEX n (buildInode n flags d) := ⟨_, rfl⟩
  have hread : Reads e (readSata e (DENTRY_START_INDEX + n / 2)) := (Reads.refl e).readSata _
  have hbuild : buildDentry inode n parent name heap (buildInode n flags d) =
      writeDentry n s (readSata e (DENTRY_START_INDEX + n / 2)) := by
    rw [hs, he]
    rfl
  have hslots : ∀ i < clearedSlots, slotOf (byteOf s.bytes) i = 0 := fun i hi =>
    hs ▸ slotOf_builtDentry hi
  have hshown : shownOf (byteOf s.bytes) = (n, name) := hs ▸ shownOf_builtDentry hn hshort hnul
  -- the sectors in front of the inodes
  have hfront : ∀ m < 4, (writeDentry n s (readSata e (DENTRY_START_INDEX + n / 2))).sector m =
      e.sector m := by
    intro m hm
    rw [sector_writeDentry_of_ne (by unfold DENTRY_START_INDEX; omega), hread.sector]
  have hinodes : e.sector INODE_BITMAP_START_INDEX =
      (setBitmap INODE_BITMAP_START_INDEX n d).sector INODE_BITMAP_START_INDEX := by
    rw [he, sector_setBitmap (by decide), sector_buildInode_of_ne]
    unfold INODE_BITMAP_START_INDEX INODE_START_INDEX
    omega
  have hdentries : (buildInode n flags d).sector DENTRY_BITMAP_START_INDEX =
      d.sector DENTRY_BITMAP_START_INDEX := by
    rw [sector_buildInode_of_ne, sector_setBitmap (by decide)]
    unfold DENTRY_BITMAP_START_INDEX INODE_START_INDEX
    omega
  have hsectors : ∀ j, inSector j e = inSector j d := by
    intro j
    funext k
    rw [inSector, he, sector_setBitmap, sector_buildInode_of_ne, sector_setBitmap, inSector]
    all_goals
      simp only [DENTRY_START_INDEX, DENTRY_BITMAP_START_INDEX, INODE_BITMAP_START_INDEX,
        INODE_START_INDEX]
      omega
  rw [hbuild]
  refine ⟨fun k hk => ?_, fun k hk => ?_, fun j hj k hk => ?_, fun i hi => ?_, fun heven => ⟨?_, ?_⟩,
    fun hodd => ?_⟩
  · rw [hfront _ (by decide), hinodes, sector_setBitmap_self _ hk]
  · rw [hfront _ (by decide), he, sector_setBitmap_self _ hk, hdentries]
  · rw [inSector_writeDentry_of_ne hj hk, hread.inSector, hsectors]
  · rw [slotOf_congr (fun k hk => inSector_writeDentry (inside_of_lt hk)) hi, hslots i hi]
  · rw [shownOf_congr fun k _ hk => inSector_writeDentry (inside_of_even heven hk), hshown]
  · intro k hk
    rw [rest_writeDentry_even heven hk, hread.rest hk, he, rest_setBitmap _ _ hk,
      rest_buildInode _ heven hk]
  · rw [shownOf_congr fun k _ hk => rest_writeDentry_odd hodd hk, hshown]

end built

/-! ## The slot in the parent -/

section subdir

variable {s : Struct sizeofDentry} {id : ℕ}

theorem byteOf_setDentrySlot (i : ℕ) {x : ℕ} (h : k < 304) :
    byteOf (setDentrySlot s i x).bytes k =
      assign (byteOf s.bytes) (offsetOf dentryMembers 2 + 8 * i) 8 x k := by
  have hget : (setDentrySlot s i x).bytes[k]? =
      some (assign (byteOf s.bytes) (offsetOf dentryMembers 2 + 8 * i) 8 x (0 + k)) :=
    getElem?_slice _ h
  rw [byteOf, List.getD_eq_getElem?_getD, hget, Nat.zero_add]
  rfl

theorem slotOf_setDentrySlot {x j : ℕ} (hx : x < 40) (hj : j < clearedSlots) :
    slotOf (byteOf (setDentrySlot s i x).bytes) j = if j = i then x else slotOf (byteOf s.bytes) j := by
  have hset : slotOf (byteOf (setDentrySlot s i x).bytes) j =
      slotOf (assign (byteOf s.bytes) (offsetOf dentryMembers 2 + 8 * i) 8 x) j :=
    slotOf_congr (fun _ hk => byteOf_setDentrySlot i (by omega)) hj
  rw [hset, slotOf, slotOf]
  split
  case isTrue heq => rw [heq, field_assign (by omega)]
  case isFalse hne => exact field_assign_of_disjoint (by omega)

/-- What is behind the slots stays. -/
theorem byteOf_addSubdir {n i : ℕ} (h : i + n ≤ clearedSlots) (hlo : 208 ≤ k) (hhi : k < 304) :
    byteOf (addSubdir id n i s).bytes k = byteOf s.bytes k := by
  induction n generalizing i with
  | zero => rfl
  | succ n ih =>
    rw [addSubdir]
    split
    · rw [byteOf_setDentrySlot i hhi]
      refine splice_of_le _ _ ?_
      rw [length_leBytes, offsetOf_subdirs]
      unfold clearedSlots at h
      omega
    · exact ih (by omega)

/-- The new number comes behind those in the slots, if there is a slot for it. -/
theorem slotOf_addSubdir {ks : List ℕ} (hid : id < 40) (hks : ∀ x ∈ ks, x ≠ 0)
    (hs : ∀ j < clearedSlots, slotOf (byteOf s.bytes) j = (ks[j]?).getD 0) {n i : ℕ}
    (hn : i + n = clearedSlots) (hi : i ≤ ks.length) {j : ℕ} (hj : j < clearedSlots) :
    slotOf (byteOf (addSubdir id n i s).bytes) j = ((ks ++ [id])[j]?).getD 0 := by
  induction n generalizing i with
  | zero =>
    rw [addSubdir, hs j hj, List.getElem?_append_left (by omega)]
  | succ n ih =>
    have hslot : dentrySlot s.bytes i = (ks[i]?).getD 0 := hs i (by omega)
    rw [addSubdir]
    split
    case isTrue hzero =>
      -- the first empty slot is the one behind the numbers
      have hlen : i = ks.length := by
        by_contra hne
        have hlt : i < ks.length := by omega
        rw [hslot, List.getElem?_eq_getElem hlt] at hzero
        exact hks _ (List.getElem_mem hlt) hzero
      rw [slotOf_setDentrySlot hid hj, hs j hj]
      split
      case isTrue heq => rw [heq, hlen, List.getElem?_concat_length]; rfl
      case isFalse hne =>
        rcases Nat.lt_or_gt_of_ne hne with hlt | hgt
        · rw [List.getElem?_append_left (by omega)]
        · rw [List.getElem?_eq_none (by omega), List.getElem?_eq_none (by simp; omega)]
    case isFalse hne =>
      have hlt : i < ks.length := by
        by_contra hge
        rw [hslot, List.getElem?_eq_none (by omega)] at hne
        exact hne rfl
      exact ih (by omega) hlt

end subdir

/-! ## A new file -/

/-- What a new file changes, if its inode and its entry have one number `n`. -/
structure NewFile (n parent : ℕ) (name : List UInt8) (d d' : Disk) : Prop where
  inodes : ∀ k < BLOCK_SIZE, d'.sector INODE_BITMAP_START_INDEX k =
    if k = n then 1 else d.sector INODE_BITMAP_START_INDEX k
  dentries : ∀ k < BLOCK_SIZE, d'.sector DENTRY_BITMAP_START_INDEX k =
    if k = n then 1 else d.sector DENTRY_BITMAP_START_INDEX k
  slots : ∀ j, j ≠ n → j ≠ parent → ∀ i < clearedSlots,
    slotOf (inSector j d') i = slotOf (inSector j d) i
  slots_new : ∀ i < clearedSlots, slotOf (inSector n d') i = 0
  slots_parent : ∀ ks : List ℕ, (∀ x ∈ ks, x ≠ 0) →
    (∀ i < clearedSlots, slotOf (inSector parent d) i = (ks[i]?).getD 0) →
    ∀ i < clearedSlots, slotOf (inSector parent d') i = ((ks ++ [n])[i]?).getD 0
  shown : ∀ j, j ≠ n → j % 2 = 0 → shownOf (inSector j d') = shownOf (inSector j d)
  even : n % 2 = 0 → shownOf (inSector n d') = (n, name) ∧ shownOf (rest d') = shownOf (rest d)
  odd : n % 2 = 1 → shownOf (rest d') = (n, name)

theorem newFile_buildFile {n parent : ℕ} {name : List UInt8} (heap : ℕ → UInt8) (hn : n < 40)
    (hparent : parent ≠ n) (hshort : name.length < inameLength) (hnul : ∀ c ∈ name, c ≠ 0) :
    NewFile n parent name d (buildFile ⟨n, n, parent⟩ name heap d) := by
  obtain ⟨e, he⟩ : ∃ e, e = buildDentry n n parent name heap (buildInode n O_CREAT d) := ⟨_, rfl⟩
  obtain ⟨s, hs⟩ : ∃ s, s = addSubdir n clearedSlots 0 (dentryAt parent e) := ⟨_, rfl⟩
  have hnew : NewEntry n name d e := he ▸ newEntry_build O_CREAT hn hshort hnul
  have hread : Reads e (getDentry parent e).2 := (Reads.refl e).readSata _
  have hbuild : buildFile ⟨n, n, parent⟩ name heap d = writeDentry parent s (getDentry parent e).2 := by
    rw [hs, he]
    rfl
  have hat : ∀ k, 208 ≤ k → k < 304 → byteOf s.bytes k = byteOf (getDentry parent e).1 k :=
    fun k hlo hhi => hs ▸ byteOf_addSubdir (le_refl _) hlo hhi
  obtain ⟨d', hd'⟩ : ∃ d', d' = writeDentry parent s (getDentry parent e).2 := ⟨_, rfl⟩
  have hfront : ∀ m < 4, d'.sector m = e.sector m := by
    intro m hm
    rw [hd', sector_writeDentry_of_ne (by unfold DENTRY_START_INDEX; omega), hread.sector]
  have hother : ∀ j, j ≠ parent → ∀ k, Inside j k → inSector j d' k = inSector j e k := by
    intro j hj k hk
    rw [hd', inSector_writeDentry_of_ne hj hk, hread.inSector]
  have hslots : ∀ j, j ≠ parent → ∀ i < clearedSlots,
      slotOf (inSector j d') i = slotOf (inSector j e) i := fun j hj i hi =>
    slotOf_congr (fun k hk => hother j hj k (inside_of_lt hk)) hi
  have hkept : ∀ j, j ≠ n → ∀ i < clearedSlots,
      slotOf (inSector j e) i = slotOf (inSector j d) i := fun j hj i hi =>
    slotOf_congr (fun k hk => hnew.other j hj k (inside_of_lt hk)) hi
  -- the parent is written back with what was read behind its slots
  have hshown : ∀ j, j % 2 = 0 → shownOf (inSector j d') = shownOf (inSector j e) := by
    intro j hj
    refine shownOf_congr fun k hlo hhi => ?_
    have hin := inside_of_even hj hhi
    by_cases heq : j = parent
    · subst heq
      rw [hd', inSector_writeDentry hin, hat k hlo hhi, byteOf_getDentry_inside hin]
    · exact hother j heq k hin
  have hrest : shownOf (rest d') = shownOf (rest e) := by
    refine shownOf_congr fun k hlo hhi => ?_
    rcases Nat.mod_two_eq_zero_or_one parent with hmod | hmod
    · rw [hd', rest_writeDentry_even hmod hlo, hread.rest hlo]
    · rw [hd', rest_writeDentry_odd hmod hhi, hat k hlo hhi, byteOf_getDentry_rest hmod hlo hhi]
  rw [hbuild, ← hd']
  refine ⟨fun k hk => ?_, fun k hk => ?_, fun j hj hj' i hi => ?_, fun i hi => ?_,
    fun ks hks hold i hi => ?_, fun j hj heven => ?_, fun heven => ⟨?_, ?_⟩, fun hodd => ?_⟩
  · rw [hfront _ (by decide), hnew.inodes k hk]
  · rw [hfront _ (by decide), hnew.dentries k hk]
  · rw [hslots j hj' i hi, hkept j hj i hi]
  · rw [hslots n hparent.symm i hi, hnew.slots i hi]
  · have hbytes : slotOf (inSector parent d') i = slotOf (byteOf s.bytes) i := by
      rw [hd']
      exact slotOf_congr (fun k hk => inSector_writeDentry (inside_of_lt hk)) hi
    rw [hbytes, hs]
    refine slotOf_addSubdir hn hks (fun j hj => ?_) (Nat.zero_add _) (Nat.zero_le _) hi
    rw [dentryAt, slotOf_getDentry hj, hkept parent hparent j hj, hold j hj]
  · rw [hshown j heven]
    exact shownOf_congr fun k _ hk => hnew.other j hj k (inside_of_even heven hk)
  · rw [hshown n heven, (hnew.even heven).1]
  · rw [hrest]
    exact shownOf_congr fun k hlo _ => (hnew.even heven).2 k hlo
  · rw [hrest, hnew.odd hodd]

/-! ## Loops over the entries -/

/-- The loop ends at the first entry with the name, and only reads. -/
theorem lookup_eq (inodes : Bool) (name bitmap : List UInt8) (n i : ℕ) (d : Disk) :
    (lookup inodes name bitmap n i d).1 = ((List.range' i n).find? fun j =>
        bitmap.getD j 0 ≠ 0 ∧ dentryName (getDentry j d).1 = name).map (fun j =>
          (j, (getDentry j d).1)) ∧ Reads d (lookup inodes name bitmap n i d).2 := by
  induction n generalizing i d with
  | zero => exact ⟨rfl, Reads.refl d⟩
  | succ n ih =>
    rw [lookup, List.range'_succ, List.find?_cons]
    by_cases hzero : bitmap.getD i 0 = 0
    · simp only [hzero, ne_eq, not_true, false_and, decide_false, if_true]
      exact ih (i + 1) d
    · obtain ⟨e, he⟩ : ∃ e, e = if inodes then (getInode i d).2 else d := ⟨_, rfl⟩
      have hread : Reads d e := by
        rw [he]
        split
        · exact (Reads.refl d).readSata _
        · exact Reads.refl d
      have hbytes := hread.getDentry
      rw [if_neg hzero, ← he]
      dsimp only
      by_cases hname : dentryName (getDentry i d).1 = name
      · rw [hbytes, if_pos hname, decide_eq_true ⟨hzero, hname⟩]
        exact ⟨rfl, hread.readSata _⟩
      · rw [hbytes, if_neg hname, decide_eq_false fun h => hname h.2]
        have hnext : Reads d (getDentry i e).2 := hread.readSata _
        obtain ⟨hfirst, hrest⟩ := ih (i + 1) (getDentry i e).2
        refine ⟨?_, hnext.trans hrest⟩
        simp only [hfirst, hnext.getDentry]

end parts

end SadOS.Fs
