import SadOS.Fs.Tarfs
import Mathlib.Data.List.Induction
import Mathlib.Data.List.Nodup
import Mathlib.Data.List.TakeWhile

/-!
# The index of a good archive

For an archive whose headers list the members of a tree, each behind its directory, the
tables that `tarfs_init` fills give the size and the data of every member, and the members of
every directory.

The length of the archive is an `int` in `tarfs_init`.

## Main definitions

* `TarEntry`, `Stored`, `Tree` — the members of an archive.
* `Indexes` — what the tables are for.
* `Indexed` — the invariant of the loop.
* `tarfsInit_indexes_iff` — when `tarfs_init` makes the index.
-/

namespace SadOS.Fs

/-! ## Archives -/

/-- A path, with a slash in front of every component. -/
def fullName (path : List (List UInt8)) : List UInt8 := path.flatMap fun c => slash :: c

/-- The name of a directory, where the root is a slash. -/
def dirName (path : List (List UInt8)) : List UInt8 := if path = [] then [slash] else fullName path

/-- A member of an archive: the components of its path, and its size as it is written. -/
structure TarEntry where
  path : List (List UInt8)
  isDir : Bool
  octal : List UInt8

/-- The relative path; a directory has a slash at the end. -/
def TarEntry.name (e : TarEntry) : List UInt8 :=
  (fullName e.path).tail ++ if e.isDir then [slash] else []

def TarEntry.size (e : TarEntry) : ℕ := e.octal.foldl (fun n c => 8 * n + (c.toNat - 48)) 0

/-- The number of the blocks with data. -/
def TarEntry.blocks (e : TarEntry) : ℕ := (e.size + 511) / 512

/-- The header behind that of a member. -/
def TarEntry.next (e : TarEntry) (header : ℤ) : ℤ := header + sizeofHeader * (e.blocks + 1)

/-- A member with a name of 1 to 28 bytes, and an octal size below `2 ^ 31`. -/
structure TarEntry.Good (e : TarEntry) : Prop where
  path_ne : e.path ≠ []
  component : ∀ c ∈ e.path, c ≠ [] ∧ ∀ x ∈ c, x ≠ 0 ∧ x ≠ slash
  length_le : e.name.length ≤ 28
  octal : ∀ c ∈ e.octal, 48 ≤ c.toNat ∧ c.toNat < 56
  length_lt : e.octal.length < 12
  size_lt : e.size < 2 ^ 31

/-- The members with the addresses of their headers. -/
def placed : ℤ → List TarEntry → List (ℤ × TarEntry)
  | _, [] => []
  | header, e :: es => (header, e) :: placed (e.next header) es

/-- The end of the last member. -/
def endOf : ℤ → List TarEntry → ℤ
  | header, [] => header
  | header, e :: es => endOf (e.next header) es

/-- The headers of the members stand in the archive from an address on, with their data; a block of
zeros follows, or the end of the archive. -/
def Stored (m : ByteMem) : ℤ → List TarEntry → Prop
  | header, [] => header = m.hi ∨ m.Holds header (List.replicate sizeofHeader 0)
  | header, e :: es => m.Holds (header + headerName) (e.name ++ [0]) ∧
      m.Holds (header + headerSize) (e.octal ++ [0]) ∧ e.next header ≤ m.hi ∧
      Stored m (e.next header) es

/-- Every member is behind its directory, and every directory has at most 30 members. -/
structure Tree (es : List TarEntry) : Prop where
  length_lt : es.length < TAR_COUNT
  names : (es.map fun e => fullName e.path).Nodup
  behind : ∀ l e r, es = l ++ e :: r →
    e.path.dropLast = [] ∨ ∃ d ∈ l, d.isDir = true ∧ d.path = e.path.dropLast
  members : ∀ p, (es.filter fun e => e.path.dropLast = p).length ≤ subdirCount

/-- The index: looking up a member finds its size and its data, and every directory lists its
members in the order of the archive. -/
structure Indexes (t : Tarfs) (es : List TarEntry) : Prop where
  file : ∀ x ∈ placed 0 es, ∃ k d i, getFileIndex t.entry (fullName x.2.path) = some k ∧
    t.entry[k]? = some d ∧ t.inode[d.inode]? = some i ∧ i.fileLen = x.2.size ∧
    i.data = some (x.1 + sizeofHeader)
  dir : ∀ p, p = [] ∨ (∃ e ∈ es, e.isDir = true ∧ e.path = p) →
    ∃ (k : ℕ) (d : TarDentry) (ks : List ℕ), getFileIndex t.entry (dirName p) = some k ∧
      t.entry[k]? = some d ∧
      d.subdirs = ks.map some ++ List.replicate (subdirCount - ks.length) none ∧
      ks.map (fun k => (t.entry[k]?).map TarDentry.iname) =
        (es.filter fun e => e.path.dropLast = p).map fun e => some (fullName e.path)

/-- The length as an `int` is not the address of a header, but the end of the members unless a
zero follows them. -/
def StopsAfter (a : Archive) (es : List TarEntry) : Prop :=
  let stop := toInt (sizeofHeader * a.blocks)
  (∀ x ∈ placed 0 es, x.1 ≠ stop) ∧ (endOf 0 es = stop ∨ a.mem.load (endOf 0 es) = some 0)

/-! ## Names and sizes -/

section names

variable {path : List (List UInt8)} {c : List UInt8} {e : TarEntry}

theorem fullName_concat (path : List (List UInt8)) (c : List UInt8) :
    fullName (path ++ [c]) = fullName path ++ slash :: c := by
  rw [fullName, List.flatMap_append, List.flatMap_singleton]
  rfl

theorem TarEntry.Good.path_eq (h : e.Good) : ∃ p c, e.path = p ++ [c] ∧ c ≠ [] ∧ slash ∉ c := by
  refine ⟨e.path.dropLast, e.path.getLast h.path_ne, (List.dropLast_append_getLast h.path_ne).symm,
    (h.component _ (List.getLast_mem _)).1, fun hmem => ?_⟩
  exact ((h.component _ (List.getLast_mem _)).2 slash hmem).2 rfl

/-- The place of the slash in front of the last component. -/
theorem lastSlash_concat (l : List UInt8) (hc : slash ∉ c) (k : ℕ) (hk : k ≤ c.length) :
    lastSlash (l ++ slash :: c) (l.length + 1 + k) = some l.length := by
  induction k with
  | zero =>
    rw [Nat.add_zero, lastSlash, if_pos (by simp)]
  | succ k ih =>
    have hget : (l ++ slash :: c)[l.length + 1 + k]? = some (c)[k] := by
      rw [List.getElem?_append_right (by omega), show l.length + 1 + k - l.length = k + 1 by omega,
        List.getElem?_cons_succ, List.getElem?_eq_getElem (by omega)]
    have hne : some (c)[k] ≠ some slash := fun h => hc (Option.some.inj h ▸ List.getElem_mem _)
    rw [← Nat.add_assoc, lastSlash, hget, if_neg hne]
    exact ih (by omega)

/-- The directory of a path. -/
theorem parentDir_fullName (hc : slash ∉ c) (hlen : (fullName path).length < parentDirLength) :
    parentDir (fullName (path ++ [c])) = some (dirName path) := by
  have hlast : lastSlash (fullName (path ++ [c])) (fullName (path ++ [c])).length =
      some (fullName path).length := by
    rw [fullName_concat, List.length_append, List.length_cons, Nat.add_comm c.length 1,
      ← Nat.add_assoc]
    exact lastSlash_concat _ hc _ le_rfl
  rw [parentDir, hlast, dirName]
  cases path with
  | nil => rfl
  | cons b path =>
    have hcons : fullName (b :: path) = slash :: (b ++ fullName path) := List.flatMap_cons
    rw [if_neg (List.cons_ne_nil b path), fullName_concat]
    generalize hn : (fullName (b :: path)).length = n at hlen
    rw [hcons, List.length_cons] at hn
    subst hn
    refine (if_pos hlen).trans ?_
    rw [← List.length_cons, ← hcons, List.take_left]

/-- The new name of a good member is its full name. -/
theorem newName_name (h : e.Good) (before : Option UInt8) :
    newName before e.name = some (fullName e.path) := by
  obtain ⟨p, c, hpath, hc, hslash⟩ := h.path_eq
  have hlen : toInt e.name.length = e.name.length :=
    Int.bmod_eq_of_le (by omega) (by have := h.length_le; omega)
  have hne : fullName e.path = slash :: (fullName e.path).tail := by
    cases hp : e.path with
    | nil => exact absurd hp h.path_ne
    | cons b p => rfl
  have hlast : (fullName e.path).getLast? ≠ some slash := by
    rw [hpath, fullName_concat, List.getLast?_append_of_ne_nil _ (List.cons_ne_nil slash c),
      List.getLast?_cons_of_ne_nil hc]
    exact fun hlast => hslash (List.mem_of_getLast? hlast)
  rw [newName, hlen, newNameFrom, if_pos (Int.natCast_nonneg _), Int.toNat_natCast,
    List.take_length, Option.some.injEq, TarEntry.name, ← List.cons_append, ← hne, dropSlash]
  cases e.isDir with
  | true => rw [if_pos (by simp), if_pos rfl, List.dropLast_concat]
  | false => rw [if_neg Bool.false_ne_true, List.append_nil, if_neg hlast]

/-- The size of a good member is what `oct_to_int` makes of it. -/
theorem octValue_octal (hdigits : ∀ c ∈ e.octal, 48 ≤ c.toNat ∧ c.toNat < 56)
    (hsize : e.size < 2 ^ 31) : octValue e.octal = e.size := by
  rw [TarEntry.size] at hsize ⊢
  rw [octValue]
  generalize e.octal = octal at hdigits hsize
  induction octal using List.reverseRec with
  | nil => rfl
  | append_singleton l c ih =>
    rw [List.foldl_append, List.foldl_cons, List.foldl_nil] at hsize ⊢
    obtain ⟨hlo, hhi⟩ := hdigits c (List.mem_append_right _ List.mem_cons_self)
    have hl := ih (fun x hx => hdigits x (List.mem_append_left _ hx)) (by omega)
    have hc : c.toInt8.toInt = c.toNat := by
      have hcond := BitVec.toInt_eq_toNat_cond c.toBitVec
      rw [show c.toBitVec.toNat = c.toNat from rfl, if_pos (by omega)] at hcond
      exact hcond
    rw [List.foldl_append, List.foldl_cons, List.foldl_nil, hl, hc, toInt,
      Int.bmod_eq_of_le (by omega) (by omega)]
    push_cast
    omega

theorem blockCount_natCast (n : ℕ) : blockCount n = ((n + 511) / 512 : ℕ) := by
  rw [blockCount, Int.tmod_eq_emod_of_nonneg (by omega), Int.tdiv_eq_ediv_of_nonneg (by omega)]
  split <;> omega

end names

/-! ## One member -/

section member

variable {s : Tarfs} {e : TarEntry} {header : ℤ} {es : List TarEntry} {m m' : ByteMem}

theorem TarEntry.Good.length_fullName (h : e.Good) : (fullName e.path).length ≤ 29 := by
  have hle := h.length_le
  rw [TarEntry.name, List.length_append, List.length_tail] at hle
  omega

theorem TarEntry.Good.ne_zero (h : e.Good) : ∀ x ∈ fullName e.path, x ≠ 0 := by
  intro x hx
  obtain ⟨c, hc, hxc⟩ := List.mem_flatMap.1 hx
  rcases List.mem_cons.1 hxc with rfl | hxc
  · decide
  · exact ((h.component c hc).2 x hxc).1

theorem TarEntry.Good.name_ne_zero (h : e.Good) : ∀ x ∈ e.name, x ≠ 0 := by
  intro x hx
  rcases List.mem_append.1 hx with hx | hx
  · exact h.ne_zero x (List.mem_of_mem_tail hx)
  · split at hx
    · rw [List.mem_singleton.1 hx]
      decide
    · exact absurd hx List.not_mem_nil

theorem TarEntry.Good.octal_ne_zero (h : e.Good) : ∀ x ∈ e.octal, x ≠ 0 := by
  rintro x hx rfl
  exact absurd (h.octal 0 hx).1 (by decide)

theorem TarEntry.Good.name_ne_nil (h : e.Good) : e.name ≠ [] := by
  obtain ⟨p, c, hpath, hc, -⟩ := h.path_eq
  intro hnil
  have hlen := congrArg List.length hnil
  have hpos := List.length_pos_iff.2 hc
  rw [TarEntry.name, hpath, fullName_concat, List.length_append, List.length_tail,
    List.length_append, List.length_cons, List.length_nil] at hlen
  omega

theorem le_next (e : TarEntry) (header : ℤ) : header + sizeofHeader ≤ e.next header := by
  rw [TarEntry.next, show sizeofHeader = 512 from rfl]
  omega

/-- The headers behind an address are not changed in front of it. -/
theorem Stored.congr {lo : ℤ} (hsame : ByteMem.SameOn m m' fun x => lo ≤ x) (h : Stored m header es)
    (hlo : lo ≤ header) : Stored m' header es := by
  induction es generalizing header with
  | nil =>
    refine h.imp (fun h => h.trans hsame.hi.symm) fun h => hsame.holds h fun x hx _ => hlo.trans hx
  | cons e es ih =>
    obtain ⟨hname, hsize, hnext, hes⟩ := h
    have hle := le_next e header
    have hheader : sizeofHeader = 512 := rfl
    refine ⟨hsame.holds hname fun x hx _ => ?_, hsame.holds hsize fun x hx _ => ?_,
      hsame.hi ▸ hnext, ih hes (by omega)⟩
    · rw [show headerName = 0 from rfl] at hx
      omega
    · rw [show headerSize = 124 from rfl] at hx
      omega

/-- What the body of the loop does for a good member. -/
theorem addHeader_eq (h : e.Good) (hs : Stored s.mem header (e :: es)) {q : Option ℕ}
    (hq : getParent s.entry (fullName e.path) = some q) :
    ∃ entry m, nodeInit s.entry q (fullName e.path) = some entry ∧
      addHeader header s = some (e.next header,
        ⟨m, entry, s.inode ++ [⟨e.blocks, e.size, some (header + sizeofHeader)⟩]⟩) ∧
      ByteMem.SameOn s.mem m fun x => e.next header ≤ x := by
  obtain ⟨hname, hsize, hnext, -⟩ := hs
  have hzero : header + (headerName : ℤ) = header := add_zero header
  have hnameLength : nameLength = 100 := rfl
  have hheader : sizeofHeader = 512 := rfl
  have hheaderSize : headerSize = 124 := rfl
  have hlen := h.length_fullName
  have hle := le_next e header
  rw [hzero] at hname
  have hstr := ByteMem.cstring_of_holds hname h.name_ne_zero
  obtain ⟨hlo, -, -⟩ := bytes_of_cstring hstr
  have hnode : nodeInit s.entry q (fullName e.path) ≠ none := by
    have hiname : inameLength = 30 := rfl
    rw [nodeInit, if_pos (by omega)]
    exact Option.some_ne_none _
  obtain ⟨entry, hentry⟩ := Option.ne_none_iff_exists'.1 hnode
  have hsame := ByteMem.sameOn_put s.mem header (fullName e.path ++ [0])
  have hputlen : (fullName e.path ++ [0]).length = (fullName e.path).length + 1 := by
    rw [List.length_append, List.length_singleton]
  rw [hputlen] at hsame
  have hread := ByteMem.cstring_of_holds (ByteMem.holds_put (m := s.mem) (a := header)
    (l := fullName e.path ++ [0]) hlo (by omega)) h.ne_zero
  have hchange : changeFormat s.mem slash header =
      some (s.mem.put header (fullName e.path ++ [0])) := by
    rw [changeFormat_eq hstr (by omega), newName_name h, Option.bind_some, if_pos (by omega)]
  generalize s.mem.put header (fullName e.path ++ [0]) = m at hsame hread hchange
  have hoct : octToInt m (header + headerSize) = some (e.size : ℤ) := by
    have hstr' := ByteMem.cstring_of_holds (hsame.holds hsize fun x hx _ => .inr (by omega))
      h.octal_ne_zero
    have hlt := h.length_lt
    rw [octToInt, hstr', Option.bind_eq_bind, Option.bind_some, if_pos (by omega),
      octValue_octal h.octal h.size_lt]
    rfl
  refine ⟨entry, m, hentry, ?_, hsame.mono fun x hx => .inr ?_⟩
  · rw [addHeader, hzero, hchange]
    simp only [Option.bind_eq_bind]
    rw [Option.bind_some, hoct, Option.bind_some, hread, Option.bind_some, hq, Option.bind_some,
      hentry, Option.bind_some, addFile, blockCount_natCast]
    rfl
  · push_cast
    omega

end member

/-! ## The tables -/

section tables

variable {done : List (ℤ × TarEntry)} {t : Tarfs} {x : ℤ × TarEntry}

/-- The paths of the root and of the members. -/
def pathsOf (done : List (ℤ × TarEntry)) : List (List (List UInt8)) :=
  [] :: done.map fun x => x.2.path

/-- The members of a directory. -/
def membersOf (done : List (ℤ × TarEntry)) (p : List (List UInt8)) : List (ℤ × TarEntry) :=
  done.filter fun x => x.2.path.dropLast = p

/-- Used slots in front of empty ones. -/
def slots (ks : List ℕ) : List (Option ℕ) :=
  ks.map some ++ List.replicate (subdirCount - ks.length) none

/-- The tables are those of the members `done`. -/
structure Indexed (done : List (ℤ × TarEntry)) (t : Tarfs) : Prop where
  names : t.entry.map TarDentry.iname = (pathsOf done).map dirName
  inodes : t.entry.map TarDentry.inode = List.range (done.length + 1)
  table : t.inode = ⟨1, 0, none⟩ ::
    done.map fun x => ⟨x.2.blocks, x.2.size, some (x.1 + sizeofHeader)⟩
  subdirs : ∀ (j : ℕ) p, (pathsOf done)[j]? = some p → ∃ (d : TarDentry) (ks : List ℕ),
    t.entry[j]? = some d ∧ d.subdirs = slots ks ∧
      ks.map (fun k => (t.entry[k]?).map TarDentry.iname) =
        (membersOf done p).map fun x => some (fullName x.2.path)

theorem fillSlot_slots {ks : List ℕ} (h : ks.length < subdirCount) (k : ℕ) :
    fillSlot k (slots ks) = slots (ks ++ [k]) := by
  have hfill : ∀ (ks : List ℕ) (n : ℕ), fillSlot k (ks.map some ++ List.replicate (n + 1) none) =
      (ks ++ [k]).map some ++ List.replicate n none := by
    intro ks n
    induction ks with
    | nil => rfl
    | cons x ks ih => exact congrArg (some x :: ·) ih
  rw [slots, slots, List.length_append, List.length_singleton,
    show subdirCount - ks.length = subdirCount - (ks.length + 1) + 1 by omega, hfill]

theorem length_pathsOf (done : List (ℤ × TarEntry)) : (pathsOf done).length = done.length + 1 := by
  rw [pathsOf, List.length_cons, List.length_map]

theorem Indexed.length (h : Indexed done t) : t.entry.length = done.length + 1 := by
  have hlen := congrArg List.length h.names
  rwa [List.length_map, List.length_map, length_pathsOf] at hlen

/-- Looking up the name of a directory or member. -/
theorem Indexed.getFileIndex (h : Indexed done t) (hnodup : ((pathsOf done).map dirName).Nodup)
    {j : ℕ} {p : List (List UInt8)} (hj : (pathsOf done)[j]? = some p) :
    Fs.getFileIndex t.entry (dirName p) = some j := by
  have hnames : Fs.getFileIndex t.entry (dirName p) =
      (t.entry.map TarDentry.iname).findIdx? fun n => n = dirName p := by
    rw [List.findIdx?_map]
    rfl
  obtain ⟨hlt, hget⟩ := List.getElem?_eq_some_iff.1 hj
  have hlt' : j < ((pathsOf done).map dirName).length := by rwa [List.length_map]
  rw [hnames, h.names, List.findIdx?_eq_some_iff_getElem]
  refine ⟨hlt', ?_, fun i hij heq => ?_⟩
  · rw [List.getElem_map, hget]
    exact decide_eq_true rfl
  · have hsame : ((pathsOf done).map dirName)[i] = ((pathsOf done).map dirName)[j] := by
      rw [List.getElem_map dirName (h := hlt'), hget]
      exact of_decide_eq_true heq
    exact hij.ne ((List.Nodup.getElem_inj_iff hnodup).1 hsame)

theorem map_modify_of_eq {α β : Type} {f : α → α} {g : α → β} (h : ∀ a, g (f a) = g a) (l : List α)
    (i : ℕ) : (l.modify i f).map g = l.map g := by
  refine List.ext_getElem? fun j => ?_
  rw [List.getElem?_map, List.getElem?_map, List.getElem?_modify]
  cases l[j]? with
  | none => rfl
  | some a =>
    show some (g (if i = j then f a else a)) = some (g a)
    split
    · rw [h]
    · rfl

theorem pathsOf_concat (done : List (ℤ × TarEntry)) (x : ℤ × TarEntry) :
    pathsOf (done ++ [x]) = pathsOf done ++ [x.2.path] := by
  rw [pathsOf, List.map_append, List.map_singleton]
  rfl

theorem membersOf_concat (done : List (ℤ × TarEntry)) (x : ℤ × TarEntry)
    (p : List (List UInt8)) : membersOf (done ++ [x]) p =
      membersOf done p ++ if x.2.path.dropLast = p then [x] else [] := by
  rw [membersOf, List.filter_append, List.filter_singleton]
  by_cases h : x.2.path.dropLast = p <;> simp [h, membersOf]

/-- The names of slots, once there are more entries. -/
theorem names_of_slots {entry entry' : List TarDentry} {n : List UInt8}
    (hnames : entry'.map TarDentry.iname = entry.map TarDentry.iname ++ [n]) {ks : List ℕ}
    {ms : List (ℤ × TarEntry)}
    (h : ks.map (fun k => (entry[k]?).map TarDentry.iname) =
      ms.map fun x => some (fullName x.2.path)) :
    ks.map (fun k => (entry'[k]?).map TarDentry.iname) =
      ms.map fun x => some (fullName x.2.path) := by
  rw [← h]
  refine List.map_congr_left fun k hk => ?_
  have hsome : (entry[k]?).map TarDentry.iname ∈ ms.map fun x => some (fullName x.2.path) :=
    h ▸ List.mem_map_of_mem hk
  obtain ⟨x, -, hx⟩ := List.mem_map.1 hsome
  have hget : (entry.map TarDentry.iname)[k]? = some (fullName x.2.path) := by
    rw [List.getElem?_map]
    exact hx.symm
  have hlt : k < (entry.map TarDentry.iname).length := (List.getElem?_eq_some_iff.1 hget).1
  rw [← List.getElem?_map, ← List.getElem?_map, hnames, List.getElem?_append_left hlt]

/-- The entries once one is added behind them. -/
theorem nodeInit_eq {entry entry' : List TarDentry} {q : ℕ} {iname : List UInt8}
    (h : nodeInit entry (some q) iname = some entry') :
    entry' = entry.modify q (fun d => { d with subdirs := fillSlot entry.length d.subdirs }) ++
      [⟨some q, List.replicate subdirCount none, iname, entry.length⟩] := by
  rw [nodeInit] at h
  split at h
  · exact (Option.some.inj h).symm
  · cases h

/-- The tables once a member is added whose directory is there. -/
theorem Indexed.concat (h : Indexed done t) {q : ℕ}
    (hq : (pathsOf done)[q]? = some x.2.path.dropLast)
    (hnodup : ((pathsOf (done ++ [x])).map dirName).Nodup) (hne : x.2.path ≠ [])
    (hlt : (membersOf done x.2.path.dropLast).length < subdirCount)
    (hnone : membersOf done x.2.path = []) {m : ByteMem} {entry : List TarDentry}
    (hentry : nodeInit t.entry (some q) (fullName x.2.path) = some entry) :
    Indexed (done ++ [x]) ⟨m, entry,
      t.inode ++ [⟨x.2.blocks, x.2.size, some (x.1 + sizeofHeader)⟩]⟩ := by
  have hlen := h.length
  have hname : dirName x.2.path = fullName x.2.path := if_neg hne
  have hentry := nodeInit_eq hentry
  have hnames : entry.map TarDentry.iname = t.entry.map TarDentry.iname ++ [fullName x.2.path] := by
    have hmap := map_modify_of_eq (g := TarDentry.iname)
      (f := fun d => { d with subdirs := fillSlot t.entry.length d.subdirs }) (fun _ => rfl) t.entry q
    rw [hentry, List.map_append, hmap]
    rfl
  have hinodes : entry.map TarDentry.inode = t.entry.map TarDentry.inode ++ [t.entry.length] := by
    have hmap := map_modify_of_eq (g := TarDentry.inode)
      (f := fun d => { d with subdirs := fillSlot t.entry.length d.subdirs }) (fun _ => rfl) t.entry q
    rw [hentry, List.map_append, hmap]
    rfl
  have hpaths : (pathsOf done).Nodup := by
    rw [pathsOf_concat, List.map_append] at hnodup
    exact hnodup.of_append_left.of_map dirName
  have hqlt : q < t.entry.length := by
    rw [hlen, ← length_pathsOf]
    exact (List.getElem?_eq_some_iff.1 hq).1
  have hget : ∀ j < t.entry.length, entry[j]? = (t.entry[j]?).map fun d =>
      if q = j then { d with subdirs := fillSlot t.entry.length d.subdirs } else d := by
    intro j hj
    rw [hentry, List.getElem?_append_left (by rwa [List.length_modify]), List.getElem?_modify]
    rfl
  have hlast : entry[t.entry.length]? =
      some ⟨some q, List.replicate subdirCount none, fullName x.2.path, t.entry.length⟩ := by
    rw [hentry, List.getElem?_append_right (by rw [List.length_modify]), List.length_modify,
      Nat.sub_self]
    rfl
  refine ⟨?_, ?_, ?_, fun j p hj => ?_⟩
  · rw [hnames, h.names, pathsOf_concat, List.map_append, List.map_singleton, hname]
  · rw [hinodes, h.inodes, List.length_append, List.length_singleton, hlen]
    exact List.range_succ.symm
  · rw [h.table, List.map_append]
    rfl
  · rw [pathsOf_concat] at hj
    rw [membersOf_concat]
    by_cases hjlt : j < (pathsOf done).length
    · rw [List.getElem?_append_left hjlt] at hj
      obtain ⟨d, ks, hd, hsub, hks⟩ := h.subdirs j p hj
      have hks' := names_of_slots hnames hks
      by_cases hjq : q = j
      · subst hjq
        obtain rfl : x.2.path.dropLast = p := Option.some.inj (hq.symm.trans hj)
        have hkslen : ks.length = (membersOf done x.2.path.dropLast).length := by
          simpa using congrArg List.length hks
        refine ⟨{ d with subdirs := fillSlot t.entry.length d.subdirs }, ks ++ [t.entry.length],
          ?_, ?_, ?_⟩
        · rw [hget q hqlt, hd, Option.map_some, if_pos rfl]
        · dsimp only
          rw [hsub, fillSlot_slots (by omega)]
        · rw [if_pos rfl, List.map_append, List.map_append, hks', List.map_singleton, hlast]
          rfl
      · have hne' : x.2.path.dropLast ≠ p := by
          rintro rfl
          rw [← hq] at hj
          exact hjq ((List.getElem?_inj hjlt hpaths).1 hj).symm
        refine ⟨d, ks, ?_, hsub, ?_⟩
        · rw [hget j (by rw [hlen, ← length_pathsOf]; exact hjlt), hd, Option.map_some, if_neg hjq]
        · rw [if_neg hne', List.append_nil, hks']
    · obtain rfl : j = (pathsOf done).length := by
        have hle := (List.getElem?_eq_some_iff.1 hj).1
        rw [List.length_append, List.length_singleton] at hle
        omega
      rw [List.getElem?_append_right le_rfl, Nat.sub_self, List.getElem?_cons_zero,
        Option.some.injEq] at hj
      subst hj
      refine ⟨⟨some q, List.replicate subdirCount none, fullName x.2.path, t.entry.length⟩, [], ?_,
        rfl, ?_⟩
      · show entry[(pathsOf done).length]? = _
        rw [length_pathsOf, ← hlen, hlast]
      · have hne' : x.2.path.dropLast ≠ x.2.path := fun heq => by
          have hlength := congrArg List.length heq
          have hpos := List.length_pos_iff.2 hne
          rw [List.length_dropLast] at hlength
          omega
        rw [hnone, if_neg hne']
        rfl

end tables

/-! ## The loop -/

section loop

variable {es : List TarEntry} {e : TarEntry} {stop header : ℤ} {m : ByteMem} {p : List (List UInt8)}

theorem map_placed (header : ℤ) (es : List TarEntry) : (placed header es).map Prod.snd = es := by
  induction es generalizing header with
  | nil => rfl
  | cons e es ih => exact congrArg (e :: ·) (ih _)

theorem dirName_eq (h : e.Good) : dirName e.path = fullName e.path := if_neg h.path_ne

/-- The name of the root is not that of a member. -/
theorem TarEntry.Good.fullName_ne_root (h : e.Good) : fullName e.path ≠ [slash] := by
  obtain ⟨p, c, hpath, hc, -⟩ := h.path_eq
  intro heq
  have hlen := congrArg List.length heq
  have hpos := List.length_pos_iff.2 hc
  rw [hpath, fullName_concat, List.length_append, List.length_cons, List.length_singleton] at hlen
  omega

/-- The names of the root and of members in front of others are different. -/
theorem Tree.nodup (htree : Tree es) (hgood : ∀ e ∈ es, e.Good) {done : List (ℤ × TarEntry)}
    {rest : List TarEntry} (hes : es = done.map Prod.snd ++ rest) :
    ((pathsOf done).map dirName).Nodup := by
  have hmap : (pathsOf done).map dirName =
      [slash] :: (done.map Prod.snd).map fun e => fullName e.path := by
    rw [pathsOf, List.map_cons, List.map_map, List.map_map]
    refine congrArg ([slash] :: ·) (List.map_congr_left fun x hx => ?_)
    exact dirName_eq (hgood _ (hes ▸ List.mem_append_left _ (List.mem_map_of_mem hx)))
  have hnames := htree.names
  rw [hes, List.map_append] at hnames
  rw [hmap, List.nodup_cons]
  refine ⟨fun hmem => ?_, hnames.of_append_left⟩
  obtain ⟨x, hx, heq⟩ := List.mem_map.1 hmem
  exact (hgood x (hes ▸ List.mem_append_left _ hx)).fullName_ne_root heq

/-- The directory of the next member is there. -/
theorem Tree.parent (htree : Tree es) {done : List (ℤ × TarEntry)} {rest : List TarEntry}
    (hes : es = done.map Prod.snd ++ e :: rest) :
    ∃ q : ℕ, (pathsOf done)[q]? = some e.path.dropLast := by
  refine List.mem_iff_getElem?.1 ?_
  rcases htree.behind _ e rest hes with hroot | ⟨d, hd, -, hpath⟩
  · rw [hroot]
    exact List.mem_cons_self
  · obtain ⟨x, hx, rfl⟩ := List.mem_map.1 hd
    exact List.mem_cons_of_mem _ (List.mem_map.2 ⟨x, hx, hpath⟩)

/-- A directory has no members before it is there. -/
theorem Tree.membersOf_eq_nil (htree : Tree es) {done : List (ℤ × TarEntry)}
    {rest : List TarEntry} (hes : es = done.map Prod.snd ++ e :: rest) (hne : e.path ≠ []) :
    membersOf done e.path = [] := by
  refine List.filter_eq_nil_iff.2 fun x hx hdir => ?_
  obtain ⟨l, r, rfl⟩ := List.append_of_mem hx
  have hdir : x.2.path.dropLast = e.path := of_decide_eq_true hdir
  have hes' : es = l.map Prod.snd ++ x.2 :: (r.map Prod.snd ++ e :: rest) := by
    rw [hes, List.map_append, List.map_cons, List.append_assoc, List.cons_append]
  rcases htree.behind _ _ _ hes' with hroot | ⟨d, hd, -, hpath⟩
  · exact hne (hdir.symm.trans hroot)
  · have hnames := htree.names
    rw [hes, List.map_append, List.map_cons] at hnames
    refine (List.disjoint_of_nodup_append hnames) (List.mem_map.2 ⟨d, ?_, ?_⟩)
      List.mem_cons_self
    · rw [List.map_append]
      exact List.mem_append_left _ hd
    · rw [hpath, hdir]

theorem Tree.length_membersOf_lt (htree : Tree es) {done : List (ℤ × TarEntry)}
    {rest : List TarEntry} (hes : es = done.map Prod.snd ++ e :: rest) :
    (membersOf done e.path.dropLast).length < subdirCount := by
  have hmembers := htree.members e.path.dropLast
  have hmap : ((done.map Prod.snd).filter fun d => d.path.dropLast = e.path.dropLast).length =
      (membersOf done e.path.dropLast).length := by
    rw [List.filter_map, List.length_map]
    rfl
  have hpos : ((e :: rest).filter fun d => d.path.dropLast = e.path.dropLast).length ≠ 0 := by
    rw [List.filter_cons, if_pos (decide_eq_true rfl)]
    exact Nat.succ_ne_zero _
  rw [hes, List.filter_append, List.length_append, hmap] at hmembers
  omega

theorem atEnd_of_name (hs : Stored m header (e :: es)) (h : e.Good) (hne : header ≠ stop) :
    atEnd stop header m = some false := by
  have hstr := ByteMem.cstring_of_holds hs.1 h.name_ne_zero
  rw [atEnd, if_neg hne, hstr, Option.bind_eq_bind, Option.bind_some]
  exact congrArg some (decide_eq_false h.name_ne_nil)

/-- The members that are seen before the header at `stop`. -/
def seen (stop header : ℤ) (es : List TarEntry) : List (ℤ × TarEntry) :=
  (placed header es).takeWhile fun x => x.1 ≠ stop

/-- The loop comes to an end. -/
def Reaches (m : ByteMem) (stop header : ℤ) (es : List TarEntry) : Prop :=
  (∃ x ∈ placed header es, x.1 = stop) ∨ endOf header es = stop ∨
    m.load (endOf header es) = some 0

theorem atEnd_of_reaches (h : Reaches m stop header []) : atEnd stop header m = some true := by
  rcases h with ⟨x, hx, -⟩ | hstop | hzero
  · exact absurd hx List.not_mem_nil
  · exact if_pos hstop
  · have hstr : m.cstring (header + headerName) = some [] :=
      ByteMem.cstring_of_holds ⟨(congrArg _ (add_zero header)).trans hzero, trivial⟩
        fun x hx => absurd hx List.not_mem_nil
    rw [atEnd, hstr]
    split <;> rfl

theorem atEnd_of_not_reaches (hs : Stored m header []) (h : ¬Reaches m stop header []) :
    atEnd stop header m = none := by
  have hend : header = m.hi := hs.resolve_right fun hzero => h (.inr (.inr hzero.1))
  have hload : m.load (header + headerName) = none := if_neg fun hlt => by
    rw [show headerName = 0 from rfl] at hlt
    omega
  have hstr : m.cstring (header + headerName) = none := by
    rw [Option.eq_none_iff_forall_ne_some]
    intro l hl
    have hhead := ByteMem.holds_of_cstring hl
    cases l with
    | nil => rw [List.nil_append, ByteMem.holds_cons, hload] at hhead; cases hhead.1
    | cons x l => rw [List.cons_append, ByteMem.holds_cons, hload] at hhead; cases hhead.1
  have hne : header ≠ stop := fun heq => h (.inr (.inl heq))
  rw [atEnd, if_neg hne, hstr]
  rfl

/-- The tables at the end of the loop. -/
theorem initLoop_seen (hgood : ∀ e ∈ es, e.Good) (htree : Tree es) {rest : List TarEntry}
    {done : List (ℤ × TarEntry)} (hes : es = done.map Prod.snd ++ rest) {t : Tarfs}
    (hindexed : Indexed done t) (hstored : Stored m header rest)
    (hsame : ByteMem.SameOn m t.mem fun x => header ≤ x) {room : ℕ} (hroom : rest.length ≤ room) :
    ∃ t', Indexed (done ++ seen stop header rest) t' ∧
      (Reaches m stop header rest → initLoop stop room header t = some t') ∧
      (¬Reaches m stop header rest → initLoop stop room header t = none) := by
  have hstored' := hstored.congr hsame le_rfl
  induction rest generalizing done t header room with
  | nil =>
    have hiff : Reaches t.mem stop header [] ↔ Reaches m stop header [] := by
      rw [Reaches, Reaches, hsame.load (le_refl (endOf header []))]
    refine ⟨t, by rwa [seen, placed, List.takeWhile_nil, List.append_nil], fun h => ?_, fun h => ?_⟩
    · have hend := atEnd_of_reaches (hiff.2 h)
      cases room <;> rw [initLoop, hend] <;> rfl
    · have hend := atEnd_of_not_reaches hstored' (mt hiff.1 h)
      cases room <;> rw [initLoop, hend] <;> rfl
  | cons e rest ih =>
    obtain ⟨room, rfl⟩ : ∃ n, room = n + 1 := ⟨room - 1, by rw [List.length_cons] at hroom; omega⟩
    have he : e.Good := hgood e (hes ▸ List.mem_append_right _ List.mem_cons_self)
    by_cases hstop : header = stop
    · refine ⟨t, ?_, fun _ => ?_, fun h => absurd (.inl ⟨(header, e), List.mem_cons_self, hstop⟩) h⟩
      · rw [seen, placed, List.takeWhile_cons_of_neg (by simpa using hstop), List.append_nil]
        exact hindexed
      · rw [initLoop, atEnd, if_pos hstop]
        rfl
    obtain ⟨q, hq⟩ := htree.parent hes
    have hnodup := htree.nodup hgood hes
    obtain ⟨p, c, hpath, hc, hslash⟩ := he.path_eq
    have hparent : getParent t.entry (fullName e.path) = some (some q) := by
      have hlen := he.length_fullName
      have hdir : e.path.dropLast = p := by rw [hpath, List.dropLast_concat]
      have hlt : (fullName p).length < parentDirLength := by
        rw [hpath, fullName_concat, List.length_append] at hlen
        exact lt_of_le_of_lt (by omega) (show 29 < parentDirLength by decide)
      rw [getParent, hpath, parentDir_fullName hslash hlt, ← hdir, Option.bind_eq_bind,
        Option.bind_some, hindexed.getFileIndex hnodup hq]
      rfl
    obtain ⟨entry, m', hentry, hadd, hsame'⟩ := addHeader_eq he hstored' hparent
    have hes' : es = (done ++ [(header, e)]).map Prod.snd ++ rest := by
      rw [hes, List.map_append, List.append_assoc]
      rfl
    have hindexed' := hindexed.concat (x := (header, e)) hq (htree.nodup hgood hes') he.path_ne
      (htree.length_membersOf_lt hes) (htree.membersOf_eq_nil hes he.path_ne) (m := m') hentry
    have hle := le_next e header
    have hsame'' : ByteMem.SameOn m m' fun x => e.next header ≤ x :=
      (hsame.mono fun x hx => by omega).trans hsame'
    obtain ⟨t', ht', hsome, hnone⟩ := ih hes' hindexed' hstored.2.2.2 hsame''
      (show rest.length ≤ room by rw [List.length_cons] at hroom; omega) (hstored.2.2.2.congr hsame'' le_rfl)
    have hloop : initLoop stop (room + 1) header t = initLoop stop room (e.next header)
        ⟨m', entry, t.inode ++ [⟨e.blocks, e.size, some (header + sizeofHeader)⟩]⟩ := by
      rw [initLoop, atEnd_of_name hstored' he hstop, Option.bind_eq_bind, Option.bind_some,
        if_neg Bool.false_ne_true, hadd]
      rfl
    have hiff : Reaches m stop header (e :: rest) ↔ Reaches m stop (e.next header) rest := by
      rw [Reaches, placed, List.exists_mem_cons_iff]
      exact or_congr (or_iff_right hstop) Iff.rfl
    refine ⟨t', ?_, fun h => hloop.trans (hsome (hiff.1 h)), fun h => hloop.trans (hnone (mt hiff.2 h))⟩
    rw [seen, placed, List.takeWhile_cons_of_pos (by simpa using hstop)]
    rw [List.append_assoc] at ht'
    exact ht'

end loop

/-! ## The index -/

section index

variable {es : List TarEntry} {a : Archive} {t : Tarfs} {stop : ℤ}

theorem seen_eq_placed (h : ∀ x ∈ placed 0 es, x.1 ≠ stop) : seen stop 0 es = placed 0 es :=
  List.takeWhile_eq_self_iff.2 fun x hx => decide_eq_true (h x hx)

/-- The tables for the members of an archive make its index. -/
theorem Indexed.indexes (h : Indexed (placed 0 es) t) (hgood : ∀ e ∈ es, e.Good) (htree : Tree es) :
    Indexes t es := by
  have hes : es = (placed 0 es).map Prod.snd ++ [] := by rw [map_placed, List.append_nil]
  have hnodup := htree.nodup hgood hes
  constructor
  · intro x hx
    obtain ⟨j, hj⟩ := List.mem_iff_getElem?.1 hx
    have hgoodx : x.2.Good := hgood _ (map_placed 0 es ▸ List.mem_map_of_mem hx)
    have hpath : (pathsOf (placed 0 es))[j + 1]? = some x.2.path := by
      rw [pathsOf, List.getElem?_cons_succ, List.getElem?_map, hj]
      rfl
    have hindex := h.getFileIndex hnodup hpath
    rw [dirName_eq hgoodx] at hindex
    obtain ⟨d, ks, hd, -, -⟩ := h.subdirs _ _ hpath
    have hinode : some d.inode = some (j + 1) := by
      have hget : (t.entry.map TarDentry.inode)[j + 1]? =
          (List.range ((placed 0 es).length + 1))[j + 1]? := by rw [h.inodes]
      have hlt := (List.getElem?_eq_some_iff.1 hj).1
      rwa [List.getElem?_map, hd, List.getElem?_range (by omega)] at hget
    refine ⟨j + 1, d, ⟨x.2.blocks, x.2.size, some (x.1 + sizeofHeader)⟩, hindex, hd, ?_, rfl, rfl⟩
    rw [Option.some.inj hinode, h.table, List.getElem?_cons_succ, List.getElem?_map, hj]
    rfl
  · intro p hp
    have hmem : p ∈ pathsOf (placed 0 es) := by
      rcases hp with rfl | ⟨e, he, -, rfl⟩
      · exact List.mem_cons_self
      · obtain ⟨x, hx, rfl⟩ := List.mem_map.1 ((map_placed 0 es).symm ▸ he)
        exact List.mem_cons_of_mem _ (List.mem_map_of_mem hx)
    obtain ⟨j, hj⟩ := List.mem_iff_getElem?.1 hmem
    obtain ⟨d, ks, hd, hsub, hks⟩ := h.subdirs j p hj
    refine ⟨j, d, ks, h.getFileIndex hnodup hj, hd, hsub, hks.trans ?_⟩
    have hfilter : es.filter (fun e => e.path.dropLast = p) =
        (membersOf (placed 0 es) p).map Prod.snd := by
      have hmap := List.filter_map (f := fun x : ℤ × TarEntry => x.2) (l := placed 0 es)
        (p := fun e : TarEntry => e.path.dropLast = p)
      rwa [map_placed] at hmap
    rw [hfilter, List.map_map]
    rfl

/-- A member that is not seen is not found. -/
theorem Indexes.seen (h : Indexes t es) (hindexed : Indexed (seen stop 0 es) t)
    (hgood : ∀ e ∈ es, e.Good) (htree : Tree es) {x : ℤ × TarEntry} (hx : x ∈ placed 0 es) :
    x.1 ≠ stop := by
  have hgoodx : ∀ x ∈ placed 0 es, x.2.Good := fun x hx =>
    hgood _ (map_placed 0 es ▸ List.mem_map_of_mem hx)
  obtain ⟨k, d, i, hindex, -⟩ := h.file x hx
  have hname : fullName x.2.path ∈ t.entry.map TarDentry.iname := by
    obtain ⟨hk, hfound, -⟩ := List.findIdx?_eq_some_iff_getElem.1 hindex
    exact List.mem_map.2 ⟨t.entry[k], List.getElem_mem hk, of_decide_eq_true hfound⟩
  rw [hindexed.names, pathsOf, List.map_cons, List.map_map, List.mem_cons] at hname
  rcases hname with hroot | hmem
  · exact absurd hroot (hgoodx x hx).fullName_ne_root
  · obtain ⟨y, hy, hname⟩ := List.mem_map.1 hmem
    have hyx : y ∈ placed 0 es := List.takeWhile_subset _ hy
    have hnames : ((placed 0 es).map fun x => fullName x.2.path).Nodup := by
      have hnames := htree.names
      rwa [← map_placed 0 es, List.map_map] at hnames
    rw [Function.comp_apply, dirName_eq (hgoodx y hyx)] at hname
    have heq := List.inj_on_of_nodup_map hnames hyx hx hname
    exact heq ▸ of_decide_eq_true
      (List.mem_takeWhile_imp (p := fun x : ℤ × TarEntry => decide (x.1 ≠ stop)) hy)

/-- The tables that `tarfs_init` makes. -/
theorem tarfsInit_seen (hgood : ∀ e ∈ es, e.Good) (htree : Tree es) (hstored : Stored a.mem 0 es) :
    ∃ t, Indexed (seen (toInt (sizeofHeader * a.blocks)) 0 es) t ∧
      (Reaches a.mem (toInt (sizeofHeader * a.blocks)) 0 es → tarfsInit a = some t) ∧
      (¬Reaches a.mem (toInt (sizeofHeader * a.blocks)) 0 es → tarfsInit a = none) := by
  have hstart : Indexed [] a.start := by
    refine ⟨rfl, rfl, rfl, fun j p hj => ?_⟩
    cases j with
    | zero =>
      exact ⟨⟨none, List.replicate subdirCount none, root, 0⟩, [], rfl, rfl, rfl⟩
    | succ j => cases hj
  have hlt : es.length ≤ TAR_COUNT - 1 := Nat.le_sub_one_of_lt htree.length_lt
  exact initLoop_seen hgood htree rfl hstart hstored (ByteMem.SameOn.refl _ _) hlt

/-- An archive of less than `2 ^ 31` bytes has its members in front of its length. -/
theorem stopsAfter_of_lt (hstored : Stored a.mem 0 es) (hlt : sizeofHeader * a.blocks < 2 ^ 31) :
    StopsAfter a es := by
  have hplaced : ∀ (es : List TarEntry) (header : ℤ), Stored a.mem header es →
      (∀ x ∈ placed header es, x.1 < a.mem.hi) ∧
        (endOf header es = a.mem.hi ∨ a.mem.load (endOf header es) = some 0) := by
    intro es
    induction es with
    | nil =>
      exact fun header h => ⟨fun x hx => absurd hx List.not_mem_nil, h.imp_right fun h => h.1⟩
    | cons e es ih =>
      rintro header ⟨-, -, hnext, hes⟩
      have hle := le_next e header
      refine ⟨fun x hx => ?_, (ih _ hes).2⟩
      rcases List.mem_cons.1 hx with rfl | hx
      · have hheader : sizeofHeader = 512 := rfl
        dsimp only
        omega
      · exact (ih _ hes).1 x hx
  obtain ⟨hheaders, hend⟩ := hplaced es 0 hstored
  have hstop : toInt (sizeofHeader * a.blocks) = a.mem.hi :=
    Int.bmod_eq_of_le (by omega) (by omega)
  rw [StopsAfter, hstop]
  exact ⟨fun x hx => (hheaders x hx).ne, hend⟩

/-- The memory of an archive with the member `a` alone. -/
def oneFileMem (blocks : ℕ) (octal : List UInt8) : ByteMem :=
  ((⟨0, sizeofHeader * blocks, fun _ => 0⟩ : ByteMem).put 0 [97, 0]).put headerSize (octal ++ [0])

def oneFile (blocks : ℕ) (octal : List UInt8) : Archive := ⟨blocks, (oneFileMem blocks octal).bytes⟩

def oneEntry (octal : List UInt8) : TarEntry := ⟨[[97]], false, octal⟩

theorem tree_oneEntry (octal : List UInt8) : Tree [oneEntry octal] where
  length_lt := show 1 < TAR_COUNT by decide
  names := List.nodup_singleton _
  behind l e r h := by
    obtain rfl : e = oneEntry octal :=
      List.mem_singleton.1 (h ▸ List.mem_append_right l List.mem_cons_self)
    exact .inl rfl
  members p := (List.length_filter_le _ _).trans (show 1 ≤ subdirCount by decide)

theorem stored_oneFile {blocks : ℕ} {octal : List UInt8} (hlen : octal.length < 12)
    (hblocks : blocks = (oneEntry octal).blocks + 1) :
    Stored (oneFile blocks octal).mem 0 [oneEntry octal] := by
  have hheader : sizeofHeader = 512 := rfl
  have hheaderSize : headerSize = 124 := rfl
  have hhi : (oneFile blocks octal).mem.hi = (oneEntry octal).next 0 := by
    rw [TarEntry.next, zero_add, ← Nat.cast_one (R := ℤ), ← Nat.cast_add, ← hblocks]
    rfl
  have hmem : (oneFile blocks octal).mem = oneFileMem blocks octal := rfl
  have hend : ((octal ++ [0]).length : ℤ) ≤ 12 := by
    rw [List.length_append, List.length_singleton]
    omega
  have hname : (oneFileMem blocks octal).Holds 0 [97, 0] := by
    refine (ByteMem.sameOn_put _ _ _).holds (ByteMem.holds_put le_rfl ?_) fun x _ hx => .inl ?_
    · show (0 : ℤ) + 2 ≤ sizeofHeader * blocks
      rw [hheader]
      omega
    · rw [show ([97, 0] : List UInt8).length = 2 from rfl] at hx
      omega
  refine ⟨hmem ▸ hname, ?_, hhi.ge, .inl hhi.symm⟩
  rw [hmem, zero_add]
  refine ByteMem.holds_put (Int.natCast_nonneg _) ?_
  show (headerSize : ℤ) + (octal ++ [0]).length ≤ sizeofHeader * blocks
  rw [hheader]
  omega

end index

end SadOS.Fs
