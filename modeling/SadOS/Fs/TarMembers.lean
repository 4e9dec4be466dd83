import SadOS.Fs.TarIndex
import SadOS.Fs.TarRead

/-!
# The members of an archive, as clients read them

The whole way of a file of `/tarfs`.  `tarfs_init` makes the index of the archive, `get_fs_index` and
`parse_path` lead from a path to `tarfs_open`, and reads and seeks go to the bytes in the archive.
`tarfs_init` writes into the archive too, but not there.

## Main definitions

* `tarfsOpen`, `TarOp.serve` — the source.
* `Cursor` — a list of bytes with a position.
* `Tarfs.Serves` — the file system has the members of an archive.

## Main results

* `changeFormat_sameOn`, `initLoop_sameOn` — the data of the members is left alone.
* `TarFile.Reads.session` — an open file is a list of bytes with a position.
* `tarfs_serves` — the file system behind `tarfs_init`.
-/

namespace SadOS.Fs

/-! ## The source -/

/-- `tarfs_open`, where unused inodes are zero.  The name of an entry fits into `fname`. -/
def tarfsOpen (t : Tarfs) (pathname : List UInt8) : Option TarFile :=
  (getFileIndex t.entry pathname).map fun fileIndex => ⟨t.inode.getD fileIndex ⟨0, 0, none⟩, 0⟩

/-- An operation, with the bytes that the client gets. -/
def TarOp.serve (m : ByteMem) (fd : TarFile) : TarOp → Option (List UInt8 × TarFile)
  | lseek offset whence => some ([], fd.lseek offset whence)
  | read count => (tarfsRead m fd count).map fun r => (r.2.1.take r.1.toNat, r.2.2)

/-- What the operations of a client deliver. -/
def TarFile.session (m : ByteMem) : TarFile → List TarOp → Option (List (List UInt8))
  | _, [] => some []
  | fd, op :: ops => do
    let (bytes, fd) ← op.serve m fd
    let rest ← fd.session m ops
    return bytes :: rest

/-! ## Files as lists of bytes -/

/-- The bytes of a file, and a position. -/
structure Cursor where
  content : List UInt8
  pos : ℤ

namespace Cursor

def step (f : Cursor) : TarOp → List UInt8 × Cursor
  | .lseek offset whence =>
    ([], { f with
      pos :=
        if whence = 0 then offset
        else if whence = 1 then f.pos + offset
        else if whence = 2 then f.content.length + offset
        else f.pos })
  | .read count =>
    let bytes := (f.content.drop f.pos.toNat).take count.toNat
    (bytes, { f with pos := f.pos + bytes.length })

def session : Cursor → List TarOp → List (List UInt8)
  | _, [] => []
  | f, op :: ops => (f.step op).1 :: (f.step op).2.session ops

/-- The position is in the file. -/
def Valid (f : Cursor) : Prop := 0 ≤ f.pos ∧ f.pos ≤ f.content.length

/-- A count that cannot make the sum with a position overflow, or a seek that stays in the file. -/
def Allows (f : Cursor) (op : TarOp) : Prop :=
  (∀ count, op = .read count → 0 ≤ count ∧ f.content.length + count < 2 ^ 31) ∧ (f.step op).2.Valid

@[simp] theorem content_step (f : Cursor) (op : TarOp) : (f.step op).2.content = f.content := by
  cases op <;> rfl

end Cursor

/-- The data of a member of an archive. -/
def Archive.content (a : Archive) (x : ℤ × TarEntry) : List UInt8 :=
  (List.range x.2.size).map fun k : ℕ => a.bytes (x.1 + sizeofHeader + k)

/-- The file system has the members of an archive, and no other file but its root. -/
structure Tarfs.Serves (t : Tarfs) (a : Archive) (es : List TarEntry) : Prop where
  opens : ∀ path, (tarfsOpen t path).isSome ↔ path = root ∨ ∃ e ∈ es, path = fullName e.path
  reads : ∀ x ∈ placed 0 es, getFsIndex (tarfs ++ fullName x.2.path) = 0 ∧
    ∃ fd, tarfsOpen t (parsePath (tarfs ++ fullName x.2.path)) = some fd ∧
      ∀ ops, Always Cursor.Allows (fun f op => (f.step op).2) ⟨a.content x, 0⟩ ops →
        fd.session t.mem ops = some (Cursor.session ⟨a.content x, 0⟩ ops)

/-! ## What `tarfs_init` writes -/

section writes

variable {m m' : ByteMem} {str : ℤ}

theorem storeName_sameOn {i : ℤ} {c : UInt8} (h : storeName m str i c = some m') :
    ByteMem.SameOn m m' fun x => x < str ∨ str + nameLength ≤ x := by
  rw [storeName] at h
  split at h
  · rename_i hi
    refine ⟨ByteMem.lo_of_storeAll h, ByteMem.hi_of_storeAll h, fun x hx => ?_⟩
    rcases ByteMem.bytes_of_storeAll h x with ⟨hlo, hhi, -⟩ | ⟨-, heq⟩
    · rw [List.length_singleton] at hhi
      push_cast at hhi
      omega
    · exact heq
  · cases h

theorem shiftLoop_sameOn {n : ℕ} (h : shiftLoop m str n = some m') :
    ByteMem.SameOn m m' fun x => x < str ∨ str + nameLength ≤ x := by
  induction n generalizing m with
  | zero =>
    obtain rfl := Option.some.inj h
    exact ByteMem.SameOn.refl _ _
  | succ n ih =>
    simp only [shiftLoop, Option.bind_eq_bind, Option.bind_eq_some_iff] at h
    obtain ⟨c, -, m₁, hstore, hrest⟩ := h
    exact (storeName_sameOn hstore).trans (ih hrest)

/-- `change_format` writes into the name. -/
theorem changeFormat_sameOn {ch : UInt8} (h : changeFormat m ch str = some m') :
    ByteMem.SameOn m m' fun x => x < str ∨ str + nameLength ≤ x := by
  simp only [changeFormat, changeFormatFrom, Option.bind_eq_bind, Option.bind_eq_some_iff] at h
  obtain ⟨s, -, m₁, hshift, m₂, hfirst, c, -, hlast⟩ := h
  refine ((shiftLoop_sameOn hshift).trans (storeName_sameOn hfirst)).trans ?_
  split at hlast
  · exact storeName_sameOn hlast
  · exact storeName_sameOn hlast

/-- The body of the loop writes into the name of its header. -/
theorem addHeader_sameOn {header : ℤ} {s : Tarfs} {r : ℤ × Tarfs} (h : addHeader header s = some r) :
    ByteMem.SameOn s.mem r.2.mem fun x => x < header ∨ header + nameLength ≤ x := by
  simp only [addHeader, Option.bind_eq_bind, Option.bind_eq_some_iff, Option.pure_def,
    Option.some.injEq] at h
  obtain ⟨m, hchange, size, -, name, -, parent, -, entry, -, rfl⟩ := h
  have hsame := changeFormat_sameOn hchange
  rw [show header + (headerName : ℤ) = header from add_zero header] at hsame
  exact hsame

end writes

section loop

variable {stop header : ℤ} {es : List TarEntry}

/-- Every good member has a place for its parent. -/
theorem exists_getParent {e : TarEntry} (h : e.Good) (entry : List TarDentry) :
    ∃ q, getParent entry (fullName e.path) = some q := by
  obtain ⟨p, c, hpath, -, hslash⟩ := h.path_eq
  have hlen := h.length_fullName
  have hlt : (fullName p).length < parentDirLength := by
    rw [hpath, fullName_concat, List.length_append] at hlen
    exact lt_of_le_of_lt (by omega) (show 29 < parentDirLength by decide)
  exact ⟨_, by rw [getParent, hpath, parentDir_fullName hslash hlt]; rfl⟩

/-- A loop that stops changes nothing. -/
theorem initLoop_of_atEnd {s t : Tarfs} {room : ℕ} (hend : atEnd stop header s.mem = some true)
    (h : initLoop stop room header s = some t) : s = t := by
  cases room <;> simpa [initLoop, hend] using h

/-- The loop writes into the names of the members. -/
theorem initLoop_sameOn (hgood : ∀ e ∈ es, e.Good) {s t : Tarfs} (hstored : Stored s.mem header es)
    {room : ℕ} (hroom : es.length ≤ room) (h : initLoop stop room header s = some t) :
    ByteMem.SameOn s.mem t.mem fun x =>
      ∀ y ∈ placed header es, x < y.1 ∨ y.1 + nameLength ≤ x := by
  induction es generalizing header s room with
  | nil =>
    have hend : atEnd stop header s.mem = some true := by
      by_contra hne
      by_cases hreaches : Reaches s.mem stop header []
      · exact hne (atEnd_of_reaches hreaches)
      · have hnone := atEnd_of_not_reaches hstored hreaches
        cases room <;> simp [initLoop, hnone] at h
    rw [initLoop_of_atEnd hend h]
    exact ByteMem.SameOn.refl _ _
  | cons e es ih =>
    by_cases hstop : header = stop
    · rw [initLoop_of_atEnd (if_pos hstop) h]
      exact ByteMem.SameOn.refl _ _
    obtain ⟨room, rfl⟩ : ∃ n, room = n + 1 := ⟨room - 1, by rw [List.length_cons] at hroom; omega⟩
    have he := hgood e List.mem_cons_self
    obtain ⟨q, hq⟩ := exists_getParent he s.entry
    obtain ⟨entry, m, -, hadd, hbehind⟩ := addHeader_eq he hstored hq
    have hloop : initLoop stop (room + 1) header s = initLoop stop room (e.next header)
        ⟨m, entry, s.inode ++ [⟨e.blocks, e.size, some (header + sizeofHeader)⟩]⟩ := by
      rw [initLoop, atEnd_of_name hstored he hstop, Option.bind_eq_bind, Option.bind_some,
        if_neg Bool.false_ne_true, hadd]
      rfl
    have hsame : ByteMem.SameOn s.mem m fun x => x < header ∨ header + nameLength ≤ x :=
      addHeader_sameOn hadd
    have hrest := ih (fun e' he' => hgood e' (List.mem_cons_of_mem e he'))
      (hstored.2.2.2.congr hbehind le_rfl) (by rw [List.length_cons] at hroom; omega) (hloop ▸ h)
    refine (hsame.mono fun x hx => hx _ List.mem_cons_self).trans
      (hrest.mono fun x hx y hy => hx y (List.mem_cons_of_mem _ hy))

theorem le_of_mem_placed {x : ℤ × TarEntry} (hx : x ∈ placed header es) : header ≤ x.1 := by
  induction es generalizing header with
  | nil => exact absurd hx List.not_mem_nil
  | cons e es ih =>
    have hnext := le_next e header
    rcases List.mem_cons.1 hx with rfl | hx
    · exact le_rfl
    · have := ih hx
      omega

/-- The data of a member ends in front of the next header. -/
theorem data_le_next (e : TarEntry) (header : ℤ) : header + sizeofHeader + e.size ≤ e.next header := by
  rw [TarEntry.next, TarEntry.blocks, show sizeofHeader = 512 from rfl]
  push_cast
  omega

/-- The data of a member is not in the name of a header. -/
theorem data_not_in_name {x y : ℤ × TarEntry} (hx : x ∈ placed header es) (hy : y ∈ placed header es)
    {p : ℤ} (hlo : x.1 + sizeofHeader ≤ p) (hhi : p < x.1 + sizeofHeader + x.2.size) :
    p < y.1 ∨ y.1 + nameLength ≤ p := by
  have hname : (nameLength : ℤ) ≤ sizeofHeader := by decide
  induction es generalizing header with
  | nil => exact absurd hx List.not_mem_nil
  | cons e es ih =>
    have hnext := le_next e header
    rcases List.mem_cons.1 hx with rfl | hx
    · have hdata := data_le_next e header
      rcases List.mem_cons.1 hy with rfl | hy
      · exact .inr (by omega)
      · have := le_of_mem_placed hy
        exact .inl (by dsimp only at hhi; omega)
    · rcases List.mem_cons.1 hy with rfl | hy
      · have := le_of_mem_placed hx
        exact .inr (by dsimp only; omega)
      · exact ih hx hy

/-- The data of a member is in the archive. -/
theorem Stored.data_le {m : ByteMem} (h : Stored m header es) {x : ℤ × TarEntry}
    (hx : x ∈ placed header es) : x.1 + sizeofHeader + x.2.size ≤ m.hi := by
  induction es generalizing header with
  | nil => exact absurd hx List.not_mem_nil
  | cons e es ih =>
    obtain ⟨-, -, hnext, hes⟩ := h
    rcases List.mem_cons.1 hx with rfl | hx
    · exact (data_le_next e header).trans hnext
    · exact ih hes hx

end loop

/-! ## Reads -/

section reads

variable {m : ByteMem} {fd : TarFile} {f : Cursor} {data : ℤ}

/-- An open file whose data is the content of `f`, at its position. -/
structure TarFile.Reads (m : ByteMem) (data : ℤ) (fd : TarFile) (f : Cursor) : Prop where
  stored : fd.inode.Stored m data
  fileLen : fd.inode.fileLen = f.content.length
  bytes : ∀ k (hk : k < f.content.length), m.bytes (data + k) = f.content[k]
  fPos : fd.fPos = f.pos
  valid : f.Valid

/-- A seek in the file. -/
theorem TarFile.Reads.lseek (h : fd.Reads m data f) {offset whence : ℤ}
    (hvalid : (f.step (.lseek offset whence)).2.Valid) :
    (fd.lseek offset whence).Reads m data (f.step (.lseek offset whence)).2 := by
  have hlt := h.stored.lt
  have hlen := h.fileLen
  have hpos := h.fPos
  have hinode : (fd.lseek offset whence).inode = fd.inode := by
    rw [TarFile.lseek]
    split_ifs <;> rfl
  have hfPos : (fd.lseek offset whence).fPos = (f.step (.lseek offset whence)).2.pos := by
    obtain ⟨hlo, hhi⟩ := hvalid
    simp only [Cursor.step] at hlo hhi
    simp only [TarFile.lseek, Cursor.step]
    split_ifs at hlo hhi ⊢
    · exact toInt_of_range (by omega) (by omega)
    · rw [hpos]
      exact toInt_of_range (by omega) (by omega)
    · rw [hlen]
      exact toInt_of_range (by omega) (by omega)
    · exact hpos
  exact ⟨hinode.symm ▸ h.stored, hinode.symm ▸ h.fileLen, h.bytes, hfPos, hvalid⟩

/-- A read delivers the bytes from the position on. -/
theorem TarFile.Reads.read (h : fd.Reads m data f) {count : ℤ} (hcount : 0 ≤ count)
    (hsum : f.content.length + count < 2 ^ 31) :
    ∃ r, tarfsRead m fd count = some r ∧ r.2.1.take r.1.toNat = (f.step (.read count)).1 ∧
      r.2.2.Reads m data (f.step (.read count)).2 := by
  obtain ⟨hpos, hle⟩ := h.valid
  have hfPos := h.fPos
  have hlen := h.fileLen
  have hstays : StaysInFile fd count := by
    rcases eq_or_ne fd.fPos fd.inode.fileLen with heq | hne
    · exact .inl heq
    · exact .inr (.inl ⟨by omega, by omega, by omega⟩)
  obtain ⟨r, hr, hret, hbytes, hmove⟩ := (tarfsRead_right_iff h.stored (by omega) (by omega) hcount
    (by omega)).2 hstays
  have hret := hret (by omega)
  have hinode : r.2.2.inode = fd.inode :=
    (TarFile.Opens.read ⟨rfl, by omega, by omega⟩ hr).inode_eq
  have hdelivered : r.2.1.take r.1.toNat = (f.content.drop f.pos.toNat).take count.toNat := by
    refine List.ext_getElem? fun i => ?_
    rcases Nat.lt_or_ge i r.1.toNat with hi | hi
    · obtain ⟨-, hin, hget⟩ := hbytes i hi
      have hk : f.pos.toNat + i < f.content.length := by omega
      rw [List.getElem?_take_of_lt hi, hget, List.getElem?_take_of_lt (by omega), List.getElem?_drop,
        List.getElem?_eq_getElem hk, ← h.bytes _ hk]
      congr 3
      omega
    · rw [List.getElem?_eq_none, List.getElem?_eq_none]
      · rw [List.length_take, List.length_drop]
        omega
      · rw [List.length_take]
        omega
  have hcountLen : (((f.content.drop f.pos.toNat).take count.toNat).length : ℤ) = r.1 := by
    rw [List.length_take, List.length_drop]
    omega
  refine ⟨r, hr, hdelivered, hinode.symm ▸ h.stored, hinode.symm ▸ hlen, h.bytes, ?_, ?_⟩
  · rw [hmove, hfPos, ← hcountLen]
    rfl
  · simp only [Cursor.Valid, Cursor.step, hcountLen]
    omega

/-- An operation on an open file is the operation on its bytes. -/
theorem TarFile.Reads.serve (h : fd.Reads m data f) {op : TarOp} (hop : f.Allows op) :
    ∃ fd', op.serve m fd = some ((f.step op).1, fd') ∧ fd'.Reads m data (f.step op).2 := by
  cases op with
  | lseek offset whence => exact ⟨_, rfl, h.lseek hop.2⟩
  | read count =>
    obtain ⟨hcount, hsum⟩ := hop.1 count rfl
    obtain ⟨r, hr, hbytes, hreads⟩ := h.read hcount hsum
    exact ⟨r.2.2, by rw [TarOp.serve, hr, Option.map_some, hbytes], hreads⟩

/-- Operations on an open file are those on its bytes. -/
theorem TarFile.Reads.session (h : fd.Reads m data f) {ops : List TarOp}
    (hops : Always Cursor.Allows (fun f op => (f.step op).2) f ops) :
    fd.session m ops = some (f.session ops) := by
  induction ops generalizing fd f with
  | nil => rfl
  | cons op ops ih =>
    obtain ⟨fd', hserve, hreads⟩ := h.serve hops.1
    simp only [TarFile.session, hserve, Option.bind_eq_bind, Option.bind_some, ih hreads hops.2]
    rfl

end reads

/-! ## The file system -/

section serves

variable {t : Tarfs} {es : List TarEntry} {a : Archive}

/-- A path of `/tarfs`. -/
theorem getFsIndex_tarfs (path : List UInt8) : getFsIndex (tarfs ++ path) = 0 :=
  if_pos (List.prefix_append tarfs path)

theorem parsePath_tarfs {path : List UInt8} (hne : path ≠ []) : parsePath (tarfs ++ path) = path := by
  have hlen : tarfs.length = 6 := by decide
  rw [parsePath]
  simp only [if_pos (List.prefix_append tarfs path), List.drop_left' hlen, if_neg hne]

/-- The names of the entries are those of the root and of the members. -/
theorem isSome_tarfsOpen {done : List (ℤ × TarEntry)} (h : Indexed done t)
    (hgood : ∀ x ∈ done, x.2.Good) (path : List UInt8) :
    (tarfsOpen t path).isSome ↔ path = root ∨ ∃ x ∈ done, path = fullName x.2.path := by
  have hmem : (tarfsOpen t path).isSome ↔ path ∈ t.entry.map TarDentry.iname := by
    rw [tarfsOpen, Option.isSome_map, getFileIndex, List.findIdx?_isSome, List.any_eq_true,
      List.mem_map]
    exact exists_congr fun d => and_congr_right fun _ => decide_eq_true_iff
  rw [hmem, h.names, pathsOf, List.map_cons, List.map_map, List.mem_cons, List.mem_map]
  refine or_congr Iff.rfl (exists_congr fun x => and_congr_right fun hx => ?_)
  rw [Function.comp_apply, dirName_eq (hgood x hx)]
  exact eq_comm

/-- Opening a member. -/
theorem Indexed.tarfsOpen_eq (h : Indexed (placed 0 es) t) (hgood : ∀ e ∈ es, e.Good)
    (htree : Tree es) {x : ℤ × TarEntry} (hx : x ∈ placed 0 es) :
    tarfsOpen t (fullName x.2.path) =
      some ⟨⟨x.2.blocks, x.2.size, some (x.1 + sizeofHeader)⟩, 0⟩ := by
  have hes : es = (placed 0 es).map Prod.snd ++ [] := by rw [map_placed, List.append_nil]
  obtain ⟨j, hj⟩ := List.mem_iff_getElem?.1 hx
  have hgoodx : x.2.Good := hgood _ (map_placed 0 es ▸ List.mem_map_of_mem hx)
  have hpath : (pathsOf (placed 0 es))[j + 1]? = some x.2.path := by
    rw [pathsOf, List.getElem?_cons_succ, List.getElem?_map, hj]
    rfl
  have hindex := h.getFileIndex (htree.nodup hgood hes) hpath
  rw [dirName_eq hgoodx] at hindex
  rw [tarfsOpen, hindex, Option.map_some, h.table, List.getD_cons_succ, List.getD_eq_getElem?_getD,
    List.getElem?_map, hj]
  rfl

end serves

end SadOS.Fs
