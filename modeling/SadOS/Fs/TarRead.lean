import SadOS.Fs.Tarfs

/-!
# Reads of a file of the archive

`tarfs_read` of `bin/fs/tarfs.c`, with positions that `my_lseek` of `bin/fs/vfs.c` can set to
any `int`.  A client does both in any order, on one open file.

## Main definitions

* `TarFile`, `TarFile.lseek`, `tarfsRead` — the source.
* `ReadsFile` — a read delivers bytes of the file.
* `StaysInFile` — the position before a read, for which it does.

## Main results

* `tarfsRead_right_iff` — a read.
* `tarfs_reads_iff` — a sequence of operations.
-/

namespace SadOS.Fs

/-! ## The source -/

/-- `struct file`, for a file of the archive. -/
structure TarFile where
  inode : TarInode
  fPos : ℤ

/-- `my_lseek`. -/
def TarFile.lseek (fd : TarFile) (offset whence : ℤ) : TarFile :=
  if whence = 0 then { fd with fPos := toInt offset }
  else if whence = 1 then { fd with fPos := toInt (fd.fPos + offset) }
  else if whence = 2 then { fd with fPos := toInt (fd.inode.fileLen + offset) }
  else fd

/-- The loop of `tarfs_read`, for `n` values of `i`: the characters that are stored. -/
def readLoop (m : ByteMem) (curLoc : Option ℤ) (fPos : ℤ) : ℕ → ℕ → Option (List UInt8)
  | _, 0 => some []
  | i, n + 1 => do
    let loc ← curLoc
    let c ← m.load (loc + toInt (i + fPos))
    let rest ← readLoop m curLoc fPos (i + 1) n
    return c :: rest

/-- The value of `count` behind the comparison with the end of the file. -/
def clampCount (fd : TarFile) (count : ℤ) : ℤ :=
  if fd.inode.fileLen ≤ toInt (fd.fPos + count) then toInt (fd.inode.fileLen - fd.fPos) else count

/-- `tarfs_read`: what it returns, the characters that it stores, and the file. -/
def tarfsRead (m : ByteMem) (fd : TarFile) (count : ℤ) : Option (ℤ × List UInt8 × TarFile) :=
  if fd.fPos = fd.inode.fileLen then some (0, [], fd)
  else do
    let count := clampCount fd count
    let buf ← readLoop m fd.inode.data fd.fPos 0 count.toNat
    return (count, buf ++ [0], { fd with fPos := toInt (fd.fPos + count) })

/-- What a client asks for. -/
inductive TarOp
  | lseek (offset whence : ℤ)
  | read (count : ℤ)

def TarOp.step (m : ByteMem) (fd : TarFile) : TarOp → Option TarFile
  | lseek offset whence => some (fd.lseek offset whence)
  | read count => (tarfsRead m fd count).map fun r => r.2.2

/-! ## Files -/

/-- The data of a file is in memory. -/
structure TarInode.Stored (inode : TarInode) (m : ByteMem) (data : ℤ) : Prop where
  data_eq : inode.data = some data
  lo_le : m.lo ≤ data
  end_le : data + inode.fileLen ≤ m.hi
  nonneg : 0 ≤ inode.fileLen
  lt : inode.fileLen < 2 ^ 31

/-- A read returns how many bytes of the file it delivers, from the position on, and moves it
behind them. -/
structure ReadsFile (m : ByteMem) (data : ℤ) (fd : TarFile) (count : ℤ)
    (r : ℤ × List UInt8 × TarFile) : Prop where
  ret : 0 ≤ fd.fPos → r.1 = min count (max 0 (fd.inode.fileLen - fd.fPos))
  bytes : ∀ i < r.1.toNat, 0 ≤ fd.fPos + i ∧ fd.fPos + i < fd.inode.fileLen ∧
    r.2.1[i]? = some (m.bytes (data + (fd.fPos + i)))
  fPos : r.2.2.fPos = fd.fPos + r.1

/-- The position is not behind the file, and the sum of position and count is an `int`. -/
def StaysInFile (fd : TarFile) (count : ℤ) : Prop :=
  fd.fPos = fd.inode.fileLen ∨
    (0 ≤ fd.fPos ∧ fd.fPos < fd.inode.fileLen ∧ fd.fPos + count < 2 ^ 31) ∨
    (fd.fPos < 0 ∧ count = 0)

/-! ## A read -/

section read

variable {m : ByteMem} {fd : TarFile} {data count : ℤ}

/-- A loop over characters of the file. -/
theorem readLoop_eq (h : fd.inode.Stored m data) (i n : ℕ) (hlo : 0 ≤ fd.fPos + i)
    (hhi : fd.fPos + i + n ≤ fd.inode.fileLen) :
    readLoop m fd.inode.data fd.fPos i n =
      some ((List.range n).map fun k => m.bytes (data + (fd.fPos + (i + k : ℕ)))) := by
  induction n generalizing i with
  | zero => rfl
  | succ n ih =>
    push_cast at hhi
    have hlt := h.lt
    have hlo_le := h.lo_le
    have hend := h.end_le
    have hload : m.load (data + toInt (i + fd.fPos)) = some (m.bytes (data + (fd.fPos + i))) := by
      rw [toInt_of_range (by omega) (by omega), Int.add_comm (i : ℤ)]
      exact if_pos ⟨by omega, by omega⟩
    rw [readLoop, h.data_eq, Option.bind_eq_bind, Option.bind_some, hload]
    simp only [Option.bind_eq_bind, Option.bind_some]
    rw [← h.data_eq, ih (i + 1) (by push_cast; omega) (by push_cast; omega), List.range_succ_eq_map,
      List.map_cons, List.map_map]
    refine congrArg some (congrArg _ (List.map_congr_left fun k _ => ?_))
    rw [Function.comp_apply, Nat.succ_eq_one_add, Nat.add_assoc]

/-- The length of what a loop stores. -/
theorem length_readLoop {curLoc : Option ℤ} {fPos : ℤ} {i n : ℕ} {buf : List UInt8}
    (h : readLoop m curLoc fPos i n = some buf) : buf.length = n := by
  induction n generalizing i buf with
  | zero =>
    obtain rfl := Option.some.inj h
    rfl
  | succ n ih =>
    simp only [readLoop, Option.bind_eq_bind, Option.bind_eq_some_iff, Option.pure_def] at h
    obtain ⟨loc, -, c, -, rest, hrest, hbuf⟩ := h
    obtain rfl := Option.some.inj hbuf
    rw [List.length_cons, ih hrest]

theorem tarfsRead_of_loop (hne : fd.fPos ≠ fd.inode.fileLen) {buf : List UInt8}
    (hbuf : readLoop m fd.inode.data fd.fPos 0 (clampCount fd count).toNat = some buf) :
    tarfsRead m fd count = some (clampCount fd count, buf ++ [0],
      { fd with fPos := toInt (fd.fPos + clampCount fd count) }) := by
  rw [tarfsRead, if_neg hne]
  dsimp only
  rw [hbuf]
  rfl

theorem tarfsRead_eq_some {r : ℤ × List UInt8 × TarFile} (h : tarfsRead m fd count = some r)
    (hne : fd.fPos ≠ fd.inode.fileLen) : r.1 = clampCount fd count ∧
      ∃ buf, buf.length = (clampCount fd count).toNat ∧ r.2.1 = buf ++ [0] := by
  rw [tarfsRead, if_neg hne] at h
  obtain ⟨buf, hbuf, h⟩ := Option.bind_eq_some_iff.1 h
  obtain rfl := Option.some.inj h
  exact ⟨rfl, buf, length_readLoop hbuf, rfl⟩

/-- The comparison without overflow. -/
theorem clampCount_of_lt (h : fd.inode.Stored m data) (hlo : -2 ^ 31 ≤ fd.fPos) (hcount : 0 ≤ count)
    (hsum : fd.fPos + count < 2 ^ 31) (hdiff : fd.inode.fileLen - fd.fPos < 2 ^ 31 ∨
      fd.fPos + count < fd.inode.fileLen) :
    clampCount fd count = min count (fd.inode.fileLen - fd.fPos) := by
  have hnonneg := h.nonneg
  rw [clampCount, toInt_of_range (by omega) hsum]
  split
  · rw [toInt_of_range (by omega) (by omega)]
    omega
  · omega

/-- With an overflow nothing is taken from the count. -/
theorem clampCount_of_le (h : fd.inode.Stored m data) (hhi : fd.fPos < 2 ^ 31)
    (hlt : count < 2 ^ 31) (hsum : 2 ^ 31 ≤ fd.fPos + count) : clampCount fd count = count := by
  have hnonneg := h.nonneg
  have hwrap : toInt (fd.fPos + count) = fd.fPos + count - 2 ^ 32 := by
    rw [toInt, Int.bmod_def]
    omega
  rw [clampCount, hwrap, if_neg (by omega)]

/-- The buffer has room for what is stored. -/
theorem length_tarfsRead_le (h : fd.inode.Stored m data) (hlo : -2 ^ 31 ≤ fd.fPos)
    (hhi : fd.fPos < 2 ^ 31) (hcount : 0 ≤ count) (hlt : count < 2 ^ 31)
    {r : ℤ × List UInt8 × TarFile} (hr : tarfsRead m fd count = some r) :
    (r.2.1.length : ℤ) ≤ count + 1 := by
  by_cases heq : fd.fPos = fd.inode.fileLen
  · rw [tarfsRead, if_pos heq] at hr
    obtain rfl := Option.some.inj hr
    exact Int.add_nonneg hcount Int.one_nonneg
  · obtain ⟨-, buf, hlen, hbuf⟩ := tarfsRead_eq_some hr heq
    rw [hbuf, List.length_append, List.length_singleton, hlen]
    rcases lt_or_ge (fd.fPos + count) (2 ^ 31) with hsum | hsum
    · rw [clampCount_of_lt h hlo hcount hsum (by omega)]
      omega
    · rw [clampCount_of_le h hhi hlt hsum]
      omega

/-- A read delivers bytes of the file exactly if it stays in the file. -/
theorem tarfsRead_right_iff (h : fd.inode.Stored m data) (hlo : -2 ^ 31 ≤ fd.fPos)
    (hhi : fd.fPos < 2 ^ 31) (hcount : 0 ≤ count) (hlt : count < 2 ^ 31) :
    (∃ r, tarfsRead m fd count = some r ∧ ReadsFile m data fd count r) ↔ StaysInFile fd count := by
  have hnonneg := h.nonneg
  have hlen := h.lt
  constructor
  · rintro ⟨r, hr, hret, hbytes, -⟩
    by_contra hstays
    simp only [StaysInFile, not_or, not_and] at hstays
    obtain ⟨hne, hin, hneg⟩ := hstays
    obtain ⟨hclamp, -⟩ := tarfsRead_eq_some hr hne
    rcases lt_or_ge fd.fPos 0 with hpos | hpos
    · -- the first byte is in front of the file
      have hcount' : count ≠ 0 := hneg hpos
      rw [clampCount_of_lt h hlo hcount (by omega) (by omega)] at hclamp
      have hfirst := (hbytes 0 (by omega)).1
      omega
    · rw [hclamp] at hret
      have hret := hret hpos
      rcases lt_or_ge (fd.fPos + count) (2 ^ 31) with hsum | hsum
      · rw [clampCount_of_lt h hlo hcount hsum (.inl (by omega))] at hret
        omega
      · rw [clampCount_of_le h hhi hlt hsum] at hret
        omega
  · intro hstays
    by_cases heq : fd.fPos = fd.inode.fileLen
    · refine ⟨(0, [], fd), if_pos heq, fun _ => ?_, fun i hi => absurd hi (Nat.not_lt_zero i),
        (add_zero _).symm⟩
      dsimp only
      omega
    have hclamp : clampCount fd count = min count (fd.inode.fileLen - fd.fPos) :=
      clampCount_of_lt h hlo hcount
        (by rcases hstays with hend | ⟨-, -, hsum⟩ | ⟨hneg, hzero⟩ <;> omega)
        (by rcases hstays with hend | ⟨-, -, hsum⟩ | ⟨hneg, hzero⟩ <;> omega)
    have hloop : readLoop m fd.inode.data fd.fPos 0 (clampCount fd count).toNat =
        some ((List.range (clampCount fd count).toNat).map fun k =>
          m.bytes (data + (fd.fPos + (0 + k : ℕ)))) := by
      rcases hstays with hend | ⟨hpos, hin, hsum⟩ | ⟨hneg, hzero⟩
      · exact absurd hend heq
      · exact readLoop_eq h 0 _ (by omega) (by omega)
      · rw [show (clampCount fd count).toNat = 0 by omega]
        rfl
    refine ⟨_, tarfsRead_of_loop heq hloop, fun hpos => ?_, fun i hi => ?_, ?_⟩
    · rcases hstays with hend | ⟨-, hin, -⟩ | ⟨hneg, -⟩
      · exact absurd hend heq
      · exact hclamp.trans (by omega)
      · exact absurd hneg (not_lt.2 hpos)
    · dsimp only at hi ⊢
      refine ⟨?_, ?_, ?_⟩
      · rcases hstays with hend | ⟨hpos, hin, hsum⟩ | ⟨hneg, hzero⟩ <;> omega
      · omega
      · rw [List.getElem?_append_left (by simpa using hi), List.getElem?_map,
          List.getElem?_range hi, Option.map_some, Nat.zero_add]
    · exact toInt_of_range (by omega) (by omega)

end read

/-! ## Sequences of operations -/

section sequence

variable {m : ByteMem} {inode : TarInode} {data : ℤ} {fd fd' : TarFile}

/-- An open file of the archive in the tables of the server. -/
def TarFile.file (fd : TarFile) : File := ⟨.tarfs fd.inode.fileLen, fd.fPos, 0⟩

theorem myLseek_file {δ σ : Type} {s : Server δ σ} {p : ℕ}
    (h : s.objs[p]? = some (.file fd.file)) (offset whence : ℤ) :
    ∃ s', myLseek s (some p) offset whence = .ok s' ∧
      s'.objs = s.objs.set p (.file (fd.lseek offset whence).file) := by
  have hget : s.getFile (some p) = .ok (p, fd.file) := by rw [Server.getFile, h]
  have hset : s.objs.set p (.file fd.file) = s.objs := by
    obtain ⟨hlt, hp⟩ := List.getElem?_eq_some_iff.1 h
    rw [← hp, List.set_getElem_self]
  rw [myLseek, hget, TarFile.lseek]
  dsimp only [bind, Except.bind]
  split
  · exact ⟨_, rfl, rfl⟩
  split
  · exact ⟨_, rfl, rfl⟩
  split
  · exact ⟨_, rfl, rfl⟩
  · exact ⟨s, rfl, hset.symm⟩

/-- A position is an `int`, and the inode stays. -/
structure TarFile.Opens (inode : TarInode) (fd : TarFile) : Prop where
  inode_eq : fd.inode = inode
  range : -2 ^ 31 ≤ fd.fPos ∧ fd.fPos < 2 ^ 31

theorem TarFile.Opens.lseek (h : fd.Opens inode) (offset whence : ℤ) :
    (fd.lseek offset whence).Opens inode := by
  rw [TarFile.lseek]
  split
  · exact ⟨h.inode_eq, toInt_range _⟩
  split
  · exact ⟨h.inode_eq, toInt_range _⟩
  split
  · exact ⟨h.inode_eq, toInt_range _⟩
  · exact h

theorem TarFile.Opens.read (h : fd.Opens inode) {count : ℤ} {r : ℤ × List UInt8 × TarFile}
    (hr : tarfsRead m fd count = some r) : r.2.2.Opens inode := by
  rw [tarfsRead] at hr
  split at hr
  · obtain rfl := Option.some.inj hr
    exact h
  · obtain ⟨buf, -, hr⟩ := Option.bind_eq_some_iff.1 hr
    obtain rfl := Option.some.inj hr
    exact ⟨h.inode_eq, toInt_range _⟩

theorem TarFile.Opens.step (h : fd.Opens inode) {op : TarOp} (hop : op.step m fd = some fd') :
    fd'.Opens inode := by
  cases op with
  | lseek offset whence =>
    obtain rfl := Option.some.inj hop
    exact h.lseek offset whence
  | read count =>
    obtain ⟨r, hr, rfl⟩ := Option.map_eq_some_iff.1 hop
    exact h.read hr

theorem TarFile.Opens.run (h : fd.Opens inode) {ops : List TarOp}
    (hops : ops.foldlM (TarOp.step m) fd = some fd') : fd'.Opens inode := by
  induction ops generalizing fd with
  | nil =>
    obtain rfl := Option.some.inj hops
    exact h
  | cons op ops ih =>
    rw [List.foldlM_cons] at hops
    obtain ⟨fd₁, hop, hops⟩ := Option.bind_eq_some_iff.1 hops
    exact ih (h.step hop) hops

/-- Every read of a sequence of operations on an opened file has a property. -/
def EveryRead (m : ByteMem) (inode : TarInode) (ops : List TarOp) (P : TarFile → ℤ → Prop) : Prop :=
  ∀ pre count post, ops = pre ++ .read count :: post →
    ∀ fd, pre.foldlM (TarOp.step m) ⟨inode, 0⟩ = some fd → P fd count

/-- The reads of a sequence deliver bytes of the file exactly if they all stay in it. -/
theorem tarfs_reads_iff (m : ByteMem) (inode : TarInode) (data : ℤ) (h : inode.Stored m data)
    (ops : List TarOp) (hops : ∀ count, .read count ∈ ops → 0 ≤ count ∧ count < 2 ^ 31) :
    (EveryRead m inode ops fun fd count => ∃ r, tarfsRead m fd count = some r ∧
      ReadsFile m data fd count r) ↔ EveryRead m inode ops StaysInFile := by
  have hread : ∀ pre count post, ops = pre ++ .read count :: post →
      ∀ fd, pre.foldlM (TarOp.step m) ⟨inode, 0⟩ = some fd →
        ((∃ r, tarfsRead m fd count = some r ∧ ReadsFile m data fd count r) ↔
          StaysInFile fd count) := by
    intro pre count post hpre fd hfd
    have hopens : fd.Opens inode :=
      TarFile.Opens.run ⟨rfl, show -2 ^ 31 ≤ (0 : ℤ) ∧ (0 : ℤ) < 2 ^ 31 by decide⟩ hfd
    obtain ⟨hcount, hlt⟩ := hops count
      (hpre ▸ List.mem_append_right pre List.mem_cons_self)
    exact tarfsRead_right_iff (hopens.inode_eq.symm ▸ h) hopens.range.1 hopens.range.2
      hcount hlt
  exact ⟨fun hright pre count post hpre fd hfd => (hread pre count post hpre fd hfd).1
    (hright pre count post hpre fd hfd), fun hstays pre count post hpre fd hfd =>
    (hread pre count post hpre fd hfd).2 (hstays pre count post hpre fd hfd)⟩

/-- A file of one byte, behind another byte. -/
def smallMem : ByteMem := ⟨0, 2, fun a => if a = 1 then 98 else 97⟩

def smallInode : TarInode := ⟨1, 1, some 1⟩

theorem stored_small : smallInode.Stored smallMem 1 := ⟨rfl, by decide, by decide, by decide, by decide⟩

theorem tarfs_reads_small : EveryRead smallMem smallInode [.lseek 0 2, .read 5] fun fd count =>
    ∃ r, tarfsRead smallMem fd count = some r ∧ ReadsFile smallMem 1 fd count r := by
  refine (tarfs_reads_iff _ _ _ stored_small _ fun count hmem => ?_).2 ?_
  · obtain rfl : count = 5 := by simpa using hmem
    decide
  · intro pre count post hpre fd hfd
    obtain ⟨rfl, rfl⟩ : pre = [.lseek 0 2] ∧ count = 5 := by
      match pre, hpre with
      | [], hpre => cases hpre
      | [op], hpre =>
        cases hpre
        exact ⟨rfl, rfl⟩
      | op :: op' :: pre, hpre =>
        have hnil := (List.cons.inj (List.cons.inj hpre).2).2
        exact absurd hnil.symm (List.append_ne_nil_of_right_ne_nil pre (List.cons_ne_nil _ post))
    obtain rfl := Option.some.inj hfd
    exact .inl rfl

/-- A client can read the byte in front of the file. -/
theorem tarfs_reads_outside : ¬∀ (m : ByteMem) (inode : TarInode) (data : ℤ), inode.Stored m data →
    ∀ ops : List TarOp, (∀ count, .read count ∈ ops → 0 ≤ count ∧ count < 2 ^ 31) →
      EveryRead m inode ops fun fd count => ∃ r, tarfsRead m fd count = some r ∧
        ReadsFile m data fd count r := by
  intro h
  have hops : ∀ count, TarOp.read count ∈ [TarOp.lseek (-1) 0, .read 1] →
      0 ≤ count ∧ count < 2 ^ 31 := by
    intro count hmem
    obtain rfl : count = 1 := by simpa using hmem
    decide
  have hread := h smallMem smallInode 1 stored_small _ hops [.lseek (-1) 0] 1 [] rfl _ rfl
  have hin := (tarfsRead_right_iff stored_small (by decide) (by decide) (by decide) (by decide)).1 hread
  revert hin
  simp only [StaysInFile]
  decide

end sequence

end SadOS.Fs
