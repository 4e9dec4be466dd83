import SadOS.Lib.Words
import SadOS.Libc.Exec
import SadOS.Mm.Syscall

/-!
# Images

`execvm` of `libc/exec.c` with the loader of `libc/elf/elf.c`, as calls to the kernel.  A
system call returns a negative error number; `sendpage` of `libc/sendpage.c` makes a null
pointer of it, and `mapper` tests whether the pointer is negative.

The image is in a memory of bytes.  What the kernel replies to each call, and which copies
meet a page fault, are inputs.

## Main definitions

* `Kernel` — the replies.
* `elfLoad`, `elfForeachPh`, `mapper`, `execvm` — the source.
* `Reports` — failures are reported, and leave no address space behind.
* `Loads` — the images and replies for which they are.
* `reports_iff` — they are for no others.
-/

namespace SadOS.Libc.Elf

def ENOEXEC : ℤ := 8
def E2BIG : ℤ := 7

def PT_LOAD : ℕ := 1
def PT_DYNAMIC : ℕ := 2
def PT_INTERP : ℕ := 3

/-- `ISERR`, of a `long`. -/
def isErr (x : BitVec 64) : Bool := 0xfffffffffffff000#64 < x

/-! ## The kernel -/

/-- The replies to the system calls of `execvm`.  A new address space gets a handle other
than 0, which is the caller's own, see `handle_asnew`. -/
structure Kernel where
  asnew : BitVec 64
  handle : isErr asnew = false → 0 < asnew.toInt ∧ asnew.toInt < 2 ^ 31
  /-- Where `malloc` puts the `elf_info`. -/
  info : BitVec 64
  /-- `sendpage(0, 0, 0, _)` for the program header `i`. -/
  own : ℕ → BitVec 64
  /-- `sendpage(as, _, _, _)` for the program header `i`. -/
  map : ℕ → BitVec 64
  /-- The `memcpy` for the program header `i` meets a page fault. -/
  faults : ℕ → Bool
  args : BitVec 64
  argsFault : Bool
  stack : BitVec 64
  argsMap : BitVec 64
  createTask : BitVec 64

/-- What `execvm` does to the world. -/
inductive Call
  | asnew (flags : ℕ)
  | asdestroy (as : ℤ)
  | sendpage (as : ℤ) (src dst len ret : BitVec 64)
  | memcpy (dst src n : BitVec 64)
  | createTask (as : ℤ) (rsp rcx ret : BitVec 64)
  deriving DecidableEq

/-- The end of `execvm`: a return with `errno`, a new program, or a page fault that kills
the caller. -/
inductive Outcome
  | returned (ret errno : ℤ)
  | replaced
  | killed
  deriving DecidableEq

/-- `syscall_ret`, with the new `errno`. -/
def syscallRet (ret : BitVec 64) (errno : ℤ) : ℤ × ℤ :=
  if isErr ret then (-1, -ret.toInt) else (ret.toInt, errno)

/-- The end of `sendpage`. -/
def sendpageRet (ret : BitVec 64) (errno : ℤ) : BitVec 64 × ℤ :=
  if ret.toInt < 0 then (0, -ret.toInt) else (ret, errno)

/-! ## Headers -/

/-- The number in `n` bytes of a memory. -/
def field (m : ℕ → UInt8) (a : BitVec 64) (n : ℕ) : ℕ := leValue (slice m a.toNat n)

/-- `struct elf64_phdr`, as far as `mapper` reads it. -/
structure Phdr where
  type : ℕ
  offset : BitVec 64
  vaddr : BitVec 64
  filesz : BitVec 64
  memsz : BitVec 64

section source

variable (k : Kernel) (m : ℕ → UInt8) (base : BitVec 64)

/-- `e_entry`. -/
def entry : BitVec 64 := .ofNat 64 (field m (base + 24) 8)

/-- `e_phoff`. -/
def phoff : BitVec 64 := .ofNat 64 (field m (base + 32) 8)

/-- `e_phnum`. -/
def phnum : ℕ := field m (base + 56) 2

/-- `phdr_table[i]`. -/
def phdr (i : ℕ) : Phdr :=
  let a := base + phoff m base + 56 * BitVec.ofNat 64 i
  { type := field m a 4
    offset := .ofNat 64 (field m (a + 8) 8)
    vaddr := .ofNat 64 (field m (a + 16) 8)
    filesz := .ofNat 64 (field m (a + 32) 8)
    memsz := .ofNat 64 (field m (a + 40) 8) }

/-- `strncmp`, for arrays of the same length. -/
def strncmp : List Int8 → List Int8 → ℤ
  | a :: as, b :: bs => if a < b then -1 else if a > b then 1 else strncmp as bs
  | _, _ => 0

def elfMagic : List Int8 := [0x7f, 0x45, 0x4c, 0x46]

/-- The tests of `elf_load`: the magic number, `ELFCLASS64` and `ELFDATA2LSB`. -/
def isElf : Bool :=
  if strncmp ((slice m base.toNat 4).map UInt8.toInt8) elfMagic ≠ 0 then false
  else if field m (base + 4) 1 ≠ 2 then false
  else if field m (base + 5) 1 ≠ 1 then false
  else true

/-- `elf_load`: whether it returns an `elf_info`, unless it writes to a null pointer. -/
def elfLoad : Option Bool := if k.info = 0 then none else some (isElf m base)

/-- `ALIGN(x, 12)`. -/
def align (x : BitVec 64) : BitVec 64 := x &&& ~~~0xfff

/-- `ALIGN_UP(x, 12)`. -/
def alignUp (x : BitVec 64) : BitVec 64 := (x + 0x1000 - 1) &&& ~~~0xfff

/-- `elf_foreach_ph` from header `i` on, with `n` headers left.  A visitor returns a number
and the new `errno`, or is killed. -/
def elfForeachPh (fn : ℕ → ℤ → Option (ℤ × ℤ) × List Call) :
    ℕ → ℕ → ℤ → Option (ℤ × ℤ) × List Call
  | 0, _, errno => (some (0, errno), [])
  | n + 1, i, errno =>
    match fn i errno with
    | (none, calls) => (none, calls)
    | (some (ret, errno), calls) =>
      if ret ≠ 0 then (some (ret, errno), calls)
      else
        let r := elfForeachPh fn n (i + 1) errno
        (r.1, calls ++ r.2)

/-- `mapper`. -/
def mapper (as : ℤ) (i : ℕ) (errno : ℤ) : Option (ℤ × ℤ) × List Call :=
  let ph := phdr m base i
  if ph.type = PT_DYNAMIC then (some (ENOEXEC, errno), [])
  else if ph.type = PT_INTERP then (some (ENOEXEC, errno), [])
  else if ph.type ≠ PT_LOAD then (some (0, errno), [])
  else
    let begin := ph.vaddr
    let abegin := align begin
    let aend := alignUp (begin + ph.memsz)
    let (page, errno) := sendpageRet (k.own i) errno
    let calls := [.sendpage 0 0 0 (aend - abegin) (k.own i),
      .memcpy (page + (begin - abegin)) (base + ph.offset) ph.filesz]
    if ph.filesz ≠ 0 ∧ (page = 0 ∨ k.faults i) then (none, calls)
    else
      let (ret, errno) := sendpageRet (k.map i) errno
      let calls := calls ++ [.sendpage as page abegin (aend - abegin) (k.map i)]
      if ret.toInt < 0 then (some (errno, errno), calls) else (some (0, errno), calls)

/-- The segments are sent to the new address space. -/
def loadSegments (as errno : ℤ) : Option (ℤ × ℤ) × List Call :=
  elfForeachPh (mapper k m base as) (phnum m base) 0 errno

/-- The rest of `execvm`: the arguments, the stack and the new program. -/
def startTask (as : ℤ) (cwd : CString) (argv envp : Option (List CString)) (errno : ℤ) :
    Outcome × List Call :=
  let size := BitVec.ofNat 64 (imageSize cwd argv envp)
  let (page, errno) := sendpageRet k.args errno
  let calls := [.sendpage 0 0 0 (alignUp size) k.args]
  if page = 0 ∨ k.argsFault then (.killed, calls)
  else
    let (stack, errno) := sendpageRet k.stack errno
    let dst := stack + 0x100000
    let (page', errno) := sendpageRet k.argsMap errno
    let calls := calls ++ [.sendpage as 0 0 0x100000 k.stack,
      .sendpage as page dst (alignUp size) k.argsMap,
      .createTask as (page' + 4096 - size) (entry m base) k.createTask]
    if isErr k.createTask then
      let (ret, errno) := syscallRet k.createTask errno
      (.returned ret errno, calls)
    else (.replaced, calls)

/-- `execvm`. -/
def execvm (cwd : CString) (argv envp : Option (List CString)) (errno : ℤ) :
    Outcome × List Call :=
  let (as, errno) := syscallRet k.asnew errno
  match elfLoad k m base with
  | none => (.killed, [.asnew 0])
  | some false => (.returned (-1) ENOEXEC, [.asnew 0])
  | some true =>
    match loadSegments k m base as errno with
    | (none, calls) => (.killed, .asnew 0 :: calls)
    | (some (ret, errno), calls) =>
      if ret ≠ 0 then (.returned (-1) E2BIG, .asnew 0 :: calls ++ [.asdestroy as])
      else
        let r := startTask k m base as cwd argv envp errno
        (r.1, .asnew 0 :: calls ++ r.2)

end source

/-! ## Handles -/

theorem fdtableInsert_lt {d fd : ℕ} {tab tab' : Mm.AsTable}
    (h : Mm.fdtableInsert d tab = some (fd, tab')) : fd < tab.length := by
  induction tab generalizing fd tab' with
  | nil => cases h
  | cons f tab ih =>
    cases f with
    | none =>
      cases h
      exact Nat.succ_pos _
    | some f =>
      obtain ⟨⟨fd', rest⟩, hrest, heq⟩ := Option.map_eq_some_iff.1 h
      cases heq
      exact Nat.succ_lt_succ (ih hrest)

/-- `asnew` returns what the field `handle` of a `Kernel` says, for entry 0 is taken. -/
theorem handle_asnew {s s' : Mm.State} {own : ℕ} {tab tab' : Mm.AsTable} {snapshot : Bool} {ret : ℤ}
    (hlen : tab.length + 1 ≤ 2 ^ 31)
    (h : Mm.asnew s (some own :: tab) snapshot = .ok ((ret, tab'), s')) :
    isErr (.ofInt 64 ret) = false →
      0 < (BitVec.ofInt 64 ret).toInt ∧ (BitVec.ofInt 64 ret).toInt < 2 ^ 31 := by
  rw [Mm.asnew] at h
  generalize Mm.aspaceNew (Mm.disableInterrupts s) = r at h
  obtain ⟨new, s₁⟩ := r
  dsimp only at h
  cases hinsert : Mm.fdtableInsert new (some own :: tab) with
  | none =>
    rw [hinsert] at h
    simp only [bind_eq_ok, pure_eq_ok, Except.ok.injEq, Prod.mk.injEq] at h
    obtain ⟨_, -, _, -, ⟨rfl, -⟩, -⟩ := h
    exact fun herr => absurd herr (by decide)
  | some r =>
    obtain ⟨fd, tab₁⟩ := r
    rw [hinsert] at h
    simp only [bind_eq_ok, pure_eq_ok, Except.ok.injEq, Prod.mk.injEq] at h
    obtain ⟨_, -, _, -, ⟨rfl, -⟩, -⟩ := h
    obtain ⟨⟨fd', rest⟩, hrest, heq⟩ := Option.map_eq_some_iff.1 hinsert
    cases heq
    have hlt := fdtableInsert_lt hrest
    have hself : (BitVec.ofInt 64 ((fd' + 1 : ℕ) : ℤ)).toInt = ((fd' + 1 : ℕ) : ℤ) :=
      BitVec.toInt_ofInt_eq_self (by decide) (by omega) (by omega)
    intro _
    rw [hself]
    constructor <;> omega

/-! ## Failures -/

section reports

variable (k : Kernel) (m : ℕ → UInt8) (base : BitVec 64)

/-- A call to map into the address space `as` that the kernel refuses. -/
def Call.Refused (as : ℤ) : Call → Prop
  | .sendpage as' _ _ _ ret => as' = as ∧ ret.toInt < 0
  | _ => False

/-- A segment that the kernel refuses to map into the address space `as`. -/
def RefusesSegment (as errno : ℤ) : Prop :=
  elfLoad k m base = some true ∧ ∃ c ∈ (loadSegments k m base as errno).2, c.Refused as

/-- If `execvm` returns -1, a new address space is destroyed; if a segment is refused,
`execvm` returns -1. -/
structure Reports (cwd : CString) (argv envp : Option (List CString)) (errno : ℤ) : Prop where
  destroys : isErr k.asnew = false → ∀ e,
    (execvm k m base cwd argv envp errno).1 = .returned (-1) e →
      .asdestroy k.asnew.toInt ∈ (execvm k m base cwd argv envp errno).2
  refuses : isErr k.asnew = false → RefusesSegment k m base k.asnew.toInt errno →
    ∃ e, (execvm k m base cwd argv envp errno).1 = .returned (-1) e

/-- The header makes `mapper` fail. -/
def Rejected (i : ℕ) : Prop := (phdr m base i).type = PT_DYNAMIC ∨ (phdr m base i).type = PT_INTERP

/-- The copy of the segment kills the caller. -/
def Faults (i : ℕ) : Prop :=
  (phdr m base i).type = PT_LOAD ∧ (phdr m base i).filesz ≠ 0 ∧
    ((sendpageRet (k.own i) 0).1 = 0 ∨ k.faults i)

/-- A header is rejected before a copy kills the caller. -/
def RejectedInTime : Prop :=
  ∃ i < phnum m base, Rejected m base i ∧ ∀ j < i, ¬Faults k m base j

/-- Every segment that `mapper` comes to is mapped. -/
def AllMapped : Prop :=
  ∀ i < phnum m base, (phdr m base i).type = PT_LOAD →
    (∀ j ≤ i, ¬Rejected m base j ∧ ¬Faults k m base j) → 0 ≤ (k.map i).toInt

/-- The caller is killed before `create_task`. -/
def KilledBefore : Prop :=
  (∃ i < phnum m base, Faults k m base i) ∨ (sendpageRet k.args 0).1 = 0 ∨ k.argsFault

/-- There is no new address space; or `elf_load` succeeds, and some header is rejected, or
all segments are mapped and `create_task` does not fail. -/
def Loads : Prop :=
  isErr k.asnew ∨ k.info = 0 ∨ isElf m base ∧ (RejectedInTime k m base ∨
    AllMapped k m base ∧ (isErr k.createTask → KilledBefore k m base))

end reports

/-! ## One header -/

section mapper

variable {k : Kernel} {m : ℕ → UInt8} {base : BitVec 64} {as : ℤ} {i n : ℕ}

theorem fst_sendpageRet (ret : BitVec 64) (errno : ℤ) :
    (sendpageRet ret errno).1 = (sendpageRet ret 0).1 := by
  rw [sendpageRet, sendpageRet]
  split <;> rfl

/-- `mapper` takes a null pointer for a success. -/
theorem toInt_sendpageRet (ret : BitVec 64) (errno : ℤ) :
    ¬(sendpageRet ret errno).1.toInt < 0 := by
  rw [sendpageRet]
  split
  next => exact lt_irrefl 0
  next hret => exact hret

theorem mapper_rejected (h : Rejected m base i) (errno : ℤ) :
    mapper k m base as i errno = (some (ENOEXEC, errno), []) := by
  rw [mapper]
  rcases h with h | h
  · rw [if_pos h]
  · have hne : ¬(phdr m base i).type = PT_DYNAMIC := by
      rw [h]
      decide
    rw [if_neg hne, if_pos h]

/-- A header of another kind. -/
theorem mapper_other (h : ¬Rejected m base i) (hload : (phdr m base i).type ≠ PT_LOAD) (errno : ℤ) :
    mapper k m base as i errno = (some (0, errno), []) := by
  rw [Rejected, not_or] at h
  rw [mapper, if_neg h.1, if_neg h.2, if_pos hload]

/-- The branch of `mapper` for a segment. -/
theorem not_rejected (hload : (phdr m base i).type = PT_LOAD) : ¬Rejected m base i := by
  rw [Rejected, hload]
  decide

/-- A copy that kills the caller comes before the segment is sent. -/
theorem mapper_faults (h : Faults k m base i) (has : as ≠ 0) (errno : ℤ) :
    (mapper k m base as i errno).1 = none ∧
      ∀ c ∈ (mapper k m base as i errno).2, ¬c.Refused as := by
  obtain ⟨hload, hsize, hpage⟩ := h
  have hnot := not_rejected hload
  rw [Rejected, not_or] at hnot
  rw [← fst_sendpageRet _ errno] at hpage
  rw [mapper, if_neg hnot.1, if_neg hnot.2, if_neg (not_not.2 hload)]
  rcases hown : sendpageRet (k.own i) errno with ⟨page, errno'⟩
  rw [hown] at hpage
  dsimp only at hpage ⊢
  rw [if_pos ⟨hsize, hpage⟩]
  refine ⟨rfl, fun c hc => ?_⟩
  rcases List.mem_cons.1 hc with rfl | hc
  · exact fun hrefused => has hrefused.1.symm
  · rw [List.mem_singleton.1 hc]
    exact not_false

/-- `mapper` goes on whether a segment is refused or not. -/
theorem mapper_passes (hr : ¬Rejected m base i) (hf : ¬Faults k m base i)
    (has : as ≠ 0) (errno : ℤ) :
    (∃ errno', (mapper k m base as i errno).1 = some (0, errno')) ∧
      ((∃ c ∈ (mapper k m base as i errno).2, c.Refused as) ↔
        (phdr m base i).type = PT_LOAD ∧ (k.map i).toInt < 0) := by
  by_cases hload : (phdr m base i).type = PT_LOAD
  · rw [Rejected, not_or] at hr
    rw [Faults, ← fst_sendpageRet _ errno, and_iff_right hload] at hf
    rw [mapper, if_neg hr.1, if_neg hr.2, if_neg (not_not.2 hload)]
    rcases hown : sendpageRet (k.own i) errno with ⟨page, errno'⟩
    rw [hown] at hf
    dsimp only at hf ⊢
    rw [if_neg hf, if_neg (toInt_sendpageRet _ _)]
    refine ⟨⟨_, rfl⟩, ?_⟩
    constructor
    · rintro ⟨c, hc, hrefused⟩
      simp only [List.cons_append, List.nil_append, List.mem_cons, List.not_mem_nil, or_false] at hc
      rcases hc with rfl | rfl | rfl
      · exact absurd hrefused.1.symm has
      · exact hrefused.elim
      · exact ⟨hload, hrefused.2⟩
    · rintro ⟨-, hneg⟩
      exact ⟨_, List.mem_append_right _ List.mem_cons_self, rfl, hneg⟩
  · rw [mapper_other hr hload]
    refine ⟨⟨errno, rfl⟩, ?_⟩
    exact iff_of_false (fun ⟨c, hc, _⟩ => nomatch hc) fun h => hload h.1

/-! ## All headers -/

/-- The loop goes on behind a header that passes. -/
theorem foreach_passes (hr : ¬Rejected m base i) (hf : ¬Faults k m base i) (has : as ≠ 0) (n : ℕ)
    (errno : ℤ) : ∃ errno',
      (elfForeachPh (mapper k m base as) (n + 1) i errno).1 =
        (elfForeachPh (mapper k m base as) n (i + 1) errno').1 ∧
      (elfForeachPh (mapper k m base as) (n + 1) i errno).2 = (mapper k m base as i errno).2 ++
        (elfForeachPh (mapper k m base as) n (i + 1) errno').2 := by
  obtain ⟨⟨errno', hfst⟩, -⟩ := mapper_passes hr hf has errno
  refine ⟨errno', ?_⟩
  rw [elfForeachPh]
  generalize mapper k m base as i errno = r at hfst ⊢
  obtain ⟨ret, calls⟩ := r
  dsimp only at hfst
  subst hfst
  exact ⟨rfl, rfl⟩

theorem foreach_rejected (hr : Rejected m base i) (n : ℕ) (errno : ℤ) :
    elfForeachPh (mapper k m base as) (n + 1) i errno = (some (ENOEXEC, errno), []) := by
  rw [elfForeachPh, mapper_rejected hr]
  rfl

theorem foreach_faults (hf : Faults k m base i) (has : as ≠ 0) (n : ℕ) (errno : ℤ) :
    (elfForeachPh (mapper k m base as) (n + 1) i errno).1 = none ∧
      ∀ c ∈ (elfForeachPh (mapper k m base as) (n + 1) i errno).2, ¬c.Refused as := by
  obtain ⟨hfst, hcalls⟩ := mapper_faults hf has errno
  rw [elfForeachPh]
  generalize mapper k m base as i errno = r at hfst hcalls ⊢
  obtain ⟨ret, calls⟩ := r
  dsimp only at hfst hcalls
  subst hfst
  exact ⟨rfl, hcalls⟩

/-- A header that is rejected in time makes the loop fail. -/
theorem foreach_eq_rejected (has : as ≠ 0) (errno : ℤ)
    (h : ∃ d < n, Rejected m base (i + d) ∧ ∀ e < d, ¬Faults k m base (i + e)) :
    ∃ ret errno', ret ≠ 0 ∧
      (elfForeachPh (mapper k m base as) n i errno).1 = some (ret, errno') := by
  induction n generalizing i errno with
  | zero =>
    obtain ⟨d, hd, -⟩ := h
    omega
  | succ n ih =>
    by_cases hr : Rejected m base i
    · exact ⟨ENOEXEC, errno, by decide, by rw [foreach_rejected hr]⟩
    rcases Nat.exists_lt_succ_left.1 h with ⟨hrej, -⟩ | ⟨d, hd, hrej, hfaults⟩
    · exact absurd hrej hr
    have hf : ¬Faults k m base i := hfaults 0 (Nat.succ_pos d)
    obtain ⟨errno', hfst, -⟩ := foreach_passes hr hf has n errno
    rw [hfst]
    refine ih errno' ⟨d, hd, ?_, fun e he => ?_⟩
    · rw [Nat.succ_add_eq_add_succ]
      exact hrej
    · rw [Nat.succ_add_eq_add_succ]
      exact hfaults (e + 1) (Nat.succ_lt_succ he)

/-- Without one, a copy may kill the caller. -/
theorem foreach_eq_none (has : as ≠ 0) (errno : ℤ)
    (h : ¬∃ d < n, Rejected m base (i + d) ∧ ∀ e < d, ¬Faults k m base (i + e))
    (hfault : ∃ d < n, Faults k m base (i + d)) :
    (elfForeachPh (mapper k m base as) n i errno).1 = none := by
  induction n generalizing i errno with
  | zero =>
    obtain ⟨d, hd, -⟩ := hfault
    omega
  | succ n ih =>
    by_cases hf : Faults k m base i
    · exact (foreach_faults hf has n errno).1
    have hr : ¬Rejected m base i := fun hr => h ⟨0, Nat.succ_pos n, hr, fun e he => by omega⟩
    obtain ⟨errno', hfst, -⟩ := foreach_passes hr hf has n errno
    rw [hfst]
    refine ih errno' (fun hrest => h ?_) ?_
    · obtain ⟨d, hd, hrej, hfaults⟩ := hrest
      refine ⟨d + 1, Nat.succ_lt_succ hd, ?_, ?_⟩
      · rwa [← Nat.succ_add_eq_add_succ]
      · refine Nat.forall_lt_succ_left.2 ⟨hf, fun e he => ?_⟩
        rw [← Nat.succ_add_eq_add_succ]
        exact hfaults e he
    · rcases Nat.exists_lt_succ_left.1 hfault with hzero | ⟨d, hd, hfaults⟩
      · exact absurd hzero hf
      · refine ⟨d, hd, ?_⟩
        rwa [Nat.succ_add_eq_add_succ]

/-- Headers that all pass. -/
theorem foreach_eq_zero (has : as ≠ 0) (errno : ℤ)
    (h : ∀ d < n, ¬Rejected m base (i + d) ∧ ¬Faults k m base (i + d)) :
    ∃ errno', (elfForeachPh (mapper k m base as) n i errno).1 = some (0, errno') := by
  induction n generalizing i errno with
  | zero => exact ⟨errno, rfl⟩
  | succ n ih =>
    obtain ⟨hfirst, hrest⟩ := Nat.forall_lt_succ_left.1 h
    rw [Nat.add_zero] at hfirst
    obtain ⟨errno', hfst, -⟩ := foreach_passes hfirst.1 hfirst.2 has n errno
    rw [hfst]
    refine ih errno' fun d hd => ?_
    rw [Nat.succ_add_eq_add_succ]
    exact hrest d hd

/-- The segments that are refused. -/
theorem exists_refused_iff (has : as ≠ 0) (errno : ℤ) :
    (∃ c ∈ (elfForeachPh (mapper k m base as) n i errno).2, c.Refused as) ↔
      ∃ d < n, (phdr m base (i + d)).type = PT_LOAD ∧ (k.map (i + d)).toInt < 0 ∧
        ∀ e ≤ d, ¬Rejected m base (i + e) ∧ ¬Faults k m base (i + e) := by
  induction n generalizing i errno with
  | zero => exact iff_of_false (fun ⟨c, hc, _⟩ => nomatch hc) fun ⟨d, hd, _⟩ => nomatch hd
  | succ n ih =>
    by_cases hr : Rejected m base i
    · rw [foreach_rejected hr]
      refine iff_of_false (fun ⟨c, hc, _⟩ => nomatch hc) fun ⟨d, _, _, _, hpass⟩ => ?_
      exact (hpass 0 (Nat.zero_le d)).1 hr
    by_cases hf : Faults k m base i
    · have hnot := (foreach_faults hf has n errno).2
      refine iff_of_false (fun ⟨c, hc, hrefused⟩ => hnot c hc hrefused)
        fun ⟨d, _, _, _, hpass⟩ => ?_
      exact (hpass 0 (Nat.zero_le d)).2 hf
    obtain ⟨errno', -, hsnd⟩ := foreach_passes hr hf has n errno
    have hhead := (mapper_passes hr hf has errno).2
    rw [hsnd, Nat.exists_lt_succ_left]
    simp only [List.mem_append, or_and_right, exists_or]
    rw [hhead, ih]
    refine or_congr ?_ (exists_congr fun d => and_congr_right fun _ => ?_)
    · rw [Nat.add_zero]
      refine and_congr_right fun _ => (and_iff_left fun e he => ?_).symm
      rw [Nat.le_zero.1 he]
      exact ⟨hr, hf⟩
    · rw [Nat.succ_add_eq_add_succ]
      refine and_congr_right fun _ => and_congr_right fun _ => ?_
      constructor
      · intro hpass e he
        cases e with
        | zero => exact ⟨hr, hf⟩
        | succ e =>
          have := hpass e (Nat.le_of_succ_le_succ he)
          rwa [Nat.succ_add_eq_add_succ] at this
      · intro hpass e he
        rw [Nat.succ_add_eq_add_succ]
        exact hpass (e + 1) (Nat.succ_le_succ he)

end mapper

/-! ## All of `execvm` -/

section execvm

variable {k : Kernel} {m : ℕ → UInt8} {base : BitVec 64} {as : ℤ}

/-- The visitors' calls are the loop's. -/
theorem foreach_calls {fn : ℕ → ℤ → Option (ℤ × ℤ) × List Call} {P : Call → Prop}
    (h : ∀ i errno, ∀ c ∈ (fn i errno).2, P c) (n i : ℕ) (errno : ℤ) :
    ∀ c ∈ (elfForeachPh fn n i errno).2, P c := by
  induction n generalizing i errno with
  | zero => exact fun c hc => nomatch hc
  | succ n ih =>
    intro c hc
    have hfn := h i errno
    rw [elfForeachPh] at hc
    generalize fn i errno = r at hfn hc
    obtain ⟨ret, calls⟩ := r
    cases ret with
    | none => exact hfn c hc
    | some r =>
      obtain ⟨ret, errno'⟩ := r
      dsimp only at hfn hc
      split at hc
      · exact hfn c hc
      · rcases List.mem_append.1 hc with hc | hc
        · exact hfn c hc
        · exact ih _ _ c hc

/-- `mapper` destroys nothing. -/
theorem mapper_ne_asdestroy (i : ℕ) (errno as' : ℤ) :
    ∀ c ∈ (mapper k m base as i errno).2, c ≠ .asdestroy as' := by
  intro c hc heq
  subst heq
  by_cases hr : Rejected m base i
  · rw [mapper_rejected hr] at hc
    exact nomatch hc
  by_cases hload : (phdr m base i).type = PT_LOAD
  · rw [Rejected, not_or] at hr
    rw [mapper, if_neg hr.1, if_neg hr.2, if_neg (not_not.2 hload)] at hc
    generalize sendpageRet (k.own i) errno = own at hc
    obtain ⟨page, errno'⟩ := own
    dsimp only at hc
    split at hc
    · simp at hc
    · split at hc
      · simp at hc
      · simp at hc
  · rw [mapper_other hr hload] at hc
    exact nomatch hc

/-- `startTask` returns only with the error of `create_task`, and destroys nothing. -/
theorem startTask_spec (k : Kernel) (m : ℕ → UInt8) (base : BitVec 64) (as : ℤ) (cwd : CString)
    (argv envp : Option (List CString)) (errno : ℤ) :
    (startTask k m base as cwd argv envp errno).1 =
        (if (sendpageRet k.args 0).1 = 0 ∨ k.argsFault then .killed
        else if isErr k.createTask then .returned (-1) (-k.createTask.toInt) else .replaced) ∧
      ∀ as', .asdestroy as' ∉ (startTask k m base as cwd argv envp errno).2 := by
  rw [← fst_sendpageRet _ errno, startTask]
  generalize sendpageRet k.args errno = args
  obtain ⟨page, errno'⟩ := args
  dsimp only
  split
  next => simp
  next =>
    split
    next herr =>
      rw [syscallRet, if_pos herr]
      simp
    next => simp

/-- Nothing is refused if and only if every segment is mapped. -/
theorem allMapped_iff (hload : elfLoad k m base = some true) (has : as ≠ 0) (errno : ℤ) :
    AllMapped k m base ↔ ¬RefusesSegment k m base as errno := by
  rw [RefusesSegment, and_iff_right hload, loadSegments, exists_refused_iff has]
  simp only [Nat.zero_add]
  constructor
  · rintro hall ⟨d, hd, htype, hneg, hpass⟩
    exact absurd (hall d hd htype hpass) (not_le.2 hneg)
  · intro hnone i hi htype hpass
    by_contra hneg
    exact hnone ⟨i, hi, htype, not_le.1 hneg, hpass⟩

theorem elfLoad_of_isElf (hinfo : k.info ≠ 0) (helf : isElf m base = true) :
    elfLoad k m base = some true := by
  rw [elfLoad, if_neg hinfo, helf]

/-- An image that `elf_load` does not take leaves the address space behind. -/
theorem execvm_not_elf (hinfo : k.info ≠ 0) (helf : isElf m base = false) (cwd : CString)
    (argv envp : Option (List CString)) (errno : ℤ) :
    execvm k m base cwd argv envp errno = (.returned (-1) ENOEXEC, [.asnew 0]) := by
  rw [execvm, elfLoad, if_neg hinfo, helf]

section loaded

variable (hnew : isErr k.asnew = false) (hload : elfLoad k m base = some true)
  (cwd : CString) (argv envp : Option (List CString)) (errno : ℤ)
include hnew hload

/-- A header that is rejected in time. -/
theorem execvm_rejected (has : k.asnew.toInt ≠ 0) (h : RejectedInTime k m base) :
    (execvm k m base cwd argv envp errno).1 = .returned (-1) E2BIG ∧
      .asdestroy k.asnew.toInt ∈ (execvm k m base cwd argv envp errno).2 := by
  have hrej : ∃ d < phnum m base, Rejected m base (0 + d) ∧ ∀ e < d, ¬Faults k m base (0 + e) := by
    simp only [Nat.zero_add]
    exact h
  obtain ⟨ret, errno', hret, hfst⟩ := foreach_eq_rejected has errno hrej
  have hseg : (loadSegments k m base k.asnew.toInt errno).1 = some (ret, errno') := hfst
  rw [execvm, syscallRet, if_neg (Bool.eq_false_iff.1 hnew), hload]
  dsimp only
  generalize loadSegments k m base k.asnew.toInt errno = r at hseg ⊢
  obtain ⟨res, calls⟩ := r
  dsimp only at hseg
  subst hseg
  dsimp only
  rw [if_pos hret]
  exact ⟨rfl, List.mem_append_right _ List.mem_cons_self⟩

/-- A copy that kills the caller. -/
theorem execvm_faults (has : k.asnew.toInt ≠ 0) (hrej : ¬RejectedInTime k m base)
    (h : ∃ i < phnum m base, Faults k m base i) :
    (execvm k m base cwd argv envp errno).1 = .killed := by
  have hseg : (loadSegments k m base k.asnew.toInt errno).1 = none := by
    refine foreach_eq_none has errno (fun h => hrej ?_) ?_
    · simp only [Nat.zero_add] at h
      exact h
    · simp only [Nat.zero_add]
      exact h
  rw [execvm, syscallRet, if_neg (Bool.eq_false_iff.1 hnew), hload]
  dsimp only
  generalize loadSegments k m base k.asnew.toInt errno = r at hseg ⊢
  obtain ⟨res, calls⟩ := r
  dsimp only at hseg
  subst hseg
  rfl

/-- All headers pass. -/
theorem execvm_passes (has : k.asnew.toInt ≠ 0)
    (h : ∀ i < phnum m base, ¬Rejected m base i ∧ ¬Faults k m base i) :
    (execvm k m base cwd argv envp errno).1 =
        (if (sendpageRet k.args 0).1 = 0 ∨ k.argsFault then .killed
        else if isErr k.createTask then .returned (-1) (-k.createTask.toInt) else .replaced) ∧
      ∀ as', .asdestroy as' ∉ (execvm k m base cwd argv envp errno).2 := by
  have hpass : ∀ d < phnum m base, ¬Rejected m base (0 + d) ∧ ¬Faults k m base (0 + d) := by
    simpa only [Nat.zero_add] using h
  obtain ⟨errno', hfst⟩ := foreach_eq_zero has errno hpass
  have hseg : (loadSegments k m base k.asnew.toInt errno).1 = some (0, errno') := hfst
  have hcalls (as' : ℤ) : ∀ c ∈ (loadSegments k m base k.asnew.toInt errno).2, c ≠ .asdestroy as' :=
    foreach_calls (fun i e => mapper_ne_asdestroy i e as') (phnum m base) 0 errno
  rw [execvm, syscallRet, if_neg (Bool.eq_false_iff.1 hnew), hload]
  dsimp only
  generalize loadSegments k m base k.asnew.toInt errno = r at hseg hcalls ⊢
  obtain ⟨res, calls⟩ := r
  dsimp only at hseg hcalls
  subst hseg
  dsimp only
  rw [if_neg (not_not.2 rfl)]
  obtain ⟨hout, hnot⟩ := startTask_spec k m base k.asnew.toInt cwd argv envp errno'
  refine ⟨hout, fun as' hmem => ?_⟩
  rcases List.mem_append.1 hmem with hmem | hmem
  · rcases List.mem_cons.1 hmem with heq | hmem
    · cases heq
    · exact hcalls as' _ hmem rfl
  · exact hnot as' hmem

/-- Where `execvm` does not return -1, every segment has to be mapped. -/
theorem reports_iff_allMapped (has : k.asnew.toInt ≠ 0)
    (hout : ∀ e, (execvm k m base cwd argv envp errno).1 ≠ .returned (-1) e) :
    Reports k m base cwd argv envp errno ↔ AllMapped k m base := by
  rw [allMapped_iff hload has errno]
  constructor
  · intro hreports hrefused
    obtain ⟨e, hret⟩ := hreports.refuses hnew hrefused
    exact hout e hret
  · exact fun hnone => ⟨fun _ e hret => absurd hret (hout e),
      fun _ hrefused => absurd hrefused hnone⟩

end loaded

/-- **When `execvm` reports what it cannot load.** -/
theorem reports_iff (k : Kernel) (m : ℕ → UInt8) (base : BitVec 64) (cwd : CString)
    (argv envp : Option (List CString)) (errno : ℤ) :
    Reports k m base cwd argv envp errno ↔ Loads k m base := by
  rw [Loads]
  by_cases hnew : isErr k.asnew = true
  · refine iff_of_true ⟨fun hok => ?_, fun hok => ?_⟩ (.inl hnew) <;>
      exact absurd hnew (Bool.eq_false_iff.1 hok)
  rw [or_iff_right hnew]
  rw [Bool.not_eq_true] at hnew
  by_cases hinfo : k.info = 0
  · have hnone : elfLoad k m base = none := if_pos hinfo
    refine iff_of_true ⟨fun _ e hret => ?_, fun _ hrefused => ?_⟩ (.inl hinfo)
    · rw [execvm, hnone] at hret
      cases hret
    · rw [RefusesSegment, hnone] at hrefused
      cases hrefused.1
  rw [or_iff_right hinfo]
  cases helf : isElf m base with
  | false =>
    have heq := execvm_not_elf hinfo helf cwd argv envp errno
    refine iff_of_false (fun hreports => ?_) fun hloads => Bool.false_ne_true hloads.1
    have hmem := hreports.destroys hnew ENOEXEC (by rw [heq])
    rw [heq, List.mem_singleton] at hmem
    cases hmem
  | true =>
    have hload := elfLoad_of_isElf hinfo helf
    have has : k.asnew.toInt ≠ 0 := (k.handle hnew).1.ne'
    rw [and_iff_right rfl]
    by_cases hrej : RejectedInTime k m base
    · obtain ⟨hout, hmem⟩ := execvm_rejected hnew hload cwd argv envp errno has hrej
      exact iff_of_true ⟨fun _ _ _ => hmem, fun _ _ => ⟨_, hout⟩⟩ (.inl hrej)
    rw [or_iff_right hrej]
    by_cases hfault : ∃ i < phnum m base, Faults k m base i
    · have hout := execvm_faults hnew hload cwd argv envp errno has hrej hfault
      rw [reports_iff_allMapped hnew hload cwd argv envp errno has (by simp [hout])]
      exact (and_iff_left fun _ => .inl hfault).symm
    have hpass : ∀ i < phnum m base, ¬Rejected m base i ∧ ¬Faults k m base i := fun i hi =>
      ⟨fun hr => hrej ⟨i, hi, hr, fun j hj hf => hfault ⟨j, by omega, hf⟩⟩,
        fun hf => hfault ⟨i, hi, hf⟩⟩
    obtain ⟨hout, hnot⟩ := execvm_passes hnew hload cwd argv envp errno has hpass
    by_cases hkill : (sendpageRet k.args 0).1 = 0 ∨ k.argsFault
    · rw [if_pos hkill] at hout
      rw [reports_iff_allMapped hnew hload cwd argv envp errno has (by simp [hout])]
      exact (and_iff_left fun _ => .inr hkill).symm
    rw [if_neg hkill] at hout
    by_cases htask : isErr k.createTask = true
    · -- `create_task` fails, and the address space is left behind
      rw [if_pos htask] at hout
      refine iff_of_false (fun hreports => hnot _ (hreports.destroys hnew _ hout)) fun hloads => ?_
      rcases hloads.2 htask with hf | hk
      · exact hfault hf
      · exact hkill hk
    · rw [if_neg htask] at hout
      rw [reports_iff_allMapped hnew hload cwd argv envp errno has (by simp [hout])]
      exact (and_iff_left fun h => absurd h htask).symm

/-- A kernel that refuses the second segment, as `insert_vma_to_vaddr` does for a page that is
taken, and nothing else. -/
def refusing : Kernel where
  asnew := 1
  handle := fun _ => by decide
  info := 0x10018
  own := fun i => 0x20000 + 0x1000 * BitVec.ofNat 64 i
  map := fun i => if i = 1 then -12 else 0x400000
  faults := fun _ => false
  args := 0x30000
  argsFault := false
  stack := 0x500000
  argsMap := 0x600000
  createTask := 0

/-- An image at 0x100000 with segments at 0x400000 and 0x400800 of 16 bytes each. -/
def samePage (a : ℕ) : UInt8 :=
  match a - 0x100000 with
  | 0 => 0x7f | 1 => 0x45 | 2 => 0x4c | 3 => 0x46 | 4 => 2 | 5 => 1 -- `e_ident`
  | 32 => 64 | 56 => 2 -- `e_phoff`, `e_phnum`
  | 64 => 1 | 82 => 0x40 | 96 => 16 | 104 => 16
  | 120 => 1 | 137 => 8 | 138 => 0x40 | 152 => 16 | 160 => 16
  | _ => 0

/-- The program is replaced by one without its second segment; and an image without the magic
number leaves an address space behind. -/
theorem not_reports : ¬Reports refusing samePage 0x100000 ⟨[47], by simp⟩ none none 0 ∧
    ¬Reports refusing (fun _ => 0) 0x100000 ⟨[47], by simp⟩ none none 0 := by
  constructor
  · intro hreports
    have hcall : .sendpage 1 0x21000 0x400000 0x1000 (-12) ∈
        (loadSegments refusing samePage 0x100000 1 0).2 := by decide +kernel
    have hrefused : Call.Refused 1 (.sendpage 1 0x21000 0x400000 0x1000 (-12)) :=
      ⟨rfl, by decide⟩
    obtain ⟨e, hret⟩ := hreports.refuses (by decide) ⟨by decide +kernel, _, hcall, hrefused⟩
    have hout : (execvm refusing samePage 0x100000 ⟨[47], by simp⟩ none none 0).1 =
        .replaced := by decide +kernel
    rw [hout] at hret
    cases hret
  · intro hreports
    have hout : execvm refusing (fun _ => 0) 0x100000 ⟨[47], by simp⟩ none none 0 =
        (.returned (-1) ENOEXEC, [.asnew 0]) := by decide +kernel
    have hmem := hreports.destroys (by decide) ENOEXEC (by rw [hout])
    rw [hout, List.mem_singleton] at hmem
    cases hmem

end execvm

end SadOS.Libc.Elf
