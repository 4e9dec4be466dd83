import SadOS.Fs.Server
import SadOS.Libc.Cwd

/-!
# Opening files and directories

`open` and `opendir` of `libc/rw.c` put a relative path behind the working directory and
send it to the file server.  `open` puts a slash between them where the directory has none
at its end, and does not count it in the size of its block; `opendir` puts none.

What `malloc`, the kernel and the file server answer is a parameter.

## Main definitions

* `open'`, `opendir` — the functions, with `transact`, the part that they share.
* `SameName` — both stay in their blocks and send the same name.
* `Agrees` — the directories and paths for which they do.
* `sameName_iff` — they do for no others.
-/

namespace SadOS.Libc

/-! ## The functions -/

/-- What the calls of one `open` return: the bytes of the two blocks of `malloc`, the
numbers, and the error in the response. -/
structure Calls where
  allocated : ℤ → UInt8
  req : ℤ → UInt8
  portConnect : ℤ
  waitOn : ℤ
  request : ℤ
  waitOnCookie : ℤ
  getResponse : ℤ
  err : ℤ

/-- A request: the header, the bytes behind it, and the length of both. -/
structure OpenRequest where
  header : Fs.IoReq
  data : ByteMem
  len : ℕ

inductive Outcome
  | handle (h : ℤ)
  | failed (ret : ℤ)
  | error (errno : ℤ)

structure Opened where
  ret : ℤ
  errno : Option ℤ
  request : Option OpenRequest

def strcat (m : ByteMem) (append : List UInt8) : Option ByteMem := do
  let dst ← m.cstring 0
  strcpy m dst.length append

/-- The block of `open` for a relative path. -/
def openAllocated (s : CwdBuffers) (bytes : ℤ → UInt8) (path : List UInt8) : Option ByteMem := do
  let cwd ← s.cwd.cstring 0
  let allocated ← strcpy ⟨0, cwd.length + path.length + 1, bytes⟩ 0 cwd
  let last ← s.cwd.load (cwd.length - 1)
  if last ≠ slash then do
    let allocated ← strcat allocated [slash]
    strcpy allocated (cwd.length + 1) path
  else strcpy allocated cwd.length path

/-- The block of `opendir` for a relative path. -/
def opendirAllocated (s : CwdBuffers) (bytes : ℤ → UInt8) (path : List UInt8) :
    Option ByteMem := do
  let cwd ← s.cwd.cstring 0
  let allocated ← strcpy ⟨0, cwd.length + path.length + 1, bytes⟩ 0 cwd
  strcpy allocated cwd.length path

/-- The path that is sent: the one given, or the string in the block. -/
def pathSent (path : List UInt8) (allocated : Option ByteMem) : Option (List UInt8) :=
  if path.head? ≠ some slash then allocated.bind (·.cstring 0) else some path

def openRequest (bytes : ℤ → UInt8) (type flags : ℤ) (path : List UInt8) : Option OpenRequest := do
  let data ← strcpy ⟨0, path.length + 1, bytes⟩ 0 path
  return ⟨⟨type, flags, path.length⟩, data, 16 + path.length + 1⟩

/-- From `port_connect` on, `open` and `opendir` differ in what they return. -/
def transact (c : Calls) (type flags : ℤ) (path : List UInt8) :
    Option (Outcome × Option OpenRequest) :=
  if c.portConnect < 0 then some (.failed c.portConnect, none)
  else if c.waitOn < 0 then some (.failed c.waitOn, none)
  else do
    let req ← openRequest c.req type flags path
    if c.request < 0 then return (.failed c.request, some req)
    else if c.waitOnCookie < 0 then return (.failed c.waitOnCookie, some req)
    else if c.getResponse < 0 then return (.failed c.getResponse, some req)
    else if c.err ≠ 0 then return (.error c.err, some req)
    else return (.handle c.portConnect, some req)

/-- `open`, whose name is a word of Lean. -/
def open' (s : CwdBuffers) (c : Calls) (path : List UInt8) (flags : ℤ) : Option Opened := do
  let path ← pathSent path (openAllocated s c.allocated path)
  let (res, request) ← transact c Fs.IO_OPEN flags path
  match res with
  | .handle h => return ⟨h, none, request⟩
  | .failed ret => return ⟨ret, none, request⟩
  | .error errno => return ⟨-1, some errno, request⟩

/-- `opendir`, whose errors are null pointers. -/
def opendir (s : CwdBuffers) (c : Calls) (path : List UInt8) : Option Opened := do
  let path ← pathSent path (opendirAllocated s c.allocated path)
  let (res, request) ← transact c Fs.IO_OPENDIR 0 path
  match res with
  | .handle h => return ⟨h, none, request⟩
  | .failed _ => return ⟨0, none, request⟩
  | .error errno => return ⟨0, some errno, request⟩

/-! ## The name sent -/

/-- Whatever their calls return, both functions stay in their blocks, and the names that
they send are the same. -/
def SameName (s : CwdBuffers) (path : CString) : Prop :=
  ∀ flags c c', ∃ o d, open' s c path.bytes flags = some o ∧ opendir s c' path.bytes = some d ∧
    ∀ r ∈ o.request, ∀ r' ∈ d.request,
      ∃ name, r.data.cstring 0 = some name ∧ r'.data.cstring 0 = some name

/-- The length of the name is an `int`, and the directory ends with a slash.  A path of
`2 ^ 32 - 1` characters is not copied, which leaves the name of the directory. -/
def Agrees (t path : List UInt8) : Prop :=
  if path.head? = some slash then path.length + 1 < 2 ^ 31
  else t.getLast? = some slash ∧
    (t.length + path.length + 1 < 2 ^ 31 ∨ 2 ^ 32 ∣ path.length + 1)

section strcpy

variable {m m' : ByteMem} {a : ℤ} {u src : List UInt8}

theorem strcpy_none (h : 2 ^ 31 ≤ (src.length + 1) % 2 ^ 32) : strcpy m a src = none := by
  rw [strcpy]
  exact if_neg (Nat.not_lt.2 h)

/-- A long string is cut off. -/
theorem strcpy_part (h : (src.length + 1) % 2 ^ 32 < 2 ^ 31) (hlen : 2 ^ 32 ≤ src.length + 1) :
    strcpy m a src = m.storeAll a (src.take ((src.length + 1) % 2 ^ 32)) := by
  have hle : (src.length + 1) % 2 ^ 32 ≤ src.length := by omega
  rw [strcpy]
  simp only [if_pos h, List.take_append_of_le_length hle]

/-- The zero behind a string is the only one, where none but its first byte was zero. -/
theorem eq_of_storeAll_zero (h : m.storeAll a (u ++ [0]) = some m') (hu : ∀ x ∈ u, x ≠ 0)
    (hm : ∀ x, m.bytes x = 0 → x = a) {x : ℤ} (hx : m'.bytes x = 0) : x = a + u.length := by
  induction u generalizing m a with
  | nil =>
    rw [List.nil_append, ByteMem.storeAll] at h
    split at h
    · cases h
      by_contra hne
      rw [List.length_nil, Nat.cast_zero, add_zero] at hne
      simp only [Function.update_of_ne hne] at hx
      exact hne (hm x hx)
    · cases h
  | cons y u ih =>
    rw [List.cons_append, ByteMem.storeAll] at h
    split at h
    · have hstep : ∀ z, Function.update m.bytes a y z = 0 → z = a + 1 := by
        intro z hz
        by_cases hza : z = a
        · subst hza
          rw [Function.update_self] at hz
          exact absurd hz (hu y List.mem_cons_self)
        · rw [Function.update_of_ne hza] at hz
          exact absurd (hm z hz) hza
      have heq := ih h (fun z hz => hu z (List.mem_cons_of_mem y hz)) hstep
      rw [List.length_cons]
      push_cast
      omega
    · cases h

/-- No zero is left where the only one is stored over. -/
theorem ne_zero_of_storeAll (h : m.storeAll a u = some m') (hu : ∀ x ∈ u, x ≠ 0) (hne : u ≠ [])
    (hm : ∀ x, m.bytes x = 0 → x = a) (x : ℤ) : m'.bytes x ≠ 0 := by
  have hpos : 0 < u.length := List.length_pos_iff.2 hne
  rcases ByteMem.bytes_of_storeAll h x with ⟨-, -, hmem⟩ | ⟨hout, heq⟩
  · exact hu _ hmem
  · rw [heq]
    intro hzero
    have hxa := hm x hzero
    omega

end strcpy

section transact

variable {type flags : ℤ} {path : List UInt8} {r : OpenRequest}

/-- A name in its own block. -/
theorem openRequest_fits (bytes : ℤ → UInt8) (type flags : ℤ) (hpath : ∀ x ∈ path, x ≠ 0)
    (hlen : path.length + 1 < 2 ^ 31) :
    ∃ r, openRequest bytes type flags path = some r ∧ r.data.cstring 0 = some path := by
  have hend : (0 : ℤ) + (path ++ [0]).length ≤ ((path.length : ℤ) + 1) := by
    rw [List.length_append, List.length_singleton]
    push_cast
    omega
  obtain ⟨data, hdata, -, hholds⟩ := ByteMem.storeAll_spec (m := ⟨0, path.length + 1, bytes⟩)
    (a := 0) (l := path ++ [0]) le_rfl hend
  rw [openRequest, strcpy_eq hlen, hdata]
  exact ⟨_, rfl, ByteMem.cstring_of_holds hholds hpath⟩

/-- A longer one does not end, in a block of ones. -/
theorem openRequest_cut (hpath : ∀ x ∈ path, x ≠ 0) (hlen : ¬path.length + 1 < 2 ^ 31)
    (hr : openRequest (fun _ => 1) type flags path = some r) : r.data.cstring 0 = none := by
  rw [openRequest] at hr
  obtain ⟨data, hdata, hr'⟩ := Option.bind_eq_some_iff.1 hr
  cases hr'
  by_cases hwrap : 2 ^ 31 ≤ (path.length + 1) % 2 ^ 32
  · rw [strcpy_none hwrap] at hdata
    cases hdata
  rw [strcpy_part (by omega) (by omega)] at hdata
  refine ByteMem.cstring_eq_none (fun x => ?_) 0
  rcases ByteMem.bytes_of_storeAll hdata x with ⟨-, -, hmem⟩ | ⟨-, heq⟩
  · exact hpath _ (List.mem_of_mem_take hmem)
  · rw [heq]
    exact (by decide : (1 : UInt8) ≠ 0)

theorem transact_fits (c : Calls) (type flags : ℤ) (hpath : ∀ x ∈ path, x ≠ 0)
    (hlen : path.length + 1 < 2 ^ 31) :
    ∃ res request, transact c type flags path = some (res, request) ∧
      ∀ r ∈ request, r.data.cstring 0 = some path := by
  obtain ⟨r, hr, hname⟩ := openRequest_fits c.req type flags hpath hlen
  rw [transact, hr]
  simp only [Option.bind_eq_bind, Option.bind_some, Option.pure_def]
  split_ifs <;> simp [hname]

end transact

section names

variable {s : CwdBuffers} {t path : List UInt8} {bytes : ℤ → UInt8}

/-- The directory at the start of a block for both. -/
structure Holding (m : ByteMem) (t : List UInt8) (n : ℕ) : Prop where
  holds : m.Holds 0 (t ++ [0])
  lo : m.lo = 0
  hi : m.hi = t.length + n + 1

theorem strcpy_cwd (h : IsCwd s t) (bytes : ℤ → UInt8) (n : ℕ) :
    ∃ m, strcpy ⟨0, t.length + n + 1, bytes⟩ 0 t = some m ∧ Holding m t n ∧
      ((∀ x, bytes x ≠ 0) → ∀ x, m.bytes x = 0 → x = t.length) := by
  have hend : (0 : ℤ) + (t ++ [0]).length ≤ (t.length : ℤ) + n + 1 := by
    rw [List.length_append, List.length_singleton]
    push_cast
    omega
  obtain ⟨m, hm, hsame, hholds⟩ := ByteMem.storeAll_spec (m := ⟨0, t.length + n + 1, bytes⟩)
    (a := 0) (l := t ++ [0]) le_rfl hend
  rw [strcpy_eq (length_lt_int h.text.length_lt)]
  refine ⟨m, hm, ⟨hholds, hsame.lo, hsame.hi⟩, fun hbytes x hx => ?_⟩
  have hzero := eq_of_storeAll_zero hm h.text.noNul (fun y hy => absurd hy (hbytes y)) hx
  rwa [zero_add] at hzero

theorem opendirAllocated_eq (h : IsCwd s t) : opendirAllocated s bytes path =
    (strcpy ⟨0, t.length + path.length + 1, bytes⟩ 0 t).bind fun m => strcpy m t.length path := by
  rw [opendirAllocated, h.text.cstring]
  rfl

/-- The last character of the directory. -/
theorem load_getLast (h : IsCwd s t) : s.cwd.load ((t.length : ℤ) - 1) = t.getLast? := by
  have htext := h.text
  rcases List.eq_nil_or_concat t with rfl | ⟨front, x, rfl⟩
  · exact absurd h.head (by simp)
  · rw [List.concat_eq_append] at htext ⊢
    have hlen : ((front ++ [x]).length : ℤ) - 1 = front.length := by
      rw [List.length_append, List.length_singleton]
      push_cast
      ring
    rw [hlen, htext.load_last, List.getLast?_concat]

/-- Behind a slash, both functions do the same. -/
theorem openAllocated_eq (h : IsCwd s t) (hlast : t.getLast? = some slash) :
    openAllocated s bytes path = opendirAllocated s bytes path := by
  have hload := (load_getLast h).trans hlast
  rw [openAllocated, opendirAllocated, h.text.cstring]
  simp only [Option.bind_eq_bind, Option.bind_some, hload, ne_eq, not_true_eq_false, if_false]

/-- Elsewhere, `open` puts one there first. -/
theorem openAllocated_ne (h : IsCwd s t) (hlast : t.getLast? ≠ some slash) :
    openAllocated s bytes path =
      (strcpy ⟨0, t.length + path.length + 1, bytes⟩ 0 t).bind fun m =>
        (strcat m [slash]).bind fun m => strcpy m (t.length + 1) path := by
  have hnil : t ≠ [] := fun hnil => by simpa [hnil] using h.head
  obtain ⟨x, hx⟩ : ∃ x, t.getLast? = some x := ⟨_, List.getLast?_eq_some_getLast hnil⟩
  have hload := (load_getLast h).trans hx
  have hne : x ≠ slash := fun heq => hlast (heq ▸ hx)
  rw [openAllocated, h.text.cstring]
  simp only [Option.bind_eq_bind, Option.bind_some, hload, ne_eq, hne, not_false_eq_true, if_true]

/-- A path that fits is put behind the directory. -/
theorem opendirAllocated_fits (h : IsCwd s t) (hpath : ∀ x ∈ path, x ≠ 0)
    (hlen : path.length + 1 < 2 ^ 31) :
    (opendirAllocated s bytes path).bind (·.cstring 0) = some (t ++ path) := by
  obtain ⟨m, hm, hold, -⟩ := strcpy_cwd h bytes path.length
  obtain ⟨m', hm', hholds, -⟩ := (ByteMem.holds_append.1 hold.holds).1.put (l := path ++ [0])
    hold.lo.le (by
      rw [hold.hi, List.length_append, List.length_singleton]
      push_cast
      omega)
  rw [zero_add] at hm'
  rw [opendirAllocated_eq h, hm, Option.bind_some, strcpy_eq hlen, hm', Option.bind_some]
  rw [← List.append_assoc] at hholds
  refine ByteMem.cstring_of_holds hholds fun x hx => ?_
  rcases List.mem_append.1 hx with hx | hx
  · exact h.text.noNul x hx
  · exact hpath x hx

theorem strcat_slash (h : IsCwd s t) {m : ByteMem} {n : ℕ} (hold : Holding m t n) :
    strcat m [slash] = m.storeAll t.length [slash, 0] := by
  have hlen : [slash].length + 1 < 2 ^ 31 := by decide
  rw [strcat, ByteMem.cstring_of_holds hold.holds h.text.noNul]
  exact strcpy_eq hlen

/-- `open` has no room for its slash. -/
theorem openAllocated_none (h : IsCwd s t) (hlast : t.getLast? ≠ some slash)
    (hlen : path.length + 1 < 2 ^ 31) : openAllocated s bytes path = none := by
  obtain ⟨m, hm, hold, -⟩ := strcpy_cwd h bytes path.length
  rw [openAllocated_ne h hlast, hm, Option.bind_some, strcat_slash h hold]
  cases hm₁ : m.storeAll t.length [slash, 0] with
  | none => rfl
  | some m₁ =>
    rw [Option.bind_some, strcpy_eq hlen]
    refine Option.eq_none_iff_forall_ne_some.2 fun m₂ hm₂ => ?_
    have hend := ByteMem.end_le_of_storeAll hm₂ (by simp)
    rw [ByteMem.hi_of_storeAll hm₁, hold.hi, List.length_append, List.length_singleton] at hend
    push_cast at hend
    omega

/-! ### Paths whose length is no `int` -/

theorem opendirAllocated_none (h : IsCwd s t) (hwrap : 2 ^ 31 ≤ (path.length + 1) % 2 ^ 32) :
    opendirAllocated s bytes path = none := by
  obtain ⟨m, hm, -⟩ := strcpy_cwd h bytes path.length
  rw [opendirAllocated_eq h, hm, Option.bind_some, strcpy_none hwrap]

/-- A path that is cut off does not end, in a block of ones. -/
theorem opendirAllocated_cut (h : IsCwd s t) (hpath : ∀ x ∈ path, x ≠ 0)
    (hpart : (path.length + 1) % 2 ^ 32 < 2 ^ 31) (hlen : 2 ^ 32 ≤ path.length + 1)
    (hne : (path.length + 1) % 2 ^ 32 ≠ 0) :
    (opendirAllocated s (fun _ => 1) path).bind (·.cstring 0) = none := by
  obtain ⟨m, hm, -, hzero⟩ := strcpy_cwd h (fun _ => 1) path.length
  rw [opendirAllocated_eq h, hm, Option.bind_some, strcpy_part hpart hlen]
  cases hm' : m.storeAll t.length (path.take ((path.length + 1) % 2 ^ 32)) with
  | none => rfl
  | some m' =>
    have htake : path.take ((path.length + 1) % 2 ^ 32) ≠ [] := by
      intro hnil
      have hcount := congrArg List.length hnil
      rw [List.length_take, List.length_nil] at hcount
      omega
    refine ByteMem.cstring_eq_none (ne_zero_of_storeAll hm' ?_ htake (hzero fun _ => by decide)) 0
    exact fun x hx => hpath x (List.mem_of_mem_take hx)

theorem strcpy_dvd {m : ByteMem} {a : ℤ} (hdvd : 2 ^ 32 ∣ path.length + 1) :
    strcpy m a path = some m := by
  have hmod : (path.length + 1) % 2 ^ 32 = 0 := Nat.mod_eq_zero_of_dvd hdvd
  have hle : 2 ^ 32 ≤ path.length + 1 := Nat.le_of_dvd (Nat.succ_pos _) hdvd
  rw [strcpy_part (by omega) hle, hmod]
  rfl

/-- A path that is not copied. -/
theorem opendirAllocated_dvd (h : IsCwd s t) (hdvd : 2 ^ 32 ∣ path.length + 1) :
    (opendirAllocated s bytes path).bind (·.cstring 0) = some t := by
  obtain ⟨m, hm, hold, -⟩ := strcpy_cwd h bytes path.length
  rw [opendirAllocated_eq h, hm, Option.bind_some, strcpy_dvd hdvd, Option.bind_some]
  exact ByteMem.cstring_of_holds hold.holds h.text.noNul

/-- Then `open` has room for its slash, and sends another name. -/
theorem openAllocated_dvd (h : IsCwd s t) (hlast : t.getLast? ≠ some slash)
    (hdvd : 2 ^ 32 ∣ path.length + 1) :
    (openAllocated s bytes path).bind (·.cstring 0) ≠ some t := by
  have hle : 2 ^ 32 ≤ path.length + 1 := Nat.le_of_dvd (Nat.succ_pos _) hdvd
  obtain ⟨m, hm, hold, -⟩ := strcpy_cwd h bytes path.length
  obtain ⟨m', hm', hholds, -⟩ := (ByteMem.holds_append.1 hold.holds).1.put (l := [slash, 0])
    hold.lo.le (by
      rw [hold.hi, List.length_cons, List.length_singleton]
      push_cast
      omega)
  rw [zero_add] at hm'
  rw [openAllocated_ne h hlast, hm, Option.bind_some, strcat_slash h hold, hm', Option.bind_some,
    strcpy_dvd hdvd, Option.bind_some]
  have hholds' : m'.Holds 0 ((t ++ [slash]) ++ [0]) := by simpa using hholds
  rw [ByteMem.cstring_of_holds hholds' fun x hx => ?_]
  · intro heq
    have hcount := congrArg List.length (Option.some.inj heq)
    rw [List.length_append, List.length_singleton] at hcount
    omega
  · rcases List.mem_append.1 hx with hx | hx
    · exact h.text.noNul x hx
    · rw [List.mem_singleton.1 hx]
      decide

end names

/-! ## Both names -/

section sameName

variable {s : CwdBuffers} {t : List UInt8}

theorem ne_zero_of_pathSent {path : CString} {allocated : Option ByteMem} {p : List UInt8}
    (h : pathSent path.bytes allocated = some p) : ∀ x ∈ p, x ≠ 0 := by
  rw [pathSent] at h
  split at h
  · obtain ⟨m, -, hp⟩ := Option.bind_eq_some_iff.1 h
    exact ByteMem.ne_zero_of_cstring hp
  · cases h
    exact path.noNul

/-- The calls of an `open` that reaches its end, with a block of ones for the request. -/
def Calls.plain (bytes : ℤ → UInt8) : Calls := ⟨bytes, fun _ => 1, 0, 0, 0, 0, 0, 0⟩

/-- Both names are the same, and their length is an `int`. -/
theorem sameName_iff_pathSent (path : CString) : SameName s path ↔ ∀ bytes bytes', ∃ p,
    pathSent path.bytes (openAllocated s bytes path.bytes) = some p ∧
      pathSent path.bytes (opendirAllocated s bytes' path.bytes) = some p ∧
      p.length + 1 < 2 ^ 31 := by
  constructor
  · intro hsame bytes bytes'
    obtain ⟨o, d, ho, hd, hname⟩ := hsame 0 (.plain bytes) (.plain bytes')
    rw [open'] at ho
    obtain ⟨p, hp, ho⟩ := Option.bind_eq_some_iff.1 ho
    rw [opendir] at hd
    obtain ⟨p', hp', hd⟩ := Option.bind_eq_some_iff.1 hd
    have hreach (type : ℤ) (q : List UInt8) (b : ℤ → UInt8) : transact (.plain b) type 0 q =
        (openRequest (fun _ => 1) type 0 q).map fun r => (.handle 0, some r) := by
      rw [transact, Calls.plain]
      simp only [lt_irrefl, if_false, ne_eq, not_true_eq_false]
      cases openRequest (fun _ => 1) type 0 q <;> rfl
    rw [hreach] at ho hd
    cases hr : openRequest (fun _ => 1) Fs.IO_OPEN 0 p with
    | none =>
      rw [hr] at ho
      cases ho
    | some r =>
      cases hr' : openRequest (fun _ => 1) Fs.IO_OPENDIR 0 p' with
      | none =>
        rw [hr'] at hd
        cases hd
      | some r' =>
        rw [hr] at ho
        rw [hr'] at hd
        cases ho
        cases hd
        obtain ⟨name, hrname, hrname'⟩ := hname r rfl r' rfl
        -- a request that has a name has the whole path
        have hwhole {type : ℤ} {q : List UInt8} {r : OpenRequest} (hq : ∀ x ∈ q, x ≠ 0)
            (hr : openRequest (fun _ => 1) type 0 q = some r)
              (hname : r.data.cstring 0 = some name) :
            q = name ∧ q.length + 1 < 2 ^ 31 := by
          by_cases hlen : q.length + 1 < 2 ^ 31
          · obtain ⟨r₁, hr₁, hname₁⟩ := openRequest_fits (fun _ => 1) type 0 hq hlen
            rw [hr] at hr₁
            cases hr₁
            rw [hname] at hname₁
            exact ⟨(Option.some.inj hname₁).symm, hlen⟩
          · rw [openRequest_cut hq hlen hr] at hname
            cases hname
        obtain ⟨rfl, hlen⟩ := hwhole (ne_zero_of_pathSent hp) hr hrname
        obtain ⟨rfl, -⟩ := hwhole (ne_zero_of_pathSent hp') hr' hrname'
        exact ⟨_, hp, hp', hlen⟩
  · intro hsent flags c c'
    obtain ⟨p, hp, hp', hlen⟩ := hsent c.allocated c'.allocated
    have hpath := ne_zero_of_pathSent hp
    obtain ⟨res, request, htransact, hname⟩ :=
      transact_fits c Fs.IO_OPEN flags hpath hlen
    obtain ⟨res', request', htransact', hname'⟩ :=
      transact_fits c' Fs.IO_OPENDIR 0 hpath hlen
    rw [open', opendir, hp, hp']
    simp only [Option.bind_eq_bind, Option.bind_some, htransact, htransact']
    cases res <;> cases res' <;>
      exact ⟨_, _, rfl, rfl, fun r hr r' hr' => ⟨p, hname r hr, hname' r' hr'⟩⟩

/-- **The directories and paths for which `open` and `opendir` name the same file.** -/
theorem sameName_iff (h : IsCwd s t) (path : CString) : SameName s path ↔ Agrees t path.bytes := by
  rw [sameName_iff_pathSent, Agrees]
  by_cases habs : path.bytes.head? = some slash
  · simp [pathSent, habs]
  rw [if_neg habs]
  simp only [pathSent, ne_eq, habs, not_false_eq_true, if_true]
  have hcwd := length_lt_int h.text.length_lt
  by_cases hlen : path.bytes.length + 1 < 2 ^ 31
  · have hdvd : ¬2 ^ 32 ∣ path.bytes.length + 1 := fun hdvd => by
      have hle := Nat.le_of_dvd (Nat.succ_pos _) hdvd
      omega
    by_cases hlast : t.getLast? = some slash
    · simp only [openAllocated_eq h hlast, opendirAllocated_fits h path.noNul hlen]
      constructor
      · intro hsent
        obtain ⟨p, hp, -, hint⟩ := hsent (fun _ => 1) fun _ => 1
        cases hp
        rw [List.length_append] at hint
        exact ⟨hlast, .inl hint⟩
      · rintro ⟨-, hint | hbad⟩
        · exact fun _ _ => ⟨_, rfl, rfl, by rwa [List.length_append]⟩
        · exact absurd hbad hdvd
    · refine iff_of_false (fun hsent => ?_) fun hagrees => hlast hagrees.1
      obtain ⟨p, hp, -⟩ := hsent (fun _ => 1) fun _ => 1
      rw [openAllocated_none h hlast hlen] at hp
      cases hp
  by_cases hwrap : 2 ^ 31 ≤ (path.bytes.length + 1) % 2 ^ 32
  · have hdvd : ¬2 ^ 32 ∣ path.bytes.length + 1 := by omega
    refine iff_of_false (fun hsent => ?_) fun hagrees => hagrees.2.elim (by omega) hdvd
    obtain ⟨p, -, hp', -⟩ := hsent (fun _ => 1) fun _ => 1
    rw [opendirAllocated_none h hwrap] at hp'
    cases hp'
  by_cases hdvd : 2 ^ 32 ∣ path.bytes.length + 1
  · by_cases hlast : t.getLast? = some slash
    · simp only [openAllocated_eq h hlast, opendirAllocated_dvd h hdvd]
      exact iff_of_true (fun _ _ => ⟨t, rfl, rfl, hcwd⟩) ⟨hlast, .inr hdvd⟩
    · refine iff_of_false (fun hsent => ?_) fun hagrees => hlast hagrees.1
      obtain ⟨p, hp, hp', -⟩ := hsent (fun _ => 1) fun _ => 1
      rw [opendirAllocated_dvd h hdvd] at hp'
      cases hp'
      exact openAllocated_dvd h hlast hdvd hp
  · refine iff_of_false (fun hsent => ?_) fun hagrees => hagrees.2.elim (by omega) hdvd
    obtain ⟨p, -, hp', -⟩ := hsent (fun _ => 1) fun _ => 1
    rw [opendirAllocated_cut h path.noNul (by omega) (by omega) (by omega)] at hp'
    cases hp'

/-- From the root. -/
theorem sameName_name : SameName rootCwd ⟨[98], by simp⟩ :=
  (sameName_iff isCwd_root ⟨[98], by simp⟩).2 ⟨rfl, .inl (by decide)⟩

/-- The directory `/a`. -/
def aCwd : CwdBuffers where
  cwd := ⟨0, PATH_MAX, Function.update (Function.update (fun _ => 0) 0 slash) 1 97⟩
  new := ⟨0, PATH_MAX, fun _ => 0⟩

theorem isCwd_a : IsCwd aCwd [slash, 97] where
  text := ⟨rfl, rfl, ⟨rfl, rfl, rfl, trivial⟩, by simp [slash]⟩
  newLo := rfl
  newHi := rfl
  head := rfl

/-- From `/a`, the name `/a/b` has no room. -/
theorem not_sameName_b : ¬SameName aCwd ⟨[98], by simp⟩ := by
  intro hsame
  obtain ⟨p, hp, -⟩ := (sameName_iff_pathSent _).1 hsame (fun _ => 1) fun _ => 1
  have hlast : [slash, 97].getLast? ≠ some slash := by decide
  rw [openAllocated_none isCwd_a hlast (by decide)] at hp
  cases hp

end sameName

end SadOS.Libc
