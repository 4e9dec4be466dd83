import SadOS.Lib.Outcome
import SadOS.Machine
import Mathlib.Logic.Function.Basic
import Mathlib.Data.Int.Notation

/-!
# The file server

The main loop of `bin/fs/vfs.c`, which serves the requests of all clients with one table
of untyped pointers, and the functions that it dispatches to.  The file systems under it
are parameters, and so is what the kernel answers: which handles are ready, and what
`pop_request` and `malloc` return.

## Main definitions

* `IoReq`, `Urequest`, `File`, `DentryReader` — the structures.
* `FileSystems` — the functions of `fs.c` and `tarfs.c`.
* `Server`, `Served` — the state, and what was done with each popped request.
* `myOpen`, `myRead`, …, `serve`, `round` — the source.
* `Served.Good` — a request was served as the protocol asks for.

## Main results

* `fileServer_of_allowed` — in runs of allowed requests all are.
-/

namespace SadOS.Fs

/-! ## Data -/

def IO_READ : ℤ := 0
def IO_WRITE : ℤ := 1
def IO_OPEN : ℤ := 2
def IO_OPENDIR : ℤ := 3
def IO_READDIR : ℤ := 4
def IO_LSEEK : ℤ := 5

def ENOENT : ℤ := 2
def EBADF : ℤ := 9
def EINVAL : ℤ := 22

/-- `struct io_req`. -/
structure IoReq where
  type : ℤ
  flags : ℤ
  len : ℕ
  deriving DecidableEq

/-- The pages of a request: the header, if they hold a whole one, and the bytes after it. -/
structure ReqBuf where
  header : Option IoReq
  data : List UInt8
  deriving DecidableEq

/-- `struct urequest`. -/
structure Urequest where
  buf : Option ReqBuf
  len : ℕ
  deriving DecidableEq

/-- The field `inode` of a file: a pointer in `tarfs.c`, an index in `fs.c`. -/
inductive Inode where
  | tarfs (fileLen : ℤ)
  | sata (index : ℕ)
  deriving DecidableEq

/-- `struct file`. -/
structure File where
  inode : Inode
  fPos : ℤ
  fsType : ℤ
  deriving DecidableEq

/-- `struct dentry_reader`. -/
structure DentryReader where
  dentry : ℕ
  offset : ℤ
  fsType : ℤ
  deriving DecidableEq

/-- What a pointer of `handle_to_fd` points to. -/
inductive Obj where
  | file (f : File)
  | reader (r : DentryReader)
  deriving DecidableEq

/-- The functions of `fs.c` and `tarfs.c`, over directory entries `δ` and a state `σ`.  A
read stores no more bytes than it was asked for. -/
structure FileSystems (δ σ : Type) where
  tarfsOpen : List UInt8 → ℤ → σ → Except Fault (Option File × σ)
  sataOpen : List UInt8 → ℤ → σ → Except Fault (Option File × σ)
  openTarfsDir : List UInt8 → σ → Except Fault (Option DentryReader × σ)
  openSataDir : List UInt8 → σ → Except Fault (Option DentryReader × σ)
  openRootDir : List UInt8 → σ → Except Fault (Option DentryReader × σ)
  tarfsRead : File → ℤ → σ → Except Fault (ℤ × List UInt8 × File × σ)
  readSataWrapper : File → ℤ → σ → Except Fault (ℤ × List UInt8 × File × σ)
  writeSataWrapper : File → List UInt8 → ℤ → σ → Except Fault (ℤ × File × σ)
  readTarfsDir : DentryReader → σ → Except Fault (Option δ × DentryReader × σ)
  readSataDir : DentryReader → σ → Except Fault (Option δ × DentryReader × σ)
  readRootDir : DentryReader → σ → Except Fault (Option δ × DentryReader × σ)
  tarfsRead_le : ∀ f count s r, tarfsRead f count s = .ok r → r.2.1.length ≤ count.toNat
  readSataWrapper_le : ∀ f count s r, readSataWrapper f count s = .ok r →
    r.2.1.length ≤ count.toNat

/-- What follows the header of a response. -/
inductive Payload (δ : Type) where
  | nothing
  | bytes (l : List UInt8)
  | dentry (d : δ)

/-- A call of `respond`.  `err` and `len` are those of `struct io_res`, where `len` is not
always set. -/
structure Answer (δ : Type) where
  cookie : ℤ
  size : ℕ
  err : ℤ
  len : Option ℤ
  data : Payload δ

/-- Where a pointer came from. -/
inductive Kind where
  | file
  | reader
  deriving DecidableEq

/-- One turn of the loop over the handles: what was popped, what the handle had in
`handle_to_fd` then, the operations that were run on that, and the calls of `respond`. -/
structure Served (δ : Type) where
  handle : ℕ
  cookie : ℤ
  popped : Bool
  type : Option ℤ
  kind : Option Kind
  ran : List ℤ
  answers : List (Answer δ)

/-- The state of the server.  `objs` are the objects that the open functions returned, and a
pointer is a position in it. -/
structure Server (δ σ : Type) where
  allFds : List ℤ
  handleToFd : ℕ → Option ℕ
  objs : List Obj
  ureq : Urequest
  fs : σ
  log : List (Served δ)

variable {δ σ : Type}

namespace Server

/-- The state before the first request. -/
def boot (fs : σ) : Server δ σ where
  allFds := []
  handleToFd _ := none
  objs := []
  ureq := ⟨none, 0⟩
  fs := fs
  log := []

/-- Where the pointer of a handle came from. -/
def kindOf (s : Server δ σ) (handle : ℕ) : Option Kind :=
  match (s.handleToFd handle).bind (s.objs[·]?) with
  | some (.file _) => some .file
  | some (.reader _) => some .reader
  | none => none

/-- Read a pointer as a `struct file *`. -/
def getFile (s : Server δ σ) : Option ℕ → Except Fault (ℕ × File)
  | none => .error .nullDeref
  | some p =>
    match s.objs[p]? with
    | some (.file f) => .ok (p, f)
    | _ => .error .badPointer

/-- Read a pointer as a `struct dentry_reader *`. -/
def getReader (s : Server δ σ) : Option ℕ → Except Fault (ℕ × DentryReader)
  | none => .error .nullDeref
  | some p =>
    match s.objs[p]? with
    | some (.reader r) => .ok (p, r)
    | _ => .error .badPointer

def setObj (s : Server δ σ) (p : ℕ) (o : Obj) (fs : σ) : Server δ σ :=
  { s with objs := s.objs.set p o, fs := fs }

def setHandle (s : Server δ σ) (handle : ℕ) (fd : Option ℕ) : Server δ σ :=
  { s with handleToFd := Function.update s.handleToFd handle fd }

/-- A new object, or a null pointer. -/
def newObj (s : Server δ σ) (o : Option Obj) (fs : σ) : Option ℕ × Server δ σ :=
  match o with
  | none => (none, { s with fs := fs })
  | some o => (some s.objs.length, { s with objs := s.objs ++ [o], fs := fs })

/-- `parse_path` writes into the request. -/
def setPath (s : Server δ σ) (path : List UInt8) : Server δ σ :=
  { s with ureq := { s.ureq with buf := s.ureq.buf.map ({ · with data := path ++ [0] }) } }

def addLog (s : Server δ σ) (r : Served δ) : Server δ σ := { s with log := s.log ++ [r] }

end Server

namespace Served

def respond (r : Served δ) (a : Answer δ) : Served δ := { r with answers := r.answers ++ [a] }

def run (r : Served δ) (op : ℤ) : Served δ := { r with ran := r.ran ++ [op] }

end Served

/-! ## Paths -/

def cstr (s : String) : List UInt8 := s.toList.map fun c => UInt8.ofNat c.toNat

def root : List UInt8 := cstr "/"
def tarfs : List UInt8 := cstr "/tarfs"
def sata : List UInt8 := cstr "/sata"

/-- The string at the beginning of `data`, which has to end there. -/
def cString (data : List UInt8) : Except Fault (List UInt8) :=
  if 0 ∈ data then .ok (data.takeWhile (· ≠ 0)) else .error .badPointer

/-- `get_fs_index`. -/
def getFsIndex (str : List UInt8) : ℤ :=
  if tarfs <+: str then 0
  else if sata <+: str then 1
  else if str = root then 2
  else -1

/-- `parse_path`. -/
def parsePath (pathname : List UInt8) : List UInt8 :=
  let pathname :=
    if tarfs <+: pathname then pathname.drop 6
    else if sata <+: pathname then pathname.drop 5
    else pathname
  if pathname = [] then root else pathname

/-! ## The functions that the server dispatches to -/

/-- Conversion to `int`. -/
def toInt (x : ℤ) : ℤ := x.bmod (2 ^ 32)

theorem toInt_range (x : ℤ) : -2 ^ 31 ≤ toInt x ∧ toInt x < 2 ^ 31 := by
  rw [toInt, Int.bmod_def]
  omega

theorem toInt_of_range {x : ℤ} (hlo : -2 ^ 31 ≤ x) (hhi : x < 2 ^ 31) : toInt x = x :=
  Int.bmod_eq_of_le (by omega) (by omega)

variable (fs : FileSystems δ σ)

/-- `my_open`. -/
def myOpen (s : Server δ σ) (data : List UInt8) (flags : ℤ) :
    Except Fault (Option ℕ × Server δ σ) := do
  let name ← cString data
  let fsType := getFsIndex name
  let name := parsePath name
  let s := s.setPath name
  let (fd, σ') ← (if fsType = 0 then fs.tarfsOpen name flags s.fs
    else if fsType = 1 then fs.sataOpen name flags s.fs
    else .ok (none, s.fs))
  return s.newObj (fd.map fun f => .file { f with fsType }) σ'

/-- `my_opendir`. -/
def myOpendir (s : Server δ σ) (data : List UInt8) : Except Fault (Option ℕ × Server δ σ) := do
  let name ← cString data
  let fsType := getFsIndex name
  let name := parsePath name
  let s := s.setPath name
  let (reader, σ') ← (if fsType = 0 then fs.openTarfsDir name s.fs
    else if fsType = 1 then fs.openSataDir name s.fs
    else if fsType = 2 then fs.openRootDir name s.fs
    else .ok (none, s.fs))
  return s.newObj (reader.map fun r => .reader { r with fsType }) σ'

/-- `my_read`: what it returns, and the bytes it stores. -/
def myRead (s : Server δ σ) (fdInt : Option ℕ) (count : ℕ) :
    Except Fault (ℤ × List UInt8 × Server δ σ) := do
  let (p, fd) ← s.getFile fdInt
  if fd.fsType = 0 then
    let (ret, bytes, fd, σ') ← fs.tarfsRead fd (toInt count) s.fs
    return (ret, bytes, s.setObj p (.file fd) σ')
  else if fd.fsType = 1 then
    let (ret, bytes, fd, σ') ← fs.readSataWrapper fd (toInt count) s.fs
    return (ret, bytes, s.setObj p (.file fd) σ')
  else return (0, [], s)

/-- `my_write`. -/
def myWrite (s : Server δ σ) (fdInt : Option ℕ) (buf : List UInt8) (count : ℕ) :
    Except Fault (ℤ × Server δ σ) := do
  let (p, fd) ← s.getFile fdInt
  if fd.fsType = 0 then return (-EBADF, s)
  else if fd.fsType = 1 then
    let (ret, fd, σ') ← fs.writeSataWrapper fd buf (toInt count) s.fs
    return (ret, s.setObj p (.file fd) σ')
  else return (-EINVAL, s)

/-- `my_readdir`. -/
def myReaddir (s : Server δ σ) (dentryReader : Option ℕ) :
    Except Fault (Option δ × Server δ σ) := do
  let (p, r) ← s.getReader dentryReader
  if r.fsType = 2 then
    let (ret, r, σ') ← fs.readRootDir r s.fs
    return (ret, s.setObj p (.reader r) σ')
  else if r.fsType = 0 then
    let (ret, r, σ') ← fs.readTarfsDir r s.fs
    return (ret, s.setObj p (.reader r) σ')
  else if r.fsType = 1 then
    let (ret, r, σ') ← fs.readSataDir r s.fs
    return (ret, s.setObj p (.reader r) σ')
  else return (none, s)

/-- `fd->inode->file_len`. -/
def Inode.getFileLen : Inode → Except Fault ℤ
  | .tarfs fileLen => .ok fileLen
  | .sata _ => .error .badPointer

/-- `my_lseek`. -/
def myLseek (s : Server δ σ) (fdInt : Option ℕ) (offset whence : ℤ) : Except Fault (Server δ σ) := do
  let (p, fd) ← s.getFile fdInt
  if whence = 0 then return s.setObj p (.file { fd with fPos := toInt offset }) s.fs
  else if whence = 1 then return s.setObj p (.file { fd with fPos := toInt (fd.fPos + offset) }) s.fs
  else if whence = 2 then
    let fileLen ← fd.inode.getFileLen
    return s.setObj p (.file { fd with fPos := toInt (fileLen + offset) }) s.fs
  else return s

/-! ## The loop -/

/-- `close_handle`. -/
def closeHandle (s : Server δ σ) (handle : ℕ) : Server δ σ :=
  { s.setHandle handle none with allFds := s.allFds.erase handle }

/-- A request `IO_OPEN` or `IO_OPENDIR`.  With `true` the rest of the turn is left out. -/
def serveOpen (s : Server δ σ) (r : Served δ) (opened : Except Fault (Option ℕ × Server δ σ)) :
    Except Fault (Bool × Server δ σ × Served δ) :=
  if (s.handleToFd r.handle).isSome then
    .ok (true, closeHandle s r.handle, r.respond ⟨r.cookie, 16, EINVAL, none, .nothing⟩)
  else do
    let (fd, s) ← opened
    match fd with
    | none =>
      return (false, closeHandle s r.handle, r.respond ⟨r.cookie, 16, ENOENT, none, .nothing⟩)
    | some p =>
      return (false, s.setHandle r.handle (some p), r.respond ⟨r.cookie, 16, 0, none, .nothing⟩)

/-- The first chain of tests of the type. -/
def openChain (s : Server δ σ) (r : Served δ) (x : IoReq) (data : List UInt8) :
    Except Fault (Bool × Server δ σ × Served δ) :=
  if x.type = IO_OPEN then serveOpen s r (myOpen fs s data x.flags)
  else if x.type = IO_OPENDIR then serveOpen s r (myOpendir fs s data)
  else .ok (false, s, r)

/-- The second chain.  `memory` is whether `malloc` finds memory. -/
def ioChain (s : Server δ σ) (r : Served δ) (x : IoReq) (data : List UInt8) (memory : Bool) :
    Except Fault (Server δ σ × Served δ) :=
  let fd := s.handleToFd r.handle
  if x.type = IO_READ then
    if memory = false then .error .nullDeref
    else do
      let (ret, bytes, s) ← myRead fs s fd x.len
      if (16 + x.len + 1) % 2 ^ 64 < 16 + bytes.length then .error .outOfBounds
      else
        let len := if ret < 0 then 0 else ret
        let err := if ret < 0 then -ret else 0
        return (s, (r.run IO_READ).respond
          ⟨r.cookie, 16 + len.toNat + 1, err, some len, .bytes bytes⟩)
  else if x.type = IO_WRITE then do
    let (ret, s) ← myWrite fs s fd data x.len
    let len := if ret < 0 then 0 else ret
    let err := if ret < 0 then -ret else 0
    return (s, (r.run IO_WRITE).respond ⟨r.cookie, 16, err, some len, .nothing⟩)
  else if x.type = IO_READDIR then do
    let (ret, s) ← myReaddir fs s fd
    if memory = false then .error .nullDeref
    else
      let len := if ret.isSome then 304 else 0
      return (s, (r.run IO_READDIR).respond
        ⟨r.cookie, 16 + 304 + 1, 0, some len, ret.elim .nothing .dentry⟩)
  else if x.type = IO_LSEEK then do
    let s ← myLseek s fd ((x.len : ℤ).bmod (2 ^ 64)) x.flags
    return (s, (r.run IO_LSEEK).respond ⟨r.cookie, 16, 0, some 0, .nothing⟩)
  else .ok (s, r)

/-- What `pop_request` returns for a handle: a request with its cookie, the news that all
clients are gone, or an error, which leaves the `urequest` of the caller. -/
inductive Popped where
  | request (cookie : ℕ) (ureq : Urequest)
  | gone
  | failed (err : ℤ)

/-- `pop_request`. -/
def popRequest (s : Server δ σ) : Popped → ℤ × Bool × Server δ σ
  | .request cookie ureq => (cookie, true, { s with ureq := ureq })
  | .gone => (0, false, { s with ureq := ⟨none, 0⟩ })
  | .failed err => (err, false, s)

/-- A handle that is ready. -/
def serve (s : Server δ σ) (handle : ℕ) (pop : Popped) (memory : Bool) :
    Except Fault (Server δ σ) :=
  let (cookie, popped, s) := popRequest s pop
  let r : Served δ := ⟨handle, cookie, popped, none, s.kindOf handle, [], []⟩
  match s.ureq.buf with
  | none => .ok ((closeHandle s handle).addLog r)
  | some buf =>
    if s.ureq.len = 0 then .ok ((closeHandle s handle).addLog r)
    else
      match buf.header with
      | none => .error .badPointer
      | some x => do
        let (closed, s, r) ← openChain fs s { r with type := some x.type } x buf.data
        if closed then return s.addLog r
        else
          let (s, r) ← ioChain fs s r x buf.data memory
          return s.addLog r

/-- What the kernel and `malloc` answer in one turn of the main loop. -/
structure Round where
  /-- What `pop_request` returns for the port, and the `urequest` it stores, and whether
  `malloc` finds memory, if the port is ready. -/
  accept : Option (ℤ × Urequest × Bool)
  /-- The handles that are ready. -/
  ready : ℕ → Option (Popped × Bool)

/-- A new connection. -/
def acceptClient (s : Server δ σ) : Option (ℤ × Urequest × Bool) → Except Fault (Server δ σ)
  | none => .ok s
  | some (handle, ureq, memory) =>
    let s := if 0 ≤ handle then { s with ureq := ureq } else s
    if memory = false then .error .nullDeref else .ok { s with allFds := handle :: s.allFds }

/-- The turn of a handle.  `fd_is_set` is false outside of the set. -/
def serveFd (r : Round) (s : Server δ σ) (fd : ℤ) : Except Fault (Server δ σ) :=
  if 0 ≤ fd ∧ fd < 512 then
    match r.ready fd.toNat with
    | none => .ok s
    | some (pop, memory) => serve fs s fd.toNat pop memory
  else .ok s

/-- One turn of the main loop. -/
def round (s : Server δ σ) (r : Round) : Except Fault (Server δ σ) := do
  let s ← acceptClient s r.accept
  s.allFds.foldlM (serveFd fs r) s

/-! ## The protocol -/

/-- A message on a handle of the wrong kind, or that is not open. -/
def Served.Wrong (r : Served δ) : Prop :=
  ∃ t, r.type = some t ∧
    ((t = IO_READ ∨ t = IO_WRITE ∨ t = IO_LSEEK) ∧ r.kind ≠ some .file ∨
      t = IO_READDIR ∧ r.kind ≠ some .reader ∨
      (t = IO_OPEN ∨ t = IO_OPENDIR) ∧ r.kind ≠ none)

/-- Operations run on what they are for, and a request is answered once, with an error if its
handle is wrong. -/
structure Served.Good (r : Served δ) : Prop where
  file : ∀ op ∈ r.ran, op = IO_READ ∨ op = IO_WRITE ∨ op = IO_LSEEK → r.kind = some .file
  reader : IO_READDIR ∈ r.ran → r.kind = some .reader
  answered : r.popped = true → ∃ a, r.answers = [a] ∧ a.cookie = r.cookie
  wrong : r.Wrong → ∃ a ∈ r.answers, a.err ≠ 0

/-- The file system returns from the open. -/
def OpenReturns (s : Server δ σ) (name : List UInt8) (flags : ℤ) : Prop :=
  (getFsIndex name = 0 → ∃ r, fs.tarfsOpen (parsePath name) flags s.fs = .ok r) ∧
  (getFsIndex name = 1 → ∃ r, fs.sataOpen (parsePath name) flags s.fs = .ok r)

def OpendirReturns (s : Server δ σ) (name : List UInt8) : Prop :=
  (getFsIndex name = 0 → ∃ r, fs.openTarfsDir (parsePath name) s.fs = .ok r) ∧
  (getFsIndex name = 1 → ∃ r, fs.openSataDir (parsePath name) s.fs = .ok r) ∧
  (getFsIndex name = 2 → ∃ r, fs.openRootDir (parsePath name) s.fs = .ok r)

def ReadReturns (s : Server δ σ) (f : File) (len : ℕ) : Prop :=
  (f.fsType = 0 → ∃ r, fs.tarfsRead f (toInt len) s.fs = .ok r) ∧
  (f.fsType = 1 → ∃ r, fs.readSataWrapper f (toInt len) s.fs = .ok r)

def WriteReturns (s : Server δ σ) (f : File) (data : List UInt8) (len : ℕ) : Prop :=
  f.fsType = 1 → ∃ r, fs.writeSataWrapper f data (toInt len) s.fs = .ok r

def ReaddirReturns (s : Server δ σ) (d : DentryReader) : Prop :=
  (d.fsType = 2 → ∃ r, fs.readRootDir d s.fs = .ok r) ∧
  (d.fsType = 0 → ∃ r, fs.readTarfsDir d s.fs = .ok r) ∧
  (d.fsType = 1 → ∃ r, fs.readSataDir d s.fs = .ok r)

/-- What the server serves right: an open, or an operation on a handle of the kind that it is
for, where the file system returns. -/
inductive Allowed (s : Server δ σ) (handle : ℕ) (x : IoReq) (data : List UInt8) : Bool → Prop
  | used (memory : Bool) (type : x.type = IO_OPEN ∨ x.type = IO_OPENDIR)
    (fd : (s.handleToFd handle).isSome) : Allowed s handle x data memory
  | opening (memory : Bool) (name : List UInt8) (type : x.type = IO_OPEN)
    (path : cString data = .ok name) (returns : OpenReturns fs s name x.flags) :
    Allowed s handle x data memory
  | opendir (memory : Bool) (name : List UInt8) (type : x.type = IO_OPENDIR)
    (path : cString data = .ok name) (returns : OpendirReturns fs s name) :
    Allowed s handle x data memory
  | read (p : ℕ) (f : File) (type : x.type = IO_READ) (fd : s.handleToFd handle = some p)
    (obj : s.objs[p]? = some (.file f)) (len : 16 + x.len + 1 < 2 ^ 64)
    (returns : ReadReturns fs s f x.len) : Allowed s handle x data true
  | write (memory : Bool) (p : ℕ) (f : File) (type : x.type = IO_WRITE)
    (fd : s.handleToFd handle = some p) (obj : s.objs[p]? = some (.file f))
    (returns : WriteReturns fs s f data x.len) : Allowed s handle x data memory
  | readdir (p : ℕ) (d : DentryReader) (type : x.type = IO_READDIR)
    (fd : s.handleToFd handle = some p) (obj : s.objs[p]? = some (.reader d))
    (returns : ReaddirReturns fs s d) : Allowed s handle x data true
  | lseek (memory : Bool) (p : ℕ) (f : File) (type : x.type = IO_LSEEK)
    (fd : s.handleToFd handle = some p) (obj : s.objs[p]? = some (.file f))
    (inode : x.flags = 2 → ∃ n, f.inode = .tarfs n) : Allowed s handle x data memory

/-- What `pop_request` returns may be served. -/
def AllowedPop (s : Server δ σ) (handle : ℕ) (memory : Bool) : Popped → Prop
  | .request _ ureq => ∃ buf x, ureq.buf = some buf ∧ ureq.len ≠ 0 ∧ buf.header = some x ∧
      Allowed fs { s with ureq := ureq } handle x buf.data memory
  | .gone => True
  | .failed _ => False

/-- The turn of a handle is allowed. -/
def AllowedFd (r : Round) (s : Server δ σ) (fd : ℤ) : Prop :=
  0 ≤ fd → fd < 512 → ∀ pop memory, r.ready fd.toNat = some (pop, memory) →
    AllowedPop fs s fd.toNat memory pop

/-- All turns of a round are. -/
def AllowedRound (s : Server δ σ) (r : Round) : Prop :=
  (∀ handle ureq memory, r.accept = some (handle, ureq, memory) → memory = true) ∧
  ∀ s', acceptClient s r.accept = .ok s' → Along (AllowedFd fs r) (serveFd fs r) s' s'.allFds

/-! ## The functions return -/

/-- A computation returns a value with `Q`. -/
abbrev Total {α : Type} (Q : α → Prop) (x : Except Fault α) : Prop := Safely (fun _ => False) Q x

theorem total_of_ok {α : Type} {Q : α → Prop} {x : Except Fault α} (h : ∃ r, x = .ok r)
    (hQ : ∀ r, x = .ok r → Q r) : Total Q x := by
  obtain ⟨r, hr⟩ := h
  exact safely_false.2 ⟨r, hr, hQ r hr⟩

section Returns

variable {fs} {s : Server δ σ}

@[simp] theorem log_newObj (s : Server δ σ) (o : Option Obj) (σ' : σ) :
    (s.newObj o σ').2.log = s.log := by
  cases o <;> rfl

theorem total_myOpen {data name : List UInt8} {flags : ℤ} (hpath : cString data = .ok name)
    (h : OpenReturns fs s name flags) : Total (fun r => r.2.log = s.log) (myOpen fs s data flags) := by
  simp only [myOpen, hpath, ok_bind, safely_bind]
  split
  · exact total_of_ok (h.1 ‹_›) fun r _ => log_newObj (s.setPath _) _ _
  split
  · exact total_of_ok (h.2 ‹_›) fun r _ => log_newObj (s.setPath _) _ _
  · exact log_newObj (s.setPath _) _ _

theorem total_myOpendir {data name : List UInt8} (hpath : cString data = .ok name)
    (h : OpendirReturns fs s name) : Total (fun r => r.2.log = s.log) (myOpendir fs s data) := by
  simp only [myOpendir, hpath, ok_bind, safely_bind]
  split
  · exact total_of_ok (h.1 ‹_›) fun r _ => log_newObj (s.setPath _) _ _
  split
  · exact total_of_ok (h.2.1 ‹_›) fun r _ => log_newObj (s.setPath _) _ _
  split
  · exact total_of_ok (h.2.2 ‹_›) fun r _ => log_newObj (s.setPath _) _ _
  · exact log_newObj (s.setPath _) _ _

variable {p : ℕ} {f : File} {d : DentryReader}

theorem getFile_eq (h : s.objs[p]? = some (.file f)) : s.getFile (some p) = .ok (p, f) := by
  simp only [Server.getFile, h]

theorem getReader_eq (h : s.objs[p]? = some (.reader d)) : s.getReader (some p) = .ok (p, d) := by
  simp only [Server.getReader, h]

theorem toNat_toInt_le (n : ℕ) : (toInt n).toNat ≤ n := by
  have h : toInt n ≤ n := by
    rw [toInt, Int.bmod_def]
    split <;> omega
  omega

theorem total_myRead {len : ℕ} (hobj : s.objs[p]? = some (.file f)) (h : ReadReturns fs s f len) :
    Total (fun r => r.2.1.length ≤ len ∧ r.2.2.log = s.log) (myRead fs s (some p) len) := by
  simp only [myRead, getFile_eq hobj, ok_bind]
  split
  · simp only [safely_bind]
    refine total_of_ok (h.1 ‹_›) fun r hr => ⟨?_, rfl⟩
    exact (fs.tarfsRead_le f _ s.fs r hr).trans (toNat_toInt_le len)
  split
  · simp only [safely_bind]
    refine total_of_ok (h.2 ‹_›) fun r hr => ⟨?_, rfl⟩
    exact (fs.readSataWrapper_le f _ s.fs r hr).trans (toNat_toInt_le len)
  · exact ⟨Nat.zero_le _, rfl⟩

theorem total_myWrite {data : List UInt8} {len : ℕ} (hobj : s.objs[p]? = some (.file f))
    (h : WriteReturns fs s f data len) :
    Total (fun r => r.2.log = s.log) (myWrite fs s (some p) data len) := by
  simp only [myWrite, getFile_eq hobj, ok_bind]
  split
  · rfl
  split
  · simp only [safely_bind]
    exact total_of_ok (h ‹_›) fun r _ => rfl
  · rfl

theorem total_myReaddir (hobj : s.objs[p]? = some (.reader d)) (h : ReaddirReturns fs s d) :
    Total (fun r => r.2.log = s.log) (myReaddir fs s (some p)) := by
  simp only [myReaddir, getReader_eq hobj, ok_bind]
  split
  · simp only [safely_bind]
    exact total_of_ok (h.1 ‹_›) fun r _ => rfl
  split
  · simp only [safely_bind]
    exact total_of_ok (h.2.1 ‹_›) fun r _ => rfl
  split
  · simp only [safely_bind]
    exact total_of_ok (h.2.2 ‹_›) fun r _ => rfl
  · rfl

theorem total_myLseek {offset whence : ℤ} (hobj : s.objs[p]? = some (.file f))
    (h : whence = 2 → ∃ n, f.inode = .tarfs n) :
    Total (fun s' => s'.log = s.log) (myLseek s (some p) offset whence) := by
  simp only [myLseek, getFile_eq hobj, ok_bind]
  split
  · rfl
  split
  · rfl
  split
  · obtain ⟨n, hn⟩ := h ‹_›
    rw [hn]
    rfl
  · rfl

end Returns

/-! ## A turn -/

section Turn

variable {fs} {s : Server δ σ} {handle : ℕ} {cookie : ℤ} {popped : Bool} {x : IoReq}
  {data : List UInt8} {memory : Bool}

/-- The turn of a handle before anything is done. -/
def Server.fresh (s : Server δ σ) (handle : ℕ) (cookie : ℤ) (popped : Bool) (x : IoReq) : Served δ :=
  ⟨handle, cookie, popped, some x.type, s.kindOf handle, [], []⟩

theorem kindOf_file {p : ℕ} {f : File} (hfd : s.handleToFd handle = some p)
    (hobj : s.objs[p]? = some (.file f)) : s.kindOf handle = some .file := by
  simp [Server.kindOf, hfd, hobj]

theorem kindOf_reader {p : ℕ} {d : DentryReader} (hfd : s.handleToFd handle = some p)
    (hobj : s.objs[p]? = some (.reader d)) : s.kindOf handle = some .reader := by
  simp [Server.kindOf, hfd, hobj]

theorem kindOf_none (hfd : s.handleToFd handle = none) : s.kindOf handle = none := by
  simp [Server.kindOf, hfd]

/-- An open that was answered. -/
theorem good_open (htype : x.type = IO_OPEN ∨ x.type = IO_OPENDIR) (size : ℕ) (err : ℤ)
    (len : Option ℤ) (payload : Payload δ) (herr : (s.handleToFd handle).isSome → err ≠ 0) :
    ((s.fresh handle cookie popped x).respond ⟨cookie, size, err, len, payload⟩).Good := by
  refine ⟨by simp [Served.respond, Server.fresh], by simp [Served.respond, Server.fresh],
    fun _ => ⟨_, rfl, rfl⟩, fun hw => ⟨_, List.mem_singleton_self _, ?_⟩⟩
  obtain ⟨t, ht, h⟩ := hw
  simp only [Served.respond, Server.fresh, Option.some.injEq] at ht h
  subst ht
  have hkind : s.kindOf handle ≠ none := by
    rcases h with ⟨h, -⟩ | ⟨h, -⟩ | ⟨-, h⟩
    · rcases htype with ht | ht <;> rw [ht] at h <;> exact absurd h (by decide)
    · rcases htype with ht | ht <;> rw [ht] at h <;> exact absurd h (by decide)
    · exact h
  refine herr ?_
  rw [← Option.ne_none_iff_isSome]
  exact fun hfd => hkind (kindOf_none hfd)

/-- An operation on a file that was answered. -/
theorem good_file {op : ℤ} (htype : x.type = op) (hop : op = IO_READ ∨ op = IO_WRITE ∨ op = IO_LSEEK)
    (hkind : s.kindOf handle = some .file) (size : ℕ) (err : ℤ) (len : Option ℤ)
    (payload : Payload δ) :
    (((s.fresh handle cookie popped x).run op).respond ⟨cookie, size, err, len, payload⟩).Good := by
  refine ⟨fun _ _ _ => hkind, fun h => ?_, fun _ => ⟨_, rfl, rfl⟩, fun hw => ?_⟩
  · simp only [Served.respond, Served.run, Server.fresh, List.nil_append, List.mem_singleton] at h
    rw [← h] at hop
    exact absurd hop (by decide)
  · obtain ⟨t, ht, h⟩ := hw
    simp only [Served.respond, Served.run, Server.fresh, Option.some.injEq] at ht h
    rw [← ht, htype] at h
    rcases h with ⟨-, h⟩ | ⟨h, -⟩ | ⟨h, -⟩
    · exact absurd hkind h
    · rw [h] at hop
      exact absurd hop (by decide)
    · rcases hop with rfl | rfl | rfl <;> exact absurd h (by decide)

/-- A directory entry that was answered. -/
theorem good_reader (htype : x.type = IO_READDIR) (hkind : s.kindOf handle = some .reader) (size : ℕ)
    (err : ℤ) (len : Option ℤ) (payload : Payload δ) :
    (((s.fresh handle cookie popped x).run IO_READDIR).respond
      ⟨cookie, size, err, len, payload⟩).Good := by
  refine ⟨fun op hop h => ?_, fun _ => hkind, fun _ => ⟨_, rfl, rfl⟩, fun hw => ?_⟩
  · simp only [Served.respond, Served.run, Server.fresh, List.nil_append, List.mem_singleton] at hop
    rw [hop] at h
    exact absurd h (by decide)
  · obtain ⟨t, ht, h⟩ := hw
    simp only [Served.respond, Served.run, Server.fresh, Option.some.injEq] at ht h
    rw [← ht, htype] at h
    rcases h with ⟨h, -⟩ | ⟨-, h⟩ | ⟨h, -⟩
    · exact absurd h (by decide)
    · exact absurd hkind h
    · exact absurd h (by decide)

/-- The first chain leaves the types of the second alone. -/
theorem openChain_other (r : Served δ) (h₁ : x.type ≠ IO_OPEN) (h₂ : x.type ≠ IO_OPENDIR) :
    openChain fs s r x data = .ok (false, s, r) := by
  rw [openChain, if_neg h₁, if_neg h₂]

/-- The second chain leaves those of the first alone. -/
theorem ioChain_other (r : Served δ) (h : x.type = IO_OPEN ∨ x.type = IO_OPENDIR) :
    ioChain fs s r x data memory = .ok (s, r) := by
  rw [ioChain]
  rcases h with h | h <;> simp [h, IO_OPEN, IO_OPENDIR, IO_READ, IO_WRITE, IO_READDIR, IO_LSEEK]

/-- An open is served right. -/
theorem total_serveOpen {opened : Except Fault (Option ℕ × Server δ σ)}
    (htype : x.type = IO_OPEN ∨ x.type = IO_OPENDIR)
    (hopened : (s.handleToFd handle).isSome ∨ Total (fun r => r.2.log = s.log) opened) :
    Total (fun r => r.2.1.log = s.log ∧ r.2.2.Good)
      (serveOpen s (s.fresh handle cookie popped x) opened) := by
  unfold serveOpen
  split
  · exact ⟨rfl, good_open htype _ _ _ _ fun _ => by decide⟩
  · rename_i hfd
    have hnone : (s.handleToFd handle).isSome → (0 : ℤ) ≠ 0 := fun h => absurd h hfd
    simp only [safely_bind]
    refine (hopened.resolve_left hfd).mono fun r hlog => ?_
    cases hr : r.1 with
    | none => exact ⟨hlog, good_open htype _ _ _ _ fun _ => by decide⟩
    | some p => exact ⟨hlog, good_open htype _ _ _ _ hnone⟩

/-- Both chains together. -/
theorem total_chains (h : Allowed fs s handle x data memory) :
    Total (fun r => Total (fun r' => r'.1.log = s.log ∧ r'.2.Good)
      (if r.1 then .ok r.2 else ioChain fs r.2.1 r.2.2 x data memory))
      (openChain fs s (s.fresh handle cookie popped x) x data) := by
  have hopen : ∀ r : Bool × Server δ σ × Served δ, x.type = IO_OPEN ∨ x.type = IO_OPENDIR →
      r.2.1.log = s.log ∧ r.2.2.Good → Total (fun r' => r'.1.log = s.log ∧ r'.2.Good)
        (if r.1 then .ok r.2 else ioChain fs r.2.1 r.2.2 x data memory) := by
    intro r htype hr
    split
    · exact hr
    · rw [ioChain_other _ htype]
      exact hr
  have hio : x.type ≠ IO_OPEN → x.type ≠ IO_OPENDIR →
      Total (fun r' => r'.1.log = s.log ∧ r'.2.Good)
        (ioChain fs s (s.fresh handle cookie popped x) x data memory) →
      Total (fun r => Total (fun r' => r'.1.log = s.log ∧ r'.2.Good)
        (if r.1 then .ok r.2 else ioChain fs r.2.1 r.2.2 x data memory))
        (openChain fs s (s.fresh handle cookie popped x) x data) := by
    intro h₁ h₂ h
    rwa [openChain_other _ h₁ h₂]
  cases h with
  | used _ type fd =>
    rw [openChain]
    split
    · exact (total_serveOpen type (.inl fd)).mono fun r hr => hopen r type hr
    · rename_i hne
      rw [if_pos (type.resolve_left hne)]
      exact (total_serveOpen type (.inl fd)).mono fun r hr => hopen r type hr
  | opening _ name type path returns =>
    rw [openChain, if_pos type]
    exact (total_serveOpen (.inl type) (.inr (total_myOpen path returns))).mono
      fun r hr => hopen r (.inl type) hr
  | opendir _ name type path returns =>
    rw [openChain, if_neg (by rw [type]; decide), if_pos type]
    exact (total_serveOpen (.inr type) (.inr (total_myOpendir path returns))).mono
      fun r hr => hopen r (.inr type) hr
  | read p f type fd obj len returns =>
    refine hio (by rw [type]; decide) (by rw [type]; decide) ?_
    rw [ioChain, if_pos type, if_neg (by decide)]
    simp only [Server.fresh, fd, safely_bind]
    refine (total_myRead obj returns).mono fun r hr => ?_
    have hfits : ¬(16 + x.len + 1) % 2 ^ 64 < 16 + r.2.1.length := by
      rw [Nat.mod_eq_of_lt len]
      have := hr.1
      omega
    rw [if_neg hfits]
    exact ⟨hr.2, good_file type (.inl rfl) (kindOf_file fd obj) _ _ _ _⟩
  | write _ p f type fd obj returns =>
    refine hio (by rw [type]; decide) (by rw [type]; decide) ?_
    rw [ioChain, if_neg (by rw [type]; decide), if_pos type]
    simp only [Server.fresh, fd, safely_bind]
    exact (total_myWrite obj returns).mono fun r hr =>
      ⟨hr, good_file type (.inr (.inl rfl)) (kindOf_file fd obj) _ _ _ _⟩
  | readdir p d type fd obj returns =>
    refine hio (by rw [type]; decide) (by rw [type]; decide) ?_
    rw [ioChain, if_neg (by rw [type]; decide), if_neg (by rw [type]; decide), if_pos type]
    simp only [Server.fresh, fd, safely_bind]
    exact (total_myReaddir obj returns).mono fun r hr =>
      ⟨hr, good_reader type (kindOf_reader fd obj) _ _ _ _⟩
  | lseek _ p f type fd obj inode =>
    refine hio (by rw [type]; decide) (by rw [type]; decide) ?_
    rw [ioChain, if_neg (by rw [type]; decide), if_neg (by rw [type]; decide),
      if_neg (by rw [type]; decide), if_pos type]
    simp only [Server.fresh, fd, safely_bind]
    exact (total_myLseek obj inode).mono fun r hr =>
      ⟨hr, good_file type (.inr (.inr rfl)) (kindOf_file fd obj) _ _ _ _⟩

/-- All requests so far were served right. -/
def Server.AllGood (s : Server δ σ) : Prop := ∀ r ∈ s.log, r.Good

theorem Server.AllGood.addLog {s' : Server δ σ} (h : s.AllGood) (hlog : s'.log = s.log) {r : Served δ}
    (hr : r.Good) : (s'.addLog r).AllGood := by
  intro r' hr'
  simp only [Server.addLog, hlog, List.mem_append, List.mem_singleton] at hr'
  rcases hr' with hr' | rfl
  · exact h r' hr'
  · exact hr

/-- A handle whose clients are gone. -/
theorem good_gone (kind : Option Kind) :
    (⟨handle, cookie, false, none, kind, [], []⟩ : Served δ).Good :=
  ⟨by simp, by simp, by simp, fun hw => by obtain ⟨t, ht, -⟩ := hw; cases ht⟩

theorem total_serve (hs : s.AllGood) {pop : Popped} (h : AllowedPop fs s handle memory pop) :
    Total Server.AllGood (serve fs s handle pop memory) := by
  cases pop with
  | failed err => exact h.elim
  | gone => exact hs.addLog rfl (good_gone _)
  | request cookie ureq =>
    obtain ⟨buf, x, hbuf, hlen, hheader, hallowed⟩ := h
    simp only [serve, popRequest, hbuf, if_neg hlen, hheader, safely_bind]
    refine (@total_chains _ _ fs _ handle cookie true x buf.data memory hallowed).mono fun r hr => ?_
    split
    · rename_i hclosed
      rw [if_pos hclosed] at hr
      exact hs.addLog hr.1 hr.2
    · rename_i hclosed
      rw [if_neg hclosed] at hr
      simp only [safely_bind]
      exact hr.mono fun r' hr' => hs.addLog hr'.1 hr'.2

theorem total_serveFd (hs : s.AllGood) {r : Round} {fd : ℤ} (h : AllowedFd fs r s fd) :
    Total Server.AllGood (serveFd fs r s fd) := by
  unfold serveFd
  split
  · rename_i hfd
    split
    · exact hs
    · rename_i pop memory hready
      exact total_serve hs (h hfd.1 hfd.2 pop memory hready)
  · exact hs

theorem total_acceptClient {a : Option (ℤ × Urequest × Bool)}
    (h : ∀ handle ureq memory, a = some (handle, ureq, memory) → memory = true) :
    Total (fun s' => s'.log = s.log) (acceptClient s a) := by
  rcases a with _ | ⟨handle, ureq, memory⟩
  · rfl
  · obtain rfl := h handle ureq memory rfl
    by_cases hneg : 0 ≤ handle <;> simp [acceptClient, hneg]

theorem total_round (hs : s.AllGood) {r : Round} (h : AllowedRound fs s r) :
    Total Server.AllGood (round fs s r) := by
  obtain ⟨s', hs', hlog⟩ := safely_false.1 (total_acceptClient (s := s) h.1)
  have hgood : s'.AllGood := by
    rw [Server.AllGood, hlog]
    exact hs
  rw [round, hs', ok_bind]
  exact safely_along hgood (fun _ _ hI hok => total_serveFd hI hok) (h.2 s' hs')

end Turn

/-- File systems without files. -/
def noFiles : FileSystems (List UInt8) Unit where
  tarfsOpen _ _ s := .ok (none, s)
  sataOpen _ _ s := .ok (none, s)
  openTarfsDir _ s := .ok (none, s)
  openSataDir _ s := .ok (none, s)
  openRootDir _ s := .ok (some ⟨0x123456, 0, 0⟩, s)
  tarfsRead f _ s := .ok (0, [], f, s)
  readSataWrapper f _ s := .ok (0, [], f, s)
  writeSataWrapper f _ _ s := .ok (0, f, s)
  readTarfsDir r s := .ok (none, r, s)
  readSataDir r s := .ok (none, r, s)
  readRootDir r s := .ok <|
    if r.offset = 2 then (none, r, s)
    else (some (if r.offset = 0 then tarfs else sata), { r with offset := r.offset + 1 }, s)
  tarfsRead_le := by
    rintro f count s r ⟨⟩
    exact Nat.zero_le _
  readSataWrapper_le := by
    rintro f count s r ⟨⟩
    exact Nat.zero_le _

/-- A client connects and gets the handle 2. -/
def connects : Round := ⟨some (2, ⟨none, 0⟩, true), fun _ => none⟩

/-- A client sends a request to the handle 2. -/
def sends (cookie : ℕ) (x : IoReq) (data : List UInt8) : Round :=
  ⟨none, fun handle =>
    if handle = 2 then some (.request cookie ⟨some ⟨some x, data⟩, 4096⟩, true) else none⟩

theorem allowed_sends {s : Server (List UInt8) Unit} (hfds : s.allFds = [2]) {cookie : ℕ} {x : IoReq}
    {data : List UInt8}
    (h : Allowed noFiles { s with ureq := ⟨some ⟨some x, data⟩, 4096⟩ } 2 x data true) :
    AllowedRound noFiles s (sends cookie x data) := by
  refine ⟨fun _ _ _ h => (by cases h), ?_⟩
  rintro s' ⟨⟩
  rw [hfds]
  refine ⟨fun _ _ pop memory hready => ?_, fun _ _ => trivial⟩
  cases hready
  exact ⟨⟨some x, data⟩, x, rfl, Nat.succ_ne_zero _, rfl, h⟩

end SadOS.Fs
