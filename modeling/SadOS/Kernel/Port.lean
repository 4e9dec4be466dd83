import SadOS.Kernel.Uport

/-!
# Handles

The system calls of `sys/ipc/port.c` and `sys/ipc/uport.c` that do not block, and the
operations of a handle that they call through its `rops`.

## Main definitions

* `portConnect`, `request`, `getResponse` — the calls of a client.
* `openPort`, `popRequest`, `respond` — the calls of a server.
* `close`, `dup0` — the calls of both.
-/

namespace SadOS.Kernel

open Mm (fdtableInsert)

/-- `port[port_number]`. -/
def portAt (s : State) (n : ℤ) : Except Fault (Option PortOps) := do
  let i ← portIndex n
  return s.port i

/-- A user buffer is tested only if there is one. -/
def validBuffer (s : State) (len buf : ℕ) : Except Fault Bool :=
  if buf ≠ 0 ∨ len ≠ 0 then liftMm (Mm.validateRange s.mm buf len) else .ok true

/-- A new handle of the current task, with the fields that its callers set first. -/
def newReq (s : State) (tk : Task) (type : ReqType) : Except Fault (ℕ × State) := do
  let (a, s) ← s.alloc tk.filePool
  return (a, s.setReq a
    { owner := s.current, rops := none, data := .junk, type, state := .server, waitedRw := 0,
      nextReq := none })

/-! ## Operations of ports and handles -/

/-- `port[port_number]->connect`. -/
def connect (s : State) (n : ℤ) (a len buf : ℕ) : Except Fault (ℤ × State) := do
  let i ← portIndex n
  match s.port i with
  | none => .error .nullObject
  | some .uport => uportConnect s i a len buf
  | some .mem => memPortRequest s a len buf
  | some .tarfs => do
    let r ← s.getReq a
    return (0, s.setReq a { r with data := .null, rops := some .tarfs })
  | some .bda => do
    let r ← s.getReq a
    return (0, s.setReq a { r with data := .null, rops := some .bda })
  | some .portio => do
    let r ← s.getReq a
    return (0, s.setReq a { r with data := .null, rops := some .portio })
  | some .int => intPortConnect s a len buf

/-- Which operations have `request`. -/
def ReqOps.hasRequest : ReqOps → Bool
  | .uportClient | .mem | .portio => true
  | _ => false

/-- `req->rops->request`. -/
def ropsRequest (s : State) (ops : ReqOps) (a c len buf : ℕ) : Except Fault (ℤ × State) :=
  match ops with
  | .uportClient => uportRequest s a c len buf
  | .mem => memPortRequest s c len buf
  | .portio => portioRequest s c len buf
  | _ => .error .nullObject

/-- Which operations have `get_response`. -/
def ReqOps.hasGetResponse : ReqOps → Bool
  | .uportClient | .mem | .tarfs | .bda | .portio => true
  | _ => false

/-- `req->rops->get_response`. -/
def ropsGetResponse (s : State) (ops : ReqOps) (a : ℕ) (r : Request) :
    Except Fault ((ℤ × Response) × State) :=
  match ops with
  | .uportClient => uportGetResponse s r
  | .mem => memPortGetResponse s a
  | .tarfs => do
    let (res, s) ← s.runMm (tarfsGetResponse s.mm s.tarfs.1 s.tarfs.2)
    return ((0, res), s)
  | .bda => do
    let (res, s) ← s.runMm (bdaGetResponse s.mm)
    return ((0, res), s)
  | .portio => portioGetResponse s r
  | _ => .error .nullObject

/-- `req->rops->drop`, if there is one. -/
def ropsDrop (s : State) (ops : ReqOps) (a : ℕ) : Except Fault State :=
  match ops with
  | .uportServer => uportServerClose s a
  | .uportClient => uportUserClose s a
  | .int => intPortDrop s a
  -- `mem_port_close` gives back the pool of its `struct mem_data`
  | .mem | .tarfs | .bda | .portio => .ok s

/-- `req->rops->dup`, if there is one. -/
def ropsDup (s : State) (ops : ReqOps) (old : Request) (new : ℕ) : Except Fault (ℤ × State) :=
  match ops with
  | .uportClient => uportDup s old new
  | .int => intPortDup s old new
  | _ => .ok (0, s)

/-- Which operations have `dup`. -/
def ReqOps.hasDup : ReqOps → Bool
  | .uportClient | .int => true
  | _ => false

/-- `req->rops->available`, or `none` where there is none. -/
def ropsAvailable (s : State) (ops : ReqOps) (a : ℕ) (r : Request) (rw : ℕ) :
    Except Fault (Option Bool × State) :=
  match ops with
  | .uportServer => do
    let b ← uportServerAvailable s r rw
    return (some b, s)
  | .uportClient => do
    let b ← uportUserAvailable s r rw
    return (some b, s)
  | .int => do
    let (b, s) ← intPortAvailable s a r rw
    return (some b, s)
  | _ => .ok (none, s)

/-! ## Calls of clients -/

/-- `obj_pool_free` of a handle of the current task. -/
def freeReq (s : State) (a : ℕ) : Except Fault State := do
  let tk ← s.cur
  s.free tk.filePool a

/-- `current->fds->file[fd] = NULL`. -/
def clearFd (s : State) (fd : ℕ) : Except Fault State := do
  let tk ← s.cur
  return s.setFds (tk.fds.set fd none)

/-- The part of `port_connect` with interrupts disabled: the new handle and its number,
or the error to return. -/
def connectHandle (s : State) (len buf : ℕ) : Except Fault (Except ℤ (ℕ × ℕ) × State) := do
  let ok ← validBuffer s len buf
  if !ok then return (.error (-EINVAL), s)
  else do
    let tk ← s.cur
    let (a, s) ← newReq s tk .request
    match fdtableInsert a tk.fds with
    | none => do
      let s ← freeReq s a
      return (.error (-EMFILE), s)
    | some (fd, fds) => return (.ok (a, fd), s.setFds fds)

/-- `port_connect`. -/
def portConnect (s : State) (n : ℤ) (len buf : ℕ) : Except Fault (ℤ × State) := do
  let ops ← portAt s n
  if ops = none then return (-ENOENT, s)
  else do
    let (h, s) ← locked s fun s => connectHandle s len buf
    match h with
    | .error ret => return (ret, s)
    | .ok (a, fd) => do
      let (ret, s) ← connect s n a len buf
      if ret ≠ 0 then do
        let s ← freeReq s a
        let s ← clearFd s fd
        return (ret, s)
      else return (fd, s)

/-- The handle with number `fd`, for a caller that tests `fd` as `fd > max_fds`. -/
def handleAt (tk : Task) (fd : ℤ) : Except Fault (Option ℕ) :=
  if fd < 0 ∨ (tk.fds.length : ℤ) < fd then .ok none else fileAt tk.fds fd.toNat

/-- The same for a caller that tests it as `fd >= max_fds`. -/
def handleBelow (tk : Task) (fd : ℤ) : Except Fault (Option ℕ) :=
  if fd < 0 ∨ (tk.fds.length : ℤ) ≤ fd then .ok none else fileAt tk.fds fd.toNat

theorem fileAt_ok {tab : FdTable} {fd : ℕ} {f : Option ℕ} (h : fileAt tab fd = .ok f) :
    tab[fd]? = some f := by
  unfold fileAt at h
  split at h
  · rename_i hf
    rw [hf, Except.ok.inj h]
  · cases h

theorem handleAt_get {tk : Task} {fd : ℤ} {a : ℕ} (h : handleAt tk fd = .ok (some a)) :
    0 ≤ fd ∧ tk.fds[fd.toNat]? = some (some a) := by
  unfold handleAt at h
  split at h
  · cases h
  · exact ⟨by omega, fileAt_ok h⟩

theorem handleBelow_get {tk : Task} {fd : ℤ} {a : ℕ} (h : handleBelow tk fd = .ok (some a)) :
    0 ≤ fd ∧ tk.fds[fd.toNat]? = some (some a) := by
  unfold handleBelow at h
  split at h
  · cases h
  · exact ⟨by omega, fileAt_ok h⟩

/-- `request` on the handle `a`, once it is known to be a connection.  Its error exit
frees the connection, not the new cookie. -/
def requestOn (s : State) (tk : Task) (ops : ReqOps) (a len buf : ℕ) :
    Except Fault (ℤ × State) := do
  let (c, s) ← newReq s tk .cookie
  match fdtableInsert c tk.fds with
  | none => do
    let s ← freeReq s c
    return (-EMFILE, s)
  | some (fd, fds) => do
    let (ret, s) ← ropsRequest (s.setFds fds) ops a c len buf
    if ret ≠ 0 then do
      let s ← freeReq s a
      let s ← clearFd s fd
      return (ret, s)
    else return (fd, s)

/-- `request`. -/
def request (s : State) (rd : ℤ) (len buf : ℕ) : Except Fault (ℤ × State) :=
  locked s fun s => do
    let tk ← s.cur
    match ← handleAt tk rd with
    | none => return (-EINVAL, s)
    | some a => do
      let r ← s.getReq a
      if r.type ≠ .request then return (-EBADF, s)
      else do
        let ops ← State.ropsOf r
        if !ops.hasRequest then return (-EBADF, s)
        else do
          let ok ← validBuffer s len buf
          if !ok then return (-EFAULT, s) else requestOn s tk ops a len buf

/-- Words of memory, little endian. -/
def wordBytes (l : List ℕ) (i : ℕ) : UInt8 := UInt8.ofNat (l.getD (i / 8) 0 / 256 ^ (i % 8))

/-- `struct response` in memory. -/
def Response.bytes (res : Response) : ℕ → UInt8 := wordBytes [res.len, res.buf]

/-- `get_response`. -/
def getResponse (s : State) (cookie : ℤ) (res : ℕ) : Except Fault (ℤ × State) :=
  locked s fun s => do
    let ok ← liftMm (Mm.validateRange s.mm res 16)
    if !ok then return (-EFAULT, s)
    else do
      let tk ← s.cur
      match ← handleAt tk cookie with
      | none => return (-EBADF, s)
      | some a => do
        let r ← s.getReq a
        let ops ← State.ropsOf r
        if !ops.hasGetResponse then return (-EBADF, s)
        else do
          let ((ret, xres), s) ← ropsGetResponse s ops a r
          if ret ≠ 0 then return (ret, s)
          else do
            let s ← (if r.type = .cookie then do
                let s ← clearFd s cookie.toNat
                freeReq s a
              else .ok s)
            s.runMm (Mm.copyToUserSimple s.mm xres.bytes res 16)

/-! ## Calls of servers -/

/-- `register_port` with `uport_pops`. -/
def registerPort (s : State) (n : ℤ) : Except Fault (ℤ × State) := do
  let i ← portIndex n
  if s.port i ≠ none then return (-EBUSY, s)
  else return (0, { s with port := Function.update s.port i (some .uport) })

/-- One task that waits for the port. -/
def wakeWaiter (i : ℕ) (s : State) (t : ℕ) : Except Fault State :=
  wakeUp { s with
    portWaitList := Function.update s.portWaitList i ((s.portWaitList i).erase t) } t

/-- `open_port`.  Where it has no number for the handle, the port stays registered. -/
def openPort (s : State) (n : ℤ) : Except Fault (ℤ × State) :=
  locked s fun s => do
    let (ret, s) ← registerPort s n
    if ret < 0 then return (ret, s)
    else do
      let i ← portIndex n
      let tk ← s.cur
      let (a, s) ← s.alloc tk.filePool
      match fdtableInsert a tk.fds with
      | none => do
        let s ← freeReq s a
        return (-EMFILE, s)
      | some (fd, fds) => do
        let s := s.setFds fds
        let (u, s) ← s.alloc tk.filePool
        let s := s.setReq a
          { owner := s.current, rops := some .uportServer, data := .obj u, type := .port,
            state := .server, waitedRw := s.junk a, nextReq := none }
        let s := s.setBody u (.uport ⟨[], n⟩)
        let s := { s with uport := Function.update s.uport i (some a) }
        let (_, s) ← registerPort s n
        let s ← (s.portWaitList i).foldlM (wakeWaiter i) s
        return (fd, s)

/-- `struct urequest` in memory. -/
def urequestBytes (len buf : ℕ) (pid : ℤ) : ℕ → UInt8 :=
  wordBytes [len, buf, (pid % 2 ^ 32).toNat]

/-- A server handle that `pop_request` sets up. -/
def serverReq (s : State) (data : Data) (type : ReqType) : Request :=
  { owner := s.current, rops := some .uportServer, data, type, state := .server, waitedRw := 0,
    nextReq := none }

/-- The last part of `pop_request`: the message `m` leaves its list, and the new handle
`sreq` stands for it at the server. -/
def acceptMessage (s : State) (type : ReqType) (m : ℕ) (msg : Message) (sreq : ℕ) :
    Except Fault State := do
  let client ← s.getReq msg.clientReq
  let clientTask ← s.getTask client.owner
  let s ← unqueue s m
  let s ← freePayload s msg.plh
  let s ← s.free clientTask.filePool m
  let tk ← s.cur
  let (x, s) ← s.alloc tk.filePool
  let s ← (if type = .port then do
      let s := s.setBody x (.uportReq ⟨[], []⟩)
      let s ← linkReq s msg.clientReq (.clients x)
      let s := s.setReq sreq (serverReq s (.obj x) .portReq)
      let creq ← s.getReq msg.clientReq
      return s.setReq msg.clientReq { creq with data := .obj sreq, state := .established }
    else do
      let s := s.setBody x (.cookie ⟨some msg.clientReq, none, s.current⟩)
      let s := s.setReq sreq (serverReq s (.obj x) .portCookie)
      let creq ← s.getReq msg.clientReq
      return s.setReq msg.clientReq { creq with data := .obj x, state := .established })
  let creq ← s.getReq msg.clientReq
  notify s creq (creq.waitedRw &&& 2 ≠ 0)

/-- `pop_request` with a message at hand.  An error exit after the first leaves the new
handle in the table as it came from the pool. -/
def popMessage (s : State) (type : ReqType) (m buf : ℕ) : Except Fault (ℤ × State) := do
  let tk ← s.cur
  let (sreq, s) ← s.alloc tk.filePool
  match fdtableInsert sreq tk.fds with
  | none => return (-EMFILE, s)
  | some (fd, fds) => do
    let s := s.setFds fds
    let msg ← s.getMsg m
    let ((vaddr, len), s) ← (match msg.plh with
      | some plh => do
        let (vaddr, s) ← s.runMm (Mm.mapToUser s.mm plh 0)
        let head ← liftMm (s.mm.getPlist plh)
        return ((vaddr + head.startOffset, 4096 * head.npage), s)
      | none => .ok ((0, 0), s))
    if vaddr < 0 then return (vaddr, s)
    else do
      let client ← s.getReq msg.clientReq
      let clientTask ← s.getTask client.owner
      let (ret, s) ← s.runMm (Mm.copyToUserSimple s.mm
        (urequestBytes len vaddr.toNat clientTask.pid) buf 24)
      if ret ≠ 0 then do
        let s ← s.execMm (Mm.removeVmaRange s.mm s.mm.current vaddr.toNat len)
        return (-EFAULT, s)
      else do
        let s ← acceptMessage s type m msg sreq
        return (fd, s)

/-- `pop_request`. -/
def popRequest (s : State) (rd : ℤ) (buf : ℕ) : Except Fault (ℤ × State) :=
  locked s fun s => do
    let tk ← s.cur
    match ← handleAt tk rd with
    | none => return (-EBADF, s)
    | some a => do
      let r ← s.getReq a
      if r.type ≠ .port ∧ r.type ≠ .portReq then return (-EBADF, s)
      else do
        let q ← r.data.ptr
        match ← s.getIncoming q with
        | m :: _ => popMessage s r.type m buf
        | [] =>
          if r.type = .port then return (-EAGAIN, s)
          else do
            let u ← s.getUportReq q
            if u.clients ≠ [] then return (-EAGAIN, s)
            else do
              -- all clients are gone
              let (ret, s) ← s.runMm (Mm.copyToUserSimple s.mm (urequestBytes 0 0 (-1)) buf 24)
              return (if ret < 0 then -EFAULT else 0, s)

/-- `respond`, which returns `-EFAULT` where it delivers the response, too. -/
def respond (s : State) (fd : ℤ) (len buf : ℕ) : Except Fault (ℤ × State) :=
  locked s fun s => do
    let tk ← s.cur
    match ← handleBelow tk fd with
    | none => return (-EBADF, s)
    | some a => do
      let r ← s.getReq a
      if r.type ≠ .portCookie then return (-EBADF, s)
      else do
        let ca ← r.data.ptr
        let c ← s.getCookie ca
        match c.clientReq with
        | none => return (-EPIPE, s)
        | some client => do
          let cr ← s.getReq client
          if cr.type ≠ .cookie then .error (.panic "Wrong type for client_req")
          else do
            let (plh, s) ← s.runMm (Mm.mapFromUser s.mm buf len)
            match plh with
            | .error _ => return (-EFAULT, s)
            | .ok plh => do
              let s ← clearFd s fd.toNat
              let s ← freeReq s a
              let s := s.setBody ca (.cookie { c with response := some plh })
              let s ← notify s cr (cr.waitedRw &&& 1 ≠ 0)
              return (-EFAULT, s)

/-! ## Calls of both -/

/-- `close`. -/
def close (s : State) (fd : ℤ) : Except Fault (ℤ × State) := do
  let tk ← s.cur
  match ← handleAt tk fd with
  | none => return (-EBADF, s)
  | some a => do
    let s ← clearFd s fd.toNat
    let r ← s.getReq a
    let ops ← State.ropsOf r
    let s ← ropsDrop s ops a
    let s ← freeReq s a
    return (0, s)

/-- `dup0`.  Without `dup` in its operations the new handle gets none. -/
def dup0 (s : State) (oldFd newFd : ℤ) : Except Fault (ℤ × State) := do
  let tk ← s.cur
  match ← handleBelow tk oldFd with
  | none => return (-EBADF, s)
  | some a =>
    if 0 ≤ newFd ∧ (tk.fds.length : ℤ) ≤ newFd then return (-EBADF, s)
    else do
      let taken ← (if 0 ≤ newFd then fileAt tk.fds newFd.toNat else .ok none)
      if taken ≠ none then return (-EBUSY, s)
      else do
        let r ← s.getReq a
        let (new, s) ← newReq s tk r.type
        match (if newFd < 0 then fdtableInsert new tk.fds
          else some (newFd.toNat, tk.fds.set newFd.toNat (some new))) with
        | none => do
          let s ← freeReq s new
          return (-EMFILE, s)
        | some (fd, fds) => do
          let ops ← State.ropsOf r
          let (ret, s) ← ropsDup (s.setFds fds) ops r new
          if ret ≠ 0 then do
            let s ← clearFd s fd
            let s ← freeReq s new
            return (ret, s)
          else return (fd, s)

end SadOS.Kernel
