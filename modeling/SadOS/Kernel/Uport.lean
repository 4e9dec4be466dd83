import SadOS.Kernel.Services

/-!
# Ports of user programs

`sys/ipc/uport.c` without its system calls: what a connection and a cookie do at the
end of a client (`uport_client_rops`) and at the end of a server
(`uport_server_rops`).

## Main definitions

* `uportConnect`, `uportRequest`, `uportGetResponse` — a message and its answer.
* `uportDup` — another handle of a connection.
* `uportUserClose`, `uportServerClose` — the ends of handles.
* `uportUserAvailable`, `uportServerAvailable` — what `wait_on` asks.
-/

namespace SadOS.Kernel

/-- The page list of a buffer, which may be left out.  `none` is the error of
`map_from_user`. -/
def mapPayload (s : State) (len buf : ℕ) : Except Fault (Option (Option ℕ) × State) :=
  if buf ≠ 0 ∨ len ≠ 0 then do
    let (plh, s) ← s.runMm (Mm.mapFromUser s.mm buf len)
    match plh with
    | .ok plh => return (some (some plh), s)
    | .error _ => return (none, s)
  else .ok (some none, s)

/-- `page_list_free` of the page list of a message, if it has one. -/
def freePayload (s : State) : Option ℕ → Except Fault State
  | some plh => s.execMm (Mm.pageListFree s.mm plh)
  | none => .ok s

/-- A message of the current task. -/
def newMessage (s : State) (plh : Option ℕ) (clientReq : ℕ) : Except Fault (ℕ × State) := do
  let tk ← s.cur
  let (m, s) ← s.alloc tk.filePool
  return (m, s.setBody m (.message ⟨plh, clientReq, none⟩))

/-- `wake_up` of the owner of a handle, under a condition on its `waited_rw`. -/
def notify (s : State) (r : Request) (waited : Bool) : Except Fault State :=
  if waited then wakeUp s r.owner else .ok s

/-! ## Messages -/

/-- `uport_connect`. -/
def uportConnect (s : State) (n a len buf : ℕ) : Except Fault (ℤ × State) := do
  let (plh, s) ← mapPayload s len buf
  match plh with
  | none => return (-EFAULT, s)
  | some plh => do
    let (m, s) ← newMessage s plh a
    match s.uport n with
    | none => .error .nullObject
    | some p => do
      let preq ← s.getReq p
      let up ← preq.data.ptr
      let r ← s.getReq a
      let s := s.setReq a { r with data := .null, rops := some .uportClient, state := .pending }
      let s ← enqueue s up m
      let s ← notify s preq (preq.waitedRw &&& 1 ≠ 0)
      return (0, s)

/-- `uport_request` on the connection `a`, for the cookie `c`. -/
def uportRequest (s : State) (a c len buf : ℕ) : Except Fault (ℤ × State) := do
  let r ← s.getReq a
  if r.state = .closed then return (-EPIPE, s)
  else if r.state = .pending then return (-EAGAIN, s)
  else if r.data = .null then .error (.panic "connection established but sreq not set")
  else do
    let sreq ← r.data.ptr
    let (plh, s) ← mapPayload s len buf
    match plh with
    | none => return (-EFAULT, s)
    | some plh => do
      let (m, s) ← newMessage s plh c
      let rc ← s.getReq c
      let s := s.setReq c { rc with data := .obj m, state := .pending, rops := some .uportClient }
      let sr ← s.getReq sreq
      let up ← sr.data.ptr
      let s ← enqueue s up m
      let s ← notify s sr (sr.waitedRw &&& 1 ≠ 0)
      return (0, s)

/-- `uport_get_response`. -/
def uportGetResponse (s : State) (r : Request) : Except Fault ((ℤ × Response) × State) :=
  if r.type ≠ .cookie then .ok ((-EBADF, ⟨0, 0⟩), s)
  else if r.state = .closed then .ok ((0, ⟨0, 0⟩), s)
  else if r.state = .pending then .ok ((-EAGAIN, ⟨0, 0⟩), s)
  else do
    let a ← r.data.ptr
    let c ← s.getCookie a
    match c.response with
    | none => return ((-EAGAIN, ⟨0, 0⟩), s)
    | some plh => do
      let (vaddr, s) ← s.runMm (Mm.mapToUser s.mm plh 0)
      if vaddr < 0 then return ((-ENOMEM, ⟨0, 0⟩), s)
      else do
        let head ← liftMm (s.mm.getPlist plh)
        let s ← s.execMm (Mm.pageListFree s.mm plh)
        let owner ← s.getTask c.owner
        let s ← s.free owner.filePool a
        return ((0, ⟨4096 * head.npage, vaddr.toNat + head.startOffset⟩), s)

/-- `uport_dup`. -/
def uportDup (s : State) (old : Request) (new : ℕ) : Except Fault (ℤ × State) :=
  if old.type ≠ .request then .ok (-EBADF, s)
  else if old.state ≠ .established then .ok (-EAGAIN, s)
  else do
    let r ← s.getReq new
    let s := s.setReq new { r with data := old.data, state := old.state, rops := old.rops }
    let sreq ← old.data.ptr
    let sr ← s.getReq sreq
    let up ← sr.data.ptr
    let s ← linkReq s new (.clients up)
    return (0, s)

/-! ## The end of handles -/

/-- `uport_user_close`. -/
def uportUserClose (s : State) (a : ℕ) : Except Fault State := do
  let r ← s.getReq a
  if r.state = .pending then
    let m ← r.data.ptr
    let msg ← s.getMsg m
    let s ← unqueue s m
    let s ← freePayload s msg.plh
    let client ← s.getReq msg.clientReq
    let task ← s.getTask client.owner
    s.free task.filePool m
  else match r.type with
    | .request => unlinkReq s a
    | .cookie => do
      let ca ← r.data.ptr
      let c ← s.getCookie ca
      match c.response with
      | some plh => do
        let s ← freePayload s (some plh)
        let owner ← s.getTask c.owner
        s.free owner.filePool ca
      | none => return s.setBody ca (.cookie { c with clientReq := none })
    | _ => .error (.panic "user_close on wrong request")

/-- `state = REQ_CLOSED` in a handle of a client, which is woken if it waits. -/
def closeClient (s : State) (a : ℕ) : Except Fault State := do
  let r ← s.getReq a
  notify (s.setReq a { r with state := .closed }) r (r.waitedRw ≠ 0)

/-- A message that waits at a port goes with the port. -/
def dropConnect (s : State) (m : ℕ) : Except Fault State := do
  let msg ← s.getMsg m
  let s ← freePayload s msg.plh
  let client ← s.getReq msg.clientReq
  let task ← s.getTask client.owner
  let s ← closeClient s msg.clientReq
  s.free task.filePool m

/-- A message that waits at a connection goes with the connection. -/
def dropMessage (s : State) (m : ℕ) : Except Fault State := do
  let msg ← s.getMsg m
  let s ← freePayload s msg.plh
  let client ← s.getReq msg.clientReq
  let task ← s.getTask client.owner
  s.free task.filePool m

/-- A client of a connection that the server closes. -/
def dropClient (s : State) (a : ℕ) : Except Fault State := do
  let r ← s.getReq a
  let s := s.setReq a { r with state := .closed }
  let s ← unlinkReq s a
  notify s r (r.waitedRw ≠ 0)

/-- `uport_server_close`. -/
def uportServerClose (s : State) (a : ℕ) : Except Fault State := do
  let r ← s.getReq a
  let tk ← s.cur
  match r.type with
  | .port => do
    let ua ← r.data.ptr
    let up ← s.getUport ua
    let s ← up.incoming.foldlM dropConnect s
    let n ← portIndex up.portNumber
    let s := { s with
      port := Function.update s.port n none
      uport := Function.update s.uport n none }
    s.free tk.filePool ua
  | .portReq => do
    let ua ← r.data.ptr
    let up ← s.getUportReq ua
    let s ← up.clients.foldlM dropClient s
    let s ← up.incoming.foldlM dropMessage s
    s.free tk.filePool ua
  | .portCookie => do
    let ca ← r.data.ptr
    let c ← s.getCookie ca
    let s ← (match c.clientReq with
      | some client => closeClient s client
      | none => .ok s)
    if c.response ≠ none then
      .error (.panic "cookie already has a response, but it's still in fdtable")
    else s.free tk.filePool ca
  | _ => .error (.panic "server_close called on wrong type")

/-! ## What `wait_on` asks -/

/-- `uport_user_available`. -/
def uportUserAvailable (s : State) (r : Request) (rw : ℕ) : Except Fault Bool :=
  if r.state = .closed then .ok true
  else match r.type with
    | .request => .ok (rw = 2 ∧ r.state = .established)
    | .cookie =>
      if rw = 2 then .ok false
      else if r.state = .pending then .ok false
      else do
        let c ← s.getCookie (← r.data.ptr)
        return c.response.isSome
    | _ => .error (.panic "user_available() on wrong type")

/-- `uport_server_available`. -/
def uportServerAvailable (s : State) (r : Request) (rw : ℕ) : Except Fault Bool :=
  if rw = 2 then
    if r.type ≠ .portCookie then .ok false
    else do
      let c ← s.getCookie (← r.data.ptr)
      if c.response ≠ none then
        .error (.panic "response already sent but cookie is still here")
      else return true
  else match r.type with
    | .portCookie => .ok false
    | .port => do
      let u ← s.getUport (← r.data.ptr)
      return !u.incoming.isEmpty
    | .portReq => do
      let u ← s.getUportReq (← r.data.ptr)
      return !u.incoming.isEmpty
    | _ => .error (.panic "server_available() on wrong req")

end SadOS.Kernel
