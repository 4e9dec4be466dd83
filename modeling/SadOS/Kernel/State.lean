import SadOS.Mm.MemPort

/-!
# The state of the kernel

The tasks of `include/sys/sched.h`, the handles of `include/sys/port.h` and the
objects of `sys/ipc/uport.c` that they lead to.  A handle, a message, a port, a
connection or a cookie is an object of the `file_pool` of some task and is named by
its address; a list of such objects is the list of their addresses.

## Main definitions

* `Task`, `Request`, `Message`, `Uport`, `UportReq`, `UportCookie`.
* `State` — the state.
* `Fault` — the ways in which kernel code stops.
* `State.getReq` and its siblings — reads through pointers.
* `State.alloc`, `State.free` — `obj_pool_alloc` and `obj_pool_free`.
* `linkReq`, `unlinkReq` — the list that a handle is linked in.
* `enqueue`, `unqueue` — the list that a message is linked in.
-/

namespace SadOS.Kernel

/-- `max_fds`: a table of handles takes one page, with two words for its head. -/
def MAX_FDS : ℕ := 510
def MAX_PORT : ℕ := 4096
/-- The length of `tasks`. -/
def MAX_TASKS : ℕ := 32767

def ENOENT : ℤ := 2
def EBADF : ℤ := 9
def EAGAIN : ℤ := 11
def ENOMEM : ℤ := 12
def EFAULT : ℤ := 14
def EBUSY : ℤ := 16
def EINVAL : ℤ := 22
def EMFILE : ℤ := 24
def EPIPE : ℤ := 32

/-- The ways in which kernel code stops. -/
inductive Fault
  /-- A fault of the memory manager. -/
  | mm (e : SadOS.Fault)
  | panic (msg : String)
  /-- A null pointer taken for a handle or an object behind one. -/
  | nullObject
  /-- A pointer to an object that is free, not set up, or of another kind. -/
  | badObject
  /-- `list_del` of a node that is on no list. -/
  | badUnlink
  /-- A table access outside the table. -/
  | outOfBounds
  deriving DecidableEq, Repr

@[simp] theorem ok_bind {α β : Type} (a : α) (f : α → Except Fault β) :
    ((.ok a : Except Fault α) >>= f) = f a := rfl

@[simp] theorem error_bind {α β : Type} (e : Fault) (f : α → Except Fault β) :
    ((.error e : Except Fault α) >>= f) = .error e := rfl

@[simp] theorem pure_eq_ok {α : Type} (a : α) : (pure a : Except Fault α) = .ok a := rfl

/-! ## Handles and messages -/

/-- `enum req_type`. -/
inductive ReqType
  | cookie | request | port | portReq | portCookie
  deriving DecidableEq, Repr

/-- `enum req_state`. -/
inductive ReqState
  | server | pending | established | closed
  deriving DecidableEq, Repr

/-- The `struct req_ops` of the kernel. -/
inductive ReqOps
  | uportServer | uportClient | mem | tarfs | bda | portio | int
  deriving DecidableEq, Repr

/-- The `struct port_ops` of the kernel. -/
inductive PortOps
  | uport | mem | tarfs | bda | portio | int
  deriving DecidableEq, Repr

/-- What `data` of a handle holds. -/
inductive Data
  | null
  /-- What the pool left there. -/
  | junk
  /-- A pointer to an object. -/
  | obj (a : ℕ)
  /-- A number, as the services for interrupts and for I/O ports store it. -/
  | word (n : ℕ)
  /-- A pointer to a `struct mem_data`, which has a pool of its own. -/
  | mem (buf len : ℕ)
  deriving DecidableEq, Repr

/-- The list that `next_req` of a handle is linked in. -/
inductive ReqList
  /-- `clients` of a connection. -/
  | clients (a : ℕ)
  /-- `int_wait_list` of an interrupt. -/
  | int (vector : ℕ)
  deriving DecidableEq, Repr

/-- `struct request`.  `rops` is `none` where nobody has set it, `nextReq` where the
node is on no list. -/
structure Request where
  owner : ℕ
  rops : Option ReqOps
  data : Data
  type : ReqType
  state : ReqState
  waitedRw : ℕ
  nextReq : Option ReqList
  deriving DecidableEq, Repr

/-- `struct message`.  `next` is the port or the connection whose `incoming` list its
node is linked in. -/
structure Message where
  plh : Option ℕ
  clientReq : ℕ
  next : Option ℕ
  deriving DecidableEq, Repr

/-- `struct uport`. -/
structure Uport where
  incoming : List ℕ
  portNumber : ℤ
  deriving DecidableEq, Repr

/-- `struct uport_req`. -/
structure UportReq where
  clients : List ℕ
  incoming : List ℕ
  deriving DecidableEq, Repr

/-- `struct uport_cookie`. -/
structure UportCookie where
  clientReq : Option ℕ
  response : Option ℕ
  owner : ℕ
  deriving DecidableEq, Repr

/-- What an object of a `file_pool` is used for. -/
inductive Body
  /-- What `obj_pool_alloc` returns. -/
  | blank
  | request (r : Request)
  | message (m : Message)
  | uport (u : Uport)
  | uportReq (u : UportReq)
  | cookie (c : UportCookie)
  deriving DecidableEq, Repr

/-- An object that is in use, with its pool. -/
structure Obj where
  pool : ℕ
  body : Body
  deriving DecidableEq, Repr

/-! ## Tasks -/

/-- `enum task_state`. -/
inductive TaskState
  | runnable | running | waiting | zombie
  deriving DecidableEq, Repr

/-- `struct fd_set`, with the eight words of `bitmask`. -/
structure FdSet where
  nfds : ℤ
  bitmask : ℕ → ℕ

/-- What a task goes on with after `schedule()`. -/
inductive Kont
  /-- The loop of `wait_on`. -/
  | waitOn (rbuf wbuf : ℕ) (rfds wfds : FdSet)
  /-- The loop of `wait_on_port`. -/
  | waitOnPort (portNumber : ℤ)
  /-- Nothing: `exit`, or the end of a task that was killed. -/
  | exit
  /-- The loop of the idle task. -/
  | idle

/-- Where a task is. -/
inductive Pc
  | user
  /-- Before the call of `schedule()`. -/
  | sleep (k : Kont)
  /-- After `schedule()` returned. -/
  | woken (k : Kont)

/-- A table of handles or address spaces. -/
abbrev FdTable := List (Option ℕ)

/-- `struct task`. -/
structure Task where
  state : TaskState
  pid : ℕ
  parent : Option ℕ
  children : List ℕ
  fds : FdTable
  astable : FdTable
  filePool : ℕ
  /-- `as`, which the idle task does not have. -/
  space : Option ℕ
  pc : Pc

/-- The state of the kernel. -/
structure State where
  mm : Mm.State
  /-- The objects in use. -/
  objs : ℕ → Option Obj
  /-- The next object that was never in use. -/
  nextObj : ℕ
  /-- `free_list` of the pools, while they exist. -/
  pools : ℕ → Option (List ℕ)
  nextPool : ℕ
  /-- What the pools leave in `waited_rw` of an object they give out. -/
  junk : ℕ → ℕ
  port : ℕ → Option PortOps
  uport : ℕ → Option ℕ
  portWaitList : ℕ → List ℕ
  intWaitList : ℕ → List ℕ
  /-- The tasks by their addresses. -/
  task : ℕ → Option Task
  nextTask : ℕ
  /-- `tasks`, by process number. -/
  tasks : ℕ → Option ℕ
  runq : List ℕ
  current : ℕ
  idleTask : ℕ
  toKill : Option ℕ
  /-- What the I/O ports read. -/
  inport : ℕ → ℕ
  /-- `_binary_tarfs_start` and `_binary_tarfs_end`, from `physoffset` on. -/
  tarfs : ℕ × ℕ

namespace State

variable (s : State)

def setMm (m : Mm.State) : State := { s with mm := m }

/-! ### Reads through pointers -/

def getTask (t : ℕ) : Except Fault Task :=
  match s.task t with
  | some tk => .ok tk
  | none => .error .badObject

def getReq (a : ℕ) : Except Fault Request :=
  match s.objs a with
  | some ⟨_, .request r⟩ => .ok r
  | _ => .error .badObject

def getMsg (a : ℕ) : Except Fault Message :=
  match s.objs a with
  | some ⟨_, .message m⟩ => .ok m
  | _ => .error .badObject

def getUport (a : ℕ) : Except Fault Uport :=
  match s.objs a with
  | some ⟨_, .uport u⟩ => .ok u
  | _ => .error .badObject

def getUportReq (a : ℕ) : Except Fault UportReq :=
  match s.objs a with
  | some ⟨_, .uportReq u⟩ => .ok u
  | _ => .error .badObject

def getCookie (a : ℕ) : Except Fault UportCookie :=
  match s.objs a with
  | some ⟨_, .cookie c⟩ => .ok c
  | _ => .error .badObject

/-- The handle in an entry of a table of handles, with the operations of the handle. -/
def ropsOf (r : Request) : Except Fault ReqOps :=
  match r.rops with
  | some ops => .ok ops
  | none => .error .badObject

/-! ### Writes -/

def setTask (t : ℕ) (tk : Task) : State := { s with task := Function.update s.task t (some tk) }

/-- Store an object at the address of an object in use. -/
def setBody (a : ℕ) (b : Body) : State :=
  { s with objs := Function.update s.objs a ((s.objs a).map fun o => { o with body := b }) }

def setReq (a : ℕ) (r : Request) : State := s.setBody a (.request r)

theorem setTask_self (t : ℕ) (tk : Task) : (s.setTask t tk).task t = some tk :=
  Function.update_self ..

theorem setTask_of_ne {t t' : ℕ} (h : t' ≠ t) (tk : Task) : (s.setTask t tk).task t' = s.task t' :=
  Function.update_of_ne h ..

theorem setBody_self (a : ℕ) (b : Body) :
    (s.setBody a b).objs a = (s.objs a).map fun o => { o with body := b } :=
  Function.update_self ..

theorem setBody_of_ne {a a' : ℕ} (h : a' ≠ a) (b : Body) : (s.setBody a b).objs a' = s.objs a' :=
  Function.update_of_ne h ..

end State

/-! ### What was read -/

section Reads

variable {s : State} {a : ℕ}

theorem getTask_ok {t : ℕ} {tk : Task} (h : s.getTask t = .ok tk) : s.task t = some tk := by
  unfold State.getTask at h
  split at h
  · rename_i htask
    rw [htask, Except.ok.inj h]
  · cases h

theorem getTask_eq {t : ℕ} {tk : Task} (h : s.task t = some tk) : s.getTask t = .ok tk := by
  rw [State.getTask, h]

theorem getReq_ok {r : Request} (h : s.getReq a = .ok r) : ∃ p, s.objs a = some ⟨p, .request r⟩ := by
  unfold State.getReq at h
  split at h
  · rename_i p r' hobj
    cases h
    exact ⟨p, hobj⟩
  · cases h

theorem getReq_eq {p : ℕ} {r : Request} (h : s.objs a = some ⟨p, .request r⟩) : s.getReq a = .ok r := by
  rw [State.getReq, h]

/-- A handle after a change of it. -/
theorem getReq_setReq {r₀ : Request} (h : s.getReq a = .ok r₀) (r : Request) :
    (s.setReq a r).getReq a = .ok r := by
  obtain ⟨p, hobj⟩ := getReq_ok h
  refine getReq_eq (p := p) ?_
  rw [State.setReq, State.setBody_self, hobj]
  rfl

theorem getMsg_ok {m : Message} (h : s.getMsg a = .ok m) : ∃ p, s.objs a = some ⟨p, .message m⟩ := by
  unfold State.getMsg at h
  split at h
  · rename_i p m' hobj
    cases h
    exact ⟨p, hobj⟩
  · cases h

theorem getUport_ok {u : Uport} (h : s.getUport a = .ok u) : ∃ p, s.objs a = some ⟨p, .uport u⟩ := by
  unfold State.getUport at h
  split at h
  · rename_i p u' hobj
    cases h
    exact ⟨p, hobj⟩
  · cases h

theorem getUportReq_ok {u : UportReq} (h : s.getUportReq a = .ok u) :
    ∃ p, s.objs a = some ⟨p, .uportReq u⟩ := by
  unfold State.getUportReq at h
  split at h
  · rename_i p u' hobj
    cases h
    exact ⟨p, hobj⟩
  · cases h

theorem getCookie_ok {c : UportCookie} (h : s.getCookie a = .ok c) :
    ∃ p, s.objs a = some ⟨p, .cookie c⟩ := by
  unfold State.getCookie at h
  split at h
  · rename_i p c' hobj
    cases h
    exact ⟨p, hobj⟩
  · cases h

end Reads

/-- The object that `data` points to. -/
def Data.ptr : Data → Except Fault ℕ
  | .null => .error .nullObject
  | .obj a => .ok a
  | _ => .error .badObject

theorem Data.ptr_ok {d : Data} {a : ℕ} (h : d.ptr = .ok a) : d = .obj a := by
  cases d <;> cases h
  rfl

/-- A computation of the memory manager. -/
def liftMm {α : Type} : Except SadOS.Fault α → Except Fault α
  | .ok a => .ok a
  | .error e => .error (.mm e)

/-- A computation of the memory manager that changes its state. -/
def State.runMm {α : Type} (s : State) (x : Except SadOS.Fault (α × Mm.State)) :
    Except Fault (α × State) :=
  match x with
  | .ok (a, m) => .ok (a, s.setMm m)
  | .error e => .error (.mm e)

/-- The same without a value. -/
def State.execMm (s : State) (x : Except SadOS.Fault Mm.State) : Except Fault State :=
  match x with
  | .ok m => .ok (s.setMm m)
  | .error e => .error (.mm e)

/-- `disable_interrupts`. -/
def disableInterrupts (s : State) : State := s.setMm (Mm.disableInterrupts s.mm)

/-- `enable_interrupts`. -/
def enableInterrupts (s : State) : Except Fault State := s.execMm (Mm.enableInterrupts s.mm)

/-- The code between `disable_interrupts` and the `enable_interrupts` that stands before
each of its returns. -/
def locked {α : Type} (s : State) (f : State → Except Fault (α × State)) :
    Except Fault (α × State) := do
  let (r, s) ← f (disableInterrupts s)
  let s ← enableInterrupts s
  return (r, s)

/-! ## Object pools -/

/-- `obj_pool_alloc`. -/
def State.alloc (s : State) (pool : ℕ) : Except Fault (ℕ × State) :=
  match s.pools pool with
  | none => .error .badObject
  | some (a :: rest) => .ok (a, { s with
      objs := Function.update s.objs a (some ⟨pool, .blank⟩)
      pools := Function.update s.pools pool (some rest) })
  | some [] => .ok (s.nextObj, { s with
      objs := Function.update s.objs s.nextObj (some ⟨pool, .blank⟩)
      nextObj := s.nextObj + 1 })

/-- `obj_pool_free`. -/
def State.free (s : State) (pool a : ℕ) : Except Fault State :=
  match s.pools pool, s.objs a with
  | some l, some _ => .ok { s with
      objs := Function.update s.objs a none
      pools := Function.update s.pools pool (some (a :: l)) }
  | _, _ => .error .badObject

/-- `obj_pool_create`. -/
def State.poolCreate (s : State) : ℕ × State :=
  (s.nextPool, { s with
    pools := Function.update s.pools s.nextPool (some []), nextPool := s.nextPool + 1 })

/-- `obj_pool_destroy`. -/
def State.poolDestroy (s : State) (pool : ℕ) : State :=
  { s with
    objs := fun a => (s.objs a).filter fun o => o.pool ≠ pool
    pools := Function.update s.pools pool none }

/-! ## Lists of handles -/

/-- `list_add` of `next_req`. -/
def linkReq (s : State) (a : ℕ) (l : ReqList) : Except Fault State := do
  let r ← s.getReq a
  let s := s.setReq a { r with nextReq := some l }
  match l with
  | .clients u => do
    let up ← s.getUportReq u
    return s.setBody u (.uportReq { up with clients := a :: up.clients })
  | .int v => return { s with intWaitList := Function.update s.intWaitList v (a :: s.intWaitList v) }

/-- `list_del` of `next_req`. -/
def unlinkReq (s : State) (a : ℕ) : Except Fault State := do
  let r ← s.getReq a
  let s := s.setReq a { r with nextReq := none }
  match r.nextReq with
  | none => .error .badUnlink
  | some (.clients u) => do
    let up ← s.getUportReq u
    return s.setBody u (.uportReq { up with clients := up.clients.erase a })
  | some (.int v) =>
    return { s with intWaitList := Function.update s.intWaitList v ((s.intWaitList v).erase a) }

/-! ## Lists of messages -/

/-- The messages that wait at a port or a connection. -/
def State.getIncoming (s : State) (q : ℕ) : Except Fault (List ℕ) :=
  match s.objs q with
  | some ⟨_, .uport u⟩ => .ok u.incoming
  | some ⟨_, .uportReq u⟩ => .ok u.incoming
  | _ => .error .badObject

/-- Store the messages that wait at a port or a connection. -/
def State.setIncoming (s : State) (q : ℕ) (l : List ℕ) : State :=
  match s.objs q with
  | some ⟨_, .uport u⟩ => s.setBody q (.uport { u with incoming := l })
  | some ⟨_, .uportReq u⟩ => s.setBody q (.uportReq { u with incoming := l })
  | _ => s

/-- `list_add_tail` of a message. -/
def enqueue (s : State) (q m : ℕ) : Except Fault State := do
  let msg ← s.getMsg m
  let s := s.setBody m (.message { msg with next := some q })
  let l ← s.getIncoming q
  return s.setIncoming q (l ++ [m])

/-- `list_del` of a message. -/
def unqueue (s : State) (m : ℕ) : Except Fault State := do
  let msg ← s.getMsg m
  match msg.next with
  | none => .error .badUnlink
  | some q => do
    let s := s.setBody m (.message { msg with next := none })
    let l ← s.getIncoming q
    return s.setIncoming q (l.erase m)

/-! ## Tables -/

/-- `file[fd]`. -/
def fileAt (tab : FdTable) (fd : ℕ) : Except Fault (Option ℕ) :=
  match tab[fd]? with
  | some f => .ok f
  | none => .error .outOfBounds

/-- An index of `port`, `uport` and `port_wait_list`. -/
def portIndex (n : ℤ) : Except Fault ℕ :=
  if 0 ≤ n ∧ n < MAX_PORT then .ok n.toNat else .error .outOfBounds

/-- `current`. -/
def State.cur (s : State) : Except Fault Task := s.getTask s.current

/-- Store the table of handles of the current task. -/
def State.setFds (s : State) (fds : FdTable) : State :=
  match s.task s.current with
  | some tk => s.setTask s.current { tk with fds }
  | none => s

theorem setFds_rest (s : State) (fds : FdTable) :
    (s.setFds fds).mm = s.mm ∧ (s.setFds fds).port = s.port ∧ (s.setFds fds).objs = s.objs := by
  unfold State.setFds
  split <;> exact ⟨rfl, rfl, rfl⟩

/-- Store the table of address spaces of the current task. -/
def State.setAstable (s : State) (astable : FdTable) : State :=
  match s.task s.current with
  | some tk => s.setTask s.current { tk with astable }
  | none => s

/-- Store the state of the current task. -/
def State.setState (s : State) (state : TaskState) : State :=
  match s.task s.current with
  | some tk => s.setTask s.current { tk with state }
  | none => s

end SadOS.Kernel
