import SadOS.Kernel.Port

/-!
# System calls and the machine

The calls that block (`wait_on`, `wait_on_port`, `exit`), `create_task`, the calls of
the memory manager with the tables of the caller, and the steps of the machine: a system
call of the current task up to its return or to `schedule()`, the switch to another task,
what a task does after its `schedule()` returned, and a hardware interrupt.

## Main definitions

* `FdSet` — operations of `struct fd_set`.
* `waitOnPass`, `waitOnPortPass` — one pass of the loops that call `schedule()`.
* `createTask` — a new task, or another address space for the current one.
* `Call`, `syscall` — the system calls.
* `Action`, `step`, `run` — the machine.
* `boot` — the state in which the kernel first calls `schedule()`.
-/

namespace SadOS.Kernel

open Mm (fdtableInsert)

/-! ## Sets of descriptors -/

namespace FdSet

/-- `1 << (fd % 64)`, an `int` that is extended to 64 bits with its sign.  The processor
takes the count modulo 32. -/
def bit (fd : ℕ) : ℕ := if fd % 32 = 31 then 2 ^ 64 - 2 ^ 31 else 2 ^ (fd % 32)

/-- `fd_zero`. -/
def zero : FdSet := ⟨0, fun _ => 0⟩

/-- `fd_is_set`. -/
def isSet (fds : FdSet) (fd : ℕ) : Bool :=
  (fd : ℤ) < fds.nfds && (fds.bitmask (fd / 64)).testBit (fd % 64)

/-- `fd_clear`. -/
def clear (fds : FdSet) (fd : ℕ) : FdSet :=
  if fds.nfds ≤ fd then fds
  else
    { bitmask := Function.update fds.bitmask (fd / 64)
        (fds.bitmask (fd / 64) &&& (2 ^ 64 - 1 - bit fd))
      nfds := if (fd : ℤ) = fds.nfds - 1 then fds.nfds - 1 else fds.nfds }

/-- `fd_set_empty`. -/
def isEmpty (fds : FdSet) : Bool :=
  (List.range 8).all fun i => fds.nfds ≤ 64 * i || fds.bitmask i == 0

/-- `struct fd_set` from memory. -/
def ofBytes (bytes : ℕ → UInt8) : FdSet :=
  ⟨toInt32 (numAt bytes 0 4), fun i => if i < 8 then numAt bytes (8 + 8 * i) 8 else 0⟩

/-- `struct fd_set` in memory. -/
def bytes (fds : FdSet) : ℕ → UInt8 :=
  wordBytes ((fds.nfds % 2 ^ 32).toNat :: (List.range 8).map fds.bitmask)

end FdSet

/-! ## `wait_on` -/

/-- What a system call comes to. -/
inductive Outcome
  /-- It returns. -/
  | ret (v : ℤ)
  /-- It calls `schedule()`. -/
  | sleep (k : Kont)

/-- One descriptor in `fds_check`. -/
def fdCheck (rw i : ℕ) (fds : FdSet) (s : State) : Except Fault ((ℤ × FdSet) × State) := do
  let tk ← s.cur
  match ← fileAt tk.fds i with
  | none => return ((-EBADF, fds), s)
  | some a => do
    let r ← s.getReq a
    let ops ← State.ropsOf r
    let (available, s) ← ropsAvailable s ops a r rw
    match available with
    | none => return ((-EBADF, fds), s)
    | some b => do
      let r ← s.getReq a
      let s := s.setReq a { r with waitedRw := r.waitedRw ||| rw }
      return ((0, if b then fds else fds.clear i), s)

/-- The loop of `fds_check`, with the descriptors that are left. -/
def fdsCheckFrom (rw : ℕ) : List ℕ → FdSet → State → Except Fault ((ℤ × FdSet) × State)
  | [], fds, s => .ok ((0, fds), s)
  | i :: rest, fds, s =>
    -- `nfds` may have become smaller
    if fds.nfds ≤ i then .ok ((0, fds), s)
    else if !fds.isSet i then fdsCheckFrom rw rest fds s
    else do
      let ((ret, fds), s) ← fdCheck rw i fds s
      if ret ≠ 0 then return ((ret, fds), s) else fdsCheckFrom rw rest fds s

/-- `fds_check`. -/
def fdsCheck (rw : ℕ) (fds : FdSet) (s : State) : Except Fault ((ℤ × FdSet) × State) :=
  fdsCheckFrom rw (List.range fds.nfds.toNat) fds s

/-- One descriptor whose `waited_rw` goes back to 0. -/
def unwait (fds : FdSet) (s : State) (i : ℕ) : Except Fault State :=
  if !fds.isSet i then .ok s
  else do
    let tk ← s.cur
    match ← fileAt tk.fds i with
    | none => return s
    | some a => do
      let r ← s.getReq a
      return s.setReq a { r with waitedRw := 0 }

/-- One of the two sets that `wait_on` gives back. -/
def copyFdSet (s : State) (ret : ℤ) (buf : ℕ) (fds : FdSet) : Except Fault (ℤ × State) :=
  if buf ≠ 0 ∧ ret = 0 then do
    let (r, s) ← s.runMm (Mm.copyToUserSimple s.mm fds.bytes buf 72)
    return (if r ≠ 0 then -EFAULT else 0, s)
  else .ok (ret, s)

/-- The end of `wait_on`. -/
def waitOnReturn (s : State) (rbuf wbuf : ℕ) (rfds wfds : FdSet) (ret : ℤ)
    (rfds2 wfds2 : FdSet) : Except Fault (Outcome × State) := do
  let s ← (List.range rfds.nfds.toNat).foldlM (unwait rfds) (s.setState .running)
  let s ← (List.range wfds.nfds.toNat).foldlM (unwait wfds) s
  let (ret, s) ← copyFdSet s ret rbuf rfds2
  let (ret, s) ← copyFdSet s ret wbuf wfds2
  let s ← enableInterrupts s
  return (.ret ret, s)

/-- One pass of the loop of `wait_on`, entered with interrupts disabled. -/
def waitOnPass (s : State) (rbuf wbuf : ℕ) (rfds wfds : FdSet) :
    Except Fault (Outcome × State) := do
  let ((ret, rfds2), s) ← fdsCheck 1 rfds s
  if ret ≠ 0 then waitOnReturn s rbuf wbuf rfds wfds ret rfds2 wfds
  else do
    let ((ret, wfds2), s) ← fdsCheck 2 wfds s
    if ret ≠ 0 then waitOnReturn s rbuf wbuf rfds wfds ret rfds2 wfds2
    else if !rfds2.isEmpty ∨ !wfds2.isEmpty then
      waitOnReturn s rbuf wbuf rfds wfds 0 rfds2 wfds2
    else do
      let s ← enableInterrupts (s.setState .waiting)
      return (.sleep (.waitOn rbuf wbuf rfds wfds), s)

/-- A set of descriptors from the user, or the error to return. -/
def readFdSet (s : State) (buf : ℕ) : Except Fault (Except ℤ FdSet × State) :=
  if buf = 0 then .ok (.ok .zero, s)
  else do
    let ((ret, bytes), s) ← s.runMm (Mm.copyFromUserSimple s.mm buf 72)
    let tk ← s.cur
    let fds := FdSet.ofBytes bytes
    if ret ≠ 0 then return (.error (-EFAULT), s)
    -- `nfds > max_fds` compares unsigned numbers
    else if fds.nfds < 0 ∨ (tk.fds.length : ℤ) < fds.nfds then return (.error (-EINVAL), s)
    else return (.ok fds, s)

/-- `wait_on`. -/
def waitOn (s : State) (rbuf wbuf : ℕ) : Except Fault (Outcome × State) := do
  let (rfds, s) ← readFdSet (disableInterrupts s) rbuf
  match rfds with
  | .error ret => do
    let s ← enableInterrupts s
    return (.ret ret, s)
  | .ok rfds => do
    let (wfds, s) ← readFdSet s wbuf
    match wfds with
    | .error ret => do
      let s ← enableInterrupts s
      return (.ret ret, s)
    | .ok wfds => waitOnPass (s.setState .waiting) rbuf wbuf rfds wfds

/-! ## `wait_on_port` and `exit` -/

/-- One pass of the loop of `wait_on_port`, entered with interrupts disabled. -/
def waitOnPortPass (s : State) (n : ℤ) : Except Fault (Outcome × State) := do
  let i ← portIndex n
  if s.port i ≠ none then do
    let s ← enableInterrupts s
    return (.ret 0, s)
  else do
    let s ← enableInterrupts { s with
      portWaitList := Function.update s.portWaitList i (s.current :: s.portWaitList i) }
    return (.sleep (.waitOnPort n), s)

/-- `wait_on_port`. -/
def waitOnPort (s : State) (n : ℤ) : Except Fault (Outcome × State) :=
  waitOnPortPass ((disableInterrupts s).setState .waiting) n

/-- `kill_current`, before `schedule()`. -/
def killCurrent (s : State) : Outcome × State := (.sleep .exit, s.setState .zombie)

/-! ## New tasks -/

/-- `available_task_slot`, from the slot `i` on. -/
def freeSlot (tasks : ℕ → Option ℕ) : ℕ → ℕ → Option ℕ
  | 0, _ => none
  | n + 1, i => if tasks i = none then some i else freeSlot tasks n (i + 1)

/-- `new_process`.  The new task starts at the return of its `schedule()`. -/
def newProcess (s : State) (as : ℕ) : ℕ × State :=
  let (pool, s) := s.poolCreate
  let t := s.nextTask
  (t, { s.setTask t
      { state := .runnable, pid := 0, parent := none, children := []
        fds := List.replicate MAX_FDS none
        astable := some as :: List.replicate (MAX_FDS - 1) none
        filePool := pool, space := some as, pc := .user } with
    nextTask := t + 1 })

/-- One entry of the table of handles in `create_task`. -/
def inheritFd (t : ℕ) (s : State) (i : ℕ) : Except Fault State := do
  let tk ← s.cur
  match ← fileAt tk.fds i with
  | none => return s
  | some a => do
    let r ← s.getReq a
    if r.type = .cookie then return s
    else do
      let ops ← State.ropsOf r
      if !ops.hasDup then return s
      else do
        let child ← s.getTask t
        let (new, s) ← s.alloc child.filePool
        let s := s.setReq new
          { owner := t, rops := none, data := .junk, type := r.type, state := .server,
            waitedRw := 0, nextReq := none }
        let (ret, s) ← ropsDup s ops r new
        if ret ≠ 0 then s.free child.filePool new
        else do
          let child ← s.getTask t
          return s.setTask t { child with fds := child.fds.set i (some new) }

/-- The part of `create_task` that makes a new task in the address space `as`. -/
def spawn (s : State) (as pid : ℕ) : Except Fault (ℤ × State) := do
  let (t, s) := newProcess s as
  let tk ← s.cur
  let s ← (List.range tk.fds.length).foldlM (inheritFd t) s
  let child ← s.getTask t
  let s := s.setTask t { child with pid, parent := some s.current }
  let tk ← s.cur
  let s := s.setTask s.current { tk with children := t :: tk.children }
  return (pid, { s with
    tasks := Function.update s.tasks pid (some t)
    runq := t :: s.runq })

/-- `create_task` in place of the current task (`CT_SELF`). -/
def replaceSelf (s : State) (fd as : ℕ) : Except Fault (ℤ × State) := do
  let tk ← s.cur
  let s ← (match tk.space with
    | some old => s.execMm (Mm.destroyAs s.mm old)
    | none => .error .nullObject)
  let tk ← s.cur
  let s := s.setTask s.current
    { tk with astable := (tk.astable.set fd none).set 0 (some as), space := some as }
  return (0, s.setMm { s.mm with current := as })

/-- `create_task`, without the registers of the new task. -/
def createTask (s : State) (as : ℤ) (buf : ℕ) (self : Bool) : Except Fault (ℤ × State) := do
  let tk ← s.cur
  if as ≤ 0 ∨ (tk.astable.length : ℤ) < as then return (-EBADF, s)
  else
    match ← fileAt tk.astable as.toNat with
    | none => return (-EBADF, s)
    | some a => locked s fun s => do
      let ((ret, _), s) ← s.runMm (Mm.copyFromUserSimple s.mm buf 128)
      if ret ≠ 0 then return (-EINVAL, s)
      else if self then replaceSelf s as.toNat a
      else
        match freeSlot s.tasks MAX_TASKS 0 with
        | none => return (-ENOMEM, s)
        | some pid => spawn (s.setAstable (tk.astable.set as.toNat none)) a pid

/-! ## Calls of the memory manager -/

/-- `sendpage`, with its own test of the handle. -/
def sendpage (s : State) (as : ℤ) (vaddr dst len : ℕ) : Except Fault (ℤ × State) :=
  locked s fun s => do
    let tk ← s.cur
    if as < 0 ∨ (tk.astable.length : ℤ) < as then return (-EBADF, s)
    else
      match ← fileAt tk.astable as.toNat with
      | none => return (-EBADF, s)
      | some a => s.runMm (Mm.sendpageTo s.mm a vaddr dst len)

/-- `asdestroy`. -/
def asdestroy (s : State) (as : ℤ) : Except Fault (ℤ × State) :=
  locked s fun s => do
    let tk ← s.cur
    if as ≤ 0 ∨ (tk.astable.length : ℤ) ≤ as then return (-EBADF, s)
    else
      match ← fileAt tk.astable as.toNat with
      | none => return (-EBADF, s)
      | some a => do
        let s := s.setAstable (tk.astable.set as.toNat none)
        let s ← s.execMm (Mm.destroyAs s.mm a)
        return (0, s)

/-- `asnew`. -/
def asnew (s : State) (snapshot : Bool) : Except Fault (ℤ × State) := do
  let tk ← s.cur
  let ((ret, astable), s) ← s.runMm (Mm.asnew s.mm tk.astable snapshot)
  return (ret, s.setAstable astable)

/-! ## The machine -/

/-- What a user program asks for, with the registers it passes. -/
inductive Call
  | portConnect (portNumber : ℤ) (len buf : UInt64)
  | request (rd : ℤ) (len buf : UInt64)
  | getResponse (cookie : ℤ) (res : UInt64)
  | openPort (portNumber : ℤ)
  | popRequest (rd : ℤ) (buf : UInt64)
  | respond (fd : ℤ) (len buf : UInt64)
  | close (fd : ℤ)
  | dup0 (oldFd newFd : ℤ)
  | waitOn (rbuf wbuf : UInt64)
  | waitOnPort (portNumber : ℤ)
  | createTask (as : ℤ) (buf : UInt64) (self : Bool)
  | exit
  | sendpage (as : ℤ) (vaddr dst len : UInt64)
  | munmap (base len : UInt64)
  | asnew (snapshot : Bool)
  | asdestroy (as : ℤ)
  /-- A read of its memory. -/
  | read (vaddr : UInt64)
  /-- A write to its memory. -/
  | write (vaddr : UInt64) (b : UInt8)

/-- A call that returns. -/
def returns (x : Except Fault (ℤ × State)) : Except Fault (Outcome × State) := do
  let (v, s) ← x
  return (.ret v, s)

/-- A page fault that kills the task, or an access that succeeds. -/
def access (ok : Bool) (s : State) : Outcome × State := if ok then (.ret 0, s) else killCurrent s

/-- A call of the current task, up to its return or to `schedule()`. -/
def syscall (s : State) : Call → Except Fault (Outcome × State)
  | .portConnect n len buf => returns (portConnect s n len.toNat buf.toNat)
  | .request rd len buf => returns (request s rd len.toNat buf.toNat)
  | .getResponse cookie res => returns (getResponse s cookie res.toNat)
  | .openPort n => returns (openPort s n)
  | .popRequest rd buf => returns (popRequest s rd buf.toNat)
  | .respond fd len buf => returns (respond s fd len.toNat buf.toNat)
  | .close fd => returns (close s fd)
  | .dup0 oldFd newFd => returns (dup0 s oldFd newFd)
  | .waitOn rbuf wbuf => waitOn s rbuf.toNat wbuf.toNat
  | .waitOnPort n => waitOnPort s n
  | .createTask as buf self => returns (createTask s as buf.toNat self)
  | .exit => .ok (killCurrent s)
  | .sendpage as vaddr dst len => returns (sendpage s as vaddr.toNat dst.toNat len.toNat)
  | .munmap base len => returns (s.runMm (Mm.munmap s.mm base.toNat len.toNat))
  | .asnew snapshot => returns (asnew s snapshot)
  | .asdestroy as => returns (asdestroy s as)
  | .read vaddr => do
    let (b, s) ← s.runMm (Mm.userRead s.mm vaddr.toNat)
    return access b.isSome s
  | .write vaddr b => do
    let (ok, s) ← s.runMm (Mm.userWrite s.mm vaddr.toNat b)
    return access ok s

/-- What a task does once its `schedule()` returned. -/
def resume (s : State) : Kont → Except Fault (Outcome × State)
  | .waitOn rbuf wbuf rfds wfds => waitOnPass (disableInterrupts s) rbuf wbuf rfds wfds
  | .waitOnPort n => waitOnPortPass (disableInterrupts s) n
  -- the idle task waits for an interrupt
  | .idle => .ok (.sleep .idle, s)
  | .exit => .error (.panic "unreachable")

/-- Where the current task is. -/
def State.setPc (s : State) (pc : Pc) : State :=
  match s.task s.current with
  | some tk => s.setTask s.current { tk with pc }
  | none => s

/-- The current task is in user mode, or before `schedule()`. -/
def settle (r : Outcome × State) : State :=
  match r.1 with
  | .ret _ => r.2.setPc .user
  | .sleep k => r.2.setPc (.sleep k)

/-- A step of the machine. -/
inductive Action
  /-- The current task, in user mode, calls the kernel. -/
  | call (c : Call)
  /-- The current task calls `schedule()`. -/
  | schedule
  /-- The current task goes on after `schedule()`. -/
  | resume
  /-- A hardware interrupt. -/
  | interrupt (vector : UInt8)

/-- One step.  A step that the current task is not ready for changes nothing, and an
interrupt waits until interrupts are enabled. -/
def step (s : State) : Action → Except Fault State
  | .call c => do
    let tk ← s.cur
    match tk.pc with
    | .user => do
      let r ← syscall s c
      return settle r
    | _ => return s
  | .schedule => do
    let tk ← s.cur
    match tk.pc with
    | .sleep k => schedule (s.setPc (.woken k))
    | _ => return s
  | .resume => do
    let tk ← s.cur
    match tk.pc with
    | .woken k => do
      let r ← resume s k
      return settle r
    | _ => return s
  | .interrupt vector =>
    if s.mm.interruptDisabled = 0 then intHandler s vector.toNat else .ok s

/-- A run. -/
def run (s : State) (l : List Action) : Except Fault State := l.foldlM step s

/-! ## The start -/

/-- `create_idle_task`, up to the loop at the end of `start_init`. -/
def idleTask : Task :=
  { state := .runnable, pid := 0, parent := none, children := [], fds := [], astable := []
    filePool := 0, space := none, pc := .sleep .idle }

/-- The ports that `services_init` registers. -/
def bootPorts : ℕ → Option PortOps
  | 1 => some .mem
  | 2 => some .tarfs
  | 3 => some .bda
  | 4 => some .portio
  | 10 => some .int
  | _ => none

/-- The kernel before it has a task other than the idle task. -/
def bare (mm : Mm.State) (junk inport : ℕ → ℕ) (tarfs : ℕ × ℕ) : State :=
  { mm, junk, inport, tarfs
    objs := fun _ => none, nextObj := 0
    pools := fun _ => none, nextPool := 1
    port := bootPorts, uport := fun _ => none
    portWaitList := fun _ => [], intWaitList := fun _ => []
    task := Function.update (fun _ => none) 0 (some idleTask), nextTask := 1
    tasks := Function.update (fun _ => none) 0 (some 0)
    runq := [], current := 0, idleTask := 0, toKill := none }

/-- `start_init`, with the address space `as` that it has built for the init task. -/
def boot (mm : Mm.State) (as : ℕ) (junk inport : ℕ → ℕ) (tarfs : ℕ × ℕ) : State :=
  let (t, s) := newProcess (bare mm junk inport tarfs) as
  let s := (match s.task t with
    | some tk => s.setTask t { tk with pid := 1 }
    | none => s)
  { s with tasks := Function.update s.tasks 1 (some t), runq := t :: s.runq }

end SadOS.Kernel
