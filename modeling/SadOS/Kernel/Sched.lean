import SadOS.Kernel.State

/-!
# The scheduler

`sys/sched.c` without `create_task`.  Nothing preempts a task: the timer is off, and the
handlers of the other interrupts never ask for `schedule`.  A task loses the processor
where it calls `schedule()` itself.

## Main definitions

* `wakeUp` — a task that waits becomes runnable.
* `killProcess` — the end of a task.
* `schedule` — another task, up to the return of its own call of `schedule()`.
* `intHandler` — a hardware interrupt.
-/

namespace SadOS.Kernel

/-- `wake_up`. -/
def wakeUp (s : State) (t : ℕ) : Except Fault State := do
  let tk ← s.getTask t
  if tk.state = .waiting then
    return { s.setTask t { tk with state := .runnable } with runq := t :: s.runq }
  else return s

/-- `list_del(&child->siblings)` and `child->parent = NULL`, for a child of `t`. -/
def orphan (t : ℕ) (s : State) (child : ℕ) : Except Fault State := do
  let tk ← s.getTask t
  let s := s.setTask t { tk with children := tk.children.erase child }
  let ck ← s.getTask child
  return s.setTask child { ck with parent := none }

/-- `kill_process`.  The pages of the tables and of the kernel stack, which go back to
the page allocator, are not part of the state. -/
def killProcess (s : State) (t : ℕ) : Except Fault State :=
  if t = s.current then .error (.panic "Trying to kill current processs")
  else do
    let tk ← s.getTask t
    let s ← (match tk.space with
      | some as => s.execMm (Mm.destroyAs s.mm as)
      | none => .error .nullObject)
    let s := s.poolDestroy tk.filePool
    let s ← tk.children.foldlM (orphan t) s
    if tk.parent = none then
      return { s with
        tasks := Function.update s.tasks tk.pid none
        task := Function.update s.task t none }
    else return s

/-- `after_switch`. -/
def afterSwitch (s : State) : Except Fault State := do
  let tk ← s.cur
  let s := s.setTask s.current { tk with state := .running }
  let s ← (match s.toKill with
    | some t => do
      let s ← killProcess s t
      return { s with toKill := none }
    | none => .ok s)
  enableInterrupts s

/-- `switch_to`, with `load_cr3` for a task that has an address space. -/
def switchTo (s : State) (next : ℕ) (space : Option ℕ) : State :=
  { s with
    current := next
    mm := { s.mm with current := space.getD s.mm.current } }

/-- The task to run next, taken from the run queue. -/
def nextTask (s : State) : ℕ × State :=
  match s.runq with
  | next :: rest => (next, { s with runq := rest })
  | [] => (s.idleTask, s)

/-- A task that could go on goes to the end of the run queue. -/
def requeue (s : State) : Except Fault State := do
  let tk ← s.cur
  if tk.state = .running then
    return { s.setTask s.current { tk with state := .runnable } with runq := s.runq ++ [s.current] }
  else return s

/-- `schedule`. -/
def schedule (s : State) : Except Fault State :=
  if s.mm.interruptDisabled ≠ 0 then .error (.panic "schedule() called with disabled interrupt")
  else if s.toKill ≠ none then .error (.panic "Why is to_kill set????")
  else do
    let s ← requeue (disableInterrupts s)
    let (next, s) := nextTask s
    let nt ← s.getTask next
    let tk ← s.cur
    let s := if tk.state = .zombie then { s with toKill := some s.current } else s
    afterSwitch (switchTo s next nt.space)

/-- One waiter in `int_handler`. -/
def intWaiter (s : State) (a : ℕ) : Except Fault State := do
  let r ← s.getReq a
  let s ← (if r.waitedRw &&& 1 ≠ 0 then wakeUp s r.owner else .ok s)
  let n ← (match r.data with
    | .word n => .ok n
    | _ => .error .badObject)
  return s.setReq a { r with data := .word (n ||| 256) }

/-- `int_handler`.  The handlers that the kernel registers have no part in this. -/
def intHandler (s : State) (vector : ℕ) : Except Fault State :=
  (s.intWaitList vector).foldlM intWaiter s

end SadOS.Kernel
