import SadOS.Kernel.Tally

/-!
# What the small writes of the kernel keep

A system call is a sequence of small writes: to objects, to the record of the caller, to a new
task, and the wake-up of a task that waits.  A property that each of these writes keeps is kept
by every system call.

## Main definitions

* `SameTasks s s'` — the states agree in all that the scheduler reads.
* `DataFrame I`, `WakeFrame I`, `WaitFrame I`, `CallFrame I` — the writes that keep `I`.

## Main results

* `WaitFrame.waitOnPass`, `WaitFrame.waitOnPortPass` — one pass of a loop that blocks.
* `CallFrame.syscall`, `WaitFrame.resume` — a system call, and what follows `schedule()`.
-/

namespace SadOS.Kernel

open Mm (fdtableInsert)

/-- The states agree in the tasks and in the lists of the scheduler. -/
structure SameTasks (s s' : State) : Prop where
  task : s'.task = s.task
  nextTask : s'.nextTask = s.nextTask
  tasks : s'.tasks = s.tasks
  runq : s'.runq = s.runq
  current : s'.current = s.current
  idleTask : s'.idleTask = s.idleTask
  toKill : s'.toKill = s.toKill

theorem SameTasks.refl (s : State) : SameTasks s s := ⟨rfl, rfl, rfl, rfl, rfl, rfl, rfl⟩

/-- Writes to memory, to objects and to ports keep `I`. -/
structure DataFrame (I : State → Prop) : Prop where
  data : ∀ {s s' : State}, I s → SameTasks s s' → I s'

/-- Wake-ups keep `I`, too. -/
structure WakeFrame (I : State → Prop) : Prop extends DataFrame I where
  wake : ∀ {s : State} {t : ℕ} {tk : Task}, I s → s.task t = some tk → tk.state = .waiting →
    I { s.setTask t { tk with state := .runnable } with runq := t :: s.runq }

/-- Writes to the state of the current task keep `I`, too, while it lives. -/
structure WaitFrame (I : State → Prop) : Prop extends DataFrame I where
  state : ∀ {s : State} {tk : Task} (st : TaskState), st ≠ .zombie → I s →
    s.task s.current = some tk → I (s.setTask s.current { tk with state := st })

/-- The writes of a system call keep `I`.  The tasks from `n` on are those that it makes. -/
structure CallFrame (n : ℕ) (I : State → Prop) : Prop extends WakeFrame I where
  own : ∀ {s : State} {tk : Task} (st : TaskState) (fds astable : FdTable) (children : List ℕ)
    (space : Option ℕ), I s → s.task s.current = some tk →
    I (s.setTask s.current { tk with state := st, fds, astable, children, space })
  bound : ∀ {s : State}, I s → n ≤ s.nextTask
  new : ∀ {s : State} (tk : Task), I s →
    I { s.setTask s.nextTask tk with nextTask := s.nextTask + 1 }
  child : ∀ {s : State} {t : ℕ} {tk₀ : Task} (tk : Task), I s → n ≤ t → s.task t = some tk₀ →
    I (s.setTask t tk)
  enter : ∀ {s : State} {t pid : ℕ}, I s → n ≤ t →
    I { s with tasks := Function.update s.tasks pid (some t), runq := t :: s.runq }

namespace DataFrame

variable {I : State → Prop} (F : DataFrame I) {s : State}

include F

theorem same {s' : State} (h : I s) (hs : SameTasks s s') : I s' := F.data h hs

theorem setMm (h : I s) (m : Mm.State) : I (s.setMm m) := F.data h ⟨rfl, rfl, rfl, rfl, rfl, rfl, rfl⟩

theorem setBody (h : I s) (a : ℕ) (b : Body) : I (s.setBody a b) :=
  F.data h ⟨rfl, rfl, rfl, rfl, rfl, rfl, rfl⟩

theorem setReq (h : I s) (a : ℕ) (r : Request) : I (s.setReq a r) := F.setBody h a _

theorem setIncoming (h : I s) (q : ℕ) (l : List ℕ) : I (s.setIncoming q l) := by
  unfold State.setIncoming
  split
  · exact F.setBody h q _
  · exact F.setBody h q _
  · exact h

theorem runMm {α : Type} (h : I s) (x : Except SadOS.Fault (α × Mm.State)) :
    Safely AnyFault (fun r => I r.2) (s.runMm x) := by
  unfold State.runMm
  split
  · exact F.setMm h _
  · trivial

theorem execMm (h : I s) (x : Except SadOS.Fault Mm.State) : Safely AnyFault I (s.execMm x) := by
  unfold State.execMm
  split
  · exact F.setMm h _
  · trivial

theorem enable (h : I s) : Safely AnyFault I (enableInterrupts s) := F.execMm h _

theorem disable (h : I s) : I (disableInterrupts s) := F.setMm h _

/-- Code with interrupts disabled. -/
theorem locked {α : Type} (h : I s) {f : State → Except Fault (α × State)}
    (hf : ∀ s, I s → Safely AnyFault (fun r => I r.2) (f s)) :
    Safely AnyFault (fun r => I r.2) (locked s f) := by
  simp only [Kernel.locked, safely_bind, safely_pure]
  refine (hf _ (F.disable h)).mono fun r hr => ?_
  exact F.enable hr

theorem alloc (h : I s) (pool : ℕ) : Safely AnyFault (fun r => I r.2) (s.alloc pool) := by
  unfold State.alloc
  split
  · trivial
  · exact F.data h ⟨rfl, rfl, rfl, rfl, rfl, rfl, rfl⟩
  · exact F.data h ⟨rfl, rfl, rfl, rfl, rfl, rfl, rfl⟩

theorem free (h : I s) (pool a : ℕ) : Safely AnyFault I (s.free pool a) := by
  unfold State.free
  split
  · exact F.data h ⟨rfl, rfl, rfl, rfl, rfl, rfl, rfl⟩
  · trivial

theorem freeReq (h : I s) (a : ℕ) : Safely AnyFault I (freeReq s a) := by
  simp only [Kernel.freeReq, safely_bind]
  exact reads fun tk => F.free h _ a

theorem foldlM {β : Type} (h : I s) {f : State → β → Except Fault State}
    (hf : ∀ s b, I s → Safely AnyFault I (f s b)) (l : List β) :
    Safely AnyFault I (l.foldlM f s) :=
  safely_foldlM (fun _ => I) h fun b _ s hs => hf s b hs

/-! ## Lists -/

theorem linkReq (h : I s) (a : ℕ) (l : ReqList) : Safely AnyFault I (linkReq s a l) := by
  simp only [Kernel.linkReq, safely_bind]
  apply reads
  intro r
  cases l with
  | clients u =>
    simp only [safely_bind, safely_pure]
    exact reads fun up => F.setBody (F.setReq h a _) u _
  | int v => exact F.data h ⟨rfl, rfl, rfl, rfl, rfl, rfl, rfl⟩

theorem unlinkReq (h : I s) (a : ℕ) : Safely AnyFault I (unlinkReq s a) := by
  simp only [Kernel.unlinkReq, safely_bind]
  apply reads
  intro r
  split
  · trivial
  · simp only [safely_bind, safely_pure]
    exact reads fun up => F.setBody (F.setReq h a _) _ _
  · exact F.data h ⟨rfl, rfl, rfl, rfl, rfl, rfl, rfl⟩

theorem enqueue (h : I s) (q m : ℕ) : Safely AnyFault I (enqueue s q m) := by
  simp only [Kernel.enqueue, safely_bind, safely_pure]
  apply reads
  intro msg
  exact reads fun l => F.setIncoming (F.setBody h m _) q _

theorem unqueue (h : I s) (m : ℕ) : Safely AnyFault I (unqueue s m) := by
  simp only [Kernel.unqueue, safely_bind]
  apply reads
  intro msg
  split
  · trivial
  · simp only [safely_bind, safely_pure]
    exact reads fun l => F.setIncoming (F.setBody h m _) _ _

theorem freePayload (h : I s) (plh : Option ℕ) : Safely AnyFault I (freePayload s plh) := by
  cases plh with
  | none => exact h
  | some plh => exact F.execMm h _

theorem dropMessage (h : I s) (m : ℕ) : Safely AnyFault I (dropMessage s m) := by
  simp only [Kernel.dropMessage, safely_bind]
  apply reads
  intro msg
  refine (F.freePayload h _).mono fun s₁ h₁ => ?_
  exact reads fun client => reads fun task => F.free h₁ _ m

theorem uportUserClose (h : I s) (a : ℕ) : Safely AnyFault I (uportUserClose s a) := by
  simp only [Kernel.uportUserClose, safely_bind]
  apply reads
  intro r
  split
  · simp only [safely_bind]
    apply reads
    intro m
    apply reads
    intro msg
    refine (F.unqueue h m).mono fun s₁ h₁ => ?_
    refine (F.freePayload h₁ _).mono fun s₂ h₂ => ?_
    exact reads fun client => reads fun task => F.free h₂ _ m
  split
  · exact F.unlinkReq h a
  · simp only [safely_bind]
    apply reads
    intro ca
    apply reads
    intro c
    split
    · simp only [safely_bind]
      refine (F.freePayload h _).mono fun s₁ h₁ => ?_
      exact reads fun owner => F.free h₁ _ ca
    · exact F.setBody h ca _
  · trivial

/-- `req->rops->dup`. -/
theorem ropsDup (h : I s) (ops : ReqOps) (old : Request) (new : ℕ) :
    Safely AnyFault (fun r => I r.2) (ropsDup s ops old new) := by
  cases ops with
  | uportClient =>
    simp only [Kernel.ropsDup, Kernel.uportDup]
    split
    · exact h
    split
    · exact h
    simp only [safely_bind, safely_pure]
    apply reads
    intro r
    exact reads fun sreq => reads fun sr => reads fun up => F.linkReq (F.setReq h new _) new _
  | int =>
    simp only [Kernel.ropsDup, intPortDup]
    split
    · simp only [safely_bind, safely_pure]
      exact reads fun r => F.linkReq (F.setReq h new _) new _
    · trivial
  | uportServer | mem | tarfs | bda | portio => exact h

/-! ## Requests -/

theorem mapPayload (h : I s) (len buf : ℕ) :
    Safely AnyFault (fun r => I r.2) (mapPayload s len buf) := by
  unfold Kernel.mapPayload
  split
  · simp only [safely_bind]
    refine (F.runMm h _).mono fun r hr => ?_
    split <;> exact hr
  · exact h

theorem newMessage (h : I s) (plh : Option ℕ) (clientReq : ℕ) :
    Safely AnyFault (fun r => I r.2) (newMessage s plh clientReq) := by
  simp only [Kernel.newMessage, safely_bind, safely_pure]
  apply reads
  intro tk
  exact (F.alloc h _).mono fun r hr => F.setBody hr r.1 _

theorem newReq (h : I s) (tk : Task) (type : ReqType) :
    Safely AnyFault (fun r => I r.2) (newReq s tk type) := by
  simp only [Kernel.newReq, safely_bind, safely_pure]
  exact (F.alloc h _).mono fun r hr => F.setReq hr r.1 _

theorem memPortRequest (h : I s) (a len buf : ℕ) :
    Safely AnyFault (fun r => I r.2) (memPortRequest s a len buf) := by
  simp only [Kernel.memPortRequest, safely_bind]
  refine (F.runMm h _).mono fun r hr => ?_
  split
  · exact hr
  · simp only [safely_bind, safely_pure]
    exact reads fun req => F.setReq hr a _

theorem portioRequest (h : I s) (a len buf : ℕ) :
    Safely AnyFault (fun r => I r.2) (portioRequest s a len buf) := by
  unfold Kernel.portioRequest
  split
  · exact h
  simp only [safely_bind]
  refine (F.runMm h _).mono fun r hr => ?_
  split
  · exact hr
  simp only [safely_bind]
  apply reads
  intro req
  split
  · exact F.setReq hr a _
  split
  · exact F.setReq hr a _
  · exact F.setReq hr a _

theorem intPortConnect (h : I s) (a len buf : ℕ) :
    Safely AnyFault (fun r => I r.2) (intPortConnect s a len buf) := by
  unfold Kernel.intPortConnect
  split
  · exact h
  simp only [safely_bind]
  refine (F.runMm h _).mono fun r hr => ?_
  split
  · exact hr
  split
  · exact hr
  simp only [safely_bind, safely_pure]
  exact reads fun req => F.linkReq (F.setReq hr a _) a _

theorem uportGetResponse (h : I s) (r : Request) :
    Safely AnyFault (fun r => I r.2) (uportGetResponse s r) := by
  unfold Kernel.uportGetResponse
  split
  · exact h
  split
  · exact h
  split
  · exact h
  simp only [safely_bind]
  apply reads
  intro a
  apply reads
  intro c
  split
  · exact h
  simp only [safely_bind]
  refine (F.runMm h _).mono fun r hr => ?_
  split
  · exact hr
  simp only [safely_bind, safely_pure]
  apply reads
  intro head
  refine (F.execMm hr _).mono fun s₁ h₁ => ?_
  exact reads fun owner => F.free h₁ _ a

/-- `req->rops->get_response`. -/
theorem ropsGetResponse (h : I s) (ops : ReqOps) (a : ℕ) (r : Request) :
    Safely AnyFault (fun r => I r.2) (ropsGetResponse s ops a r) := by
  cases ops with
  | uportClient => exact F.uportGetResponse h r
  | mem =>
    simp only [Kernel.ropsGetResponse, memPortGetResponse, safely_bind]
    apply reads
    intro req
    split
    · exact F.setReq h a _
    · exact F.setReq h a _
    · trivial
  | tarfs =>
    simp only [Kernel.ropsGetResponse, safely_bind, safely_pure]
    exact F.runMm h _
  | bda =>
    simp only [Kernel.ropsGetResponse, safely_bind, safely_pure]
    exact F.runMm h _
  | portio =>
    simp only [Kernel.ropsGetResponse, portioGetResponse]
    split
    · exact h
    split
    · split <;> exact h
    · trivial
  | uportServer | int => trivial

theorem registerPort (h : I s) (n : ℤ) : Safely AnyFault (fun r => I r.2) (registerPort s n) := by
  simp only [Kernel.registerPort, safely_bind]
  apply reads
  intro i
  split
  · exact h
  · exact F.data h ⟨rfl, rfl, rfl, rfl, rfl, rfl, rfl⟩

/-! ## What `wait_on` asks -/

/-- `req->rops->available`. -/
theorem ropsAvailable (h : I s) (ops : ReqOps) (a : ℕ) (r : Request) (rw : ℕ) :
    Safely AnyFault (fun r => I r.2) (ropsAvailable s ops a r rw) := by
  cases ops with
  | uportServer =>
    simp only [Kernel.ropsAvailable, safely_bind, safely_pure]
    exact reads fun _ => h
  | uportClient =>
    simp only [Kernel.ropsAvailable, safely_bind, safely_pure]
    exact reads fun _ => h
  | int =>
    simp only [Kernel.ropsAvailable, intPortAvailable, safely_bind, safely_pure]
    split
    · exact h
    split
    · exact F.setReq h a _
    · trivial
  | mem | tarfs | bda | portio => exact h

theorem fdCheck (h : I s) (rw i : ℕ) (fds : FdSet) :
    Safely AnyFault (fun r => I r.2) (fdCheck rw i fds s) := by
  simp only [Kernel.fdCheck, safely_bind]
  apply reads
  intro tk
  apply reads
  intro f
  split
  · exact h
  simp only [safely_bind]
  apply reads
  intro r
  apply reads
  intro ops
  refine (F.ropsAvailable h ops _ r rw).mono fun x hx => ?_
  split
  · exact hx
  simp only [safely_bind, safely_pure]
  exact reads fun r => F.setReq hx _ _

theorem fdsCheckFrom (rw : ℕ) (l : List ℕ) (fds : FdSet) (h : I s) :
    Safely AnyFault (fun r => I r.2) (fdsCheckFrom rw l fds s) := by
  induction l generalizing fds s with
  | nil => exact h
  | cons i rest ih =>
    unfold Kernel.fdsCheckFrom
    split
    · exact h
    split
    · exact ih fds h
    simp only [safely_bind]
    refine (F.fdCheck h rw i fds).mono fun x hx => ?_
    split
    · exact hx
    · exact ih _ hx

theorem fdsCheck (h : I s) (rw : ℕ) (fds : FdSet) :
    Safely AnyFault (fun r => I r.2) (fdsCheck rw fds s) := F.fdsCheckFrom rw _ fds h

theorem unwait (h : I s) (fds : FdSet) (i : ℕ) : Safely AnyFault I (unwait fds s i) := by
  unfold Kernel.unwait
  split
  · exact h
  simp only [safely_bind]
  apply reads
  intro tk
  apply reads
  intro f
  split
  · exact h
  · simp only [safely_bind, safely_pure]
    exact reads fun r => F.setReq h _ _

theorem copyFdSet (h : I s) (ret : ℤ) (buf : ℕ) (fds : FdSet) :
    Safely AnyFault (fun r => I r.2) (copyFdSet s ret buf fds) := by
  unfold Kernel.copyFdSet
  split
  · simp only [safely_bind, safely_pure]
    exact F.runMm h _
  · exact h

theorem readFdSet (h : I s) (buf : ℕ) : Safely AnyFault (fun r => I r.2) (readFdSet s buf) := by
  unfold Kernel.readFdSet
  split
  · exact h
  simp only [safely_bind]
  refine (F.runMm h _).mono fun r hr => ?_
  apply reads
  intro tk
  split
  · exact hr
  split <;> exact hr

end DataFrame

namespace WakeFrame

variable {I : State → Prop} (F : WakeFrame I) {s : State}

include F

theorem wakeUp (h : I s) (t : ℕ) : Safely AnyFault I (wakeUp s t) := by
  simp only [Kernel.wakeUp, safely_bind]
  apply reads_eq
  intro tk htk
  split
  · rename_i hwait
    exact F.wake h (getTask_ok htk) hwait
  · exact h

theorem notify (h : I s) (r : Request) (waited : Bool) : Safely AnyFault I (notify s r waited) := by
  unfold Kernel.notify
  split
  · exact F.wakeUp h _
  · exact h

theorem closeClient (h : I s) (a : ℕ) : Safely AnyFault I (closeClient s a) := by
  simp only [Kernel.closeClient, safely_bind]
  exact reads fun r => F.notify (F.setReq h a _) r _

theorem dropConnect (h : I s) (m : ℕ) : Safely AnyFault I (dropConnect s m) := by
  simp only [Kernel.dropConnect, safely_bind]
  apply reads
  intro msg
  refine (F.freePayload h _).mono fun s₁ h₁ => ?_
  apply reads
  intro client
  apply reads
  intro task
  exact (F.closeClient h₁ _).mono fun s₂ h₂ => F.free h₂ _ m

theorem dropClient (h : I s) (a : ℕ) : Safely AnyFault I (dropClient s a) := by
  simp only [Kernel.dropClient, safely_bind]
  apply reads
  intro r
  exact (F.unlinkReq (F.setReq h a _) a).mono fun s₁ h₁ => F.notify h₁ r _

theorem uportServerClose (h : I s) (a : ℕ) : Safely AnyFault I (uportServerClose s a) := by
  simp only [Kernel.uportServerClose, safely_bind]
  apply reads
  intro r
  apply reads
  intro tk
  split
  · simp only [safely_bind]
    apply reads
    intro ua
    apply reads
    intro up
    refine (F.foldlM h (fun s m hs => F.dropConnect hs m) _).mono fun s₁ h₁ => ?_
    apply reads
    intro n
    exact F.free (F.same h₁ (by constructor <;> rfl)) _ ua
  · simp only [safely_bind]
    apply reads
    intro ua
    apply reads
    intro up
    refine (F.foldlM h (fun s c hs => F.dropClient hs c) _).mono fun s₁ h₁ => ?_
    refine (F.foldlM h₁ (fun s m hs => F.dropMessage hs m) _).mono fun s₂ h₂ => ?_
    exact F.free h₂ _ ua
  · simp only [safely_bind]
    apply reads
    intro ca
    apply reads
    intro c
    refine Safely.mono (Q := I) ?_ fun s₁ h₁ => ?_
    · split
      · exact F.closeClient h _
      · exact h
    split
    · trivial
    · exact F.free h₁ _ ca
  · trivial

/-- `req->rops->drop`. -/
theorem ropsDrop (h : I s) (ops : ReqOps) (a : ℕ) : Safely AnyFault I (ropsDrop s ops a) := by
  cases ops with
  | uportServer => exact F.uportServerClose h a
  | uportClient => exact F.uportUserClose h a
  | int => exact F.unlinkReq h a
  | mem | tarfs | bda | portio => exact h

theorem uportConnect (h : I s) (n a len buf : ℕ) :
    Safely AnyFault (fun r => I r.2) (uportConnect s n a len buf) := by
  simp only [Kernel.uportConnect, safely_bind]
  refine (F.mapPayload h len buf).mono fun r hr => ?_
  split
  · exact hr
  simp only [safely_bind]
  refine (F.newMessage hr _ a).mono fun r₁ h₁ => ?_
  split
  · trivial
  simp only [safely_bind, safely_pure]
  apply reads
  intro preq
  apply reads
  intro up
  apply reads
  intro req
  refine (F.enqueue (F.setReq h₁ a _) up r₁.1).mono fun s₂ h₂ => ?_
  exact F.notify h₂ preq _

theorem uportRequest (h : I s) (a c len buf : ℕ) :
    Safely AnyFault (fun r => I r.2) (uportRequest s a c len buf) := by
  simp only [Kernel.uportRequest, safely_bind]
  apply reads
  intro r
  split
  · exact h
  split
  · exact h
  split
  · trivial
  simp only [safely_bind]
  apply reads
  intro sreq
  refine (F.mapPayload h len buf).mono fun r₁ h₁ => ?_
  split
  · exact h₁
  simp only [safely_bind, safely_pure]
  refine (F.newMessage h₁ _ c).mono fun r₂ h₂ => ?_
  apply reads
  intro rc
  apply reads
  intro sr
  apply reads
  intro up
  refine (F.enqueue (F.setReq h₂ c _) up r₂.1).mono fun s₃ h₃ => ?_
  exact F.notify h₃ sr _

/-- `port[port_number]->connect`. -/
theorem connect (h : I s) (n : ℤ) (a len buf : ℕ) :
    Safely AnyFault (fun r => I r.2) (connect s n a len buf) := by
  simp only [Kernel.connect, safely_bind]
  apply reads
  intro i
  split
  · trivial
  · exact F.uportConnect h i a len buf
  · exact F.memPortRequest h a len buf
  · simp only [safely_bind, safely_pure]
    exact reads fun r => F.setReq h a _
  · simp only [safely_bind, safely_pure]
    exact reads fun r => F.setReq h a _
  · simp only [safely_bind, safely_pure]
    exact reads fun r => F.setReq h a _
  · exact F.intPortConnect h a len buf

/-- `req->rops->request`. -/
theorem ropsRequest (h : I s) (ops : ReqOps) (a c len buf : ℕ) :
    Safely AnyFault (fun r => I r.2) (ropsRequest s ops a c len buf) := by
  cases ops with
  | uportClient => exact F.uportRequest h a c len buf
  | mem => exact F.memPortRequest h c len buf
  | portio => exact F.portioRequest h c len buf
  | uportServer | tarfs | bda | int => trivial

theorem wakeWaiter (h : I s) (i t : ℕ) : Safely AnyFault I (wakeWaiter i s t) :=
  F.wakeUp (F.same h (by constructor <;> rfl)) t

theorem acceptMessage (h : I s) (type : ReqType) (m : ℕ) (msg : Message) (sreq : ℕ) :
    Safely AnyFault I (acceptMessage s type m msg sreq) := by
  simp only [Kernel.acceptMessage, safely_bind]
  apply reads
  intro client
  apply reads
  intro clientTask
  refine (F.unqueue h m).mono fun s₁ h₁ => ?_
  refine (F.freePayload h₁ _).mono fun s₂ h₂ => ?_
  refine (F.free h₂ _ m).mono fun s₃ h₃ => ?_
  apply reads
  intro tk
  refine (F.alloc h₃ _).mono fun r h₄ => ?_
  refine Safely.mono (Q := I) ?_ fun s₅ h₅ => ?_
  · split
    · simp only [safely_bind, safely_pure]
      refine (F.linkReq (F.setBody h₄ r.1 _) _ _).mono fun s₅ h₅ => ?_
      exact reads fun creq => F.setReq (F.setReq h₅ sreq _) _ _
    · simp only [safely_bind, safely_pure]
      exact reads fun creq => F.setReq (F.setReq (F.setBody h₄ r.1 _) sreq _) _ _
  · exact reads fun creq => F.notify h₅ creq _

theorem intHandler (h : I s) (vector : ℕ) : Safely AnyFault I (intHandler s vector) := by
  unfold Kernel.intHandler
  refine F.foldlM h (fun s a hs => ?_) _
  simp only [Kernel.intWaiter, safely_bind]
  apply reads
  intro r
  refine Safely.mono (Q := I) ?_ fun s₁ h₁ => ?_
  · split
    · exact F.wakeUp hs _
    · exact hs
  · simp only [safely_pure]
    exact reads fun n => F.setReq h₁ a _

end WakeFrame

namespace WaitFrame

variable {I : State → Prop} (F : WaitFrame I) {s : State}

include F

theorem setState (h : I s) {st : TaskState} (hst : st ≠ .zombie) : I (s.setState st) := by
  unfold State.setState
  split
  · rename_i tk htk
    exact F.state st hst h htk
  · exact h

theorem waitOnReturn (h : I s) (rbuf wbuf : ℕ) (rfds wfds : FdSet) (ret : ℤ) (rfds2 wfds2 : FdSet) :
    Safely AnyFault (fun r => I r.2) (waitOnReturn s rbuf wbuf rfds wfds ret rfds2 wfds2) := by
  simp only [Kernel.waitOnReturn, safely_bind, safely_pure]
  refine (F.foldlM (F.setState h (by simp)) (fun s i hs => F.unwait hs rfds i) _).mono fun s₁ h₁ => ?_
  refine (F.foldlM h₁ (fun s i hs => F.unwait hs wfds i) _).mono fun s₂ h₂ => ?_
  refine (F.copyFdSet h₂ _ _ _).mono fun r₃ h₃ => ?_
  refine (F.copyFdSet h₃ _ _ _).mono fun r₄ h₄ => ?_
  exact F.enable h₄

/-- One pass of the loop of `wait_on`. -/
theorem waitOnPass (h : I s) (rbuf wbuf : ℕ) (rfds wfds : FdSet) :
    Safely AnyFault (fun r => I r.2) (waitOnPass s rbuf wbuf rfds wfds) := by
  simp only [Kernel.waitOnPass, safely_bind]
  refine (F.fdsCheck h 1 rfds).mono fun r hr => ?_
  split
  · exact F.waitOnReturn hr _ _ _ _ _ _ _
  simp only [safely_bind]
  refine (F.fdsCheck hr 2 wfds).mono fun r₁ h₁ => ?_
  split
  · exact F.waitOnReturn h₁ _ _ _ _ _ _ _
  split
  · exact F.waitOnReturn h₁ _ _ _ _ _ _ _
  · simp only [safely_bind, safely_pure]
    exact F.enable (F.setState h₁ (by simp))

theorem waitOn (h : I s) (rbuf wbuf : ℕ) : Safely AnyFault (fun r => I r.2) (waitOn s rbuf wbuf) := by
  simp only [Kernel.waitOn, safely_bind]
  refine (F.readFdSet (F.disable h) rbuf).mono fun r hr => ?_
  split
  · simp only [safely_bind, safely_pure]
    exact F.enable hr
  simp only [safely_bind]
  refine (F.readFdSet hr wbuf).mono fun r₁ h₁ => ?_
  split
  · simp only [safely_bind, safely_pure]
    exact F.enable h₁
  · exact F.waitOnPass (F.setState h₁ (by simp)) _ _ _ _

/-- One pass of the loop of `wait_on_port`. -/
theorem waitOnPortPass (h : I s) (n : ℤ) :
    Safely AnyFault (fun r => I r.2) (waitOnPortPass s n) := by
  simp only [Kernel.waitOnPortPass, safely_bind]
  apply reads
  intro i
  split
  · simp only [safely_bind, safely_pure]
    exact F.enable h
  · simp only [safely_bind, safely_pure]
    exact F.enable (F.same h ⟨rfl, rfl, rfl, rfl, rfl, rfl, rfl⟩)

/-- What a task does after its `schedule()` returned. -/
theorem resume (h : I s) (k : Kont) : Safely AnyFault (fun r => I r.2) (resume s k) := by
  cases k with
  | waitOn rbuf wbuf rfds wfds => exact F.waitOnPass (F.disable h) _ _ _ _
  | waitOnPort n => exact F.waitOnPortPass (F.disable h) n
  | idle => exact h
  | exit => trivial

end WaitFrame

namespace CallFrame

variable {n : ℕ} {I : State → Prop} (F : CallFrame n I) {s : State}

include F

theorem toWaitFrame : WaitFrame I where
  data := F.data
  state := fun {_ tk} st _ h htk => F.own st tk.fds tk.astable tk.children tk.space h htk

theorem setState (h : I s) (st : TaskState) : I (s.setState st) := by
  unfold State.setState
  split
  · rename_i tk htk
    exact F.own st tk.fds tk.astable tk.children tk.space h htk
  · exact h

theorem setFds (h : I s) (fds : FdTable) : I (s.setFds fds) := by
  unfold State.setFds
  split
  · rename_i tk htk
    exact F.own tk.state fds tk.astable tk.children tk.space h htk
  · exact h

theorem setAstable (h : I s) (astable : FdTable) : I (s.setAstable astable) := by
  unfold State.setAstable
  split
  · rename_i tk htk
    exact F.own tk.state tk.fds astable tk.children tk.space h htk
  · exact h

theorem clearFd (h : I s) (fd : ℕ) : Safely AnyFault I (clearFd s fd) := by
  simp only [Kernel.clearFd, safely_bind, safely_pure]
  exact reads fun tk => F.setFds h _

/-! ## Calls of handles -/

theorem connectHandle (h : I s) (len buf : ℕ) :
    Safely AnyFault (fun r => I r.2) (connectHandle s len buf) := by
  simp only [Kernel.connectHandle, safely_bind]
  apply reads
  intro ok
  split
  · exact h
  simp only [safely_bind]
  apply reads
  intro tk
  refine (F.newReq h tk _).mono fun r hr => ?_
  split
  · simp only [safely_bind, safely_pure]
    exact F.freeReq hr _
  · exact F.setFds hr _

theorem portConnect (h : I s) (port : ℤ) (len buf : ℕ) :
    Safely AnyFault (fun r => I r.2) (portConnect s port len buf) := by
  simp only [Kernel.portConnect, safely_bind]
  apply reads
  intro ops
  split
  · exact h
  simp only [safely_bind]
  refine (F.locked h fun s hs => F.connectHandle hs len buf).mono fun r hr => ?_
  split
  · exact hr
  simp only [safely_bind]
  refine (F.connect hr _ _ _ _).mono fun r₁ h₁ => ?_
  split
  · simp only [safely_bind, safely_pure]
    exact (F.freeReq h₁ _).mono fun s₂ h₂ => F.clearFd h₂ _
  · exact h₁

theorem requestOn (h : I s) (tk : Task) (ops : ReqOps) (a len buf : ℕ) :
    Safely AnyFault (fun r => I r.2) (requestOn s tk ops a len buf) := by
  simp only [Kernel.requestOn, safely_bind]
  refine (F.newReq h tk _).mono fun r hr => ?_
  split
  · simp only [safely_bind, safely_pure]
    exact F.freeReq hr _
  simp only [safely_bind]
  refine (F.ropsRequest (F.setFds hr _) _ _ _ _ _).mono fun r₁ h₁ => ?_
  split
  · simp only [safely_bind, safely_pure]
    exact (F.freeReq h₁ _).mono fun s₂ h₂ => F.clearFd h₂ _
  · exact h₁

theorem request (h : I s) (rd : ℤ) (len buf : ℕ) :
    Safely AnyFault (fun r => I r.2) (request s rd len buf) := by
  refine F.locked h fun s hs => ?_
  simp only [safely_bind]
  apply reads
  intro tk
  apply reads
  intro f
  split
  · exact hs
  simp only [safely_bind]
  apply reads
  intro r
  split
  · exact hs
  simp only [safely_bind]
  apply reads
  intro ops
  split
  · exact hs
  simp only [safely_bind]
  apply reads
  intro ok
  split
  · exact hs
  · exact F.requestOn hs _ _ _ _ _

theorem getResponse (h : I s) (cookie : ℤ) (res : ℕ) :
    Safely AnyFault (fun r => I r.2) (getResponse s cookie res) := by
  refine F.locked h fun s hs => ?_
  simp only [safely_bind]
  apply reads
  intro ok
  split
  · exact hs
  simp only [safely_bind]
  apply reads
  intro tk
  apply reads
  intro f
  split
  · exact hs
  simp only [safely_bind]
  apply reads
  intro r
  apply reads
  intro ops
  split
  · exact hs
  simp only [safely_bind]
  refine (F.ropsGetResponse hs _ _ _).mono fun x hx => ?_
  split
  · exact hx
  simp only [safely_bind]
  refine Safely.mono (Q := I) ?_ fun s₁ h₁ => F.runMm h₁ _
  split
  · simp only [safely_bind]
    exact (F.clearFd hx _).mono fun s₁ h₁ => F.freeReq h₁ _
  · exact hx

theorem openPort (h : I s) (port : ℤ) : Safely AnyFault (fun r => I r.2) (openPort s port) := by
  refine F.locked h fun s hs => ?_
  simp only [safely_bind]
  refine (F.registerPort hs port).mono fun r hr => ?_
  split
  · exact hr
  simp only [safely_bind]
  apply reads
  intro i
  apply reads
  intro tk
  refine (F.alloc hr _).mono fun r₁ h₁ => ?_
  split
  · simp only [safely_bind, safely_pure]
    exact F.freeReq h₁ _
  simp only [safely_bind, safely_pure]
  refine (F.alloc (F.setFds h₁ _) _).mono fun r₂ h₂ => ?_
  refine (F.registerPort (F.same h₂ (by constructor <;> rfl)) port).mono fun r₃ h₃ => ?_
  exact F.foldlM h₃ (fun s t hs => F.wakeWaiter hs i t) _

theorem popMessage (h : I s) (type : ReqType) (m buf : ℕ) :
    Safely AnyFault (fun r => I r.2) (popMessage s type m buf) := by
  simp only [Kernel.popMessage, safely_bind]
  apply reads
  intro tk
  refine (F.alloc h _).mono fun r hr => ?_
  split
  · exact hr
  simp only [safely_bind]
  apply reads
  intro msg
  refine Safely.mono (Q := fun x => I x.2) ?_ fun x hx => ?_
  · split
    · simp only [safely_bind, safely_pure]
      exact (F.runMm (F.setFds hr _) _).mono fun x hx => reads fun head => hx
    · exact F.setFds hr _
  split
  · exact hx
  simp only [safely_bind]
  apply reads
  intro client
  apply reads
  intro clientTask
  refine (F.runMm hx _).mono fun y hy => ?_
  split
  · simp only [safely_bind, safely_pure]
    exact F.execMm hy _
  · simp only [safely_bind, safely_pure]
    exact F.acceptMessage hy _ _ _ _

theorem popRequest (h : I s) (rd : ℤ) (buf : ℕ) :
    Safely AnyFault (fun r => I r.2) (popRequest s rd buf) := by
  refine F.locked h fun s hs => ?_
  simp only [safely_bind]
  apply reads
  intro tk
  apply reads
  intro f
  split
  · exact hs
  simp only [safely_bind]
  apply reads
  intro r
  split
  · exact hs
  simp only [safely_bind]
  apply reads
  intro q
  apply reads
  intro l
  split
  · exact F.popMessage hs _ _ _
  split
  · exact hs
  simp only [safely_bind]
  apply reads
  intro u
  split
  · exact hs
  · simp only [safely_bind, safely_pure]
    exact F.runMm hs _

theorem respond (h : I s) (fd : ℤ) (len buf : ℕ) :
    Safely AnyFault (fun r => I r.2) (respond s fd len buf) := by
  refine F.locked h fun s hs => ?_
  simp only [safely_bind]
  apply reads
  intro tk
  apply reads
  intro f
  split
  · exact hs
  simp only [safely_bind]
  apply reads
  intro r
  split
  · exact hs
  simp only [safely_bind]
  apply reads
  intro ca
  apply reads
  intro c
  split
  · exact hs
  simp only [safely_bind]
  apply reads
  intro cr
  split
  · trivial
  simp only [safely_bind]
  refine (F.runMm hs _).mono fun x hx => ?_
  split
  · exact hx
  simp only [safely_bind, safely_pure]
  refine (F.clearFd hx _).mono fun s₁ h₁ => ?_
  refine (F.freeReq h₁ _).mono fun s₂ h₂ => ?_
  exact F.notify (F.setBody h₂ _ _) _ _

theorem close (h : I s) (fd : ℤ) : Safely AnyFault (fun r => I r.2) (close s fd) := by
  simp only [Kernel.close, safely_bind]
  apply reads
  intro tk
  apply reads
  intro f
  split
  · exact h
  simp only [safely_bind, safely_pure]
  refine (F.clearFd h _).mono fun s₁ h₁ => ?_
  apply reads
  intro r
  apply reads
  intro ops
  exact (F.ropsDrop h₁ _ _).mono fun s₂ h₂ => F.freeReq h₂ _

theorem dup0 (h : I s) (oldFd newFd : ℤ) : Safely AnyFault (fun r => I r.2) (dup0 s oldFd newFd) := by
  simp only [Kernel.dup0, safely_bind]
  apply reads
  intro tk
  apply reads
  intro f
  split
  · exact h
  split
  · exact h
  simp only [safely_bind]
  apply reads
  intro taken
  split
  · exact h
  simp only [safely_bind]
  apply reads
  intro r
  refine (F.newReq h tk _).mono fun r₁ h₁ => ?_
  split
  · simp only [safely_bind, safely_pure]
    exact F.freeReq h₁ _
  simp only [safely_bind]
  apply reads
  intro ops
  refine (F.ropsDup (F.setFds h₁ _) _ _ _).mono fun r₂ h₂ => ?_
  split
  · simp only [safely_bind, safely_pure]
    exact (F.clearFd h₂ _).mono fun s₃ h₃ => F.freeReq h₃ _
  · exact h₂

/-! ## New tasks and address spaces -/

theorem inheritFd {t : ℕ} (ht : n ≤ t) (h : I s) (i : ℕ) : Safely AnyFault I (inheritFd t s i) := by
  simp only [Kernel.inheritFd, safely_bind]
  apply reads
  intro tk
  apply reads
  intro f
  split
  · exact h
  simp only [safely_bind]
  apply reads
  intro r
  split
  · exact h
  simp only [safely_bind]
  apply reads
  intro ops
  split
  · exact h
  simp only [safely_bind]
  apply reads
  intro child
  refine (F.alloc h _).mono fun r₁ h₁ => ?_
  refine (F.ropsDup (F.setReq h₁ _ _) _ _ _).mono fun r₂ h₂ => ?_
  split
  · exact F.free h₂ _ _
  · simp only [safely_bind, safely_pure]
    exact reads_eq fun child hchild => F.child _ h₂ ht (getTask_ok hchild)

theorem newProcess (h : I s) (as : ℕ) :
    n ≤ (newProcess s as).1 ∧ I (newProcess s as).2 := by
  have hpool : I s.poolCreate.2 := F.same h ⟨rfl, rfl, rfl, rfl, rfl, rfl, rfl⟩
  exact ⟨F.bound h, F.new _ hpool⟩

theorem spawn (h : I s) (as pid : ℕ) : Safely AnyFault (fun r => I r.2) (spawn s as pid) := by
  obtain ⟨ht, hnew⟩ := F.newProcess h as
  simp only [Kernel.spawn, safely_bind, safely_pure]
  apply reads
  intro tk
  refine (F.foldlM hnew (fun s i hs => F.inheritFd ht hs i) _).mono fun s₁ h₁ => ?_
  apply reads_eq
  intro child hchild
  apply reads_eq
  intro tk' htk'
  exact F.enter (F.own _ _ _ _ _ (F.child _ h₁ ht (getTask_ok hchild)) (getTask_ok htk')) ht

theorem replaceSelf (h : I s) (fd as : ℕ) :
    Safely AnyFault (fun r => I r.2) (replaceSelf s fd as) := by
  simp only [Kernel.replaceSelf, safely_bind, safely_pure]
  apply reads
  intro tk
  refine Safely.mono (Q := I) ?_ fun s₁ h₁ => ?_
  · split
    · exact F.execMm h _
    · trivial
  · apply reads_eq
    intro tk' htk'
    exact F.setMm (F.own _ _ _ _ _ h₁ (getTask_ok htk')) _

theorem createTask (h : I s) (as : ℤ) (buf : ℕ) (self : Bool) :
    Safely AnyFault (fun r => I r.2) (createTask s as buf self) := by
  simp only [Kernel.createTask, safely_bind]
  apply reads
  intro tk
  split
  · exact h
  simp only [safely_bind]
  apply reads
  intro f
  split
  · exact h
  refine F.locked h fun s hs => ?_
  simp only [safely_bind]
  refine (F.runMm hs _).mono fun r hr => ?_
  split
  · exact hr
  split
  · exact F.replaceSelf hr _ _
  split
  · exact hr
  · exact F.spawn (F.setAstable hr _) _ _

theorem sendpage (h : I s) (as : ℤ) (vaddr dst len : ℕ) :
    Safely AnyFault (fun r => I r.2) (sendpage s as vaddr dst len) := by
  refine F.locked h fun s hs => ?_
  simp only [safely_bind]
  apply reads
  intro tk
  split
  · exact hs
  simp only [safely_bind]
  apply reads
  intro f
  split
  · exact hs
  · exact F.runMm hs _

theorem asdestroy (h : I s) (as : ℤ) : Safely AnyFault (fun r => I r.2) (asdestroy s as) := by
  refine F.locked h fun s hs => ?_
  simp only [safely_bind]
  apply reads
  intro tk
  split
  · exact hs
  simp only [safely_bind]
  apply reads
  intro f
  split
  · exact hs
  · simp only [safely_bind, safely_pure]
    exact F.execMm (F.setAstable hs _) _

theorem asnew (h : I s) (snapshot : Bool) : Safely AnyFault (fun r => I r.2) (asnew s snapshot) := by
  simp only [Kernel.asnew, safely_bind, safely_pure]
  apply reads
  intro tk
  exact (F.runMm h _).mono fun r hr => F.setAstable hr _

/-! ## System calls -/

omit F in
theorem returns {x : Except Fault (ℤ × State)} (hx : Safely AnyFault (fun r => I r.2) x) :
    Safely AnyFault (fun r => I r.2) (returns x) := by
  simpa only [Kernel.returns, safely_bind, safely_pure] using hx

theorem access (h : I s) (ok : Bool) : I (access ok s).2 := by
  cases ok with
  | false => exact F.setState h .zombie
  | true => exact h

/-- A system call of the current task. -/
theorem syscall (h : I s) (c : Call) : Safely AnyFault (fun r => I r.2) (syscall s c) := by
  cases c with
  | portConnect port len buf => exact CallFrame.returns (F.portConnect h _ _ _)
  | request rd len buf => exact CallFrame.returns (F.request h _ _ _)
  | getResponse cookie res => exact CallFrame.returns (F.getResponse h _ _)
  | openPort port => exact CallFrame.returns (F.openPort h _)
  | popRequest rd buf => exact CallFrame.returns (F.popRequest h _ _)
  | respond fd len buf => exact CallFrame.returns (F.respond h _ _ _)
  | close fd => exact CallFrame.returns (F.close h _)
  | dup0 oldFd newFd => exact CallFrame.returns (F.dup0 h _ _)
  | waitOn rbuf wbuf => exact F.toWaitFrame.waitOn h _ _
  | waitOnPort port =>
    exact F.toWaitFrame.waitOnPortPass (F.setState (F.disable h) .waiting) _
  | createTask as buf self => exact CallFrame.returns (F.createTask h _ _ _)
  | exit => exact F.setState h .zombie
  | sendpage as vaddr dst len => exact CallFrame.returns (F.sendpage h _ _ _ _)
  | munmap base len => exact CallFrame.returns (F.runMm h _)
  | asnew snapshot => exact CallFrame.returns (F.asnew h _)
  | asdestroy as => exact CallFrame.returns (F.asdestroy h _)
  | read vaddr =>
    simp only [Kernel.syscall, safely_bind, safely_pure]
    exact (F.runMm h _).mono fun r hr => F.access hr _
  | write vaddr b =>
    simp only [Kernel.syscall, safely_bind, safely_pure]
    exact (F.runMm h _).mono fun r hr => F.access hr _

end CallFrame

end SadOS.Kernel
