import SadOS.Kernel.Mail

/-!
# Calls that leave the messages alone

Only `port_connect` and `request` at a user port, `pop_request`, `open_port`, `close` and the end of
a task change where messages wait.  Everything else writes to handles, to cookies and to tasks.

## Main results

* `Mail.ropsDup`, `Mail.ropsGetResponse` and their siblings — operations of handles.
* `Mail.getResponse`, `Mail.respond`, `Mail.dup0`, `Mail.createTask` — system calls.
* `Mail.waitOnPass`, `Mail.resume` — the loops that block.
* `Mail.intHandler` — an interrupt.
-/

namespace SadOS.Kernel

open Mm (fdtableInsert)

variable {x : ℕ → Prop} {B : ℕ → Option (List ℕ)} {M : ℕ → Option Message} {s : State}

namespace Mail

/-! ## Memory and tasks -/

section writes

variable (h : Mail x B M s)
include h

theorem runMm {α : Type} (c : Except SadOS.Fault (α × Mm.State)) :
    Safely AnyFault (fun r => Mail x B M r.2) (s.runMm c) := by
  unfold State.runMm
  split
  · exact h.setMm _
  · trivial

theorem execMm (c : Except SadOS.Fault Mm.State) : Safely AnyFault (Mail x B M) (s.execMm c) := by
  unfold State.execMm
  split
  · exact h.setMm _
  · trivial

theorem enable : Safely AnyFault (Mail x B M) (enableInterrupts s) := h.execMm _

theorem disable : Mail x B M (disableInterrupts s) := h.setMm _

theorem locked {α : Type} {f : State → Except Fault (α × State)}
    (hf : ∀ s, Mail x B M s → Safely AnyFault (fun r => Mail x B M r.2) (f s)) :
    Safely AnyFault (fun r => Mail x B M r.2) (locked s f) := by
  simp only [Kernel.locked, safely_bind, safely_pure]
  exact (hf _ h.disable).mono fun r hr => hr.enable

theorem setFds (fds : FdTable) : Mail x B M (s.setFds fds) := by
  unfold State.setFds
  split
  · exact h.setTask _ _
  · exact h

theorem setAstable (astable : FdTable) : Mail x B M (s.setAstable astable) := by
  unfold State.setAstable
  split
  · exact h.setTask _ _
  · exact h

theorem setState (st : TaskState) : Mail x B M (s.setState st) := by
  unfold State.setState
  split
  · exact h.setTask _ _
  · exact h

theorem setPc (pc : Pc) : Mail x B M (s.setPc pc) := by
  unfold State.setPc
  split
  · exact h.setTask _ _
  · exact h

theorem clearFd (fd : ℕ) : Safely AnyFault (Mail x B M) (clearFd s fd) := by
  simp only [Kernel.clearFd, safely_bind, safely_pure]
  exact reads fun tk => h.setFds _

theorem wakeUp (t : ℕ) : Safely AnyFault (Mail x B M) (wakeUp s t) := by
  simp only [Kernel.wakeUp, safely_bind]
  apply reads
  intro tk
  split
  · exact h.same rfl rfl rfl
  · exact h

theorem notify (r : Request) (waited : Bool) : Safely AnyFault (Mail x B M) (notify s r waited) := by
  unfold Kernel.notify
  split
  · exact h.wakeUp _
  · exact h

theorem wakeWaiter (i t : ℕ) : Safely AnyFault (Mail x B M) (wakeWaiter i s t) := by
  have h₁ : Mail x B M { s with
      portWaitList := Function.update s.portWaitList i ((s.portWaitList i).erase t) } :=
    h.same rfl rfl rfl
  exact h₁.wakeUp t

theorem registerPort (n : ℤ) : Safely AnyFault (fun r => Mail x B M r.2) (registerPort s n) := by
  simp only [Kernel.registerPort, safely_bind]
  apply reads
  intro i
  split
  · exact h
  · exact h.same rfl rfl rfl

theorem freePayload (plh : Option ℕ) : Safely AnyFault (Mail x B M) (freePayload s plh) := by
  cases plh with
  | none => exact h
  | some plh => exact h.execMm _

theorem mapPayload (len buf : ℕ) :
    Safely AnyFault (fun r => Mail x B M r.2) (mapPayload s len buf) := by
  unfold Kernel.mapPayload
  split
  · simp only [safely_bind]
    refine (h.runMm _).mono fun r hr => ?_
    split <;> exact hr
  · exact h

end writes

theorem foldlM {β : Type} (h : Mail x B M s) {f : State → β → Except Fault State}
    (hf : ∀ s b, Mail x B M s → Safely AnyFault (Mail x B M) (f s b)) (l : List β) :
    Safely AnyFault (Mail x B M) (l.foldlM f s) :=
  safely_foldlM (fun _ => Mail x B M) h fun b _ s hs => hf s b hs

/-! ## Handles -/

/-- A handle that was read. -/
theorem other_of_req (h : Mail x B M s) {a : ℕ} {r : Request} (hr : s.getReq a = .ok r) :
    M a = none ∧ B a = none := by
  rw [← h.msg, ← h.box]
  exact other_of_getReq hr

theorem other_of_cookie (h : Mail x B M s) {a : ℕ} {c : UportCookie} (hc : s.getCookie a = .ok c) :
    M a = none ∧ B a = none := by
  rw [← h.msg, ← h.box]
  exact other_of_getCookie hc

theorem setCookie (h : Mail x B M s) {a : ℕ} (ha : M a = none ∧ B a = none) (c : UportCookie) :
    Mail x B M (s.setBody a (.cookie c)) := h.setBody ha.1 rfl ha.2.symm

/-- A write to the other fields of a connection. -/
theorem setUportReq (h : Mail x B M s) {a : ℕ} {u : UportReq} (hu : s.getUportReq a = .ok u)
    (clients : List ℕ) : Mail x B M (s.setBody a (.uportReq { u with clients })) := by
  obtain ⟨hbox, hmsg⟩ := boxAt_of_getUportReq hu
  exact h.setBody (h.msg ▸ hmsg) rfl (h.box ▸ hbox.symm)

theorem newReq (h : Mail x B M s) (tk : Task) (type : ReqType) :
    Safely AnyFault (fun r => Mail x B M r.2 ∧ M r.1 = none ∧ B r.1 = none) (newReq s tk type) := by
  simp only [Kernel.newReq, safely_bind, safely_pure]
  exact (h.alloc _).mono fun r hr => ⟨hr.1.setReq hr.2.1.other _, hr.2.1.other⟩

theorem freeReq (h : Mail x B M s) {a : ℕ} (ha : M a = none ∧ B a = none) :
    Safely AnyFault (Mail x B M) (freeReq s a) := by
  simp only [Kernel.freeReq, safely_bind]
  exact reads fun tk => h.freeOther ha _

theorem linkReq (h : Mail x B M s) (a : ℕ) (l : ReqList) :
    Safely AnyFault (Mail x B M) (linkReq s a l) := by
  simp only [Kernel.linkReq, safely_bind]
  apply reads_eq
  intro r hr
  have h₁ := h.setReq (h.other_of_req hr) { r with nextReq := some l }
  cases l with
  | clients u =>
    simp only [safely_bind, safely_pure]
    exact reads_eq fun up hup => h₁.setUportReq hup _
  | int v => exact h₁.same rfl rfl rfl

theorem unlinkReq (h : Mail x B M s) (a : ℕ) : Safely AnyFault (Mail x B M) (unlinkReq s a) := by
  simp only [Kernel.unlinkReq, safely_bind]
  apply reads_eq
  intro r hr
  have h₁ := h.setReq (h.other_of_req hr) { r with nextReq := none }
  split
  · trivial
  · simp only [safely_bind, safely_pure]
    exact reads_eq fun up hup => h₁.setUportReq hup _
  · exact h₁.same rfl rfl rfl

theorem closeClient (h : Mail x B M s) (a : ℕ) : Safely AnyFault (Mail x B M) (closeClient s a) := by
  simp only [Kernel.closeClient, safely_bind]
  exact reads_eq fun r hr => (h.setReq (h.other_of_req hr) _).notify r _

theorem dropClient (h : Mail x B M s) (a : ℕ) : Safely AnyFault (Mail x B M) (dropClient s a) := by
  simp only [Kernel.dropClient, safely_bind]
  apply reads_eq
  intro r hr
  refine ((h.setReq (h.other_of_req hr) _).unlinkReq a).mono fun s₁ h₁ => ?_
  exact h₁.notify r _

/-! ## Services of the kernel -/

theorem memPortRequest (h : Mail x B M s) (a len buf : ℕ) :
    Safely AnyFault (fun r => Mail x B M r.2) (memPortRequest s a len buf) := by
  simp only [Kernel.memPortRequest, safely_bind]
  refine (h.runMm _).mono fun r hr => ?_
  split
  · exact hr
  · simp only [safely_bind, safely_pure]
    exact reads_eq fun req hreq => hr.setReq (hr.other_of_req hreq) _

theorem portioRequest (h : Mail x B M s) (a len buf : ℕ) :
    Safely AnyFault (fun r => Mail x B M r.2) (portioRequest s a len buf) := by
  unfold Kernel.portioRequest
  split
  · exact h
  simp only [safely_bind]
  refine (h.runMm _).mono fun r hr => ?_
  split
  · exact hr
  simp only [safely_bind]
  apply reads_eq
  intro req hreq
  have hother := hr.other_of_req hreq
  split
  · exact hr.setReq hother _
  split
  · exact hr.setReq hother _
  · exact hr.setReq hother _

theorem intPortConnect (h : Mail x B M s) (a len buf : ℕ) :
    Safely AnyFault (fun r => Mail x B M r.2) (intPortConnect s a len buf) := by
  unfold Kernel.intPortConnect
  split
  · exact h
  simp only [safely_bind]
  refine (h.runMm _).mono fun r hr => ?_
  split
  · exact hr
  split
  · exact hr
  simp only [safely_bind, safely_pure]
  exact reads_eq fun req hreq => (hr.setReq (hr.other_of_req hreq) _).linkReq a _

/-! ## Operations of handles -/

theorem uportGetResponse (h : Mail x B M s) (r : Request) :
    Safely AnyFault (fun r => Mail x B M r.2) (uportGetResponse s r) := by
  unfold Kernel.uportGetResponse
  split
  · exact h
  split
  · exact h
  split
  · exact h
  simp only [safely_bind]
  apply reads
  intro a
  apply reads_eq
  intro c hc
  have hother := h.other_of_cookie hc
  split
  · exact h
  simp only [safely_bind]
  refine (h.runMm _).mono fun r hr => ?_
  split
  · exact hr
  simp only [safely_bind, safely_pure]
  apply reads
  intro head
  refine (hr.execMm _).mono fun s₁ h₁ => ?_
  exact reads fun owner => h₁.freeOther hother _

/-- `req->rops->get_response`. -/
theorem ropsGetResponse (h : Mail x B M s) (ops : ReqOps) (a : ℕ) (r : Request) :
    Safely AnyFault (fun r => Mail x B M r.2) (ropsGetResponse s ops a r) := by
  cases ops with
  | uportClient => exact h.uportGetResponse r
  | mem =>
    simp only [Kernel.ropsGetResponse, memPortGetResponse, safely_bind]
    apply reads_eq
    intro req hreq
    have h₁ := h.setReq (h.other_of_req hreq) { req with data := .null }
    split
    · exact h₁
    · exact h₁
    · trivial
  | tarfs =>
    simp only [Kernel.ropsGetResponse, safely_bind, safely_pure]
    exact h.runMm _
  | bda =>
    simp only [Kernel.ropsGetResponse, safely_bind, safely_pure]
    exact h.runMm _
  | portio =>
    simp only [Kernel.ropsGetResponse, portioGetResponse]
    split
    · exact h
    split
    · split <;> exact h
    · trivial
  | uportServer | int => trivial

/-- `req->rops->dup`. -/
theorem ropsDup (h : Mail x B M s) (ops : ReqOps) (old : Request) (new : ℕ) :
    Safely AnyFault (fun r => Mail x B M r.2) (ropsDup s ops old new) := by
  cases ops with
  | uportClient =>
    simp only [Kernel.ropsDup, Kernel.uportDup]
    split
    · exact h
    split
    · exact h
    simp only [safely_bind, safely_pure]
    apply reads_eq
    intro r hr
    have h₁ := h.setReq (h.other_of_req hr)
      { r with data := old.data, state := old.state, rops := old.rops }
    exact reads fun sreq => reads fun sr => reads fun up => h₁.linkReq new _
  | int =>
    simp only [Kernel.ropsDup, intPortDup]
    split
    · simp only [safely_bind, safely_pure]
      exact reads_eq fun r hr => (h.setReq (h.other_of_req hr) _).linkReq new _
    · trivial
  | uportServer | mem | tarfs | bda | portio => exact h

/-- `req->rops->available`. -/
theorem ropsAvailable (h : Mail x B M s) (ops : ReqOps) {a : ℕ} {r₀ : Request}
    (ha : s.getReq a = .ok r₀) (r : Request) (rw : ℕ) :
    Safely AnyFault (fun r => Mail x B M r.2) (ropsAvailable s ops a r rw) := by
  cases ops with
  | uportServer =>
    simp only [Kernel.ropsAvailable, safely_bind, safely_pure]
    exact reads fun _ => h
  | uportClient =>
    simp only [Kernel.ropsAvailable, safely_bind, safely_pure]
    exact reads fun _ => h
  | int =>
    simp only [Kernel.ropsAvailable, intPortAvailable, safely_bind, safely_pure]
    split
    · exact h
    split
    · exact h.setReq (h.other_of_req ha) _
    · trivial
  | mem | tarfs | bda | portio => exact h

/-! ## `wait_on` -/

theorem fdCheck (h : Mail x B M s) (rw i : ℕ) (fds : FdSet) :
    Safely AnyFault (fun r => Mail x B M r.2) (fdCheck rw i fds s) := by
  simp only [Kernel.fdCheck, safely_bind]
  apply reads
  intro tk
  apply reads
  intro f
  split
  · exact h
  simp only [safely_bind]
  apply reads_eq
  intro r hr
  apply reads
  intro ops
  refine (h.ropsAvailable ops hr r rw).mono fun y hy => ?_
  split
  · exact hy
  simp only [safely_bind, safely_pure]
  exact reads_eq fun r hr => hy.setReq (hy.other_of_req hr) _

theorem fdsCheckFrom (h : Mail x B M s) (rw : ℕ) (l : List ℕ) (fds : FdSet) :
    Safely AnyFault (fun r => Mail x B M r.2) (fdsCheckFrom rw l fds s) := by
  induction l generalizing fds s with
  | nil => exact h
  | cons i rest ih =>
    unfold Kernel.fdsCheckFrom
    split
    · exact h
    split
    · exact ih h fds
    simp only [safely_bind]
    refine (h.fdCheck rw i fds).mono fun y hy => ?_
    split
    · exact hy
    · exact ih hy _

theorem fdsCheck (h : Mail x B M s) (rw : ℕ) (fds : FdSet) :
    Safely AnyFault (fun r => Mail x B M r.2) (fdsCheck rw fds s) := h.fdsCheckFrom rw _ fds

theorem unwait (h : Mail x B M s) (fds : FdSet) (i : ℕ) :
    Safely AnyFault (Mail x B M) (unwait fds s i) := by
  unfold Kernel.unwait
  split
  · exact h
  simp only [safely_bind]
  apply reads
  intro tk
  apply reads
  intro f
  split
  · exact h
  · simp only [safely_bind, safely_pure]
    exact reads_eq fun r hr => h.setReq (h.other_of_req hr) _

theorem copyFdSet (h : Mail x B M s) (ret : ℤ) (buf : ℕ) (fds : FdSet) :
    Safely AnyFault (fun r => Mail x B M r.2) (copyFdSet s ret buf fds) := by
  unfold Kernel.copyFdSet
  split
  · simp only [safely_bind, safely_pure]
    exact h.runMm _
  · exact h

theorem readFdSet (h : Mail x B M s) (buf : ℕ) :
    Safely AnyFault (fun r => Mail x B M r.2) (readFdSet s buf) := by
  unfold Kernel.readFdSet
  split
  · exact h
  simp only [safely_bind]
  refine (h.runMm _).mono fun r hr => ?_
  apply reads
  intro tk
  split
  · exact hr
  split <;> exact hr

theorem waitOnReturn (h : Mail x B M s) (rbuf wbuf : ℕ) (rfds wfds : FdSet) (ret : ℤ)
    (rfds2 wfds2 : FdSet) :
    Safely AnyFault (fun r => Mail x B M r.2) (waitOnReturn s rbuf wbuf rfds wfds ret rfds2 wfds2) := by
  simp only [Kernel.waitOnReturn, safely_bind, safely_pure]
  refine ((h.setState _).foldlM (fun s i hs => hs.unwait rfds i) _).mono fun s₁ h₁ => ?_
  refine (h₁.foldlM (fun s i hs => hs.unwait wfds i) _).mono fun s₂ h₂ => ?_
  refine (h₂.copyFdSet _ _ _).mono fun r₃ h₃ => ?_
  refine (h₃.copyFdSet _ _ _).mono fun r₄ h₄ => ?_
  exact h₄.enable

/-- One pass of the loop of `wait_on`. -/
theorem waitOnPass (h : Mail x B M s) (rbuf wbuf : ℕ) (rfds wfds : FdSet) :
    Safely AnyFault (fun r => Mail x B M r.2) (waitOnPass s rbuf wbuf rfds wfds) := by
  simp only [Kernel.waitOnPass, safely_bind]
  refine (h.fdsCheck 1 rfds).mono fun r hr => ?_
  split
  · exact hr.waitOnReturn _ _ _ _ _ _ _
  simp only [safely_bind]
  refine (hr.fdsCheck 2 wfds).mono fun r₁ h₁ => ?_
  split
  · exact h₁.waitOnReturn _ _ _ _ _ _ _
  split
  · exact h₁.waitOnReturn _ _ _ _ _ _ _
  · simp only [safely_bind, safely_pure]
    exact (h₁.setState _).enable

theorem waitOn (h : Mail x B M s) (rbuf wbuf : ℕ) :
    Safely AnyFault (fun r => Mail x B M r.2) (waitOn s rbuf wbuf) := by
  simp only [Kernel.waitOn, safely_bind]
  refine (h.disable.readFdSet rbuf).mono fun r hr => ?_
  split
  · simp only [safely_bind, safely_pure]
    exact hr.enable
  simp only [safely_bind]
  refine (hr.readFdSet wbuf).mono fun r₁ h₁ => ?_
  split
  · simp only [safely_bind, safely_pure]
    exact h₁.enable
  · exact (h₁.setState _).waitOnPass _ _ _ _

/-- One pass of the loop of `wait_on_port`. -/
theorem waitOnPortPass (h : Mail x B M s) (n : ℤ) :
    Safely AnyFault (fun r => Mail x B M r.2) (waitOnPortPass s n) := by
  simp only [Kernel.waitOnPortPass, safely_bind]
  apply reads
  intro i
  split
  · simp only [safely_bind, safely_pure]
    exact h.enable
  · simp only [safely_bind, safely_pure]
    exact Mail.enable (h.same rfl rfl rfl)

/-- What a task does after its `schedule()` returned. -/
theorem resume (h : Mail x B M s) (k : Kont) :
    Safely AnyFault (fun r => Mail x B M r.2) (resume s k) := by
  cases k with
  | waitOn rbuf wbuf rfds wfds => exact h.disable.waitOnPass _ _ _ _
  | waitOnPort n => exact h.disable.waitOnPortPass n
  | idle => exact h
  | exit => trivial

/-! ## Calls of clients and servers -/

theorem getResponse (h : Mail x B M s) (cookie : ℤ) (res : ℕ) :
    Safely AnyFault (fun r => Mail x B M r.2) (getResponse s cookie res) := by
  refine h.locked fun s hs => ?_
  simp only [safely_bind]
  apply reads
  intro ok
  split
  · exact hs
  simp only [safely_bind]
  apply reads
  intro tk
  apply reads
  intro f
  split
  · exact hs
  simp only [safely_bind]
  apply reads_eq
  intro r hr
  apply reads
  intro ops
  split
  · exact hs
  simp only [safely_bind]
  refine (hs.ropsGetResponse _ _ _).mono fun y hy => ?_
  split
  · exact hy
  simp only [safely_bind]
  refine Safely.mono (Q := Mail x B M) ?_ fun s₁ h₁ => h₁.runMm _
  split
  · simp only [safely_bind]
    exact (hy.clearFd _).mono fun s₁ h₁ => h₁.freeReq (hs.other_of_req hr)
  · exact hy

theorem respond (h : Mail x B M s) (fd : ℤ) (len buf : ℕ) :
    Safely AnyFault (fun r => Mail x B M r.2) (respond s fd len buf) := by
  refine h.locked fun s hs => ?_
  simp only [safely_bind]
  apply reads
  intro tk
  apply reads
  intro f
  split
  · exact hs
  simp only [safely_bind]
  apply reads_eq
  intro r hr
  split
  · exact hs
  simp only [safely_bind]
  apply reads
  intro ca
  apply reads_eq
  intro c hc
  have hcookie := hs.other_of_cookie hc
  split
  · exact hs
  simp only [safely_bind]
  apply reads
  intro cr
  split
  · trivial
  simp only [safely_bind]
  refine (hs.runMm _).mono fun y hy => ?_
  split
  · exact hy
  simp only [safely_bind, safely_pure]
  refine (hy.clearFd _).mono fun s₁ h₁ => ?_
  refine (h₁.freeReq (hs.other_of_req hr)).mono fun s₂ h₂ => ?_
  exact (h₂.setCookie hcookie _).notify _ _

theorem dup0 (h : Mail x B M s) (oldFd newFd : ℤ) :
    Safely AnyFault (fun r => Mail x B M r.2) (dup0 s oldFd newFd) := by
  simp only [Kernel.dup0, safely_bind]
  apply reads
  intro tk
  apply reads
  intro f
  split
  · exact h
  split
  · exact h
  simp only [safely_bind]
  apply reads
  intro taken
  split
  · exact h
  simp only [safely_bind]
  apply reads
  intro r
  refine (h.newReq tk _).mono fun r₁ hr₁ => ?_
  obtain ⟨h₁, hother⟩ := hr₁
  split
  · simp only [safely_bind, safely_pure]
    exact h₁.freeReq hother
  simp only [safely_bind]
  apply reads
  intro ops
  refine ((h₁.setFds _).ropsDup _ _ _).mono fun r₂ h₂ => ?_
  split
  · simp only [safely_bind, safely_pure]
    exact (h₂.clearFd _).mono fun s₃ h₃ => h₃.freeReq hother
  · exact h₂

/-! ## New tasks and address spaces -/

theorem inheritFd (h : Mail x B M s) (t i : ℕ) : Safely AnyFault (Mail x B M) (inheritFd t s i) := by
  simp only [Kernel.inheritFd, safely_bind]
  apply reads
  intro tk
  apply reads
  intro f
  split
  · exact h
  simp only [safely_bind]
  apply reads
  intro r
  split
  · exact h
  simp only [safely_bind]
  apply reads
  intro ops
  split
  · exact h
  simp only [safely_bind]
  apply reads
  intro child
  refine (h.alloc _).mono fun r₁ hr₁ => ?_
  obtain ⟨h₁, hfresh, -⟩ := hr₁
  refine ((h₁.setReq hfresh.other _).ropsDup _ _ _).mono fun r₂ h₂ => ?_
  split
  · exact h₂.freeOther hfresh.other _
  · simp only [safely_bind, safely_pure]
    exact reads fun child => h₂.setTask t _

theorem newProcess (h : Mail x B M s) (as : ℕ) : Mail x B M (newProcess s as).2 :=
  h.poolCreate.same rfl rfl rfl

theorem spawn (h : Mail x B M s) (as pid : ℕ) :
    Safely AnyFault (fun r => Mail x B M r.2) (spawn s as pid) := by
  simp only [Kernel.spawn, safely_bind, safely_pure]
  apply reads
  intro tk
  refine ((h.newProcess as).foldlM (fun s i hs => hs.inheritFd _ i) _).mono fun s₁ h₁ => ?_
  apply reads
  intro child
  apply reads
  intro tk'
  exact h₁.same rfl rfl rfl

theorem replaceSelf (h : Mail x B M s) (fd as : ℕ) :
    Safely AnyFault (fun r => Mail x B M r.2) (replaceSelf s fd as) := by
  simp only [Kernel.replaceSelf, safely_bind, safely_pure]
  apply reads
  intro tk
  refine Safely.mono (Q := Mail x B M) ?_ fun s₁ h₁ => ?_
  · split
    · exact h.execMm _
    · trivial
  · exact reads fun tk' => (h₁.setTask _ _).setMm _

theorem createTask (h : Mail x B M s) (as : ℤ) (buf : ℕ) (self : Bool) :
    Safely AnyFault (fun r => Mail x B M r.2) (createTask s as buf self) := by
  simp only [Kernel.createTask, safely_bind]
  apply reads
  intro tk
  split
  · exact h
  simp only [safely_bind]
  apply reads
  intro f
  split
  · exact h
  refine h.locked fun s hs => ?_
  simp only [safely_bind]
  refine (hs.runMm _).mono fun r hr => ?_
  split
  · exact hr
  split
  · exact hr.replaceSelf _ _
  split
  · exact hr
  · exact (hr.setAstable _).spawn _ _

theorem sendpage (h : Mail x B M s) (as : ℤ) (vaddr dst len : ℕ) :
    Safely AnyFault (fun r => Mail x B M r.2) (sendpage s as vaddr dst len) := by
  refine h.locked fun s hs => ?_
  simp only [safely_bind]
  apply reads
  intro tk
  split
  · exact hs
  simp only [safely_bind]
  apply reads
  intro f
  split
  · exact hs
  · exact hs.runMm _

theorem asdestroy (h : Mail x B M s) (as : ℤ) :
    Safely AnyFault (fun r => Mail x B M r.2) (asdestroy s as) := by
  refine h.locked fun s hs => ?_
  simp only [safely_bind]
  apply reads
  intro tk
  split
  · exact hs
  simp only [safely_bind]
  apply reads
  intro f
  split
  · exact hs
  · simp only [safely_bind, safely_pure]
    exact (hs.setAstable _).execMm _

theorem asnew (h : Mail x B M s) (snapshot : Bool) :
    Safely AnyFault (fun r => Mail x B M r.2) (asnew s snapshot) := by
  simp only [Kernel.asnew, safely_bind, safely_pure]
  apply reads
  intro tk
  exact (h.runMm _).mono fun r hr => hr.setAstable _

/-! ## Interrupts and the scheduler -/

theorem intHandler (h : Mail x B M s) (vector : ℕ) :
    Safely AnyFault (Mail x B M) (intHandler s vector) := by
  unfold Kernel.intHandler
  refine h.foldlM (fun s a hs => ?_) _
  simp only [Kernel.intWaiter, safely_bind]
  apply reads_eq
  intro r hr
  refine Safely.mono (Q := Mail x B M) ?_ fun s₁ h₁ => ?_
  · split
    · exact hs.wakeUp _
    · exact hs
  · simp only [safely_pure]
    exact reads fun n => h₁.setReq (hs.other_of_req hr) _

theorem requeue (h : Mail x B M s) : Safely AnyFault (Mail x B M) (requeue s) := by
  simp only [Kernel.requeue, safely_bind]
  apply reads
  intro tk
  split
  · exact h.same rfl rfl rfl
  · exact h

theorem orphan (h : Mail x B M s) (t child : ℕ) : Safely AnyFault (Mail x B M) (orphan t s child) := by
  simp only [Kernel.orphan, safely_bind, safely_pure]
  exact reads fun tk => reads fun ck => (h.setTask _ _).setTask _ _

end Mail

end SadOS.Kernel
