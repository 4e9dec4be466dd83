import SadOS.Kernel.Rollback

/-!
# The tables of ports

`port` says which operations answer at a number, and `uport` which handle the messages for
it go to.  `open_port` writes the first table before it has a number for the handle, and
where there is none it leaves it written.

## Main definitions

* `PortCall`, `Turn`, `turn` — a task makes one of the three calls.
* `HasPort`, `PortsMatch` — the two tables agree.
* `HasNumber` — `open_port` on a free port finds a number for the handle.
* `Role`, `SameRoles` — what the tables count on, and what keeps it.
* `Registry` — the invariant.

## Main results

* `SameRoles.ropsDrop`, `SameRoles.connect` — the operations that leave the tables alone.
* `Registry.openPort`, `Registry.close`, `Registry.portConnect` — the calls.
* `portsMatch_of_numbers` — every run.
* `portsMatch_fails` — a table of handles that is full.
-/

namespace SadOS.Kernel

open Mm (fdtableInsert)

/-! ## Calls of any task -/

/-- The calls that change the tables of ports, and the one that follows them. -/
inductive PortCall
  | openPort (n : ℤ)
  | close (fd : ℤ)
  | portConnect (n : ℤ) (len buf : ℕ)

/-- The call in the current task. -/
def PortCall.run (s : State) : PortCall → Except Fault (ℤ × State)
  | .openPort n => Kernel.openPort s n
  | .close fd => Kernel.close s fd
  | .portConnect n len buf => Kernel.portConnect s n len buf

/-- A task that makes a call, in the address space `space`. -/
structure Turn where
  task : ℕ
  space : Option ℕ
  call : PortCall

/-- The state after the call of a task. -/
def turn (s : State) (x : Turn) : Except Fault State := do
  let (_, s) ← x.call.run (switchTo s x.task x.space)
  return s

/-- The number `n` has a live handle of type `REQ_PORT`, with a `struct uport` for `n`. -/
def HasPort (s : State) (n : ℕ) : Prop :=
  ∃ a r u up, s.uport n = some a ∧ s.getReq a = .ok r ∧ r.type = .port ∧ r.data = .obj u ∧
    s.getUport u = .ok up ∧ up.portNumber = (n : ℤ)

/-- The operations of user ports are at the numbers that have such a handle. -/
def PortsMatch (s : State) : Prop := ∀ n, s.port n = some .uport ↔ HasPort s n

/-- Where a call of `open_port` fails, it leaves the tables and the tasks that wait. -/
def FailsClean (s : State) (x : Turn) : Prop :=
  ∀ n ret s', x.call = .openPort n →
    openPort (switchTo s x.task x.space) n = .ok (ret, s') → ret < 0 →
      s'.port = s.port ∧ s'.uport = s.uport ∧ s'.portWaitList = s.portWaitList

/-- A task that opens a free port has a number for the handle. -/
def HasNumber (s : State) (x : Turn) : Prop :=
  ∀ n tk, x.call = .openPort n → s.port n.toNat = none → s.task x.task = some tk → none ∈ tk.fds

/-- No program has a port. -/
def Unregistered (s : State) : Prop := ∀ n, s.port n ≠ some .uport ∧ s.uport n = none

/-! ## What the tables count on -/

/-- What an object is to the tables. -/
inductive Role
  /-- A handle of type `REQ_PORT`. -/
  | handle (data : Data) (rops : Option ReqOps)
  /-- A `struct uport`. -/
  | queue (n : ℤ)

def Body.role : Body → Option Role
  | .request r => if r.type = .port then some (.handle r.data r.rops) else none
  | .uport u => some (.queue u.portNumber)
  | _ => none

def State.role (s : State) (a : ℕ) : Option Role := (s.objs a).bind fun o => o.body.role

/-- The tables are as before, and so is each object to them. -/
structure SameRoles (s₀ s : State) : Prop where
  port : s.port = s₀.port
  uport : s.uport = s₀.uport
  role : ∀ a, s.role a = s₀.role a

namespace SameRoles

variable {s₀ s s' : State}

theorem refl (s : State) : SameRoles s s := ⟨rfl, rfl, fun _ => rfl⟩

theorem trans (h : SameRoles s₀ s) (h' : SameRoles s s') : SameRoles s₀ s' :=
  ⟨h'.port.trans h.port, h'.uport.trans h.uport, fun a => (h'.role a).trans (h.role a)⟩

/-- A state with the same objects. -/
theorem same (h : SameRoles s₀ s) (hport : s'.port = s.port) (huport : s'.uport = s.uport)
    (hobjs : s'.objs = s.objs) : SameRoles s₀ s' :=
  h.trans ⟨hport, huport, fun a => by rw [State.role, State.role, hobjs]⟩

/-- A state with one object changed. -/
theorem update (h : SameRoles s₀ s) {a : ℕ} {o : Option Obj} (hport : s'.port = s.port)
    (huport : s'.uport = s.uport) (hobjs : s'.objs = Function.update s.objs a o)
    (ho : (o.bind fun o => o.body.role) = s.role a) : SameRoles s₀ s' := by
  refine h.trans ⟨hport, huport, fun c => ?_⟩
  rw [State.role, hobjs]
  by_cases hc : c = a
  · subst hc
    rw [Function.update_self, ho]
  · rw [Function.update_of_ne hc, State.role]

/-! ## Writes -/

theorem setMm (h : SameRoles s₀ s) (m : Mm.State) : SameRoles s₀ (s.setMm m) := h.same rfl rfl rfl

theorem setBody (h : SameRoles s₀ s) {a p : ℕ} {b v : Body} (ha : s.objs a = some ⟨p, b⟩)
    (hb : v.role = b.role) : SameRoles s₀ (s.setBody a v) :=
  h.update rfl rfl (o := (s.objs a).map fun o => { o with body := v }) rfl (by
    rw [State.role, ha]
    exact hb)

theorem setReq (h : SameRoles s₀ s) {a : ℕ} {r v : Request} (hr : s.getReq a = .ok r)
    (hrole : (Body.request v).role = (Body.request r).role) : SameRoles s₀ (s.setReq a v) := by
  obtain ⟨p, hobj⟩ := getReq_ok hr
  exact h.setBody hobj hrole

/-- A handle that is no port stays so. -/
theorem setReq_of_none (h : SameRoles s₀ s) {a : ℕ} {r v : Request} (hr : s.getReq a = .ok r)
    (ha : s.role a = none) (htype : v.type = r.type) : SameRoles s₀ (s.setReq a v) := by
  refine h.setReq hr ?_
  obtain ⟨p, hobj⟩ := getReq_ok hr
  have hnone : (Body.request r).role = none := by
    rw [State.role, hobj] at ha
    exact ha
  rw [hnone]
  simp only [Body.role, ite_eq_right_iff, reduceCtorEq, imp_false] at hnone ⊢
  rwa [htype]

theorem setIncoming (h : SameRoles s₀ s) (q : ℕ) (l : List ℕ) :
    SameRoles s₀ (s.setIncoming q l) := by
  unfold State.setIncoming
  split
  · rename_i hobj
    exact h.setBody hobj rfl
  · rename_i hobj
    exact h.setBody hobj rfl
  · exact h

theorem alloc (h : SameRoles s₀ s) (hp : PoolsOk s) (pool : ℕ) :
    Safely AnyFault (fun r => SameRoles s₀ r.2 ∧ s.objs r.1 = none ∧
      ∃ p, r.2.objs r.1 = some ⟨p, .blank⟩) (s.alloc pool) := by
  have hblank : ∀ a, s.objs a = none →
      ((some (⟨pool, .blank⟩ : Obj)).bind fun o => o.body.role) = s.role a := by
    intro a ha
    rw [State.role, ha]
    rfl
  have hcases : Safely AnyFault (fun r => s.objs r.1 = none → SameRoles s₀ r.2 ∧
      ∃ p, r.2.objs r.1 = some ⟨p, .blank⟩) (s.alloc pool) := by
    unfold State.alloc
    split
    · trivial
    · exact fun hnew => ⟨h.update rfl rfl rfl (hblank _ hnew), pool, Function.update_self ..⟩
    · exact fun hnew => ⟨h.update rfl rfl rfl (hblank _ hnew), pool, Function.update_self ..⟩
  refine ((hp.alloc_fresh pool).and hcases).mono ?_
  rintro r ⟨⟨hnew, -⟩, hr⟩
  exact ⟨(hr hnew).1, hnew, (hr hnew).2⟩

theorem free (h : SameRoles s₀ s) {a : ℕ} (ha : s.role a = none) (pool : ℕ) :
    Safely AnyFault (SameRoles s₀) (s.free pool a) := by
  unfold State.free
  split
  · exact h.update rfl rfl rfl ha.symm
  · trivial

theorem freeReq (h : SameRoles s₀ s) {a : ℕ} (ha : s.role a = none) :
    Safely AnyFault (SameRoles s₀) (freeReq s a) := by
  simp only [Kernel.freeReq, safely_bind]
  apply reads
  intro tk
  exact h.free ha _

theorem setFds (h : SameRoles s₀ s) (fds : FdTable) : SameRoles s₀ (s.setFds fds) := by
  unfold State.setFds
  split
  · exact h.same rfl rfl rfl
  · exact h

theorem clearFd (h : SameRoles s₀ s) (fd : ℕ) : Safely AnyFault (SameRoles s₀) (clearFd s fd) := by
  simp only [Kernel.clearFd, safely_bind, safely_pure]
  apply reads
  intro tk
  exact h.setFds _

theorem wakeUp (h : SameRoles s₀ s) (t : ℕ) : Safely AnyFault (SameRoles s₀) (wakeUp s t) := by
  simp only [Kernel.wakeUp, safely_bind]
  apply reads
  intro tk
  split
  · exact h.same rfl rfl rfl
  · exact h

theorem notify (h : SameRoles s₀ s) (r : Request) (waited : Bool) :
    Safely AnyFault (SameRoles s₀) (notify s r waited) := by
  unfold Kernel.notify
  split
  · exact h.wakeUp _
  · exact h

theorem foldlM {β : Type} (h : SameRoles s₀ s) {f : State → β → Except Fault State}
    (hf : ∀ s b, SameRoles s₀ s → Safely AnyFault (SameRoles s₀) (f s b)) (l : List β) :
    Safely AnyFault (SameRoles s₀) (l.foldlM f s) :=
  safely_foldlM (fun _ => SameRoles s₀) h fun b _ s hs => hf s b hs

/-! ## Lists -/

theorem linkReq (h : SameRoles s₀ s) (a : ℕ) (l : ReqList) :
    Safely AnyFault (SameRoles s₀) (linkReq s a l) := by
  simp only [Kernel.linkReq, safely_bind]
  apply reads_eq
  intro r hr
  have h₁ : SameRoles s₀ (s.setReq a { r with nextReq := some l }) := h.setReq hr rfl
  cases l with
  | clients u =>
    simp only [safely_bind, safely_pure]
    apply reads_eq
    intro up hup
    obtain ⟨p, hobj⟩ := getUportReq_ok hup
    exact h₁.setBody hobj rfl
  | int v => exact h₁.same rfl rfl rfl

theorem unlinkReq (h : SameRoles s₀ s) (a : ℕ) :
    Safely AnyFault (SameRoles s₀) (unlinkReq s a) := by
  simp only [Kernel.unlinkReq, safely_bind]
  apply reads_eq
  intro r hr
  have h₁ : SameRoles s₀ (s.setReq a { r with nextReq := none }) := h.setReq hr rfl
  split
  · trivial
  · simp only [safely_bind, safely_pure]
    apply reads_eq
    intro up hup
    obtain ⟨p, hobj⟩ := getUportReq_ok hup
    exact h₁.setBody hobj rfl
  · exact h₁.same rfl rfl rfl

theorem enqueue (h : SameRoles s₀ s) (q m : ℕ) :
    Safely AnyFault (SameRoles s₀) (enqueue s q m) := by
  simp only [Kernel.enqueue, safely_bind, safely_pure]
  apply reads_eq
  intro msg hmsg
  apply reads
  intro l
  obtain ⟨p, hobj⟩ := getMsg_ok hmsg
  exact (h.setBody (v := .message { msg with next := some q }) hobj rfl).setIncoming _ _

theorem unqueue (h : SameRoles s₀ s) (m : ℕ) : Safely AnyFault (SameRoles s₀) (unqueue s m) := by
  simp only [Kernel.unqueue, safely_bind]
  apply reads_eq
  intro msg hmsg
  split
  · trivial
  · simp only [safely_bind, safely_pure]
    apply reads
    intro l
    obtain ⟨p, hobj⟩ := getMsg_ok hmsg
    exact (h.setBody (v := .message { msg with next := none }) hobj rfl).setIncoming _ _

theorem freePayload (h : SameRoles s₀ s) (plh : Option ℕ) :
    Safely AnyFault (SameRoles s₀) (freePayload s plh) := by
  cases plh with
  | none => exact h
  | some plh => exact (execMm_reads s _).mono fun _ ⟨m, _, hm⟩ => hm ▸ h.setMm m

/-! ## The end of handles -/

/-- An object that is neither a port nor a queue, also after what keeps the roles. -/
theorem role_message (h : SameRoles s s') {m : ℕ} {msg : Message} (hm : s.getMsg m = .ok msg) :
    s'.role m = none := by
  obtain ⟨p, hobj⟩ := getMsg_ok hm
  rw [h.role, State.role, hobj]
  rfl

theorem role_uportReq (h : SameRoles s s') {u : ℕ} {up : UportReq} (hu : s.getUportReq u = .ok up) :
    s'.role u = none := by
  obtain ⟨p, hobj⟩ := getUportReq_ok hu
  rw [h.role, State.role, hobj]
  rfl

theorem role_cookie (h : SameRoles s s') {c : ℕ} {ck : UportCookie} (hc : s.getCookie c = .ok ck) :
    s'.role c = none := by
  obtain ⟨p, hobj⟩ := getCookie_ok hc
  rw [h.role, State.role, hobj]
  rfl

theorem closeClient (h : SameRoles s₀ s) (a : ℕ) :
    Safely AnyFault (SameRoles s₀) (closeClient s a) := by
  simp only [Kernel.closeClient, safely_bind]
  apply reads_eq
  intro r hr
  exact (h.setReq (v := { r with state := .closed }) hr rfl).notify r _

theorem dropMessage (h : SameRoles s₀ s) (m : ℕ) :
    Safely AnyFault (SameRoles s₀) (dropMessage s m) := by
  simp only [Kernel.dropMessage, safely_bind]
  apply reads_eq
  intro msg hmsg
  apply ((refl s).freePayload _).mono
  intro s₁ h₁
  apply reads
  intro client
  apply reads
  intro task
  exact (h.trans h₁).free (h₁.role_message hmsg) _

theorem dropConnect (h : SameRoles s₀ s) (m : ℕ) :
    Safely AnyFault (SameRoles s₀) (dropConnect s m) := by
  simp only [Kernel.dropConnect, safely_bind]
  apply reads_eq
  intro msg hmsg
  apply ((refl s).freePayload _).mono
  intro s₁ h₁
  apply reads
  intro client
  apply reads
  intro task
  apply (h₁.closeClient _).mono
  intro s₂ h₂
  exact (h.trans h₂).free (h₂.role_message hmsg) _

theorem dropClient (h : SameRoles s₀ s) (a : ℕ) :
    Safely AnyFault (SameRoles s₀) (dropClient s a) := by
  simp only [Kernel.dropClient, safely_bind]
  apply reads_eq
  intro r hr
  apply ((h.setReq (v := { r with state := .closed }) hr rfl).unlinkReq a).mono
  intro s₁ h₁
  exact h₁.notify r _

theorem uportUserClose (h : SameRoles s₀ s) (a : ℕ) :
    Safely AnyFault (SameRoles s₀) (uportUserClose s a) := by
  simp only [Kernel.uportUserClose, safely_bind]
  apply reads
  intro r
  split
  · simp only [safely_bind]
    apply reads
    intro m
    apply reads_eq
    intro msg hmsg
    apply ((refl s).unqueue m).mono
    intro s₁ h₁
    apply (h₁.freePayload _).mono
    intro s₂ h₂
    apply reads
    intro client
    apply reads
    intro task
    exact (h.trans h₂).free (h₂.role_message hmsg) _
  split
  · exact h.unlinkReq a
  · simp only [safely_bind]
    apply reads
    intro ca
    apply reads_eq
    intro c hc
    split
    · simp only [safely_bind]
      apply ((refl s).freePayload _).mono
      intro s₁ h₁
      apply reads
      intro owner
      exact (h.trans h₁).free (h₁.role_cookie hc) _
    · obtain ⟨p, hobj⟩ := getCookie_ok hc
      exact h.setBody hobj rfl
  · trivial

/-- The handles of a server but those of a port. -/
theorem uportServerClose (h : SameRoles s₀ s) {a : ℕ} {r : Request} (hr : s.getReq a = .ok r)
    (htype : r.type ≠ .port) : Safely AnyFault (SameRoles s₀) (uportServerClose s a) := by
  simp only [Kernel.uportServerClose, hr, safely_bind, safely_ok]
  apply reads
  intro tk
  split
  · rename_i hport
    exact absurd hport htype
  · simp only [safely_bind]
    apply reads
    intro ua
    apply reads_eq
    intro up hup
    apply ((refl s).foldlM (f := Kernel.dropClient) (fun s c hs => hs.dropClient c) _).mono
    intro s₁ h₁
    apply (h₁.foldlM (f := Kernel.dropMessage) (fun s m hs => hs.dropMessage m) _).mono
    intro s₂ h₂
    exact (h.trans h₂).free (h₂.role_uportReq hup) _
  · simp only [safely_bind]
    apply reads
    intro ca
    apply reads_eq
    intro c hc
    apply Safely.mono (Q := SameRoles s)
    · split
      · exact (refl s).closeClient _
      · exact refl s
    intro s₁ h₁
    split
    · trivial
    · exact (h.trans h₁).free (h₁.role_cookie hc) _
  · trivial

/-- `req->rops->drop`, but for the handle of a port. -/
theorem ropsDrop (h : SameRoles s₀ s) {ops : ReqOps} {a : ℕ} {r : Request} (hr : s.getReq a = .ok r)
    (hops : ops = .uportServer → r.type ≠ .port) :
    Safely AnyFault (SameRoles s₀) (ropsDrop s ops a) := by
  cases ops with
  | uportServer => exact h.uportServerClose hr (hops rfl)
  | uportClient => exact h.uportUserClose a
  | int => exact h.unlinkReq a
  | mem => exact h
  | tarfs => exact h
  | bda => exact h
  | portio => exact h

/-! ## Connections -/

theorem newReq (h : SameRoles s₀ s) (hp : PoolsOk s) (tk : Task) {type : ReqType}
    (htype : type ≠ .port) :
    Safely AnyFault (fun r => SameRoles s₀ r.2 ∧ s.role r.1 = none) (newReq s tk type) := by
  simp only [Kernel.newReq, safely_bind, safely_pure]
  refine (h.alloc hp _).mono ?_
  rintro ⟨a, s₁⟩ ⟨h₁, hnew, p, hobj⟩
  refine ⟨h₁.setBody hobj ?_, ?_⟩
  · simp only [Body.role, if_neg htype]
  · rw [State.role, hnew]
    rfl

theorem connectHandle (h : SameRoles s₀ s) (hp : PoolsOk s) (len buf : ℕ) :
    Safely AnyFault (fun r => SameRoles s₀ r.2 ∧ ∀ x, r.1 = .ok x → s₀.role x.1 = none)
      (connectHandle s len buf) := by
  simp only [Kernel.connectHandle, safely_bind]
  apply reads
  intro ok
  split
  · exact ⟨h, by simp⟩
  simp only [safely_bind]
  apply reads
  intro tk
  refine (h.newReq hp tk (show ReqType.request ≠ .port by decide)).mono ?_
  rintro ⟨a, s₁⟩ ⟨h₁, ha⟩
  rw [h.role] at ha
  dsimp only
  split
  · simp only [safely_bind, safely_pure]
    exact (h₁.freeReq ((h₁.role a).trans ha)).mono fun s₂ h₂ => ⟨h₂, by simp⟩
  · simp only [safely_pure]
    refine ⟨h₁.setFds _, fun x hx => ?_⟩
    cases hx
    exact ha

theorem memPortRequest (h : SameRoles s₀ s) {a : ℕ} (ha : s.role a = none) (len buf : ℕ) :
    Safely AnyFault (fun r => SameRoles s₀ r.2) (memPortRequest s a len buf) := by
  simp only [Kernel.memPortRequest, safely_bind]
  refine (runMm_setMm s _).mono ?_
  rintro ⟨⟨ret, md⟩, s₁⟩ ⟨m, rfl⟩
  cases md with
  | none => exact h.setMm m
  | some x =>
    simp only [safely_bind, safely_pure]
    apply reads_eq
    intro r hr
    exact (h.setMm m).setReq_of_none hr ha rfl

theorem intPortConnect (h : SameRoles s₀ s) {a : ℕ} (ha : s.role a = none) (len buf : ℕ) :
    Safely AnyFault (fun r => SameRoles s₀ r.2) (intPortConnect s a len buf) := by
  unfold Kernel.intPortConnect
  split
  · exact h
  simp only [safely_bind]
  refine (runMm_setMm s _).mono ?_
  rintro ⟨⟨ret, bytes⟩, s₁⟩ ⟨m, rfl⟩
  dsimp only
  split
  · exact h.setMm m
  split
  · exact h.setMm m
  simp only [safely_bind, safely_pure]
  apply reads_eq
  intro r hr
  have h₁ : SameRoles s₀ ((s.setMm m).setReq a
      { r with data := .word (toInt32 (numAt bytes 0 4)).toNat, rops := some .int }) :=
    (h.setMm m).setReq_of_none hr ha rfl
  exact h₁.linkReq a _

theorem uportConnect (h : SameRoles s₀ s) (hp : PoolsOk s) {a : ℕ} (ha : s.role a = none)
    (n len buf : ℕ) :
    Safely AnyFault (fun r => SameRoles s₀ r.2) (uportConnect s n a len buf) := by
  simp only [Kernel.uportConnect, safely_bind]
  refine (mapPayload_setMm s _ _).mono ?_
  rintro ⟨plh, s₁⟩ ⟨m, rfl⟩
  cases plh with
  | none => exact h.setMm m
  | some plh =>
    simp only [newMessage, safely_bind, safely_pure]
    apply reads
    intro tk
    refine (((refl s).setMm m).alloc (hp.setMm m) _).mono ?_
    rintro ⟨b, s₂⟩ ⟨h₂, -, p, hobj⟩
    have h₃ : SameRoles s (s₂.setBody b (.message ⟨plh, a, none⟩)) := h₂.setBody hobj rfl
    dsimp only
    split
    · trivial
    simp only [safely_bind, safely_pure]
    apply reads
    intro preq
    apply reads
    intro up
    apply reads_eq
    intro r hr
    have h₄ := h₃.setReq_of_none
      (v := { r with data := .null, rops := some .uportClient, state := .pending }) hr
      ((h₃.role a).trans ha) rfl
    refine (h₄.enqueue up b).mono ?_
    intro s₅ h₅
    exact (h.trans h₅).notify preq _

theorem connect (h : SameRoles s₀ s) (hp : PoolsOk s) (n : ℤ) {a : ℕ} (ha : s.role a = none)
    (len buf : ℕ) : Safely AnyFault (fun r => SameRoles s₀ r.2) (connect s n a len buf) := by
  simp only [Kernel.connect, safely_bind]
  apply reads
  intro i
  have hplain : ∀ ops, Safely AnyFault (fun r => SameRoles s₀ r.2) (do
      let r ← s.getReq a
      return ((0 : ℤ), s.setReq a { r with data := .null, rops := some ops })) := by
    intro ops
    simp only [safely_bind, safely_pure]
    apply reads_eq
    intro r hr
    exact h.setReq_of_none hr ha rfl
  cases s.port i with
  | none => trivial
  | some ops =>
    cases ops with
    | uport => exact h.uportConnect hp ha _ _ _
    | mem => exact h.memPortRequest ha _ _
    | tarfs => exact hplain _
    | bda => exact hplain _
    | portio => exact hplain _
    | int => exact h.intPortConnect ha _ _

end SameRoles

/-! ## The invariant -/

/-- The tables agree, and each entry leads to a handle and a `struct uport` for its number. -/
structure Registry (s : State) : Prop where
  pools : PoolsOk s
  port : ∀ n, s.port n = some .uport ↔ s.uport n ≠ none
  valid : ∀ n a, s.uport n = some a →
    ∃ u, s.role a = some (.handle (.obj u) (some .uportServer)) ∧ s.role u = some (.queue n)

theorem role_handle {s : State} {a : ℕ} {data : Data} {rops : Option ReqOps} :
    s.role a = some (.handle data rops) ↔
      ∃ r, s.getReq a = .ok r ∧ r.type = .port ∧ r.data = data ∧ r.rops = rops := by
  unfold State.role State.getReq
  cases s.objs a with
  | none => simp
  | some o =>
    obtain ⟨p, b⟩ := o
    cases b with
    | request r =>
      by_cases htype : r.type = .port
      · simp [Body.role, htype]
      · simp [Body.role, htype]
    | _ => simp [Body.role]

theorem role_queue {s : State} {u : ℕ} {n : ℤ} :
    s.role u = some (.queue n) ↔ ∃ up, s.getUport u = .ok up ∧ up.portNumber = n := by
  unfold State.role State.getUport
  cases s.objs u with
  | none => simp
  | some o =>
    obtain ⟨p, b⟩ := o
    cases b with
    | request r =>
      by_cases htype : r.type = .port
      · simp [Body.role, htype]
      · simp [Body.role, htype]
    | _ => simp [Body.role]

theorem portIndex_ok {n : ℤ} {i : ℕ} (h : portIndex n = .ok i) : n = (i : ℤ) := by
  unfold portIndex at h
  split at h
  · cases h
    omega
  · cases h

namespace Registry

variable {s s' : State}

theorem portsMatch (h : Registry s) : PortsMatch s := by
  intro n
  rw [h.port n]
  constructor
  · intro hn
    obtain ⟨a, ha⟩ := Option.ne_none_iff_exists'.1 hn
    obtain ⟨u, hrole, hqueue⟩ := h.valid n a ha
    obtain ⟨r, hr, htype, hdata, -⟩ := role_handle.1 hrole
    obtain ⟨up, hup, hnum⟩ := role_queue.1 hqueue
    exact ⟨a, r, u, up, ha, hr, htype, hdata, hup, hnum⟩
  · rintro ⟨a, -, -, -, ha, -⟩
    rw [ha]
    simp

theorem of_unregistered (hp : PoolsOk s) (h : Unregistered s) : Registry s where
  pools := hp
  port n := by simp [h n]
  valid n a ha := by
    rw [(h n).2] at ha
    cases ha

/-- What keeps the roles keeps the invariant. -/
theorem same (h : Registry s) (hr : SameRoles s s') (hp : PoolsOk s') : Registry s' where
  pools := hp
  port n := by rw [hr.port, hr.uport, h.port]
  valid n a ha := by
    rw [hr.uport] at ha
    simp only [hr.role]
    exact h.valid n a ha

theorem switchTo (h : Registry s) (t : ℕ) (space : Option ℕ) : Registry (switchTo s t space) :=
  h.same ⟨rfl, rfl, fun _ => rfl⟩ (h.pools.same (fun _ => Iff.rfl) rfl rfl)

/-- An object that no entry leads to may go. -/
theorem free (h : Registry s) {a : ℕ} (hhandle : ∀ n, s.uport n ≠ some a)
    (hqueue : ∀ n, s.uport n ≠ none → s.role a ≠ some (.queue n)) (pool : ℕ) :
    Safely AnyFault (fun s' => Registry s' ∧ s'.uport = s.uport ∧ s'.role a = none ∧
      ∀ b, b ≠ a → s'.role b = s.role b) (s.free pool a) := by
  have hcases : Safely AnyFault (fun s' => s'.port = s.port ∧ s'.uport = s.uport ∧
      s'.role a = none ∧ ∀ b, b ≠ a → s'.role b = s.role b) (s.free pool a) := by
    unfold State.free
    split
    · refine ⟨rfl, rfl, ?_, fun b hb => ?_⟩
      · simp only [State.role, Function.update_self, Option.bind_none]
      · simp only [State.role, Function.update_of_ne hb]
    · trivial
  refine ((h.pools.free pool a).and hcases).mono ?_
  rintro s' ⟨hp, hport, huport, hself, hother⟩
  refine ⟨⟨hp, fun n => by rw [hport, huport, h.port], ?_⟩, huport, hself, hother⟩
  intro n b hb
  rw [huport] at hb
  obtain ⟨u, hrole, hnum⟩ := h.valid n b hb
  have hba : b ≠ a := fun heq => hhandle n (heq ▸ hb)
  have hua : u ≠ a := fun heq => hqueue n (by simp [hb]) (heq ▸ hnum)
  exact ⟨u, (hother b hba).trans hrole, (hother u hua).trans hnum⟩

theorem portConnect (h : Registry s) (n : ℤ) (len buf : ℕ) :
    Safely AnyFault (fun r => Registry r.2) (portConnect s n len buf) := by
  simp only [Kernel.portConnect, safely_bind]
  apply reads
  intro ops
  split
  · exact h
  simp only [safely_bind]
  have hhandle : Safely AnyFault (fun r => PoolsOk r.2 ∧ SameRoles s r.2 ∧
      ∀ x, r.1 = .ok x → s.role x.1 = none) (locked s fun s => connectHandle s len buf) := by
    apply locked_rule (P := fun (hd : Except ℤ (ℕ × ℕ)) s' => PoolsOk s' ∧ SameRoles s s' ∧
      ∀ x, hd = .ok x → s.role x.1 = none)
    · exact fun _ s' m hP => ⟨hP.1.setMm m, hP.2.1.setMm m, hP.2.2⟩
    · have hp : PoolsOk (disableInterrupts s) := h.pools.setMm _
      exact (Tally.Holds.connectHandle (T := PoolsOk.tally) (d := 0) hp len buf).and
        (((SameRoles.refl s).setMm _).connectHandle hp len buf)
  refine hhandle.mono ?_
  rintro ⟨hd, s₁⟩ ⟨hp₁, h₁, hnew⟩
  cases hd with
  | error ret => exact h.same h₁ hp₁
  | ok x =>
    have ha := hnew x rfl
    simp only [safely_bind]
    refine ((Tally.Holds.connect (T := PoolsOk.tally) (d := 0) hp₁ n x.1 len buf).and
      (h₁.connect hp₁ n ((h₁.role _).trans ha) len buf)).mono ?_
    rintro ⟨ret, s₂⟩ ⟨hp₂, h₂⟩
    have hp₂ : PoolsOk s₂ := hp₂
    dsimp only at h₂ ⊢
    split
    · simp only [safely_bind, safely_pure]
      refine ((Tally.Holds.freeReq (T := PoolsOk.tally) (d := 0) hp₂ x.1).and
        (h₂.freeReq ((h₂.role _).trans ha))).mono ?_
      rintro s₃ ⟨hp₃, h₃⟩
      exact ((Tally.Holds.clearFd (T := PoolsOk.tally) (d := 0) hp₃ x.2).and (h₃.clearFd x.2)).mono
        fun s₄ h₄ => h.same h₄.2 h₄.1
    · exact h.same h₂ hp₂

/-- A handle of a port goes, and so does its entry. -/
theorem closePort (h : Registry s) {a : ℕ} {r : Request} (hr : s.getReq a = .ok r)
    (htype : r.type = .port) :
    Safely AnyFault (fun s' => Registry s' ∧ (∀ n, s'.role a ≠ some (.queue n)) ∧
      ∀ n, s'.uport n ≠ some a) (uportServerClose s a) := by
  simp only [Kernel.uportServerClose, hr, htype, safely_bind, safely_ok]
  apply reads
  intro tk
  apply reads_eq
  intro u hu
  have hu := Data.ptr_ok hu
  apply reads_eq
  intro up hup
  have hrole : s.role a = some (.handle (.obj u) r.rops) := role_handle.2 ⟨r, hr, htype, hu, rfl⟩
  have hqueue : s.role u = some (.queue up.portNumber) := role_queue.2 ⟨up, hup, rfl⟩
  refine (((SameRoles.refl s).foldlM (f := dropConnect) (fun s m hs => hs.dropConnect m) _).and
    (Tally.Holds.foldlM (T := PoolsOk.tally) (d := 0) h.pools
      (fun s m hs => hs.dropConnect m) _)).mono ?_
  rintro s₁ ⟨h₁, hp₁⟩
  apply reads_eq
  intro n hn
  have hnum := portIndex_ok hn
  have hreg₁ := h.same h₁ hp₁
  -- the entry goes before the `struct uport`
  have hreg₂ : Registry { s₁ with
      port := Function.update s₁.port n none, uport := Function.update s₁.uport n none } := by
    refine ⟨PoolsOk.same hp₁ (fun _ => Iff.rfl) rfl rfl, fun k => ?_, fun k b hb => ?_⟩
    · by_cases hk : k = n
      · subst hk
        simp
      · simp only [Function.update_of_ne hk]
        exact hreg₁.port k
    · by_cases hk : k = n
      · subst hk
        simp at hb
      · simp only [Function.update_of_ne hk] at hb
        exact hreg₁.valid k b hb
  have hcleared : ∀ k b, Function.update s₁.uport n none k = some b → k ≠ n := by
    rintro k b hb rfl
    simp at hb
  have hrole₁ : s₁.role a = some (.handle (.obj u) r.rops) := (h₁.role a).trans hrole
  have hqueue₁ : s₁.role u = some (.queue n) := by rw [h₁.role, hqueue, hnum]
  refine (hreg₂.free (a := u) ?_ ?_ _).mono ?_
  · intro k hk
    obtain ⟨u', hu', -⟩ := hreg₂.valid k u hk
    have hu' : s₁.role u = some (.handle (.obj u') (some .uportServer)) := hu'
    rw [hqueue₁] at hu'
    cases hu'
  · intro k hk hk'
    have hk' : s₁.role u = some (.queue k) := hk'
    obtain ⟨b, hb⟩ := Option.ne_none_iff_exists'.1 hk
    rw [hqueue₁, Option.some.injEq, Role.queue.injEq, Nat.cast_inj] at hk'
    exact hcleared k b hb hk'.symm
  · rintro s₃ ⟨h₃, huport₃, hself₃, hother₃⟩
    have hau : a ≠ u := by
      rintro rfl
      rw [hrole₁] at hqueue₁
      cases hqueue₁
    have hrole₃ : s₃.role a = some (.handle (.obj u) r.rops) := (hother₃ a hau).trans hrole₁
    refine ⟨h₃, fun k hk => ?_, fun k hk => ?_⟩
    · rw [hrole₃] at hk
      cases hk
    · obtain ⟨u', hu', hqueue'⟩ := h₃.valid k a hk
      rw [hrole₃, Option.some.injEq, Role.handle.injEq, Data.obj.injEq] at hu'
      rw [← hu'.1, hself₃] at hqueue'
      cases hqueue'

theorem close (h : Registry s) (fd : ℤ) : Safely AnyFault (fun r => Registry r.2) (close s fd) := by
  simp only [Kernel.close, safely_bind]
  apply reads
  intro tk
  apply reads
  intro f
  cases f with
  | none => exact h
  | some a =>
    simp only [safely_bind, safely_pure]
    refine ((Tally.Holds.clearFd (T := PoolsOk.tally) (d := 0) h.pools _).and
      ((SameRoles.refl s).clearFd _)).mono ?_
    rintro s₁ ⟨hp₁, hsame₁⟩
    have h₁ := h.same hsame₁ hp₁
    apply reads_eq
    intro r hr
    apply reads_eq
    intro ops hops
    have hops := ropsOf_ok hops
    have hfree : ∀ s₂, Registry s₂ → (∀ n, s₂.uport n ≠ some a) →
      (∀ n, s₂.role a ≠ some (.queue n)) →
        Safely AnyFault Registry (freeReq s₂ a) := by
      intro s₂ h₂ hhandle hqueue
      simp only [freeReq, safely_bind]
      apply reads
      intro tk
      exact (h₂.free hhandle (fun n _ => hqueue n) _).mono fun _ hs => hs.1
    by_cases hport : ops = .uportServer ∧ r.type = .port
    · obtain ⟨rfl, htype⟩ := hport
      refine (h₁.closePort hr htype).mono ?_
      rintro s₂ ⟨h₂, hqueue, hhandle⟩
      exact hfree s₂ h₂ hhandle hqueue
    · refine ((Tally.Holds.ropsDrop (T := PoolsOk.tally) (d := 0) hp₁ ops a).and
        ((SameRoles.refl s₁).ropsDrop hr fun hs ht => hport ⟨hs, ht⟩)).mono ?_
      rintro s₂ ⟨hp₂, hsame₂⟩
      refine hfree s₂ (h₁.same hsame₂ hp₂) ?_ ?_
      · -- the handle of an entry has other operations
        intro n hn
        rw [hsame₂.uport] at hn
        obtain ⟨u, hrole, -⟩ := h₁.valid n a hn
        obtain ⟨r', hr', htype, -, hrops⟩ := role_handle.1 hrole
        rw [hr, Except.ok.injEq] at hr'
        subst hr'
        rw [hops, Option.some.injEq] at hrops
        exact hport ⟨hrops, htype⟩
      · intro n hn
        rw [hsame₂.role] at hn
        obtain ⟨up, hup, -⟩ := role_queue.1 hn
        obtain ⟨p, hobj⟩ := getReq_ok hr
        obtain ⟨p', hobj'⟩ := getUport_ok hup
        rw [hobj] at hobj'
        cases hobj'

/-- The part of `open_port` that has a number: the new handle `a`, with its `struct uport`. -/
theorem register (h : Registry s) {i a u p q : ℕ} {n : ℤ} {r : Request} (hn : n = (i : ℤ))
    (hfree : s.port i = none) (ha : s.role a = none) (hu : s.role u = none)
    (hr : r.type = .port ∧ r.data = .obj u ∧ r.rops = some .uportServer) (hp : PoolsOk s')
    (hport : s'.port = Function.update s.port i (some .uport))
    (huport : s'.uport = Function.update s.uport i (some a))
    (hobja : s'.objs a = some ⟨p, .request r⟩) (hobju : s'.objs u = some ⟨q, .uport ⟨[], n⟩⟩)
    (hother : ∀ b, b ≠ a → b ≠ u → s'.role b = s.role b) : Registry s' := by
  refine ⟨hp, fun k => ?_, fun k b hb => ?_⟩
  · rw [hport, huport]
    by_cases hk : k = i
    · subst hk
      simp
    · simp only [Function.update_of_ne hk]
      exact h.port k
  · rw [huport] at hb
    by_cases hk : k = i
    · subst hk
      rw [Function.update_self, Option.some.injEq] at hb
      subst hb
      refine ⟨u, ?_, ?_⟩
      · rw [State.role, hobja]
        simp [Body.role, hr]
      · rw [State.role, hobju, ← hn]
        rfl
    · rw [Function.update_of_ne hk] at hb
      obtain ⟨u', hrole, hqueue⟩ := h.valid k b hb
      -- the new objects were not in use
      have hne : ∀ c d x, s.role c = some x → s.role d = none → c ≠ d := by
        rintro c d x hc hd rfl
        rw [hc] at hd
        cases hd
      refine ⟨u', ?_, ?_⟩
      · rw [hother b (hne _ _ _ hrole ha) (hne _ _ _ hrole hu), hrole]
      · rw [hother u' (hne _ _ _ hqueue ha) (hne _ _ _ hqueue hu), hqueue]

theorem wakeWaiters (h : Registry s) (i : ℕ) (l : List ℕ) :
    Safely AnyFault Registry (l.foldlM (wakeWaiter i) s) := by
  refine safely_foldlM (fun _ => Registry) h fun t _ s hs => ?_
  obtain ⟨s₁, hs₁⟩ : ∃ s₁, s₁ = { s with
      portWaitList := Function.update s.portWaitList i ((s.portWaitList i).erase t) } := ⟨_, rfl⟩
  have hp : PoolsOk s₁ := hs₁ ▸ hs.pools.same (fun _ => Iff.rfl) rfl rfl
  have hsame : SameRoles s s₁ := by
    rw [hs₁]
    exact (SameRoles.refl s).same rfl rfl rfl
  rw [wakeWaiter, ← hs₁]
  refine ((Tally.Holds.wakeUp (T := PoolsOk.tally) (d := 0) hp t).and (hsame.wakeUp t)).mono ?_
  exact fun s' hs' => hs.same hs'.2 hs'.1

theorem openPort (h : Registry s) (n : ℤ)
    (hnum : s.port n.toNat = none → ∀ tk, s.task s.current = some tk → none ∈ tk.fds) :
    Safely AnyFault (fun r => Registry r.2 ∧ (r.1 < 0 → r.2.port = s.port ∧ r.2.uport = s.uport ∧
      r.2.portWaitList = s.portWaitList)) (openPort s n) := by
  apply locked_rule (P := fun (ret : ℤ) s' => Registry s' ∧ (ret < 0 → s'.port = s.port ∧
    s'.uport = s.uport ∧ s'.portWaitList = s.portWaitList))
  · rintro ret s' m ⟨hreg, hsame⟩
    exact ⟨hreg.same ((SameRoles.refl s').setMm m) (hreg.pools.setMm m), hsame⟩
  obtain ⟨s₁, hs₁⟩ : ∃ s₁, s₁ = disableInterrupts s := ⟨_, rfl⟩
  have h₁ : Registry s₁ := hs₁ ▸ h.same ((SameRoles.refl s).setMm _) (h.pools.setMm _)
  have hsame₁ : s₁.port = s.port ∧ s₁.uport = s.uport ∧ s₁.portWaitList = s.portWaitList ∧
      s₁.task = s.task ∧ s₁.current = s.current := by
    rw [hs₁]
    exact ⟨rfl, rfl, rfl, rfl, rfl⟩
  obtain ⟨hport₁, huport₁, hwait₁, htask₁, hcur₁⟩ := hsame₁
  rw [← hs₁]
  simp only [registerPort, safely_bind]
  apply reads_eq
  intro i hi
  have hn := portIndex_ok hi
  split
  · rw [safely_pure, if_pos (show (-EBUSY : ℤ) < 0 by decide)]
    exact ⟨h₁, fun _ => ⟨hport₁, huport₁, hwait₁⟩⟩
  rename_i hfree
  rw [not_not] at hfree
  rw [safely_pure, if_neg (lt_irrefl (0 : ℤ))]
  simp only [hi, safely_bind, safely_ok]
  apply reads_eq
  intro tk htk
  have htk : s.task s.current = some tk := by
    have := getTask_ok htk
    rwa [htask₁, hcur₁] at this
  have hslot := hnum (by rw [hn, Int.toNat_natCast, ← hport₁]; exact hfree) tk htk
  obtain ⟨s₂, hs₂⟩ : ∃ s₂ : State,
      s₂ = { s₁ with port := Function.update s₁.port i (some .uport) } := ⟨_, rfl⟩
  have hp₂ : PoolsOk s₂ := hs₂ ▸ h₁.pools.same (fun _ => Iff.rfl) rfl rfl
  have hobjs₂ : s₂.objs = s₁.objs := by rw [hs₂]
  rw [← hs₂]
  refine ((alloc_objs hp₂ tk.filePool).and ((SameRoles.refl s₂).alloc hp₂ tk.filePool)).mono ?_
  rintro ⟨a, s₃⟩ ⟨⟨hnewa, hp₃, -, -, hobjs₃⟩, h₃, -, -⟩
  dsimp only at hp₃ hobjs₃ h₃ ⊢
  split
  · rename_i hfull
    exact absurd hslot (fdtableInsert_eq_none.1 hfull)
  rename_i fd fds hins
  obtain ⟨s₄, hs₄⟩ : ∃ s₄, s₄ = s₃.setFds fds := ⟨_, rfl⟩
  have h₄ : SameRoles s₂ s₄ := hs₄ ▸ h₃.setFds fds
  have hp₄ : PoolsOk s₄ := hs₄ ▸ Tally.Holds.setFds (T := PoolsOk.tally) (d := 0) hp₃ fds
  have hobjs₄ : s₄.objs = s₃.objs := by
    rw [hs₄]
    exact (setFds_rest s₃ fds).2.2
  rw [← hs₄]
  simp only [safely_bind]
  refine ((alloc_objs hp₄ tk.filePool).and (h₄.alloc hp₄ tk.filePool)).mono ?_
  rintro ⟨u, s₅⟩ ⟨⟨hnewu, hp₅, -, -, hobjs₅⟩, h₅, -, -⟩
  dsimp only at hnewu hp₅ hobjs₅ h₅ ⊢
  have hau : a ≠ u := by
    rintro rfl
    rw [hobjs₄, hobjs₃, Function.update_self] at hnewu
    cases hnewu
  have hnewu : s₂.objs u = none := by
    rwa [hobjs₄, hobjs₃, Function.update_of_ne hau.symm] at hnewu
  have hobja : s₅.objs a = some ⟨tk.filePool, .blank⟩ := by
    rw [hobjs₅, Function.update_of_ne hau, hobjs₄, hobjs₃, Function.update_self]
  have hobju : s₅.objs u = some ⟨tk.filePool, .blank⟩ := by rw [hobjs₅, Function.update_self]
  rw [safely_ok]
  have hport₅ : s₅.port = Function.update s₁.port i (some .uport) := by rw [h₅.port, hs₂]
  refine Safely.mono (Q := fun x => Registry x.2) ?_ ?_
  · have hp₆ := fun r => Tally.Holds.setReq (T := PoolsOk.tally) (d := 0) hp₅ a r
    let r : Request :=
      { owner := s₅.current, rops := some .uportServer, data := .obj u, type := .port,
        state := .server, waitedRw := s₅.junk a, nextReq := none }
    rw [if_pos]
    · refine h₁.register hn hfree (a := a) (u := u) (p := tk.filePool) (q := tk.filePool) (r := r)
        ?_ ?_ ⟨rfl, rfl, rfl⟩ ?_ hport₅ ?_ ?_ ?_ ?_
      · rw [State.role, ← hobjs₂, hnewa]
        rfl
      · rw [State.role, ← hobjs₂, hnewu]
        rfl
      · exact (PoolsOk.setBody (hp₆ _) u _).same (fun _ => Iff.rfl) rfl rfl
      · change Function.update s₅.uport i (some a) = _
        rw [h₅.uport, hs₂]
      · change ((s₅.setReq a _).setBody u _).objs a = _
        rw [State.setBody_of_ne _ hau, State.setReq, State.setBody_self, hobja]
        rfl
      · change ((s₅.setReq a _).setBody u _).objs u = _
        rw [State.setBody_self, State.setReq, State.setBody_of_ne _ hau.symm, hobju]
        rfl
      · intro b hba hbu
        change (((s₅.setReq a _).setBody u _).objs b).bind _ = _
        rw [State.setBody_of_ne _ hbu, State.setReq, State.setBody_of_ne _ hba]
        change s₅.role b = _
        rw [h₅.role, State.role, hobjs₂, State.role]
    · change s₅.port i ≠ none
      rw [hport₅, Function.update_self]
      simp
  · rintro ⟨ret, s₇⟩ h₇
    refine (h₇.wakeWaiters i _).mono fun s₈ h₈ => ⟨h₈, fun hneg => ?_⟩
    exact absurd (Int.natCast_nonneg fd) (not_le.2 hneg)

/-- Every call of a task that finds a number for what it opens. -/
theorem turn (h : Registry s) {x : Turn} (hok : HasNumber s x) :
    Safely AnyFault Registry (turn s x) := by
  have h₁ := h.switchTo x.task x.space
  simp only [Kernel.turn, safely_bind, safely_pure]
  cases hcall : x.call with
  | openPort n =>
    exact (h₁.openPort n fun hfree tk htk => hok n tk hcall hfree htk).mono fun _ hs => hs.1
  | close fd => exact h₁.close fd
  | portConnect n len buf => exact h₁.portConnect n len buf

end Registry

/-- **The tables of ports agree** in every run in which a task that opens a free port has a
number for the handle, and a call of `open_port` that fails leaves them as they are. -/
theorem portsMatch_of_numbers {s₀ : State} (hpools : PoolsOk s₀) (hclear : Unregistered s₀)
    (l : List Turn) (hok : Along HasNumber turn s₀ l) :
    Safely AnyFault (fun s => PortsMatch s ∧ ∀ x, HasNumber s x → FailsClean s x)
      (l.foldlM turn s₀) := by
  have hrun : Safely AnyFault Registry (l.foldlM turn s₀) :=
    safely_along (I := Registry) (.of_unregistered hpools hclear) (fun _ _ h hx => h.turn hx) hok
  refine hrun.mono fun s h => ⟨h.portsMatch, fun x hx n ret s' hcall hret hneg => ?_⟩
  have hopen := (h.switchTo x.task x.space).openPort n fun hfree tk htk => hx n tk hcall hfree htk
  exact (hopen.of_ok hret).2 hneg

theorem unregistered_boot (mm : Mm.State) (as : ℕ) (junk inport : ℕ → ℕ) (tarfs : ℕ × ℕ) :
    Unregistered (boot mm as junk inport tarfs) := by
  intro n
  have hport : (boot mm as junk inport tarfs).port = bootPorts := rfl
  have huport : (boot mm as junk inport tarfs).uport = fun _ => none := rfl
  rw [hport, huport]
  refine ⟨?_, rfl⟩
  unfold bootPorts
  split <;> simp

/-- The init task opens a port, connects to it and closes it. -/
def openAndClose : List Turn :=
  [⟨1, none, .openPort 20⟩, ⟨1, none, .portConnect 20 0 0⟩, ⟨1, none, .close 0⟩]

theorem portsMatch_of_numbers_closed : ∃ s, openAndClose.foldlM turn (bootWith []) = .ok s ∧
    PortsMatch s ∧ ∀ x, HasNumber s x → FailsClean s x := by
  have hrun :
      (openAndClose.foldlM turn (bootWith [])).toOption.bind (fun _ => some ()) = some () := by
    decide +kernel
  have hslot : ((bootWith []).task 1).all (fun tk => decide (none ∈ tk.fds)) := by decide +kernel
  obtain ⟨s, hs, -⟩ := exists_of_bind hrun
  have hok : Along HasNumber turn (bootWith []) openAndClose := by
    refine ⟨?_, fun s₁ _ => ⟨?_, fun s₂ _ => ⟨?_, fun s₃ _ => trivial⟩⟩⟩
    · intro n tk _ _ htk
      have htk : (bootWith []).task 1 = some tk := htk
      rw [htk] at hslot
      simpa using hslot
    · intro n tk hcall
      cases hcall
    · intro n tk hcall
      cases hcall
  have hall : ∀ free l, Along HasNumber turn (bootWith free) l →
      ∀ s, l.foldlM turn (bootWith free) = .ok s →
        PortsMatch s ∧ ∀ x, HasNumber s x → FailsClean s x := fun _ l hok _ hs =>
    (portsMatch_of_numbers (poolsOk_boot _ _ _ _ _) (unregistered_boot _ _ _ _ _) l hok).of_ok hs
  exact ⟨s, hs, hall [] openAndClose hok s hs⟩

/-! ## A table of handles that is full -/

/-- A task that has `left` numbers for handles left. -/
structure Connectable (s : State) (left : ℕ) : Prop where
  task : ∃ tk, ∃ used : List ℕ, s.task 1 = some tk ∧ tk.fds =
    used.map some ++ List.replicate left none ∧
    s.pools tk.filePool ≠ none
  tarfs : s.port 2 = some .tarfs
  free : s.port 20 = none ∧ s.uport 20 = none

theorem fdtableInsert_first (d left : ℕ) (used : List ℕ) :
    fdtableInsert d (used.map some ++ List.replicate (left + 1) none) =
      some (used.length, (used ++ [d]).map some ++ List.replicate left none) := by
  induction used with
  | nil => rfl
  | cons f used ih =>
    rw [List.map_cons, List.cons_append, fdtableInsert, ih]
    rfl

/-- A pool that there is has an object. -/
theorem alloc_ok {s : State} {pool : ℕ} (h : s.pools pool ≠ none) :
    ∃ a s', s.alloc pool = .ok (a, s') ∧ s'.objs a = some ⟨pool, .blank⟩ ∧
      s'.task = s.task ∧ s'.current = s.current ∧ s'.mm = s.mm ∧ s'.port = s.port ∧
        s'.uport = s.uport ∧ s'.pools pool ≠ none := by
  unfold State.alloc
  split
  · rename_i hnone
    exact absurd hnone h
  · refine ⟨_, _, rfl, Function.update_self .., rfl, rfl, rfl, rfl, rfl, ?_⟩
    simp
  · exact ⟨_, _, rfl, Function.update_self .., rfl, rfl, rfl, rfl, rfl, h⟩

theorem newReq_ok {s : State} {tk : Task} (type : ReqType) (h : s.pools tk.filePool ≠ none) :
    ∃ a r s', newReq s tk type = .ok (a, s') ∧ s'.getReq a = .ok r ∧ s'.task = s.task ∧
      s'.current = s.current ∧ s'.mm = s.mm ∧ s'.port = s.port ∧ s'.uport = s.uport ∧
        s'.pools tk.filePool ≠ none := by
  obtain ⟨a, s', halloc, hobj, htask, hcur, hmm, hport, huport, hpool⟩ := alloc_ok h
  let r : Request :=
    { owner := s'.current, rops := none, data := .junk, type, state := .server, waitedRw := 0,
      nextReq := none }
  refine ⟨a, r, s'.setReq a r, ?_, getReq_eq (p := tk.filePool) ?_, htask, hcur, hmm, hport,
    huport, hpool⟩
  · simp only [newReq, halloc, ok_bind, pure_eq_ok]
    rfl
  · rw [State.setReq, State.setBody_self, hobj]
    rfl

/-- `port_connect` to the archive takes a number. -/
theorem Connectable.connect {s : State} {left : ℕ} (h : Connectable s (left + 1)) :
    ∃ s', turn s ⟨1, none, .portConnect 2 0 0⟩ = .ok s' ∧ Connectable s' left := by
  obtain ⟨tk, used, htk, hfds, hpool⟩ := h.task
  obtain ⟨s₁, hs₁⟩ : ∃ s₁, s₁ = switchTo s 1 none := ⟨_, rfl⟩
  have hcur₁ : s₁.current = 1 := by rw [hs₁]; rfl
  have htk₁ : s₁.task 1 = some tk := by rw [hs₁]; exact htk
  have hpool₁ : (disableInterrupts s₁).pools tk.filePool ≠ none := by rw [hs₁]; exact hpool
  obtain ⟨a, r, s₂, hnew, hr₂, htask₂, hcur₂, hmm₂, hport₂, huport₂, hpool₂⟩ :=
    newReq_ok .request hpool₁
  obtain ⟨fds, hfds'⟩ : ∃ fds, fds = (used ++ [a]).map some ++ List.replicate left none := ⟨_, rfl⟩
  have hins := fdtableInsert_first a left used
  rw [← hfds, ← hfds'] at hins
  have hcur : (disableInterrupts s₁).cur = .ok tk :=
    getTask_eq (by rw [← hcur₁] at htk₁; exact htk₁)
  have htk₂ : s₂.task s₂.current = some tk := by
    rw [htask₂, hcur₂]
    exact hcur₁ ▸ htk₁
  have hset : s₂.setFds fds = s₂.setTask s₂.current { tk with fds } := by rw [State.setFds, htk₂]
  have hhandle : connectHandle (disableInterrupts s₁) 0 0 =
      .ok (.ok (a, used.length), s₂.setTask s₂.current { tk with fds }) := by
    rw [← hset]
    simp only [connectHandle, validBuffer, hcur, hnew, ok_bind, pure_eq_ok, hins]
    rfl
  have henable : enableInterrupts (s₂.setTask s₂.current { tk with fds }) =
      .ok ((s₂.setTask s₂.current { tk with fds }).setMm s₁.mm) := by
    have hmm : Mm.enableInterrupts s₂.mm = .ok s₁.mm := by
      rw [hmm₂]
      exact Mm.enableInterrupts_eq (s := s₁.mm) rfl
    rw [enableInterrupts]
    change State.execMm _ (Mm.enableInterrupts s₂.mm) = _
    rw [hmm]
    rfl
  have hopen : portAt s₁ 2 = .ok (some .tarfs) := by
    rw [hs₁]
    exact congrArg _ h.tarfs
  -- the archive answers to every connection
  obtain ⟨s₃, hs₃⟩ : ∃ s₃, s₃ = (s₂.setTask s₂.current { tk with fds }).setMm s₁.mm := ⟨_, rfl⟩
  have hport₃ : s₃.port = s.port ∧ s₃.uport = s.uport := by
    rw [hs₃]
    exact ⟨hport₂.trans (by rw [hs₁]; rfl), huport₂.trans (by rw [hs₁]; rfl)⟩
  have hr₃ : s₃.getReq a = .ok r := by rw [hs₃]; exact hr₂
  have hconnect : Kernel.connect s₃ 2 a 0 0 =
      .ok (0, s₃.setReq a { r with data := .null, rops := some .tarfs }) := by
    have hidx : portIndex 2 = .ok 2 := rfl
    have htarfs : s₃.port 2 = some .tarfs := by rw [hport₃.1]; exact h.tarfs
    simp only [Kernel.connect, hidx, htarfs, hr₃, ok_bind, pure_eq_ok]
  refine ⟨s₃.setReq a { r with data := .null, rops := some .tarfs }, ?_, ?_⟩
  · rw [turn, PortCall.run, ← hs₁, Kernel.portConnect, hopen, ok_bind, if_neg (by simp)]
    simp only [locked, hhandle, henable, ok_bind, pure_eq_ok, ← hs₃, hconnect]
    rfl
  · refine ⟨⟨{ tk with fds }, used ++ [a], ?_, hfds', ?_⟩, ?_, ?_⟩
    · have hcur₂ : s₂.current = 1 := by rw [hcur₂]; exact hcur₁
      rw [hs₃, hcur₂]
      exact State.setTask_self s₂ 1 _
    · change s₃.pools tk.filePool ≠ none
      rw [hs₃]
      exact hpool₂
    · change s₃.port 2 = _
      rw [hport₃.1]
      exact h.tarfs
    · change s₃.port 20 = none ∧ s₃.uport 20 = none
      rw [hport₃.1, hport₃.2]
      exact h.free

/-- The table can be filled. -/
theorem Connectable.fill {s : State} {left : ℕ} (h : Connectable s left) :
    ∃ s', (List.replicate left (⟨1, none, .portConnect 2 0 0⟩ : Turn)).foldlM turn s = .ok s' ∧
      Connectable s' 0 := by
  induction left generalizing s with
  | zero => exact ⟨s, rfl, h⟩
  | succ left ih =>
    obtain ⟨s₁, hs₁, h₁⟩ := h.connect
    obtain ⟨s₂, hs₂, h₂⟩ := ih h₁
    refine ⟨s₂, ?_, h₂⟩
    rw [List.replicate_succ, List.foldlM_cons, hs₁]
    exact hs₂

/-- `open_port` with a table that is full: the port is taken, and nothing answers there. -/
theorem Connectable.openPort {s : State} (h : Connectable s 0) :
    ∃ s', turn s ⟨1, none, .openPort 20⟩ = .ok s' ∧ s'.port 20 = some .uport ∧
    s'.uport 20 = none := by
  obtain ⟨tk, used, htk, hfds, hpool⟩ := h.task
  obtain ⟨s₁, hs₁⟩ : ∃ s₁, s₁ = switchTo s 1 none := ⟨_, rfl⟩
  have hcur₁ : s₁.current = 1 := by rw [hs₁]; rfl
  have htk₁ : s₁.task 1 = some tk := by rw [hs₁]; exact htk
  obtain ⟨s₂, hs₂⟩ : ∃ s₂ : State, s₂ = { disableInterrupts s₁ with
      port := Function.update s₁.port 20 (some .uport) } := ⟨_, rfl⟩
  have hregister : registerPort (disableInterrupts s₁) 20 = .ok (0, s₂) := by
    have hidx : portIndex 20 = .ok 20 := rfl
    have hfree : (disableInterrupts s₁).port 20 = none := by rw [hs₁]; exact h.free.1
    simp only [registerPort, hidx, hfree, ok_bind, pure_eq_ok, ne_eq, not_true, if_false, hs₂]
    rfl
  have hcur₂ : s₂.cur = .ok tk := by
    rw [hs₂]
    exact getTask_eq (by rw [← hcur₁] at htk₁; exact htk₁)
  have hpool₂ : s₂.pools tk.filePool ≠ none := by rw [hs₂, hs₁]; exact hpool
  obtain ⟨a, s₃, halloc, hobj₃, htask₃, hcur₃, hmm₃, hport₃, huport₃, hpool₃⟩ := alloc_ok hpool₂
  have hfull : fdtableInsert a tk.fds = none := by
    rw [fdtableInsert_eq_none, hfds]
    simp
  have hcur₃ : s₃.cur = .ok tk := by
    rw [State.cur, State.getTask, htask₃, hcur₃]
    exact hcur₂
  obtain ⟨s₄, hfree₄, hmm₄, hport₄, huport₄⟩ : ∃ s₄, freeReq s₃ a = .ok s₄ ∧ s₄.mm = s₃.mm ∧
      s₄.port = s₃.port ∧ s₄.uport = s₃.uport := by
    obtain ⟨l, hl⟩ := Option.ne_none_iff_exists'.1 hpool₃
    simp only [freeReq, hcur₃, ok_bind, State.free, hl, hobj₃]
    exact ⟨_, rfl, rfl, rfl, rfl⟩
  have henable : enableInterrupts s₄ = .ok (s₄.setMm s₁.mm) := by
    have hmm : Mm.enableInterrupts s₄.mm = .ok s₁.mm := by
      rw [hmm₄, hmm₃, hs₂]
      exact Mm.enableInterrupts_eq (s := s₁.mm) rfl
    rw [enableInterrupts, hmm]
    rfl
  refine ⟨s₄.setMm s₁.mm, ?_, ?_, ?_⟩
  · have hidx : portIndex 20 = .ok 20 := rfl
    rw [turn, PortCall.run, ← hs₁]
    simp only [Kernel.openPort, locked, hregister, lt_self_iff_false, if_false, hidx, hcur₂,
      halloc, hfull,
      hfree₄, henable, ok_bind, pure_eq_ok]
  · change s₄.port 20 = _
    rw [hport₄, hport₃, hs₂]
    exact Function.update_self 20 _ s₁.port
  · change s₄.uport 20 = _
    rw [huport₄, huport₃, hs₂, hs₁]
    exact h.free.2

/-- The tables disagree after `open_port` has found no number for the handle. -/
theorem portsMatch_fails : ¬∀ s₀, PoolsOk s₀ → Unregistered s₀ → ∀ (l : List Turn) (s : State),
    l.foldlM turn s₀ = .ok s → PortsMatch s := by
  intro hall
  have hinit : ((bootWith []).task 1).bind (fun tk =>
      if tk.fds = List.replicate 510 none then (bootWith []).pools tk.filePool else none)
        = some [] := by
    decide +kernel
  have hboot : Connectable (bootWith []) 510 := by
    obtain ⟨tk, htk, hinit⟩ := Option.bind_eq_some_iff.1 hinit
    split at hinit
    · rename_i hfds
      exact ⟨⟨tk, [], htk, hfds, by simp [hinit]⟩, rfl, rfl, rfl⟩
    · cases hinit
  obtain ⟨s₁, hs₁, h₁⟩ := hboot.fill
  obtain ⟨s₂, hs₂, hport, huport⟩ := h₁.openPort
  have hrun : (List.replicate 510 (⟨1, none, .portConnect 2 0 0⟩ : Turn) ++
      [(⟨1, none, .openPort 20⟩ : Turn)]).foldlM turn (bootWith []) = .ok s₂ := by
    rw [List.foldlM_append, hs₁, ok_bind, List.foldlM_cons, hs₂]
    rfl
  have hmatch := hall _ (poolsOk_boot _ _ _ _ _) (unregistered_boot _ _ _ _ _) _ s₂ hrun 20
  obtain ⟨a, -, -, -, ha, -⟩ := hmatch.1 hport
  rw [huport] at ha
  cases ha

end SadOS.Kernel
