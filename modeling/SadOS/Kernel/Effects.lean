import SadOS.Kernel.Calls

/-!
# The calls that do not block

Each of the functions behind the system calls of handles keeps the tasks as they are,
but for tables and wake-ups (`Ipc`), and accesses no table outside its bounds, provided
that the number it is given is not the first one past the table.

## Main results

* `Ipc.portConnect`, `Ipc.request`, `Ipc.getResponse`, `Ipc.popRequest`, `Ipc.respond`,
  `Ipc.close`, `Ipc.dup0` — the system calls.
-/

namespace SadOS.Kernel

open Mm (fdtableInsert)

/-- `fdtable_insert` does not change the size of a table. -/
theorem fdtableInsert_length {d fd : ℕ} {tab tab' : FdTable}
    (h : fdtableInsert d tab = some (fd, tab')) : fd < tab.length ∧ tab'.length = tab.length := by
  induction tab generalizing fd tab' with
  | nil => cases h
  | cons f rest ih =>
    cases f with
    | none =>
      simp only [Mm.fdtableInsert, Option.some.injEq, Prod.mk.injEq] at h
      obtain ⟨rfl, rfl⟩ := h
      simp
    | some f =>
      simp only [Mm.fdtableInsert, Option.map_eq_some_iff, Prod.mk.injEq] at h
      obtain ⟨⟨fd', tab''⟩, h', rfl, rfl⟩ := h
      have := ih h'
      simp only [List.length_cons]
      omega

theorem reads_handleAt {tk : Task} {fd : ℤ} (h : fd ≠ tk.fds.length) :
    Safely InTables (fun f => f ≠ none → fd.toNat < tk.fds.length ∧ tk.fds[fd.toNat]? = some f)
      (handleAt tk fd) := by
  unfold handleAt
  split
  · simp
  · rename_i hin
    have hlt : fd.toNat < tk.fds.length := by omega
    exact (reads_fileAt hlt).mono fun f hf _ => ⟨hlt, hf⟩

theorem reads_handleBelow (tk : Task) (fd : ℤ) :
    Safely InTables (fun f => f ≠ none → fd.toNat < tk.fds.length ∧ tk.fds[fd.toNat]? = some f)
      (handleBelow tk fd) := by
  unfold handleBelow
  split
  · simp
  · rename_i hin
    have hlt : fd.toNat < tk.fds.length := by omega
    exact (reads_fileAt hlt).mono fun f hf _ => ⟨hlt, hf⟩

namespace Ipc

variable {s₀ s : State}

/-! ## The services of the kernel -/

theorem memPortRequest (h : Ipc s₀ s) (a len buf : ℕ) :
    Safely InTables (fun r => Ipc s₀ r.2) (memPortRequest s a len buf) := by
  simp only [Kernel.memPortRequest, safely_bind]
  refine (h.runMm _).mono ?_
  rintro ⟨⟨ret, md⟩, s₁⟩ h₁
  cases md with
  | none => exact h₁
  | some md =>
    simp only [safely_bind, safely_pure]
    refine (reads_getReq s₁ a).mono ?_
    rintro r ⟨p, hr⟩
    exact h₁.setReq_of_get hr rfl rfl

theorem memPortGetResponse (h : Ipc s₀ s) (a : ℕ) :
    Safely InTables (fun r => Ipc s₀ r.2) (memPortGetResponse s a) := by
  simp only [Kernel.memPortGetResponse, safely_bind]
  refine (reads_getReq s a).mono ?_
  rintro r ⟨p, hr⟩
  have h₁ := h.setReq_of_get (b := { r with data := .null }) hr rfl rfl
  split
  · exact h₁
  · exact h₁
  · simp [InTables]

theorem portioRequest (h : Ipc s₀ s) (a len buf : ℕ) :
    Safely InTables (fun r => Ipc s₀ r.2) (portioRequest s a len buf) := by
  unfold Kernel.portioRequest
  split
  · exact h
  · simp only [safely_bind]
    refine (h.runMm _).mono ?_
    rintro ⟨⟨ret, bytes⟩, s₁⟩ h₁
    dsimp only
    split
    · exact h₁
    · simp only [safely_bind]
      refine (reads_getReq s₁ a).mono ?_
      rintro r ⟨p, hr⟩
      split
      · exact h₁.setReq_of_get hr rfl rfl
      · split
        · exact h₁.setReq_of_get hr rfl rfl
        · exact h₁.setReq_of_get hr rfl rfl

theorem portioGetResponse (h : Ipc s₀ s) (r : Request) :
    Safely InTables (fun r => Ipc s₀ r.2) (portioGetResponse s r) := by
  unfold Kernel.portioGetResponse
  split
  · exact h
  · split
    · split
      · exact h
      · exact h
    · simp [InTables]

theorem intPortConnect (h : Ipc s₀ s) (a len buf : ℕ) :
    Safely InTables (fun r => Ipc s₀ r.2) (intPortConnect s a len buf) := by
  unfold Kernel.intPortConnect
  split
  · exact h
  · simp only [safely_bind]
    refine (h.runMm _).mono ?_
    rintro ⟨⟨ret, bytes⟩, s₁⟩ h₁
    dsimp only
    split
    · exact h₁
    · split
      · exact h₁
      · simp only [safely_bind, safely_pure]
        refine (reads_getReq s₁ a).mono ?_
        rintro r ⟨p, hr⟩
        apply linkReq
        exact h₁.setReq_of_get hr rfl rfl

theorem intPortDup (h : Ipc s₀ s) (old : Request) (new : ℕ) :
    Safely InTables (fun r => Ipc s₀ r.2) (intPortDup s old new) := by
  unfold Kernel.intPortDup
  split
  · simp only [safely_bind, safely_pure]
    refine (reads_getReq s new).mono ?_
    rintro r ⟨p, hr⟩
    apply linkReq
    exact h.setReq_of_get hr rfl rfl
  · simp [InTables]

/-! ## Ports of user programs -/

theorem mapPayload (h : Ipc s₀ s) (len buf : ℕ) :
    Safely InTables (fun r => Ipc s₀ r.2) (mapPayload s len buf) := by
  unfold Kernel.mapPayload
  split
  · simp only [safely_bind]
    refine (h.runMm _).mono ?_
    rintro ⟨plh, s₁⟩ h₁
    cases plh with
    | ok plh => exact h₁
    | error e => exact h₁
  · exact h

theorem freePayload (h : Ipc s₀ s) (plh : Option ℕ) :
    Safely InTables (Ipc s₀) (freePayload s plh) := by
  cases plh with
  | none => exact h
  | some plh => exact h.execMm _

theorem newMessage (h : Ipc s₀ s) (plh : Option ℕ) (a : ℕ) :
    Safely InTables (fun r => Ipc s₀ r.2) (newMessage s plh a) := by
  simp only [Kernel.newMessage, State.cur, safely_bind, safely_pure]
  refine (reads_getTask s _).mono ?_
  intro tk _
  refine (h.alloc _).mono ?_
  rintro ⟨m, s₁⟩ h₁
  exact h₁.setBody m (by simp) (by simp)

theorem uportConnect (h : Ipc s₀ s) (n a len buf : ℕ) :
    Safely InTables (fun r => Ipc s₀ r.2) (uportConnect s n a len buf) := by
  simp only [Kernel.uportConnect, safely_bind]
  refine (h.mapPayload len buf).mono ?_
  rintro ⟨plh, s₁⟩ h₁
  cases plh with
  | none => exact h₁
  | some plh =>
    simp only [safely_bind]
    refine (h₁.newMessage plh a).mono ?_
    rintro ⟨m, s₂⟩ h₂
    dsimp only
    split
    · simp [InTables]
    · simp only [safely_bind, safely_pure]
      refine (reads_getReq s₂ _).mono ?_
      rintro preq ⟨pp, hpreq⟩
      refine (reads_ptr _).mono ?_
      intro up _
      refine (reads_getReq s₂ a).mono ?_
      rintro r ⟨p, hr⟩
      refine Safely.mono (Q := Ipc s₀) ?_ ?_
      · apply enqueue
        exact h₂.setReq_of_get hr rfl rfl
      intro s₃ h₃
      exact h₃.notify h₂ hpreq fun hw hz => by simp [hz] at hw

theorem uportRequest (h : Ipc s₀ s) (a c len buf : ℕ) :
    Safely InTables (fun r => Ipc s₀ r.2) (uportRequest s a c len buf) := by
  simp only [Kernel.uportRequest, safely_bind]
  refine (reads_getReq s a).mono ?_
  intro r _
  split
  · exact h
  split
  · exact h
  split
  · simp [InTables]
  simp only [safely_bind]
  refine (reads_ptr _).mono ?_
  intro sreq _
  refine (h.mapPayload len buf).mono ?_
  rintro ⟨plh, s₁⟩ h₁
  cases plh with
  | none => exact h₁
  | some plh =>
    simp only [safely_bind, safely_pure]
    refine (h₁.newMessage plh c).mono ?_
    rintro ⟨m, s₂⟩ h₂
    refine (reads_getReq s₂ c).mono ?_
    rintro rc ⟨p, hrc⟩
    have h₃ := h₂.setReq_of_get
      (b := { rc with data := .obj m, state := .pending, rops := some .uportClient }) hrc rfl rfl
    refine (reads_getReq _ sreq).mono ?_
    rintro sr ⟨p', hsr⟩
    refine (reads_ptr _).mono ?_
    intro up _
    refine (h₃.enqueue up m).mono ?_
    intro s₄ h₄
    exact h₄.notify h₃ hsr fun hw hz => by simp [hz] at hw

theorem uportGetResponse (h : Ipc s₀ s) (r : Request) :
    Safely InTables (fun r => Ipc s₀ r.2) (uportGetResponse s r) := by
  unfold Kernel.uportGetResponse
  split
  · exact h
  split
  · exact h
  split
  · exact h
  simp only [safely_bind]
  refine (reads_ptr _).mono ?_
  intro a _
  refine (reads_getCookie s a).mono ?_
  intro c _
  split
  · exact h
  · simp only [safely_bind]
    refine (h.runMm _).mono ?_
    rintro ⟨vaddr, s₁⟩ h₁
    dsimp only
    split
    · exact h₁
    · simp only [safely_bind, safely_pure]
      refine (reads_liftMm _).mono ?_
      intro head _
      refine (h₁.execMm _).mono ?_
      intro s₂ h₂
      refine (reads_getTask s₂ _).mono ?_
      intro owner _
      exact h₂.free _ _

theorem uportDup (h : Ipc s₀ s) (old : Request) (new : ℕ) :
    Safely InTables (fun r => Ipc s₀ r.2) (uportDup s old new) := by
  unfold Kernel.uportDup
  split
  · exact h
  split
  · exact h
  simp only [safely_bind, safely_pure]
  refine (reads_getReq s new).mono ?_
  rintro r ⟨p, hr⟩
  refine (reads_ptr _).mono ?_
  intro sreq _
  refine (reads_getReq _ sreq).mono ?_
  intro sr _
  refine (reads_ptr _).mono ?_
  intro up _
  apply linkReq
  exact h.setReq_of_get hr rfl rfl

theorem uportUserClose (h : Ipc s₀ s) (a : ℕ) :
    Safely InTables (Ipc s₀) (uportUserClose s a) := by
  simp only [Kernel.uportUserClose, safely_bind]
  refine (reads_getReq s a).mono ?_
  intro r _
  split
  · simp only [safely_bind]
    refine (reads_ptr _).mono ?_
    intro m _
    refine (reads_getMsg s m).mono ?_
    intro msg _
    refine (h.unqueue m).mono ?_
    intro s₁ h₁
    refine (h₁.freePayload _).mono ?_
    intro s₂ h₂
    refine (reads_getReq s₂ _).mono ?_
    intro client _
    refine (reads_getTask s₂ _).mono ?_
    intro task _
    exact h₂.free _ _
  · split
    · exact h.unlinkReq a
    · simp only [safely_bind]
      refine (reads_ptr _).mono ?_
      intro ca _
      refine (reads_getCookie s ca).mono ?_
      intro c _
      split
      · simp only [safely_bind]
        refine (h.freePayload _).mono ?_
        intro s₁ h₁
        refine (reads_getTask s₁ _).mono ?_
        intro owner _
        exact h₁.free _ _
      · exact h.setBody ca (by simp) (by simp)
    · simp [InTables]

theorem closeClient (h : Ipc s₀ s) (a : ℕ) : Safely InTables (Ipc s₀) (closeClient s a) := by
  simp only [Kernel.closeClient, safely_bind]
  refine (reads_getReq s a).mono ?_
  rintro r ⟨p, hr⟩
  refine notify ?_ h hr ?_
  · exact h.setReq_of_get hr rfl rfl
  · simp

theorem dropConnect (h : Ipc s₀ s) (m : ℕ) : Safely InTables (Ipc s₀) (dropConnect s m) := by
  simp only [Kernel.dropConnect, safely_bind]
  refine (reads_getMsg s m).mono ?_
  intro msg _
  refine (h.freePayload _).mono ?_
  intro s₁ h₁
  refine (reads_getReq s₁ _).mono ?_
  intro client _
  refine (reads_getTask s₁ _).mono ?_
  intro task _
  refine (h₁.closeClient _).mono ?_
  intro s₂ h₂
  exact h₂.free _ _

theorem dropMessage (h : Ipc s₀ s) (m : ℕ) : Safely InTables (Ipc s₀) (dropMessage s m) := by
  simp only [Kernel.dropMessage, safely_bind]
  refine (reads_getMsg s m).mono ?_
  intro msg _
  refine (h.freePayload _).mono ?_
  intro s₁ h₁
  refine (reads_getReq s₁ _).mono ?_
  intro client _
  refine (reads_getTask s₁ _).mono ?_
  intro task _
  exact h₁.free _ _

theorem dropClient (h : Ipc s₀ s) (a : ℕ) : Safely InTables (Ipc s₀) (dropClient s a) := by
  simp only [Kernel.dropClient, safely_bind]
  refine (reads_getReq s a).mono ?_
  rintro r ⟨p, hr⟩
  refine Safely.mono (Q := Ipc s₀) ?_ ?_
  · apply unlinkReq
    exact h.setReq_of_get hr rfl rfl
  intro s₁ h₁
  exact h₁.notify h hr (by simp)

/-- The loop over messages does not change the numbers of ports. -/
theorem uportServerClose (h : Ipc s₀ s) (hp : PortsOk s₀) (a : ℕ) :
    Safely InTables (Ipc s₀) (uportServerClose s a) := by
  simp only [Kernel.uportServerClose, State.cur, safely_bind]
  refine (reads_getReq s a).mono ?_
  intro r _
  refine (reads_getTask s _).mono ?_
  intro tk _
  split
  · simp only [safely_bind]
    refine (reads_ptr _).mono ?_
    intro ua _
    refine (reads_getUport s ua).mono ?_
    rintro up ⟨p, hup⟩
    obtain ⟨h0, hn⟩ := h.ports hp ua p up hup
    refine (h.foldlM (fun s m hs => hs.dropConnect m) _).mono ?_
    intro s₁ h₁
    refine (reads_portIndex h0 hn).mono ?_
    intro n _
    apply free
    exact h₁.trans (of_old rfl rfl rfl rfl rfl rfl rfl rfl fun _ _ h => .inl h)
  · simp only [safely_bind]
    refine (reads_ptr _).mono ?_
    intro ua _
    refine (reads_getUportReq s ua).mono ?_
    intro up _
    refine (h.foldlM (fun s m hs => hs.dropClient m) _).mono ?_
    intro s₁ h₁
    refine (h₁.foldlM (fun s m hs => hs.dropMessage m) _).mono ?_
    intro s₂ h₂
    exact h₂.free _ _
  · simp only [safely_bind]
    refine (reads_ptr _).mono ?_
    intro ca _
    refine (reads_getCookie s ca).mono ?_
    intro c _
    refine Safely.mono (Q := Ipc s₀) ?_ ?_
    · split
      · exact h.closeClient _
      · exact h
    · intro s₁ h₁
      split
      · simp [InTables]
      · exact h₁.free _ _
  · simp [InTables]

theorem uportUserAvailable (r : Request) (rw : ℕ) :
    Safely InTables (fun _ => True) (uportUserAvailable s r rw) := by
  unfold Kernel.uportUserAvailable
  split
  · trivial
  split
  · trivial
  · split
    · trivial
    split
    · trivial
    simp only [safely_bind]
    refine (reads_ptr _).mono ?_
    intro a _
    exact (reads_getCookie s a).mono fun _ _ => trivial
  · simp [InTables]

theorem uportServerAvailable (r : Request) (rw : ℕ) :
    Safely InTables (fun _ => True) (uportServerAvailable s r rw) := by
  unfold Kernel.uportServerAvailable
  split
  · split
    · trivial
    · simp only [safely_bind]
      refine (reads_ptr _).mono ?_
      intro a _
      refine (reads_getCookie s a).mono ?_
      intro c _
      split
      · simp [InTables]
      · trivial
  · split
    · trivial
    · simp only [safely_bind]
      refine (reads_ptr _).mono ?_
      intro a _
      exact (reads_getUport s a).mono fun _ _ => trivial
    · simp only [safely_bind]
      refine (reads_ptr _).mono ?_
      intro a _
      exact (reads_getUportReq s a).mono fun _ _ => trivial
    · simp [InTables]

/-! ## Operations of ports and handles -/

theorem newReq (h : Ipc s₀ s) (tk : Task) (type : ReqType) :
    Safely InTables (fun r => Ipc s₀ r.2) (newReq s tk type) := by
  simp only [Kernel.newReq, safely_bind, safely_pure]
  refine (h.alloc _).mono ?_
  rintro ⟨a, s₁⟩ h₁
  exact h₁.setReq a (by simp)

theorem connect (h : Ipc s₀ s) {n : ℤ} (h0 : 0 ≤ n) (hn : n < MAX_PORT) (a len buf : ℕ) :
    Safely InTables (fun r => Ipc s₀ r.2) (connect s n a len buf) := by
  simp only [Kernel.connect, safely_bind]
  refine (reads_portIndex h0 hn).mono ?_
  intro i _
  have hplain : ∀ ops, Safely InTables (fun r => Ipc s₀ r.2) (do
      let r ← s.getReq a
      return ((0 : ℤ), s.setReq a { r with data := .null, rops := some ops })) := by
    intro ops
    simp only [safely_bind, safely_pure]
    refine (reads_getReq s a).mono ?_
    rintro r ⟨p, hr⟩
    exact h.setReq_of_get hr rfl rfl
  split
  · simp [InTables]
  · exact h.uportConnect _ _ _ _
  · exact h.memPortRequest _ _ _
  · exact hplain _
  · exact hplain _
  · exact hplain _
  · exact h.intPortConnect _ _ _

theorem ropsRequest (h : Ipc s₀ s) (ops : ReqOps) (a c len buf : ℕ) :
    Safely InTables (fun r => Ipc s₀ r.2) (ropsRequest s ops a c len buf) := by
  cases ops with
  | uportClient => exact h.uportRequest _ _ _ _
  | mem => exact h.memPortRequest _ _ _
  | portio => exact h.portioRequest _ _ _
  | uportServer | tarfs | bda | int => simp [Kernel.ropsRequest, InTables]

theorem ropsGetResponse (h : Ipc s₀ s) (ops : ReqOps) (a : ℕ) (r : Request) :
    Safely InTables (fun r => Ipc s₀ r.2) (ropsGetResponse s ops a r) := by
  cases ops with
  | uportClient => exact h.uportGetResponse _
  | mem => exact h.memPortGetResponse _
  | tarfs =>
    simp only [Kernel.ropsGetResponse, safely_bind, safely_pure]
    exact h.runMm _
  | bda =>
    simp only [Kernel.ropsGetResponse, safely_bind, safely_pure]
    exact h.runMm _
  | portio => exact h.portioGetResponse _
  | uportServer | int => simp [Kernel.ropsGetResponse, InTables]

theorem ropsDrop (h : Ipc s₀ s) (hp : PortsOk s₀) (ops : ReqOps) (a : ℕ) :
    Safely InTables (Ipc s₀) (ropsDrop s ops a) := by
  cases ops with
  | uportServer => exact h.uportServerClose hp a
  | uportClient => exact h.uportUserClose a
  | int => exact h.unlinkReq a
  | mem | tarfs | bda | portio => exact h

theorem ropsDup (h : Ipc s₀ s) (ops : ReqOps) (old : Request) (new : ℕ) :
    Safely InTables (fun r => Ipc s₀ r.2) (ropsDup s ops old new) := by
  cases ops with
  | uportClient => exact h.uportDup _ _
  | int => exact h.intPortDup _ _
  | uportServer | mem | tarfs | bda | portio => exact h

/-! ## System calls -/

theorem freeReq (h : Ipc s₀ s) (a : ℕ) : Safely InTables (Ipc s₀) (freeReq s a) := by
  simp only [Kernel.freeReq, State.cur, safely_bind]
  refine (reads_getTask s _).mono ?_
  intro tk _
  exact h.free _ _

theorem clearFd (h : Ipc s₀ s) (fd : ℕ) : Safely InTables (Ipc s₀) (clearFd s fd) := by
  simp only [Kernel.clearFd, State.cur, safely_bind, safely_pure]
  refine (reads_getTask s _).mono ?_
  intro tk htk
  refine h.setFds ?_
  intro tk' htk'
  rw [htk, Option.some.injEq] at htk'
  rw [List.length_set, htk']

/-- The table of the current task, with a handle that was put into it. -/
theorem setFds_insert (h : Ipc s₀ s) {tk : Task} (htk : s₀.task s₀.current = some tk) {fds : FdTable}
    (hf : fds.length = tk.fds.length) : Ipc s₀ (s.setFds fds) := by
  refine h.setFds ?_
  intro tk' htk'
  rw [h.current] at htk'
  rw [hf, (h.sizes htk htk').1]

theorem connectHandle (h : Ipc s₀ s) (len buf : ℕ) :
    Safely InTables (fun r => Ipc s₀ r.2) (connectHandle s len buf) := by
  simp only [Kernel.connectHandle, validBuffer, State.cur, safely_bind]
  refine Safely.mono (Q := fun _ => True) ?_ ?_
  · split
    · exact (reads_liftMm _).mono fun _ _ => trivial
    · trivial
  intro ok _
  split
  · exact h
  simp only [safely_bind]
  refine (reads_getTask s _).mono ?_
  intro tk htk
  refine ((Ipc.refl s).newReq tk _).mono ?_
  rintro ⟨a, s₁⟩ h₁
  dsimp only
  split
  · simp only [safely_bind, safely_pure]
    exact (h.trans h₁).freeReq a
  · rename_i fd fds hins
    exact h.trans (h₁.setFds_insert htk (fdtableInsert_length hins).2)

theorem portConnect (h : Ipc s₀ s) {n : ℤ} (h0 : 0 ≤ n) (hn : n < MAX_PORT) (len buf : ℕ) :
    Safely InTables (fun r => Ipc s₀ r.2) (portConnect s n len buf) := by
  simp only [Kernel.portConnect, portAt, safely_bind, safely_pure]
  refine (reads_portIndex h0 hn).mono ?_
  intro i _
  split
  · exact h
  simp only [safely_bind]
  refine (h.locked fun h => h.connectHandle len buf).mono ?_
  rintro ⟨hd, s₁⟩ h₁
  cases hd with
  | error ret => exact h₁
  | ok x =>
    obtain ⟨a, fd⟩ := x
    simp only [safely_bind]
    refine (h₁.connect h0 hn a len buf).mono ?_
    rintro ⟨ret, s₂⟩ h₂
    dsimp only
    split
    · simp only [safely_bind, safely_pure]
      refine (h₂.freeReq a).mono ?_
      intro s₃ h₃
      exact h₃.clearFd fd
    · exact h₂

theorem requestOn (h : Ipc s₀ s) {tk : Task} (htk : s.task s.current = some tk) (ops : ReqOps)
    (a len buf : ℕ) : Safely InTables (fun r => Ipc s₀ r.2) (requestOn s tk ops a len buf) := by
  simp only [Kernel.requestOn, safely_bind]
  refine ((Ipc.refl s).newReq tk _).mono ?_
  rintro ⟨c, s₁⟩ h₁
  dsimp only
  split
  · simp only [safely_bind, safely_pure]
    exact (h.trans h₁).freeReq c
  · rename_i fd fds hins
    simp only [safely_bind]
    refine ((h.trans (h₁.setFds_insert htk (fdtableInsert_length hins).2)).ropsRequest _ _ _ _
      _).mono ?_
    rintro ⟨ret, s₂⟩ h₂
    dsimp only
    split
    · simp only [safely_bind, safely_pure]
      refine (h₂.freeReq a).mono ?_
      intro s₃ h₃
      exact h₃.clearFd fd
    · exact h₂

/-- A handle that is not the first number past the table. -/
def NotMaxFds (s : State) (fd : ℤ) : Prop :=
  ∀ tk, s.task s.current = some tk → fd ≠ tk.fds.length

theorem request (h : Ipc s₀ s) {rd : ℤ} (hrd : NotMaxFds s rd) (len buf : ℕ) :
    Safely InTables (fun r => Ipc s₀ r.2) (request s rd len buf) := by
  refine h.locked ?_
  intro h
  simp only [State.cur, safely_bind]
  refine (reads_getTask _ _).mono ?_
  intro tk htk
  refine (reads_handleAt (hrd tk htk)).mono ?_
  intro f _
  cases f with
  | none => exact h
  | some a =>
    simp only [safely_bind]
    refine (reads_getReq _ a).mono ?_
    intro r _
    split
    · exact h
    simp only [safely_bind]
    refine (reads_ropsOf r).mono ?_
    intro ops _
    split
    · exact h
    simp only [validBuffer, safely_bind]
    refine Safely.mono (Q := fun _ => True) ?_ ?_
    · split
      · exact (reads_liftMm _).mono fun _ _ => trivial
      · trivial
    intro ok _
    split
    · exact h
    · exact h.requestOn htk ops a len buf

theorem getResponse (h : Ipc s₀ s) {cookie : ℤ} {res : ℕ}
    (hrd : Mm.validateRange s.mm res 16 = .ok true → NotMaxFds s cookie) :
    Safely InTables (fun r => Ipc s₀ r.2) (getResponse s cookie res) := by
  refine h.locked ?_
  intro h
  simp only [State.cur, safely_bind]
  refine (reads_liftMm _).mono ?_
  intro ok hok
  split
  · exact h
  rename_i hvalid
  have hok' : Mm.validateRange s.mm res 16 = .ok true := by
    rw [show ok = true by simpa using hvalid] at hok
    exact hok
  simp only [safely_bind]
  refine (reads_getTask _ _).mono ?_
  intro tk htk
  refine (reads_handleAt (hrd hok' tk htk)).mono ?_
  intro f _
  cases f with
  | none => exact h
  | some a =>
    simp only [safely_bind]
    refine (reads_getReq _ a).mono ?_
    intro r _
    refine (reads_ropsOf r).mono ?_
    intro ops _
    split
    · exact h
    simp only [safely_bind]
    refine (h.ropsGetResponse ops a r).mono ?_
    rintro ⟨⟨ret, xres⟩, s₁⟩ h₁
    dsimp only
    split
    · exact h₁
    simp only [safely_bind]
    refine Safely.mono (Q := Ipc s₀) ?_ ?_
    · split
      · simp only [safely_bind]
        refine (h₁.clearFd _).mono ?_
        intro s₂ h₂
        exact h₂.freeReq a
      · exact h₁
    intro s₂ h₂
    exact h₂.runMm _

theorem acceptMessage (h : Ipc s₀ s) (type : ReqType) (m : ℕ) (msg : Message) (sreq : ℕ) :
    Safely InTables (Ipc s₀) (acceptMessage s type m msg sreq) := by
  simp only [Kernel.acceptMessage, State.cur, safely_bind]
  refine (reads_getReq s _).mono ?_
  intro client _
  refine (reads_getTask s _).mono ?_
  intro clientTask _
  refine (h.unqueue m).mono ?_
  intro s₁ h₁
  refine (h₁.freePayload _).mono ?_
  intro s₂ h₂
  refine (h₂.free _ m).mono ?_
  intro s₃ h₃
  refine (reads_getTask s₃ _).mono ?_
  intro tk _
  refine (h₃.alloc _).mono ?_
  rintro ⟨x, s₄⟩ h₄
  refine Safely.mono (Q := Ipc s₀) ?_ ?_
  · dsimp only
    split
    · simp only [safely_bind, safely_pure]
      refine ((h₄.setBody x (by simp) (by simp)).linkReq _ _).mono ?_
      intro s₅ h₅
      have h₆ := h₅.setReq sreq (b := serverReq s₅ (.obj x) .portReq) (by simp [serverReq])
      refine (reads_getReq _ _).mono ?_
      rintro creq ⟨p, hcreq⟩
      exact h₆.setReq_of_get hcreq rfl rfl
    · simp only [safely_bind, safely_pure]
      have h₅ := h₄.setBody x (b := .cookie ⟨some msg.clientReq, none, s₄.current⟩) (by simp) (by simp)
      have h₆ := h₅.setReq sreq
        (b := serverReq (s₄.setBody x (.cookie ⟨some msg.clientReq, none, s₄.current⟩)) (.obj x)
          .portCookie) (by simp [serverReq])
      refine (reads_getReq _ _).mono ?_
      rintro creq ⟨p, hcreq⟩
      exact h₆.setReq_of_get hcreq rfl rfl
  intro s₇ h₇
  refine (reads_getReq s₇ _).mono ?_
  rintro creq ⟨p, hcreq⟩
  exact h₇.notify h₇ hcreq fun hw hz => by simp [hz] at hw

theorem popMessage (h : Ipc s₀ s) (type : ReqType) (m buf : ℕ) :
    Safely InTables (fun r => Ipc s₀ r.2) (popMessage s type m buf) := by
  simp only [Kernel.popMessage, State.cur, safely_bind]
  refine (reads_getTask s _).mono ?_
  intro tk htk
  refine ((Ipc.refl s).alloc _).mono ?_
  rintro ⟨sreq, s₁⟩ h₁
  dsimp only
  split
  · exact h.trans h₁
  rename_i fd fds hins
  have h₂ := h.trans (h₁.setFds_insert htk (fdtableInsert_length hins).2)
  simp only [safely_bind]
  refine (reads_getMsg _ m).mono ?_
  intro msg _
  refine Safely.mono (Q := fun r => Ipc s₀ r.2) ?_ ?_
  · split
    · simp only [safely_bind, safely_pure]
      refine (h₂.runMm _).mono ?_
      rintro ⟨vaddr, s₃⟩ h₃
      exact (reads_liftMm _).mono fun _ _ => h₃
    · exact h₂
  rintro ⟨⟨vaddr, len⟩, s₃⟩ h₃
  dsimp only
  split
  · exact h₃
  simp only [safely_bind]
  refine (reads_getReq s₃ _).mono ?_
  intro client _
  refine (reads_getTask s₃ _).mono ?_
  intro clientTask _
  refine (h₃.runMm _).mono ?_
  rintro ⟨ret, s₄⟩ h₄
  dsimp only
  split
  · simp only [safely_bind, safely_pure]
    exact h₄.execMm _
  · simp only [safely_bind, safely_pure]
    exact h₄.acceptMessage _ _ _ _

theorem popRequest (h : Ipc s₀ s) {rd : ℤ} (hrd : NotMaxFds s rd) (buf : ℕ) :
    Safely InTables (fun r => Ipc s₀ r.2) (popRequest s rd buf) := by
  refine h.locked ?_
  intro h
  simp only [State.cur, safely_bind]
  refine (reads_getTask _ _).mono ?_
  intro tk htk
  refine (reads_handleAt (hrd tk htk)).mono ?_
  intro f _
  cases f with
  | none => exact h
  | some a =>
    simp only [safely_bind]
    refine (reads_getReq _ a).mono ?_
    intro r _
    split
    · exact h
    simp only [safely_bind]
    refine (reads_ptr _).mono ?_
    intro q _
    refine (reads_getIncoming _ q).mono ?_
    intro l _
    cases l with
    | cons m rest => exact h.popMessage _ m buf
    | nil =>
      dsimp only
      split
      · exact h
      simp only [safely_bind]
      refine (reads_getUportReq _ q).mono ?_
      intro u _
      split
      · exact h
      simp only [safely_bind, safely_pure]
      exact h.runMm _

theorem respond (h : Ipc s₀ s) (fd : ℤ) (len buf : ℕ) :
    Safely InTables (fun r => Ipc s₀ r.2) (respond s fd len buf) := by
  refine h.locked ?_
  intro h
  simp only [State.cur, safely_bind]
  refine (reads_getTask _ _).mono ?_
  intro tk _
  refine (reads_handleBelow tk fd).mono ?_
  intro f _
  cases f with
  | none => exact h
  | some a =>
    simp only [safely_bind]
    refine (reads_getReq _ a).mono ?_
    intro r _
    split
    · exact h
    simp only [safely_bind]
    refine (reads_ptr _).mono ?_
    intro ca _
    refine (reads_getCookie _ ca).mono ?_
    intro c _
    split
    · exact h
    simp only [safely_bind]
    refine (reads_getReq _ _).mono ?_
    rintro cr ⟨p, hcr⟩
    split
    · simp [InTables]
    simp only [safely_bind]
    refine (h.runMm _).mono ?_
    rintro ⟨plh, s₁⟩ h₁
    cases plh with
    | error e => exact h₁
    | ok plh =>
      simp only [safely_bind, safely_pure]
      refine (h₁.clearFd _).mono ?_
      intro s₂ h₂
      refine (h₂.freeReq a).mono ?_
      intro s₃ h₃
      exact (h₃.setBody ca (by simp) (by simp)).notify h hcr fun hw hz => by simp [hz] at hw

theorem close (h : Ipc s₀ s) (hp : PortsOk s₀) {fd : ℤ} (hfd : NotMaxFds s fd) :
    Safely InTables (fun r => Ipc s₀ r.2) (close s fd) := by
  simp only [Kernel.close, State.cur, safely_bind]
  refine (reads_getTask s _).mono ?_
  intro tk htk
  refine (reads_handleAt (hfd tk htk)).mono ?_
  intro f _
  cases f with
  | none => exact h
  | some a =>
    simp only [safely_bind, safely_pure]
    refine (h.clearFd _).mono ?_
    intro s₁ h₁
    refine (reads_getReq s₁ a).mono ?_
    intro r _
    refine (reads_ropsOf r).mono ?_
    intro ops _
    refine (h₁.ropsDrop hp ops a).mono ?_
    intro s₂ h₂
    exact h₂.freeReq a

theorem dup0 (h : Ipc s₀ s) (oldFd newFd : ℤ) :
    Safely InTables (fun r => Ipc s₀ r.2) (dup0 s oldFd newFd) := by
  simp only [Kernel.dup0, State.cur, safely_bind]
  refine (reads_getTask s _).mono ?_
  intro tk htk
  refine (reads_handleBelow tk oldFd).mono ?_
  intro f _
  cases f with
  | none => exact h
  | some a =>
    dsimp only
    split
    · exact h
    rename_i hnew
    simp only [safely_bind]
    refine Safely.mono (Q := fun _ => True) ?_ ?_
    · split
      · exact (reads_fileAt (by omega)).mono fun _ _ => trivial
      · trivial
    intro taken _
    split
    · exact h
    simp only [safely_bind]
    refine (reads_getReq s a).mono ?_
    intro r _
    refine ((Ipc.refl s).newReq tk _).mono ?_
    rintro ⟨new, s₁⟩ h₁
    dsimp only
    split
    · simp only [safely_bind, safely_pure]
      exact (h.trans h₁).freeReq new
    rename_i fd fds hins
    have hlen : fds.length = tk.fds.length := by
      split at hins
      · exact (fdtableInsert_length hins).2
      · rw [Option.some.injEq, Prod.mk.injEq] at hins
        rw [← hins.2, List.length_set]
    have h₂ := h.trans (h₁.setFds_insert htk hlen)
    simp only [safely_bind]
    refine (reads_ropsOf r).mono ?_
    intro ops _
    refine (h₂.ropsDup ops r new).mono ?_
    rintro ⟨ret, s₃⟩ h₃
    dsimp only
    split
    · simp only [safely_bind, safely_pure]
      refine (h₃.clearFd _).mono ?_
      intro s₄ h₄
      exact h₄.freeReq new
    · exact h₃

end Ipc

end SadOS.Kernel
