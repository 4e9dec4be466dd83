import SadOS.Kernel.Rollback
import SadOS.Kernel.Woken

/-!
# The end of a server

A server that closes a port or a connection leaves its clients behind.  Those that wait at
a port and those of a connection are told; a cookie whose message still waits at the
connection is not, and keeps its pointer to the message, which is free.

## Main definitions

* `Connecting`, `Attached`, `QueuedCookie` — the clients of a handle of a server.
* `Released` — what the client sees afterwards.
* `Closing s s'` — what the loops of `uport_server_close` do to objects and tasks.
* `Told` — a client that was told.

## Main results

* `uportServerClose_port`, `uportServerClose_portReq` — who is told.
* `serverClose_iff` — `close`.
* `serverClose_fails` — a request that nobody has taken.
-/

namespace SadOS.Kernel

/-! ## Clients of a server -/

/-- `c` is a connection that waits at the port `a`. -/
def Connecting (s : State) (a c : ℕ) : Prop :=
  ∃ h x up m msg r, s.getReq a = .ok h ∧ h.type = .port ∧ h.data = .obj x ∧ s.getUport x = .ok up ∧
    m ∈ up.incoming ∧ s.getMsg m = .ok msg ∧ msg.clientReq = c ∧
    s.getReq c = .ok r ∧ r.type = .request ∧ r.state = .pending ∧ r.data = .null

/-- `c` is a client of the connection `a`. -/
def Attached (s : State) (a c : ℕ) : Prop :=
  ∃ h x up r, s.getReq a = .ok h ∧ h.type = .portReq ∧ h.data = .obj x ∧ s.getUportReq x = .ok up ∧
    c ∈ up.clients ∧ s.getReq c = .ok r ∧ r.type = .request ∧ r.data = .obj a

/-- `c` is a cookie whose message waits at the connection `a`. -/
def QueuedCookie (s : State) (a c : ℕ) : Prop :=
  ∃ h x up m msg r, s.getReq a = .ok h ∧ h.type = .portReq ∧ h.data = .obj x ∧
    s.getUportReq x = .ok up ∧ m ∈ up.incoming ∧ s.getMsg m = .ok msg ∧ msg.clientReq = c ∧
    s.getReq c = .ok r ∧ r.type = .cookie ∧ r.state = .pending ∧ r.data = .obj m

/-- A client of the handle `a` of a server. -/
def ClientOf (s : State) (a c : ℕ) : Prop := Connecting s a c ∨ Attached s a c ∨ QueuedCookie s a c

/-- What the client `c` sees in `s'`: its handle `r` is closed and points to no message
that was freed since `s`, its owner does not sleep on it, and nothing makes it wait. -/
structure Released (s s' : State) (c : ℕ) (r : Request) : Prop where
  get : s'.getReq c = .ok r
  state : r.state = .closed
  data : ∀ m msg, r.data = .obj m → s.getMsg m = .ok msg → s'.objs m ≠ none
  awake : r.waitedRw ≠ 0 → ∃ tk, s'.task r.owner = some tk ∧ tk.state ≠ .waiting
  available : ∀ rw, uportUserAvailable s' r rw = .ok true
  response : r.type = .cookie → ∃ res, uportGetResponse s' r = .ok ((0, res), s')
  request : ∀ k len buf, uportRequest s' c k len buf = .ok (-EPIPE, s')

/-! ## What the loops do -/

/-- A handle that was closed, unlinked or left alone. -/
structure Request.Ends (r r' : Request) : Prop where
  owner : r'.owner = r.owner
  data : r'.data = r.data
  type : r'.type = r.type
  waitedRw : r'.waitedRw = r.waitedRw
  state : r.state = .closed → r'.state = .closed

/-- What becomes of an object: handles stay, and nothing else is freed but it stays free. -/
inductive Obj.Ends : Option Obj → Option Obj → Prop
  | refl (o : Option Obj) : Ends o o
  | request {p : ℕ} {r r' : Request} (h : r.Ends r') :
    Ends (some ⟨p, .request r⟩) (some ⟨p, .request r'⟩)
  | connection {p : ℕ} {u u' : UportReq} : Ends (some ⟨p, .uportReq u⟩) (some ⟨p, .uportReq u'⟩)
  | free {o : Obj} (h : ∀ r, o.body ≠ .request r) : Ends (some o) none

/-- Handles of clients were closed, messages were freed and tasks were woken. -/
structure Closing (s s' : State) : Prop where
  woken : Woken s s'
  objs : ∀ a, Obj.Ends (s.objs a) (s'.objs a)

/-- The client `c` was told that the server is gone. -/
def Told (s : State) (c : ℕ) : Prop :=
  ∃ r, s.getReq c = .ok r ∧ r.state = .closed ∧
    (r.waitedRw ≠ 0 → ∃ tk, s.task r.owner = some tk ∧ tk.state ≠ .waiting)

theorem Request.Ends.trans {r r' r'' : Request} (h : r.Ends r') (h' : r'.Ends r'') : r.Ends r'' :=
  ⟨h'.owner.trans h.owner, h'.data.trans h.data, h'.type.trans h.type,
    h'.waitedRw.trans h.waitedRw, fun hc => h'.state (h.state hc)⟩

theorem Obj.Ends.trans {o o' o'' : Option Obj} (h : Obj.Ends o o') (h' : Obj.Ends o' o'') :
    Obj.Ends o o'' := by
  cases h with
  | refl => exact h'
  | request h =>
    cases h' with
    | refl => exact .request h
    | request h' => exact .request (h.trans h')
    | free hno => exact absurd rfl (hno _)
  | connection =>
    cases h' with
    | refl => exact .connection
    | connection => exact .connection
    | free => exact .free (by simp)
  | free hno =>
    cases h'
    exact .free hno

namespace Closing

variable {s₀ s s' : State}

theorem refl (s : State) : Closing s s := ⟨Woken.refl s, fun _ => .refl _⟩

theorem trans (h : Closing s₀ s) (h' : Closing s s') : Closing s₀ s' :=
  ⟨h.woken.trans h'.woken, fun a => (h.objs a).trans (h'.objs a)⟩

theorem getReq (h : Closing s s') {c : ℕ} {r : Request} (hr : s.getReq c = .ok r) :
    ∃ r', s'.getReq c = .ok r' ∧ r.Ends r' := by
  obtain ⟨p, hobj⟩ := getReq_ok hr
  have hends := h.objs c
  rw [hobj] at hends
  generalize ho : s'.objs c = o' at hends
  cases hends with
  | refl => exact ⟨r, getReq_eq ho, rfl, rfl, rfl, rfl, id⟩
  | request hr' => exact ⟨_, getReq_eq ho, hr'⟩
  | free hno => exact absurd rfl (hno r)

/-- A message that is there was there. -/
theorem getMsg (h : Closing s s') {m : ℕ} {msg : Message} (hm : s'.getMsg m = .ok msg) :
    s.getMsg m = .ok msg := by
  obtain ⟨p, hobj⟩ := getMsg_ok hm
  have hends := h.objs m
  rw [hobj] at hends
  generalize ho : s.objs m = o at hends
  cases hends
  rw [State.getMsg, ho]

/-- What is free stays free. -/
theorem none (h : Closing s s') {a : ℕ} (ha : s.objs a = none) : s'.objs a = none := by
  have hends := h.objs a
  rw [ha] at hends
  generalize ho : s'.objs a = o' at hends
  cases hends
  rfl

/-- An object other than a handle does not become one. -/
theorem not_request (h : Closing s s') {a : ℕ} (ha : ∀ p r, s.objs a ≠ some ⟨p, .request r⟩) (p : ℕ)
    (r : Request) : s'.objs a ≠ some ⟨p, .request r⟩ := by
  intro hobj
  have hends := h.objs a
  rw [hobj] at hends
  generalize ho : s.objs a = o at hends
  cases hends with
  | refl => exact ha p r ho
  | request => exact ha _ _ ho

/-- A client that was told stays told. -/
theorem told (h : Closing s s') {c : ℕ} (hc : Told s c) : Told s' c := by
  obtain ⟨r, hr, hstate, hwake⟩ := hc
  obtain ⟨r', hr', hends⟩ := h.getReq hr
  refine ⟨r', hr', hends.state hstate, ?_⟩
  rw [hends.waitedRw, hends.owner]
  intro hw
  obtain ⟨tk, htk, hst⟩ := hwake hw
  exact ⟨tk, h.woken.awake htk hst, hst⟩

/-! ### Writes -/

/-- A state with the same objects. -/
theorem same (h : Closing s₀ s) (hw : Woken s s') (hobjs : s'.objs = s.objs) : Closing s₀ s' :=
  h.trans ⟨hw, fun a => by rw [hobjs]; exact .refl _⟩

theorem setReq (h : Closing s₀ s) {c : ℕ} {r v : Request} (hr : s.getReq c = .ok r)
    (hends : r.Ends v) : Closing s₀ (s.setReq c v) := by
  refine h.trans ⟨(Woken.refl s).setReq c v, fun a => ?_⟩
  by_cases ha : a = c
  · subst ha
    obtain ⟨p, hobj⟩ := getReq_ok hr
    rw [State.setReq, State.setBody_self, hobj]
    exact .request hends
  · rw [State.setReq, State.setBody_of_ne _ ha]
    exact .refl _

theorem setUportReq (h : Closing s₀ s) {x : ℕ} {u : UportReq} (hu : s.getUportReq x = .ok u)
    (u' : UportReq) : Closing s₀ (s.setBody x (.uportReq u')) := by
  refine h.trans ⟨(Woken.refl s).setBody x _, fun a => ?_⟩
  by_cases ha : a = x
  · subst ha
    obtain ⟨p, hobj⟩ := getUportReq_ok hu
    rw [State.setBody_self, hobj]
    exact .connection
  · rw [State.setBody_of_ne _ ha]
    exact .refl _

theorem free (h : Closing s₀ s) {a : ℕ} (ha : ∀ p r, s.objs a ≠ some ⟨p, .request r⟩) (pool : ℕ) :
    Safely AnyFault (fun s' => Closing s₀ s' ∧ s'.objs a = .none) (s.free pool a) := by
  unfold State.free
  split
  · rename_i o _ hobj
    refine ⟨h.trans ⟨(Woken.refl s).same rfl rfl, fun a' => ?_⟩, Function.update_self ..⟩
    by_cases ha' : a' = a
    · subst ha'
      dsimp only
      rw [Function.update_self, hobj]
      refine .free ?_
      intro r hr
      exact ha o.pool r (by rw [hobj, ← hr])
    · dsimp only
      rw [Function.update_of_ne ha']
      exact .refl _
  · trivial

theorem freePayload (h : Closing s₀ s) (plh : Option ℕ) :
    Safely AnyFault (fun s' => Closing s₀ s' ∧ s'.objs = s.objs) (freePayload s plh) := by
  cases plh with
  | none => exact ⟨h, rfl⟩
  | some plh =>
    refine (execMm_reads s _).mono ?_
    rintro _ ⟨m, -, rfl⟩
    exact ⟨h.same ((Woken.refl s).setMm m) rfl, rfl⟩

/-- The owner of a handle is woken if it waits. -/
theorem notify (h : Closing s₀ s) (r : Request) (waited : Bool) :
    Safely AnyFault (fun s' => Closing s₀ s' ∧ s'.objs = s.objs ∧
      (waited = true → ∃ tk, s'.task r.owner = some tk ∧ tk.state ≠ .waiting))
    (notify s r waited) := by
  unfold Kernel.notify
  split
  · simp only [wakeUp, safely_bind]
    apply reads_eq
    intro tk htk
    have htk := getTask_ok htk
    split
    · rename_i hwait
      refine ⟨h.same ⟨rfl, fun t => ?_⟩ rfl, rfl, fun _ => ⟨_, State.setTask_self .., by simp⟩⟩
      by_cases ht : t = r.owner
      · subst ht
        exact .inr ⟨tk, htk, hwait, State.setTask_self ..⟩
      · exact .inl (State.setTask_of_ne _ ht _)
    · rename_i hwait
      exact ⟨h, rfl, fun _ => ⟨tk, htk, hwait⟩⟩
  · rename_i hno
    exact ⟨h, rfl, fun hw => absurd hw hno⟩

theorem unlinkReq (h : Closing s₀ s) {c : ℕ} {r : Request} (hr : s.getReq c = .ok r) :
    Safely AnyFault (fun s' => Closing s₀ s' ∧ ∃ r', s'.getReq c = .ok r' ∧ r'.state = r.state ∧
      r'.waitedRw = r.waitedRw ∧ r'.owner = r.owner) (unlinkReq s c) := by
  simp only [Kernel.unlinkReq, hr, ok_bind]
  have h₁ := h.setReq hr (v := { r with nextReq := .none }) ⟨rfl, rfl, rfl, rfl, id⟩
  have hget := getReq_setReq hr { r with nextReq := .none }
  split
  · trivial
  · rename_i u _
    simp only [safely_bind, safely_pure]
    apply reads_eq
    intro up hup
    refine ⟨h₁.setUportReq hup _, { r with nextReq := .none }, ?_, rfl, rfl, rfl⟩
    -- the connection is another object than the handle
    have hne : c ≠ u := by
      rintro rfl
      obtain ⟨p, hobj⟩ := getUportReq_ok hup
      obtain ⟨p', hobj'⟩ := getReq_ok hget
      rw [hobj] at hobj'
      cases hobj'
    obtain ⟨p', hobj'⟩ := getReq_ok hget
    exact getReq_eq (p := p') (by rw [State.setBody_of_ne _ hne, hobj'])
  · exact ⟨h₁.same ((Woken.refl _).same rfl rfl) rfl, _, hget, rfl, rfl, rfl⟩

/-! ### The steps of the loops -/

theorem closeClient (h : Closing s₀ s) (c : ℕ) :
    Safely AnyFault (fun s' => Closing s₀ s' ∧ Told s' c) (closeClient s c) := by
  simp only [Kernel.closeClient, safely_bind]
  apply reads_eq
  intro r hr
  have h₁ := h.setReq hr (v := { r with state := .closed }) ⟨rfl, rfl, rfl, rfl, fun _ => rfl⟩
  have hget := getReq_setReq hr { r with state := .closed }
  refine (h₁.notify r _).mono ?_
  rintro s' ⟨h', hobjs, hwake⟩
  refine ⟨h', { r with state := .closed }, ?_, rfl, fun hw => hwake (by simpa using hw)⟩
  rw [State.getReq, hobjs]
  exact hget

theorem dropClient (h : Closing s₀ s) (c : ℕ) :
    Safely AnyFault (fun s' => Closing s₀ s' ∧ Told s' c) (dropClient s c) := by
  simp only [Kernel.dropClient, safely_bind]
  apply reads_eq
  intro r hr
  have h₁ := h.setReq hr (v := { r with state := .closed }) ⟨rfl, rfl, rfl, rfl, fun _ => rfl⟩
  refine (h₁.unlinkReq (getReq_setReq hr _)).mono ?_
  rintro s₂ ⟨h₂, r', hr', hstate, hw', hown⟩
  refine (h₂.notify r _).mono ?_
  rintro s' ⟨h', hobjs, hwake⟩
  refine ⟨h', r', ?_, hstate, ?_⟩
  · rw [State.getReq, hobjs]
    exact hr'
  · rw [hw', hown]
    exact fun hw => hwake (by simpa using hw)

/-- A message is not a handle. -/
theorem not_request_of_getMsg {m : ℕ} {msg : Message} (hm : s.getMsg m = .ok msg) (p : ℕ)
    (r : Request) :
    s.objs m ≠ some ⟨p, .request r⟩ := by
  obtain ⟨p', hobj⟩ := getMsg_ok hm
  rw [hobj]
  simp

theorem dropConnect (h : Closing s₀ s) (m : ℕ) :
    Safely AnyFault (fun s' => Closing s s' ∧ ∀ msg, s₀.getMsg m = .ok msg → Told s' msg.clientReq)
      (dropConnect s m) := by
  simp only [Kernel.dropConnect, safely_bind]
  apply reads_eq
  intro msg hm
  refine ((refl s).freePayload msg.plh).mono ?_
  rintro s₁ ⟨h₁, hobjs₁⟩
  apply reads
  intro client
  apply reads
  intro task
  refine (h₁.closeClient msg.clientReq).mono ?_
  rintro s₂ ⟨h₂, htold⟩
  refine ((refl s₂).free (h₂.not_request (not_request_of_getMsg hm)) task.filePool).mono ?_
  rintro s₃ ⟨h₃, -⟩
  refine ⟨h₂.trans h₃, ?_⟩
  intro msg' hm'
  rw [h.getMsg hm, Except.ok.injEq] at hm'
  exact hm' ▸ h₃.told htold

theorem dropMessage (h : Closing s₀ s) (m : ℕ) :
    Safely AnyFault (fun s' => Closing s₀ s' ∧ s'.objs m = .none) (dropMessage s m) := by
  simp only [Kernel.dropMessage, safely_bind]
  apply reads_eq
  intro msg hm
  refine (h.freePayload msg.plh).mono ?_
  rintro s₁ ⟨h₁, hobjs₁⟩
  apply reads
  intro client
  apply reads
  intro task
  refine h₁.free ?_ task.filePool
  rw [hobjs₁]
  exact not_request_of_getMsg hm

/-- A loop each of whose steps is such a change, and brings about `P` for its element. -/
theorem foldlM {f : State → ℕ → Except Fault State} {P : State → ℕ → Prop} (h : Closing s₀ s)
    (hP : ∀ s s' b, Closing s s' → P s b → P s' b)
    (hf : ∀ s b, Closing s₀ s → Safely AnyFault (fun s' => Closing s s' ∧ P s' b) (f s b))
    (l : List ℕ) : Safely AnyFault (fun s' => Closing s₀ s' ∧ ∀ b ∈ l, P s' b) (l.foldlM f s) := by
  refine
    (safely_foldlM (fun rest s' => ∃ done, l = done ++ rest ∧ Closing s₀ s' ∧ ∀ b ∈ done, P s' b)
    ⟨[], rfl, h, by simp⟩ ?_).mono ?_
  · rintro b rest s₁ ⟨done, hl, h₁, hdone⟩
    refine (hf s₁ b h₁).mono ?_
    rintro s₂ ⟨h₂, hb⟩
    refine ⟨done ++ [b], by simp [hl], h₁.trans h₂, ?_⟩
    intro b' hb'
    rcases List.mem_append.1 hb' with hb' | hb'
    · exact hP s₁ s₂ b' h₂ (hdone b' hb')
    · exact List.mem_singleton.1 hb' ▸ hb
  · rintro s' ⟨done, hl, h', hdone⟩
    rw [List.append_nil] at hl
    exact ⟨h', hl ▸ hdone⟩

end Closing

/-! ## The end of a port and of a connection -/

section

variable {s : State} {a x : ℕ} {h : Request}

/-- The connections that wait at a port are told. -/
theorem uportServerClose_port (hr : s.getReq a = .ok h) (htype : h.type = .port)
    (hdata : h.data = .obj x) {up : Uport} (hup : s.getUport x = .ok up) :
    Safely AnyFault (fun s' => Closing s s' ∧
      ∀ m ∈ up.incoming, ∀ msg, s.getMsg m = .ok msg → Told s' msg.clientReq)
      (uportServerClose s a) := by
  simp only [uportServerClose, hr, htype, hdata, Data.ptr, hup, ok_bind, safely_bind]
  apply reads
  intro tk
  refine ((Closing.refl s).foldlM (P := fun s' m => ∀ msg, s.getMsg m = .ok msg →
    Told s' msg.clientReq) (fun _ _ _ hc hp msg hm => hc.told (hp msg hm))
    (fun _ m hc => hc.dropConnect m) up.incoming).mono ?_
  rintro s₁ ⟨h₁, htold⟩
  apply reads
  intro n
  obtain ⟨p, hobj⟩ := getUport_ok hup
  have h₂ : Closing s₁ { s₁ with
      port := Function.update s₁.port n none
      uport := Function.update s₁.uport n none } :=
    (Closing.refl s₁).same ((Woken.refl s₁).same rfl rfl) rfl
  refine (h₂.free (h₁.not_request (by simp [hobj])) tk.filePool).mono ?_
  rintro s₃ ⟨h₃, -⟩
  exact ⟨h₁.trans h₃, fun m hm msg hmsg => h₃.told (htold m hm msg hmsg)⟩

/-- The clients of a connection are told, and the messages that wait there are freed. -/
theorem uportServerClose_portReq (hr : s.getReq a = .ok h) (htype : h.type = .portReq)
    (hdata : h.data = .obj x) {up : UportReq} (hup : s.getUportReq x = .ok up) :
    Safely AnyFault (fun s' => Closing s s' ∧ (∀ c ∈ up.clients, Told s' c) ∧
      ∀ m ∈ up.incoming, s'.objs m = none) (uportServerClose s a) := by
  simp only [uportServerClose, hr, htype, hdata, Data.ptr, hup, ok_bind, safely_bind]
  apply reads
  intro tk
  refine ((Closing.refl s).foldlM (P := Told) (fun _ _ _ hc ht => hc.told ht)
    (fun s₁ c _ => (Closing.refl s₁).dropClient c) up.clients).mono ?_
  rintro s₁ ⟨h₁, htold⟩
  refine ((Closing.refl s₁).foldlM (P := fun s' m => s'.objs m = none)
    (fun _ _ _ hc ht => hc.none ht)
    (fun s₂ m _ => (Closing.refl s₂).dropMessage m) up.incoming).mono ?_
  rintro s₂ ⟨h₂, hfree⟩
  obtain ⟨p, hobj⟩ := getUportReq_ok hup
  refine ((Closing.refl s₂).free ((h₁.trans h₂).not_request (by simp [hobj])) tk.filePool).mono ?_
  rintro s₃ ⟨h₃, -⟩
  exact ⟨(h₁.trans h₂).trans h₃, fun c hc => (h₂.trans h₃).told (htold c hc),
    fun m hm => h₃.none (hfree m hm)⟩

end

/-! ## `close` -/

theorem Told.congr {s s' : State} {c : ℕ} (h : Told s c) (hobj : s'.objs c = s.objs c)
    (htask : s'.task = s.task) : Told s' c := by
  obtain ⟨r, hr, hstate, hwake⟩ := h
  exact ⟨r, by rw [State.getReq, hobj]; exact hr, hstate, by rw [htask]; exact hwake⟩

/-- What a client sees that was told. -/
theorem Told.released {s s' : State} {c : ℕ} (h : Told s' c) (hdata : ∀ r, s'.getReq c = .ok r →
    ∀ m msg, r.data = .obj m → s.getMsg m = .ok msg → s'.objs m ≠ none) :
    ∃ r, Released s s' c r := by
  obtain ⟨r, hr, hstate, hwake⟩ := h
  refine ⟨r, hr, hstate, hdata r hr, hwake, ?_, ?_, ?_⟩
  · intro rw
    rw [uportUserAvailable, if_pos hstate]
  · intro htype
    exact ⟨_, by rw [uportGetResponse, if_neg (not_not.2 htype), if_pos hstate]⟩
  · intro k len buf
    rw [uportRequest, hr, ok_bind, if_pos hstate]
    rfl

section

variable {s s' : State} {tk : Task} {fd ret : ℤ} {a : ℕ} {h : Request}

/-- `close` of a handle of a server, around `uport_server_close`. -/
theorem close_server (hcur : s.cur = .ok tk) (ha : handleAt tk fd = .ok (some a))
    (hr : s.getReq a = .ok h) (hops : h.rops = some .uportServer)
    (hret : close s fd = .ok (ret, s')) :
    ∃ s₁ s₂, s₁.objs = s.objs ∧ uportServerClose s₁ a = .ok s₂ ∧ s'.task = s₂.task ∧
      s'.objs = Function.update s₂.objs a none := by
  have hsafe : Safely AnyFault (fun x => ∃ s₁ s₂, s₁.objs = s.objs ∧
    uportServerClose s₁ a = .ok s₂ ∧
      x.2.task = s₂.task ∧ x.2.objs = Function.update s₂.objs a none) (close s fd) := by
    simp only [close, hcur, ha, ok_bind, safely_bind, safely_pure]
    refine (clearFd_objs s fd.toNat).mono ?_
    intro s₁ hobjs₁
    have hr₁ : s₁.getReq a = .ok h := by rw [State.getReq, hobjs₁]; exact hr
    rw [hr₁, safely_ok, State.ropsOf, hops, safely_ok, ropsDrop]
    apply reads_eq
    intro s₂ hs₂
    refine (freeReq_objs s₂ a).mono ?_
    rintro s₃ ⟨-, htask₃, hobjs₃⟩
    exact ⟨s₁, s₂, hobjs₁, hs₂, htask₃, hobjs₃⟩
  exact hsafe.of_ok hret

/-- Whoever is a client, but for the cookies in the queue, is released. -/
theorem serverClose_released (hcur : s.cur = .ok tk) (ha : handleAt tk fd = .ok (some a))
    (hr : s.getReq a = .ok h) (hops : h.rops = some .uportServer)
    (hret : close s fd = .ok (ret, s'))
    {c : ℕ} (hc : Connecting s a c ∨ Attached s a c) : ∃ r, Released s s' c r := by
  obtain ⟨s₁, s₂, hobjs₁, hs₂, htask, hobjs⟩ := close_server hcur ha hr hops hret
  have hsame : ∀ b r, s.getReq b = .ok r → s₁.getReq b = .ok r := by
    intro b r hb
    rw [State.getReq, hobjs₁]
    exact hb
  -- the client is another object than the handle, and was told
  obtain ⟨r, hcr, htype, hclosing, htold, hdata⟩ : ∃ r, s.getReq c = .ok r ∧ r.type = .request ∧
      Closing s₁ s₂ ∧ Told s₂ c ∧ ∀ m msg, r.data = .obj m → s.getMsg m ≠ .ok msg := by
    rcases hc with hc | hc
    · obtain ⟨h', x, up, m, msg, r, hr', htype, hdata, hup, hm, hmsg, rfl, hcr, hctype,
        -, hnull⟩ := hc
      rw [hr, Except.ok.injEq] at hr'
      subst hr'
      have hup₁ : s₁.getUport x = .ok up := by rw [State.getUport, hobjs₁]; exact hup
      obtain ⟨hclosing, htold⟩ := (uportServerClose_port (hsame a h hr) htype hdata hup₁).of_ok hs₂
      refine ⟨r, hcr, hctype, hclosing, htold m hm msg ?_, by simp [hnull]⟩
      rw [State.getMsg, hobjs₁]
      exact hmsg
    · obtain ⟨h', x, up, r, hr', htype, hdata, hup, hin, hcr, hctype, hptr⟩ := hc
      rw [hr, Except.ok.injEq] at hr'
      subst hr'
      have hup₁ : s₁.getUportReq x = .ok up := by rw [State.getUportReq, hobjs₁]; exact hup
      obtain ⟨hclosing, htold, -⟩ := (uportServerClose_portReq (hsame a h hr) htype hdata
        hup₁).of_ok hs₂
      refine ⟨r, hcr, hctype, hclosing, htold c hin, ?_⟩
      intro m msg hm hmsg
      rw [hptr, Data.obj.injEq] at hm
      subst hm
      obtain ⟨p, hobj⟩ := getMsg_ok hmsg
      obtain ⟨p', hobj'⟩ := getReq_ok hr
      rw [hobj] at hobj'
      cases hobj'
  have hne : c ≠ a := by
    rintro rfl
    rw [hr, Except.ok.injEq] at hcr
    subst hcr
    rcases hc with ⟨h', -, -, -, -, -, hr', htype', -⟩ | ⟨h', -, -, -, hr', htype', -⟩
    all_goals
      rw [hr, Except.ok.injEq] at hr'
      subst hr'
      rw [htype] at htype'
      cases htype'
  have hobj : s'.objs c = s₂.objs c := by rw [hobjs, Function.update_of_ne hne]
  refine (htold.congr hobj htask).released ?_
  intro r' hr' m msg hm hmsg
  obtain ⟨r'', hr'', hends⟩ := hclosing.getReq (hsame c r hcr)
  rw [State.getReq, hobj] at hr'
  obtain rfl : r'' = r' := Except.ok.inj (hr''.symm.trans hr')
  exact absurd hmsg (hdata m msg (hends.data ▸ hm))

/-- A cookie in the queue keeps its pointer to the message. -/
theorem serverClose_dangling (hcur : s.cur = .ok tk) (ha : handleAt tk fd = .ok (some a))
    (hr : s.getReq a = .ok h) (hops : h.rops = some .uportServer)
    (hret : close s fd = .ok (ret, s'))
    {c : ℕ} (hc : QueuedCookie s a c) (r : Request) : ¬Released s s' c r := by
  intro hreleased
  obtain ⟨s₁, s₂, hobjs₁, hs₂, -, hobjs⟩ := close_server hcur ha hr hops hret
  obtain ⟨h', x, up, m, msg, r₀, hr', htype, hdata, hup, hm, hmsg, -, hcr, hctype, -, hptr⟩ := hc
  rw [hr, Except.ok.injEq] at hr'
  subst hr'
  have hr₁ : s₁.getReq a = .ok h := by rw [State.getReq, hobjs₁]; exact hr
  have hup₁ : s₁.getUportReq x = .ok up := by rw [State.getUportReq, hobjs₁]; exact hup
  have hcr₁ : s₁.getReq c = .ok r₀ := by rw [State.getReq, hobjs₁]; exact hcr
  obtain ⟨hclosing, -, hfree⟩ := (uportServerClose_portReq hr₁ htype hdata hup₁).of_ok hs₂
  have hne : c ≠ a := by
    rintro rfl
    rw [hr, Except.ok.injEq] at hcr
    subst hcr
    rw [htype] at hctype
    cases hctype
  obtain ⟨r', hr', hends⟩ := hclosing.getReq hcr₁
  have hget := hreleased.get
  rw [State.getReq, hobjs, Function.update_of_ne hne] at hget
  obtain rfl : r' = r := Except.ok.inj (hr'.symm.trans hget)
  refine hreleased.data m msg (hends.data.trans hptr) hmsg ?_
  rw [hobjs]
  by_cases hma : m = a
  · rw [hma, Function.update_self]
  · rw [Function.update_of_ne hma, hfree m hm]

end

/-- **A server that goes** releases all of its clients exactly if no cookie's message waits
at the handle that it closes. -/
theorem serverClose_iff {s s' : State} {tk : Task} {fd ret : ℤ} {a : ℕ} {h : Request}
    (hcur : s.cur = .ok tk) (ha : handleAt tk fd = .ok (some a)) (hr : s.getReq a = .ok h)
    (hops : h.rops = some .uportServer) (hret : close s fd = .ok (ret, s')) :
    (∀ c, ClientOf s a c → ∃ r, Released s s' c r) ↔ ∀ c, ¬QueuedCookie s a c := by
  constructor
  · intro hall c hc
    obtain ⟨r, hreleased⟩ := hall c (.inr (.inr hc))
    exact serverClose_dangling hcur ha hr hops hret hc r hreleased
  · intro hno c hc
    rcases hc with hc | hc | hc
    · exact serverClose_released hcur ha hr hops hret (.inl hc)
    · exact serverClose_released hcur ha hr hops hret (.inr hc)
    · exact absurd hc (hno c)

/-- The init task opens port 20 and connects to it. -/
def connectSelf : List Action :=
  [.schedule, .call (.openPort 20), .call (.portConnect 20 0 0)]

/-- The connection that waits at the port is released with it. -/
theorem serverClose_iff_port : ∃ s s', run (bootWith []) connectSelf = .ok s ∧
    close s 0 = .ok (0, s') ∧
      ((∀ c, ClientOf s 0 c → ∃ r, Released s s' c r) ↔ ∀ c, ¬QueuedCookie s 0 c) := by
  have hrun : (run (bootWith []) connectSelf).toOption.bind (fun s =>
      s.cur.toOption.bind fun tk => (handleAt tk 0).toOption.bind fun f =>
        f.bind fun a => (s.getReq a).toOption.bind fun h =>
          (close s 0).toOption.bind fun x => some (a, h.rops, x.1)) =
        some (0, some .uportServer, 0) := by
    decide +kernel
  obtain ⟨s, hs, hrun⟩ := exists_of_bind hrun
  obtain ⟨tk, htk, hrun⟩ := exists_of_bind hrun
  obtain ⟨f, hf, hrun⟩ := exists_of_bind hrun
  obtain ⟨a, rfl, hrun⟩ := Option.bind_eq_some_iff.1 hrun
  obtain ⟨h, hh, hrun⟩ := exists_of_bind hrun
  obtain ⟨⟨ret, s'⟩, hret, hrun⟩ := exists_of_bind hrun
  simp only [Option.some.injEq, Prod.mk.injEq] at hrun
  obtain ⟨rfl, hops, rfl⟩ := hrun
  exact ⟨s, s', hs, hret, serverClose_iff htk hf hh hops hret⟩

/-- The init task opens port 20, connects to it, takes the connection and sends a request. -/
def requestSelf : List Action :=
  [.schedule, .call (.sendpage 0 0 0x400000 0x1000), .call (.openPort 20),
    .call (.portConnect 20 0 0), .call (.popRequest 0 0x400000), .call (.request 1 0 0)]

/-- The cookie of a request that nobody has taken stays pending for ever. -/
theorem serverClose_fails : ¬∀ (free : List ℕ) (l : List Action) (s : State),
    run (bootWith free) l = .ok s → ∀ tk fd a h ret s', s.cur = .ok tk →
      handleAt tk fd = .ok (some a) → s.getReq a = .ok h → h.rops = some .uportServer →
      close s fd = .ok (ret, s') → ∀ c, ClientOf s a c → ∃ r, Released s s' c r := by
  intro hall
  have hrun : (run (bootWith [0x10000, 0x11000]) requestSelf).toOption.bind (fun s =>
      s.cur.toOption.bind fun tk => (handleAt tk 2).toOption.bind fun f =>
        f.bind fun a => (s.getReq a).toOption.bind fun h => h.data.ptr.toOption.bind fun x =>
          (s.getUportReq x).toOption.bind fun up => up.incoming.head?.bind fun m =>
            (s.getMsg m).toOption.bind fun msg => (s.getReq msg.clientReq).toOption.bind fun r =>
              (close s 2).toOption.bind fun y => (y.2.getReq msg.clientReq).toOption.bind fun r' =>
                some (h.rops, h.type, r.type, r.state, decide (r.data = .obj m), r'.state)) =
        some (some .uportServer, .portReq, .cookie, .pending, true, .pending) := by
    decide +kernel
  obtain ⟨s, hs, hrun⟩ := exists_of_bind hrun
  obtain ⟨tk, htk, hrun⟩ := exists_of_bind hrun
  obtain ⟨f, hf, hrun⟩ := exists_of_bind hrun
  obtain ⟨a, rfl, hrun⟩ := Option.bind_eq_some_iff.1 hrun
  obtain ⟨h, hh, hrun⟩ := exists_of_bind hrun
  obtain ⟨x, hx, hrun⟩ := exists_of_bind hrun
  obtain ⟨up, hup, hrun⟩ := exists_of_bind hrun
  obtain ⟨m, hm, hrun⟩ := Option.bind_eq_some_iff.1 hrun
  obtain ⟨msg, hmsg, hrun⟩ := exists_of_bind hrun
  obtain ⟨r, hr, hrun⟩ := exists_of_bind hrun
  obtain ⟨⟨ret, s'⟩, hret, hrun⟩ := exists_of_bind hrun
  obtain ⟨r', hr', hrun⟩ := exists_of_bind hrun
  simp only [Option.some.injEq, Prod.mk.injEq, decide_eq_true_eq] at hrun
  obtain ⟨hops, htype, hctype, hstate, hdata, hstate'⟩ := hrun
  have hqueued : QueuedCookie s a msg.clientReq :=
    ⟨h, x, up, m, msg, r, hh, htype, Data.ptr_ok hx, hup, List.mem_of_mem_head? hm, hmsg, rfl, hr,
      hctype, hstate, hdata⟩
  obtain ⟨r'', hreleased⟩ := hall _ _ s hs tk 2 a h ret s' htk hf hh hops hret _
    (.inr (.inr hqueued))
  have hget := hreleased.get
  rw [hr', Except.ok.injEq] at hget
  rw [← hget] at hreleased
  have hclosed := hreleased.state
  rw [hstate'] at hclosed
  cases hclosed

end SadOS.Kernel
