import SadOS.Kernel.ServerClose
import SadOS.Mm.CopyBack

/-!
# Taking a message

`pop_request` takes a number for the new handle before it knows whether it can hand the
message over, and none of its error exits gives the number back.

## Main definitions

* `Waiting` — a message at the head of the queue of a handle.
* `PayloadFails`, `WriteFails` — what can go wrong once there is a number.
* `Doomed` — the same, of the state before the call.
* `Untouched`, `Taken` — what a call that fails and one that succeeds must leave.
* `AllOrNothing` — the property.

## Main results

* `acceptMessage_taken` — the message leaves its queue, and the new handle stands for it.
* `popMessage_cases` — the number is not given back.
* `fails_iff` — what fails, from the state before the call.
* `allOrNothing_iff` — `pop_request`.
* `allOrNothing_fails` — a buffer that is not mapped.
-/

namespace SadOS.Kernel

open Mm (fdtableInsert)

/-- The message `m`, with contents `msg`, is the first in the queue `q` of the handle `rd`,
whose contents are `r`. -/
structure Waiting (s : State) (tk : Task) (rd : ℤ) (r : Request) (q m : ℕ) (msg : Message)
    (rest : List ℕ) : Prop where
  cur : s.cur = .ok tk
  handle : ∃ a, handleAt tk rd = .ok (some a) ∧ s.getReq a = .ok r
  type : r.type = .port ∨ r.type = .portReq
  data : r.data = .obj q
  queue : s.getIncoming q = .ok (m :: rest)
  message : s.getMsg m = .ok msg
  next : msg.next = some q
  once : m ∉ rest

/-- The memory manager once the payload of the message is mapped, if there is one. -/
def Mapped (s : State) (msg : Message) (mm : Mm.State) : Prop :=
  match msg.plh with
  | none => mm = (disableInterrupts s).mm
  | some plh => ∃ v, Mm.mapToUser (disableInterrupts s).mm plh 0 = .ok (v, mm)

/-- `map_to_user` returns an error. -/
def PayloadFails (s : State) (msg : Message) : Prop :=
  ∃ plh v mm, msg.plh = some plh ∧ Mm.mapToUser (disableInterrupts s).mm plh 0 = .ok (v, mm) ∧ v < 0

/-- `copy_to_user_simple` returns an error for the result. -/
def WriteFails (s : State) (msg : Message) (buf : ℕ) : Prop :=
  ∃ mm, Mapped s msg mm ∧
    ∃ src ret mm', Mm.copyToUserSimple mm src buf 24 = .ok (ret, mm') ∧ ret ≠ 0

/-- The call gets a number for the handle, and after that it fails. -/
def Fails (s : State) (tk : Task) (msg : Message) (buf : ℕ) : Prop :=
  none ∈ tk.fds ∧ (PayloadFails s msg ∨ WriteFails s msg buf)

/-- The VMAs of the server, with one for the payload. -/
def vmasWith (s : State) (msg : Message) (sp : Mm.AddressSpace) : List Mm.VmArea :=
  match msg.plh with
  | none => sp.vma
  | some plh =>
    match s.mm.getPlist plh with
    | .error _ => sp.vma
    | .ok head => sp.filled (4096 * head.npage % 2 ^ 64) Mm.VMA_RW

/-- The buffer for the result is not in these VMAs. -/
def BadBuffer (s : State) (msg : Message) (buf : ℕ) : Prop :=
  ∃ sp, s.mm.spaces s.mm.current = some sp ∧
    Mm.validateRangeFrom buf 24 (Mm.vmasFrom buf (vmasWith s msg sp)) = false

/-- `map_to_user` does not stop the kernel. -/
def Maps (s : State) (msg : Message) : Prop :=
  ∀ plh, msg.plh = some plh → ∃ x, Mm.mapToUser (disableInterrupts s).mm plh 0 = .ok x

/-- There is a number for the handle, but no room for the payload or no place for the
result. -/
def Doomed (s : State) (tk : Task) (m : ℕ) (msg : Message) (buf : ℕ) : Prop :=
  none ∈ tk.fds ∧ (MessageLacksRoom s m ∨ Maps s msg ∧ BadBuffer s msg buf)

/-- The queue, the table of handles and the VMAs of the server are as they were. -/
structure Untouched (s : State) (tk : Task) (q : ℕ) (l : List ℕ) (s' : State) : Prop where
  queue : s'.getIncoming q = .ok l
  fds : ∃ tk', s'.cur = .ok tk' ∧ tk'.fds = tk.fds
  vmas : (s'.mm.spaces s.mm.current).map (fun sp => sp.vma.map Mm.VmArea.core) =
    (s.mm.spaces s.mm.current).map fun sp => sp.vma.map Mm.VmArea.core

/-- A handle for the server side of `client`, with all that its operations read. -/
structure Initialised (s : State) (type : ReqType) (client : ℕ) (r : Request) : Prop where
  owner : r.owner = s.current
  rops : r.rops = some .uportServer
  waitedRw : r.waitedRw = 0
  connection : type = .port → r.type = .portReq ∧
    ∃ x, r.data = .obj x ∧ s.getUportReq x = .ok ⟨[client], []⟩
  cookie : type = .portReq → r.type = .portCookie ∧
    ∃ x, r.data = .obj x ∧ s.getCookie x = .ok ⟨some client, none, s.current⟩

/-- The descriptor `fd` stands for the message `m`, which is not in the queue `q` any more. -/
def Taken (s : State) (type : ReqType) (q m client fd : ℕ) : Prop :=
  (∃ tk a r, s.cur = .ok tk ∧ tk.fds[fd]? = some (some a) ∧ s.getReq a = .ok r ∧
    Initialised s type client r) ∧ ∃ l, s.getIncoming q = .ok l ∧ m ∉ l

/-- A call that fails leaves the state as it was, and one that succeeds has taken the
message. -/
def AllOrNothing (s : State) (tk : Task) (rd : ℤ) (r : Request) (q m : ℕ) (msg : Message)
    (rest : List ℕ) (buf : ℕ) : Prop :=
  (Fails s tk msg buf → ∃ ret s', popRequest s rd buf = .ok (ret, s') ∧ ret < 0 ∧
    Untouched s tk q (m :: rest) s') ∧
  ∀ ret s', popRequest s rd buf = .ok (ret, s') → 0 ≤ ret →
    Taken s' r.type q m msg.clientReq ret.toNat

/-! ## Objects -/

section

variable {s : State}

/-- A queue is one of a port or of a connection. -/
theorem incoming_obj {q : ℕ} {l : List ℕ} (hq : s.getIncoming q = .ok l) :
    ∃ p b, s.objs q = some ⟨p, b⟩ ∧ (∀ r, b ≠ .request r) ∧ (∀ msg, b ≠ .message msg) ∧
      b ≠ .blank := by
  unfold State.getIncoming at hq
  split at hq
  · rename_i hobj
    exact ⟨_, _, hobj, by simp, by simp, by simp⟩
  · rename_i hobj
    exact ⟨_, _, hobj, by simp, by simp, by simp⟩
  · cases hq

/-- `list_del` of a message changes the message and its queue. -/
theorem unqueue_objs {q m : ℕ} {msg : Message} {l : List ℕ} (hm : s.getMsg m = .ok msg)
    (hnext : msg.next = some q) (hq : s.getIncoming q = .ok l) :
    Safely AnyFault (fun s' => s'.getIncoming q = .ok (l.erase m) ∧
      ∀ b, b ≠ m → b ≠ q → s'.objs b = s.objs b) (unqueue s m) := by
  obtain ⟨p, hobj⟩ := getMsg_ok hm
  have hne : q ≠ m := by
    rintro rfl
    rw [State.getIncoming, hobj] at hq
    cases hq
  have hq₁ : (s.setBody m (.message { msg with next := none })).objs q = s.objs q :=
    State.setBody_of_ne s hne _
  simp only [unqueue, hm, hnext, ok_bind, safely_bind, safely_pure]
  rw [State.getIncoming, hq₁, ← State.getIncoming, hq, safely_ok]
  have hother : ∀ (body : Body) b, b ≠ m → b ≠ q →
      ((s.setBody m (.message { msg with next := none })).setBody q body).objs b = s.objs b := by
    intro body b hbm hbq
    rw [State.setBody_of_ne _ hbq, State.setBody_of_ne _ hbm]
  unfold State.getIncoming at hq
  split at hq
  · rename_i pq u hqobj
    simp only [State.setIncoming, hq₁, hqobj]
    refine ⟨?_, hother _⟩
    rw [State.getIncoming, State.setBody_self, hq₁, hqobj]
    cases hq
    rfl
  · rename_i pq u hqobj
    simp only [State.setIncoming, hq₁, hqobj]
    refine ⟨?_, hother _⟩
    rw [State.getIncoming, State.setBody_self, hq₁, hqobj]
    cases hq
    rfl
  · cases hq

theorem freePayload_objs (plh : Option ℕ) :
    Safely AnyFault (fun s' => ∃ m, s' = s.setMm m) (freePayload s plh) := by
  cases plh with
  | none => exact ⟨s.mm, rfl⟩
  | some plh => exact (execMm_reads s _).mono fun _ ⟨m, _, hm⟩ => ⟨m, hm⟩

theorem notify_objs (r : Request) (waited : Bool) :
    Safely AnyFault (fun s' => s'.objs = s.objs) (notify s r waited) := by
  unfold notify
  split
  · simp only [wakeUp, safely_bind]
    apply reads
    intro tk
    split <;> rfl
  · rfl

/-- Objects of different kinds are at different addresses. -/
theorem objs_ne {a b p p' : ℕ} {body body' : Body} (ha : s.objs a = some ⟨p, body⟩)
    (hb : s.objs b = some ⟨p', body'⟩) (hne : body ≠ body') : a ≠ b := by
  rintro rfl
  rw [ha] at hb
  cases hb
  exact hne rfl

/-- `list_add` to the clients of a connection changes the handle and the connection. -/
theorem linkReq_objs {c x : ℕ} {u : UportReq} (hu : s.getUportReq x = .ok u) (hcx : c ≠ x) :
    Safely AnyFault (fun s' => s'.current = s.current ∧
      s'.getUportReq x = .ok { u with clients := c :: u.clients } ∧
      ∀ b, b ≠ c → b ≠ x → s'.objs b = s.objs b) (linkReq s c (.clients x)) := by
  obtain ⟨p, hobj⟩ := getUportReq_ok hu
  simp only [linkReq, safely_bind, safely_pure]
  apply reads
  intro r
  have hobj₁ : (s.setReq c { r with nextReq := some (.clients x) }).objs x = s.objs x :=
    State.setBody_of_ne s hcx.symm _
  rw [State.getUportReq, hobj₁, ← State.getUportReq, hu, safely_ok]
  refine ⟨rfl, ?_, ?_⟩
  · rw [State.getUportReq, State.setBody_self, hobj₁, hobj]
    rfl
  · intro b hbc hbx
    rw [State.setBody_of_ne _ hbx, State.setReq, State.setBody_of_ne _ hbc]

/-- The new handle and the one of the client are set up. -/
theorem serverReq_initialised {type type' : ReqType} {q sreq c x p : ℕ} {rest : List ℕ}
    {creq : Request}
    (hsreq : s.objs sreq = some ⟨p, .blank⟩) (hq : s.getIncoming q = .ok rest) (hsc : sreq ≠ c)
    (hqs : q ≠ sreq) (hqc : q ≠ c) (hxs : x ≠ sreq) (hxc : x ≠ c)
    (hport : type = .port → type' = .portReq ∧ s.getUportReq x = .ok ⟨[c], []⟩)
    (hconn : type = .portReq → type' = .portCookie ∧
      s.getCookie x = .ok ⟨some c, none, s.current⟩) :
    (∃ r, ((s.setReq sreq (serverReq s (.obj x) type')).setReq c creq).getReq sreq = .ok r ∧
      Initialised ((s.setReq sreq (serverReq s (.obj x) type')).setReq c creq) type c r) ∧
    ((s.setReq sreq (serverReq s (.obj x) type')).setReq c creq).getIncoming q = .ok rest := by
  set s₁ := (s.setReq sreq (serverReq s (.obj x) type')).setReq c creq
  have hother : ∀ b, b ≠ sreq → b ≠ c → s₁.objs b = s.objs b := by
    intro b hbs hbc
    rw [show s₁ = (s.setReq sreq (serverReq s (.obj x) type')).setBody c (.request creq) from rfl,
      State.setBody_of_ne _ hbc, State.setReq, State.setBody_of_ne _ hbs]
  have hself : s₁.objs sreq = some ⟨p, .request (serverReq s (.obj x) type')⟩ := by
    rw [show s₁ = (s.setReq sreq (serverReq s (.obj x) type')).setBody c (.request creq) from rfl,
      State.setBody_of_ne _ hsc, State.setReq, State.setBody_self, hsreq]
    rfl
  refine ⟨⟨_, getReq_eq hself, rfl, rfl, rfl, ?_, ?_⟩, ?_⟩
  · intro htype
    obtain ⟨rfl, hx⟩ := hport htype
    refine ⟨rfl, x, rfl, ?_⟩
    rw [State.getUportReq, hother x hxs hxc]
    exact hx
  · intro htype
    obtain ⟨rfl, hx⟩ := hconn htype
    refine ⟨rfl, x, rfl, ?_⟩
    rw [State.getCookie, hother x hxs hxc]
    exact hx
  · rw [State.getIncoming, hother q hqs hqc]
    exact hq

theorem Initialised.congr {s' : State} {type : ReqType} {client : ℕ} {r : Request}
    (h : Initialised s type client r) (hcur : s'.current = s.current) (hobjs : s'.objs = s.objs) :
    Initialised s' type client r := by
  refine ⟨h.owner.trans hcur.symm, h.rops, h.waitedRw, ?_, ?_⟩
  · intro hport
    obtain ⟨ht, x, hx, hu⟩ := h.connection hport
    exact ⟨ht, x, hx, by rw [State.getUportReq, hobjs]; exact hu⟩
  · intro hconn
    obtain ⟨ht, x, hx, hc⟩ := h.cookie hconn
    exact ⟨ht, x, hx, by rw [State.getCookie, hobjs, hcur]; exact hc⟩

/-- The message leaves its queue, and its memory goes with its pages. -/
theorem retired_objs (hpools : PoolsOk s) (pool : ℕ) {q m : ℕ} {msg : Message} {rest : List ℕ}
    (hm : s.getMsg m = .ok msg) (hnext : msg.next = some q)
    (hq : s.getIncoming q = .ok (m :: rest)) :
    Safely AnyFault (fun s₁ => Safely AnyFault (fun s₂ => Safely AnyFault (fun s₃ => PoolsOk s₃ ∧
      s₃.current = s.current ∧ (∀ b, b ≠ m → b ≠ q → s₃.objs b = s.objs b) ∧
        s₃.getIncoming q = .ok rest) (s₂.free pool m)) (freePayload s₁ msg.plh)) (unqueue s m) := by
  obtain ⟨pm, hmobj⟩ := getMsg_ok hm
  obtain ⟨pq, bq, hqobj, -, hqmsg, -⟩ := incoming_obj hq
  have hqm := objs_ne hqobj hmobj (hqmsg _)
  refine (((Woken.refl s).unqueue m).and ((unqueue_objs hm hnext hq).and
    (Tally.Holds.unqueue (T := PoolsOk.tally) (d := 0) hpools m))).mono ?_
  rintro s₁ ⟨hw₁, ⟨hq₁, hobjs₁⟩, hp₁⟩
  have hp₁ : PoolsOk s₁ := hp₁
  rw [List.erase_cons_head] at hq₁
  refine (freePayload_objs (s := s₁) msg.plh).mono ?_
  rintro s₂ ⟨mm, rfl⟩
  refine ((PoolsOk.free (hp₁.setMm mm) pool m).and (free_objs (s₁.setMm mm) pool m)).mono ?_
  rintro s₃ ⟨hp₃, hcur₃, -, hobjs₃⟩
  have hobjs₃ : s₃.objs = Function.update s₁.objs m none := hobjs₃
  refine ⟨hp₃, hcur₃.trans hw₁.current, ?_, ?_⟩
  · intro b hbm hbq
    rw [hobjs₃, Function.update_of_ne hbm, hobjs₁ b hbm hbq]
  · rw [State.getIncoming, hobjs₃, Function.update_of_ne hqm]
    exact hq₁

/-- The last part of `pop_request`, with the blank object `sreq` for the new handle. -/
theorem acceptMessage_taken (hpools : PoolsOk s) (type : ReqType) {q m sreq pool : ℕ}
    {msg : Message}
    {rest : List ℕ} (hm : s.getMsg m = .ok msg) (hnext : msg.next = some q)
    (hq : s.getIncoming q = .ok (m :: rest)) (hsreq : s.objs sreq = some ⟨pool, .blank⟩) :
    Safely AnyFault (fun s' => (∃ r, s'.getReq sreq = .ok r ∧ Initialised s' type msg.clientReq r) ∧
      s'.getIncoming q = .ok rest) (acceptMessage s type m msg sreq) := by
  simp only [acceptMessage, safely_bind]
  apply reads_eq
  intro client hclient
  apply reads
  intro clientTask
  obtain ⟨pm, hmobj⟩ := getMsg_ok hm
  obtain ⟨pc, hcobj⟩ := getReq_ok hclient
  obtain ⟨pq, bq, hqobj, hqreq, -, hqblank⟩ := incoming_obj hq
  have hcm := objs_ne hcobj hmobj (by simp)
  have hcq := objs_ne hqobj hcobj (hqreq _)
  have hsm := objs_ne hsreq hmobj (by simp)
  have hsq := objs_ne hqobj hsreq hqblank
  have hsc := objs_ne hsreq hcobj (by simp)
  refine (retired_objs hpools clientTask.filePool hm hnext hq).mono ?_
  intro s₁ h₁
  refine h₁.mono ?_
  intro s₂ h₂
  refine h₂.mono ?_
  rintro s₃ ⟨hp₃, hcur₃, hkeep, hq₃⟩
  apply reads
  intro tk
  refine (alloc_objs hp₃ tk.filePool).mono ?_
  rintro ⟨x, s₄⟩ ⟨hnew, -, hcur₄, -, hobjs₄⟩
  dsimp only at hnew hcur₄ hobjs₄
  -- the new object is none of those in use
  have hnone : ∀ b o, s₃.objs b = some o → b ≠ x := by
    rintro b o hb rfl
    rw [hnew] at hb
    cases hb
  have hsx := hnone sreq _ ((hkeep sreq hsm hsq.symm).trans hsreq)
  have hcx := hnone _ _ ((hkeep _ hcm hcq.symm).trans hcobj)
  have hqx : q ≠ x := by
    rintro rfl
    rw [State.getIncoming, hnew] at hq₃
    cases hq₃
  have hsreq₄ : s₄.objs sreq = some ⟨pool, .blank⟩ := by
    rw [hobjs₄, Function.update_of_ne hsx, hkeep sreq hsm hsq.symm, hsreq]
  have hq₄ : s₄.getIncoming q = .ok rest := by
    rw [State.getIncoming, hobjs₄, Function.update_of_ne hqx]
    exact hq₃
  have hx₄ : s₄.objs x = some ⟨tk.filePool, .blank⟩ := by rw [hobjs₄, Function.update_self]
  refine Safely.mono (Q := fun s₅ => s₅.current = s.current ∧
    (∃ r, s₅.getReq sreq = .ok r ∧ Initialised s₅ type msg.clientReq r) ∧
      s₅.getIncoming q = .ok rest) ?_ ?_
  · have hbody : ∀ (body : Body) b, b ≠ x → (s₄.setBody x body).objs b = s₄.objs b :=
      fun body b hb => State.setBody_of_ne s₄ hb body
    split
    · rename_i hport
      simp only [safely_bind, safely_pure]
      have hu : (s₄.setBody x (.uportReq ⟨[], []⟩)).getUportReq x = .ok ⟨[], []⟩ := by
        rw [State.getUportReq, State.setBody_self, hx₄]
        rfl
      refine (linkReq_objs hu hcx).mono ?_
      rintro s₆ ⟨hcur₆, hx₆, hother₆⟩
      apply reads
      intro creq
      refine ⟨hcur₆.trans (hcur₄.trans hcur₃), ?_⟩
      refine serverReq_initialised (p := pool) ?_ ?_ hsc hsq hcq hsx.symm hcx.symm
        (fun _ => ⟨rfl, hx₆⟩) ?_
      · rw [hother₆ sreq hsc hsx, hbody _ _ hsx, hsreq₄]
      · rw [State.getIncoming, hother₆ q hcq hqx, hbody _ _ hqx]
        exact hq₄
      · intro hconn
        rw [hport] at hconn
        cases hconn
    · rename_i hport
      simp only [safely_bind, safely_pure]
      apply reads
      intro creq
      refine ⟨hcur₄.trans hcur₃, ?_⟩
      refine serverReq_initialised (p := pool) ?_ ?_ hsc hsq hcq hsx.symm hcx.symm
        (fun h => absurd h hport) (fun _ => ⟨rfl, ?_⟩)
      · rw [hbody _ _ hsx, hsreq₄]
      · rw [State.getIncoming, hbody _ _ hqx]
        exact hq₄
      · rw [State.getCookie, State.setBody_self, hx₄]
        rfl
  · rintro s₅ ⟨hcur₅, ⟨r, hr, hinit⟩, hq₅⟩
    apply reads
    intro creq
    refine (((Woken.refl s₅).notify creq _).and (notify_objs creq _)).mono ?_
    rintro s' ⟨hw, hobjs'⟩
    refine ⟨⟨r, ?_, hinit.congr hw.current hobjs'⟩, ?_⟩
    · rw [State.getReq, hobjs']
      exact hr
    · rw [State.getIncoming, hobjs']
      exact hq₅

/-! ## `pop_request` -/

/-- A call has no number for the handle, or it takes one and keeps it, also where it fails. -/
theorem popMessage_cases (hpools : PoolsOk s) {tk : Task} (hcur : s.cur = .ok tk) {type : ReqType}
    {q m buf : ℕ} {msg : Message} {rest : List ℕ} (hm : s.getMsg m = .ok msg)
    (hnext : msg.next = some q) (hq : s.getIncoming q = .ok (m :: rest)) :
    Safely AnyFault (fun x => (none ∉ tk.fds ∧ x.1 < 0) ∨ ∃ fd a tk', tk.fds[fd]? = some none ∧
      x.2.cur = .ok tk' ∧ tk'.fds = tk.fds.set fd (some a) ∧ (0 ≤ x.1 → x.1 = (fd : ℤ) ∧
        (∃ r, x.2.getReq a = .ok r ∧ Initialised x.2 type msg.clientReq r) ∧
          x.2.getIncoming q = .ok rest)) (popMessage s type m buf) := by
  have htask : s.task s.current = some tk := getTask_ok hcur
  simp only [popMessage, hcur, ok_bind, safely_bind]
  refine (alloc_objs hpools tk.filePool).mono ?_
  rintro ⟨a, s₁⟩ ⟨hnew, hp₁, hcur₁, htask₁, hobjs₁⟩
  dsimp only at hcur₁ htask₁ hobjs₁ ⊢
  split
  · rename_i hfull
    exact .inl ⟨fdtableInsert_eq_none.1 hfull, show (-EMFILE : ℤ) < 0 by decide⟩
  rename_i fd fds hins
  obtain ⟨hslot, rfl⟩ := fdtableInsert_eq hins
  obtain ⟨s₂, hs₂⟩ : ∃ s₂, s₂ = s₁.setFds (tk.fds.set fd (some a)) := ⟨_, rfl⟩
  have htk₂ : s₂.task s₂.current = some { tk with fds := tk.fds.set fd (some a) } ∧
      s₂.objs = s₁.objs ∧ s₂.pools = s₁.pools ∧ s₂.nextObj = s₁.nextObj := by
    have htk₁ : s₁.task s₁.current = some tk := by rw [htask₁, hcur₁, htask]
    rw [hs₂, State.setFds, htk₁]
    exact ⟨State.setTask_self .., rfl, rfl, rfl⟩
  obtain ⟨htk₂, hobjs₂, hpools₂, hnext₂⟩ := htk₂
  have hp₂ : PoolsOk s₂ := hp₁.same (fun b => by rw [hobjs₂]) hpools₂ hnext₂
  rw [← hs₂]
  simp only [safely_bind]
  apply reads_eq
  intro msg' hmsg'
  have hma : m ≠ a := by
    rintro rfl
    obtain ⟨p, hobj⟩ := getMsg_ok hm
    rw [hnew] at hobj
    cases hobj
  have hqa : q ≠ a := by
    rintro rfl
    rw [State.getIncoming, hnew] at hq
    cases hq
  have hkeep : ∀ b, b ≠ a → s₂.objs b = s.objs b := by
    intro b hb
    rw [hobjs₂, hobjs₁, Function.update_of_ne hb]
  have hm₂ : s₂.getMsg m = .ok msg := by rw [State.getMsg, hkeep m hma]; exact hm
  have hq₂ : s₂.getIncoming q = .ok (m :: rest) := by rw [State.getIncoming, hkeep q hqa]; exact hq
  have ha₂ : s₂.objs a = some ⟨tk.filePool, .blank⟩ := by rw [hobjs₂, hobjs₁, Function.update_self]
  rw [hm₂, Except.ok.injEq] at hmsg'
  subst hmsg'
  -- from here on the table of handles stays
  have hexit : ∀ (s' : State) (v : ℤ), Woken s₂ s' → v < 0 →
      ∃ fd' a' tk', tk.fds[fd']? = some none ∧ s'.cur = .ok tk' ∧
        tk'.fds = tk.fds.set fd' (some a') ∧ (0 ≤ v → v = (fd' : ℤ) ∧
          (∃ r, s'.getReq a' = .ok r ∧ Initialised s' type msg.clientReq r) ∧
            s'.getIncoming q = .ok rest) := by
    intro s' v hw hneg
    obtain ⟨tk', htk', hfds, -⟩ := hw.fds htk₂
    exact ⟨fd, a, tk', hslot, getTask_eq (hw.current ▸ htk'), hfds, fun hpos =>
      absurd hneg (not_lt.2 hpos)⟩
  refine Safely.mono (Q := fun y => ∃ mm, y.2 = s₂.setMm mm) ?_ ?_
  · split
    · simp only [safely_bind, safely_pure]
      refine (runMm_reads _ _).mono ?_
      rintro ⟨vaddr, s₃⟩ ⟨mm, -, rfl⟩
      exact reads fun _ => ⟨mm, rfl⟩
    · exact ⟨s₂.mm, rfl⟩
  rintro ⟨⟨vaddr, len⟩, s₃⟩ ⟨mm, rfl⟩
  have hw₃ : Woken s₂ (s₂.setMm mm) := (Woken.refl s₂).setMm mm
  dsimp only
  split
  · rename_i hneg
    exact .inr (hexit _ vaddr hw₃ hneg)
  simp only [safely_bind]
  apply reads
  intro client
  apply reads
  intro clientTask
  refine (runMm_reads _ _).mono ?_
  rintro ⟨ret, s₄⟩ ⟨mm', -, rfl⟩
  have hw₄ : Woken s₂ ((s₂.setMm mm).setMm mm') := hw₃.setMm mm'
  dsimp only
  split
  · simp only [safely_bind, safely_pure]
    exact (hw₄.execMm _).mono fun s₅ hw₅ => .inr (hexit s₅ (-EFAULT) hw₅ (by decide))
  · simp only [safely_bind, safely_pure]
    refine ((hw₄.acceptMessage type m msg a).and (acceptMessage_taken (s := (s₂.setMm mm).setMm mm')
      ((hp₂.setMm mm).setMm mm') type hm₂ hnext hq₂ ha₂)).mono ?_
    rintro s₅ ⟨hw₅, hinit, hq₅⟩
    obtain ⟨tk', htk', hfds, -⟩ := hw₅.fds htk₂
    exact .inr ⟨fd, a, tk', hslot, getTask_eq (hw₅.current ▸ htk'), hfds,
      fun _ => ⟨rfl, hinit, hq₅⟩⟩

end

/-- The same for the system call. -/
theorem popRequest_cases {s : State} (hpools : PoolsOk s) {tk : Task} {rd : ℤ} {r : Request}
    {q m : ℕ} {msg : Message} {rest : List ℕ} (h : Waiting s tk rd r q m msg rest) (buf : ℕ) :
    Safely AnyFault (fun x => (none ∉ tk.fds ∧ x.1 < 0) ∨ ∃ fd a tk', tk.fds[fd]? = some none ∧
      x.2.cur = .ok tk' ∧ tk'.fds = tk.fds.set fd (some a) ∧ (0 ≤ x.1 → x.1 = (fd : ℤ) ∧
        (∃ r', x.2.getReq a = .ok r' ∧ Initialised x.2 r.type msg.clientReq r') ∧
          x.2.getIncoming q = .ok rest)) (popRequest s rd buf) := by
  obtain ⟨b, hb, hr⟩ := h.handle
  apply locked_rule (P := fun (v : ℤ) s' => (none ∉ tk.fds ∧ v < 0) ∨
    ∃ fd a tk', tk.fds[fd]? = some none ∧ s'.cur = .ok tk' ∧ tk'.fds = tk.fds.set fd (some a) ∧
      (0 ≤ v → v = (fd : ℤ) ∧
        (∃ r', s'.getReq a = .ok r' ∧ Initialised s' r.type msg.clientReq r') ∧
        s'.getIncoming q = .ok rest))
  · rintro v s' mm (hx | ⟨fd, a, tk', hslot, hcur, hfds, hdone⟩)
    · exact .inl hx
    · refine .inr ⟨fd, a, tk', hslot, hcur, hfds, fun hpos => ?_⟩
      obtain ⟨hv, ⟨r', hr', hinit⟩, hq⟩ := hdone hpos
      exact ⟨hv, ⟨r', hr', hinit.owner, hinit.rops, hinit.waitedRw, hinit.connection,
        hinit.cookie⟩, hq⟩
  have hcur' : (disableInterrupts s).cur = .ok tk := h.cur
  have hr' : (disableInterrupts s).getReq b = .ok r := hr
  have hq' : (disableInterrupts s).getIncoming q = .ok (m :: rest) := h.queue
  have htest : ¬(r.type ≠ .port ∧ r.type ≠ .portReq) := by
    rcases h.type with ht | ht <;> simp [ht]
  simp only [hcur', hb, hr', htest, h.data, Data.ptr, hq', safely_bind, safely_ok, if_false]
  exact popMessage_cases (hpools.setMm _) hcur' h.message h.next hq'

/-! ## What fails -/

section

variable {s : State} {m buf : ℕ} {msg : Message}

theorem payloadFails_iff (hm : s.getMsg m = .ok msg) :
    PayloadFails s msg ↔ MessageLacksRoom s m := by
  constructor
  · rintro ⟨plh, v, mm, hplh, hmap, hneg⟩
    refine ⟨msg, hm, plh, hplh, ?_⟩
    rcases (Mm.mapToUser_cases _ plh).of_ok hmap with ⟨-, hlack⟩ | ⟨hpos, -⟩
    · exact hlack
    · exact absurd hneg (not_lt.2 hpos)
  · rintro ⟨msg', hm', plh, hplh, hlack⟩
    rw [hm, Except.ok.injEq] at hm'
    subst hm'
    have hlack' : Mm.PlistLacksRoom (disableInterrupts s).mm
      (disableInterrupts s).mm.current plh := hlack
    exact ⟨plh, _, _, hplh, Mm.mapToUser_of_lacksRoom hlack', by decide⟩

/-- The buffer is tested with the VMA of the payload in place. -/
theorem validateRange_mapped (hm : s.getMsg m = .ok msg) (hroom : ¬MessageLacksRoom s m)
    {mm : Mm.State}
    (h : Mapped s msg mm) : Mm.validateRange mm buf 24 = .ok false ↔ BadBuffer s msg buf := by
  unfold Mapped at h
  unfold BadBuffer vmasWith
  cases hplh : msg.plh with
  | none =>
    rw [hplh] at h
    dsimp only at h ⊢
    rw [h]
    change Mm.validateRange s.mm buf 24 = .ok false ↔ _
    cases hsp : s.mm.spaces s.mm.current with
    | none => simp [Mm.validateRange, Mm.State.getSpace, hsp]
    | some sp => simp [Mm.validateRange, Mm.getSpace_eq hsp]
  | some plh =>
    rw [hplh] at h
    dsimp only at h ⊢
    obtain ⟨v, hmap⟩ := h
    have hroom' : ¬Mm.PlistLacksRoom (disableInterrupts s).mm
      (disableInterrupts s).mm.current plh :=
      fun hlack => hroom ⟨msg, hm, plh, hplh, hlack⟩
    obtain ⟨head, sp, s₁, hhead, hsp, hcur₁, hframe, hsp₁⟩ :=
      (Mm.mapToUser_filled hroom').of_ok hmap
    have hhead : s.mm.getPlist plh = .ok head := hhead
    have hsp : s.mm.spaces s.mm.current = some sp := hsp
    dsimp only at hframe
    rw [Mm.validateRange_of_frame hframe, Mm.validateRange, hcur₁, Mm.getSpace_eq hsp₁, hsp]
    simp [hhead]

theorem writeFails_iff (hm : s.getMsg m = .ok msg) (hroom : ¬MessageLacksRoom s m) :
    WriteFails s msg buf ↔ Maps s msg ∧ BadBuffer s msg buf := by
  have hmaps : Maps s msg ↔ ∃ mm, Mapped s msg mm := by
    unfold Maps Mapped
    cases hplh : msg.plh with
    | none => simp
    | some plh =>
      simp only [Option.some.injEq, forall_eq']
      exact ⟨fun ⟨⟨v, mm⟩, h⟩ => ⟨mm, v, h⟩, fun ⟨mm, v, h⟩ => ⟨(v, mm), h⟩⟩
  constructor
  · rintro ⟨mm, hmapped, hfails⟩
    refine ⟨hmaps.2 ⟨mm, hmapped⟩, ?_⟩
    rw [← validateRange_mapped hm hroom hmapped]
    exact (Mm.copyToUserSimple_fails_iff (by decide)).1 hfails
  · rintro ⟨hreturns, hbad⟩
    obtain ⟨mm, hmapped⟩ := hmaps.1 hreturns
    refine ⟨mm, hmapped, (Mm.copyToUserSimple_fails_iff (by decide)).2 ?_⟩
    exact (validateRange_mapped hm hroom hmapped).2 hbad

theorem fails_iff {tk : Task} (hm : s.getMsg m = .ok msg) :
    Fails s tk msg buf ↔ Doomed s tk m msg buf := by
  rw [Fails, Doomed, payloadFails_iff hm]
  by_cases hroom : MessageLacksRoom s m
  · simp only [hroom, true_or]
  · rw [writeFails_iff hm hroom]

end

/-- **`pop_request` is all or nothing** exactly where nothing fails once it has a number for
the handle, because it keeps the number. -/
theorem allOrNothing_iff {s : State} (hpools : PoolsOk s) {tk : Task} {rd : ℤ} {r : Request}
    {q m : ℕ} {msg : Message} {rest : List ℕ} (h : Waiting s tk rd r q m msg rest) (buf : ℕ) :
    AllOrNothing s tk rd r q m msg rest buf ↔ ¬Doomed s tk m msg buf := by
  rw [← fails_iff h.message]
  constructor
  · rintro ⟨hclean, -⟩ hfails
    obtain ⟨ret, s', hret, -, hsame⟩ := hclean hfails
    obtain ⟨tk', htk', hfds⟩ := hsame.fds
    rcases (popRequest_cases hpools h buf).of_ok hret with ⟨hfull, -⟩ |
      ⟨fd, a, tk₁, hslot, htk₁, hset, -⟩
    · exact hfull hfails.1
    · rw [htk', Except.ok.injEq] at htk₁
      rw [← htk₁, hfds] at hset
      -- the entry was free, and the table has not changed
      have hlt := (List.getElem?_eq_some_iff.1 hslot).1
      have htaken := List.getElem?_set_self (a := some a) hlt
      rw [← hset, hslot] at htaken
      cases htaken
  · intro hno
    refine ⟨fun hfails => absurd hfails hno, ?_⟩
    intro ret s' hret hpos
    rcases (popRequest_cases hpools h buf).of_ok hret with ⟨-, hneg⟩ |
      ⟨fd, a, tk', hslot, htk', hset, hdone⟩
    · exact absurd hneg (not_lt.2 hpos)
    · obtain ⟨hfd, ⟨r', hr', hinit⟩, hq⟩ := hdone hpos
      dsimp only at hfd hset htk'
      refine ⟨⟨tk', a, r', htk', ?_, hr', hinit⟩, rest, hq, h.once⟩
      rw [hfd, Int.toNat_natCast, hset,
        List.getElem?_set_self (List.getElem?_eq_some_iff.1 hslot).1]

/-- The connection of the init task to itself waits at the port.  The buffer is not mapped. -/
theorem connectSelf_waiting : ∃ s tk r msg, run (bootWith []) connectSelf = .ok s ∧
    Waiting s tk 0 r 1 3 msg [] ∧ Fails s tk msg 0 ∧
      ∃ x, popRequest s 0 0 = .ok x ∧ ∀ tk', x.2.cur = .ok tk' → tk'.fds ≠ tk.fds := by
  have hrun : (run (bootWith []) connectSelf).toOption.bind (fun s =>
      s.cur.toOption.bind fun tk => (handleAt tk 0).toOption.bind fun f =>
        f.bind fun a => (s.getReq a).toOption.bind fun r => (s.getIncoming 1).toOption.bind fun l =>
          (s.getMsg 3).toOption.bind fun msg => (popRequest s 0 0).toOption.bind fun x =>
            x.2.cur.toOption.bind fun tk' =>
              (Mm.validateRange (disableInterrupts s).mm 0 24).toOption.map fun b =>
                (decide (r.type = .port ∧ r.data = .obj 1 ∧ l = [3]),
                  decide (msg.next = some 1 ∧ msg.plh = none),
                  decide (none ∈ tk.fds ∧ tk'.fds ≠ tk.fds), b)) =
                    some (true, true, true, false) := by
    decide +kernel
  obtain ⟨s, hs, hrun⟩ := exists_of_bind hrun
  obtain ⟨tk, htk, hrun⟩ := exists_of_bind hrun
  obtain ⟨f, hf, hrun⟩ := exists_of_bind hrun
  obtain ⟨a, rfl, hrun⟩ := Option.bind_eq_some_iff.1 hrun
  obtain ⟨r, hr, hrun⟩ := exists_of_bind hrun
  obtain ⟨l, hl, hrun⟩ := exists_of_bind hrun
  obtain ⟨msg, hmsg, hrun⟩ := exists_of_bind hrun
  obtain ⟨x, hx, hrun⟩ := exists_of_bind hrun
  obtain ⟨tk', htk', hrun⟩ := exists_of_bind hrun
  cases hvalid : Mm.validateRange (disableInterrupts s).mm 0 24 with
  | error e =>
    rw [hvalid] at hrun
    cases hrun
  | ok b =>
    rw [hvalid] at hrun
    simp only [Except.toOption, Option.map_some, Option.some.injEq, Prod.mk.injEq,
      decide_eq_true_eq] at hrun
    obtain ⟨⟨htype, hdata, rfl⟩, ⟨hnext, hplh⟩, ⟨hfree, hne⟩, rfl⟩ := hrun
    refine ⟨s, tk, r, msg, hs, ⟨htk, ⟨a, hf, hr⟩, .inl htype, hdata, hl, hmsg, hnext, by simp⟩,
      ⟨hfree, .inr ⟨(disableInterrupts s).mm, ?_, ?_⟩⟩, x, hx, ?_⟩
    · simp only [Mapped, hplh]
    · exact (Mm.copyToUserSimple_fails_iff (by decide)).2 hvalid
    · intro tk₁ htk₁
      rw [htk', Except.ok.injEq] at htk₁
      exact htk₁ ▸ hne

/-- The property fails for the buffer that is not mapped. -/
theorem allOrNothing_iff_port : ∃ s tk r msg, run (bootWith []) connectSelf = .ok s ∧
    (AllOrNothing s tk 0 r 1 3 msg [] 0 ↔ ¬Doomed s tk 3 msg 0) := by
  obtain ⟨s, tk, r, msg, hs, hwaiting, -⟩ := connectSelf_waiting
  exact ⟨s, tk, r, msg, hs, allOrNothing_iff (poolsOk_run _ _ _ _ _ hs) hwaiting 0⟩

/-- The number for the handle is not given back. -/
theorem allOrNothing_fails : ¬∀ (free : List ℕ) (l : List Action) (s : State),
    run (bootWith free) l = .ok s → ∀ tk rd r q m msg rest buf, Waiting s tk rd r q m msg rest →
      AllOrNothing s tk rd r q m msg rest buf := by
  intro hall
  obtain ⟨s, tk, r, msg, hs, hwaiting, hfails, x, hx, hne⟩ := connectSelf_waiting
  obtain ⟨ret, s', hret, -, hsame⟩ := (hall [] _ s hs tk 0 r 1 3 msg [] 0 hwaiting).1 hfails
  obtain ⟨tk', htk', hfds⟩ := hsame.fds
  rw [hx, Except.ok.injEq] at hret
  rw [hret] at hne
  exact hne tk' htk' hfds

end SadOS.Kernel
