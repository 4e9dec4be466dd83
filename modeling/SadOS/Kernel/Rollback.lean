import SadOS.Kernel.Pools
import SadOS.Kernel.Tables

/-!
# Calls of clients that fail

`port_connect` and `request` make an object and a number for it before they call the
operation behind the port or the connection, and take both back if that fails.
`port_connect` gives the new handle back to the pool.  `request` gives back the connection,
which stays in the table, and leaves the new cookie in use.

## Main definitions

* `Intact` — what a call that fails must leave as it was.
* `CallsOps` — a request that gets as far as the operation of the connection.
* `Unchanged`, `Holding` — the state with the roll-back behind it and ahead of it.

## Main results

* `portConnect_unchanged` — the roll-back of `port_connect`.
* `request_unchanged`, `request_freed` — that of `request`.
* `rollback_iff` — which calls that fail leave everything as it was.
-/

namespace SadOS.Kernel

open Mm (fdtableInsert)

/-- After a call that failed, the caller has its table, each handle in it is as it was, and
so are the messages that wait at ports and connections and the objects in use of its pool. -/
structure Intact (s s' : State) : Prop where
  files : ∀ tk, s.task s.current = some tk → ∃ tk', s'.task s.current = some tk' ∧
    tk'.fds = tk.fds ∧ tk'.filePool = tk.filePool
  handles : ∀ tk, s.task s.current = some tk → ∀ a, some a ∈ tk.fds → s'.objs a = s.objs a
  queues : ∀ q, s'.getIncoming q = s.getIncoming q
  live : ∀ tk, s.task s.current = some tk → ∀ a,
    (∃ b, s'.objs a = some ⟨tk.filePool, b⟩) ↔ ∃ b, s.objs a = some ⟨tk.filePool, b⟩

/-- The two calls. -/
def Call.IsClient : Call → Prop
  | .portConnect _ _ _ => True
  | .request _ _ _ => True
  | _ => False

/-- The call is a `request` that passes all tests, with a number left for its cookie, so that
it calls the operation of the connection. -/
def CallsOps (s : State) : Call → Prop
  | .request rd len buf => ∃ tk a p r ops, s.task s.current = some tk ∧
      handleAt tk rd = .ok (some a) ∧ s.objs a = some ⟨p, .request r⟩ ∧ r.type = .request ∧
      r.rops = some ops ∧ ops.hasRequest = true ∧
      validBuffer s len.toNat buf.toNat = .ok true ∧ none ∈ tk.fds
  | _ => False

/-! ## The table -/

/-- The entry that `fdtable_insert` fills was free. -/
theorem fdtableInsert_eq {d fd : ℕ} {tab tab' : FdTable}
    (h : fdtableInsert d tab = some (fd, tab')) :
    tab[fd]? = some none ∧ tab' = tab.set fd (some d) := by
  obtain ⟨hfree, hget⟩ := Mm.fdtableInsert_get h
  refine ⟨hfree, ?_⟩
  ext1 i
  rw [hget, List.getElem?_set]
  have hlt : fd < tab.length := (List.getElem?_eq_some_iff.1 hfree).1
  by_cases hi : i = fd
  · rw [if_pos hi, if_pos hi.symm, if_pos hlt]
  · rw [if_neg hi, if_neg (Ne.symm hi)]

/-! ## The roll-back -/

/-- The tasks and the objects are as they were. -/
structure Unchanged (s s' : State) : Prop where
  current : s'.current = s.current
  task : s'.task = s.task
  objs : s'.objs = s.objs

theorem Unchanged.intact {s s' : State} (h : Unchanged s s') : Intact s s' where
  files tk htk := ⟨tk, by rw [h.task, htk], rfl, rfl⟩
  handles _ _ a _ := by rw [h.objs]
  queues q := by rw [State.getIncoming, State.getIncoming, h.objs]
  live _ _ a := by rw [h.objs]

/-- The current task has got the handle `a`, at the number `fd`; whatever has happened to
`a`, nothing has happened to other objects. -/
structure Holding (s : State) (tk : Task) (a fd : ℕ) (s' : State) : Prop where
  current : s'.current = s.current
  task : s'.task = Function.update s.task s.current
    (some { tk with fds := tk.fds.set fd (some a) })
  objs : ∀ b, b ≠ a → s'.objs b = s.objs b

section Rollback

variable {s s' : State} {tk : Task} {a fd : ℕ}

theorem Unchanged.refl (s : State) : Unchanged s s := ⟨rfl, rfl, rfl⟩

theorem Unchanged.setMm (h : Unchanged s s') (m : Mm.State) : Unchanged s (s'.setMm m) :=
  ⟨h.current, h.task, h.objs⟩

theorem Holding.setMm (h : Holding s tk a fd s') (m : Mm.State) : Holding s tk a fd (s'.setMm m) :=
  ⟨h.current, h.task, h.objs⟩

theorem Holding.setReq (h : Holding s tk a fd s') (r : Request) :
    Holding s tk a fd (s'.setReq a r) where
  current := h.current
  task := h.task
  objs b hb := by rw [State.setReq, State.setBody_of_ne _ hb, h.objs b hb]

/-- A freed object is not in use. -/
theorem free_objs (s : State) (pool a : ℕ) :
    Safely AnyFault (fun s' => s'.current = s.current ∧ s'.task = s.task ∧
      s'.objs = Function.update s.objs a none) (s.free pool a) := by
  unfold State.free
  split
  · exact ⟨rfl, rfl, rfl⟩
  · trivial

theorem freeReq_objs (s : State) (a : ℕ) :
    Safely AnyFault (fun s' => s'.current = s.current ∧ s'.task = s.task ∧
      s'.objs = Function.update s.objs a none) (freeReq s a) := by
  simp only [freeReq, safely_bind]
  apply reads
  intro tk
  exact free_objs s _ a

theorem clearFd_objs (s : State) (fd : ℕ) :
    Safely AnyFault (fun s' => s'.objs = s.objs) (clearFd s fd) := by
  simp only [clearFd, safely_bind, safely_pure]
  apply reads
  intro tk
  exact (setFds_rest s _).2.2

/-- `port_connect` takes back what it has done. -/
theorem Holding.rollBack (h : Holding s tk a fd s') (htk : s.task s.current = some tk)
    (hfree : tk.fds[fd]? = some none) (hnew : s.objs a = none) :
    Safely AnyFault (fun s₁ => Safely AnyFault (Unchanged s) (clearFd s₁ fd)) (freeReq s' a) := by
  apply (freeReq_objs s' a).mono
  rintro s₁ ⟨hcur, htask, hobjs⟩
  have hcur₁ : s₁.current = s.current := hcur.trans h.current
  have htask₁ : s₁.task s₁.current = some { tk with fds := tk.fds.set fd (some a) } := by
    rw [hcur₁, htask, h.task, Function.update_self]
  have hfds : (tk.fds.set fd (some a)).set fd none = tk.fds := by
    rw [List.set_set]
    obtain ⟨hlt, hget⟩ := List.getElem?_eq_some_iff.1 hfree
    rw [← hget, List.set_getElem_self]
  have hcleared : clearFd s₁ fd = .ok (s₁.setTask s.current tk) := by
    simp only [clearFd, State.cur, State.getTask, htask₁, ok_bind, pure_eq_ok, State.setFds, hfds]
    rw [hcur₁]
  rw [hcleared]
  constructor
  · exact hcur₁
  · rw [State.setTask, htask, h.task, Function.update_idem, ← htk, Function.update_eq_self]
  · change s₁.objs = s.objs
    rw [hobjs]
    funext b
    by_cases hb : b = a
    · rw [hb, Function.update_self, hnew]
    · rw [Function.update_of_ne hb, h.objs b hb]

/-- What stands between `disable_interrupts` and `enable_interrupts`. -/
theorem locked_rule {α : Type} {P : α → State → Prop} {f : State → Except Fault (α × State)}
    (hP : ∀ a s m, P a s → P a (s.setMm m))
    (hf : Safely AnyFault (fun r => P r.1 r.2) (f (disableInterrupts s))) :
    Safely AnyFault (fun r => P r.1 r.2) (locked s f) := by
  simp only [locked, safely_bind, safely_pure]
  apply hf.mono
  intro r hr
  unfold enableInterrupts State.execMm
  split
  · exact hP _ _ _ hr
  · trivial

end Rollback

/-! ## `port_connect` -/

section Connect

variable {s : State} {tk : Task}

/-- A computation of the memory manager changes nothing else. -/
theorem runMm_setMm {α : Type} (s : State) (x : Except SadOS.Fault (α × Mm.State)) :
    Safely AnyFault (fun r => ∃ m, r.2 = s.setMm m) (s.runMm x) := by
  unfold State.runMm
  split
  · exact ⟨_, rfl⟩
  · trivial

theorem mapPayload_setMm (s : State) (len buf : ℕ) :
    Safely AnyFault (fun r => ∃ m, r.2 = s.setMm m) (mapPayload s len buf) := by
  unfold mapPayload
  split
  · simp only [safely_bind]
    apply (runMm_setMm s _).mono
    rintro ⟨plh, s₁⟩ h₁
    cases plh <;> exact h₁
  · exact ⟨s.mm, rfl⟩

variable {s' : State} {a fd : ℕ}

theorem Holding.uportConnect (h : Holding s tk a fd s') (n len buf : ℕ) :
    Safely AnyFault (fun r => r.1 ≠ 0 → Holding s tk a fd r.2) (uportConnect s' n a len buf) := by
  simp only [Kernel.uportConnect, safely_bind]
  apply (mapPayload_setMm s' len buf).mono
  rintro ⟨plh, s₁⟩ ⟨m, rfl⟩
  cases plh with
  | none => exact fun _ => h.setMm m
  | some plh =>
    -- from here on it returns 0
    simp only [safely_bind]
    apply reads
    intro r
    split
    · trivial
    simp only [safely_bind, safely_pure]
    exact reads fun _ => reads fun _ => reads fun _ => reads fun _ => reads fun _ hne =>
      absurd rfl hne

theorem Holding.memPortRequest (h : Holding s tk a fd s') (len buf : ℕ) :
    Safely AnyFault (fun r => r.1 ≠ 0 → Holding s tk a fd r.2) (memPortRequest s' a len buf) := by
  simp only [Kernel.memPortRequest, safely_bind]
  apply (runMm_setMm s' _).mono
  rintro ⟨⟨ret, md⟩, s₁⟩ ⟨m, rfl⟩
  cases md with
  | none => exact fun _ => h.setMm m
  | some md =>
    simp only [safely_bind, safely_pure]
    apply reads
    intro r _
    exact (h.setMm m).setReq _

theorem Holding.intPortConnect (h : Holding s tk a fd s') (len buf : ℕ) :
    Safely AnyFault (fun r => r.1 ≠ 0 → Holding s tk a fd r.2) (intPortConnect s' a len buf) := by
  unfold Kernel.intPortConnect
  split
  · exact fun _ => h
  simp only [safely_bind]
  apply (runMm_setMm s' _).mono
  rintro ⟨⟨ret, bytes⟩, s₁⟩ ⟨m, rfl⟩
  dsimp only
  split
  · exact fun _ => h.setMm m
  split
  · exact fun _ => h.setMm m
  simp only [safely_bind, safely_pure]
  exact reads fun _ => reads fun _ hne => absurd rfl hne

/-- The operation of a port that fails has changed the new handle at most. -/
theorem Holding.connect (h : Holding s tk a fd s') (n : ℤ) (len buf : ℕ) :
    Safely AnyFault (fun r => r.1 ≠ 0 → Holding s tk a fd r.2) (connect s' n a len buf) := by
  simp only [Kernel.connect, safely_bind]
  apply reads
  intro i
  have hplain : ∀ ops, Safely AnyFault (fun r => r.1 ≠ 0 → Holding s tk a fd r.2) (do
      let r ← s'.getReq a
      return ((0 : ℤ), s'.setReq a { r with data := .null, rops := some ops })) := by
    intro ops
    simp only [safely_bind, safely_pure]
    exact reads fun _ hne => absurd rfl hne
  split
  · trivial
  · exact h.uportConnect _ _ _
  · exact h.memPortRequest _ _
  · exact hplain _
  · exact hplain _
  · exact hplain _
  · exact h.intPortConnect _ _

/-- A pool changes one object, which was not in use. -/
theorem alloc_objs (h : PoolsOk s) (pool : ℕ) :
    Safely AnyFault (fun r => s.objs r.1 = none ∧ PoolsOk r.2 ∧ r.2.current = s.current ∧
      r.2.task = s.task ∧ r.2.objs = Function.update s.objs r.1 (some ⟨pool, .blank⟩))
    (s.alloc pool) := by
  have halloc : Safely AnyFault (fun r => r.2.current = s.current ∧ r.2.task = s.task ∧
      r.2.objs = Function.update s.objs r.1 (some ⟨pool, .blank⟩)) (s.alloc pool) := by
    unfold State.alloc
    split
    · trivial
    · exact ⟨rfl, rfl, rfl⟩
    · exact ⟨rfl, rfl, rfl⟩
  exact ((h.alloc_fresh pool).and halloc).mono fun _ hr => ⟨hr.1.1, hr.1.2, hr.2⟩

/-- A new handle, which was not in use. -/
theorem newReq_objs (h : PoolsOk s) (tk : Task) (type : ReqType) :
    Safely AnyFault (fun r => s.objs r.1 = none ∧ r.2.current = s.current ∧ r.2.task = s.task ∧
      ∀ b, b ≠ r.1 → r.2.objs b = s.objs b) (newReq s tk type) := by
  simp only [newReq, safely_bind, safely_pure]
  apply (alloc_objs h tk.filePool).mono
  rintro ⟨a, s₁⟩ ⟨hnew, -, hcur, htask, hobjs⟩
  dsimp only at hcur htask hobjs
  refine ⟨hnew, hcur, htask, fun b hb => ?_⟩
  rw [State.setReq, State.setBody_of_ne _ hb, hobjs, Function.update_of_ne hb]

/-- A handle for which there is no number goes back at once. -/
theorem freeReq_unchanged {a : ℕ} (hcur : s'.current = s.current) (htask : s'.task = s.task)
    (hobjs : ∀ b, b ≠ a → s'.objs b = s.objs b) (hnew : s.objs a = none) :
    Safely AnyFault (Unchanged s) (freeReq s' a) := by
  apply (freeReq_objs s' a).mono
  rintro s₁ ⟨hcur₁, htask₁, hobjs₁⟩
  refine ⟨hcur₁.trans hcur, htask₁.trans htask, ?_⟩
  rw [hobjs₁]
  funext b
  by_cases hb : b = a
  · rw [hb, Function.update_self, hnew]
  · rw [Function.update_of_ne hb, hobjs b hb]

/-- The part of `port_connect` with interrupts disabled. -/
theorem connectHandle_holding (h : PoolsOk s) (len buf : ℕ) :
    Safely AnyFault (fun r => (∀ ret, r.1 = .error ret → Unchanged s r.2) ∧
      ∀ a fd, r.1 = .ok (a, fd) → s.objs a = none ∧ ∃ tk, s.task s.current = some tk ∧
        tk.fds[fd]? = some none ∧ Holding s tk a fd r.2) (connectHandle s len buf) := by
  simp only [connectHandle, State.cur, safely_bind]
  apply reads
  intro ok
  split
  · exact ⟨fun _ _ => Unchanged.refl s, by simp⟩
  simp only [safely_bind]
  apply reads_eq
  intro tk htk
  have htk := getTask_ok htk
  apply (newReq_objs h tk _).mono
  rintro ⟨a, s₁⟩ ⟨hnew, hcur, htask, hobjs⟩
  dsimp only
  split
  · simp only [safely_bind, safely_pure]
    apply (freeReq_unchanged hcur htask hobjs hnew).mono
    intro s₂ h₂
    exact ⟨fun _ _ => h₂, by simp⟩
  · rename_i fd fds hins
    obtain ⟨hfree, rfl⟩ := fdtableInsert_eq hins
    refine ⟨by simp, ?_⟩
    rintro _ _ ⟨⟩
    refine ⟨hnew, tk, htk, hfree, ?_⟩
    have hset : s₁.setFds (tk.fds.set fd (some a)) =
        s₁.setTask s.current { tk with fds := tk.fds.set fd (some a) } := by
      rw [State.setFds, hcur, htask, htk]
    rw [hset]
    exact ⟨hcur, by rw [State.setTask, htask], hobjs⟩

/-- If `port_connect` fails, everything is as before. -/
theorem portConnect_unchanged (h : PoolsOk s) (n : ℤ) (len buf : ℕ) :
    Safely AnyFault (fun r => r.1 < 0 → Unchanged s r.2) (portConnect s n len buf) := by
  simp only [portConnect, safely_bind]
  apply reads
  intro ops
  split
  · exact fun _ => Unchanged.refl s
  simp only [safely_bind]
  have hlocked := locked_rule (s := s) (f := fun s => connectHandle s len buf)
    (P := fun hd s₁ => (∀ ret, hd = .error ret → Unchanged s s₁) ∧
      ∀ a fd, hd = .ok (a, fd) → s.objs a = none ∧ ∃ tk, s.task s.current = some tk ∧
        tk.fds[fd]? = some none ∧ Holding s tk a fd s₁) ?_ ?_
  · apply hlocked.mono
    rintro ⟨hd, s₁⟩ ⟨herror, hok⟩
    cases hd with
    | error ret => exact fun _ => herror ret rfl
    | ok x =>
      obtain ⟨a, fd⟩ := x
      obtain ⟨hnew, tk, htk, hfree, hholding⟩ := hok a fd rfl
      simp only [safely_bind]
      apply (hholding.connect n len buf).mono
      rintro ⟨ret, s₂⟩ h₂
      dsimp only
      split
      · rename_i hret
        simp only [safely_bind, safely_pure]
        apply ((h₂ hret).rollBack htk hfree hnew).mono
        intro s₃ h₃
        exact h₃.mono fun _ hs _ => hs
      · intro hneg
        exact absurd hneg (by simp)
  · rintro hd s₁ m ⟨herror, hok⟩
    refine ⟨fun ret hret => (herror ret hret).setMm m, fun a fd hx => ?_⟩
    obtain ⟨hnew, tk, htk, hfree, hholding⟩ := hok a fd hx
    exact ⟨hnew, tk, htk, hfree, hholding.setMm m⟩
  · apply (connectHandle_holding (h.setMm (Mm.disableInterrupts s.mm)) len buf).mono
    rintro r ⟨herror, hok⟩
    refine ⟨fun ret hret => ?_, fun a fd hx => ?_⟩
    · obtain ⟨hcur, htask, hobjs⟩ := herror ret hret
      exact ⟨hcur, htask, hobjs⟩
    · obtain ⟨hnew, tk, htk, hfree, hcur, htask, hobjs⟩ := hok a fd hx
      exact ⟨hnew, tk, htk, hfree, hcur, htask, hobjs⟩

end Connect

/-! ## `request` -/

section Request

variable {s : State} {tk : Task} {a : ℕ}

theorem handleAt_mem {fd : ℤ} (h : handleAt tk fd = .ok (some a)) : some a ∈ tk.fds :=
  List.mem_of_getElem? (handleAt_get h).2

/-- If there is no number for the cookie, it goes back at once. -/
theorem requestOn_unchanged (h : PoolsOk s) (hfull : none ∉ tk.fds) (ops : ReqOps) (a len buf : ℕ) :
    Safely AnyFault (fun r => Unchanged s r.2) (requestOn s tk ops a len buf) := by
  simp only [requestOn, safely_bind]
  apply (newReq_objs h tk _).mono
  rintro ⟨c, s₁⟩ ⟨hnew, hcur, htask, hobjs⟩
  rw [fdtableInsert_eq_none.2 hfull]
  simp only [safely_bind, safely_pure]
  exact freeReq_unchanged hcur htask hobjs hnew

/-- If there is one and the operation fails, the connection is freed. -/
theorem requestOn_freed (hroom : none ∈ tk.fds) (ops : ReqOps) (a len buf : ℕ) :
    Safely AnyFault (fun r => r.1 < 0 → r.2.objs a = none) (requestOn s tk ops a len buf) := by
  simp only [requestOn, safely_bind]
  apply reads
  rintro ⟨c, s₁⟩
  dsimp only
  split
  · rename_i hnone
    exact absurd hroom (fdtableInsert_eq_none.1 hnone)
  simp only [safely_bind]
  apply reads
  rintro ⟨ret, s₂⟩
  dsimp only
  split
  · simp only [safely_bind, safely_pure]
    apply (freeReq_objs s₂ a).mono
    rintro s₃ ⟨-, -, hobjs⟩
    apply (clearFd_objs s₃ _).mono
    intro s₄ h₄ _
    rw [h₄, hobjs, Function.update_self]
  · intro hneg
    exact absurd hneg (by simp)

/-- A request that does not get as far as the operation leaves everything as it was. -/
theorem request_unchanged (h : PoolsOk s) {rd : ℤ} {len buf : UInt64}
    (hnot : ¬CallsOps s (.request rd len buf)) :
    Safely AnyFault (fun r => r.1 < 0 → Unchanged s r.2) (request s rd len.toNat buf.toNat) := by
  apply locked_rule (P := fun v s₁ => v < 0 → Unchanged s s₁)
  · exact fun _ _ m hs hneg => (hs hneg).setMm m
  have hoff : Unchanged s (disableInterrupts s) := (Unchanged.refl s).setMm _
  simp only [State.cur, safely_bind]
  apply reads_eq
  intro tk htk
  apply reads_eq
  intro f hf
  cases f with
  | none => exact fun _ => hoff
  | some a =>
    simp only [safely_bind]
    apply reads_eq
    intro r hr
    obtain ⟨p, hobj⟩ := getReq_ok hr
    split
    · exact fun _ => hoff
    rename_i htype
    simp only [safely_bind]
    apply reads_eq
    intro ops hops
    split
    · exact fun _ => hoff
    rename_i hrequest
    simp only [safely_bind]
    apply reads_eq
    intro ok hvalid
    split
    · exact fun _ => hoff
    rename_i hok
    -- all tests are passed, so there is no number left
    have hfull : none ∉ tk.fds := by
      intro hroom
      refine hnot ⟨tk, a, p, r, ops, getTask_ok htk, hf, hobj, not_not.1 htype, ?_, ?_, ?_, hroom⟩
      · exact ropsOf_ok hops
      · simpa using hrequest
      · obtain rfl : ok = true := by simpa using hok
        exact hvalid
    apply (requestOn_unchanged (h.setMm _) hfull ops a _ _).mono
    intro r' hr' _
    exact ⟨hr'.current, hr'.task, hr'.objs⟩

/-- A request that gets as far as the operation and fails has freed the connection. -/
theorem request_freed {rd : ℤ} {len buf : UInt64} (h : CallsOps s (.request rd len buf)) :
    ∃ tk a o, s.task s.current = some tk ∧ some a ∈ tk.fds ∧ s.objs a = some o ∧
      Safely AnyFault (fun r => r.1 < 0 → r.2.objs a = none)
        (request s rd len.toNat buf.toNat) := by
  obtain ⟨tk, a, p, r, ops, htk, hf, hobj, htype, hops, hrequest, hvalid, hroom⟩ := h
  refine ⟨tk, a, _, htk, handleAt_mem hf, hobj, ?_⟩
  apply locked_rule (P := fun v s₁ => v < 0 → s₁.objs a = none)
  · exact fun _ _ _ hs => hs
  have hcur : (disableInterrupts s).cur = .ok tk := by
    simp only [State.cur, State.getTask, disableInterrupts, State.setMm, htk]
  have hreq : (disableInterrupts s).getReq a = .ok r := getReq_eq hobj
  have hbuffer : validBuffer (disableInterrupts s) len.toNat buf.toNat = .ok true := hvalid
  simp only [hcur, hf, hreq, htype, State.ropsOf, hops, hrequest, hbuffer, ok_bind, ne_eq,
    not_true_eq_false, Bool.not_true, Bool.false_eq_true, reduceIte]
  exact requestOn_freed hroom ops a _ _

end Request

/-! ## Both calls -/

theorem returns_ok {x : Except Fault (ℤ × State)} {v : ℤ} {s' : State}
    (h : returns x = .ok (.ret v, s')) : x = .ok (v, s') := by
  cases x with
  | error e => cases h
  | ok r =>
    cases h
    rfl

/-- A call of a client that fails in a state that is reached leaves everything as it was
exactly if it is not a request that has called the operation of its connection. -/
theorem rollback_iff (mm : Mm.State) (as : ℕ) (junk inport : ℕ → ℕ) (tarfs : ℕ × ℕ)
    (l : List Action) (s : State) (hs : run (boot mm as junk inport tarfs) l = .ok s) (c : Call)
    (hc : c.IsClient) (v : ℤ) (s' : State) (hret : syscall s c = .ok (.ret v, s')) (hv : v < 0) :
    Intact s s' ↔ ¬CallsOps s c := by
  have hpools := poolsOk_run mm as junk inport tarfs hs
  cases c with
  | portConnect n len buf =>
    have hunchanged := (portConnect_unchanged hpools n _ _).of_ok (returns_ok hret) hv
    exact ⟨fun _ hcalls => hcalls, fun _ => hunchanged.intact⟩
  | request rd len buf =>
    have hrequest := returns_ok hret
    constructor
    · intro hintact hcalls
      obtain ⟨tk, a, o, htk, hmem, hobj, hfreed⟩ := request_freed hcalls
      have hnone := hfreed.of_ok hrequest hv
      rw [hintact.handles tk htk a hmem, hobj] at hnone
      cases hnone
    · intro hnot
      exact ((request_unchanged hpools hnot).of_ok hrequest hv).intact
  | _ => exact hc.elim

/-- The init task opens port 20 and connects to it. -/
def connectToSelf : List Action := [.schedule, .call (.openPort 20), .call (.portConnect 20 0 0)]

/-- What a call returns, and whether an object is in use afterwards. -/
def afterCall (s : State) (c : Call) (a : ℕ) : Option (ℤ × Bool) :=
  match syscall s c with
  | .ok (.ret v, s') => some (v, (s'.objs a).isSome)
  | _ => none

theorem afterCall_eq {s : State} {c : Call} {a : ℕ} {v : ℤ} {b : Bool}
    (h : afterCall s c a = some (v, b)) :
    ∃ s', syscall s c = .ok (.ret v, s') ∧ (s'.objs a).isSome = b := by
  unfold afterCall at h
  split at h
  · rename_i v' s' hcall
    rw [Option.some.injEq, Prod.mk.injEq] at h
    exact ⟨s', h.1 ▸ hcall, h.2⟩
  · cases h

/-- A request on the connection, which nobody has accepted, frees the connection. -/
theorem request_pending : ∃ s s' tk, run (bootWith []) connectToSelf = .ok s ∧
    syscall s (.request 1 0 0) = .ok (.ret (-EAGAIN), s') ∧ s.task s.current = some tk ∧
    some 2 ∈ tk.fds ∧ (s.objs 2).isSome = true ∧ (s'.objs 2).isSome = false := by
  have hrun : (run (bootWith []) connectToSelf).toOption.map (fun s =>
      ((s.task s.current).map (fun tk => decide (some 2 ∈ tk.fds)), (s.objs 2).isSome,
        afterCall s (.request 1 0 0) 2)) = some (some true, true, some (-EAGAIN, false)) := by
    decide +kernel
  cases hs : run (bootWith []) connectToSelf with
  | error e =>
    rw [hs] at hrun
    cases hrun
  | ok s =>
    rw [hs] at hrun
    simp only [Except.toOption, Option.map_some, Option.some.injEq, Prod.mk.injEq,
      Option.map_eq_some_iff, decide_eq_true_eq] at hrun
    obtain ⟨⟨tk, htk, hmem⟩, hlive, hcall⟩ := hrun
    obtain ⟨s', hret, hfreed⟩ := afterCall_eq hcall
    exact ⟨s, s', tk, rfl, hret, htk, hmem, hlive, hfreed⟩

theorem rollback_iff_pending : ∃ s s', run (bootWith []) connectToSelf = .ok s ∧
    syscall s (.request 1 0 0) = .ok (.ret (-EAGAIN), s') ∧
    (Intact s s' ↔ ¬CallsOps s (.request 1 0 0)) := by
  obtain ⟨s, s', tk, hs, hret, -⟩ := request_pending
  exact ⟨s, s', hs, hret,
    rollback_iff _ _ _ _ _ _ s hs (.request 1 0 0) trivial _ s' hret (by decide)⟩

/-- The connection is still in the table of the caller. -/
theorem rollback_fails : ¬∀ (free : List ℕ) (l : List Action) (s : State),
    run (bootWith free) l = .ok s → ∀ (c : Call) (v : ℤ) (s' : State), c.IsClient →
      syscall s c = .ok (.ret v, s') → v < 0 → Intact s s' := by
  intro h
  obtain ⟨s, s', tk, hs, hret, htk, hmem, hlive, hfreed⟩ := request_pending
  have hintact := h [] connectToSelf s hs (.request 1 0 0) _ s' trivial hret (by decide)
  rw [hintact.handles tk htk 2 hmem, hlive] at hfreed
  cases hfreed

end SadOS.Kernel
