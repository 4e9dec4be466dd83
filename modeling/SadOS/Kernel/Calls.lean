import SadOS.Kernel.Step

/-!
# What calls do to tasks

System calls that do not block change a task only in its tables, and wake some of the
tasks that wait.

## Main definitions

* `InTables` — a fault that is not an access outside a table.
* `Watched` — a task that has a handle with `waited_rw` set.
* `Calls w s s'` — from `s` to `s'` the tasks in `w` were woken, and nothing else
  happened to tasks and lists of tasks.
* `Quiet s s'` — nothing happened to tasks and lists of tasks.
* `Ipc s s'` — some tasks that were watched were woken.
-/

namespace SadOS.Kernel

/-- A fault other than an access outside a table. -/
def InTables (e : Fault) : Prop := e ≠ .outOfBounds

/-- A task that has a handle with `waited_rw` set. -/
def Watched (s : State) (t : ℕ) : Prop :=
  ∃ a p r, s.objs a = some ⟨p, .request r⟩ ∧ r.owner = t ∧ r.waitedRw ≠ 0

/-- The ports have their numbers inside the tables. -/
def PortsOk (s : State) : Prop :=
  ∀ a p u, s.objs a = some ⟨p, .uport u⟩ → 0 ≤ u.portNumber ∧ u.portNumber < MAX_PORT

/-- A task with other tables, perhaps woken. -/
def Task.Moved (woken : Bool) (tk tk' : Task) : Prop :=
  ∃ fds astable, fds.length = tk.fds.length ∧ astable.length = tk.astable.length ∧
    tk' = { tk with fds, astable, state := if woken then .runnable else tk.state }

/-- The tasks in `w` were woken. -/
structure Calls (w : List ℕ) (s s' : State) : Prop where
  current : s'.current = s.current
  idleTask : s'.idleTask = s.idleTask
  toKill : s'.toKill = s.toKill
  nextTask : s'.nextTask = s.nextTask
  tasks : s'.tasks = s.tasks
  portWaitList : s'.portWaitList = s.portWaitList
  ports : PortsOk s → PortsOk s'
  runq : s'.runq = w ++ s.runq
  nodup : w.Nodup
  waiting : ∀ t ∈ w, ∃ tk, s.task t = some tk ∧ tk.state = .waiting
  none : ∀ t, s.task t = none → s'.task t = none
  task : ∀ t tk, s.task t = some tk →
    ∃ tk', s'.task t = some tk' ∧ Task.Moved (decide (t ∈ w)) tk tk'

/-- No task was woken. -/
abbrev Quiet (s s' : State) : Prop := Calls [] s s'

/-- Watched tasks were woken, and nobody is watched who was not before. -/
def Ipc (s s' : State) : Prop :=
  (∃ w, Calls w s s' ∧ ∀ t ∈ w, Watched s t) ∧ ∀ t, Watched s' t → Watched s t

theorem Task.Moved.refl (tk : Task) : Task.Moved false tk tk := ⟨tk.fds, tk.astable, rfl, rfl, rfl⟩

theorem Task.Moved.trans {b b' : Bool} {tk tk' tk'' : Task} (h : Task.Moved b tk tk')
    (h' : Task.Moved b' tk' tk'') : Task.Moved (b' || b) tk tk'' := by
  obtain ⟨fds, astable, hf, ha, rfl⟩ := h
  obtain ⟨fds', astable', hf', ha', rfl⟩ := h'
  refine ⟨fds', astable', hf'.trans hf, ha'.trans ha, ?_⟩
  cases b <;> cases b' <;> rfl

theorem Calls.refl (s : State) : Calls [] s s where
  current := rfl
  idleTask := rfl
  toKill := rfl
  nextTask := rfl
  tasks := rfl
  portWaitList := rfl
  ports := id
  runq := rfl
  nodup := List.nodup_nil
  waiting := by simp
  none := fun _ h => h
  task := fun _ tk h => ⟨tk, h, by simpa using Task.Moved.refl tk⟩

theorem Calls.trans {w w' : List ℕ} {s s' s'' : State} (h : Calls w s s') (h' : Calls w' s' s'') :
    Calls (w' ++ w) s s'' := by
  -- a task that waits after the first part waited before it and was not woken
  have hback : ∀ t ∈ w', (∃ tk, s.task t = some tk ∧ tk.state = .waiting) ∧ t ∉ w := by
    intro t ht
    obtain ⟨tk', hs', hw⟩ := h'.waiting t ht
    cases hs : s.task t with
    | none =>
      rw [h.none t hs] at hs'
      cases hs'
    | some tk =>
      obtain ⟨tk₁, hs₁, fds, astable, -, -, rfl⟩ := h.task t tk hs
      rw [hs', Option.some.injEq] at hs₁
      subst hs₁
      by_cases hin : t ∈ w
      · simp [hin] at hw
      · exact ⟨⟨tk, rfl, by simpa [hin] using hw⟩, hin⟩
  refine
    { current := h'.current.trans h.current
      idleTask := h'.idleTask.trans h.idleTask
      toKill := h'.toKill.trans h.toKill
      nextTask := h'.nextTask.trans h.nextTask
      tasks := h'.tasks.trans h.tasks
      portWaitList := h'.portWaitList.trans h.portWaitList
      ports := fun hp => h'.ports (h.ports hp)
      runq := by rw [h'.runq, h.runq, List.append_assoc]
      nodup := ?_, waiting := ?_, none := fun t hs => h'.none t (h.none t hs), task := ?_ }
  · exact List.Nodup.append h'.nodup h.nodup fun t ht => (hback t ht).2
  · intro t ht
    rcases List.mem_append.1 ht with ht | ht
    · exact (hback t ht).1
    · exact h.waiting t ht
  · intro t tk hs
    obtain ⟨tk', hs', hm⟩ := h.task t tk hs
    obtain ⟨tk'', hs'', hm'⟩ := h'.task t tk' hs'
    refine ⟨tk'', hs'', ?_⟩
    simpa [Bool.decide_or] using hm.trans hm'

namespace Quiet

variable {s₀ s s' : State}

theorem trans (h : Quiet s₀ s) (h' : Quiet s s') : Quiet s₀ s' := Calls.trans h h'

/-- A state with the same tasks, whose ports come from `s`. -/
theorem of_objs (hcur : s'.current = s.current) (hidle : s'.idleTask = s.idleTask)
    (hkill : s'.toKill = s.toKill) (hnext : s'.nextTask = s.nextTask)
    (htasks : s'.tasks = s.tasks) (hwait : s'.portWaitList = s.portWaitList) (hrunq : s'.runq = s.runq) (htask : s'.task = s.task)
    (hport : ∀ a p u, s'.objs a = some ⟨p, .uport u⟩ → PortsOk s →
      0 ≤ u.portNumber ∧ u.portNumber < MAX_PORT) : Quiet s s' := by
  refine ⟨hcur, hidle, hkill, hnext, htasks, hwait, fun hp a p u h => hport a p u h hp, hrunq,
    List.nodup_nil, by simp, fun t h => by rw [htask, h], fun t tk h => ⟨tk, by rw [htask, h], ?_⟩⟩
  simpa using Task.Moved.refl tk

theorem setMm (h : Quiet s₀ s) (m : Mm.State) : Quiet s₀ (s.setMm m) :=
  h.trans (of_objs rfl rfl rfl rfl rfl rfl rfl rfl fun a p u ha hp => hp a p u ha)

theorem setReq (h : Quiet s₀ s) (a : ℕ) (r : Request) : Quiet s₀ (s.setReq a r) := by
  refine h.trans (of_objs rfl rfl rfl rfl rfl rfl rfl rfl ?_)
  intro a' p u ha' hp
  by_cases ha : a' = a
  · subst ha
    simp [State.setReq, State.setBody] at ha'
  · rw [State.setReq, State.setBody_of_ne _ ha] at ha'
    exact hp a' p u ha'

/-- The current task changes its state. -/
theorem setState (h : Quiet s₀ s) (state : TaskState) :
    Quiet (s₀.setState state) (s.setState state) := by
  have hcur := h.current
  unfold State.setState
  cases hs : s₀.task s₀.current with
  | none =>
    have := h.none _ hs
    rw [hcur, this]
    exact h
  | some tk =>
    obtain ⟨tk', htk', fds, astable, hf, ha, rfl⟩ := h.task _ tk hs
    rw [hcur, htk']
    dsimp only
    refine ⟨hcur, h.idleTask, h.toKill, h.nextTask, h.tasks, h.portWaitList, h.ports, h.runq,
      List.nodup_nil, by simp, ?_, ?_⟩
    · intro t ht
      by_cases hne : t = s₀.current
      · subst hne
        rw [State.setTask_self] at ht
        cases ht
      · rw [State.setTask_of_ne _ hne] at ht ⊢
        exact h.none t ht
    · intro t tk₁ ht
      by_cases hne : t = s₀.current
      · subst hne
        rw [State.setTask_self, Option.some.injEq] at ht
        subst ht
        exact ⟨_, State.setTask_self .., fds, astable, hf, ha, by simp⟩
      · rw [State.setTask_of_ne _ hne] at ht ⊢
        exact h.task t tk₁ ht

end Quiet

/-- Only the last state that the current task was given counts. -/
theorem State.setState_setState (s : State) (st st' : TaskState) :
    (s.setState st).setState st' = s.setState st' := by
  unfold State.setState
  cases hs : s.task s.current with
  | none => simp [hs]
  | some tk => simp [State.setTask, Function.update_idem]

theorem Ipc.refl (s : State) : Ipc s s := ⟨⟨[], Calls.refl s, by simp⟩, fun _ h => h⟩

theorem Ipc.trans {s s' s'' : State} (h : Ipc s s') (h' : Ipc s' s'') : Ipc s s'' := by
  obtain ⟨⟨w, hc, hw⟩, hn⟩ := h
  obtain ⟨⟨w', hc', hw'⟩, hn'⟩ := h'
  refine ⟨⟨w' ++ w, hc.trans hc', ?_⟩, fun t ht => hn t (hn' t ht)⟩
  intro t ht
  rcases List.mem_append.1 ht with ht | ht
  · exact hn t (hw' t ht)
  · exact hw t ht

theorem Ipc.current {s s' : State} (h : Ipc s s') : s'.current = s.current := by
  obtain ⟨⟨w, hc, -⟩, -⟩ := h
  exact hc.current

theorem Ipc.ports {s s' : State} (h : Ipc s s') (hp : PortsOk s) : PortsOk s' := by
  obtain ⟨⟨w, hc, -⟩, -⟩ := h
  exact hc.ports hp

/-! ## Writes that do not touch tasks -/

/-- A state with the same tasks, whose handles and ports come from `s`. -/
theorem Ipc.of_objs {s s' : State} (hcur : s'.current = s.current) (hidle : s'.idleTask = s.idleTask)
    (hkill : s'.toKill = s.toKill) (hnext : s'.nextTask = s.nextTask)
    (htasks : s'.tasks = s.tasks) (hwait : s'.portWaitList = s.portWaitList) (hrunq : s'.runq = s.runq) (htask : s'.task = s.task)
    (hport : ∀ a p u, s'.objs a = some ⟨p, .uport u⟩ → PortsOk s →
      0 ≤ u.portNumber ∧ u.portNumber < MAX_PORT)
    (hreq : ∀ a p r, s'.objs a = some ⟨p, .request r⟩ → r.waitedRw ≠ 0 → Watched s r.owner) :
    Ipc s s' := by
  refine ⟨⟨[], Quiet.of_objs hcur hidle hkill hnext htasks hwait hrunq htask hport, by simp⟩, ?_⟩
  rintro t ⟨a, p, r, ha, rfl, hr⟩
  exact hreq a p r ha hr

/-- A state with the same tasks, without new handles and ports. -/
theorem Ipc.of_old {s s' : State} (hcur : s'.current = s.current) (hidle : s'.idleTask = s.idleTask)
    (hkill : s'.toKill = s.toKill) (hnext : s'.nextTask = s.nextTask)
    (htasks : s'.tasks = s.tasks) (hwait : s'.portWaitList = s.portWaitList) (hrunq : s'.runq = s.runq) (htask : s'.task = s.task)
    (hobjs : ∀ a o, s'.objs a = some o → s.objs a = some o ∨ o.body = .blank) : Ipc s s' := by
  refine of_objs hcur hidle hkill hnext htasks hwait hrunq htask ?_ ?_
  · intro a p u ha hp
    rcases hobjs a _ ha with h | h
    · exact hp a p u h
    · cases h
  · intro a p r ha hr
    rcases hobjs a _ ha with h | h
    · exact ⟨a, p, r, h, rfl, hr⟩
    · cases h

/-! ### Reads -/

theorem reads_getTask (s : State) (t : ℕ) :
    Safely InTables (fun tk => s.task t = some tk) (s.getTask t) := by
  unfold State.getTask
  split
  · assumption
  · simp [InTables]

theorem reads_getReq (s : State) (a : ℕ) :
    Safely InTables (fun r => ∃ p, s.objs a = some ⟨p, .request r⟩) (s.getReq a) := by
  unfold State.getReq
  split
  · exact ⟨_, by assumption⟩
  · simp [InTables]

theorem reads_getMsg (s : State) (a : ℕ) :
    Safely InTables (fun m => ∃ p, s.objs a = some ⟨p, .message m⟩) (s.getMsg a) := by
  unfold State.getMsg
  split
  · exact ⟨_, by assumption⟩
  · simp [InTables]

theorem reads_getUport (s : State) (a : ℕ) :
    Safely InTables (fun u => ∃ p, s.objs a = some ⟨p, .uport u⟩) (s.getUport a) := by
  unfold State.getUport
  split
  · exact ⟨_, by assumption⟩
  · simp [InTables]

theorem reads_getUportReq (s : State) (a : ℕ) :
    Safely InTables (fun u => ∃ p, s.objs a = some ⟨p, .uportReq u⟩) (s.getUportReq a) := by
  unfold State.getUportReq
  split
  · exact ⟨_, by assumption⟩
  · simp [InTables]

theorem reads_getCookie (s : State) (a : ℕ) :
    Safely InTables (fun c => ∃ p, s.objs a = some ⟨p, .cookie c⟩) (s.getCookie a) := by
  unfold State.getCookie
  split
  · exact ⟨_, by assumption⟩
  · simp [InTables]

theorem reads_getIncoming (s : State) (a : ℕ) :
    Safely InTables (fun _ => True) (s.getIncoming a) := by
  unfold State.getIncoming
  split <;> simp [InTables]

theorem reads_ptr (d : Data) : Safely InTables (fun a => d = .obj a) d.ptr := by
  unfold Data.ptr
  split <;> simp [InTables]

theorem reads_ropsOf (r : Request) : Safely InTables (fun ops => r.rops = some ops) (State.ropsOf r) := by
  unfold State.ropsOf
  split
  · assumption
  · simp [InTables]

theorem reads_liftMm {α : Type} (x : Except SadOS.Fault α) :
    Safely InTables (fun a => x = .ok a) (liftMm x) := by
  unfold liftMm
  split <;> simp [InTables]

theorem reads_fileAt {tab : FdTable} {fd : ℕ} (h : fd < tab.length) :
    Safely InTables (fun f => tab[fd]? = some f) (fileAt tab fd) := by
  unfold fileAt
  split
  · assumption
  · rename_i hnone
    rw [List.getElem?_eq_none_iff] at hnone
    omega

theorem reads_portIndex {n : ℤ} (h0 : 0 ≤ n) (hn : n < MAX_PORT) :
    Safely InTables (fun i : ℕ => (i : ℤ) = n ∧ i < MAX_PORT) (portIndex n) := by
  unfold portIndex
  rw [if_pos ⟨h0, hn⟩, safely_ok]
  omega

namespace Ipc

variable {s₀ s : State}

theorem setMm (h : Ipc s₀ s) (m : Mm.State) : Ipc s₀ (s.setMm m) :=
  h.trans (of_old rfl rfl rfl rfl rfl rfl rfl rfl fun _ _ h => .inl h)

theorem disable (h : Ipc s₀ s) : Ipc s₀ (disableInterrupts s) := h.setMm _

theorem runMm {α : Type} (h : Ipc s₀ s) (x : Except SadOS.Fault (α × Mm.State)) :
    Safely InTables (fun r => Ipc s₀ r.2) (s.runMm x) := by
  unfold State.runMm
  split
  · exact h.setMm _
  · simp [InTables]

theorem execMm (h : Ipc s₀ s) (x : Except SadOS.Fault Mm.State) :
    Safely InTables (Ipc s₀) (s.execMm x) := by
  unfold State.execMm
  split
  · exact h.setMm _
  · simp [InTables]

theorem enable (h : Ipc s₀ s) : Safely InTables (Ipc s₀) (enableInterrupts s) := h.execMm _

/-- What stands between `disable_interrupts` and `enable_interrupts`. -/
theorem locked {α : Type} (h : Ipc s₀ s) {f : State → Except Fault (α × State)}
    (hf : Ipc s₀ (disableInterrupts s) →
      Safely InTables (fun r => Ipc s₀ r.2) (f (disableInterrupts s))) :
    Safely InTables (fun r => Ipc s₀ r.2) (locked s f) := by
  simp only [Kernel.locked, safely_bind, safely_pure]
  refine (hf h.disable).mono ?_
  intro r hr
  exact hr.enable

/-! ### Objects -/

/-- An object other than a port and a handle is stored. -/
theorem setBody (h : Ipc s₀ s) (a : ℕ) {b : Body} (hr : ∀ r, b ≠ .request r)
    (hu : ∀ u, b = .uport u → ∃ p u', s.objs a = some ⟨p, .uport u'⟩ ∧ u'.portNumber = u.portNumber) :
    Ipc s₀ (s.setBody a b) := by
  refine h.trans (of_objs rfl rfl rfl rfl rfl rfl rfl rfl ?_ ?_)
  · intro a' p u ha' hp
    by_cases ha : a' = a
    · subst ha
      rw [State.setBody_self, Option.map_eq_some_iff] at ha'
      obtain ⟨o, ho, heq⟩ := ha'
      injection heq with h₁ h₂
      obtain ⟨p', u', hobj, hn⟩ := hu u h₂
      rw [← hn]
      exact hp a' p' u' hobj
    · rw [State.setBody_of_ne _ ha] at ha'
      exact hp a' p u ha'
  · intro a' p r ha' hw
    by_cases ha : a' = a
    · subst ha
      rw [State.setBody_self, Option.map_eq_some_iff] at ha'
      obtain ⟨o, ho, heq⟩ := ha'
      injection heq with h₁ h₂
      exact absurd h₂ (hr r)
    · rw [State.setBody_of_ne _ ha] at ha'
      exact ⟨a', p, r, ha', rfl, hw⟩

/-- A handle is stored that is not watched, or is as the one before. -/
theorem setReq (h : Ipc s₀ s) (a : ℕ) {b : Request}
    (hw : b.waitedRw ≠ 0 → ∃ p r, s.objs a = some ⟨p, .request r⟩ ∧ b.owner = r.owner ∧
      b.waitedRw = r.waitedRw) : Ipc s₀ (s.setReq a b) := by
  refine h.trans (of_objs rfl rfl rfl rfl rfl rfl rfl rfl ?_ ?_)
  · intro a' p u ha' hp
    by_cases ha : a' = a
    · subst ha
      simp [State.setReq, State.setBody] at ha'
    · rw [State.setReq, State.setBody_of_ne _ ha] at ha'
      exact hp a' p u ha'
  · intro a' p r ha' hr
    by_cases ha : a' = a
    · subst ha
      rw [State.setReq, State.setBody_self, Option.map_eq_some_iff] at ha'
      obtain ⟨o, ho, heq⟩ := ha'
      injection heq with h₁ h₂
      injection h₂ with h₂
      subst h₂
      obtain ⟨p', r₁, hobj, hown, hwait⟩ := hw hr
      exact ⟨a', p', r₁, hobj, hown.symm, hwait ▸ hr⟩
    · rw [State.setReq, State.setBody_of_ne _ ha] at ha'
      exact ⟨a', p, r, ha', rfl, hr⟩

/-- A field other than `owner` and `waited_rw` of a handle is stored. -/
theorem setReq_of_get (h : Ipc s₀ s) {a p : ℕ} {r b : Request} (hr : s.objs a = some ⟨p, .request r⟩)
    (ho : b.owner = r.owner) (hw : b.waitedRw = r.waitedRw) : Ipc s₀ (s.setReq a b) :=
  h.setReq a fun _ => ⟨p, r, hr, ho, hw⟩

theorem alloc (h : Ipc s₀ s) (pool : ℕ) :
    Safely InTables (fun r => Ipc s₀ r.2) (s.alloc pool) := by
  have hobjs : ∀ b a o, Function.update s.objs b (some ⟨pool, .blank⟩) a = some o →
      s.objs a = some o ∨ o.body = .blank := by
    intro b a o ho
    rw [Function.update_apply] at ho
    split at ho
    · rw [← Option.some.inj ho]
      exact .inr rfl
    · exact .inl ho
  unfold State.alloc
  split
  · simp [InTables]
  · exact h.trans (of_old rfl rfl rfl rfl rfl rfl rfl rfl (hobjs _))
  · exact h.trans (of_old rfl rfl rfl rfl rfl rfl rfl rfl (hobjs _))

theorem free (h : Ipc s₀ s) (pool a : ℕ) : Safely InTables (Ipc s₀) (s.free pool a) := by
  unfold State.free
  split
  · refine h.trans (of_old rfl rfl rfl rfl rfl rfl rfl rfl ?_)
    intro a' o ho
    dsimp only at ho
    rw [Function.update_apply] at ho
    split at ho
    · cases ho
    · exact .inl ho
  · simp [InTables]

/-! ### Lists -/

theorem setIncoming (h : Ipc s₀ s) (q : ℕ) (l : List ℕ) : Ipc s₀ (s.setIncoming q l) := by
  unfold State.setIncoming
  split
  · rename_i p u hq
    refine h.setBody q (by simp) ?_
    rintro u' ⟨⟩
    exact ⟨p, u, hq, rfl⟩
  · exact h.setBody q (by simp) (by simp)
  · exact h

theorem enqueue (h : Ipc s₀ s) (q m : ℕ) : Safely InTables (Ipc s₀) (enqueue s q m) := by
  simp only [Kernel.enqueue, safely_bind, safely_pure]
  refine (reads_getMsg s m).mono ?_
  intro msg _
  refine (reads_getIncoming _ q).mono ?_
  intro l _
  exact (h.setBody m (by simp) (by simp)).setIncoming q _

theorem unqueue (h : Ipc s₀ s) (m : ℕ) : Safely InTables (Ipc s₀) (unqueue s m) := by
  simp only [Kernel.unqueue, safely_bind]
  refine (reads_getMsg s m).mono ?_
  intro msg _
  split
  · simp [InTables]
  · simp only [safely_bind, safely_pure]
    refine (reads_getIncoming _ _).mono ?_
    intro l _
    exact (h.setBody m (by simp) (by simp)).setIncoming _ _

theorem linkReq (h : Ipc s₀ s) (a : ℕ) (l : ReqList) : Safely InTables (Ipc s₀) (linkReq s a l) := by
  simp only [Kernel.linkReq, safely_bind]
  refine (reads_getReq s a).mono ?_
  rintro r ⟨p, hr⟩
  have h₁ := h.setReq_of_get (b := { r with nextReq := some l }) hr rfl rfl
  split
  · simp only [safely_bind, safely_pure]
    refine (reads_getUportReq _ _).mono ?_
    intro u _
    exact h₁.setBody _ (by simp) (by simp)
  · exact h₁.trans (of_old rfl rfl rfl rfl rfl rfl rfl rfl fun _ _ h => .inl h)

theorem unlinkReq (h : Ipc s₀ s) (a : ℕ) : Safely InTables (Ipc s₀) (unlinkReq s a) := by
  simp only [Kernel.unlinkReq, safely_bind]
  refine (reads_getReq s a).mono ?_
  rintro r ⟨p, hr⟩
  have h₁ := h.setReq_of_get (b := { r with nextReq := none }) hr rfl rfl
  split
  · simp [InTables]
  · simp only [safely_bind, safely_pure]
    refine (reads_getUportReq _ _).mono ?_
    intro u _
    exact h₁.setBody _ (by simp) (by simp)
  · exact h₁.trans (of_old rfl rfl rfl rfl rfl rfl rfl rfl fun _ _ h => .inl h)

/-! ### Tasks -/

/-- The tables of a task are replaced by tables of the same size. -/
theorem setTask (h : Ipc s₀ s) {t : ℕ} {tk : Task} (ht : s.task t = some tk) {fds astable : FdTable}
    (hf : fds.length = tk.fds.length) (ha : astable.length = tk.astable.length) :
    Ipc s₀ (s.setTask t { tk with fds, astable }) := by
  refine h.trans ⟨⟨[], ⟨rfl, rfl, rfl, rfl, rfl, rfl, id, rfl, List.nodup_nil, by simp, ?_, ?_⟩, by simp⟩,
    fun _ h => h⟩
  · intro t' ht'
    have hne : t' ≠ t := by
      rintro rfl
      rw [ht] at ht'
      cases ht'
    exact (Function.update_of_ne hne ..).trans ht'
  · intro t' tk' ht'
    by_cases hne : t' = t
    · subst hne
      rw [ht, Option.some.injEq] at ht'
      subst ht'
      exact ⟨_, Function.update_self .., fds, astable, hf, ha, rfl⟩
    · exact ⟨tk', (Function.update_of_ne hne ..).trans ht', Task.Moved.refl tk'⟩

theorem setFds (h : Ipc s₀ s) {fds : FdTable}
    (hf : ∀ tk, s.task s.current = some tk → fds.length = tk.fds.length) : Ipc s₀ (s.setFds fds) := by
  unfold State.setFds
  split
  · rename_i tk htk
    exact h.setTask htk (hf tk htk) rfl
  · exact h

theorem setAstable (h : Ipc s₀ s) {astable : FdTable}
    (ha : ∀ tk, s.task s.current = some tk → astable.length = tk.astable.length) :
    Ipc s₀ (s.setAstable astable) := by
  unfold State.setAstable
  split
  · rename_i tk htk
    exact h.setTask htk rfl (ha tk htk)
  · exact h

/-- `wake_up` of a watched task. -/
theorem wakeUp (h : Ipc s₀ s) {t : ℕ} (ht : Watched s₀ t) : Safely InTables (Ipc s₀) (wakeUp s t) := by
  obtain ⟨⟨w, hc, hw⟩, hn⟩ := h
  simp only [Kernel.wakeUp, safely_bind]
  refine (reads_getTask s t).mono ?_
  intro tk htk
  split
  · rename_i hwait
    have hone : Calls [t] s { s.setTask t { tk with state := .runnable } with runq := t :: s.runq } := by
      refine ⟨rfl, rfl, rfl, rfl, rfl, rfl, id, rfl, List.nodup_singleton t, ?_, ?_, ?_⟩
      · intro t' ht'
        rw [List.mem_singleton] at ht'
        exact ⟨tk, ht' ▸ htk, hwait⟩
      · intro t' ht'
        have hne : t' ≠ t := by
          rintro rfl
          rw [htk] at ht'
          cases ht'
        exact (Function.update_of_ne hne ..).trans ht'
      · intro t' tk' ht'
        by_cases hne : t' = t
        · subst hne
          rw [htk, Option.some.injEq] at ht'
          subst ht'
          exact ⟨_, Function.update_self .., tk.fds, tk.astable, rfl, rfl, by simp⟩
        · exact ⟨tk', (Function.update_of_ne hne ..).trans ht', by simpa [hne] using Task.Moved.refl tk'⟩
    refine ⟨⟨[t] ++ w, hc.trans hone, ?_⟩, hn⟩
    intro t' ht'
    rcases List.mem_cons.1 ht' with rfl | ht'
    · exact ht
    · exact hw t' ht'
  · exact ⟨⟨w, hc, hw⟩, hn⟩

/-- A handle that was read on the way is reported to its owner. -/
theorem notify (h : Ipc s₀ s) {s₁ : State} (h₁ : Ipc s₀ s₁) {a p : ℕ} {r : Request}
    (hr : s₁.objs a = some ⟨p, .request r⟩) {waited : Bool} (hw : waited = true → r.waitedRw ≠ 0) :
    Safely InTables (Ipc s₀) (notify s r waited) := by
  unfold Kernel.notify
  split
  · rename_i hwaited
    exact h.wakeUp (h₁.2 _ ⟨a, p, r, hr, rfl, hw hwaited⟩)
  · exact h

/-- The tables of a task keep their sizes. -/
theorem sizes (h : Ipc s₀ s) {t : ℕ} {tk tk' : Task} (ht : s₀.task t = some tk)
    (ht' : s.task t = some tk') :
    tk'.fds.length = tk.fds.length ∧ tk'.astable.length = tk.astable.length := by
  obtain ⟨⟨w, hc, -⟩, -⟩ := h
  obtain ⟨tk₁, h₁, fds, astable, hf, ha, rfl⟩ := hc.task t tk ht
  rw [ht', Option.some.injEq] at h₁
  subst h₁
  exact ⟨hf, ha⟩

/-- A loop over a list, each of whose steps is a part of a call. -/
theorem foldlM {β : Type} (h : Ipc s₀ s) {f : State → β → Except Fault State}
    (hf : ∀ s b, Ipc s₀ s → Safely InTables (Ipc s₀) (f s b)) (l : List β) :
    Safely InTables (Ipc s₀) (l.foldlM f s) :=
  safely_foldlM (fun _ => Ipc s₀) h fun b _ s hs => hf s b hs

end Ipc

end SadOS.Kernel
