import SadOS.Kernel.Tables

/-!
# The run queue

The node `tasks` of a task is linked in the run queue or in the list of the tasks that
wait for a port.  Which one it is follows from the state of the task, and where a call
blocks from the place where the task goes on.

## Main definitions

* `QueueOk` — what the scheduler relies on.
* `QueueAllowed` — a step that does not meet one of the three defects of `wait_on_port`.
* `Queues`, `RunQueue` — the invariant, before `schedule()` and elsewhere.

## Main results

* `RunQueue.step` — allowed steps keep the invariant.
* `runQueue_of_allowed` — the property along runs.
* `runQueue_fails` — `wait_on_port` on an open port.
-/

namespace SadOS.Kernel

/-- What the scheduler relies on: a node is on one list at most, and when a task returns
to user mode, the run queue has exactly the tasks that can run. -/
structure QueueOk (s : State) : Prop where
  runq : s.runq.Nodup
  portWaitList : ∀ i, (s.portWaitList i).Nodup
  apart : ∀ i, ∀ t ∈ s.portWaitList i, t ∉ s.runq
  ports : ∀ i j t, t ∈ s.portWaitList i → t ∈ s.portWaitList j → i = j
  runnable : ∀ tk, s.task s.current = some tk → tk.pc = .user →
    ∀ t tk', s.task t = some tk' → tk'.state = .runnable → t ≠ s.idleTask → s.runq.count t = 1
  waiting : ∀ tk, s.task s.current = some tk → tk.pc = .user →
    ∀ t ∈ s.runq, ∀ tk', s.task t = some tk' → tk'.state ≠ .waiting ∧ tk'.state ≠ .zombie
  running : ∀ tk, s.task s.current = some tk → tk.pc = .user → tk.state = .running

/-- A step from a state in which no task that waits for a port has a handle with
`waited_rw` set, which calls `wait_on_port` for a port that is closed, and goes on in it
when the port is open. -/
structure QueueAllowed (s : State) (a : Action) : Prop where
  watched : ∀ i, ∀ t ∈ s.portWaitList i, ¬Watched s t
  closed : ∀ n i, a = .call (.waitOnPort n) → portIndex n = .ok i → s.port i = none
  opened : a = .resume → ∀ tk n i, s.task s.current = some tk → tk.pc = .woken (.waitOnPort n) →
    portIndex n = .ok i → s.port i ≠ none

/-! ## The invariant -/

/-- What the scheduler sees of a task. -/
def State.look (s : State) (t : ℕ) : Option (TaskState × Pc) :=
  (s.task t).map fun tk => (tk.state, tk.pc)

/-- A task that waits for the port `i`. -/
def Pc.WaitsFor (i : ℕ) : Pc → Prop
  | .sleep (.waitOnPort n) => n = i
  | .woken (.waitOnPort n) => n = i
  | _ => False

/-- The lists and the states of tasks agree. -/
structure Queues (s : State) : Prop where
  toKill : s.toKill = none
  nodup : s.runq.Nodup
  onQueue : ∀ t ∈ s.runq, ∃ pc, s.look t = some (.runnable, pc)
  queued : ∀ t pc, s.look t = some (.runnable, pc) → t ≠ s.idleTask → t ∈ s.runq
  running : ∀ t pc, s.look t = some (.running, pc) → t = s.current
  waits : ∀ i, ∀ t ∈ s.portWaitList i, ∃ pc : Pc, s.look t = some (.waiting, pc) ∧ pc.WaitsFor i
  waitNodup : ∀ i, (s.portWaitList i).Nodup
  idle : ∀ i, s.idleTask ∉ s.portWaitList i
  fresh : ∀ t, s.nextTask ≤ t → s.look t = none

/-- The same, and a task that is not about to call `schedule()` is running. -/
structure RunQueue (s : State) : Prop extends Queues s where
  current : ∀ st pc, s.look s.current = some (st, pc) → (∀ k, pc ≠ .sleep k) → st = .running

section

variable (s : State)

theorem look_eq_some {s : State} {t : ℕ} {st : TaskState} {pc : Pc} :
    s.look t = some (st, pc) ↔ ∃ tk, s.task t = some tk ∧ tk.state = st ∧ tk.pc = pc := by
  simp [State.look, Option.map_eq_some_iff]

theorem look_setTask_self (t : ℕ) (tk : Task) : (s.setTask t tk).look t = some (tk.state, tk.pc) := by
  rw [State.look, State.setTask_self, Option.map_some]

theorem look_setTask_of_ne {t t' : ℕ} (h : t' ≠ t) (tk : Task) : (s.setTask t tk).look t' = s.look t' := by
  rw [State.look, State.setTask_of_ne _ h, State.look]

end

theorem Pc.WaitsFor.unique {pc : Pc} {i j : ℕ} (hi : pc.WaitsFor i) (hj : pc.WaitsFor j) : i = j := by
  cases pc with
  | user => exact hi.elim
  | sleep k | woken k =>
    cases k with
    | waitOnPort n => exact Nat.cast_injective (R := ℤ) (hi.symm.trans hj)
    | waitOn | exit | idle => exact hi.elim

theorem RunQueue.queueOk {s : State} (h : RunQueue s) : QueueOk s where
  runq := h.nodup
  portWaitList := h.waitNodup
  apart := by
    intro i t ht hq
    obtain ⟨pc, hw, -⟩ := h.waits i t ht
    obtain ⟨pc', hr⟩ := h.onQueue t hq
    rw [hw] at hr
    cases hr
  ports := by
    intro i j t hi hj
    obtain ⟨pc, hw, hpi⟩ := h.waits i t hi
    obtain ⟨pc', hw', hpj⟩ := h.waits j t hj
    rw [hw] at hw'
    cases hw'
    exact hpi.unique hpj
  runnable := by
    intro tk _ _ t tk' ht hst hne
    exact List.count_eq_one_of_mem h.nodup (h.queued t tk'.pc (look_eq_some.2 ⟨tk', ht, hst, rfl⟩) hne)
  waiting := by
    intro tk _ _ t ht tk' htk'
    obtain ⟨pc, hr⟩ := h.onQueue t ht
    obtain ⟨tk₁, htk₁, hst, -⟩ := look_eq_some.1 hr
    rw [htk', Option.some.injEq] at htk₁
    subst htk₁
    simp [hst]
  running := by
    intro tk htk hpc
    refine h.current tk.state tk.pc (look_eq_some.2 ⟨tk, htk, rfl, rfl⟩) ?_
    simp [hpc]

/-! ## Woken tasks -/

theorem Calls.look {w : List ℕ} {s s' : State} (h : Calls w s s') (t : ℕ) :
    s'.look t = (s.look t).map fun x => (if t ∈ w then .runnable else x.1, x.2) := by
  cases hs : s.task t with
  | none => simp [State.look, hs, h.none t hs]
  | some tk =>
    obtain ⟨tk', htk', fds, astable, -, -, rfl⟩ := h.task t tk hs
    simp [State.look, hs, htk']

theorem Queues.perm {s : State} (h : Queues s) {l : List ℕ} (hl : l.Perm s.runq) :
    Queues { s with runq := l } :=
  { h with
    nodup := hl.nodup_iff.2 h.nodup
    onQueue := fun t ht => h.onQueue t (hl.subset ht)
    queued := fun t pc ht hne => hl.symm.subset (h.queued t pc ht hne) }

/-- Tasks that do not wait for a port were woken. -/
theorem Queues.calls {w : List ℕ} {s s' : State} (h : Queues s) (hc : Calls w s s')
    (hw : ∀ t ∈ w, ∀ i, t ∉ s.portWaitList i) : Queues s' := by
  have hwaiting : ∀ t ∈ w, ∃ pc, s.look t = some (.waiting, pc) := by
    intro t ht
    obtain ⟨tk, htk, hst⟩ := hc.waiting t ht
    exact ⟨tk.pc, look_eq_some.2 ⟨tk, htk, hst, rfl⟩⟩
  have hother : ∀ t, t ∉ w → s'.look t = s.look t := by
    intro t ht
    rw [hc.look t]
    cases s.look t <;> simp [ht]
  refine ⟨hc.toKill.trans h.toKill, ?_, ?_, ?_, ?_, ?_, ?_, ?_, ?_⟩
  · rw [hc.runq]
    refine List.Nodup.append hc.nodup h.nodup ?_
    intro t ht hq
    obtain ⟨pc, hpc⟩ := hwaiting t ht
    obtain ⟨pc', hpc'⟩ := h.onQueue t hq
    rw [hpc] at hpc'
    cases hpc'
  · intro t ht
    rw [hc.runq, List.mem_append] at ht
    by_cases hin : t ∈ w
    · obtain ⟨pc, hpc⟩ := hwaiting t hin
      exact ⟨pc, by simp [hc.look t, hpc, hin]⟩
    · rw [hother t hin]
      exact h.onQueue t (ht.resolve_left hin)
  · intro t pc ht hne
    rw [hc.runq, List.mem_append]
    by_cases hin : t ∈ w
    · exact .inl hin
    · rw [hother t hin] at ht
      rw [hc.idleTask] at hne
      exact .inr (h.queued t pc ht hne)
  · intro t pc ht
    rw [hc.current]
    by_cases hin : t ∈ w
    · obtain ⟨pc', hpc'⟩ := hwaiting t hin
      simp [hc.look t, hpc', hin] at ht
    · rw [hother t hin] at ht
      exact h.running t pc ht
  · intro i t ht
    rw [hc.portWaitList] at ht
    rw [hother t fun hin => hw t hin i ht]
    exact h.waits i t ht
  · rw [hc.portWaitList]
    exact h.waitNodup
  · rw [hc.portWaitList, hc.idleTask]
    exact h.idle
  · intro t ht
    rw [hc.nextTask] at ht
    rw [hc.look t, h.fresh t ht, Option.map_none]

/-- The current task stays what it was. -/
theorem Queues.calls_current {w : List ℕ} {s s' : State} (h : Calls w s s') {pc : Pc}
    (hcur : s.look s.current = some (.running, pc)) : s'.look s'.current = some (.running, pc) := by
  have hnot : s.current ∉ w := by
    intro hin
    obtain ⟨tk, htk, hst⟩ := h.waiting _ hin
    obtain ⟨tk', htk', hst', -⟩ := look_eq_some.1 hcur
    rw [htk, Option.some.injEq] at htk'
    rw [htk', hst'] at hst
    cases hst
  rw [h.current, h.look, hcur]
  simp [hnot]

/-- The current task runs. -/
def Running (s : State) : Prop := ∃ pc, s.look s.current = some (.running, pc)

theorem Running.calls {w : List ℕ} {s s' : State} (h : Running s) (hc : Calls w s s') : Running s' := by
  obtain ⟨pc, hpc⟩ := h
  exact ⟨pc, Queues.calls_current hc hpc⟩

theorem Running.same {s s' : State} (h : Running s) (hcur : s'.current = s.current)
    (hlook : s'.look s.current = s.look s.current) : Running s' := by
  obtain ⟨pc, hpc⟩ := h
  exact ⟨pc, by rw [hcur, hlook, hpc]⟩

theorem RunQueue.calls {w : List ℕ} {s s' : State} (h : RunQueue s) (hc : Calls w s s')
    (hw : ∀ t ∈ w, ∀ i, t ∉ s.portWaitList i) : RunQueue s' := by
  refine ⟨h.toQueues.calls hc hw, ?_⟩
  intro st pc hcur hpc
  rw [hc.current, hc.look] at hcur
  cases hs : s.look s.current with
  | none => simp [hs] at hcur
  | some x =>
    obtain ⟨st₀, pc₀⟩ := x
    rw [hs, Option.map_some, Option.some.injEq, Prod.mk.injEq] at hcur
    obtain ⟨rfl, rfl⟩ := hcur
    obtain rfl := h.current st₀ pc₀ hs hpc
    have hback := Queues.calls_current hc hs
    rw [hc.current, hc.look, hs, Option.map_some, Option.some.injEq, Prod.mk.injEq] at hback
    exact hback.1

theorem RunQueue.ipc {s s' : State} (h : RunQueue s) (hw : ∀ i, ∀ t ∈ s.portWaitList i, ¬Watched s t)
    (hi : Ipc s s') : RunQueue s' := by
  obtain ⟨⟨w, hc, hwatched⟩, -⟩ := hi
  exact h.calls hc fun t ht i hin => hw i t hin (hwatched t ht)

theorem RunQueue.quiet {s s' : State} (h : RunQueue s) (hq : Quiet s s') : RunQueue s' :=
  h.calls hq (by simp)

/-! ## The current task -/

/-- The current task with another state, at another place. -/
def State.setCur (s : State) (st : TaskState) (pc : Pc) : State := (s.setState st).setPc pc

theorem setCur_eq {s : State} {tk : Task} (h : s.task s.current = some tk) (st : TaskState) (pc : Pc) :
    s.setCur st pc = s.setTask s.current { tk with state := st, pc } := by
  simp [State.setCur, State.setState, State.setPc, h, State.setTask, Function.update_idem]

theorem setPc_eq {s : State} {tk : Task} (h : s.task s.current = some tk) (pc : Pc) :
    s.setPc pc = s.setTask s.current { tk with pc } := by
  simp [State.setPc, h]

/-- A running task goes on, or stops to run before it calls `schedule()`. -/
theorem RunQueue.setTask {s : State} (h : RunQueue s) {tk b : Task} (htk : s.task s.current = some tk)
    (hrun : tk.state = .running) (hb : b.state = .running ∨
      b.state ≠ .runnable ∧ ∃ k, b.pc = .sleep k) : RunQueue (s.setTask s.current b) := by
  have hlook : s.look s.current = some (.running, tk.pc) := look_eq_some.2 ⟨tk, htk, hrun, rfl⟩
  have hnot : b.state ≠ .runnable := by
    rcases hb with hb | hb
    · simp [hb]
    · exact hb.1
  refine ⟨⟨h.toKill, h.nodup, ?_, ?_, ?_, ?_, h.waitNodup, h.idle, ?_⟩, ?_⟩
  · intro t ht
    obtain ⟨pc, hpc⟩ := h.onQueue t ht
    have hne : t ≠ s.current := by
      rintro rfl
      rw [hlook] at hpc
      cases hpc
    exact ⟨pc, (look_setTask_of_ne s hne b).trans hpc⟩
  · intro t pc ht hne
    by_cases heq : t = s.current
    · subst heq
      rw [look_setTask_self, Option.some.injEq, Prod.mk.injEq] at ht
      exact absurd ht.1 hnot
    · rw [look_setTask_of_ne s heq] at ht
      exact h.queued t pc ht hne
  · intro t pc ht
    by_cases heq : t = s.current
    · exact heq
    · rw [look_setTask_of_ne s heq] at ht
      exact h.running t pc ht
  · intro i t ht
    obtain ⟨pc, hpc, hw⟩ := h.waits i t ht
    have hne : t ≠ s.current := by
      rintro rfl
      rw [hlook] at hpc
      cases hpc
    exact ⟨pc, (look_setTask_of_ne s hne b).trans hpc, hw⟩
  · intro t ht
    have hne : t ≠ s.current := by
      rintro rfl
      rw [h.fresh _ ht] at hlook
      cases hlook
    exact (look_setTask_of_ne s hne b).trans (h.fresh t ht)
  · intro st pc hcur hpc
    change (s.setTask s.current b).look s.current = some (st, pc) at hcur
    rw [look_setTask_self, Option.some.injEq, Prod.mk.injEq] at hcur
    obtain ⟨rfl, rfl⟩ := hcur
    rcases hb with hb | ⟨-, k, hk⟩
    · exact hb
    · exact absurd hk (hpc k)

/-- `setPc` after a part of a call that was quiet. -/
theorem Quiet.setPc {s₀ s : State} (h : Quiet s₀ s) (pc : Pc) : Quiet (s₀.setPc pc) (s.setPc pc) := by
  have hcur := h.current
  unfold State.setPc
  cases hs : s₀.task s₀.current with
  | none =>
    rw [hcur, h.none _ hs]
    exact h
  | some tk =>
    obtain ⟨tk', htk', fds, astable, hf, ha, rfl⟩ := h.task _ tk hs
    rw [hcur, htk']
    dsimp only
    refine ⟨hcur, h.idleTask, h.toKill, h.nextTask, h.tasks, h.portWaitList, h.ports, h.runq,
      List.nodup_nil, by simp, ?_, ?_⟩
    · intro t ht
      by_cases hne : t = s₀.current
      · subst hne
        rw [State.setTask_self] at ht
        cases ht
      · rw [State.setTask_of_ne _ hne] at ht ⊢
        exact h.none t ht
    · intro t tk₁ ht
      by_cases hne : t = s₀.current
      · subst hne
        rw [State.setTask_self, Option.some.injEq] at ht
        subst ht
        exact ⟨_, State.setTask_self .., fds, astable, hf, ha, by simp⟩
      · rw [State.setTask_of_ne _ hne] at ht ⊢
        exact h.task t tk₁ ht

/-- `wait_on` returned, or waits. -/
theorem RunQueue.goes {s : State} (h : RunQueue s) {tk : Task} (htk : s.task s.current = some tk)
    (hrun : tk.state = .running) {r : Outcome × State} (hr : Quiet.Goes s r) : RunQueue (settle r) := by
  obtain ⟨o, s'⟩ := r
  obtain ⟨hret, hsleep⟩ := hr
  cases o with
  | ret v =>
    rcases hret v rfl with hq | hq
    · refine RunQueue.quiet ?_ (hq.setPc .user)
      rw [setPc_eq htk]
      exact h.setTask htk hrun (.inl hrun)
    · refine RunQueue.quiet ?_ (hq.setPc .user)
      change RunQueue (s.setCur .running .user)
      rw [setCur_eq htk]
      exact h.setTask htk hrun (.inl rfl)
  | sleep k =>
    refine RunQueue.quiet ?_ ((hsleep k rfl).1.setPc (.sleep k))
    change RunQueue (s.setCur .waiting (.sleep k))
    rw [setCur_eq htk]
    exact h.setTask htk hrun (.inr ⟨by simp, k, rfl⟩)

/-! ## The scheduler -/

/-- States that differ in nothing the scheduler sees. -/
theorem RunQueue.congr {s s' : State} (h : RunQueue s) (hlook : ∀ t, s'.look t = s.look t)
    (hcur : s'.current = s.current) (hidle : s'.idleTask = s.idleTask)
    (hnext : s'.nextTask = s.nextTask) (hwait : s'.portWaitList = s.portWaitList)
    (hrunq : s'.runq = s.runq) (hkill : s'.toKill = none) : RunQueue s' := by
  refine ⟨⟨hkill, ?_, ?_, ?_, ?_, ?_, ?_, ?_, ?_⟩, ?_⟩
  · rw [hrunq]
    exact h.nodup
  · intro t ht
    rw [hrunq] at ht
    rw [hlook]
    exact h.onQueue t ht
  · intro t pc ht hne
    rw [hlook] at ht
    rw [hidle] at hne
    rw [hrunq]
    exact h.queued t pc ht hne
  · intro t pc ht
    rw [hlook] at ht
    rw [hcur]
    exact h.running t pc ht
  · intro i t ht
    rw [hwait] at ht
    rw [hlook]
    exact h.waits i t ht
  · rw [hwait]
    exact h.waitNodup
  · rw [hwait, hidle]
    exact h.idle
  · intro t ht
    rw [hnext] at ht
    rw [hlook]
    exact h.fresh t ht
  · rw [hcur, hlook]
    exact h.current

/-- A zombie is gone. -/
theorem RunQueue.remove {s s' : State} (h : RunQueue s) {z : ℕ} {pc : Pc}
    (hz : s.look z = some (.zombie, pc)) (hlook : ∀ t, t ≠ z → s'.look t = s.look t)
    (hnone : s'.look z = none) (hcur : s'.current = s.current) (hidle : s'.idleTask = s.idleTask)
    (hnext : s'.nextTask = s.nextTask) (hwait : s'.portWaitList = s.portWaitList)
    (hrunq : s'.runq = s.runq) (hkill : s'.toKill = none) : RunQueue s' := by
  refine ⟨⟨hkill, by rw [hrunq]; exact h.nodup, ?_, ?_, ?_, ?_, by rw [hwait]; exact h.waitNodup,
    by rw [hwait, hidle]; exact h.idle, ?_⟩, ?_⟩
  · intro t ht
    rw [hrunq] at ht
    obtain ⟨pc', hpc⟩ := h.onQueue t ht
    have hne : t ≠ z := by
      rintro rfl
      rw [hz] at hpc
      cases hpc
    exact ⟨pc', (hlook t hne).trans hpc⟩
  · intro t pc' ht hne
    by_cases heq : t = z
    · rw [heq, hnone] at ht
      cases ht
    · rw [hlook t heq] at ht
      rw [hidle] at hne
      rw [hrunq]
      exact h.queued t pc' ht hne
  · intro t pc' ht
    by_cases heq : t = z
    · rw [heq, hnone] at ht
      cases ht
    · rw [hlook t heq] at ht
      rw [hcur]
      exact h.running t pc' ht
  · intro i t ht
    rw [hwait] at ht
    obtain ⟨pc', hpc, hw⟩ := h.waits i t ht
    have hne : t ≠ z := by
      rintro rfl
      rw [hz] at hpc
      cases hpc
    exact ⟨pc', (hlook t hne).trans hpc, hw⟩
  · intro t ht
    rw [hnext] at ht
    by_cases heq : t = z
    · rw [heq, hnone]
    · rw [hlook t heq]
      exact h.fresh t ht
  · intro st pc' hc hpc
    rw [hcur] at hc
    by_cases heq : s.current = z
    · rw [heq, hnone] at hc
      cases hc
    · rw [hlook _ heq] at hc
      exact h.current st pc' hc hpc

/-- `s` will be in order when `to_kill` is reset. -/
def Settling (s : State) : Prop := RunQueue { s with toKill := none }

theorem Settling.congr {s s' : State} (h : Settling s) (hlook : ∀ t, s'.look t = s.look t)
    (hcur : s'.current = s.current) (hidle : s'.idleTask = s.idleTask)
    (hnext : s'.nextTask = s.nextTask) (hwait : s'.portWaitList = s.portWaitList)
    (hrunq : s'.runq = s.runq) : Settling s' :=
  RunQueue.congr h hlook hcur hidle hnext hwait hrunq rfl

theorem Settling.execMm {s : State} (h : Settling s) (x : Except SadOS.Fault Mm.State) :
    Safely InTables (fun s' => Settling s' ∧ s'.look = s.look) (s.execMm x) := by
  unfold State.execMm
  split
  · exact ⟨h.congr (fun _ => rfl) rfl rfl rfl rfl rfl, rfl⟩
  · simp [InTables]

theorem Settling.killProcess {s : State} (h : Settling s) {z : ℕ} {pc : Pc}
    (hz : z ≠ s.current → s.look z = some (.zombie, pc)) :
    Safely InTables Settling (killProcess s z) := by
  unfold Kernel.killProcess
  split
  · simp [InTables]
  rename_i hne
  have hz := hz hne
  simp only [safely_bind]
  refine (reads_getTask s z).mono ?_
  intro tk htk
  refine Safely.mono (Q := fun s' => Settling s' ∧ s'.look = s.look) ?_ ?_
  · split
    · exact h.execMm _
    · simp [InTables]
  rintro s₁ ⟨h₁, hl₁⟩
  refine (safely_foldlM (fun _ s' => Settling s' ∧ s'.look = s.look) ?_ ?_).mono ?_
  · exact ⟨h₁.congr (fun _ => rfl) rfl rfl rfl rfl rfl, hl₁⟩
  · rintro child rest s₂ ⟨h₂, hl₂⟩
    simp only [orphan, safely_bind, safely_pure]
    have hlook : ∀ (s' : State) (c : ℕ) (ck b : Task), s'.task c = some ck → b.state = ck.state →
        b.pc = ck.pc → ∀ t, (s'.setTask c b).look t = s'.look t := by
      intro s' c ck b hck hst hpc t
      by_cases heq : t = c
      · subst heq
        rw [look_setTask_self]
        exact (look_eq_some.2 ⟨ck, hck, hst.symm, hpc.symm⟩).symm
      · exact look_setTask_of_ne s' heq _
    refine (reads_getTask s₂ z).mono ?_
    intro pk hpk
    refine (reads_getTask _ child).mono ?_
    intro ck hck
    have hboth : ∀ t, ((s₂.setTask z { pk with children := pk.children.erase child }).setTask child
        { ck with parent := none }).look t = s₂.look t := fun t =>
      (hlook _ child ck { ck with parent := none } hck rfl rfl t).trans
        (hlook s₂ z pk { pk with children := pk.children.erase child } hpk rfl rfl t)
    exact ⟨h₂.congr hboth rfl rfl rfl rfl rfl, (funext hboth).trans hl₂⟩
  rintro s₃ ⟨h₃, hl₃⟩
  split
  · refine @RunQueue.remove _ _ h₃ z pc ?_ ?_ ?_ rfl rfl rfl rfl rfl rfl
    · change s₃.look z = _
      rw [hl₃, hz]
    · intro t ht
      simp [State.look, Function.update_of_ne ht]
    · simp [State.look]
  · exact h₃

/-- A running task went to the end of the run queue, so no task is running. -/
theorem Queues.requeue {s : State} (h : Queues s) :
    Safely InTables (fun s' => Queues s' ∧ ∀ t pc, s'.look t ≠ some (.running, pc))
      (requeue s) := by
  simp only [Kernel.requeue, State.cur, safely_bind]
  refine (reads_getTask s _).mono ?_
  intro tk htk
  have hlook : s.look s.current = some (tk.state, tk.pc) := look_eq_some.2 ⟨tk, htk, rfl, rfl⟩
  split
  · rename_i hrun
    rw [hrun] at hlook
    have hnot : s.current ∉ s.runq := by
      intro hin
      obtain ⟨pc, hpc⟩ := h.onQueue _ hin
      rw [hlook] at hpc
      cases hpc
    obtain ⟨b, hb⟩ : ∃ b : Task, b = { tk with state := .runnable } := ⟨_, rfl⟩
    have hself : (s.setTask s.current b).look s.current = some (.runnable, tk.pc) := by
      rw [look_setTask_self, hb]
    rw [← hb]
    refine ⟨⟨h.toKill, ?_, ?_, ?_, ?_, ?_, h.waitNodup, h.idle, ?_⟩, ?_⟩
    · exact List.nodup_append'.2 ⟨h.nodup, List.nodup_singleton _, by simpa using hnot⟩
    · intro t ht
      rcases List.mem_append.1 ht with ht | ht
      · obtain ⟨pc, hpc⟩ := h.onQueue t ht
        have hne : t ≠ s.current := fun heq => hnot (heq ▸ ht)
        exact ⟨pc, (look_setTask_of_ne s hne b).trans hpc⟩
      · rw [List.mem_singleton] at ht
        subst ht
        exact ⟨tk.pc, hself⟩
    · intro t pc ht hne
      by_cases heq : t = s.current
      · exact List.mem_append.2 (.inr (by simp [heq]))
      · change (s.setTask s.current b).look t = _ at ht
        rw [look_setTask_of_ne s heq] at ht
        exact List.mem_append.2 (.inl (h.queued t pc ht hne))
    · intro t pc ht
      by_cases heq : t = s.current
      · exact heq
      · change (s.setTask s.current b).look t = _ at ht
        rw [look_setTask_of_ne s heq] at ht
        exact h.running t pc ht
    · intro i t ht
      obtain ⟨pc, hpc, hw⟩ := h.waits i t ht
      have hne : t ≠ s.current := by
        rintro rfl
        rw [hlook] at hpc
        cases hpc
      exact ⟨pc, (look_setTask_of_ne s hne b).trans hpc, hw⟩
    · intro t ht
      have hne : t ≠ s.current := by
        rintro rfl
        rw [h.fresh _ ht] at hlook
        cases hlook
      exact (look_setTask_of_ne s hne b).trans (h.fresh t ht)
    · intro t pc ht
      change (s.setTask s.current b).look t = _ at ht
      by_cases heq : t = s.current
      · rw [heq, hself] at ht
        cases ht
      · rw [look_setTask_of_ne s heq] at ht
        exact heq (h.running t pc ht)
  · rename_i hrun
    refine ⟨h, ?_⟩
    intro t pc ht
    obtain rfl := h.running t pc ht
    rw [hlook, Option.some.injEq, Prod.mk.injEq] at ht
    exact hrun ht.1

/-- The task that was taken from the run queue runs. -/
theorem Queues.dispatch {s s' : State} (h : Queues s) (hno : ∀ t pc, s.look t ≠ some (.running, pc))
    {next : ℕ} {rest : List ℕ} (hq : s.runq = next :: rest ∨ s.runq = [] ∧ rest = [] ∧ next = s.idleTask)
    {pc : Pc} (hlook : ∀ t, t ≠ next → s'.look t = s.look t) (hnext : s'.look next = some (.running, pc))
    (hex : ∃ x, s.look next = some x) (hcur : s'.current = next) (hidle : s'.idleTask = s.idleTask)
    (hfresh : s'.nextTask = s.nextTask) (hwait : s'.portWaitList = s.portWaitList)
    (hrunq : s'.runq = rest) (hkill : s'.toKill = none) : RunQueue s' := by
  have hsub : ∀ t ∈ rest, t ∈ s.runq ∧ t ≠ next := by
    intro t ht
    rcases hq with hq | ⟨-, hrest, -⟩
    · have hn := h.nodup
      rw [hq, List.nodup_cons] at hn
      exact ⟨hq ▸ List.mem_cons_of_mem _ ht, fun heq => hn.1 (heq ▸ ht)⟩
    · rw [hrest] at ht
      cases ht
  refine ⟨⟨hkill, ?_, ?_, ?_, ?_, ?_, ?_, ?_, ?_⟩, ?_⟩
  · rw [hrunq]
    rcases hq with hq | ⟨-, hrest, -⟩
    · have hn := h.nodup
      rw [hq] at hn
      exact hn.of_cons
    · rw [hrest]
      exact List.nodup_nil
  · intro t ht
    rw [hrunq] at ht
    obtain ⟨hin, hne⟩ := hsub t ht
    rw [hlook t hne]
    exact h.onQueue t hin
  · intro t pc' ht hne
    rw [hidle] at hne
    rw [hrunq]
    by_cases heq : t = next
    · rw [heq, hnext] at ht
      cases ht
    · rw [hlook t heq] at ht
      have hin := h.queued t pc' ht hne
      rcases hq with hq | ⟨hq, -, -⟩
      · rw [hq, List.mem_cons] at hin
        exact hin.resolve_left heq
      · rw [hq] at hin
        cases hin
  · intro t pc' ht
    rw [hcur]
    by_contra hne
    rw [hlook t hne] at ht
    exact hno t pc' ht
  · intro i t ht
    rw [hwait] at ht
    obtain ⟨pc', hpc, hw⟩ := h.waits i t ht
    have hne : t ≠ next := by
      rintro rfl
      rcases hq with hq | ⟨-, -, hn⟩
      · obtain ⟨pc'', hr⟩ := h.onQueue t (hq ▸ List.mem_cons_self)
        rw [hpc] at hr
        cases hr
      · exact h.idle i (hn ▸ ht)
    exact ⟨pc', (hlook t hne).trans hpc, hw⟩
  · rw [hwait]
    exact h.waitNodup
  · rw [hwait, hidle]
    exact h.idle
  · intro t ht
    rw [hfresh] at ht
    have hne : t ≠ next := by
      rintro rfl
      obtain ⟨x, hx⟩ := hex
      rw [h.fresh t ht] at hx
      cases hx
    rw [hlook t hne]
    exact h.fresh t ht
  · intro st pc' hc _
    rw [hcur, hnext, Option.some.injEq, Prod.mk.injEq] at hc
    exact hc.1.symm

theorem Queues.congr {s s' : State} (h : Queues s) (hlook : ∀ t, s'.look t = s.look t)
    (hcur : s'.current = s.current) (hidle : s'.idleTask = s.idleTask)
    (hnext : s'.nextTask = s.nextTask) (hwait : s'.portWaitList = s.portWaitList)
    (hrunq : s'.runq = s.runq) (hkill : s'.toKill = none) : Queues s' := by
  refine ⟨hkill, by rw [hrunq]; exact h.nodup, ?_, ?_, ?_, ?_, by rw [hwait]; exact h.waitNodup,
    by rw [hwait, hidle]; exact h.idle, ?_⟩
  · intro t ht
    rw [hrunq] at ht
    rw [hlook]
    exact h.onQueue t ht
  · intro t pc ht hne
    rw [hlook] at ht
    rw [hidle] at hne
    rw [hrunq]
    exact h.queued t pc ht hne
  · intro t pc ht
    rw [hlook] at ht
    rw [hcur]
    exact h.running t pc ht
  · intro i t ht
    rw [hwait] at ht
    rw [hlook]
    exact h.waits i t ht
  · intro t ht
    rw [hnext] at ht
    rw [hlook]
    exact h.fresh t ht

theorem Queues.schedule {s : State} (h : Queues s) : Safely InTables RunQueue (schedule s) := by
  unfold Kernel.schedule
  split
  · simp [InTables]
  split
  · simp [InTables]
  simp only [safely_bind]
  have hoff : Queues (disableInterrupts s) := h.congr (fun _ => rfl) rfl rfl rfl rfl rfl h.toKill
  refine hoff.requeue.mono ?_
  rintro s₁ ⟨h₁, hno⟩
  obtain ⟨next, rest, hn, hq⟩ : ∃ next rest, Kernel.nextTask s₁ = (next, { s₁ with runq := rest }) ∧
      (s₁.runq = next :: rest ∨ s₁.runq = [] ∧ rest = [] ∧ next = s₁.idleTask) := by
    unfold Kernel.nextTask
    split
    · rename_i next rest hq
      exact ⟨next, rest, rfl, .inl hq⟩
    · rename_i hq
      exact ⟨s₁.idleTask, [], by rw [← hq], .inr ⟨hq, rfl, rfl⟩⟩
  rw [hn]
  refine (reads_getTask _ _).mono ?_
  intro nt hnt
  simp only [State.cur]
  refine (reads_getTask _ _).mono ?_
  intro tk htk
  obtain ⟨s₃, hs₃⟩ : ∃ s₃, s₃ = switchTo
      (if tk.state = .zombie then { s₁ with runq := rest, toKill := some s₁.current }
        else { s₁ with runq := rest }) next nt.space :=
    ⟨_, rfl⟩
  have htask : s₃.task = s₁.task := by
    rw [hs₃]
    split <;> rfl
  have hcur : s₃.current = next := by rw [hs₃]; rfl
  have hfields : s₃.idleTask = s₁.idleTask ∧ s₃.nextTask = s₁.nextTask ∧
      s₃.portWaitList = s₁.portWaitList ∧ s₃.runq = rest := by
    rw [hs₃]
    split <;> exact ⟨rfl, rfl, rfl, rfl⟩
  have hkill : ∀ z, s₃.toKill = some z → s₁.look z = some (.zombie, tk.pc) := by
    intro z hz
    rw [hs₃] at hz
    split at hz
    · rename_i hzombie
      rw [show z = s₁.current from (Option.some.inj hz).symm]
      exact look_eq_some.2 ⟨tk, htk, hzombie, rfl⟩
    · rw [show (switchTo { s₁ with runq := rest } next nt.space).toKill = s₁.toKill from rfl,
        h₁.toKill] at hz
      cases hz
  rw [← hs₃]
  simp only [afterSwitch, State.cur, safely_bind]
  refine (reads_getTask _ _).mono ?_
  intro nt' hnt'
  obtain ⟨s₄, hs₄⟩ : ∃ s₄, s₄ = s₃.setTask s₃.current { nt' with state := .running } := ⟨_, rfl⟩
  have hother : ∀ t, t ≠ next → s₄.look t = s₁.look t := by
    intro t ht
    rw [hs₄, look_setTask_of_ne _ (hcur ▸ ht), State.look, htask, State.look]
  have h₄ : Settling s₄ := by
    refine @Queues.dispatch _ _ h₁ hno _ _ hq nt'.pc hother ?_ ?_ ?_ ?_ ?_ ?_ ?_ rfl
    · change s₄.look next = _
      rw [hs₄, hcur, look_setTask_self]
    · exact ⟨_, look_eq_some.2 ⟨nt, hnt, rfl, rfl⟩⟩
    · rw [hs₄]
      exact hcur
    · rw [hs₄]
      exact hfields.1
    · rw [hs₄]
      exact hfields.2.1
    · rw [hs₄]
      exact hfields.2.2.1
    · rw [hs₄]
      exact hfields.2.2.2
  rw [← hs₄]
  have hkill₄ : s₄.toKill = s₃.toKill := by rw [hs₄]; rfl
  have hcur₄ : s₄.current = next := by rw [hs₄]; exact hcur
  refine Safely.mono (Q := RunQueue) ?_ ?_
  · split
    · rename_i z hz
      simp only [safely_bind, safely_pure]
      refine (@Settling.killProcess _ h₄ _ tk.pc ?_).mono fun _ h₅ => h₅
      intro hne
      rw [hcur₄] at hne
      rw [hother z hne]
      exact hkill z (hkill₄ ▸ hz)
    · rename_i hz
      exact RunQueue.congr h₄ (fun _ => rfl) rfl rfl rfl rfl rfl hz
  intro s₅ h₅
  exact (Quiet.enable (Calls.refl s₅)).mono fun _ hq => h₅.quiet hq

/-! ## Ports and new tasks -/

/-- One task that waited for a port is woken. -/
theorem RunQueue.wakeWaiter {s : State} (h : RunQueue s) (hrunning : Running s) {i t : ℕ}
    {rest : List ℕ} (hl : s.portWaitList i = t :: rest) :
    Safely InTables (fun s' => (RunQueue s' ∧ Running s') ∧ s'.portWaitList i = rest)
      (wakeWaiter i s t) := by
  have hin : t ∈ s.portWaitList i := hl ▸ List.mem_cons_self
  obtain ⟨pc, hpc, hw⟩ := h.waits i t hin
  obtain ⟨tk, htk, hst, hpc'⟩ := look_eq_some.1 hpc
  have herase : (s.portWaitList i).erase t = rest := by rw [hl, List.erase_cons_head]
  have hnd := h.waitNodup i
  rw [hl, List.nodup_cons] at hnd
  simp only [Kernel.wakeWaiter, wakeUp, herase, safely_bind]
  refine (reads_getTask _ t).mono ?_
  intro tk' htk'
  change s.task t = some tk' at htk'
  rw [htk, Option.some.injEq] at htk'
  subst htk'
  rw [if_pos hst]
  obtain ⟨b, hb⟩ : ∃ b : Task, b = { tk with state := .runnable } := ⟨_, rfl⟩
  rw [← hb]
  have hother : ∀ t', t' ≠ t → (s.setTask t b).look t' = s.look t' := fun t' => (look_setTask_of_ne s · b)
  have hself : (s.setTask t b).look t = some (.runnable, pc) := by
    rw [look_setTask_self, hb, ← hpc']
  have hnotq : t ∉ s.runq := by
    intro hq
    obtain ⟨pc'', hr⟩ := h.onQueue t hq
    rw [hpc] at hr
    cases hr
  have hlist : ∀ j, ∀ t' ∈ Function.update s.portWaitList i rest j, t' ∈ s.portWaitList j ∧ t' ≠ t := by
    intro j t' ht'
    by_cases hj : j = i
    · subst hj
      rw [Function.update_self] at ht'
      exact ⟨hl ▸ List.mem_cons_of_mem _ ht', fun heq => hnd.1 (heq ▸ ht')⟩
    · rw [Function.update_of_ne hj] at ht'
      refine ⟨ht', ?_⟩
      rintro rfl
      obtain ⟨pc'', hpc'', hw'⟩ := h.waits j t' ht'
      rw [hpc, Option.some.injEq, Prod.mk.injEq] at hpc''
      exact hj ((hpc''.2 ▸ hw').unique hw)
  have hcurne : s.current ≠ t := by
    rintro heq
    obtain ⟨pc', hr⟩ := hrunning
    rw [heq, hpc] at hr
    cases hr
  refine ⟨⟨⟨⟨h.toKill, ?_, ?_, ?_, ?_, ?_, ?_, ?_, ?_⟩, ?_⟩, hrunning.same rfl (hother _ hcurne)⟩,
    Function.update_self ..⟩
  · exact List.nodup_cons.2 ⟨hnotq, h.nodup⟩
  · intro t' ht'
    rcases List.mem_cons.1 ht' with rfl | ht'
    · exact ⟨pc, hself⟩
    · obtain ⟨pc', hr⟩ := h.onQueue t' ht'
      exact ⟨pc', (hother t' fun heq => hnotq (heq ▸ ht')).trans hr⟩
  · intro t' pc' ht' hne
    by_cases heq : t' = t
    · exact heq ▸ List.mem_cons_self
    · exact List.mem_cons_of_mem _ (h.queued t' pc' ((hother t' heq).symm.trans ht') hne)
  · intro t' pc' ht'
    by_cases heq : t' = t
    · rw [heq] at ht'
      change (s.setTask t b).look t = _ at ht'
      rw [hself] at ht'
      cases ht'
    · exact h.running t' pc' ((hother t' heq).symm.trans ht')
  · intro j t' ht'
    obtain ⟨hj, hne⟩ := hlist j t' ht'
    obtain ⟨pc', hr, hw'⟩ := h.waits j t' hj
    exact ⟨pc', (hother t' hne).trans hr, hw'⟩
  · intro j
    by_cases hj : j = i
    · subst hj
      change (Function.update s.portWaitList j rest j).Nodup
      rw [Function.update_self]
      exact hnd.2
    · change (Function.update s.portWaitList i rest j).Nodup
      rw [Function.update_of_ne hj]
      exact h.waitNodup j
  · exact fun j hj => h.idle j (hlist j _ hj).1
  · intro t' ht'
    have hne : t' ≠ t := by
      rintro rfl
      rw [h.fresh _ ht'] at hpc
      cases hpc
    exact (hother t' hne).trans (h.fresh t' ht')
  · intro st pc' hc hk
    exact h.current st pc' ((hother _ hcurne).symm.trans hc) hk

theorem RunQueue.openPort {s : State} (h : RunQueue s) (hrunning : Running s)
    (hw : ∀ i, ∀ t ∈ s.portWaitList i, ¬Watched s t) {n : ℤ} (h0 : 0 ≤ n) (hn : n < MAX_PORT) :
    Safely InTables (fun r => RunQueue r.2 ∧ Running r.2) (openPort s n) := by
  refine openPort_rule (P := fun s' => RunQueue s' ∧ Running s') h0 hn ?_ ?_ ?_
  · intro s₁ s₂ hi hq
    obtain ⟨⟨w, hc, -⟩, -⟩ := id hi
    exact ⟨(h.ipc hw hi).quiet hq, (hrunning.calls hc).calls hq⟩
  · rintro i s₁ h₁
    refine (safely_foldlM (fun rest s₂ => (RunQueue s₂ ∧ Running s₂) ∧ s₂.portWaitList i = rest)
      ⟨h₁, rfl⟩ ?_).mono fun s₂ h₂ => h₂.1
    rintro t rest s₂ ⟨h₂, hl⟩
    exact h₂.1.wakeWaiter h₂.2 hl
  · rintro s₁ ⟨h₁, hr₁⟩
    exact (Quiet.enable (Calls.refl s₁)).mono fun _ hq => ⟨h₁.quiet hq, hr₁.calls hq⟩

/-- The current task joins the tasks that wait for a port. -/
theorem RunQueue.waitOnPort {s s' : State} (h : RunQueue s) {tk : Task}
    (htk : s.task s.current = some tk) (hrun : tk.state = .running) (hidle : s.current ≠ s.idleTask)
    {n : ℤ} {i : ℕ} (hi : n = i) (hlook : ∀ t, s'.look t = (s.setCur .waiting (.sleep (.waitOnPort n))).look t)
    (hcur : s'.current = s.current) (hid : s'.idleTask = s.idleTask) (hnext : s'.nextTask = s.nextTask)
    (hwait : s'.portWaitList = Function.update s.portWaitList i (s.current :: s.portWaitList i))
    (hrunq : s'.runq = s.runq) (hkill : s'.toKill = none) : RunQueue s' := by
  rw [setCur_eq htk] at hlook
  obtain ⟨b, hb⟩ : ∃ b : Task, b = { tk with state := .waiting, pc := .sleep (.waitOnPort n) } := ⟨_, rfl⟩
  rw [← hb] at hlook
  have h₁ : RunQueue (s.setTask s.current b) :=
    h.setTask htk hrun (.inr (by rw [hb]; exact ⟨by simp, _, rfl⟩))
  have hself : s.look s.current = some (.running, tk.pc) := look_eq_some.2 ⟨tk, htk, hrun, rfl⟩
  have hnot : ∀ j, s.current ∉ s.portWaitList j := by
    intro j hj
    obtain ⟨pc, hpc, -⟩ := h.waits j _ hj
    rw [hself] at hpc
    cases hpc
  have h₂ : RunQueue { s' with portWaitList := s.portWaitList } :=
    h₁.congr hlook hcur hid hnext rfl hrunq hkill
  have hcurlook : s'.look s.current = some (.waiting, .sleep (.waitOnPort n)) := by
    rw [hlook, look_setTask_self, hb]
  refine ⟨⟨hkill, h₂.nodup, h₂.onQueue, h₂.queued, h₂.running, ?_, ?_, ?_, h₂.fresh⟩, h₂.current⟩
  · intro j t ht
    rw [hwait] at ht
    by_cases hj : j = i
    · subst hj
      rw [Function.update_self] at ht
      rcases List.mem_cons.1 ht with rfl | ht
      · exact ⟨_, hcurlook, hi⟩
      · exact h₂.waits j t ht
    · rw [Function.update_of_ne hj] at ht
      exact h₂.waits j t ht
  · intro j
    rw [hwait]
    by_cases hj : j = i
    · subst hj
      rw [Function.update_self]
      exact List.nodup_cons.2 ⟨hnot j, h.waitNodup j⟩
    · rw [Function.update_of_ne hj]
      exact h.waitNodup j
  · intro j hj
    rw [hwait, hid] at hj
    by_cases hji : j = i
    · subst hji
      rw [Function.update_self] at hj
      rcases List.mem_cons.1 hj with heq | hj
      · exact hidle heq.symm
      · exact h.idle j hj
    · rw [Function.update_of_ne hji] at hj
      exact h.idle j hj

/-- A new task is on the run queue. -/
theorem RunQueue.newProcess {s : State} (h : RunQueue s) (hrunning : Running s) (as : ℕ) :
    RunQueue { (Kernel.newProcess s as).2 with runq := s.nextTask :: s.runq } ∧
      Running (Kernel.newProcess s as).2 := by
  obtain ⟨b, hb⟩ : ∃ b : Task, b.state = .runnable ∧ b.pc = .user ∧
      (Kernel.newProcess s as).2.task = (s.setTask s.nextTask b).task := ⟨_, rfl, rfl, rfl⟩
  obtain ⟨hst, hpc, htask⟩ := hb
  have hfresh := h.fresh _ le_rfl
  have hother : ∀ t, t ≠ s.nextTask → (Kernel.newProcess s as).2.look t = s.look t := by
    intro t ht
    rw [State.look, htask, State.setTask_of_ne _ ht, State.look]
  have hself : (Kernel.newProcess s as).2.look s.nextTask = some (.runnable, .user) := by
    rw [State.look, htask, State.setTask_self, Option.map_some, hst, hpc]
  have hnew : ∀ {t x}, s.look t = some x → t ≠ s.nextTask := by
    rintro t x hx rfl
    rw [hfresh] at hx
    cases hx
  have hcur : s.current ≠ s.nextTask := by
    obtain ⟨pc, hpc⟩ := hrunning
    exact hnew hpc
  refine ⟨⟨⟨h.toKill, ?_, ?_, ?_, ?_, ?_, h.waitNodup, h.idle, ?_⟩, ?_⟩,
    hrunning.same rfl (hother _ hcur)⟩
  · refine List.nodup_cons.2 ⟨?_, h.nodup⟩
    intro hin
    obtain ⟨pc, hr⟩ := h.onQueue _ hin
    exact hnew hr rfl
  · intro t ht
    rcases List.mem_cons.1 ht with rfl | ht
    · exact ⟨_, hself⟩
    · obtain ⟨pc, hr⟩ := h.onQueue t ht
      exact ⟨pc, (hother t (hnew hr)).trans hr⟩
  · intro t pc ht hne
    by_cases heq : t = s.nextTask
    · exact heq ▸ List.mem_cons_self
    · exact List.mem_cons_of_mem _ (h.queued t pc ((hother t heq).symm.trans ht) hne)
  · intro t pc ht
    by_cases heq : t = s.nextTask
    · rw [heq] at ht
      cases hself.symm.trans ht
    · exact h.running t pc ((hother t heq).symm.trans ht)
  · intro i t ht
    obtain ⟨pc, hr, hw⟩ := h.waits i t ht
    exact ⟨pc, (hother t (hnew hr)).trans hr, hw⟩
  · intro t ht
    have hlt : s.nextTask < t := ht
    exact (hother t hlt.ne').trans (h.fresh t hlt.le)
  · intro st pc hc hk
    exact h.current st pc ((hother _ hcur).symm.trans hc) hk

theorem RunQueue.spawn {s : State} (h : RunQueue s) (hrunning : Running s)
    (hw : ∀ i, ∀ t ∈ s.portWaitList i, ¬Watched s t) (as pid : ℕ) :
    Safely InTables (fun r => RunQueue r.2 ∧ Running r.2) (spawn s as pid) := by
  have hnew := h.newProcess hrunning as
  obtain ⟨s₁, hs₁, hn, hr₁, hq, hobjs, hlist⟩ : ∃ s₁, Kernel.newProcess s as = (s.nextTask, s₁) ∧
      RunQueue { s₁ with runq := s.nextTask :: s.runq } ∧ Running s₁ ∧ s₁.runq = s.runq ∧
      s₁.objs = s.objs ∧ s₁.portWaitList = s.portWaitList :=
    ⟨_, rfl, hnew.1, hnew.2, rfl, rfl, rfl⟩
  simp only [Kernel.spawn, hs₁, State.cur, safely_bind]
  refine (reads_getTask s₁ _).mono ?_
  intro tk htk
  refine (safely_foldlM (fun l s₂ => (∀ i ∈ l, i < tk.fds.length) ∧ Ipc s₁ s₂)
    ⟨fun i hi => List.mem_range.1 hi, Ipc.refl s₁⟩ ?_).mono ?_
  · rintro i rest s₂ ⟨hl, h₂⟩
    refine (h₂.inheritFd s.nextTask ?_).mono
      fun _ h₃ => ⟨fun j hj => hl j (List.mem_cons_of_mem _ hj), h₃⟩
    intro tk' htk'
    rw [htk, Option.some.injEq] at htk'
    subst htk'
    exact hl i List.mem_cons_self
  rintro s₂ ⟨-, ⟨w, hc, hwatched⟩, -⟩
  -- the new task would have been on the run queue all the time
  have h₂ : RunQueue { s₂ with runq := s.nextTask :: s₂.runq } := by
    have hc' : Calls w { s₁ with runq := s.nextTask :: s.runq }
        { s₂ with runq := w ++ (s.nextTask :: s.runq) } :=
      { hc with runq := rfl }
    have h₃ := hn.calls hc' ?_
    · refine ⟨h₃.toQueues.perm ?_, h₃.current⟩
      rw [hc.runq, hq]
      exact List.perm_middle.symm
    · intro t ht i hin
      obtain ⟨a, p, r, ha, hown, hr⟩ := hwatched t ht
      change t ∈ s₁.portWaitList i at hin
      rw [hlist] at hin
      exact hw i t hin ⟨a, p, r, hobjs ▸ ha, hown, hr⟩
  refine (reads_getTask s₂ _).mono ?_
  intro child hchild
  obtain ⟨s₃, hs₃⟩ : ∃ s₃, s₃ = s₂.setTask s.nextTask { child with pid, parent := some s₂.current } :=
    ⟨_, rfl⟩
  have hl₃ : ∀ t, s₃.look t = s₂.look t := by
    intro t
    rw [hs₃]
    by_cases heq : t = s.nextTask
    · rw [heq, look_setTask_self]
      exact (look_eq_some.2 ⟨child, hchild, rfl, rfl⟩).symm
    · exact look_setTask_of_ne s₂ heq _
  rw [← hs₃]
  refine (reads_getTask s₃ _).mono ?_
  intro tk' htk'
  rw [safely_pure]
  have hl₄ : ∀ t, (s₃.setTask s₃.current { tk' with children := s.nextTask :: tk'.children }).look t =
      s₂.look t := by
    intro t
    refine Eq.trans ?_ (hl₃ t)
    by_cases heq : t = s₃.current
    · rw [heq]
      exact (look_setTask_self s₃ _ _).trans (look_eq_some.2 ⟨tk', htk', rfl, rfl⟩).symm
    · exact look_setTask_of_ne s₃ heq _
  have hcur₃ : s₃.current = s₂.current := by rw [hs₃]; rfl
  refine ⟨?_, (hr₁.calls hc).same hcur₃ (hl₄ _)⟩
  refine h₂.congr hl₄ hcur₃ ?_ ?_ ?_ ?_ ?_
  all_goals rw [hs₃]
  all_goals first | rfl | exact h₂.toKill

theorem RunQueue.replaceSelf {s : State} (h : RunQueue s) (hrunning : Running s) (fd as : ℕ) :
    Safely InTables (fun r => RunQueue r.2 ∧ Running r.2) (replaceSelf s fd as) := by
  simp only [Kernel.replaceSelf, State.cur, safely_bind, safely_pure]
  refine (reads_getTask s _).mono ?_
  intro tk _
  refine Safely.mono (Q := fun s₁ => RunQueue s₁ ∧ Running s₁) ?_ ?_
  · split
    · unfold State.execMm
      split
      · rename_i m _
        have hq := Quiet.setMm (Calls.refl s) m
        exact ⟨h.quiet hq, hrunning.calls hq⟩
      · simp [InTables]
    · simp [InTables]
  rintro s₁ ⟨h₁, hr₁⟩
  refine (reads_getTask s₁ _).mono ?_
  intro tk' htk'
  have hlook : ∀ t, (s₁.setTask s₁.current
      { tk' with astable := (tk'.astable.set fd none).set 0 (some as), space := some as }).look t =
        s₁.look t := by
    intro t
    by_cases heq : t = s₁.current
    · rw [heq]
      exact (look_setTask_self s₁ _ _).trans (look_eq_some.2 ⟨tk', htk', rfl, rfl⟩).symm
    · exact look_setTask_of_ne s₁ heq _
  exact ⟨h₁.congr hlook rfl rfl rfl rfl rfl h₁.toKill, hr₁.same rfl (hlook _)⟩

theorem reads_runMm {α : Type} (s : State) (x : Except SadOS.Fault (α × Mm.State)) :
    Safely InTables (fun r => ∃ m, r.2 = s.setMm m) (s.runMm x) := by
  unfold State.runMm
  split
  · exact ⟨_, rfl⟩
  · simp [InTables]

theorem reads_execMm (s : State) (x : Except SadOS.Fault Mm.State) :
    Safely InTables (fun s' => ∃ m, s' = s.setMm m) (s.execMm x) := by
  unfold State.execMm
  split
  · exact ⟨_, rfl⟩
  · simp [InTables]

theorem RunQueue.createTask {s : State} (h : RunQueue s) (hrunning : Running s)
    (hw : ∀ i, ∀ t ∈ s.portWaitList i, ¬Watched s t) {as : ℤ}
    (has : ∀ tk, s.task s.current = some tk → as ≠ tk.astable.length) (buf : ℕ) (self : Bool) :
    Safely InTables (fun r => RunQueue r.2 ∧ Running r.2) (createTask s as buf self) := by
  simp only [Kernel.createTask, State.cur, safely_bind]
  refine (reads_getTask s _).mono ?_
  intro tk htk
  split
  · exact ⟨h, hrunning⟩
  rename_i hin
  have hne := has tk htk
  have hlt : as.toNat < tk.astable.length := by omega
  simp only [safely_bind]
  refine (reads_fileAt hlt).mono ?_
  intro f _
  cases f with
  | none => exact ⟨h, hrunning⟩
  | some a =>
    simp only [locked]
    rw [safely_bind]
    refine Safely.mono (Q := fun r => RunQueue r.2 ∧ Running r.2) ?_ fun r hr => ?_
    swap
    · simp only [safely_bind, safely_pure]
      exact (Quiet.enable (Calls.refl r.2)).mono fun _ hq => ⟨hr.1.quiet hq, hr.2.calls hq⟩
    have hoff : Quiet s (disableInterrupts s) := Quiet.setMm (Calls.refl s) _
    simp only [safely_bind]
    refine (reads_runMm _ _).mono ?_
    rintro ⟨⟨ret, bytes⟩, s₁⟩ ⟨m, hs₁⟩
    have h₁ : Quiet s ((disableInterrupts s).setMm m) := hoff.setMm m
    change s₁ = _ at hs₁
    have hrest : s₁.objs = s.objs ∧ s₁.task = s.task ∧ s₁.nextTask = s.nextTask ∧
        s₁.portWaitList = s.portWaitList ∧ s₁.current = s.current := by
      rw [hs₁]
      exact ⟨rfl, rfl, rfl, rfl, rfl⟩
    dsimp only
    rw [← hs₁] at h₁
    have hr₁ := hrunning.calls h₁
    split
    · exact ⟨h.quiet h₁, hr₁⟩
    split
    · exact (h.quiet h₁).replaceSelf hr₁ _ _
    split
    · exact ⟨h.quiet h₁, hr₁⟩
    · obtain ⟨hobjs, htask, hnext, hlist, hcur⟩ := hrest
      have h₂ : Ipc s₁ (s₁.setAstable (tk.astable.set as.toNat none)) := by
        refine (Ipc.refl s₁).setAstable ?_
        intro tk' htk'
        rw [htask, hcur, htk, Option.some.injEq] at htk'
        subst htk'
        rw [List.length_set]
      have hw₁ : ∀ i, ∀ t ∈ s₁.portWaitList i, ¬Watched s₁ t := by
        rintro i t hin ⟨a, p, r, ha, hown, hr⟩
        exact hw i t (hlist ▸ hin) ⟨a, p, r, hobjs ▸ ha, hown, hr⟩
      have h₃ := (h.quiet h₁).ipc hw₁ h₂
      obtain ⟨⟨w, hc, -⟩, hback⟩ := h₂
      refine h₃.spawn (hr₁.calls hc) ?_ _ _
      intro i t hin hwatched
      rw [hc.portWaitList] at hin
      exact hw₁ i t hin (hback t hwatched)

/-! ## Steps and runs -/

/-- The current task is about to call `schedule()`. -/
theorem Queues.wake {s : State} {tk : Task} (h : Queues s) (htk : s.task s.current = some tk) {k : Kont}
    (hpc : tk.pc = .sleep k) : Queues (s.setPc (.woken k)) := by
  rw [setPc_eq htk]
  have hlook : s.look s.current = some (tk.state, .sleep k) := look_eq_some.2 ⟨tk, htk, rfl, hpc⟩
  have hself : (s.setTask s.current { tk with pc := .woken k }).look s.current =
      some (tk.state, .woken k) := look_setTask_self ..
  have hother : ∀ t, t ≠ s.current →
      (s.setTask s.current { tk with pc := .woken k }).look t = s.look t :=
    fun t ht => look_setTask_of_ne s ht _
  -- the states are what they were
  have hst : ∀ t st, (∃ pc, (s.setTask s.current { tk with pc := .woken k }).look t = some (st, pc)) ↔
      ∃ pc, s.look t = some (st, pc) := by
    intro t st
    by_cases heq : t = s.current
    · subst heq
      simp [hself, hlook]
    · rw [hother t heq]
  refine ⟨h.toKill, h.nodup, fun t ht => (hst t _).2 (h.onQueue t ht), ?_, ?_, ?_, h.waitNodup, h.idle, ?_⟩
  · intro t pc ht hne
    obtain ⟨pc', hpc'⟩ := (hst t _).1 ⟨pc, ht⟩
    exact h.queued t pc' hpc' hne
  · intro t pc ht
    obtain ⟨pc', hpc'⟩ := (hst t _).1 ⟨pc, ht⟩
    exact h.running t pc' hpc'
  · intro i t ht
    obtain ⟨pc, hr, hw⟩ := h.waits i t ht
    by_cases heq : t = s.current
    · subst heq
      rw [hlook, Option.some.injEq, Prod.mk.injEq] at hr
      obtain ⟨hst', rfl⟩ := hr
      refine ⟨.woken k, by rw [hself, hst'], ?_⟩
      cases k with
      | waitOnPort n => exact hw
      | waitOn | exit | idle => exact hw.elim
    · exact ⟨pc, (hother t heq).trans hr, hw⟩
  · intro t ht
    have hne : t ≠ s.current := by
      rintro rfl
      rw [h.fresh _ ht] at hlook
      cases hlook
    exact (hother t hne).trans (h.fresh t ht)

namespace RunQueue

variable {s : State} {tk : Task}

/-- A call that returned to a task that runs. -/
theorem settle_ret (h : RunQueue s) (hrunning : Running s) : RunQueue (s.setPc .user) := by
  obtain ⟨pc, hpc⟩ := hrunning
  obtain ⟨tk, htk, hst, -⟩ := look_eq_some.1 hpc
  rw [setPc_eq htk]
  exact h.setTask htk hst (.inl hst)

theorem settle_returns {x : Except Fault (ℤ × State)}
    (hx : Safely InTables (fun r => RunQueue r.2 ∧ Running r.2) x) :
    Safely InTables (fun r => RunQueue (settle r)) (returns x) := by
  simp only [returns, safely_bind, safely_pure]
  exact hx.mono fun _ hr => hr.1.settle_ret hr.2

section

variable (h : RunQueue s) (htk : s.task s.current = some tk) (hrun : tk.state = .running)
include h htk hrun

/-- `kill_current`. -/
theorem settle_kill {s' : State} (hq : Quiet s s') : RunQueue (settle (killCurrent s')) := by
  refine RunQueue.quiet ?_ ((hq.setState .zombie).setPc (.sleep .exit))
  change RunQueue (s.setCur .zombie (.sleep .exit))
  rw [setCur_eq htk]
  exact h.setTask htk hrun (.inr ⟨by simp, _, rfl⟩)

theorem settle_access {s' : State} (hq : Quiet s s') (ok : Bool) :
    RunQueue (settle (access ok s')) := by
  cases ok with
  | false => exact h.settle_kill htk hrun hq
  | true =>
    have hrunning : Running s := ⟨tk.pc, look_eq_some.2 ⟨tk, htk, hrun, rfl⟩⟩
    exact (h.quiet hq).settle_ret (hrunning.calls hq)

/-- An allowed call of the running task. -/
theorem syscall (ht : Tables s) (hpc : tk.pc = .user) {c : Call} (hok : QueueAllowed s (.call c))
    (hc : Indexed s c) : Safely InTables (fun r => RunQueue (settle r)) (syscall s c) := by
  have hw := hok.watched
  have hrunning : Running s := ⟨tk.pc, look_eq_some.2 ⟨tk, htk, hrun, rfl⟩⟩
  have hipc : ∀ {x : Except Fault (ℤ × State)}, Safely InTables (fun r => Ipc s r.2) x →
      Safely InTables (fun r => RunQueue (settle r)) (returns x) := by
    intro x hx
    refine settle_returns (hx.mono ?_)
    intro r hr
    obtain ⟨⟨w, hcalls, -⟩, -⟩ := id hr
    exact ⟨h.ipc hw hr, hrunning.calls hcalls⟩
  have hnot : ∀ {fd : ℤ}, fd ≠ MAX_FDS → _ := fun hfd => ht.notMaxFds htk hpc hfd
  have hlen := (ht.cur htk (by simp [hpc, Pc.Idle])).1
  have hlens : ∀ tk, s.task s.current = some tk → tk.fds.length = MAX_FDS := by
    intro tk' htk'
    rw [htk, Option.some.injEq] at htk'
    rw [← htk', hlen]
  cases c with
  | portConnect n len buf => exact hipc ((Ipc.refl s).portConnect hc.1 hc.2 _ _)
  | request rd len buf => exact hipc ((Ipc.refl s).request (hnot hc).1 _ _)
  | getResponse cookie res =>
    exact hipc ((Ipc.refl s).getResponse fun hv => (hnot (hc hv)).1)
  | openPort n => exact settle_returns (h.openPort hrunning hw hc.1 hc.2)
  | popRequest rd buf => exact hipc ((Ipc.refl s).popRequest (hnot hc).1 _)
  | respond fd len buf => exact hipc ((Ipc.refl s).respond _ _ _)
  | close fd => exact hipc ((Ipc.refl s).close ht.ports (hnot hc).1)
  | dup0 oldFd newFd => exact hipc ((Ipc.refl s).dup0 _ _)
  | waitOn rbuf wbuf =>
    exact (Quiet.waitOn s hlens _ _).mono fun _ hr => h.goes htk hrun hr
  | waitOnPort n =>
    simp only [Kernel.syscall, Kernel.waitOnPort, waitOnPortPass, safely_bind]
    obtain ⟨i, hi⟩ : ∃ i, portIndex n = .ok i := ⟨_, if_pos hc⟩
    have hin : n = i := ((reads_portIndex hc.1 hc.2).of_ok hi).1.symm
    have hport : ((disableInterrupts s).setState .waiting).port i = none := by
      have := hok.closed n i rfl hi
      simpa [State.setState, disableInterrupts, State.setMm, htk, State.setTask] using this
    rw [hi, safely_ok, hport]
    simp only [ne_eq, not_true_eq_false, if_false, safely_bind, safely_pure]
    refine (reads_execMm _ _).mono ?_
    rintro s' ⟨m, rfl⟩
    have hoff : (disableInterrupts s).setState .waiting =
        (disableInterrupts s).setTask s.current { tk with state := .waiting } := by
      have hcur : (disableInterrupts s).task (disableInterrupts s).current = some tk := htk
      simp only [State.setState, hcur]
      rfl
    rw [hoff]
    obtain ⟨b, hb⟩ : ∃ b : Task, b = { tk with state := .waiting } := ⟨_, rfl⟩
    rw [← hb]
    obtain ⟨s₁, hs₁⟩ : ∃ s₁, s₁ = State.setMm { (disableInterrupts s).setTask s.current b with
        portWaitList := Function.update ((disableInterrupts s).setTask s.current b).portWaitList i
          (((disableInterrupts s).setTask s.current b).current ::
            ((disableInterrupts s).setTask s.current b).portWaitList i) } m := ⟨_, rfl⟩
    have htask : s₁.task = (s.setTask s.current b).task := by rw [hs₁]; rfl
    have hcur : s₁.current = s.current := by rw [hs₁]; rfl
    rw [← hs₁]
    change RunQueue (s₁.setPc (.sleep (.waitOnPort n)))
    have hcurtask : s₁.task s₁.current = some b := by rw [htask, hcur, State.setTask_self]
    rw [setPc_eq hcurtask]
    refine h.waitOnPort htk hrun ?_ hin ?_ hcur ?_ ?_ ?_ ?_ ?_
    · intro hidle
      rw [hidle] at htk
      have := ht.idle tk htk
      rw [hpc] at this
      exact this
    · intro t
      rw [setCur_eq htk, hcur]
      by_cases heq : t = s.current
      · rw [heq, look_setTask_self, look_setTask_self, hb]
      · rw [look_setTask_of_ne _ heq, look_setTask_of_ne _ heq, State.look, htask,
          State.setTask_of_ne _ heq, State.look]
    all_goals rw [hs₁]
    all_goals first | rfl | exact h.toKill
  | createTask as buf self => exact settle_returns (h.createTask hrunning hw (hnot hc).2 _ _)
  | exit => exact h.settle_kill htk hrun (Calls.refl s)
  | sendpage as vaddr dst len => exact hipc ((Ipc.refl s).sendpage (hnot hc).2 _ _ _)
  | munmap base len => exact hipc ((Ipc.refl s).runMm _)
  | asnew snapshot => exact hipc ((Ipc.refl s).asnew _)
  | asdestroy as => exact hipc ((Ipc.refl s).asdestroy _)
  | read vaddr =>
    simp only [Kernel.syscall, safely_bind, safely_pure]
    exact (Quiet.runMm (Calls.refl s) _).mono fun _ hr => h.settle_access htk hrun hr _
  | write vaddr b =>
    simp only [Kernel.syscall, safely_bind, safely_pure]
    exact (Quiet.runMm (Calls.refl s) _).mono fun _ hr => h.settle_access htk hrun hr _

end

/-- A running task goes on after `schedule()`. -/
theorem resume (h : RunQueue s) (htk : s.task s.current = some tk) (ht : Tables s) {k : Kont}
    (hpc : tk.pc = .woken k) (hok : QueueAllowed s .resume) :
    Safely InTables (fun r => RunQueue (settle r)) (resume s k) := by
  have hlook : s.look s.current = some (tk.state, tk.pc) := look_eq_some.2 ⟨tk, htk, rfl, rfl⟩
  have hrun := h.current tk.state tk.pc hlook (by simp [hpc])
  have hrunning : Running s := ⟨tk.pc, look_eq_some.2 ⟨tk, htk, hrun, rfl⟩⟩
  have hk := ht.pc _ tk htk
  rw [hpc] at hk
  have hoff : Quiet s (disableInterrupts s) := Quiet.setMm (Calls.refl s) _
  cases k with
  | waitOn rbuf wbuf rfds wfds =>
    have hlen := (ht.cur htk (by simp [hpc, Pc.Idle])).1
    have hlens : ∀ tk, s.task s.current = some tk → MAX_FDS ≤ tk.fds.length := by
      intro tk' htk'
      rw [htk, Option.some.injEq] at htk'
      rw [← htk', hlen]
    refine (hoff.waitOnPass hlens rbuf wbuf hk.1 hk.2).mono ?_
    intro r hr
    exact h.goes htk hrun ⟨fun v hv => .inr (hr.1 v hv), hr.2⟩
  | waitOnPort n =>
    simp only [Kernel.resume, waitOnPortPass, safely_bind]
    refine (reads_portIndex hk.1 hk.2).mono ?_
    rintro i ⟨hin, -⟩
    have hi : portIndex n = .ok i := by
      have hrange : 0 ≤ n ∧ n < (MAX_PORT : ℤ) := hk
      rw [portIndex, if_pos hrange, ← hin, Int.toNat_natCast]
    have hport := hok.opened rfl tk n i htk hpc hi
    rw [if_pos (show (disableInterrupts s).port i ≠ none from hport)]
    simp only [safely_bind, safely_pure]
    refine hoff.enable.mono ?_
    intro s' hq
    exact (h.quiet hq).settle_ret (hrunning.calls hq)
  | exit => simp [Kernel.resume, InTables]
  | idle =>
    change RunQueue (s.setPc (.sleep .idle))
    rw [setPc_eq htk]
    exact h.setTask htk hrun (.inl hrun)

/-- What an allowed step keeps. -/
theorem step (h : RunQueue s) (ht : Tables s) {a : Action} (hok : QueueAllowed s a)
    (hidx : ∀ c tk, a = .call c → s.task s.current = some tk → tk.pc = .user → Indexed s c) :
    Safely InTables RunQueue (step s a) := by
  cases a with
  | call c =>
    simp only [Kernel.step, State.cur, safely_bind]
    refine (reads_getTask s _).mono ?_
    intro tk htk
    split
    · rename_i hpc
      simp only [safely_bind, safely_pure]
      have hrun := h.current tk.state tk.pc (look_eq_some.2 ⟨tk, htk, rfl, rfl⟩) (by simp [hpc])
      exact h.syscall htk hrun ht hpc hok (hidx c tk rfl htk hpc)
    · exact h
  | schedule =>
    simp only [Kernel.step, State.cur, safely_bind]
    refine (reads_getTask s _).mono ?_
    intro tk htk
    split
    · rename_i k hpc
      exact (h.toQueues.wake htk hpc).schedule
    · exact h
  | resume =>
    simp only [Kernel.step, State.cur, safely_bind]
    refine (reads_getTask s _).mono ?_
    intro tk htk
    split
    · rename_i k hpc
      simp only [safely_bind, safely_pure]
      exact h.resume htk ht hpc hok
    · exact h
  | interrupt vector =>
    simp only [Kernel.step]
    split
    · exact ((Ipc.refl s).intHandler _).mono fun _ hi => h.ipc hok.watched hi
    · exact h

end RunQueue

theorem runQueue_boot (mm : Mm.State) (as : ℕ) (junk inport : ℕ → ℕ) (tarfs : ℕ × ℕ) :
    RunQueue (boot mm as junk inport tarfs) := by
  have hlook : ∀ t, (boot mm as junk inport tarfs).look t =
      if t = 1 then some (.runnable, .user) else
        if t = 0 then some (.runnable, .sleep .idle) else none := by
    intro t
    by_cases h1 : t = 1
    · subst h1
      rfl
    · by_cases h0 : t = 0
      · subst h0
        rfl
      · rw [if_neg h1, if_neg h0]
        simp [State.look, boot, newProcess, bare, State.poolCreate, State.setTask,
          Function.update_of_ne h1, Function.update_of_ne h0]
  refine ⟨⟨rfl, List.nodup_singleton 1, ?_, ?_, ?_, ?_, fun _ => List.nodup_nil, ?_, ?_⟩, ?_⟩
  · intro t ht
    obtain rfl : t = 1 := List.mem_singleton.1 ht
    exact ⟨.user, hlook 1⟩
  · intro t pc ht hne
    change t ≠ 0 at hne
    rw [hlook] at ht
    split at ht
    · rename_i h1
      exact List.mem_singleton.2 h1
    · simp at ht
  · intro t pc ht
    rw [hlook] at ht
    split at ht
    · cases ht
    · split at ht <;> cases ht
  · intro i t ht
    cases ht
  · intro i ht
    cases ht
  · intro t ht
    have ht : 2 ≤ t := ht
    rw [hlook, if_neg (by omega), if_neg (by omega)]
  · intro st pc hc hk
    change (boot mm as junk inport tarfs).look 0 = _ at hc
    rw [hlook, if_neg (by omega), if_pos rfl, Option.some.injEq, Prod.mk.injEq] at hc
    exact absurd hc.2.symm (hk _)

/-- The lists of tasks are in order after every run of allowed steps. -/
theorem runQueue_of_allowed (mm : Mm.State) (as : ℕ) (junk inport : ℕ → ℕ) (tarfs : ℕ × ℕ)
    (l : List Action) (hok : Along QueueAllowed step (boot mm as junk inport tarfs) l) :
    Safely (fun _ => True) QueueOk (run (boot mm as junk inport tarfs) l) := by
  refine Safely.mono (Q := fun s => Tables s ∧ RunQueue s) ?_ fun s hs => hs.2.queueOk
  refine safely_along ⟨tables_boot mm as junk inport tarfs, runQueue_boot mm as junk inport tarfs⟩ ?_ hok
  rintro s a ⟨ht, h⟩ ha
  by_cases hidx : ∀ c tk, a = .call c → s.task s.current = some tk → tk.pc = .user → Indexed s c
  · have hboth := (ht.step hidx).and (h.step ht ha hidx)
    exact safely_iff.2 ⟨(safely_iff.1 hboth).1, fun _ _ => trivial⟩
  · push Not at hidx
    obtain ⟨c, tk, rfl, htk, hpc, hc⟩ := hidx
    rw [ht.step_outOfBounds htk hpc hc]
    trivial

theorem runQueue_of_allowed_open :
    ∃ s, run (bootWith []) [.schedule, .call (.openPort 5)] = .ok s ∧ QueueOk s := by
  obtain ⟨s, hs⟩ : ∃ s, run (bootWith []) [.schedule, .call (.openPort 5)] = .ok s := by
    rw [← isOk_iff]
    decide +kernel
  have hwait : ∀ s', step (bootWith []) .schedule = .ok s' → s'.portWaitList = fun _ => [] := by
    intro s' hs'
    have hlists : (step (bootWith []) .schedule).toOption.map State.portWaitList =
        some fun _ => [] := rfl
    rw [hs'] at hlists
    exact Option.some.inj hlists
  have hok : Along QueueAllowed step (bootWith []) [.schedule, .call (.openPort 5)] := by
    refine ⟨⟨?_, ?_, ?_⟩, fun s' hs' => ⟨⟨?_, ?_, ?_⟩, fun _ _ => trivial⟩⟩
    · intro i t ht
      cases ht
    · intro n i h
      cases h
    · intro h
      cases h
    · intro i t ht
      rw [hwait s' hs'] at ht
      cases ht
    · intro n i h
      cases h
    · intro h
      cases h
  exact ⟨s, hs, (runQueue_of_allowed _ _ _ _ _ _ hok).of_ok hs⟩

/-- `wait_on_port` for a port that is open returns to a task that waits. -/
theorem runQueue_fails : ¬∀ (free : List ℕ) (l : List Action) (s : State),
    run (bootWith free) l = .ok s → QueueOk s := by
  intro h
  obtain ⟨s, hs⟩ : ∃ s, run (bootWith []) [.schedule, .call (.waitOnPort 1)] = .ok s := by
    rw [← isOk_iff]
    decide +kernel
  have hstate : (run (bootWith []) [.schedule, .call (.waitOnPort 1)]).toOption.map
      (fun s => (s.task s.current).map (·.state)) = some (some .waiting) := by
    decide +kernel
  have hpc : (run (bootWith []) [.schedule, .call (.waitOnPort 1)]).toOption.map
      (fun s => (s.task s.current).map (·.pc)) = some (some .user) := rfl
  rw [hs] at hstate hpc
  have hstate := Option.some.inj hstate
  have hpc := Option.some.inj hpc
  obtain ⟨tk, htk, hst⟩ := Option.map_eq_some_iff.1 hstate
  dsimp only at hpc
  rw [htk] at hpc
  have hrun := (h [] _ s hs).running tk htk (Option.some.inj hpc)
  rw [hst] at hrun
  cases hrun

end SadOS.Kernel
