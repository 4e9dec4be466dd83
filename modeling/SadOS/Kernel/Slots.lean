import SadOS.Kernel.Tables

/-!
# Process slots

A task gives its entry of `tasks` back in `kill_process`, if its parent is gone by then.
A parent that ends later does not look for children that have ended, and only takes
their `parent` away.

## Main definitions

* `reaped`, `stepDead` — a run that remembers which tasks went through `kill_process`.
* `SlotsOk` — which of them have an entry, and where the pointers between tasks lead.
* `SlotsAllowed` — a step that ends no task that has a child that has ended.
* `Kin` — the tasks are related as they were.
* `Family` — the invariant.

## Main results

* `Family.step` — allowed steps keep the invariant.
* `slots_of_allowed` — the property along runs.
* `slots_fails` — a child that ends before its parent.
-/

namespace SadOS.Kernel

/-- The task that a step takes through `kill_process`. -/
def reaped (s : State) : Action → List ℕ
  | .schedule =>
    match s.task s.current with
    | some tk =>
      match tk.pc with
      | .sleep _ => if tk.state = .zombie then [s.current] else []
      | _ => []
    | none => []
  | _ => []

/-- A step, with the tasks that have been through `kill_process`. -/
def stepDead (x : State × List ℕ) (a : Action) : Except Fault (State × List ℕ) := do
  let s ← step x.1 a
  return (s, reaped x.1 a ++ x.2)

/-- A task that has been through `kill_process` has no entry of `tasks`, if it has no
parent or one that has been through `kill_process` itself, and the pointers of a task
lead to tasks that are not freed. -/
structure SlotsOk (s : State) (dead : List ℕ) : Prop where
  slot : ∀ t ∈ dead,
    (∀ tk, s.task t = some tk → tk.parent = none ∨ ∃ p ∈ dead, tk.parent = some p) →
    ∀ pid, s.tasks pid ≠ some t
  parent : ∀ t tk p, s.task t = some tk → tk.parent = some p → s.task p ≠ none
  children : ∀ t tk, s.task t = some tk → ∀ c ∈ tk.children, s.task c ≠ none

/-- A step that ends no task one of whose children has ended. -/
def SlotsAllowed (x : State × List ℕ) (a : Action) : Prop :=
  ∀ t ∈ reaped x.1 a, ∀ c ∈ x.2, ∀ ck, x.1.task c = some ck → ck.parent ≠ some t

/-! ## The invariant -/

/-- How the tasks are related, those in `dead` being at their end. -/
structure Family (s : State) (dead : List ℕ) : Prop where
  fresh : ∀ t, s.nextTask ≤ t → s.task t = none
  old : ∀ t ∈ dead, t < s.nextTask
  slot : ∀ pid t, s.tasks pid = some t → ∃ tk, s.task t = some tk ∧ tk.pid = pid
  parent : ∀ t tk p, s.task t = some tk → tk.parent = some p →
    p < t ∧ p ∉ dead ∧ ∃ pk, s.task p = some pk ∧ t ∈ pk.children
  child : ∀ p pk c, s.task p = some pk → c ∈ pk.children →
    ∃ ck, s.task c = some ck ∧ ck.parent = some p
  dead : ∀ t ∈ dead, ∀ tk, s.task t = some tk → tk.parent ≠ none ∧ tk.pc = .woken .exit
  zombie : ∀ t tk, s.task t = some tk → tk.state = .zombie →
    tk.pc = .sleep .exit ∨ tk.pc = .woken .exit

theorem Family.slotsOk {s : State} {dead : List ℕ} (h : Family s dead) : SlotsOk s dead where
  slot := by
    intro t ht hpar pid hpid
    obtain ⟨tk, htk, -⟩ := h.slot pid t hpid
    rcases hpar tk htk with hnone | ⟨p, hp, hsome⟩
    · exact (h.dead t ht tk htk).1 hnone
    · exact (h.parent t tk p htk hsome).2.1 hp
  parent := by
    intro t tk p htk hp hnone
    obtain ⟨-, -, pk, hpk, -⟩ := h.parent t tk p htk hp
    rw [hnone] at hpk
    cases hpk
  children := by
    intro t tk htk c hc hnone
    obtain ⟨ck, hck, -⟩ := h.child t tk c htk hc
    rw [hnone] at hck
    cases hck

/-- A task with the same relatives at the same place, which did not end. -/
structure Task.Kin (tk tk' : Task) : Prop where
  pid : tk'.pid = tk.pid
  parent : tk'.parent = tk.parent
  children : tk'.children = tk.children
  pc : tk'.pc = tk.pc
  state : tk'.state = .zombie → tk.state = .zombie

/-- The tasks are related as they were. -/
structure Kin (s s' : State) : Prop where
  current : s'.current = s.current
  nextTask : s'.nextTask = s.nextTask
  tasks : s'.tasks = s.tasks
  none : ∀ t, s.task t = none → s'.task t = none
  task : ∀ t tk, s.task t = some tk → ∃ tk', s'.task t = some tk' ∧ Task.Kin tk tk'

theorem Task.Kin.refl (tk : Task) : Task.Kin tk tk := ⟨rfl, rfl, rfl, rfl, id⟩

theorem Task.Kin.trans {tk tk' tk'' : Task} (h : Task.Kin tk tk') (h' : Task.Kin tk' tk'') :
    Task.Kin tk tk'' :=
  ⟨h'.pid.trans h.pid, h'.parent.trans h.parent, h'.children.trans h.children, h'.pc.trans h.pc,
    fun hz => h.state (h'.state hz)⟩

namespace Kin

variable {s₀ s s' : State}

theorem refl (s : State) : Kin s s := ⟨rfl, rfl, rfl, fun _ h => h, fun _ tk h => ⟨tk, h, .refl tk⟩⟩

theorem trans (h : Kin s₀ s) (h' : Kin s s') : Kin s₀ s' := by
  refine ⟨h'.current.trans h.current, h'.nextTask.trans h.nextTask, h'.tasks.trans h.tasks,
    fun t ht => h'.none t (h.none t ht), ?_⟩
  intro t tk ht
  obtain ⟨tk', ht', hk⟩ := h.task t tk ht
  obtain ⟨tk'', ht'', hk'⟩ := h'.task t tk' ht'
  exact ⟨tk'', ht'', hk.trans hk'⟩

/-- A task comes from a task. -/
theorem back (h : Kin s s') {t : ℕ} {tk' : Task} (ht : s'.task t = some tk') :
    ∃ tk, s.task t = some tk ∧ Task.Kin tk tk' := by
  cases hs : s.task t with
  | none =>
    rw [h.none t hs] at ht
    cases ht
  | some tk =>
    obtain ⟨tk₁, ht₁, hk⟩ := h.task t tk hs
    rw [ht, Option.some.injEq] at ht₁
    exact ⟨tk, rfl, ht₁ ▸ hk⟩

/-- A state with the same tasks. -/
theorem same (h : Kin s₀ s) (hcur : s'.current = s.current) (hnext : s'.nextTask = s.nextTask)
    (htasks : s'.tasks = s.tasks) (htask : s'.task = s.task) : Kin s₀ s' :=
  h.trans ⟨hcur, hnext, htasks, fun t ht => by rw [htask, ht],
    fun t tk ht => ⟨tk, by rw [htask, ht], .refl tk⟩⟩

theorem setTask (h : Kin s₀ s) {t : ℕ} {tk b : Task} (ht : s.task t = some tk)
    (hb : Task.Kin tk b) :
    Kin s₀ (s.setTask t b) := by
  refine h.trans ⟨rfl, rfl, rfl, ?_, ?_⟩
  · intro t' ht'
    have hne : t' ≠ t := by
      rintro rfl
      rw [ht] at ht'
      cases ht'
    rw [State.setTask_of_ne s hne, ht']
  · intro t' tk' ht'
    by_cases hne : t' = t
    · subst hne
      rw [ht, Option.some.injEq] at ht'
      exact ⟨b, State.setTask_self .., ht' ▸ hb⟩
    · exact ⟨tk', (State.setTask_of_ne s hne b).trans ht', .refl tk'⟩

theorem setState (h : Kin s₀ s) {state : TaskState} (hst : state ≠ .zombie) :
    Kin s₀ (s.setState state) := by
  unfold State.setState
  split
  · rename_i tk htk
    exact h.setTask htk ⟨rfl, rfl, rfl, rfl, fun hz => absurd hz hst⟩
  · exact h

theorem setMm (h : Kin s₀ s) (m : Mm.State) : Kin s₀ (s.setMm m) := h.same rfl rfl rfl rfl

theorem execMm (h : Kin s₀ s) (x : Except SadOS.Fault Mm.State) :
    Safely InTables (Kin s₀) (s.execMm x) := by
  unfold State.execMm
  split
  · exact h.setMm _
  · simp [InTables]

theorem enable (h : Kin s₀ s) : Safely InTables (Kin s₀) (enableInterrupts s) := h.execMm _

theorem wakeUp (h : Kin s₀ s) (t : ℕ) : Safely InTables (Kin s₀) (wakeUp s t) := by
  simp only [Kernel.wakeUp, safely_bind]
  refine (reads_getTask s t).mono ?_
  intro tk htk
  split
  · have h₁ := h.setTask htk (b := { tk with state := .runnable }) ⟨rfl, rfl, rfl, rfl, by simp⟩
    exact h₁.same rfl rfl rfl rfl
  · exact h

theorem requeue (h : Kin s₀ s) : Safely InTables (Kin s₀) (requeue s) := by
  simp only [Kernel.requeue, State.cur, safely_bind]
  refine (reads_getTask s _).mono ?_
  intro tk htk
  split
  · have h₁ := h.setTask htk (b := { tk with state := .runnable }) ⟨rfl, rfl, rfl, rfl, by simp⟩
    exact h₁.same rfl rfl rfl rfl
  · exact h

theorem waitOnPortPass (h : Kin s₀ s) {n : ℤ} (h0 : 0 ≤ n) (hn : n < MAX_PORT) :
    Safely InTables (fun r => Kin s₀ r.2 ∧ ∀ k, r.1 = .sleep k → k = .waitOnPort n)
      (waitOnPortPass s n) := by
  simp only [Kernel.waitOnPortPass, safely_bind]
  refine (reads_portIndex h0 hn).mono ?_
  intro i _
  split
  · simp only [safely_bind, safely_pure]
    exact h.enable.mono fun s₁ h₁ => ⟨h₁, by simp⟩
  · simp only [safely_bind, safely_pure]
    refine Safely.mono (Q := Kin s₀) ?_ ?_
    · apply enable
      exact h.same rfl rfl rfl rfl
    · rintro s₁ h₁
      refine ⟨h₁, ?_⟩
      rintro k ⟨⟩
      rfl

end Kin

theorem Calls.kin {w : List ℕ} {s s' : State} (h : Calls w s s') : Kin s s' := by
  refine ⟨h.current, h.nextTask, h.tasks, h.none, ?_⟩
  intro t tk ht
  obtain ⟨tk', ht', fds, astable, -, -, rfl⟩ := h.task t tk ht
  refine ⟨_, ht', rfl, rfl, rfl, rfl, ?_⟩
  intro hz
  dsimp only at hz
  split at hz
  · cases hz
  · exact hz

theorem Ipc.kin {s s' : State} (h : Ipc s s') : Kin s s' := by
  obtain ⟨⟨w, hc, -⟩, -⟩ := h
  exact hc.kin

namespace Family

variable {s s' : State} {dead : List ℕ}

theorem kin (h : Family s dead) (hk : Kin s s') : Family s' dead where
  fresh t ht := hk.none t (h.fresh t (hk.nextTask ▸ ht))
  old t ht := hk.nextTask ▸ h.old t ht
  slot := by
    intro pid t hpid
    rw [hk.tasks] at hpid
    obtain ⟨tk, htk, hp⟩ := h.slot pid t hpid
    obtain ⟨tk', htk', hkin⟩ := hk.task t tk htk
    exact ⟨tk', htk', hkin.pid.trans hp⟩
  parent := by
    intro t tk' p htk' hp
    obtain ⟨tk, htk, hkin⟩ := hk.back htk'
    obtain ⟨hlt, hdead, pk, hpk, hmem⟩ := h.parent t tk p htk (hkin.parent.symm.trans hp)
    obtain ⟨pk', hpk', hkin'⟩ := hk.task p pk hpk
    exact ⟨hlt, hdead, pk', hpk', hkin'.children ▸ hmem⟩
  child := by
    intro p pk' c hpk' hc
    obtain ⟨pk, hpk, hkin⟩ := hk.back hpk'
    obtain ⟨ck, hck, hpar⟩ := h.child p pk c hpk (hkin.children ▸ hc)
    obtain ⟨ck', hck', hkin'⟩ := hk.task c ck hck
    exact ⟨ck', hck', hkin'.parent.trans hpar⟩
  dead := by
    intro t ht tk' htk'
    obtain ⟨tk, htk, hkin⟩ := hk.back htk'
    rw [hkin.parent, hkin.pc]
    exact h.dead t ht tk htk
  zombie := by
    intro t tk' htk' hz
    obtain ⟨tk, htk, hkin⟩ := hk.back htk'
    rw [hkin.pc]
    exact h.zombie t tk htk (hkin.state hz)

/-- States that differ in nothing that relates tasks. -/
theorem congr (h : Family s dead) (htask : s'.task = s.task) (htasks : s'.tasks = s.tasks)
    (hnext : s'.nextTask = s.nextTask) : Family s' dead :=
  have h₁ : Family { s with task := s'.task, tasks := s'.tasks, nextTask := s'.nextTask } dead := by
    rw [htask, htasks, hnext]
    exact h
  ⟨h₁.fresh, h₁.old, h₁.slot, h₁.parent, h₁.child, h₁.dead, h₁.zombie⟩

/-- The current task, which has not ended, in another state and at another place. -/
theorem move (h : Family s dead) {tk b : Task} (htk : s.task s.current = some tk)
    (hpc : tk.pc ≠ .woken .exit) (hpid : b.pid = tk.pid) (hpar : b.parent = tk.parent)
    (hch : b.children = tk.children)
    (hz : b.state = .zombie → b.pc = .sleep .exit ∨ b.pc = .woken .exit) :
    Family (s.setTask s.current b) dead := by
  have hcur : s.current ∉ dead := fun hd => hpc (h.dead _ hd tk htk).2
  -- its relatives are what they were
  have hback : ∀ t tk', (s.setTask s.current b).task t = some tk' → ∃ tk₀, s.task t = some tk₀ ∧
      tk'.parent = tk₀.parent ∧ tk'.children = tk₀.children := by
    intro t tk' ht
    by_cases heq : t = s.current
    · subst heq
      rw [State.setTask_self, Option.some.injEq] at ht
      subst ht
      exact ⟨tk, htk, hpar, hch⟩
    · rw [State.setTask_of_ne _ heq] at ht
      exact ⟨tk', ht, rfl, rfl⟩
  have hforth : ∀ t tk₀, s.task t = some tk₀ → ∃ tk', (s.setTask s.current b).task t = some tk' ∧
      tk'.pid = tk₀.pid ∧ tk'.parent = tk₀.parent ∧ tk'.children = tk₀.children := by
    intro t tk₀ ht
    by_cases heq : t = s.current
    · subst heq
      rw [htk, Option.some.injEq] at ht
      subst ht
      exact ⟨b, State.setTask_self .., hpid, hpar, hch⟩
    · exact ⟨tk₀, (State.setTask_of_ne _ heq _).trans ht, rfl, rfl, rfl⟩
  refine ⟨?_, h.old, ?_, ?_, ?_, ?_, ?_⟩
  · intro t ht
    cases ht' : (s.setTask s.current b).task t with
    | none => rfl
    | some tk' =>
      obtain ⟨tk₀, htk₀, -⟩ := hback t tk' ht'
      rw [h.fresh t ht] at htk₀
      cases htk₀
  · intro pid t hslot
    obtain ⟨tk₀, htk₀, hp⟩ := h.slot pid t hslot
    obtain ⟨tk', htk', hpid', -⟩ := hforth t tk₀ htk₀
    exact ⟨tk', htk', hpid'.trans hp⟩
  · intro t tk' p ht hp
    obtain ⟨tk₀, htk₀, hpar', -⟩ := hback t tk' ht
    obtain ⟨hlt, hdead, pk, hpk, hmem⟩ := h.parent t tk₀ p htk₀ (hpar'.symm.trans hp)
    obtain ⟨pk', hpk', -, -, hch'⟩ := hforth p pk hpk
    exact ⟨hlt, hdead, pk', hpk', hch' ▸ hmem⟩
  · intro p pk' c hpk' hc
    obtain ⟨pk, hpk, -, hch'⟩ := hback p pk' hpk'
    obtain ⟨ck, hck, hpar'⟩ := h.child p pk c hpk (hch' ▸ hc)
    obtain ⟨ck', hck', -, hpar'', -⟩ := hforth c ck hck
    exact ⟨ck', hck', hpar''.trans hpar'⟩
  · intro t ht tk' htk'
    have hne : t ≠ s.current := fun heq => hcur (heq ▸ ht)
    rw [State.setTask_of_ne _ hne] at htk'
    exact h.dead t ht tk' htk'
  · intro t tk' htk' hz'
    by_cases heq : t = s.current
    · subst heq
      rw [State.setTask_self, Option.some.injEq] at htk'
      subst htk'
      exact hz hz'
    · rw [State.setTask_of_ne _ heq] at htk'
      exact h.zombie t tk' htk' hz'

/-- The current task, which has not ended, at another place. -/
theorem setPc (h : Family s dead) {tk : Task} (htk : s.task s.current = some tk)
    (hpc : tk.pc ≠ .woken .exit) {pc : Pc}
    (hz : tk.state = .zombie → pc = .sleep .exit ∨ pc = .woken .exit) :
    Family (s.setPc pc) dead := by
  rw [State.setPc, htk]
  exact h.move htk hpc rfl rfl rfl hz

end Family

/-! ## The end of a task -/

/-- The tasks after the first part of `list_for_each_safe` in `kill_process` for `z`: the
children in `done` have no parent any more, and `rest` are the others. -/
structure Orphaned (s : State) (z : ℕ) (zk : Task) (done rest : List ℕ) (s' : State) : Prop where
  current : s'.current = s.current
  nextTask : s'.nextTask = s.nextTask
  tasks : s'.tasks = s.tasks
  self : s'.task z = some { zk with children := rest }
  other : ∀ t, t ≠ z → s'.task t =
    (s.task t).map fun tk => if t ∈ done then { tk with parent := none } else tk

theorem Orphaned.orphan {s s' : State} {z : ℕ} {zk : Task} {done rest : List ℕ} {c : ℕ}
    (h : Orphaned s z zk done (c :: rest) s') (hc : c ≠ z) :
    Safely InTables (Orphaned s z zk (done ++ [c]) rest) (orphan z s' c) := by
  simp only [Kernel.orphan, safely_bind, safely_pure]
  refine (reads_getTask s' z).mono ?_
  intro zk' hzk'
  rw [h.self, Option.some.injEq] at hzk'
  subst hzk'
  refine (reads_getTask _ c).mono ?_
  intro ck hck
  rw [State.setTask_of_ne _ hc] at hck
  refine ⟨h.current, h.nextTask, h.tasks, ?_, ?_⟩
  · rw [State.setTask_of_ne _ hc.symm, State.setTask_self, List.erase_cons_head]
  · intro t ht
    by_cases htc : t = c
    · subst htc
      rw [State.setTask_self]
      rw [h.other t hc, Option.map_eq_some_iff] at hck
      obtain ⟨tk, htk, rfl⟩ := hck
      rw [htk]
      split <;> simp
    · rw [State.setTask_of_ne _ htc, State.setTask_of_ne _ ht, h.other t ht]
      simp [htc]

/-- The tasks after `kill_process` for `z`. -/
structure Killed (s : State) (z : ℕ) (zk : Task) (s' : State) : Prop where
  current : s'.current = s.current
  nextTask : s'.nextTask = s.nextTask
  tasks : s'.tasks = if zk.parent = none then Function.update s.tasks zk.pid none else s.tasks
  self : s'.task z = if zk.parent = none then none else some { zk with children := [] }
  other : ∀ t, t ≠ z → s'.task t =
    (s.task t).map fun tk => if t ∈ zk.children then { tk with parent := none } else tk

theorem Killed.of_killProcess {s : State} {z : ℕ} {zk : Task} (hzk : s.task z = some zk)
    (hch : z ∉ zk.children) :
    Safely InTables (fun s' => z ≠ s.current ∧ Killed s z zk s') (killProcess s z) := by
  unfold Kernel.killProcess
  split
  · simp [InTables]
  rename_i hne
  simp only [safely_bind]
  refine (reads_getTask s z).mono ?_
  intro tk htk
  rw [hzk, Option.some.injEq] at htk
  subst htk
  refine Safely.mono (Q := fun s₁ => ∃ m, s₁ = s.setMm m) ?_ ?_
  · split
    · unfold State.execMm
      split
      · exact ⟨_, rfl⟩
      · simp [InTables]
    · simp [InTables]
  rintro s₁ ⟨m, rfl⟩
  have hstart : Orphaned s z zk [] zk.children ((s.setMm m).poolDestroy zk.filePool) :=
    ⟨rfl, rfl, rfl, hzk, fun t _ => by simp [State.poolDestroy, State.setMm]⟩
  refine (safely_foldlM (fun rest s₂ => ∃ done, zk.children = done ++ rest ∧
    Orphaned s z zk done rest s₂) ⟨[], rfl, hstart⟩ ?_).mono ?_
  · rintro c rest s₂ ⟨done, hl, h₂⟩
    have hc : c ≠ z := by
      rintro rfl
      exact hch (by simp [hl])
    exact (h₂.orphan hc).mono fun s₃ h₃ => ⟨done ++ [c], by simp [hl], h₃⟩
  rintro s₃ ⟨done, hl, h₃⟩
  rw [List.append_nil] at hl
  subst hl
  split
  · rename_i hpar
    refine ⟨hne, h₃.current, h₃.nextTask, ?_, ?_, ?_⟩
    · rw [if_pos hpar, ← h₃.tasks]
    · rw [if_pos hpar]
      exact Function.update_self ..
    · intro t ht
      exact (Function.update_of_ne ht ..).trans (h₃.other t ht)
  · rename_i hpar
    refine ⟨hne, h₃.current, h₃.nextTask, ?_, ?_, h₃.other⟩
    · rw [if_neg hpar, h₃.tasks]
    · rw [if_neg hpar, h₃.self]

/-- A task that runs has not ended, so `schedule()` takes no task for another. -/
theorem requeue_zombie {s : State} {tk : Task} (htk : s.task s.current = some tk) :
    Safely InTables (fun s' => (∀ tk', s'.task s.current = some tk' →
      (tk'.state = .zombie ↔ tk.state = .zombie)) ∧ s'.toKill = s.toKill)
      (requeue (disableInterrupts s)) := by
  have hcur : (disableInterrupts s).getTask (disableInterrupts s).current = .ok tk := getTask_eq htk
  simp only [Kernel.requeue, State.cur, hcur, ok_bind]
  split
  · rename_i hrun
    refine ⟨?_, rfl⟩
    intro tk' htk'
    obtain rfl : _ = tk' := Option.some.inj
      ((State.setTask_self (disableInterrupts s) _ _).symm.trans htk')
    simp [hrun]
  · refine ⟨?_, rfl⟩
    intro tk' htk'
    obtain rfl : tk = tk' := Option.some.inj (htk.symm.trans htk')
    rfl

namespace Family

variable {s s' : State} {dead : List ℕ}

theorem not_mem_children (h : Family s dead) {z : ℕ} {zk : Task} (hzk : s.task z = some zk) :
    z ∉ zk.children := by
  intro hmem
  obtain ⟨zk', hzk', hpar⟩ := h.child z zk z hzk hmem
  exact (h.parent z zk' z hzk' hpar).1.ne rfl

theorem lt_nextTask (h : Family s dead) {t : ℕ} {tk : Task} (htk : s.task t = some tk) :
    t < s.nextTask := by
  by_contra hge
  rw [h.fresh t (by omega)] at htk
  cases htk

/-- The links agree: a task with the parent `z` is in the list of `z`. -/
theorem mem_children (h : Family s dead) {z t : ℕ} {zk tk : Task} (hzk : s.task z = some zk)
    (htk : s.task t = some tk) (hpar : tk.parent = some z) : t ∈ zk.children := by
  obtain ⟨-, -, zk', hzk', hin⟩ := h.parent t tk z htk hpar
  obtain rfl : zk = zk' := Option.some.inj (hzk.symm.trans hzk')
  exact hin

theorem parent_of_mem (h : Family s dead) {z t : ℕ} {zk tk : Task} (hzk : s.task z = some zk)
    (htk : s.task t = some tk) (hmem : t ∈ zk.children) : tk.parent = some z := by
  obtain ⟨tk', htk', hpar⟩ := h.child z zk t hzk hmem
  obtain rfl : tk = tk' := Option.some.inj (htk.symm.trans htk')
  exact hpar

/-- What another task was before `kill_process` for `z`. -/
theorem killed_back (h : Family s dead) {z t : ℕ} {zk tk' : Task} (hzk : s.task z = some zk)
    (hk : Killed s z zk s') (ht : t ≠ z) (htk' : s'.task t = some tk') :
    ∃ tk, s.task t = some tk ∧ tk'.pid = tk.pid ∧ tk'.children = tk.children ∧ tk'.pc = tk.pc ∧
      tk'.state = tk.state ∧ (tk.parent ≠ some z → tk'.parent = tk.parent) ∧
      (tk.parent = some z → tk'.parent = none) := by
  rw [hk.other t ht, Option.map_eq_some_iff] at htk'
  obtain ⟨tk, htk, rfl⟩ := htk'
  refine ⟨tk, htk, ?_⟩
  by_cases hmem : t ∈ zk.children
  · have hpar := h.parent_of_mem hzk htk hmem
    rw [if_pos hmem]
    exact ⟨rfl, rfl, rfl, rfl, fun hne => absurd hpar hne, fun _ => rfl⟩
  · rw [if_neg hmem]
    exact ⟨rfl, rfl, rfl, rfl, fun _ => rfl, fun hpar => absurd (h.mem_children hzk htk hpar) hmem⟩

/-- What another task is after it. -/
theorem killed_forth (h : Family s dead) {z t : ℕ} {zk tk : Task} (hzk : s.task z = some zk)
    (hk : Killed s z zk s') (ht : t ≠ z) (htk : s.task t = some tk) :
    ∃ tk', s'.task t = some tk' ∧ tk'.pid = tk.pid ∧ tk'.children = tk.children ∧
      (tk.parent ≠ some z → tk'.parent = tk.parent) := by
  obtain ⟨tk', htk'⟩ : ∃ tk', s'.task t = some tk' := by
    rw [hk.other t ht, htk]
    exact ⟨_, rfl⟩
  obtain ⟨tk₁, htk₁, hpid, hch, -, -, hpar, -⟩ := h.killed_back hzk hk ht htk'
  obtain rfl : tk = tk₁ := Option.some.inj (htk.symm.trans htk₁)
  exact ⟨tk', htk', hpid, hch, hpar⟩

/-- A task ended none of whose children had. -/
theorem killed (h : Family s dead) {z : ℕ} {zk : Task} (hzk : s.task z = some zk)
    (hpc : zk.pc = .woken .exit)
    (hchild : ∀ c ∈ dead, ∀ ck, s.task c = some ck → ck.parent ≠ some z) (hk : Killed s z zk s') :
    Family s' (z :: dead) := by
  -- a task that is gone had no parent
  have hstays : zk.parent ≠ none → s'.task z = some { zk with children := [] } := by
    intro hp
    rw [hk.self, if_neg hp]
  have hself : ∀ tk', s'.task z = some tk' →
      zk.parent ≠ none ∧ tk' = { zk with children := [] } := by
    intro tk' htk'
    rw [hk.self] at htk'
    split at htk'
    · cases htk'
    · rename_i hne
      exact ⟨hne, (Option.some.inj htk').symm⟩
  have hlt : z < s.nextTask := h.lt_nextTask hzk
  refine ⟨?_, ?_, ?_, ?_, ?_, ?_, ?_⟩
  · intro t ht
    rw [hk.nextTask] at ht
    rw [hk.other t (by omega), h.fresh t ht, Option.map_none]
  · intro t ht
    rw [hk.nextTask]
    rcases List.mem_cons.1 ht with rfl | ht
    · exact hlt
    · exact h.old t ht
  · intro pid t hpid
    -- the entry of `z` is freed with it
    have hold : s.tasks pid = some t ∧ (t = z → zk.parent ≠ none) := by
      rw [hk.tasks] at hpid
      split at hpid
      · rename_i hnone
        by_cases hp : pid = zk.pid
        · rw [hp, Function.update_self] at hpid
          cases hpid
        · rw [Function.update_of_ne hp] at hpid
          refine ⟨hpid, ?_⟩
          rintro rfl
          obtain ⟨tk, htk, hpid'⟩ := h.slot pid t hpid
          rw [hzk, Option.some.injEq] at htk
          exact absurd (htk ▸ hpid'.symm) hp
      · rename_i hne
        exact ⟨hpid, fun _ => hne⟩
    obtain ⟨tk, htk, hpid'⟩ := h.slot pid t hold.1
    by_cases ht : t = z
    · subst ht
      obtain rfl : zk = tk := Option.some.inj (hzk.symm.trans htk)
      exact ⟨_, hstays (hold.2 rfl), hpid'⟩
    · obtain ⟨tk', htk', hp', -⟩ := h.killed_forth hzk hk ht htk
      exact ⟨tk', htk', hp'.trans hpid'⟩
  · intro t tk' p htk' hp
    -- the record of the task before, whose parent is the same
    obtain ⟨tk, htk, hpar, hpz⟩ : ∃ tk, s.task t = some tk ∧ tk.parent = some p ∧ p ≠ z := by
      by_cases ht : t = z
      · subst ht
        obtain ⟨-, rfl⟩ := hself tk' htk'
        exact ⟨zk, hzk, hp, (h.parent t zk p hzk hp).1.ne⟩
      · obtain ⟨tk, htk, -, -, -, -, hpar, hnone⟩ := h.killed_back hzk hk ht htk'
        by_cases hz : tk.parent = some z
        · rw [hnone hz] at hp
          cases hp
        · rw [hpar hz] at hp
          exact ⟨tk, htk, hp, fun heq => hz (heq ▸ hp)⟩
    obtain ⟨hlt', hdead, pk, hpk, hmem⟩ := h.parent t tk p htk hpar
    obtain ⟨pk', hpk', -, hch, -⟩ := h.killed_forth hzk hk hpz hpk
    exact ⟨hlt', by simp [hpz, hdead], pk', hpk', hch ▸ hmem⟩
  · intro p pk' c hpk' hc
    by_cases hp : p = z
    · subst hp
      obtain ⟨-, rfl⟩ := hself pk' hpk'
      cases hc
    · obtain ⟨pk, hpk, -, hch, -⟩ := h.killed_back hzk hk hp hpk'
      obtain ⟨ck, hck, hpar⟩ := h.child p pk c hpk (hch ▸ hc)
      by_cases hcz : c = z
      · subst hcz
        obtain rfl : zk = ck := Option.some.inj (hzk.symm.trans hck)
        exact ⟨_, hstays (by simp [hpar]), hpar⟩
      · obtain ⟨ck', hck', -, -, hpar'⟩ := h.killed_forth hzk hk hcz hck
        refine ⟨ck', hck', (hpar' ?_).trans hpar⟩
        rw [hpar]
        simpa using hp
  · intro t ht tk' htk'
    by_cases htz : t = z
    · subst htz
      obtain ⟨hne, rfl⟩ := hself tk' htk'
      exact ⟨hne, hpc⟩
    · have hin := (List.mem_cons.1 ht).resolve_left htz
      obtain ⟨tk, htk, -, -, hpc', -, hpar, -⟩ := h.killed_back hzk hk htz htk'
      rw [hpar (hchild t hin tk htk), hpc']
      exact h.dead t hin tk htk
  · intro t tk' htk' hz
    by_cases htz : t = z
    · subst htz
      obtain ⟨-, rfl⟩ := hself tk' htk'
      exact .inr hpc
    · obtain ⟨tk, htk, -, -, hpc', hst, -, -⟩ := h.killed_back hzk hk htz htk'
      rw [hpc']
      exact h.zombie t tk htk (hst ▸ hz)

/-- The next task runs, and the one before it is taken through `kill_process` if it had
ended. -/
theorem afterSwitch (h : Family s dead) (hz : ∀ z, s.toKill = some z → ∃ zk, s.task z = some zk ∧
    zk.pc = .woken .exit ∧ ∀ c ∈ dead, ∀ ck, s.task c = some ck → ck.parent ≠ some z) :
    Safely InTables (fun s' => Family s' (s.toKill.toList ++ dead)) (afterSwitch s) := by
  simp only [Kernel.afterSwitch, State.cur, safely_bind]
  refine (reads_getTask s _).mono ?_
  intro tk htk
  have hk : Kin s (s.setTask s.current { tk with state := .running }) :=
    (Kin.refl s).setTask htk ⟨rfl, rfl, rfl, rfl, by simp⟩
  obtain ⟨s₁, hs₁⟩ : ∃ s₁, s₁ = s.setTask s.current { tk with state := .running } := ⟨_, rfl⟩
  have hkill : s₁.toKill = s.toKill := by rw [hs₁]; rfl
  rw [← hs₁] at hk ⊢
  refine Safely.mono (Q := fun s' => Family s' (s.toKill.toList ++ dead)) ?_ ?_
  · split
    · rename_i z hz₁
      obtain ⟨zk, hzk, hpc, hchild⟩ := hz z (hkill.symm.trans hz₁)
      obtain ⟨zk', hzk', hkin⟩ := hk.task z zk hzk
      have h₁ := h.kin hk
      rw [hkill.symm.trans hz₁]
      simp only [safely_bind, safely_pure]
      refine (Killed.of_killProcess hzk' (h₁.not_mem_children hzk')).mono ?_
      rintro s₂ ⟨-, h₂⟩
      refine (h₁.killed hzk' (hkin.pc.trans hpc) ?_ h₂).congr rfl rfl rfl
      intro c hc ck' hck'
      obtain ⟨ck, hck, hkin'⟩ := hk.back hck'
      rw [hkin'.parent]
      exact hchild c hc ck hck
    · rename_i hz₁
      rw [hkill.symm.trans hz₁]
      exact h.kin hk
  · intro s₂ h₂
    exact (Kin.refl s₂).enable.mono fun s₃ hk₃ => h₂.kin hk₃

/-- The task that called `schedule()` is taken through `kill_process` if it had ended. -/
theorem schedule (h : Family s dead) {tk : Task} (htk : s.task s.current = some tk)
    (hz : tk.state = .zombie → tk.pc = .woken .exit ∧ ∀ c ∈ dead, ∀ ck, s.task c = some ck →
      ck.parent ≠ some s.current) {ended : List ℕ}
    (hended : ended = if tk.state = .zombie then [s.current] else []) :
    Safely InTables (fun s' => Family s' (ended ++ dead)) (schedule s) := by
  unfold Kernel.schedule
  split
  · simp [InTables]
  split
  · simp [InTables]
  rename_i hkill
  rw [not_not] at hkill
  simp only [safely_bind]
  have hoff : Kin s (disableInterrupts s) := (Kin.refl s).setMm _
  refine (hoff.requeue.and (requeue_zombie htk)).mono ?_
  rintro s₁ ⟨hk₁, hzombie, hkill₁⟩
  obtain ⟨next, s₂, hn, hk₂, hkill₂, htask₂⟩ : ∃ next s₂, nextTask s₁ = (next, s₂) ∧ Kin s s₂ ∧
      s₂.toKill = s₁.toKill ∧ s₂.task = s₁.task := by
    unfold nextTask
    split
    · exact ⟨_, _, rfl, hk₁.same rfl rfl rfl rfl, rfl, rfl⟩
    · exact ⟨_, _, rfl, hk₁, rfl, rfl⟩
  rw [hn]
  refine (reads_getTask _ _).mono ?_
  intro nt _
  simp only [State.cur]
  refine (reads_getTask _ _).mono ?_
  intro tk₂ htk₂
  rw [hk₂.current] at htk₂
  have hz₂ := hzombie tk₂ (htask₂ ▸ htk₂)
  obtain ⟨s₃, hs₃⟩ : ∃ s₃, s₃ = switchTo
      (if tk₂.state = .zombie then { s₂ with toKill := some s₂.current } else s₂) next nt.space :=
    ⟨_, rfl⟩
  have hsame : s₃.task = s₂.task ∧ s₃.tasks = s₂.tasks ∧ s₃.nextTask = s₂.nextTask ∧
      s₃.toKill.toList = ended := by
    rw [hs₃, hended]
    by_cases hz' : tk.state = .zombie
    · rw [if_pos (hz₂.2 hz'), if_pos hz', ← hk₂.current]
      exact ⟨rfl, rfl, rfl, rfl⟩
    · rw [if_neg (fun h' => hz' (hz₂.1 h')), if_neg hz']
      refine ⟨rfl, rfl, rfl, ?_⟩
      change s₂.toKill.toList = []
      rw [hkill₂, hkill₁, hkill]
      rfl
  obtain ⟨htask, htasks, hnext, hlist⟩ := hsame
  rw [← hs₃, ← hlist]
  refine ((h.kin hk₂).congr htask htasks hnext).afterSwitch ?_
  intro z hz₃
  have hin : z ∈ ended := by rw [← hlist, hz₃]; simp
  rw [hended] at hin
  split at hin
  · rename_i hz'
    obtain rfl : z = s.current := List.mem_singleton.1 hin
    obtain ⟨hpc, hchild⟩ := hz hz'
    obtain ⟨tk₃, htk₃, hkin⟩ := hk₂.task _ tk htk
    refine ⟨tk₃, htask ▸ htk₃, hkin.pc.trans hpc, ?_⟩
    intro c hc ck' hck'
    rw [htask] at hck'
    obtain ⟨ck, hck, hkin'⟩ := hk₂.back hck'
    rw [hkin'.parent]
    exact hchild c hc ck hck
  · cases hin

end Family

/-! ## New tasks -/

/-- The current task has not ended. -/
def Busy (s : State) : Prop :=
  ∃ tk, s.task s.current = some tk ∧ tk.state ≠ .zombie ∧ tk.pc ≠ .woken .exit

theorem Busy.kin {s s' : State} (h : Busy s) (hk : Kin s s') : Busy s' := by
  obtain ⟨tk, htk, hst, hpc⟩ := h
  obtain ⟨tk', htk', hkin⟩ := hk.task _ tk htk
  refine ⟨tk', hk.current ▸ htk', fun hz => hst (hkin.state hz), ?_⟩
  rw [hkin.pc]
  exact hpc

namespace Family

variable {s s' : State} {dead : List ℕ}

theorem newProcess (h : Family s dead) (as : ℕ) : Family (newProcess s as).2 dead := by
  obtain ⟨b, htask, hpar, hch, hst⟩ : ∃ b : Task,
      (Kernel.newProcess s as).2.task = (s.setTask s.nextTask b).task ∧ b.parent = none ∧
        b.children = [] ∧ b.state = .runnable := ⟨_, rfl, rfl, rfl, rfl⟩
  have hself : (Kernel.newProcess s as).2.task s.nextTask = some b := by
    rw [htask, State.setTask_self]
  have hother : ∀ {t}, t ≠ s.nextTask → (Kernel.newProcess s as).2.task t = s.task t := by
    intro t ht
    rw [htask, State.setTask_of_ne _ ht]
  have hold : ∀ {t tk}, s.task t = some tk → (Kernel.newProcess s as).2.task t = some tk :=
    fun htk => (hother (h.lt_nextTask htk).ne).trans htk
  refine ⟨?_, fun t ht => Nat.lt_succ_of_lt (h.old t ht), ?_, ?_, ?_, ?_, ?_⟩
  · intro t ht
    have hlt : s.nextTask < t := ht
    rw [hother hlt.ne']
    exact h.fresh t hlt.le
  · intro pid t hpid
    obtain ⟨tk, htk, hp⟩ := h.slot pid t hpid
    exact ⟨tk, hold htk, hp⟩
  · intro t tk p htk hp
    by_cases ht : t = s.nextTask
    · subst ht
      rw [hself, Option.some.injEq] at htk
      subst htk
      rw [hpar] at hp
      cases hp
    · rw [hother ht] at htk
      obtain ⟨hlt, hdead, pk, hpk, hmem⟩ := h.parent t tk p htk hp
      exact ⟨hlt, hdead, pk, hold hpk, hmem⟩
  · intro p pk c hpk hc
    by_cases hp : p = s.nextTask
    · subst hp
      rw [hself, Option.some.injEq] at hpk
      subst hpk
      rw [hch] at hc
      cases hc
    · rw [hother hp] at hpk
      obtain ⟨ck, hck, hpar'⟩ := h.child p pk c hpk hc
      exact ⟨ck, hold hck, hpar'⟩
  · intro t ht tk htk
    rw [hother (h.old t ht).ne] at htk
    exact h.dead t ht tk htk
  · intro t tk htk hz
    by_cases ht : t = s.nextTask
    · subst ht
      rw [hself, Option.some.injEq] at htk
      subst htk
      rw [hst] at hz
      cases hz
    · rw [hother ht] at htk
      exact h.zombie t tk htk hz

/-- The current task and a task without relatives become parent and child. -/
theorem adopt (h : Family s dead) (hb : Busy s) (pid : ℕ) {t : ℕ} {tk ck : Task}
    (htk : s.task s.current = some tk) (hck : s.task t = some ck) (hnone : ck.parent = none)
    (hlt : s.current < t) (hlast : s.nextTask = t + 1) (hslot : ∀ pid, s.tasks pid ≠ some t)
    (hdead : t ∉ dead)
    (hnext : s'.nextTask = s.nextTask) (htasks : s'.tasks = Function.update s.tasks pid (some t))
    (hself : s'.task t = some { ck with pid, parent := some s.current })
    (hcur : s'.task s.current = some { tk with children := t :: tk.children })
    (hother : ∀ u, u ≠ t → u ≠ s.current → s'.task u = s.task u) : Family s' dead := by
  obtain ⟨tk₁, htk₁, hst, hpc⟩ := hb
  rw [htk, Option.some.injEq] at htk₁
  subst htk₁
  have halive : s.current ∉ dead := fun hd => hpc (h.dead _ hd tk htk).2
  -- a task other than the child has the parent that it had
  have hback : ∀ u uk', u ≠ t → s'.task u = some uk' → ∃ uk, s.task u = some uk ∧
      uk'.parent = uk.parent ∧ uk'.pc = uk.pc ∧ uk'.state = uk.state ∧
      ∀ c ∈ uk'.children, c ∈ uk.children ∨ u = s.current ∧ c = t := by
    intro u uk' hu huk'
    by_cases huc : u = s.current
    · subst huc
      rw [hcur, Option.some.injEq] at huk'
      subst huk'
      refine ⟨tk, htk, rfl, rfl, rfl, ?_⟩
      intro c hc
      rcases List.mem_cons.1 hc with rfl | hc
      · exact .inr ⟨rfl, rfl⟩
      · exact .inl hc
    · rw [hother u hu huc] at huk'
      exact ⟨uk', huk', rfl, rfl, rfl, fun c hc => .inl hc⟩
  have hforth : ∀ u uk, u ≠ t → s.task u = some uk → ∃ uk', s'.task u = some uk' ∧
      uk'.pid = uk.pid ∧ uk'.parent = uk.parent ∧ ∀ c ∈ uk.children, c ∈ uk'.children := by
    intro u uk hu huk
    by_cases huc : u = s.current
    · subst huc
      rw [htk, Option.some.injEq] at huk
      subst huk
      exact ⟨_, hcur, rfl, rfl, fun c hc => List.mem_cons_of_mem _ hc⟩
    · exact ⟨uk, (hother u hu huc).trans huk, rfl, rfl, fun c hc => hc⟩
  refine ⟨?_, ?_, ?_, ?_, ?_, ?_, ?_⟩
  · intro u hu
    rw [hnext, hlast] at hu
    rw [hother u (by omega) (by omega)]
    exact h.fresh u (by omega)
  · intro u hu
    rw [hnext]
    exact h.old u hu
  · intro pid' u hpid
    rw [htasks] at hpid
    by_cases hp : pid' = pid
    · subst hp
      rw [Function.update_self, Option.some.injEq] at hpid
      subst hpid
      exact ⟨_, hself, rfl⟩
    · rw [Function.update_of_ne hp] at hpid
      obtain ⟨uk, huk, hpid'⟩ := h.slot pid' u hpid
      obtain ⟨uk', huk', hpid'', -⟩ := hforth u uk (fun heq => hslot pid' (heq ▸ hpid)) huk
      exact ⟨uk', huk', hpid''.trans hpid'⟩
  · intro u uk' p huk' hp
    by_cases hu : u = t
    · subst hu
      rw [hself, Option.some.injEq] at huk'
      subst huk'
      obtain rfl : s.current = p := Option.some.inj hp
      exact ⟨hlt, halive, _, hcur, List.mem_cons_self⟩
    · obtain ⟨uk, huk, hpar, -⟩ := hback u uk' hu huk'
      obtain ⟨hpu, hpd, pk, hpk, hmem⟩ := h.parent u uk p huk (hpar.symm.trans hp)
      have hpt : p ≠ t := by
        rintro rfl
        have := h.lt_nextTask huk
        omega
      obtain ⟨pk', hpk', -, -, hch⟩ := hforth p pk hpt hpk
      exact ⟨hpu, hpd, pk', hpk', hch u hmem⟩
  · intro p pk' c hpk' hc
    by_cases hp : p = t
    · subst hp
      rw [hself, Option.some.injEq] at hpk'
      subst hpk'
      obtain ⟨uk, huk, hpar⟩ := h.child p ck c hck hc
      have := (h.parent c uk p huk hpar).1
      have := h.lt_nextTask huk
      omega
    · obtain ⟨pk, hpk, -, -, -, hch⟩ := hback p pk' hp hpk'
      rcases hch c hc with hold | ⟨rfl, rfl⟩
      · obtain ⟨uk, huk, hpar⟩ := h.child p pk c hpk hold
        by_cases hct : c = t
        · rw [hct, hck, Option.some.injEq] at huk
          rw [← huk, hnone] at hpar
          cases hpar
        · obtain ⟨uk', huk', -, hpar', -⟩ := hforth c uk hct huk
          exact ⟨uk', huk', hpar'.trans hpar⟩
      · exact ⟨_, hself, rfl⟩
  · intro u hu uk' huk'
    obtain ⟨uk, huk, hpar, hpc', -⟩ := hback u uk' (fun heq => hdead (heq ▸ hu)) huk'
    rw [hpar, hpc']
    exact h.dead u hu uk huk
  · intro u uk' huk' hz
    by_cases hu : u = t
    · subst hu
      rw [hself, Option.some.injEq] at huk'
      subst huk'
      exact h.zombie u ck hck hz
    · obtain ⟨uk, huk, -, hpc', hst', -⟩ := hback u uk' hu huk'
      rw [hpc']
      exact h.zombie u uk huk (hst' ▸ hz)

theorem spawn (h : Family s dead) (hb : Busy s) (as pid : ℕ) :
    Safely InTables (fun r => Family r.2 dead ∧ Busy r.2) (spawn s as pid) := by
  have hnew := h.newProcess as
  obtain ⟨s₁, b, hs₁, h₁, hself, hpar, hcur, hnext, htasks, hother⟩ : ∃ s₁ b,
      Kernel.newProcess s as = (s.nextTask, s₁) ∧ Family s₁ dead ∧
      s₁.task s.nextTask = some b ∧ b.parent = none ∧ s₁.current = s.current ∧
      s₁.nextTask = s.nextTask + 1 ∧ s₁.tasks = s.tasks ∧
      ∀ t, t ≠ s.nextTask → s₁.task t = s.task t :=
    ⟨_, _, rfl, hnew, State.setTask_self .., rfl, rfl, rfl, rfl, fun _ ht =>
      State.setTask_of_ne _ ht _⟩
  obtain ⟨tk, htk, hst, hpc⟩ := hb
  have hlt := h.lt_nextTask htk
  have htk₁ : s₁.task s₁.current = some tk := by rw [hcur, hother _ hlt.ne, htk]
  simp only [Kernel.spawn, hs₁, State.cur, safely_bind]
  refine (reads_getTask s₁ _).mono ?_
  intro tk' htk'
  refine (safely_foldlM (fun l s₂ => (∀ i ∈ l, i < tk'.fds.length) ∧ Ipc s₁ s₂)
    ⟨fun i hi => List.mem_range.1 hi, Ipc.refl s₁⟩ ?_).mono ?_
  · rintro i rest s₂ ⟨hl, h₂⟩
    refine (h₂.inheritFd s.nextTask ?_).mono
      fun _ h₃ => ⟨fun j hj => hl j (List.mem_cons_of_mem _ hj), h₃⟩
    intro tk₂ htk₂
    rw [htk', Option.some.injEq] at htk₂
    exact htk₂ ▸ hl i List.mem_cons_self
  rintro s₂ ⟨-, hi⟩
  have hk := hi.kin
  have h₂ := h₁.kin hk
  obtain ⟨ck, hck, hkin⟩ := hk.task _ b hself
  obtain ⟨ctk, hctk, hkin'⟩ := hk.task _ tk htk₁
  have hcur₂ : s₂.current = s.current := hk.current.trans hcur
  rw [hcur] at hctk
  have hb₂ : Busy s₂ := by
    refine ⟨ctk, hcur₂ ▸ hctk, fun hz => hst (hkin'.state hz), ?_⟩
    rw [hkin'.pc]
    exact hpc
  have hne : s₂.current ≠ s.nextTask := by omega
  refine (reads_getTask s₂ _).mono ?_
  intro child hchild
  rw [hck, Option.some.injEq] at hchild
  subst hchild
  obtain ⟨s₃, hs₃⟩ : ∃ s₃, s₃ = s₂.setTask s.nextTask { ck with pid, parent := some s₂.current } :=
    ⟨_, rfl⟩
  have hcur₃ : s₃.current = s₂.current := by rw [hs₃]; rfl
  have hself₃ : s₃.task s.nextTask = some { ck with pid, parent := some s₂.current } := by
    rw [hs₃, State.setTask_self]
  have hother₃ : ∀ t, t ≠ s.nextTask → s₃.task t = s₂.task t := by
    intro t ht
    rw [hs₃, State.setTask_of_ne _ ht]
  have hrest₃ : s₃.nextTask = s₂.nextTask ∧ s₃.tasks = s₂.tasks := by rw [hs₃]; exact ⟨rfl, rfl⟩
  rw [← hs₃]
  refine (reads_getTask s₃ _).mono ?_
  intro ctk' hctk'
  rw [hcur₃, hother₃ _ hne, hcur₂, hctk, Option.some.injEq] at hctk'
  subst hctk'
  rw [safely_pure]
  have hcurtask : (s₃.setTask s₃.current { ctk with children := s.nextTask :: ctk.children }).task
      s₂.current = some { ctk with children := s.nextTask :: ctk.children } := by
    rw [hcur₃, State.setTask_self]
  refine ⟨h₂.adopt hb₂ pid (hcur₂ ▸ hctk) hck (hkin.parent.trans hpar) (by omega)
    (hk.nextTask.trans hnext) ?_ ?_ hrest₃.1 ?_ ?_ hcurtask ?_, ?_⟩
  · intro pid' hpid'
    rw [hk.tasks, htasks] at hpid'
    obtain ⟨uk, huk, -⟩ := h.slot pid' _ hpid'
    exact (h.lt_nextTask huk).ne rfl
  · exact fun hd => (h.old _ hd).ne rfl
  · change Function.update s₃.tasks pid (some s.nextTask) = _
    rw [hrest₃.2]
  · change (s₃.setTask s₃.current _).task s.nextTask = _
    rw [State.setTask_of_ne _ (hcur₃ ▸ hne.symm), hself₃]
  · intro u hu huc
    change (s₃.setTask s₃.current _).task u = _
    rw [State.setTask_of_ne _ (hcur₃ ▸ huc), hother₃ u hu]
  · obtain ⟨tk₂, htk₂, hst₂, hpc₂⟩ := hb₂
    rw [hcur₂, hctk, Option.some.injEq] at htk₂
    subst htk₂
    refine ⟨{ ctk with children := s.nextTask :: ctk.children }, ?_, hst₂, hpc₂⟩
    change (s₃.setTask s₃.current _).task s₃.current = _
    rw [State.setTask_self]

theorem replaceSelf (h : Family s dead) (hb : Busy s) (fd as : ℕ) :
    Safely InTables (fun r => Family r.2 dead ∧ Busy r.2) (replaceSelf s fd as) := by
  simp only [Kernel.replaceSelf, State.cur, safely_bind, safely_pure]
  refine (reads_getTask s _).mono ?_
  intro tk _
  refine Safely.mono (Q := Kin s) ?_ ?_
  · split
    · exact (Kin.refl s).execMm _
    · simp [InTables]
  intro s₁ h₁
  refine (reads_getTask s₁ _).mono ?_
  intro tk' htk'
  have h₂ := h₁.setTask htk'
    (b := { tk' with astable := (tk'.astable.set fd none).set 0 (some as), space := some as })
    ⟨rfl, rfl, rfl, rfl, id⟩
  have h₃ := h₂.setMm { s₁.mm with current := as }
  exact ⟨h.kin h₃, hb.kin h₃⟩

theorem createTask (h : Family s dead) (hb : Busy s) {as : ℤ}
    (has : ∀ tk, s.task s.current = some tk → as ≠ tk.astable.length) (buf : ℕ) (self : Bool) :
    Safely InTables (fun r => Family r.2 dead ∧ Busy r.2) (createTask s as buf self) := by
  simp only [Kernel.createTask, State.cur, safely_bind]
  refine (reads_getTask s _).mono ?_
  intro tk htk
  split
  · exact ⟨h, hb⟩
  rename_i hin
  have hne := has tk htk
  have hlt : as.toNat < tk.astable.length := by omega
  simp only [safely_bind]
  refine (reads_fileAt hlt).mono ?_
  intro f _
  cases f with
  | none => exact ⟨h, hb⟩
  | some a =>
    simp only [locked]
    rw [safely_bind]
    refine Safely.mono (Q := fun r => Family r.2 dead ∧ Busy r.2) ?_ fun r hr => ?_
    swap
    · simp only [safely_bind, safely_pure]
      exact (Kin.refl r.2).enable.mono fun _ hk => ⟨hr.1.kin hk, hr.2.kin hk⟩
    simp only [safely_bind]
    refine Safely.mono (Q := fun r => Quiet (disableInterrupts s) r.2) ?_ ?_
    · exact Quiet.runMm (Calls.refl _) _
    rintro ⟨⟨ret, bytes⟩, s₁⟩ hq
    have hk₁ : Kin s s₁ := ((Kin.refl s).setMm _).trans hq.kin
    dsimp only
    split
    · exact ⟨h.kin hk₁, hb.kin hk₁⟩
    split
    · exact (h.kin hk₁).replaceSelf (hb.kin hk₁) _ _
    split
    · exact ⟨h.kin hk₁, hb.kin hk₁⟩
    · have hk₂ : Kin s (s₁.setAstable (tk.astable.set as.toNat none)) := by
        refine hk₁.trans ?_
        unfold State.setAstable
        split
        · rename_i tk' htk'
          exact (Kin.refl s₁).setTask htk' ⟨rfl, rfl, rfl, rfl, id⟩
        · exact Kin.refl s₁
      exact (h.kin hk₂).spawn (hb.kin hk₂) _ _

/-! ## Steps and runs -/

/-- A call that returned to a task that has not ended. -/
theorem settle_ret (h : Family s dead) (hb : Busy s) : Family (s.setPc .user) dead := by
  obtain ⟨tk, htk, hst, hpc⟩ := hb
  exact h.setPc htk hpc fun hz => absurd hz hst

theorem settle_returns {x : Except Fault (ℤ × State)}
    (hx : Safely InTables (fun r => Family r.2 dead ∧ Busy r.2) x) :
    Safely InTables (fun r => Family (settle r) dead) (returns x) := by
  simp only [returns, safely_bind, safely_pure]
  exact hx.mono fun _ hr => hr.1.settle_ret hr.2

/-- A task that has not ended goes to sleep. -/
theorem settle_sleep (h : Family s dead) (hb : Busy s) (k : Kont) :
    Family (s.setPc (.sleep k)) dead := by
  obtain ⟨tk, htk, hst, hpc⟩ := hb
  exact h.setPc htk hpc fun hz => absurd hz hst

/-- `kill_current`. -/
theorem settle_kill (h : Family s dead) (hb : Busy s) : Family (settle (killCurrent s)) dead := by
  obtain ⟨tk, htk, hst, hpc⟩ := hb
  have heq : settle (killCurrent s) =
      s.setTask s.current { tk with state := .zombie, pc := .sleep .exit } := by
    simp [settle, killCurrent, State.setState, State.setPc, htk, State.setTask,
      Function.update_idem]
  rw [heq]
  exact h.move htk hpc rfl rfl rfl fun _ => .inl rfl

theorem settle_access (h : Family s dead) (hb : Busy s) (ok : Bool) :
    Family (settle (access ok s)) dead := by
  cases ok with
  | false => exact h.settle_kill hb
  | true => exact h.settle_ret hb

/-- `wait_on` returned, or waits. -/
theorem goes (h : Family s dead) (hb : Busy s) {r : Outcome × State} (hr : Quiet.Goes s r) :
    Family (settle r) dead := by
  obtain ⟨o, s'⟩ := r
  obtain ⟨hret, hsleep⟩ := hr
  cases o with
  | ret v =>
    have hk : Kin s s' := by
      rcases hret v rfl with hq | hq
      · exact hq.kin
      · exact ((Kin.refl s).setState (by simp)).trans hq.kin
    exact (h.kin hk).settle_ret (hb.kin hk)
  | sleep k =>
    have hk : Kin s s' := ((Kin.refl s).setState (by simp)).trans (hsleep k rfl).1.kin
    exact (h.kin hk).settle_sleep (hb.kin hk) k

section

variable {tk : Task} (h : Family s dead) (ht : Tables s) (htk : s.task s.current = some tk)
include h ht htk

/-- A call of a task in user mode. -/
theorem syscall (hpc : tk.pc = .user) {c : Call} (hc : Indexed s c) :
    Safely InTables (fun r => Family (settle r) dead) (syscall s c) := by
  have hb : Busy s := by
    refine ⟨tk, htk, ?_, by simp [hpc]⟩
    intro hz
    rcases h.zombie _ tk htk hz with hp | hp <;> simp [hpc] at hp
  have hipc : ∀ {x : Except Fault (ℤ × State)}, Safely InTables (fun r => Ipc s r.2) x →
      Safely InTables (fun r => Family (settle r) dead) (returns x) :=
    fun hx => settle_returns (hx.mono fun _ hr => ⟨h.kin hr.kin, hb.kin hr.kin⟩)
  have hnot : ∀ {fd : ℤ}, fd ≠ MAX_FDS → _ := fun hfd => ht.notMaxFds htk hpc hfd
  have hlen := (ht.cur htk (by simp [hpc, Pc.Idle])).1
  have hlens : ∀ tk, s.task s.current = some tk → tk.fds.length = MAX_FDS := by
    intro tk' htk'
    rw [htk, Option.some.injEq] at htk'
    rw [← htk', hlen]
  cases c with
  | portConnect n len buf => exact hipc ((Ipc.refl s).portConnect hc.1 hc.2 _ _)
  | request rd len buf => exact hipc ((Ipc.refl s).request (hnot hc).1 _ _)
  | getResponse cookie res =>
    exact hipc ((Ipc.refl s).getResponse fun hv => (hnot (hc hv)).1)
  | openPort n =>
    refine settle_returns ((openPort_rule (P := Kin s) hc.1 hc.2 ?_ ?_ fun _ hk => hk.enable).mono
      fun _ hk => ⟨h.kin hk, hb.kin hk⟩)
    · exact fun s₁ s₂ hi hq => hi.kin.trans hq.kin
    · intro i s₁ h₁
      refine (safely_foldlM (fun _ => Kin s) h₁ ?_).mono fun _ hk => hk
      intro t rest s₂ h₂
      refine Kin.wakeUp ?_ t
      exact h₂.same rfl rfl rfl rfl
  | popRequest rd buf => exact hipc ((Ipc.refl s).popRequest (hnot hc).1 _)
  | respond fd len buf => exact hipc ((Ipc.refl s).respond _ _ _)
  | close fd => exact hipc ((Ipc.refl s).close ht.ports (hnot hc).1)
  | dup0 oldFd newFd => exact hipc ((Ipc.refl s).dup0 _ _)
  | waitOn rbuf wbuf => exact (Quiet.waitOn s hlens _ _).mono fun _ hr => h.goes hb hr
  | waitOnPort n =>
    have hk : Kin s ((disableInterrupts s).setState .waiting) :=
      ((Kin.refl s).setMm _).setState (by simp)
    refine (hk.waitOnPortPass hc.1 hc.2).mono ?_
    rintro ⟨o, s'⟩ ⟨hk', -⟩
    cases o with
    | ret v => exact (h.kin hk').settle_ret (hb.kin hk')
    | sleep k => exact (h.kin hk').settle_sleep (hb.kin hk') k
  | createTask as buf self => exact settle_returns (h.createTask hb (hnot hc).2 _ _)
  | exit => exact h.settle_kill hb
  | sendpage as vaddr dst len => exact hipc ((Ipc.refl s).sendpage (hnot hc).2 _ _ _)
  | munmap base len => exact hipc ((Ipc.refl s).runMm _)
  | asnew snapshot => exact hipc ((Ipc.refl s).asnew _)
  | asdestroy as => exact hipc ((Ipc.refl s).asdestroy _)
  | read vaddr =>
    simp only [Kernel.syscall, safely_bind, safely_pure]
    exact (Quiet.runMm (Calls.refl s) _).mono
      fun _ hq => (h.kin hq.kin).settle_access (hb.kin hq.kin) _
  | write vaddr b =>
    simp only [Kernel.syscall, safely_bind, safely_pure]
    exact (Quiet.runMm (Calls.refl s) _).mono
      fun _ hq => (h.kin hq.kin).settle_access (hb.kin hq.kin) _

/-- A task that goes on after `schedule()` is none that has ended. -/
theorem resume {k : Kont} (hpc : tk.pc = .woken k) :
    Safely InTables (fun r => Family (settle r) dead) (resume s k) := by
  have hk := ht.pc _ tk htk
  rw [hpc] at hk
  have hoff : Quiet s (disableInterrupts s) := Quiet.setMm (Calls.refl s) _
  have hb : k ≠ .exit → Busy s := by
    intro hne
    have hwoken : tk.pc ≠ .woken .exit := by
      rw [hpc]
      simpa using hne
    refine ⟨tk, htk, ?_, hwoken⟩
    intro hz
    rcases h.zombie _ tk htk hz with hp | hp
    · rw [hpc] at hp
      cases hp
    · exact hwoken hp
  cases k with
  | waitOn rbuf wbuf rfds wfds =>
    have hlen := (ht.cur htk (by simp [hpc, Pc.Idle])).1
    have hlens : ∀ tk, s.task s.current = some tk → MAX_FDS ≤ tk.fds.length := by
      intro tk' htk'
      rw [htk, Option.some.injEq] at htk'
      rw [← htk', hlen]
    refine (hoff.waitOnPass hlens rbuf wbuf hk.1 hk.2).mono ?_
    intro r hr
    exact h.goes (hb (by simp)) ⟨fun v hv => .inr (hr.1 v hv), hr.2⟩
  | waitOnPort n =>
    refine (hoff.kin.waitOnPortPass hk.1 hk.2).mono ?_
    rintro ⟨o, s'⟩ ⟨hk', -⟩
    have hb' := (hb (by simp)).kin hk'
    cases o with
    | ret v => exact (h.kin hk').settle_ret hb'
    | sleep k => exact (h.kin hk').settle_sleep hb' k
  | exit => simp [Kernel.resume, InTables]
  | idle => exact h.settle_sleep (hb (by simp)) .idle

end

/-- What an allowed step keeps. -/
theorem step (h : Family s dead) (ht : Tables s) {a : Action} (hok : SlotsAllowed (s, dead) a)
    (hidx : ∀ c tk, a = .call c → s.task s.current = some tk → tk.pc = .user → Indexed s c) :
    Safely InTables (fun s' => Family s' (reaped s a ++ dead)) (step s a) := by
  cases a with
  | call c =>
    simp only [Kernel.step, State.cur, safely_bind]
    refine (reads_getTask s _).mono ?_
    intro tk htk
    split
    · rename_i hpc
      simp only [safely_bind, safely_pure]
      exact h.syscall ht htk hpc (hidx c tk rfl htk hpc)
    · exact h
  | schedule =>
    simp only [Kernel.step, State.cur, safely_bind]
    refine (reads_getTask s _).mono ?_
    intro tk htk
    cases hpc : tk.pc with
    | sleep k =>
      have hreaped : reaped s .schedule = if tk.state = .zombie then [s.current] else [] := by
        simp [reaped, htk, hpc]
      have hexit : tk.state = .zombie → k = .exit := by
        intro hz
        rcases h.zombie _ tk htk hz with hp | hp <;> rw [hpc] at hp <;> cases hp
        rfl
      have hne : tk.pc ≠ .woken .exit := by simp [hpc]
      have h₁ : Family (s.setPc (.woken k)) dead := h.setPc htk hne fun hz =>
        .inr (by rw [hexit hz])
      have hset : s.setPc (.woken k) = s.setTask s.current { tk with pc := .woken k } := by
        rw [State.setPc, htk]
      have htk₁ : (s.setPc (.woken k)).task (s.setPc (.woken k)).current =
          some { tk with pc := .woken k } := by
        rw [hset]
        exact State.setTask_self ..
      have hcur : (s.setPc (.woken k)).current = s.current := by rw [hset]; rfl
      refine h₁.schedule htk₁ ?_ (hreaped.trans (by rw [hcur]))
      intro hz
      refine ⟨by rw [hexit hz], ?_⟩
      intro c hc ck hck
      rw [hcur]
      have hin : s.current ∈ reaped s .schedule := by
        rw [hreaped, if_pos (show tk.state = .zombie from hz)]
        exact List.mem_singleton.2 rfl
      by_cases hcc : c = s.current
      · exact absurd (h.dead c hc tk (hcc ▸ htk)).2 hne
      · rw [hset, State.setTask_of_ne _ hcc] at hck
        exact hok _ hin c hc ck hck
    | user | woken => simpa [reaped, htk, hpc] using h
  | resume =>
    simp only [Kernel.step, State.cur, safely_bind]
    refine (reads_getTask s _).mono ?_
    intro tk htk
    split
    · rename_i k hpc
      simp only [safely_bind, safely_pure]
      exact h.resume ht htk hpc
    · exact h
  | interrupt vector =>
    simp only [Kernel.step]
    split
    · exact ((Ipc.refl s).intHandler _).mono fun _ hi => h.kin hi.kin
    · exact h

end Family

theorem family_boot (mm : Mm.State) (as : ℕ) (junk inport : ℕ → ℕ) (tarfs : ℕ × ℕ) :
    Family (boot mm as junk inport tarfs) [] := by
  -- neither of the two tasks has a parent or a child
  have htask : ∀ t tk, (boot mm as junk inport tarfs).task t = some tk →
      tk.pid = t ∧ t < 2 ∧ tk.parent = none ∧ tk.children = [] ∧ tk.state = .runnable := by
    intro t tk ht
    by_cases h1 : t = 1
    · subst h1
      obtain rfl : _ = tk := Option.some.inj ht
      exact ⟨rfl, by omega, rfl, rfl, rfl⟩
    · by_cases h0 : t = 0
      · subst h0
        obtain rfl : _ = tk := Option.some.inj ht
        exact ⟨rfl, by omega, rfl, rfl, rfl⟩
      · simp [boot, Kernel.newProcess, bare, State.poolCreate, State.setTask,
          Function.update_of_ne h1, Function.update_of_ne h0] at ht
  refine ⟨?_, by simp, ?_, ?_, ?_, by simp, ?_⟩
  · intro t ht
    have ht : 2 ≤ t := ht
    cases hs : (boot mm as junk inport tarfs).task t with
    | none => rfl
    | some tk =>
      have := (htask t tk hs).2.1
      omega
  · intro pid t hpid
    by_cases h1 : pid = 1
    · subst h1
      obtain rfl : 1 = t := Option.some.inj hpid
      exact ⟨_, rfl, rfl⟩
    · by_cases h0 : pid = 0
      · subst h0
        obtain rfl : 0 = t := Option.some.inj hpid
        exact ⟨_, rfl, rfl⟩
      · simp [boot, Kernel.newProcess, bare, State.poolCreate, State.setTask,
          Function.update_of_ne h1, Function.update_of_ne h0] at hpid
  · intro t tk p htk hp
    rw [(htask t tk htk).2.2.1] at hp
    cases hp
  · intro p pk c hpk hc
    rw [(htask p pk hpk).2.2.2.1] at hc
    cases hc
  · intro t tk htk hz
    rw [(htask t tk htk).2.2.2.2] at hz
    cases hz

/-- The run itself does not depend on what is remembered of it. -/
theorem run_of_stepDead {l : List Action} {x y : State × List ℕ} (h : l.foldlM stepDead x = .ok y) :
    run x.1 l = .ok y.1 := by
  induction l generalizing x with
  | nil =>
    cases h
    rfl
  | cons a l ih =>
    rw [List.foldlM_cons, stepDead] at h
    rw [run, List.foldlM_cons]
    cases hs : step x.1 a with
    | error e =>
      rw [hs] at h
      cases h
    | ok s =>
      rw [hs] at h
      exact ih h

/-- **Process slots are reclaimed**, and no pointer to a freed task is left, after every
run in which no task ends that has a child that has ended. -/
theorem slots_of_allowed (mm : Mm.State) (as : ℕ) (junk inport : ℕ → ℕ) (tarfs : ℕ × ℕ)
    (l : List Action) (hok : Along SlotsAllowed stepDead (boot mm as junk inport tarfs, []) l) :
    Safely (fun _ => True)
      (fun x => run (boot mm as junk inport tarfs) l = .ok x.1 ∧ SlotsOk x.1 x.2)
      (l.foldlM stepDead (boot mm as junk inport tarfs, [])) := by
  have hrun : Safely (fun _ => True) (fun x => Tables x.1 ∧ Family x.1 x.2)
      (l.foldlM stepDead (boot mm as junk inport tarfs, [])) := by
    refine safely_along (I := fun x => Tables x.1 ∧ Family x.1 x.2)
      ⟨tables_boot mm as junk inport tarfs, family_boot mm as junk inport tarfs⟩ ?_ hok
    rintro ⟨s, dead⟩ a ⟨ht, h⟩ ha
    by_cases hidx : ∀ c tk, a = .call c → s.task s.current = some tk → tk.pc = .user → Indexed s c
    · simp only [stepDead, safely_bind, safely_pure]
      have hboth := (ht.step hidx).and (h.step ht ha hidx)
      exact safely_iff.2 ⟨(safely_iff.1 hboth).1, fun _ _ => trivial⟩
    · push Not at hidx
      obtain ⟨c, tk, rfl, htk, hpc, hc⟩ := hidx
      rw [stepDead, ht.step_outOfBounds htk hpc hc]
      trivial
  refine safely_iff.2 ⟨?_, fun _ _ => trivial⟩
  intro x hx
  exact ⟨run_of_stepDead hx, (hrun.of_ok hx).2.slotsOk⟩

/-- The init task starts a task in a new address space. -/
def startChild : List Action :=
  [.schedule, .call (.sendpage 0 0 0x400000 0x1000), .call (.asnew false),
    .call (.createTask 1 0x400000 false)]

/-- A parent that ends before its child. -/
def parentFirst : List Action := startChild ++ [.call .exit, .schedule, .call .exit, .schedule]

/-- A child that wakes its parent and ends before it. -/
def childFirst : List Action :=
  startChild ++ [.call (.waitOnPort 20), .schedule, .call (.openPort 20), .call .exit, .schedule,
    .resume, .call .exit, .schedule]

/-- `SlotsAllowed`, computed. -/
def slotsCheck (x : State × List ℕ) (a : Action) : Bool :=
  (reaped x.1 a).all fun t => x.2.all fun c => (x.1.task c).all fun ck => ck.parent != some t

theorem slotsAllowed_of_check {x : State × List ℕ} {a : Action} (h : slotsCheck x a = true) :
    SlotsAllowed x a := by
  intro t ht c hc ck hck
  rw [slotsCheck, List.all_eq_true] at h
  have hall := List.all_eq_true.1 (h t ht) c hc
  simpa [hck] using hall

/-- Both tasks are gone, and both entries are free. -/
theorem slots_of_allowed_parent : ∃ s, (parentFirst.foldlM stepDead
      (bootWith [0x10000, 0x11000, 0x12000, 0x13000, 0x14000], [])) = .ok (s, [2, 1]) ∧
    SlotsOk s [2, 1] ∧ s.tasks 1 = none ∧ s.tasks 2 = none := by
  -- the run and the test of its steps are computed together
  have hrun : (parentFirst.foldlM stepDead
      (bootWith [0x10000, 0x11000, 0x12000, 0x13000, 0x14000], [])).toOption.bind
        (fun x => some (x.2, x.1.tasks 1, x.1.tasks 2)) = some ([2, 1], none, none) ∧
      alongCheck slotsCheck stepDead
        (bootWith [0x10000, 0x11000, 0x12000, 0x13000, 0x14000], []) parentFirst = true := by
    decide +kernel
  obtain ⟨⟨s, dead⟩, hs, hslots⟩ := exists_of_bind hrun.1
  simp only [Option.some.injEq, Prod.mk.injEq] at hslots
  obtain ⟨rfl, h1, h2⟩ := hslots
  have hok := along_of_check hrun.2 fun _ _ => slotsAllowed_of_check
  have hall : ∀ free l, Along SlotsAllowed stepDead (bootWith free, []) l →
      ∀ x, l.foldlM stepDead (bootWith free, []) = .ok x → SlotsOk x.1 x.2 :=
    fun _ l hl x hx => ((slots_of_allowed _ _ _ _ _ l hl).of_ok hx).2
  exact ⟨s, hs, hall _ _ hok _ hs, h1, h2⟩

/-- The child keeps its entry for ever. -/
theorem slots_fails : ¬∀ (free : List ℕ) (l : List Action) (s : State) (dead : List ℕ),
    l.foldlM stepDead (bootWith free, []) = .ok (s, dead) → SlotsOk s dead := by
  intro h
  have hrun : (childFirst.foldlM stepDead
      (bootWith [0x10000, 0x11000, 0x12000, 0x13000, 0x14000], [])).toOption.bind
        (fun x => some (x.2, x.1.tasks 2, (x.1.task 2).map Task.parent)) =
      some ([1, 2], some 2, some none) := by
    decide +kernel
  obtain ⟨⟨s, dead⟩, hs, hslots⟩ := exists_of_bind hrun
  simp only [Option.some.injEq, Prod.mk.injEq] at hslots
  obtain ⟨rfl, hslot, hparent⟩ := hslots
  refine (h _ _ s [1, 2] hs).slot 2 (by simp) ?_ 2 hslot
  intro tk htk
  rw [htk, Option.map_some, Option.some.injEq] at hparent
  exact .inl hparent

end SadOS.Kernel
