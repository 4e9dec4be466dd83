import SadOS.Kernel.Effects
import SadOS.Mm.World

/-!
# Accesses to tables

The tables of handles and of address spaces have 510 entries, those of ports 4096.  Which
numbers a system call lets through decides whether it stays inside: six of them compare
with `>` where `>=` is meant, and the three that take the number of a port do not test it.

## Main definitions

* `Tables` — the sizes of tables, and the numbers that the kernel keeps.
* `Indexed` — a call that stays inside its tables.
* `bootWith` — the first state, over a list of free pages.

## Main results

* `Tables.step`, `tables_boot` — the sizes never change.
* `tableIndices_iff` — a step leaves a table exactly if it is a call that is not
  `Indexed`.
* `tableIndices_fails` — `close(510)`.
-/

namespace SadOS.Kernel

open Mm (fdtableInsert)

/-- The numbers that a task goes on with after `schedule()`. -/
def Kont.Ok : Kont → Prop
  | .waitOn _ _ rfds wfds => rfds.nfds ≤ MAX_FDS ∧ wfds.nfds ≤ MAX_FDS
  | .waitOnPort n => 0 ≤ n ∧ n < MAX_PORT
  | .exit => True
  | .idle => True

def Pc.Ok : Pc → Prop
  | .user => True
  | .sleep k => k.Ok
  | .woken k => k.Ok

/-- A task that never returns to user mode. -/
def Pc.Idle : Pc → Prop
  | .sleep .idle => True
  | .woken .idle => True
  | _ => False

/-- The sizes of tables, and the numbers that the kernel keeps. -/
structure Tables (s : State) : Prop where
  fds : ∀ t tk, s.task t = some tk → t ≠ s.idleTask →
    tk.fds.length = MAX_FDS ∧ tk.astable.length = MAX_FDS
  idle : ∀ tk, s.task s.idleTask = some tk → tk.pc.Idle
  pc : ∀ t tk, s.task t = some tk → tk.pc.Ok
  ports : PortsOk s
  fresh : s.idleTask < s.nextTask

/-- A call that stays inside its tables. -/
def Indexed (s : State) : Call → Prop
  | .portConnect n _ _ => 0 ≤ n ∧ n < MAX_PORT
  | .openPort n => 0 ≤ n ∧ n < MAX_PORT
  | .waitOnPort n => 0 ≤ n ∧ n < MAX_PORT
  | .request rd _ _ => rd ≠ MAX_FDS
  | .popRequest rd _ => rd ≠ MAX_FDS
  | .close fd => fd ≠ MAX_FDS
  | .getResponse cookie res => Mm.validateRange s.mm res.toNat 16 = .ok true → cookie ≠ MAX_FDS
  | .sendpage as _ _ _ => as ≠ MAX_FDS
  | .createTask as _ _ => as ≠ MAX_FDS
  | _ => True

/-- The tasks of `s'` are tasks of `s`, with tables of the same sizes. -/
structure Tame (s s' : State) : Prop where
  current : s'.current = s.current
  idleTask : s'.idleTask = s.idleTask
  nextTask : s'.nextTask = s.nextTask
  ports : PortsOk s → PortsOk s'
  task : ∀ t tk', s'.task t = some tk' → ∃ tk, s.task t = some tk ∧
    tk'.fds.length = tk.fds.length ∧ tk'.astable.length = tk.astable.length ∧ tk'.pc = tk.pc

namespace Tame

variable {s₀ s s' : State}

theorem refl (s : State) : Tame s s := ⟨rfl, rfl, rfl, id, fun _ tk h => ⟨tk, h, rfl, rfl, rfl⟩⟩

theorem trans (h : Tame s₀ s) (h' : Tame s s') : Tame s₀ s' := by
  refine ⟨h'.current.trans h.current, h'.idleTask.trans h.idleTask, h'.nextTask.trans h.nextTask,
    fun hp => h'.ports (h.ports hp), ?_⟩
  intro t tk' ht
  obtain ⟨tk, htk, hf, ha, hpc⟩ := h'.task t tk' ht
  obtain ⟨tk₀, htk₀, hf₀, ha₀, hpc₀⟩ := h.task t tk htk
  exact ⟨tk₀, htk₀, hf.trans hf₀, ha.trans ha₀, hpc.trans hpc₀⟩

/-- A state with the same tasks and objects. -/
theorem same (h : Tame s₀ s) (hcur : s'.current = s.current) (hidle : s'.idleTask = s.idleTask)
    (hnext : s'.nextTask = s.nextTask) (hobjs : s'.objs = s.objs) (htask : s'.task = s.task) :
    Tame s₀ s' := by
  refine h.trans ⟨hcur, hidle, hnext, fun hp a p u ha => hp a p u (hobjs ▸ ha), ?_⟩
  intro t tk ht
  rw [htask] at ht
  exact ⟨tk, ht, rfl, rfl, rfl⟩

/-- A task is stored with tables of the same sizes, at the same place. -/
theorem setTask (h : Tame s₀ s) {t : ℕ} {tk b : Task} (ht : s.task t = some tk)
    (hf : b.fds.length = tk.fds.length) (ha : b.astable.length = tk.astable.length)
    (hpc : b.pc = tk.pc) : Tame s₀ (s.setTask t b) := by
  refine h.trans ⟨rfl, rfl, rfl, id, ?_⟩
  intro t' tk₁ ht'
  by_cases hne : t' = t
  · subst hne
    rw [State.setTask_self, Option.some.injEq] at ht'
    subst ht'
    exact ⟨tk, ht, hf, ha, hpc⟩
  · rw [State.setTask_of_ne _ hne] at ht'
    exact ⟨tk₁, ht', rfl, rfl, rfl⟩

theorem setState (h : Tame s₀ s) (state : TaskState) : Tame s₀ (s.setState state) := by
  unfold State.setState
  split
  · rename_i tk htk
    exact h.setTask htk rfl rfl rfl
  · exact h

theorem setMm (h : Tame s₀ s) (m : Mm.State) : Tame s₀ (s.setMm m) := h.same rfl rfl rfl rfl rfl

theorem runMm {α : Type} (h : Tame s₀ s) (x : Except SadOS.Fault (α × Mm.State)) :
    Safely InTables (fun r => Tame s₀ r.2) (s.runMm x) := by
  unfold State.runMm
  split
  · exact h.setMm _
  · simp [InTables]

theorem execMm (h : Tame s₀ s) (x : Except SadOS.Fault Mm.State) :
    Safely InTables (Tame s₀) (s.execMm x) := by
  unfold State.execMm
  split
  · exact h.setMm _
  · simp [InTables]

theorem enable (h : Tame s₀ s) : Safely InTables (Tame s₀) (enableInterrupts s) := h.execMm _

/-- What stands between `disable_interrupts` and `enable_interrupts`. -/
theorem locked {α : Type} (h : Tame s₀ s) {f : State → Except Fault (α × State)}
    (hf : Tame s₀ (disableInterrupts s) →
      Safely InTables (fun r => Tame s₀ r.2) (f (disableInterrupts s))) :
    Safely InTables (fun r => Tame s₀ r.2) (locked s f) := by
  simp only [Kernel.locked, safely_bind, safely_pure]
  refine (hf (h.setMm _)).mono ?_
  intro r hr
  exact hr.enable

theorem wakeUp (h : Tame s₀ s) (t : ℕ) : Safely InTables (Tame s₀) (wakeUp s t) := by
  simp only [Kernel.wakeUp, safely_bind]
  refine (reads_getTask s t).mono ?_
  intro tk htk
  split
  · exact (h.setTask (b := { tk with state := .runnable }) htk rfl rfl rfl).same rfl rfl rfl rfl rfl
  · exact h

theorem foldlM {β : Type} (h : Tame s₀ s) {f : State → β → Except Fault State}
    (hf : ∀ s b, Tame s₀ s → Safely InTables (Tame s₀) (f s b)) (l : List β) :
    Safely InTables (Tame s₀) (l.foldlM f s) :=
  safely_foldlM (fun _ => Tame s₀) h fun b _ s hs => hf s b hs

/-- A handle is stored. -/
theorem setReq (h : Tame s₀ s) (a : ℕ) (r : Request) : Tame s₀ (s.setReq a r) := by
  refine h.trans ⟨rfl, rfl, rfl, ?_, fun _ tk ht => ⟨tk, ht, rfl, rfl, rfl⟩⟩
  intro hp a' p u ha'
  by_cases ha : a' = a
  · subst ha
    simp [State.setReq, State.setBody] at ha'
  · rw [State.setReq, State.setBody_of_ne _ ha] at ha'
    exact hp a' p u ha'

/-! ### The scheduler -/

theorem killProcess (h : Tame s₀ s) (t : ℕ) : Safely InTables (Tame s₀) (killProcess s t) := by
  unfold Kernel.killProcess
  split
  · simp [InTables]
  simp only [safely_bind]
  refine (reads_getTask s t).mono ?_
  intro tk htk
  refine Safely.mono (Q := Tame s₀) ?_ ?_
  · split
    · exact h.execMm _
    · simp [InTables]
  intro s₁ h₁
  have h₂ : Tame s₀ (s₁.poolDestroy tk.filePool) := by
    refine h₁.trans ⟨rfl, rfl, rfl, ?_, fun _ tk ht => ⟨tk, ht, rfl, rfl, rfl⟩⟩
    intro hp a p u ha
    simp only [State.poolDestroy, Option.filter_eq_some_iff] at ha
    exact hp a p u ha.1
  refine (h₂.foldlM (f := orphan t) ?_ tk.children).mono ?_
  · intro s child hs
    simp only [orphan, safely_bind, safely_pure]
    refine (reads_getTask s t).mono ?_
    intro pk hpk
    refine (reads_getTask _ child).mono ?_
    intro ck hck
    have hp := hs.setTask (b := { pk with children := pk.children.erase child }) hpk rfl rfl rfl
    exact hp.setTask hck rfl rfl rfl
  intro s₃ h₃
  split
  · refine h₃.trans ⟨rfl, rfl, rfl, id, ?_⟩
    intro t' tk' ht'
    by_cases hne : t' = t
    · subst hne
      simp at ht'
    · dsimp only at ht'
      rw [Function.update_of_ne hne] at ht'
      exact ⟨tk', ht', rfl, rfl, rfl⟩
  · exact h₃

/-- What the switch to another task leaves as it is: everything but the current task. -/
theorem schedule (s : State) :
    Safely InTables (fun s' => Tame { s with current := s'.current } s') (schedule s) := by
  unfold Kernel.schedule
  split
  · simp [InTables]
  split
  · simp [InTables]
  simp only [requeue, State.cur, safely_bind]
  refine (reads_getTask _ _).mono ?_
  intro tk htk
  refine Safely.mono (Q := Tame s) ?_ ?_
  · split
    · have h₁ := (Tame.refl s).setMm (Mm.disableInterrupts s.mm)
      exact (h₁.setTask (b := { tk with state := .runnable }) htk rfl rfl rfl).same rfl rfl rfl rfl rfl
    · exact (Tame.refl s).setMm _
  intro s₁ h₁
  obtain ⟨next, s₂, hn, h₂⟩ : ∃ next s₂, Kernel.nextTask s₁ = (next, s₂) ∧ Tame s s₂ := by
    unfold Kernel.nextTask
    split
    · exact ⟨_, _, rfl, h₁.same rfl rfl rfl rfl rfl⟩
    · exact ⟨_, _, rfl, h₁⟩
  rw [hn]
  refine (reads_getTask _ _).mono ?_
  intro nt hnt
  refine (reads_getTask _ _).mono ?_
  intro tk₂ htk₂
  obtain ⟨s₃, hs₃⟩ : ∃ s₃, s₃ = switchTo
      (if tk₂.state = .zombie then { s₂ with toKill := some s₂.current } else s₂) next nt.space :=
    ⟨_, rfl⟩
  have h₃ : Tame { s with current := s₃.current } s₃ := by
    rw [hs₃]
    split
    · exact ⟨rfl, h₂.idleTask, h₂.nextTask, h₂.ports, h₂.task⟩
    · exact ⟨rfl, h₂.idleTask, h₂.nextTask, h₂.ports, h₂.task⟩
  rw [← hs₃]
  have hcur : ∀ s', Tame { s with current := s₃.current } s' →
      Tame { s with current := s'.current } s' := by
    intro s' h'
    rw [h'.current]
    exact h'
  simp only [afterSwitch, State.cur, safely_bind]
  refine (reads_getTask _ _).mono ?_
  intro tk₃ htk₃
  have h₄ := h₃.setTask (b := { tk₃ with state := .running }) htk₃ rfl rfl rfl
  refine Safely.mono (Q := Tame { s with current := s₃.current }) ?_ ?_
  · split
    · simp only [safely_bind, safely_pure]
      refine (h₄.killProcess _).mono ?_
      intro s₅ h₅
      exact h₅.same rfl rfl rfl rfl rfl
    · exact h₄
  intro s₅ h₅
  exact (h₅.enable).mono hcur

theorem intHandler (h : Tame s₀ s) (vector : ℕ) :
    Safely InTables (Tame s₀) (intHandler s vector) := by
  refine h.foldlM ?_ _
  intro s a hs
  simp only [intWaiter, safely_bind]
  refine (reads_getReq s a).mono ?_
  intro r _
  refine Safely.mono (Q := Tame s₀) ?_ ?_
  · split
    · exact hs.wakeUp _
    · exact hs
  intro s₁ h₁
  refine Safely.mono (Q := fun _ => True) ?_ ?_
  · split
    · trivial
    · simp [InTables]
  intro n _
  exact h₁.setReq a _

end Tame

theorem Calls.tame {w : List ℕ} {s s' : State} (hc : Calls w s s') : Tame s s' := by
  refine ⟨hc.current, hc.idleTask, hc.nextTask, hc.ports, ?_⟩
  intro t tk' ht
  cases hs : s.task t with
  | none =>
    rw [hc.none t hs] at ht
    cases ht
  | some tk =>
    obtain ⟨tk₁, h₁, fds, astable, hf, ha, rfl⟩ := hc.task t tk hs
    rw [ht, Option.some.injEq] at h₁
    subst h₁
    exact ⟨tk, rfl, hf, ha, rfl⟩

theorem Ipc.tame {s s' : State} (h : Ipc s s') : Tame s s' := by
  obtain ⟨⟨w, hc, -⟩, -⟩ := h
  exact hc.tame

namespace Tables

variable {s s' : State}

/-- The sizes are those of the tasks, whoever is the current one. -/
theorem tame (h : Tables s) {c : ℕ} (ht : Tame { s with current := c } s') : Tables s' := by
  refine ⟨?_, ?_, ?_, ht.ports h.ports, ?_⟩
  · intro t tk' htk' hidle
    obtain ⟨tk, htk, hf, ha, -⟩ := ht.task t tk' htk'
    rw [ht.idleTask] at hidle
    have := h.fds t tk htk hidle
    omega
  · intro tk' htk'
    rw [ht.idleTask] at htk'
    obtain ⟨tk, htk, -, -, hpc⟩ := ht.task _ tk' htk'
    rw [hpc]
    exact h.idle tk htk
  · intro t tk' htk'
    obtain ⟨tk, htk, -, -, hpc⟩ := ht.task t tk' htk'
    rw [hpc]
    exact h.pc t tk htk
  · rw [ht.idleTask, ht.nextTask]
    exact h.fresh

theorem setPc (h : Tables s) {pc : Pc} (hpc : pc.Ok) (hidle : s.current = s.idleTask → pc.Idle) :
    Tables (s.setPc pc) := by
  unfold State.setPc
  split
  · rename_i tk htk
    refine ⟨?_, ?_, ?_, h.ports, h.fresh⟩
    · intro t tk' htk' hne
      by_cases ht : t = s.current
      · subst ht
        rw [State.setTask_self, Option.some.injEq] at htk'
        subst htk'
        exact h.fds _ tk htk hne
      · rw [State.setTask_of_ne _ ht] at htk'
        exact h.fds t tk' htk' hne
    · intro tk' htk'
      by_cases ht : s.idleTask = s.current
      · rw [show (s.setTask s.current _).idleTask = s.current from ht, State.setTask_self,
          Option.some.injEq] at htk'
        subst htk'
        exact hidle ht.symm
      · rw [State.setTask_of_ne] at htk'
        · exact h.idle tk' htk'
        · exact ht
    · intro t tk' htk'
      by_cases ht : t = s.current
      · subst ht
        rw [State.setTask_self, Option.some.injEq] at htk'
        subst htk'
        exact hpc
      · rw [State.setTask_of_ne _ ht] at htk'
        exact h.pc t tk' htk'
  · exact h

/-- The tables of a task in user mode. -/
theorem cur (h : Tables s) {tk : Task} (htk : s.task s.current = some tk) (hidle : ¬tk.pc.Idle) :
    tk.fds.length = MAX_FDS ∧ tk.astable.length = MAX_FDS := by
  refine h.fds _ tk htk ?_
  intro heq
  rw [heq] at htk
  exact hidle (h.idle tk htk)

end Tables

/-! ## The calls that block -/

namespace Quiet

variable {s₀ s s' : State}

theorem runMm {α : Type} (h : Quiet s₀ s) (x : Except SadOS.Fault (α × Mm.State)) :
    Safely InTables (fun r => Quiet s₀ r.2) (s.runMm x) := by
  unfold State.runMm
  split
  · exact h.setMm _
  · simp [InTables]

theorem enable (h : Quiet s₀ s) : Safely InTables (Quiet s₀) (enableInterrupts s) := by
  unfold enableInterrupts State.execMm
  split
  · exact h.setMm _
  · simp [InTables]

/-- The current task has a table for all numbers below `n`. -/
theorem cur_size (h : Quiet s₀ s) {n : ℕ}
    (hn : ∀ tk, s₀.task s₀.current = some tk → n ≤ tk.fds.length) :
    ∀ tk, s.task s.current = some tk → n ≤ tk.fds.length := by
  intro tk' htk'
  rw [h.current] at htk'
  cases hs : s₀.task s₀.current with
  | none =>
    rw [h.none _ hs] at htk'
    cases htk'
  | some tk =>
    obtain ⟨tk₁, htk₁, fds, astable, hf, -, rfl⟩ := h.task _ tk hs
    rw [htk', Option.some.injEq] at htk₁
    subst htk₁
    have := hn tk hs
    dsimp only
    omega

theorem ropsAvailable (h : Quiet s₀ s) (ops : ReqOps) (a : ℕ) (r : Request) (rw : ℕ) :
    Safely InTables (fun r => Quiet s₀ r.2) (ropsAvailable s ops a r rw) := by
  cases ops with
  | uportServer =>
    simp only [Kernel.ropsAvailable, safely_bind, safely_pure]
    exact (Ipc.uportServerAvailable r rw).mono fun _ _ => h
  | uportClient =>
    simp only [Kernel.ropsAvailable, safely_bind, safely_pure]
    exact (Ipc.uportUserAvailable r rw).mono fun _ _ => h
  | int =>
    simp only [Kernel.ropsAvailable, intPortAvailable, safely_bind, safely_pure]
    split
    · exact h
    split
    · exact h.setReq a _
    · simp [InTables]
  | mem | tarfs | bda | portio => exact h

theorem fdCheck (h : Quiet s₀ s) {n : ℕ} (hn : ∀ tk, s₀.task s₀.current = some tk → n ≤ tk.fds.length)
    {i : ℕ} (hi : i < n) (rw : ℕ) (fds : FdSet) :
    Safely InTables (fun r => Quiet s₀ r.2) (fdCheck rw i fds s) := by
  simp only [Kernel.fdCheck, State.cur, safely_bind]
  refine (reads_getTask s _).mono ?_
  intro tk htk
  refine (reads_fileAt (hi.trans_le (h.cur_size hn tk htk))).mono ?_
  intro f _
  cases f with
  | none => exact h
  | some a =>
    simp only [safely_bind]
    refine (reads_getReq s a).mono ?_
    intro r _
    refine (reads_ropsOf r).mono ?_
    intro ops _
    refine (h.ropsAvailable ops a r rw).mono ?_
    rintro ⟨available, s₁⟩ h₁
    cases available with
    | none => exact h₁
    | some b =>
      simp only [safely_bind, safely_pure]
      refine (reads_getReq s₁ a).mono ?_
      intro r' _
      exact h₁.setReq a _

theorem fdsCheckFrom (h : Quiet s₀ s) {n : ℕ}
    (hn : ∀ tk, s₀.task s₀.current = some tk → n ≤ tk.fds.length) (rw : ℕ) {l : List ℕ}
    (hl : ∀ i ∈ l, i < n) (fds : FdSet) :
    Safely InTables (fun r => Quiet s₀ r.2) (fdsCheckFrom rw l fds s) := by
  induction l generalizing fds s with
  | nil => exact h
  | cons i rest ih =>
    have hrest : ∀ i ∈ rest, i < n := fun i hi => hl i (List.mem_cons_of_mem _ hi)
    unfold Kernel.fdsCheckFrom
    split
    · exact h
    split
    · exact ih h hrest fds
    simp only [safely_bind]
    refine (h.fdCheck hn (hl i List.mem_cons_self) rw fds).mono ?_
    rintro ⟨⟨ret, fds'⟩, s₁⟩ h₁
    dsimp only
    split
    · exact h₁
    · exact ih h₁ hrest fds'

theorem fdsCheck (h : Quiet s₀ s) {n : ℕ}
    (hn : ∀ tk, s₀.task s₀.current = some tk → n ≤ tk.fds.length) (rw : ℕ) {fds : FdSet}
    (hfds : fds.nfds ≤ n) : Safely InTables (fun r => Quiet s₀ r.2) (fdsCheck rw fds s) := by
  refine h.fdsCheckFrom hn rw ?_ fds
  intro i hi
  rw [List.mem_range] at hi
  omega

theorem unwaitAll (h : Quiet s₀ s) {n : ℕ}
    (hn : ∀ tk, s₀.task s₀.current = some tk → n ≤ tk.fds.length) {fds : FdSet}
    (hfds : fds.nfds ≤ n) :
    Safely InTables (Quiet s₀) ((List.range fds.nfds.toNat).foldlM (unwait fds) s) := by
  refine safely_foldlM (fun _ => Quiet s₀) h ?_
  intro i _ s hs
  unfold unwait
  split
  · exact hs
  rename_i hset
  have hi : i < n := by
    simp only [FdSet.isSet, Bool.not_eq_eq_eq_not, Bool.not_true, Bool.not_eq_false,
      Bool.and_eq_true, decide_eq_true_eq] at hset
    omega
  simp only [State.cur, safely_bind]
  refine (reads_getTask s _).mono ?_
  intro tk htk
  refine (reads_fileAt (hi.trans_le (hs.cur_size hn tk htk))).mono ?_
  intro f _
  cases f with
  | none => exact hs
  | some a =>
    simp only [safely_bind, safely_pure]
    refine (reads_getReq s a).mono ?_
    intro r _
    exact hs.setReq a _

theorem copyFdSet (h : Quiet s₀ s) (ret : ℤ) (buf : ℕ) (fds : FdSet) :
    Safely InTables (fun r => Quiet s₀ r.2) (copyFdSet s ret buf fds) := by
  unfold Kernel.copyFdSet
  split
  · simp only [safely_bind, safely_pure]
    exact h.runMm _
  · exact h

/-- The current task of `s₀` returned from `wait_on`, or it waits. -/
def Goes (s₀ : State) (r : Outcome × State) : Prop :=
  (∀ v, r.1 = .ret v → Quiet s₀ r.2 ∨ Quiet (s₀.setState .running) r.2) ∧
    ∀ k, r.1 = .sleep k → Quiet (s₀.setState .waiting) r.2 ∧ k.Ok

theorem waitOnReturn (h : Quiet s₀ s)
    (hn : ∀ tk, s₀.task s₀.current = some tk → MAX_FDS ≤ tk.fds.length) (rbuf wbuf : ℕ)
    {rfds wfds : FdSet} (hr : rfds.nfds ≤ MAX_FDS) (hw : wfds.nfds ≤ MAX_FDS) (ret : ℤ)
    (rfds2 wfds2 : FdSet) :
    Safely InTables (fun r => (∃ v, r.1 = .ret v) ∧ Quiet (s₀.setState .running) r.2)
      (waitOnReturn s rbuf wbuf rfds wfds ret rfds2 wfds2) := by
  have hn' : ∀ tk, (s₀.setState .running).task (s₀.setState .running).current = some tk →
      MAX_FDS ≤ tk.fds.length := by
    have hc : (s₀.setState .running).current = s₀.current := by
      unfold State.setState
      split <;> rfl
    intro tk htk
    rw [hc] at htk
    cases hs : s₀.task s₀.current with
    | none => simp [State.setState, hs] at htk
    | some tk₀ =>
      simp only [State.setState, hs, State.setTask_self, Option.some.injEq] at htk
      subst htk
      exact hn tk₀ hs
  simp only [Kernel.waitOnReturn, safely_bind, safely_pure]
  refine ((h.setState .running).unwaitAll hn' hr).mono ?_
  intro s₁ h₁
  refine (h₁.unwaitAll hn' hw).mono ?_
  intro s₂ h₂
  refine (h₂.copyFdSet ret rbuf rfds2).mono ?_
  rintro ⟨ret₁, s₃⟩ h₃
  refine (h₃.copyFdSet ret₁ wbuf wfds2).mono ?_
  rintro ⟨ret₂, s₄⟩ h₄
  refine h₄.enable.mono ?_
  intro s₅ h₅
  exact ⟨⟨_, rfl⟩, h₅⟩

theorem waitOnPass (h : Quiet s₀ s)
    (hn : ∀ tk, s₀.task s₀.current = some tk → MAX_FDS ≤ tk.fds.length) (rbuf wbuf : ℕ)
    {rfds wfds : FdSet} (hr : rfds.nfds ≤ MAX_FDS) (hw : wfds.nfds ≤ MAX_FDS) :
    Safely InTables (fun r => (∀ v, r.1 = .ret v → Quiet (s₀.setState .running) r.2) ∧
        ∀ k, r.1 = .sleep k → Quiet (s₀.setState .waiting) r.2 ∧ k.Ok)
      (waitOnPass s rbuf wbuf rfds wfds) := by
  have hret : ∀ {r : Outcome × State},
      (∃ v, r.1 = .ret v) ∧ Quiet (s₀.setState .running) r.2 →
        (∀ v, r.1 = .ret v → Quiet (s₀.setState .running) r.2) ∧
          ∀ k, r.1 = .sleep k → Quiet (s₀.setState .waiting) r.2 ∧ k.Ok := by
    rintro r ⟨⟨v, hv⟩, h⟩
    refine ⟨fun _ _ => h, ?_⟩
    intro k hk
    rw [hv] at hk
    cases hk
  simp only [Kernel.waitOnPass, safely_bind]
  refine (h.fdsCheck hn 1 hr).mono ?_
  rintro ⟨⟨ret, rfds2⟩, s₁⟩ h₁
  dsimp only
  split
  · exact (h₁.waitOnReturn hn rbuf wbuf hr hw _ _ _).mono fun _ => hret
  simp only [safely_bind]
  refine (h₁.fdsCheck hn 2 hw).mono ?_
  rintro ⟨⟨ret', wfds2⟩, s₂⟩ h₂
  dsimp only
  split
  · exact (h₂.waitOnReturn hn rbuf wbuf hr hw _ _ _).mono fun _ => hret
  split
  · exact (h₂.waitOnReturn hn rbuf wbuf hr hw _ _ _).mono fun _ => hret
  simp only [safely_bind, safely_pure]
  refine (h₂.setState .waiting).enable.mono ?_
  intro s₃ h₃
  refine ⟨by simp, ?_⟩
  rintro k ⟨⟩
  exact ⟨h₃, hr, hw⟩

theorem readFdSet (h : Quiet s₀ s)
    (hn : ∀ tk, s₀.task s₀.current = some tk → tk.fds.length ≤ MAX_FDS) (buf : ℕ) :
    Safely InTables (fun r => Quiet s₀ r.2 ∧ ∀ fds : FdSet, r.1 = .ok fds → fds.nfds ≤ (MAX_FDS : ℤ))
      (readFdSet s buf) := by
  unfold Kernel.readFdSet
  split
  · refine ⟨h, ?_⟩
    rintro fds ⟨⟩
    exact Int.natCast_nonneg _
  simp only [State.cur, safely_bind]
  refine (h.runMm _).mono ?_
  rintro ⟨⟨ret, bytes⟩, s₁⟩ h₁
  refine (reads_getTask s₁ _).mono ?_
  intro tk htk
  split
  · exact ⟨h₁, by simp⟩
  split
  · exact ⟨h₁, by simp⟩
  · rename_i hle
    refine ⟨h₁, ?_⟩
    rintro fds ⟨⟩
    obtain ⟨tk₀, htk₀, hf, -⟩ := h₁.tame.task _ tk htk
    rw [h₁.current] at htk₀
    have := hn tk₀ htk₀
    dsimp only at hle ⊢
    omega

theorem waitOn (s : State) (hn : ∀ tk, s.task s.current = some tk → tk.fds.length = MAX_FDS)
    (rbuf wbuf : ℕ) : Safely InTables (Goes s) (waitOn s rbuf wbuf) := by
  have hle : ∀ tk, s.task s.current = some tk → tk.fds.length ≤ MAX_FDS := fun tk h => (hn tk h).le
  have hoff : Quiet s (disableInterrupts s) := Quiet.setMm (Calls.refl s) _
  simp only [Kernel.waitOn, safely_bind]
  refine (hoff.readFdSet hle rbuf).mono ?_
  rintro ⟨rfds, s₁⟩ ⟨h₁, hr⟩
  cases rfds with
  | error ret =>
    simp only [safely_bind, safely_pure]
    refine h₁.enable.mono ?_
    intro s₂ h₂
    exact ⟨fun _ _ => .inl h₂, by simp⟩
  | ok rfds =>
    simp only [safely_bind]
    refine (h₁.readFdSet hle wbuf).mono ?_
    rintro ⟨wfds, s₂⟩ ⟨h₂, hw⟩
    cases wfds with
    | error ret =>
      simp only [safely_bind, safely_pure]
      refine h₂.enable.mono ?_
      intro s₃ h₃
      exact ⟨fun _ _ => .inl h₃, by simp⟩
    | ok wfds =>
      have h₃ := h₂.setState .waiting
      refine (h₃.waitOnPass ?_ rbuf wbuf (hr rfds rfl) (hw wfds rfl)).mono ?_
      · intro tk htk
        obtain ⟨tk₀, htk₀, hf, -⟩ := ((Tame.refl s).setState .waiting).task _ tk htk
        rw [((Tame.refl s).setState .waiting).current] at htk₀
        rw [hf, hn tk₀ htk₀]
      · rintro r ⟨hret, hsleep⟩
        rw [State.setState_setState] at hret hsleep
        exact ⟨fun v hv => .inr (hret v hv), hsleep⟩

end Quiet

theorem Tame.waitOnPortPass {s₀ s : State} (h : Tame s₀ s) {n : ℤ} (h0 : 0 ≤ n) (hn : n < MAX_PORT) :
    Safely InTables (fun r => Tame s₀ r.2 ∧ ∀ k, r.1 = .sleep k → k.Ok) (waitOnPortPass s n) := by
  simp only [Kernel.waitOnPortPass, safely_bind]
  refine (reads_portIndex h0 hn).mono ?_
  intro i _
  split
  · simp only [safely_bind, safely_pure]
    refine h.enable.mono ?_
    intro s₁ h₁
    exact ⟨h₁, by simp⟩
  · simp only [safely_bind, safely_pure]
    refine Safely.mono (Q := Tame s₀) ?_ ?_
    · apply enable
      exact h.same rfl rfl rfl rfl rfl
    intro s₁ h₁
    refine ⟨h₁, ?_⟩
    rintro k ⟨⟩
    exact ⟨h0, hn⟩

/-! ## New tasks, and calls of the memory manager -/

theorem Ipc.registerPort {s₀ s : State} (h : Ipc s₀ s) {n : ℤ} (h0 : 0 ≤ n) (hn : n < MAX_PORT) :
    Safely InTables (fun r => Ipc s₀ r.2) (registerPort s n) := by
  simp only [Kernel.registerPort, safely_bind]
  refine (reads_portIndex h0 hn).mono ?_
  intro i _
  split
  · exact h
  · exact h.trans (Ipc.of_old rfl rfl rfl rfl rfl rfl rfl rfl fun _ _ h => .inl h)

theorem Ipc.sendpage {s₀ s : State} (h : Ipc s₀ s) {as : ℤ}
    (has : ∀ tk, s.task s.current = some tk → as ≠ tk.astable.length) (vaddr dst len : ℕ) :
    Safely InTables (fun r => Ipc s₀ r.2) (sendpage s as vaddr dst len) := by
  refine h.locked ?_
  intro h
  simp only [State.cur, safely_bind]
  refine (reads_getTask _ _).mono ?_
  intro tk htk
  split
  · exact h
  rename_i hin
  have hne := has tk htk
  have hlt : as.toNat < tk.astable.length := by omega
  simp only [safely_bind]
  refine (reads_fileAt hlt).mono ?_
  intro f _
  cases f with
  | none => exact h
  | some a => exact h.runMm _

theorem Ipc.asdestroy {s₀ s : State} (h : Ipc s₀ s) (as : ℤ) :
    Safely InTables (fun r => Ipc s₀ r.2) (asdestroy s as) := by
  refine h.locked ?_
  intro h
  simp only [State.cur, safely_bind]
  refine (reads_getTask _ _).mono ?_
  intro tk htk
  split
  · exact h
  rename_i hin
  have hlt : as.toNat < tk.astable.length := by omega
  simp only [safely_bind]
  refine (reads_fileAt hlt).mono ?_
  intro f _
  cases f with
  | none => exact h
  | some a =>
    simp only [safely_bind, safely_pure]
    refine (h.setAstable ?_).execMm _
    intro tk' htk'
    rw [htk, Option.some.injEq] at htk'
    rw [List.length_set, htk']

/-- `asnew` gives back a table of the same size. -/
theorem asnew_length {m m' : Mm.State} {tab tab' : FdTable} {snapshot : Bool} {ret : ℤ}
    (h : Mm.asnew m tab snapshot = .ok ((ret, tab'), m')) : tab'.length = tab.length := by
  simp only [Mm.asnew] at h
  cases hins : fdtableInsert (Mm.aspaceNew (Mm.disableInterrupts m)).1 tab with
  | none =>
    simp only [hins, bind_eq_ok, SadOS.pure_eq_ok] at h
    obtain ⟨m₁, -, m₂, -, ⟨-, rfl⟩, -⟩ := h
    rfl
  | some x =>
    obtain ⟨fd, tab₁⟩ := x
    simp only [hins, bind_eq_ok, SadOS.pure_eq_ok] at h
    obtain ⟨m₁, -, m₂, -, ⟨-, rfl⟩, -⟩ := h
    exact (fdtableInsert_length hins).2

theorem Ipc.asnew {s₀ s : State} (h : Ipc s₀ s) (snapshot : Bool) :
    Safely InTables (fun r => Ipc s₀ r.2) (asnew s snapshot) := by
  simp only [Kernel.asnew, State.cur, safely_bind, safely_pure]
  refine (reads_getTask s _).mono ?_
  intro tk htk
  unfold State.runMm
  split
  · rename_i x m hx
    obtain ⟨ret, tab⟩ := x
    refine (h.setMm m).setAstable ?_
    intro tk' htk'
    change s.task s.current = some tk' at htk'
    rw [htk, Option.some.injEq] at htk'
    rw [asnew_length hx, htk']
  · simp [InTables]

theorem Quiet.registerPort {s₀ s : State} (h : Quiet s₀ s) {n : ℤ} (h0 : 0 ≤ n) (hn : n < MAX_PORT) :
    Safely InTables (fun r => Quiet s₀ r.2) (registerPort s n) := by
  simp only [Kernel.registerPort, safely_bind]
  refine (reads_portIndex h0 hn).mono ?_
  intro i _
  split
  · exact h
  · exact h.trans (of_objs rfl rfl rfl rfl rfl rfl rfl rfl fun a p u ha hp => hp a p u ha)

/-- What `open_port` does before it wakes the tasks that wait for the port keeps `P`, if
parts of calls and quiet parts do. -/
theorem openPort_rule {P : State → Prop} {s : State} {n : ℤ} (h0 : 0 ≤ n) (hn : n < MAX_PORT)
    (hbase : ∀ s₁ s₂, Ipc s s₁ → Quiet s₁ s₂ → P s₂)
    (hloop : ∀ i s₁, P s₁ → Safely InTables P ((s₁.portWaitList i).foldlM (wakeWaiter i) s₁))
    (henable : ∀ s₁, P s₁ → Safely InTables P (enableInterrupts s₁)) :
    Safely InTables (fun r => P r.2) (openPort s n) := by
  simp only [Kernel.openPort, locked]
  rw [safely_bind]
  refine Safely.mono (Q := fun r => P r.2) ?_ fun r hr => ?_
  swap
  · simp only [safely_bind, safely_pure]
    exact henable r.2 hr
  have hipc : ∀ {s₁}, Ipc s s₁ → P s₁ := fun h => hbase _ _ h (Calls.refl _)
  simp only [safely_bind]
  refine ((Ipc.refl s).disable.registerPort h0 hn).mono ?_
  rintro ⟨ret, s₁⟩ h₁
  dsimp only
  split
  · exact hipc h₁
  simp only [State.cur, safely_bind]
  refine (reads_portIndex h0 hn).mono ?_
  intro i _
  refine (reads_getTask s₁ _).mono ?_
  intro tk htk
  refine ((Ipc.refl s₁).alloc _).mono ?_
  rintro ⟨a, s₂⟩ h₂
  dsimp only
  split
  · simp only [safely_bind, safely_pure]
    exact ((h₁.trans h₂).freeReq a).mono fun _ h => hipc h
  rename_i fd fds hins
  simp only [safely_bind]
  refine ((h₁.trans (h₂.setFds_insert htk (fdtableInsert_length hins).2)).alloc _).mono ?_
  rintro ⟨u, s₃⟩ h₃
  obtain ⟨s₄, hs₄, h₄⟩ : ∃ s₄, s₄ = s₃.setReq a
      { owner := s₃.current, rops := some .uportServer, data := .obj u, type := .port,
        state := .server, waitedRw := s₃.junk a, nextReq := none } ∧ Quiet s₃ s₄ :=
    ⟨_, rfl, Quiet.setReq (Calls.refl s₃) a _⟩
  -- the new port has the number that was tested
  have h₅ : Quiet s₃ (s₄.setBody u (.uport ⟨[], n⟩)) := by
    refine h₄.trans (Quiet.of_objs rfl rfl rfl rfl rfl rfl rfl rfl ?_)
    intro a' p u' ha' hp
    by_cases ha : a' = u
    · subst ha
      rw [State.setBody_self, Option.map_eq_some_iff] at ha'
      obtain ⟨o, -, heq⟩ := ha'
      injection heq with h₁ h₂
      injection h₂ with h₂
      rw [← h₂]
      exact ⟨h0, hn⟩
    · rw [State.setBody_of_ne _ ha] at ha'
      exact hp a' p u' ha'
  dsimp only
  rw [← hs₄]
  obtain ⟨s₅, hs₅, h₆⟩ : ∃ s₅, s₅ = { s₄.setBody u (.uport ⟨[], n⟩) with
      uport := Function.update (s₄.setBody u (.uport ⟨[], n⟩)).uport i (some a) } ∧ Quiet s₃ s₅ := by
    refine ⟨_, rfl, h₅.trans (Quiet.of_objs rfl rfl rfl rfl rfl rfl rfl rfl ?_)⟩
    exact fun a p u ha hp => hp a p u ha
  rw [← hs₅]
  refine (h₆.registerPort h0 hn).mono ?_
  rintro ⟨ret', s₆⟩ h₇
  simp only [safely_pure]
  exact hloop i s₆ (hbase _ _ h₃ h₇)

theorem Tame.openPort (s : State) {n : ℤ} (h0 : 0 ≤ n) (hn : n < MAX_PORT) :
    Safely InTables (fun r => Tame s r.2) (openPort s n) := by
  refine openPort_rule h0 hn (fun _ _ h h' => h.tame.trans h'.tame) ?_ fun _ h => h.enable
  intro i s₁ h
  refine h.foldlM ?_ _
  intro s₂ t h₂
  refine Tame.wakeUp ?_ t
  exact h₂.same rfl rfl rfl rfl rfl

namespace Tables

variable {s s' : State}

theorem ipc (h : Tables s) (hs : Ipc s s') : Tables s' := h.tame hs.tame

/-- A task is stored with tables of the same sizes. -/
theorem setTask (h : Tables s) {t : ℕ} {tk tk' : Task} (ht : s.task t = some tk)
    (hf : tk'.fds.length = tk.fds.length) (ha : tk'.astable.length = tk.astable.length)
    (hpc : tk'.pc = tk.pc) : Tables (s.setTask t tk') :=
  h.tame ((Tame.refl s).setTask ht hf ha hpc)

/-- A new task. -/
theorem newProcess (h : Tables s) (as : ℕ) : Tables (newProcess s as).2 := by
  have hne : s.idleTask ≠ s.nextTask := by
    have := h.fresh
    omega
  refine ⟨?_, ?_, ?_, h.ports, Nat.lt_succ_of_lt h.fresh⟩
  · intro t tk htk hidle
    by_cases ht : t = s.nextTask
    · subst ht
      simp only [Kernel.newProcess, State.poolCreate, State.setTask_self, Option.some.injEq] at htk
      subst htk
      refine ⟨List.length_replicate, ?_⟩
      rw [List.length_cons, List.length_replicate]
      rfl
    · simp only [Kernel.newProcess, State.poolCreate, State.setTask_of_ne _ ht] at htk
      exact h.fds t tk htk hidle
  · intro tk htk
    simp only [Kernel.newProcess, State.poolCreate] at htk
    rw [State.setTask_of_ne] at htk
    · exact h.idle tk htk
    · exact hne
  · intro t tk htk
    by_cases ht : t = s.nextTask
    · subst ht
      simp only [Kernel.newProcess, State.poolCreate, State.setTask_self, Option.some.injEq] at htk
      subst htk
      trivial
    · simp only [Kernel.newProcess, State.poolCreate, State.setTask_of_ne _ ht] at htk
      exact h.pc t tk htk

end Tables

theorem Ipc.inheritFd {s₀ s : State} (h : Ipc s₀ s) (t : ℕ) {i : ℕ}
    (hi : ∀ tk, s₀.task s₀.current = some tk → i < tk.fds.length) :
    Safely InTables (Ipc s₀) (inheritFd t s i) := by
  simp only [Kernel.inheritFd, State.cur, safely_bind]
  refine (reads_getTask s _).mono ?_
  intro tk htk
  obtain ⟨tk₀, htk₀, hf, -⟩ := h.tame.task _ tk htk
  rw [h.current] at htk₀
  refine (reads_fileAt (hf ▸ hi tk₀ htk₀)).mono ?_
  intro f _
  cases f with
  | none => exact h
  | some a =>
    simp only [safely_bind]
    refine (reads_getReq s a).mono ?_
    intro r _
    split
    · exact h
    simp only [safely_bind]
    refine (reads_ropsOf r).mono ?_
    intro ops _
    split
    · exact h
    simp only [safely_bind]
    refine (reads_getTask s t).mono ?_
    intro child _
    refine (h.alloc _).mono ?_
    rintro ⟨new, s₁⟩ h₁
    dsimp only
    refine Safely.mono (Q := fun r => Ipc s₀ r.2) ?_ ?_
    · apply ropsDup
      exact h₁.setReq new (by simp)
    rintro ⟨ret, s₃⟩ h₃
    dsimp only
    split
    · exact h₃.free _ _
    · simp only [safely_bind, safely_pure]
      refine (reads_getTask s₃ t).mono ?_
      intro ck hck
      exact h₃.setTask hck (List.length_set ..) rfl

theorem wakeUp_objs (s : State) (t : ℕ) :
    Safely InTables (fun s' => s'.objs = s.objs) (wakeUp s t) := by
  simp only [wakeUp, safely_bind]
  refine (reads_getTask s t).mono ?_
  intro tk _
  split <;> exact rfl

/-- An interrupt wakes tasks that have a handle with `waited_rw` set. -/
theorem Ipc.intHandler {s₀ s : State} (h : Ipc s₀ s) (vector : ℕ) :
    Safely InTables (Ipc s₀) (intHandler s vector) := by
  refine h.foldlM ?_ _
  intro s a hs
  simp only [intWaiter, safely_bind]
  refine (reads_getReq s a).mono ?_
  rintro r ⟨p, hr⟩
  refine Safely.mono (Q := fun s₁ => Ipc s₀ s₁ ∧ s₁.objs = s.objs) ?_ ?_
  · split
    · rename_i hwaited
      refine Safely.and (hs.wakeUp (hs.2 _ ⟨a, p, r, hr, rfl, ?_⟩)) (wakeUp_objs s r.owner)
      intro hzero
      simp [hzero] at hwaited
    · exact ⟨hs, rfl⟩
  rintro s₁ ⟨h₁, hobjs⟩
  refine Safely.mono (Q := fun _ => True) ?_ ?_
  · split
    · trivial
    · simp [InTables]
  intro n _
  refine h₁.setReq_of_get (r := r) (p := p) ?_ rfl rfl
  rw [hobjs, hr]

/-- The sizes after a call, with the task that made it. -/
structure Keeps (s s' : State) : Prop where
  tables : Tables s'
  current : s'.current = s.current
  idleTask : s'.idleTask = s.idleTask

namespace Keeps

variable {s₀ s s' : State}

theorem tame (h : Keeps s₀ s) (ht : Tame s s') : Keeps s₀ s' :=
  ⟨h.tables.tame ht, ht.current.trans h.current, ht.idleTask.trans h.idleTask⟩

theorem of_tame (h : Tables s) (ht : Tame s s') : Keeps s s' :=
  ⟨h.tame ht, ht.current, ht.idleTask⟩

theorem trans (h : Keeps s₀ s) (h' : Keeps s s') : Keeps s₀ s' :=
  ⟨h'.tables, h'.current.trans h.current, h'.idleTask.trans h.idleTask⟩

theorem locked {α : Type} (h : Keeps s₀ s) {f : State → Except Fault (α × State)}
    (hf : Keeps s₀ (disableInterrupts s) →
      Safely InTables (fun r => Keeps s₀ r.2) (f (disableInterrupts s))) :
    Safely InTables (fun r => Keeps s₀ r.2) (locked s f) := by
  simp only [Kernel.locked, safely_bind, safely_pure]
  refine (hf (h.tame ((Tame.refl s).setMm _))).mono ?_
  intro r hr
  exact ((Tame.refl r.2).enable).mono fun _ ht => hr.tame ht

theorem spawn (h : Tables s) (as pid : ℕ) :
    Safely InTables (fun r => Keeps s r.2) (spawn s as pid) := by
  obtain ⟨t, s₁, hs₁, h₁⟩ : ∃ t s₁, newProcess s as = (t, s₁) ∧ Keeps s s₁ :=
    ⟨_, _, rfl, h.newProcess as, rfl, rfl⟩
  simp only [Kernel.spawn, hs₁, State.cur, safely_bind]
  refine (reads_getTask s₁ _).mono ?_
  intro tk htk
  refine (safely_foldlM (fun l s₂ => (∀ i ∈ l, i < tk.fds.length) ∧ Ipc s₁ s₂)
    ⟨fun i hi => List.mem_range.1 hi, Ipc.refl s₁⟩ ?_).mono ?_
  · rintro i rest s₂ ⟨hl, h₂⟩
    refine (h₂.inheritFd t ?_).mono fun _ h₃ => ⟨fun j hj => hl j (List.mem_cons_of_mem _ hj), h₃⟩
    intro tk' htk'
    rw [htk, Option.some.injEq] at htk'
    subst htk'
    exact hl i List.mem_cons_self
  rintro s₂ ⟨-, h₂⟩
  refine (reads_getTask s₂ t).mono ?_
  intro child hchild
  obtain ⟨s₃, hs₃⟩ : ∃ s₃, s₃ = s₂.setTask t { child with pid, parent := some s₂.current } :=
    ⟨_, rfl⟩
  have h₃ : Tame s₁ s₃ := by
    rw [hs₃]
    exact h₂.tame.setTask hchild rfl rfl rfl
  rw [← hs₃]
  refine (reads_getTask s₃ _).mono ?_
  intro tk' htk'
  rw [safely_pure]
  refine h₁.tame ?_
  have h₄ := h₃.setTask (b := { tk' with children := t :: tk'.children }) htk' rfl rfl rfl
  exact h₄.same rfl rfl rfl rfl rfl

theorem replaceSelf (h : Tables s) (fd as : ℕ) :
    Safely InTables (fun r => Keeps s r.2) (replaceSelf s fd as) := by
  simp only [Kernel.replaceSelf, State.cur, safely_bind, safely_pure]
  refine (reads_getTask s _).mono ?_
  intro tk _
  refine Safely.mono (Q := Tame s) ?_ ?_
  · split
    · exact (Tame.refl s).execMm _
    · simp [InTables]
  intro s₁ h₁
  refine (reads_getTask s₁ _).mono ?_
  intro tk' htk'
  refine of_tame h ?_
  refine Tame.setMm ?_ _
  refine h₁.setTask htk' rfl ?_ rfl
  rw [List.length_set, List.length_set]

theorem createTask (h : Tables s) {as : ℤ}
    (has : ∀ tk, s.task s.current = some tk → as ≠ tk.astable.length) (buf : ℕ) (self : Bool) :
    Safely InTables (fun r => Keeps s r.2) (createTask s as buf self) := by
  simp only [Kernel.createTask, State.cur, safely_bind]
  refine (reads_getTask s _).mono ?_
  intro tk htk
  split
  · exact of_tame h (Tame.refl s)
  rename_i hin
  have hne := has tk htk
  have hlt : as.toNat < tk.astable.length := by omega
  simp only [safely_bind]
  refine (reads_fileAt hlt).mono ?_
  intro f _
  cases f with
  | none => exact of_tame h (Tame.refl s)
  | some a =>
    refine (of_tame h (Tame.refl s)).locked ?_
    intro hoff
    simp only [safely_bind]
    refine ((Tame.refl (disableInterrupts s)).runMm _).mono ?_
    rintro ⟨⟨ret, bytes⟩, s₁⟩ h₁
    have hk := hoff.tame h₁
    dsimp only
    split
    · exact hk
    split
    · exact (replaceSelf hk.tables _ _).mono fun _ h₂ => hk.trans h₂
    split
    · exact hk
    · rename_i pid _
      have h₂ : Ipc s₁ (s₁.setAstable (tk.astable.set as.toNat none)) := by
        refine (Ipc.refl s₁).setAstable ?_
        intro tk' htk'
        rw [h₁.current] at htk'
        obtain ⟨tk₀, htk₀, -, ha, -⟩ := h₁.task _ tk' htk'
        change s.task s.current = some tk₀ at htk₀
        rw [htk, Option.some.injEq] at htk₀
        subst htk₀
        rw [List.length_set, ha]
      have hk₂ := hk.tame h₂.tame
      exact (spawn hk₂.tables a pid).mono fun _ h₃ => hk₂.trans h₃

end Keeps

/-! ## Steps and runs -/

/-- What a call comes to keeps the sizes, and a task that sleeps goes on with numbers
inside the tables. -/
structure Ends (s : State) (r : Outcome × State) : Prop where
  keeps : Keeps s r.2
  kont : ∀ k, r.1 = .sleep k → k.Ok

theorem Ends.of_goes {s : State} {r : Outcome × State} (h : Tables s) (hr : Quiet.Goes s r) :
    Ends s r := by
  obtain ⟨o, s'⟩ := r
  obtain ⟨hret, hsleep⟩ := hr
  cases o with
  | ret v =>
    refine ⟨.of_tame h ?_, by simp⟩
    rcases hret v rfl with h' | h'
    · exact h'.tame
    · exact ((Tame.refl s).setState .running).trans h'.tame
  | sleep k =>
    obtain ⟨h', hk⟩ := hsleep k rfl
    refine ⟨.of_tame h (((Tame.refl s).setState .waiting).trans h'.tame), ?_⟩
    rintro k ⟨⟩
    exact hk

theorem Ends.settle {s : State} {r : Outcome × State} (h : Ends s r)
    (hidle : s.current = s.idleTask → r.1 = .sleep .idle) : Tables (settle r) := by
  obtain ⟨o, s'⟩ := r
  have hcur : s'.current = s'.idleTask → s.current = s.idleTask := by
    intro heq
    rw [← h.keeps.current, ← h.keeps.idleTask, heq]
  cases o with
  | ret v =>
    refine h.keeps.tables.setPc trivial ?_
    intro heq
    cases hidle (hcur heq)
  | sleep k =>
    refine h.keeps.tables.setPc (h.kont k rfl) ?_
    intro heq
    have := hidle (hcur heq)
    injection this with hk
    subst hk
    trivial

theorem Ends.returns {s : State} {x : Except Fault (ℤ × State)}
    (h : Safely InTables (fun r => Keeps s r.2) x) : Safely InTables (Ends s) (returns x) := by
  simp only [Kernel.returns, safely_bind, safely_pure]
  exact h.mono fun _ hr => ⟨hr, by simp⟩

theorem Ends.access {s s' : State} (h : Tables s) (ht : Tame s s') (ok : Bool) :
    Ends s (access ok s') := by
  cases ok with
  | false =>
    refine ⟨.of_tame h (ht.setState .zombie), ?_⟩
    rintro k ⟨⟩
    trivial
  | true => exact ⟨.of_tame h ht, by simp [Kernel.access]⟩

section

variable {s : State} {tk : Task} (h : Tables s) (htk : s.task s.current = some tk)
include h htk

/-- A number other than 510 is not the size of a table of a task in user mode. -/
theorem Tables.notMaxFds (hpc : tk.pc = .user) {fd : ℤ} (hfd : fd ≠ MAX_FDS) :
    Ipc.NotMaxFds s fd ∧ ∀ tk, s.task s.current = some tk → fd ≠ tk.astable.length := by
  obtain ⟨hf, ha⟩ := h.cur htk (by simp [hpc, Pc.Idle])
  refine ⟨?_, ?_⟩
  · intro tk' htk'
    rw [htk, Option.some.injEq] at htk'
    rwa [← htk', hf]
  · intro tk' htk'
    rw [htk, Option.some.injEq] at htk'
    rwa [← htk', ha]

/-- An indexed call of a task in user mode stays inside its tables. -/
theorem Tables.syscall (hpc : tk.pc = .user) {c : Call} (hc : Indexed s c) :
    Safely InTables (Ends s) (syscall s c) := by
  have hipc : ∀ {x : Except Fault (ℤ × State)}, Safely InTables (fun r => Ipc s r.2) x →
      Safely InTables (Ends s) (returns x) :=
    fun hx => Ends.returns (hx.mono fun _ hr => .of_tame h hr.tame)
  have hnot : ∀ {fd : ℤ}, fd ≠ MAX_FDS → _ := fun hfd => h.notMaxFds htk hpc hfd
  have hlen := (h.cur htk (by simp [hpc, Pc.Idle])).1
  have hlens : ∀ tk, s.task s.current = some tk → tk.fds.length = MAX_FDS := by
    intro tk' htk'
    rw [htk, Option.some.injEq] at htk'
    rw [← htk', hlen]
  cases c with
  | portConnect n len buf => exact hipc ((Ipc.refl s).portConnect hc.1 hc.2 _ _)
  | request rd len buf => exact hipc ((Ipc.refl s).request (hnot hc).1 _ _)
  | getResponse cookie res =>
    exact hipc ((Ipc.refl s).getResponse fun hv => (hnot (hc hv)).1)
  | openPort n => exact Ends.returns ((Tame.openPort s hc.1 hc.2).mono fun _ hr => .of_tame h hr)
  | popRequest rd buf => exact hipc ((Ipc.refl s).popRequest (hnot hc).1 _)
  | respond fd len buf => exact hipc ((Ipc.refl s).respond _ _ _)
  | close fd => exact hipc ((Ipc.refl s).close h.ports (hnot hc).1)
  | dup0 oldFd newFd => exact hipc ((Ipc.refl s).dup0 _ _)
  | waitOn rbuf wbuf =>
    exact (Quiet.waitOn s hlens _ _).mono fun _ hr => .of_goes h hr
  | waitOnPort n =>
    exact ((((Tame.refl s).setMm _).setState .waiting).waitOnPortPass hc.1 hc.2).mono
      fun _ hr => ⟨.of_tame h hr.1, hr.2⟩
  | createTask as buf self => exact Ends.returns (Keeps.createTask h (hnot hc).2 _ _)
  | exit => exact Ends.access h (Tame.refl s) false
  | sendpage as vaddr dst len => exact hipc ((Ipc.refl s).sendpage (hnot hc).2 _ _ _)
  | munmap base len => exact hipc ((Ipc.refl s).runMm _)
  | asnew snapshot => exact hipc ((Ipc.refl s).asnew _)
  | asdestroy as => exact hipc ((Ipc.refl s).asdestroy _)
  | read vaddr =>
    simp only [Kernel.syscall, safely_bind, safely_pure]
    exact ((Tame.refl s).runMm _).mono fun _ hr => .access h hr _
  | write vaddr b =>
    simp only [Kernel.syscall, safely_bind, safely_pure]
    exact ((Tame.refl s).runMm _).mono fun _ hr => .access h hr _

/-- A task that goes on after `schedule()` stays inside its tables. -/
theorem Tables.resume {k : Kont} (hpc : tk.pc = .woken k) :
    Safely InTables (fun r => Ends s r ∧ (k = .idle → r.1 = .sleep .idle)) (resume s k) := by
  have hk := h.pc _ tk htk
  rw [hpc] at hk
  have hoff : Tame s (disableInterrupts s) := (Tame.refl s).setMm _
  cases k with
  | waitOn rbuf wbuf rfds wfds =>
    have hlen := (h.cur htk (by simp [hpc, Pc.Idle])).1
    have hlens : ∀ tk, s.task s.current = some tk → MAX_FDS ≤ tk.fds.length := by
      intro tk' htk'
      rw [htk, Option.some.injEq] at htk'
      rw [← htk', hlen]
    refine ((Quiet.setMm (Calls.refl s) _).waitOnPass hlens rbuf wbuf hk.1 hk.2).mono
      fun _ hr => ⟨.of_goes h ⟨fun v hv => .inr (hr.1 v hv), hr.2⟩, ?_⟩
    simp
  | waitOnPort n =>
    refine (hoff.waitOnPortPass hk.1 hk.2).mono fun _ hr => ⟨⟨.of_tame h hr.1, hr.2⟩, ?_⟩
    simp
  | exit => simp [Kernel.resume, InTables]
  | idle =>
    refine ⟨⟨.of_tame h (Tame.refl s), ?_⟩, fun _ => rfl⟩
    rintro k ⟨⟩
    trivial

/-- A call that is not indexed leaves a table. -/
theorem Tables.syscall_outOfBounds (hpc : tk.pc = .user) {c : Call} (hc : ¬Indexed s c) :
    Kernel.syscall s c = .error .outOfBounds := by
  obtain ⟨hf, ha⟩ := h.cur htk (by simp [hpc, Pc.Idle])
  have hcur : ∀ m, (s.setMm m).cur = .ok tk := by
    intro m
    simp only [State.cur, State.getTask, State.setMm, htk]
  have hport : ∀ {n : ℤ}, ¬(0 ≤ n ∧ n < MAX_PORT) → portIndex n = .error .outOfBounds :=
    fun hn => if_neg hn
  have hneg : ¬(MAX_FDS : ℤ) < 0 := by decide
  have hne : MAX_FDS ≠ 0 := by decide
  have hat : handleAt tk MAX_FDS = .error .outOfBounds := by
    simp [handleAt, fileAt, hf]
  cases c with
  | portConnect n len buf =>
    simp [Kernel.syscall, returns, Kernel.portConnect, portAt, hport hc]
  | openPort n =>
    simp [Kernel.syscall, returns, Kernel.openPort, locked, registerPort, hport hc]
  | waitOnPort n =>
    simp [Kernel.syscall, Kernel.waitOnPort, Kernel.waitOnPortPass, hport hc]
  | request rd len buf =>
    obtain rfl : rd = MAX_FDS := not_not.1 hc
    simp [Kernel.syscall, returns, Kernel.request, locked, disableInterrupts, hcur, hat]
  | popRequest rd buf =>
    obtain rfl : rd = MAX_FDS := not_not.1 hc
    simp [Kernel.syscall, returns, Kernel.popRequest, locked, disableInterrupts, hcur, hat]
  | close fd =>
    obtain rfl : fd = MAX_FDS := not_not.1 hc
    simp [Kernel.syscall, returns, Kernel.close, State.cur, State.getTask, htk, hat]
  | getResponse cookie res =>
    obtain ⟨hv, hcookie⟩ := Classical.not_imp.1 hc
    obtain rfl : cookie = MAX_FDS := not_not.1 hcookie
    have hoff : liftMm (Mm.validateRange (disableInterrupts s).mm res.toNat 16) = .ok true :=
      congrArg liftMm hv
    simp only [Kernel.syscall, returns, Kernel.getResponse, locked, hoff]
    simp [disableInterrupts, hcur, hat]
  | sendpage as vaddr dst len =>
    obtain rfl : as = MAX_FDS := not_not.1 hc
    simp [Kernel.syscall, returns, Kernel.sendpage, locked, disableInterrupts, hcur, fileAt, ha, hneg]
  | createTask as buf self =>
    obtain rfl : as = MAX_FDS := not_not.1 hc
    simp [Kernel.syscall, returns, Kernel.createTask, State.cur, State.getTask, htk, fileAt, ha, hne]
  | respond fd len buf => exact absurd trivial hc
  | dup0 oldFd newFd => exact absurd trivial hc
  | waitOn rbuf wbuf => exact absurd trivial hc
  | exit => exact absurd trivial hc
  | munmap base len => exact absurd trivial hc
  | asnew snapshot => exact absurd trivial hc
  | asdestroy as => exact absurd trivial hc
  | read vaddr => exact absurd trivial hc
  | write vaddr b => exact absurd trivial hc

end

/-- Any other step stays inside the tables, and the sizes are kept. -/
theorem Tables.step {s : State} (h : Tables s) {a : Action}
    (ha : ∀ c tk, a = .call c → s.task s.current = some tk → tk.pc = .user → Indexed s c) :
    Safely InTables Tables (step s a) := by
  cases a with
  | call c =>
    simp only [Kernel.step, State.cur, safely_bind]
    refine (reads_getTask s _).mono ?_
    intro tk htk
    split
    · rename_i hpc
      simp only [safely_bind, safely_pure]
      refine (h.syscall htk hpc (ha c tk rfl htk hpc)).mono ?_
      intro r hr
      refine hr.settle ?_
      intro hidle
      rw [hidle] at htk
      simpa [hpc, Pc.Idle] using h.idle tk htk
    · exact h
  | schedule =>
    simp only [Kernel.step, State.cur, safely_bind]
    refine (reads_getTask s _).mono ?_
    intro tk htk
    split
    · rename_i k hpc
      have hk := h.pc _ tk htk
      rw [hpc] at hk
      refine (Tame.schedule _).mono fun s' h' => Tables.tame ?_ h'
      refine h.setPc hk ?_
      intro hidle
      rw [hidle] at htk
      have := h.idle tk htk
      rw [hpc] at this
      cases k <;> exact this
    · exact h
  | resume =>
    simp only [Kernel.step, State.cur, safely_bind]
    refine (reads_getTask s _).mono ?_
    intro tk htk
    split
    · rename_i k hpc
      simp only [safely_bind, safely_pure]
      refine (h.resume htk hpc).mono ?_
      intro r hr
      refine hr.1.settle ?_
      intro hidle
      rw [hidle] at htk
      have := h.idle tk htk
      rw [hpc] at this
      cases k with
      | idle => exact hr.2 rfl
      | waitOn | waitOnPort | exit => exact this.elim
    · exact h
  | interrupt vector =>
    simp only [Kernel.step]
    split
    · exact ((Tame.refl s).intHandler _).mono fun _ h' => h.tame h'
    · exact h

/-- The numbers of the first state. -/
theorem tables_boot (mm : Mm.State) (as : ℕ) (junk inport : ℕ → ℕ) (tarfs : ℕ × ℕ) :
    Tables (boot mm as junk inport tarfs) := by
  have hbare : Tables (bare mm junk inport tarfs) := by
    refine ⟨?_, ?_, ?_, ?_, Nat.zero_lt_one⟩
    · intro t tk htk hne
      change t ≠ 0 at hne
      simp [bare, Function.update_of_ne hne] at htk
    · intro tk htk
      obtain rfl : idleTask = tk := by simpa [bare] using htk
      trivial
    · intro t tk htk
      by_cases ht : t = 0
      · subst ht
        obtain rfl : idleTask = tk := by simpa [bare] using htk
        trivial
      · simp [bare, Function.update_of_ne ht] at htk
    · intro a p u ha
      simp [bare] at ha
  have hnew := hbare.newProcess as
  unfold boot
  dsimp only
  refine Tables.tame (c := (newProcess (bare mm junk inport tarfs) as).2.current) hnew ?_
  split
  · rename_i tk htk
    have h₁ := (Tame.refl _).setTask (b := { tk with pid := 1 }) htk rfl rfl rfl
    exact h₁.same rfl rfl rfl rfl rfl
  · exact (Tame.refl _).same rfl rfl rfl rfl rfl

theorem Tables.step_outOfBounds {s : State} (h : Tables s) {c : Call} {tk : Task}
    (htk : s.task s.current = some tk) (hpc : tk.pc = .user) (hc : ¬Indexed s c) :
    Kernel.step s (.call c) = .error .outOfBounds := by
  simp [Kernel.step, State.cur, State.getTask, htk, hpc, h.syscall_outOfBounds htk hpc hc]

/-- The sizes at the end of a run. -/
theorem Tables.run {s₀ : State} (h : Tables s₀) (l : List Action) :
    Safely (fun _ => True) Tables (run s₀ l) := by
  refine safely_along h ?_ (along_of_forall fun _ _ _ => trivial)
  intro s a hs _
  by_cases ha : ∀ c tk, a = .call c → s.task s.current = some tk → tk.pc = .user → Indexed s c
  · exact safely_iff.2 ⟨(safely_iff.1 (hs.step ha)).1, fun _ _ => trivial⟩
  · push Not at ha
    obtain ⟨c, tk, rfl, htk, hpc, hc⟩ := ha
    rw [hs.step_outOfBounds htk hpc hc]
    trivial

/-- A step stays inside the tables exactly if it is not a call of a task in user mode,
or an `Indexed` one. -/
theorem tableIndices_iff (mm : Mm.State) (as : ℕ) (junk inport : ℕ → ℕ) (tarfs : ℕ × ℕ)
    (l : List Action) (s : State) (hs : run (boot mm as junk inport tarfs) l = .ok s) (a : Action) :
    step s a ≠ .error .outOfBounds ↔
      ∀ c tk, a = .call c → s.task s.current = some tk → tk.pc = .user → Indexed s c := by
  have h := ((tables_boot mm as junk inport tarfs).run l).of_ok hs
  constructor
  · intro hstep c tk ha htk hpc
    by_contra hc
    subst ha
    exact hstep (h.step_outOfBounds htk hpc hc)
  · intro hok hstep
    exact (h.step hok).of_error hstep rfl

/-- The first state, over the free pages `free`. -/
def bootWith (free : List ℕ) : State :=
  boot (Mm.aspaceNew (Mm.State.boot free 0x1000)).2 0 (fun _ => 0) (fun _ => 0) (0, 0)

theorem tableIndices_iff_close : ∃ s, run (bootWith []) [.schedule] = .ok s ∧
    (step s (.call (.close 509)) ≠ .error .outOfBounds ↔
      ∀ c tk, Action.call (.close 509) = .call c → s.task s.current = some tk → tk.pc = .user →
        Indexed s c) := by
  obtain ⟨s, hs⟩ : ∃ s, run (bootWith []) [.schedule] = .ok s := by
    rw [← isOk_iff]
    decide +kernel
  exact ⟨s, hs, tableIndices_iff _ _ _ _ _ _ s hs _⟩

/-- `close(510)` of the init task. -/
theorem tableIndices_fails : ¬∀ (free : List ℕ) (l : List Action) (s : State),
    run (bootWith free) l = .ok s → ∀ a, step s a ≠ .error .outOfBounds := by
  intro h
  have hrun : (run (bootWith []) [.schedule]).toOption.map
      (fun s => errorOf (step s (.call (.close 510)))) = some (some .outOfBounds) := by
    decide +kernel
  obtain ⟨s, hs⟩ : ∃ s, run (bootWith []) [.schedule] = .ok s := by
    rw [← isOk_iff]
    decide +kernel
  rw [hs] at hrun
  exact h [] [.schedule] s hs (.call (.close 510)) (errorOf_eq_some.1 (Option.some.inj hrun))

end SadOS.Kernel
