import SadOS.Kernel.Step
import SadOS.Mm.Balance

/-!
# Properties that go with the counter

A property of states that may speak of the counter of `disable_interrupts`, and that the
writes of the kernel keep.  A fault anywhere ends the run, so that only returns count.

## Main definitions

* `Tally` — such a property.

## Main results

* `Tally.Holds.locked` — what stands between `disable_interrupts` and `enable_interrupts`.
* `Tally.Holds.schedule`, `Tally.Holds.intHandler` — the scheduler.
-/

namespace SadOS.Kernel

open Mm (Returns Lifts)

/-- Any fault. -/
abbrev AnyFault : Fault → Prop := fun _ => True

/-- A result of which it is known where it comes from. -/
theorem reads_eq {α : Type} {x : Except Fault α} {Q : α → Prop} (h : ∀ a, x = .ok a → Q a) :
    Safely AnyFault Q x := by
  cases x with
  | ok a => exact h a rfl
  | error e => trivial

/-- A result of which nothing is known. -/
theorem reads {α : Type} {x : Except Fault α} {Q : α → Prop} (h : ∀ a, Q a) :
    Safely AnyFault Q x :=
  reads_eq fun a _ => h a

/-- A computation of the memory manager, and what becomes of the state. -/
theorem runMm_reads {α : Type} (s : State) (x : Except SadOS.Fault (α × Mm.State)) :
    Safely AnyFault (fun r => ∃ m, x = .ok (r.1, m) ∧ r.2 = s.setMm m) (s.runMm x) := by
  unfold State.runMm
  split
  · exact ⟨_, rfl, rfl⟩
  · trivial

theorem execMm_reads (s : State) (x : Except SadOS.Fault Mm.State) :
    Safely AnyFault (fun s' => ∃ m, x = .ok m ∧ s' = s.setMm m) (s.execMm x) := by
  unfold State.execMm
  split
  · exact ⟨_, rfl, rfl⟩
  · trivial

/-- A property of states, for each value of the counter.  It speaks of the memory manager,
of the objects and of their pools. -/
structure Tally where
  Holds : ℕ → State → Prop
  same : ∀ {d s s'}, Holds d s → s'.mm = s.mm → s'.objs = s.objs → s'.pools = s.pools →
    s'.nextObj = s.nextObj → Holds d s'
  setBody : ∀ {d s}, Holds d s → ∀ a b, Holds d (s.setBody a b)
  /-- The memory manager may do anything that is right for the counter. -/
  setMm : ∀ {d d' s} {m : Mm.State}, Holds d s →
    (s.mm.interruptDisabled = d → m.interruptDisabled = d') → Holds d' (s.setMm m)
  alloc : ∀ {d s}, Holds d s → ∀ pool, Safely AnyFault (fun r => Holds d r.2) (s.alloc pool)
  free : ∀ {d s}, Holds d s → ∀ pool a, Safely AnyFault (Holds d) (s.free pool a)
  poolCreate : ∀ {d s}, Holds d s → Holds d s.poolCreate.2
  poolDestroy : ∀ {d s}, Holds d s → ∀ pool, Holds d (s.poolDestroy pool)

namespace Tally.Holds

variable {T : Tally} {d k : ℕ} {s s' : State}

/-! ## Writes -/

theorem same (h : T.Holds d s) (hmm : s'.mm = s.mm) (hobjs : s'.objs = s.objs)
    (hpools : s'.pools = s.pools) (hnext : s'.nextObj = s.nextObj) : T.Holds d s' :=
  T.same h hmm hobjs hpools hnext

theorem alloc (h : T.Holds d s) (pool : ℕ) :
    Safely AnyFault (fun r => T.Holds d r.2) (s.alloc pool) := T.alloc h pool

theorem free (h : T.Holds d s) (pool a : ℕ) : Safely AnyFault (T.Holds d) (s.free pool a) :=
  T.free h pool a

theorem setBody (h : T.Holds d s) (a : ℕ) (b : Body) : T.Holds d (s.setBody a b) :=
  T.setBody h a b

theorem setReq (h : T.Holds d s) (a : ℕ) (r : Request) : T.Holds d (s.setReq a r) := h.setBody a _

/-- The memory manager changes something other than the counter. -/
theorem setMm (h : T.Holds d s) {m : Mm.State} (hm : Lifts 0 s.mm m) : T.Holds d (s.setMm m) :=
  T.setMm h (Eq.trans hm)

theorem disable (h : T.Holds d s) : T.Holds (d + 1) (disableInterrupts s) :=
  T.setMm h fun hd => congrArg (· + 1) hd

theorem setTask (h : T.Holds d s) (t : ℕ) (tk : Task) : T.Holds d (s.setTask t tk) :=
  h.same rfl rfl rfl rfl

theorem setFds (h : T.Holds d s) (fds : FdTable) : T.Holds d (s.setFds fds) := by
  unfold State.setFds
  split
  · exact h.setTask _ _
  · exact h

theorem setAstable (h : T.Holds d s) (astable : FdTable) : T.Holds d (s.setAstable astable) := by
  unfold State.setAstable
  split
  · exact h.setTask _ _
  · exact h

theorem setState (h : T.Holds d s) (state : TaskState) : T.Holds d (s.setState state) := by
  unfold State.setState
  split
  · exact h.setTask _ _
  · exact h

theorem setPc (h : T.Holds d s) (pc : Pc) : T.Holds d (s.setPc pc) := by
  unfold State.setPc
  split
  · exact h.setTask _ _
  · exact h

/-- A computation of the memory manager that leaves `k` counts. -/
theorem runMm_leak {α : Type} (h : T.Holds d s) {x : Except SadOS.Fault (α × Mm.State)}
    (hx : Returns (fun r => Lifts k s.mm r.2) x) :
    Safely AnyFault (fun r => T.Holds (d + k) r.2) (s.runMm x) := by
  unfold State.runMm
  split
  · rename_i m
    exact T.setMm h fun hd => (show m.interruptDisabled = s.mm.interruptDisabled + k from hx).trans
      (congrArg (· + k) hd)
  · trivial

theorem runMm {α : Type} (h : T.Holds d s) {x : Except SadOS.Fault (α × Mm.State)}
    (hx : Returns (fun r => Lifts 0 s.mm r.2) x) :
    Safely AnyFault (fun r => T.Holds d r.2) (s.runMm x) := h.runMm_leak hx

theorem execMm (h : T.Holds d s) {x : Except SadOS.Fault Mm.State}
    (hx : Returns (Lifts 0 s.mm) x) : Safely AnyFault (T.Holds d) (s.execMm x) := by
  unfold State.execMm
  split
  · exact h.setMm hx
  · trivial

theorem enable (h : T.Holds (d + 1) s) : Safely AnyFault (T.Holds d) (enableInterrupts s) := by
  unfold enableInterrupts State.execMm Mm.enableInterrupts
  split
  · rename_i m hm
    split at hm
    · cases hm
    · rw [← Except.ok.inj hm]
      exact T.setMm h fun hd => by rw [hd, Nat.add_sub_cancel]
  · trivial

/-- What stands between `disable_interrupts` and `enable_interrupts`. -/
theorem locked {α : Type} (h : T.Holds d s) {f : State → Except Fault (α × State)}
    (hf : T.Holds (d + 1) (disableInterrupts s) →
      Safely AnyFault (fun r => T.Holds (k + 1) r.2) (f (disableInterrupts s))) :
    Safely AnyFault (fun r => T.Holds k r.2) (locked s f) := by
  simp only [Kernel.locked, safely_bind, safely_pure]
  apply (hf h.disable).mono
  intro r hr
  exact hr.enable

theorem foldlM {β : Type} (h : T.Holds d s) {f : State → β → Except Fault State}
    (hf : ∀ s b, T.Holds d s → Safely AnyFault (T.Holds d) (f s b)) (l : List β) :
    Safely AnyFault (T.Holds d) (l.foldlM f s) :=
  safely_foldlM (fun _ => T.Holds d) h fun b _ s hs => hf s b hs

/-! ## Lists -/

theorem linkReq (h : T.Holds d s) (a : ℕ) (l : ReqList) :
    Safely AnyFault (T.Holds d) (linkReq s a l) := by
  simp only [Kernel.linkReq, safely_bind]
  apply reads
  intro r
  cases l with
  | clients u =>
    simp only [safely_bind, safely_pure]
    apply reads
    intro up
    exact (h.setReq a _).setBody u _
  | int v => exact (h.setReq a _).same rfl rfl rfl rfl

theorem unlinkReq (h : T.Holds d s) (a : ℕ) : Safely AnyFault (T.Holds d) (unlinkReq s a) := by
  simp only [Kernel.unlinkReq, safely_bind]
  apply reads
  intro r
  split
  · trivial
  · simp only [safely_bind, safely_pure]
    apply reads
    intro up
    exact (h.setReq a _).setBody _ _
  · exact (h.setReq a _).same rfl rfl rfl rfl

theorem setIncoming (h : T.Holds d s) (q : ℕ) (l : List ℕ) : T.Holds d (s.setIncoming q l) := by
  unfold State.setIncoming
  split
  · exact h.setBody q _
  · exact h.setBody q _
  · exact h

theorem enqueue (h : T.Holds d s) (q m : ℕ) : Safely AnyFault (T.Holds d) (enqueue s q m) := by
  simp only [Kernel.enqueue, safely_bind, safely_pure]
  apply reads
  intro msg
  apply reads
  intro l
  exact (h.setBody m _).setIncoming q _

theorem unqueue (h : T.Holds d s) (m : ℕ) : Safely AnyFault (T.Holds d) (unqueue s m) := by
  simp only [Kernel.unqueue, safely_bind]
  apply reads
  intro msg
  split
  · trivial
  · simp only [safely_bind, safely_pure]
    apply reads
    intro l
    exact (h.setBody m _).setIncoming _ _

/-! ## The scheduler -/

theorem wakeUp (h : T.Holds d s) (t : ℕ) : Safely AnyFault (T.Holds d) (wakeUp s t) := by
  simp only [Kernel.wakeUp, safely_bind]
  apply reads
  intro tk
  split
  · exact h.same rfl rfl rfl rfl
  · exact h

theorem killProcess (h : T.Holds d s) (t : ℕ) : Safely AnyFault (T.Holds d) (killProcess s t) := by
  unfold Kernel.killProcess
  split
  · trivial
  simp only [safely_bind]
  apply reads
  intro tk
  apply Safely.mono (Q := T.Holds d)
  · split
    · exact h.execMm (Mm.lifts_destroyAs _ _)
    · trivial
  intro s₁ h₁
  apply ((T.poolDestroy h₁ tk.filePool).foldlM (f := orphan t) ?_ tk.children).mono
  · intro s₂ h₂
    split
    · exact h₂.same rfl rfl rfl rfl
    · exact h₂
  · intro s₂ child h₂
    simp only [orphan, safely_bind, safely_pure]
    apply reads
    intro pk
    apply reads
    intro ck
    exact (h₂.setTask t _).setTask child _

theorem afterSwitch (h : T.Holds (d + 1) s) : Safely AnyFault (T.Holds d) (afterSwitch s) := by
  simp only [Kernel.afterSwitch, safely_bind]
  apply reads
  intro tk
  apply Safely.mono (Q := T.Holds (d + 1))
  · split
    · simp only [safely_bind, safely_pure]
      apply ((h.setTask _ _).killProcess _).mono
      intro s₁ h₁
      exact h₁.same rfl rfl rfl rfl
    · exact h.setTask _ _
  · intro s₁ h₁
    exact h₁.enable

theorem schedule (h : T.Holds d s) : Safely AnyFault (T.Holds d) (schedule s) := by
  unfold Kernel.schedule
  split
  · trivial
  split
  · trivial
  simp only [requeue, safely_bind]
  apply reads
  intro tk
  apply Safely.mono (Q := T.Holds (d + 1))
  · split
    · exact h.disable.same rfl rfl rfl rfl
    · exact h.disable
  intro s₁ h₁
  have hnext : T.Holds (d + 1) (nextTask s₁).2 := by
    unfold nextTask
    split
    · exact h₁.same rfl rfl rfl rfl
    · exact h₁
  have hswitch : ∀ s₂ next space, T.Holds (d + 1) s₂ → T.Holds (d + 1) (switchTo s₂ next space) :=
    fun s₂ next space h₂ => (h₂.setMm (m := { s₂.mm with current := space.getD s₂.mm.current })
      (Lifts.refl s₂.mm)).same rfl rfl rfl rfl
  apply reads
  intro nt
  apply reads
  intro tk₂
  apply afterSwitch
  apply hswitch
  split
  · exact hnext.same rfl rfl rfl rfl
  · exact hnext

theorem intHandler (h : T.Holds d s) (vector : ℕ) :
    Safely AnyFault (T.Holds d) (intHandler s vector) := by
  apply h.foldlM
  intro s₁ a h₁
  simp only [intWaiter, safely_bind]
  apply reads
  intro r
  apply Safely.mono (Q := T.Holds d)
  · split
    · exact h₁.wakeUp _
    · exact h₁
  intro s₂ h₂
  apply reads
  intro n
  exact h₂.setReq a _

end Tally.Holds

end SadOS.Kernel
