import SadOS.Kernel.Tally

/-!
# What the operations of handles do to tasks

Behind a handle, nothing happens to a task but that it may be woken: its table of handles,
its pool and its address space stay.

## Main definitions

* `Woken s s'` — from `s` to `s'` some tasks that waited were woken.

## Main results

* `Woken.fds` — the tables stay.
* `Woken.ropsDrop`, `Woken.ropsDup`, `Woken.acceptMessage` — the operations of handles.
-/

namespace SadOS.Kernel

/-- Each task is as it was, or waited and is runnable. -/
structure Woken (s s' : State) : Prop where
  current : s'.current = s.current
  task : ∀ t, s'.task t = s.task t ∨
    ∃ tk, s.task t = some tk ∧ tk.state = .waiting ∧ s'.task t = some { tk with state := .runnable }

namespace Woken

variable {s₀ s s' : State}

theorem refl (s : State) : Woken s s := ⟨rfl, fun _ => .inl rfl⟩

/-- A state with the same tasks. -/
theorem same (h : Woken s₀ s) (hcur : s'.current = s.current) (htask : s'.task = s.task) :
    Woken s₀ s' :=
  ⟨hcur.trans h.current, fun t => by rw [htask]; exact h.task t⟩

theorem trans (h : Woken s₀ s) (h' : Woken s s') : Woken s₀ s' := by
  refine ⟨h'.current.trans h.current, fun t => ?_⟩
  rcases h'.task t with hsame | ⟨tk, htk, hwait, hrun⟩
  · rw [hsame]
    exact h.task t
  · -- a task that was woken before does not wait
    rcases h.task t with hsame | ⟨tk₀, htk₀, hwait₀, hrun₀⟩
    · exact .inr ⟨tk, hsame ▸ htk, hwait, hrun⟩
    · rw [hrun₀, Option.some.injEq] at htk
      rw [← htk] at hwait
      cases hwait

/-- The table, the pool and the address space of a task. -/
theorem fds (h : Woken s₀ s) {t : ℕ} {tk : Task} (ht : s₀.task t = some tk) :
    ∃ tk', s.task t = some tk' ∧ tk'.fds = tk.fds ∧ tk'.filePool = tk.filePool ∧
      tk'.space = tk.space := by
  rcases h.task t with hsame | ⟨tk₀, htk₀, -, hrun⟩
  · exact ⟨tk, hsame ▸ ht, rfl, rfl, rfl⟩
  · rw [htk₀, Option.some.injEq] at ht
    subst ht
    exact ⟨_, hrun, rfl, rfl, rfl⟩

/-- A task that does not wait is not put to sleep. -/
theorem awake (h : Woken s₀ s) {t : ℕ} {tk : Task} (ht : s₀.task t = some tk)
    (hwake : tk.state ≠ .waiting) : s.task t = some tk := by
  rcases h.task t with hsame | ⟨tk₀, htk₀, hwait, -⟩
  · rw [hsame, ht]
  · rw [htk₀, Option.some.injEq] at ht
    subst ht
    exact absurd hwait hwake

/-! ## Writes -/

theorem setMm (h : Woken s₀ s) (m : Mm.State) : Woken s₀ (s.setMm m) := h.same rfl rfl

theorem setBody (h : Woken s₀ s) (a : ℕ) (b : Body) : Woken s₀ (s.setBody a b) := h.same rfl rfl

theorem setReq (h : Woken s₀ s) (a : ℕ) (r : Request) : Woken s₀ (s.setReq a r) := h.same rfl rfl

theorem setIncoming (h : Woken s₀ s) (q : ℕ) (l : List ℕ) : Woken s₀ (s.setIncoming q l) := by
  unfold State.setIncoming
  split
  · exact h.setBody q _
  · exact h.setBody q _
  · exact h

theorem runMm {α : Type} (h : Woken s₀ s) (x : Except SadOS.Fault (α × Mm.State)) :
    Safely AnyFault (fun r => Woken s₀ r.2) (s.runMm x) := by
  unfold State.runMm
  split
  · exact h.setMm _
  · trivial

theorem execMm (h : Woken s₀ s) (x : Except SadOS.Fault Mm.State) :
    Safely AnyFault (Woken s₀) (s.execMm x) := by
  unfold State.execMm
  split
  · exact h.setMm _
  · trivial

theorem alloc (h : Woken s₀ s) (pool : ℕ) :
    Safely AnyFault (fun r => Woken s₀ r.2) (s.alloc pool) := by
  unfold State.alloc
  split
  · trivial
  · exact h.same rfl rfl
  · exact h.same rfl rfl

theorem free (h : Woken s₀ s) (pool a : ℕ) : Safely AnyFault (Woken s₀) (s.free pool a) := by
  unfold State.free
  split
  · exact h.same rfl rfl
  · trivial

theorem freeReq (h : Woken s₀ s) (a : ℕ) : Safely AnyFault (Woken s₀) (freeReq s a) := by
  simp only [Kernel.freeReq, safely_bind]
  apply reads
  intro tk
  exact h.free _ a

theorem wakeUp (h : Woken s₀ s) (t : ℕ) : Safely AnyFault (Woken s₀) (wakeUp s t) := by
  simp only [Kernel.wakeUp, safely_bind]
  apply reads_eq
  intro tk htk
  have htk := getTask_ok htk
  split
  · rename_i hwait
    refine h.trans ⟨rfl, fun t' => ?_⟩
    by_cases ht : t' = t
    · subst ht
      exact .inr ⟨tk, htk, hwait, State.setTask_self ..⟩
    · exact .inl (State.setTask_of_ne _ ht _)
  · exact h

theorem notify (h : Woken s₀ s) (r : Request) (waited : Bool) :
    Safely AnyFault (Woken s₀) (notify s r waited) := by
  unfold Kernel.notify
  split
  · exact h.wakeUp _
  · exact h

theorem foldlM {β : Type} (h : Woken s₀ s) {f : State → β → Except Fault State}
    (hf : ∀ s b, Woken s₀ s → Safely AnyFault (Woken s₀) (f s b)) (l : List β) :
    Safely AnyFault (Woken s₀) (l.foldlM f s) :=
  safely_foldlM (fun _ => Woken s₀) h fun b _ s hs => hf s b hs

/-! ## Lists -/

theorem linkReq (h : Woken s₀ s) (a : ℕ) (l : ReqList) :
    Safely AnyFault (Woken s₀) (linkReq s a l) := by
  simp only [Kernel.linkReq, safely_bind]
  apply reads
  intro r
  cases l with
  | clients u =>
    simp only [safely_bind, safely_pure]
    apply reads
    intro up
    exact (h.setReq a _).setBody u _
  | int v => exact h.same rfl rfl

theorem unlinkReq (h : Woken s₀ s) (a : ℕ) : Safely AnyFault (Woken s₀) (unlinkReq s a) := by
  simp only [Kernel.unlinkReq, safely_bind]
  apply reads
  intro r
  split
  · trivial
  · simp only [safely_bind, safely_pure]
    apply reads
    intro up
    exact (h.setReq a _).setBody _ _
  · exact h.same rfl rfl

theorem unqueue (h : Woken s₀ s) (m : ℕ) : Safely AnyFault (Woken s₀) (unqueue s m) := by
  simp only [Kernel.unqueue, safely_bind]
  apply reads
  intro msg
  split
  · trivial
  · simp only [safely_bind, safely_pure]
    apply reads
    intro l
    exact (h.setBody m _).setIncoming _ _

theorem freePayload (h : Woken s₀ s) (plh : Option ℕ) :
    Safely AnyFault (Woken s₀) (freePayload s plh) := by
  cases plh with
  | none => exact h
  | some plh => exact h.execMm _

/-! ## The end of handles -/

theorem closeClient (h : Woken s₀ s) (a : ℕ) : Safely AnyFault (Woken s₀) (closeClient s a) := by
  simp only [Kernel.closeClient, safely_bind]
  apply reads
  intro r
  exact (h.setReq a _).notify r _

theorem dropMessage (h : Woken s₀ s) (m : ℕ) : Safely AnyFault (Woken s₀) (dropMessage s m) := by
  simp only [Kernel.dropMessage, safely_bind]
  apply reads
  intro msg
  apply (h.freePayload _).mono
  intro s₁ h₁
  apply reads
  intro client
  apply reads
  intro task
  exact h₁.free _ m

theorem dropConnect (h : Woken s₀ s) (m : ℕ) : Safely AnyFault (Woken s₀) (dropConnect s m) := by
  simp only [Kernel.dropConnect, safely_bind]
  apply reads
  intro msg
  apply (h.freePayload _).mono
  intro s₁ h₁
  apply reads
  intro client
  apply reads
  intro task
  apply (h₁.closeClient _).mono
  intro s₂ h₂
  exact h₂.free _ m

theorem dropClient (h : Woken s₀ s) (a : ℕ) : Safely AnyFault (Woken s₀) (dropClient s a) := by
  simp only [Kernel.dropClient, safely_bind]
  apply reads
  intro r
  apply ((h.setReq a _).unlinkReq a).mono
  intro s₁ h₁
  exact h₁.notify r _

theorem uportServerClose (h : Woken s₀ s) (a : ℕ) :
    Safely AnyFault (Woken s₀) (uportServerClose s a) := by
  simp only [Kernel.uportServerClose, safely_bind]
  apply reads
  intro r
  apply reads
  intro tk
  split
  · simp only [safely_bind]
    apply reads
    intro ua
    apply reads
    intro up
    apply (h.foldlM (f := Kernel.dropConnect) (fun s m hs => hs.dropConnect m) _).mono
    intro s₁ h₁
    apply reads
    intro n
    apply free
    exact h₁.same rfl rfl
  · simp only [safely_bind]
    apply reads
    intro ua
    apply reads
    intro up
    apply (h.foldlM (f := Kernel.dropClient) (fun s c hs => hs.dropClient c) _).mono
    intro s₁ h₁
    apply (h₁.foldlM (f := Kernel.dropMessage) (fun s m hs => hs.dropMessage m) _).mono
    intro s₂ h₂
    exact h₂.free _ ua
  · simp only [safely_bind]
    apply reads
    intro ca
    apply reads
    intro c
    apply Safely.mono (Q := Woken s₀)
    · split
      · exact h.closeClient _
      · exact h
    intro s₁ h₁
    split
    · trivial
    · exact h₁.free _ ca
  · trivial

theorem uportUserClose (h : Woken s₀ s) (a : ℕ) :
    Safely AnyFault (Woken s₀) (uportUserClose s a) := by
  simp only [Kernel.uportUserClose, safely_bind]
  apply reads
  intro r
  split
  · simp only [safely_bind]
    apply reads
    intro m
    apply reads
    intro msg
    apply (h.unqueue m).mono
    intro s₁ h₁
    apply (h₁.freePayload _).mono
    intro s₂ h₂
    apply reads
    intro client
    apply reads
    intro task
    exact h₂.free _ m
  split
  · exact h.unlinkReq a
  · simp only [safely_bind]
    apply reads
    intro ca
    apply reads
    intro c
    split
    · simp only [safely_bind]
      apply (h.freePayload _).mono
      intro s₁ h₁
      apply reads
      intro owner
      exact h₁.free _ ca
    · exact h.setBody ca _
  · trivial

/-- `req->rops->drop`. -/
theorem ropsDrop (h : Woken s₀ s) (ops : ReqOps) (a : ℕ) :
    Safely AnyFault (Woken s₀) (ropsDrop s ops a) := by
  cases ops with
  | uportServer => exact h.uportServerClose a
  | uportClient => exact h.uportUserClose a
  | int => exact h.unlinkReq a
  | mem => exact h
  | tarfs => exact h
  | bda => exact h
  | portio => exact h

/-! ## Copies, and messages that are taken -/

theorem uportDup (h : Woken s₀ s) (old : Request) (new : ℕ) :
    Safely AnyFault (fun r => Woken s₀ r.2) (uportDup s old new) := by
  unfold Kernel.uportDup
  split
  · exact h
  split
  · exact h
  simp only [safely_bind, safely_pure]
  apply reads
  intro r
  apply reads
  intro sreq
  apply reads
  intro sr
  apply reads
  intro up
  exact (h.setReq new _).linkReq new _

/-- `req->rops->dup`. -/
theorem ropsDup (h : Woken s₀ s) (ops : ReqOps) (old : Request) (new : ℕ) :
    Safely AnyFault (fun r => Woken s₀ r.2) (ropsDup s ops old new) := by
  cases ops with
  | uportClient => exact h.uportDup old new
  | int =>
    simp only [Kernel.ropsDup, intPortDup]
    split
    · simp only [safely_bind, safely_pure]
      apply reads
      intro r
      exact (h.setReq new _).linkReq new _
    · trivial
  | uportServer => exact h
  | mem => exact h
  | tarfs => exact h
  | bda => exact h
  | portio => exact h

theorem acceptMessage (h : Woken s₀ s) (type : ReqType) (m : ℕ) (msg : Message) (sreq : ℕ) :
    Safely AnyFault (Woken s₀) (acceptMessage s type m msg sreq) := by
  simp only [Kernel.acceptMessage, safely_bind]
  apply reads
  intro client
  apply reads
  intro clientTask
  apply (h.unqueue m).mono
  intro s₁ h₁
  apply (h₁.freePayload _).mono
  intro s₂ h₂
  apply (h₂.free _ m).mono
  intro s₃ h₃
  apply reads
  intro tk
  apply (h₃.alloc _).mono
  rintro ⟨x, s₄⟩ h₄
  apply Safely.mono (Q := Woken s₀)
  · split
    · simp only [safely_bind, safely_pure]
      apply ((h₄.setBody x _).linkReq _ _).mono
      intro s₅ h₅
      apply reads
      intro creq
      exact (h₅.setReq sreq _).setReq _ _
    · simp only [safely_bind, safely_pure]
      apply reads
      intro creq
      exact ((h₄.setBody x _).setReq sreq _).setReq _ _
  · intro s₅ h₅
    apply reads
    intro creq
    exact h₅.notify creq _

end Woken

end SadOS.Kernel
