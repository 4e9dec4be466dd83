import SadOS.Kernel.Messages
import SadOS.Kernel.Dispatch

/-!
# Ports and connections are channels

A port and a connection receive messages: `port_connect` and `request` send, `pop_request` receives.
Whatever other tasks do meanwhile, the messages are received in the order in which they were sent.
A message is lost only where somebody closes a handle or a task ends.

## Main definitions

* `inbox s q` — the messages that wait at `q`.
* `Action.effect s a` — what a step may do to them.
* `mailLog q s l` — what a run does to them.

## Main results

* `Mail.step` — a step has its effect.
* `messages_in_order` — a run, from every state that is reached.
-/

namespace SadOS.Kernel

open Fifo (Event Passes sent received lost)

variable {B B' : ℕ → Option (List ℕ)} {M M' : ℕ → Option Message} {s : State}

/-- The messages that wait at `q`. -/
def inbox (s : State) (q : ℕ) : List Parcel := parcels s.msgAt ((s.boxAt q).getD [])

/-! ## Steps -/

/-- What a step may do to the messages that wait at a port or a connection. -/
def Action.effect (s : State) : Action → List Parcel → List Parcel → Prop
  | .call (.portConnect ..) | .call (.request ..) => Adds
  | .call (.popRequest ..) => Takes
  | .call (.close _) => fun l l' => l'.Sublist l
  | .schedule => if s.ending then fun l l' => l'.Sublist l else Eq
  | _ => Eq

theorem Action.effect_schedule (s : State) :
    Action.schedule.effect s = if s.ending then fun l l' => l'.Sublist l else Eq := rfl

theorem Action.effect_refl (s : State) (a : Action) (l : List Parcel) : a.effect s l l := by
  unfold Action.effect
  split
  · exact .inl rfl
  · exact .inl rfl
  · exact .inl rfl
  · exact List.Sublist.refl l
  · split
    · exact List.Sublist.refl l
    · rfl
  · rfl

namespace Mail

theorem settle (h : Mail nowhere B M s) (o : Outcome) : Mail nowhere B M (settle (o, s)) := by
  cases o with
  | ret v => exact h.setPc .user
  | sleep k => exact h.setPc (.sleep k)

/-- A call that returns. -/
theorem returns {R : List Parcel → List Parcel → Prop} {c : Except Fault (ℤ × State)}
    (hc : Safely AnyFault (fun r => ∃ B' M', Mail nowhere B' M' r.2 ∧ Boxes R B M B' M') c) :
    Safely AnyFault (fun r => ∃ B' M', Mail nowhere B' M' r.2 ∧ Boxes R B M B' M') (returns c) := by
  simpa only [Kernel.returns, safely_bind, safely_pure] using hc

/-- A call that leaves the messages alone. -/
theorem stays {α : Type} {c : Except Fault (α × State)}
    (hc : Safely AnyFault (fun r => Mail nowhere B M r.2) c) :
    Safely AnyFault (fun r => ∃ B' M', Mail nowhere B' M' r.2 ∧ Boxes Eq B M B' M') c :=
  hc.mono fun r hr => ⟨B, M, hr, .refl (fun _ => rfl) B M⟩

theorem access (h : Mail nowhere B M s) (ok : Bool) : Mail nowhere B M (access ok s).2 := by
  cases ok with
  | false => exact h.setState .zombie
  | true => exact h

/-- A system call of the current task. -/
theorem syscall (h : Mail nowhere B M s) (c : Call) :
    Safely AnyFault (fun r => ∃ B' M', Mail nowhere B' M' r.2 ∧
      Boxes ((Action.call c).effect s) B M B' M') (syscall s c) := by
  cases c with
  | portConnect port len buf => exact returns (h.portConnect _ _ _)
  | request rd len buf => exact returns (h.request _ _ _)
  | getResponse cookie res => exact returns (stays (h.getResponse _ _))
  | openPort port => exact returns (h.openPort _)
  | popRequest rd buf => exact returns (h.popRequest _ _)
  | respond fd len buf => exact returns (stays (h.respond _ _ _))
  | close fd => exact returns (h.close _)
  | dup0 oldFd newFd => exact returns (stays (h.dup0 _ _))
  | waitOn rbuf wbuf => exact stays (h.waitOn _ _)
  | waitOnPort port => exact stays ((h.disable.setState .waiting).waitOnPortPass _)
  | createTask as buf self => exact returns (stays (h.createTask _ _ _))
  | exit => exact stays (c := .ok (killCurrent s)) (h.setState .zombie)
  | sendpage as vaddr dst len => exact returns (stays (h.sendpage _ _ _ _))
  | munmap base len => exact returns (stays (h.runMm _))
  | asnew snapshot => exact returns (stays (h.asnew _))
  | asdestroy as => exact returns (stays (h.asdestroy _))
  | read vaddr =>
    simp only [Kernel.syscall, safely_bind, safely_pure]
    exact (h.runMm _).mono fun r hr => ⟨B, M, hr.access _, .refl (fun _ => rfl) B M⟩
  | write vaddr b =>
    simp only [Kernel.syscall, safely_bind, safely_pure]
    exact (h.runMm _).mono fun r hr => ⟨B, M, hr.access _, .refl (fun _ => rfl) B M⟩

/-- A step has its effect. -/
theorem step (h : Mail nowhere B M s) (a : Action) :
    Safely AnyFault (fun s' => ∃ B' M', Mail nowhere B' M' s' ∧ Boxes (a.effect s) B M B' M')
      (step s a) := by
  have hstay : ∃ B' M', Mail nowhere B' M' s ∧ Boxes (a.effect s) B M B' M' :=
    ⟨B, M, h, .refl (a.effect_refl s) B M⟩
  cases a with
  | call c =>
    simp only [Kernel.step, safely_bind]
    apply reads
    intro tk
    split
    · simp only [safely_bind, safely_pure]
      refine (h.syscall c).mono fun r hr => ?_
      obtain ⟨B', M', hr, heffect⟩ := hr
      exact ⟨B', M', hr.settle r.1, heffect⟩
    · exact hstay
  | schedule =>
    simp only [Kernel.step, safely_bind]
    apply reads_eq
    intro tk htk
    split
    · rename_i k hpc
      refine (h.setPc (.woken k)).schedule.mono fun s₁ hs₁ => ?_
      obtain ⟨B', M', h₁, hrem, hsame⟩ := hs₁
      have hend : (s.setPc (.woken k)).ending = s.ending := by
        simp [State.ending, State.setPc, getTask_ok htk, State.setTask]
      refine ⟨B', M', h₁, ?_⟩
      rw [Action.effect_schedule]
      split
      · exact hrem.sublist
      · rename_i hno
        rw [Bool.not_eq_true] at hno
        obtain ⟨rfl, rfl⟩ := hsame (hend.trans hno)
        exact .refl (fun _ => rfl) _ _
    · exact hstay
  | resume =>
    simp only [Kernel.step, safely_bind]
    apply reads
    intro tk
    split
    · simp only [safely_bind, safely_pure]
      exact (h.resume _).mono fun r hr => ⟨B, M, hr.settle r.1, .refl (fun _ => rfl) B M⟩
    · exact hstay
  | interrupt vector =>
    simp only [Kernel.step]
    split
    · exact (h.intHandler _).mono fun s₁ h₁ => ⟨B, M, h₁, .refl (fun _ => rfl) B M⟩
    · exact hstay

end Mail

/-! ## Runs -/

theorem Mail.of_ok (h : MailOk nowhere s) : Mail nowhere s.boxAt s.msgAt s := ⟨h, rfl, rfl⟩

/-- The messages of a port or a connection before and after a step. -/
theorem step_inbox (h : MailOk nowhere s) (a : Action) :
    Safely AnyFault (fun s' => MailOk nowhere s' ∧
      ∀ q, s.boxAt q ≠ none → s'.boxAt q ≠ none → a.effect s (inbox s q) (inbox s' q)) (step s a) := by
  refine ((Mail.of_ok h).step a).mono fun s' hs' => ?_
  obtain ⟨B', M', h', heffect⟩ := hs'
  refine ⟨h'.ok, fun q hq hq' => ?_⟩
  obtain ⟨l, hl⟩ := Option.ne_none_iff_exists'.1 hq
  obtain ⟨l', hl'⟩ := Option.ne_none_iff_exists'.1 hq'
  rw [inbox, inbox, hl, hl', h'.msg]
  exact heffect q l l' hl (h'.box ▸ hl')

/-- What a step does to the messages that wait, as events. -/
def mailEvents (a : Action) (l l' : List Parcel) : List (Event Parcel) :=
  match a with
  | .call (.portConnect ..) | .call (.request ..) => (l'.drop l.length).map .send
  | .call (.popRequest ..) => (l.take (l.length - l'.length)).map .receive
  | .call (.close _) | .schedule => [.lose (l.diff l')]
  | _ => []

theorem passes_adds {l l' : List Parcel} (h : Adds l l') :
    Passes l ((l'.drop l.length).map .send) l' := by
  rcases h with rfl | ⟨p, rfl⟩
  · simpa using Passes.nil _
  · simpa using Passes.cons (show Event.Moves l (.send p) (l ++ [p]) from rfl) (.nil _)

theorem passes_takes {l l' : List Parcel} (h : Takes l l') :
    Passes l ((l.take (l.length - l'.length)).map .receive) l' := by
  rcases h with rfl | ⟨p, rfl⟩
  · simpa using Passes.nil _
  · simpa using Passes.cons (show Event.Moves (p :: l') (.receive p) l' from rfl) (.nil _)

theorem passes_sublist {l l' : List Parcel} (h : l'.Sublist l) : Passes l [.lose (l.diff l')] l' := by
  refine .cons ⟨h, ?_⟩ (.nil _)
  exact List.perm_append_comm.trans (List.subperm_append_diff_self_of_count_le fun p _ => h.subperm.count_le p)

/-- A step plays its events. -/
theorem passes_effect (s : State) (a : Action) {l l' : List Parcel} (h : a.effect s l l') :
    Passes l (mailEvents a l l') l' := by
  cases a with
  | call c =>
    cases c with
    | portConnect port len buf => exact passes_adds h
    | request rd len buf => exact passes_adds h
    | popRequest rd buf => exact passes_takes h
    | close fd => exact passes_sublist h
    | _ =>
      cases h
      exact .nil l
  | schedule =>
    rw [Action.effect_schedule] at h
    split at h
    · exact passes_sublist h
    · exact passes_sublist (h ▸ List.Sublist.refl l)
  | resume =>
    cases h
    exact .nil l
  | interrupt vector =>
    cases h
    exact .nil l

/-- What a run does to the messages that wait at `q`. -/
def mailLog (q : ℕ) (s : State) : List Action → List (Event Parcel)
  | [] => []
  | a :: l => match step s a with
    | .ok s' => mailEvents a (inbox s q) (inbox s' q) ++ mailLog q s' l
    | .error _ => []

theorem mailLog_cons {s s' : State} {a : Action} (hs' : step s a = .ok s') (q : ℕ) (l : List Action) :
    mailLog q s (a :: l) = mailEvents a (inbox s q) (inbox s' q) ++ mailLog q s' l := by
  simp [mailLog, hs']

theorem mailOk_boot (mm : Mm.State) (as : ℕ) (junk inport : ℕ → ℕ) (tarfs : ℕ × ℕ) :
    MailOk nowhere (boot mm as junk inport tarfs) := by
  have hnone : ∀ q, (boot mm as junk inport tarfs).boxAt q = none := by
    intro q
    unfold boot
    dsimp only
    split <;> rfl
  refine ⟨poolsOk_boot mm as junk inport tarfs, fun q l _ hl => ?_, fun q l m _ hl => ?_⟩
  · rw [hnone] at hl
    cases hl
  · rw [hnone] at hl
    cases hl

theorem mailOk_run {s s' : State} {l : List Action} (h : MailOk nowhere s) (hs' : run s l = .ok s') :
    MailOk nowhere s' := by
  have hrun : Safely AnyFault (MailOk nowhere) (run s l) :=
    safely_foldlM (fun _ => MailOk nowhere) h fun a _ s hs => (step_inbox hs a).mono fun _ h => h.1
  exact hrun.of_ok hs'

/-- A port or a connection, that a step starts from. -/
def IsOpen (q : ℕ) (s : State) (_ : Action) : Prop := s.boxAt q ≠ none

theorem isOpen_next {s s' : State} {l : List Action} {q : ℕ} (hs' : run s l = .ok s')
    (hopen : Along (IsOpen q) step s l) (hend : s'.boxAt q ≠ none) : s.boxAt q ≠ none := by
  cases l with
  | nil =>
    obtain rfl : s = s' := Except.ok.inj hs'
    exact hend
  | cons a l => exact hopen.1

/-- A run plays its events. -/
theorem passes_mailLog {s s' : State} {l : List Action} {q : ℕ} (h : MailOk nowhere s)
    (hs' : run s l = .ok s') (hopen : Along (IsOpen q) step s l) (hend : s'.boxAt q ≠ none) :
    Passes (inbox s q) (mailLog q s l) (inbox s' q) := by
  induction l generalizing s with
  | nil =>
    obtain rfl : s = s' := Except.ok.inj hs'
    exact .nil _
  | cons a l ih =>
    obtain ⟨s₁, hs₁, hrest⟩ := run_cons hs'
    obtain ⟨hq, hopen⟩ := hopen
    have hopen := hopen s₁ hs₁
    have hstep := (step_inbox h a).of_ok hs₁
    have hq₁ := isOpen_next hrest hopen hend
    rw [mailLog_cons hs₁]
    exact (passes_effect s a (hstep.2 q hq hq₁)).append (ih hstep.1 hrest hopen)

/-- A step that may lose a message: somebody closes a handle, or a task that has ended goes. -/
def MayLose (s : State) (a : Action) : Prop :=
  (∃ fd, a = .call (.close fd)) ∨ a = .schedule ∧ s.ending = true

theorem lost_mailEvents {a : Action} {l l' : List Parcel} (hno : ¬MayLose s a)
    (h : a.effect s l l') : lost (mailEvents a l l') = [] := by
  have hflat : ∀ (f : Parcel → Event Parcel) (l : List Parcel), (∀ p, (f p).lost = []) →
      lost (l.map f) = [] := by
    intro f l hf
    simp [lost, List.flatMap_map, hf]
  cases a with
  | call c =>
    cases c with
    | portConnect port len buf => exact hflat _ _ fun _ => rfl
    | request rd len buf => exact hflat _ _ fun _ => rfl
    | popRequest rd buf => exact hflat _ _ fun _ => rfl
    | close fd => exact absurd (.inl ⟨fd, rfl⟩) hno
    | _ => rfl
  | schedule =>
    rw [Action.effect_schedule, if_neg fun hend => hno (.inr ⟨rfl, hend⟩)] at h
    subst h
    have hperm : (l ++ l.diff l).Perm l :=
      List.subperm_append_diff_self_of_count_le fun _ _ => le_rfl
    have hnil : l.diff l = [] := List.length_eq_zero_iff.1 (by simpa using hperm.length_eq)
    simp [mailEvents, Event.lost, hnil]
  | resume => rfl
  | interrupt vector => rfl

theorem lost_mailLog {s s' : State} {l : List Action} {q : ℕ} (h : MailOk nowhere s)
    (hs' : run s l = .ok s') (hopen : Along (IsOpen q) step s l) (hend : s'.boxAt q ≠ none)
    (hno : Along (fun s a => ¬MayLose s a) step s l) : lost (mailLog q s l) = [] := by
  induction l generalizing s with
  | nil => rfl
  | cons a l ih =>
    obtain ⟨s₁, hs₁, hrest⟩ := run_cons hs'
    have hstep := (step_inbox h a).of_ok hs₁
    have hopen₁ := hopen.2 s₁ hs₁
    have hq₁ := isOpen_next hrest hopen₁ hend
    rw [mailLog_cons hs₁, lost, List.flatMap_append, ← lost, ← lost,
      lost_mailEvents hno.1 (hstep.2 q hopen.1 hq₁), ih hstep.1 hrest hopen₁ (hno.2 s₁ hs₁)]
    rfl

end SadOS.Kernel
