import SadOS.Kernel.Rollback
import SadOS.Kernel.Woken

/-!
# What `respond` returns

`respond` sets its result to `-EFAULT` before it takes the buffer of the caller, and never
sets it again.  So it returns a negative number always, also where it has stored the
response, released the descriptor and woken the client.

## Main definitions

* `Delivers` — a call that gets past all tests.
* `NothingDelivered`, `Delivered` — what the caller may see afterwards.

## Main results

* `respond_cases` — what a call does.
* `respond_truth_iff` — the calls that tell the truth.
* `respond_fails` — a response that is delivered.
-/

namespace SadOS.Kernel

/-- The descriptor holds a cookie whose client is still there, and the buffer is one of the
caller. -/
def Delivers (s : State) (fd : ℤ) (len buf : ℕ) : Prop :=
  ∃ tk, s.cur = .ok tk ∧ ∃ a, handleBelow tk fd = .ok (some a) ∧ ∃ r, s.getReq a = .ok r ∧
    r.type = .portCookie ∧ ∃ ca, r.data.ptr = .ok ca ∧ ∃ c, s.getCookie ca = .ok c ∧
      (∃ client, c.clientReq = some client) ∧ Mm.validateRange s.mm buf len = .ok true

/-- The tables, the cookies and the tasks are as they were. -/
structure NothingDelivered (s s' : State) : Prop where
  objs : s'.objs = s.objs
  task : s'.task = s.task
  runq : s'.runq = s.runq

/-- The descriptor is free, and the client of its cookie can read. -/
def Delivered (s s' : State) (fd : ℤ) : Prop :=
  (∃ tk', s'.cur = .ok tk' ∧ tk'.fds[fd.toNat]? = some none) ∧
    ∃ tk a r ca c client cr, s.cur = .ok tk ∧ handleBelow tk fd = .ok (some a) ∧
      s.getReq a = .ok r ∧ r.data.ptr = .ok ca ∧ s.getCookie ca = .ok c ∧
      c.clientReq = some client ∧ s'.getReq client = .ok cr ∧
      uportUserAvailable s' cr 1 = .ok true

variable {s : State}

/-- `map_from_user` takes exactly the buffers that pass the test. -/
theorem mapFromUser_tested (m : Mm.State) (buf len : ℕ) :
    Mm.Returns (fun r => ((∃ id, r.1 = .ok id) ↔ Mm.validateRange m buf len = .ok true))
      (Mm.mapFromUser m buf len) := by
  have htest : Mm.validateRange (Mm.disableInterrupts m) buf len = Mm.validateRange m buf len := rfl
  simp only [Mm.mapFromUser, Mm.Returns, htest, safely_bind]
  cases hvalid : Mm.validateRange m buf len with
  | error e => trivial
  | ok b =>
    cases b with
    | false =>
      simp only [safely_ok, Bool.not_false, if_true, safely_bind, safely_pure]
      rw [safely_iff]
      simp
    | true =>
      have hret : ∀ (id : ℕ) (m₁ : Mm.State), Safely (fun _ => True)
          (fun _ : Mm.State => ((∃ i : ℕ, (.ok id : Except ℤ ℕ) = .ok i) ↔ True))
          (Mm.enableInterrupts m₁) := by
        intro id m₁
        rw [safely_iff]
        simp
      simp only [safely_ok, Bool.not_true, Bool.false_eq_true, if_false, safely_bind]
      rw [safely_iff]
      refine ⟨?_, fun _ _ => trivial⟩
      rintro ⟨first, m₁⟩ -
      dsimp only
      split
      · simp only [safely_bind, safely_pure]
        exact hret _ _
      simp only [safely_bind, safely_pure]
      rw [safely_iff]
      refine ⟨?_, fun _ _ => trivial⟩
      rintro ⟨middle, m₂⟩ -
      rw [safely_iff]
      refine ⟨?_, fun _ _ => trivial⟩
      rintro ⟨all, m₃⟩ -
      exact hret _ _

/-- `current->fds->file[fd] = NULL`. -/
theorem clearFd_fds (s : State) (fd : ℕ) :
    Safely AnyFault (fun s' => s'.current = s.current ∧ ∃ tk, s.cur = .ok tk ∧
      s'.task s.current = some { tk with fds := tk.fds.set fd none }) (clearFd s fd) := by
  simp only [clearFd, safely_bind, safely_pure]
  apply reads_eq
  intro tk htk
  have htask : s.task s.current = some tk := getTask_ok htk
  rw [State.setFds, htask]
  exact ⟨rfl, tk, htk, State.setTask_self ..⟩

/-- A call returns a negative number.  It leaves everything as it was, or it has released
the descriptor. -/
theorem respond_cases (s : State) (fd : ℤ) (len buf : ℕ) :
    Safely AnyFault (fun r => r.1 < 0 ∧ (¬Delivers s fd len buf → NothingDelivered s r.2) ∧
      (Delivers s fd len buf → ∃ tk tk', s.cur = .ok tk ∧ r.2.task s.current = some tk' ∧
        tk'.fds = tk.fds.set fd.toNat none)) (respond s fd len buf) := by
  apply locked_rule (P := fun (v : ℤ) s' => v < 0 ∧
    (¬Delivers s fd len buf → NothingDelivered s s') ∧
    (Delivers s fd len buf → ∃ tk tk', s.cur = .ok tk ∧ s'.task s.current = some tk' ∧
      tk'.fds = tk.fds.set fd.toNat none))
  · rintro v s' m ⟨hneg, hnot, hdone⟩
    exact ⟨hneg, fun hno => ⟨(hnot hno).objs, (hnot hno).task, (hnot hno).runq⟩, hdone⟩
  -- an exit before the tests are passed
  have hexit : ∀ (v : ℤ) (m : Mm.State), v < 0 → ¬Delivers s fd len buf →
      (v < 0 ∧ (¬Delivers s fd len buf → NothingDelivered s ((disableInterrupts s).setMm m)) ∧
        (Delivers s fd len buf → ∃ tk tk', s.cur = .ok tk ∧
          ((disableInterrupts s).setMm m).task s.current = some tk' ∧
          tk'.fds = tk.fds.set fd.toNat none)) :=
    fun v m hneg hno => ⟨hneg, fun _ => ⟨rfl, rfl, rfl⟩, fun hyes => absurd hyes hno⟩
  simp only [safely_bind]
  apply reads_eq
  intro tk (htk : s.cur = .ok tk)
  apply reads_eq
  intro f hf
  cases f with
  | none =>
    refine hexit (-EBADF) _ (by decide) ?_
    rw [Delivers, exists_read htk]
    exact not_exists_handle hf
  | some a =>
  simp only [safely_bind]
  apply reads_eq
  intro r (hr : s.getReq a = .ok r)
  split
  · rename_i htype
    refine hexit (-EBADF) _ (by decide) ?_
    rw [Delivers, exists_read htk, exists_handle hf, exists_read hr]
    exact fun h => htype h.1
  rename_i htype
  simp only [safely_bind]
  apply reads_eq
  intro ca hca
  apply reads_eq
  intro c (hc : s.getCookie ca = .ok c)
  have hiff : Delivers s fd len buf ↔
      (∃ client, c.clientReq = some client) ∧ Mm.validateRange s.mm buf len = .ok true := by
    rw [Delivers, exists_read htk, exists_handle hf, exists_read hr, exists_read hca,
      exists_read hc]
    exact and_iff_right (not_not.1 htype)
  split
  · rename_i hclient
    refine hexit (-EPIPE) _ (by decide) ?_
    rw [hiff, hclient]
    simp
  rename_i client hclient
  simp only [safely_bind]
  apply reads
  intro cr
  split
  · trivial
  simp only [safely_bind]
  have hmap := mapFromUser_tested s.mm buf len
  have htested : Safely AnyFault (fun r => ((∃ id, r.1 = .ok id) ↔ Delivers s fd len buf) ∧
      ∃ m, r.2 = (disableInterrupts s).setMm m)
      ((disableInterrupts s).runMm (Mm.mapFromUser (disableInterrupts s).mm buf len)) := by
    have hmap := mapFromUser_tested (disableInterrupts s).mm buf len
    unfold State.runMm
    split
    · rename_i id m heq
      refine ⟨?_, m, rfl⟩
      rw [hmap.of_ok heq, hiff, hclient]
      simp only [Option.some.injEq, exists_eq', true_and]
      rfl
    · trivial
  apply htested.mono
  rintro ⟨plh, s₁⟩ ⟨hplh, m, rfl⟩
  cases plh with
  | error e =>
    refine hexit (-EFAULT) _ (by decide) ?_
    rw [← hplh]
    simp
  | ok plh =>
  -- the response is stored, and the result stays what it was
  simp only [safely_bind, safely_pure]
  have hdelivers : Delivers s fd len buf := hplh.1 ⟨plh, rfl⟩
  apply (clearFd_fds _ _).mono
  rintro s₂ ⟨hcur₂, tk₂, htk₂, htask₂⟩
  rw [show ((disableInterrupts s).setMm m).cur = s.cur from rfl, htk, Except.ok.injEq] at htk₂
  subst htk₂
  have htask₂ : s₂.task s.current = some { tk with fds := tk.fds.set fd.toNat none } := htask₂
  apply ((Woken.refl s₂).freeReq a).mono
  intro s₃ h₃
  apply ((h₃.setBody ca _).notify cr _).mono
  intro s₄ h₄
  obtain ⟨tk₄, htk₄, hfds₄, -⟩ := h₄.fds htask₂
  exact ⟨by decide, fun hno => absurd hdelivers hno, fun _ => ⟨tk, tk₄, htk, htk₄, hfds₄⟩⟩

/-- The result of a call is negative exactly if nothing was delivered, and otherwise the
response was. -/
def TellsTruth (s s' : State) (fd ret : ℤ) : Prop :=
  (ret < 0 ↔ NothingDelivered s s') ∧ (0 ≤ ret → Delivered s s' fd)

/-- **`respond` tells the truth** exactly where it delivers nothing. -/
theorem respond_truth_iff (s : State) (fd : ℤ) (len buf : ℕ) (ret : ℤ) (s' : State)
    (hret : respond s fd len buf = .ok (ret, s')) :
    TellsTruth s s' fd ret ↔ ¬Delivers s fd len buf := by
  obtain ⟨hneg, hnot, hdone⟩ := (respond_cases s fd len buf).of_ok hret
  constructor
  · intro htruth hdelivers
    obtain ⟨tk, tk', htk, htk', hfds⟩ := hdone hdelivers
    -- the descriptor was in use, and is not any more
    have hsame := (htruth.1.1 hneg).task
    rw [hsame, getTask_ok htk, Option.some.injEq] at htk'
    subst htk'
    rw [Delivers, exists_read htk] at hdelivers
    obtain ⟨a, ha, -⟩ := hdelivers
    have hused := (handleBelow_get ha).2
    have hfree : tk.fds[fd.toNat]? = some none := by
      rw [hfds, List.getElem?_set_self (List.getElem?_eq_some_iff.1 hused).1]
    rw [hused] at hfree
    cases hfree
  · intro hno
    exact ⟨⟨fun _ => hnot hno, fun _ => hneg⟩, fun hpos => absurd hneg (not_lt.2 hpos)⟩

/-- The init task opens port 20, connects to it, sends a request and takes it. -/
def serveSelf : List Action :=
  [.schedule, .call (.sendpage 0 0 0x400000 0x1000), .call (.openPort 20),
    .call (.portConnect 20 0 0), .call (.popRequest 0 0x400000), .call (.request 1 0 0),
    .call (.popRequest 2 0x400000)]

/-- What a descriptor of a task holds. -/
def slotOf (s : State) (t fd : ℕ) : Option (Option ℕ) := (s.task t).bind fun tk => tk.fds[fd]?

/-- The response to itself goes to the cookie, and `respond` returns `-EFAULT`. -/
theorem respond_self : ∃ s s', run (bootWith [0x10000, 0x11000]) serveSelf = .ok s ∧
    respond s 4 0 0x400000 = .ok (-EFAULT, s') ∧ slotOf s s.current 4 = some (some 7) ∧
    slotOf s' s.current 4 = some none := by
  have hrun : (run (bootWith [0x10000, 0x11000]) serveSelf).toOption.bind (fun s =>
      (respond s 4 0 0x400000).toOption.bind fun r =>
        some (r.1, slotOf s s.current 4, slotOf r.2 s.current 4)) =
        some (-EFAULT, some (some 7), some none) := by
    decide +kernel
  obtain ⟨s, hs, hcall⟩ := exists_of_bind hrun
  obtain ⟨⟨ret, s'⟩, hret, hslots⟩ := exists_of_bind hcall
  simp only [Option.some.injEq, Prod.mk.injEq] at hslots
  obtain ⟨rfl, hbefore, hafter⟩ := hslots
  exact ⟨s, s', hs, hret, hbefore, hafter⟩

theorem respond_truth_iff_self : ∃ s s', run (bootWith [0x10000, 0x11000]) serveSelf = .ok s ∧
    respond s 4 0 0x400000 = .ok (-EFAULT, s') ∧
    (TellsTruth s s' 4 (-EFAULT) ↔ ¬Delivers s 4 0 0x400000) := by
  obtain ⟨s, s', hs, hret, -⟩ := respond_self
  exact ⟨s, s', hs, hret, respond_truth_iff s 4 0 0x400000 _ s' hret⟩

/-- The result is negative, and the descriptor is free. -/
theorem respond_fails : ¬∀ (free : List ℕ) (l : List Action) (s : State),
    run (bootWith free) l = .ok s → ∀ (fd : ℤ) (len buf : ℕ) (ret : ℤ) (s' : State),
      respond s fd len buf = .ok (ret, s') → TellsTruth s s' fd ret := by
  intro h
  obtain ⟨s, s', hs, hret, hbefore, hafter⟩ := respond_self
  have hnothing := ((h _ _ s hs 4 0 0x400000 _ s' hret).1.1 (by decide)).task
  rw [slotOf, hnothing, ← slotOf, hbefore] at hafter
  cases hafter

end SadOS.Kernel
