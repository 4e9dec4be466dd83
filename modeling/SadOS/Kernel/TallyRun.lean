import SadOS.Kernel.Leaks

/-!
# Properties that go with the counter, along a run

Every system call keeps such a property and gives the counter back as it found it, but for
those that leak: these keep one count.

## Main results

* `Tally.Holds.syscall` — the system calls.
* `Tally.Holds.step` — the steps of the machine.
-/

namespace SadOS.Kernel

open Mm (leak leak_of_not fdtableInsert)

namespace Tally.Holds

variable {T : Tally} {d k : ℕ} {s s' : State}

/-- A count that is not kept. -/
theorem not_leak {p : Prop} (h : T.Holds d s) (hp : ¬p) : T.Holds (d + leak p) s := by
  rw [leak_of_not hp]
  exact h

/-! ## Services -/

theorem memPortRequest (h : T.Holds d s) (a len buf : ℕ) :
    Safely AnyFault (fun r => T.Holds (d + leak (Mm.MemLacksRoom s.mm len buf)) r.2)
      (memPortRequest s a len buf) := by
  simp only [Kernel.memPortRequest, safely_bind]
  apply (h.runMm_leak (Mm.lifts_memPortRequest _ _ _)).mono
  rintro ⟨⟨ret, md⟩, s₁⟩ h₁
  cases md with
  | none => exact h₁
  | some md =>
    simp only [safely_bind, safely_pure]
    apply reads
    intro r
    exact h₁.setReq a _

theorem memPortGetResponse (h : T.Holds d s) (a : ℕ) :
    Safely AnyFault (fun r => T.Holds d r.2) (memPortGetResponse s a) := by
  simp only [Kernel.memPortGetResponse, safely_bind]
  apply reads
  intro r
  split
  · exact h.setReq a _
  · exact h.setReq a _
  · trivial

theorem portioRequest (h : T.Holds d s) (a len buf : ℕ) :
    Safely AnyFault (fun r => T.Holds d r.2) (portioRequest s a len buf) := by
  unfold Kernel.portioRequest
  split
  · exact h
  simp only [safely_bind]
  apply (h.runMm (Mm.lifts_copyFromUserSimple _ _ _)).mono
  rintro ⟨⟨ret, bytes⟩, s₁⟩ h₁
  dsimp only
  split
  · exact h₁
  simp only [safely_bind]
  apply reads
  intro r
  split
  · exact h₁.setReq a _
  split
  · exact h₁.setReq a _
  · exact h₁.setReq a _

theorem intPortConnect (h : T.Holds d s) (a len buf : ℕ) :
    Safely AnyFault (fun r => T.Holds d r.2) (intPortConnect s a len buf) := by
  unfold Kernel.intPortConnect
  split
  · exact h
  simp only [safely_bind]
  apply (h.runMm (Mm.lifts_copyFromUserSimple _ _ _)).mono
  rintro ⟨⟨ret, bytes⟩, s₁⟩ h₁
  dsimp only
  split
  · exact h₁
  split
  · exact h₁
  simp only [safely_bind, safely_pure]
  apply reads
  intro r
  exact (h₁.setReq a _).linkReq a _

theorem intPortAvailable (h : T.Holds d s) (a : ℕ) (r : Request) (rw : ℕ) :
    Safely AnyFault (fun r => T.Holds d r.2) (intPortAvailable s a r rw) := by
  unfold Kernel.intPortAvailable
  split
  · exact h
  split
  · exact h.setReq a _
  · trivial

theorem intPortDup (h : T.Holds d s) (old : Request) (new : ℕ) :
    Safely AnyFault (fun r => T.Holds d r.2) (intPortDup s old new) := by
  unfold Kernel.intPortDup
  split
  · simp only [safely_bind, safely_pure]
    apply reads
    intro r
    exact (h.setReq new _).linkReq new _
  · trivial

/-! ## Ports of user programs -/

theorem mapPayload (h : T.Holds d s) (len buf : ℕ) :
    Safely AnyFault (fun r => T.Holds d r.2) (mapPayload s len buf) := by
  unfold Kernel.mapPayload
  split
  · simp only [safely_bind]
    apply (h.runMm (Mm.lifts_mapFromUser _ _ _)).mono
    rintro ⟨plh, s₁⟩ h₁
    cases plh <;> exact h₁
  · exact h

theorem freePayload (h : T.Holds d s) (plh : Option ℕ) :
    Safely AnyFault (T.Holds d) (freePayload s plh) := by
  cases plh with
  | none => exact h
  | some plh => exact h.execMm (Mm.lifts_pageListFree _ _)

theorem newMessage (h : T.Holds d s) (plh : Option ℕ) (clientReq : ℕ) :
    Safely AnyFault (fun r => T.Holds d r.2) (newMessage s plh clientReq) := by
  simp only [Kernel.newMessage, safely_bind, safely_pure]
  apply reads
  intro tk
  apply (h.alloc _).mono
  intro r hr
  exact hr.setBody r.1 _

theorem notify (h : T.Holds d s) (r : Request) (waited : Bool) :
    Safely AnyFault (T.Holds d) (notify s r waited) := by
  unfold Kernel.notify
  split
  · exact h.wakeUp _
  · exact h

theorem uportConnect (h : T.Holds d s) (n a len buf : ℕ) :
    Safely AnyFault (fun r => T.Holds d r.2) (uportConnect s n a len buf) := by
  simp only [Kernel.uportConnect, safely_bind]
  apply (h.mapPayload len buf).mono
  rintro ⟨plh, s₁⟩ h₁
  cases plh with
  | none => exact h₁
  | some plh =>
    simp only [safely_bind]
    apply (h₁.newMessage plh a).mono
    rintro ⟨m, s₂⟩ h₂
    dsimp only
    split
    · trivial
    simp only [safely_bind, safely_pure]
    apply reads
    intro preq
    apply reads
    intro up
    apply reads
    intro r
    apply ((h₂.setReq a _).enqueue up m).mono
    intro s₃ h₃
    exact h₃.notify preq _

theorem uportRequest (h : T.Holds d s) (a c len buf : ℕ) :
    Safely AnyFault (fun r => T.Holds d r.2) (uportRequest s a c len buf) := by
  simp only [Kernel.uportRequest, safely_bind]
  apply reads
  intro r
  split
  · exact h
  split
  · exact h
  split
  · trivial
  simp only [safely_bind]
  apply reads
  intro sreq
  apply (h.mapPayload len buf).mono
  rintro ⟨plh, s₁⟩ h₁
  cases plh with
  | none => exact h₁
  | some plh =>
    simp only [safely_bind, safely_pure]
    apply (h₁.newMessage plh c).mono
    rintro ⟨m, s₂⟩ h₂
    apply reads
    intro rc
    apply reads
    intro sr
    apply reads
    intro up
    apply ((h₂.setReq c _).enqueue up m).mono
    intro s₃ h₃
    exact h₃.notify sr _

theorem uportGetResponse (h : T.Holds d s) (r : Request) :
    Safely AnyFault (fun r' => T.Holds (d + leak (ResponseLacksRoom s r)) r'.2)
      (uportGetResponse s r) := by
  unfold Kernel.uportGetResponse ResponseLacksRoom
  split
  · exact h.not_leak fun hr => absurd hr.1 ‹_›
  split
  · exact h.not_leak fun hr => absurd ‹_› hr.2.1
  split
  · exact h.not_leak fun hr => absurd ‹_› hr.2.2.1
  rename_i htype hclosed hpending
  rw [and_iff_right (not_not.1 htype), and_iff_right hclosed, and_iff_right hpending]
  simp only [safely_bind]
  apply reads_eq
  intro a ha
  rw [exists_read ha]
  apply reads_eq
  intro c hc
  rw [exists_read hc]
  cases hplh : c.response with
  | none =>
    apply h.not_leak
    simp
  | some plh =>
    simp only [Option.some.injEq, exists_eq_left', safely_bind]
    apply (h.runMm_leak (Mm.lifts_mapToUser _ _)).mono
    rintro ⟨vaddr, s₁⟩ h₁
    dsimp only
    split
    · exact h₁
    simp only [safely_bind, safely_pure]
    apply reads
    intro head
    apply (h₁.execMm (Mm.lifts_pageListFree _ _)).mono
    intro s₂ h₂
    apply reads
    intro owner
    exact h₂.free _ a

theorem uportDup (h : T.Holds d s) (old : Request) (new : ℕ) :
    Safely AnyFault (fun r => T.Holds d r.2) (uportDup s old new) := by
  unfold Kernel.uportDup
  split
  · exact h
  split
  · exact h
  simp only [safely_bind, safely_pure]
  apply reads
  intro r
  apply reads
  intro sreq
  apply reads
  intro sr
  apply reads
  intro up
  exact (h.setReq new _).linkReq new _

theorem uportUserClose (h : T.Holds d s) (a : ℕ) :
    Safely AnyFault (T.Holds d) (uportUserClose s a) := by
  simp only [Kernel.uportUserClose, safely_bind]
  apply reads
  intro r
  split
  · simp only [safely_bind]
    apply reads
    intro m
    apply reads
    intro msg
    apply (h.unqueue m).mono
    intro s₁ h₁
    apply (h₁.freePayload _).mono
    intro s₂ h₂
    apply reads
    intro client
    apply reads
    intro task
    exact h₂.free _ m
  split
  · exact h.unlinkReq a
  · simp only [safely_bind]
    apply reads
    intro ca
    apply reads
    intro c
    split
    · simp only [safely_bind]
      apply (h.freePayload _).mono
      intro s₁ h₁
      apply reads
      intro owner
      exact h₁.free _ ca
    · exact h.setBody ca _
  · trivial

theorem closeClient (h : T.Holds d s) (a : ℕ) : Safely AnyFault (T.Holds d) (closeClient s a) := by
  simp only [Kernel.closeClient, safely_bind]
  apply reads
  intro r
  exact (h.setReq a _).notify r _

theorem dropConnect (h : T.Holds d s) (m : ℕ) : Safely AnyFault (T.Holds d) (dropConnect s m) := by
  simp only [Kernel.dropConnect, safely_bind]
  apply reads
  intro msg
  apply (h.freePayload _).mono
  intro s₁ h₁
  apply reads
  intro client
  apply reads
  intro task
  apply (h₁.closeClient _).mono
  intro s₂ h₂
  exact h₂.free _ m

theorem dropMessage (h : T.Holds d s) (m : ℕ) : Safely AnyFault (T.Holds d) (dropMessage s m) := by
  simp only [Kernel.dropMessage, safely_bind]
  apply reads
  intro msg
  apply (h.freePayload _).mono
  intro s₁ h₁
  apply reads
  intro client
  apply reads
  intro task
  exact h₁.free _ m

theorem dropClient (h : T.Holds d s) (a : ℕ) : Safely AnyFault (T.Holds d) (dropClient s a) := by
  simp only [Kernel.dropClient, safely_bind]
  apply reads
  intro r
  apply ((h.setReq a _).unlinkReq a).mono
  intro s₁ h₁
  exact h₁.notify r _

theorem uportServerClose (h : T.Holds d s) (a : ℕ) :
    Safely AnyFault (T.Holds d) (uportServerClose s a) := by
  simp only [Kernel.uportServerClose, safely_bind]
  apply reads
  intro r
  apply reads
  intro tk
  split
  · simp only [safely_bind]
    apply reads
    intro ua
    apply reads
    intro up
    apply (h.foldlM (fun _ m h₁ => h₁.dropConnect m) _).mono
    intro s₁ h₁
    apply reads
    intro n
    have hport : T.Holds d { s₁ with
        port := Function.update s₁.port n none, uport := Function.update s₁.uport n none } :=
      h₁.same rfl rfl rfl rfl
    exact hport.free _ ua
  · simp only [safely_bind]
    apply reads
    intro ua
    apply reads
    intro up
    apply (h.foldlM (fun _ b h₁ => h₁.dropClient b) _).mono
    intro s₁ h₁
    apply (h₁.foldlM (fun _ m h₂ => h₂.dropMessage m) _).mono
    intro s₂ h₂
    exact h₂.free _ ua
  · simp only [safely_bind]
    apply reads
    intro ca
    apply reads
    intro c
    apply Safely.mono (Q := T.Holds d)
    · split
      · exact h.closeClient _
      · exact h
    intro s₁ h₁
    split
    · trivial
    · exact h₁.free _ ca
  · trivial

/-! ## Operations of ports and handles -/

theorem newReq (h : T.Holds d s) (tk : Task) (type : ReqType) :
    Safely AnyFault (fun r => T.Holds d r.2) (newReq s tk type) := by
  simp only [Kernel.newReq, safely_bind, safely_pure]
  apply (h.alloc _).mono
  intro r hr
  exact hr.setReq r.1 _

theorem connect (h : T.Holds d s) (n : ℤ) (a len buf : ℕ) :
    Safely AnyFault (fun r => T.Holds
        (d + leak (portAt s n = .ok (some .mem) ∧ Mm.MemLacksRoom s.mm len buf)) r.2)
      (connect s n a len buf) := by
  simp only [Kernel.connect, portAt, safely_bind]
  apply reads_eq
  intro i hi
  simp only [hi, ok_bind, pure_eq_ok, Except.ok.injEq]
  have hplain : ∀ ops, Safely AnyFault (fun r => T.Holds d r.2) (do
      let r ← s.getReq a
      return ((0 : ℤ), s.setReq a { r with data := .null, rops := some ops })) := by
    intro ops
    simp only [safely_bind, safely_pure]
    apply reads
    intro r
    exact h.setReq a _
  cases hport : s.port i with
  | none => trivial
  | some ops =>
    by_cases hops : ops = .mem
    · rw [hops, and_iff_right rfl]
      exact h.memPortRequest _ _ _
    rw [leak_of_not fun hr => hops (Option.some.inj hr.1)]
    cases ops with
    | uport => exact h.uportConnect _ _ _ _
    | mem => exact absurd rfl hops
    | tarfs => exact hplain _
    | bda => exact hplain _
    | portio => exact hplain _
    | int => exact h.intPortConnect _ _ _

theorem ropsRequest (h : T.Holds d s) (ops : ReqOps) (a c len buf : ℕ) :
    Safely AnyFault (fun r => T.Holds
        (d + leak (ops = .mem ∧ Mm.MemLacksRoom s.mm len buf)) r.2)
      (ropsRequest s ops a c len buf) := by
  by_cases hops : ops = .mem
  · rw [hops, and_iff_right rfl]
    exact h.memPortRequest _ _ _
  rw [leak_of_not fun hr => hops hr.1]
  cases ops with
  | uportClient => exact h.uportRequest _ _ _ _
  | mem => exact absurd rfl hops
  | portio => exact h.portioRequest _ _ _
  | uportServer | tarfs | bda | int => trivial

theorem ropsGetResponse (h : T.Holds d s) (ops : ReqOps) (a : ℕ) (r : Request) :
    Safely AnyFault (fun r' => T.Holds
        (d + leak (ops = .uportClient ∧ ResponseLacksRoom s r)) r'.2)
      (ropsGetResponse s ops a r) := by
  by_cases hops : ops = .uportClient
  · rw [hops, and_iff_right rfl]
    exact h.uportGetResponse r
  rw [leak_of_not fun hr => hops hr.1]
  cases ops with
  | uportClient => exact absurd rfl hops
  | mem => exact h.memPortGetResponse a
  | tarfs =>
    simp only [Kernel.ropsGetResponse, safely_bind, safely_pure]
    exact h.runMm (lifts_tarfsGetResponse _ _ _)
  | bda =>
    simp only [Kernel.ropsGetResponse, safely_bind, safely_pure]
    exact h.runMm (lifts_bdaGetResponse _)
  | portio =>
    simp only [Kernel.ropsGetResponse, portioGetResponse]
    split
    · exact h
    split
    · split <;> exact h
    · trivial
  | uportServer | int => trivial

theorem ropsDrop (h : T.Holds d s) (ops : ReqOps) (a : ℕ) :
    Safely AnyFault (T.Holds d) (ropsDrop s ops a) := by
  cases ops with
  | uportServer => exact h.uportServerClose a
  | uportClient => exact h.uportUserClose a
  | int => exact h.unlinkReq a
  | mem | tarfs | bda | portio => exact h

theorem ropsDup (h : T.Holds d s) (ops : ReqOps) (old : Request) (new : ℕ) :
    Safely AnyFault (fun r => T.Holds d r.2) (ropsDup s ops old new) := by
  cases ops with
  | uportClient => exact h.uportDup _ _
  | int => exact h.intPortDup _ _
  | uportServer | mem | tarfs | bda | portio => exact h

theorem ropsAvailable (h : T.Holds d s) (ops : ReqOps) (a : ℕ) (r : Request) (rw : ℕ) :
    Safely AnyFault (fun r => T.Holds d r.2) (ropsAvailable s ops a r rw) := by
  cases ops with
  | uportServer =>
    simp only [Kernel.ropsAvailable, safely_bind, safely_pure]
    exact reads fun _ => h
  | uportClient =>
    simp only [Kernel.ropsAvailable, safely_bind, safely_pure]
    exact reads fun _ => h
  | int =>
    simp only [Kernel.ropsAvailable, safely_bind, safely_pure]
    exact h.intPortAvailable a r rw
  | mem | tarfs | bda | portio => exact h

/-! ## Calls of clients -/

theorem freeReq (h : T.Holds d s) (a : ℕ) : Safely AnyFault (T.Holds d) (freeReq s a) := by
  simp only [Kernel.freeReq, safely_bind]
  apply reads
  intro tk
  exact h.free _ a

theorem clearFd (h : T.Holds d s) (fd : ℕ) : Safely AnyFault (T.Holds d) (clearFd s fd) := by
  simp only [Kernel.clearFd, safely_bind, safely_pure]
  apply reads
  intro tk
  exact h.setFds _

/-- The roll-back of a call that has made a handle. -/
theorem rollBack (h : T.Holds d s) (a fd : ℕ) :
    Safely AnyFault (fun s₁ => Safely AnyFault (T.Holds d) (Kernel.clearFd s₁ fd))
      (Kernel.freeReq s a) :=
  (h.freeReq a).mono fun _ h₁ => h₁.clearFd fd

theorem connectHandle (h : T.Holds d s) (len buf : ℕ) :
    Safely AnyFault (fun r => T.Holds d r.2) (connectHandle s len buf) := by
  simp only [Kernel.connectHandle, safely_bind]
  apply reads
  intro ok
  split
  · exact h
  simp only [safely_bind]
  apply reads
  intro tk
  apply (h.newReq tk _).mono
  rintro ⟨a, s₁⟩ h₁
  dsimp only
  split
  · simp only [safely_bind, safely_pure]
    exact h₁.freeReq a
  · exact h₁.setFds _

theorem portConnect (h : T.Holds d s) (n : ℤ) (len buf : ℕ) :
    Safely AnyFault (fun r => T.Holds (d + leak (ConnectLeaks s n len buf)) r.2)
      (portConnect s n len buf) := by
  simp only [Kernel.portConnect, ConnectLeaks, safely_bind]
  apply reads_eq
  intro ops hops
  split
  · rename_i hnone
    apply h.not_leak
    rw [hops, hnone]
    rintro ⟨hport, -⟩
    cases hport
  simp only [safely_bind]
  apply ((h.locked fun h₁ => h₁.connectHandle len buf).and (connectHandle_opens s len buf)).mono
  rintro ⟨hd, s₁⟩ ⟨h₁, herror, hopens⟩
  cases hd with
  | error ret => exact h₁.not_leak fun hr => herror ret rfl hr.2.1
  | ok x =>
    obtain ⟨hopen, hmm, hport⟩ := hopens x rfl
    have hiff : portAt s₁ n = .ok (some .mem) ∧ Mm.MemLacksRoom s₁.mm len buf ↔
        portAt s n = .ok (some .mem) ∧ Opens s len buf ∧ Mm.MemLacksRoom s.mm len buf := by
      rw [and_iff_right hopen, hmm, portAt, portAt, hport]
    simp only [safely_bind]
    rw [← hiff]
    apply (h₁.connect n x.1 len buf).mono
    rintro ⟨ret, s₂⟩ h₂
    dsimp only
    split
    · simp only [safely_bind, safely_pure]
      exact h₂.rollBack x.1 x.2
    · exact h₂

theorem requestOn (h : T.Holds d s) (tk : Task) (ops : ReqOps) (a len buf : ℕ) :
    Safely AnyFault (fun r => T.Holds (d + leak (none ∈ tk.fds ∧ ops = .mem ∧
        Mm.MemLacksRoom s.mm len buf)) r.2)
      (requestOn s tk ops a len buf) := by
  simp only [Kernel.requestOn, safely_bind]
  apply ((h.newReq tk _).and (newReq_rest s tk _)).mono
  rintro ⟨c, s₁⟩ ⟨h₁, hmm, -⟩
  dsimp only
  split
  · rename_i hfull
    simp only [safely_bind, safely_pure]
    rw [leak_of_not fun hr => fdtableInsert_eq_none.1 hfull hr.1]
    exact h₁.freeReq c
  · rename_i fd fds hins
    have hfree := free_of_fdtableInsert hins
    have hset : (s₁.setFds fds).mm = s.mm := (setFds_rest s₁ fds).1.trans hmm
    simp only [safely_bind]
    rw [and_iff_right hfree, ← hset]
    apply ((h₁.setFds fds).ropsRequest ops a c len buf).mono
    rintro ⟨ret, s₂⟩ h₂
    dsimp only
    split
    · simp only [safely_bind, safely_pure]
      exact h₂.rollBack a _
    · exact h₂

theorem request (h : T.Holds d s) (rd : ℤ) (len buf : ℕ) :
    Safely AnyFault (fun r => T.Holds (d + leak (RequestLeaks s rd len buf)) r.2)
      (request s rd len buf) := by
  unfold RequestLeaks
  apply h.locked
  intro h₁
  rw [Nat.add_right_comm]
  simp only [safely_bind]
  apply reads_eq
  intro tk (htk : s.cur = .ok tk)
  rw [exists_read htk]
  apply reads_eq
  intro f hf
  cases f with
  | none => exact h₁.not_leak (not_exists_handle hf)
  | some a =>
    rw [exists_handle hf]
    simp only [safely_bind]
    apply reads_eq
    intro r (hr : s.getReq a = .ok r)
    rw [exists_read hr]
    split
    · exact h₁.not_leak fun hl => absurd hl.1 ‹_›
    rename_i htype
    simp only [safely_bind]
    apply reads_eq
    intro ops hops
    have hops := ropsOf_ok hops
    split
    · rename_i hhas
      apply h₁.not_leak
      rintro ⟨-, hmem, -⟩
      rw [hops, Option.some.injEq] at hmem
      rw [hmem] at hhas
      cases hhas
    simp only [safely_bind]
    apply reads_eq
    intro ok (hok : validBuffer s len buf = .ok ok)
    split
    · exact h₁.not_leak fun hl => test_fails hok ‹_› hl.2.2.1
    · rename_i hvalid
      have hiff : r.type = .request ∧ r.rops = some .mem ∧ validBuffer s len buf = .ok true ∧
          none ∈ tk.fds ∧ Mm.MemLacksRoom s.mm len buf ↔
          none ∈ tk.fds ∧ ops = .mem ∧ Mm.MemLacksRoom (disableInterrupts s).mm len buf := by
        rw [and_iff_right (not_not.1 htype), hops, Option.some.injEq,
          and_iff_right (test_passes hok hvalid), and_left_comm]
        exact Iff.rfl
      rw [hiff]
      exact h₁.requestOn tk ops a len buf

theorem getResponse (h : T.Holds d s) (cookie : ℤ) (res : ℕ) :
    Safely AnyFault (fun r => T.Holds (d + leak (ResponseLeaks s cookie res)) r.2)
      (getResponse s cookie res) := by
  unfold ResponseLeaks
  apply h.locked
  intro h₁
  rw [Nat.add_right_comm]
  simp only [safely_bind]
  apply reads_eq
  intro ok hok
  have hok : Mm.validateRange s.mm res 16 = .ok ok := liftMm_ok hok
  split
  · exact h₁.not_leak fun hl => test_fails hok ‹_› hl.1
  rename_i hvalid
  rw [and_iff_right (test_passes hok hvalid)]
  simp only [safely_bind]
  apply reads_eq
  intro tk (htk : s.cur = .ok tk)
  rw [exists_read htk]
  apply reads_eq
  intro f hf
  cases f with
  | none => exact h₁.not_leak (not_exists_handle hf)
  | some a =>
    rw [exists_handle hf]
    simp only [safely_bind]
    apply reads_eq
    intro r (hr : s.getReq a = .ok r)
    rw [exists_read hr]
    apply reads_eq
    intro ops hops
    rw [ropsOf_ok hops, Option.some.injEq]
    split
    · rename_i hhas
      apply h₁.not_leak
      rintro ⟨rfl, -⟩
      cases hhas
    simp only [safely_bind]
    have hiff : ResponseLacksRoom s r ↔ ResponseLacksRoom (disableInterrupts s) r := Iff.rfl
    rw [hiff]
    apply (h₁.ropsGetResponse ops a r).mono
    rintro ⟨⟨ret, xres⟩, s₂⟩ h₂
    dsimp only
    split
    · exact h₂
    simp only [safely_bind]
    apply Safely.mono (Q := T.Holds _) (R := fun s₃ => _)
    · split
      · simp only [safely_bind]
        apply (h₂.clearFd _).mono
        intro s₃ h₃
        exact h₃.freeReq a
      · exact h₂
    intro s₃ h₃
    exact h₃.runMm (Mm.lifts_copyToUserSimple _ _ _ _)

/-! ## Calls of servers -/

theorem registerPort (h : T.Holds d s) (n : ℤ) :
    Safely AnyFault (fun r => T.Holds d r.2) (registerPort s n) := by
  simp only [Kernel.registerPort, safely_bind]
  apply reads
  intro i
  split
  · exact h
  · exact h.same rfl rfl rfl rfl

theorem openPort (h : T.Holds d s) (n : ℤ) :
    Safely AnyFault (fun r => T.Holds d r.2) (openPort s n) := by
  apply h.locked
  intro h₁
  simp only [safely_bind]
  apply (h₁.registerPort n).mono
  rintro ⟨ret, s₂⟩ h₂
  dsimp only
  split
  · exact h₂
  simp only [safely_bind]
  apply reads
  intro i
  apply reads
  intro tk
  apply (h₂.alloc _).mono
  rintro ⟨a, s₃⟩ h₃
  dsimp only
  split
  · simp only [safely_bind, safely_pure]
    exact h₃.freeReq a
  simp only [safely_bind, safely_pure]
  apply ((h₃.setFds _).alloc _).mono
  rintro ⟨u, s₄⟩ h₄
  have h₅ := fun r => (h₄.setReq a r).setBody u (.uport ⟨[], n⟩)
  apply Safely.mono (Q := fun r => T.Holds (d + 1) r.2)
  · apply registerPort
    exact (h₅ _).same rfl rfl rfl rfl
  rintro ⟨ret', s₆⟩ h₆
  apply h₆.foldlM
  intro s₇ t h₇
  apply wakeUp
  exact h₇.same rfl rfl rfl rfl

theorem acceptMessage (h : T.Holds d s) (type : ReqType) (m : ℕ) (msg : Message) (sreq : ℕ) :
    Safely AnyFault (T.Holds d) (acceptMessage s type m msg sreq) := by
  simp only [Kernel.acceptMessage, safely_bind]
  apply reads
  intro client
  apply reads
  intro clientTask
  apply (h.unqueue m).mono
  intro s₁ h₁
  apply (h₁.freePayload _).mono
  intro s₂ h₂
  apply (h₂.free _ m).mono
  intro s₃ h₃
  apply reads
  intro tk
  apply (h₃.alloc _).mono
  rintro ⟨x, s₄⟩ h₄
  apply Safely.mono (Q := T.Holds d)
  · dsimp only
    split
    · simp only [safely_bind, safely_pure]
      apply ((h₄.setBody x _).linkReq _ _).mono
      intro s₅ h₅
      apply reads
      intro creq
      exact (h₅.setReq sreq _).setReq _ _
    · simp only [safely_bind, safely_pure]
      apply reads
      intro creq
      exact ((h₄.setBody x _).setReq sreq _).setReq _ _
  intro s₅ h₅
  apply reads
  intro creq
  exact h₅.notify creq _

theorem popMessage (h : T.Holds d s) (type : ReqType) (m buf : ℕ) :
    Safely AnyFault (fun r => T.Holds (d + leak (∃ tk, s.cur = .ok tk ∧ none ∈ tk.fds ∧
        MessageLacksRoom s m)) r.2)
      (popMessage s type m buf) := by
  simp only [Kernel.popMessage, safely_bind]
  apply reads_eq
  intro tk htk
  rw [exists_read htk]
  apply ((h.alloc _).and (alloc_rest s _)).mono
  rintro ⟨sreq, s₁⟩ ⟨h₁, hmm, -, hmsg₁⟩
  dsimp only
  split
  · rename_i hfull
    exact h₁.not_leak fun hl => fdtableInsert_eq_none.1 hfull hl.1
  rename_i fd fds hins
  have hfree := free_of_fdtableInsert hins
  obtain ⟨hmm₂, -, hobjs₂⟩ := setFds_rest s₁ fds
  have h₂ := h₁.setFds fds
  simp only [safely_bind]
  apply reads_eq
  intro msg hmsg
  -- the new object is not the message, which was read after it
  have hmsg : s.getMsg m = .ok msg := by
    apply hmsg₁
    rwa [State.getMsg, hobjs₂] at hmsg
  rw [and_iff_right hfree, MessageLacksRoom, exists_read hmsg]
  apply Safely.mono (Q := fun r => T.Holds (d + leak (∃ plh, msg.plh = some plh ∧
    Mm.PlistLacksRoom s.mm s.mm.current plh)) r.2)
  · split
    · rename_i plh hplh
      rw [hplh]
      simp only [Option.some.injEq, exists_eq_left', safely_bind, safely_pure]
      have hrun := h₂.runMm_leak (Mm.lifts_mapToUser (s₁.setFds fds).mm plh)
      rw [hmm₂, hmm] at hrun
      rw [hmm₂, hmm]
      apply hrun.mono
      intro r hr
      exact reads fun _ => hr
    · rename_i hplh
      apply h₂.not_leak
      simp [hplh]
  rintro ⟨⟨vaddr, len⟩, s₃⟩ h₃
  dsimp only
  split
  · exact h₃
  simp only [safely_bind]
  apply reads
  intro client
  apply reads
  intro clientTask
  apply (h₃.runMm (Mm.lifts_copyToUserSimple _ _ _ _)).mono
  rintro ⟨ret, s₄⟩ h₄
  dsimp only
  split
  · simp only [safely_bind, safely_pure]
    exact h₄.execMm (Mm.lifts_removeVmaRange _ _ _ _)
  · simp only [safely_bind, safely_pure]
    exact h₄.acceptMessage _ _ _ _

theorem popRequest (h : T.Holds d s) (rd : ℤ) (buf : ℕ) :
    Safely AnyFault (fun r => T.Holds (d + leak (PopLeaks s rd)) r.2) (popRequest s rd buf) := by
  unfold PopLeaks
  apply h.locked
  intro h₁
  rw [Nat.add_right_comm]
  simp only [safely_bind]
  apply reads_eq
  intro tk (htk : s.cur = .ok tk)
  rw [exists_read htk]
  apply reads_eq
  intro f hf
  cases f with
  | none => exact h₁.not_leak (not_exists_handle hf)
  | some a =>
    rw [exists_handle hf]
    simp only [safely_bind]
    apply reads_eq
    intro r (hr : s.getReq a = .ok r)
    rw [exists_read hr]
    split
    · rename_i htype
      exact h₁.not_leak fun hl => hl.1.elim htype.1 htype.2
    rename_i htype
    have htype : r.type = .port ∨ r.type = .portReq := by
      by_contra hne
      exact htype (not_or.1 hne)
    rw [and_iff_right htype]
    simp only [safely_bind]
    apply reads_eq
    intro q hq
    rw [exists_read hq]
    apply reads_eq
    intro l (hl : s.getIncoming q = .ok l)
    rw [exists_read hl]
    cases l with
    | cons m rest =>
      have hiff : (∃ m' rest', m :: rest = m' :: rest' ∧ none ∈ tk.fds ∧ MessageLacksRoom s m') ↔
          ∃ tk, (disableInterrupts s).cur = .ok tk ∧ none ∈ tk.fds ∧
            MessageLacksRoom (disableInterrupts s) m := by
        rw [exists_read (x := (disableInterrupts s).cur) htk]
        constructor
        · rintro ⟨m', rest', heq, hfree, hlack⟩
          obtain ⟨rfl, -⟩ := List.cons.inj heq
          exact ⟨hfree, hlack⟩
        · rintro ⟨hfree, hlack⟩
          exact ⟨m, rest, rfl, hfree, hlack⟩
      rw [hiff]
      exact h₁.popMessage _ m buf
    | nil =>
      rw [leak_of_not (by simp)]
      dsimp only
      split
      · exact h₁
      simp only [safely_bind]
      apply reads
      intro u
      split
      · exact h₁
      simp only [safely_bind, safely_pure]
      exact h₁.runMm (Mm.lifts_copyToUserSimple _ _ _ _)

theorem respond (h : T.Holds d s) (fd : ℤ) (len buf : ℕ) :
    Safely AnyFault (fun r => T.Holds d r.2) (respond s fd len buf) := by
  apply h.locked
  intro h₁
  simp only [safely_bind]
  apply reads
  intro tk
  apply reads
  intro f
  cases f with
  | none => exact h₁
  | some a =>
    simp only [safely_bind]
    apply reads
    intro r
    split
    · exact h₁
    simp only [safely_bind]
    apply reads
    intro ca
    apply reads
    intro c
    split
    · exact h₁
    simp only [safely_bind]
    apply reads
    intro cr
    split
    · trivial
    simp only [safely_bind]
    apply (h₁.runMm (Mm.lifts_mapFromUser _ _ _)).mono
    rintro ⟨plh, s₂⟩ h₂
    cases plh with
    | error e => exact h₂
    | ok plh =>
      simp only [safely_bind, safely_pure]
      apply (h₂.clearFd _).mono
      intro s₃ h₃
      apply (h₃.freeReq a).mono
      intro s₄ h₄
      exact (h₄.setBody ca _).notify cr _

/-! ## Calls of both -/

theorem close (h : T.Holds d s) (fd : ℤ) :
    Safely AnyFault (fun r => T.Holds d r.2) (close s fd) := by
  simp only [Kernel.close, safely_bind]
  apply reads
  intro tk
  apply reads
  intro f
  cases f with
  | none => exact h
  | some a =>
    simp only [safely_bind, safely_pure]
    apply (h.clearFd _).mono
    intro s₁ h₁
    apply reads
    intro r
    apply reads
    intro ops
    apply (h₁.ropsDrop ops a).mono
    intro s₂ h₂
    exact h₂.freeReq a

theorem dup0 (h : T.Holds d s) (oldFd newFd : ℤ) :
    Safely AnyFault (fun r => T.Holds d r.2) (dup0 s oldFd newFd) := by
  simp only [Kernel.dup0, safely_bind]
  apply reads
  intro tk
  apply reads
  intro f
  cases f with
  | none => exact h
  | some a =>
    dsimp only
    split
    · exact h
    simp only [safely_bind]
    apply reads
    intro taken
    split
    · exact h
    simp only [safely_bind]
    apply reads
    intro r
    apply (h.newReq tk _).mono
    rintro ⟨new, s₁⟩ h₁
    split
    · simp only [safely_bind, safely_pure]
      exact h₁.freeReq new
    simp only [safely_bind]
    apply reads
    intro ops
    apply ((h₁.setFds _).ropsDup ops r new).mono
    rintro ⟨ret, s₂⟩ h₂
    dsimp only
    split
    · simp only [safely_bind, safely_pure]
      apply (h₂.clearFd _).mono
      intro s₃ h₃
      exact h₃.freeReq new
    · exact h₂

/-! ## The calls that block -/

theorem fdCheck (h : T.Holds d s) (rw i : ℕ) (fds : FdSet) :
    Safely AnyFault (fun r => T.Holds d r.2) (fdCheck rw i fds s) := by
  simp only [Kernel.fdCheck, safely_bind]
  apply reads
  intro tk
  apply reads
  intro f
  cases f with
  | none => exact h
  | some a =>
    simp only [safely_bind]
    apply reads
    intro r
    apply reads
    intro ops
    apply (h.ropsAvailable ops a r rw).mono
    rintro ⟨available, s₁⟩ h₁
    cases available with
    | none => exact h₁
    | some b =>
      simp only [safely_bind, safely_pure]
      apply reads
      intro r'
      exact h₁.setReq a _

theorem fdsCheckFrom (h : T.Holds d s) (rw : ℕ) (l : List ℕ) (fds : FdSet) :
    Safely AnyFault (fun r => T.Holds d r.2) (fdsCheckFrom rw l fds s) := by
  induction l generalizing fds s with
  | nil => exact h
  | cons i rest ih =>
    unfold Kernel.fdsCheckFrom
    split
    · exact h
    split
    · exact ih h fds
    simp only [safely_bind]
    apply (h.fdCheck rw i fds).mono
    rintro ⟨⟨ret, fds'⟩, s₁⟩ h₁
    dsimp only
    split
    · exact h₁
    · exact ih h₁ fds'

theorem unwaitAll (h : T.Holds d s) (fds : FdSet) :
    Safely AnyFault (T.Holds d) ((List.range fds.nfds.toNat).foldlM (unwait fds) s) := by
  apply h.foldlM
  intro s₁ i h₁
  unfold unwait
  split
  · exact h₁
  simp only [safely_bind]
  apply reads
  intro tk
  apply reads
  intro f
  cases f with
  | none => exact h₁
  | some a =>
    simp only [safely_bind, safely_pure]
    apply reads
    intro r
    exact h₁.setReq a _

theorem copyFdSet (h : T.Holds d s) (ret : ℤ) (buf : ℕ) (fds : FdSet) :
    Safely AnyFault (fun r => T.Holds d r.2) (copyFdSet s ret buf fds) := by
  unfold Kernel.copyFdSet
  split
  · simp only [safely_bind, safely_pure]
    exact h.runMm (Mm.lifts_copyToUserSimple _ _ _ _)
  · exact h

theorem waitOnReturn (h : T.Holds (d + 1) s) (rbuf wbuf : ℕ) (rfds wfds : FdSet) (ret : ℤ)
    (rfds2 wfds2 : FdSet) :
    Safely AnyFault (fun r => T.Holds d r.2)
      (waitOnReturn s rbuf wbuf rfds wfds ret rfds2 wfds2) := by
  simp only [Kernel.waitOnReturn, safely_bind, safely_pure]
  apply ((h.setState .running).unwaitAll rfds).mono
  intro s₁ h₁
  apply (h₁.unwaitAll wfds).mono
  intro s₂ h₂
  apply (h₂.copyFdSet ret rbuf rfds2).mono
  rintro ⟨ret₁, s₃⟩ h₃
  apply (h₃.copyFdSet ret₁ wbuf wfds2).mono
  rintro ⟨ret₂, s₄⟩ h₄
  exact h₄.enable

theorem waitOnPass (h : T.Holds (d + 1) s) (rbuf wbuf : ℕ) (rfds wfds : FdSet) :
    Safely AnyFault (fun r => T.Holds d r.2) (waitOnPass s rbuf wbuf rfds wfds) := by
  simp only [Kernel.waitOnPass, fdsCheck, safely_bind]
  apply (h.fdsCheckFrom 1 _ rfds).mono
  rintro ⟨⟨ret, rfds2⟩, s₁⟩ h₁
  dsimp only
  split
  · exact h₁.waitOnReturn _ _ _ _ _ _ _
  simp only [safely_bind]
  apply (h₁.fdsCheckFrom 2 _ wfds).mono
  rintro ⟨⟨ret', wfds2⟩, s₂⟩ h₂
  dsimp only
  split
  · exact h₂.waitOnReturn _ _ _ _ _ _ _
  split
  · exact h₂.waitOnReturn _ _ _ _ _ _ _
  simp only [safely_bind, safely_pure]
  exact (h₂.setState .waiting).enable

theorem readFdSet (h : T.Holds d s) (buf : ℕ) :
    Safely AnyFault (fun r => T.Holds d r.2) (readFdSet s buf) := by
  unfold Kernel.readFdSet
  split
  · exact h
  simp only [safely_bind]
  apply (h.runMm (Mm.lifts_copyFromUserSimple _ _ _)).mono
  rintro ⟨⟨ret, bytes⟩, s₁⟩ h₁
  apply reads
  intro tk
  split
  · exact h₁
  split
  · exact h₁
  · exact h₁

theorem waitOn (h : T.Holds d s) (rbuf wbuf : ℕ) :
    Safely AnyFault (fun r => T.Holds d r.2) (waitOn s rbuf wbuf) := by
  simp only [Kernel.waitOn, safely_bind]
  apply (h.disable.readFdSet rbuf).mono
  rintro ⟨rfds, s₁⟩ h₁
  cases rfds with
  | error ret =>
    simp only [safely_bind, safely_pure]
    exact h₁.enable
  | ok rfds =>
    simp only [safely_bind]
    apply (h₁.readFdSet wbuf).mono
    rintro ⟨wfds, s₂⟩ h₂
    cases wfds with
    | error ret =>
      simp only [safely_bind, safely_pure]
      exact h₂.enable
    | ok wfds => exact (h₂.setState .waiting).waitOnPass _ _ _ _

theorem waitOnPortPass (h : T.Holds (d + 1) s) (n : ℤ) :
    Safely AnyFault (fun r => T.Holds d r.2) (waitOnPortPass s n) := by
  simp only [Kernel.waitOnPortPass, safely_bind]
  apply reads
  intro i
  split
  · simp only [safely_bind, safely_pure]
    exact h.enable
  · simp only [safely_bind, safely_pure]
    apply enable
    exact h.same rfl rfl rfl rfl

/-! ## New tasks -/

theorem newProcess (h : T.Holds d s) (as : ℕ) : T.Holds d (newProcess s as).2 :=
  Tally.Holds.same (T.poolCreate h) rfl rfl rfl rfl

theorem inheritFd (h : T.Holds d s) (t i : ℕ) : Safely AnyFault (T.Holds d) (inheritFd t s i) := by
  simp only [Kernel.inheritFd, safely_bind]
  apply reads
  intro tk
  apply reads
  intro f
  cases f with
  | none => exact h
  | some a =>
    simp only [safely_bind]
    apply reads
    intro r
    split
    · exact h
    simp only [safely_bind]
    apply reads
    intro ops
    split
    · exact h
    simp only [safely_bind]
    apply reads
    intro child
    apply (h.alloc _).mono
    rintro ⟨new, s₁⟩ h₁
    apply ((h₁.setReq new _).ropsDup ops r new).mono
    rintro ⟨ret, s₂⟩ h₂
    dsimp only
    split
    · exact h₂.free _ new
    · simp only [safely_bind, safely_pure]
      apply reads
      intro ck
      exact h₂.setTask t _

theorem spawn (h : T.Holds d s) (as pid : ℕ) :
    Safely AnyFault (fun r => T.Holds d r.2) (spawn s as pid) := by
  simp only [Kernel.spawn, safely_bind, safely_pure]
  apply reads
  intro tk
  apply ((h.newProcess as).foldlM (fun _ i h₁ => h₁.inheritFd _ i) _).mono
  intro s₁ h₁
  apply reads
  intro child
  apply reads
  intro tk'
  exact h₁.same rfl rfl rfl rfl

theorem replaceSelf (h : T.Holds d s) (fd as : ℕ) :
    Safely AnyFault (fun r => T.Holds d r.2) (replaceSelf s fd as) := by
  simp only [Kernel.replaceSelf, safely_bind, safely_pure]
  apply reads
  intro tk
  apply Safely.mono (Q := T.Holds d)
  · split
    · exact h.execMm (Mm.lifts_destroyAs _ _)
    · trivial
  intro s₁ h₁
  apply reads
  intro tk'
  exact (h₁.setTask _ _).setMm (Mm.Lifts.refl s₁.mm)

theorem createTask (h : T.Holds d s) (as : ℤ) (buf : ℕ) (self : Bool) :
    Safely AnyFault (fun r => T.Holds d r.2) (createTask s as buf self) := by
  simp only [Kernel.createTask, safely_bind]
  apply reads
  intro tk
  split
  · exact h
  simp only [safely_bind]
  apply reads
  intro f
  cases f with
  | none => exact h
  | some a =>
    apply h.locked
    intro h₁
    simp only [safely_bind]
    apply (h₁.runMm (Mm.lifts_copyFromUserSimple _ _ _)).mono
    rintro ⟨⟨ret, bytes⟩, s₂⟩ h₂
    dsimp only
    split
    · exact h₂
    split
    · exact h₂.replaceSelf _ a
    split
    · exact h₂
    · exact (h₂.setAstable _).spawn a _

/-! ## Calls of the memory manager -/

theorem sendpage (h : T.Holds d s) (as : ℤ) (vaddr dst len : ℕ) :
    Safely AnyFault (fun r => T.Holds (d + leak (SendLeaks s as vaddr dst len)) r.2)
      (sendpage s as vaddr dst len) := by
  unfold SendLeaks
  apply h.locked
  intro h₁
  rw [Nat.add_right_comm]
  simp only [safely_bind]
  apply reads_eq
  intro tk (htk : s.cur = .ok tk)
  rw [exists_read htk]
  split
  · rename_i hout
    apply h₁.not_leak
    rintro ⟨hlow, hhigh, -⟩
    omega
  rename_i hin
  rw [and_iff_right (by omega), and_iff_right (by omega)]
  simp only [safely_bind]
  apply reads_eq
  intro f hf
  cases f with
  | none => exact h₁.not_leak (not_exists_handle hf)
  | some a =>
    rw [exists_handle hf, ← Mm.sendLacksRoom_disable]
    exact h₁.runMm_leak (Mm.lifts_sendpageTo _ _ _ _ _)

theorem asdestroy (h : T.Holds d s) (as : ℤ) :
    Safely AnyFault (fun r => T.Holds d r.2) (asdestroy s as) := by
  apply h.locked
  intro h₁
  simp only [safely_bind]
  apply reads
  intro tk
  split
  · exact h₁
  simp only [safely_bind]
  apply reads
  intro f
  cases f with
  | none => exact h₁
  | some a =>
    simp only [safely_bind, safely_pure]
    exact (h₁.setAstable _).execMm (Mm.lifts_destroyAs _ _)

theorem asnew (h : T.Holds d s) (snapshot : Bool) :
    Safely AnyFault (fun r => T.Holds d r.2) (asnew s snapshot) := by
  simp only [Kernel.asnew, safely_bind, safely_pure]
  apply reads
  intro tk
  apply (h.runMm (Mm.lifts_asnew _ _ _)).mono
  intro r hr
  exact hr.setAstable _

/-! ## The machine -/

theorem returns {x : Except Fault (ℤ × State)} (h : Safely AnyFault (fun r => T.Holds d r.2) x) :
    Safely AnyFault (fun r => T.Holds d r.2) (returns x) := by
  simp only [Kernel.returns, safely_bind, safely_pure]
  exact h

theorem killCurrent (h : T.Holds d s) : T.Holds d (killCurrent s).2 := h.setState _

theorem access (h : T.Holds d s) (ok : Bool) : T.Holds d (access ok s).2 := by
  cases ok with
  | true => exact h
  | false => exact h.killCurrent

/-- A page fault takes the counter to 0. -/
theorem runMm_zero {α : Type} (h : T.Holds 0 s) {x : Except SadOS.Fault (α × Mm.State)}
    (hx : s.mm.interruptDisabled = 0 → Mm.Returns (fun r => r.2.interruptDisabled = 0) x) :
    Safely AnyFault (fun r => T.Holds 0 r.2) (s.runMm x) := by
  unfold State.runMm
  split
  · exact T.setMm h hx
  · trivial

/-- A system call keeps the property, and a count exactly if it leaks. -/
theorem syscall (h : T.Holds 0 s) (c : Call) :
    Safely AnyFault (fun r => T.Holds (leak (Leaks s c)) r.2) (syscall s c) := by
  have kept : ∀ {x : Except Fault (Outcome × State)}, Safely AnyFault (fun r => T.Holds 0 r.2) x →
      Safely AnyFault (fun r => T.Holds (0 + leak False) r.2) x := by
    intro x hx
    rwa [leak_of_not not_false]
  rw [← Nat.zero_add (leak _)]
  cases c with
  | portConnect n len buf => exact returns (h.portConnect n _ _)
  | request rd len buf => exact returns (h.request rd _ _)
  | getResponse cookie res => exact returns (h.getResponse cookie _)
  | openPort n => exact kept (returns (h.openPort n))
  | popRequest rd buf => exact returns (h.popRequest rd _)
  | respond fd len buf => exact kept (returns (h.respond fd _ _))
  | close fd => exact kept (returns (h.close fd))
  | dup0 oldFd newFd => exact kept (returns (h.dup0 oldFd newFd))
  | waitOn rbuf wbuf => exact kept (h.waitOn _ _)
  | waitOnPort n => exact kept ((h.disable.setState .waiting).waitOnPortPass n)
  | createTask as buf self => exact kept (returns (h.createTask as _ self))
  | exit => exact kept h.killCurrent
  | sendpage as vaddr dst len => exact returns (h.sendpage as _ _ _)
  | munmap base len => exact kept (returns (h.runMm (Mm.lifts_munmap _ _ _)))
  | asnew snapshot => exact kept (returns (h.asnew snapshot))
  | asdestroy as => exact kept (returns (h.asdestroy as))
  | read vaddr =>
    apply kept
    simp only [Kernel.syscall, safely_bind, safely_pure]
    exact (h.runMm_zero fun h0 => Mm.zero_userRead h0 _).mono fun _ hr => hr.access _
  | write vaddr b =>
    apply kept
    simp only [Kernel.syscall, safely_bind, safely_pure]
    exact (h.runMm_zero fun h0 => Mm.zero_userWrite h0 _ _).mono fun _ hr => hr.access _

theorem resume (h : T.Holds d s) (k : Kont) :
    Safely AnyFault (fun r => T.Holds d r.2) (resume s k) := by
  cases k with
  | waitOn rbuf wbuf rfds wfds => exact h.disable.waitOnPass _ _ _ _
  | waitOnPort n => exact h.disable.waitOnPortPass n
  | idle => exact h
  | exit => trivial

theorem settle {r : Outcome × State} (h : T.Holds d r.2) : T.Holds d (settle r) := by
  unfold Kernel.settle
  split
  · exact h.setPc _
  · exact h.setPc _

/-- Every step keeps the property, and no count unless it is a call that leaks. -/
theorem step (h : T.Holds 0 s) (a : Action) :
    Safely AnyFault (fun s' => ∃ d, T.Holds d s' ∧ ((∀ c, a = .call c → ¬Leaks s c) → d = 0))
      (step s a) := by
  have hkept : ∀ {x : Except Fault State} {p : Prop}, Safely AnyFault (T.Holds 0) x →
      Safely AnyFault (fun s' => ∃ d, T.Holds d s' ∧ (p → d = 0)) x :=
    fun hx => hx.mono fun _ h' => ⟨0, h', fun _ => rfl⟩
  cases a with
  | call c =>
    simp only [Kernel.step, safely_bind]
    apply reads
    intro tk
    split
    · simp only [safely_bind, safely_pure]
      exact (h.syscall c).mono fun _ hr =>
        ⟨_, settle hr, fun hno => leak_of_not (hno c rfl)⟩
    · exact ⟨0, h, fun _ => rfl⟩
  | schedule =>
    apply hkept
    simp only [Kernel.step, safely_bind]
    apply reads
    intro tk
    split
    · exact (h.setPc _).schedule
    · exact h
  | resume =>
    apply hkept
    simp only [Kernel.step, safely_bind]
    apply reads
    intro tk
    split
    · simp only [safely_bind, safely_pure]
      exact (h.resume _).mono fun _ hr => settle hr
    · exact h
  | interrupt vector =>
    apply hkept
    simp only [Kernel.step]
    split
    · exact h.intHandler _
    · exact h

end Tally.Holds

end SadOS.Kernel
