import SadOS.Kernel.TallyRun
import SadOS.Kernel.Tables

/-!
# The counter over system calls

`syscall_return` halts the machine where a call has left interrupts disabled.  A call leaves
them disabled exactly if it comes to `insert_vma_to_any` and finds no room there.

## Main results

* `syscall_balanced_iff` — the system calls.
* `balanced_iff` — with what the calls that block do after `schedule()`.
* `balanced_run` — runs.
-/

namespace SadOS.Kernel

open Mm (leak leak_of leak_of_not)

/-- The counter is `d`. -/
def counter : Tally where
  Holds d s := s.mm.interruptDisabled = d
  same h hmm _ _ _ := by rwa [hmm]
  setBody h _ _ := h
  setMm h hm := hm h
  alloc {d s} h pool := (alloc_rest s pool).mono fun r hr => by rwa [hr.1]
  free h pool a := by
    unfold State.free
    split
    · exact h
    · trivial
  poolCreate h := h
  poolDestroy h _ := h

/-- A call that returns, or that comes to `schedule()`, gives the counter back exactly if it
does not leak. -/
theorem syscall_balanced_iff {s : State} (h0 : s.mm.interruptDisabled = 0) (c : Call) :
    Safely AnyFault (fun r => r.2.mm.interruptDisabled = 0 ↔ ¬Leaks s c) (syscall s c) := by
  apply (Tally.Holds.syscall (T := counter) h0 c).mono
  intro r hr
  have hr : r.2.mm.interruptDisabled = leak (Leaks s c) := hr
  rw [hr]
  by_cases hleaks : Leaks s c
  · rw [leak_of hleaks]
    exact iff_of_false one_ne_zero (not_not.2 hleaks)
  · exact iff_of_true (leak_of_not hleaks) hleaks

/-- The counter on every path through a system call: up to its return or its call of
`schedule()`, through `schedule()`, and on to the return or the next `schedule()`. -/
theorem balanced_iff (s : State) (h0 : s.mm.interruptDisabled = 0) :
    (∀ c r, syscall s c = .ok r → (r.2.mm.interruptDisabled = 0 ↔ ¬Leaks s c)) ∧
    (∀ s', schedule s = .ok s' → s'.mm.interruptDisabled = 0) ∧
    ∀ k r, resume s k = .ok r → r.2.mm.interruptDisabled = 0 :=
  ⟨fun c _ hr => (syscall_balanced_iff h0 c).of_ok hr,
    fun _ hs' => (Tally.Holds.schedule (T := counter) h0).of_ok hs',
    fun k _ hr => (Tally.Holds.resume (T := counter) h0 k).of_ok hr⟩

/-- The counter is 0 after every run without a call that leaks. -/
theorem balanced_run {s : State} (h0 : s.mm.interruptDisabled = 0) {l : List Action}
    (hl : Along (fun s a => ∀ c, a = .call c → ¬Leaks s c) step s l) :
    Safely AnyFault (fun s' => s'.mm.interruptDisabled = 0) (run s l) := by
  refine safely_along (I := fun s => s.mm.interruptDisabled = 0) h0 ?_ hl
  intro s a hs hno
  apply (Tally.Holds.step (T := counter) hs a).mono
  rintro s' ⟨d, hd, hzero⟩
  exact (show s'.mm.interruptDisabled = d from hd).trans (hzero hno)

/-- The counter after a call that returns. -/
def countAfter (s : State) (c : Call) : Option ℕ :=
  match syscall s c with
  | .ok (.ret _, s') => some s'.mm.interruptDisabled
  | _ => none

theorem countAfter_eq {s : State} {c : Call} {d : ℕ} (h : countAfter s c = some d) :
    ∃ v s', syscall s c = .ok (.ret v, s') ∧ s'.mm.interruptDisabled = d := by
  unfold countAfter at h
  split at h
  · rename_i v s' hcall
    exact ⟨v, s', hcall, Option.some.inj h⟩
  · cases h

/-- The init task asks for more room than its address space has. -/
theorem sendpage_leaves : ∃ s v s', run (bootWith []) [.schedule] = .ok s ∧
    s.mm.interruptDisabled = 0 ∧
    syscall s (.sendpage 0 0 0 0x7ffffffffffff000) = .ok (.ret v, s') ∧
    s'.mm.interruptDisabled = 1 := by
  have hrun : (run (bootWith []) [.schedule]).toOption.map (fun s =>
      (s.mm.interruptDisabled, countAfter s (.sendpage 0 0 0 0x7ffffffffffff000))) =
      some (0, some 1) := by
    decide +kernel
  cases hs : run (bootWith []) [.schedule] with
  | error e =>
    rw [hs] at hrun
    cases hrun
  | ok s =>
    rw [hs] at hrun
    simp only [Except.toOption, Option.map_some, Option.some.injEq, Prod.mk.injEq] at hrun
    obtain ⟨h0, hcall⟩ := hrun
    obtain ⟨v, s', hret, hcount⟩ := countAfter_eq hcall
    exact ⟨s, v, s', rfl, h0, hret, hcount⟩

theorem balanced_iff_sendpage : ∃ s v s', run (bootWith []) [.schedule] = .ok s ∧
    syscall s (.sendpage 0 0 0 0x7ffffffffffff000) = .ok (.ret v, s') ∧
    (s'.mm.interruptDisabled = 0 ↔ ¬Leaks s (.sendpage 0 0 0 0x7ffffffffffff000)) := by
  obtain ⟨s, v, s', hs, h0, hret, -⟩ := sendpage_leaves
  exact ⟨s, v, s', hs, hret, (balanced_iff s h0).1 _ _ hret⟩

/-- A call that has found no room returns to the user with interrupts disabled. -/
theorem balanced_fails : ¬∀ (free : List ℕ) (l : List Action) (s : State),
    run (bootWith free) l = .ok s → s.mm.interruptDisabled = 0 →
      ∀ (as : ℤ) (vaddr dst len : UInt64) (v : ℤ) (s' : State),
        syscall s (.sendpage as vaddr dst len) = .ok (.ret v, s') →
          s'.mm.interruptDisabled = 0 := by
  intro h
  obtain ⟨s, v, s', hs, h0, hret, hcount⟩ := sendpage_leaves
  rw [h [] _ s hs h0 _ _ _ _ v s' hret] at hcount
  cases hcount

end SadOS.Kernel
