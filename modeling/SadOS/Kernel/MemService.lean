import SadOS.Kernel.Tables
import SadOS.Kernel.Tally
import SadOS.Mm.Grants

/-!
# The memory service

A client gets one page, however much memory it asked for: the length of the VMA and of the
response comes of the length of the message, not of that in it.

## Main definitions

* `Granted` — a response that keeps what the request asked for.

## Main results

* `memPortRequest_response` — the response to a request.
* `memService_iff` — which requests get what they ask for.
* `memService_fails` — a request for two pages.
-/

namespace SadOS.Kernel

open Mm (MemReq)

/-- The response has as many bytes as the request asked for, in pages that are those it named. -/
def Granted (m : Mm.State) (as : ℕ) (mreq : MemReq) (res : Response) : Prop :=
  mreq.len ≤ res.len ∧ Mm.Maps m as res.buf mreq.physAddr res.len

/-- A request that succeeds has a response of one page, and one that fails changes no list. -/
theorem memPortRequest_response (s : State) (a len buf : ℕ) :
    Safely AnyFault (fun x =>
      (x.1 = 0 → ∃ vaddr s'', memPortGetResponse x.2 a = .ok ((0, ⟨4096, vaddr⟩), s'') ∧
        Mm.Maps s''.mm s.mm.current vaddr (s.mm.memReqAt buf).physAddr 4096) ∧
      (x.1 ≠ 0 → Mm.SameLists s.mm x.2.mm)) (memPortRequest s a len buf) := by
  simp only [memPortRequest, State.runMm, safely_bind]
  have hanswer := Mm.memPortRequest_answered s.mm len buf
  split
  swap
  · trivial
  rename_i r m heq
  obtain ⟨ret, md⟩ := r
  obtain ⟨hdone, hfail⟩ := hanswer.of_ok heq
  dsimp only at hdone hfail ⊢
  cases md with
  | none =>
    refine ⟨fun hret => ?_, fun hret => (hfail hret).2⟩
    obtain ⟨vaddr, hnone, -⟩ := hdone hret
    cases hnone
  | some range =>
    simp only [safely_ok, safely_bind, safely_pure]
    apply reads_eq
    intro r hr
    refine ⟨fun hret => ?_, fun hret => ?_⟩
    · obtain ⟨vaddr, hrange, hmaps⟩ := hdone hret
      rw [Option.some.injEq] at hrange
      subst hrange
      have hget := getReq_setReq hr { r with data := .mem vaddr 4096, rops := some .mem }
      rw [memPortGetResponse, hget]
      exact ⟨vaddr, _, rfl, hmaps⟩
    · cases (hfail hret).1

/-- **The memory service** keeps what a request asked for exactly if that is one page at most,
and leaves the lists as they were if it refuses. -/
theorem memService_iff (s : State) (a len buf : ℕ) (ret : ℤ) (s' : State)
    (hret : memPortRequest s a len buf = .ok (ret, s')) :
    (ret = 0 → ∃ res s'', memPortGetResponse s' a = .ok ((0, res), s'') ∧
      (Granted s''.mm s.mm.current (s.mm.memReqAt buf) res ↔ (s.mm.memReqAt buf).len ≤ 4096)) ∧
    (ret ≠ 0 → Mm.SameLists s.mm s'.mm) := by
  obtain ⟨hdone, hfail⟩ := (memPortRequest_response s a len buf).of_ok hret
  refine ⟨fun hzero => ?_, hfail⟩
  obtain ⟨vaddr, s'', hres, hmaps⟩ := hdone hzero
  exact ⟨⟨4096, vaddr⟩, s'', hres, and_iff_left hmaps⟩

/-- The init task asks for two pages of device memory, at the physical address `0xfe000000`. -/
def askTwoPages : List Action :=
  [.schedule, .call (.sendpage 0 0 0x400000 0x1000), .call (.write 0x400003 0xfe),
    .call (.write 0x400011 0x20)]

/-- The response has one page of the two. -/
theorem two_pages : ∃ s tk a s₁ s' res s'',
    run (bootWith [0x10000, 0x11000, 0x12000]) askTwoPages = .ok s ∧ s.cur = .ok tk ∧
    newReq s tk .request = .ok (a, s₁) ∧
    memPortRequest s₁ a 24 0x400000 = .ok (0, s') ∧
    memPortGetResponse s' a = .ok ((0, res), s'') ∧ res.len = 0x1000 ∧
    (s₁.mm.memReqAt 0x400000).len = 0x2000 := by
  have hrun : (run (bootWith [0x10000, 0x11000, 0x12000]) askTwoPages).toOption.bind (fun s =>
      s.cur.toOption.bind fun tk => (newReq s tk .request).toOption.bind fun x =>
        (memPortRequest x.2 x.1 24 0x400000).toOption.bind fun y =>
          (memPortGetResponse y.2 x.1).toOption.bind fun z =>
            some (y.1, z.1.1, z.1.2.len, (x.2.mm.memReqAt 0x400000).len)) =
        some (0, 0, 0x1000, 0x2000) := by
    decide +kernel
  obtain ⟨s, hs, hrun⟩ := exists_of_bind hrun
  obtain ⟨tk, htk, hrun⟩ := exists_of_bind hrun
  obtain ⟨⟨a, s₁⟩, hnew, hrun⟩ := exists_of_bind hrun
  obtain ⟨⟨ret, s'⟩, hret, hrun⟩ := exists_of_bind hrun
  obtain ⟨⟨⟨v, res⟩, s''⟩, hres, hrun⟩ := exists_of_bind hrun
  simp only [Option.some.injEq, Prod.mk.injEq] at hrun
  obtain ⟨rfl, rfl, hlen, hasked⟩ := hrun
  exact ⟨s, tk, a, s₁, s', res, s'', hs, htk, hnew, hret, hres, hlen, hasked⟩

theorem memService_iff_two : ∃ s₁ a s', (s₁.mm.memReqAt 0x400000).len = 0x2000 ∧
    memPortRequest s₁ a 24 0x400000 = .ok (0, s') ∧
    ∃ res s'', memPortGetResponse s' a = .ok ((0, res), s'') ∧
      (Granted s''.mm s₁.mm.current (s₁.mm.memReqAt 0x400000) res ↔
        (s₁.mm.memReqAt 0x400000).len ≤ 4096) := by
  obtain ⟨-, -, a, s₁, s', -, -, -, -, -, hret, -, -, hasked⟩ := two_pages
  exact ⟨s₁, a, s', hasked, hret, (memService_iff s₁ a 24 0x400000 0 s' hret).1 rfl⟩

/-- The client is told of one page, and has one page. -/
theorem memService_fails : ¬∀ (free : List ℕ) (l : List Action) (s : State),
    run (bootWith free) l = .ok s → ∀ tk a s₁ len buf s' res s'', s.cur = .ok tk →
      newReq s tk .request = .ok (a, s₁) → memPortRequest s₁ a len buf = .ok (0, s') →
      memPortGetResponse s' a = .ok ((0, res), s'') →
      Granted s''.mm s₁.mm.current (s₁.mm.memReqAt buf) res := by
  intro h
  obtain ⟨s, tk, a, s₁, s', res, s'', hs, htk, hnew, hret, hres, hlen, hasked⟩ := two_pages
  have hgranted := (h _ _ s hs tk a s₁ 24 0x400000 s' res s'' htk hnew hret hres).1
  rw [hlen, hasked] at hgranted
  revert hgranted
  decide

end SadOS.Kernel
