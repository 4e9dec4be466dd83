import SadOS.Kernel.Rollback

/-!
# Readiness and the operations it announces

`uport_server_available` and `uport_user_available` tell `wait_on` whether an operation on a
handle would go on.  For a cookie and a connection of a client they say so.  A server learns
of messages only: of a connection whose clients are gone, for which `pop_request` returns 0,
it never hears.

## Main definitions

* `OffByOne` — an error of `map_to_user` that becomes `-EAGAIN`.
* `Silent` — a handle of a server for which readiness and `pop_request` disagree.

## Main results

* `popRequest_again` — when `pop_request` returns `-EAGAIN`.
* `readiness_iff` — where readiness agrees with the operations.
* `readiness_fails` — a connection without clients.
-/

namespace SadOS.Kernel

/-- `map_to_user` returns `-ENOMEM` for the payload of the message, and its first byte is the
second one of a page: then the sum is `-EAGAIN`. -/
def OffByOne (s : State) (m : ℕ) : Prop :=
  ∃ msg, s.getMsg m = .ok msg ∧ ∃ plh, msg.plh = some plh ∧
    (∃ head, s.mm.getPlist plh = .ok head ∧ head.startOffset = 1) ∧
    Mm.PlistLacksRoom s.mm s.mm.current plh

/-- A cookie, a connection without clients and messages, or a message that comes to
`-EAGAIN` by accident. -/
def Silent (s : State) (tk : Task) (r : Request) : Prop :=
  r.type = .portCookie ∨ ∃ q, r.data.ptr = .ok q ∧
    ((r.type = .portReq ∧ ∃ u, s.getUportReq q = .ok u ∧ u.incoming = [] ∧ u.clients = []) ∨
      (none ∈ tk.fds ∧ ∃ m rest, s.getIncoming q = .ok (m :: rest) ∧ OffByOne s m))

variable {s : State} {tk : Task}

/-! ## `pop_request` -/

/-- A message leads to `-EAGAIN` by accident only. -/
theorem popMessage_again (hcur : s.cur = .ok tk) (type : ReqType) (m buf : ℕ) :
    Safely AnyFault (fun r => r.1 = -EAGAIN ↔ none ∈ tk.fds ∧ OffByOne s m)
      (popMessage s type m buf) := by
  simp only [popMessage, hcur, safely_bind, safely_ok]
  apply (alloc_rest s _).mono
  rintro ⟨sreq, s₁⟩ ⟨hmm, -, hmsg₁⟩
  dsimp only
  split
  · rename_i hfull
    have hno := fdtableInsert_eq_none.1 hfull
    exact iff_of_false (show ¬(-EMFILE : ℤ) = -EAGAIN by decide) fun h => hno h.1
  rename_i fd fds hins
  have hfree := free_of_fdtableInsert hins
  obtain ⟨hmm₂, -, hobjs₂⟩ := setFds_rest s₁ fds
  simp only [safely_bind]
  apply reads_eq
  intro msg hmsg
  have hmsg : s.getMsg m = .ok msg := by
    apply hmsg₁
    rwa [State.getMsg, hobjs₂] at hmsg
  rw [and_iff_right hfree, OffByOne, exists_read hmsg]
  -- once there is an address, the results are `-EFAULT` and the number of a descriptor
  have hrest : ∀ (vaddr : ℤ) (len : ℕ) (s₃ : State) (p : Prop), 0 ≤ vaddr → ¬p →
      Safely AnyFault (fun r => r.1 = -EAGAIN ↔ p)
        (if vaddr < 0 then return (vaddr, s₃)
        else do
          let client ← s₃.getReq msg.clientReq
          let clientTask ← s₃.getTask client.owner
          let r ← s₃.runMm (Mm.copyToUserSimple s₃.mm
            (urequestBytes len vaddr.toNat clientTask.pid) buf 24)
          if r.1 ≠ 0 then do
            let s ← r.2.execMm (Mm.removeVmaRange r.2.mm r.2.mm.current vaddr.toNat len)
            return (-EFAULT, s)
          else do
            let s ← acceptMessage r.2 type m msg sreq
            return ((fd : ℤ), s)) := by
    intro vaddr len s₃ p hpos hp
    rw [if_neg (not_lt.2 hpos)]
    simp only [safely_bind]
    apply reads
    intro client
    apply reads
    intro clientTask
    apply reads
    rintro ⟨ret, s₄⟩
    dsimp only
    split
    · simp only [safely_bind, safely_pure]
      exact reads fun _ => iff_of_false (by decide) hp
    · simp only [safely_bind, safely_pure]
      refine reads fun _ => iff_of_false ?_ hp
      simp only [EAGAIN]
      omega
  cases hplh : msg.plh with
  | none =>
    simp only [safely_ok]
    exact hrest 0 0 _ _ le_rfl (by simp)
  | some plh =>
    simp only [safely_bind, safely_pure]
    have hmap := Mm.mapToUser_cases (s₁.setFds fds).mm plh
    rw [hmm₂, hmm] at hmap ⊢
    apply (runMm_reads _ _).mono
    rintro ⟨vaddr, s₃⟩ ⟨m₃, heq, rfl⟩
    apply reads_eq
    intro head hhead
    have hhead := liftMm_ok hhead
    rcases hmap.of_ok heq with ⟨hneg, hlack⟩ | ⟨hpos, hroom⟩
    · obtain ⟨rfl, rfl⟩ := Prod.mk.inj hneg
      dsimp only
      have hhead : s.mm.getPlist plh = .ok head := hhead
      have hiff : (-Mm.ENOMEM + (head.startOffset : ℤ) = -EAGAIN) ↔
          ∃ plh', some plh = some plh' ∧ (∃ head, s.mm.getPlist plh' = .ok head ∧
            head.startOffset = 1) ∧ Mm.PlistLacksRoom s.mm s.mm.current plh' := by
        simp only [Option.some.injEq, exists_eq_left', hlack, and_true, hhead, Except.ok.injEq,
          Mm.ENOMEM, EAGAIN]
        omega
      by_cases hlt : -Mm.ENOMEM + (head.startOffset : ℤ) < 0
      · rw [if_pos hlt]
        exact hiff
      · refine hrest _ _ _ _ (not_lt.1 hlt) ?_
        rw [← hiff]
        simp only [EAGAIN]
        omega
    · refine hrest _ _ _ _ (by have : 0 ≤ vaddr := hpos; omega) ?_
      rintro ⟨plh', hp, -, hlack⟩
      cases hp
      exact hroom hlack

/-- `pop_request` on a handle that is a port or a connection. -/
theorem popRequest_again (hcur : s.cur = .ok tk) {rd : ℤ} {a q : ℕ} {r : Request} {l : List ℕ}
    (ha : handleAt tk rd = .ok (some a)) (hr : s.getReq a = .ok r)
    (htype : r.type = .port ∨ r.type = .portReq) (hq : r.data.ptr = .ok q)
    (hl : s.getIncoming q = .ok l) (buf : ℕ) :
    Safely AnyFault (fun x => x.1 = -EAGAIN ↔
        (l = [] ∧ (r.type = .portReq → ∀ u, s.getUportReq q = .ok u → u.clients ≠ [])) ∨
          none ∈ tk.fds ∧ ∃ m rest, l = m :: rest ∧ OffByOne s m) (popRequest s rd buf) := by
  apply locked_rule (P := fun (v : ℤ) _ => v = -EAGAIN ↔
    (l = [] ∧ (r.type = .portReq → ∀ u, s.getUportReq q = .ok u → u.clients ≠ [])) ∨
      none ∈ tk.fds ∧ ∃ m rest, l = m :: rest ∧ OffByOne s m)
  · exact fun _ _ _ h => h
  have hcur' : (disableInterrupts s).cur = .ok tk := hcur
  have hr' : (disableInterrupts s).getReq a = .ok r := hr
  have hl' : (disableInterrupts s).getIncoming q = .ok l := hl
  have htest : ¬(r.type ≠ .port ∧ r.type ≠ .portReq) := by tauto
  simp only [hcur', ha, hr', htest, hq, hl', safely_bind, safely_ok, if_false]
  cases l with
  | cons m rest =>
    simp only [reduceCtorEq, false_and, false_or, List.cons.injEq]
    apply (popMessage_again hcur' r.type m buf).mono
    intro x hx
    rw [hx]
    constructor
    · rintro ⟨hfree, hoff⟩
      exact ⟨hfree, m, rest, ⟨rfl, rfl⟩, hoff⟩
    · rintro ⟨hfree, _, _, ⟨rfl, rfl⟩, hoff⟩
      exact ⟨hfree, hoff⟩
  | nil =>
    dsimp only
    simp only [true_and, reduceCtorEq, false_and, exists_false, and_false, or_false]
    split
    · rename_i hport
      exact iff_of_true rfl (by simp [hport])
    rename_i hport
    have htype : r.type = .portReq := htype.resolve_left hport
    simp only [htype, true_implies, safely_bind]
    apply reads_eq
    intro u (hu : s.getUportReq q = .ok u)
    simp only [hu, Except.ok.injEq, forall_eq']
    split
    · rename_i hclients
      exact iff_of_true rfl hclients
    · rename_i hclients
      simp only [safely_bind, safely_pure]
      refine reads fun x => iff_of_false ?_ hclients
      split <;> decide

/-- A handle of another type is refused. -/
theorem popRequest_refused (hcur : s.cur = .ok tk) {rd : ℤ} {a : ℕ} {r : Request}
    (ha : handleAt tk rd = .ok (some a)) (hr : s.getReq a = .ok r)
    (htype : r.type ≠ .port ∧ r.type ≠ .portReq) (buf : ℕ) :
    Safely AnyFault (fun x => x.1 = -EBADF) (popRequest s rd buf) := by
  apply locked_rule (P := fun (v : ℤ) _ => v = -EBADF)
  · exact fun _ _ _ h => h
  have hcur' : (disableInterrupts s).cur = .ok tk := hcur
  have hr' : (disableInterrupts s).getReq a = .ok r := hr
  simp only [hcur', ha, hr', htype, safely_bind, safely_ok, ne_eq, not_false_eq_true, and_self,
    if_true, safely_pure]

/-! ## The handles -/

theorem getIncoming_of_uport {q : ℕ} {u : Uport} (h : s.getUport q = .ok u) :
    s.getIncoming q = .ok u.incoming := by
  obtain ⟨p, hobj⟩ := getUport_ok h
  rw [State.getIncoming, hobj]

theorem getIncoming_of_uportReq {q : ℕ} {u : UportReq} (h : s.getUportReq q = .ok u) :
    s.getIncoming q = .ok u.incoming := by
  obtain ⟨p, hobj⟩ := getUportReq_ok h
  rw [State.getIncoming, hobj]

/-- What a server is told. -/
theorem serverAvailable_iff (hcur : s.cur = .ok tk) {rd : ℤ} {a buf : ℕ} {r : Request} {b : Bool}
    {ret : ℤ} {s' : State} (ha : handleAt tk rd = .ok (some a)) (hr : s.getReq a = .ok r)
    (hb : uportServerAvailable s r 1 = .ok b) (hret : popRequest s rd buf = .ok (ret, s')) :
    (b = true ↔ ret ≠ -EAGAIN) ↔ ¬Silent s tk r := by
  rw [uportServerAvailable, if_neg (by decide)] at hb
  cases htype : r.type with
  | portCookie =>
    rw [htype] at hb
    cases hb
    have hbadf : ret = -EBADF :=
      (popRequest_refused hcur ha hr (by simp [htype]) buf).of_ok hret
    subst hbadf
    exact iff_of_false (by decide) fun h => h (.inl htype)
  | port =>
    simp only [htype] at hb
    cases hq : r.data.ptr with
    | error e => simp [hq] at hb
    | ok q =>
    cases hu : s.getUport q with
    | error e => simp [hq, hu] at hb
    | ok u =>
    simp only [hq, hu, ok_bind, pure_eq_ok, Except.ok.injEq] at hb
    have hl := getIncoming_of_uport hu
    have hagain := (popRequest_again hcur ha hr (.inl htype) hq hl buf).of_ok hret
    have hsilent : Silent s tk r ↔ none ∈ tk.fds ∧ ∃ m rest, u.incoming = m :: rest ∧
      OffByOne s m := by
      simp [Silent, htype, hq, hl]
    rw [hsilent, Ne, hagain, ← hb]
    cases hin : u.incoming <;> simp [htype]
  | portReq =>
    simp only [htype] at hb
    cases hq : r.data.ptr with
    | error e => simp [hq] at hb
    | ok q =>
    cases hu : s.getUportReq q with
    | error e => simp [hq, hu] at hb
    | ok u =>
    simp only [hq, hu, ok_bind, pure_eq_ok, Except.ok.injEq] at hb
    have hl := getIncoming_of_uportReq hu
    have hagain := (popRequest_again hcur ha hr (.inr htype) hq hl buf).of_ok hret
    have hsilent : Silent s tk r ↔ (u.incoming = [] ∧ u.clients = []) ∨
        none ∈ tk.fds ∧ ∃ m rest, u.incoming = m :: rest ∧ OffByOne s m := by
      simp [Silent, htype, hq, hl, hu]
    rw [hsilent, Ne, hagain, ← hb]
    cases hin : u.incoming <;> simp [htype, hu]
  | _ => simp [htype] at hb

/-- What a client is told of a cookie. -/
theorem cookieAvailable_iff {r : Request} {b : Bool} {ret : ℤ} {res : Response} {s' : State}
    (htype : r.type = .cookie) (hb : uportUserAvailable s r 1 = .ok b)
    (hret : uportGetResponse s r = .ok ((ret, res), s')) : b = true ↔ ret ≠ -EAGAIN := by
  have hspec : Safely AnyFault (fun x => b = true ↔ x.1.1 ≠ -EAGAIN) (uportGetResponse s r) := by
    unfold uportUserAvailable at hb
    unfold uportGetResponse
    rw [if_neg (by simp [htype])]
    split
    · rename_i hclosed
      rw [if_pos hclosed] at hb
      cases hb
      exact iff_of_true rfl (show ¬(0 : ℤ) = -EAGAIN by decide)
    rename_i hclosed
    simp only [if_neg hclosed, htype, Nat.reduceEqDiff, if_false] at hb
    split
    · rename_i hpending
      rw [if_pos hpending] at hb
      cases hb
      exact iff_of_false (by decide) (show ¬(-EAGAIN : ℤ) ≠ -EAGAIN by decide)
    rename_i hpending
    simp only [if_neg hpending] at hb
    simp only [safely_bind]
    apply reads_eq
    intro ca hca
    apply reads_eq
    intro c hc
    simp only [hca, hc, ok_bind, pure_eq_ok, Except.ok.injEq] at hb
    subst hb
    cases c.response with
    | none => exact iff_of_false (by decide) (show ¬(-EAGAIN : ℤ) ≠ -EAGAIN by decide)
    | some plh =>
      simp only [Option.isSome_some, true_iff, safely_bind]
      apply reads
      rintro ⟨vaddr, s₁⟩
      dsimp only
      split
      · exact (by decide : ¬(-ENOMEM : ℤ) = -EAGAIN)
      · simp only [safely_bind, safely_pure]
        exact reads fun _ => reads fun _ => reads fun _ => reads fun _ => by decide
  exact hspec.of_ok hret

/-- What a client is told of a connection, which is always in one of three states. -/
theorem connectionAvailable_iff {a c len buf : ℕ} {r : Request} {b : Bool} {ret : ℤ} {s' : State}
    (hr : s.getReq a = .ok r) (htype : r.type = .request)
    (hb : uportUserAvailable s r 2 = .ok b) (hret : uportRequest s a c len buf = .ok (ret, s')) :
    (b = true ↔ ret ≠ -EAGAIN) ↔ r.state ≠ .server := by
  have hagain : Safely AnyFault (fun x => x.1 = -EAGAIN ↔ r.state = .pending)
      (uportRequest s a c len buf) := by
    simp only [uportRequest, hr, safely_bind, safely_ok]
    split
    · rename_i hclosed
      exact iff_of_false (show ¬(-EPIPE : ℤ) = -EAGAIN by decide) (by simp [hclosed])
    split
    · rename_i hpending
      exact iff_of_true rfl hpending
    rename_i hpending
    split
    · trivial
    simp only [safely_bind]
    apply reads
    intro sreq
    apply reads
    rintro ⟨plh, s₁⟩
    cases plh with
    | none => exact iff_of_false (show ¬(-EFAULT : ℤ) = -EAGAIN by decide) hpending
    | some plh =>
      simp only [safely_bind, safely_pure]
      exact reads fun _ => reads fun _ => reads fun _ => reads fun _ => reads fun _ =>
        reads fun _ =>
        iff_of_false (by decide) hpending
  have hready : b = decide (r.state = .closed ∨ r.state = .established) := by
    unfold uportUserAvailable at hb
    rw [htype] at hb
    cases hstate : r.state <;> simp [hstate] at hb ⊢ <;> exact hb
  rw [Ne, hagain.of_ok hret, hready]
  cases r.state <;> simp

/-- **Readiness agrees with the operations**, but for the handles of servers that are
`Silent`. -/
theorem readiness_iff (s : State) :
    (∀ tk rd a r b buf ret s', s.cur = .ok tk → handleAt tk rd = .ok (some a) →
      s.getReq a = .ok r → uportServerAvailable s r 1 = .ok b →
      popRequest s rd buf = .ok (ret, s') → ((b = true ↔ ret ≠ -EAGAIN) ↔ ¬Silent s tk r)) ∧
    (∀ r b ret res s', r.type = .cookie → uportUserAvailable s r 1 = .ok b →
      uportGetResponse s r = .ok ((ret, res), s') → (b = true ↔ ret ≠ -EAGAIN)) ∧
    ∀ a r b c len buf ret s', s.getReq a = .ok r → r.type = .request →
      uportUserAvailable s r 2 = .ok b → uportRequest s a c len buf = .ok (ret, s') →
      ((b = true ↔ ret ≠ -EAGAIN) ↔ r.state ≠ .server) :=
  ⟨fun _ _ _ _ _ _ _ _ hcur ha hr hb hret => serverAvailable_iff hcur ha hr hb hret,
    fun _ _ _ _ _ htype hb hret => cookieAvailable_iff htype hb hret,
    fun _ _ _ _ _ _ _ _ hr htype hb hret => connectionAvailable_iff hr htype hb hret⟩

/-- The init task opens port 20, connects to it, takes the connection and closes its end. -/
def loseClient : List Action :=
  [.schedule, .call (.sendpage 0 0 0x400000 0x1000), .call (.openPort 20),
    .call (.portConnect 20 0 0), .call (.popRequest 0 0x400000), .call (.close 1)]

/-- The connection is not available, and `pop_request` returns 0 for it. -/
theorem lost_client : ∃ s tk a r s', run (bootWith [0x10000, 0x11000]) loseClient = .ok s ∧
    s.cur = .ok tk ∧ handleAt tk 2 = .ok (some a) ∧ s.getReq a = .ok r ∧ r.type = .portReq ∧
    uportServerAvailable s r 1 = .ok false ∧ popRequest s 2 0x400000 = .ok (0, s') := by
  have hrun : (run (bootWith [0x10000, 0x11000]) loseClient).toOption.bind (fun s =>
      s.cur.toOption.bind fun tk => (handleAt tk 2).toOption.bind fun f =>
        f.bind fun a => (s.getReq a).toOption.bind fun r =>
          (uportServerAvailable s r 1).toOption.bind fun b =>
            (popRequest s 2 0x400000).toOption.bind fun x => some (r.type, b, x.1)) =
        some (.portReq, false, 0) := by
    decide +kernel
  obtain ⟨s, hs, hrun⟩ := exists_of_bind hrun
  obtain ⟨tk, htk, hrun⟩ := exists_of_bind hrun
  obtain ⟨f, hf, hrun⟩ := exists_of_bind hrun
  obtain ⟨a, rfl, hrun⟩ := Option.bind_eq_some_iff.1 hrun
  obtain ⟨r, hr, hrun⟩ := exists_of_bind hrun
  obtain ⟨b, hb, hrun⟩ := exists_of_bind hrun
  obtain ⟨⟨ret, s'⟩, hret, hrun⟩ := exists_of_bind hrun
  simp only [Option.some.injEq, Prod.mk.injEq] at hrun
  obtain ⟨htype, rfl, rfl⟩ := hrun
  exact ⟨s, tk, a, r, s', hs, htk, hf, hr, htype, hb, hret⟩

theorem readiness_iff_lost : ∃ s tk r, run (bootWith [0x10000, 0x11000]) loseClient = .ok s ∧
    s.cur = .ok tk ∧
    ((false = true ↔ (0 : ℤ) ≠ -EAGAIN) ↔ ¬Silent s tk r) := by
  obtain ⟨s, tk, a, r, s', hs, htk, ha, hr, -, hb, hret⟩ := lost_client
  exact ⟨s, tk, r, hs, htk, (readiness_iff s).1 tk 2 a r false 0x400000 0 s' htk ha hr hb hret⟩

/-- The server sleeps through the end of its last client. -/
theorem readiness_fails : ¬∀ (free : List ℕ) (l : List Action) (s : State),
    run (bootWith free) l = .ok s → ∀ tk rd a r b buf ret s', s.cur = .ok tk →
      handleAt tk rd = .ok (some a) → s.getReq a = .ok r →
      uportServerAvailable s r 1 = .ok b → popRequest s rd buf = .ok (ret, s') →
        (b = true ↔ ret ≠ -EAGAIN) := by
  intro h
  obtain ⟨s, tk, a, r, s', hs, htk, ha, hr, -, hb, hret⟩ := lost_client
  have hready := (h _ _ s hs tk 2 a r false 0x400000 0 s' htk ha hr hb hret).2 (by decide)
  cases hready

end SadOS.Kernel
