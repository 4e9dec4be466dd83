import SadOS.Kernel.Respond

/-!
# Copies of handles

`dup0` makes a handle of the same type and leaves the rest to the operations of the old one.
Those of a connection of a client copy it and register the copy.  Those of an interrupt do not
copy the state, and all others have no `dup` at all: then the new handle stays as the pool gave
it out, without operations.

`dup2` of the C library closes the new number before it copies, also where that is the old
number.

## Main definitions

* `Copied`, `Registered` — what a copy must be like.
* `Duplicates` — a call that gets as far as the operation of the handle.
* `dup2` — the function of the C library.

## Main results

* `dup0_cases` — what a call does.
* `dup_iff` — which calls copy, and when the old number stays open.
* `dup_fails` — the copy of a port.
-/

namespace SadOS.Kernel

open Mm (fdtableInsert)

/-- The fields of a copy.  Nothing ever stores the state `.server`: a handle with it has what
the pool left there. -/
structure Copied (r r' : Request) : Prop where
  type : r'.type = r.type
  rops : r'.rops = r.rops
  data : r'.data = r.data
  state : r'.state = r.state ∧ r'.state ≠ .server

/-- The handle is in the list that its kind is kept in, if there is one. -/
def Registered (s : State) (a : ℕ) (r : Request) : Prop :=
  match r.rops with
  | some .uportClient => ∃ sreq sr up u, r.data.ptr = .ok sreq ∧ s.getReq sreq = .ok sr ∧
      sr.data.ptr = .ok up ∧ s.getUportReq up = .ok u ∧ a ∈ u.clients
  | some .int => ∃ n, r.data = .word n ∧ a ∈ s.intWaitList (n &&& 255)
  | _ => True

/-- After a result below 0 the table is as it was.  Otherwise it has one more entry, for a copy
of the old handle. -/
structure Duplicated (s s' : State) (oldFd ret : ℤ) : Prop where
  failed : ret < 0 → ∀ tk, s.cur = .ok tk → ∃ tk', s'.cur = .ok tk' ∧ tk'.fds = tk.fds
  made : 0 ≤ ret → ∃ tk tk' a r new r', s.cur = .ok tk ∧ handleBelow tk oldFd = .ok (some a) ∧
    s.getReq a = .ok r ∧ tk.fds[ret.toNat]? = some none ∧ s'.cur = .ok tk' ∧
    tk'.fds = tk.fds.set ret.toNat (some new) ∧ s'.getReq new = .ok r' ∧ Copied r r' ∧
    Registered s' new r'

/-- The old number is one of the handle `r`, and there is an entry for the copy. -/
def Duplicates (s : State) (oldFd newFd : ℤ) (r : Request) : Prop :=
  ∃ tk, s.cur = .ok tk ∧ ∃ a, handleBelow tk oldFd = .ok (some a) ∧ s.getReq a = .ok r ∧
    if newFd < 0 then none ∈ tk.fds else tk.fds[newFd.toNat]? = some none

/-- `dup2`. -/
def dup2 (s : State) (oldFd newFd : ℤ) : Except Fault (ℤ × State) := do
  let (_, s) ← close s newFd
  dup0 s oldFd newFd

/-- The number is one of a handle. -/
def Open (s : State) (fd : ℤ) : Prop := ∃ tk a, s.cur = .ok tk ∧ handleBelow tk fd = .ok (some a)

variable {s s' : State} {tk : Task}

/-! ## The operations -/

/-- A new handle has the type it was made for, and nothing else that was set. -/
theorem newReq_get (s : State) (tk : Task) (type : ReqType) :
    Safely AnyFault (fun x => x.2.current = s.current ∧ x.2.task = s.task ∧
      ∃ r, x.2.getReq x.1 = .ok r ∧ r.type = type ∧ r.state = .server ∧ r.rops = none)
      (newReq s tk type) := by
  have hnew : ∀ (s₁ : State) a, s₁.objs a = some ⟨tk.filePool, .blank⟩ →
      ∃ r, (s₁.setReq a ⟨s.current, none, .junk, type, .server, 0, none⟩).getReq a = .ok r ∧
        r.type = type ∧ r.state = .server ∧ r.rops = none := by
    intro s₁ a hobj
    refine ⟨⟨s.current, none, .junk, type, .server, 0, none⟩, getReq_eq (p := tk.filePool) ?_,
      rfl, rfl, rfl⟩
    rw [State.setReq, State.setBody_self, hobj]
    rfl
  simp only [newReq, safely_bind, safely_pure]
  unfold State.alloc
  split
  · trivial
  · exact ⟨rfl, rfl, hnew _ _ (Function.update_self ..)⟩
  · exact ⟨rfl, rfl, hnew _ _ (Function.update_self ..)⟩

/-- `uport_dup` refuses and changes nothing, or makes a copy. -/
theorem uportDup_cases {r r₀ : Request} {new : ℕ} (hops : r.rops = some .uportClient)
    (hnew : s.getReq new = .ok r₀) (htype : r₀.type = r.type) :
    Safely AnyFault (fun x => (x.1 < 0 ∧ x.2 = s) ∨ (x.1 = 0 ∧ ∃ r', x.2.getReq new = .ok r' ∧
      Copied r r' ∧ Registered x.2 new r')) (uportDup s r new) := by
  unfold uportDup
  split
  · exact .inl ⟨show (-EBADF : ℤ) < 0 by decide, rfl⟩
  split
  · exact .inl ⟨show (-EAGAIN : ℤ) < 0 by decide, rfl⟩
  rename_i hstate
  have hstate : r.state = .established := not_not.1 hstate
  simp only [hnew, ok_bind, safely_bind, safely_pure]
  set r₁ : Request := { r₀ with data := r.data, state := r.state, rops := r.rops } with hr₁
  have hget := getReq_setReq hnew r₁
  apply reads_eq
  intro sreq hsreq
  apply reads_eq
  intro sr hsr
  apply reads_eq
  intro up hup
  simp only [linkReq, hget, ok_bind, safely_bind, safely_pure]
  apply reads_eq
  intro u hu
  refine .inr ⟨trivial, ?_⟩
  set s₂ := (s.setReq new r₁).setReq new { r₁ with nextReq := some (.clients up) }
  have hget₂ : s₂.getReq new = .ok { r₁ with nextReq := some (.clients up) } := getReq_setReq hget _
  obtain ⟨p, hobj⟩ := getUportReq_ok hu
  obtain ⟨pn, hnewobj⟩ := getReq_ok hget₂
  -- the connection and the new handle are different objects
  have hne : new ≠ up := by
    rintro rfl
    rw [hobj] at hnewobj
    cases hnewobj
  have hsreqne : sreq ≠ new := by
    rintro rfl
    rw [hget, Except.ok.injEq] at hsr
    rw [← hsr, hr₁, hsreq, Except.ok.injEq] at hup
    exact hne hup
  have hsr₂ : s₂.getReq sreq = .ok sr := by
    obtain ⟨ps, hsobj⟩ := getReq_ok hsr
    refine getReq_eq (p := ps) ?_
    rw [show s₂ = (s.setReq new r₁).setBody new _ from rfl, State.setBody_of_ne _ hsreqne, hsobj]
  have hkeep : ∀ {b : ℕ} {rb : Request} (body : Body), s₂.getReq b = .ok rb →
      (s₂.setBody up body).getReq b = .ok rb := by
    intro b rb body hb
    obtain ⟨pb, hbobj⟩ := getReq_ok hb
    refine getReq_eq (p := pb) ?_
    rw [State.setBody_of_ne, hbobj]
    rintro rfl
    rw [hobj] at hbobj
    cases hbobj
  refine ⟨_, hkeep _ hget₂, ⟨htype, rfl, rfl, rfl, ?_⟩, ?_⟩
  · rw [show ({ r₁ with nextReq := some (.clients up) } : Request).state = r.state from rfl, hstate]
    decide
  · rw [Registered,
      show ({ r₁ with nextReq := some (.clients up) } : Request).rops = some .uportClient
      from hops]
    refine ⟨sreq, sr, up, { u with clients := new :: u.clients }, hsreq, hkeep _ hsr₂, hup, ?_,
      List.mem_cons_self⟩
    rw [State.getUportReq, State.setBody_self, hobj]
    rfl

/-- The other operations make no copy. -/
theorem ropsDup_cases {ops : ReqOps} {r r₀ : Request} {new : ℕ} (hops : ops ≠ .uportClient)
    (hnew : s.getReq new = .ok r₀) (hstate : r₀.state = .server) :
    Safely AnyFault (fun x => x.1 = 0 ∧ ∃ r', x.2.getReq new = .ok r' ∧ r'.state = .server)
      (ropsDup s ops r new) := by
  cases ops with
  | uportClient => exact absurd rfl hops
  | int =>
    simp only [ropsDup, intPortDup]
    split
    · rename_i n hn
      simp only [hnew, ok_bind, linkReq, getReq_setReq hnew, safely_bind, safely_pure]
      have hget := getReq_setReq hnew { r₀ with data := .word (n &&& 255), rops := some .int }
      exact ⟨trivial, _, getReq_setReq hget
        { r₀ with
          data := .word (n &&& 255), rops := some .int, nextReq := some (.int (n &&& 255)) },
        hstate⟩
    · trivial
  | uportServer => exact ⟨rfl, r₀, hnew, hstate⟩
  | mem => exact ⟨rfl, r₀, hnew, hstate⟩
  | tarfs => exact ⟨rfl, r₀, hnew, hstate⟩
  | bda => exact ⟨rfl, r₀, hnew, hstate⟩
  | portio => exact ⟨rfl, r₀, hnew, hstate⟩

/-! ## The call -/

/-- The entry of a copy: one that was free. -/
theorem dup0_entry {newFd : ℤ} {new fd : ℕ} {fds fds' : FdTable} {taken : Option ℕ}
    (htaken : (if 0 ≤ newFd then fileAt fds newFd.toNat else .ok none) = .ok taken)
    (hfree : ¬taken ≠ none)
    (hins : (if newFd < 0 then fdtableInsert new fds
      else some (newFd.toNat, fds.set newFd.toNat (some new))) = some (fd, fds')) :
    fds[fd]? = some none ∧ fds' = fds.set fd (some new) ∧
      if newFd < 0 then none ∈ fds else fds[newFd.toNat]? = some none := by
  by_cases hneg : newFd < 0
  · rw [if_pos hneg] at hins ⊢
    obtain ⟨hslot, hset⟩ := fdtableInsert_eq hins
    exact ⟨hslot, hset, free_of_fdtableInsert hins⟩
  · rw [if_neg hneg] at hins ⊢
    rw [if_pos (not_lt.1 hneg), not_not.1 hfree] at htaken
    cases hins
    exact ⟨fileAt_ok htaken, rfl, fileAt_ok htaken⟩

/-- A number that is taken is no entry for the copy. -/
theorem dup0_busy {newFd : ℤ} {fds : FdTable} {taken : Option ℕ}
    (htaken : (if 0 ≤ newFd then fileAt fds newFd.toNat else .ok none) = .ok taken)
    (hbusy : taken ≠ none) :
    ¬if newFd < 0 then none ∈ fds else fds[newFd.toNat]? = some none := by
  by_cases hneg : newFd < 0
  · rw [if_neg (not_le.2 hneg)] at htaken
    cases htaken
    exact absurd rfl hbusy
  · rw [if_pos (not_lt.1 hneg)] at htaken
    rw [if_neg hneg, fileAt_ok htaken, Option.some.injEq]
    exact hbusy

/-- A refusal takes back the entry of the copy. -/
theorem refused_fds {fd new : ℕ} (hslot : tk.fds[fd]? = some none)
    (htk : s.task s.current = some { tk with fds := tk.fds.set fd (some new) }) :
    Safely AnyFault (fun s₁ =>
      Safely AnyFault (fun s₂ => ∃ tk₂, s₂.cur = .ok tk₂ ∧ tk₂.fds = tk.fds) (freeReq s₁ new))
      (clearFd s fd) := by
  apply (clearFd_fds s fd).mono
  rintro s₁ ⟨hcur₁, tk₁, htk₁, htask₁⟩
  rw [show s.cur = .ok _ from getTask_eq htk, Except.ok.injEq] at htk₁
  subst htk₁
  rw [← hcur₁] at htask₁
  apply ((Woken.refl s₁).freeReq new).mono
  intro s₂ h₂
  obtain ⟨tk₂, htk₂, hfds₂, -⟩ := h₂.fds htask₁
  refine ⟨tk₂, getTask_eq (h₂.current ▸ htk₂), ?_⟩
  rw [hfds₂]
  change (tk.fds.set fd (some new)).set fd none = tk.fds
  rw [List.set_set]
  obtain ⟨hlt, hval⟩ := List.getElem?_eq_some_iff.1 hslot
  rw [← hval, List.set_getElem_self]

/-- A call returns an error and leaves the table, or makes a handle, which is a copy if the old
one is a connection of a client. -/
theorem dup0_cases (htk : s.cur = .ok tk) (oldFd newFd : ℤ) :
    Safely AnyFault (fun x =>
      (x.1 < 0 ∧ (∃ tk', x.2.cur = .ok tk' ∧ tk'.fds = tk.fds) ∧
        ∀ r, Duplicates s oldFd newFd r → r.rops = some .uportClient) ∨
      ∃ a r new r' tk' fd, x.1 = ((fd : ℕ) : ℤ) ∧ Duplicates s oldFd newFd r ∧
        handleBelow tk oldFd = .ok (some a) ∧ s.getReq a = .ok r ∧ tk.fds[fd]? = some none ∧
        x.2.cur = .ok tk' ∧ tk'.fds = tk.fds.set fd (some new) ∧ x.2.getReq new = .ok r' ∧
        (r.rops = some .uportClient → Copied r r' ∧ Registered x.2 new r') ∧
        (r.rops ≠ some .uportClient → r'.state = .server)) (dup0 s oldFd newFd) := by
  have htask : s.task s.current = some tk := getTask_ok htk
  -- an exit before a handle is made
  have hexit : ∀ v : ℤ, v < 0 → (∀ r, ¬Duplicates s oldFd newFd r) →
      v < 0 ∧ (∃ tk', s.cur = .ok tk' ∧ tk'.fds = tk.fds) ∧
        ∀ r, Duplicates s oldFd newFd r → r.rops = some .uportClient :=
    fun v hneg hno => ⟨hneg, ⟨tk, htk, rfl⟩, fun r hr => absurd hr (hno r)⟩
  simp only [dup0, htk, ok_bind, safely_bind]
  apply reads_eq
  intro f hf
  cases f with
  | none =>
    refine .inl (hexit (-EBADF) (by decide) fun r hr => ?_)
    rw [Duplicates, exists_read htk] at hr
    exact not_exists_handle hf hr
  | some a =>
  dsimp only
  have hiff : ∀ r, Duplicates s oldFd newFd r ↔ s.getReq a = .ok r ∧
      if newFd < 0 then none ∈ tk.fds else tk.fds[newFd.toNat]? = some none := by
    intro r
    rw [Duplicates, exists_read htk, exists_handle hf]
  split
  · rename_i hrange
    refine .inl (hexit (-EBADF) (by decide) fun r hr => ?_)
    rw [hiff, if_neg (not_lt.2 hrange.1), List.getElem?_eq_none (by omega)] at hr
    cases hr.2
  simp only [safely_bind]
  apply reads_eq
  intro taken htaken
  split
  · rename_i hbusy
    refine .inl (hexit (-EBUSY) (by decide) fun r hr => ?_)
    exact dup0_busy htaken hbusy ((hiff r).1 hr).2
  rename_i hfree
  simp only [safely_bind]
  apply reads_eq
  intro r hr
  apply (newReq_get s tk r.type).mono
  rintro ⟨new, s₁⟩ ⟨hcur₁, htask₁, r₀, hnew, htype, hstate, -⟩
  have htk₁ : s₁.task s₁.current = some tk := by rw [htask₁, hcur₁, htask]
  dsimp only at hcur₁ hnew
  split
  · rename_i hfull
    simp only [safely_bind, safely_pure]
    apply ((Woken.refl s₁).freeReq new).mono
    intro s₂ h₂
    obtain ⟨tk₂, htk₂, hfds₂, -⟩ := h₂.fds htk₁
    refine .inl ⟨show (-EMFILE : ℤ) < 0 by decide, ⟨tk₂, getTask_eq (h₂.current ▸ htk₂), hfds₂⟩,
      fun r' hr' => ?_⟩
    rw [hiff] at hr'
    split at hfull
    · rename_i hneg
      rw [if_pos hneg] at hr'
      exact absurd hr'.2 (fdtableInsert_eq_none.1 hfull)
    · cases hfull
  rename_i fd fds hins
  obtain ⟨hslot, rfl, hentry⟩ := dup0_entry htaken hfree hins
  have hdup : Duplicates s oldFd newFd r := (hiff r).2 ⟨hr, hentry⟩
  set s₂ := s₁.setFds (tk.fds.set fd (some new)) with hs₂
  have hset : s₂ = s₁.setTask s₁.current { tk with fds := tk.fds.set fd (some new) } := by
    rw [hs₂, State.setFds, htk₁]
  have htk₂ : s₂.task s₂.current = some { tk with fds := tk.fds.set fd (some new) } := by
    rw [hset]
    exact State.setTask_self ..
  have hnew₂ : s₂.getReq new = .ok r₀ := by
    rw [hset]
    exact hnew
  simp only [safely_bind]
  apply reads_eq
  intro ops hops
  have hops := ropsOf_ok hops
  by_cases hclient : ops = .uportClient
  · subst hclient
    apply ((uportDup_cases hops hnew₂ htype).and ((Woken.refl s₂).ropsDup .uportClient r new)).mono
    rintro ⟨ret, s₃⟩ ⟨⟨hneg, hsame⟩ | ⟨hzero, r', hget', hcopied, hreg⟩, hwoken⟩
    · -- the refusal takes back the entry
      dsimp only at hneg hsame
      subst hsame
      rw [if_pos hneg.ne]
      simp only [safely_bind, safely_pure]
      apply (refused_fds hslot htk₂).mono
      intro s₄ h₄
      apply h₄.mono
      intro s₅ h₅
      refine .inl ⟨hneg, h₅, fun r' hr' => ?_⟩
      rw [hiff, hr, Except.ok.injEq] at hr'
      exact hr'.1 ▸ hops
    · dsimp only at hzero hget' hreg hwoken
      subst hzero
      rw [if_neg (not_not.2 rfl)]
      obtain ⟨tk₃, htk₃, hfds₃, -⟩ := hwoken.fds htk₂
      exact .inr ⟨a, r, new, r', tk₃, fd, rfl, hdup, hf, hr, hslot,
        getTask_eq (hwoken.current ▸ htk₃), hfds₃, hget', fun _ => ⟨hcopied, hreg⟩,
        fun hno => absurd hops hno⟩
  · apply ((ropsDup_cases (r := r) hclient hnew₂ hstate).and
      ((Woken.refl s₂).ropsDup ops r new)).mono
    rintro ⟨ret, s₃⟩ ⟨⟨hzero, r', hget', hserver⟩, hwoken⟩
    dsimp only at hzero hget' hwoken
    subst hzero
    rw [if_neg (not_not.2 rfl)]
    obtain ⟨tk₃, htk₃, hfds₃, -⟩ := hwoken.fds htk₂
    exact .inr ⟨a, r, new, r', tk₃, fd, rfl, hdup, hf, hr, hslot,
      getTask_eq (hwoken.current ▸ htk₃), hfds₃, hget',
      fun hyes => absurd (Option.some.inj (hops.symm.trans hyes)) hclient, fun _ => hserver⟩

/-- **A copy** is made exactly of the connections of clients. -/
theorem dup0_iff {oldFd newFd ret : ℤ} (htk : s.cur = .ok tk)
    (hret : dup0 s oldFd newFd = .ok (ret, s')) :
    Duplicated s s' oldFd ret ↔ ∀ r, Duplicates s oldFd newFd r → r.rops = some .uportClient := by
  rcases (dup0_cases htk oldFd newFd).of_ok hret with
    ⟨hneg, ⟨tk', htk', hfds⟩, hclient⟩ |
    ⟨a, r, new, r', tk', fd, rfl, hdup, ha, hr, hslot, htk', hfds, hr', hcopy, hserver⟩
  · dsimp only at hneg htk'
    refine ⟨fun _ => hclient, fun _ => ⟨fun _ tk₀ htk₀ => ?_, fun hpos => ?_⟩⟩
    · rw [htk, Except.ok.injEq] at htk₀
      exact ⟨tk', htk', htk₀ ▸ hfds⟩
    · exact absurd hneg (not_lt.2 hpos)
  · dsimp only at htk' hr' hcopy
    constructor
    · intro h r₁ hdup₁
      by_contra hno
      obtain ⟨tk₂, tk₂', a₂, r₂, new₂, r₂', htk₂, ha₂, hr₂, -, htk₂', hfds₂, hr₂', hcopied, -⟩ :=
        h.made (Int.natCast_nonneg fd)
      rw [htk, Except.ok.injEq] at htk₂
      subst htk₂
      rw [ha, Except.ok.injEq, Option.some.injEq] at ha₂
      subst ha₂
      rw [hr, Except.ok.injEq] at hr₂
      subst hr₂
      rw [htk', Except.ok.injEq] at htk₂'
      subst htk₂'
      -- both handles are the one in the new entry
      have hsome : (tk.fds.set fd (some new))[fd]? = (tk.fds.set fd (some new₂))[fd]? := by
        rw [← hfds, hfds₂, Int.toNat_natCast]
      have hlt : fd < tk.fds.length := (List.getElem?_eq_some_iff.1 hslot).1
      rw [List.getElem?_set_self hlt, List.getElem?_set_self hlt, Option.some.injEq,
        Option.some.injEq] at hsome
      subst hsome
      rw [hr', Except.ok.injEq] at hr₂'
      subst hr₂'
      rw [Duplicates, exists_read htk, exists_handle ha, hr, Except.ok.injEq] at hdup₁
      rw [← hdup₁.1] at hno
      exact hcopied.state.2 (hserver hno)
    · intro h
      obtain ⟨hcopied, hreg⟩ := hcopy (h r hdup)
      refine ⟨fun hneg => absurd hneg (not_lt.2 (Int.natCast_nonneg fd)), fun _ => ?_⟩
      rw [Int.toNat_natCast]
      exact ⟨tk, tk', a, r, new, r', htk, ha, hr, hslot, htk', hfds, hr', hcopied, hreg⟩

/-! ## `dup2` -/

theorem handleBelow_of_get {fd : ℤ} {a : ℕ} (hpos : 0 ≤ fd)
    (h : tk.fds[fd.toNat]? = some (some a)) :
    handleBelow tk fd = .ok (some a) := by
  have hlt : fd.toNat < tk.fds.length := (List.getElem?_eq_some_iff.1 h).1
  rw [handleBelow, if_neg (by omega), fileAt, h]

theorem handleAt_of_get {fd : ℤ} {a : ℕ} (hpos : 0 ≤ fd) (h : tk.fds[fd.toNat]? = some (some a)) :
    handleAt tk fd = .ok (some a) := by
  have hlt : fd.toNat < tk.fds.length := (List.getElem?_eq_some_iff.1 h).1
  rw [handleAt, if_neg (by omega), fileAt, h]

/-- `close` clears the entry that was tested. -/
theorem close_cases (htk : s.cur = .ok tk) (fd : ℤ) :
    Safely AnyFault (fun x => ∃ tk', x.2.cur = .ok tk' ∧
      ((handleAt tk fd = .ok none ∧ tk'.fds = tk.fds) ∨
        ∃ a, handleAt tk fd = .ok (some a) ∧ tk'.fds = tk.fds.set fd.toNat none)) (close s fd) := by
  simp only [close, htk, ok_bind, safely_bind]
  apply reads_eq
  intro f hf
  cases f with
  | none => exact ⟨tk, htk, .inl ⟨hf, rfl⟩⟩
  | some a =>
  simp only [safely_bind, safely_pure]
  apply (clearFd_fds s fd.toNat).mono
  rintro s₁ ⟨hcur₁, tk₁, htk₁, htask₁⟩
  rw [htk, Except.ok.injEq] at htk₁
  subst htk₁
  rw [← hcur₁] at htask₁
  apply reads
  intro r
  apply reads
  intro ops
  apply ((Woken.refl s₁).ropsDrop ops a).mono
  intro s₂ h₂
  apply (h₂.freeReq a).mono
  intro s₃ h₃
  obtain ⟨tk₃, htk₃, hfds₃, -⟩ := h₃.fds htask₁
  exact ⟨tk₃, getTask_eq (h₃.current ▸ htk₃), .inr ⟨a, hf, hfds₃⟩⟩

/-- The old number is lost exactly if it is the new one. -/
theorem dup2_open_iff {oldFd newFd ret : ℤ} (hret : dup2 s oldFd newFd = .ok (ret, s')) :
    (Open s oldFd → Open s' oldFd) ↔ ¬(oldFd = newFd ∧ Open s oldFd) := by
  by_cases hopen : Open s oldFd
  swap
  · exact iff_of_true (fun h => absurd h hopen) fun h => hopen h.2
  rw [and_iff_left hopen, forall_prop_of_true hopen]
  obtain ⟨tk, a, htk, ha⟩ := hopen
  obtain ⟨hpos, hget⟩ := handleBelow_get ha
  unfold dup2 at hret
  cases hclose : close s newFd with
  | error e => simp [hclose] at hret
  | ok x =>
  obtain ⟨v, s₁⟩ := x
  rw [hclose, ok_bind] at hret
  obtain ⟨tk₁, htk₁, hfds₁⟩ := (close_cases htk newFd).of_ok hclose
  dsimp only at htk₁ hret
  have hcases := (dup0_cases htk₁ oldFd newFd).of_ok hret
  dsimp only at hcases
  by_cases heq : oldFd = newFd
  · -- the entry is cleared, and nothing is left to copy
    subst heq
    have hat := handleAt_of_get hpos hget
    have hgone : tk₁.fds[oldFd.toNat]? = some none := by
      rcases hfds₁ with ⟨hnone, -⟩ | ⟨a₁, -, hfds₁⟩
      · rw [hat] at hnone
        cases hnone
      · rw [hfds₁, List.getElem?_set_self (List.getElem?_eq_some_iff.1 hget).1]
    refine iff_of_false ?_ (not_not.2 rfl)
    rintro ⟨tk₂, a₂, htk₂, ha₂⟩
    have hget₂ := (handleBelow_get ha₂).2
    rcases hcases with ⟨-, ⟨tk', htk', hfds'⟩, -⟩ |
      ⟨a', -, -, -, -, -, -, -, ha', -⟩
    · rw [htk', Except.ok.injEq] at htk₂
      subst htk₂
      rw [hfds', hgone] at hget₂
      cases hget₂
    · rw [(handleBelow_get ha').2] at hgone
      cases hgone
  · -- no other entry is cleared, and that of the copy was free
    refine iff_of_true ?_ heq
    have hget₁ : tk₁.fds[oldFd.toNat]? = some (some a) := by
      rcases hfds₁ with ⟨-, hfds₁⟩ | ⟨a₁, ha₁, hfds₁⟩
      · rw [hfds₁, hget]
      · have hnew := (handleAt_get ha₁).1
        rw [hfds₁, List.getElem?_set_ne (by omega), hget]
    rcases hcases with ⟨-, ⟨tk', htk', hfds'⟩, -⟩ |
      ⟨a', r, new, r', tk', fd, -, -, -, -, hslot, htk', hfds', -⟩
    · exact ⟨tk', a, htk', handleBelow_of_get hpos (hfds' ▸ hget₁)⟩
    · refine ⟨tk', a, htk', handleBelow_of_get hpos ?_⟩
      have hne : fd ≠ oldFd.toNat := by
        rintro rfl
        rw [hslot] at hget₁
        cases hget₁
      rw [hfds', List.getElem?_set_ne hne, hget₁]

/-- **Copies of handles**: `dup0` makes them exactly of the connections of clients, and `dup2`
keeps the old handle exactly if its number is not the new one. -/
theorem dup_iff (s : State) :
    (∀ tk oldFd newFd ret s', s.cur = .ok tk → dup0 s oldFd newFd = .ok (ret, s') →
      (Duplicated s s' oldFd ret ↔ ∀ r, Duplicates s oldFd newFd r → r.rops = some .uportClient)) ∧
    ∀ oldFd newFd ret s', dup2 s oldFd newFd = .ok (ret, s') →
      ((Open s oldFd → Open s' oldFd) ↔ ¬(oldFd = newFd ∧ Open s oldFd)) :=
  ⟨fun _ _ _ _ _ htk hret => dup0_iff htk hret, fun _ _ _ _ hret => dup2_open_iff hret⟩

/-- The init task opens port 20.  Both copies of the handle go through. -/
theorem dup_port : ∃ s tk a r s₁ s₂, run (bootWith []) [.schedule, .call (.openPort 20)] = .ok s ∧
    s.cur = .ok tk ∧ handleBelow tk 0 = .ok (some a) ∧ s.getReq a = .ok r ∧
    r.rops = some .uportServer ∧ none ∈ tk.fds ∧ dup0 s 0 (-1) = .ok (1, s₁) ∧
    dup2 s 0 0 = .ok (-EBADF, s₂) := by
  have hrun : (run (bootWith []) [.schedule, .call (.openPort 20)]).toOption.bind (fun s =>
      s.cur.toOption.bind fun tk => (handleBelow tk 0).toOption.bind fun f =>
        f.bind fun a => (s.getReq a).toOption.bind fun r =>
          (dup0 s 0 (-1)).toOption.bind fun x => (dup2 s 0 0).toOption.bind fun y =>
            some (r.rops, tk.fds[1]?, x.1, y.1)) =
        some (some .uportServer, some none, 1, -EBADF) := by
    decide +kernel
  obtain ⟨s, hs, hrun⟩ := exists_of_bind hrun
  obtain ⟨tk, htk, hrun⟩ := exists_of_bind hrun
  obtain ⟨f, hf, hrun⟩ := exists_of_bind hrun
  obtain ⟨a, rfl, hrun⟩ := Option.bind_eq_some_iff.1 hrun
  obtain ⟨r, hr, hrun⟩ := exists_of_bind hrun
  obtain ⟨⟨ret₁, s₁⟩, hret₁, hrun⟩ := exists_of_bind hrun
  obtain ⟨⟨ret₂, s₂⟩, hret₂, hrun⟩ := exists_of_bind hrun
  simp only [Option.some.injEq, Prod.mk.injEq] at hrun
  obtain ⟨hops, hfree, rfl, rfl⟩ := hrun
  exact ⟨s, tk, a, r, s₁, s₂, hs, htk, hf, hr, hops, List.mem_of_getElem? hfree, hret₁, hret₂⟩

theorem dup_iff_port : ∃ s s₁ s₂, run (bootWith []) [.schedule, .call (.openPort 20)] = .ok s ∧
    (Duplicated s s₁ 0 1 ↔ ∀ r, Duplicates s 0 (-1) r → r.rops = some .uportClient) ∧
    ((Open s 0 → Open s₂ 0) ↔ ¬((0 : ℤ) = 0 ∧ Open s 0)) := by
  obtain ⟨s, tk, a, r, s₁, s₂, hs, htk, -, -, -, -, hret₁, hret₂⟩ := dup_port
  exact ⟨s, s₁, s₂, hs, (dup_iff s).1 tk 0 (-1) 1 s₁ htk hret₁, (dup_iff s).2 0 0 _ s₂ hret₂⟩

/-- The copy of a port has no operations, and `dup2` of a number to itself closes it. -/
theorem dup_fails :
    (¬∀ (free : List ℕ) (l : List Action) (s : State), run (bootWith free) l = .ok s →
      ∀ tk oldFd newFd ret s', s.cur = .ok tk → dup0 s oldFd newFd = .ok (ret, s') →
        Duplicated s s' oldFd ret) ∧
    ¬∀ (free : List ℕ) (l : List Action) (s : State), run (bootWith free) l = .ok s →
      ∀ oldFd newFd ret s', dup2 s oldFd newFd = .ok (ret, s') → Open s oldFd → Open s' oldFd := by
  obtain ⟨s, tk, a, r, s₁, s₂, hs, htk, ha, hr, hops, hfree, hret₁, hret₂⟩ := dup_port
  constructor
  · intro h
    have hcopies := (dup0_iff htk hret₁).1 (h _ _ s hs tk 0 (-1) 1 s₁ htk hret₁)
    have hclient := hcopies r ⟨tk, htk, a, ha, hr, by rwa [if_pos (by decide)]⟩
    rw [hops] at hclient
    cases hclient
  · intro h
    have hkeeps := (dup2_open_iff hret₂).1 (h _ _ s hs 0 0 _ s₂ hret₂)
    exact hkeeps ⟨rfl, tk, a, htk, ha⟩

end SadOS.Kernel
