import SadOS.Kernel.Pools
import SadOS.Lib.Fifo

/-!
# Where messages wait

A message waits in the `incoming` list of one port or connection, and its `next` leads there.  A
task that ends takes its messages with it, and leaves their addresses in the lists of others, where
nothing takes their place.

## Main definitions

* `State.boxAt`, `State.msgAt` — the lists and the messages.
* `MailOk x s` — the invariant, but for the lists in `x`.
* `Mail x B M s` — the state has the lists `B` and the messages `M`.

## Main results

* `Mail.setBody`, `Mail.alloc`, `Mail.freeOther` — writes that no message is concerned with.
* `Mail.enqueue`, `Mail.unqueue`, `Mail.freeMsg`, `Mail.freeBox` — the others.
-/

namespace SadOS.Kernel

open Function (update)

/-- The messages that wait at a port or a connection. -/
def Body.box : Body → Option (List ℕ)
  | .uport u => some u.incoming
  | .uportReq u => some u.incoming
  | _ => none

def Body.msg : Body → Option Message
  | .message m => some m
  | _ => none

def State.boxAt (s : State) (q : ℕ) : Option (List ℕ) := (s.objs q).bind fun o => o.body.box

def State.msgAt (s : State) (m : ℕ) : Option Message := (s.objs m).bind fun o => o.body.msg

/-- An object that is gone with its pool. -/
structure Retired (s : State) (m : ℕ) : Prop where
  objs : s.objs m = none
  lt : m < s.nextObj
  notFree : ∀ p l, s.pools p = some l → m ∉ l

/-- A message waits once, where it is linked. -/
structure MailOk (x : ℕ → Prop) (s : State) : Prop where
  pools : PoolsOk s
  nodup : ∀ q l, ¬x q → s.boxAt q = some l → l.Nodup
  linked : ∀ q l m, ¬x q → s.boxAt q = some l → m ∈ l →
    (∃ msg, s.msgAt m = some msg ∧ msg.next = some q) ∨ Retired s m

/-- The lists and the messages of a state. -/
structure Mail (x : ℕ → Prop) (B : ℕ → Option (List ℕ)) (M : ℕ → Option Message) (s : State) :
    Prop where
  ok : MailOk x s
  box : s.boxAt = B
  msg : s.msgAt = M

/-- No list is left out. -/
abbrev nowhere : ℕ → Prop := fun _ => False

/-! ## Reads -/

section reads

variable {s : State} {a : ℕ}

theorem other_of_getReq {r : Request} (h : s.getReq a = .ok r) : s.msgAt a = none ∧ s.boxAt a = none := by
  obtain ⟨p, hobj⟩ := getReq_ok h
  simp [State.msgAt, State.boxAt, hobj, Body.msg, Body.box]

theorem other_of_getCookie {c : UportCookie} (h : s.getCookie a = .ok c) :
    s.msgAt a = none ∧ s.boxAt a = none := by
  obtain ⟨p, hobj⟩ := getCookie_ok h
  simp [State.msgAt, State.boxAt, hobj, Body.msg, Body.box]

theorem msgAt_of_getMsg {msg : Message} (h : s.getMsg a = .ok msg) :
    s.msgAt a = some msg ∧ s.boxAt a = none := by
  obtain ⟨p, hobj⟩ := getMsg_ok h
  simp [State.msgAt, State.boxAt, hobj, Body.msg, Body.box]

theorem boxAt_of_getUport {u : Uport} (h : s.getUport a = .ok u) :
    s.boxAt a = some u.incoming ∧ s.msgAt a = none := by
  obtain ⟨p, hobj⟩ := getUport_ok h
  simp [State.msgAt, State.boxAt, hobj, Body.msg, Body.box]

theorem boxAt_of_getUportReq {u : UportReq} (h : s.getUportReq a = .ok u) :
    s.boxAt a = some u.incoming ∧ s.msgAt a = none := by
  obtain ⟨p, hobj⟩ := getUportReq_ok h
  simp [State.msgAt, State.boxAt, hobj, Body.msg, Body.box]

theorem boxAt_of_getIncoming {l : List ℕ} (h : s.getIncoming a = .ok l) :
    s.boxAt a = some l ∧ s.msgAt a = none := by
  unfold State.getIncoming at h
  split at h
  · rename_i p u hobj
    cases h
    simp [State.msgAt, State.boxAt, hobj, Body.msg, Body.box]
  · rename_i p u hobj
    cases h
    simp [State.msgAt, State.boxAt, hobj, Body.msg, Body.box]
  · cases h

/-- A message is not a list. -/
theorem boxAt_of_msgAt {msg : Message} (h : s.msgAt a = some msg) : s.boxAt a = none := by
  obtain ⟨⟨p, b⟩, hobj, hb⟩ := Option.bind_eq_some_iff.1 h
  cases b with
  | message _ => simp [State.boxAt, hobj, Body.box]
  | _ => cases hb

theorem objs_of_msgAt {msg : Message} (h : s.msgAt a = some msg) : s.objs a ≠ none := by
  intro hnone
  simp [State.msgAt, hnone] at h

end reads

/-! ## Writes -/

theorem boxAt_setBody (s : State) (a : ℕ) (b : Body) :
    (s.setBody a b).boxAt = update s.boxAt a ((s.objs a).bind fun _ => b.box) := by
  funext q
  by_cases h : q = a
  · subst h
    rw [State.boxAt, State.setBody_self, Function.update_self]
    cases s.objs q <;> rfl
  · rw [State.boxAt, State.setBody_of_ne _ h, Function.update_of_ne h, State.boxAt]

theorem msgAt_setBody (s : State) (a : ℕ) (b : Body) :
    (s.setBody a b).msgAt = update s.msgAt a ((s.objs a).bind fun _ => b.msg) := by
  funext q
  by_cases h : q = a
  · subst h
    rw [State.msgAt, State.setBody_self, Function.update_self]
    cases s.objs q <;> rfl
  · rw [State.msgAt, State.setBody_of_ne _ h, Function.update_of_ne h, State.msgAt]

/-- A retired object stays so. -/
theorem Retired.setBody {s : State} {m : ℕ} (h : Retired s m) (a : ℕ) (b : Body) :
    Retired (s.setBody a b) m := by
  refine ⟨?_, h.lt, h.notFree⟩
  by_cases hm : m = a
  · subst hm
    rw [State.setBody_self, h.objs, Option.map_none]
  · rw [State.setBody_of_ne _ hm, h.objs]

/-- What `obj_pool_alloc` returns. -/
structure Allocated (s : State) (pool : ℕ) (r : ℕ × State) : Prop where
  fresh : s.objs r.1 = none
  objs : r.2.objs = update s.objs r.1 (some ⟨pool, .blank⟩)
  le : s.nextObj ≤ r.2.nextObj
  pools : ∀ p l', r.2.pools p = some l' → ∃ l, s.pools p = some l ∧ l' ⊆ l
  was : (∃ p l, s.pools p = some l ∧ r.1 ∈ l) ∨ s.nextObj ≤ r.1

theorem alloc_spec {s : State} (h : PoolsOk s) (pool : ℕ) :
    Safely AnyFault (Allocated s pool) (s.alloc pool) := by
  have hfresh := h.alloc_fresh pool
  unfold State.alloc at hfresh ⊢
  split
  · trivial
  · rename_i a rest hpool
    rw [hpool] at hfresh
    refine ⟨hfresh.1, rfl, le_rfl, fun p l' hl' => ?_, .inl ⟨pool, _, hpool, List.mem_cons_self⟩⟩
    by_cases hp : p = pool
    · subst hp
      obtain rfl : rest = l' := by simpa using hl'
      exact ⟨_, hpool, List.subset_cons_self _ _⟩
    · exact ⟨l', by simpa [Function.update_of_ne hp] using hl', List.Subset.refl _⟩
  · rename_i hpool
    rw [hpool] at hfresh
    exact ⟨hfresh.1, rfl, Nat.le_succ _, fun p l' hl' => ⟨l', hl', List.Subset.refl _⟩, .inr le_rfl⟩

theorem Retired.alloc {s : State} {m pool : ℕ} (h : Retired s m) {r : ℕ × State}
    (hr : Allocated s pool r) : m ≠ r.1 ∧ Retired r.2 m := by
  have hne : m ≠ r.1 := by
    rintro rfl
    rcases hr.was with ⟨p, l, hl, hm⟩ | hle
    · exact h.notFree p l hl hm
    · exact absurd h.lt (Nat.not_lt.2 hle)
  refine ⟨hne, ?_, Nat.lt_of_lt_of_le h.lt hr.le, fun p l' hl' hm => ?_⟩
  · rw [hr.objs, Function.update_of_ne hne, h.objs]
  · obtain ⟨l, hl, hsub⟩ := hr.pools p l' hl'
    exact h.notFree p l hl (hsub hm)

/-- What `obj_pool_free` does. -/
structure GivenBack (s : State) (a : ℕ) (s' : State) : Prop where
  used : s.objs a ≠ none
  objs : s'.objs = update s.objs a none
  next : s'.nextObj = s.nextObj
  pools : ∀ p l', s'.pools p = some l' → ∃ l, s.pools p = some l ∧ l' ⊆ a :: l

theorem free_spec (s : State) (pool a : ℕ) : Safely AnyFault (GivenBack s a) (s.free pool a) := by
  unfold State.free
  split
  · rename_i l o hpool hobj
    refine ⟨by simp [hobj], rfl, rfl, fun p l' hl' => ?_⟩
    by_cases hp : p = pool
    · subst hp
      obtain rfl : a :: l = l' := by simpa using hl'
      exact ⟨l, hpool, List.Subset.refl _⟩
    · exact ⟨l', by simpa [Function.update_of_ne hp] using hl', List.subset_cons_self _ _⟩
  · trivial

theorem Retired.release {s s' : State} {m a : ℕ} (h : Retired s m) (hr : GivenBack s a s') :
    Retired s' m := by
  have hne : m ≠ a := by
    rintro rfl
    exact hr.used h.objs
  refine ⟨?_, hr.next ▸ h.lt, fun p l' hl' hm => ?_⟩
  · rw [hr.objs, Function.update_of_ne hne, h.objs]
  · obtain ⟨l, hl, hsub⟩ := hr.pools p l' hl'
    exact h.notFree p l hl ((List.mem_cons.1 (hsub hm)).resolve_left hne)

namespace Mail

variable {x : ℕ → Prop} {B : ℕ → Option (List ℕ)} {M : ℕ → Option Message} {s s' : State}

/-- More lists may be left out. -/
theorem weaken {y : ℕ → Prop} (h : Mail x B M s) (hx : ∀ q, x q → y q) : Mail y B M s where
  ok := ⟨h.ok.pools, fun q l hq => h.ok.nodup q l (hq ∘ hx q),
    fun q l m hq => h.ok.linked q l m (hq ∘ hx q)⟩
  box := h.box
  msg := h.msg

/-- A message that waits is linked where it waits, or it is retired. -/
theorem linked (h : Mail x B M s) {q m : ℕ} {l : List ℕ} (hq : ¬x q) (hl : B q = some l) (hm : m ∈ l) :
    (∃ msg, M m = some msg ∧ msg.next = some q) ∨ Retired s m := by
  have hlinked := h.ok.linked q l m hq (by rw [h.box, hl]) hm
  rwa [h.msg] at hlinked

/-- A message waits in the list that it is linked in only. -/
theorem next_of_mem (h : Mail x B M s) {q m : ℕ} {l : List ℕ} {msg : Message} (hq : ¬x q)
    (hl : B q = some l) (hm : m ∈ l) (hmsg : M m = some msg) : msg.next = some q := by
  rcases h.linked hq hl hm with ⟨msg', hmsg', hnext⟩ | hret
  · rw [hmsg, Option.some.injEq] at hmsg'
    exact hmsg' ▸ hnext
  · rw [← h.msg, State.msgAt, hret.objs] at hmsg
    cases hmsg

theorem nodup (h : Mail x B M s) {q : ℕ} {l : List ℕ} (hq : ¬x q) (hl : B q = some l) : l.Nodup :=
  h.ok.nodup q l hq (by rw [h.box, hl])

/-- A state with the same objects and pools. -/
theorem same (h : Mail x B M s) (hobjs : s'.objs = s.objs) (hpools : s'.pools = s.pools)
    (hnext : s'.nextObj = s.nextObj) : Mail x B M s' where
  ok := {
    pools := h.ok.pools.same (fun a => by rw [hobjs]) hpools hnext
    nodup := fun q l hq hl => h.ok.nodup q l hq (by rwa [State.boxAt, hobjs] at hl)
    linked := fun q l m hq hl hm => by
      rw [State.boxAt, hobjs] at hl
      rcases h.ok.linked q l m hq hl hm with hlinked | hr
      · rw [State.msgAt, hobjs]
        exact .inl hlinked
      · exact .inr ⟨hobjs ▸ hr.objs, hnext ▸ hr.lt, hpools ▸ hr.notFree⟩ }
  box := by
    rw [← h.box]
    funext q
    rw [State.boxAt, hobjs, State.boxAt]
  msg := by
    rw [← h.msg]
    funext q
    rw [State.msgAt, hobjs, State.msgAt]

theorem setMm (h : Mail x B M s) (m : Mm.State) : Mail x B M (s.setMm m) := h.same rfl rfl rfl

theorem setTask (h : Mail x B M s) (t : ℕ) (tk : Task) : Mail x B M (s.setTask t tk) :=
  h.same rfl rfl rfl

/-- A write to an object with a list. -/
theorem setBox {q : ℕ} (h : Mail (fun p => x p ∨ p = q) B M s) {b : Body} {l : List ℕ}
    (hobj : s.objs q ≠ none) (hM : M q = none) (hb : b.box = some l) (hmsg : b.msg = none)
    (hnodup : ¬x q → l.Nodup)
    (hlinked : ¬x q → ∀ m ∈ l, (∃ msg, M m = some msg ∧ msg.next = some q) ∨ Retired s m) :
    Mail x (update B q (some l)) M (s.setBody q b) := by
  obtain ⟨o, ho⟩ := Option.ne_none_iff_exists'.1 hobj
  have hB' : (s.setBody q b).boxAt = update B q (some l) := by
    rw [boxAt_setBody, h.box, ho, Option.bind_some, hb]
  have hM' : (s.setBody q b).msgAt = M := by
    rw [msgAt_setBody, h.msg, ho, Option.bind_some, hmsg, Function.update_eq_self_iff, hM]
  refine ⟨⟨h.ok.pools.setBody q b, fun p l' hp hl' => ?_, fun p l' m hp hl' hm => ?_⟩, hB', hM'⟩
  · rw [hB'] at hl'
    by_cases hpq : p = q
    · subst hpq
      rw [Function.update_self, Option.some.injEq] at hl'
      exact hl' ▸ hnodup hp
    · rw [Function.update_of_ne hpq] at hl'
      exact h.nodup (by simp [hp, hpq]) hl'
  · rw [hB'] at hl'
    rw [hM']
    by_cases hpq : p = q
    · subst hpq
      rw [Function.update_self, Option.some.injEq] at hl'
      exact (hlinked hp m (hl' ▸ hm)).imp_right fun hr => hr.setBody p b
    · rw [Function.update_of_ne hpq] at hl'
      exact (h.linked (by simp [hp, hpq]) hl' hm).imp_right fun hr => hr.setBody q b

/-- A write to an object that is no message, and whose list stays as it is. -/
theorem setBody (h : Mail x B M s) {a : ℕ} {b : Body} (hm : M a = none) (hb : b.msg = none)
    (hbox : b.box = B a) : Mail x B M (s.setBody a b) := by
  have hB : (s.setBody a b).boxAt = B := by
    rw [boxAt_setBody, h.box, Function.update_eq_self_iff, hbox]
    cases hobj : s.objs a with
    | none => simp [← h.box, State.boxAt, hobj]
    | some o => rfl
  have hM : (s.setBody a b).msgAt = M := by
    rw [msgAt_setBody, h.msg, Function.update_eq_self_iff, hb, hm]
    cases s.objs a <;> rfl
  refine ⟨⟨h.ok.pools.setBody a b, fun q l hq hl => ?_, fun q l m hq hl hmem => ?_⟩, hB, hM⟩
  · exact h.nodup hq (hB ▸ hl)
  · rw [hM]
    exact (h.linked hq (hB ▸ hl) hmem).imp_right fun hr => hr.setBody a b

theorem setReq (h : Mail x B M s) {a : ℕ} (ha : M a = none ∧ B a = none) (r : Request) :
    Mail x B M (s.setReq a r) := h.setBody ha.1 rfl ha.2.symm

/-- A write to a message. -/
theorem setMessage (h : Mail x B M s) {m : ℕ} (msg : Message) (hobj : s.objs m ≠ none)
    (hB : B m = none) (hlink : ∀ q l, ¬x q → B q = some l → m ∈ l → msg.next = some q) :
    Mail x B (update M m (some msg)) (s.setBody m (.message msg)) := by
  obtain ⟨o, ho⟩ := Option.ne_none_iff_exists'.1 hobj
  have hB' : (s.setBody m (.message msg)).boxAt = B := by
    rw [boxAt_setBody, h.box, ho, Option.bind_some, Function.update_eq_self_iff, hB]
    rfl
  have hM' : (s.setBody m (.message msg)).msgAt = update M m (some msg) := by
    rw [msgAt_setBody, h.msg, ho, Option.bind_some]
    rfl
  refine ⟨⟨h.ok.pools.setBody m _, fun q l hq hl => ?_, fun q l m' hq hl hm => ?_⟩, hB', hM'⟩
  · exact h.nodup hq (hB' ▸ hl)
  · rw [hB'] at hl
    rw [hM']
    by_cases hmm : m' = m
    · subst hmm
      exact .inl ⟨msg, Function.update_self .., hlink q l hq hl hm⟩
    · rw [Function.update_of_ne hmm]
      exact (h.linked hq hl hm).imp_right fun hr => hr.setBody m _

/-- A new object. -/
structure Fresh (x : ℕ → Prop) (B : ℕ → Option (List ℕ)) (M : ℕ → Option Message) (a : ℕ) : Prop where
  other : M a = none ∧ B a = none
  notMem : ∀ q l, ¬x q → B q = some l → a ∉ l

theorem alloc (h : Mail x B M s) (pool : ℕ) :
    Safely AnyFault (fun r => Mail x B M r.2 ∧ Fresh x B M r.1 ∧ Allocated s pool r) (s.alloc pool) := by
  refine ((h.ok.pools.alloc pool).and (alloc_spec h.ok.pools pool)).mono fun r hr => ?_
  obtain ⟨hpools, hr⟩ := hr
  have hother : M r.1 = none ∧ B r.1 = none := by
    simp [← h.msg, ← h.box, State.msgAt, State.boxAt, hr.fresh]
  have hB : r.2.boxAt = B := by
    rw [← h.box]
    funext q
    by_cases hq : q = r.1
    · simp [State.boxAt, hr.objs, hq, hr.fresh, Body.box]
    · simp [State.boxAt, hr.objs, Function.update_of_ne hq]
  have hM : r.2.msgAt = M := by
    rw [← h.msg]
    funext q
    by_cases hq : q = r.1
    · simp [State.msgAt, hr.objs, hq, hr.fresh, Body.msg]
    · simp [State.msgAt, hr.objs, Function.update_of_ne hq]
  refine ⟨⟨⟨hpools, fun q l hq hl => h.nodup hq (hB ▸ hl), fun q l m hq hl hm => ?_⟩, hB, hM⟩,
    ⟨hother, fun q l hq hl hm => ?_⟩, hr⟩
  · rw [hM]
    exact (h.linked hq (hB ▸ hl) hm).imp_right fun hret => (hret.alloc hr).2
  · rcases h.linked hq hl hm with ⟨msg, hmsg, -⟩ | hret
    · rw [hother.1] at hmsg
      cases hmsg
    · exact (hret.alloc hr).1 rfl

/-- An object goes back that is on none of the lists. -/
theorem free {a : ℕ} (h : Mail (fun p => x p ∨ p = a) B M s)
    (hout : ∀ q l, q ≠ a → ¬x q → B q = some l → a ∉ l) (pool : ℕ) :
    Safely AnyFault (Mail x (update B a none) (update M a none)) (s.free pool a) := by
  refine ((h.ok.pools.free pool a).and (free_spec s pool a)).mono fun s' hs' => ?_
  obtain ⟨hpools, hs'⟩ := hs'
  have hB' : s'.boxAt = update B a none := by
    rw [← h.box]
    funext q
    by_cases hq : q = a
    · simp [State.boxAt, hs'.objs, hq]
    · simp [State.boxAt, hs'.objs, Function.update_of_ne hq]
  have hM' : s'.msgAt = update M a none := by
    rw [← h.msg]
    funext q
    by_cases hq : q = a
    · simp [State.msgAt, hs'.objs, hq]
    · simp [State.msgAt, hs'.objs, Function.update_of_ne hq]
  have hold : ∀ {q l}, ¬x q → s'.boxAt q = some l →
      q ≠ a ∧ B q = some l ∧ ¬(x q ∨ q = a) := by
    intro q l hq hl
    rw [hB'] at hl
    by_cases hqa : q = a
    · simp [hqa] at hl
    · exact ⟨hqa, by rwa [Function.update_of_ne hqa] at hl, by simp [hq, hqa]⟩
  refine ⟨⟨hpools, fun q l hq hl => ?_, fun q l m hq hl hm => ?_⟩, hB', hM'⟩
  · obtain ⟨-, hl, hq⟩ := hold hq hl
    exact h.nodup hq hl
  · obtain ⟨hqa, hl, hqx⟩ := hold hq hl
    have hne : m ≠ a := fun heq => hout q l hqa hq hl (heq ▸ hm)
    rw [hM', Function.update_of_ne hne]
    exact (h.linked hqx hl hm).imp_right fun hret => hret.release hs'

/-- An object in use that is no message is on no list. -/
theorem notMem_of_used (h : Mail x B M s) {a : ℕ} (hobj : s.objs a ≠ none) (hM : M a = none)
    {q : ℕ} {l : List ℕ} (hq : ¬x q) (hl : B q = some l) : a ∉ l := by
  intro hm
  rcases h.linked hq hl hm with ⟨msg, hmsg, -⟩ | hret
  · rw [hM] at hmsg
    cases hmsg
  · exact hobj hret.objs

/-- An object with a list goes back, and need not be left out any more. -/
theorem freeBox {a : ℕ} (h : Mail (fun p => x p ∨ p = a) B M s) (hM : M a = none) (pool : ℕ) :
    Safely AnyFault (Mail x (update B a none) M) (s.free pool a) := by
  by_cases hobj : s.objs a = none
  · unfold State.free
    split
    · rename_i ho
      rw [hobj] at ho
      cases ho
    · trivial
  · refine (h.free (fun q l hqa hq hl => ?_) pool).mono fun s' hs' => ?_
    · exact h.notMem_of_used hobj hM (by simp [hq, hqa]) hl
    · rwa [show update M a none = M from Function.update_eq_self_iff.2 hM.symm] at hs'

/-- An object goes back that is neither a message nor has a list. -/
theorem freeOther (h : Mail x B M s) {a : ℕ} (ha : M a = none ∧ B a = none) (pool : ℕ) :
    Safely AnyFault (Mail x B M) (s.free pool a) := by
  refine (freeBox (h.weaken fun _ => .inl) ha.1 pool).mono fun s' hs' => ?_
  rwa [Function.update_eq_self_iff.2 ha.2.symm] at hs'

/-- A message goes back that waits nowhere. -/
theorem freeMsg (h : Mail x B M s) {m : ℕ} (hB : B m = none)
    (hout : ∀ q l, ¬x q → B q = some l → m ∉ l) (pool : ℕ) :
    Safely AnyFault (Mail x B (update M m none)) (s.free pool m) := by
  refine ((h.weaken fun _ => .inl).free (fun q l _ => hout q l) pool).mono fun s' hs' => ?_
  rwa [Function.update_eq_self_iff.2 hB.symm] at hs'

/-! ## The lists -/

theorem setIncoming {q : ℕ} (h : Mail (fun p => x p ∨ p = q) B M s) {l₀ l : List ℕ}
    (hq : B q = some l₀) (hnodup : ¬x q → l.Nodup)
    (hlinked : ¬x q → ∀ m ∈ l, (∃ msg, M m = some msg ∧ msg.next = some q) ∨ Retired s m) :
    Mail x (update B q (some l)) M (s.setIncoming q l) := by
  rw [← h.box] at hq
  obtain ⟨⟨p, b⟩, hobj, hb⟩ := Option.bind_eq_some_iff.1 hq
  have hM : M q = none := by
    cases b <;> first | cases hb; done | simp [← h.msg, State.msgAt, hobj, Body.msg]
  unfold State.setIncoming
  cases b with
  | uport u =>
    rw [hobj]
    exact h.setBox (by simp [hobj]) hM rfl rfl hnodup hlinked
  | uportReq u =>
    rw [hobj]
    exact h.setBox (by simp [hobj]) hM rfl rfl hnodup hlinked
  | _ => cases hb

/-- `list_add_tail` of a message that waits nowhere. -/
theorem enqueue (h : Mail x B M s) (q : ℕ) {m : ℕ} (hout : ∀ q l, ¬x q → B q = some l → m ∉ l) :
    Safely AnyFault (fun s' => ∃ msg l, M m = some msg ∧ B q = some l ∧
      Mail x (update B q (some (l ++ [m]))) (update M m (some { msg with next := some q })) s')
      (enqueue s q m) := by
  simp only [Kernel.enqueue, safely_bind, safely_pure]
  apply reads_eq
  intro msg hmsg
  obtain ⟨hM, hB⟩ := msgAt_of_getMsg hmsg
  have hobj := objs_of_msgAt hM
  rw [h.msg] at hM
  rw [h.box] at hB
  have h₁ := h.setMessage { msg with next := some q } hobj hB
    fun q' l hq hl hm => absurd hm (hout q' l hq hl)
  apply reads_eq
  intro l hl
  have hl : B q = some l := by rw [← h₁.box]; exact (boxAt_of_getIncoming hl).1
  refine ⟨msg, l, hM, hl, (h₁.weaken fun _ => .inl).setIncoming hl (fun hq => ?_) fun hq m' hm' => ?_⟩
  · exact List.nodup_append.2 ⟨h.nodup hq hl, List.nodup_singleton m, fun a ha b hb hab =>
      hout q l hq hl (List.mem_singleton.1 hb ▸ hab ▸ ha)⟩
  · rcases List.mem_append.1 hm' with hm' | hm'
    · exact h₁.linked hq hl hm'
    · rw [List.mem_singleton.1 hm', Function.update_self]
      exact .inl ⟨_, rfl, rfl⟩

/-- `list_del` of a message, after which it waits nowhere. -/
theorem unqueue (h : Mail x B M s) (m : ℕ) :
    Safely AnyFault (fun s' => ∃ msg q l, M m = some msg ∧ B m = none ∧ msg.next = some q ∧
      B q = some l ∧
      Mail x (update B q (some (l.erase m))) (update M m (some { msg with next := none })) s' ∧
      ∀ q' l', ¬x q' → update B q (some (l.erase m)) q' = some l' → m ∉ l') (unqueue s m) := by
  simp only [Kernel.unqueue, safely_bind]
  apply reads_eq
  intro msg hmsg
  obtain ⟨hM, hB⟩ := msgAt_of_getMsg hmsg
  have hobj := objs_of_msgAt hM
  rw [h.msg] at hM
  rw [h.box] at hB
  split
  · trivial
  rename_i q hnext
  simp only [safely_bind, safely_pure]
  -- it waits in no list but that of `q`
  have honly : ∀ q' l, ¬x q' → B q' = some l → m ∈ l → q' = q := by
    intro q' l hq' hl hm
    have hnext' := h.next_of_mem hq' hl hm hM
    rw [hnext, Option.some.injEq] at hnext'
    exact hnext'.symm
  have h₁ := (h.weaken (y := fun p => x p ∨ p = q) fun _ => .inl).setMessage
    { msg with next := none } hobj hB fun q' l hq' hl hm =>
      absurd (.inr (honly q' l (fun hx => hq' (.inl hx)) hl hm)) hq'
  apply reads_eq
  intro l hl
  have hl : B q = some l := by rw [← h₁.box]; exact (boxAt_of_getIncoming hl).1
  refine ⟨msg, q, l, hM, hB, hnext, hl, h₁.setIncoming hl (fun hq => ?_) fun hq m' hm' => ?_,
    fun q' l' hq' hl' hm => ?_⟩
  · exact (h.nodup hq hl).erase m
  · obtain ⟨hne, hm'⟩ := (h.nodup hq hl).mem_erase_iff.1 hm'
    rw [Function.update_of_ne hne]
    exact (h.linked hq hl hm').imp_right fun hret => hret.setBody m _
  · by_cases hqq : q' = q
    · subst hqq
      rw [Function.update_self, Option.some.injEq] at hl'
      exact ((h.nodup hq' hl).mem_erase_iff.1 (hl' ▸ hm)).1 rfl
    · rw [Function.update_of_ne hqq] at hl'
      exact hqq (honly q' l' hq' hl' hm)

/-! ## Pools -/

theorem poolCreate (h : Mail x B M s) : Mail x B M s.poolCreate.2 where
  ok := {
    pools := h.ok.pools.poolCreate
    nodup := h.ok.nodup
    linked := fun q l m hq hl hm => (h.ok.linked q l m hq hl hm).imp_right fun hret =>
      ⟨hret.objs, hret.lt, fun p l' hl' hm' => by
        change update s.pools s.nextPool (some []) p = some l' at hl'
        by_cases hp : p = s.nextPool
        · subst hp
          rw [Function.update_self, Option.some.injEq] at hl'
          subst hl'
          cases hm'
        · rw [Function.update_of_ne hp] at hl'
          exact hret.notFree p l' hl' hm'⟩ }
  box := h.box
  msg := h.msg

/-- The lists and the messages of the pool are gone. -/
theorem poolDestroy (h : Mail x B M s) (pool : ℕ) :
    ∃ B' M', Mail x B' M' (s.poolDestroy pool) ∧ (∀ q l, B' q = some l → B q = some l) ∧
      ∀ m, M' m = M m ∨ M' m = none := by
  have hfew : (∀ q l, (s.poolDestroy pool).boxAt q = some l → B q = some l) ∧
      ∀ m, (s.poolDestroy pool).msgAt m = M m ∨ (s.poolDestroy pool).msgAt m = none := by
    rw [← h.box, ← h.msg]
    constructor
    · intro q l hl
      obtain ⟨o, ho, hl⟩ := Option.bind_eq_some_iff.1 hl
      rw [State.boxAt, (Option.filter_eq_some_iff.1 ho).1]
      exact hl
    · intro m
      simp only [State.msgAt, State.poolDestroy]
      cases s.objs m with
      | none => exact .inl rfl
      | some o => by_cases hp : o.pool = pool <;> simp [Option.filter, hp]
  refine ⟨_, _, ⟨⟨h.ok.pools.poolDestroy pool, fun q l hq hl => ?_, fun q l m hq hl hm => ?_⟩, rfl, rfl⟩,
    hfew⟩
  · exact h.nodup hq (hfew.1 q l hl)
  · have hkeep : ∀ p l, (s.poolDestroy pool).pools p = some l → s.pools p = some l := by
      intro p l hl
      change update s.pools pool none p = some l at hl
      by_cases hp : p = pool
      · simp [hp] at hl
      · rwa [Function.update_of_ne hp] at hl
    rcases h.linked hq (hfew.1 q l hl) hm with ⟨msg, hmsg, hnext⟩ | hret
    · cases hobj : (s.poolDestroy pool).objs m with
      | some o =>
        have hold : s.objs m = some o := (Option.filter_eq_some_iff.1 hobj).1
        refine .inl ⟨msg, ?_, hnext⟩
        rw [← hmsg, ← h.msg, State.msgAt, hobj, State.msgAt, hold]
      | none =>
        -- the message is gone with its pool, and was in use before
        rw [← h.msg] at hmsg
        have hused := objs_of_msgAt hmsg
        obtain ⟨o, ho⟩ := Option.ne_none_iff_exists'.1 hused
        exact .inr ⟨hobj, h.ok.pools.used m o ho, fun p l hl hm =>
          hused (h.ok.pools.dead p l (hkeep p l hl) m hm)⟩
    · refine .inr ⟨?_, hret.lt, fun p l hl => hret.notFree p l (hkeep p l hl)⟩
      change (s.objs m).filter _ = none
      rw [hret.objs, Option.filter_none]

end Mail

end SadOS.Kernel
