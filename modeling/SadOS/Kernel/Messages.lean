import SadOS.Kernel.MailFrames

/-!
# Calls that move messages

`port_connect` and `request` add a message to the end of one list, and `pop_request` takes the first
one.  `close` and the end of a task take messages out of the lists, and lists with their messages.

## Main definitions

* `Parcel`, `parcels M l` — messages, without the lists that they are linked in.
* `Boxes R B M B' M'` — `R` holds of the messages of each list before and after.
* `Adds`, `Takes`, `Removes` — what becomes of a list.

## Main results

* `Mail.portConnect`, `Mail.request` — messages that are sent.
* `Mail.openPort`, `Mail.popRequest` — new lists, and messages that are received.
* `Mail.close`, `Mail.schedule` — messages that are lost.
-/

namespace SadOS.Kernel

open Function (update)
open Mm (fdtableInsert)

/-- A message, without the list that it is linked in. -/
structure Parcel where
  address : ℕ
  plh : Option ℕ
  clientReq : ℕ
  deriving DecidableEq, Repr

def parcelAt (M : ℕ → Option Message) (m : ℕ) : Option Parcel :=
  (M m).map fun msg => ⟨m, msg.plh, msg.clientReq⟩

def parcels (M : ℕ → Option Message) (l : List ℕ) : List Parcel := l.filterMap (parcelAt M)

/-! ## Parcels -/

theorem parcels_append (M : ℕ → Option Message) (l l' : List ℕ) :
    parcels M (l ++ l') = parcels M l ++ parcels M l' := List.filterMap_append

theorem parcels_congr {M M' : ℕ → Option Message} {l : List ℕ}
    (h : ∀ m ∈ l, parcelAt M' m = parcelAt M m) : parcels M' l = parcels M l :=
  List.filterMap_congr h

theorem parcels_update {m : ℕ} {l : List ℕ} (h : m ∉ l) (M : ℕ → Option Message) (v : Option Message) :
    parcels (update M m v) l = parcels M l :=
  parcels_congr fun m' hm' => by
    rw [parcelAt, Function.update_of_ne (ne_of_mem_of_not_mem hm' h), parcelAt]

/-! ## What a step does to the lists -/

/-- The lists that exist before and after. -/
def Boxes (R : List Parcel → List Parcel → Prop) (B : ℕ → Option (List ℕ)) (M : ℕ → Option Message)
    (B' : ℕ → Option (List ℕ)) (M' : ℕ → Option Message) : Prop :=
  ∀ q l l', B q = some l → B' q = some l' → R (parcels M l) (parcels M' l')

/-- One message was added, or none. -/
def Adds (l l' : List Parcel) : Prop := l' = l ∨ ∃ p, l' = l ++ [p]

/-- The first message was taken, or none. -/
def Takes (l l' : List Parcel) : Prop := l = l' ∨ ∃ p, l = p :: l'

variable {B B' : ℕ → Option (List ℕ)} {M M' : ℕ → Option Message} {s : State}

theorem Boxes.refl {R : List Parcel → List Parcel → Prop} (hR : ∀ l, R l l)
    (B : ℕ → Option (List ℕ)) (M : ℕ → Option Message) : Boxes R B M B M := by
  intro q l l' hl hl'
  rw [hl, Option.some.injEq] at hl'
  exact hl' ▸ hR _

/-- Some lists and messages were removed. -/
structure Removes (B : ℕ → Option (List ℕ)) (M : ℕ → Option Message) (B' : ℕ → Option (List ℕ))
    (M' : ℕ → Option Message) : Prop where
  box : ∀ q l', B' q = some l' → ∃ l, B q = some l ∧ l'.Sublist l
  msg : ∀ m, M' m = M m ∨ M' m = none

theorem Removes.refl (B : ℕ → Option (List ℕ)) (M : ℕ → Option Message) : Removes B M B M :=
  ⟨fun _ l' hl' => ⟨l', hl', List.Sublist.refl l'⟩, fun _ => .inl rfl⟩

theorem Removes.other (h : Removes B M B' M') {a : ℕ} (ha : M a = none ∧ B a = none) :
    M' a = none ∧ B' a = none := by
  constructor
  · exact (h.msg a).elim (fun heq => heq.trans ha.1) id
  · cases hB' : B' a with
    | none => rfl
    | some l' =>
      obtain ⟨l, hl, -⟩ := h.box a l' hB'
      rw [ha.2] at hl
      cases hl

theorem Removes.sublist (h : Removes B M B' M') : Boxes (fun l l' => l'.Sublist l) B M B' M' := by
  intro q l l' hl hl'
  obtain ⟨l₀, hl₀, hsub⟩ := h.box q l' hl'
  rw [hl, Option.some.injEq] at hl₀
  subst hl₀
  -- a message that is gone drops out of the parcels
  have hfew : (parcels M' l').Sublist (parcels M l') := by
    clear hl' hsub
    induction l' with
    | nil => exact .slnil
    | cons m rest ih =>
      rw [← List.singleton_append, parcels_append, parcels_append]
      refine List.Sublist.append ?_ ih
      rcases h.msg m with heq | hnone
      · simp [parcels, List.filterMap_cons, parcelAt, heq]
      · simp [parcels, List.filterMap_cons, parcelAt, hnone]
  exact hfew.trans (hsub.filterMap _)

/-! ## Sending -/

namespace Mail

/-- Code with interrupts disabled, of which more is known. -/
theorem lockedTo {x : ℕ → Prop} {α : Type}
    {Q : α → (ℕ → Option (List ℕ)) → (ℕ → Option Message) → Prop} (h : Mail x B M s)
    {f : State → Except Fault (α × State)}
    (hf : ∀ s, Mail x B M s →
      Safely AnyFault (fun r => ∃ B' M', Mail x B' M' r.2 ∧ Q r.1 B' M') (f s)) :
    Safely AnyFault (fun r => ∃ B' M', Mail x B' M' r.2 ∧ Q r.1 B' M') (Kernel.locked s f) := by
  simp only [Kernel.locked, safely_bind, safely_pure]
  refine (hf _ h.disable).mono fun r hr => ?_
  obtain ⟨B', M', hr, hQ⟩ := hr
  exact hr.enable.mono fun s' hs' => ⟨B', M', hs', hQ⟩

/-- A message was sent and the call succeeded, or nothing was sent. -/
def Sent (B : ℕ → Option (List ℕ)) (M : ℕ → Option Message) (r : ℤ × State) : Prop :=
  Mail nowhere B M r.2 ∨ r.1 = 0 ∧ ∃ B' M', Mail nowhere B' M' r.2 ∧ Boxes Adds B M B' M'

theorem newMessage (h : Mail nowhere B M s) (plh : Option ℕ) (clientReq : ℕ) :
    Safely AnyFault (fun r => Fresh nowhere B M r.1 ∧
      Mail nowhere B (update M r.1 (some ⟨plh, clientReq, none⟩)) r.2) (newMessage s plh clientReq) := by
  simp only [Kernel.newMessage, safely_bind, safely_pure]
  apply reads
  intro tk
  refine (h.alloc _).mono fun r hr => ?_
  obtain ⟨hr, hfresh, halloc⟩ := hr
  refine ⟨hfresh, hr.setMessage _ ?_ hfresh.other.2 fun q l hq hl hm => ?_⟩
  · simp [halloc.objs]
  · exact absurd hm (hfresh.notMem q l hq hl)

/-- A new message goes to the end of a list. -/
theorem send {msg₀ : Message} {m : ℕ} (hfresh : Fresh nowhere B M m)
    (h : Mail nowhere B (update M m (some msg₀)) s) (q : ℕ) :
    Safely AnyFault (fun s' => ∃ B' M', Mail nowhere B' M' s' ∧ Boxes Adds B M B' M')
      (Kernel.enqueue s q m) := by
  refine (h.enqueue q hfresh.notMem).mono fun s' hs' => ?_
  obtain ⟨msg, l, -, hl, hs'⟩ := hs'
  rw [Function.update_idem] at hs'
  refine ⟨_, _, hs', fun q' l₁ l₁' hl₁ hl₁' => ?_⟩
  have hnot : m ∉ l₁ := hfresh.notMem q' l₁ (by simp) hl₁
  by_cases hq : q' = q
  · subst hq
    rw [hl, Option.some.injEq] at hl₁
    subst hl₁
    rw [Function.update_self, Option.some.injEq] at hl₁'
    rw [← hl₁', parcels_append, parcels_update hnot]
    exact .inr ⟨⟨m, msg.plh, msg.clientReq⟩, by simp [parcels, parcelAt]⟩
  · rw [Function.update_of_ne hq, hl₁, Option.some.injEq] at hl₁'
    rw [← hl₁', parcels_update hnot]
    exact .inl rfl

theorem uportConnect (h : Mail nowhere B M s) (n a len buf : ℕ) :
    Safely AnyFault (Sent B M) (uportConnect s n a len buf) := by
  simp only [Kernel.uportConnect, safely_bind]
  refine (h.mapPayload len buf).mono fun r hr => ?_
  split
  · exact .inl hr
  simp only [safely_bind]
  refine (hr.newMessage _ a).mono fun r₁ hr₁ => ?_
  obtain ⟨hfresh, h₁⟩ := hr₁
  split
  · trivial
  simp only [safely_bind, safely_pure]
  apply reads
  intro preq
  apply reads
  intro up
  apply reads_eq
  intro req hreq
  refine (send hfresh (h₁.setReq (h₁.other_of_req hreq) _) up).mono fun s₂ hs₂ => ?_
  obtain ⟨B', M', h₂, hadds⟩ := hs₂
  exact (h₂.notify preq _).mono fun s₃ h₃ => .inr ⟨rfl, B', M', h₃, hadds⟩

theorem uportRequest (h : Mail nowhere B M s) (a c len buf : ℕ) :
    Safely AnyFault (Sent B M) (uportRequest s a c len buf) := by
  simp only [Kernel.uportRequest, safely_bind]
  apply reads
  intro r
  split
  · exact .inl h
  split
  · exact .inl h
  split
  · trivial
  simp only [safely_bind]
  apply reads
  intro sreq
  refine (h.mapPayload len buf).mono fun r₁ h₁ => ?_
  split
  · exact .inl h₁
  simp only [safely_bind, safely_pure]
  refine (h₁.newMessage _ c).mono fun r₂ hr₂ => ?_
  obtain ⟨hfresh, h₂⟩ := hr₂
  apply reads_eq
  intro rc hrc
  apply reads
  intro sr
  apply reads
  intro up
  refine (send hfresh (h₂.setReq (h₂.other_of_req hrc) _) up).mono fun s₃ hs₃ => ?_
  obtain ⟨B', M', h₃, hadds⟩ := hs₃
  exact (h₃.notify sr _).mono fun s₄ h₄ => .inr ⟨rfl, B', M', h₄, hadds⟩

/-- `port[port_number]->connect`. -/
theorem connect (h : Mail nowhere B M s) (n : ℤ) (a len buf : ℕ) :
    Safely AnyFault (Sent B M) (connect s n a len buf) := by
  simp only [Kernel.connect, safely_bind]
  apply reads
  intro i
  split
  · trivial
  · exact h.uportConnect i a len buf
  · exact (h.memPortRequest a len buf).mono fun _ => .inl
  · simp only [safely_bind, safely_pure]
    exact reads_eq fun r hr => .inl (h.setReq (h.other_of_req hr) _)
  · simp only [safely_bind, safely_pure]
    exact reads_eq fun r hr => .inl (h.setReq (h.other_of_req hr) _)
  · simp only [safely_bind, safely_pure]
    exact reads_eq fun r hr => .inl (h.setReq (h.other_of_req hr) _)
  · exact (h.intPortConnect a len buf).mono fun _ => .inl

/-- `req->rops->request`. -/
theorem ropsRequest (h : Mail nowhere B M s) (ops : ReqOps) (a c len buf : ℕ) :
    Safely AnyFault (Sent B M) (ropsRequest s ops a c len buf) := by
  cases ops with
  | uportClient => exact h.uportRequest a c len buf
  | mem => exact (h.memPortRequest c len buf).mono fun _ => .inl
  | portio => exact (h.portioRequest c len buf).mono fun _ => .inl
  | uportServer | tarfs | bda | int => trivial

/-- The caller goes on after its message was sent, or takes back the new handle. -/
theorem afterSend {a fd : ℕ} {r : ℤ × State} (hr : Sent B M r) (ha : M a = none ∧ B a = none) :
    Safely AnyFault (fun r => ∃ B' M', Mail nowhere B' M' r.2 ∧ Boxes Adds B M B' M')
      (if r.1 ≠ 0 then do
        let s ← Kernel.freeReq r.2 a
        let s ← Kernel.clearFd s fd
        return (r.1, s)
      else return ((fd : ℤ), r.2)) := by
  have hnone : Boxes Adds B M B M := .refl (fun _ => .inl rfl) B M
  split
  · rename_i hret
    rcases hr with hr | ⟨hzero, -⟩
    · simp only [safely_bind, safely_pure]
      refine (hr.freeReq ha).mono fun s₁ h₁ => ?_
      exact (h₁.clearFd fd).mono fun s₂ h₂ => ⟨B, M, h₂, hnone⟩
    · exact absurd hzero hret
  · rcases hr with hr | ⟨-, hr⟩
    · exact ⟨B, M, hr, hnone⟩
    · exact hr

/-- Nothing was sent, and a new handle is neither a message nor has a list. -/
def Unsent (B : ℕ → Option (List ℕ)) (M : ℕ → Option Message) (r : Except ℤ (ℕ × ℕ))
    (B' : ℕ → Option (List ℕ)) (M' : ℕ → Option Message) : Prop :=
  B' = B ∧ M' = M ∧ ∀ a fd, r = .ok (a, fd) → M a = none ∧ B a = none

theorem connectHandle (h : Mail nowhere B M s) (len buf : ℕ) :
    Safely AnyFault (fun r => ∃ B' M', Mail nowhere B' M' r.2 ∧ Unsent B M r.1 B' M')
      (connectHandle s len buf) := by
  simp only [Kernel.connectHandle, safely_bind]
  apply reads
  intro ok
  split
  · exact ⟨B, M, h, rfl, rfl, fun _ _ heq => by cases heq⟩
  simp only [safely_bind]
  apply reads
  intro tk
  refine (h.newReq tk _).mono fun r hr => ?_
  obtain ⟨hr, hother⟩ := hr
  split
  · simp only [safely_bind, safely_pure]
    exact (hr.freeReq hother).mono fun s₁ h₁ => ⟨B, M, h₁, rfl, rfl, fun _ _ heq => by cases heq⟩
  · refine ⟨B, M, hr.setFds _, rfl, rfl, fun a fd heq => ?_⟩
    cases heq
    exact hother

theorem portConnect (h : Mail nowhere B M s) (port : ℤ) (len buf : ℕ) :
    Safely AnyFault (fun r => ∃ B' M', Mail nowhere B' M' r.2 ∧ Boxes Adds B M B' M')
      (portConnect s port len buf) := by
  have hnone : Boxes Adds B M B M := .refl (fun _ => .inl rfl) B M
  simp only [Kernel.portConnect, safely_bind]
  apply reads
  intro ops
  split
  · exact ⟨B, M, h, hnone⟩
  simp only [safely_bind]
  refine (h.lockedTo (Q := Unsent B M) fun s hs => hs.connectHandle len buf).mono fun r hr => ?_
  obtain ⟨B', M', hr, rfl, rfl, hother⟩ := hr
  split
  · exact ⟨B', M', hr, hnone⟩
  · rename_i a fd hok
    simp only [safely_bind]
    exact (hr.connect port a len buf).mono fun r₁ h₁ => afterSend h₁ (hother a fd hok)

theorem requestOn (h : Mail nowhere B M s) (tk : Task) (ops : ReqOps) {a : ℕ}
    (ha : M a = none ∧ B a = none) (len buf : ℕ) :
    Safely AnyFault (fun r => ∃ B' M', Mail nowhere B' M' r.2 ∧ Boxes Adds B M B' M')
      (requestOn s tk ops a len buf) := by
  simp only [Kernel.requestOn, safely_bind]
  refine (h.newReq tk _).mono fun r hr => ?_
  obtain ⟨hr, hother⟩ := hr
  split
  · simp only [safely_bind, safely_pure]
    exact (hr.freeReq hother).mono fun s₁ h₁ => ⟨B, M, h₁, .refl (fun _ => .inl rfl) B M⟩
  · simp only [safely_bind]
    exact ((hr.setFds _).ropsRequest ops a _ len buf).mono fun r₁ h₁ => afterSend h₁ ha

theorem request (h : Mail nowhere B M s) (rd : ℤ) (len buf : ℕ) :
    Safely AnyFault (fun r => ∃ B' M', Mail nowhere B' M' r.2 ∧ Boxes Adds B M B' M')
      (request s rd len buf) := by
  refine h.lockedTo (Q := fun _ => Boxes Adds B M) fun s hs => ?_
  have hstay : ∃ B' M', Mail nowhere B' M' s ∧ Boxes Adds B M B' M' :=
    ⟨B, M, hs, .refl (fun _ => .inl rfl) B M⟩
  simp only [safely_bind]
  apply reads
  intro tk
  apply reads
  intro f
  split
  · exact hstay
  simp only [safely_bind]
  apply reads_eq
  intro r hr
  split
  · exact hstay
  simp only [safely_bind]
  apply reads
  intro ops
  split
  · exact hstay
  simp only [safely_bind]
  apply reads
  intro ok
  split
  · exact hstay
  · exact hs.requestOn tk _ (hs.other_of_req hr) len buf

/-! ## Objects in use -/

theorem used_setBody {s : State} {a : ℕ} (ha : s.objs a ≠ none) (b : ℕ) (body : Body) :
    (s.setBody b body).objs a ≠ none := by
  by_cases hne : a = b
  · subst hne
    rw [State.setBody_self]
    simpa using ha
  · rwa [State.setBody_of_ne _ hne]

theorem used_execMm {s : State} {a : ℕ} (ha : s.objs a ≠ none) (c : Except SadOS.Fault Mm.State) :
    Safely AnyFault (fun s' => s'.objs a ≠ none) (s.execMm c) := by
  unfold State.execMm
  split
  · exact ha
  · trivial

theorem used_runMm {s : State} {a : ℕ} {α : Type} (ha : s.objs a ≠ none)
    (c : Except SadOS.Fault (α × Mm.State)) :
    Safely AnyFault (fun r => r.2.objs a ≠ none) (s.runMm c) := by
  unfold State.runMm
  split
  · exact ha
  · trivial

theorem used_unqueue {s : State} {a : ℕ} (ha : s.objs a ≠ none) (m : ℕ) :
    Safely AnyFault (fun s' => s'.objs a ≠ none) (Kernel.unqueue s m) := by
  simp only [Kernel.unqueue, safely_bind]
  apply reads
  intro msg
  split
  · trivial
  simp only [safely_bind, safely_pure]
  apply reads
  intro l
  unfold State.setIncoming
  split
  · exact used_setBody (used_setBody ha m _) _ _
  · exact used_setBody (used_setBody ha m _) _ _
  · exact used_setBody ha m _

theorem used_freePayload {s : State} {a : ℕ} (ha : s.objs a ≠ none) (plh : Option ℕ) :
    Safely AnyFault (fun s' => s'.objs a ≠ none) (Kernel.freePayload s plh) := by
  cases plh with
  | none => exact ha
  | some plh => exact used_execMm ha _

theorem used_free {s : State} {a b : ℕ} (ha : s.objs a ≠ none) (hne : a ≠ b) (pool : ℕ) :
    Safely AnyFault (fun s' => s'.objs a ≠ none) (s.free pool b) :=
  (free_spec s pool b).mono fun s' hs' => by
    rw [hs'.objs, Function.update_of_ne hne]
    exact ha

/-! ## A new port -/

/-- A new list. -/
theorem openBox (h : Mail nowhere B M s) {u : ℕ} {b : Body} (hobj : s.objs u ≠ none)
    (hother : M u = none ∧ B u = none) (hb : b.box = some []) (hmsg : b.msg = none) :
    Mail nowhere (update B u (some [])) M (s.setBody u b) :=
  (h.weaken fun _ => .inl).setBox hobj hother.1 hb hmsg (fun _ => List.nodup_nil) (by simp)

theorem setPorts {x : ℕ → Prop} (h : Mail x B M s) (port : ℕ → Option PortOps) (uport : ℕ → Option ℕ) :
    Mail x B M { s with port, uport } := h.same rfl rfl rfl

theorem boxes_open {R : List Parcel → List Parcel → Prop} {u : ℕ} (hu : B u = none)
    (h : Boxes R B M B' M') : Boxes R B M (update B' u (some [])) M' := by
  intro q l l' hl hl'
  have hne : q ≠ u := by
    rintro rfl
    rw [hu] at hl
    cases hl
  rw [Function.update_of_ne hne] at hl'
  exact h q l l' hl hl'

theorem openPort (h : Mail nowhere B M s) (port : ℤ) :
    Safely AnyFault (fun r => ∃ B' M', Mail nowhere B' M' r.2 ∧ Boxes Eq B M B' M')
      (openPort s port) := by
  have hstay : Boxes Eq B M B M := .refl (fun _ => rfl) B M
  refine h.lockedTo (Q := fun _ => Boxes Eq B M) fun s hs => ?_
  simp only [safely_bind]
  refine (hs.registerPort port).mono fun r hr => ?_
  split
  · exact ⟨B, M, hr, hstay⟩
  simp only [safely_bind]
  apply reads
  intro i
  apply reads
  intro tk
  refine (hr.alloc _).mono fun r₁ hr₁ => ?_
  obtain ⟨h₁, hfresh, -⟩ := hr₁
  split
  · simp only [safely_bind, safely_pure]
    exact (h₁.freeReq hfresh.other).mono fun s₂ h₂ => ⟨B, M, h₂, hstay⟩
  simp only [safely_bind, safely_pure]
  refine ((h₁.setFds _).alloc _).mono fun r₂ hr₂ => ?_
  obtain ⟨h₂, hfresh₂, halloc⟩ := hr₂
  have h₃ := h₂.setReq hfresh.other
    { owner := r₂.2.current, rops := some .uportServer, data := .obj r₂.1, type := .port,
      state := .server, waitedRw := r₂.2.junk r₁.1, nextReq := none }
  have hused : r₂.2.objs r₂.1 ≠ none := by simp [halloc.objs]
  have h₄ := h₃.openBox (b := .uport ⟨[], port⟩) (used_setBody hused _ _) hfresh₂.other rfl rfl
  refine ((h₄.setPorts _ _).registerPort port).mono fun r₅ h₅ => ?_
  refine (h₅.foldlM (fun s t hs => hs.wakeWaiter i t) _).mono fun s₆ h₆ => ?_
  exact ⟨_, _, h₆, boxes_open hfresh₂.other.2 hstay⟩

/-! ## Receiving -/

/-- The first message of `q` is taken off. -/
theorem takes_erase {q m : ℕ} {rest : List ℕ} (h : Mail nowhere B M s) (hl : B q = some (m :: rest)) :
    Boxes Takes B M (update B q (some rest)) (update M m none) := by
  intro q' l l' hl₁ hl'
  by_cases hq : q' = q
  · subst hq
    rw [hl, Option.some.injEq] at hl₁
    rw [Function.update_self, Option.some.injEq] at hl'
    subst hl₁ hl'
    have hnot : m ∉ rest := (List.nodup_cons.1 (h.nodup (by simp) hl)).1
    rw [parcels_update hnot, ← List.singleton_append, parcels_append]
    cases hm : parcelAt M m with
    | none => exact .inl (by simp [parcels, List.filterMap_cons, hm])
    | some p => exact .inr ⟨p, by simp [parcels, List.filterMap_cons, hm]⟩
  · rw [Function.update_of_ne hq, hl₁, Option.some.injEq] at hl'
    subst hl'
    cases hm : M m with
    | none => exact .inl (by rw [Function.update_eq_self_iff.2 hm.symm])
    | some msg =>
      -- a message of this list is none of another list
      have hnot : m ∉ l := fun hmem => by
        have hnext := h.next_of_mem (by simp) hl₁ hmem hm
        rw [h.next_of_mem (by simp) hl List.mem_cons_self hm, Option.some.injEq] at hnext
        exact hq hnext.symm
      exact .inl (parcels_update hnot M none).symm

theorem acceptMessage (h : Mail nowhere B M s) (type : ReqType) {q m : ℕ} {rest : List ℕ}
    (hl : B q = some (m :: rest)) (msg : Message) {sreq : ℕ} (hsreq : s.objs sreq ≠ none)
    (hother : M sreq = none ∧ B sreq = none) :
    Safely AnyFault (fun s' => ∃ B' M', Mail nowhere B' M' s' ∧ Boxes Takes B M B' M')
      (acceptMessage s type m msg sreq) := by
  have htakes := h.takes_erase hl
  simp only [Kernel.acceptMessage, safely_bind]
  apply reads
  intro client
  apply reads
  intro clientTask
  refine ((h.unqueue m).and (used_unqueue hsreq m)).mono fun s₁ hs₁ => ?_
  obtain ⟨⟨msg', q', l, hM, hBm, hnext, hl', h₁, hout⟩, hu₁⟩ := hs₁
  -- the message was linked where it waited
  obtain rfl : q' = q := by
    have hnext' := h.next_of_mem (by simp) hl List.mem_cons_self hM
    rw [hnext, Option.some.injEq] at hnext'
    exact hnext'
  obtain rfl : m :: rest = l := by
    rw [hl, Option.some.injEq] at hl'
    exact hl'
  rw [List.erase_cons_head] at h₁ hout
  have hsm : sreq ≠ m := by
    rintro rfl
    rw [hother.1] at hM
    cases hM
  have hqm : m ≠ q' := by
    rintro rfl
    rw [hBm] at hl
    cases hl
  refine ((h₁.freePayload msg.plh).and (used_freePayload hu₁ _)).mono fun s₂ hs₂ => ?_
  obtain ⟨h₂, hu₂⟩ := hs₂
  refine ((h₂.freeMsg (by rw [Function.update_of_ne hqm, hBm]) hout _).and
    (used_free hu₂ hsm _)).mono fun s₃ hs₃ => ?_
  obtain ⟨h₃, hu₃⟩ := hs₃
  rw [Function.update_idem] at h₃
  apply reads
  intro tk
  refine (h₃.alloc _).mono fun r hr => ?_
  obtain ⟨h₄, hfresh, halloc⟩ := hr
  have hne : sreq ≠ r.1 := by
    rintro heq
    exact hu₃ (heq ▸ halloc.fresh)
  have hsreq₃ : update M m none sreq = none ∧ update B q' (some rest) sreq = none := by
    constructor
    · rw [Function.update_of_ne hsm, hother.1]
    · have hsq : sreq ≠ q' := by
        rintro rfl
        rw [hother.2] at hl
        cases hl
      rw [Function.update_of_ne hsq, hother.2]
  have hBx : B r.1 = none := by
    have hfree := hfresh.other.2
    by_cases hxq : r.1 = q'
    · rw [hxq, Function.update_self] at hfree
      cases hfree
    · rwa [Function.update_of_ne hxq] at hfree
  refine Safely.mono (Q := fun s' => ∃ B' M', Mail nowhere B' M' s' ∧ Boxes Takes B M B' M') ?_
    fun s₅ hs₅ => ?_
  · split
    · simp only [safely_bind, safely_pure]
      have h₅ := h₄.openBox (b := .uportReq ⟨[], []⟩) (by simp [halloc.objs]) hfresh.other rfl rfl
      refine (h₅.linkReq _ _).mono fun s₆ h₆ => ?_
      have hsreq₆ : update (update B q' (some rest)) r.1 (some []) sreq = none := by
        rw [Function.update_of_ne hne, hsreq₃.2]
      have h₇ := h₆.setReq ⟨hsreq₃.1, hsreq₆⟩ (serverReq s₆ (.obj r.1) .portReq)
      apply reads_eq
      intro creq hcreq
      exact ⟨_, _, h₇.setReq (h₇.other_of_req hcreq) _, boxes_open hBx htakes⟩
    · simp only [safely_bind, safely_pure]
      have h₅ := h₄.setCookie hfresh.other ⟨some msg.clientReq, none, r.2.current⟩
      have h₆ := h₅.setReq hsreq₃ (serverReq (r.2.setBody r.1
        (.cookie ⟨some msg.clientReq, none, r.2.current⟩)) (.obj r.1) .portCookie)
      apply reads_eq
      intro creq hcreq
      exact ⟨_, _, h₆.setReq (h₆.other_of_req hcreq) _, htakes⟩
  · obtain ⟨B', M', h₅, htakes⟩ := hs₅
    exact reads fun creq => (h₅.notify creq _).mono fun s₆ h₆ => ⟨B', M', h₆, htakes⟩

theorem popMessage (h : Mail nowhere B M s) (type : ReqType) {q m : ℕ} {rest : List ℕ}
    (hl : B q = some (m :: rest)) (buf : ℕ) :
    Safely AnyFault (fun r => ∃ B' M', Mail nowhere B' M' r.2 ∧ Boxes Takes B M B' M')
      (popMessage s type m buf) := by
  have hstay : Boxes Takes B M B M := .refl (fun _ => .inl rfl) B M
  simp only [Kernel.popMessage, safely_bind]
  apply reads
  intro tk
  refine (h.alloc _).mono fun r hr => ?_
  obtain ⟨hr, hfresh, halloc⟩ := hr
  split
  · exact ⟨B, M, hr, hstay⟩
  simp only [safely_bind]
  have hused : r.2.objs r.1 ≠ none := by simp [halloc.objs]
  have hfds : ∀ fds, Mail nowhere B M (r.2.setFds fds) ∧ (r.2.setFds fds).objs r.1 ≠ none :=
    fun fds => ⟨hr.setFds fds, by rwa [(setFds_rest r.2 fds).2.2]⟩
  apply reads
  intro msg
  refine Safely.mono (Q := fun y => Mail nowhere B M y.2 ∧ y.2.objs r.1 ≠ none) ?_ fun y hy => ?_
  · split
    · simp only [safely_bind, safely_pure]
      refine (((hfds _).1.runMm _).and (used_runMm (hfds _).2 _)).mono fun y hy => ?_
      exact reads fun head => hy
    · exact hfds _
  split
  · exact ⟨B, M, hy.1, hstay⟩
  simp only [safely_bind]
  apply reads
  intro client
  apply reads
  intro clientTask
  refine ((hy.1.runMm _).and (used_runMm hy.2 _)).mono fun z hz => ?_
  split
  · simp only [safely_bind, safely_pure]
    exact (hz.1.execMm _).mono fun s₁ h₁ => ⟨B, M, h₁, hstay⟩
  · simp only [safely_bind, safely_pure]
    exact hz.1.acceptMessage type hl msg hz.2 hfresh.other

theorem popRequest (h : Mail nowhere B M s) (rd : ℤ) (buf : ℕ) :
    Safely AnyFault (fun r => ∃ B' M', Mail nowhere B' M' r.2 ∧ Boxes Takes B M B' M')
      (popRequest s rd buf) := by
  refine h.lockedTo (Q := fun _ => Boxes Takes B M) fun s hs => ?_
  have hstay : Boxes Takes B M B M := .refl (fun _ => .inl rfl) B M
  simp only [safely_bind]
  apply reads
  intro tk
  apply reads
  intro f
  split
  · exact ⟨B, M, hs, hstay⟩
  simp only [safely_bind]
  apply reads
  intro r
  split
  · exact ⟨B, M, hs, hstay⟩
  simp only [safely_bind]
  apply reads
  intro q
  apply reads_eq
  intro l hl
  split
  · exact hs.popMessage _ (by rw [← hs.box]; exact (boxAt_of_getIncoming hl).1) _
  split
  · exact ⟨B, M, hs, hstay⟩
  simp only [safely_bind]
  apply reads
  intro u
  split
  · exact ⟨B, M, hs, hstay⟩
  · simp only [safely_bind, safely_pure]
    exact (hs.runMm _).mono fun y hy => ⟨B, M, hy, hstay⟩

/-! ## The end of handles -/

/-- A message that waits is given back. -/
theorem removes_erase {q m : ℕ} {l : List ℕ} (hl : B q = some l) :
    Removes B M (update B q (some (l.erase m))) (update M m none) := by
  constructor
  · intro q' l' hl'
    by_cases hq : q' = q
    · subst hq
      rw [Function.update_self, Option.some.injEq] at hl'
      exact ⟨l, hl, hl' ▸ List.erase_sublist⟩
    · exact ⟨l', by rwa [Function.update_of_ne hq] at hl', List.Sublist.refl l'⟩
  · intro m'
    by_cases hm : m' = m
    · exact .inr (by rw [hm, Function.update_self])
    · exact .inl (Function.update_of_ne hm ..)

theorem uportUserClose (h : Mail nowhere B M s) (a : ℕ) :
    Safely AnyFault (fun s' => ∃ B' M', Mail nowhere B' M' s' ∧ Removes B M B' M')
      (uportUserClose s a) := by
  have hstay : Removes B M B M := .refl B M
  simp only [Kernel.uportUserClose, safely_bind]
  apply reads
  intro r
  split
  · simp only [safely_bind]
    apply reads
    intro m
    apply reads
    intro msg
    refine (h.unqueue m).mono fun s₁ hs₁ => ?_
    obtain ⟨msg', q, l, -, hBm, -, hl, h₁, hout⟩ := hs₁
    have hmq : m ≠ q := by
      rintro rfl
      rw [hBm] at hl
      cases hl
    refine (h₁.freePayload _).mono fun s₂ h₂ => ?_
    apply reads
    intro client
    apply reads
    intro task
    refine (h₂.freeMsg (by rw [Function.update_of_ne hmq, hBm]) hout _).mono fun s₃ h₃ => ?_
    rw [Function.update_idem] at h₃
    exact ⟨_, _, h₃, removes_erase hl⟩
  split
  · exact (h.unlinkReq a).mono fun s₁ h₁ => ⟨B, M, h₁, hstay⟩
  · simp only [safely_bind]
    apply reads
    intro ca
    apply reads_eq
    intro c hc
    have hother := h.other_of_cookie hc
    split
    · simp only [safely_bind]
      refine (h.freePayload _).mono fun s₁ h₁ => ?_
      apply reads
      intro owner
      exact (h₁.freeOther hother _).mono fun s₂ h₂ => ⟨B, M, h₂, hstay⟩
    · exact ⟨B, M, h.setCookie hother _, hstay⟩
  · trivial

/-- What a closed port or connection does with one of its messages. -/
def Drops (f : State → ℕ → Except Fault State) (ua : ℕ) (B : ℕ → Option (List ℕ)) : Prop :=
  ∀ {M : ℕ → Option Message} {s : State} (m : ℕ), Mail (· = ua) B M s →
    (∀ msg, M m = some msg → msg.next = some ua) →
    Safely AnyFault (Mail (· = ua) B (update M m none)) (f s m)

/-- A message that is linked at `ua` waits at no other list. -/
theorem notMem_of_next {ua m : ℕ} {msg : Message} (h : Mail (· = ua) B M s) (hM : M m = some msg)
    (hnext : msg.next = some ua) {q : ℕ} {l : List ℕ} (hq : ¬q = ua) (hl : B q = some l) : m ∉ l := by
  intro hm
  have hnext' := h.next_of_mem hq hl hm hM
  rw [hnext, Option.some.injEq] at hnext'
  exact hq hnext'.symm

theorem drops_dropMessage (ua : ℕ) (B : ℕ → Option (List ℕ)) : Drops dropMessage ua B := by
  intro M s m h hlink
  simp only [Kernel.dropMessage, safely_bind]
  apply reads_eq
  intro msg hmsg
  obtain ⟨hM, hB⟩ := msgAt_of_getMsg hmsg
  rw [h.msg] at hM
  rw [h.box] at hB
  refine (h.freePayload _).mono fun s₁ h₁ => ?_
  apply reads
  intro client
  apply reads
  intro task
  exact h₁.freeMsg hB (fun q l hq hl => h₁.notMem_of_next hM (hlink msg hM) hq hl) _

theorem drops_dropConnect (ua : ℕ) (B : ℕ → Option (List ℕ)) : Drops dropConnect ua B := by
  intro M s m h hlink
  simp only [Kernel.dropConnect, safely_bind]
  apply reads_eq
  intro msg hmsg
  obtain ⟨hM, hB⟩ := msgAt_of_getMsg hmsg
  rw [h.msg] at hM
  rw [h.box] at hB
  refine (h.freePayload _).mono fun s₁ h₁ => ?_
  apply reads
  intro client
  apply reads
  intro task
  refine (h₁.closeClient _).mono fun s₂ h₂ => ?_
  exact h₂.freeMsg hB (fun q l hq hl => h₂.notMem_of_next hM (hlink msg hM) hq hl) _

/-- All messages of a list go. -/
theorem dropAll {f : State → ℕ → Except Fault State} {ua : ℕ} (hf : Drops f ua B) {l : List ℕ}
    (h : Mail (· = ua) B M s) (hlink : ∀ m ∈ l, ∀ msg, M m = some msg → msg.next = some ua) :
    Safely AnyFault (fun s' => ∃ M', Mail (· = ua) B M' s' ∧ ∀ m, M' m = M m ∨ M' m = none)
      (l.foldlM f s) := by
  induction l generalizing s M with
  | nil => exact ⟨M, h, fun _ => .inl rfl⟩
  | cons m rest ih =>
    rw [List.foldlM_cons, safely_bind]
    refine (hf m h (hlink m List.mem_cons_self)).mono fun s₁ h₁ => ?_
    have hrest : ∀ m' ∈ rest, ∀ msg, update M m none m' = some msg → msg.next = some ua := by
      intro m' hm' msg hmsg
      by_cases hmm : m' = m
      · rw [hmm, Function.update_self] at hmsg
        cases hmsg
      · rw [Function.update_of_ne hmm] at hmsg
        exact hlink m' (List.mem_cons_of_mem m hm') msg hmsg
    refine (ih h₁ hrest).mono fun s₂ hs₂ => ?_
    obtain ⟨M', h₂, hM'⟩ := hs₂
    refine ⟨M', h₂, fun m' => ?_⟩
    rcases hM' m' with heq | hnone
    · by_cases hmm : m' = m
      · rw [hmm, Function.update_self] at heq
        exact .inr (hmm ▸ heq)
      · exact .inl (by rw [heq, Function.update_of_ne hmm])
    · exact .inr hnone

/-- A list goes with its messages. -/
theorem dropBox {f : State → ℕ → Except Fault State} {ua : ℕ} (hf : Drops f ua B) {l : List ℕ}
    (h : Mail nowhere B M s) (hl : B ua = some l) :
    Safely AnyFault (fun s' => ∃ M', Mail (· = ua) B M' s' ∧ M' ua = none ∧
      Removes B M (update B ua none) M') (l.foldlM f s) := by
  have hua : M ua = none := by
    cases hM : M ua with
    | none => rfl
    | some msg =>
      rw [← h.msg] at hM
      rw [← h.box, boxAt_of_msgAt hM] at hl
      cases hl
  have hlink : ∀ m ∈ l, ∀ msg, M m = some msg → msg.next = some ua :=
    fun m hm msg hmsg => h.next_of_mem (by simp) hl hm hmsg
  refine (dropAll hf (h.weaken fun _ hq => hq.elim) hlink).mono fun s₁ hs₁ => ?_
  obtain ⟨M', h₁, hM'⟩ := hs₁
  refine ⟨M', h₁, (hM' ua).elim (fun heq => heq.trans hua) id, fun q l' hl' => ?_, hM'⟩
  by_cases hq : q = ua
  · rw [hq, Function.update_self] at hl'
    cases hl'
  · exact ⟨l', by rwa [Function.update_of_ne hq] at hl', List.Sublist.refl l'⟩

theorem uportServerClose (h : Mail nowhere B M s) (a : ℕ) :
    Safely AnyFault (fun s' => ∃ B' M', Mail nowhere B' M' s' ∧ Removes B M B' M')
      (uportServerClose s a) := by
  simp only [Kernel.uportServerClose, safely_bind]
  apply reads
  intro r
  apply reads
  intro tk
  split
  · simp only [safely_bind]
    apply reads
    intro ua
    apply reads_eq
    intro up hup
    have hl : B ua = some up.incoming := by rw [← h.box]; exact (boxAt_of_getUport hup).1
    refine (h.dropBox (drops_dropConnect ua B) hl).mono fun s₁ hs₁ => ?_
    obtain ⟨M', h₁, hua, hrem⟩ := hs₁
    apply reads
    intro n
    have h₂ := (h₁.weaken (y := fun p => nowhere p ∨ p = ua) fun _ => .inr).setPorts
      (update s₁.port n none) (update s₁.uport n none)
    exact (h₂.freeBox hua _).mono fun s₃ h₃ => ⟨_, M', h₃, hrem⟩
  · simp only [safely_bind]
    apply reads
    intro ua
    apply reads_eq
    intro up hup
    have hl : B ua = some up.incoming := by rw [← h.box]; exact (boxAt_of_getUportReq hup).1
    refine (h.foldlM (fun s c hs => hs.dropClient c) _).mono fun s₁ h₁ => ?_
    refine (h₁.dropBox (drops_dropMessage ua B) hl).mono fun s₂ hs₂ => ?_
    obtain ⟨M', h₂, hua, hrem⟩ := hs₂
    have h₃ := h₂.weaken (y := fun p => nowhere p ∨ p = ua) fun _ => .inr
    exact (h₃.freeBox hua _).mono fun s₄ h₄ => ⟨_, M', h₄, hrem⟩
  · simp only [safely_bind]
    apply reads
    intro ca
    apply reads_eq
    intro c hc
    have hother := h.other_of_cookie hc
    refine Safely.mono (Q := Mail nowhere B M) ?_ fun s₁ h₁ => ?_
    · split
      · exact h.closeClient _
      · exact h
    split
    · trivial
    · exact (h₁.freeOther hother _).mono fun s₂ h₂ => ⟨B, M, h₂, .refl B M⟩
  · trivial

/-- `req->rops->drop`. -/
theorem ropsDrop (h : Mail nowhere B M s) (ops : ReqOps) (a : ℕ) :
    Safely AnyFault (fun s' => ∃ B' M', Mail nowhere B' M' s' ∧ Removes B M B' M')
      (ropsDrop s ops a) := by
  cases ops with
  | uportServer => exact h.uportServerClose a
  | uportClient => exact h.uportUserClose a
  | int => exact (h.unlinkReq a).mono fun s₁ h₁ => ⟨B, M, h₁, .refl B M⟩
  | mem | tarfs | bda | portio => exact ⟨B, M, h, .refl B M⟩

theorem close (h : Mail nowhere B M s) (fd : ℤ) :
    Safely AnyFault (fun r => ∃ B' M', Mail nowhere B' M' r.2 ∧
      Boxes (fun l l' => l'.Sublist l) B M B' M') (close s fd) := by
  simp only [Kernel.close, safely_bind]
  apply reads
  intro tk
  apply reads
  intro f
  split
  · exact ⟨B, M, h, (Removes.refl B M).sublist⟩
  simp only [safely_bind, safely_pure]
  refine (h.clearFd _).mono fun s₁ h₁ => ?_
  apply reads_eq
  intro r hr
  have hother := h₁.other_of_req hr
  apply reads
  intro ops
  refine (h₁.ropsDrop _ _).mono fun s₂ hs₂ => ?_
  obtain ⟨B', M', h₂, hrem⟩ := hs₂
  exact (h₂.freeReq (hrem.other hother)).mono fun s₃ h₃ => ⟨B', M', h₃, hrem.sublist⟩

/-! ## The scheduler -/

theorem killProcess (h : Mail nowhere B M s) (t : ℕ) :
    Safely AnyFault (fun s' => ∃ B' M', Mail nowhere B' M' s' ∧ Removes B M B' M')
      (killProcess s t) := by
  unfold Kernel.killProcess
  split
  · trivial
  simp only [safely_bind]
  apply reads
  intro tk
  refine Safely.mono (Q := Mail nowhere B M) ?_ fun s₁ h₁ => ?_
  · split
    · exact h.execMm _
    · trivial
  obtain ⟨B', M', h₂, hbox, hmsg⟩ := h₁.poolDestroy tk.filePool
  refine (h₂.foldlM (fun s c hs => hs.orphan t c) _).mono fun s₃ h₃ => ?_
  have hrem : Removes B M B' M' := ⟨fun q l hl => ⟨l, hbox q l hl, List.Sublist.refl l⟩, hmsg⟩
  split
  · exact ⟨B', M', h₃.same rfl rfl rfl, hrem⟩
  · exact ⟨B', M', h₃, hrem⟩

/-- Nothing is lost where no task is killed. -/
theorem afterSwitch (h : Mail nowhere B M s) :
    Safely AnyFault (fun s' => ∃ B' M', Mail nowhere B' M' s' ∧ Removes B M B' M' ∧
      (s.toKill = none → B' = B ∧ M' = M)) (afterSwitch s) := by
  simp only [Kernel.afterSwitch, safely_bind]
  apply reads
  intro tk
  refine Safely.mono (Q := fun s' => ∃ B' M', Mail nowhere B' M' s' ∧ Removes B M B' M' ∧
    (s.toKill = none → B' = B ∧ M' = M)) ?_ fun s₁ hs₁ => ?_
  · split
    · rename_i t ht
      simp only [safely_bind, safely_pure]
      refine ((h.setTask _ _).killProcess t).mono fun s₁ hs₁ => ?_
      obtain ⟨B', M', h₁, hrem⟩ := hs₁
      refine ⟨B', M', h₁.same rfl rfl rfl, hrem, fun hnone => ?_⟩
      change s.toKill = some t at ht
      rw [hnone] at ht
      cases ht
    · exact ⟨B, M, h.setTask _ _, .refl B M, fun _ => ⟨rfl, rfl⟩⟩
  · obtain ⟨B', M', h₁, hrem⟩ := hs₁
    exact h₁.enable.mono fun s₂ h₂ => ⟨B', M', h₂, hrem⟩

end Mail

/-- The current task has ended, and goes with the next `schedule()`. -/
def State.ending (s : State) : Bool := (s.task s.current).any fun tk => tk.state = .zombie

namespace Mail

/-- A task that goes back to the run queue has not ended. -/
theorem requeue_ending (s : State) :
    Safely AnyFault (fun s' => s'.toKill = s.toKill ∧ (s'.ending = true → s.ending = true))
      (Kernel.requeue s) := by
  simp only [Kernel.requeue, safely_bind]
  apply reads
  intro tk
  split
  · refine ⟨rfl, fun hend => ?_⟩
    simp [State.ending, State.setTask] at hend
  · exact ⟨rfl, id⟩

theorem schedule (h : Mail nowhere B M s) :
    Safely AnyFault (fun s' => ∃ B' M', Mail nowhere B' M' s' ∧ Removes B M B' M' ∧
      (s.ending = false → B' = B ∧ M' = M)) (schedule s) := by
  unfold Kernel.schedule
  split
  · trivial
  split
  · trivial
  rename_i htoKill
  have htoKill : s.toKill = none := not_not.1 htoKill
  simp only [safely_bind]
  refine (h.disable.requeue.and (requeue_ending _)).mono fun s₁ hs₁ => ?_
  obtain ⟨h₁, hkill, hend⟩ := hs₁
  have hkill : s₁.toKill = none := hkill.trans htoKill
  have h₂ : Mail nowhere B M (nextTask s₁).2 := by
    unfold nextTask
    split <;> exact h₁.same rfl rfl rfl
  have hnext : (nextTask s₁).2.task = s₁.task ∧ (nextTask s₁).2.current = s₁.current ∧
      (nextTask s₁).2.toKill = s₁.toKill := by
    unfold nextTask
    split <;> exact ⟨rfl, rfl, rfl⟩
  apply reads
  intro nt
  apply reads_eq
  intro tk htk
  have htk := getTask_ok htk
  rw [hnext.1, hnext.2.1] at htk
  split
  · rename_i hz
    have h₃ : Mail nowhere B M (switchTo { (nextTask s₁).2 with toKill := some (nextTask s₁).2.current }
        (nextTask s₁).1 nt.space) := h₂.same rfl rfl rfl
    refine h₃.afterSwitch.mono fun s₄ hs₄ => ?_
    obtain ⟨B', M', h₄, hrem, -⟩ := hs₄
    refine ⟨B', M', h₄, hrem, fun hno => ?_⟩
    have hyes : s.ending = true := hend (by simp [State.ending, htk, hz])
    rw [hno] at hyes
    cases hyes
  · have h₃ : Mail nowhere B M (switchTo (nextTask s₁).2 (nextTask s₁).1 nt.space) :=
      h₂.same rfl rfl rfl
    refine h₃.afterSwitch.mono fun s₄ hs₄ => ?_
    obtain ⟨B', M', h₄, hrem, hstay⟩ := hs₄
    exact ⟨B', M', h₄, hrem, fun _ => hstay (hnext.2.2.trans hkill)⟩

end Mail

end SadOS.Kernel
