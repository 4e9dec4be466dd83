import SadOS.Kernel.Tally

/-!
# Calls that leave interrupts disabled

`insert_vma_to_any` keeps a count of `disable_interrupts` where it finds no room, and so do
the system calls that come to it.

## Main definitions

* `Leaks` — these calls.

## Main results

* `alloc_rest`, `connectHandle_opens` — what is as before when a call comes to the insertion.
* `lifts_tarfsGetResponse`, `lifts_bdaGetResponse` — the services that map pages of the kernel.
-/

namespace SadOS.Kernel

open Mm (fdtableInsert)

/-! ## Calls that keep a count -/

/-- The answer to a cookie is a page list for which there is no room. -/
def ResponseLacksRoom (s : State) (r : Request) : Prop :=
  r.type = .cookie ∧ r.state ≠ .closed ∧ r.state ≠ .pending ∧ ∃ a, r.data.ptr = .ok a ∧
    ∃ c, s.getCookie a = .ok c ∧ ∃ plh, c.response = some plh ∧
      Mm.PlistLacksRoom s.mm s.mm.current plh

/-- A message comes with a page list for which there is no room. -/
def MessageLacksRoom (s : State) (m : ℕ) : Prop :=
  ∃ msg, s.getMsg m = .ok msg ∧ ∃ plh, msg.plh = some plh ∧
    Mm.PlistLacksRoom s.mm s.mm.current plh

/-- `port_connect` gets a handle and a number for it. -/
def Opens (s : State) (len buf : ℕ) : Prop :=
  validBuffer s len buf = .ok true ∧ ∃ tk, s.cur = .ok tk ∧ none ∈ tk.fds

/-- `port_connect` to the memory port comes to `insert_vma_to_any`, which finds no room. -/
def ConnectLeaks (s : State) (n : ℤ) (len buf : ℕ) : Prop :=
  portAt s n = .ok (some .mem) ∧ Opens s len buf ∧ Mm.MemLacksRoom s.mm len buf

/-- So does `request`. -/
def RequestLeaks (s : State) (rd : ℤ) (len buf : ℕ) : Prop :=
  ∃ tk, s.cur = .ok tk ∧ ∃ a, handleAt tk rd = .ok (some a) ∧ ∃ r, s.getReq a = .ok r ∧
    r.type = .request ∧ r.rops = some .mem ∧ validBuffer s len buf = .ok true ∧
    none ∈ tk.fds ∧ Mm.MemLacksRoom s.mm len buf

/-- So does `get_response`, for an answer of a user program. -/
def ResponseLeaks (s : State) (cookie : ℤ) (res : ℕ) : Prop :=
  Mm.validateRange s.mm res 16 = .ok true ∧ ∃ tk, s.cur = .ok tk ∧
    ∃ a, handleAt tk cookie = .ok (some a) ∧ ∃ r, s.getReq a = .ok r ∧
      r.rops = some .uportClient ∧ ResponseLacksRoom s r

/-- So does `pop_request`, for the message that has waited longest. -/
def PopLeaks (s : State) (rd : ℤ) : Prop :=
  ∃ tk, s.cur = .ok tk ∧ ∃ a, handleAt tk rd = .ok (some a) ∧ ∃ r, s.getReq a = .ok r ∧
    (r.type = .port ∨ r.type = .portReq) ∧ ∃ q, r.data.ptr = .ok q ∧
    ∃ l, s.getIncoming q = .ok l ∧ ∃ m rest, l = m :: rest ∧ none ∈ tk.fds ∧
      MessageLacksRoom s m

/-- So does `sendpage`. -/
def SendLeaks (s : State) (as : ℤ) (vaddr dst len : ℕ) : Prop :=
  ∃ tk, s.cur = .ok tk ∧ 0 ≤ as ∧ as ≤ (tk.astable.length : ℤ) ∧
    ∃ a, fileAt tk.astable as.toNat = .ok (some a) ∧ Mm.SendLacksRoom s.mm a vaddr dst len

/-- The call comes to `insert_vma_to_any`, which finds no room. -/
def Leaks (s : State) : Call → Prop
  | .portConnect n len buf => ConnectLeaks s n len.toNat buf.toNat
  | .request rd len buf => RequestLeaks s rd len.toNat buf.toNat
  | .getResponse cookie res => ResponseLeaks s cookie res.toNat
  | .popRequest rd _ => PopLeaks s rd
  | .sendpage as vaddr dst len => SendLeaks s as vaddr.toNat dst.toNat len.toNat
  | _ => False

/-- What is found where a value was read. -/
theorem exists_read {α : Type} {x : Except Fault α} {a : α} (hx : x = .ok a) {Q : α → Prop} :
    (∃ b, x = .ok b ∧ Q b) ↔ Q a := by
  simp [hx]

theorem exists_handle {x : Except Fault (Option ℕ)} {a : ℕ} (hx : x = .ok (some a))
    {Q : ℕ → Prop} : (∃ b, x = .ok (some b) ∧ Q b) ↔ Q a := by
  simp [hx]

theorem not_exists_handle {x : Except Fault (Option ℕ)} (hx : x = .ok none) {Q : ℕ → Prop} :
    ¬∃ b, x = .ok (some b) ∧ Q b := by
  simp [hx]

/-- A test of a user range that passes. -/
theorem test_passes {ε : Type} {x : Except ε Bool} {b : Bool} (hx : x = .ok b) (hb : ¬(!b) = true) :
    x = .ok true := by
  rw [hx]
  simpa using hb

theorem test_fails {ε : Type} {x : Except ε Bool} {b : Bool} (hx : x = .ok b) (hb : (!b) = true) :
    x ≠ .ok true := by
  rw [hx]
  simpa using hb

theorem liftMm_ok {α : Type} {x : Except SadOS.Fault α} {a : α} (h : liftMm x = .ok a) :
    x = .ok a := by
  unfold liftMm at h
  split at h
  · rw [Except.ok.inj h]
  · cases h

theorem ropsOf_ok {r : Request} {ops : ReqOps} (h : State.ropsOf r = .ok ops) :
    r.rops = some ops := by
  unfold State.ropsOf at h
  split at h
  · rename_i hops
    rw [hops, Except.ok.inj h]
  · cases h

/-- There is no number exactly if no entry is free. -/
theorem fdtableInsert_eq_none {d : ℕ} {tab : FdTable} :
    fdtableInsert d tab = none ↔ none ∉ tab := by
  induction tab with
  | nil => simp [fdtableInsert]
  | cons f rest ih =>
    cases f with
    | none => simp [fdtableInsert]
    | some f => simp [fdtableInsert, ih]

theorem free_of_fdtableInsert {d : ℕ} {tab : FdTable} {r : ℕ × FdTable}
    (h : fdtableInsert d tab = some r) : none ∈ tab := by
  by_contra hfull
  rw [fdtableInsert_eq_none.2 hfull] at h
  cases h

/-- `obj_pool_alloc` changes the object that it gives out, and nothing else that is read. -/
theorem alloc_rest (s : State) (pool : ℕ) :
    Safely AnyFault (fun r => r.2.mm = s.mm ∧ r.2.port = s.port ∧
      ∀ m msg, r.2.getMsg m = .ok msg → s.getMsg m = .ok msg) (s.alloc pool) := by
  have hread : ∀ (s' : State) a, s'.objs = Function.update s.objs a (some ⟨pool, .blank⟩) →
      ∀ m msg, s'.getMsg m = .ok msg → s.getMsg m = .ok msg := by
    intro s' a hobjs m msg hmsg
    rw [State.getMsg, hobjs] at hmsg
    by_cases hm : m = a
    · rw [hm, Function.update_self] at hmsg
      cases hmsg
    · rwa [Function.update_of_ne hm] at hmsg
  unfold State.alloc
  split
  · trivial
  · exact ⟨rfl, rfl, hread _ _ rfl⟩
  · exact ⟨rfl, rfl, hread _ _ rfl⟩

theorem newReq_rest (s : State) (tk : Task) (type : ReqType) :
    Safely AnyFault (fun r => r.2.mm = s.mm ∧ r.2.port = s.port) (newReq s tk type) := by
  simp only [newReq, safely_bind, safely_pure]
  exact (alloc_rest s _).mono fun _ hr => ⟨hr.1, hr.2.1⟩

/-- The handle of `port_connect`. -/
theorem connectHandle_opens (s : State) (len buf : ℕ) :
    Safely AnyFault (fun r => (∀ ret, r.1 = .error ret → ¬Opens s len buf) ∧
        ∀ x, r.1 = .ok x → Opens s len buf ∧ r.2.mm = s.mm ∧ r.2.port = s.port)
      (locked s fun s => connectHandle s len buf) := by
  have henable : ∀ s₁ : State, s₁.mm = (disableInterrupts s).mm →
      Safely AnyFault (fun s₂ => s₂.mm = s.mm ∧ s₂.port = s₁.port) (enableInterrupts s₁) := by
    intro s₁ hmm
    rw [enableInterrupts, hmm]
    exact ⟨rfl, rfl⟩
  have herror : ∀ {s₁ : State} {ret : ℤ}, ¬Opens s len buf → Safely AnyFault
      (fun s₂ : State =>
        (∀ e, (Except.error ret : Except ℤ (ℕ × ℕ)) = .error e → ¬Opens s len buf) ∧
        ∀ x, (Except.error ret : Except ℤ (ℕ × ℕ)) = .ok x → Opens s len buf ∧ s₂.mm = s.mm ∧
          s₂.port = s.port) (enableInterrupts s₁) :=
    fun hno => reads fun _ => ⟨fun _ _ => hno, fun _ hx => by cases hx⟩
  simp only [locked, connectHandle, safely_bind, safely_pure]
  apply reads_eq
  intro ok (hok : validBuffer s len buf = .ok ok)
  split
  · rename_i hvalid
    rw [safely_pure]
    apply herror
    exact fun hopen => test_fails hok hvalid hopen.1
  rename_i hvalid
  have hok := test_passes hok hvalid
  simp only [safely_bind]
  apply reads_eq
  intro tk (htk : s.cur = .ok tk)
  have hiff : Opens s len buf ↔ none ∈ tk.fds := by
    rw [Opens, and_iff_right hok, exists_read htk]
  apply (newReq_rest _ tk _).mono
  rintro ⟨a, s₁⟩ ⟨hmm, hport⟩
  dsimp only
  split
  · rename_i hfull
    simp only [safely_bind, safely_pure]
    apply reads
    intro s₂
    apply herror
    rw [hiff]
    exact fdtableInsert_eq_none.1 hfull
  · rename_i fd fds hins
    have hopen : Opens s len buf := by
      rw [hiff]
      exact free_of_fdtableInsert hins
    obtain ⟨hmm₂, hport₂, -⟩ := setFds_rest s₁ fds
    rw [safely_pure]
    apply (henable _ (hmm₂.trans hmm)).mono
    intro s₂ h₂
    refine ⟨?_, fun _ _ => ⟨hopen, h₂.1, (h₂.2.trans hport₂).trans hport⟩⟩
    intro ret hret
    cases hret

/-! ## Pages of the kernel -/

section Pages

open Mm (Returns Lifts lifts_insertVmaToAny_ok quiet_managePhysPage frame_assignPage quiet_pageUnref
  quiet_getPage)

theorem lifts_mapKernelPage (m : Mm.State) (paddr vaddr : ℕ) :
    Returns (Lifts 0 m) (mapKernelPage m paddr vaddr) := by
  simp only [mapKernelPage, Returns, safely_bind]
  apply (quiet_managePhysPage m paddr).mono
  intro m₁ h₁
  apply (frame_assignPage m₁ _ _ _ _).mono
  rintro ⟨ret, m₂⟩ h₂
  apply (quiet_pageUnref m₂ _ _).mono
  intro m₃ h₃
  exact (h₁.lifts.trans h₂.lifts).trans h₃.lifts

theorem lifts_mapKernelCopy (m : Mm.State) (paddr lo hi off vaddr : ℕ) :
    Returns (Lifts 0 m) (mapKernelCopy m paddr lo hi off vaddr) := by
  simp only [mapKernelCopy, Returns, safely_bind]
  apply (quiet_getPage m).mono
  rintro ⟨page, m₁⟩ h₁
  apply (quiet_managePhysPage _ page).mono
  intro m₂ h₂
  apply (frame_assignPage m₂ _ _ _ _).mono
  rintro ⟨ret, m₃⟩ h₃
  apply (quiet_pageUnref m₃ _ _).mono
  intro m₄ h₄
  have hcopy : ∀ f, Lifts 0 m₁ (m₁.setMem page f) := fun _ => rfl
  exact (((h₁.lifts.trans (hcopy _)).trans h₂.lifts).trans h₃.lifts).trans h₄.lifts

theorem lifts_mapKernelPages (m : Mm.State) (start stop vaddr : ℕ) :
    Returns (fun r => Lifts 0 m r.2) (mapKernelPages m start stop vaddr) := by
  apply safely_foldlM (fun _ (r : ℕ × Mm.State) => Lifts 0 m r.2) (Lifts.refl m)
  intro i _ r hr
  simp only [safely_bind, safely_pure]
  exact (lifts_mapKernelPage r.2 i r.1).mono fun _ h => hr.trans h

theorem lifts_bdaGetResponse (m : Mm.State) :
    Returns (fun r => Lifts 0 m r.2) (bdaGetResponse m) := by
  unfold bdaGetResponse
  generalize 4096 * 16 = len
  simp only [Returns, safely_bind]
  apply (lifts_insertVmaToAny_ok m _ _ _).mono
  rintro ⟨vma, m₁⟩ h₁
  cases vma with
  | error e => trivial
  | ok vma =>
    simp only [safely_bind]
    exact (lifts_mapKernelPages m₁ _ _ _).mono fun _ h₂ => (h₁ vma rfl).trans h₂

theorem lifts_tarfsGetResponse (m : Mm.State) (start stop : ℕ) :
    Returns (fun r => Lifts 0 m r.2) (tarfsGetResponse m start stop) := by
  -- the addresses are not to be computed
  simp only [tarfsGetResponse, Returns, safely_bind]
  generalize Mm.pageAlignUp start = astart, pageAlign start = ustart, pageAlign stop = aend
  generalize 4096 = size
  apply (lifts_insertVmaToAny_ok m _ _ _).mono
  rintro ⟨vma, m₁⟩ h₁
  cases vma with
  | error e => trivial
  | ok vma =>
    simp only [safely_bind]
    apply Safely.mono (Q := fun r : ℕ × Mm.State => Lifts 0 m r.2)
    · split
      · simp only [safely_bind]
        exact (lifts_mapKernelCopy m₁ _ _ _ _ _).mono fun _ h₂ => (h₁ vma rfl).trans h₂
      · exact h₁ vma rfl
    rintro ⟨vaddr, m₂⟩ h₂
    apply (lifts_mapKernelPages m₂ _ _ _).mono
    rintro ⟨vaddr', m₃⟩ h₃
    apply Safely.mono (Q := Lifts 0 m₃)
    · split
      · exact lifts_mapKernelCopy m₃ _ _ _ _ _
      · exact Lifts.refl m₃
    · exact fun m₄ h₄ => (h₂.trans h₃).trans h₄

end Pages

end SadOS.Kernel
