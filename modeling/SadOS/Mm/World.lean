import SadOS.Mm.Calls
import SadOS.Mm.MemPort

/-!
# Runs of the memory manager

The address spaces of all tasks, and the steps that tasks and the kernel take on them
in any order.  A step runs in the current address space; `switch` is the scheduler.

## Main definitions

* `World` — the state of the memory manager and the tables of address spaces.
* `Op`, `World.step`, `World.run` — the steps, and runs of them.
* `Tables` — handles are live and unique.
* `World.Allowed` — what a step must not meet.
* `Accounts`, `Accounts.step`, `Accounts.run` — the accounts, which allowed steps keep.
* `World.check` — a test under which a step is allowed.
* `World.boot`, `accounts_boot` — one empty address space and the zero page.
-/

namespace SadOS.Mm

/-- The entries of a file table, which takes one page. -/
def MAX_FDS : ℕ := 510

/-- The memory manager and its users. -/
structure World where
  mm : State
  /-- `astable` of the task that runs in an address space. -/
  tabs : ℕ → AsTable

/-- A step.  Addresses and lengths are those that a register holds. -/
inductive Op where
  /-- The scheduler runs the task of another address space. -/
  | switch (as : ℕ)
  | asnew (snapshot : Bool)
  | asdestroy (as : ℤ)
  /-- `destroy_as` of the address space of a task that does not run, as in
  `kill_process`.  Nobody has a handle of it any more. -/
  | destroy (as : ℕ)
  | read (vaddr : UInt64)
  | write (vaddr : UInt64) (b : UInt8)
  | sendpage (as : ℤ) (vaddr dst len : UInt64)
  | munmap (base len : UInt64)
  | copyToUser (src : ℕ → UInt8) (buf len : UInt64)
  | mapFromUser (buf len : UInt64)
  | mapToUser (plist : ℕ) (vaddr : UInt64)
  | pageListFree (plist : ℕ)
  /-- A request to the memory port. -/
  | memRequest (len buf : UInt64)

/-- The table of a task that starts in an address space. -/
def newTable (as : ℕ) : AsTable := some as :: List.replicate (MAX_FDS - 1) none

namespace World

/-- The table of the current task. -/
def table (w : World) : AsTable := w.tabs w.mm.current

/-- One step. -/
def step (w : World) : Op → Except Fault World
  | .switch as =>
    if (w.mm.spaces as).isSome then .ok { w with mm := { w.mm with current := as } } else .ok w
  | .asnew snapshot => do
    let (r, mm) ← asnew w.mm w.table snapshot
    return ⟨mm, Function.update (Function.update w.tabs w.mm.current r.2) w.mm.aspacePool
      (newTable w.mm.aspacePool)⟩
  | .asdestroy as => do
    let (r, mm) ← asdestroy w.mm w.table as
    return ⟨mm, Function.update w.tabs w.mm.current r.2⟩
  | .destroy as =>
    if as ≠ w.mm.current ∧ (w.mm.spaces as).isSome then do
      let mm ← destroyAs w.mm as
      return ⟨mm, fun a => (w.tabs a).map fun f => if f = some as then none else f⟩
    else .ok w
  | .read vaddr => do
    let (_, mm) ← userRead w.mm vaddr.toNat
    return { w with mm }
  | .write vaddr b => do
    let (_, mm) ← userWrite w.mm vaddr.toNat b
    return { w with mm }
  | .sendpage as vaddr dst len => do
    let (_, mm) ← sendpage w.mm w.table as vaddr.toNat dst.toNat len.toNat
    return { w with mm }
  | .munmap base len => do
    let (_, mm) ← munmap w.mm base.toNat len.toNat
    return { w with mm }
  | .copyToUser src buf len => do
    let (_, mm) ← copyToUserSimple w.mm src buf.toNat len.toNat
    return { w with mm }
  | .mapFromUser buf len => do
    let (_, mm) ← mapFromUser w.mm buf.toNat len.toNat
    return { w with mm }
  | .mapToUser plist vaddr => do
    let (_, mm) ← mapToUser w.mm plist vaddr.toNat
    return { w with mm }
  | .pageListFree plist => do
    let mm ← pageListFree w.mm plist
    return { w with mm }
  | .memRequest len buf => do
    let (_, mm) ← memPortRequest w.mm len.toNat buf.toNat
    return { w with mm }

/-- A run. -/
def run (w : World) (ops : List Op) : Except Fault World := ops.foldlM step w

end World

/-! ## Handles -/

/-- The tables of live address spaces: entry 0 is the address space itself, the others
are live ones, each in one place. -/
structure Tables (live : ℕ → Prop) (tabs : ℕ → AsTable) : Prop where
  own : ∀ a, live a → (tabs a)[0]? = some (some a)
  handle : ∀ a (i : ℕ) b, live a → (tabs a)[i]? = some (some b) → live b
  other : ∀ a (i : ℕ) b, live a → (tabs a)[i + 1]? = some (some b) → b ≠ a
  unique : ∀ a a' (i i' : ℕ) b, live a → live a' → (tabs a)[i + 1]? = some (some b) →
    (tabs a')[i' + 1]? = some (some b) → a = a' ∧ i = i'

/-- An address space that exists. -/
def State.Live (s : State) (a : ℕ) : Prop := (s.spaces a).isSome = true

/-- `fdtable_insert` fills the entry that it returns, which was free. -/
theorem fdtableInsert_get {d fd : ℕ} {tab tab' : AsTable} (h : fdtableInsert d tab = some (fd, tab')) :
    tab[fd]? = some none ∧ ∀ i, tab'[i]? = if i = fd then some (some d) else tab[i]? := by
  induction tab generalizing fd tab' with
  | nil => cases h
  | cons f rest ih =>
    cases f with
    | none =>
      simp only [fdtableInsert, Option.some.injEq, Prod.mk.injEq] at h
      obtain ⟨rfl, rfl⟩ := h
      refine ⟨rfl, fun i => ?_⟩
      cases i <;> simp
    | some f =>
      simp only [fdtableInsert, Option.map_eq_some_iff, Prod.mk.injEq] at h
      obtain ⟨⟨fd', tab''⟩, h', rfl, rfl⟩ := h
      obtain ⟨hfree, hget⟩ := ih h'
      refine ⟨by simpa using hfree, fun i => ?_⟩
      cases i with
      | zero => simp
      | succ i => simpa using hget i

namespace Tables

variable {live live' : ℕ → Prop} {tabs tabs' : ℕ → AsTable}

theorem congr (h : Tables live tabs) (hl : ∀ a, live' a ↔ live a) : Tables live' tabs := by
  have : live' = live := funext fun a => propext (hl a)
  rwa [this]

/-- Only the tables of live address spaces matter. -/
theorem of_eq (h : Tables live tabs) (ht : ∀ a, live a → tabs' a = tabs a) : Tables live tabs' := by
  refine ⟨fun a ha => ?_, fun a i b ha hb => ?_, fun a i b ha hb => ?_, fun a a' i i' b ha ha' hb hb' => ?_⟩
  · rw [ht a ha]
    exact h.own a ha
  · rw [ht a ha] at hb
    exact h.handle a i b ha hb
  · rw [ht a ha] at hb
    exact h.other a i b ha hb
  · rw [ht a ha] at hb
    rw [ht a' ha'] at hb'
    exact h.unique a a' i i' b ha ha' hb hb'

/-- Some address spaces go, and the handles of them. -/
theorem remove (h : Tables live tabs) {gone : ℕ} (hl : ∀ a, live' a ↔ a ≠ gone ∧ live a)
    (ht : ∀ a (i : ℕ) b, live' a → (tabs' a)[i]? = some (some b) → (tabs a)[i]? = some (some b) ∧ b ≠ gone)
    (hown : ∀ a, live' a → (tabs' a)[0]? = some (some a)) : Tables live' tabs' := by
  have hlive : ∀ a, live' a → live a := fun a ha => ((hl a).1 ha).2
  refine ⟨hown, ?_, ?_, ?_⟩
  · intro a i b ha hb
    obtain ⟨hb', hne⟩ := ht a i b ha hb
    exact (hl b).2 ⟨hne, h.handle a i b (hlive a ha) hb'⟩
  · intro a i b ha hb
    exact h.other a i b (hlive a ha) (ht a _ b ha hb).1
  · intro a a' i i' b ha ha' hb hb'
    exact h.unique a a' i i' b (hlive a ha) (hlive a' ha') (ht a _ b ha hb).1 (ht a' _ b ha' hb').1

/-- A new address space, with a handle of it in the table of `cur`. -/
theorem insert (h : Tables live tabs) {cur new fd : ℕ} {tab : AsTable} (hcur : live cur)
    (hnew : ¬live new) (hl : ∀ a, live' a ↔ a = new ∨ live a)
    (htab : fdtableInsert new (tabs cur) = some (fd, tab)) :
    Tables live' (Function.update (Function.update tabs cur tab) new (newTable new)) := by
  have hne : cur ≠ new := by
    rintro rfl
    exact hnew hcur
  have hget := fdtableInsert_get htab
  have hnewTab : ∀ (i : ℕ) b, (newTable new)[i]? = some (some b) → i = 0 ∧ b = new := by
    intro i b hb
    cases i with
    | zero => simpa [newTable, eq_comm] using hb
    | succ i => simp [newTable, List.getElem?_replicate] at hb
  -- a handle in the new tables is an old one or the new one
  have hold : ∀ a (i : ℕ) b, a ≠ new →
      (Function.update (Function.update tabs cur tab) new (newTable new) a)[i]? = some (some b) →
      (tabs a)[i]? = some (some b) ∨ a = cur ∧ i = fd ∧ b = new := by
    intro a i b ha hb
    rw [Function.update_of_ne ha] at hb
    by_cases hac : a = cur
    · subst hac
      rw [Function.update_self, hget.2] at hb
      split at hb
      · rename_i hi
        simp only [Option.some.injEq] at hb
        exact .inr ⟨rfl, hi, hb.symm⟩
      · exact .inl hb
    · rw [Function.update_of_ne hac] at hb
      exact .inl hb
  have hliveOf : ∀ a, live' a → a ≠ new → live a := fun a ha hn => ((hl a).1 ha).resolve_left hn
  have hne_new : ∀ b, live b → b ≠ new := by
    rintro b hb rfl
    exact hnew hb
  have hfd : fd ≠ 0 := by
    rintro rfl
    rw [h.own cur hcur] at hget
    simp at hget
  refine ⟨?_, ?_, ?_, ?_⟩
  · intro a ha
    by_cases han : a = new
    · subst han
      rw [Function.update_self]
      rfl
    · rw [Function.update_of_ne han]
      by_cases hac : a = cur
      · subst hac
        rw [Function.update_self, hget.2, if_neg (Ne.symm hfd)]
        exact h.own a hcur
      · rw [Function.update_of_ne hac]
        exact h.own a (hliveOf a ha han)
  · intro a i b ha hb
    by_cases han : a = new
    · subst han
      rw [Function.update_self] at hb
      exact (hl b).2 (.inl (hnewTab i b hb).2)
    · rcases hold a i b han hb with hb | ⟨-, -, rfl⟩
      · exact (hl b).2 (.inr (h.handle a i b (hliveOf a ha han) hb))
      · exact (hl b).2 (.inl rfl)
  · intro a i b ha hb
    by_cases han : a = new
    · subst han
      rw [Function.update_self] at hb
      exact absurd (hnewTab _ b hb).1 (by omega)
    · rcases hold a _ b han hb with hb | ⟨-, -, rfl⟩
      · exact h.other a i b (hliveOf a ha han) hb
      · exact Ne.symm han
  · intro a a' i i' b ha ha' hb hb'
    have hold' : ∀ a (i : ℕ), live' a →
        (Function.update (Function.update tabs cur tab) new (newTable new) a)[i + 1]? = some (some b) →
        live a ∧ (tabs a)[i + 1]? = some (some b) ∧ b ≠ new ∨ a = cur ∧ i + 1 = fd ∧ b = new := by
      intro a i ha hb
      by_cases han : a = new
      · subst han
        rw [Function.update_self] at hb
        exact absurd (hnewTab _ b hb).1 (by omega)
      · rcases hold a _ b han hb with hb | heq
        · have hla := hliveOf a ha han
          exact .inl ⟨hla, hb, hne_new b (h.handle a _ b hla hb)⟩
        · exact .inr heq
    rcases hold' a i ha hb with ⟨hla, hb, hbn⟩ | ⟨rfl, hi, hbn⟩ <;>
      rcases hold' a' i' ha' hb' with ⟨hla', hb', hbn'⟩ | ⟨rfl, hi', hbn'⟩
    · exact h.unique a a' i i' b hla hla' hb hb'
    · exact absurd hbn' hbn
    · exact absurd hbn hbn'
    · exact ⟨rfl, by omega⟩

end Tables

/-! ## Steps -/

/-- What a step must not meet.  `stale` permits a write to the last snapshot of a page,
and `canon` asks for VMAs in the lower canonical half.  Device memory is left out. -/
def World.Allowed (stale canon : Prop) (w : World) : Op → Prop
  | .read vaddr => FaultOk stale w.mm false (pageAlign vaddr.toNat)
  | .write vaddr _ => FaultOk stale w.mm true (pageAlign vaddr.toNat)
  | .sendpage as vaddr dst len => as ≠ w.table.length ∧
    ∀ a, w.table[as.toNat]? = some (some a) →
      (canon → w.mm.placedAt a dst.toNat len.toNat + len.toNat ≤ 2 ^ 47) ∧
      (a = w.mm.current → w.mm.placedAt a dst.toNat len.toNat % 2 ^ 64 ≠ vaddr.toNat)
  | .copyToUser _ buf len => CopyOk stale w.mm buf.toNat len.toNat
  | .mapFromUser buf len => canon → ∀ vaddr ∈ wholePages buf.toNat len.toNat, ∀ pe,
    w.mm.entry w.mm.current vaddr = some pe → TakesReadOnly w.mm pe.p
  | .mapToUser plist vaddr => ∃ plh, w.mm.plists.lookup plist = some plh ∧
    (canon → w.mm.placedAt w.mm.current vaddr.toNat (4096 * plh.npage % 2 ^ 64) +
      4096 * plh.npage % 2 ^ 64 ≤ 2 ^ 47)
  | .pageListFree plist => ∃ plh, w.mm.plists.lookup plist = some plh
  | .memRequest .. => False
  | _ => True

/-- The accounts of pages, with `kept` the pages that the kernel refers to, and the
handles of address spaces. -/
structure Accounts (stale canon : Prop) (kept : List ℕ) (w : World) : Prop where
  settled : Settled stale canon kept w.mm
  tables : Tables w.mm.Live w.tabs
  running : w.mm.Live w.mm.current

namespace Accounts

variable {stale canon : Prop} {kept : List ℕ} {w : World}

theorem live (h : Accounts stale canon kept w) : ∃ sp, w.mm.spaces w.mm.current = some sp :=
  Option.isSome_iff_exists.1 h.running

/-- Handles stay while address spaces do. -/
theorem of_same (h : Accounts stale canon kept w) {mm : State} (hs : Settled stale canon kept mm)
    (hsame : SameSpaces w.mm mm) : Accounts stale canon kept { w with mm } := by
  have hl : ∀ a, mm.Live a ↔ w.mm.Live a := fun a => by rw [State.Live, hsame.live, State.Live]
  refine ⟨hs, h.tables.congr hl, ?_⟩
  rw [hl]
  have hcur : ({ w with mm } : World).mm.current = w.mm.current := hsame.current
  rw [hcur]
  exact h.running

theorem of_kept (h : Accounts stale canon kept w) {mm : State}
    (hr : Settled stale canon kept mm ∧ Kept w.mm mm) : Accounts stale canon kept { w with mm } :=
  h.of_same hr.1 hr.2.toSameSpaces

theorem asnew (h : Accounts stale canon kept w) (snapshot : Bool) :
    Safely Halts (Accounts stale canon kept) (w.step (.asnew snapshot)) := by
  have hdead : ¬w.mm.Live w.mm.aspacePool := by
    rw [State.Live, h.settled.sound.fresh _ le_rfl]
    simp
  have hne : w.mm.current ≠ w.mm.aspacePool := by
    intro heq
    rw [← heq] at hdead
    exact hdead h.running
  simp only [World.step, safely_bind, safely_pure]
  refine (h.settled.asnew h.live w.table snapshot).mono ?_
  rintro ⟨⟨ret, tab⟩, mm⟩ ⟨hs, hcur, hcase⟩
  dsimp only at hs hcur hcase ⊢
  refine ⟨hs, ?_, ?_⟩
  · rcases hcase with ⟨rfl, hlive⟩ | ⟨fd, htab, hlive⟩
    · -- the table of an address space that is gone does not matter
      have hl : ∀ a, mm.Live a ↔ w.mm.Live a := fun a => by rw [State.Live, hlive, State.Live]
      rw [World.table, Function.update_eq_self]
      refine (h.tables.congr hl).of_eq fun a ha => Function.update_of_ne ?_ _ _
      rintro rfl
      exact hdead ((hl _).1 ha)
    · refine h.tables.insert h.running hdead (fun a => ?_) htab
      rw [State.Live, hlive]
      simp [State.Live]
  · rw [State.Live, hcur]
    rcases hcase with ⟨-, hlive⟩ | ⟨-, -, hlive⟩
    · rw [hlive]
      exact h.running
    · rw [hlive, show (w.mm.spaces w.mm.current).isSome = true from h.running, Bool.or_true]

/-- An address space that does not run goes, with the handles of it. -/
theorem remove (h : Accounts stale canon kept w) {mm : State} {gone : ℕ} {tabs : ℕ → AsTable}
    (hs : Settled stale canon kept mm) (hcur : mm.current = w.mm.current)
    (hlive : ∀ b, (mm.spaces b).isSome = (b ≠ gone && (w.mm.spaces b).isSome))
    (hgone : gone ≠ w.mm.current)
    (ht : ∀ a (i : ℕ) b, w.mm.Live a → (tabs a)[i]? = some (some b) →
      (w.tabs a)[i]? = some (some b) ∧ b ≠ gone ∨ a = gone)
    (hown : ∀ a, w.mm.Live a → a ≠ gone → (tabs a)[0]? = some (some a)) :
    Accounts stale canon kept ⟨mm, tabs⟩ := by
  have hl : ∀ a, mm.Live a ↔ a ≠ gone ∧ w.mm.Live a := fun a => by
    rw [State.Live, hlive]
    simp [State.Live]
  refine ⟨hs, h.tables.remove hl (fun a i b ha hb => ?_) fun a ha => ?_, ?_⟩
  · exact (ht a i b ((hl a).1 ha).2 hb).resolve_right ((hl a).1 ha).1
  · exact hown a ((hl a).1 ha).2 ((hl a).1 ha).1
  · rw [hl, hcur]
    exact ⟨hgone.symm, h.running⟩

theorem asdestroy (h : Accounts stale canon kept w) (as : ℤ) :
    Safely Halts (Accounts stale canon kept) (w.step (.asdestroy as)) := by
  have htab : ∀ (i : ℕ) a, w.table[i]? = some (some a) → ∃ sp, w.mm.spaces a = some sp :=
    fun i a hi => Option.isSome_iff_exists.1 (h.tables.handle _ i a h.running hi)
  simp only [World.step, safely_bind, safely_pure]
  refine (h.settled.asdestroy htab as).mono ?_
  rintro ⟨⟨ret, tab⟩, mm⟩ ⟨hs, hcur, ⟨rfl, hlive⟩ | ⟨i, gone, hi, hgone, rfl, hlive⟩⟩
  · rw [World.table, Function.update_eq_self]
    exact h.of_same hs ⟨hcur, hlive⟩
  · obtain ⟨j, rfl⟩ := Nat.exists_eq_succ_of_ne_zero hi
    have hne : gone ≠ w.mm.current := h.tables.other _ j gone h.running hgone
    refine h.remove hs hcur hlive hne (fun a i b ha hb => ?_) fun a ha hag => ?_
    · dsimp only at hb
      by_cases hac : a = w.mm.current
      · subst hac
        rw [Function.update_self, List.getElem?_set] at hb
        split at hb
        · split at hb <;> simp at hb
        · rename_i hij
          refine .inl ⟨hb, ?_⟩
          rintro rfl
          cases i with
          | zero =>
            have := h.tables.own _ ha
            rw [World.table] at hb
            rw [this] at hb
            simp only [Option.some.injEq] at hb
            exact hne hb.symm
          | succ i => exact hij (congrArg _ (h.tables.unique _ _ _ _ _ ha ha hgone hb).2)
      · rw [Function.update_of_ne hac] at hb
        by_cases hbg : b = gone
        · subst hbg
          cases i with
          | zero =>
            rw [h.tables.own a ha] at hb
            simp only [Option.some.injEq] at hb
            exact .inr hb
          | succ i => exact absurd (h.tables.unique _ _ _ _ _ ha h.running hb hgone).1 hac
        · exact .inl ⟨hb, hbg⟩
    · by_cases hac : a = w.mm.current
      · subst hac
        rw [Function.update_self, List.getElem?_set_ne (by omega)]
        exact h.tables.own _ ha
      · rw [Function.update_of_ne hac]
        exact h.tables.own a ha

theorem destroy (h : Accounts stale canon kept w) (gone : ℕ) :
    Safely Halts (Accounts stale canon kept) (w.step (.destroy gone)) := by
  rw [World.step]
  split
  · rename_i hcond
    simp only [safely_bind, safely_pure]
    refine (h.settled.destroyAs (Option.isSome_iff_exists.1 hcond.2)).mono ?_
    rintro mm ⟨hs, hrest, hlive⟩
    refine h.remove hs hrest.current hlive hcond.1 (fun a i b ha hb => .inl ?_) fun a ha hag => ?_
    · rw [List.getElem?_map, Option.map_eq_some_iff] at hb
      obtain ⟨f, hf, heq⟩ := hb
      split at heq
      · cases heq
      · rename_i hne
        rw [hf, heq]
        exact ⟨rfl, fun hbg => hne (by rw [heq, hbg])⟩
    · rw [List.getElem?_map, h.tables.own a ha]
      simp [hag]
  · exact h

/-- An allowed step keeps the accounts, unless it stops the machine. -/
theorem step (h : Accounts stale canon kept w) {op : Op} (hok : w.Allowed stale canon op) :
    Safely Halts (Accounts stale canon kept) (w.step op) := by
  have htab : ∀ (i : ℕ) a, w.table[i]? = some (some a) → ∃ sp, w.mm.spaces a = some sp :=
    fun i a hi => Option.isSome_iff_exists.1 (h.tables.handle _ i a h.running hi)
  cases op with
  | switch as =>
    rw [World.step]
    split
    · rename_i hlive
      exact ⟨h.settled.setCurrent as, h.tables, hlive⟩
    · exact h
  | asnew snapshot => exact h.asnew snapshot
  | asdestroy as => exact h.asdestroy as
  | destroy as => exact h.destroy as
  | read vaddr =>
    simp only [World.step, safely_bind, safely_pure]
    exact (h.settled.userRead h.live hok).mono fun r hr => h.of_kept hr
  | write vaddr b =>
    simp only [World.step, safely_bind, safely_pure]
    exact (h.settled.userWrite h.live hok b).mono fun r hr => h.of_kept hr
  | sendpage as vaddr dst len =>
    simp only [World.step, safely_bind, safely_pure]
    refine (h.settled.sendpage h.live htab hok.1 fun a ha => ⟨(hok.2 a ha).1, fun hcur i => ?_⟩).mono
      fun r hr => h.of_kept hr
    have hne := (hok.2 a ha).2 hcur
    have hlt := vaddr.toNat_lt
    simp only [wadd]
    omega
  | munmap base len =>
    simp only [World.step, safely_bind, safely_pure]
    exact (h.settled.munmap h.live _ _).mono fun r hr => h.of_kept hr
  | copyToUser src buf len =>
    simp only [World.step, safely_bind, safely_pure]
    refine ((h.settled.copyToUserSimple h.live hok src).and
      (kept_copyToUserSimple w.mm src _ _)).mono fun r hr => h.of_kept hr
  | mapFromUser buf len =>
    simp only [World.step, safely_bind, safely_pure]
    exact ((h.settled.mapFromUser h.live hok).and (shape_mapFromUser w.mm _ _)).mono
      fun r hr => h.of_same hr.1 hr.2.spaces
  | mapToUser plist vaddr =>
    obtain ⟨plh, hplh, hb⟩ := hok
    simp only [World.step, safely_bind, safely_pure]
    exact (h.settled.mapToUserAs hplh h.live hb).mono fun r hr => h.of_kept hr
  | pageListFree plist =>
    obtain ⟨plh, hplh⟩ := hok
    simp only [World.step, safely_bind, safely_pure]
    exact ((h.settled.pageListFree hplh).and (shape_pageListFree w.mm plist)).mono
      fun mm hr => h.of_same hr.1 hr.2.spaces
  | memRequest len buf => exact hok.elim

/-- So does a run of allowed steps. -/
theorem run (h : Accounts stale canon kept w) {ops : List Op}
    (hok : Along (World.Allowed stale canon) World.step w ops) :
    Safely Halts (Accounts stale canon kept) (w.run ops) :=
  safely_along h (fun _ _ h hok => h.step hok) hok

end Accounts

/-! ## A test of steps -/

/-- `FaultOk`, computed. -/
def faultCheck (s : State) (write : Bool) (page : ℕ) : Bool :=
  ((s.spaces s.current).all fun sp => (vmaFindByVaddr page sp.vma).all fun vma => vma.pageSize == 0) &&
    (!write || (s.entry s.current page).all fun pe =>
      (s.physPages pe.p).all fun pg => !(pg.snapCount == 1 && pg.refCount == 1))

theorem faultOk_of_check {stale : Prop} {s : State} {write : Bool} {page : ℕ}
    (h : faultCheck s write page = true) : FaultOk stale s write page := by
  rw [faultCheck, Bool.and_eq_true] at h
  obtain ⟨hsize, hsole⟩ := h
  refine ⟨fun sp vma hsp hvma => ?_, fun hw pe pg hpe hp hs1 hr1 => ?_⟩
  · rw [hsp, Option.all_some, hvma] at hsize
    simpa using hsize
  · rw [hw, hpe, Option.all_some, hp] at hsole
    simp [hs1, hr1] at hsole

/-- A test under which a step is allowed.  Copies and page lists do not pass it. -/
def World.check (w : World) : Op → Bool
  | .read vaddr => faultCheck w.mm false (pageAlign vaddr.toNat)
  | .write vaddr _ => faultCheck w.mm true (pageAlign vaddr.toNat)
  | .sendpage as vaddr dst len => as != w.table.length && match w.table[as.toNat]? with
    | some (some a) => decide (w.mm.placedAt a dst.toNat len.toNat + len.toNat ≤ 2 ^ 47) &&
      (a != w.mm.current || w.mm.placedAt a dst.toNat len.toNat % 2 ^ 64 != vaddr.toNat)
    | _ => true
  | .copyToUser .. => false
  | .mapFromUser .. => false
  | .mapToUser .. => false
  | .pageListFree _ => false
  | .memRequest .. => false
  | _ => true

theorem allowed_of_check {stale canon : Prop} {w : World} {op : Op} (h : w.check op = true) :
    w.Allowed stale canon op := by
  cases op with
  | read vaddr => exact faultOk_of_check h
  | write vaddr b => exact faultOk_of_check h
  | sendpage as vaddr dst len =>
    simp only [World.check, Bool.and_eq_true, bne_iff_ne] at h
    refine ⟨h.1, fun a ha => ?_⟩
    simp only [ha, Bool.and_eq_true, decide_eq_true_eq, Bool.or_eq_true, bne_iff_ne] at h
    exact ⟨fun _ => h.2.1, fun hcur => h.2.2.resolve_left fun hne => hne hcur⟩
  | copyToUser src buf len => cases h
  | mapFromUser buf len => cases h
  | mapToUser plist vaddr => cases h
  | pageListFree plist => cases h
  | memRequest len buf => cases h
  | switch as => trivial
  | asnew snapshot => trivial
  | asdestroy as => trivial
  | destroy as => trivial
  | munmap base len => trivial

/-! ## The start -/

/-- The page allocator has its pages, and the zero page is managed. -/
def State.boot (free : List ℕ) (zeroPage : ℕ) : State where
  spaces := fun _ => none
  aspacePool := 0
  physPages := Function.update (fun _ => none) zeroPage (some ⟨1, 0, []⟩)
  mem := fun _ _ => 0
  pte := fun _ _ => none
  freePages := free
  plists := []
  plistPool := 0
  zeroPage := zeroPage
  freeRange := []
  current := 0
  interruptDisabled := 0
  vmaJunk := fun _ _ => (0, 0)

/-- A first task, in an empty address space. -/
def World.boot (free : List ℕ) (zeroPage : ℕ) : World :=
  ⟨(aspaceNew (State.boot free zeroPage)).2, newTable⟩

theorem settled_boot {free : List ℕ} {zeroPage : ℕ} (hfree : free.Nodup) (hzero : zeroPage ∉ free)
    (stale canon : Prop) : Settled stale canon [zeroPage] (State.boot free zeroPage) := by
  have hempty : Linked stale [] [] (fun _ => none) (fun _ _ => none) free :=
    ⟨by simp, by simp, by simp, by simp, by simp, hfree, by simp⟩
  have hent : (State.boot free zeroPage).entry = fun _ _ => none := rfl
  refine ⟨⟨⟨?_, fun _ => ?_⟩, ⟨?_, ?_, ?_⟩, ?_⟩, ?_, ?_, ?_⟩
  · exact hempty.manage rfl hzero
  · exact ⟨by simp [State.boot], by simp [hent]⟩
  · simp [State.boot]
  · simp [State.boot]
  · simp [State.boot]
  · simp [State.boot, State.nodes]
  · simp [State.boot]
  · simp [State.boot]
  · simp [State.boot]

theorem accounts_boot {free : List ℕ} {zeroPage : ℕ} (hfree : free.Nodup) (hzero : zeroPage ∉ free)
    (stale canon : Prop) : Accounts stale canon [zeroPage] (World.boot free zeroPage) := by
  have hlive : ∀ a, (World.boot free zeroPage).mm.Live a ↔ a = 0 := by
    intro a
    by_cases ha : a = 0 <;> simp [World.boot, aspaceNew, State.boot, State.setSpace, State.Live, ha]
  have hget : ∀ a (i : ℕ) b, (newTable a)[i]? = some (some b) → i = 0 ∧ b = a := by
    intro a i b hb
    cases i with
    | zero => simpa [newTable, eq_comm] using hb
    | succ i => simp [newTable, List.getElem?_replicate] at hb
  refine ⟨(settled_boot hfree hzero stale canon).aspaceNew, ⟨?_, ?_, ?_, ?_⟩, (hlive 0).2 rfl⟩
  · exact fun a _ => rfl
  · intro a i b ha hb
    rw [(hget a i b hb).2]
    exact ha
  · intro a i b _ hb
    exact absurd (hget a _ b hb).1 (by omega)
  · intro a a' i i' b _ _ hb _
    exact absurd (hget a _ b hb).1 (by omega)

end SadOS.Mm
