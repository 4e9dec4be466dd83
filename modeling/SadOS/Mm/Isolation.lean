import SadOS.Mm.Forks

/-!
# Address spaces have memories of their own

Forks, reads, writes, removals of ranges and of whole address spaces in any order: what each
address space reads is what a memory of its own would hold.

## Main definitions

* `Removed` — the pages of a range are gone.
* `World.Ordinary` — the steps of ordinary memory.
* `World.runWith` — a run, next to what it means for the memories.
* `Isolated` — the address spaces read as the memories say.

## Main results

* `Forkable.munmap`, `Forkable.asdestroy` — the system calls.
* `Isolated.step`, `Isolated.run` — steps and runs.
* `reads_own_memory` — at the end of a run each address space reads its own memory.
-/

namespace SadOS.Mm

/-! ## Ranges that cut no VMA in two -/

section Cut

variable {base holeEnd nid : ℕ} {junk : ℕ × ℕ} {now : Link} {l : List VmArea}

/-- A range without addresses removes nothing. -/
theorem cutVmas_of_le (hle : holeEnd ≤ base) (hcut : ∀ v ∈ l, ¬v.CutBy base holeEnd) :
    cutVmas base holeEnd nid junk now l = l := by
  induction l generalizing now with
  | nil => rfl
  | cons v rest ih =>
    obtain ⟨hv, hrest⟩ := List.forall_mem_cons.1 hcut
    rw [VmArea.CutBy] at hv
    rw [cutVmas]
    dsimp only
    split
    · rw [ih hrest]
    split
    · rfl
    rw [if_neg (by omega), if_neg (by omega)]
    omega

/-- What is left of VMAs of ordinary memory is ordinary memory. -/
theorem plain_cutVmas (hl : ∀ v ∈ l, v.Plain) (hcut : ∀ v ∈ l, ¬v.CutBy base holeEnd)
    (hbase : base % 4096 = 0) (hend : holeEnd % 4096 = 0) (hle : base ≤ holeEnd)
    (hhole : holeEnd < 2 ^ 64) : ∀ w ∈ cutVmas base holeEnd nid junk now l, w.Plain := by
  induction l generalizing now with
  | nil => simp [cutVmas]
  | cons v rest ih =>
    obtain ⟨hv, hrest⟩ := List.forall_mem_cons.1 hl
    obtain ⟨hvcut, hcut⟩ := List.forall_mem_cons.1 hcut
    have hnow := wadd_eq hv.noWrap
    have hwrap := hv.noWrap
    rw [VmArea.CutBy] at hvcut
    rw [cutVmas]
    dsimp only
    split
    · exact List.forall_mem_cons.2 ⟨hv, ih hrest hcut⟩
    split
    · exact hl
    split
    · exact forall_setPrev (fun w p hw => hw.congr rfl rfl rfl rfl) (ih hrest hcut)
    rw [if_neg (by omega)]
    refine List.forall_mem_cons.2 ⟨?_, ih hrest hcut⟩
    have hb := hv.begin_aligned
    have hn := hv.length_aligned
    split
    · -- the part below the range
      have hlen := wsub_eq (show v.vmaBegin ≤ base by omega) (by omega)
      exact ⟨hv.writable, hv.software, hv.small, hb,
        by simp only [VmArea.below, hlen]; omega, by simp only [VmArea.below, hlen]; omega⟩
    · -- the part above it
      have hlen := wsub_eq (show holeEnd ≤ v.vmaBegin + v.vmaLength by omega) hwrap
      exact ⟨hv.writable, hv.software, hv.small, hend,
        by simp only [VmArea.above, hnow, hlen]; omega,
        by simp only [VmArea.above, hnow, hlen]; omega⟩

end Cut

/-! ## Removal -/

/-- The addresses from `base` on up to `holeEnd` are no longer those of `as`. -/
structure Removed (as base holeEnd : ℕ) (s t : State) : Prop extends SameRest s t where
  mem : t.mem = s.mem
  other : ∀ b, b ≠ as → t.spaces b = s.spaces b
  entry : ∀ v, t.entry as v = if base ≤ v ∧ v < holeEnd then none else s.entry as v
  covered : ∀ sp', t.spaces as = some sp' → ∃ sp, s.spaces as = some sp ∧
    ∀ x, Covered sp'.vma x → Covered sp.vma x ∧ ¬(base ≤ x ∧ x < holeEnd)

namespace Forkable

variable {kept : List ℕ} {s t : State}

/-- A range that cuts no VMA in two goes. -/
theorem removeVmaRange (h : Forkable kept s) {as base len : ℕ} {sp : AddressSpace}
    (hsp : s.spaces as = some sp)
    (hcut : ∀ v ∈ sp.vma, ¬v.CutBy base (wadd base len)) :
    Safely Halts (fun t => Forkable kept t ∧ Removed as base (wadd base len) s t)
      (removeVmaRange s as base len) := by
  have hplain := h.plain as sp hsp
  have hplaced : sp.Placed := ⟨hplain.ordered, h.settled.sound.hung as sp hsp, hplain.covers⟩
  by_cases hal : isAligned base = true ∧ isAligned len = true
  swap
  · rw [Mm.removeVmaRange, if_neg hal]
    simp
  have hbase' : base % 4096 = 0 := by simpa [isAligned] using hal.1
  have hlen' : len % 4096 = 0 := by simpa [isAligned] using hal.2
  refine (((h.settled.removeVmaRange ⟨sp, hsp⟩ base len).and
    (h.consistent.removeVmaRange h.settled.sound.toTidy ⟨sp, hsp⟩ base len)).and
    (returns_removeVmaRange hsp hplaced.distinct)).mono ?_
  rintro t ⟨⟨⟨hs, sp₀, hsp₀, htrim⟩, hc, -⟩, sp', hsp', -, hvma⟩
  obtain rfl : sp = sp₀ := Option.some.inj (hsp.symm.trans hsp₀)
  have hent : ∀ v, t.entry as v =
      if base ≤ v ∧ v < wadd base len then none else s.entry as v := by
    intro v
    have hgone := @mem_gonePages base sp.vma len hplain.ordered hplain.covers v
    rw [htrim.entry]
    by_cases hin : base ≤ v ∧ v < wadd base len
    · rw [if_pos hin]
      split
      · rfl
      · rename_i hnot
        rw [entry_of_space hsp, Option.eq_none_iff_forall_ne_some]
        exact fun pe hpe => hnot
          (hgone.2 ⟨by simpa using (hplaced.hung.mem_iff v).2 ⟨pe, hpe⟩, hin⟩)
    · rw [if_neg hin, if_neg fun hmem => hin (hgone.1 hmem).2]
  -- a range that wraps around has no addresses
  have hleft : sp'.Plain ∧
      ∀ x, Covered sp'.vma x → Covered sp.vma x ∧ ¬(base ≤ x ∧ x < wadd base len) := by
    rcases le_total (wadd base len) base with hle | hle
    · rw [cutVmas_of_le hle hcut] at hvma
      refine ⟨hplain.of_vma hvma, fun x hx => ⟨hvma ▸ hx, by omega⟩⟩
    · have hhole := wadd_lt base len
      have hend : wadd base len % 4096 = 0 := by
        rw [wadd]
        omega
      refine ⟨⟨?_, ?_, ?_⟩, fun x hx => ?_⟩
      · rw [hvma]
        exact ordered_cutVmas hplain.ordered hle hhole
      · rw [hvma]
        exact plain_cutVmas hplain.plain hcut hbase' hend hle hhole
      · rw [hvma]
        exact covers_cutVmas hplain.covers hle hhole
      · rwa [hvma, covered_cutVmas hplain.ordered hle hhole] at hx
  refine ⟨h.of_entries hs hc htrim.toSameRest htrim.mem (fun a v e he => ?_) fun a x hx => ?_,
    ⟨htrim.toSameRest, htrim.mem, htrim.other, hent, fun x hx => ⟨sp, hsp, fun y hy => ?_⟩⟩⟩
  · by_cases ha : a = as
    · subst ha
      rw [hent] at he
      split at he
      · cases he
      · exact he
    · rwa [State.entry, htrim.other a ha] at he
  · by_cases ha : a = as
    · subst ha
      obtain rfl : sp' = x := Option.some.inj (hsp'.symm.trans hx)
      exact hleft.1
    · exact h.plain a x (htrim.other a ha ▸ hx)
  · obtain rfl : sp' = x := Option.some.inj (hsp'.symm.trans hx)
    exact hleft.2 y hy

end Forkable

namespace Shows

variable {s t : State} {m : Memories}

/-- The removal of a range is one of the memories. -/
theorem munmap (h : Shows s m) {as base len : ℕ} (hbase : base % 4096 = 0)
    (hend : wadd base len % 4096 = 0) (hr : Removed as base (wadd base len) s t) :
    Shows t (m.munmap as base len) := by
  intro a
  by_cases ha : a = as
  swap
  · refine (h a).congr (by rw [hr.other a ha]) (fun v => ?_) hr.mem rfl ?_
    · rw [State.entry, State.entry, hr.other a ha]
    · exact Function.update_of_ne ha ..
  subst ha
  refine ⟨fun sp' x hsp' hx => ?_, fun v w ha hne => ?_⟩
  · obtain ⟨sp, hsp, hcov⟩ := hr.covered sp' hsp'
    obtain ⟨hx, hout⟩ := hcov x hx
    have hpage := pageAlign_bounds x
    have hmod := pageAlign_mod x
    change _ = m.byte a x
    rw [← (h a).byte sp x hsp hx, State.readByte, State.readByte, State.viewByte, State.viewByte,
      hr.entry, if_neg (by omega), hr.mem]
  · have hlive : s.Live a := by
      obtain ⟨sp', hsp'⟩ := Option.isSome_iff_exists.1 ha
      obtain ⟨sp, hsp, -⟩ := hr.covered sp' hsp'
      rw [State.Live, hsp]
      rfl
    have hold := (h a).same v w hlive hne
    rw [Memories.munmap]
    dsimp only
    rw [Function.update_self, Bool.and_eq_true, Bool.and_eq_true, hold, State.SharedOn,
      State.SharedOn, hr.entry, hr.entry]
    simp only [Bool.not_eq_true', decide_eq_false_iff_not]
    constructor
    · rintro ⟨⟨hs, hv⟩, hw⟩
      rwa [if_neg hv, if_neg hw]
    · rintro ⟨e, e', he, he', hs⟩
      split at he
      · cases he
      split at he'
      · cases he'
      rename_i hv hw
      exact ⟨⟨⟨e, e', he, he', hs⟩, hv⟩, hw⟩

/-- An address space goes. -/
theorem destroyAs (h : Shows s m) {as : ℕ} (hmem : t.mem = s.mem)
    (hspaces : ∀ b, t.spaces b = if b = as then none else s.spaces b) : Shows t m := by
  intro a
  by_cases ha : a = as
  · exact showsAt_of_none (by rw [hspaces, if_pos ha])
  · have hsame : t.spaces a = s.spaces a := by rw [hspaces, if_neg ha]
    exact (h a).congr (by rw [hsame]) (fun v => by rw [State.entry, State.entry, hsame]) hmem rfl rfl

end Shows

/-! ## System calls -/

namespace Forkable

variable {kept : List ℕ} {s : State} {m : Memories}

theorem munmap (h : Forkable kept s) (hlive : ∃ sp, s.spaces s.current = some sp)
    (hm : Shows s m) {base len : ℕ}
    (hcut : ∀ sp, s.spaces s.current = some sp → ∀ v ∈ sp.vma, ¬v.CutBy base (wadd base len)) :
    Safely Halts (fun r => Forkable kept r.2 ∧ Shows r.2
        (if isAligned base ∧ isAligned len then m.munmap s.current base len else m))
      (munmap s base len) := by
  obtain ⟨sp, hsp⟩ := hlive
  by_cases hal : isAligned base = true ∧ isAligned len = true
  · have hbase : base % 4096 = 0 := by simpa [isAligned] using hal.1
    have hlen : len % 4096 = 0 := by simpa [isAligned] using hal.2
    have hnot : ¬((!isAligned base) = true ∨ (!isAligned len) = true) := by simp [hal.1, hal.2]
    rw [Mm.munmap, if_neg hnot, if_pos hal]
    simp only [safely_bind, safely_pure]
    refine (h.removeVmaRange hsp (hcut sp hsp)).mono ?_
    rintro t ⟨ht, hr⟩
    exact ⟨ht, hm.munmap hbase (by rw [wadd]; omega) hr⟩
  · have hnot : (!isAligned base) = true ∨ (!isAligned len) = true := by
      cases hb : isAligned base <;> simp_all
    rw [Mm.munmap, if_pos hnot, safely_ok, if_neg hal]
    exact ⟨h, hm⟩

theorem asdestroy (h : Forkable kept s) {tab : AsTable}
    (htab : ∀ (i : ℕ) a, tab[i]? = some (some a) → ∃ sp, s.spaces a = some sp)
    (hm : Shows s m) (as : ℤ) :
    Safely Halts (fun r => Forkable kept r.2 ∧ Shows r.2 m) (asdestroy s tab as) := by
  have hfail : Safely Halts (fun t => Forkable kept t ∧ Shows t m)
      (enableInterrupts (disableInterrupts s)) := by
    rw [enableInterrupts_disable]
    exact ⟨h, hm⟩
  have hoff : Shows (disableInterrupts s) m :=
    hm.of_looks (Looks.of_same ((SameShape.refl s).setCounter _) rfl rfl)
  unfold Mm.asdestroy
  dsimp only
  split
  · simp only [safely_bind, safely_pure]
    exact hfail
  rename_i hin
  rw [fileAt]
  cases hget : tab[as.toNat]? with
  | none =>
    rw [List.getElem?_eq_none_iff] at hget
    omega
  | some f =>
    rw [ok_bind]
    cases f with
    | none =>
      simp only [safely_bind, safely_pure]
      exact hfail
    | some a =>
      simp only [safely_bind, safely_pure]
      refine (h.disable.destroyAs (htab _ a hget)).mono ?_
      rintro t ⟨ht, -, hmem, hspaces⟩
      exact safely_enable ⟨ht.setCounter _, (hoff.destroyAs hmem hspaces).of_looks
        (Looks.of_same ((SameShape.refl t).setCounter _) rfl rfl)⟩

end Forkable

/-! ## Runs -/

namespace World

/-- The steps of ordinary memory: forks, reads and writes, removals of ranges that cut no VMA in
two, and address spaces that go. -/
def Ordinary (w : World) : Op → Prop
  | .switch _ | .asnew true | .asdestroy _ | .destroy _ | .read _ | .write .. => True
  | .munmap base len => ∀ sp, w.mm.spaces w.mm.current = some sp →
    ∀ v ∈ sp.vma, ¬v.CutBy base.toNat (wadd base.toNat len.toNat)
  | _ => False

/-- A test under which a step is one of ordinary memory. -/
def ordinaryCheck (w : World) : Op → Bool
  | .switch _ | .asnew true | .asdestroy _ | .destroy _ | .read _ | .write .. => true
  | .munmap base len => (w.mm.spaces w.mm.current).all fun sp =>
    sp.vma.all fun v => !decide (v.CutBy base.toNat (wadd base.toNat len.toNat))
  | _ => false

theorem ordinary_of_check {w : World} {op : Op} (h : w.ordinaryCheck op = true) :
    w.Ordinary op := by
  cases op with
  | switch as => trivial
  | asnew snapshot =>
    cases snapshot with
    | false => cases h
    | true => trivial
  | asdestroy as => trivial
  | destroy as => trivial
  | read vaddr => trivial
  | write vaddr b => trivial
  | munmap base len =>
    intro sp hsp v hv
    rw [ordinaryCheck, hsp, Option.all_some] at h
    simpa using List.all_eq_true.1 h v hv
  | _ => cases h

/-- A step, next to what it means for the memories. -/
def stepWith (x : World × Memories) (op : Op) : Except Fault (World × Memories) := do
  let w ← x.1.step op
  return (w, x.2.step x.1.mm.current x.1.mm.aspacePool op)

/-- A run, next to what it means for the memories. -/
def runWith (x : World × Memories) (ops : List Op) : Except Fault (World × Memories) :=
  ops.foldlM stepWith x

theorem along_stepWith {ok : World → Op → Prop} {w : World} {ops : List Op} (m : Memories)
    (h : Along ok World.step w ops) :
    Along (fun x op => ok x.1 op) stepWith (w, m) ops := by
  induction ops generalizing w m with
  | nil => trivial
  | cons op rest ih =>
    refine ⟨h.1, fun x hx => ?_⟩
    rw [stepWith] at hx
    cases hw : w.step op with
    | error e =>
      rw [hw] at hx
      cases hx
    | ok w' =>
      rw [hw] at hx
      cases hx
      exact ih _ (h.2 w' hw)

/-- The memories do not change the run. -/
theorem runWith_fst (x : World × Memories) (ops : List Op) :
    (runWith x ops).map Prod.fst = x.1.run ops := by
  induction ops generalizing x with
  | nil => rfl
  | cons op rest ih =>
    rw [runWith, run, List.foldlM_cons, List.foldlM_cons, stepWith]
    cases x.1.step op with
    | error e => rfl
    | ok w => exact ih (w, _)

end World

/-- The accounts hold, and the address spaces read as the memories say. -/
structure Isolated (kept : List ℕ) (x : World × Memories) : Prop where
  accounts : Accounts True False kept x.1
  forkable : Forkable kept x.1.mm
  shows : Shows x.1.mm x.2

namespace Isolated

variable {kept : List ℕ} {x : World × Memories}

theorem allowed (h : Isolated kept x) {op : Op} (hop : x.1.Ordinary op) :
    x.1.Allowed True False op := by
  have hfault : ∀ write page, FaultOk True x.1.mm write page := by
    refine fun write page => ⟨fun sp vma hsp hvma => ?_, fun _ _ _ _ _ _ _ => trivial⟩
    exact ((h.forkable.plain _ sp hsp).plain vma (vmaFindByVaddr_spec hvma).1).small
  cases op with
  | read vaddr => exact hfault _ _
  | write vaddr b => exact hfault _ _
  | switch as => trivial
  | asnew snapshot => trivial
  | asdestroy as => trivial
  | destroy as => trivial
  | munmap base len => trivial
  | _ => exact hop.elim

theorem shown (h : Isolated kept x) {op : Op} (hop : x.1.Ordinary op) :
    Safely Halts (fun w => Forkable kept w.mm ∧
        Shows w.mm (x.2.step x.1.mm.current x.1.mm.aspacePool op)) (x.1.step op) := by
  obtain ⟨hacc, hf, hm⟩ := h
  have hlive := hacc.live
  cases op with
  | switch as =>
    rw [World.step]
    split
    · refine ⟨hf.setCurrent as, fun a => ?_⟩
      exact (hm a).congr rfl (fun _ => rfl) rfl rfl rfl
    · exact ⟨hf, hm⟩
  | asnew snapshot =>
    cases snapshot with
    | false => exact hop.elim
    | true =>
      simp only [World.step, safely_bind, safely_pure]
      exact hf.asnew hlive hm _
  | asdestroy as =>
    simp only [World.step, safely_bind, safely_pure]
    exact hf.asdestroy (fun i a hi => Option.isSome_iff_exists.1
      (hacc.tables.handle _ i a hacc.running hi)) hm as
  | destroy as =>
    rw [World.step]
    split
    · rename_i hcond
      simp only [safely_bind, safely_pure]
      refine (hf.destroyAs (Option.isSome_iff_exists.1 hcond.2)).mono ?_
      rintro t ⟨ht, -, hmem, hspaces⟩
      exact ⟨ht, hm.destroyAs hmem hspaces⟩
    · exact ⟨hf, hm⟩
  | read vaddr =>
    obtain ⟨sp, hsp⟩ := hlive
    simp only [World.step, safely_bind, safely_pure]
    refine (hf.userRead hsp).mono ?_
    rintro r ⟨ht, hl, -⟩
    exact ⟨ht, hm.of_looks hl⟩
  | write vaddr b =>
    obtain ⟨sp, hsp⟩ := hlive
    simp only [World.step, safely_bind, safely_pure]
    exact hf.userWrite hsp b hm
  | munmap base len =>
    simp only [World.step, safely_bind, safely_pure]
    exact hf.munmap hlive hm hop
  | _ => exact hop.elim

theorem step (h : Isolated kept x) {op : Op} (hop : x.1.Ordinary op) :
    Safely Halts (Isolated kept) (World.stepWith x op) := by
  simp only [World.stepWith, safely_bind, safely_pure]
  refine ((h.accounts.step (h.allowed hop)).and (h.shown hop)).mono ?_
  rintro w ⟨hacc, hf, hm⟩
  exact ⟨hacc, hf, hm⟩

/-- So is a run. -/
theorem run (h : Isolated kept x) {ops : List Op} (hops : Along World.Ordinary World.step x.1 ops) :
    Safely Halts (Isolated kept) (World.runWith x ops) :=
  safely_along h (fun _ _ h hop => h.step hop) (World.along_stepWith x.2 hops)

end Isolated

/-- At the addresses of its VMAs, each address space has the bytes of its memory, and the program
that runs in it reads them. -/
def ReadsAs (s : State) (m : Memories) : Prop :=
  ∀ a sp x, s.spaces a = some sp → Covered sp.vma x → s.readByte a x = m.byte a x ∧
    (x < 2 ^ 47 →
      Safely Halts (fun r => r.1 = some (m.byte a x)) (userRead { s with current := a } x))

theorem Isolated.reads {kept : List ℕ} {x : World × Memories} (h : Isolated kept x) :
    ReadsAs x.1.mm x.2 := by
  intro a sp y hsp hy
  have hbyte := (h.shows a).byte sp y hsp hy
  refine ⟨hbyte, fun hlow => ?_⟩
  refine ((h.forkable.setCurrent a).userRead (x := y) hsp).mono ?_
  rintro r ⟨-, -, hr⟩
  rw [hr hy hlow, ← hbyte]
  rfl

/-- Whatever is forked, written, read, removed and destroyed, each address space reads what a
memory of its own holds. -/
theorem reads_own_memory {kept : List ℕ} {w : World} {ops : List Op}
    (h : Accounts True False kept w) (hf : Forkable kept w.mm)
    (hops : Along World.Ordinary World.step w ops) :
    Safely Halts (fun x => ReadsAs x.1.mm x.2) (World.runWith (w, w.mm.memories) ops) :=
  (Isolated.run ⟨h, hf, shows_memories w.mm⟩ hops).mono fun _ hx => hx.reads

/-! ## A fork -/

theorem forkable_boot {free : List ℕ} {zeroPage : ℕ} (hfree : free.Nodup) (hzero : zeroPage ∉ free) :
    Forkable [zeroPage] (World.boot free zeroPage).mm := by
  have hent : (State.boot free zeroPage).entry = fun _ _ => none := rfl
  have hboot : Forkable [zeroPage] (State.boot free zeroPage) :=
    ⟨settled_boot hfree hzero True False, ⟨by simp [State.boot], by simp [hent]⟩,
      ⟨by simp [hent], by simp [State.SharedOn, hent], by simp [hent]⟩, by simp [State.boot], rfl⟩
  exact hboot.aspaceNew.1

/-- The address space of a first task with three pages. -/
def threePages : AddressSpace :=
  ⟨[⟨0, VMA_RW, 0, 0x400000, 0x3000, [], .head⟩], ∅, USER_BASE, USER_TOP, 1⟩

/-- A first task with three pages, and two more for their copies. -/
def World.bootPages : World :=
  { World.boot [0x10000, 0x11000] 0x1000 with
    mm := (World.boot [0x10000, 0x11000] 0x1000).mm.setSpace 0 threePages }

theorem forkable_bootPages : Forkable [0x1000] World.bootPages.mm := by
  have hboot : Forkable [0x1000] (World.boot [0x10000, 0x11000] 0x1000).mm :=
    forkable_boot (by decide) (by decide)
  have hsp : (World.boot [0x10000, 0x11000] 0x1000).mm.spaces 0 =
      some ⟨[], ∅, USER_BASE, USER_TOP, 0⟩ := rfl
  have hsettled := @Settled.addVma True False [0x1000] _ hboot.settled 0 _ hsp 0x400000 0x3000 VMA_RW
    threePages.vma False.elim (List.Perm.refl _)
  refine hboot.setVmas hsp rfl hsettled.1 ⟨List.pairwise_singleton _ _, ?_, by simp [threePages]⟩
  simp only [threePages, List.mem_singleton, forall_eq]
  exact ⟨by decide, by decide, rfl, by decide, by decide, by decide⟩

theorem reads_own_memory_fork :
    ∃ w, World.bootPages.run [.write 0x400000 7, .asnew true, .write 0x400000 9,
        .munmap 0x402000 0x1000, .switch 1, .read 0x400000] = .ok w ∧
      w.mm.readByte 0 0x400000 = 9 ∧ w.mm.readByte 1 0x400000 = 7 := by
  generalize hops : [Op.write 0x400000 7, .asnew true, .write 0x400000 9,
    .munmap 0x402000 0x1000, .switch 1, .read 0x400000] = ops
  have hok : Along World.Ordinary World.step World.bootPages ops := by
    refine along_of_check (c := World.ordinaryCheck) ?_ fun _ _ => World.ordinary_of_check
    rw [← hops]
    decide +kernel
  have hsp : (World.boot [0x10000, 0x11000] 0x1000).mm.spaces 0 =
      some ⟨[], ∅, USER_BASE, USER_TOP, 0⟩ := rfl
  have haccounts : Accounts True False [0x1000] World.bootPages :=
    (accounts_boot (by decide) (by decide) True False).of_same forkable_bootPages.settled
      (Kept.setSpace hsp _).toSameSpaces
  have hrun : (World.runWith (World.bootPages, World.bootPages.mm.memories) ops).toOption.bind
      (fun x => some ((x.1.mm.spaces 0).any fun sp => decide (Covered sp.vma 0x400000),
        (x.1.mm.spaces 1).any fun sp => decide (Covered sp.vma 0x400000),
        x.2.byte 0 0x400000, x.2.byte 1 0x400000)) = some (true, true, 9, 7) := by
    rw [← hops]
    decide +kernel
  obtain ⟨⟨w, m⟩, hw, hx⟩ := exists_of_bind hrun
  simp only [Option.some.injEq, Prod.mk.injEq, Option.any_eq_true, decide_eq_true_eq] at hx
  obtain ⟨⟨sp₀, hsp₀, hcov₀⟩, ⟨sp₁, hsp₁, hcov₁⟩, hb₀, hb₁⟩ := hx
  have hreads := (reads_own_memory haccounts forkable_bootPages hok).of_ok hw
  refine ⟨w, ?_, ?_, ?_⟩
  · rw [← World.runWith_fst (World.bootPages, World.bootPages.mm.memories), hw]
    rfl
  · rw [← hb₀]
    exact (hreads 0 sp₀ _ hsp₀ hcov₀).1
  · rw [← hb₁]
    exact (hreads 1 sp₁ _ hsp₁ hcov₁).1

end SadOS.Mm
