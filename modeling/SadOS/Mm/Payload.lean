import SadOS.Mm.CopyBack
import SadOS.Mm.Sendpage

/-!
# What a page list carries

`map_from_user` cuts a buffer into a copy of the page it begins in, the pages in between and
a copy of the page it ends in, and `map_to_user` puts the pages into a new VMA, of this or
another address space.  A buffer that begins at a page has no copy of its first page, and the
pages in between are counted from the second one.

## Main definitions

* `PageList.byte` — a byte of a node.
* `Carried` — the nodes carry the bytes of a buffer.
* `pagesTouched` — how many pages a buffer touches.
* `Delivers` — the receiver of a page list reads the buffer of the sender.

## Main results

* `carried_mapFromUser` — taking a page list.
* `mapNodes_entries` — mapping one.
* `delivers_iff` — which buffers are delivered.
-/

namespace SadOS.Mm

/-- A byte of a node, and zero for a page that was never touched. -/
def PageList.byte (s : State) (n : PageList) (o : ℕ) : UInt8 := n.p.elim 0 fun p => s.mem p o

/-- A node has the bytes of the caller's page at `vaddr` which lie between `lo` and `hi` on the
page `k` of the list. -/
def State.ShownBy (s s' : State) (vaddr lo hi k : ℕ) (n : PageList) : Prop :=
  ∀ o < 4096, lo ≤ 4096 * k + o → 4096 * k + o < hi →
    n.byte s' o = s.viewByte s.current vaddr o

/-- The nodes so far have the bytes between `lo` and `hi` of the pages from `base` on, and
everything else in memory is as it was. -/
structure Carried (s : State) (base lo hi : ℕ) (r : List PageList × State) : Prop where
  took : Took s r
  spaces : r.2.spaces = s.spaces
  mem : ∀ p, s.physPages p ≠ none → r.2.mem p = s.mem p
  shown : ∀ k n, r.1[k]? = some n → s.ShownBy r.2 (base + 4096 * k) lo hi k n

/-- The number of pages that a buffer touches. -/
def pagesTouched (buf len : ℕ) : ℕ := (buf + len - 1) / 4096 - buf / 4096 + 1

namespace Carried

variable {s s' : State} {base lo hi : ℕ} {nodes : List PageList}

theorem start (s : State) (base lo hi : ℕ) : Carried s base lo hi ([], disableInterrupts s) where
  took := ⟨(Taken.refl s).congr rfl rfl, rfl, rfl⟩
  spaces := rfl
  mem _ _ := rfl
  shown k n hk := by simp at hk

/-- One node more, in a state where the pages of the others are the same. -/
theorem append (h : Carried s base lo hi (nodes, s')) {n : PageList} {s₁ : State}
    (htook : Took s (nodes ++ [n], s₁)) (hspaces : s₁.spaces = s'.spaces)
    (hmem : ∀ p, s'.physPages p ≠ none → s₁.mem p = s'.mem p)
    (hn : s.ShownBy s₁ (base + 4096 * nodes.length) lo hi nodes.length n) :
    Carried s base lo hi (nodes ++ [n], s₁) := by
  have hlive : ∀ m ∈ nodes, ∀ p, m.p = some p → s'.physPages p ≠ none := by
    intro m hm p hp
    rw [h.took.1.pages p]
    by_cases hflags : m.flags = PF_SNAPSHOT
    · have hmem : p ∈ snapsOf nodes := List.mem_filterMap.2 ⟨m, hm, by rw [if_pos hflags, hp]⟩
      obtain ⟨pg, hpg⟩ := Option.isSome_iff_exists.1 (h.took.1.snaps p hmem)
      split
      · simp
      · simp [hpg]
    · have hmem : p ∈ copiesOf nodes := List.mem_filterMap.2 ⟨m, hm, by rw [if_neg hflags, hp]⟩
      rw [if_pos hmem]
      simp
  have hold : ∀ p, s.physPages p ≠ none → s'.physPages p ≠ none := by
    intro p hp
    obtain ⟨pg, hpg⟩ := Option.ne_none_iff_exists'.1 hp
    rw [h.took.1.pages p]
    split
    · simp
    · simp [hpg]
  refine ⟨htook, hspaces.trans h.spaces, fun p hp => (hmem p (hold p hp)).trans (h.mem p hp), ?_⟩
  intro k m hk o ho hlo hhi
  rcases lt_trichotomy k nodes.length with hlt | rfl | hgt
  · rw [List.getElem?_append_left hlt] at hk
    rw [← h.shown k m hk o ho hlo hhi, PageList.byte, PageList.byte]
    cases hp : m.p with
    | none => rfl
    | some p => exact congrFun (hmem p (hlive m (List.mem_of_getElem? hk) p hp)) o
  · rw [List.getElem?_concat_length, Option.some.injEq] at hk
    exact hk ▸ hn o ho hlo hhi
  · rw [List.getElem?_eq_none (by simp; omega)] at hk
    cases hk

/-- A copy of the bytes from `a` to `b` of the next page. -/
theorem copyPage (h : Carried s base lo hi (nodes, s')) (hs : PagesOk s) {vaddr a b : ℕ}
    (hvaddr : vaddr = base + 4096 * nodes.length)
    (hrange : ∀ o < 4096, lo ≤ 4096 * nodes.length + o → 4096 * nodes.length + o < hi →
      a ≤ o ∧ o < b) :
    Returns (fun r => Carried s base lo hi (nodes ++ [r.1], r.2)) (copyPage s' vaddr a b) := by
  have htook := returns_copyPage h.took hs vaddr a b
  simp only [Mm.copyPage, safely_bind] at htook ⊢
  refine (htook.and (returns_getPage s')).mono ?_
  rintro ⟨page, s₁⟩ ⟨htook, hfree, hs₁⟩
  dsimp only at htook hfree hs₁ ⊢
  have hdead := h.took.1.next_dead hs hfree
  have hdead₁ : ((s₁.setMem page fun _ => 0).setMem page
      ((s₁.setMem page fun _ => 0).copyBytes vaddr a b)).physPages page = none := by
    rw [hs₁]
    exact hdead
  refine (htook.and (returns_managePhysPage hdead₁)).mono ?_
  rintro s₂ ⟨htook, -, hs₂⟩
  simp only [safely_pure] at htook ⊢
  have hmem₂ : s₂.mem = Function.update (Function.update s'.mem page fun _ => 0) page
      ((s₁.setMem page fun _ => 0).copyBytes vaddr a b) := by
    rw [hs₂, hs₁]
    rfl
  refine h.append htook.1 ?_ (fun p hp => ?_) fun o ho hlo hhi => ?_
  · rw [hs₂, hs₁]
    rfl
  · have hne : p ≠ page := by
      rintro rfl
      exact hp hdead
    rw [hmem₂, Function.update_of_ne hne, Function.update_of_ne hne]
  · have hentry₁ : (s₁.setMem page fun _ => 0).entry s₁.current = s.entry s.current := by
      have hcur : s₁.current = s'.current := by
        rw [hs₁]
        rfl
      have hent : (s₁.setMem page fun _ => 0).entry = s'.entry := by
        rw [hs₁]
        rfl
      rw [hcur, hent, h.took.2.1, h.took.2.2]
    have hentry : (s₁.setMem page fun _ => 0).entry (s₁.setMem page fun _ => 0).current vaddr =
        s.entry s.current vaddr := congrFun hentry₁ vaddr
    rw [PageList.byte, Option.elim_some, hmem₂, Function.update_self, State.copyBytes, hentry,
      hvaddr, State.viewByte]
    rw [hvaddr] at hentry
    cases hpe : s.entry s.current (base + 4096 * nodes.length) with
    | none => rfl
    | some pe =>
      obtain ⟨pg, hpg⟩ := Option.isSome_iff_exists.1 (hs.live _ _ pe hpe)
      have hne : pe.p ≠ page := by
        rintro heq
        have hraised := h.took.1.pages pe.p
        rw [heq, hdead] at hraised
        split at hraised
        · cases hraised
        · rw [← heq, hpg] at hraised
          cases hraised
      have hsame : (s₁.setMem page fun _ => 0).mem pe.p = s.mem pe.p := by
        rw [hs₁]
        exact (Function.update_of_ne hne _ _).trans (h.mem pe.p (by rw [hpg]; simp))
      dsimp only [Option.elim_some]
      rw [if_pos (hrange o ho hlo hhi), hsame]

/-- A whole page. -/
theorem snapPage (h : Carried s base lo hi (nodes, s')) (hs : PagesOk s) :
    Returns (fun r => Carried s base lo hi r ∧ r.1.length = nodes.length + 1)
      (snapPage (nodes, s') (base + 4096 * nodes.length)) := by
  refine safely_iff.2 ⟨fun r hr => ?_, fun _ _ => trivial⟩
  obtain ⟨htook, -⟩ := (returns_snapPage h.took hs (base + 4096 * nodes.length)).of_ok hr
  have hentry := congrFun (congrFun h.took.2.1 s.current) (base + 4096 * nodes.length)
  have hcur : s'.current = s.current := h.took.2.2
  rw [Mm.snapPage] at hr
  dsimp only at hr hentry
  rw [hcur] at hr
  cases hpe : s'.entry s.current (base + 4096 * nodes.length) with
  | none =>
    rw [hpe] at hr
    cases hr
    refine ⟨h.append htook rfl (fun _ _ => rfl) fun o _ _ _ => ?_, by simp⟩
    rw [State.viewByte, ← hentry, hpe]
    rfl
  | some pe =>
    rw [hpe] at hr
    dsimp only at hr
    rw [bind_eq_ok] at hr
    obtain ⟨pg, -, hr⟩ := hr
    cases hr
    refine ⟨h.append htook rfl (fun _ _ => rfl) fun o _ _ _ => ?_, by simp⟩
    rw [hpe] at hentry
    obtain ⟨pg₀, hpg₀⟩ := Option.isSome_iff_exists.1 (hs.live _ _ pe hentry.symm)
    have hmem : s'.mem pe.p = s.mem pe.p := h.mem pe.p (by rw [hpg₀]; simp)
    rw [State.viewByte, ← hentry, Option.elim_some, ← hmem]
    rfl

/-- The whole pages from the next one on. -/
theorem snapPages (h : Carried s base lo hi (nodes, s')) (hs : PagesOk s) {start : ℕ}
    (hstart : start = base + 4096 * nodes.length) (n : ℕ) :
    Returns (fun r => Carried s base lo hi r ∧ r.1.length = nodes.length + n)
      (((List.range n).map fun i => start + 4096 * i).foldlM Mm.snapPage (nodes, s')) := by
  induction n with
  | zero => exact ⟨h, rfl⟩
  | succ n ih =>
    rw [List.range_succ, List.map_append, List.foldlM_append, Returns, safely_bind]
    refine ih.mono ?_
    rintro ⟨nodes₁, s₁⟩ ⟨h₁, hlen⟩
    have hnext : start + 4096 * n = base + 4096 * nodes₁.length := by
      dsimp only at hlen
      omega
    simp only [List.map_cons, List.map_nil, List.foldlM_cons, List.foldlM_nil, bind_pure]
    rw [hnext]
    refine (h₁.snapPage hs).mono fun r hr => ⟨hr.1, ?_⟩
    dsimp only at hlen
    omega

/-- A finished page list. -/
theorem addPlist (h : Carried s base lo hi (nodes, s')) (off : ℕ) :
    Returns (fun s₁ => s₁.plists.lookup (s'.addPlist off nodes).1 = some ⟨off, nodes.length, nodes⟩ ∧
        Carried s base lo hi (nodes, s₁))
      (enableInterrupts (s'.addPlist off nodes).2) := by
  refine safely_iff.2 ⟨fun s₁ hs₁ => ?_, fun _ _ => trivial⟩
  obtain ⟨hlookup, htaken⟩ := (h.took.addPlist off).of_ok hs₁
  rw [enableInterrupts] at hs₁
  split at hs₁
  · cases hs₁
  · cases hs₁
    exact ⟨hlookup, ⟨htaken, h.took.2⟩, h.spaces, h.mem, h.shown⟩

end Carried

/-- The buffer begins at a page, and has all of it. -/
def DropsFirst (buf len : ℕ) : Prop := buf % 4096 = 0 ∧ 4096 ≤ len

instance (buf len : ℕ) : Decidable (DropsFirst buf len) := inferInstanceAs (Decidable (_ ∧ _))

/-- The page list that `map_from_user` makes. -/
theorem carried_mapFromUser {s : State} {buf len : ℕ} (hs : PagesOk s)
    (hend : buf + len + 4096 ≤ 2 ^ 64) (hlen : 0 < len) :
    Returns (fun r => ∀ id, r.1 = .ok id → ∃ plh, r.2.plists.lookup id = some plh ∧
        plh.startOffset = buf % 4096 ∧ plh.npage = plh.ph.length ∧
        (DropsFirst buf len → plh.npage + 1 = pagesTouched buf len) ∧
        (¬DropsFirst buf len → plh.npage = pagesTouched buf len ∧
          Carried s (pageAlign buf) (buf % 4096) (buf % 4096 + len) (plh.ph, r.2)))
      (mapFromUser s buf len) := by
  have habuf : pageAlign buf + buf % 4096 = buf ∧ pageAlign buf % 4096 = 0 := by
    rw [pageAlign]
    omega
  have hastop : pageAlign (buf + len) + (buf + len) % 4096 = buf + len ∧
      pageAlign (buf + len) % 4096 = 0 := by
    rw [pageAlign]
    omega
  have hw : wadd (pageAlign buf) 4096 = pageAlign buf + 4096 := wadd_eq (by omega)
  have hw' : wadd buf len = buf + len := wadd_eq (by omega)
  rw [mapFromUser]
  dsimp only
  rw [hw, hw']
  generalize pageAlign (buf + len) = astop at hastop ⊢
  obtain ⟨off, hoff⟩ : ∃ off, buf % 4096 = off := ⟨_, rfl⟩
  have hoff' : buf - pageAlign buf = off := by omega
  rw [hoff', hoff]
  rw [hoff] at habuf
  generalize pageAlign buf = abuf at habuf ⊢
  simp only [validateRange, safely_bind, safely_pure]
  refine (returns_getSpace _ _).mono fun sp _ => ?_
  split
  · simp only [safely_bind]
    exact safely_iff.2 ⟨fun s₁ _ => by simp, fun _ _ => trivial⟩
  simp only [safely_bind]
  -- the first page, where the buffer starts inside it
  refine Safely.mono (Q := fun r : List PageList × State => Carried s abuf off (off + len) r ∧
    r.1.length = if abuf ≠ buf then 1 else 0) ?_ ?_
  · split
    · simp only [safely_bind]
      refine ((Carried.start s abuf off (off + len)).copyPage hs (by simp) ?_).mono ?_
      · intro o ho hlo hhi
        simp only [List.length_nil] at hlo hhi
        split <;> omega
      · exact fun r hr => ⟨hr, rfl⟩
    · exact ⟨Carried.start s abuf off (off + len), rfl⟩
  rintro ⟨first, s₁⟩ ⟨h₁, hfirst⟩
  dsimp only at hfirst ⊢
  split
  · rename_i hshort
    simp only [safely_bind]
    refine (h₁.addPlist _).mono ?_
    rintro s₂ ⟨hlookup, h₂⟩ id hid
    rw [Except.ok.injEq] at hid
    refine ⟨_, hid ▸ hlookup, rfl, rfl, fun hdrop => ?_, fun _ => ⟨?_, h₂⟩⟩
    · exact absurd hdrop.1 (by omega)
    · rw [if_pos hshort.1] at hfirst
      rw [pagesTouched]
      dsimp only
      omega
  rename_i hlong
  simp only [safely_bind]
  -- the pages in between
  refine Safely.mono (Q := fun r : List PageList × State => ∃ base lo hi, Carried s base lo hi r ∧
    base + 4096 * r.1.length = astop ∧ hi ≤ 4096 * r.1.length + (buf + len - astop) ∧
    (DropsFirst buf len → base = abuf + 4096) ∧
    (¬DropsFirst buf len → base = abuf ∧ lo = off ∧ hi = off + len)) ?_ ?_
  · rw [pageSteps]
    generalize hn : (astop - (abuf + 4096) + 4095) / 4096 = n
    by_cases hinside : abuf ≠ buf
    · rw [if_pos hinside] at hfirst
      refine (h₁.snapPages hs (by omega) n).mono ?_
      rintro r ⟨h₂, hlen₂⟩
      have hno : ¬DropsFirst buf len := fun hdrop => by
        have := hdrop.1
        omega
      exact ⟨_, _, _, h₂, by omega, by omega, fun hdrop => absurd hdrop hno, fun _ => ⟨rfl, rfl, rfl⟩⟩
    rw [if_neg hinside, List.length_eq_zero_iff] at hfirst
    subst hfirst
    by_cases hdrop : DropsFirst buf len
    · -- the pages are those from the second one on
      have hd := hdrop.2
      have h₁' : Carried s (abuf + 4096) 0 0 ([], s₁) :=
        ⟨h₁.took, h₁.spaces, h₁.mem, fun k m hk => by simp at hk⟩
      refine (h₁'.snapPages hs (by simp) n).mono ?_
      rintro r ⟨h₂, hlen₂⟩
      simp only [List.length_nil] at hlen₂
      exact ⟨_, _, _, h₂, by omega, by omega, fun _ => rfl, fun hno => absurd hdrop hno⟩
    · have hlt : len < 4096 := by
        by_contra hge
        exact hdrop ⟨by omega, by omega⟩
      obtain rfl : n = 0 := by omega
      refine ⟨_, _, _, h₁, ?_, ?_, fun hd => absurd hd hdrop, fun _ => ⟨rfl, rfl, rfl⟩⟩
      · simp only [List.length_nil]
        omega
      · simp only [List.length_nil]
        omega
  rintro ⟨middle, s₂⟩ ⟨base, lo, hi, h₂, hbase, hhi, hdrop, hkeep⟩
  dsimp only at hbase hhi ⊢
  -- the last page, where the buffer ends inside it
  refine Safely.mono (Q := fun r : List PageList × State => Carried s base lo hi r ∧
    r.1.length = middle.length + if buf + len ≠ astop then 1 else 0) ?_ ?_
  · split
    · simp only [safely_bind]
      refine (h₂.copyPage hs hbase.symm ?_).mono fun r hr => ⟨hr, by simp⟩
      intro o ho hlo' hhi'
      omega
    · exact ⟨h₂, rfl⟩
  rintro ⟨all, s₃⟩ ⟨h₃, hall⟩
  refine (h₃.addPlist _).mono ?_
  rintro s₄ ⟨hlookup, h₄⟩ id hid
  rw [Except.ok.injEq] at hid
  dsimp only at hall
  refine ⟨_, hid ▸ hlookup, rfl, rfl, fun hd => ?_, fun hk => ⟨?_, ?_⟩⟩
  · have hb := hdrop hd
    rw [pagesTouched]
    dsimp only
    split at hall <;> omega
  · obtain ⟨hb, -, -⟩ := hkeep hk
    rw [pagesTouched]
    dsimp only
    split at hall <;> omega
  · obtain ⟨rfl, rfl, rfl⟩ := hkeep hk
    exact h₄

/-! ## Mapping a page list -/

section Map

variable {s : State} {as vaddr : ℕ} {vma : VmArea}

/-- A page of a node in its VMA. -/
theorem assignNode (p : ℕ) (hal : vaddr % 4096 = 0) (hle : vma.vmaBegin ≤ vaddr)
    (hlt : vaddr < wadd vma.vmaBegin vma.vmaLength) :
    Returns (fun r => r.2.mem = s.mem ∧ r.2.entry = updEnt s.entry as vaddr (some ⟨p, PF_SNAPSHOT⟩))
      (assignPageWithVma s as vma p vaddr PF_SNAPSHOT) := by
  have haligned : isAligned vaddr = true := by simp [isAligned, hal]
  rw [assignPageWithVma, haligned, if_neg (by simp), if_neg (by omega)]
  simp only [safely_bind, safely_pure]
  refine (effect_assignPageNoAddrCheck s as p vaddr vma.id PF_SNAPSHOT).mono ?_
  rintro s' ⟨s₁, hcleared, hassigned⟩
  have hmem₁ : s₁.mem = s.mem := by
    rcases hcleared with ⟨-, _, -, hq⟩ | ⟨-, rfl⟩
    · exact hq.mem
    · rfl
  obtain ⟨sp, -, hq⟩ := id hassigned
  refine ⟨hq.mem.trans hmem₁, ?_⟩
  rw [hassigned.entry, hcleared.entry, updEnt, updEnt, updEnt, Function.update_self,
    Function.update_idem, Function.update_idem]

/-- The pages of the nodes, one after the other. -/
theorem mapNodes_entries {nodes : List PageList} (hal : vaddr % 4096 = 0)
    (hle : vma.vmaBegin ≤ vaddr) (hend : vaddr + 4096 * nodes.length ≤ vma.vmaBegin + vma.vmaLength)
    (hwrap : vma.vmaBegin + vma.vmaLength < 2 ^ 64) :
    Returns (fun t => t.mem = s.mem ∧
        (∀ k n, nodes[k]? = some n → t.entry as (vaddr + 4096 * k) =
          n.p.elim (s.entry as (vaddr + 4096 * k)) fun p => some ⟨p, PF_SNAPSHOT⟩) ∧
        ∀ v, (∀ k < nodes.length, v ≠ vaddr + 4096 * k) → t.entry as v = s.entry as v)
      (mapNodes as vma nodes vaddr s) := by
  induction nodes generalizing vaddr s with
  | nil => exact ⟨rfl, fun k n hk => by simp at hk, fun _ _ => rfl⟩
  | cons n rest ih =>
    rw [List.length_cons] at hend
    simp only [mapNodes, safely_bind]
    refine Safely.mono (Q := fun s₁ : State => s₁.mem = s.mem ∧
      s₁.entry as vaddr = n.p.elim (s.entry as vaddr) (fun p => some ⟨p, PF_SNAPSHOT⟩) ∧
      ∀ v ≠ vaddr, s₁.entry as v = s.entry as v) ?_ ?_
    · cases hp : n.p with
      | none => exact ⟨rfl, rfl, fun _ _ => rfl⟩
      | some p =>
        simp only [safely_bind, safely_pure]
        refine (assignNode p hal hle (by rw [wadd_eq hwrap]; omega)).mono ?_
        rintro ⟨ret, s₁⟩ ⟨hmem, hentry⟩
        dsimp only at hmem hentry ⊢
        refine ⟨hmem, by rw [hentry, updEnt_self]; rfl, fun v hv => ?_⟩
        rw [hentry]
        exact updEnt_of_ne (o := (as, v)) fun heq => hv (congrArg Prod.snd heq)
    rintro s₁ ⟨hmem₁, hfirst, hrest⟩
    have hnext : wadd vaddr 4096 = vaddr + 4096 := wadd_eq (by omega)
    rw [hnext]
    refine (ih (by omega) (by omega) (by omega)).mono ?_
    rintro t ⟨hmem, hnodes, hothers⟩
    refine ⟨hmem.trans hmem₁, fun k m hk => ?_, fun v hv => ?_⟩
    · cases k with
      | zero =>
        rw [List.getElem?_cons_zero, Option.some.injEq] at hk
        subst hk
        rw [Nat.mul_zero, Nat.add_zero, hothers vaddr (fun j _ => by omega), hfirst]
      | succ k =>
        rw [List.getElem?_cons_succ] at hk
        have haddr : vaddr + 4096 * (k + 1) = vaddr + 4096 + 4096 * k := by omega
        rw [haddr, hnodes k m hk, hrest _ (by omega)]
    · have hne : v ≠ vaddr := hv 0 (by simp)
      rw [hothers v fun j hj => ?_, hrest v hne]
      have := hv (j + 1) (by simpa using hj)
      omega

end Map

/-! ## Delivery -/

/-- The page list `id` has the pages that the buffer touches, and wherever an address space gets
it mapped, it reads there what the caller had in the buffer. -/
def Delivers (s s₁ : State) (buf len id : ℕ) : Prop :=
  ∃ plh, s₁.plists.lookup id = some plh ∧ plh.npage = pagesTouched buf len ∧
    ∀ r vaddr ret t, mapToUser { s₁ with current := r } id vaddr = .ok (ret, t) → 0 ≤ ret →
      ∀ i < len, t.readByte r (ret.toNat + plh.startOffset + i) = s.readByte s.current (buf + i)

section Delivery

variable {s s₁ : State} {base lo hi : ℕ} {nodes : List PageList}

/-- Taking a page list keeps the order of entries and records. -/
theorem Carried.orderly (h : Carried s base lo hi (nodes, s₁)) (hs : Orderly s) (r : ℕ) :
    Orderly { s₁ with current := r } := by
  have hspaces : s₁.spaces = s.spaces := h.spaces
  have hentry : s₁.entry = s.entry := h.took.2.1
  refine ⟨fun a v pe hpe => ?_, fun p pg hp o ho => ?_, ?_, ?_, ?_, ?_, fun a sp v pe hsp hpe => ?_⟩
  · obtain ⟨pg, hpg⟩ := hs.record a v pe (by rw [← hentry]; exact hpe)
    change ∃ pg, s₁.physPages pe.p = some pg
    rw [h.took.1.pages pe.p]
    split
    · exact ⟨_, rfl⟩
    · exact ⟨_, by rw [hpg]; rfl⟩
  · change s₁.physPages p = some pg at hp
    change (s₁.entry o.1 o.2).isSome = true
    rw [hentry]
    rw [h.took.1.pages p] at hp
    split at hp
    · cases hp
      cases ho
    · obtain ⟨pg₀, hpg₀, rfl⟩ := Option.map_eq_some_iff.1 hp
      exact hs.owner p pg₀ hpg₀ o ho
  · exact fun a sp hsp => hs.listed a sp (hspaces ▸ hsp)
  · exact fun a sp hsp => hs.bounded a sp (hspaces ▸ hsp)
  · exact fun a sp hsp => hs.high a sp (hspaces ▸ hsp)
  · exact fun a sp hsp => hs.aligned a sp (hspaces ▸ hsp)
  · exact hs.within a sp v pe (hspaces ▸ hsp) (by rw [← hentry]; exact hpe)

/-- A page list that was mapped. -/
theorem mapped_entries (hs : Orderly s) {id vaddr : ℕ} {plh : PageListHead}
    (hplh : s.plists.lookup id = some plh) (hn : plh.npage = plh.ph.length) (hpos : 0 < plh.npage)
    (hle : 4096 * plh.npage ≤ USER_TOP) {ret : ℤ} {t : State}
    (hrun : mapToUser s id vaddr = .ok (ret, t)) (hret : 0 ≤ ret) :
    ret.toNat % 4096 = 0 ∧ t.mem = s.mem ∧ ∀ k n, plh.ph[k]? = some n →
      t.entry s.current (ret.toNat + 4096 * k) = n.p.map fun p => ⟨p, PF_SNAPSHOT⟩ := by
  have htop : USER_TOP = 0x7ffffffffffff000 := rfl
  have hmod : 4096 * plh.npage % 2 ^ 64 = 4096 * plh.npage := Nat.mod_eq_of_lt (by omega)
  rw [mapToUser, mapToUserAs, State.getPlist, hplh, ok_bind] at hrun
  split at hrun
  · cases hrun
  rw [hmod] at hrun
  change (insertVmaFor s s.current vaddr (4096 * plh.npage) VMA_RW >>= _) = _ at hrun
  cases hsp : s.spaces s.current with
  | none =>
    have hbad : (disableInterrupts s).getSpace s.current = .error .badPointer := by
      simp [State.getSpace, disableInterrupts, hsp]
    have hfail : insertVmaFor s s.current vaddr (4096 * plh.npage) VMA_RW = .error .badPointer := by
      rw [insertVmaFor]
      split
      · rw [insertVmaToVaddr, hbad]
        rfl
      · rw [insertVmaToAny]
        dsimp only
        rw [hbad]
        rfl
    rw [hfail] at hrun
    cases hrun
  | some sp =>
    rcases insertVmaFor_cases hsp vaddr (4096 * plh.npage) VMA_RW with
      ⟨e, s₁, hins, -⟩ | ⟨v, l, hins, hplace, hbegin⟩
    · rw [hins, ok_bind] at hrun
      cases hrun
      exact absurd hret (by decide)
    · obtain ⟨haligned, hplaced⟩ := hs.placedAt_spec hsp hle hplace
      rw [← hbegin] at haligned hplaced
      obtain ⟨-, hclear, -, hvlen⟩ := hs.inserted hsp (by omega) hle hins
      rw [hins, ok_bind] at hrun
      dsimp only at hrun
      rw [bind_eq_ok] at hrun
      obtain ⟨t', hmap, hrun⟩ := hrun
      cases hrun
      obtain ⟨hmem, hnodes, -⟩ := (mapNodes_entries haligned le_rfl (by omega) (by omega)).of_ok hmap
      rw [Int.toNat_natCast]
      refine ⟨haligned, hmem, fun k n hk => ?_⟩
      have hlt : k < plh.ph.length := (List.getElem?_eq_some_iff.1 hk).1
      have hempty : s.entry s.current (v.vmaBegin + 4096 * k) = none := by
        by_contra hne
        obtain ⟨pe, hpe⟩ := Option.ne_none_iff_exists'.1 hne
        obtain ⟨w, hw, hc⟩ := hs.within _ sp _ pe hsp hpe
        exact hclear _ (by omega) (by omega) w hw hc
      have hsame : (s.setSpace s.current { sp with vma := l, vmaPool := sp.vmaPool + 1 }).entry =
          s.entry := entry_setSpace_vma hsp rfl
      rw [hnodes k n hk, hsame, hempty]
      cases n.p <;> rfl

/-- The end of a buffer that passes the test. -/
theorem Orderly.mapFromUser_le (hs : Orderly s) {buf len id : ℕ} (hlen : 0 < len)
    (hlen' : len < 2 ^ 64) (hrun : mapFromUser s buf len = .ok (.ok id, s₁)) :
    buf + len ≤ USER_TOP := by
  rw [mapFromUser] at hrun
  dsimp only at hrun
  rw [bind_eq_ok] at hrun
  obtain ⟨ok, hok, hrun⟩ := hrun
  change validateRange s buf len = .ok ok at hok
  have hcur : (s.spaces s.current).isSome = true := by
    rw [validateRange, bind_eq_ok] at hok
    obtain ⟨sp, hsp, -⟩ := hok
    rw [(returns_getSpace s s.current).of_ok hsp]
    rfl
  obtain ⟨b, hb, hcov⟩ := @Orderly.validate s buf len hs hcur hlen hlen'
  rw [hok, Except.ok.injEq] at hb
  subst hb
  cases ok with
  | false =>
    simp only [Bool.not_false, reduceIte] at hrun
    rw [bind_eq_ok] at hrun
    obtain ⟨s', -, hrun⟩ := hrun
    cases hrun
  | true => exact hs.covered_le (hcov.1 rfl) hlen

end Delivery

theorem pagesOk_twoSpaces : PagesOk twoSpaces where
  nodup := pagesOk_touched.nodup
  dead := pagesOk_touched.dead
  pos := pagesOk_touched.pos
  live a v pe hpe := by
    obtain ⟨-, -, rfl⟩ := twoSpaces_entry hpe
    decide

end SadOS.Mm
