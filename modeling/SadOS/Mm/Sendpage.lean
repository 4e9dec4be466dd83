import SadOS.Mm.Lend
import SadOS.Mm.TakeBack
import SadOS.Mm.Unmap

/-!
# Sending pages

`sendpage` lends the pages of a range of the caller's addresses to a new VMA of another
address space.  It tests the first page of the source range only, and takes write
permission from the owners of a page with its first snapshot, which panics for a page of
hardware.

## Main definitions

* `Orderly` — entries lie in VMAs, and refer to records that refer back.
* `Sending` — what the loop did so far.
* `SendsOk` — what `sendpage` must not meet.
* `SendCorrect` — the specification of `sendpage`.

## Main results

* `sendLoop` — the loop.
* `sendpage_correct_iff` — when `sendpage` meets its specification.
-/

namespace SadOS.Mm

/-- Entries lie in VMAs of their address space, and refer to records that refer back. -/
structure Orderly (s : State) : Prop where
  record : ∀ a v pe, s.entry a v = some pe → ∃ pg, s.physPages pe.p = some pg
  owner : ∀ p pg, s.physPages p = some pg → ∀ o ∈ pg.owner, (s.entry o.1 o.2).isSome = true
  listed : ∀ a sp, s.spaces a = some sp → sp.Listed
  bounded : ∀ a sp, s.spaces a = some sp → sp.Bounded
  high : ∀ a sp, s.spaces a = some sp → sp.highAddr ≤ USER_TOP
  aligned : ∀ a sp, s.spaces a = some sp → sp.lowAddr % 4096 = 0 ∧
    ∀ w ∈ sp.vma, (w.vmaBegin + w.vmaLength) % 4096 = 0
  within : ∀ a sp v pe, s.spaces a = some sp → s.entry a v = some pe → ∃ w ∈ sp.vma, w.Contains v

/-- Every state of the memory manager is like this, as long as its VMAs are right. -/
theorem Settled.orderly {stale canon : Prop} {kept : List ℕ} {s : State}
    (h : Settled stale canon kept s)
    (hlisted : ∀ a sp, s.spaces a = some sp → sp.Listed)
    (hbounded : ∀ a sp, s.spaces a = some sp → sp.Bounded)
    (hhigh : ∀ a sp, s.spaces a = some sp → sp.highAddr ≤ USER_TOP)
    (haligned : ∀ a sp, s.spaces a = some sp → sp.lowAddr % 4096 = 0 ∧
      ∀ w ∈ sp.vma, (w.vmaBegin + w.vmaLength) % 4096 = 0)
    (hcontains : ∀ a sp, s.spaces a = some sp → ∀ w ∈ sp.vma, ∀ v ∈ w.pages, w.Contains v) :
    Orderly s where
  record a v pe hpe := h.sound.page_of_entry hpe List.not_mem_nil
  owner p pg hp o ho := by
    obtain ⟨-, pe, hpe, -⟩ := h.sound.linked.owner_entry p pg o hp ho
    rw [hpe]
    rfl
  listed := hlisted
  bounded := hbounded
  high := hhigh
  aligned := haligned
  within a sp v pe hsp hpe := by
    rw [State.entry, hsp, Option.bind_some] at hpe
    have hmem : v ∈ pagesOf sp.vma := ((h.sound.hung a sp hsp).mem_iff v).2 ⟨pe, hpe⟩
    rw [pagesOf, List.mem_flatMap] at hmem
    obtain ⟨w, hw, hv⟩ := hmem
    exact ⟨w, hw, hcontains a sp hsp w hw v hv⟩

/-- The page that the caller has at an address. -/
def State.pageAt (s : State) (v : ℕ) : Option ℕ := (s.entry s.current v).map (·.p)

/-! ## The loop -/

/-- The pages of the first `n` addresses from `vaddr` on are lent to those from `d` on. -/
structure Sending (a vaddr d n : ℕ) (s s' : State) : Prop where
  sent : ∀ k < n, s'.entry a (d + 4096 * k) =
    (s.pageAt (vaddr + 4096 * k)).map fun p => ⟨p, PF_SNAPSHOT⟩
  rest : ∀ b v, ¬(b = a ∧ ∃ k < n, v = d + 4096 * k) → s'.entry b v = s.entry b v
  used : ∀ k < n, ∀ p, s.pageAt (vaddr + 4096 * k) = some p →
    ∃ pg, s'.physPages p = some pg ∧ pg.snapCount ≠ 0
  unused : ∀ p, (∀ k < n, s.pageAt (vaddr + 4096 * k) ≠ some p) → s'.physPages p = s.physPages p
  owner : ∀ p pg, s'.physPages p = some pg → ∀ o ∈ pg.owner, (s'.entry o.1 o.2).isSome = true
  frame : Frame s s'
  mem : s'.mem = s.mem

/-- The page at the `k`-th address can be lent, unless an earlier one was the same page. -/
def LendsAt (s : State) (vaddr d k : ℕ) : Prop :=
  ∀ pe pg, s.entry s.current (vaddr + 4096 * k) = some pe → s.physPages pe.p = some pg →
    (∀ j < k, s.pageAt (vaddr + 4096 * j) ≠ some pe.p) → CanShare s pg (d + 4096 * k)

/-- The loop goes from one range to another where nothing is mapped, in a VMA. -/
structure SendRange (s : State) (a vaddr d n : ℕ) : Prop where
  aligned : d % 4096 = 0
  noWrap : vaddr + 4096 * n ≤ 2 ^ 64
  noWrap' : d + 4096 * n ≤ 2 ^ 64
  empty : ∀ k < n, s.entry a (d + 4096 * k) = none
  apart : ∀ j < n, ∀ k < n, ¬(s.current = a ∧ vaddr + 4096 * j = d + 4096 * k)
  found : ∃ sp, s.spaces a = some sp ∧ ∀ k < n, (vmaFindByVaddr (d + 4096 * k) sp.vma).isSome = true
  record : ∀ a v pe, s.entry a v = some pe → ∃ pg, s.physPages pe.p = some pg
  owner : ∀ p pg, s.physPages p = some pg → ∀ o ∈ pg.owner, (s.entry o.1 o.2).isSome = true

section Loop

variable {s s' : State} {a vaddr d n : ℕ} {vma : VmArea}

/-- The loop of `sendpage` over the first `n` pages. -/
def sendPages (s : State) (a vaddr : ℕ) (vma : VmArea) (n : ℕ) : Except Fault State :=
  ((List.range n).map fun i => 0 + 4096 * i).foldlM (sendOne a vaddr vma) s

theorem sendPages_succ (s : State) (a vaddr : ℕ) (vma : VmArea) (n : ℕ) :
    sendPages s a vaddr vma (n + 1) =
      (sendPages s a vaddr vma n >>= fun s' => sendOne a vaddr vma s' (0 + 4096 * n)) := by
  rw [sendPages, sendPages, List.range_succ, List.map_append, List.foldlM_append]
  simp only [List.map_cons, List.map_nil, List.foldlM_cons, List.foldlM_nil, bind_pure]

/-- The source is not changed by what was sent. -/
theorem Sending.source (h : Sending a vaddr d n s s') {m : ℕ} (hr : SendRange s a vaddr d m)
    (hn : n ≤ m) {k : ℕ} (hk : k < m) :
    s'.entry s'.current (vaddr + 4096 * k) = s.entry s.current (vaddr + 4096 * k) := by
  rw [h.frame.current]
  refine h.rest _ _ ?_
  rintro ⟨hcur, j, hj, heq⟩
  exact hr.apart k hk j (by omega) ⟨hcur, heq⟩

/-- The place of the next page is still empty. -/
theorem Sending.target (h : Sending a vaddr d n s s') {m : ℕ} (hr : SendRange s a vaddr d m)
    (hn : n < m) : s'.entry a (d + 4096 * n) = none := by
  rw [h.rest, hr.empty n hn]
  rintro ⟨-, j, hj, heq⟩
  omega

/-- An address without a page. -/
theorem Sending.skip (h : Sending a vaddr d n s s') {m : ℕ} (hr : SendRange s a vaddr d m)
    (hn : n < m) (hnone : s.pageAt (vaddr + 4096 * n) = none) :
    Sending a vaddr d (n + 1) s s' where
  sent k hk := by
    by_cases hkn : k = n
    · rw [hkn, h.target hr hn, hnone]
      rfl
    · exact h.sent k (by omega)
  rest b v hbv := h.rest b v (mt (And.imp_right (Exists.imp fun _ hk => ⟨by omega, hk.2⟩)) hbv)
  used k hk p hp := by
    by_cases hkn : k = n
    · rw [hkn, hnone] at hp
      cases hp
    · exact h.used k (by omega) p hp
  unused p hp := h.unused p fun k hk => hp k (by omega)
  owner := h.owner
  frame := h.frame
  mem := h.mem

/-- An address with a page. -/
theorem Sending.lend (h : Sending a vaddr d n s s') {p : ℕ}
    (hpage : s.pageAt (vaddr + 4096 * n) = some p) {sp : AddressSpace}
    (hsp : s'.spaces a = some sp) {pg : Page} (hp : s'.physPages p = some pg) (id : ℕ)
    (pte : ℕ → ℕ → Option Pte) :
    Sending a vaddr d (n + 1) s { s'.lend a id (d + 4096 * n) p sp pg with pte } := by
  have hentry : State.entry { s'.lend a id (d + 4096 * n) p sp pg with pte } =
      updEnt s'.entry a (d + 4096 * n) (some ⟨p, PF_SNAPSHOT⟩) := entry_lend hsp
  have hphys : State.physPages { s'.lend a id (d + 4096 * n) p sp pg with pte } =
      Function.update s'.physPages p (some (pg.lend (a, d + 4096 * n))) := rfl
  refine ⟨fun k hk => ?_, fun b v hbv => ?_, fun k hk q hq => ?_, fun q hq => ?_, ?_, ?_, h.mem⟩
  · rw [hentry]
    by_cases hkn : k = n
    · rw [hkn, updEnt_self, hpage]
      rfl
    · have hne : ((a, d + 4096 * k) : ℕ × ℕ) ≠ (a, d + 4096 * n) := by
        simp only [ne_eq, Prod.mk.injEq, true_and]
        omega
      rw [updEnt_of_ne (o := (a, d + 4096 * k)) hne]
      exact h.sent k (by omega)
  · have hne : ((b, v) : ℕ × ℕ) ≠ (a, d + 4096 * n) := fun heq => by
      rw [Prod.mk.injEq] at heq
      exact hbv ⟨heq.1, n, by omega, heq.2⟩
    rw [hentry, updEnt_of_ne (o := (b, v)) hne]
    exact h.rest b v (mt (And.imp_right (Exists.imp fun _ hk => ⟨by omega, hk.2⟩)) hbv)
  · rw [hphys]
    by_cases hqp : q = p
    · exact ⟨_, by rw [hqp, Function.update_self], by simp [Page.lend]⟩
    · rw [Function.update_of_ne hqp]
      have hkn : k ≠ n := by
        rintro rfl
        rw [hpage, Option.some.injEq] at hq
        exact hqp hq.symm
      exact h.used k (by omega) q hq
  · have hqp : q ≠ p := by
      rintro rfl
      exact hq n (by omega) hpage
    rw [hphys, Function.update_of_ne hqp]
    exact h.unused q fun k hk => hq k (by omega)
  · intro q qg hq o ho
    rw [hentry]
    by_cases hone : o = (a, d + 4096 * n)
    · rw [hone, updEnt_self]
      rfl
    · rw [updEnt_of_ne hone]
      rw [hphys] at hq
      by_cases hqp : q = p
      · rw [hqp, Function.update_self] at hq
        cases hq
        exact h.owner p pg hp o ((List.mem_cons.1 ho).resolve_left hone)
      · rw [Function.update_of_ne hqp] at hq
        exact h.owner q qg hq o ho
  · refine h.frame.trans ⟨⟨rfl, rfl, rfl, rfl, rfl, rfl, rfl, rfl⟩, fun b => ?_⟩
    by_cases hb : b = a
    · rw [hb, hsp]
      simp [State.lend, State.setSpace]
    · simp [State.lend, State.setSpace, State.setPage, hb]

/-- The owners that a record had are as shareable as before. -/
theorem Sending.canShare (h : Sending a vaddr d n s s') {m : ℕ} (hr : SendRange s a vaddr d m)
    (hn : n ≤ m) {p : ℕ} {pg : Page} (hp : s.physPages p = some pg) (v : ℕ) :
    CanShare s' pg v ↔ CanShare s pg v := by
  have hsame : ∀ o ∈ pg.owner, (Shareable s' o ↔ Shareable s o) := by
    intro o ho
    have hsome := hr.owner p pg hp o ho
    rw [Shareable, Shareable, h.rest]
    rintro ⟨ha, k, hk, hv⟩
    rw [ha, hv, hr.empty k (by omega)] at hsome
    cases hsome
  rw [CanShare, CanShare]
  exact imp_congr_right fun _ => and_congr_left fun _ => forall₂_congr hsame

/-- One page. -/
theorem sendOne_step (h : Sending a vaddr d n s s') {m : ℕ} (hr : SendRange s a vaddr d m)
    (hn : n < m) (hd : vma.vmaBegin = d) :
    ((∃ s'', sendOne a vaddr vma s' (0 + 4096 * n) = .ok s'') ↔ LendsAt s vaddr d n) ∧
      ∀ s'', sendOne a vaddr vma s' (0 + 4096 * n) = .ok s'' → Sending a vaddr d (n + 1) s s'' := by
  have hsrc := h.source hr hn.le hn
  have hw : wadd vaddr (0 + 4096 * n) = vaddr + 4096 * n := by
    have := hr.noWrap
    rw [Nat.zero_add]
    exact wadd_eq (by omega)
  have hw' : wadd vma.vmaBegin (0 + 4096 * n) = d + 4096 * n := by
    have := hr.noWrap'
    rw [Nat.zero_add, hd]
    exact wadd_eq (by omega)
  rw [sendOne, hw, hsrc, hw']
  cases hpe : s.entry s.current (vaddr + 4096 * n) with
  | none =>
    have hpage : s.pageAt (vaddr + 4096 * n) = none := by rw [State.pageAt, hpe, Option.map_none]
    refine ⟨⟨fun _ pe pg hpe' => ?_, fun _ => ⟨s', rfl⟩⟩, fun s'' hs'' => ?_⟩
    · rw [hpe] at hpe'
      cases hpe'
    · cases hs''
      exact h.skip hr hn hpage
  | some pe =>
    have hpage : s.pageAt (vaddr + 4096 * n) = some pe.p := by
      rw [State.pageAt, hpe, Option.map_some]
    obtain ⟨pg₀, hp₀⟩ := hr.record _ _ pe hpe
    obtain ⟨sp₀, hsp₀, hfound⟩ := hr.found
    obtain ⟨sp, hsp, -⟩ := h.frame.space hsp₀
    obtain ⟨w, hfind⟩ := vmaFind_isSome h.frame hsp₀ hsp (Option.isSome_iff_exists.1 (hfound n hn))
    have haligned : (d + 4096 * n) % 4096 = 0 := by
      have := hr.aligned
      omega
    have hnone := h.target hr hn
    -- the record of the page now, and whether it can be lent
    obtain ⟨pg, hp, hcan⟩ : ∃ pg, s'.physPages pe.p = some pg ∧
        (CanShare s' pg (d + 4096 * n) ↔ LendsAt s vaddr d n) := by
      by_cases hused : ∃ j < n, s.pageAt (vaddr + 4096 * j) = some pe.p
      · obtain ⟨j, hj, hjp⟩ := hused
        obtain ⟨pg, hp, h0⟩ := h.used j hj pe.p hjp
        refine ⟨pg, hp, fun _ pe' pg' hpe' _ hfirst => ?_, fun _ hz => absurd hz h0⟩
        rw [hpe] at hpe'
        cases hpe'
        exact absurd hjp (hfirst j hj)
      · push Not at hused
        refine ⟨pg₀, (h.unused pe.p hused).trans hp₀, ?_⟩
        rw [h.canShare hr hn.le hp₀]
        constructor
        · intro hc pe' pg' hpe' hp' _
          rw [hpe] at hpe'
          cases hpe'
          rw [hp₀] at hp'
          cases hp'
          exact hc
        · exact fun hl => hl pe pg₀ hpe hp₀ hused
    have howner := h.owner pe.p pg hp
    dsimp only
    rw [← hcan, assignPage_eq haligned hsp hfind]
    by_cases hshare : CanShare s' pg (d + 4096 * n)
    · obtain ⟨pte, hpte⟩ := @assignSnapshot_ok s' a w.id (d + 4096 * n) pe.p sp pg hsp hp hnone howner
        hshare
      rw [hpte]
      refine ⟨iff_of_true ⟨_, rfl⟩ hshare, fun s'' hs'' => ?_⟩
      cases hs''
      exact h.lend hpage hsp hp w.id pte
    · have hfail : ∀ s'', assignPageNoAddrCheck s' a pe.p (d + 4096 * n) w.id PF_SNAPSHOT ≠ .ok s'' :=
        fun s'' => assignSnapshot_fail hsp hp hnone howner hshare
      cases hout : assignPageNoAddrCheck s' a pe.p (d + 4096 * n) w.id PF_SNAPSHOT with
      | ok s'' => exact absurd hout (hfail s'')
      | error e => exact ⟨iff_of_false (by simp) hshare, by simp⟩

/-- The loop comes to its end if every page can be lent. -/
theorem sendLoop {m : ℕ} (hr : SendRange s a vaddr d m) (hn : n ≤ m) (hd : vma.vmaBegin = d) :
    ((∃ s', sendPages s a vaddr vma n = .ok s') ↔ ∀ k < n, LendsAt s vaddr d k) ∧
      ∀ s', sendPages s a vaddr vma n = .ok s' → Sending a vaddr d n s s' := by
  induction n with
  | zero =>
    refine ⟨iff_of_true ⟨s, rfl⟩ fun k hk => absurd hk (by omega), fun s' hs' => ?_⟩
    cases hs'
    exact ⟨fun k hk => absurd hk (by omega), fun _ _ _ => rfl, fun k hk => absurd hk (by omega),
      fun _ _ => rfl, hr.owner, Frame.refl s, rfl⟩
  | succ n ih =>
    obtain ⟨hiff, hsending⟩ := ih (by omega)
    rw [sendPages_succ]
    cases hout : sendPages s a vaddr vma n with
    | error e =>
      refine ⟨iff_of_false (by simp) fun hall => ?_, by simp⟩
      obtain ⟨s', hs'⟩ := hiff.2 fun k hk => hall k (by omega)
      rw [hout] at hs'
      cases hs'
    | ok s' =>
      obtain ⟨hstep, hnext⟩ := sendOne_step (hsending s' hout) hr (by omega) hd
      rw [ok_bind, hstep]
      refine ⟨⟨fun hlast k hk => ?_, fun hall => hall n (by omega)⟩, hnext⟩
      by_cases hkn : k = n
      · exact hkn ▸ hlast
      · exact hiff.1 ⟨s', hout⟩ k (by omega)

end Loop

/-! ## The insertion -/

/-- An insertion at `dst`, or anywhere for zero. -/
def insertVmaFor (s : State) (a dst len flags : ℕ) : Except Fault (Except ℤ VmArea × State) :=
  if dst ≠ 0 then insertVmaToVaddr s a dst len flags else insertVmaToAny s a len flags

/-- The insertion finds a place. -/
def AddressSpace.HasPlace (sp : AddressSpace) (dst len flags : ℕ) : Prop :=
  if dst ≠ 0 then dst % 4096 = 0 ∧ sp.lowAddr ≤ dst ∧ dst ≤ sp.highAddr ∧
    (aspaceAddVma (sp.newVma dst len flags) .head sp.vma).isSome = true
  else ¬((findGap len sp.lowAddr sp.vma).2 = false ∧
    sp.highAddr < wadd (findGap len sp.lowAddr sp.vma).1 len)

/-- The same page entries, VMAs and page tables. -/
structure SameMaps (s s' : State) : Prop where
  entry : s'.entry = s.entry
  vmas : ∀ a, (s'.spaces a).map (·.vma) = (s.spaces a).map (·.vma)
  pte : s'.pte = s.pte

theorem SameMaps.refl (s : State) : SameMaps s s := ⟨rfl, fun _ => rfl, rfl⟩

theorem SameMaps.bumpPool {s : State} {a : ℕ} {sp : AddressSpace} (hsp : s.spaces a = some sp)
    (n : ℕ) : SameMaps s (s.setSpace a { sp with vmaPool := n }) := by
  refine ⟨entry_setSpace_vma hsp rfl, fun b => ?_, rfl⟩
  by_cases hb : b = a
  · rw [hb, hsp, setSpace_spaces]
    rfl
  · simp [State.setSpace, hb]

/-- The insertion fails and leaves everything, or takes the place there is. -/
theorem insertVmaFor_cases {s : State} {a : ℕ} {sp : AddressSpace} (hsp : s.spaces a = some sp)
    (dst len flags : ℕ) :
    (∃ e s', insertVmaFor s a dst len flags = .ok (.error e, s') ∧ SameMaps s s' ∧
        s.interruptDisabled ≤ s'.interruptDisabled ∧ ¬sp.HasPlace dst len flags) ∨
      ∃ v l, insertVmaFor s a dst len flags = .ok (.ok v, s.setSpace a
          { sp with vmaPool := sp.vmaPool + 1, vma := l }) ∧
        sp.HasPlace dst len flags ∧ v.vmaBegin = s.placedAt a dst len := by
  rw [insertVmaFor, AddressSpace.HasPlace]
  by_cases hdst : dst = 0
  · have hplaced : s.placedAt a dst len = (findGap len sp.lowAddr sp.vma).1 := by
      simp [State.placedAt, hdst, hsp]
    rw [hplaced, if_neg (not_not.2 hdst), if_neg (not_not.2 hdst), insertVmaToAny_eq hsp]
    dsimp only
    split
    · rename_i hno
      exact .inl ⟨_, _, rfl, ⟨rfl, fun _ => rfl, rfl⟩, Nat.le_succ _, not_not.2 hno⟩
    · rename_i hyes
      exact .inr ⟨_, _, rfl, hyes, rfl⟩
  · have hplaced : s.placedAt a dst len = dst := by simp [State.placedAt, hdst]
    rw [hplaced, if_pos hdst, if_pos hdst, insertVmaToVaddr_eq hsp]
    split
    · rename_i hal
      exact .inl ⟨_, _, rfl, SameMaps.bumpPool hsp _, le_rfl, fun h => hal h.1⟩
    split
    · rename_i hout
      exact .inl ⟨_, _, rfl, SameMaps.bumpPool hsp _, le_rfl, fun h => by omega⟩
    rename_i hal hout
    split
    · rename_i hnone
      refine .inl ⟨_, _, rfl, SameMaps.bumpPool hsp _, le_rfl, fun h => ?_⟩
      rw [hnone] at h
      cases h.2.2.2
    · rename_i l hsome
      refine .inr ⟨_, _, rfl, ⟨by omega, by omega, by omega, ?_⟩, rfl⟩
      rw [hsome]
      rfl

/-- Every address of a range is in a VMA of the caller. -/
def State.Covered (s : State) (vaddr len : ℕ) : Prop :=
  ∃ sp, s.spaces s.current = some sp ∧
    ∀ addr, vaddr ≤ addr → addr < vaddr + len → ∃ w ∈ sp.vma, w.Contains addr

/-- The end of a covered range is below the top of the user half. -/
theorem Orderly.covered_le {s : State} (hs : Orderly s) {vaddr len : ℕ} (h : s.Covered vaddr len)
    (hlen : 0 < len) : vaddr + len ≤ USER_TOP := by
  obtain ⟨sp, hsp, hall⟩ := h
  obtain ⟨w, hw, hc⟩ := hall (vaddr + len - 1) (by omega) (by omega)
  have hend := (hs.bounded _ sp hsp).high w hw
  have hhigh := hs.high _ sp hsp
  have hlt := hc.2
  omega

/-- The place that a search finds begins at a page. -/
theorem findGap_aligned {len lo : ℕ} {l : List VmArea} (hlo : lo % 4096 = 0)
    (hwrap : ∀ w ∈ l, w.vmaBegin + w.vmaLength < 2 ^ 64)
    (hl : ∀ w ∈ l, (w.vmaBegin + w.vmaLength) % 4096 = 0) : (findGap len lo l).1 % 4096 = 0 := by
  induction l generalizing lo with
  | nil => exact hlo
  | cons w rest ih =>
    rw [findGap, wadd_eq (hwrap w List.mem_cons_self)]
    split
    · exact hlo
    · exact ih (hl w List.mem_cons_self) (fun u hu => hwrap u (List.mem_cons_of_mem _ hu))
        fun u hu => hl u (List.mem_cons_of_mem _ hu)

namespace Orderly

variable {s : State} {a : ℕ} {sp : AddressSpace} {dst len flags : ℕ}

/-- The VMAs of an address space end below the top of the user half. -/
theorem vma_le (hs : Orderly s) (hsp : s.spaces a = some sp) {w : VmArea} (hw : w ∈ sp.vma) :
    w.vmaBegin + w.vmaLength ≤ USER_TOP :=
  ((hs.bounded a sp hsp).high w hw).trans (hs.high a sp hsp)

theorem vma_noWrap (hs : Orderly s) (hsp : s.spaces a = some sp) :
    ∀ w ∈ sp.vma, w.vmaBegin + w.vmaLength < 2 ^ 64 :=
  fun _ hw => (hs.vma_le hsp hw).trans_lt USER_TOP_lt

/-- Where an insertion puts a VMA that is not too long. -/
theorem placedAt_spec (hs : Orderly s) (hsp : s.spaces a = some sp) (hlen : len ≤ USER_TOP)
    (hplace : sp.HasPlace dst len flags) :
    s.placedAt a dst len % 4096 = 0 ∧ s.placedAt a dst len ≤ USER_TOP := by
  have hhigh := hs.high a sp hsp
  have hb := hs.bounded a sp hsp
  rw [AddressSpace.HasPlace] at hplace
  by_cases hdst : dst = 0
  · have htop : USER_TOP = 0x7ffffffffffff000 := rfl
    have hspec := @findGap_spec sp.vma sp.lowAddr sp.highAddr len (hs.listed a sp hsp).ordered
      hb.low_le (fun w hw => ⟨hb.low w hw, hb.high w hw⟩) (by omega)
    have haligned := hs.aligned a sp hsp
    have hgap := @findGap_aligned len _ _ haligned.1 (hs.vma_noWrap hsp) haligned.2
    simp only [State.placedAt, hdst, ne_eq, not_true_eq_false, reduceIte, hsp]
    exact ⟨hgap, hspec.2.1.trans hhigh⟩
  · rw [if_pos hdst] at hplace
    rw [State.placedAt, if_pos hdst]
    exact ⟨hplace.1, hplace.2.2.1.trans hhigh⟩

/-- What an insertion that is not too long makes of the VMA list. -/
theorem inserted (hs : Orderly s) (hsp : s.spaces a = some sp) (hpos : 0 < len)
    (hlen : len ≤ USER_TOP) {v : VmArea} {l : List VmArea} {n : ℕ}
    (hins : insertVmaFor s a dst len flags =
      .ok (.ok v, s.setSpace a { sp with vmaPool := n, vma := l })) :
    Ordered l ∧ Clear sp.vma v.vmaBegin len ∧ Inserted v sp.vma l ∧ v.vmaLength = len := by
  have htop : USER_TOP = 0x7ffffffffffff000 := rfl
  have hhigh := hs.high a sp hsp
  have hl := hs.listed a sp hsp
  have hb := hs.bounded a sp hsp
  obtain ⟨places, hplaces, r, s', sp', hout, hsp', hord, -, hr⟩ : ∃ places,
      (∀ x ∈ places, Clear sp.vma x len) ∧
      Inserts a sp len flags places (insertVmaFor s a dst len flags) := by
    rw [insertVmaFor] at hins ⊢
    by_cases hdst : dst = 0
    · rw [if_neg (not_not.2 hdst)]
      exact ⟨_, fun x hx => hx.2.2, insertVmaToAny_inserts hsp hl hb hpos (by omega)⟩
    · have hle : dst ≤ sp.highAddr := by
        by_contra hgt
        rw [if_pos hdst, insertVmaToVaddr_eq hsp] at hins
        split at hins
        · cases hins
        · rw [if_pos (.inr (by omega))] at hins
          cases hins
      rw [if_pos hdst]
      exact ⟨_, fun x hx => hx.2.2.2.2, insertVmaToVaddr_inserts hsp hl hb hpos (by omega) (by omega)⟩
  rw [hins] at hout
  cases hout
  rw [setSpace_spaces] at hsp'
  cases hsp'
  exact ⟨hord, hplaces _ hr.1.1, hr.2.2.2, hr.2.1⟩

/-- A covered range can be sent to the new VMA. -/
theorem sendRange (hs : Orderly s) (hsp : s.spaces a = some sp) {vaddr : ℕ} (hv : vaddr < 2 ^ 64)
    (hcov : s.Covered vaddr len) (hplace : sp.HasPlace dst len flags) {v : VmArea}
    {l : List VmArea} {n : ℕ} (hins : insertVmaFor s a dst len flags =
      .ok (.ok v, s.setSpace a { sp with vmaPool := n, vma := l }))
    (hbegin : v.vmaBegin = s.placedAt a dst len) :
    SendRange (s.setSpace a { sp with vmaPool := n, vma := l }) a vaddr v.vmaBegin (len / 4096) := by
  have htop : USER_TOP = 0x7ffffffffffff000 := rfl
  have hentry : (s.setSpace a { sp with vmaPool := n, vma := l }).entry = s.entry :=
    entry_setSpace_vma hsp rfl
  have hsource : len = 0 ∨ vaddr + len ≤ USER_TOP :=
    (Nat.eq_zero_or_pos len).imp_right (hs.covered_le hcov)
  have hlen : len ≤ USER_TOP := by omega
  have hend : vaddr + 4096 * (len / 4096) ≤ 2 ^ 64 := by omega
  obtain ⟨haligned, hle⟩ := hs.placedAt_spec hsp hlen hplace
  rw [← hbegin] at haligned hle
  refine ⟨haligned, hend, by omega, fun k hk => ?_, fun j hj k hk => ?_,
    ⟨_, setSpace_spaces .., fun k hk => ?_⟩, ?_, ?_⟩
  · -- no entry lies outside the VMAs that were there
    obtain ⟨-, hclear, -, -⟩ := hs.inserted hsp (by omega) hlen hins
    rw [hentry]
    by_contra hne
    obtain ⟨pe, hpe⟩ := Option.ne_none_iff_exists'.1 hne
    obtain ⟨w, hw, hc⟩ := hs.within a sp _ pe hsp hpe
    exact hclear _ (by omega) (by omega) w hw hc
  · -- the source lies in VMAs that were there
    obtain ⟨-, hclear, -, -⟩ := hs.inserted hsp (by omega) hlen hins
    rintro ⟨hcur, heq⟩
    obtain ⟨spc, hspc, hall⟩ := hcov
    have hcur' : s.current = a := hcur
    rw [hcur', hsp, Option.some.injEq] at hspc
    subst hspc
    obtain ⟨w, hw, hc⟩ := hall (vaddr + 4096 * j) (by omega) (by omega)
    exact hclear (vaddr + 4096 * j) (by omega) (by omega) w hw hc
  · obtain ⟨hord, -, ⟨l₁, l₂, now, hold, hnew, -, -⟩, hvlen⟩ := hs.inserted hsp (by omega) hlen hins
    have hnoWrap : ∀ w ∈ l, w.vmaBegin + w.vmaLength < 2 ^ 64 := by
      have hwrap := hs.vma_noWrap hsp
      have hrest := bounds_setPrev (P := fun b n => b + n < 2 ^ 64)
        (fun w hw => hwrap w (hold ▸ List.mem_append_right l₁ hw)) (.next v.id)
      rw [hnew]
      intro w hw
      rcases List.mem_append.1 hw with hw | hw
      · exact hwrap w (hold ▸ List.mem_append_left l₂ hw)
      · rcases List.mem_cons.1 hw with rfl | hw
        · dsimp only
          omega
        · exact hrest w hw
    refine Option.isSome_iff_exists.2 (vmaFind_of_contains hord hnoWrap
      ⟨{ v with prev := now }, ?_, ?_, ?_⟩)
    · simp [hnew]
    · dsimp only
      omega
    · dsimp only
      omega
  · rw [hentry]
    exact hs.record
  · rw [hentry]
    exact hs.owner

end Orderly

/-! ## The system call -/

/-- What a call that succeeds does: the range is covered, and its pages are lent. -/
structure Sent (s s' : State) (a vaddr d len : ℕ) : Prop where
  covered : s.Covered vaddr len
  sent : ∀ i < len, i % 4096 = 0 →
    s'.entry a (d + i) = (s.pageAt (vaddr + i)).map fun p => ⟨p, PF_SNAPSHOT⟩
  rest : ∀ b v, ¬(b = a ∧ ∃ i < len, i % 4096 = 0 ∧ v = d + i) → s'.entry b v = s.entry b v

/-- All pages of the range can be lent. -/
def LendsAll (s : State) (vaddr d len : ℕ) : Prop := ∀ k < len / 4096, LendsAt s vaddr d k

section Syscall

variable {s : State} {a vaddr dst len : ℕ} {sp : AddressSpace}

theorem LendsAll.congr {s' : State} {d : ℕ} (hentry : s'.entry = s.entry)
    (hcur : s'.current = s.current) (hphys : s'.physPages = s.physPages) :
    LendsAll s' vaddr d len ↔ LendsAll s vaddr d len := by
  simp only [LendsAll, LendsAt, CanShare, Shareable, State.pageAt, hentry, hcur, hphys]

/-- The test of the first page. -/
theorem Orderly.validate (hs : Orderly s) (hcur : (s.spaces s.current).isSome = true)
    (hlen : 0 < len) (hlen' : len < 2 ^ 64) :
    ∃ b, validateRange s vaddr len = .ok b ∧ (b = true ↔ s.Covered vaddr len) := by
  obtain ⟨spc, hspc⟩ := Option.isSome_iff_exists.1 hcur
  refine ⟨_, by rw [validateRange, getSpace_eq hspc, ok_bind]; rfl, ?_⟩
  rw [validateRangeFrom_vmasFrom (hs.listed _ spc hspc).ordered (hs.vma_noWrap hspc) hlen hlen']
  constructor
  · exact fun h => ⟨spc, hspc, h⟩
  · rintro ⟨spc', hspc', h⟩
    rw [hspc, Option.some.injEq] at hspc'
    exact hspc' ▸ h

/-- A range that was sent, byte by byte. -/
theorem Sending.toSent {s₁ s' : State} {d : ℕ} (h : Sending a vaddr d (len / 4096) s₁ s')
    (hcov : s.Covered vaddr len) (hentry : s₁.entry = s.entry) (hcur : s₁.current = s.current)
    (hlen : len % 4096 = 0) : Sent s s' a vaddr d len := by
  have hpage : ∀ v, s₁.pageAt v = s.pageAt v := fun v => by
    rw [State.pageAt, hentry, hcur, State.pageAt]
  refine ⟨hcov, fun i hi hi' => ?_, fun b v hbv => ?_⟩
  · have hk : i = 4096 * (i / 4096) := by omega
    have hsent := h.sent (i / 4096) (by omega)
    rwa [← hk, hpage] at hsent
  · rw [h.rest, hentry]
    rintro ⟨hb, k, hk, hv⟩
    exact hbv ⟨hb, 4096 * k, by omega, by omega, hv⟩

/-- `sendpage`, once the handle is resolved: it returns an error and leaves everything, or goes
through the range. -/
theorem sendpageTo_cases (hs : Orderly s) (hsp : s.spaces a = some sp)
    (hcur : (s.spaces s.current).isSome = true) (hv : vaddr ≠ 0) (hv' : vaddr < 2 ^ 64)
    (hvaligned : vaddr % 4096 = 0) (hlen : len % 4096 = 0) :
    (¬(s.Covered vaddr 4096 ∧ sp.HasPlace dst len VMA_RW) ∧
      ∃ ret s', sendpageTo s a vaddr dst len = .ok (ret, s') ∧ ret < 0 ∧ SameMaps s s' ∧
        s.interruptDisabled ≤ s'.interruptDisabled) ∨
    (s.Covered vaddr 4096 ∧ sp.HasPlace dst len VMA_RW ∧
      (∀ ret s', sendpageTo s a vaddr dst len = .ok (ret, s') → 0 ≤ ret) ∧
      (s.Covered vaddr len →
        ((∃ r, sendpageTo s a vaddr dst len = .ok r) ↔
          LendsAll s vaddr (s.placedAt a dst len) len) ∧
        ∀ ret s', sendpageTo s a vaddr dst len = .ok (ret, s') →
          Sent s s' a vaddr ret.toNat len ∧ s.interruptDisabled ≤ s'.interruptDisabled)) := by
  have hal : isAligned vaddr = true := by simp [isAligned, hvaligned]
  have hal' : isAligned len = true := by simp [isAligned, hlen]
  obtain ⟨b, hb, hcov⟩ := @Orderly.validate s vaddr 4096 hs hcur (by norm_num) (by norm_num)
  have hsteps : pageSteps 0 len = (List.range (len / 4096)).map fun i => 0 + 4096 * i := by
    rw [pageSteps]
    congr 2
    omega
  simp only [sendpageTo, hal, hal', Bool.not_true, Bool.false_eq_true, or_self, reduceIte, ne_eq, hv,
    not_false_eq_true, hb, ok_bind]
  cases b with
  | false =>
    refine .inl ⟨fun h => by simpa using hcov.2 h.1, -EINVAL, s, rfl, by decide, SameMaps.refl s, le_rfl⟩
  | true =>
    have hfirst := hcov.1 rfl
    simp only [Bool.not_true, Bool.false_eq_true, reduceIte]
    rcases insertVmaFor_cases hsp dst len VMA_RW with ⟨e, s₁, hins, hsame, hcount, hno⟩ |
      ⟨v, l, hins, hplace, hbegin⟩
    · rw [insertVmaFor] at hins
      simp only [ne_eq] at hins
      rw [hins, ok_bind]
      exact .inl ⟨fun h => hno h.2, -ENOMEM, s₁, rfl, by decide, hsame, hcount⟩
    · refine .inr ⟨hfirst, hplace, ?_⟩
      have hrange := fun hcovered => hs.sendRange hsp hv' hcovered hplace hins hbegin
      rw [insertVmaFor] at hins
      simp only [ne_eq] at hins
      obtain ⟨s₁, hs₁⟩ : ∃ s₁, s₁ = s.setSpace a { sp with vmaPool := sp.vmaPool + 1, vma := l } :=
        ⟨_, rfl⟩
      rw [← hs₁] at hins hrange
      have hentry : s₁.entry = s.entry := hs₁ ▸ entry_setSpace_vma hsp rfl
      have hcur₁ : s₁.current = s.current := by rw [hs₁]; rfl
      have hphys : s₁.physPages = s.physPages := by rw [hs₁]; rfl
      have hcount : s₁.interruptDisabled = s.interruptDisabled := by rw [hs₁]; rfl
      rw [hins, ok_bind]
      dsimp only
      rw [hsteps]
      change (∀ ret s', (sendPages s₁ a vaddr v (len / 4096) >>= _) = _ → _) ∧ (_ →
        ((∃ r, (sendPages s₁ a vaddr v (len / 4096) >>= _) = _) ↔ _) ∧
        ∀ ret s', (sendPages s₁ a vaddr v (len / 4096) >>= _) = _ → _)
      refine ⟨fun ret s' hret => ?_, fun hcovered => ?_⟩
      · rw [bind_eq_ok] at hret
        obtain ⟨s₂, -, hret⟩ := hret
        cases hret
        exact Int.natCast_nonneg _
      · obtain ⟨hiff, hsending⟩ := sendLoop (hrange hcovered) le_rfl rfl
        rw [← hbegin, ← LendsAll.congr hentry hcur₁ hphys]
        refine ⟨⟨fun hret => hiff.1 ?_, fun hall => ?_⟩, fun ret s' hret => ?_⟩
        · obtain ⟨r, hr⟩ := hret
          rw [bind_eq_ok] at hr
          obtain ⟨s₂, hs₂, -⟩ := hr
          exact ⟨s₂, hs₂⟩
        · obtain ⟨s₂, hs₂⟩ := hiff.2 hall
          rw [hs₂]
          exact ⟨_, rfl⟩
        · rw [bind_eq_ok] at hret
          obtain ⟨s₂, hs₂, hret⟩ := hret
          cases hret
          have hsent := hsending _ hs₂
          exact ⟨hsent.toSent hcovered hentry hcur₁ hlen,
            (hsent.frame.interruptDisabled.trans hcount).ge⟩

/-- A handle of an address space. -/
def HandleOf (tab : AsTable) (as : ℤ) (a : ℕ) : Prop := 0 ≤ as ∧ tab[as.toNat]? = some (some a)

/-- The specification of `sendpage`: it returns an error and leaves both address spaces, or the
address at which the pages of the range, which is covered, are lent. -/
def SendCorrect (s : State) (tab : AsTable) (as : ℤ) (vaddr dst len : ℕ) : Prop :=
  ∃ ret s', sendpage s tab as vaddr dst len = .ok (ret, s') ∧
    (0 ≤ ret → ∃ a, HandleOf tab as a ∧ Sent s s' a vaddr ret.toNat len) ∧
    (ret < 0 → SameMaps s s')

/-- What `sendpage` must not meet: the first number after the table, and, if the first page of
the range is covered and there is a place for the VMA, a range that is not covered or has a
page that cannot be lent. -/
def SendsOk (s : State) (tab : AsTable) (as : ℤ) (vaddr dst len : ℕ) : Prop :=
  as ≠ tab.length ∧ ∀ a sp, HandleOf tab as a → s.spaces a = some sp → s.Covered vaddr 4096 →
    sp.HasPlace dst len VMA_RW →
      s.Covered vaddr len ∧ LendsAll s vaddr (s.placedAt a dst len) len

/-- The end of the system call. -/
theorem sendpage_eq (s : State) (tab : AsTable) (as : ℤ) (vaddr dst len : ℕ) :
    sendpage s tab as vaddr dst len =
      ((if as < 0 ∨ (tab.length : ℤ) < as then .ok (-EBADF, disableInterrupts s)
        else fileAt tab as.toNat >>= fun f => f.elim (.ok (-EBADF, disableInterrupts s))
          fun a => sendpageTo (disableInterrupts s) a vaddr dst len) >>=
        fun r => enableInterrupts r.2 >>= fun s' => .ok (r.1, s')) := by
  rw [sendpage]
  congr 1
  split
  · rfl
  · congr 1
    funext f
    cases f <;> rfl

theorem enable_of_pos {s s₁ : State} (h : s.interruptDisabled < s₁.interruptDisabled) :
    enableInterrupts s₁ = .ok { s₁ with interruptDisabled := s₁.interruptDisabled - 1 } :=
  enableInterrupts_eq (s := { s with interruptDisabled := s₁.interruptDisabled - 1 }) (by
    dsimp only
    omega)

/-- A call that fails before it looks at the range. -/
theorem sendCorrect_of_error {tab : AsTable} {as ret : ℤ} {s₁ : State}
    (hcount : s.interruptDisabled < s₁.interruptDisabled) (hret : ret < 0) (hsame : SameMaps s s₁)
    (h : sendpage s tab as vaddr dst len =
      enableInterrupts s₁ >>= fun s' => .ok (ret, s')) : SendCorrect s tab as vaddr dst len := by
  rw [enable_of_pos hcount, ok_bind] at h
  exact ⟨ret, _, h, fun hge => absurd hret (not_lt.2 hge), fun _ => ⟨hsame.entry, hsame.vmas, hsame.pte⟩⟩

/-- `sendpage` meets its specification exactly if it does not meet what it cannot handle. -/
theorem sendpage_correct_iff {tab : AsTable} {as : ℤ} (hs : Orderly s)
    (hcur : (s.spaces s.current).isSome = true)
    (htab : ∀ a, some a ∈ tab → (s.spaces a).isSome = true) (hv : vaddr ≠ 0) (hv' : vaddr < 2 ^ 64)
    (hvaligned : vaddr % 4096 = 0) (hlen : len % 4096 = 0) :
    SendCorrect s tab as vaddr dst len ↔ SendsOk s tab as vaddr dst len := by
  have hcount : s.interruptDisabled < (disableInterrupts s).interruptDisabled := Nat.lt_succ_self _
  have hsame₀ : SameMaps s (disableInterrupts s) := ⟨rfl, fun _ => rfl, rfl⟩
  have hcall := sendpage_eq s tab as vaddr dst len
  by_cases hout : as < 0 ∨ (tab.length : ℤ) < as
  · -- no number of the table
    rw [if_pos hout, ok_bind] at hcall
    have hno : ∀ a, ¬HandleOf tab as a := by
      rintro a ⟨hge, hget⟩
      have := (List.getElem?_eq_some_iff.1 hget).1
      omega
    refine iff_of_true (sendCorrect_of_error hcount (show -EBADF < 0 by decide) hsame₀ hcall)
      ⟨by omega, ?_⟩
    exact fun a _ ha => absurd ha (hno a)
  rw [if_neg hout, fileAt] at hcall
  by_cases hlast : as = tab.length
  · have hnone : tab[as.toNat]? = none := by
      rw [List.getElem?_eq_none_iff]
      omega
    rw [hnone] at hcall
    refine iff_of_false ?_ fun h => h.1 hlast
    rintro ⟨ret, s', hret, -⟩
    rw [hcall] at hret
    cases hret
  obtain ⟨f, hf⟩ : ∃ f, tab[as.toNat]? = some f :=
    ⟨_, List.getElem?_eq_getElem (by omega)⟩
  rw [hf] at hcall
  cases f with
  | none =>
    have hno : ∀ a, ¬HandleOf tab as a := by
      rintro a ⟨-, hget⟩
      rw [hf] at hget
      cases hget
    refine iff_of_true (sendCorrect_of_error hcount (show -EBADF < 0 by decide) hsame₀ hcall)
      ⟨hlast, ?_⟩
    exact fun a _ ha => absurd ha (hno a)
  | some a =>
    have hhandle : ∀ b, HandleOf tab as b ↔ b = a := by
      intro b
      rw [HandleOf, hf]
      simp only [Option.some.injEq]
      omega
    obtain ⟨sp, hsp⟩ := Option.isSome_iff_exists.1 (htab a (List.mem_of_getElem? hf))
    have hs₀ : Orderly (disableInterrupts s) :=
      ⟨hs.record, hs.owner, hs.listed, hs.bounded, hs.high, hs.aligned, hs.within⟩
    change sendpage s tab as vaddr dst len = (sendpageTo (disableInterrupts s) a vaddr dst len >>= _)
      at hcall
    have hsendsOk : SendsOk s tab as vaddr dst len ↔ (s.Covered vaddr 4096 →
        sp.HasPlace dst len VMA_RW →
          s.Covered vaddr len ∧ LendsAll s vaddr (s.placedAt a dst len) len) := by
      refine ⟨fun h => h.2 a sp ((hhandle a).2 rfl) hsp, fun h => ⟨hlast, fun b spb hb hspb => ?_⟩⟩
      rw [hhandle] at hb
      subst hb
      rw [hsp, Option.some.injEq] at hspb
      exact hspb ▸ h
    rw [hsendsOk]
    rcases @sendpageTo_cases (disableInterrupts s) a vaddr dst len sp hs₀ hsp hcur hv hv' hvaligned
      hlen with ⟨hno, ret, s₁, hto, hret, hsame, hle⟩ | ⟨hfirst, hplace, hpos, hcovers⟩
    · rw [hto, ok_bind] at hcall
      exact iff_of_true (sendCorrect_of_error (hcount.trans_le hle) hret
        ⟨hsame.entry, hsame.vmas, hsame.pte⟩ hcall) fun hfirst hplace => absurd ⟨hfirst, hplace⟩ hno
    constructor
    · -- a call that meets the specification cannot have failed
      rintro ⟨ret, s', hret, hsent, -⟩ - -
      rw [hcall, bind_eq_ok] at hret
      obtain ⟨r, hr, hret⟩ := hret
      rw [bind_eq_ok] at hret
      obtain ⟨s₁, -, hret⟩ := hret
      cases hret
      obtain ⟨b, -, hb⟩ := hsent (hpos r.1 r.2 hr)
      exact ⟨hb.covered, (hcovers hb.covered).1.1 ⟨r, hr⟩⟩
    · intro h
      obtain ⟨hcovered, hlends⟩ := h hfirst hplace
      obtain ⟨hiff, hdone⟩ := hcovers hcovered
      obtain ⟨r, hr⟩ := hiff.2 hlends
      obtain ⟨hsent, hle⟩ := hdone r.1 r.2 hr
      rw [hr, ok_bind, enable_of_pos (hcount.trans_le hle), ok_bind] at hcall
      exact ⟨r.1, _, hcall, fun _ => ⟨a, (hhandle a).2 rfl, hsent.covered, hsent.sent, hsent.rest⟩,
        fun hneg => absurd (hpos r.1 r.2 hr) (not_le.2 hneg)⟩

end Syscall

/-! ## Between two address spaces -/

/-- Two address spaces, one with a page. -/
def twoSpaces : State := touched.setSpace 1 gapped

theorem twoSpaces_space {a : ℕ} {sp : AddressSpace} (h : twoSpaces.spaces a = some sp) :
    sp.vma = gapped.vma ∧ sp.lowAddr = USER_BASE ∧ sp.highAddr = USER_TOP ∧ sp.vmaPool = 2 := by
  simp only [twoSpaces, touched, State.setSpace, Function.update_apply] at h
  split_ifs at h <;> cases h <;> exact ⟨rfl, rfl, rfl, rfl⟩

theorem twoSpaces_entry {a v : ℕ} {pe : PageEntry} (h : twoSpaces.entry a v = some pe) :
    a = 0 ∧ v = 0x403000 ∧ pe = ⟨0x1000, PF_SHARED⟩ := by
  simp only [State.entry, twoSpaces, touched, State.setSpace, Function.update_apply] at h
  split_ifs at h with ha ha'
  · simp [gapped] at h
  · rw [Option.bind_some] at h
    by_cases hv : v = 0x403000
    · rw [hv, AList.lookup_insert, Option.some.injEq] at h
      exact ⟨ha', hv, h.symm⟩
    · rw [AList.lookup_insert_ne hv] at h
      simp at h
  · cases h

theorem orderly_twoSpaces : Orderly twoSpaces where
  record a v pe hpe := by
    obtain ⟨-, -, rfl⟩ := twoSpaces_entry hpe
    exact ⟨⟨1, 0, [(0, 0x403000)]⟩, rfl⟩
  owner p pg hp o ho := by
    have hpg : pg.owner = [] ∨ pg.owner = [(0, 0x403000)] := by
      change touched.physPages p = some pg at hp
      simp only [touched] at hp
      split_ifs at hp <;> cases hp
      · exact .inl rfl
      · exact .inr rfl
    rcases hpg with hpg | hpg
    · rw [hpg] at ho
      cases ho
    · rw [hpg, List.mem_singleton] at ho
      rw [ho]
      decide
  listed a sp hsp := by
    obtain ⟨hvma, -, -, hpool⟩ := twoSpaces_space hsp
    exact ⟨hvma ▸ gapped_listed.ids, by rw [hvma, hpool]; exact gapped_listed.id_lt,
      hvma ▸ gapped_listed.ordered, hvma ▸ gapped_listed.links⟩
  bounded a sp hsp := by
    obtain ⟨hvma, hlow, hhigh, -⟩ := twoSpaces_space hsp
    refine ⟨by rw [hlow, hhigh]; decide, ?_, ?_, ?_⟩
    · rw [hvma, hlow]
      exact gapped_bounded.low
    · rw [hvma, hhigh]
      exact gapped_bounded.high
    · rw [hvma]
      exact gapped_bounded.pos
  high a sp hsp := (twoSpaces_space hsp).2.2.1.le
  aligned a sp hsp := by
    obtain ⟨hvma, hlow, -, -⟩ := twoSpaces_space hsp
    rw [hvma, hlow]
    decide
  within a sp v pe hsp hpe := by
    obtain ⟨-, rfl, -⟩ := twoSpaces_entry hpe
    rw [(twoSpaces_space hsp).1]
    exact ⟨⟨1, 0, 0, 0x402000, 0x3000, [], .next 0⟩, by simp [gapped], by decide, by decide⟩

theorem sendpage_correct_iff_twoSpaces :
    SendCorrect twoSpaces [some 0, some 1] 1 0x403000 0 0x2000 := by
  have htab : ∀ a, some a ∈ [some 0, some 1] → (twoSpaces.spaces a).isSome = true := by
    intro a ha
    simp only [List.mem_cons, Option.some.injEq, List.not_mem_nil, or_false] at ha
    rcases ha with rfl | rfl <;> rfl
  refine (sendpage_correct_iff orderly_twoSpaces (by decide) htab (by decide) (by decide)
    (by decide) (by decide)).2 ⟨by decide, ?_⟩
  rintro a sp ⟨-, ha⟩ - - -
  cases ha
  refine ⟨⟨_, rfl, fun addr hge hlt =>
    ⟨⟨1, 0, 0, 0x402000, 0x3000, [], .next 0⟩, by simp [gapped], ?_⟩⟩, ?_⟩
  · simp only [VmArea.Contains]
    omega
  · intro k hk pe pg hpe hp hfirst h0
    obtain ⟨-, hv, rfl⟩ := twoSpaces_entry hpe
    obtain rfl : k = 0 := by omega
    cases hp
    refine ⟨fun o ho => ?_, by decide⟩
    obtain rfl := List.mem_singleton.1 ho
    exact ⟨⟨0x1000, PF_SHARED⟩, by decide, by decide, by decide⟩

/-- A range of which only the first page is in a VMA. -/
theorem sendpage_fails :
    Orderly twoSpaces ∧ ¬SendCorrect twoSpaces [some 0, some 1] 1 0x400000 0 0x2000 := by
  refine ⟨orderly_twoSpaces, ?_⟩
  rintro ⟨ret, s', hret, hsent, -⟩
  have hok : ((sendpage twoSpaces [some 0, some 1] 1 0x400000 0 0x2000).toOption.map (·.1)) =
      some 0x405000 := by decide +kernel
  rw [hret] at hok
  cases hok
  obtain ⟨a, -, hcovered, -, -⟩ := hsent (by decide)
  obtain ⟨sp, hsp, hall⟩ := hcovered
  obtain ⟨w, hw, hc⟩ := hall 0x401000 (by decide) (by decide)
  rw [(twoSpaces_space hsp).1] at hw
  simp only [gapped, List.mem_cons, List.not_mem_nil, or_false] at hw
  rcases hw with rfl | rfl
  · exact absurd hc.2 (by decide)
  · exact absurd hc.1 (by decide)

end SadOS.Mm
