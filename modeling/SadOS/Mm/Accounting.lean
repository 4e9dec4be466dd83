import SadOS.Mm.World

/-!
# Reference and snapshot counts over runs

The two counters of a page are the numbers of its page entries, of the nodes of page
lists, and of the references that the kernel keeps.  They stay so over every run that
does not write to a page whose only reference is a snapshot: there `unshare_page`
clears `snap_count` and leaves the entry flagged as a snapshot, where
`address_space_map`, in the same place, makes it a shared one.

## Main definitions

* `PageAccounting` — the accounts of all pages.
* `pageAccounting_of_allowed` — they hold over runs of allowed steps.
* `pageAccounting_fails` — they fail after a fork, a `munmap` and a write.
-/

namespace SadOS.Mm

/-- `n` pairs satisfy `P`. -/
def Counts (P : ℕ × ℕ → Prop) (n : ℕ) : Prop :=
  ∃ l : List (ℕ × ℕ), l.Nodup ∧ (∀ o, o ∈ l ↔ P o) ∧ l.length = n

/-- All nodes of page lists. -/
def State.allNodes (s : State) : List PageList := s.plists.flatMap fun x => x.2.ph

/-- The page entries of a page. -/
def State.IsEntryOf (s : State) (p : ℕ) (o : ℕ × ℕ) : Prop :=
  ∃ pe, s.entry o.1 o.2 = some pe ∧ pe.p = p

/-- The page entries of a page that are snapshots. -/
def State.IsSnapshotOf (s : State) (p : ℕ) (o : ℕ × ℕ) : Prop :=
  ∃ pe, s.entry o.1 o.2 = some pe ∧ pe.p = p ∧ hasFlag pe.flags PF_SNAPSHOT = true

/-- The counters of every page are the numbers of references to it, of which the kernel
keeps those in `kept`. -/
def PageAccounting (kept : List ℕ) (s : State) : Prop :=
  ∀ p pg, s.physPages p = some pg → ∃ n m, Counts (s.IsEntryOf p) n ∧ Counts (s.IsSnapshotOf p) m ∧
    pg.refCount = n + s.allNodes.countP (fun pl => pl.p = some p) + kept.count p ∧
    pg.snapCount = m + s.allNodes.countP fun pl => pl.p = some p ∧ pl.flags = PF_SNAPSHOT

/-- The nodes of page lists, as references. -/
theorem refsOn_heldBy (ph : List PageList) (p : ℕ) :
    refsOn (heldBy ph) p = ph.countP fun pl => pl.p = some p := by
  induction ph with
  | nil => rfl
  | cons pl rest ih =>
    obtain ⟨q, flags⟩ := pl
    cases q with
    | none => simpa [heldBy_cons, PageList.held] using ih
    | some q => simp [heldBy_cons, PageList.held, ih, List.countP_cons]

theorem count_snap_heldBy (ph : List PageList) (p : ℕ) :
    (heldBy ph).count (p, .snap) =
      ph.countP fun pl => pl.p = some p ∧ pl.flags = PF_SNAPSHOT := by
  induction ph with
  | nil => rfl
  | cons pl rest ih =>
    obtain ⟨q, flags⟩ := pl
    cases q with
    | none => simpa [heldBy_cons, PageList.held] using ih
    | some q =>
      by_cases hf : flags = PF_SNAPSHOT
      · simp [heldBy_cons, PageList.held, ih, List.countP_cons, List.count_cons, hf]
      · simp [heldBy_cons, PageList.held, ih, hf]

theorem State.nodes_eq (s : State) : s.nodes = heldBy s.allNodes := by
  rw [State.nodes, State.allNodes, heldBy, List.flatMap_assoc]
  rfl

/-- References that the kernel keeps are no snapshots. -/
theorem refsOn_kept (kept : List ℕ) (p : ℕ) :
    refsOn (kept.map fun p => (p, Kind.shared)) p = kept.count p ∧
      (kept.map fun p => (p, Kind.shared)).count (p, .snap) = 0 := by
  constructor
  · rw [refsOn, List.countP_map]
    rfl
  · rw [List.count_eq_zero]
    simp

theorem Settled.pageAccounting {canon : Prop} {kept : List ℕ} {s : State}
    (h : Settled False canon kept s) : PageAccounting kept s := by
  intro p pg hp
  have hl := h.sound.linked
  have hc := hl.counted p pg hp
  have hkept := refsOn_kept kept p
  refine ⟨pg.owner.length, pg.owner.countP (isSnap s.entry), ?_, ?_, ?_, ?_⟩
  · exact ⟨pg.owner, hc.nodup, fun o => hl.mem_owner_iff hp o, rfl⟩
  · refine ⟨pg.owner.filter (isSnap s.entry), hc.nodup.filter _, fun o => ?_, ?_⟩
    · rw [List.mem_filter, hl.mem_owner_iff hp o, isSnap]
      constructor
      · rintro ⟨⟨pe, hpe, hpp⟩, hs⟩
        rw [hpe] at hs
        exact ⟨pe, hpe, hpp, hs⟩
      · rintro ⟨pe, hpe, hpp, hs⟩
        exact ⟨⟨pe, hpe, hpp⟩, by rw [hpe]; exact hs⟩
    · rw [List.countP_eq_length_filter]
  · rw [hc.refs, refsOn, List.countP_append, ← refsOn, ← refsOn, hkept.1, State.nodes_eq,
      refsOn_heldBy, Nat.add_assoc]
  · have hsnaps : pg.snapCount = snapsOn (s.nodes ++ kept.map fun p => (p, Kind.shared)) s.entry p
      pg.owner := by simpa using hc.snaps
    rw [hsnaps, snapsOn, List.count_append, hkept.2, State.nodes_eq, count_snap_heldBy, Nat.add_zero]

/-- In every run whose steps are allowed, the accounts hold of every state. -/
theorem pageAccounting_of_allowed {kept : List ℕ} {w : World} {ops : List Op}
    (h : Accounts False False kept w)
    (hok : Along (World.Allowed False False) World.step w ops) :
    Safely Halts (fun w' => PageAccounting kept w'.mm) (w.run ops) :=
  (h.run hok).mono fun _ h' => h'.settled.pageAccounting

theorem pageAccounting_of_allowed_forks :
    ∃ w, (World.boot [0x10000, 0x11000, 0x12000] 0x1000).run [.sendpage 0 0 0x400000 0x1000,
      .write 0x400000 7, .asnew true, .write 0x400000 8, .switch 1, .read 0x400000,
      .munmap 0x400000 0x1000] = .ok w ∧ PageAccounting [0x1000] w.mm := by
  generalize hops : [Op.sendpage 0 0 0x400000 0x1000, .write 0x400000 7, .asnew true,
    .write 0x400000 8, .switch 1, .read 0x400000, .munmap 0x400000 0x1000] = ops
  have hok : Along (World.Allowed False False) World.step
      (World.boot [0x10000, 0x11000, 0x12000] 0x1000) ops := by
    refine along_of_check (c := World.check) ?_ fun _ _ => allowed_of_check
    rw [← hops]
    decide +kernel
  obtain ⟨w, hw⟩ : ∃ w, (World.boot [0x10000, 0x11000, 0x12000] 0x1000).run ops = .ok w := by
    rw [← isOk_iff, ← hops]
    decide +kernel
  exact ⟨w, hw, (pageAccounting_of_allowed (accounts_boot (by decide) (by decide) _ _) hok).of_ok hw⟩

/-- After the parent unmaps a page, the child writes to it as its only snapshot. -/
theorem pageAccounting_fails : ¬∀ (free : List ℕ) (zeroPage : ℕ) (ops : List Op) (w : World),
    free.Nodup → zeroPage ∉ free → (World.boot free zeroPage).run ops = .ok w →
      PageAccounting [zeroPage] w.mm := by
  intro h
  obtain ⟨ops, hops⟩ : ∃ ops : List Op, ops = [.sendpage 0 0 0x400000 0x1000, .write 0x400000 7,
    .asnew true, .munmap 0x400000 0x1000, .switch 1, .write 0x400000 8] := ⟨_, rfl⟩
  have hrun : ((World.boot [0x10000, 0x11000] 0x1000).run ops).toOption.map
      (fun w => (w.mm.physPages 0x10000, w.mm.entry 1 0x400000)) =
        some (some ⟨1, 0, [(1, 0x400000)]⟩, some ⟨0x10000, PF_SNAPSHOT⟩) := by
    rw [hops]
    decide +kernel
  cases hw : (World.boot [0x10000, 0x11000] 0x1000).run ops with
  | error e =>
    rw [hw] at hrun
    cases hrun
  | ok w =>
    rw [hw] at hrun
    simp only [Except.toOption, Option.map_some, Option.some.injEq, Prod.mk.injEq] at hrun
    obtain ⟨n, m, -, ⟨l, -, hl, hm⟩, -, hsnap⟩ := h _ _ ops w (by decide) (by decide) hw _ _ hrun.1
    -- the entry is a snapshot that nobody counts
    have hmem : (1, 0x400000) ∈ l := (hl _).2 ⟨_, hrun.2, rfl, by decide⟩
    have hpos := List.length_pos_of_mem hmem
    simp only at hsnap
    omega

end SadOS.Mm
