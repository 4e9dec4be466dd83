import SadOS.Mm.World

/-!
# Write protection of pages with snapshots

The first guarantee of `share_page`: a page with snapshots is mapped read only.  It
holds over every run in which `map_from_user` takes no page as a whole that somebody
may write to and that has no snapshots yet, for `map_from_user` counts its snapshot
without `share_page`.

## Main definitions

* `WriteProtected` — the guarantee.
* `writeProtected_of_allowed` — it holds over runs of allowed steps.
* `writeProtected_fails` — it fails after a write and a `map_from_user`.
-/

namespace SadOS.Mm

/-- Wherever a page with snapshots has an entry, its mapping, if present, is read only. -/
def WriteProtected (s : State) : Prop :=
  ∀ p pg, s.physPages p = some pg → 0 < pg.snapCount →
    ∀ a v pe, s.entry a v = some pe → pe.p = p →
      ∀ e, s.pte a (slot v) = some e → e.writable = false

theorem Settled.writeProtected {stale : Prop} {kept : List ℕ} {s : State}
    (h : Settled stale True kept s) : WriteProtected s := by
  rintro p pg hp hsnap a v pe hpe rfl e he
  obtain ⟨-, pg', hp', hw⟩ := (h.sound.mapped trivial).of_pte hpe (by simp) he
  rw [hp, Option.some.injEq] at hp'
  subst hp'
  by_contra hne
  have := hw (by simpa using hne)
  omega

/-- In every run whose steps are allowed, pages with snapshots are read only in every
state.  A write to a page whose only reference is a snapshot is allowed here. -/
theorem writeProtected_of_allowed {kept : List ℕ} {w : World} {ops : List Op}
    (h : Accounts True True kept w) (hok : Along (World.Allowed True True) World.step w ops) :
    Safely Halts (fun w' => WriteProtected w'.mm) (w.run ops) :=
  (h.run hok).mono fun _ h' => h'.settled.writeProtected

theorem writeProtected_of_allowed_forks :
    ∃ w, (World.boot [0x10000, 0x11000, 0x12000] 0x1000).run [.sendpage 0 0 0x400000 0x1000,
      .write 0x400000 7, .asnew true, .write 0x400000 8, .switch 1, .read 0x400000] = .ok w ∧
      WriteProtected w.mm := by
  generalize hops : [Op.sendpage 0 0 0x400000 0x1000, .write 0x400000 7, .asnew true,
    .write 0x400000 8, .switch 1, .read 0x400000] = ops
  have hok : Along (World.Allowed True True) World.step
      (World.boot [0x10000, 0x11000, 0x12000] 0x1000) ops := by
    refine along_of_check (c := World.check) ?_ fun _ _ => allowed_of_check
    rw [← hops]
    decide +kernel
  obtain ⟨w, hw⟩ : ∃ w, (World.boot [0x10000, 0x11000, 0x12000] 0x1000).run ops = .ok w := by
    rw [← isOk_iff, ← hops]
    decide +kernel
  exact ⟨w, hw, (writeProtected_of_allowed (accounts_boot (by decide) (by decide) _ _) hok).of_ok hw⟩

/-- A page that was written is sent as a whole, and stays writable. -/
theorem writeProtected_fails : ¬∀ (free : List ℕ) (zeroPage : ℕ) (ops : List Op) (w : World),
    free.Nodup → zeroPage ∉ free → (World.boot free zeroPage).run ops = .ok w →
      WriteProtected w.mm := by
  intro h
  obtain ⟨ops, hops⟩ : ∃ ops : List Op, ops = [.sendpage 0 0 0x400000 0x2000, .write 0x401000 7,
    .mapFromUser 0x400000 0x2000] := ⟨_, rfl⟩
  have hrun : ((World.boot [0x10000, 0x11000] 0x1000).run ops).toOption.map
      (fun w => (w.mm.physPages 0x10000, w.mm.entry 0 0x401000, w.mm.pte 0 (slot 0x401000))) =
        some (some ⟨2, 1, [(0, 0x401000)]⟩, some ⟨0x10000, PF_SHARED⟩, some ⟨0x10000, true⟩) := by
    rw [hops]
    decide +kernel
  cases hw : (World.boot [0x10000, 0x11000] 0x1000).run ops with
  | error e =>
    rw [hw] at hrun
    cases hrun
  | ok w =>
    rw [hw] at hrun
    simp only [Except.toOption, Option.map_some, Option.some.injEq, Prod.mk.injEq] at hrun
    obtain ⟨hp, hpe, hpte⟩ := hrun
    have := h _ _ ops w (by decide) (by decide) hw _ _ hp (by decide) _ _ _ hpe rfl _ hpte
    cases this

end SadOS.Mm
