import SadOS.Fs.TarIndex

/-!
# Listing a directory of the archive

`open_tarfs_dir` and `read_tarfs_dir` of `bin/fs/tarfs.c`.  The end of a directory is an empty
slot of `d_subdirs`, for which there is no place once all slots are used.

## Main definitions

* `openTarfsDir`, `readTarfsDir` — the source.
* `ListsAll` — calls that return every member once, and then nothing.
* `childrenOf` — the members of a directory.
* `Filled` — the members of every directory are in its slots.

## Main results

* `tarfsInit_filled` — `tarfs_init` fills the slots.
* `listsAll_tarfs_iff` — when a directory is listed.
-/

namespace SadOS.Fs

/-! ## The source -/

/-- `open_tarfs_dir`. -/
def openTarfsDir (entry : List TarDentry) (dirPath : List UInt8) : Option DentryReader :=
  (getFileIndex entry dirPath).map fun i => ⟨i, 0, 0⟩

/-- `read_tarfs_dir`; slots that are not there are faults. -/
def readTarfsDir (entry : List TarDentry) (reader : DentryReader) :
    Option (Option ℕ × DentryReader) := do
  let dentry ← entry[reader.dentry]?
  let slot ← if 0 ≤ reader.offset then dentry.subdirs[reader.offset.toNat]? else none
  match slot with
  | none => return (none, reader)
  | some k => return (some k, { reader with offset := reader.offset + 1 })

/-! ## Repeated calls -/

section calls

variable {σ α : Type} {f : σ → Option (Option α × σ)}

/-- What `n` calls of `f` return. -/
def calls (f : σ → Option (Option α × σ)) : ℕ → σ → Option (List (Option α) × σ)
  | 0, s => some ([], s)
  | n + 1, s => do
    let (r, s) ← f s
    let (rest, s) ← calls f n s
    return (r :: rest, s)

/-- Calls that return every member once, and then nothing. -/
def ListsAll (f : σ → Option (Option α × σ)) (s : σ) (members : List α) : Prop :=
  ∃ (rs : List α) (s' : σ), calls f (members.length + 1) s = some (rs.map some ++ [none], s') ∧ rs.Perm members

/-- The calls, from the states between them. -/
theorem calls_eq (st : ℕ → σ) (l : List α) {i : ℕ}
    (hsome : ∀ j (hj : j < l.length), f (st (i + j)) = some (some l[j], st (i + j + 1)))
    {r : Option (Option α × σ)} (hlast : f (st (i + l.length)) = r) :
    calls f (l.length + 1) (st i) = r.map fun r => (l.map some ++ [r.1], r.2) := by
  induction l generalizing i with
  | nil =>
    rw [List.length_nil, Nat.add_zero] at hlast
    rw [List.length_nil, calls, hlast]
    cases r <;> rfl
  | cons x l ih =>
    have hfirst := hsome 0 (Nat.succ_pos _)
    have hrest := ih (i := i + 1)
      (fun j hj => by
        have hnext := hsome (j + 1) (Nat.succ_lt_succ hj)
        rwa [← Nat.add_assoc, Nat.add_right_comm] at hnext)
      (by rwa [Nat.add_right_comm, Nat.add_assoc])
    rw [List.length_cons, calls, ← Nat.add_zero i, hfirst, Option.bind_eq_bind, Option.bind_some]
    dsimp only
    rw [Nat.add_zero, hrest]
    cases r <;> rfl

end calls

/-! ## Slots -/

section slots

variable {ks : List ℕ}

theorem getElem?_slots_of_lt {j : ℕ} (hj : j < ks.length) :
    (slots ks)[j]? = some (some ks[j]) := by
  rw [slots, List.getElem?_append_left (by rwa [List.length_map]), List.getElem?_map,
    List.getElem?_eq_getElem hj]
  rfl

/-- The slot behind the used ones is empty, or not there. -/
theorem getElem?_slots_length (hlen : ks.length ≤ subdirCount) :
    (slots ks)[ks.length]? = if ks.length < subdirCount then some none else none := by
  rw [slots, List.getElem?_append_right (by rw [List.length_map]), List.length_map, Nat.sub_self,
    List.getElem?_replicate]
  exact if_congr (by omega) rfl rfl

/-- A new member, when there may be no empty slot. -/
theorem fillSlot_take (ks : List ℕ) (k : ℕ) :
    fillSlot k (slots (ks.take subdirCount)) = slots ((ks ++ [k]).take subdirCount) := by
  rcases Nat.lt_or_ge ks.length subdirCount with hlt | hge
  · rw [List.take_of_length_le hlt.le, fillSlot_slots hlt, List.take_of_length_le]
    rw [List.length_append, List.length_singleton]
    exact hlt
  · have hfull : ∀ ks : List ℕ, fillSlot k (ks.map some) = ks.map some := by
      intro ks
      induction ks with
      | nil => rfl
      | cons x ks ih => exact congrArg (some x :: ·) ih
    have hlen : (ks.take subdirCount).length = subdirCount := List.length_take_of_le hge
    rw [List.take_append_of_le_length hge, slots, hlen, Nat.sub_self, List.replicate_zero,
      List.append_nil, hfull]

end slots

/-! ## Directories -/

section filled

variable {entry entry' : List TarDentry} {parents : List (Option ℕ)}

/-- The entries whose parent is `k`. -/
def childrenOf (parents : List (Option ℕ)) (k : ℕ) : List ℕ :=
  (List.range parents.length).filter fun j => parents[j]? = some (some k)

theorem childrenOf_concat (parents : List (Option ℕ)) (p : Option ℕ) (k : ℕ) :
    childrenOf (parents ++ [p]) k =
      childrenOf parents k ++ if p = some k then [parents.length] else [] := by
  have hold : (List.range parents.length).filter (fun j => (parents ++ [p])[j]? = some (some k)) =
      childrenOf parents k := by
    refine List.filter_congr fun j hj => ?_
    rw [List.getElem?_append_left (List.mem_range.1 hj)]
  rw [childrenOf, List.length_append, List.length_singleton, List.range_succ, List.filter_append, hold,
    List.filter_singleton, List.getElem?_append_right le_rfl, Nat.sub_self,
    List.getElem?_cons_zero]
  by_cases hp : p = some k <;> simp [hp]

/-- Parents are entries, and have their members in their slots, as far as there are slots. -/
structure Filled (entry : List TarDentry) : Prop where
  parent : ∀ p, some p ∈ entry.map TarDentry.parent → p < entry.length
  subdirs : ∀ k d, entry[k]? = some d →
    d.subdirs = slots ((childrenOf (entry.map TarDentry.parent) k).take subdirCount)

/-- The entries once one is added behind them, seen from each of them. -/
theorem nodeInit_cases {parent : Option ℕ} {iname : List UInt8}
    (h : nodeInit entry parent iname = some entry') :
    entry'.map TarDentry.parent = entry.map TarDentry.parent ++ [parent] ∧
      ∀ k d', entry'[k]? = some d' →
        (∃ d, entry[k]? = some d ∧ d'.subdirs =
          if parent = some k then fillSlot entry.length d.subdirs else d.subdirs) ∨
        (k = entry.length ∧ d'.subdirs = slots []) := by
  cases parent with
  | none =>
    rw [nodeInit] at h
    split at h
    case isFalse => cases h
    case isTrue =>
    obtain rfl := Option.some.inj h
    refine ⟨List.map_append, fun k d' hk => ?_⟩
    rcases Nat.lt_or_ge k entry.length with hlt | hge
    · rw [List.getElem?_append_left hlt] at hk
      exact .inl ⟨d', hk, (if_neg (Option.some_ne_none k).symm).symm⟩
    · rw [List.getElem?_append_right hge, List.getElem?_singleton] at hk
      split at hk
      · obtain rfl := Option.some.inj hk
        exact .inr ⟨by omega, rfl⟩
      · cases hk
  | some q =>
    have hmap := map_modify_of_eq (g := TarDentry.parent)
      (f := fun d => { d with subdirs := fillSlot entry.length d.subdirs }) (fun _ => rfl) entry q
    obtain rfl := nodeInit_eq h
    refine ⟨by rw [List.map_append, hmap]; rfl, fun k d' hk => ?_⟩
    rcases Nat.lt_or_ge k entry.length with hlt | hge
    · rw [List.getElem?_append_left (by rwa [List.length_modify]), List.getElem?_modify] at hk
      obtain ⟨d, hd, rfl⟩ := Option.map_eq_some_iff.1 hk
      refine .inl ⟨d, hd, ?_⟩
      by_cases hq : q = k
      · rw [if_pos hq, if_pos (congrArg some hq)]
      · rw [if_neg hq, if_neg fun heq => hq (Option.some.inj heq)]
    · rw [List.getElem?_append_right (by rwa [List.length_modify]), List.length_modify,
        List.getElem?_singleton] at hk
      split at hk
      · obtain rfl := Option.some.inj hk
        exact .inr ⟨by omega, rfl⟩
      · cases hk

theorem childrenOf_eq_nil {k : ℕ} (h : ∀ p, some p ∈ parents → p < k) : childrenOf parents k = [] := by
  refine List.filter_eq_nil_iff.2 fun j _ heq => ?_
  exact (h k (List.mem_of_getElem? (of_decide_eq_true heq))).ne rfl

theorem Filled.nodeInit (h : Filled entry) {parent : Option ℕ}
    (hparent : ∀ p, parent = some p → p < entry.length) {iname : List UInt8}
    (hentry : nodeInit entry parent iname = some entry') : Filled entry' := by
  obtain ⟨hparents, hcases⟩ := nodeInit_cases hentry
  have hlen : entry'.length = entry.length + 1 := by
    have hlen := congrArg List.length hparents
    rwa [List.length_map, List.length_append, List.length_map] at hlen
  have hlt : ∀ p, some p ∈ entry.map TarDentry.parent ++ [parent] → p < entry.length := by
    intro p hp
    rcases List.mem_append.1 hp with hp | hp
    · exact h.parent p hp
    · exact hparent p (List.mem_singleton.1 hp).symm
  constructor
  · intro p hp
    rw [hparents] at hp
    rw [hlen]
    exact (hlt p hp).trans (Nat.lt_succ_self _)
  · intro k d' hk
    rw [hparents, childrenOf_concat]
    rcases hcases k d' hk with ⟨d, hd, hsub⟩ | ⟨rfl, hsub⟩
    · rw [hsub, h.subdirs k d hd]
      by_cases hp : parent = some k
      · rw [if_pos hp, if_pos hp, List.length_map, fillSlot_take]
      · rw [if_neg hp, if_neg hp, List.append_nil]
    · have hne : parent ≠ some entry.length := fun heq => (hparent _ heq).ne rfl
      rw [hsub, childrenOf_eq_nil fun p hp => h.parent p hp, if_neg hne]
      rfl

theorem getParent_lt {name : List UInt8} {parent : Option ℕ}
    (h : getParent entry name = some parent) {p : ℕ} (hp : parent = some p) : p < entry.length := by
  obtain ⟨dir, -, hdir⟩ := Option.bind_eq_some_iff.1 h
  obtain ⟨hlt, -⟩ := List.findIdx?_eq_some_iff_getElem.1 ((Option.some.inj hdir).trans hp)
  exact hlt

theorem addHeader_filled {header : ℤ} {s : Tarfs} (h : Filled s.entry) {r : ℤ × Tarfs}
    (hr : addHeader header s = some r) : Filled r.2.entry := by
  rw [addHeader] at hr
  obtain ⟨m, -, hr⟩ := Option.bind_eq_some_iff.1 hr
  obtain ⟨size, -, hr⟩ := Option.bind_eq_some_iff.1 hr
  obtain ⟨name, -, hr⟩ := Option.bind_eq_some_iff.1 hr
  obtain ⟨parent, hparent, hr⟩ := Option.bind_eq_some_iff.1 hr
  obtain ⟨entry, hentry, hr⟩ := Option.bind_eq_some_iff.1 hr
  obtain rfl := Option.some.inj hr
  exact h.nodeInit (fun p hp => getParent_lt hparent hp) hentry

/-- The loop fills the slots. -/
theorem initLoop_filled {stop header : ℤ} {room : ℕ} {s t : Tarfs} (h : Filled s.entry)
    (ht : initLoop stop room header s = some t) : Filled t.entry := by
  induction room generalizing header s with
  | zero =>
    rw [initLoop] at ht
    obtain ⟨done, -, ht⟩ := Option.bind_eq_some_iff.1 ht
    split at ht
    · obtain rfl := Option.some.inj ht
      exact h
    · cases ht
  | succ room ih =>
    rw [initLoop] at ht
    obtain ⟨done, -, ht⟩ := Option.bind_eq_some_iff.1 ht
    split at ht
    · obtain rfl := Option.some.inj ht
      exact h
    · obtain ⟨r, hr, ht⟩ := Option.bind_eq_some_iff.1 ht
      exact ih (addHeader_filled h hr) ht

/-- `tarfs_init` fills the slots of every directory. -/
theorem tarfsInit_filled {a : Archive} {t : Tarfs} (h : tarfsInit a = some t) : Filled t.entry := by
  refine initLoop_filled ⟨fun p hp => ?_, fun k d hk => ?_⟩ h
  · cases List.mem_singleton.1 hp
  · rw [Archive.start, List.getElem?_singleton] at hk
    split at hk
    case isFalse => cases hk
    case isTrue hzero =>
    obtain rfl := Option.some.inj hk
    subst hzero
    rfl

/-- A directory is listed exactly if it has less members than slots. -/
theorem listsAll_tarfs_iff (h : Filled entry) {dirPath : List UInt8} {reader : DentryReader}
    (hopen : openTarfsDir entry dirPath = some reader)
    (hlen : (childrenOf (entry.map TarDentry.parent) reader.dentry).length ≤ subdirCount) :
    ListsAll (readTarfsDir entry) reader (childrenOf (entry.map TarDentry.parent) reader.dentry) ↔
      (childrenOf (entry.map TarDentry.parent) reader.dentry).length < subdirCount := by
  obtain ⟨k, hk, rfl⟩ := Option.map_eq_some_iff.1 hopen
  obtain ⟨hklt, -⟩ := List.findIdx?_eq_some_iff_getElem.1 hk
  have hd : entry[k]? = some entry[k] := List.getElem?_eq_getElem hklt
  have hsub := h.subdirs k _ hd
  rw [List.take_of_length_le hlen] at hsub
  dsimp only at hlen ⊢
  generalize childrenOf (entry.map TarDentry.parent) k = ks at hlen hsub
  have hread : ∀ j : ℕ, readTarfsDir entry ⟨k, j, 0⟩ = (slots ks)[j]?.map fun slot =>
      (slot, if slot.isSome then ⟨k, ((j + 1 : ℕ) : ℤ), 0⟩ else ⟨k, j, 0⟩) := by
    intro j
    rw [readTarfsDir, hd, Option.bind_eq_bind, Option.bind_some, if_pos (Int.natCast_nonneg j), hsub,
      Int.toNat_natCast]
    cases (slots ks)[j]? with
    | none => rfl
    | some slot => cases slot <;> rfl
  have hcalls := calls_eq (f := readTarfsDir entry) (fun j => ⟨k, ((j : ℕ) : ℤ), 0⟩) ks (i := 0)
    (fun j hj => by
      rw [hread, Nat.zero_add, getElem?_slots_of_lt hj]
      rfl) rfl
  rw [hread, Nat.zero_add, getElem?_slots_length hlen] at hcalls
  constructor
  · rintro ⟨rs, s', hrs, -⟩
    by_contra hge
    rw [if_neg hge] at hcalls
    cases hcalls.symm.trans hrs
  · intro hlt
    rw [if_pos hlt] at hcalls
    exact ⟨ks, _, hcalls, List.Perm.refl ks⟩

end filled

end SadOS.Fs
