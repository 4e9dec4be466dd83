import SadOS.Kernel.TallyRun

/-!
# The pools of objects

A pool gives out an object of its free list, or the next one that was never in use.  What
is on a free list is not in use, and on no other free list, so a new object is not one that
somebody has.  No function changes a free list but by `obj_pool_alloc`, `obj_pool_free` and
the pools of a new and of a killed task.

## Main definitions

* `PoolsOk` — the invariant.

## Main results

* `PoolsOk.alloc_fresh`, `PoolsOk.free` — the pools.
* `PoolsOk.step`, `poolsOk_run` — every step, and every run.
-/

namespace SadOS.Kernel

/-- The free lists hold objects that are not in use, each of them once. -/
structure PoolsOk (s : State) : Prop where
  dead : ∀ p l, s.pools p = some l → ∀ a ∈ l, s.objs a = none
  below : ∀ p l, s.pools p = some l → ∀ a ∈ l, a < s.nextObj
  nodup : ∀ p l, s.pools p = some l → l.Nodup
  apart : ∀ p p' l l', p ≠ p' → s.pools p = some l → s.pools p' = some l' → ∀ a ∈ l, a ∉ l'
  used : ∀ a o, s.objs a = some o → a < s.nextObj

namespace PoolsOk

variable {s s' : State}

/-- A state whose free lists are parts of the old ones. -/
theorem shrink (h : PoolsOk s)
    (hold : ∀ p l, s'.pools p = some l → l = [] ∨ ∃ l₀, s.pools p = some l₀ ∧ l.Sublist l₀)
    (hdead : ∀ p l, s'.pools p = some l → ∀ a ∈ l, s.objs a = none → s'.objs a = none)
    (hnext : s.nextObj ≤ s'.nextObj) (hused : ∀ a o, s'.objs a = some o → a < s'.nextObj) :
    PoolsOk s' where
  dead p l hl a ha := by
    rcases hold p l hl with rfl | ⟨l₀, hl₀, hsub⟩
    · cases ha
    · exact hdead p l hl a ha (h.dead p l₀ hl₀ a (hsub.subset ha))
  below p l hl a ha := by
    rcases hold p l hl with rfl | ⟨l₀, hl₀, hsub⟩
    · cases ha
    · exact (h.below p l₀ hl₀ a (hsub.subset ha)).trans_le hnext
  nodup p l hl := by
    rcases hold p l hl with rfl | ⟨l₀, hl₀, hsub⟩
    · exact List.nodup_nil
    · exact hsub.nodup (h.nodup p l₀ hl₀)
  apart p p' l l' hne hl hl' a ha ha' := by
    rcases hold p l hl with rfl | ⟨l₀, hl₀, hsub⟩
    · cases ha
    rcases hold p' l' hl' with rfl | ⟨l₀', hl₀', hsub'⟩
    · cases ha'
    · exact h.apart p p' l₀ l₀' hne hl₀ hl₀' a (hsub.subset ha) (hsub'.subset ha')
  used := hused

/-- A state with the same free lists and the same objects in use. -/
theorem same (h : PoolsOk s) (hobjs : ∀ a, s'.objs a = none ↔ s.objs a = none)
    (hpools : s'.pools = s.pools) (hnext : s'.nextObj = s.nextObj) : PoolsOk s' := by
  apply h.shrink
  · exact fun p l hl => .inr ⟨l, hpools ▸ hl, List.Sublist.refl l⟩
  · exact fun _ _ _ a _ ha => (hobjs a).2 ha
  · exact hnext.ge
  · intro a o ho
    cases hs : s.objs a with
    | none =>
      rw [(hobjs a).2 hs] at ho
      cases ho
    | some o' => exact hnext ▸ h.used a o' hs

/-! ## The pools -/

/-- The next object was never in use. -/
theorem next_fresh (h : PoolsOk s) : s.objs s.nextObj = none := by
  cases hs : s.objs s.nextObj with
  | none => rfl
  | some o => exact absurd (h.used _ o hs) (lt_irrefl _)

/-- After the first object of a free list is taken. -/
theorem take (h : PoolsOk s) {pool a : ℕ} {rest : List ℕ} (hpool : s.pools pool = some (a :: rest))
    (o : Obj) : PoolsOk { s with
      objs := Function.update s.objs a (some o)
      pools := Function.update s.pools pool (some rest) } := by
  have hnodup := List.nodup_cons.1 (h.nodup pool _ hpool)
  have hmem : a ∈ a :: rest := List.mem_cons_self
  have hold : ∀ p l, Function.update s.pools pool (some rest) p = some l →
      a ∉ l ∧ ∃ l₀, s.pools p = some l₀ ∧ l.Sublist l₀ := by
    intro p l hl
    by_cases hp : p = pool
    · subst hp
      rw [Function.update_self, Option.some.injEq] at hl
      subst hl
      exact ⟨hnodup.1, _, hpool, List.sublist_cons_self _ _⟩
    · rw [Function.update_of_ne hp] at hl
      exact ⟨h.apart pool p _ l (Ne.symm hp) hpool hl a hmem, l, hl, List.Sublist.refl l⟩
  apply h.shrink
  · exact fun p l hl => .inr (hold p l hl).2
  · intro p l hl b hb hnone
    have hne : b ≠ a := fun hba => (hold p l hl).1 (hba ▸ hb)
    dsimp only
    rwa [Function.update_of_ne hne]
  · exact le_refl _
  · intro b o' ho
    dsimp only at ho
    by_cases hb : b = a
    · exact hb ▸ h.below pool _ hpool a hmem
    · rw [Function.update_of_ne hb] at ho
      exact h.used b o' ho

/-- After the next object is taken. -/
theorem takeNext (h : PoolsOk s) (o : Obj) : PoolsOk { s with
    objs := Function.update s.objs s.nextObj (some o), nextObj := s.nextObj + 1 } := by
  apply h.shrink
  · exact fun p l hl => .inr ⟨l, hl, List.Sublist.refl l⟩
  · intro p l hl a ha hnone
    have hlt := h.below p l hl a ha
    dsimp only
    rwa [Function.update_of_ne hlt.ne]
  · exact Nat.le_succ _
  · intro a o' ho
    dsimp only at ho ⊢
    by_cases ha : a = s.nextObj
    · omega
    · rw [Function.update_of_ne ha] at ho
      exact (h.used a o' ho).trans (Nat.lt_succ_self _)

/-- The object that a pool gives out was not in use. -/
theorem alloc_fresh (h : PoolsOk s) (pool : ℕ) :
    Safely AnyFault (fun r => s.objs r.1 = none ∧ PoolsOk r.2) (s.alloc pool) := by
  rw [State.alloc]
  cases hpool : s.pools pool with
  | none => trivial
  | some l =>
    cases l with
    | nil => exact ⟨h.next_fresh, h.takeNext _⟩
    | cons a rest => exact ⟨h.dead pool _ hpool a List.mem_cons_self, h.take hpool _⟩

theorem alloc (h : PoolsOk s) (pool : ℕ) :
    Safely AnyFault (fun r => PoolsOk r.2) (s.alloc pool) :=
  (h.alloc_fresh pool).mono fun _ hr => hr.2

/-- The object that goes back was in use, so it is on no free list. -/
theorem free (h : PoolsOk s) (pool a : ℕ) : Safely AnyFault PoolsOk (s.free pool a) := by
  unfold State.free
  split
  · rename_i l o hl ho
    have hnot : ∀ p l', s.pools p = some l' → a ∉ l' := by
      intro p l' hl' ha
      rw [h.dead p l' hl' a ha] at ho
      cases ho
    have hold : ∀ p l', Function.update s.pools pool (some (a :: l)) p = some l' →
        p = pool ∧ l' = a :: l ∨ p ≠ pool ∧ s.pools p = some l' := by
      intro p l' hl'
      by_cases hp : p = pool
      · subst hp
        rw [Function.update_self, Option.some.injEq] at hl'
        exact .inl ⟨rfl, hl'.symm⟩
      · rw [Function.update_of_ne hp] at hl'
        exact .inr ⟨hp, hl'⟩
    constructor
    · intro p l' hl' b hb
      dsimp only
      by_cases hba : b = a
      · rw [hba, Function.update_self]
      · rw [Function.update_of_ne hba]
        rcases hold p l' hl' with ⟨rfl, rfl⟩ | ⟨-, hl'⟩
        · exact h.dead p l hl b ((List.mem_cons.1 hb).resolve_left hba)
        · exact h.dead p l' hl' b hb
    · intro p l' hl' b hb
      rcases hold p l' hl' with ⟨rfl, rfl⟩ | ⟨-, hl'⟩
      · rcases List.mem_cons.1 hb with rfl | hb
        · exact h.used b o ho
        · exact h.below p l hl b hb
      · exact h.below p l' hl' b hb
    · intro p l' hl'
      rcases hold p l' hl' with ⟨rfl, rfl⟩ | ⟨-, hl'⟩
      · exact List.nodup_cons.2 ⟨hnot p l hl, h.nodup p l hl⟩
      · exact h.nodup p l' hl'
    · intro p p' l₁ l₂ hne h₁ h₂ b hb hb'
      rcases hold p l₁ h₁ with ⟨rfl, rfl⟩ | ⟨-, hl₁⟩
      · rcases hold p' l₂ h₂ with ⟨rfl, -⟩ | ⟨-, hl₂⟩
        · exact hne rfl
        · rcases List.mem_cons.1 hb with rfl | hb
          · exact hnot p' l₂ hl₂ hb'
          · exact h.apart p p' l l₂ hne hl hl₂ b hb hb'
      · rcases hold p' l₂ h₂ with ⟨rfl, rfl⟩ | ⟨-, hl₂⟩
        · rcases List.mem_cons.1 hb' with rfl | hb'
          · exact hnot p l₁ hl₁ hb
          · exact h.apart p p' l₁ l hne hl₁ hl b hb hb'
        · exact h.apart p p' l₁ l₂ hne hl₁ hl₂ b hb hb'
    · intro b o' ho'
      dsimp only at ho' ⊢
      by_cases hba : b = a
      · exact hba ▸ h.used a o ho
      · rw [Function.update_of_ne hba] at ho'
        exact h.used b o' ho'
  · trivial

theorem poolCreate (h : PoolsOk s) : PoolsOk s.poolCreate.2 := by
  apply h.shrink
  · intro p l hl
    change Function.update s.pools s.nextPool (some []) p = some l at hl
    by_cases hp : p = s.nextPool
    · subst hp
      rw [Function.update_self, Option.some.injEq] at hl
      exact .inl hl.symm
    · rw [Function.update_of_ne hp] at hl
      exact .inr ⟨l, hl, List.Sublist.refl l⟩
  · exact fun _ _ _ _ _ hnone => hnone
  · exact le_refl _
  · exact h.used

theorem poolDestroy (h : PoolsOk s) (pool : ℕ) : PoolsOk (s.poolDestroy pool) := by
  apply h.shrink
  · intro p l hl
    change Function.update s.pools pool none p = some l at hl
    by_cases hp : p = pool
    · subst hp
      rw [Function.update_self] at hl
      cases hl
    · rw [Function.update_of_ne hp] at hl
      exact .inr ⟨l, hl, List.Sublist.refl l⟩
  · intro p l _ a _ hnone
    simp [State.poolDestroy, hnone]
  · exact le_refl _
  · intro a o ho
    exact h.used a o (Option.filter_eq_some_iff.1 ho).1

/-! ## Writes -/

theorem setBody (h : PoolsOk s) (a : ℕ) (b : Body) : PoolsOk (s.setBody a b) := by
  refine h.same (fun a' => ?_) rfl rfl
  by_cases ha : a' = a
  · rw [ha, State.setBody_self, Option.map_eq_none_iff]
  · rw [State.setBody_of_ne _ ha]

theorem setMm (h : PoolsOk s) (m : Mm.State) : PoolsOk (s.setMm m) :=
  h.same (fun _ => Iff.rfl) rfl rfl

/-- The pools do not depend on the counter. -/
def tally : Tally where
  Holds _ := PoolsOk
  same h _ hobjs := PoolsOk.same h fun a => by rw [hobjs]
  setBody := PoolsOk.setBody
  setMm h _ := PoolsOk.setMm h _
  alloc := PoolsOk.alloc
  free := PoolsOk.free
  poolCreate := PoolsOk.poolCreate
  poolDestroy := PoolsOk.poolDestroy

/-! ## Runs -/

/-- Every step keeps the pools in order. -/
theorem step (h : PoolsOk s) (a : Action) : Safely AnyFault PoolsOk (step s a) :=
  (Tally.Holds.step (T := tally) h a).mono fun _ h' => h'.choose_spec.1

end PoolsOk

theorem poolsOk_boot (mm : Mm.State) (as : ℕ) (junk inport : ℕ → ℕ) (tarfs : ℕ × ℕ) :
    PoolsOk (boot mm as junk inport tarfs) := by
  have hbare : PoolsOk (bare mm junk inport tarfs) := by
    constructor <;> simp [bare]
  have hnew : PoolsOk (newProcess (bare mm junk inport tarfs) as).2 :=
    Tally.Holds.newProcess (T := PoolsOk.tally) (d := 0) hbare as
  unfold boot
  dsimp only
  split
  · exact hnew.same (fun _ => Iff.rfl) rfl rfl
  · exact hnew.same (fun _ => Iff.rfl) rfl rfl

/-- The pools are in order in every state that is reached. -/
theorem poolsOk_run (mm : Mm.State) (as : ℕ) (junk inport : ℕ → ℕ) (tarfs : ℕ × ℕ)
    {l : List Action} {s : State} (hs : run (boot mm as junk inport tarfs) l = .ok s) :
    PoolsOk s :=
  (safely_foldlM (fun _ => PoolsOk) (poolsOk_boot mm as junk inport tarfs)
    fun a _ _ h => h.step a).of_ok hs

end SadOS.Kernel
