import SadOS.Lib.TableTree
import Mathlib.Data.List.Flatten
import Mathlib.Data.List.Pairwise
import Mathlib.Data.List.Nodup

/-!
# The tables under a table, each after the tables it refers to

The levels of a tree of tables are counted from below, level `0` having no tables under
it.  Of a table of level `n + 1` only the first `width n` words are looked at.

## Main definitions

* `postorder` — the tables under a table, and that table last.
* `Within` — the paths that the walk takes.

## Main results

* `mem_postorder` — the tables are those that the paths lead to.
* `nodup_postorder` — in a tree each comes once.
* `sublist_postorder` — a table comes after those under it.
-/

namespace SadOS.TableTree

variable {W : Type} {next : W → Option ℕ} {m m' : ℕ → ℕ → W} {width : ℕ → ℕ} {n t f g : ℕ}
  {p q : List ℕ}

/-- The tables under `t` and then `t`, which is of level `n`. -/
def postorder (next : W → Option ℕ) (m : ℕ → ℕ → W) (width : ℕ → ℕ) : ℕ → ℕ → List ℕ
  | 0, t => [t]
  | n + 1, t =>
    (List.range (width n)).flatMap (fun i => (next (m t i)).elim [] (postorder next m width n)) ++ [t]

/-- The tables under the words `i` of `t`, for `i` in `is`. -/
def underWords (next : W → Option ℕ) (m : ℕ → ℕ → W) (width : ℕ → ℕ) (n t : ℕ) (is : List ℕ) :
    List ℕ :=
  is.flatMap fun i => (next (m t i)).elim [] (postorder next m width n)

theorem postorder_succ :
    postorder next m width (n + 1) t =
      underWords next m width n t (List.range (width n)) ++ [t] := rfl

@[simp] theorem underWords_nil : underWords next m width n t [] = [] := rfl

theorem underWords_cons (i : ℕ) (is : List ℕ) :
    underWords next m width n t (i :: is) =
      (next (m t i)).elim [] (postorder next m width n) ++ underWords next m width n t is := rfl

/-- A path of indices from a table of level `n`. -/
def Within (width : ℕ → ℕ) : ℕ → List ℕ → Prop
  | _, [] => True
  | 0, _ :: _ => False
  | n + 1, i :: rest => i < width n ∧ Within width n rest

@[simp] theorem within_nil : Within width n [] := by
  cases n <;> trivial

@[simp] theorem within_cons {i : ℕ} : Within width (n + 1) (i :: p) ↔ i < width n ∧ Within width n p :=
  Iff.rfl

theorem mem_underWords {is : List ℕ} :
    g ∈ underWords next m width n t is ↔
      ∃ i ∈ is, ∃ t', next (m t i) = some t' ∧ g ∈ postorder next m width n t' := by
  rw [underWords, List.mem_flatMap]
  constructor
  · rintro ⟨i, hi, hg⟩
    cases ht' : next (m t i) with
    | none => simp [ht'] at hg
    | some t' => exact ⟨i, hi, t', ht', by simpa [ht'] using hg⟩
  · rintro ⟨i, hi, t', ht', hg⟩
    exact ⟨i, hi, by simpa [ht'] using hg⟩

/-- The tables are those that the paths lead to. -/
theorem mem_postorder :
    g ∈ postorder next m width n t ↔ ∃ p, Within width n p ∧ descend next m t p = some g := by
  induction n generalizing t with
  | zero =>
    rw [postorder, List.mem_singleton]
    constructor
    · rintro rfl
      exact ⟨[], within_nil, rfl⟩
    · rintro ⟨p, hp, hd⟩
      cases p with
      | nil => exact (Option.some.inj hd).symm
      | cons i rest => exact hp.elim
  | succ n ih =>
    rw [postorder_succ, List.mem_append, mem_underWords, List.mem_singleton]
    constructor
    · rintro (⟨i, hi, t', ht', hg⟩ | rfl)
      · obtain ⟨p, hp, hd⟩ := ih.1 hg
        exact ⟨i :: p, ⟨List.mem_range.1 hi, hp⟩, by rw [descend_cons, ht']; exact hd⟩
      · exact ⟨[], within_nil, rfl⟩
    · rintro ⟨p, hp, hd⟩
      cases p with
      | nil => exact .inr (Option.some.inj hd).symm
      | cons i rest =>
        rw [descend_cons, Option.bind_eq_some_iff] at hd
        obtain ⟨t', ht', hd⟩ := hd
        exact .inl ⟨i, List.mem_range.2 hp.1, t', ht', ih.2 ⟨rest, hp.2, hd⟩⟩

theorem self_mem_postorder : t ∈ postorder next m width n t :=
  mem_postorder.2 ⟨[], within_nil, rfl⟩

/-- In a tree every table comes once. -/
theorem nodup_postorder (htree : IsTree next (Within width n) m t) :
    (postorder next m width n t).Nodup := by
  induction n generalizing t with
  | zero => exact List.nodup_singleton t
  | succ n ih =>
    have hpath : ∀ {i t'}, i < width n → next (m t i) = some t' → ∀ {p g}, Within width n p →
        descend next m t' p = some g →
        Within width (n + 1) (i :: p) ∧ descend next m t (i :: p) = some g := by
      intro i t' hi ht' p g hp hd
      exact ⟨⟨hi, hp⟩, by rw [descend_cons, ht']; exact hd⟩
    rw [postorder_succ, List.nodup_append]
    refine ⟨?_, List.nodup_singleton t, ?_⟩
    · rw [underWords, List.nodup_flatMap]
      constructor
      · intro i hi
        cases ht' : next (m t i) with
        | none => exact List.nodup_nil
        | some t' =>
          apply ih
          intro p q f hp hq hf hf'
          have hi' := List.mem_range.1 hi
          have h₁ := hpath hi' ht' hp hf
          have h₂ := hpath hi' ht' hq hf'
          exact (List.cons.inj (htree _ _ f h₁.1 h₂.1 h₁.2 h₂.2)).2
      · -- tables under different words are reached by different paths
        apply List.Pairwise.imp_of_mem _ List.nodup_range
        intro i j hi hj hij g hgi hgj
        dsimp only at hgi hgj
        cases hti : next (m t i) with
        | none => simp [hti] at hgi
        | some ti =>
          cases htj : next (m t j) with
          | none => simp [htj] at hgj
          | some tj =>
            rw [hti, Option.elim_some, mem_postorder] at hgi
            rw [htj, Option.elim_some, mem_postorder] at hgj
            obtain ⟨p, hp, hd⟩ := hgi
            obtain ⟨q, hq, hd'⟩ := hgj
            have h₁ := hpath (List.mem_range.1 hi) hti hp hd
            have h₂ := hpath (List.mem_range.1 hj) htj hq hd'
            exact hij (List.cons.inj (htree _ _ g h₁.1 h₂.1 h₁.2 h₂.2)).1
    · intro g hg g' hg' hgg
      rw [List.mem_singleton] at hg'
      subst hg' hgg
      obtain ⟨i, hi, t', ht', hg⟩ := mem_underWords.1 hg
      obtain ⟨p, hp, hd⟩ := mem_postorder.1 hg
      have h₁ := hpath (List.mem_range.1 hi) ht' hp hd
      exact absurd (htree _ [] g h₁.1 within_nil h₁.2 rfl) (by simp)

/-- A table comes after those under it. -/
theorem sublist_postorder (hq : q ≠ []) (hpq : Within width n (p ++ q))
    (hf : descend next m t p = some f) (hg : descend next m f q = some g) :
    [g, f].Sublist (postorder next m width n t) := by
  induction p generalizing n t with
  | nil =>
    obtain rfl : t = f := Option.some.inj hf
    cases q with
    | nil => exact absurd rfl hq
    | cons i rest =>
      cases n with
      | zero => exact hpq.elim
      | succ n =>
        rw [descend_cons, Option.bind_eq_some_iff] at hg
        obtain ⟨t', ht', hg⟩ := hg
        have hmem : g ∈ underWords next m width n t (List.range (width n)) :=
          mem_underWords.2 ⟨i, List.mem_range.2 hpq.1, t', ht', mem_postorder.2 ⟨rest, hpq.2, hg⟩⟩
        exact (List.singleton_sublist.2 hmem).append (List.Sublist.refl [t])
  | cons i rest ih =>
    cases n with
    | zero => exact hpq.elim
    | succ n =>
      rw [descend_cons, Option.bind_eq_some_iff] at hf
      obtain ⟨t', ht', hf⟩ := hf
      have hsub := ih hpq.2 hf
      have hword : (postorder next m width n t').Sublist
          (underWords next m width n t (List.range (width n))) := by
        have hmem := List.mem_map_of_mem (f := fun i => (next (m t i)).elim []
          (postorder next m width n)) (List.mem_range.2 hpq.1)
        rw [underWords, List.flatMap_def]
        simpa [ht'] using List.sublist_flatten_of_mem hmem
      exact (hsub.trans hword).trans (List.sublist_append_left _ _)

end SadOS.TableTree
