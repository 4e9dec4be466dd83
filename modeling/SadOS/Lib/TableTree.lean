import Mathlib.Data.List.Infix
import Mathlib.Logic.Function.Basic

/-!
# Trees of tables

A table is a row of words, and some words refer to a table of the next level.  A path of
indices leads from a root to a table, and a walk goes along a path until it meets a word
that refers to no table.  In a tree no two paths lead to one table, so that a write to a
table changes what is under that table only.

## Main definitions

* `descend` — the table at the end of a path.
* `walk` — the last word of a walk.
* `IsTree` — no two paths lead to one table.
* `setWord`, `link` — a new word, and a new table under a word.

## Main results

* `descend_setWord`, `walk_setWord` — a write changes nothing beside the word.
* `IsTree.link`, `walk_link` — a new table keeps the tree, and changes no walk that ended
  elsewhere.
-/

namespace SadOS.TableTree

variable {W : Type}

/-- The table at the end of a path from the table `t`. -/
def descend (next : W → Option ℕ) (m : ℕ → ℕ → W) : ℕ → List ℕ → Option ℕ
  | t, [] => some t
  | t, i :: rest => (next (m t i)).bind fun t' => descend next m t' rest

/-- The word at which a walk along a path stops, and how many indices are left there. -/
def walk (next : W → Option ℕ) (m : ℕ → ℕ → W) : ℕ → List ℕ → Option (ℕ × W)
  | _, [] => none
  | t, [i] => some (0, m t i)
  | t, i :: j :: rest =>
    match next (m t i) with
    | some t' => walk next m t' (j :: rest)
    | none => some (rest.length + 1, m t i)

/-- No two paths that `ok` admits lead to one table. -/
def IsTree (next : W → Option ℕ) (ok : List ℕ → Prop) (m : ℕ → ℕ → W) (t : ℕ) : Prop :=
  ∀ p q f, ok p → ok q → descend next m t p = some f → descend next m t q = some f → p = q

/-- No path leads to the table `n`. -/
def Unused (next : W → Option ℕ) (ok : List ℕ → Prop) (m : ℕ → ℕ → W) (t n : ℕ) : Prop :=
  ∀ p, ok p → descend next m t p ≠ some n

/-- A new word in a table. -/
def setWord (m : ℕ → ℕ → W) (f i : ℕ) (e : W) : ℕ → ℕ → W :=
  Function.update m f (Function.update (m f) i e)

/-- A new word, and the table `n` filled with one word. -/
def link (m : ℕ → ℕ → W) (f i : ℕ) (e : W) (n : ℕ) (z : W) : ℕ → ℕ → W :=
  Function.update (setWord m f i e) n fun _ => z

theorem setWord_apply (m : ℕ → ℕ → W) (f i : ℕ) (e : W) (g j : ℕ) :
    setWord m f i e g j = if g = f ∧ j = i then e else m g j := by
  by_cases hg : g = f
  · subst hg
    by_cases hj : j = i <;> simp [setWord, hj]
  · simp [setWord, hg]

@[simp] theorem setWord_self (m : ℕ → ℕ → W) (f i : ℕ) (e : W) : setWord m f i e f i = e := by
  simp [setWord_apply]

theorem setWord_of_ne {m : ℕ → ℕ → W} {f i : ℕ} {e : W} {g j : ℕ} (h : ¬(g = f ∧ j = i)) :
    setWord m f i e g j = m g j := by
  rw [setWord_apply, if_neg h]

section Paths

variable {next : W → Option ℕ} {m m' : ℕ → ℕ → W} {t f : ℕ}

@[simp] theorem descend_nil : descend next m t [] = some t := rfl

theorem descend_cons (i : ℕ) (rest : List ℕ) :
    descend next m t (i :: rest) = (next (m t i)).bind fun t' => descend next m t' rest := rfl

theorem descend_append (p q : List ℕ) :
    descend next m t (p ++ q) = (descend next m t p).bind fun f => descend next m f q := by
  induction p generalizing t with
  | nil => rfl
  | cons i rest ih =>
    rw [List.cons_append, descend_cons, descend_cons, Option.bind_assoc]
    congr 1
    funext t'
    exact ih

/-- The last step of a path. -/
theorem descend_snoc {p : List ℕ} (hp : descend next m t p = some f) (i : ℕ) :
    descend next m t (p ++ [i]) = next (m f i) := by
  rw [descend_append, hp, Option.bind_some, descend_cons]
  cases next (m f i) <;> rfl

theorem walk_cons (i j : ℕ) (rest : List ℕ) :
    walk next m t (i :: j :: rest) =
      (next (m t i)).elim (some (rest.length + 1, m t i)) fun t' => walk next m t' (j :: rest) := by
  rw [walk]
  cases next (m t i) <;> rfl

/-- A walk along a path that leads to a table goes on there. -/
theorem walk_append {p : List ℕ} (hp : descend next m t p = some f) {q : List ℕ} (hq : q ≠ []) :
    walk next m t (p ++ q) = walk next m f q := by
  induction p generalizing t with
  | nil =>
    cases hp
    rfl
  | cons i rest ih =>
    rw [descend_cons, Option.bind_eq_some_iff] at hp
    obtain ⟨t', ht', hp⟩ := hp
    obtain ⟨j, rest', hj⟩ := List.exists_cons_of_ne_nil (l := rest ++ q) (by simp [hq])
    rw [List.cons_append, hj, walk_cons, ht', ← hj]
    exact ih hp

/-- Where a walk to a table ends. -/
theorem walk_of_descend {q : List ℕ} (hq : q ≠ []) (h : descend next m t q = some f) :
    ∃ e, walk next m t q = some (0, e) ∧ next e = some f := by
  obtain ⟨p, i, rfl⟩ := List.eq_nil_or_concat q |>.resolve_left hq
  rw [List.concat_eq_append, descend_append, Option.bind_eq_some_iff] at h
  obtain ⟨g, hg, h⟩ := h
  rw [List.concat_eq_append, walk_append hg (by simp)]
  refine ⟨m g i, rfl, ?_⟩
  simpa [descend_cons] using h

/-- A path leads to the same table if no word along it changes. -/
theorem descend_congr {q : List ℕ} (h : ∀ p i r, q = p ++ i :: r →
    ∀ f, descend next m t p = some f → m' f i = m f i) :
    descend next m' t q = descend next m t q := by
  induction q generalizing t with
  | nil => rfl
  | cons i rest ih =>
    rw [descend_cons, descend_cons, h [] i rest rfl t rfl]
    cases ht' : next (m t i) with
    | none => rfl
    | some t' =>
      refine ih fun p j r hr f hf => h (i :: p) j r (by rw [hr]; rfl) f ?_
      rw [descend_cons, ht']
      exact hf

theorem walk_congr {q : List ℕ} (h : ∀ p i r, q = p ++ i :: r →
    ∀ f, descend next m t p = some f → m' f i = m f i) :
    walk next m' t q = walk next m t q := by
  induction q generalizing t with
  | nil => rfl
  | cons i rest ih =>
    have hi := h [] i rest rfl t rfl
    cases rest with
    | nil => rw [walk, walk, hi]
    | cons j rest =>
      rw [walk_cons, walk_cons, hi]
      cases ht' : next (m t i) with
      | none => rfl
      | some t' =>
        refine ih fun p j r hr f hf => h (i :: p) j r (by rw [hr]; rfl) f ?_
        rw [descend_cons, ht']
        exact hf

end Paths

section Writes

variable {next : W → Option ℕ} {ok : List ℕ → Prop} {m : ℕ → ℕ → W} {t f i n : ℕ} {e z : W}
  {p q : List ℕ}

/-- A word that is written lies on the walks through it alone. -/
theorem off_path (htree : IsTree next ok m t) (hp : ok p) (hf : descend next m t p = some f)
    (hq : ∀ p' j r, q = p' ++ j :: r → ok p') (hnot : ¬(p ++ [i]) <+: q) {p' r : List ℕ} {j g : ℕ}
    (hsplit : q = p' ++ j :: r) (hg : descend next m t p' = some g) : ¬(g = f ∧ j = i) := by
  rintro ⟨rfl, rfl⟩
  obtain rfl := htree p p' g hp (hq p' j r hsplit) hf hg
  exact hnot ⟨r, by rw [hsplit]; simp⟩

/-- A write to a word changes no path beside it. -/
theorem descend_setWord (htree : IsTree next ok m t) (hp : ok p) (hf : descend next m t p = some f)
    (hq : ∀ p' j r, q = p' ++ j :: r → ok p') (hnot : ¬(p ++ [i]) <+: q) :
    descend next (setWord m f i e) t q = descend next m t q :=
  descend_congr fun _ _ _ hsplit _ hg => setWord_of_ne (off_path htree hp hf hq hnot hsplit hg)

theorem walk_setWord (htree : IsTree next ok m t) (hp : ok p) (hf : descend next m t p = some f)
    (hq : ∀ p' j r, q = p' ++ j :: r → ok p') (hnot : ¬(p ++ [i]) <+: q) :
    walk next (setWord m f i e) t q = walk next m t q :=
  walk_congr fun _ _ _ hsplit _ hg => setWord_of_ne (off_path htree hp hf hq hnot hsplit hg)

/-- The path through a word that is written. -/
theorem descend_setWord_through (htree : IsTree next ok m t) (hp : ok p)
    (hpre : ∀ p' j r, p = p' ++ j :: r → ok p') (hf : descend next m t p = some f) :
    descend next (setWord m f i e) t (p ++ [i]) = next e := by
  have hp' : descend next (setWord m f i e) t p = some f := by
    rw [descend_setWord htree hp hf hpre fun hlong => absurd hlong.length_le (by simp)]
    exact hf
  rw [descend_snoc hp', setWord_self]

/-- A new table: its frame was unused, and the word above it referred to no table. -/
structure Fresh (next : W → Option ℕ) (ok : List ℕ → Prop) (m : ℕ → ℕ → W) (t : ℕ) (p : List ℕ)
    (f i : ℕ) (e : W) (n : ℕ) (z : W) : Prop where
  tree : IsTree next ok m t
  prefixes : ∀ p q, ok (p ++ q) → ok p
  path : ok (p ++ [i])
  table : descend next m t p = some f
  empty : next (m f i) = none
  refers : next e = some n
  clear : next z = none
  unused : Unused next ok m t n

namespace Fresh

variable (h : Fresh next ok m t p f i e n z)

include h

theorem ok_path : ok p :=
  h.prefixes p [i] h.path

theorem ne : n ≠ f := by
  rintro rfl
  exact h.unused p h.ok_path h.table

/-- A word of a table that a path beside the new one goes through. -/
theorem link_of_off (hq : ∀ p' j r, q = p' ++ j :: r → ok p') (hnot : ¬(p ++ [i]) <+: q)
    {p' r : List ℕ} {j g : ℕ} (hsplit : q = p' ++ j :: r) (hg : descend next m t p' = some g) :
    link m f i e n z g j = m g j := by
  have hgn : g ≠ n := by
    rintro rfl
    exact h.unused p' (hq p' j r hsplit) hg
  rw [link, Function.update_of_ne hgn]
  exact setWord_of_ne (off_path h.tree h.ok_path h.table hq hnot hsplit hg)

theorem descend_off (hq : ok q) (hnot : ¬(p ++ [i]) <+: q) :
    descend next (link m f i e n z) t q = descend next m t q :=
  descend_congr fun _ _ _ hsplit _ hg =>
    h.link_of_off (fun p' _ _ hs => h.prefixes p' _ (hs ▸ hq)) hnot hsplit hg

/-- The path to the new table. -/
theorem descend_new : descend next (link m f i e n z) t (p ++ [i]) = some n := by
  have hp : descend next (link m f i e n z) t p = some f := by
    rw [h.descend_off h.ok_path fun hpre => absurd hpre.length_le (by simp)]
    exact h.table
  rw [descend_snoc hp, link, Function.update_of_ne h.ne.symm, setWord_self]
  exact h.refers

/-- Nothing is under the new table. -/
theorem descend_under (j : ℕ) (r : List ℕ) :
    descend next (link m f i e n z) t (p ++ [i] ++ j :: r) = none := by
  rw [descend_append, h.descend_new, Option.bind_some, descend_cons, link, Function.update_self,
    h.clear]
  rfl

/-- Where a path leads now. -/
theorem descend_cases (hq : ok q) {g : ℕ} (hg : descend next (link m f i e n z) t q = some g) :
    (q = p ++ [i] ∧ g = n) ∨ descend next m t q = some g := by
  by_cases hpre : (p ++ [i]) <+: q
  · obtain ⟨r, rfl⟩ := hpre
    cases r with
    | nil =>
      rw [List.append_nil, h.descend_new, Option.some.injEq] at hg
      exact .inl ⟨List.append_nil _, hg.symm⟩
    | cons j r =>
      rw [h.descend_under] at hg
      cases hg
  · exact .inr (h.descend_off hq hpre ▸ hg)

/-- A new table keeps the tree. -/
theorem isTree : IsTree next ok (link m f i e n z) t := by
  intro p₁ p₂ g h₁ h₂ hg₁ hg₂
  rcases h.descend_cases h₁ hg₁ with ⟨rfl, rfl⟩ | hold₁ <;>
    rcases h.descend_cases h₂ hg₂ with ⟨rfl, hn⟩ | hold₂
  · rfl
  · exact absurd hold₂ (h.unused p₂ h₂)
  · exact absurd (hn ▸ hold₁) (h.unused p₁ h₁)
  · exact h.tree p₁ p₂ g h₁ h₂ hold₁ hold₂

/-- Another frame that was unused still is. -/
theorem unused_of_ne {n' : ℕ} (hn : n' ≠ n) (hold : Unused next ok m t n') :
    Unused next ok (link m f i e n z) t n' := by
  intro q hq hg
  rcases h.descend_cases hq hg with ⟨-, rfl⟩ | hbefore
  · exact hn rfl
  · exact hold q hq hbefore

/-- A walk beside the new table. -/
theorem walk_off (hq : ∀ p' j r, q = p' ++ j :: r → ok p') (hnot : ¬(p ++ [i]) <+: q) :
    walk next (link m f i e n z) t q = walk next m t q :=
  walk_congr fun _ _ _ hsplit _ hg => h.link_of_off hq hnot hsplit hg

/-- A walk through the new table stopped above it before, and stops in it now. -/
theorem walk_under (j : ℕ) (r : List ℕ) :
    walk next m t (p ++ [i] ++ j :: r) = some (r.length + 1, m f i) ∧
      walk next (link m f i e n z) t (p ++ [i] ++ j :: r) = some (r.length, z) := by
  constructor
  · rw [List.append_assoc, walk_append h.table (by simp)]
    simp [walk_cons, h.empty]
  · rw [walk_append h.descend_new (by simp)]
    cases r with
    | nil => simp [walk, link]
    | cons j' r => simp [walk_cons, link, h.clear]

end Fresh

end Writes

end SadOS.TableTree
