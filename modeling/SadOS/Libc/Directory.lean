import Mathlib.Data.List.Flatten
import SadOS.Libc.Cwd

/-!
# Following a path

A directory is a list of names, and the components of a path change it one after the
other.  `chdir` takes absolute paths as they are, and takes `.` and empty components for
names, so it gets right the paths without them and those where it fails.

## Main definitions

* `Directory`, `pathOf` — directories as lists of names, and their paths.
* `follow`, `resolve` — the directory that a path leads to.
* `Resolves` — `chdir` goes there, or fails and stays.
* `keeps`, `Straight` — the paths for which it does.
* `resolves_iff` — it does for no others.
-/

namespace SadOS.Libc

/-! ## Directories as names -/

def IsName (p : List UInt8) : Prop :=
  p ≠ [] ∧ p ≠ [dot] ∧ p ≠ [dot, dot] ∧ slash ∉ p

/-- A normalised absolute path, as its names. -/
structure Directory where
  names : List (List UInt8)
  isName : ∀ p ∈ names, IsName p

def pathOf (names : List (List UInt8)) : List UInt8 :=
  if names = [] then [slash] else names.flatMap (slash :: ·)

/-- One component of a path. -/
def follow (names : List (List UInt8)) (p : List UInt8) : Option (List (List UInt8)) :=
  if p = [] ∨ p = [dot] then some names
  else if p = [dot, dot] then if names = [] then none else some names.dropLast
  else some (names ++ [p])

/-- All components, from the directory `names` or from the root. -/
def resolve (names : List (List UInt8)) (path : List UInt8) : Option (List (List UInt8)) :=
  (path.splitOn slash).foldlM follow (if path.head? = some slash then [] else names)

/-- The path of a directory on the way has no place in a buffer. -/
def Overlong (names : List (List UInt8)) (ps : List (List UInt8)) : Prop :=
  ∃ n dir, (ps.take n).foldlM follow names = some dir ∧ PATH_MAX ≤ (pathOf dir).length

/-- `chdir` goes where the path leads.  It fails above the root, or where a directory has
no place, and stays where it is. -/
def Resolves (s : CwdBuffers) (d : Directory) (path : CString) : Prop :=
  ∃ s' ret, chdir s path.bytes = some (s', ret) ∧
    match ret with
    | .ok () => ∃ names, resolve d.names path.bytes = some names ∧
        s'.cwd.cstring 0 = some (pathOf names)
    | .error errno => s'.cwd.cstring 0 = s.cwd.cstring 0 ∧
        (errno = ENOENT ∧ resolve d.names path.bytes = none ∨
          errno = ENAMETOOLONG ∧ Overlong d.names (path.bytes.splitOn slash))

/-! ## Straight paths -/

/-- From a directory on, every component is a name, `..`, or empty at the root, unless
`..` at the root ends the loop, or a name without a place (`overlong`: there is one). -/
def keeps (overlong : Prop) : Prop → List (List UInt8) → List (List UInt8) → Prop
  | good, _, [] => good
  | good, dir, p :: ps =>
    if p = [dot, dot] then dir = [] ∨ keeps overlong good dir.dropLast ps
    else if p = [] ∧ dir = [] then keeps overlong good dir ps
    else if PATH_MAX < (pathOf dir).length + p.length then good ∨ overlong
    else (pathOf (dir ++ [p])).length < PATH_MAX ∧
      keeps overlong (good ∧ p ≠ [] ∧ p ≠ [dot]) (dir ++ [p]) ps

/-- An absolute path is that of a directory, a relative one is as above. -/
def Straight (d : Directory) (path : List UInt8) : Prop :=
  if path.head? = some slash then path.length < PATH_MAX ∧ ∃ d' : Directory, path = pathOf d'.names
  else keeps (Overlong d.names (path.splitOn slash)) True d.names (pieces path)

section pathOf

variable {dir names : List (List UInt8)} {p : List UInt8}

@[simp] theorem pathOf_nil : pathOf [] = [slash] := rfl

theorem pathOf_of_ne_nil (hne : names ≠ []) : pathOf names =
    names.flatMap (slash :: ·) := if_neg hne

theorem pathOf_append : pathOf (dir ++ [p]) = dir.flatMap (slash :: ·) ++ slash :: p := by
  rw [pathOf_of_ne_nil (by simp), List.flatMap_append, List.flatMap_singleton]

theorem head_pathOf : (pathOf names).head? = some slash := by
  cases names with
  | nil => rfl
  | cons p ps => rfl

/-- Only the root has a path of one character, unless a first name is empty. -/
theorem length_pathOf_eq_one (hhead : dir.head? ≠ some []) : (pathOf dir).length = 1 ↔
    dir = [] := by
  rcases dir with _ | ⟨_ | ⟨c, p⟩, ps⟩
  · simp
  · simp at hhead
  · simp [pathOf]

theorem pushText_pathOf (hhead : dir.head? ≠ some []) : pushText (pathOf dir) p =
    pathOf (dir ++ [p]) := by
  rw [pushText, pathOf_append]
  by_cases hnil : dir = []
  · subst hnil
    rfl
  · rw [if_neg fun hone => hnil ((length_pathOf_eq_one hhead).1 hone), pathOf_of_ne_nil hnil]

theorem popText_pathOf (hne : dir ≠ []) (hslash : ∀ p ∈ dir, slash ∉ p) :
    popText (pathOf dir) = pathOf dir.dropLast := by
  obtain ⟨front, p, rfl⟩ : ∃ front p, dir = front ++ [p] :=
    ⟨dir.dropLast, dir.getLast hne, (List.dropLast_concat_getLast hne).symm⟩
  rw [pathOf_append, popText_append (hslash p (by simp)), List.dropLast_concat, pathOf]
  cases front with
  | nil => rfl
  | cons q front => simp

theorem trimSlash_pathOf (hne : ∀ p ∈ names, p ≠ []) (hslash : ∀ p ∈ names, slash ∉ p) :
    trimSlash (pathOf names) = pathOf names := by
  rcases List.eq_nil_or_concat names with rfl | ⟨front, p, rfl⟩
  · rfl
  rw [List.concat_eq_append] at *
  have hp := hne p (by simp)
  have hlast : (pathOf (front ++ [p])).getLast? ≠ some slash := by
    rw [pathOf_append, List.getLast?_append_of_ne_nil _ (List.cons_ne_nil slash p)]
    intro hlast
    rw [List.getLast?_cons_of_ne_nil hp] at hlast
    exact hslash p (by simp) (List.mem_of_getLast? hlast)
  rw [trimSlash, if_neg fun h => hlast h.1]

theorem length_pathOf_le (h : names.Sublist dir) : (pathOf names).length ≤ (pathOf dir).length := by
  by_cases hdir : dir = []
  · subst hdir
    rw [List.sublist_nil.1 h]
  by_cases hnames : names = []
  · obtain ⟨p, ps, rfl⟩ := List.exists_cons_of_ne_nil hdir
    subst hnames
    rw [pathOf_of_ne_nil hdir, List.flatMap_cons, List.length_append, List.length_cons, pathOf_nil,
      List.length_singleton]
    omega
  · rw [pathOf_of_ne_nil hdir, pathOf_of_ne_nil hnames]
    exact (h.flatMap _).length_le

/-- The slashes of a path count its names. -/
theorem count_pathOf (hne : names ≠ []) (hslash : ∀ p ∈ names, slash ∉ p) :
    (pathOf names).count slash = names.length := by
  rw [pathOf_of_ne_nil hne]
  clear hne
  induction names with
  | nil => rfl
  | cons p ps ih =>
    rw [List.flatMap_cons, List.count_append, List.count_cons_self,
      List.count_eq_zero_of_not_mem (hslash p (by simp)), ih fun q hq => hslash q (by simp [hq]),
      List.length_cons]
    omega

/-- A directory with fewer names has another path. -/
theorem pathOf_ne (hsub : names.Sublist dir) (hlen : names.length < dir.length)
    (hhead : dir.head? ≠ some []) (hslash : ∀ p ∈ dir, slash ∉ p) : pathOf names ≠ pathOf dir := by
  intro heq
  have hdir : dir ≠ [] := fun hnil => by simp [hnil] at hlen
  by_cases hnames : names = []
  · subst hnames
    exact hdir ((length_pathOf_eq_one hhead).1 (by rw [← heq]; rfl))
  · have hcount := congrArg (List.count slash) heq
    rw [count_pathOf hdir hslash, count_pathOf hnames fun p hp =>
      hslash p (hsub.subset hp)] at hcount
    omega

end pathOf

/-! ## The directory meant beside the one in the buffer -/

/-- The directory that components lead to, unless the path has left the root above. -/
def leads (st : Option (List (List UInt8))) (ps : List (List UInt8)) : Option (List (List UInt8)) :=
  st.bind fun names => ps.foldlM follow names

/-- The result of a walk is the one meant. -/
def Meant (st : Option (List (List UInt8))) (ps : List (List UInt8)) :
    Option (Except ℕ (List UInt8)) → Prop
  | none => False
  | some (.ok t) => ∃ names, leads st ps = some names ∧ t = pathOf names
  | some (.error errno) => errno = ENOENT ∧ leads st ps = none ∨
      errno = ENAMETOOLONG ∧ ∃ names, st = some names ∧ Overlong names ps

/-- The directory meant is the one in the buffer, or has fewer names. -/
structure Tracks (good : Prop) (st : Option (List (List UInt8))) (dir : List (List UInt8)) :
    Prop where
  same : good → st = some dir
  fewer : ¬good → ∀ names, st = some names → names.length < dir.length
  sublist : ∀ names, st = some names → names.Sublist dir
  head : dir.head? ≠ some []
  noSlash : ∀ p ∈ dir, slash ∉ p
  fits : (pathOf dir).length < PATH_MAX

section follow

variable {names dir : List (List UInt8)} {st : Option (List (List UInt8))} {good overlong : Prop}
  {p : List UInt8} {ps : List (List UInt8)}

theorem follow_dots (hne : names ≠ []) : follow names [dot, dot] = some names.dropLast := by
  rw [follow, if_neg (by decide), if_pos rfl, if_neg hne]

theorem follow_same (hp : p = [] ∨ p = [dot]) : follow names p = some names := if_pos hp

theorem follow_name (hp : ¬(p = [] ∨ p = [dot])) (hdots : p ≠ [dot, dot]) :
    follow names p = some (names ++ [p]) := by
  rw [follow, if_neg hp, if_neg hdots]

theorem leads_cons : leads st (p :: ps) = leads (st.bind (follow · p)) ps := by
  rw [leads, leads, Option.bind_assoc]
  rfl

theorem overlong_cons : Overlong names (p :: ps) ↔
    PATH_MAX ≤ (pathOf names).length ∨ ∃ dir, follow names p = some dir ∧ Overlong dir ps := by
  constructor
  · rintro ⟨_ | n, dir, hdir, hlen⟩
    · cases hdir
      exact .inl hlen
    · rw [List.take_succ_cons, List.foldlM_cons] at hdir
      obtain ⟨dir', hdir', hrest⟩ := Option.bind_eq_some_iff.1 hdir
      exact .inr ⟨dir', hdir', n, dir, hrest, hlen⟩
  · rintro (hlen | ⟨dir, hdir, n, dir', hdir', hlen⟩)
    · exact ⟨0, names, rfl, hlen⟩
    · refine ⟨n + 1, dir', ?_, hlen⟩
      rw [List.take_succ_cons, List.foldlM_cons, hdir]
      exact hdir'

namespace Tracks

theorem fits_meant (h : Tracks good st dir) (hst : st = some names) :
    (pathOf names).length < PATH_MAX :=
  (length_pathOf_le (h.sublist names hst)).trans_lt h.fits

theorem overlong_iff (h : Tracks good st dir) :
    (∃ names, st = some names ∧ Overlong names (p :: ps)) ↔
      ∃ names, st.bind (follow · p) = some names ∧ Overlong names ps := by
  constructor
  · rintro ⟨names, hst, hover⟩
    rcases overlong_cons.1 hover with hlen | ⟨dir', hdir', hrest⟩
    · exact absurd (h.fits_meant hst) (Nat.not_lt.2 hlen)
    · exact ⟨dir', by rw [hst]; exact hdir', hrest⟩
  · rintro ⟨dir', hdir', hrest⟩
    obtain ⟨names, hst, hfollow⟩ := Option.bind_eq_some_iff.1 hdir'
    exact ⟨names, hst, overlong_cons.2 (.inr ⟨dir', hfollow, hrest⟩)⟩

theorem meant_cons (h : Tracks good st dir) (r : Option (Except ℕ (List UInt8))) :
    Meant st (p :: ps) r ↔ Meant (st.bind (follow · p)) ps r := by
  rcases r with _ | errno | t
  · exact Iff.rfl
  · rw [Meant, Meant, leads_cons, h.overlong_iff]
  · rw [Meant, Meant, leads_cons]

theorem pop (h : Tracks good st dir) (hne : dir ≠ []) :
    Tracks good (st.bind (follow · [dot, dot])) dir.dropLast := by
  have hmeant {names : List (List UInt8)} (hst : st.bind (follow · [dot, dot]) = some names) :
      ∃ names', st = some names' ∧ names' ≠ [] ∧ names = names'.dropLast := by
    obtain ⟨names', hnames', hfollow⟩ := Option.bind_eq_some_iff.1 hst
    by_cases hnil : names' = []
    · subst hnil
      cases hfollow
    · rw [follow_dots hnil] at hfollow
      cases hfollow
      exact ⟨names', hnames', hnil, rfl⟩
  constructor
  case same =>
    intro hgood
    rw [h.same hgood]
    exact follow_dots hne
  case fewer =>
    intro hgood names hst
    obtain ⟨names', hst', hnil, rfl⟩ := hmeant hst
    have hlen := h.fewer hgood names' hst'
    have hpos := List.length_pos_iff.2 hnil
    rw [List.length_dropLast, List.length_dropLast]
    omega
  case sublist =>
    intro names hst
    obtain ⟨names', hst', -, rfl⟩ := hmeant hst
    have hsub := h.sublist names' hst'
    obtain ⟨front, q, rfl⟩ : ∃ front q, dir = front ++ [q] :=
      ⟨dir.dropLast, dir.getLast hne, (List.dropLast_concat_getLast hne).symm⟩
    rw [List.dropLast_concat]
    rcases List.eq_nil_or_concat names' with rfl | ⟨front', q', rfl⟩
    · exact List.nil_sublist _
    rw [List.concat_eq_append] at *
    rw [List.dropLast_concat]
    have hrev : (q' :: front'.reverse).Sublist (q :: front.reverse) := by simpa using hsub.reverse
    have htail := hrev.tail
    rw [List.tail_cons, List.tail_cons] at htail
    exact List.reverse_sublist.1 htail
  case head =>
    rw [List.head?_dropLast]
    split
    · exact h.head
    · exact Option.some_ne_none _ |>.symm
  case noSlash => exact fun q hq => h.noSlash q (List.dropLast_subset dir hq)
  case fits => exact (length_pathOf_le (List.dropLast_sublist dir)).trans_lt h.fits

theorem push (h : Tracks good st dir) (hdots : p ≠ [dot, dot]) (hroot : ¬(p = [] ∧ dir = []))
    (hslash : slash ∉ p) (hfit : (pathOf (dir ++ [p])).length < PATH_MAX) :
    Tracks (good ∧ p ≠ [] ∧ p ≠ [dot]) (st.bind (follow · p)) (dir ++ [p]) := by
  constructor
  case same =>
    rintro ⟨hgood, hnil, hdot⟩
    rw [h.same hgood]
    exact follow_name (fun hp => hp.elim hnil hdot) hdots
  case fewer =>
    intro hbad names hst
    obtain ⟨names', hst', hfollow⟩ := Option.bind_eq_some_iff.1 hst
    rw [List.length_append, List.length_singleton]
    by_cases hp : p = [] ∨ p = [dot]
    · rw [follow_same hp] at hfollow
      cases hfollow
      exact Nat.lt_succ_of_le (h.sublist names hst').length_le
    · have hgood : ¬good := fun hgood => hbad ⟨hgood, not_or.1 hp⟩
      rw [follow_name hp hdots] at hfollow
      cases hfollow
      rw [List.length_append, List.length_singleton]
      exact Nat.succ_lt_succ (h.fewer hgood names' hst')
  case sublist =>
    intro names hst
    obtain ⟨names', hst', hfollow⟩ := Option.bind_eq_some_iff.1 hst
    by_cases hp : p = [] ∨ p = [dot]
    · rw [follow_same hp] at hfollow
      cases hfollow
      exact (h.sublist names hst').trans (List.sublist_append_left _ _)
    · rw [follow_name hp hdots] at hfollow
      cases hfollow
      exact (h.sublist names' hst').append (List.Sublist.refl _)
  case head =>
    cases dir with
    | nil => simpa using hroot
    | cons q dir => exact h.head
  case noSlash =>
    intro q hq
    rcases List.mem_append.1 hq with hq | hq
    · exact h.noSlash q hq
    · rw [List.mem_singleton.1 hq]
      exact hslash
  case fits => exact hfit

end Tracks

/-- **The paths for which the walk has the result meant.** -/
theorem walk_meant_iff (h : Tracks good st dir) (hps : ∀ p ∈ ps, slash ∉ p)
    (hover : overlong ↔ ∃ names, st = some names ∧ Overlong names ps) :
    Meant st ps (walk (pathOf dir) ps) ↔ keeps overlong good dir ps := by
  induction ps generalizing good st dir with
  | nil =>
    rw [walk, keeps, Meant]
    constructor
    · rintro ⟨names, hnames, hpath⟩
      by_contra hbad
      have hst : st = some names := by simpa [leads] using hnames
      exact pathOf_ne (h.sublist names hst) (h.fewer hbad names hst) h.head h.noSlash hpath.symm
    · intro hgood
      exact ⟨dir, by rw [h.same hgood]; rfl, rfl⟩
  | cons p ps ih =>
    have hps' : ∀ q ∈ ps, slash ∉ q := fun q hq => hps q (List.mem_cons_of_mem p hq)
    have hover' := hover.trans h.overlong_iff
    rw [walk, keeps]
    by_cases hdots : p = [dot, dot]
    · subst hdots
      rw [if_pos rfl, if_pos rfl]
      by_cases hroot : dir = []
      · subst hroot
        rw [pathOf_nil, List.length_singleton, if_pos rfl]
        refine iff_of_true (.inl ⟨rfl, ?_⟩) (.inl rfl)
        cases hst : st with
        | none => rfl
        | some names =>
          rw [List.sublist_nil.1 (h.sublist names hst)]
          rfl
      · rw [if_neg fun hone => hroot ((length_pathOf_eq_one h.head).1 hone), h.meant_cons,
          popText_pathOf hroot h.noSlash, ih (h.pop hroot) hps' hover', or_iff_right hroot]
    rw [if_neg hdots, if_neg hdots]
    by_cases hroot : p = [] ∧ dir = []
    · obtain ⟨rfl, rfl⟩ := hroot
      have hsame : st.bind (follow · []) = st := by
        cases st <;> rfl
      rw [hsame] at hover'
      rw [if_neg (by decide), if_pos (by decide), if_pos ⟨rfl, rfl⟩, h.meant_cons, hsame]
      exact ih h hps' hover'
    rw [if_neg hroot]
    have hpath : (pathOf dir).length + p.length ≤ (pathOf (dir ++ [p])).length := by
      rw [← pushText_pathOf h.head, pushText]
      split
      · rw [List.length_append]
      · rw [List.length_append, List.length_cons]
        omega
    by_cases hlong : PATH_MAX < (pathOf dir).length + p.length
    · rw [if_pos hlong, if_pos hlong, Meant, ← hover]
      have hover_of_good : good → overlong := by
        intro hgood
        have hname : ¬(p = [] ∨ p = [dot]) := by
          have hfits := h.fits
          rintro (rfl | rfl)
          · rw [List.length_nil] at hlong
            omega
          · rw [List.length_singleton] at hlong
            omega
        refine hover.2 ⟨dir, h.same hgood, overlong_cons.2 (.inr ⟨_, follow_name hname hdots, ?_⟩)⟩
        exact ⟨0, _, rfl, by omega⟩
      constructor
      · rintro (⟨herr, -⟩ | ⟨-, hmeant⟩)
        · exact absurd herr (by decide)
        · exact .inr hmeant
      · rintro (hgood | hmeant)
        · exact .inr ⟨rfl, hover_of_good hgood⟩
        · exact .inr ⟨rfl, hmeant⟩
    rw [if_neg hlong, if_neg hlong, pushText_pathOf h.head]
    by_cases hfit : (pathOf (dir ++ [p])).length < PATH_MAX
    · rw [if_pos hfit, and_iff_right hfit, h.meant_cons]
      exact ih (h.push hdots hroot (hps p List.mem_cons_self) hfit) hps' hover'
    · rw [if_neg hfit]
      exact iff_of_false id fun hkeeps => hfit hkeeps.1

end follow

/-! ## Components -/

section components

variable {names dir : List (List UInt8)} {st : Option (List (List UInt8))} {ps : List (List UInt8)}

/-- Nothing behind a slash at the end, where there is an empty component. -/
theorem splitOn_eq_pieces (path : List UInt8) :
    path.splitOn slash = pieces path ∨ path.splitOn slash = pieces path ++ [[]] := by
  induction path with
  | nil => exact .inr rfl
  | cons c rest ih =>
    rw [List.splitOn_cons_eq_if_modifyHead, pieces]
    by_cases hc : c = slash
    · rw [if_pos (beq_iff_eq.2 hc), if_pos hc]
      exact ih.imp (congrArg _) (congrArg _)
    · rw [if_neg (fun heq => hc (beq_iff_eq.1 heq)), if_neg hc]
      cases hps : pieces rest with
      | nil =>
        rw [hps] at ih
        have hsplit := ih.resolve_left (List.splitOn_ne_nil _ _)
        rw [hsplit]
        exact .inl rfl
      | cons p ps =>
        rw [hps] at ih
        rcases ih with hsplit | hsplit <;> rw [hsplit]
        · exact .inl rfl
        · exact .inr rfl

theorem not_mem_splitOn (path : List UInt8) : ∀ p ∈ path.splitOn slash, slash ∉ p := by
  induction path with
  | nil => simp
  | cons c rest ih =>
    rw [List.splitOn_cons_eq_if_modifyHead]
    by_cases hc : c = slash
    · rw [if_pos (beq_iff_eq.2 hc)]
      exact List.forall_mem_cons.2 ⟨List.not_mem_nil, ih⟩
    · rw [if_neg fun heq => hc (beq_iff_eq.1 heq)]
      obtain ⟨p, ps, hps⟩ := List.exists_cons_of_ne_nil (List.splitOn_ne_nil slash rest)
      rw [hps] at ih ⊢
      rw [List.modifyHead_cons]
      rw [List.forall_mem_cons] at ih ⊢
      exact ⟨List.not_mem_cons_of_ne_of_not_mem (Ne.symm hc) ih.1, ih.2⟩

theorem not_mem_pieces {path p : List UInt8} (hp : p ∈ pieces path) : slash ∉ p := by
  refine not_mem_splitOn path p ?_
  rcases splitOn_eq_pieces path with hsplit | hsplit <;> rw [hsplit]
  · exact hp
  · exact List.mem_append_left _ hp

theorem leads_append_nil : leads st (ps ++ [[]]) = leads st ps := by
  have hfollow : (fun names : List (List UInt8) => List.foldlM follow names [[]]) = some := by
    funext names
    rfl
  have hfold (names : List (List UInt8)) :
      (ps ++ [[]]).foldlM follow names = ps.foldlM follow names := by
    rw [List.foldlM_append, hfollow]
    exact Option.bind_fun_some _
  rw [leads, leads]
  simp only [hfold]

theorem overlong_append_nil : Overlong names (ps ++ [[]]) ↔ Overlong names ps := by
  constructor
  · rintro ⟨n, dir, hdir, hlen⟩
    by_cases hn : n ≤ ps.length
    · rw [List.take_append_of_le_length hn] at hdir
      exact ⟨n, dir, hdir, hlen⟩
    · rw [List.take_of_length_le (by simp; omega)] at hdir
      have hsame : leads (some names) (ps ++ [[]]) = leads (some names) ps := leads_append_nil
      refine ⟨ps.length, dir, ?_, hlen⟩
      rw [List.take_length]
      exact hsame.symm.trans hdir
  · rintro ⟨n, dir, hdir, hlen⟩
    refine ⟨min n ps.length, dir, ?_, hlen⟩
    rw [List.take_append_of_le_length (Nat.min_le_right _ _), ← List.take_take, List.take_length]
    exact hdir

/-- The loop reads the components of a path. -/
theorem leads_splitOn (path : List UInt8) : leads st (path.splitOn slash) =
    leads st (pieces path) := by
  rcases splitOn_eq_pieces path with hsplit | hsplit <;> rw [hsplit]
  exact leads_append_nil

theorem overlong_splitOn (path : List UInt8) :
    Overlong names (path.splitOn slash) ↔ Overlong names (pieces path) := by
  rcases splitOn_eq_pieces path with hsplit | hsplit <;> rw [hsplit]
  exact overlong_append_nil

/-- Names are appended. -/
theorem foldlM_follow_names (h : ∀ p ∈ names, IsName p) :
    names.foldlM follow dir = some (dir ++ names) := by
  induction names generalizing dir with
  | nil => rw [List.append_nil]; rfl
  | cons p ps ih =>
    obtain ⟨hnil, hdot, hdots, -⟩ := h p List.mem_cons_self
    rw [List.foldlM_cons, follow_name (fun hp => hp.elim hnil hdot) hdots]
    have hrest : ps.foldlM follow (dir ++ [p]) = some (dir ++ [p] ++ ps) :=
      ih fun q hq => h q (List.mem_cons_of_mem p hq)
    rw [List.append_assoc] at hrest
    exact hrest

theorem foldlM_follow_isName (hps : ∀ p ∈ ps, slash ∉ p) (hdir : ∀ p ∈ dir, IsName p)
    (h : ps.foldlM follow dir = some names) : ∀ p ∈ names, IsName p := by
  induction ps generalizing dir with
  | nil =>
    cases h
    exact hdir
  | cons p ps ih =>
    rw [List.foldlM_cons] at h
    obtain ⟨dir', hfollow, hrest⟩ := Option.bind_eq_some_iff.1 h
    refine ih (fun q hq => hps q (List.mem_cons_of_mem p hq)) ?_ hrest
    rw [follow] at hfollow
    split_ifs at hfollow with hsame hdots hroot
    · cases hfollow
      exact hdir
    · cases hfollow
      exact fun q hq => hdir q (List.dropLast_subset dir hq)
    · cases hfollow
      intro q hq
      rcases List.mem_append.1 hq with hq | hq
      · exact hdir q hq
      · rw [List.mem_singleton.1 hq]
        rw [not_or] at hsame
        exact ⟨hsame.1, hsame.2, hdots, hps p List.mem_cons_self⟩

theorem intercalate_cons (q : List UInt8) (names : List (List UInt8)) :
    [slash].intercalate (q :: names) = q ++ names.flatMap (slash :: ·) := by
  induction names generalizing q with
  | nil => simp
  | cons p ps ih => rw [List.intercalate_cons_cons, ih, List.flatMap_cons]; simp

/-- A normalised path leads to its directory. -/
theorem resolve_pathOf (d : Directory) : resolve dir (pathOf d.names) = some d.names := by
  rw [resolve, if_pos head_pathOf]
  by_cases hnil : d.names = []
  · rw [hnil]
    decide
  · have hsplit : (pathOf d.names).splitOn slash = [] :: d.names := by
      have hpath := intercalate_cons [] d.names
      rw [List.nil_append, ← pathOf_of_ne_nil hnil] at hpath
      rw [← hpath]
      refine List.splitOn_intercalate slash ?_ (List.cons_ne_nil _ _)
      exact List.forall_mem_cons.2 ⟨List.not_mem_nil, fun p hp => (d.isName p hp).2.2.2⟩
    rw [hsplit, List.foldlM_cons, follow_same (.inl rfl)]
    exact foldlM_follow_names d.isName

end components

/-! ## `chdir` -/

section chdir

variable {s : CwdBuffers} {d : Directory}

theorem tracks_self (h : IsCwd s (pathOf d.names)) : Tracks True (some d.names) d.names where
  same _ := rfl
  fewer hbad := absurd trivial hbad
  sublist names hnames := by
    cases hnames
    exact List.Sublist.refl _
  head hhead := (d.isName [] (List.mem_of_mem_head? hhead)).1 rfl
  noSlash p hp := (d.isName p hp).2.2.2
  fits := h.text.length_lt

/-- `chdir` resolves a relative path where the walk has the result meant. -/
theorem resolves_iff_meant (h : IsCwd s (pathOf d.names)) {path : CString}
    (hrel : path.bytes.head? ≠ some slash) :
    Resolves s d path ↔
      Meant (some d.names) (pieces path.bytes) (walk (pathOf d.names) (pieces path.bytes)) := by
  have htext : chdirText (pathOf d.names) path.bytes =
    walk (pathOf d.names) (pieces path.bytes) := by
    rw [chdirText, if_neg hrel]
    split
    · rename_i hnil
      rw [hnil]
      rfl
    · rw [trimSlash_pathOf (fun p hp => (d.isName p hp).1) fun p hp => (d.isName p hp).2.2.2]
  have hresolve : resolve d.names path.bytes = leads (some d.names) (pieces path.bytes) := by
    rw [← leads_splitOn, resolve, if_neg hrel]
    rfl
  have hchdir := chdir_text h path.noNul
  rw [htext] at hchdir
  rw [Resolves, hresolve]
  simp only [overlong_splitOn]
  cases hwalk : walk (pathOf d.names) (pieces path.bytes) with
  | none =>
    rw [hwalk] at hchdir
    exact iff_of_false (by rintro ⟨s', ret, hs', -⟩; rw [hchdir] at hs'; cases hs') id
  | some r =>
    rw [hwalk] at hchdir
    cases r with
    | error errno =>
      obtain ⟨s', hs', h'⟩ := hchdir
      rw [hs', Meant]
      have hsame : s'.cwd.cstring 0 = s.cwd.cstring 0 := h'.text.cstring.trans h.text.cstring.symm
      simp [hsame]
    | ok t' =>
      obtain ⟨s', hs', h'⟩ := hchdir
      rw [hs', Meant]
      have hcwd := h'.text.cstring
      simp [hcwd]

/-- Absolute paths are taken as they are. -/
theorem resolves_iff_absolute (h : IsCwd s (pathOf d.names)) {path : CString}
    (habs : path.bytes.head? = some slash) :
    Resolves s d path ↔
      path.bytes.length < PATH_MAX ∧ ∃ d' : Directory, path.bytes = pathOf d'.names := by
  have hchdir := chdir_text h path.noNul
  rw [chdirText, if_pos habs] at hchdir
  by_cases hlen : path.bytes.length < PATH_MAX
  · rw [if_pos hlen] at hchdir
    obtain ⟨s', hs', h'⟩ := hchdir
    rw [and_iff_right hlen]
    constructor
    · rintro ⟨s₁, ret, hs₁, hret⟩
      rw [hs'] at hs₁
      cases hs₁
      obtain ⟨names, hnames, hcwd⟩ := hret
      rw [resolve, if_pos habs] at hnames
      have hisName := foldlM_follow_isName (not_mem_splitOn path.bytes) (by simp) hnames
      rw [h'.text.cstring] at hcwd
      exact ⟨⟨names, hisName⟩, Option.some.inj hcwd⟩
    · rintro ⟨d', hd'⟩
      refine ⟨s', .ok (), hs', d'.names, ?_, ?_⟩
      · rw [hd']
        exact resolve_pathOf d'
      · rw [← hd']
        exact h'.text.cstring
  · rw [if_neg hlen] at hchdir
    refine iff_of_false ?_ fun hpath => hlen hpath.1
    rintro ⟨s', ret, hs', -⟩
    rw [hchdir] at hs'
    cases hs'

/-- **The paths that `chdir` resolves.** -/
theorem resolves_iff (d : Directory) (h : IsCwd s (pathOf d.names)) (path : CString) :
    Resolves s d path ↔ Straight d path.bytes := by
  rw [Straight]
  by_cases habs : path.bytes.head? = some slash
  · rw [if_pos habs]
    exact resolves_iff_absolute h habs
  · rw [if_neg habs, resolves_iff_meant h habs]
    refine walk_meant_iff (tracks_self h) (fun p hp => not_mem_pieces hp) ?_
    rw [overlong_splitOn]
    simp

/-- The root, in the buffers of the first program. -/
def Directory.root : Directory := ⟨[], by simp⟩

/-- From the root to `a`. -/
theorem resolves_iff_name :
    Resolves rootCwd .root ⟨[97], by simp⟩ ↔ Straight .root [97] :=
  resolves_iff .root isCwd_root _

/-- From the root, `.` leads to the root, and `chdir` makes `/.` of it. -/
theorem not_resolves_dot : ¬Resolves rootCwd .root ⟨[dot], by simp [dot]⟩ := by
  rintro ⟨s', ret, hs', hret⟩
  have hpath : ∀ x ∈ [dot], x ≠ 0 := by simp [dot]
  have hchdir := chdir_text isCwd_root hpath
  have htext : chdirText [slash] [dot] = some (.ok [slash, dot]) := by decide
  rw [htext] at hchdir
  obtain ⟨s₁, hs₁, h₁⟩ := hchdir
  rw [hs₁] at hs'
  cases hs'
  obtain ⟨names, hnames, hcwd⟩ := hret
  have hroot : resolve Directory.root.names [dot] = some [] := by decide
  rw [hroot] at hnames
  cases hnames
  rw [h₁.text.cstring] at hcwd
  exact absurd hcwd (by decide)

end chdir

end SadOS.Libc
