import SadOS.Lib.Outcome
import SadOS.Libc.Cwd

/-!
# The buffers of the working directory

Which calls of `chdir` and `getcwd` stay in the buffers.  The length of a name is tested
one or two characters too late, the length of an absolute path is not tested, and `getcwd`
does not count the zero behind the directory.

## Main definitions

* `CwdCall.step` — a call, which fails when it leaves a buffer.
* `Fits` — the calls that stay in the buffers, from a directory on.
* `calls_stay_inside` — over whole runs, these and no others do.
-/

namespace SadOS.Libc

/-! ## Calls -/

/-- A call.  The buffer of `getcwd` has `size` bytes. -/
inductive CwdCall
  | chdir (path : CString)
  | getcwd (size : ℕ) (bytes : ℤ → UInt8)

/-- A call, or an error when it leaves a buffer. -/
def CwdCall.step (s : CwdBuffers) : CwdCall → Except Unit CwdBuffers
  | chdir path =>
    match Libc.chdir s path.bytes with
    | none => .error ()
    | some (s', _) => .ok s'
  | getcwd size bytes =>
    match Libc.getcwd s (some ⟨0, size, bytes⟩) size with
    | none => .error ()
    | some _ => .ok s

/-- Every name that is let through fits with its slash and a zero behind it. -/
def namesFit (t : List UInt8) : List (List UInt8) → Prop
  | [] => True
  | p :: ps =>
    if p = [dot, dot] then t.length = 1 ∨ namesFit (popText t) ps
    else PATH_MAX < t.length + p.length ∨
      (pushText t p).length < PATH_MAX ∧ namesFit (pushText t p) ps

/-- A call that stays in the buffers, from the directory `t`. -/
def Fits (t : List UInt8) : CwdCall → Prop
  | .chdir path =>
    if path.bytes.head? = some slash then path.bytes.length < PATH_MAX
    else namesFit (trimSlash t) (pieces path.bytes)
  | .getcwd size _ => size = 0 ∨ size ≠ t.length

/-- The same, from the directory in the buffer. -/
def CallFits (s : CwdBuffers) (c : CwdCall) : Prop := ∀ t, s.cwd.cstring 0 = some t → Fits t c

section buffers

variable {s : CwdBuffers} {t : List UInt8} {ps : List (List UInt8)}

theorem walk_eq_none_iff : walk t ps = none ↔ ¬namesFit t ps := by
  induction ps generalizing t with
  | nil => simp [walk, namesFit]
  | cons p ps ih =>
    rw [walk, namesFit]
    by_cases hdots : p = [dot, dot]
    · rw [if_pos hdots, if_pos hdots]
      by_cases hroot : t.length = 1
      · simp [hroot]
      · simp [hroot, ih]
    · rw [if_neg hdots, if_neg hdots]
      by_cases hlong : PATH_MAX < t.length + p.length
      · simp [hlong]
      · by_cases hfit : (pushText t p).length < PATH_MAX
        · simp [hlong, hfit, ih]
        · simp [hlong, hfit]

theorem chdirText_eq_none_iff {path : CString} :
    chdirText t path.bytes = none ↔ ¬Fits t (.chdir path) := by
  rw [chdirText, Fits]
  by_cases habs : path.bytes.head? = some slash
  · rw [if_pos habs, if_pos habs]
    split <;> simp_all
  · rw [if_neg habs, if_neg habs]
    by_cases hnil : path.bytes = []
    · simp [hnil, pieces, namesFit]
    · rw [if_neg hnil, walk_eq_none_iff]

/-- A copy of the directory and its zero must fit. -/
theorem getcwd_eq_none_iff (h : IsCwd s t) (size : ℕ) (bytes : ℤ → UInt8) :
    getcwd s (some ⟨0, size, bytes⟩) size = none ↔ ¬Fits t (.getcwd size bytes) := by
  rw [getcwd, h.text.cstring, Fits]
  simp only [Option.bind_eq_bind, Option.bind_some]
  by_cases hzero : size = 0
  · simp [hzero]
  rw [if_neg hzero]
  by_cases hlt : size < t.length
  · rw [if_pos hlt]
    simp [hlt.ne]
  rw [if_neg hlt]
  rw [strcpy_eq (length_lt_int h.text.length_lt)]
  by_cases heq : size = t.length
  · have hnone : ByteMem.storeAll ⟨0, size, bytes⟩ 0 (t ++ [0]) = none := by
      refine Option.eq_none_iff_forall_ne_some.2 fun m' hm' => ?_
      have hend := ByteMem.end_le_of_storeAll hm' (by simp)
      rw [List.length_append, List.length_singleton, heq] at hend
      push_cast at hend
      omega
    rw [hnone]
    exact iff_of_true rfl fun hfits => hfits.elim hzero fun hne => hne heq
  · have hend : (0 : ℤ) + (t ++ [0]).length ≤ size := by
      rw [List.length_append, List.length_singleton]
      push_cast
      omega
    obtain ⟨m', hm', -, -⟩ :=
      ByteMem.storeAll_spec (m := ⟨0, size, bytes⟩) (a := 0) (l := t ++ [0]) le_rfl hend
    rw [hm']
    exact iff_of_false (by simp) fun hfits => hfits (.inr heq)

theorem step_ok_iff (h : IsCwd s t) (c : CwdCall) : (∃ s', c.step s = .ok s') ↔ Fits t c := by
  cases c with
  | chdir path =>
    have hchdir := chdir_text h path.noNul
    have hnone : chdirText t path.bytes = none ↔ ¬Fits t (.chdir path) := chdirText_eq_none_iff
    rw [CwdCall.step]
    cases htext : chdirText t path.bytes with
    | none =>
      rw [htext] at hchdir
      rw [hchdir]
      exact iff_of_false (by simp) (hnone.1 htext)
    | some r =>
      have hfits : Fits t (.chdir path) := by
        rw [htext] at hnone
        simpa using hnone
      rw [htext] at hchdir
      refine iff_of_true ?_ hfits
      cases r with
      | error errno =>
        obtain ⟨s', hs', -⟩ := hchdir
        exact ⟨s', by rw [hs']⟩
      | ok t' =>
        obtain ⟨s', hs', -⟩ := hchdir
        exact ⟨s', by rw [hs']⟩
  | getcwd size bytes =>
    have hnone := getcwd_eq_none_iff h size bytes
    rw [CwdCall.step]
    cases hget : getcwd s (some ⟨0, size, bytes⟩) size with
    | none => exact iff_of_false (by simp) (hnone.1 hget)
    | some r =>
      rw [hget] at hnone
      exact iff_of_true ⟨s, rfl⟩ (by simpa using hnone)

theorem step_isCwd (h : IsCwd s t) {c : CwdCall} {s' : CwdBuffers} (hs' : c.step s = .ok s') :
    ∃ t', IsCwd s' t' := by
  cases c with
  | chdir path =>
    have hchdir := chdir_text h path.noNul
    rw [CwdCall.step] at hs'
    cases htext : chdirText t path.bytes with
    | none =>
      rw [htext] at hchdir
      rw [hchdir] at hs'
      cases hs'
    | some r =>
      rw [htext] at hchdir
      cases r with
      | error errno =>
        obtain ⟨s₁, hs₁, h₁⟩ := hchdir
        rw [hs₁] at hs'
        cases hs'
        exact ⟨t, h₁⟩
      | ok t' =>
        obtain ⟨s₁, hs₁, h₁⟩ := hchdir
        rw [hs₁] at hs'
        cases hs'
        exact ⟨t', h₁⟩
  | getcwd size bytes =>
    rw [CwdCall.step] at hs'
    split at hs'
    · cases hs'
    · cases hs'
      exact ⟨t, h⟩

theorem callFits_iff (h : IsCwd s t) (c : CwdCall) : CallFits s c ↔ Fits t c := by
  rw [CallFits, h.text.cstring]
  simp

/-- **The calls that stay in the buffers**, from the root on. -/
theorem calls_stay_inside (l : List CwdCall) :
    (∃ s, l.foldlM CwdCall.step rootCwd = .ok s) ↔ Along CallFits CwdCall.step rootCwd l := by
  refine foldlM_ok_iff_along (I := fun s => ∃ t, IsCwd s t) ⟨_, isCwd_root⟩ ?_ ?_
  · rintro s c ⟨t, ht⟩
    rw [step_ok_iff ht, callFits_iff ht]
  · rintro s c s' ⟨t, ht⟩ hs'
    exact step_isCwd ht hs'

/-- An absolute path of `PATH_MAX` characters. -/
def longPath : CString where
  bytes := List.replicate PATH_MAX slash
  noNul _ hx := List.eq_of_mem_replicate hx ▸ by decide

theorem long_path_leaves_buffer :
    ¬∃ s, [CwdCall.chdir longPath].foldlM CwdCall.step rootCwd = .ok s := by
  rintro ⟨s, hs⟩
  rw [List.foldlM_cons] at hs
  cases hfirst : CwdCall.step rootCwd (.chdir longPath) with
  | error e =>
    rw [hfirst] at hs
    cases hs
  | ok s' =>
    have hfits := (step_ok_iff isCwd_root (.chdir longPath)).1 ⟨s', hfirst⟩
    have hhead : longPath.bytes.head? = some slash := by
      rw [longPath, List.head?_replicate]
      rfl
    rw [Fits, if_pos hhead, longPath, List.length_replicate] at hfits
    exact lt_irrefl _ hfits

end buffers

end SadOS.Libc
