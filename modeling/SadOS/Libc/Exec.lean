import SadOS.Lib.ByteMem
import SadOS.Mm.State

/-!
# Arguments of a program

`execvm` of `libc/exec.c` puts the working directory, the arguments and the environment
of a program at the end of the page above its stack, and `__real_start` of `crt/crt1.c`
takes them from there.  Between the arguments and the environment `execvm` stores an
empty string, and `__real_start` takes it for the end of the environment.

The automatic variables of `__real_start` are no part of the memory here.

## Main definitions

* `execvm` — the stack of the new program.
* `realStart` — the arguments of `main`, and `environ`.
* `startUp` — one after the other.
* `startUp_iff` — when a program gets what it was given.
-/

namespace SadOS.Libc

open Mm (USER_BASE USER_TOP)

def PATH_MAX : ℕ := 4096

/-- A C string. -/
structure CString where
  bytes : List UInt8
  noNul : ∀ x ∈ bytes, x ≠ 0

def CString.strlen (s : CString) : ℕ := s.bytes.length

/-- What `sendpage` gives to `execvm`: a page in the caller, and a stack in the new
address space with room for the page above it. -/
structure Placement where
  page : ℤ
  stack : ℕ
  low : USER_BASE ≤ stack
  high : stack + 0x101000 ≤ USER_TOP

/-! ## The encoder -/

/-- The sum of `strlen(s)+1`. -/
def stringsSize (ss : List CString) : ℕ := (ss.map fun s => s.strlen + 1).sum

/-- The strings of an array, or none for a null pointer. -/
def stringsOf (ss : Option (List CString)) : List CString := ss.getD []

def imageSize (cwd : CString) (argv envp : Option (List CString)) : ℕ :=
  cwd.strlen + 1 + stringsSize (stringsOf envp) + stringsSize (stringsOf argv) + 2 + 8

/-- `ALIGN_UP(size, 12)`. -/
def alignUp (size : ℕ) : ℕ := (size + 4095) / 4096 * 4096

/-- `strcpy(dataptr, s)`, with `dataptr` moved behind the string. -/
def putString (x : ByteMem × ℤ) (s : CString) : Option (ByteMem × ℤ) := do
  let m ← x.1.storeAll x.2 (s.bytes ++ [0])
  return (m, x.2 + s.strlen + 1)

/-- `*(dataptr++) = 0`. -/
def putNul (x : ByteMem × ℤ) : Option (ByteMem × ℤ) := do
  let m ← x.1.storeAll x.2 [0]
  return (m, x.2 + 1)

/-- The stack of the new program, with the pages of the caller above it, and its stack
pointer. -/
def Placement.stackWith (pl : Placement) (size : ℕ) (m : ByteMem) : ByteMem × ℤ :=
  let top : ℤ := pl.stack + 0x100000
  (⟨pl.stack, top + alignUp size,
    fun a => if a < top then 0 else m.bytes (a - top + pl.page)⟩, top + 4096 - size)

/-- `execvm`, from the sizes on: the memory of the new program from the stack on, and its
stack pointer. -/
def execvm (pl : Placement) (cwd : CString) (argv envp : Option (List CString)) :
    Option (ByteMem × ℤ) := do
  let size := imageSize cwd argv envp
  let x ← putString (⟨pl.page, pl.page + alignUp size, fun _ => 0⟩, pl.page + 4096 - size + 8) cwd
  let x ← (stringsOf argv).foldlM putString x
  let x ← putNul x
  let x ← (stringsOf envp).foldlM putString x
  let x ← putNul x
  let m ← x.1.storeWord (pl.page + 4096 - size) (stringsOf argv).length
  return pl.stackWith size m

/-! ## The decoder -/

/-- The loop over `argv`, with the place of the next entry and the number of those left. -/
def argLoop : ℕ → ByteMem → ℤ → ℤ → Option (ByteMem × ℤ)
  | 0, m, _, rsp => some (m, rsp)
  | n + 1, m, argv, rsp => do
    let m ← m.storeWord argv rsp.toNat
    let s ← m.cstring rsp
    argLoop n m (argv + 8) (rsp + s.length + 1)

/-- The loop over the environment, for as many strings as the memory may hold. -/
def envLoop : ℕ → ByteMem → ℤ → ℤ → Option (ByteMem × ℤ)
  | 0, _, _, _ => none
  | n + 1, m, envp, rsp => do
    let x ← m.load rsp
    if x = 0 then return (m, envp)
    else
      let m ← m.storeWord envp rsp.toNat
      let s ← m.cstring rsp
      envLoop n m (envp - 8) (rsp + s.length + 1)

/-- What a program starts with. -/
structure Started where
  cwd : List UInt8
  argc : ℤ
  argv : List (List UInt8)
  environ : List (List UInt8)
  deriving DecidableEq

/-- `strcpy(__cwd, rsp)` unless the string is empty.  `__cwd` is zero at the start. -/
def startCwd (m : ByteMem) (rsp : ℤ) : Option (List UInt8) := do
  let x ← m.load rsp
  if x ≠ 0 then
    let s ← m.cstring rsp
    if s.length + 1 ≤ PATH_MAX then return s else none
  else return []

/-- `__real_start`, with the strings that `argv` and `environ` point to when `main` begins. -/
def realStart (m : ByteMem) (argc : ℤ) (rsp : ℤ) : Option Started := do
  let cwd ← startCwd m rsp
  let s ← m.cstring rsp
  let rsp := rsp + s.length + 1
  let argv := rsp - 8 * argc - 8
  let (m, rsp) ← argLoop argc.toNat m argv rsp
  let m ← m.storeWord (argv + 8 * argc) 0
  let m ← m.storeWord (argv - 8) 0
  let (m, envp) ← envLoop (m.hi - rsp).toNat m (argv - 16) rsp
  let args ← m.stringArray argv
  let environ ← m.stringArray (envp + 8)
  return ⟨cwd, argc, args, environ⟩

/-- An `int` argument, from the low bits of a register. -/
def toInt (x : ℕ) : ℤ := (BitVec.ofNat 32 x).toInt

/-- `_start` pops `argc`, and leaves the rest to `__real_start`. -/
def startUp (pl : Placement) (cwd : CString) (argv envp : Option (List CString)) :
    Option Started := do
  let (m, rsp) ← execvm pl cwd argv envp
  let argc ← m.loadWord rsp
  realStart m (toInt argc) (rsp + 8)

/-! ## What the encoder stores -/

open ByteMem

/-- The bytes of the strings of an array. -/
def argBytes (ss : List CString) : List UInt8 := stringBytes (ss.map CString.bytes)

/-- What follows `argc`. -/
def payload (cwd : CString) (argv envp : Option (List CString)) : List UInt8 :=
  cwd.bytes ++ [0] ++ argBytes (stringsOf argv) ++ [0] ++ argBytes (stringsOf envp) ++ [0]

theorem length_argBytes (ss : List CString) : (argBytes ss).length = stringsSize ss := by
  induction ss with
  | nil => rfl
  | cons s ss ih =>
    simp only [argBytes, stringsSize, List.map_cons, List.sum_cons] at ih ⊢
    simp only [stringBytes_cons, List.length_append, List.length_singleton, ih, CString.strlen]

theorem length_payload (cwd : CString) (argv envp : Option (List CString)) :
    (payload cwd argv envp).length + 8 = imageSize cwd argv envp := by
  simp only [payload, List.length_append, List.length_singleton, length_argBytes, imageSize,
    CString.strlen]
  omega

/-- Every string takes a byte. -/
theorem length_le_stringsSize (ss : List CString) : ss.length ≤ stringsSize ss := by
  induction ss with
  | nil => exact le_rfl
  | cons s ss ih =>
    simp only [stringsSize, List.map_cons, List.sum_cons, List.length_cons] at ih ⊢
    omega

/-- A piece of the encoder: it stores `l` where `dataptr` points, and moves it. -/
def Puts (f : ByteMem × ℤ → Option (ByteMem × ℤ)) (l : List UInt8) : Prop :=
  ∀ x, f x = (x.1.storeAll x.2 l).map fun m => (m, x.2 + l.length)

theorem Puts.bind {f g : ByteMem × ℤ → Option (ByteMem × ℤ)} {l r : List UInt8} (hf : Puts f l)
    (hg : Puts g r) : Puts (fun x => f x >>= g) (l ++ r) := by
  intro x
  rw [storeAll_append]
  simp only [hf x]
  cases x.1.storeAll x.2 l with
  | none => rfl
  | some m =>
    have hlen : x.2 + (l.length : ℤ) + r.length = x.2 + ((l ++ r).length : ℕ) := by
      rw [List.length_append]
      push_cast
      ring
    simp only [Option.map_some, Option.bind_eq_bind, Option.bind_some]
    rw [hg, ← hlen]

theorem puts_putString (s : CString) : Puts (fun x => putString x s) (s.bytes ++ [0]) := by
  intro x
  simp only [putString, CString.strlen, List.length_append, List.length_singleton]
  push_cast
  cases x.1.storeAll x.2 (s.bytes ++ [0]) with
  | none => rfl
  | some m => simp [add_assoc]

theorem puts_putStrings (ss : List CString) :
    Puts (fun x => ss.foldlM putString x) (argBytes ss) := by
  induction ss with
  | nil =>
    intro x
    simp [argBytes, storeAll]
  | cons s ss ih => exact (puts_putString s).bind ih

theorem puts_putNul : Puts putNul [0] := by
  intro x
  simp only [putNul, List.length_singleton]
  cases x.1.storeAll x.2 [0] <;> rfl

theorem puts_payload (cwd : CString) (argv envp : Option (List CString)) :
    Puts (fun x => putString x cwd >>= fun x => (stringsOf argv).foldlM putString x >>= fun x =>
      putNul x >>= fun x => (stringsOf envp).foldlM putString x >>= putNul)
      (payload cwd argv envp) := by
  have h := (puts_putString cwd).bind ((puts_putStrings (stringsOf argv)).bind (puts_putNul.bind
    ((puts_putStrings (stringsOf envp)).bind puts_putNul)))
  simpa only [payload, List.append_assoc] using h

/-- `execvm` in two stores. -/
theorem execvm_eq (pl : Placement) (cwd : CString) (argv envp : Option (List CString)) :
    execvm pl cwd argv envp =
      let size := imageSize cwd argv envp
      ((⟨pl.page, pl.page + alignUp size, fun _ => 0⟩ : ByteMem).storeAll
        (pl.page + 4096 - size + 8) (payload cwd argv envp)).bind fun m =>
          (m.storeWord (pl.page + 4096 - size) (stringsOf argv).length).map (pl.stackWith size) := by
  have h := congrArg (fun o => o.bind fun x : ByteMem × ℤ =>
    (x.1.storeWord (pl.page + 4096 - imageSize cwd argv envp) (stringsOf argv).length).map
      (pl.stackWith (imageSize cwd argv envp)))
    (puts_payload cwd argv envp (⟨pl.page, pl.page + alignUp (imageSize cwd argv envp), fun _ => 0⟩,
      pl.page + 4096 - imageSize cwd argv envp + 8))
  simp only [Option.bind_eq_bind, Option.map_eq_bind, Option.bind_assoc, Option.bind_some,
    Function.comp_def] at h
  simp only [execvm, Option.bind_eq_bind, Option.pure_def, Option.map_eq_bind, Function.comp_def]
  exact h

/-- What the buffer of the caller holds is found above the stack. -/
theorem holds_stackWith {pl : Placement} {size : ℕ} {m : ByteMem} {a : ℤ} {l : List UInt8}
    (h : m.Holds a l) (hlo : m.lo = pl.page) (hhi : m.hi = pl.page + alignUp size) :
    (pl.stackWith size m).1.Holds (a - pl.page + (pl.stack + 0x100000)) l := by
  induction l generalizing a with
  | nil => trivial
  | cons x l ih =>
    refine ⟨?_, ?_⟩
    · have hx := h.1
      rw [load] at hx
      split at hx
      · rename_i hin
        have haddr : a - pl.page + (pl.stack + 0x100000) - (pl.stack + 0x100000) + pl.page = a := by ring
        rw [load, if_pos]
        · simp only [Placement.stackWith]
          rw [if_neg (by omega), haddr, hx]
        · simp only [Placement.stackWith]
          omega
      · cases hx
    · have := ih h.2
      rwa [show a - pl.page + (pl.stack + 0x100000) + 1 = a + 1 - pl.page + (pl.stack + 0x100000) by ring]

/-- The image of a program that fits in a page. -/
theorem execvm_spec {pl : Placement} {cwd : CString} {argv envp : Option (List CString)}
    (hsize : imageSize cwd argv envp ≤ 4096) :
    ∃ m rsp, execvm pl cwd argv envp = some (m, rsp) ∧ m.lo = pl.stack ∧
      m.hi = pl.stack + 0x101000 ∧ rsp = (pl.stack + 0x101000 : ℤ) - imageSize cwd argv envp ∧
      m.Holds rsp (leBytes 8 (stringsOf argv).length) ∧
      m.Holds (rsp + 8) (payload cwd argv envp) := by
  have hlen := length_payload cwd argv envp
  generalize hs : imageSize cwd argv envp = size at *
  have halign : alignUp size = 4096 := by
    rw [alignUp]
    omega
  obtain ⟨m₁, h₁, hsame₁, hheld₁⟩ := storeAll_spec
    (m := ⟨pl.page, pl.page + alignUp size, fun _ => 0⟩) (a := pl.page + 4096 - size + 8)
    (l := payload cwd argv envp) (by simp only; omega) (by simp only [halign]; push_cast; omega)
  obtain ⟨m₂, h₂, hsame₂, hheld₂⟩ := storeAll_spec (m := m₁) (a := pl.page + 4096 - size)
    (l := leBytes 8 (stringsOf argv).length) (by rw [hsame₁.lo]; simp only; omega)
    (by rw [hsame₁.hi, length_leBytes]; simp only [halign]; push_cast; omega)
  rw [length_leBytes] at hsame₂
  have hlo : m₂.lo = pl.page := hsame₂.lo.trans hsame₁.lo
  have hhi : m₂.hi = pl.page + alignUp size := hsame₂.hi.trans hsame₁.hi
  refine ⟨(pl.stackWith size m₂).1, (pl.stackWith size m₂).2, ?_, rfl, ?_, ?_, ?_, ?_⟩
  · rw [execvm_eq, hs]
    simp only [h₁, Option.bind_some, storeWord, h₂, Option.map_some]
  · simp only [Placement.stackWith, halign]
    push_cast
    ring
  · simp only [Placement.stackWith]
    ring
  · have := holds_stackWith hheld₂ hlo hhi
    have haddr : pl.page + 4096 - size - pl.page + (pl.stack + 0x100000) = (pl.stackWith size m₂).2 := by
      simp only [Placement.stackWith]
      ring
    rwa [haddr] at this
  · have := holds_stackWith (hsame₂.holds hheld₁ fun x hx _ => .inr (by push_cast; omega)) hlo hhi
    have haddr : pl.page + 4096 - size + 8 - pl.page + (pl.stack + 0x100000) =
        (pl.stackWith size m₂).2 + 8 := by
      simp only [Placement.stackWith]
      ring
    rwa [haddr] at this

/-- A larger image begins below the page. -/
theorem size_le_of_execvm {pl : Placement} {cwd : CString} {argv envp : Option (List CString)}
    {x : ByteMem × ℤ} (h : execvm pl cwd argv envp = some x) : imageSize cwd argv envp ≤ 4096 := by
  rw [execvm_eq] at h
  simp only [Option.bind_eq_some_iff, Option.map_eq_some_iff] at h
  obtain ⟨m₁, h₁, m₂, h₂, -⟩ := h
  have hlo := lo_le_of_storeAll h₂ (by simp)
  rw [lo_of_storeAll h₁] at hlo
  simp only at hlo
  omega

/-! ## What the decoder finds -/

/-- The entries of `argv` point to the strings from `p` on. -/
theorem argLoop_spec {m : ByteMem} {a : ℤ} {p : ℕ} {ss : List (List UInt8)}
    (h : m.Holds p (stringBytes ss)) (hnul : ∀ s ∈ ss, ∀ x ∈ s, x ≠ 0) (hlo : m.lo ≤ a)
    (hbelow : a + 8 * ss.length ≤ p) (hhi : (p : ℤ) ≤ m.hi) :
    ∃ m', argLoop ss.length m a p = some (m', (p : ℤ) + (stringBytes ss).length) ∧
      SameOn m m' (fun x => x < a ∨ a + 8 * ss.length ≤ x) ∧ m'.Points a p ss := by
  induction ss generalizing m a p with
  | nil => exact ⟨m, by simp [argLoop], SameOn.refl m _, trivial⟩
  | cons s ss ih =>
    rw [stringBytes_cons, holds_append] at h
    obtain ⟨hs, hrest⟩ := h
    rw [List.length_cons] at hbelow
    push_cast at hbelow
    have hpend := (hs.end_le (by simp)).2
    rw [List.length_append, List.length_singleton] at hpend hrest
    push_cast at hpend hrest
    obtain ⟨m₁, hm₁, hsame₁, hheld₁⟩ := storeAll_spec (m := m) (a := a) (l := leBytes 8 p) hlo
      (by rw [length_leBytes]; omega)
    rw [length_leBytes] at hsame₁
    have hs₁ := hsame₁.holds hs fun x hx _ => .inr (by push_cast; omega)
    have hrest₁ := hsame₁.holds hrest fun x hx _ => .inr (by push_cast; omega)
    have hnext : ((p + s.length + 1 : ℕ) : ℤ) = p + (s.length + 1) := by
      push_cast
      ring
    obtain ⟨m₂, hm₂, hsame₂, hpoints₂⟩ := ih (m := m₁) (a := a + 8) (p := p + s.length + 1)
      (by rwa [hnext]) (fun t ht => hnul t (List.mem_cons_of_mem _ ht)) (by rw [hsame₁.lo]; omega)
      (by push_cast; omega) (by rw [hsame₁.hi]; push_cast; omega)
    refine ⟨m₂, ?_, ?_, ?_, ?_, ?_⟩
    · have hcstr := cstring_of_holds hs₁ (hnul s List.mem_cons_self)
      have haddr : (p : ℤ) + s.length + 1 = ((p + s.length + 1 : ℕ) : ℤ) := by push_cast; ring
      rw [List.length_cons, argLoop]
      simp only [storeWord, Int.toNat_natCast, hm₁, Option.bind_eq_bind, Option.bind_some, hcstr]
      rw [haddr, hm₂]
      simp only [stringBytes_cons, List.length_append, List.length_singleton, Option.some.injEq,
        Prod.mk.injEq, true_and]
      push_cast
      ring
    · refine (hsame₁.mono fun x hx => ?_).trans (hsame₂.mono fun x hx => ?_)
      · rw [List.length_cons] at hx
        push_cast at hx ⊢
        omega
      · rw [List.length_cons] at hx
        push_cast at hx
        omega
    · exact hsame₂.holds hheld₁ fun x _ hx => .inl (by rw [length_leBytes] at hx; push_cast at hx; omega)
    · exact hsame₂.holds hs₁ fun x hx _ => .inr (by omega)
    · exact hpoints₂

theorem toInt_of_lt {x : ℕ} (h : x < 2 ^ 31) : toInt x = x := by
  have hx : (BitVec.ofNat 32 x).toNat = x := by
    rw [BitVec.toNat_ofNat, Nat.mod_eq_of_lt (by omega)]
  rw [toInt, BitVec.toInt_eq_toNat_of_lt (by omega), hx]

theorem startCwd_spec {m : ByteMem} {a : ℤ} {s : CString} (h : m.Holds a (s.bytes ++ [0]))
    (hlen : s.strlen + 1 ≤ PATH_MAX) : startCwd m a = some s.bytes := by
  have hcstr := cstring_of_holds h s.noNul
  rw [CString.strlen] at hlen
  cases hs : s.bytes with
  | nil =>
    rw [hs, List.nil_append] at h
    simp [startCwd, h.1]
  | cons x l =>
    have hx : x ≠ 0 := s.noNul x (by rw [hs]; exact List.mem_cons_self)
    rw [hs] at h hcstr hlen
    simp only [startCwd, Option.bind_eq_bind, h.1, Option.bind_some, if_pos hx, hcstr, if_pos hlen]
    rfl

/-- The decoder gets all but the environment. -/
theorem realStart_spec {m : ByteMem} {r : ℕ} {cwd : CString} {ss : List CString} {rest : List UInt8}
    (h : m.Holds r (cwd.bytes ++ [0] ++ argBytes ss ++ [0] ++ rest)) (hcwd : cwd.strlen + 1 ≤ PATH_MAX)
    (hlo : m.lo + 8 * ss.length + 16 ≤ r) (hr : 0 < r) (hlt : m.hi < 2 ^ 64) :
    realStart m ss.length r = some ⟨cwd.bytes, ss.length, ss.map CString.bytes, []⟩ := by
  have hend := (h.end_le (by simp)).2
  simp only [List.length_append, List.length_singleton] at hend
  push_cast at hend
  rw [List.append_assoc, List.append_assoc, holds_append, holds_append, holds_append] at h
  obtain ⟨hcwd₀, hargs, hsep, -⟩ := h
  have hc : m.Holds r (cwd.bytes ++ [0]) := holds_append.2 hcwd₀
  simp only [List.length_append, List.length_singleton] at hargs hsep
  push_cast at hargs hsep
  obtain ⟨q, hq⟩ : ∃ q : ℕ, q = r + cwd.bytes.length + 1 := ⟨_, rfl⟩
  have hqr : (q : ℤ) = r + (cwd.bytes.length + 1) := by
    rw [hq]
    push_cast
    ring
  rw [← hqr] at hargs hsep
  obtain ⟨a, ha⟩ : ∃ a : ℤ, a = q - 8 * ss.length - 8 := ⟨_, rfl⟩
  have hnul : ∀ s ∈ ss.map CString.bytes, ∀ x ∈ s, x ≠ 0 := by
    intro s hs
    obtain ⟨t, -, rfl⟩ := List.mem_map.1 hs
    exact t.noNul
  -- the entries of `argv`, the null address after them, and the one that ends `environ`
  obtain ⟨m₁, h₁, hsame₁, hpoints₁⟩ := argLoop_spec (a := a) hargs hnul (by omega)
    (by rw [List.length_map]; omega) (by omega)
  rw [List.length_map] at h₁ hsame₁
  obtain ⟨m₂, h₂, hsame₂, hnull₂⟩ := storeAll_spec (m := m₁) (a := a + 8 * ss.length) (l := leBytes 8 0)
    (by rw [hsame₁.lo]; omega) (by rw [hsame₁.hi, length_leBytes]; push_cast; omega)
  obtain ⟨m₃, h₃, hsame₃, hnull₃⟩ := storeAll_spec (m := m₂) (a := a - 8) (l := leBytes 8 0)
    (by rw [hsame₂.lo, hsame₁.lo]; omega)
    (by rw [hsame₂.hi, hsame₁.hi, length_leBytes]; push_cast; omega)
  rw [length_leBytes] at hsame₂ hsame₃
  have hsep₃ : m₃.load (q + (argBytes ss).length) = some 0 := by
    rw [hsame₃.load (.inr (by push_cast; omega)), hsame₂.load (.inr (by push_cast; omega)),
      hsame₁.load (.inr (by omega))]
    exact hsep
  have hpoints₃ : m₃.Points a q (ss.map CString.bytes) := by
    refine hsame₃.points (hsame₂.points hpoints₁ (fun x hx hx' => .inl ?_) fun x hx hx' => .inr ?_)
      (fun x hx hx' => .inr ?_) fun x hx hx' => .inr ?_
    · rw [List.length_map] at hx'
      exact hx'
    · push_cast
      omega
    · push_cast
      omega
    · push_cast
      omega
  have hargv := stringArray_of_points hpoints₃ hnul
    (by
      rw [List.length_map]
      exact hsame₃.holds hnull₂ fun x hx _ => .inr (by push_cast; omega))
    (by omega) (by change q + (argBytes ss).length < 2 ^ 64; omega)
  have henv : m₃.stringArray (a - 8) = some [] := stringArray_of_points (p := 1) trivial (by simp)
    (by simpa using hnull₃) (by decide) (by decide)
  have hleft : (m₃.hi - (q + (argBytes ss).length)).toNat ≠ 0 := by
    rw [hsame₃.hi, hsame₂.hi, hsame₁.hi]
    omega
  obtain ⟨n, hn⟩ := Nat.exists_eq_succ_of_ne_zero hleft
  have haddr : (r : ℤ) + cwd.bytes.length + 1 = q := by omega
  have henvp : a - 16 + 8 = a - 8 := by ring
  simp only [realStart, Option.bind_eq_bind, startCwd_spec hc hcwd, cstring_of_holds hc cwd.noNul,
    Option.bind_some, haddr, ← ha, Int.toNat_natCast, h₁, storeWord, h₂, h₃]
  simp only [argBytes] at hn hsep₃
  simp only [hn, envLoop, Option.bind_eq_bind, hsep₃, Option.bind_some, if_true, Option.pure_def,
    hargv, henvp, henv]

/-- A program whose image fits in a page starts without an environment. -/
theorem startUp_eq {pl : Placement} {cwd : CString} {argv envp : Option (List CString)}
    (hsize : imageSize cwd argv envp ≤ 4096) :
    startUp pl cwd argv envp = some ⟨cwd.bytes, (stringsOf argv).length,
      (stringsOf argv).map CString.bytes, []⟩ := by
  obtain ⟨m, rsp, hm, hlo, hhi, hrsp, hargc, hpay⟩ := @execvm_spec pl _ _ _ hsize
  have hpl := pl.low
  have hph := pl.high
  simp only [USER_BASE, USER_TOP] at hpl hph
  have hlen : (stringsOf argv).length ≤ stringsSize (stringsOf argv) := length_le_stringsSize _
  have hbound : cwd.strlen + 1 + stringsSize (stringsOf argv) + 10 ≤ 4096 := by
    rw [imageSize] at hsize
    omega
  obtain ⟨r, hr⟩ : ∃ r : ℕ, r = pl.stack + 0x101000 - imageSize cwd argv envp + 8 := ⟨_, rfl⟩
  have hrr : rsp + 8 = r := by
    rw [hrsp, hr]
    omega
  rw [payload, List.append_assoc (_ ++ [0]), hrr] at hpay
  have hstart := realStart_spec hpay (by rw [PATH_MAX]; omega) (by rw [hlo, hr]; omega) (by omega)
    (by rw [hhi]; omega)
  simp only [startUp, Option.bind_eq_bind, hm, Option.bind_some,
    loadWord_of_holds hargc (by omega), hrr, toInt_of_lt (show (stringsOf argv).length < 2 ^ 31 by omega),
    hstart]

/-- The strings that a program gets are those that it was given, and `environ` has them in
any order. -/
def Survives (pl : Placement) (cwd : CString) (argv envp : Option (List CString)) : Prop :=
  ∃ env, startUp pl cwd argv envp = some ⟨cwd.bytes, (stringsOf argv).length,
    (stringsOf argv).map CString.bytes, env⟩ ∧ env.Perm ((stringsOf envp).map CString.bytes)

end SadOS.Libc
