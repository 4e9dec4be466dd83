import SadOS.Lib.Outcome
import SadOS.Libc.Exec
import Mathlib.Data.List.TakeWhile

/-!
# The environment

`env.c` keeps the environment in an array that is allocated anew when it is full.  `putenv`
finds the entry that it replaces with `getenv`, which returns the address of a value.

Addresses are integers here; a null pointer less something is no address.  Of the heap, the
strings are modelled.

## Main definitions

* `envInit`, `getenv`, `putenv` — the functions.
* `Holds` — the array holds the entries of a map.
* `EnvFits` — no length is too long for an `int`, and `malloc` returns blocks.
* `env_serves` — in runs of such calls, the environment is a map.
-/

namespace SadOS.Libc

/-! ## The source -/

/-- The strings in the heap, by their addresses. -/
abbrev Heap := List (ℤ × CString)

def Heap.free (h : Heap) (a : ℤ) : Heap := h.filter fun x => x.1 ≠ a

/-- `malloc`, by the number of the call: it fails, or returns the address of a new block. -/
structure Malloc where
  fails : ℕ → Bool
  addr : ℕ → Heap → ℤ
  pos : ∀ k h, 0 < addr k h
  fresh : ∀ (k : ℕ) (h : Heap), h.lookup (addr k h) = none

/-- The heap, `environ`, `env_size`, `nenv`, `__env_init`, and how often `malloc` was called. -/
structure Env where
  heap : Heap
  environ : List ℤ
  envSize : ℕ
  nenv : ℕ
  envInited : Bool
  mallocs : ℕ

/-- A call of `malloc` that did not fail. -/
def Env.called (e : Env) : Env := { e with mallocs := e.mallocs + 1 }

/-- The first `n` characters. -/
def CString.take (s : CString) (n : ℕ) : CString :=
  ⟨s.bytes.take n, fun x hx => s.noNul x (List.mem_of_mem_take hx)⟩

/-- `strdup`, with the length of the string as an `int`. -/
def strdup (mem : Malloc) (s : CString) (e : Env) : Option (ℤ × CString × Env) :=
  let len := toInt s.strlen
  if len < 0 ∨ 2 ^ 31 ≤ len + 1 ∨ mem.fails e.mallocs then none
  else
    let a := mem.addr e.mallocs e.heap
    let t := s.take len.toNat
    some (a, t, { e.called with heap := (a, t) :: e.heap })

/-- The loop of `env_init`. -/
def dupLoop (mem : Malloc) : List CString → Env → Option (List ℤ × Env)
  | [], e => some ([], e)
  | s :: envp, e => do
    let (a, _, e) ← strdup mem s e
    let (environ, e) ← dupLoop mem envp e
    return (a :: environ, e)

/-- `env_init`, where `environ` has the strings `envp`. -/
def envInit (mem : Malloc) (envp : List CString) (e : Env) : Option Env :=
  let n := toInt envp.length
  if n < 0 ∨ 2 ^ 31 ≤ n + 1 ∨ mem.fails e.mallocs then none
  else do
    let (environ, e) ← dupLoop mem (envp.take n.toNat) e.called
    return { e with
      environ := environ ++ [0], envSize := n.toNat + 1, nenv := n.toNat, envInited := true }

/-- `if (!__env_init) env_init()`. -/
def ensureInit (mem : Malloc) (envp : List CString) (e : Env) : Option Env :=
  if e.envInited then some e else envInit mem envp e

/-- `strncmp`, which does not stop at the end of a string. -/
def strncmp : ℕ → List UInt8 → List UInt8 → Option ℤ
  | 0, _, _ => some 0
  | n + 1, x :: a, y :: b =>
    if x.toInt8 < y.toInt8 then some (-1) else if y.toInt8 < x.toInt8 then some 1 else strncmp n a b
  | _ + 1, _, _ => none

def CString.withNul (s : CString) : List UInt8 := s.bytes ++ [0]

/-- `s[i]`. -/
def CString.at (s : CString) (i : ℤ) : Option UInt8 :=
  if i < 0 then none else s.withNul[i.toNat]?

def equals : UInt8 := '='.toUInt8

/-- The loop of `getenv`: the entry, and where its value begins. -/
def getLoop (heap : Heap) (name : CString) (len : ℤ) : List ℤ → Option (Option (ℤ × ℤ))
  | [] => none
  | tmp :: environ =>
    if tmp = 0 then some none
    else do
      let s ← heap.lookup tmp
      let r ← strncmp len.toNat s.withNul name.withNul
      if r = 0 then
        let c ← s.at len
        if c = equals then return some (tmp, len + 1) else getLoop heap name len environ
      else getLoop heap name len environ

/-- `getenv` behind `env_init`. -/
def Env.find (e : Env) (name : CString) : Option (Option (ℤ × ℤ)) :=
  getLoop e.heap name (toInt name.strlen) e.environ

/-- `getenv`: the value is in the string at an address, from an index on. -/
def getenv (mem : Malloc) (envp : List CString) (name : CString) (e : Env) :
    Option (Option (ℤ × ℤ) × Env) := do
  let e ← ensureInit mem envp e
  let value ← e.find name
  return (value, e)

/-- The loop of `putenv`: the array with the entry replaced, or none. -/
def replaceLoop (old p : ℤ) : List ℤ → Option (Option (List ℤ))
  | [] => none
  | tmp :: environ =>
    if tmp = 0 then some none
    else if tmp = old then some (some (p :: environ))
    else do
      let environ ← replaceLoop old p environ
      return environ.map (tmp :: ·)

/-- The array of twice the size. -/
def Env.grow (e : Env) : Option Env :=
  if e.nenv ≤ e.environ.length ∧ e.nenv ≤ e.envSize * 2 then
    some { e.called with
      environ := e.environ.take e.nenv ++ List.replicate (e.envSize * 2 - e.nenv) 0
      envSize := e.envSize * 2 }
  else none

/-- `environ[nenv] = p`, and what follows. -/
def Env.append (e : Env) (p : ℤ) : Option (ℤ × Env) :=
  if e.nenv < e.environ.length then
    let e := { e with environ := e.environ.set e.nenv p }
    if p = 0 then some (-1, e) else some (0, { e with nenv := e.nenv + 1 })
  else none

/-- The name of a string `NAME=VALUE`. -/
def CString.name (s : CString) : CString where
  bytes := s.bytes.takeWhile fun c => c ≠ equals
  noNul x hx := s.noNul x (List.takeWhile_subset _ hx)

/-- `putenv`. -/
def putenv (mem : Malloc) (envp : List CString) (p : ℤ) (e : Env) : Option (ℤ × Env) := do
  let e ← ensureInit mem envp e
  let s ← e.heap.lookup p
  let (a, tp, e) ← strdup mem s e
  if equals ∉ tp.bytes then none
  else
    let found ← e.find tp.name
    let old := (found.elim 0 fun x => x.1 + x.2) - (tp.name.strlen + 1)
    let e := { e with heap := Heap.free e.heap a }
    match ← replaceLoop old p e.environ with
    | some environ => return (0, { e with heap := Heap.free e.heap old, environ := environ })
    | none =>
      if e.nenv + 2 > e.envSize then
        if mem.fails e.mallocs then return (-1, e.called)
        else
          let e ← e.grow
          e.append p
      else e.append p

/-! ## Maps -/

/-- The value of a string `NAME=VALUE`. -/
def CString.value (s : CString) : List UInt8 := (s.bytes.dropWhile fun c => c ≠ equals).tail

/-- A string `NAME=VALUE`. -/
structure Assignment where
  str : CString
  hasEq : equals ∈ str.bytes

/-- A name. -/
structure VarName where
  str : CString
  noEq : equals ∉ str.bytes

/-- The values of names. -/
abbrev Bindings := List UInt8 → Option (List UInt8)

def bindings (envp : List Assignment) : Bindings := fun n =>
  (envp.find? fun s => s.str.name.bytes = n).map fun s => s.str.value

/-- A call of `getenv`, or of `putenv` with a string that the caller has put into the heap. -/
inductive EnvCall
  | get (name : VarName)
  | put (p : ℤ) (s : Assignment)

inductive EnvAnswer
  | value (v : Option (List UInt8))
  | ret (r : ℤ)

/-- A call, with the value that is at the address that `getenv` returns. -/
def EnvCall.exec (mem : Malloc) (envp : List CString) (e : Env) :
    EnvCall → Option (EnvAnswer × Env)
  | .get name => do
    match ← getenv mem envp name.str e with
    | (none, e) => return (.value none, e)
    | (some (a, i), e) =>
      let s ← e.heap.lookup a
      return (.value (some (s.bytes.drop i.toNat)), e)
  | .put p s => do
    let (r, e) ← putenv mem envp p { e with heap := (p, s.str) :: e.heap }
    return (.ret r, e)

/-- The map behind a call. -/
def EnvCall.after (m : Bindings) : EnvCall → Bindings
  | .get _ => m
  | .put _ s => Function.update m s.str.name.bytes (some s.str.value)

/-- What the call returns for a map. -/
def EnvCall.answer (m : Bindings) : EnvCall → EnvAnswer
  | .get name => .value (m name.str.bytes)
  | .put _ _ => .ret 0

/-- A call returns what the map says, and there is a null pointer in the array. -/
def Serves (mem : Malloc) (envp : List CString) (x : Env × Bindings) (c : EnvCall) : Prop :=
  ∃ e, c.exec mem envp x.1 = some (c.answer x.2, e) ∧ 0 ∈ e.environ

/-- A call, and the map. -/
def envStep (mem : Malloc) (envp : List CString) (x : Env × Bindings) (c : EnvCall) :
    Env × Bindings :=
  (((c.exec mem envp x.1).map Prod.snd).getD x.1, c.after x.2)

/-- Before the first call. -/
def Env.start (heap : Heap) : Env where
  heap := heap
  environ := []
  envSize := 0
  nenv := 2 ^ 64 - 1
  envInited := false
  mallocs := 0

/-- The string of `putenv` is not that of another block. -/
def EnvCall.Distinct (e : Env) : EnvCall → Prop
  | .get _ => True
  | .put p _ => 0 < p ∧ e.heap.lookup p = none

/-- The strings of the environment. -/
def Env.entries (envp : List CString) (e : Env) : List CString :=
  if e.envInited then (e.environ.takeWhile fun a => a ≠ 0).filterMap fun a => e.heap.lookup a
  else envp

/-- The size of the array. -/
def Env.capacity (envp : List CString) (e : Env) : ℕ :=
  if e.envInited then e.envSize else envp.length + 1

/-- The name is new, and the array is full. -/
def Env.full (envp : List CString) (e : Env) (s : Assignment) : Bool :=
  (e.entries envp).all (fun t => t.name.bytes ≠ s.str.name.bytes) &&
    decide (e.capacity envp < (e.entries envp).length + 2)

/-- How often a call calls `malloc`. -/
def EnvCall.mallocs (envp : List CString) (e : Env) (c : EnvCall) : ℕ :=
  (if e.envInited then 0 else envp.length + 1) +
    match c with
    | .get _ => 0
    | .put _ s => if e.full envp s then 2 else 1

/-- The longest string that the length of has to be an `int`. -/
def EnvCall.length : EnvCall → ℕ
  | .get name => name.str.strlen
  | .put _ s => s.str.strlen + 1

/-- The lengths and the number of strings are those of an `int`, and `malloc` does not fail. -/
structure EnvFits (mem : Malloc) (envp : List CString) (e : Env) (c : EnvCall) : Prop where
  count : e.envInited = false → envp.length + 1 < 2 ^ 31
  lengths : e.envInited = false → ∀ s ∈ envp, s.strlen + 1 < 2 ^ 31
  length_lt : c.length < 2 ^ 31
  succeeds : ∀ k < c.mallocs envp e, mem.fails (e.mallocs + k) = false

/-! ## Strings -/

section strings

variable {s : CString} {a b : List UInt8}

theorem CString.bytes_eq (h : equals ∈ s.bytes) : s.bytes = s.name.bytes ++ equals :: s.value := by
  have hsplit := List.takeWhile_append_dropWhile (p := fun c => decide (c ≠ equals)) (l := s.bytes)
  cases hdrop : s.bytes.dropWhile fun c => decide (c ≠ equals) with
  | nil =>
    have hall := List.dropWhile_eq_nil_iff.1 hdrop equals h
    exact absurd rfl (of_decide_eq_true hall)
  | cons c l =>
    have hc : c = equals := by
      have hne : s.bytes.dropWhile (fun c => decide (c ≠ equals)) ≠ [] :=
        hdrop ▸ List.cons_ne_nil c l
      have hhead := List.head_dropWhile_not (fun c => decide (c ≠ equals)) hne
      simp only [hdrop, List.head_cons, decide_eq_false_iff_not, not_not] at hhead
      exact hhead
    rw [hdrop, hc] at hsplit
    rw [CString.value, hdrop, List.tail_cons]
    exact hsplit.symm

theorem CString.name_noEq (s : CString) : equals ∉ s.name.bytes := by
  intro h
  have hne := List.mem_takeWhile_imp h
  exact of_decide_eq_true hne rfl

/-- A string with a name. -/
theorem CString.name_eq (hb : equals ∉ b) (h : s.bytes = b ++ equals :: a) : s.name.bytes = b := by
  have hname : s.name.bytes = s.bytes.takeWhile fun c => decide (c ≠ equals) := rfl
  have hne : ∀ c ∈ b, decide (c ≠ equals) = true := by
    intro c hc
    refine decide_eq_true ?_
    rintro rfl
    exact hb hc
  rw [hname, h, List.takeWhile_append_of_pos hne, List.takeWhile_cons_of_neg (by simp),
    List.append_nil]

theorem CString.take_strlen (s : CString) : s.take s.strlen = s := by
  rw [CString.take, CString.mk.injEq]
  exact List.take_length

theorem eq_of_not_lt {x y : UInt8} (hlt : ¬x.toInt8 < y.toInt8) (hgt : ¬y.toInt8 < x.toInt8) :
    x = y :=
  congrArg Int8.toUInt8 (Int8.le_antisymm (Int8.not_lt.1 hgt) (Int8.not_lt.1 hlt))

/-- `strncmp` for the length of the second string. -/
theorem strncmp_length (a : List UInt8) (hb : ∀ y ∈ b, y ≠ 0) :
    ∃ r, strncmp b.length (a ++ [0]) (b ++ [0]) = some r ∧ (r = 0 ↔ b <+: a) := by
  induction b generalizing a with
  | nil => exact ⟨0, rfl, iff_of_true rfl (List.nil_prefix)⟩
  | cons y b ih =>
    obtain ⟨hy, hb⟩ := List.forall_mem_cons.1 hb
    cases a with
    | nil =>
      have hpre : ¬y :: b <+: [] := fun h => List.cons_ne_nil y b (List.prefix_nil.1 h)
      rw [List.length_cons, List.nil_append, List.cons_append, strncmp]
      split_ifs with hlt hgt
      · exact ⟨-1, rfl, iff_of_false (by decide) hpre⟩
      · exact ⟨1, rfl, iff_of_false (by decide) hpre⟩
      · exact absurd (eq_of_not_lt hlt hgt).symm hy
    | cons x a =>
      rw [List.length_cons, List.cons_append, List.cons_append, strncmp]
      split_ifs with hlt hgt
      · exact ⟨-1, rfl, iff_of_false (by decide) fun h =>
          Int8.ne_of_lt hlt (congrArg UInt8.toInt8 (List.cons_prefix_cons.1 h).1.symm)⟩
      · exact ⟨1, rfl, iff_of_false (by decide) fun h =>
          Int8.ne_of_lt hgt (congrArg UInt8.toInt8 (List.cons_prefix_cons.1 h).1)⟩
      · obtain ⟨r, hr, hzero⟩ := ih a hb
        refine ⟨r, hr, hzero.trans ?_⟩
        rw [List.cons_prefix_cons]
        exact ⟨fun h => ⟨(eq_of_not_lt hlt hgt).symm, h⟩, fun h => h.2⟩

theorem CString.at_length {l : List UInt8} (h : s.bytes = b ++ l) :
    s.at b.length = (l ++ [0]).head? := by
  rw [CString.at, if_neg (by omega), CString.withNul, h, Int.toNat_natCast, List.append_assoc,
    List.getElem?_append_right le_rfl, Nat.sub_self, List.head?_eq_getElem?]

/-- What `getenv` compares is whether the name is that of the string. -/
theorem name_matches (hs : equals ∈ s.bytes) (hb : equals ∉ b) :
    s.name.bytes = b ↔ b <+: s.bytes ∧ s.at b.length = some equals := by
  constructor
  · rintro rfl
    have hbytes := s.bytes_eq hs
    refine ⟨⟨_, hbytes.symm⟩, ?_⟩
    rw [s.at_length hbytes]
    rfl
  · rintro ⟨⟨l, hl⟩, hat⟩
    rw [s.at_length hl.symm] at hat
    cases l with
    | nil => exact absurd hat (by decide)
    | cons c l =>
      rw [List.cons_append, List.head?_cons, Option.some.injEq] at hat
      exact s.name_eq hb (hat ▸ hl.symm)

end strings

/-! ## The array -/

section array

variable {heap : Heap} {es l r : List (ℤ × CString)} {name : CString} {k : ℕ}

/-- Strings with a name, by their addresses in the heap. -/
def InHeap (heap : Heap) (es : List (ℤ × CString)) : Prop :=
  ∀ x ∈ es, 0 < x.1 ∧ heap.lookup x.1 = some x.2 ∧ equals ∈ x.2.bytes

/-- The array: the addresses, and null pointers. -/
def slotsOf (es : List (ℤ × CString)) (k : ℕ) : List ℤ :=
  es.map Prod.fst ++ List.replicate (k + 1) 0

/-- The loop of `getenv` finds the entry of a name. -/
theorem getLoop_eq (hes : InHeap heap es) (hname : equals ∉ name.bytes) (k : ℕ) :
    getLoop heap name name.strlen (slotsOf es k) =
      some ((es.find? fun x => x.2.name.bytes = name.bytes).map fun x =>
        (x.1, (name.strlen : ℤ) + 1)) := by
  induction es with
  | nil => rfl
  | cons x es ih =>
    obtain ⟨⟨hpos, hlookup, heq⟩, hes⟩ := List.forall_mem_cons.1 hes
    obtain ⟨res, hres, hzero⟩ := strncmp_length x.2.bytes name.noNul
    have hmatches := name_matches heq hname
    have hlen : (name.strlen : ℤ).toNat = name.bytes.length := rfl
    have hstrlen : (name.strlen : ℤ) = (name.bytes.length : ℤ) := rfl
    have hslots : slotsOf (x :: es) k = x.1 :: slotsOf es k := rfl
    rw [hslots, getLoop, if_neg hpos.ne']
    simp only [hlookup, hlen, Option.bind_eq_bind, Option.bind_some, CString.withNul, hres]
    rw [List.find?_cons, ih hes]
    by_cases hpre : name.bytes <+: x.2.bytes
    · rw [if_pos (hzero.2 hpre)]
      obtain ⟨c, hc⟩ : ∃ c, x.2.at name.bytes.length = some c := by
        obtain ⟨l, hl⟩ := hpre
        rw [x.2.at_length hl.symm]
        cases l with
        | nil => exact ⟨0, rfl⟩
        | cons c l => exact ⟨c, rfl⟩
      rw [hstrlen, hc, Option.bind_some]
      by_cases heqc : c = equals
      · have hmatch : x.2.name.bytes = name.bytes := hmatches.2 ⟨hpre, heqc ▸ hc⟩
        rw [if_pos heqc, decide_eq_true hmatch]
        rfl
      · have hne : x.2.name.bytes ≠ name.bytes := fun h => by
          have hat := (hmatches.1 h).2
          rw [hc, Option.some.injEq] at hat
          exact heqc hat
        rw [if_neg heqc, decide_eq_false hne]
    · have hne : x.2.name.bytes ≠ name.bytes := fun h => hpre (hmatches.1 h).1
      rw [if_neg (mt hzero.1 hpre), decide_eq_false hne]

/-- The loop of `putenv`, where there is an entry at the address. -/
theorem replaceLoop_eq {x : ℤ × CString} (hpos : ∀ y ∈ l, 0 < y.1) (hne : ∀ y ∈ l, y.1 ≠ x.1)
    (hx : 0 < x.1) (p : ℤ) (s : CString) :
    replaceLoop x.1 p (slotsOf (l ++ x :: r) k) = some (some (slotsOf (l ++ (p, s) :: r) k)) := by
  induction l with
  | nil =>
    have hslots : slotsOf (x :: r) k = x.1 :: slotsOf r k := rfl
    rw [List.nil_append, hslots, replaceLoop, if_neg hx.ne', if_pos rfl]
    rfl
  | cons y l ih =>
    obtain ⟨hy, hpos⟩ := List.forall_mem_cons.1 hpos
    obtain ⟨hyx, hne⟩ := List.forall_mem_cons.1 hne
    have hslots : slotsOf (y :: l ++ x :: r) k = y.1 :: slotsOf (l ++ x :: r) k := rfl
    rw [hslots, replaceLoop, if_neg hy.ne', if_neg hyx, ih hpos hne]
    rfl

/-- The loop of `putenv`, where there is none. -/
theorem replaceLoop_none {old : ℤ} (hpos : ∀ y ∈ es, 0 < y.1) (hne : ∀ y ∈ es, y.1 ≠ old) (p : ℤ) :
    replaceLoop old p (slotsOf es k) = some none := by
  induction es with
  | nil => rfl
  | cons y es ih =>
    obtain ⟨hy, hpos⟩ := List.forall_mem_cons.1 hpos
    obtain ⟨hyx, hne⟩ := List.forall_mem_cons.1 hne
    have hslots : slotsOf (y :: es) k = y.1 :: slotsOf es k := rfl
    rw [hslots, replaceLoop, if_neg hy.ne', if_neg hyx, ih hpos hne]
    rfl

theorem lookup_free {a b : ℤ} (h : b ≠ a) : (heap.free a).lookup b = heap.lookup b := by
  induction heap with
  | nil => rfl
  | cons x heap ih =>
    obtain ⟨c, s⟩ := x
    rw [Heap.free] at ih ⊢
    by_cases hc : c = a
    · have hb : (b == c) = false := beq_false_of_ne (hc ▸ h)
      rw [List.filter_cons_of_neg (by simpa using hc), ih, List.lookup_cons, hb]
    · rw [List.filter_cons_of_pos (by simpa using hc), List.lookup_cons, List.lookup_cons, ih]

theorem free_cons {a : ℤ} (s : CString) (h : heap.lookup a = none) :
    Heap.free ((a, s) :: heap) a = heap := by
  have hne := List.lookup_eq_none_iff.1 h
  rw [Heap.free, List.filter_cons_of_neg (by simp), List.filter_eq_self]
  intro x hx
  exact decide_eq_true fun hxa => bne_iff_ne.1 (hne x hx) hxa.symm

/-- An entry in the first of the null pointers. -/
theorem set_slotsOf (es : List (ℤ × CString)) (k : ℕ) (p : ℤ) (s : CString) :
    (slotsOf es (k + 1)).set es.length p = slotsOf (es ++ [(p, s)]) k := by
  have hlen : es.length = (es.map Prod.fst).length := (List.length_map _).symm
  rw [slotsOf, slotsOf, List.set_append_right _ _ hlen.ge, hlen, Nat.sub_self, List.replicate_succ,
    List.set_cons_zero, List.map_append, List.append_assoc]
  rfl

theorem length_slotsOf (es : List (ℤ × CString)) (k : ℕ) :
    (slotsOf es k).length = es.length + (k + 1) := by
  rw [slotsOf, List.length_append, List.length_map, List.length_replicate]

end array

/-! ## Runs -/

section runs

variable {mem : Malloc} {envp : List Assignment} {e : Env} {m : Bindings} {s : CString}
  {es : List (ℤ × CString)}

/-- The array holds the strings `es`, whose values are those of the map. -/
structure Holds (e : Env) (es : List (ℤ × CString)) (m : Bindings) : Prop where
  inited : e.envInited = true
  slots : ∃ k, e.environ = slotsOf es k ∧ e.envSize = es.length + (k + 1)
  nenv : e.nenv = es.length
  heap : InHeap e.heap es
  nodup : (es.map Prod.fst).Nodup
  binds : ∀ n, m n = (es.find? fun x => x.2.name.bytes = n).map fun x => x.2.value

theorem Holds.null_mem (h : Holds e es m) : 0 ∈ e.environ := by
  obtain ⟨k, hk, -⟩ := h.slots
  rw [hk]
  exact List.mem_append_right _ (List.mem_replicate.2 ⟨Nat.succ_ne_zero k, rfl⟩)

theorem strdup_eq (hlen : s.strlen + 1 < 2 ^ 31) (hfails : mem.fails e.mallocs = false) :
    strdup mem s e = some (mem.addr e.mallocs e.heap, s,
      { e.called with heap := (mem.addr e.mallocs e.heap, s) :: e.heap }) := by
  have hint : toInt s.strlen = s.strlen := toInt_of_lt (by omega)
  have hok : ¬((s.strlen : ℤ) < 0 ∨ 2 ^ 31 ≤ (s.strlen : ℤ) + 1 ∨ mem.fails e.mallocs = true) := by
    rw [hfails]
    rintro (h | h | h)
    · omega
    · omega
    · cases h
  rw [strdup]
  simp only [hint, if_neg hok, Int.toNat_natCast, CString.take_strlen]

/-- What the loop of `env_init` makes. -/
theorem dupLoop_eq {envp : List CString} (hlen : ∀ s ∈ envp, s.strlen + 1 < 2 ^ 31)
    (heq : ∀ s ∈ envp, equals ∈ s.bytes)
    (hfails : ∀ k < envp.length, mem.fails (e.mallocs + k) = false) :
    ∃ es heap, dupLoop mem envp e = some (es.map Prod.fst,
        { e with heap := heap, mallocs := e.mallocs + envp.length }) ∧
      es.map Prod.snd = envp ∧ InHeap heap es ∧ (es.map Prod.fst).Nodup ∧
      (∀ x ∈ es, e.heap.lookup x.1 = none) ∧
      ∀ a s, e.heap.lookup a = some s → heap.lookup a = some s := by
  induction envp generalizing e with
  | nil =>
    exact ⟨[], e.heap, rfl, rfl, fun _ hx => absurd hx List.not_mem_nil, List.nodup_nil,
      fun _ hx => absurd hx List.not_mem_nil, fun _ _ h => h⟩
  | cons s envp ih =>
    obtain ⟨hs, hlen⟩ := List.forall_mem_cons.1 hlen
    obtain ⟨hseq, heq⟩ := List.forall_mem_cons.1 heq
    have hfresh := mem.fresh e.mallocs e.heap
    have hpos := mem.pos e.mallocs e.heap
    have hdup := strdup_eq (e := e) hs (hfails 0 (Nat.succ_pos _))
    generalize mem.addr e.mallocs e.heap = a at hfresh hpos hdup
    have hself : List.lookup a ((a, s) :: e.heap) = some s := List.lookup_cons_self
    have hcons : ∀ b, b ≠ a → List.lookup b ((a, s) :: e.heap) = e.heap.lookup b := by
      intro b hb
      rw [List.lookup_cons, beq_false_of_ne hb]
    obtain ⟨es, heap, hloop, hes, hin, hnodup, hnew, hkeep⟩ :=
      ih (e := { e.called with heap := (a, s) :: e.heap }) hlen heq fun k hk => by
        have hk' := hfails (k + 1) (Nat.succ_lt_succ hk)
        rwa [Nat.add_comm k 1, ← Nat.add_assoc] at hk'
    have hne : ∀ x ∈ es, x.1 ≠ a := fun x hx hxa => by
      have hnone := hnew x hx
      rw [hxa, hself] at hnone
      cases hnone
    refine ⟨(a, s) :: es, heap, ?_, by rw [List.map_cons, hes], ?_, ?_, ?_, ?_⟩
    · rw [dupLoop, hdup]
      simp only [Option.bind_eq_bind, Option.bind_some, hloop]
      rw [List.length_cons, Nat.add_comm envp.length 1, ← Nat.add_assoc]
      rfl
    · exact List.forall_mem_cons.2 ⟨⟨hpos, hkeep a s hself, hseq⟩, hin⟩
    · refine List.nodup_cons.2 ⟨fun ha => ?_, hnodup⟩
      obtain ⟨x, hx, hxa⟩ := List.mem_map.1 ha
      exact hne x hx hxa
    · exact List.forall_mem_cons.2 ⟨hfresh, fun x hx => (hcons x.1 (hne x hx)) ▸ hnew x hx⟩
    · intro b t hb
      have hba : b ≠ a := fun hba => by
        rw [hba, hfresh] at hb
        cases hb
      exact hkeep b t ((hcons b hba).trans hb)

/-- The state before a call: the array has not been made yet, or holds the strings. -/
def Ready (envp : List Assignment) (e : Env) (m : Bindings) : Prop :=
  e.envInited = false ∧ m = bindings envp ∨ ∃ es, Holds e es m

/-- `env_init` makes an array. -/
theorem envInit_eq {envp : List CString} (hcount : envp.length + 1 < 2 ^ 31)
    (hlen : ∀ s ∈ envp, s.strlen + 1 < 2 ^ 31) (heq : ∀ s ∈ envp, equals ∈ s.bytes)
    (hfails : ∀ k < envp.length + 1, mem.fails (e.mallocs + k) = false)
    (hm : ∀ n, m n = (envp.find? fun s => s.name.bytes = n).map CString.value) :
    ∃ es e', envInit mem envp e = some e' ∧ Holds e' es m ∧ es.map Prod.snd = envp ∧
      e'.mallocs = e.mallocs + (envp.length + 1) ∧ e'.envSize = envp.length + 1 ∧
      (∀ x ∈ es, e.heap.lookup x.1 = none) ∧
      ∀ a s, e.heap.lookup a = some s → e'.heap.lookup a = some s := by
  obtain ⟨es, heap, hloop, hes, hin, hnodup, hnew, hkeep⟩ :=
    dupLoop_eq (e := e.called) hlen heq (show ∀ k < envp.length,
        mem.fails (e.called.mallocs + k) = false from fun k hk => by
      have hk' := hfails (k + 1) (Nat.succ_lt_succ hk)
      rwa [Nat.add_comm k 1, ← Nat.add_assoc] at hk')
  have hint : toInt envp.length = envp.length := toInt_of_lt (by omega)
  have hok : ¬((envp.length : ℤ) < 0 ∨ 2 ^ 31 ≤ (envp.length : ℤ) + 1 ∨
      mem.fails e.mallocs = true) := by
    have h₀ : mem.fails e.mallocs = false := hfails 0 (Nat.succ_pos _)
    rw [h₀]
    rintro (h | h | h)
    · omega
    · omega
    · cases h
  have hlength : es.length = envp.length := by rw [← hes, List.length_map]
  refine ⟨es, { e with
    heap := heap, environ := es.map Prod.fst ++ [0], envSize := envp.length + 1
    nenv := envp.length, envInited := true, mallocs := e.mallocs + 1 + envp.length },
    ?_, ?_, hes, ?_, rfl, hnew, hkeep⟩
  · rw [envInit]
    simp only [hint, if_neg hok, Int.toNat_natCast, List.take_length, hloop,
      Option.bind_eq_bind, Option.bind_some]
    rfl
  · refine ⟨rfl, ⟨0, rfl, by rw [hlength]⟩, hlength.symm, hin, hnodup, fun n => ?_⟩
    rw [hm, ← hes, List.find?_map, Option.map_map]
    rfl
  · show e.mallocs + 1 + envp.length = e.mallocs + (envp.length + 1)
    omega

/-- The strings in the array. -/
theorem Holds.entries (h : Holds e es m) (envp : List CString) :
    e.entries envp = es.map Prod.snd := by
  obtain ⟨k, hk, -⟩ := h.slots
  have hpos : ∀ a ∈ es.map Prod.fst, decide (a ≠ 0) = true := by
    intro a ha
    obtain ⟨x, hx, rfl⟩ := List.mem_map.1 ha
    exact decide_eq_true (h.heap x hx).1.ne'
  have htake : (slotsOf es k).takeWhile (fun a => decide (a ≠ 0)) = es.map Prod.fst := by
    rw [slotsOf, List.takeWhile_append_of_pos hpos, List.replicate_succ,
      List.takeWhile_cons_of_neg (by simp), List.append_nil]
  rw [Env.entries, if_pos h.inited, hk, htake]
  have hin := h.heap
  clear h hk hpos htake
  induction es with
  | nil => rfl
  | cons x es ih =>
    obtain ⟨hx, hes⟩ := List.forall_mem_cons.1 hin
    rw [List.map_cons, List.filterMap_cons, hx.2.1, ih hes, List.map_cons]

/-- What there is behind `if (!__env_init) env_init()`, for a heap with more strings. -/
structure Prepared (envp : List CString) (e : Env) (heap : Heap) (m : Bindings) (e' : Env)
    (es : List (ℤ × CString)) : Prop where
  holds : Holds e' es m
  mallocs : e'.mallocs = e.mallocs + if e.envInited then 0 else envp.length + 1
  entries : es.map Prod.snd = e.entries envp
  size : e'.envSize = e.capacity envp
  keeps : ∀ a s, heap.lookup a = some s → e'.heap.lookup a = some s
  new : ∀ a s, heap.lookup a = some s → e.heap.lookup a = none → ∀ x ∈ es, x.1 ≠ a

theorem ensureInit_eq (h : Ready envp e m) {c : EnvCall}
    (hfits : EnvFits mem (envp.map Assignment.str) e c) {heap : Heap}
    (hkeep : ∀ a s, e.heap.lookup a = some s → heap.lookup a = some s) :
    ∃ e' es, ensureInit mem (envp.map Assignment.str) { e with heap := heap } = some e' ∧
      Prepared (envp.map Assignment.str) e heap m e' es := by
  have hcalls : ∀ k < if e.envInited then 0 else (envp.map Assignment.str).length + 1,
      mem.fails (e.mallocs + k) = false :=
    fun k hk => hfits.succeeds k (hk.trans_le (Nat.le_add_right _ _))
  rcases h with ⟨hinit, rfl⟩ | ⟨es, hholds⟩
  · have hnot : ¬e.envInited = true := by rw [hinit]; exact Bool.false_ne_true
    rw [if_neg hnot] at hcalls
    have heq : ∀ s ∈ envp.map Assignment.str, equals ∈ s.bytes := by
      intro s hs
      obtain ⟨x, -, rfl⟩ := List.mem_map.1 hs
      exact x.hasEq
    have hm : ∀ n, bindings envp n =
        ((envp.map Assignment.str).find? fun s => s.name.bytes = n).map CString.value := by
      intro n
      rw [bindings, List.find?_map, Option.map_map]
      rfl
    obtain ⟨es, e', he', hholds, hes, hmallocs, hsize, hnew, hkeeps⟩ :=
      envInit_eq (e := { e with heap := heap }) (hfits.count hinit)
        (hfits.lengths hinit) heq hcalls hm
    refine ⟨e', es, ?_, hholds, ?_, ?_, ?_, hkeeps, ?_⟩
    · rw [ensureInit, if_neg hnot]
      exact he'
    · rw [if_neg hnot]
      exact hmallocs
    · rw [Env.entries, if_neg hnot]
      exact hes
    · rw [Env.capacity, if_neg hnot]
      exact hsize
    · intro a s ha _ x hx hxa
      have hnone := hnew x hx
      rw [hxa, show Env.heap { e with heap := heap } = heap from rfl, ha] at hnone
      cases hnone
  · refine ⟨{ e with heap := heap }, es, ?_, ⟨hholds.inited, hholds.slots, hholds.nenv,
      fun x hx => ?_, hholds.nodup, hholds.binds⟩, ?_, (hholds.entries _).symm, ?_,
      fun a s ha => ha, ?_⟩
    · rw [ensureInit]
      exact if_pos hholds.inited
    · obtain ⟨hpos, hlookup, heq⟩ := hholds.heap x hx
      exact ⟨hpos, hkeep x.1 x.2 hlookup, heq⟩
    · rw [if_pos hholds.inited]
      rfl
    · rw [Env.capacity, if_pos hholds.inited]
    · intro a s _ hnone x hx hxa
      have hlookup := (hholds.heap x hx).2.1
      rw [hxa, hnone] at hlookup
      cases hlookup

/-- `getenv` behind `env_init`. -/
theorem Holds.find (h : Holds e es m) {name : CString} (hname : equals ∉ name.bytes)
    (hlen : name.strlen < 2 ^ 31) :
    e.find name = some ((es.find? fun x => x.2.name.bytes = name.bytes).map fun x =>
      (x.1, (name.strlen : ℤ) + 1)) := by
  obtain ⟨k, hk, -⟩ := h.slots
  rw [Env.find, toInt_of_lt hlen, hk]
  exact getLoop_eq h.heap hname k

theorem get_spec (h : Ready envp e m) {name : VarName}
    (hfits : EnvFits mem (envp.map Assignment.str) e (.get name)) :
    ∃ e' es, (EnvCall.get name).exec mem (envp.map Assignment.str) e =
      some (.value (m name.str.bytes), e') ∧ Holds e' es m := by
  obtain ⟨e', es, he', hprep⟩ := ensureInit_eq h hfits (fun _ _ (h : e.heap.lookup _ = some _) => h)
  have hholds := hprep.holds
  have hfind := hholds.find name.noEq hfits.length_lt
  refine ⟨e', es, ?_, hholds⟩
  rw [EnvCall.exec, getenv]
  simp only [he', Option.bind_eq_bind, Option.bind_some, hfind]
  rw [hholds.binds]
  cases hes : es.find? fun x => x.2.name.bytes = name.str.bytes with
  | none => rfl
  | some x =>
    have hx : x.2.name.bytes = name.str.bytes := by simpa using List.find?_some hes
    obtain ⟨-, hlookup, heq⟩ := hholds.heap x (List.mem_of_find?_eq_some hes)
    have hdrop : x.2.bytes.drop (name.str.strlen + 1) = x.2.value := by
      rw [x.2.bytes_eq heq, CString.strlen, ← hx, ← List.drop_drop, List.drop_left]
      rfl
    simp only [Option.map_some, Option.pure_def, Option.bind_some, hlookup]
    rw [show ((name.str.strlen : ℤ) + 1).toNat = name.str.strlen + 1 by omega, hdrop]

/-- The first entry of a name is replaced. -/
theorem find?_replace {l r : List (ℤ × CString)} {x y : ℤ × CString} {b : List UInt8}
    (hl : ∀ z ∈ l, z.2.name.bytes ≠ b) (hx : x.2.name.bytes = b) (hy : y.2.name.bytes = b)
    (n : List UInt8) :
    ((l ++ y :: r).find? fun z => z.2.name.bytes = n).map (fun z => z.2.value) =
      Function.update (fun n => ((l ++ x :: r).find? fun z => z.2.name.bytes = n).map fun z =>
        z.2.value) b (some y.2.value) n := by
  by_cases hn : n = b
  · subst hn
    have hnone : (l.find? fun z => decide (z.2.name.bytes = n)) = none :=
      List.find?_eq_none.2 fun z hz => by simpa using hl z hz
    rw [Function.update_self, List.find?_append, hnone, Option.none_or,
      List.find?_cons_of_pos (by simpa using hy)]
    rfl
  · rw [Function.update_of_ne hn, List.find?_append, List.find?_append,
      List.find?_cons_of_neg (by simpa [hy] using Ne.symm hn),
      List.find?_cons_of_neg (by simpa [hx] using Ne.symm hn)]

theorem find?_concat {y : ℤ × CString} {b : List UInt8} (hes : ∀ z ∈ es, z.2.name.bytes ≠ b)
    (hy : y.2.name.bytes = b) (n : List UInt8) :
    ((es ++ [y]).find? fun z => z.2.name.bytes = n).map (fun z => z.2.value) =
      Function.update (fun n => (es.find? fun z => z.2.name.bytes = n).map fun z => z.2.value) b
        (some y.2.value) n := by
  rw [List.find?_append]
  by_cases hn : n = b
  · subst hn
    have hnone : (es.find? fun z => decide (z.2.name.bytes = n)) = none :=
      List.find?_eq_none.2 fun z hz => by simpa using hes z hz
    rw [Function.update_self, hnone, Option.none_or, List.find?_cons_of_pos (by simpa using hy)]
    rfl
  · rw [Function.update_of_ne hn, List.find?_cons_of_neg (by simpa [hy] using Ne.symm hn),
      List.find?_nil, Option.or_none]

/-- An entry in place of another one of its name. -/
theorem Holds.replace {l r : List (ℤ × CString)} {x : ℤ × CString} (h : Holds e (l ++ x :: r) m)
    {p : ℤ} (hpos : 0 < p) (hp : e.heap.lookup p = some s) (hnew : ∀ y ∈ l ++ x :: r, y.1 ≠ p)
    (hs : equals ∈ s.bytes) (hname : x.2.name.bytes = s.name.bytes)
    (hl : ∀ y ∈ l, y.2.name.bytes ≠ s.name.bytes) {environ : List ℤ} {k : ℕ}
    (henviron : environ = slotsOf (l ++ (p, s) :: r) k)
    (hsize : e.envSize = (l ++ (p, s) :: r).length + (k + 1)) (mallocs : ℕ) :
    Holds { e with heap := e.heap.free x.1, environ := environ, mallocs := mallocs }
      (l ++ (p, s) :: r) (Function.update m s.name.bytes (some s.value)) := by
  have hnodup := h.nodup
  rw [List.map_append, List.map_cons, List.nodup_middle, List.nodup_cons] at hnodup
  have hx : ∀ y, y ∈ l ∨ y ∈ r → y.1 ≠ x.1 := by
    intro y hy hyx
    refine hnodup.1 ?_
    rw [← hyx, ← List.map_append]
    exact List.mem_map_of_mem (List.mem_append.2 hy)
  have hmem : ∀ y, y ∈ l ∨ y ∈ r → y ∈ l ++ x :: r := fun y hy =>
    List.mem_append.2 (hy.imp_right (List.mem_cons_of_mem x))
  refine ⟨h.inited, ⟨k, henviron, hsize⟩, ?_, ?_, ?_, ?_⟩
  · rw [h.nenv, List.length_append, List.length_append]
    rfl
  · intro y hy
    rcases List.mem_append.1 hy with hyl | hyr
    · obtain ⟨hy₀, hlookup, heq⟩ := h.heap y (hmem y (.inl hyl))
      exact ⟨hy₀, (lookup_free (hx y (.inl hyl))).trans hlookup, heq⟩
    · rcases List.mem_cons.1 hyr with rfl | hyr
      · have hne : p ≠ x.1 := fun hpx => hnew x (List.mem_append_right _ List.mem_cons_self) hpx.symm
        exact ⟨hpos, (lookup_free hne).trans hp, hs⟩
      · obtain ⟨hy₀, hlookup, heq⟩ := h.heap y (hmem y (.inr hyr))
        exact ⟨hy₀, (lookup_free (hx y (.inr hyr))).trans hlookup, heq⟩
  · rw [List.map_append, List.map_cons, List.nodup_middle, List.nodup_cons]
    refine ⟨fun hpmem => ?_, hnodup.2⟩
    rw [← List.map_append] at hpmem
    obtain ⟨y, hy, hyp⟩ := List.mem_map.1 hpmem
    exact hnew y (hmem y (List.mem_append.1 hy)) hyp
  · intro n
    rw [find?_replace hl hname rfl]
    exact congrArg (fun m => Function.update m s.name.bytes (some s.value) n) (funext h.binds)

/-- An entry of a new name. -/
theorem Holds.concat (h : Holds e es m) {p : ℤ} (hpos : 0 < p) (hp : e.heap.lookup p = some s)
    (hnew : ∀ y ∈ es, y.1 ≠ p) (hs : equals ∈ s.bytes)
    (hes : ∀ y ∈ es, y.2.name.bytes ≠ s.name.bytes) {environ : List ℤ} {k size : ℕ}
    (henviron : environ = slotsOf (es ++ [(p, s)]) k) (hsize : size = es.length + 1 + (k + 1))
    (mallocs : ℕ) :
    Holds { e with environ := environ, envSize := size, nenv := e.nenv + 1, mallocs := mallocs }
      (es ++ [(p, s)]) (Function.update m s.name.bytes (some s.value)) := by
  have hlen : (es ++ [(p, s)]).length = es.length + 1 := by
    rw [List.length_append, List.length_singleton]
  refine ⟨h.inited, ⟨k, henviron, by rw [hlen]; exact hsize⟩, ?_, ?_, ?_, ?_⟩
  · rw [hlen, h.nenv]
  · intro y hy
    rcases List.mem_append.1 hy with hy | hy
    · exact h.heap y hy
    · rw [List.mem_singleton.1 hy]
      exact ⟨hpos, hp, hs⟩
  · rw [List.map_append, List.map_singleton, List.nodup_append_comm, List.singleton_append,
      List.nodup_cons]
    refine ⟨fun hpmem => ?_, h.nodup⟩
    obtain ⟨y, hy, hyp⟩ := List.mem_map.1 hpmem
    exact hnew y hy hyp
  · intro n
    rw [find?_concat hes rfl]
    exact congrArg (fun m => Function.update m s.name.bytes (some s.value) n) (funext h.binds)

/-- The array of twice the size. -/
theorem grow_eq (hnenv : e.nenv = es.length) (henviron : e.environ = slotsOf es 0)
    (hsize : e.envSize = es.length + 1) :
    e.grow = some { e.called with
      environ := slotsOf es (es.length + 1), envSize := (es.length + 1) * 2 } := by
  have hlen : e.environ.length = es.length + 1 := by rw [henviron, length_slotsOf]
  have htake : e.environ.take e.nenv = es.map Prod.fst := by
    rw [henviron, hnenv, slotsOf, List.take_left' (List.length_map _)]
  rw [Env.grow, if_pos ⟨by omega, by omega⟩, htake, hsize, hnenv, Option.some.injEq, slotsOf,
    show (es.length + 1) * 2 - es.length = es.length + 1 + 1 by omega]

/-- `environ[nenv] = p` in an array with more than one null pointer. -/
theorem append_eq {k : ℕ} (hnenv : e.nenv = es.length) (henviron : e.environ = slotsOf es (k + 1))
    {p : ℤ} (hpos : 0 < p) (s : CString) :
    e.append p = some (0, { e with environ := slotsOf (es ++ [(p, s)]) k, nenv := e.nenv + 1 }) := by
  have hlen : e.environ.length = es.length + (k + 1 + 1) := by rw [henviron, length_slotsOf]
  rw [Env.append, if_pos (by omega)]
  simp only [if_neg hpos.ne']
  rw [henviron, hnenv, set_slotsOf es k p s]

/-- A string more in the heap. -/
theorem Holds.cons (h : Holds e es m) {a : ℤ} (ha : e.heap.lookup a = none) (t : CString)
    (mallocs : ℕ) : Holds { e with heap := (a, t) :: e.heap, mallocs := mallocs } es m := by
  refine ⟨h.inited, h.slots, h.nenv, fun x hx => ?_, h.nodup, h.binds⟩
  obtain ⟨hpos, hlookup, heq⟩ := h.heap x hx
  have hne : x.1 ≠ a := fun hxa => by
    rw [hxa, ha] at hlookup
    cases hlookup
  refine ⟨hpos, ?_, heq⟩
  rwa [List.lookup_cons, beq_false_of_ne hne]

/-- `putenv` once the name is known, and the copy of the string is free again. -/
def Env.put (mem : Malloc) (e : Env) (p old : ℤ) : Option (ℤ × Env) := do
  match ← replaceLoop old p e.environ with
  | some environ => return (0, { e with heap := Heap.free e.heap old, environ := environ })
  | none =>
    if e.nenv + 2 > e.envSize then
      if mem.fails e.mallocs then return (-1, e.called)
      else
        let e ← e.grow
        e.append p
    else e.append p

theorem putenv_eq {envp : List CString} {e₁ : Env} {p : ℤ} (he₁ : ensureInit mem envp e = some e₁)
    (hholds : Holds e₁ es m) (hp : e₁.heap.lookup p = some s) (hs : equals ∈ s.bytes)
    (hlen : s.strlen + 1 < 2 ^ 31) (hfails : mem.fails e₁.mallocs = false) :
    putenv mem envp p e = e₁.called.put mem p
      (((es.find? fun x => x.2.name.bytes = s.name.bytes).elim 0 fun x =>
        x.1 + (s.name.strlen + 1)) - (s.name.strlen + 1)) := by
  have hdup := strdup_eq (e := e₁) hlen hfails
  have hfresh := mem.fresh e₁.mallocs e₁.heap
  generalize mem.addr e₁.mallocs e₁.heap = a at hdup hfresh
  have hname : s.name.strlen < 2 ^ 31 := by
    have hle : s.name.bytes.length ≤ s.bytes.length := (List.takeWhile_prefix _).length_le
    rw [CString.strlen] at hlen ⊢
    omega
  have hfind := (hholds.cons hfresh s (e₁.mallocs + 1)).find s.name_noEq hname
  rw [putenv]
  simp only [he₁, Option.bind_eq_bind, Option.bind_some, hp, hdup, hs, not_true_eq_false, if_false]
  rw [show ({ e₁.called with heap := (a, s) :: e₁.heap } : Env) =
    { e₁ with heap := (a, s) :: e₁.heap, mallocs := e₁.mallocs + 1 } from rfl, hfind]
  simp only [Option.bind_some, Option.elim_map, free_cons s hfresh]
  rfl

/-- A call for a name that there is. -/
theorem Holds.put_found (h : Holds e es m) (mem : Malloc) {p : ℤ} (hpos : 0 < p)
    (hp : e.heap.lookup p = some s) (hnew : ∀ y ∈ es, y.1 ≠ p) (hs : equals ∈ s.bytes)
    {x : ℤ × CString} (hx : (es.find? fun x => x.2.name.bytes = s.name.bytes) = some x) :
    ∃ e' es', e.put mem p x.1 = some (0, e') ∧
      Holds e' es' (Function.update m s.name.bytes (some s.value)) := by
  have hname : x.2.name.bytes = s.name.bytes := by simpa using List.find?_some hx
  obtain ⟨-, l, r, rfl, hl⟩ := List.find?_eq_some_iff_append.1 hx
  have hl : ∀ y ∈ l, y.2.name.bytes ≠ s.name.bytes := fun y hy => by simpa using hl y hy
  have hnodup := h.nodup
  rw [List.map_append, List.map_cons, List.nodup_middle, List.nodup_cons] at hnodup
  have hne : ∀ y ∈ l, y.1 ≠ x.1 := fun y hy hyx =>
    hnodup.1 (hyx ▸ List.mem_append_left _ (List.mem_map_of_mem hy))
  obtain ⟨k, hk, hsize⟩ := h.slots
  have hreplace := replaceLoop_eq (r := r) (k := k)
    (fun y hy => (h.heap y (List.mem_append_left _ hy)).1) hne
    (h.heap x (List.mem_append_right _ List.mem_cons_self)).1 p s
  refine ⟨_, l ++ (p, s) :: r, ?_, h.replace hpos hp hnew hs hname hl
    (show slotsOf (l ++ (p, s) :: r) k = slotsOf (l ++ (p, s) :: r) k from rfl) ?_ e.mallocs⟩
  · rw [Env.put, hk, hreplace]
    rfl
  · rw [hsize, List.length_append, List.length_append]
    rfl

/-- A call for a new name; `old` is less than a null pointer. -/
theorem Holds.put_new (h : Holds e es m) {p : ℤ} (hpos : 0 < p) (hp : e.heap.lookup p = some s)
    (hnew : ∀ y ∈ es, y.1 ≠ p) (hs : equals ∈ s.bytes)
    (hes : ∀ y ∈ es, y.2.name.bytes ≠ s.name.bytes) {old : ℤ} (hold : old < 0)
    (hfails : e.envSize < es.length + 2 → mem.fails e.mallocs = false) :
    ∃ e' es', e.put mem p old = some (0, e') ∧
      Holds e' es' (Function.update m s.name.bytes (some s.value)) := by
  obtain ⟨k, hk, hsize⟩ := h.slots
  have hnenv := h.nenv
  have hreplace := replaceLoop_none (k := k) (fun y hy => (h.heap y hy).1)
    (fun y hy => (hold.trans (h.heap y hy).1).ne') p
  rw [Env.put, hk, hreplace]
  simp only [Option.bind_eq_bind, Option.bind_some]
  cases k with
  | zero =>
    have hfull : e.nenv + 2 > e.envSize := by omega
    have hgrow := grow_eq hnenv hk hsize
    have happend := append_eq (e := { e.called with
      environ := slotsOf es (es.length + 1), envSize := (es.length + 1) * 2 }) hnenv rfl hpos s
    have hdouble : (es.length + 1) * 2 = es.length + 1 + (es.length + 1) := by omega
    rw [if_pos hfull, if_neg (by rw [hfails (by omega)]; exact Bool.false_ne_true), hgrow,
      Option.bind_some]
    exact ⟨_, _, happend, h.concat hpos hp hnew hs hes rfl hdouble (e.mallocs + 1)⟩
  | succ k =>
    have hroom : ¬e.nenv + 2 > e.envSize := by omega
    rw [if_neg hroom, append_eq hnenv hk hpos s]
    exact ⟨_, _, rfl, h.concat hpos hp hnew hs hes rfl (by omega) e.mallocs⟩

theorem put_spec (h : Ready envp e m) {p : ℤ} {s : Assignment}
    (hdistinct : (EnvCall.put p s).Distinct e)
    (hfits : EnvFits mem (envp.map Assignment.str) e (.put p s)) :
    ∃ e' es, (EnvCall.put p s).exec mem (envp.map Assignment.str) e = some (.ret 0, e') ∧
      Holds e' es (Function.update m s.str.name.bytes (some s.str.value)) := by
  obtain ⟨hpos, hfresh⟩ := hdistinct
  have hself : List.lookup p ((p, s.str) :: e.heap) = some s.str := List.lookup_cons_self
  obtain ⟨e₁, es, he₁, hprep⟩ := ensureInit_eq h hfits (show ∀ a t, e.heap.lookup a = some t →
      List.lookup a ((p, s.str) :: e.heap) = some t by
    intro a t ha
    have hne : a ≠ p := fun hap => by
      rw [hap, hfresh] at ha
      cases ha
    rwa [List.lookup_cons, beq_false_of_ne hne])
  have hholds : Holds e₁.called es m :=
    ⟨hprep.holds.inited, hprep.holds.slots, hprep.holds.nenv, hprep.holds.heap,
      hprep.holds.nodup, hprep.holds.binds⟩
  have hp := hprep.keeps p s.str hself
  have hnew := hprep.new p s.str hself hfresh
  have hcalls : ∀ k < if e.full (envp.map Assignment.str) s then 2 else 1,
      mem.fails (e₁.mallocs + k) = false := by
    intro k hk
    have hfails := hfits.succeeds ((if e.envInited then 0 else (envp.map _).length + 1) + k)
      (Nat.add_lt_add_left hk _)
    rwa [hprep.mallocs, Nat.add_assoc]
  have hput := putenv_eq he₁ hprep.holds hp s.hasEq hfits.length_lt
    (hcalls 0 (by split <;> decide))
  have hexec : ∀ e', e₁.called.put mem p (((es.find? fun x =>
        x.2.name.bytes = s.str.name.bytes).elim 0 fun x => x.1 + (s.str.name.strlen + 1)) -
        (s.str.name.strlen + 1)) = some (0, e') →
      (EnvCall.put p s).exec mem (envp.map Assignment.str) e = some (.ret 0, e') := by
    intro e' he'
    rw [EnvCall.exec, hput, he']
    rfl
  cases hes : es.find? fun x => x.2.name.bytes = s.str.name.bytes with
  | some x =>
    obtain ⟨e', es', he', hholds'⟩ := hholds.put_found mem hpos hp hnew s.hasEq hes
    refine ⟨e', es', hexec e' ?_, hholds'⟩
    rw [hes, Option.elim_some, Int.add_sub_cancel, he']
  | none =>
    have hnone : ∀ y ∈ es, y.2.name.bytes ≠ s.str.name.bytes := fun y hy => by
      simpa using List.find?_eq_none.1 hes y hy
    obtain ⟨e', es', he', hholds'⟩ := hholds.put_new hpos hp hnew s.hasEq hnone
      (show (0 : ℤ) - (s.str.name.strlen + 1) < 0 by omega)
      (show e₁.called.envSize < es.length + 2 → mem.fails e₁.called.mallocs = false from fun hsize => by
        have hfull : e.full (envp.map Assignment.str) s = true := by
          have hlen : (e.entries (envp.map Assignment.str)).length = es.length := by
            rw [← hprep.entries, List.length_map]
          rw [Env.full, Bool.and_eq_true, List.all_eq_true, decide_eq_true_eq, hlen, ← hprep.size,
            ← hprep.entries]
          refine ⟨fun t ht => ?_, hsize⟩
          obtain ⟨y, hy, rfl⟩ := List.mem_map.1 ht
          exact decide_eq_true (hnone y hy)
        exact hcalls 1 (by rw [hfull]; decide))
    refine ⟨e', es', hexec e' ?_, hholds'⟩
    rw [hes, Option.elim_none, he']

/-- What one call does. -/
theorem envCall_spec (h : Ready envp e m) {c : EnvCall} (hdistinct : c.Distinct e)
    (hfits : EnvFits mem (envp.map Assignment.str) e c) :
    ∃ e' es, c.exec mem (envp.map Assignment.str) e = some (c.answer m, e') ∧
      Holds e' es (c.after m) := by
  cases c with
  | get name => exact get_spec h hfits
  | put p s => exact put_spec h hdistinct hfits

theorem serves_of_ready (h : Ready envp e m) {calls : List EnvCall}
    (hcalls : Always (fun x c => c.Distinct x.1 ∧ EnvFits mem (envp.map Assignment.str) x.1 c)
      (envStep mem (envp.map Assignment.str)) (e, m) calls) :
    Always (Serves mem (envp.map Assignment.str)) (envStep mem (envp.map Assignment.str))
      (e, m) calls := by
  induction calls generalizing e m with
  | nil => trivial
  | cons c calls ih =>
    obtain ⟨⟨hdistinct, hfits⟩, hcalls⟩ := hcalls
    obtain ⟨e', es, he', hholds⟩ := envCall_spec h hdistinct hfits
    have hstep : envStep mem (envp.map Assignment.str) (e, m) c = (e', c.after m) := by
      rw [envStep, he']
      rfl
    refine ⟨⟨e', he', hholds.null_mem⟩, ?_⟩
    rw [hstep] at hcalls ⊢
    exact ih (.inr ⟨es, hholds⟩) hcalls

end runs

/-- In runs of calls whose strings are short enough, and for which `malloc` does not fail, the
environment is a map. -/
theorem env_serves (mem : Malloc) (envp : List Assignment) (heap : Heap) {calls : List EnvCall}
    (h : Always (fun x c => c.Distinct x.1 ∧ EnvFits mem (envp.map Assignment.str) x.1 c)
      (envStep mem (envp.map Assignment.str)) (Env.start heap, bindings envp) calls) :
    Always (Serves mem (envp.map Assignment.str)) (envStep mem (envp.map Assignment.str))
      (Env.start heap, bindings envp) calls :=
  serves_of_ready (.inl ⟨rfl, rfl⟩) h

/-- The address behind all others. -/
def Heap.top (h : Heap) : ℤ := h.foldr (fun x a => max x.1 a) 0

theorem Heap.top_nonneg (h : Heap) : 0 ≤ h.top := by
  induction h with
  | nil => exact le_rfl
  | cons x h ih => exact ih.trans (le_max_right _ _)

theorem Heap.le_top {h : Heap} {x : ℤ × CString} (hx : x ∈ h) : x.1 ≤ h.top := by
  induction h with
  | nil => exact absurd hx List.not_mem_nil
  | cons y h ih =>
    rcases List.mem_cons.1 hx with rfl | hx
    · exact le_max_left _ _
    · exact (ih hx).trans (le_max_right _ _)

/-- New blocks are behind the others. -/
def bumpMalloc : Malloc where
  fails _ := false
  addr _ h := Heap.top h + 1
  pos _ h := Int.lt_add_one_of_le (Heap.top_nonneg h)
  fresh _ _ := List.lookup_eq_none_iff.2 fun _ hx =>
    bne_iff_ne.2 fun hxa => (Heap.le_top hx).not_gt (hxa ▸ Int.lt_succ _)

/-- The name `a`. -/
def nameA : VarName where
  str := ⟨['a'.toUInt8], List.forall_mem_singleton.2 (by decide)⟩
  noEq h := absurd (List.mem_singleton.1 h) (by decide)

/-- The string `a=` and a character. -/
def assignA (c : UInt8) (hc : c ≠ 0) : Assignment where
  str := ⟨['a'.toUInt8, equals, c], by
    simp only [List.forall_mem_cons]
    exact ⟨by decide, by decide, hc, fun _ h => absurd h List.not_mem_nil⟩⟩
  hasEq := List.mem_cons_of_mem _ List.mem_cons_self

theorem fits_of_short {c : EnvCall} (hc : c.length < 2 ^ 31) (e : Env) :
    EnvFits bumpMalloc [(assignA 49 (by decide)).str] e c where
  count _ := by decide
  lengths _ := List.forall_mem_singleton.2 (by decide)
  length_lt := hc
  succeeds _ _ := rfl

/-- The variable `a` is set, and looked up. -/
theorem env_serves_set :
    Always (Serves bumpMalloc ([assignA 49 (by decide)].map Assignment.str))
      (envStep bumpMalloc ([assignA 49 (by decide)].map Assignment.str))
      (Env.start [], bindings [assignA 49 (by decide)])
      [.put 64 (assignA 50 (by decide)), .get nameA] :=
  env_serves bumpMalloc [assignA 49 (by decide)] []
    ⟨⟨⟨by decide, rfl⟩, fits_of_short (by decide) _⟩, ⟨trivial, fits_of_short (by decide) _⟩, trivial⟩

/-- `n` times the letter `a`. -/
def nameAs (n : ℕ) : VarName where
  str := ⟨List.replicate n 'a'.toUInt8, fun x hx => by
    rw [List.eq_of_mem_replicate hx]
    decide⟩
  noEq h := absurd (List.eq_of_mem_replicate h) (by decide)

/-- The environment behind `env_init`. -/
def envA : Env := ⟨[(1, (assignA 49 (by decide)).str)], [1, 0], 2, 1, true, 2⟩

/-- A name whose length is one as an `int` is taken for the name `a`. -/
theorem exec_nameAs {n : ℕ} (hn : toInt (n + 1) = 1) :
    (EnvCall.get (nameAs (n + 1))).exec bumpMalloc [(assignA 49 (by decide)).str] (Env.start []) =
      some (.value (some [49]), envA) := by
  have hinit : ensureInit bumpMalloc [(assignA 49 (by decide)).str] (Env.start []) = some envA := rfl
  have hcmp : strncmp 1 (assignA 49 (by decide)).str.withNul (nameAs (n + 1)).str.withNul =
      some 0 := rfl
  have hlen : (nameAs (n + 1)).str.strlen = n + 1 := List.length_replicate
  have hlookup : List.lookup 1 [((1 : ℤ), (assignA 49 (by decide)).str)] =
      some (assignA 49 (by decide)).str := rfl
  have hfind : envA.find (nameAs (n + 1)).str = some (some (1, 2)) := by
    rw [Env.find, hlen, hn, envA, getLoop, if_neg (by decide), hlookup]
    simp only [Option.bind_eq_bind, Option.bind_some, Int.toNat_one, hcmp, if_true]
    rfl
  rw [EnvCall.exec, getenv, hinit]
  simp only [Option.bind_eq_bind, Option.bind_some, hfind]
  rfl

theorem bindings_nameAs {n : ℕ} (hn : n ≠ 0) :
    bindings [assignA 49 (by decide)] (nameAs (n + 1)).str.bytes = none := by
  have hne : (assignA 49 (by decide)).str.name.bytes ≠ (nameAs (n + 1)).str.bytes := by
    intro heq
    have hlength : 1 = (List.replicate (n + 1) 'a'.toUInt8).length := congrArg List.length heq
    rw [List.length_replicate] at hlength
    omega
  rw [bindings, List.find?_cons_of_neg (by simpa using hne)]
  rfl

/-- With `2 ^ 32 + 1` letters, the value of `a` is returned. -/
theorem env_confuses : ¬∀ (mem : Malloc) (envp : List Assignment) (heap : Heap)
    (calls : List EnvCall), (envp.map fun s => s.str.name.bytes).Nodup →
    Always (fun x c => c.Distinct x.1) (envStep mem (envp.map Assignment.str))
      (Env.start heap, bindings envp) calls →
    Always (Serves mem (envp.map Assignment.str)) (envStep mem (envp.map Assignment.str))
      (Env.start heap, bindings envp) calls := by
  intro h
  have hexec := exec_nameAs (show toInt (2 ^ 32 + 1) = 1 by decide)
  have hbindings := bindings_nameAs (Nat.two_pow_pos 32).ne'
  generalize nameAs (2 ^ 32 + 1) = name at hexec hbindings
  obtain ⟨⟨e, he, -⟩, -⟩ := h bumpMalloc [assignA 49 (by decide)] [] [.get name]
    (List.nodup_singleton _) ⟨trivial, trivial⟩
  have hanswer := congrArg (Option.map Prod.fst) (hexec.symm.trans he)
  simp only [Option.map_some, EnvCall.answer, hbindings, Option.some.injEq, EnvAnswer.value.injEq]
    at hanswer
  cases hanswer

end SadOS.Libc
