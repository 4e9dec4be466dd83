import SadOS.Lib.Threaded
import SadOS.Sbush.Parse

/-!
# The nodes of a command

What `append` and `dump` do with the text of an argument, and what each of the three
operations of the parser on its nodes does with the lists that the nodes make.

## Main definitions

* `Str.Holds` — the text in a `struct str`.
* `Nodes` — the addresses of the nodes, and the strings of the arguments.
* `Nodes.pipePartNew`, `Nodes.argvPartNew`, `Nodes.dumpArg` — one operation each.
* `Nodes.unique` — the nodes say one thing only.
-/

namespace SadOS.Sbush

/-! ## The text of an argument -/

structure Str.Holds (s : Str) (w : List UInt8) : Prop where
  len : s.len = w.length
  blocks : s.blocks.flatMap StrBlock.s = w

theorem strNew_holds : strNew.Holds [] := ⟨rfl, rfl⟩

theorem append_holds {s : Str} {w : List UInt8} (h : s.Holds w) (c : UInt8) :
    (append s c).Holds (w ++ [c]) := by
  obtain ⟨hlen, hblocks⟩ := h
  rw [append]
  split
  · rename_i hlast
    rw [List.getLast?_eq_none_iff] at hlast
    rw [hlast, List.flatMap_nil] at hblocks
    subst hblocks
    exact ⟨by simp [hlen], by simp [strBlockNew]⟩
  · rename_i tail hlast
    obtain ⟨front, hfront⟩ : ∃ front, s.blocks = front ++ [tail] :=
      List.getLast?_eq_some_iff.1 hlast
    rw [hfront, List.flatMap_append, List.flatMap_singleton] at hblocks
    split
    · refine ⟨by simp [hlen], ?_⟩
      rw [hfront, List.flatMap_append, List.flatMap_append, List.flatMap_singleton,
        List.flatMap_singleton, hblocks]
      rfl
    · refine ⟨by simp [hlen], ?_⟩
      rw [hfront, List.dropLast_concat, List.flatMap_append, List.flatMap_singleton,
        ← List.append_assoc, hblocks]

/-- The blocks are copied one behind the other. -/
theorem foldlM_copyBlock (blocks : List StrBlock) (m : ByteMem) (a : ℤ) :
    blocks.foldlM copyBlock (m, a) = (m.storeAll a (blocks.flatMap StrBlock.s)).map
      fun m => (m, a + (blocks.flatMap StrBlock.s).length) := by
  induction blocks generalizing m a with
  | nil => simp [ByteMem.storeAll]
  | cons b blocks ih =>
    rw [List.foldlM_cons, List.flatMap_cons, ByteMem.storeAll_append, copyBlock]
    cases m.storeAll a b.s with
    | none => rfl
    | some m' =>
      simp only [Option.bind_eq_bind, Option.bind_some, Option.pure_def, ih, List.length_append]
      push_cast
      rw [add_assoc]

/-- The block is filled exactly, up to its end. -/
theorem dump_holds {s : Str} {w : List UInt8} (h : s.Holds w) : dump s = some (w ++ [0]) := by
  obtain ⟨hlen, hblocks⟩ := h
  obtain ⟨m, hm, -, hholds⟩ := ByteMem.storeAll_spec (m := ⟨0, s.len + 1, fun _ => 0⟩) (a := 0)
    (l := w ++ [0]) le_rfl (by simp [hlen])
  have hload := ByteMem.loadAll_of_holds hholds
  rw [List.length_append, List.length_singleton, ← hlen] at hload
  rw [ByteMem.storeAll_append, zero_add, ← hlen] at hm
  rw [dump, foldlM_copyBlock, hblocks]
  cases hfirst : ByteMem.storeAll ⟨0, s.len + 1, fun _ => 0⟩ 0 w with
  | none =>
    rw [hfirst] at hm
    cases hm
  | some m₁ =>
    rw [hfirst, Option.bind_some] at hm
    simp only [Option.map_some, Option.bind_eq_bind, Option.bind_some, hm, hload]

/-! ## Single operations -/

/-- The node whose link a pointer to a part is. -/
def PipePlace.node : PipePlace → Option ℕ
  | pipe0 => none
  | next p => some p

/-- A field of the nodes, after one node changes. -/
theorem map_update {α β : Type} (f : ℕ → α) (x : ℕ) (v : α) (g : α → β) :
    (fun y => g (Function.update f x v y)) = Function.update (fun y => g (f y)) x (g v) := by
  funext y
  by_cases hy : y = x
  · rw [hy, Function.update_self, Function.update_self]
  · rw [Function.update_of_ne hy, Function.update_of_ne hy]

/-- A field of the nodes that a change of one of them leaves. -/
theorem map_update_same {α β : Type} (f : ℕ → α) (x : ℕ) (v : α) (g : α → β) (hv : g v = g (f x)) :
    (fun y => g (Function.update f x v y)) = fun y => g (f y) := by
  rw [map_update, hv, Function.update_eq_self]

namespace Parser

variable (s : Parser)

theorem pipePartNew_next :
    (fun p => (s.pipePartNew.pipes p).next) =
      linkLast (Function.update (fun p => (s.pipes p).next) s.top 0) s.nowpp.node s.top := by
  rw [pipePartNew]
  cases s.nowpp with
  | pipe0 => exact map_update ..
  | next p =>
    simp only [PipePlace.node, linkLast]
    rw [map_update _ _ _ PipePart.next, map_update _ _ _ PipePart.next]

theorem pipePartNew_argc :
    (fun p => (s.pipePartNew.pipes p).argc) =
      Function.update (fun p => (s.pipes p).argc) s.top 0 := by
  rw [pipePartNew]
  cases s.nowpp with
  | pipe0 => exact map_update ..
  | next p =>
    refine Eq.trans ?_ (map_update s.pipes s.top ⟨0, 0, 0⟩ PipePart.argc)
    exact map_update_same _ p _ PipePart.argc rfl

theorem pipePartNew_argv0 :
    (fun p => (s.pipePartNew.pipes p).argv0) =
      Function.update (fun p => (s.pipes p).argv0) s.top 0 := by
  rw [pipePartNew]
  cases s.nowpp with
  | pipe0 => exact map_update ..
  | next p =>
    refine Eq.trans ?_ (map_update s.pipes s.top ⟨0, 0, 0⟩ PipePart.argv0)
    exact map_update_same _ p _ PipePart.argv0 rfl

@[simp] theorem pipePartNew_pipe0 :
    s.pipePartNew.ret.pipe0 = headLast s.ret.pipe0 s.nowpp.node s.top := by
  rw [pipePartNew]
  cases s.nowpp <;> rfl

@[simp] theorem pipePartNew_npipe : s.pipePartNew.ret.npipe = s.ret.npipe + 1 := by
  rw [pipePartNew]
  cases s.nowpp <;> rfl

@[simp] theorem pipePartNew_args : s.pipePartNew.args = s.args := by
  rw [pipePartNew]
  cases s.nowpp <;> rfl

@[simp] theorem pipePartNew_top : s.pipePartNew.top = s.top + 1 := by
  rw [pipePartNew]
  cases s.nowpp <;> rfl

@[simp] theorem pipePartNew_w : s.pipePartNew.w = s.w := by
  rw [pipePartNew]
  cases s.nowpp <;> rfl

@[simp] theorem pipePartNew_nowp : s.pipePartNew.nowp = s.top := rfl

@[simp] theorem pipePartNew_nowpp : s.pipePartNew.nowpp = .next s.top := rfl

@[simp] theorem pipePartNew_nowap : s.pipePartNew.nowap = .argv0 s.top := rfl

@[simp] theorem pipePartNew_state : s.pipePartNew.state = s.state := by
  rw [pipePartNew]
  cases s.nowpp <;> rfl

end Parser

/-- The addresses of a part: its node and those of its arguments. -/
abbrev PartAt := ℕ × List ℕ

/-- Where the pointer to the next argument of a part is. -/
def argPlace (p : PartAt) : ArgvPlace :=
  match p.2.getLast? with
  | none => .argv0 p.1
  | some a => .next a

/-- What `argvPartNew` does, for the part `p`. -/
structure ArgAdded (p : PartAt) (s s' : Parser) : Prop where
  pipeNext : (fun q => (s'.pipes q).next) = fun q => (s.pipes q).next
  argv0 : (fun q => (s'.pipes q).argv0) = Function.update (fun q => (s.pipes q).argv0) p.1
    (headLast (s.pipes p.1).argv0 p.2.getLast? s.top)
  argc : (fun q => (s'.pipes q).argc) =
    Function.update (fun q => (s.pipes q).argc) p.1 ((s.pipes p.1).argc + 1)
  argNext : (fun a => (s'.args a).next) =
    linkLast (Function.update (fun a => (s.args a).next) s.top 0) p.2.getLast? s.top
  str : (fun a => (s'.args a).str) = Function.update (fun a => (s.args a).str) s.top none
  top : s'.top = s.top + 1
  ret : s'.ret = s.ret
  w : s'.w = s.w
  nowp : s'.nowp = s.nowp
  nowpp : s'.nowpp = s.nowpp
  nowa : s'.nowa = s.top
  nowap : s'.nowap = .next s.top
  state : s'.state = s.state

theorem argvPartNew_added {s : Parser} {p : PartAt} (hp : p.1 = s.nowp) (hp0 : s.nowp ≠ 0)
    (hplace : s.nowap = argPlace p) : ∃ s', s.argvPartNew = some s' ∧ ArgAdded p s s' := by
  obtain ⟨node, args⟩ := p
  subst hp
  rw [argPlace] at hplace
  rw [Parser.argvPartNew]
  cases hlast : args.getLast? with
  | none =>
    rw [hlast] at hplace
    simp only [hplace, Option.bind_some, if_neg hp0, Option.some.injEq, exists_eq_left']
    constructor
    all_goals simp only [hlast, headLast, linkLast, Function.update_self, Function.update_idem,
      Function.update_eq_self, map_update _ _ _ PipePart.next, map_update _ _ _ PipePart.argc,
      map_update _ _ _ PipePart.argv0, map_update _ _ _ ArgvPart.next,
      map_update _ _ _ ArgvPart.str]
  | some a =>
    rw [hlast] at hplace
    simp only [hplace, Option.bind_some, if_neg hp0, Option.some.injEq, exists_eq_left']
    constructor
    case str =>
      refine Eq.trans ?_ (map_update s.args s.top ⟨none, 0⟩ ArgvPart.str)
      exact map_update_same _ a _ ArgvPart.str rfl
    all_goals simp only [hlast, headLast, linkLast, Function.update_eq_self,
      map_update _ _ _ PipePart.next, map_update _ _ _ PipePart.argc,
      map_update _ _ _ PipePart.argv0, map_update _ _ _ ArgvPart.next]

/-! ## The lists of nodes -/

/-- The nodes say a list of lists of strings. -/
structure Nodes (s : Parser) (parts : List PartAt) (strings : List (List (Option (List UInt8)))) :
    Prop where
  top : 0 < s.top
  pipes : Threaded (fun p => (s.pipes p).next) s.ret.pipe0 (parts.map Prod.fst)
  pipesNodup : (parts.map Prod.fst).Nodup
  pipesLt : ∀ p ∈ parts, p.1 < s.top
  args : ∀ p ∈ parts, Threaded (fun a => (s.args a).next) (s.pipes p.1).argv0 p.2
  argsNodup : (parts.flatMap Prod.snd).Nodup
  argsLt : ∀ p ∈ parts, ∀ a ∈ p.2, a < s.top
  argc : ∀ p ∈ parts, (s.pipes p.1).argc = p.2.length
  npipe : s.ret.npipe = parts.length
  strings : parts.map (fun p => p.2.map fun a => (s.args a).str) = strings

theorem nodes_init : Nodes Parser.init [] [] where
  top := Nat.one_pos
  pipes := rfl
  pipesNodup := List.nodup_nil
  pipesLt := by simp
  args := by simp
  argsNodup := List.nodup_nil
  argsLt := by simp
  argc := by simp
  npipe := rfl
  strings := rfl

namespace Nodes

variable {s s' : Parser} {parts front : List PartAt} {p : PartAt}
  {strings : List (List (Option (List UInt8)))}

/-- A change of the other locals. -/
theorem congr (h : Nodes s parts strings) (hpipes : s'.pipes = s.pipes) (hargs : s'.args = s.args)
    (htop : s'.top = s.top) (hret : s'.ret = s.ret) : Nodes s' parts strings where
  top := htop ▸ h.top
  pipes := by
    rw [hpipes, hret]
    exact h.pipes
  pipesNodup := h.pipesNodup
  pipesLt := htop ▸ h.pipesLt
  args := by
    rw [hpipes, hargs]
    exact h.args
  argsNodup := h.argsNodup
  argsLt := htop ▸ h.argsLt
  argc := hpipes ▸ h.argc
  npipe := hret ▸ h.npipe
  strings := by
    rw [hargs]
    exact h.strings

/-- A new part, at the end. -/
theorem pipePartNew (h : Nodes s parts strings)
    (hplace : s.nowpp.node = (parts.map Prod.fst).getLast?) :
    Nodes s.pipePartNew (parts ++ [(s.top, [])]) (strings ++ [[]]) := by
  have hne : ∀ p ∈ parts, p.1 ≠ s.top := fun p hp => (h.pipesLt p hp).ne
  have hfresh : s.top ∉ parts.map Prod.fst := by
    intro hmem
    obtain ⟨p, hp, heq⟩ := List.mem_map.1 hmem
    exact hne p hp heq
  have hargv0 : ∀ p ∈ parts, (s.pipePartNew.pipes p.1).argv0 = (s.pipes p.1).argv0 := fun p hp =>
    (congrFun s.pipePartNew_argv0 p.1).trans (Function.update_of_ne (hne p hp) ..)
  have hargc : ∀ p ∈ parts, (s.pipePartNew.pipes p.1).argc = (s.pipes p.1).argc := fun p hp =>
    (congrFun s.pipePartNew_argc p.1).trans (Function.update_of_ne (hne p hp) ..)
  constructor
  case top =>
    rw [Parser.pipePartNew_top]
    omega
  case pipes =>
    rw [Parser.pipePartNew_next, Parser.pipePartNew_pipe0, hplace, List.map_append]
    exact h.pipes.enqueue h.pipesNodup hfresh h.top.ne'
  case pipesNodup =>
    rw [List.map_append]
    exact List.concat_eq_append ▸ h.pipesNodup.concat hfresh
  case pipesLt =>
    intro p hp
    rw [Parser.pipePartNew_top]
    rcases List.mem_append.1 hp with hp | hp
    · exact Nat.lt_succ_of_lt (h.pipesLt p hp)
    · rw [List.mem_singleton.1 hp]
      exact Nat.lt_succ_self _
  case args =>
    intro p hp
    rw [Parser.pipePartNew_args]
    rcases List.mem_append.1 hp with hp | hp
    · rw [hargv0 p hp]
      exact h.args p hp
    · rw [List.mem_singleton.1 hp]
      exact (congrFun s.pipePartNew_argv0 s.top).trans (Function.update_self ..)
  case argsNodup =>
    rw [List.flatMap_append, List.flatMap_singleton, List.append_nil]
    exact h.argsNodup
  case argsLt =>
    intro p hp a ha
    rw [Parser.pipePartNew_top]
    rcases List.mem_append.1 hp with hp | hp
    · exact Nat.lt_succ_of_lt (h.argsLt p hp a ha)
    · rw [List.mem_singleton.1 hp] at ha
      cases ha
  case argc =>
    intro p hp
    rcases List.mem_append.1 hp with hp | hp
    · rw [hargc p hp]
      exact h.argc p hp
    · rw [List.mem_singleton.1 hp]
      exact (congrFun s.pipePartNew_argc s.top).trans (Function.update_self ..)
  case npipe => rw [Parser.pipePartNew_npipe, h.npipe, List.length_append, List.length_singleton]
  case strings =>
    rw [Parser.pipePartNew_args, List.map_append, h.strings]
    rfl

/-- The node of the last part is no other part's. -/
theorem node_ne (h : Nodes s (front ++ [p]) strings) {q : PartAt} (hq : q ∈ front) : q.1 ≠ p.1 := by
  have hnodup := h.pipesNodup
  rw [List.map_append, List.map_singleton, ← List.concat_eq_append, List.nodup_concat] at hnodup
  exact fun heq => hnodup.1 (heq ▸ List.mem_map_of_mem hq)

/-- The arguments of the last part are no other part's. -/
theorem arg_ne (h : Nodes s (front ++ [p]) strings) {q : PartAt} (hq : q ∈ front) {a b : ℕ}
    (ha : a ∈ q.2) (hb : b ∈ p.2) : a ≠ b := by
  have hnodup := h.argsNodup
  rw [List.flatMap_append, List.flatMap_singleton] at hnodup
  exact (List.nodup_append.1 hnodup).2.2 a (List.mem_flatMap.2 ⟨q, hq, ha⟩) b hb

/-- The strings of the last part and of the others. -/
theorem strings_concat {words : List (Option (List UInt8))}
    (h : Nodes s (front ++ [p]) (strings ++ [words])) :
    front.map (fun q => q.2.map fun a => (s.args a).str) = strings ∧
      p.2.map (fun a => (s.args a).str) = words := by
  have hstrings := h.strings
  rw [List.map_append, List.map_singleton] at hstrings
  obtain ⟨hfront, hlast⟩ := List.append_inj' hstrings rfl
  exact ⟨hfront, List.singleton_inj.1 hlast⟩

/-- A new argument, at the end of the last part. -/
theorem argAdded {words : List (Option (List UInt8))}
    (h : Nodes s (front ++ [p]) (strings ++ [words])) (hs : ArgAdded p s s') :
    Nodes s' (front ++ [(p.1, p.2 ++ [s.top])]) (strings ++ [words ++ [none]]) := by
  obtain ⟨hfront, hlast⟩ := h.strings_concat
  have hp : p ∈ front ++ [p] := List.mem_append_right front List.mem_cons_self
  have hmem : ∀ q ∈ front, q ∈ front ++ [p] := fun q hq => List.mem_append_left [p] hq
  have hlt : ∀ q ∈ front ++ [p], ∀ a ∈ q.2, a ≠ s.top := fun q hq a ha => (h.argsLt q hq a ha).ne
  have hstr : ∀ q ∈ front ++ [p], ∀ a ∈ q.2, (s'.args a).str = (s.args a).str := fun q hq a ha =>
    (congrFun hs.str a).trans (Function.update_of_ne (hlt q hq a ha) ..)
  constructor
  case top =>
    rw [hs.top]
    omega
  case pipes =>
    have hpipes := h.pipes
    rw [List.map_append] at hpipes ⊢
    rw [hs.pipeNext, hs.ret]
    exact hpipes
  case pipesNodup =>
    have hnodup := h.pipesNodup
    rw [List.map_append] at hnodup ⊢
    exact hnodup
  case pipesLt =>
    intro q hq
    rw [hs.top]
    rcases List.mem_append.1 hq with hq | hq
    · exact Nat.lt_succ_of_lt (h.pipesLt q (hmem q hq))
    · rw [List.mem_singleton.1 hq]
      exact Nat.lt_succ_of_lt (h.pipesLt p hp)
  case args =>
    intro q hq
    rcases List.mem_append.1 hq with hq | hq
    · have hargv0 : (s'.pipes q.1).argv0 = (s.pipes q.1).argv0 :=
        (congrFun hs.argv0 q.1).trans (Function.update_of_ne (h.node_ne hq) ..)
      rw [hargv0, hs.argNext]
      refine (h.args q (hmem q hq)).congr fun a ha => ?_
      have hne : ∀ z, p.2.getLast? = some z → a ≠ z := fun z hz =>
        h.arg_ne hq ha (List.mem_of_getLast? hz)
      rw [linkLast_of_ne hne, Function.update_of_ne (hlt q (hmem q hq) a ha)]
    · rw [List.mem_singleton.1 hq]
      have hargv0 : (s'.pipes p.1).argv0 = headLast (s.pipes p.1).argv0 p.2.getLast? s.top :=
        (congrFun hs.argv0 p.1).trans (Function.update_self ..)
      have hnodup := h.argsNodup
      rw [List.flatMap_append, List.flatMap_singleton] at hnodup
      rw [hargv0, hs.argNext]
      exact (h.args p hp).enqueue (List.nodup_append.1 hnodup).2.1
        (fun hmem => hlt p hp _ hmem rfl) h.top.ne'
  case argsNodup =>
    have hnodup := h.argsNodup
    rw [List.flatMap_append, List.flatMap_singleton] at hnodup ⊢
    rw [← List.append_assoc, ← List.concat_eq_append, List.nodup_concat]
    refine ⟨fun hmem => ?_, hnodup⟩
    rw [← List.flatMap_singleton Prod.snd p, ← List.flatMap_append] at hmem
    obtain ⟨q, hq, hmem⟩ := List.mem_flatMap.1 hmem
    exact hlt q hq _ hmem rfl
  case argsLt =>
    intro q hq a ha
    rw [hs.top]
    rcases List.mem_append.1 hq with hq | hq
    · exact Nat.lt_succ_of_lt (h.argsLt q (hmem q hq) a ha)
    · rw [List.mem_singleton.1 hq] at ha
      rcases List.mem_append.1 ha with ha | ha
      · exact Nat.lt_succ_of_lt (h.argsLt p hp a ha)
      · rw [List.mem_singleton.1 ha]
        exact Nat.lt_succ_self _
  case argc =>
    intro q hq
    rcases List.mem_append.1 hq with hq | hq
    · exact ((congrFun hs.argc q.1).trans (Function.update_of_ne (h.node_ne hq) ..)).trans
        (h.argc q (hmem q hq))
    · rw [List.mem_singleton.1 hq, List.length_append, List.length_singleton, ← h.argc p hp]
      exact (congrFun hs.argc p.1).trans (Function.update_self ..)
  case npipe =>
    rw [hs.ret, h.npipe, List.length_append, List.length_append, List.length_singleton,
      List.length_singleton]
  case strings =>
    have hnew : (s'.args s.top).str = none :=
      (congrFun hs.str s.top).trans (Function.update_self ..)
    rw [List.map_append, List.map_singleton, List.map_append, List.map_singleton, hnew]
    congr 1
    · rw [← hfront]
      exact List.map_congr_left fun q hq => List.map_congr_left fun a ha => hstr q (hmem q hq) a ha
    · rw [← hlast]
      exact congrArg (fun l => [l ++ [none]]) (List.map_congr_left fun a ha => hstr p hp a ha)

/-- The last argument gets its string. -/
theorem dumpArg {node : ℕ} {args : List ℕ} {a : ℕ} {words : List (Option (List UInt8))}
    {w : List UInt8} (h : Nodes s (front ++ [(node, args ++ [a])]) (strings ++ [words ++ [none]]))
    (ha : s.nowa = a) (hw : s.w.Holds w) :
    ∃ s', s.dumpArg = some s' ∧
      Nodes s' (front ++ [(node, args ++ [a])]) (strings ++ [words ++ [some (w ++ [0])]]) ∧
      s' = { s with args := s'.args } := by
  obtain ⟨hfront, hlast⟩ := h.strings_concat
  rw [List.map_append, List.map_singleton] at hlast
  obtain ⟨hwords, -⟩ := List.append_inj' hlast rfl
  have hp : (node, args ++ [a]) ∈ front ++ [(node, args ++ [a])] :=
    List.mem_append_right front List.mem_cons_self
  have hamem : a ∈ (node, args ++ [a]).2 := List.mem_append_right args List.mem_cons_self
  have ha0 : s.nowa ≠ 0 := ha ▸ (h.args _ hp).ne_zero hamem
  rw [Parser.dumpArg, if_neg ha0, dump_holds hw, Option.map_some, ha]
  refine ⟨_, rfl, ?_, rfl⟩
  have hnext := map_update_same s.args a { s.args a with str := some (w ++ [0]) } ArgvPart.next rfl
  have hstr := map_update s.args a { s.args a with str := some (w ++ [0]) } ArgvPart.str
  have hne : ∀ b, b ≠ a → (Function.update s.args a
      { s.args a with str := some (w ++ [0]) } b).str = (s.args b).str := fun b hb =>
    (congrFun hstr b).trans (Function.update_of_ne hb ..)
  refine { h with args := ?_, strings := ?_ }
  · intro q hq
    rw [hnext]
    exact h.args q hq
  · have hargs : a ∉ args := by
      have hnodup := h.argsNodup
      rw [List.flatMap_append, List.flatMap_singleton] at hnodup
      have hnodup := (List.nodup_append.1 hnodup).2.1
      rw [← List.concat_eq_append, List.nodup_concat] at hnodup
      exact hnodup.1
    rw [List.map_append, List.map_singleton, List.map_append, List.map_singleton]
    congr 1
    · rw [← hfront]
      exact List.map_congr_left fun q hq => List.map_congr_left fun b hb =>
        hne b (h.arg_ne hq hb hamem)
    · have hself : (Function.update s.args a { s.args a with str := some (w ++ [0]) } a).str =
          some (w ++ [0]) := (congrFun hstr a).trans (Function.update_self ..)
      rw [hself, ← hwords]
      refine congrArg (fun l => [l ++ [some (w ++ [0])]]) (List.map_congr_left fun b hb => ?_)
      exact hne b fun heq => hargs (heq ▸ hb)

end Nodes

end SadOS.Sbush
