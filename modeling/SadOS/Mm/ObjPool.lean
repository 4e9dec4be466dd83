import SadOS.Machine
import SadOS.Lib.Outcome
import SadOS.Lib.Threaded
import SadOS.Lib.Words

/-!
# Object pools

`sys/mm/obj_pool.c`.  A pool cuts pages into objects of one size, after a header of one
word that links its pages.  `page_free` counts the bytes at the end of the newest page
that were not given out yet; objects that were given back form a list through their own
first words.

The pages that `get_page` returns are inputs of the model, and so are the bytes that the
users write into the objects they hold.

## Main definitions

* `ObjPool`, `objPoolCreate`, `objPoolAlloc`, `objPoolFree` — the source.
* `State`, `Op`, `step`, `Allowed` — a pool with its users, and what they may do.
* `Sound` — live objects are apart, inside a page, and can be given back.

## Main results

* `Holds.step` — what a step keeps.
* `objPool_sound_iff` — every run is sound exactly for sizes that fit after the header.
-/

namespace SadOS.Pool

/-- `struct obj_pool`, whose `page_free` has 16 bits. -/
structure ObjPool where
  freePage : ℕ
  freeList : ℕ
  pageHead : ℕ
  objSize : ℕ
  pageFree : ℕ
  deriving DecidableEq, Repr

/-! ## The source -/

/-- `obj_pool_create`, on a `struct obj_pool` that the pool of these has given out. -/
def objPoolCreate (size : ℕ) : Except Fault ObjPool :=
  if size < 8 ∨ PAGE_SIZE < size then throw (.panic "Invalid object size")
  else pure { freePage := 0, freeList := 0, pageHead := 0, objSize := size, pageFree := 0 }

/-- Whether `obj_pool_alloc` calls `get_page`. -/
def takesPage (obp : ObjPool) : Prop := obp.freeList = 0 ∧ obp.pageFree < obp.objSize

instance (obp : ObjPool) : Decidable (takesPage obp) := inferInstanceAs (Decidable (_ ∧ _))

/-- `obj_pool_alloc`; `page` is what `get_page` returns if it is called. -/
def objPoolAlloc (obp : ObjPool) (mem : ℕ → UInt8) (page : ℕ) : ℕ × ObjPool × (ℕ → UInt8) :=
  if obp.freeList ≠ 0 then
    (obp.freeList, { obp with freeList := readWord mem obp.freeList }, mem)
  else
    let (obp, mem) :=
      if obp.pageFree < obp.objSize then
        -- `page_header->next = obp->page_head`
        ({ obp with pageHead := page, freePage := page, pageFree := PAGE_SIZE - 8 },
          writeWord mem page obp.pageHead)
      else (obp, mem)
    (wsub (wadd obp.freePage PAGE_SIZE) obp.pageFree,
      { obp with pageFree := (obp.pageFree + 2 ^ 16 - obp.objSize % 2 ^ 16) % 2 ^ 16 }, mem)

/-- `obj_pool_free`. -/
def objPoolFree (obp : ObjPool) (mem : ℕ → UInt8) (obj : ℕ) :
    Except Fault (ObjPool × (ℕ → UInt8)) :=
  if wsub (wsub obj (pageAlign obj)) 8 % obp.objSize ≠ 0 then throw (.panic "Invalid object free")
  else pure ({ obp with freeList := obj }, writeWord mem obj obp.freeList)

/-! ## The users -/

/-- A pool with the pages it has obtained and the objects that are in use. -/
structure State where
  pool : ObjPool
  mem : ℕ → UInt8
  pages : List ℕ
  live : List ℕ

/-- What the users of a pool do. -/
inductive Op
  /-- `obj_pool_alloc`, with what `get_page` returns if it is called. -/
  | alloc (page : ℕ)
  /-- `obj_pool_free`. -/
  | free (obj : ℕ)
  /-- A write of a byte into an object. -/
  | write (a : ℕ) (v : UInt8)
  deriving DecidableEq

def step (s : State) : Op → Except Fault State
  | .alloc page =>
    let out := objPoolAlloc s.pool s.mem page
    pure {
      pool := out.2.1
      mem := out.2.2
      pages := if takesPage s.pool then page :: s.pages else s.pages
      live := out.1 :: s.live }
  | .free obj => do
    let (pool, mem) ← objPoolFree s.pool s.mem obj
    pure { s with pool := pool, mem := mem, live := s.live.erase obj }
  | .write a v => pure { s with mem := Function.update s.mem a v }

/-- What `get_page` promises: a page that the pool does not have. -/
def GoodPage (s : State) (page : ℕ) : Prop :=
  page % PAGE_SIZE = 0 ∧ 0 < page ∧ page + PAGE_SIZE ≤ 2 ^ 64 ∧ page ∉ s.pages

/-- Only live objects are given back and written to. -/
def Allowed (s : State) : Op → Prop
  | .alloc page => takesPage s.pool → GoodPage s page
  | .free obj => obj ∈ s.live
  | .write a _ => ∃ o ∈ s.live, o ≤ a ∧ a < o + s.pool.objSize

/-- A pool that nothing was taken from. -/
def start (pool : ObjPool) (mem : ℕ → UInt8) : State := ⟨pool, mem, [], []⟩

/-- The live objects are apart, each lies after the header of a page of the pool and
inside that page, and each can be given back. -/
structure Sound (s : State) : Prop where
  disjoint : s.live.Pairwise fun a b => a + s.pool.objSize ≤ b ∨ b + s.pool.objSize ≤ a
  inside : ∀ o ∈ s.live, ∃ page ∈ s.pages, page + 8 ≤ o ∧ o + s.pool.objSize ≤ page + PAGE_SIZE
  accepted : ∀ o ∈ s.live, ∃ out, objPoolFree s.pool s.mem o = .ok out

/-! ## The invariant -/

/-- An object at its place in a page; in the newest page it is one of those given out. -/
def Slot (pages : List ℕ) (pool : ObjPool) (o : ℕ) : Prop :=
  ∃ page ∈ pages, ∃ k, o = page + 8 + k * pool.objSize ∧ k * pool.objSize + pool.objSize ≤ 4088 ∧
    (page = pool.freePage → k * pool.objSize + pool.objSize + pool.pageFree ≤ 4088)

/-- The free list runs through the objects `free`; they and the live ones have places. -/
structure Holds (s : State) (free : List ℕ) : Prop where
  size : 8 ≤ s.pool.objSize ∧ s.pool.objSize ≤ 4088
  chain : Threaded (readWord s.mem) s.pool.freeList free
  nodup : (s.live ++ free).Nodup
  slot : ∀ o ∈ s.live ++ free, Slot s.pages s.pool o
  pages : ∀ page ∈ s.pages, page % 4096 = 0 ∧ 0 < page ∧ page + 4096 ≤ 2 ^ 64
  current : (s.pages = [] ∧ s.pool.pageFree = 0) ∨
    (s.pool.freePage ∈ s.pages ∧ ∃ n, s.pool.pageFree + n * s.pool.objSize = 4088)

variable {s : State} {free : List ℕ}

namespace Holds

/-- Two objects are apart. -/
theorem apart (h : Holds s free) {o o' : ℕ} (ho : o ∈ s.live ++ free) (ho' : o' ∈ s.live ++ free)
    (hne : o ≠ o') : o + s.pool.objSize ≤ o' ∨ o' + s.pool.objSize ≤ o := by
  obtain ⟨page, hpage, k, rfl, hk, -⟩ := h.slot o ho
  obtain ⟨page', hpage', k', rfl, hk', -⟩ := h.slot o' ho'
  have hp := h.pages page hpage
  have hp' := h.pages page' hpage'
  rcases lt_trichotomy page page' with hlt | rfl | hlt
  · omega
  · have hkk : k ≠ k' := by
      rintro rfl
      exact hne rfl
    rcases Nat.lt_or_gt_of_ne hkk with hlt | hlt
    · have := Nat.mul_le_mul_right s.pool.objSize hlt
      rw [Nat.succ_mul] at this
      omega
    · have := Nat.mul_le_mul_right s.pool.objSize hlt
      rw [Nat.succ_mul] at this
      omega
  · omega

/-- The check of `obj_pool_free` accepts every object. -/
theorem accepts (h : Holds s free) {o : ℕ} (ho : o ∈ s.live ++ free) :
    objPoolFree s.pool s.mem o =
      .ok ({ s.pool with freeList := o }, writeWord s.mem o s.pool.freeList) := by
  obtain ⟨page, hpage, k, rfl, hk, -⟩ := h.slot o ho
  have hp := h.pages page hpage
  have hsize := h.size
  have halign : pageAlign (page + 8 + k * s.pool.objSize) = page := by
    simp only [pageAlign]
    omega
  have hoff : wsub (wsub (page + 8 + k * s.pool.objSize) page) 8 = k * s.pool.objSize := by
    simp only [wsub]
    omega
  rw [objPoolFree, halign, hoff, Nat.mul_mod_left, if_neg (by simp)]
  rfl

theorem lt_two_pow (h : Holds s free) {o : ℕ} (ho : o ∈ s.live ++ free) : 0 < o ∧ o < 2 ^ 64 := by
  obtain ⟨page, hpage, k, rfl, hk, -⟩ := h.slot o ho
  have hp := h.pages page hpage
  have hsize := h.size
  omega

theorem sound (h : Holds s free) : Sound s where
  disjoint := by
    have hnd : s.live.Nodup := (List.nodup_append.1 h.nodup).1
    apply List.Pairwise.imp_of_mem _ hnd
    intro a b ha hb hne
    exact h.apart (List.mem_append_left _ ha) (List.mem_append_left _ hb) hne
  inside o ho := by
    obtain ⟨page, hpage, k, rfl, hk, -⟩ := h.slot o (List.mem_append_left _ ho)
    refine ⟨page, hpage, by omega, ?_⟩
    simp only [PAGE_SIZE]
    omega
  accepted o ho := ⟨_, h.accepts (List.mem_append_left _ ho)⟩

/-- Objects that are not live are not changed by what users write. -/
theorem write (h : Holds s free) {o a : ℕ} (ho : o ∈ s.live) (hle : o ≤ a)
    (hlt : a < o + s.pool.objSize) (v : UInt8) :
    Holds { s with mem := Function.update s.mem a v } free where
  size := h.size
  chain := h.chain.congr fun x hx => by
    have hne : o ≠ x := by
      rintro rfl
      exact (List.nodup_append.1 h.nodup).2.2 o ho o hx rfl
    have happ := h.apart (List.mem_append_left _ ho) (List.mem_append_right _ hx) hne
    have hsize := h.size
    exact readWord_update s.mem v (by omega)
  nodup := h.nodup
  slot := h.slot
  pages := h.pages
  current := h.current

/-- An object that is given back goes to the head of the free list. -/
theorem give (h : Holds s free) {o : ℕ} (ho : o ∈ s.live) :
    Holds { s with
      pool := { s.pool with freeList := o }
      mem := writeWord s.mem o s.pool.freeList
      live := s.live.erase o } (o :: free) := by
  have hperm : (s.live.erase o ++ o :: free).Perm (s.live ++ free) :=
    List.perm_middle.trans ((List.perm_cons_erase ho).symm.append_right free)
  have hmem : o ∈ s.live ++ free := List.mem_append_left _ ho
  have hlist : s.pool.freeList < 2 ^ 64 := by
    have hchain := h.chain
    cases free with
    | nil => simp [threaded_nil.1 hchain]
    | cons x rest =>
      rw [hchain.1]
      exact (h.lt_two_pow (by simp)).2
  refine ⟨h.size, ⟨rfl, (h.lt_two_pow hmem).1.ne', ?_⟩, hperm.nodup_iff.2 h.nodup,
    fun x hx => h.slot x (hperm.mem_iff.1 hx), h.pages, h.current⟩
  rw [readWord_writeWord _ _ hlist]
  apply h.chain.congr
  intro x hx
  have hne : o ≠ x := by
    rintro rfl
    exact (List.nodup_append.1 h.nodup).2.2 o ho o hx rfl
  have happ := h.apart hmem (List.mem_append_right _ hx) hne
  have hsize := h.size
  exact readWord_writeWord_of_disjoint s.mem _ (by omega)

/-- The head of the free list is handed out. -/
theorem pop {o : ℕ} {rest : List ℕ} (h : Holds s (o :: rest)) :
    Holds { s with
      pool := { s.pool with freeList := readWord s.mem o }
      live := o :: s.live } rest := by
  refine ⟨h.size, (threaded_cons.1 h.chain).2.2, List.nodup_middle.1 h.nodup, ?_, h.pages,
    h.current⟩
  intro x hx
  obtain ⟨page, hpage, k, heq, hk, hlast⟩ := h.slot x (List.perm_middle.mem_iff.2 hx)
  exact ⟨page, hpage, k, heq, hk, hlast⟩

/-- A new page, nothing of which was handed out. -/
theorem newPage (h : Holds s []) {page : ℕ} (hpage : GoodPage s page) :
    Holds { s with
      pool := { s.pool with pageHead := page, freePage := page, pageFree := PAGE_SIZE - 8 }
      mem := writeWord s.mem page s.pool.pageHead
      pages := page :: s.pages } [] where
  size := h.size
  chain := threaded_nil.2 (threaded_nil.1 h.chain)
  nodup := h.nodup
  slot o ho := by
    obtain ⟨page', hpage', k, hk, hle, -⟩ := h.slot o ho
    refine ⟨page', List.mem_cons_of_mem _ hpage', k, hk, hle, ?_⟩
    rintro rfl
    exact absurd hpage' hpage.2.2.2
  pages page' hpage' := by
    rcases List.mem_cons.1 hpage' with rfl | hpage'
    · exact ⟨hpage.1, hpage.2.1, hpage.2.2.1⟩
    · exact h.pages page' hpage'
  current := .inr ⟨List.mem_cons_self, 0, by simp [PAGE_SIZE]⟩

/-- The next object of the newest page is handed out. -/
theorem bump (h : Holds s []) (hfit : s.pool.objSize ≤ s.pool.pageFree) :
    Holds { s with
      pool := { s.pool with
        pageFree := (s.pool.pageFree + 2 ^ 16 - s.pool.objSize % 2 ^ 16) % 2 ^ 16 }
      live := wsub (wadd s.pool.freePage PAGE_SIZE) s.pool.pageFree :: s.live } [] := by
  have hsize := h.size
  rcases h.current with ⟨-, h0⟩ | ⟨hcur, n, hn⟩
  · omega
  have hp := h.pages _ hcur
  have haddr : wsub (wadd s.pool.freePage PAGE_SIZE) s.pool.pageFree =
      s.pool.freePage + 8 + n * s.pool.objSize := by
    simp only [wsub, wadd, PAGE_SIZE]
    omega
  have hleft : (s.pool.pageFree + 2 ^ 16 - s.pool.objSize % 2 ^ 16) % 2 ^ 16 =
      s.pool.pageFree - s.pool.objSize := by omega
  rw [haddr, hleft]
  have hnew : s.pool.freePage + 8 + n * s.pool.objSize ∉ s.live ++ [] := by
    intro hmem
    obtain ⟨page, hpage, k, heq, hk, hlast⟩ := h.slot _ hmem
    have hp' := h.pages page hpage
    -- the offsets are less than a page, so the pages are the same
    have hsame : page = s.pool.freePage := by omega
    have := hlast hsame
    omega
  refine ⟨hsize, h.chain, List.nodup_cons.2 ⟨hnew, h.nodup⟩, ?_, h.pages, .inr ⟨hcur, n + 1, ?_⟩⟩
  · intro o ho
    rcases List.mem_cons.1 ho with rfl | ho
    · exact ⟨_, hcur, n, rfl, by simp only; omega, fun _ => by simp only; omega⟩
    · obtain ⟨page, hpage, k, heq, hk, hlast⟩ := h.slot o ho
      exact ⟨page, hpage, k, heq, hk, fun hsame => by have := hlast hsame; simp only; omega⟩
  · simp only [Nat.succ_mul]
    omega

/-- A step keeps the invariant. -/
theorem step (h : Holds s free) {op : Op} (hop : Allowed s op) :
    Safely (fun _ => False) (fun s' => ∃ free', Holds s' free') (Pool.step s op) := by
  cases op with
  | alloc page =>
    simp only [Pool.step, safely_pure, objPoolAlloc, takesPage]
    cases free with
    | nil =>
      have h0 : s.pool.freeList = 0 := threaded_nil.1 h.chain
      by_cases hfit : s.pool.pageFree < s.pool.objSize
      · have hbump := (h.newPage (hop ⟨h0, hfit⟩)).bump (by
          have hsize := h.size
          simp only [PAGE_SIZE]
          omega)
        exact ⟨[], by simpa [h0, hfit] using hbump⟩
      · exact ⟨[], by simpa [h0, hfit] using h.bump (Nat.le_of_not_lt hfit)⟩
    | cons o rest =>
      obtain ⟨hhead, hne, -⟩ := h.chain
      have h0 : s.pool.freeList ≠ 0 := hhead ▸ hne
      exact ⟨rest, by simpa [h0, hhead, hne] using h.pop⟩
  | free obj =>
    have hmem : obj ∈ s.live := hop
    simp only [Pool.step, h.accepts (List.mem_append_left _ hmem), ok_bind, safely_pure]
    exact ⟨obj :: free, h.give hmem⟩
  | write a v =>
    obtain ⟨o, ho, hle, hlt⟩ := hop
    exact ⟨free, h.write ho hle hlt v⟩

end Holds

/-- A new pool whose size fits after the header. -/
theorem holds_start {size : ℕ} {pool : ObjPool} (hpool : objPoolCreate size = .ok pool)
    (hsize : size ≤ 4088) (mem : ℕ → UInt8) : Holds (start pool mem) [] := by
  rw [objPoolCreate] at hpool
  split at hpool
  · simp at hpool
  · next hok =>
    simp only [pure_eq_ok, Except.ok.injEq] at hpool
    subst hpool
    simp only [not_or, Nat.not_lt] at hok
    exact ⟨⟨hok.1, hsize⟩, rfl, List.nodup_nil, by simp [start], by simp [start], .inl ⟨rfl, rfl⟩⟩

/-- Every run on a new pool that is allowed ends in a sound state. -/
def RunsSound (pool : ObjPool) : Prop :=
  ∀ mem ops, Along Allowed step (start pool mem) ops →
    ∃ s, ops.foldlM step (start pool mem) = .ok s ∧ Sound s

/-- The first object sticks out of its page when it is larger than what the header leaves. -/
theorem not_runsSound {size : ℕ} {pool : ObjPool} (hpool : objPoolCreate size = .ok pool)
    (hsize : 4088 < size) : ¬ RunsSound pool := by
  intro hruns
  rw [objPoolCreate] at hpool
  split at hpool
  · simp at hpool
  · next hok =>
    simp only [pure_eq_ok, Except.ok.injEq] at hpool
    subst hpool
    obtain ⟨s, hrun, hsound⟩ := hruns (fun _ => 0) [.alloc 4096]
      ⟨fun _ => ⟨by decide, by decide, by decide, by simp [start]⟩, fun _ _ => trivial⟩
    have htakes : 0 < size := by omega
    simp only [start, List.foldlM_cons, List.foldlM_nil, step, objPoolAlloc, takesPage, pure_eq_ok,
      ok_bind, Except.ok.injEq, ne_eq, not_true_eq_false, if_false, htakes, and_self, if_true] at hrun
    subst hrun
    obtain ⟨page, hpage, hlo, hhi⟩ := hsound.inside _ List.mem_cons_self
    simp only [List.mem_singleton] at hpage
    subst hpage
    simp only [wadd, wsub, PAGE_SIZE] at hhi
    omega

/-- Every run is sound exactly for the sizes that fit into a page after its header. -/
theorem objPool_sound_iff {size : ℕ} {pool : ObjPool} (hpool : objPoolCreate size = .ok pool) :
    RunsSound pool ↔ size ≤ PAGE_SIZE - 8 := by
  constructor
  · intro hruns
    by_contra hsize
    exact not_runsSound hpool (by simpa [PAGE_SIZE] using hsize) hruns
  · intro hsize mem ops hok
    have hsafe := safely_along (I := fun s => ∃ free, Holds s free) ⟨[], holds_start hpool hsize mem⟩
      (fun s op ⟨_, hs⟩ hop => hs.step hop) hok
    obtain ⟨s, hrun, free, hs⟩ := safely_false.1 hsafe
    exact ⟨s, hrun, hs.sound⟩

theorem objPool_sound_iff_node :
    ∃ pool, objPoolCreate 24 = .ok pool ∧ (RunsSound pool ↔ 24 ≤ PAGE_SIZE - 8) :=
  ⟨_, rfl, objPool_sound_iff rfl⟩

/-- Objects of one page are accepted, and the first one ends in the next page. -/
theorem objPool_sound_fails : ∃ pool, objPoolCreate 4096 = .ok pool ∧ ¬ RunsSound pool :=
  ⟨_, rfl, not_runsSound (show objPoolCreate 4096 = .ok _ from rfl) (by decide)⟩

end SadOS.Pool
