import ParallelHashMap.Pool.Concurrent

/-!
# The paging pool, one access to the free list a step

`PopPageFromFreeList` and `PushPageToFreeList` (`paging_object_pool.h`) take no lock: the head word packs
the head page's index, its successor's and an 8-bit counter that every successful compare-exchange
advances, against ABA. Here each of their accesses is a step (`accessNext`). `Pop` loads the head, reads the
successor's link, compare-exchanges the head and marks the popped page `c_InvalidPageIndex`; `Push` marks
its page `c_SwappingPageIndex` if it is off the list, loads the head, stores the head's index into the
page's link and compare-exchanges the head; a failed exchange goes back to the load. The rest of a call is
one step, as in `Pool/Concurrent.lean`: `addPage`, `takeFromPage` and `releaseInPage`.

Two ghost records ride along: the pointers each thread holds (`held`), and the number of successful
compare-exchanges on the head (`casCount`), which a thread notes with the word it loads. A run in which no
exchange succeeds through a wrap of the counter (`wrapsAt`) is what the threads' contract (`allowed`) adds
to releasing only held pointers and allocating below `c_MaxPages`.
-/

namespace PklE.CoreTypes

namespace PagingObjectPool

/-- Where a call goes when its `PushPageToFreeList` returns: `Release` returns; `Reserve` returns `p` after
its `IsFull` test; `AllocateNewPage` goes back to the top of `Reserve`'s loop, or on with `PreallocateSpace`
with `k` pages still to allocate. -/
inductive PushRet (T : Type)
  | released
  | reserved (p : PoolPtr)
  | reserving (x : T)
  | preallocating (k : Nat)
  deriving DecidableEq, Repr

/-- Where a thread is in its call. `popLoad` is the top of `Reserve`'s loop; `popRead` loaded the head word
`w` when `g` exchanges had succeeded, and reads the successor's link; `popCas` exchanges the head, with the
link `nnx` it read; `popStore` won the page at index `h` and marks it off the list. `allocating` calls
`AllocateNewPage` and `holding` reserves in the popped page at `pPage`. `pushMark` starts the push of the
page at `pPage`, `pushLoad` loads the head, `pushStore` links the page to the loaded head, `pushCas`
exchanges the head, and `r` says where the call goes afterwards. -/
inductive AccessPC (T : Type)
  | idle
  | popLoad (x : T)
  | popRead (x : T) (w g : Nat)
  | popCas (x : T) (w g nnx : Nat)
  | popStore (x : T) (h : Nat)
  | allocating (x : T)
  | holding (x : T) (pPage : Nat)
  | pushMark (r : PushRet T) (pPage : Nat)
  | pushLoad (r : PushRet T) (pPage : Nat)
  | pushStore (r : PushRet T) (pPage w g : Nat)
  | pushCas (r : PushRet T) (pPage w g : Nat)
  | preallocating (k : Nat)
  deriving DecidableEq, Repr

/-- The pool, where each of `n` threads is in its call, the pointers each holds, and the number of
successful compare-exchanges on the head; the last two are ghost records. -/
structure AccessThreads (T : Type) (n : Nat) where
  pool : PagingObjectPool T
  pc : Fin n → AccessPC T
  held : Fin n → List PoolPtr
  casCount : Nat

variable {T : Type} (P : Nat) {n : Nat}

/-- Where the thread goes when its push returns. -/
def PushRet.after : PushRet T → AccessPC T
  | .released | .reserved _ => .idle
  | .reserving x => .popLoad x
  | .preallocating k => .preallocating k

/-- The pointer the push's return hands to the caller. -/
def PushRet.returned : PushRet T → List PoolPtr
  | .reserved p => [p]
  | _ => []

/-- Thread `i` moves to `pc'` over a step that leaves the pool `pool'`. -/
def AccessThreads.moveTo (s : AccessThreads T n) (i : Fin n) (pool' : PagingObjectPool T) (pc' : AccessPC T) :
    AccessThreads T n :=
  { s with pool := pool', pc := Function.update s.pc i pc' }

/-- Thread `i`'s push returns, over a step that leaves the pool `pool'`. -/
def AccessThreads.finish (s : AccessThreads T n) (i : Fin n) (pool' : PagingObjectPool T) (r : PushRet T) :
    AccessThreads T n :=
  { s.moveTo i pool' r.after with held := Function.update s.held i (r.returned ++ s.held i) }

/-- One more successful exchange on the head, in the ghost count. -/
def AccessThreads.exchanged (s : AccessThreads T n) : AccessThreads T n := { s with casCount := s.casCount + 1 }

@[simp] theorem AccessThreads.exchanged_pool (s : AccessThreads T n) : s.exchanged.pool = s.pool := rfl
@[simp] theorem AccessThreads.exchanged_pc (s : AccessThreads T n) : s.exchanged.pc = s.pc := rfl
@[simp] theorem AccessThreads.exchanged_held (s : AccessThreads T n) : s.exchanged.held = s.held := rfl
@[simp] theorem AccessThreads.exchanged_casCount (s : AccessThreads T n) : s.exchanged.casCount = s.casCount + 1 := rfl
@[simp] theorem AccessThreads.moveTo_pool (s : AccessThreads T n) (i : Fin n) (pool' : PagingObjectPool T)
    (pc' : AccessPC T) : (s.moveTo i pool' pc').pool = pool' := rfl
@[simp] theorem AccessThreads.moveTo_pc (s : AccessThreads T n) (i : Fin n) (pool' : PagingObjectPool T)
    (pc' : AccessPC T) : (s.moveTo i pool' pc').pc = Function.update s.pc i pc' := rfl
@[simp] theorem AccessThreads.moveTo_held (s : AccessThreads T n) (i : Fin n) (pool' : PagingObjectPool T)
    (pc' : AccessPC T) : (s.moveTo i pool' pc').held = s.held := rfl
@[simp] theorem AccessThreads.moveTo_casCount (s : AccessThreads T n) (i : Fin n) (pool' : PagingObjectPool T)
    (pc' : AccessPC T) : (s.moveTo i pool' pc').casCount = s.casCount := rfl
@[simp] theorem AccessThreads.finish_pool (s : AccessThreads T n) (i : Fin n) (pool' : PagingObjectPool T)
    (r : PushRet T) : (s.finish i pool' r).pool = pool' := rfl
@[simp] theorem AccessThreads.finish_pc (s : AccessThreads T n) (i : Fin n) (pool' : PagingObjectPool T)
    (r : PushRet T) : (s.finish i pool' r).pc = Function.update s.pc i r.after := rfl
@[simp] theorem AccessThreads.finish_held (s : AccessThreads T n) (i : Fin n) (pool' : PagingObjectPool T)
    (r : PushRet T) : (s.finish i pool' r).held = Function.update s.held i (r.returned ++ s.held i) := rfl
@[simp] theorem AccessThreads.finish_casCount (s : AccessThreads T n) (i : Fin n) (pool' : PagingObjectPool T)
    (r : PushRet T) : (s.finish i pool' r).casCount = s.casCount := rfl

/-- `Pop`'s read of the link of the head's successor, for the head word `w`: `c_TailPageIndex` when the
successor is not a page. -/
def nextLinkOf (pool : PagingObjectPool T) (w : Nat) : Except Fault Nat :=
  let pNextPage := if headNextIndex w < pool.numPages then pool.pPageList (headNextIndex w) else 0
  if pNextPage = 0 then pure cTailPageIndex else (·.nextFreeIndex) <$> pool.readPage pNextPage

/-- The head word a successful compare-exchange writes over `w`: the counter advanced, and the new head's
successor and index. -/
def nextHead (w next page : Nat) : Nat := packHead ((headCounter w + 1) % 2 ^ 8) next page

/-- The next step of thread `i`'s call: `none` when it is idle, or when the step faults or loops for ever
on an assertion. -/
def accessNext (s : AccessThreads T n) (i : Fin n) : Option (AccessThreads T n) :=
  match s.pc i with
  | .idle => none
  | .popLoad x =>
    let w := s.pool.freeListHeadIndex
    if headPageIndex w < s.pool.numPages then some (s.moveTo i s.pool (.popRead x w s.casCount))
    else if headPageIndex w = cTailPageIndex then some (s.moveTo i s.pool (.allocating x))
    else none
  | .popRead x w g => match nextLinkOf s.pool w with
    | .ok nnx => some (s.moveTo i s.pool (.popCas x w g nnx))
    | .error _ => none
  | .popCas x w _ nnx =>
    if nnx ≠ cInvalidPageIndex ∧ nnx ≠ cSwappingPageIndex ∧ s.pool.freeListHeadIndex = w then
      some (s.moveTo i { s.pool with freeListHeadIndex := nextHead w nnx (headNextIndex w) }
        (.popStore x (headPageIndex w))).exchanged
    else some (s.moveTo i s.pool (.popLoad x))
  | .popStore x h =>
    if h < s.pool.numPages then
      match s.pool.readPage (s.pool.pPageList h) with
      | .ok page => some (s.moveTo i (s.pool.setPage (s.pool.pPageList h)
          { page with nextFreeIndex := cInvalidPageIndex }) (.holding x (s.pool.pPageList h)))
      | .error _ => none
    else some (s.moveTo i s.pool (.allocating x))
  | .allocating x => some (s.moveTo i s.pool.addPage.1 (.pushMark (.reserving x) s.pool.addPage.2))
  | .holding x pPage => match s.pool.takeFromPage P pPage x with
    | .ok (pool, none) => some (s.moveTo i pool (.popLoad x))
    | .ok (pool, some (p, true)) => some (s.moveTo i pool (.pushMark (.reserved p) pPage))
    | .ok (pool, some (p, false)) => some (s.finish i pool (.reserved p))
    | .error _ => none
  | .pushMark r pPage => match s.pool.readPage pPage with
    | .ok page =>
      if page.nextFreeIndex = cInvalidPageIndex then
        some (s.moveTo i (s.pool.setPage pPage { page with nextFreeIndex := cSwappingPageIndex }) (.pushLoad r pPage))
      else some (s.finish i s.pool r)
    | .error _ => none
  | .pushLoad r pPage => match s.pool.readPage pPage with
    | .ok page =>
      let w := s.pool.freeListHeadIndex
      if page.pageIndex < s.pool.numPages ∧
          (headPageIndex w < s.pool.numPages ∨ headPageIndex w = cTailPageIndex) then
        some (s.moveTo i s.pool (.pushStore r pPage w s.casCount))
      else none
    | .error _ => none
  | .pushStore r pPage w g => match s.pool.readPage pPage with
    | .ok page => some (s.moveTo i (s.pool.setPage pPage { page with nextFreeIndex := headPageIndex w })
        (.pushCas r pPage w g))
    | .error _ => none
  | .pushCas r pPage w _ => match s.pool.readPage pPage with
    | .ok page =>
      if s.pool.freeListHeadIndex = w then
        some (s.finish i { s.pool with freeListHeadIndex := nextHead w (headPageIndex w) page.pageIndex } r).exchanged
      else some (s.moveTo i s.pool (.pushLoad r pPage))
    | .error _ => none
  | .preallocating 0 => some (s.moveTo i s.pool .idle)
  | .preallocating (k + 1) => some (s.moveTo i s.pool.addPage.1 (.pushMark (.preallocating k) s.pool.addPage.2))

/-- What thread `i` does on event `e`: a call starts only on an idle thread; `Release` runs up to its push
and gives its pointer up. -/
def accessStep (s : AccessThreads T n) (i : Fin n) : PoolEvent T → Option (AccessThreads T n)
  | .callReserve x => match s.pc i with
    | .idle => some (s.moveTo i s.pool (.popLoad x))
    | _ => none
  | .callRelease p => match s.pc i, s.pool.releaseInPage P p with
    | .idle, .ok (pool, some pPage, _) =>
      some { s.moveTo i pool (.pushMark .released pPage) with held := Function.update s.held i ((s.held i).erase p) }
    | .idle, .ok (pool, none, _) =>
      some { s.moveTo i pool .idle with held := Function.update s.held i ((s.held i).erase p) }
    | _, _ => none
  | .callPreallocate numObjects => match s.pc i with
    | .idle => some (s.moveTo i s.pool (.preallocating (((numObjects + P - 1) % 2 ^ 32) / P)))
    | _ => none
  | .next => accessNext P s i

/-- Thread `i` is about to compare-exchange the head against the word it loaded (a push, or a pop whose link
read is neither mark), and the head holds that word again after `2^8` or more successful exchanges: the
counter has wrapped, and the exchange would succeed on a list that may have changed under it. -/
def wrapsAt (s : AccessThreads T n) (i : Fin n) : Bool :=
  match s.pc i with
  | .popCas _ w g nnx =>
    nnx != cInvalidPageIndex && nnx != cSwappingPageIndex && s.pool.freeListHeadIndex == w &&
      decide (g + 2 ^ 8 ≤ s.casCount)
  | .pushCas _ _ w g => s.pool.freeListHeadIndex == w && decide (g + 2 ^ 8 ≤ s.casCount)
  | _ => false

/-- Whether the thread's next step allocates a page. -/
def AccessPC.allocates : AccessPC T → Bool
  | .allocating _ | .preallocating (_ + 1) => true
  | _ => false

/-- The runs considered: threads release only pointers they hold and allocate a page only while the page list
has room for it, and no compare-exchange on the head succeeds through a wrap of its counter. -/
def allowed (s : AccessThreads T n) (i : Fin n) : PoolEvent T → Bool
  | .callRelease p => decide (p ∈ s.held i)
  | .next => (!(s.pc i).allocates || decide (s.pool.numPages < cMaxPages)) && !wrapsAt s i
  | _ => true

/-- A constructed pool, every thread idle and holding nothing, no exchange done. -/
def AccessThreads.start : AccessThreads T n := ⟨init, fun _ => .idle, fun _ => [], 0⟩

/-- The states the runs considered reach from a constructed pool. -/
inductive AccessReachable : AccessThreads T n → Prop
  | start : AccessReachable .start
  | step {s s' : AccessThreads T n} (i : Fin n) (e : PoolEvent T) :
      AccessReachable s → allowed s i e = true → accessStep P s i e = some s' → AccessReachable s'

/-- The events of a run, in order: `none` at the first one that is not allowed or cannot be taken. -/
def accessRun : AccessThreads T n → List (Fin n × PoolEvent T) → Option (AccessThreads T n)
  | s, [] => some s
  | s, (i, e) :: es => if allowed s i e then (accessStep P s i e).bind (accessRun · es) else none

theorem AccessReachable.accessRun {s s' : AccessThreads T n} (hs : AccessReachable P s) :
    ∀ (es : List (Fin n × PoolEvent T)), PagingObjectPool.accessRun P s es = some s' → AccessReachable P s'
  | [], h => Option.some.inj h ▸ hs
  | (i, e) :: es, h => by
    simp only [PagingObjectPool.accessRun] at h
    split_ifs at h with ha
    obtain ⟨s1, h1, h2⟩ := Option.bind_eq_some.1 h
    exact (hs.step i e ha h1).accessRun es h2

theorem accessRun_append (s : AccessThreads T n) (es es' : List (Fin n × PoolEvent T)) :
    accessRun P s (es ++ es') = (accessRun P s es).bind (accessRun P · es') := by
  induction es generalizing s with
  | nil => rfl
  | cons e es ih =>
    simp only [List.cons_append, accessRun]
    split_ifs
    · cases accessStep P s e.1 e.2 <;> simp [ih]
    · rfl

/-! ## The links in flight read as off the list -/

/-- The page at `a`, its link read as off the list when `busy` marks `a`. -/
def quietPage (busy : Nat → Bool) (a : Nat) (pg : Page T) : Page T :=
  { pg with nextFreeIndex := if busy a then cInvalidPageIndex else pg.nextFreeIndex }

/-- The pool with the links of the pages `busy` marks read as off the list: the free list as the pushes and
pops that are changing those links leave it. -/
def quietPages (pool : PagingObjectPool T) (busy : Nat → Bool) : PagingObjectPool T :=
  { pool with pages := fun a => (pool.pages a).map (quietPage busy a) }

section Quiet

variable {pool : PagingObjectPool T} {B : Nat → Bool}

@[simp] theorem quietPage_data (a : Nat) (pg : Page T) : (quietPage B a pg).data = pg.data := rfl
@[simp] theorem quietPage_pageIndex (a : Nat) (pg : Page T) : (quietPage B a pg).pageIndex = pg.pageIndex := rfl
@[simp] theorem quietPages_pPageList : (quietPages pool B).pPageList = pool.pPageList := rfl
@[simp] theorem quietPages_numPages : (quietPages pool B).numPages = pool.numPages := rfl
@[simp] theorem quietPages_count : (quietPages pool B).count = pool.count := rfl
@[simp] theorem quietPages_freeListHeadIndex : (quietPages pool B).freeListHeadIndex = pool.freeListHeadIndex := rfl
@[simp] theorem quietPages_nextAddress : (quietPages pool B).nextAddress = pool.nextAddress := rfl

theorem quietPages_pages (a : Nat) : (quietPages pool B).pages a = (pool.pages a).map (quietPage B a) := rfl

theorem quietPage_withData (a : Nat) (pg : Page T) (d : FixedSizeObjectPool (PagingNode T)) :
    { quietPage B a pg with data := d } = quietPage B a { pg with data := d } := rfl

theorem readPage_quietPages (a : Nat) : (quietPages pool B).readPage a = quietPage B a <$> pool.readPage a := by
  simp only [readPage, quietPages_pages]
  cases pool.pages a <;> rfl

theorem quietPages_setPage (a : Nat) (pg : Page T) :
    quietPages (pool.setPage a pg) B = (quietPages pool B).setPage a (quietPage B a pg) := by
  ext1
  · funext b
    by_cases hb : b = a
    · subst hb; simp [quietPages_pages]
    · simp [quietPages_pages, hb]
  all_goals rfl

theorem dataOf_quietPages : (quietPages pool B).dataOf = pool.dataOf := by
  funext a
  simp only [dataOf, quietPages_pages, Option.map_map]
  cases pool.pages a <;> simp

theorem quietPages_withCount (pool : PagingObjectPool T) (c : Nat) :
    quietPages { pool with count := c } B = { quietPages pool B with count := c } :=
  rfl

/-- Reserving in a page reads and writes its nodes only, so it reads the same with the links in flight read
as off the list. -/
theorem takeFromPage_quietPages (a : Nat) (x : T) :
    (quietPages pool B).takeFromPage P a x = (fun r => (quietPages r.1 B, r.2)) <$> pool.takeFromPage P a x := by
  unfold takeFromPage
  rw [readPage_quietPages]
  cases pool.readPage a with
  | error e => rfl
  | ok page =>
    simp only [Functor.map, Except.map, except_ok_bind, quietPage_data]
    generalize page.data.reserve P ⟨x, 0⟩ = r
    rcases r with ⟨data, _ | i⟩
    · dsimp only [pure, Except.pure]
      rw [quietPage_withData, quietPages_setPage]
    · dsimp only [pure, Except.pure]
      rw [quietPages_withCount (pool.setPage a _), quietPages_setPage, quietPage_withData, quietPage_pageIndex]
      rfl

theorem readNode_quietPages (p : PoolPtr) : (quietPages pool B).readNode P p = pool.readNode P p := by
  unfold readNode
  rw [readPage_quietPages]
  cases pool.readPage p.page <;> rfl

/-- So does `Release` up to its push. -/
theorem releaseInPage_quietPages (p : PoolPtr) :
    (quietPages pool B).releaseInPage P p = (fun r => (quietPages r.1 B, r.2)) <$> pool.releaseInPage P p := by
  unfold releaseInPage
  rw [readNode_quietPages]
  cases pool.readNode P p with
  | error e => rfl
  | ok node =>
    simp only [except_ok_bind, quietPages_numPages, quietPages_pPageList]
    split
    · rw [readPage_quietPages]
      cases pool.readPage (pool.pPageList node.pageIndex) with
      | error e => rfl
      | ok page =>
        show (do let page ← Except.ok (quietPage B _ page); _) = _ <$> (do let page ← Except.ok page; _)
        rw [except_ok_bind, except_ok_bind, quietPage_data]
        show Except.ok _ = Except.ok _
        dsimp only
        rw [quietPages_withCount (pool.setPage _ _), quietPages_setPage, quietPage_withData]
        rfl
    · rfl

/-- `AllocateNewPage` up to its push adds a page that is off the list. -/
theorem addPage_quietPages : (quietPages pool B).addPage = (quietPages pool.addPage.1 B, pool.addPage.2) := by
  refine Prod.ext ?_ rfl
  ext1
  · funext b
    simp only [addPage, quietPages_pages, quietPages_numPages, quietPages_nextAddress]
    by_cases hb : b = pool.nextAddress
    · subst hb; simp [quietPage]
    · simp [hb, quietPages_pages]
  all_goals simp only [addPage, quietPages_nextAddress, quietPages_numPages, quietPages_pPageList,
    quietPages_count, quietPages_freeListHeadIndex]
  rfl

theorem quietPages_withHead (pool : PagingObjectPool T) (w : Nat) :
    quietPages { pool with freeListHeadIndex := w } B = { quietPages pool B with freeListHeadIndex := w } :=
  rfl

variable {P} in
/-- The links play no part in the page list. -/
theorem PagesOk.of_quietPages (hp : PagesOk P (quietPages pool B)) : PagesOk P pool where
  numPages_le := hp.numPages_le
  page_ok i hi := by
    obtain ⟨pg, hpg, hok⟩ := hp.page_ok i hi
    obtain ⟨pg0, hpg0, rfl⟩ := Option.map_eq_some'.1 hpg
    exact ⟨pg0, hpg0, ⟨hok.pageIndex_eq, hok.valid, hok.nodes_pageIndex⟩⟩
  listed a pg h := hp.listed a _ (by rw [quietPages_pages, h]; rfl)
  pages_zero := Option.map_eq_none'.1 hp.pages_zero
  nextAddress_pos := hp.nextAddress_pos
  fresh a ha := Option.map_eq_none'.1 (hp.fresh a ha)

/-- Marking pages busy or not changes the quiet pool at those pages only. -/
theorem quietPages_update {B' : Nat → Bool} {a : Nat} {pg : Page T} (hpg : pool.pages a = some pg)
    (hB : ∀ b, b ≠ a → B' b = B b) :
    quietPages pool B' = (quietPages pool B).setPage a (quietPage B' a pg) := by
  ext1
  · funext b
    by_cases hb : b = a
    · subst hb; simp [quietPages_pages, hpg]
    · simp only [quietPages_pages, setPage_pages, Function.update_noteq hb]
      congr 1
      funext pg
      simp only [quietPage, hB b hb]
  all_goals rfl

/-- Rewriting the link of a page that is busy or off the list, before and after, leaves the quiet pool. -/
theorem quietPages_relink {B' : Nat → Bool} {a k : Nat} {pg : Page T} (hpg : pool.pages a = some pg)
    (hB : ∀ b, b ≠ a → B' b = B b) (hold : B a = true ∨ pg.nextFreeIndex = cInvalidPageIndex)
    (hnew : B' a = true ∨ k = cInvalidPageIndex) :
    quietPages (pool.setPage a { pg with nextFreeIndex := k }) B' = quietPages pool B := by
  rw [quietPages_setPage, quietPages_update hpg hB]
  ext1
  · funext b
    by_cases hb : b = a
    · subst hb
      simp only [setPage_pages, Function.update_same, quietPages_pages, hpg, Option.map_some', quietPage]
      rcases hold with h | h <;> rcases hnew with h' | h' <;> simp [h, h']
    · simp [hb]
  all_goals rfl

/-- `Pop`'s read from the quiet pool is its read from the pool when the successor's link is not in flight. -/
theorem nextLinkOf_quietPages {w : Nat}
    (hB : headNextIndex w < pool.numPages → B (pool.pPageList (headNextIndex w)) = false) :
    nextLinkOf (quietPages pool B) w = nextLinkOf pool w := by
  unfold nextLinkOf
  simp only [quietPages_numPages, quietPages_pPageList]
  by_cases hlt : headNextIndex w < pool.numPages
  · simp only [hlt, if_true, readPage_quietPages]
    split_ifs
    · rfl
    · cases pool.readPage (pool.pPageList (headNextIndex w)) with
      | error e => rfl
      | ok pg => simp [Functor.map, Except.map, quietPage, hB hlt]
  · simp only [hlt, if_false, if_true]

end Quiet

variable {P} in
/-- `Pop`'s read of the successor's link does not fault. -/
theorem nextLinkOf_ok {pool : PagingObjectPool T} (hp : PagesOk P pool) (w : Nat) :
    ∃ nnx, nextLinkOf pool w = .ok nnx := by
  unfold nextLinkOf
  by_cases hlt : headNextIndex w < pool.numPages
  · obtain ⟨pg, hpg, -⟩ := hp.page_ok _ hlt
    have hpg' : pool.pages (pool.pPageList (headNextIndex w)) = some pg := hpg
    simp only [hlt, if_true, hp.addr_ne_zero hlt, if_false, readPage, hpg']
    exact ⟨_, rfl⟩
  · simp only [hlt, if_false, if_true]
    exact ⟨_, rfl⟩

variable {P} in
/-- On the head word of the free list `i :: rest`, `Pop` reads the link of the list's second page: the index of
its third page, or the tail. -/
theorem nextLinkOf_linked {pool : PagingObjectPool T} (hp : PagesOk P pool) {i : Nat} {rest : List Nat}
    (hf : FreeListRep pool (i :: rest)) :
    nextLinkOf pool pool.freeListHeadIndex = .ok (rest.tail.headD cTailPageIndex) := by
  have hl := hf.linked
  unfold nextLinkOf
  rw [hl.2.1]
  cases rest with
  | nil =>
    have hn : ¬ cTailPageIndex < pool.numPages := fun h => absurd (lt_of_lt_of_le h hp.numPages_le) (by decide)
    simp only [List.headD_nil, hn, if_false, if_true]
    rfl
  | cons j rest' =>
    have hj := hf.lt j (List.mem_cons_of_mem _ (List.mem_cons_self _ _))
    obtain ⟨pj, hpj, hlink⟩ := Option.map_eq_some'.1 hl.2.2.2.nextFreeOf_self
    have hpj' : pool.pages (pool.pPageList j) = some pj := hpj
    simp only [List.headD_cons, hj, if_true, hp.addr_ne_zero hj, if_false, readPage, hpj', List.tail_cons]
    rw [← hlink]
    rfl

end PagingObjectPool

end PklE.CoreTypes
