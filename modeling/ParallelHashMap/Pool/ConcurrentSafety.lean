import ParallelHashMap.Pool.LockFree
import ParallelHashMap.Pool.Ownership

/-!
# Who owns the paging pool's objects, one access to the free list a step

The invariant of the threads of `Pool/LockFree.lean` (`AccessOk`). A page whose link a thread is rewriting, a
pop's page until it is marked `c_InvalidPageIndex` and a push's page from its mark to its exchange, is `busy`;
the pool with those links read as off the list (`quiet`) keeps the sequential invariant `SharedOk` with a free
list. Each thread's control point says what its next access relies on (`ThreadOk`): a thread about to exchange
the head loaded its word when `g` exchanges had succeeded, and while none has succeeded since, the head holds
that word and the link it read is the list's. With no exchange through a wrap of the 8-bit counter
(`allowed`), an exchange that finds its word finds the list it loaded. Every step keeps the invariant
(`AccessOk.step`), under any interleaving; `pool_owners_exclusive` and `reserve_alone_returns` follow.
-/

namespace PklE.CoreTypes

namespace PagingObjectPool

variable {T : Type} (P : Nat) {n : Nat}

/-! ## The links in flight and the pointers owned -/

/-- The page whose link the thread is rewriting: the page its `Pop` won, until it marks it
`c_InvalidPageIndex`, and the page its `Push` marked `c_SwappingPageIndex`, until its exchange. -/
def AccessPC.link (pool : PagingObjectPool T) : AccessPC T → Option Nat
  | .popStore _ h => some (pool.pPageList h)
  | .pushLoad _ a | .pushStore _ a _ _ | .pushCas _ a _ _ => some a
  | _ => none

/-- The pointer a `Reserve` returns when its push does. -/
def AccessPC.ptr : AccessPC T → List PoolPtr
  | .pushMark r _ | .pushLoad r _ | .pushStore r _ _ _ | .pushCas r _ _ _ => r.returned
  | _ => []

/-- Whether the link of the page at `a` is in flight. -/
def busy (s : AccessThreads T n) (a : Nat) : Bool := decide (∃ t, (s.pc t).link s.pool = some a)

/-- The pool with the links in flight read as off the list. -/
def quiet (s : AccessThreads T n) : PagingObjectPool T := quietPages s.pool (busy s)

/-- The pointers thread `t` owns: the one its `Reserve` returns when its push does, and those in its hands. -/
def owned (s : AccessThreads T n) (t : Fin n) : List PoolPtr := (s.pc t).ptr ++ s.held t

/-- The link of the page at `a`. -/
def linkAt (pool : PagingObjectPool T) (a : Nat) : Option Nat := (pool.pages a).map (·.nextFreeIndex)

/-! ## What each thread relies on -/

/-- The page at `a` is in the page list. -/
def Listed (pool : PagingObjectPool T) (a : Nat) : Prop := ∃ j < pool.numPages, pool.pPageList j = a

/-- The head word `w`, loaded when `g` exchanges on the head had succeeded, with `c` now: its counter is `g`'s,
and it is the head while no exchange has succeeded since. -/
def Loaded (pool : PagingObjectPool T) (c w g : Nat) : Prop :=
  g ≤ c ∧ headCounter w = g % 2 ^ 8 ∧ (g = c → pool.freeListHeadIndex = w)

/-- The head page of `w` is a listed index or the tail: `Push`'s test of it passes. -/
def HeadOk (pool : PagingObjectPool T) (w : Nat) : Prop :=
  headPageIndex w < pool.numPages ∨ headPageIndex w = cTailPageIndex

/-- What a thread at `pc` relies on, with `c` exchanges done and the free list `fl`. A `Pop` that has read
its successor's link read the link of the list's second page if no exchange has succeeded since its load. A
page whose link is in flight has a link that no other thread's mark takes for `c_InvalidPageIndex`. -/
def ThreadOk (pool : PagingObjectPool T) (c : Nat) (fl : List Nat) : AccessPC T → Prop
  | .popRead _ w g => headPageIndex w < pool.numPages ∧ Loaded pool c w g
  | .popCas _ w g nnx =>
    headPageIndex w < pool.numPages ∧ Loaded pool c w g ∧ (g = c → nnx = (fl.drop 2).headD cTailPageIndex)
  | .popStore _ h => h < pool.numPages ∧ linkAt pool (pool.pPageList h) ≠ some cInvalidPageIndex
  | .holding _ a | .pushMark _ a => Listed pool a
  | .pushLoad _ a => Listed pool a ∧ linkAt pool a ≠ some cInvalidPageIndex
  | .pushStore _ a w g =>
    Listed pool a ∧ linkAt pool a ≠ some cInvalidPageIndex ∧ Loaded pool c w g ∧ HeadOk pool w
  | .pushCas _ a w g => Listed pool a ∧ linkAt pool a = some (headPageIndex w) ∧ Loaded pool c w g ∧ HeadOk pool w
  | _ => True

/-- The invariant of the threads sharing the pool, with the free list `fl` as the quiet pool spells it. -/
structure AccessOk (s : AccessThreads T n) (fl : List Nat) : Prop where
  shared : SharedOk P (quiet s) fl
  threads : ∀ t, ThreadOk s.pool s.casCount fl (s.pc t)
  counter : headCounter s.pool.freeListHeadIndex = s.casCount % 2 ^ 8
  link_unique : ∀ t t' a, (s.pc t).link s.pool = some a → (s.pc t').link s.pool = some a → t = t'
  exclusive : Exclusive (owned s) (s.pool.isLive · = true)

/-- The head and the count of exchanges over a step: both kept, with the free list, or an exchange succeeded. -/
def HeadStep (pool pool' : PagingObjectPool T) (c c' : Nat) (fl fl' : List Nat) : Prop :=
  pool'.freeListHeadIndex = pool.freeListHeadIndex ∧ c' = c ∧ fl' = fl ∨ c < c'

/-! ## What a step of one thread leaves to the others -/

section Frame

variable {pool pool' : PagingObjectPool T} {c c' : Nat} {fl fl' : List Nat}

@[simp] theorem AccessPC.link_after (r : PushRet T) : r.after.link pool = none := by cases r <;> rfl
@[simp] theorem AccessPC.ptr_after (r : PushRet T) : r.after.ptr = [] := by cases r <;> rfl

theorem threadOk_after (r : PushRet T) : ThreadOk pool c fl r.after := by cases r <;> trivial

theorem Listed.mono {a : Nat} (h : Listed pool a) (hn : pool.numPages ≤ pool'.numPages)
    (hl : ∀ j < pool.numPages, pool'.pPageList j = pool.pPageList j) : Listed pool' a :=
  have ⟨j, hj, hja⟩ := h
  ⟨j, lt_of_lt_of_le hj hn, (hl j hj).trans hja⟩

theorem HeadOk.mono {w : Nat} (h : HeadOk pool w) (hn : pool.numPages ≤ pool'.numPages) : HeadOk pool' w :=
  h.imp_left fun h => lt_of_lt_of_le h hn

/-- A listed index or the tail is neither of the marks a link in flight can hold. -/
theorem ne_marks_of_lt_or_tail {k : Nat} (hp : pool.numPages ≤ cMaxPages) (h : k < pool.numPages ∨ k = cTailPageIndex) :
    k ≠ cInvalidPageIndex ∧ k ≠ cSwappingPageIndex := by
  rcases h with h | rfl
  · have : k < cSwappingPageIndex := lt_of_lt_of_le h (le_trans hp (by decide))
    exact ⟨fun e => absurd (e ▸ this) (by decide), Nat.ne_of_lt this⟩
  · decide

theorem HeadOk.ne_invalid {w : Nat} (h : HeadOk pool w) (hp : pool.numPages ≤ cMaxPages) :
    headPageIndex w ≠ cInvalidPageIndex :=
  (ne_marks_of_lt_or_tail hp h).1

theorem Loaded.frame {w g : Nat} (h : Loaded pool c w g)
    (hw : pool'.freeListHeadIndex = pool.freeListHeadIndex ∧ c' = c ∨ c < c') : Loaded pool' c' w g := by
  rcases hw with ⟨hw, rfl⟩ | hc
  · exact ⟨h.1, h.2.1, fun hg => hw.trans (h.2.2 hg)⟩
  · exact ⟨by have := h.1; omega, h.2.1, fun hg => absurd hg (by have := h.1; omega)⟩

/-- A thread's part of the invariant survives another thread's step that keeps the pages listed and the
thread's link. -/
theorem ThreadOk.frame {pc : AccessPC T} (h : ThreadOk pool c fl pc) (hn : pool.numPages ≤ pool'.numPages)
    (hl : ∀ j < pool.numPages, pool'.pPageList j = pool.pPageList j)
    (hlink : ∀ a, pc.link pool = some a → linkAt pool' a = linkAt pool a) (hw : HeadStep pool pool' c c' fl fl') :
    ThreadOk pool' c' fl' pc := by
  have hw' : pool'.freeListHeadIndex = pool.freeListHeadIndex ∧ c' = c ∨ c < c' := hw.imp_left fun h => ⟨h.1, h.2.1⟩
  cases pc with
  | popRead x w g => exact ⟨lt_of_lt_of_le h.1 hn, h.2.frame hw'⟩
  | popCas x w g nnx =>
    refine ⟨lt_of_lt_of_le h.1 hn, h.2.1.frame hw', fun hg => ?_⟩
    rcases hw with ⟨-, rfl, rfl⟩ | hc
    · exact h.2.2 hg
    · exact absurd hg (by have := h.2.1.1; omega)
  | popStore x k =>
    refine ⟨lt_of_lt_of_le h.1 hn, ?_⟩
    rw [hl k h.1, hlink _ rfl]
    exact h.2
  | holding x a | pushMark r a => exact Listed.mono h hn hl
  | pushLoad r a => exact ⟨h.1.mono hn hl, hlink a rfl ▸ h.2⟩
  | pushStore r a w g => exact ⟨h.1.mono hn hl, hlink a rfl ▸ h.2.1, h.2.2.1.frame hw', h.2.2.2.mono hn⟩
  | pushCas r a w g => exact ⟨h.1.mono hn hl, (hlink a rfl).trans h.2.1, h.2.2.1.frame hw', h.2.2.2.mono hn⟩
  | idle | popLoad _ | allocating _ | preallocating _ => trivial

theorem AccessPC.link_congr {pc : AccessPC T} (h : ThreadOk pool c fl pc)
    (hl : ∀ j < pool.numPages, pool'.pPageList j = pool.pPageList j) : pc.link pool' = pc.link pool := by
  cases pc with
  | popStore x k => simp only [AccessPC.link, hl k h.1]
  | _ => rfl

/-- A link in flight belongs to a listed page. -/
theorem ThreadOk.link_listed {pc : AccessPC T} (h : ThreadOk pool c fl pc) {a : Nat} (ha : pc.link pool = some a) :
    Listed pool a := by
  cases pc with
  | popStore x k => cases ha; exact ⟨k, h.1, rfl⟩
  | pushLoad r b | pushStore r b w g | pushCas r b w g => cases ha; exact h.1
  | _ => cases ha

/-- A link in flight is not `c_InvalidPageIndex`. -/
theorem ThreadOk.link_ne_invalid {pc : AccessPC T} (h : ThreadOk pool c fl pc) (hp : pool.numPages ≤ cMaxPages)
    {a : Nat} (ha : pc.link pool = some a) : linkAt pool a ≠ some cInvalidPageIndex := by
  cases pc with
  | popStore x k => cases ha; exact h.2
  | pushLoad r b => cases ha; exact h.2
  | pushStore r b w g => cases ha; exact h.2.1
  | pushCas r b w g => cases ha; rw [h.2.1]; exact fun e => h.2.2.2.ne_invalid hp (Option.some.inj e)
  | _ => cases ha

end Frame

/-! ## Reserving and releasing in a page, read through the quiet pool -/

section InPage

variable {P} {pool pool' : PagingObjectPool T} {B : Nat → Bool} {fl : List Nat}

theorem PagesOk.constructed_of_isLive (hp : PagesOk P pool) {p : PoolPtr} (h : pool.isLive p = true) :
    pool.nodeAt p ≠ none ∧ p.slot < P := by
  simp only [isLive, dataOf] at h
  cases hpg : pool.pages p.page with
  | none => rw [hpg] at h; cases h
  | some pg =>
    rw [hpg, Option.map_some', Option.any_some] at h
    obtain ⟨i, hi, hai⟩ := hp.listed _ _ hpg
    obtain ⟨pg', hpg', hok⟩ := hp.page_ok i hi
    rw [page, hai, hpg] at hpg'; cases hpg'
    refine ⟨by simpa [nodeAt, dataOf, hpg, Option.isSome_iff_ne_none] using hok.valid.constructed _ h,
      Nat.lt_of_not_le fun hs => ?_⟩
    rw [testBit_eq_false_of_lt_two_pow hok.valid.bits_lt hs] at h
    cases h

theorem readPage_eq_ok {a : Nat} {pg : Page T} : pool.readPage a = .ok pg ↔ pool.pages a = some pg := by
  unfold readPage
  split <;> simp_all

theorem linkAt_setData {a : Nat} {pg : Page T} (hpg : pool.pages a = some pg) (d : FixedSizeObjectPool (PagingNode T)) :
    linkAt (pool.setPage a { pg with data := d }) = linkAt pool := by
  funext b
  by_cases hb : b = a
  · subst hb; simp [linkAt, hpg]
  · simp [linkAt, hb]

/-- Reserving in a page rewrites that page's nodes and the count, and no link. -/
theorem takeFromPage_frame {a : Nat} {x : T} {res : Option (PoolPtr × Bool)}
    (h : pool.takeFromPage P a x = .ok (pool', res)) :
    linkAt pool' = linkAt pool ∧ pool'.freeListHeadIndex = pool.freeListHeadIndex := by
  unfold takeFromPage at h
  cases hr : pool.readPage a with
  | error e => rw [hr] at h; cases h
  | ok page =>
    rw [hr, except_ok_bind] at h
    have hpg := readPage_eq_ok.1 hr
    generalize page.data.reserve P ⟨x, 0⟩ = q at h
    rcases q with ⟨data, _ | k⟩ <;> cases h <;> exact ⟨linkAt_setData hpg _, rfl⟩

/-- So does `Release` up to its push. -/
theorem releaseInPage_frame {p : PoolPtr} {res : Option Nat × Bool} (h : pool.releaseInPage P p = .ok (pool', res)) :
    linkAt pool' = linkAt pool ∧ pool'.freeListHeadIndex = pool.freeListHeadIndex := by
  unfold releaseInPage at h
  cases hn : pool.readNode P p with
  | error e => rw [hn] at h; cases h
  | ok node =>
    rw [hn, except_ok_bind] at h
    by_cases hpi : node.pageIndex < pool.numPages
    · simp only [hpi, if_true] at h
      cases hr : pool.readPage (pool.pPageList node.pageIndex) with
      | error e => rw [hr] at h; cases h
      | ok page =>
        rw [hr, except_ok_bind] at h
        cases h
        exact ⟨linkAt_setData (readPage_eq_ok.1 hr) _, rfl⟩
    · simp only [hpi, if_false] at h
      cases h
      exact ⟨rfl, rfl⟩

/-- `takeFromPage_shared` for a pool whose links in flight read as off the list: reserving in the listed page at
index `j` takes a free slot, or none when the page is full. -/
theorem takeFromPage_quiet (hv : SharedOk P (quietPages pool B) fl) {j : Nat} (hj : j < pool.numPages) (x : T) :
    ∃ pool' res, pool.takeFromPage P (pool.pPageList j) x = .ok (pool', res) ∧ SharedOk P (quietPages pool' B) fl ∧
      pool'.numPages = pool.numPages ∧ pool'.pPageList = pool.pPageList ∧ linkAt pool' = linkAt pool ∧
      pool'.freeListHeadIndex = pool.freeListHeadIndex ∧ (res = none ↔ pool.hasSpace P j = false) ∧
      (res = none → pool'.isLive = pool.isLive) ∧
      (∀ q full, res = some (q, full) → pool.isLive q = false ∧ (∀ p, pool'.isLive p = (pool.isLive p || p == q)) ∧
        (pool'.nodeAt q).map (·.data) = some x) := by
  obtain ⟨pg, hpg, -⟩ := hv.pagesOk.page_ok j hj
  obtain ⟨poolq, res, htq, hsh, hnum, hlist, hnone, hsome⟩ := takeFromPage_shared hv hj hpg x
  rw [quietPages_pPageList, takeFromPage_quietPages] at htq
  obtain ⟨⟨pool', res'⟩, htake, heq⟩ := except_map_eq_ok htq
  cases heq
  dsimp only at hsh hnum hlist hnone hsome
  obtain ⟨hlink, hhead⟩ := takeFromPage_frame htake
  have hdata : ∀ q : PagingObjectPool T, (quietPages q B).dataOf = q.dataOf := fun _ => dataOf_quietPages
  have hspace : pool.hasSpace P j = !pg.data.isFull P := by
    rw [hasSpace, ← hdata, show (quietPages pool B).dataOf (pool.pPageList j) = some pg.data by
      simp [dataOf, show (quietPages pool B).pages (pool.pPageList j) = some pg from hpg]]
    rfl
  refine ⟨pool', res', htake, hsh, hnum, hlist, hlink, hhead, ?_⟩
  rw [hspace]
  cases hf : pg.data.isFull P
  · -- a free slot: the reservation takes it
    obtain ⟨q, full, rfl, hfree, hlive, hnode⟩ := hsome hf
    refine ⟨by simp, nofun, fun q' full' hr => ?_⟩
    cases hr
    refine ⟨by rwa [← isLive_congr (hdata pool)], fun p => ?_, by rwa [← nodeAt_congr (hdata pool')]⟩
    rw [← isLive_congr (hdata pool'), ← isLive_congr (hdata pool)]
    exact hlive p
  · -- a full page: nothing is taken
    obtain ⟨rfl, hlive⟩ := hnone hf
    refine ⟨by simp, fun _ => ?_, nofun⟩
    rw [← isLive_congr (hdata pool'), ← isLive_congr (hdata pool), hlive]

/-- `releaseInPage_shared` for a pool whose links in flight read as off the list: `Release` of a live object
frees it and hands back its page. -/
theorem releaseInPage_quiet (hv : SharedOk P (quietPages pool B) fl) {p : PoolPtr} (hlive : pool.isLive p = true) :
    ∃ pool2, pool.releaseInPage P p = .ok (pool2, some p.page, true) ∧ SharedOk P (quietPages pool2 B) fl ∧
      pool2.numPages = pool.numPages ∧ pool2.pPageList = pool.pPageList ∧ linkAt pool2 = linkAt pool ∧
      pool2.freeListHeadIndex = pool.freeListHeadIndex ∧ Listed pool p.page ∧
      (∀ q, pool2.isLive q = (pool.isLive q && q != p)) := by
  have hdata : ∀ q : PagingObjectPool T, (quietPages q B).dataOf = q.dataOf := fun _ => dataOf_quietPages
  have hlive' : (quietPages pool B).isLive p = true := by rwa [isLive_congr (hdata pool)]
  obtain ⟨hnode, hslot⟩ := hv.pagesOk.constructed_of_isLive hlive'
  obtain ⟨j, hj, hja, poolq, hrq, hsh, hnum, hlist, -, -, hisLive, -⟩ := releaseInPage_shared hv hnode hslot
  rw [hlive', releaseInPage_quietPages] at hrq
  obtain ⟨⟨pool2, res⟩, hrel, heq⟩ := except_map_eq_ok hrq
  cases heq
  dsimp only at hsh hnum hlist hisLive
  obtain ⟨hlink, hhead⟩ := releaseInPage_frame hrel
  refine ⟨pool2, hrel, hsh, hnum, hlist, hlink, hhead, ⟨j, hj, hja⟩, fun q => ?_⟩
  rw [← isLive_congr (hdata pool2), ← isLive_congr (hdata pool)]
  exact hisLive q

end InPage

section Step

variable {P} {s s' : AccessThreads T n} {fl fl' : List Nat} {i : Fin n} {pc' : AccessPC T}

theorem busy_of_link {t : Fin n} {a : Nat} (h : (s.pc t).link s.pool = some a) : busy s a = true :=
  decide_eq_true ⟨t, h⟩

theorem busy_congr (h : ∀ t, (s'.pc t).link s'.pool = (s.pc t).link s.pool) : busy s' = busy s := by
  funext a
  simp only [busy, h]

theorem link_after (hth : ∀ t, ThreadOk s.pool s.casCount fl (s.pc t)) (hoth : ∀ t, t ≠ i → s'.pc t = s.pc t)
    (hl : ∀ j < s.pool.numPages, s'.pool.pPageList j = s.pool.pPageList j) {t : Fin n} (ht : t ≠ i) :
    (s'.pc t).link s'.pool = (s.pc t).link s.pool := by
  rw [hoth t ht]
  exact AccessPC.link_congr (hth t) hl

theorem others_of_update (hpc : s'.pc = Function.update s.pc i pc') : ∀ t, t ≠ i → s'.pc t = s.pc t := fun t ht => by
  rw [hpc, Function.update_noteq ht]

/-- Over a step of thread `i` whose link, before and after, is `a` or none, the pages other than `a` stay busy or
not. -/
theorem busy_after (hth : ∀ t, ThreadOk s.pool s.casCount fl (s.pc t)) (hoth : ∀ t, t ≠ i → s'.pc t = s.pc t)
    (hl : ∀ j < s.pool.numPages, s'.pool.pPageList j = s.pool.pPageList j) {a : Nat}
    (hold : ∀ b, (s.pc i).link s.pool = some b → b = a) (hnew : ∀ b, (s'.pc i).link s'.pool = some b → b = a)
    (b : Nat) (hb : b ≠ a) : busy s' b = busy s b := by
  simp only [busy, decide_eq_decide]
  constructor
  · rintro ⟨t, ht⟩
    by_cases hti : t = i
    · subst hti
      exact absurd (hnew b ht) hb
    · exact ⟨t, link_after hth hoth hl hti ▸ ht⟩
  · rintro ⟨t, ht⟩
    by_cases hti : t = i
    · subst hti
      exact absurd (hold b ht) hb
    · exact ⟨t, (link_after hth hoth hl hti).symm ▸ ht⟩

theorem owned_after (hpc : s'.pc = Function.update s.pc i pc') (hheld : ∀ t, t ≠ i → s'.held t = s.held t)
    (t : Fin n) : owned s' t = if t = i then pc'.ptr ++ s'.held i else owned s t := by
  by_cases ht : t = i
  · subst ht; simp [owned, hpc]
  · simp [owned, hpc, ht, hheld t ht]

/-- A step of thread `i` to `pc'` keeps the invariant, with the free list `fl'`, when it keeps the pages listed
and the other threads' links, and leaves the quiet pool with the list `fl'`, the counter, the thread's own part
and ownership in order. -/
theorem AccessOk.step_of (h : AccessOk P s fl) (hpc : s'.pc = Function.update s.pc i pc')
    (hn : s.pool.numPages ≤ s'.pool.numPages) (hl : ∀ j < s.pool.numPages, s'.pool.pPageList j = s.pool.pPageList j)
    (hlink : ∀ t, t ≠ i → ∀ a, (s.pc t).link s.pool = some a → linkAt s'.pool a = linkAt s.pool a)
    (hw : HeadStep s.pool s'.pool s.casCount s'.casCount fl fl') (hsh : SharedOk P (quiet s') fl')
    (hown : ThreadOk s'.pool s'.casCount fl' pc')
    (hcounter : headCounter s'.pool.freeListHeadIndex = s'.casCount % 2 ^ 8)
    (huniq : ∀ a, pc'.link s'.pool = some a → ∀ t, t ≠ i → (s.pc t).link s.pool ≠ some a)
    (hex : Exclusive (owned s') (s'.pool.isLive · = true)) : AccessOk P s' fl' where
  shared := hsh
  threads t := by
    by_cases ht : t = i
    · subst ht; rw [hpc, Function.update_same]; exact hown
    · rw [hpc, Function.update_noteq ht]; exact (h.threads t).frame hn hl (hlink t ht) hw
  counter := hcounter
  link_unique t t' a ha ha' := by
    have hi : (s'.pc i).link s'.pool = pc'.link s'.pool := by rw [hpc, Function.update_same]
    by_cases ht : t = i <;> by_cases ht' : t' = i
    · exact ht.trans ht'.symm
    · subst ht
      exact absurd (link_after h.threads (others_of_update hpc) hl ht' ▸ ha') (huniq a (hi ▸ ha) t' ht')
    · subst ht'
      exact absurd (link_after h.threads (others_of_update hpc) hl ht ▸ ha) (huniq a (hi ▸ ha') t ht)
    · have hoth := others_of_update hpc
      exact h.link_unique t t' a (link_after h.threads hoth hl ht ▸ ha) (link_after h.threads hoth hl ht' ▸ ha')
  exclusive := hex

/-- A step that moves thread `i` alone, to a control point with the link and the pointer it had, keeps the
invariant when the thread's part holds there. -/
theorem AccessOk.local (h : AccessOk P s fl) (hpool : s'.pool = s.pool) (hc : s'.casCount = s.casCount)
    (hpc : s'.pc = Function.update s.pc i pc') (hheld : ∀ t, t ≠ i → s'.held t = s.held t)
    (hlink : pc'.link s.pool = (s.pc i).link s.pool) (hptr : pc'.ptr ++ s'.held i = owned s i)
    (hown : ThreadOk s.pool s.casCount fl pc') : AccessOk P s' fl := by
  have hlinks : ∀ t, (s'.pc t).link s'.pool = (s.pc t).link s.pool := fun t => by
    rw [hpool, hpc]
    by_cases ht : t = i
    · subst ht; rw [Function.update_same, hlink]
    · rw [Function.update_noteq ht]
  refine h.step_of hpc (hpool ▸ le_rfl) (fun j _ => by rw [hpool]) (fun _ _ a _ => by rw [hpool])
    (.inl ⟨by rw [hpool], hc, rfl⟩) (by rw [quiet, busy_congr hlinks, hpool]; exact h.shared) (hpool ▸ hc ▸ hown)
    (hpool ▸ hc ▸ h.counter) (fun a ha t ht hta => ?_) ?_
  · rw [hpool, hlink] at ha
    exact ht (h.link_unique t i a hta ha)
  · refine h.exclusive.congr (fun t => ?_) fun p => by rw [hpool]
    rw [owned_after hpc hheld]
    split_ifs with ht
    · subst ht; exact hptr
    · rfl

theorem AccessOk.pagesOk (h : AccessOk P s fl) : PagesOk P s.pool := h.shared.pagesOk.of_quietPages

theorem AccessOk.head_eq (h : AccessOk P s fl) : headPageIndex s.pool.freeListHeadIndex = fl.headD cTailPageIndex :=
  h.shared.freeList.headPageIndex_eq

theorem AccessOk.headOk (h : AccessOk P s fl) : HeadOk s.pool s.pool.freeListHeadIndex := by
  rw [HeadOk, h.head_eq]
  exact headD_lt h.shared.freeList.lt

theorem AccessOk.tail_not_lt (h : AccessOk P s fl) : ¬ cTailPageIndex < s.pool.numPages := fun hlt =>
  absurd (lt_of_lt_of_le hlt h.pagesOk.numPages_le) (by decide)

/-- A head page below `numPages` heads a list that is not empty. -/
theorem AccessOk.cons_of_lt (h : AccessOk P s fl) (hlt : headPageIndex s.pool.freeListHeadIndex < s.pool.numPages) :
    ∃ rest, fl = headPageIndex s.pool.freeListHeadIndex :: rest := by
  rw [h.head_eq] at hlt ⊢
  cases fl with
  | nil => exact absurd hlt h.tail_not_lt
  | cons j rest => exact ⟨rest, rfl⟩

/-- A listed page exists, and records its index. -/
theorem AccessOk.page_of_listed (h : AccessOk P s fl) {a : Nat} (ha : Listed s.pool a) :
    ∃ j pg, j < s.pool.numPages ∧ s.pool.pPageList j = a ∧ s.pool.pages a = some pg ∧ pg.pageIndex = j := by
  obtain ⟨j, hj, rfl⟩ := ha
  obtain ⟨pg, hpg, hok⟩ := h.pagesOk.page_ok j hj
  exact ⟨j, pg, hj, rfl, hpg, hok.pageIndex_eq⟩

/-- A page on the free list has no link in flight, and links to a listed index or to the tail. -/
theorem AccessOk.mem_link (h : AccessOk P s fl) {j : Nat} (hj : j ∈ fl) :
    busy s (s.pool.pPageList j) = false ∧ ∃ k, linkAt s.pool (s.pool.pPageList j) = some k ∧
      (k < s.pool.numPages ∨ k = cTailPageIndex) := by
  obtain ⟨k, hk, hk'⟩ := h.shared.freeList.nextFreeOf_mem hj
  have hq : (quiet s).nextFreeOf j = (s.pool.pages (s.pool.pPageList j)).map
      fun pg => if busy s (s.pool.pPageList j) then cInvalidPageIndex else pg.nextFreeIndex := by
    simp only [nextFreeOf, page, quiet, quietPages_pages, quietPages_pPageList, Option.map_map]
    rfl
  rw [hq] at hk
  obtain ⟨pg, hpg, hpk⟩ := Option.map_eq_some'.1 hk
  have hne := (ne_marks_of_lt_or_tail h.pagesOk.numPages_le hk').1
  cases hb : busy s (s.pool.pPageList j)
  · simp only [hb, Bool.false_eq_true, if_false] at hpk
    exact ⟨rfl, k, by simp [linkAt, hpg, hpk], hk'⟩
  · simp only [hb, if_true] at hpk
    exact absurd hpk.symm hne

/-- An exchange on an unchanged head word with no wrap of the counter: no other exchange came between. -/
theorem AccessOk.no_wrap (h : AccessOk P s fl) {w g : Nat} (hL : Loaded s.pool s.casCount w g)
    (hw : s.pool.freeListHeadIndex = w) (hwrap : ¬ g + 2 ^ 8 ≤ s.casCount) : g = s.casCount := by
  have h1 := h.counter
  have h2 := hL.2.1
  have h3 := hL.1
  rw [hw] at h1
  omega

theorem dataOf_relink {pool : PagingObjectPool T} {a : Nat} {pg : Page T} (hpg : pool.pages a = some pg) (k : Nat) :
    (pool.setPage a { pg with nextFreeIndex := k }).dataOf = pool.dataOf := by
  rw [dataOf_setPage]
  exact Function.update_eq_self_iff.2 (by simp [dataOf, hpg])

theorem quietPage_of_busy {B : Nat → Bool} {a : Nat} (hB : B a = true) (pg : Page T) :
    quietPage B a pg = { pg with nextFreeIndex := cInvalidPageIndex } := by
  simp [quietPage, hB]

theorem quietPage_of_not_busy {B : Nat → Bool} {a : Nat} (hB : B a = false) (pg : Page T) : quietPage B a pg = pg := by
  simp [quietPage, hB]

/-- A move of thread `i` alone that keeps its link and its pointer. -/
theorem AccessOk.move (h : AccessOk P s fl) (hlink : pc'.link s.pool = (s.pc i).link s.pool)
    (hptr : pc'.ptr = (s.pc i).ptr) (hown : ThreadOk s.pool s.casCount fl pc') : AccessOk P (s.moveTo i s.pool pc') fl :=
  h.local rfl rfl rfl (fun _ _ => rfl) hlink (by simp [owned, hptr]) hown

/-- A push that returns without pushing: the thread hands over its pointer. -/
theorem AccessOk.finish_same (h : AccessOk P s fl) {r : PushRet T} (hlink : (s.pc i).link s.pool = none)
    (hptr : (s.pc i).ptr = r.returned) : AccessOk P (s.finish i s.pool r) fl :=
  h.local rfl rfl rfl (fun t ht => by simp [ht]) (by simp [hlink]) (by simp [owned, hptr]) (threadOk_after r)

theorem owned_same (hpc : s'.pc = Function.update s.pc i pc') (hheld : s'.held = s.held)
    (hptr : pc'.ptr = (s.pc i).ptr) : owned s' = owned s := by
  funext t
  rw [owned_after hpc fun t _ => congrFun hheld t]
  split_ifs with ht
  · subst ht; simp [owned, hptr, hheld]
  · rfl

/-- A step that keeps every thread's pointers and the live objects keeps ownership exclusive. -/
theorem AccessOk.exclusive_same (h : AccessOk P s fl) (hpc : s'.pc = Function.update s.pc i pc')
    (hheld : s'.held = s.held) (hptr : pc'.ptr = (s.pc i).ptr) (hlive : s'.pool.isLive = s.pool.isLive) :
    Exclusive (owned s') (s'.pool.isLive · = true) :=
  h.exclusive.congr (fun t => by rw [owned_same hpc hheld hptr]) fun p => by rw [hlive]

theorem owned_exchanged (s : AccessThreads T n) : owned s.exchanged = owned s := rfl

theorem owned_finish {pool' : PagingObjectPool T} {r : PushRet T} (hptr : (s.pc i).ptr = r.returned) :
    owned (s.finish i pool' r) = owned s := by
  funext t
  by_cases ht : t = i
  · subst ht; simp [owned, hptr]
  · simp [owned, ht]

theorem HeadOk.lt_two_pow {pool : PagingObjectPool T} {w : Nat} (h : HeadOk pool w) (hp : pool.numPages ≤ cMaxPages) :
    headPageIndex w < 2 ^ 28 := by
  rcases h with h | h
  · exact lt_of_lt_of_le h (le_trans hp (by decide))
  · rw [h]; decide

/-- A step of thread `i` that rewrites the link of the page at `a` alone, when no other thread has that link in
flight and the thread has it in flight or the page off the list, before and after, keeps the invariant. -/
theorem AccessOk.relink (h : AccessOk P s fl) {a k : Nat} {pg : Page T} (hpg : s.pool.pages a = some pg)
    (hfree : ∀ t, t ≠ i → (s.pc t).link s.pool ≠ some a)
    (hold : (s.pc i).link s.pool = some a ∨ (s.pc i).link s.pool = none ∧ pg.nextFreeIndex = cInvalidPageIndex)
    (hnew : pc'.link s.pool = some a ∨ pc'.link s.pool = none ∧ k = cInvalidPageIndex)
    (hptr : pc'.ptr = (s.pc i).ptr) (hown : ThreadOk (s.pool.setPage a { pg with nextFreeIndex := k }) s.casCount fl pc') :
    AccessOk P (s.moveTo i (s.pool.setPage a { pg with nextFreeIndex := k }) pc') fl := by
  have hl' : pc'.link (s.pool.setPage a { pg with nextFreeIndex := k }) = pc'.link s.pool := rfl
  have hnew' : ∀ b, pc'.link (s.pool.setPage a { pg with nextFreeIndex := k }) = some b → b = a := fun b hb => by
    rcases hnew with hn | ⟨hn, -⟩ <;> rw [hl', hn] at hb <;> cases hb
    rfl
  have hB : ∀ b, b ≠ a → busy (s.moveTo i (s.pool.setPage a { pg with nextFreeIndex := k }) pc') b = busy s b := by
    refine busy_after (i := i) h.threads ?_ ?_ ?_ ?_
    · exact fun t ht => Function.update_noteq ht _ _
    · exact fun _ _ => rfl
    · intro b hb
      rcases hold with ho | ⟨ho, -⟩ <;> rw [ho] at hb <;> cases hb
      rfl
    · intro b hb
      simp only [AccessThreads.moveTo_pc, Function.update_same, AccessThreads.moveTo_pool] at hb
      exact hnew' b hb
  have hq : quiet (s.moveTo i (s.pool.setPage a { pg with nextFreeIndex := k }) pc') = quiet s := by
    refine quietPages_relink hpg hB ?_ ?_
    · rcases hold with ho | ⟨-, ho⟩
      exacts [.inl (busy_of_link ho), .inr ho]
    · rcases hnew with hn | ⟨-, hn⟩
      exacts [.inl (busy_of_link (t := i) (by simpa using hn)), .inr hn]
  refine h.step_of rfl le_rfl (fun _ _ => rfl) (fun t ht b hb => ?_) (.inl ⟨rfl, rfl, rfl⟩) (hq ▸ h.shared) hown
    h.counter (fun b hb t ht htb => ?_) (h.exclusive_same rfl rfl hptr (isLive_congr (dataOf_relink hpg _)))
  · have hba : b ≠ a := fun e => hfree t ht (e ▸ hb)
    simp only [linkAt, AccessThreads.moveTo_pool, setPage_pages, Function.update_noteq hba]
  · obtain rfl := hnew' b hb
    exact hfree t ht htb

/-- A step of thread `i` that changes the pages' contents, the count or the page list's end, and no link, from
and to control points with no link in flight, keeps the invariant when the quiet pool after it keeps the free
list. -/
theorem AccessOk.data (h : AccessOk P s fl) (hpc : s'.pc = Function.update s.pc i pc')
    (hheld : ∀ t, t ≠ i → s'.held t = s.held t) (hn : s.pool.numPages ≤ s'.pool.numPages)
    (hl : ∀ j < s.pool.numPages, s'.pool.pPageList j = s.pool.pPageList j)
    (hlink : ∀ a, Listed s.pool a → linkAt s'.pool a = linkAt s.pool a)
    (hhead : s'.pool.freeListHeadIndex = s.pool.freeListHeadIndex) (hc : s'.casCount = s.casCount)
    (hnone : (s.pc i).link s.pool = none) (hnone' : pc'.link s'.pool = none)
    (hsh : SharedOk P (quietPages s'.pool (busy s)) fl) (hown : ThreadOk s'.pool s'.casCount fl pc')
    (hex : Exclusive (owned s') (s'.pool.isLive · = true)) : AccessOk P s' fl := by
  have hlinks : ∀ t, (s'.pc t).link s'.pool = (s.pc t).link s.pool := fun t => by
    by_cases ht : t = i
    · subst ht; rw [hpc, Function.update_same, hnone', hnone]
    · exact link_after h.threads (others_of_update hpc) hl ht
  refine h.step_of hpc hn hl (fun t _ a ha => hlink a ((h.threads t).link_listed ha)) (.inl ⟨hhead, hc, rfl⟩)
    (by rw [quiet, busy_congr hlinks]; exact hsh) hown (by rw [hhead, hc]; exact h.counter) (fun a ha => ?_) hex
  rw [hnone'] at ha
  cases ha

/-- The page `AllocateNewPage` adds holds no object. -/
theorem AccessOk.addPage_isLive (h : AccessOk P s fl) (hroom : s.pool.numPages < cMaxPages) :
    s.pool.addPage.1.isLive = s.pool.isLive := by
  obtain ⟨hlive1, -⟩ := addPage_live h.shared hroom
  rwa [quiet, congrArg Prod.fst addPage_quietPages, isLive_congr dataOf_quietPages,
    isLive_congr dataOf_quietPages] at hlive1

/-- `AllocateNewPage` up to its push, with room for a page: the page goes to the next address, listed and off the
list, and the thread goes on to push it. -/
theorem AccessOk.addPage (h : AccessOk P s fl) (hnone : (s.pc i).link s.pool = none) (hptr : (s.pc i).ptr = [])
    (hroom : s.pool.numPages < cMaxPages) {r : PushRet T} (hr : r.returned = []) :
    AccessOk P (s.moveTo i s.pool.addPage.1 (.pushMark r s.pool.addPage.2)) fl := by
  obtain ⟨hpages, hlist, hnum, -, -, hhead⟩ := addPage_eq hroom
  obtain ⟨hsh1, -, -, -⟩ := addPage_shared h.shared hroom
  rw [quiet, congrArg Prod.fst addPage_quietPages] at hsh1
  have hl : ∀ j < s.pool.numPages, s.pool.addPage.1.pPageList j = s.pool.pPageList j := fun j hj => by
    rw [hlist, Function.update_noteq (Nat.ne_of_lt hj)]
  have hnew : Listed s.pool.addPage.1 s.pool.addPage.2 :=
    ⟨s.pool.numPages, by rw [hnum]; omega, by rw [hlist, Function.update_same]; rfl⟩
  have hlink : ∀ a, Listed s.pool a → linkAt s.pool.addPage.1 a = linkAt s.pool a := fun a ⟨j, hj, hja⟩ => by
    subst hja
    simp only [linkAt, hpages, Function.update_noteq (Nat.ne_of_lt (h.pagesOk.addr_lt hj))]
  refine h.data (i := i) rfl ?_ ?_ ?_ ?_ ?_ ?_ ?_ ?_ ?_ ?_ ?_
  exacts [fun _ _ => rfl, by rw [AccessThreads.moveTo_pool, hnum]; omega, hl, hlink, hhead, rfl, hnone, rfl, hsh1,
    hnew, h.exclusive_same rfl rfl (hr.trans hptr.symm) (h.addPage_isLive hroom)]

/-- `Reserve`'s turn in the page it popped, at index `j`: a full page sends it back to the top of its loop; a page
with a free slot gives it the slot, and it returns the pointer, after a push of the page unless the page is now
full. -/
theorem AccessOk.holding (h : AccessOk P s fl) {x : T} {j : Nat} (hj : j < s.pool.numPages)
    (hpc : s.pc i = .holding x (s.pool.pPageList j)) :
    ∃ pool' res, s.pool.takeFromPage P (s.pool.pPageList j) x = .ok (pool', res) ∧ linkAt pool' = linkAt s.pool ∧
      pool'.numPages = s.pool.numPages ∧ (res = none ↔ s.pool.hasSpace P j = false) ∧
      (res = none → pool'.isLive = s.pool.isLive ∧ accessNext P s i = some (s.moveTo i pool' (.popLoad x)) ∧
        AccessOk P (s.moveTo i pool' (.popLoad x)) fl) ∧
      (∀ q full, res = some (q, full) → s.pool.isLive q = false ∧ (pool'.nodeAt q).map (·.data) = some x ∧
        (full = true → accessNext P s i = some (s.moveTo i pool' (.pushMark (.reserved q) (s.pool.pPageList j))) ∧
          AccessOk P (s.moveTo i pool' (.pushMark (.reserved q) (s.pool.pPageList j))) fl) ∧
        (full = false → accessNext P s i = some (s.finish i pool' (.reserved q)) ∧
          AccessOk P (s.finish i pool' (.reserved q)) fl)) := by
  obtain ⟨pool', res, htake, hsh, hnum, hlist, hlink, hhead, hiff, hfull, hfree⟩ := takeFromPage_quiet h.shared hj x
  have hnone : (s.pc i).link s.pool = none := by rw [hpc]; rfl
  have hown : owned s i = s.held i := by simp [owned, hpc, AccessPC.ptr]
  -- every outcome rewrites the page's nodes and the count alone
  have hdata : ∀ {s' : AccessThreads T n} {pc' : AccessPC T}, s'.pc = Function.update s.pc i pc' →
      (∀ t, t ≠ i → s'.held t = s.held t) → s'.pool = pool' → s'.casCount = s.casCount → pc'.link pool' = none →
      ThreadOk pool' s.casCount fl pc' → Exclusive (owned s') (pool'.isLive · = true) → AccessOk P s' fl :=
    fun {s'} {pc'} hpc' hheld hpool hc hnone' hok hex => by
      subst hpool
      refine h.data hpc' ?_ ?_ ?_ ?_ ?_ ?_ ?_ ?_ ?_ ?_ ?_
      exacts [hheld, hnum.ge, fun _ _ => by rw [hlist], fun a _ => by rw [hlink], hhead, hc, hnone, hnone', hsh,
        hc ▸ hok, hex]
  refine ⟨pool', res, htake, hlink, hnum, hiff, fun hr => ⟨hfull hr, by simp only [accessNext, hpc, htake, hr], ?_⟩,
    fun q full hr => ?_⟩
  · exact hdata rfl (fun _ _ => rfl) rfl rfl rfl trivial (h.exclusive_same rfl rfl (by rw [hpc]; rfl) (hfull hr))
  obtain ⟨hq, hlive, hnode⟩ := hfree q full hr
  -- the slot taken was free: thread `i` owns it, as the pointer about to be returned or in its hands
  have hgain : ∀ s' : AccessThreads T n, (∀ t, t ≠ i → owned s' t = owned s t) → owned s' i = q :: s.held i →
      s'.pool = pool' → Exclusive (owned s') (s'.pool.isLive · = true) := fun s' hoff hi hpool =>
    h.exclusive.gain i (show ¬ s.pool.isLive q = true by simp [hq]) hoff (by rw [hi, hown])
      fun b => by simp [hpool, hlive b]
  have hlisted : Listed pool' (s.pool.pPageList j) := ⟨j, hnum ▸ hj, by rw [hlist]⟩
  refine ⟨hq, hnode, fun hf => ⟨by simp only [accessNext, hpc, htake, hr, hf], ?_⟩,
    fun hf => ⟨by simp only [accessNext, hpc, htake, hr, hf], ?_⟩⟩
  · exact hdata rfl (fun _ _ => rfl) rfl rfl rfl hlisted
      (hgain _ (fun t ht => by simp [owned, ht]) (by simp [owned, AccessPC.ptr, PushRet.returned]) rfl)
  · exact hdata rfl (fun t ht => by simp [ht]) rfl rfl (AccessPC.link_after _) (threadOk_after _)
      (hgain _ (fun t ht => by simp [owned, ht]) (by simp [owned, PushRet.returned]) rfl)

/-- `Release` of a pointer the idle thread holds: the object is live, its slot is freed, and the thread goes on to
push the page. -/
theorem AccessOk.release (h : AccessOk P s fl) (hidle : s.pc i = .idle) {p : PoolPtr} (hp : p ∈ s.held i) :
    ∃ pool2, s.pool.releaseInPage P p = .ok (pool2, some p.page, true) ∧
      accessStep P s i (.callRelease p) =
        some { s.moveTo i pool2 (.pushMark .released p.page) with held := Function.update s.held i ((s.held i).erase p) } ∧
      AccessOk P { s.moveTo i pool2 (.pushMark .released p.page) with
        held := Function.update s.held i ((s.held i).erase p) } fl := by
  have hown : owned s i = s.held i := by simp [owned, hidle, AccessPC.ptr]
  have hlive : s.pool.isLive p = true := (h.exclusive.inUse_iff p).2 ⟨i, hown ▸ hp⟩
  obtain ⟨pool2, hrel, hsh, hnum, hlist, hlink, hhead, hlisted, hisLive⟩ := releaseInPage_quiet h.shared hlive
  refine ⟨pool2, hrel, by simp only [accessStep, hidle, hrel], ?_⟩
  have hex : Exclusive (owned { s.moveTo i pool2 (.pushMark .released p.page) with
      held := Function.update s.held i ((s.held i).erase p) }) (pool2.isLive · = true) :=
    h.exclusive.drop i (hown ▸ hp) (fun t ht => by simp [owned, ht])
      (by simp [owned, hidle, AccessPC.ptr, PushRet.returned]) fun q => by simp [hisLive q]
  refine h.data (i := i) rfl ?_ ?_ ?_ ?_ ?_ ?_ ?_ ?_ ?_ ?_ ?_
  exacts [fun t ht => by simp [ht], hnum.ge, fun j _ => congrFun hlist j, fun a _ => congrFun hlink a, hhead, rfl,
    by rw [hidle]; rfl, rfl, hsh, hlisted.mono hnum.ge fun j _ => congrFun hlist j, hex]

/-! ## One step of `Pop` -/

variable {x : T}

/-- `Pop` loads the head word: an empty list sends `Reserve` to allocate a page. -/
theorem AccessOk.popLoad_nil (h : AccessOk P s []) (hpc : s.pc i = .popLoad x) :
    accessNext P s i = some (s.moveTo i s.pool (.allocating x)) ∧ AccessOk P (s.moveTo i s.pool (.allocating x)) [] := by
  have hT : headPageIndex s.pool.freeListHeadIndex = cTailPageIndex := h.head_eq
  refine ⟨by simp only [accessNext, hpc, hT, h.tail_not_lt, if_false, if_true], ?_⟩
  exact h.move (by rw [hpc]; rfl) (by rw [hpc]; rfl) trivial

theorem AccessOk.popLoad_cons {j : Nat} {rest : List Nat} (h : AccessOk P s (j :: rest)) (hpc : s.pc i = .popLoad x) :
    accessNext P s i = some (s.moveTo i s.pool (.popRead x s.pool.freeListHeadIndex s.casCount)) ∧
      AccessOk P (s.moveTo i s.pool (.popRead x s.pool.freeListHeadIndex s.casCount)) (j :: rest) := by
  have hj : headPageIndex s.pool.freeListHeadIndex < s.pool.numPages := by
    rw [h.head_eq]
    exact h.shared.freeList.lt j (List.mem_cons_self _ _)
  refine ⟨by simp only [accessNext, hpc, hj, if_true], ?_⟩
  exact h.move (by rw [hpc]; rfl) (by rw [hpc]; rfl) ⟨hj, le_rfl, h.counter, fun _ => rfl⟩

/-- `Pop` reads the successor's link; with no exchange since its load, it is the link of the list's second
page. -/
theorem AccessOk.popRead (h : AccessOk P s fl) {w g : Nat} (hpc : s.pc i = .popRead x w g) :
    ∃ nnx, accessNext P s i = some (s.moveTo i s.pool (.popCas x w g nnx)) ∧
      AccessOk P (s.moveTo i s.pool (.popCas x w g nnx)) fl := by
  have ⟨hlt, hL⟩ : ThreadOk s.pool s.casCount fl (.popRead x w g) := hpc ▸ h.threads i
  obtain ⟨nnx, hnnx⟩ := nextLinkOf_ok h.pagesOk w
  refine ⟨nnx, by simp only [accessNext, hpc, hnnx], h.move (by rw [hpc]; rfl) (by rw [hpc]; rfl) ⟨hlt, hL, fun hg => ?_⟩⟩
  have hw := hL.2.2 hg
  subst hw
  obtain ⟨rest, rfl⟩ := h.cons_of_lt hlt
  have hl := h.shared.freeList.linked
  -- the successor is on the list, so its link is not in flight
  have hB : headNextIndex s.pool.freeListHeadIndex < s.pool.numPages →
      busy s (s.pool.pPageList (headNextIndex s.pool.freeListHeadIndex)) = false := fun hn => by
    have hnext : headNextIndex s.pool.freeListHeadIndex = rest.headD cTailPageIndex := hl.2.1
    rw [hnext] at hn ⊢
    cases rest with
    | nil => exact absurd hn h.tail_not_lt
    | cons j' rest' => exact (h.mem_link (List.mem_cons_of_mem _ (List.mem_cons_self _ _))).1
  have hread := nextLinkOf_linked h.shared.pagesOk h.shared.freeList
  rw [show quiet s = quietPages s.pool (busy s) from rfl, quietPages_freeListHeadIndex, nextLinkOf_quietPages hB,
    hnnx] at hread
  rw [Except.ok.inj hread]
  cases rest <;> rfl

/-- `Pop`'s exchange fails, or finds the successor's link in flight: back to the load. -/
theorem AccessOk.popCas_fail (h : AccessOk P s fl) {w g nnx : Nat} (hpc : s.pc i = .popCas x w g nnx)
    (hfail : ¬ (nnx ≠ cInvalidPageIndex ∧ nnx ≠ cSwappingPageIndex ∧ s.pool.freeListHeadIndex = w)) :
    accessNext P s i = some (s.moveTo i s.pool (.popLoad x)) ∧ AccessOk P (s.moveTo i s.pool (.popLoad x)) fl :=
  ⟨by simp only [accessNext, hpc, if_neg hfail], h.move (by rw [hpc]; rfl) (by rw [hpc]; rfl) trivial⟩

/-- `Pop`'s exchange on the head word it loaded, with no wrap of the counter since: it takes the list's head
page, whose link goes in flight. -/
theorem AccessOk.popCas (h : AccessOk P s fl) {w g nnx : Nat} (hpc : s.pc i = .popCas x w g nnx)
    (hw : s.pool.freeListHeadIndex = w) (hwrap : ¬ g + 2 ^ 8 ≤ s.casCount) :
    ∃ rest, fl = headPageIndex w :: rest ∧
      accessNext P s i = some (s.moveTo i { s.pool with freeListHeadIndex := nextHead w nnx (headNextIndex w) }
        (.popStore x (headPageIndex w))).exchanged ∧
      AccessOk P (s.moveTo i { s.pool with freeListHeadIndex := nextHead w nnx (headNextIndex w) }
        (.popStore x (headPageIndex w))).exchanged rest := by
  have ⟨hlt, hL, hnnx⟩ : ThreadOk s.pool s.casCount fl (.popCas x w g nnx) := hpc ▸ h.threads i
  have hg := h.no_wrap hL hw hwrap
  subst hw
  obtain ⟨rest, rfl⟩ := h.cons_of_lt hlt
  set j := headPageIndex s.pool.freeListHeadIndex
  have hl := h.shared.freeList.linked
  have hp := h.shared.pagesOk
  have hrest : ∀ k ∈ rest, k < s.pool.numPages := fun k hk => h.shared.freeList.lt k (List.mem_cons_of_mem _ hk)
  have htail : ∀ m ∈ rest.tail, m < s.pool.numPages := fun m hm => hrest m (List.mem_of_mem_tail hm)
  have hnnx' : nnx = rest.tail.headD cTailPageIndex := by rw [hnnx hg]; cases rest <;> rfl
  have hnext : headNextIndex s.pool.freeListHeadIndex = rest.headD cTailPageIndex := hl.2.1
  obtain ⟨hbusy, k, hk, hk'⟩ := h.mem_link (List.mem_cons_self j rest)
  obtain ⟨raw, hraw, rfl⟩ := Option.map_eq_some'.1 hk
  have hok := ne_marks_of_lt_or_tail hp.numPages_le (headD_lt htail)
  rw [← hnnx'] at hok
  refine ⟨rest, rfl, by simp only [accessNext, hpc, ne_eq, hok.1, hok.2, not_false_eq_true, and_self, if_true], ?_⟩
  have hia : (s.pc i).link s.pool = none := by rw [hpc]; rfl
  generalize hH : nextHead s.pool.freeListHeadIndex nnx (headNextIndex s.pool.freeListHeadIndex) = H
  refine h.step_of rfl le_rfl (fun _ _ => rfl) (fun _ _ _ _ => rfl) (.inr (Nat.lt_succ_self _)) ?_
    ⟨hlt, fun e => (ne_marks_of_lt_or_tail hp.numPages_le hk').1 (Option.some.inj (hk.symm.trans e))⟩ ?_
    (fun b hb t _ htb => ?_) (h.exclusive_same rfl rfl (by rw [hpc]; rfl) rfl)
  · -- the popped page reads as off the list, and the head word as the rest's
    have hB : ∀ b, b ≠ s.pool.pPageList j →
        busy (s.moveTo i { s.pool with freeListHeadIndex := H } (.popStore x j)).exchanged b = busy s b := by
      refine busy_after (i := i) h.threads ?_ ?_ ?_ ?_
      · exact fun t ht => Function.update_noteq ht _ _
      · exact fun _ _ => rfl
      · intro b hb; rw [hia] at hb; cases hb
      · intro b hb; simp [AccessPC.link] at hb; exact hb.symm
    have hba : busy (s.moveTo i { s.pool with freeListHeadIndex := H } (.popStore x j)).exchanged
        (s.pool.pPageList j) = true :=
      busy_of_link (t := i) (by simp [AccessPC.link])
    have hpg : (quiet s).page j = some (quietPage (busy s) (s.pool.pPageList j) raw) := by
      simp [page, quiet, quietPages_pages, hraw]
    have hq : quiet (s.moveTo i { s.pool with freeListHeadIndex := H } (.popStore x j)).exchanged =
        (quiet s).popped j (quietPage (busy s) (s.pool.pPageList j) raw) rest := by
      rw [quiet, AccessThreads.exchanged_pool, AccessThreads.moveTo_pool, quietPages_withHead, quietPages_update hraw hB,
        quietPage_of_busy hba, popped, popHead, ← hH, hnnx', hnext]
      rfl
    rw [hq]
    exact h.shared.popped hpg
  · -- the counter moves with the count of exchanges
    show headCounter H = (s.casCount + 1) % 2 ^ 8
    have hn1 : nnx < 2 ^ 28 := by rw [hnnx']; exact headD_lt_two_pow hp htail
    have hn2 : headNextIndex s.pool.freeListHeadIndex < 2 ^ 28 := by rw [hnext]; exact headD_lt_two_pow hp hrest
    rw [← hH, nextHead, headCounter_packHead (Nat.mod_lt _ (by decide)) hn1 hn2]
    have := h.counter
    omega
  · obtain rfl : s.pool.pPageList j = b := Option.some.inj hb
    exact absurd (busy_of_link htb) (by rw [hbusy]; decide)

/-- `Pop` marks the page it won `c_InvalidPageIndex`, and its link leaves flight. -/
theorem AccessOk.popStore (h : AccessOk P s fl) {k : Nat} (hpc : s.pc i = .popStore x k) :
    ∃ pg, s.pool.pages (s.pool.pPageList k) = some pg ∧
      accessNext P s i = some (s.moveTo i (s.pool.setPage (s.pool.pPageList k)
        { pg with nextFreeIndex := cInvalidPageIndex }) (.holding x (s.pool.pPageList k))) ∧
      AccessOk P (s.moveTo i (s.pool.setPage (s.pool.pPageList k)
        { pg with nextFreeIndex := cInvalidPageIndex }) (.holding x (s.pool.pPageList k))) fl := by
  obtain ⟨hk, -⟩ : ThreadOk s.pool s.casCount fl (.popStore x k) := hpc ▸ h.threads i
  obtain ⟨pg, hpg, -⟩ := h.pagesOk.page_ok k hk
  have hpg' : s.pool.pages (s.pool.pPageList k) = some pg := hpg
  have hia : (s.pc i).link s.pool = some (s.pool.pPageList k) := by rw [hpc]; rfl
  exact ⟨pg, hpg', by simp only [accessNext, hpc, hk, if_true, readPage, hpg'],
    h.relink hpg' (fun t ht hta => ht (h.link_unique t i _ hta hia)) (.inl hia) (.inr ⟨rfl, rfl⟩) (by rw [hpc]; rfl)
      ⟨k, hk, rfl⟩⟩

/-! ## One step of `Push` -/

variable {r : PushRet T} {a : Nat}

/-- `Push`'s mark: a page off the list is marked `c_SwappingPageIndex` and its link goes in flight; on any
other link the push returns at once. -/
theorem AccessOk.pushMark (h : AccessOk P s fl) (hpc : s.pc i = .pushMark r a) :
    ∃ pg, s.pool.pages a = some pg ∧
      (pg.nextFreeIndex = cInvalidPageIndex →
        accessNext P s i = some (s.moveTo i (s.pool.setPage a { pg with nextFreeIndex := cSwappingPageIndex })
          (.pushLoad r a)) ∧
        AccessOk P (s.moveTo i (s.pool.setPage a { pg with nextFreeIndex := cSwappingPageIndex }) (.pushLoad r a)) fl) ∧
      (pg.nextFreeIndex ≠ cInvalidPageIndex →
        accessNext P s i = some (s.finish i s.pool r) ∧ AccessOk P (s.finish i s.pool r) fl) := by
  have hla : ThreadOk s.pool s.casCount fl (.pushMark r a) := hpc ▸ h.threads i
  obtain ⟨j, pg, hj, rfl, hpg, -⟩ := h.page_of_listed hla
  refine ⟨pg, hpg, fun hinv => ⟨by simp only [accessNext, hpc, readPage, hpg, hinv, if_true], ?_⟩,
    fun hinv => ⟨by simp only [accessNext, hpc, readPage, hpg, hinv, if_false],
      h.finish_same (by rw [hpc]; rfl) (by rw [hpc]; rfl)⟩⟩
  -- the page is off the list, so no thread has its link in flight
  have hfree : ∀ t, (s.pc t).link s.pool ≠ some (s.pool.pPageList j) := fun t ht =>
    (h.threads t).link_ne_invalid h.pagesOk.numPages_le ht (by simp [linkAt, hpg, hinv])
  exact h.relink hpg (fun t _ => hfree t) (.inr ⟨by rw [hpc]; rfl, hinv⟩) (.inl rfl) (by rw [hpc]; rfl)
    ⟨⟨j, hj, rfl⟩, by simp [linkAt, cSwappingPageIndex, cInvalidPageIndex]⟩

/-- `Push` loads the head word, which passes its test. -/
theorem AccessOk.pushLoad (h : AccessOk P s fl) (hpc : s.pc i = .pushLoad r a) :
    accessNext P s i = some (s.moveTo i s.pool (.pushStore r a s.pool.freeListHeadIndex s.casCount)) ∧
      AccessOk P (s.moveTo i s.pool (.pushStore r a s.pool.freeListHeadIndex s.casCount)) fl := by
  have ⟨hla, hne⟩ : ThreadOk s.pool s.casCount fl (.pushLoad r a) := hpc ▸ h.threads i
  obtain ⟨j, pg, hj, rfl, hpg, hidx⟩ := h.page_of_listed hla
  have hH : headPageIndex s.pool.freeListHeadIndex < s.pool.numPages ∨
      headPageIndex s.pool.freeListHeadIndex = cTailPageIndex := h.headOk
  exact ⟨by simp only [accessNext, hpc, readPage, hpg, hidx, hj, true_and, hH, if_true],
    h.move (by rw [hpc]; rfl) (by rw [hpc]; rfl) ⟨hla, hne, ⟨le_rfl, h.counter, fun _ => rfl⟩, h.headOk⟩⟩

/-- `Push` stores the loaded head's index in its page's link. -/
theorem AccessOk.pushStore (h : AccessOk P s fl) {w g : Nat} (hpc : s.pc i = .pushStore r a w g) :
    ∃ pg, s.pool.pages a = some pg ∧
      accessNext P s i = some (s.moveTo i (s.pool.setPage a { pg with nextFreeIndex := headPageIndex w })
        (.pushCas r a w g)) ∧
      AccessOk P (s.moveTo i (s.pool.setPage a { pg with nextFreeIndex := headPageIndex w }) (.pushCas r a w g)) fl := by
  obtain ⟨hla, -, hL, hH⟩ : ThreadOk s.pool s.casCount fl (.pushStore r a w g) := hpc ▸ h.threads i
  obtain ⟨j, pg, hj, rfl, hpg, -⟩ := h.page_of_listed hla
  have hia : (s.pc i).link s.pool = some (s.pool.pPageList j) := by rw [hpc]; rfl
  exact ⟨pg, hpg, by simp only [accessNext, hpc, readPage, hpg],
    h.relink hpg (fun t ht hta => ht (h.link_unique t i _ hta hia)) (.inl hia) (.inl rfl) (by rw [hpc]; rfl)
      ⟨⟨j, hj, rfl⟩, by simp [linkAt], hL.frame (.inl ⟨rfl, rfl⟩), hH⟩⟩

/-- `Push`'s exchange fails: back to the load. -/
theorem AccessOk.pushCas_fail (h : AccessOk P s fl) {w g : Nat} (hpc : s.pc i = .pushCas r a w g)
    (hne : s.pool.freeListHeadIndex ≠ w) :
    accessNext P s i = some (s.moveTo i s.pool (.pushLoad r a)) ∧ AccessOk P (s.moveTo i s.pool (.pushLoad r a)) fl := by
  obtain ⟨hla, hlink, -, hH⟩ : ThreadOk s.pool s.casCount fl (.pushCas r a w g) := hpc ▸ h.threads i
  obtain ⟨j, pg, hj, rfl, hpg, -⟩ := h.page_of_listed hla
  refine ⟨by simp only [accessNext, hpc, readPage, hpg, hne, if_false],
    h.move (by rw [hpc]; rfl) (by rw [hpc]; rfl) ⟨hla, ?_⟩⟩
  rw [hlink]
  exact fun e => hH.ne_invalid h.pagesOk.numPages_le (Option.some.inj e)

/-- `Push`'s exchange on the head word it loaded, with no wrap of the counter since: its page heads the list,
and its link leaves flight. -/
theorem AccessOk.pushCas (h : AccessOk P s fl) {w g : Nat} (hpc : s.pc i = .pushCas r a w g)
    (hw : s.pool.freeListHeadIndex = w) (hwrap : ¬ g + 2 ^ 8 ≤ s.casCount) :
    ∃ j, s.pool.pPageList j = a ∧ j ∉ fl ∧
      accessNext P s i = some (s.finish i { s.pool with freeListHeadIndex := nextHead w (headPageIndex w) j } r).exchanged ∧
      AccessOk P (s.finish i { s.pool with freeListHeadIndex := nextHead w (headPageIndex w) j } r).exchanged
        (j :: fl) := by
  have ⟨hla, hlink, hL, hH⟩ : ThreadOk s.pool s.casCount fl (.pushCas r a w g) := hpc ▸ h.threads i
  have hg := h.no_wrap hL hw hwrap
  obtain ⟨j, raw, hj, rfl, hraw, hidx⟩ := h.page_of_listed hla
  have hia : (s.pc i).link s.pool = some (s.pool.pPageList j) := by rw [hpc]; rfl
  have hnj : j ∉ fl := fun hm => by
    have := (h.mem_link hm).1
    rw [busy_of_link hia] at this
    cases this
  refine ⟨j, rfl, hnj, by simp only [accessNext, hpc, readPage, hraw, hw, if_true, hidx], ?_⟩
  subst hw
  have hp := h.shared.pagesOk
  have hnext : raw.nextFreeIndex = fl.headD cTailPageIndex := by
    have : linkAt s.pool (s.pool.pPageList j) = some raw.nextFreeIndex := by simp [linkAt, hraw]
    rw [this, h.head_eq] at hlink
    exact Option.some.inj hlink
  have hptr : (s.pc i).ptr = r.returned := by rw [hpc]; rfl
  generalize hH' : nextHead s.pool.freeListHeadIndex (headPageIndex s.pool.freeListHeadIndex) j = H
  refine h.step_of rfl le_rfl (fun _ _ => rfl) (fun _ _ _ _ => rfl) (.inr (Nat.lt_succ_self _)) ?_ (threadOk_after r) ?_
    (fun b hb => by simp at hb) (h.exclusive.congr (fun t => by rw [owned_exchanged, owned_finish hptr])
      fun p => Iff.rfl)
  · -- the pushed page reads with its link, and the head word as the list's with the page on top
    have hB : ∀ b, b ≠ s.pool.pPageList j →
        busy (s.finish i { s.pool with freeListHeadIndex := H } r).exchanged b = busy s b := by
      refine busy_after (i := i) h.threads ?_ ?_ ?_ ?_
      · exact fun t ht => Function.update_noteq ht _ _
      · exact fun _ _ => rfl
      · intro b hb; rw [hia] at hb; cases hb; rfl
      · intro b hb; simp at hb
    have hba : busy (s.finish i { s.pool with freeListHeadIndex := H } r).exchanged (s.pool.pPageList j) = false := by
      refine decide_eq_false fun ⟨t, ht⟩ => ?_
      by_cases hti : t = i
      · subst hti; simp at ht
      · simp only [AccessThreads.exchanged_pc, AccessThreads.finish_pc, Function.update_noteq hti] at ht
        exact hti (h.link_unique t i _ ht hia)
    have hpg : (quiet s).page j = some (quietPage (busy s) (s.pool.pPageList j) raw) := by
      simp [page, quiet, quietPages_pages, hraw]
    have hq : quiet (s.finish i { s.pool with freeListHeadIndex := H } r).exchanged =
        (quiet s).pushed j (quietPage (busy s) (s.pool.pPageList j) raw) fl := by
      rw [quiet, AccessThreads.exchanged_pool, AccessThreads.finish_pool, quietPages_withHead, quietPages_update hraw hB,
        quietPage_of_not_busy hba, pushed, ← hH', h.head_eq, ← hnext]
      rfl
    rw [hq]
    exact h.shared.pushed hj hnj hpg
  · -- the counter moves with the count of exchanges
    show headCounter H = (s.casCount + 1) % 2 ^ 8
    rw [← hH', nextHead, headCounter_packHead (Nat.mod_lt _ (by decide)) (hH.lt_two_pow hp.numPages_le)
      (lt_two_pow_of_lt_numPages hp hj)]
    have := h.counter
    omega

/-! ## Every step -/

theorem allowed_next (ha : allowed s i .next = true) :
    ((s.pc i).allocates = true → s.pool.numPages < cMaxPages) ∧ wrapsAt s i = false := by
  simp only [allowed, Bool.and_eq_true, Bool.or_eq_true, Bool.not_eq_true', decide_eq_true_eq] at ha
  exact ⟨fun hal => ha.1.resolve_left (by simp [hal]), ha.2⟩

/-- Every thread in a call takes its next step in the runs considered, and the step keeps the invariant. -/
theorem AccessOk.next (h : AccessOk P s fl) (ha : allowed s i .next = true) (hidle : s.pc i ≠ .idle) :
    ∃ s' fl', accessNext P s i = some s' ∧ AccessOk P s' fl' := by
  obtain ⟨hroom, hwrap⟩ := allowed_next ha
  cases hpc : s.pc i with
  | idle => exact absurd hpc hidle
  | popLoad x =>
    cases fl with
    | nil => exact ⟨_, _, h.popLoad_nil hpc⟩
    | cons j rest => exact ⟨_, _, h.popLoad_cons hpc⟩
  | popRead x w g =>
    obtain ⟨nnx, hs⟩ := h.popRead hpc
    exact ⟨_, _, hs⟩
  | popCas x w g nnx =>
    by_cases hc : nnx ≠ cInvalidPageIndex ∧ nnx ≠ cSwappingPageIndex ∧ s.pool.freeListHeadIndex = w
    · have hg : ¬ g + 2 ^ 8 ≤ s.casCount := by simpa [wrapsAt, hpc, hc.1, hc.2.1, hc.2.2] using hwrap
      obtain ⟨rest, -, hs⟩ := h.popCas hpc hc.2.2 hg
      exact ⟨_, _, hs⟩
    · exact ⟨_, _, h.popCas_fail hpc hc⟩
  | popStore x k =>
    obtain ⟨pg, -, hs⟩ := h.popStore hpc
    exact ⟨_, _, hs⟩
  | allocating x =>
    have hok := h.addPage (i := i) (by rw [hpc]; rfl) (by rw [hpc]; rfl) (hroom (by rw [hpc]; rfl)) (r := .reserving x) rfl
    exact ⟨_, _, by simp only [accessNext, hpc], hok⟩
  | holding x a =>
    have hl : ThreadOk s.pool s.casCount fl (.holding x a) := hpc ▸ h.threads i
    obtain ⟨j, hj, rfl⟩ := hl
    obtain ⟨pool', res, -, -, -, -, hnone, hsome⟩ := h.holding hj hpc
    rcases res with _ | ⟨q, _ | _⟩
    exacts [⟨_, _, (hnone rfl).2⟩, ⟨_, _, (hsome q false rfl).2.2.2 rfl⟩, ⟨_, _, (hsome q true rfl).2.2.1 rfl⟩]
  | pushMark r a =>
    obtain ⟨pg, -, hinv, hne⟩ := h.pushMark hpc
    by_cases hi : pg.nextFreeIndex = cInvalidPageIndex
    exacts [⟨_, _, hinv hi⟩, ⟨_, _, hne hi⟩]
  | pushLoad r a => exact ⟨_, _, h.pushLoad hpc⟩
  | pushStore r a w g =>
    obtain ⟨pg, -, hs⟩ := h.pushStore hpc
    exact ⟨_, _, hs⟩
  | pushCas r a w g =>
    by_cases hw : s.pool.freeListHeadIndex = w
    · have hg : ¬ g + 2 ^ 8 ≤ s.casCount := by simpa [wrapsAt, hpc, hw] using hwrap
      obtain ⟨j, -, -, hs⟩ := h.pushCas hpc hw hg
      exact ⟨_, _, hs⟩
    · exact ⟨_, _, h.pushCas_fail hpc hw⟩
  | preallocating k =>
    cases k with
    | zero =>
      have hok : AccessOk P (s.moveTo i s.pool .idle) fl := h.move (by rw [hpc]; rfl) (by rw [hpc]; rfl) trivial
      exact ⟨_, _, by simp only [accessNext, hpc], hok⟩
    | succ k =>
      have hok := h.addPage (i := i) (by rw [hpc]; rfl) (by rw [hpc]; rfl) (hroom (by rw [hpc]; rfl))
        (r := .preallocating k) rfl
      exact ⟨_, _, by simp only [accessNext, hpc], hok⟩

/-- A call starts only on an idle thread. -/
theorem accessStep_idle {e : PoolEvent T} (hs : accessStep P s i e = some s') (he : e ≠ .next) : s.pc i = .idle := by
  cases e with
  | next => exact absurd rfl he
  | _ => cases hpc : s.pc i <;> simp_all [accessStep]

/-- Every event the runs considered take keeps the invariant. -/
theorem AccessOk.step (h : AccessOk P s fl) {e : PoolEvent T} (ha : allowed s i e = true)
    (hs : accessStep P s i e = some s') : ∃ fl', AccessOk P s' fl' := by
  cases e with
  | next =>
    have hidle : s.pc i ≠ .idle := fun hpc => by simp [accessStep, accessNext, hpc] at hs
    obtain ⟨s'', fl', hs'', hok⟩ := h.next ha hidle
    exact ⟨fl', Option.some.inj (hs''.symm.trans hs) ▸ hok⟩
  | callRelease p =>
    obtain ⟨pool2, -, hstep, hok⟩ := h.release (accessStep_idle hs nofun) (by simpa [allowed] using ha)
    exact ⟨fl, Option.some.inj (hstep.symm.trans hs) ▸ hok⟩
  | callReserve x | callPreallocate k =>
    have hidle := accessStep_idle hs nofun
    simp only [accessStep, hidle, Option.some.injEq] at hs
    subst hs
    exact ⟨fl, h.move (by rw [hidle]; rfl) (by rw [hidle]; rfl) trivial⟩

end Step

/-- Thread `i`, running alone from `s`, reaches within `b` of its steps a state that satisfies `Q`. -/
def AloneWithin (i : Fin n) (s : AccessThreads T n) (b : Nat) (Q : AccessThreads T n → Prop) : Prop :=
  ∃ k s', k ≤ b ∧ accessRun P s (List.replicate k (i, .next)) = some s' ∧ Q s'

/-- A `Reserve` of `x` by thread `i` has returned in `s'`: the thread is idle with one more pointer in its
hands than `held`, to an object not live in `pool` that now holds `x`. -/
def ReserveReturned (i : Fin n) (x : T) (pool : PagingObjectPool T) (held : List PoolPtr) (s' : AccessThreads T n) :
    Prop :=
  s'.pc i = .idle ∧ ∃ p, s'.held i = p :: held ∧ pool.isLive p = false ∧ (s'.pool.nodeAt p).map (·.data) = some x

section Alone

variable {P} {s : AccessThreads T n} {fl : List Nat} {i : Fin n} {x : T} {b : Nat} {Q Q' : AccessThreads T n → Prop}

theorem AloneWithin.step {s1 : AccessThreads T n} (ha : allowed s i .next = true) (hs : accessNext P s i = some s1)
    (h : AloneWithin P i s1 b Q) : AloneWithin P i s (b + 1) Q :=
  have ⟨k, s', hk, hrun, hq⟩ := h
  ⟨k + 1, s', by omega, by simp only [List.replicate_succ, accessRun, ha, if_true, accessStep, hs, Option.some_bind, hrun],
    hq⟩

theorem AloneWithin.bind {c : Nat} (h : AloneWithin P i s b Q) (hQ : ∀ s', Q s' → AloneWithin P i s' c Q') :
    AloneWithin P i s (b + c) Q' := by
  obtain ⟨k, s1, hk, hrun, hq⟩ := h
  obtain ⟨k', s2, hk', hrun', hq'⟩ := hQ s1 hq
  exact ⟨k + k', s2, by omega, by rw [List.replicate_add, accessRun_append, hrun]; exact hrun', hq'⟩

theorem ReserveReturned.congr {pool pool' : PagingObjectPool T} {held held' : List PoolPtr} {s' : AccessThreads T n}
    (h : ReserveReturned i x pool' held' s') (hl : pool'.isLive = pool.isLive) (hh : held' = held) :
    ReserveReturned i x pool held s' :=
  have ⟨hpc, p, hheld, hfree, hnode⟩ := h
  ⟨hpc, p, hh ▸ hheld, hl ▸ hfree, hnode⟩

end Alone

end PagingObjectPool

end PklE.CoreTypes
