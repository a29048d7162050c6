import ParallelHashMap.Pool.Paging

/-!
# The paging pool's pages and its free list, on one thread

Two parts of the paging pool's invariant, and what `PushPageToFreeList` and `PopPageFromFreeList` do to
them.

`PagesOk` is the page list: entry `i` below `numPages` is a live page that knows its index and holds a
valid fixed-size pool whose constructed nodes all record `i`, every live page is listed, and fresh
addresses are unused.

`FreeListRep pool fl` says the abstract list `fl` of page indices is what the packed head word and the
pages' `nextFreeIndex` links spell: the head's page field is `fl`'s head, its cached successor field is
`fl`'s second element, each listed page links to the next one, the last to `c_TailPageIndex`, and a page
off the list is marked `c_InvalidPageIndex`. The shape follows an intrusive free list described by a
list and a `linkedFrom` predicate.

Pushing a page off the list conses it (`pushPageToFreeList_of_not_mem`), pushing a page on it does
nothing (`pushPageToFreeList_of_mem`), and popping removes the head (`popPageFromFreeList_cons`) or
reports an empty list (`popPageFromFreeList_nil`).
-/

namespace PklE.CoreTypes

theorem testBit_eq_false_of_lt_two_pow {x k j : Nat} (hx : x < 2 ^ k) (hj : k ≤ j) : x.testBit j = false :=
  Nat.testBit_lt_two_pow (lt_of_lt_of_le hx (Nat.pow_le_pow_right (by decide) hj))

/-! ## The head word -/

theorem headPageIndex_packHead {c n p : Nat} (hp : p < 2 ^ 28) : headPageIndex (packHead c n p) = p := by
  apply Nat.eq_of_testBit_eq; intro j
  simp only [headPageIndex, packHead, cHeadPageIndexMask, cBitIndexHeadPageIndex, cBitIndexHeadNextIndex,
    cBitIndexHeadCounter, Nat.shiftLeft_zero, Nat.shiftRight_zero, Nat.testBit_and, Nat.testBit_or,
    Nat.testBit_shiftLeft, show (0x0FFFFFFF : Nat) = 2 ^ 28 - 1 from rfl, Nat.testBit_two_pow_sub_one]
  by_cases hj : j < 28
  · simp [hj, show ¬ j ≥ 56 by omega, show ¬ j ≥ 28 by omega]
  · simp [hj, testBit_eq_false_of_lt_two_pow hp (Nat.le_of_not_lt hj)]

theorem headNextIndex_packHead {c n p : Nat} (hn : n < 2 ^ 28) (hp : p < 2 ^ 28) :
    headNextIndex (packHead c n p) = n := by
  apply Nat.eq_of_testBit_eq; intro j
  simp only [headNextIndex, packHead, cHeadNextIndexMask, cBitIndexHeadNextIndex,
    cBitIndexHeadCounter, Nat.testBit_shiftRight, Nat.testBit_and, Nat.testBit_or,
    Nat.testBit_shiftLeft, show (0x0FFFFFFF : Nat) = 2 ^ 28 - 1 from rfl, Nat.testBit_two_pow_sub_one]
  by_cases hj : j < 28
  · simp [hj, show ¬ 28 + j ≥ 56 by omega, testBit_eq_false_of_lt_two_pow hp (show 28 ≤ 28 + j by omega)]
  · simp [hj, testBit_eq_false_of_lt_two_pow hn (Nat.le_of_not_lt hj)]

theorem headCounter_packHead {c n p : Nat} (hc : c < 2 ^ 8) (hn : n < 2 ^ 28) (hp : p < 2 ^ 28) :
    headCounter (packHead c n p) = c := by
  apply Nat.eq_of_testBit_eq; intro j
  simp only [headCounter, packHead, cHeadCounterMask, cBitIndexHeadNextIndex, cBitIndexHeadCounter,
    Nat.testBit_shiftRight, Nat.testBit_and, Nat.testBit_or, Nat.testBit_shiftLeft,
    show (0xFF : Nat) = 2 ^ 8 - 1 from rfl, Nat.testBit_two_pow_sub_one]
  by_cases hj : j < 8
  · simp [hj, testBit_eq_false_of_lt_two_pow hn (show 28 ≤ 56 + j - 28 by omega),
      testBit_eq_false_of_lt_two_pow hp (show 28 ≤ 56 + j by omega)]
  · simp [hj, testBit_eq_false_of_lt_two_pow hc (Nat.le_of_not_lt hj)]

theorem headPageIndex_empty : headPageIndex cEmptyFreeListHeadIndex = cTailPageIndex := by decide

namespace PagingObjectPool

variable {T : Type}

/-! ## Pages -/

/-- The page at index `i` of the page list. -/
def page (pool : PagingObjectPool T) (i : Nat) : Option (Page T) := pool.pages (pool.pPageList i)

/-- The `nextFreeIndex` of the page at index `i`. -/
def nextFreeOf (pool : PagingObjectPool T) (i : Nat) : Option Nat := (pool.page i).map (·.nextFreeIndex)

@[simp] theorem setPage_pages (pool : PagingObjectPool T) (a : Nat) (pg : Page T) :
    (pool.setPage a pg).pages = Function.update pool.pages a (some pg) := rfl
@[simp] theorem setPage_pPageList (pool : PagingObjectPool T) (a : Nat) (pg : Page T) :
    (pool.setPage a pg).pPageList = pool.pPageList := rfl
@[simp] theorem setPage_numPages (pool : PagingObjectPool T) (a : Nat) (pg : Page T) :
    (pool.setPage a pg).numPages = pool.numPages := rfl
@[simp] theorem setPage_nextAddress (pool : PagingObjectPool T) (a : Nat) (pg : Page T) :
    (pool.setPage a pg).nextAddress = pool.nextAddress := rfl
@[simp] theorem setPage_count (pool : PagingObjectPool T) (a : Nat) (pg : Page T) :
    (pool.setPage a pg).count = pool.count := rfl
@[simp] theorem setPage_freeListHeadIndex (pool : PagingObjectPool T) (a : Nat) (pg : Page T) :
    (pool.setPage a pg).freeListHeadIndex = pool.freeListHeadIndex := rfl

section Pages

variable (P : Nat)

/-- A page that stands at index `i` of the list. -/
structure PageOk (i : Nat) (page : Page T) : Prop where
  pageIndex_eq : page.pageIndex = i
  valid : FixedSizeObjectPool.Valid P page.data
  nodes_pageIndex : ∀ s node, page.data.nodes s = some node → node.pageIndex = i

/-- The page list of a pool. -/
structure PagesOk (pool : PagingObjectPool T) : Prop where
  numPages_le : pool.numPages ≤ cMaxPages
  page_ok : ∀ i < pool.numPages, ∃ page, pool.page i = some page ∧ PageOk P i page
  listed : ∀ a page, pool.pages a = some page → ∃ i < pool.numPages, pool.pPageList i = a
  pages_zero : pool.pages 0 = none
  nextAddress_pos : 0 < pool.nextAddress
  fresh : ∀ a, pool.nextAddress ≤ a → pool.pages a = none

variable {P} {pool : PagingObjectPool T}

theorem PagesOk.addr_ne_zero (hp : PagesOk P pool) {i : Nat} (hi : i < pool.numPages) :
    pool.pPageList i ≠ 0 := fun h => by
  obtain ⟨pg, hpg, -⟩ := hp.page_ok i hi
  rw [page, h, hp.pages_zero] at hpg
  cases hpg

theorem PagesOk.addr_lt (hp : PagesOk P pool) {i : Nat} (hi : i < pool.numPages) :
    pool.pPageList i < pool.nextAddress := by
  obtain ⟨pg, hpg, -⟩ := hp.page_ok i hi
  by_contra h
  rw [page, hp.fresh _ (Nat.le_of_not_lt h)] at hpg
  cases hpg

/-- The page list holds each page once. -/
theorem PagesOk.inj (hp : PagesOk P pool) {i j : Nat} (hi : i < pool.numPages) (hj : j < pool.numPages)
    (h : pool.pPageList i = pool.pPageList j) : i = j := by
  obtain ⟨pi, hpi, hoki⟩ := hp.page_ok i hi
  obtain ⟨pj, hpj, hokj⟩ := hp.page_ok j hj
  rw [page, h, ← page, hpj] at hpi
  cases hpi
  rw [← hoki.pageIndex_eq, hokj.pageIndex_eq]

theorem PagesOk.page_setPage (hp : PagesOk P pool) {i k : Nat} (hi : i < pool.numPages) (hk : k < pool.numPages)
    (pg : Page T) : (pool.setPage (pool.pPageList i) pg).page k = if k = i then some pg else pool.page k := by
  simp only [page, setPage_pages, setPage_pPageList]
  by_cases hki : k = i
  · subst hki; simp
  · rw [if_neg hki, Function.update_noteq (fun h => hki (hp.inj hk hi h))]

/-- Replacing the page at index `i` by another page fit for that index keeps the page list. -/
theorem PagesOk.setPage (hp : PagesOk P pool) {i : Nat} (hi : i < pool.numPages) {pg : Page T}
    (hpg : PageOk P i pg) : PagesOk P (pool.setPage (pool.pPageList i) pg) where
  numPages_le := hp.numPages_le
  page_ok k hk := by
    rw [hp.page_setPage hi hk]
    by_cases hki : k = i
    · subst hki; exact ⟨pg, by simp, hpg⟩
    · rw [if_neg hki]; exact hp.page_ok k hk
  listed a page h := by
    simp only [setPage_pages] at h
    by_cases ha : a = pool.pPageList i
    · exact ⟨i, hi, ha.symm⟩
    · rw [Function.update_noteq ha] at h; exact hp.listed a page h
  pages_zero := by
    rw [setPage_pages, Function.update_noteq (Ne.symm (hp.addr_ne_zero hi)), hp.pages_zero]
  nextAddress_pos := hp.nextAddress_pos
  fresh a ha := by
    have hne : a ≠ pool.pPageList i := fun h => Nat.not_lt.2 ha (h ▸ hp.addr_lt hi)
    rw [setPage_pages, Function.update_noteq hne]
    exact hp.fresh a ha

/-- The page list depends on the pages, the list, its length and the next address only. -/
theorem PagesOk.congr {pool' : PagingObjectPool T} (hp : PagesOk P pool) (hpages : pool'.pages = pool.pages)
    (hlist : pool'.pPageList = pool.pPageList) (hn : pool'.numPages = pool.numPages)
    (ha : pool'.nextAddress = pool.nextAddress) : PagesOk P pool' := by
  obtain ⟨h1, h2, h3, h4, h5, h6⟩ := hp
  refine ⟨hn ▸ h1, ?_, ?_, hpages ▸ h4, ha ▸ h5, ?_⟩ <;> simp only [page, hpages, hlist, hn, ha] <;> assumption

/-- A page's `nextFreeIndex` plays no part in the page list. -/
theorem PageOk.withNextFree {i : Nat} {pg : Page T} (h : PageOk P i pg) (k : Nat) :
    PageOk P i { pg with nextFreeIndex := k } := ⟨h.pageIndex_eq, h.valid, h.nodes_pageIndex⟩

theorem PagesOk.nextFreeOf_setPage (hp : PagesOk P pool) {i k : Nat} (hi : i < pool.numPages)
    (hk : k < pool.numPages) (pg : Page T) :
    (pool.setPage (pool.pPageList i) pg).nextFreeOf k = if k = i then some pg.nextFreeIndex else pool.nextFreeOf k := by
  rw [nextFreeOf, hp.page_setPage hi hk]
  split_ifs <;> rfl

end Pages

/-! ## The free list -/

/-- The links from the page at index `i` on spell `l`, then the tail. -/
def ChainFrom (pool : PagingObjectPool T) : Nat → List Nat → Prop
  | i, [] => pool.nextFreeOf i = some cTailPageIndex
  | i, j :: rest => pool.nextFreeOf i = some j ∧ ChainFrom pool j rest

/-- The head word and the links spell `fl`. -/
def Linked (pool : PagingObjectPool T) : List Nat → Prop
  | [] => headPageIndex pool.freeListHeadIndex = cTailPageIndex
  | i :: rest => headPageIndex pool.freeListHeadIndex = i ∧
      headNextIndex pool.freeListHeadIndex = rest.headD cTailPageIndex ∧ ChainFrom pool i rest

/-- `fl` is the pool's free list, head first. -/
structure FreeListRep (pool : PagingObjectPool T) (fl : List Nat) : Prop where
  linked : Linked pool fl
  nodup : fl.Nodup
  lt : ∀ i ∈ fl, i < pool.numPages
  off : ∀ i < pool.numPages, i ∉ fl → pool.nextFreeOf i = some cInvalidPageIndex

variable {pool pool' : PagingObjectPool T}

theorem ChainFrom.congr {i : Nat} {l : List Nat} (h : ChainFrom pool i l)
    (he : ∀ j ∈ i :: l, pool'.nextFreeOf j = pool.nextFreeOf j) : ChainFrom pool' i l := by
  induction l generalizing i with
  | nil => exact (he i (List.mem_singleton_self _)).trans h
  | cons j rest ih =>
    exact ⟨(he i (List.mem_cons_self _ _)).trans h.1,
      ih h.2 fun k hk => he k (List.mem_cons_of_mem _ hk)⟩

/-- A listed page links to a listed page or to the tail. -/
theorem ChainFrom.nextFreeOf_mem {i : Nat} {l : List Nat} (h : ChainFrom pool i l) :
    ∀ j ∈ i :: l, ∃ k, pool.nextFreeOf j = some k ∧ (k ∈ l ∨ k = cTailPageIndex) := by
  induction l generalizing i with
  | nil => simpa using h
  | cons j rest ih =>
    intro k hk
    rcases List.mem_cons.1 hk with rfl | hk
    · exact ⟨j, h.1, .inl (List.mem_cons_self _ _)⟩
    · obtain ⟨m, hm, hm'⟩ := ih h.2 k hk
      exact ⟨m, hm, hm'.imp_left (List.mem_cons_of_mem _)⟩

/-- A page of the chain links to the next one, or to the tail. -/
theorem ChainFrom.nextFreeOf_self {i : Nat} {l : List Nat} (h : ChainFrom pool i l) :
    pool.nextFreeOf i = some (l.headD cTailPageIndex) := by
  cases l with
  | nil => exact h
  | cons j rest => exact h.1

section FreeList

variable {P : Nat} {fl : List Nat}

theorem FreeListRep.nextFreeOf_mem (hf : FreeListRep pool fl) {i : Nat} (hi : i ∈ fl) :
    ∃ k, pool.nextFreeOf i = some k ∧ (k < pool.numPages ∨ k = cTailPageIndex) := by
  have hl := hf.linked
  cases fl with
  | nil => cases hi
  | cons j rest =>
    obtain ⟨k, hk, hk'⟩ := hl.2.2.nextFreeOf_mem i hi
    exact ⟨k, hk, hk'.imp_left fun hk => hf.lt k (List.mem_cons_of_mem _ hk)⟩

theorem lt_two_pow_of_lt_numPages (hp : PagesOk P pool) {i : Nat} (hi : i < pool.numPages) : i < 2 ^ 28 :=
  lt_of_lt_of_le hi (le_trans hp.numPages_le (by decide))

theorem FreeListRep.headPageIndex_eq (hf : FreeListRep pool fl) :
    headPageIndex pool.freeListHeadIndex = fl.headD cTailPageIndex := by
  have hl := hf.linked
  cases fl with
  | nil => exact hl
  | cons i rest => exact hl.1

/-- Only the head word and the links matter to the free list; pages added at the end must be off it. -/
theorem FreeListRep.grow (hf : FreeListRep pool fl) (hn : pool.numPages ≤ pool'.numPages)
    (hw : pool'.freeListHeadIndex = pool.freeListHeadIndex)
    (he : ∀ k < pool.numPages, pool'.nextFreeOf k = pool.nextFreeOf k)
    (hnew : ∀ k, pool.numPages ≤ k → k < pool'.numPages → pool'.nextFreeOf k = some cInvalidPageIndex) :
    FreeListRep pool' fl where
  linked := by
    have hl := hf.linked
    cases fl with
    | nil => simpa only [Linked, hw] using hl
    | cons i rest =>
      refine ⟨hw ▸ hl.1, hw ▸ hl.2.1, hl.2.2.congr fun k hk => he k (hf.lt k hk)⟩
  nodup := hf.nodup
  lt i hi := lt_of_lt_of_le (hf.lt i hi) hn
  off i hi hni := by
    rcases Nat.lt_or_ge i pool.numPages with h | h
    · exact (he i h).trans (hf.off i h hni)
    · exact hnew i h hi

theorem FreeListRep.congr (hf : FreeListRep pool fl) (hn : pool'.numPages = pool.numPages)
    (hw : pool'.freeListHeadIndex = pool.freeListHeadIndex)
    (he : ∀ k < pool.numPages, pool'.nextFreeOf k = pool.nextFreeOf k) : FreeListRep pool' fl :=
  hf.grow hn.ge hw he fun _ h1 h2 => absurd (hn ▸ h2) (Nat.not_lt.2 h1)

/-- Rewriting a listed page with its link unchanged keeps the free list. -/
theorem FreeListRep.setPage_of_link (hp : PagesOk P pool) (hf : FreeListRep pool fl) {i : Nat}
    (hi : i < pool.numPages) {pg : Page T} (hpg : pool.page i = some pg) (pg' : Page T)
    (hlink : pg'.nextFreeIndex = pg.nextFreeIndex) : FreeListRep (pool.setPage (pool.pPageList i) pg') fl :=
  hf.congr rfl rfl fun k hk => by
    rw [hp.nextFreeOf_setPage hi hk]
    split_ifs with hki
    · subst hki; simp [nextFreeOf, hpg, hlink]
    · rfl

/-- What pushing a page off the list leaves: the page links to the old head and heads the list. -/
def pushed (pool : PagingObjectPool T) (i : Nat) (pg : Page T) (fl : List Nat) : PagingObjectPool T :=
  { pool.setPage (pool.pPageList i) { pg with nextFreeIndex := fl.headD cTailPageIndex } with
    freeListHeadIndex :=
      packHead ((headCounter pool.freeListHeadIndex + 1) % 2 ^ 8) (fl.headD cTailPageIndex) i }

theorem headD_lt {l : List Nat} (hl : ∀ k ∈ l, k < pool.numPages) :
    l.headD cTailPageIndex < pool.numPages ∨ l.headD cTailPageIndex = cTailPageIndex := by
  cases l with
  | nil => exact .inr rfl
  | cons j rest => exact .inl (hl j (List.mem_cons_self _ _))

theorem headD_lt_two_pow (hp : PagesOk P pool) {l : List Nat} (hl : ∀ k ∈ l, k < pool.numPages) :
    l.headD cTailPageIndex < 2 ^ 28 := by
  rcases headD_lt hl with h | h
  · exact lt_two_pow_of_lt_numPages hp h
  · rw [h]; decide

/-- `PushPageToFreeList` of a page off the list pushes it. -/
theorem pushPageToFreeList_of_not_mem (hp : PagesOk P pool) (hf : FreeListRep pool fl) {i : Nat}
    (hi : i < pool.numPages) (hni : i ∉ fl) {pg : Page T} (hpg : pool.page i = some pg) :
    pool.pushPageToFreeList (pool.pPageList i) = .ok (pool.pushed i pg fl) := by
  obtain ⟨pg', hpg', hok⟩ := hp.page_ok i hi
  rw [hpg] at hpg'; cases hpg'
  have hinv : pg.nextFreeIndex = cInvalidPageIndex := by
    simpa [nextFreeOf, hpg] using hf.off i hi hni
  have hpg' : pool.pages (pool.pPageList i) = some pg := hpg
  simp only [pushPageToFreeList, hp.addr_ne_zero hi, if_false, readPage, hpg', except_ok_bind, hinv, hok.pageIndex_eq,
    hf.headPageIndex_eq, if_true, hi, true_and, headD_lt hf.lt, pushed]
  rfl

theorem PagesOk.pushed (hp : PagesOk P pool) {i : Nat} (hi : i < pool.numPages) {pg : Page T}
    (hpg : pool.page i = some pg) (fl : List Nat) : PagesOk P (pool.pushed i pg fl) := by
  obtain ⟨pg', hpg', hok⟩ := hp.page_ok i hi
  rw [hpg] at hpg'; cases hpg'
  exact (hp.setPage hi (hok.withNextFree _)).congr rfl rfl rfl rfl

theorem FreeListRep.pushed (hp : PagesOk P pool) (hf : FreeListRep pool fl) {i : Nat} (hi : i < pool.numPages)
    (hni : i ∉ fl) {pg : Page T} (hpg : pool.page i = some pg) :
    FreeListRep (pool.pushed i pg fl) (i :: fl) := by
  have hnext : ∀ k < pool.numPages, (pool.pushed i pg fl).nextFreeOf k =
      if k = i then some (fl.headD cTailPageIndex) else pool.nextFreeOf k := fun k hk =>
    hp.nextFreeOf_setPage hi hk _
  refine ⟨⟨headPageIndex_packHead (lt_two_pow_of_lt_numPages hp hi),
      headNextIndex_packHead (headD_lt_two_pow hp hf.lt) (lt_two_pow_of_lt_numPages hp hi), ?_⟩,
    List.nodup_cons.2 ⟨hni, hf.nodup⟩, ?_, ?_⟩
  · -- the pushed page links to the old head, the rest of the chain is untouched
    have hl := hf.linked
    cases fl with
    | nil => simpa [ChainFrom] using hnext i hi
    | cons j rest =>
      have hji : j ≠ i := fun h => hni (h ▸ List.mem_cons_self _ _)
      refine ⟨by simpa using hnext i hi, hl.2.2.congr fun k hk => ?_⟩
      have hki : k ≠ i := fun h => hni (h ▸ hk)
      rw [hnext k (hf.lt k hk), if_neg hki]
  · intro k hk
    rcases List.mem_cons.1 hk with rfl | hk
    · exact hi
    · exact hf.lt k hk
  · intro k hk hnk
    have hki : k ≠ i := fun h => hnk (h ▸ List.mem_cons_self _ _)
    rw [hnext k hk, if_neg hki]
    exact hf.off k hk fun h => hnk (List.mem_cons_of_mem _ h)

/-- `PushPageToFreeList` of a page on the list does nothing. -/
theorem pushPageToFreeList_of_mem (hp : PagesOk P pool) (hf : FreeListRep pool fl) {i : Nat}
    (hi : i ∈ fl) : pool.pushPageToFreeList (pool.pPageList i) = .ok pool := by
  obtain ⟨k, hk, hk'⟩ := hf.nextFreeOf_mem hi
  obtain ⟨pg, hpg, -⟩ := hp.page_ok i (hf.lt i hi)
  have hne : pg.nextFreeIndex ≠ cInvalidPageIndex := by
    simp only [nextFreeOf, hpg, Option.map_some', Option.some.injEq] at hk
    rw [hk]
    rcases hk' with h | h
    · exact Nat.ne_of_lt (lt_of_lt_of_le h (le_trans hp.numPages_le (by decide)))
    · rw [h]; decide
  have hpg' : pool.pages (pool.pPageList i) = some pg := hpg
  simp only [pushPageToFreeList, hp.addr_ne_zero (hf.lt i hi), if_false, readPage, hpg', except_ok_bind, hne]
  rfl

/-- The head word moved on to `rest`. -/
def popHead (pool : PagingObjectPool T) (rest : List Nat) : PagingObjectPool T :=
  { pool with
    freeListHeadIndex := packHead ((headCounter pool.freeListHeadIndex + 1) % 2 ^ 8)
      (rest.tail.headD cTailPageIndex) (rest.headD cTailPageIndex) }

/-- What popping the head `i` leaves: the head word moves to the rest, the page is marked off the list. -/
def popped (pool : PagingObjectPool T) (i : Nat) (pg : Page T) (rest : List Nat) : PagingObjectPool T :=
  (pool.popHead rest).setPage (pool.pPageList i) { pg with nextFreeIndex := cInvalidPageIndex }

@[simp] theorem page_popped_self {i : Nat} (pg : Page T) (rest : List Nat) :
    (pool.popped i pg rest).page i = some { pg with nextFreeIndex := cInvalidPageIndex } := by
  simp [popped, page, popHead]

/-- `PopPageFromFreeList` on an empty list returns `nullptr`. -/
theorem popPageFromFreeList_nil (hp : PagesOk P pool) (hf : FreeListRep pool []) :
    pool.popPageFromFreeList = .ok (pool, 0) := by
  have hl : headPageIndex pool.freeListHeadIndex = cTailPageIndex := hf.linked
  have hn : ¬ cTailPageIndex < pool.numPages := fun h =>
    absurd (lt_of_lt_of_le h hp.numPages_le) (by decide)
  simp only [popPageFromFreeList, hl, hn, if_false, if_true]
  rfl

/-- `PopPageFromFreeList` takes the head of the list. -/
theorem popPageFromFreeList_cons (hp : PagesOk P pool) {i : Nat} {rest : List Nat}
    (hf : FreeListRep pool (i :: rest)) {pg : Page T} (hpg : pool.page i = some pg) :
    pool.popPageFromFreeList = .ok (pool.popped i pg rest, pool.pPageList i) := by
  have hl := hf.linked
  have hi : i < pool.numPages := hf.lt i (List.mem_cons_self _ _)
  -- the successor's own link, which becomes the head's cached successor
  have hnext : (if rest.headD cTailPageIndex < pool.numPages then pool.pPageList (rest.headD cTailPageIndex) else 0) = 0 ∧
        rest = [] ∨
      ∃ j rest', rest = j :: rest' ∧ j < pool.numPages ∧ ∃ pj, pool.page j = some pj ∧
        pj.nextFreeIndex = rest'.headD cTailPageIndex := by
    cases rest with
    | nil =>
      refine .inl ⟨if_neg fun h => absurd (lt_of_lt_of_le h hp.numPages_le) (by decide), rfl⟩
    | cons j rest' =>
      have hj := hf.lt j (List.mem_cons_of_mem _ (List.mem_cons_self _ _))
      obtain ⟨pj, hpj, -⟩ := hp.page_ok j hj
      refine .inr ⟨j, rest', rfl, hj, pj, hpj, ?_⟩
      have h2 := hl.2.2.2
      cases rest' with
      | nil => simpa [ChainFrom, nextFreeOf, hpj] using h2
      | cons m rest'' => simpa [nextFreeOf, hpj] using h2.1
  have hTail : ∀ k, k < pool.numPages → k ≠ cInvalidPageIndex ∧ k ≠ cSwappingPageIndex := fun k hk =>
    ⟨Nat.ne_of_lt (lt_of_lt_of_le hk (le_trans hp.numPages_le (by decide))),
      Nat.ne_of_lt (lt_of_lt_of_le hk (le_trans hp.numPages_le (by decide)))⟩
  rcases hnext with ⟨hz, rfl⟩ | ⟨j, rest', rfl, hj, pj, hpj, hpj'⟩
  · simp only [popPageFromFreeList, hl.1, hi, if_true, hl.2.1, hz, if_true]
    simp only [List.headD_nil] at hz ⊢
    simp only [show cTailPageIndex ≠ cInvalidPageIndex ∧ cTailPageIndex ≠ cSwappingPageIndex by decide,
      if_true, readPage, setPage_pPageList]
    simp only [page] at hpg
    rw [hpg]
    rfl
  · have hrest : rest'.headD cTailPageIndex ≠ cInvalidPageIndex ∧
        rest'.headD cTailPageIndex ≠ cSwappingPageIndex := by
      cases rest' with
      | nil => decide
      | cons m _ => exact hTail m (hf.lt m (by simp))
    have hpj2 : pool.pages (pool.pPageList j) = some pj := hpj
    simp only [popPageFromFreeList, hl.1, hi, if_true, hl.2.1, List.headD_cons, hj, readPage,
      hp.addr_ne_zero hj, if_false, hpj2, Functor.map, Except.map, hpj', except_ok_bind]
    rw [if_pos hrest]
    simp only [page] at hpg
    simp only [hpg, except_ok_bind]
    rfl

theorem PagesOk.popHead (hp : PagesOk P pool) (rest : List Nat) : PagesOk P (pool.popHead rest) :=
  hp.congr rfl rfl rfl rfl

theorem PagesOk.popped (hp : PagesOk P pool) {i : Nat} (hi : i < pool.numPages) {pg : Page T}
    (hpg : pool.page i = some pg) (rest : List Nat) : PagesOk P (pool.popped i pg rest) := by
  obtain ⟨pg', hpg', hok⟩ := hp.page_ok i hi
  rw [hpg] at hpg'; cases hpg'
  exact (hp.popHead rest).setPage hi (hok.withNextFree _)

theorem FreeListRep.popped (hp : PagesOk P pool) {i : Nat} {rest : List Nat} (hf : FreeListRep pool (i :: rest))
    (pg : Page T) : FreeListRep (pool.popped i pg rest) rest := by
  have hi : i < pool.numPages := hf.lt i (List.mem_cons_self _ _)
  have hni : i ∉ rest := (List.nodup_cons.1 hf.nodup).1
  have hnext : ∀ k < pool.numPages, (pool.popped i pg rest).nextFreeOf k =
      if k = i then some cInvalidPageIndex else pool.nextFreeOf k := fun k hk =>
    (hp.popHead rest).nextFreeOf_setPage hi hk _
  have hl := hf.linked
  refine ⟨?_, (List.nodup_cons.1 hf.nodup).2, fun k hk => hf.lt k (List.mem_cons_of_mem _ hk), ?_⟩
  · cases rest with
    | nil =>
      exact headPageIndex_packHead (by decide)
    | cons j rest' =>
      have hj : j < pool.numPages := hf.lt j (by simp)
      have hrest' : ∀ k ∈ rest', k < pool.numPages := fun k hk => hf.lt k (by simp [hk])
      refine ⟨headPageIndex_packHead (lt_two_pow_of_lt_numPages hp hj),
        headNextIndex_packHead (headD_lt_two_pow hp hrest') (lt_two_pow_of_lt_numPages hp hj),
        hl.2.2.2.congr fun k hk => ?_⟩
      have hk' : k ∈ i :: j :: rest' := List.mem_cons_of_mem _ hk
      rw [hnext k (hf.lt k hk'), if_neg (show k ≠ i from fun h => hni (h ▸ hk))]
  · intro k hk hnk
    rw [hnext k hk]
    split_ifs with hki
    · rfl
    · exact hf.off k hk (by simp [hki, hnk])

end FreeList

end PagingObjectPool

end PklE.CoreTypes
