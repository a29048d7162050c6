import ParallelHashMap.Pool.FreeList
import Mathlib.Algebra.BigOperators.Group.Finset

/-!
# The paging pool on one thread

The pool's invariant `ValidWith P pool fl` joins the page list (`PagesOk`), the free list `fl`
(`FreeListRep`), the rule that a page is on the free list exactly when it has a free slot, and the count,
the number of live objects modulo `2^32` since it is a `uint32_t`. The live objects are `liveSet`, and
`destroyCount` counts the destructor calls on an object.

From a valid pool `Reserve` ends within two turns of its loop (`reserve_terminates`) and returns a slot that
held no live object, now holding the new object (`reserve_reserved`). `Release` of a pointer `Reserve`
returned destroys and frees exactly its object when it is live, and otherwise changes nothing
(`release_spec`); `Clear` deletes the pages, whose destructors destroy each live object once
(`count_clearDestroyed`). `paging_single_thread` states all this for every state single-threaded calls
reach (`Reachable`); `paging_size_wraps_release_dangles` shows the count wrapping at `2^32` live objects and
a pointer from before a `Clear` dangling. `PreallocateSpace(n)` adds pages enough that the next `n` calls
of `Reserve` allocate none (`preallocateSpace_reserves`).
-/

namespace PklE.CoreTypes

namespace PagingObjectPool

variable {T : Type} (P : Nat)

/-! ## What the pool holds -/

/-- The node array of the page at address `a`. -/
def dataOf (pool : PagingObjectPool T) (a : Nat) : Option (FixedSizeObjectPool (PagingNode T)) :=
  (pool.pages a).map (·.data)

/-- Whether `p` points to a live object. -/
def isLive (pool : PagingObjectPool T) (p : PoolPtr) : Bool :=
  (pool.dataOf p.page).any (·.bAllocatedBits.testBit p.slot)

/-- The node `p` points to, live or released. -/
def nodeAt (pool : PagingObjectPool T) (p : PoolPtr) : Option (PagingNode T) :=
  (pool.dataOf p.page).bind (·.nodes p.slot)

/-- How many times `Util::Destroy` ran on the object `p` points to. -/
def destroyCount (pool : PagingObjectPool T) (p : PoolPtr) : Nat :=
  ((pool.dataOf p.page).map (·.destroyed.count p.slot)).getD 0

/-- Whether the page at index `i` has a free slot. -/
def hasSpace (pool : PagingObjectPool T) (i : Nat) : Bool :=
  (pool.dataOf (pool.pPageList i)).any (!·.isFull P)

/-- The live objects of the page at index `i`: its allocated slots. -/
def liveOf (pool : PagingObjectPool T) (i : Nat) : Nat :=
  ((pool.dataOf (pool.pPageList i)).map (FixedSizeObjectPool.allocatedSet P · |>.card)).getD 0

/-- The number of live objects. -/
def liveCount (pool : PagingObjectPool T) : Nat :=
  ∑ i ∈ Finset.range pool.numPages, liveOf P pool i

/-- Pointers to the live objects of the page at index `i`. -/
def liveOn (pool : PagingObjectPool T) (i : Nat) : Finset PoolPtr :=
  ((pool.dataOf (pool.pPageList i)).map fun d =>
    (FixedSizeObjectPool.allocatedSet P d).image (PoolPtr.mk (pool.pPageList i))).getD ∅

/-- Pointers to the live objects. -/
def liveSet (pool : PagingObjectPool T) : Finset PoolPtr :=
  (Finset.range pool.numPages).biUnion (liveOn P pool)

/-- The pool's invariant, with its free list `fl`. -/
structure ValidWith (pool : PagingObjectPool T) (fl : List Nat) : Prop where
  pagesOk : PagesOk P pool
  freeList : FreeListRep pool fl
  mem_iff : ∀ i < pool.numPages, i ∈ fl ↔ pool.hasSpace P i = true
  count_eq : pool.count = liveCount P pool % 2 ^ 32

/-- The pool's invariant. -/
def Valid (pool : PagingObjectPool T) : Prop := ∃ fl, ValidWith P pool fl

/-- The part of the invariant that interleaved calls keep (`Pool/ConcurrentSafety.lean`): the page list, a
free list `fl`, and the count, without the rule tying the free list to the pages with a free slot. -/
structure SharedOk (pool : PagingObjectPool T) (fl : List Nat) : Prop where
  pagesOk : PagesOk P pool
  freeList : FreeListRep pool fl
  count_eq : pool.count = liveCount P pool % 2 ^ 32

variable {P} {pool pool' : PagingObjectPool T}

theorem ValidWith.shared {fl : List Nat} (hv : ValidWith P pool fl) : SharedOk P pool fl :=
  ⟨hv.pagesOk, hv.freeList, hv.count_eq⟩

theorem dataOf_setPage (pool : PagingObjectPool T) (a : Nat) (pg : Page T) :
    (pool.setPage a pg).dataOf = Function.update pool.dataOf a (some pg.data) := by
  funext b
  by_cases hb : b = a
  · subst hb; simp [dataOf]
  · simp [dataOf, Function.update_noteq hb]

theorem dataOf_pushed {i : Nat} {pg : Page T} (hpg : pool.page i = some pg) (fl : List Nat) :
    (pool.pushed i pg fl).dataOf = pool.dataOf := by
  have hpg' : pool.pages (pool.pPageList i) = some pg := hpg
  change (pool.setPage (pool.pPageList i) _).dataOf = _
  rw [dataOf_setPage]
  exact Function.update_eq_self_iff.2 (by simp [dataOf, hpg'])

theorem dataOf_popped {i : Nat} {pg : Page T} (hpg : pool.page i = some pg) (rest : List Nat) :
    (pool.popped i pg rest).dataOf = pool.dataOf := by
  have hpg' : pool.pages (pool.pPageList i) = some pg := hpg
  rw [popped, dataOf_setPage]
  exact Function.update_eq_self_iff.2 (by simp [dataOf, popHead, hpg'])

theorem isLive_congr (h : pool'.dataOf = pool.dataOf) : pool'.isLive = pool.isLive := by
  funext p; simp only [isLive, h]

theorem nodeAt_congr (h : pool'.dataOf = pool.dataOf) : pool'.nodeAt = pool.nodeAt := by
  funext p; simp only [nodeAt, h]

theorem destroyCount_congr (h : pool'.dataOf = pool.dataOf) : pool'.destroyCount = pool.destroyCount := by
  funext p; simp only [destroyCount, h]

theorem hasSpace_congr (h : pool'.dataOf = pool.dataOf) (hl : pool'.pPageList = pool.pPageList) :
    pool'.hasSpace P = pool.hasSpace P := by
  funext i; simp only [hasSpace, h, hl]

theorem liveCount_congr (h : pool'.dataOf = pool.dataOf) (hl : pool'.pPageList = pool.pPageList)
    (hn : pool'.numPages = pool.numPages) : liveCount P pool' = liveCount P pool := by
  simp only [liveCount, liveOf, h, hl, hn]

theorem liveOf_lt_numPages_frame (hp : PagesOk P pool) {i k : Nat} (hi : i < pool.numPages) (hk : k < pool.numPages)
    (hki : k ≠ i) {d : FixedSizeObjectPool (PagingNode T)}
    (h : pool'.dataOf = Function.update pool.dataOf (pool.pPageList i) (some d))
    (hl : pool'.pPageList = pool.pPageList) : pool'.dataOf (pool'.pPageList k) = pool.dataOf (pool.pPageList k) := by
  rw [h, hl, Function.update_noteq (fun e => hki (hp.inj hk hi e))]

/-- Replacing the node array of the page at index `i` changes the live count by that page's share. -/
theorem liveCount_update (hp : PagesOk P pool) {i : Nat} (hi : i < pool.numPages)
    {d : FixedSizeObjectPool (PagingNode T)}
    (h : pool'.dataOf = Function.update pool.dataOf (pool.pPageList i) (some d))
    (hl : pool'.pPageList = pool.pPageList) (hn : pool'.numPages = pool.numPages) :
    liveCount P pool' + liveOf P pool i = liveCount P pool + (FixedSizeObjectPool.allocatedSet P d).card := by
  have hrest : ∑ k ∈ (Finset.range pool.numPages).erase i, liveOf P pool' k =
      ∑ k ∈ (Finset.range pool.numPages).erase i, liveOf P pool k :=
    Finset.sum_congr rfl fun k hk => by
      obtain ⟨hki, hk⟩ := Finset.mem_erase.1 hk
      simp only [liveOf, liveOf_lt_numPages_frame hp hi (Finset.mem_range.1 hk) hki h hl]
  have hii : liveOf P pool' i = (FixedSizeObjectPool.allocatedSet P d).card := by simp [liveOf, h, hl]
  rw [liveCount, liveCount, hn, ← Finset.add_sum_erase _ _ (Finset.mem_range.2 hi),
    ← Finset.add_sum_erase (Finset.range pool.numPages) (liveOf P pool) (Finset.mem_range.2 hi), hrest, hii]
  omega

theorem hasSpace_update (hp : PagesOk P pool) {i k : Nat} (hi : i < pool.numPages) (hk : k < pool.numPages)
    {d : FixedSizeObjectPool (PagingNode T)}
    (h : pool'.dataOf = Function.update pool.dataOf (pool.pPageList i) (some d))
    (hl : pool'.pPageList = pool.pPageList) :
    pool'.hasSpace P k = if k = i then !d.isFull P else pool.hasSpace P k := by
  by_cases hki : k = i
  · subst hki; simp [hasSpace, h, hl]
  · rw [if_neg hki, hasSpace, liveOf_lt_numPages_frame hp hi hk hki h hl, hasSpace]

/-! ## The free list under the shared invariant -/

/-- Popping the head page keeps the shared invariant, with the rest of the list. -/
theorem SharedOk.popped {i : Nat} {rest : List Nat} (hv : SharedOk P pool (i :: rest)) {pg : Page T}
    (hpg : pool.page i = some pg) : SharedOk P (pool.popped i pg rest) rest := by
  have hdata := dataOf_popped hpg rest
  refine ⟨hv.pagesOk.popped (hv.freeList.lt i (List.mem_cons_self _ _)) hpg rest, hv.freeList.popped hv.pagesOk pg, ?_⟩
  rw [liveCount_congr hdata rfl rfl]
  exact hv.count_eq

/-- Pushing a listed page that is off the list keeps the shared invariant, with the page heading the list. -/
theorem SharedOk.pushed {fl : List Nat} (hv : SharedOk P pool fl) {i : Nat} (hi : i < pool.numPages) (hni : i ∉ fl)
    {pg : Page T} (hpg : pool.page i = some pg) : SharedOk P (pool.pushed i pg fl) (i :: fl) := by
  refine ⟨hv.pagesOk.pushed hi hpg fl, hv.freeList.pushed hv.pagesOk hi hni hpg, ?_⟩
  rw [liveCount_congr (dataOf_pushed hpg fl) rfl rfl]
  exact hv.count_eq

/-- `PopPageFromFreeList` takes the head page off the list, or returns `nullptr` when the list is empty; no
object changes. -/
theorem popPageFromFreeList_shared {fl : List Nat} (hv : SharedOk P pool fl) :
    ∃ pool' a fl', pool.popPageFromFreeList = .ok (pool', a) ∧ SharedOk P pool' fl' ∧
      pool'.numPages = pool.numPages ∧ pool'.pPageList = pool.pPageList ∧ pool'.dataOf = pool.dataOf ∧
      (a = 0 ∨ ∃ i < pool.numPages, pool.pPageList i = a) := by
  cases fl with
  | nil => exact ⟨pool, 0, [], popPageFromFreeList_nil hv.pagesOk hv.freeList, hv, rfl, rfl, rfl, .inl rfl⟩
  | cons i rest =>
    have hi := hv.freeList.lt i (List.mem_cons_self _ _)
    obtain ⟨pg, hpg, -⟩ := hv.pagesOk.page_ok i hi
    exact ⟨_, _, rest, popPageFromFreeList_cons hv.pagesOk hv.freeList hpg, hv.popped hpg, rfl, rfl,
      dataOf_popped hpg rest, .inr ⟨i, hi, rfl⟩⟩

/-- `PushPageToFreeList` of a listed page pushes it unless it is on the list already; no object changes. -/
theorem pushPageToFreeList_shared {fl : List Nat} (hv : SharedOk P pool fl) {i : Nat} (hi : i < pool.numPages) :
    ∃ pool', pool.pushPageToFreeList (pool.pPageList i) = .ok pool' ∧
      SharedOk P pool' (if i ∈ fl then fl else i :: fl) ∧ pool'.numPages = pool.numPages ∧
      pool'.pPageList = pool.pPageList ∧ pool'.dataOf = pool.dataOf ∧ (i ∈ fl → pool' = pool) := by
  by_cases hmem : i ∈ fl
  · exact ⟨pool, pushPageToFreeList_of_mem hv.pagesOk hv.freeList hmem, by rw [if_pos hmem]; exact hv, rfl, rfl,
      rfl, fun _ => rfl⟩
  · obtain ⟨pg, hpg, -⟩ := hv.pagesOk.page_ok i hi
    refine ⟨_, pushPageToFreeList_of_not_mem hv.pagesOk hv.freeList hi hmem hpg, ?_, rfl, rfl, dataOf_pushed hpg fl,
      fun h => absurd h hmem⟩
    rw [if_neg hmem]
    exact hv.pushed hi hmem hpg

/-! ## Allocating a page -/

/-- The page `AllocateNewPage` constructs as the page at index `n`: empty and off the free list. -/
def newPage (n : Nat) : Page T := ⟨FixedSizeObjectPool.empty, n, cInvalidPageIndex⟩

/-- `AllocateNewPage` up to its push, with room for one more page: the new page goes to the next address and
the next index, and the head and the count stay. -/
theorem addPage_eq (hn : pool.numPages < cMaxPages) :
    pool.addPage.1.pages = Function.update pool.pages pool.nextAddress (some (newPage pool.numPages)) ∧
    pool.addPage.1.pPageList = Function.update pool.pPageList pool.numPages pool.nextAddress ∧
    pool.addPage.1.numPages = pool.numPages + 1 ∧ pool.addPage.1.nextAddress = pool.nextAddress + 1 ∧
    pool.addPage.1.count = pool.count ∧ pool.addPage.1.freeListHeadIndex = pool.freeListHeadIndex := by
  have hmod : (pool.numPages + 1) % 2 ^ 32 = pool.numPages + 1 :=
    Nat.mod_eq_of_lt (lt_of_le_of_lt (Nat.succ_le_of_lt hn) (by decide))
  have hidx : (pool.numPages + 1 + 2 ^ 32 - 1) % 2 ^ 32 = pool.numPages := by
    rw [show pool.numPages + 1 + 2 ^ 32 - 1 = pool.numPages + 2 ^ 32 by omega, Nat.add_mod_right,
      Nat.mod_eq_of_lt (lt_trans hn (by decide))]
  simp only [addPage, hmod, hidx, newPage, and_self]

/-- `AllocateNewPage` up to its push keeps the page list, the free list `fl` and the count in order: the new
page is listed, empty and off the list, at an address no page had. -/
theorem addPage_shared {fl : List Nat} (hv : SharedOk P pool fl) (hn : pool.numPages < cMaxPages) :
    SharedOk P pool.addPage.1 fl ∧ liveCount P pool.addPage.1 = liveCount P pool ∧
      pool.addPage.1.dataOf = Function.update pool.dataOf pool.nextAddress (some FixedSizeObjectPool.empty) ∧
      pool.pages pool.nextAddress = none := by
  obtain ⟨hpages, hlist, hnum, hnext, hcount, hhead⟩ := addPage_eq hn
  generalize pool.addPage.1 = pool1 at hpages hlist hnum hnext hcount hhead ⊢
  have hp := hv.pagesOk
  have hpa : ∀ k < pool.numPages, pool.pPageList k ≠ pool.nextAddress := fun k hk => Nat.ne_of_lt (hp.addr_lt hk)
  have hlist1 : ∀ k < pool.numPages, pool1.pPageList k = pool.pPageList k := fun k hk => by
    rw [hlist, Function.update_noteq (Nat.ne_of_lt hk)]
  have hpage1 : ∀ k < pool.numPages, pool1.page k = pool.page k := fun k hk => by
    simp only [page, hpages, hlist1 k hk, Function.update_noteq (hpa k hk)]
  have hpage1n : pool1.page pool.numPages = some (newPage pool.numPages) := by simp [page, hpages, hlist]
  have hdata : pool1.dataOf = Function.update pool.dataOf pool.nextAddress (some FixedSizeObjectPool.empty) := by
    funext b
    by_cases hb : b = pool.nextAddress
    · subst hb; simp [dataOf, hpages, newPage]
    · simp [dataOf, hpages, hb]
  have hp1 : PagesOk P pool1 := by
    refine ⟨by omega, fun k hk => ?_, fun b pg hb => ?_, ?_, by omega, fun b hb => ?_⟩
    · rcases Nat.lt_or_ge k pool.numPages with hk' | hk'
      · rw [hpage1 k hk']; exact hp.page_ok k hk'
      · obtain rfl : k = pool.numPages := by omega
        exact ⟨newPage pool.numPages, hpage1n, rfl, FixedSizeObjectPool.valid_empty P, fun s node h => by
          simp [newPage, FixedSizeObjectPool.empty] at h⟩
    · by_cases hba : b = pool.nextAddress
      · exact ⟨pool.numPages, by omega, by simp [hlist, hba]⟩
      · obtain ⟨k, hk, hkb⟩ := hp.listed b pg (by simpa [hpages, hba] using hb)
        exact ⟨k, by omega, (hlist1 k hk).trans hkb⟩
    · rw [hpages, Function.update_noteq (Nat.ne_of_gt hp.nextAddress_pos).symm, hp.pages_zero]
    · rw [hpages, Function.update_noteq (by omega)]
      exact hp.fresh b (by omega)
  have hlive : liveCount P pool1 = liveCount P pool := by
    rw [liveCount, hnum, Finset.sum_range_succ]
    have h0 : liveOf P pool1 pool.numPages = 0 := by
      simp [liveOf, hlist, hdata, FixedSizeObjectPool.allocatedSet, FixedSizeObjectPool.empty]
    rw [h0, Nat.add_zero, liveCount]
    exact Finset.sum_congr rfl fun k hk => by
      have hk := Finset.mem_range.1 hk
      rw [liveOf, liveOf, hlist1 k hk, hdata, Function.update_noteq (hpa k hk)]
  have hf1 : FreeListRep pool1 fl :=
    hv.freeList.grow (by omega) hhead (fun k hk => by simp only [nextFreeOf, hpage1 k hk]) fun k hk1 hk2 => by
      obtain rfl : k = pool.numPages := by omega
      simp [nextFreeOf, hpage1n, newPage]
  exact ⟨⟨hp1, hf1, by rw [hlive, hcount, hv.count_eq]⟩, hlive, hdata, hp.fresh _ le_rfl⟩

/-- The page `AllocateNewPage` adds holds no object, live or released. -/
theorem addPage_live {fl : List Nat} (hv : SharedOk P pool fl) (hn : pool.numPages < cMaxPages) :
    pool.addPage.1.isLive = pool.isLive ∧ pool.addPage.1.nodeAt = pool.nodeAt := by
  obtain ⟨-, -, hdata, hfresh⟩ := addPage_shared hv hn
  generalize pool.addPage.1 = pool1 at hdata ⊢
  have hnone : pool.dataOf pool.nextAddress = none := by simp [dataOf, hfresh]
  have hsame : ∀ b, b ≠ pool.nextAddress → pool1.dataOf b = pool.dataOf b := fun b hb => by
    rw [hdata, Function.update_noteq hb]
  constructor <;> funext q <;> by_cases hq : q.page = pool.nextAddress
  · simp [isLive, hdata, hq, hnone, FixedSizeObjectPool.empty]
  · simp only [isLive, hsame _ hq]
  · simp [nodeAt, hdata, hq, hnone, FixedSizeObjectPool.empty]
  · simp only [nodeAt, hsame _ hq]

/-- `AllocateNewPage` with room for one more page, from a pool whose page list, free list and count are in
order: the new page, empty, gets the next index and the next address, and heads the free list. -/
theorem allocateNewPage_shared {fl : List Nat} (hv : SharedOk P pool fl) (hn : pool.numPages < cMaxPages) :
    ∃ pool', pool.allocateNewPage = .ok (pool', pool.nextAddress) ∧ SharedOk P pool' (pool.numPages :: fl) ∧
      pool'.numPages = pool.numPages + 1 ∧ liveCount P pool' = liveCount P pool ∧
      pool'.isLive = pool.isLive ∧ pool'.nodeAt = pool.nodeAt ∧
      pool'.pPageList = Function.update pool.pPageList pool.numPages pool.nextAddress ∧
      pool'.dataOf = Function.update pool.dataOf pool.nextAddress (some FixedSizeObjectPool.empty) ∧
      pool.dataOf pool.nextAddress = none := by
  obtain ⟨hsh1, hlive1, hdata1, hfresh⟩ := addPage_shared hv hn
  obtain ⟨hisLive1, hnode1⟩ := addPage_live hv hn
  obtain ⟨hpages, hlist, hnum, -, hcount, -⟩ := addPage_eq hn
  rw [show pool.allocateNewPage = (·, pool.nextAddress) <$> pool.addPage.1.pushPageToFreeList pool.nextAddress
    from rfl]
  generalize pool.addPage.1 = pool1 at hsh1 hlive1 hdata1 hisLive1 hnode1 hpages hlist hnum hcount ⊢
  have hpage1n : pool1.page pool.numPages = some (newPage pool.numPages) := by simp [page, hpages, hlist]
  have hnfl : pool.numPages ∉ fl := fun h => Nat.lt_irrefl _ (hv.freeList.lt _ h)
  have hpush := pushPageToFreeList_of_not_mem hsh1.pagesOk hsh1.freeList (by omega) hnfl hpage1n
  rw [hlist, Function.update_same] at hpush
  have hnone : pool.dataOf pool.nextAddress = none := by simp [dataOf, hfresh]
  have hdata : (pool1.pushed pool.numPages (newPage pool.numPages) fl).dataOf =
      Function.update pool.dataOf pool.nextAddress (some FixedSizeObjectPool.empty) := by
    rw [dataOf_pushed hpage1n fl, hdata1]
  have hlive : liveCount P (pool1.pushed pool.numPages (newPage pool.numPages) fl) = liveCount P pool :=
    (liveCount_congr (dataOf_pushed hpage1n fl) rfl rfl).trans hlive1
  refine ⟨_, by rw [hpush]; rfl, ⟨hsh1.pagesOk.pushed (by omega) hpage1n fl,
    hsh1.freeList.pushed hsh1.pagesOk (by omega) hnfl hpage1n, ?_⟩, hnum, hlive, ?_, ?_, hlist, hdata, hnone⟩
  · rw [hlive, ← hv.count_eq, ← hcount]; rfl
  · rw [isLive_congr (dataOf_pushed hpage1n fl), hisLive1]
  · rw [nodeAt_congr (dataOf_pushed hpage1n fl), hnode1]

/-- `AllocateNewPage` on a valid pool with room for one more page: the new page gets the next index and
the next address, is empty, and heads the free list. -/
theorem allocateNewPage_spec (hP : 0 < P) {fl : List Nat} (hv : ValidWith P pool fl)
    (hn : pool.numPages < cMaxPages) :
    ∃ pool', pool.allocateNewPage = .ok (pool', pool.nextAddress) ∧ ValidWith P pool' (pool.numPages :: fl) ∧
      pool'.numPages = pool.numPages + 1 ∧ liveCount P pool' = liveCount P pool ∧
      pool'.isLive = pool.isLive ∧ pool'.nodeAt = pool.nodeAt ∧
      (∀ k < pool.numPages, pool'.pPageList k = pool.pPageList k) := by
  obtain ⟨pool', halloc, hs, hnum, hlive, hisLive, hnode, hlist, hdata, -⟩ := allocateNewPage_shared hv.shared hn
  have hlist' : ∀ k < pool.numPages, pool'.pPageList k = pool.pPageList k := fun k hk => by
    rw [hlist, Function.update_noteq (Nat.ne_of_lt hk)]
  refine ⟨pool', halloc, ⟨hs.pagesOk, hs.freeList, fun k hk => ?_, hs.count_eq⟩, hnum, hlive, hisLive, hnode,
    hlist'⟩
  rw [hnum] at hk
  rcases Nat.lt_or_ge k pool.numPages with hkn | hkn
  · -- an old page keeps its node array, so its place on the list
    have hsp : pool'.hasSpace P k = pool.hasSpace P k := by
      simp only [hasSpace, hlist' k hkn, hdata, Function.update_noteq (Nat.ne_of_lt (hv.pagesOk.addr_lt hkn))]
    rw [hsp, ← hv.mem_iff k hkn, List.mem_cons, or_iff_right (Nat.ne_of_lt hkn)]
  · obtain rfl : k = pool.numPages := by omega
    simp [hasSpace, hlist, hdata, FixedSizeObjectPool.isFull, FixedSizeObjectPool.empty, Nat.ne_of_lt hP]

/-! ## Reserving -/

theorem isFull_eq_false {d : FixedSizeObjectPool (PagingNode T)} (hd : FixedSizeObjectPool.Valid P d) :
    d.isFull P = false ↔ d.numAllocated < P := by
  simp only [FixedSizeObjectPool.isFull, beq_eq_false_iff_ne, ne_eq]
  exact ⟨fun h => lt_of_le_of_ne hd.numAllocated_le h, Nat.ne_of_lt⟩

/-- The reservation in a listed page that has a free slot: the object takes a free slot, its node records the
page's index, and the count goes up; the page's link is left alone. -/
theorem takeFromPage_spec (hp : PagesOk P pool) {i : Nat} (hi : i < pool.numPages) {pg : Page T}
    (hpg : pool.page i = some pg) (hfull : pg.data.isFull P = false) (x : T) :
    ∃ s < P, pg.data.bAllocatedBits.testBit s = false ∧ PageOk P i { pg with data := pg.data.allocate s ⟨x, i⟩ } ∧
      pool.takeFromPage P (pool.pPageList i) x =
        .ok ({ pool.setPage (pool.pPageList i) { pg with data := pg.data.allocate s ⟨x, i⟩ } with
          count := (pool.count + 1) % 2 ^ 32 },
          some (⟨pool.pPageList i, s⟩, !(pg.data.allocate s ⟨x, i⟩).isFull P)) := by
  obtain ⟨pg', hpg', hok⟩ := hp.page_ok i hi
  rw [hpg] at hpg'; cases hpg'
  obtain ⟨s, hs, hfree, hres⟩ := FixedSizeObjectPool.reserve_spec hok.valid
    ((isFull_eq_false hok.valid).1 hfull) (⟨x, 0⟩ : PagingNode T)
  -- the node takes its page's index: the array the code writes is `allocate s ⟨x, i⟩`
  have hd : { pg.data.allocate s ⟨x, 0⟩ with
      nodes := Function.update (pg.data.allocate s ⟨x, 0⟩).nodes s
        (((pg.data.allocate s ⟨x, 0⟩).nodes s).map ({ · with pageIndex := pg.pageIndex })) } =
      pg.data.allocate s ⟨x, i⟩ := by
    simp only [FixedSizeObjectPool.allocate_nodes, Function.update_same, Option.map_some',
      Function.update_idem, hok.pageIndex_eq, FixedSizeObjectPool.allocate]
  have hpg' : pool.pages (pool.pPageList i) = some pg := hpg
  refine ⟨s, hs, hfree, ⟨hok.pageIndex_eq, hok.valid.allocate hs hfree _, fun t node h => ?_⟩, ?_⟩
  · by_cases hts : t = s
    · subst hts; simp at h; rw [← h]
    · simp [FixedSizeObjectPool.allocate, Function.update_noteq hts] at h
      exact hok.nodes_pageIndex t node h
  · simp only [takeFromPage, readPage, hpg', except_ok_bind, hres, hd]
    rfl

/-- The reservation in a listed page with no free slot finds none and changes nothing. -/
theorem takeFromPage_full (hp : PagesOk P pool) {i : Nat} (hi : i < pool.numPages) {pg : Page T}
    (hpg : pool.page i = some pg) (hfull : pg.data.isFull P = true) (x : T) :
    pool.takeFromPage P (pool.pPageList i) x = .ok (pool, none) := by
  obtain ⟨pg', hpg', hok⟩ := hp.page_ok i hi
  rw [hpg] at hpg'; cases hpg'
  have hpg' : pool.pages (pool.pPageList i) = some pg := hpg
  have hn : P ≤ pg.data.numAllocated := by
    simp only [FixedSizeObjectPool.isFull, beq_iff_eq] at hfull; omega
  simp only [takeFromPage, readPage, hpg', except_ok_bind, FixedSizeObjectPool.reserve_of_full hn]
  have hset : pool.setPage (pool.pPageList i) pg = pool := by
    simp only [setPage, ← hpg', Function.update_eq_self]
  exact congrArg (fun q => Except.ok (q, none)) hset

/-- Allocating slot `s` of the page at address `a` makes `⟨a, s⟩` live and nothing else. -/
theorem isLive_of_allocate {a s : Nat} {d : FixedSizeObjectPool (PagingNode T)} {v : PagingNode T}
    (hpa : pool.dataOf a = some d) (h : pool'.dataOf = Function.update pool.dataOf a (some (d.allocate s v)))
    (q : PoolPtr) : pool'.isLive q = (pool.isLive q || q == ⟨a, s⟩) := by
  simp only [isLive, h]
  by_cases hq : q.page = a
  · obtain ⟨qa, qs⟩ := q
    simp only at hq; subst hq
    simp only [hpa, Function.update_same, Option.any_some, FixedSizeObjectPool.allocate_testBit]
    congr 1
    exact decide_eq_decide.2 ⟨fun h => h ▸ rfl, fun h => (PoolPtr.mk.inj h).2.symm⟩
  · rw [Function.update_noteq hq]
    have : (q == (⟨a, s⟩ : PoolPtr)) = false := by
      simp only [beq_eq_false_iff_ne]; rintro rfl; exact hq rfl
    rw [this, Bool.or_false]

/-- Allocating a free slot of a listed page adds one live object. -/
theorem liveCount_of_allocate (hp : PagesOk P pool) {i s : Nat} (hi : i < pool.numPages) (hs : s < P)
    {d : FixedSizeObjectPool (PagingNode T)} {v : PagingNode T} (hpa : pool.dataOf (pool.pPageList i) = some d)
    (hfree : d.bAllocatedBits.testBit s = false)
    (h : pool'.dataOf = Function.update pool.dataOf (pool.pPageList i) (some (d.allocate s v)))
    (hl : pool'.pPageList = pool.pPageList) (hn : pool'.numPages = pool.numPages) :
    liveCount P pool' = liveCount P pool + 1 := by
  have h1 := liveCount_update hp hi h hl hn
  have hcard : (FixedSizeObjectPool.allocatedSet P (d.allocate s v)).card =
      (FixedSizeObjectPool.allocatedSet P d).card + 1 := by
    rw [FixedSizeObjectPool.allocatedSet_allocate _ hs, Finset.card_insert_of_not_mem]
    simp [FixedSizeObjectPool.allocatedSet, hfree]
  have hi' : liveOf P pool i = (FixedSizeObjectPool.allocatedSet P d).card := by simp [liveOf, hpa]
  omega

/-- The reservation in a listed page, over the shared invariant: a full page is left as it was, otherwise a
free slot becomes live with the object in it. -/
theorem takeFromPage_shared {fl : List Nat} (hv : SharedOk P pool fl) {i : Nat} (hi : i < pool.numPages)
    {pg : Page T} (hpg : pool.page i = some pg) (x : T) :
    ∃ pool' r, pool.takeFromPage P (pool.pPageList i) x = .ok (pool', r) ∧ SharedOk P pool' fl ∧
      pool'.numPages = pool.numPages ∧ pool'.pPageList = pool.pPageList ∧
      (pg.data.isFull P = true → r = none ∧ pool' = pool) ∧
      (pg.data.isFull P = false → ∃ q full, r = some (q, full) ∧ pool.isLive q = false ∧
        (∀ p, pool'.isLive p = (pool.isLive p || p == q)) ∧ (pool'.nodeAt q).map (·.data) = some x) := by
  have hp := hv.pagesOk
  cases hfull : pg.data.isFull P
  · obtain ⟨s, hs, hfree, hokd, htake⟩ := takeFromPage_spec hp hi hpg hfull x
    have hpa : pool.dataOf (pool.pPageList i) = some pg.data := by simp [dataOf, show pool.pages _ = _ from hpg]
    set pg' : Page T := { pg with data := pg.data.allocate s ⟨x, i⟩ }
    have hdata := dataOf_setPage pool (pool.pPageList i) pg'
    have hlive := liveCount_of_allocate hp hi hs hpa hfree hdata rfl rfl
    refine ⟨_, _, htake, ⟨(hp.setPage hi hokd).congr rfl rfl rfl rfl,
      (hv.freeList.setPage_of_link hp hi hpg pg' rfl).congr rfl rfl fun _ _ => rfl, ?_⟩, rfl, rfl,
      fun h => absurd h Bool.false_ne_true, fun _ => ⟨_, _, rfl, by simp [isLive, hpa, hfree],
        isLive_of_allocate hpa hdata, ?_⟩⟩
    · show (pool.count + 1) % 2 ^ 32 = liveCount P (pool.setPage _ _) % 2 ^ 32
      rw [hlive, hv.count_eq]
      omega
    · show ((pool.setPage (pool.pPageList i) pg').nodeAt ⟨pool.pPageList i, s⟩).map (·.data) = some x
      simp [nodeAt, hdata, pg']
  · exact ⟨pool, none, takeFromPage_full hp hi hpg hfull x, hv, rfl, rfl, fun _ => ⟨rfl, rfl⟩,
      fun h => absurd h (by decide)⟩

/-- The body of `Reserve`'s loop on a page that has a free slot and is off the free list: the object takes a
free slot of it, the count goes up, and the page goes back on the list unless it is now full. -/
theorem reserveInPage_spec (hp : PagesOk P pool) {i : Nat} (hi : i < pool.numPages) {rest : List Nat}
    (hf : FreeListRep pool rest) (hni : i ∉ rest) {pg : Page T} (hpg : pool.page i = some pg)
    (hfull : pg.data.isFull P = false) (x : T) :
    ∃ s < P, pg.data.bAllocatedBits.testBit s = false ∧ ∃ pool',
      pool.reserveInPage P (pool.pPageList i) x = .ok (pool', some ⟨pool.pPageList i, s⟩) ∧
      pool'.dataOf = Function.update pool.dataOf (pool.pPageList i) (some (pg.data.allocate s ⟨x, i⟩)) ∧
      pool'.pPageList = pool.pPageList ∧ pool'.numPages = pool.numPages ∧
      pool'.count = (pool.count + 1) % 2 ^ 32 ∧ PagesOk P pool' ∧
      FreeListRep pool' (if (pg.data.allocate s ⟨x, i⟩).isFull P then rest else i :: rest) := by
  obtain ⟨s, hs, hfree, hokd, htake⟩ := takeFromPage_spec hp hi hpg hfull x
  set a := pool.pPageList i
  set d := pg.data.allocate s ⟨x, i⟩
  set pool2 : PagingObjectPool T :=
    { pool.setPage a { pg with data := d } with count := (pool.count + 1) % 2 ^ 32 }
  have hp2 : PagesOk P pool2 := (hp.setPage hi hokd).congr rfl rfl rfl rfl
  have hpage2 : pool2.page i = some { pg with data := d } := by
    show Function.update pool.pages a _ a = _
    rw [Function.update_same]
  have hf2 : FreeListRep pool2 rest := (hf.setPage_of_link hp hi hpg { pg with data := d } rfl).congr rfl rfl fun _ _ => rfl
  have hdata2 : pool2.dataOf = Function.update pool.dataOf a (some d) := dataOf_setPage pool a _
  have hbody : pool.reserveInPage P a x =
      if !d.isFull P then (·, some ⟨a, s⟩) <$> pool2.pushPageToFreeList a else .ok (pool2, some ⟨a, s⟩) := by
    simp only [reserveInPage, htake, except_ok_bind]
    cases d.isFull P <;> rfl
  refine ⟨s, hs, hfree, ?_⟩
  by_cases hdf : d.isFull P
  · refine ⟨pool2, by rw [hbody, hdf]; rfl, hdata2, rfl, rfl, rfl, hp2, ?_⟩
    rw [if_pos hdf]; exact hf2
  · have hpush := pushPageToFreeList_of_not_mem hp2 hf2 hi hni hpage2
    refine ⟨pool2.pushed i { pg with data := d } rest, ?_, ?_, rfl, rfl, rfl, hp2.pushed hi hpage2 rest, ?_⟩
    · rw [hbody, if_pos (by simpa using hdf)]
      exact (congrArg (Functor.map (fun y => (y, some (⟨a, s⟩ : PoolPtr)))) hpush).trans rfl
    · rw [dataOf_pushed hpage2, hdata2]
    · rw [if_neg hdf]; exact FreeListRep.pushed hp2 hf2 hi hni hpage2

variable (P) in
/-- What a `Reserve` that returned `p` did: `p` was not live and now holds the object, and nothing else
changed. -/
structure Reserved (pool pool' : PagingObjectPool T) (x : T) (p : PoolPtr) : Prop where
  valid : Valid P pool'
  not_live : pool.isLive p = false
  isLive_eq : ∀ q, pool'.isLive q = (pool.isLive q || q == p)
  data_eq : (pool'.nodeAt p).map (·.data) = some x
  nodeAt_eq : ∀ q, q ≠ p → pool'.nodeAt q = pool.nodeAt q
  slot_lt : p.slot < P
  liveCount_eq : liveCount P pool' = liveCount P pool + 1
  numPages_eq : pool'.numPages = pool.numPages ∨
    (pool'.numPages = pool.numPages + 1 ∧ liveCount P pool = pool.numPages * P)

/-- `Reserve` with a non-empty free list takes a slot of the head page in its first turn. -/
theorem reserve_cons {i : Nat} {rest : List Nat} (hv : ValidWith P pool (i :: rest)) (x : T) (fuel : Nat) :
    ∃ pool' p, pool.reserve P x (fuel + 1) = .ok (pool', p) ∧ Reserved P pool pool' x p ∧
      pool'.numPages = pool.numPages := by
  have hp := hv.pagesOk
  have hf := hv.freeList
  have hi : i < pool.numPages := hf.lt i (List.mem_cons_self _ _)
  have hni : i ∉ rest := (List.nodup_cons.1 hf.nodup).1
  obtain ⟨pg, hpg, hok⟩ := hp.page_ok i hi
  have hpg' : pool.pages (pool.pPageList i) = some pg := hpg
  have hfull : pg.data.isFull P = false := by
    simpa [hasSpace, dataOf, hpg'] using (hv.mem_iff i hi).1 (List.mem_cons_self _ _)
  obtain ⟨s, hs, hfree, pool', hres, hdata, hlist, hnum, hcount, hp', hf'⟩ :=
    reserveInPage_spec (hp.popped hi hpg rest) hi (hf.popped hp pg) hni (page_popped_self pg rest) hfull x
  set a := pool.pPageList i
  set d := pg.data.allocate s ⟨x, i⟩
  change pg.data.bAllocatedBits.testBit s = false at hfree
  change (pool.popped i pg rest).reserveInPage P a x = .ok (pool', some ⟨a, s⟩) at hres
  change pool'.dataOf = Function.update (pool.popped i pg rest).dataOf a (some d) at hdata
  change pool'.pPageList = pool.pPageList at hlist
  change pool'.numPages = pool.numPages at hnum
  change pool'.count = (pool.count + 1) % 2 ^ 32 at hcount
  change pool'.FreeListRep (if d.isFull P then rest else i :: rest) at hf'
  have hdata' : pool'.dataOf = Function.update pool.dataOf a (some d) := by
    rw [hdata, dataOf_popped hpg]
  have hpa : pool.dataOf a = some pg.data := by simp [dataOf, hpg']
  have hsp : ∀ k < pool.numPages, pool'.hasSpace P k = if k = i then !d.isFull P else pool.hasSpace P k :=
    fun k hk => hasSpace_update hp hi hk hdata' hlist
  have hlive : liveCount P pool' = liveCount P pool + 1 := liveCount_of_allocate hp hi hs hpa hfree hdata' hlist hnum
  refine ⟨pool', ⟨a, s⟩, ?_, ⟨⟨_, hp', hf', fun k hk => ?_, ?_⟩, ?_, fun q => ?_, ?_, fun q hq => ?_, hs,
    hlive, .inl hnum⟩, hnum⟩
  · simp only [reserve, popPageFromFreeList_cons hp hf hpg, except_ok_bind, hp.addr_ne_zero hi, if_false,
      hres]
    rfl
  · rw [hnum] at hk
    rw [hsp k hk]
    by_cases hki : k = i
    · subst hki
      by_cases hd : d.isFull P <;> simp [hd, hni]
    · rw [if_neg hki, ← hv.mem_iff k hk]
      split_ifs <;> simp [hki]
  · rw [hcount, hlive, hv.count_eq]
    omega
  · simp [isLive, hpa, hfree]
  · exact isLive_of_allocate hpa hdata' q
  · simp [nodeAt, hdata', d]
  · simp only [nodeAt, hdata']
    by_cases hqa : q.page = a
    · obtain ⟨qa, qs⟩ := q
      simp only at hqa; subst hqa
      have hqs : qs ≠ s := fun h => hq (h ▸ rfl)
      simp [hpa, d, Function.update_noteq hqs]
    · rw [Function.update_noteq hqa]

/-- With the free list empty, every page is full. -/
theorem liveCount_of_nil (hv : ValidWith P pool []) : liveCount P pool = pool.numPages * P := by
  rw [liveCount]
  refine (Finset.sum_const_nat fun k hk => ?_).trans (by rw [Finset.card_range])
  have hk := Finset.mem_range.1 hk
  obtain ⟨pg, hpg, hok⟩ := hv.pagesOk.page_ok k hk
  have hpg' : pool.pages (pool.pPageList k) = some pg := hpg
  have hsp : pool.hasSpace P k = false := by
    simpa using (not_congr (hv.mem_iff k hk)).1 (List.not_mem_nil k)
  simp only [hasSpace, dataOf, hpg', Option.map_some', Option.any_some, Bool.not_eq_false',
    FixedSizeObjectPool.isFull, beq_iff_eq] at hsp
  simp [liveOf, dataOf, hpg', ← hok.valid.numAllocated_eq, hsp]

/-- `Reserve` with an empty free list allocates a page in its first turn and takes its first slot in the
second. -/
theorem reserve_nil (hP : 0 < P) (hv : ValidWith P pool []) (hn : pool.numPages < cMaxPages) (x : T)
    (fuel : Nat) :
    ∃ pool' p, pool.reserve P x (fuel + 2) = .ok (pool', p) ∧ Reserved P pool pool' x p ∧
      pool'.numPages = pool.numPages + 1 := by
  obtain ⟨pool1, halloc, hv1, hnum1, hlive1, hisLive1, hnode1, -⟩ := allocateNewPage_spec hP hv hn
  obtain ⟨pool', p, hres, hr, hnum⟩ := reserve_cons hv1 x fuel
  refine ⟨pool', p, ?_, ⟨hr.valid, hisLive1 ▸ hr.not_live, fun q => hisLive1 ▸ hr.isLive_eq q, hr.data_eq,
    fun q hq => (hr.nodeAt_eq q hq).trans (congrFun hnode1 q), hr.slot_lt, hlive1 ▸ hr.liveCount_eq,
    .inr ⟨hnum.trans hnum1, liveCount_of_nil hv⟩⟩, hnum.trans hnum1⟩
  simp only [reserve, popPageFromFreeList_nil hv.pagesOk hv.freeList, except_ok_bind, if_true, halloc]
  exact hres

/-- From a valid pool below `c_MaxPages` pages, `Reserve` returns within two turns of its loop. -/
theorem reserve_terminates (hP : 0 < P) (hv : Valid P pool) (hn : pool.numPages < cMaxPages) (x : T)
    {fuel : Nat} (hfuel : 2 ≤ fuel) : ∃ pool' p, pool.reserve P x fuel = .ok (pool', p) ∧ Reserved P pool pool' x p := by
  obtain ⟨fl, hv⟩ := hv
  obtain ⟨f, rfl⟩ : ∃ f, fuel = f + 2 := ⟨fuel - 2, by omega⟩
  cases fl with
  | nil =>
    obtain ⟨pool', p, h, hr, -⟩ := reserve_nil hP hv hn x f
    exact ⟨pool', p, h, hr⟩
  | cons i rest =>
    obtain ⟨pool', p, h, hr, -⟩ := reserve_cons hv x (f + 1)
    exact ⟨pool', p, h, hr⟩

/-- Whatever a `Reserve` from a valid pool below `c_MaxPages` pages returns, it reserved a fresh slot. -/
theorem reserve_reserved (hP : 0 < P) (hv : Valid P pool) (hn : pool.numPages < cMaxPages) {x : T}
    {fuel : Nat} {p : PoolPtr} (h : pool.reserve P x fuel = .ok (pool', p)) : Reserved P pool pool' x p := by
  obtain ⟨fl, hv⟩ := hv
  cases fl with
  | cons i rest =>
    cases fuel with
    | zero => cases h
    | succ f =>
      obtain ⟨pool'', p'', h', hr, -⟩ := reserve_cons hv x f
      rw [h'] at h; cases h; exact hr
  | nil =>
    match fuel, h with
    | 0, h => cases h
    | 1, h =>
      obtain ⟨pool1, halloc, -⟩ := allocateNewPage_spec hP hv hn
      simp only [reserve, popPageFromFreeList_nil hv.pagesOk hv.freeList, except_ok_bind, if_true,
        halloc] at h
      cases h
    | f + 2, h =>
      obtain ⟨pool'', p'', h', hr, -⟩ := reserve_nil hP hv hn x f
      rw [h'] at h; cases h; exact hr

/-! ## Releasing -/

/-- `Release` of a pointer to a constructed slot, up to its push: the page's own `Release` destroys the
object and frees the slot when the object is live and the count goes down, which keeps the page list, the
free list and the count in order and gives the page, the one at index `i`, a free slot; a free slot leaves
the pool as it was. -/
theorem releaseInPage_shared {fl : List Nat} (hv : SharedOk P pool fl) {p : PoolPtr} (hnode : pool.nodeAt p ≠ none)
    (hslot : p.slot < P) :
    ∃ i < pool.numPages, pool.pPageList i = p.page ∧ ∃ pool2,
      pool.releaseInPage P p = .ok (pool2, some p.page, pool.isLive p) ∧ SharedOk P pool2 fl ∧
      pool2.numPages = pool.numPages ∧ pool2.pPageList = pool.pPageList ∧ pool2.nodeAt = pool.nodeAt ∧
      (∀ q, pool2.destroyCount q = pool.destroyCount q + if pool.isLive p ∧ q = p then 1 else 0) ∧
      (∀ q, pool2.isLive q = (pool.isLive q && q != p)) ∧
      liveCount P pool2 + (if pool.isLive p then 1 else 0) = liveCount P pool ∧
      (∀ k < pool.numPages, pool2.hasSpace P k = if k = i then true else pool.hasSpace P k) ∧
      (pool.isLive p = false → pool2 = pool) := by
  have hp := hv.pagesOk
  have hf := hv.freeList
  obtain ⟨node, hnode⟩ := Option.ne_none_iff_exists'.1 hnode
  obtain ⟨_, hd0, hnd⟩ := Option.bind_eq_some.1 hnode
  obtain ⟨pg, hpg, rfl⟩ := Option.map_eq_some'.1 hd0
  obtain ⟨i, hi, hai⟩ := hp.listed _ _ hpg
  obtain ⟨pg', hpg', hok⟩ := hp.page_ok i hi
  have hpgi : pool.page i = some pg := by rw [page, hai, hpg]
  rw [hpgi] at hpg'; cases hpg'
  have hidx : node.pageIndex = i := hok.nodes_pageIndex _ _ hnd
  -- the page's release, and the pool before the push
  obtain ⟨hb_eq, hvd, hnodes, hbits, hcard, hsame⟩ := hok.valid.release hslot
  set d := (pg.data.release P p.slot).1
  set b := (pg.data.release P p.slot).2
  have hlive : pool.isLive p = b := by simp [isLive, dataOf, hpg, hb_eq]
  have hdes : d.destroyed = pg.data.destroyed ++ if b then [p.slot] else [] :=
    FixedSizeObjectPool.release_destroyed _ _
  set pool2 : PagingObjectPool T :=
    { pool.setPage p.page { pg with data := d } with
      count := if b then (pool.count + 2 ^ 32 - 1) % 2 ^ 32 else pool.count }
  have hrel : pool.releaseInPage P p = .ok (pool2, some p.page, b) := by
    simp only [releaseInPage, readNode, readPage, hpg, except_ok_bind, hslot, if_true, hnd, pure_bind, hidx, hi,
      hai, and_self]
    rfl
  have hokd : PageOk P i { pg with data := d } :=
    ⟨hok.pageIndex_eq, hvd, fun t node h => hok.nodes_pageIndex t node (hnodes ▸ h)⟩
  have hp2 : PagesOk P pool2 := by
    have := hp.setPage hi hokd
    rw [hai] at this
    exact this.congr rfl rfl rfl rfl
  have hdata2 : pool2.dataOf = Function.update pool.dataOf p.page (some d) := dataOf_setPage pool p.page _
  have hdata2' : pool2.dataOf = Function.update pool.dataOf (pool.pPageList i) (some d) := hai ▸ hdata2
  have hf2 : FreeListRep pool2 fl :=
    (hai ▸ hf.setPage_of_link hp hi hpgi { pg with data := d } rfl).congr rfl rfl fun _ _ => rfl
  -- after the release the page has a free slot
  have hspace : (!d.isFull P) = true := by
    rw [Bool.not_eq_true', isFull_eq_false hvd, hvd.numAllocated_eq]
    exact FixedSizeObjectPool.card_lt_of_clear hslot (by simp [hbits])
  have hlive2 : liveCount P pool2 + (if b then 1 else 0) = liveCount P pool := by
    have h := liveCount_update hp hi hdata2' rfl rfl
    have hi' : liveOf P pool i = (FixedSizeObjectPool.allocatedSet P pg.data).card := by
      simp [liveOf, dataOf, hai, hpg]
    omega
  have hcount2 : pool2.count = liveCount P pool2 % 2 ^ 32 := by
    show (if b then _ else _) = _
    rw [hv.count_eq]
    rcases Bool.eq_false_or_eq_true b with hb | hb <;>
      simp only [hb, if_true, if_false, Bool.false_eq_true] at hlive2 ⊢ <;> omega
  refine ⟨i, hi, hai, pool2, hlive ▸ hrel, ⟨hp2, hf2, hcount2⟩, rfl, rfl, ?_, fun q => ?_, fun q => ?_, hlive ▸ hlive2,
    fun k hk => by rw [hasSpace_update hp hi hk hdata2' rfl, hspace], fun hb => ?_⟩
  · -- the nodes stay where they were
    funext q
    simp only [nodeAt, hdata2]
    by_cases hq : q.page = p.page
    · rw [hq, Function.update_same]
      simp [hnodes, dataOf, hpg]
    · rw [Function.update_noteq hq]
  · -- `Util::Destroy` ran on the released object alone
    simp only [destroyCount, hdata2, hlive]
    by_cases hq : q.page = p.page
    · obtain ⟨qa, qs⟩ := q
      obtain ⟨pa, ps⟩ := p
      simp only at hq hpg hdes ⊢; subst hq
      simp only [Function.update_same, dataOf, hpg, Option.map_some', Option.getD_some, hdes, List.count_append]
      by_cases hqs : qs = ps <;> cases b <;> simp [hqs]
    · have : q ≠ p := by rintro rfl; exact hq rfl
      simp [Function.update_noteq hq, this]
  · -- only the released slot changes
    simp only [isLive, hdata2]
    by_cases hq : q.page = p.page
    · obtain ⟨qa, qs⟩ := q
      obtain ⟨pa, ps⟩ := p
      simp only at hq hpg hslot ⊢; subst hq
      simp only [Function.update_same, Option.any_some, dataOf, hpg, Option.map_some', hbits]
      by_cases hqs : qs = ps <;> simp [hqs]
    · rw [Function.update_noteq hq]
      have : (q != p) = true := by simp only [bne_iff_ne, ne_eq]; rintro rfl; exact hq rfl
      rw [this, Bool.and_true]
  · -- a free slot leaves the page as it was
    have hd : d = pg.data := hsame (hlive ▸ hb)
    have hc : (if b then (pool.count + 2 ^ 32 - 1) % 2 ^ 32 else pool.count) = pool.count := by
      simp [← hlive, hb]
    have hpages : Function.update pool.pages p.page (some { pg with data := d }) = pool.pages := by
      rw [hd]; exact Function.update_eq_self_iff.2 hpg.symm
    simp only [pool2, setPage, hc, hpages]

/-- `Release` of a pointer to a constructed slot, over the part of the invariant that interleaved calls keep:
it frees the slot and returns `true` when the object is live, and pushes its page, the one at index `i`,
unless the page is on the list; a free slot leaves every page's contents as they were. -/
theorem release_shared {fl : List Nat} (hv : SharedOk P pool fl) {p : PoolPtr} (hnode : pool.nodeAt p ≠ none)
    (hslot : p.slot < P) :
    ∃ i < pool.numPages, pool.pPageList i = p.page ∧ ∃ pool',
      pool.release P p = .ok (pool', pool.isLive p) ∧ SharedOk P pool' (if i ∈ fl then fl else i :: fl) ∧
      pool'.nodeAt = pool.nodeAt ∧
      (∀ q, pool'.destroyCount q = pool.destroyCount q + if pool.isLive p ∧ q = p then 1 else 0) ∧
      (∀ q, pool'.isLive q = (pool.isLive q && q != p)) ∧
      liveCount P pool' + (if pool.isLive p then 1 else 0) = liveCount P pool ∧
      pool'.numPages = pool.numPages ∧ pool'.pPageList = pool.pPageList ∧
      (∀ k < pool.numPages, pool'.hasSpace P k = if k = i then true else pool.hasSpace P k) ∧
      (pool.isLive p = false → pool'.dataOf = pool.dataOf ∧ (i ∈ fl → pool' = pool)) := by
  obtain ⟨i, hi, hai, pool2, hrel, hsh2, hnum2, hlist2, hnode2, hdes2, hisLive2, hlive2, hsp, hpool2⟩ :=
    releaseInPage_shared hv hnode hslot
  obtain ⟨pool3, hpush, hsh3, hnum3, hlist3, hdata3, hsame3⟩ := pushPageToFreeList_shared hsh2 (hnum2 ▸ hi)
  rw [hlist2, hai] at hpush
  refine ⟨i, hi, hai, pool3, by simp only [release, hrel, except_ok_bind, hpush]; rfl, hsh3, by rw [nodeAt_congr hdata3, hnode2],
    fun q => by rw [destroyCount_congr hdata3, hdes2], fun q => by rw [isLive_congr hdata3, hisLive2], by rw [liveCount_congr hdata3 hlist3 hnum3]; exact hlive2,
    hnum3.trans hnum2, hlist3.trans hlist2, fun k hk => by rw [hasSpace_congr hdata3 hlist3, hsp k hk],
    fun h => ⟨by rw [hdata3, hpool2 h], fun hm => (hsame3 hm).trans (hpool2 h)⟩⟩

/-- `Release` of a pointer to a constructed slot of a valid pool: it destroys the object, frees the slot and
returns `true` when the object is live, and otherwise returns `false` and changes nothing. -/
theorem release_spec {fl : List Nat} (hv : ValidWith P pool fl) {p : PoolPtr} (hnode : pool.nodeAt p ≠ none)
    (hslot : p.slot < P) :
    ∃ pool', pool.release P p = .ok (pool', pool.isLive p) ∧ Valid P pool' ∧ pool'.nodeAt = pool.nodeAt ∧
      (∀ q, pool'.destroyCount q = pool.destroyCount q + if pool.isLive p ∧ q = p then 1 else 0) ∧
      (∀ q, pool'.isLive q = (pool.isLive q && q != p)) ∧
      liveCount P pool' + (if pool.isLive p then 1 else 0) = liveCount P pool ∧
      pool'.numPages = pool.numPages ∧ (pool.isLive p = false → pool' = pool) := by
  obtain ⟨i, hi, -, pool', hrel, hsh, hnode', hdes', hlive', hcount', hnum, hlist, hsp, hfree⟩ :=
    release_shared hv.shared hnode hslot
  -- the released page is on the list afterwards, and every other page keeps its place
  have hmem : ∀ k < pool'.numPages, k ∈ (if i ∈ fl then fl else i :: fl) ↔ pool'.hasSpace P k = true :=
    fun k hk => by
      rw [hnum] at hk
      rw [hsp k hk]
      by_cases hki : k = i
      · subst hki
        rw [if_pos rfl]
        refine iff_of_true ?_ rfl
        split_ifs with h
        exacts [h, List.mem_cons_self _ _]
      · rw [if_neg hki, ← hv.mem_iff k hk]
        split_ifs <;> simp [hki]
  refine ⟨pool', hrel, ⟨_, hsh.pagesOk, hsh.freeList, hmem, hsh.count_eq⟩, hnode', hdes', hlive', hcount', hnum,
    fun h => (hfree h).2 ?_⟩
  rw [hv.mem_iff i hi, ← hasSpace_congr (hfree h).1 hlist, hsp i hi, if_pos rfl]

theorem readNode_ok {p : PoolPtr} {node : PagingNode T} (h : pool.readNode P p = .ok node) :
    pool.nodeAt p = some node ∧ p.slot < P := by
  simp only [readNode, readPage] at h
  cases hpg : pool.pages p.page with
  | none => rw [hpg] at h; cases h
  | some pg =>
    rw [hpg, except_ok_bind] at h
    by_cases hs : p.slot < P
    · rw [if_pos hs] at h
      cases hn : pg.data.nodes p.slot with
      | none => rw [hn] at h; cases h
      | some n => rw [hn] at h; cases h; exact ⟨by simp [nodeAt, dataOf, hpg, hn], hs⟩
    · rw [if_neg hs] at h; cases h

/-- A `Release` that returns leaves a valid pool, with the same nodes and pages. -/
theorem release_valid {fl : List Nat} (hv : ValidWith P pool fl) {p : PoolPtr} {b : Bool}
    (h : pool.release P p = .ok (pool', b)) :
    Valid P pool' ∧ pool'.nodeAt = pool.nodeAt ∧ pool'.numPages = pool.numPages := by
  have hread : ∃ node, pool.readNode P p = .ok node := by
    revert h
    simp only [release, releaseInPage]
    cases pool.readNode P p with
    | error e => intro h; cases h
    | ok node => intro _; exact ⟨node, rfl⟩
  obtain ⟨node, hnode⟩ := hread
  obtain ⟨hat, hslot⟩ := readNode_ok hnode
  obtain ⟨pool'', h', hv', hnode', -, -, -, hnum, -⟩ := release_spec hv (by simp [hat]) hslot
  rw [h'] at h; cases h
  exact ⟨hv', hnode', hnum⟩

/-! ## The live objects as a set -/

theorem page_eq_of_mem_liveOn {i : Nat} {q : PoolPtr} (h : q ∈ liveOn P pool i) : q.page = pool.pPageList i := by
  simp only [liveOn] at h
  cases hd : pool.dataOf (pool.pPageList i) with
  | none => simp [hd] at h
  | some d =>
    simp only [hd, Option.map_some', Option.getD_some, Finset.mem_image] at h
    obtain ⟨s, -, rfl⟩ := h
    rfl

theorem card_liveOn (i : Nat) : (liveOn P pool i).card = liveOf P pool i := by
  simp only [liveOn, liveOf]
  cases pool.dataOf (pool.pPageList i) with
  | none => rfl
  | some d => exact Finset.card_image_of_injective _ fun s t h => (PoolPtr.mk.inj h).2

theorem card_liveSet (hp : PagesOk P pool) : (liveSet P pool).card = liveCount P pool := by
  rw [liveSet, Finset.card_biUnion]
  · exact Finset.sum_congr rfl fun i _ => card_liveOn i
  · intro i hi j hj hij
    refine Finset.disjoint_left.2 fun q hqi hqj => hij (hp.inj (Finset.mem_range.1 hi) (Finset.mem_range.1 hj) ?_)
    rw [← page_eq_of_mem_liveOn hqi, ← page_eq_of_mem_liveOn hqj]

theorem mem_liveSet (hp : PagesOk P pool) (q : PoolPtr) : q ∈ liveSet P pool ↔ pool.isLive q = true := by
  simp only [liveSet, liveOn, Finset.mem_biUnion, Finset.mem_range]
  constructor
  · rintro ⟨i, -, hq⟩
    cases hd : pool.dataOf (pool.pPageList i) with
    | none => simp [hd] at hq
    | some d =>
      simp only [hd, Option.map_some', Option.getD_some, Finset.mem_image, FixedSizeObjectPool.allocatedSet,
        Finset.mem_filter] at hq
      obtain ⟨s, ⟨-, hs⟩, rfl⟩ := hq
      simp [isLive, hd, hs]
  · intro hq
    cases hd : pool.dataOf q.page with
    | none => simp [isLive, hd] at hq
    | some d =>
      have hbit : d.bAllocatedBits.testBit q.slot := by simpa [isLive, hd] using hq
      obtain ⟨pg, hpg, rfl⟩ : ∃ pg, pool.pages q.page = some pg ∧ pg.data = d := by simpa [dataOf] using hd
      obtain ⟨i, hi, hia⟩ := hp.listed _ _ hpg
      obtain ⟨pg', hpg', hok⟩ := hp.page_ok i hi
      obtain rfl : pg' = pg := Option.some.inj (hpg'.symm.trans ((congrArg pool.pages hia).trans hpg))
      refine ⟨i, hi, ?_⟩
      simp only [hia, hd, Option.map_some', Option.getD_some, Finset.mem_image, FixedSizeObjectPool.allocatedSet,
        Finset.mem_filter, Finset.mem_range]
      exact ⟨q.slot, ⟨hok.valid.lt_of_testBit hbit, hbit⟩, rfl⟩

/-! ## The live objects as a list -/

variable (P) in
/-- The live objects of the page at index `i`, slot by slot. -/
def pageLive (pool : PagingObjectPool T) (i : Nat) : List PoolPtr :=
  ((pool.dataOf (pool.pPageList i)).map fun d =>
    (FixedSizeObjectPool.allocatedSlots P d).map (PoolPtr.mk (pool.pPageList i))).getD []

variable (P) in
/-- The live objects, page by page in the page list's order and slot by slot. -/
def liveList (pool : PagingObjectPool T) : List PoolPtr :=
  (List.range pool.numPages).flatMap (pageLive P pool)

theorem mem_pageLive {i : Nat} {q : PoolPtr} : q ∈ pageLive P pool i ↔ q ∈ liveOn P pool i := by
  unfold pageLive liveOn
  cases pool.dataOf (pool.pPageList i) <;>
    simp [FixedSizeObjectPool.allocatedSlots, FixedSizeObjectPool.allocatedSet]

/-- The list holds the pool's live objects. -/
theorem liveList_toFinset : (liveList P pool).toFinset = liveSet P pool := by
  ext q
  simp [liveList, liveSet, mem_pageLive]

theorem pageLive_nodup (i : Nat) : (pageLive P pool i).Nodup := by
  unfold pageLive
  cases pool.dataOf (pool.pPageList i) with
  | none => exact List.nodup_nil
  | some d => exact ((List.nodup_range P).filter _).map fun _ _ h => by cases h; rfl

/-- On a pool that lists no page twice the list holds each object once. -/
theorem liveList_nodup
    (hinj : ∀ i < pool.numPages, ∀ j < pool.numPages, pool.pPageList i = pool.pPageList j → i = j) :
    (liveList P pool).Nodup := by
  refine List.nodup_flatMap.2 ⟨fun i _ => pageLive_nodup i,
    (List.nodup_range _).pairwise_of_forall_ne fun i hi j hj hij q hqi hqj => hij ?_⟩
  rw [List.mem_range] at hi hj
  exact hinj i hi j hj ((page_eq_of_mem_liveOn (mem_pageLive.1 hqi)).symm.trans
    (page_eq_of_mem_liveOn (mem_pageLive.1 hqj)))

/-- On a pool whose pages are well formed the list holds exactly the live objects. -/
theorem mem_liveList (hp : PagesOk P pool) (q : PoolPtr) : q ∈ liveList P pool ↔ pool.isLive q = true := by
  rw [← List.mem_toFinset, liveList_toFinset, mem_liveSet hp]

/-! ## Writing through a pointer -/

/-- A write through a pointer replaces the node's object in its page and nothing else. -/
theorem modifyNode_eq {p : PoolPtr} {f : T → T} (h : pool.modifyNode P p f = .ok pool') :
    ∃ pg node, pool.pages p.page = some pg ∧ p.slot < P ∧ pg.data.nodes p.slot = some node ∧
      pool' = pool.setPage p.page { pg with data := { pg.data with
        nodes := Function.update pg.data.nodes p.slot (some { node with data := f node.data }) } } := by
  simp only [modifyNode, readPage] at h
  cases hpg : pool.pages p.page with
  | none => rw [hpg] at h; cases h
  | some pg =>
    rw [hpg, except_ok_bind] at h
    split_ifs at h with hs
    cases hn : pg.data.nodes p.slot with
    | none => rw [hn] at h; cases h
    | some node => rw [hn] at h; cases h; exact ⟨pg, node, rfl, hs, hn, rfl⟩

/-- A write through a pointer changes that node's object and nothing else: which objects are live, the
page list and the count stay. -/
theorem modifyNode_frame {p : PoolPtr} {f : T → T} (h : pool.modifyNode P p f = .ok pool') :
    pool'.isLive = pool.isLive ∧ pool'.numPages = pool.numPages ∧ pool'.nextAddress = pool.nextAddress ∧
      pool'.count = pool.count ∧ ∀ q, pool'.nodeAt q =
        if q = p then (pool.nodeAt p).map (fun n => { n with data := f n.data }) else pool.nodeAt q := by
  obtain ⟨pg, node, hpg, -, hn, rfl⟩ := modifyNode_eq h
  refine ⟨?_, rfl, rfl, rfl, fun q => ?_⟩
  · funext q
    by_cases hq : q.page = p.page
    · simp [isLive, dataOf_setPage, hq, dataOf, hpg]
    · simp [isLive, dataOf_setPage, Function.update_noteq hq]
  · by_cases hq : q.page = p.page
    · by_cases hqs : q.slot = p.slot
      · obtain rfl : q = p := by cases q; cases p; simp_all
        simp [nodeAt, dataOf_setPage, dataOf, hpg, hn]
      · have hqp : q ≠ p := fun e => hqs (e ▸ rfl)
        simp [nodeAt, dataOf_setPage, hq, dataOf, hpg, Function.update_noteq hqs, hqp]
    · have hqp : q ≠ p := fun e => hq (e ▸ rfl)
      simp [nodeAt, dataOf_setPage, Function.update_noteq hq, hqp]

/-- A write through a pointer keeps the pool valid, with the same free list. -/
theorem ValidWith.modifyNode {fl : List Nat} (hv : ValidWith P pool fl) {p : PoolPtr} {f : T → T}
    (h : pool.modifyNode P p f = .ok pool') : ValidWith P pool' fl := by
  have hp := hv.pagesOk
  obtain ⟨pg, node, hpg, -, hn, rfl⟩ := modifyNode_eq h
  obtain ⟨i, hi, hia⟩ := hp.listed _ _ hpg
  obtain ⟨pg', hpg', hok⟩ := hp.page_ok i hi
  obtain rfl : pg' = pg := Option.some.inj (hpg'.symm.trans ((congrArg pool.pages hia).trans hpg))
  set d : FixedSizeObjectPool (PagingNode T) := { pg'.data with
    nodes := Function.update pg'.data.nodes p.slot (some { node with data := f node.data }) }
  have hokd : PageOk P i { pg' with data := d } :=
    ⟨hok.pageIndex_eq, ⟨hok.valid.numAllocated_eq, hok.valid.bits_lt, hok.valid.cached_le, fun j hj => by
      by_cases hjs : j = p.slot
      · subst hjs; simp [d]
      · simpa [d, Function.update_noteq hjs] using hok.valid.constructed j hj⟩, fun t n ht => by
      by_cases hts : t = p.slot
      · subst hts; simp only [d, Function.update_same, Option.some.injEq] at ht
        rw [← ht]; exact hok.nodes_pageIndex _ node hn
      · simp only [d, Function.update_noteq hts] at ht
        exact hok.nodes_pageIndex t n ht⟩
  have hdata : (pool.setPage p.page { pg' with data := d }).dataOf =
      Function.update pool.dataOf (pool.pPageList i) (some d) := by
    rw [dataOf_setPage, hia]
  have hsame : (FixedSizeObjectPool.allocatedSet P d).card = liveOf P pool i := by
    simp [liveOf, dataOf, hia, hpg, d, FixedSizeObjectPool.allocatedSet]
  have hpgi : pool.page i = some pg' := by rw [page, hia, hpg]
  refine ⟨hia ▸ hp.setPage hi hokd, hia ▸ hv.freeList.setPage_of_link hp hi hpgi { pg' with data := d } rfl, fun k hk => ?_, ?_⟩
  · rw [hv.mem_iff k hk, hasSpace_update hp hi hk hdata rfl]
    split_ifs with hki
    · subst hki; simp [hasSpace, dataOf, hia, hpg, d, FixedSizeObjectPool.isFull]
    · rfl
  · have hc := liveCount_update hp hi hdata rfl rfl
    rw [hsame] at hc
    show pool.count = _
    rw [hv.count_eq]
    congr 1
    omega

/-! ## Clearing and preallocating -/

theorem clear_pages (hp : PagesOk P pool) (a : Nat) : pool.clear.pages a = none := by
  simp only [clear]
  split_ifs with h
  · rfl
  · cases hpa : pool.pages a with
    | none => rfl
    | some pg =>
      obtain ⟨i, hi, hia⟩ := hp.listed a pg hpa
      exact absurd (List.any_eq_true.2 ⟨i, List.mem_range.2 hi, by simp [hia]⟩) h

/-- `Clear` leaves an empty valid pool in which nothing is live. -/
theorem clear_spec (hp : PagesOk P pool) :
    ValidWith P pool.clear [] ∧ ∀ q, pool.clear.isLive q = false := by
  have hnone := clear_pages hp
  refine ⟨⟨⟨Nat.zero_le _, fun i hi => absurd hi (Nat.not_lt_zero _), fun a pg h => (by rw [hnone] at h; cases h),
    hnone 0, hp.nextAddress_pos, fun a _ => hnone a⟩, ⟨headPageIndex_empty, List.nodup_nil,
    fun i hi => absurd hi (List.not_mem_nil i), fun i hi => absurd hi (Nat.not_lt_zero _)⟩,
    fun i hi => absurd hi (Nat.not_lt_zero _), by simp [clear, liveCount]⟩, fun q => ?_⟩
  simp [isLive, dataOf, hnone]

/-- `Clear` on a pool whose pages are well formed destroys its live objects, page by page and slot by slot:
each page's destructor meets a count equal to its bitmap's population. -/
theorem clearDestroyed_eq (hp : PagesOk P pool) (b : Nat) : pool.clearDestroyed P b = liveList P pool := by
  refine List.flatMap_congr fun i hi => ?_
  obtain ⟨pg, hpg, hok⟩ := hp.page_ok i (List.mem_range.1 hi)
  have hpg' : pool.pages (pool.pPageList i) = some pg := hpg
  simp only [pageLive, dataOf, hpg', Option.map_some', Option.getD_some,
    FixedSizeObjectPool.destructor_eq b hok.valid.numAllocated_eq hok.valid.bits_lt]

/-- `Clear` destroys each live object once, and nothing else. -/
theorem count_clearDestroyed (hp : PagesOk P pool) (b : Nat) (q : PoolPtr) :
    (pool.clearDestroyed P b).count q = if q ∈ liveSet P pool then 1 else 0 := by
  have hmem : q ∈ liveList P pool ↔ q ∈ liveSet P pool := by rw [← liveList_toFinset, List.mem_toFinset]
  rw [clearDestroyed_eq hp b]
  split_ifs with h
  · exact List.count_eq_one_of_mem (liveList_nodup fun i hi j hj => hp.inj hi hj) (hmem.2 h)
  · exact List.count_eq_zero_of_not_mem (mt hmem.1 h)

/-- `PreallocateSpace`'s loop adds its pages to the end of the list and the head of the free list. -/
theorem allocatePages_spec (hP : 0 < P) (n : Nat) :
    ∀ {pool : PagingObjectPool T} {fl : List Nat}, ValidWith P pool fl → pool.numPages + n ≤ cMaxPages →
      ∃ pool' fl', pool.allocatePages n = .ok pool' ∧ ValidWith P pool' fl' ∧
        pool'.numPages = pool.numPages + n ∧ pool'.isLive = pool.isLive ∧ pool'.nodeAt = pool.nodeAt := by
  induction n with
  | zero => intro pool fl hv _; exact ⟨pool, fl, rfl, hv, rfl, rfl, rfl⟩
  | succ n ih =>
    intro pool fl hv hn
    obtain ⟨pool1, halloc, hv1, hnum1, -, hlive1, hnode1, -⟩ := allocateNewPage_spec hP hv (by omega)
    obtain ⟨pool', fl', h, hv', hnum, hlive, hnode⟩ := ih hv1 (by omega)
    refine ⟨pool', fl', ?_, hv', by omega, hlive.trans hlive1, hnode.trans hnode1⟩
    simp only [allocatePages, halloc, except_ok_bind]
    exact h

/-! ## Every single-threaded run -/

variable (P) in
/-- The states that single-threaded calls reach from a constructed pool while fewer than `c_MaxPages`
pages exist, with the pointers `Reserve` returned since the last `Clear`. -/
inductive Reachable : PagingObjectPool T → List PoolPtr → Prop
  | init : Reachable init []
  | reserve {pool pool' : PagingObjectPool T} {returned : List PoolPtr} {x : T} {fuel : Nat} {p : PoolPtr} :
      Reachable pool returned → pool.reserve P x fuel = .ok (pool', p) → pool'.numPages < cMaxPages →
      Reachable pool' (p :: returned)
  | release {pool pool' : PagingObjectPool T} {returned : List PoolPtr} {p : PoolPtr} {b : Bool} :
      Reachable pool returned → pool.release P p = .ok (pool', b) → Reachable pool' returned
  | preallocate {pool pool' : PagingObjectPool T} {returned : List PoolPtr} {n : Nat} :
      Reachable pool returned → pool.numPages + ((n + P - 1) % 2 ^ 32) / P < cMaxPages →
      pool.preallocateSpace P n = .ok pool' → Reachable pool' returned
  | clear {pool : PagingObjectPool T} {returned : List PoolPtr} :
      Reachable pool returned → Reachable pool.clear []

theorem valid_init : ValidWith P (init : PagingObjectPool T) [] :=
  ⟨⟨Nat.zero_le _, fun i hi => absurd hi (Nat.not_lt_zero _), fun a pg h => (by cases h), rfl, Nat.one_pos,
    fun _ _ => rfl⟩, ⟨headPageIndex_empty, List.nodup_nil, fun i hi => absurd hi (List.not_mem_nil i),
    fun i hi => absurd hi (Nat.not_lt_zero _)⟩, fun i hi => absurd hi (Nat.not_lt_zero _),
    by simp [init, liveCount]⟩

/-- Every reachable pool is valid and below `c_MaxPages` pages, and every pointer returned since the last
`Clear` points into a constructed slot. -/
theorem Reachable.valid (hP : 0 < P) {returned : List PoolPtr} (hr : Reachable P pool returned) :
    Valid P pool ∧ pool.numPages < cMaxPages ∧ ∀ p ∈ returned, pool.nodeAt p ≠ none ∧ p.slot < P := by
  induction hr with
  | init => exact ⟨⟨[], valid_init⟩, (by decide : 0 < cMaxPages), fun p hp => absurd hp (List.not_mem_nil p)⟩
  | @reserve _ _ _ _ _ p _ h hlt ih =>
    have hres := reserve_reserved hP ih.1 ih.2.1 h
    refine ⟨hres.valid, hlt, fun q hq => ?_⟩
    rcases List.mem_cons.1 hq with rfl | hq
    · exact ⟨fun hn => by simpa [hn] using hres.data_eq, hres.slot_lt⟩
    · by_cases hqp : q = p
      · subst hqp; exact ⟨fun hn => by simpa [hn] using hres.data_eq, hres.slot_lt⟩
      · rw [hres.nodeAt_eq q hqp]; exact ih.2.2 q hq
  | release _ h ih =>
    obtain ⟨fl, hv⟩ := ih.1
    obtain ⟨hv', hnode, hnum⟩ := release_valid hv h
    exact ⟨hv', hnum ▸ ih.2.1, fun q hq => hnode ▸ ih.2.2 q hq⟩
  | preallocate _ hn h ih =>
    obtain ⟨fl, hv⟩ := ih.1
    obtain ⟨pool', fl', h', hv', hnum, -, hnode⟩ := allocatePages_spec hP _ hv hn.le
    rw [preallocateSpace, h'] at h; cases h
    exact ⟨⟨fl', hv'⟩, hnum ▸ hn, fun q hq => hnode ▸ ih.2.2 q hq⟩
  | clear _ ih =>
    obtain ⟨fl, hv⟩ := ih.1
    exact ⟨⟨[], (clear_spec hv.pagesOk).1⟩, (by decide : 0 < cMaxPages), fun p hp => absurd hp (List.not_mem_nil p)⟩

/-- Single-threaded use of the paging pool, from every state that calls reach while fewer than
`c_MaxPages` pages exist, for bitmap words of `2^b` bits. `Size()` is the number of live objects modulo
`2^32`. `Reserve` returns a pointer to a slot that was free and now holds the object, and changes no other
node. `Release` of a pointer returned since the last `Clear` returns whether its object was live; if so it
destroys that object once and frees it, and destroys nothing else. `Clear` destroys each live object once
and nothing else, and leaves a pool with no live object. -/
theorem paging_single_thread (hP : 0 < P) (b : Nat) {pool : PagingObjectPool T} {returned : List PoolPtr}
    (hr : Reachable P pool returned) :
    pool.size = (liveSet P pool).card % 2 ^ 32 ∧
    (∀ (x : T) (fuel : Nat), 2 ≤ fuel → ∃ pool' p, pool.reserve P x fuel = .ok (pool', p) ∧
      p ∉ liveSet P pool ∧ liveSet P pool' = insert p (liveSet P pool) ∧
      (pool'.nodeAt p).map (·.data) = some x ∧ ∀ q, q ≠ p → pool'.nodeAt q = pool.nodeAt q) ∧
    (∀ p ∈ returned, ∃ pool', pool.release P p = .ok (pool', decide (p ∈ liveSet P pool)) ∧
      liveSet P pool' = (liveSet P pool).erase p ∧ pool'.nodeAt = pool.nodeAt ∧
      (∀ q, pool'.destroyCount q = pool.destroyCount q + if p ∈ liveSet P pool ∧ q = p then 1 else 0) ∧
      (p ∉ liveSet P pool → pool' = pool)) ∧
    (Reachable P pool.clear [] ∧ liveSet P pool.clear = ∅ ∧
      ∀ q, (pool.clearDestroyed P b).count q = if q ∈ liveSet P pool then 1 else 0) := by
  obtain ⟨⟨fl, hv⟩, hnum, hret⟩ := hr.valid hP
  have hmem := mem_liveSet hv.pagesOk
  refine ⟨?_, fun x fuel hfuel => ?_, fun p hp => ?_, hr.clear, ?_, count_clearDestroyed hv.pagesOk b⟩
  · rw [card_liveSet hv.pagesOk]; exact hv.count_eq
  · obtain ⟨pool', p, h, hres⟩ := reserve_terminates hP ⟨fl, hv⟩ hnum x hfuel
    obtain ⟨fl', hv'⟩ := hres.valid
    refine ⟨pool', p, h, by simp [hmem, hres.not_live], Finset.ext fun q => ?_, hres.data_eq, hres.nodeAt_eq⟩
    rw [mem_liveSet hv'.pagesOk, hres.isLive_eq, Finset.mem_insert, hmem]
    by_cases hq : q = p <;> simp [hq]
  · obtain ⟨pool', h, ⟨fl', hv'⟩, hnode, hdes, hlive, -, -, hsame⟩ := release_spec hv (hret p hp).1 (hret p hp).2
    have hb : pool.isLive p = decide (p ∈ liveSet P pool) := by simp [hmem]
    refine ⟨pool', hb ▸ h, Finset.ext fun q => ?_, hnode, fun q => by simp only [hdes, hmem],
      fun hn => hsame (by simpa [hmem] using hn)⟩
    rw [mem_liveSet hv'.pagesOk, hlive, Finset.mem_erase, hmem]
    by_cases hq : q = p <;> simp [hq]
  · obtain ⟨hv', hdead⟩ := clear_spec hv.pagesOk
    exact Finset.eq_empty_of_forall_not_mem fun q hq => by simp [mem_liveSet hv'.pagesOk, hdead] at hq

/-- A pool of two-slot pages in which `10` and then `20` were reserved. -/
def twoReserved : PagingObjectPool Nat :=
  match (do
    let (pool, _) ← PagingObjectPool.reserve 2 10 2 init
    pool.reserve 2 20 2) with
  | .ok (pool, _) => pool
  | .error _ => init

theorem twoReserved_reachable : Reachable 2 twoReserved [⟨1, 1⟩, ⟨1, 0⟩] :=
  @Reachable.reserve Nat 2 _ _ _ 20 2 _ (@Reachable.reserve Nat 2 _ _ _ 10 2 _ .init rfl (by decide)) rfl (by decide)

/-- With two objects live, `Size()` is `2`; releasing the first destroys it, once, and leaves the second
live and not destroyed; `Clear` would destroy each of the two once. -/
theorem paging_single_thread_twoReserved :
    0 < 2 ∧ Reachable 2 twoReserved [⟨1, 1⟩, ⟨1, 0⟩] ∧ twoReserved.size = 2 ∧
      (∃ pool', twoReserved.release 2 ⟨1, 0⟩ = .ok (pool', true) ∧ liveSet 2 pool' = {⟨1, 1⟩} ∧
        pool'.destroyCount ⟨1, 0⟩ = 1 ∧ pool'.destroyCount ⟨1, 1⟩ = 0) ∧
      (twoReserved.clearDestroyed 2 3).count ⟨1, 0⟩ = 1 ∧ (twoReserved.clearDestroyed 2 3).count ⟨1, 1⟩ = 1 := by
  obtain ⟨hsize, -, hrel, -, -, hclear⟩ := paging_single_thread (by decide) 3 twoReserved_reachable
  have hlive : ⟨1, 0⟩ ∈ liveSet 2 twoReserved ∧ ⟨1, 1⟩ ∈ liveSet 2 twoReserved := by decide
  obtain ⟨pool', h, hset, -, hdes, -⟩ := hrel ⟨1, 0⟩ (by decide)
  refine ⟨by decide, twoReserved_reachable, by rw [hsize]; decide, ⟨pool', by simpa [hlive.1] using h, ?_, ?_, ?_⟩,
    by rw [hclear, if_pos hlive.1], by rw [hclear, if_pos hlive.2]⟩
  · rw [hset]; decide
  · rw [hdes, if_pos ⟨hlive.1, rfl⟩]; rfl
  · rw [hdes, if_neg fun h => absurd h.2 (by decide)]; rfl

/-- Every reachable state with `k ≤ 2^32` live objects, reserved one by one from a constructed pool of
`2^16`-slot pages, has no page to spare. -/
theorem reachable_reserve_many (k : Nat) (hk : k ≤ 2 ^ 32) :
    ∃ (pool : PagingObjectPool Nat) (returned : List PoolPtr), Reachable 65536 pool returned ∧
      liveCount 65536 pool = k ∧ pool.numPages * 65536 ≤ k + 65535 := by
  induction k with
  | zero => exact ⟨init, [], .init, by simp [init, liveCount], by simp [init]⟩
  | succ k ih =>
    obtain ⟨pool, returned, hr, hlive, hpages⟩ := ih (by omega)
    obtain ⟨hv, -, -⟩ := hr.valid (by decide)
    have hn : pool.numPages < cMaxPages := by simp only [cMaxPages, cTailPageIndex]; omega
    obtain ⟨pool', p, h, hres⟩ := reserve_terminates (by decide) hv hn 0 (le_refl 2)
    have hn' : pool'.numPages ≤ pool.numPages + 1 := by rcases hres.numPages_eq with h | h <;> omega
    refine ⟨pool', p :: returned, hr.reserve h (by simp only [cMaxPages, cTailPageIndex]; omega),
      by rw [hres.liveCount_eq, hlive], ?_⟩
    rcases hres.numPages_eq with h | ⟨h, hfull⟩ <;> omega

/-- Reserving `2^32` objects from a constructed pool of `2^16`-slot pages: all are live, and `Size()`
has wrapped to `0`. -/
theorem paging_size_wraps :
    ∃ (pool : PagingObjectPool Nat) (returned : List PoolPtr), Reachable 65536 pool returned ∧
      (liveSet 65536 pool).card = 2 ^ 32 ∧ pool.size = 0 := by
  obtain ⟨pool, returned, hr, hlive, -⟩ := reachable_reserve_many (2 ^ 32) le_rfl
  obtain ⟨⟨fl, hv⟩, -, -⟩ := hr.valid (by decide)
  refine ⟨pool, returned, hr, (card_liveSet hv.pagesOk).trans hlive, ?_⟩
  rw [size, hv.count_eq, hlive]
  rfl

/-- `Size()` wraps to `0` at `2^32` live objects, and a pointer `Reserve` returned before a `Clear` dangles:
its `Release` reads a deleted page. -/
theorem paging_size_wraps_release_dangles :
    (∃ (pool : PagingObjectPool Nat) (returned : List PoolPtr), Reachable 65536 pool returned ∧
      (liveSet 65536 pool).card = 2 ^ 32 ∧ pool.size = 0) ∧
    ∃ (pool : PagingObjectPool Nat) (returned : List PoolPtr), Reachable 2 pool returned ∧ ⟨1, 0⟩ ∈ returned ∧
      Reachable 2 pool.clear [] ∧ pool.clear.release 2 ⟨1, 0⟩ = .error .danglingPointer :=
  ⟨paging_size_wraps, twoReserved, _, twoReserved_reachable, by decide, twoReserved_reachable.clear, rfl⟩

/-! ## Preallocation -/

section Preallocation

variable (P) {pool pool' : PagingObjectPool T}

/-- A client's `Reserve` of each of `xs` in turn, each call's loop bounded by `fuel` turns. -/
def reserveEach (fuel : Nat) : PagingObjectPool T → List T → Except Fault (PagingObjectPool T)
  | pool, [] => pure pool
  | pool, x :: xs => do
    let (pool, _) ← pool.reserve P x fuel
    reserveEach fuel pool xs

theorem liveOf_le (i : Nat) : liveOf P pool i ≤ P := by
  unfold liveOf
  cases pool.dataOf (pool.pPageList i) with
  | none => exact Nat.zero_le _
  | some d => exact (Finset.card_filter_le _ _).trans (Finset.card_range P).le

theorem liveCount_le : liveCount P pool ≤ pool.numPages * P := by
  have h := Finset.sum_le_card_nsmul (Finset.range pool.numPages) (liveOf P pool) P fun i _ => liveOf_le P i
  simpa [liveCount] using h

theorem liveCount_eq_of_isLive (hp : PagesOk P pool) (hp' : PagesOk P pool') (h : pool'.isLive = pool.isLive) :
    liveCount P pool' = liveCount P pool := by
  rw [← card_liveSet hp, ← card_liveSet hp']
  congr 1
  ext q
  rw [mem_liveSet hp, mem_liveSet hp', h]

/-- `Reserve`s on a valid pool with room for their objects in its pages each take a slot in the first
turn of their loop, and allocate no page. -/
theorem reserveEach_of_room (fuel : Nat) :
    ∀ (xs : List T) {pool : PagingObjectPool T}, Valid P pool → liveCount P pool + xs.length ≤ pool.numPages * P →
      ∃ pool', reserveEach P (fuel + 1) pool xs = .ok pool' ∧ pool'.numPages = pool.numPages
  | [], pool, _, _ => ⟨pool, rfl, rfl⟩
  | x :: xs, pool, ⟨fl, hv⟩, hroom => by
    cases fl with
    | nil =>
      -- an empty free list means every page is full
      have := liveCount_of_nil hv
      simp only [List.length_cons] at hroom
      omega
    | cons i rest =>
      obtain ⟨pool1, p, hres, hr, hnum⟩ := reserve_cons hv x fuel
      obtain ⟨pool', hrun, hnum'⟩ := reserveEach_of_room fuel xs hr.valid
        (by rw [hr.liveCount_eq, hnum]; simp only [List.length_cons] at hroom; omega)
      exact ⟨pool', by simp only [reserveEach, hres, except_ok_bind, hrun], hnum'.trans hnum⟩

/-- `PreallocateSpace(numObjects)` does what it is for: on a valid pool with room for its pages, it adds
`⌈numObjects / P⌉` pages, and the next `numObjects` calls of `Reserve`, whatever they store, each take a
slot in the first turn of their loop and allocate no page. -/
theorem preallocateSpace_reserves (hP : 0 < P) (hv : Valid P pool) (numObjects : Nat)
    (hm : numObjects + P - 1 < 2 ^ 32) (hroom : pool.numPages + (numObjects + P - 1) / P ≤ cMaxPages) :
    ∃ pool1, pool.preallocateSpace P numObjects = .ok pool1 ∧
      pool1.numPages = pool.numPages + (numObjects + P - 1) / P ∧
      ∀ (xs : List T) (fuel : Nat), xs.length ≤ numObjects →
        ∃ pool2, reserveEach P (fuel + 1) pool1 xs = .ok pool2 ∧ pool2.numPages = pool1.numPages := by
  obtain ⟨fl, hv⟩ := hv
  obtain ⟨pool1, fl1, halloc, hv1, hnum, hlive, -⟩ := allocatePages_spec hP _ hv hroom
  refine ⟨pool1, by rw [preallocateSpace, Nat.mod_eq_of_lt hm]; exact halloc, hnum, fun xs fuel hxs => ?_⟩
  refine reserveEach_of_room P fuel xs ⟨fl1, hv1⟩ ?_
  -- the new pages have room for `numObjects` objects
  have hpages : numObjects ≤ (numObjects + P - 1) / P * P := by
    have := Nat.lt_div_mul_add (a := numObjects + P - 1) hP
    omega
  have hold : liveCount P pool ≤ pool.numPages * P := liveCount_le P
  rw [liveCount_eq_of_isLive P hv.pagesOk hv1.pagesOk hlive, hnum, Nat.add_mul]
  omega

theorem preallocateSpace_reserves_three :
    0 < 2 ∧ Valid 2 (init : PagingObjectPool Nat) ∧ 3 + 2 - 1 < 2 ^ 32 ∧
      (init : PagingObjectPool Nat).numPages + (3 + 2 - 1) / 2 ≤ cMaxPages ∧
      ∃ pool1, (init : PagingObjectPool Nat).preallocateSpace 2 3 = .ok pool1 ∧
        pool1.numPages = (init : PagingObjectPool Nat).numPages + (3 + 2 - 1) / 2 ∧
        ∀ (xs : List Nat) (fuel : Nat), xs.length ≤ 3 →
          ∃ pool2, reserveEach 2 (fuel + 1) pool1 xs = .ok pool2 ∧ pool2.numPages = pool1.numPages :=
  ⟨by decide, ⟨[], valid_init⟩, by decide, by decide,
    preallocateSpace_reserves 2 (by decide) ⟨[], valid_init⟩ 3 (by decide) (by decide)⟩

end Preallocation

end PagingObjectPool

end PklE.CoreTypes
