import ParallelHashMap.Pool.FixedSize

/-!
# The paging object pool

`PagingObjectPool<T, PageSize_T>` (`paging_object_pool.h`): pages of `PageSize_T` slots, each a
`FixedSizeObjectPool` of nodes that remember their page's index, a page list `pPageList`, a count of
live objects, and a lock-free list of pages with free space whose head `freeListHeadIndex` packs a
rolling counter, the head's successor and the head page into one 64-bit word.

This module is the code as it runs on one thread. Every compare-exchange then succeeds on its first
try, and a retry loop whose test fails without anything changing (an invalid index in
`PushPageToFreeList`, a head successor marked invalid in `PopPageFromFreeList`) runs forever, which is
the fault `diverges`. `Reserve`'s own loop takes a fuel bound (`outOfFuel`, a limit of the model only).

Memory is explicit where the code can reach freed or unconstructed storage: `Page` objects live at
addresses (`0` is `nullptr`) and `Clear` deletes them, so a pointer from before a `Clear` dangles; a
pointer names a page's address and a slot. The page list's growth is kept as the capacity arithmetic:
its entries below `numPages` are the only ones read.
-/

namespace PklE.CoreTypes

/-- Undefined behaviour and non-termination of the modelled code. -/
inductive Fault
  /-- A null pointer is dereferenced. -/
  | nullDereference
  /-- An array is indexed past its end. -/
  | outOfBounds
  /-- Storage of a deleted object is read. -/
  | danglingPointer
  /-- Storage where no object was ever constructed is read. -/
  | uninitializedMemory
  /-- A retry loop whose exit test can no longer pass. -/
  | diverges
  /-- The model's bound on `Reserve`'s loop ran out. -/
  | outOfFuel
  deriving DecidableEq, Repr

@[simp] theorem except_ok_bind {α β : Type} (a : α) (f : α → Except Fault β) :
    (Except.ok a >>= f) = f a := rfl

@[simp] theorem except_error_bind {α β : Type} (e : Fault) (f : α → Except Fault β) :
    (Except.error e >>= f) = Except.error e := rfl

theorem except_bind_eq_ok {α β : Type} {x : Except Fault α} {f : α → Except Fault β} {b : β} :
    (x >>= f) = .ok b ↔ ∃ a, x = .ok a ∧ f a = .ok b := by
  cases x with
  | error e => exact ⟨fun h => (by cases h), fun ⟨_, h, _⟩ => by cases h⟩
  | ok a => exact ⟨fun h => ⟨a, rfl, h⟩, fun ⟨_, h, h'⟩ => (by cases h; exact h')⟩

theorem except_map_eq_ok {α β : Type} {f : α → β} {x : Except Fault α} {b : β} (h : f <$> x = .ok b) :
    ∃ a, x = .ok a ∧ f a = b := by
  cases x with
  | error e => cases h
  | ok a => exact ⟨a, rfl, Except.ok.inj h⟩

/-- A property that every step of a `foldlM` keeps holds of its result. -/
theorem foldlM_invariant {α β : Type} {f : β → α → Except Fault β} (Q : β → Prop)
    (hstep : ∀ b a b', Q b → f b a = .ok b' → Q b') :
    ∀ (l : List α) {b r : β}, Q b → l.foldlM f b = .ok r → Q r
  | [], _, _, hb, h => by cases h; exact hb
  | a :: l, _, _, hb, h => by
    simp only [List.foldlM_cons, except_bind_eq_ok] at h
    obtain ⟨b1, h1, h⟩ := h
    exact foldlM_invariant Q hstep l (hstep _ a b1 hb h1) h

/-- `c_InvalidPageIndex`: the page is not on the free list. -/
def cInvalidPageIndex : Nat := 0x0FFFFFFF
/-- `c_TailPageIndex`: the end of the free list. -/
def cTailPageIndex : Nat := 0x0FFFFFFE
/-- `c_SwappingPageIndex`: a push of the page is in progress. -/
def cSwappingPageIndex : Nat := 0x0FFFFFFD
/-- `c_MaxPages`. -/
def cMaxPages : Nat := cTailPageIndex - 1

def cBitIndexHeadPageIndex : Nat := 0
def cBitIndexHeadNextIndex : Nat := 28
def cBitIndexHeadCounter : Nat := 56
def cHeadPageIndexMask : Nat := 0x0FFFFFFF <<< cBitIndexHeadPageIndex
def cHeadNextIndexMask : Nat := 0x0FFFFFFF <<< cBitIndexHeadNextIndex
def cHeadCounterMask : Nat := 0xFF <<< cBitIndexHeadCounter

/-- The head word's page field. -/
def headPageIndex (w : Nat) : Nat := (w &&& cHeadPageIndexMask) >>> cBitIndexHeadPageIndex
/-- The head word's cached successor. -/
def headNextIndex (w : Nat) : Nat := (w &&& cHeadNextIndexMask) >>> cBitIndexHeadNextIndex
/-- The head word's rolling counter. -/
def headCounter (w : Nat) : Nat := (w &&& cHeadCounterMask) >>> cBitIndexHeadCounter
/-- A head word from its three fields. -/
def packHead (counter next page : Nat) : Nat :=
  (counter <<< cBitIndexHeadCounter) ||| (next <<< cBitIndexHeadNextIndex) ||| page

/-- `c_emptyFreeListHeadIndex`. -/
def cEmptyFreeListHeadIndex : Nat :=
  (cTailPageIndex <<< cBitIndexHeadNextIndex) ||| cTailPageIndex

/-- `T*` into the pool: the address of the page and the slot in its node array. -/
structure PoolPtr where
  page : Nat
  slot : Nat
  deriving DecidableEq, Repr

/-- The pool's `Node`: the object and the index of its page. -/
structure PagingNode (T : Type) where
  data : T
  pageIndex : Nat

/-- The pool's `Page`. -/
structure Page (T : Type) where
  data : FixedSizeObjectPool (PagingNode T)
  pageIndex : Nat
  nextFreeIndex : Nat

/-- `PagingObjectPool<T, PageSize_T>`, with the `Page` objects by address (`nextAddress` is where the
next one is allocated). -/
@[ext] structure PagingObjectPool (T : Type) where
  pages : Nat → Option (Page T)
  nextAddress : Nat
  pPageList : Nat → Nat
  numPages : Nat
  pageCapacity : Nat
  count : Nat
  freeListHeadIndex : Nat

namespace PagingObjectPool

variable {T : Type} (pageSize : Nat)

/-- The constructed pool. -/
def init : PagingObjectPool T :=
  ⟨fun _ => none, 1, fun _ => 0, 0, 0, 0, cEmptyFreeListHeadIndex⟩

/-- `*pPage`. -/
def readPage (pool : PagingObjectPool T) (pPage : Nat) : Except Fault (Page T) :=
  match pool.pages pPage with
  | some page => .ok page
  | none => .error (if pPage = 0 then .nullDereference else .danglingPointer)

/-- `*pPage = page`. -/
def setPage (pool : PagingObjectPool T) (pPage : Nat) (page : Page T) : PagingObjectPool T :=
  { pool with pages := Function.update pool.pages pPage (some page) }

/-- The node a pointer points to. -/
def readNode (pool : PagingObjectPool T) (p : PoolPtr) : Except Fault (PagingNode T) := do
  let page ← pool.readPage p.page
  if p.slot < pageSize then
    match page.data.nodes p.slot with
    | some node => pure node
    | none => throw .uninitializedMemory
  else throw .outOfBounds

/-- A write through a pointer: `f` applied to the object it points to. -/
def modifyNode (pool : PagingObjectPool T) (p : PoolPtr) (f : T → T) : Except Fault (PagingObjectPool T) := do
  let page ← pool.readPage p.page
  if p.slot < pageSize then
    match page.data.nodes p.slot with
    | some node => pure (pool.setPage p.page { page with data := { page.data with
        nodes := Function.update page.data.nodes p.slot (some { node with data := f node.data }) } })
    | none => throw .uninitializedMemory
  else throw .outOfBounds

/-- `PushPageToFreeList(pPage)`. -/
def pushPageToFreeList (pool : PagingObjectPool T) (pPage : Nat) : Except Fault (PagingObjectPool T) :=
  if pPage = 0 then pure pool else do
  let page ← pool.readPage pPage
  -- the compare-exchange from `c_InvalidPageIndex` to `c_SwappingPageIndex` decides whether to push
  if page.nextFreeIndex = cInvalidPageIndex then
    let currFreeListHeadIndex := pool.freeListHeadIndex
    let currFreeListHeadPageIndex := headPageIndex currFreeListHeadIndex
    let currCounter := headCounter currFreeListHeadIndex
    let nextHeadPageIndex := page.pageIndex
    let nextHeadNextIndex := currFreeListHeadPageIndex
    let nextCounter := (currCounter + 1) % 2 ^ 8
    if nextHeadPageIndex < pool.numPages ∧
        (nextHeadNextIndex < pool.numPages ∨ nextHeadNextIndex = cTailPageIndex) then
      pure { pool.setPage pPage { page with nextFreeIndex := currFreeListHeadPageIndex } with
        freeListHeadIndex := packHead nextCounter nextHeadNextIndex nextHeadPageIndex }
    else throw .diverges
  else pure pool

/-- `PopPageFromFreeList()`: the popped page's address, `0` when the list is empty. -/
def popPageFromFreeList (pool : PagingObjectPool T) : Except Fault (PagingObjectPool T × Nat) :=
  let currFreeListHeadIndex := pool.freeListHeadIndex
  let currFreeListHeadPageIndex := headPageIndex currFreeListHeadIndex
  let currFreeListHeadNextIndex := headNextIndex currFreeListHeadIndex
  let currCounter := headCounter currFreeListHeadIndex
  if currFreeListHeadPageIndex < pool.numPages then do
    let pNextPage := if currFreeListHeadNextIndex < pool.numPages then
      pool.pPageList currFreeListHeadNextIndex else 0
    let nextHeadNextIndex ← if pNextPage = 0 then pure cTailPageIndex else
      (·.nextFreeIndex) <$> pool.readPage pNextPage
    if nextHeadNextIndex ≠ cInvalidPageIndex ∧ nextHeadNextIndex ≠ cSwappingPageIndex then
      let pool := { pool with
        freeListHeadIndex := packHead ((currCounter + 1) % 2 ^ 8) nextHeadNextIndex currFreeListHeadNextIndex }
      let pPoppedPage := pool.pPageList currFreeListHeadPageIndex
      let page ← pool.readPage pPoppedPage
      pure (pool.setPage pPoppedPage { page with nextFreeIndex := cInvalidPageIndex }, pPoppedPage)
    else throw .diverges
  else if currFreeListHeadPageIndex = cTailPageIndex then pure (pool, 0)
  else throw .diverges

/-- `AllocateNewPage()` up to its push: the new page is constructed at the next address, off the free list,
and entered in the page list, which grows when it is full. The pool and the new page's address. -/
def addPage (pool : PagingObjectPool T) : PagingObjectPool T × Nat :=
  let pNewPage := pool.nextAddress
  let newNumPages := (pool.numPages + 1) % 2 ^ 32
  let pageCapacity :=
    if newNumPages > pool.pageCapacity then
      let newPageCapacity := if pool.pageCapacity = 0 then 4 else (pool.pageCapacity * 2) % 2 ^ 32
      if newPageCapacity < newNumPages then (newNumPages * 2) % 2 ^ 32 else newPageCapacity
    else pool.pageCapacity
  let newPageIndex := (newNumPages + 2 ^ 32 - 1) % 2 ^ 32
  ({ pool with
      pages := Function.update pool.pages pNewPage
        (some ⟨FixedSizeObjectPool.empty, newPageIndex, cInvalidPageIndex⟩)
      nextAddress := pNewPage + 1
      numPages := newNumPages
      pageCapacity := pageCapacity
      pPageList := Function.update pool.pPageList newPageIndex pNewPage }, pNewPage)

/-- `AllocateNewPage()`: the new page's address. -/
def allocateNewPage (pool : PagingObjectPool T) : Except Fault (PagingObjectPool T × Nat) :=
  (·, pool.addPage.2) <$> pool.addPage.1.pushPageToFreeList pool.addPage.2

/-- `PreallocateSpace`'s loop: `n` more pages. -/
def allocatePages : Nat → PagingObjectPool T → Except Fault (PagingObjectPool T)
  | 0, pool => pure pool
  | n + 1, pool => do
    let (pool, _) ← pool.allocateNewPage
    allocatePages n pool

/-- `PreallocateSpace(numObjects)`. -/
def preallocateSpace (pool : PagingObjectPool T) (numObjects : Nat) : Except Fault (PagingObjectPool T) :=
  allocatePages (((numObjects + pageSize - 1) % 2 ^ 32) / pageSize) pool

/-- The body of `Reserve`'s loop once a page is popped, up to its test of `IsFull`: reserve in the page,
record the page index in the node, and count the object. `none` when the page had no free slot, else the
pointer and whether the page still has one. -/
def takeFromPage (pool : PagingObjectPool T) (pPageWithSpace : Nat) (x : T) :
    Except Fault (PagingObjectPool T × Option (PoolPtr × Bool)) := do
  let page ← pool.readPage pPageWithSpace
  match page.data.reserve pageSize ⟨x, 0⟩ with
  | (data, none) => pure (pool.setPage pPageWithSpace { page with data := data }, none)
  | (data, some i) =>
    let data := { data with
      nodes := Function.update data.nodes i ((data.nodes i).map ({ · with pageIndex := page.pageIndex })) }
    let pool := { pool.setPage pPageWithSpace { page with data := data } with
      count := (pool.count + 1) % 2 ^ 32 }
    pure (pool, some (⟨pPageWithSpace, i⟩, !data.isFull pageSize))

/-- The body of `Reserve`'s loop once a page is popped: `takeFromPage`, then the page goes back on the
free list unless it is full. -/
def reserveInPage (pool : PagingObjectPool T) (pPageWithSpace : Nat) (x : T) :
    Except Fault (PagingObjectPool T × Option PoolPtr) := do
  match ← pool.takeFromPage pageSize pPageWithSpace x with
  | (pool, none) => pure (pool, none)
  | (pool, some (p, true)) => (·, some p) <$> pool.pushPageToFreeList pPageWithSpace
  | (pool, some (p, false)) => pure (pool, some p)

/-- `Reserve(args...)`, where `x` is the object the arguments construct, with at most `fuel` turns of its
loop. -/
def reserve (x : T) : Nat → PagingObjectPool T → Except Fault (PagingObjectPool T × PoolPtr)
  | 0, _ => throw .outOfFuel
  | fuel + 1, pool => do
    let (pool, pPageWithSpace) ← pool.popPageFromFreeList
    if pPageWithSpace = 0 then
      let (pool, _) ← pool.allocateNewPage
      reserve x fuel pool
    else
      match ← pool.reserveInPage pageSize pPageWithSpace x with
      | (pool, some p) => pure (pool, p)
      | (pool, none) => reserve x fuel pool

/-- `Release(pObject)` up to its push: the node's recorded page index selects the page, whose own `Release`
checks that the pointer lies in it (`GetIndex`). The pool, the page to push back (`none` when the index is
past the page list) and whether the object was released. -/
def releaseInPage (pool : PagingObjectPool T) (pObject : PoolPtr) :
    Except Fault (PagingObjectPool T × Option Nat × Bool) := do
  let node ← pool.readNode pageSize pObject
  let pageIndex := node.pageIndex
  if pageIndex < pool.numPages then
    let pPage := pool.pPageList pageIndex
    let page ← pool.readPage pPage
    let nodeIndex := if pObject.page = pPage ∧ pObject.slot < pageSize then pObject.slot else pageSize
    let (data, bReleased) := page.data.release pageSize nodeIndex
    let pool := { pool.setPage pPage { page with data := data } with
      count := if bReleased then (pool.count + 2 ^ 32 - 1) % 2 ^ 32 else pool.count }
    pure (pool, some pPage, bReleased)
  else pure (pool, none, false)

/-- `Release(pObject)`: the page is pushed back whether or not the object was released. -/
def release (pool : PagingObjectPool T) (pObject : PoolPtr) : Except Fault (PagingObjectPool T × Bool) := do
  match ← pool.releaseInPage pageSize pObject with
  | (pool, some pPage, bReleased) => (·, bReleased) <$> pool.pushPageToFreeList pPage
  | (pool, none, bReleased) => pure (pool, bReleased)

/-- `Clear()`: every page in the list is deleted. -/
def clear (pool : PagingObjectPool T) : PagingObjectPool T :=
  { pool with
    pages := fun a => if (List.range pool.numPages).any (pool.pPageList · == a) then none else pool.pages a
    pPageList := fun _ => 0
    numPages := 0
    pageCapacity := 0
    freeListHeadIndex := cEmptyFreeListHeadIndex
    count := 0 }

/-- The objects `Clear()` destroys, in order: `DeleteAligned` runs each listed page's
`~FixedSizeObjectPool`, for bitmap words of `2^b` bits. -/
def clearDestroyed (b : Nat) (pool : PagingObjectPool T) : List PoolPtr :=
  (List.range pool.numPages).flatMap fun i =>
    ((pool.pages (pool.pPageList i)).map fun page =>
      (page.data.destructor pageSize b).map (PoolPtr.mk (pool.pPageList i))).getD []

/-- `Size()`. -/
def size (pool : PagingObjectPool T) : Nat := pool.count

end PagingObjectPool

end PklE.CoreTypes
