import ParallelHashMap.Pool.Sequential

/-!
# Walking the pools

`FixedSizeObjectPool::Iterator` (`fixedsize_object_pool.h`) stands on bit `bitIndex` of word `byteIndex` of
the allocation bitmap, the words being `2^b` bits wide (`c_bitIndexSize`, a divisor of `Size_T`). Its
`begin()` is the first allocated slot, its `end()` word `c_numBytesAllocatedBits`, bit `0`, and
`operator++` scans on to the next set bit. `PagingObjectPool::Iterator` (`paging_object_pool.h`) holds a
page index and the page's iterator and its end; the loop its constructor and `operator++` share moves past
pages whose walk is empty, up to the last page, whose end is the pool's `end()`. Two page iterators compare
their word and bit only, and two pool iterators their page index and page iterator.

`iterate` is the loop `for (it = begin(); it != end(); ++it) visit(*it)`, collecting what `*it` gives. The
model bounds each loop by a number of turns it never needs (`outOfFuel`, a limit of the model only).

A page iterator that stands on a slot is `atPos j`, the end being `atPos Size_T`; `operator++` from slot
`j` stands on the next allocated slot (`incrLoop_spec`). On a pool whose count is its bitmap's population,
the walk visits the allocated slots in increasing order (`FixedSizeObjectPool.iterate_eq`). A pool iterator
is `Canon` when it stands on an allocated slot or on the pool's end, with the list of what the walk has left
to visit; `begin()` is `Canon` for all the pool's live objects, `operator++` drops the first of them, and
so the pool's walk visits its live objects page by page, slot by slot (`PagingObjectPool.iterate_eq`).
-/

namespace PklE.CoreTypes

namespace FixedSizeObjectPool

/-- `FixedSizeObjectPool::Iterator`, without its pool pointer. -/
structure Iterator where
  byteIndex : Nat
  bitIndex : Nat
  deriving DecidableEq, Repr

variable {T : Type} (size b : Nat)

/-- A default-constructed page iterator, and `end()`: word `c_numBytesAllocatedBits`, bit `0`. -/
def endPos : Iterator := ⟨numBytes size b, 0⟩

/-- `operator++`'s do-while from word `byteIndex`, bit `bitIndex`, for at most `fuel` turns. Its `mask` is
`1 << bitIndex` throughout: `1` when the bit wraps to the next word, shifted once with each bit. -/
def incrLoop (pool : FixedSizeObjectPool T) : Nat → Iterator → Except Fault Iterator
  | 0, _ => throw .outOfFuel
  | fuel + 1, ⟨byteIndex, bitIndex⟩ =>
    if bitIndex + 1 = 2 ^ b then
      if byteIndex + 1 ≥ numBytes size b then pure ⟨byteIndex + 1, 0⟩
      else if bitmapWord pool.bAllocatedBits b (byteIndex + 1) &&& 1 = 0 then incrLoop pool fuel ⟨byteIndex + 1, 0⟩
      else pure ⟨byteIndex + 1, 0⟩
    else if bitmapWord pool.bAllocatedBits b byteIndex &&& (1 <<< (bitIndex + 1)) = 0 ∧
        byteIndex < numBytes size b then incrLoop pool fuel ⟨byteIndex, bitIndex + 1⟩
    else pure ⟨byteIndex, bitIndex + 1⟩

/-- `operator++`; its loop turns fewer than `size` times. -/
def incr (pool : FixedSizeObjectPool T) (it : Iterator) : Except Fault Iterator :=
  incrLoop size b pool size it

/-- `Iterator(pPool, index)`: `end()` on a pool with nothing allocated or from `index` past the last slot;
else slot `index`, moved on by `operator++` when bit `0` of its word (the mask is `1`) is clear. -/
def ofIndex (pool : FixedSizeObjectPool T) (index : Nat) : Except Fault Iterator :=
  if pool.numAllocated = 0 then pure (endPos size b)
  else if index ≥ size then pure (endPos size b)
  else
    let it : Iterator := ⟨index >>> b, index &&& (2 ^ b - 1)⟩
    if bitmapWord pool.bAllocatedBits b it.byteIndex &&& 1 > 0 then pure it else incr size b pool it

/-- `begin()`. -/
def beginIter (pool : FixedSizeObjectPool T) : Except Fault Iterator := ofIndex size b pool 0

/-- `end()`. -/
def endIter (pool : FixedSizeObjectPool T) : Except Fault Iterator := ofIndex size b pool size

/-- `LookupByIndex(index)`: the slot, where an object is allocated, else `nullptr`. -/
def lookupByIndex (pool : FixedSizeObjectPool T) (index : Nat) : Option Nat :=
  if index ≠ size ∧ index < size ∧ pool.isAllocated size index then some index else none

/-- `*it`: `LookupByIndex((byteIndex << log2) + bitIndex)`. -/
def deref (pool : FixedSizeObjectPool T) (it : Iterator) : Option Nat :=
  lookupByIndex size pool ((it.byteIndex <<< b) + it.bitIndex)

/-- The loop `for (; it != endIt; ++it) visit(*it)`, for at most `fuel` turns: what it visits. -/
def walk (pool : FixedSizeObjectPool T) (endIt : Iterator) : Nat → Iterator → Except Fault (List (Option Nat))
  | 0, _ => throw .outOfFuel
  | fuel + 1, it =>
    if it = endIt then pure []
    else do
      let rest ← walk pool endIt fuel (← incr size b pool it)
      pure (deref size b pool it :: rest)

/-- `for (it = begin(); it != end(); ++it) visit(*it)`. -/
def iterate (pool : FixedSizeObjectPool T) : Except Fault (List (Option Nat)) := do
  walk size b pool (← endIter size b pool) (size + 1) (← beginIter size b pool)

/-! ## Positions -/

/-- The page iterator on slot `j`: word `j / 2^b`, bit `j % 2^b`. -/
def atPos (j : Nat) : Iterator := ⟨j / 2 ^ b, j % 2 ^ b⟩

variable {size b}

theorem atPos_inj {i j : Nat} (h : atPos b i = atPos b j) : i = j := by
  simp only [atPos, Iterator.mk.injEq] at h
  rw [← Nat.div_add_mod' i (2 ^ b), ← Nat.div_add_mod' j (2 ^ b), h.1, h.2]

theorem div_mod_succ_of_lt {j : Nat} (h : j % 2 ^ b + 1 < 2 ^ b) :
    (j + 1) / 2 ^ b = j / 2 ^ b ∧ (j + 1) % 2 ^ b = j % 2 ^ b + 1 := by
  have hj := Nat.mod_add_div j (2 ^ b)
  exact (Nat.div_mod_unique (Nat.two_pow_pos b)).2 ⟨by omega, h⟩

theorem div_mod_succ_of_eq {j : Nat} (h : j % 2 ^ b + 1 = 2 ^ b) :
    (j + 1) / 2 ^ b = j / 2 ^ b + 1 ∧ (j + 1) % 2 ^ b = 0 := by
  have hj := Nat.mod_add_div j (2 ^ b)
  have hmul : 2 ^ b * (j / 2 ^ b + 1) = 2 ^ b * (j / 2 ^ b) + 2 ^ b := Nat.mul_succ _ _
  exact (Nat.div_mod_unique (Nat.two_pow_pos b)).2 ⟨by omega, Nat.two_pow_pos b⟩

/-- With words dividing the slots, the end is the position past the last slot. -/
theorem endPos_eq (hB : 2 ^ b ∣ size) : endPos size b = atPos b size := by
  simp only [endPos, numBytes, atPos, Nat.shiftRight_eq_div_pow, Nat.mod_eq_zero_of_dvd hB, if_true, Nat.add_zero]

theorem numBytes_eq (hB : 2 ^ b ∣ size) : numBytes size b = size / 2 ^ b := by
  simp only [numBytes, Nat.shiftRight_eq_div_pow, Nat.mod_eq_zero_of_dvd hB, if_true, Nat.add_zero]

/-- The word and bit the iterator on slot `j` tests is the bitmap's bit `j`. -/
theorem word_and_shiftLeft (bits j : Nat) :
    bitmapWord bits b (j / 2 ^ b) &&& (1 <<< (j % 2 ^ b)) = 0 ↔ bits.testBit j = false := by
  have h := and_shiftLeft_ne_zero (bitmapWord bits b (j / 2 ^ b)) (j % 2 ^ b)
  rw [testBit_bitmapWord _ (Nat.mod_lt _ (Nat.two_pow_pos b)), Nat.div_add_mod'] at h
  rw [← h]
  simp

theorem deref_atPos (pool : FixedSizeObjectPool T) {j : Nat} (hj : j < size) :
    deref size b pool (atPos b j) = if pool.bAllocatedBits.testBit j then some j else none := by
  have hpos : (j / 2 ^ b) <<< b + j % 2 ^ b = j := by
    rw [Nat.shiftLeft_eq, Nat.div_add_mod']
  simp only [deref, atPos, hpos, lookupByIndex, isAllocated_eq size pool hj, Nat.ne_of_lt hj, hj, ne_eq,
    not_false_eq_true, true_and]

/-! ## `operator++` -/

variable (size) in
/-- A scan from slot `j` on stops at `k`: the first allocated slot from `j` on, or the end `size`. -/
def Stop (pool : FixedSizeObjectPool T) (j k : Nat) : Prop :=
  j ≤ k ∧ k ≤ size ∧ (k < size → pool.bAllocatedBits.testBit k) ∧
    ∀ i, j ≤ i → i < k → pool.bAllocatedBits.testBit i = false

theorem stop_self {pool : FixedSizeObjectPool T} {j : Nat} (hj : j ≤ size)
    (h : j < size → pool.bAllocatedBits.testBit j) : Stop size pool j j :=
  ⟨le_rfl, hj, h, fun _ h1 h2 => absurd h2 (by omega)⟩

theorem Stop.of_clear {pool : FixedSizeObjectPool T} {j k : Nat} (h : Stop size pool (j + 1) k)
    (hclear : pool.bAllocatedBits.testBit j = false) : Stop size pool j k := by
  refine ⟨by have := h.1; omega, h.2.1, h.2.2.1, fun i h1 h2 => ?_⟩
  rcases Nat.lt_or_ge j i with hi | hi
  · exact h.2.2.2 i hi h2
  · rw [show i = j by omega]; exact hclear

/-- Slots that fail the test drop out of a filtered range. -/
theorem filter_range'_of_clear {p : Nat → Bool} {n : Nat} :
    ∀ (d j : Nat), j + d ≤ n → (∀ i, j ≤ i → i < j + d → p i = false) →
      (List.range' j (n - j)).filter p = (List.range' (j + d) (n - (j + d))).filter p
  | 0, _, _, _ => rfl
  | d + 1, j, hle, h => by
    rw [show n - j = n - (j + 1) + 1 by omega, List.range'_succ,
      List.filter_cons_of_neg (by simp [h j le_rfl (by omega)]), show j + (d + 1) = j + 1 + d by omega]
    exact filter_range'_of_clear d (j + 1) (by omega) fun i h1 h2 => h i (by omega) (by omega)

/-- Slots the scan passes drop out of the walk's remaining slots. -/
theorem Stop.filter_eq {pool : FixedSizeObjectPool T} {j k : Nat} (h : Stop size pool j k) :
    (List.range' j (size - j)).filter (pool.bAllocatedBits.testBit ·) =
      (List.range' k (size - k)).filter (pool.bAllocatedBits.testBit ·) := by
  obtain ⟨d, rfl⟩ : ∃ d, k = j + d := ⟨k - j, by have := h.1; omega⟩
  exact filter_range'_of_clear d j h.2.1 h.2.2.2

/-- One turn of `operator++`'s loop past slot `j`, the last slot of the last word: the end. -/
theorem incrLoop_last (hB : 2 ^ b ∣ size) (pool : FixedSizeObjectPool T) (fuel : Nat) {j : Nat}
    (hj : j + 1 = size) : incrLoop size b pool (fuel + 1) (atPos b j) = pure (atPos b (j + 1)) := by
  have hpos := Nat.two_pow_pos b
  have hsize : size % 2 ^ b = 0 := Nat.mod_eq_zero_of_dvd hB
  have hwrap : j % 2 ^ b + 1 = 2 ^ b := by
    have := Nat.mod_lt j hpos
    have := Nat.mod_add_div j (2 ^ b)
    have := Nat.mod_add_div size (2 ^ b)
    have hmod : (j + 1) % 2 ^ b = 0 := hj ▸ hsize
    by_contra hne
    rw [(div_mod_succ_of_lt (lt_of_le_of_ne (by omega) hne)).2] at hmod
    omega
  obtain ⟨hq, hr⟩ := div_mod_succ_of_eq hwrap
  simp only [atPos, incrLoop, hwrap, if_true, numBytes_eq hB, ← hq, hj, le_refl, hr, hsize]

/-- One turn of `operator++`'s loop past slot `j`, before the last slot: it stops on slot `j + 1` if that
is allocated, else turns again from there. -/
theorem incrLoop_succ (hB : 2 ^ b ∣ size) (pool : FixedSizeObjectPool T) (fuel : Nat) {j : Nat}
    (hj : j + 1 < size) : incrLoop size b pool (fuel + 1) (atPos b j) =
      if pool.bAllocatedBits.testBit (j + 1) then pure (atPos b (j + 1))
      else incrLoop size b pool fuel (atPos b (j + 1)) := by
  have hpos := Nat.two_pow_pos b
  have hbit := word_and_shiftLeft (b := b) pool.bAllocatedBits (j + 1)
  have hq1 : (j + 1) / 2 ^ b < size / 2 ^ b := Nat.div_lt_div_of_lt_of_dvd hB hj
  by_cases hwrap : j % 2 ^ b + 1 = 2 ^ b
  · obtain ⟨hq, hr⟩ := div_mod_succ_of_eq hwrap
    rw [hq, hr, Nat.shiftLeft_zero] at hbit
    rw [hq] at hq1
    simp only [atPos, incrLoop, hwrap, if_true, numBytes_eq hB, hq, hr, if_neg (Nat.not_le.2 hq1)]
    by_cases hset : pool.bAllocatedBits.testBit (j + 1)
    · rw [if_neg (fun h => by simp [hbit.1 h] at hset), if_pos hset]
    · rw [if_pos (hbit.2 (by simpa using hset)), if_neg hset]
  · obtain ⟨hq, hr⟩ := div_mod_succ_of_lt (lt_of_le_of_ne (Nat.mod_lt j hpos) hwrap)
    rw [hq, hr] at hbit
    rw [hq] at hq1
    simp only [atPos, incrLoop, hwrap, if_false, numBytes_eq hB, hq, hr, hq1, and_true]
    by_cases hset : pool.bAllocatedBits.testBit (j + 1)
    · rw [if_neg (fun h => by simp [hbit.1 h] at hset), if_pos hset]
    · rw [if_pos (hbit.2 (by simpa using hset)), if_neg hset]

/-- From slot `j`, `operator++` stands on the next allocated slot, or on the end. -/
theorem incrLoop_spec (hB : 2 ^ b ∣ size) (pool : FixedSizeObjectPool T) :
    ∀ (fuel j : Nat), j < size → size - j ≤ fuel →
      ∃ k, Stop size pool (j + 1) k ∧ incrLoop size b pool fuel (atPos b j) = pure (atPos b k)
  | 0, j, hj, hfuel => absurd hfuel (by omega)
  | fuel + 1, j, hj, hfuel => by
    rcases Nat.lt_or_ge (j + 1) size with hlt | hge
    · rw [incrLoop_succ hB pool fuel hlt]
      by_cases hset : pool.bAllocatedBits.testBit (j + 1)
      · exact ⟨j + 1, stop_self hlt.le fun _ => hset, by rw [if_pos hset]⟩
      · obtain ⟨k, hk, h⟩ := incrLoop_spec hB pool fuel (j + 1) hlt (by omega)
        exact ⟨k, hk.of_clear (by simpa using hset), by rw [if_neg hset, h]⟩
    · exact ⟨j + 1, stop_self (by omega) fun h => absurd h (by omega), incrLoop_last hB pool fuel (by omega)⟩

/-! ## The walk -/

/-- `begin()` stands on the first allocated slot, or on the end: with nothing allocated the count is `0`. -/
theorem beginIter_spec (hB : 2 ^ b ∣ size) {pool : FixedSizeObjectPool T}
    (hcount : pool.numAllocated = (allocatedSet size pool).card) :
    ∃ k, Stop size pool 0 k ∧ beginIter size b pool = pure (atPos b k) := by
  by_cases h0 : pool.numAllocated = 0
  · have hclear : ∀ i < size, pool.bAllocatedBits.testBit i = false := fun i hi => by
      rw [hcount, Finset.card_eq_zero] at h0
      by_contra hset
      have : i ∈ allocatedSet size pool := Finset.mem_filter.2 ⟨Finset.mem_range.2 hi, by simpa using hset⟩
      simp [h0] at this
    refine ⟨size, ⟨Nat.zero_le _, le_rfl, fun h => absurd h (lt_irrefl _), fun i _ hi => hclear i hi⟩, ?_⟩
    simp only [beginIter, ofIndex, h0, if_true, endPos_eq hB]
  · have hpos : 0 < size := by
      rcases Nat.eq_zero_or_pos size with h | h
      · simp [hcount, h, allocatedSet] at h0
      · exact h
    have hbit := word_and_shiftLeft (b := b) pool.bAllocatedBits 0
    simp only [Nat.zero_div, Nat.zero_mod, Nat.shiftLeft_zero] at hbit
    have hit : atPos b 0 = ⟨0, 0⟩ := by simp [atPos]
    simp only [beginIter, ofIndex, h0, if_false, Nat.not_le.2 hpos, Nat.zero_shiftRight, Nat.zero_and]
    by_cases hset : pool.bAllocatedBits.testBit 0
    · refine ⟨0, stop_self (Nat.zero_le _) fun _ => hset, ?_⟩
      rw [if_pos (Nat.pos_of_ne_zero fun h => Bool.false_ne_true ((hbit.1 h).symm.trans hset)), hit]
    · obtain ⟨k, hk, h⟩ := incrLoop_spec hB pool size 0 hpos (by omega)
      refine ⟨k, hk.of_clear (by simpa using hset), ?_⟩
      rw [if_neg (by rw [hbit.2 (by simpa using hset)]; exact lt_irrefl 0), ← hit]
      exact h

/-- `end()` is the end. -/
theorem endIter_eq (hB : 2 ^ b ∣ size) (pool : FixedSizeObjectPool T) :
    endIter size b pool = pure (atPos b size) := by
  simp only [endIter, ofIndex, le_refl, if_true, ite_self, endPos_eq hB]

/-- The walk from the slot where a scan from `j` stops visits the allocated slots from `j` on. -/
theorem walk_spec (hB : 2 ^ b ∣ size) (pool : FixedSizeObjectPool T) :
    ∀ (n j k fuel : Nat), size - j = n → Stop size pool j k →
      ((List.range' j (size - j)).filter (pool.bAllocatedBits.testBit ·)).length < fuel →
      walk size b pool (atPos b size) fuel (atPos b k) =
        pure (((List.range' j (size - j)).filter (pool.bAllocatedBits.testBit ·)).map some)
  | _, _, _, 0, _, _, hfuel => absurd hfuel (Nat.not_lt_zero _)
  | n, j, k, fuel + 1, hn, hk, hfuel => by
    rw [hk.filter_eq] at hfuel ⊢
    rcases Nat.lt_or_ge k size with hlt | hge
    · -- slot `k` is visited, and the walk goes on from the next stop
      have hset := hk.2.2.1 hlt
      have hcons : (List.range' k (size - k)).filter (pool.bAllocatedBits.testBit ·) =
          k :: (List.range' (k + 1) (size - (k + 1))).filter (pool.bAllocatedBits.testBit ·) := by
        rw [show size - k = size - (k + 1) + 1 by omega, List.range'_succ, List.filter_cons, if_pos hset]
      obtain ⟨k', hk', hincr⟩ := incrLoop_spec hB pool size k hlt (by omega)
      rw [hcons] at hfuel ⊢
      have hrest := walk_spec hB pool (size - (k + 1)) (k + 1) k' fuel rfl hk' (by simpa using hfuel)
      have hne : atPos b k ≠ atPos b size := fun h => absurd (atPos_inj h) (Nat.ne_of_lt hlt)
      simp only [walk, if_neg hne, incr, hincr, pure_bind, hrest, deref_atPos pool hlt, if_pos hset,
        List.map_cons]
    · have hks : k = size := le_antisymm hk.2.1 hge
      subst hks
      simp only [walk, if_true, Nat.sub_self, List.range'_zero, List.filter_nil, List.map_nil]

/-- The walk `begin()`..`end()` over a pool whose count is its bitmap's population visits exactly the
allocated slots, in increasing order. -/
theorem iterate_eq (hB : 2 ^ b ∣ size) {pool : FixedSizeObjectPool T}
    (hcount : pool.numAllocated = (allocatedSet size pool).card) :
    iterate size b pool = pure ((allocatedSlots size pool).map some) := by
  obtain ⟨k, hk, hbegin⟩ := beginIter_spec hB hcount
  have hlen : ((List.range' 0 (size - 0)).filter (pool.bAllocatedBits.testBit ·)).length < size + 1 :=
    Nat.lt_succ_of_le ((List.length_filter_le _ _).trans (by simp))
  simp only [iterate, endIter_eq hB, hbegin, pure_bind, walk_spec hB pool size 0 k (size + 1) rfl hk hlen,
    allocatedSlots, List.range_eq_range', Nat.sub_zero]

end FixedSizeObjectPool

namespace PagingObjectPool

open FixedSizeObjectPool (atPos atPos_inj Stop)

/-- `PagingObjectPool::Iterator`, without its pool pointer. -/
structure Iterator where
  pageIndex : Nat
  currPageIterator : FixedSizeObjectPool.Iterator
  endPageIterator : FixedSizeObjectPool.Iterator
  deriving DecidableEq, Repr

variable {T : Type} (P b : Nat)

/-- The loop the constructor and `operator++` share, for at most `fuel` turns: while the page iterator is
at its page's end and a page follows, go to the next page's `begin()` and `end()`. -/
def skipEmptyPages (pool : PagingObjectPool T) : Nat → Iterator → Except Fault Iterator
  | 0, _ => throw .outOfFuel
  | fuel + 1, it =>
    if it.currPageIterator = it.endPageIterator then
      if it.pageIndex < pool.numPages - 1 then do
        let page ← pool.readPage (pool.pPageList (it.pageIndex + 1))
        let curr ← page.data.beginIter P b
        let endIt ← page.data.endIter P b
        skipEmptyPages pool fuel ⟨it.pageIndex + 1, curr, endIt⟩
      else pure it
    else pure it

/-- `Iterator(pPool, pageIndex)`. Past the last page it is the last page's end, or, with no page, page `0`
with default-constructed page iterators. -/
def ofPage (pool : PagingObjectPool T) (pageIndex : Nat) : Except Fault Iterator :=
  if pageIndex < pool.numPages then do
    let page ← pool.readPage (pool.pPageList pageIndex)
    let curr ← page.data.beginIter P b
    let endIt ← page.data.endIter P b
    skipEmptyPages P b pool pool.numPages ⟨pageIndex, curr, endIt⟩
  else if pool.numPages = 0 then
    pure ⟨0, FixedSizeObjectPool.endPos P b, FixedSizeObjectPool.endPos P b⟩
  else do
    let page ← pool.readPage (pool.pPageList (pool.numPages - 1))
    let endIt ← page.data.endIter P b
    pure ⟨pool.numPages - 1, endIt, endIt⟩

/-- `begin()`. -/
def beginIter (pool : PagingObjectPool T) : Except Fault Iterator := ofPage P b pool 0

/-- `end()`: `begin()` with no page, else the last page's end. -/
def endIter (pool : PagingObjectPool T) : Except Fault Iterator :=
  if pool.numPages = 0 then beginIter P b pool
  else do
    let it ← ofPage P b pool (pool.numPages - 1)
    pure { it with currPageIterator := it.endPageIterator }

/-- `operator++`. -/
def incr (pool : PagingObjectPool T) (it : Iterator) : Except Fault Iterator := do
  let page ← pool.readPage (pool.pPageList it.pageIndex)
  let curr ← page.data.incr P b it.currPageIterator
  skipEmptyPages P b pool pool.numPages { it with currPageIterator := curr }

/-- `*it`: the page iterator's object, as a pointer into its page, or `nullptr`. -/
def deref (pool : PagingObjectPool T) (it : Iterator) : Except Fault (Option PoolPtr) := do
  let page ← pool.readPage (pool.pPageList it.pageIndex)
  pure ((page.data.deref P b it.currPageIterator).map (PoolPtr.mk (pool.pPageList it.pageIndex)))

/-- The loop `for (; it != endIt; ++it) visit(*it)`, for at most `fuel` turns: what it visits. -/
def walk (pool : PagingObjectPool T) (endIt : Iterator) : Nat → Iterator → Except Fault (List (Option PoolPtr))
  | 0, _ => throw .outOfFuel
  | fuel + 1, it =>
    if it.pageIndex = endIt.pageIndex ∧ it.currPageIterator = endIt.currPageIterator then pure []
    else do
      let p ← deref P b pool it
      let rest ← walk pool endIt fuel (← incr P b pool it)
      pure (p :: rest)

/-- `for (it = begin(); it != end(); ++it) visit(*it)`; the pool has fewer than `numPages * P + 1` objects. -/
def iterate (pool : PagingObjectPool T) : Except Fault (List (Option PoolPtr)) := do
  walk P b pool (← endIter P b pool) (pool.numPages * P + 1) (← beginIter P b pool)

/-- The live objects of the page at index `i` as (page index, slot) pairs. -/
def pageIndices (pool : PagingObjectPool T) (i : Nat) : List (Nat × Nat) :=
  ((pool.dataOf (pool.pPageList i)).map fun d => (FixedSizeObjectPool.allocatedSlots P d).map (i, ·)).getD []

/-- The live objects as (page index, slot) pairs, page by page and slot by slot. -/
def liveIndices (pool : PagingObjectPool T) : List (Nat × Nat) :=
  (List.range pool.numPages).flatMap (pageIndices P pool)

/-- What the walk reads of a pool: each listed page exists and its count is its bitmap's population, and no
page is listed twice. -/
structure Walkable (pool : PagingObjectPool T) : Prop where
  page_ok : ∀ i < pool.numPages, ∃ page, pool.page i = some page ∧
    page.data.numAllocated = (FixedSizeObjectPool.allocatedSet P page.data).card
  inj : ∀ i < pool.numPages, ∀ j < pool.numPages, pool.pPageList i = pool.pPageList j → i = j

/-- A pool its calls keep valid is walkable. -/
theorem PagesOk.walkable {pool : PagingObjectPool T} (hp : PagesOk P pool) : Walkable P pool where
  page_ok i hi := by
    obtain ⟨page, hpg, hok⟩ := hp.page_ok i hi
    exact ⟨page, hpg, hok.valid.numAllocated_eq⟩
  inj i hi j hj h := hp.inj hi hj h

/-- What a walk standing on slot `j` of page `k`, read as `page`, has left to visit: the page's allocated
slots from `j` on, then the live objects of the pages after it. -/
def remaining (pool : PagingObjectPool T) (k : Nat) (page : Page T) (j : Nat) : List PoolPtr :=
  ((List.range' j (P - j)).filter (page.data.bAllocatedBits.testBit ·)).map (PoolPtr.mk (pool.pPageList k)) ++
    (List.range' (k + 1) (pool.numPages - (k + 1))).flatMap (pageLive P pool)

/-- The iterator stands on page `k`, read as `page`, at slot `j`: an allocated slot, or the end of the last
page. `L` is what the walk has left to visit. -/
def Canon (pool : PagingObjectPool T) (it : Iterator) (L : List PoolPtr) : Prop :=
  ∃ k j page, k < pool.numPages ∧ pool.page k = some page ∧ it = ⟨k, atPos b j, atPos b P⟩ ∧
    (j < P ∧ page.data.bAllocatedBits.testBit j ∨ j = P ∧ k + 1 = pool.numPages) ∧ L = remaining P pool k page j

/-! ## What is left to visit -/

variable {P b} {pool : PagingObjectPool T}

theorem readPage_page {k : Nat} {page : Page T} (h : pool.page k = some page) :
    pool.readPage (pool.pPageList k) = .ok page := by
  simp only [readPage, show pool.pages (pool.pPageList k) = some page from h]

theorem pageLive_eq {k : Nat} {page : Page T} (h : pool.page k = some page) :
    pageLive P pool k = ((List.range' 0 (P - 0)).filter (page.data.bAllocatedBits.testBit ·)).map
      (PoolPtr.mk (pool.pPageList k)) := by
  simp [pageLive, dataOf, show pool.pages (pool.pPageList k) = some page from h,
    FixedSizeObjectPool.allocatedSlots, List.range_eq_range']

theorem remaining_cons {k j : Nat} {page : Page T} (hj : j < P) (hset : page.data.bAllocatedBits.testBit j) :
    remaining P pool k page j = ⟨pool.pPageList k, j⟩ :: remaining P pool k page (j + 1) := by
  rw [remaining, show P - j = P - (j + 1) + 1 by omega, List.range'_succ, List.filter_cons_of_pos hset]
  rfl

theorem remaining_last {k : Nat} {page : Page T} (hk : k + 1 = pool.numPages) : remaining P pool k page P = [] := by
  simp [remaining, hk]

/-- Past the end of page `k` what is left is the next page's walk from its first slot. -/
theorem remaining_next {k : Nat} {page page' : Page T} (hk : k + 1 < pool.numPages)
    (h' : pool.page (k + 1) = some page') : remaining P pool k page P = remaining P pool (k + 1) page' 0 := by
  rw [remaining, remaining, Nat.sub_self, List.range'_zero, List.filter_nil, List.map_nil, List.nil_append,
    show pool.numPages - (k + 1) = pool.numPages - (k + 1 + 1) + 1 by omega, List.range'_succ, List.flatMap_cons,
    pageLive_eq h']

/-- Slots a scan passes are not left to visit. -/
theorem remaining_eq_of_stop {k j j' : Nat} {page : Page T} (h : Stop P page.data j j') :
    remaining P pool k page j = remaining P pool k page j' := by
  rw [remaining, remaining, h.filter_eq]

theorem liveList_eq_remaining {page : Page T} (hpos : 0 < pool.numPages) (h : pool.page 0 = some page) :
    liveList P pool = remaining P pool 0 page 0 := by
  obtain ⟨n, hn⟩ : ∃ n, pool.numPages = n + 1 := ⟨_, (Nat.succ_pred_eq_of_pos hpos).symm⟩
  simp only [liveList, remaining, List.range_eq_range', hn, List.range'_succ, List.flatMap_cons, pageLive_eq h,
    Nat.add_sub_cancel]

/-! ## The pool's walk -/

/-- A listed page's `begin()` stands where a scan from its slot `0` stops, and its `end()` past its last slot. -/
theorem Walkable.page_iters (hB : 2 ^ b ∣ P) (hw : Walkable P pool) {k : Nat} (hk : k < pool.numPages) :
    ∃ page m, pool.page k = some page ∧ Stop P page.data 0 m ∧ page.data.beginIter P b = pure (atPos b m) ∧
      page.data.endIter P b = pure (atPos b P) := by
  obtain ⟨page, hpg, hcount⟩ := hw.page_ok k hk
  obtain ⟨m, hm, hbegin⟩ := FixedSizeObjectPool.beginIter_spec hB hcount
  exact ⟨page, m, hpg, hm, hbegin, FixedSizeObjectPool.endIter_eq hB page.data⟩

/-- Left on page `k` where a scan from slot `j` stops, the loop past empty pages stands the iterator on what
is left from `j`. -/
theorem skipEmptyPages_spec (hB : 2 ^ b ∣ P) (hw : Walkable P pool) :
    ∀ (fuel k : Nat) (page : Page T) (j j' : Nat), k < pool.numPages → pool.page k = some page →
      Stop P page.data j j' → pool.numPages - k ≤ fuel →
      ∃ it, skipEmptyPages P b pool fuel ⟨k, atPos b j', atPos b P⟩ = pure it ∧
        Canon P b pool it (remaining P pool k page j)
  | 0, k, _, _, _, hk, _, _, hfuel => absurd hfuel (by omega)
  | fuel + 1, k, page, j, j', hk, hpg, hstop, hfuel => by
    rw [remaining_eq_of_stop hstop]
    rcases Nat.lt_or_ge j' P with hlt | hge
    · -- the page iterator stands on an allocated slot
      have hne : atPos b j' ≠ atPos b P := fun h => absurd (atPos_inj h) (Nat.ne_of_lt hlt)
      exact ⟨_, by simp only [skipEmptyPages, if_neg hne], k, j', page, hk, hpg, rfl,
        .inl ⟨hlt, hstop.2.2.1 hlt⟩, rfl⟩
    · rw [show j' = P from le_antisymm hstop.2.1 hge]
      by_cases hnext : k < pool.numPages - 1
      · -- on to the next page's first allocated slot
        obtain ⟨page', m, hpg', hm, hbegin, hend⟩ := hw.page_iters hB (k := k + 1) (by omega)
        obtain ⟨it, hit, hcanon⟩ := skipEmptyPages_spec hB hw fuel (k + 1) page' 0 m (by omega) hpg' hm (by omega)
        refine ⟨it, ?_, by rwa [remaining_next (by omega) hpg']⟩
        simp only [skipEmptyPages, if_true, if_pos hnext, readPage_page hpg', except_ok_bind, hbegin, hend,
          pure_bind, hit]
      · -- the last page's end
        exact ⟨_, by simp only [skipEmptyPages, if_true, if_neg hnext], k, P, page, hk, hpg, rfl,
          .inr ⟨rfl, by omega⟩, rfl⟩

theorem skipEmptyPages_last {fuel : Nat} (hfuel : 0 < fuel) (it : Iterator) (h : it.pageIndex + 1 = pool.numPages) :
    skipEmptyPages P b pool fuel it = pure it := by
  obtain ⟨fuel, rfl⟩ : ∃ f, fuel = f + 1 := ⟨fuel - 1, by omega⟩
  simp only [skipEmptyPages, if_neg (show ¬it.pageIndex < pool.numPages - 1 by omega), ite_self]

/-- `begin()` on a pool with pages stands on the walk of all its live objects. -/
theorem beginIter_canon (hB : 2 ^ b ∣ P) (hw : Walkable P pool) (hpos : 0 < pool.numPages) :
    ∃ it, beginIter P b pool = pure it ∧ Canon P b pool it (liveList P pool) := by
  obtain ⟨page, m, hpg, hm, hbegin, hend⟩ := hw.page_iters hB hpos
  obtain ⟨it, hit, hcanon⟩ := skipEmptyPages_spec hB hw pool.numPages 0 page 0 m hpos hpg hm (by omega)
  refine ⟨it, ?_, by rwa [liveList_eq_remaining hpos hpg]⟩
  simp only [beginIter, ofPage, if_pos hpos, readPage_page hpg, except_ok_bind, hbegin, hend, pure_bind, hit]

/-- `end()` on a pool with pages is the last page's end. -/
theorem endIter_eq (hB : 2 ^ b ∣ P) (hw : Walkable P pool) (hpos : 0 < pool.numPages) :
    endIter P b pool = pure ⟨pool.numPages - 1, atPos b P, atPos b P⟩ := by
  obtain ⟨page, m, hpg, -, hbegin, hend⟩ := hw.page_iters hB (k := pool.numPages - 1) (by omega)
  simp only [endIter, Nat.pos_iff_ne_zero.1 hpos, if_false, ofPage, show pool.numPages - 1 < pool.numPages by omega,
    if_true, readPage_page hpg, except_ok_bind, hbegin, hend, pure_bind,
    skipEmptyPages_last hpos ⟨pool.numPages - 1, atPos b m, atPos b P⟩
      (show pool.numPages - 1 + 1 = pool.numPages by omega)]

/-- On an iterator with `p` and then `L` left to visit, `it != end()`, `*it` is `p`, and `operator++` stands on
`L`. -/
theorem Canon.step (hB : 2 ^ b ∣ P) (hw : Walkable P pool) {it : Iterator} {p : PoolPtr} {L : List PoolPtr}
    (h : Canon P b pool it (p :: L)) : it.currPageIterator ≠ atPos b P ∧ deref P b pool it = pure (some p) ∧
      ∃ it', incr P b pool it = pure it' ∧ Canon P b pool it' L := by
  obtain ⟨k, j, page, hk, hpg, rfl, hpos, hL⟩ := h
  rcases hpos with ⟨hj, hset⟩ | ⟨hjP, hlast⟩
  · rw [remaining_cons hj hset, List.cons.injEq] at hL
    obtain ⟨rfl, rfl⟩ := hL
    obtain ⟨j', hj', hincr⟩ := FixedSizeObjectPool.incrLoop_spec hB page.data P j hj (by omega)
    obtain ⟨it', hit', hcanon⟩ := skipEmptyPages_spec hB hw pool.numPages k page (j + 1) j' hk hpg hj' (by omega)
    refine ⟨fun h => absurd (atPos_inj h) (Nat.ne_of_lt hj), ?_, it', ?_, hcanon⟩
    · simp only [deref, readPage_page hpg, except_ok_bind, FixedSizeObjectPool.deref_atPos page.data hj, if_pos hset]
      rfl
    · simp only [incr, readPage_page hpg, except_ok_bind, FixedSizeObjectPool.incr, hincr, pure_bind]
      exact hit'
  · rw [hjP, remaining_last hlast] at hL
    exact absurd hL (List.cons_ne_nil p L)

/-- An iterator with nothing left to visit is `end()`. -/
theorem Canon.nil {it : Iterator} (h : Canon P b pool it []) : it = ⟨pool.numPages - 1, atPos b P, atPos b P⟩ := by
  obtain ⟨k, j, page, hk, hpg, rfl, hpos, hL⟩ := h
  rcases hpos with ⟨hj, hset⟩ | ⟨hjP, hlast⟩
  · rw [remaining_cons hj hset] at hL
    exact absurd hL.symm (List.cons_ne_nil _ _)
  · rw [hjP, show k = pool.numPages - 1 by omega]

/-- From an iterator with `L` left to visit, the walk to `end()` visits `L`. -/
theorem walk_canon (hB : 2 ^ b ∣ P) (hw : Walkable P pool) :
    ∀ (L : List PoolPtr) (it : Iterator) (fuel : Nat), Canon P b pool it L → L.length < fuel →
      walk P b pool ⟨pool.numPages - 1, atPos b P, atPos b P⟩ fuel it = pure (L.map some)
  | _, _, 0, _, hfuel => absurd hfuel (Nat.not_lt_zero _)
  | [], _, fuel + 1, h, _ => by simp only [h.nil, walk, and_self, if_true, List.map_nil]
  | p :: L, it, fuel + 1, h, hfuel => by
    obtain ⟨hne, hderef, it', hincr, h'⟩ := h.step hB hw
    simp only [walk, hne, and_false, if_false, hderef, hincr, pure_bind,
      walk_canon hB hw L it' fuel h' (by simpa using hfuel), List.map_cons]

theorem length_pageLive_le (i : Nat) : (pageLive P pool i).length ≤ P := by
  unfold pageLive
  cases pool.dataOf (pool.pPageList i) with
  | none => exact Nat.zero_le _
  | some d => simpa [FixedSizeObjectPool.allocatedSlots] using List.length_filter_le _ (List.range P)

theorem length_liveList_le : (liveList P pool).length ≤ pool.numPages * P := by
  suffices ∀ n, ((List.range n).flatMap (pageLive P pool)).length ≤ n * P from this _
  intro n
  induction n with
  | zero => simp
  | succ n ih =>
    rw [List.range_succ, List.flatMap_append, List.length_append, Nat.succ_mul]
    simpa using Nat.add_le_add ih (length_pageLive_le n)

/-- The walk `begin()`..`end()` over a walkable pool visits its live objects, page by page in the page
list's order and slot by slot. -/
theorem iterate_eq (hB : 2 ^ b ∣ P) (hw : Walkable P pool) :
    iterate P b pool = pure ((liveList P pool).map some) := by
  rcases Nat.eq_zero_or_pos pool.numPages with h0 | hpos
  · simp [iterate, endIter, beginIter, ofPage, h0, walk, liveList]
  · obtain ⟨it, hbegin, hcanon⟩ := beginIter_canon hB hw hpos
    simp only [iterate, endIter_eq hB hw hpos, hbegin, pure_bind]
    exact walk_canon hB hw _ it _ hcanon (Nat.lt_succ_of_le length_liveList_le)

/-! ## The live objects, in order, each once -/

/-- The walk's list is the live objects' (page index, slot) pairs, as pointers. -/
theorem liveList_eq_map_liveIndices :
    liveList P pool = (liveIndices P pool).map fun x => ⟨pool.pPageList x.1, x.2⟩ := by
  rw [liveList, liveIndices, List.map_flatMap]
  refine List.flatMap_congr fun i _ => ?_
  unfold pageLive pageIndices
  cases pool.dataOf (pool.pPageList i) <;> simp

theorem fst_of_mem_pageIndices {i : Nat} {x : Nat × Nat} (h : x ∈ pageIndices P pool i) : x.1 = i := by
  unfold pageIndices at h
  cases hd : pool.dataOf (pool.pPageList i) <;> simp only [hd, Option.map_none', Option.getD_none,
    Option.map_some', Option.getD_some, List.not_mem_nil, List.mem_map] at h
  obtain ⟨_, _, rfl⟩ := h
  rfl

/-- The pairs increase: by page index, and by slot within a page. -/
theorem liveIndices_sorted : (liveIndices P pool).Pairwise (Prod.Lex (· < ·) (· < ·)) := by
  refine List.pairwise_flatMap.2 ⟨fun i _ => ?_, (List.pairwise_lt_range _).imp fun hij x hx y hy => ?_⟩
  · unfold pageIndices
    cases pool.dataOf (pool.pPageList i) with
    | none => exact List.Pairwise.nil
    | some d => exact ((List.pairwise_lt_range P).filter _).map _ fun _ _ h => Prod.Lex.right _ h
  · obtain ⟨x1, x2⟩ := x
    obtain ⟨y1, y2⟩ := y
    cases fst_of_mem_pageIndices hx
    cases fst_of_mem_pageIndices hy
    exact Prod.Lex.left _ _ hij

theorem Valid.walkable (hv : Valid P pool) : Walkable P pool :=
  let ⟨_, hvw⟩ := hv
  hvw.pagesOk.walkable

end PagingObjectPool

end PklE.CoreTypes
