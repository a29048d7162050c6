import Mathlib.Algebra.BigOperators.Ring
import Mathlib.Algebra.Order.BigOperators.Group.Finset
import Mathlib.Data.Fintype.Card
import Mathlib.Data.Nat.Bitwise
import Mathlib.Data.Finmap

/-!
# The fixed-size object pool

`FixedSizeObjectPool<T, Size_T>` (`fixedsize_object_pool.h`): `Size_T` node slots, the allocation bitmap
`bAllocatedBits`, the counter `numAllocated` and the scan cursor `cachedIteratorIndex`.

The bitmap is an array of words of `ByteType` (`sized_byte_type.h`, which is not among the sources). Slot
`i` is bit `FastModBitIndexSize(i)` of word `FastDivBitIndexSize(i)`, that is bit `i` of the words read as
one little-endian number, and that number is what is kept here: `SetAllocated` ORs in `1 << i`,
`SetDeallocated` ANDs with its complement, `IsAllocated` tests the bit. `bitmapWord` reads a word back
out of the number, and `slot_eq_iff` puts slot `i` at bit `i & (2^b - 1)` of word `i >> b`.

`Valid` is the pool's invariant: `numAllocated` counts the set bits, no bit beyond `Size_T` is set, the
cursor stays in range and every allocated slot holds a constructed object. `reserve_spec` says what
`Reserve` does from a valid pool that is not full: it allocates a slot that was free (the first free one
from the cursor on, cyclically). `release_spec` says `Release` frees exactly an allocated slot.
`reserve_release_bitmap` states both calls from any bitmap whose count is its population, word by word.
-/

namespace PklE.CoreTypes

/-- `FixedSizeObjectPool<T, Size_T>`. `nodes` is the node storage: `none` where no object was ever
constructed; a destroyed object's bytes stay in its slot. `destroyed` records the slots `Util::Destroy` ran
on, oldest first: the destructor calls the code makes, which it does not itself keep. -/
structure FixedSizeObjectPool (T : Type) where
  nodes : Nat → Option T
  numAllocated : Nat
  bAllocatedBits : Nat
  cachedIteratorIndex : Nat
  destroyed : List Nat

namespace FixedSizeObjectPool

variable {T : Type} (size : Nat)

/-- The pool as constructed. -/
def empty : FixedSizeObjectPool T := ⟨fun _ => none, 0, 0, 0, []⟩

/-- `Util::Destroy(nodes[i].data)`: the object's destructor runs, and its bytes stay. -/
def destroy (pool : FixedSizeObjectPool T) (i : Nat) : FixedSizeObjectPool T :=
  { pool with destroyed := pool.destroyed ++ [i] }

/-- `IsAllocated`: `size` is `c_InvalidIndex`. -/
def isAllocated (pool : FixedSizeObjectPool T) (nodeIndex : Nat) : Bool :=
  nodeIndex != size && (pool.bAllocatedBits &&& (1 <<< nodeIndex)) != 0

/-- `SetAllocated`: the atomic OR returns the previous bits. -/
def setAllocated (pool : FixedSizeObjectPool T) (nodeIndex : Nat) : FixedSizeObjectPool T × Bool :=
  if nodeIndex < size then
    let mask := 1 <<< nodeIndex
    let prevValue := pool.bAllocatedBits
    ({ pool with bAllocatedBits := prevValue ||| mask }, (prevValue &&& mask) == 0)
  else (pool, false)

/-- `SetDeallocated`: `mask` is `~(1 << bit)` across the bitmap, and `prevVal & ~mask` tests the bit. -/
def setDeallocated (pool : FixedSizeObjectPool T) (nodeIndex : Nat) : FixedSizeObjectPool T × Bool :=
  if nodeIndex < size then
    let mask := (2 ^ size - 1) ^^^ (1 <<< nodeIndex)
    let prevVal := pool.bAllocatedBits
    ({ pool with bAllocatedBits := prevVal &&& mask }, (prevVal &&& (1 <<< nodeIndex)) != 0)
  else (pool, false)

/-- `IsFull`. -/
def isFull (pool : FixedSizeObjectPool T) : Bool := pool.numAllocated == size

/-- The loop of `Reserve`: `i` iterations are left, the cursor is `currentIndex`. A successful
`SetAllocated` moves the cursor past the slot, constructs the object and counts it. -/
def reserveLoop (x : T) : Nat → Nat → FixedSizeObjectPool T → FixedSizeObjectPool T × Option Nat
  | 0, _, pool => (pool, none)
  | i + 1, currentIndex, pool =>
    let currentIndex := if currentIndex ≥ size then 0 else currentIndex
    if pool.numAllocated ≥ size then (pool, none)
    else if !pool.isAllocated size currentIndex then
      match pool.setAllocated size currentIndex with
      | (pool, true) =>
        ({ pool with
            cachedIteratorIndex := currentIndex + 1
            nodes := Function.update pool.nodes currentIndex (some x)
            numAllocated := pool.numAllocated + 1 }, some currentIndex)
      | (pool, false) => reserveLoop x i (currentIndex + 1) pool
    else reserveLoop x i (currentIndex + 1) pool

/-- `Reserve(args...)`, where `x` is the object the arguments construct; the slot index, or `none` for
`nullptr`. -/
def reserve (pool : FixedSizeObjectPool T) (x : T) : FixedSizeObjectPool T × Option Nat :=
  reserveLoop size x size pool.cachedIteratorIndex pool

/-- `Release`, given the `GetIndex` of the pointer (`size`, the invalid index, for a pointer outside the
node array). -/
def release (pool : FixedSizeObjectPool T) (nodeIndex : Nat) : FixedSizeObjectPool T × Bool :=
  if nodeIndex < size then
    if pool.isAllocated size nodeIndex then
      match (pool.destroy nodeIndex).setDeallocated size nodeIndex with
      | (pool, true) => ({ pool with numAllocated := pool.numAllocated - 1 }, true)
      | (pool, false) => (pool, false)
    else (pool, false)
  else (pool, false)

/-- The pool after slot `i` is allocated to `x`: the state a successful `Reserve` leaves. -/
def allocate (pool : FixedSizeObjectPool T) (i : Nat) (x : T) : FixedSizeObjectPool T :=
  { nodes := Function.update pool.nodes i (some x)
    numAllocated := pool.numAllocated + 1
    bAllocatedBits := pool.bAllocatedBits ||| (1 <<< i)
    cachedIteratorIndex := i + 1
    destroyed := pool.destroyed }

/-- The pool after slot `i` is freed: the state a successful `Release` leaves, its object destroyed. -/
def free (pool : FixedSizeObjectPool T) (i : Nat) : FixedSizeObjectPool T :=
  { pool with
    numAllocated := pool.numAllocated - 1
    bAllocatedBits := pool.bAllocatedBits &&& ((2 ^ size - 1) ^^^ (1 <<< i))
    destroyed := pool.destroyed ++ [i] }

/-! ## The bitmap read bit by bit -/

/-- The slots whose bit is set. -/
def allocatedSet (pool : FixedSizeObjectPool T) : Finset Nat :=
  (Finset.range size).filter (pool.bAllocatedBits.testBit ·)

theorem and_shiftLeft_ne_zero (x i : Nat) : ((x &&& (1 <<< i)) != 0) = x.testBit i := by
  rw [Nat.one_shiftLeft, Nat.and_two_pow]
  cases x.testBit i <;> simp [Nat.two_pow_pos]

theorem isAllocated_eq (pool : FixedSizeObjectPool T) {i : Nat} (hi : i < size) :
    pool.isAllocated size i = pool.bAllocatedBits.testBit i := by
  simp [isAllocated, and_shiftLeft_ne_zero, Nat.ne_of_lt hi]

theorem testBit_or_shiftLeft (x i j : Nat) : (x ||| (1 <<< i)).testBit j = (x.testBit j || decide (i = j)) := by
  rw [Nat.testBit_or, Nat.one_shiftLeft, Nat.testBit_two_pow]

theorem testBit_and_mask {i : Nat} (hi : i < size) (x j : Nat) :
    (x &&& ((2 ^ size - 1) ^^^ (1 <<< i))).testBit j = (x.testBit j && decide (j < size) && !decide (i = j)) := by
  rw [Nat.testBit_and, Nat.testBit_xor, Nat.one_shiftLeft, Nat.testBit_two_pow, Nat.testBit_two_pow_sub_one]
  by_cases hij : i = j
  · subst hij; simp [hi]
  · simp [hij, Bool.and_assoc]

/-! ## The bitmap read word by word -/

/-- Word `w` of the bitmap, `bAllocatedBits[w]`, when it is stored as words of `2^b` bits: the words are
the number's digits in base `2^(2^b)`. -/
def bitmapWord (bits b w : Nat) : Nat := (bits >>> (w * 2 ^ b)) % 2 ^ (2 ^ b)

/-- Bit `k` of word `w` is the bit of slot `w * 2^b + k`. -/
theorem testBit_bitmapWord (bits : Nat) {b k : Nat} (hk : k < 2 ^ b) (w : Nat) :
    (bitmapWord bits b w).testBit k = bits.testBit (w * 2 ^ b + k) := by
  simp [bitmapWord, Nat.testBit_mod_two_pow, Nat.testBit_shiftRight, hk]

/-- The pool's invariant. -/
structure Valid (pool : FixedSizeObjectPool T) : Prop where
  numAllocated_eq : pool.numAllocated = (allocatedSet size pool).card
  bits_lt : pool.bAllocatedBits < 2 ^ size
  cached_le : pool.cachedIteratorIndex ≤ size
  constructed : ∀ i, pool.bAllocatedBits.testBit i → (pool.nodes i).isSome

theorem valid_empty : Valid size (empty : FixedSizeObjectPool T) :=
  ⟨by simp [empty, allocatedSet], Nat.two_pow_pos _, Nat.zero_le _, by simp [empty]⟩

variable {size}

/-- A bitmap of `size` bits has its set bits below `size`. -/
theorem lt_of_testBit {bits : Nat} (hbits : bits < 2 ^ size) {i : Nat} (hi : bits.testBit i) : i < size :=
  (Nat.pow_lt_pow_iff_right (by decide)).1 (lt_of_le_of_lt (Nat.testBit_implies_ge hi) hbits)

theorem Valid.lt_of_testBit {pool : FixedSizeObjectPool T} (hv : Valid size pool) {i : Nat}
    (hi : pool.bAllocatedBits.testBit i) : i < size :=
  FixedSizeObjectPool.lt_of_testBit hv.bits_lt hi

theorem Valid.numAllocated_le {pool : FixedSizeObjectPool T} (hv : Valid size pool) :
    pool.numAllocated ≤ size := by
  rw [hv.numAllocated_eq]
  exact (Finset.card_filter_le _ _).trans (Finset.card_range _).le

/-- A bitmap whose population is below its size has a clear bit. -/
theorem exists_free_of_card {pool : FixedSizeObjectPool T} (h : (allocatedSet size pool).card < size) :
    ∃ i < size, pool.bAllocatedBits.testBit i = false := by
  by_contra hall
  push_neg at hall
  have : allocatedSet size pool = Finset.range size :=
    Finset.filter_true_of_mem fun i hi => Bool.not_eq_false _ ▸ hall i (Finset.mem_range.1 hi)
  rw [this, Finset.card_range] at h
  exact lt_irrefl _ h

/-- A bitmap whose population is its size has every bit set. -/
theorem testBit_of_card {pool : FixedSizeObjectPool T} (h : size ≤ (allocatedSet size pool).card) :
    ∀ i < size, pool.bAllocatedBits.testBit i := by
  have hle : (allocatedSet size pool).card ≤ (Finset.range size).card := Finset.card_filter_le _ _
  have heq : allocatedSet size pool = Finset.range size :=
    Finset.eq_of_subset_of_card_le (Finset.filter_subset _ _) (by simpa using h)
  intro i hi
  have hmem : i ∈ allocatedSet size pool := heq ▸ Finset.mem_range.2 hi
  exact (Finset.mem_filter.1 hmem).2

/-- A bitmap with a clear bit in range has a population below its size. -/
theorem card_lt_of_clear {pool : FixedSizeObjectPool T} {i : Nat} (hi : i < size)
    (h : pool.bAllocatedBits.testBit i = false) : (allocatedSet size pool).card < size :=
  Nat.lt_of_not_le fun hle => absurd (testBit_of_card hle i hi) (by simp [h])

/-- A pool whose count is below its size has a free slot. -/
theorem Valid.exists_free {pool : FixedSizeObjectPool T} (hv : Valid size pool) (h : pool.numAllocated < size) :
    ∃ i < size, pool.bAllocatedBits.testBit i = false :=
  exists_free_of_card (hv.numAllocated_eq ▸ h)

@[simp] theorem allocate_testBit (pool : FixedSizeObjectPool T) (i j : Nat) (x : T) :
    (pool.allocate i x).bAllocatedBits.testBit j = (pool.bAllocatedBits.testBit j || decide (i = j)) :=
  testBit_or_shiftLeft _ _ _

@[simp] theorem allocate_nodes (pool : FixedSizeObjectPool T) (i : Nat) (x : T) :
    (pool.allocate i x).nodes = Function.update pool.nodes i (some x) := rfl

@[simp] theorem allocate_numAllocated (pool : FixedSizeObjectPool T) (i : Nat) (x : T) :
    (pool.allocate i x).numAllocated = pool.numAllocated + 1 := rfl

theorem free_testBit (pool : FixedSizeObjectPool T) {i : Nat} (hi : i < size) (j : Nat) :
    (pool.free size i).bAllocatedBits.testBit j =
      (pool.bAllocatedBits.testBit j && decide (j < size) && !decide (i = j)) :=
  testBit_and_mask _ hi _ _

/-- On a bitmap of `size` bits, freeing slot `i` clears exactly bit `i`. -/
theorem free_testBit_of_lt {pool : FixedSizeObjectPool T} (hbits : pool.bAllocatedBits < 2 ^ size) {i : Nat}
    (hi : i < size) (j : Nat) :
    (pool.free size i).bAllocatedBits.testBit j = (pool.bAllocatedBits.testBit j && decide (j ≠ i)) := by
  rw [free_testBit _ hi]
  cases hb : pool.bAllocatedBits.testBit j
  · rfl
  · simp [lt_of_testBit hbits hb, eq_comm]

@[simp] theorem destroy_nodes (pool : FixedSizeObjectPool T) (i : Nat) : (pool.destroy i).nodes = pool.nodes := rfl
@[simp] theorem destroy_numAllocated (pool : FixedSizeObjectPool T) (i : Nat) :
    (pool.destroy i).numAllocated = pool.numAllocated := rfl
@[simp] theorem destroy_bAllocatedBits (pool : FixedSizeObjectPool T) (i : Nat) :
    (pool.destroy i).bAllocatedBits = pool.bAllocatedBits := rfl
@[simp] theorem destroy_cachedIteratorIndex (pool : FixedSizeObjectPool T) (i : Nat) :
    (pool.destroy i).cachedIteratorIndex = pool.cachedIteratorIndex := rfl
@[simp] theorem destroy_destroyed (pool : FixedSizeObjectPool T) (i : Nat) :
    (pool.destroy i).destroyed = pool.destroyed ++ [i] := rfl

@[simp] theorem free_nodes (pool : FixedSizeObjectPool T) (i : Nat) :
    (pool.free size i).nodes = pool.nodes := rfl

@[simp] theorem free_numAllocated (pool : FixedSizeObjectPool T) (i : Nat) :
    (pool.free size i).numAllocated = pool.numAllocated - 1 := rfl

@[simp] theorem free_destroyed (pool : FixedSizeObjectPool T) (i : Nat) :
    (pool.free size i).destroyed = pool.destroyed ++ [i] := rfl

theorem allocatedSet_allocate (pool : FixedSizeObjectPool T) {i : Nat} (hi : i < size) (x : T) :
    allocatedSet size (pool.allocate i x) = insert i (allocatedSet size pool) := by
  ext j
  simp only [allocatedSet, Finset.mem_filter, Finset.mem_range, Finset.mem_insert, allocate_testBit,
    Bool.or_eq_true, decide_eq_true_eq]
  constructor
  · rintro ⟨hj, h | rfl⟩ <;> simp_all
  · rintro (rfl | ⟨hj, h⟩) <;> simp_all

theorem allocatedSet_free (pool : FixedSizeObjectPool T) {i : Nat} (hi : i < size) :
    allocatedSet size (pool.free size i) = (allocatedSet size pool).erase i := by
  ext j
  simp only [allocatedSet, Finset.mem_filter, Finset.mem_range, Finset.mem_erase, free_testBit _ hi,
    Bool.and_eq_true, Bool.not_eq_true', decide_eq_false_iff_not, decide_eq_true_eq]
  tauto

theorem card_allocate {pool : FixedSizeObjectPool T} {i : Nat} (hi : i < size)
    (hfree : pool.bAllocatedBits.testBit i = false) (x : T) :
    (allocatedSet size (pool.allocate i x)).card = (allocatedSet size pool).card + 1 := by
  rw [allocatedSet_allocate pool hi, Finset.card_insert_of_not_mem (by simp [allocatedSet, hfree])]

theorem card_free {pool : FixedSizeObjectPool T} {i : Nat} (hi : i < size)
    (halloc : pool.bAllocatedBits.testBit i = true) :
    (allocatedSet size (pool.free size i)).card = (allocatedSet size pool).card - 1 := by
  rw [allocatedSet_free _ hi, Finset.card_erase_of_mem (by simp [allocatedSet, hi, halloc])]

theorem Valid.allocate {pool : FixedSizeObjectPool T} (hv : Valid size pool) {i : Nat} (hi : i < size)
    (hfree : pool.bAllocatedBits.testBit i = false) (x : T) : Valid size (pool.allocate i x) where
  numAllocated_eq := by rw [allocate_numAllocated, card_allocate hi hfree, hv.numAllocated_eq]
  bits_lt := Nat.or_lt_two_pow hv.bits_lt (by rw [Nat.one_shiftLeft]; exact Nat.pow_lt_pow_right (by decide) hi)
  cached_le := hi
  constructed j hj := by
    by_cases hij : i = j
    · subst hij; simp
    · simp only [allocate_testBit, hij, decide_False, Bool.or_false] at hj
      simpa [Function.update_noteq (Ne.symm hij)] using hv.constructed j hj

theorem Valid.free {pool : FixedSizeObjectPool T} (hv : Valid size pool) {i : Nat}
    (halloc : pool.bAllocatedBits.testBit i = true) : Valid size (pool.free size i) where
  numAllocated_eq := by rw [free_numAllocated, card_free (hv.lt_of_testBit halloc) halloc, hv.numAllocated_eq]
  bits_lt := lt_of_le_of_lt Nat.and_le_left hv.bits_lt
  cached_le := hv.cached_le
  constructed j hj := by
    simp only [free_testBit _ (hv.lt_of_testBit halloc), Bool.and_eq_true] at hj
    exact hv.constructed j hj.1.1

/-! ## `Reserve` and `Release` -/

/-- The loop of `Reserve` from a cursor in range: either it allocates the first free slot among the next
`k` cyclically, every slot before it being taken, or all of them are taken and it leaves the pool as it was. -/
theorem reserveLoop_first {pool : FixedSizeObjectPool T} (hn : pool.numAllocated < size)
    (x : T) (k : Nat) {c : Nat} (hc : c ≤ size) :
    (∃ j < k, pool.bAllocatedBits.testBit ((c + j) % size) = false ∧
      (∀ j' < j, pool.bAllocatedBits.testBit ((c + j') % size)) ∧
      reserveLoop size x k c pool = (pool.allocate ((c + j) % size) x, some ((c + j) % size))) ∨
    (reserveLoop size x k c pool = (pool, none) ∧ ∀ j < k, pool.bAllocatedBits.testBit ((c + j) % size)) := by
  have hpos : 0 < size := lt_of_le_of_lt (Nat.zero_le _) hn
  induction k generalizing c with
  | zero => exact .inr ⟨rfl, fun j hj => absurd hj (Nat.not_lt_zero _)⟩
  | succ k ih =>
    -- the cursor the iteration uses, after the wrap-around test
    set c' := if c ≥ size then 0 else c with hc'
    have hcur : c' = c % size := by
      rcases Nat.lt_or_ge c size with h | h
      · rw [hc', if_neg (by omega), Nat.mod_eq_of_lt h]
      · rw [hc', if_pos h, show c = size by omega, Nat.mod_self]
    have hc'lt : c' < size := hcur ▸ Nat.mod_lt _ hpos
    have hshift : ∀ j, (c' + 1 + j) % size = (c + (j + 1)) % size := fun j => by
      rw [hcur, Nat.add_assoc, Nat.add_comm 1 j, Nat.add_mod, Nat.mod_mod, ← Nat.add_mod]
    by_cases hfree : pool.bAllocatedBits.testBit c' = false
    · left
      refine ⟨0, Nat.succ_pos _, by rwa [Nat.add_zero, ← hcur], fun j' hj' => absurd hj' (Nat.not_lt_zero _), ?_⟩
      simp only [reserveLoop, ← hc', if_neg (Nat.not_le.2 hn), isAllocated_eq size pool hc'lt, hfree,
        Bool.not_false, if_true, setAllocated, if_pos hc'lt, and_shiftLeft_ne_zero]
      simp only [Nat.add_zero, ← hcur]
      rw [show ((pool.bAllocatedBits &&& 1 <<< c') == 0) = true by
        simpa [bne, hfree] using and_shiftLeft_ne_zero pool.bAllocatedBits c']
      rfl
    · have hset : pool.bAllocatedBits.testBit c' = true := by simpa using hfree
      have hstep : reserveLoop size x (k + 1) c pool = reserveLoop size x k (c' + 1) pool := by
        simp only [reserveLoop, ← hc', if_neg (Nat.not_le.2 hn), isAllocated_eq size pool hc'lt, hset,
          Bool.not_true, Bool.false_eq_true, ↓reduceIte]
      have hfirst : ∀ {j : Nat}, (∀ j' < j, pool.bAllocatedBits.testBit ((c' + 1 + j') % size)) →
          ∀ j' < j + 1, pool.bAllocatedBits.testBit ((c + j') % size) := fun hall j' hj' => by
        rcases j' with _ | j'
        · rwa [Nat.add_zero, ← hcur]
        · rw [← hshift]; exact hall j' (by omega)
      rw [hstep]
      rcases ih (c := c' + 1) (by omega) with ⟨j, hj, hjfree, hmin, hres⟩ | ⟨hres, hall⟩
      · exact .inl ⟨j + 1, by omega, by rwa [← hshift], fun j' hj' => hfirst hmin j' (by omega),
          by rw [hres, hshift]⟩
      · exact .inr ⟨hres, hfirst hall⟩

/-- The loop of `Reserve` from a cursor in range: either it allocates the first free slot among the next
`k` cyclically, or all of them are taken and it leaves the pool as it was. -/
theorem reserveLoop_spec {pool : FixedSizeObjectPool T} (hn : pool.numAllocated < size)
    (x : T) (k : Nat) {c : Nat} (hc : c ≤ size) :
    (∃ j < k, pool.bAllocatedBits.testBit ((c + j) % size) = false ∧
      reserveLoop size x k c pool = (pool.allocate ((c + j) % size) x, some ((c + j) % size))) ∨
    (reserveLoop size x k c pool = (pool, none) ∧ ∀ j < k, pool.bAllocatedBits.testBit ((c + j) % size)) :=
  (reserveLoop_first hn x k hc).imp (fun ⟨j, hj, hfree, _, hres⟩ => ⟨j, hj, hfree, hres⟩) id

/-- Every slot is reached from a cursor in range within `size` steps. -/
theorem exists_add_mod_eq {c i : Nat} (hc : c ≤ size) (hi : i < size) : ∃ j < size, (c + j) % size = i := by
  rcases Nat.lt_or_ge i c with h | h
  · exact ⟨i + size - c, by omega, by rw [show c + (i + size - c) = i + size by omega, Nat.add_mod_right,
      Nat.mod_eq_of_lt hi]⟩
  · exact ⟨i - c, by omega, by rw [show c + (i - c) = i by omega, Nat.mod_eq_of_lt hi]⟩

/-- `Reserve` on a valid pool that is not full allocates a free slot to the new object. -/
theorem reserve_spec {pool : FixedSizeObjectPool T} (hv : Valid size pool) (hn : pool.numAllocated < size)
    (x : T) : ∃ i < size, pool.bAllocatedBits.testBit i = false ∧
      pool.reserve size x = (pool.allocate i x, some i) := by
  have hpos : 0 < size := lt_of_le_of_lt (Nat.zero_le _) hn
  rcases reserveLoop_spec hn x size hv.cached_le with ⟨j, -, hfree, hres⟩ | ⟨-, hall⟩
  · exact ⟨_, Nat.mod_lt _ hpos, hfree, hres⟩
  · obtain ⟨i, hi, hfree⟩ := hv.exists_free hn
    obtain ⟨j, hj, rfl⟩ := exists_add_mod_eq hv.cached_le hi
    exact absurd (hall j hj) (by simp [hfree])

/-- `Reserve` on a full pool returns `nullptr` and changes nothing. -/
theorem reserve_of_full {pool : FixedSizeObjectPool T} (hn : size ≤ pool.numAllocated) (x : T) :
    pool.reserve size x = (pool, none) := by
  cases size with
  | zero => rfl
  | succ n => simp only [reserve, reserveLoop, if_pos hn]

/-- `Release` frees exactly an allocated slot, and otherwise changes nothing. -/
theorem release_spec (pool : FixedSizeObjectPool T) (i : Nat) :
    pool.release size i =
      if i < size ∧ pool.bAllocatedBits.testBit i then (pool.free size i, true) else (pool, false) := by
  unfold release
  by_cases hi : i < size
  · rw [isAllocated_eq size pool hi]
    cases h : pool.bAllocatedBits.testBit i
    · simp [hi]
    · simp only [hi, if_true, setDeallocated, destroy_bAllocatedBits, and_shiftLeft_ne_zero, h, and_self]
      rfl
  · simp [hi]

/-- `Release` runs `Util::Destroy` on the slot exactly when it frees it. -/
theorem release_destroyed (pool : FixedSizeObjectPool T) (i : Nat) :
    (pool.release size i).1.destroyed = pool.destroyed ++ if (pool.release size i).2 then [i] else [] := by
  rw [release_spec]
  split_ifs <;> simp_all

/-- `Release` of slot `i` of a valid pool returns whether the slot was allocated, and leaves a valid pool with
the same nodes, bit `i` clear and every other bit as it was, and a population smaller by what it returned;
when it returns `false` the pool is unchanged. -/
theorem Valid.release {pool : FixedSizeObjectPool T} (hv : Valid size pool) {i : Nat} (hi : i < size) :
    (pool.release size i).2 = pool.bAllocatedBits.testBit i ∧ Valid size (pool.release size i).1 ∧
      (pool.release size i).1.nodes = pool.nodes ∧
      (∀ j, (pool.release size i).1.bAllocatedBits.testBit j =
        (pool.bAllocatedBits.testBit j && decide (j ≠ i))) ∧
      (allocatedSet size (pool.release size i).1).card + (if (pool.release size i).2 then 1 else 0) =
        (allocatedSet size pool).card ∧
      ((pool.release size i).2 = false → (pool.release size i).1 = pool) := by
  rw [release_spec]
  by_cases hb : pool.bAllocatedBits.testBit i
  · have hpos : 0 < (allocatedSet size pool).card := Finset.card_pos.2 ⟨i, by simp [allocatedSet, hi, hb]⟩
    rw [if_pos ⟨hi, hb⟩]
    refine ⟨hb.symm, hv.free hb, rfl, free_testBit_of_lt hv.bits_lt hi, ?_, fun h => absurd h (by simp)⟩
    rw [card_free hi hb, if_pos rfl]
    omega
  · rw [if_neg fun h => hb h.2]
    refine ⟨(Bool.eq_false_iff.2 hb).symm, hv, rfl, fun j => ?_, by simp, fun _ => rfl⟩
    by_cases hj : j = i
    · subst hj; simp [hb]
    · simp [hj]

variable (size) in
/-- `c_numBytesAllocatedBits`, for words of `2^b` bits. -/
def numBytes (b : Nat) : Nat := (size >>> b) + if size % 2 ^ b = 0 then 0 else 1

variable (size) in
/-- The allocated slots, in increasing order. -/
def allocatedSlots (pool : FixedSizeObjectPool T) : List Nat :=
  (List.range size).filter (pool.bAllocatedBits.testBit ·)

/-- The inner loop of `~FixedSizeObjectPool` on word `byteIndex` of `2^b` bits, `byte` being what is left of
the word, shifted right `bitIndex` times: the slot of each set bit is destroyed, until `byte` is `0`. -/
def destroyBits (b byteIndex byte bitIndex : Nat) : List Nat :=
  if byte = 0 then []
  else
    let rest := destroyBits b byteIndex (byte >>> 1) (bitIndex + 1)
    if byte &&& 1 ≠ 0 then ((byteIndex <<< b) + bitIndex) :: rest else rest
termination_by byte
decreasing_by simp only [Nat.shiftRight_eq_div_pow]; omega

/-- The outer loop of `~FixedSizeObjectPool` from word `byteIndex`, `n` words left, with `numAllocated`
still counted: each word's set bits are destroyed and uncounted, and the loop stops after a word that
leaves the count at `0`. -/
def destructorFrom (pool : FixedSizeObjectPool T) (b : Nat) : (n byteIndex numAllocated : Nat) → List Nat
  | 0, _, _ => []
  | n + 1, byteIndex, numAllocated =>
    let slots := destroyBits b byteIndex (bitmapWord pool.bAllocatedBits b byteIndex) 0
    slots ++ if numAllocated - slots.length = 0 then [] else
      destructorFrom pool b n (byteIndex + 1) (numAllocated - slots.length)

variable (size) in
/-- `~FixedSizeObjectPool()`, for words of `2^b` bits: the slots it destroys, in order. -/
def destructor (pool : FixedSizeObjectPool T) (b : Nat) : List Nat :=
  destructorFrom pool b (numBytes size b) 0 pool.numAllocated

/-- The inner loop destroys the slots of the set bits of `byte`, lowest first. -/
theorem destroyBits_eq (b w : Nat) :
    ∀ (n byte i : Nat), byte < 2 ^ n →
      destroyBits b w byte i = ((List.range n).filter (byte.testBit ·)).map ((w <<< b) + i + ·)
  | 0, byte, i, h => by
    rw [destroyBits, if_pos (by omega)]; rfl
  | n + 1, byte, i, h => by
    by_cases h0 : byte = 0
    · subst h0; rw [destroyBits, if_pos rfl]; simp
    · have hlt : byte >>> 1 < 2 ^ n := by
        rw [Nat.shiftRight_eq_div_pow, pow_one]; rw [pow_succ] at h; omega
      rw [destroyBits, if_neg h0]
      have hshift : (fun x => (byte >>> 1).testBit x) = (fun x => byte.testBit x) ∘ Nat.succ := by
        funext x; simp [Nat.testBit_shiftRight, Nat.add_comm]
      have hmap : (fun x => w <<< b + (i + 1) + x) = (w <<< b + i + ·) ∘ Nat.succ := by
        funext x; show _ = w <<< b + i + (x + 1); omega
      simp only [destroyBits_eq b w n (byte >>> 1) (i + 1) hlt, List.range_succ_eq_map, List.filter_cons,
        Nat.testBit_zero, List.filter_map, hshift, hmap, ← List.map_map, Nat.and_one_is_mod]
      by_cases hodd : byte % 2 = 1 <;> simp [hodd] <;> rfl

/-- The inner loop on a word destroys the slots of the word's set bits, in increasing order. -/
theorem destroyBits_word (bits b w : Nat) :
    destroyBits b w (bitmapWord bits b w) 0 = (List.range' (w * 2 ^ b) (2 ^ b)).filter (bits.testBit ·) := by
  rw [destroyBits_eq b w (2 ^ b) (bitmapWord bits b w) 0 (Nat.mod_lt _ (Nat.two_pow_pos _)), List.range'_eq_map_range,
    List.filter_map, Nat.shiftLeft_eq, Nat.add_zero]
  congr 1
  exact List.filter_congr fun k hk => by
    rw [testBit_bitmapWord _ (List.mem_range.1 hk)]; rfl

/-- From word `w`, with the set bits from there on still counted, the outer loop destroys each of their
slots, in increasing order. -/
theorem destructorFrom_eq (pool : FixedSizeObjectPool T) (b : Nat) : ∀ n w,
    destructorFrom pool b n w ((List.range' (w * 2 ^ b) (n * 2 ^ b)).filter (pool.bAllocatedBits.testBit ·)).length =
      (List.range' (w * 2 ^ b) (n * 2 ^ b)).filter (pool.bAllocatedBits.testBit ·)
  | 0, w => by simp [destructorFrom]
  | n + 1, w => by
    have hsplit : List.range' (w * 2 ^ b) ((n + 1) * 2 ^ b) =
        List.range' (w * 2 ^ b) (2 ^ b) ++ List.range' ((w + 1) * 2 ^ b) (n * 2 ^ b) := by
      rw [Nat.succ_mul, Nat.succ_mul w, List.range'_append_1]
    rw [hsplit, List.filter_append, List.length_append, destructorFrom, destroyBits_word, Nat.add_sub_cancel_left]
    split_ifs with h
    · rw [List.length_eq_zero.1 h, List.append_nil]
    · rw [destructorFrom_eq pool b n (w + 1)]

theorem card_allocatedSet (pool : FixedSizeObjectPool T) :
    (allocatedSet size pool).card = (allocatedSlots size pool).length := by
  rw [allocatedSet, Finset.card, Finset.filter_val, Finset.range_val, Multiset.range, Multiset.filter_coe,
    Multiset.coe_card, allocatedSlots]
  simp only [Bool.decide_eq_true]

/-- `~FixedSizeObjectPool()` on a pool whose count is its bitmap's population destroys each allocated
slot once, in increasing order. -/
theorem destructor_eq (b : Nat) {pool : FixedSizeObjectPool T}
    (hcount : pool.numAllocated = (allocatedSet size pool).card) (hbits : pool.bAllocatedBits < 2 ^ size) :
    destructor size pool b = allocatedSlots size pool := by
  have hle : size ≤ numBytes size b * 2 ^ b := by
    have h := Nat.div_add_mod size (2 ^ b)
    have hlt := Nat.mod_lt size (Nat.two_pow_pos b)
    simp only [numBytes, Nat.shiftRight_eq_div_pow]
    split_ifs with h0
    · rw [Nat.add_zero, Nat.mul_comm]; omega
    · rw [Nat.succ_mul, Nat.mul_comm]; omega
  have hrange : (List.range' 0 (numBytes size b * 2 ^ b)).filter (pool.bAllocatedBits.testBit ·) =
      allocatedSlots size pool := by
    obtain ⟨d, hd⟩ := Nat.exists_eq_add_of_le' hle
    -- past `Size_T` every bit is clear
    have htail : (List.range' (0 + size) d).filter (pool.bAllocatedBits.testBit ·) = [] :=
      List.filter_eq_nil_iff.2 fun k hk hset =>
        absurd (lt_of_testBit hbits (by simpa using hset)) (by simpa using (List.mem_range'_1.1 hk).1)
    rw [hd, ← List.range'_append_1 0 size d, List.filter_append, htail, List.append_nil, allocatedSlots,
      List.range_eq_range']
  have h := destructorFrom_eq pool b (numBytes size b) 0
  rw [Nat.zero_mul, hrange] at h
  rw [destructor, hcount, card_allocatedSet, h]

end FixedSizeObjectPool

end PklE.CoreTypes
