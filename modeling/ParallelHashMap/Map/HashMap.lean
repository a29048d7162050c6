import ParallelHashMap.Map.InnerMap

/-!
# The map

`HashMap<Key_T, Value_T, PageSize_T, NumInnerMaps_T>` (`hash_map.h`) with page size `P` and `S` shards:
the shared pool of nodes, the total count, and the shards. `Util::HashType::Hash64` is not part of the
sources, so the hash is a parameter `hash64`; the map reads its values only through masks below `2^64`.

The std::map-like wrappers are these operations: `insert_lockless` is `Insert_Lockless` tested against
`nullptr`, `find_lockless` reads the value of the node `Find_Lockless` returns, `erase_lockless` is
`Remove_Lockless`, `rekey_lockless` is `ReKey_Lockless` by key, `clear` is `Clear_Lockless`, `size` is
`Size` and `reserve` is `Reserve` of its argument cast to `uint32_t`.

A constructed map has no bucket table in any shard, and `Find_Lockless` and `Remove_Lockless` index the
table without testing it: on a constructed map they dereference `nullptr` for every key
(`findLockless_empty`).

A `ReKey` across shards marks the node `c_reassigningBucket` before it calls the shard's
`Remove_Lockless<KeyValuePair>`, which then finds the node's bucket out of range and removes nothing:
such a rekey never succeeds (`rekeyLockless_across_shards`).
-/

namespace PklE.ThreadsafeContainers

open PklE.CoreTypes PklE.Util SimpleLinkedList

/-- `HashMap`: the shared pool, `totalCount`, and the shards `innerMaps[i]` for `i < S`. -/
structure HashMap (K V : Type) where
  sharedPool : Heap K V
  totalCount : Nat
  innerMaps : Nat → InnerMap

namespace HashMap

variable {K V : Type} [LinearOrder K] (P S : Nat) (hash64 : K → Nat)

/-- A constructed map. -/
def empty : HashMap K V := ⟨PagingObjectPool.init, 0, fun _ => InnerMap.empty⟩

/-- `GetInnerMapIndex(hash)`. -/
def getInnerMapIndex (hash : Nat) : Nat := hash &&& (S - 1)

/-- The map after a shard operation on shard `i` returned the shard and the pool. -/
def withInner (m : HashMap K V) (i : Nat) (im : InnerMap) (heap : Heap K V) : HashMap K V :=
  { m with sharedPool := heap, innerMaps := Function.update m.innerMaps i im }

/-- `Insert_Lockless(key, value)`. -/
def insertLockless (m : HashMap K V) (key : K) (value : V) : Except Fault (HashMap K V × Option PoolPtr) := do
  let hash := hash64 key
  let mapIndex := getInnerMapIndex S hash
  let (im, heap, pAdded) ← (m.innerMaps mapIndex).insertLockless P hash64 m.sharedPool hash key value
  let m := m.withInner mapIndex im heap
  pure ({ m with totalCount := if pAdded.isSome then (m.totalCount + 1) % 2 ^ 32 else m.totalCount }, pAdded)

/-- `Find_Lockless(key)`. -/
def findLockless (m : HashMap K V) (key : K) : Except Fault (Option PoolPtr) :=
  let hash := hash64 key
  (m.innerMaps (getInnerMapIndex S hash)).findLockless P m.sharedPool hash key

/-- `find_lockless(key, pOutValue)`: the value of the node found. -/
def findValueLockless (m : HashMap K V) (key : K) : Except Fault (Option V) := do
  match ← m.findLockless P S hash64 key with
  | some p => (some ·.value) <$> getNode P m.sharedPool p
  | none => pure none

/-- `totalCount` after a shard reported whether it removed a node. -/
def afterRemove (m : HashMap K V) (bRemoved : Bool) : HashMap K V :=
  { m with totalCount := if bRemoved then (m.totalCount + 2 ^ 32 - 1) % 2 ^ 32 else m.totalCount }

/-- `Remove_Lockless(key)`. -/
def removeLockless (m : HashMap K V) (key : K) : Except Fault (HashMap K V × Bool) := do
  let hash := hash64 key
  let mapIndex := getInnerMapIndex S hash
  let (im, heap, bRemoved) ← (m.innerMaps mapIndex).removeLockless P m.sharedPool hash key
  pure ((m.withInner mapIndex im heap).afterRemove bRemoved, bRemoved)

/-- `Remove_Lockless<KeyValuePair>(value)`, for the node at `p`. -/
def removeLocklessNode (m : HashMap K V) (p : PoolPtr) : Except Fault (HashMap K V × Bool) := do
  let node ← getNode P m.sharedPool p
  let mapIndex := getInnerMapIndex S (hash64 node.key)
  let (im, heap, bRemoved) ← (m.innerMaps mapIndex).removeLocklessNode P m.sharedPool p
  pure ((m.withInner mapIndex im heap).afterRemove bRemoved, bRemoved)

/-- The branch both `ReKey`s by handle take when the new key's shard `newMapIndex` is not the node's shard
`oldMapIndex`: mark the node, remove it from its shard, and insert its key and value anew. -/
def rekeyAcross (m : HashMap K V) (p : PoolPtr) (newKey : K) (oldMapIndex newMapIndex : Nat) :
    Except Fault (HashMap K V × Bool) := do
  let heap ← setNode P m.sharedPool p ({ · with bucket := cReassigningBucket })
  let (im, heap, bRemovedNode) ← (m.innerMaps oldMapIndex).removeLocklessNode P heap p
  let m := m.withInner oldMapIndex im heap
  if bRemovedNode then
    let heap ← setNode P m.sharedPool p ({ · with key := newKey, bucket := cInvalidBucket })
    let node ← getNode P heap p
    let (im, heap, pAdded) ←
      (m.innerMaps newMapIndex).insertLockless P hash64 heap (hash64 newKey) node.key node.value
    let m := m.withInner newMapIndex im heap
    pure (if pAdded.isSome then (m, true) else (m.afterRemove true, false))
  else pure (m, false)

/-- `ReKey_Lockless(value, newKey)`, for the node at `p`. -/
def rekeyLocklessNode (m : HashMap K V) (p : PoolPtr) (newKey : K) : Except Fault (HashMap K V × Bool) := do
  let node ← getNode P m.sharedPool p
  let oldMapIndex := getInnerMapIndex S (hash64 node.key)
  let newMapIndex := getInnerMapIndex S (hash64 newKey)
  if oldMapIndex = newMapIndex then
    let (im, heap, bRekeyed) ←
      (m.innerMaps oldMapIndex).rekeyLocklessNode P m.sharedPool (hash64 newKey) p newKey
    pure (m.withInner oldMapIndex im heap, bRekeyed)
  else m.rekeyAcross P hash64 p newKey oldMapIndex newMapIndex

/-- `ReKey_Concurrent(value, newKey)` with no other thread in between. -/
def rekeyConcurrentNode (m : HashMap K V) (p : PoolPtr) (newKey : K) : Except Fault (HashMap K V × Bool) := do
  let node ← getNode P m.sharedPool p
  let oldMapIndex := getInnerMapIndex S (hash64 node.key)
  let newMapIndex := getInnerMapIndex S (hash64 newKey)
  if oldMapIndex = newMapIndex then
    let (im, heap, bRekeyed) ←
      (m.innerMaps oldMapIndex).rekeyConcurrentNode P m.sharedPool (hash64 newKey) p newKey
    pure (m.withInner oldMapIndex im heap, bRekeyed)
  else m.rekeyAcross P hash64 p newKey oldMapIndex newMapIndex

/-- `ReKey_Concurrent(value, newKey)` with no other thread running, the shard's retry loop given `fuel`
turns. -/
def rekeyConcurrentLoop (m : HashMap K V) (p : PoolPtr) (newKey : K) (fuel : Nat) :
    Except Fault (HashMap K V × Bool) := do
  let node ← getNode P m.sharedPool p
  let oldMapIndex := getInnerMapIndex S (hash64 node.key)
  let newMapIndex := getInnerMapIndex S (hash64 newKey)
  if oldMapIndex = newMapIndex then
    let (im, heap, bRekeyed) ←
      (m.innerMaps oldMapIndex).rekeyConcurrentLoop P m.sharedPool (hash64 newKey) p newKey fuel
    pure (m.withInner oldMapIndex im heap, bRekeyed)
  else m.rekeyAcross P hash64 p newKey oldMapIndex newMapIndex

/-- `ReKey_Concurrent(key, newKey)` with no other thread running: `Find_Concurrent(key)`, then the rekey
of the node found, its loop given `fuel` turns. -/
def rekeyConcurrent (m : HashMap K V) (key newKey : K) (fuel : Nat) : Except Fault (HashMap K V × Bool) := do
  match ← m.findLockless P S hash64 key with
  | some p => m.rekeyConcurrentLoop P S hash64 p newKey fuel
  | none => pure (m, false)

/-- `ReKey_Lockless(key, newKey)`. -/
def rekeyLockless (m : HashMap K V) (key newKey : K) : Except Fault (HashMap K V × Bool) := do
  match ← m.findLockless P S hash64 key with
  | some p => m.rekeyLocklessNode P S hash64 p newKey
  | none => pure (m, false)

/-- `Clear_Lockless`'s loop body for shard `i`. -/
def clearShard (m : HashMap K V) (i : Nat) : Except Fault (HashMap K V) := do
  let im ← (m.innerMaps i).clearLockless
  pure { m with innerMaps := Function.update m.innerMaps i im }

/-- `Clear_Lockless()`. -/
def clearLockless (m : HashMap K V) : Except Fault (HashMap K V) := do
  let m := { m with totalCount := 0 }
  let m ← (List.range S).foldlM clearShard m
  pure { m with sharedPool := m.sharedPool.clear }

/-- `Reserve`'s loop body for shard `i`: its table resized to `newNumBuckets`. -/
def resizeShard (newNumBuckets : Nat) (m : HashMap K V) (i : Nat) : Except Fault (HashMap K V) := do
  let (im, heap) ← (m.innerMaps i).resize P hash64 m.sharedPool newNumBuckets
  pure (m.withInner i im heap)

/-- `Reserve(numElements)`: every shard's table is resized, growing or shrinking, and the pool preallocates
`numElements` objects. -/
def reserve (m : HashMap K V) (numElements : Nat) : Except Fault (HashMap K V) := do
  let numElementsPlusFill := ((numElements * 8) % 2 ^ 32) / 7 + 1
  let numElementsPerInnerMap := (numElementsPlusFill + S - 1) / S
  let m ← (List.range S).foldlM (resizeShard P hash64 (getNextPowerOfTwo numElementsPerInnerMap)) m
  let heap ← m.sharedPool.preallocateSpace P numElements
  pure { m with sharedPool := heap }

/-- `Size()`. -/
def size (m : HashMap K V) : Nat := m.totalCount

/-! ## A constructed map has no bucket table -/

/-- `find_lockless` and `erase_lockless` on a constructed map dereference the null bucket table, whatever
the key. -/
theorem findLockless_empty (key : K) :
    (empty : HashMap K V).findLockless P S hash64 key = .error .nullDereference ∧
      (empty : HashMap K V).removeLockless P S hash64 key = .error .nullDereference :=
  ⟨rfl, rfl⟩

/-! ## Routing -/

/-- With `S` a power of two, `GetInnerMapIndex(hash)` is the hash modulo `S`, its low bits. -/
theorem getInnerMapIndex_pow {S : Nat} (hS : ∃ i, S = 2 ^ i) (hash : Nat) : getInnerMapIndex S hash = hash % S := by
  obtain ⟨i, rfl⟩ := hS
  exact Nat.and_pow_two_sub_one_eq_mod hash i

/-- A shard's table reads the same low bits of the hash as the choice of shard: with no more buckets `n`
than shards `S`, both powers of two, every hash routed to shard `s` lands in bucket `s mod n`. -/
theorem getIndexOf_of_le_shards {S n : Nat} (hS : ∃ i, S = 2 ^ i) (hn : ∃ j < 32, n = 2 ^ j) (hle : n ≤ S)
    (hash : Nat) : InnerMap.getIndexOf n hash = getInnerMapIndex S hash % n := by
  obtain ⟨j, hj, rfl⟩ := hn
  have hdvd : 2 ^ j ∣ S := by
    obtain ⟨i, rfl⟩ := hS
    exact Nat.pow_dvd_pow 2 ((Nat.pow_le_pow_iff_right (by decide)).1 hle)
  rw [InnerMap.getIndexOf_pow ⟨j, hj, rfl⟩, Nat.and_pow_two_sub_one_eq_mod, getInnerMapIndex_pow hS,
    Nat.mod_mod_of_dvd _ hdvd]

/-- With four shards of two buckets, the hash `5` goes to shard `1` and its bucket `1`. -/
theorem getIndexOf_of_le_shards_four_two :
    (∃ i, 4 = 2 ^ i) ∧ (∃ j < 32, 2 = 2 ^ j) ∧ 2 ≤ 4 ∧ InnerMap.getIndexOf 2 5 = getInnerMapIndex 4 5 % 2 :=
  ⟨⟨2, rfl⟩, ⟨1, by decide, rfl⟩, by decide, getIndexOf_of_le_shards ⟨2, rfl⟩ ⟨1, by decide, rfl⟩ (by decide) 5⟩

/-- With two shards of two buckets, no hash reaches bucket `1` of shard `0`. -/
theorem shard_zero_bucket_one_unreached (hash : Nat) :
    (getInnerMapIndex 2 hash, InnerMap.getIndexOf 2 hash) ≠ (0, 1) := fun h => by
  rw [getInnerMapIndex_pow (S := 2) ⟨1, rfl⟩, InnerMap.getIndexOf_pow (n := 2) ⟨1, by decide, rfl⟩,
    Prod.mk.injEq] at h
  have h2 : hash &&& (2 - 1) = hash % 2 := Nat.and_pow_two_sub_one_eq_mod hash 1
  omega

/-! ## Sizing -/

/-- `reserve(2^29)` on a constructed map of two shards, with pages of `2^29` slots: `numElements * 8` wraps
to `0` in 32 bits, so each shard gets one bucket, where `2^29` elements ask for
`⌈(⌊8 · 2^29 / 7⌋ + 1) / 2⌉` buckets a shard. -/
theorem reserve_wraps :
    ∃ m : HashMap Nat Nat, (empty : HashMap Nat Nat).reserve (2 ^ 29) 2 id (2 ^ 29) = .ok m ∧
      (m.innerMaps 0).numBuckets = 1 ∧ (m.innerMaps 1).numBuckets = 1 ∧ 1 < (8 * 2 ^ 29 / 7 + 1 + 2 - 1) / 2 :=
  ⟨_, rfl, rfl, rfl, by decide⟩

/-! ## Single-threaded runs -/

/-- The maps that single-threaded calls reach from a constructed map. A call by handle takes a node that
`Find_Lockless` returned; `rekey` with no other thread running is `rekeyConcurrentNode`. -/
inductive Reachable : HashMap K V → Prop
  | empty : Reachable empty
  | insert {m m' : HashMap K V} {key : K} {value : V} {r : Option PoolPtr} :
      Reachable m → m.insertLockless P S hash64 key value = .ok (m', r) → Reachable m'
  | remove {m m' : HashMap K V} {key : K} {b : Bool} :
      Reachable m → m.removeLockless P S hash64 key = .ok (m', b) → Reachable m'
  | removeNode {m m' : HashMap K V} {key : K} {p : PoolPtr} {b : Bool} :
      Reachable m → m.findLockless P S hash64 key = .ok (some p) →
      m.removeLocklessNode P S hash64 p = .ok (m', b) → Reachable m'
  | rekey {m m' : HashMap K V} {key newKey : K} {b : Bool} :
      Reachable m → m.rekeyLockless P S hash64 key newKey = .ok (m', b) → Reachable m'
  | rekeyNode {m m' : HashMap K V} {key newKey : K} {p : PoolPtr} {b : Bool} :
      Reachable m → m.findLockless P S hash64 key = .ok (some p) →
      m.rekeyLocklessNode P S hash64 p newKey = .ok (m', b) → Reachable m'
  | rekeyConcurrent {m m' : HashMap K V} {key newKey : K} {p : PoolPtr} {b : Bool} :
      Reachable m → m.findLockless P S hash64 key = .ok (some p) →
      m.rekeyConcurrentNode P S hash64 p newKey = .ok (m', b) → Reachable m'
  | clear {m m' : HashMap K V} : Reachable m → m.clearLockless S = .ok m' → Reachable m'
  | reserve {m m' : HashMap K V} {numElements : Nat} :
      Reachable m → m.reserve P S hash64 numElements = .ok m' → Reachable m'

/-- Every shard's table has its shape. -/
def TablesOk (m : HashMap K V) : Prop := ∀ i, (m.innerMaps i).TableOk

variable {m m' : HashMap K V}

omit [LinearOrder K] in
@[simp] theorem withInner_innerMaps (m : HashMap K V) (i : Nat) (im : InnerMap) (heap : Heap K V) :
    (m.withInner i im heap).innerMaps = Function.update m.innerMaps i im := rfl

omit [LinearOrder K] in
@[simp] theorem withInner_sharedPool (m : HashMap K V) (i : Nat) (im : InnerMap) (heap : Heap K V) :
    (m.withInner i im heap).sharedPool = heap := rfl

omit [LinearOrder K] in
@[simp] theorem withInner_totalCount (m : HashMap K V) (i : Nat) (im : InnerMap) (heap : Heap K V) :
    (m.withInner i im heap).totalCount = m.totalCount := rfl

omit [LinearOrder K] in
theorem afterRemove_totalCount (m : HashMap K V) (b : Bool) :
    (m.afterRemove b).totalCount = if b then (m.totalCount + 2 ^ 32 - 1) % 2 ^ 32 else m.totalCount := rfl

omit [LinearOrder K] in
theorem TablesOk.withInner (ht : TablesOk m) (i : Nat) {im : InnerMap} (hi : im.TableOk) (heap : Heap K V) :
    TablesOk (m.withInner i im heap) := fun j => by
  by_cases hj : j = i
  · subst hj; simpa using hi
  · simpa [Function.update_noteq hj] using ht j

omit [LinearOrder K] in
theorem TablesOk.afterRemove (ht : TablesOk m) (b : Bool) : TablesOk (m.afterRemove b) := ht

omit [LinearOrder K] in
theorem TablesOk.withTotalCount (ht : TablesOk m) (c : Nat) : TablesOk { m with totalCount := c } := ht

theorem findLockless_some {key : K} {p : PoolPtr} (h : m.findLockless P S hash64 key = .ok (some p)) :
    ∃ node, getNode P m.sharedPool p = .ok node ∧ node.key = key := by
  simp only [findLockless, InnerMap.findLockless, except_bind_eq_ok] at h
  obtain ⟨_, -, h⟩ := h
  exact findFrom_some h

theorem rekeyAcross_tablesOk (ht : TablesOk m) {p : PoolPtr} {newKey : K} {i j : Nat} {b : Bool}
    (h : m.rekeyAcross P hash64 p newKey i j = .ok (m', b)) : TablesOk m' := by
  simp only [rekeyAcross, except_bind_eq_ok] at h
  obtain ⟨_, -, ⟨im1, heap1, bRemoved⟩, hrem, h⟩ := h
  have ht1 := ht.withInner i ((ht i).of_sameTable (InnerMap.removeLocklessNode_sameTable P hrem)) heap1
  cases bRemoved with
  | false => cases h; exact ht1
  | true =>
    simp only [if_true, except_bind_eq_ok] at h
    obtain ⟨_, -, _, -, ⟨im2, heap2, r⟩, hins, h⟩ := h
    have ht2 := ht1.withInner j (InnerMap.insertLockless_tableOk P hash64 (ht1 j) hins) heap2
    split at h <;> cases h
    · exact ht2
    · exact ht2.afterRemove true

theorem rekeyLocklessNode_tablesOk (ht : TablesOk m) {p : PoolPtr} {newKey : K} {b : Bool}
    (h : m.rekeyLocklessNode P S hash64 p newKey = .ok (m', b)) : TablesOk m' := by
  simp only [rekeyLocklessNode, except_bind_eq_ok] at h
  obtain ⟨_, -, h⟩ := h
  split at h
  · simp only [except_bind_eq_ok] at h
    obtain ⟨⟨im1, heap1, _⟩, hre, h⟩ := h
    cases h
    exact ht.withInner _ ((ht _).of_sameTable (InnerMap.rekeyLocklessNode_sameTable P hre)) heap1
  · exact rekeyAcross_tablesOk P hash64 ht h

theorem rekeyConcurrentNode_tablesOk (ht : TablesOk m) {p : PoolPtr} {newKey : K} {b : Bool}
    (h : m.rekeyConcurrentNode P S hash64 p newKey = .ok (m', b)) : TablesOk m' := by
  simp only [rekeyConcurrentNode, except_bind_eq_ok] at h
  obtain ⟨_, -, h⟩ := h
  split at h
  · simp only [except_bind_eq_ok] at h
    obtain ⟨⟨im1, heap1, _⟩, hre, h⟩ := h
    cases h
    exact ht.withInner _ ((ht _).of_sameTable (InnerMap.rekeyConcurrentNode_sameTable P hre)) heap1
  · exact rekeyAcross_tablesOk P hash64 ht h

/-- Every reachable map's shards have tables of their shape. -/
theorem Reachable.tablesOk (hm : Reachable P S hash64 m) : TablesOk m := by
  induction hm with
  | empty => exact fun _ => InnerMap.tableOk_empty
  | insert _ h ht =>
    simp only [insertLockless, except_bind_eq_ok] at h
    obtain ⟨⟨im1, heap1, r⟩, hins, h⟩ := h
    cases h
    exact (ht.withInner _ (InnerMap.insertLockless_tableOk P hash64 (ht _) hins) heap1).withTotalCount _
  | remove _ h ht =>
    simp only [removeLockless, except_bind_eq_ok] at h
    obtain ⟨⟨im1, heap1, b⟩, hrem, h⟩ := h
    cases h
    exact (ht.withInner _ ((ht _).of_sameTable (InnerMap.removeLockless_sameTable P hrem)) heap1).afterRemove b
  | removeNode _ _ h ht =>
    simp only [removeLocklessNode, except_bind_eq_ok] at h
    obtain ⟨_, -, ⟨im1, heap1, b⟩, hrem, h⟩ := h
    cases h
    exact (ht.withInner _ ((ht _).of_sameTable (InnerMap.removeLocklessNode_sameTable P hrem)) heap1).afterRemove b
  | rekey _ h ht =>
    simp only [rekeyLockless, except_bind_eq_ok] at h
    obtain ⟨found, -, h⟩ := h
    cases found with
    | none => cases h; exact ht
    | some p => exact rekeyLocklessNode_tablesOk P S hash64 ht h
  | rekeyNode _ _ h ht => exact rekeyLocklessNode_tablesOk P S hash64 ht h
  | rekeyConcurrent _ _ h ht => exact rekeyConcurrentNode_tablesOk P S hash64 ht h
  | clear _ h ht =>
    simp only [clearLockless, except_bind_eq_ok] at h
    obtain ⟨m1, hfold, h⟩ := h
    cases h
    have h1 : TablesOk m1 := foldlM_invariant TablesOk (fun acc i acc' hacc h => by
      simp only [clearShard, except_bind_eq_ok] at h
      obtain ⟨im1, hclear, h⟩ := h
      cases h
      exact hacc.withInner i ((hacc i).of_sameTable (InnerMap.clearLockless_sameTable hclear)) acc.sharedPool)
      _ (ht.withTotalCount 0) hfold
    exact h1
  | reserve _ h ht =>
    simp only [HashMap.reserve, except_bind_eq_ok] at h
    obtain ⟨m1, hfold, _, -, h⟩ := h
    cases h
    have h1 : TablesOk m1 := foldlM_invariant TablesOk (fun acc i acc' hacc h => by
      simp only [resizeShard, except_bind_eq_ok] at h
      obtain ⟨⟨im1, heap1⟩, hres, h⟩ := h
      cases h
      exact hacc.withInner i (InnerMap.resize_tableOk P hash64 (getNextPowerOfTwo_eq_pow _) hres) heap1)
      _ ht hfold
    exact h1

/-! ## Rekeying across shards -/

/-- The branch across shards removes nothing: the shard's `Remove_Lockless<KeyValuePair>` reads the
bucket `c_reassigningBucket` that the branch has just written, which is out of every table's range. -/
theorem rekeyAcross_eq_false (ht : TablesOk m) {p : PoolPtr} {node : Node K V}
    (hn : getNode P m.sharedPool p = .ok node) {newKey : K} {i j : Nat} {b : Bool}
    (h : m.rekeyAcross P hash64 p newKey i j = .ok (m', b)) : b = false := by
  simp only [rekeyAcross, except_bind_eq_ok] at h
  obtain ⟨heap1, hset, ⟨im1, heap2, bRemoved⟩, hrem, h⟩ := h
  have hnode1 : getNode P heap1 p = .ok { node with bucket := cReassigningBucket } := by
    rw [getNode_setNode hset, if_pos rfl, hn]; rfl
  have hlt : ¬ cReassigningBucket < (m.innerMaps i).numBuckets := by
    have := (ht i).numBuckets_le
    simp only [cReassigningBucket]; omega
  simp only [InnerMap.removeLocklessNode, hnode1, except_ok_bind, if_neg hlt] at hrem
  cases hrem
  cases h
  rfl

/-- A `rekey_lockless` between keys of different shards never succeeds. -/
theorem rekeyLockless_across_shards (hm : Reachable P S hash64 m) {key newKey : K}
    (hs : getInnerMapIndex S (hash64 key) ≠ getInnerMapIndex S (hash64 newKey)) {b : Bool}
    (h : m.rekeyLockless P S hash64 key newKey = .ok (m', b)) : b = false := by
  simp only [rekeyLockless, except_bind_eq_ok] at h
  obtain ⟨found, hfind, h⟩ := h
  cases found with
  | none => cases h; rfl
  | some p =>
    obtain ⟨node, hn, hkey⟩ := findLockless_some P S hash64 hfind
    simp only [rekeyLocklessNode, hn, except_ok_bind, hkey, if_neg hs] at h
    exact rekeyAcross_eq_false P hash64 hm.tablesOk hn h

/-- The map with two shards, the identity hash and pages of two slots after `reserve(0)`, which gives
every shard a table. -/
def reserved : HashMap Nat Nat :=
  match (empty : HashMap Nat Nat).reserve 2 2 id 0 with
  | .ok m => m
  | .error _ => empty

/-- `reserved` after `insert_lockless(0, 7)`. -/
def zeroInserted : HashMap Nat Nat :=
  match reserved.insertLockless 2 2 id 0 7 with
  | .ok (m, _) => m
  | .error _ => empty

/-- `zeroInserted` after `rekey_lockless(0, 1)`. -/
def zeroRekeyed : HashMap Nat Nat :=
  match zeroInserted.rekeyLockless 2 2 id 0 1 with
  | .ok (m, _) => m
  | .error _ => empty

theorem reachable_zeroInserted : Reachable 2 2 id zeroInserted :=
  .insert (.reserve .empty (show (empty : HashMap Nat Nat).reserve 2 2 id 0 = .ok reserved from rfl))
    (show reserved.insertLockless 2 2 id 0 7 = .ok (zeroInserted, some ⟨1, 0⟩) from rfl)

theorem reachable_zeroRekeyed : Reachable 2 2 id zeroRekeyed :=
  .rekey reachable_zeroInserted (show zeroInserted.rekeyLockless 2 2 id 0 1 = .ok (zeroRekeyed, false) from rfl)

/-- `rekey_lockless(0, 1)` on `zeroInserted`, whose shards for `0` and `1` differ, returns `false`. -/
theorem rekeyLockless_zero_one :
    getInnerMapIndex 2 (id 0) ≠ getInnerMapIndex 2 (id 1) ∧
      zeroInserted.rekeyLockless 2 2 id 0 1 = .ok (zeroRekeyed, false) ∧ false = false :=
  ⟨by decide, rfl, rekeyLockless_across_shards 2 2 id reachable_zeroInserted (by decide)
    (show zeroInserted.rekeyLockless 2 2 id 0 1 = .ok (zeroRekeyed, false) from rfl)⟩

/-- After `reserve(0)` and `insert_lockless(0, 7)`, `rekey_lockless(0, 1)` returns `false` though `0` is
present and `1` absent. A later `erase_lockless(0)` succeeds and leaves `Size()` at `0`, while the node,
never released, stays live in the pool that iteration walks. -/
theorem rekeyLockless_across_shards_leaks :
    ∃ m : HashMap Nat Nat, Reachable 2 2 id zeroInserted ∧
      zeroInserted.findValueLockless 2 2 id 0 = .ok (some 7) ∧ zeroInserted.findLockless 2 2 id 1 = .ok none ∧
      zeroInserted.rekeyLockless 2 2 id 0 1 = .ok (zeroRekeyed, false) ∧
      zeroRekeyed.removeLockless 2 2 id 0 = .ok (m, true) ∧ m.size = 0 ∧ m.sharedPool.isLive ⟨1, 0⟩ = true :=
  ⟨_, reachable_zeroInserted, rfl, rfl, rfl, rfl, rfl, rfl⟩

/-- A `rekey` within one shard of a node whose bucket is out of the shard's range never returns: its loop
reads the same bucket on every turn. -/
theorem rekeyConcurrent_of_le {key newKey : K} {p : PoolPtr} {node : Node K V}
    (hf : m.findLockless P S hash64 key = .ok (some p)) (hn : getNode P m.sharedPool p = .ok node)
    (hs : getInnerMapIndex S (hash64 key) = getInnerMapIndex S (hash64 newKey))
    (hb : (m.innerMaps (getInnerMapIndex S (hash64 key))).numBuckets ≤ node.bucket) (fuel : Nat) :
    m.rekeyConcurrent P S hash64 key newKey fuel = .error .outOfFuel := by
  obtain ⟨node', hn', rfl⟩ := findLockless_some P S hash64 hf
  obtain rfl : node' = node := Except.ok.inj (hn'.symm.trans hn)
  simp only [rekeyConcurrent, hf, rekeyConcurrentLoop, hn, except_ok_bind, if_pos hs,
    InnerMap.rekeyConcurrentLoop_of_le P hn hb, except_error_bind]

/-- After `reserve(0)`, `insert_lockless(0, 7)` and `rekey_concurrent(0, 1)`, which returns `false` and
leaves key `0`'s node on its list marked as reassigning, `rekey_concurrent(0, 2)`, within shard `0`,
never returns. -/
theorem rekeyConcurrent_spins :
    Reachable 2 2 id zeroRekeyed ∧ (∀ fuel, zeroInserted.rekeyConcurrent 2 2 id 0 1 fuel = .ok (zeroRekeyed, false)) ∧
      ∀ fuel, zeroRekeyed.rekeyConcurrent 2 2 id 0 2 fuel = .error .outOfFuel :=
  ⟨.rekeyConcurrent reachable_zeroInserted (show zeroInserted.findLockless 2 2 id 0 = .ok (some ⟨1, 0⟩) from rfl)
      (show zeroInserted.rekeyConcurrentNode 2 2 id ⟨1, 0⟩ 1 = .ok (zeroRekeyed, false) from rfl),
    fun _ => rfl,
    rekeyConcurrent_of_le 2 2 id rfl
      (show getNode 2 zeroRekeyed.sharedPool ⟨1, 0⟩ = .ok ⟨0, 7, none, cReassigningBucket⟩ from rfl) rfl
      (by decide)⟩

end HashMap

end PklE.ThreadsafeContainers
