import ParallelHashMap.Map.LinkedList
import ParallelHashMap.Util.MagicNum

/-!
# Shards

`HashMap::InnerMap` (`hash_map.h`): one shard of the map, a power-of-two table of bucket lists over the
shared pool, a count of its entries and the fill capacity at which `Insert_Lockless` grows the table. The
table is `nullptr` until the shard's first `Resize`.

These are the lockless operations, as one thread runs them; the `_Concurrent` ones run the same bodies
under the shard's lock, except `ReKey_Concurrent`, which marks the node with a compare-exchange and, run
with no other thread in between, is `rekeyConcurrentNode`. `Remove_Lockless` by key and by handle share
their ending (`finishRemove`), and both `ReKey` variants leave the node's bucket as
`c_reassigningBucket` when the erase in the old bucket finds nothing.

`Resize` moves every node of the old lists to the front of its new list, reversing each run of nodes
that lands in one bucket. It rewrites the links while it walks, so a walk that runs out of its bound is
`outOfFuel`, a limit of the model, not a claim that the code loops.
-/

namespace PklE.ThreadsafeContainers

open PklE.CoreTypes PklE.Util SimpleLinkedList

/-- `HashMap::InnerMap`, without its lock. `buckets` is the bucket array: `nullptr`, or the heads of its
lists. -/
structure InnerMap where
  buckets : Option (List (Option PoolPtr))
  count : Nat
  fillCapacity : Nat
  numBuckets : Nat
  deriving DecidableEq, Repr

namespace InnerMap

/-- A constructed shard. -/
def empty : InnerMap := ⟨none, 0, 0, 0⟩

/-- `GetIndex(hash)` for a table of `numBuckets` buckets: the mask `numBuckets - 1` in 64 bits, cast to
`uint32_t`. -/
def getIndexOf (numBuckets hash : Nat) : Nat :=
  (hash &&& ((numBuckets + 2 ^ 64 - 1) % 2 ^ 64)) % 2 ^ 32

/-- `GetIndex(hash)`. -/
def getIndex (im : InnerMap) (hash : Nat) : Nat := getIndexOf im.numBuckets hash

/-- In a table of `2^j` buckets, `j < 32`, `GetIndex(hash)` is `hash & (numBuckets - 1)`: the mask fits
in 64 bits and the result in 32. -/
theorem getIndexOf_pow {n : Nat} (hn : ∃ j < 32, n = 2 ^ j) (hash : Nat) : getIndexOf n hash = hash &&& (n - 1) := by
  obtain ⟨j, hj, rfl⟩ := hn
  have h1 : 1 ≤ 2 ^ j := Nat.one_le_two_pow
  have h2 : 2 ^ j ≤ 2 ^ 31 := Nat.pow_le_pow_right (by decide) (by omega)
  have hmask : (2 ^ j + 2 ^ 64 - 1) % 2 ^ 64 = 2 ^ j - 1 := by omega
  have hle : hash &&& (2 ^ j - 1) ≤ 2 ^ j - 1 := Nat.and_le_right
  rw [getIndexOf, hmask, Nat.mod_eq_of_lt (by omega)]

/-- `buckets[i]`, the head of bucket `i`'s list. -/
def bucketAt (im : InnerMap) (i : Nat) : Except Fault (Option PoolPtr) :=
  match im.buckets with
  | none => throw .nullDereference
  | some bs => match bs[i]? with
    | some pHead => pure pHead
    | none => throw .outOfBounds

/-- A write of bucket `i`'s head. -/
def setBucket (im : InnerMap) (i : Nat) (pHead : Option PoolPtr) : InnerMap :=
  { im with buckets := im.buckets.map (·.set i pHead) }

variable {K V : Type} (P : Nat) (hash64 : K → Nat)

/-- `Resize`'s walk of one old list from `pNode`, each node going to the front of its bucket among
`newBuckets`, a table of `newNumBuckets` lists. -/
def rehashFrom (newNumBuckets : Nat) :
    Nat → Option PoolPtr → Heap K V × List (Option PoolPtr) → Except Fault (Heap K V × List (Option PoolPtr))
  | _, none, acc => pure acc
  | 0, some _, _ => throw .outOfFuel
  | fuel + 1, some pNode, (heap, newBuckets) => do
    let node ← getNode P heap pNode
    let pNextNode := node.pNext
    let heap ← setNode P heap pNode ({ · with pNext := none })
    let newBucketIndex := getIndexOf newNumBuckets (hash64 node.key)
    let heap ← setNode P heap pNode ({ · with bucket := newBucketIndex })
    let pHead ← match newBuckets[newBucketIndex]? with
      | some pHead => pure pHead
      | none => throw .outOfBounds
    let (heap, pHead) ← insertUnsafe P heap pHead pNode
    rehashFrom newNumBuckets fuel pNextNode (heap, newBuckets.set newBucketIndex pHead)

/-- `Resize`'s loop body for old bucket `i`: the walk of its list, bounded by the pool the walk starts in. -/
def rehashBucket (im : InnerMap) (newNumBuckets : Nat) (acc : Heap K V × List (Option PoolPtr)) (i : Nat) :
    Except Fault (Heap K V × List (Option PoolPtr)) := do
  let pHead ← im.bucketAt i
  rehashFrom P hash64 newNumBuckets (walkBound P acc.1) pHead acc

/-- `Resize(newNumBuckets)`. -/
def resize (im : InnerMap) (heap : Heap K V) (newNumBuckets : Nat) : Except Fault (InnerMap × Heap K V) := do
  let (heap, newBuckets) ← (List.range im.numBuckets).foldlM (im.rehashBucket P hash64 newNumBuckets)
    (heap, List.replicate newNumBuckets none)
  pure (⟨some newBuckets, im.count, ((newNumBuckets * 7) % 2 ^ 32) / 8, newNumBuckets⟩, heap)

variable [LinearOrder K]

/-- `Insert_Lockless(hash, key, value)`: the node, or `nullptr` when the key is present. The count goes up
first, whether or not a node is added. `Reserve` runs with a bound of two turns of its loop, enough from
every valid pool (`reserve_terminates`). -/
def insertLockless (im : InnerMap) (heap : Heap K V) (hash : Nat) (key : K) (value : V) :
    Except Fault (InnerMap × Heap K V × Option PoolPtr) := do
  let im := { im with count := (im.count + 1) % 2 ^ 32 }
  let (im, heap) ← (if im.count > im.fillCapacity then
      im.resize P hash64 heap (getNextPowerOfTwo ((im.count * 2) % 2 ^ 32))
    else pure (im, heap))
  let bucket := im.getIndex hash
  let pHead ← im.bucketAt bucket
  match ← findUnsafe P heap pHead key with
  | some _ => pure (im, heap, none)
  | none => do
    let (heap, pNewNode) ← heap.reserve P { key := key, value := value } 2
    let heap ← setNode P heap pNewNode ({ · with bucket := bucket })
    let (heap, pHead) ← insertUnsafe P heap pHead pNewNode
    pure (im.setBucket bucket pHead, heap, some pNewNode)

/-- `Find_Lockless(hash, key)`. -/
def findLockless (im : InnerMap) (heap : Heap K V) (hash : Nat) (key : K) : Except Fault (Option PoolPtr) := do
  let pHead ← im.bucketAt (im.getIndex hash)
  findUnsafe P heap pHead key

/-- The end both `Remove_Lockless` share, after the erase in `bucket` left the head `pHead` and unlinked
`pNode`: the node goes back to the pool unless it is being reassigned, and the count goes down. -/
def finishRemove (im : InnerMap) (heap : Heap K V) (bucket : Nat) (pHead pNode : Option PoolPtr) :
    Except Fault (InnerMap × Heap K V × Bool) := do
  let im := im.setBucket bucket pHead
  match pNode with
  | none => pure (im, heap, false)
  | some pNode => do
    let node ← getNode P heap pNode
    let heap ← (if node.bucket ≠ cReassigningBucket then (·.1) <$> heap.release P pNode else pure heap)
    pure ({ im with count := (im.count + 2 ^ 32 - 1) % 2 ^ 32 }, heap, true)

/-- `Remove_Lockless(hash, key)`. -/
def removeLockless (im : InnerMap) (heap : Heap K V) (hash : Nat) (key : K) :
    Except Fault (InnerMap × Heap K V × Bool) := do
  let bucket := im.getIndex hash
  let pHead ← im.bucketAt bucket
  let (heap, pHead, pNode) ← eraseUnsafe P heap pHead key
  im.finishRemove P heap bucket pHead pNode

/-- `Remove_Lockless<KeyValuePair>(hash, value)`: the bucket is the one the node records, and the erase is
by the node's key. -/
def removeLocklessNode (im : InnerMap) (heap : Heap K V) (p : PoolPtr) :
    Except Fault (InnerMap × Heap K V × Bool) := do
  let node ← getNode P heap p
  let bucket := node.bucket
  if bucket < im.numBuckets then
    let pHead ← im.bucketAt bucket
    let (heap, pHead, pRemovedNode) ← eraseUnsafe P heap pHead node.key
    im.finishRemove P heap bucket pHead pRemovedNode
  else pure (im, heap, false)

/-- `ReKey_Lockless(hash, newHash, value, newKey)`. The key changes even when the erase finds nothing. -/
def rekeyLocklessNode (im : InnerMap) (heap : Heap K V) (newHash : Nat) (p : PoolPtr) (newKey : K) :
    Except Fault (InnerMap × Heap K V × Bool) := do
  let node ← getNode P heap p
  let oldBucket := node.bucket
  let newBucket := im.getIndex newHash
  if oldBucket < im.numBuckets then
    if oldBucket ≠ newBucket then
      let heap ← setNode P heap p ({ · with bucket := cReassigningBucket })
      let pHead ← im.bucketAt oldBucket
      let (heap, pHead, pRemovedNode) ← eraseUnsafe P heap pHead node.key
      let im := im.setBucket oldBucket pHead
      let heap ← setNode P heap p ({ · with key := newKey })
      match pRemovedNode with
      | some _ => do
        let heap ← setNode P heap p ({ · with bucket := newBucket })
        let pHead ← im.bucketAt newBucket
        let (heap, pHead) ← insertUnsafe P heap pHead p
        pure (im.setBucket newBucket pHead, heap, true)
      | none => pure (im, heap, false)
    else do
      let heap ← setNode P heap p ({ · with key := newKey })
      pure (im, heap, true)
  else pure (im, heap, false)

/-- `ReKey_Concurrent(hash, newHash, value, newKey)` with no other thread in between: its
compare-exchange of the node's bucket to `c_reassigningBucket` succeeds on the first valid bucket it
reads, and on a bucket that is not valid its loop waits for another thread forever. -/
def rekeyConcurrentNode (im : InnerMap) (heap : Heap K V) (newHash : Nat) (p : PoolPtr) (newKey : K) :
    Except Fault (InnerMap × Heap K V × Bool) := do
  let newBucket := im.getIndex newHash
  let node ← getNode P heap p
  let oldBucket := node.bucket
  if oldBucket < im.numBuckets then
    let heap ← setNode P heap p ({ · with bucket := cReassigningBucket })
    if oldBucket ≠ newBucket then
      let pHead ← im.bucketAt oldBucket
      let (heap, pHead, pRemovedNode) ← eraseUnsafe P heap pHead node.key
      let im := im.setBucket oldBucket pHead
      match pRemovedNode with
      | some _ => do
        let heap ← setNode P heap p ({ · with key := newKey })
        let heap ← setNode P heap p ({ · with bucket := newBucket })
        let pHead ← im.bucketAt newBucket
        let (heap, pHead) ← insertUnsafe P heap pHead p
        pure (im.setBucket newBucket pHead, heap, true)
      | none => pure (im, heap, false)
    else do
      let heap ← setNode P heap p ({ · with key := newKey })
      let heap ← setNode P heap p ({ · with bucket := newBucket })
      pure (im, heap, true)
  else throw .diverges

/-- `ReKey_Concurrent`'s do-while with no other thread running, given `fuel` turns. A turn reads the
node's bucket: one in range wins the compare-exchange and runs the body, `rekeyConcurrentNode`; one out
of range attempts nothing, and the loop turns again. -/
def rekeyConcurrentLoop (im : InnerMap) (heap : Heap K V) (newHash : Nat) (p : PoolPtr) (newKey : K) :
    Nat → Except Fault (InnerMap × Heap K V × Bool)
  | 0 => throw .outOfFuel
  | fuel + 1 => do
    let node ← getNode P heap p
    if node.bucket < im.numBuckets then im.rekeyConcurrentNode P heap newHash p newKey
    else im.rekeyConcurrentLoop heap newHash p newKey fuel

/-- `Clear_Lockless`'s loop body for bucket `i`. -/
def clearBucket (im : InnerMap) (i : Nat) : Except Fault InnerMap := do
  let _ ← im.bucketAt i
  pure (im.setBucket i none)

/-- `Clear_Lockless()`: the count and every list's head are reset; the nodes stay in the pool. -/
def clearLockless (im : InnerMap) : Except Fault InnerMap :=
  (List.range im.numBuckets).foldlM clearBucket { im with count := 0 }

/-! ## The table's shape -/

/-- A shard's table: `nullptr` with no buckets, or `2^j` lists for some `j < 32`. -/
structure TableOk (im : InnerMap) : Prop where
  numBuckets_eq : im.numBuckets = 0 ∨ ∃ j < 32, im.numBuckets = 2 ^ j
  length_eq : ∀ bs, im.buckets = some bs → bs.length = im.numBuckets
  null : im.buckets = none → im.numBuckets = 0

/-- `im'` has the table of `im`, with other heads. -/
structure SameTable (im im' : InnerMap) : Prop where
  numBuckets_eq : im'.numBuckets = im.numBuckets
  lengths_eq : im'.buckets.map List.length = im.buckets.map List.length

variable {im im' : InnerMap}

theorem TableOk.numBuckets_le (h : TableOk im) : im.numBuckets ≤ 2 ^ 31 := by
  rcases h.numBuckets_eq with h0 | ⟨j, hj, hpow⟩
  · omega
  · exact hpow ▸ Nat.pow_le_pow_right (by decide) (by omega)

theorem tableOk_empty : TableOk empty := ⟨Or.inl rfl, fun _ h => (by cases h), fun _ => rfl⟩

theorem TableOk.of_sameTable (h : TableOk im) (hs : SameTable im im') : TableOk im' := by
  refine ⟨hs.numBuckets_eq ▸ h.numBuckets_eq, fun bs hbs => ?_, fun hn => ?_⟩
  · have hl := hs.lengths_eq
    rw [hbs] at hl
    cases hb : im.buckets with
    | none => rw [hb] at hl; cases hl
    | some bs' =>
      rw [hb] at hl
      rw [hs.numBuckets_eq, ← h.length_eq bs' hb]
      exact Option.some.inj hl
  · have hl := hs.lengths_eq
    rw [hn] at hl
    cases hb : im.buckets with
    | none => exact hs.numBuckets_eq.trans (h.null hb)
    | some bs' => rw [hb] at hl; cases hl

theorem SameTable.refl (im : InnerMap) : SameTable im im := ⟨rfl, rfl⟩

theorem SameTable.trans {im'' : InnerMap} (h : SameTable im im') (h' : SameTable im' im'') : SameTable im im'' :=
  ⟨h'.numBuckets_eq.trans h.numBuckets_eq, h'.lengths_eq.trans h.lengths_eq⟩

theorem sameTable_setBucket (im : InnerMap) (i : Nat) (pHead : Option PoolPtr) :
    SameTable im (im.setBucket i pHead) :=
  ⟨rfl, by cases h : im.buckets <;> simp [setBucket, h]⟩

theorem sameTable_count (im : InnerMap) (c : Nat) : SameTable im { im with count := c } := ⟨rfl, rfl⟩

omit [LinearOrder K] in
theorem rehashFrom_length {n : Nat} :
    ∀ {fuel : Nat} {s : Option PoolPtr} {acc r : Heap K V × List (Option PoolPtr)},
      rehashFrom P hash64 n fuel s acc = .ok r → r.2.length = acc.2.length
  | _, none, acc, r, h => by rw [rehashFrom] at h; cases h; rfl
  | 0, some _, _, _, h => by rw [rehashFrom] at h; cases h
  | fuel + 1, some pNode, (heap, nb), r, h => by
    simp only [rehashFrom, except_bind_eq_ok] at h
    obtain ⟨node, -, heap1, -, heap2, -, h⟩ := h
    split at h
    · simp only [except_bind_eq_ok] at h
      obtain ⟨_, -, ⟨heap3, pHead3⟩, -, h⟩ := h
      rw [rehashFrom_length h, List.length_set]
    · simp only [except_bind_eq_ok] at h
      obtain ⟨_, h, -⟩ := h
      cases h

omit [LinearOrder K] in
theorem resize_tableOk {heap heap' : Heap K V} {n : Nat} (hn : ∃ j < 32, n = 2 ^ j)
    (h : im.resize P hash64 heap n = .ok (im', heap')) : TableOk im' := by
  simp only [resize, except_bind_eq_ok] at h
  obtain ⟨⟨heap1, nb⟩, hfold, h⟩ := h
  cases h
  have hlen : nb.length = n := by
    refine foldlM_invariant (fun acc : Heap K V × List (Option PoolPtr) => acc.2.length = n)
      (fun acc i acc' hacc h => ?_) _ (List.length_replicate n none) hfold
    simp only [rehashBucket, except_bind_eq_ok] at h
    obtain ⟨_, -, h⟩ := h
    exact (rehashFrom_length P hash64 h).trans hacc
  exact ⟨Or.inr hn, fun bs hbs => by cases hbs; exact hlen, fun h => by cases h⟩

omit [LinearOrder K] in
theorem finishRemove_sameTable {heap heap' : Heap K V} {bucket : Nat} {pHead pNode : Option PoolPtr} {b : Bool}
    (h : im.finishRemove P heap bucket pHead pNode = .ok (im', heap', b)) : SameTable im im' := by
  simp only [finishRemove] at h
  split at h
  · cases h; exact sameTable_setBucket _ _ _
  · simp only [except_bind_eq_ok] at h
    obtain ⟨_, -, _, -, h⟩ := h
    cases h
    exact (sameTable_setBucket _ _ _).trans (sameTable_count _ _)

theorem removeLockless_sameTable {heap heap' : Heap K V} {hash : Nat} {key : K} {b : Bool}
    (h : im.removeLockless P heap hash key = .ok (im', heap', b)) : SameTable im im' := by
  simp only [removeLockless, except_bind_eq_ok] at h
  obtain ⟨_, -, ⟨_, _, _⟩, -, h⟩ := h
  exact finishRemove_sameTable P h

theorem removeLocklessNode_sameTable {heap heap' : Heap K V} {p : PoolPtr} {b : Bool}
    (h : im.removeLocklessNode P heap p = .ok (im', heap', b)) : SameTable im im' := by
  simp only [removeLocklessNode, except_bind_eq_ok] at h
  obtain ⟨_, -, h⟩ := h
  split at h
  · simp only [except_bind_eq_ok] at h
    obtain ⟨_, -, ⟨_, _, _⟩, -, h⟩ := h
    exact finishRemove_sameTable P h
  · cases h; exact .refl _

theorem rekeyLocklessNode_sameTable {heap heap' : Heap K V} {newHash : Nat} {p : PoolPtr} {newKey : K}
    {b : Bool} (h : im.rekeyLocklessNode P heap newHash p newKey = .ok (im', heap', b)) : SameTable im im' := by
  simp only [rekeyLocklessNode, except_bind_eq_ok] at h
  obtain ⟨_, -, h⟩ := h
  split at h
  · split at h
    · simp only [except_bind_eq_ok] at h
      obtain ⟨_, -, _, -, ⟨_, _, pRemoved⟩, -, _, -, h⟩ := h
      cases pRemoved with
      | none => cases h; exact sameTable_setBucket _ _ _
      | some _ =>
        simp only [except_bind_eq_ok] at h
        obtain ⟨_, -, _, -, ⟨_, _⟩, -, h⟩ := h
        cases h
        exact (sameTable_setBucket _ _ _).trans (sameTable_setBucket _ _ _)
    · simp only [except_bind_eq_ok] at h
      obtain ⟨_, -, h⟩ := h
      cases h; exact .refl _
  · cases h; exact .refl _

theorem rekeyConcurrentNode_sameTable {heap heap' : Heap K V} {newHash : Nat} {p : PoolPtr} {newKey : K}
    {b : Bool} (h : im.rekeyConcurrentNode P heap newHash p newKey = .ok (im', heap', b)) :
    SameTable im im' := by
  simp only [rekeyConcurrentNode, except_bind_eq_ok] at h
  obtain ⟨_, -, h⟩ := h
  split at h
  · simp only [except_bind_eq_ok] at h
    obtain ⟨_, -, h⟩ := h
    split at h
    · simp only [except_bind_eq_ok] at h
      obtain ⟨_, -, ⟨_, _, pRemoved⟩, -, h⟩ := h
      cases pRemoved with
      | none => cases h; exact sameTable_setBucket _ _ _
      | some _ =>
        simp only [except_bind_eq_ok] at h
        obtain ⟨_, -, _, -, _, -, ⟨_, _⟩, -, h⟩ := h
        cases h
        exact (sameTable_setBucket _ _ _).trans (sameTable_setBucket _ _ _)
    · simp only [except_bind_eq_ok] at h
      obtain ⟨_, -, _, -, h⟩ := h
      cases h; exact .refl _
  · cases h

section RekeyLoop

variable {heap : Heap K V} {newHash : Nat} {p : PoolPtr} {newKey : K} {node : Node K V}

/-- A first read of a bucket in range wins: the loop is `rekeyConcurrentNode`. -/
theorem rekeyConcurrentLoop_of_lt (hn : getNode P heap p = .ok node) (hb : node.bucket < im.numBuckets)
    (fuel : Nat) :
    im.rekeyConcurrentLoop P heap newHash p newKey (fuel + 1) = im.rekeyConcurrentNode P heap newHash p newKey := by
  simp only [rekeyConcurrentLoop, hn, except_ok_bind, if_pos hb]

/-- A bucket out of range is read again on every turn and nothing else changes, so no number of turns
ends the loop. -/
theorem rekeyConcurrentLoop_of_le (hn : getNode P heap p = .ok node) (hb : im.numBuckets ≤ node.bucket) :
    ∀ fuel, im.rekeyConcurrentLoop P heap newHash p newKey fuel = .error .outOfFuel
  | 0 => rfl
  | fuel + 1 => by
    simp only [rekeyConcurrentLoop, hn, except_ok_bind, if_neg (Nat.not_lt.2 hb)]
    exact rekeyConcurrentLoop_of_le hn hb fuel

end RekeyLoop

theorem clearLockless_sameTable (h : im.clearLockless = .ok im') : SameTable im im' :=
  foldlM_invariant (SameTable im) (fun acc i acc' hacc h => by
      simp only [clearBucket, except_bind_eq_ok] at h
      obtain ⟨_, -, h⟩ := h
      cases h
      exact hacc.trans (sameTable_setBucket _ _ _))
    _ (sameTable_count im 0) h

theorem insertLockless_tableOk (ht : TableOk im) {heap heap' : Heap K V} {hash : Nat} {key : K} {value : V}
    {r : Option PoolPtr} (h : im.insertLockless P hash64 heap hash key value = .ok (im', heap', r)) :
    TableOk im' := by
  simp only [insertLockless, except_bind_eq_ok] at h
  obtain ⟨⟨im1, heap1⟩, h1, h⟩ := h
  have ht1 : TableOk im1 := by
    split at h1
    · obtain ⟨j, hj, hpow⟩ := getNextPowerOfTwo_eq_pow ((((im.count + 1) % 2 ^ 32) * 2) % 2 ^ 32)
      exact resize_tableOk P hash64 ⟨j, hj, hpow⟩ h1
    · cases h1; exact ht.of_sameTable (sameTable_count _ _)
  obtain ⟨_, -, found, -, h⟩ := h
  cases found with
  | some _ => cases h; exact ht1
  | none =>
    simp only [except_bind_eq_ok] at h
    obtain ⟨_, -, _, -, ⟨_, _⟩, -, h⟩ := h
    cases h
    exact ht1.of_sameTable (sameTable_setBucket _ _ _)

end InnerMap

end PklE.ThreadsafeContainers
