import ParallelHashMap.Map.HashMap
import ParallelHashMap.Map.Resize

/-!
# The map's invariant

`Inv` is the invariant the map's design rests on: every shard's table is `nullptr` or a power of two of
lists; every node on list `b` of shard `s` belongs there by its key's hash and records `b` in its
`bucket`; no key is on two nodes; the lists are acyclic and disjoint, and the nodes the pool holds live
are exactly the nodes on them. `InvWith m L` names the lists: `L s b` is list `b` of shard `s`.

The code does not keep it. A `rekey_lockless` across shards leaves the node on its list with the bucket
`c_reassigningBucket` (`rekeyLockless_breaks_inv`). `Insert_Lockless` counts before it looks for the key,
so inserting a present key leaves the shard's count above its number of nodes
(`insertLockless_present_count`).
-/

namespace PklE.ThreadsafeContainers

open PklE.CoreTypes SimpleLinkedList

namespace HashMap

variable {K V : Type} [LinearOrder K] (P S : Nat) (hash64 : K → Nat)

/-- The nodes on the lists `L` of the map's tables, shard by shard and bucket by bucket. -/
def allNodes (m : HashMap K V) (L : Nat → Nat → List PoolPtr) : List PoolPtr :=
  (List.range S).flatMap fun s => (m.innerMaps s).nodes (L s)

/-- The invariant, with `L s b` the list of bucket `b` of shard `s`. -/
structure InvWith (m : HashMap K V) (L : Nat → Nat → List PoolPtr) : Prop where
  table : ∀ s < S, ((m.innerMaps s).numBuckets = 0 ∨ ∃ j, (m.innerMaps s).numBuckets = 2 ^ j) ∧
    ((m.innerMaps s).buckets = none ∧ (m.innerMaps s).numBuckets = 0 ∨
      ∃ bs, (m.innerMaps s).buckets = some bs ∧ bs.length = (m.innerMaps s).numBuckets)
  chain : ∀ s < S, ∀ b < (m.innerMaps s).numBuckets,
    ∃ pHead, (m.innerMaps s).bucketAt b = .ok pHead ∧ Chain P m.sharedPool pHead (L s b)
  placed : ∀ s < S, ∀ b < (m.innerMaps s).numBuckets, ∀ p ∈ L s b, ∃ node,
    getNode P m.sharedPool p = .ok node ∧ getInnerMapIndex S (hash64 node.key) = s ∧
      (m.innerMaps s).getIndex (hash64 node.key) = b ∧ node.bucket = b
  nodup : (allNodes S m L).Nodup
  key_inj : ∀ p ∈ allNodes S m L, ∀ q ∈ allNodes S m L, ∀ np nq,
    getNode P m.sharedPool p = .ok np → getNode P m.sharedPool q = .ok nq → np.key = nq.key → p = q
  live : ∀ p, m.sharedPool.isLive p = true ↔ p ∈ allNodes S m L

/-- The invariant. -/
def Inv (m : HashMap K V) : Prop := ∃ L, InvWith P S hash64 m L

/-- Two shards, the identity hash, pages of two slots: `reserve(0)`, `insert_lockless(0, 7)` and
`rekey_lockless(0, 1)` reach a map where the node of `0` is still on list `0` of shard `0` but records the
bucket `c_reassigningBucket`. -/
theorem rekeyLockless_breaks_inv : Reachable 2 2 id zeroRekeyed ∧ ¬ Inv 2 2 id zeroRekeyed := by
  refine ⟨reachable_zeroRekeyed, fun ⟨L, hinv⟩ => ?_⟩
  obtain ⟨pHead, hb, hc⟩ := hinv.chain 0 (by decide) 0 (by decide)
  have hhead : (zeroRekeyed.innerMaps 0).bucketAt 0 = .ok (some ⟨1, 0⟩) := rfl
  rw [hhead] at hb
  cases hb
  obtain ⟨-, l, -, hl, -⟩ := hc.some_inv
  obtain ⟨node, hnode, -, -, hbucket⟩ := hinv.placed 0 (by decide) 0 (by decide) _ (hl ▸ List.mem_cons_self _ _)
  have hn : getNode 2 zeroRekeyed.sharedPool ⟨1, 0⟩ = .ok ⟨0, 7, none, cReassigningBucket⟩ := rfl
  rw [hn] at hnode
  cases hnode
  exact absurd hbucket (by decide)

/-- One shard, the identity hash, pages of two slots: `insert_lockless(1, 7)`. -/
def oneInserted : HashMap Nat Nat :=
  match (empty : HashMap Nat Nat).insertLockless 2 1 id 1 7 with
  | .ok (m, _) => m
  | .error _ => empty

/-- `oneInserted` after `insert_lockless(1, 7)` again. -/
def oneInsertedTwice : HashMap Nat Nat :=
  match oneInserted.insertLockless 2 1 id 1 7 with
  | .ok (m, _) => m
  | .error _ => empty

/-- After `insert_lockless(1, 7)` twice, the shard's four lists hold one node, the pool one object and
`Size()` says `1`, but the shard's count says `2`. -/
theorem insertLockless_present_count :
    Reachable 2 1 id oneInsertedTwice ∧ (oneInsertedTwice.innerMaps 0).count = 2 ∧ oneInsertedTwice.size = 1 ∧
      oneInsertedTwice.sharedPool.size = 1 ∧ (oneInsertedTwice.innerMaps 0).numBuckets = 4 ∧
      ∀ b < 4, ∃ pHead, (oneInsertedTwice.innerMaps 0).bucketAt b = .ok pHead ∧
        Chain 2 oneInsertedTwice.sharedPool pHead (if b = 1 then [⟨1, 0⟩] else []) := by
  refine ⟨.insert (.insert .empty
      (show (empty : HashMap Nat Nat).insertLockless 2 1 id 1 7 = .ok (oneInserted, some ⟨1, 0⟩) from rfl))
    (show oneInserted.insertLockless 2 1 id 1 7 = .ok (oneInsertedTwice, none) from rfl),
    rfl, rfl, rfl, rfl, fun b hb => ?_⟩
  match b, hb with
  | 0, _ => exact ⟨none, rfl, .nil⟩
  | 1, _ => exact ⟨some ⟨1, 0⟩, rfl,
    .cons (show getNode 2 oneInsertedTwice.sharedPool ⟨1, 0⟩ = .ok ⟨1, 7, none, 1⟩ from rfl) .nil⟩
  | 2, _ => exact ⟨none, rfl, .nil⟩
  | 3, _ => exact ⟨none, rfl, .nil⟩

end HashMap

end PklE.ThreadsafeContainers
