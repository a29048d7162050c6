import ParallelHashMap.Map.HashMap
import ParallelHashMap.Map.Resize
import ParallelHashMap.Pool.Iterator

/-!
# Walking the map

`HashMap::Iterator` (`hash_map.h`) holds the shared pool's iterator: `begin()` and `end()` are the pool's,
`operator++` and `operator!=` are the pool iterator's, and `*it` is the node it stands on. The map's walk
is therefore the shared pool's walk (`iterate`).

`walks_visit_live` puts the three walks together. On every pool that single-threaded calls reach, the pool's
walk visits its live objects, each once, by page index and then by slot (`PagingObjectPool.iterate_eq`,
`liveList_nodup`, `mem_liveList`, `liveIndices_sorted`); a fixed-size pool's own walk visits its allocated
slots in increasing order (`FixedSizeObjectPool.iterate_eq`); and on every map whose shared pool is valid,
whatever its tables hold, the map's walk visits the nodes the pool holds live, each once.
-/

namespace PklE.ThreadsafeContainers

open PklE.CoreTypes SimpleLinkedList

namespace HashMap

variable {K V : Type} (P b : Nat)

/-- `for (it = begin(); it != end(); ++it) visit(*it)` over the map, with words of `2^b` bits in the
pages' bitmaps. -/
def iterate (m : HashMap K V) : Except Fault (List (Option PoolPtr)) := m.sharedPool.iterate P b

/-- The walks visit what their pools hold: a reachable paging pool's walk its live objects, each once, by
page index and then slot; a fixed-size pool's walk its allocated slots in increasing order; the walk of a map
with a valid pool the nodes its pool holds live, each once. `Size_T > 0` and `c_bitIndexSize ∣ Size_T` are the
pools' static assertions. -/
theorem walks_visit_live {T U : Type} {P b : Nat} (hP : 0 < P) (hB : 2 ^ b ∣ P) :
    (∀ (pool : PagingObjectPool T) (returned : List PoolPtr), PagingObjectPool.Reachable P pool returned →
      pool.iterate P b = pure ((PagingObjectPool.liveList P pool).map some) ∧
      (PagingObjectPool.liveList P pool).Nodup ∧
      (∀ q, q ∈ PagingObjectPool.liveList P pool ↔ pool.isLive q = true) ∧
      PagingObjectPool.liveList P pool =
        (PagingObjectPool.liveIndices P pool).map (fun x => ⟨pool.pPageList x.1, x.2⟩) ∧
      (PagingObjectPool.liveIndices P pool).Pairwise (Prod.Lex (· < ·) (· < ·))) ∧
    (∀ pool : FixedSizeObjectPool U, pool.numAllocated = (FixedSizeObjectPool.allocatedSet P pool).card →
      pool.iterate P b = pure ((FixedSizeObjectPool.allocatedSlots P pool).map some) ∧
      (FixedSizeObjectPool.allocatedSlots P pool).Pairwise (· < ·) ∧
      ∀ i, i ∈ FixedSizeObjectPool.allocatedSlots P pool ↔ i < P ∧ pool.bAllocatedBits.testBit i = true) ∧
    ∀ {K V : Type} (m : HashMap K V), PagingObjectPool.Valid P m.sharedPool →
      m.iterate P b = pure ((PagingObjectPool.liveList P m.sharedPool).map some) ∧
      (PagingObjectPool.liveList P m.sharedPool).Nodup ∧
      ∀ q, q ∈ PagingObjectPool.liveList P m.sharedPool ↔ m.sharedPool.isLive q = true := by
  refine ⟨fun pool returned hr => ?_, fun pool hcount => ?_, fun m ⟨fl, hv⟩ => ?_⟩
  · obtain ⟨⟨fl, hv⟩, -⟩ := hr.valid hP
    have hw := hv.pagesOk.walkable
    exact ⟨PagingObjectPool.iterate_eq hB hw, PagingObjectPool.liveList_nodup hw.inj,
      PagingObjectPool.mem_liveList hv.pagesOk, PagingObjectPool.liveList_eq_map_liveIndices,
      PagingObjectPool.liveIndices_sorted⟩
  · exact ⟨FixedSizeObjectPool.iterate_eq hB hcount, (List.pairwise_lt_range P).filter _,
      fun i => by simp [FixedSizeObjectPool.allocatedSlots]⟩
  · have hw := hv.pagesOk.walkable
    exact ⟨PagingObjectPool.iterate_eq hB hw, PagingObjectPool.liveList_nodup hw.inj,
      PagingObjectPool.mem_liveList hv.pagesOk⟩

/-- The map of one shard, `collidingShard`, over its pool `threeNodes`. -/
def collidingMap : HashMap Nat Nat := ⟨threeNodes, 3, fun _ => InnerMap.collidingShard⟩

/-- The walks over `threeNodes`, over a two-slot pool whose slot `1` alone is allocated, and over
`collidingMap`, which visits its three nodes page by page and slot by slot. -/
theorem walks_visit_live_threeNodes :
    PagingObjectPool.Reachable 2 threeNodes [⟨2, 0⟩, ⟨1, 1⟩, ⟨1, 0⟩] ∧
      threeNodes.iterate 2 1 = pure ((PagingObjectPool.liveList 2 threeNodes).map some) ∧
      (⟨fun _ => some 5, 1, 0b10, 0, []⟩ : FixedSizeObjectPool Nat).iterate 2 1 = pure [some 1] ∧
      PagingObjectPool.Valid 2 collidingMap.sharedPool ∧
      collidingMap.iterate 2 1 = pure [some ⟨1, 0⟩, some ⟨1, 1⟩, some ⟨2, 0⟩] := by
  have h := walks_visit_live (T := Node Nat Nat) (U := Nat) (P := 2) (b := 1) (by decide) (by decide)
  have hv : PagingObjectPool.Valid 2 collidingMap.sharedPool := (threeNodes_reachable.valid (by decide)).1
  refine ⟨threeNodes_reachable, (h.1 _ _ threeNodes_reachable).1, ?_, hv, (h.2.2 collidingMap hv).1⟩
  exact (h.2.1 ⟨fun _ => some 5, 1, 0b10, 0, []⟩ (by decide)).1

end HashMap

end PklE.ThreadsafeContainers
