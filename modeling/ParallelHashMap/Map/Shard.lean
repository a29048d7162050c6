import ParallelHashMap.Map.Resize

/-!
# A shard's operations on its lists

`Find_Lockless`, `Insert_Lockless`, `Remove_Lockless` and `Clear_Lockless` of a shard with a table whose
lists are `ListsOk` over a valid pool. Each returns and leaves the lists `ListsOk`:

* `findLockless_spec`: the first node with the key on the key's list, and `nullptr` exactly when no node
  of the shard has the key (`find?_eq_none_iff`);
* `insertLockless_spec`: with the key present nothing changes but the count and, when the count passes
  the fill capacity, the table's size; otherwise one fresh node with the key and value joins the lists;
* `removeLockless_spec`: with the key present its node leaves the lists and goes back to the pool;
  otherwise nothing changes;
* `clearLockless_spec`: every list is empty.

`Insert_Lockless` counts before it looks for the key, so the count goes up by one on every call,
present key or not (`insertLockless_spec`).

The table grows when the count passes the fill capacity, `numBuckets * 7 / 8` in 32 bits. Up to `3 * 2^27`
objects in a shard this keeps the count at most the fill capacity; past that the product wraps, and an
insert that grows the table leaves the fill capacity below the count (`insertLockless_fillCapacity`).
-/

namespace PklE.ThreadsafeContainers

open PklE.CoreTypes PklE.Util SimpleLinkedList
open scoped List

namespace SimpleLinkedList

variable {K V : Type} {P : Nat}

theorem keyMatches_eq_entryOf [LinearOrder K] (heap : Heap K V) (key : K) (q : PoolPtr) :
    keyMatches P heap key q = (entryOf P heap q).any fun e => decide (e.1 = key) := by
  unfold keyMatches entryOf
  cases getNode P heap q <;> rfl

theorem keyMatches_eq_true_iff [LinearOrder K] {heap : Heap K V} {key : K} {q : PoolPtr} :
    keyMatches P heap key q = true ↔ ∃ v, entryOf P heap q = some (key, v) := by
  rw [keyMatches_eq_entryOf]
  cases entryOf P heap q with
  | none => simp
  | some e => obtain ⟨k, v⟩ := e; simp [eq_comm]

theorem keyMatches_eq_of_entryOf [LinearOrder K] {heap heap' : Heap K V} (h : entryOf P heap' = entryOf P heap) :
    keyMatches P heap' = keyMatches P heap := by
  funext key q
  rw [keyMatches_eq_entryOf, keyMatches_eq_entryOf, h]

/-- A node that reads the same in two heaps has the same entry in both. -/
theorem entryOf_congr {heap heap' : Heap K V} {q : PoolPtr}
    (h : ∀ n, getNode P heap' q = .ok n ↔ getNode P heap q = .ok n) : entryOf P heap' q = entryOf P heap q := by
  cases hq : getNode P heap q with
  | ok n => rw [entryOf_of_getNode ((h n).2 hq), entryOf_of_getNode hq]
  | error e =>
    cases hq' : getNode P heap' q with
    | ok n => rw [(h n).1 hq'] at hq; cases hq
    | error e' => simp only [entryOf, hq, hq']

theorem getNode_congr_nodeAt {heap heap' : Heap K V} (h : heap'.nodeAt = heap.nodeAt) (q : PoolPtr) (n : Node K V) :
    getNode P heap' q = .ok n ↔ getNode P heap q = .ok n := by
  rw [getNode_eq_ok, getNode_eq_ok, h]

theorem getNode_reserved_self {heap heap' : Heap K V} {x : Node K V} {p : PoolPtr}
    (hr : PagingObjectPool.Reserved P heap heap' x p) : getNode P heap' p = .ok x :=
  getNode_eq_ok.2 ⟨hr.slot_lt, hr.data_eq⟩

theorem getNode_reserved_ne {heap heap' : Heap K V} {x : Node K V} {p : PoolPtr}
    (hr : PagingObjectPool.Reserved P heap heap' x p) {q : PoolPtr} (hq : q ≠ p) (n : Node K V) :
    getNode P heap' q = .ok n ↔ getNode P heap q = .ok n := by
  rw [getNode_eq_ok, getNode_eq_ok, hr.nodeAt_eq q hq]

/-- `Insert_Lockless`'s new node: reserved from the pool with the key and value, then given its bucket. -/
theorem reserve_setNode (hP : 0 < P) {heap : Heap K V} (hv : PagingObjectPool.Valid P heap)
    (hpages : heap.numPages < cMaxPages) (key : K) (value : V) (bucket : Nat) :
    ∃ heap' p heap'', heap.reserve P { key := key, value := value } 2 = .ok (heap', p) ∧
      setNode P heap' p ({ · with bucket := bucket }) = .ok heap'' ∧ heap.isLive p = false ∧
      getNode P heap'' p = .ok { key := key, value := value, bucket := bucket } ∧
      (∀ q, q ≠ p → ∀ n, getNode P heap'' q = .ok n ↔ getNode P heap q = .ok n) ∧
      (∀ q, heap''.isLive q = (heap.isLive q || q == p)) ∧ PagingObjectPool.Valid P heap'' ∧
      heap''.numPages ≤ heap.numPages + 1 := by
  obtain ⟨heap', p, hres, hr⟩ :=
    PagingObjectPool.reserve_terminates hP hv hpages { key := key, value := value } le_rfl
  obtain ⟨heap'', hset⟩ := setNode_ok (getNode_reserved_self hr) ({ · with bucket := bucket })
  obtain ⟨fl, hv'⟩ := hr.valid
  have hrw := setNode_rewritten hset
  refine ⟨heap', p, heap'', hres, hset, hr.not_live, ?_, fun q hq n => ?_, fun q => ?_,
    ⟨fl, hrw.valid fl hv'⟩, ?_⟩
  · rw [getNode_setNode hset, if_pos rfl, getNode_reserved_self hr]; rfl
  · rw [getNode_setNode hset, if_neg hq]; exact getNode_reserved_ne hr hq n
  · rw [hrw.isLive_eq, hr.isLive_eq]
  · rw [hrw.numPages_eq]; rcases hr.numPages_eq with h | ⟨h, -⟩ <;> omega

end SimpleLinkedList

namespace InnerMap

variable {K V : Type} {P : Nat} {hash64 : K → Nat} {im im' : InnerMap} {heap heap' : Heap K V}
  {L : Nat → List PoolPtr}

/-! ## Tables and heads -/

theorem TableOk.pow (ht : im.TableOk) (hpos : 0 < im.numBuckets) : ∃ j < 32, im.numBuckets = 2 ^ j :=
  ht.numBuckets_eq.resolve_left (by omega)

theorem TableOk.shape (ht : im.TableOk) : (im.numBuckets = 0 ∨ ∃ j, im.numBuckets = 2 ^ j) ∧
    (im.buckets = none ∧ im.numBuckets = 0 ∨ ∃ bs, im.buckets = some bs ∧ bs.length = im.numBuckets) := by
  refine ⟨ht.numBuckets_eq.imp_right fun ⟨j, _, h⟩ => ⟨j, h⟩, ?_⟩
  cases hb : im.buckets with
  | none => exact Or.inl ⟨rfl, ht.null hb⟩
  | some bs => exact Or.inr ⟨bs, rfl, ht.length_eq bs hb⟩

theorem TableOk.bucketAt_ok (ht : im.TableOk) {b : Nat} (hb : b < im.numBuckets) : ∃ h, im.bucketAt b = .ok h := by
  unfold bucketAt
  cases hbs : im.buckets with
  | none => exact absurd (ht.null hbs) (by omega)
  | some bs =>
    have hlt : b < bs.length := by rw [ht.length_eq bs hbs]; exact hb
    simp only [List.getElem?_eq_getElem hlt]
    exact ⟨_, rfl⟩

theorem getIndex_lt (ht : im.TableOk) (hpos : 0 < im.numBuckets) (hash : Nat) : im.getIndex hash < im.numBuckets :=
  getIndexOf_lt (ht.pow hpos) hash

theorem bucketAt_setBucket {i : Nat} {h0 : Option PoolPtr} (hi : im.bucketAt i = .ok h0) (h : Option PoolPtr)
    (j : Nat) : (im.setBucket i h).bucketAt j = if j = i then .ok h else im.bucketAt j := by
  unfold bucketAt at hi ⊢
  cases hb : im.buckets with
  | none => rw [hb] at hi; cases hi
  | some bs =>
    simp only [hb] at hi
    have hlt : i < bs.length := by
      cases hbi : bs[i]? with
      | none => rw [hbi] at hi; cases hi
      | some _ => exact (List.getElem?_eq_some_iff.1 hbi).1
    simp only [setBucket, hb, Option.map_some', List.getElem?_set, if_pos hlt]
    by_cases hj : j = i
    · subst hj; simp only [if_true]; rfl
    · simp only [if_neg (Ne.symm hj), if_neg hj]

theorem nodes_withCount (im : InnerMap) (c : Nat) (L : Nat → List PoolPtr) :
    ({ im with count := c } : InnerMap).nodes L = im.nodes L := rfl

theorem mem_nodes {q : PoolPtr} : q ∈ im.nodes L ↔ ∃ b < im.numBuckets, q ∈ L b := by
  simp [nodes]

/-! ## Lists that stay `ListsOk` -/

theorem ListsOk.congr (hl : ListsOk P hash64 im heap L) (hn : im'.numBuckets = im.numBuckets)
    (hb : ∀ b < im.numBuckets, im'.bucketAt b = im.bucketAt b) : ListsOk P hash64 im' heap L := by
  have hidx : im'.getIndex = im.getIndex := by funext x; simp only [getIndex, hn]
  refine ⟨fun b hb' => ?_, fun b hb' => ?_, by simpa only [nodes, hn] using hl.nodup⟩
  · rw [hn] at hb'; rw [hb b hb']; exact hl.chain b hb'
  · rw [hn] at hb'; simpa only [hidx] using hl.placed b hb'

theorem ListsOk.withCount (hl : ListsOk P hash64 im heap L) (c : Nat) :
    ListsOk P hash64 { im with count := c } heap L :=
  hl.congr rfl fun _ _ => rfl

theorem ListsOk.frame (hl : ListsOk P hash64 im heap L)
    (hf : ∀ q ∈ im.nodes L, ∀ n, getNode P heap q = .ok n → getNode P heap' q = .ok n) :
    ListsOk P hash64 im heap' L := by
  refine ⟨fun b hb => ?_, fun b hb p hp => ?_, hl.nodup⟩
  · obtain ⟨pHead, hbk, hc⟩ := hl.chain b hb
    exact ⟨pHead, hbk, hc.frame fun q hq => hf q (mem_nodes.2 ⟨b, hb, hq⟩)⟩
  · obtain ⟨node, hn, hidx, hbk⟩ := hl.placed b hb p hp
    exact ⟨node, hf p (mem_nodes.2 ⟨b, hb, hp⟩) node hn, hidx, hbk⟩

theorem ListsOk.getNode_of_mem (hl : ListsOk P hash64 im heap L) {q : PoolPtr} (hq : q ∈ im.nodes L) :
    ∃ n, getNode P heap q = .ok n := by
  obtain ⟨b, hb, hqb⟩ := mem_nodes.1 hq
  obtain ⟨pHead, -, hc⟩ := hl.chain b hb
  exact hc.getNode_of_mem hqb

theorem ListsOk.nodup_bucket (hl : ListsOk P hash64 im heap L) {b : Nat} (hb : b < im.numBuckets) : (L b).Nodup :=
  (List.nodup_flatMap.1 hl.nodup).1 b (List.mem_range.2 hb)

theorem ListsOk.length_le_walkBound (hl : ListsOk P hash64 im heap L) {fl : List Nat}
    (hv : PagingObjectPool.ValidWith P heap fl) {b : Nat} (hb : b < im.numBuckets) {pHead : Option PoolPtr}
    (hc : Chain P heap pHead (L b)) : (L b).length ≤ walkBound P heap :=
  (hc.length_lt_walkBound (hl.nodup_bucket hb) hv.pagesOk.fresh).le

/-- A node with the key lies on the key's list. -/
theorem ListsOk.mem_of_keyMatches [LinearOrder K] (hl : ListsOk P hash64 im heap L) {key : K} {q : PoolPtr}
    (hq : q ∈ im.nodes L) (hk : keyMatches P heap key q = true) : q ∈ L (im.getIndex (hash64 key)) := by
  obtain ⟨b, hb, hqb⟩ := mem_nodes.1 hq
  obtain ⟨node, hn, hidx, -⟩ := hl.placed b hb q hqb
  rw [keyMatches_of_getNode hn, decide_eq_true_iff] at hk
  rw [← hk, hidx]
  exact hqb

/-- The key's list has no node with the key exactly when the shard has none. -/
theorem ListsOk.find?_eq_none_iff [LinearOrder K] (ht : im.TableOk) (hpos : 0 < im.numBuckets)
    (hl : ListsOk P hash64 im heap L) (key : K) :
    (L (im.getIndex (hash64 key))).find? (keyMatches P heap key) = none ↔
      ∀ q ∈ im.nodes L, keyMatches P heap key q = false := by
  rw [List.find?_eq_none]
  refine ⟨fun h q hq => ?_, fun h q hq => ?_⟩
  · by_contra hk
    exact h q (hl.mem_of_keyMatches hq (by simpa using hk)) (by simpa using hk)
  · rw [h q (mem_nodes.2 ⟨_, getIndex_lt ht hpos _, hq⟩)]
    exact Bool.false_ne_true

/-- A node `p` off the lists pushed on list `b`: the lists stay `ListsOk`, with `p` added. -/
theorem ListsOk.push (hl : ListsOk P hash64 im heap L) {b : Nat} (hb : b < im.numBuckets) {pHead : Option PoolPtr}
    (hbucket : im.bucketAt b = .ok pHead) {p : PoolPtr} (hp : p ∉ im.nodes L)
    (hget : ∀ q, q ≠ p → ∀ n, getNode P heap' q = .ok n ↔ getNode P heap q = .ok n) {node : Node K V}
    (hnode : getNode P heap' p = .ok node) (hnext : node.pNext = pHead) (hidx : im.getIndex (hash64 node.key) = b)
    (hbk : node.bucket = b) :
    ListsOk P hash64 (im.setBucket b (some p)) heap' (Function.update L b (p :: L b)) ∧
      (im.setBucket b (some p)).nodes (Function.update L b (p :: L b)) ~ p :: im.nodes L := by
  have hne : ∀ b' < im.numBuckets, ∀ q ∈ L b', q ≠ p :=
    fun b' hb' q hq e => hp (e ▸ mem_nodes.2 ⟨b', hb', hq⟩)
  have hold : ∀ b' < im.numBuckets, ∀ q ∈ L b', ∀ n, getNode P heap q = .ok n → getNode P heap' q = .ok n :=
    fun b' hb' q hq n hn => (hget q (hne b' hb' q hq) n).2 hn
  have hperm : (im.setBucket b (some p)).nodes (Function.update L b (p :: L b)) ~ p :: im.nodes L :=
    flatMap_perm_cons (by rw [Function.update_same]) (fun j hj => Function.update_noteq hj _ _)
      (List.nodup_range _) (List.mem_range.2 hb)
  refine ⟨⟨fun b' hb' => ?_, fun b' hb' q hq => ?_, hperm.nodup_iff.2 (List.nodup_cons.2 ⟨hp, hl.nodup⟩)⟩,
    hperm⟩
  · rw [bucketAt_setBucket hbucket]
    obtain ⟨pHead', hbk', hc⟩ := hl.chain b' hb'
    by_cases hbb : b' = b
    · subst hbb
      rw [hbucket] at hbk'
      cases hbk'
      simp only [if_true, Function.update_same]
      exact ⟨some p, rfl, .cons hnode (hnext ▸ hc.frame (hold b' hb'))⟩
    · simp only [if_neg hbb, Function.update_noteq hbb]
      exact ⟨pHead', hbk', hc.frame (hold b' hb')⟩
  · by_cases hqp : q = p
    · subst hqp
      have hbb : b' = b := by
        by_contra hbb
        rw [Function.update_noteq hbb] at hq
        exact hne b' hb' q hq rfl
      subst hbb
      exact ⟨node, hnode, hidx, hbk⟩
    · have hq' : q ∈ L b' := by
        by_cases hbb : b' = b
        · subst hbb
          rw [Function.update_same] at hq
          exact (List.mem_cons.1 hq).resolve_left hqp
        · rwa [Function.update_noteq hbb] at hq
      obtain ⟨n, hn, hi, hbk'⟩ := hl.placed b' hb' q hq'
      exact ⟨n, (hget q hqp n).2 hn, hi, hbk'⟩

/-- A node is on one list only: the bucket it records. -/
theorem ListsOk.bucket_unique (hl : ListsOk P hash64 im heap L) {b b' : Nat} (hb : b < im.numBuckets)
    (hb' : b' < im.numBuckets) {q : PoolPtr} (hq : q ∈ L b) (hq' : q ∈ L b') : b = b' := by
  obtain ⟨n, hn, -, hbk⟩ := hl.placed b hb q hq
  obtain ⟨n', hn', -, hbk'⟩ := hl.placed b' hb' q hq'
  rw [hn] at hn'
  cases hn'
  exact hbk.symm.trans hbk'

/-- `Erase_Unsafe` unlinked `p` from list `b`, rewriting only links: the lists stay `ListsOk` without
`p`. -/
theorem ListsOk.erase (hl : ListsOk P hash64 im heap L) {b : Nat} (hb : b < im.numBuckets) {pHead : Option PoolPtr}
    (hbucket : im.bucketAt b = .ok pHead) {p : PoolPtr} (hp : p ∈ L b) {pHead1 : Option PoolPtr}
    (hchain1 : Chain P heap' pHead1 ((L b).erase p)) (hframe1 : ∀ q ∉ L b, getNode P heap' q = getNode P heap q)
    (hnext1 : ∀ q ∈ L b, q ≠ p → ∀ n, getNode P heap q = .ok n →
      ∃ nxt, getNode P heap' q = .ok { n with pNext := nxt }) :
    ListsOk P hash64 (im.setBucket b pHead1) heap' (Function.update L b ((L b).erase p)) ∧
      im.nodes L ~ p :: (im.setBucket b pHead1).nodes (Function.update L b ((L b).erase p)) := by
  have hperm : im.nodes L ~ p :: (im.setBucket b pHead1).nodes (Function.update L b ((L b).erase p)) :=
    flatMap_perm_cons (by rw [Function.update_same]; exact List.perm_cons_erase hp)
      (fun j hj => (Function.update_noteq hj _ _).symm) (List.nodup_range _) (List.mem_range.2 hb)
  -- a node that stays on the lists keeps its key and bucket
  have hkeep : ∀ b' < im.numBuckets, ∀ q ∈ L b', q ≠ p → ∀ n, getNode P heap q = .ok n →
      ∃ n', getNode P heap' q = .ok n' ∧ n'.key = n.key ∧ n'.bucket = n.bucket := fun b' hb' q hq hqp n hn => by
    by_cases hqb : q ∈ L b
    · obtain ⟨nxt, h⟩ := hnext1 q hqb hqp n hn
      exact ⟨_, h, rfl, rfl⟩
    · exact ⟨n, by rw [hframe1 q hqb]; exact hn, rfl, rfl⟩
  refine ⟨⟨fun b' hb' => ?_, fun b' hb' q hq => ?_, (List.nodup_cons.1 (hperm.nodup_iff.1 hl.nodup)).2⟩, hperm⟩
  · rw [bucketAt_setBucket hbucket]
    by_cases hbb : b' = b
    · subst hbb
      simp only [if_true, Function.update_same]
      exact ⟨pHead1, rfl, hchain1⟩
    · simp only [if_neg hbb, Function.update_noteq hbb]
      obtain ⟨pHead', hbk', hc⟩ := hl.chain b' hb'
      refine ⟨pHead', hbk', hc.frame fun q hq n hn => ?_⟩
      rw [hframe1 q fun h => hbb (hl.bucket_unique hb' hb hq h)]
      exact hn
  · have hq' : q ∈ L b' ∧ q ≠ p := by
      by_cases hbb : b' = b
      · subst hbb
        rw [Function.update_same] at hq
        exact ((hl.nodup_bucket hb').mem_erase_iff.1 hq).symm
      · rw [Function.update_noteq hbb] at hq
        exact ⟨hq, fun e => hbb (hl.bucket_unique hb' hb hq (e ▸ hp))⟩
    obtain ⟨n, hn, hi, hbk⟩ := hl.placed b' hb' q hq'.1
    obtain ⟨n', hn', hk, hbk'⟩ := hkeep b' hb' q hq'.1 hq'.2 n hn
    exact ⟨n', hn', hk ▸ hi, hbk' ▸ hbk⟩

/-! ## The operations -/

/-- `Find_Lockless(Hash64(key), key)`: the first node with the key on the key's list. -/
theorem findLockless_spec [LinearOrder K] (ht : im.TableOk) (hpos : 0 < im.numBuckets)
    (hl : ListsOk P hash64 im heap L) {fl : List Nat} (hv : PagingObjectPool.ValidWith P heap fl) (key : K) :
    im.findLockless P heap (hash64 key) key = .ok ((L (im.getIndex (hash64 key))).find? (keyMatches P heap key)) := by
  have hb := getIndex_lt ht hpos (hash64 key)
  obtain ⟨pHead, hbucket, hc⟩ := hl.chain _ hb
  simp only [findLockless, hbucket, except_ok_bind, findUnsafe]
  exact findFrom_chain hc (hl.length_le_walkBound hv hb hc)

/-- `Insert_Lockless`'s first step: the count is set to `c` and, when `cond` holds, the table is resized to
`n`. -/
theorem grow_spec (ht : im.TableOk) (hl : ListsOk P hash64 im heap L) {fl : List Nat}
    (hv : PagingObjectPool.ValidWith P heap fl) (c n : Nat) (hn : ∃ j < 32, n = 2 ^ j) (cond : Prop) [Decidable cond]
    (hpos : cond ∨ 0 < im.numBuckets) :
    ∃ im2 heap2 L2, (if cond then { im with count := c }.resize P hash64 heap n
        else pure ({ im with count := c }, heap)) = .ok (im2, heap2) ∧
      im2.TableOk ∧ 0 < im2.numBuckets ∧ im2.count = c ∧ ListsOk P hash64 im2 heap2 L2 ∧
      im2.nodes L2 ~ im.nodes L ∧ Rewritten P heap heap2 ∧ entryOf P heap2 = entryOf P heap ∧
      ∀ q ∉ im.nodes L, getNode P heap2 q = getNode P heap q := by
  have hl1 := hl.withCount c
  by_cases hc : cond
  · obtain ⟨im2, heap2, L2, h, ht2, hnb, hcount, -, hl2, hperm, hrw, hent, hframe⟩ :=
      resize_spec hash64 hn hv hl1.chain hl1.nodup
    refine ⟨im2, heap2, L2, by rw [if_pos hc]; exact h, ht2, ?_, hcount, hl2, hperm, hrw, hent, hframe⟩
    obtain ⟨j, -, rfl⟩ := hn
    rw [hnb]
    exact Nat.two_pow_pos j
  · exact ⟨_, heap, L, by rw [if_neg hc]; rfl, ht.of_sameTable (sameTable_count im c), hpos.resolve_left hc, rfl,
      hl1, .refl _, .refl heap, rfl, fun _ _ => rfl⟩

/-- `Insert_Lockless(Hash64(key), key, value)` on a shard that has a table or grows one on this call, over a
valid pool below `c_MaxPages` pages in which the shard's nodes are live. -/
theorem insertLockless_spec [LinearOrder K] (hP : 0 < P) (ht : im.TableOk)
    (hpos : 0 < im.numBuckets ∨ im.fillCapacity < (im.count + 1) % 2 ^ 32)
    (hl : ListsOk P hash64 im heap L) (hv : PagingObjectPool.Valid P heap) (hpages : heap.numPages < cMaxPages)
    (hlive : ∀ q ∈ im.nodes L, heap.isLive q = true) (key : K) (value : V) :
    ∃ im' heap' L' r, im.insertLockless P hash64 heap (hash64 key) key value = .ok (im', heap', r) ∧
      im'.TableOk ∧ 0 < im'.numBuckets ∧ im'.count = (im.count + 1) % 2 ^ 32 ∧ ListsOk P hash64 im' heap' L' ∧
      PagingObjectPool.Valid P heap' ∧ heap'.numPages ≤ heap.numPages + 1 ∧
      (∀ q ∉ im.nodes L, heap.isLive q = true → ∀ n, getNode P heap q = .ok n → getNode P heap' q = .ok n) ∧
      ((∃ q ∈ im.nodes L, keyMatches P heap key q = true) ∧ r = none ∧ im'.nodes L' ~ im.nodes L ∧
          heap'.isLive = heap.isLive ∧ entryOf P heap' = entryOf P heap ∨
        (∀ q ∈ im.nodes L, keyMatches P heap key q = false) ∧ ∃ p, r = some p ∧ heap.isLive p = false ∧
          im'.nodes L' ~ p :: im.nodes L ∧ (∀ q, heap'.isLive q = (heap.isLive q || q == p)) ∧
          entryOf P heap' = Function.update (entryOf P heap) p (some (key, value))) := by
  obtain ⟨fl, hvw⟩ := hv
  obtain ⟨im2, heap2, L2, hgrow, ht2, hpos2, hcount2, hl2, hperm2, hrw2, hent2, hframe2⟩ :=
    grow_spec ht hl hvw ((im.count + 1) % 2 ^ 32) (getNextPowerOfTwo ((im.count + 1) % 2 ^ 32 * 2 % 2 ^ 32))
      (getNextPowerOfTwo_eq_pow _) ((im.count + 1) % 2 ^ 32 > im.fillCapacity) hpos.symm
  have hvw2 := hrw2.valid fl hvw
  obtain ⟨b, hbdef⟩ : ∃ b, im2.getIndex (hash64 key) = b := ⟨_, rfl⟩
  have hb : b < im2.numBuckets := hbdef ▸ getIndex_lt ht2 hpos2 _
  obtain ⟨pHead, hbucket, hchain⟩ := hl2.chain b hb
  have hfind : findUnsafe P heap2 pHead key = .ok ((L2 b).find? (keyMatches P heap2 key)) :=
    findFrom_chain hchain (hl2.length_le_walkBound hvw2 hb hchain)
  have hkm : keyMatches P heap2 = keyMatches P heap := keyMatches_eq_of_entryOf hent2
  cases hf : (L2 b).find? (keyMatches P heap2 key) with
  | some q =>
    -- the key is present: nothing is added
    have hq : q ∈ im2.nodes L2 := mem_nodes.2 ⟨b, hb, List.mem_of_find?_eq_some hf⟩
    refine ⟨im2, heap2, L2, none, ?_, ht2, hpos2, hcount2, hl2, ⟨fl, hvw2⟩, by rw [hrw2.numPages_eq]; omega,
      fun q hq _ n hn => by rw [hframe2 q hq]; exact hn,
      Or.inl ⟨⟨q, hperm2.mem_iff.1 hq, by rw [← hkm]; exact List.find?_some hf⟩, rfl, hperm2, hrw2.isLive_eq,
        hent2⟩⟩
    simp only [insertLockless, hgrow, except_ok_bind, hbdef, hbucket, hfind, hf]
    rfl
  | none =>
    -- the key is absent: a fresh node goes on the key's list
    have hnone := (hl2.find?_eq_none_iff ht2 hpos2 key).1 (hbdef ▸ hf)
    obtain ⟨heap3, p, heap4, hres, hset, hnotlive, hnode4, hget4, hlive4, hv4, hpages4⟩ :=
      reserve_setNode hP ⟨fl, hvw2⟩ (by rw [hrw2.numPages_eq]; exact hpages) key value b
    have hplive : heap.isLive p = false := by rw [← hrw2.isLive_eq]; exact hnotlive
    have hp : p ∉ im2.nodes L2 := fun h => by rw [hlive p (hperm2.mem_iff.1 h)] at hplive; cases hplive
    have hpb : p ∉ L2 b := fun h => hp (mem_nodes.2 ⟨b, hb, h⟩)
    have hchain4 : Chain P heap4 pHead (L2 b) :=
      hchain.frame fun q hq n hn => (hget4 q (fun e => hpb (e ▸ hq)) n).2 hn
    obtain ⟨heap5, hins, -, hrw5, hget5⟩ := insertUnsafe_chain hchain4 hpb hnode4
    have hget : ∀ q, q ≠ p → ∀ n, getNode P heap5 q = .ok n ↔ getNode P heap2 q = .ok n := fun q hq n => by
      rw [hget5, if_neg hq]; exact hget4 q hq n
    have hnode5 : getNode P heap5 p = .ok { key := key, value := value, pNext := pHead, bucket := b } :=
      (hget5 p).trans (if_pos rfl)
    obtain ⟨hl', hperm'⟩ := hl2.push hb hbucket hp hget hnode5 rfl hbdef rfl
    obtain ⟨fl4, hv4⟩ := hv4
    refine ⟨im2.setBucket b (some p), heap5, Function.update L2 b (p :: L2 b), some p, ?_,
      ht2.of_sameTable (sameTable_setBucket _ _ _), hpos2, hcount2, hl', ⟨fl4, hrw5.valid fl4 hv4⟩,
      by rw [hrw5.numPages_eq, ← hrw2.numPages_eq]; exact hpages4, fun q hq hql n hn => ?_,
      Or.inr ⟨fun q hq => ?_, p, rfl, hplive, hperm'.trans (hperm2.cons p), fun q => ?_, ?_⟩⟩
    · simp only [insertLockless, hgrow, except_ok_bind, hbdef, hbucket, hfind, hf, hres, hset, hins]
      rfl
    · have hqp : q ≠ p := fun e => by rw [e, hplive] at hql; cases hql
      exact (hget q hqp n).2 (by rw [hframe2 q hq]; exact hn)
    · rw [← hkm]; exact hnone q (hperm2.mem_iff.2 hq)
    · rw [hrw5.isLive_eq, hlive4, hrw2.isLive_eq]
    · funext q
      by_cases hqp : q = p
      · subst hqp
        rw [Function.update_same, entryOf_of_getNode hnode5]
      · rw [Function.update_noteq hqp, entryOf_congr (hget q hqp), hent2]

/-- `Remove_Lockless(Hash64(key), key)` on a shard with a table over a valid pool. -/
theorem removeLockless_spec [LinearOrder K] (ht : im.TableOk) (hpos : 0 < im.numBuckets)
    (hl : ListsOk P hash64 im heap L) (hv : PagingObjectPool.Valid P heap) (key : K) :
    ∃ im' heap' L' r, im.removeLockless P heap (hash64 key) key = .ok (im', heap', r) ∧ SameTable im im' ∧
      ListsOk P hash64 im' heap' L' ∧ PagingObjectPool.Valid P heap' ∧ heap'.numPages = heap.numPages ∧
      (∀ q ∉ im.nodes L, ∀ n, getNode P heap q = .ok n → getNode P heap' q = .ok n) ∧
      ((∀ q ∈ im.nodes L, keyMatches P heap key q = false) ∧ r = false ∧ im'.nodes L' = im.nodes L ∧
          heap' = heap ∧ im'.count = im.count ∨
        ∃ p ∈ im.nodes L, keyMatches P heap key p = true ∧ r = true ∧ im.nodes L ~ p :: im'.nodes L' ∧
          (∀ q, heap'.isLive q = (heap.isLive q && q != p)) ∧ entryOf P heap' = entryOf P heap ∧
          im'.count = (im.count + 2 ^ 32 - 1) % 2 ^ 32) := by
  obtain ⟨fl, hvw⟩ := hv
  obtain ⟨b, hbdef⟩ : ∃ b, im.getIndex (hash64 key) = b := ⟨_, rfl⟩
  have hb : b < im.numBuckets := hbdef ▸ getIndex_lt ht hpos _
  obtain ⟨pHead, hbucket, hchain⟩ := hl.chain b hb
  rcases eraseUnsafe_chain key hchain (hl.nodup_bucket hb) (hl.length_le_walkBound hvw hb hchain) with
    ⟨herase, hnone⟩ | ⟨p, heap1, pHead1, herase, hp, hmatch, hchain1, hrw1, hframe1, hnext1⟩
  · -- no node has the key: the head is written back unchanged
    refine ⟨im.setBucket b pHead, heap, L, false, ?_, sameTable_setBucket _ _ _, hl.congr rfl fun b' _ => ?_,
      ⟨fl, hvw⟩, rfl, fun _ _ _ h => h, Or.inl ⟨fun q hq => ?_, rfl, rfl, rfl, rfl⟩⟩
    · simp only [removeLockless, hbdef, hbucket, except_ok_bind, herase, finishRemove]
      rfl
    · rw [bucketAt_setBucket hbucket]
      split_ifs with h
      · rw [h, hbucket]
      · rfl
    · cases hk : keyMatches P heap key q
      · rfl
      · have hqb := hl.mem_of_keyMatches hq hk
        rw [hbdef] at hqb
        rw [hnone q hqb] at hk
        cases hk
  · -- the node `p` with the key is unlinked and released
    obtain ⟨np, hnp⟩ := hchain.getNode_of_mem hp
    obtain ⟨nxt, hnp1⟩ := hnext1 p hp np hnp
    obtain ⟨np', hnp', -, hbk⟩ := hl.placed b hb p hp
    rw [hnp] at hnp'
    cases hnp'
    have hmark : ({ np with pNext := nxt } : Node K V).bucket ≠ cReassigningBucket := by
      show np.bucket ≠ _
      have := ht.numBuckets_le
      rw [hbk]
      simp only [cReassigningBucket]
      omega
    obtain ⟨hslot, hat⟩ := getNode_eq_ok.1 hnp1
    obtain ⟨heap2, hrel, hv2, hnodeAt2, -, hlive2, -, hnum2, -⟩ :=
      PagingObjectPool.release_spec (hrw1.valid fl hvw) (fun h => by simp [h] at hat) hslot
    obtain ⟨hl1, hperm⟩ := hl.erase hb hbucket hp hchain1 hframe1 fun q hq _ => hnext1 q hq
    have hl2 := (hl1.frame fun q _ n hn => (getNode_congr_nodeAt hnodeAt2 q n).2 hn).withCount
      ((im.count + 2 ^ 32 - 1) % 2 ^ 32)
    refine ⟨_, heap2, Function.update L b ((L b).erase p), true, ?_,
      (sameTable_setBucket _ _ _).trans (sameTable_count _ _), hl2, hv2, hnum2.trans hrw1.numPages_eq,
      fun q hq n hn => ?_, Or.inr ⟨p, mem_nodes.2 ⟨b, hb, hp⟩, hmatch, rfl,
        by rw [nodes_withCount (im.setBucket b pHead1)]; exact hperm,
        fun q => by rw [hlive2, hrw1.isLive_eq], ?_, rfl⟩⟩
    · simp only [removeLockless, hbdef, hbucket, except_ok_bind, herase, finishRemove, hnp1, if_pos hmark, hrel]
      rfl
    · exact (getNode_congr_nodeAt hnodeAt2 q n).2
        (by rw [hframe1 q fun h => hq (mem_nodes.2 ⟨b, hb, h⟩)]; exact hn)
    · have hent1 : entryOf P heap1 = entryOf P heap := entryOf_eq_of_getNode fun q =>
        ⟨fun n hn => by
          by_cases hqb : q ∈ L b
          · obtain ⟨nxt, h⟩ := hnext1 q hqb n hn
            exact ⟨_, h, rfl, rfl⟩
          · exact ⟨n, by rw [hframe1 q hqb]; exact hn, rfl, rfl⟩,
         fun n hn => (hrw1.ok_iff q).1 ⟨n, hn⟩⟩
      funext q
      rw [entryOf_congr (getNode_congr_nodeAt hnodeAt2 q), hent1]

/-- `Clear_Lockless`'s loop over the buckets `todo`, each with a head. -/
theorem clearBucket_foldlM : ∀ (todo : List Nat) (acc : InnerMap), (∀ b ∈ todo, ∃ h, acc.bucketAt b = .ok h) →
    ∃ acc', todo.foldlM clearBucket acc = .ok acc' ∧ SameTable acc acc' ∧ acc'.count = acc.count ∧
      acc'.fillCapacity = acc.fillCapacity ∧ ∀ b, acc'.bucketAt b = if b ∈ todo then .ok none else acc.bucketAt b
  | [], acc, _ => ⟨acc, rfl, .refl _, rfl, rfl, fun b => by simp⟩
  | i :: todo, acc, h => by
    obtain ⟨h0, hi⟩ := h i (List.mem_cons_self _ _)
    have hnext : ∀ b ∈ todo, ∃ h, (acc.setBucket i none).bucketAt b = .ok h := fun b hb => by
      rw [bucketAt_setBucket hi]
      split_ifs
      · exact ⟨none, rfl⟩
      · exact h b (List.mem_cons_of_mem _ hb)
    obtain ⟨acc', hfold, hsame, hcount, hfill, hbk⟩ := clearBucket_foldlM todo _ hnext
    refine ⟨acc', ?_, (sameTable_setBucket _ _ _).trans hsame, hcount, hfill, fun b => ?_⟩
    · simp only [List.foldlM_cons, clearBucket, hi, except_ok_bind]
      exact hfold
    · rw [hbk, bucketAt_setBucket hi]
      by_cases hb : b = i
      · simp [hb]
      · by_cases hbt : b ∈ todo <;> simp [hb, hbt]

/-- `Clear_Lockless()`: every head is `nullptr` and the count is `0`. -/
theorem clearLockless_spec (ht : im.TableOk) :
    ∃ im', im.clearLockless = .ok im' ∧ SameTable im im' ∧ im'.count = 0 ∧ im'.fillCapacity = im.fillCapacity ∧
      ∀ b < im.numBuckets, im'.bucketAt b = .ok none := by
  obtain ⟨im', hfold, hsame, hcount, hfill, hbk⟩ := clearBucket_foldlM (List.range im.numBuckets)
    { im with count := 0 } fun b hb => ht.bucketAt_ok (List.mem_range.1 hb)
  exact ⟨im', hfold, (sameTable_count im 0).trans hsame, hcount, hfill, fun b hb => by
    rw [hbk, if_pos (List.mem_range.2 hb)]⟩

@[simp] theorem nodes_nil (im : InnerMap) : im.nodes (fun _ => []) = [] :=
  List.flatMap_eq_nil_iff.2 fun _ _ => rfl

/-- A table whose heads are all `nullptr` has empty lists. -/
theorem listsOk_nil (h : ∀ b < im.numBuckets, im.bucketAt b = .ok none) :
    ListsOk P hash64 im heap (fun _ => []) :=
  ⟨fun b hb => ⟨none, h b hb, .nil⟩, fun _ _ _ hp => absurd hp (List.not_mem_nil _),
    by rw [nodes_nil]; exact List.nodup_nil⟩

/-! ## When `Insert_Lockless` grows the table -/

/-- `Insert_Lockless` leaves the count and the fill capacity its growth step set: the count one up, and the
old fill capacity, or the one `Resize` sets when the count passed it. -/
theorem insertLockless_count_fill [LinearOrder K] {hash : Nat} {key : K} {value : V} {r : Option PoolPtr}
    (h : im.insertLockless P hash64 heap hash key value = .ok (im', heap', r)) :
    im'.count = (im.count + 1) % 2 ^ 32 ∧
      im'.fillCapacity = if (im.count + 1) % 2 ^ 32 > im.fillCapacity then
        (getNextPowerOfTwo ((im.count + 1) % 2 ^ 32 * 2 % 2 ^ 32) * 7) % 2 ^ 32 / 8 else im.fillCapacity := by
  simp only [insertLockless] at h
  obtain ⟨⟨im2, heap2⟩, hgrow, h⟩ := except_bind_eq_ok.1 h
  -- the steps after the growth write bucket heads only
  have h2 : im'.count = im2.count ∧ im'.fillCapacity = im2.fillCapacity := by
    obtain ⟨_, -, h⟩ := except_bind_eq_ok.1 h
    obtain ⟨found, -, h⟩ := except_bind_eq_ok.1 h
    cases found with
    | some _ => cases h; exact ⟨rfl, rfl⟩
    | none =>
      obtain ⟨_, -, h⟩ := except_bind_eq_ok.1 h
      obtain ⟨_, -, h⟩ := except_bind_eq_ok.1 h
      obtain ⟨_, -, h⟩ := except_bind_eq_ok.1 h
      cases h; exact ⟨rfl, rfl⟩
  rw [h2.1, h2.2]
  split_ifs at hgrow ⊢
  · simp only [resize] at hgrow
    obtain ⟨_, -, hgrow⟩ := except_bind_eq_ok.1 hgrow
    cases hgrow; exact ⟨rfl, rfl⟩
  · cases hgrow; exact ⟨rfl, rfl⟩

/-- The load `Insert_Lockless` leaves. `Resize` sets the fill capacity to `numBuckets * 7 / 8` computed in 32
bits, which wraps from `2^30` buckets on. Up to `3 * 2^27` objects in the shard, every insert leaves the count
at most the fill capacity, the table growing to the least power of two that covers twice the count when the
count passes it. Past `3 * 2^27`, an insert that grows the table leaves the fill capacity below the count, so
the next insert grows the table again. -/
theorem insertLockless_fillCapacity [LinearOrder K] {hash : Nat} {key : K} {value : V} {r : Option PoolPtr}
    (h : im.insertLockless P hash64 heap hash key value = .ok (im', heap', r)) :
    im'.count = (im.count + 1) % 2 ^ 32 ∧ (im'.count ≤ 3 * 2 ^ 27 → im'.count ≤ im'.fillCapacity) ∧
      (3 * 2 ^ 27 < im'.count → im.fillCapacity < im'.count → im'.fillCapacity < im'.count) := by
  obtain ⟨hcount, hfill⟩ := insertLockless_count_fill h
  rw [← hcount] at hfill
  obtain ⟨j, hj, hN⟩ := getNextPowerOfTwo_eq_pow (im'.count * 2 % 2 ^ 32)
  refine ⟨hcount, fun hc => ?_, fun hc hgrow => ?_⟩
  · split_ifs at hfill with hgrow
    · -- the table grew to the least power of two that covers twice the count
      have hcover : im'.count * 2 % 2 ^ 32 ≤ getNextPowerOfTwo (im'.count * 2 % 2 ^ 32) :=
        le_getNextPowerOfTwo (by omega)
      have hleast := getNextPowerOfTwo_le_of_le (j := 30) (by decide) (by omega : im'.count * 2 % 2 ^ 32 ≤ 2 ^ 30)
      rw [hN, Nat.mod_eq_of_lt (by omega)] at hcover
      rw [hN] at hleast
      rw [hfill, hN]
      rcases Nat.lt_or_ge j 30 with hj30 | hj30
      · have : 2 ^ j ≤ 2 ^ 29 := Nat.pow_le_pow_right (by decide) (by omega)
        rw [Nat.mod_eq_of_lt (by omega)]
        omega
      · obtain rfl : j = 30 := le_antisymm ((Nat.pow_le_pow_iff_right (by decide)).1 hleast) hj30
        omega
    · omega
  · rw [if_pos hgrow] at hfill
    rw [hfill, hN]
    rcases Nat.lt_or_ge im'.count (2 ^ 29) with hc29 | hc29
    · -- twice the count is past `2^29`, so the table has `2^30` or `2^31` buckets
      have hcover : im'.count * 2 % 2 ^ 32 ≤ getNextPowerOfTwo (im'.count * 2 % 2 ^ 32) :=
        le_getNextPowerOfTwo (by omega)
      rw [hN] at hcover
      have hj30 : 30 ≤ j := by
        by_contra hlt
        have : 2 ^ j ≤ 2 ^ 29 := Nat.pow_le_pow_right (by decide) (by omega)
        omega
      obtain rfl | rfl : j = 30 ∨ j = 31 := by omega
      all_goals omega
    · omega

theorem insertLockless_fillCapacity_first :
    ∃ im' heap' r, empty.insertLockless 2 id (PagingObjectPool.init : Heap Nat Nat) 5 5 7 = .ok (im', heap', r) ∧
      im'.count = (empty.count + 1) % 2 ^ 32 ∧ (im'.count ≤ 3 * 2 ^ 27 → im'.count ≤ im'.fillCapacity) ∧
      (3 * 2 ^ 27 < im'.count → empty.fillCapacity < im'.count → im'.fillCapacity < im'.count) :=
  have ⟨im', heap', r, h⟩ : ∃ im' heap' r,
      empty.insertLockless 2 id (PagingObjectPool.init : Heap Nat Nat) 5 5 7 = .ok (im', heap', r) :=
    ⟨_, _, _, rfl⟩
  ⟨im', heap', r, h, insertLockless_fillCapacity h⟩

end InnerMap

end PklE.ThreadsafeContainers
