import ParallelHashMap.Map.InnerMap

/-!
# Resizing a shard

`Resize(newNumBuckets)` walks the old lists in bucket order and moves each node to the front of its list
in the new table. From a shard whose lists are chains with no node twice, and a new size that is a power
of two below `2^32`, it returns (`resize_spec`): the new table has `newNumBuckets` lists; together they
hold exactly the old nodes (`List.Perm`); each node is on the list of its key's hash and records that
list in its `bucket`; every node keeps its key and value (`entryOf`), and nodes off the old lists are not
touched.

The walk of one list is `rehashFrom_spec`, one step of it `rehashFrom_step`; `NewTable` is what the new
table holds between steps.
-/

namespace PklE.ThreadsafeContainers

open PklE.CoreTypes PklE.Util SimpleLinkedList
open scoped List

/-! ## Lists of lists -/

/-- Putting `p` on the list `i` of a family puts it on their concatenation over distinct indices. -/
theorem flatMap_perm_cons {ι α : Type} [DecidableEq ι] {f g : ι → List α} {i : ι} {p : α}
    (hi : g i ~ p :: f i) (hg : ∀ j, j ≠ i → g j = f j) :
    ∀ {l : List ι}, l.Nodup → i ∈ l → l.flatMap g ~ p :: l.flatMap f
  | j :: l, hnd, hmem => by
    rw [List.flatMap_cons, List.flatMap_cons]
    by_cases hj : j = i
    · subst hj
      have hrest : l.flatMap g = l.flatMap f :=
        List.flatMap_congr fun k hk => hg k fun e => (List.nodup_cons.1 hnd).1 (e ▸ hk)
      rw [hrest]
      exact hi.append_right _
    · rw [hg j hj]
      have hl : i ∈ l := (List.mem_cons.1 hmem).resolve_left (Ne.symm hj)
      exact ((flatMap_perm_cons hi hg (List.nodup_cons.1 hnd).2 hl).append_left _).trans List.perm_middle

/-! ## Keys and values -/

namespace SimpleLinkedList

variable {K V : Type} {P : Nat}

variable (P) in
/-- The key and value of the node at `p`. -/
def entryOf (heap : Heap K V) (p : PoolPtr) : Option (K × V) :=
  match getNode P heap p with
  | .ok node => some (node.key, node.value)
  | .error _ => none

theorem entryOf_of_getNode {heap : Heap K V} {p : PoolPtr} {node : Node K V} (h : getNode P heap p = .ok node) :
    entryOf P heap p = some (node.key, node.value) := by
  simp only [entryOf, h]

theorem entryOf_eq_some {heap : Heap K V} {p : PoolPtr} {e : K × V} :
    entryOf P heap p = some e ↔ ∃ node, getNode P heap p = .ok node ∧ (node.key, node.value) = e := by
  unfold entryOf
  cases getNode P heap p <;> simp

/-- A heap in which every node reads as before, up to fields other than its key and value, has the same
entries. -/
theorem entryOf_eq_of_getNode {heap heap' : Heap K V}
    (h : ∀ q, (∀ n, getNode P heap q = .ok n →
        ∃ n', getNode P heap' q = .ok n' ∧ n'.key = n.key ∧ n'.value = n.value) ∧
      ∀ n', getNode P heap' q = .ok n' → ∃ n, getNode P heap q = .ok n) :
    entryOf P heap' = entryOf P heap := by
  funext q
  cases hq : getNode P heap q with
  | ok n =>
    obtain ⟨n', hn', hk, hv⟩ := (h q).1 n hq
    rw [entryOf_of_getNode hn', entryOf_of_getNode hq, hk, hv]
  | error e =>
    cases hq' : getNode P heap' q with
    | ok n' =>
      obtain ⟨n, hn⟩ := (h q).2 n' hq'
      rw [hq] at hn; cases hn
    | error e' => simp only [entryOf, hq, hq']

end SimpleLinkedList

namespace InnerMap

variable {K V : Type} {P : Nat} {hash64 : K → Nat}

/-! ## Indices -/

/-- In a table of `2^j` buckets, `j < 32`, every hash has a bucket. -/
theorem getIndexOf_lt {n : Nat} (hn : ∃ j < 32, n = 2 ^ j) (hash : Nat) : getIndexOf n hash < n := by
  have hpos : 0 < n := by obtain ⟨j, -, rfl⟩ := hn; exact Nat.two_pow_pos j
  rw [getIndexOf_pow hn]
  exact lt_of_le_of_lt Nat.and_le_right (by omega)

/-! ## The new table -/

variable (P hash64) in
/-- What `Resize`'s new table holds while it runs: `nb` has `n` heads, list `j` is `NL j`, and each node on
it belongs there by its key's hash and records `j`. -/
structure NewTable (n : Nat) (heap : Heap K V) (nb : List (Option PoolPtr)) (NL : Nat → List PoolPtr) : Prop where
  length_eq : nb.length = n
  chain : ∀ j, Chain P heap (nb.getD j none) (NL j)
  placed : ∀ j, ∀ p ∈ NL j, ∃ node, getNode P heap p = .ok node ∧ getIndexOf n (hash64 node.key) = j ∧
    node.bucket = j

variable (hash64) in
theorem newTable_replicate (n : Nat) (heap : Heap K V) :
    NewTable P hash64 n heap (List.replicate n none) (fun _ => []) :=
  ⟨List.length_replicate n none, fun j => by
    rw [List.getD_eq_getElem?_getD, List.getElem?_replicate]
    split_ifs <;> exact .nil, fun _ _ h => absurd h (List.not_mem_nil _)⟩

/-- One node of the walk: unlinked, given its new bucket `idx`, and pushed on the new list `l` there. -/
theorem rehashFrom_step (fuel : Nat) {n idx : Nat} {pNode : PoolPtr} {heap : Heap K V} {nb : List (Option PoolPtr)}
    {node : Node K V} (hn : getNode P heap pNode = .ok node) (hidx : getIndexOf n (hash64 node.key) = idx)
    {pHead : Option PoolPtr} (hb : nb[idx]? = some pHead) {l : List PoolPtr} (hc : Chain P heap pHead l)
    (hp : pNode ∉ l) :
    ∃ heap', rehashFrom P hash64 n (fuel + 1) (some pNode) (heap, nb) =
        rehashFrom P hash64 n fuel node.pNext (heap', nb.set idx (some pNode)) ∧
      Chain P heap' (some pNode) (pNode :: l) ∧ Rewritten P heap heap' ∧
      ∀ q, getNode P heap' q =
        if q = pNode then .ok { node with pNext := pHead, bucket := idx } else getNode P heap q := by
  obtain ⟨heap1, h1⟩ := setNode_ok hn (fun m => { m with pNext := none })
  have hn1 : getNode P heap1 pNode = .ok { node with pNext := none } := by
    rw [getNode_setNode h1, if_pos rfl, hn]; rfl
  obtain ⟨heap2, h2⟩ := setNode_ok hn1 (fun m => { m with bucket := idx })
  have hn2 : getNode P heap2 pNode = .ok { node with pNext := none, bucket := idx } := by
    rw [getNode_setNode h2, if_pos rfl, hn1]; rfl
  have hframe : ∀ q, q ≠ pNode → getNode P heap2 q = getNode P heap q := fun q hq => by
    rw [getNode_setNode h2, if_neg hq, getNode_setNode h1, if_neg hq]
  have hc2 : Chain P heap2 pHead l :=
    hc.frame fun q hq m hm => by rw [hframe q fun e => hp (e ▸ hq)]; exact hm
  obtain ⟨heap', hins, hchain, hrw, hget⟩ := insertUnsafe_chain hc2 hp hn2
  refine ⟨heap', ?_, hchain, (setNode_rewritten h1).trans ((setNode_rewritten h2).trans hrw), fun q => ?_⟩
  · simp only [rehashFrom, hn, except_ok_bind, h1, hidx, h2, hb, pure, Except.pure, hins]
  · rw [hget]
    split_ifs with hq
    · rfl
    · exact hframe q hq

/-- `Resize`'s walk of an old list `rest` with no node on the new table: every node of `rest` goes to
the new table, and nothing else changes but links and buckets of `rest`. -/
theorem rehashFrom_spec {n : Nat} (hn : ∃ j < 32, n = 2 ^ j) :
    ∀ {rest : List PoolPtr} {fuel : Nat} {cur : Option PoolPtr} {heap : Heap K V} {nb : List (Option PoolPtr)}
      {NL : Nat → List PoolPtr},
      Chain P heap cur rest → rest.length ≤ fuel → NewTable P hash64 n heap nb NL →
      ((List.range n).flatMap NL ++ rest).Nodup →
      ∃ heap' nb' NL', rehashFrom P hash64 n fuel cur (heap, nb) = .ok (heap', nb') ∧
        NewTable P hash64 n heap' nb' NL' ∧ (List.range n).flatMap NL' ~ (List.range n).flatMap NL ++ rest ∧
        Rewritten P heap heap' ∧ entryOf P heap' = entryOf P heap ∧
        ∀ q ∉ rest, getNode P heap' q = getNode P heap q
  | [], fuel, cur, heap, nb, NL, hc, _, ht, _ => by
    cases hc
    exact ⟨heap, nb, NL, by cases fuel <;> rfl, ht, by simp, .refl heap, rfl, fun _ _ => rfl⟩
  | c :: rest, fuel, cur, heap, nb, NL, hc, hfuel, ht, hnd => by
    obtain ⟨node, hcn, rfl, htail⟩ := hc.cons_inv
    obtain ⟨f, rfl⟩ : ∃ f, fuel = f + 1 := ⟨fuel - 1, by simp only [List.length_cons] at hfuel; omega⟩
    have hidx : getIndexOf n (hash64 node.key) < nb.length := by rw [ht.length_eq]; exact getIndexOf_lt hn _
    set idx := getIndexOf n (hash64 node.key) with hidx_def
    have hb : nb[idx]? = some (nb.getD idx none) := by
      rw [List.getD_eq_getElem?_getD, List.getElem?_eq_getElem hidx]; rfl
    -- `c` is on no new list and not further down its old one
    have hnd' : (c :: ((List.range n).flatMap NL ++ rest)).Nodup := List.perm_middle.nodup_iff.1 hnd
    have hcnew : ∀ j, c ∉ NL j := fun j hj => by
      have hjn : j < n := by
        obtain ⟨nd, hnd, hnj, -⟩ := ht.placed j c hj
        exact hnj ▸ getIndexOf_lt hn _
      exact (List.nodup_cons.1 hnd').1
        (List.mem_append_left _ (List.mem_flatMap.2 ⟨j, List.mem_range.2 hjn, hj⟩))
    have hcrest : c ∉ rest := fun h => (List.nodup_cons.1 hnd').1 (List.mem_append_right _ h)
    obtain ⟨heap1, hstep, hchain1, hrw1, hget1⟩ := rehashFrom_step f hcn hidx_def.symm hb (ht.chain idx) (hcnew idx)
    have hframe1 : ∀ q, q ≠ c → getNode P heap1 q = getNode P heap q := fun q hq => by rw [hget1, if_neg hq]
    have hkeep : ∀ {s : Option PoolPtr} {l : List PoolPtr}, Chain P heap s l → c ∉ l → Chain P heap1 s l :=
      fun hc hl => hc.frame fun q hq m hm => by rw [hframe1 q fun e => hl (e ▸ hq)]; exact hm
    -- the table after the step
    let NL1 := Function.update NL idx (c :: NL idx)
    have ht1 : NewTable P hash64 n heap1 (nb.set idx (some c)) NL1 := by
      refine ⟨by rw [List.length_set, ht.length_eq], fun j => ?_, fun j p hp => ?_⟩
      · rw [List.getD_eq_getElem?_getD, List.getElem?_set]
        by_cases hj : j = idx
        · subst hj
          simp only [if_pos rfl, if_pos hidx, Option.getD_some, NL1, Function.update_same]
          exact hchain1
        · rw [if_neg (Ne.symm hj), ← List.getD_eq_getElem?_getD]
          simp only [NL1, Function.update_noteq hj]
          exact hkeep (ht.chain j) (hcnew j)
      · by_cases hpc : p = c
        · subst hpc
          have hj : j = idx := by
            by_contra hj
            simp only [NL1, Function.update_noteq hj] at hp
            exact hcnew j hp
          subst hj
          exact ⟨{ node with pNext := nb.getD idx none, bucket := idx }, by rw [hget1, if_pos rfl], rfl, rfl⟩
        · have hp' : p ∈ NL j := by
            by_cases hj : j = idx
            · subst hj
              simp only [NL1, Function.update_same] at hp
              exact (List.mem_cons.1 hp).resolve_left hpc
            · simpa only [NL1, Function.update_noteq hj] using hp
          rw [hframe1 p hpc]
          exact ht.placed j p hp'
    have hperm1 : (List.range n).flatMap NL1 ~ c :: (List.range n).flatMap NL :=
      flatMap_perm_cons (by simp only [NL1, Function.update_same]; rfl)
        (fun j hj => by simp only [NL1, Function.update_noteq hj]) (List.nodup_range n)
        (List.mem_range.2 (ht.length_eq ▸ hidx))
    obtain ⟨heap', nb', NL', hrun, ht', hperm', hrw', hent', hframe'⟩ :=
      rehashFrom_spec hn (hkeep htail hcrest) (by simpa using hfuel) ht1
        ((hperm1.append_right rest).nodup_iff.2 hnd')
    have hent1 : entryOf P heap1 = entryOf P heap := by
      funext q
      simp only [entryOf, hget1]
      split_ifs with hq
      · rw [hq, hcn]
      · rfl
    refine ⟨heap', nb', NL', hstep.trans hrun, ht', ?_, hrw1.trans hrw', hent'.trans hent1, fun q hq => ?_⟩
    · exact hperm'.trans ((hperm1.append_right rest).trans List.perm_middle.symm)
    · rw [hframe' q fun h => hq (List.mem_cons_of_mem _ h), hframe1 q fun e => hq (e ▸ List.mem_cons_self _ _)]

/-- `Resize`'s loop over the old buckets `todo`, whose lists `L` are chains with no node twice and none on
the new table. -/
theorem rehashBucket_foldlM {n : Nat} (hn : ∃ j < 32, n = 2 ^ j) (im : InnerMap) (L : Nat → List PoolPtr)
    {fl : List Nat} :
    ∀ (todo : List Nat) {heap : Heap K V} {nb : List (Option PoolPtr)} {NL : Nat → List PoolPtr},
      PagingObjectPool.ValidWith P heap fl →
      (∀ b ∈ todo, ∃ pHead, im.bucketAt b = .ok pHead ∧ Chain P heap pHead (L b)) →
      NewTable P hash64 n heap nb NL → ((List.range n).flatMap NL ++ todo.flatMap L).Nodup →
      ∃ heap' nb' NL', todo.foldlM (im.rehashBucket P hash64 n) (heap, nb) = .ok (heap', nb') ∧
        NewTable P hash64 n heap' nb' NL' ∧
        (List.range n).flatMap NL' ~ (List.range n).flatMap NL ++ todo.flatMap L ∧
        Rewritten P heap heap' ∧ entryOf P heap' = entryOf P heap ∧
        ∀ q ∉ todo.flatMap L, getNode P heap' q = getNode P heap q
  | [], heap, nb, NL, _, _, ht, _ => ⟨heap, nb, NL, rfl, ht, by simp, .refl heap, rfl, fun _ _ => rfl⟩
  | b :: todo, heap, nb, NL, hv, hc, ht, hnd => by
    obtain ⟨pHead, hb, hcb⟩ := hc b (List.mem_cons_self _ _)
    rw [List.flatMap_cons, ← List.append_assoc] at hnd
    have hnd1 := (List.nodup_append.1 hnd).1
    obtain ⟨heap1, nb1, NL1, hrun, ht1, hperm1, hrw1, hent1, hframe1⟩ := rehashFrom_spec hn hcb
      (hcb.length_lt_walkBound (List.nodup_append.1 hnd1).2.1 hv.pagesOk.fresh).le ht hnd1
    have hdisj : ∀ q ∈ todo.flatMap L, q ∉ L b := fun q hq hqb =>
      (List.nodup_append.1 hnd).2.2 (List.mem_append_right _ hqb) hq
    have hc1 : ∀ b' ∈ todo, ∃ pHead, im.bucketAt b' = .ok pHead ∧ Chain P heap1 pHead (L b') := fun b' hb' => by
      obtain ⟨pHead', hb'', hc'⟩ := hc b' (List.mem_cons_of_mem _ hb')
      exact ⟨pHead', hb'', hc'.frame fun q hq m hm => by
        rw [hframe1 q (hdisj q (List.mem_flatMap.2 ⟨b', hb', hq⟩))]; exact hm⟩
    obtain ⟨heap', nb', NL', hfold, ht', hperm', hrw', hent', hframe'⟩ := rehashBucket_foldlM hn im L todo
      (hrw1.valid fl hv) hc1 ht1 ((hperm1.append_right _).nodup_iff.2 hnd)
    refine ⟨heap', nb', NL', ?_, ht', ?_, hrw1.trans hrw', hent'.trans hent1, fun q hq => ?_⟩
    · simp only [List.foldlM_cons, rehashBucket, hb, except_ok_bind, hrun]
      exact hfold
    · rw [List.flatMap_cons, ← List.append_assoc]
      exact hperm'.trans (hperm1.append_right _)
    · rw [List.flatMap_cons] at hq
      rw [hframe' q fun h => hq (List.mem_append_right _ h), hframe1 q fun h => hq (List.mem_append_left _ h)]

/-! ## A shard's lists -/

/-- The nodes on the lists `L` of a shard's table, bucket by bucket. -/
def nodes (im : InnerMap) (L : Nat → List PoolPtr) : List PoolPtr :=
  (List.range im.numBuckets).flatMap L

variable (P hash64) in
/-- The lists `L` of a shard: list `b` is the chain from head `b`, its nodes belong there by their keys'
hashes and record `b`, and no node is on the table twice. -/
structure ListsOk (im : InnerMap) (heap : Heap K V) (L : Nat → List PoolPtr) : Prop where
  chain : ∀ b < im.numBuckets, ∃ pHead, im.bucketAt b = .ok pHead ∧ Chain P heap pHead (L b)
  placed : ∀ b < im.numBuckets, ∀ p ∈ L b, ∃ node, getNode P heap p = .ok node ∧
    im.getIndex (hash64 node.key) = b ∧ node.bucket = b
  nodup : (im.nodes L).Nodup

variable (hash64) in
/-- `Resize(n)`, `n` a power of two below `2^32`, of a shard whose lists are chains with no node twice. -/
theorem resize_spec {n : Nat} (hn : ∃ j < 32, n = 2 ^ j) {im : InnerMap} {heap : Heap K V} {fl : List Nat}
    (hv : PagingObjectPool.ValidWith P heap fl) {L : Nat → List PoolPtr}
    (hc : ∀ b < im.numBuckets, ∃ pHead, im.bucketAt b = .ok pHead ∧ Chain P heap pHead (L b))
    (hnd : (im.nodes L).Nodup) :
    ∃ im' heap' NL, im.resize P hash64 heap n = .ok (im', heap') ∧ im'.TableOk ∧ im'.numBuckets = n ∧
      im'.count = im.count ∧ im'.fillCapacity = ((n * 7) % 2 ^ 32) / 8 ∧ ListsOk P hash64 im' heap' NL ∧
      im'.nodes NL ~ im.nodes L ∧ Rewritten P heap heap' ∧ entryOf P heap' = entryOf P heap ∧
      ∀ q ∉ im.nodes L, getNode P heap' q = getNode P heap q := by
  have h0 : (List.range n).flatMap (fun _ => ([] : List PoolPtr)) = [] := List.flatMap_eq_nil_iff.2 fun _ _ => rfl
  obtain ⟨heap', nb', NL, hfold, ht, hperm, hrw, hent, hframe⟩ :=
    rehashBucket_foldlM hn im L (List.range im.numBuckets) hv (fun b hb => hc b (List.mem_range.1 hb))
      (newTable_replicate hash64 n heap) (by rw [h0]; exact hnd)
  rw [h0, List.nil_append] at hperm
  have hres : im.resize P hash64 heap n = .ok (⟨some nb', im.count, ((n * 7) % 2 ^ 32) / 8, n⟩, heap') := by
    simp only [resize, hfold, except_ok_bind]; rfl
  have hbucket : ∀ j < n, (⟨some nb', im.count, ((n * 7) % 2 ^ 32) / 8, n⟩ : InnerMap).bucketAt j =
      .ok (nb'.getD j none) := fun j hj => by
    have hget : nb'[j]? = some (nb'.getD j none) := by
      rw [List.getD_eq_getElem?_getD, List.getElem?_eq_getElem (ht.length_eq ▸ hj : j < nb'.length)]; rfl
    simp only [bucketAt, hget]; rfl
  refine ⟨_, heap', NL, hres, resize_tableOk P hash64 hn hres, rfl, rfl, rfl,
    ⟨fun j hj => ⟨_, hbucket j hj, ht.chain j⟩, fun j _ p hp => ht.placed j p hp, ?_⟩, ?_, hrw, hent,
    fun q hq => hframe q (by simpa [nodes] using hq)⟩
  · exact hperm.nodup_iff.2 hnd
  · exact hperm

variable (hash64) in
/-- `Resize(n)`, for every power of two `n` that a `uint32_t` holds, of a shard whose lists are chains with
no node twice among them, the constructed shard with no table included, over a pool as its operations
leave it. The new table has `n` lists; they are chains that together hold exactly the old nodes, each
with its key and value; each node is on list `Hash64(key) & (n - 1)` and records that list in `bucket`; the
count is unchanged. -/
theorem resize_rehashes_nodes {n : Nat} (hn : ∃ j < 32, n = 2 ^ j) {im : InnerMap} {heap : Heap K V}
    (hv : PagingObjectPool.Valid P heap) {L : Nat → List PoolPtr}
    (hc : ∀ b < im.numBuckets, ∃ pHead, im.bucketAt b = .ok pHead ∧ Chain P heap pHead (L b))
    (hnd : (im.nodes L).Nodup) :
    ∃ im' heap' NL, im.resize P hash64 heap n = .ok (im', heap') ∧ im'.numBuckets = n ∧
      (∃ bs, im'.buckets = some bs ∧ bs.length = n) ∧
      (∀ b < n, ∃ pHead, im'.bucketAt b = .ok pHead ∧ Chain P heap' pHead (NL b)) ∧
      (im'.nodes NL).Nodup ∧ im'.nodes NL ~ im.nodes L ∧ entryOf P heap' = entryOf P heap ∧
      (∀ b < n, ∀ p ∈ NL b, ∃ node, getNode P heap' p = .ok node ∧
        hash64 node.key &&& (n - 1) = b ∧ node.bucket = b) ∧
      im'.count = im.count := by
  obtain ⟨fl, hv⟩ := hv
  obtain ⟨im', heap', NL, h, ht, hnum, hcount, -, hl, hperm, -, hent, -⟩ := resize_spec hash64 hn hv hc hnd
  have hpos : 0 < n := by obtain ⟨j, -, rfl⟩ := hn; exact Nat.two_pow_pos j
  refine ⟨im', heap', NL, h, hnum, ?_, hnum ▸ hl.chain, hl.nodup, hperm, hent, fun b hb p hp => ?_, hcount⟩
  · cases hbs : im'.buckets with
    | none => exact absurd (ht.null hbs) (by omega)
    | some bs => exact ⟨bs, rfl, (ht.length_eq bs hbs).trans hnum⟩
  · obtain ⟨node, hn', hidx, hb'⟩ := hl.placed b (hnum ▸ hb) p hp
    exact ⟨node, hn', by rw [← getIndexOf_pow hn, ← hnum]; exact hidx, hb'⟩

/-- A shard of four buckets over `threeNodes`, the keys `1`, `5` and `9` all on the list of bucket `1`. -/
def collidingShard : InnerMap := ⟨some [none, some ⟨2, 0⟩, none, none], 3, 3, 4⟩

/-- The lists of `collidingShard`. -/
def collidingLists (b : Nat) : List PoolPtr := if b = 1 then [⟨2, 0⟩, ⟨1, 1⟩, ⟨1, 0⟩] else []

/-- `Resize(8)` of `collidingShard` under the identity hash keeps its three nodes, now over two lists. -/
theorem resize_rehashes_nodes_colliding :
    (∃ j < 32, 8 = 2 ^ j) ∧ PagingObjectPool.Valid 2 threeNodes ∧
      (∀ b < collidingShard.numBuckets, ∃ pHead, collidingShard.bucketAt b = .ok pHead ∧
        Chain 2 threeNodes pHead (collidingLists b)) ∧ (collidingShard.nodes collidingLists).Nodup ∧
      ∃ im' heap' NL, collidingShard.resize 2 id threeNodes 8 = .ok (im', heap') ∧ im'.numBuckets = 8 ∧
        im'.nodes NL ~ [⟨2, 0⟩, ⟨1, 1⟩, ⟨1, 0⟩] := by
  have hv : PagingObjectPool.Valid 2 threeNodes := (threeNodes_reachable.valid (by decide)).1
  have hc : ∀ b < collidingShard.numBuckets, ∃ pHead, collidingShard.bucketAt b = .ok pHead ∧
      Chain 2 threeNodes pHead (collidingLists b)
    | 0, _ | 2, _ | 3, _ => ⟨none, rfl, .nil⟩
    | 1, _ => ⟨_, rfl, threeNodes_chain⟩
    | _ + 4, hb => absurd hb (by simp [collidingShard])
  have hnd : (collidingShard.nodes collidingLists).Nodup := by decide
  obtain ⟨im', heap', NL, h, hnum, -, -, -, hperm, -⟩ := resize_rehashes_nodes id ⟨3, by decide, rfl⟩ hv hc hnd
  exact ⟨⟨3, by decide, rfl⟩, hv, hc, hnd, im', heap', NL, h, hnum, hperm⟩

end InnerMap

end PklE.ThreadsafeContainers
