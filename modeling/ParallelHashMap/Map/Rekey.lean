import ParallelHashMap.Map.Refinement

/-!
# Rekeying, and removing by handle

`ReKey_Lockless(key, newKey)` and `ReKey_Concurrent(key, newKey)` (`hash_map.h`) give the node of `key` the
key `newKey`: in place when the new key hashes to the node's bucket, and otherwise by marking the node
`c_reassigningBucket`, unlinking it and pushing it on the new key's list (`rekeyLocklessNode_spec`). On a map
that stands for `M`, with both keys in one shard and `k'` unbound apart from `k`, `rekey_lockless(k, k')`
stands for `M` with the binding moved (`Refines.rekeyLockless`). Neither call looks for `newKey`: onto a
bound key it still succeeds and leaves two live nodes with that key (`Refines.rekeyLockless_onto_bound`).
Run alone, `ReKey_Concurrent` makes the same writes (`Refines.rekeyConcurrent_eq_rekeyLockless`), and
`Remove_Lockless<KeyValuePair>` of a node is `erase_lockless` of its key (`Refines.removeLocklessNode`).
-/

namespace PklE.ThreadsafeContainers

open PklE.CoreTypes PklE.Util SimpleLinkedList
open scoped List

namespace InnerMap

variable {K V : Type} [LinearOrder K] {P : Nat} {hash64 : K → Nat} {im : InnerMap} {heap : Heap K V}
  {L : Nat → List PoolPtr}

/-! ## One shard -/

/-- What `ReKey_Lockless` leaves when it moves the node at `p` to the key `newKey`: the call returns `true`,
the table and count stay, the lists are `ListsOk` with the same nodes, only links, the node's key and its
bucket are rewritten, and off the lists no node changes. -/
def RekeyedTo (P : Nat) (hash64 : K → Nat) (im : InnerMap) (heap : Heap K V) (L : Nat → List PoolPtr)
    (p : PoolPtr) (newKey : K) (v : V) (r : Except Fault (InnerMap × Heap K V × Bool)) : Prop :=
  ∃ im' heap' L', r = .ok (im', heap', true) ∧ SameTable im im' ∧ im'.count = im.count ∧
    ListsOk P hash64 im' heap' L' ∧ Rewritten P heap heap' ∧ im'.nodes L' ~ im.nodes L ∧
    entryOf P heap' = Function.update (entryOf P heap) p (some (newKey, v)) ∧
    ∀ q ∉ im.nodes L, getNode P heap' q = getNode P heap q

/-- The new key hashes to the node's bucket: its key changes in place. -/
theorem rekeyLocklessNode_in_place (hl : ListsOk P hash64 im heap L) {b : Nat} (hb : b < im.numBuckets)
    {p : PoolPtr} (hp : p ∈ L b) {n : Node K V} (hn : getNode P heap p = .ok n) {newKey : K}
    (hbb : im.getIndex (hash64 newKey) = b) :
    RekeyedTo P hash64 im heap L p newKey n.value (im.rekeyLocklessNode P heap (hash64 newKey) p newKey) := by
  obtain ⟨n0, hn0, -, hbk⟩ := hl.placed b hb p hp
  rw [hn] at hn0
  cases hn0
  have hpn : p ∈ im.nodes L := mem_nodes.2 ⟨b, hb, hp⟩
  obtain ⟨heap1, hset⟩ := setNode_ok hn fun m => { m with key := newKey }
  have hne : ∀ q, q ≠ p → getNode P heap1 q = getNode P heap q := fun q hq => by
    rw [getNode_setNode hset, if_neg hq]
  have hp1 : getNode P heap1 p = .ok { n with key := newKey } := by rw [getNode_setNode hset, if_pos rfl, hn]; rfl
  refine ⟨im, heap1, L, ?_, .refl _, rfl, ⟨fun c hc => ?_, fun c hc q hq => ?_, hl.nodup⟩, setNode_rewritten hset,
    .refl _, funext fun q => ?_, fun q hq => hne q fun e => hq (e ▸ hpn)⟩
  · simp only [rekeyLocklessNode, hn, except_ok_bind, hbk, hbb, if_pos hb, ne_eq, not_true_eq_false, if_false,
      hset]
    rfl
  · obtain ⟨pHead, hbucket, hc'⟩ := hl.chain c hc
    refine ⟨pHead, hbucket, hc'.of_pNext fun q _ m hm => ?_⟩
    by_cases hqp : q = p
    · subst hqp
      rw [hn] at hm
      cases hm
      exact ⟨_, hp1, rfl⟩
    · exact ⟨m, by rw [hne q hqp]; exact hm, rfl⟩
  · by_cases hqp : q = p
    · subst hqp
      cases hl.bucket_unique hc hb hq hp
      exact ⟨_, hp1, hbb, hbk⟩
    · rw [hne q hqp]
      exact hl.placed c hc q hq
  · by_cases hqp : q = p
    · subst hqp
      rw [Function.update_same, entryOf_of_getNode hp1]
    · rw [Function.update_noteq hqp]
      exact entryOf_congr fun m => by rw [hne q hqp]

/-- The new key hashes to another bucket: the node, marked, leaves its list by `Erase_Lockless` of its key,
which finds it first as no other node of the shard holds that key, takes the new key and its new bucket, and
goes to the front of the new key's list. -/
theorem rekeyLocklessNode_move (hl : ListsOk P hash64 im heap L) (hv : PagingObjectPool.Valid P heap) {b : Nat}
    (hb : b < im.numBuckets) {p : PoolPtr} (hp : p ∈ L b) {n : Node K V} (hn : getNode P heap p = .ok n)
    (huniq : ∀ q ∈ L b, keyMatches P heap n.key q = true → q = p) {newKey : K} (hb' : im.getIndex (hash64 newKey) < im.numBuckets)
    (hbb : im.getIndex (hash64 newKey) ≠ b) :
    RekeyedTo P hash64 im heap L p newKey n.value (im.rekeyLocklessNode P heap (hash64 newKey) p newKey) := by
  obtain ⟨n0, hn0, -, hbk⟩ := hl.placed b hb p hp
  rw [hn] at hn0
  cases hn0
  obtain ⟨fl, hvw⟩ := hv
  set b' := im.getIndex (hash64 newKey) with hb'def
  have hpn : p ∈ im.nodes L := mem_nodes.2 ⟨b, hb, hp⟩
  have hpb' : p ∉ L b' := fun h => hbb (hl.bucket_unique hb' hb h hp)
  -- the mark
  obtain ⟨heap1, hset1⟩ := setNode_ok hn fun m => { m with bucket := cReassigningBucket }
  have hne1 : ∀ q, q ≠ p → getNode P heap1 q = getNode P heap q := fun q hq => by
    rw [getNode_setNode hset1, if_neg hq]
  have hp1 : getNode P heap1 p = .ok { n with bucket := cReassigningBucket } := by
    rw [getNode_setNode hset1, if_pos rfl, hn]; rfl
  have hrw1 := setNode_rewritten hset1
  -- the erase from the old list unlinks the node
  obtain ⟨pHead, hbucket, hchain⟩ := hl.chain b hb
  have hchain1 : Chain P heap1 pHead (L b) := hchain.of_pNext fun q _ m hm => by
    by_cases hqp : q = p
    · subst hqp; rw [hn] at hm; cases hm; exact ⟨_, hp1, rfl⟩
    · exact ⟨m, by rw [hne1 q hqp]; exact hm, rfl⟩
  have hlen : (L b).length ≤ walkBound P heap1 := by
    rw [hrw1.walkBound_eq]; exact hl.length_le_walkBound hvw hb hchain
  rcases eraseUnsafe_chain n.key hchain1 (hl.nodup_bucket hb) hlen with
    ⟨-, hnone⟩ | ⟨q, heap2, pHead2, herase, hq, hmatch, hchain2, hrw2, hframe2, hnext2⟩
  · have := hnone p hp
    rw [keyMatches_of_getNode hp1] at this
    simp at this
  have hqp : q = p := huniq q hq (by
    by_cases hqp : q = p
    · subst hqp; rw [keyMatches_of_getNode hn]; simp
    · rwa [keyMatches, hne1 q hqp] at hmatch)
  subst hqp
  obtain ⟨nxt, hp2⟩ := hnext2 q hq _ hp1
  -- the new key, then the new bucket
  obtain ⟨heap3, hset3⟩ := setNode_ok hp2 fun m => { m with key := newKey }
  have hp3 : getNode P heap3 q = .ok { n with bucket := cReassigningBucket, pNext := nxt, key := newKey } := by
    rw [getNode_setNode hset3, if_pos rfl, hp2]; rfl
  obtain ⟨heap4, hset4⟩ := setNode_ok hp3 fun m => { m with bucket := b' }
  have hp4 : getNode P heap4 q = .ok { n with pNext := nxt, key := newKey, bucket := b' } := by
    rw [getNode_setNode hset4, if_pos rfl, hp3]; rfl
  have hne4 : ∀ r, r ≠ q → getNode P heap4 r = getNode P heap2 r := fun r hr => by
    rw [getNode_setNode hset4, if_neg hr, getNode_setNode hset3, if_neg hr]
  have hrw4 : Rewritten P heap heap4 :=
    (hrw1.trans hrw2).trans ((setNode_rewritten hset3).trans (setNode_rewritten hset4))
  -- nodes off the old list read as before; those left on it keep all but their links
  have hoff : ∀ r ∉ L b, getNode P heap4 r = getNode P heap r := fun r hr => by
    have hrq : r ≠ q := fun e => hr (e ▸ hq)
    rw [hne4 r hrq, hframe2 r hr, hne1 r hrq]
  have hlinks : ∀ r ∈ L b, r ≠ q → ∀ m, getNode P heap r = .ok m →
      ∃ nxt, getNode P heap4 r = .ok { m with pNext := nxt } := fun r hr hrq m hm => by
    rw [hne4 r hrq]
    exact hnext2 r hr m (by rw [hne1 r hrq]; exact hm)
  have hchain4 : Chain P heap4 pHead2 ((L b).erase q) := hchain2.frame fun r hr m hm => by
    rw [hne4 r fun e => (List.Nodup.not_mem_erase (hl.nodup_bucket hb)) (e ▸ hr)]; exact hm
  obtain ⟨hl1, hperm1⟩ := hl.erase hb hbucket hq hchain4 hoff hlinks
  -- the push on the new key's list
  obtain ⟨pHead', hbucket', hchain'⟩ := hl.chain b' hb'
  have hbucket1 : (im.setBucket b pHead2).bucketAt b' = .ok pHead' := by
    rw [bucketAt_setBucket hbucket, if_neg hbb, hbucket']
  have hchain'4 : Chain P heap4 pHead' (L b') := hchain'.frame fun r hr m hm => by
    rw [hoff r fun h => hbb (hl.bucket_unique hb' hb hr h)]; exact hm
  obtain ⟨heap5, hins, -, hrw5, hget5⟩ := insertUnsafe_chain hchain'4 hpb' hp4
  have hne5 : ∀ r, r ≠ q → getNode P heap5 r = getNode P heap4 r := fun r hr => by rw [hget5, if_neg hr]
  have hp5 : getNode P heap5 q = .ok { n with pNext := pHead', key := newKey, bucket := b' } := by
    rw [hget5, if_pos rfl]
  have hq1 : q ∉ (im.setBucket b pHead2).nodes (Function.update L b ((L b).erase q)) :=
    (List.nodup_cons.1 (hperm1.nodup_iff.1 hl.nodup)).1
  obtain ⟨hl2, hperm2⟩ := hl1.push (by exact hb') hbucket1 hq1 (fun r hr m => by rw [hne5 r hr]) hp5 rfl rfl rfl
  refine ⟨_, heap5, _, ?_, (sameTable_setBucket _ _ _).trans (sameTable_setBucket _ _ _), rfl, hl2,
    hrw4.trans hrw5, ?_, funext fun r => ?_, fun r hr => ?_⟩
  · simp only [rekeyLocklessNode, hn, except_ok_bind, hbk, if_pos hb, ← hb'def, ne_eq, Ne.symm hbb,
      not_false_eq_true, if_true, hset1, hbucket, herase, hset3, hset4, hbucket1, hins]
    rfl
  · exact hperm2.trans hperm1.symm
  · by_cases hrq : r = q
    · subst hrq
      rw [Function.update_same, entryOf_of_getNode hp5]
    · have h5 : entryOf P heap5 r = entryOf P heap4 r := entryOf_congr fun m => by rw [hne5 r hrq]
      rw [Function.update_noteq hrq, h5]
      by_cases hrb : r ∈ L b
      · obtain ⟨m, hm⟩ := hchain.getNode_of_mem hrb
        obtain ⟨nx, hm4⟩ := hlinks r hrb hrq m hm
        rw [entryOf_of_getNode hm4, entryOf_of_getNode hm]
      · exact entryOf_congr fun m => by rw [hoff r hrb]
  · have hrb : r ∉ L b := fun h => hr (mem_nodes.2 ⟨b, hb, h⟩)
    rw [hne5 r fun e => hrb (e ▸ hq), hoff r hrb]

/-- `ReKey_Lockless` on a node of a shard whose lists are `ListsOk` over a valid pool, the only node of its
list holding its key, moves it to the new key's list with the new key and returns `true`. -/
theorem rekeyLocklessNode_spec (ht : im.TableOk) (hpos : 0 < im.numBuckets) (hl : ListsOk P hash64 im heap L)
    (hv : PagingObjectPool.Valid P heap) {b : Nat} (hb : b < im.numBuckets) {p : PoolPtr} (hp : p ∈ L b)
    {n : Node K V} (hn : getNode P heap p = .ok n) (huniq : ∀ q ∈ L b, keyMatches P heap n.key q = true → q = p)
    (newKey : K) :
    RekeyedTo P hash64 im heap L p newKey n.value (im.rekeyLocklessNode P heap (hash64 newKey) p newKey) := by
  by_cases hbb : im.getIndex (hash64 newKey) = b
  · exact rekeyLocklessNode_in_place hl hb hp hn hbb
  · exact rekeyLocklessNode_move hl hv hb hp hn huniq (getIndex_lt ht hpos _) hbb

/-- Where `ReKey_Lockless` succeeds, `ReKey_Concurrent` with no other thread in between makes the same
writes: its compare-exchange's mark is the lockless mark, and on the same bucket the key change and the
bucket's restore fold into the lockless key change. -/
theorem rekeyConcurrentNode_eq_of_rekeyed {newHash : Nat} {p : PoolPtr} {newKey : K} {im' : InnerMap}
    {heap' : Heap K V} (h : im.rekeyLocklessNode P heap newHash p newKey = .ok (im', heap', true)) :
    im.rekeyConcurrentNode P heap newHash p newKey = .ok (im', heap', true) := by
  rcases hn : getNode P heap p with e | n
  · simp only [rekeyLocklessNode, hn] at h; cases h
  simp only [rekeyLocklessNode, rekeyConcurrentNode, hn, except_ok_bind] at h ⊢
  by_cases hb : n.bucket < im.numBuckets
  swap
  · simp only [if_neg hb] at h; cases h
  simp only [if_pos hb] at h ⊢
  by_cases hbb : n.bucket = im.getIndex newHash
  · simp only [ne_eq, hbb, not_true_eq_false, if_false] at h ⊢
    rw [← h, ← bind_assoc, ← bind_assoc, setNode_comp, setNode_comp,
      setNode_congr hn (g := fun m => { m with key := newKey })]
    simp only [Function.comp_apply, hbb]
  · simp only [ne_eq, hbb, not_false_eq_true, if_true] at h ⊢
    rcases h1 : setNode P heap p ({ · with bucket := cReassigningBucket }) with e | heap1 <;>
      simp only [h1, except_ok_bind, except_error_bind] at h ⊢
    · cases h
    rcases h2 : im.bucketAt n.bucket with e | pHead <;> simp only [h2, except_ok_bind, except_error_bind] at h ⊢
    · cases h
    rcases h3 : eraseUnsafe P heap1 pHead n.key with e | ⟨heap2, pHead2, _ | q⟩ <;>
      simp only [h3, except_ok_bind, except_error_bind] at h ⊢
    · cases h
    · -- an erase that finds nothing returns `false`
      obtain ⟨_, -, h⟩ := except_bind_eq_ok.1 h
      cases h
    · exact h

end InnerMap

/-! ## The map -/

/-- What `rekey(k, k')` is for: `M` with the binding of `k`, if there is one, moved to `k'`. -/
def rekeyBinding {K V : Type} [DecidableEq K] (M : Finmap fun _ : K => V) (k k' : K) : Finmap fun _ : K => V :=
  match M.lookup k with
  | some v => (M.erase k).insert k' v
  | none => M

namespace HashMap

variable {K V : Type} [LinearOrder K] {P S : Nat} {hash64 : K → Nat} {m : HashMap K V}
  {L : Nat → Nat → List PoolPtr} {M : Finmap fun _ : K => V}

/-- The relation after an operation on shard `s` that kept its nodes, up to order, and what is live, and gave
the node `p` holding the binding `(k, v)` the key `k'` of shard `s`, which `M` binds at most as `k`. -/
theorem Refines.rekey_step (h : Refines P S hash64 m L M) {s : Nat} (hs : s < S) {m' : HashMap K V}
    {im' : InnerMap} {Ls : Nat → List PoolPtr} {p : PoolPtr} {k k' : K} {v : V}
    (hinner : m'.innerMaps = Function.update m.innerMaps s im') (ht' : im'.TableOk)
    (hfresh : im'.numBuckets = 0 → im'.count = 0 ∧ im'.fillCapacity = 0)
    (hl' : InnerMap.ListsOk P hash64 im' m'.sharedPool Ls)
    (hframe : ∀ q ∉ (m.innerMaps s).nodes (L s), m.sharedPool.isLive q = true → ∀ n,
      getNode P m.sharedPool q = .ok n → getNode P m'.sharedPool q = .ok n)
    (hv : PagingObjectPool.Valid P m'.sharedPool) (hpages : m'.sharedPool.numPages < cMaxPages)
    (hperm : im'.nodes Ls ~ (m.innerMaps s).nodes (L s)) (hp : p ∈ (m.innerMaps s).nodes (L s))
    (hvp : entryOf P m.sharedPool p = some (k, v))
    (hent : entryOf P m'.sharedPool = Function.update (entryOf P m.sharedPool) p (some (k', v)))
    (hlive : m'.sharedPool.isLive = m.sharedPool.isLive) (hk' : k' ∉ M.erase k)
    (hks : getInnerMapIndex S (hash64 k') = s) (hsize : m'.totalCount = m.totalCount) :
    Refines P S hash64 m' (Function.update L s Ls) ((M.erase k).insert k' v) := by
  have hall := allNodes_perm (S := S) hinner hperm
  have hpall : p ∈ allNodes S m L := mem_allNodes.2 ⟨s, hs, hp⟩
  have hkM : k ∈ M := (h.mem_iff k).2 ⟨p, hpall, v, hvp⟩
  have hentp : entryOf P m'.sharedPool p = some (k', v) := by rw [hent, Function.update_same]
  have hentq : ∀ q, q ≠ p → entryOf P m'.sharedPool q = entryOf P m.sharedPool q := fun q hq => by
    rw [hent, Function.update_noteq hq]
  -- no other node holds `k'`
  have hold : ∀ q ∈ allNodes S m L, q ≠ p → ∀ w, entryOf P m.sharedPool q ≠ some (k', w) :=
    fun q hq hqp w he => by
      by_cases hkk : k' = k
      · subst hkk; exact hqp (h.inv.entry_inj hq hpall he hvp)
      · exact hk' (Finmap.mem_erase.2 ⟨hkk, (h.mem_iff k').2 ⟨q, hq, w, he⟩⟩)
  have hkey_p : ∀ {j w}, entryOf P m'.sharedPool p = some (j, w) → j = k' ∧ w = v := fun he =>
    Prod.mk.inj_iff.1 (Option.some.inj (he.symm.trans hentp))
  refine h.shard_step hs hinner ht' hfresh hl' (fun q hq n hn => ?_) hframe hv hpages (hall.nodup_iff.2 h.inv.nodup)
    (fun q1 hq1 q2 hq2 j v1 v2 he1 he2 => ?_) (fun q => ?_) (fun j w => ?_) ?_
  · -- the node rekeyed belongs to `k'`'s shard, the others stay where they were
    by_cases hqp : q = p
    · subst hqp; rw [(node_eq_of_entryOf hn hentp).1]; exact hks
    · exact h.inv.route_of_entry hs (hperm.mem_iff.1 hq) (hentq q hqp) hn
  · -- one node per key
    rw [hall.mem_iff] at hq1 hq2
    by_cases h1 : q1 = p <;> by_cases h2 : q2 = p
    · rw [h1, h2]
    · subst h1; obtain ⟨rfl, -⟩ := hkey_p he1
      rw [hentq q2 h2] at he2; exact (hold q2 hq2 h2 v2 he2).elim
    · subst h2; obtain ⟨rfl, -⟩ := hkey_p he2
      rw [hentq q1 h1] at he1; exact (hold q1 hq1 h1 v1 he1).elim
    · rw [hentq q1 h1] at he1
      rw [hentq q2 h2] at he2
      exact h.inv.entry_inj hq1 hq2 he1 he2
  · rw [hlive, h.inv.live q, hall.mem_iff]
  · -- `k'` is bound to `v`, `k` (when it is not `k'`) to nothing, every other key as before
    by_cases hj : j = k'
    · subst hj
      rw [Finmap.lookup_insert, Option.some_inj]
      refine ⟨fun e => ⟨p, hall.mem_iff.2 hpall, e ▸ hentp⟩, fun ⟨q, hq, he⟩ => ?_⟩
      by_cases hqp : q = p
      · subst hqp; exact (hkey_p he).2.symm
      · rw [hentq q hqp] at he; exact (hold q (hall.mem_iff.1 hq) hqp w he).elim
    rw [Finmap.lookup_insert_of_ne _ hj]
    by_cases hjk : j = k
    · subst hjk
      rw [Finmap.lookup_erase]
      refine ⟨fun h0 => (by cases h0), fun ⟨q, hq, he⟩ => ?_⟩
      by_cases hqp : q = p
      · subst hqp; exact (hj (hkey_p he).1).elim
      · rw [hentq q hqp] at he; exact (hqp (h.inv.entry_inj (hall.mem_iff.1 hq) hpall he hvp)).elim
    rw [Finmap.lookup_erase_ne hjk, h.lookup_eq]
    refine exists_congr fun q => ⟨fun ⟨hq, he⟩ => ?_, fun ⟨hq, he⟩ => ?_⟩
    · have hqp : q ≠ p := by rintro rfl; exact hjk (Prod.mk.inj_iff.1 (Option.some.inj (he.symm.trans hvp))).1
      exact ⟨hall.mem_iff.2 hq, by rw [hentq q hqp]; exact he⟩
    · have hqp : q ≠ p := by rintro rfl; exact hj (hkey_p he).1
      exact ⟨hall.mem_iff.1 hq, by rw [← hentq q hqp]; exact he⟩
  · rw [hsize, h.size_eq, card_keys_insert hk', card_keys_erase hkM]

/-- `find_lockless(k)` on a related map whose key's shard `s` has a table: the first node of `k`'s list that
holds `k`. -/
theorem Refines.findLockless_eq (h : Refines P S hash64 m L M) {k : K} {s : Nat}
    (hsdef : getInnerMapIndex S (hash64 k) = s) (hs : s < S) (ha : 0 < (m.innerMaps s).numBuckets) :
    m.findLockless P S hash64 k =
      .ok ((L s ((m.innerMaps s).getIndex (hash64 k))).find? (keyMatches P m.sharedPool k)) := by
  obtain ⟨fl, hvw⟩ := h.pool
  simp only [findLockless, hsdef]
  exact InnerMap.findLockless_spec (h.tables s) ha (h.inv.listsOk hs) hvw k

/-- The node `p` that `find_lockless(k)` finds on a related map holds `k`'s binding in `M`, sits on a list of
`k`'s shard at a bucket in range, and the shard's `ReKey_Lockless` moves it to any key `k'`. -/
theorem Refines.rekeyFound (h : Refines P S hash64 m L M) {k : K} {s : Nat}
    (hsdef : getInnerMapIndex S (hash64 k) = s) (hs : s < S) (ha : 0 < (m.innerMaps s).numBuckets) {p : PoolPtr}
    (hf : (L s ((m.innerMaps s).getIndex (hash64 k))).find? (keyMatches P m.sharedPool k) = some p) (k' : K) :
    ∃ n, getNode P m.sharedPool p = .ok n ∧ n.key = k ∧ M.lookup k = some n.value ∧
      p ∈ (m.innerMaps s).nodes (L s) ∧ n.bucket < (m.innerMaps s).numBuckets ∧
      InnerMap.RekeyedTo P hash64 (m.innerMaps s) m.sharedPool (L s) p k' n.value
        ((m.innerMaps s).rekeyLocklessNode P m.sharedPool (hash64 k') p k') := by
  have hl := h.inv.listsOk hs
  have hb := InnerMap.getIndex_lt (h.tables s) ha (hash64 k)
  have hp := List.mem_of_find?_eq_some hf
  have hpn : p ∈ (m.innerMaps s).nodes (L s) := InnerMap.mem_nodes.2 ⟨_, hb, hp⟩
  obtain ⟨v, hv⟩ := keyMatches_eq_true_iff.1 (List.find?_some hf)
  obtain ⟨n, hn, hkv⟩ := entryOf_eq_some.1 hv
  obtain ⟨rfl, rfl⟩ := Prod.mk.inj_iff.1 hkv
  -- no other node of the list holds the key
  have huniq : ∀ q ∈ L s ((m.innerMaps s).getIndex (hash64 n.key)), keyMatches P m.sharedPool n.key q = true →
      q = p := fun q hq hkq => by
    obtain ⟨w, hw⟩ := keyMatches_eq_true_iff.1 hkq
    exact h.inv.entry_inj (mem_allNodes.2 ⟨s, hs, InnerMap.mem_nodes.2 ⟨_, hb, hq⟩⟩)
      (mem_allNodes.2 ⟨s, hs, hpn⟩) hw hv
  obtain ⟨n0, hn0, -, hbk⟩ := hl.placed _ hb p hp
  rw [hn] at hn0
  cases hn0
  exact ⟨n, hn, rfl, (h.lookup_eq _ _).2 ⟨p, mem_allNodes.2 ⟨s, hs, hpn⟩, hv⟩, hpn, hbk ▸ hb,
    InnerMap.rekeyLocklessNode_spec (h.tables s) ha hl h.pool hb hp hn huniq k'⟩

/-- `rekey_lockless(k, k')` with both keys in shard `s`, when `find_lockless(k)` finds the node `p`: the call
returns `true` and leaves the shard's lists with `p` moved to `k'`'s list and given the key `k'`. -/
theorem Refines.rekeyLockless_of_find (h : Refines P S hash64 m L M) {k k' : K} {s : Nat}
    (hsdef : getInnerMapIndex S (hash64 k) = s) (hs : getInnerMapIndex S (hash64 k') = s) (hs' : s < S)
    (ha : 0 < (m.innerMaps s).numBuckets) {p : PoolPtr}
    (hf : (L s ((m.innerMaps s).getIndex (hash64 k))).find? (keyMatches P m.sharedPool k) = some p) :
    ∃ v im' heap' Ls, M.lookup k = some v ∧ p ∈ (m.innerMaps s).nodes (L s) ∧
      entryOf P m.sharedPool p = some (k, v) ∧
      m.rekeyLockless P S hash64 k k' = .ok (m.withInner s im' heap', true) ∧ (m.innerMaps s).SameTable im' ∧
      InnerMap.ListsOk P hash64 im' heap' Ls ∧ Rewritten P m.sharedPool heap' ∧
      im'.nodes Ls ~ (m.innerMaps s).nodes (L s) ∧
      entryOf P heap' = Function.update (entryOf P m.sharedPool) p (some (k', v)) ∧
      ∀ q ∉ (m.innerMaps s).nodes (L s), getNode P heap' q = getNode P m.sharedPool q := by
  obtain ⟨n, hn, rfl, hlk, hpn, -, im', heap', Ls, hres, hsame, -, hl', hrw, hperm, hent, hoff⟩ :=
    h.rekeyFound hsdef hs' ha hf k'
  refine ⟨n.value, im', heap', Ls, hlk, hpn, entryOf_of_getNode hn, ?_, hsame, hl', hrw, hperm, hent, hoff⟩
  simp only [HashMap.rekeyLockless, h.findLockless_eq hsdef hs' ha, hf, except_ok_bind, HashMap.rekeyLocklessNode,
    hn, hsdef, hs, if_true, hres]
  rfl

/-- `rekey_lockless(k, k')` with both keys in one shard, on a map whose shards have tables and which stands
for `M`, where `M` binds `k'` at most as `k`, moves `k`'s binding to `k'` and returns whether `k` was bound. -/
theorem Refines.rekeyLockless (hS : 0 < S) (h : Refines P S hash64 m L M) (ha : Allocated S m) {k k' : K}
    (hs : getInnerMapIndex S (hash64 k') = getInnerMapIndex S (hash64 k)) (hk' : k' ∉ M.erase k) :
    ∃ m' L', m.rekeyLockless P S hash64 k k' = .ok (m', decide (k ∈ M)) ∧
      Refines P S hash64 m' L' (rekeyBinding M k k') ∧ m'.sharedPool.numPages = m.sharedPool.numPages ∧
      Allocated S m' := by
  obtain ⟨s, hsdef⟩ : ∃ s, getInnerMapIndex S (hash64 k) = s := ⟨_, rfl⟩
  have hs' : s < S := hsdef ▸ getInnerMapIndex_lt hS _
  cases hf : (L s ((m.innerMaps s).getIndex (hash64 k))).find? (keyMatches P m.sharedPool k) with
  | none =>
    -- `k` is unbound: nothing changes
    have hkM : k ∉ M := h.not_mem_of_shard hS (by
      rw [hsdef]; exact ((h.inv.listsOk hs').find?_eq_none_iff (h.tables s) (ha s hs') k).1 hf)
    refine ⟨m, L, ?_, ?_, rfl, ha⟩
    · simp only [HashMap.rekeyLockless, h.findLockless_eq hsdef hs' (ha s hs'), hf, except_ok_bind,
        decide_eq_false hkM]
      rfl
    · simpa only [rekeyBinding, Finmap.lookup_eq_none.2 hkM] using h
  | some p =>
    -- `k` is bound at `p`, which the shard's rekey moves to `k'`
    obtain ⟨v, im', heap', Ls, hlk, hpn, hvp, heq, hsame, hl', hrw, hperm, hent, hoff⟩ :=
      h.rekeyLockless_of_find hsdef (hs.trans hsdef) hs' (ha s hs') hf
    have hkM : k ∈ M := Finmap.mem_iff.2 ⟨_, hlk⟩
    have hnb : im'.numBuckets = (m.innerMaps s).numBuckets := hsame.numBuckets_eq
    have hinner : (m.withInner s im' heap').innerMaps = Function.update m.innerMaps s im' := rfl
    refine ⟨m.withInner s im' heap', Function.update L s Ls, by rw [heq, decide_eq_true hkM], ?_,
      hrw.numPages_eq, fun s' hs'' => ?_⟩
    · rw [rekeyBinding, hlk]
      exact h.rekey_step hs' hinner ((h.tables s).of_sameTable hsame)
        (fun h0 => absurd h0 (by have := ha s hs'; omega)) hl' (fun q hq _ n' hn' => (hoff q hq).trans hn')
        (hrw.pool_valid h.pool) (hrw.numPages_eq ▸ h.pages) hperm hpn hvp hent hrw.isLive_eq hk' (hs.trans hsdef) rfl
    · rw [hinner]
      by_cases e : s' = s
      · subst e; rw [Function.update_same, hnb]; exact ha s' hs''
      · rw [Function.update_noteq e]; exact ha s' hs''

/-- The map with two shards, the identity hash and pages of two slots after `reserve(2)` and
`insert_lockless(0, 7)` stands for `{0 ↦ 7}`, and every shard has a table. -/
theorem refines_reserve_insert :
    ∃ (m : HashMap Nat Nat) (L : Nat → Nat → List PoolPtr),
      Refines 2 2 id m L ((∅ : Finmap fun _ : Nat => Nat).insert 0 7) ∧ Allocated 2 m := by
  have h0 : Refines 2 2 id (empty : HashMap Nat Nat) (fun _ _ => []) ∅ := empty_refines
  obtain ⟨m1, L1, -, h1, ha1, hnum1⟩ := h0.reserve (by decide) 2 (by decide)
  obtain ⟨m2, L2, -, -, -, h2, -, ha2⟩ := h1.insert (by decide) (by decide) (by rw [hnum1]; decide) 0 7
  rw [if_neg (Finmap.not_mem_empty)] at h2
  exact ⟨m2, L2, h2, ha2 ha1⟩

/-- `rekey_lockless(0, 2)` on that map: both keys are in shard `0`, and it moves `0`'s binding to `2`. -/
theorem rekeyLockless_moves_zero :
    ∃ (m : HashMap Nat Nat) (L : Nat → Nat → List PoolPtr),
      Refines 2 2 id m L ((∅ : Finmap fun _ : Nat => Nat).insert 0 7) ∧ Allocated 2 m ∧
      ∃ m' L', m.rekeyLockless 2 2 id 0 2 = .ok (m', true) ∧
        Refines 2 2 id m' L' (rekeyBinding ((∅ : Finmap fun _ : Nat => Nat).insert 0 7) 0 2) := by
  obtain ⟨m, L, h, ha⟩ := refines_reserve_insert
  obtain ⟨m', L', hr, h', -⟩ := h.rekeyLockless (by decide) ha
    (show getInnerMapIndex 2 (id 2) = getInnerMapIndex 2 (id 0) by decide) (by simp [Finmap.not_mem_empty])
  exact ⟨m, L, h, ha, m', L', by simpa using hr, h'⟩

/-- `rekey_lockless(k, k')` onto a key `k'` that `M` binds, in `k`'s shard: `ReKey_Lockless` never looks for
`k'`, so the call succeeds and two live nodes then hold `k'`, and the map satisfies the invariant for no
lists. -/
theorem Refines.rekeyLockless_onto_bound (hS : 0 < S) (h : Refines P S hash64 m L M) (ha : Allocated S m)
    {k k' : K} (hs : getInnerMapIndex S (hash64 k') = getInnerMapIndex S (hash64 k)) (hk : k ∈ M) (hk' : k' ∈ M)
    (hne : k ≠ k') : ∃ m', m.rekeyLockless P S hash64 k k' = .ok (m', true) ∧ ¬ Inv P S hash64 m' := by
  obtain ⟨s, hsdef⟩ : ∃ s, getInnerMapIndex S (hash64 k) = s := ⟨_, rfl⟩
  have hs' : s < S := hsdef ▸ getInnerMapIndex_lt hS _
  cases hf : (L s ((m.innerMaps s).getIndex (hash64 k))).find? (keyMatches P m.sharedPool k) with
  | none =>
    exact absurd hk (h.not_mem_of_shard hS (by
      rw [hsdef]; exact ((h.inv.listsOk hs').find?_eq_none_iff (h.tables s) (ha s hs') k).1 hf))
  | some p =>
    obtain ⟨v, im', heap', -, -, hpn, hvp, heq, -, -, hrw, -, hent, -⟩ :=
      h.rekeyLockless_of_find hsdef (hs.trans hsdef) hs' (ha s hs') hf
    refine ⟨_, heq, fun ⟨L', hinv⟩ => ?_⟩
    -- the node that already held `k'`, still live and still holding it
    obtain ⟨q, hq, w, hqw⟩ := (h.mem_iff k').1 hk'
    have hqp : q ≠ p := by
      rintro rfl; exact hne (Prod.mk.inj_iff.1 (Option.some.inj (hvp.symm.trans hqw))).1
    have hlive : ∀ r ∈ allNodes S m L, r ∈ allNodes S (m.withInner s im' heap') L' := fun r hr =>
      (hinv.live r).1 (by rw [withInner_sharedPool, hrw.isLive_eq]; exact (h.inv.live r).2 hr)
    have hp' : entryOf P heap' p = some (k', v) := by rw [hent, Function.update_same]
    have hq' : entryOf P heap' q = some (k', w) := by rw [hent, Function.update_noteq hqp]; exact hqw
    exact hqp (hinv.entry_inj (hlive q hq) (hlive p (mem_allNodes.2 ⟨s, hs', hpn⟩)) hq' hp')

/-- The map with two shards, the identity hash and pages of two slots after `reserve(2)`,
`insert_lockless(0, 7)` and `insert_lockless(2, 8)` stands for `{0 ↦ 7, 2 ↦ 8}`, and every shard has a
table. -/
theorem refines_reserve_insert_two :
    ∃ (m : HashMap Nat Nat) (L : Nat → Nat → List PoolPtr),
      Refines 2 2 id m L (((∅ : Finmap fun _ : Nat => Nat).insert 0 7).insert 2 8) ∧ Allocated 2 m := by
  have h0 : Refines 2 2 id (empty : HashMap Nat Nat) (fun _ _ => []) ∅ := empty_refines
  obtain ⟨m1, L1, -, h1, ha1, hnum1⟩ := h0.reserve (by decide) 2 (by decide)
  obtain ⟨m2, L2, -, -, -, h2, hnum2, ha2⟩ := h1.insert (by decide) (by decide) (by rw [hnum1]; decide) 0 7
  rw [if_neg (Finmap.not_mem_empty)] at h2
  obtain ⟨m3, L3, -, -, -, h3, -, ha3⟩ := h2.insert (by decide) (by decide)
    (by rw [hnum1] at hnum2; exact lt_of_le_of_lt (Nat.add_le_add_right hnum2 1) (by decide)) 2 8
  rw [if_neg (by simp [Finmap.not_mem_empty])] at h3
  exact ⟨m3, L3, h3, ha3 (ha2 ha1)⟩

/-- `rekey_lockless(0, 2)` on that map succeeds and breaks the invariant. -/
theorem rekeyLockless_onto_two :
    ∃ (m : HashMap Nat Nat) (L : Nat → Nat → List PoolPtr),
      Refines 2 2 id m L (((∅ : Finmap fun _ : Nat => Nat).insert 0 7).insert 2 8) ∧ Allocated 2 m ∧
      ∃ m', m.rekeyLockless 2 2 id 0 2 = .ok (m', true) ∧ ¬ Inv 2 2 id m' := by
  obtain ⟨m, L, h, ha⟩ := refines_reserve_insert_two
  exact ⟨m, L, h, ha, h.rekeyLockless_onto_bound (by decide) ha
    (show getInnerMapIndex 2 (id 2) = getInnerMapIndex 2 (id 0) by decide) (by simp) (by simp) (by decide)⟩

/-- `rekey(k, k')` with no other thread running, on a map whose shards have tables and which stands for a
finite map, returns and leaves what `rekey_lockless(k, k')` does, for any two keys: its loop's first turn
reads the node's bucket in range, and its body then makes the lockless body's writes. -/
theorem Refines.rekeyConcurrent_eq_rekeyLockless (hS : 0 < S) (h : Refines P S hash64 m L M) (ha : Allocated S m)
    (k k' : K) (fuel : Nat) : m.rekeyConcurrent P S hash64 k k' (fuel + 1) = m.rekeyLockless P S hash64 k k' := by
  obtain ⟨s, hsdef⟩ : ∃ s, getInnerMapIndex S (hash64 k) = s := ⟨_, rfl⟩
  have hs' : s < S := hsdef ▸ getInnerMapIndex_lt hS _
  simp only [rekeyConcurrent, HashMap.rekeyLockless, h.findLockless_eq hsdef hs' (ha s hs'), except_ok_bind]
  cases hf : (L s ((m.innerMaps s).getIndex (hash64 k))).find? (keyMatches P m.sharedPool k) with
  | none => rfl
  | some p =>
    obtain ⟨n, hn, rfl, -, -, hbn, im', heap', Ls, hres, -⟩ := h.rekeyFound hsdef hs' (ha s hs') hf k'
    simp only [rekeyConcurrentLoop, HashMap.rekeyLocklessNode, hn, except_ok_bind, hsdef]
    split_ifs
    · rw [InnerMap.rekeyConcurrentLoop_of_lt P hn hbn, InnerMap.rekeyConcurrentNode_eq_of_rekeyed hres, hres]
    · rfl

/-- `rekey(0, 2)` and `rekey(0, 1)`, across shards, on the map of `refines_reserve_insert`. -/
theorem rekeyConcurrent_zero :
    ∃ (m : HashMap Nat Nat) (L : Nat → Nat → List PoolPtr),
      Refines 2 2 id m L ((∅ : Finmap fun _ : Nat => Nat).insert 0 7) ∧ Allocated 2 m ∧
      ∀ fuel, m.rekeyConcurrent 2 2 id 0 2 (fuel + 1) = m.rekeyLockless 2 2 id 0 2 ∧
        m.rekeyConcurrent 2 2 id 0 1 (fuel + 1) = m.rekeyLockless 2 2 id 0 1 := by
  obtain ⟨m, L, h, ha⟩ := refines_reserve_insert
  exact ⟨m, L, h, ha, fun fuel => ⟨h.rekeyConcurrent_eq_rekeyLockless (by decide) ha 0 2 fuel,
    h.rekeyConcurrent_eq_rekeyLockless (by decide) ha 0 1 fuel⟩⟩

/-- `Remove_Lockless<KeyValuePair>` of a node of the map: the node records its bucket, which is its key's,
so the call is `Remove_Lockless` of the node's key, returns `true`, and the finite map loses that binding. -/
theorem Refines.removeLocklessNode (hS : 0 < S) (h : Refines P S hash64 m L M) (ha : Allocated S m)
    {p : PoolPtr} (hp : p ∈ allNodes S m L) {k : K} {v : V} (he : entryOf P m.sharedPool p = some (k, v)) :
    m.removeLocklessNode P S hash64 p = m.removeLockless P S hash64 k ∧
      ∃ m' L', m.removeLocklessNode P S hash64 p = .ok (m', true) ∧ Refines P S hash64 m' L' (M.erase k) ∧
        m'.sharedPool.numPages = m.sharedPool.numPages ∧ Allocated S m' := by
  obtain ⟨s, hs, hps⟩ := mem_allNodes.1 hp
  obtain ⟨b, hb, hpb⟩ := InnerMap.mem_nodes.1 hps
  obtain ⟨n, hn, hroute, hidx, hbucket⟩ := h.inv.placed s hs b hb p hpb
  obtain ⟨rfl, -⟩ : n.key = k ∧ n.value = v := by simpa using (entryOf_of_getNode hn).symm.trans he
  have heq : m.removeLocklessNode P S hash64 p = m.removeLockless P S hash64 n.key := by
    simp only [HashMap.removeLocklessNode, removeLockless, InnerMap.removeLocklessNode, InnerMap.removeLockless, hn,
      except_ok_bind, hroute, hidx, hbucket, if_pos hb]
  obtain ⟨m', L', hrem, h', hnum, ha'⟩ := h.erase hS ha n.key
  refine ⟨heq, m', L', ?_, h', hnum, ha'⟩
  rw [heq, hrem, decide_eq_true ((h.mem_iff _).2 ⟨p, hp, v, he⟩)]

/-- `Remove_Lockless<KeyValuePair>` of the node that binds `0` in that map. -/
theorem removeLocklessNode_zero :
    ∃ (m : HashMap Nat Nat) (L : Nat → Nat → List PoolPtr) (p : PoolPtr),
      Refines 2 2 id m L ((∅ : Finmap fun _ : Nat => Nat).insert 0 7) ∧ Allocated 2 m ∧ p ∈ allNodes 2 m L ∧
      entryOf 2 m.sharedPool p = some (0, 7) ∧ m.removeLocklessNode 2 2 id p = m.removeLockless 2 2 id 0 ∧
      ∃ m' L', m.removeLocklessNode 2 2 id p = .ok (m', true) ∧
        Refines 2 2 id m' L' (((∅ : Finmap fun _ : Nat => Nat).insert 0 7).erase 0) := by
  obtain ⟨m, L, h, ha⟩ := refines_reserve_insert
  obtain ⟨p, hp, he⟩ := (h.lookup_eq 0 7).1 (by simp)
  obtain ⟨heq, m', L', hrem, h', -⟩ := h.removeLocklessNode (by decide) ha hp he
  exact ⟨m, L, p, h, ha, hp, he, heq, m', L', hrem, h'⟩

end HashMap

end PklE.ThreadsafeContainers
