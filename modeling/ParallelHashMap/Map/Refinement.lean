import ParallelHashMap.Map.Invariant
import ParallelHashMap.Map.Shard
import Mathlib.Data.Finmap

/-!
# The map refines a finite map

What the map is for: a finite map from keys to values (Mathlib's `Finmap`). `insert_lockless` adds a
binding for an absent key and leaves a present key's binding alone, `find_lockless` looks a key up,
`erase_lockless` removes a key's binding, `clear` empties the map, `reserve` changes no binding, and
`Size()` is the number of bindings modulo `2^32`.

`Refines m L M` relates the map `m`, with lists `L`, to the finite map `M`: the invariant `InvWith`
holds with tables of their shape, a shard without a table has never counted anything, the pool is valid
below `c_MaxPages` pages, the nodes on the lists hold exactly `M`'s bindings, and `totalCount` is their
number modulo `2^32`. From a related state every call returns what `M` returns and leaves a related
state (`Refines.findValue`, `Refines.insert`, `Refines.erase`, `Refines.clear`, `Refines.reserve`),
provided `find` and `erase` find a table in the key's shard: a constructed map has none, and `reserve`
gives one to every shard (`Allocated`). Each step is assembled by `Refines.shard_step` from what the
shard's operation does to the shard's lists (`Map/Shard.lean`).
-/

namespace PklE.ThreadsafeContainers

open PklE.CoreTypes PklE.Util SimpleLinkedList
open scoped List

namespace HashMap

variable {K V : Type} [LinearOrder K] {P S : Nat} {hash64 : K → Nat} {m : HashMap K V}
  {L : Nat → Nat → List PoolPtr}

/-! ## Shards -/

omit [LinearOrder K] in
theorem getInnerMapIndex_lt (hS : 0 < S) (hash : Nat) : getInnerMapIndex S hash < S := by
  have : hash &&& (S - 1) ≤ S - 1 := Nat.and_le_right
  unfold getInnerMapIndex
  omega

omit [LinearOrder K] in
theorem mem_allNodes {p : PoolPtr} : p ∈ allNodes S m L ↔ ∃ s < S, p ∈ (m.innerMaps s).nodes (L s) := by
  simp [allNodes]

omit [LinearOrder K] in
theorem InvWith.listsOk (h : InvWith P S hash64 m L) {s : Nat} (hs : s < S) :
    InnerMap.ListsOk P hash64 (m.innerMaps s) m.sharedPool (L s) :=
  ⟨h.chain s hs, fun b hb p hp => (h.placed s hs b hb p hp).imp fun _ ⟨hn, _, hi, hbk⟩ => ⟨hn, hi, hbk⟩,
    (List.nodup_flatMap.1 h.nodup).1 s (List.mem_range.2 hs)⟩

omit [LinearOrder K] in
/-- A node on shard `s`'s lists belongs to shard `s` by its key's hash. -/
theorem InvWith.route (h : InvWith P S hash64 m L) {s : Nat} (hs : s < S) {p : PoolPtr}
    (hp : p ∈ (m.innerMaps s).nodes (L s)) {n : Node K V} (hn : getNode P m.sharedPool p = .ok n) :
    getInnerMapIndex S (hash64 n.key) = s := by
  obtain ⟨b, hb, hpb⟩ := InnerMap.mem_nodes.1 hp
  obtain ⟨n', hn', hroute, -⟩ := h.placed s hs b hb p hpb
  rw [hn] at hn'
  cases hn'
  exact hroute

omit [LinearOrder K] in
/-- No two nodes of the map hold the same key. -/
theorem InvWith.entry_inj (h : InvWith P S hash64 m L) {p q : PoolPtr} (hp : p ∈ allNodes S m L)
    (hq : q ∈ allNodes S m L) {k : K} {v v' : V} (hep : entryOf P m.sharedPool p = some (k, v))
    (heq : entryOf P m.sharedPool q = some (k, v')) : p = q := by
  obtain ⟨np, hnp, hep⟩ := entryOf_eq_some.1 hep
  obtain ⟨nq, hnq, heq⟩ := entryOf_eq_some.1 heq
  exact h.key_inj p hp q hq np nq hnp hnq ((congrArg Prod.fst hep).trans (congrArg Prod.fst heq).symm)

omit [LinearOrder K] in
/-- The invariant from each shard's lists and the facts about all nodes. -/
theorem InvWith.of_shards (ht : TablesOk m)
    (hl : ∀ s < S, InnerMap.ListsOk P hash64 (m.innerMaps s) m.sharedPool (L s))
    (hroute : ∀ s < S, ∀ p ∈ (m.innerMaps s).nodes (L s), ∀ n, getNode P m.sharedPool p = .ok n →
      getInnerMapIndex S (hash64 n.key) = s)
    (hnodup : (allNodes S m L).Nodup)
    (hkey : ∀ p ∈ allNodes S m L, ∀ q ∈ allNodes S m L, ∀ (k : K) (v v' : V),
      entryOf P m.sharedPool p = some (k, v) → entryOf P m.sharedPool q = some (k, v') → p = q)
    (hlive : ∀ p, m.sharedPool.isLive p = true ↔ p ∈ allNodes S m L) : InvWith P S hash64 m L where
  table s _ := (ht s).shape
  chain s hs := (hl s hs).chain
  placed s hs b hb p hp := ((hl s hs).placed b hb p hp).imp fun n ⟨hn, hi, hbk⟩ =>
    ⟨hn, hroute s hs p (InnerMap.mem_nodes.2 ⟨b, hb, hp⟩) n hn, hi, hbk⟩
  nodup := hnodup
  key_inj p hp q hq np nq hnp hnq hk :=
    hkey p hp q hq np.key np.value nq.value (entryOf_of_getNode hnp) (by rw [entryOf_of_getNode hnq, hk])
  live := hlive

/-! ## The abstraction -/

variable (P S hash64) in
/-- `m`, with lists `L`, stands for the finite map `M`. -/
structure Refines (m : HashMap K V) (L : Nat → Nat → List PoolPtr) (M : Finmap fun _ : K => V) : Prop where
  inv : InvWith P S hash64 m L
  tables : TablesOk m
  fresh : ∀ s < S, (m.innerMaps s).numBuckets = 0 → (m.innerMaps s).count = 0 ∧ (m.innerMaps s).fillCapacity = 0
  pool : PagingObjectPool.Valid P m.sharedPool
  pages : m.sharedPool.numPages < cMaxPages
  lookup_eq : ∀ k v, M.lookup k = some v ↔ ∃ p ∈ allNodes S m L, entryOf P m.sharedPool p = some (k, v)
  size_eq : m.totalCount = M.keys.card % 2 ^ 32

variable (S) in
/-- Every shard has a table. -/
def Allocated (m : HashMap K V) : Prop := ∀ s < S, 0 < (m.innerMaps s).numBuckets

variable {M : Finmap fun _ : K => V}

theorem Refines.mem_iff (h : Refines P S hash64 m L M) (k : K) :
    k ∈ M ↔ ∃ p ∈ allNodes S m L, ∃ v, entryOf P m.sharedPool p = some (k, v) := by
  rw [Finmap.mem_iff]
  constructor
  · rintro ⟨v, hv⟩
    obtain ⟨p, hp, he⟩ := (h.lookup_eq k v).1 hv
    exact ⟨p, hp, v, he⟩
  · rintro ⟨p, hp, v, he⟩
    exact ⟨v, (h.lookup_eq k v).2 ⟨p, hp, he⟩⟩

/-- A key is bound exactly when a node of its shard holds it. -/
theorem Refines.mem_iff_shard (h : Refines P S hash64 m L M) (hS : 0 < S) (k : K) :
    k ∈ M ↔ ∃ q ∈ (m.innerMaps (getInnerMapIndex S (hash64 k))).nodes (L (getInnerMapIndex S (hash64 k))),
      keyMatches P m.sharedPool k q = true := by
  rw [h.mem_iff]
  constructor
  · rintro ⟨p, hp, v, he⟩
    obtain ⟨s, hs, hps⟩ := mem_allNodes.1 hp
    obtain ⟨n, hn, hkv⟩ := entryOf_eq_some.1 he
    have hroute := h.inv.route hs hps hn
    rw [show n.key = k from congrArg Prod.fst hkv] at hroute
    subst hroute
    exact ⟨p, hps, keyMatches_eq_true_iff.2 ⟨v, he⟩⟩
  · rintro ⟨q, hq, hk⟩
    obtain ⟨v, he⟩ := keyMatches_eq_true_iff.1 hk
    exact ⟨q, mem_allNodes.2 ⟨_, getInnerMapIndex_lt hS _, hq⟩, v, he⟩

/-- A key that no node of its shard holds is not bound. -/
theorem Refines.not_mem_of_shard (h : Refines P S hash64 m L M) (hS : 0 < S) {k : K}
    (hnone : ∀ q ∈ (m.innerMaps (getInnerMapIndex S (hash64 k))).nodes (L (getInnerMapIndex S (hash64 k))),
      keyMatches P m.sharedPool k q = false) : k ∉ M := fun hk => by
  obtain ⟨q, hq, hkq⟩ := (h.mem_iff_shard hS k).1 hk
  rw [hnone q hq] at hkq
  cases hkq

/-! ## Finding -/

/-- `find_lockless(key)` returns `M`'s binding of the key, when the key's shard has a table. -/
theorem Refines.findValue (hS : 0 < S) (h : Refines P S hash64 m L M) (k : K)
    (ha : 0 < (m.innerMaps (getInnerMapIndex S (hash64 k))).numBuckets) :
    m.findValueLockless P S hash64 k = .ok (M.lookup k) := by
  obtain ⟨fl, hv⟩ := h.pool
  have hs := getInnerMapIndex_lt hS (hash64 k)
  have hl := h.inv.listsOk hs
  have ht := h.tables (getInnerMapIndex S (hash64 k))
  have hfind := InnerMap.findLockless_spec ht ha hl hv k
  cases hf : (L (getInnerMapIndex S (hash64 k)) ((m.innerMaps (getInnerMapIndex S (hash64 k))).getIndex
      (hash64 k))).find? (keyMatches P m.sharedPool k) with
  | some q =>
    obtain ⟨v, hv'⟩ := keyMatches_eq_true_iff.1 (List.find?_some hf)
    obtain ⟨n, hn, hkv⟩ := entryOf_eq_some.1 hv'
    have hq : q ∈ allNodes S m L := mem_allNodes.2 ⟨_, hs, InnerMap.mem_nodes.2
      ⟨_, InnerMap.getIndex_lt ht ha _, List.mem_of_find?_eq_some hf⟩⟩
    rw [(h.lookup_eq k v).2 ⟨q, hq, hv'⟩]
    simp only [findValueLockless, findLockless, hfind, hf, except_ok_bind, hn]
    rw [show v = n.value from (congrArg Prod.snd hkv).symm]
    rfl
  | none =>
    have hnone := (hl.find?_eq_none_iff ht ha k).1 hf
    rw [Finmap.lookup_eq_none.2 (h.not_mem_of_shard hS hnone)]
    simp only [findValueLockless, findLockless, hfind, hf, except_ok_bind]
    rfl

/-! ## One shard changed -/

omit [LinearOrder K] in
theorem nodes_update {m' : HashMap K V} {s : Nat} {im' : InnerMap} {Ls : Nat → List PoolPtr}
    (hinner : m'.innerMaps = Function.update m.innerMaps s im') (s' : Nat) :
    (m'.innerMaps s').nodes (Function.update L s Ls s') =
      if s' = s then im'.nodes Ls else (m.innerMaps s').nodes (L s') := by
  rw [hinner]
  by_cases e : s' = s
  · subst e; simp only [Function.update_same, if_true]
  · simp only [Function.update_noteq e, if_neg e]

omit [LinearOrder K] in
/-- A node added to shard `s` is added to the map's nodes. -/
theorem allNodes_perm_cons {m' : HashMap K V} {s : Nat} (hs : s < S) {im' : InnerMap} {Ls : Nat → List PoolPtr}
    (hinner : m'.innerMaps = Function.update m.innerMaps s im') {p : PoolPtr}
    (h : im'.nodes Ls ~ p :: (m.innerMaps s).nodes (L s)) :
    allNodes S m' (Function.update L s Ls) ~ p :: allNodes S m L := by
  unfold allNodes
  exact flatMap_perm_cons (by rw [nodes_update hinner, if_pos rfl]; exact h)
    (fun j hj => by rw [nodes_update hinner, if_neg hj]) (List.nodup_range S) (List.mem_range.2 hs)

omit [LinearOrder K] in
/-- A node removed from shard `s` is removed from the map's nodes. -/
theorem allNodes_cons_perm {m' : HashMap K V} {s : Nat} (hs : s < S) {im' : InnerMap} {Ls : Nat → List PoolPtr}
    (hinner : m'.innerMaps = Function.update m.innerMaps s im') {p : PoolPtr}
    (h : (m.innerMaps s).nodes (L s) ~ p :: im'.nodes Ls) :
    allNodes S m L ~ p :: allNodes S m' (Function.update L s Ls) := by
  unfold allNodes
  exact flatMap_perm_cons (by rw [nodes_update hinner, if_pos rfl]; exact h)
    (fun j hj => by rw [nodes_update hinner, if_neg hj]) (List.nodup_range S) (List.mem_range.2 hs)

omit [LinearOrder K] in
theorem allNodes_perm {m' : HashMap K V} {s : Nat} {im' : InnerMap} {Ls : Nat → List PoolPtr}
    (hinner : m'.innerMaps = Function.update m.innerMaps s im') (h : im'.nodes Ls ~ (m.innerMaps s).nodes (L s)) :
    allNodes S m' (Function.update L s Ls) ~ allNodes S m L := by
  unfold allNodes
  refine List.Perm.flatMap_left _ fun j _ => ?_
  rw [nodes_update hinner]
  split_ifs with hj
  · subst hj; exact h
  · exact .refl _

/-- The relation after an operation on shard `s` that left it `im'` with lists `Ls`, every other shard's
live nodes reading as before. -/
theorem Refines.shard_step (h : Refines P S hash64 m L M) {s : Nat} (hs : s < S) {m' : HashMap K V}
    {im' : InnerMap} {Ls : Nat → List PoolPtr} {M' : Finmap fun _ : K => V}
    (hinner : m'.innerMaps = Function.update m.innerMaps s im') (ht' : im'.TableOk)
    (hfresh : im'.numBuckets = 0 → im'.count = 0 ∧ im'.fillCapacity = 0)
    (hl' : InnerMap.ListsOk P hash64 im' m'.sharedPool Ls)
    (hroute : ∀ p ∈ im'.nodes Ls, ∀ n, getNode P m'.sharedPool p = .ok n →
      getInnerMapIndex S (hash64 n.key) = s)
    (hframe : ∀ q ∉ (m.innerMaps s).nodes (L s), m.sharedPool.isLive q = true → ∀ n,
      getNode P m.sharedPool q = .ok n → getNode P m'.sharedPool q = .ok n)
    (hv : PagingObjectPool.Valid P m'.sharedPool) (hpages : m'.sharedPool.numPages < cMaxPages)
    (hnodup : (allNodes S m' (Function.update L s Ls)).Nodup)
    (hkey : ∀ p ∈ allNodes S m' (Function.update L s Ls), ∀ q ∈ allNodes S m' (Function.update L s Ls),
      ∀ (k : K) (v v' : V), entryOf P m'.sharedPool p = some (k, v) →
        entryOf P m'.sharedPool q = some (k, v') → p = q)
    (hlive : ∀ p, m'.sharedPool.isLive p = true ↔ p ∈ allNodes S m' (Function.update L s Ls))
    (hlookup : ∀ k v, M'.lookup k = some v ↔
      ∃ p ∈ allNodes S m' (Function.update L s Ls), entryOf P m'.sharedPool p = some (k, v))
    (hsize : m'.totalCount = M'.keys.card % 2 ^ 32) :
    Refines P S hash64 m' (Function.update L s Ls) M' := by
  -- the other shards' nodes read as before
  have hkeep : ∀ s' < S, s' ≠ s → ∀ q ∈ (m.innerMaps s').nodes (L s'), ∀ n,
      getNode P m.sharedPool q = .ok n → getNode P m'.sharedPool q = .ok n := fun s' hs' hne q hq n hn =>
    hframe q (fun hq' => hne ((h.inv.route hs' hq hn).symm.trans (h.inv.route hs hq' hn)))
      ((h.inv.live q).2 (mem_allNodes.2 ⟨s', hs', hq⟩)) n hn
  have hother : ∀ s' < S, s' ≠ s → InnerMap.ListsOk P hash64 (m.innerMaps s') m'.sharedPool (L s') :=
    fun s' hs' hne => (h.inv.listsOk hs').frame (hkeep s' hs' hne)
  have htables : TablesOk m' := fun s' => by
    rw [hinner]
    by_cases e : s' = s
    · subst e; simpa only [Function.update_same] using ht'
    · simpa only [Function.update_noteq e] using h.tables s'
  refine ⟨InvWith.of_shards htables (fun s' hs' => ?_) (fun s' hs' p hp n hn => ?_) hnodup hkey hlive, htables,
    fun s' hs' => ?_, hv, hpages, hlookup, hsize⟩
  · by_cases e : s' = s
    · subst e; simpa only [hinner, Function.update_same] using hl'
    · simpa only [hinner, Function.update_noteq e] using hother s' hs' e
  · by_cases e : s' = s
    · subst e
      simp only [hinner, Function.update_same] at hp
      exact hroute p hp n hn
    · simp only [hinner, Function.update_noteq e] at hp
      obtain ⟨n0, hn0⟩ := (h.inv.listsOk hs').getNode_of_mem hp
      rw [hkeep s' hs' e p hp n0 hn0] at hn
      cases hn
      exact h.inv.route hs' hp hn0
  · by_cases e : s' = s
    · subst e; simpa only [hinner, Function.update_same] using hfresh
    · simpa only [hinner, Function.update_noteq e] using h.fresh s' hs'

omit [LinearOrder K] in
theorem node_eq_of_entryOf {heap : Heap K V} {p : PoolPtr} {n : Node K V} {k : K} {v : V}
    (hn : getNode P heap p = .ok n) (he : entryOf P heap p = some (k, v)) : n.key = k ∧ n.value = v := by
  rw [entryOf_of_getNode hn] at he
  exact Prod.mk.inj_iff.1 (Option.some.inj he)

omit [LinearOrder K] in
/-- A node of shard `s` whose entry a new pool keeps still belongs to shard `s` there. -/
theorem InvWith.route_of_entry (h : InvWith P S hash64 m L) {s : Nat} (hs : s < S) {q : PoolPtr}
    (hq : q ∈ (m.innerMaps s).nodes (L s)) {heap : Heap K V} (he : entryOf P heap q = entryOf P m.sharedPool q)
    {n : Node K V} (hn : getNode P heap q = .ok n) : getInnerMapIndex S (hash64 n.key) = s := by
  obtain ⟨n0, hn0⟩ := (h.listsOk hs).getNode_of_mem hq
  have he' : entryOf P m.sharedPool q = some (n.key, n.value) := he ▸ entryOf_of_getNode hn
  rw [← (node_eq_of_entryOf hn0 he').1]
  exact h.route hs hq hn0

/-- The relation after an operation on shard `s` that kept the shard's nodes, up to order, every entry and
what is live. -/
theorem Refines.same_step (h : Refines P S hash64 m L M) {s : Nat} (hs : s < S) {m' : HashMap K V}
    {im' : InnerMap} {Ls : Nat → List PoolPtr}
    (hinner : m'.innerMaps = Function.update m.innerMaps s im') (ht' : im'.TableOk)
    (hfresh : im'.numBuckets = 0 → im'.count = 0 ∧ im'.fillCapacity = 0)
    (hl' : InnerMap.ListsOk P hash64 im' m'.sharedPool Ls)
    (hframe : ∀ q ∉ (m.innerMaps s).nodes (L s), m.sharedPool.isLive q = true → ∀ n,
      getNode P m.sharedPool q = .ok n → getNode P m'.sharedPool q = .ok n)
    (hv : PagingObjectPool.Valid P m'.sharedPool) (hpages : m'.sharedPool.numPages < cMaxPages)
    (hperm : im'.nodes Ls ~ (m.innerMaps s).nodes (L s)) (hent : entryOf P m'.sharedPool = entryOf P m.sharedPool)
    (hlive : m'.sharedPool.isLive = m.sharedPool.isLive) (hsize : m'.totalCount = m.totalCount) :
    Refines P S hash64 m' (Function.update L s Ls) M := by
  have hall := allNodes_perm (S := S) hinner hperm
  refine h.shard_step hs hinner ht' hfresh hl' (fun p hp n hn => ?_) hframe hv hpages (hall.nodup_iff.2 h.inv.nodup)
    (fun p hp q hq k v v' hep heq => ?_) (fun p => ?_) (fun k v => ?_) (hsize.trans h.size_eq)
  · exact h.inv.route_of_entry hs (hperm.mem_iff.1 hp) (congrFun hent p) hn
  · rw [hent] at hep heq
    exact h.inv.entry_inj (hall.mem_iff.1 hp) (hall.mem_iff.1 hq) hep heq
  · rw [hlive, h.inv.live p, hall.mem_iff]
  · rw [h.lookup_eq, hent]
    exact exists_congr fun p => and_congr_left' hall.mem_iff.symm

theorem card_keys_insert {k : K} (hk : k ∉ M) (v : V) : (M.insert k v).keys.card = M.keys.card + 1 := by
  have : (M.insert k v).keys = insert k M.keys := Finset.ext fun x => by
    simp only [Finmap.mem_keys, Finmap.mem_insert, Finset.mem_insert]
  rw [this, Finset.card_insert_of_not_mem (by rwa [Finmap.mem_keys])]

theorem card_keys_erase {k : K} (hk : k ∈ M) : (M.erase k).keys.card + 1 = M.keys.card := by
  rw [Finmap.keys_erase, Finset.card_erase_of_mem (Finmap.mem_keys.2 hk)]
  have : 0 < M.keys.card := Finset.card_pos.2 ⟨k, Finmap.mem_keys.2 hk⟩
  omega

/-- The relation after an operation on shard `s` that added a node `p`, not live before, holding the
binding `(k, v)` of an unbound key `k` of shard `s`. -/
theorem Refines.add_step (h : Refines P S hash64 m L M) {s : Nat} (hs : s < S) {m' : HashMap K V}
    {im' : InnerMap} {Ls : Nat → List PoolPtr} {p : PoolPtr} {k : K} {v : V}
    (hinner : m'.innerMaps = Function.update m.innerMaps s im') (ht' : im'.TableOk)
    (hfresh : im'.numBuckets = 0 → im'.count = 0 ∧ im'.fillCapacity = 0)
    (hl' : InnerMap.ListsOk P hash64 im' m'.sharedPool Ls)
    (hframe : ∀ q ∉ (m.innerMaps s).nodes (L s), m.sharedPool.isLive q = true → ∀ n,
      getNode P m.sharedPool q = .ok n → getNode P m'.sharedPool q = .ok n)
    (hv : PagingObjectPool.Valid P m'.sharedPool) (hpages : m'.sharedPool.numPages < cMaxPages)
    (hperm : im'.nodes Ls ~ p :: (m.innerMaps s).nodes (L s))
    (hent : entryOf P m'.sharedPool = Function.update (entryOf P m.sharedPool) p (some (k, v)))
    (hlive : ∀ q, m'.sharedPool.isLive q = (m.sharedPool.isLive q || q == p))
    (hplive : m.sharedPool.isLive p = false) (hkM : k ∉ M) (hks : getInnerMapIndex S (hash64 k) = s)
    (hsize : m'.totalCount = (m.totalCount + 1) % 2 ^ 32) :
    Refines P S hash64 m' (Function.update L s Ls) (M.insert k v) := by
  have hp : p ∉ allNodes S m L := fun hp => by rw [(h.inv.live p).2 hp] at hplive; cases hplive
  have hall := allNodes_perm_cons hs hinner hperm
  have hmem : ∀ q, q ∈ allNodes S m' (Function.update L s Ls) ↔ q = p ∨ q ∈ allNodes S m L := fun q => by
    rw [hall.mem_iff, List.mem_cons]
  have hentp : entryOf P m'.sharedPool p = some (k, v) := by rw [hent, Function.update_same]
  have hentq : ∀ q ∈ allNodes S m L, entryOf P m'.sharedPool q = entryOf P m.sharedPool q := fun q hq => by
    rw [hent, Function.update_noteq (by rintro rfl; exact hp hq)]
  -- no old node binds `k`
  have hold : ∀ q ∈ allNodes S m L, ∀ v', entryOf P m'.sharedPool q ≠ some (k, v') :=
    fun q hq v' he => hkM ((h.mem_iff k).2 ⟨q, hq, v', by rw [← hentq q hq]; exact he⟩)
  refine h.shard_step hs hinner ht' hfresh hl' (fun q hq n hn => ?_) hframe hv hpages
    (hall.nodup_iff.2 (List.nodup_cons.2 ⟨hp, h.inv.nodup⟩)) (fun q1 hq1 q2 hq2 k' v1 v2 he1 he2 => ?_)
    (fun q => ?_) (fun k' v' => ?_) ?_
  · -- the new node goes to `k`'s shard, the old ones stay where they were
    by_cases hqp : q = p
    · subst hqp
      rw [(node_eq_of_entryOf hn hentp).1]
      exact hks
    · have hq' := (List.mem_cons.1 (hperm.mem_iff.1 hq)).resolve_left hqp
      exact h.inv.route_of_entry hs hq' (hentq q (mem_allNodes.2 ⟨s, hs, hq'⟩)) hn
  · -- one node per key
    rcases (hmem q1).1 hq1 with rfl | hq1' <;> rcases (hmem q2).1 hq2 with rfl | hq2'
    · rfl
    · obtain ⟨rfl, -⟩ := Prod.mk.inj_iff.1 (Option.some.inj (hentp.symm.trans he1))
      exact (hold q2 hq2' v2 he2).elim
    · obtain ⟨rfl, -⟩ := Prod.mk.inj_iff.1 (Option.some.inj (hentp.symm.trans he2))
      exact (hold q1 hq1' v1 he1).elim
    · rw [hentq q1 hq1'] at he1
      rw [hentq q2 hq2'] at he2
      exact h.inv.entry_inj hq1' hq2' he1 he2
  · rw [hlive, hmem, Bool.or_eq_true, h.inv.live q, beq_iff_eq, or_comm]
  · by_cases hk : k' = k
    · subst hk
      rw [Finmap.lookup_insert, Option.some_inj]
      constructor
      · rintro rfl
        exact ⟨p, (hmem p).2 (Or.inl rfl), hentp⟩
      · rintro ⟨q, hq, he⟩
        rcases (hmem q).1 hq with rfl | hq'
        · exact (Prod.mk.inj_iff.1 (Option.some.inj (hentp.symm.trans he))).2
        · exact (hold q hq' v' he).elim
    · rw [Finmap.lookup_insert_of_ne _ hk, h.lookup_eq]
      constructor
      · rintro ⟨q, hq, he⟩
        exact ⟨q, (hmem q).2 (Or.inr hq), by rw [hentq q hq]; exact he⟩
      · rintro ⟨q, hq, he⟩
        rcases (hmem q).1 hq with rfl | hq'
        · exact (hk (Prod.mk.inj_iff.1 (Option.some.inj (hentp.symm.trans he))).1.symm).elim
        · exact ⟨q, hq', by rw [← hentq q hq']; exact he⟩
  · rw [hsize, card_keys_insert hkM, h.size_eq]
    omega

/-- The relation after an operation on shard `s` that took off its lists the node `p` holding the binding
of `k`, which is no longer live, and kept every entry. -/
theorem Refines.remove_step (h : Refines P S hash64 m L M) {s : Nat} (hs : s < S) {m' : HashMap K V}
    {im' : InnerMap} {Ls : Nat → List PoolPtr} {p : PoolPtr} {k : K} {vp : V}
    (hinner : m'.innerMaps = Function.update m.innerMaps s im') (ht' : im'.TableOk)
    (hfresh : im'.numBuckets = 0 → im'.count = 0 ∧ im'.fillCapacity = 0)
    (hl' : InnerMap.ListsOk P hash64 im' m'.sharedPool Ls)
    (hframe : ∀ q ∉ (m.innerMaps s).nodes (L s), m.sharedPool.isLive q = true → ∀ n,
      getNode P m.sharedPool q = .ok n → getNode P m'.sharedPool q = .ok n)
    (hv : PagingObjectPool.Valid P m'.sharedPool) (hpages : m'.sharedPool.numPages < cMaxPages)
    (hperm : (m.innerMaps s).nodes (L s) ~ p :: im'.nodes Ls)
    (hent : entryOf P m'.sharedPool = entryOf P m.sharedPool)
    (hlive : ∀ q, m'.sharedPool.isLive q = (m.sharedPool.isLive q && q != p))
    (hvp : entryOf P m.sharedPool p = some (k, vp))
    (hsize : m'.totalCount = (m.totalCount + 2 ^ 32 - 1) % 2 ^ 32) :
    Refines P S hash64 m' (Function.update L s Ls) (M.erase k) := by
  have hall := allNodes_cons_perm hs hinner hperm
  have hnd := hall.nodup_iff.1 h.inv.nodup
  have hmem : ∀ q, q ∈ allNodes S m L ↔ q = p ∨ q ∈ allNodes S m' (Function.update L s Ls) := fun q => by
    rw [hall.mem_iff, List.mem_cons]
  have hsub : ∀ q ∈ allNodes S m' (Function.update L s Ls), q ∈ allNodes S m L :=
    fun q hq => (hmem q).2 (Or.inr hq)
  have hpall : p ∈ allNodes S m L := (hmem p).2 (Or.inl rfl)
  have hkM : k ∈ M := (h.mem_iff k).2 ⟨p, hpall, vp, hvp⟩
  refine h.shard_step hs hinner ht' hfresh hl' (fun q hq n hn => ?_) hframe hv hpages
    (List.nodup_cons.1 hnd).2 (fun q1 hq1 q2 hq2 k' v1 v2 he1 he2 => ?_) (fun q => ?_) (fun k' v' => ?_) ?_
  · -- the nodes that stay are where they were
    exact h.inv.route_of_entry hs (hperm.mem_iff.2 (List.mem_cons_of_mem _ hq)) (congrFun hent q) hn
  · rw [hent] at he1 he2
    exact h.inv.entry_inj (hsub q1 hq1) (hsub q2 hq2) he1 he2
  · rw [hlive, Bool.and_eq_true, h.inv.live q, bne_iff_ne, hmem]
    exact ⟨fun ⟨hq, hqp⟩ => hq.resolve_left hqp,
      fun hq => ⟨Or.inr hq, fun e => (List.nodup_cons.1 hnd).1 (e ▸ hq)⟩⟩
  · rw [hent]
    by_cases hk : k' = k
    · subst hk
      rw [Finmap.lookup_erase]
      refine ⟨fun h0 => (by cases h0), fun ⟨q, hq, he⟩ => ?_⟩
      cases h.inv.entry_inj (hsub q hq) hpall he hvp
      exact ((List.nodup_cons.1 hnd).1 hq).elim
    · rw [Finmap.lookup_erase_ne hk, h.lookup_eq]
      refine ⟨fun ⟨q, hq, he⟩ => ?_, fun ⟨q, hq, he⟩ => ⟨q, hsub q hq, he⟩⟩
      rcases (hmem q).1 hq with rfl | hq'
      · exact (hk (Prod.mk.inj_iff.1 (Option.some.inj (hvp.symm.trans he))).1.symm).elim
      · exact ⟨q, hq', he⟩
  · rw [hsize, h.size_eq, ← card_keys_erase hkM]
    omega

/-! ## Inserting -/

/-- `insert_lockless(key, value)` binds an absent key and leaves a present key's binding alone, and
returns whether it bound. -/
theorem Refines.insert (hP : 0 < P) (hS : 0 < S) (h : Refines P S hash64 m L M)
    (hpages : m.sharedPool.numPages + 1 < cMaxPages) (k : K) (v : V) :
    ∃ m' L' r, m.insertLockless P S hash64 k v = .ok (m', r) ∧ r.isSome = decide (k ∉ M) ∧
      Refines P S hash64 m' L' (if k ∈ M then M else M.insert k v) ∧
      m'.sharedPool.numPages ≤ m.sharedPool.numPages + 1 ∧ (Allocated S m → Allocated S m') := by
  obtain ⟨s, hsdef⟩ : ∃ s, getInnerMapIndex S (hash64 k) = s := ⟨_, rfl⟩
  have hs : s < S := hsdef ▸ getInnerMapIndex_lt hS _
  -- a shard without a table has a zero count and fill capacity, so this insertion grows it
  have hpos : 0 < (m.innerMaps s).numBuckets ∨
      (m.innerMaps s).fillCapacity < ((m.innerMaps s).count + 1) % 2 ^ 32 := by
    rcases Nat.eq_zero_or_pos (m.innerMaps s).numBuckets with h0 | h0
    · obtain ⟨hc, hf⟩ := h.fresh s hs h0
      right
      rw [hc, hf]
      decide
    · exact Or.inl h0
  obtain ⟨im', heap', Ls, r, hins, ht', hpos', -, hl', hv', hnum', hframe, hcase⟩ :=
    InnerMap.insertLockless_spec hP (h.tables s) hpos (h.inv.listsOk hs) h.pool (by omega)
      (fun q hq => (h.inv.live q).2 (mem_allNodes.2 ⟨s, hs, hq⟩)) k v
  obtain ⟨c, hc⟩ : ∃ c, (if r.isSome then ((m.withInner s im' heap').totalCount + 1) % 2 ^ 32
      else (m.withInner s im' heap').totalCount) = c := ⟨_, rfl⟩
  have heq : m.insertLockless P S hash64 k v = .ok ({ m.withInner s im' heap' with totalCount := c }, r) := by
    simp only [insertLockless, hsdef, hins, except_ok_bind, hc]
    rfl
  have hinner : ({ m.withInner s im' heap' with totalCount := c } : HashMap K V).innerMaps =
      Function.update m.innerMaps s im' := rfl
  have halloc : Allocated S m → Allocated S { m.withInner s im' heap' with totalCount := c } := fun ha s' hs' => by
    rw [hinner]
    by_cases e : s' = s
    · subst e; simpa only [Function.update_same] using hpos'
    · simpa only [Function.update_noteq e] using ha s' hs'
  have hfresh : im'.numBuckets = 0 → im'.count = 0 ∧ im'.fillCapacity = 0 := fun h0 => absurd h0 (by omega)
  have hpages' : heap'.numPages < cMaxPages := by omega
  rcases hcase with ⟨⟨q, hq, hk⟩, rfl, hperm, hlive', hent'⟩ | ⟨hnone, p, rfl, hplive, hperm, hlive', hent'⟩
  · -- the key is present: the bindings stay
    have hkM : k ∈ M := (h.mem_iff_shard hS k).2 ⟨q, by rw [hsdef]; exact hq, hk⟩
    refine ⟨_, Function.update L s Ls, none, heq, by simp [hkM], ?_, hnum', halloc⟩
    rw [if_pos hkM]
    exact h.same_step hs hinner ht' hfresh hl' hframe hv' hpages' hperm hent' hlive' (by rw [← hc]; rfl)
  · -- the key is absent: the new node `p` holds its binding
    have hkM : k ∉ M := h.not_mem_of_shard hS (by rw [hsdef]; exact hnone)
    refine ⟨_, Function.update L s Ls, some p, heq, by simp [hkM], ?_, hnum', halloc⟩
    rw [if_neg hkM]
    exact h.add_step hs hinner ht' hfresh hl' hframe hv' hpages' hperm hent' hlive' hplive hkM hsdef
      (by rw [← hc]; rfl)

/-! ## Erasing -/

theorem erase_of_not_mem {k : K} (hk : k ∉ M) : M.erase k = M :=
  Finmap.ext_lookup fun x => by
    by_cases hx : x = k
    · rw [hx, Finmap.lookup_erase, Finmap.lookup_eq_none.2 hk]
    · rw [Finmap.lookup_erase_ne hx]

/-- `erase_lockless(key)` on a map whose shards have tables unbinds the key, and returns whether it was
bound. -/
theorem Refines.erase (hS : 0 < S) (h : Refines P S hash64 m L M) (ha : Allocated S m) (k : K) :
    ∃ m' L', m.removeLockless P S hash64 k = .ok (m', decide (k ∈ M)) ∧ Refines P S hash64 m' L' (M.erase k) ∧
      m'.sharedPool.numPages = m.sharedPool.numPages ∧ Allocated S m' := by
  obtain ⟨s, hsdef⟩ : ∃ s, getInnerMapIndex S (hash64 k) = s := ⟨_, rfl⟩
  have hs : s < S := hsdef ▸ getInnerMapIndex_lt hS _
  obtain ⟨im', heap', Ls, r, hrem, hsame, hl', hv', hnum', hframe, hcase⟩ :=
    InnerMap.removeLockless_spec (h.tables s) (ha s hs) (h.inv.listsOk hs) h.pool k
  have heq : m.removeLockless P S hash64 k = .ok ((m.withInner s im' heap').afterRemove r, r) := by
    simp only [removeLockless, hsdef, hrem, except_ok_bind]
    rfl
  have hinner : ((m.withInner s im' heap').afterRemove r).innerMaps = Function.update m.innerMaps s im' := rfl
  have ht' := (h.tables s).of_sameTable hsame
  have hnb : im'.numBuckets = (m.innerMaps s).numBuckets := hsame.numBuckets_eq
  have halloc : Allocated S ((m.withInner s im' heap').afterRemove r) := fun s' hs' => by
    rw [hinner]
    by_cases e : s' = s
    · subst e; rw [Function.update_same, hnb]; exact ha s' hs'
    · rw [Function.update_noteq e]; exact ha s' hs'
  have hfresh : im'.numBuckets = 0 → im'.count = 0 ∧ im'.fillCapacity = 0 := fun h0 =>
    absurd h0 (by have := ha s hs; omega)
  have hpages : heap'.numPages < cMaxPages := hnum' ▸ h.pages
  rcases hcase with ⟨hnone, rfl, hnodes, rfl, -⟩ | ⟨p, hp, hkp, rfl, hperm, hlive', hent', -⟩
  · -- the key is absent: nothing changes
    have hkM : k ∉ M := h.not_mem_of_shard hS (by rw [hsdef]; exact hnone)
    refine ⟨(m.withInner s im' m.sharedPool).afterRemove false, Function.update L s Ls,
      heq.trans (by rw [decide_eq_false hkM]), ?_, hnum', halloc⟩
    rw [erase_of_not_mem hkM]
    exact h.same_step hs hinner ht' hfresh hl' (fun q hq _ => hframe q hq) hv' hpages (by rw [hnodes]) rfl rfl
      (by rw [afterRemove_totalCount, if_neg Bool.false_ne_true, withInner_totalCount])
  · -- the key is present at `p`, which leaves the lists
    obtain ⟨vp, hvp⟩ := keyMatches_eq_true_iff.1 hkp
    have hkM : k ∈ M := (h.mem_iff_shard hS k).2 ⟨p, by rw [hsdef]; exact hp, hkp⟩
    refine ⟨_, Function.update L s Ls, heq.trans (by rw [decide_eq_true hkM]), ?_, hnum', halloc⟩
    exact h.remove_step hs hinner ht' hfresh hl' (fun q hq _ => hframe q hq) hv' hpages hperm hent' hlive' hvp
      (by rw [afterRemove_totalCount, if_pos rfl, withInner_totalCount])

/-! ## The pool alone -/

/-- The relation after the pool alone changed, keeping its nodes and what is live. -/
theorem Refines.of_pool (h : Refines P S hash64 m L M) {heap : Heap K V} (hnode : heap.nodeAt = m.sharedPool.nodeAt)
    (hlive : heap.isLive = m.sharedPool.isLive) (hv : PagingObjectPool.Valid P heap)
    (hpages : heap.numPages < cMaxPages) : Refines P S hash64 { m with sharedPool := heap } L M := by
  have hget := getNode_congr_nodeAt (P := P) hnode
  have hent : entryOf P heap = entryOf P m.sharedPool := funext fun q => entryOf_congr (hget q)
  refine ⟨InvWith.of_shards h.tables (fun s hs => (h.inv.listsOk hs).frame fun q _ n hn => (hget q n).2 hn)
    (fun s hs p hp n hn => h.inv.route hs hp ((hget p n).1 hn)) h.inv.nodup (fun p hp q hq k v v' hep heq => ?_)
    (fun p => ?_), h.tables, h.fresh, hv, hpages, fun k v => ?_, h.size_eq⟩
  · change entryOf P heap p = _ at hep
    change entryOf P heap q = _ at heq
    rw [hent] at hep heq
    exact h.inv.entry_inj hp hq hep heq
  · change heap.isLive p = true ↔ _
    rw [hlive]
    exact h.inv.live p
  · change _ ↔ ∃ p ∈ _, entryOf P heap p = _
    rw [hent]
    exact h.lookup_eq k v

/-! ## The empty map -/

omit [LinearOrder K] in
theorem allNodes_nil (m : HashMap K V) : allNodes S m (fun _ _ => []) = [] :=
  List.flatMap_eq_nil_iff.2 fun s _ => InnerMap.nodes_nil (m.innerMaps s)

/-- A map whose heads are all `nullptr`, with nothing live in its pool and a zero count, stands for the empty
map. -/
theorem refines_nil (ht : TablesOk m) (hnull : ∀ s < S, ∀ b < (m.innerMaps s).numBuckets,
      (m.innerMaps s).bucketAt b = .ok none)
    (hfresh : ∀ s < S, (m.innerMaps s).numBuckets = 0 →
      (m.innerMaps s).count = 0 ∧ (m.innerMaps s).fillCapacity = 0)
    (hv : PagingObjectPool.Valid P m.sharedPool) (hpages : m.sharedPool.numPages < cMaxPages)
    (hlive : ∀ q, m.sharedPool.isLive q = false) (hsize : m.totalCount = 0) :
    Refines P S hash64 m (fun _ _ => []) ∅ := by
  refine ⟨InvWith.of_shards ht (fun s hs => InnerMap.listsOk_nil (hnull s hs)) (fun s _ p hp => ?_) ?_
    (fun p hp => ?_) (fun p => ?_), ht, hfresh, hv, hpages, fun k v => ?_, ?_⟩
  · rw [InnerMap.nodes_nil] at hp
    cases hp
  · rw [allNodes_nil]
    exact List.nodup_nil
  · rw [allNodes_nil] at hp
    cases hp
  · rw [hlive, allNodes_nil]
    simp
  · rw [Finmap.lookup_empty, allNodes_nil]
    simp
  · rw [hsize, Finmap.keys_empty, Finset.card_empty, Nat.zero_mod]

/-- A constructed map stands for the empty map. -/
theorem empty_refines : Refines P S hash64 (empty : HashMap K V) (fun _ _ => []) ∅ := by
  refine refines_nil (fun _ => InnerMap.tableOk_empty) (fun _ _ b hb => absurd hb (Nat.not_lt_zero b))
    (fun _ _ _ => ⟨rfl, rfl⟩) ⟨[], PagingObjectPool.valid_init⟩ ?_ (fun _ => rfl) rfl
  show 0 < cMaxPages
  decide

/-! ## Clearing -/

/-- Every head of the shard is `nullptr` and its count is `0`. -/
def Cleared (im : InnerMap) : Prop := im.count = 0 ∧ ∀ b < im.numBuckets, im.bucketAt b = .ok none

omit [LinearOrder K] in
/-- `Clear_Lockless`'s loop over the shards `todo` clears each of them and keeps every table. -/
theorem clearShard_foldlM : ∀ (todo : List Nat) (acc : HashMap K V), TablesOk acc →
    ∃ acc', todo.foldlM clearShard acc = .ok acc' ∧ acc'.sharedPool = acc.sharedPool ∧
      acc'.totalCount = acc.totalCount ∧ (∀ i, InnerMap.SameTable (acc.innerMaps i) (acc'.innerMaps i) ∧
        (acc'.innerMaps i).fillCapacity = (acc.innerMaps i).fillCapacity) ∧
      ∀ i, Cleared (acc.innerMaps i) ∨ i ∈ todo → Cleared (acc'.innerMaps i)
  | [], acc, _ => ⟨acc, rfl, rfl, rfl, fun _ => ⟨.refl _, rfl⟩, fun i h => h.resolve_right (List.not_mem_nil i)⟩
  | i :: todo, acc, ht => by
    obtain ⟨im, hclr, hsame, hcount, hfill, hbk⟩ := InnerMap.clearLockless_spec (ht i)
    have hupd : ∀ j, ({ acc with innerMaps := Function.update acc.innerMaps i im } : HashMap K V).innerMaps j =
        if j = i then im else acc.innerMaps j := fun j => by
      by_cases e : j = i
      · subst e; simp only [Function.update_same, if_true]
      · simp only [Function.update_noteq e, if_neg e]
    have ht1 : TablesOk { acc with innerMaps := Function.update acc.innerMaps i im } := fun j => by
      rw [hupd]
      split_ifs
      · exact (ht i).of_sameTable hsame
      · exact ht j
    obtain ⟨acc', hfold, hpool, htotal, htab, hclear⟩ := clearShard_foldlM todo _ ht1
    refine ⟨acc', ?_, hpool, htotal, fun j => ?_, fun j hj => hclear j ?_⟩
    · simp only [List.foldlM_cons, clearShard, hclr, except_ok_bind]
      exact hfold
    · obtain ⟨hs', hf'⟩ := htab j
      rw [hupd] at hs' hf'
      split_ifs at hs' hf' with e
      · subst e
        exact ⟨hsame.trans hs', hf'.trans hfill⟩
      · exact ⟨hs', hf'⟩
    · rw [hupd]
      split_ifs with e
      · exact Or.inl ⟨hcount, fun b hb => hbk b (hsame.numBuckets_eq ▸ hb)⟩
      · exact hj.imp_right fun h => (List.mem_cons.1 h).resolve_left e

/-- `clear()` empties the map and keeps every shard's table. -/
theorem Refines.clear (h : Refines P S hash64 m L M) :
    ∃ m', m.clearLockless S = .ok m' ∧ Refines P S hash64 m' (fun _ _ => []) ∅ ∧ m'.sharedPool.numPages = 0 ∧
      (Allocated S m → Allocated S m') := by
  obtain ⟨acc, hfold, hpool, htotal, htab, hclear⟩ :=
    clearShard_foldlM (List.range S) { m with totalCount := 0 } h.tables
  obtain ⟨fl, hvw⟩ := h.pool
  have hp : PagingObjectPool.PagesOk P acc.sharedPool := by rw [hpool]; exact hvw.pagesOk
  obtain ⟨hvc, hlive⟩ := PagingObjectPool.clear_spec hp
  have hcl : ∀ s < S, Cleared (acc.innerMaps s) := fun s hs => hclear s (Or.inr (List.mem_range.2 hs))
  have hnb : ∀ s, (acc.innerMaps s).numBuckets = (m.innerMaps s).numBuckets := fun s => (htab s).1.numBuckets_eq
  refine ⟨{ acc with sharedPool := acc.sharedPool.clear }, by simp only [clearLockless, hfold, except_ok_bind]; rfl,
    refines_nil (fun s => (h.tables s).of_sameTable (htab s).1) (fun s hs => (hcl s hs).2)
      (fun s hs h0 => ⟨(hcl s hs).1, ?_⟩) ⟨[], hvc⟩ (by show 0 < cMaxPages; decide) hlive htotal, rfl,
    fun ha s hs => (hnb s).symm ▸ ha s hs⟩
  change (acc.innerMaps s).numBuckets = 0 at h0
  rw [(htab s).2]
  exact (h.fresh s hs ((hnb s) ▸ h0)).2

/-! ## Reserving -/

/-- `Reserve`'s body on shard `s`: the shard's table is resized to `n` buckets, and the map it stands for is
kept. -/
theorem Refines.resizeShard (h : Refines P S hash64 m L M) {s : Nat} (hs : s < S) {n : Nat}
    (hn : ∃ j < 32, n = 2 ^ j) :
    ∃ m' L', resizeShard P hash64 n m s = .ok m' ∧ Refines P S hash64 m' L' M ∧
      m'.sharedPool.numPages = m.sharedPool.numPages ∧ 0 < (m'.innerMaps s).numBuckets ∧
      ∀ s' ≠ s, m'.innerMaps s' = m.innerMaps s' := by
  obtain ⟨fl, hvw⟩ := h.pool
  have hl := h.inv.listsOk hs
  obtain ⟨im', heap', NL, hres, ht', hnb, -, -, hl', hperm, hrw, hent, hframe⟩ :=
    InnerMap.resize_spec hash64 hn hvw hl.chain hl.nodup
  have hpos : 0 < im'.numBuckets := by
    obtain ⟨j, -, rfl⟩ := hn
    rw [hnb]
    exact Nat.two_pow_pos j
  refine ⟨m.withInner s im' heap', Function.update L s NL,
    by simp only [HashMap.resizeShard, hres, except_ok_bind]; rfl,
    h.same_step hs (withInner_innerMaps m s im' heap') ht' (fun h0 => absurd h0 (by omega)) hl'
      (fun q hq _ n hn => (hframe q hq).trans hn) ⟨fl, hrw.valid fl hvw⟩
      (by rw [withInner_sharedPool, hrw.numPages_eq]; exact h.pages) hperm hent hrw.isLive_eq rfl,
    hrw.numPages_eq, by rw [withInner_innerMaps, Function.update_same]; exact hpos,
    fun s' hs' => by rw [withInner_innerMaps, Function.update_noteq hs']⟩

/-- `Reserve`'s loop over the shards `todo`: each gets a table of `n` buckets, and the map it stands for is
kept. -/
theorem resizeShard_foldlM {n : Nat} (hn : ∃ j < 32, n = 2 ^ j) :
    ∀ (todo : List Nat) {m : HashMap K V} {L : Nat → Nat → List PoolPtr}, (∀ s ∈ todo, s < S) →
      Refines P S hash64 m L M →
      ∃ m' L', todo.foldlM (resizeShard P hash64 n) m = .ok m' ∧ Refines P S hash64 m' L' M ∧
        m'.sharedPool.numPages = m.sharedPool.numPages ∧
        ∀ s, (0 < (m.innerMaps s).numBuckets ∨ s ∈ todo) → 0 < (m'.innerMaps s).numBuckets
  | [], m, L, _, h => ⟨m, L, rfl, h, rfl, fun s hs => hs.resolve_right (List.not_mem_nil s)⟩
  | i :: todo, m, L, hlt, h => by
    obtain ⟨m1, L1, hstep, h1, hnum1, hpos1, hother1⟩ := h.resizeShard (hlt i (List.mem_cons_self _ _)) hn
    obtain ⟨m', L', hfold, h', hnum', hpos'⟩ :=
      resizeShard_foldlM hn todo (fun s hs => hlt s (List.mem_cons_of_mem _ hs)) h1
    refine ⟨m', L', by simp only [List.foldlM_cons, hstep, except_ok_bind]; exact hfold, h', hnum'.trans hnum1,
      fun s hs => hpos' s ?_⟩
    by_cases e : s = i
    · subst e
      exact Or.inl hpos1
    · rw [hother1 s e]
      exact hs.imp_right fun h => (List.mem_cons.1 h).resolve_left e

/-- `Reserve(numElements)` gives every shard a table and keeps the map; the pool grows by the pages that hold
`numElements` objects. -/
theorem Refines.reserve (hP : 0 < P) (h : Refines P S hash64 m L M) (numElements : Nat)
    (hpages : m.sharedPool.numPages + ((numElements + P - 1) % 2 ^ 32) / P < cMaxPages) :
    ∃ m' L', m.reserve P S hash64 numElements = .ok m' ∧ Refines P S hash64 m' L' M ∧ Allocated S m' ∧
      m'.sharedPool.numPages = m.sharedPool.numPages + ((numElements + P - 1) % 2 ^ 32) / P := by
  obtain ⟨m1, L1, hfold, h1, hnum1, hpos1⟩ :=
    resizeShard_foldlM (getNextPowerOfTwo_eq_pow ((((numElements * 8) % 2 ^ 32) / 7 + 1 + S - 1) / S))
      (List.range S) (fun s hs => List.mem_range.1 hs) h
  obtain ⟨fl, hvw⟩ := h1.pool
  obtain ⟨heap, fl', halloc, hvw', hnum', hlive', hnode'⟩ :=
    PagingObjectPool.allocatePages_spec hP (((numElements + P - 1) % 2 ^ 32) / P) hvw (by omega)
  refine ⟨{ m1 with sharedPool := heap }, L1, ?_, h1.of_pool hnode' hlive' ⟨fl', hvw'⟩ (by omega),
    fun s hs => hpos1 s (Or.inr (List.mem_range.2 hs)), by rw [← hnum1]; exact hnum'⟩
  simp only [HashMap.reserve, hfold, except_ok_bind, PagingObjectPool.preallocateSpace, halloc]
  rfl

end HashMap

end PklE.ThreadsafeContainers
