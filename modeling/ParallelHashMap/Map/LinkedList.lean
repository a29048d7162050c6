import ParallelHashMap.Pool.Sequential

/-!
# Bucket lists

The map's nodes (`HashMap::Node`) live in the shared `PagingObjectPool`, and each bucket is a
`SimpleLinkedList<Node>` (`simple_linked_list.h`): only a head pointer `pHead`, the links being the
nodes' own `pNext` fields. This module is the list's unlocked operations, which the map runs under its
shard's lock: `Insert_Unsafe` (push at the front), `Find_Unsafe`, `Erase_Unsafe` (unlink the first node
with the key, by way of the node before it) and `EraseNode_Unsafe` (the same loop with a test of the
pointer, `unlinkFrom`).

A walk follows `pNext` through the pool's memory. The pool has pages only at addresses below
`nextAddress`, of `P` slots each, so a walk that has visited `walkBound` nodes without reaching null has
visited a node twice and, the list being unchanged while it runs, loops forever: the model stops it
there with `diverges`.

`Chain heap start l` says that following `pNext` from `start` reads exactly the nodes `l`, then null.
On a chain without repeated nodes every walk ends (`Chain.length_lt_walkBound`); `Find_Unsafe` returns
the first node with the key (`findUnsafe_chain`); `Insert_Unsafe` adds the node in front
(`insertUnsafe_chain`); the unlinking loop removes the first node that passes its test, `Unlinked` behind
its predecessor, which takes the node's successor, while the node's link becomes null and every other node
of the heap stays as it was (`unlinkFrom_spec`, `Unlinked.chain`).
-/

namespace PklE.ThreadsafeContainers

open PklE.CoreTypes

/-- `Node::c_invalidBucket`. -/
def cInvalidBucket : Nat := 0xFFFFFFFF

/-- `Node::c_reassigningBucket`. -/
def cReassigningBucket : Nat := 0xFFFFFFFE

/-- `HashMap::Node`: the key-value pair, the link of its bucket list and the bucket that holds it. -/
structure Node (K V : Type) where
  key : K
  value : V
  pNext : Option PoolPtr := none
  bucket : Nat := cInvalidBucket
  deriving DecidableEq, Repr

/-- The shared pool the nodes live in. -/
abbrev Heap (K V : Type) := PagingObjectPool (Node K V)

/-- `KeyComparator::Compare`. -/
def keyCompare {K : Type} [LinearOrder K] (a b : K) : Int :=
  if a < b then -1 else if a > b then 1 else 0

@[simp] theorem keyCompare_eq_zero {K : Type} [LinearOrder K] (a b : K) : keyCompare a b = 0 ↔ a = b := by
  unfold keyCompare
  split_ifs with h1 h2
  · exact ⟨fun h => absurd h (by decide), fun h => absurd h (ne_of_lt h1)⟩
  · exact ⟨fun h => absurd h (by decide), fun h => absurd h (ne_of_gt h2)⟩
  · exact ⟨fun _ => le_antisymm (not_lt.1 h2) (not_lt.1 h1), fun _ => rfl⟩

namespace SimpleLinkedList

variable {K V : Type} (P : Nat)

/-- The node a pointer points to. -/
def getNode (heap : Heap K V) (p : PoolPtr) : Except Fault (Node K V) :=
  (·.data) <$> heap.readNode P p

/-- A write of the node a pointer points to. -/
def setNode (heap : Heap K V) (p : PoolPtr) (f : Node K V → Node K V) : Except Fault (Heap K V) :=
  heap.modifyNode P p f

/-- How many nodes a walk visits before it must have visited one twice. -/
def walkBound (heap : Heap K V) : Nat := heap.nextAddress * P + 1

/-- `Find_Unsafe`'s loop from `current`, visiting at most `fuel` nodes. -/
def findFrom [LinearOrder K] (heap : Heap K V) (searchKey : K) : Nat → Option PoolPtr → Except Fault (Option PoolPtr)
  | _, none => pure none
  | 0, some _ => throw .diverges
  | fuel + 1, some current => do
    let node ← getNode P heap current
    if keyCompare node.key searchKey = 0 then pure (some current)
    else findFrom heap searchKey fuel node.pNext

/-- `Find_Unsafe(searchKey)` on the list with head `pHead`. -/
def findUnsafe [LinearOrder K] (heap : Heap K V) (pHead : Option PoolPtr) (searchKey : K) : Except Fault (Option PoolPtr) :=
  findFrom P heap searchKey (walkBound P heap) pHead

/-- `Erase_Unsafe`'s loop from `current`, with `prev` the node before it (`none` at the head): the heap, the
list's head and the unlinked node. -/
def eraseFrom [LinearOrder K] (searchKey : K) (pHead : Option PoolPtr) :
    Nat → Option PoolPtr → Option PoolPtr → Heap K V → Except Fault (Heap K V × Option PoolPtr × Option PoolPtr)
  | _, _, none, heap => pure (heap, pHead, none)
  | 0, _, some _, _ => throw .diverges
  | fuel + 1, prev, some current, heap => do
    let node ← getNode P heap current
    if keyCompare node.key searchKey = 0 then
      let (heap, pHead) ← match prev with
        | none => pure (heap, node.pNext)
        | some prev => (·, pHead) <$> setNode P heap prev ({ · with pNext := node.pNext })
      let heap ← setNode P heap current ({ · with pNext := none })
      pure (heap, pHead, some current)
    else eraseFrom searchKey pHead fuel (some current) node.pNext heap

/-- `Erase_Unsafe(searchKey)` on the list with head `pHead`: the heap, the new head and the unlinked
node. -/
def eraseUnsafe [LinearOrder K] (heap : Heap K V) (pHead : Option PoolPtr) (searchKey : K) :
    Except Fault (Heap K V × Option PoolPtr × Option PoolPtr) :=
  eraseFrom P searchKey pHead (walkBound P heap) none pHead heap

/-- `Insert_Unsafe(newNode)` on the list with head `pHead`: the heap and the new head. The map passes only
non-null nodes, for which `Insert_Unsafe` returns `true`. -/
def insertUnsafe (heap : Heap K V) (pHead : Option PoolPtr) (newNode : PoolPtr) :
    Except Fault (Heap K V × Option PoolPtr) :=
  (·, some newNode) <$> setNode P heap newNode ({ · with pNext := pHead })

/-- The loop `Erase_Unsafe` and `EraseNode_Unsafe` share, with the test `test current *current` each makes
of a node: from `current`, with `prev` the node before it, unlink the first node that passes. -/
def unlinkFrom (test : PoolPtr → Node K V → Bool) (pHead : Option PoolPtr) :
    Nat → Option PoolPtr → Option PoolPtr → Heap K V → Except Fault (Heap K V × Option PoolPtr × Option PoolPtr)
  | _, _, none, heap => pure (heap, pHead, none)
  | 0, _, some _, _ => throw .diverges
  | fuel + 1, prev, some current, heap => do
    let node ← getNode P heap current
    if test current node then
      let (heap, pHead) ← match prev with
        | none => pure (heap, node.pNext)
        | some prev => (·, pHead) <$> setNode P heap prev ({ · with pNext := node.pNext })
      let heap ← setNode P heap current ({ · with pNext := none })
      pure (heap, pHead, some current)
    else unlinkFrom test pHead fuel (some current) node.pNext heap

/-- `EraseNode_Unsafe(nodeToRemove)` on the list with head `pHead`: `nullptr` unlinks nothing, and any
other pointer unlinks the node identical to it. -/
def eraseNodeUnsafe (heap : Heap K V) (pHead : Option PoolPtr) (nodeToRemove : Option PoolPtr) :
    Except Fault (Heap K V × Option PoolPtr × Option PoolPtr) :=
  match nodeToRemove with
  | none => pure (heap, pHead, none)
  | some q => unlinkFrom P (fun current _ => decide (current = q)) pHead (walkBound P heap) none pHead heap

/-- `FindLast`'s loop from `current`, with `lastMatch` the last node with the key so far. -/
def findLastFrom [LinearOrder K] (heap : Heap K V) (searchKey : K) :
    Nat → Option PoolPtr → Option PoolPtr → Except Fault (Option PoolPtr)
  | _, lastMatch, none => pure lastMatch
  | 0, _, some _ => throw .diverges
  | fuel + 1, lastMatch, some current => do
    let node ← getNode P heap current
    findLastFrom heap searchKey fuel (if keyCompare node.key searchKey = 0 then some current else lastMatch)
      node.pNext

/-- `FindLast(searchKey)` on the list with head `pHead`: the last node with the key, or `nullptr`. -/
def findLast [LinearOrder K] (heap : Heap K V) (pHead : Option PoolPtr) (searchKey : K) : Except Fault (Option PoolPtr) :=
  findLastFrom P heap searchKey (walkBound P heap) none pHead

/-! ## Chains -/

/-- Following `pNext` from `start` reads the nodes `l`, in order, then reaches null. -/
inductive Chain (heap : Heap K V) : Option PoolPtr → List PoolPtr → Prop
  | nil : Chain heap none []
  | cons {p : PoolPtr} {node : Node K V} {l : List PoolPtr} :
      getNode P heap p = .ok node → Chain heap node.pNext l → Chain heap (some p) (p :: l)

variable {P}

theorem getNode_setNode {heap heap' : Heap K V} {q : PoolPtr} {f : Node K V → Node K V}
    (h : setNode P heap q f = .ok heap') (p : PoolPtr) :
    getNode P heap' p = if p = q then f <$> getNode P heap p else getNode P heap p := by
  simp only [setNode, PagingObjectPool.modifyNode, PagingObjectPool.readPage] at h
  cases hq : heap.pages q.page with
  | none => rw [hq] at h; cases h
  | some page =>
    rw [hq, except_ok_bind] at h
    split_ifs at h with hs
    · cases hn : page.data.nodes q.slot with
      | none => rw [hn] at h; cases h
      | some node =>
        rw [hn] at h
        cases h
        by_cases hpq : p = q
        · subst hpq
          simp [getNode, PagingObjectPool.readNode, PagingObjectPool.readPage, PagingObjectPool.setPage, hq, hs, hn]
        · rw [if_neg hpq]
          by_cases hpage : p.page = q.page
          · have hslot : p.slot ≠ q.slot := fun h => hpq (by cases p; cases q; simp_all)
            simp [getNode, PagingObjectPool.readNode, PagingObjectPool.readPage, PagingObjectPool.setPage, hq,
              hpage, hslot]
          · simp [getNode, PagingObjectPool.readNode, PagingObjectPool.readPage, PagingObjectPool.setPage,
              Function.update_noteq hpage]

theorem Chain.frame {heap heap' : Heap K V} {s : Option PoolPtr} {l : List PoolPtr} (hc : Chain P heap s l)
    (hf : ∀ p ∈ l, ∀ n, getNode P heap p = .ok n → getNode P heap' p = .ok n) : Chain P heap' s l := by
  induction hc with
  | nil => exact .nil
  | cons hp _ ih =>
    exact .cons (hf _ (List.mem_cons_self _ _) _ hp) (ih fun q hq => hf q (List.mem_cons_of_mem _ hq))

theorem Chain.getNode_of_mem {heap : Heap K V} {s : Option PoolPtr} {l : List PoolPtr} (hc : Chain P heap s l)
    {p : PoolPtr} (hp : p ∈ l) : ∃ n, getNode P heap p = .ok n := by
  induction hc with
  | nil => cases hp
  | cons hq _ ih =>
    rcases List.mem_cons.1 hp with rfl | hp
    · exact ⟨_, hq⟩
    · exact ih hp

theorem Chain.some_inv {heap : Heap K V} {p : PoolPtr} {l : List PoolPtr} (hc : Chain P heap (some p) l) :
    ∃ node l', getNode P heap p = .ok node ∧ l = p :: l' ∧ Chain P heap node.pNext l' := by
  cases hc with
  | cons hp hc => exact ⟨_, _, hp, rfl, hc⟩

theorem Chain.cons_inv {heap : Heap K V} {s : Option PoolPtr} {p : PoolPtr} {l : List PoolPtr}
    (hc : Chain P heap s (p :: l)) : ∃ node, getNode P heap p = .ok node ∧ s = some p ∧ Chain P heap node.pNext l := by
  cases hc with
  | cons hp hc => exact ⟨_, hp, rfl, hc⟩

/-- A walk from `s` reads one list. -/
theorem Chain.functional {heap : Heap K V} {s : Option PoolPtr} {l l' : List PoolPtr} (hc : Chain P heap s l)
    (hc' : Chain P heap s l') : l = l' := by
  induction hc generalizing l' with
  | nil => cases hc'; rfl
  | cons hp _ ih =>
    obtain ⟨node', l'', hp', rfl, hrest⟩ := hc'.some_inv
    rw [hp] at hp'; cases hp'
    rw [ih hrest]

/-- `Find_Unsafe` returns only a node with the key. -/
theorem findFrom_some [LinearOrder K] {heap : Heap K V} {searchKey : K} :
    ∀ {fuel : Nat} {s : Option PoolPtr} {p : PoolPtr}, findFrom P heap searchKey fuel s = .ok (some p) →
      ∃ node, getNode P heap p = .ok node ∧ node.key = searchKey
  | _, none, _, h => by rw [findFrom] at h; cases h
  | 0, some _, _, h => by rw [findFrom] at h; cases h
  | fuel + 1, some current, p, h => by
    simp only [findFrom] at h
    cases hn : getNode P heap current with
    | error e => rw [hn] at h; cases h
    | ok node =>
      rw [hn, except_ok_bind] at h
      split_ifs at h with hk
      · cases h; exact ⟨node, hn, (keyCompare_eq_zero _ _).1 hk⟩
      · exact findFrom_some h

theorem getNode_eq_ok {heap : Heap K V} {p : PoolPtr} {n : Node K V} :
    getNode P heap p = .ok n ↔ p.slot < P ∧ (heap.nodeAt p).map (·.data) = some n := by
  simp only [getNode, PagingObjectPool.readNode, PagingObjectPool.readPage, PagingObjectPool.nodeAt,
    PagingObjectPool.dataOf]
  cases hpg : heap.pages p.page with
  | none =>
    simp only [except_error_bind, Option.map_none', Option.none_bind]
    exact ⟨fun h => (by cases h), fun h => by cases h.2⟩
  | some pg =>
    simp only [except_ok_bind, Option.map_some', Option.some_bind]
    by_cases hs : p.slot < P
    · cases hn : pg.data.nodes p.slot with
      | none => exact ⟨fun h => (by simp only [hs, hn, if_true] at h; cases h), fun h => by simp [hn] at h⟩
      | some node =>
        simp only [hs, hn, if_true, Option.map_some', true_and, Option.some.injEq]
        exact ⟨fun h => Except.ok.inj h, fun h => h ▸ rfl⟩
    · exact ⟨fun h => (by simp only [hs, if_false] at h; cases h), fun h => absurd h.1 hs⟩

theorem setNode_ok {heap : Heap K V} {p : PoolPtr} {n : Node K V} (hn : getNode P heap p = .ok n)
    (f : Node K V → Node K V) : ∃ heap', setNode P heap p f = .ok heap' := by
  simp only [getNode, PagingObjectPool.readNode, PagingObjectPool.readPage] at hn
  simp only [setNode, PagingObjectPool.modifyNode, PagingObjectPool.readPage]
  cases hpg : heap.pages p.page with
  | none => rw [hpg] at hn; cases hn
  | some pg =>
    rw [hpg, except_ok_bind] at hn
    rw [except_ok_bind]
    split_ifs at hn ⊢ with hs
    · cases hnd : pg.data.nodes p.slot with
      | none => rw [hnd] at hn; cases hn
      | some node => exact ⟨_, rfl⟩
    · cases hn

/-! ## Rewriting nodes -/

variable (P) in
/-- `heap'` is `heap` with some nodes' fields rewritten: the pool is valid whenever `heap` is, with the same
free list, and the same objects exist and are live. -/
structure Rewritten (heap heap' : Heap K V) : Prop where
  valid : ∀ fl, PagingObjectPool.ValidWith P heap fl → PagingObjectPool.ValidWith P heap' fl
  isLive_eq : heap'.isLive = heap.isLive
  numPages_eq : heap'.numPages = heap.numPages
  nextAddress_eq : heap'.nextAddress = heap.nextAddress
  count_eq : heap'.count = heap.count
  ok_iff : ∀ q, (∃ n, getNode P heap' q = .ok n) ↔ ∃ n, getNode P heap q = .ok n

theorem Rewritten.refl (heap : Heap K V) : Rewritten P heap heap :=
  ⟨fun _ h => h, rfl, rfl, rfl, rfl, fun _ => Iff.rfl⟩

theorem Rewritten.trans {heap heap' heap'' : Heap K V} (h : Rewritten P heap heap') (h' : Rewritten P heap' heap'') :
    Rewritten P heap heap'' :=
  ⟨fun fl hv => h'.valid fl (h.valid fl hv), h'.isLive_eq.trans h.isLive_eq, h'.numPages_eq.trans h.numPages_eq,
    h'.nextAddress_eq.trans h.nextAddress_eq, h'.count_eq.trans h.count_eq, fun q => (h'.ok_iff q).trans (h.ok_iff q)⟩

theorem Rewritten.pool_valid {heap heap' : Heap K V} (h : Rewritten P heap heap') (hv : PagingObjectPool.Valid P heap) :
    PagingObjectPool.Valid P heap' :=
  let ⟨fl, hvw⟩ := hv
  ⟨fl, h.valid fl hvw⟩

theorem Rewritten.walkBound_eq {heap heap' : Heap K V} (h : Rewritten P heap heap') :
    walkBound P heap' = walkBound P heap := by
  simp only [walkBound, h.nextAddress_eq]

theorem setNode_rewritten {heap heap' : Heap K V} {p : PoolPtr} {f : Node K V → Node K V}
    (h : setNode P heap p f = .ok heap') : Rewritten P heap heap' := by
  obtain ⟨hlive, hn, ha, hc, -⟩ := PagingObjectPool.modifyNode_frame h
  refine ⟨fun fl hv => hv.modifyNode h, hlive, hn, ha, hc, fun q => ?_⟩
  rw [getNode_setNode h q]
  split_ifs
  · cases getNode P heap q with
    | error e => exact ⟨fun ⟨_, h⟩ => (by cases h), fun ⟨_, h⟩ => by cases h⟩
    | ok n => exact ⟨fun _ => ⟨n, rfl⟩, fun _ => ⟨f n, rfl⟩⟩
  · exact Iff.rfl

/-- Two writes of one node are one write of both changes. -/
theorem setNode_comp (heap : Heap K V) (p : PoolPtr) (f g : Node K V → Node K V) :
    (setNode P heap p f >>= fun heap => setNode P heap p g) = setNode P heap p (g ∘ f) := by
  simp only [setNode, PagingObjectPool.modifyNode, PagingObjectPool.readPage]
  cases hpg : heap.pages p.page with
  | none => rfl
  | some page =>
    by_cases hs : p.slot < P
    · cases hn : page.data.nodes p.slot with
      | none => simp only [except_ok_bind, if_pos hs, hn]; rfl
      | some node => simp [PagingObjectPool.setPage, hs, hn, Function.update_idem]
    · simp only [except_ok_bind, if_neg hs]; rfl

/-- A write of a node depends only on what it does to that node. -/
theorem setNode_congr {heap : Heap K V} {p : PoolPtr} {n : Node K V} (hn : getNode P heap p = .ok n)
    {f g : Node K V → Node K V} (hfg : f n = g n) : setNode P heap p f = setNode P heap p g := by
  obtain ⟨hs, hat⟩ := getNode_eq_ok.1 hn
  simp only [PagingObjectPool.nodeAt, PagingObjectPool.dataOf] at hat
  simp only [setNode, PagingObjectPool.modifyNode, PagingObjectPool.readPage]
  cases hpg : heap.pages p.page with
  | none => rfl
  | some page =>
    rw [hpg] at hat
    cases hnd : page.data.nodes p.slot with
    | none => simp [hnd] at hat
    | some node =>
      simp only [hnd, Option.some_bind, Option.map_some', Option.some.injEq] at hat
      simp only [except_ok_bind, if_pos hs, hnd, hat, hfg]

/-- A chain stays a chain when its nodes keep their links. -/
theorem Chain.of_pNext {heap heap' : Heap K V} {s : Option PoolPtr} {l : List PoolPtr} (hc : Chain P heap s l)
    (hf : ∀ q ∈ l, ∀ n, getNode P heap q = .ok n → ∃ n', getNode P heap' q = .ok n' ∧ n'.pNext = n.pNext) :
    Chain P heap' s l := by
  induction hc with
  | nil => exact .nil
  | cons hp _ ih =>
    obtain ⟨n', hn', hnext⟩ := hf _ (List.mem_cons_self _ _) _ hp
    exact .cons hn' (hnext ▸ ih fun q hq => hf q (List.mem_cons_of_mem _ hq))

/-! ## The list operations on a chain -/

variable (P) in
/-- A loop's test `test` of the node `p`, false where no node can be read. -/
def matchesAt (heap : Heap K V) (test : PoolPtr → Node K V → Bool) (p : PoolPtr) : Bool :=
  match getNode P heap p with
  | .ok node => test p node
  | .error _ => false

theorem matchesAt_of_getNode {heap : Heap K V} {test : PoolPtr → Node K V → Bool} {p : PoolPtr} {n : Node K V}
    (hn : getNode P heap p = .ok n) : matchesAt P heap test p = test p n := by
  simp only [matchesAt, hn]

variable (P) in
/-- The list's key test `KeyComparator::Compare(current->key, searchKey) == 0` at the node `p`. -/
def keyMatches [LinearOrder K] (heap : Heap K V) (searchKey : K) (p : PoolPtr) : Bool :=
  match getNode P heap p with
  | .ok node => decide (node.key = searchKey)
  | .error _ => false

theorem keyMatches_of_getNode [LinearOrder K] {heap : Heap K V} {searchKey : K} {p : PoolPtr} {n : Node K V}
    (hn : getNode P heap p = .ok n) : keyMatches P heap searchKey p = decide (n.key = searchKey) := by
  simp only [keyMatches, hn]

/-- On a chain, `Find_Unsafe` returns the first node with the key. -/
theorem findFrom_chain [LinearOrder K] {heap : Heap K V} {searchKey : K} {s : Option PoolPtr} {l : List PoolPtr}
    (hc : Chain P heap s l) {fuel : Nat} (hfuel : l.length ≤ fuel) :
    findFrom P heap searchKey fuel s = .ok (l.find? (keyMatches P heap searchKey)) := by
  induction hc generalizing fuel with
  | nil => cases fuel <;> rfl
  | @cons p node l hp _ ih =>
    obtain ⟨f, rfl⟩ : ∃ f, fuel = f + 1 := ⟨fuel - 1, by simp only [List.length_cons] at hfuel; omega⟩
    simp only [findFrom, hp, except_ok_bind, List.find?_cons, keyMatches_of_getNode hp, keyCompare_eq_zero]
    by_cases hk : node.key = searchKey
    · simp [hk]; rfl
    · rw [if_neg hk, decide_eq_false hk]
      exact ih (by simpa using hfuel)

/-- On a chain, `FindLast` returns the last node with the key, or the last match before the chain. -/
theorem findLastFrom_chain [LinearOrder K] {heap : Heap K V} {searchKey : K} {s : Option PoolPtr}
    {l : List PoolPtr} (hc : Chain P heap s l) {fuel : Nat} (hfuel : l.length ≤ fuel) (lastMatch : Option PoolPtr) :
    findLastFrom P heap searchKey fuel lastMatch s =
      .ok (((l.filter (keyMatches P heap searchKey)).getLast?).or lastMatch) := by
  induction hc generalizing fuel lastMatch with
  | nil => cases fuel <;> rfl
  | @cons p node l hp _ ih =>
    obtain ⟨f, rfl⟩ : ∃ f, fuel = f + 1 := ⟨fuel - 1, by simp only [List.length_cons] at hfuel; omega⟩
    simp only [findLastFrom, hp, except_ok_bind, ih (by simpa using hfuel), List.filter_cons,
      keyMatches_of_getNode hp, keyCompare_eq_zero]
    by_cases hk : node.key = searchKey
    · simp only [hk, if_true, decide_True, List.getLast?_cons]
      cases (l.filter (keyMatches P heap searchKey)).getLast? <;> rfl
    · simp [hk]

/-- A chain without a repeated node is shorter than the walks' bound. -/
theorem Chain.length_lt_walkBound {heap : Heap K V} {s : Option PoolPtr} {l : List PoolPtr} (hc : Chain P heap s l)
    (hnd : l.Nodup) (hfresh : ∀ a, heap.nextAddress ≤ a → heap.pages a = none) : l.length < walkBound P heap := by
  have hsub : l.toFinset ⊆ (Finset.range heap.nextAddress ×ˢ Finset.range P).image
      (fun x => (⟨x.1, x.2⟩ : PoolPtr)) := by
    intro p hp
    obtain ⟨n, hn⟩ := hc.getNode_of_mem (List.mem_toFinset.1 hp)
    obtain ⟨hs, hat⟩ := getNode_eq_ok.1 hn
    have hpage : p.page < heap.nextAddress := by
      by_contra hge
      simp [PagingObjectPool.nodeAt, PagingObjectPool.dataOf, hfresh _ (not_lt.1 hge)] at hat
    exact Finset.mem_image.2 ⟨(p.page, p.slot), Finset.mem_product.2
      ⟨Finset.mem_range.2 hpage, Finset.mem_range.2 hs⟩, rfl⟩
  calc l.length = l.toFinset.card := (List.toFinset_card_of_nodup hnd).symm
    _ ≤ ((Finset.range heap.nextAddress ×ˢ Finset.range P).image (fun x => (⟨x.1, x.2⟩ : PoolPtr))).card :=
      Finset.card_le_card hsub
    _ ≤ (Finset.range heap.nextAddress ×ˢ Finset.range P).card := Finset.card_image_le
    _ = heap.nextAddress * P := by simp
    _ < walkBound P heap := Nat.lt_succ_self _

/-- `Insert_Unsafe` of a node off the chain puts it in front. -/
theorem insertUnsafe_chain {heap : Heap K V} {pHead : Option PoolPtr} {l : List PoolPtr} (hc : Chain P heap pHead l)
    {p : PoolPtr} (hp : p ∉ l) {n : Node K V} (hn : getNode P heap p = .ok n) :
    ∃ heap', insertUnsafe P heap pHead p = .ok (heap', some p) ∧ Chain P heap' (some p) (p :: l) ∧
      Rewritten P heap heap' ∧ ∀ q, getNode P heap' q = if q = p then .ok { n with pNext := pHead } else getNode P heap q := by
  obtain ⟨heap', hset⟩ := setNode_ok hn (fun m => { m with pNext := pHead })
  have hget : ∀ q, getNode P heap' q = if q = p then .ok { n with pNext := pHead } else getNode P heap q := by
    intro q
    rw [getNode_setNode hset q]
    split_ifs with hq
    · rw [hq, hn]; rfl
    · rfl
  refine ⟨heap', by simp only [insertUnsafe, hset]; rfl, .cons (by rw [hget, if_pos rfl]) ?_, setNode_rewritten hset, hget⟩
  exact hc.frame fun q hq m hm => by rw [hget, if_neg (fun (e : q = p) => hp (e ▸ hq))]; exact hm

/-- Relinking around a node: the node before `c` takes `c`'s successor. -/
theorem Chain.splice {heap heap' : Heap K V} {r c : PoolPtr} {b : List PoolPtr} {nr nc : Node K V}
    (hr : getNode P heap r = .ok nr) (hcn : getNode P heap c = .ok nc)
    (hr' : getNode P heap' r = .ok { nr with pNext := nc.pNext }) :
    ∀ {a : List PoolPtr} {s : Option PoolPtr}, Chain P heap s (a ++ r :: c :: b) →
      (∀ q ∈ a ++ b, getNode P heap' q = getNode P heap q) → Chain P heap' s (a ++ r :: b)
  | [], s, hc, hf => by
    obtain ⟨nr', hr'', rfl, htail⟩ := Chain.cons_inv hc
    rw [hr] at hr''; cases hr''
    obtain ⟨nc', hc'', -, hrest⟩ := htail.cons_inv
    rw [hcn] at hc''; cases hc''
    exact .cons hr' (hrest.frame fun q hq m hm => by rw [hf q (by simpa using hq)]; exact hm)
  | x :: a, s, hc, hf => by
    obtain ⟨nx, hx, rfl, htail⟩ := Chain.cons_inv hc
    exact .cons (by rw [hf x (List.mem_cons_self _ _)]; exact hx)
      (Chain.splice hr hcn hr' htail fun q hq => hf q (List.mem_cons_of_mem _ hq))

/-! ## Unlinking a node -/

variable (P) in
/-- `heap'` and the head `pHead'` are `heap` and `pHead` with the node `p`, which read `np`, unlinked behind
`prev` (`none` when `p` was the head): `prev`, or else the head, takes `p`'s successor, `p`'s link becomes
null, and no other node changes. -/
structure Unlinked (heap heap' : Heap K V) (pHead pHead' prev : Option PoolPtr) (p : PoolPtr) (np : Node K V) :
    Prop where
  head : pHead' = if prev.isSome then pHead else np.pNext
  prev_next : ∀ r nr, prev = some r → getNode P heap r = .ok nr →
    getNode P heap' r = .ok { nr with pNext := np.pNext }
  removed : getNode P heap' p = .ok { np with pNext := none }
  frame : ∀ q, q ≠ p → prev ≠ some q → getNode P heap' q = getNode P heap q
  rewritten : Rewritten P heap heap'

/-- The loop's step at a node that passes its test unlinks it behind `prev`, a readable other node. -/
theorem unlinkFrom_unlink {test : PoolPtr → Node K V → Bool} {pHead prev : Option PoolPtr} {heap : Heap K V}
    {c : PoolPtr} {nc : Node K V} (hcn : getNode P heap c = .ok nc) (ht : test c nc = true)
    (hprev : ∀ r, prev = some r → r ≠ c ∧ ∃ nr, getNode P heap r = .ok nr) (fuel : Nat) :
    ∃ heap' pHead', unlinkFrom P test pHead (fuel + 1) prev (some c) heap = .ok (heap', pHead', some c) ∧
      Unlinked P heap heap' pHead pHead' prev c nc := by
  cases prev with
  | none =>
    obtain ⟨heap', hset⟩ := setNode_ok hcn (fun n => { n with pNext := none })
    refine ⟨heap', nc.pNext, ?_, ⟨rfl, fun _ _ h => (by cases h), ?_, fun q hq _ => ?_, setNode_rewritten hset⟩⟩
    · simp only [unlinkFrom, hcn, except_ok_bind, ht, if_true]
      simp only [pure, Except.pure, except_ok_bind, hset]
    · rw [getNode_setNode hset, if_pos rfl, hcn]; rfl
    · rw [getNode_setNode hset, if_neg hq]
  | some r =>
    obtain ⟨hrc, nr, hrn⟩ := hprev r rfl
    obtain ⟨heapr, hsetr⟩ := setNode_ok hrn (fun n => { n with pNext := nc.pNext })
    have hcn' : getNode P heapr c = .ok nc := by rw [getNode_setNode hsetr, if_neg hrc.symm]; exact hcn
    obtain ⟨heap', hset'⟩ := setNode_ok hcn' (fun n => { n with pNext := none })
    have hget : ∀ q, q ≠ c → getNode P heap' q = getNode P heapr q := fun q hq => by
      rw [getNode_setNode hset', if_neg hq]
    refine ⟨heap', pHead, ?_, ⟨rfl, fun r' nr' e hn => ?_, ?_, fun q hqc hqr => ?_,
      (setNode_rewritten hsetr).trans (setNode_rewritten hset')⟩⟩
    · simp only [unlinkFrom, hcn, except_ok_bind, ht, if_true]
      simp only [Functor.map, Except.map, hsetr, except_ok_bind, hset']
      rfl
    · cases e; rw [hrn] at hn; cases hn
      rw [hget r hrc, getNode_setNode hsetr, if_pos rfl, hrn]; rfl
    · rw [getNode_setNode hset', if_pos rfl, hcn']; rfl
    · rw [hget q hqc, getNode_setNode hsetr, if_neg (fun e => hqr (congrArg some e.symm))]

/-- The loop from `current`, where the chain `cur` starts, having passed the readable nodes `pre`: it unlinks
the first node of `cur` that passes, or finds none and changes nothing. -/
theorem unlinkFrom_spec {test : PoolPtr → Node K V → Bool} {pHead : Option PoolPtr} {heap : Heap K V} :
    ∀ {cur pre : List PoolPtr} {current : Option PoolPtr} {fuel : Nat},
      Chain P heap current cur → (pre ++ cur).Nodup → (∀ r ∈ pre, ∃ nr, getNode P heap r = .ok nr) →
      cur.length ≤ fuel →
      (cur.find? (matchesAt P heap test) = none ∧
          unlinkFrom P test pHead fuel pre.getLast? current heap = .ok (heap, pHead, none)) ∨
      ∃ a p b np heap' pHead', cur = a ++ p :: b ∧ cur.find? (matchesAt P heap test) = some p ∧
        getNode P heap p = .ok np ∧
        unlinkFrom P test pHead fuel pre.getLast? current heap = .ok (heap', pHead', some p) ∧
        Unlinked P heap heap' pHead pHead' (pre ++ a).getLast? p np
  | [], pre, current, fuel, hc, _, _, _ => by
    cases hc
    exact Or.inl ⟨rfl, by cases fuel <;> rfl⟩
  | c :: cur, pre, current, fuel, hc, hnd, hpre, hfuel => by
    obtain ⟨nc, hcn, rfl, htail⟩ := hc.cons_inv
    obtain ⟨f, rfl⟩ : ∃ f, fuel = f + 1 := ⟨fuel - 1, by simp only [List.length_cons] at hfuel; omega⟩
    by_cases ht : test c nc = true
    · -- `c` passes: it is the node unlinked
      have hprev : ∀ r, pre.getLast? = some r → r ≠ c ∧ ∃ nr, getNode P heap r = .ok nr := fun r hr => by
        have hmem := List.mem_of_getLast?_eq_some hr
        exact ⟨fun e => (List.nodup_append.1 hnd).2.2 (e ▸ hmem) (List.mem_cons_self _ _), hpre r hmem⟩
      obtain ⟨heap', pHead', h, hu⟩ := unlinkFrom_unlink hcn ht hprev f
      exact Or.inr ⟨[], c, cur, nc, heap', pHead', rfl, by simp [matchesAt_of_getNode hcn, ht], hcn, h,
        by simpa using hu⟩
    · -- `c` fails: the loop moves on with `c` behind it
      have hstep : unlinkFrom P test pHead (f + 1) pre.getLast? (some c) heap =
          unlinkFrom P test pHead f (pre ++ [c]).getLast? nc.pNext heap := by
        simp only [unlinkFrom, hcn, except_ok_bind, ht, List.getLast?_concat]; rfl
      have hfind : (c :: cur).find? (matchesAt P heap test) = cur.find? (matchesAt P heap test) := by
        simp [matchesAt_of_getNode hcn, ht]
      have hpre' : ∀ r ∈ pre ++ [c], ∃ nr, getNode P heap r = .ok nr := fun r hr => by
        rcases List.mem_append.1 hr with h | h
        · exact hpre r h
        · rw [List.mem_singleton.1 h]; exact ⟨nc, hcn⟩
      rcases unlinkFrom_spec htail (by simpa using hnd) hpre' (by simpa using hfuel) with
        ⟨hn, h⟩ | ⟨a, p, b, np, heap', pHead', rfl, hf, hp, h, hu⟩
      · exact Or.inl ⟨hfind.trans hn, hstep.trans h⟩
      · exact Or.inr ⟨c :: a, p, b, np, heap', pHead', rfl, hfind.trans hf, hp, hstep.trans h, by simpa using hu⟩

namespace Unlinked

variable {heap heap' : Heap K V} {pHead pHead' : Option PoolPtr} {a b : List PoolPtr} {p : PoolPtr} {np : Node K V}

/-- Unlinking `p` behind its predecessor leaves the chain of the other nodes, in order. -/
theorem chain (hc : Chain P heap pHead (a ++ p :: b)) (hnd : (a ++ p :: b).Nodup)
    (hp : getNode P heap p = .ok np) (hu : Unlinked P heap heap' pHead pHead' a.getLast? p np) :
    Chain P heap' pHead' (a ++ b) := by
  have hpab : p ∉ a ++ b := (List.nodup_cons.1 (List.nodup_middle.1 hnd)).1
  rcases List.eq_nil_or_concat a with rfl | ⟨a', r, rfl⟩
  · -- `p` was the head: the head takes its successor
    obtain ⟨np', hp', -, htail⟩ := hc.cons_inv
    rw [hp] at hp'; cases hp'
    rw [hu.head]
    exact htail.frame fun q hq n hn => by
      rw [hu.frame q (fun e => hpab (e ▸ hq)) (by simp)]; exact hn
  · -- the node `r` before `p` takes its successor
    simp only [List.concat_eq_append, List.getLast?_concat] at hu
    simp only [List.concat_eq_append, List.append_assoc, List.singleton_append] at hc hnd hpab ⊢
    have hr : r ∉ a' ++ p :: b := (List.nodup_cons.1 (List.nodup_middle.1 hnd)).1
    obtain ⟨nr, hrn⟩ := hc.getNode_of_mem (show r ∈ a' ++ r :: p :: b by simp)
    rw [hu.head, if_pos (show (some r).isSome = true from rfl)]
    refine Chain.splice hrn hp (hu.prev_next r nr rfl hrn) hc fun q hq => hu.frame q ?_ ?_
    · rintro rfl; exact hpab (by simp_all)
    · rintro ⟨⟩; exact hr (by simp_all)

/-- Unlinking rewrites only links: each node of the heap keeps its key, value and bucket. -/
theorem links_only (hu : Unlinked P heap heap' pHead pHead' a.getLast? p np) (hp : getNode P heap p = .ok np)
    (q : PoolPtr) (n : Node K V) (hn : getNode P heap q = .ok n) :
    ∃ nxt, getNode P heap' q = .ok { n with pNext := nxt } := by
  by_cases hqp : q = p
  · subst hqp; rw [hp] at hn; cases hn; exact ⟨none, hu.removed⟩
  · by_cases hqr : a.getLast? = some q
    · exact ⟨np.pNext, hu.prev_next q n hqr hn⟩
    · exact ⟨n.pNext, (hu.frame q hqp hqr).trans hn⟩

end Unlinked

variable (P) in
/-- What the unlinking loop does on the chain `l` when its report is `r` and `test` picks the nodes to
unlink: none passes and nothing changes, or the chain is `a ++ p :: b` with `p` the first node that passes,
which is returned and unlinked behind its predecessor, leaving the chain `a ++ b`. -/
def UnlinksFirst (heap : Heap K V) (pHead : Option PoolPtr) (l : List PoolPtr) (test : PoolPtr → Bool)
    (r : Except Fault (Heap K V × Option PoolPtr × Option PoolPtr)) : Prop :=
  (l.find? test = none ∧ r = .ok (heap, pHead, none)) ∨
    ∃ a p b np heap' pHead', l = a ++ p :: b ∧ l.find? test = some p ∧ getNode P heap p = .ok np ∧
      r = .ok (heap', pHead', some p) ∧ Chain P heap' pHead' (a ++ b) ∧
      Unlinked P heap heap' pHead pHead' a.getLast? p np

/-- After the unlinking loop the list is again a chain of distinct nodes, over a rewritten pool. -/
theorem UnlinksFirst.wellFormed {heap : Heap K V} {pHead : Option PoolPtr} {l : List PoolPtr} {test : PoolPtr → Bool}
    {r : Except Fault (Heap K V × Option PoolPtr × Option PoolPtr)} (hu : UnlinksFirst P heap pHead l test r)
    (hc : Chain P heap pHead l) (hnd : l.Nodup) {heap' : Heap K V} {pHead' x : Option PoolPtr}
    (hr : r = .ok (heap', pHead', x)) : ∃ l', Chain P heap' pHead' l' ∧ l'.Nodup ∧ Rewritten P heap heap' := by
  rcases hu with ⟨-, rfl⟩ | ⟨a, p, b, np, heap'', pHead'', rfl, -, -, rfl, hc', hun⟩
  · cases hr
    exact ⟨l, hc, hnd, .refl heap⟩
  · cases hr
    exact ⟨a ++ b, hc', (List.nodup_middle.1 hnd).of_cons, hun.rewritten⟩

theorem UnlinksFirst.ok {heap : Heap K V} {pHead : Option PoolPtr} {l : List PoolPtr} {test : PoolPtr → Bool}
    {r : Except Fault (Heap K V × Option PoolPtr × Option PoolPtr)} (hu : UnlinksFirst P heap pHead l test r) :
    ∃ heap' pHead' x, r = .ok (heap', pHead', x) := by
  rcases hu with ⟨-, h⟩ | ⟨_, _, _, _, _, _, -, -, -, h, -⟩ <;> exact ⟨_, _, _, h⟩

/-- The unlinking loop from the head of a chain without repeated nodes, given enough turns. -/
theorem unlinkFrom_unlinksFirst {test : PoolPtr → Node K V → Bool} {heap : Heap K V} {pHead : Option PoolPtr}
    {l : List PoolPtr} (hc : Chain P heap pHead l) (hnd : l.Nodup) {fuel : Nat} (hfuel : l.length ≤ fuel) :
    UnlinksFirst P heap pHead l (matchesAt P heap test) (unlinkFrom P test pHead fuel none pHead heap) := by
  rcases unlinkFrom_spec hc (show ([] ++ l).Nodup from hnd) (fun _ h => by cases h) hfuel with
    h | ⟨a, p, b, np, heap', pHead', rfl, hf, hp, h, hu⟩
  · exact .inl h
  · exact .inr ⟨a, p, b, np, heap', pHead', rfl, hf, hp, h, Unlinked.chain hc hnd hp hu, hu⟩

theorem eraseFrom_eq_unlinkFrom [LinearOrder K] (searchKey : K) (pHead : Option PoolPtr) :
    ∀ fuel prev current (heap : Heap K V), eraseFrom P searchKey pHead fuel prev current heap =
      unlinkFrom P (fun _ node => decide (node.key = searchKey)) pHead fuel prev current heap
  | fuel, _, none, _ => by cases fuel <;> rfl
  | 0, _, some _, _ => rfl
  | fuel + 1, prev, some current, heap => by
    simp only [eraseFrom, unlinkFrom, keyCompare_eq_zero, decide_eq_true_eq,
      eraseFrom_eq_unlinkFrom searchKey pHead fuel]

/-- `Erase_Unsafe` on a chain without repeated nodes. -/
theorem eraseUnsafe_chain [LinearOrder K] (searchKey : K) {heap : Heap K V} {pHead : Option PoolPtr}
    {l : List PoolPtr} (hc : Chain P heap pHead l) (hnd : l.Nodup) (hlen : l.length ≤ walkBound P heap) :
    (eraseUnsafe P heap pHead searchKey = .ok (heap, pHead, none) ∧
        ∀ q ∈ l, keyMatches P heap searchKey q = false) ∨
      ∃ p heap' pHead', eraseUnsafe P heap pHead searchKey = .ok (heap', pHead', some p) ∧
        p ∈ l ∧ keyMatches P heap searchKey p = true ∧ Chain P heap' pHead' (l.erase p) ∧
        Rewritten P heap heap' ∧ (∀ q ∉ l, getNode P heap' q = getNode P heap q) ∧
        ∀ q ∈ l, ∀ n, getNode P heap q = .ok n → ∃ nxt, getNode P heap' q = .ok { n with pNext := nxt } := by
  rw [eraseUnsafe, eraseFrom_eq_unlinkFrom]
  have hu : UnlinksFirst P heap pHead l (keyMatches P heap searchKey)
      (unlinkFrom P (fun _ node => decide (node.key = searchKey)) pHead (walkBound P heap) none pHead heap) :=
    unlinkFrom_unlinksFirst hc hnd hlen
  rcases hu with ⟨hf, h⟩ | ⟨a, p, b, np, heap', pHead', rfl, hf, hp, h, hc', hu⟩
  · exact Or.inl ⟨h, fun q hq => by simpa using List.find?_eq_none.1 hf q hq⟩
  · have hpa : p ∉ a := fun hm => (List.nodup_append.1 hnd).2.2 hm (List.mem_cons_self _ _)
    refine Or.inr ⟨p, heap', pHead', h, by simp, List.find?_some hf, ?_, hu.rewritten, fun q hq => ?_,
      fun q _ n hn => hu.links_only hp q n hn⟩
    · rwa [List.erase_append_right _ hpa, List.erase_cons_head]
    · refine hu.frame q (fun e => hq (e ▸ by simp)) fun e => hq ?_
      simp [List.mem_of_getLast?_eq_some e]

/-- On a chain, a test of the pointer alone picks the same first node as it does on the nodes read. -/
theorem Chain.find?_matchesAt {heap : Heap K V} {s : Option PoolPtr} {l : List PoolPtr} (hc : Chain P heap s l)
    (t : PoolPtr → Bool) : l.find? (matchesAt P heap fun c _ => t c) = l.find? t := by
  induction hc with
  | nil => rfl
  | cons hp _ ih => simp only [List.find?_cons, matchesAt_of_getNode hp, ih]

/-- The unlocked list operations on a chain without repeated nodes, in a pool with no page past its
allocation frontier. `Erase_Unsafe(searchKey)` unlinks the first node with the key, and
`EraseNode_Unsafe(nodeToRemove)` the node identical to `nodeToRemove`, each behind its predecessor and
rewriting no other node; `EraseNode_Unsafe(nullptr)` changes nothing; `Insert_Unsafe(newNode)` of a node off
the chain puts it in front, rewriting only its link. -/
theorem unsafe_ops_on_chain [LinearOrder K] {heap : Heap K V} {pHead : Option PoolPtr} {l : List PoolPtr}
    (hc : Chain P heap pHead l) (hnd : l.Nodup) (hfresh : ∀ a, heap.nextAddress ≤ a → heap.pages a = none) :
    (∀ searchKey : K,
      UnlinksFirst P heap pHead l (keyMatches P heap searchKey) (eraseUnsafe P heap pHead searchKey)) ∧
    (∀ q : PoolPtr, UnlinksFirst P heap pHead l (fun c => decide (c = q)) (eraseNodeUnsafe P heap pHead (some q))) ∧
    eraseNodeUnsafe P heap pHead none = .ok (heap, pHead, none) ∧
    ∀ newNode ∉ l, ∀ n, getNode P heap newNode = .ok n → ∃ heap',
      insertUnsafe P heap pHead newNode = .ok (heap', some newNode) ∧ Chain P heap' (some newNode) (newNode :: l) ∧
      ∀ q, getNode P heap' q = if q = newNode then .ok { n with pNext := pHead } else getNode P heap q := by
  have hlen := (hc.length_lt_walkBound hnd hfresh).le
  refine ⟨fun searchKey => ?_, fun q => ?_, rfl, fun p hp n hn => ?_⟩
  · rw [eraseUnsafe, eraseFrom_eq_unlinkFrom]
    exact unlinkFrom_unlinksFirst hc hnd hlen
  · have h : UnlinksFirst P heap pHead l (matchesAt P heap fun c _ => decide (c = q))
        (eraseNodeUnsafe P heap pHead (some q)) := unlinkFrom_unlinksFirst hc hnd hlen
    rwa [UnlinksFirst, hc.find?_matchesAt] at h
  · obtain ⟨heap', h, hc', -, hget⟩ := insertUnsafe_chain hc hp hn
    exact ⟨heap', h, hc', hget⟩

/-- The pool of two-slot pages after three `Reserve`s, each node linked to the one before: `1 ↦ 10` lands in
slot `0` of the page at address `1`, `5 ↦ 50` in slot `1`, and `9 ↦ 90` in slot `0` of a second page. -/
def threeNodes : Heap Nat Nat :=
  match (do
    let (heap, p) ← PagingObjectPool.reserve 2 (⟨1, 10, none, 1⟩ : Node Nat Nat) 2 PagingObjectPool.init
    let (heap, q) ← heap.reserve 2 (⟨5, 50, some p, 1⟩ : Node Nat Nat) 2
    heap.reserve 2 (⟨9, 90, some q, 1⟩ : Node Nat Nat) 2) with
  | .ok (heap, _) => heap
  | .error _ => PagingObjectPool.init

theorem threeNodes_reachable : PagingObjectPool.Reachable 2 threeNodes [⟨2, 0⟩, ⟨1, 1⟩, ⟨1, 0⟩] :=
  @PagingObjectPool.Reachable.reserve (Node Nat Nat) 2 _ _ _ ⟨9, 90, some ⟨1, 1⟩, 1⟩ 2 _
    (@PagingObjectPool.Reachable.reserve (Node Nat Nat) 2 _ _ _ ⟨5, 50, some ⟨1, 0⟩, 1⟩ 2 _
      (@PagingObjectPool.Reachable.reserve (Node Nat Nat) 2 _ _ _ ⟨1, 10, none, 1⟩ 2 _ .init rfl (by decide))
      rfl (by decide))
    rfl (by decide)

theorem threeNodes_chain : Chain 2 threeNodes (some ⟨2, 0⟩) [⟨2, 0⟩, ⟨1, 1⟩, ⟨1, 0⟩] :=
  .cons rfl (.cons rfl (.cons rfl .nil))

theorem threeNodes_fresh : ∀ a, threeNodes.nextAddress ≤ a → threeNodes.pages a = none := by
  obtain ⟨⟨fl, hv⟩, -⟩ := threeNodes_reachable.valid (by decide)
  exact hv.pagesOk.fresh

/-- On the three-node list of `threeNodes`, `Erase_Unsafe(5)` unlinks the middle node: the head stays and now
links to the last node. -/
theorem unsafe_ops_threeNodes :
    Chain 2 threeNodes (some ⟨2, 0⟩) [⟨2, 0⟩, ⟨1, 1⟩, ⟨1, 0⟩] ∧ [(⟨2, 0⟩ : PoolPtr), ⟨1, 1⟩, ⟨1, 0⟩].Nodup ∧
      (∀ a, threeNodes.nextAddress ≤ a → threeNodes.pages a = none) ∧
      ∃ heap', eraseUnsafe 2 threeNodes (some ⟨2, 0⟩) 5 = .ok (heap', some ⟨2, 0⟩, some ⟨1, 1⟩) ∧
        Chain 2 heap' (some ⟨2, 0⟩) [⟨2, 0⟩, ⟨1, 0⟩] ∧ getNode 2 heap' ⟨2, 0⟩ = .ok ⟨9, 90, some ⟨1, 0⟩, 1⟩ := by
  have hnd : [(⟨2, 0⟩ : PoolPtr), ⟨1, 1⟩, ⟨1, 0⟩].Nodup := by decide
  refine ⟨threeNodes_chain, hnd, threeNodes_fresh, ?_⟩
  rcases (unsafe_ops_on_chain threeNodes_chain hnd threeNodes_fresh).1 5 with
    ⟨hf, -⟩ | ⟨a, p, b, np, heap', pHead', hl, hf, hp, hr, hc', hu⟩
  · exact absurd hf (by decide)
  · -- the middle node is the one found, behind the head
    have hfind : [(⟨2, 0⟩ : PoolPtr), ⟨1, 1⟩, ⟨1, 0⟩].find? (keyMatches 2 threeNodes 5) = some ⟨1, 1⟩ := by decide
    rw [hfind, Option.some.injEq] at hf
    subst hf
    rw [show getNode 2 threeNodes ⟨1, 1⟩ = .ok ⟨5, 50, some ⟨1, 0⟩, 1⟩ from rfl, Except.ok.injEq] at hp
    subst hp
    obtain ⟨rfl, rfl⟩ : a = [⟨2, 0⟩] ∧ b = [⟨1, 0⟩] := by
      rcases a with _ | ⟨a0, _ | ⟨a1, _ | ⟨a2, a⟩⟩⟩ <;> simp at hl
      obtain ⟨rfl, rfl⟩ := hl
      exact ⟨rfl, rfl⟩
    obtain rfl : pHead' = some ⟨2, 0⟩ := hu.head
    exact ⟨heap', hr, hc', hu.prev_next _ _ rfl rfl⟩

end SimpleLinkedList

end PklE.ThreadsafeContainers
