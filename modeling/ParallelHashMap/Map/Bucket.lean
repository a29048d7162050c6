import ParallelHashMap.Map.LinkedList

/-!
# A bucket under interleaving

Threads calling `HashMap::Bucket`'s `_Concurrent` operations (`hash_map.h`) on one bucket's
`SimpleLinkedList`. Each list call is one block: `Insert` is its successful compare-exchange of the head
(`insertUnsafe`); `Find` and `FindLast` read under the read lock, and concurrent inserts only put nodes in
front of the head they read; `Erase` and `EraseNode` hold the write lock. `InsertUnique_Concurrent` is three
blocks, `Insert`, `FindLast`, and `EraseNode` when another node has the key, with other threads between.

`ListOk` (a valid pool, a chain of distinct nodes, each insert's node in the pool) holds after every block
when each insert is passed a fresh node, and under it no block faults (`bucket_interleavings_safe`).
Between a duplicate's `Insert` and its `EraseNode`, `Find` and `Erase` of the key hand the new node out, so
a node whose insert returned `false` has two owners (`insertUnique_duplicate_escapes`).
-/

namespace PklE.ThreadsafeContainers

open PklE.CoreTypes SimpleLinkedList

namespace Bucket

/-- What a call returned: a node (or `nullptr`), or a flag. -/
inductive BucketReturn
  | node (p : Option PoolPtr)
  | flag (b : Bool)
  deriving DecidableEq, Repr

/-- Where a thread is: between calls with the last call's return, or inside `InsertUnique_Concurrent`
after its `Insert`, or after its `FindLast` found another node with the key. -/
inductive BucketPC
  | idle
  | returned (r : BucketReturn)
  | inserted (pNewNode : PoolPtr)
  | duplicate (pNewNode : PoolPtr)
  deriving DecidableEq, Repr

/-- The pool, the bucket list's head and the program counters of `n` threads. -/
structure BucketThreads (K V : Type) (n : Nat) where
  heap : Heap K V
  pHead : Option PoolPtr
  pc : Fin n → BucketPC

/-- What a thread does next: start a call, or run the next block of its `InsertUnique_Concurrent`. -/
inductive BucketEvent (K : Type)
  | callInsertUnique (pNewNode : PoolPtr)
  | callFind (key : K)
  | callErase (key : K)
  | next

variable {K V : Type} [LinearOrder K] (P : Nat) {n : Nat}

/-- Whether a thread is between calls. -/
def BucketPC.ready : BucketPC → Bool
  | .idle | .returned _ => true
  | _ => false

/-- The block thread `i` runs on event `e`: `none` when the thread cannot take the event or the block
faults. -/
def bucketStep (s : BucketThreads K V n) (i : Fin n) : BucketEvent K → Option (BucketThreads K V n)
  | .callInsertUnique pNewNode =>
    if (s.pc i).ready then match insertUnsafe P s.heap s.pHead pNewNode with
      | .ok (heap, pHead) => some ⟨heap, pHead, Function.update s.pc i (.inserted pNewNode)⟩
      | .error _ => none
    else none
  | .callFind key =>
    if (s.pc i).ready then match findUnsafe P s.heap s.pHead key with
      | .ok r => some ⟨s.heap, s.pHead, Function.update s.pc i (.returned (.node r))⟩
      | .error _ => none
    else none
  | .callErase key =>
    if (s.pc i).ready then match eraseUnsafe P s.heap s.pHead key with
      | .ok (heap, pHead, r) => some ⟨heap, pHead, Function.update s.pc i (.returned (.node r))⟩
      | .error _ => none
    else none
  | .next => match s.pc i with
    | .inserted pNewNode => match getNode P s.heap pNewNode with
      | .ok node => match findLast P s.heap s.pHead node.key with
        | .ok last => some ⟨s.heap, s.pHead, Function.update s.pc i
            (if last = some pNewNode then .returned (.flag true) else .duplicate pNewNode)⟩
        | .error _ => none
      | .error _ => none
    | .duplicate pNewNode => match eraseNodeUnsafe P s.heap s.pHead (some pNewNode) with
      | .ok (heap, pHead, _) => some ⟨heap, pHead, Function.update s.pc i (.returned (.flag false))⟩
      | .error _ => none
    | _ => none

/-- The events of a run, in order. -/
def runBucket : BucketThreads K V n → List (Fin n × BucketEvent K) → Option (BucketThreads K V n)
  | s, [] => some s
  | s, (i, e) :: es => (bucketStep P s i e).bind (runBucket · es)

/-! ## Every interleaving keeps the list well formed -/

/-- Thread `i` can take event `e`: a call when it is between calls, `next` inside an insert. -/
def Enabled (s : BucketThreads K V n) (i : Fin n) : BucketEvent K → Prop
  | .next => (s.pc i).ready = false
  | _ => (s.pc i).ready = true

/-- `InsertUnique_Concurrent` is passed a fresh node: a node of the pool, off the list. -/
def FreshInsert (s : BucketThreads K V n) : BucketEvent K → Prop
  | .callInsertUnique pNewNode =>
    (∃ node, getNode P s.heap pNewNode = .ok node) ∧ ∀ l, Chain P s.heap s.pHead l → pNewNode ∉ l
  | _ => True

/-- Every insert of the run is passed a fresh node, in the state where it runs. -/
def FreshRun : BucketThreads K V n → List (Fin n × BucketEvent K) → Prop
  | _, [] => True
  | s, (i, e) :: es => FreshInsert P s e ∧ ∀ s', bucketStep P s i e = some s' → FreshRun s' es

/-- The bucket's invariant, with `l` its list: the pool is valid, the list is a chain of distinct nodes, and
the node of each insert in progress is a node of the pool. -/
structure ListOk (s : BucketThreads K V n) (l : List PoolPtr) : Prop where
  valid : PagingObjectPool.Valid P s.heap
  chain : Chain P s.heap s.pHead l
  nodup : l.Nodup
  held : ∀ i p, (s.pc i = .inserted p ∨ s.pc i = .duplicate p) → ∃ node, getNode P s.heap p = .ok node

variable {P}

section ListOk

variable {s : BucketThreads K V n} {l : List PoolPtr}

omit [LinearOrder K] in
theorem ListOk.length_le (h : ListOk P s l) : l.length ≤ walkBound P s.heap :=
  let ⟨_, hv⟩ := h.valid
  (h.chain.length_lt_walkBound h.nodup hv.pagesOk.fresh).le

omit [LinearOrder K] in
/-- A block that only rewrites nodes of the pool, leaves a chain of distinct nodes and gives thread `i` a
program counter whose node, if any, is in the pool keeps the invariant. -/
theorem ListOk.update (h : ListOk P s l) {heap' : Heap K V} {pHead' : Option PoolPtr} {l' : List PoolPtr}
    (hrw : Rewritten P s.heap heap') (hc : Chain P heap' pHead' l') (hnd : l'.Nodup) (i : Fin n) {pc : BucketPC}
    (hpc : ∀ p, (pc = .inserted p ∨ pc = .duplicate p) → ∃ node, getNode P heap' p = .ok node) :
    ListOk P ⟨heap', pHead', Function.update s.pc i pc⟩ l' := by
  refine ⟨hrw.pool_valid h.valid, hc, hnd, fun j p hj => ?_⟩
  by_cases hji : j = i
  · subst hji
    exact hpc p (by simpa using hj)
  · exact (hrw.ok_iff p).2 (h.held j p (by simpa [Function.update_noteq hji] using hj))

theorem ListOk.unlinksFirst_erase (h : ListOk P s l) (key : K) :
    UnlinksFirst P s.heap s.pHead l (keyMatches P s.heap key) (eraseUnsafe P s.heap s.pHead key) := by
  rw [SimpleLinkedList.eraseUnsafe, eraseFrom_eq_unlinkFrom]
  exact unlinkFrom_unlinksFirst h.chain h.nodup h.length_le

omit [LinearOrder K] in
theorem ListOk.unlinksFirst_eraseNode (h : ListOk P s l) (p : PoolPtr) :
    UnlinksFirst P s.heap s.pHead l (matchesAt P s.heap fun c _ => decide (c = p))
      (eraseNodeUnsafe P s.heap s.pHead (some p)) :=
  unlinkFrom_unlinksFirst h.chain h.nodup h.length_le

/-- Every block keeps the invariant, an insert being passed a fresh node. -/
theorem ListOk.step (h : ListOk P s l) {i : Fin n} {e : BucketEvent K} (hfresh : FreshInsert P s e)
    {s' : BucketThreads K V n} (hs : bucketStep P s i e = some s') : ∃ l', ListOk P s' l' := by
  cases e with
  | callInsertUnique p =>
    obtain ⟨⟨node, hn⟩, hoff⟩ := hfresh
    obtain ⟨heap', hins, hc', hrw, -⟩ := insertUnsafe_chain h.chain (hoff l h.chain) hn
    simp only [bucketStep, hins] at hs
    split_ifs at hs
    cases hs
    refine ⟨p :: l, h.update hrw hc' (List.nodup_cons.2 ⟨hoff l h.chain, h.nodup⟩) i fun q hq => ?_⟩
    obtain hq | hq := hq <;> cases hq
    exact (hrw.ok_iff _).2 ⟨node, hn⟩
  | callFind key =>
    simp only [bucketStep] at hs
    split_ifs at hs
    split at hs
    · cases hs
      exact ⟨l, h.update (.refl _) h.chain h.nodup i fun _ hq => by simp at hq⟩
    · cases hs
  | callErase key =>
    simp only [bucketStep] at hs
    split_ifs at hs
    split at hs
    · rename_i heap' pHead' r hr
      cases hs
      obtain ⟨l', hc', hnd', hrw⟩ := (h.unlinksFirst_erase key).wellFormed h.chain h.nodup hr
      exact ⟨l', h.update hrw hc' hnd' i fun _ hq => by simp at hq⟩
    · cases hs
  | next =>
    simp only [bucketStep] at hs
    split at hs
    · -- `FindLast`
      rename_i p hpc
      split at hs
      · split at hs
        · cases hs
          refine ⟨l, h.update (.refl _) h.chain h.nodup i fun q hq => ?_⟩
          split_ifs at hq
          · simp at hq
          · obtain hq | hq := hq <;> cases hq
            exact h.held i _ (.inl hpc)
        · cases hs
      · cases hs
    · -- `EraseNode`
      rename_i p hpc
      split at hs
      · rename_i heap' pHead' r hr
        cases hs
        obtain ⟨l', hc', hnd', hrw⟩ := (h.unlinksFirst_eraseNode p).wellFormed h.chain h.nodup hr
        exact ⟨l', h.update hrw hc' hnd' i fun _ hq => by simp at hq⟩
      · cases hs
    · cases hs

/-- Under the invariant no block faults: each block a thread can take runs, an insert being passed a fresh
node. -/
theorem ListOk.progress (h : ListOk P s l) {i : Fin n} {e : BucketEvent K} (hen : Enabled s i e)
    (hfresh : FreshInsert P s e) : ∃ s', bucketStep P s i e = some s' := by
  cases e with
  | callInsertUnique p =>
    obtain ⟨⟨node, hn⟩, hoff⟩ := hfresh
    obtain ⟨heap', hins, -⟩ := insertUnsafe_chain h.chain (hoff l h.chain) hn
    exact ⟨_, by simp only [bucketStep, hins, if_pos (show (s.pc i).ready = true from hen)]; rfl⟩
  | callFind key =>
    exact ⟨_, by simp only [bucketStep, if_pos (show (s.pc i).ready = true from hen), findUnsafe,
      findFrom_chain h.chain h.length_le]; rfl⟩
  | callErase key =>
    obtain ⟨heap', pHead', r, hr⟩ := (h.unlinksFirst_erase key).ok
    exact ⟨_, by simp only [bucketStep, if_pos (show (s.pc i).ready = true from hen), hr]; rfl⟩
  | next =>
    cases hpc : s.pc i with
    | idle | returned _ => simp [Enabled, hpc, BucketPC.ready] at hen
    | inserted p =>
      obtain ⟨node, hn⟩ := h.held i p (.inl hpc)
      exact ⟨_, by simp only [bucketStep, hpc, hn, findLast, findLastFrom_chain h.chain h.length_le]; rfl⟩
    | duplicate p =>
      obtain ⟨heap', pHead', r, hr⟩ := (h.unlinksFirst_eraseNode p).ok
      exact ⟨_, by simp only [bucketStep, hpc, hr]; rfl⟩

/-- Along every run whose inserts are passed fresh nodes, the invariant holds. -/
theorem ListOk.run : ∀ (es : List (Fin n × BucketEvent K)) {s s' : BucketThreads K V n} {l : List PoolPtr},
    ListOk P s l → FreshRun P s es → runBucket P s es = some s' → ∃ l', ListOk P s' l'
  | [], _, _, l, h, _, hr => by
    cases hr
    exact ⟨l, h⟩
  | (_, _) :: es, _, _, _, h, ⟨hfresh, hrest⟩, hr => by
    obtain ⟨s1, hs1, hr⟩ := Option.bind_eq_some.1 hr
    obtain ⟨l1, h1⟩ := h.step hfresh hs1
    exact ListOk.run es h1 (hrest s1 hs1) hr

end ListOk

/-- From a bucket whose list is a chain of distinct nodes over a valid pool, every interleaving of
`InsertUnique_Concurrent`, `Find_Concurrent` and `Erase_Concurrent` whose inserts are passed fresh nodes keeps
the list a chain of distinct nodes over a valid pool, and in every state it reaches each block a thread can
take runs without a fault: no walk loops and no node read fails. -/
theorem bucket_interleavings_safe {s₀ : BucketThreads K V n} {l₀ : List PoolPtr} (h₀ : ListOk P s₀ l₀)
    (es : List (Fin n × BucketEvent K)) (hes : FreshRun P s₀ es) {s : BucketThreads K V n}
    (hs : runBucket P s₀ es = some s) :
    ∃ l, ListOk P s l ∧ ∀ i e, Enabled s i e → FreshInsert P s e → ∃ s', bucketStep P s i e = some s' :=
  let ⟨l, h⟩ := ListOk.run es h₀ hes hs
  ⟨l, h, fun _ _ hen hfresh => h.progress hen hfresh⟩

/-- Threads `0` and `1` insert the nodes of keys `1` and `5` of `threeNodes` into an empty bucket, their
blocks interleaved, while thread `2` finds key `5` between the inserts and erases key `1` at the end. -/
def interleavedTrace : List (Fin 3 × BucketEvent Nat) :=
  [(0, .callInsertUnique ⟨1, 0⟩), (1, .callInsertUnique ⟨1, 1⟩), (2, .callFind 5), (0, .next), (1, .next),
    (2, .callErase 1)]

theorem bucket_interleavings_safe_threeThreads :
    ListOk 2 (⟨threeNodes, none, fun _ => .idle⟩ : BucketThreads Nat Nat 3) [] ∧
      FreshRun 2 (⟨threeNodes, none, fun _ => .idle⟩ : BucketThreads Nat Nat 3) interleavedTrace ∧
      ∃ s, runBucket 2 (⟨threeNodes, none, fun _ => .idle⟩ : BucketThreads Nat Nat 3) interleavedTrace = some s ∧
        ∃ l, ListOk 2 s l ∧ ∀ i e, Enabled s i e → FreshInsert 2 s e → ∃ s', bucketStep 2 s i e = some s' := by
  have h₀ : ListOk 2 (⟨threeNodes, none, fun _ => .idle⟩ : BucketThreads Nat Nat 3) [] :=
    ⟨(threeNodes_reachable.valid (by decide)).1, .nil, List.nodup_nil, fun _ _ h => by simp at h⟩
  -- the second insert finds the list holding the first node alone
  have hes : FreshRun 2 (⟨threeNodes, none, fun _ => .idle⟩ : BucketThreads Nat Nat 3) interleavedTrace := by
    refine ⟨⟨⟨_, rfl⟩, fun l hl => by cases hl; exact List.not_mem_nil _⟩, fun s1 h1 => ?_⟩
    cases h1
    refine ⟨⟨⟨_, rfl⟩, fun l hl => ?_⟩, fun _ _ => ⟨trivial, fun _ _ => ⟨trivial, fun _ _ => ⟨trivial,
      fun _ _ => ⟨trivial, fun _ _ => trivial⟩⟩⟩⟩⟩
    rw [hl.functional (.cons rfl .nil)]
    decide
  exact ⟨h₀, hes, _, rfl, bucket_interleavings_safe h₀ _ hes rfl⟩

/-! ## A duplicate escapes -/

/-- The pool of two-slot pages after one `Reserve` of the node `0 ↦ 7`, which lands in slot `0` of the page
at address `1`. -/
def oneNode : Heap Nat Nat :=
  match PagingObjectPool.reserve 2 (⟨0, 7, none, cInvalidBucket⟩ : Node Nat Nat) 2 PagingObjectPool.init with
  | .ok (heap, _) => heap
  | .error _ => PagingObjectPool.init

/-- The pool of `oneNode` with a second node of key `0` reserved after the first: `⟨1, 0⟩` holds `(0, 7)`
and `⟨1, 1⟩` holds `(0, 8)`. -/
def twoNodes : Heap Nat Nat :=
  match PagingObjectPool.reserve 2 (⟨0, 8, none, cInvalidBucket⟩ : Node Nat Nat) 2 oneNode with
  | .ok (heap, _) => heap
  | .error _ => oneNode

/-- An empty bucket over `twoNodes`, with three idle threads. -/
def twoNodesStart : BucketThreads Nat Nat 3 := ⟨twoNodes, none, fun _ => .idle⟩

/-- Thread `0` inserts `⟨1, 0⟩` uniquely. Thread `1` inserts `⟨1, 1⟩`, of the same key, and thread `2`
finds the key between thread `1`'s `Insert` and its `FindLast`. -/
def findTrace : List (Fin 3 × BucketEvent Nat) :=
  [(0, .callInsertUnique ⟨1, 0⟩), (0, .next), (1, .callInsertUnique ⟨1, 1⟩), (2, .callFind 0), (1, .next),
    (1, .next)]

/-- As `findTrace`, with thread `2` erasing the key instead. -/
def eraseTrace : List (Fin 3 × BucketEvent Nat) :=
  [(0, .callInsertUnique ⟨1, 0⟩), (0, .next), (1, .callInsertUnique ⟨1, 1⟩), (2, .callErase 0), (1, .next),
    (1, .next)]

/-- In both runs thread `1`'s `InsertUnique_Concurrent` returns `false`, while thread `2`'s
`Find_Concurrent`, or `Erase_Concurrent`, returns thread `1`'s node. After the erase, the list is thread
`0`'s node alone, and thread `1`'s `EraseNode` finds nothing to unlink. -/
theorem insertUnique_duplicate_escapes :
    (runBucket 2 twoNodesStart findTrace).map (fun s => (s.pc 0, s.pc 1, s.pc 2)) =
        some (.returned (.flag true), .returned (.flag false), .returned (.node (some ⟨1, 1⟩))) ∧
      (runBucket 2 twoNodesStart eraseTrace).map (fun s => (s.pc 0, s.pc 1, s.pc 2)) =
        some (.returned (.flag true), .returned (.flag false), .returned (.node (some ⟨1, 1⟩))) ∧
      ∃ s, runBucket 2 twoNodesStart eraseTrace = some s ∧ Chain 2 s.heap s.pHead [⟨1, 0⟩] ∧
      ((runBucket 2 twoNodesStart (eraseTrace.take 5)).map fun s =>
        (eraseNodeUnsafe 2 s.heap s.pHead (some ⟨1, 1⟩)).map (·.2.2)) = some (.ok none) := by
  refine ⟨rfl, rfl, ⟨_, rfl, .cons rfl .nil, rfl⟩⟩

end Bucket

end PklE.ThreadsafeContainers
