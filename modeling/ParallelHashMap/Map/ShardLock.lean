import ParallelHashMap.Lock.Standard
import ParallelHashMap.Map.Concurrent

/-!
# A shard under its lock

`InnerMap::Insert_Concurrent`, `Find_Concurrent` and `Remove_Concurrent` (`hash_map.h`, lines 275-365)
take the shard's `CountingSpinlock` in the standard discipline, run the lockless body and release the lock
in the scoped lock's destructor. In `ShardThreads` the lock moves one atomic operation at a time
(`StdStep`), a writer's body is one block run under write access, and `Find_Lockless` reads the head of its
bucket and then one node a step (`ShardPC.walk`). `AtomicShard` is what the calls promise: each call's
lockless body runs on the whole shard at one instant inside the call.

`concurrent_calls_linearize`: with fewer than `2^16` threads every run of `ShardThreads` is matched by a
run of `AtomicShard` from the same start that ends with the same shard, pool and calls (`ShardThreads.abs`).
A writer takes effect at its body and a `Find` at the node where its walk stops. Behind it is `ShardInv`:
no writer holds the lock beside a reader (`StdExclusive`), so a walk in progress returns what
`Find_Lockless` returns on the shard as it stands (`WalkOk`).
-/

namespace PklE.ThreadsafeContainers

open PklE.CoreTypes SimpleLinkedList HashMap

namespace InnerMap

/-- A call of the shard's `_Concurrent` interface, with its arguments. -/
inductive ShardCall (K V : Type)
  | insert (hash : Nat) (key : K) (value : V)
  | find (hash : Nat) (key : K)
  | remove (hash : Nat) (key : K)
  deriving DecidableEq, Repr

namespace ShardCall

variable {K V : Type}

/-- Whether the call takes read access (`Find_Concurrent`) rather than write access. -/
def reads : ShardCall K V → Bool
  | find _ _ => true
  | _ => false

/-- The lock's control point at which the call holds its access. -/
def access (c : ShardCall K V) : StdPC := if c.reads then .holdsRead else .holdsWrite

/-- The lock's control points the call passes through: those of `AcquireReadOnlyAccess` or of
`AcquireReadAndWriteAccess`, up to the access. -/
def acquiring (c : ShardCall K V) : StdPC → Bool
  | .idle => true
  | .readWait | .holdsRead => c.reads
  | .writeTry | .writeUndo | .writeSpin | .holdsWrite => !c.reads
  | _ => false

variable [LinearOrder K] (P : Nat) (hash64 : K → Nat)

/-- The call's lockless body on the shard `im` over the pool `heap`, and what it returns. -/
def body (im : InnerMap) (heap : Heap K V) : ShardCall K V → Except Fault (InnerMap × Heap K V × MapReturn)
  | insert hash key value => do
    let (im, heap, r) ← im.insertLockless P hash64 heap hash key value
    pure (im, heap, .node r)
  | find hash key => do
    let r ← im.findLockless P heap hash key
    pure (im, heap, .node r)
  | remove hash key => do
    let (im, heap, b) ← im.removeLockless P heap hash key
    pure (im, heap, .flag b)

end ShardCall

/-! ## The calls under the lock -/

/-- Where a thread is in its calls: between calls with the last call's return; in call `c`, taking the lock
or holding it before the body; in `Find_Lockless(hash, key)` under read access, at node `cur` of its walk
with `fuel` nodes left; or, the body having returned `r`, before the scoped lock's destructor. -/
inductive ShardPC (K V : Type)
  | ready (last : Option MapReturn)
  | call (c : ShardCall K V)
  | walk (hash : Nat) (key : K) (fuel : Nat) (cur : Option PoolPtr)
  | release (r : MapReturn)

/-- `n` threads calling one shard: the shard's lock, the shard, its pool, and where each thread is. -/
structure ShardThreads (K V : Type) (n : Nat) where
  lock : Threads StdPC n
  im : InnerMap
  heap : Heap K V
  pc : Fin n → ShardPC K V

variable {K V : Type} [LinearOrder K] (P : Nat) (hash64 : K → Nat) {n : Nat}

/-- The shard `im` over the pool `heap`, the lock free and every thread between calls. -/
def ShardThreads.start (im : InnerMap) (heap : Heap K V) : ShardThreads K V n :=
  ⟨Threads.init .idle, im, heap, fun _ => .ready none⟩

/-- One step of one thread: a call; an atomic operation of `AcquireReadOnlyAccess` or
`AcquireReadAndWriteAccess`; a writer's body under write access; the walk of `Find_Lockless` under read
access, from the head of the key's bucket to a node with the key or `nullptr`; and the scoped lock's
destructor. -/
inductive ShardStep : ShardThreads K V n → ShardThreads K V n → Prop
  | invoke (s : ShardThreads K V n) (i : Fin n) {last : Option MapReturn} (c : ShardCall K V) :
      s.pc i = .ready last → ShardStep s { s with pc := Function.update s.pc i (.call c) }
  | acquire (s : ShardThreads K V n) (i : Fin n) {c : ShardCall K V} {p' : StdPC} {v' : Nat} :
      s.pc i = .call c → s.lock.pc i ≠ c.access → StdStep (s.lock.pc i) s.lock.lockValue p' v' →
      c.acquiring p' = true → ShardStep s { s with lock := ⟨v', Function.update s.lock.pc i p'⟩ }
  | body (s : ShardThreads K V n) (i : Fin n) {c : ShardCall K V} {im' : InnerMap} {heap' : Heap K V}
      {r : MapReturn} : s.pc i = .call c → c.reads = false → s.lock.pc i = .holdsWrite →
      c.body P hash64 s.im s.heap = .ok (im', heap', r) →
      ShardStep s { s with im := im', heap := heap', pc := Function.update s.pc i (.release r) }
  | head (s : ShardThreads K V n) (i : Fin n) {hash : Nat} {key : K} {pHead : Option PoolPtr} :
      s.pc i = .call (.find hash key) → s.lock.pc i = .holdsRead →
      s.im.bucketAt (s.im.getIndex hash) = .ok pHead →
      ShardStep s { s with pc := Function.update s.pc i (.walk hash key (walkBound P s.heap) pHead) }
  | found (s : ShardThreads K V n) (i : Fin n) {hash : Nat} {key : K} {fuel : Nat} {cur : PoolPtr}
      {node : Node K V} : s.pc i = .walk hash key (fuel + 1) (some cur) → getNode P s.heap cur = .ok node →
      keyCompare node.key key = 0 → ShardStep s { s with pc := Function.update s.pc i (.release (.node (some cur))) }
  | next (s : ShardThreads K V n) (i : Fin n) {hash : Nat} {key : K} {fuel : Nat} {cur : PoolPtr}
      {node : Node K V} : s.pc i = .walk hash key (fuel + 1) (some cur) → getNode P s.heap cur = .ok node →
      keyCompare node.key key ≠ 0 →
      ShardStep s { s with pc := Function.update s.pc i (.walk hash key fuel node.pNext) }
  | notFound (s : ShardThreads K V n) (i : Fin n) {hash : Nat} {key : K} {fuel : Nat} :
      s.pc i = .walk hash key fuel none → ShardStep s { s with pc := Function.update s.pc i (.release (.node none)) }
  | release (s : ShardThreads K V n) (i : Fin n) {r : MapReturn} {v' : Nat} :
      s.pc i = .release r → StdStep (s.lock.pc i) s.lock.lockValue .idle v' →
      ShardStep s { s with
        lock := ⟨v', Function.update s.lock.pc i .idle⟩
        pc := Function.update s.pc i (.ready (some r)) }

/-! ## The atomic specification -/

/-- A thread of the specification: between calls with the last return, or in a call that has not yet
taken effect. -/
inductive AtomicPC (K V : Type)
  | ready (last : Option MapReturn)
  | pending (c : ShardCall K V)

/-- The shard, its pool, and the threads of the specification. -/
structure AtomicShard (K V : Type) (n : Nat) where
  im : InnerMap
  heap : Heap K V
  pc : Fin n → AtomicPC K V

/-- The shard `im` over the pool `heap` with every thread between calls. -/
def AtomicShard.start (im : InnerMap) (heap : Heap K V) : AtomicShard K V n := ⟨im, heap, fun _ => .ready none⟩

/-- A thread makes a call, or a pending call's body runs on the shard at once. -/
inductive AtomicStep : AtomicShard K V n → AtomicShard K V n → Prop
  | invoke (s : AtomicShard K V n) (i : Fin n) {last : Option MapReturn} (c : ShardCall K V) :
      s.pc i = .ready last → AtomicStep s { s with pc := Function.update s.pc i (.pending c) }
  | run (s : AtomicShard K V n) (i : Fin n) {c : ShardCall K V} {im' : InnerMap} {heap' : Heap K V}
      {r : MapReturn} : s.pc i = .pending c → c.body P hash64 s.im s.heap = .ok (im', heap', r) →
      AtomicStep s ⟨im', heap', Function.update s.pc i (.ready (some r))⟩

/-- What a control point stands for in the specification: a call is pending until its body has run. -/
def ShardPC.abs : ShardPC K V → AtomicPC K V
  | .ready last => .ready last
  | .call c => .pending c
  | .walk hash key _ _ => .pending (.find hash key)
  | .release r => .ready (some r)

/-- What a state of the threads stands for in the specification. -/
def ShardThreads.abs (s : ShardThreads K V n) : AtomicShard K V n := ⟨s.im, s.heap, ShardPC.abs ∘ s.pc⟩

/-! ## The invariant -/

/-- Where a thread's lock control point is, given where it is in its calls. -/
def ShardPC.lockOk : ShardPC K V → StdPC → Prop
  | .ready _, p => p = .idle
  | .call c, p => c.acquiring p = true
  | .walk .., p => p = .holdsRead
  | .release _, p => p = .holdsRead ∨ p = .holdsWrite

/-- Every walk in progress returns what `Find_Lockless` returns on the shard as it is. -/
def WalkOk (s : ShardThreads K V n) : Prop :=
  ∀ i hash key fuel cur, s.pc i = .walk hash key fuel cur →
    findFrom P s.heap key fuel cur = s.im.findLockless P s.heap hash key

/-- The invariant of the threads on a shard: the lock's part is a run of the standard discipline, each
thread's lock control point fits its call, and every walk is on course. -/
structure ShardInv (s : ShardThreads K V n) : Prop where
  lock : Threads.Reachable StdStep .idle s.lock
  lockOk : ∀ i, (s.pc i).lockOk (s.lock.pc i)
  walk : WalkOk P s

theorem WalkOk.update {s : ShardThreads K V n} (h : WalkOk P s) (l : Threads StdPC n) (i : Fin n) {x : ShardPC K V}
    (hx : ∀ hash key fuel cur, x = .walk hash key fuel cur →
      findFrom P s.heap key fuel cur = s.im.findLockless P s.heap hash key) :
    WalkOk P { s with lock := l, pc := Function.update s.pc i x } := fun j hash key fuel cur hj => by
  by_cases hji : j = i
  · subst hji; exact hx hash key fuel cur (by simpa only [Function.update_same] using hj)
  · exact h j hash key fuel cur (by simpa only [Function.update_noteq hji] using hj)

variable {P hash64}

/-- A step that moves thread `i` to `x` and the lock to `l`, a run of the standard discipline in which no
other thread moved, keeps the invariant when `x` fits `l` and is on course if it is a walk. -/
theorem ShardInv.update {s : ShardThreads K V n} (h : ShardInv P s) {i : Fin n} {l : Threads StdPC n}
    (hl : Threads.Reachable StdStep .idle l) (hlpc : ∀ j, j ≠ i → l.pc j = s.lock.pc j) {x : ShardPC K V}
    (hx : x.lockOk (l.pc i))
    (hw : ∀ hash key fuel cur, x = .walk hash key fuel cur →
      findFrom P s.heap key fuel cur = s.im.findLockless P s.heap hash key) :
    ShardInv P { s with lock := l, pc := Function.update s.pc i x } := by
  refine ⟨hl, fun j => ?_, h.walk.update P l i hw⟩
  by_cases hj : j = i
  · subst hj; simpa only [Function.update_same] using hx
  · simpa only [Function.update_noteq hj, hlpc j hj] using h.lockOk j

theorem ShardInv.lockPC_of_walk {s : ShardThreads K V n} (h : ShardInv P s) {i : Fin n} {hash : Nat} {key : K}
    {fuel : Nat} {cur : Option PoolPtr} (hi : s.pc i = .walk hash key fuel cur) : s.lock.pc i = .holdsRead := by
  simpa only [hi, ShardPC.lockOk] using h.lockOk i

/-- No body runs under a walk: while a thread holds write access no thread is in a walk. -/
theorem ShardInv.not_walk (hn : n < 2 ^ 16) {s : ShardThreads K V n} (h : ShardInv P s) {i : Fin n}
    (hi : s.lock.pc i = .holdsWrite) (j : Fin n) {hash : Nat} {key : K} {fuel : Nat} {cur : Option PoolPtr} :
    s.pc j ≠ .walk hash key fuel cur := fun hj => by
  have hread := h.lockPC_of_walk hj
  have hij : i ≠ j := fun e => by rw [e, hread] at hi; cases hi
  have hpassive := StdExclusive.of_reachable hn h.lock i j hij hi
  rw [hread] at hpassive
  cases hpassive

variable (P) in
theorem ShardInv.start (im : InnerMap) (heap : Heap K V) : ShardInv P (ShardThreads.start im heap : ShardThreads K V n) :=
  ⟨.init, fun _ => rfl, fun _ _ _ _ _ h => by cases h⟩

/-- Every step keeps the invariant. -/
theorem ShardInv.step (hn : n < 2 ^ 16) {s s' : ShardThreads K V n} (h : ShardInv P s)
    (hs : ShardStep P hash64 s s') : ShardInv P s' := by
  have hframe : ∀ (i : Fin n) (p : StdPC), ∀ j, j ≠ i → Function.update s.lock.pc i p j = s.lock.pc j :=
    fun _ _ _ hj => Function.update_noteq hj _ _
  cases hs with
  | invoke i c hi =>
    have hidle : s.lock.pc i = .idle := by simpa only [hi, ShardPC.lockOk] using h.lockOk i
    exact h.update h.lock (fun _ _ => rfl) (by rw [hidle]; rfl) fun _ _ _ _ e => by cases e
  | acquire i hi _ hstep hacq =>
    have := h.update (i := i) (h.lock.step (.step s.lock i hstep)) (hframe i _) (x := s.pc i)
      (by simpa only [hi, Function.update_same] using hacq) fun _ _ _ _ e => h.walk i _ _ _ _ e
    simpa only [Function.update_eq_self] using this
  | body i hi _ hwrite _ =>
    refine ⟨h.lock, fun j => ?_, fun j _ _ _ _ hj => ?_⟩
    · by_cases hj : j = i
      · subst hj; simp [ShardPC.lockOk, hwrite]
      · simpa only [Function.update_noteq hj] using h.lockOk j
    · by_cases hji : j = i
      · subst hji; simp only [Function.update_same] at hj; cases hj
      · simp only [Function.update_noteq hji] at hj
        exact absurd hj (h.not_walk hn hwrite j)
  | head i _ hread hb =>
    refine h.update h.lock (fun _ _ => rfl) hread fun _ _ _ _ e => ?_
    cases e
    simp only [findLockless, hb, except_ok_bind, findUnsafe]
  | found i hi _ _ =>
    exact h.update h.lock (fun _ _ => rfl) (.inl (h.lockPC_of_walk hi)) fun _ _ _ _ e => by cases e
  | next i hi hnode hk =>
    refine h.update h.lock (fun _ _ => rfl) (h.lockPC_of_walk hi) fun _ _ _ _ e => ?_
    cases e
    rw [← h.walk i _ _ _ _ hi]
    simp only [findFrom, hnode, except_ok_bind, if_neg hk]
  | notFound i hi =>
    exact h.update h.lock (fun _ _ => rfl) (.inl (h.lockPC_of_walk hi)) fun _ _ _ _ e => by cases e
  | release i _ hstep =>
    exact h.update (h.lock.step (.step s.lock i hstep)) (hframe i _) (by simp [ShardPC.lockOk])
      fun _ _ _ _ e => by cases e

variable (P hash64) in
/-- The invariant holds along every run from a shard and a pool. -/
theorem ShardInv.of_run (hn : n < 2 ^ 16) {im : InnerMap} {heap : Heap K V} {s : ShardThreads K V n}
    (hs : Relation.ReflTransGen (ShardStep P hash64) (ShardThreads.start im heap) s) : ShardInv P s := by
  induction hs with
  | refl => exact ShardInv.start P im heap
  | tail _ hst ih => exact ih.step hn hst

/-! ## The refinement -/

omit [LinearOrder K] in
theorem ShardThreads.abs_update (s : ShardThreads K V n) (l : Threads StdPC n) (im : InnerMap) (heap : Heap K V)
    (i : Fin n) (x : ShardPC K V) :
    ({ s with lock := l, im := im, heap := heap, pc := Function.update s.pc i x } : ShardThreads K V n).abs =
      ⟨im, heap, Function.update s.abs.pc i x.abs⟩ := by
  simp only [ShardThreads.abs, Function.comp_update]

/-- A `Find` whose walk is on course and stops with `r` is the atomic `Find_Lockless` on the shard as it is. -/
theorem ShardInv.body_find {s : ShardThreads K V n} (h : ShardInv P s) {i : Fin n} {hash : Nat} {key : K}
    {fuel : Nat} {cur : Option PoolPtr} (hi : s.pc i = .walk hash key fuel cur) {r : Option PoolPtr}
    (hr : findFrom P s.heap key fuel cur = .ok r) :
    (ShardCall.find hash key).body P hash64 s.im s.heap = .ok (s.im, s.heap, .node r) := by
  simp only [ShardCall.body, ← h.walk i _ _ _ _ hi, hr]
  rfl

/-- Every step is a step of the specification or leaves what it stands for unchanged. -/
theorem ShardStep.abs {s s' : ShardThreads K V n} (h : ShardInv P s) (hs : ShardStep P hash64 s s') :
    s'.abs = s.abs ∨ AtomicStep P hash64 s.abs s'.abs := by
  have habs : ∀ i, s.abs.pc i = (s.pc i).abs := fun _ => rfl
  have hstay : ∀ (l : Threads StdPC n) (i : Fin n) (x : ShardPC K V), x.abs = (s.pc i).abs →
      ({ s with lock := l, pc := Function.update s.pc i x } : ShardThreads K V n).abs = s.abs := fun l i x hx => by
    rw [ShardThreads.abs_update, hx, ← habs, Function.update_eq_self]
    rfl
  cases hs with
  | invoke i c hi =>
    -- the call is made
    right
    rw [ShardThreads.abs_update]
    exact .invoke s.abs i c (by rw [habs, hi]; rfl)
  | acquire => exact .inl rfl
  | body i hi _ _ hbody =>
    -- a writer takes effect
    right
    rw [ShardThreads.abs_update]
    exact .run s.abs i (by rw [habs, hi]; rfl) hbody
  | head i hi => exact .inl (hstay s.lock i _ (by rw [hi]; rfl))
  | found i hi hnode hk =>
    -- a `Find` takes effect at the node with the key
    right
    rw [ShardThreads.abs_update]
    exact .run s.abs i (by rw [habs, hi]; rfl)
      (h.body_find hi (by simp only [findFrom, hnode, except_ok_bind, if_pos hk]; rfl))
  | next i hi => exact .inl (hstay s.lock i _ (by rw [hi]; rfl))
  | notFound i hi =>
    -- a `Find` takes effect at `nullptr`
    right
    rw [ShardThreads.abs_update]
    exact .run s.abs i (by rw [habs, hi]; rfl) (h.body_find hi (by rw [findFrom]; rfl))
  | release i hi => exact .inl (hstay _ i _ (by rw [hi]; rfl))

/-- Every run of threads calling `Insert_Concurrent`, `Find_Concurrent` and `Remove_Concurrent` on one
shard, with fewer than `2^16` threads, is matched by a run of the atomic specification from the same shard
and pool: the same shard, the same pool, and each thread in the same call or with the same last return. -/
theorem concurrent_calls_linearize (hn : n < 2 ^ 16) (im : InnerMap) (heap : Heap K V) {s : ShardThreads K V n}
    (hs : Relation.ReflTransGen (ShardStep P hash64) (ShardThreads.start im heap) s) :
    Relation.ReflTransGen (AtomicStep P hash64) (AtomicShard.start im heap) s.abs := by
  induction hs with
  | refl => exact .refl
  | tail hr hst ih =>
    rcases hst.abs (ShardInv.of_run P hash64 hn hr) with e | hstep
    · rw [e]; exact ih
    · exact ih.tail hstep

/-- Two threads on a constructed shard, pages of two slots, the identity hash: thread `0` takes write
access and inserts `1` while thread `1`'s `Find` of `1` waits for the write bits; once thread `0` releases,
thread `1` takes read access, walks the bucket and finds the node. -/
theorem concurrent_calls_linearize_insert_find :
    ∃ s : ShardThreads Nat Nat 2,
      Relation.ReflTransGen (ShardStep 2 id) (ShardThreads.start empty PagingObjectPool.init) s ∧
      s.pc 0 = .ready (some (.node (some ⟨1, 0⟩))) ∧ s.pc 1 = .ready (some (.node (some ⟨1, 0⟩))) ∧
      Relation.ReflTransGen (AtomicStep 2 id) (AtomicShard.start empty PagingObjectPool.init) s.abs := by
  have h0 : Relation.ReflTransGen (ShardStep 2 id) (ShardThreads.start empty PagingObjectPool.init : ShardThreads Nat Nat 2)
      (ShardThreads.start empty PagingObjectPool.init) := .refl
  have h1 := h0.tail (ShardStep.invoke _ 0 (.insert 1 1 7) rfl)
  have h2 := h1.tail (ShardStep.acquire _ 0 (c := .insert 1 1 7) rfl (by decide) .writeCall rfl)
  have hpass : atomicAddU32 0 cWriteIncrement = cWriteIncrement := rfl
  have h3 := h2.tail (ShardStep.acquire _ 0 (c := .insert 1 1 7) rfl (by decide) (.writePass hpass) rfl)
  have h4 := h3.tail (ShardStep.invoke _ 1 (.find 1 1) rfl)
  have hblocked : atomicIncrementU32 (atomicAddU32 0 cWriteIncrement) &&& cWriteMask ≠ 0 := by
    rw [Ne, atomicIncrementU32, writeMask_eq_zero (atomicAddU32_lt _ _)]; decide
  have h5 := h4.tail (ShardStep.acquire _ 1 (c := .find 1 1) rfl (by decide) (.readBlocked hblocked) rfl)
  have h6 := h5.tail (ShardStep.body _ 0 (c := .insert 1 1 7) rfl rfl rfl rfl)
  have h7 := h6.tail (ShardStep.release _ 0 (r := .node (some ⟨1, 0⟩)) rfl .releaseWrite)
  have hexit : atomicSubtractU32 (atomicIncrementU32 (atomicAddU32 0 cWriteIncrement)) cWriteIncrement &&&
      cWriteMask = 0 := (writeMask_eq_zero (atomicSubtractU32_lt _ _)).2 (by decide)
  have h8 := h7.tail (ShardStep.acquire _ 1 (c := .find 1 1) rfl (by decide) (.readWaitExit hexit) rfl)
  have h9 := h8.tail (ShardStep.head _ 1 rfl rfl rfl)
  have h10 := h9.tail (ShardStep.found _ 1 rfl rfl rfl)
  have hrun := h10.tail (ShardStep.release _ 1 rfl .releaseRead)
  exact ⟨_, hrun, rfl, rfl, concurrent_calls_linearize (by decide) empty PagingObjectPool.init hrun⟩

end InnerMap

end PklE.ThreadsafeContainers
