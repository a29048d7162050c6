import ParallelHashMap.Map.Invariant

/-!
# The map under interleaving

Threads calling the map's `_Concurrent` operations. `Insert_Concurrent`, `Find_Concurrent` and
`Remove_Concurrent` each run with their shard's lock held, and each is one block here, its lockless body.
`ReKey_Concurrent(key, newKey)` is two calls: `Find_Concurrent(key)`, which releases its read lock when
it returns, then `ReKey_Concurrent(*pValue, newKey)` on the node found; another thread can run between
the two, and each is a block. Every run of this model is a run of the code in which each block happens
with no other thread in between, so what the model reaches, the code reaches.

Two rekeys of one key that both find its node before either changes it both succeed: the second reads
the node's bucket, which the first left valid, and changes the key again (`rekey_race`). Run one after
the other, in either order, the second fails, so no order of the calls gives the returns of the run.
-/

namespace PklE.ThreadsafeContainers

open PklE.CoreTypes SimpleLinkedList

namespace HashMap

/-- What a call returned: a node (or `nullptr`), or a flag. -/
inductive MapReturn
  | node (p : Option PoolPtr)
  | flag (b : Bool)
  deriving DecidableEq, Repr

/-- Where a thread is: between calls with the last call's return, or inside `ReKey_Concurrent` with the
node `Find_Concurrent` returned. -/
inductive MapPC (K : Type)
  | idle
  | returned (r : MapReturn)
  | rekeyFound (p : Option PoolPtr) (newKey : K)
  deriving DecidableEq, Repr

/-- A map and the program counters of `n` threads. -/
structure MapThreads (K V : Type) (n : Nat) where
  map : HashMap K V
  pc : Fin n → MapPC K

/-- What a thread does next: start a call, or finish its `ReKey_Concurrent`. -/
inductive MapEvent (K V : Type)
  | callInsert (key : K) (value : V)
  | callFind (key : K)
  | callErase (key : K)
  | callRekey (key newKey : K)
  | next

variable {K V : Type} [LinearOrder K] (P S : Nat) (hash64 : K → Nat) {n : Nat}

/-- Whether a thread is between calls. -/
def MapPC.ready : MapPC K → Bool
  | .rekeyFound _ _ => false
  | _ => true

/-- The block thread `i` runs on event `e`: `none` when the thread cannot take the event or the block
faults. -/
def mapStep (s : MapThreads K V n) (i : Fin n) : MapEvent K V → Option (MapThreads K V n)
  | .callInsert key value =>
    if (s.pc i).ready then match s.map.insertLockless P S hash64 key value with
      | .ok (m, r) => some ⟨m, Function.update s.pc i (.returned (.node r))⟩
      | .error _ => none
    else none
  | .callFind key =>
    if (s.pc i).ready then match s.map.findLockless P S hash64 key with
      | .ok r => some ⟨s.map, Function.update s.pc i (.returned (.node r))⟩
      | .error _ => none
    else none
  | .callErase key =>
    if (s.pc i).ready then match s.map.removeLockless P S hash64 key with
      | .ok (m, b) => some ⟨m, Function.update s.pc i (.returned (.flag b))⟩
      | .error _ => none
    else none
  | .callRekey key newKey =>
    if (s.pc i).ready then match s.map.findLockless P S hash64 key with
      | .ok r => some ⟨s.map, Function.update s.pc i (.rekeyFound r newKey)⟩
      | .error _ => none
    else none
  | .next => match s.pc i with
    | .rekeyFound (some p) newKey => match s.map.rekeyConcurrentNode P S hash64 p newKey with
      | .ok (m, b) => some ⟨m, Function.update s.pc i (.returned (.flag b))⟩
      | .error _ => none
    | .rekeyFound none _ => some ⟨s.map, Function.update s.pc i (.returned (.flag false))⟩
    | _ => none

/-- A constructed map with every thread idle. -/
def MapThreads.start : MapThreads K V n := ⟨empty, fun _ => .idle⟩

/-- The events of a run, in order. -/
def runEvents : MapThreads K V n → List (Fin n × MapEvent K V) → Option (MapThreads K V n)
  | s, [] => some s
  | s, (i, e) :: es => (mapStep P S hash64 s i e).bind (runEvents · es)

/-- One shard, the identity hash, pages of two slots. Thread `0` inserts `1`; then both threads call
`rekey` on `1`, thread `0` to `3` and thread `1` to `5`, and both find the node before either rekeys it. -/
def rekeyRaceTrace : List (Fin 2 × MapEvent Nat Nat) :=
  [(0, .callInsert 1 7), (0, .callRekey 1 3), (1, .callRekey 1 5), (0, .next), (1, .next)]

/-- Both rekeys of the race return `true`; run after the insert one after the other, in either order, one
of them returns `false`. -/
theorem rekey_race :
    (runEvents 2 1 id .start rekeyRaceTrace).map (fun s => (s.pc 0, s.pc 1)) =
        some (.returned (.flag true), .returned (.flag true)) ∧
      (empty : HashMap Nat Nat).insertLockless 2 1 id 1 7 = .ok (oneInserted, some ⟨1, 0⟩) ∧
      (do
        let (m, b3) ← oneInserted.rekeyLockless 2 1 id 1 3
        let (_, b5) ← m.rekeyLockless 2 1 id 1 5
        pure (b3, b5) : Except Fault (Bool × Bool)) = .ok (true, false) ∧
      (do
        let (m, b5) ← oneInserted.rekeyLockless 2 1 id 1 5
        let (_, b3) ← m.rekeyLockless 2 1 id 1 3
        pure (b3, b5) : Except Fault (Bool × Bool)) = .ok (false, true) :=
  ⟨rfl, rfl, rfl, rfl⟩

end HashMap

end PklE.ThreadsafeContainers
