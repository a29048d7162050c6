import ParallelHashMap.Pool.Sequential

/-!
# The paging pool under interleaving

Threads calling `Reserve`, `Release` and `PreallocateSpace` on one pool. A thread runs its call as a
sequence of blocks, each a stretch of the code that it runs with no other thread in between:
`PopPageFromFreeList`, one `AllocateNewPage`, the reservation in the popped page up to the test of
`IsFull`, and the push that follows it; `Release` is one block. Every run of this model is a run of the
code in which each block's atomic operations happen back to back (so every compare-exchange inside a block
succeeds on its first try): what the model reaches, the code reaches. `Pool/LockFree.lean` splits the pushes
and pops into their single accesses, so that other threads run between them and exchanges fail.

A `Reserve` that no other thread interrupts is the sequential `reserve` (`reserve_runs_alone`).

`Reserve` pushes its page back after its own `IsFull` test, and another thread can fill the page in
between. `full_page_on_free_list` reaches a quiescent state, every thread idle, whose free list starts
with a page that has no free slot.
-/

namespace PklE.CoreTypes

namespace PagingObjectPool

/-- Where a thread is in its call. -/
inductive PoolPC (T : Type)
  /-- No call in progress. -/
  | idle
  /-- At the top of `Reserve`'s loop, about to pop a page. -/
  | popping (x : T)
  /-- `PopPageFromFreeList` returned null: about to `AllocateNewPage`. -/
  | allocating (x : T)
  /-- Holding the popped page at `pPage`. -/
  | holding (x : T) (pPage : Nat)
  /-- Reserved `p` in the page at `pPage` and found it not full: about to push the page. -/
  | pushing (pPage : Nat) (p : PoolPtr)
  /-- `PreallocateSpace` with `k` pages still to allocate. -/
  | preallocating (k : Nat)
  deriving DecidableEq, Repr

/-- A pool and the program counters of `n` threads. -/
structure PoolThreads (T : Type) (n : Nat) where
  pool : PagingObjectPool T
  pc : Fin n → PoolPC T

/-- What a thread does next: start a call, or run the next block of its call. -/
inductive PoolEvent (T : Type)
  | callReserve (x : T)
  | callRelease (p : PoolPtr)
  | callPreallocate (numObjects : Nat)
  | next
  deriving Repr

variable {T : Type} (P : Nat) {n : Nat}

/-- The block thread `i` runs on event `e`: `none` when the thread cannot take the event (a call starts
only on an idle thread) or when the block faults. -/
def poolStep (s : PoolThreads T n) (i : Fin n) : PoolEvent T → Option (PoolThreads T n)
  | .callReserve x => match s.pc i with
    | .idle => some ⟨s.pool, Function.update s.pc i (.popping x)⟩
    | _ => none
  | .callRelease p => match s.pc i, s.pool.release P p with
    | .idle, .ok (pool, _) => some ⟨pool, s.pc⟩
    | _, _ => none
  | .callPreallocate numObjects => match s.pc i with
    | .idle => some ⟨s.pool, Function.update s.pc i (.preallocating (((numObjects + P - 1) % 2 ^ 32) / P))⟩
    | _ => none
  | .next => match s.pc i with
    | .idle => none
    | .popping x => match s.pool.popPageFromFreeList with
      | .ok (pool, pPage) =>
        some ⟨pool, Function.update s.pc i (if pPage = 0 then .allocating x else .holding x pPage)⟩
      | .error _ => none
    | .allocating x => match s.pool.allocateNewPage with
      | .ok (pool, _) => some ⟨pool, Function.update s.pc i (.popping x)⟩
      | .error _ => none
    | .holding x pPage => match s.pool.takeFromPage P pPage x with
      | .ok (pool, none) => some ⟨pool, Function.update s.pc i (.popping x)⟩
      | .ok (pool, some (p, true)) => some ⟨pool, Function.update s.pc i (.pushing pPage p)⟩
      | .ok (pool, some (_, false)) => some ⟨pool, Function.update s.pc i .idle⟩
      | .error _ => none
    | .pushing pPage _ => match s.pool.pushPageToFreeList pPage with
      | .ok pool => some ⟨pool, Function.update s.pc i .idle⟩
      | .error _ => none
    | .preallocating 0 => some ⟨s.pool, Function.update s.pc i .idle⟩
    | .preallocating (k + 1) => match s.pool.allocateNewPage with
      | .ok (pool, _) => some ⟨pool, Function.update s.pc i (.preallocating k)⟩
      | .error _ => none

/-- A constructed pool with every thread idle. -/
def PoolThreads.start : PoolThreads T n := ⟨init, fun _ => .idle⟩

/-- The states that interleaved runs from a constructed pool reach. -/
inductive PoolReachable : PoolThreads T n → Prop
  | start : PoolReachable .start
  | step {s s' : PoolThreads T n} (i : Fin n) (e : PoolEvent T) :
      PoolReachable s → poolStep P s i e = some s' → PoolReachable s'

/-- The events of a run, in order. -/
def runEvents : PoolThreads T n → List (Fin n × PoolEvent T) → Option (PoolThreads T n)
  | s, [] => some s
  | s, (i, e) :: es => (poolStep P s i e).bind (runEvents · es)

theorem PoolReachable.runEvents {s s' : PoolThreads T n} (hs : PoolReachable P s) :
    ∀ (es : List (Fin n × PoolEvent T)), PagingObjectPool.runEvents P s es = some s' → PoolReachable P s'
  | [], h => Option.some.inj h ▸ hs
  | (i, e) :: es, h => by
    simp only [PagingObjectPool.runEvents, Option.bind_eq_some] at h
    obtain ⟨s1, h1, h2⟩ := h
    exact (hs.step i e h1).runEvents es h2

theorem runEvents_next_cons (s : PoolThreads T n) (i : Fin n) (k : Nat) :
    runEvents P s (List.replicate (k + 1) (i, .next)) =
      (poolStep P s i .next).bind (runEvents P · (List.replicate k (i, .next))) := rfl

/-! ## One thread alone -/

/-- A `Reserve` call that no other thread interrupts runs to the end of the sequential `reserve`. -/
theorem reserve_runs_alone {x : T} (i : Fin n) :
    ∀ {fuel : Nat} (pc : Fin n → PoolPC T) {pool pool' : PagingObjectPool T} {p : PoolPtr},
      pool.reserve P x fuel = .ok (pool', p) →
      ∃ k, runEvents P ⟨pool, Function.update pc i (.popping x)⟩ (List.replicate k (i, .next)) =
        some ⟨pool', Function.update pc i .idle⟩
  | 0, _, _, _, _, h => by cases h
  | fuel + 1, pc, pool, pool', p, h => by
    simp only [reserve] at h
    cases hpop : pool.popPageFromFreeList with
    | error e => rw [hpop] at h; cases h
    | ok r =>
      obtain ⟨pool1, a⟩ := r
      rw [hpop, except_ok_bind] at h
      by_cases ha : a = 0
      · rw [if_pos ha] at h
        cases halloc : pool1.allocateNewPage with
        | error e => rw [halloc] at h; cases h
        | ok r =>
          rw [halloc, except_ok_bind] at h
          obtain ⟨k, hk⟩ := reserve_runs_alone i pc h
          refine ⟨k + 2, ?_⟩
          simp only [runEvents_next_cons, poolStep, Function.update_same, hpop, halloc, if_pos ha,
            Option.some_bind, Function.update_idem]
          exact hk
      · rw [if_neg ha] at h
        simp only [reserveInPage] at h
        cases htake : pool1.takeFromPage P a x with
        | error e => rw [htake] at h; cases h
        | ok r =>
          obtain ⟨pool2, _ | ⟨q, _ | _⟩⟩ := r
          all_goals rw [htake, except_ok_bind] at h
          · obtain ⟨k, hk⟩ := reserve_runs_alone i pc h
            refine ⟨k + 2, ?_⟩
            simp only [runEvents_next_cons, poolStep, Function.update_same, hpop, htake, if_neg ha,
              Option.some_bind, Function.update_idem]
            exact hk
          · cases h
            refine ⟨2, ?_⟩
            simp only [runEvents_next_cons, poolStep, Function.update_same, hpop, htake, if_neg ha,
              Option.some_bind, Function.update_idem]
            rfl
          · cases hpush : pool2.pushPageToFreeList a with
            | error e => dsimp only at h; rw [hpush] at h; cases h
            | ok pool3 =>
              dsimp only at h
              rw [hpush] at h
              cases h
              refine ⟨3, ?_⟩
              simp only [runEvents_next_cons, poolStep, Function.update_same, hpop, htake, hpush, if_neg ha,
                Option.some_bind, Function.update_idem]
              rfl

/-! ## A full page on the free list -/

/-- Pages of two slots. Thread `1` reserves `10`, allocating page `0`; thread `0` pops page `0` to reserve
`20`; thread `1` releases `10`, which pushes the page back; thread `0` takes slot `1` and finds the page not
full; thread `1` pops the page again and fills it with `30`; thread `0` then pushes the full page. -/
def fullPageTrace : List (Fin 2 × PoolEvent Nat) :=
  [(1, .callReserve 10), (1, .next), (1, .next), (1, .next), (1, .next), (1, .next),
    (0, .callReserve 20), (0, .next),
    (1, .callRelease ⟨1, 0⟩),
    (0, .next),
    (1, .callReserve 30), (1, .next), (1, .next),
    (0, .next)]

/-- The state `fullPageTrace` ends in. -/
def fullPageState : PoolThreads Nat 2 :=
  (runEvents 2 .start fullPageTrace).getD .start

/-- At a quiescent point, the head of the free list is a page with no free slot. -/
theorem full_page_on_free_list :
    PoolReachable 2 fullPageState ∧ (∀ i, fullPageState.pc i = .idle) ∧
      headPageIndex fullPageState.pool.freeListHeadIndex < fullPageState.pool.numPages ∧
      fullPageState.pool.hasSpace 2 (headPageIndex fullPageState.pool.freeListHeadIndex) = false :=
  ⟨PoolReachable.start.runEvents 2 fullPageTrace rfl, by decide, by decide, by decide⟩

end PagingObjectPool

end PklE.CoreTypes
