import ParallelHashMap.Lock.Word

/-!
# The standard discipline excludes writers

`AcquireReadOnlyAccess`, `AcquireReadAndWriteAccess`, their releases and the two conversions
(`spin_lock.cpp`, lines 28-180): the calls behind `ScopedReadSpinLock`, `ScopedWriteSpinLock` and the
standard `TransferScopedLock` specialisations. `StdPC` is where a thread is inside them, and `StdStep`
is one atomic operation of a thread on `lockValue`, one constructor per branch of the source.

`std_mutual_exclusion`: in every interleaving of fewer than `2^16` threads, a thread that holds write
access runs alone, and `lockValue` is `0x10000` times the number of threads with a write increment plus
the number of threads with a read increment.

The invariant behind it (`StdExclusive`) is that while a thread holds write access every other thread is
passive: at a control point none of whose steps passes a check while a write increment is in the word
(`StdPC.passive_step`). A thread takes write access only when the value it leaves is its own increments
and nothing else (`StdStep.lockValue_of_holdsWrite`), so at that moment every other thread holds no
increment, and a thread that holds none is passive.

`std_deadlock_free`: the threads inside calls never all wait on each other. A thread outside a spin loop
always has a step, and when every thread inside a call spins the accounting leaves no write increment in
the word, so a reader waiting for the write bits, or else every spinner, can move on.
-/

namespace PklE.CoreTypes

/-- Where a thread is in the standard discipline's calls. -/
inductive StdPC
  /-- In no call, holding nothing. -/
  | idle
  /-- `AcquireReadOnlyAccess` saw a write increment; spins until the write mask is clear. -/
  | readWait
  | holdsRead
  /-- `AcquireReadAndWriteAccess`, at the top of its retry loop. -/
  | writeTry
  /-- The fetch-add did not return exactly `0x10000`; about to undo it. -/
  | writeUndo
  /-- The undo left a non-zero value; spins until `lockValue == 0`, then retries. -/
  | writeSpin
  | holdsWrite
  /-- `ConvertFromReadToWriteLock`: the only write increment; about to drop the read increment. -/
  | toWriteDec
  /-- Other readers remain; about to undo the write increment. -/
  | toWriteUndo
  /-- Another write increment was present; about to undo the write increment, then the read one. -/
  | toWriteUndoW
  | toWriteUndoR
  /-- `ConvertFromWriteToReadLock`: read increment taken; about to release the write increment. -/
  | toReadSub
  /-- A write increment remained; spins until the write mask is clear. -/
  | toReadWait
  deriving DecidableEq

namespace StdPC

/-- Whether the thread's read increment is in `lockValue`. -/
def hasRead : StdPC → Bool
  | readWait | holdsRead | toWriteDec | toWriteUndoW | toWriteUndoR | toReadSub | toReadWait => true
  | _ => false

/-- Whether the thread's write increment is in `lockValue`. -/
def hasWrite : StdPC → Bool
  | writeUndo | holdsWrite | toWriteDec | toWriteUndo | toWriteUndoW | toReadSub => true
  | _ => false

/-- The thread's share of `lockValue`. -/
def contrib (p : StdPC) : Nat := 0x10000 * p.hasWrite.toNat + p.hasRead.toNat

/-- The control points from which no step passes a check while another write increment is present. -/
def passive : StdPC → Bool
  | idle | readWait | writeTry | writeUndo | writeSpin => true
  | _ => false

theorem contrib_le (p : StdPC) : p.contrib ≤ 0x10001 := by
  cases p <;> decide

theorem passive_of_contrib {p : StdPC} (h : p.contrib = 0) : p.passive = true := by
  cases p <;> simp_all [contrib, hasRead, hasWrite, passive]

end StdPC

open StdPC in
/-- One atomic operation of a thread: `StdStep p v p' v'` moves a thread at `p` that finds
`lockValue = v` to `p'` and leaves `v'`. -/
inductive StdStep : StdPC → Nat → StdPC → Nat → Prop
  /-- `AcquireReadOnlyAccess`: the increment found no write increment. -/
  | readPass {v} : atomicIncrementU32 v &&& cWriteMask = 0 →
      StdStep idle v holdsRead (atomicIncrementU32 v)
  | readBlocked {v} : atomicIncrementU32 v &&& cWriteMask ≠ 0 →
      StdStep idle v readWait (atomicIncrementU32 v)
  | readWaitExit {v} : v &&& cWriteMask = 0 → StdStep readWait v holdsRead v
  /-- `ReleaseReadOnlyAccess`. -/
  | releaseRead {v} : StdStep holdsRead v idle (atomicDecrementU32 v)
  /-- `AcquireReadAndWriteAccess` is called. -/
  | writeCall {v} : StdStep idle v writeTry v
  | writePass {v} : atomicAddU32 v cWriteIncrement = cWriteIncrement →
      StdStep writeTry v holdsWrite (atomicAddU32 v cWriteIncrement)
  | writeFail {v} : atomicAddU32 v cWriteIncrement ≠ cWriteIncrement →
      StdStep writeTry v writeUndo (atomicAddU32 v cWriteIncrement)
  | writeUndoSpin {v} : atomicSubtractU32 v cWriteIncrement ≠ 0 →
      StdStep writeUndo v writeSpin (atomicSubtractU32 v cWriteIncrement)
  | writeUndoRetry {v} : atomicSubtractU32 v cWriteIncrement = 0 →
      StdStep writeUndo v writeTry (atomicSubtractU32 v cWriteIncrement)
  | writeSpinExit {v} : v = 0 → StdStep writeSpin v writeTry v
  /-- `ReleaseReadAndWriteAccess`. -/
  | releaseWrite {v} : StdStep holdsWrite v idle (atomicSubtractU32 v cWriteIncrement)
  /-- `ConvertFromReadToWriteLock`: the fetch-add found no other write increment. -/
  | toWriteFirst {v} : atomicAddU32 v cWriteIncrement &&& cWriteMask = cWriteIncrement →
      StdStep holdsRead v toWriteDec (atomicAddU32 v cWriteIncrement)
  | toWriteOther {v} : atomicAddU32 v cWriteIncrement &&& cWriteMask ≠ cWriteIncrement →
      StdStep holdsRead v toWriteUndoW (atomicAddU32 v cWriteIncrement)
  | toWriteDecPass {v} : atomicDecrementU32 v = cWriteIncrement →
      StdStep toWriteDec v holdsWrite (atomicDecrementU32 v)
  | toWriteDecFail {v} : atomicDecrementU32 v ≠ cWriteIncrement →
      StdStep toWriteDec v toWriteUndo (atomicDecrementU32 v)
  /-- The fallback spins until `lockValue == 0` and calls `AcquireReadAndWriteAccess`. -/
  | toWriteUndoSpin {v} : atomicSubtractU32 v cWriteIncrement ≠ 0 →
      StdStep toWriteUndo v writeSpin (atomicSubtractU32 v cWriteIncrement)
  | toWriteUndoRetry {v} : atomicSubtractU32 v cWriteIncrement = 0 →
      StdStep toWriteUndo v writeTry (atomicSubtractU32 v cWriteIncrement)
  | toWriteUndoWrite {v} : StdStep toWriteUndoW v toWriteUndoR (atomicSubtractU32 v cWriteIncrement)
  | toWriteUndoReadSpin {v} : atomicDecrementU32 v ≠ 0 →
      StdStep toWriteUndoR v writeSpin (atomicDecrementU32 v)
  | toWriteUndoReadRetry {v} : atomicDecrementU32 v = 0 →
      StdStep toWriteUndoR v writeTry (atomicDecrementU32 v)
  /-- `ConvertFromWriteToReadLock`. -/
  | toReadInc {v} : StdStep holdsWrite v toReadSub (atomicIncrementU32 v)
  | toReadPass {v} : atomicSubtractU32 v cWriteIncrement &&& cWriteMask = 0 →
      StdStep toReadSub v holdsRead (atomicSubtractU32 v cWriteIncrement)
  | toReadBlocked {v} : atomicSubtractU32 v cWriteIncrement &&& cWriteMask ≠ 0 →
      StdStep toReadSub v toReadWait (atomicSubtractU32 v cWriteIncrement)
  | toReadWaitExit {v} : v &&& cWriteMask = 0 → StdStep toReadWait v holdsRead v

namespace StdStep

variable {p p' : StdPC} {v v' : Nat}

/-- Every step moves `lockValue` by the change in the thread's own increments. -/
theorem accounts (h : StdStep p v p' v') (hv : v < 2 ^ 32) :
    v' < 2 ^ 32 ∧ (v + p'.contrib) % 2 ^ 32 = (v' + p.contrib) % 2 ^ 32 := by
  cases h <;> refine ⟨?_, ?_⟩ <;>
    (try simp only [StdPC.contrib, StdPC.hasRead, StdPC.hasWrite, Bool.toNat_true, Bool.toNat_false,
      atomicIncrementU32, atomicDecrementU32, atomicAddU32, atomicSubtractU32, cWriteIncrement]) <;>
    omega

/-- A thread takes write access only when the value it leaves is its own increments alone. -/
theorem lockValue_of_holdsWrite (h : StdStep p v .holdsWrite v') (hv : v < 2 ^ 32) :
    v = p.contrib := by
  cases h <;>
    simp_all only [StdPC.contrib, StdPC.hasRead, StdPC.hasWrite, Bool.toNat_true, Bool.toNat_false,
      atomicDecrementU32, atomicAddU32, atomicSubtractU32, cWriteIncrement] <;> omega

end StdStep

/-- From a passive control point no step passes a check while `lockValue` holds a write increment:
the thread stays passive. -/
theorem StdPC.passive_step {p p' : StdPC} {v v' : Nat} (h : StdStep p v p' v') (hp : p.passive = true)
    (hw : 2 ^ 16 ≤ v) (hv : v + 1 < 2 ^ 32) : p'.passive = true := by
  cases h <;> simp (disch := omega) only [passive, Bool.false_eq_true, atomicIncrementU32, atomicAddU32, cWriteIncrement,
    writeMask_eq_zero] at * <;> omega

/-- `lockValue` is the sum of the increments the threads hold. -/
theorem std_lockValue {n : Nat} (hn : n < 2 ^ 16) {s : Threads StdPC n}
    (hr : Threads.Reachable StdStep .idle s) : s.lockValue = Threads.total StdPC.contrib s :=
  Threads.lockValue_eq_total (fun _ _ _ _ h hv => StdStep.accounts h hv) StdPC.contrib_le
    (show StdPC.idle.contrib = 0 from rfl) hn hr

/-- While a thread holds write access every other thread is passive. -/
def StdExclusive {n : Nat} (s : Threads StdPC n) : Prop :=
  ∀ i j, i ≠ j → s.pc i = .holdsWrite → (s.pc j).passive = true

theorem stdExclusive_step {n : Nat} (hn : n < 2 ^ 16) {s : Threads StdPC n}
    (hr : Threads.Reachable StdStep .idle s) (hs : StdExclusive s) {i : Fin n} {p' : StdPC} {v' : Nat}
    (h : StdStep (s.pc i) s.lockValue p' v') :
    StdExclusive ⟨v', Function.update s.pc i p'⟩ := by
  have hacc := std_lockValue hn hr
  have htot := Threads.total_eq StdPC.contrib s i
  have hle := Threads.others_le StdPC.contrib_le s i
  have hbound : (n - 1) * 0x10001 ≤ (2 ^ 16 - 2) * 0x10001 := Nat.mul_le_mul_right _ (by omega)
  intro a b hab ha
  by_cases hai : a = i
  · -- the stepping thread takes write access: every other thread holds no increment
    subst hai
    simp only [Function.update_same] at ha
    subst ha
    have hc := StdStep.lockValue_of_holdsWrite h (by have := StdPC.contrib_le (s.pc a); omega)
    simp only [Function.update_noteq (Ne.symm hab)]
    exact StdPC.passive_of_contrib (Threads.others_eq_zero _ (by omega) (Ne.symm hab))
  · simp only [Function.update_noteq hai] at ha
    by_cases hbi : b = i
    · -- the stepping thread moves while `a` holds write access
      subst hbi
      simp only [Function.update_same]
      have hw := Threads.le_others StdPC.contrib s hai
      have hpb := hs a b hab ha
      have hcb : (s.pc b).contrib ≤ 0x10000 := by
        revert hpb; cases s.pc b <;> decide
      simp only [ha, StdPC.contrib, StdPC.hasRead, StdPC.hasWrite] at hw
      exact StdPC.passive_step h hpb (by simp at hw; omega) (by omega)
    · simpa only [Function.update_noteq hbi] using hs a b hab ha

/-- While a thread holds write access every other thread is passive, in every reachable state. -/
theorem StdExclusive.of_reachable {n : Nat} (hn : n < 2 ^ 16) {s : Threads StdPC n}
    (hs : Threads.Reachable StdStep .idle s) : StdExclusive s :=
  Threads.Reachable.induction (fun _ _ _ h => absurd h (by simp [Threads.init]))
    (fun _ _ _ _ hr ih h => stdExclusive_step hn hr ih h) hs

/-- Mutual exclusion for the standard discipline: in every interleaving of fewer than `2^16` threads, a
thread holding write access runs alone, `lockValue` counts `0x10000` per outstanding write increment and
`1` per outstanding read increment, and it is `0` once every thread has released. -/
theorem std_mutual_exclusion {n : Nat} (hn : n < 2 ^ 16) {s : Threads StdPC n}
    (hs : Threads.Reachable StdStep .idle s) :
    (∀ i j, i ≠ j → s.pc i = .holdsWrite → s.pc j ≠ .holdsRead ∧ s.pc j ≠ .holdsWrite) ∧
    s.lockValue = 0x10000 * Threads.count StdPC.hasWrite s + Threads.count StdPC.hasRead s ∧
    ((∀ i, s.pc i = .idle) → s.lockValue = 0) := by
  have hacc := std_lockValue hn hs
  have hex : StdExclusive s :=
    Threads.Reachable.induction (fun _ _ _ h => absurd h (by simp [Threads.init]))
      (fun _ _ _ _ hr ih h => stdExclusive_step hn hr ih h) hs
  refine ⟨fun i j hij hi => ?_, ?_, fun hidle => ?_⟩
  · have := hex i j hij hi
    constructor <;> intro hj <;> simp [hj, StdPC.passive] at this
  · rw [hacc]; exact Threads.total_increments _ _ s
  · rw [hacc, Threads.total]
    exact Finset.sum_eq_zero fun i _ => by rw [hidle i]; rfl

/-- Two threads, thread `0` holding write access after `AcquireStandardWriteAccess`. -/
def stdOneWriter : Threads StdPC 2 := ⟨0x10000, fun i => if i = 0 then .holdsWrite else .idle⟩

theorem stdOneWriter_reachable : Threads.Reachable StdStep .idle stdOneWriter := by
  have h := ((Threads.Reachable.init (n := 2)).step (.step _ 0 (@StdStep.writeCall 0))).step
    (.step _ 0 (StdStep.writePass rfl))
  convert h using 2
  funext k
  match k with
  | 0 | 1 => rfl

theorem std_mutual_exclusion_one_writer :
    2 < 2 ^ 16 ∧ Threads.Reachable StdStep .idle stdOneWriter ∧
      (stdOneWriter.pc 1 ≠ .holdsRead ∧ stdOneWriter.pc 1 ≠ .holdsWrite) :=
  ⟨by decide, stdOneWriter_reachable,
    (std_mutual_exclusion (by decide) stdOneWriter_reachable).1 0 1 (by decide) rfl⟩

/-! ## Progress -/

section Progress

variable {n : Nat}

/-- The control points of the spin loops, where a thread moves only once the value it reads lets the loop
exit. -/
def StdPC.spins : StdPC → Bool
  | readWait | writeSpin | toReadWait => true
  | _ => false

theorem StdPC.hasWrite_of_spins {p : StdPC} (h : p.spins = true) : p.hasWrite = false := by
  cases p <;> simp_all [spins, hasWrite]

/-- Outside the spin loops a thread inside a call always has a step: each test it makes has a step for
either outcome. -/
theorem StdStep.exists_of_not_spins {p : StdPC} (hp : p ≠ .idle) (hs : p.spins = false) (v : Nat) :
    ∃ p' v', StdStep p v p' v' := by
  cases p with
  | idle => exact absurd rfl hp
  | readWait | writeSpin | toReadWait => cases hs
  | holdsRead => exact ⟨_, _, .releaseRead⟩
  | writeTry =>
    by_cases h : atomicAddU32 v cWriteIncrement = cWriteIncrement
    exacts [⟨_, _, .writePass h⟩, ⟨_, _, .writeFail h⟩]
  | writeUndo =>
    by_cases h : atomicSubtractU32 v cWriteIncrement = 0
    exacts [⟨_, _, .writeUndoRetry h⟩, ⟨_, _, .writeUndoSpin h⟩]
  | holdsWrite => exact ⟨_, _, .releaseWrite⟩
  | toWriteDec =>
    by_cases h : atomicDecrementU32 v = cWriteIncrement
    exacts [⟨_, _, .toWriteDecPass h⟩, ⟨_, _, .toWriteDecFail h⟩]
  | toWriteUndo =>
    by_cases h : atomicSubtractU32 v cWriteIncrement = 0
    exacts [⟨_, _, .toWriteUndoRetry h⟩, ⟨_, _, .toWriteUndoSpin h⟩]
  | toWriteUndoW => exact ⟨_, _, .toWriteUndoWrite⟩
  | toWriteUndoR =>
    by_cases h : atomicDecrementU32 v = 0
    exacts [⟨_, _, .toWriteUndoReadRetry h⟩, ⟨_, _, .toWriteUndoReadSpin h⟩]
  | toReadSub =>
    by_cases h : atomicSubtractU32 v cWriteIncrement &&& cWriteMask = 0
    exacts [⟨_, _, .toReadPass h⟩, ⟨_, _, .toReadBlocked h⟩]

/-- A spin loop exits once the word holds no write increment and, unless the thread waits with its own
read increment in, nothing at all. -/
theorem StdStep.exists_of_spins {p : StdPC} (hs : p.spins = true) {v : Nat} (hw : v < 2 ^ 16)
    (hr : p.hasRead = false → v = 0) : ∃ p' v', StdStep p v p' v' := by
  cases p with
  | readWait => exact ⟨_, _, .readWaitExit ((writeMask_eq_zero (by omega)).2 hw)⟩
  | writeSpin => exact ⟨_, _, .writeSpinExit (hr rfl)⟩
  | toReadWait => exact ⟨_, _, .toReadWaitExit ((writeMask_eq_zero (by omega)).2 hw)⟩
  | _ => cases hs

/-- The standard discipline never deadlocks: in every reachable state of fewer than `2^16` threads in
which a thread is inside a call, some thread inside a call has a step. Outside the spin loops a thread
always has one. When every thread inside a call spins, none holds a write increment, so the word holds
the read increments of the threads waiting for the write bits to clear, which stop waiting, or nothing,
and every loop exits. This is not freedom from starvation: the step can be another thread's, and
threads can retry forever. -/
theorem std_deadlock_free (hn : n < 2 ^ 16) {s : Threads StdPC n} (hr : Threads.Reachable StdStep .idle s)
    {i : Fin n} (hi : s.pc i ≠ .idle) : ∃ j, s.pc j ≠ .idle ∧ ∃ p' v', StdStep (s.pc j) s.lockValue p' v' := by
  refine Threads.exists_step_of_spins (fun _ v hp hs => StdStep.exists_of_not_spins hp hs v) fun hspin => ?_
  -- the spinning threads hold no write increment
  have hW : Threads.count StdPC.hasWrite s = 0 := Threads.count_eq_zero_of fun j => by
    by_cases hj : s.pc j = .idle
    · rw [hj]; rfl
    · exact StdPC.hasWrite_of_spins (hspin j hj)
  have hv : s.lockValue = 0x10000 * Threads.count StdPC.hasWrite s + Threads.count StdPC.hasRead s := by
    rw [std_lockValue hn hr]; exact Threads.total_increments _ _ s
  have hR := Threads.count_le StdPC.hasRead s
  by_cases hrd : ∃ j, (s.pc j).hasRead = true
  · -- a reader waiting for the write bits, with no write increment left
    obtain ⟨j, hj⟩ := hrd
    have hjidle : s.pc j ≠ .idle := fun h => by rw [h] at hj; cases hj
    exact ⟨j, hjidle, StdStep.exists_of_spins (hspin j hjidle) (by omega) fun h => absurd (h ▸ hj) (by decide)⟩
  · -- an empty word: every spin loop exits
    have hR0 : Threads.count StdPC.hasRead s = 0 := Threads.count_eq_zero_of fun j => by
      simpa using fun h => hrd ⟨j, h⟩
    exact ⟨i, hi, StdStep.exists_of_spins (hspin i hi) (by omega) fun _ => by omega⟩

theorem std_deadlock_free_one_writer :
    2 < 2 ^ 16 ∧ Threads.Reachable StdStep .idle stdOneWriter ∧ stdOneWriter.pc 0 ≠ .idle ∧
      ∃ j, stdOneWriter.pc j ≠ .idle ∧ ∃ p' v', StdStep (stdOneWriter.pc j) stdOneWriter.lockValue p' v' :=
  ⟨by decide, stdOneWriter_reachable, by decide,
    std_deadlock_free (by decide) stdOneWriter_reachable (i := 0) (by decide)⟩

end Progress

end PklE.CoreTypes
