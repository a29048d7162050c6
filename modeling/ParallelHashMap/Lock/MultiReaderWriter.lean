import ParallelHashMap.Lock.Word

/-!
# The multi-reader/writer discipline

`AcquireMultiReaderWriterReadAccess`, `AcquireMultiReaderWriterWriteAccess`, their releases and the two
conversions (`spin_lock.cpp`, lines 336-479), called by `ScopedMultiReaderWriterReadSpinLock` and
`ScopedMultiReaderWriterWriteSpinLock`.

The write acquisition keeps its increment when the fetch-add returns a value whose *read* bits are
clear; it does not look at the write bits. Two writers whose fetch-adds find no reader both keep their
increments and both hold write access: `mrw_two_writers` is that run. What the discipline does keep is
the separation of readers from writers (`mrw_readers_excluded`): a writer takes access only when no
read increment is in the word (`MrwStep.holdsWrite_entry`), and from then on a reader's increment finds
the write bits set and waits.

`mrw_deadlock_free`: the threads inside calls never all wait on each other, as for the standard
discipline: when every thread inside a call spins, no write increment is left in the word.
-/

namespace PklE.CoreTypes

/-- Where a thread is in the multi-reader/writer discipline's calls. -/
inductive MrwPC
  | idle
  /-- `AcquireMultiReaderWriterReadAccess` saw a write increment; spins until the write mask is clear. -/
  | readWait
  | holdsRead
  /-- The write acquisition's fetch-add: at the top of `AcquireMultiReaderWriterWriteAccess` and of the
  inner retry loop of `ConvertFromMultiReaderWriterReadToWriteLock`. -/
  | writeTry
  /-- The fetch-add found readers; about to undo the write increment. -/
  | writeUndo
  /-- Spins until the read mask is clear, then retries. -/
  | writeSpin
  | holdsWrite
  /-- `ConvertFromMultiReaderWriterReadToWriteLock`: write increment added; about to drop the read one. -/
  | toWriteDec
  /-- `ConvertFromMultiReaderWriterWriteToReadLock`: read increment taken; about to release the write one. -/
  | toReadSub
  /-- A write increment remained; spins until the write mask is clear. -/
  | toReadWait
  deriving DecidableEq

namespace MrwPC

def hasRead : MrwPC → Bool
  | readWait | holdsRead | toWriteDec | toReadSub | toReadWait => true
  | _ => false

def hasWrite : MrwPC → Bool
  | writeUndo | holdsWrite | toWriteDec | toReadSub => true
  | _ => false

/-- The thread's share of `lockValue`. -/
def contrib (p : MrwPC) : Nat := 0x10000 * p.hasWrite.toNat + p.hasRead.toNat

/-- The control points that do not hold read access and cannot take it while a write increment is
present. -/
def passive : MrwPC → Bool
  | idle | readWait | writeTry | writeUndo | writeSpin | holdsWrite | toReadSub | toReadWait => true
  | _ => false

theorem contrib_le (p : MrwPC) : p.contrib ≤ 0x10001 := by
  cases p <;> decide

theorem passive_of {p : MrwPC} (hr : p.hasRead = false) : p.passive = true := by
  cases p <;> simp_all [hasRead, passive]

end MrwPC

open MrwPC in
/-- One atomic operation of a thread: `MrwStep p v p' v'`. The inner loop of
`ConvertFromMultiReaderWriterReadToWriteLock` (undo, spin on the read mask, fetch-add, test the read
mask) runs the same operations as the loop of `AcquireMultiReaderWriterWriteAccess`, and shares its
control points. -/
inductive MrwStep : MrwPC → Nat → MrwPC → Nat → Prop
  /-- `AcquireMultiReaderWriterReadAccess`. -/
  | readPass {v} : atomicIncrementU32 v &&& cWriteMask = 0 →
      MrwStep idle v holdsRead (atomicIncrementU32 v)
  | readBlocked {v} : atomicIncrementU32 v &&& cWriteMask ≠ 0 →
      MrwStep idle v readWait (atomicIncrementU32 v)
  | readWaitExit {v} : v &&& cWriteMask = 0 → MrwStep readWait v holdsRead v
  /-- `ReleaseMultiReaderWriterReadAccess`. -/
  | releaseRead {v} : MrwStep holdsRead v idle (atomicDecrementU32 v)
  /-- `AcquireMultiReaderWriterWriteAccess` is called. -/
  | writeCall {v} : MrwStep idle v writeTry v
  | writePass {v} : atomicAddU32 v cWriteIncrement &&& cReadMask = 0 →
      MrwStep writeTry v holdsWrite (atomicAddU32 v cWriteIncrement)
  | writeFail {v} : atomicAddU32 v cWriteIncrement &&& cReadMask ≠ 0 →
      MrwStep writeTry v writeUndo (atomicAddU32 v cWriteIncrement)
  | writeUndoSub {v} : MrwStep writeUndo v writeSpin (atomicSubtractU32 v cWriteIncrement)
  | writeSpinExit {v} : v &&& cReadMask = 0 → MrwStep writeSpin v writeTry v
  /-- `ReleaseMultiReaderWriterWriteAccess`. -/
  | releaseWrite {v} : MrwStep holdsWrite v idle (atomicSubtractU32 v cWriteIncrement)
  /-- `ConvertFromMultiReaderWriterReadToWriteLock`. -/
  | toWriteAdd {v} : MrwStep holdsRead v toWriteDec (atomicAddU32 v cWriteIncrement)
  | toWriteDecPass {v} : atomicDecrementU32 v &&& cReadMask = 0 →
      MrwStep toWriteDec v holdsWrite (atomicDecrementU32 v)
  | toWriteDecFail {v} : atomicDecrementU32 v &&& cReadMask ≠ 0 →
      MrwStep toWriteDec v writeUndo (atomicDecrementU32 v)
  /-- `ConvertFromMultiReaderWriterWriteToReadLock`. -/
  | toReadInc {v} : MrwStep holdsWrite v toReadSub (atomicIncrementU32 v)
  | toReadPass {v} : atomicSubtractU32 v cWriteIncrement &&& cWriteMask = 0 →
      MrwStep toReadSub v holdsRead (atomicSubtractU32 v cWriteIncrement)
  | toReadBlocked {v} : atomicSubtractU32 v cWriteIncrement &&& cWriteMask ≠ 0 →
      MrwStep toReadSub v toReadWait (atomicSubtractU32 v cWriteIncrement)
  | toReadWaitExit {v} : v &&& cWriteMask = 0 → MrwStep toReadWait v holdsRead v

namespace MrwStep

variable {p p' : MrwPC} {v v' : Nat}

theorem accounts (h : MrwStep p v p' v') (hv : v < 2 ^ 32) :
    v' < 2 ^ 32 ∧ (v + p'.contrib) % 2 ^ 32 = (v' + p.contrib) % 2 ^ 32 := by
  cases h <;> refine ⟨?_, ?_⟩ <;>
    (try simp only [MrwPC.contrib, MrwPC.hasRead, MrwPC.hasWrite, Bool.toNat_true, Bool.toNat_false,
      atomicIncrementU32, atomicDecrementU32, atomicAddU32, atomicSubtractU32, cWriteIncrement]) <;>
    omega

/-- A step that takes write access leaves no read increment in the word. -/
theorem holdsWrite_entry (h : MrwStep p v .holdsWrite v') : v' % 2 ^ 16 = 0 := by
  cases h <;> simp only [readMask_eq_zero] at * <;> assumption

theorem toReadSub_entry (h : MrwStep p v .toReadSub v') : p = .holdsWrite := by
  cases h; rfl

end MrwStep

/-- From a passive control point no step takes read access while a write increment is present. -/
theorem MrwPC.passive_step {p p' : MrwPC} {v v' : Nat} (h : MrwStep p v p' v') (hp : p.passive = true)
    (hw : p.contrib + 2 ^ 16 ≤ v) (hv : v ≤ p.contrib + (2 ^ 16 - 2) * 0x10001) :
    p'.passive = true := by
  cases h <;> simp only [contrib, hasRead, hasWrite, Bool.toNat_true, Bool.toNat_false] at hw hv <;>
    simp (disch := omega) only [passive, Bool.false_eq_true, atomicIncrementU32, atomicAddU32,
      atomicSubtractU32, cWriteIncrement, writeMask_eq_zero] at * <;> omega

section Invariant

variable {n : Nat}

theorem mrw_lockValue_total (hn : n < 2 ^ 16) {s : Threads MrwPC n}
    (hr : Threads.Reachable MrwStep .idle s) : s.lockValue = Threads.total MrwPC.contrib s :=
  Threads.lockValue_eq_total (fun _ _ _ _ h hv => MrwStep.accounts h hv) MrwPC.contrib_le
    (show MrwPC.idle.contrib = 0 from rfl) hn hr

theorem mrw_lockValue (hn : n < 2 ^ 16) {s : Threads MrwPC n} (hr : Threads.Reachable MrwStep .idle s) :
    s.lockValue = 0x10000 * Threads.count MrwPC.hasWrite s + Threads.count MrwPC.hasRead s := by
  rw [mrw_lockValue_total hn hr]
  exact Threads.total_increments _ _ s

/-- While a thread holds write access (or is converting it to read access), every other thread is
passive. -/
def MrwExclusive (s : Threads MrwPC n) : Prop :=
  ∀ i j, i ≠ j → (s.pc i = .holdsWrite ∨ s.pc i = .toReadSub) → (s.pc j).passive = true

theorem mrwExclusive_step (hn : n < 2 ^ 16) {s : Threads MrwPC n}
    (hr : Threads.Reachable MrwStep .idle s) (hs : MrwExclusive s) {i : Fin n} {p' : MrwPC} {v' : Nat}
    (h : MrwStep (s.pc i) s.lockValue p' v') : MrwExclusive ⟨v', Function.update s.pc i p'⟩ := by
  set s' : Threads MrwPC n := ⟨v', Function.update s.pc i p'⟩
  have hi' : s'.pc i = p' := Function.update_same _ _ _
  have hother : ∀ j, j ≠ i → s'.pc j = s.pc j := fun j hj => Function.update_noteq hj _ _
  intro a b hab ha
  by_cases hai : a = i
  · subst hai
    rw [hi'] at ha
    rcases ha with rfl | rfl
    · -- write access taken now: no read increment is left in the word
      have hacc' : v' = 0x10000 * Threads.count MrwPC.hasWrite s' + Threads.count MrwPC.hasRead s' :=
        mrw_lockValue hn (.step hr (.step s a h))
      have hR' := Threads.count_le MrwPC.hasRead s'
      have hR0 : Threads.count MrwPC.hasRead s' = 0 := by
        have := MrwStep.holdsWrite_entry h
        omega
      exact MrwPC.passive_of (Threads.count_eq_zero hR0 b)
    · rw [hother b (Ne.symm hab)]
      exact hs a b hab (Or.inl (MrwStep.toReadSub_entry h))
  · rw [hother a hai] at ha
    by_cases hbi : b = i
    · -- the stepping thread moves while `a` holds a write increment
      subst hbi
      rw [hi']
      have htot := Threads.total_eq MrwPC.contrib s b
      have hle := Threads.others_le MrwPC.contrib_le s b
      have hwa := Threads.le_others MrwPC.contrib s (show a ≠ b from hab)
      have hca : 0x10000 ≤ (s.pc a).contrib := by rcases ha with h' | h' <;> rw [h'] <;> decide
      have hbound : (n - 1) * 0x10001 ≤ (2 ^ 16 - 2) * 0x10001 := Nat.mul_le_mul_right _ (by omega)
      rw [← mrw_lockValue_total hn hr] at htot
      exact MrwPC.passive_step h (hs a b hab ha) (by omega) (by omega)
    · rw [hother b hbi]
      exact hs a b hab ha

/-- Readers and writers exclude each other under the multi-reader/writer discipline: in every
interleaving of fewer than `2^16` threads, no thread holds read access while another holds write
access, and `lockValue` counts `0x10000` per write increment and `1` per read increment. -/
theorem mrw_readers_excluded (hn : n < 2 ^ 16) {s : Threads MrwPC n}
    (hs : Threads.Reachable MrwStep .idle s) :
    (∀ i j, i ≠ j → s.pc i = .holdsWrite → s.pc j ≠ .holdsRead) ∧
    s.lockValue = 0x10000 * Threads.count MrwPC.hasWrite s + Threads.count MrwPC.hasRead s := by
  have hex : MrwExclusive s :=
    Threads.Reachable.induction (fun _ _ _ h => by simp [Threads.init] at h)
      (fun _ _ _ _ hr ih h => mrwExclusive_step hn hr ih h) hs
  refine ⟨fun i j hij hi hj => ?_, mrw_lockValue hn hs⟩
  have := hex i j hij (Or.inl hi)
  rw [hj] at this
  exact absurd this (by decide)

/-- Two threads: thread `1` holds read access, and the write fetch-add of thread `0` found it and is to be
undone. -/
def mrwWriterAfterReader : Threads MrwPC 2 := ⟨0x10001, fun i => if i = 0 then .writeUndo else .holdsRead⟩

theorem mrwWriterAfterReader_reachable : Threads.Reachable MrwStep .idle mrwWriterAfterReader := by
  have h1 := (Threads.Reachable.init (n := 2)).step (.step _ 1 (@MrwStep.readPass 0 (by decide)))
  have h2 := (h1.step (.step _ 0 (@MrwStep.writeCall 1))).step (.step _ 0 (MrwStep.writeFail (by decide)))
  convert h2 using 2
  funext k
  match k with
  | 0 | 1 => rfl

theorem mrw_readers_excluded_writer_after_reader :
    2 < 2 ^ 16 ∧ Threads.Reachable MrwStep .idle mrwWriterAfterReader ∧
      mrwWriterAfterReader.lockValue = 0x10000 * Threads.count MrwPC.hasWrite mrwWriterAfterReader +
        Threads.count MrwPC.hasRead mrwWriterAfterReader :=
  ⟨by decide, mrwWriterAfterReader_reachable,
    (mrw_readers_excluded (by decide) mrwWriterAfterReader_reachable).2⟩

end Invariant

/-- Two threads, both holding write access: each called `AcquireMultiReaderWriterWriteAccess`, and each
fetch-add (to `0x10000`, then to `0x20000`) found the read bits clear. -/
def mrwTwoWriters : Threads MrwPC 2 :=
  ⟨0x20000, fun _ => .holdsWrite⟩

/-- The writers are not exclusive: `mrwTwoWriters` is reachable. -/
theorem mrw_two_writers :
    Threads.Reachable MrwStep .idle mrwTwoWriters ∧ mrwTwoWriters.pc 0 = .holdsWrite ∧
      mrwTwoWriters.pc 1 = .holdsWrite := by
  refine ⟨?_, rfl, rfl⟩
  have h1 := Threads.Reachable.step (Threads.Reachable.init (n := 2)) (.step _ 0 (@MrwStep.writeCall 0))
  have h2 := Threads.Reachable.step h1 (.step _ 0 (MrwStep.writePass (by decide)))
  have h3 := Threads.Reachable.step h2 (.step _ 1 (@MrwStep.writeCall (atomicAddU32 0 cWriteIncrement)))
  have h4 := Threads.Reachable.step h3 (.step _ 1 (MrwStep.writePass (by decide)))
  convert h4 using 2
  funext k
  match k with
  | 0 | 1 => rfl

/-! ## Progress -/

section Progress

variable {n : Nat}

/-- The control points of the spin loops, where a thread moves only once the value it reads lets the loop
exit. -/
def MrwPC.spins : MrwPC → Bool
  | readWait | writeSpin | toReadWait => true
  | _ => false

theorem MrwPC.hasWrite_of_spins {p : MrwPC} (h : p.spins = true) : p.hasWrite = false := by
  cases p <;> simp_all [spins, hasWrite]

/-- Outside the spin loops a thread inside a call always has a step: each test it makes has a step for
either outcome. -/
theorem MrwStep.exists_of_not_spins {p : MrwPC} (hp : p ≠ .idle) (hs : p.spins = false) (v : Nat) :
    ∃ p' v', MrwStep p v p' v' := by
  cases p with
  | idle => exact absurd rfl hp
  | readWait | writeSpin | toReadWait => cases hs
  | holdsRead => exact ⟨_, _, .releaseRead⟩
  | writeTry =>
    by_cases h : atomicAddU32 v cWriteIncrement &&& cReadMask = 0
    exacts [⟨_, _, .writePass h⟩, ⟨_, _, .writeFail h⟩]
  | writeUndo => exact ⟨_, _, .writeUndoSub⟩
  | holdsWrite => exact ⟨_, _, .releaseWrite⟩
  | toWriteDec =>
    by_cases h : atomicDecrementU32 v &&& cReadMask = 0
    exacts [⟨_, _, .toWriteDecPass h⟩, ⟨_, _, .toWriteDecFail h⟩]
  | toReadSub =>
    by_cases h : atomicSubtractU32 v cWriteIncrement &&& cWriteMask = 0
    exacts [⟨_, _, .toReadPass h⟩, ⟨_, _, .toReadBlocked h⟩]

/-- A spin loop exits once the word holds no write increment and, unless the thread waits with its own
read increment in, nothing at all. -/
theorem MrwStep.exists_of_spins {p : MrwPC} (hs : p.spins = true) {v : Nat} (hw : v < 2 ^ 16)
    (hr : p.hasRead = false → v = 0) : ∃ p' v', MrwStep p v p' v' := by
  cases p with
  | readWait => exact ⟨_, _, .readWaitExit ((writeMask_eq_zero (by omega)).2 hw)⟩
  | writeSpin => exact ⟨_, _, .writeSpinExit (by rw [hr rfl]; decide)⟩
  | toReadWait => exact ⟨_, _, .toReadWaitExit ((writeMask_eq_zero (by omega)).2 hw)⟩
  | _ => cases hs

/-- The multi-reader/writer discipline never deadlocks: in every reachable state of fewer than `2^16`
threads in which a thread is inside a call, some thread inside a call has a step. Outside the spin loops
a thread always has one. When every thread inside a call spins, none holds a write increment, so the word
holds the read increments of the threads waiting for the write bits to clear, which stop waiting, or
nothing, and every loop exits. This is not freedom from starvation: the step can be another thread's,
and threads can retry forever. -/
theorem mrw_deadlock_free (hn : n < 2 ^ 16) {s : Threads MrwPC n} (hr : Threads.Reachable MrwStep .idle s)
    {i : Fin n} (hi : s.pc i ≠ .idle) : ∃ j, s.pc j ≠ .idle ∧ ∃ p' v', MrwStep (s.pc j) s.lockValue p' v' := by
  refine Threads.exists_step_of_spins (fun _ v hp hs => MrwStep.exists_of_not_spins hp hs v) fun hspin => ?_
  -- the spinning threads hold no write increment
  have hW : Threads.count MrwPC.hasWrite s = 0 := Threads.count_eq_zero_of fun j => by
    by_cases hj : s.pc j = .idle
    · rw [hj]; rfl
    · exact MrwPC.hasWrite_of_spins (hspin j hj)
  have hv := mrw_lockValue hn hr
  have hR := Threads.count_le MrwPC.hasRead s
  by_cases hrd : ∃ j, (s.pc j).hasRead = true
  · -- a reader waiting for the write bits, with no write increment left
    obtain ⟨j, hj⟩ := hrd
    have hjidle : s.pc j ≠ .idle := fun h => by rw [h] at hj; cases hj
    exact ⟨j, hjidle, MrwStep.exists_of_spins (hspin j hjidle) (by omega) fun h => absurd (h ▸ hj) (by decide)⟩
  · -- an empty word: every spin loop exits
    have hR0 : Threads.count MrwPC.hasRead s = 0 := Threads.count_eq_zero_of fun j => by
      simpa using fun h => hrd ⟨j, h⟩
    exact ⟨i, hi, MrwStep.exists_of_spins (hspin i hi) (by omega) fun _ => by omega⟩

theorem mrw_deadlock_free_writer_after_reader :
    2 < 2 ^ 16 ∧ Threads.Reachable MrwStep .idle mrwWriterAfterReader ∧ mrwWriterAfterReader.pc 0 ≠ .idle ∧
      ∃ j, mrwWriterAfterReader.pc j ≠ .idle ∧
        ∃ p' v', MrwStep (mrwWriterAfterReader.pc j) mrwWriterAfterReader.lockValue p' v' :=
  ⟨by decide, mrwWriterAfterReader_reachable, by decide,
    mrw_deadlock_free (by decide) mrwWriterAfterReader_reachable (i := 0) (by decide)⟩

end Progress

end PklE.CoreTypes
