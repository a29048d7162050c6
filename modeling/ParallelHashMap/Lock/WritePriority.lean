import ParallelHashMap.Lock.Word
import Mathlib.Data.Fin.VecNotation

/-!
# The write-priority discipline excludes writers

`AcquireWritePriorityReadOnlyAccess`, `AcquireWritePriorityReadAndWriteAccess`, their releases and the two
conversions (`spin_lock.cpp`, lines 182-334). A reader that meets a write increment backs its own out; a
writer that meets only readers keeps its increment and waits for them to leave.

A thread *claims* the lock when its fetch-add finds no other write increment, and keeps the claim until it
gives write access up. Claims are unique (`WpClaims`), and a thread that takes write access finds no read
increment in the word, so every other thread stays passive while it holds it. Hence at most one writer and
no reader beside it (`wp_mutual_exclusion`); while a thread holds its claim no other thread claims or takes
read access (`wp_writer_priority`); and the threads inside calls never all wait on each other
(`wp_deadlock_free`).
-/

namespace PklE.CoreTypes

/-- Where a thread is in the write-priority discipline's calls. `readTry` and `writeTry` are the tops of the
two acquire loops, the `Undo` states back an increment out, `readSpin`, `writeSpin` and the `Wait` states spin
on a mask, and the `toWrite` and `toRead` states are the two conversions. -/
inductive WpPC
  | idle | readTry | readUndo | readSpin | holdsRead
  | writeTry | writeUndo | writeSpin | writeWait | holdsWrite
  | toWriteDec | toWriteWait | toWriteUndoW | toWriteUndoR | toReadSub | toReadUndo
  deriving DecidableEq

namespace WpPC

def hasRead : WpPC → Bool
  | readUndo | holdsRead | toWriteDec | toWriteUndoW | toWriteUndoR | toReadSub | toReadUndo => true
  | _ => false

def hasWrite : WpPC → Bool
  | writeUndo | writeWait | holdsWrite | toWriteDec | toWriteWait | toWriteUndoW | toReadSub => true
  | _ => false

/-- The thread's share of `lockValue`. -/
def contrib (p : WpPC) : Nat := 0x10000 * p.hasWrite.toNat + p.hasRead.toNat

/-- The thread's write increment passed the "no other writer" check and is kept until it gives write
access up. -/
def claim : WpPC → Bool
  | writeWait | holdsWrite | toWriteDec | toWriteWait | toReadSub => true
  | _ => false

/-- The control points from which no step passes a check while another write increment is present. -/
def passive : WpPC → Bool
  | idle | readTry | readUndo | readSpin | writeTry | writeUndo | writeSpin => true
  | _ => false

theorem contrib_le (p : WpPC) : p.contrib ≤ 0x10001 := by
  cases p <;> decide

theorem hasWrite_of_claim {p : WpPC} (h : p.claim = true) : p.hasWrite = true := by
  cases p <;> simp_all [claim, hasWrite]

/-- A thread with no read increment and no claim is passive. -/
theorem passive_of {p : WpPC} (hr : p.hasRead = false) (hc : p.claim = false) : p.passive = true := by
  cases p <;> simp_all [hasRead, claim, passive]

end WpPC

open WpPC in
/-- One atomic operation of a thread: `WpStep p v p' v'`. The `read` steps run
`AcquireWritePriorityReadOnlyAccess`, the `write` steps `AcquireWritePriorityReadAndWriteAccess`, and the
`toWrite` and `toRead` steps the conversions. -/
inductive WpStep : WpPC → Nat → WpPC → Nat → Prop
  | readCall {v} : WpStep idle v readTry v
  | readPass {v} : atomicIncrementU32 v &&& cWriteMask = 0 →
      WpStep readTry v holdsRead (atomicIncrementU32 v)
  | readBlocked {v} : atomicIncrementU32 v &&& cWriteMask ≠ 0 →
      WpStep readTry v readUndo (atomicIncrementU32 v)
  | readUndoDec {v} : WpStep readUndo v readSpin (atomicDecrementU32 v)
  | readSpinExit {v} : v &&& cWriteMask = 0 → WpStep readSpin v readTry v
  | releaseRead {v} : WpStep holdsRead v idle (atomicDecrementU32 v)
  | writeCall {v} : WpStep idle v writeTry v
  | writePass {v} : atomicAddU32 v cWriteIncrement = cWriteIncrement →
      WpStep writeTry v holdsWrite (atomicAddU32 v cWriteIncrement)
  | writeOther {v} : atomicAddU32 v cWriteIncrement ≠ cWriteIncrement →
      cWriteIncrement < atomicAddU32 v cWriteIncrement &&& cWriteMask →
      WpStep writeTry v writeUndo (atomicAddU32 v cWriteIncrement)
  | writeReaders {v} : atomicAddU32 v cWriteIncrement ≠ cWriteIncrement →
      ¬ cWriteIncrement < atomicAddU32 v cWriteIncrement &&& cWriteMask →
      WpStep writeTry v writeWait (atomicAddU32 v cWriteIncrement)
  | writeUndoSub {v} : WpStep writeUndo v writeSpin (atomicSubtractU32 v cWriteIncrement)
  | writeSpinExit {v} : ¬ cWriteIncrement < v &&& cWriteMask → WpStep writeSpin v writeTry v
  | writeWaitExit {v} : v &&& cReadMask = 0 → WpStep writeWait v holdsWrite v
  | releaseWrite {v} : WpStep holdsWrite v idle (atomicSubtractU32 v cWriteIncrement)
  | toWriteFirst {v} : atomicAddU32 v cWriteIncrement &&& cWriteMask = cWriteIncrement →
      WpStep holdsRead v toWriteDec (atomicAddU32 v cWriteIncrement)
  | toWriteOther {v} : atomicAddU32 v cWriteIncrement &&& cWriteMask ≠ cWriteIncrement →
      WpStep holdsRead v toWriteUndoW (atomicAddU32 v cWriteIncrement)
  | toWriteDecPass {v} : atomicDecrementU32 v &&& cReadMask = 0 →
      WpStep toWriteDec v holdsWrite (atomicDecrementU32 v)
  | toWriteDecWait {v} : atomicDecrementU32 v &&& cReadMask ≠ 0 →
      WpStep toWriteDec v toWriteWait (atomicDecrementU32 v)
  | toWriteWaitExit {v} : v &&& cReadMask = 0 → WpStep toWriteWait v holdsWrite v
  | toWriteUndoWrite {v} : WpStep toWriteUndoW v toWriteUndoR (atomicSubtractU32 v cWriteIncrement)
  | toWriteUndoRead {v} : WpStep toWriteUndoR v writeTry (atomicDecrementU32 v)
  | toReadInc {v} : WpStep holdsWrite v toReadSub (atomicIncrementU32 v)
  | toReadPass {v} : atomicSubtractU32 v cWriteIncrement &&& cWriteMask = 0 →
      WpStep toReadSub v holdsRead (atomicSubtractU32 v cWriteIncrement)
  | toReadOther {v} : atomicSubtractU32 v cWriteIncrement &&& cWriteMask ≠ 0 →
      WpStep toReadSub v toReadUndo (atomicSubtractU32 v cWriteIncrement)
  | toReadUndoDec {v} : WpStep toReadUndo v readTry (atomicDecrementU32 v)

namespace WpStep

variable {p p' : WpPC} {v v' : Nat}

theorem accounts (h : WpStep p v p' v') (hv : v < 2 ^ 32) :
    v' < 2 ^ 32 ∧ (v + p'.contrib) % 2 ^ 32 = (v' + p.contrib) % 2 ^ 32 := by
  cases h <;> refine ⟨?_, ?_⟩ <;>
    (try simp only [WpPC.contrib, WpPC.hasRead, WpPC.hasWrite, Bool.toNat_true, Bool.toNat_false,
      atomicIncrementU32, atomicDecrementU32, atomicAddU32, atomicSubtractU32, cWriteIncrement]) <;>
    omega

/-- A step that makes a claim leaves exactly one write increment in the word. -/
theorem claim_entry (h : WpStep p v p' v') (hp : p.claim = false) (hp' : p'.claim = true)
    (hv : v ≤ p.contrib + (2 ^ 16 - 2) * 0x10001) : 2 ^ 16 ≤ v' ∧ v' < 2 ^ 17 := by
  cases h <;> simp (disch := omega) only [WpPC.claim, Bool.false_eq_true, Bool.true_eq_false, WpPC.contrib, WpPC.hasRead, WpPC.hasWrite,
    Bool.toNat_true, Bool.toNat_false, atomicAddU32, cWriteIncrement, writeMask_eq_increment,
    writeMask_gt_increment] at * <;> omega

/-- A step that takes write access leaves no read increment in the word. -/
theorem holdsWrite_entry (h : WpStep p v .holdsWrite v') : v' % 2 ^ 16 = 0 := by
  cases h <;> simp only [readMask_eq_zero, atomicAddU32, atomicDecrementU32, atomicSubtractU32,
    cWriteIncrement] at * <;> omega

theorem toReadSub_entry (h : WpStep p v .toReadSub v') : p = .holdsWrite := by
  cases h; rfl

end WpStep

/-- From a passive control point no step passes a check while a write increment is present. -/
theorem WpPC.passive_step {p p' : WpPC} {v v' : Nat} (h : WpStep p v p' v') (hp : p.passive = true)
    (hw : 2 ^ 16 ≤ v) (hv : v ≤ p.contrib + (2 ^ 16 - 2) * 0x10001) : p'.passive = true := by
  cases h <;> simp (disch := omega) only [passive, Bool.false_eq_true, contrib, hasRead, hasWrite, Bool.toNat_false,
    atomicIncrementU32, atomicAddU32, cWriteIncrement, writeMask_eq_zero, writeMask_gt_increment] at * <;>
    omega

section Invariant

variable {n : Nat}

theorem wp_lockValue_total (hn : n < 2 ^ 16) {s : Threads WpPC n}
    (hr : Threads.Reachable WpStep .idle s) : s.lockValue = Threads.total WpPC.contrib s :=
  Threads.lockValue_eq_total (fun _ _ _ _ h hv => WpStep.accounts h hv) WpPC.contrib_le
    (show WpPC.idle.contrib = 0 from rfl) hn hr

/-- `lockValue` counts `0x10000` per write increment and `1` per read increment. -/
theorem wp_lockValue (hn : n < 2 ^ 16) {s : Threads WpPC n} (hr : Threads.Reachable WpStep .idle s) :
    s.lockValue = 0x10000 * Threads.count WpPC.hasWrite s + Threads.count WpPC.hasRead s := by
  rw [wp_lockValue_total hn hr]
  exact Threads.total_increments _ _ s

/-- At most one thread holds a claim, and while a thread holds write access (or is converting it to
read access) every other thread is passive. -/
structure WpClaims (s : Threads WpPC n) : Prop where
  unique : Threads.count WpPC.claim s ≤ 1
  exclusive : ∀ i j, i ≠ j → (s.pc i = .holdsWrite ∨ s.pc i = .toReadSub) → (s.pc j).passive = true

theorem wpClaims_init : WpClaims (Threads.init (n := n) WpPC.idle) := by
  refine ⟨?_, fun _ _ _ h => by simp [Threads.init] at h⟩
  simp [Threads.count, Threads.init, WpPC.claim]

theorem wpClaims_step (hn : n < 2 ^ 16) {s : Threads WpPC n} (hr : Threads.Reachable WpStep .idle s)
    (hs : WpClaims s) {i : Fin n} {p' : WpPC} {v' : Nat} (h : WpStep (s.pc i) s.lockValue p' v') :
    WpClaims ⟨v', Function.update s.pc i p'⟩ := by
  set s' : Threads WpPC n := ⟨v', Function.update s.pc i p'⟩
  have hr' : Threads.Reachable WpStep .idle s' := .step hr (.step s i h)
  have hacc := wp_lockValue hn hr
  have hacc' : v' = _ := wp_lockValue hn hr'
  have hR' := Threads.count_le WpPC.hasRead s'
  have hv : s.lockValue < 2 ^ 32 := by
    have := Threads.count_le WpPC.hasRead s
    have := Threads.count_le WpPC.hasWrite s
    omega
  have hbound : (n - 1) * 0x10001 ≤ (2 ^ 16 - 2) * 0x10001 := Nat.mul_le_mul_right _ (by omega)
  have hvi : s.lockValue ≤ (s.pc i).contrib + (2 ^ 16 - 2) * 0x10001 := by
    have htot := Threads.total_eq WpPC.contrib s i
    have hle := Threads.others_le WpPC.contrib_le s i
    rw [wp_lockValue_total hn hr]; omega
  have hi' : s'.pc i = p' := Function.update_same _ _ _
  have hother : ∀ j, j ≠ i → s'.pc j = s.pc j := fun j hj => Function.update_noteq hj _ _
  -- a step that makes a claim leaves one write increment, so at most one claim
  have hfresh : (s.pc i).claim = false → p'.claim = true → Threads.count WpPC.claim s' ≤ 1 := by
    intro h0 h1
    have := WpStep.claim_entry h h0 h1 hvi
    have hm : Threads.count WpPC.claim s' ≤ Threads.count WpPC.hasWrite s' :=
      Threads.count_mono (fun _ => WpPC.hasWrite_of_claim) s'
    omega
  have hunique : Threads.count WpPC.claim s' ≤ 1 := by
    cases h0 : (s.pc i).claim <;> cases h1 : p'.claim
    all_goals first
      | exact hfresh h0 h1
      | refine (Threads.count_le_of fun k hk => ?_).trans hs.unique
        by_cases hki : k = i
        · subst hki; rw [hi'] at hk; simp_all
        · rwa [hother k hki] at hk
  refine ⟨hunique, fun a b hab ha => ?_⟩
  by_cases hai : a = i
  · subst hai
    rw [hi'] at ha
    rcases ha with rfl | rfl
    · -- write access taken now: no read increment is left, and `a` holds the only claim
      have hR0 : Threads.count WpPC.hasRead s' = 0 := by
        have := WpStep.holdsWrite_entry h
        omega
      have hb := Threads.count_le_one hunique (show (s'.pc a).claim = true by rw [hi']; rfl)
        (Ne.symm hab)
      exact WpPC.passive_of (Threads.count_eq_zero hR0 b) hb
    · -- `toReadSub` is entered only from `holdsWrite`, and the others do not move
      rw [hother b (Ne.symm hab)]
      exact hs.exclusive a b hab (Or.inl (WpStep.toReadSub_entry h))
  · rw [hother a hai] at ha
    by_cases hbi : b = i
    · -- the stepping thread moves while `a` holds a write increment
      subst hbi
      rw [hi']
      have htot := Threads.total_eq WpPC.contrib s b
      have hle := Threads.others_le WpPC.contrib_le s b
      have hwa := Threads.le_others WpPC.contrib s (show a ≠ b from hab)
      have hca : 0x10000 ≤ (s.pc a).contrib := by rcases ha with h' | h' <;> rw [h'] <;> decide
      rw [← wp_lockValue_total hn hr] at htot
      exact WpPC.passive_step h (hs.exclusive a b hab ha) (by omega) (by omega)
    · rw [hother b hbi]
      exact hs.exclusive a b hab ha

/-- Mutual exclusion for the write-priority discipline: in every interleaving of fewer than `2^16`
threads, at most one thread holds write access, no thread holds read access while another holds write
access, and `lockValue` counts `0x10000` per outstanding write increment and `1` per outstanding read
increment. -/
theorem wp_mutual_exclusion (hn : n < 2 ^ 16) {s : Threads WpPC n}
    (hs : Threads.Reachable WpStep .idle s) :
    (∀ i j, i ≠ j → s.pc i = .holdsWrite → s.pc j ≠ .holdsWrite ∧ s.pc j ≠ .holdsRead) ∧
    s.lockValue = 0x10000 * Threads.count WpPC.hasWrite s + Threads.count WpPC.hasRead s := by
  have hc : WpClaims s :=
    Threads.Reachable.induction wpClaims_init (fun _ _ _ _ hr ih h => wpClaims_step hn hr ih h) hs
  refine ⟨fun i j hij hi => ?_, wp_lockValue hn hs⟩
  have := hc.exclusive i j hij (Or.inl hi)
  constructor <;> intro hj <;> simp [hj, WpPC.passive] at this

/-- Two threads, thread `0` holding write access after `AcquireWritePriorityReadAndWriteAccess`. -/
def wpOneWriter : Threads WpPC 2 := ⟨0x10000, fun i => if i = 0 then .holdsWrite else .idle⟩

theorem wpOneWriter_reachable : Threads.Reachable WpStep .idle wpOneWriter := by
  have h := ((Threads.Reachable.init (n := 2)).step (.step _ 0 (@WpStep.writeCall 0))).step
    (.step _ 0 (WpStep.writePass rfl))
  convert h using 2
  funext k
  match k with
  | 0 | 1 => rfl

theorem wp_mutual_exclusion_one_writer :
    2 < 2 ^ 16 ∧ Threads.Reachable WpStep .idle wpOneWriter ∧
      (wpOneWriter.pc 1 ≠ .holdsWrite ∧ wpOneWriter.pc 1 ≠ .holdsRead) :=
  ⟨by decide, wpOneWriter_reachable,
    (wp_mutual_exclusion (by decide) wpOneWriter_reachable).1 0 1 (by decide) rfl⟩

end Invariant

/-! ## Write priority -/

section WriterPriority

variable {n : Nat}

theorem WpClaims.of_reachable (hn : n < 2 ^ 16) {s : Threads WpPC n} (hr : Threads.Reachable WpStep .idle s) :
    WpClaims s :=
  Threads.Reachable.induction wpClaims_init (fun _ _ _ _ hr ih h => wpClaims_step hn hr ih h) hr

/-- In a reachable state `lockValue` holds thread `w`'s increments, and leaves room for thread `i`'s. -/
theorem wp_lockValue_around (hn : n < 2 ^ 16) {s : Threads WpPC n} (hr : Threads.Reachable WpStep .idle s)
    {i w : Fin n} (hw : w ≠ i) :
    (s.pc w).contrib ≤ s.lockValue ∧ s.lockValue ≤ (s.pc i).contrib + (2 ^ 16 - 2) * 0x10001 := by
  have htot := Threads.total_eq WpPC.contrib s i
  have hle := Threads.others_le WpPC.contrib_le s i
  have hwi := Threads.le_others WpPC.contrib s hw
  have hbound : (n - 1) * 0x10001 ≤ (2 ^ 16 - 2) * 0x10001 := Nat.mul_le_mul_right _ (by omega)
  rw [wp_lockValue_total hn hr]
  omega

/-- While thread `w` holds a claim no other thread takes read access: `readPass` finds `w`'s write
increment in the word, and the conversions that end in read access start from a claim, which only `w`
holds. -/
theorem WpStep.not_holdsRead_of_claim (hn : n < 2 ^ 16) {s : Threads WpPC n}
    (hr : Threads.Reachable WpStep .idle s) {w i : Fin n} (hw : (s.pc w).claim = true) (hi : i ≠ w) {v' : Nat}
    (h : WpStep (s.pc i) s.lockValue .holdsRead v') : False := by
  have hclaim : (s.pc i).claim = false := Threads.count_le_one (WpClaims.of_reachable hn hr).unique hw hi
  have hcw : 0x10000 ≤ (s.pc w).contrib := by simp [WpPC.contrib, WpPC.hasWrite_of_claim hw]
  obtain ⟨hwv, hiv⟩ := wp_lockValue_around hn hr hi.symm
  generalize s.pc i = p at h hclaim hiv
  generalize s.lockValue = v at h hwv hiv
  cases h with
  | readPass hpass =>
    simp (disch := omega) only [atomicIncrementU32, atomicAddU32, writeMask_eq_zero] at hpass
    simp only [WpPC.contrib, WpPC.hasRead, WpPC.hasWrite, Bool.toNat_false] at hiv
    omega
  | toReadPass _ => cases hclaim

/-- A step of the threads after which thread `w` still holds a claim. -/
def WpClaimStep (w : Fin n) (s s' : Threads WpPC n) : Prop :=
  Threads.Step WpStep s s' ∧ (s'.pc w).claim = true

/-- Write priority: from a reachable state in which thread `w` holds a claim (its fetch-add found no other
write increment, and it has not given write access up), along every interleaving in which `w` keeps it,
no other thread claims and no other thread takes read access. A thread other than `w` that holds read
access at the end held it at the start: readers only leave until the writer is done. -/
theorem wp_writer_priority (hn : n < 2 ^ 16) {s s' : Threads WpPC n} (hr : Threads.Reachable WpStep .idle s)
    {w : Fin n} (hw : (s.pc w).claim = true) (hrun : Relation.ReflTransGen (WpClaimStep w) s s') :
    ∀ j, j ≠ w → (s'.pc j).claim = false ∧ (s'.pc j = .holdsRead → s.pc j = .holdsRead) := by
  -- along the run: the state is reachable, `w` claims, and no other thread has come to hold read access
  have hinv : Threads.Reachable WpStep .idle s' ∧ (s'.pc w).claim = true ∧
      ∀ j, j ≠ w → s'.pc j = .holdsRead → s.pc j = .holdsRead := by
    induction hrun with
    | refl => exact ⟨hr, hw, fun _ _ h => h⟩
    | tail _ hstep ih =>
      obtain ⟨hstep, hclaim⟩ := hstep
      obtain ⟨hrb, hwb, hback⟩ := ih
      refine ⟨hrb.step hstep, hclaim, fun j hj hread => ?_⟩
      cases hstep with
      | step i h =>
        by_cases hji : j = i
        · subst hji
          simp only [Function.update_same] at hread
          exact (WpStep.not_holdsRead_of_claim hn hrb hwb hj (hread ▸ h)).elim
        · exact hback j hj (by simpa only [Function.update_noteq hji] using hread)
  obtain ⟨hr', hw', hback⟩ := hinv
  exact fun j hj => ⟨Threads.count_le_one (WpClaims.of_reachable hn hr').unique hw' hj, hback j hj⟩

/-- Three threads: thread `1` holds read access, and thread `0` has added its write increment and waits
for it to leave. -/
def wpWriterWaits : Threads WpPC 3 := ⟨0x10001, ![.writeWait, .holdsRead, .idle]⟩

theorem wpWriterWaits_reachable : Threads.Reachable WpStep .idle wpWriterWaits :=
  have h1 : Threads.Reachable WpStep .idle (⟨0, ![.idle, .readTry, .idle]⟩ : Threads WpPC 3) :=
    .step .init (.of_frame 1 .readCall (by decide))
  have h2 : Threads.Reachable WpStep .idle (⟨1, ![.idle, .holdsRead, .idle]⟩ : Threads WpPC 3) :=
    .step h1 (.of_frame 1 (.readPass (by decide)) (by decide))
  have h3 : Threads.Reachable WpStep .idle (⟨1, ![.writeTry, .holdsRead, .idle]⟩ : Threads WpPC 3) :=
    .step h2 (.of_frame 0 .writeCall (by decide))
  .step h3 (.of_frame 0 (.writeReaders (by decide) (by decide)) (by decide))

/-- Thread `2` has since called `AcquireWritePriorityReadOnlyAccess`, met the write increment, backed its
own increment out, and spins. -/
def wpReaderSpins : Threads WpPC 3 := ⟨0x10001, ![.writeWait, .holdsRead, .readSpin]⟩

theorem wp_writer_priority_readerSpins :
    Relation.ReflTransGen (WpClaimStep 0) wpWriterWaits wpReaderSpins ∧
      ((wpReaderSpins.pc 2).claim = false ∧ (wpReaderSpins.pc 2 = .holdsRead → wpWriterWaits.pc 2 = .holdsRead)) :=
  have h1 : WpClaimStep 0 wpWriterWaits ⟨0x10001, ![.writeWait, .holdsRead, .readTry]⟩ :=
    ⟨.of_frame 2 .readCall (by decide), rfl⟩
  have h2 : WpClaimStep 0 ⟨0x10001, ![.writeWait, .holdsRead, .readTry]⟩
      ⟨0x10002, ![.writeWait, .holdsRead, .readUndo]⟩ :=
    ⟨.of_frame 2 (.readBlocked (by decide)) (by decide), rfl⟩
  have h3 : WpClaimStep 0 ⟨0x10002, ![.writeWait, .holdsRead, .readUndo]⟩ wpReaderSpins :=
    ⟨.of_frame 2 .readUndoDec (by decide), rfl⟩
  have hrun : Relation.ReflTransGen (WpClaimStep 0) wpWriterWaits wpReaderSpins := .tail (.tail (.single h1) h2) h3
  ⟨hrun, wp_writer_priority (by decide) wpWriterWaits_reachable (w := 0) rfl hrun 2 (by decide)⟩

end WriterPriority

/-! ## Progress -/

section Progress

variable {n : Nat}

/-- The control points of the spin loops, where a thread moves only once the value it reads lets the loop
exit. -/
def WpPC.spins : WpPC → Bool
  | readSpin | writeSpin | writeWait | toWriteWait => true
  | _ => false

theorem WpPC.hasRead_of_spins {p : WpPC} (h : p.spins = true) : p.hasRead = false := by
  cases p <;> simp_all [spins, hasRead]

/-- Outside the spin loops a thread inside a call always has a step: each test it makes has a step for
either outcome. -/
theorem WpStep.exists_of_not_spins {p : WpPC} (hp : p ≠ .idle) (hs : p.spins = false) (v : Nat) :
    ∃ p' v', WpStep p v p' v' := by
  cases p with
  | idle => exact absurd rfl hp
  | readSpin | writeSpin | writeWait | toWriteWait => cases hs
  | readTry =>
    by_cases h : atomicIncrementU32 v &&& cWriteMask = 0
    exacts [⟨_, _, .readPass h⟩, ⟨_, _, .readBlocked h⟩]
  | readUndo => exact ⟨_, _, .readUndoDec⟩
  | holdsRead => exact ⟨_, _, .releaseRead⟩
  | writeTry =>
    by_cases h1 : atomicAddU32 v cWriteIncrement = cWriteIncrement
    · exact ⟨_, _, .writePass h1⟩
    by_cases h2 : cWriteIncrement < atomicAddU32 v cWriteIncrement &&& cWriteMask
    exacts [⟨_, _, .writeOther h1 h2⟩, ⟨_, _, .writeReaders h1 h2⟩]
  | writeUndo => exact ⟨_, _, .writeUndoSub⟩
  | holdsWrite => exact ⟨_, _, .releaseWrite⟩
  | toWriteDec =>
    by_cases h : atomicDecrementU32 v &&& cReadMask = 0
    exacts [⟨_, _, .toWriteDecPass h⟩, ⟨_, _, .toWriteDecWait h⟩]
  | toWriteUndoW => exact ⟨_, _, .toWriteUndoWrite⟩
  | toWriteUndoR => exact ⟨_, _, .toWriteUndoRead⟩
  | toReadSub =>
    by_cases h : atomicSubtractU32 v cWriteIncrement &&& cWriteMask = 0
    exacts [⟨_, _, .toReadPass h⟩, ⟨_, _, .toReadOther h⟩]
  | toReadUndo => exact ⟨_, _, .toReadUndoDec⟩

/-- A spin loop exits once the word holds no read increment and, unless the thread waits for readers
with its own write increment in, nothing at all. -/
theorem WpStep.exists_of_spins {p : WpPC} (hs : p.spins = true) {v : Nat} (hr : v % 2 ^ 16 = 0)
    (hw : p.hasWrite = false → v = 0) : ∃ p' v', WpStep p v p' v' := by
  cases p with
  | readSpin => exact ⟨_, _, .readSpinExit (by rw [hw rfl]; decide)⟩
  | writeSpin => exact ⟨_, _, .writeSpinExit (by rw [hw rfl]; decide)⟩
  | writeWait => exact ⟨_, _, .writeWaitExit ((readMask_eq_zero v).2 hr)⟩
  | toWriteWait => exact ⟨_, _, .toWriteWaitExit ((readMask_eq_zero v).2 hr)⟩
  | _ => cases hs

/-- The write-priority discipline never deadlocks: in every reachable state of fewer than `2^16` threads
in which a thread is inside a call, some thread inside a call has a step. Outside the spin loops a thread
always has one. When every thread inside a call spins, none holds a read increment, so the word holds the
write increments of the threads waiting for readers, which stop waiting, or nothing, and every loop
exits. This is not freedom from starvation: the step can be another thread's, and threads can retry
forever. -/
theorem wp_deadlock_free (hn : n < 2 ^ 16) {s : Threads WpPC n} (hr : Threads.Reachable WpStep .idle s)
    {i : Fin n} (hi : s.pc i ≠ .idle) : ∃ j, s.pc j ≠ .idle ∧ ∃ p' v', WpStep (s.pc j) s.lockValue p' v' := by
  refine Threads.exists_step_of_spins (fun _ v hp hs => WpStep.exists_of_not_spins hp hs v) fun hspin => ?_
  -- the spinning threads hold no read increment
  have hR : Threads.count WpPC.hasRead s = 0 := Threads.count_eq_zero_of fun j => by
    by_cases hj : s.pc j = .idle
    · rw [hj]; rfl
    · exact WpPC.hasRead_of_spins (hspin j hj)
  have hv := wp_lockValue hn hr
  by_cases hw : ∃ j, (s.pc j).hasWrite = true
  · -- a thread waiting for readers, with no reader left
    obtain ⟨j, hj⟩ := hw
    have hjidle : s.pc j ≠ .idle := fun h => by rw [h] at hj; cases hj
    exact ⟨j, hjidle, WpStep.exists_of_spins (hspin j hjidle) (by omega) fun h => absurd (h ▸ hj) (by decide)⟩
  · -- an empty word: every spin loop exits
    have hW : Threads.count WpPC.hasWrite s = 0 := Threads.count_eq_zero_of fun j => by
      simpa using fun h => hw ⟨j, h⟩
    exact ⟨i, hi, WpStep.exists_of_spins (hspin i hi) (by omega) fun _ => by omega⟩

theorem wp_deadlock_free_writerWaits :
    2 < 2 ^ 16 ∧ Threads.Reachable WpStep .idle wpWriterWaits ∧ wpWriterWaits.pc 0 ≠ .idle ∧
      ∃ j, wpWriterWaits.pc j ≠ .idle ∧ ∃ p' v', WpStep (wpWriterWaits.pc j) wpWriterWaits.lockValue p' v' :=
  ⟨by decide, wpWriterWaits_reachable, by decide,
    wp_deadlock_free (by decide) wpWriterWaits_reachable (i := 0) (by decide)⟩

end Progress

end PklE.CoreTypes
