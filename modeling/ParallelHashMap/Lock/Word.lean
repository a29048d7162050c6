import Mathlib.Algebra.BigOperators.Ring
import Mathlib.Algebra.Order.BigOperators.Group.Finset
import Mathlib.Data.Fintype.Card
import Mathlib.Data.Nat.Bitwise
import Mathlib.Data.Finmap

/-!
# The counting spinlock's word and the threads that share it

`CountingSpinlock` keeps all of its state in one `uint32_t`, `lockValue`. Each of its three disciplines
adds `1` for a reader and `c_multiReaderWriter_WriteIncrement = 0x10000` for a writer, and decides what to
do by masking the value its fetch-add returns: the low half (`c_multiReaderWriter_ReadMask`) counts
readers, the high half (`c_multiReaderWriter_WriteMask`) writers.

This file gives the 32-bit arithmetic of the atomic helpers, which return the new value
(`atomicAddU32`, `atomicSubtractU32`), the two masks read as arithmetic (`and_readMask`,
`and_writeMask`), and the system of `n` threads shared by the three disciplines: each thread sits at a
control point of a type `PC`, and one thread moves at a time (`Threads.Step`).

`lockValue_eq_total` is the accounting argument, made once for all disciplines. When every step of a
thread changes `lockValue` by exactly the change in that thread's own increments, `lockValue` is the sum
of the increments that all threads hold, and with fewer than `2^16` threads it never wraps.

`exists_step_of_spins` is the half of each discipline's deadlock freedom that does not depend on the
discipline: outside its spin loops a thread inside a call always has a step.
-/

namespace PklE.CoreTypes

/-! ## The word -/

/-- `c_multiReaderWriter_WriteIncrement`. -/
def cWriteIncrement : Nat := 0x10000

/-- `c_multiReaderWriter_WriteMask`. -/
def cWriteMask : Nat := 0xFFFF0000

/-- `c_multiReaderWriter_ReadMask`. -/
def cReadMask : Nat := 0x0000FFFF

/-- `Util::AtomicAddU32`: the new value of the `uint32_t` after the addition. -/
def atomicAddU32 (value addend : Nat) : Nat := (value + addend) % 2 ^ 32

/-- `Util::AtomicSubtractU32`: the new value of the `uint32_t` after the subtraction. -/
def atomicSubtractU32 (value subtrahend : Nat) : Nat :=
  (value + (2 ^ 32 - subtrahend % 2 ^ 32)) % 2 ^ 32

/-- `Util::AtomicIncrementU32`. -/
def atomicIncrementU32 (value : Nat) : Nat := atomicAddU32 value 1

/-- `Util::AtomicDecrementU32`. -/
def atomicDecrementU32 (value : Nat) : Nat := atomicSubtractU32 value 1

theorem and_readMask (x : Nat) : x &&& cReadMask = x % 2 ^ 16 :=
  Nat.and_pow_two_sub_one_eq_mod x 16

theorem and_writeMask {x : Nat} (hx : x < 2 ^ 32) : x &&& cWriteMask = 2 ^ 16 * (x / 2 ^ 16) := by
  have hmask : cWriteMask = 2 ^ 16 * (2 ^ 16 - 1) := rfl
  apply Nat.eq_of_testBit_eq
  intro j
  rw [hmask, Nat.testBit_and, Nat.testBit_mul_pow_two, Nat.testBit_mul_pow_two,
    Nat.testBit_two_pow_sub_one, ← Nat.shiftRight_eq_div_pow, Nat.testBit_shiftRight]
  by_cases hj : 16 ≤ j
  · by_cases hj' : j < 32
    · simp [hj, hj', show 16 + (j - 16) = j by omega, show j - 16 < 16 by omega]
    · have : x < 2 ^ j := lt_of_lt_of_le hx (Nat.pow_le_pow_right (by decide) (by omega))
      simp [hj, show ¬ j - 16 < 16 by omega, show 16 + (j - 16) = j by omega,
        Nat.testBit_lt_two_pow this]
  · simp [hj]

/-- The readings of the two masks that the disciplines branch on. -/
theorem writeMask_eq_zero {x : Nat} (hx : x < 2 ^ 32) : x &&& cWriteMask = 0 ↔ x < 2 ^ 16 := by
  rw [and_writeMask hx]; omega

theorem writeMask_eq_increment {x : Nat} (hx : x < 2 ^ 32) :
    x &&& cWriteMask = 0x10000 ↔ 2 ^ 16 ≤ x ∧ x < 2 ^ 17 := by
  rw [and_writeMask hx]; omega

theorem writeMask_gt_increment {x : Nat} (hx : x < 2 ^ 32) : 0x10000 < x &&& cWriteMask ↔ 2 ^ 17 ≤ x := by
  rw [and_writeMask hx]; omega

theorem readMask_eq_zero (x : Nat) : x &&& cReadMask = 0 ↔ x % 2 ^ 16 = 0 := by
  rw [and_readMask]

theorem atomicAddU32_lt (v d : Nat) : atomicAddU32 v d < 2 ^ 32 := Nat.mod_lt _ (by decide)

theorem atomicSubtractU32_lt (v d : Nat) : atomicSubtractU32 v d < 2 ^ 32 := Nat.mod_lt _ (by decide)

/-! ## Threads -/

/-- `n` threads sharing one `lockValue`; thread `i` is at control point `pc i`. -/
structure Threads (PC : Type) (n : Nat) where
  lockValue : Nat
  pc : Fin n → PC

namespace Threads

variable {PC : Type} {n : Nat}

/-- The state in which no thread is in a call and `lockValue` is `0`. -/
def init (idle : PC) : Threads PC n := ⟨0, fun _ => idle⟩

/-- One atomic step of one thread. `T p v p' v'`: a thread at `p` that finds `lockValue = v` moves to
`p'` and leaves `v'`. A spin loop is a step that is enabled only when the value it reads lets the loop
exit; the iterations that read a value and go round again change nothing. -/
inductive Step (T : PC → Nat → PC → Nat → Prop) : Threads PC n → Threads PC n → Prop
  | step (s : Threads PC n) (i : Fin n) {p' : PC} {v' : Nat} :
      T (s.pc i) s.lockValue p' v' → Step T s ⟨v', Function.update s.pc i p'⟩

/-- A step given by what it does: thread `i` moves from `s.pc i` to `s'.pc i`, and no other thread moves. -/
theorem Step.of_frame {T : PC → Nat → PC → Nat → Prop} {s s' : Threads PC n} (i : Fin n)
    (h : T (s.pc i) s.lockValue (s'.pc i) s'.lockValue) (hframe : ∀ j, j ≠ i → s'.pc j = s.pc j) :
    Step T s s' := by
  have hs' : s' = ⟨s'.lockValue, Function.update s.pc i (s'.pc i)⟩ := by
    cases s'
    congr
    funext j
    by_cases hj : j = i
    · subst hj; simp
    · rw [Function.update_noteq hj]; exact hframe j hj
  rw [hs']
  exact .step s i h

/-- Deadlock freedom, argued once for all disciplines: a thread inside a call and outside the spin loops
always has a step, so it is enough that some thread has one when every thread inside a call spins. -/
theorem exists_step_of_spins {T : PC → Nat → PC → Nat → Prop} {idle : PC} {spins : PC → Bool}
    (hmove : ∀ p v, p ≠ idle → spins p = false → ∃ p' v', T p v p' v') {s : Threads PC n}
    (hspin : (∀ j, s.pc j ≠ idle → spins (s.pc j) = true) →
      ∃ j, s.pc j ≠ idle ∧ ∃ p' v', T (s.pc j) s.lockValue p' v') :
    ∃ j, s.pc j ≠ idle ∧ ∃ p' v', T (s.pc j) s.lockValue p' v' := by
  by_cases h : ∃ j, s.pc j ≠ idle ∧ spins (s.pc j) = false
  · obtain ⟨j, hj, hs⟩ := h
    exact ⟨j, hj, hmove _ _ hj hs⟩
  · refine hspin fun j hj => ?_
    cases hs : spins (s.pc j)
    exacts [absurd ⟨j, hj, hs⟩ h, rfl]

/-- The states that some interleaving reaches from `init idle`. -/
inductive Reachable (T : PC → Nat → PC → Nat → Prop) (idle : PC) : Threads PC n → Prop
  | init : Reachable T idle (init idle)
  | step {s s' : Threads PC n} : Reachable T idle s → Step T s s' → Reachable T idle s'

/-- A property that holds initially and that every step keeps holds in every reachable state. -/
@[elab_as_elim]
theorem Reachable.induction {T : PC → Nat → PC → Nat → Prop} {idle : PC} {I : Threads PC n → Prop}
    (h0 : I (Threads.init idle))
    (hstep : ∀ s i p' v', Reachable T idle s → I s → T (s.pc i) s.lockValue p' v' →
      I ⟨v', Function.update s.pc i p'⟩)
    {s : Threads PC n} (hs : Reachable T idle s) : I s := by
  induction hs with
  | init => exact h0
  | step hr hst ih =>
    cases hst with
    | step i h => exact hstep _ i _ _ hr ih h

/-! ## Accounting -/

section Accounting

variable (contrib : PC → Nat)

/-- The sum of the increments the threads hold. -/
def total (s : Threads PC n) : Nat := ∑ i, contrib (s.pc i)

/-- The increments of every thread but `i`. -/
def others (s : Threads PC n) (i : Fin n) : Nat := ∑ j ∈ Finset.univ.erase i, contrib (s.pc j)

theorem total_eq (s : Threads PC n) (i : Fin n) : total contrib s = contrib (s.pc i) + others contrib s i :=
  (Finset.add_sum_erase _ _ (Finset.mem_univ i)).symm

theorem others_update (s : Threads PC n) (i : Fin n) (v' : Nat) (p' : PC) :
    others contrib ⟨v', Function.update s.pc i p'⟩ i = others contrib s i :=
  Finset.sum_congr rfl fun j hj => by
    simp only [Function.update_noteq (Finset.ne_of_mem_erase hj)]

theorem le_others (s : Threads PC n) {i j : Fin n} (h : j ≠ i) : contrib (s.pc j) ≤ others contrib s i :=
  Finset.single_le_sum (fun k _ => Nat.zero_le (contrib (s.pc k)))
    (Finset.mem_erase.2 ⟨h, Finset.mem_univ j⟩)

theorem others_eq_zero {s : Threads PC n} {i : Fin n} (h : others contrib s i = 0) {j : Fin n}
    (hj : j ≠ i) : contrib (s.pc j) = 0 :=
  Nat.eq_zero_of_le_zero (h ▸ le_others contrib s hj)

variable {contrib}

theorem others_le {c : Nat} (hc : ∀ p, contrib p ≤ c) (s : Threads PC n) (i : Fin n) :
    others contrib s i ≤ (n - 1) * c := by
  have h := Finset.sum_le_card_nsmul (Finset.univ.erase i) (fun j => contrib (s.pc j)) c
    (fun j _ => hc _)
  rw [Finset.card_erase_of_mem (Finset.mem_univ i), Finset.card_univ, Fintype.card_fin] at h
  simpa using h

variable {T : PC → Nat → PC → Nat → Prop} {idle : PC}

/-- The accounting argument: a thread step that moves `lockValue` by the change of its own increments
(modulo `2^32`) keeps `lockValue` equal to the sum of the increments, when no thread holds more than
`0x10001` and there are fewer than `2^16` threads. -/
theorem lockValue_eq_total
    (hT : ∀ p v p' v', T p v p' v' → v < 2 ^ 32 →
      v' < 2 ^ 32 ∧ (v + contrib p') % 2 ^ 32 = (v' + contrib p) % 2 ^ 32)
    (hc : ∀ p, contrib p ≤ 0x10001) (hidle : contrib idle = 0) (hn : n < 2 ^ 16)
    {s : Threads PC n} (hs : Reachable T idle s) : s.lockValue = total contrib s := by
  refine Reachable.induction (by simp [init, total, hidle]) ?_ hs
  intro s i p' v' _ ih h
  show v' = total contrib ⟨v', Function.update s.pc i p'⟩
  have e1 := total_eq contrib s i
  have e2 := total_eq contrib ⟨v', Function.update s.pc i p'⟩ i
  rw [others_update] at e2
  simp only [Function.update_same] at e2
  have hb := others_le hc s i
  have hp := hc (s.pc i)
  have hp' := hc p'
  have hn' : (n - 1) * 0x10001 + 0x10001 ≤ 2 ^ 32 - 1 := by
    have : (n - 1) * 0x10001 ≤ (2 ^ 16 - 2) * 0x10001 := Nat.mul_le_mul_right _ (by omega)
    omega
  obtain ⟨hlt, hmod⟩ := hT _ _ _ _ h (by omega)
  rw [ih] at hmod
  omega

/-- The number of threads at a control point where `b` holds. -/
def count (b : PC → Bool) (s : Threads PC n) : Nat := (Finset.univ.filter fun i => b (s.pc i)).card

/-- The sum of `0x10000` per write increment and `1` per read increment, counted by threads. -/
theorem total_increments (r w : PC → Bool) (s : Threads PC n) :
    total (fun p => 0x10000 * (w p).toNat + (r p).toNat) s = 0x10000 * count w s + count r s := by
  simp only [total, count, Finset.card_filter, Finset.sum_add_distrib, Finset.mul_sum]
  congr 1 <;> refine Finset.sum_congr rfl fun i _ => ?_
  · cases w (s.pc i) <;> rfl
  · cases r (s.pc i) <;> rfl

theorem count_le (b : PC → Bool) (s : Threads PC n) : count b s ≤ n :=
  (Finset.card_filter_le _ _).trans (by simp)

theorem count_eq_zero {b : PC → Bool} {s : Threads PC n} (h : count b s = 0) (i : Fin n) :
    b (s.pc i) = false := by
  by_contra hi
  have : i ∈ Finset.univ.filter fun j => b (s.pc j) := by simpa using hi
  simp_all [count, Finset.card_eq_zero]

theorem count_eq_zero_of {b : PC → Bool} {s : Threads PC n} (h : ∀ i, b (s.pc i) = false) : count b s = 0 :=
  Finset.card_eq_zero.2 (Finset.filter_eq_empty_iff.2 fun i _ => by simp [h i])

theorem count_mono {b c : PC → Bool} (h : ∀ p, b p = true → c p = true) (s : Threads PC n) :
    count b s ≤ count c s :=
  Finset.card_le_card fun i hi => by simp only [Finset.mem_filter] at hi ⊢; exact ⟨hi.1, h _ hi.2⟩

theorem count_le_of {b : PC → Bool} {s s' : Threads PC n} (h : ∀ i, b (s'.pc i) = true → b (s.pc i) = true) :
    count b s' ≤ count b s :=
  Finset.card_le_card fun i hi => by simp only [Finset.mem_filter] at hi ⊢; exact ⟨hi.1, h _ hi.2⟩

/-- When at most one thread is at a control point where `b` holds, and `i` is, no other thread is. -/
theorem count_le_one {b : PC → Bool} {s : Threads PC n} (h : count b s ≤ 1) {i j : Fin n}
    (hi : b (s.pc i) = true) (hj : j ≠ i) : b (s.pc j) = false := by
  by_contra hb
  have hsub : ({i, j} : Finset (Fin n)) ⊆ Finset.univ.filter fun k => b (s.pc k) := by
    intro k hk
    rcases Finset.mem_insert.1 hk with rfl | hk
    · simpa using hi
    · rw [Finset.mem_singleton.1 hk]; simpa using hb
  have := Finset.card_le_card hsub
  rw [Finset.card_pair (Ne.symm hj)] at this
  exact absurd (this.trans h) (by decide)

end Accounting

end Threads

end PklE.CoreTypes
