import Mathlib.Algebra.BigOperators.Ring
import Mathlib.Algebra.Order.BigOperators.Group.Finset
import Mathlib.Data.Fintype.Card
import Mathlib.Data.Nat.Bitwise
import Mathlib.Data.Finmap

/-!
# Power-of-two sizing

`GetNextPowerOfTwo` (`magic_num_util.h`) sizes every bucket table of the map: the first entry of
`c_powerOfTwoTable` that is not below the request, or the table's last entry `2^31` when the request
is larger. Every result is a power of two between `1` and `2^31` (`getNextPowerOfTwo_eq_pow`), it
covers every request up to `2^31` (`le_getNextPowerOfTwo`), and it is the least power of two that does
(`getNextPowerOfTwo_le_of_le`).
-/

namespace PklE.Util

/-- `c_powerOfTwoTable`. -/
def cPowerOfTwoTable : List Nat :=
  [1, 2, 4, 8, 16, 32, 64, 128,
    256, 512, 1024, 2048, 4096, 8192,
    16384, 32768, 65536, 131072, 262144,
    524288, 1048576, 2097152, 4194304,
    8388608, 16777216, 33554432, 67108864,
    134217728, 268435456, 536870912,
    1073741824, 2147483648]

/-- `GetNextPowerOfTwo`: the loop over the table, then the table's last entry. -/
def getNextPowerOfTwo (value : Nat) : Nat :=
  match cPowerOfTwoTable.find? (fun entry => decide (entry ≥ value)) with
  | some entry => entry
  | none => 2147483648

theorem cPowerOfTwoTable_eq : cPowerOfTwoTable = (List.range 32).map (2 ^ ·) := by
  decide

theorem getNextPowerOfTwo_eq_pow (value : Nat) :
    ∃ j < 32, getNextPowerOfTwo value = 2 ^ j := by
  unfold getNextPowerOfTwo
  split
  · rename_i entry h
    obtain ⟨j, hj, rfl⟩ := List.mem_map.1 (cPowerOfTwoTable_eq ▸ List.mem_of_find?_eq_some h)
    exact ⟨j, List.mem_range.1 hj, rfl⟩
  · exact ⟨31, by decide, rfl⟩

theorem getNextPowerOfTwo_pos (value : Nat) : 0 < getNextPowerOfTwo value := by
  obtain ⟨j, -, h⟩ := getNextPowerOfTwo_eq_pow value
  exact h ▸ Nat.two_pow_pos j

theorem getNextPowerOfTwo_le (value : Nat) : getNextPowerOfTwo value ≤ 2 ^ 31 := by
  obtain ⟨j, hj, h⟩ := getNextPowerOfTwo_eq_pow value
  exact h ▸ Nat.pow_le_pow_right (by decide) (by omega)

/-- A request up to `2^31` gets a table of at least that size. -/
theorem le_getNextPowerOfTwo {value : Nat} (h : value ≤ 2 ^ 31) : value ≤ getNextPowerOfTwo value := by
  unfold getNextPowerOfTwo
  split
  · rename_i entry hfind
    simpa using List.find?_some hfind
  · rename_i hnone
    exact h

/-- On a list in increasing order, the first entry not below `value` is at most every entry not below it. -/
theorem find?_ge_le {l : List Nat} (hl : l.Sorted (· ≤ ·)) {value e : Nat} (he : e ∈ l) (hv : value ≤ e) :
    ∃ e', l.find? (fun entry => decide (entry ≥ value)) = some e' ∧ e' ≤ e := by
  induction l with
  | nil => cases he
  | cons a l ih =>
    rw [List.sorted_cons] at hl
    by_cases ha : value ≤ a
    · exact ⟨a, by simp [ha], (List.mem_cons.1 he).elim (fun h => h ▸ le_rfl) (hl.1 e)⟩
    · obtain ⟨e', h, hle⟩ := ih hl.2 ((List.mem_cons.1 he).resolve_left fun h => ha (h ▸ hv))
      exact ⟨e', by simp [ha, h], hle⟩

/-- The table is the powers of two in increasing order, so the entry returned is the least power of two
in it that covers the request. -/
theorem getNextPowerOfTwo_le_of_le {value j : Nat} (hj : j < 32) (h : value ≤ 2 ^ j) :
    getNextPowerOfTwo value ≤ 2 ^ j := by
  have hsorted : cPowerOfTwoTable.Sorted (· ≤ ·) := by
    rw [cPowerOfTwoTable_eq]
    exact List.pairwise_map.2 ((List.pairwise_lt_range 32).imp fun hab => Nat.pow_le_pow_right (by decide) hab.le)
  have hmem : 2 ^ j ∈ cPowerOfTwoTable := cPowerOfTwoTable_eq ▸ List.mem_map.2 ⟨j, List.mem_range.2 hj, rfl⟩
  obtain ⟨e, hfind, hle⟩ := find?_ge_le hsorted hmem h
  simpa only [getNextPowerOfTwo, hfind] using hle

end PklE.Util
