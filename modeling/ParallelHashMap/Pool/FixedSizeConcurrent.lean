import ParallelHashMap.Pool.FixedSize
import ParallelHashMap.Pool.Ownership

/-!
# The fixed-size pool under interleaving

`FixedSizeObjectPool`'s calls (`fixedsize_object_pool.h`) take no lock: threads meet only in the bitmap,
where `SetAllocated` is an atomic OR and `SetDeallocated` an atomic AND that each report the old bit, and
in `numAllocated`, moved by atomic increments. Here a thread takes one step per access to that shared state
(`slotStep`); `Release` destroys the object in the step that clears its bit, `ReleaseRaw` does not.

A thread owns the slots its finished `Reserve`s returned and it has not released (`held`), the slot its
`SetAllocated` won until the call returns, and the slot it releases until its `SetDeallocated` (`owned`).
`SlotsOk` says that no slot has two owners, that a bit is set exactly when its slot has an owner, and that
`numAllocated` counts the finished reservations and the releases not yet decremented. Every step keeps it
when threads release only slots they hold (`SlotsOk.step`), so `slots_owned_exclusively` holds in every
state such runs reach. A call with no other thread in between is the sequential one
(`reserve_alone_sequential`, `release_alone_sequential`).
-/

namespace PklE.CoreTypes

namespace FixedSizeObjectPool

/-- Where a thread is in its call on the pool. `x` is the object `Reserve` constructs, `none` for
`ReserveRaw`; `raw` marks `ReleaseRaw`, which destroys nothing; `k` counts the turns of `Reserve`'s loop still
to run. `scanning` is the top of that loop, about to wrap the cursor and read `numAllocated`; `testing` reads
`IsAllocated`, `setting` tries `SetAllocated`, and `caching`, `constructing` and `counting` follow a won slot.
`releaseTesting` reads `IsAllocated`, `clearing` destroys the object and tries `SetDeallocated`, and
`uncounting` decrements `numAllocated`. -/
inductive SlotPC (T : Type)
  | idle
  | reserved (r : Option Nat)
  | released (b : Bool)
  | scanning (x : Option T) (k currentIndex : Nat)
  | testing (x : Option T) (k currentIndex : Nat)
  | setting (x : Option T) (k currentIndex : Nat)
  | caching (x : Option T) (slot : Nat)
  | constructing (x : Option T) (slot : Nat)
  | counting (slot : Nat)
  | releaseTesting (raw : Bool) (nodeIndex : Nat)
  | clearing (raw : Bool) (nodeIndex : Nat)
  | uncounting (nodeIndex : Nat)
  deriving DecidableEq, Repr

/-- The pool and, for each of `n` threads, where it is and the slots its finished `Reserve`s returned
that it has not passed to `Release` (the pointers in its hands, which the code does not record). -/
structure SlotThreads (T : Type) (n : Nat) where
  pool : FixedSizeObjectPool T
  pc : Fin n → SlotPC T
  held : Fin n → List Nat

/-- What a thread does next: start a call, or take the next step of its call. `Release` and `ReleaseRaw`
are given the `GetIndex` of the pointer. -/
inductive SlotEvent (T : Type)
  | callReserve (x : T)
  | callReserveRaw
  | callRelease (nodeIndex : Nat)
  | callReleaseRaw (nodeIndex : Nat)
  | next
  deriving Repr

variable {T : Type} (size : Nat) {n : Nat}

/-- Whether a thread is between calls. -/
def SlotPC.ready : SlotPC T → Bool
  | .idle | .reserved _ | .released _ => true
  | _ => false

/-- Thread `i` moves to `p`. -/
def SlotThreads.move (s : SlotThreads T n) (i : Fin n) (p : SlotPC T) : SlotThreads T n :=
  { s with pc := Function.update s.pc i p }

/-- The nodes after the object `x` is constructed in `slot`; `ReserveRaw` constructs nothing. -/
def construct (nodes : Nat → Option T) (slot : Nat) : Option T → Nat → Option T
  | some x => Function.update nodes slot (some x)
  | none => nodes

/-- The start of `Release`, or of `ReleaseRaw` when `raw`: the slot leaves the thread's hands, and a slot in
range has its bit read next. -/
def SlotThreads.startRelease (s : SlotThreads T n) (i : Fin n) (raw : Bool) (nodeIndex : Nat) :
    Option (SlotThreads T n) :=
  if (s.pc i).ready then
    some ⟨s.pool, Function.update s.pc i (if nodeIndex < size then .releaseTesting raw nodeIndex else .released false),
      Function.update s.held i ((s.held i).erase nodeIndex)⟩
  else none

/-- The step thread `i` takes on event `e`, or `none` when it cannot take it (a call starts only between
calls, and `next` only inside one). -/
def slotStep (s : SlotThreads T n) (i : Fin n) : SlotEvent T → Option (SlotThreads T n)
  | .callReserve x =>
    if (s.pc i).ready then some (s.move i (.scanning (some x) size s.pool.cachedIteratorIndex)) else none
  | .callReserveRaw =>
    if (s.pc i).ready then some (s.move i (.scanning none size s.pool.cachedIteratorIndex)) else none
  | .callRelease nodeIndex => s.startRelease size i false nodeIndex
  | .callReleaseRaw nodeIndex => s.startRelease size i true nodeIndex
  | .next => match s.pc i with
    | .scanning _ 0 _ => some (s.move i (.reserved none))
    | .scanning x (k + 1) currentIndex =>
      let currentIndex := if currentIndex ≥ size then 0 else currentIndex
      if s.pool.numAllocated ≥ size then some (s.move i (.reserved none))
      else some (s.move i (.testing x k currentIndex))
    | .testing x k currentIndex =>
      if !s.pool.isAllocated size currentIndex then some (s.move i (.setting x k currentIndex))
      else some (s.move i (.scanning x k (currentIndex + 1)))
    | .setting x k currentIndex => match s.pool.setAllocated size currentIndex with
      | (pool, true) => some ⟨pool, Function.update s.pc i (.caching x currentIndex), s.held⟩
      | (pool, false) => some ⟨pool, Function.update s.pc i (.scanning x k (currentIndex + 1)), s.held⟩
    | .caching x slot =>
      some ⟨{ s.pool with cachedIteratorIndex := slot + 1 }, Function.update s.pc i (.constructing x slot), s.held⟩
    | .constructing x slot =>
      some ⟨{ s.pool with nodes := construct s.pool.nodes slot x }, Function.update s.pc i (.counting slot), s.held⟩
    | .counting slot =>
      some ⟨{ s.pool with numAllocated := s.pool.numAllocated + 1 }, Function.update s.pc i (.reserved (some slot)),
        Function.update s.held i (slot :: s.held i)⟩
    | .releaseTesting raw nodeIndex =>
      some (s.move i (if s.pool.isAllocated size nodeIndex then .clearing raw nodeIndex else .released false))
    | .clearing raw nodeIndex => match (if raw then s.pool else s.pool.destroy nodeIndex).setDeallocated size nodeIndex with
      | (pool, true) => some ⟨pool, Function.update s.pc i (.uncounting nodeIndex), s.held⟩
      | (pool, false) => some ⟨pool, Function.update s.pc i (.released false), s.held⟩
    | .uncounting _ =>
      some ⟨{ s.pool with numAllocated := s.pool.numAllocated - 1 }, Function.update s.pc i (.released true), s.held⟩
    | _ => none

/-- The events of a run, in order. -/
def runSlots : SlotThreads T n → List (Fin n × SlotEvent T) → Option (SlotThreads T n)
  | s, [] => some s
  | s, (i, e) :: es => (slotStep size s i e).bind (runSlots · es)

/-- A constructed pool, every thread idle and holding nothing. -/
def SlotThreads.start : SlotThreads T n := ⟨empty, fun _ => .idle, fun _ => []⟩

/-- Thread `i` passes to `Release` only a slot it holds, or an index outside the pool (a pointer outside
the node array). -/
def ReleasesOwn (s : SlotThreads T n) (i : Fin n) : SlotEvent T → Prop
  | .callRelease nodeIndex | .callReleaseRaw nodeIndex => nodeIndex ∈ s.held i ∨ size ≤ nodeIndex
  | _ => True

/-- The states reached from a constructed pool by steps in which threads release only what they hold. -/
inductive SlotReachable : SlotThreads T n → Prop
  | start : SlotReachable .start
  | step {s s' : SlotThreads T n} (i : Fin n) (e : SlotEvent T) :
      SlotReachable s → ReleasesOwn size s i e → slotStep size s i e = some s' → SlotReachable s'

/-! ## Ownership -/

/-- The slot the call in progress owns: the one `SetAllocated` won, until the call returns, or the one
it releases, until `SetDeallocated` clears it. -/
def SlotPC.slot : SlotPC T → Option Nat
  | .caching _ j | .constructing _ j | .counting j | .releaseTesting _ j | .clearing _ j => some j
  | _ => none

/-- `1` while `numAllocated` still counts the slot of a `Release` in progress, up to its decrement. -/
def SlotPC.counted : SlotPC T → Nat
  | .releaseTesting _ _ | .clearing _ _ | .uncounting _ => 1
  | _ => 0

/-- A `Reserve` between its `SetAllocated` and its increment. -/
def SlotPC.incrementPending : SlotPC T → Bool
  | .caching _ _ | .constructing _ _ | .counting _ => true
  | _ => false

/-- A `Release` between its `SetDeallocated` and its decrement. -/
def SlotPC.decrementPending : SlotPC T → Bool
  | .uncounting _ => true
  | _ => false

/-- The slots thread `t` owns. -/
def owned (s : SlotThreads T n) (t : Fin n) : List Nat := (s.pc t).slot.toList ++ s.held t

/-- The slots `numAllocated` counts for thread `t`. -/
def countedBy (s : SlotThreads T n) (t : Fin n) : Nat := (s.held t).length + (s.pc t).counted

/-- Owned and counted slots differ by the increment or decrement a call has in flight. -/
theorem SlotPC.slot_length (p : SlotPC T) :
    p.slot.toList.length + p.decrementPending.toNat = p.counted + p.incrementPending.toNat := by
  cases p <;> rfl

/-- The invariant of the threads sharing the pool. -/
structure SlotsOk (s : SlotThreads T n) : Prop where
  nodup : ∀ t, (owned s t).Nodup
  disjoint : ∀ t t' j, j ∈ owned s t → j ∈ owned s t' → t = t'
  testBit_iff : ∀ j, s.pool.bAllocatedBits.testBit j ↔ ∃ t, j ∈ owned s t
  lt_size : ∀ t, ∀ j ∈ owned s t, j < size
  numAllocated_eq : s.pool.numAllocated = ∑ t, countedBy s t

/-- A sum over the threads after thread `i` alone changed. -/
theorem sum_add_of_eq_off {f g : Fin n → Nat} (i : Fin n) (h : ∀ t, t ≠ i → g t = f t) :
    ∑ t, g t + f i = ∑ t, f t + g i := by
  have hrest : ∑ t ∈ Finset.univ.erase i, g t = ∑ t ∈ Finset.univ.erase i, f t :=
    Finset.sum_congr rfl fun t ht => h t (Finset.ne_of_mem_erase ht)
  rw [← Finset.add_sum_erase _ g (Finset.mem_univ i), ← Finset.add_sum_erase _ f (Finset.mem_univ i), hrest]
  omega

theorem slotsOk_start : SlotsOk size (SlotThreads.start : SlotThreads T n) :=
  ⟨fun _ => List.nodup_nil, fun _ _ _ h => absurd h (List.not_mem_nil _),
    fun j => by simp [SlotThreads.start, empty, owned, SlotPC.slot], fun _ _ h => absurd h (List.not_mem_nil _),
    by simp [SlotThreads.start, empty, countedBy, SlotPC.counted]⟩

variable {size} {s : SlotThreads T n}

theorem SlotsOk.testBit_of_mem (h : SlotsOk size s) {t : Fin n} {j : Nat} (hj : j ∈ owned s t) :
    s.pool.bAllocatedBits.testBit j = true :=
  (h.testBit_iff j).2 ⟨t, hj⟩

/-- A step in which only thread `i` moves keeps the invariant when the slots `i` comes to own were its own
or free, the bitmap sets exactly the slots `i` owns besides the others' set bits, and the counter moves with
`i`'s counted slots. -/
theorem SlotsOk.change (h : SlotsOk size s) (i : Fin n) {s' : SlotThreads T n}
    (hpc : ∀ t, t ≠ i → s'.pc t = s.pc t) (hheld : ∀ t, t ≠ i → s'.held t = s.held t)
    (hnodup : (owned s' i).Nodup) (hlt : ∀ j ∈ owned s' i, j < size)
    (hnew : ∀ j ∈ owned s' i, j ∈ owned s i ∨ s.pool.bAllocatedBits.testBit j = false)
    (hbits : ∀ j, s'.pool.bAllocatedBits.testBit j ↔
      j ∈ owned s' i ∨ (s.pool.bAllocatedBits.testBit j ∧ j ∉ owned s i))
    (hcount : s'.pool.numAllocated + countedBy s i = s.pool.numAllocated + countedBy s' i) :
    SlotsOk size s' := by
  have hoff : ∀ t, t ≠ i → owned s' t = owned s t := fun t ht => by simp only [owned, hpc t ht, hheld t ht]
  have hex : Exclusive (owned s') (s'.pool.bAllocatedBits.testBit · = true) :=
    (⟨h.nodup, h.disjoint, h.testBit_iff⟩ : Exclusive (owned s) (s.pool.bAllocatedBits.testBit · = true)).change i
      hoff hnodup (fun j hj => (hnew j hj).imp_right fun hf => by simp [hf]) hbits
  refine ⟨hex.nodup, hex.disjoint, hex.inUse_iff, fun t => ?_, ?_⟩
  · by_cases ht : t = i
    · exact ht ▸ hlt
    · exact hoff t ht ▸ h.lt_size t
  · have hsum := sum_add_of_eq_off (f := countedBy s) (g := countedBy s') i fun t ht => by
      simp only [countedBy, hpc t ht, hheld t ht]
    have := h.numAllocated_eq
    omega

/-- A step in which only thread `i` moves, owning the same slots, with the same bits set and the counter
moving with `i`'s counted slots, keeps the invariant. -/
theorem SlotsOk.same (h : SlotsOk size s) (i : Fin n) {s' : SlotThreads T n}
    (hpc : ∀ t, t ≠ i → s'.pc t = s.pc t) (hheld : ∀ t, t ≠ i → s'.held t = s.held t)
    (hperm : (owned s' i).Perm (owned s i))
    (hbits : ∀ j, s'.pool.bAllocatedBits.testBit j = s.pool.bAllocatedBits.testBit j)
    (hcount : s'.pool.numAllocated + countedBy s i = s.pool.numAllocated + countedBy s' i) :
    SlotsOk size s' :=
  h.change i hpc hheld (hperm.nodup_iff.2 (h.nodup i)) (fun j hj => h.lt_size i j (hperm.mem_iff.1 hj))
    (fun j hj => .inl (hperm.mem_iff.1 hj))
    (fun j => by
      rw [hbits j, hperm.mem_iff]
      exact ⟨fun hb => (em _).imp_right fun hj => ⟨hb, hj⟩,
        fun hj => hj.elim h.testBit_of_mem And.left⟩)
    hcount

/-- Thread `i` moving between two control points that own and count the same. -/
theorem SlotsOk.move (h : SlotsOk size s) (i : Fin n) {p : SlotPC T} (hslot : p.slot = (s.pc i).slot)
    (hcounted : p.counted = (s.pc i).counted) : SlotsOk size (s.move i p) :=
  h.same i (fun t ht => Function.update_noteq ht _ _) (fun _ _ => rfl)
    (by simp only [owned, SlotThreads.move, Function.update_same, hslot]; rfl) (fun _ => rfl)
    (by simp only [countedBy, SlotThreads.move, Function.update_same, hcounted])

/-! ## The atomic bit operations -/

variable (size) in
/-- `SetAllocated` sets the bit of a slot in range, and reports whether it was clear. -/
theorem setAllocated_testBit (pool : FixedSizeObjectPool T) (c j : Nat) :
    (pool.setAllocated size c).1.bAllocatedBits.testBit j =
      (pool.bAllocatedBits.testBit j || decide (c < size ∧ c = j)) := by
  unfold setAllocated
  split_ifs with hc
  · rw [testBit_or_shiftLeft]; simp [hc]
  · simp [hc]

variable (size) in
theorem setAllocated_snd (pool : FixedSizeObjectPool T) (c : Nat) :
    (pool.setAllocated size c).2 = (decide (c < size) && !pool.bAllocatedBits.testBit c) := by
  unfold setAllocated
  split_ifs with hc
  · have := and_shiftLeft_ne_zero pool.bAllocatedBits c
    cases hb : pool.bAllocatedBits.testBit c <;> simp_all [bne]
  · simp [hc]

variable (size) in
@[simp] theorem setAllocated_numAllocated (pool : FixedSizeObjectPool T) (c : Nat) :
    (pool.setAllocated size c).1.numAllocated = pool.numAllocated := by
  unfold setAllocated; split_ifs <;> rfl

/-- `SetDeallocated` of a slot in range clears its bit and the bits beyond the pool, and reports whether
the slot's bit was set. -/
theorem setDeallocated_testBit (pool : FixedSizeObjectPool T) {c : Nat} (hc : c < size) (j : Nat) :
    (pool.setDeallocated size c).1.bAllocatedBits.testBit j =
      (pool.bAllocatedBits.testBit j && decide (j < size) && !decide (c = j)) := by
  simp only [setDeallocated, if_pos hc]
  exact testBit_and_mask _ hc _ _

theorem setDeallocated_snd (pool : FixedSizeObjectPool T) {c : Nat} (hc : c < size) :
    (pool.setDeallocated size c).2 = pool.bAllocatedBits.testBit c := by
  simp only [setDeallocated, if_pos hc, and_shiftLeft_ne_zero]

variable (size) in
@[simp] theorem setDeallocated_numAllocated (pool : FixedSizeObjectPool T) (c : Nat) :
    (pool.setDeallocated size c).1.numAllocated = pool.numAllocated := by
  unfold setDeallocated; split_ifs <;> rfl

/-! ## Every step keeps the invariant -/

theorem SlotPC.slot_of_ready {p : SlotPC T} (h : p.ready = true) : p.slot = none ∧ p.counted = 0 := by
  cases p <;> simp_all [SlotPC.ready, SlotPC.slot, SlotPC.counted]

theorem SlotsOk.countedBy_le (h : SlotsOk size s) (i : Fin n) : countedBy s i ≤ s.pool.numAllocated :=
  h.numAllocated_eq ▸ Finset.single_le_sum (fun t _ => Nat.zero_le (countedBy s t)) (Finset.mem_univ i)

/-- Every step keeps the invariant, a thread releasing only what it holds. -/
theorem SlotsOk.step (h : SlotsOk size s) {i : Fin n} {e : SlotEvent T} (hown : ReleasesOwn size s i e)
    {s' : SlotThreads T n} (hs : slotStep size s i e = some s') : SlotsOk size s' := by
  cases e with
  | callReserve x =>
    simp only [slotStep] at hs
    split_ifs at hs with hr
    cases hs
    exact h.move i (by rw [(SlotPC.slot_of_ready hr).1]; rfl) (by rw [(SlotPC.slot_of_ready hr).2]; rfl)
  | callReserveRaw =>
    simp only [slotStep] at hs
    split_ifs at hs with hr
    cases hs
    exact h.move i (by rw [(SlotPC.slot_of_ready hr).1]; rfl) (by rw [(SlotPC.slot_of_ready hr).2]; rfl)
  | callRelease j | callReleaseRaw j =>
    simp only [slotStep, SlotThreads.startRelease] at hs
    split_ifs at hs with hr hj <;> cases hs <;> obtain ⟨hslot, hcounted⟩ := SlotPC.slot_of_ready hr
    · -- the slot leaves the thread's hands for its `Release`
      have hheld : j ∈ s.held i := (show j ∈ s.held i ∨ size ≤ j from hown).resolve_right (by omega)
      refine h.same i (fun t ht => Function.update_noteq ht _ _) (fun t ht => Function.update_noteq ht _ _)
        ?_ (fun _ => rfl) ?_
      · simp only [owned, Function.update_same, if_pos hj, hslot]
        exact (List.perm_cons_erase hheld).symm
      · simp only [countedBy, Function.update_same, if_pos hj, hcounted, List.length_erase_of_mem hheld]
        simp only [SlotPC.counted]
        have := List.length_pos_of_mem hheld
        omega
    · -- a pointer outside the node array: nothing happens
      have hnot : j ∉ s.held i := fun hm => hj (h.lt_size i j (by simp [owned, hm]))
      refine h.same i (fun t ht => Function.update_noteq ht _ _) (fun t ht => Function.update_noteq ht _ _)
        ?_ (fun _ => rfl) ?_
      · simp only [owned, Function.update_same, if_neg hj, hslot, List.erase_of_not_mem hnot]
        rfl
      · simp only [countedBy, Function.update_same, if_neg hj, hcounted, List.erase_of_not_mem hnot]
        rfl
  | next =>
    -- the slot the thread owns and counts at its control point
    have hown_i : ∀ {p : SlotPC T}, s.pc i = p → owned s i = p.slot.toList ++ s.held i := fun hp => by
      rw [owned, hp]
    have hcount_i : ∀ {p : SlotPC T}, s.pc i = p → countedBy s i = (s.held i).length + p.counted := fun hp => by
      rw [countedBy, hp]
    have hoff : ∀ p : SlotPC T, ∀ t, t ≠ i → Function.update s.pc i p t = s.pc t :=
      fun _ _ ht => Function.update_noteq ht _ _
    cases hpc : s.pc i with
    | idle | reserved _ | released _ => simp [slotStep, hpc] at hs
    | scanning x k c =>
      cases k with
      | zero =>
        simp only [slotStep, hpc] at hs
        cases hs
        exact h.move i (by rw [hpc]; rfl) (by rw [hpc]; rfl)
      | succ k =>
        simp only [slotStep, hpc] at hs
        split_ifs at hs <;> cases hs <;> exact h.move i (by rw [hpc]; rfl) (by rw [hpc]; rfl)
    | testing x k c =>
      simp only [slotStep, hpc] at hs
      split_ifs at hs <;> cases hs <;> exact h.move i (by rw [hpc]; rfl) (by rw [hpc]; rfl)
    | setting x k c =>
      simp only [slotStep, hpc] at hs
      have hb := setAllocated_snd size s.pool c
      have hbits := setAllocated_testBit size s.pool c
      have hnum := setAllocated_numAllocated size s.pool c
      rcases hsa : s.pool.setAllocated size c with ⟨pool', b⟩
      rw [hsa] at hs hb hbits hnum
      simp only at hb hbits hnum
      have hown := hown_i hpc
      have hcnt := hcount_i hpc
      simp only [SlotPC.slot, Option.toList, List.nil_append, SlotPC.counted] at hown hcnt
      cases b with
      | true =>
        -- `SetAllocated` won slot `c`, which was free
        cases hs
        obtain ⟨hc, hfree⟩ : c < size ∧ s.pool.bAllocatedBits.testBit c = false := by
          have hb := hb.symm
          simp only [Bool.and_eq_true, decide_eq_true_eq, Bool.not_eq_true'] at hb
          exact hb
        have hcheld : c ∉ s.held i := fun hm => by rw [h.testBit_of_mem (hown ▸ hm)] at hfree; cases hfree
        have hown' : owned ⟨pool', Function.update s.pc i (.caching x c), s.held⟩ i = c :: s.held i := by
          simp [owned, SlotPC.slot]
        refine h.change i (hoff _) (fun _ _ => rfl) ?_ ?_ ?_ (fun j => ?_) ?_
        · rw [hown']
          exact List.nodup_cons.2 ⟨hcheld, hown ▸ h.nodup i⟩
        · rw [hown']
          exact fun j hj => (List.mem_cons.1 hj).elim (· ▸ hc) fun hj => h.lt_size i j (hown ▸ hj)
        · rw [hown']
          exact fun j hj => (List.mem_cons.1 hj).elim (fun e => .inr (e ▸ hfree)) fun hj => .inl (hown ▸ hj)
        · rw [hown', hown, hbits]
          by_cases hj : j = c
          · subst hj; simp [hc]
          · have hheld : j ∈ s.held i → s.pool.bAllocatedBits.testBit j = true :=
              fun hm => h.testBit_of_mem (hown ▸ hm)
            have hcj : ¬ (c < size ∧ c = j) := fun e => hj e.2.symm
            simp only [hcj, decide_False, Bool.or_false, List.mem_cons, hj, false_or]
            exact ⟨fun hb => (em _).imp_right fun hm => ⟨hb, hm⟩, fun h' => h'.elim hheld And.left⟩
        · rw [hcnt, hnum]
          simp only [countedBy, Function.update_same, SlotPC.counted]
      | false =>
        -- `SetAllocated` lost: the bit was set, or the slot out of range
        cases hs
        refine h.same i (hoff _) (fun _ _ => rfl) ?_ (fun j => ?_) ?_
        · rw [hown]; simp [owned, SlotPC.slot]
        · rw [hbits]
          by_cases hj : c < size ∧ c = j
          · obtain ⟨hc, rfl⟩ := hj
            have : s.pool.bAllocatedBits.testBit c = true := by
              cases htc : s.pool.bAllocatedBits.testBit c <;> simp_all
            simp [this]
          · simp [hj]
        · rw [hcnt, hnum]
          simp only [countedBy, Function.update_same, SlotPC.counted]
    | caching x c =>
      simp only [slotStep, hpc] at hs
      cases hs
      exact h.same i (hoff _) (fun _ _ => rfl) (by simp [owned, hpc, SlotPC.slot]) (fun _ => rfl)
        (by simp [countedBy, hpc, SlotPC.counted])
    | constructing x c =>
      simp only [slotStep, hpc] at hs
      cases hs
      exact h.same i (hoff _) (fun _ _ => rfl) (by simp [owned, hpc, SlotPC.slot]) (fun _ => rfl)
        (by simp [countedBy, hpc, SlotPC.counted])
    | counting c =>
      -- the slot passes from the call to the thread's hands, and is counted
      simp only [slotStep, hpc] at hs
      cases hs
      refine h.same i (hoff _) (fun t ht => Function.update_noteq ht _ _) ?_ (fun _ => rfl) ?_
      · rw [hown_i hpc]; simp [owned, SlotPC.slot]
      · simp only [countedBy, Function.update_same, hpc, SlotPC.counted, List.length_cons]
        omega
    | releaseTesting raw j =>
      have hj : j ∈ owned s i := by rw [hown_i hpc]; simp [SlotPC.slot]
      have hlt := h.lt_size i j hj
      simp only [slotStep, hpc, isAllocated_eq size s.pool hlt, h.testBit_of_mem hj, if_true] at hs
      cases hs
      exact h.move i (by rw [hpc]; rfl) (by rw [hpc]; rfl)
    | clearing raw j =>
      have hj : j ∈ owned s i := by rw [hown_i hpc]; simp [SlotPC.slot]
      have hlt := h.lt_size i j hj
      have hset := h.testBit_of_mem hj
      simp only [slotStep, hpc] at hs
      -- destroying the object leaves the bitmap and the count as they were
      set p0 := if raw then s.pool else s.pool.destroy j with hp0
      have hbits0 : p0.bAllocatedBits = s.pool.bAllocatedBits := by rw [hp0]; split <;> rfl
      have hnum0 : p0.numAllocated = s.pool.numAllocated := by rw [hp0]; split <;> rfl
      have hb := setDeallocated_snd p0 hlt
      have hbits := setDeallocated_testBit p0 hlt
      have hnum := setDeallocated_numAllocated size p0 j
      rcases hsd : p0.setDeallocated size j with ⟨pool', b⟩
      rw [hsd] at hs hb hbits hnum
      simp only [hbits0, hnum0] at hb hbits hnum
      have hown := hown_i hpc
      simp only [SlotPC.slot, Option.toList, List.singleton_append] at hown
      rw [hset] at hb
      subst hb
      -- `SetDeallocated` of a slot the thread owns clears its bit
      cases hs
      have hnd := hown ▸ h.nodup i
      have hown' : owned ⟨pool', Function.update s.pc i (.uncounting j), s.held⟩ i = s.held i := by
        simp [owned, SlotPC.slot]
      refine h.change i (hoff _) (fun _ _ => rfl) (hown' ▸ (List.nodup_cons.1 hnd).2)
        (fun j' hj' => h.lt_size i j' (hown ▸ List.mem_cons_of_mem _ (hown' ▸ hj')))
        (fun j' hj' => .inl (hown ▸ List.mem_cons_of_mem _ (hown' ▸ hj'))) (fun j' => ?_) ?_
      · rw [hown', hown, hbits]
        cases hb' : s.pool.bAllocatedBits.testBit j'
        · have : j' ∉ s.held i := fun hm => by
            rw [h.testBit_of_mem (hown ▸ List.mem_cons_of_mem _ hm)] at hb'; cases hb'
          simp [this]
        · obtain ⟨t, ht⟩ := (h.testBit_iff j').1 hb'
          have hlt' := h.lt_size t j' ht
          by_cases hjj : j = j'
          · subst hjj; simp [(List.nodup_cons.1 hnd).1]
          · by_cases hm : j' ∈ s.held i <;> simp [hlt', hjj, hm, Ne.symm hjj]
      · simp only [hnum, countedBy, Function.update_same, hpc, SlotPC.counted]
    | uncounting j =>
      simp only [slotStep, hpc] at hs
      cases hs
      have hle := h.countedBy_le i
      rw [hcount_i hpc] at hle
      refine h.same i (hoff _) (fun _ _ => rfl) (by simp [owned, hpc, SlotPC.slot]) (fun _ => rfl) ?_
      simp only [countedBy, Function.update_same, hpc, SlotPC.counted] at hle ⊢
      omega


/-! ## Along every run -/

/-- The invariant holds in every state that threads releasing only what they hold reach. -/
theorem SlotReachable.slotsOk {s : SlotThreads T n} (hs : SlotReachable size s) : SlotsOk size s := by
  induction hs with
  | start => exact slotsOk_start size
  | step _ _ _ hown hst ih => exact ih.step hown hst

/-- The set bits are the owned slots, so their number is the number of slots the threads own. -/
theorem SlotsOk.card_allocatedSet (h : SlotsOk size s) :
    (allocatedSet size s.pool).card = ∑ t, (owned s t).length := by
  have hset : allocatedSet size s.pool = Finset.univ.biUnion fun t => (owned s t).toFinset := by
    ext j
    simp only [allocatedSet, Finset.mem_filter, Finset.mem_range, Finset.mem_biUnion, Finset.mem_univ,
      true_and, List.mem_toFinset, h.testBit_iff j]
    exact ⟨And.right, fun ⟨t, ht⟩ => ⟨h.lt_size t j ht, t, ht⟩⟩
  rw [hset, Finset.card_biUnion fun t _ t' _ htt' => List.disjoint_toFinset_iff_disjoint.2
    fun j hj hj' => htt' (h.disjoint t t' j hj hj')]
  exact Finset.sum_congr rfl fun t _ => List.toFinset_card_of_nodup (h.nodup t)

theorem card_filter_eq_sum (b : Fin n → Bool) :
    (Finset.univ.filter fun t => b t).card = ∑ t, (b t).toNat := by
  rw [Finset.card_filter]
  exact Finset.sum_congr rfl fun t _ => by cases b t <;> rfl

/-- `numAllocated` lags the bitmap by the increments and decrements in flight. -/
theorem SlotsOk.numAllocated_add (h : SlotsOk size s) :
    s.pool.numAllocated + (Finset.univ.filter fun t => (s.pc t).incrementPending).card =
      (allocatedSet size s.pool).card + (Finset.univ.filter fun t => (s.pc t).decrementPending).card := by
  rw [h.numAllocated_eq, h.card_allocatedSet, card_filter_eq_sum, card_filter_eq_sum, ← Finset.sum_add_distrib,
    ← Finset.sum_add_distrib]
  refine Finset.sum_congr rfl fun t _ => ?_
  have := (s.pc t).slot_length
  simp only [owned, countedBy, List.length_append]
  omega

/-- In every state reached from a constructed pool by threads that release only the slots they hold: no
slot has two owners; a bit is set exactly when its slot has an owner; `numAllocated` plus the increments in
flight is the number of set bits plus the decrements in flight; and a thread releasing a slot it holds finds
its bit set and its `SetDeallocated` succeeds, so the call returns `true` and the double-free assertion never
fires. -/
theorem slots_owned_exclusively {s : SlotThreads T n} (hs : SlotReachable size s) :
    (∀ t t' j, j ∈ owned s t → j ∈ owned s t' → t = t') ∧
    (∀ j, s.pool.bAllocatedBits.testBit j ↔ ∃ t, j ∈ owned s t) ∧
    s.pool.numAllocated + (Finset.univ.filter fun t => (s.pc t).incrementPending).card =
      (allocatedSet size s.pool).card + (Finset.univ.filter fun t => (s.pc t).decrementPending).card ∧
    ∀ t raw j, (s.pc t = .releaseTesting raw j → slotStep size s t .next = some (s.move t (.clearing raw j))) ∧
      (s.pc t = .clearing raw j → ∃ s', slotStep size s t .next = some s' ∧ s'.pc t = .uncounting j) := by
  have h := hs.slotsOk
  refine ⟨h.disjoint, h.testBit_iff, h.numAllocated_add, fun t raw j => ⟨fun hpc => ?_, fun hpc => ?_⟩⟩
  · have hj : j ∈ owned s t := by simp [owned, hpc, SlotPC.slot]
    simp [slotStep, hpc, isAllocated_eq size s.pool (h.lt_size t j hj), h.testBit_of_mem hj]
  · have hj : j ∈ owned s t := by simp [owned, hpc, SlotPC.slot]
    set p0 := if raw then s.pool else s.pool.destroy j with hp0
    have hbits0 : p0.bAllocatedBits = s.pool.bAllocatedBits := by rw [hp0]; split <;> rfl
    have hb := setDeallocated_snd p0 (h.lt_size t j hj)
    rw [hbits0, h.testBit_of_mem hj] at hb
    rcases hsd : p0.setDeallocated size j with ⟨pool', b⟩
    rw [hsd] at hb
    cases hb
    exact ⟨_, by simp only [slotStep, hpc, hsd]; rfl, Function.update_same _ _ _⟩

/-- Two threads on a pool of two slots: thread `0` has reserved slot `0` and, inside its `Release` of it,
has read its bit. -/
def releasingZero : SlotThreads Nat 2 :=
  (runSlots 2 .start ((0, .callReserve 7) :: List.replicate 6 (0, .next) ++ [(0, .callRelease 0), (0, .next)])).getD
    .start

/-- Thread `0`, releasing the slot it reserved, owns it alone, finds its bit set, and its `SetDeallocated`
succeeds. -/
theorem slots_owned_exclusively_releasingZero :
    SlotReachable 2 releasingZero ∧ owned releasingZero 0 = [0] ∧ owned releasingZero 1 = [] ∧
      releasingZero.pc 0 = .clearing false 0 ∧
      ∃ s', slotStep 2 releasingZero 0 .next = some s' ∧ s'.pc 0 = .uncounting 0 := by
  have hr : SlotReachable 2 releasingZero :=
    .step 0 .next (.step 0 (.callRelease 0) (.step 0 .next (.step 0 .next (.step 0 .next (.step 0 .next
      (.step 0 .next (.step 0 .next (.step 0 (.callReserve 7) .start trivial rfl) trivial rfl) trivial rfl)
      trivial rfl) trivial rfl) trivial rfl) trivial rfl) (.inl (by decide)) rfl) trivial rfl
  exact ⟨hr, by decide, by decide, rfl, ((slots_owned_exclusively hr).2.2.2 0 false 0).2 rfl⟩

/-! ## A call with no other thread in between -/

variable (size) in
theorem runSlots_next {i : Fin n} {s' : SlotThreads T n} (h : slotStep size s i .next = some s') (m : Nat) :
    runSlots size s (List.replicate (m + 1) (i, .next)) = runSlots size s' (List.replicate m (i, .next)) := by
  simp only [List.replicate_succ, runSlots, h, Option.some_bind]

/-- `Reserve`'s loop with `k` turns left, run by thread `i` with no other thread in between, is the
sequential `reserveLoop`: the thread returns its slot and holds it. -/
theorem reserveLoop_runs_alone (x : T) (i : Fin n) :
    ∀ (k currentIndex : Nat) (s : SlotThreads T n), s.pc i = .scanning (some x) k currentIndex →
      ∃ m, runSlots size s (List.replicate m (i, .next)) =
        some ⟨(reserveLoop size x k currentIndex s.pool).1,
          Function.update s.pc i (.reserved (reserveLoop size x k currentIndex s.pool).2),
          Function.update s.held i ((reserveLoop size x k currentIndex s.pool).2.toList ++ s.held i)⟩
  | 0, c, s, hpc => ⟨1, by
      rw [runSlots_next size (by simp only [slotStep, hpc]; rfl)]
      simp [runSlots, reserveLoop, SlotThreads.move, Function.update_eq_self]⟩
  | k + 1, c, s, hpc => by
    -- the cursor this turn uses, after the wrap-around test
    set c' := if c ≥ size then 0 else c with hc'
    by_cases hfull : s.pool.numAllocated ≥ size
    · refine ⟨1, ?_⟩
      rw [runSlots_next size (by simp only [slotStep, hpc, if_pos hfull]; rfl)]
      simp [runSlots, reserveLoop, if_pos hfull, SlotThreads.move, Function.update_eq_self]
    have hscan : slotStep size s i .next = some (s.move i (.testing (some x) k c')) := by
      simp only [slotStep, hpc, if_neg hfull]
    by_cases hfree : !s.pool.isAllocated size c'
    · have htest : slotStep size (s.move i (.testing (some x) k c')) i .next =
          some ((s.move i (.testing (some x) k c')).move i (.setting (some x) k c')) := by
        simp only [slotStep, SlotThreads.move, Function.update_same, if_pos hfree]
      rcases hsa : s.pool.setAllocated size c' with ⟨pool', b⟩
      cases b with
      | true =>
        -- the slot is won: the cursor, the object and the count follow
        refine ⟨6, ?_⟩
        rw [runSlots_next size hscan, runSlots_next size htest,
          runSlots_next size (by simp only [slotStep, SlotThreads.move, Function.update_same, hsa]; rfl),
          runSlots_next size (by simp only [slotStep, Function.update_same]; rfl),
          runSlots_next size (by simp only [slotStep, Function.update_same]; rfl),
          runSlots_next size (by simp only [slotStep, Function.update_same]; rfl)]
        simp [runSlots, reserveLoop, ← hc', if_neg hfull, hfree, hsa, SlotThreads.move, construct]
      | false =>
        obtain ⟨m, hm⟩ := reserveLoop_runs_alone x i k (c' + 1)
          ⟨pool', Function.update ((s.move i (.testing (some x) k c')).move i (.setting (some x) k c')).pc i
            (.scanning (some x) k (c' + 1)), s.held⟩ (Function.update_same _ _ _)
        have hset : slotStep size ((s.move i (.testing (some x) k c')).move i (.setting (some x) k c')) i .next =
            some ⟨pool', Function.update ((s.move i (.testing (some x) k c')).move i (.setting (some x) k c')).pc i
              (.scanning (some x) k (c' + 1)), s.held⟩ := by
          simp only [slotStep, SlotThreads.move, Function.update_same, hsa]
        refine ⟨m + 3, ?_⟩
        rw [runSlots_next size hscan, runSlots_next size htest, runSlots_next size hset, hm]
        simp [reserveLoop, ← hc', if_neg hfull, hfree, hsa, SlotThreads.move, Function.update_idem]
    · obtain ⟨m, hm⟩ := reserveLoop_runs_alone x i k (c' + 1)
        ((s.move i (.testing (some x) k c')).move i (.scanning (some x) k (c' + 1))) (Function.update_same _ _ _)
      have htaken : slotStep size (s.move i (.testing (some x) k c')) i .next =
          some ((s.move i (.testing (some x) k c')).move i (.scanning (some x) k (c' + 1))) := by
        simp only [slotStep, SlotThreads.move, Function.update_same, if_neg hfree]
      refine ⟨m + 2, ?_⟩
      rw [runSlots_next size hscan, runSlots_next size htaken, hm]
      simp [reserveLoop, ← hc', if_neg hfull, hfree, SlotThreads.move, Function.update_idem]

/-- A `Reserve` that runs with no other thread in between is the sequential `reserve`: the thread returns
the slot `reserve` allocates, or `nullptr`, and holds it. -/
theorem reserve_alone_sequential (x : T) {s : SlotThreads T n} {i : Fin n} (hr : (s.pc i).ready = true) :
    ∃ m, runSlots size s ((i, .callReserve x) :: List.replicate m (i, .next)) =
      some ⟨(s.pool.reserve size x).1, Function.update s.pc i (.reserved (s.pool.reserve size x).2),
        Function.update s.held i ((s.pool.reserve size x).2.toList ++ s.held i)⟩ := by
  obtain ⟨m, hm⟩ := reserveLoop_runs_alone x i size s.pool.cachedIteratorIndex
    (s.move i (.scanning (some x) size s.pool.cachedIteratorIndex)) (Function.update_same _ _ _)
  exact ⟨m, by simpa [runSlots, slotStep, hr, SlotThreads.move, reserve] using hm⟩

/-- A `Release` that runs with no other thread in between is the sequential `release`. -/
theorem release_alone_sequential (nodeIndex : Nat) {s : SlotThreads T n} {i : Fin n} (hr : (s.pc i).ready = true) :
    ∃ m, runSlots size s ((i, .callRelease nodeIndex) :: List.replicate m (i, .next)) =
      some ⟨(s.pool.release size nodeIndex).1, Function.update s.pc i (.released (s.pool.release size nodeIndex).2),
        Function.update s.held i ((s.held i).erase nodeIndex)⟩ := by
  by_cases hj : nodeIndex < size
  · by_cases ha : s.pool.isAllocated size nodeIndex
    · rcases hsd : (s.pool.destroy nodeIndex).setDeallocated size nodeIndex with ⟨pool', b⟩
      cases b with
      | true =>
        refine ⟨3, ?_⟩
        simp [runSlots, slotStep, SlotThreads.startRelease, hr, hj, ha, hsd, release, SlotThreads.move]
      | false =>
        refine ⟨2, ?_⟩
        simp [runSlots, slotStep, SlotThreads.startRelease, hr, hj, ha, hsd, release, SlotThreads.move]
    · refine ⟨1, ?_⟩
      simp [runSlots, slotStep, SlotThreads.startRelease, hr, hj, ha, release, SlotThreads.move]
  · exact ⟨0, by simp [runSlots, slotStep, SlotThreads.startRelease, hr, hj, release]⟩

/-- Thread `1`'s `Reserve(5)` on the state of `releasingZero`, where thread `0` is releasing slot `0`. -/
theorem reserve_alone_sequential_releasingZero :
    (releasingZero.pc 1).ready = true ∧
      ∃ m, runSlots 2 releasingZero ((1, .callReserve 5) :: List.replicate m (1, .next)) =
        some ⟨(releasingZero.pool.reserve 2 5).1, Function.update releasingZero.pc 1
          (.reserved (releasingZero.pool.reserve 2 5).2),
          Function.update releasingZero.held 1 ((releasingZero.pool.reserve 2 5).2.toList ++ releasingZero.held 1)⟩ :=
  ⟨by decide, reserve_alone_sequential 5 (by decide)⟩

/-- Thread `1`'s `Release(0)` on the state of `releasingZero`, where thread `0` is releasing slot `0`. -/
theorem release_alone_sequential_releasingZero :
    (releasingZero.pc 1).ready = true ∧
      ∃ m, runSlots 2 releasingZero ((1, .callRelease 0) :: List.replicate m (1, .next)) =
        some ⟨(releasingZero.pool.release 2 0).1,
          Function.update releasingZero.pc 1 (.released (releasingZero.pool.release 2 0).2),
          Function.update releasingZero.held 1 ((releasingZero.held 1).erase 0)⟩ :=
  ⟨by decide, release_alone_sequential 0 (by decide)⟩

end FixedSizeObjectPool

end PklE.CoreTypes
