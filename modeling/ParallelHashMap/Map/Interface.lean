import ParallelHashMap.Map.Refinement

/-!
# The std::map-like interface against a finite map

`HashMap`'s wrappers `insert_lockless`, `find_lockless`, `erase_lockless`, `clear`, `reserve` and `size`
(`hash_map.h`), called one after the other (`calls`), and the same calls on a finite map (`absCalls`).

From a map whose shards all have tables and which stands for `M`, every sequence of calls within the pool's
`c_MaxPages` pages runs without a fault, returns what the same calls return on `M`, and leaves a map that
stands for the finite map they leave (`calls_refine`). `Reserve` gives every shard a table, so a session
that starts with `reserve` on a constructed map is such a run from the empty finite map
(`session_refines`). Without that first `reserve`, `find_lockless` and `erase_lockless` dereference the
null bucket table of a shard no insertion has reached.

`rekey_lockless` is left out of `calls`: across shards it never succeeds, and within a shard it moves a
binding only to a key the finite map does not bind (`Refines.rekeyLockless`, `Map/Rekey.lean`).
-/

namespace PklE.ThreadsafeContainers

open PklE.CoreTypes PklE.Util SimpleLinkedList

namespace HashMap

/-- A call of the std::map-like interface. -/
inductive MapOp (K V : Type)
  | insert (key : K) (value : V)
  | find (key : K)
  | erase (key : K)
  | clear
  | reserve (numElements : Nat)
  | size
  deriving DecidableEq, Repr

/-- What a call returns: the flag of `insert_lockless` or `erase_lockless`, the value `find_lockless`
points `pOutValue` to (`none` when it returns `false`), `size()`, or nothing. -/
inductive MapResult (V : Type)
  | flag (b : Bool)
  | value (v : Option V)
  | count (n : Nat)
  | unit
  deriving DecidableEq, Repr

variable {K V : Type} [LinearOrder K] (P S : Nat) (hash64 : K → Nat)

/-- One call. `reserve` casts its `size_t` argument to `uint32_t`. -/
def call (m : HashMap K V) : MapOp K V → Except Fault (HashMap K V × MapResult V)
  | .insert key value => do
    let (m, pAdded) ← m.insertLockless P S hash64 key value
    pure (m, .flag pAdded.isSome)
  | .find key => do
    let v ← m.findValueLockless P S hash64 key
    pure (m, .value v)
  | .erase key => do
    let (m, bRemoved) ← m.removeLockless P S hash64 key
    pure (m, .flag bRemoved)
  | .clear => do
    let m ← m.clearLockless S
    pure (m, .unit)
  | .reserve numElements => do
    let m ← m.reserve P S hash64 (numElements % 2 ^ 32)
    pure (m, .unit)
  | .size => pure (m, .count m.size)

/-- Calls one after the other, up to the first fault. -/
def calls (m : HashMap K V) : List (MapOp K V) → Except Fault (HashMap K V × List (MapResult V))
  | [] => pure (m, [])
  | op :: ops => do
    let (m, r) ← m.call P S hash64 op
    let (m, rs) ← m.calls ops
    pure (m, r :: rs)

/-- The pages a call may add to the pool: one for an insertion, and those `reserve` preallocates. -/
def opPages : MapOp K V → Nat
  | .insert _ _ => 1
  | .reserve numElements => ((numElements % 2 ^ 32 + P - 1) % 2 ^ 32) / P
  | _ => 0

/-- The pages a run of calls may add. -/
def runPages : List (MapOp K V) → Nat
  | [] => 0
  | op :: ops => opPages P op + runPages ops

/-! ## The finite map -/

/-- A call on a finite map: an insertion never overwrites a binding, and `size()` is the number of keys as a
`uint32_t`. -/
def absCall (M : Finmap fun _ : K => V) : MapOp K V → (Finmap fun _ : K => V) × MapResult V
  | .insert key value => if key ∈ M then (M, .flag false) else (M.insert key value, .flag true)
  | .find key => (M, .value (M.lookup key))
  | .erase key => (M.erase key, .flag (decide (key ∈ M)))
  | .clear => (∅, .unit)
  | .reserve _ => (M, .unit)
  | .size => (M, .count (M.keys.card % 2 ^ 32))

/-- Calls one after the other on a finite map. -/
def absCalls (M : Finmap fun _ : K => V) : List (MapOp K V) → (Finmap fun _ : K => V) × List (MapResult V)
  | [] => (M, [])
  | op :: ops => ((absCalls (absCall M op).1 ops).1, (absCall M op).2 :: (absCalls (absCall M op).1 ops).2)

/-! ## One call -/

variable {P S hash64} {m : HashMap K V} {L : Nat → Nat → List PoolPtr} {M : Finmap fun _ : K => V}

/-- A call on a map whose shards all have tables, with room for its pages, returns what it returns on the
finite map the map stands for, and leaves a map whose shards all have tables and which stands for the finite
map it leaves. -/
theorem Refines.call (hP : 0 < P) (hS : 0 < S) (h : Refines P S hash64 m L M) (ha : Allocated S m)
    (op : MapOp K V) (hpages : m.sharedPool.numPages + opPages P op < cMaxPages) :
    ∃ m' L', m.call P S hash64 op = .ok (m', (absCall M op).2) ∧ Refines P S hash64 m' L' (absCall M op).1 ∧
      Allocated S m' ∧ m'.sharedPool.numPages ≤ m.sharedPool.numPages + opPages P op := by
  cases op with
  | insert key value =>
    obtain ⟨m', L', r, hins, hr, h', hnum, halloc⟩ := h.insert hP hS hpages key value
    refine ⟨m', L', ?_, ?_, halloc ha, hnum⟩
    · simp only [HashMap.call, hins, except_ok_bind, hr, absCall]
      split_ifs with hk <;> simp [hk] <;> rfl
    · simpa only [absCall, apply_ite Prod.fst] using h'
  | find key =>
    refine ⟨m, L, ?_, h, ha, Nat.le_add_right _ _⟩
    simp only [HashMap.call, h.findValue hS key (ha _ (getInnerMapIndex_lt hS _)), except_ok_bind, absCall]
    rfl
  | erase key =>
    obtain ⟨m', L', hrem, h', hnum, halloc⟩ := h.erase hS ha key
    refine ⟨m', L', ?_, h', halloc, by rw [hnum]; exact Nat.le_add_right _ _⟩
    simp only [HashMap.call, hrem, except_ok_bind, absCall]
    rfl
  | clear =>
    obtain ⟨m', hclr, h', hnum, halloc⟩ := h.clear
    refine ⟨m', _, ?_, h', halloc ha, by rw [hnum]; exact Nat.zero_le _⟩
    simp only [HashMap.call, hclr, except_ok_bind, absCall]
    rfl
  | reserve numElements =>
    obtain ⟨m', L', hres, h', halloc, hnum⟩ := h.reserve hP (numElements % 2 ^ 32) hpages
    refine ⟨m', L', ?_, h', halloc, hnum.le⟩
    simp only [HashMap.call, hres, except_ok_bind, absCall]
    rfl
  | size =>
    refine ⟨m, L, ?_, h, ha, Nat.le_add_right _ _⟩
    simp only [HashMap.call, absCall, HashMap.size, h.size_eq]
    rfl

/-! ## Runs -/

/-- Every run of calls from a map whose shards all have tables and which stands for `M`, with room in the
pool for the pages the calls may add, returns what the calls return on `M` and leaves a map that stands for
the finite map they leave. -/
theorem calls_refine (hP : 0 < P) (hS : 0 < S) :
    ∀ (ops : List (MapOp K V)) {m : HashMap K V} {L : Nat → Nat → List PoolPtr} {M : Finmap fun _ : K => V},
      Refines P S hash64 m L M → Allocated S m → m.sharedPool.numPages + runPages P ops < cMaxPages →
      ∃ m' L', m.calls P S hash64 ops = .ok (m', (absCalls M ops).2) ∧
        Refines P S hash64 m' L' (absCalls M ops).1 ∧ Allocated S m'
  | [], m, L, _, h, ha, _ => ⟨m, L, rfl, h, ha⟩
  | op :: ops, m, L, M, h, ha, hpages => by
    rw [runPages] at hpages
    obtain ⟨m1, L1, hcall, h1, ha1, hnum1⟩ := h.call hP hS ha op (by omega)
    obtain ⟨m', L', hcalls, h', ha'⟩ := calls_refine hP hS ops h1 ha1 (by omega)
    refine ⟨m', L', ?_, h', ha'⟩
    simp only [calls, hcall, hcalls, except_ok_bind, absCalls]
    rfl

/-- A session on a constructed map that starts with `reserve`, with room in the pool for the pages its
calls may add, runs as the same calls on the empty finite map. -/
theorem reserve_calls_refine (hP : 0 < P) (hS : 0 < S) (numElements : Nat) (ops : List (MapOp K V))
    (hpages : runPages P (.reserve numElements :: ops) < cMaxPages) :
    ∃ m' L', (empty : HashMap K V).calls P S hash64 (.reserve numElements :: ops) =
        .ok (m', (absCalls ∅ (.reserve numElements :: ops)).2) ∧
      Refines P S hash64 m' L' (absCalls ∅ (.reserve numElements :: ops)).1 := by
  simp only [runPages, opPages] at hpages
  have h0 : Refines P S hash64 (empty : HashMap K V) (fun _ _ => []) ∅ := empty_refines
  obtain ⟨m1, L1, hres, h1, ha1, hnum1⟩ := h0.reserve hP (numElements % 2 ^ 32) (by show 0 + _ < cMaxPages; omega)
  obtain ⟨m', L', hcalls, h', -⟩ := calls_refine hP hS ops h1 ha1 (by rw [hnum1]; show 0 + _ + _ < _; omega)
  refine ⟨m', L', ?_, h'⟩
  simp only [calls, call, hres, except_ok_bind, pure_bind, hcalls, absCalls, absCall]
  rfl

/-- A session on a constructed map that starts with `reserve`, with room in the pool for the pages its
calls may add, returns what the same calls return on the empty finite map. -/
theorem session_refines (hP : 0 < P) (hS : 0 < S) (numElements : Nat) (ops : List (MapOp K V))
    (hpages : runPages P (.reserve numElements :: ops) < cMaxPages) :
    ∃ m' L', (empty : HashMap K V).calls P S hash64 (.reserve numElements :: ops) =
        .ok (m', (absCalls ∅ (.reserve numElements :: ops)).2) ∧
      Refines P S hash64 m' L' (absCalls ∅ (.reserve numElements :: ops)).1 :=
  reserve_calls_refine hP hS numElements ops hpages

theorem session_refines_two_shards :
    runPages 2 (K := Nat) (V := Nat) (.reserve 2 :: [.insert 0 7, .find 0, .erase 0, .size]) < cMaxPages ∧
      ∃ m' L', (empty : HashMap Nat Nat).calls 2 2 id (.reserve 2 :: [.insert 0 7, .find 0, .erase 0, .size]) =
          .ok (m', (absCalls ∅ (.reserve 2 :: [.insert 0 7, .find 0, .erase 0, .size])).2) ∧
        Refines 2 2 id m' L' (absCalls ∅ (.reserve 2 :: [.insert 0 7, .find 0, .erase 0, .size])).1 :=
  ⟨by decide, session_refines (by decide) (by decide) 2 _ (by decide)⟩

/-- The invariant holds after every session on a constructed map that starts with `reserve` and stays within
the pool's pages. -/
theorem session_inv (hP : 0 < P) (hS : 0 < S) (numElements : Nat) (ops : List (MapOp K V))
    (hpages : runPages P (.reserve numElements :: ops) < cMaxPages) :
    ∃ m' rs, (empty : HashMap K V).calls P S hash64 (.reserve numElements :: ops) = .ok (m', rs) ∧
      Inv P S hash64 m' :=
  let ⟨m', L', hcalls, h'⟩ := reserve_calls_refine hP hS numElements ops hpages
  ⟨m', _, hcalls, L', h'.inv⟩

theorem session_inv_two_shards :
    runPages 2 (K := Nat) (V := Nat)
        (.reserve 2 :: [.insert 0 7, .insert 1 8, .erase 0, .clear, .insert 2 9]) <
        cMaxPages ∧
      ∃ m' rs, (empty : HashMap Nat Nat).calls 2 2 id
          (.reserve 2 :: [.insert 0 7, .insert 1 8, .erase 0, .clear, .insert 2 9]) = .ok (m', rs) ∧
        Inv 2 2 id m' :=
  ⟨by decide, session_inv (by decide) (by decide) 2 _ (by decide)⟩

end HashMap

end PklE.ThreadsafeContainers
