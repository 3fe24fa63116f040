import SchedLm.Sim.Belady

/-!
When the eviction loop of `admit` ends. Every turn removes a resident while there
is one, so the loop ends once the cache fits. An empty cache fits every capacity
but a negative one, and under a negative capacity the loop goes on for ever.
-/

namespace SchedLm.Sim.Node

variable {K : Type} [Scalar K]

/-- The eviction loop, started in this state, stops after some number of turns. -/
def LoopEnds (n : Node K) (now : K) : Prop := ∃ turns n', n.evictWhile now turns = some n'

theorem evictOne_removes (n : Node K) (now : K) (hne : n.cache.keys ≠ []) :
    ∃ victim ∈ n.cache.keys, (n.pickVictim now).1 = some victim ∧
      (n.evictOne now).cache.keys = n.cache.keys.erase victim := by
  obtain ⟨victim, hmem, hpick, -⟩ := n.pickVictim_resident now hne
  refine ⟨victim, hmem, hpick, ?_⟩
  obtain ⟨pressure, ⟨hnone, -⟩ | ⟨found, hfound, heq⟩⟩ := n.evictOne_cases now
  · rw [hpick] at hnone
    cases hnone
  · obtain rfl : victim = found := Option.some.inj (hpick.symm.trans hfound)
    rw [heq, AList.keys_erase]

theorem evictWhile_negative {n : Node K} (hneg : n.cacheCapacity < 0) (now : K) (turns : ℕ) :
    n.evictWhile now turns = none := by
  induction turns generalizing n with
  | zero =>
    unfold evictWhile
    rw [if_pos (by omega)]
  | succ turns ih =>
    unfold evictWhile
    rw [if_pos (by omega)]
    apply ih
    rw [(n.evictOne_sameServer now).cacheCapacity]
    exact hneg

/-- In any state at all, the loop ends exactly when the capacity is not negative. -/
theorem loopEnds_iff (n : Node K) (now : K) : n.LoopEnds now ↔ 0 ≤ n.cacheCapacity := by
  constructor
  · rintro ⟨turns, n', hrun⟩
    by_contra hneg
    rw [evictWhile_negative (not_le.mp hneg)] at hrun
    cases hrun
  · intro hcap
    obtain ⟨n', hrun, -⟩ := evictWhile_fits now n.cache.len n hcap le_rfl
    exact ⟨_, n', hrun⟩

theorem cacheCapacity_insertBlocks (n : Node K) (call : AdmitCall K) :
    (n.insertBlocks call).cacheCapacity = n.cacheCapacity := by
  rw [insertBlocks_frame]

/-- A request gets through exactly when its eviction loop ends. -/
theorem exists_admitRequest_iff (n : Node K) (call : AdmitCall K) :
    (∃ n', n.admitRequest call = some n') ↔ (n.insertBlocks call).LoopEnds call.now := by
  constructor
  · rintro ⟨n', hrun⟩
    exact ⟨_, n', hrun⟩
  · intro hends
    rw [loopEnds_iff, cacheCapacity_insertBlocks] at hends
    obtain ⟨n', hrun, -⟩ := n.admitRequest_fits call hends
    exact ⟨n', hrun⟩

theorem cacheCapacity_admitAll {n n' : Node K} {calls : List (AdmitCall K)}
    (hrun : n.admitAll calls = some n') : n'.cacheCapacity = n.cacheCapacity := by
  induction calls generalizing n with
  | nil =>
    obtain rfl : n = n' := Option.some.inj hrun
    rfl
  | cons call rest ih =>
    rw [admitAll, List.foldlM_cons] at hrun
    obtain ⟨m, hcall, hrest⟩ := Option.bind_eq_some_iff.mp hrun
    rw [ih hrest, (admitRequest_sameServer hcall).cacheCapacity]

/-- In every state a node reaches, under either strategy and any table of future uses,
the loop of the next request ends, and the request gets through, exactly when the node
was built with no negative capacity; and then every sequence of requests is served. A
turn of the loop removes a resident if there is one, so it is an empty cache over a
negative capacity that it never gets past. -/
theorem eviction_ends_iff (nodeId : ℕ) (cacheBlocks : ℤ) (eviction : Eviction) :
    (∀ (calls : List (AdmitCall K)) (n : Node K) (call : AdmitCall K),
      (init nodeId cacheBlocks eviction).admitAll calls = some n →
        ((n.insertBlocks call).LoopEnds call.now ↔ 0 ≤ cacheBlocks) ∧
        ((∃ n', n.admitRequest call = some n') ↔ 0 ≤ cacheBlocks)) ∧
    (0 ≤ cacheBlocks → ∀ calls : List (AdmitCall K),
      ∃ n, (init nodeId cacheBlocks eviction).admitAll calls = some n) ∧
    ∀ (m : Node K) (now : K), m.cache.keys ≠ [] →
      ∃ victim ∈ m.cache.keys, (m.pickVictim now).1 = some victim ∧
        (m.evictOne now).cache.keys = m.cache.keys.erase victim := by
  refine ⟨?_, ?_, fun m now hne => m.evictOne_removes now hne⟩
  · intro calls n call hrun
    have hends : (n.insertBlocks call).LoopEnds call.now ↔ 0 ≤ cacheBlocks := by
      rw [loopEnds_iff, cacheCapacity_insertBlocks, cacheCapacity_admitAll hrun]
      rfl
    exact ⟨hends, (n.exists_admitRequest_iff call).trans hends⟩
  · intro hcap calls
    obtain ⟨n, hn, -⟩ := exists_admitAll_take calls
      (show 0 ≤ (init nodeId cacheBlocks eviction : Node K).cacheCapacity from hcap) le_rfl
    rw [List.take_length] at hn
    exact ⟨n, hn⟩

/-- A lookahead node with one slot, and a block of its own to evict. -/
theorem eviction_ends_two :
    let fresh : Node ℚ := init 0 1 (.belady (AList.insert 7 [0, 1] ∅))
    let call : AdmitCall ℚ := { now := 0, serviceTime := 1, reqBlocks := [7, 8] }
    (fresh.insertBlocks call).LoopEnds call.now ∧
      ∃ n, fresh.admitAll [call, call] = some n := by
  intro fresh call
  obtain ⟨hends, hserved, -⟩ := @eviction_ends_iff ℚ _ 0 1 (.belady (AList.insert 7 [0, 1] ∅))
  exact ⟨(hends [] fresh call rfl).1.mpr (by decide), hserved (by decide) _⟩

/-- A node built with capacity minus one never gets through its first request,
although nothing is cached. -/
theorem eviction_endless :
    ¬((init 0 (-1) : Node ℚ).insertBlocks
      { now := 0, serviceTime := 1, reqBlocks := [] }).LoopEnds 0 := by
  rw [loopEnds_iff]
  decide

end SchedLm.Sim.Node
