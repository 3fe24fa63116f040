import SchedLm.Sim.EngineRun

/-!
The oracle as a lower bound. On the node state of any turn no placement, listed
by the oracle or not, has a smaller true TTFT, and a run routed by the oracle
has no regret.
-/

namespace SchedLm.Sim

open Runs

variable {K : Type} [Scalar K]

section Turn

variable {requests : List (TurnRequest K)} {policy : Policy K} {numNodes : ℕ}
  {cacheBlocks : ℤ} {params : CostParams K} {belady : Bool} {k : ℕ}
  {s : SimState K policy.State} {req : TurnRequest K} {t : Turn K policy.State}

/-- The realized placement is never cheaper than the oracle's. The pair the
oracle leaves out, seeding the hot node from itself, costs what serving it in
place does. -/
theorem Visits.oracle_le_realized
    (h : Visits requests policy numNodes cacheBlocks params belady k s req t) :
    t.oracle.ttft ≤ t.realized.ttft := by
  have hrouted := h.routed
  have hcluster := h.cluster.2
  obtain ⟨hot, hhot, -, hleast⟩ := bestPlacement_eq_ok hrouted.oracle
  obtain rfl : hot = t.hot := Except.ok.inj (hhot.symm.trans hrouted.hot)
  have hnode : t.node ∈ s.nodes := List.mem_of_getElem? hrouted.node
  cases htransfer : t.chosen.transfer with
  | false =>
    exact hleast t.node hnode false _ (Or.inl rfl) (htransfer ▸ hrouted.realized)
  | true =>
    have hrealized := hrouted.realized
    rw [htransfer] at hrealized
    by_cases hself : t.node.nodeId = t.hot.nodeId
    · have heq : t.node = t.hot :=
        hcluster.eq_of_nodeId_eq hnode (hotNode_mem hrouted.hot) hself
      rw [heq] at hrealized hnode
      -- transferring nothing cannot raise, so the in-place prediction exists
      obtain ⟨p, hp⟩ : ∃ p, predict req.blockHashes t.hot req.arrival params t.hot false =
          .ok p := by
        simp [predict, CostParams.transferTime, bind, Except.bind, pure, Except.pure]
      have hle := hleast t.hot hnode false p (Or.inl rfl) hp
      rwa [predict_hot_ttft hp hrealized] at hle
    · exact hleast t.node hnode true _ (Or.inr ⟨rfl, hself⟩) hrealized

end Turn

section OracleRun

variable {requests : List (TurnRequest K)} {numNodes : ℕ} {cacheBlocks : ℤ}
  {params : CostParams K} {belady : Bool} {k : ℕ}

/-- Routed by the oracle, a turn realizes the oracle's placement. -/
theorem Visits.regret_eq_zero {s : SimState K Unit} {req : TurnRequest K} {t : Turn K Unit}
    (h : Visits requests (.stateless oracle) numNodes cacheBlocks params belady k s req t) :
    t.regret = 0 := by
  have hrouted := h.routed
  have hcall := hrouted.call
  simp only [Policy.stateless, bind_eq_ok] at hcall
  obtain ⟨place, hplace, hcall⟩ := hcall
  cases hcall
  have hchosen : t.chosen = t.oracle := Except.ok.inj (hplace.symm.trans hrouted.oracle)
  obtain ⟨hot, hhot, ⟨node, hnode, transfer, -, hpredict⟩, -⟩ :=
    bestPlacement_eq_ok hrouted.oracle
  obtain rfl : hot = t.hot := Except.ok.inj (hhot.symm.trans hrouted.hot)
  obtain ⟨cost, hpredicted⟩ := predict_eq_ok hpredict
  have hsame : t.node = node := by
    have hget := hrouted.node
    rw [hchosen, hpredicted.nodeId, h.cluster.2.getElem?_nodeId hnode] at hget
    exact (Option.some.inj hget).symm
  have hrealized := hrouted.realized
  rw [hsame, hchosen, hpredicted.transfer, hpredict] at hrealized
  rw [Turn.regret, ← Except.ok.inj hrealized, sub_self, max_self]

/-- Nothing but zero among the recorded regrets, in total and by class. The clamp at
zero has nothing to do. -/
def NoRegret (result : SimResult K) : Prop :=
  (∀ regret ∈ result.regrets, regret = 0) ∧
    ∀ kind stats, result.byKind.lookup kind = some stats → ∀ regret ∈ stats.regrets, regret = 0

theorem NoRegret.recordTurn {result : SimResult K} (h : NoRegret result)
    {req : TurnRequest K} {t : Turn K Unit} (hregret : t.regret = 0) (tool : Option String)
    (gap : Option K) : NoRegret ((result.recordGap tool gap).recordTurn params req t) := by
  rw [SimResult.recordGap_frame]
  have hold : ∀ regret ∈ ((result.byKind.lookup req.kind).getD {}).regrets, regret = 0 := by
    cases hkind : result.byKind.lookup req.kind with
    | none => simp
    | some stats => exact h.2 req.kind stats hkind
  constructor
  · intro regret hmem
    simp only [SimResult.recordTurn, List.mem_append, List.mem_singleton] at hmem
    rcases hmem with hmem | rfl
    · exact h.1 regret hmem
    · exact hregret
  · intro kind stats hlookup regret hmem
    simp only [SimResult.recordTurn] at hlookup
    rcases eq_or_ne kind req.kind with rfl | hne
    · rw [OrderedDict.lookup_setItem, Option.some.injEq] at hlookup
      subst hlookup
      rcases List.mem_append.mp hmem with hmem | hmem
      · exact hold regret hmem
      · rw [List.mem_singleton.mp hmem, hregret]
    · rw [OrderedDict.lookup_setItem_ne hne] at hlookup
      exact h.2 kind stats hlookup regret hmem

theorem simAfter_noRegret (hk : k ≤ requests.length) {s : SimState K Unit}
    (hrun : simAfter requests (.stateless oracle) numNodes cacheBlocks params belady k =
      .ok s) : NoRegret s.result := by
  refine simAfter_induction (fun _ s => NoRegret s.result) ?_ ?_ hk hrun
  · exact ⟨by simp [simStart], by simp [simStart]⟩
  · intro k s req s' hreq hbefore hnone hstep
    obtain ⟨t, node, hroute, -, rfl⟩ := simStep_eq_ok hstep
    exact hnone.recordTurn (Visits.regret_eq_zero ⟨hbefore, hreq, hroute⟩) _ _

end OracleRun

/-- Whatever the stream, the cluster, the costs, the eviction strategy and the policy,
no turn of any run realizes less than the TTFT the oracle gives for the same node state,
before any clamp; and a run routed by the oracle itself records no regret at all, in
total or in any class. -/
theorem oracle_is_lower_bound (requests : List (TurnRequest K)) (numNodes : ℕ)
    (cacheBlocks : ℤ) (params : CostParams K) (belady : Bool) :
    (∀ (policy : Policy K) k s req t,
      Visits requests policy numNodes cacheBlocks params belady k s req t →
      t.oracle.ttft ≤ t.realized.ttft) ∧
    ∀ result, runSimulation requests (.stateless oracle) numNodes cacheBlocks params belady =
      .ok result → NoRegret result := by
  constructor
  · intro policy k s req t h
    exact h.oracle_le_realized
  · intro result hrun
    unfold runSimulation at hrun
    rw [bind_eq_ok] at hrun
    obtain ⟨s, hs, hresult⟩ := hrun
    cases hresult
    exact simAfter_noRegret le_rfl hs

/-- Three requests in a hurry that share a block. -/
def sharedRush : List (TurnRequest ℚ) :=
  [{ arrival := 0, tokens := [], blockHashes := [7], genTokens := 10 },
   { arrival := 1 / 100, tokens := [], blockHashes := [7, 8], genTokens := 10 },
   { arrival := 1 / 50, tokens := [], blockHashes := [7], genTokens := 10 }]

/-- On two nodes the rotation's second turn is slower than the oracle's, and the
oracle's own run has nothing to regret. -/
theorem oracle_is_lower_bound_two :
    (∃ s req t, Visits sharedRush roundRobin 2 8 {} false 1 s req t ∧
      t.oracle.ttft ≤ t.realized.ttft ∧ t.oracle.ttft ≠ t.realized.ttft) ∧
    ∃ result, runSimulation sharedRush (.stateless oracle) 2 8 {} = .ok result ∧
      result.successes = 3 ∧ NoRegret result := by
  constructor
  · have hturn : (do
        let s ← simAfter sharedRush roundRobin 2 8 {} false 1
        let t ← routeTurn roundRobin {} s
          { arrival := 1 / 100, tokens := [], blockHashes := [7, 8], genTokens := 10 }
        return decide (t.oracle.ttft ≠ t.realized.ttft)) = .ok true := by decide +kernel
    simp only [bind_eq_ok] at hturn
    obtain ⟨s, hs, t, ht, hworse⟩ := hturn
    have hvisit : Visits sharedRush roundRobin 2 8 {} false 1 s _ t := ⟨hs, rfl, ht⟩
    exact ⟨s, _, t, hvisit, (oracle_is_lower_bound sharedRush 2 8 {} false).1 _ 1 s _ t hvisit,
      of_decide_eq_true (Except.ok.inj hworse)⟩
  · have hrun : (runSimulation sharedRush (.stateless oracle) 2 8 {}).map
        (fun result => result.successes) = .ok 3 := by decide +kernel
    obtain ⟨result, hresult, hthree⟩ := map_eq_ok.mp hrun
    exact ⟨result, hresult, hthree,
      (oracle_is_lower_bound sharedRush 2 8 {} false).2 result hresult⟩

end SchedLm.Sim
