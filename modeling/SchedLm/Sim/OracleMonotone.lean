import SchedLm.Sim.Candidates

/-!
The oracle's cost as a function of the cluster. Warming a cache can make the
hot prefix longer and a transfer of it dearer, so single placements do get more
expensive; the least of serving in place and seeding does not.
-/

namespace SchedLm.Sim

open LeastCost Runs

variable {K : Type} [Scalar K]

/-- The same node with a warmer cache and no longer queue. Which blocks it has more of
is left open. -/
structure Node.Improves (n n' : Node K) : Prop where
  nodeId : n'.nodeId = n.nodeId
  cache : ∀ h ∈ n.cache, h ∈ n'.cache
  busyUntil : n'.busyUntil ≤ n.busyUntil

/-- A placement on a node is no dearer than one of the improved node's. -/
private theorem exists_idleTtft_le {reqBlocks : List BlockHash} {params : CostParams K}
    (hparams : params.Valid) {hot hot' node node' : Node K}
    (hmatched : node.matched reqBlocks ≤ node'.matched reqBlocks)
    (hhot : hot.matched reqBlocks ≤ hot'.matched reqBlocks) (transfer : Bool) :
    idleTtft reqBlocks params hot' node' false ≤ idleTtft reqBlocks params hot node transfer ∨
      transfer = true ∧ node'.matched reqBlocks < hot'.matched reqBlocks ∧
        idleTtft reqBlocks params hot' node' true ≤
          idleTtft reqBlocks params hot node transfer := by
  have hp := hparams.prefillPerBlock_nonneg
  have hb := hparams.linkPerBlock_nonneg
  have hlat := hparams.linkLatency
  have hmatched' : (node.matched reqBlocks : K) ≤ node'.matched reqBlocks :=
    Nat.cast_le.mpr hmatched
  have hhot' : (hot.matched reqBlocks : K) ≤ hot'.matched reqBlocks := Nat.cast_le.mpr hhot
  have hinPlace : idleTtft reqBlocks params hot' node' false ≤
      idleTtft reqBlocks params hot node false := by
    rw [idleTtft_inPlace, idleTtft_inPlace]
    gcongr
  cases transfer with
  | false => exact Or.inl hinPlace
  | true =>
    rcases le_or_gt (hot.matched reqBlocks) (node.matched reqBlocks) with hnone | hsome
    · rw [idleTtft_seeded_of_le hnone]
      exact Or.inl hinPlace
    · rw [idleTtft_seeded hsome, idleTtft_inPlace]
      have hgap : (0 : K) ≤ (hot.matched reqBlocks : K) - node.matched reqBlocks :=
        sub_nonneg.mpr (Nat.cast_le.mpr hsome.le)
      rcases le_or_gt (hot.matched reqBlocks) (node'.matched reqBlocks) with hwarm | hcold
      · -- The node has caught up with what it was seeded with.
        left
        have hwarm' : (hot.matched reqBlocks : K) ≤ node'.matched reqBlocks :=
          Nat.cast_le.mpr hwarm
        have hprefill := mul_le_mul_of_nonneg_right
          (sub_le_sub_left hwarm' (reqBlocks.length : K)) hp
        have hlink := mul_nonneg hgap hb
        linarith
      · have hcold' : (node'.matched reqBlocks : K) ≤ hot.matched reqBlocks :=
          Nat.cast_le.mpr hcold.le
        rcases le_total params.linkPerBlock params.prefillPerBlock with hfast | hslow
        · -- Each block moved costs no more than its prefill, so more of them help.
          right
          have hlt : node'.matched reqBlocks < hot'.matched reqBlocks := lt_of_lt_of_le hcold hhot
          refine ⟨rfl, hlt, ?_⟩
          rw [idleTtft_seeded hlt]
          have hmore := mul_le_mul_of_nonneg_left hfast (sub_nonneg.mpr hhot')
          have hless := mul_le_mul_of_nonneg_right hmatched' hb
          linarith
        · -- Each block moved costs more than its prefill, so prefilling it helps.
          left
          have hprefill := mul_le_mul_of_nonneg_right
            (sub_le_sub_left hmatched' (hot.matched reqBlocks : K)) hp
          have hlink := mul_le_mul_of_nonneg_left hslow hgap
          linarith

namespace Node.Improves

variable {n n' : Node K}

theorem matched_le (h : n.Improves n') (reqBlocks : List BlockHash) :
    n.matched reqBlocks ≤ n'.matched reqBlocks :=
  matchedPrefix_mono fun b hb => decide_eq_true (h.cache b (of_decide_eq_true hb))

theorem wait_le (h : n.Improves n') (now : K) : n'.wait now ≤ n.wait now :=
  max_le_max le_rfl (sub_le_sub_right h.busyUntil now)

end Node.Improves

section Clusters

variable {nodes nodes' : List (Node K)}

private theorem exists_improved (h : List.Forall₂ Node.Improves nodes nodes') {n : Node K}
    (hn : n ∈ nodes) : ∃ n' ∈ nodes', n.Improves n' := by
  induction h with
  | nil => cases hn
  | cons hfirst hrest ih =>
    rcases List.mem_cons.mp hn with rfl | hn
    · exact ⟨_, List.mem_cons_self, hfirst⟩
    · obtain ⟨n', hn', himproves⟩ := ih hn
      exact ⟨n', List.mem_cons_of_mem _ hn', himproves⟩

private theorem nodeIds_eq (h : List.Forall₂ Node.Improves nodes nodes') :
    nodes'.map Node.nodeId = nodes.map Node.nodeId := by
  induction h with
  | nil => rfl
  | cons hfirst hrest ih => rw [List.map_cons, List.map_cons, hfirst.nodeId, ih]

/-- Warming caches and shortening queues, on any number of nodes at once, never makes
the oracle's TTFT worse, with or without transfers and although the hot node may change
by it. -/
theorem bestPlacement_mono (reqBlocks : List BlockHash) (now : K) (params : CostParams K)
    (allowTransfer : Bool) (hparams : params.Valid) (hids : DistinctIds nodes)
    (hne : nodes ≠ []) (h : List.Forall₂ Node.Improves nodes nodes') :
    ∃ best best', bestPlacement reqBlocks nodes now params allowTransfer = .ok best ∧
      bestPlacement reqBlocks nodes' now params allowTransfer = .ok best' ∧
      best'.ttft ≤ best.ttft := by
  have hids' : DistinctIds nodes' := by
    unfold DistinctIds
    rw [nodeIds_eq h]
    exact hids
  obtain ⟨hot, hhot⟩ := exists_hotNode reqBlocks hne
  obtain ⟨warmed, hwarmed, hwarmer⟩ := exists_improved h (hotNode_eq_ok hhot).1
  obtain ⟨hot', hhot'⟩ := exists_hotNode reqBlocks (List.ne_nil_of_mem hwarmed)
  have hlonger : hot.matched reqBlocks ≤ hot'.matched reqBlocks :=
    (hwarmer.matched_le reqBlocks).trans (matched_le_hot hhot' hwarmed)
  obtain ⟨best, hbest⟩ : ∃ best, bestPlacement reqBlocks nodes now params allowTransfer =
      .ok best := exists_bestPlacement hhot fun _ _ => hparams.canPrice _
  obtain ⟨best', hbest'⟩ : ∃ best, bestPlacement reqBlocks nodes' now params allowTransfer =
      .ok best := exists_bestPlacement hhot' fun _ _ => hparams.canPrice _
  refine ⟨best, best', hbest, hbest', ?_⟩
  obtain ⟨hot₁, c, hc, rfl⟩ := exists_best hbest
  obtain ⟨hot₂, c', hc', rfl⟩ := exists_best hbest'
  obtain rfl := Except.ok.inj (hhot.symm.trans hc.isHot)
  obtain rfl := Except.ok.inj (hhot'.symm.trans hc'.isHot)
  obtain ⟨node', hnode', himproves⟩ := exists_improved h hc.least.mem.1
  -- Whatever placement was best, the improved node offers one as good.
  have hoffer : ∃ transfer, Candidate nodes' allowTransfer hot' (node', transfer) ∧
      idleTtft reqBlocks params hot' node' transfer ≤
        idleTtft reqBlocks params hot c.1 c.2 := by
    rcases exists_idleTtft_le hparams (himproves.matched_le reqBlocks) hlonger c.2 with
      hle | ⟨hflag, hlt, hle⟩
    · exact ⟨false, ⟨hnode', Or.inl rfl⟩, hle⟩
    · refine ⟨true, ⟨hnode', Or.inr ⟨?_, ?_⟩⟩, hle⟩
      · rcases hc.least.mem.2 with hfalse | ⟨hallow, -⟩
        · rw [hflag] at hfalse
          cases hfalse
        · exact hallow
      · intro hid
        rw [hids'.eq_of_nodeId_eq hnode' (hotNode_eq_ok hhot').1 hid] at hlt
        exact lt_irrefl _ hlt
  obtain ⟨transfer, hcandidate, hle⟩ := hoffer
  calc (predicted reqBlocks c'.1 now params hot' c'.2).ttft
      ≤ (predicted reqBlocks node' now params hot' transfer).ttft :=
        hc'.least.cost_le hcandidate
    _ ≤ (predicted reqBlocks c.1 now params hot c.2).ttft :=
        add_le_add (himproves.wait_le now) hle

end Clusters

/-- The busier node gets a longer prefix, which makes it the hot one. -/
theorem bestPlacement_mono_warmed : ∃ best best',
    bestPlacement [1, 2] [holding 0 1 [1], holding 1 3 []] (0 : ℚ) {} = .ok best ∧
    bestPlacement [1, 2] [holding 0 1 [1], holding 1 2 [1, 2]] 0 {} = .ok best' ∧
    best'.ttft ≤ best.ttft := by
  have hfirst : (holding 0 (1 : ℚ) [1]).Improves (holding 0 1 [1]) := ⟨rfl, fun _ h => h, le_rfl⟩
  have hsecond : (holding 1 (3 : ℚ) []).Improves (holding 1 2 [1, 2]) :=
    ⟨rfl, fun _ h => absurd h (List.not_mem_nil), by norm_num [holding]⟩
  exact bestPlacement_mono [1, 2] 0 {} true CostParams.valid_default
    (by unfold DistinctIds; decide) (List.cons_ne_nil _ _)
    (.cons hfirst (.cons hsecond .nil))

end SchedLm.Sim
