import SchedLm.Library.LeastCost
import SchedLm.Sim.Reliability

/-!
What routing can see. The cost model and every policy read a node's id, its
queue and its cache, and nothing else: not its retention marks, nor its
counters, capacity or eviction strategy.
-/

namespace SchedLm.Sim

open LeastCost Runs

variable {K : Type}

/-- The part of a node that routing reads, in an otherwise fresh node. -/
def Node.observed [Zero K] (n : Node K) : Node K :=
  { Node.init n.nodeId 0 with busyUntil := n.busyUntil, cache := n.cache }

/-- Nodes look the same when they agree on the three fields routing reads. -/
theorem Node.observed_eq_iff [Zero K] {n n' : Node K} : n.observed = n'.observed ↔
    n.nodeId = n'.nodeId ∧ n.busyUntil = n'.busyUntil ∧ n.cache = n'.cache := by
  constructor
  · intro h
    have hid : n.observed.nodeId = n'.observed.nodeId := congrArg Node.nodeId h
    have hbusy : n.observed.busyUntil = n'.observed.busyUntil := congrArg Node.busyUntil h
    have hcache : n.observed.cache = n'.observed.cache := congrArg Node.cache h
    exact ⟨hid, hbusy, hcache⟩
  · rintro ⟨hid, hbusy, hcache⟩
    unfold Node.observed
    rw [hid, hbusy, hcache]

theorem Node.matched_congr [Zero K] {n n' : Node K} (h : n.observed = n'.observed)
    (reqBlocks : List BlockHash) : n.matched reqBlocks = n'.matched reqBlocks := by
  unfold Node.matched
  rw [(observed_eq_iff.mp h).2.2]

variable [Scalar K]

theorem predict_observed (reqBlocks : List BlockHash) (node : Node K) (now : K)
    (params : CostParams K) (hot : Node K) (transfer : Bool) :
    predict reqBlocks node.observed now params hot.observed transfer =
      predict reqBlocks node now params hot transfer := rfl

theorem hotNode_observed (reqBlocks : List BlockHash) (nodes : List (Node K)) :
    hotNode reqBlocks (nodes.map Node.observed) =
      (hotNode reqBlocks nodes).map Node.observed := by
  have hbest : (nodes.map Node.observed).argmax (hotKey reqBlocks) =
      (nodes.argmax (hotKey reqBlocks)).map Node.observed :=
    argmax_map Node.observed (hotKey reqBlocks) nodes
  unfold hotNode
  rw [hbest]
  cases nodes.argmax (hotKey reqBlocks) <;> rfl

theorem bestPlacement_observed (reqBlocks : List BlockHash) (nodes : List (Node K)) (now : K)
    (params : CostParams K) (allowTransfer : Bool) :
    bestPlacement reqBlocks (nodes.map Node.observed) now params allowTransfer =
      bestPlacement reqBlocks nodes now params allowTransfer := by
  unfold bestPlacement
  rw [hotNode_observed, map_bind]
  congr 1
  funext hot
  rw [List.mapM_map]
  rfl

theorem leastLoaded_observed (nodes : List (Node K)) (now : K) (params : CostParams K) :
    leastLoaded (nodes.map Node.observed) now params =
      (leastLoaded nodes now params).map Node.observed := by
  have hleast : (nodes.map Node.observed).argmin
      (fun n => toLex (quantizedWait n now params, n.nodeId)) =
        (nodes.argmin fun n => toLex (quantizedWait n now params, n.nodeId)).map Node.observed :=
    argmin_map Node.observed (fun n => toLex (quantizedWait n now params, n.nodeId)) nodes
  unfold leastLoaded
  rw [hleast]
  cases nodes.argmin fun n => toLex (quantizedWait n now params, n.nodeId) <;> rfl

theorem transferAware_observed (req : RequestView) (nodes : List (Node K)) (now : K)
    (params : CostParams K) :
    transferAware req (nodes.map Node.observed) now params =
      transferAware req nodes now params := by
  unfold transferAware
  rw [hotNode_observed, map_bind]
  congr 1
  funext hot
  have hcandidates :
      ((nodes.map Node.observed).flatMap fun node => [(node, false), (node, true)]) =
        (nodes.flatMap fun node => [(node, false), (node, true)]).map
          (Prod.map Node.observed id) := by
    rw [List.flatMap_map, List.map_flatMap]
    rfl
  simp only [hcandidates, List.foldlM_map]
  rfl

theorem classAware_observed (req : RequestView) (nodes : List (Node K)) (now : K)
    (params : CostParams K) :
    classAware req (nodes.map Node.observed) now params = classAware req nodes now params := by
  unfold classAware
  cases classify req with
  | tool => exact transferAware_observed req nodes now params
  | oneshot =>
    simp only [leastLoaded_observed, hotNode_observed, map_bind, predict_observed]
  | rag =>
    simp only [hotNode_observed, map_bind, predict_observed, transferAware_observed]
    rfl

namespace WeightedScorers

theorem unsaturated_observed (scorers : WeightedScorers K) (nodes : List (Node K)) (now : K)
    (params : CostParams K) :
    scorers.unsaturated (nodes.map Node.observed) now params =
      (scorers.unsaturated nodes now params).map Node.observed := by
  unfold unsaturated
  have hfilter : ((nodes.map Node.observed).filter fun n =>
      quantizedWait n now params ≤ scorers.saturationDepth * nominalService params) =
        (nodes.filter fun n =>
          quantizedWait n now params ≤ scorers.saturationDepth * nominalService params).map
            Node.observed := by
    rw [List.filter_map]
    rfl
  simp only [hfilter, List.isEmpty_map]
  split_ifs <;> rfl

theorem score_observed (scorers : WeightedScorers K) (index : Option RouterIndex)
    (req : RequestView) (now : K) (params : CostParams K) (lo hi : K) (n : Node K) :
    scorers.score index req now params lo hi n.observed =
      scorers.score index req now params lo hi n := rfl

theorem call_observed (scorers : WeightedScorers K) (index : Option RouterIndex)
    (req : RequestView) (nodes : List (Node K)) (now : K) (params : CostParams K) :
    scorers.call index req (nodes.map Node.observed) now params =
      scorers.call index req nodes now params := by
  unfold call
  have hwaits : ((scorers.unsaturated nodes now params).map Node.observed).map
      (fun n => quantizedWait n now params) =
        (scorers.unsaturated nodes now params).map fun n => quantizedWait n now params := by
    rw [List.map_map]
    rfl
  dsimp only
  rw [unsaturated_observed, hwaits, List.length_map]
  split
  · rename_i lo hi _ _
    rw [List.mapM_map]
    have hscored : ∀ index, ((scorers.unsaturated nodes now params).mapM
        ((fun n => do
          let total ← scorers.score index req now params lo hi n
          return (total, n)) ∘ Node.observed)) =
          ((scorers.unsaturated nodes now params).mapM fun n => do
            let total ← scorers.score index req now params lo hi n
            return (total, n)).map (List.map (Prod.map id Node.observed)) := by
      intro index
      rw [← mapM_map_result]
      congr 1
      funext n
      change (scorers.score index req now params lo hi n.observed >>= _) = _
      rw [score_observed]
      cases scorers.score index req now params lo hi n <;> rfl
    rw [hscored, map_bind]
    congr 1
    funext scored
    have hbest : (scored.map (Prod.map id Node.observed)).argmax
        (fun (c : K × Node K) => toLex (c.1, OrderDual.toDual c.2.nodeId)) =
          (scored.argmax fun (c : K × Node K) =>
            toLex (c.1, OrderDual.toDual c.2.nodeId)).map (Prod.map id Node.observed) :=
      argmax_map (Prod.map id Node.observed)
        (fun (c : K × Node K) => toLex (c.1, OrderDual.toDual c.2.nodeId)) scored
    rw [hbest]
    cases scored.argmax fun (c : K × Node K) => toLex (c.1, OrderDual.toDual c.2.nodeId) with
    | none => rfl
    | some best =>
      obtain ⟨total, node⟩ := best
      simp only [Option.map_some, Prod.map_apply, hotNode_observed, map_bind, predict_observed]
      rfl
  · rfl

end WeightedScorers

/-- A policy whose answer depends on the observed part of the nodes only. -/
def Policy.ReadsObserved (policy : Policy K) : Prop :=
  ∀ state req (nodes : List (Node K)) now params,
    policy.call state req (nodes.map Node.observed) now params =
      policy.call state req nodes now params

theorem roundRobin_readsObserved : (roundRobin : Policy K).ReadsObserved := by
  intro (next : ℕ) req nodes now params
  simp only [roundRobin, hotNode_observed, map_bind, List.length_map, List.getElem?_map]
  cases nodes[next % nodes.length]? <;> rfl

theorem stateless_readsObserved {route : RoutingFunction K}
    (h : ∀ req nodes now params,
      route req (nodes.map Node.observed) now params = route req nodes now params) :
    (Policy.stateless route).ReadsObserved := by
  intro state req nodes now params
  simp only [h]

theorem cacheLocal_observed (req : RequestView) (nodes : List (Node K)) (now : K)
    (params : CostParams K) :
    cacheLocal req (nodes.map Node.observed) now params = cacheLocal req nodes now params := by
  unfold cacheLocal
  simp only [hotNode_observed, map_bind, predict_observed]

theorem oracle_observed (req : RequestView) (nodes : List (Node K)) (now : K)
    (params : CostParams K) :
    oracle req (nodes.map Node.observed) now params = oracle req nodes now params :=
  bestPlacement_observed req.blocks nodes now params true

theorem classAwareReliability_readsObserved (c : ClassAwareReliability K) :
    c.policy.ReadsObserved := by
  intro state req nodes now params
  simp only [ClassAwareReliability.call, classAware_observed]

/-- Every policy that can be built reads the observed part of the nodes only: their ids,
their queues and which blocks are cached, never the marks. -/
theorem buildPolicy_readsObserved {name : String} {retainMargin : K} {policy : Policy K}
    (h : buildPolicy name retainMargin = .ok policy) : policy.ReadsObserved := by
  unfold buildPolicy at h
  split at h
  · cases h
    exact roundRobin_readsObserved
  · cases h
    exact stateless_readsObserved cacheLocal_observed
  · cases h
    exact stateless_readsObserved transferAware_observed
  · cases h
    exact WeightedScorers.call_observed _
  · cases h
    exact WeightedScorers.call_observed _
  · cases h
    exact stateless_readsObserved classAware_observed
  · cases h
    exact classAwareReliability_readsObserved _
  · cases h
    exact stateless_readsObserved oracle_observed
  · cases h
    exact stateless_readsObserved oracle_observed
  · cases h

end SchedLm.Sim
