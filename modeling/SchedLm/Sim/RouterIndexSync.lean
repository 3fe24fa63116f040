import SchedLm.Sim.EngineRun

/-!
The router-side index against true cache state. Without directives a node is a
plain LRU list, and an index of the same capacity that sees the same requests
in the same order is the same list. So the approximate scorer reads what the
precise one does, and the two runs coincide.
-/

namespace SchedLm.Sim

open Runs

variable {K : Type} [Scalar K]

namespace Node

theorem evictOne_unmarked {n : Node K} (now : K) (hlru : n.eviction = .lru)
    (hunmarked : n.priority = ∅) {oldest : BlockHash} {rest : List BlockHash}
    (hkeys : n.cache.keys = oldest :: rest) :
    (n.evictOne now).priority = ∅ ∧ (n.evictOne now).cache.keys = rest := by
  have hone : n.evictOne now = { n with
      cache := n.cache.erase oldest
      priority := n.priority.erase oldest
      expiry := n.expiry.erase oldest } := by
    simp [evictOne, pickVictim, hlru, hunmarked, hkeys]
  rw [hone]
  refine ⟨?_, ?_⟩
  · rw [hunmarked]
    rfl
  · rw [AList.keys_erase, hkeys, List.erase_cons_head]

/-- What the eviction loop has made of a node without marks: the newest blocks
are left. -/
structure NewestLeft (n m : Node K) : Prop where
  lru : m.eviction = .lru
  unmarked : m.priority = ∅
  le : m.cache.len ≤ n.cache.len
  keys : m.cache.keys = n.cache.keys.drop (n.cache.len - m.cache.len)

theorem NewestLeft.evictOne {n m : Node K} (h : NewestLeft n m) (now : K)
    (hne : m.cache.keys ≠ []) :
    NewestLeft n (m.evictOne now) ∧ (m.evictOne now).cache.len + 1 = m.cache.len := by
  obtain ⟨oldest, rest, hkeys⟩ := List.exists_cons_of_ne_nil hne
  obtain ⟨hempty, hrest⟩ := evictOne_unmarked now h.lru h.unmarked hkeys
  have hlen : (m.evictOne now).cache.len + 1 = m.cache.len := by
    simp [OrderedDict.len, hrest, hkeys]
  have hle := h.le
  have hnext : n.cache.len - (m.evictOne now).cache.len = n.cache.len - m.cache.len + 1 := by
    omega
  refine ⟨⟨(m.evictOne_sameServer now).eviction.trans h.lru, hempty, by omega, ?_⟩, hlen⟩
  rw [hrest, hnext, ← List.tail_drop, ← h.keys, hkeys, List.tail_cons]

/-- With no block marked, the eviction loop drops the oldest blocks. -/
theorem evictWhile_unmarked (now : K) (fuel : ℕ) (n : Node K) (hlru : n.eviction = .lru)
    (hunmarked : n.priority = ∅) {capacity : ℕ} (hcap : n.cacheCapacity = capacity)
    (hfuel : n.cache.len ≤ fuel) :
    ∃ n', n.evictWhile now fuel = some n' ∧ n'.priority = ∅ ∧
      n'.cache.keys = n.cache.keys.drop (n.cache.len - capacity) := by
  obtain ⟨n', hrun, hleft, hfit⟩ := evictWhile_rule (NewestLeft n)
    (fun m hm _ hne => hm.evictOne now hne) ⟨hlru, hunmarked, le_rfl, by simp⟩ (by omega) hfuel
  refine ⟨n', hrun, hleft.unmarked, ?_⟩
  have hgone : n.cache.len - n'.cache.len = n.cache.len - capacity := by
    rw [hfit, hcap]
    omega
  rw [hleft.keys, hgone]

/-- A request without a directive does to the cache what recording it does to a
router index of the same capacity. -/
theorem admitRequest_unmarked {n : Node K} (call : AdmitCall K) (hlru : n.eviction = .lru)
    (hunmarked : n.priority = ∅) {capacity : ℕ} (hcap : n.cacheCapacity = capacity)
    (hpriority : call.priority = none) (hlease : call.retainUntil ≤ (call.now : WithTop K)) :
    ∃ n', n.admitRequest call = some n' ∧ n'.priority = ∅ ∧
      n'.cache = OrderedDict.popWhileOver (RouterIndex.touchAll n.cache call.reqBlocks)
        capacity := by
  have hmark : (directive call.now call.retainUntil call.priority).1 = none := by
    simp only [directive, hpriority, if_neg (not_lt.mpr hlease)]
  have hinsert : ∀ (reqBlocks : List BlockHash) (expiry : WithTop K) (m : Node K),
      m.priority = ∅ → (reqBlocks.foldl (stamp none expiry) m).priority = ∅ ∧
        (reqBlocks.foldl (stamp none expiry) m).cache =
          RouterIndex.touchAll m.cache reqBlocks := by
    intro reqBlocks expiry
    induction reqBlocks with
    | nil => exact fun m hm => ⟨hm, rfl⟩
    | cons h rest ih =>
      intro m hm
      have hstamp : (stamp none expiry m h).priority = ∅ := by
        simp only [stamp, hm]
        rfl
      exact ih (stamp none expiry m h) hstamp
  have hframe := n.insertBlocks_frame call
  obtain ⟨hempty, hcache⟩ := hinsert call.reqBlocks
    (directive call.now call.retainUntil call.priority).2
    { n with
      atIndex := call.atIndex
      busyUntil := max call.now n.busyUntil + call.serviceTime } hunmarked
  rw [← hmark] at hempty hcache
  obtain ⟨n', hrun, hnone, hkeys⟩ := evictWhile_unmarked call.now
    (n.insertBlocks call).cache.len (n.insertBlocks call) (by rw [hframe]; exact hlru) hempty
    (by rw [hframe]; exact hcap) le_rfl
  refine ⟨n', hrun, hnone, OrderedDict.ext_keys ?_⟩
  have hinserted : (n.insertBlocks call).cache = RouterIndex.touchAll n.cache call.reqBlocks :=
    hcache
  rw [hkeys, OrderedDict.keys_popWhileOver, hinserted]
  rfl

end Node

/-- The index, once built, believes exactly what the nodes hold, node by node, block by
block and in the same order. -/
def Mirrors (capacity : ℕ) (index : Option RouterIndex) (nodes : List (Node K)) : Prop :=
  index.getD (RouterIndex.init nodes.length capacity) =
    { capacity := capacity, blocks := nodes.map Node.cache }

section Call

variable {prefixWeight loadWeight : K} {saturationDepth : ℤ} {capacity otherCapacity : ℕ}

/-- The two scorers compared: same weights and filter, different information. -/
def approxScorers (prefixWeight loadWeight : K) (saturationDepth : ℤ) (capacity : ℕ) :
    WeightedScorers K :=
  { precise := false, prefixWeight, loadWeight, saturationDepth, indexCapacity := capacity }

def preciseScorers (prefixWeight loadWeight : K) (saturationDepth : ℤ) (capacity : ℕ) :
    WeightedScorers K :=
  { precise := true, prefixWeight, loadWeight, saturationDepth, indexCapacity := capacity }

/-- A belief that mirrors the nodes scores as true state does. -/
theorem prefixScore_eq {nodes : List (Node K)} {cacheBlocks : ℤ} {numNodes : ℕ}
    (hcluster : Cluster numNodes cacheBlocks .lru nodes) {n : Node K} (hn : n ∈ nodes)
    (other : Option RouterIndex) (reqBlocks : List BlockHash) :
    (approxScorers prefixWeight loadWeight saturationDepth capacity).prefixScore
        (some { capacity := capacity, blocks := nodes.map Node.cache }) n reqBlocks =
      (preciseScorers prefixWeight loadWeight saturationDepth otherCapacity).prefixScore
        other n reqBlocks := by
  have hheld : (nodes.map Node.cache)[n.nodeId]? = some n.cache := by
    rw [List.getElem?_map, hcluster.getElem?_nodeId hn]
    rfl
  simp only [WeightedScorers.prefixScore, approxScorers, preciseScorers, RouterIndex.matched,
    hheld, Bool.false_eq_true, if_false, if_true]
  split_ifs <;> rfl

theorem score_eq {nodes : List (Node K)} {cacheBlocks : ℤ} {numNodes : ℕ}
    (hcluster : Cluster numNodes cacheBlocks .lru nodes) {n : Node K} (hn : n ∈ nodes)
    (other : Option RouterIndex) (req : RequestView) (now : K) (params : CostParams K)
    (lo hi : K) :
    (approxScorers prefixWeight loadWeight saturationDepth capacity).score
        (some { capacity := capacity, blocks := nodes.map Node.cache }) req now params lo hi n =
      (preciseScorers prefixWeight loadWeight saturationDepth otherCapacity).score
        other req now params lo hi n := by
  unfold WeightedScorers.score
  rw [prefixScore_eq hcluster hn other req.blocks]
  rfl

/-- What a call of the approximate scorer answers beside the precise one. -/
structure SameAnswer (capacity : ℕ) (nodes : List (Node K)) (reqBlocks : List BlockHash)
    (approx precise : Option RouterIndex × Placement K) : Prop where
  placement : approx.2 = precise.2
  retainUntil : approx.2.retainUntil = ((0 : K) : WithTop K)
  priority : approx.2.priority = none
  index : ∀ best, nodes[approx.2.nodeId]? = some best → approx.1 = some
    { capacity := capacity
      blocks := (nodes.map Node.cache).set approx.2.nodeId
        (OrderedDict.popWhileOver (RouterIndex.touchAll best.cache reqBlocks) capacity) }

theorem unsaturated_subset (scorers : WeightedScorers K) (nodes : List (Node K)) (now : K)
    (params : CostParams K) : scorers.unsaturated nodes now params ⊆ nodes := by
  unfold WeightedScorers.unsaturated
  dsimp only
  split_ifs
  · exact List.Subset.refl nodes
  · exact List.filter_subset_self nodes

/-- One call on mirrored belief: both scorers raise the same error or return the
same placement, and the index records what admitting the request will do. -/
theorem call_sameAnswer {nodes : List (Node K)} {cacheBlocks : ℤ} {numNodes : ℕ}
    (hcluster : Cluster numNodes cacheBlocks .lru nodes) {index : Option RouterIndex}
    (hmirrors : Mirrors capacity index nodes) (other : Option RouterIndex) (req : RequestView)
    (now : K) (params : CostParams K) :
    Related (SameAnswer capacity nodes req.blocks)
      ((approxScorers prefixWeight loadWeight saturationDepth capacity).call index req nodes
        now params)
      ((preciseScorers prefixWeight loadWeight saturationDepth otherCapacity).call other req
        nodes now params) := by
  have hsubset := unsaturated_subset
    (approxScorers prefixWeight loadWeight saturationDepth capacity) nodes now params
  have hindex : index.getD (RouterIndex.init nodes.length
      (approxScorers prefixWeight loadWeight saturationDepth capacity).indexCapacity) =
      { capacity := capacity, blocks := nodes.map Node.cache } := hmirrors
  have hcandidates : (preciseScorers prefixWeight loadWeight saturationDepth
      otherCapacity).unsaturated nodes now params = (approxScorers prefixWeight loadWeight
        saturationDepth capacity).unsaturated nodes now params := rfl
  unfold WeightedScorers.call
  rw [hindex, hcandidates]
  generalize (approxScorers prefixWeight loadWeight saturationDepth capacity).unsaturated
    nodes now params = candidates at hsubset
  dsimp only
  split
  · rename_i lo hi _ _
    have hscored : (candidates.mapM fun n => do
          let total ← (approxScorers prefixWeight loadWeight saturationDepth capacity).score
            (some { capacity := capacity, blocks := nodes.map Node.cache }) req now params lo hi n
          return (total, n)) =
        candidates.mapM fun n => do
          let total ← (preciseScorers prefixWeight loadWeight saturationDepth
            otherCapacity).score (some (other.getD (RouterIndex.init nodes.length
              otherCapacity))) req now params lo hi n
          return (total, n) := by
      apply mapM_congr
      intro n hn
      rw [score_eq hcluster (hsubset hn)]
    rw [hscored]
    refine (Related.self _).bind ?_
    rintro scored _ ⟨rfl, hresult⟩
    split
    · exact .error _
    · rename_i total best hbest
      -- the best candidate is one of the nodes, so the index has a list for it
      obtain ⟨n, hn, hfrom⟩ := exists_of_mem_result hresult (List.argmax_mem hbest)
      obtain ⟨_, -, hpair⟩ := bind_eq_ok.mp hfrom
      obtain ⟨-, rfl⟩ := Prod.mk.inj (Except.ok.inj hpair)
      have hget := hcluster.getElem?_nodeId (hsubset hn)
      have hrecord : RouterIndex.record
          { capacity := capacity, blocks := nodes.map Node.cache } n.nodeId req.blocks =
          .ok { capacity := capacity
                blocks := (nodes.map Node.cache).set n.nodeId (OrderedDict.popWhileOver
                  (RouterIndex.touchAll n.cache req.blocks) capacity) } := by
        simp [RouterIndex.record, hget]
      simp only [approxScorers, preciseScorers, Bool.false_eq_true, if_false, if_true, hrecord]
      refine (Related.self (hotNode req.blocks nodes)).bind ?_
      rintro hot _ ⟨rfl, -⟩
      refine (Related.self (predict req.blocks n now params hot false)).bind ?_
      rintro place _ ⟨rfl, hplace⟩
      obtain ⟨cost, hpredicted⟩ := predict_eq_ok hplace
      refine .ok ⟨rfl, hpredicted.retainUntil, hpredicted.priority, ?_⟩
      intro best hbest
      rw [hpredicted.nodeId, hget, Option.some.injEq] at hbest
      rw [hpredicted.nodeId, hbest]
  · exact .error _

/-- The two runs between requests: everything but the scorers' memory agrees,
no block is marked, and the approximate scorer's index mirrors the nodes. -/
structure Synced (numNodes capacity : ℕ) (approx precise : SimState K (Option RouterIndex)) :
    Prop where
  idx : approx.idx = precise.idx
  nodes : approx.nodes = precise.nodes
  result : approx.result = precise.result
  lastSeen : approx.lastSeen = precise.lastSeen
  cluster : Cluster numNodes capacity .lru approx.nodes
  unmarked : ∀ n ∈ approx.nodes, n.priority = ∅
  mirrors : Mirrors capacity approx.policy approx.nodes

/-- Two turns that differ in the scorers' memory only. -/
structure SameTurn (capacity : ℕ) (nodes : List (Node K)) (req : TurnRequest K)
    (approx precise : Turn K (Option RouterIndex)) : Prop where
  same : precise = { approx with policy := precise.policy }
  unchanged : approx.nodes = nodes
  node : nodes[approx.chosen.nodeId]? = some approx.node
  answer : SameAnswer capacity nodes req.blockHashes (approx.policy, approx.chosen)
    (precise.policy, precise.chosen)

theorem routeTurn_sameTurn {numNodes : ℕ} {approx precise : SimState K (Option RouterIndex)}
    (h : Synced numNodes capacity approx precise) (params : CostParams K)
    (req : TurnRequest K) :
    Related (SameTurn capacity approx.nodes req)
      (routeTurn (approxScorers prefixWeight loadWeight saturationDepth capacity).policy params
        approx req)
      (routeTurn (preciseScorers prefixWeight loadWeight saturationDepth otherCapacity).policy
        params precise req) := by
  unfold routeTurn
  rw [← h.nodes]
  refine (Related.self _).bind ?_
  rintro oracle _ ⟨rfl, -⟩
  simp only [isCoupled_nodes]
  refine (Related.self _).bind ?_
  rintro coupled _ ⟨rfl, -⟩
  refine (call_sameAnswer h.cluster h.mirrors precise.policy (requestView req) req.arrival
    params).bind ?_
  rintro ⟨index, chosen⟩ ⟨other, chosen'⟩ hanswer
  obtain rfl : chosen = chosen' := hanswer.placement
  refine (Related.self _).bind ?_
  rintro hot _ ⟨rfl, -⟩
  cases hnode : approx.nodes[chosen.nodeId]? with
  | none => exact .error _
  | some node =>
    refine (Related.self _).bind ?_
    rintro realized _ ⟨rfl, -⟩
    exact .ok ⟨rfl, rfl, hnode, hanswer⟩

/-- One turn keeps the runs in step: both scorers answer alike, and the index records
what the node stores. -/
theorem simStep_synced {numNodes : ℕ} {approx precise : SimState K (Option RouterIndex)}
    (h : Synced numNodes capacity approx precise) (params : CostParams K)
    {req : TurnRequest K} (harrival : 0 ≤ req.arrival) :
    Related (Synced numNodes capacity)
      (simStep (approxScorers prefixWeight loadWeight saturationDepth capacity).policy params
        approx req)
      (simStep (preciseScorers prefixWeight loadWeight saturationDepth otherCapacity).policy
        params precise req) := by
  unfold simStep
  rw [← h.lastSeen, ← h.idx, ← h.result]
  generalize observeGap approx.lastSeen req.conversationId req.toolName req.arrival = observed
  obtain ⟨gap, lastSeen⟩ := observed
  refine (routeTurn_sameTurn h params req).bind ?_
  rintro turn turn' ⟨hsame, hnodes, hnode, hanswer⟩
  have hmem : turn.node ∈ approx.nodes := List.mem_of_getElem? hnode
  have hlease : turn.chosen.retainUntil ≤ (req.arrival : WithTop K) := by
    rw [show turn.chosen.retainUntil = ((0 : K) : WithTop K) from hanswer.retainUntil]
    exact_mod_cast harrival
  obtain ⟨node, hadmitted, hunmarked, hcache⟩ := Node.admitRequest_unmarked
    (turn.admitCall params approx.idx req) (h.cluster.eviction _ hmem)
    (h.unmarked _ hmem) (h.cluster.cacheCapacity _ hmem) hanswer.priority hlease
  have hadmitted' : turn'.node.admitRequest (turn'.admitCall params approx.idx req) =
      some node := by
    rw [hsame]
    exact hadmitted
  simp only [hadmitted, hadmitted']
  apply Related.ok
  refine ⟨rfl, ?_, ?_, rfl, ?_, ?_, ?_⟩
  · rw [hsame]
  · rw [hsame]
    rfl
  · rw [hnodes]
    exact h.cluster.set hnode hadmitted
  · rw [hnodes]
    exact forall_mem_set h.unmarked _ hunmarked
  · have hindex : turn.policy = _ := hanswer.index turn.node hnode
    unfold Mirrors
    rw [hindex, hnodes, List.map_set, hcache]
    rfl

end Call

/-- What the approximate scorer believes is what the nodes hold, block for
block and in the same order. -/
def BeliefIsTrue (s : SimState K (Option RouterIndex)) : Prop :=
  match s.policy with
  | none => ∀ n ∈ s.nodes, n.cache = ∅
  | some index => index.blocks = s.nodes.map Node.cache

omit [Scalar K] in
theorem Synced.beliefIsTrue {numNodes capacity : ℕ}
    {approx precise : SimState K (Option RouterIndex)}
    (h : Synced numNodes capacity approx precise) : BeliefIsTrue approx := by
  have hmirrors := h.mirrors
  unfold Mirrors at hmirrors
  unfold BeliefIsTrue
  cases hpolicy : approx.policy with
  | none =>
    rw [hpolicy] at hmirrors
    intro n hn
    have hheld : n.cache ∈ approx.nodes.map Node.cache := List.mem_map_of_mem hn
    have hblocks : List.replicate approx.nodes.length ∅ = approx.nodes.map Node.cache :=
      congrArg RouterIndex.blocks hmirrors
    rw [← hblocks] at hheld
    exact (List.mem_replicate.mp hheld).2
  | some index =>
    rw [hpolicy] at hmirrors
    exact congrArg RouterIndex.blocks hmirrors

/-- Weighted scoring on a router-side index as large as the node caches makes the very
run that scoring on true cache state makes, or fails as it does, for all weights, queue
limits and streams with no arrival before time zero; and in every state reached the
index believes of each node exactly the blocks it holds, in the same order. -/
theorem weighted_approx_eq_precise (requests : List (TurnRequest K))
    (harrivals : ∀ req ∈ requests, 0 ≤ req.arrival) (numNodes capacity otherCapacity : ℕ)
    (params : CostParams K) (prefixWeight loadWeight : K) (saturationDepth : ℤ) :
    runSimulation requests
        (approxScorers prefixWeight loadWeight saturationDepth capacity).policy numNodes
        capacity params =
      runSimulation requests
        (preciseScorers prefixWeight loadWeight saturationDepth otherCapacity).policy numNodes
        capacity params ∧
    ∀ k s, simAfter requests
        (approxScorers prefixWeight loadWeight saturationDepth capacity).policy numNodes
        capacity params false k = .ok s → BeliefIsTrue s := by
  have hstart : Synced numNodes capacity
      (simStart requests (approxScorers prefixWeight loadWeight saturationDepth
        capacity).policy numNodes capacity false)
      (simStart requests (preciseScorers prefixWeight loadWeight saturationDepth
        otherCapacity).policy numNodes capacity false) := by
    refine ⟨rfl, rfl, rfl, rfl, Cluster.start numNodes capacity .lru, ?_, ?_⟩
    · simp [simStart, Node.init]
    · simp [Mirrors, simStart, WeightedScorers.policy, RouterIndex.init, Node.init,
        Function.comp_def, List.map_const']
  have hrun : ∀ k, Related (Synced numNodes capacity)
      (simAfter requests (approxScorers prefixWeight loadWeight saturationDepth
        capacity).policy numNodes capacity params false k)
      (simAfter requests (preciseScorers prefixWeight loadWeight saturationDepth
        otherCapacity).policy numNodes capacity params false k) := by
    intro k
    refine related_foldlM ?_ hstart
    intro req hreq approx precise hsynced
    exact simStep_synced hsynced params (harrivals req (List.mem_of_mem_take hreq))
  constructor
  · refine (hrun requests.length).bind_eq fun approx precise h => ?_
    rw [h.nodes, h.result]
  · intro k s hs
    have hk := hrun k
    rw [hs] at hk
    obtain ⟨_, -, hsynced⟩ := hk.exists_of_ok
    exact hsynced.beliefIsTrue

/-- Two nodes of one block and two requests for different blocks, at the default
weights. -/
theorem weighted_approx_eq_precise_two :
    let requests : List (TurnRequest ℚ) :=
      [{ arrival := 0, tokens := [], blockHashes := [7], genTokens := 10 },
        { arrival := 1, tokens := [], blockHashes := [8], genTokens := 10 }]
    runSimulation requests (approxScorers 2 1 8 1).policy 2 (1 : ℕ) {} =
      runSimulation requests (preciseScorers 2 1 8 1).policy 2 (1 : ℕ) {} := by
  intro requests
  exact (weighted_approx_eq_precise requests (by simp [requests]) 2 1 1 {} 2 1 8).1

end SchedLm.Sim
