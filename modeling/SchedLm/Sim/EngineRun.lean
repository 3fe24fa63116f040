import SchedLm.Library.Runs
import SchedLm.Sim.Engine

/-!
What one turn of the engine can do, and what every run keeps: nodes stay at
their position with their id, capacity and eviction strategy, and the position
counter counts the requests served.
-/

namespace SchedLm.Sim

open Runs

variable {K : Type} [Scalar K]

omit [Scalar K] in
theorem SimResult.recordGap_frame (result : SimResult K) (tool : Option String)
    (gap : Option K) :
    result.recordGap tool gap =
      { result with gapByTool := (result.recordGap tool gap).gapByTool } := by
  unfold recordGap
  split <;> rfl

@[simp] theorem isCoupled_nodes (reqBlocks : List BlockHash) (nodes : List (Node K)) (now : K)
    (params : CostParams K) (loaded : Placement K) :
    (isCoupled reqBlocks nodes now params loaded).2 = nodes := by
  unfold isCoupled
  dsimp only
  induction nodes with
  | nil => rfl
  | cons n rest ih => simp

/-- The first half of a turn, read off its result: everything is computed on
the node state before the turn. -/
structure Routed (policy : Policy K) (params : CostParams K) (s : SimState K policy.State)
    (req : TurnRequest K) (t : Turn K policy.State) : Prop where
  oracle : bestPlacement req.blockHashes s.nodes req.arrival params = .ok t.oracle
  coupled : (isCoupled req.blockHashes s.nodes req.arrival params t.oracle).1 = .ok t.coupled
  nodes : t.nodes = s.nodes
  call : policy.call s.policy (requestView req) s.nodes req.arrival params =
    .ok (t.policy, t.chosen)
  hot : hotNode req.blockHashes s.nodes = .ok t.hot
  node : s.nodes[t.chosen.nodeId]? = some t.node
  realized : predict req.blockHashes t.node req.arrival params t.hot t.chosen.transfer =
    .ok t.realized

theorem routeTurn_eq_ok {policy : Policy K} {params : CostParams K}
    {s : SimState K policy.State} {req : TurnRequest K} {t : Turn K policy.State}
    (h : routeTurn policy params s req = .ok t) : Routed policy params s req t := by
  unfold routeTurn at h
  simp only [bind_eq_ok, isCoupled_nodes] at h
  obtain ⟨oracle, horacle, coupled, hcoupled, ⟨state, chosen⟩, hcall, hot, hhot, h⟩ := h
  cases hnode : s.nodes[chosen.nodeId]? with
  | none =>
    rw [hnode] at h
    cases h
  | some node =>
    simp only [hnode, bind_eq_ok] at h
    obtain ⟨realized, hrealized, h⟩ := h
    cases h
    exact ⟨horacle, hcoupled, rfl, hcall, hhot, hnode, hrealized⟩

/-- A whole turn that gets through: route, admit to the chosen node, record. Every
result about a run starts from this reading of one turn. -/
theorem simStep_eq_ok {policy : Policy K} {params : CostParams K}
    {s s' : SimState K policy.State} {req : TurnRequest K}
    (h : simStep policy params s req = .ok s') :
    ∃ t node, routeTurn policy params s req = .ok t ∧
      t.node.admitRequest (t.admitCall params s.idx req) = some node ∧
      s' = {
        idx := s.idx + 1
        nodes := s.nodes.set t.chosen.nodeId node
        policy := t.policy
        result := (s.result.recordGap req.toolName
          (observeGap s.lastSeen req.conversationId req.toolName req.arrival).1).recordTurn
            params req t
        lastSeen := (observeGap s.lastSeen req.conversationId req.toolName req.arrival).2 } := by
  unfold simStep at h
  simp only [bind_eq_ok] at h
  obtain ⟨t, hroute, h⟩ := h
  have hnodes := (routeTurn_eq_ok hroute).nodes
  cases hadmitted : t.node.admitRequest (t.admitCall params s.idx req) with
  | none =>
    rw [hadmitted] at h
    cases h
  | some node =>
    simp only [hadmitted] at h
    cases h
    exact ⟨t, node, hroute, hadmitted, by rw [hnodes]⟩

/-- The cluster of a run: node `i` sits at position `i`, all with one capacity and one
eviction strategy, as in every state from the start on. -/
structure Cluster (numNodes : ℕ) (cacheBlocks : ℤ) (eviction : Eviction)
    (nodes : List (Node K)) : Prop where
  length : nodes.length = numNodes
  nodeId : ∀ i (n : Node K), nodes[i]? = some n → n.nodeId = i
  cacheCapacity : ∀ n ∈ nodes, n.cacheCapacity = cacheBlocks
  eviction : ∀ n ∈ nodes, n.eviction = eviction

namespace Cluster

variable {numNodes : ℕ} {cacheBlocks : ℤ} {eviction : Eviction} {nodes : List (Node K)}

theorem start (numNodes : ℕ) (cacheBlocks : ℤ) (eviction : Eviction) :
    Cluster numNodes cacheBlocks eviction
      ((List.range numNodes).map fun i => (Node.init i cacheBlocks eviction : Node K)) := by
  refine ⟨by simp, ?_, ?_, ?_⟩
  · intro i n hn
    simp only [List.getElem?_map, Option.map_eq_some_iff] at hn
    obtain ⟨j, hj, rfl⟩ := hn
    obtain ⟨-, rfl⟩ := List.getElem?_eq_some_iff.mp hj
    simp [Node.init]
  · simp [Node.init]
  · simp [Node.init]

omit [Scalar K] in
theorem getElem?_nodeId (h : Cluster numNodes cacheBlocks eviction nodes) {n : Node K}
    (hn : n ∈ nodes) : nodes[n.nodeId]? = some n := by
  obtain ⟨i, hi, rfl⟩ := List.getElem_of_mem hn
  rw [h.nodeId i nodes[i] (List.getElem?_eq_getElem hi), List.getElem?_eq_getElem hi]

omit [Scalar K] in
theorem eq_of_nodeId_eq (h : Cluster numNodes cacheBlocks eviction nodes) {m n : Node K}
    (hm : m ∈ nodes) (hn : n ∈ nodes) (heq : m.nodeId = n.nodeId) : m = n := by
  have hget := h.getElem?_nodeId hm
  rw [heq, h.getElem?_nodeId hn] at hget
  exact (Option.some.inj hget).symm

theorem set (h : Cluster numNodes cacheBlocks eviction nodes) {i : ℕ} {n n' : Node K}
    {call : AdmitCall K} (hn : nodes[i]? = some n) (hadmitted : n.admitRequest call = some n') :
    Cluster numNodes cacheBlocks eviction (nodes.set i n') := by
  have hmem : n ∈ nodes := List.mem_of_getElem? hn
  have hsame := Node.admitRequest_sameServer hadmitted
  refine ⟨by rw [List.length_set, h.length], ?_, ?_, ?_⟩
  · intro j m hm
    rw [List.getElem?_set] at hm
    split_ifs at hm with hij
    · obtain ⟨hlt, rfl⟩ := hm
      rw [hsame.nodeId, ← hij]
      exact h.nodeId i n hn
    · exact h.nodeId j m hm
  · exact Runs.forall_mem_set h.cacheCapacity _
      (hsame.cacheCapacity.trans (h.cacheCapacity n hmem))
  · exact Runs.forall_mem_set h.eviction _ (hsame.eviction.trans (h.eviction n hmem))

end Cluster

def evictionOf (requests : List (TurnRequest K)) (belady : Bool) : Eviction :=
  if belady then .belady (buildFutureUses requests) else .lru

section Run

variable {requests : List (TurnRequest K)} {policy : Policy K} {numNodes : ℕ}
  {cacheBlocks : ℤ} {params : CostParams K} {belady : Bool}

/-- Induction over the turns of a run: what holds at the start and survives each turn
that gets through, holds in every state reached. -/
theorem simAfter_induction (Inv : ℕ → SimState K policy.State → Prop)
    (hstart : Inv 0 (simStart requests policy numNodes cacheBlocks belady))
    (hstep : ∀ k s req s', requests[k]? = some req →
      simAfter requests policy numNodes cacheBlocks params belady k = .ok s → Inv k s →
      simStep policy params s req = .ok s' → Inv (k + 1) s')
    {k : ℕ} (hk : k ≤ requests.length) {s : SimState K policy.State}
    (hrun : simAfter requests policy numNodes cacheBlocks params belady k = .ok s) :
    Inv k s :=
  Runs.invariant Inv hstart hstep hk hrun

theorem simAfter_cluster {k : ℕ} (hk : k ≤ requests.length) {s : SimState K policy.State}
    (hrun : simAfter requests policy numNodes cacheBlocks params belady k = .ok s) :
    s.idx = k ∧
      Cluster numNodes cacheBlocks (evictionOf requests belady) s.nodes := by
  refine simAfter_induction
    (fun k s => s.idx = k ∧ Cluster numNodes cacheBlocks (evictionOf requests belady) s.nodes)
    ?_ ?_ hk hrun
  · exact ⟨rfl, Cluster.start _ _ _⟩
  · rintro k s req s' - - ⟨hidx, hcluster⟩ hstep
    obtain ⟨t, node, hroute, hadmitted, rfl⟩ := simStep_eq_ok hstep
    exact ⟨by rw [hidx], hcluster.set (routeTurn_eq_ok hroute).node hadmitted⟩

end Run

/-- A turn of a run: the state after `k` requests, the next request, and what
the engine decides for it. -/
structure Visits (requests : List (TurnRequest K)) (policy : Policy K) (numNodes : ℕ)
    (cacheBlocks : ℤ) (params : CostParams K) (belady : Bool) (k : ℕ)
    (s : SimState K policy.State) (req : TurnRequest K) (t : Turn K policy.State) : Prop where
  state : simAfter requests policy numNodes cacheBlocks params belady k = .ok s
  request : requests[k]? = some req
  turn : routeTurn policy params s req = .ok t

namespace Visits

variable {requests : List (TurnRequest K)} {policy : Policy K} {numNodes : ℕ}
  {cacheBlocks : ℤ} {params : CostParams K} {belady : Bool} {k : ℕ}
  {s : SimState K policy.State} {req : TurnRequest K} {t : Turn K policy.State}

theorem routed (h : Visits requests policy numNodes cacheBlocks params belady k s req t) :
    Routed policy params s req t :=
  routeTurn_eq_ok h.turn

theorem le_length (h : Visits requests policy numNodes cacheBlocks params belady k s req t) :
    k ≤ requests.length := by
  obtain ⟨hlt, -⟩ := List.getElem?_eq_some_iff.mp h.request
  exact hlt.le

theorem cluster (h : Visits requests policy numNodes cacheBlocks params belady k s req t) :
    s.idx = k ∧ Cluster numNodes cacheBlocks (evictionOf requests belady) s.nodes :=
  simAfter_cluster h.le_length h.state

theorem unique (h : Visits requests policy numNodes cacheBlocks params belady k s req t)
    {s' : SimState K policy.State} {req' : TurnRequest K} {t' : Turn K policy.State}
    (h' : Visits requests policy numNodes cacheBlocks params belady k s' req' t') :
    s = s' ∧ req = req' ∧ t = t' := by
  obtain rfl : s = s' := Except.ok.inj (h.state.symm.trans h'.state)
  obtain rfl : req = req' := Option.some.inj (h.request.symm.trans h'.request)
  exact ⟨rfl, rfl, Except.ok.inj (h.turn.symm.trans h'.turn)⟩

theorem after (h : Visits requests policy numNodes cacheBlocks params belady k s req t)
    {s' : SimState K policy.State}
    (hnext : simAfter requests policy numNodes cacheBlocks params belady (k + 1) = .ok s') :
    ∃ node, t.node.admitRequest (t.admitCall params s.idx req) = some node ∧
      s' = {
        idx := s.idx + 1
        nodes := s.nodes.set t.chosen.nodeId node
        policy := t.policy
        result := (s.result.recordGap req.toolName
          (observeGap s.lastSeen req.conversationId req.toolName req.arrival).1).recordTurn
            params req t
        lastSeen := (observeGap s.lastSeen req.conversationId req.toolName req.arrival).2 } := by
  unfold simAfter at hnext
  rw [foldlM_take_succ h.request, bind_eq_ok] at hnext
  obtain ⟨before, hbefore, hstep⟩ := hnext
  obtain rfl : s = before := Except.ok.inj (h.state.symm.trans hbefore)
  obtain ⟨t', node, hroute, hadmitted, hafter⟩ := simStep_eq_ok hstep
  obtain rfl : t = t' := Except.ok.inj (h.turn.symm.trans hroute)
  exact ⟨node, hadmitted, hafter⟩

theorem served (h : Visits requests policy numNodes cacheBlocks params belady k s req t)
    {s' : SimState K policy.State}
    (hnext : simAfter requests policy numNodes cacheBlocks params belady (k + 1) = .ok s') :
    ∃ node, t.node.admitRequest (t.admitCall params s.idx req) = some node ∧
      s'.nodes = s.nodes.set t.chosen.nodeId node ∧ s'.policy = t.policy ∧
      s'.result.e2eLatencies = s.result.e2eLatencies ++ [t.e2eLatency params req] := by
  obtain ⟨node, hadmitted, rfl⟩ := h.after hnext
  refine ⟨node, hadmitted, rfl, rfl, ?_⟩
  rw [SimResult.recordGap_frame]
  rfl

/-- A run that reaches a later state has visited every turn before it. -/
theorem exists_of_lt {j : ℕ} (hj : j < k) (hk : k ≤ requests.length)
    (hrun : simAfter requests policy numNodes cacheBlocks params belady k = .ok s) :
    ∃ s' req t, Visits requests policy numNodes cacheBlocks params belady j s' req t ∧
      ∃ next, simAfter requests policy numNodes cacheBlocks params belady (j + 1) = .ok next := by
  induction k generalizing s with
  | zero => omega
  | succ k ih =>
    obtain ⟨req, hreq⟩ : ∃ req, requests[k]? = some req :=
      ⟨requests[k], List.getElem?_eq_getElem (by omega)⟩
    have hsplit := hrun
    unfold simAfter at hsplit
    rw [foldlM_take_succ hreq, bind_eq_ok] at hsplit
    obtain ⟨before, hbefore, hstep⟩ := hsplit
    rcases Nat.lt_succ_iff_lt_or_eq.mp hj with hlt | rfl
    · exact ih hlt (by omega) hbefore
    · obtain ⟨t, -, hroute, -, -⟩ := simStep_eq_ok hstep
      exact ⟨before, req, t, ⟨hbefore, hreq, hroute⟩, s, hrun⟩

end Visits

end SchedLm.Sim
