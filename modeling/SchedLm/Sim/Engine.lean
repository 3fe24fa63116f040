import SchedLm.Sim.Reliability

/-!
The discrete-event engine: replay an arrival stream under a policy. One request
is routed against the current node state, charged its true cost there, and then
admitted to the chosen node.
-/

namespace SchedLm.Sim

variable {K : Type} [Scalar K]

def requestView (req : TurnRequest K) : RequestView :=
  let last := (req.messages.getLast?.map Message.content).getD ""
  { blocks := req.blockHashes
    promptTokens := req.tokens.length
    numMessages := req.messages.length
    hasToolMessages := req.messages.any fun m => m.role == "tool"
    lastMessageTokens := (splitWords last).length
    conversationId := req.conversationId
    lastToolName := req.toolName }

structure KindStats (K : Type) where
  count : ℕ := 0
  ttfts : List K := []
  regrets : List K := []
  reusedBlocks : ℤ := 0
  totalBlocks : ℕ := 0

structure SimResult (K : Type) where
  ttfts : List K := []
  e2eLatencies : List K := []
  successes : ℕ := 0
  errors : ℕ := 0
  regimes : OrderedDict Regime ℕ := ∅
  regrets : List K := []
  coupled : ℕ := 0
  reusedBlocks : ℤ := 0
  totalBlocks : ℕ := 0
  pinnedEvictions : ℕ := 0
  byKind : OrderedDict Kind (KindStats K) := ∅
  gapByTool : OrderedDict String (List K) := ∅

/-- Blocks the placement finds resident, `_resident` in the source. -/
def residentBlocks (reqBlocks : List BlockHash) (node : Node K) (transfer : Bool)
    (hot : Node K) : ℤ :=
  let found : ℤ := node.matched reqBlocks
  let xfer := if transfer then max 0 ((hot.matched reqBlocks : ℤ) - found) else 0
  found + xfer

/-- Whether emptying every queue changes the oracle's placement. The node list
that comes back has its queues restored. -/
def isCoupled (reqBlocks : List BlockHash) (nodes : List (Node K)) (now : K)
    (params : CostParams K) (loaded : Placement K) :
    Except SimError Bool × List (Node K) :=
  let saved := nodes.map Node.busyUntil
  let nodes := nodes.map fun n => { n with busyUntil := now }
  let idle := bestPlacement reqBlocks nodes now params
  let nodes := List.zipWith (fun n b => { n with busyUntil := b }) nodes saved
  let changed := idle.map fun idle =>
    decide ((loaded.nodeId, loaded.transfer) ≠ (idle.nodeId, idle.transfer))
  (changed, nodes)

/-- `uses.setdefault(block, []).append(idx)`. -/
def recordUse (idx : ℕ) (uses : Dict BlockHash (List ℕ)) (block : BlockHash) :
    Dict BlockHash (List ℕ) :=
  uses.insert block ((uses.lookup block).getD [] ++ [idx])

/-- For each block, the request positions at which it appears. -/
def buildFutureUses (requests : List (TurnRequest K)) : Dict BlockHash (List ℕ) :=
  requests.zipIdx.foldl (fun uses entry => entry.1.blockHashes.foldl (recordUse entry.2) uses) ∅

/-- The engine between two requests: the position of the next one, the nodes,
the policy's memory, the metrics and the engine's own last-seen table. -/
structure SimState (K : Type) (σ : Type) where
  idx : ℕ := 0
  nodes : List (Node K)
  policy : σ
  result : SimResult K := {}
  lastSeen : OrderedDict ℤ K := ∅

/-- What one turn of the engine decides before it admits the request, all of it computed
on the same node state. -/
structure Turn (K : Type) [Zero K] (σ : Type) where
  oracle : Placement K
  coupled : Bool
  nodes : List (Node K)
  policy : σ
  chosen : Placement K
  hot : Node K
  node : Node K
  realized : Placement K

/-- The first half of a turn: the oracle, the coupling probe, the policy's
placement, and its true cost on the same node state. -/
def routeTurn (policy : Policy K) (params : CostParams K) (s : SimState K policy.State)
    (req : TurnRequest K) : Except SimError (Turn K policy.State) := do
  let blocks := req.blockHashes
  let now := req.arrival
  let oracle ← bestPlacement blocks s.nodes now params
  let (coupled, nodes) := isCoupled blocks s.nodes now params oracle
  let coupled ← coupled
  let (state, chosen) ← policy.call s.policy (requestView req) nodes now params
  let hot ← hotNode blocks nodes
  match nodes[chosen.nodeId]? with
  | none => throw .indexOutOfRange
  | some node =>
    let realized ← predict blocks node now params hot chosen.transfer
    return { oracle, coupled, nodes, policy := state, chosen, hot, node, realized }

namespace Turn

variable {σ : Type}

def regret (t : Turn K σ) : K := max 0 (t.realized.ttft - t.oracle.ttft)

def resident (t : Turn K σ) (req : TurnRequest K) : ℤ :=
  residentBlocks req.blockHashes t.node t.chosen.transfer t.hot

def e2eLatency (t : Turn K σ) (params : CostParams K) (req : TurnRequest K) : K :=
  t.realized.ttft + req.genTokens * params.interToken

def service (t : Turn K σ) (params : CostParams K) (req : TurnRequest K) : K :=
  params.prefillTime ((req.blockHashes.length : ℤ) - t.resident req) +
    req.genTokens * params.interToken

def admitCall (t : Turn K σ) (params : CostParams K) (idx : ℕ) (req : TurnRequest K) :
    AdmitCall K where
  now := req.arrival
  serviceTime := t.service params req
  reqBlocks := req.blockHashes
  retainUntil := t.chosen.retainUntil
  atIndex := idx
  priority := t.chosen.priority

end Turn

namespace SimResult

def recordGap (result : SimResult K) (tool : Option String) (gap : Option K) : SimResult K :=
  match gap, tool with
  | some gap, some tool => { result with
      gapByTool := OrderedDict.setItem result.gapByTool tool
        ((result.gapByTool.lookup tool).getD [] ++ [gap]) }
  | _, _ => result

def recordTurn {σ : Type} (result : SimResult K) (params : CostParams K)
    (req : TurnRequest K) (t : Turn K σ) : SimResult K :=
  let kind := (result.byKind.lookup req.kind).getD {}
  { result with
    coupled := if t.coupled then result.coupled + 1 else result.coupled
    ttfts := result.ttfts ++ [t.realized.ttft]
    e2eLatencies := result.e2eLatencies ++ [t.e2eLatency params req]
    regimes := OrderedDict.setItem result.regimes t.realized.regime
      ((result.regimes.lookup t.realized.regime).getD 0 + 1)
    regrets := result.regrets ++ [t.regret]
    successes := result.successes + 1
    reusedBlocks := result.reusedBlocks + t.resident req
    totalBlocks := result.totalBlocks + req.blockHashes.length
    byKind := OrderedDict.setItem result.byKind req.kind
      { count := kind.count + 1
        ttfts := kind.ttfts ++ [t.realized.ttft]
        regrets := kind.regrets ++ [t.regret]
        reusedBlocks := kind.reusedBlocks + t.resident req
        totalBlocks := kind.totalBlocks + req.blockHashes.length } }

end SimResult

/-- One turn of the engine: observe the gap, route, record, admit. It raises what the
oracle, the policy or the prediction raises, and an error of its own when the eviction
loop never ends. -/
def simStep (policy : Policy K) (params : CostParams K) (s : SimState K policy.State)
    (req : TurnRequest K) : Except SimError (SimState K policy.State) := do
  let (gap, lastSeen) := observeGap s.lastSeen req.conversationId req.toolName req.arrival
  let t ← routeTurn policy params s req
  match t.node.admitRequest (t.admitCall params s.idx req) with
  | none => throw .endlessEviction
  | some node =>
    return {
      idx := s.idx + 1
      nodes := t.nodes.set t.chosen.nodeId node
      policy := t.policy
      result := (s.result.recordGap req.toolName gap).recordTurn params req t
      lastSeen := lastSeen }

def simStart (requests : List (TurnRequest K)) (policy : Policy K) (numNodes : ℕ)
    (cacheBlocks : ℤ) (belady : Bool) : SimState K policy.State :=
  let eviction := if belady then .belady (buildFutureUses requests) else .lru
  { nodes := (List.range numNodes).map fun i => Node.init i cacheBlocks eviction
    policy := policy.start }

def simAfter (requests : List (TurnRequest K)) (policy : Policy K) (numNodes : ℕ)
    (cacheBlocks : ℤ) (params : CostParams K) (belady : Bool) (k : ℕ) :
    Except SimError (SimState K policy.State) :=
  (requests.take k).foldlM (simStep policy params)
    (simStart requests policy numNodes cacheBlocks belady)

/-- `run_simulation`: the metrics once the whole stream has been served. -/
def runSimulation (requests : List (TurnRequest K)) (policy : Policy K) (numNodes : ℕ)
    (cacheBlocks : ℤ) (params : CostParams K) (belady : Bool := false) :
    Except SimError (SimResult K) := do
  let s ← simAfter requests policy numNodes cacheBlocks params belady requests.length
  return { s.result with pinnedEvictions := (s.nodes.map Node.pinnedEvictions).sum }

end SchedLm.Sim
