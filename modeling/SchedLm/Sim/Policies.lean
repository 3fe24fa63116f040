import Mathlib.Data.List.MinMax
import SchedLm.Sim.Cost
import SchedLm.Sim.Workload

/-!
The routing policies compared by the engine. A policy sees a projection of the
request, the nodes, the time and the cost parameters, and returns a placement;
policies with memory thread a state of their own.
-/

namespace SchedLm.Sim

variable {K : Type} [Scalar K]

def defaultSaturationDepth : ℤ := 8

/-- What the router may see of a request: its blocks, its shape and its conversation,
but never its ground-truth class. -/
structure RequestView where
  blocks : List BlockHash
  promptTokens : ℕ := 0
  numMessages : ℕ := 0
  hasToolMessages : Bool := false
  lastMessageTokens : ℕ := 0
  conversationId : Option ℤ := none
  lastToolName : Option String := none

def ragUserTokens : ℕ := 128

def classify (req : RequestView) : Kind :=
  if req.hasToolMessages then .tool
  else if req.numMessages ≤ 1 then .oneshot
  else if req.lastMessageTokens ≥ ragUserTokens then .rag
  else .tool

/-- A routing policy: its state before the first request and its answer to one
request, which may raise. -/
structure Policy (K : Type) [Scalar K] where
  State : Type
  start : State
  call : State → RequestView → List (Node K) → K → CostParams K →
    Except SimError (State × Placement K)

abbrev RoutingFunction (K : Type) [Scalar K] :=
  RequestView → List (Node K) → K → CostParams K → Except SimError (Placement K)

abbrev Policy.stateless (route : RoutingFunction K) : Policy K where
  State := Unit
  start := ()
  call := fun state req nodes now params => do
    let place ← route req nodes now params
    return (state, place)

/-- Cyclic assignment; the state is the number of requests routed. -/
def roundRobin : Policy K where
  State := ℕ
  start := 0
  call := fun next req nodes now params => do
    if nodes.length = 0 then throw .zeroDivision
    match nodes[next % nodes.length]? with
    | none => throw .indexOutOfRange
    | some node =>
      let hot ← hotNode req.blocks nodes
      let place ← predict req.blocks node now params hot false
      return (next + 1, place)

def cacheLocal : RoutingFunction K := fun req nodes now params => do
  let hot ← hotNode req.blocks nodes
  predict req.blocks hot now params hot false

def nominalService (params : CostParams K) : K :=
  params.prefillFixed + params.interToken * 40

def quantizedWait (node : Node K) (now : K) (params : CostParams K) : K :=
  let nominal := nominalService params
  let exact := node.wait now
  if 0 < nominal then Scalar.roundHalfEven (exact / nominal) * nominal else exact

/-- One turn of the `transfer_aware` loop: keep the better of the best so far
and this candidate, rescored with the quantized wait. -/
def scoreCandidate (req : RequestView) (now : K) (params : CostParams K) (hot : Node K)
    (best : Option (Placement K)) (candidate : Node K × Bool) :
    Except SimError (Option (Placement K)) := do
  let (node, transfer) := candidate
  if transfer ∧ node.nodeId = hot.nodeId then return best
  let p ← predict req.blocks node now params hot transfer
  let approx := p.ttft - node.wait now + quantizedWait node now params
  let scored : Placement K :=
    { nodeId := p.nodeId, transfer := p.transfer, regime := p.regime, ttft := approx }
  match best with
  | none => return some scored
  | some best => return some (if scored.key < best.key then scored else best)

def transferAware : RoutingFunction K := fun req nodes now params => do
  let hot ← hotNode req.blocks nodes
  let candidates := nodes.flatMap fun node => [(node, false), (node, true)]
  match ← candidates.foldlM (scoreCandidate req now params hot) none with
  | none => throw .assertionFailed
  | some best => return best

/-- Router-side belief of what each node holds, from routing decisions alone. -/
structure RouterIndex where
  capacity : ℕ
  blocks : List (OrderedDict BlockHash Unit)

namespace RouterIndex

def init (numNodes capacity : ℕ) : RouterIndex where
  capacity := capacity
  blocks := List.replicate numNodes ∅

def matched (index : RouterIndex) (nodeId : ℕ) (reqBlocks : List BlockHash) :
    Except SimError ℕ :=
  match index.blocks[nodeId]? with
  | none => .error .indexOutOfRange
  | some held => .ok (matchedPrefix reqBlocks fun h => decide (h ∈ held))

/-- The request's blocks become the most recent ones of one node's list. -/
def touchAll (held : OrderedDict BlockHash Unit) (reqBlocks : List BlockHash) :
    OrderedDict BlockHash Unit :=
  reqBlocks.foldl (fun held h => OrderedDict.setItem (held.erase h) h ()) held

def record (index : RouterIndex) (nodeId : ℕ) (reqBlocks : List BlockHash) :
    Except SimError RouterIndex :=
  match index.blocks[nodeId]? with
  | none => .error .indexOutOfRange
  | some held =>
    let held := OrderedDict.popWhileOver (touchAll held reqBlocks) index.capacity
    .ok { index with blocks := index.blocks.set nodeId held }

end RouterIndex

structure WeightedScorers (K : Type) [Scalar K] where
  precise : Bool
  prefixWeight : K := 2
  loadWeight : K := 1
  saturationDepth : ℤ := defaultSaturationDepth
  indexCapacity : ℕ := 2048

namespace WeightedScorers

/-- Fraction of the request believed resident: true cache state when precise,
else the index. -/
def prefixScore (scorers : WeightedScorers K) (index : Option RouterIndex) (node : Node K)
    (reqBlocks : List BlockHash) : Except SimError K :=
  if reqBlocks.isEmpty then .ok 0
  else if scorers.precise then .ok ((node.matched reqBlocks : K) / reqBlocks.length)
  else
    match index with
    | none => .error .assertionFailed
    | some index => do
      let hits ← index.matched node.nodeId reqBlocks
      return (hits : K) / reqBlocks.length

/-- Nodes under the queue limit, or all of them when none is. -/
def unsaturated (scorers : WeightedScorers K) (nodes : List (Node K)) (now : K)
    (params : CostParams K) : List (Node K) :=
  let limit := scorers.saturationDepth * nominalService params
  let candidates := nodes.filter fun n => quantizedWait n now params ≤ limit
  if candidates.isEmpty then nodes else candidates

/-- Weighted sum of the two scorers; `lo` and `hi` are the extreme waits. -/
def score (scorers : WeightedScorers K) (index : Option RouterIndex) (req : RequestView)
    (now : K) (params : CostParams K) (lo hi : K) (n : Node K) : Except SimError K := do
  let load := if hi = lo then 1 else 1 - (quantizedWait n now params - lo) / (hi - lo)
  let cached ← scorers.prefixScore index n req.blocks
  return scorers.prefixWeight * cached + scorers.loadWeight * load

/-- One call: filter, score, take the best node, and record the decision unless
the scorer reads true state. -/
def call (scorers : WeightedScorers K) (index : Option RouterIndex) (req : RequestView)
    (nodes : List (Node K)) (now : K) (params : CostParams K) :
    Except SimError (Option RouterIndex × Placement K) := do
  let index := index.getD (RouterIndex.init nodes.length scorers.indexCapacity)
  let candidates := scorers.unsaturated nodes now params
  let waits := candidates.map fun n => quantizedWait n now params
  match waits.min?, waits.max? with
  | some lo, some hi =>
    let scored ← candidates.mapM fun n => do
      let total ← scorers.score (some index) req now params lo hi n
      return (total, n)
    match scored.argmax fun c => toLex (c.1, OrderDual.toDual c.2.nodeId) with
    | none => throw .emptyArgument
    | some (_, best) =>
      let index ← if scorers.precise then pure index
        else index.record best.nodeId req.blocks
      let hot ← hotNode req.blocks nodes
      let place ← predict req.blocks best now params hot false
      return (some index, place)
  | _, _ => throw .emptyArgument

abbrev policy (scorers : WeightedScorers K) : Policy K where
  State := Option RouterIndex
  start := none
  call := scorers.call

end WeightedScorers

def leastLoaded (nodes : List (Node K)) (now : K) (params : CostParams K) :
    Except SimError (Node K) :=
  match nodes.argmin fun n => toLex (quantizedWait n now params, n.nodeId) with
  | some node => .ok node
  | none => .error .emptyArgument

/-- Route by inferred class: least loaded for one-shots, document affinity with
saturation spill for RAG, transfer-aware scoring for the rest. -/
def classAware : RoutingFunction K := fun req nodes now params => do
  match classify req with
  | .oneshot =>
    let node ← leastLoaded nodes now params
    let hot ← hotNode req.blocks nodes
    predict req.blocks node now params hot false
  | .rag =>
    let hot ← hotNode req.blocks nodes
    let limit := defaultSaturationDepth * nominalService params
    if 0 < hot.matched req.blocks ∧ quantizedWait hot now params ≤ limit then
      predict req.blocks hot now params hot false
    else transferAware req nodes now params
  | .tool => transferAware req nodes now params

def oracle : RoutingFunction K := fun req nodes now params =>
  bestPlacement req.blocks nodes now params true

end SchedLm.Sim
