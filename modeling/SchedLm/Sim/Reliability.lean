import SchedLm.Sim.GapIndex
import SchedLm.Sim.Policies

/-!
`class_aware` routing with retention directives: one-shots are shed first, and
a tool-session turn whose tool confidently predicts a short return leases its
prefix. The directive depends on the learned gaps only, not on the placement.
-/

namespace SchedLm.Sim

variable {K : Type} [Scalar K]

def defaultShortGap : K := 3

def defaultConfThreshold : K := 1 / 2

def defaultRetainMargin : K := 3 / 2

structure ClassAwareReliability (K : Type) [Scalar K] where
  index : ToolGapIndex K := {}
  shortGap : K := defaultShortGap
  confThreshold : K := defaultConfThreshold
  retainMargin : K := defaultRetainMargin
  lastSeen : OrderedDict ℤ K := ∅

namespace ClassAwareReliability

def learn (c : ClassAwareReliability K) (req : RequestView) (now : K) :
    ClassAwareReliability K :=
  let (gap, lastSeen) := observeGap c.lastSeen req.conversationId req.lastToolName now
  match gap, req.lastToolName with
  | some gap, some tool => { c with index := c.index.record tool gap, lastSeen := lastSeen }
  | _, _ => { c with lastSeen := lastSeen }

/-- Length of the lease, when the tool predicts a confident, short return. -/
def leaseWindow (c : ClassAwareReliability K) (tool : Option String) : Option K :=
  let (mean, var) := c.index.predict tool
  if gapConfidence mean var ≥ c.confThreshold ∧ mean ≤ c.shortGap then
    some (max (mean * c.retainMargin) (mean + Scalar.sqrt var))
  else none

/-- What the policy attaches to a placement, after learning. -/
def attach (c : ClassAwareReliability K) (req : RequestView) (now : K)
    (place : Placement K) : Placement K :=
  match classify req with
  | .oneshot => { place with priority := some evictFirst }
  | .rag => place
  | .tool =>
    match c.leaseWindow req.lastToolName with
    | some window =>
      { place with retainUntil := ((now + window : K) : WithTop K), priority := some high }
    | none => place

def call (c : ClassAwareReliability K) (req : RequestView) (nodes : List (Node K)) (now : K)
    (params : CostParams K) : Except SimError (ClassAwareReliability K × Placement K) := do
  let c := c.learn req now
  let place ← classAware req nodes now params
  return (c, c.attach req now place)

abbrev policy (c : ClassAwareReliability K) : Policy K where
  State := ClassAwareReliability K
  start := c
  call := call

end ClassAwareReliability

def buildPolicy (name : String) (retainMargin : K := defaultRetainMargin) :
    Except SimError (Policy K) :=
  match name with
  | "round-robin" => .ok roundRobin
  | "cache-local" => .ok (.stateless cacheLocal)
  | "transfer-aware" => .ok (.stateless transferAware)
  | "weighted-precise" => .ok (WeightedScorers.policy { precise := true })
  | "weighted-approx" => .ok (WeightedScorers.policy { precise := false })
  | "class-aware" => .ok (.stateless classAware)
  | "class-aware-reliability" =>
    .ok (ClassAwareReliability.policy { retainMargin := retainMargin })
  | "oracle" => .ok (.stateless oracle)
  | "oracle-belady" => .ok (.stateless oracle)
  | _ => .error (.unknownPolicy name)

end SchedLm.Sim
