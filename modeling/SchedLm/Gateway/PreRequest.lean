import SchedLm.Gateway.Classify
import SchedLm.Gateway.Session
import SchedLm.Gateway.ToolGap

/-!
The `kv-cache-priority` plugin's decision. One-shots are marked evict-first; a
tool turn whose tool confidently predicts a short return gets a lease sized to
the predicted gap; everything else gets no hint. Only tool turns are observed.
-/

namespace SchedLm.Gateway

variable {K : Type} [Scalar K]

def evictFirstPriority : ℤ := -1

def highPriority : ℤ := 50

def defaultShortGapSeconds : K := 3

def defaultConfThreshold : K := 1 / 2

def defaultRetainMargin : K := 3 / 2

inductive Directive where
  | evictFirst
  | lease (ttl : Duration) (scope : String)
  deriving DecidableEq

namespace Directive

def priority : Directive → ℤ
  | evictFirst => evictFirstPriority
  | lease _ _ => highPriority

/-- The header value: `<int>[; ttl=<duration>][; scope=<id>]`. -/
def text : Directive → String
  | evictFirst => toString evictFirstPriority
  | lease ttl scope =>
    let directive := toString highPriority ++ "; ttl=" ++ ttl.string
    if scope ≠ "" then directive ++ "; scope=" ++ scope else directive

end Directive

structure KVCachePriority (K : Type) [Scalar K] where
  index : ToolGapIndex K
  sessions : SessionTracker
  shortGap : K
  confThresh : K
  retainMargin : K

def newKVCachePriority : KVCachePriority K where
  index := newToolGapIndex defaultGapIndexCapacity defaultGapAlpha ∅
  sessions := newSessionTracker gapTrackerCapacity
  shortGap := defaultShortGapSeconds
  confThresh := defaultConfThreshold
  retainMargin := defaultRetainMargin

namespace KVCachePriority

/-- Observe the turn, and record the realized gap when there is one. -/
def learn (p : KVCachePriority K) (scope tool : String) (now : Time) : KVCachePriority K :=
  let (gap, sessions) := p.sessions.observeGap scope tool now
  match gap with
  | some gap => { p with sessions := sessions, index := p.index.record tool gap }
  | none => { p with sessions := sessions }

/-- The time to live of a lease, when the tool predicts a confident, short
return. -/
def leaseTtl (p : KVCachePriority K) (tool : String) : Option Duration :=
  let (mean, variance) := p.index.predict tool
  if gapConfidence mean variance < p.confThresh ∨ p.shortGap < mean then none
  else
    let window := max (mean * p.retainMargin) (mean + Scalar.sqrt variance)
    some ((Duration.ofFloat (window * 1000000000)).roundTo millisecond)

/-- The directive for a request, or `none` for no hint, and what the plugin has
learned. The header carries the directive's `text`. -/
def decide (p : KVCachePriority K) (request : InferenceRequest) (now : Time) :
    Option Directive × KVCachePriority K :=
  match classify request.body with
  | .oneshot => (some .evictFirst, p)
  | .rag => (none, p)
  | .tool =>
    let tool := lastToolName request.body
    let scope := conversationKey (request.headers.getD ∅) request.body
    let p := p.learn scope tool now
    ((p.leaseTtl tool).map fun ttl => .lease ttl scope, p)

theorem learn_eq (p : KVCachePriority K) (scope tool : String) (now : Time) :
    p.learn scope tool now = { p with
      index := match (p.sessions.observeGap scope tool now : Option K × SessionTracker).1 with
        | some gap => p.index.record tool gap
        | none => p.index
      sessions := (p.sessions.observeGap scope tool now : Option K × SessionTracker).2 } := by
  unfold learn
  generalize (p.sessions.observeGap scope tool now : Option K × SessionTracker) = observed
  obtain ⟨gap, sessions⟩ := observed
  cases gap <;> rfl

end KVCachePriority

end SchedLm.Gateway
