import Mathlib.Data.List.MinMax
import Mathlib.Data.Prod.Lex
import SchedLm.Library.Runs
import SchedLm.Sim.Node

/-!
The routing cost model: predicted time to first token of a placement, and the
placement that minimizes it. The source tells nodes apart by object identity;
here their ids do.
-/

namespace SchedLm.Sim

inductive Regime where
  | wait
  | transfer
  | recompute
  deriving DecidableEq, Repr

/-- How a run can fail to return: the exceptions the modelled code raises, and
an eviction loop that never ends. -/
inductive SimError where
  | zeroDivision
  | emptyArgument
  | indexOutOfRange
  | assertionFailed
  | endlessEviction
  | unknownPolicy (name : String)
  deriving DecidableEq, Repr

variable {K : Type}

structure CostParams (K : Type) [Scalar K] where
  blockSize : ℤ := defaultBlockSize
  prefillPerToken : K := 2 / 10000
  prefillFixed : K := 5 / 1000
  blockKvBytes : K := 800000
  bandwidth : K := 4000000000
  linkLatency : K := 5 / 10000
  interToken : K := 1 / 100

/-- A candidate routing decision and its predicted TTFT. The directive is
meaningful on a policy's returned placement only. -/
structure Placement (K : Type) [Zero K] where
  nodeId : ℕ
  transfer : Bool
  regime : Regime
  ttft : K
  retainUntil : WithTop K := ((0 : K) : WithTop K)
  priority : Option ℤ := none

variable [Scalar K]

namespace CostParams

/-- Copying blocks costs bandwidth and a fixed set-up; copying none is free. -/
def transferTime (params : CostParams K) (blocks : ℤ) : Except SimError K :=
  if blocks ≤ 0 then .ok 0
  else if params.bandwidth = 0 then .error .zeroDivision
  else .ok (blocks * params.blockKvBytes / params.bandwidth + params.linkLatency)

def prefillTime (params : CostParams K) (missingBlocks : ℤ) : K :=
  missingBlocks * params.blockSize * params.prefillPerToken + params.prefillFixed

end CostParams

/-- The order `max` compares nodes by; the negated id is the id in the dual
order. -/
def hotKey (reqBlocks : List BlockHash) (n : Node K) : ℕ ×ₗ ℕᵒᵈ :=
  toLex (n.matched reqBlocks, OrderDual.toDual n.nodeId)

/-- The node with the longest cached prefix of the request, ties to the lowest
id. -/
def hotNode (reqBlocks : List BlockHash) (nodes : List (Node K)) :
    Except SimError (Node K) :=
  match nodes.argmax (hotKey reqBlocks) with
  | some hot => .ok hot
  | none => .error .emptyArgument

/-- Predicted TTFT of serving the request on `node`, seeded from `hot` when
`transfer` is set. -/
def predict (reqBlocks : List BlockHash) (node : Node K) (now : K) (params : CostParams K)
    (hot : Node K) (transfer : Bool) : Except SimError (Placement K) := do
  let total : ℤ := reqBlocks.length
  let resident : ℤ := node.matched reqBlocks
  let xferBlocks := if transfer then max 0 ((hot.matched reqBlocks : ℤ) - resident) else 0
  let missing := total - (resident + xferBlocks)
  let xferCost ← params.transferTime xferBlocks
  let ttft := node.wait now + xferCost + params.prefillTime missing
  let regime :=
    if 0 < xferBlocks then Regime.transfer
    else if node.nodeId = hot.nodeId ∧ 0 < resident then Regime.wait
    else Regime.recompute
  return { nodeId := node.nodeId, transfer, regime, ttft }

def Placement.key (p : Placement K) : K ×ₗ ℕ ×ₗ Bool :=
  toLex (p.ttft, toLex (p.nodeId, p.transfer))

/-- What one node contributes to the oracle's candidates: serving in place, and
seeding it from the hot node when it is another one. -/
def candidatesOn (reqBlocks : List BlockHash) (now : K) (params : CostParams K)
    (allowTransfer : Bool) (hot node : Node K) : Except SimError (List (Placement K)) := do
  let inPlace ← predict reqBlocks node now params hot false
  if allowTransfer ∧ node.nodeId ≠ hot.nodeId then
    let seeded ← predict reqBlocks node now params hot true
    return [inPlace, seeded]
  else
    return [inPlace]

/-- The oracle: least predicted TTFT over every node and transfer choice. -/
def bestPlacement (reqBlocks : List BlockHash) (nodes : List (Node K)) (now : K)
    (params : CostParams K) (allowTransfer : Bool := true) :
    Except SimError (Placement K) := do
  let hot ← hotNode reqBlocks nodes
  let candidates ← nodes.mapM (candidatesOn reqBlocks now params allowTransfer hot)
  match candidates.flatten.argmin Placement.key with
  | some best => return best
  | none => throw .emptyArgument

def movedBlocks (reqBlocks : List BlockHash) (node hot : Node K) (transfer : Bool) : ℤ :=
  if transfer then max 0 ((hot.matched reqBlocks : ℤ) - node.matched reqBlocks) else 0

structure Predicted (reqBlocks : List BlockHash) (node : Node K) (now : K)
    (params : CostParams K) (hot : Node K) (seeded : Bool) (xferCost : K)
    (p : Placement K) : Prop where
  nodeId : p.nodeId = node.nodeId
  transfer : p.transfer = seeded
  retainUntil : p.retainUntil = ((0 : K) : WithTop K)
  priority : p.priority = none
  cost : params.transferTime (movedBlocks reqBlocks node hot seeded) = .ok xferCost
  ttft : p.ttft = node.wait now + xferCost + params.prefillTime ((reqBlocks.length : ℤ) -
    (node.matched reqBlocks + movedBlocks reqBlocks node hot seeded))

theorem predict_eq_ok {reqBlocks : List BlockHash} {node : Node K} {now : K}
    {params : CostParams K} {hot : Node K} {transfer : Bool} {p : Placement K}
    (h : predict reqBlocks node now params hot transfer = .ok p) :
    ∃ cost, Predicted reqBlocks node now params hot transfer cost p := by
  unfold predict at h
  simp only [Runs.bind_eq_ok] at h
  obtain ⟨cost, hcost, h⟩ := h
  cases h
  exact ⟨cost, rfl, rfl, rfl, rfl, hcost, rfl⟩

omit [Scalar K] in
theorem movedBlocks_self (reqBlocks : List BlockHash) (node : Node K) (transfer : Bool) :
    movedBlocks reqBlocks node node transfer = 0 := by
  cases transfer with
  | false => rfl
  | true => simp [movedBlocks]

/-- Asking to seed the hot node from itself predicts what serving it in place
does. -/
theorem predict_hot_ttft {reqBlocks : List BlockHash} {hot : Node K} {now : K}
    {params : CostParams K} {transfer transfer' : Bool} {p p' : Placement K}
    (h : predict reqBlocks hot now params hot transfer = .ok p)
    (h' : predict reqBlocks hot now params hot transfer' = .ok p') : p.ttft = p'.ttft := by
  obtain ⟨cost, hp⟩ := predict_eq_ok h
  obtain ⟨cost', hp'⟩ := predict_eq_ok h'
  have hcost : cost = cost' := by
    have hfree := hp.cost
    have hfree' := hp'.cost
    rw [movedBlocks_self] at hfree hfree'
    exact Except.ok.inj (hfree.symm.trans hfree')
  rw [hp.ttft, hp'.ttft, movedBlocks_self, movedBlocks_self, hcost]

omit [Scalar K] in
theorem hotNode_mem {reqBlocks : List BlockHash} {nodes : List (Node K)} {hot : Node K}
    (h : hotNode reqBlocks nodes = .ok hot) : hot ∈ nodes := by
  unfold hotNode at h
  cases hargmax : nodes.argmax (hotKey reqBlocks) with
  | none =>
    rw [hargmax] at h
    cases h
  | some n =>
    rw [hargmax] at h
    cases h
    exact List.argmax_mem hargmax

/-- The enumerated pairs: every node in place, and every node but the hot one
seeded. -/
def Enumerated (allowTransfer : Bool) (hot node : Node K) (transfer : Bool) : Prop :=
  transfer = false ∨ (allowTransfer = true ∧ node.nodeId ≠ hot.nodeId)

theorem mem_candidatesOn {reqBlocks : List BlockHash} {now : K} {params : CostParams K}
    {allowTransfer : Bool} {hot node : Node K} {candidates : List (Placement K)}
    (h : candidatesOn reqBlocks now params allowTransfer hot node = .ok candidates)
    {p : Placement K} :
    p ∈ candidates ↔ ∃ transfer, Enumerated allowTransfer hot node transfer ∧
      predict reqBlocks node now params hot transfer = .ok p := by
  unfold candidatesOn at h
  rw [Runs.bind_eq_ok] at h
  obtain ⟨inPlace, hinPlace, h⟩ := h
  split_ifs at h with hseed
  · rw [Runs.bind_eq_ok] at h
    obtain ⟨seeded, hseeded, h⟩ := h
    cases h
    simp only [List.mem_cons, List.not_mem_nil, or_false]
    constructor
    · rintro (rfl | rfl)
      · exact ⟨false, Or.inl rfl, hinPlace⟩
      · exact ⟨true, Or.inr hseed, hseeded⟩
    · rintro ⟨transfer, -, hp⟩
      cases transfer with
      | false => exact Or.inl (Except.ok.inj (hp.symm.trans hinPlace))
      | true => exact Or.inr (Except.ok.inj (hp.symm.trans hseeded))
  · cases h
    simp only [List.mem_cons, List.not_mem_nil, or_false]
    constructor
    · rintro rfl
      exact ⟨false, Or.inl rfl, hinPlace⟩
    · rintro ⟨transfer, henum, hp⟩
      rcases henum with rfl | henum
      · exact Except.ok.inj (hp.symm.trans hinPlace)
      · exact absurd henum hseed

/-- The oracle returns an enumerated placement that no enumerated one beats. -/
theorem bestPlacement_eq_ok {reqBlocks : List BlockHash} {nodes : List (Node K)} {now : K}
    {params : CostParams K} {allowTransfer : Bool} {best : Placement K}
    (h : bestPlacement reqBlocks nodes now params allowTransfer = .ok best) :
    ∃ hot, hotNode reqBlocks nodes = .ok hot ∧
      (∃ node ∈ nodes, ∃ transfer, Enumerated allowTransfer hot node transfer ∧
        predict reqBlocks node now params hot transfer = .ok best) ∧
      ∀ node ∈ nodes, ∀ transfer p, Enumerated allowTransfer hot node transfer →
        predict reqBlocks node now params hot transfer = .ok p → best.ttft ≤ p.ttft := by
  unfold bestPlacement at h
  simp only [Runs.bind_eq_ok] at h
  obtain ⟨hot, hhot, candidates, hcandidates, h⟩ := h
  cases hargmin : candidates.flatten.argmin Placement.key with
  | none =>
    rw [hargmin] at h
    cases h
  | some p =>
    rw [hargmin] at h
    cases h
    refine ⟨hot, hhot, ?_, ?_⟩
    · obtain ⟨own, hown, hp⟩ := List.mem_flatten.mp (List.argmin_mem hargmin)
      obtain ⟨node, hnode, hfrom⟩ := Runs.exists_of_mem_result hcandidates hown
      exact ⟨node, hnode, (mem_candidatesOn hfrom).mp hp⟩
    · intro node hnode transfer p henum hp
      obtain ⟨own, hown, hfrom⟩ := Runs.exists_of_mem_mapM hcandidates hnode
      have hmem : p ∈ candidates.flatten :=
        List.mem_flatten.mpr ⟨own, hown, (mem_candidatesOn hfrom).mpr ⟨transfer, henum, hp⟩⟩
      have hle := List.le_of_mem_argmin hmem hargmin
      rw [Placement.key, Placement.key, Prod.Lex.toLex_le_toLex] at hle
      rcases hle with hlt | ⟨heq, -⟩
      · exact hlt.le
      · exact heq.le

end SchedLm.Sim
