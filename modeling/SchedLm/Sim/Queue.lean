import SchedLm.Sim.EngineRun

/-!
The queue a request leaves behind. Its latency is charged the copy that seeds
its node, its service time is not, so the node is free again before the request
completes by exactly the cost of that copy.
-/

namespace SchedLm.Sim

open Runs

variable {K : Type} [Scalar K]

/-- The chosen node is busy until the last recorded request completes: its arrival and
the latency on file for it. -/
def BusyUntilCompletion {σ : Type} (s : SimState K σ) (nodeId : ℕ) (req : TurnRequest K) :
    Prop :=
  ∃ node latency, s.nodes[nodeId]? = some node ∧
    s.result.e2eLatencies.getLast? = some latency ∧ node.busyUntil = req.arrival + latency

/-- Seeding the node the policy picks in this state is free: it already holds the
longest cached prefix or is not seeded, or copies cost nothing. What the policy picks is
asked of the policy itself, before the turn. -/
def TransferIsFree (policy : Policy K) (params : CostParams K) (s : SimState K policy.State)
    (req : TurnRequest K) : Prop :=
  (∀ state chosen hot node,
    policy.call s.policy (requestView req) s.nodes req.arrival params = .ok (state, chosen) →
    hotNode req.blockHashes s.nodes = .ok hot → s.nodes[chosen.nodeId]? = some node →
    chosen.transfer = true → hot.matched req.blockHashes ≤ node.matched req.blockHashes) ∨
  (params.blockKvBytes = 0 ∧ params.linkLatency = 0)

omit [Scalar K] in
/-- Nothing is copied exactly when the node is not seeded or needs no seeding. -/
theorem movedBlocks_eq_zero_iff {reqBlocks : List BlockHash} {node hot : Node K}
    {transfer : Bool} :
    movedBlocks reqBlocks node hot transfer = 0 ↔
      (transfer = true → hot.matched reqBlocks ≤ node.matched reqBlocks) := by
  cases transfer with
  | false => simp [movedBlocks]
  | true => simp [movedBlocks]

/-- A copy is free when it is empty, or when neither bytes nor set-up cost. -/
theorem transferTime_eq_zero_iff {params : CostParams K} (hbytes : 0 ≤ params.blockKvBytes)
    (hbandwidth : 0 < params.bandwidth) (hlatency : 0 ≤ params.linkLatency) {blocks : ℤ}
    (hblocks : 0 ≤ blocks) {cost : K} (hcost : params.transferTime blocks = .ok cost) :
    cost = 0 ↔ blocks = 0 ∨ (params.blockKvBytes = 0 ∧ params.linkLatency = 0) := by
  unfold CostParams.transferTime at hcost
  rcases hblocks.eq_or_lt with rfl | hpos
  · obtain rfl : 0 = cost := by simpa using hcost
    simp
  · rw [if_neg (not_le.mpr hpos), if_neg hbandwidth.ne'] at hcost
    obtain rfl := Except.ok.inj hcost
    have hscale : (0 : K) < blocks := by exact_mod_cast hpos
    have hbytesTerm : 0 ≤ blocks * params.blockKvBytes / params.bandwidth := by positivity
    rw [add_eq_zero_iff_of_nonneg hbytesTerm hlatency, div_eq_zero_iff,
      or_iff_left hbandwidth.ne', mul_eq_zero, or_iff_right hscale.ne']
    constructor
    · exact Or.inr
    · rintro (hzero | hfree)
      · omega
      · exact hfree

section Run

variable {requests : List (TurnRequest K)} {policy : Policy K} {numNodes : ℕ}
  {cacheBlocks : ℤ} {params : CostParams K} {belady : Bool} {k : ℕ}
  {s s' : SimState K policy.State} {req : TurnRequest K} {t : Turn K policy.State}

/-- A request completes when its server is free again, plus the copy: the copy counts
for the latency on file, but does not occupy the server. -/
theorem Visits.completion_eq
    (h : Visits requests policy numNodes cacheBlocks params belady k s req t) :
    ∃ cost, params.transferTime
        (movedBlocks req.blockHashes t.node t.hot t.chosen.transfer) = .ok cost ∧
      req.arrival + t.e2eLatency params req =
        max req.arrival t.node.busyUntil + t.service params req + cost := by
  obtain ⟨cost, hpredicted⟩ := predict_eq_ok h.routed.realized
  refine ⟨cost, hpredicted.cost, ?_⟩
  have hstart : req.arrival + t.node.wait req.arrival = max req.arrival t.node.busyUntil := by
    rw [Node.wait, ← max_add_add_left, add_zero, add_sub_cancel]
  have hservice : t.service params req =
      params.prefillTime ((req.blockHashes.length : ℤ) - (t.node.matched req.blockHashes +
        movedBlocks req.blockHashes t.node t.hot t.chosen.transfer)) +
        req.genTokens * params.interToken := rfl
  rw [Turn.e2eLatency, hpredicted.ttft, hservice, ← hstart]
  ring

/-- The node is busy until its request completes exactly when the copy was
free. -/
theorem Visits.busyUntilCompletion_iff
    (h : Visits requests policy numNodes cacheBlocks params belady k s req t)
    (hbytes : 0 ≤ params.blockKvBytes) (hbandwidth : 0 < params.bandwidth)
    (hlatency : 0 ≤ params.linkLatency)
    (hnext : simAfter requests policy numNodes cacheBlocks params belady (k + 1) = .ok s') :
    BusyUntilCompletion s' t.chosen.nodeId req ↔ TransferIsFree policy params s req := by
  have hrouted := h.routed
  obtain ⟨cost, hcost, hcompletion⟩ := h.completion_eq
  obtain ⟨node, hadmitted, hnodes, -, hlatencies⟩ := h.served hnext
  have hbusy := (Node.admitRequest_sameServer hadmitted).busyUntil
  have hlt : t.chosen.nodeId < s.nodes.length :=
    (List.getElem?_eq_some_iff.mp hrouted.node).1
  have hmoved : 0 ≤ movedBlocks req.blockHashes t.node t.hot t.chosen.transfer := by
    unfold movedBlocks
    split_ifs
    · exact le_max_left _ _
    · exact le_rfl
  have hgap : BusyUntilCompletion s' t.chosen.nodeId req ↔ cost = 0 := by
    unfold BusyUntilCompletion
    rw [hnodes, hlatencies, List.getElem?_set_self hlt, List.getLast?_concat]
    constructor
    · rintro ⟨_, _, ⟨⟩, ⟨⟩, heq⟩
      rw [hbusy, hcompletion] at heq
      exact left_eq_add.mp heq
    · rintro rfl
      refine ⟨node, _, rfl, rfl, ?_⟩
      rw [hbusy, hcompletion, add_zero]
      rfl
  rw [hgap, transferTime_eq_zero_iff hbytes hbandwidth hlatency hmoved hcost,
    movedBlocks_eq_zero_iff, TransferIsFree]
  refine or_congr_left ?_
  constructor
  · intro hseed state chosen hot n hcall hhot hn
    obtain ⟨-, rfl⟩ := Prod.mk.inj (Except.ok.inj (hrouted.call.symm.trans hcall))
    obtain rfl : t.hot = hot := Except.ok.inj (hrouted.hot.symm.trans hhot)
    obtain rfl : t.node = n := Option.some.inj (hrouted.node.symm.trans hn)
    exact hseed
  · intro hall
    exact hall _ _ _ _ hrouted.call hrouted.hot hrouted.node

theorem busyUntil_of_not_chosen {j : ℕ} (hjk : j ≤ k) (hk : k ≤ requests.length)
    {later : SimState K policy.State} {i : ℕ} {node : Node K}
    (hj : simAfter requests policy numNodes cacheBlocks params belady j = .ok s)
    (hrun : simAfter requests policy numNodes cacheBlocks params belady k = .ok later)
    (hother : ∀ l sl r tl, j ≤ l → l < k →
      Visits requests policy numNodes cacheBlocks params belady l sl r tl →
      tl.chosen.nodeId ≠ i)
    (hnode : s.nodes[i]? = some node) : later.nodes[i]? = some node := by
  induction k generalizing later with
  | zero =>
    obtain rfl : j = 0 := by omega
    obtain rfl : s = later := Except.ok.inj (hj.symm.trans hrun)
    exact hnode
  | succ k ih =>
    rcases hjk.eq_or_lt with rfl | hlt
    · obtain rfl : s = later := Except.ok.inj (hj.symm.trans hrun)
      exact hnode
    · obtain ⟨before, r, tk, hvisit, -⟩ := Visits.exists_of_lt (Nat.lt_succ_self k) hk hrun
      obtain ⟨_, -, hnodes, -, -⟩ := hvisit.served hrun
      rw [hnodes, List.getElem?_set_ne
        (hother k before r tk (by omega) (Nat.lt_succ_self k) hvisit)]
      exact ih (by omega) (by omega) hvisit.state fun l sl r tl hjl hlk =>
        hother l sl r tl hjl (by omega)

end Run

/-- In every run, under any policy and nonnegative transfer costs, a node is left busy
until the request it was just given completes exactly when seeding the node for it was
free, which is a question about the state before the turn. Where it was free, the next
request that the node is given, however much later and whatever goes to the other nodes
meanwhile, does not start before that completion. -/
theorem busy_until_completion_iff_transfer_is_free (requests : List (TurnRequest K))
    (policy : Policy K) (numNodes : ℕ) (cacheBlocks : ℤ) (params : CostParams K)
    (belady : Bool) (hbytes : 0 ≤ params.blockKvBytes) (hbandwidth : 0 < params.bandwidth)
    (hlatency : 0 ≤ params.linkLatency) :
    ∀ j s req t s', Visits requests policy numNodes cacheBlocks params belady j s req t →
      simAfter requests policy numNodes cacheBlocks params belady (j + 1) = .ok s' →
      (BusyUntilCompletion s' t.chosen.nodeId req ↔ TransferIsFree policy params s req) ∧
      (TransferIsFree policy params s req → ∀ k sk next tk, j < k →
        Visits requests policy numNodes cacheBlocks params belady k sk next tk →
        tk.chosen.nodeId = t.chosen.nodeId →
        (∀ l sl r tl, j < l → l < k →
          Visits requests policy numNodes cacheBlocks params belady l sl r tl →
          tl.chosen.nodeId ≠ t.chosen.nodeId) →
        req.arrival + t.e2eLatency params req ≤ max next.arrival tk.node.busyUntil) := by
  intro j s req t s' hvisit hnext
  have hiff := hvisit.busyUntilCompletion_iff hbytes hbandwidth hlatency hnext
  refine ⟨hiff, fun hfree k sk next tk hjk hlater hsame hother => ?_⟩
  obtain ⟨node, latency, hnode, hlast, hbusy⟩ := hiff.mpr hfree
  obtain ⟨-, -, -, -, hlatencies⟩ := hvisit.served hnext
  rw [hlatencies, List.getLast?_concat, Option.some.injEq] at hlast
  have hkept := busyUntil_of_not_chosen hjk hlater.le_length hnext hlater.state
    (fun l sl r tl hjl => hother l sl r tl hjl) hnode
  have hfound := hlater.routed.node
  rw [hsame, hkept, Option.some.injEq] at hfound
  rw [hlast, ← hbusy, hfound]
  exact le_max_right _ _

/-- Two requests for the same block, the second while the first is served. -/
def twoTurns : List (TurnRequest ℚ) :=
  [{ arrival := 0, tokens := [], blockHashes := [7], genTokens := 10 },
    { arrival := 1 / 100, tokens := [], blockHashes := [7], genTokens := 10 }]

/-- Under the default costs the oracle seeds the idle node for the second
request, and that node is free again before the request completes. -/
theorem busy_until_before_completion :
    ∃ s req t s', Visits twoTurns (.stateless oracle) 2 8 {} false 1 s req t ∧
      simAfter twoTurns (.stateless oracle) 2 8 {} false 2 = .ok s' ∧
      ¬ BusyUntilCompletion s' t.chosen.nodeId req := by
  have hend : (simAfter twoTurns (.stateless oracle) 2 8 {} false 2).map (fun s =>
      (s.nodes.map Node.busyUntil, s.result.e2eLatencies)) =
      .ok ([541 / 5000, 23 / 200], [541 / 5000, 1057 / 10000]) := by decide +kernel
  have hroute : (simAfter twoTurns (.stateless oracle) 2 8 {} false 1 >>= fun s =>
      routeTurn (.stateless oracle) {} s
        { arrival := 1 / 100, tokens := [], blockHashes := [7], genTokens := 10 }).map
      (fun t => t.chosen.nodeId) = .ok 1 := by decide +kernel
  obtain ⟨s', hs', hvalues⟩ := map_eq_ok.mp hend
  obtain ⟨t, ht, hchosen⟩ := map_eq_ok.mp hroute
  obtain ⟨s, hs, ht⟩ := bind_eq_ok.mp ht
  refine ⟨s, _, t, s', ⟨hs, rfl, ht⟩, hs', ?_⟩
  rintro ⟨node, latency, hnode, hlatency, hbusy⟩
  obtain ⟨hnodes, hlatencies⟩ := Prod.mk.inj hvalues
  have hfree : node.busyUntil = 23 / 200 := by
    have hget := congrArg (fun l => l[1]?) hnodes
    rw [hchosen] at hnode
    simpa [hnode] using hget
  rw [hlatencies] at hlatency
  have hlast : 1057 / 10000 = latency := Option.some.inj hlatency
  rw [hfree, ← hlast] at hbusy
  norm_num at hbusy

/-- Routed to where the prefix is, the second request queues behind the first: it
starts when the first completes, and the node is busy until the second does. -/
theorem busy_until_completion_iff_transfer_is_free_queued :
    ∃ s req t sk next tk s', Visits twoTurns (.stateless cacheLocal) 2 8 {} false 0 s req t ∧
      Visits twoTurns (.stateless cacheLocal) 2 8 {} false 1 sk next tk ∧
      simAfter twoTurns (.stateless cacheLocal) 2 8 {} false 2 = .ok s' ∧
      next.arrival < tk.node.busyUntil ∧
      req.arrival + t.e2eLatency {} req ≤ max next.arrival tk.node.busyUntil ∧
      BusyUntilCompletion s' tk.chosen.nodeId next := by
  have hfree : ∀ s req, TransferIsFree (.stateless cacheLocal) ({} : CostParams ℚ) s req := by
    intro s req
    refine Or.inl fun state chosen hot node hcall _ _ htransfer => ?_
    simp only [Policy.stateless, cacheLocal, bind_eq_ok] at hcall
    obtain ⟨place, ⟨_, _, hpredict⟩, hcall⟩ := hcall
    cases hcall
    obtain ⟨_, hpredicted⟩ := predict_eq_ok hpredict
    rw [hpredicted.transfer] at htransfer
    cases htransfer
  have hend : (do
      let s ← simAfter twoTurns (.stateless cacheLocal) 2 8 {} false 0
      let t ← routeTurn (.stateless cacheLocal) {} s
        { arrival := 0, tokens := [], blockHashes := [7], genTokens := 10 }
      let sk ← simAfter twoTurns (.stateless cacheLocal) 2 8 {} false 1
      let tk ← routeTurn (.stateless cacheLocal) {} sk
        { arrival := 1 / 100, tokens := [], blockHashes := [7], genTokens := 10 }
      let s' ← simAfter twoTurns (.stateless cacheLocal) 2 8 {} false 2
      return (s'.idx, t.chosen.nodeId, tk.chosen.nodeId,
        decide (1 / 100 < tk.node.busyUntil))) = .ok (2, 0, 0, true) := by
    decide +kernel
  simp only [bind_eq_ok] at hend
  obtain ⟨s, hs, t, ht, sk, hsk, tk, htk, s', hs', hvalues⟩ := hend
  simp only [pure, Except.pure, Except.ok.injEq, Prod.mk.injEq, decide_eq_true_eq] at hvalues
  obtain ⟨-, hchosen, hchosen', hqueued⟩ := hvalues
  have hfirst : Visits twoTurns (.stateless cacheLocal) 2 8 {} false 0 s _ t := ⟨hs, rfl, ht⟩
  have hsecond : Visits twoTurns (.stateless cacheLocal) 2 8 {} false 1 sk _ tk := ⟨hsk, rfl, htk⟩
  have hclaim := busy_until_completion_iff_transfer_is_free twoTurns (.stateless cacheLocal) 2 8
    {} false (by norm_num) (by norm_num) (by norm_num)
  refine ⟨s, _, t, sk, _, tk, s', hfirst, hsecond, hs', hqueued, ?_, ?_⟩
  · apply (hclaim 0 s _ t sk hfirst hsk).2 (hfree s _) 1 sk _ tk Nat.zero_lt_one hsecond
    · rw [hchosen, hchosen']
    · intro l _ _ _ hl hl'
      omega
  · exact (hclaim 1 sk _ tk s' hsecond hs').1.mpr (hfree sk _)

end SchedLm.Sim
