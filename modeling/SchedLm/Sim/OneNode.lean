import SchedLm.Sim.EngineReturns
import SchedLm.Sim.Lease
import SchedLm.Sim.NoPressure
import SchedLm.Sim.Oracle

/-!
Runs in which one node does all the work. On a cluster of one there is nothing to
regret under any policy, and those there are serve in place, so all that give no
directives make the same run; and `cache_local`, which goes where the prefix is,
never leaves the node it starts on.
-/

namespace SchedLm.Sim

open Runs

variable {K : Type} [Scalar K]

section Alone

variable (reqBlocks : List BlockHash) (n : Node K) (now : K) (params : CostParams K)

theorem predict_hot : predict reqBlocks n now params n false =
    .ok (predicted reqBlocks n now params n false) :=
  predict_eq_ok_iff.mpr ⟨fun hmoved => absurd hmoved (lt_irrefl 0), rfl⟩

omit [Scalar K] in
theorem hotNode_singleton : hotNode reqBlocks [n] = .ok n := by
  unfold hotNode
  rw [List.argmax_singleton]

theorem bestPlacement_singleton (allowTransfer : Bool) :
    bestPlacement reqBlocks [n] now params allowTransfer =
      .ok (predicted reqBlocks n now params n false) := by
  have hcandidates : candidatesOn reqBlocks now params allowTransfer n n =
      .ok [predicted reqBlocks n now params n false] := by
    unfold candidatesOn
    rw [predict_hot]
    exact if_neg fun hseed => hseed.2 rfl
  unfold bestPlacement
  rw [hotNode_singleton]
  simp only [bind, Except.bind, List.mapM_cons, hcandidates, List.mapM_nil, pure, Except.pure,
    List.flatten_cons, List.flatten_nil, List.append_nil, List.argmin_singleton]

theorem isCoupled_singleton :
    (isCoupled reqBlocks [n] now params (predicted reqBlocks n now params n false)).1 =
      .ok false := by
  unfold isCoupled
  simp only [List.map_cons, List.map_nil, bestPlacement_singleton]
  exact congrArg Except.ok (decide_eq_false fun hchanged => hchanged rfl)

end Alone

/-- The only thing that can be done on a cluster of one. -/
structure Placement.InPlace (p : Placement K) (n : Node K) : Prop where
  nodeId : p.nodeId = n.nodeId
  transfer : p.transfer = false

/-- Answering on a cluster of one, in any valid memory, with a placement that
serves in place and gives no directive. -/
structure Policy.ServesAlone (policy : Policy K) (valid : policy.State → Prop) : Prop where
  start : valid policy.start
  call : ∀ {state} (view : RequestView) {n : Node K} (now : K) (params : CostParams K),
    valid state → n.nodeId = 0 → ∃ state' place,
      policy.call state view [n] now params = .ok (state', place) ∧ valid state' ∧
        place.InPlace n ∧ place.NoDirective

/-- A routing function that serves in place and gives no directive. -/
def RoutingFunction.PlainAlone (route : RoutingFunction K) : Prop :=
  ∀ view (n : Node K) now params, ∃ place, route view [n] now params = .ok place ∧
    place.InPlace n ∧ place.NoDirective

theorem RoutingFunction.PlainAlone.servesAlone {route : RoutingFunction K}
    (h : route.PlainAlone) :
    (Policy.stateless route).ServesAlone fun _ => True := by
  refine ⟨True.intro, fun view n now params _ _ => ?_⟩
  obtain ⟨place, hplace, hin, hplain⟩ := h view n now params
  exact ⟨(), place, by simp only [hplace]; rfl, True.intro, hin, hplain⟩

theorem roundRobin_servesAlone :
    (roundRobin : Policy K).ServesAlone fun _ => True := by
  refine ⟨True.intro, ?_⟩
  intro (next : ℕ) view n now params _ _
  have hnode : ([n] : List (Node K))[next % ([n] : List (Node K)).length]? = some n := by
    rw [List.length_singleton, Nat.mod_one]
    rfl
  refine ⟨next + 1, predicted view.blocks n now params n false, ?_, True.intro,
    ⟨rfl, rfl⟩, ⟨rfl, rfl⟩⟩
  unfold roundRobin
  simp only [hnode, hotNode_singleton, bind, Except.bind, predict_hot]
  rfl

theorem cacheLocal_alone : (cacheLocal : RoutingFunction K).PlainAlone := by
  intro view n now params
  refine ⟨predicted view.blocks n now params n false, ?_, ⟨rfl, rfl⟩, ⟨rfl, rfl⟩⟩
  unfold cacheLocal
  rw [hotNode_singleton]
  exact predict_hot view.blocks n now params

theorem oracle_alone : (oracle : RoutingFunction K).PlainAlone := fun view n now params =>
  ⟨_, bestPlacement_singleton view.blocks n now params true, ⟨rfl, rfl⟩, ⟨rfl, rfl⟩⟩

/-- The second candidate, seeding the node from itself, is passed over. -/
theorem transferAware_alone : (transferAware : RoutingFunction K).PlainAlone := by
  intro view n now params
  have hskip : ∀ best, scoreCandidate view now params n best (n, true) = .ok best :=
    fun best => if_pos ⟨rfl, rfl⟩
  obtain ⟨place, hfirst, hin, hplain⟩ : ∃ place,
      scoreCandidate view now params n none (n, false) = .ok (some place) ∧
        place.InPlace n ∧ place.NoDirective := by
    unfold scoreCandidate
    simp only [predict_hot, bind, Except.bind, Bool.false_eq_true, false_and, if_false]
    exact ⟨_, rfl, ⟨rfl, rfl⟩, ⟨rfl, rfl⟩⟩
  refine ⟨place, ?_, hin, hplain⟩
  unfold transferAware
  simp only [hotNode_singleton, bind, Except.bind, List.flatMap_cons, List.flatMap_nil,
    List.append_nil, List.foldlM_cons, List.foldlM_nil, hfirst, hskip, pure, Except.pure]

theorem classAware_alone : (classAware : RoutingFunction K).PlainAlone := by
  intro view n now params
  have hplain : ∃ place, predict view.blocks n now params n false = .ok place ∧
      place.InPlace n ∧ place.NoDirective :=
    ⟨_, predict_hot view.blocks n now params, ⟨rfl, rfl⟩, ⟨rfl, rfl⟩⟩
  unfold classAware
  cases classify view with
  | oneshot =>
    have hleast : leastLoaded [n] now params = .ok n := by
      unfold leastLoaded
      rw [List.argmin_singleton]
    simp only [hleast, hotNode_singleton, bind, Except.bind]
    exact hplain
  | rag =>
    simp only [hotNode_singleton, bind, Except.bind]
    split_ifs
    · exact hplain
    · exact transferAware_alone view n now params
  | tool => exact transferAware_alone view n now params

/-- The router index of a cluster of one has the list of one node. -/
def WeightedScorers.OneList (index : Option RouterIndex) : Prop :=
  ∀ known, index = some known → ∃ held, known.blocks = [held]

/-- The only candidate has the best score, whatever it is, as long as the index has the
list of one node. -/
theorem weightedScorers_servesAlone (scorers : WeightedScorers K) :
    scorers.policy.ServesAlone WeightedScorers.OneList := by
  refine ⟨fun _ hnone => (by cases hnone), ?_⟩
  intro (index : Option RouterIndex) view n now params hindex hid
  obtain ⟨known, hknown, held, hheld⟩ : ∃ known,
      index.getD (RouterIndex.init 1 scorers.indexCapacity) = known ∧
        ∃ held, known.blocks = [held] := by
    cases index with
    | none => exact ⟨_, rfl, ∅, rfl⟩
    | some known => exact ⟨known, rfl, hindex known rfl⟩
  have hone : scorers.unsaturated [n] now params = [n] := by
    unfold WeightedScorers.unsaturated
    by_cases hlimit : quantizedWait n now params ≤ scorers.saturationDepth * nominalService params
    · simp [hlimit]
    · simp [hlimit]
  have hlist : known.blocks[n.nodeId]? = some held := by
    rw [hheld, hid]
    rfl
  obtain ⟨total, htotal⟩ : ∃ total, scorers.score (some known) view now params
      (quantizedWait n now params) (quantizedWait n now params) n = .ok total := by
    have hmatched : known.matched n.nodeId view.blocks =
        .ok (matchedPrefix view.blocks fun h => decide (h ∈ held)) := by
      unfold RouterIndex.matched
      rw [hlist]
    unfold WeightedScorers.score WeightedScorers.prefixScore
    simp only [hmatched, bind, Except.bind, pure, Except.pure]
    split_ifs <;> exact ⟨_, rfl⟩
  obtain ⟨after, hafter, hvalid⟩ : ∃ after,
      (if scorers.precise then pure known else known.record n.nodeId view.blocks) =
        Except.ok after ∧ ∃ held, after.blocks = [held] := by
    unfold RouterIndex.record
    rw [hlist]
    split_ifs
    · exact ⟨known, rfl, held, hheld⟩
    · refine ⟨_, rfl, (RouterIndex.touchAll held view.blocks).popWhileOver known.capacity, ?_⟩
      dsimp only
      rw [hheld, hid, List.set_cons_zero]
  refine ⟨some after, predicted view.blocks n now params n false, ?_, ?_, ⟨rfl, rfl⟩,
    ⟨rfl, rfl⟩⟩
  · change scorers.call index view [n] now params = _
    unfold WeightedScorers.call
    simp only [List.length_singleton, hknown, hone, List.map_cons, List.map_nil]
    have hmin : [quantizedWait n now params].min? = some (quantizedWait n now params) := rfl
    have hmax : [quantizedWait n now params].max? = some (quantizedWait n now params) := rfl
    simp only [hmin, hmax, List.mapM_cons, List.mapM_nil, htotal, bind, Except.bind, pure,
      Except.pure, List.argmax_singleton, hotNode_singleton, predict_hot]
    split_ifs at hafter ⊢ with hprecise
    · obtain rfl := Except.ok.inj hafter
      rfl
    · rw [hafter]
  · rintro _ ⟨⟩
    exact hvalid

theorem buildPolicy_servesAlone {name : String} {retainMargin : K} {policy : Policy K}
    (h : buildPolicy name retainMargin = .ok policy) (hname : name ≠ "class-aware-reliability") :
    ∃ valid, policy.ServesAlone valid := by
  unfold buildPolicy at h
  split at h
  · cases h
    exact ⟨_, roundRobin_servesAlone⟩
  · cases h
    exact ⟨_, cacheLocal_alone.servesAlone⟩
  · cases h
    exact ⟨_, transferAware_alone.servesAlone⟩
  · cases h
    exact ⟨_, weightedScorers_servesAlone _⟩
  · cases h
    exact ⟨_, weightedScorers_servesAlone _⟩
  · cases h
    exact ⟨_, classAware_alone.servesAlone⟩
  · exact absurd rfl hname
  · cases h
    exact ⟨_, oracle_alone.servesAlone⟩
  · cases h
    exact ⟨_, oracle_alone.servesAlone⟩
  · cases h

/-- A turn of a cluster of one; only the memory and the placement are the policy's. -/
def Turn.alone {σ : Type} (n : Node K) (params : CostParams K) (req : TurnRequest K) (state : σ)
    (place : Placement K) : Turn K σ where
  oracle := predicted req.blockHashes n req.arrival params n false
  coupled := false
  nodes := [n]
  policy := state
  chosen := place
  hot := n
  node := n
  realized := predicted req.blockHashes n req.arrival params n false

theorem routeTurn_alone {policy : Policy K} {valid : policy.State → Prop}
    (h : policy.ServesAlone valid) {s : SimState K policy.State} {n : Node K}
    (hnodes : s.nodes = [n]) (hid : n.nodeId = 0) (hvalid : valid s.policy)
    (params : CostParams K) (req : TurnRequest K) :
    ∃ state place, routeTurn policy params s req = .ok (Turn.alone n params req state place) ∧
      valid state ∧ place.InPlace n ∧ place.NoDirective := by
  obtain ⟨state, place, hcall, hstate, hin, hplain⟩ :=
    h.call (requestView req) req.arrival params hvalid hid
  refine ⟨state, place, ?_, hstate, hin, hplain⟩
  have hnode : ([n] : List (Node K))[place.nodeId]? = some n := by
    rw [hin.nodeId, hid]
    rfl
  unfold routeTurn
  simp only [isCoupled_nodes, hnodes, bestPlacement_singleton, isCoupled_singleton, hcall,
    hotNode_singleton, bind, Except.bind, hnode, hin.transfer, predict_hot]
  rfl

section Together

variable {first second : Policy K} {valid : first.State → Prop} {valid' : second.State → Prop}

/-- Two runs on one and the same node. The two memories need not have anything to do
with each other, as long as each is one its policy answers from. -/
structure Together (valid : first.State → Prop) (valid' : second.State → Prop)
    (s : SimState K first.State) (t : SimState K second.State) : Prop where
  idx : s.idx = t.idx
  nodes : ∃ n, n.nodeId = 0 ∧ s.nodes = [n] ∧ t.nodes = [n]
  result : s.result = t.result
  lastSeen : s.lastSeen = t.lastSeen
  memory : valid s.policy
  memory' : valid' t.policy

theorem simStep_together (hfirst : first.ServesAlone valid)
    (hsecond : second.ServesAlone valid') {s : SimState K first.State}
    {t : SimState K second.State} (h : Together valid valid' s t) (params : CostParams K)
    (req : TurnRequest K) :
    Related (Together valid valid') (simStep first params s req)
      (simStep second params t req) := by
  obtain ⟨n, hid, hs, ht⟩ := h.nodes
  obtain ⟨state, place, hroute, hstate, hin, hplain⟩ :=
    routeTurn_alone hfirst hs hid h.memory params req
  obtain ⟨state', place', hroute', hstate', hin', hplain'⟩ :=
    routeTurn_alone hsecond ht hid h.memory' params req
  have hresident : (Turn.alone n params req state place).resident req =
      (Turn.alone n params req state' place').resident req := by
    unfold Turn.resident Turn.alone
    rw [hin.transfer, hin'.transfer]
  have hcalls : (Turn.alone n params req state place).admitCall params s.idx req =
      (Turn.alone n params req state' place').admitCall params t.idx req := by
    unfold Turn.admitCall Turn.service
    rw [hresident, h.idx]
    simp only [Turn.alone, hplain.retainUntil, hplain'.retainUntil, hplain.priority,
      hplain'.priority]
  have hrecord : ∀ result : SimResult K,
      result.recordTurn params req (Turn.alone n params req state place) =
        result.recordTurn params req (Turn.alone n params req state' place') := by
    intro result
    unfold SimResult.recordTurn
    rw [hresident]
    rfl
  unfold simStep
  simp only [hroute, hroute', bind, Except.bind]
  have hnode : (Turn.alone n params req state place).node =
      (Turn.alone n params req state' place').node := rfl
  rw [hcalls, hnode]
  cases hadmitted : (Turn.alone n params req state' place').node.admitRequest
      ((Turn.alone n params req state' place').admitCall params t.idx req) with
  | none => exact .error _
  | some node =>
    apply Related.ok
    have hsame := Node.admitRequest_sameServer hadmitted
    refine ⟨congrArg (· + 1) h.idx, ⟨node, hsame.nodeId.trans hid, ?_, ?_⟩, ?_, ?_, hstate,
      hstate'⟩
    · change [n].set place.nodeId node = [node]
      rw [hin.nodeId, hid, List.set_cons_zero]
    · change [n].set place'.nodeId node = [node]
      rw [hin'.nodeId, hid, List.set_cons_zero]
    · change (s.result.recordGap _ _).recordTurn params req _ = _
      rw [hrecord, h.result, h.lastSeen]
    · change (observeGap s.lastSeen _ _ _).2 = _
      rw [h.lastSeen]

theorem runSimulation_together (hfirst : first.ServesAlone valid)
    (hsecond : second.ServesAlone valid')
    (requests : List (TurnRequest K)) (cacheBlocks : ℤ) (params : CostParams K) (belady : Bool) :
    runSimulation requests first 1 cacheBlocks params belady =
      runSimulation requests second 1 cacheBlocks params belady := by
  have hstart : Together valid valid' (simStart requests first 1 cacheBlocks belady)
      (simStart requests second 1 cacheBlocks belady) :=
    ⟨rfl, ⟨_, rfl, rfl, rfl⟩, rfl, rfl, hfirst.start, hsecond.start⟩
  have hrun := related_foldlM
    (fun req (_ : req ∈ requests.take requests.length) s t (h : Together valid valid' s t) =>
      simStep_together hfirst hsecond h params req) hstart
  unfold runSimulation simAfter
  apply hrun.bind_eq
  intro s t h
  obtain ⟨n, -, hs, ht⟩ := h.nodes
  rw [h.result, hs, ht]

end Together

/-- A turn of a cluster of one is served on its node, with whatever it moves at
no cost. -/
theorem Routed.alone {policy : Policy K} {params : CostParams K} {s : SimState K policy.State}
    {req : TurnRequest K} {t : Turn K policy.State} (h : Routed policy params s req t)
    {n : Node K} (hnodes : s.nodes = [n]) :
    t.chosen.nodeId = 0 ∧ t.node = n ∧ t.coupled = false ∧ t.regret = 0 := by
  obtain ⟨hzero, hnode⟩ : t.chosen.nodeId = 0 ∧ t.node = n := by
    have hget := h.node
    rw [hnodes, List.getElem?_singleton] at hget
    split_ifs at hget with hzero
    exact ⟨hzero, (Option.some.inj hget).symm⟩
  have horacle : t.oracle = predicted req.blockHashes n req.arrival params n false := by
    have hbest := h.oracle
    rw [hnodes, bestPlacement_singleton] at hbest
    exact (Except.ok.inj hbest).symm
  have hhot : t.hot = n := by
    have hlongest := h.hot
    rw [hnodes, hotNode_singleton] at hlongest
    exact (Except.ok.inj hlongest).symm
  refine ⟨hzero, hnode, ?_, ?_⟩
  · have hcoupled := h.coupled
    rw [horacle, hnodes, isCoupled_singleton] at hcoupled
    exact (Except.ok.inj hcoupled).symm
  · have hrealized := h.realized
    rw [hnode, hhot] at hrealized
    unfold Turn.regret
    rw [horacle, predict_hot_ttft hrealized (predict_hot req.blockHashes n req.arrival params),
      sub_self, max_self]

/-- On one node there is nothing to regret and nobody to depend on, under any policy:
every turn is served there, and whatever it moves is moved from the node to itself. -/
theorem settled_alone {policy : Policy K} {requests : List (TurnRequest K)} {cacheBlocks : ℤ}
    {params : CostParams K} {belady : Bool} {result : SimResult K}
    (hrun : runSimulation requests policy 1 cacheBlocks params belady = .ok result) :
    result.coupled = 0 ∧ ∀ regret ∈ result.regrets, regret = 0 := by
  unfold runSimulation at hrun
  obtain ⟨s, hs, hresult⟩ := bind_eq_ok.mp hrun
  obtain rfl := Except.ok.inj hresult
  have hinv := simAfter_induction (fun _ (s : SimState K policy.State) =>
    (∃ n, s.nodes = [n]) ∧ s.result.coupled = 0 ∧ ∀ regret ∈ s.result.regrets, regret = 0)
    ?_ ?_ le_rfl hs
  · exact hinv.2
  · exact ⟨⟨_, rfl⟩, rfl, fun regret hregret => absurd hregret List.not_mem_nil⟩
  · rintro k s req s' - - ⟨⟨n, hnodes⟩, hcoupled, hregrets⟩ hstep
    obtain ⟨t, node, hroute, -, rfl⟩ := simStep_eq_ok hstep
    obtain ⟨hzero, -, hfree, hregret⟩ := (routeTurn_eq_ok hroute).alone hnodes
    refine ⟨⟨node, ?_⟩, ?_, ?_⟩
    · change s.nodes.set t.chosen.nodeId node = [node]
      rw [hnodes, hzero, List.set_cons_zero]
    · rw [SimResult.recordGap_frame]
      change (if t.coupled then s.result.coupled + 1 else s.result.coupled) = 0
      rw [hfree]
      exact hcoupled
    · rw [SimResult.recordGap_frame]
      intro regret hmem
      rcases List.mem_append.mp hmem with hmem | hmem
      · exact hregrets regret hmem
      · rw [List.mem_singleton.mp hmem]
        exact hregret

/-- On a cluster of one, all policies of `build_policy` that give no directives make the
same run, or fail alike, whatever the stream, the capacity, the costs and the eviction
strategy. And no policy at all has anything to regret there or depends on another node's
queue, also one that moves blocks to and fro. -/
theorem one_node_policies_agree (requests : List (TurnRequest K)) (cacheBlocks : ℤ)
    (params : CostParams K) (belady : Bool) :
    (∀ (name name' : String) (retainMargin retainMargin' : K) (policy policy' : Policy K),
      buildPolicy name retainMargin = .ok policy → buildPolicy name' retainMargin' = .ok policy' →
      name ≠ "class-aware-reliability" → name' ≠ "class-aware-reliability" →
      runSimulation requests policy 1 cacheBlocks params belady =
        runSimulation requests policy' 1 cacheBlocks params belady) ∧
    ∀ (policy : Policy K) (result : SimResult K),
      runSimulation requests policy 1 cacheBlocks params belady = .ok result →
        result.coupled = 0 ∧ ∀ regret ∈ result.regrets, regret = 0 := by
  constructor
  · intro name name' retainMargin retainMargin' policy policy' hpolicy hpolicy' hname hname'
    obtain ⟨valid, hserves⟩ := buildPolicy_servesAlone hpolicy hname
    obtain ⟨valid', hserves'⟩ := buildPolicy_servesAlone hpolicy' hname'
    exact runSimulation_together hserves hserves' requests cacheBlocks params belady
  · intro policy result hrun
    exact settled_alone hrun

/-- Routing that has every prefix moved, from the node it is on to the same. -/
def movesAlways : RoutingFunction ℚ := fun view nodes now params => do
  let hot ← hotNode view.blocks nodes
  predict view.blocks hot now params hot true

/-- Two prompts that share a block, by weighted scorers and by the cost model, and
by routing that is none of those there are. -/
theorem one_node_policies_agree_two :
    runSimulation sharedPrefix (WeightedScorers.policy { precise := false }) 1 3 {} =
        runSimulation sharedPrefix (.stateless transferAware) 1 3 {} ∧
      ∃ result, runSimulation sharedPrefix (.stateless movesAlways) 1 3 {} = .ok result ∧
        result.coupled = 0 ∧ ∀ regret ∈ result.regrets, regret = 0 := by
  constructor
  · exact (one_node_policies_agree sharedPrefix 3 {} false).1 "weighted-approx" "transfer-aware"
      defaultRetainMargin defaultRetainMargin _ _ rfl rfl (by decide) (by decide)
  · have hreturns : (runSimulation sharedPrefix (.stateless movesAlways) 1 3 {}).toOption.isSome =
        true := by decide +kernel
    obtain ⟨result, hrun⟩ := exists_eq_ok hreturns
    exact ⟨result, hrun, (one_node_policies_agree sharedPrefix 3 {} false).2 _ result hrun⟩

/-- The slice of the metrics of a class that does not compare with other nodes. -/
def KindStats.service (stats : KindStats K) : ℕ × List K × ℤ × ℕ :=
  (stats.count, stats.ttfts, stats.reusedBlocks, stats.totalBlocks)

/-- Equal metrics but for what the other nodes could have done: the regrets and
the coupled decisions. -/
structure SameService (r r' : SimResult K) : Prop where
  ttfts : r.ttfts = r'.ttfts
  e2eLatencies : r.e2eLatencies = r'.e2eLatencies
  successes : r.successes = r'.successes
  errors : r.errors = r'.errors
  regimes : r.regimes = r'.regimes
  reusedBlocks : r.reusedBlocks = r'.reusedBlocks
  totalBlocks : r.totalBlocks = r'.totalBlocks
  pinnedEvictions : r.pinnedEvictions = r'.pinnedEvictions
  byKind : ∀ kind, (r.byKind.lookup kind).map KindStats.service =
    (r'.byKind.lookup kind).map KindStats.service
  gapByTool : r.gapByTool = r'.gapByTool

/-- Nodes behind node 0 that have never been given a request. -/
def Untouched (rest : List (Node K)) : Prop :=
  ∀ n ∈ rest, 0 < n.nodeId ∧ n.pinnedEvictions = 0 ∧ ∀ reqBlocks, n.matched reqBlocks = 0

omit [Scalar K] in
/-- With all of the cached blocks on node 0, or none at all, node 0 is the hot one. -/
theorem hotNode_untouched (reqBlocks : List BlockHash) {n : Node K} {rest : List (Node K)}
    (hid : n.nodeId = 0) (hrest : Untouched rest) : hotNode reqBlocks (n :: rest) = .ok n := by
  obtain ⟨hot, hhot⟩ := exists_hotNode reqBlocks (List.cons_ne_nil n rest)
  obtain ⟨hmem, hmost⟩ := hotNode_eq_ok hhot
  rcases List.mem_cons.mp hmem with rfl | hother
  · exact hhot
  · obtain ⟨hpos, -, hcold⟩ := hrest hot hother
    have hle := hmost n List.mem_cons_self
    rw [hotKey, hotKey, hcold, hid, Prod.Lex.toLex_le_toLex] at hle
    rcases hle with hlt | ⟨-, hle⟩
    · exact absurd hlt (Nat.not_lt_zero _)
    · exact absurd (OrderDual.toDual_le_toDual.mp hle) (Nat.not_le_of_lt hpos)

def Turn.home (n : Node K) (rest : List (Node K)) (params : CostParams K)
    (req : TurnRequest K) (best : Placement K) (changed : Bool) : Turn K Unit where
  oracle := best
  coupled := changed
  nodes := n :: rest
  policy := ()
  chosen := predicted req.blockHashes n req.arrival params n false
  hot := n
  node := n
  realized := predicted req.blockHashes n req.arrival params n false

theorem routeTurn_home {s : SimState K Unit} {n : Node K} {rest : List (Node K)}
    (hnodes : s.nodes = n :: rest) (hid : n.nodeId = 0) (hrest : Untouched rest)
    {params : CostParams K} (hbandwidth : params.bandwidth ≠ 0) (req : TurnRequest K) :
    ∃ best changed, routeTurn (.stateless cacheLocal) params s req =
      .ok (Turn.home n rest params req best changed) := by
  have hne : n :: rest ≠ [] := List.cons_ne_nil n rest
  obtain ⟨best, hbest⟩ := bestPlacement_returns req.blockHashes req.arrival hne hbandwidth
  obtain ⟨changed, hchanged⟩ :=
    isCoupled_returns req.blockHashes req.arrival best hne hbandwidth
  have hhot := hotNode_untouched req.blockHashes hid hrest
  have hcall : cacheLocal (requestView req) (n :: rest) req.arrival params =
      .ok (predicted req.blockHashes n req.arrival params n false) := by
    unfold cacheLocal
    change (hotNode req.blockHashes (n :: rest) >>= _) = _
    rw [hhot]
    exact predict_hot req.blockHashes n req.arrival params
  have hnode : (n :: rest)[(predicted req.blockHashes n req.arrival params n false).nodeId]? =
      some n := by
    change (n :: rest)[n.nodeId]? = some n
    rw [hid]
    rfl
  have hrealized : predict req.blockHashes n req.arrival params n
      (predicted req.blockHashes n req.arrival params n false).transfer =
        .ok (predicted req.blockHashes n req.arrival params n false) :=
    predict_hot req.blockHashes n req.arrival params
  refine ⟨best, changed, ?_⟩
  unfold routeTurn
  simp only [isCoupled_nodes, hnodes, hbest, hchanged, hcall, hhot, bind, Except.bind, pure,
    Except.pure, hnode, hrealized]
  rfl

namespace SameService

variable {r r' : SimResult K}

omit [Scalar K] in
theorem recordGap (h : SameService r r') (tool : Option String) (gap : Option K) :
    SameService (r.recordGap tool gap) (r'.recordGap tool gap) := by
  cases gap with
  | none => exact h
  | some gap =>
    cases tool with
    | none => exact h
    | some tool =>
      refine { h with gapByTool := ?_ }
      change OrderedDict.setItem r.gapByTool tool _ = OrderedDict.setItem r'.gapByTool tool _
      rw [h.gapByTool]

theorem recordTurn (h : SameService r r') (n : Node K) (rest : List (Node K))
    (params : CostParams K) (req : TurnRequest K) (best best' : Placement K)
    (changed changed' : Bool) :
    SameService (r.recordTurn params req (Turn.home n rest params req best changed))
      (r'.recordTurn params req (Turn.home n [] params req best' changed')) := by
  refine ⟨?_, ?_, ?_, h.errors, ?_, ?_, ?_, h.pinnedEvictions, ?_, h.gapByTool⟩
  · exact congrArg (· ++ _) h.ttfts
  · exact congrArg (· ++ _) h.e2eLatencies
  · exact congrArg (· + 1) h.successes
  · change OrderedDict.setItem r.regimes _ _ = OrderedDict.setItem r'.regimes _ _
    rw [h.regimes]
    rfl
  · exact congrArg (· + _) h.reusedBlocks
  · exact congrArg (· + _) h.totalBlocks
  · intro kind
    have hbefore : ((r.byKind.lookup req.kind).getD {}).service =
        ((r'.byKind.lookup req.kind).getD {}).service := by
      have hkind := h.byKind req.kind
      cases hl : r.byKind.lookup req.kind with
      | none =>
        rw [hl] at hkind
        rw [Option.map_eq_none_iff.mp hkind.symm]
      | some stats =>
        rw [hl] at hkind
        obtain ⟨stats', hstats', hsame⟩ := Option.map_eq_some_iff.mp hkind.symm
        rw [hstats']
        exact hsame.symm
    obtain ⟨hcount, hrest⟩ := Prod.mk.inj hbefore
    obtain ⟨httfts, hrest⟩ := Prod.mk.inj hrest
    obtain ⟨hreused, htotal⟩ := Prod.mk.inj hrest
    by_cases hkind : kind = req.kind
    · rw [hkind]
      change ((OrderedDict.setItem r.byKind req.kind _).lookup req.kind).map _ =
        ((OrderedDict.setItem r'.byKind req.kind _).lookup req.kind).map _
      rw [OrderedDict.lookup_setItem, OrderedDict.lookup_setItem]
      simp only [Option.map_some, KindStats.service, hcount, httfts, hreused, htotal]
      rfl
    · change ((OrderedDict.setItem r.byKind req.kind _).lookup kind).map _ =
        ((OrderedDict.setItem r'.byKind req.kind _).lookup kind).map _
      rw [OrderedDict.lookup_setItem_ne hkind, OrderedDict.lookup_setItem_ne hkind]
      exact h.byKind kind

end SameService

/-- Two runs of `cache_local`, one of which has more nodes. They have the same node 0,
and the other nodes are those of the start. -/
structure Collapsed (rest : List (Node K)) (s t : SimState K Unit) : Prop where
  idx : s.idx = t.idx
  nodes : ∃ n, n.nodeId = 0 ∧ s.nodes = n :: rest ∧ t.nodes = [n]
  result : SameService s.result t.result
  lastSeen : s.lastSeen = t.lastSeen

theorem simStep_collapsed {rest : List (Node K)} (hrest : Untouched rest)
    {params : CostParams K} (hbandwidth : params.bandwidth ≠ 0) {s t : SimState K Unit}
    (h : Collapsed rest s t) (req : TurnRequest K) :
    Related (Collapsed rest) (simStep (.stateless cacheLocal) params s req)
      (simStep (.stateless cacheLocal) params t req) := by
  obtain ⟨n, hid, hs, ht⟩ := h.nodes
  obtain ⟨best, changed, hroute⟩ := routeTurn_home hs hid hrest hbandwidth req
  obtain ⟨best', changed', hroute'⟩ :=
    routeTurn_home ht hid (fun _ hmem => absurd hmem List.not_mem_nil) hbandwidth req
  have hcalls : (Turn.home n rest params req best changed).admitCall params s.idx req =
      (Turn.home n [] params req best' changed').admitCall params t.idx req := by
    rw [h.idx]
    rfl
  have hnode : (Turn.home n rest params req best changed).node =
      (Turn.home n [] params req best' changed').node := rfl
  unfold simStep
  simp only [hroute, hroute', bind, Except.bind]
  rw [hcalls, hnode]
  cases hadmitted : (Turn.home n [] params req best' changed').node.admitRequest
      ((Turn.home n [] params req best' changed').admitCall params t.idx req) with
  | none => exact .error _
  | some node =>
    apply Related.ok
    have hsame := Node.admitRequest_sameServer hadmitted
    refine ⟨congrArg (· + 1) h.idx, ⟨node, hsame.nodeId.trans hid, ?_, ?_⟩, ?_, ?_⟩
    · change (n :: rest).set n.nodeId node = node :: rest
      rw [hid, List.set_cons_zero]
    · change [n].set n.nodeId node = [node]
      rw [hid, List.set_cons_zero]
    · change SameService
        ((s.result.recordGap _ (observeGap s.lastSeen _ _ _).1).recordTurn _ _ _) _
      rw [h.lastSeen]
      exact (h.result.recordGap _ _).recordTurn n rest params req best best' changed changed'
    · change (observeGap s.lastSeen _ _ _).2 = _
      rw [h.lastSeen]

theorem untouched_range (m : ℕ) (cacheBlocks : ℤ) (eviction : Eviction) :
    Untouched ((List.range m).map fun i =>
      (Node.init (i + 1) cacheBlocks eviction : Node K)) := by
  intro n hn
  obtain ⟨i, -, rfl⟩ := List.mem_map.mp hn
  refine ⟨Nat.succ_pos i, rfl, fun reqBlocks => ?_⟩
  cases reqBlocks with
  | nil => rfl
  | cons b blocks => rfl

/-- `cache_local` never leaves the node it starts on. A cluster of any size serves every
stream as one node does, in every metric but the regrets and the coupled decisions, and
its other nodes stay as they were in every state reached. Without a bandwidth only the
cluster could raise, so there must be one. -/
theorem cache_local_collapses (requests : List (TurnRequest K)) {numNodes : ℕ}
    (hnodes : 0 < numNodes) (cacheBlocks : ℤ) {params : CostParams K}
    (hbandwidth : params.bandwidth ≠ 0) (belady : Bool) :
    Related SameService
        (runSimulation requests (.stateless cacheLocal) numNodes cacheBlocks params belady)
        (runSimulation requests (.stateless cacheLocal) 1 cacheBlocks params belady) ∧
      ∀ k s, simAfter requests (.stateless cacheLocal) numNodes cacheBlocks params belady k =
        .ok s → s.nodes.tail =
          (simStart requests (.stateless cacheLocal) numNodes cacheBlocks belady).nodes.tail := by
  obtain ⟨m, rfl⟩ := Nat.exists_eq_succ_of_ne_zero hnodes.ne'
  set rest : List (Node K) := (List.range m).map fun i =>
    Node.init (i + 1) cacheBlocks (evictionOf requests belady) with hrest
  have huntouched : Untouched rest := untouched_range m cacheBlocks _
  have hcluster : (simStart requests (.stateless cacheLocal) (m + 1) cacheBlocks belady :
      SimState K Unit).nodes = Node.init 0 cacheBlocks (evictionOf requests belady) :: rest := by
    unfold simStart
    simp only [List.range_succ_eq_map, List.map_cons, List.map_map]
    rfl
  have hruns : ∀ k, Related (Collapsed rest)
      (simAfter requests (.stateless cacheLocal) (m + 1) cacheBlocks params belady k)
      (simAfter requests (.stateless cacheLocal) 1 cacheBlocks params belady k) := by
    intro k
    apply related_foldlM
      fun req _ s t h => simStep_collapsed huntouched hbandwidth h req
    refine ⟨rfl, ⟨_, rfl, hcluster, rfl⟩, ?_, rfl⟩
    exact ⟨rfl, rfl, rfl, rfl, rfl, rfl, rfl, rfl, fun _ => rfl, rfl⟩
  constructor
  · apply (hruns requests.length).bind
    intro s t h
    obtain ⟨n, -, hs, ht⟩ := h.nodes
    have hpinned : (s.nodes.map Node.pinnedEvictions).sum =
        (t.nodes.map Node.pinnedEvictions).sum := by
      have hnone : (rest.map Node.pinnedEvictions).sum = 0 :=
        List.sum_eq_zero fun count hcount => by
          obtain ⟨other, hother, rfl⟩ := List.mem_map.mp hcount
          exact (huntouched other hother).2.1
      rw [hs, ht, List.map_cons, List.sum_cons, hnone]
      rfl
    exact .ok { h.result with pinnedEvictions := hpinned }
  · intro k s hs
    have hrun := hruns k
    rw [hs] at hrun
    obtain ⟨t, -, h⟩ := hrun.exists_of_ok
    obtain ⟨n, -, hnodes, -⟩ := h.nodes
    rw [hnodes, hcluster]
    rfl

/-- Three nodes of two slots. -/
theorem cache_local_collapses_three :
    Related SameService (runSimulation sharedPrefix (.stateless cacheLocal) 3 2 {})
        (runSimulation sharedPrefix (.stateless cacheLocal) 1 2 {}) ∧
      ∀ k s, simAfter sharedPrefix (.stateless cacheLocal) 3 2 {} false k = .ok s →
        s.nodes.tail = (simStart sharedPrefix (.stateless cacheLocal) 3 2 false).nodes.tail :=
  cache_local_collapses sharedPrefix (by decide) 2 (by norm_num) false

end SchedLm.Sim
