import SchedLm.Sim.EngineRun
import SchedLm.Sim.Observable
import SchedLm.Sim.PrefixMatch

/-!
Runs without cache pressure. When every node has room for all the blocks of the
stream nothing is ever evicted, so retention marks and the eviction strategy
stay out of sight: two runs whose policies pick the same placements return the
same metrics.
-/

namespace SchedLm.Sim

open Runs

variable {K : Type} [Scalar K]

namespace Node

/-- A node with room for every block there is, which holds no others and has evicted no
pin so far. -/
structure Roomy (blocks : Finset BlockHash) (n : Node K) : Prop where
  room : (blocks.card : ℤ) ≤ n.cacheCapacity
  resident : ∀ h ∈ n.cache, h ∈ blocks
  pinnedEvictions : n.pinnedEvictions = 0

/-- A roomy node serves a request without evicting anything, and stays roomy. Its
eviction strategy has nothing to do. -/
theorem Roomy.admitRequest {blocks : Finset BlockHash} {n : Node K} (hn : n.Roomy blocks)
    {call : AdmitCall K} (hcall : ∀ h ∈ call.reqBlocks, h ∈ blocks) :
    n.admitRequest call = some (n.insertBlocks call) ∧ (n.insertBlocks call).Roomy blocks := by
  have hresident : ∀ h ∈ (n.insertBlocks call).cache, h ∈ blocks := by
    intro h hh
    rcases mem_insertBlocks.mp hh with hnew | hold
    · exact hcall h hnew
    · exact hn.resident h hold
  have hlen : (n.insertBlocks call).cache.len ≤ blocks.card := by
    rw [OrderedDict.len, ← List.toFinset_card_of_nodup (n.insertBlocks call).cache.keys_nodup]
    exact Finset.card_le_card fun h hh => hresident h (List.mem_toFinset.mp hh)
  refine ⟨admitRequest_of_fits ?_, ?_, hresident, ?_⟩
  · exact (Int.ofNat_le.mpr hlen).trans hn.room
  · rw [insertBlocks_frame]
    exact hn.room
  · rw [insertBlocks_frame]
    exact hn.pinnedEvictions

omit [Scalar K] in
private theorem keys_foldl_stamp (prio : Option ℤ) (expiry : WithTop K)
    (reqBlocks : List BlockHash) (n : Node K) :
    (reqBlocks.foldl (stamp prio expiry) n).cache.keys =
      reqBlocks.foldl (fun keys h => keys.erase h ++ [h]) n.cache.keys := by
  induction reqBlocks generalizing n with
  | nil => rfl
  | cons h rest ih => rw [List.foldl_cons, List.foldl_cons, ih, keys_stamp]

/-- What is seen of a node after the insertion depends on what was seen before
and on the request, not on its directive. -/
theorem observed_insertBlocks {n n' : Node K} (hn : n.observed = n'.observed)
    {call call' : AdmitCall K} (hnow : call.now = call'.now)
    (hservice : call.serviceTime = call'.serviceTime)
    (hblocks : call.reqBlocks = call'.reqBlocks) :
    (n.insertBlocks call).observed = (n'.insertBlocks call').observed := by
  obtain ⟨-, hbusy, hcache⟩ := observed_eq_iff.mp hn
  have hkeys : (n.insertBlocks call).cache = (n'.insertBlocks call').cache := by
    apply OrderedDict.ext_keys
    unfold insertBlocks
    rw [keys_foldl_stamp, keys_foldl_stamp, hcache, hblocks]
  have hframe : ∀ (m : Node K) (c : AdmitCall K), (m.insertBlocks c).observed =
      { m.observed with
        busyUntil := max c.now m.busyUntil + c.serviceTime
        cache := (m.insertBlocks c).cache } := by
    intro m c
    conv_lhs => rw [insertBlocks_frame]
    rfl
  rw [hframe, hframe, hn, hkeys, hnow, hservice, hbusy]

end Node

section Congr

variable {nodes nodes' : List (Node K)} (h : nodes.map Node.observed = nodes'.map Node.observed)

include h

theorem bestPlacement_congr (reqBlocks : List BlockHash) (now : K) (params : CostParams K)
    (allowTransfer : Bool) :
    bestPlacement reqBlocks nodes now params allowTransfer =
      bestPlacement reqBlocks nodes' now params allowTransfer := by
  rw [← bestPlacement_observed, h, bestPlacement_observed]

/-- Nodes that look the same still do when their queues are set aside. -/
theorem isCoupled_congr (reqBlocks : List BlockHash) (now : K) (params : CostParams K)
    (loaded : Placement K) :
    (isCoupled reqBlocks nodes now params loaded).1 =
      (isCoupled reqBlocks nodes' now params loaded).1 := by
  have hidle : ∀ nodes : List (Node K),
      (nodes.map fun n => { n with busyUntil := now }).map Node.observed =
        (nodes.map Node.observed).map fun n => { n with busyUntil := now } := by
    intro nodes
    rw [List.map_map, List.map_map]
    rfl
  have hnodes : (nodes.map fun n => { n with busyUntil := now }).map Node.observed =
      (nodes'.map fun n => { n with busyUntil := now }).map Node.observed := by
    rw [hidle, hidle, h]
  unfold isCoupled
  dsimp only
  rw [bestPlacement_congr hnodes]

theorem hotNode_congr (reqBlocks : List BlockHash) :
    Related (fun n m : Node K => n.observed = m.observed) (hotNode reqBlocks nodes)
      (hotNode reqBlocks nodes') := by
  apply Related.of_map_eq
  rw [← hotNode_observed, h, hotNode_observed]

end Congr

theorem predict_congr {node node' hot hot' : Node K} (hnode : node.observed = node'.observed)
    (hhot : hot.observed = hot'.observed) (reqBlocks : List BlockHash) (now : K)
    (params : CostParams K) (transfer : Bool) :
    predict reqBlocks node now params hot transfer =
      predict reqBlocks node' now params hot' transfer := by
  rw [← predict_observed, hnode, hhot, predict_observed]

/-- Two policies that answer alike: related memories stay related, and the
placements name the same node and transfer. -/
structure Policy.SameChoices (first second : Policy K) (rel : first.State → second.State → Prop) :
    Prop where
  start : rel first.start second.start
  call : ∀ {s t} {req : RequestView} {nodes nodes' : List (Node K)} {now : K}
    {params : CostParams K}, rel s t → nodes.map Node.observed = nodes'.map Node.observed →
      Related (fun a b => rel a.1 b.1 ∧ a.2.nodeId = b.2.nodeId ∧ a.2.transfer = b.2.transfer)
        (first.call s req nodes now params) (second.call t req nodes' now params)

/-- A policy that reads the observed part of the nodes answers like itself. -/
theorem Policy.ReadsObserved.sameChoices {policy : Policy K} (h : policy.ReadsObserved) :
    policy.SameChoices policy Eq := by
  refine ⟨rfl, ?_⟩
  rintro s _ req nodes nodes' now params rfl hnodes
  rw [← h s req nodes, hnodes, h]
  cases policy.call s req nodes' now params with
  | error e => exact .error e
  | ok answer => exact .ok ⟨rfl, rfl, rfl⟩

/-- `class_aware` and the reliability policy pick the same placements; the
second only attaches directives to them. -/
theorem classAware_sameChoices (c : ClassAwareReliability K) :
    (Policy.stateless (classAware : RoutingFunction K)).SameChoices c.policy
      fun _ _ => True := by
  refine ⟨trivial, ?_⟩
  intro _ c' req nodes nodes' now params _ hnodes
  have hroute : classAware req nodes now params = classAware req nodes' now params := by
    rw [← classAware_observed, hnodes, classAware_observed]
  have hattach : ∀ (c : ClassAwareReliability K) (place : Placement K),
      (c.attach req now place).nodeId = place.nodeId ∧
        (c.attach req now place).transfer = place.transfer := by
    intro c place
    unfold ClassAwareReliability.attach
    cases classify req with
    | tool => cases c.leaseWindow req.lastToolName <;> exact ⟨rfl, rfl⟩
    | rag => exact ⟨rfl, rfl⟩
    | oneshot => exact ⟨rfl, rfl⟩
  simp only [ClassAwareReliability.call, hroute]
  cases classAware req nodes' now params with
  | error e => exact .error e
  | ok place =>
    obtain ⟨hid, htransfer⟩ := hattach (c'.learn req now) place
    exact .ok ⟨trivial, hid.symm, htransfer.symm⟩

section Turns

variable {first second : Policy K} {rel : first.State → second.State → Prop}

/-- Two turns of the engine that differ in directives only. -/
structure TurnsAlike (rel : first.State → second.State → Prop) (t : Turn K first.State)
    (u : Turn K second.State) : Prop where
  coupled : t.coupled = u.coupled
  oracle : t.oracle = u.oracle
  policy : rel t.policy u.policy
  nodeId : t.chosen.nodeId = u.chosen.nodeId
  transfer : t.chosen.transfer = u.chosen.transfer
  hot : t.hot.observed = u.hot.observed
  node : t.node.observed = u.node.observed
  realized : t.realized = u.realized

theorem TurnsAlike.resident {t : Turn K first.State} {u : Turn K second.State}
    (h : TurnsAlike rel t u) (req : TurnRequest K) : t.resident req = u.resident req := by
  unfold Turn.resident residentBlocks
  rw [Node.matched_congr h.node, Node.matched_congr h.hot, h.transfer]

theorem TurnsAlike.service {t : Turn K first.State} {u : Turn K second.State}
    (h : TurnsAlike rel t u) (params : CostParams K) (req : TurnRequest K) :
    t.service params req = u.service params req := by
  unfold Turn.service
  rw [h.resident]

theorem TurnsAlike.recordTurn {t : Turn K first.State} {u : Turn K second.State}
    (h : TurnsAlike rel t u) (result : SimResult K) (params : CostParams K)
    (req : TurnRequest K) :
    result.recordTurn params req t = result.recordTurn params req u := by
  unfold SimResult.recordTurn Turn.regret Turn.e2eLatency
  rw [h.coupled, h.realized, h.oracle, h.resident]

/-- States of two runs that differ in what the caches have marked only. The nodes have
room for every block of the stream, so nothing is ever evicted. -/
structure StatesAlike (blocks : Finset BlockHash) (rel : first.State → second.State → Prop)
    (s : SimState K first.State) (t : SimState K second.State) : Prop where
  idx : s.idx = t.idx
  nodes : s.nodes.map Node.observed = t.nodes.map Node.observed
  policy : rel s.policy t.policy
  result : s.result = t.result
  lastSeen : s.lastSeen = t.lastSeen
  roomy : ∀ n ∈ s.nodes, n.Roomy blocks
  roomy' : ∀ n ∈ t.nodes, n.Roomy blocks

variable (hsame : first.SameChoices second rel)

include hsame

/-- Routing reads the observed part of the nodes, so it decides the same. -/
theorem routeTurn_alike {blocks : Finset BlockHash} {s : SimState K first.State}
    {t : SimState K second.State} (h : StatesAlike blocks rel s t) (params : CostParams K)
    (req : TurnRequest K) :
    Related (TurnsAlike rel) (routeTurn first params s req) (routeTurn second params t req) := by
  unfold routeTurn
  simp only [isCoupled_nodes]
  rw [bestPlacement_congr h.nodes]
  apply (Related.self _).bind
  rintro oracle _ ⟨rfl, -⟩
  rw [isCoupled_congr h.nodes]
  apply (Related.self _).bind
  rintro coupled _ ⟨rfl, -⟩
  apply (hsame.call h.policy h.nodes).bind
  rintro ⟨state, chosen⟩ ⟨state', chosen'⟩ ⟨hpolicy, hid, htransfer⟩
  apply (hotNode_congr h.nodes req.blockHashes).bind
  intro hot hot' hobserved
  dsimp only at hid htransfer ⊢
  have hnode : s.nodes[chosen.nodeId]?.map Node.observed =
      t.nodes[chosen'.nodeId]?.map Node.observed := by
    rw [← List.getElem?_map, ← List.getElem?_map, h.nodes, hid]
  cases hs : s.nodes[chosen.nodeId]? with
  | none =>
    rw [hs] at hnode
    rw [Option.map_eq_none_iff.mp hnode.symm]
    exact .error _
  | some node =>
    rw [hs] at hnode
    obtain ⟨node', ht, hsee⟩ := Option.map_eq_some_iff.mp hnode.symm
    rw [ht]
    dsimp only
    rw [predict_congr hsee.symm hobserved, htransfer]
    apply (Related.self _).bind
    rintro realized _ ⟨rfl, -⟩
    exact .ok ⟨rfl, rfl, hpolicy, hid, htransfer, hobserved, hsee.symm, rfl⟩

/-- One turn keeps the two runs alike, whatever directives it attaches. -/
theorem simStep_alike {blocks : Finset BlockHash} {s : SimState K first.State}
    {t : SimState K second.State} (h : StatesAlike blocks rel s t) (params : CostParams K)
    {req : TurnRequest K} (hreq : ∀ b ∈ req.blockHashes, b ∈ blocks) :
    Related (StatesAlike blocks rel) (simStep first params s req)
      (simStep second params t req) := by
  unfold simStep
  dsimp only
  apply (routeTurn_alike hsame h params req).outcomes.bind
  rintro turn turn' ⟨halike, hs, ht⟩
  have hrouted := routeTurn_eq_ok hs
  have hrouted' := routeTurn_eq_ok ht
  have hblocks : ∀ b ∈ (turn.admitCall params s.idx req).reqBlocks, b ∈ blocks := hreq
  have hblocks' : ∀ b ∈ (turn'.admitCall params t.idx req).reqBlocks, b ∈ blocks := hreq
  obtain ⟨hserved, hroomy⟩ :=
    (h.roomy _ (List.mem_of_getElem? hrouted.node)).admitRequest hblocks
  obtain ⟨hserved', hroomy'⟩ :=
    (h.roomy' _ (List.mem_of_getElem? hrouted'.node)).admitRequest hblocks'
  rw [hserved, hserved']
  have hobserved : (turn.node.insertBlocks (turn.admitCall params s.idx req)).observed =
      (turn'.node.insertBlocks (turn'.admitCall params t.idx req)).observed :=
    Node.observed_insertBlocks halike.node rfl (halike.service params req) rfl
  apply Related.ok
  constructor
  · exact congrArg (· + 1) h.idx
  · change (turn.nodes.set _ _).map _ = (turn'.nodes.set _ _).map _
    rw [List.map_set, List.map_set, hrouted.nodes, hrouted'.nodes, h.nodes, halike.nodeId,
      hobserved]
  · exact halike.policy
  · change (s.result.recordGap _ _).recordTurn params req turn = _
    rw [halike.recordTurn, h.result, h.lastSeen]
  · change (observeGap s.lastSeen _ _ _).2 = _
    rw [h.lastSeen]
  · rw [hrouted.nodes]
    exact forall_mem_set h.roomy _ hroomy
  · rw [hrouted'.nodes]
    exact forall_mem_set h.roomy' _ hroomy'

/-- Whole runs file the same metrics when every node has room for the blocks of the
stream, by policies that choose alike and under any eviction strategies. -/
theorem runSimulation_alike {requests : List (TurnRequest K)} {cacheBlocks : ℤ}
    (hroom : ((requests.flatMap TurnRequest.blockHashes).toFinset.card : ℤ) ≤ cacheBlocks)
    (numNodes : ℕ) (params : CostParams K) (belady belady' : Bool) :
    runSimulation requests first numNodes cacheBlocks params belady =
      runSimulation requests second numNodes cacheBlocks params belady' := by
  have hfresh : ∀ eviction, ∀ n ∈ (List.range numNodes).map fun i =>
      (Node.init i cacheBlocks eviction : Node K),
      n.Roomy (requests.flatMap TurnRequest.blockHashes).toFinset := by
    intro eviction n hn
    obtain ⟨i, -, rfl⟩ := List.mem_map.mp hn
    exact ⟨hroom, fun h hh => absurd hh (AList.notMem_empty h), rfl⟩
  have hstart : StatesAlike (requests.flatMap TurnRequest.blockHashes).toFinset rel
      (simStart requests first numNodes cacheBlocks belady)
      (simStart requests second numNodes cacheBlocks belady') := by
    refine ⟨rfl, ?_, hsame.start, rfl, rfl, hfresh _, hfresh _⟩
    unfold simStart
    dsimp only
    rw [List.map_map, List.map_map]
    rfl
  have hpinned : ∀ nodes : List (Node K),
      (∀ n ∈ nodes, n.Roomy (requests.flatMap TurnRequest.blockHashes).toFinset) →
        (nodes.map Node.pinnedEvictions).sum = 0 := by
    intro nodes hnodes
    apply List.sum_eq_zero
    intro x hx
    obtain ⟨n, hn, rfl⟩ := List.mem_map.mp hx
    exact (hnodes n hn).pinnedEvictions
  have hstep : ∀ req ∈ requests.take requests.length, ∀ s t,
      StatesAlike (requests.flatMap TurnRequest.blockHashes).toFinset rel s t →
        Related (StatesAlike (requests.flatMap TurnRequest.blockHashes).toFinset rel)
          (simStep first params s req) (simStep second params t req) := by
    intro req hreq s t h
    apply simStep_alike hsame h params
    intro b hb
    rw [List.mem_toFinset, List.mem_flatMap]
    exact ⟨req, List.mem_of_mem_take hreq, hb⟩
  have hrun := related_foldlM hstep hstart
  unfold runSimulation simAfter
  apply hrun.bind_eq
  intro s t h
  rw [hpinned _ h.roomy, hpinned _ h.roomy', h.result]

end Turns

/-- When every node has room for all blocks of the stream, the retention hints of the
reliability policy change no metric, and for every policy that `build_policy` knows
neither does the eviction strategy. The results are compared whole, and a run that
raises does so in the same way on both sides. -/
theorem hints_and_eviction_unobservable (requests : List (TurnRequest K)) (cacheBlocks : ℤ)
    (hroom : ((requests.flatMap TurnRequest.blockHashes).toFinset.card : ℤ) ≤ cacheBlocks)
    (numNodes : ℕ) (params : CostParams K) (retainMargin : K) :
    (∀ belady plain hinted, buildPolicy "class-aware" retainMargin = .ok plain →
      buildPolicy "class-aware-reliability" retainMargin = .ok hinted →
        runSimulation requests plain numNodes cacheBlocks params belady =
          runSimulation requests hinted numNodes cacheBlocks params belady) ∧
    ∀ name policy, buildPolicy name retainMargin = .ok policy →
      runSimulation requests policy numNodes cacheBlocks params false =
        runSimulation requests policy numNodes cacheBlocks params true := by
  constructor
  · rintro belady _ _ ⟨⟩ ⟨⟩
    exact runSimulation_alike (classAware_sameChoices _) hroom numNodes params belady belady
  · intro name policy hpolicy
    exact runSimulation_alike (buildPolicy_readsObserved hpolicy).sameChoices hroom numNodes
      params false true

/-- A one-shot, which the reliability policy marks for early eviction, and a
tool turn on the same prefix. -/
def sharedPrefix : List (TurnRequest ℚ) :=
  [{ arrival := 0, tokens := [], blockHashes := [3, 4], genTokens := 10,
     messages := [⟨"user", "hi"⟩], kind := .oneshot },
   { arrival := 1, tokens := [], blockHashes := [3, 5], genTokens := 10,
     messages := [⟨"user", "hi"⟩, ⟨"tool", "ok"⟩], conversationId := some 0 }]

/-- Its three blocks fit in three slots. -/
theorem hints_and_eviction_unobservable_shared :
    runSimulation sharedPrefix (.stateless classAware) 2 3 {} =
        runSimulation sharedPrefix (ClassAwareReliability.policy {}) 2 3 {} ∧
      runSimulation sharedPrefix roundRobin 2 3 {} false =
        runSimulation sharedPrefix roundRobin 2 3 {} true := by
  have hsame := hints_and_eviction_unobservable sharedPrefix 3 (by decide) 2 {} defaultRetainMargin
  exact ⟨hsame.1 false _ _ rfl rfl, hsame.2 "round-robin" _ rfl⟩

end SchedLm.Sim
