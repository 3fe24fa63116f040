import SchedLm.Sim.Symmetry

/-!
Whole runs under a symmetry. Every policy answers a renamed and time-shifted
request on correspondingly changed nodes with the same placement, so the engine
keeps the two runs in step and files the same metrics.
-/

namespace SchedLm.Sim

open Runs

variable {K : Type} [Scalar K]

namespace Symmetry

variable (σ : Symmetry K)

/-- What the router may see of one request under the symmetry. -/
structure SameView (req req' : RequestView) : Prop where
  blocks : List.Forall₂ σ.block req.blocks req'.blocks
  classify : classify req' = classify req
  conversationId : Option.Rel σ.conversation req.conversationId req'.conversationId
  lastToolName : req'.lastToolName = req.lastToolName

structure SamePlacement (p p' : Placement K) : Prop where
  nodeId : p'.nodeId = p.nodeId
  transfer : p'.transfer = p.transfer
  retainUntil : σ.Until p.retainUntil p'.retainUntil
  priority : p'.priority = p.priority

abbrev SameLastSeen (lastSeen lastSeen' : OrderedDict ℤ K) : Prop :=
  OrderedDict.Alike σ.conversation (fun t t' => t' = t + σ.shift) lastSeen lastSeen'

/-- A policy that answers one request under the symmetry with one placement,
and whose memories stay related. -/
structure SamePolicy (policy : Policy K) (memory : policy.State → policy.State → Prop) :
    Prop where
  start : memory policy.start policy.start
  call : ∀ {s s' : policy.State} {req req' : RequestView} {nodes nodes' : List (Node K)}
    {now now' : K} {params : CostParams K}, memory s s' → σ.SameView req req' →
      List.Forall₂ σ.SameNode nodes nodes' → σ.Clock now now' →
        Related (fun a b => memory a.1 b.1 ∧ σ.SamePlacement a.2 b.2)
          (policy.call s req nodes now params) (policy.call s' req' nodes' now' params)

variable {σ}

theorem samePlacement_of_noDirective {p : Placement K} (h : p.NoDirective) :
    σ.SamePlacement p p :=
  ⟨rfl, rfl, Or.inr ⟨h.retainUntil, h.retainUntil⟩, rfl⟩

omit [Scalar K] in
theorem SameView.alike {req req' : RequestView} (h : σ.SameView req req') : req.Alike req' :=
  ⟨h.blocks.length_eq.symm, h.classify⟩

theorem exists_couples {nodes nodes' : List (Node K)}
    (hnodes : List.Forall₂ σ.SameNode nodes nodes') {now now' : K} (hnow : σ.Clock now now')
    {blocks blocks' : List BlockHash} (hblocks : List.Forall₂ σ.block blocks blocks') :
    ∃ couples : List (Couple (Node.Matching blocks blocks' now now')),
      couples.map Couple.left = nodes ∧ couples.map Couple.right = nodes' :=
  Couple.exists_of_forall₂ (hnodes.imp fun _ _ hn => hn.alike hnow hblocks)

section Policies

/-- A routing function that sees the nodes through their answers and attaches no
directive. -/
theorem samePolicy_stateless {route : RoutingFunction K}
    (halike : ∀ {req req' : RequestView} {now now' : K}, req.Alike req' →
      ∀ (couples : List (Couple (Node.Matching req.blocks req'.blocks now now')))
        (params : CostParams K), route req' (couples.map Couple.right) now' params =
          route req (couples.map Couple.left) now params)
    (hplain : ∀ {req : RequestView} {nodes : List (Node K)} {now : K} {params : CostParams K}
      {p : Placement K}, route req nodes now params = .ok p → p.NoDirective) :
    σ.SamePolicy (.stateless route) fun _ _ => True := by
  refine ⟨trivial, ?_⟩
  intro _ _ req req' nodes nodes' now now' params _ hview hnodes hnow
  obtain ⟨couples, rfl, rfl⟩ := exists_couples hnodes hnow hview.blocks
  dsimp only
  rw [halike hview.alike couples params]
  apply (Related.self _).bind
  rintro place _ ⟨rfl, hplace⟩
  exact .ok ⟨trivial, samePlacement_of_noDirective (hplain hplace)⟩

theorem cacheLocal_noDirective {req : RequestView} {nodes : List (Node K)} {now : K}
    {params : CostParams K} {p : Placement K} (h : cacheLocal req nodes now params = .ok p) :
    p.NoDirective := by
  unfold cacheLocal at h
  rw [bind_eq_ok] at h
  obtain ⟨hot, -, h⟩ := h
  exact predict_noDirective h

theorem bestPlacement_noDirective {reqBlocks : List BlockHash} {nodes : List (Node K)} {now : K}
    {params : CostParams K} {allowTransfer : Bool} {p : Placement K}
    (h : bestPlacement reqBlocks nodes now params allowTransfer = .ok p) : p.NoDirective := by
  obtain ⟨hot, -, ⟨node, -, transfer, -, hp⟩, -⟩ := bestPlacement_eq_ok h
  exact predict_noDirective hp

theorem roundRobin_noDirective {next : ℕ} {req : RequestView} {nodes : List (Node K)} {now : K}
    {params : CostParams K} {answer : ℕ × Placement K}
    (h : roundRobin.call next req nodes now params = .ok answer) : answer.2.NoDirective := by
  simp only [roundRobin] at h
  split_ifs at h
  · cases h
  · cases hnode : nodes[next % nodes.length]? with
    | none =>
      rw [hnode] at h
      cases h
    | some node =>
      simp only [hnode, bind_eq_ok] at h
      obtain ⟨hot, -, place, hplace, h⟩ := h
      cases h
      exact predict_noDirective hplace

theorem samePolicy_roundRobin : σ.SamePolicy (roundRobin : Policy K) Eq := by
  refine ⟨rfl, ?_⟩
  rintro next _ req req' nodes nodes' now now' params rfl hview hnodes hnow
  obtain ⟨couples, rfl, rfl⟩ := exists_couples hnodes hnow hview.blocks
  rw [roundRobin_alike hview.alike couples params next]
  apply (Related.self _).imp
  rintro answer _ ⟨rfl, hanswer⟩
  exact ⟨rfl, samePlacement_of_noDirective (roundRobin_noDirective hanswer)⟩

structure SameIndex (σ : Symmetry K) (index index' : RouterIndex) : Prop where
  capacity : index'.capacity = index.capacity
  blocks : List.Forall₂ (OrderedDict.Alike σ.block Eq) index.blocks index'.blocks

omit [Scalar K] in
theorem touchAll_same {held held' : OrderedDict BlockHash Unit}
    (hheld : OrderedDict.Alike σ.block Eq held held') {blocks blocks' : List BlockHash}
    (hblocks : List.Forall₂ σ.block blocks blocks') :
    OrderedDict.Alike σ.block Eq (RouterIndex.touchAll held blocks)
      (RouterIndex.touchAll held' blocks') := by
  refine List.rel_foldl (R := σ.block) (P := OrderedDict.Alike σ.block Eq) ?_ hheld hblocks
  intro d d' hd h h' hname
  dsimp only
  rw [OrderedDict.setItem_erase, OrderedDict.setItem_erase]
  exact hd.pushEnd σ.block_biUnique hname rfl

omit [Scalar K] in
theorem sameIndex_alike {req req' : RequestView} (hview : σ.SameView req req') :
    RouterIndex.Alike req req' (SameIndex σ) := by
  constructor
  · intro numNodes capacity
    refine ⟨rfl, List.forall₂_same.mpr ?_⟩
    intro held hheld
    rw [List.eq_of_mem_replicate hheld]
    exact .empty
  · rintro index index' ⟨-, hblocks⟩ nodeId
    obtain ⟨couples, hleft, hright⟩ := Couple.exists_of_forall₂ hblocks
    unfold RouterIndex.matched
    rw [← hleft, ← hright, List.getElem?_map, List.getElem?_map]
    cases couples[nodeId]? with
    | none => rfl
    | some held =>
      refine congrArg Except.ok (matchedPrefix_renamed hview.blocks ?_)
      intro h h' hname
      rw [decide_eq_decide, held.related.mem_iff σ.block_biUnique hname]
  · rintro index index' ⟨hcapacity, hblocks⟩ nodeId
    obtain ⟨couples, hleft, hright⟩ := Couple.exists_of_forall₂ hblocks
    unfold RouterIndex.record
    rw [← hleft, ← hright, List.getElem?_map, List.getElem?_map, hcapacity]
    cases couples[nodeId]? with
    | none => exact .error _
    | some held =>
      let held' : Couple (OrderedDict.Alike σ.block (Eq : Unit → Unit → Prop)) :=
        ⟨_, _, (touchAll_same held.related hview.blocks).popWhileOver index.capacity⟩
      have hset := Couple.forall₂ (couples.set nodeId held')
      rw [List.map_set, List.map_set] at hset
      exact .ok ⟨rfl, hset⟩

theorem samePolicy_weighted (scorers : WeightedScorers K) :
    σ.SamePolicy scorers.policy (Option.Rel (SameIndex σ)) := by
  refine ⟨.none, ?_⟩
  intro index index' req req' nodes nodes' now now' params hindex hview hnodes hnow
  obtain ⟨couples, rfl, rfl⟩ := exists_couples hnodes hnow hview.blocks
  have hcall := scorers.call_alike hview.alike couples params (sameIndex_alike hview) hindex
  refine hcall.imp ?_
  rintro ⟨next, place⟩ ⟨next', place'⟩ ⟨hnext, heq, hplain⟩
  obtain rfl : place' = place := heq
  exact ⟨hnext, samePlacement_of_noDirective hplain⟩

/-- What the reliability policy has learned, with the clock moved along. -/
structure SameMemory (σ : Symmetry K) (c c' : ClassAwareReliability K) : Prop where
  index : c'.index = c.index
  shortGap : c'.shortGap = c.shortGap
  confThreshold : c'.confThreshold = c.confThreshold
  retainMargin : c'.retainMargin = c.retainMargin
  lastSeen : σ.SameLastSeen c.lastSeen c'.lastSeen

/-- The gap since the last turn is the same, and is noted at the moved time. -/
theorem observeGap_same {lastSeen lastSeen' : OrderedDict ℤ K}
    (hseen : σ.SameLastSeen lastSeen lastSeen') {conversation conversation' : Option ℤ}
    (hconversation : Option.Rel σ.conversation conversation conversation') (tool : Option String)
    {now now' : K} (hnow : σ.Clock now now') :
    (observeGap lastSeen' conversation' tool now').1 =
        (observeGap lastSeen conversation tool now).1 ∧
      σ.SameLastSeen (observeGap lastSeen conversation tool now).2
        (observeGap lastSeen' conversation' tool now').2 := by
  cases hconversation with
  | none => exact ⟨rfl, hseen⟩
  | @some id id' hname =>
    have hprev := hseen.lookup σ.conversation_biUnique hname
    have hnext : σ.SameLastSeen
        (OrderedDict.popWhileOver (OrderedDict.moveToEnd (OrderedDict.setItem lastSeen id now) id)
          gapTrackerCapacity)
        (OrderedDict.popWhileOver
          (OrderedDict.moveToEnd (OrderedDict.setItem lastSeen' id' now') id')
          gapTrackerCapacity) := by
      rw [OrderedDict.moveToEnd_setItem, OrderedDict.moveToEnd_setItem]
      exact (hseen.pushEnd σ.conversation_biUnique hname hnow.shift).popWhileOver _
    unfold observeGap
    dsimp only
    generalize lastSeen.lookup id = prev at hprev ⊢
    generalize lastSeen'.lookup id' = prev' at hprev ⊢
    cases hprev with
    | none => exact ⟨rfl, hnext⟩
    | some hmoved =>
      cases tool with
      | none => exact ⟨rfl, hnext⟩
      | some name =>
        dsimp only
        refine ⟨?_, hnext⟩
        rw [hmoved, hnow.shift, add_sub_add_right_eq_sub]

theorem SameMemory.learn {c c' : ClassAwareReliability K} (hc : SameMemory σ c c')
    {req req' : RequestView} (hview : σ.SameView req req') {now now' : K}
    (hnow : σ.Clock now now') : SameMemory σ (c.learn req now) (c'.learn req' now') := by
  obtain ⟨hgap, hseen⟩ :=
    observeGap_same hc.lastSeen hview.conversationId req.lastToolName hnow
  rw [ClassAwareReliability.learn_eq, ClassAwareReliability.learn_eq, hview.lastToolName, hgap,
    hc.index]
  exact { hc with index := rfl, lastSeen := hseen }

theorem SameMemory.leaseWindow {c c' : ClassAwareReliability K} (hc : SameMemory σ c c')
    (tool : Option String) : c'.leaseWindow tool = c.leaseWindow tool := by
  unfold ClassAwareReliability.leaseWindow
  rw [hc.index, hc.confThreshold, hc.shortGap, hc.retainMargin]

theorem SameMemory.attach {c c' : ClassAwareReliability K} (hc : SameMemory σ c c')
    {req req' : RequestView} (hview : σ.SameView req req') {now now' : K}
    (hnow : σ.Clock now now') {place : Placement K} (hplain : place.NoDirective) :
    σ.SamePlacement (c.attach req now place) (c'.attach req' now' place) := by
  have hsame := samePlacement_of_noDirective (σ := σ) hplain
  unfold ClassAwareReliability.attach
  rw [hview.classify, hview.lastToolName, hc.leaseWindow]
  cases classify req with
  | oneshot => exact { hsame with priority := rfl }
  | rag => exact hsame
  | tool =>
    cases c.leaseWindow req.lastToolName with
    | none => exact hsame
    | some window =>
      refine { hsame with retainUntil := Or.inl ?_, priority := rfl }
      dsimp only
      rw [hnow.shift, add_right_comm, WithTop.coe_add (now + window)]

theorem samePolicy_reliability {c : ClassAwareReliability K} (hfresh : c.lastSeen = ∅) :
    σ.SamePolicy c.policy (SameMemory σ) := by
  refine ⟨⟨rfl, rfl, rfl, rfl, ?_⟩, ?_⟩
  · rw [SameLastSeen, hfresh]
    exact .empty
  · intro c c' req req' nodes nodes' now now' params hc hview hnodes hnow
    obtain ⟨couples, rfl, rfl⟩ := exists_couples hnodes hnow hview.blocks
    have hlearned := hc.learn hview hnow
    dsimp only [ClassAwareReliability.policy, ClassAwareReliability.call]
    rw [classAware_alike hview.alike couples params]
    apply (Related.self _).bind
    rintro place _ ⟨rfl, hplace⟩
    exact .ok ⟨hlearned, hlearned.attach hview hnow (classAware_noDirective hplace)⟩

/-- Every policy that `build_policy` knows respects every symmetry: it answers the same
request under new names with the same placement, its end moved along. -/
theorem buildPolicy_samePolicy (σ : Symmetry K) {name : String} {retainMargin : K}
    {policy : Policy K} (h : buildPolicy name retainMargin = .ok policy) :
    ∃ memory, σ.SamePolicy policy memory := by
  unfold buildPolicy at h
  split at h
  · cases h
    exact ⟨_, samePolicy_roundRobin⟩
  · cases h
    exact ⟨_, samePolicy_stateless cacheLocal_alike cacheLocal_noDirective⟩
  · cases h
    exact ⟨_, samePolicy_stateless transferAware_alike transferAware_noDirective⟩
  · cases h
    exact ⟨_, samePolicy_weighted _⟩
  · cases h
    exact ⟨_, samePolicy_weighted _⟩
  · cases h
    exact ⟨_, samePolicy_stateless classAware_alike classAware_noDirective⟩
  · cases h
    exact ⟨_, samePolicy_reliability rfl⟩
  · cases h
    exact ⟨_, samePolicy_stateless oracle_alike bestPlacement_noDirective⟩
  · cases h
    exact ⟨_, samePolicy_stateless oracle_alike bestPlacement_noDirective⟩
  · cases h

end Policies

section Engine

variable {policy : Policy K} {memory : policy.State → policy.State → Prop}

structure SameTurn (σ : Symmetry K) (memory : policy.State → policy.State → Prop)
    (blocks blocks' : List BlockHash) (t t' : Turn K policy.State) : Prop where
  oracle : t'.oracle = t.oracle
  coupled : t'.coupled = t.coupled
  policy : memory t.policy t'.policy
  chosen : σ.SamePlacement t.chosen t'.chosen
  hot : t'.hot.matched blocks' = t.hot.matched blocks
  node : σ.SameNode t.node t'.node
  found : t'.node.matched blocks' = t.node.matched blocks
  realized : t'.realized = t.realized

variable {req req' : TurnRequest K} {t t' : Turn K policy.State}

theorem SameTurn.resident
    (h : SameTurn σ memory req.blockHashes req'.blockHashes t t') :
    t'.resident req' = t.resident req := by
  unfold Turn.resident residentBlocks
  rw [h.found, h.hot, h.chosen.transfer]

theorem SameTurn.service (h : SameTurn σ memory req.blockHashes req'.blockHashes t t')
    (hreq : σ.SameRequest req req') (params : CostParams K) :
    t'.service params req' = t.service params req := by
  unfold Turn.service
  rw [h.resident, hreq.blockHashes.length_eq, hreq.genTokens]

theorem SameTurn.recordTurn (h : SameTurn σ memory req.blockHashes req'.blockHashes t t')
    (hreq : σ.SameRequest req req') (params : CostParams K) (result : SimResult K) :
    result.recordTurn params req' t' = result.recordTurn params req t := by
  unfold SimResult.recordTurn Turn.regret Turn.e2eLatency
  rw [h.coupled, h.realized, h.oracle, h.resident, hreq.genTokens, hreq.kind,
    hreq.blockHashes.length_eq]

theorem SameTurn.admitCall (h : SameTurn σ memory req.blockHashes req'.blockHashes t t')
    (hreq : σ.SameRequest req req') (params : CostParams K) (idx : ℕ) :
    σ.SameCall (t.admitCall params idx req) (t'.admitCall params idx req') where
  now := hreq.arrival
  serviceTime := h.service hreq params
  reqBlocks := hreq.blockHashes
  retainUntil := h.chosen.retainUntil
  atIndex := rfl
  priority := h.chosen.priority

/-- The two runs between two requests. All metrics are equal; nodes, memory and the
engine's last-seen table correspond under the symmetry. -/
structure SameState (σ : Symmetry K) (memory : policy.State → policy.State → Prop)
    (s s' : SimState K policy.State) : Prop where
  idx : s'.idx = s.idx
  nodes : List.Forall₂ σ.SameNode s.nodes s'.nodes
  policy : memory s.policy s'.policy
  result : s'.result = s.result
  lastSeen : σ.SameLastSeen s.lastSeen s'.lastSeen

theorem SameRequest.view (hreq : σ.SameRequest req req') :
    σ.SameView (requestView req) (requestView req') where
  blocks := hreq.blockHashes
  classify := by
    unfold classify requestView
    rw [hreq.messages]
  conversationId := hreq.conversationId
  lastToolName := hreq.toolName

variable (hpolicy : σ.SamePolicy policy memory) {s s' : SimState K policy.State}
  (hs : SameState σ memory s s') (hreq : σ.SameRequest req req') (params : CostParams K)

include hpolicy hs hreq

theorem routeTurn_same :
    Related (fun t t' => SameTurn σ memory req.blockHashes req'.blockHashes t t' ∧
        t.nodes = s.nodes ∧ t'.nodes = s'.nodes)
      (routeTurn policy params s req) (routeTurn policy params s' req') := by
  obtain ⟨couples, hleft, hright⟩ := exists_couples hs.nodes hreq.arrival hreq.blockHashes
  obtain ⟨hot, hhot, hhot'⟩ := hotNode_couples couples
  have hlength := hreq.blockHashes.length_eq.symm
  have hbest := bestPlacement_alike hlength couples params true
  have hcoupled := isCoupled_alike hlength couples params
  rw [hleft] at hhot hbest hcoupled
  rw [hright] at hhot' hbest hcoupled
  unfold routeTurn
  simp only [isCoupled_nodes]
  rw [hbest]
  apply (Related.self _).bind
  rintro oracle _ ⟨rfl, -⟩
  rw [hcoupled]
  apply (Related.self _).bind
  rintro coupled _ ⟨rfl, -⟩
  apply (hpolicy.call hs.policy hreq.view hs.nodes hreq.arrival).bind
  rintro ⟨state, chosen⟩ ⟨state', chosen'⟩ ⟨hstate, hchosen⟩
  dsimp only at hstate hchosen ⊢
  rw [hhot, hhot', map_bind, map_bind]
  apply (Related.self hot).bind
  rintro hot _ ⟨rfl, -⟩
  obtain ⟨nodes, hnodes, hnodes'⟩ := Couple.exists_of_forall₂ hs.nodes
  rw [← hnodes, ← hnodes', hchosen.nodeId, List.getElem?_map, List.getElem?_map]
  cases nodes[chosen.nodeId]? with
  | none => exact .error _
  | some node =>
    have hnode := node.related.alike hreq.arrival hreq.blockHashes
    dsimp only [Option.map_some]
    rw [predict_alike hlength hnode hot.related, hchosen.transfer]
    apply (Related.self _).bind
    rintro realized _ ⟨rfl, -⟩
    exact .ok ⟨⟨rfl, rfl, hstate, hchosen, hot.related.matched, node.related, hnode.matched, rfl⟩,
      rfl, rfl⟩

/-- One turn keeps the two runs in step: both raise the same error, or both reach states
that correspond. -/
theorem simStep_same :
    Related (SameState σ memory) (simStep policy params s req) (simStep policy params s' req') := by
  obtain ⟨hgap, hseen⟩ :=
    observeGap_same hs.lastSeen hreq.conversationId req.toolName hreq.arrival
  unfold simStep
  dsimp only
  rw [hreq.toolName, hgap, hs.result, hs.idx]
  apply (routeTurn_same hpolicy hs hreq params).bind
  rintro t t' ⟨ht, hnodes, hnodes'⟩
  have hserved := ht.node.admitRequest (ht.admitCall hreq params s.idx)
  generalize t.node.admitRequest (t.admitCall params s.idx req) = served at hserved ⊢
  generalize t'.node.admitRequest (t'.admitCall params s.idx req') = served' at hserved ⊢
  cases hserved with
  | none => exact .error _
  | @some node node' hnode =>
    obtain ⟨couples, hleft, hright⟩ := Couple.exists_of_forall₂ hs.nodes
    have hset := Couple.forall₂ (couples.set t.chosen.nodeId ⟨node, node', hnode⟩)
    rw [List.map_set, List.map_set, hleft, hright] at hset
    rw [hnodes, hnodes', ht.chosen.nodeId, ht.recordTurn hreq]
    exact .ok ⟨rfl, hset, ht.policy, rfl, hseen⟩

end Engine

section Whole

omit [Scalar K] in
theorem recordUse_same (idx : ℕ) {uses uses' : Dict BlockHash (List ℕ)}
    (huses : OrderedDict.Alike σ.block Eq uses uses') {h h' : BlockHash} (hname : σ.block h h') :
    OrderedDict.Alike σ.block Eq (recordUse idx uses h) (recordUse idx uses' h') := by
  have hlookup : uses'.lookup h' = uses.lookup h := by
    have hrel := huses.lookup σ.block_biUnique hname
    generalize uses.lookup h = found at hrel ⊢
    generalize uses'.lookup h' = found' at hrel ⊢
    cases hrel with
    | none => rfl
    | some heq => rw [heq]
  unfold recordUse
  rw [hlookup]
  exact huses.insert σ.block_biUnique hname rfl

/-- The lookahead tables of the two streams list the same positions, each under the new
name of its block. -/
theorem buildFutureUses_same (couples : List (Couple σ.SameRequest)) :
    OrderedDict.Alike σ.block Eq (buildFutureUses (couples.map Couple.left))
      (buildFutureUses (couples.map Couple.right)) := by
  have hfold : ∀ (entries : List (Couple σ.SameRequest × ℕ)) (uses uses' : Dict BlockHash (List ℕ)),
      OrderedDict.Alike σ.block Eq uses uses' → OrderedDict.Alike σ.block Eq
        (entries.foldl (fun uses e => e.1.left.blockHashes.foldl (recordUse e.2) uses) uses)
        (entries.foldl (fun uses e => e.1.right.blockHashes.foldl (recordUse e.2) uses) uses') := by
    intro entries
    induction entries with
    | nil => exact fun _ _ h => h
    | cons entry rest ih =>
      intro uses uses' h
      exact ih _ _ (List.rel_foldl (R := σ.block) (P := OrderedDict.Alike σ.block Eq)
        (fun _ _ h _ _ hname => recordUse_same entry.2 h hname) h entry.1.related.blockHashes)
  unfold buildFutureUses
  rw [List.zipIdx_map, List.zipIdx_map, List.foldl_map, List.foldl_map]
  exact hfold _ _ _ .empty

variable {policy : Policy K} {memory : policy.State → policy.State → Prop}

theorem simStart_same (hpolicy : σ.SamePolicy policy memory)
    (couples : List (Couple σ.SameRequest)) (numNodes : ℕ) (cacheBlocks : ℤ) (belady : Bool) :
    SameState σ memory (simStart (couples.map Couple.left) policy numNodes cacheBlocks belady)
      (simStart (couples.map Couple.right) policy numNodes cacheBlocks belady) := by
  have heviction : σ.SameEviction
      (if belady then .belady (buildFutureUses (couples.map Couple.left)) else .lru)
      (if belady then .belady (buildFutureUses (couples.map Couple.right)) else .lru) := by
    split_ifs
    · exact .belady (buildFutureUses_same couples)
    · exact .lru
  refine ⟨rfl, ?_, hpolicy.start, rfl, .empty⟩
  unfold simStart
  dsimp only
  rw [List.forall₂_map_left_iff, List.forall₂_map_right_iff, List.forall₂_same]
  intro i _
  exact ⟨rfl, Or.inr ⟨rfl, rfl⟩, .empty, .empty, .empty, rfl, rfl, rfl, heviction⟩

/-- A whole run files the same metrics for both streams, under any policy that respects
the symmetry and either eviction strategy. -/
theorem runSimulation_same (hpolicy : σ.SamePolicy policy memory)
    {requests requests' : List (TurnRequest K)}
    (hrequests : List.Forall₂ σ.SameRequest requests requests') (numNodes : ℕ) (cacheBlocks : ℤ)
    (params : CostParams K) (belady : Bool) :
    runSimulation requests' policy numNodes cacheBlocks params belady =
      runSimulation requests policy numNodes cacheBlocks params belady := by
  obtain ⟨couples, rfl, rfl⟩ := Couple.exists_of_forall₂ hrequests
  have hrun : Related (SameState σ memory)
      (simAfter (couples.map Couple.left) policy numNodes cacheBlocks params belady
        (couples.map Couple.left).length)
      (simAfter (couples.map Couple.right) policy numNodes cacheBlocks params belady
        (couples.map Couple.right).length) := by
    unfold simAfter
    rw [List.take_length, List.take_length, List.foldlM_map, List.foldlM_map]
    exact related_foldlM (fun c _ s s' hs => simStep_same hpolicy hs c.related params)
      (simStart_same hpolicy couples numNodes cacheBlocks belady)
  unfold runSimulation
  symm
  apply hrun.bind_eq
  intro s s' hs
  obtain ⟨nodes, hleft, hright⟩ := Couple.exists_of_forall₂ hs.nodes
  have hpinned : s'.nodes.map Node.pinnedEvictions = s.nodes.map Node.pinnedEvictions := by
    rw [← hleft, ← hright, List.map_map, List.map_map]
    apply List.map_congr_left
    intro c _
    exact c.related.pinnedEvictions
  rw [hs.result, hpinned]

end Whole

end Symmetry

end SchedLm.Sim
