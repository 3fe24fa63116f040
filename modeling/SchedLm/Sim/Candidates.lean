import SchedLm.Library.LeastCost
import SchedLm.Sim.Cost

/-!
The oracle's choice as a least key. A placement costs its node's wait plus what
it would cost on an idle node; the oracle returns exactly the enumerated
placement of least key, and returns at all when every transfer it prices has a
bandwidth to divide by.
-/

namespace SchedLm.Sim

open LeastCost Runs

variable {K : Type} [Scalar K]

namespace CostParams

def transferCost (params : CostParams K) (blocks : ℤ) : K :=
  if blocks ≤ 0 then 0 else blocks * params.blockKvBytes / params.bandwidth + params.linkLatency

def CanPrice (params : CostParams K) (blocks : ℤ) : Prop := 0 < blocks → params.bandwidth ≠ 0

theorem transferTime_eq_ok_iff {params : CostParams K} {blocks : ℤ} {cost : K} :
    params.transferTime blocks = .ok cost ↔
      params.CanPrice blocks ∧ cost = params.transferCost blocks := by
  unfold transferTime CanPrice transferCost
  split_ifs with hfree hzero
  · simp [not_lt.mpr hfree, eq_comm]
  · simp [not_le.mp hfree, hzero]
  · simp [hzero, eq_comm]

/-- Nonnegative parameters and a bandwidth to divide by. -/
structure Valid (params : CostParams K) : Prop where
  blockSize : 0 ≤ params.blockSize
  prefillPerToken : 0 ≤ params.prefillPerToken
  prefillFixed : 0 ≤ params.prefillFixed
  blockKvBytes : 0 ≤ params.blockKvBytes
  bandwidth : 0 < params.bandwidth
  linkLatency : 0 ≤ params.linkLatency
  interToken : 0 ≤ params.interToken

theorem valid_default : ({} : CostParams K).Valid := by
  constructor <;> norm_num [defaultBlockSize]

theorem Valid.canPrice {params : CostParams K} (h : params.Valid) (blocks : ℤ) :
    params.CanPrice blocks := fun _ => h.bandwidth.ne'

end CostParams

def idleTtft (reqBlocks : List BlockHash) (params : CostParams K) (hot node : Node K)
    (transfer : Bool) : K :=
  params.transferCost (movedBlocks reqBlocks node hot transfer) +
    params.prefillTime ((reqBlocks.length : ℤ) -
      (node.matched reqBlocks + movedBlocks reqBlocks node hot transfer))

namespace CostParams

def prefillPerBlock (params : CostParams K) : K := params.blockSize * params.prefillPerToken

def linkPerBlock (params : CostParams K) : K := params.blockKvBytes / params.bandwidth

theorem prefillTime_eq (params : CostParams K) (missing : ℤ) :
    params.prefillTime missing = missing * params.prefillPerBlock + params.prefillFixed := by
  unfold prefillTime prefillPerBlock
  ring

theorem transferCost_of_pos (params : CostParams K) {blocks : ℤ} (h : 0 < blocks) :
    params.transferCost blocks = blocks * params.linkPerBlock + params.linkLatency := by
  unfold transferCost linkPerBlock
  rw [if_neg (not_le.mpr h)]
  ring

theorem transferCost_zero (params : CostParams K) : params.transferCost 0 = 0 :=
  if_pos le_rfl

variable {params : CostParams K}

theorem Valid.prefillPerBlock_nonneg (h : params.Valid) : 0 ≤ params.prefillPerBlock :=
  mul_nonneg (Int.cast_nonneg h.blockSize) h.prefillPerToken

theorem Valid.linkPerBlock_nonneg (h : params.Valid) : 0 ≤ params.linkPerBlock :=
  div_nonneg h.blockKvBytes h.bandwidth.le

end CostParams

section Cost

variable {reqBlocks : List BlockHash} {params : CostParams K} {hot node : Node K}

theorem idleTtft_inPlace :
    idleTtft reqBlocks params hot node false =
      ((reqBlocks.length : K) - node.matched reqBlocks) * params.prefillPerBlock +
        params.prefillFixed := by
  have hmoved : movedBlocks reqBlocks node hot false = 0 := rfl
  rw [idleTtft, hmoved, CostParams.transferCost_zero, CostParams.prefillTime_eq]
  push_cast
  ring

/-- Seeding copies what the hot node has beyond the node, and prefills the rest. -/
theorem idleTtft_seeded (h : node.matched reqBlocks < hot.matched reqBlocks) :
    idleTtft reqBlocks params hot node true =
      ((hot.matched reqBlocks : K) - node.matched reqBlocks) * params.linkPerBlock +
        params.linkLatency + (((reqBlocks.length : K) - hot.matched reqBlocks) *
          params.prefillPerBlock + params.prefillFixed) := by
  have hmoved : movedBlocks reqBlocks node hot true =
      (hot.matched reqBlocks : ℤ) - node.matched reqBlocks := by
    simp only [movedBlocks, if_true]
    omega
  rw [idleTtft, hmoved, CostParams.transferCost_of_pos params (by omega),
    CostParams.prefillTime_eq]
  push_cast
  ring

/-- There is nothing to seed a node with that matches as much as the hot one. -/
theorem idleTtft_seeded_of_le (h : hot.matched reqBlocks ≤ node.matched reqBlocks) :
    idleTtft reqBlocks params hot node true = idleTtft reqBlocks params hot node false := by
  have hmoved : movedBlocks reqBlocks node hot true = movedBlocks reqBlocks node hot false := by
    simp only [movedBlocks, if_true]
    omega
  rw [idleTtft, idleTtft, hmoved]

end Cost

def regimeOf (reqBlocks : List BlockHash) (hot node : Node K) (transfer : Bool) : Regime :=
  if 0 < movedBlocks reqBlocks node hot transfer then .transfer
  else if node.nodeId = hot.nodeId ∧ 0 < node.matched reqBlocks then .wait
  else .recompute

def predicted (reqBlocks : List BlockHash) (node : Node K) (now : K) (params : CostParams K)
    (hot : Node K) (transfer : Bool) : Placement K where
  nodeId := node.nodeId
  transfer := transfer
  regime := regimeOf reqBlocks hot node transfer
  ttft := node.wait now + idleTtft reqBlocks params hot node transfer

theorem predict_eq_ok_iff {reqBlocks : List BlockHash} {node : Node K} {now : K}
    {params : CostParams K} {hot : Node K} {transfer : Bool} {p : Placement K} :
    predict reqBlocks node now params hot transfer = .ok p ↔
      params.CanPrice (movedBlocks reqBlocks node hot transfer) ∧
        p = predicted reqBlocks node now params hot transfer := by
  have hregime : regimeOf reqBlocks hot node transfer =
      if 0 < movedBlocks reqBlocks node hot transfer then Regime.transfer
      else if node.nodeId = hot.nodeId ∧ (0 : ℤ) < node.matched reqBlocks then .wait
      else .recompute := by
    unfold regimeOf
    simp only [Int.natCast_pos]
  unfold predict
  rw [bind_eq_ok]
  constructor
  · rintro ⟨cost, hcost, hp⟩
    obtain ⟨hprice, rfl⟩ := CostParams.transferTime_eq_ok_iff.mp hcost
    refine ⟨hprice, ?_⟩
    cases hp
    rw [predicted, hregime, idleTtft, ← add_assoc]
    rfl
  · rintro ⟨hprice, rfl⟩
    refine ⟨_, CostParams.transferTime_eq_ok_iff.mpr ⟨hprice, rfl⟩, ?_⟩
    rw [predicted, hregime, idleTtft, ← add_assoc]
    rfl

omit [Scalar K] in
theorem hotNode_eq_ok {reqBlocks : List BlockHash} {nodes : List (Node K)} {hot : Node K}
    (h : hotNode reqBlocks nodes = .ok hot) :
    hot ∈ nodes ∧ ∀ n ∈ nodes, hotKey reqBlocks n ≤ hotKey reqBlocks hot := by
  unfold hotNode at h
  cases hargmax : nodes.argmax (hotKey reqBlocks) with
  | none =>
    rw [hargmax] at h
    cases h
  | some n =>
    rw [hargmax] at h
    cases h
    exact ⟨List.argmax_mem hargmax, fun n hn => List.le_of_mem_argmax hn hargmax⟩

omit [Scalar K] in
theorem exists_hotNode (reqBlocks : List BlockHash) {nodes : List (Node K)} (hne : nodes ≠ []) :
    ∃ hot, hotNode reqBlocks nodes = .ok hot := by
  unfold hotNode
  cases hargmax : nodes.argmax (hotKey reqBlocks) with
  | none => exact absurd (List.argmax_eq_none.mp hargmax) hne
  | some n => exact ⟨n, rfl⟩

omit [Scalar K] in
theorem matched_le_hot {reqBlocks : List BlockHash} {nodes : List (Node K)} {hot n : Node K}
    (h : hotNode reqBlocks nodes = .ok hot) (hn : n ∈ nodes) :
    n.matched reqBlocks ≤ hot.matched reqBlocks := by
  have hle := (hotNode_eq_ok h).2 n hn
  rw [hotKey, hotKey, Prod.Lex.toLex_le_toLex] at hle
  rcases hle with hlt | ⟨heq, -⟩
  · exact hlt.le
  · exact heq.le

/-- The placements the oracle compares, as node and transfer flag. -/
def Candidate (nodes : List (Node K)) (allowTransfer : Bool) (hot : Node K)
    (c : Node K × Bool) : Prop :=
  c.1 ∈ nodes ∧ Enumerated allowTransfer hot c.1 c.2

/-- The oracle's result, as the least of the candidates: the pairs of a node and a
transfer choice that it enumerates, all of which can be priced. -/
structure Best (reqBlocks : List BlockHash) (nodes : List (Node K)) (now : K)
    (params : CostParams K) (allowTransfer : Bool) (hot : Node K) (c : Node K × Bool) :
    Prop where
  isHot : hotNode reqBlocks nodes = .ok hot
  canPrice : ∀ d, Candidate nodes allowTransfer hot d →
    params.CanPrice (movedBlocks reqBlocks d.1 hot d.2)
  least : Least (Candidate nodes allowTransfer hot)
    (fun d => (predicted reqBlocks d.1 now params hot d.2).key) c

def DistinctIds (nodes : List (Node K)) : Prop := (nodes.map Node.nodeId).Nodup

omit [Scalar K] in
theorem DistinctIds.eq_of_nodeId_eq {nodes : List (Node K)} (h : DistinctIds nodes)
    {m n : Node K} (hm : m ∈ nodes) (hn : n ∈ nodes) (heq : m.nodeId = n.nodeId) : m = n :=
  List.inj_on_of_nodup_map h hm hn heq

section Oracle

variable {reqBlocks : List BlockHash} {nodes : List (Node K)} {now : K} {params : CostParams K}
  {allowTransfer : Bool} {hot : Node K}

def placementsOn (reqBlocks : List BlockHash) (now : K) (params : CostParams K)
    (allowTransfer : Bool) (hot node : Node K) : List (Placement K) :=
  if allowTransfer ∧ node.nodeId ≠ hot.nodeId then
    [predicted reqBlocks node now params hot false, predicted reqBlocks node now params hot true]
  else [predicted reqBlocks node now params hot false]

theorem mem_placementsOn {node : Node K} {p : Placement K} :
    p ∈ placementsOn reqBlocks now params allowTransfer hot node ↔
      ∃ transfer, Enumerated allowTransfer hot node transfer ∧
        p = predicted reqBlocks node now params hot transfer := by
  unfold placementsOn Enumerated
  split_ifs with hseed <;> simp [hseed]

theorem candidatesOn_eq_ok {node : Node K}
    (h : ∀ transfer, Enumerated allowTransfer hot node transfer →
      params.CanPrice (movedBlocks reqBlocks node hot transfer)) :
    candidatesOn reqBlocks now params allowTransfer hot node =
      .ok (placementsOn reqBlocks now params allowTransfer hot node) := by
  have hpredict : ∀ transfer, Enumerated allowTransfer hot node transfer →
      predict reqBlocks node now params hot transfer =
        .ok (predicted reqBlocks node now params hot transfer) :=
    fun transfer henum => predict_eq_ok_iff.mpr ⟨h transfer henum, rfl⟩
  unfold candidatesOn placementsOn
  rw [hpredict false (Or.inl rfl)]
  split_ifs with hseed
  · rw [hpredict true (Or.inr hseed)]
    rfl
  · rfl

/-- The oracle returns the first least candidate, when they all can be priced. -/
theorem bestPlacement_eq_ok_iff_argmin (hhot : hotNode reqBlocks nodes = .ok hot)
    (hprice : ∀ d, Candidate nodes allowTransfer hot d →
      params.CanPrice (movedBlocks reqBlocks d.1 hot d.2)) {best : Placement K} :
    bestPlacement reqBlocks nodes now params allowTransfer = .ok best ↔
      (nodes.flatMap (placementsOn reqBlocks now params allowTransfer hot)).argmin
        Placement.key = some best := by
  have hcandidates : nodes.mapM (candidatesOn reqBlocks now params allowTransfer hot) =
      .ok (nodes.map (placementsOn reqBlocks now params allowTransfer hot)) := by
    apply mapM_eq_ok
    intro node hnode
    exact candidatesOn_eq_ok fun transfer henum => hprice (node, transfer) ⟨hnode, henum⟩
  unfold bestPlacement
  simp only [bind_eq_ok, hhot, hcandidates, Except.ok.injEq, exists_eq_left', List.flatMap]
  cases (nodes.map (placementsOn reqBlocks now params allowTransfer hot)).flatten.argmin
      Placement.key with
  | none => simp [throw, throwThe, MonadExceptOf.throw]
  | some p => simp [pure, Except.pure]

theorem mem_placements {p : Placement K} :
    p ∈ nodes.flatMap (placementsOn reqBlocks now params allowTransfer hot) ↔
      ∃ d, Candidate nodes allowTransfer hot d ∧
        p = predicted reqBlocks d.1 now params hot d.2 := by
  rw [List.mem_flatMap]
  constructor
  · rintro ⟨node, hnode, hp⟩
    obtain ⟨transfer, henum, rfl⟩ := mem_placementsOn.mp hp
    exact ⟨(node, transfer), ⟨hnode, henum⟩, rfl⟩
  · rintro ⟨⟨node, transfer⟩, ⟨hnode, henum⟩, rfl⟩
    exact ⟨node, hnode, mem_placementsOn.mpr ⟨transfer, henum, rfl⟩⟩

theorem predicted_mem_placements {d : Node K × Bool}
    (hd : Candidate nodes allowTransfer hot d) :
    predicted reqBlocks d.1 now params hot d.2 ∈
      nodes.flatMap (placementsOn reqBlocks now params allowTransfer hot) :=
  mem_placements.mpr ⟨d, hd, rfl⟩

private theorem canPrice_of_returns (hhot : hotNode reqBlocks nodes = .ok hot)
    {best : Placement K}
    (h : bestPlacement reqBlocks nodes now params allowTransfer = .ok best)
    (d : Node K × Bool) (hd : Candidate nodes allowTransfer hot d) :
    params.CanPrice (movedBlocks reqBlocks d.1 hot d.2) := by
  unfold bestPlacement at h
  simp only [bind_eq_ok, hhot, Except.ok.injEq, exists_eq_left'] at h
  obtain ⟨candidates, hcandidates, -⟩ := h
  obtain ⟨own, -, hown⟩ := exists_of_mem_mapM hcandidates hd.1
  unfold candidatesOn at hown
  rw [bind_eq_ok] at hown
  obtain ⟨inPlace, hinPlace, hown⟩ := hown
  rcases hd.2 with hfalse | hseed
  · rw [hfalse]
    exact (predict_eq_ok_iff.mp hinPlace).1
  · rw [if_pos hseed, bind_eq_ok] at hown
    obtain ⟨seeded, hseeded, -⟩ := hown
    cases hflag : d.2 with
    | false => exact (predict_eq_ok_iff.mp hinPlace).1
    | true => exact (predict_eq_ok_iff.mp hseeded).1

theorem exists_best {best : Placement K}
    (h : bestPlacement reqBlocks nodes now params allowTransfer = .ok best) :
    ∃ hot c, Best reqBlocks nodes now params allowTransfer hot c ∧
      best = predicted reqBlocks c.1 now params hot c.2 := by
  obtain ⟨hot, hhot, -⟩ := bestPlacement_eq_ok h
  have hprice := canPrice_of_returns hhot h
  have hleast := least_of_argmin ((bestPlacement_eq_ok_iff_argmin hhot hprice).mp h)
  obtain ⟨c, hc, rfl⟩ := mem_placements.mp hleast.mem
  exact ⟨hot, c, ⟨hhot, hprice, hc, fun d hd => hleast.le _ (predicted_mem_placements hd)⟩, rfl⟩

/-- With distinct ids, the key of a candidate tells which one it is. -/
theorem candidate_eq_of_key_eq (hids : DistinctIds nodes) {c d : Node K × Bool}
    (hc : Candidate nodes allowTransfer hot c) (hd : Candidate nodes allowTransfer hot d)
    {p q : Placement K} (hp : p.nodeId = c.1.nodeId ∧ p.transfer = c.2)
    (hq : q.nodeId = d.1.nodeId ∧ q.transfer = d.2) (hkey : p.key = q.key) : c = d := by
  have hpair : (p.nodeId, p.transfer) = (q.nodeId, q.transfer) := congrArg (fun k => k.2) hkey
  obtain ⟨hid, htransfer⟩ := Prod.mk.inj hpair
  rw [hp.1, hq.1] at hid
  rw [hp.2, hq.2] at htransfer
  exact Prod.ext (hids.eq_of_nodeId_eq hc.1 hd.1 hid) htransfer

/-- With distinct ids, the least candidate is what the oracle returns. -/
theorem Best.returns (hids : DistinctIds nodes) {c : Node K × Bool}
    (h : Best reqBlocks nodes now params allowTransfer hot c) :
    bestPlacement reqBlocks nodes now params allowTransfer =
      .ok (predicted reqBlocks c.1 now params hot c.2) := by
  rw [bestPlacement_eq_ok_iff_argmin h.isHot h.canPrice]
  have hmem : predicted reqBlocks c.1 now params hot c.2 ∈
      nodes.flatMap (placementsOn reqBlocks now params allowTransfer hot) :=
    predicted_mem_placements h.least.mem
  obtain ⟨p, hargmin⟩ := exists_argmin Placement.key hmem
  have hleast := least_of_argmin hargmin
  obtain ⟨d, hd, rfl⟩ := mem_placements.mp hleast.mem
  have hkey := (hleast.le _ hmem).antisymm (h.least.le d hd)
  rw [hargmin, candidate_eq_of_key_eq hids hd h.least.mem ⟨rfl, rfl⟩ ⟨rfl, rfl⟩ hkey]

/-- On a cluster with distinct ids the oracle returns the least candidate, and nothing
else: a full account of `best_placement`, ties included. -/
theorem bestPlacement_eq_ok_iff (hids : DistinctIds nodes) {best : Placement K} :
    bestPlacement reqBlocks nodes now params allowTransfer = .ok best ↔
      ∃ hot c, Best reqBlocks nodes now params allowTransfer hot c ∧
        best = predicted reqBlocks c.1 now params hot c.2 := by
  constructor
  · exact exists_best
  · rintro ⟨hot, c, hbest, rfl⟩
    exact hbest.returns hids

/-- The oracle returns when there is a node and every candidate can be priced. -/
theorem exists_bestPlacement (hhot : hotNode reqBlocks nodes = .ok hot)
    (hprice : ∀ d, Candidate nodes allowTransfer hot d →
      params.CanPrice (movedBlocks reqBlocks d.1 hot d.2)) :
    ∃ best, bestPlacement reqBlocks nodes now params allowTransfer = .ok best := by
  have hmem : predicted reqBlocks hot now params hot false ∈
      nodes.flatMap (placementsOn reqBlocks now params allowTransfer hot) :=
    mem_placements.mpr ⟨(hot, false), ⟨(hotNode_eq_ok hhot).1, Or.inl rfl⟩, rfl⟩
  obtain ⟨best, hbest⟩ := exists_argmin Placement.key hmem
  exact ⟨best, (bestPlacement_eq_ok_iff_argmin hhot hprice).mpr hbest⟩

end Oracle

def holding (nodeId : ℕ) (busy : K) (blocks : List BlockHash) : Node K :=
  { Node.init nodeId 100 with
    busyUntil := busy
    cache := blocks.foldl (fun cache h => OrderedDict.setItem cache h ()) ∅ }

section Requeue

def requeue (busy : Node K → K) (nodes : List (Node K)) : List (Node K) :=
  nodes.map fun n => { n with busyUntil := busy n }

variable {reqBlocks : List BlockHash} {nodes : List (Node K)} {now : K} {params : CostParams K}
  {allowTransfer : Bool} {hot : Node K}

abbrev waitingKey (reqBlocks : List BlockHash) (params : CostParams K) (hot : Node K)
    (wait : Node K → K) : Node K × Bool → K ×ₗ ℕ ×ₗ Bool :=
  loadedKey Prod.fst (fun c => idleTtft reqBlocks params hot c.1 c.2)
    (fun c => toLex (c.1.nodeId, c.2)) wait

omit [Scalar K] in
theorem distinctIds_requeue (busy : Node K → K) (h : DistinctIds nodes) :
    DistinctIds (requeue busy nodes) := by
  unfold DistinctIds requeue at *
  rw [List.map_map]
  exact h

omit [Scalar K] in
theorem hotNode_requeue (busy : Node K → K) :
    hotNode reqBlocks (requeue busy nodes) =
      (hotNode reqBlocks nodes).map fun n => { n with busyUntil := busy n } := by
  have hbest : (requeue busy nodes).argmax (hotKey reqBlocks) =
      (nodes.argmax (hotKey reqBlocks)).map fun n => { n with busyUntil := busy n } :=
    argmax_map (fun n : Node K => { n with busyUntil := busy n }) (hotKey reqBlocks) nodes
  unfold hotNode
  rw [hbest]
  cases nodes.argmax (hotKey reqBlocks) <;> rfl

omit [Scalar K] in
theorem candidate_requeue (busy : Node K → K) {d : Node K × Bool} :
    Candidate (requeue busy nodes) allowTransfer { hot with busyUntil := busy hot } d ↔
      ∃ e, Candidate nodes allowTransfer hot e ∧
        d = ({ e.1 with busyUntil := busy e.1 }, e.2) := by
  obtain ⟨m, flag⟩ := d
  constructor
  · rintro ⟨hm, henum⟩
    obtain ⟨n, hn, rfl⟩ := List.mem_map.mp hm
    exact ⟨(n, flag), ⟨hn, henum⟩, rfl⟩
  · rintro ⟨⟨n, flag'⟩, ⟨hn, henum⟩, heq⟩
    obtain ⟨rfl, rfl⟩ := Prod.mk.inj heq
    exact ⟨List.mem_map_of_mem hn, henum⟩

/-- The oracle on the same nodes under other queues returns the least candidate
under the other waits. -/
theorem bestPlacement_requeue (now : K) (hids : DistinctIds nodes)
    (hhot : hotNode reqBlocks nodes = .ok hot)
    (hprice : ∀ d, Candidate nodes allowTransfer hot d →
      params.CanPrice (movedBlocks reqBlocks d.1 hot d.2))
    (busy : Node K → K) {c : Node K × Bool} (hc : Candidate nodes allowTransfer hot c) :
    ∃ p, bestPlacement reqBlocks (requeue busy nodes) now params allowTransfer = .ok p ∧
      ((p.nodeId, p.transfer) = (c.1.nodeId, c.2) ↔
        Least (Candidate nodes allowTransfer hot)
          (waitingKey reqBlocks params hot fun n => max 0 (busy n - now)) c) := by
  have hhot' : hotNode reqBlocks (requeue busy nodes) =
      .ok { hot with busyUntil := busy hot } := by
    rw [hotNode_requeue, hhot]
    rfl
  have hprice' : ∀ d, Candidate (requeue busy nodes) allowTransfer
      { hot with busyUntil := busy hot } d →
        params.CanPrice (movedBlocks reqBlocks d.1 { hot with busyUntil := busy hot } d.2) := by
    intro d hd
    obtain ⟨e, he, rfl⟩ := (candidate_requeue busy).mp hd
    exact hprice e he
  obtain ⟨p, hp⟩ := exists_bestPlacement hhot' hprice'
  refine ⟨p, hp, ?_, ?_⟩
  · intro hchoice
    obtain ⟨hot', d, hbest, rfl⟩ := exists_best hp
    obtain rfl := Except.ok.inj (hhot'.symm.trans hbest.isHot)
    obtain ⟨e, he, rfl⟩ := (candidate_requeue busy).mp hbest.least.mem
    obtain ⟨hid, htransfer⟩ := Prod.mk.inj hchoice
    obtain rfl : e = c := Prod.ext (hids.eq_of_nodeId_eq he.1 hc.1 hid) htransfer
    exact ⟨he, fun d hd => hbest.least.le _ ((candidate_requeue busy).mpr ⟨d, hd, rfl⟩)⟩
  · intro hleast
    have hbest : Best reqBlocks (requeue busy nodes) now params allowTransfer
        { hot with busyUntil := busy hot } ({ c.1 with busyUntil := busy c.1 }, c.2) := by
      refine ⟨hhot', hprice', (candidate_requeue busy).mpr ⟨c, hc, rfl⟩, ?_⟩
      intro d hd
      obtain ⟨e, he, rfl⟩ := (candidate_requeue busy).mp hd
      exact hleast.le e he
    obtain rfl := Except.ok.inj (hp.symm.trans (hbest.returns (distinctIds_requeue busy hids)))
    rfl

end Requeue

end SchedLm.Sim
