import SchedLm.Sim.Belady
import SchedLm.Sim.Candidates
import SchedLm.Sim.EngineRun

/-!
When a run returns. With a node to route to, room that is not negative, a
bandwidth to divide by and a policy that answers with one of the nodes, every
turn gets through, and so does the run.
-/

namespace SchedLm.Sim

open Runs

variable {K : Type} [Scalar K]

/-- A policy that always answers, with a node of the cluster. -/
def Policy.Answers (policy : Policy K) (numNodes : ℕ) (params : CostParams K) : Prop :=
  ∀ state view (nodes : List (Node K)) now, nodes.length = numNodes →
    (∀ i (n : Node K), nodes[i]? = some n → n.nodeId = i) →
    ∃ state' place, policy.call state view nodes now params = .ok (state', place) ∧
      place.nodeId < numNodes

section Run

variable {requests : List (TurnRequest K)} {policy : Policy K} {numNodes : ℕ}
  {cacheBlocks : ℤ} {params : CostParams K} {belady : Bool}

theorem bestPlacement_returns (reqBlocks : List BlockHash) {nodes : List (Node K)} (now : K)
    (hne : nodes ≠ []) (hbandwidth : params.bandwidth ≠ 0) :
    ∃ best, bestPlacement reqBlocks nodes now params = .ok best := by
  obtain ⟨hot, hhot⟩ := exists_hotNode reqBlocks hne
  exact exists_bestPlacement hhot fun _ _ _ => hbandwidth

theorem isCoupled_returns (reqBlocks : List BlockHash) {nodes : List (Node K)} (now : K)
    (loaded : Placement K) (hne : nodes ≠ []) (hbandwidth : params.bandwidth ≠ 0) :
    ∃ changed, (isCoupled reqBlocks nodes now params loaded).1 = .ok changed := by
  have hne' : (nodes.map fun n => { n with busyUntil := now }) ≠ [] :=
    fun hnil => hne (List.map_eq_nil_iff.mp hnil)
  obtain ⟨idle, hidle⟩ := bestPlacement_returns reqBlocks now hne' hbandwidth
  exact ⟨_, map_eq_ok.mpr ⟨idle, hidle, rfl⟩⟩

theorem simStep_returns (hpolicy : policy.Answers numNodes params) (hnodes : 0 < numNodes)
    (hcap : 0 ≤ cacheBlocks) (hbandwidth : params.bandwidth ≠ 0) {eviction : Eviction}
    {s : SimState K policy.State} (hs : Cluster numNodes cacheBlocks eviction s.nodes)
    (req : TurnRequest K) : ∃ s', simStep policy params s req = .ok s' := by
  have hne : s.nodes ≠ [] := List.ne_nil_of_length_pos (hs.length ▸ hnodes)
  obtain ⟨best, hbest⟩ := bestPlacement_returns req.blockHashes req.arrival hne hbandwidth
  obtain ⟨changed, hchanged⟩ :=
    isCoupled_returns req.blockHashes req.arrival best hne hbandwidth
  obtain ⟨state, place, hcall, hplace⟩ :=
    hpolicy s.policy (requestView req) s.nodes req.arrival hs.length hs.nodeId
  obtain ⟨hot, hhot⟩ := exists_hotNode req.blockHashes hne
  obtain ⟨node, hnode⟩ : ∃ node, s.nodes[place.nodeId]? = some node :=
    ⟨_, List.getElem?_eq_getElem (hs.length ▸ hplace)⟩
  have hpredict : predict req.blockHashes node req.arrival params hot place.transfer =
      .ok (predicted req.blockHashes node req.arrival params hot place.transfer) :=
    predict_eq_ok_iff.mpr ⟨fun _ => hbandwidth, rfl⟩
  obtain ⟨t, hroute⟩ : ∃ t, routeTurn policy params s req = .ok t := by
    refine ⟨{
      oracle := best
      coupled := changed
      nodes := s.nodes
      policy := state
      chosen := place
      hot := hot
      node := node
      realized := predicted req.blockHashes node req.arrival params hot place.transfer }, ?_⟩
    unfold routeTurn
    simp only [bind_eq_ok, isCoupled_nodes]
    refine ⟨best, hbest, changed, hchanged, (state, place), hcall, hot, hhot, ?_⟩
    simp only [hnode, hpredict]
    rfl
  have hcap' : 0 ≤ t.node.cacheCapacity := by
    rw [hs.cacheCapacity t.node (List.mem_of_getElem? (routeTurn_eq_ok hroute).node)]
    exact hcap
  obtain ⟨node', hadmitted, -⟩ :=
    t.node.admitRequest_fits (t.admitCall params s.idx req) hcap'
  unfold simStep
  simp only [bind_eq_ok]
  exact ⟨_, t, hroute, by rw [hadmitted]; rfl⟩

theorem runSimulation_returns (hpolicy : policy.Answers numNodes params)
    (hnodes : 0 < numNodes) (hcap : 0 ≤ cacheBlocks) (hbandwidth : params.bandwidth ≠ 0) :
    ∃ result, runSimulation requests policy numNodes cacheBlocks params belady = .ok result := by
  have hrun : ∀ k ≤ requests.length,
      ∃ s, simAfter requests policy numNodes cacheBlocks params belady k = .ok s := by
    intro k hk
    induction k with
    | zero => exact ⟨_, rfl⟩
    | succ k ih =>
      obtain ⟨s, hs⟩ := ih (Nat.le_of_succ_le hk)
      obtain ⟨s', hstep⟩ := simStep_returns hpolicy hnodes hcap hbandwidth
        (simAfter_cluster (Nat.le_of_succ_le hk) hs).2 (requests.get ⟨k, hk⟩)
      refine ⟨s', ?_⟩
      unfold simAfter
      rw [foldlM_take_succ (List.getElem?_eq_getElem hk)]
      exact bind_eq_ok.mpr ⟨s, hs, hstep⟩
  obtain ⟨s, hs⟩ := hrun requests.length le_rfl
  exact ⟨_, bind_eq_ok.mpr ⟨s, hs, rfl⟩⟩

theorem roundRobin_answers (hnodes : 0 < numNodes) :
    (roundRobin : Policy K).Answers numNodes params := by
  intro (next : ℕ) view nodes now hlength hposition
  obtain ⟨hot, hhot⟩ :=
    exists_hotNode view.blocks (List.ne_nil_of_length_pos (hlength ▸ hnodes))
  have hlt : next % nodes.length < nodes.length := Nat.mod_lt _ (hlength ▸ hnodes)
  obtain ⟨node, hnode⟩ : ∃ node, nodes[next % nodes.length]? = some node :=
    ⟨_, List.getElem?_eq_getElem hlt⟩
  refine ⟨next + 1, predicted view.blocks node now params hot false, ?_, ?_⟩
  · have hpredict : predict view.blocks node now params hot false =
        .ok (predicted view.blocks node now params hot false) :=
      predict_eq_ok_iff.mpr ⟨fun hmoved => absurd hmoved (lt_irrefl 0), rfl⟩
    unfold roundRobin
    simp only [hnode, hhot]
    rw [if_neg (hlength ▸ hnodes.ne')]
    exact bind_eq_ok.mpr ⟨hot, rfl, bind_eq_ok.mpr ⟨_, hpredict, rfl⟩⟩
  · change node.nodeId < numNodes
    rw [hposition _ node hnode]
    exact hlength ▸ hlt

end Run

end SchedLm.Sim
