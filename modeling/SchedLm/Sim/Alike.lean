import SchedLm.Library.LeastCost
import SchedLm.Library.Relabel
import SchedLm.Sim.Lease

/-!
What routing computes from a node. Of the queue only the wait at the time of
the request matters, and of the cache only how much of the request it matches.
So two clusters whose nodes pairwise agree on ids, waits and matches get the
same placements, whatever their clocks and block hashes are.
-/

namespace SchedLm.Sim

open LeastCost Runs

variable {K : Type} [Scalar K]

/-- The two nodes answer alike, one to a request for `blocks` at `now` and the
other to a request for `blocks'` at `now'`. -/
structure Node.Matching (blocks blocks' : List BlockHash) (now now' : K) (n n' : Node K) :
    Prop where
  nodeId : n'.nodeId = n.nodeId
  wait : n'.wait now' = n.wait now
  matched : n'.matched blocks' = n.matched blocks

/-- The two requests ask for equally many blocks and look to be of one class. -/
structure RequestView.Alike (req req' : RequestView) : Prop where
  length : req'.blocks.length = req.blocks.length
  classify : classify req' = classify req

section Cost

variable {blocks blocks' : List BlockHash} {now now' : K}
  (hlength : blocks'.length = blocks.length)

theorem quantizedWait_alike {node node' : Node K}
    (hnode : node.Matching blocks blocks' now now' node') (params : CostParams K) :
    quantizedWait node' now' params = quantizedWait node now params := by
  unfold quantizedWait
  rw [hnode.wait]

include hlength

theorem predict_alike {node node' hot hot' : Node K}
    (hnode : node.Matching blocks blocks' now now' node')
    (hhot : hot.Matching blocks blocks' now now' hot') (params : CostParams K) (transfer : Bool) :
    predict blocks' node' now' params hot' transfer =
      predict blocks node now params hot transfer := by
  unfold predict
  rw [hlength, hnode.matched, hhot.matched, hnode.wait, hnode.nodeId, hhot.nodeId]

omit hlength in
theorem hotNode_couples (couples : List (Couple (Node.Matching blocks blocks' now now'))) :
    ∃ hot : Except SimError (Couple (Node.Matching blocks blocks' now now')),
      hotNode blocks (couples.map Couple.left) = hot.map Couple.left ∧
        hotNode blocks' (couples.map Couple.right) = hot.map Couple.right := by
  have hkey : (fun c : Couple (Node.Matching blocks blocks' now now') => hotKey blocks' c.right) =
      fun c => hotKey blocks c.left := by
    funext c
    unfold hotKey
    rw [c.related.matched, c.related.nodeId]
  unfold hotNode
  rw [argmax_map, argmax_map, hkey]
  cases couples.argmax fun c => hotKey blocks c.left with
  | none => exact ⟨.error .emptyArgument, rfl, rfl⟩
  | some hot => exact ⟨.ok hot, rfl, rfl⟩

theorem bestPlacement_alike (couples : List (Couple (Node.Matching blocks blocks' now now')))
    (params : CostParams K) (allowTransfer : Bool) :
    bestPlacement blocks' (couples.map Couple.right) now' params allowTransfer =
      bestPlacement blocks (couples.map Couple.left) now params allowTransfer := by
  obtain ⟨hot, hleft, hright⟩ := hotNode_couples couples
  unfold bestPlacement
  rw [hleft, hright, map_bind, map_bind]
  congr 1
  funext hot
  have hcandidates : candidatesOn blocks' now' params allowTransfer hot.right ∘ Couple.right =
      candidatesOn blocks now params allowTransfer hot.left ∘
        (Couple.left : Couple (Node.Matching blocks blocks' now now') → Node K) := by
    funext c
    simp only [Function.comp_apply, candidatesOn, predict_alike hlength c.related hot.related,
      c.related.nodeId, hot.related.nodeId]
  rw [List.mapM_map, List.mapM_map, hcandidates]

theorem isCoupled_alike (couples : List (Couple (Node.Matching blocks blocks' now now')))
    (params : CostParams K) (loaded : Placement K) :
    (isCoupled blocks' (couples.map Couple.right) now' params loaded).1 =
      (isCoupled blocks (couples.map Couple.left) now params loaded).1 := by
  have hidle : ∀ c : Couple (Node.Matching blocks blocks' now now'),
      Node.Matching blocks blocks' now now' { c.left with busyUntil := now }
        { c.right with busyUntil := now' } := by
    intro c
    refine ⟨c.related.nodeId, ?_, c.related.matched⟩
    unfold Node.wait
    rw [sub_self, sub_self]
  let idle : List (Couple (Node.Matching blocks blocks' now now')) :=
    couples.map fun c => ⟨_, _, hidle c⟩
  have hbest := bestPlacement_alike hlength idle params true
  have hleft : idle.map Couple.left =
      (couples.map Couple.left).map fun n => { n with busyUntil := now } := by
    rw [List.map_map, List.map_map]
    rfl
  have hright : idle.map Couple.right =
      (couples.map Couple.right).map fun n => { n with busyUntil := now' } := by
    rw [List.map_map, List.map_map]
    rfl
  rw [hleft, hright] at hbest
  unfold isCoupled
  dsimp only
  rw [hbest]

end Cost

section Policies

variable {req req' : RequestView} {now now' : K} (hreq : req.Alike req')
  (couples : List (Couple (Node.Matching req.blocks req'.blocks now now'))) (params : CostParams K)

include hreq

theorem cacheLocal_alike : cacheLocal req' (couples.map Couple.right) now' params =
    cacheLocal req (couples.map Couple.left) now params := by
  obtain ⟨hot, hleft, hright⟩ := hotNode_couples couples
  unfold cacheLocal
  rw [hleft, hright, map_bind, map_bind]
  congr 1
  funext hot
  exact predict_alike hreq.length hot.related hot.related params false

theorem scoreCandidate_alike {hot hot' : Node K}
    (hhot : hot.Matching req.blocks req'.blocks now now' hot') (best : Option (Placement K))
    (c : Couple (Node.Matching req.blocks req'.blocks now now')) (transfer : Bool) :
    scoreCandidate req' now' params hot' best (c.right, transfer) =
      scoreCandidate req now params hot best (c.left, transfer) := by
  unfold scoreCandidate
  dsimp only
  rw [predict_alike hreq.length c.related hhot, c.related.nodeId, hhot.nodeId, c.related.wait,
    quantizedWait_alike c.related]

theorem transferAware_alike : transferAware req' (couples.map Couple.right) now' params =
    transferAware req (couples.map Couple.left) now params := by
  obtain ⟨hot, hleft, hright⟩ := hotNode_couples couples
  unfold transferAware
  rw [hleft, hright, map_bind, map_bind]
  congr 1
  funext hot
  have hcandidates : ∀ side : Couple (Node.Matching req.blocks req'.blocks now now') → Node K,
      ((couples.map side).flatMap fun node => [(node, false), (node, true)]) =
        (couples.flatMap fun c => [(c, false), (c, true)]).map (Prod.map side id) := by
    intro side
    rw [List.flatMap_map, List.map_flatMap]
    rfl
  have hscore : (fun best (c : Couple (Node.Matching req.blocks req'.blocks now now') × Bool) =>
      scoreCandidate req' now' params hot.right best (Prod.map Couple.right id c)) =
        fun best c => scoreCandidate req now params hot.left best (Prod.map Couple.left id c) := by
    funext best c
    exact scoreCandidate_alike hreq params hot.related best c.1 c.2
  simp only [hcandidates, List.foldlM_map, hscore]

omit hreq in
theorem leastLoaded_couples : ∃ least : Except SimError
    (Couple (Node.Matching req.blocks req'.blocks now now')),
      leastLoaded (couples.map Couple.left) now params = least.map Couple.left ∧
        leastLoaded (couples.map Couple.right) now' params = least.map Couple.right := by
  have hkey : (fun c : Couple (Node.Matching req.blocks req'.blocks now now') =>
      toLex (quantizedWait c.right now' params, c.right.nodeId)) =
        fun c => toLex (quantizedWait c.left now params, c.left.nodeId) := by
    funext c
    rw [quantizedWait_alike c.related, c.related.nodeId]
  unfold leastLoaded
  rw [argmin_map, argmin_map, hkey]
  cases couples.argmin fun c => toLex (quantizedWait c.left now params, c.left.nodeId) with
  | none => exact ⟨.error .emptyArgument, rfl, rfl⟩
  | some least => exact ⟨.ok least, rfl, rfl⟩

theorem classAware_alike : classAware req' (couples.map Couple.right) now' params =
    classAware req (couples.map Couple.left) now params := by
  obtain ⟨hot, hleft, hright⟩ := hotNode_couples couples
  have htransfer := transferAware_alike hreq couples params
  unfold classAware
  rw [hreq.classify]
  cases classify req with
  | tool => exact htransfer
  | oneshot =>
    obtain ⟨least, hleast, hleast'⟩ := leastLoaded_couples couples params
    simp only [hleast, hleast', hleft, hright, map_bind]
    congr 1
    funext least
    congr 1
    funext hot
    exact predict_alike hreq.length least.related hot.related params false
  | rag =>
    simp only [hleft, hright, map_bind]
    congr 1
    funext hot
    rw [hot.related.matched, quantizedWait_alike hot.related, htransfer,
      predict_alike hreq.length hot.related hot.related]

theorem oracle_alike : oracle req' (couples.map Couple.right) now' params =
    oracle req (couples.map Couple.left) now params :=
  bestPlacement_alike hreq.length couples params true

/-- Cyclic assignment counts requests, so the two counters stay equal. -/
theorem roundRobin_alike (next : ℕ) :
    roundRobin.call next req' (couples.map Couple.right) now' params =
      roundRobin.call next req (couples.map Couple.left) now params := by
  obtain ⟨hot, hleft, hright⟩ := hotNode_couples couples
  simp only [roundRobin, hleft, hright, map_bind, List.length_map, List.getElem?_map]
  cases couples[next % couples.length]? with
  | none => rfl
  | some c =>
    simp only [Option.map_some]
    split_ifs
    · rfl
    · congr 1
      funext hot
      rw [predict_alike hreq.length c.related hot.related]

/-- A relation between two router-side indices that a symmetry keeps: they
start related, promise the same hits, and stay related by what is recorded. -/
structure RouterIndex.Alike (req req' : RequestView) (rel : RouterIndex → RouterIndex → Prop) :
    Prop where
  start : ∀ numNodes capacity, rel (init numNodes capacity) (init numNodes capacity)
  matched : ∀ {index index'}, rel index index' → ∀ nodeId,
    index'.matched nodeId req'.blocks = index.matched nodeId req.blocks
  record : ∀ {index index'}, rel index index' → ∀ nodeId,
    Related rel (index.record nodeId req.blocks) (index'.record nodeId req'.blocks)

namespace WeightedScorers

variable (scorers : WeightedScorers K) {rel : RouterIndex → RouterIndex → Prop}
  (hrel : RouterIndex.Alike req req' rel)

omit hreq in
theorem unsaturated_couples : ∃ candidates : List (Couple (Node.Matching req.blocks req'.blocks
    now now')),
      scorers.unsaturated (couples.map Couple.left) now params = candidates.map Couple.left ∧
        scorers.unsaturated (couples.map Couple.right) now' params =
          candidates.map Couple.right := by
  have hkeep : (fun c : Couple (Node.Matching req.blocks req'.blocks now now') =>
      decide (quantizedWait c.right now' params ≤
        scorers.saturationDepth * nominalService params)) =
      fun c => decide (quantizedWait c.left now params ≤
        scorers.saturationDepth * nominalService params) := by
    funext c
    rw [quantizedWait_alike c.related]
  unfold unsaturated
  simp only [List.filter_map, Function.comp_def, List.isEmpty_map]
  rw [hkeep]
  split_ifs
  · exact ⟨couples, rfl, rfl⟩
  · exact ⟨_, rfl, rfl⟩

include hrel

theorem score_alike {index index' : RouterIndex} (hindex : rel index index') (lo hi : K)
    (c : Couple (Node.Matching req.blocks req'.blocks now now')) :
    scorers.score (some index') req' now' params lo hi c.right =
      scorers.score (some index) req now params lo hi c.left := by
  have hempty : req'.blocks.isEmpty = req.blocks.isEmpty := by
    rw [Bool.eq_iff_iff, List.isEmpty_iff_length_eq_zero, List.isEmpty_iff_length_eq_zero,
      hreq.length]
  unfold score prefixScore
  dsimp only
  rw [hempty, hreq.length, c.related.matched, c.related.nodeId, hrel.matched hindex,
    quantizedWait_alike c.related]

/-- The pipeline picks the same placement, which carries no directive, and the
indices stay related. -/
theorem call_alike {index index' : Option RouterIndex} (hindex : Option.Rel rel index index') :
    Related (fun a b => Option.Rel rel a.1 b.1 ∧ b.2 = a.2 ∧ a.2.NoDirective)
      (scorers.call index req (couples.map Couple.left) now params)
      (scorers.call index' req' (couples.map Couple.right) now' params) := by
  obtain ⟨candidates, hleft, hright⟩ := unsaturated_couples couples params scorers
  obtain ⟨hot, hhot, hhot'⟩ := hotNode_couples couples
  have hheld : rel (index.getD (RouterIndex.init couples.length scorers.indexCapacity))
      (index'.getD (RouterIndex.init couples.length scorers.indexCapacity)) := by
    cases hindex with
    | none => exact hrel.start _ _
    | some h => exact h
  have hwaits : (candidates.map Couple.right).map (fun n => quantizedWait n now' params) =
      (candidates.map Couple.left).map fun n => quantizedWait n now params := by
    rw [List.map_map, List.map_map]
    apply List.map_congr_left
    intro c _
    exact quantizedWait_alike c.related params
  unfold call
  simp only [hleft, hright, hhot, hhot', hwaits, List.length_map]
  generalize index.getD _ = held at hheld ⊢
  generalize index'.getD _ = held' at hheld ⊢
  split
  · rename_i lo hi _ _
    have hscored : ∃ scored : Except SimError (List (K × Couple (Node.Matching req.blocks
        req'.blocks now now'))),
        ((candidates.map Couple.left).mapM fun n => do
          let total ← scorers.score (some held) req now params lo hi n
          return (total, n)) = scored.map (List.map (Prod.map id Couple.left)) ∧
        ((candidates.map Couple.right).mapM fun n => do
          let total ← scorers.score (some held') req' now' params lo hi n
          return (total, n)) = scored.map (List.map (Prod.map id Couple.right)) := by
      refine ⟨candidates.mapM fun c => do
        let total ← scorers.score (some held) req now params lo hi c.left
        return (total, c), ?_, ?_⟩
      · rw [← mapM_map_result, List.mapM_map]
        congr 1
        funext c
        simp only [Function.comp_apply]
        cases scorers.score (some held) req now params lo hi c.left <;> rfl
      · rw [← mapM_map_result, List.mapM_map]
        congr 1
        funext c
        simp only [Function.comp_apply, score_alike hreq params scorers hrel hheld lo hi c]
        cases scorers.score (some held) req now params lo hi c.left <;> rfl
    obtain ⟨scored, hscored, hscored'⟩ := hscored
    rw [hscored, hscored', map_bind, map_bind]
    apply (Related.self scored).bind
    rintro scored _ ⟨rfl, -⟩
    have hkey : (fun c : K × Couple (Node.Matching req.blocks req'.blocks now now') =>
        toLex (c.1, OrderDual.toDual c.2.right.nodeId)) =
          fun c => toLex (c.1, OrderDual.toDual c.2.left.nodeId) := by
      funext c
      rw [c.2.related.nodeId]
    rw [argmax_map, argmax_map]
    simp only [Prod.map_fst, Prod.map_snd, id_eq, hkey]
    cases scored.argmax fun c => toLex (c.1, OrderDual.toDual c.2.left.nodeId) with
    | none => exact .error _
    | some best =>
      obtain ⟨total, best⟩ := best
      have hplace : ∀ {next next' : RouterIndex}, rel next next' →
          Related (fun a b => Option.Rel rel a.1 b.1 ∧ b.2 = a.2 ∧ a.2.NoDirective)
            (hot.map Couple.left >>= fun hot =>
              predict req.blocks best.left now params hot false >>= fun place =>
                .ok (some next, place))
            (hot.map Couple.right >>= fun hot =>
              predict req'.blocks best.right now' params hot false >>= fun place =>
                .ok (some next', place)) := by
        intro next next' hnext
        rw [map_bind, map_bind]
        apply (Related.self hot).bind
        rintro hot _ ⟨rfl, -⟩
        rw [predict_alike hreq.length best.related hot.related]
        apply (Related.self _).bind
        rintro place _ ⟨rfl, hplace⟩
        exact .ok ⟨.some hnext, rfl, predict_noDirective hplace⟩
      simp only [Option.map_some, Prod.map_apply, id_eq]
      split_ifs
      · exact hplace hheld
      · rw [best.related.nodeId]
        exact (hrel.record hheld best.left.nodeId).bind fun _ _ hnext => hplace hnext
  · exact .error _

end WeightedScorers

end Policies

end SchedLm.Sim
