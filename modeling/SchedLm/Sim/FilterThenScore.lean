import SchedLm.Library.WeightedSum
import SchedLm.Sim.Candidates
import SchedLm.Sim.RouterIndexSync

/-!
What the filter-then-score pipeline chooses. The filter keeps the nodes under
the queue limit when there are any; among the nodes it keeps, none is at least
as good as the chosen one in prefix and in load and better in one of them.
-/

namespace SchedLm.Sim.WeightedScorers

open Runs

variable {K : Type} [Scalar K]

/-- The index a call reads: the one at hand, or a fresh one. -/
def indexInUse (scorers : WeightedScorers K) (index : Option RouterIndex)
    (nodes : List (Node K)) : RouterIndex :=
  index.getD (RouterIndex.init nodes.length scorers.indexCapacity)

/-- How much of the request's prefix the scorer takes to be on a node: what is
matched there, or what the index believes to be. -/
def matchedOrBelieved (scorers : WeightedScorers K) (index : RouterIndex)
    (reqBlocks : List BlockHash) (n : Node K) : ℕ :=
  if scorers.precise then n.matched reqBlocks
  else
    match index.blocks[n.nodeId]? with
    | none => 0
    | some held => matchedPrefix reqBlocks fun h => decide (h ∈ held)

def matchedFraction (scorers : WeightedScorers K) (index : RouterIndex)
    (reqBlocks : List BlockHash) (n : Node K) : K :=
  (scorers.matchedOrBelieved index reqBlocks n : K) / reqBlocks.length

/-- The fraction weighed against the wait, normalized between two extremes. -/
def weighed (scorers : WeightedScorers K) (index : RouterIndex) (reqBlocks : List BlockHash)
    (now : K) (params : CostParams K) (lo hi : K) (n : Node K) : K :=
  scorers.prefixWeight * scorers.matchedFraction index reqBlocks n +
    scorers.loadWeight * WeightedSum.normalized lo hi (quantizedWait n now params)

section Scores

variable {scorers : WeightedScorers K} {index : RouterIndex} {req : RequestView} {n : Node K}
  {now lo hi : K} {params : CostParams K}

theorem prefixScore_eq_ok {reqBlocks : List BlockHash} {x : K}
    (h : scorers.prefixScore (some index) n reqBlocks = .ok x) :
    x = scorers.matchedFraction index reqBlocks n := by
  unfold prefixScore at h
  split_ifs at h with hempty hprecise
  · obtain rfl : 0 = x := Except.ok.inj h
    rw [List.isEmpty_iff.mp hempty, matchedFraction, List.length_nil, Nat.cast_zero, div_zero]
  · obtain rfl := Except.ok.inj h
    rw [matchedFraction, matchedOrBelieved, if_pos hprecise]
  · obtain ⟨hits, hhits, h⟩ := bind_eq_ok.mp h
    obtain rfl := Except.ok.inj h
    unfold RouterIndex.matched at hhits
    rw [matchedFraction, matchedOrBelieved, if_neg hprecise]
    cases hheld : index.blocks[n.nodeId]? with
    | none =>
      rw [hheld] at hhits
      cases hhits
    | some held =>
      rw [hheld] at hhits
      rw [← Except.ok.inj hhits]

theorem score_eq_ok {total : K}
    (h : scorers.score (some index) req now params lo hi n = .ok total) :
    total = scorers.weighed index req.blocks now params lo hi n := by
  obtain ⟨cached, hcached, h⟩ := bind_eq_ok.mp h
  rw [← Except.ok.inj h, prefixScore_eq_ok hcached]
  rfl

theorem score_returns (hentry : scorers.precise = true ∨ n.nodeId < index.blocks.length) :
    scorers.score (some index) req now params lo hi n =
      .ok (scorers.weighed index req.blocks now params lo hi n) := by
  obtain ⟨cached, hcached⟩ : ∃ cached,
      scorers.prefixScore (some index) n req.blocks = .ok cached := by
    unfold prefixScore
    split_ifs with hempty hprecise
    · exact ⟨_, rfl⟩
    · exact ⟨_, rfl⟩
    · have hlt : n.nodeId < index.blocks.length := hentry.resolve_left hprecise
      have hheld : index.blocks[n.nodeId]? = some index.blocks[n.nodeId] :=
        List.getElem?_eq_getElem hlt
      dsimp only
      rw [RouterIndex.matched, hheld]
      exact ⟨_, rfl⟩
  rw [weighed, ← prefixScore_eq_ok hcached]
  exact bind_eq_ok.mpr ⟨cached, hcached, rfl⟩

end Scores

/-- The filter keeps nodes within the limit as soon as there is one. -/
theorem within_limit_of_mem_unsaturated {scorers : WeightedScorers K} {nodes : List (Node K)}
    {now : K} {params : CostParams K} {chosen : Node K}
    (hchosen : chosen ∈ scorers.unsaturated nodes now params)
    (hany : ∃ n ∈ nodes,
      quantizedWait n now params ≤ scorers.saturationDepth * nominalService params) :
    quantizedWait chosen now params ≤ scorers.saturationDepth * nominalService params := by
  unfold unsaturated at hchosen
  dsimp only at hchosen
  split_ifs at hchosen with hnone
  · obtain ⟨n, hn, hwait⟩ := hany
    have hdropped := List.filter_eq_nil_iff.mp (List.isEmpty_iff.mp hnone) n hn
    exact absurd (decide_eq_true hwait) hdropped
  · exact of_decide_eq_true (List.mem_filter.mp hchosen).2

theorem unsaturated_ne_nil {scorers : WeightedScorers K} {nodes : List (Node K)} {now : K}
    {params : CostParams K} (hne : nodes ≠ []) : scorers.unsaturated nodes now params ≠ [] := by
  unfold unsaturated
  dsimp only
  split_ifs with hnone
  · exact hne
  · exact fun hnil => hnone (List.isEmpty_iff.mpr hnil)

/-- What is known of the node a call answers with: it survived the filter, and
its score is the best of all survivors under some extremes of the waits. -/
structure Best (scorers : WeightedScorers K) (index : RouterIndex) (req : RequestView)
    (candidates : List (Node K)) (now : K) (params : CostParams K) (lo hi : K)
    (chosen : Node K) : Prop where
  mem : chosen ∈ candidates
  waits : ∀ n ∈ candidates, lo ≤ quantizedWait n now params ∧ quantizedWait n now params ≤ hi
  best : ∀ n ∈ candidates, scorers.weighed index req.blocks now params lo hi n ≤
    scorers.weighed index req.blocks now params lo hi chosen

/-- A call that returns answers with the best-scored survivor of the filter, in place,
under the extremes of the waits it has measured. -/
theorem call_best {scorers : WeightedScorers K} {index index' : Option RouterIndex}
    {req : RequestView} {nodes : List (Node K)} {now : K} {params : CostParams K}
    {place : Placement K}
    (h : scorers.call index req nodes now params = .ok (index', place)) :
    ∃ chosen lo hi, place.nodeId = chosen.nodeId ∧
      Best scorers (scorers.indexInUse index nodes) req (scorers.unsaturated nodes now params)
        now params lo hi chosen := by
  unfold call at h
  dsimp only at h
  split at h
  · rename_i lo hi hlo hhi
    obtain ⟨scored, hscored, h⟩ := bind_eq_ok.mp h
    split at h
    · cases h
    · rename_i total chosen hargmax
      obtain ⟨hot, hplaced⟩ :
          ∃ hot, predict req.blocks chosen now params hot false = .ok place := by
        split_ifs at h
        all_goals
          obtain ⟨recorded, -, h⟩ := bind_eq_ok.mp h
          obtain ⟨hot, -, h⟩ := bind_eq_ok.mp h
          obtain ⟨placed, hplaced, h⟩ := bind_eq_ok.mp h
          obtain ⟨-, rfl⟩ := Prod.mk.inj (Except.ok.inj h)
          exact ⟨hot, hplaced⟩
      obtain ⟨cost, hpredicted⟩ := predict_eq_ok hplaced
      obtain ⟨n, hn, hresult⟩ := exists_of_mem_result hscored (List.argmax_mem hargmax)
      obtain ⟨total', htotal, hpair⟩ := bind_eq_ok.mp hresult
      obtain ⟨rfl, rfl⟩ := Prod.mk.inj (Except.ok.inj hpair)
      refine ⟨n, lo, hi, hpredicted.nodeId, hn, ?_, ?_⟩
      · intro m hm
        have hwait : quantizedWait m now params ∈ (scorers.unsaturated nodes now params).map
            fun n => quantizedWait n now params := List.mem_map.mpr ⟨m, hm, rfl⟩
        exact ⟨(List.min?_eq_some_iff.mp hlo).2 _ hwait, (List.max?_eq_some_iff.mp hhi).2 _ hwait⟩
      · intro m hm
        obtain ⟨⟨other, m'⟩, hmem, hm'⟩ := exists_of_mem_mapM hscored hm
        obtain ⟨other', hother, hpair'⟩ := bind_eq_ok.mp hm'
        obtain ⟨rfl, rfl⟩ := Prod.mk.inj (Except.ok.inj hpair')
        have hkey := List.le_of_mem_argmax hmem hargmax
        rw [indexInUse, ← score_eq_ok hother, ← score_eq_ok htotal]
        rcases Prod.Lex.toLex_le_toLex.mp hkey with hlt | ⟨heq, -⟩
        · exact hlt.le
        · exact heq.le
  · cases h

private theorem ok_bind {α β : Type} (a : α) (f : α → Except SimError β) :
    (Except.ok a >>= f) = f a := rfl

theorem call_returns {scorers : WeightedScorers K} {index : Option RouterIndex}
    (req : RequestView) {nodes : List (Node K)} (now : K) (params : CostParams K)
    (hne : nodes ≠ []) (hentries : scorers.precise = true ∨
      ∀ n ∈ nodes, n.nodeId < (scorers.indexInUse index nodes).blocks.length) :
    ∃ index' place, scorers.call index req nodes now params = .ok (index', place) := by
  have hcandidates : scorers.unsaturated nodes now params ≠ [] := unsaturated_ne_nil hne
  have hsubset := unsaturated_subset scorers nodes now params
  have hwaits : (scorers.unsaturated nodes now params).map (fun n => quantizedWait n now params) ≠
      [] := fun hnil => hcandidates (List.map_eq_nil_iff.mp hnil)
  obtain ⟨lo, hlo⟩ := Option.ne_none_iff_exists'.mp (mt List.min?_eq_none_iff.mp hwaits)
  obtain ⟨hi, hhi⟩ := Option.ne_none_iff_exists'.mp (mt List.max?_eq_none_iff.mp hwaits)
  let total := scorers.weighed (scorers.indexInUse index nodes) req.blocks now params lo hi
  have hscored : ∀ n ∈ scorers.unsaturated nodes now params, (do
      let total ← scorers.score (some (scorers.indexInUse index nodes)) req now params lo hi n
      return (total, n) : Except SimError (K × Node K)) = .ok (total n, n) := by
    intro n hn
    have hentry := hentries.imp_right fun h => h n (hsubset hn)
    exact bind_eq_ok.mpr ⟨_, score_returns hentry, rfl⟩
  unfold call
  dsimp only
  rw [hlo, hhi]
  dsimp only
  rw [← indexInUse, mapM_eq_ok hscored, ok_bind]
  cases hargmax : ((scorers.unsaturated nodes now params).map fun n => (total n, n)).argmax
      fun c => toLex (c.1, OrderDual.toDual c.2.nodeId) with
  | none => exact absurd (List.map_eq_nil_iff.mp (List.argmax_eq_none.mp hargmax)) hcandidates
  | some found =>
    obtain ⟨n, hn, rfl⟩ := List.mem_map.mp (List.argmax_mem hargmax)
    obtain ⟨hot, hhot⟩ := exists_hotNode req.blocks hne
    have hplaced : predict req.blocks n now params hot false =
        .ok (predicted req.blocks n now params hot false) :=
      predict_eq_ok_iff.mpr ⟨fun hpos => absurd hpos (by simp [movedBlocks]), rfl⟩
    dsimp only
    split_ifs with hprecise
    · rw [pure_bind, hhot, ok_bind, hplaced, ok_bind]
      exact ⟨_, _, rfl⟩
    · have hheld := List.getElem?_eq_getElem (hentries.resolve_left hprecise n (hsubset hn))
      rw [RouterIndex.record, hheld]
      dsimp only
      rw [ok_bind, hhot, ok_bind, hplaced, ok_bind]
      exact ⟨_, _, rfl⟩

/-- Longer prefixes at no longer waits stay so when counted as fractions. -/
private theorem dominates_fraction {scorers : WeightedScorers K} {index : RouterIndex}
    {reqBlocks : List BlockHash} {wait : Node K → K} {n chosen : Node K}
    (h : WeightedSum.Dominates (scorers.matchedOrBelieved index reqBlocks) wait n chosen) :
    WeightedSum.Dominates (scorers.matchedFraction index reqBlocks) wait n chosen := by
  have hmono : Monotone fun hits : ℕ => (hits : K) / reqBlocks.length := fun a b hab =>
    div_le_div_of_nonneg_right (Nat.cast_le.mpr hab) (Nat.cast_nonneg _)
  refine h.rescale hmono fun hless => ?_
  -- a longer match needs a request to match
  have hlength : scorers.matchedOrBelieved index reqBlocks n ≤ reqBlocks.length := by
    unfold matchedOrBelieved
    split_ifs
    · exact matchedPrefix_le_length _ _
    · split
      · exact Nat.zero_le _
      · exact matchedPrefix_le_length _ _
  have hpos : 0 < reqBlocks.length := by omega
  exact div_lt_div_of_pos_right (Nat.cast_lt.mpr hless) (Nat.cast_pos.mpr hpos)

/-- With the default weights, scoring by true cache state or by an index, a call returns
when there is a node and the index knows every node. Whenever one returns, on any state
of the cluster: the chosen node is within the queue limit if any node is, no other node
that survives the filter dominates it, and none has more than half of the request over
what the chosen one has. -/
theorem call_undominated (precise : Bool) (saturationDepth : ℤ) (indexCapacity : ℕ)
    (index : Option RouterIndex) (req : RequestView) (nodes : List (Node K)) (now : K)
    (params : CostParams K) :
    let scorers : WeightedScorers K := { precise, saturationDepth, indexCapacity }
    let known := scorers.indexInUse index nodes
    let survivors := scorers.unsaturated nodes now params
    let wait := fun n => quantizedWait n now params
    (nodes ≠ [] → (precise = true ∨ ∀ n ∈ nodes, n.nodeId < known.blocks.length) →
      ∃ index' place, scorers.call index req nodes now params = .ok (index', place)) ∧
    ∀ index' place, scorers.call index req nodes now params = .ok (index', place) →
      ∃ chosen ∈ survivors, place.nodeId = chosen.nodeId ∧
        ((∃ n ∈ nodes, wait n ≤ saturationDepth * nominalService params) →
          wait chosen ≤ saturationDepth * nominalService params) ∧
        ∀ n ∈ survivors,
          ¬WeightedSum.Dominates (scorers.matchedOrBelieved known req.blocks) wait n chosen ∧
          scorers.matchedFraction known req.blocks n ≤
            scorers.matchedFraction known req.blocks chosen + 1 / 2 := by
  intro scorers known survivors wait
  refine ⟨fun hne hentries => call_returns req now params hne hentries, ?_⟩
  intro index' place hcall
  obtain ⟨chosen, lo, hi, hplace, hmem, hspan, hbest⟩ := call_best hcall
  have hwaits : ∀ n ∈ survivors, lo ≤ wait n ∧ wait n ≤ hi := hspan
  refine ⟨chosen, hmem, hplace, within_limit_of_mem_unsaturated hmem, ?_⟩
  intro n hn
  have hle : 2 * scorers.matchedFraction known req.blocks n +
        1 * WeightedSum.normalized lo hi (wait n) ≤
      2 * scorers.matchedFraction known req.blocks chosen +
        1 * WeightedSum.normalized lo hi (wait chosen) := hbest n hn
  refine ⟨fun hdominates => ?_, ?_⟩
  · exact WeightedSum.not_dominates two_pos one_pos (hwaits n hn).1 (hwaits chosen hmem).2 hle
      (dominates_fraction hdominates)
  · exact WeightedSum.gain_le two_pos one_pos (hwaits n hn) (hwaits chosen hmem) hle

/-- A warm node with a short queue beside a cold one that is idle. -/
theorem call_undominated_warm :
    let warm : Node ℚ := { Node.init 0 4 with cache := AList.insert 7 () ∅, busyUntil := 1 }
    let nodes : List (Node ℚ) := [warm, Node.init 1 4]
    let req : RequestView := { blocks := [7, 8] }
    let scorers : WeightedScorers ℚ := { precise := true, saturationDepth := 8 }
    ∃ index' place, scorers.call none req nodes 0 {} = .ok (index', place) ∧
      ∃ chosen ∈ scorers.unsaturated nodes 0 {}, place.nodeId = chosen.nodeId ∧
        quantizedWait chosen 0 {} ≤ 8 * nominalService {} := by
  intro warm nodes req scorers
  obtain ⟨hreturns, hchosen⟩ := call_undominated true 8 2048 none req nodes 0 {}
  obtain ⟨index', place, hcall⟩ := hreturns (by simp [nodes]) (Or.inl rfl)
  obtain ⟨chosen, hmem, hplace, hlimit, -⟩ := hchosen index' place hcall
  refine ⟨index', place, hcall, chosen, hmem, hplace, ?_⟩
  have hidle : quantizedWait (Node.init 1 4 : Node ℚ) 0 {} ≤ 8 * nominalService {} := by
    decide +kernel
  exact_mod_cast hlimit ⟨Node.init 1 4, by simp [nodes], by exact_mod_cast hidle⟩

end SchedLm.Sim.WeightedScorers
