import SchedLm.Sim.Ledger
import SchedLm.Sim.Lease

/-!
The numbers of the report. The fractions that are shown of a run are fractions,
those shown for each class add up to those of the run, and the gaps shown for
each tool are no policy's doing: they are what any router can learn from.
-/

namespace SchedLm.Sim

open Runs

variable {K : Type} [Scalar K]

def fractionOf (part whole : K) : K := if whole = 0 then 0 else part / whole

def meanOf (values : List K) : K := if values = [] then 0 else values.sum / values.length

namespace KindStats

def hitRate (stats : KindStats K) : K := fractionOf stats.reusedBlocks stats.totalBlocks

def meanRegret (stats : KindStats K) : K := meanOf stats.regrets

end KindStats

namespace SimResult

def hitRate (result : SimResult K) : K := fractionOf result.reusedBlocks result.totalBlocks

def regimeMix (result : SimResult K) (regime : Regime) : K :=
  fractionOf ((result.regimes.lookup regime).getD 0 : ℕ)
    (OrderedDict.total id result.regimes : ℕ)

def coupledFraction (result : SimResult K) : K := fractionOf result.coupled result.successes

def meanRegret (result : SimResult K) : K := meanOf result.regrets

end SimResult

theorem fractionOf_mul {part whole : K} (h : whole = 0 → part = 0) :
    fractionOf part whole * whole = part := by
  unfold fractionOf
  split_ifs with hzero
  · rw [zero_mul, h hzero]
  · exact div_mul_cancel₀ part hzero

theorem fractionOf_nonneg {part whole : K} (hpart : 0 ≤ part) (hwhole : 0 ≤ whole) :
    0 ≤ fractionOf part whole := by
  unfold fractionOf
  split_ifs
  · exact le_rfl
  · exact div_nonneg hpart hwhole

theorem fractionOf_mem {part whole : K} (hnonneg : 0 ≤ part) (hle : part ≤ whole) :
    0 ≤ fractionOf part whole ∧ fractionOf part whole ≤ 1 := by
  have hwhole := hnonneg.trans hle
  refine ⟨fractionOf_nonneg hnonneg hwhole, ?_⟩
  unfold fractionOf
  split_ifs
  · exact zero_le_one
  · exact div_le_one_of_le₀ hle hwhole

theorem meanOf_mul (values : List K) : meanOf values * values.length = values.sum := by
  unfold meanOf
  split_ifs with hnil
  · rw [hnil, zero_mul, List.sum_nil]
  · have hne : (values.length : K) ≠ 0 :=
      Nat.cast_ne_zero.mpr fun hlen => hnil (List.length_eq_zero_iff.mp hlen)
    exact div_mul_cancel₀ _ hne

theorem meanOf_nonneg {values : List K} (h : ∀ value ∈ values, 0 ≤ value) :
    0 ≤ meanOf values := by
  unfold meanOf
  split_ifs
  · exact le_rfl
  · exact div_nonneg (List.sum_nonneg h) (Nat.cast_nonneg _)

/-- A slice of the metrics with as many regrets as requests, none negative, and
no more blocks reused than seen. -/
structure KindStats.Sound (stats : KindStats K) : Prop where
  count : stats.regrets.length = stats.count
  regrets : ∀ regret ∈ stats.regrets, 0 ≤ regret
  reused_nonneg : 0 ≤ stats.reusedBlocks
  reused_le : stats.reusedBlocks ≤ stats.totalBlocks

/-- Every slice is sound, and the regrets on file for the classes are those of
the run. -/
structure SimResult.Filed (result : SimResult K) : Prop where
  kinds : ∀ kind stats, result.byKind.lookup kind = some stats → stats.Sound
  regrets : ∀ regret ∈ result.regrets, 0 ≤ regret
  total : OrderedDict.total (fun stats : KindStats K => stats.regrets.sum) result.byKind =
    result.regrets.sum

namespace SimResult.Filed

variable {result : SimResult K}

theorem start : SimResult.Filed ({} : SimResult K) :=
  ⟨fun _ _ h => (by cases h), fun _ h => absurd h List.not_mem_nil, rfl⟩

theorem recordGap (h : result.Filed) (tool : Option String) (gap : Option K) :
    (result.recordGap tool gap).Filed := by
  rw [SimResult.recordGap_frame]
  exact ⟨h.kinds, h.regrets, h.total⟩

/-- The slice of the request's class, before and after its turn. -/
theorem sound_getD (h : result.Filed) (kind : Kind) :
    ((result.byKind.lookup kind).getD {}).Sound := by
  cases hlookup : result.byKind.lookup kind with
  | none => exact ⟨rfl, List.forall_mem_nil _, le_rfl, le_rfl⟩
  | some stats => exact h.kinds kind stats hlookup

theorem recordTurn {σ : Type} (h : result.Filed) (params : CostParams K) (req : TurnRequest K)
    (t : Turn K σ) : (result.recordTurn params req t).Filed := by
  have hregret : 0 ≤ t.regret := le_max_left _ _
  have hold := h.sound_getD req.kind
  refine ⟨?_, ?_, ?_⟩
  · intro kind stats hlookup
    rcases eq_or_ne kind req.kind with rfl | hne
    · have hstats := (OrderedDict.lookup_setItem _ _ _).symm.trans hlookup
      obtain rfl := Option.some.inj hstats
      have hnonneg := t.resident_nonneg req
      have hle := t.resident_le req
      have hbefore := hold.reused_le
      refine ⟨?_, ?_, add_nonneg hold.reused_nonneg hnonneg, ?_⟩
      · change (_ ++ [t.regret]).length = _ + 1
        rw [List.length_append, List.length_singleton, hold.count]
      · exact List.forall_mem_append.mpr ⟨hold.regrets, List.forall_mem_singleton.mpr hregret⟩
      · push_cast
        omega
    · exact h.kinds kind stats ((OrderedDict.lookup_setItem_ne hne).symm.trans hlookup)
  · exact List.forall_mem_append.mpr ⟨h.regrets, List.forall_mem_singleton.mpr hregret⟩
  · change OrderedDict.total _ (OrderedDict.setItem result.byKind req.kind _) =
      (result.regrets ++ [t.regret]).sum
    rw [List.sum_append, List.sum_singleton, ← h.total]
    apply OrderedDict.total_setItem
    change (_ ++ [t.regret]).sum = _
    rw [List.sum_append, List.sum_singleton]
    cases result.byKind.lookup req.kind <;> rfl

end SimResult.Filed

/-- The numbers of a run that the report shows, against each other: fractions between
zero and one, a mix that adds up to one, and means of the run that are the weighted
means of its classes. -/
structure Reported (requests : List (TurnRequest K)) (result : SimResult K) : Prop where
  hitRate : 0 ≤ result.hitRate ∧ result.hitRate ≤ 1
  coupledFraction : 0 ≤ result.coupledFraction ∧ result.coupledFraction ≤ 1
  meanRegret : 0 ≤ result.meanRegret
  regimeMix_nonneg : ∀ regime, 0 ≤ result.regimeMix regime
  regimeMix_sum : requests ≠ [] →
    result.regimeMix .wait + result.regimeMix .transfer + result.regimeMix .recompute = 1
  kinds : ∀ kind stats, result.byKind.lookup kind = some stats →
    0 ≤ stats.meanRegret ∧ 0 ≤ stats.hitRate ∧ stats.hitRate ≤ 1
  /-- The hit rate is the mean of those of the classes, by their blocks. -/
  hitRate_mean : result.hitRate * result.totalBlocks =
    OrderedDict.total (fun stats => stats.hitRate * (stats.totalBlocks : K)) result.byKind
  /-- The regret is the mean of those of the classes, by their requests. -/
  meanRegret_mean : result.meanRegret * result.successes =
    OrderedDict.total (fun stats => stats.meanRegret * (stats.count : K)) result.byKind

theorem regimes_total (regimes : OrderedDict Regime ℕ) :
    OrderedDict.total id regimes = (regimes.lookup .wait).getD 0 +
      (regimes.lookup .transfer).getD 0 + (regimes.lookup .recompute).getD 0 := by
  have hkeys : ∀ regime ∈ regimes,
      regime ∈ ({.wait, .transfer, .recompute} : Finset Regime) := by
    intro regime _
    cases regime <;> decide
  rw [OrderedDict.total_eq_sum_lookup id hkeys, Finset.sum_insert (by decide),
    Finset.sum_insert (by decide), Finset.sum_singleton, ← add_assoc]
  simp only [Option.map_id_fun, id_eq]

theorem reported {requests : List (TurnRequest K)} {result : SimResult K}
    (haccounted : Accounted requests result) (hfiled : result.Filed) :
    Reported requests result := by
  have hrate : ∀ (reused : ℤ) (total : ℕ), 0 ≤ reused → reused ≤ total →
      (0 ≤ fractionOf (reused : K) total ∧ fractionOf (reused : K) total ≤ 1) ∧
        fractionOf (reused : K) total * total = reused := by
    intro reused total hnonneg hle
    refine ⟨fractionOf_mem (by exact_mod_cast hnonneg) (by exact_mod_cast hle),
      fractionOf_mul fun hzero => ?_⟩
    have htotal : total = 0 := Nat.cast_eq_zero.mp hzero
    exact_mod_cast (by omega : reused = 0)
  refine ⟨?_, ?_, ?_, ?_, ?_, ?_, ?_, ?_⟩
  · exact (hrate _ _ haccounted.reused_nonneg haccounted.reused_le).1
  · exact fractionOf_mem (Nat.cast_nonneg _) (Nat.cast_le.mpr haccounted.coupled)
  · exact meanOf_nonneg hfiled.regrets
  · exact fun regime => fractionOf_nonneg (Nat.cast_nonneg _) (Nat.cast_nonneg _)
  · intro hne
    have htotal : ((OrderedDict.total id result.regimes : ℕ) : K) ≠ 0 := by
      rw [haccounted.regimes]
      exact Nat.cast_ne_zero.mpr fun hlen => hne (List.length_eq_zero_iff.mp hlen)
    unfold SimResult.regimeMix fractionOf
    rw [if_neg htotal, if_neg htotal, if_neg htotal, ← add_div, ← add_div,
      div_eq_one_iff_eq htotal, regimes_total]
    push_cast
    rfl
  · intro kind stats hlookup
    have hsound := hfiled.kinds kind stats hlookup
    exact ⟨meanOf_nonneg hsound.regrets, (hrate _ _ hsound.reused_nonneg hsound.reused_le).1⟩
  · calc result.hitRate * result.totalBlocks
        = Int.castAddHom K result.reusedBlocks :=
          (hrate _ _ haccounted.reused_nonneg haccounted.reused_le).2
      _ = OrderedDict.total (fun stats : KindStats K => Int.castAddHom K stats.reusedBlocks)
            result.byKind := by rw [← haccounted.reused, OrderedDict.total_comp]
      _ = OrderedDict.total (fun stats => stats.hitRate * (stats.totalBlocks : K))
            result.byKind := by
          apply OrderedDict.total_congr
          intro kind stats hlookup
          have hsound := hfiled.kinds kind stats hlookup
          exact (hrate _ _ hsound.reused_nonneg hsound.reused_le).2.symm
  · calc result.meanRegret * result.successes
        = result.regrets.sum := by
          rw [haccounted.successes, ← haccounted.regrets]
          exact meanOf_mul result.regrets
      _ = OrderedDict.total (fun stats : KindStats K => stats.regrets.sum) result.byKind :=
          hfiled.total.symm
      _ = OrderedDict.total (fun stats => stats.meanRegret * (stats.count : K))
            result.byKind := by
          apply OrderedDict.total_congr
          intro kind stats hlookup
          rw [← (hfiled.kinds kind stats hlookup).count]
          exact (meanOf_mul stats.regrets).symm

section Run

variable {requests : List (TurnRequest K)} {policy : Policy K} {numNodes : ℕ}
  {cacheBlocks : ℤ} {params : CostParams K} {belady : Bool}

theorem simAfter_filed {k : ℕ} (hk : k ≤ requests.length) {s : SimState K policy.State}
    (hrun : simAfter requests policy numNodes cacheBlocks params belady k = .ok s) :
    s.result.Filed := by
  refine simAfter_induction (fun _ (s : SimState K policy.State) => s.result.Filed)
    SimResult.Filed.start ?_ hk hrun
  rintro k s req s' - - hfiled hstep
  obtain ⟨t, node, -, -, rfl⟩ := simStep_eq_ok hstep
  exact (hfiled.recordGap _ _).recordTurn params req t

/-- Whatever the policy, the cluster and the stream, the fractions the report shows of a
finished run are fractions, the regime mix adds up to one, and the hit rate and the
regret of the run are the means of those of its classes, weighted by their blocks and
requests. -/
theorem report_adds_up {result : SimResult K}
    (hrun : runSimulation requests policy numNodes cacheBlocks params belady = .ok result) :
    Reported requests result := by
  unfold runSimulation at hrun
  obtain ⟨s, hs, hresult⟩ := bind_eq_ok.mp hrun
  obtain rfl := Except.ok.inj hresult
  obtain ⟨turns, hlen, hfiles, -⟩ := exists_files le_rfl hs
  rw [List.take_length] at hfiles
  have hfiled := simAfter_filed le_rfl hs
  exact reported ((hfiles.countPinned _).accounted hlen)
    ⟨hfiled.kinds, hfiled.regrets, hfiled.total⟩

end Run

/-- Two classes that share a block. -/
theorem report_adds_up_two :
    ∃ result, runSimulation turnAndOneshot roundRobin 2 8 {} = .ok result ∧
      Reported turnAndOneshot result := by
  have hreturns : ∃ result, runSimulation turnAndOneshot roundRobin 2 8 {} = .ok result :=
    runSimulation_returns (roundRobin_answers two_pos) two_pos (by norm_num) (by norm_num)
  obtain ⟨result, hrun⟩ := hreturns
  exact ⟨result, hrun, report_adds_up hrun⟩

/-- The observation a request makes, when there is a gap and a tool to file it
under. -/
def observation (tool : Option String) (gap : Option K) : List (String × K) :=
  (gap.bind fun gap => tool.map fun tool => (tool, gap)).toList

/-- A last-seen table and the gaps observed so far, each with its tool. -/
abbrev GapLog (K : Type) := OrderedDict ℤ K × List (String × K)

def observe (log : GapLog K) (req : TurnRequest K) : GapLog K :=
  let observed := observeGap log.1 req.conversationId req.toolName req.arrival
  (observed.2, log.2 ++ observation req.toolName observed.1)

def gapLog (requests : List (TurnRequest K)) : GapLog K := requests.foldl observe (∅, [])

def gapsOf (tool : String) (gaps : List (String × K)) : List K :=
  (gaps.filter fun entry => entry.1 = tool).map Prod.snd

def fileGap (table : OrderedDict String (List K)) (entry : String × K) :
    OrderedDict String (List K) :=
  OrderedDict.setItem table entry.1 ((table.lookup entry.1).getD [] ++ [entry.2])

omit [Scalar K] in
theorem gapsOf_append_singleton (tool : String) (gaps : List (String × K)) (entry : String × K) :
    gapsOf tool (gaps ++ [entry]) =
      gapsOf tool gaps ++ if entry.1 = tool then [entry.2] else [] := by
  unfold gapsOf
  rw [List.filter_append, List.map_append, List.filter_singleton]
  by_cases htool : entry.1 = tool <;> simp [htool]

omit [Scalar K] in
theorem lookup_fileGap (gaps : List (String × K)) (tool : String) :
    (gaps.foldl fileGap ∅).lookup tool =
      if gapsOf tool gaps = [] then none else some (gapsOf tool gaps) := by
  induction gaps using List.reverseRecOn with
  | nil => rfl
  | append_singleton gaps entry ih =>
    rw [List.foldl_append, List.foldl_cons, List.foldl_nil, gapsOf_append_singleton]
    by_cases htool : entry.1 = tool
    · rw [if_pos htool, if_neg (by simp)]
      change (OrderedDict.setItem (gaps.foldl fileGap ∅) entry.1 _).lookup tool = _
      rw [htool, OrderedDict.lookup_setItem, ih]
      split_ifs with hnone
      · rw [hnone]
        rfl
      · rfl
    · rw [if_neg htool, List.append_nil, ← ih]
      exact OrderedDict.lookup_setItem_ne fun h => htool h.symm

omit [Scalar K] in
theorem SimResult.recordGap_gapByTool (result : SimResult K) (tool : Option String)
    (gap : Option K) : (result.recordGap tool gap).gapByTool =
      (observation tool gap).foldl fileGap result.gapByTool := by
  cases gap with
  | none => rfl
  | some gap => cases tool <;> rfl

theorem ClassAwareReliability.learn_index (c : ClassAwareReliability K) (req : RequestView)
    (now : K) : (c.learn req now).index = (observation req.lastToolName
      (observeGap c.lastSeen req.conversationId req.lastToolName now).1).foldl
        (fun index entry => index.record entry.1 entry.2) c.index := by
  rw [learn_eq]
  generalize (observeGap c.lastSeen req.conversationId req.lastToolName now).1 = gap
  cases gap with
  | none => rfl
  | some gap => cases req.lastToolName <;> rfl

theorem gapLog_take_succ {requests : List (TurnRequest K)} {k : ℕ} {req : TurnRequest K}
    (h : requests[k]? = some req) :
    gapLog (requests.take (k + 1)) = observe (gapLog (requests.take k)) req := by
  unfold gapLog
  rw [List.take_add_one, h, Option.toList_some, List.foldl_append]
  rfl

section Learned

variable {requests : List (TurnRequest K)} {numNodes : ℕ} {cacheBlocks : ℤ}
  {params : CostParams K} {belady : Bool}

/-- After `k` requests the engine has seen and filed what there is to observe in them.
The policy has no part in it. -/
theorem simAfter_gapLog {policy : Policy K} {k : ℕ} (hk : k ≤ requests.length)
    {s : SimState K policy.State}
    (hrun : simAfter requests policy numNodes cacheBlocks params belady k = .ok s) :
    s.lastSeen = (gapLog (requests.take k)).1 ∧
      s.result.gapByTool = (gapLog (requests.take k)).2.foldl fileGap ∅ := by
  refine simAfter_induction (fun k (s : SimState K policy.State) =>
    s.lastSeen = (gapLog (requests.take k)).1 ∧
      s.result.gapByTool = (gapLog (requests.take k)).2.foldl fileGap ∅) ⟨rfl, rfl⟩ ?_ hk hrun
  rintro k s req s' hreq - ⟨hseen, hgaps⟩ hstep
  obtain ⟨t, node, -, -, rfl⟩ := simStep_eq_ok hstep
  rw [gapLog_take_succ hreq, hseen]
  refine ⟨rfl, ?_⟩
  change (s.result.recordGap req.toolName _).gapByTool = _
  unfold observe
  rw [SimResult.recordGap_gapByTool, hgaps, List.foldl_append]

/-- After `k` requests the policy has learned what there is to observe in them, in its
own copy of the last-seen table. -/
theorem simAfter_learns {c : ClassAwareReliability K} (hfresh : c.lastSeen = ∅) {k : ℕ}
    (hk : k ≤ requests.length) {s : SimState K (ClassAwareReliability.policy c).State}
    (hrun : simAfter requests (ClassAwareReliability.policy c) numNodes cacheBlocks params belady
      k = .ok s) :
    s.policy.lastSeen = (gapLog (requests.take k)).1 ∧
      s.policy.index = (gapLog (requests.take k)).2.foldl
        (fun index entry => index.record entry.1 entry.2) c.index := by
  refine simAfter_induction
    (fun k (s : SimState K (ClassAwareReliability.policy c).State) =>
      s.policy.lastSeen = (gapLog (requests.take k)).1 ∧
        s.policy.index = (gapLog (requests.take k)).2.foldl
          (fun index entry => index.record entry.1 entry.2) c.index) ⟨hfresh, rfl⟩ ?_ hk hrun
  rintro k s req s' hreq - ⟨hseen, hindex⟩ hstep
  obtain ⟨t, node, hroute, -, rfl⟩ := simStep_eq_ok hstep
  obtain ⟨place, -, hcall⟩ := bind_eq_ok.mp (routeTurn_eq_ok hroute).call
  obtain ⟨hlearned, -⟩ := Prod.mk.inj (Except.ok.inj hcall)
  change t.policy.lastSeen = _ ∧ t.policy.index = _
  rw [← hlearned, gapLog_take_succ hreq]
  unfold observe
  rw [List.foldl_append, ← hindex, ← hseen]
  constructor
  · rw [ClassAwareReliability.learn_eq]
    rfl
  · exact s.policy.learn_index (requestView req) req.arrival

end Learned

/-- The table of gaps in the report is the same whoever served the stream, lists under
each tool its gaps in order, and is what the reliability policy learns from: after so
many requests its index is the fold of those gaps over the one it started with, no more
and no less. -/
theorem gap_table_is_what_is_learned (requests : List (TurnRequest K)) :
    (∃ table : OrderedDict String (List K),
      (∀ tool, table.lookup tool = if gapsOf tool (gapLog requests).2 = [] then none
        else some (gapsOf tool (gapLog requests).2)) ∧
      ∀ (policy : Policy K) numNodes cacheBlocks params belady result,
        runSimulation requests policy numNodes cacheBlocks params belady = .ok result →
          result.gapByTool = table) ∧
    ∀ c : ClassAwareReliability K, c.lastSeen = ∅ →
      ∀ numNodes cacheBlocks params belady k s, k ≤ requests.length →
        simAfter requests (ClassAwareReliability.policy c) numNodes cacheBlocks params belady k =
          .ok s → s.policy.index = (gapLog (requests.take k)).2.foldl
            (fun index entry => index.record entry.1 entry.2) c.index := by
  constructor
  · refine ⟨(gapLog requests).2.foldl fileGap ∅, lookup_fileGap _, ?_⟩
    intro policy numNodes cacheBlocks params belady result hrun
    unfold runSimulation at hrun
    obtain ⟨s, hs, hresult⟩ := bind_eq_ok.mp hrun
    obtain rfl := Except.ok.inj hresult
    have hgaps := (simAfter_gapLog le_rfl hs).2
    rwa [List.take_length] at hgaps
  · intro c hfresh numNodes cacheBlocks params belady k s hk hs
    exact (simAfter_learns hfresh hk hs).2

def searchTwice : List (TurnRequest ℚ) :=
  [{ arrival := 0, tokens := [], blockHashes := [7], genTokens := 10,
     conversationId := some 0 },
   { arrival := 2, tokens := [], blockHashes := [7, 8], genTokens := 10,
     conversationId := some 0, toolName := some "search" }]

/-- Its one gap stands in the table whoever serves it, and is what the reliability
policy has recorded by the end. -/
theorem gap_table_is_what_is_learned_two :
    (∃ result, runSimulation searchTwice roundRobin 2 8 {} = .ok result ∧
      result.gapByTool.lookup "search" = some [2]) ∧
    ∃ s, simAfter searchTwice (ClassAwareReliability.policy {}) 2 8 {} false 2 = .ok s ∧
      s.policy.index = ToolGapIndex.record {} "search" (2 : ℚ) := by
  constructor
  · have hreturns : ∃ result, runSimulation searchTwice roundRobin 2 8 {} = .ok result :=
      runSimulation_returns (roundRobin_answers two_pos) two_pos (by norm_num) (by norm_num)
    obtain ⟨result, hrun⟩ := hreturns
    obtain ⟨⟨table, htable, hruns⟩, -⟩ := gap_table_is_what_is_learned searchTwice
    have hgaps : gapsOf "search" (gapLog searchTwice).2 = [2] := by decide +kernel
    refine ⟨result, hrun, ?_⟩
    rw [hruns roundRobin 2 8 {} false result hrun, htable, hgaps]
    rfl
  · have hreturns : (simAfter searchTwice (ClassAwareReliability.policy {}) 2 8 {} false 2).map
        (fun s => s.idx) = .ok 2 := by decide +kernel
    obtain ⟨s, hrun, -⟩ := map_eq_ok.mp hreturns
    have hlog : (gapLog (searchTwice.take 2)).2 = [("search", 2)] := by decide +kernel
    have hlearned := (gap_table_is_what_is_learned searchTwice).2 {} rfl 2 8 {} false 2 s le_rfl
      hrun
    rw [hlog] at hlearned
    exact ⟨s, hrun, hlearned⟩

end SchedLm.Sim
