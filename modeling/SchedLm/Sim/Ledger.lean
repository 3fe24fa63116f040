import SchedLm.Sim.EngineReturns

/-!
The books of a run. A turn files its TTFT, its regime, its regret and its
reused blocks on parallel paths, once for the run and once for the request's
class; here all of them are read off the list of turns served.
-/

namespace SchedLm.Sim

open Runs

variable {K : Type} [Scalar K]

def ofKind (kind : Kind) (requests : List (TurnRequest K)) (values : List K) : List K :=
  ((requests.zip values).filter fun e => e.1.kind = kind).map Prod.snd

/-- What holds of the metrics once every request has been served: every list has one
entry for each request, the classes on file are those of the stream with their entries
in its order, and the counts of the classes add up to those of the run. -/
structure Accounted (requests : List (TurnRequest K)) (result : SimResult K) : Prop where
  successes : result.successes = requests.length
  ttfts : result.ttfts.length = requests.length
  e2eLatencies : result.e2eLatencies.length = requests.length
  regrets : result.regrets.length = requests.length
  regimes : OrderedDict.total id result.regimes = requests.length
  reused_nonneg : 0 ≤ result.reusedBlocks
  reused_le : result.reusedBlocks ≤ result.totalBlocks
  coupled : result.coupled ≤ result.successes
  kinds : ∀ kind, kind ∈ result.byKind ↔ ∃ req ∈ requests, req.kind = kind
  kindTtfts : ∀ kind stats, result.byKind.lookup kind = some stats →
    stats.ttfts = ofKind kind requests result.ttfts
  kindRegrets : ∀ kind stats, result.byKind.lookup kind = some stats →
    stats.regrets = ofKind kind requests result.regrets
  counts : OrderedDict.total KindStats.count result.byKind = result.successes
  reused : OrderedDict.total KindStats.reusedBlocks result.byKind = result.reusedBlocks
  total : OrderedDict.total KindStats.totalBlocks result.byKind = result.totalBlocks

def Turn.missing {σ : Type} (t : Turn K σ) (req : TurnRequest K) : ℤ :=
  (req.blockHashes.length : ℤ) - (t.node.matched req.blockHashes +
    movedBlocks req.blockHashes t.node t.hot t.chosen.transfer)

/-- A recorded TTFT charges the queue, the transfer and the prefill of all
blocks but those the turn counts as reused. -/
structure Charged {σ : Type} (params : CostParams K) (req : TurnRequest K) (t : Turn K σ)
    (ttft : Option K) (reused : ℤ) : Prop where
  ttft : ∃ cost, params.transferTime
      (movedBlocks req.blockHashes t.node t.hot t.chosen.transfer) = .ok cost ∧
    ttft = some (t.node.wait req.arrival + cost + params.prefillTime (t.missing req))
  reused : reused = (req.blockHashes.length : ℤ) - t.missing req

namespace Turn

variable {σ : Type} (t : Turn K σ) (req : TurnRequest K)

/-- The engine's own count of resident blocks is the one the prediction uses. -/
theorem resident_eq : t.resident req = (req.blockHashes.length : ℤ) - t.missing req := by
  unfold resident residentBlocks missing movedBlocks
  ring

theorem resident_nonneg : 0 ≤ t.resident req := by
  unfold resident residentBlocks
  dsimp only
  split_ifs <;> omega

theorem resident_le : t.resident req ≤ req.blockHashes.length := by
  have hown := matchedPrefix_le_length req.blockHashes fun h => decide (h ∈ t.node.cache)
  have hhot := matchedPrefix_le_length req.blockHashes fun h => decide (h ∈ t.hot.cache)
  unfold resident residentBlocks Node.matched
  dsimp only
  split_ifs <;> omega

end Turn

/-- The slice of the metrics that a list of served turns makes up. -/
def statsOf {σ : Type} (served : List (TurnRequest K × Turn K σ)) : KindStats K where
  count := served.length
  ttfts := served.map fun e => e.2.realized.ttft
  regrets := served.map fun e => e.2.regret
  reusedBlocks := (served.map fun e => e.2.resident e.1).sum
  totalBlocks := (served.map fun e => e.1.blockHashes.length).sum

def servedOf {σ : Type} (kind : Kind) (served : List (TurnRequest K × Turn K σ)) :
    List (TurnRequest K × Turn K σ) :=
  served.filter fun e => e.1.kind = kind

/-- The metrics file exactly these turns, in order, in total and by class. This is the
invariant of the run, from which the books balance. -/
structure Files {σ : Type} (params : CostParams K) (served : List (TurnRequest K × Turn K σ))
    (result : SimResult K) : Prop where
  successes : result.successes = served.length
  ttfts : result.ttfts = served.map fun e => e.2.realized.ttft
  e2eLatencies : result.e2eLatencies = served.map fun e => e.2.e2eLatency params e.1
  regrets : result.regrets = served.map fun e => e.2.regret
  regimes : OrderedDict.total id result.regimes = served.length
  coupled : result.coupled ≤ served.length
  reusedBlocks : result.reusedBlocks = (served.map fun e => e.2.resident e.1).sum
  totalBlocks : result.totalBlocks = (served.map fun e => e.1.blockHashes.length).sum
  byKind : ∀ kind, result.byKind.lookup kind =
    if servedOf kind served = [] then none else some (statsOf (servedOf kind served))
  counts : OrderedDict.total KindStats.count result.byKind = result.successes
  reused : OrderedDict.total KindStats.reusedBlocks result.byKind = result.reusedBlocks
  total : OrderedDict.total KindStats.totalBlocks result.byKind = result.totalBlocks

namespace Files

variable {σ : Type} {params : CostParams K} {served : List (TurnRequest K × Turn K σ)}
  {result : SimResult K}

theorem nil : Files params ([] : List (TurnRequest K × Turn K σ)) {} where
  successes := rfl
  ttfts := rfl
  e2eLatencies := rfl
  regrets := rfl
  regimes := rfl
  coupled := le_rfl
  reusedBlocks := rfl
  totalBlocks := rfl
  byKind := fun _ => rfl
  counts := rfl
  reused := rfl
  total := rfl

theorem recordGap (h : Files params served result) (tool : Option String) (gap : Option K) :
    Files params served (result.recordGap tool gap) := by
  rw [SimResult.recordGap_frame]
  exact ⟨h.1, h.2, h.3, h.4, h.5, h.6, h.7, h.8, h.9, h.10, h.11, h.12⟩

theorem kindStats (h : Files params served result) (kind : Kind) :
    (result.byKind.lookup kind).getD {} = statsOf (servedOf kind served) := by
  rw [h.byKind]
  split_ifs with hnone
  · rw [hnone]
    rfl
  · rfl

/-- What a measure of the slices adds up to once one more turn is filed. -/
private theorem total_byKind {M : Type} [AddCommMonoid M] (h : Files params served result)
    (f : KindStats K → M) (hempty : f {} = 0) {kind : Kind} {stats : KindStats K} {m : M}
    (hstats : f stats = f (statsOf (servedOf kind served)) + m) :
    OrderedDict.total f (OrderedDict.setItem result.byKind kind stats) =
      OrderedDict.total f result.byKind + m := by
  apply OrderedDict.total_setItem
  rw [hstats, ← h.kindStats kind]
  cases result.byKind.lookup kind with
  | none => exact congrArg (· + m) hempty
  | some stored => rfl

/-- Filing a turn files it everywhere: in the lists of the run, among its regimes and in
the slice of its class. -/
theorem recordTurn (h : Files params served result) (req : TurnRequest K) (t : Turn K σ) :
    Files params (served ++ [(req, t)]) (result.recordTurn params req t) where
  successes := by
    simp only [SimResult.recordTurn, h.successes, List.length_append, List.length_singleton]
  ttfts := by
    simp only [SimResult.recordTurn, h.ttfts, List.map_append, List.map_singleton]
  e2eLatencies := by
    simp only [SimResult.recordTurn, h.e2eLatencies, List.map_append, List.map_singleton]
  regrets := by
    simp only [SimResult.recordTurn, h.regrets, List.map_append, List.map_singleton]
  regimes := by
    have hvalue : id ((result.regimes.lookup t.realized.regime).getD 0 + 1) =
        ((result.regimes.lookup t.realized.regime).map id).getD 0 + 1 := by
      rw [Option.map_id_fun]
      rfl
    rw [List.length_append, List.length_singleton, ← h.regimes]
    exact OrderedDict.total_setItem id hvalue
  coupled := by
    have hle := h.coupled
    simp only [SimResult.recordTurn, List.length_append, List.length_singleton]
    split_ifs <;> omega
  reusedBlocks := by
    simp only [SimResult.recordTurn, h.reusedBlocks, List.map_append, List.map_singleton,
      List.sum_append, List.sum_singleton]
  totalBlocks := by
    simp only [SimResult.recordTurn, h.totalBlocks, List.map_append, List.map_singleton,
      List.sum_append, List.sum_singleton]
  byKind := by
    intro kind
    rcases eq_or_ne kind req.kind with rfl | hne
    · have hserved : servedOf req.kind (served ++ [(req, t)]) =
          servedOf req.kind served ++ [(req, t)] := by
        simp [servedOf, List.filter_append]
      rw [hserved, if_neg (by simp)]
      simp only [SimResult.recordTurn, OrderedDict.lookup_setItem, h.kindStats]
      simp [statsOf]
    · have hserved : servedOf kind (served ++ [(req, t)]) = servedOf kind served := by
        simp [servedOf, List.filter_append, hne.symm]
      rw [hserved, ← h.byKind kind]
      exact OrderedDict.lookup_setItem_ne hne
  counts := by
    simp only [SimResult.recordTurn, h.kindStats]
    rw [h.total_byKind KindStats.count rfl rfl, h.counts]
  reused := by
    simp only [SimResult.recordTurn, h.kindStats]
    rw [h.total_byKind KindStats.reusedBlocks rfl rfl, h.reused]
  total := by
    simp only [SimResult.recordTurn, h.kindStats]
    rw [h.total_byKind KindStats.totalBlocks rfl rfl, h.total]

private theorem countReused (served : List (TurnRequest K × Turn K σ)) :
    0 ≤ (served.map fun e => e.2.resident e.1).sum ∧
      (served.map fun e => e.2.resident e.1).sum ≤
        ((served.map fun e => e.1.blockHashes.length).sum : ℕ) := by
  induction served with
  | nil => exact ⟨le_rfl, le_rfl⟩
  | cons e rest ih =>
    have hnonneg := e.2.resident_nonneg e.1
    have hle := e.2.resident_le e.1
    rw [List.map_cons, List.map_cons, List.sum_cons, List.sum_cons, Nat.cast_add]
    omega

private theorem map_servedOf {requests : List (TurnRequest K)} {turns : List (Turn K σ)}
    (hlen : turns.length = requests.length) (kind : Kind) (value : Turn K σ → K) :
    (servedOf kind (requests.zip turns)).map (fun e => value e.2) =
      ofKind kind requests ((requests.zip turns).map fun e => value e.2) := by
  unfold servedOf ofKind
  induction requests generalizing turns with
  | nil => rfl
  | cons req rest ih =>
    cases turns with
    | nil => cases hlen
    | cons t turns =>
      have htail := ih (Nat.succ.inj hlen)
      simp only [List.zip_cons_cons, List.map_cons, List.filter_cons]
      split_ifs
      · rw [List.map_cons, List.map_cons, htail]
      · exact htail

private theorem servedOf_ne_nil {requests : List (TurnRequest K)} {turns : List (Turn K σ)}
    (hlen : turns.length = requests.length) (kind : Kind) :
    servedOf kind (requests.zip turns) ≠ [] ↔ ∃ req ∈ requests, req.kind = kind := by
  have hfst : (requests.zip turns).map Prod.fst = requests :=
    List.map_fst_zip hlen.ge
  rw [servedOf, Ne, List.filter_eq_nil_iff]
  push Not
  constructor
  · rintro ⟨e, he, hkind⟩
    exact ⟨e.1, hfst ▸ List.mem_map_of_mem he, of_decide_eq_true hkind⟩
  · rintro ⟨req, hreq, hkind⟩
    rw [← hfst] at hreq
    obtain ⟨e, he, rfl⟩ := List.mem_map.mp hreq
    exact ⟨e, he, decide_eq_true hkind⟩

theorem countPinned {served : List (TurnRequest K × Turn K σ)}
    (h : Files params served result) (pinned : ℕ) :
    Files params served { result with pinnedEvictions := pinned } :=
  ⟨h.1, h.2, h.3, h.4, h.5, h.6, h.7, h.8, h.9, h.10, h.11, h.12⟩

/-- Metrics that file one turn for each request are accounted for. -/
theorem accounted {requests : List (TurnRequest K)} {turns : List (Turn K σ)}
    (hlen : turns.length = requests.length) (h : Files params (requests.zip turns) result) :
    Accounted requests result := by
  have hzip : (requests.zip turns).length = requests.length := by
    rw [List.length_zip, hlen, min_self]
  have hstats : ∀ kind stats, result.byKind.lookup kind = some stats →
      statsOf (servedOf kind (requests.zip turns)) = stats := by
    intro kind stats hlookup
    rw [h.byKind] at hlookup
    split_ifs at hlookup
    exact Option.some.inj hlookup
  refine ⟨?_, ?_, ?_, ?_, ?_, ?_, ?_, ?_, ?_, ?_, ?_, h.counts, h.reused, h.total⟩
  · rw [h.successes, hzip]
  · rw [h.ttfts, List.length_map, hzip]
  · rw [h.e2eLatencies, List.length_map, hzip]
  · rw [h.regrets, List.length_map, hzip]
  · rw [h.regimes, hzip]
  · rw [h.reusedBlocks]
    exact (countReused _).1
  · rw [h.reusedBlocks, h.totalBlocks]
    exact (countReused _).2
  · rw [h.successes]
    exact h.coupled
  · intro kind
    rw [← servedOf_ne_nil hlen, ← AList.lookup_isSome, h.byKind]
    split_ifs with hnone
    · simp [hnone]
    · simp [hnone]
  · intro kind stats hlookup
    rw [← hstats kind stats hlookup, h.ttfts]
    exact map_servedOf hlen kind fun t => t.realized.ttft
  · intro kind stats hlookup
    rw [← hstats kind stats hlookup, h.regrets]
    exact map_servedOf hlen kind Turn.regret

end Files

section Run

variable {requests : List (TurnRequest K)} {policy : Policy K} {numNodes : ℕ}
  {cacheBlocks : ℤ} {params : CostParams K} {belady : Bool}

/-- After `k` requests the metrics file the `k` turns visited. The induction is on `k`,
and each turn is filed by `recordTurn`. -/
theorem exists_files {k : ℕ} (hk : k ≤ requests.length) {s : SimState K policy.State}
    (hrun : simAfter requests policy numNodes cacheBlocks params belady k = .ok s) :
    ∃ turns : List (Turn K policy.State), turns.length = k ∧
      Files params ((requests.take k).zip turns) s.result ∧
      ∀ i t, turns[i]? = some t → ∃ before req,
        Visits requests policy numNodes cacheBlocks params belady i before req t := by
  refine simAfter_induction (fun k s => ∃ turns : List (Turn K policy.State),
      turns.length = k ∧ Files params ((requests.take k).zip turns) s.result ∧
      ∀ i t, turns[i]? = some t → ∃ before req,
        Visits requests policy numNodes cacheBlocks params belady i before req t) ?_ ?_ hk hrun
  · exact ⟨[], rfl, Files.nil, by simp⟩
  · rintro k s req s' hreq hbefore ⟨turns, hlen, hfiles, hvisits⟩ hstep
    obtain ⟨t, node, hroute, -, rfl⟩ := simStep_eq_ok hstep
    obtain ⟨hlt, -⟩ := List.getElem?_eq_some_iff.mp hreq
    refine ⟨turns ++ [t], by rw [List.length_append, hlen]; rfl, ?_, ?_⟩
    · have hzip : (requests.take (k + 1)).zip (turns ++ [t]) =
          (requests.take k).zip turns ++ [(req, t)] := by
        rw [List.take_add_one, hreq, List.zip_append (by rw [List.length_take, hlen]; omega)]
        rfl
      rw [hzip]
      exact (hfiles.recordGap _ _).recordTurn req t
    · intro i u hu
      rcases lt_or_ge i turns.length with hi | hi
      · rw [List.getElem?_append_left hi] at hu
        exact hvisits i u hu
      · rw [List.getElem?_append_right hi, List.getElem?_singleton] at hu
        split_ifs at hu with hzero
        obtain rfl := Option.some.inj hu
        obtain rfl : i = k := by omega
        exact ⟨s, req, hbefore, hreq, hroute⟩

/-- The TTFT of a turn charges prefill for all blocks but the resident ones. -/
theorem Visits.charged {k : ℕ} {s : SimState K policy.State} {req : TurnRequest K}
    {t : Turn K policy.State}
    (h : Visits requests policy numNodes cacheBlocks params belady k s req t) :
    Charged params req t (some t.realized.ttft) (t.resident req) := by
  obtain ⟨cost, hp⟩ := predict_eq_ok h.routed.realized
  exact ⟨⟨cost, hp.cost, congrArg some hp.ttft⟩, t.resident_eq req⟩

theorem Visits.reusedBlocks {k : ℕ} {s s' : SimState K policy.State} {req : TurnRequest K}
    {t : Turn K policy.State}
    (h : Visits requests policy numNodes cacheBlocks params belady k s req t)
    (hnext : simAfter requests policy numNodes cacheBlocks params belady (k + 1) = .ok s') :
    s'.result.reusedBlocks = s.result.reusedBlocks + t.resident req := by
  obtain ⟨node, -, rfl⟩ := h.after hnext
  rw [SimResult.recordGap_frame]
  rfl

/-- The books balance: whatever the stream, the policy, the cluster, the costs and the
eviction strategy, a finished run has accounted for every request once, in total and in
its class, and the TTFT on file for a request charges the queue, the transfer and the
prefill of all blocks but those counted as reused. A run with a node, room, a bandwidth
and a policy that answers does finish. -/
theorem runSimulation_accounted (requests : List (TurnRequest K)) (policy : Policy K)
    (numNodes : ℕ) (cacheBlocks : ℤ) (params : CostParams K) (belady : Bool) :
    (∀ result, runSimulation requests policy numNodes cacheBlocks params belady = .ok result →
      Accounted requests result ∧
        ∀ k req, requests[k]? = some req → ∃ s t s',
          Visits requests policy numNodes cacheBlocks params belady k s req t ∧
          simAfter requests policy numNodes cacheBlocks params belady (k + 1) = .ok s' ∧
          Charged params req t result.ttfts[k]?
            (s'.result.reusedBlocks - s.result.reusedBlocks)) ∧
    (policy.Answers numNodes params → 0 < numNodes → 0 ≤ cacheBlocks → params.bandwidth ≠ 0 →
      ∃ result, runSimulation requests policy numNodes cacheBlocks params belady = .ok result) := by
  refine ⟨?_, runSimulation_returns⟩
  intro result h
  unfold runSimulation at h
  rw [bind_eq_ok] at h
  obtain ⟨final, hfinal, hresult⟩ := h
  cases hresult
  obtain ⟨turns, hlen, hfiles, hvisits⟩ := exists_files le_rfl hfinal
  rw [List.take_length] at hfiles
  have hfinished := hfiles.countPinned (final.nodes.map Node.pinnedEvictions).sum
  refine ⟨hfinished.accounted hlen, ?_⟩
  intro k req hreq
  obtain ⟨hlt, -⟩ := List.getElem?_eq_some_iff.mp hreq
  obtain ⟨s, req', t, hvisit, s', hnext⟩ := Visits.exists_of_lt hlt le_rfl hfinal
  obtain rfl : req = req' := Option.some.inj (hreq.symm.trans hvisit.request)
  refine ⟨s, t, s', hvisit, hnext, ?_⟩
  obtain ⟨u, hu⟩ : ∃ u, turns[k]? = some u := ⟨turns[k], List.getElem?_eq_getElem (hlen ▸ hlt)⟩
  obtain ⟨before, req', hu'⟩ := hvisits k u hu
  obtain ⟨-, -, rfl⟩ := hvisit.unique hu'
  have hzip : (requests.zip turns)[k]? = some (req, t) :=
    List.getElem?_zip_eq_some.mpr ⟨hreq, hu⟩
  rw [hvisit.reusedBlocks hnext, add_sub_cancel_left, hfinished.ttfts, List.getElem?_map, hzip,
    Option.map_some]
  exact hvisit.charged

end Run

def turnAndOneshot : List (TurnRequest ℚ) :=
  [{ arrival := 0, tokens := [], blockHashes := [7, 8], genTokens := 10 },
    { arrival := 1, tokens := [], blockHashes := [7], genTokens := 5, kind := .oneshot }]

/-- Two requests of different classes on two nodes. -/
theorem runSimulation_accounted_two :
    ∃ result, runSimulation turnAndOneshot roundRobin 2 8 {} = .ok result ∧
      Accounted turnAndOneshot result := by
  have haccounted := runSimulation_accounted turnAndOneshot roundRobin 2 8 {} false
  obtain ⟨result, hresult⟩ :=
    haccounted.2 (roundRobin_answers two_pos) two_pos (by norm_num) (by norm_num)
  exact ⟨result, hresult, (haccounted.1 result hresult).1⟩

end SchedLm.Sim
