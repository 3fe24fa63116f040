import SchedLm.Gateway.Session
import SchedLm.Gateway.ToolGap
import SchedLm.Sim.GapHistory

/-!
The plugin's tables as functions of all that has been recorded and observed, and
beside them the simulator's: both are the same bounded tables in order of use,
so both answer the same from the same history.
-/

namespace SchedLm.Gateway

open OrderedDict (FinalRun UsedWithin)

variable {K : Type} [Scalar K]

def GapStat.observeInto (alpha : K) (stat : Option (GapStat K)) (gap : K) : GapStat K :=
  (stat.getD {}).observe alpha gap

/-- Observing keeps the running mean and variance of the gaps. -/
theorem GapStat.foldl_observeInto (alpha : K) {gaps : List K} (hne : gaps ≠ []) :
    (gaps.foldl (fun stat gap => some (GapStat.observeInto alpha stat gap)) none).map
        (fun stat => (stat.mean, stat.var)) =
      some (Ewma.mean alpha gaps, Ewma.variance alpha gaps) := by
  apply Ewma.foldl_kept (fun stat : GapStat K => (stat.mean, stat.var))
    (fun stat => stat.count ≠ 0)
  · intro gap
    exact ⟨Nat.succ_ne_zero 0, rfl⟩
  · intro stat gap hcount
    have hobserve : observeInto alpha (some stat) gap =
        { count := stat.count + 1
          mean := stat.mean + alpha * (gap - stat.mean)
          var := (1 - alpha) * (stat.var + alpha * (gap - stat.mean) * (gap - stat.mean)) } :=
      if_neg hcount
    rw [hobserve]
    exact ⟨Nat.succ_ne_zero _, rfl⟩
  · exact hne

namespace ToolGapIndex

def priorsOf (priors : Dict String (K × K)) : Dict String (GapPrior K) :=
  OrderedDict.mapValues (fun prior => { mean := prior.1, var := prior.2 }) priors

theorem capacity_newToolGapIndex {capacity : ℕ} (hcap : 1 ≤ capacity) (alpha : K)
    (priors : Dict String (GapPrior K)) :
    (newToolGapIndex capacity alpha priors).capacity = capacity := by
  unfold newToolGapIndex
  dsimp only
  rw [if_neg (by omega), Int.toNat_natCast]

theorem alpha_newToolGapIndex (capacity : ℤ) {alpha : K} (hpos : 0 < alpha) (hone : alpha ≤ 1)
    (priors : Dict String (GapPrior K)) :
    (newToolGapIndex capacity alpha priors).alpha = alpha :=
  if_neg (not_or.mpr ⟨not_le.mpr hpos, not_lt.mpr hone⟩)

def recordAll (idx : ToolGapIndex K) (records : List (String × K)) : ToolGapIndex K :=
  records.foldl (fun idx r => idx.record r.1 r.2) idx

/-- Recording touches the table, which stays a bounded one in order of use. -/
theorem recordAll_represents (idx : ToolGapIndex K) (hempty : idx.stats = {})
    (records : List (String × K)) :
    (idx.recordAll records).capacity = idx.capacity ∧
      (idx.recordAll records).alpha = idx.alpha ∧
      (idx.recordAll records).priors = idx.priors ∧
      (idx.recordAll records).defaultPrior = idx.defaultPrior ∧
      (idx.recordAll records).stats.Represents
        (OrderedDict.updateAll idx.capacity (GapStat.observeInto idx.alpha) records) := by
  induction records using List.reverseRecOn with
  | nil =>
    refine ⟨rfl, rfl, rfl, rfl, ?_⟩
    change idx.stats.Represents ∅
    rw [hempty]
    exact LinkedTable.represents_empty
  | append_singleton records r ih =>
    obtain ⟨hcapacity, halpha, hpriors, hdefault, hstats⟩ := ih
    have hrecord : idx.recordAll (records ++ [r]) = (idx.recordAll records).record r.1 r.2 := by
      rw [recordAll, List.foldl_append]
      rfl
    have hnext := record_represents hstats r.1 r.2
    rw [hcapacity, halpha] at hnext
    rw [hrecord, OrderedDict.updateAll_append_singleton]
    exact ⟨hcapacity, halpha, hpriors, hdefault, hnext⟩

theorem predict_recordAll (idx : ToolGapIndex K) (hempty : idx.stats = {})
    {records : List (String × K)} {tool : String} (htool : tool ≠ "") {gaps : List K}
    (hrun : FinalRun idx.capacity tool records gaps) :
    (idx.recordAll records).predict tool =
      Sim.estimate idx.alpha ((idx.priors.lookup tool).map fun prior => (prior.mean, prior.var))
        (idx.defaultPrior.mean, idx.defaultPrior.var) gaps := by
  obtain ⟨-, -, hpriors, hdefault, hstats⟩ := recordAll_represents idx hempty records
  rw [predict_eq hstats htool, hpriors, hdefault, hrun.lookup_eq]
  unfold Sim.estimate
  split_ifs with hgaps
  · rw [hgaps]
    cases idx.priors.lookup tool <;> rfl
  · obtain ⟨stat, hstat, hpair⟩ :=
      Option.map_eq_some_iff.mp (GapStat.foldl_observeInto idx.alpha hgaps)
    rw [hstat]
    exact hpair

end ToolGapIndex

/-- Both indexes, the plugin's and the simulator's, predict from the gaps of a tool's
final run: those recorded since the tool last came into the table. This holds after any
records, evictions included, for any capacity of one or more, any smoothing factor in
range and any priors, and what is predicted is a closed form in those gaps, whose mean
lies between the smallest and the largest of them. -/
theorem predict_eq_estimate (capacity : ℕ) (hcap : 1 ≤ capacity) (alpha : K) (hpos : 0 < alpha)
    (hone : alpha ≤ 1) (priors : Dict String (K × K)) (defaultPrior : K × K)
    (records : List (String × K)) (tool : String) (htool : tool ≠ "") :
    ∃ gaps : List K, (∀ run, FinalRun capacity tool records run ↔ run = gaps) ∧
      ((newToolGapIndex capacity alpha (ToolGapIndex.priorsOf priors)).recordAll records).predict
          tool =
        Sim.estimate alpha (priors.lookup tool) (defaultPriorMean, defaultPriorVar) gaps ∧
      (({ capacity := capacity, alpha := alpha, priors := priors, defaultPrior := defaultPrior } :
          Sim.ToolGapIndex K).recordAll records).predict (some tool) =
        Sim.estimate alpha (priors.lookup tool) defaultPrior gaps ∧
      (gaps ≠ [] → 0 ≤ Ewma.variance alpha gaps ∧
        ∃ smallest ∈ gaps, ∃ largest ∈ gaps, (∀ gap ∈ gaps, smallest ≤ gap ∧ gap ≤ largest) ∧
          smallest ≤ Ewma.mean alpha gaps ∧ Ewma.mean alpha gaps ≤ largest) := by
  obtain ⟨gaps, hrun⟩ := OrderedDict.exists_finalRun capacity tool records
  have hcapacity := ToolGapIndex.capacity_newToolGapIndex hcap alpha
    (ToolGapIndex.priorsOf priors)
  have halpha := ToolGapIndex.alpha_newToolGapIndex capacity hpos hone
    (ToolGapIndex.priorsOf priors)
  have hprior : ((ToolGapIndex.priorsOf priors).lookup tool).map
      (fun prior => (prior.mean, prior.var)) = priors.lookup tool := by
    rw [ToolGapIndex.priorsOf, OrderedDict.lookup_mapValues, Option.map_map]
    exact Option.map_id'
  refine ⟨gaps, ?_, ?_, ?_, ?_⟩
  · intro run
    constructor
    · intro h
      exact h.unique hrun
    · rintro rfl
      exact hrun
  · have hpredict := ToolGapIndex.predict_recordAll
      (newToolGapIndex capacity alpha (ToolGapIndex.priorsOf priors)) rfl htool
      (hcapacity.symm ▸ hrun)
    rw [halpha] at hpredict
    exact hpredict.trans (congrArg (Sim.estimate alpha · _ gaps) hprior)
  · exact Sim.ToolGapIndex.predict_recordAll _ rfl hrun
  · intro hne
    exact ⟨Ewma.variance_nonneg hpos.le hone gaps, Ewma.mean_between hpos.le hone hne⟩

/-- The same for a tool that has fallen out of a table of one and come back. -/
theorem predict_eq_estimate_refilled :
    ∃ gaps : List ℚ, (∀ run, FinalRun 1 "search" [("search", 2), ("python", 1), ("search", 4),
        ("search", 3)] run ↔ run = gaps) ∧
      ((newToolGapIndex (1 : ℕ) (3 / 10 : ℚ) (ToolGapIndex.priorsOf ∅)).recordAll [("search", 2),
          ("python", 1), ("search", 4), ("search", 3)]).predict "search" =
        Sim.estimate (3 / 10) ((∅ : Dict String (ℚ × ℚ)).lookup "search")
          (defaultPriorMean, defaultPriorVar) gaps ∧
      (({ capacity := 1, alpha := 3 / 10, priors := ∅, defaultPrior := (2, 16) } :
          Sim.ToolGapIndex ℚ).recordAll [("search", 2), ("python", 1), ("search", 4),
          ("search", 3)]).predict (some "search") =
        Sim.estimate (3 / 10) ((∅ : Dict String (ℚ × ℚ)).lookup "search") (2, 16) gaps ∧
      (gaps ≠ [] → 0 ≤ Ewma.variance (3 / 10) gaps ∧
        ∃ smallest ∈ gaps, ∃ largest ∈ gaps, (∀ gap ∈ gaps, smallest ≤ gap ∧ gap ≤ largest) ∧
          smallest ≤ Ewma.mean (3 / 10) gaps ∧ Ewma.mean (3 / 10) gaps ≤ largest) :=
  predict_eq_estimate 1 le_rfl (3 / 10) (by norm_num) (by norm_num) ∅ (2, 16) _ "search"
    (by decide)

structure Sighting where
  conversationKey : String
  tool : String
  time : Time
  deriving DecidableEq

namespace SessionTracker

def keyed (turns : List Sighting) : List (String × Time) :=
  (turns.filter fun turn => turn.conversationKey ≠ "").map fun turn =>
    (turn.conversationKey, turn.time)

def report (t : SessionTracker) (turn : Sighting) : Option K × SessionTracker :=
  t.observeGap turn.conversationKey turn.tool turn.time

def reportAll (K : Type) [Scalar K] (t : SessionTracker) (turns : List Sighting) :
    SessionTracker :=
  turns.foldl (fun t turn => (t.report turn : Option K × SessionTracker).2) t

/-- The table of last-seen times, after any turns, is a bounded one in order of use, and
has the last time of each conversation it keeps. -/
theorem reportAll_represents (t : SessionTracker) (hempty : t.seen = {})
    (turns : List Sighting) :
    (t.reportAll K turns).capacity = t.capacity ∧
      (t.reportAll K turns).seen.Represents
        (OrderedDict.updateAll t.capacity (fun _ time => time) (keyed turns)) := by
  induction turns using List.reverseRecOn with
  | nil =>
    refine ⟨rfl, ?_⟩
    change t.seen.Represents ∅
    rw [hempty]
    exact LinkedTable.represents_empty
  | append_singleton turns turn ih =>
    obtain ⟨hcapacity, hseen⟩ := ih
    have hturn : t.reportAll K (turns ++ [turn]) =
        if turn.conversationKey = "" then t.reportAll K turns
        else (t.reportAll K turns).touch turn.conversationKey turn.time := by
      rw [reportAll, List.foldl_append]
      exact observeGap_snd
    have hkeyed : keyed (turns ++ [turn]) = keyed turns ++
        if turn.conversationKey = "" then [] else [(turn.conversationKey, turn.time)] := by
      rw [keyed, List.filter_append, List.map_append, keyed]
      by_cases hkey : turn.conversationKey = "" <;> simp [hkey]
    rw [hturn, hkeyed]
    split_ifs with hkey
    · rw [List.append_nil]
      exact ⟨hcapacity, hseen⟩
    · have hnext := touch_represents hseen turn.conversationKey turn.time
      rw [hcapacity] at hnext
      rw [OrderedDict.updateAll_append_singleton]
      exact ⟨hcapacity, hnext⟩

theorem report_eq_some_iff (t : SessionTracker) (hempty : t.seen = {}) (turns : List Sighting)
    {turn : Sighting} {gap : K} :
    ((t.reportAll K turns).report turn).1 = some gap ↔
      turn.conversationKey ≠ "" ∧ turn.tool ≠ "" ∧ ∃ last,
        UsedWithin t.capacity (keyed turns) turn.conversationKey last ∧
        gap = (Time.sub turn.time last).seconds := by
  obtain ⟨-, hseen⟩ := reportAll_represents (K := K) t hempty turns
  unfold report
  rw [observeGap_fst_eq_some]
  simp only [lastSeen_eq hseen, OrderedDict.lookup_stored_iff]

def seenAfter (K : Type) [Scalar K] (capacity : ℕ) (turns : List Sighting) : SessionTracker :=
  reportAll K (newSessionTracker capacity) turns

theorem capacity_newSessionTracker {capacity : ℕ} (hcap : 1 ≤ capacity) :
    (newSessionTracker capacity).capacity = capacity := by
  unfold newSessionTracker
  dsimp only
  rw [if_neg (by omega), Int.toNat_natCast]

theorem seconds_sub_eq {now last : Time} (hfits : |now - last| ≤ maxDuration) :
    (Time.sub now last).seconds = ((now - last : ℤ) : K) / 1000000000 := by
  have hlow : minDuration ≤ now - last := by
    have hmin : minDuration ≤ -maxDuration := by decide
    exact hmin.trans (neg_le_of_abs_le hfits)
  rw [Duration.seconds, Time.sub, min_eq_left ((le_abs_self _).trans hfits), max_eq_right hlow]

/-- What the plugin's tracker does on one turn more. The clock's difference of
two times is the exact one as long as it fits. -/
structure Measures (capacity : ℕ) (turns : List Sighting) (turn : Sighting) (gap : K) : Prop where
  reports : ((seenAfter K capacity turns).report turn).1 = some gap ↔
    turn.conversationKey ≠ "" ∧ turn.tool ≠ "" ∧ ∃ last,
      UsedWithin capacity (keyed turns) turn.conversationKey last ∧
      gap = (Time.sub turn.time last).seconds ∧
      (|turn.time - last| ≤ maxDuration → gap = ((turn.time - last : ℤ) : K) / 1000000000)
  keyless : turn.conversationKey = "" →
    ((seenAfter K capacity turns).report turn : Option K × SessionTracker).2 =
      seenAfter K capacity turns
  bounded : (seenAfter K capacity turns).seen.len ≤ capacity ∧
    (seenAfter K capacity turns).seen.index.keys.length ≤ capacity

theorem measures {capacity : ℕ} (hcap : 1 ≤ capacity) (turns : List Sighting) (turn : Sighting)
    (gap : K) : Measures capacity turns turn gap where
  reports := by
    have hreport : ((seenAfter K capacity turns).report turn).1 = some gap ↔ _ :=
      report_eq_some_iff (newSessionTracker capacity) rfl turns
    rw [capacity_newSessionTracker hcap] at hreport
    apply hreport.trans
    constructor
    · rintro ⟨hkey, htool, last, hused, hgap⟩
      exact ⟨hkey, htool, last, hused, hgap, fun hfits => hgap.trans (seconds_sub_eq hfits)⟩
    · rintro ⟨hkey, htool, last, hused, hgap, -⟩
      exact ⟨hkey, htool, last, hused, hgap⟩
  keyless := fun hkey => observeGap_snd.trans (if_pos hkey)
  bounded := by
    obtain ⟨-, hseen⟩ : _ ∧ (seenAfter K capacity turns).seen.Represents _ :=
      reportAll_represents (newSessionTracker capacity) rfl turns
    rw [capacity_newSessionTracker hcap] at hseen
    have hlen : (OrderedDict.updateAll capacity (fun _ time => time) (keyed turns)).len ≤
        capacity := OrderedDict.len_updateAll_le _
    exact ⟨hseen.len_eq.trans_le hlen, hseen.length_keys_index_le.trans hlen⟩

end SessionTracker

/-- Both trackers measure a gap exactly from a conversation's latest turn, and do so
while fewer other conversations than the capacity have been seen since: after any turns,
for any capacity of one or more, on a clock that may also go back. -/
theorem both_measure_gaps (capacity : ℕ) (hcap : 1 ≤ capacity) (turns : List Sighting)
    (turn : Sighting) (simTurns : List (Sim.Sighting K)) (simTurn : Sim.Sighting K) (gap : K) :
    SessionTracker.Measures capacity turns turn gap ∧
      Sim.Sighting.Measures capacity simTurns simTurn gap :=
  ⟨SessionTracker.measures hcap turns turn gap,
    Sim.Sighting.measures capacity simTurns simTurn gap⟩

/-- In a table of one, the turn before last, with another conversation since. -/
theorem both_measure_gaps_one :
    SessionTracker.Measures 1 [⟨"a", "", 0⟩, ⟨"b", "search", 1000000000⟩]
        ⟨"a", "search", 2000000000⟩ (2 : ℚ) ∧
      Sim.Sighting.Measures 1 [⟨some 1, none, 0⟩, ⟨some 2, some "search", 1⟩]
        ⟨some 1, some "search", 2⟩ (2 : ℚ) :=
  both_measure_gaps 1 le_rfl _ _ _ _ 2

end SchedLm.Gateway
