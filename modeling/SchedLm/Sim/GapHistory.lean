import SchedLm.Library.Ewma
import SchedLm.Library.Recency
import SchedLm.Sim.GapIndex

/-!
The gap tables as functions of all that has been recorded and observed. A tool's
statistic is the weighted mean and variance of the gaps since the tool last fell
out of the table; a conversation's gap is measured from its latest turn as long
as not too many other conversations have come in between.
-/

namespace SchedLm.Sim

open OrderedDict (FinalRun UsedWithin)

variable {K : Type} [Scalar K]

/-- What is predicted from a tool's gaps: their weighted mean and variance, else
the tool's prior, else the default prior. -/
def estimate (alpha : K) (prior : Option (K × K)) (defaultPrior : K × K) (gaps : List K) :
    K × K :=
  if gaps = [] then prior.getD defaultPrior
  else (Ewma.mean alpha gaps, Ewma.variance alpha gaps)

def GapStat.foldInto (alpha : K) (stat : Option (GapStat K)) (gap : K) : GapStat K :=
  (stat.getD {}).fold alpha gap

/-- Folding keeps the running mean and variance of the gaps. -/
theorem GapStat.foldl_foldInto (alpha : K) {gaps : List K} (hne : gaps ≠ []) :
    (gaps.foldl (fun stat gap => some (GapStat.foldInto alpha stat gap)) none).map
        (fun stat => (stat.mean, stat.var)) =
      some (Ewma.mean alpha gaps, Ewma.variance alpha gaps) := by
  apply Ewma.foldl_kept (fun stat : GapStat K => (stat.mean, stat.var))
    (fun stat => stat.count ≠ 0)
  · intro gap
    exact ⟨Nat.succ_ne_zero 0, rfl⟩
  · intro stat gap hcount
    have hfold : foldInto alpha (some stat) gap =
        { count := stat.count + 1
          mean := stat.mean + alpha * (gap - stat.mean)
          var := (1 - alpha) * (stat.var + alpha * (gap - stat.mean) * (gap - stat.mean)) } :=
      if_neg hcount
    rw [hfold]
    exact ⟨Nat.succ_ne_zero _, rfl⟩
  · exact hne

namespace ToolGapIndex

def recordAll (index : ToolGapIndex K) (records : List (String × K)) : ToolGapIndex K :=
  records.foldl (fun index r => index.record r.1 r.2) index

/-- Recording touches the statistics, as a bounded table in order of use. -/
theorem recordAll_eq (index : ToolGapIndex K) (hempty : index.stats = ∅)
    (records : List (String × K)) :
    index.recordAll records = { index with
      stats := OrderedDict.updateAll index.capacity (GapStat.foldInto index.alpha) records } := by
  induction records using List.reverseRecOn with
  | nil =>
    change index = { index with stats := ∅ }
    rw [← hempty]
  | append_singleton records r ih =>
    rw [recordAll, List.foldl_append, OrderedDict.updateAll_append_singleton]
    change (index.recordAll records).record r.1 r.2 = _
    rw [ih]
    exact congrArg (fun stats => { index with stats := stats }) (stats_record _ r.1 r.2)

theorem predict_recordAll (index : ToolGapIndex K) (hempty : index.stats = ∅)
    {records : List (String × K)} {tool : String} {gaps : List K}
    (hrun : FinalRun index.capacity tool records gaps) :
    (index.recordAll records).predict (some tool) =
      estimate index.alpha (index.priors.lookup tool) index.defaultPrior gaps := by
  rw [recordAll_eq index hempty]
  unfold predict estimate
  dsimp only
  rw [hrun.lookup_eq]
  split_ifs with hgaps
  · rw [hgaps]
    rfl
  · obtain ⟨stat, hstat, hpair⟩ :=
      Option.map_eq_some_iff.mp (GapStat.foldl_foldInto index.alpha hgaps)
    rw [hstat]
    exact hpair

end ToolGapIndex

structure Sighting (K : Type) [Scalar K] where
  conversationId : Option ℤ
  tool : Option String
  now : K

namespace Sighting

def keyed (turns : List (Sighting K)) : List (ℤ × K) :=
  turns.filterMap fun turn => turn.conversationId.map fun conversation => (conversation, turn.now)

def seenAfter (capacity : ℕ) (turns : List (Sighting K)) : OrderedDict ℤ K :=
  turns.foldl (fun lastSeen turn =>
    (observeGap lastSeen turn.conversationId turn.tool turn.now capacity).2) ∅

/-- The table is a bounded one in order of use, of the last times. -/
theorem seenAfter_eq (capacity : ℕ) (turns : List (Sighting K)) :
    seenAfter capacity turns =
      OrderedDict.updateAll capacity (fun _ now => now) (keyed turns) := by
  induction turns using List.reverseRecOn with
  | nil => rfl
  | append_singleton turns turn ih =>
    have hkeyed : keyed (turns ++ [turn]) = keyed turns ++ keyed [turn] := List.filterMap_append
    rw [seenAfter, List.foldl_append, List.foldl_cons, List.foldl_nil, ← seenAfter, ih,
      observeGap_snd, hkeyed]
    obtain ⟨conversationId, tool, now⟩ := turn
    cases conversationId with
    | none => exact congrArg _ (List.append_nil _).symm
    | some conversation => exact (OrderedDict.updateAll_append_singleton _ (conversation, now)).symm

theorem observeGap_eq_some_iff (capacity : ℕ) (turns : List (Sighting K)) {turn : Sighting K}
    {gap : K} :
    (observeGap (seenAfter capacity turns) turn.conversationId turn.tool turn.now capacity).1 =
        some gap ↔
      ∃ conversation, turn.conversationId = some conversation ∧ turn.tool ≠ none ∧ ∃ last,
        UsedWithin capacity (keyed turns) conversation last ∧ gap = turn.now - last := by
  rw [observeGap_fst_eq_some, seenAfter_eq]
  simp only [OrderedDict.lookup_stored_iff]
  constructor
  · rintro ⟨conversation, last, name, hconversation, hused, htool, hgap⟩
    exact ⟨conversation, hconversation, by simp [htool], last, hused, hgap⟩
  · rintro ⟨conversation, hconversation, htool, last, hused, hgap⟩
    obtain ⟨name, hname⟩ := Option.ne_none_iff_exists'.mp htool
    exact ⟨conversation, last, name, hconversation, hused, hname, hgap⟩

/-- What the policy's function and its table do on one turn more. -/
structure Measures (capacity : ℕ) (turns : List (Sighting K)) (turn : Sighting K) (gap : K) :
    Prop where
  reports : (observeGap (seenAfter capacity turns) turn.conversationId turn.tool turn.now
      capacity).1 = some gap ↔
    ∃ conversation, turn.conversationId = some conversation ∧ turn.tool ≠ none ∧ ∃ last,
      UsedWithin capacity (keyed turns) conversation last ∧ gap = turn.now - last
  keyless : turn.conversationId = none →
    (observeGap (seenAfter capacity turns) turn.conversationId turn.tool turn.now capacity).2 =
      seenAfter capacity turns
  bounded : (seenAfter capacity turns).len ≤ capacity

theorem measures (capacity : ℕ) (turns : List (Sighting K)) (turn : Sighting K) (gap : K) :
    Measures capacity turns turn gap where
  reports := observeGap_eq_some_iff capacity turns
  keyless := by
    intro hconversation
    rw [hconversation]
    rfl
  bounded := by
    rw [seenAfter_eq]
    exact OrderedDict.len_updateAll_le _

end Sighting

end SchedLm.Sim
