import SchedLm.Library.LinkedTable
import SchedLm.Library.Scalar

/-!
The gateway's tool gap index: per-tool running mean and variance of the
re-arrival gap, in a bounded table with the least recently used tool in front.
-/

namespace SchedLm.Gateway

variable {K : Type} [Scalar K]

def defaultGapIndexCapacity : ℕ := 512

def defaultGapAlpha : K := 3 / 10

def defaultPriorMean : K := 2

def defaultPriorVar : K := 16

structure GapStat (K : Type) [Scalar K] where
  count : ℕ := 0
  mean : K := 0
  var : K := 0

structure GapPrior (K : Type) [Scalar K] where
  mean : K
  var : K

structure ToolGapIndex (K : Type) [Scalar K] where
  capacity : ℕ
  alpha : K
  priors : Dict String (GapPrior K)
  defaultPrior : GapPrior K
  stats : LinkedTable String (GapStat K)

/-- `NewToolGapIndex`: arguments out of range are replaced by the defaults. -/
def newToolGapIndex (capacity : ℤ) (alpha : K) (priors : Dict String (GapPrior K)) :
    ToolGapIndex K where
  capacity := if capacity ≤ 0 then defaultGapIndexCapacity else capacity.toNat
  alpha := if alpha ≤ 0 ∨ 1 < alpha then defaultGapAlpha else alpha
  priors := priors
  defaultPrior := { mean := defaultPriorMean, var := defaultPriorVar }
  stats := {}

def GapStat.observe (alpha : K) (stat : GapStat K) (gap : K) : GapStat K :=
  if stat.count = 0 then { count := stat.count + 1, mean := gap, var := 0 }
  else
    let delta := gap - stat.mean
    { count := stat.count + 1
      mean := stat.mean + alpha * delta
      var := (1 - alpha) * (stat.var + alpha * delta * delta) }

namespace ToolGapIndex

def record (idx : ToolGapIndex K) (tool : String) (gap : K) : ToolGapIndex K :=
  let (elem, stats) :=
    match idx.stats.index.lookup tool with
    | none => idx.stats.pushBack tool {}
    | some elem => (elem, idx.stats.moveToBack elem)
  let stat := (stats.value? elem).getD {}
  let stats := stats.setValue elem (stat.observe idx.alpha gap)
  { idx with stats := stats.evictOver idx.capacity }

/-- Learned statistic, else prior, else default. The empty name means that
there is no tool yet. -/
def predict (idx : ToolGapIndex K) (tool : String) : K × K :=
  if tool ≠ "" then
    match (idx.stats.index.lookup tool).bind idx.stats.value? with
    | some stat => (stat.mean, stat.var)
    | none =>
      match idx.priors.lookup tool with
      | some prior => (prior.mean, prior.var)
      | none => (idx.defaultPrior.mean, idx.defaultPrior.var)
  else (idx.defaultPrior.mean, idx.defaultPrior.var)

end ToolGapIndex

/-- Inverse-variance weight, normalized against the mean. -/
def gapConfidence (mean variance : K) : K :=
  let scale := max (mean * mean) (1 / 1000000000)
  1 / (1 + variance / scale)

namespace ToolGapIndex

variable {idx : ToolGapIndex K} {d : OrderedDict String (GapStat K)}

/-- Recording folds the gap into the tool's entry and makes it the newest. -/
theorem record_represents (h : idx.stats.Represents d) (tool : String) (gap : K) :
    (idx.record tool gap).stats.Represents
      ((OrderedDict.pushEnd d tool
        (((d.lookup tool).getD {}).observe idx.alpha gap)).popWhileOver idx.capacity) := by
  unfold record
  cases hindex : idx.stats.index.lookup tool with
  | none =>
    have habsent := h.index_eq_none.mp hindex
    obtain ⟨hpushed, hnew⟩ := h.pushBack habsent ({} : GapStat K)
    have hvalue := hpushed.value?_eq hnew
    rw [OrderedDict.lookup_pushEnd] at hvalue
    have hset := hpushed.setValue hnew (GapStat.observe idx.alpha {} gap)
    rw [OrderedDict.setItem_pushEnd] at hset
    simp only [hvalue, habsent, Option.getD_some, Option.getD_none]
    exact hset.evictOver idx.capacity
  | some elem =>
    have hmoved := h.moveToBack hindex
    have hvalue := hmoved.value?_eq hindex
    have hset := hmoved.setValue hindex
      (((idx.stats.moveToBack elem).value? elem |>.getD {}).observe idx.alpha gap)
    obtain ⟨stat, hstat⟩ : ∃ stat, d.lookup tool = some stat := by
      rw [← Option.ne_none_iff_exists']
      intro hnone
      rw [h.index_eq_none.mpr hnone] at hindex
      cases hindex
    have hend : OrderedDict.moveToEnd d tool = OrderedDict.pushEnd d tool stat := by
      simp only [OrderedDict.moveToEnd, hstat]
    rw [hend, OrderedDict.lookup_pushEnd] at hvalue
    rw [hend, OrderedDict.setItem_pushEnd, hvalue] at hset
    simp only [hvalue, hstat]
    exact hset.evictOver idx.capacity

theorem predict_eq (h : idx.stats.Represents d) {tool : String} (htool : tool ≠ "") :
    idx.predict tool =
      match d.lookup tool with
      | some stat => (stat.mean, stat.var)
      | none =>
        match idx.priors.lookup tool with
        | some prior => (prior.mean, prior.var)
        | none => (idx.defaultPrior.mean, idx.defaultPrior.var) := by
  unfold predict
  rw [if_pos htool, h.lookup_eq]

def learned (idx : ToolGapIndex K) (tool : String) : Option (GapStat K) :=
  (idx.stats.index.lookup tool).bind idx.stats.value?

/-- An index whose list and map are one table, and whose means are averages of
gaps that are not negative. -/
structure NonnegMeans (idx : ToolGapIndex K) : Prop where
  alpha_pos : 0 < idx.alpha
  alpha_le_one : idx.alpha ≤ 1
  represents : ∃ d, idx.stats.Represents d
  means : ∀ tool stat, idx.learned tool = some stat → 0 ≤ stat.mean

theorem nonnegMeans_newToolGapIndex (capacity : ℤ) (alpha : K)
    (priors : Dict String (GapPrior K)) : (newToolGapIndex capacity alpha priors).NonnegMeans where
  alpha_pos := by
    unfold newToolGapIndex defaultGapAlpha
    dsimp only
    split_ifs with halpha
    · norm_num
    · exact not_le.mp (not_or.mp halpha).1
  alpha_le_one := by
    unfold newToolGapIndex defaultGapAlpha
    dsimp only
    split_ifs with halpha
    · norm_num
    · exact not_lt.mp (not_or.mp halpha).2
  represents := ⟨∅, LinkedTable.represents_empty⟩
  means := by
    intro tool stat hstat
    cases hstat

theorem mean_observe_nonneg {alpha gap : K} {stat : GapStat K} (halpha : 0 < alpha)
    (hone : alpha ≤ 1) (hmean : 0 ≤ stat.mean) (hgap : 0 ≤ gap) :
    0 ≤ (stat.observe alpha gap).mean := by
  unfold GapStat.observe
  split_ifs
  · exact hgap
  · have hrest : 0 ≤ 1 - alpha := sub_nonneg.mpr hone
    calc 0 ≤ (1 - alpha) * stat.mean + alpha * gap := by positivity
      _ = stat.mean + alpha * (gap - stat.mean) := by ring

theorem NonnegMeans.record (h : idx.NonnegMeans) (tool : String) {gap : K} (hgap : 0 ≤ gap) :
    (idx.record tool gap).NonnegMeans := by
  obtain ⟨halpha, hone, ⟨d, hd⟩, hmeans⟩ := h
  have hlearned : ∀ other, idx.learned other = d.lookup other := hd.lookup_eq
  have hrecord := record_represents hd tool gap
  refine ⟨halpha, hone, ⟨_, hrecord⟩, ?_⟩
  intro other stat hstat
  rw [learned, hrecord.lookup_eq] at hstat
  rcases OrderedDict.lookup_of_popWhileOver_pushEnd hstat with ⟨-, rfl⟩ | ⟨-, holder⟩
  · apply mean_observe_nonneg halpha hone _ hgap
    cases hstored : d.lookup tool with
    | none => exact le_rfl
    | some stat => exact hmeans tool stat ((hlearned tool).trans hstored)
  · exact hmeans other stat ((hlearned other).trans holder)

end ToolGapIndex

end SchedLm.Gateway
