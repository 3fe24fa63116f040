import SchedLm.Library.OrderedDict
import SchedLm.Library.Scalar

/-!
Re-arrival gaps learned from timing alone: a bounded last-seen table per
conversation, and a bounded table of running mean and variance per tool.
-/

namespace SchedLm.Sim

variable {K : Type} [Scalar K]

structure GapStat (K : Type) [Scalar K] where
  count : ℕ := 0
  mean : K := 0
  var : K := 0

structure ToolGapIndex (K : Type) [Scalar K] where
  capacity : ℕ := 512
  alpha : K := 3 / 10
  priors : Dict String (K × K) := ∅
  defaultPrior : K × K := (2, 16)
  stats : OrderedDict String (GapStat K) := ∅

/-- Fold one gap into a statistic. The first gap is taken as it is; later ones
move the mean and track the squared deviation from the mean before the move. -/
def GapStat.fold (alpha : K) (stat : GapStat K) (gap : K) : GapStat K :=
  if stat.count = 0 then { count := stat.count + 1, mean := gap, var := 0 }
  else
    let delta := gap - stat.mean
    { count := stat.count + 1
      mean := stat.mean + alpha * delta
      var := (1 - alpha) * (stat.var + alpha * delta * delta) }

namespace ToolGapIndex

/-- Fold one observed gap into the tool's entry, which becomes the most
recently used one. -/
def record (index : ToolGapIndex K) (tool : String) (gap : K) : ToolGapIndex K :=
  let stat := (index.stats.lookup tool).getD {}
  let stats := OrderedDict.setItem (index.stats.erase tool) tool (stat.fold index.alpha gap)
  { index with stats := OrderedDict.popWhileOver stats index.capacity }

/-- Learned statistic, else the tool's prior, else the default prior. -/
def predict (index : ToolGapIndex K) (tool : Option String) : K × K :=
  match tool with
  | none => index.defaultPrior
  | some tool =>
    match index.stats.lookup tool with
    | some stat => (stat.mean, stat.var)
    | none => (index.priors.lookup tool).getD index.defaultPrior

end ToolGapIndex

/-- Inverse-variance weight, normalized against the mean. -/
def gapConfidence (mean var : K) : K :=
  let scale := max (mean * mean) (1 / 1000000000)
  1 / (1 + var / scale)

def gapTrackerCapacity : ℕ := 8192

/-- The gap since the conversation's previous turn, when there is one and a tool
to attribute it to; the turn is recorded either way. -/
def observeGap (lastSeen : OrderedDict ℤ K) (conversationId : Option ℤ)
    (tool : Option String) (now : K) (capacity : ℕ := gapTrackerCapacity) :
    Option K × OrderedDict ℤ K :=
  match conversationId with
  | none => (none, lastSeen)
  | some conversation =>
    let prev := lastSeen.lookup conversation
    let lastSeen := (lastSeen.setItem conversation now).moveToEnd conversation
    let lastSeen := lastSeen.popWhileOver capacity
    match prev, tool with
    | some prev, some _ => (some (now - prev), lastSeen)
    | _, _ => (none, lastSeen)

/-- A gap is learnt from a conversation's earlier turn and a tool. -/
theorem observeGap_fst_eq_some {lastSeen : OrderedDict ℤ K} {conversationId : Option ℤ}
    {tool : Option String} {now : K} {capacity : ℕ} {gap : K} :
    (observeGap lastSeen conversationId tool now capacity).1 = some gap ↔
      ∃ conversation prev name, conversationId = some conversation ∧
        lastSeen.lookup conversation = some prev ∧ tool = some name ∧ gap = now - prev := by
  unfold observeGap
  cases conversationId with
  | none => simp
  | some conversation =>
    dsimp only
    cases hprev : lastSeen.lookup conversation with
    | none => simp [hprev]
    | some prev =>
      cases tool with
      | none => simp
      | some name => simp [hprev, eq_comm]

theorem observeGap_snd (lastSeen : OrderedDict ℤ K) (conversationId : Option ℤ)
    (tool : Option String) (now : K) (capacity : ℕ) :
    (observeGap lastSeen conversationId tool now capacity).2 =
      match conversationId with
      | none => lastSeen
      | some conversation =>
        (OrderedDict.pushEnd lastSeen conversation now).popWhileOver capacity := by
  cases conversationId with
  | none => rfl
  | some conversation =>
    simp only [observeGap, OrderedDict.moveToEnd_setItem]
    split <;> rfl

theorem lookup_observeGap {lastSeen : OrderedDict ℤ K} {conversationId : Option ℤ}
    {tool : Option String} {now : K} {capacity : ℕ} {conversation : ℤ} {time : K}
    (h : (observeGap lastSeen conversationId tool now capacity).2.lookup conversation =
      some time) :
    time = now ∨ lastSeen.lookup conversation = some time := by
  rw [observeGap_snd] at h
  cases conversationId with
  | none => exact Or.inr h
  | some current =>
    rcases OrderedDict.lookup_of_popWhileOver_pushEnd h with ⟨-, htime⟩ | ⟨-, holder⟩
    · exact Or.inl htime
    · exact Or.inr holder

def ToolGapIndex.folded (index : ToolGapIndex K) (tool : String) (gap : K) : GapStat K :=
  ((index.stats.lookup tool).getD {}).fold index.alpha gap

theorem ToolGapIndex.stats_record (index : ToolGapIndex K) (tool : String) (gap : K) :
    (index.record tool gap).stats =
      (OrderedDict.pushEnd index.stats tool (index.folded tool gap)).popWhileOver
        index.capacity :=
  congrArg (OrderedDict.popWhileOver · index.capacity)
    (OrderedDict.setItem_erase index.stats tool (index.folded tool gap))

theorem ToolGapIndex.lookup_record_self {index : ToolGapIndex K} {tool : String} {gap : K}
    (hcap : 0 < index.capacity) :
    (index.record tool gap).stats.lookup tool = some (index.folded tool gap) := by
  rw [stats_record]
  exact OrderedDict.lookup_popWhileOver_pushEnd _ _ _ hcap

theorem ToolGapIndex.lookup_record {index : ToolGapIndex K} {tool other : String} {gap : K}
    {stat : GapStat K} (h : (index.record tool gap).stats.lookup other = some stat) :
    (other = tool ∧ stat = index.folded tool gap) ∨ index.stats.lookup other = some stat := by
  rw [stats_record] at h
  rcases OrderedDict.lookup_of_popWhileOver_pushEnd h with hnew | ⟨-, holder⟩
  · exact Or.inl hnew
  · exact Or.inr holder

structure GapStat.Sound (stat : GapStat K) : Prop where
  count : stat.count ≠ 0
  mean : 0 ≤ stat.mean
  var : 0 ≤ stat.var
  var_of_mean : stat.mean = 0 → stat.var = 0

/-- Folding a non-negative gap keeps a statistic sound, and its mean is zero
only when the gap is and the mean before was. -/
theorem GapStat.sound_fold {stat : GapStat K} (h : stat.count = 0 ∨ stat.Sound) {gap : K}
    (hgap : 0 ≤ gap) :
    (stat.fold (3 / 10) gap).Sound ∧
      ((stat.fold (3 / 10) gap).mean = 0 ↔ gap = 0 ∧ (stat.count = 0 ∨ stat.mean = 0)) := by
  by_cases hcount : stat.count = 0
  · rw [fold, if_pos hcount]
    exact ⟨⟨by simp, hgap, le_rfl, fun _ => rfl⟩, by simp [hcount]⟩
  · have hsound := h.resolve_left hcount
    have hmean := hsound.mean
    rw [fold, if_neg hcount]
    have hzero : stat.mean + 3 / 10 * (gap - stat.mean) = 0 ↔ gap = 0 ∧ stat.mean = 0 := by
      constructor
      · intro heq
        constructor <;> linarith
      · rintro ⟨rfl, hm⟩
        rw [hm]
        ring
    refine ⟨⟨by simp, ?_, ?_, ?_⟩, ?_⟩
    · change 0 ≤ stat.mean + 3 / 10 * (gap - stat.mean)
      linarith
    · have hsq : 0 ≤ (gap - stat.mean) * (gap - stat.mean) := mul_self_nonneg _
      have hvar := hsound.var
      change 0 ≤ (1 - 3 / 10) * (stat.var + 3 / 10 * (gap - stat.mean) * (gap - stat.mean))
      rw [mul_assoc]
      positivity
    · intro heq
      obtain ⟨rfl, hm⟩ := hzero.mp heq
      change (1 - 3 / 10) * (stat.var + 3 / 10 * (0 - stat.mean) * (0 - stat.mean)) = 0
      rw [hsound.var_of_mean hm, hm]
      ring
    · rw [or_iff_right hcount]
      exact hzero

/-- A confident statistic has its spread within the scale of its mean. -/
theorem var_le_of_half_le_gapConfidence {mean var : K} (hvar : 0 ≤ var)
    (hconf : 1 / 2 ≤ gapConfidence mean var) : var ≤ max (mean * mean) (1 / 1000000000) := by
  unfold gapConfidence at hconf
  dsimp only at hconf
  have hscale : (0 : K) < max (mean * mean) (1 / 1000000000) :=
    lt_max_of_lt_right (by positivity)
  have hratio : 0 ≤ var / max (mean * mean) (1 / 1000000000) := div_nonneg hvar hscale.le
  rw [le_div_iff₀ (by linarith)] at hconf
  have hle : var / max (mean * mean) (1 / 1000000000) ≤ 1 := by linarith
  rwa [div_le_one hscale] at hle

theorem gapConfidence_defaultPrior_lt : gapConfidence (2 : K) 16 < 1 / 2 := by
  have hscale : max ((2 : K) * 2) (1 / 1000000000) = 4 := by norm_num
  rw [gapConfidence, hscale]
  norm_num

/-- The window that a confident, short estimate asks for is at most twice the
short gap: the spread is within the mean, or within the floor of the scale. -/
theorem window_le_of_half_le_gapConfidence {mean var : K} (hmean : 0 ≤ mean) (hvar : 0 ≤ var)
    (hconf : 1 / 2 ≤ gapConfidence mean var) (hshort : mean ≤ 3) :
    max (mean * (3 / 2)) (mean + Scalar.sqrt var) ≤ 2 * 3 := by
  have hroot : Scalar.sqrt var ≤ max mean (1 / 10000) := by
    apply Scalar.sqrt_le_of_le_mul_self (le_max_of_le_left hmean)
    refine (var_le_of_half_le_gapConfidence hvar hconf).trans (max_le ?_ ?_)
    · exact mul_self_le_mul_self hmean (le_max_left _ _)
    · refine le_trans (by norm_num) (mul_self_le_mul_self (by positivity) (le_max_right _ _))
  apply max_le
  · linarith
  · rcases le_total mean (1 / 10000) with hsmall | hlarge
    · rw [max_eq_right hsmall] at hroot
      linarith
    · rw [max_eq_left hlarge] at hroot
      linarith

end SchedLm.Sim
