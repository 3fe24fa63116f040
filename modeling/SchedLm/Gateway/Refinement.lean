import SchedLm.Gateway.PreRequest
import SchedLm.Library.Recency
import SchedLm.Library.Runs
import SchedLm.Sim.Lease

/-!
The plugin next to the simulator's reliability policy, its executable
specification. Both learn gaps the same way and decide the same way from what
they learned, but the policy observes every request and the plugin only tool
turns. Each one's last-seen table is a function of the requests so far, so it
can be said of the requests alone when both measure the same gap, and as long
as they do they give the same directives.
-/

namespace SchedLm.Gateway

open OrderedDict (UsedWithin keysOf)
open Runs

variable {K : Type} [Scalar K]

/-- The conversation key that stands for each conversation id. -/
structure KeyNames where
  name : ℤ → String
  injective : Function.Injective name
  ne_empty : ∀ id, name id ≠ ""

def Class.kind : Class → Sim.Kind
  | tool => .tool
  | rag => .rag
  | oneshot => .oneshot

structure Turn (K : Type) [Scalar K] where
  time : Time
  request : InferenceRequest
  view : Sim.RequestView
  nodes : List (Sim.Node K)
  params : Sim.CostParams K

namespace Turn

/-- The policy's clock counts seconds. -/
def now (t : Turn K) : K := Duration.seconds t.time

def scope (t : Turn K) : String :=
  conversationKey (t.request.headers.getD ∅) t.request.body

def tool (t : Turn K) : String := lastToolName t.request.body

/-- Both sides see the same class, conversation and tool. -/
structure Agrees (names : KeyNames) (t : Turn K) : Prop where
  kind : Sim.classify t.view = (classify t.request.body).kind
  scope : t.scope = (t.view.conversationId.map names.name).getD ""
  tool : t.tool = t.view.lastToolName.getD ""
  named : t.view.lastToolName ≠ some ""

end Turn

/-- The policy's mark and the plugin's directive are the same one, with the
lease rounded to milliseconds. -/
structure SameDirective (now : K) (directive : Option Directive) (place : Sim.Placement K) :
    Prop where
  priority : directive.map Directive.priority = place.priority
  ttl : ∀ ttl scope, directive = some (.lease ttl scope) →
    ∃ retainUntil : K, place.retainUntil = (retainUntil : WithTop K) ∧
      ttl = round ((retainUntil - now) * 1000) * millisecond

def sightings (turns : List (Turn K)) : List (ℤ × Time) :=
  turns.filterMap fun t => t.view.conversationId.map fun id => (id, t.time)

def toolTurns (turns : List (Turn K)) : List (Turn K) :=
  turns.filter fun t => classify t.request.body = .tool

/-- What the requests before a turn must be for both to measure the same gap at
it. On a tool turn, the latest earlier turn of the conversation with fewer than
8192 other conversations since is the same one among all earlier requests,
which the policy observes, and among the earlier tool turns, which the plugin
observes, and the clock's difference of the two times fits. On any other turn
that names a tool, there is no such turn among all earlier requests. -/
def SeesSameGap (earlier : List (Turn K)) (t : Turn K) : Prop :=
  ∀ id tool, t.view.conversationId = some id → t.view.lastToolName = some tool →
    if classify t.request.body = .tool then
      ∀ time, (UsedWithin Sim.gapTrackerCapacity (sightings (toolTurns earlier)) id time ↔
          UsedWithin Sim.gapTrackerCapacity (sightings earlier) id time) ∧
        (UsedWithin Sim.gapTrackerCapacity (sightings earlier) id time →
          t.time - time ≤ maxDuration)
    else ∀ time, ¬ UsedWithin Sim.gapTrackerCapacity (sightings earlier) id time

def sideBySideStep (s : KVCachePriority K × Sim.ClassAwareReliability K) (t : Turn K) :
    Except Sim.SimError (KVCachePriority K × Sim.ClassAwareReliability K) := do
  let (c, _) ← s.2.call t.view t.nodes t.now t.params
  return ((s.1.decide t.request t.time).2, c)

/-- A fresh plugin and a fresh policy after the first `k` turns. -/
def sideBySide (turns : List (Turn K)) (k : ℕ) :
    Except Sim.SimError (KVCachePriority K × Sim.ClassAwareReliability K) :=
  (turns.take k).foldlM sideBySideStep (newKVCachePriority, {})

theorem decide_of_ne_tool {p : KVCachePriority K} {t : Turn K}
    (hclass : classify t.request.body ≠ .tool) : (p.decide t.request t.time).2 = p := by
  unfold KVCachePriority.decide
  cases hother : classify t.request.body with
  | tool => exact absurd hother hclass
  | rag => rfl
  | oneshot => rfl

/-- When a conversation was last seen, as a table of the sightings has it. -/
def remembered (turns : List (Turn K)) (id : ℤ) : Option Time :=
  (OrderedDict.updateAll Sim.gapTrackerCapacity (fun _ time => time) (sightings turns)).lookup id

theorem remembered_eq_some_iff {turns : List (Turn K)} {id : ℤ} {time : Time} :
    remembered turns id = some time ↔
      UsedWithin Sim.gapTrackerCapacity (sightings turns) id time :=
  OrderedDict.lookup_stored_iff

/-- Both last-seen tables as functions of the requests so far: the plugin's has the tool
turns only, the policy's has every turn of a known conversation. The tables differ, and
whether both measure the same gap is for the requests to say. -/
structure Tables (names : KeyNames) (earlier : List (Turn K)) (p : KVCachePriority K)
    (c : Sim.ClassAwareReliability K) : Prop where
  capacity : p.sessions.capacity = Sim.gapTrackerCapacity
  plugin : p.sessions.seen.Represents (OrderedDict.updateAll Sim.gapTrackerCapacity
    (fun _ time => time) ((sightings (toolTurns earlier)).map (Prod.map names.name id)))
  spec : c.lastSeen = OrderedDict.updateAll Sim.gapTrackerCapacity (fun _ now => now)
    ((sightings earlier).map (Prod.map id Duration.seconds))

theorem tables_start (names : KeyNames) :
    Tables names [] (newKVCachePriority : KVCachePriority K) {} :=
  ⟨rfl, LinkedTable.represents_empty, rfl⟩

namespace Tables

variable {names : KeyNames} {earlier : List (Turn K)} {p : KVCachePriority K}
  {c : Sim.ClassAwareReliability K} {t : Turn K}

theorem lastSeen_plugin (h : Tables names earlier p c) (conversation : ℤ) :
    p.sessions.lastSeen (names.name conversation) =
      remembered (toolTurns earlier) conversation := by
  rw [SessionTracker.lastSeen_eq h.plugin, OrderedDict.lookup_stored_map names.injective,
    Option.map_id]
  rfl

theorem lastSeen_spec (h : Tables names earlier p c) (conversation : ℤ) :
    c.lastSeen.lookup conversation = (remembered earlier conversation).map Duration.seconds := by
  rw [h.spec]
  exact OrderedDict.lookup_stored_map Function.injective_id _ _ conversation

private theorem sightings_concat (turns : List (Turn K)) (t : Turn K) :
    sightings (turns ++ [t]) = sightings turns ++
      (t.view.conversationId.map fun id => (id, t.time)).toList := by
  rw [sightings, List.filterMap_append]
  cases hid : t.view.conversationId <;> simp [sightings, hid]

theorem spec_learn (h : Tables names earlier p c) (t : Turn K) :
    (c.learn t.view t.now).lastSeen = OrderedDict.updateAll Sim.gapTrackerCapacity
      (fun _ now => now) ((sightings (earlier ++ [t])).map (Prod.map id Duration.seconds)) := by
  rw [Sim.ClassAwareReliability.learn_eq]
  dsimp only
  rw [Sim.observeGap_snd, sightings_concat, List.map_append]
  cases t.view.conversationId with
  | none =>
    rw [h.spec]
    simp
  | some conversation =>
    change _ = OrderedDict.updateAll _ _ (_ ++ [(conversation, t.now)])
    rw [OrderedDict.updateAll_append_singleton, ← h.spec]
    rfl

theorem plugin_learn (h : Tables names earlier p c) (hagrees : t.Agrees names)
    (hclass : classify t.request.body = .tool) :
    (p.learn t.scope t.tool t.time).sessions.capacity = Sim.gapTrackerCapacity ∧
      (p.learn t.scope t.tool t.time).sessions.seen.Represents
        (OrderedDict.updateAll Sim.gapTrackerCapacity (fun _ time => time)
          ((sightings (toolTurns (earlier ++ [t]))).map (Prod.map names.name id))) := by
  have htools : toolTurns (earlier ++ [t]) = toolTurns earlier ++ [t] := by
    simp [toolTurns, hclass]
  rw [KVCachePriority.learn_eq]
  dsimp only
  rw [SessionTracker.observeGap_snd, htools, sightings_concat, List.map_append, hagrees.scope]
  cases t.view.conversationId with
  | none => simpa using ⟨h.capacity, h.plugin⟩
  | some conversation =>
    rw [Option.map_some, Option.getD_some, if_neg (names.ne_empty conversation)]
    refine ⟨h.capacity, ?_⟩
    change LinkedTable.Represents _ (OrderedDict.updateAll _ _
      (_ ++ [(names.name conversation, t.time)]))
    have htouched := SessionTracker.touch_represents h.plugin (names.name conversation) t.time
    rw [h.capacity] at htouched
    rw [OrderedDict.updateAll_append_singleton]
    exact htouched

/-- The tables after one more request fed to both: the policy observes it whatever its
class, the plugin if it is a tool turn. -/
theorem step (h : Tables names earlier p c) (hagrees : t.Agrees names) :
    Tables names (earlier ++ [t]) (p.decide t.request t.time).2 (c.learn t.view t.now) := by
  have hspec := h.spec_learn t
  by_cases hclass : classify t.request.body = .tool
  · have hdecide : (p.decide t.request t.time).2 = p.learn t.scope t.tool t.time := by
      simp only [KVCachePriority.decide, hclass]
      rfl
    obtain ⟨hcapacity, hplugin⟩ := h.plugin_learn hagrees hclass
    rw [hdecide]
    exact ⟨hcapacity, hplugin, hspec⟩
  · have htools : toolTurns (earlier ++ [t]) = toolTurns earlier := by
      simp [toolTurns, hclass]
    rw [decide_of_ne_tool hclass]
    refine ⟨h.capacity, ?_, hspec⟩
    rw [htools]
    exact h.plugin

end Tables

/-- Both tables remember the same of a turn's conversation where one of them
would measure a gap. -/
def SameMemory (names : KeyNames) (p : KVCachePriority K) (c : Sim.ClassAwareReliability K)
    (t : Turn K) : Prop :=
  ∀ id tool, t.view.conversationId = some id → t.view.lastToolName = some tool →
    if classify t.request.body = .tool then
      c.lastSeen.lookup id = (p.sessions.lastSeen (names.name id)).map Duration.seconds ∧
        ∀ prev, p.sessions.lastSeen (names.name id) = some prev → t.time - prev ≤ maxDuration
    else c.lastSeen.lookup id = none

/-- When the requests so far are as the condition says, both tables remember the same of
the turn's conversation, or the policy has nothing to measure from. -/
theorem Tables.sameMemory {names : KeyNames} {earlier : List (Turn K)} {p : KVCachePriority K}
    {c : Sim.ClassAwareReliability K} {t : Turn K} (h : Tables names earlier p c)
    (hsame : SeesSameGap earlier t) : SameMemory names p c t := by
  intro id tool hid htool
  have hcond := hsame id tool hid htool
  rw [h.lastSeen_spec, h.lastSeen_plugin]
  simp only [← remembered_eq_some_iff] at hcond
  split_ifs at hcond ⊢ with hclass
  · have hboth : remembered (toolTurns earlier) id = remembered earlier id :=
      Option.ext fun time => (hcond time).1
    rw [hboth]
    exact ⟨rfl, fun prev => (hcond prev).2⟩
  · rw [Option.eq_none_iff_forall_ne_some.mpr hcond, Option.map_none]

def ofSpec (stat : Sim.GapStat K) : GapStat K :=
  { count := stat.count, mean := stat.mean, var := stat.var }

theorem ofSpec_fold (alpha : K) (stat : Sim.GapStat K) (gap : K) :
    ofSpec (stat.fold alpha gap) = (ofSpec stat).observe alpha gap := by
  unfold Sim.GapStat.fold GapStat.observe ofSpec
  split_ifs <;> rfl

/-- The plugin has the policy's thresholds and the policy's statistics, tool by tool.
The last-seen tables are no part of it. -/
structure Tracks (p : KVCachePriority K) (c : Sim.ClassAwareReliability K) : Prop where
  stats : p.index.stats.Represents (OrderedDict.mapValues ofSpec c.index.stats)
  capacity : p.index.capacity = c.index.capacity
  alpha : p.index.alpha = c.index.alpha
  priors : p.index.priors = ∅
  defaultPrior : (p.index.defaultPrior.mean, p.index.defaultPrior.var) = c.index.defaultPrior
  shortGap : p.shortGap = c.shortGap
  confThresh : p.confThresh = c.confThreshold
  retainMargin : p.retainMargin = c.retainMargin

theorem tracks_start : Tracks (newKVCachePriority : KVCachePriority K) {} := by
  refine ⟨LinkedTable.represents_empty, rfl, ?_, rfl, rfl, rfl, rfl, rfl⟩
  change (if defaultGapAlpha ≤ (0 : K) ∨ 1 < defaultGapAlpha then defaultGapAlpha
    else defaultGapAlpha) = 3 / 10
  rw [ite_self]
  rfl

namespace Tracks

variable {p : KVCachePriority K} {c : Sim.ClassAwareReliability K}

theorem record (h : Tracks p c) (tool : String) (gap : K) (sessions : SessionTracker)
    (lastSeen : OrderedDict ℤ K) :
    Tracks { p with index := p.index.record tool gap, sessions := sessions }
      { c with index := c.index.record tool gap, lastSeen := lastSeen } := by
  have hstats := ToolGapIndex.record_represents h.stats tool gap
  refine ⟨?_, h.2, h.3, h.4, h.5, h.6, h.7, h.8⟩
  change (p.index.record tool gap).stats.Represents
    (OrderedDict.mapValues ofSpec (c.index.record tool gap).stats)
  rw [Sim.ToolGapIndex.stats_record, OrderedDict.mapValues_popWhileOver,
    OrderedDict.mapValues_pushEnd, Sim.ToolGapIndex.folded, ofSpec_fold, ← h.capacity, ← h.alpha]
  rw [OrderedDict.lookup_mapValues] at hstats
  cases hstat : c.index.stats.lookup tool with
  | none =>
    rw [hstat] at hstats
    exact hstats
  | some stat =>
    rw [hstat] at hstats
    exact hstats

theorem predict_eq (h : Tracks p c) (hpriors : c.index.priors = ∅) {tool : Option String}
    (hnamed : tool ≠ some "") : p.index.predict (tool.getD "") = c.index.predict tool := by
  cases tool with
  | none => exact h.defaultPrior
  | some name =>
    have hne : name ≠ "" := fun heq => hnamed (congrArg some heq)
    rw [Option.getD_some, ToolGapIndex.predict_eq h.stats hne, OrderedDict.lookup_mapValues,
      h.priors, h.defaultPrior]
    simp only [Sim.ToolGapIndex.predict, hpriors]
    cases c.index.stats.lookup name <;> rfl

theorem observe (h : Tracks p c) (sessions : SessionTracker) (lastSeen : OrderedDict ℤ K) :
    Tracks { p with sessions := sessions } { c with lastSeen := lastSeen } :=
  ⟨h.1, h.2, h.3, h.4, h.5, h.6, h.7, h.8⟩

/-- The plugin's lease is the policy's window, rounded to milliseconds. -/
theorem leaseTtl_eq (h : Tracks p c) (hlearned : c.Learned) {tool : Option String}
    (hnamed : tool ≠ some "") :
    p.leaseTtl (tool.getD "") =
      (c.leaseWindow tool).map fun window => round (window * 1000) * millisecond := by
  have hbounds : ∀ window, c.leaseWindow tool = some window →
      0 ≤ window ∧ window ≤ 9000000000 := by
    intro window hwindow
    obtain ⟨hnonneg, hle, -⟩ := hlearned.leaseWindow_bounds hwindow
    rw [Sim.defaultShortGap] at hle
    exact ⟨hnonneg, hle.trans (by norm_num)⟩
  unfold KVCachePriority.leaseTtl
  unfold Sim.ClassAwareReliability.leaseWindow at hbounds ⊢
  rw [h.predict_eq hlearned.priors hnamed, h.confThresh, h.shortGap, h.retainMargin]
  generalize c.index.predict tool = estimate at hbounds ⊢
  obtain ⟨mean, var⟩ := estimate
  have hconf : gapConfidence mean var = Sim.gapConfidence mean var := rfl
  dsimp only at hbounds ⊢
  rw [hconf]
  by_cases hlease : Sim.gapConfidence mean var ≥ c.confThreshold ∧ mean ≤ c.shortGap
  · have hskip : ¬ (Sim.gapConfidence mean var < c.confThreshold ∨ c.shortGap < mean) := by
      rw [not_or, not_lt, not_lt]
      exact hlease
    rw [if_pos hlease] at hbounds
    obtain ⟨hnonneg, hfits⟩ := hbounds _ rfl
    rw [if_pos hlease, if_neg hskip, Option.map_some, Duration.roundTo_ofFloat hnonneg hfits]
    rfl
  · have hskip : Sim.gapConfidence mean var < c.confThreshold ∨ c.shortGap < mean := by
      rw [ge_iff_le, not_and_or, not_le, not_le] at hlease
      exact hlease
    rw [if_neg hlease, if_pos hskip, Option.map_none]

end Tracks

section Step

variable {names : KeyNames} {p : KVCachePriority K} {c : Sim.ClassAwareReliability K} {t : Turn K}

def specGap (c : Sim.ClassAwareReliability K) (t : Turn K) : Option K :=
  (Sim.observeGap c.lastSeen t.view.conversationId t.view.lastToolName t.now).1

/-- On a tool turn that meets the condition, both measure the same gap. -/
theorem observeGap_eq_specGap (hagrees : t.Agrees names) (hsame : SameMemory names p c t)
    (hclass : classify t.request.body = .tool)
    (hpast : ∀ id time, c.lastSeen.lookup id = some time → time ≤ t.now) :
    (p.sessions.observeGap t.scope t.tool t.time : Option K × SessionTracker).1 =
      specGap c t := by
  ext gap
  rw [specGap, SessionTracker.observeGap_fst_eq_some, Sim.observeGap_fst_eq_some, hagrees.scope,
    hagrees.tool]
  cases hid : t.view.conversationId with
  | none => simp
  | some id =>
    cases htool : t.view.lastToolName with
    | none => simp
    | some tool =>
      have hne : tool ≠ "" := fun heq => hagrees.named (htool.trans (congrArg some heq))
      obtain ⟨hlookup, hfits⟩ : c.lastSeen.lookup id =
            (p.sessions.lastSeen (names.name id)).map Duration.seconds ∧
          ∀ prev, p.sessions.lastSeen (names.name id) = some prev →
            t.time - prev ≤ maxDuration := by
        have hcond := hsame id tool hid htool
        rwa [if_pos hclass] at hcond
      cases hprev : p.sessions.lastSeen (names.name id) with
      | none => simp [hprev, hlookup]
      | some prev =>
        rw [hprev, Option.map_some] at hlookup
        have hle : prev ≤ t.time := by
          have hseconds := hpast id _ hlookup
          unfold Turn.now Duration.seconds at hseconds
          rw [div_le_div_iff_of_pos_right (by norm_num)] at hseconds
          exact_mod_cast hseconds
        have hsub : (Time.sub t.time prev).seconds = t.now - Duration.seconds (K := K) prev := by
          rw [Time.sub_eq hle (hfits prev hprev)]
          unfold Turn.now Duration.seconds
          push_cast
          ring
        simp [names.ne_empty, hne, hprev, hlookup, hsub]

/-- A turn that meets the condition leaves the statistics side by side: both record the
same gap, or neither records any. -/
theorem Tracks.learn (h : Tracks p c) (hagrees : t.Agrees names) (hsame : SameMemory names p c t)
    (hpast : ∀ id time, c.lastSeen.lookup id = some time → time ≤ t.now) :
    Tracks (p.decide t.request t.time).2 (c.learn t.view t.now) := by
  by_cases hclass : classify t.request.body = .tool
  · have hgap := observeGap_eq_specGap hagrees hsame hclass hpast
    have hdecide : (p.decide t.request t.time).2 = p.learn t.scope t.tool t.time := by
      simp only [KVCachePriority.decide, hclass]
      rfl
    rw [hdecide, KVCachePriority.learn_eq, Sim.ClassAwareReliability.learn_eq, hgap]
    cases hspec : specGap c t with
    | none =>
      rw [specGap] at hspec
      rw [hspec]
      exact h.observe _ _
    | some gap =>
      rw [specGap] at hspec
      obtain ⟨_, _, tool, -, -, htool, -⟩ := Sim.observeGap_fst_eq_some.mp hspec
      rw [hspec, hagrees.tool, htool]
      exact h.record tool gap _ _
  · have hspec : specGap c t = none := by
      rw [Option.eq_none_iff_forall_ne_some]
      intro gap hgap
      obtain ⟨id, prev, tool, hid, hprev, htool, -⟩ := Sim.observeGap_fst_eq_some.mp hgap
      have hcond := hsame id tool hid htool
      rw [if_neg hclass, hprev] at hcond
      cases hcond
    rw [specGap] at hspec
    rw [decide_of_ne_tool hclass, Sim.ClassAwareReliability.learn_eq, hspec]
    exact h.observe p.sessions _

/-- The policy's call is learning, then attaching to an unmarked placement. -/
theorem call_eq_ok {c' : Sim.ClassAwareReliability K} {place : Sim.Placement K}
    (hcall : c.call t.view t.nodes t.now t.params = .ok (c', place)) :
    c' = c.learn t.view t.now ∧ ∃ bare : Sim.Placement K, bare.NoDirective ∧
      place = (c.learn t.view t.now).attach t.view t.now bare := by
  simp only [Sim.ClassAwareReliability.call, bind_eq_ok] at hcall
  obtain ⟨bare, hbare, hcall⟩ := hcall
  obtain ⟨hstate, hplace⟩ := Prod.mk.inj (Except.ok.inj hcall)
  exact ⟨hstate.symm, bare, Sim.classAware_noDirective hbare, hplace.symm⟩

/-- A turn that meets the condition gets the same directive from both, when the
statistics were side by side before it. -/
theorem Tracks.sameDirective (h : Tracks p c) (hlearned : c.Learned) (hagrees : t.Agrees names)
    (hsame : SameMemory names p c t)
    (hpast : ∀ id time, c.lastSeen.lookup id = some time → time ≤ t.now)
    {c' : Sim.ClassAwareReliability K} {place : Sim.Placement K}
    (hcall : c.call t.view t.nodes t.now t.params = .ok (c', place)) :
    SameDirective t.now (p.decide t.request t.time).1 place := by
  obtain ⟨-, bare, hbare, rfl⟩ := call_eq_ok hcall
  have hkind := hagrees.kind
  have hafter := h.learn hagrees hsame hpast
  unfold KVCachePriority.decide at hafter ⊢
  unfold Sim.ClassAwareReliability.attach
  rw [hkind]
  cases hclass : classify t.request.body with
  | oneshot => exact ⟨rfl, fun ttl scope heq => by cases heq⟩
  | rag => exact ⟨hbare.priority.symm, fun ttl scope heq => by cases heq⟩
  | tool =>
    rw [hclass] at hafter
    have httl := hafter.leaseTtl_eq (hlearned.learn hpast) hagrees.named
    rw [← hagrees.tool] at httl
    change (p.learn t.scope t.tool t.time).leaseTtl t.tool = _ at httl
    change SameDirective t.now
      (((p.learn t.scope t.tool t.time).leaseTtl t.tool).map fun ttl => .lease ttl t.scope) _
    rw [httl]
    dsimp only [Class.kind]
    cases (c.learn t.view t.now).leaseWindow t.view.lastToolName with
    | none => exact ⟨hbare.priority.symm, fun ttl scope heq => by cases heq⟩
    | some window =>
      refine ⟨rfl, ?_⟩
      intro ttl scope heq
      obtain ⟨rfl, -⟩ := Directive.lease.inj (Option.some.inj heq)
      refine ⟨t.now + window, rfl, ?_⟩
      rw [add_sub_cancel_left]

end Step

section Run

variable {names : KeyNames} {turns : List (Turn K)}

/-- The tables along a run are what the requests so far make them, by induction on the
turns. No condition on the turns is needed for it. -/
theorem sideBySide_tables (hagrees : ∀ t ∈ turns, t.Agrees names) {k : ℕ}
    (hk : k ≤ turns.length) {s : KVCachePriority K × Sim.ClassAwareReliability K}
    (hrun : sideBySide turns k = .ok s) : Tables names (turns.take k) s.1 s.2 := by
  apply Runs.invariant (fun k (s : KVCachePriority K × Sim.ClassAwareReliability K) =>
    Tables names (turns.take k) s.1 s.2) ?_ ?_ hk hrun
  · exact tables_start names
  · rintro k ⟨p, c⟩ t s' ht - hold hstep
    simp only [sideBySideStep, bind_eq_ok] at hstep
    obtain ⟨⟨c', place⟩, hcall, hstep⟩ := hstep
    obtain rfl := Except.ok.inj hstep
    obtain ⟨rfl, -⟩ := call_eq_ok hcall
    rw [List.take_add_one, ht, Option.toList_some]
    exact hold.step (hagrees t (List.mem_of_getElem? ht))

def SeesSameGapsBefore (turns : List (Turn K)) (k : ℕ) : Prop :=
  ∀ j t, j < k → turns[j]? = some t → SeesSameGap (turns.take j) t

/-- Up to the first turn that fails the condition, the statistics are the same,
and every time seen lies before all turns to come. -/
theorem sideBySide_tracks (hsorted : turns.Pairwise fun a b => a.time ≤ b.time)
    (hagrees : ∀ t ∈ turns, t.Agrees names) {k : ℕ} (hk : k ≤ turns.length)
    {s : KVCachePriority K × Sim.ClassAwareReliability K} (hrun : sideBySide turns k = .ok s)
    (hsame : SeesSameGapsBefore turns k) :
    Tracks s.1 s.2 ∧ s.2.Learned ∧ ∀ id time, s.2.lastSeen.lookup id = some time →
      ∀ j t, k ≤ j → turns[j]? = some t → time ≤ t.now := by
  have hinv := Runs.invariant (fun k (s : KVCachePriority K × Sim.ClassAwareReliability K) =>
    SeesSameGapsBefore turns k → Tracks s.1 s.2 ∧ s.2.Learned ∧
      ∀ id time, s.2.lastSeen.lookup id = some time →
        ∀ j t, k ≤ j → turns[j]? = some t → time ≤ t.now) ?_ ?_ hk hrun
  · exact hinv hsame
  · intro _
    refine ⟨tracks_start, Sim.ClassAwareReliability.learned_start, ?_⟩
    intro id time htime
    simp at htime
  · rintro k ⟨p, c⟩ t s' ht hbefore hold hstep hsame
    obtain ⟨htracks, hlearned, hpast⟩ := hold fun j t hj =>
      hsame j t (hj.trans (Nat.lt_succ_self k))
    obtain ⟨hk, -⟩ := List.getElem?_eq_some_iff.mp ht
    have hmemory : SameMemory names p c t :=
      (sideBySide_tables hagrees hk.le hbefore).sameMemory (hsame k t (Nat.lt_succ_self k) ht)
    have hnow : ∀ id time, c.lastSeen.lookup id = some time → time ≤ t.now :=
      fun id time htime => hpast id time htime k t le_rfl ht
    simp only [sideBySideStep, bind_eq_ok] at hstep
    obtain ⟨⟨c', place⟩, hcall, hstep⟩ := hstep
    obtain rfl := Except.ok.inj hstep
    obtain ⟨rfl, -⟩ := call_eq_ok hcall
    refine ⟨?_, hlearned.learn hnow, ?_⟩
    · exact htracks.learn (hagrees t (List.mem_of_getElem? ht)) hmemory hnow
    · intro id time htime j later hj hlater
      dsimp only at htime
      rw [Sim.ClassAwareReliability.learn_eq] at htime
      rcases Sim.lookup_observeGap htime with rfl | hearlier
      · obtain ⟨hk, rfl⟩ := List.getElem?_eq_some_iff.mp ht
        obtain ⟨hj', rfl⟩ := List.getElem?_eq_some_iff.mp hlater
        have hle := List.pairwise_iff_getElem.mp hsorted k j hk hj' (by omega)
        unfold Turn.now Duration.seconds
        gcongr
      · exact hpast id time hearlier j later (by omega) hlater

end Run

private theorem dedup_length_le {keys keys' : List ℤ} (h : keys ⊆ keys') :
    keys.dedup.length ≤ keys'.dedup.length := by
  apply List.Subperm.length_le
  apply List.subperm_of_subset (List.nodup_dedup keys)
  intro key hkey
  exact List.mem_dedup.mpr (h (List.mem_dedup.mp hkey))

theorem exists_latest {turns : List (Turn K)} {conversation : ℤ}
    (hused : conversation ∈ keysOf (sightings turns)) :
    ∃ first u rest, turns = first ++ u :: rest ∧ u.view.conversationId = some conversation ∧
      conversation ∉ keysOf (sightings rest) := by
  obtain ⟨_, time, later, hsplit, hlast⟩ := OrderedDict.exists_last hused
  obtain ⟨first, second, rfl, -, hsecond⟩ := List.filterMap_eq_append_iff.mp hsplit
  obtain ⟨skipped, u, rest, rfl, -, hu, rfl⟩ := List.filterMap_eq_cons_iff.mp hsecond
  obtain ⟨key, hkey, heq⟩ := Option.map_eq_some_iff.mp hu
  obtain ⟨rfl, rfl⟩ := Prod.mk.inj heq
  exact ⟨first ++ skipped, u, rest, (List.append_assoc ..).symm, hkey, hlast⟩

/-- What is remembered of a conversation is its latest turn, while there is
room for the conversations since. -/
theorem remembered_append_cons {conversation : ℤ} (first : List (Turn K)) {u : Turn K}
    (hu : u.view.conversationId = some conversation) {rest : List (Turn K)}
    (hlast : conversation ∉ keysOf (sightings rest))
    (hnear : (keysOf (sightings rest)).dedup.length < Sim.gapTrackerCapacity) :
    remembered (first ++ u :: rest) conversation = some u.time := by
  have hsplit : sightings (first ++ u :: rest) =
      sightings first ++ (conversation, u.time) :: sightings rest := by
    simp [sightings, hu]
  rw [remembered, hsplit, OrderedDict.lookup_updateAll _ hlast, if_pos hnear]

theorem keysOf_toolTurns_subset (turns : List (Turn K)) :
    keysOf (sightings (toolTurns turns)) ⊆ keysOf (sightings turns) :=
  List.map_subset _ ((List.filter_sublist).filterMap _).subset

/-- A conversation's tool turn meets the condition when all its earlier turns
are tool turns as well and the tables have room for every conversation so far,
whatever the other conversations do. -/
theorem SeesSameGap.of_tool_session {earlier : List (Turn K)} {t : Turn K}
    (hclass : classify t.request.body = .tool)
    (hsession : ∀ u ∈ earlier, u.view.conversationId = t.view.conversationId →
      classify u.request.body = .tool)
    (hroom : (keysOf (sightings earlier)).dedup.length ≤ Sim.gapTrackerCapacity)
    (hfits : ∀ u ∈ earlier, t.time - u.time ≤ maxDuration) : SeesSameGap earlier t := by
  intro conversation tool hconversation _
  rw [if_pos hclass]
  simp only [← remembered_eq_some_iff]
  by_cases hused : conversation ∈ keysOf (sightings earlier)
  · obtain ⟨first, u, rest, rfl, hu, hlast⟩ := exists_latest hused
    have hmem : u ∈ first ++ u :: rest := by simp
    have htools : toolTurns (first ++ u :: rest) = toolTurns first ++ u :: toolTurns rest := by
      simp [toolTurns, hsession u hmem (hu.trans hconversation.symm)]
    have hfewer := keysOf_toolTurns_subset rest
    have hnear : (keysOf (sightings rest)).dedup.length < Sim.gapTrackerCapacity := by
      have hcons : (conversation :: keysOf (sightings rest)).dedup.length ≤
          (keysOf (sightings (first ++ u :: rest))).dedup.length :=
        dedup_length_le (by simp [sightings, hu])
      rw [List.dedup_cons_of_notMem hlast, List.length_cons] at hcons
      omega
    rw [htools, remembered_append_cons first hu hlast hnear,
      remembered_append_cons _ hu (fun h => hlast (hfewer h))
        ((dedup_length_le hfewer).trans_lt hnear)]
    intro time
    refine ⟨Iff.rfl, ?_⟩
    intro htime
    obtain rfl := Option.some.inj htime
    exact hfits u hmem
  · have hspec : remembered earlier conversation = none :=
      OrderedDict.lookup_updateAll_of_absent hused
    have hplugin : remembered (toolTurns earlier) conversation = none :=
      OrderedDict.lookup_updateAll_of_absent fun h => hused (keysOf_toolTurns_subset _ h)
    intro time
    rw [hspec, hplugin]
    exact ⟨Iff.rfl, fun h => by cases h⟩

/-- A fresh plugin and a fresh policy fed the same turns, in order of time, give the
same directive at turn `k`, with the lease rounded to milliseconds, as long as at that
turn and each before it the requests so far are such that both measure the same gap.
Which gaps the two measure is a fact about the requests alone: their classes,
conversations, tools and times, and how many other conversations came in between. That
the tables agree wherever the condition says so is proved along the run. -/
theorem decide_agrees_with_spec (names : KeyNames) (turns : List (Turn K))
    (hsorted : turns.Pairwise fun a b => a.time ≤ b.time)
    (hagrees : ∀ t ∈ turns, t.Agrees names) (k : ℕ)
    (hsame : SeesSameGapsBefore turns (k + 1))
    (p : KVCachePriority K) (c c' : Sim.ClassAwareReliability K) (t : Turn K)
    (place : Sim.Placement K) (ht : turns[k]? = some t) (hrun : sideBySide turns k = .ok (p, c))
    (hcall : c.call t.view t.nodes t.now t.params = .ok (c', place)) :
    SameDirective t.now (p.decide t.request t.time).1 place := by
  obtain ⟨hlt, -⟩ := List.getElem?_eq_some_iff.mp ht
  obtain ⟨htracks, hlearned, hpast⟩ := sideBySide_tracks hsorted hagrees hlt.le hrun
    fun j t hj => hsame j t (hj.trans (Nat.lt_succ_self k))
  have hmemory : SameMemory names p c t :=
    (sideBySide_tables hagrees hlt.le hrun).sameMemory (hsame k t (Nat.lt_succ_self k) ht)
  exact htracks.sameDirective hlearned (hagrees t (List.mem_of_getElem? ht)) hmemory
    (fun id time htime => hpast id time htime k t le_rfl ht) hcall

def unaryNames : KeyNames where
  name id := String.ofList (List.replicate (Encodable.encode id + 1) 's')
  injective a b h := by
    have hlength := congrArg List.length (String.ofList_injective h)
    simpa using hlength
  ne_empty id h := by
    have hlist : List.replicate (Encodable.encode id + 1) 's' = [] := String.ofList_injective h
    cases hlist

def openingTurn (session : ℤ) (time : Time) (opening : List Message) : Turn ℚ where
  time := time
  request :=
    { body := chatBody opening []
      headers := (∅ : Headers).insert sessionIdHeader (unaryNames.name session) }
  view := { blocks := [7], numMessages := opening.length, conversationId := some session }
  nodes := [Sim.Node.init 0 8]
  params := {}

def searchCall : Any := .object [("function", .object [("name", .text "search")])]

def toolTurn (opening : List Message) : Turn ℚ where
  time := 2000000000
  request :=
    { body := chatBody (opening ++ [{ role := "assistant", toolCalls := [searchCall] },
        { role := "tool", content := "result" }]) []
      headers := (∅ : Headers).insert sessionIdHeader (unaryNames.name 1) }
  view :=
    { blocks := [7], numMessages := opening.length + 2, hasToolMessages := true
      conversationId := some 1, lastToolName := some "search" }
  nodes := [Sim.Node.init 0 8]
  params := {}

def toolSession (opening : List Message) : List (Turn ℚ) :=
  [openingTurn 1 0 opening, toolTurn opening]

theorem scope_sessionId (session : ℤ) (body : Option InferenceRequestBody) :
    conversationKey ((∅ : Headers).insert sessionIdHeader (unaryNames.name session)) body =
      unaryNames.name session := by
  unfold conversationKey
  rw [AList.lookup_insert]
  exact if_pos (unaryNames.ne_empty session)

theorem openingTurn_agrees {session : ℤ} {time : Time} {opening : List Message}
    (hkind : Sim.classify (openingTurn session time opening).view =
      (classify (openingTurn session time opening).request.body).kind)
    (htool : (openingTurn session time opening).tool = "") :
    (openingTurn session time opening).Agrees unaryNames :=
  ⟨hkind, scope_sessionId session _, htool, by simp [openingTurn]⟩

theorem toolTurn_agrees (opening : List Message) : (toolTurn opening).Agrees unaryNames := by
  refine ⟨?_, scope_sessionId 1 _, ?_, by simp [toolTurn]⟩
  · simp [toolTurn, Sim.classify, classify, chatBody, Class.kind]
  · simp [Turn.tool, toolTurn, lastToolName, chatBody, functionName, searchCall, Any.object?,
      Any.string?]

/-- A session that opens with a lone user message: the policy has seen the
session before its tool turn and leases, the plugin has not and gives no hint. -/
theorem no_directive_after_oneshot :
    (toolSession [userMessage "find it"]).Pairwise (fun a b => a.time ≤ b.time) ∧
      (∀ t ∈ toolSession [userMessage "find it"], t.Agrees unaryNames) ∧
      ∃ p c c' t place, (toolSession [userMessage "find it"])[1]? = some t ∧
        sideBySide (toolSession [userMessage "find it"]) 1 = .ok (p, c) ∧
        c.call t.view t.nodes t.now t.params = .ok (c', place) ∧
        ¬ SameDirective t.now (p.decide t.request t.time).1 place := by
  refine ⟨?_, ?_, ?_⟩
  · simp [toolSession, openingTurn, toolTurn]
  · intro t ht
    rcases List.mem_pair.mp ht with rfl | rfl
    · apply openingTurn_agrees <;> decide +kernel
    · exact toolTurn_agrees _
  · have hend : (do
        let s ← sideBySide (toolSession [userMessage "find it"]) 1
        let t := toolTurn [userMessage "find it"]
        let r ← s.2.call t.view t.nodes t.now t.params
        return (r.2.priority, (s.1.decide t.request t.time).1)) =
        .ok (some Sim.high, none) := by decide +kernel
    simp only [bind_eq_ok] at hend
    obtain ⟨⟨p, c⟩, hrun, ⟨c', place⟩, hcall, hmarks⟩ := hend
    refine ⟨p, c, c', toolTurn [userMessage "find it"], place, rfl, hrun, hcall, ?_⟩
    intro hsame
    obtain ⟨hprio, hdirective⟩ := Prod.mk.inj (Except.ok.inj hmarks)
    have hnone := hsame.priority
    rw [hdirective, hprio] at hnone
    cases hnone

def systemOpening : List Message :=
  [{ role := "system", content := "Be brief." }, userMessage "find it"]

/-- A session that opens with a system message, with a lone question of another
session before it comes back. -/
def interruptedSession : List (Turn ℚ) :=
  [openingTurn 1 0 systemOpening, openingTurn 2 1000000000 [userMessage "hello"],
    toolTurn systemOpening]

/-- The plugin has seen the session's first turn as well and both lease at its
second, though only the policy has seen what came between. -/
theorem decide_agrees_with_spec_second :
    ∃ p c c' place, sideBySide interruptedSession 2 = .ok (p, c) ∧
      c.call (toolTurn systemOpening).view (toolTurn systemOpening).nodes
        (toolTurn systemOpening).now (toolTurn systemOpening).params = .ok (c', place) ∧
      place.priority = some Sim.high ∧
      SameDirective (toolTurn systemOpening).now
        (p.decide (toolTurn systemOpening).request (toolTurn systemOpening).time).1 place := by
  have hend : (do
      let s ← sideBySide interruptedSession 2
      let t := toolTurn systemOpening
      let r ← s.2.call t.view t.nodes t.now t.params
      return r.2.priority) = .ok (some Sim.high) := by decide +kernel
  simp only [bind_eq_ok] at hend
  obtain ⟨⟨p, c⟩, hrun, ⟨c', place⟩, hcall, hprio⟩ := hend
  refine ⟨p, c, c', place, hrun, hcall, Except.ok.inj hprio, ?_⟩
  apply decide_agrees_with_spec unaryNames interruptedSession ?_ ?_ 2 ?_
    p c c' (toolTurn systemOpening) place rfl hrun hcall
  · simp [interruptedSession, openingTurn, toolTurn]
  · intro t ht
    simp only [interruptedSession, List.mem_cons, List.not_mem_nil, or_false] at ht
    obtain rfl | rfl | rfl := ht
    · apply openingTurn_agrees <;> decide +kernel
    · apply openingTurn_agrees <;> decide +kernel
    · exact toolTurn_agrees _
  · intro j t hj ht
    obtain rfl | rfl | rfl : j = 0 ∨ j = 1 ∨ j = 2 := by omega
    · obtain rfl := Option.some.inj ht
      intro conversation tool _ htool
      cases htool
    · obtain rfl := Option.some.inj ht
      intro conversation tool _ htool
      cases htool
    · obtain rfl := Option.some.inj ht
      apply SeesSameGap.of_tool_session
      · decide +kernel
      · decide +kernel
      · decide +kernel
      · decide +kernel

end SchedLm.Gateway
