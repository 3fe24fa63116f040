import SchedLm.Sim.EngineRun

/-!
Leases. The reliability policy marks the prefix of a tool turn `high` until the
predicted return; the node stores that as a bounded lease exactly when the
predicted window is not empty. An empty window comes from gaps of length zero,
and then the mark is stored without an end.
-/

namespace SchedLm.Sim

open Runs

variable {K : Type} [Scalar K]

structure Placement.NoDirective (p : Placement K) : Prop where
  retainUntil : p.retainUntil = ((0 : K) : WithTop K)
  priority : p.priority = none

theorem predict_noDirective {reqBlocks : List BlockHash} {node : Node K} {now : K}
    {params : CostParams K} {hot : Node K} {transfer : Bool} {p : Placement K}
    (h : predict reqBlocks node now params hot transfer = .ok p) : p.NoDirective := by
  obtain ⟨cost, hpredicted⟩ := predict_eq_ok h
  exact ⟨hpredicted.retainUntil, hpredicted.priority⟩

theorem transferAware_noDirective {req : RequestView} {nodes : List (Node K)} {now : K}
    {params : CostParams K} {p : Placement K}
    (h : transferAware req nodes now params = .ok p) : p.NoDirective := by
  unfold transferAware at h
  simp only [bind_eq_ok] at h
  obtain ⟨hot, -, best, hbest, h⟩ := h
  have hall : ∀ p ∈ best, p.NoDirective := by
    refine foldlM_preserves (fun best => ∀ p ∈ best, p.NoDirective) ?_ (by simp) hbest
    rintro best ⟨node, transfer⟩ best' hold hstep
    unfold scoreCandidate at hstep
    dsimp only at hstep
    split_ifs at hstep with hskip
    · obtain rfl : best = best' := Except.ok.inj hstep
      exact hold
    · simp only [bind_eq_ok] at hstep
      obtain ⟨_, -, hstep⟩ := hstep
      cases best with
      | none =>
        obtain rfl := Except.ok.inj hstep
        rintro p ⟨⟩
        exact ⟨rfl, rfl⟩
      | some b =>
        obtain rfl := Except.ok.inj hstep
        rintro p ⟨⟩
        split_ifs
        · exact ⟨rfl, rfl⟩
        · exact hold b rfl
  cases best with
  | none => cases h
  | some b =>
    obtain rfl : b = p := Except.ok.inj h
    exact hall b rfl

theorem classAware_noDirective {req : RequestView} {nodes : List (Node K)} {now : K}
    {params : CostParams K} {p : Placement K}
    (h : classAware req nodes now params = .ok p) : p.NoDirective := by
  unfold classAware at h
  cases hkind : classify req with
  | tool =>
    rw [hkind] at h
    exact transferAware_noDirective h
  | oneshot =>
    simp only [hkind, bind_eq_ok] at h
    obtain ⟨_, -, _, -, h⟩ := h
    exact predict_noDirective h
  | rag =>
    simp only [hkind, bind_eq_ok] at h
    obtain ⟨_, -, h⟩ := h
    split_ifs at h
    · exact predict_noDirective h
    · exact transferAware_noDirective h

namespace ClassAwareReliability

/-- The default thresholds, and statistics of non-negative gaps only: what a fresh
policy has, and keeps along a stream in order of arrival. -/
structure Learned (c : ClassAwareReliability K) : Prop where
  shortGap : c.shortGap = defaultShortGap
  confThreshold : c.confThreshold = defaultConfThreshold
  retainMargin : c.retainMargin = defaultRetainMargin
  capacity : 0 < c.index.capacity
  alpha : c.index.alpha = 3 / 10
  priors : c.index.priors = ∅
  defaultPrior : c.index.defaultPrior = (2, 16)
  stats : ∀ tool stat, c.index.stats.lookup tool = some stat → stat.Sound

theorem learned_start : Learned ({} : ClassAwareReliability K) := by
  refine ⟨rfl, rfl, rfl, Nat.succ_pos 511, rfl, rfl, rfl, ?_⟩
  intro tool stat h
  simp at h

/-- The request is a tool turn whose tool, with the gap it realizes folded in, has only
ever been seen to return after no time at all. It is asked of the policy before the
turn. -/
def PredictsNoGap (c : ClassAwareReliability K) (req : RequestView) (now : K) : Prop :=
  classify req = .tool ∧ ∃ tool, req.lastToolName = some tool ∧
    match (observeGap c.lastSeen req.conversationId req.lastToolName now).1 with
    | some gap => gap = 0 ∧ ∀ stat, c.index.stats.lookup tool = some stat → stat.mean = 0
    | none => ∃ stat, c.index.stats.lookup tool = some stat ∧ stat.mean = 0

theorem PredictsNoGap.eq_zero {c : ClassAwareReliability K} {req : RequestView} {now gap : K}
    (h : c.PredictsNoGap req now)
    (hgap : (observeGap c.lastSeen req.conversationId req.lastToolName now).1 = some gap) :
    gap = 0 := by
  obtain ⟨-, tool, -, hzero⟩ := h
  rw [hgap] at hzero
  exact hzero.1

section Learn

variable {c : ClassAwareReliability K} {req : RequestView} {now : K}

theorem learn_eq (c : ClassAwareReliability K) (req : RequestView) (now : K) :
    c.learn req now = { c with
      index := match (observeGap c.lastSeen req.conversationId req.lastToolName now).1,
          req.lastToolName with
        | some gap, some tool => c.index.record tool gap
        | _, _ => c.index
      lastSeen := (observeGap c.lastSeen req.conversationId req.lastToolName now).2 } := by
  unfold learn
  generalize observeGap c.lastSeen req.conversationId req.lastToolName now = observed
  obtain ⟨gap, lastSeen⟩ := observed
  cases gap with
  | none => rfl
  | some gap => cases req.lastToolName <;> rfl

/-- Folding a gap since an earlier turn keeps every statistic sound, and leaves
a zero mean for the tool only when the gap is zero and so was the mean. -/
theorem Learned.sound_folded (h : c.Learned) (tool : String) {gap : K} (hgap : 0 ≤ gap) :
    (c.index.folded tool gap).Sound ∧ ((c.index.folded tool gap).mean = 0 ↔
      gap = 0 ∧ ∀ stat, c.index.stats.lookup tool = some stat → stat.mean = 0) := by
  unfold ToolGapIndex.folded
  rw [h.alpha]
  cases hstat : c.index.stats.lookup tool with
  | none =>
    obtain ⟨hsound, hmean⟩ := GapStat.sound_fold (Or.inl (rfl : ({} : GapStat K).count = 0)) hgap
    refine ⟨hsound, hmean.trans ?_⟩
    simp
  | some stat =>
    have hold := h.stats tool stat hstat
    obtain ⟨hsound, hmean⟩ := GapStat.sound_fold (Or.inr hold) hgap
    refine ⟨hsound, hmean.trans ?_⟩
    simp [hold.count]

variable (h : c.Learned)
  (hpast : ∀ conversation time, c.lastSeen.lookup conversation = some time → time ≤ now)

include h hpast

theorem Learned.learn : (c.learn req now).Learned := by
  rw [learn_eq]
  cases hgap : (observeGap c.lastSeen req.conversationId req.lastToolName now).1 with
  | none => exact ⟨h.1, h.2, h.3, h.4, h.5, h.6, h.7, h.8⟩
  | some gap =>
    obtain ⟨conversation, prev, tool, -, hprev, htool, rfl⟩ := observeGap_fst_eq_some.mp hgap
    simp only [htool]
    refine ⟨h.1, h.2, h.3, h.4, h.5, h.6, h.7, fun other stat hstat => ?_⟩
    rcases ToolGapIndex.lookup_record hstat with ⟨-, rfl⟩ | hold
    · exact (h.sound_folded tool (sub_nonneg.mpr (hpast _ _ hprev))).1
    · exact h.stats other stat hold

/-- After learning, the tool of the request has a statistic of mean zero exactly
when the request predicts no gap. -/
theorem Learned.predictsNoGap_iff (hkind : classify req = .tool) :
    c.PredictsNoGap req now ↔ ∃ tool stat, req.lastToolName = some tool ∧
      (c.learn req now).index.stats.lookup tool = some stat ∧ stat.mean = 0 := by
  rw [learn_eq, PredictsNoGap, and_iff_right hkind]
  cases hgap : (observeGap c.lastSeen req.conversationId req.lastToolName now).1 with
  | none => simp
  | some gap =>
    obtain ⟨conversation, prev, tool, -, hprev, htool, rfl⟩ := observeGap_fst_eq_some.mp hgap
    have hfolded := h.sound_folded tool (sub_nonneg.mpr (hpast _ _ hprev))
    simp only [htool, Option.some.injEq]
    constructor
    · rintro ⟨_, rfl, hzero⟩
      exact ⟨tool, _, rfl, ToolGapIndex.lookup_record_self h.capacity, hfolded.2.mpr hzero⟩
    · rintro ⟨_, stat, rfl, hstat, hmean⟩
      rw [ToolGapIndex.lookup_record_self h.capacity, Option.some.injEq] at hstat
      exact ⟨tool, rfl, hfolded.2.mp (hstat ▸ hmean)⟩

end Learn

section Window

variable {c : ClassAwareReliability K}

/-- Leases come from learned statistics: the default prior is not trusted. -/
theorem Learned.stat_of_leaseWindow (h : c.Learned) {tool : Option String} {window : K}
    (hwindow : c.leaseWindow tool = some window) :
    ∃ name stat, tool = some name ∧ c.index.stats.lookup name = some stat ∧
      1 / 2 ≤ gapConfidence stat.mean stat.var ∧ stat.mean ≤ 3 ∧
      window = max (stat.mean * (3 / 2)) (stat.mean + Scalar.sqrt stat.var) := by
  have hprior : ¬ gapConfidence (2 : K) 16 ≥ 1 / 2 := not_le.mpr gapConfidence_defaultPrior_lt
  unfold leaseWindow at hwindow
  rw [h.shortGap, h.confThreshold, h.retainMargin] at hwindow
  have hdefault : c.index.predict tool = (2, 16) → False := by
    intro heq
    rw [heq] at hwindow
    simp only [defaultConfThreshold, hprior, false_and, if_false] at hwindow
    cases hwindow
  cases tool with
  | none => exact (hdefault h.defaultPrior).elim
  | some name =>
    cases hstat : c.index.stats.lookup name with
    | none =>
      refine (hdefault ?_).elim
      simp [ToolGapIndex.predict, hstat, h.priors, h.defaultPrior]
    | some stat =>
      have hpredict : c.index.predict (some name) = (stat.mean, stat.var) := by
        simp [ToolGapIndex.predict, hstat]
      rw [hpredict] at hwindow
      dsimp only at hwindow
      split_ifs at hwindow with hlease
      exact ⟨name, stat, rfl, hstat, hlease.1, hlease.2, (Option.some.inj hwindow).symm⟩

/-- A lease is at most twice the short gap long, and empty only when the mean
gap is zero. -/
theorem Learned.leaseWindow_bounds (h : c.Learned) {tool : Option String} {window : K}
    (hwindow : c.leaseWindow tool = some window) :
    0 ≤ window ∧ window ≤ 2 * defaultShortGap ∧ (window = 0 ↔ ∃ name stat,
      tool = some name ∧ c.index.stats.lookup name = some stat ∧ stat.mean = 0) := by
  obtain ⟨name, stat, rfl, hstat, hconf, hshort, rfl⟩ := h.stat_of_leaseWindow hwindow
  have hsound := h.stats name stat hstat
  have hmean := hsound.mean
  have hrootNonneg := Scalar.sqrt_nonneg stat.var
  refine ⟨le_max_of_le_left (by positivity),
    window_le_of_half_le_gapConfidence hmean hsound.var hconf hshort, ?_⟩
  · constructor
    · intro hzero
      have hle : stat.mean * (3 / 2) ≤ 0 := hzero ▸ le_max_left _ _
      exact ⟨name, stat, rfl, hstat, by linarith⟩
    · rintro ⟨_, stat', ⟨⟩, hstat', hzero⟩
      obtain rfl : stat = stat' := Option.some.inj (hstat.symm.trans hstat')
      have hflat : Scalar.sqrt stat.var ≤ 0 := by
        apply Scalar.sqrt_le_of_le_mul_self le_rfl
        rw [hsound.var_of_mean hzero, mul_zero]
      rw [hzero, le_antisymm hflat hrootNonneg]
      simp

/-- A tool whose mean gap is zero is trusted to return at once. -/
theorem Learned.leaseWindow_of_zero_mean (h : c.Learned) {name : String} {stat : GapStat K}
    (hstat : c.index.stats.lookup name = some stat) (hmean : stat.mean = 0) :
    c.leaseWindow (some name) = some 0 := by
  have hpredict : c.index.predict (some name) = (0, 0) := by
    simp [ToolGapIndex.predict, hstat, hmean, (h.stats name stat hstat).var_of_mean hmean]
  have hlease : ∃ window, c.leaseWindow (some name) = some window := by
    unfold leaseWindow
    rw [hpredict, h.confThreshold, h.shortGap]
    dsimp only
    rw [if_pos]
    · exact ⟨_, rfl⟩
    · constructor
      · simp only [gapConfidence, defaultConfThreshold, zero_div, add_zero, div_one]
        norm_num
      · simp [defaultShortGap]
  obtain ⟨window, hwindow⟩ := hlease
  have hzero := (h.leaseWindow_bounds hwindow).2.2.mpr ⟨name, stat, rfl, hstat, hmean⟩
  rw [hwindow, hzero]

end Window

/-- A stored directive that is a bounded lease if it is a `high` mark at all. -/
def IsLease (now : K) (mark : Option ℤ × WithTop K) : Prop :=
  mark.1 = some high →
    (now : WithTop K) < mark.2 ∧ mark.2 ≤ ((now + 2 * defaultShortGap : K) : WithTop K)

/-- What the node stores for a request is a bounded lease exactly when the
request does not predict an empty gap. -/
theorem Learned.isLease_iff {c : ClassAwareReliability K} {req : RequestView} {now : K}
    (h : c.Learned)
    (hpast : ∀ conversation time, c.lastSeen.lookup conversation = some time → time ≤ now)
    (hnow : 0 ≤ now) {place : Placement K} (hplace : place.NoDirective) :
    IsLease now (Node.directive now ((c.learn req now).attach req now place).retainUntil
        ((c.learn req now).attach req now place).priority) ↔ ¬ c.PredictsNoGap req now := by
  have hlearned : (c.learn req now).Learned := h.learn hpast
  have hpastLease : ¬ now < 0 := not_lt.mpr hnow
  cases hkind : classify req with
  | oneshot =>
    have hmark : ¬ c.PredictsNoGap req now := fun hzero => by
      rw [hzero.1] at hkind
      cases hkind
    refine iff_of_true ?_ hmark
    intro hhigh
    simp [attach, hkind, Node.directive, clampPriority, minPriority, maxPriority, evictFirst,
      high, pinned] at hhigh
  | rag =>
    have hmark : ¬ c.PredictsNoGap req now := fun hzero => by
      rw [hzero.1] at hkind
      cases hkind
    refine iff_of_true ?_ hmark
    intro hhigh
    simp [attach, hkind, Node.directive, hplace.retainUntil, hplace.priority, hpastLease] at hhigh
  | tool =>
    rw [h.predictsNoGap_iff hpast hkind]
    cases hwindow : (c.learn req now).leaseWindow req.lastToolName with
    | none =>
      refine iff_of_true ?_ ?_
      · intro hhigh
        simp [attach, hkind, hwindow, Node.directive, hplace.retainUntil, hplace.priority,
          hpastLease] at hhigh
      · rintro ⟨tool, stat, htool, hstat, hmean⟩
        rw [htool, hlearned.leaseWindow_of_zero_mean hstat hmean] at hwindow
        cases hwindow
    | some window =>
      obtain ⟨hnonneg, hbound, hzero⟩ := hlearned.leaseWindow_bounds hwindow
      have hexists : (∃ tool stat, req.lastToolName = some tool ∧
          (c.learn req now).index.stats.lookup tool = some stat ∧ stat.mean = 0) ↔
          window = 0 := hzero.symm
      rw [hexists]
      have hattach : ((c.learn req now).attach req now place).retainUntil =
            ((now + window : K) : WithTop K) ∧
          ((c.learn req now).attach req now place).priority = some high := by
        simp [attach, hkind, hwindow]
      have hclamp : clampPriority high = high := by decide
      rw [hattach.1, hattach.2, IsLease, Node.directive]
      simp only [hclamp, forall_const]
      constructor
      · rintro ⟨-, hle⟩ rfl
        rw [add_zero, if_neg (lt_irrefl _)] at hle
        exact absurd hle (not_le.mpr (WithTop.coe_lt_top _))
      · intro hpos
        have hlt : now < now + window :=
          lt_add_of_pos_right now (lt_of_le_of_ne hnonneg (Ne.symm hpos))
        rw [if_pos (by exact_mod_cast hlt)]
        constructor
        · exact_mod_cast hlt
        · exact_mod_cast add_le_add_right hbound now

end ClassAwareReliability

namespace Node

theorem marks_evictOne {n : Node K} {now : K} {h : BlockHash} {prio : ℤ}
    (hprio : (n.evictOne now).priority.lookup h = some prio) :
    n.priority.lookup h = some prio ∧
      (n.evictOne now).expiry.lookup h = n.expiry.lookup h := by
  obtain ⟨pressure, ⟨-, heq⟩ | ⟨victim, -, heq⟩⟩ := n.evictOne_cases now
  · rw [heq] at hprio ⊢
    exact ⟨hprio, rfl⟩
  · rw [heq] at hprio ⊢
    dsimp only at hprio ⊢
    have hne : h ≠ victim := by
      rintro rfl
      rw [AList.lookup_erase] at hprio
      cases hprio
    rw [AList.lookup_erase_ne hne] at hprio ⊢
    exact ⟨hprio, rfl⟩

theorem marks_evictWhile {now : K} {fuel : ℕ} {n n' : Node K}
    (hrun : n.evictWhile now fuel = some n') {h : BlockHash} {prio : ℤ}
    (hprio : n'.priority.lookup h = some prio) :
    n.priority.lookup h = some prio ∧ n'.expiry.lookup h = n.expiry.lookup h := by
  refine evictWhile_preserves (fun m => m.priority.lookup h = some prio →
    n.priority.lookup h = some prio ∧ m.expiry.lookup h = n.expiry.lookup h) ?_
    (fun hn => ⟨hn, rfl⟩) hrun hprio
  intro m hm hmark
  obtain ⟨hleft, hexpiry⟩ := marks_evictOne hmark
  obtain ⟨hbefore, hsame⟩ := hm hleft
  exact ⟨hbefore, hexpiry.trans hsame⟩

omit [Scalar K] in
/-- The insertion loop writes one mark on the request's blocks and leaves every
other mark as it is. -/
theorem marks_foldl_stamp (prio : Option ℤ) (expiry : WithTop K) (reqBlocks : List BlockHash)
    (n : Node K) (h : BlockHash) :
    (reqBlocks.foldl (stamp prio expiry) n).priority.lookup h =
        (if h ∈ reqBlocks then prio else n.priority.lookup h) ∧
      (h ∉ reqBlocks → (reqBlocks.foldl (stamp prio expiry) n).expiry.lookup h =
        n.expiry.lookup h) ∧
      (h ∈ reqBlocks → prio ≠ none →
        (reqBlocks.foldl (stamp prio expiry) n).expiry.lookup h = some expiry) := by
  induction reqBlocks using List.reverseRecOn with
  | nil => simp
  | append_singleton rest b ih =>
    rw [List.foldl_append, List.foldl_cons, List.foldl_nil]
    generalize rest.foldl (stamp prio expiry) n = m at ih
    obtain ⟨hprio, hkeep, hwrite⟩ := ih
    rcases eq_or_ne h b with rfl | hne
    · cases prio with
      | none => simp [stamp]
      | some p => simp [stamp]
    · have hmem : h ∈ rest ++ [b] ↔ h ∈ rest := by simp [hne]
      simp only [hmem]
      cases prio with
      | none =>
        simp only [stamp, AList.lookup_erase_ne hne]
        exact ⟨hprio, hkeep, hwrite⟩
      | some p =>
        simp only [stamp, AList.lookup_insert_ne hne]
        exact ⟨hprio, hkeep, hwrite⟩

/-- A mark on a node after a request is the request's own, or an old one on a
block the request does not list. -/
theorem marks_admitRequest {n n' : Node K} {call : AdmitCall K}
    (hadmitted : n.admitRequest call = some n') {h : BlockHash} {prio : ℤ}
    (hprio : n'.priority.lookup h = some prio) :
    (h ∈ call.reqBlocks ∧
      (directive call.now call.retainUntil call.priority).1 = some prio ∧
      n'.expiry.lookup h = some (directive call.now call.retainUntil call.priority).2) ∨
    (h ∉ call.reqBlocks ∧ n.priority.lookup h = some prio ∧
      n'.expiry.lookup h = n.expiry.lookup h) := by
  obtain ⟨hinserted, hexpiry⟩ := marks_evictWhile hadmitted hprio
  obtain ⟨hmark, hkeep, hwrite⟩ := marks_foldl_stamp
    (directive call.now call.retainUntil call.priority).1
    (directive call.now call.retainUntil call.priority).2 call.reqBlocks
    { n with
      atIndex := call.atIndex
      busyUntil := max call.now n.busyUntil + call.serviceTime } h
  have hprio' := hmark.symm.trans hinserted
  split_ifs at hprio' with hmem
  · refine Or.inl ⟨hmem, hprio', hexpiry.trans (hwrite hmem ?_)⟩
    rw [hprio']
    exact Option.some_ne_none prio
  · exact Or.inr ⟨hmem, hprio', hexpiry.trans (hkeep hmem)⟩

end Node

abbrev leasePolicy (K : Type) [Scalar K] : Policy K := ClassAwareReliability.policy {}

section Run

variable {requests : List (TurnRequest K)} {numNodes : ℕ} {cacheBlocks : ℤ}
  {params : CostParams K} {belady : Bool} {k : ℕ} {s : SimState K (ClassAwareReliability K)}
  {req : TurnRequest K} {t : Turn K (ClassAwareReliability K)}

/-- A turn learns the gap, and then attaches a directive to a placement that
has none. -/
theorem Visits.attached
    (h : Visits requests (leasePolicy K) numNodes cacheBlocks params belady k s req t) :
    t.policy = s.policy.learn (requestView req) req.arrival ∧
      ∃ place : Placement K, place.NoDirective ∧
        t.chosen = t.policy.attach (requestView req) req.arrival place := by
  have hcall := h.routed.call
  simp only [ClassAwareReliability.call, bind_eq_ok] at hcall
  obtain ⟨place, hplace, hcall⟩ := hcall
  obtain ⟨hpolicy, hchosen⟩ := Prod.mk.inj (Except.ok.inj hcall)
  exact ⟨hpolicy.symm, place, classAware_noDirective hplace, by rw [← hpolicy, ← hchosen]⟩

/-- In every reachable state the statistics are sound, and every time seen lies
before all requests to come. -/
theorem simAfter_learned (hsorted : requests.Pairwise fun a b => a.arrival ≤ b.arrival)
    (hk : k ≤ requests.length)
    (hrun : simAfter requests (leasePolicy K) numNodes cacheBlocks params belady k = .ok s) :
    s.policy.Learned ∧ ∀ conversation time,
      s.policy.lastSeen.lookup conversation = some time →
        ∀ j req, k ≤ j → requests[j]? = some req → time ≤ req.arrival := by
  refine simAfter_induction (fun k (s : SimState K (ClassAwareReliability K)) =>
    s.policy.Learned ∧ ∀ conversation time,
      s.policy.lastSeen.lookup conversation = some time →
        ∀ j req, k ≤ j → requests[j]? = some req → time ≤ req.arrival) ?_ ?_ hk hrun
  · refine ⟨ClassAwareReliability.learned_start, ?_⟩
    intro conversation time htime
    simp [simStart] at htime
  · rintro k s req s' hreq hbefore ⟨hlearned, hpast⟩ hstep
    obtain ⟨t, node, hroute, -, rfl⟩ := simStep_eq_ok hstep
    have hvisit : Visits requests (leasePolicy K) numNodes cacheBlocks params belady k s req t :=
      ⟨hbefore, hreq, hroute⟩
    obtain ⟨hpolicy, -⟩ := hvisit.attached
    constructor
    · change t.policy.Learned
      rw [hpolicy]
      exact hlearned.learn fun conversation time htime =>
        hpast conversation time htime k req le_rfl hreq
    · intro conversation time htime j later hj hlater
      change t.policy.lastSeen.lookup conversation = some time at htime
      rw [hpolicy, ClassAwareReliability.learn_eq] at htime
      rcases lookup_observeGap htime with rfl | hold
      · obtain ⟨hk, rfl⟩ := List.getElem?_eq_some_iff.mp hreq
        obtain ⟨hj', rfl⟩ := List.getElem?_eq_some_iff.mp hlater
        exact List.pairwise_iff_getElem.mp hsorted k j hk hj' (by omega)
      · exact hpast conversation time hold j later (by omega) hlater

/-- In every run, the directive a turn stores is a bounded lease, if it is a
`high` mark, exactly when the request does not predict an empty gap. -/
theorem Visits.isLease_iff (hsorted : requests.Pairwise fun a b => a.arrival ≤ b.arrival)
    (hnonneg : ∀ req ∈ requests, 0 ≤ req.arrival)
    (h : Visits requests (leasePolicy K) numNodes cacheBlocks params belady k s req t) :
    ClassAwareReliability.IsLease req.arrival
        (Node.directive req.arrival t.chosen.retainUntil t.chosen.priority) ↔
      ¬ s.policy.PredictsNoGap (requestView req) req.arrival := by
  obtain ⟨hlearned, hpast⟩ := simAfter_learned hsorted h.le_length h.state
  obtain ⟨hpolicy, place, hplace, hchosen⟩ := h.attached
  rw [hchosen, hpolicy]
  exact hlearned.isLease_iff
    (fun conversation time htime => hpast conversation time htime k req le_rfl h.request)
    (hnonneg req (List.mem_of_getElem? h.request)) hplace

end Run

/-- The turn that wrote the mark of a block on a node last, among the first `k`. -/
structure LastWrite (requests : List (TurnRequest K)) (policy : Policy K) (numNodes : ℕ)
    (cacheBlocks : ℤ) (params : CostParams K) (belady : Bool) (k nodeId : ℕ) (h : BlockHash)
    (j : ℕ) (req : TurnRequest K) : Prop where
  before : j < k
  written : ∃ s t, Visits requests policy numNodes cacheBlocks params belady j s req t ∧
    t.chosen.nodeId = nodeId ∧ h ∈ req.blockHashes
  last : ∀ l s later t, j < l → l < k →
    Visits requests policy numNodes cacheBlocks params belady l s later t →
    t.chosen.nodeId = nodeId → h ∉ later.blockHashes

/-- Every `high` mark on a node, in the state after `k` requests, ends within twice the
short gap of the request that wrote it, and after that request. -/
def HighMarksAreLeases (requests : List (TurnRequest K)) (numNodes : ℕ) (cacheBlocks : ℤ)
    (params : CostParams K) (belady : Bool) (k : ℕ)
    (s : SimState K (ClassAwareReliability K)) : Prop :=
  ∀ i (n : Node K) h, s.nodes[i]? = some n → n.priority.lookup h = some high →
    ∃ j req expiry, LastWrite requests (leasePolicy K) numNodes cacheBlocks params belady k i h
      j req ∧ n.expiry.lookup h = some expiry ∧ (req.arrival : WithTop K) < expiry ∧
      expiry ≤ ((req.arrival + 2 * defaultShortGap : K) : WithTop K)

section Run

variable {requests : List (TurnRequest K)} {numNodes : ℕ} {cacheBlocks : ℤ}
  {params : CostParams K} {belady : Bool} {k : ℕ} {s s' : SimState K (ClassAwareReliability K)}
  {req : TurnRequest K} {t : Turn K (ClassAwareReliability K)}

/-- One turn whose own mark is a lease keeps all of them leases. -/
theorem HighMarksAreLeases.step
    (h : HighMarksAreLeases requests numNodes cacheBlocks params belady k s)
    (hvisit : Visits requests (leasePolicy K) numNodes cacheBlocks params belady k s req t)
    (hlease : ClassAwareReliability.IsLease req.arrival
      (Node.directive req.arrival t.chosen.retainUntil t.chosen.priority))
    {node : Node K} (hadmitted : t.node.admitRequest (t.admitCall params s.idx req) = some node)
    (hnodes : s'.nodes = s.nodes.set t.chosen.nodeId node) :
    HighMarksAreLeases requests numNodes cacheBlocks params belady (k + 1) s' := by
  -- an old mark stays, as long as this turn did not overwrite it
  have hold : ∀ i (n : Node K) b, s.nodes[i]? = some n → n.priority.lookup b = some high →
      (t.chosen.nodeId = i → b ∉ req.blockHashes) →
      ∃ j writer expiry, LastWrite requests (leasePolicy K) numNodes cacheBlocks params belady
        (k + 1) i b j writer ∧ n.expiry.lookup b = some expiry ∧
        (writer.arrival : WithTop K) < expiry ∧
        expiry ≤ ((writer.arrival + 2 * defaultShortGap : K) : WithTop K) := by
    intro i n b hn hmark hkept
    obtain ⟨j, writer, expiry, hwrite, hrest⟩ := h i n b hn hmark
    refine ⟨j, writer, expiry, ⟨?_, hwrite.written, ?_⟩, hrest⟩
    · exact hwrite.before.trans (Nat.lt_succ_self k)
    · intro l sl later tl hjl hlk hl hchosen
      rcases Nat.lt_succ_iff_lt_or_eq.mp hlk with hlt | rfl
      · exact hwrite.last l sl later tl hjl hlt hl hchosen
      · obtain ⟨-, rfl, rfl⟩ := hl.unique hvisit
        exact hkept hchosen
  intro i n b hn hmark
  rw [hnodes, List.getElem?_set] at hn
  split_ifs at hn with hi
  · obtain ⟨-, rfl⟩ := hn
    rcases Node.marks_admitRequest hadmitted hmark with
      ⟨hmem, hhigh, hexpiry⟩ | ⟨hmem, hprio, hexpiry⟩
    · obtain ⟨hlt, hle⟩ := hlease hhigh
      refine ⟨k, req, _, ⟨Nat.lt_succ_self k, ⟨s, t, hvisit, hi, hmem⟩, ?_⟩, hexpiry, hlt, hle⟩
      intro l sl later tl hkl hlk
      omega
    · rw [hexpiry]
      exact hold i t.node b (hi ▸ hvisit.routed.node) hprio fun _ => hmem
  · exact hold i n b hn hmark fun heq => absurd heq hi

end Run

/-- Under a fresh reliability policy, for every stream in order of arrival and every
cluster. In a run whose turns never predict an empty gap, every `high` mark in every
state reached is a bounded lease; and on any turn of any run the directive that is
stored is such a lease, or no `high` mark, exactly when the turn does not predict an
empty gap. An empty gap gives a lease that ends as it begins, and the node reads that as
a mark without end. -/
theorem high_marks_are_leases_iff (requests : List (TurnRequest K))
    (hsorted : requests.Pairwise fun a b => a.arrival ≤ b.arrival)
    (hnonneg : ∀ req ∈ requests, 0 ≤ req.arrival) (numNodes : ℕ) (cacheBlocks : ℤ)
    (params : CostParams K) (belady : Bool) :
    (∀ k s, k ≤ requests.length →
      simAfter requests (leasePolicy K) numNodes cacheBlocks params belady k = .ok s →
      (∀ j sj req t, j < k →
        Visits requests (leasePolicy K) numNodes cacheBlocks params belady j sj req t →
        ¬ sj.policy.PredictsNoGap (requestView req) req.arrival) →
      HighMarksAreLeases requests numNodes cacheBlocks params belady k s) ∧
    ∀ k s req t, Visits requests (leasePolicy K) numNodes cacheBlocks params belady k s req t →
      (ClassAwareReliability.IsLease req.arrival
          (Node.directive req.arrival t.chosen.retainUntil t.chosen.priority) ↔
        ¬ s.policy.PredictsNoGap (requestView req) req.arrival) := by
  constructor
  · intro k s hk hrun
    refine simAfter_induction (fun k (s : SimState K (ClassAwareReliability K)) =>
      (∀ j sj req t, j < k →
        Visits requests (leasePolicy K) numNodes cacheBlocks params belady j sj req t →
        ¬ sj.policy.PredictsNoGap (requestView req) req.arrival) →
      HighMarksAreLeases requests numNodes cacheBlocks params belady k s) ?_ ?_ hk hrun
    · intro _ i n b hn hmark
      simp only [simStart, List.getElem?_map, Option.map_eq_some_iff] at hn
      obtain ⟨_, -, rfl⟩ := hn
      simp [Node.init] at hmark
    · intro k s req s' hreq hbefore hmarks hstep hall
      obtain ⟨t, node, hroute, hadmitted, rfl⟩ := simStep_eq_ok hstep
      have hvisit : Visits requests (leasePolicy K) numNodes cacheBlocks params belady k s req
          t := ⟨hbefore, hreq, hroute⟩
      have hpast := hmarks fun j sj r tj hj => hall j sj r tj (hj.trans (Nat.lt_succ_self k))
      exact hpast.step hvisit ((hvisit.isLease_iff hsorted hnonneg).mpr
        (hall k s req t (Nat.lt_succ_self k) hvisit)) hadmitted rfl
  · intro k s req t hvisit
    exact hvisit.isLease_iff hsorted hnonneg

/-- A session whose second turn arrives `gap` after the first, with the result
of a tool call in its history. -/
def returningSession (gap : ℚ) : List (TurnRequest ℚ) :=
  [{ arrival := 0, tokens := [], blockHashes := [7], genTokens := 1, conversationId := some 1,
      messages := [⟨"system", "s"⟩, ⟨"user", "u"⟩] },
    { arrival := gap, tokens := [], blockHashes := [7, 8], genTokens := 1,
      conversationId := some 1, toolName := some "search",
      messages := [⟨"system", "s"⟩, ⟨"user", "u"⟩, ⟨"assistant", "a"⟩, ⟨"tool", "r"⟩] }]

/-- When the session returns in the same instant, its blocks are marked `high`
without an end. -/
theorem high_mark_without_end :
    ∃ s, simAfter (returningSession 0) (leasePolicy ℚ) 1 8 {} false 2 = .ok s ∧
      ¬ HighMarksAreLeases (returningSession 0) 1 8 {} false 2 s := by
  have hend : (simAfter (returningSession 0) (leasePolicy ℚ) 1 8 {} false 2).map (fun s =>
      s.nodes.map fun n => (n.priority.lookup 7, n.expiry.lookup 7)) =
      .ok [(some high, some ⊤)] := by decide +kernel
  obtain ⟨s, hs, hmarks⟩ := map_eq_ok.mp hend
  refine ⟨s, hs, fun hleases => ?_⟩
  cases hnodes : s.nodes with
  | nil =>
    rw [hnodes] at hmarks
    cases hmarks
  | cons n rest =>
    rw [hnodes, List.map_cons] at hmarks
    obtain ⟨hprio, hexpiry⟩ := Prod.mk.inj (List.cons.inj hmarks).1
    obtain ⟨_, req, expiry, -, hstored, -, hle⟩ := hleases 0 n 7 (by rw [hnodes]; rfl) hprio
    obtain rfl : ⊤ = expiry := Option.some.inj (hexpiry.symm.trans hstored)
    exact absurd hle (not_le.mpr (WithTop.coe_lt_top _))

/-- Returning after a second, the session leaves nothing but leases. -/
theorem high_marks_are_leases_iff_second :
    ∃ s, simAfter (returningSession 1) (leasePolicy ℚ) 1 8 {} false 2 = .ok s ∧
      HighMarksAreLeases (returningSession 1) 1 8 {} false 2 s := by
  have hend : (simAfter (returningSession 1) (leasePolicy ℚ) 1 8 {} false 2).map
      (fun s => s.idx) = .ok 2 := by decide +kernel
  have hgap : (simAfter (returningSession 1) (leasePolicy ℚ) 1 8 {} false 1).map
      (fun s => (observeGap s.policy.lastSeen (some 1) (some "search") 1).1) =
      .ok (some 1) := by decide +kernel
  obtain ⟨s, hs, -⟩ := map_eq_ok.mp hend
  refine ⟨s, hs, (high_marks_are_leases_iff (returningSession 1) ?_ ?_ 1 8 {} false).1 2 s
    (by decide) hs ?_⟩
  · simp [returningSession]
  · simp [returningSession]
  · intro j sj req t hj hvisit hzero
    have hreq := hvisit.request
    obtain rfl | rfl : j = 0 ∨ j = 1 := by omega
    · obtain rfl := Option.some.inj hreq
      obtain ⟨-, tool, htool, -⟩ := hzero
      cases htool
    · obtain rfl := Option.some.inj hreq
      obtain ⟨before, hbefore, hone⟩ := map_eq_ok.mp hgap
      obtain rfl : before = sj := Except.ok.inj (hbefore.symm.trans hvisit.state)
      exact one_ne_zero (hzero.eq_zero hone)

end SchedLm.Sim
