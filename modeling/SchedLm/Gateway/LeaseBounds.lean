import SchedLm.Gateway.Ceiling
import SchedLm.Gateway.GapHistory
import SchedLm.Gateway.Interleaving

/-!
How long the leases are that the plugin hands out, one `PreRequest` after
another on a clock that does not go back. None is longer than twice the short
gap. But a window under half a millisecond is rounded to nothing, and tools that
return at once have such windows.
-/

namespace SchedLm.Gateway

open OrderedDict (FinalRun)

variable {K : Type} [Scalar K]

abbrev Call := InferenceRequest × Time

def Call.isToolTurn (c : Call) : Prop :=
  c.1.headers.isSome ∧ classify c.1.body = .tool

instance (c : Call) : Decidable c.isToolTurn := inferInstanceAs (Decidable (_ ∧ _))

namespace KVCachePriority

def preRequests (p : KVCachePriority K) (calls : List Call) : KVCachePriority K :=
  calls.foldl (fun p c => (p.preRequest c.1 c.2).2) p

def recordedBy (p : KVCachePriority K) (c : Call) : List (String × K) :=
  if c.isToolTurn then
    ((p.sessions.observeGap c.1.scope (lastToolName c.1.body) c.2).1.map fun gap =>
      (lastToolName c.1.body, gap)).toList
  else []

def recorded (p : KVCachePriority K) : List Call → List (String × K)
  | [] => []
  | c :: rest => p.recordedBy c ++ recorded (p.preRequest c.1 c.2).2 rest

theorem preRequests_append (p : KVCachePriority K) (first second : List Call) :
    p.preRequests (first ++ second) = (p.preRequests first).preRequests second :=
  List.foldl_append

theorem recorded_concat (p : KVCachePriority K) (calls : List Call) (c : Call) :
    p.recorded (calls ++ [c]) = p.recorded calls ++ (p.preRequests calls).recordedBy c := by
  induction calls generalizing p with
  | nil => exact List.append_nil _
  | cons first rest ih =>
    rw [List.cons_append, recorded, ih, recorded, List.append_assoc]
    rfl

/-- A call on a tool turn learns, with or without a hint, and no other call changes the
plugin. -/
theorem preRequest_snd (p : KVCachePriority K) (c : Call) :
    (p.preRequest c.1 c.2).2 =
      if c.isToolTurn then p.learn c.1.scope (lastToolName c.1.body) c.2 else p := by
  obtain ⟨request, now⟩ := c
  have hdecide : (p.decide request now).2 =
      if classify request.body = .tool then p.learn request.scope (lastToolName request.body) now
      else p := by
    unfold decide
    cases classify request.body <;> rfl
  rcases Option.eq_none_or_eq_some request.headers with hheaders | ⟨headers, hheaders⟩
  · simp [preRequest, Call.isToolTurn, hheaders]
  · rw [preRequest_snd_of_headers p now hheaders, hdecide]
    simp [Call.isToolTurn, hheaders]

/-- A gap is recorded for a named tool, since an earlier turn of its session. -/
theorem mem_recordedBy {p : KVCachePriority K} {c : Call} {r : String × K}
    (h : r ∈ p.recordedBy c) :
    r.1 ≠ "" ∧ ∃ prev, p.sessions.lastSeen c.1.scope = some prev ∧
      r.2 = (Time.sub c.2 prev).seconds := by
  unfold recordedBy at h
  split_ifs at h
  · obtain ⟨gap, hgap, rfl⟩ := Option.map_eq_some_iff.mp (Option.mem_toList.mp h)
    obtain ⟨-, htool, prev, hprev, hsub⟩ := SessionTracker.observeGap_fst_eq_some.mp hgap
    exact ⟨htool, prev, hprev, hsub⟩
  · cases h

theorem index_preRequest (p : KVCachePriority K) (c : Call) :
    (p.preRequest c.1 c.2).2.index = p.index.recordAll (p.recordedBy c) := by
  rw [preRequest_snd, recordedBy]
  split_ifs
  · rw [learn_eq]
    cases (p.sessions.observeGap c.1.scope (lastToolName c.1.body) c.2 :
      Option K × SessionTracker).1 <;> rfl
  · rfl

/-- What holds of the default plugin after some calls on a clock that does not go back:
its index is the fold of the gaps recorded, none of them negative, and its last-seen
times are times of those calls. -/
structure Reaches (calls : List Call) (p : KVCachePriority K) : Prop where
  index : p.index = (newKVCachePriority : KVCachePriority K).index.recordAll
    (newKVCachePriority.recorded calls)
  shortGap : p.shortGap = defaultShortGapSeconds
  confThresh : p.confThresh = defaultConfThreshold
  retainMargin : p.retainMargin = defaultRetainMargin
  valid : p.sessions.Valid
  seen : ∀ key time, p.sessions.lastSeen key = some time → ∃ c ∈ calls, c.2 = time
  gaps : ∀ r ∈ (newKVCachePriority : KVCachePriority K).recorded calls, r.1 ≠ "" ∧ 0 ≤ r.2

theorem Reaches.start : Reaches [] (newKVCachePriority : KVCachePriority K) where
  index := rfl
  shortGap := rfl
  confThresh := rfl
  retainMargin := rfl
  valid := SessionTracker.valid_newSessionTracker _
  seen := by
    intro key time hseen
    cases hseen
  gaps := by
    intro r hr
    cases hr

theorem Reaches.preRequest {calls : List Call} (c : Call)
    (h : Reaches calls ((newKVCachePriority : KVCachePriority K).preRequests calls))
    (hclock : ∀ a ∈ calls, a.2 ≤ c.2) :
    Reaches (calls ++ [c]) ((newKVCachePriority : KVCachePriority K).preRequests
      (calls ++ [c])) := by
  rw [preRequests_append]
  change Reaches (calls ++ [c]) (((newKVCachePriority.preRequests calls).preRequest c.1 c.2).2)
  have hindex := index_preRequest ((newKVCachePriority : KVCachePriority K).preRequests calls) c
  have hgaps : ∀ r ∈ (newKVCachePriority : KVCachePriority K).recorded (calls ++ [c]),
      r.1 ≠ "" ∧ 0 ≤ r.2 := by
    intro r hr
    rw [recorded_concat] at hr
    rcases List.mem_append.mp hr with hearly | hnow
    · exact h.gaps r hearly
    · obtain ⟨htool, prev, hprev, hsub⟩ := mem_recordedBy hnow
      obtain ⟨a, ha, rfl⟩ := h.seen _ prev hprev
      exact ⟨htool, hsub ▸ System.seconds_sub_nonneg (hclock a ha)⟩
  have hrecords : (newKVCachePriority : KVCachePriority K).index.recordAll
      (newKVCachePriority.recorded (calls ++ [c])) =
        ((newKVCachePriority.preRequests calls).preRequest c.1 c.2).2.index := by
    rw [hindex, h.index, recorded_concat, ToolGapIndex.recordAll, List.foldl_append]
    rfl
  have hseen : ∀ key time,
      (newKVCachePriority.preRequests calls : KVCachePriority K).sessions.lastSeen key = some time →
      ∃ a ∈ calls ++ [c], a.2 = time := by
    intro key time hbefore
    obtain ⟨a, ha, rfl⟩ := h.seen key time hbefore
    exact ⟨a, List.mem_append_left _ ha, rfl⟩
  rw [preRequest_snd] at hrecords ⊢
  split_ifs at hrecords ⊢
  · rw [learn_eq] at hrecords ⊢
    refine ⟨hrecords.symm, h.shortGap, h.confThresh, h.retainMargin, ?_, ?_, hgaps⟩
    · rw [SessionTracker.observeGap_snd]
      split_ifs
      · exact h.valid
      · exact h.valid.touch _ _
    · intro key time hnow
      rw [SessionTracker.observeGap_snd] at hnow
      split_ifs at hnow
      · exact hseen key time hnow
      · rcases h.valid.lastSeen_touch hnow with ⟨-, rfl⟩ | ⟨-, hbefore⟩
        · exact ⟨c, List.mem_append_right _ (List.mem_singleton_self c), rfl⟩
        · exact hseen key time hbefore
  · exact ⟨hrecords.symm, h.shortGap, h.confThresh, h.retainMargin, h.valid, hseen, hgaps⟩

/-- Every run on such a clock, by induction on its calls from the last one on. -/
theorem reaches {calls : List Call} (hclock : calls.Pairwise fun a b => a.2 ≤ b.2) :
    Reaches calls ((newKVCachePriority : KVCachePriority K).preRequests calls) := by
  induction calls using List.reverseRecOn with
  | nil => exact .start
  | append_singleton calls c ih =>
    obtain ⟨hcalls, -, hlast⟩ := List.pairwise_append.mp hclock
    exact (ih hcalls).preRequest c fun a ha => hlast a ha c (List.mem_singleton_self c)

end KVCachePriority

def gapMean (gaps : List K) : K := Ewma.mean defaultGapAlpha gaps

def gapVariance (gaps : List K) : K := Ewma.variance defaultGapAlpha gaps

/-- Gaps that are trusted. -/
def Confident (gaps : List K) : Prop :=
  gaps ≠ [] ∧ defaultConfThreshold ≤ gapConfidence (gapMean gaps) (gapVariance gaps)

/-- Gaps of a third of a millisecond in the mean, or of half of one within one standard
deviation: what it takes for a window that is not rounded to nothing. -/
def Noticeable (gaps : List K) : Prop :=
  1 / 3000 ≤ gapMean gaps ∨ 1 / 2000 ≤ gapMean gaps + Scalar.sqrt (gapVariance gaps)

def gapWindow (gaps : List K) : K :=
  max (gapMean gaps * defaultRetainMargin) (gapMean gaps + Scalar.sqrt (gapVariance gaps))

section Gaps

variable {gaps : List K}

theorem gapAlpha_pos : 0 < (defaultGapAlpha : K) ∧ (defaultGapAlpha : K) ≤ 1 := by
  unfold defaultGapAlpha
  constructor <;> norm_num

theorem gapMean_nonneg (hne : gaps ≠ []) (hgaps : ∀ gap ∈ gaps, 0 ≤ gap) : 0 ≤ gapMean gaps := by
  obtain ⟨smallest, hmem, -, -, -, hle, -⟩ :=
    Ewma.mean_between gapAlpha_pos.1.le gapAlpha_pos.2 hne
  exact (hgaps smallest hmem).trans hle

theorem gapWindow_bounds (hconfident : Confident gaps) (hgaps : ∀ gap ∈ gaps, 0 ≤ gap)
    (hshort : gapMean gaps ≤ defaultShortGapSeconds) :
    0 ≤ gapWindow gaps ∧ gapWindow gaps ≤ 2 * defaultShortGapSeconds := by
  obtain ⟨hne, hconf⟩ := hconfident
  have hmean := gapMean_nonneg hne hgaps
  constructor
  · apply le_max_of_le_right
    exact add_nonneg hmean (Scalar.sqrt_nonneg _)
  · exact Sim.window_le_of_half_le_gapConfidence hmean
      (Ewma.variance_nonneg gapAlpha_pos.1.le gapAlpha_pos.2 gaps) hconf hshort

theorem half_le_gapWindow_iff : 1 / 2000 ≤ gapWindow gaps ↔ Noticeable gaps := by
  have hmargin : (1 / 2000 : K) ≤ gapMean gaps * defaultRetainMargin ↔
      1 / 3000 ≤ gapMean gaps := by
    unfold defaultRetainMargin
    constructor
    · intro h
      linarith
    · intro h
      linarith
  rw [gapWindow, le_max_iff, hmargin]
  rfl

/-- A rounded window is at most the bound, and is not empty exactly when the
gaps are noticeable. -/
theorem lease_bounds (hconfident : Confident gaps) (hgaps : ∀ gap ∈ gaps, 0 ≤ gap)
    (hshort : gapMean gaps ≤ defaultShortGapSeconds) :
    (Duration.seconds (round (gapWindow gaps * 1000) * millisecond) : K) ≤
        2 * defaultShortGapSeconds ∧
      (0 < round (gapWindow gaps * 1000) * millisecond ↔ Noticeable gaps) := by
  obtain ⟨-, hle⟩ := gapWindow_bounds hconfident hgaps hshort
  constructor
  · have hround : round (gapWindow gaps * 1000) ≤ 6000 := by
      rw [round_eq, ← Int.lt_add_one_iff, Int.floor_lt]
      unfold defaultShortGapSeconds at hle
      push_cast
      linarith
    have hcast : ((round (gapWindow gaps * 1000) : ℤ) : K) ≤ 6000 := by exact_mod_cast hround
    unfold Duration.seconds millisecond defaultShortGapSeconds
    push_cast
    rw [div_le_iff₀ (by norm_num)]
    linarith
  · rw [← half_le_gapWindow_iff, millisecond, mul_pos_iff_of_pos_right (by norm_num),
      round_eq, Int.floor_pos]
    constructor
    · intro h
      linarith
    · intro h
      linarith

end Gaps

namespace KVCachePriority

section Run

variable {calls : List Call} {p : KVCachePriority K} {tool : String} {gaps : List K}

theorem Reaches.gap_nonneg (h : Reaches calls p)
    (hrun : FinalRun defaultGapIndexCapacity tool (newKVCachePriority.recorded calls) gaps) :
    ∀ gap ∈ gaps, 0 ≤ gap := fun gap hgap => (h.gaps _ (hrun.mem gap hgap)).2

theorem Reaches.predict (h : Reaches calls p)
    (hrun : FinalRun defaultGapIndexCapacity tool (newKVCachePriority.recorded calls) gaps) :
    p.index.predict tool = if gaps = [] then (defaultPriorMean, defaultPriorVar)
      else (gapMean gaps, gapVariance gaps) := by
  have halpha := ToolGapIndex.alpha_newToolGapIndex defaultGapIndexCapacity
    gapAlpha_pos.1 (gapAlpha_pos.2 : (defaultGapAlpha : K) ≤ 1) ∅
  rcases eq_or_ne tool "" with rfl | htool
  · -- nothing is recorded for a tool without a name
    have hunused : "" ∉ OrderedDict.keysOf
        ((newKVCachePriority : KVCachePriority K).recorded calls) := by
      intro hmem
      obtain ⟨r, hr, hname⟩ := List.mem_map.mp hmem
      exact (h.gaps r hr).1 hname
    obtain rfl := hrun.unique (.unused hunused)
    rw [if_pos rfl, h.index]
    obtain ⟨-, -, -, hdefault, -⟩ := ToolGapIndex.recordAll_represents
      (newKVCachePriority : KVCachePriority K).index rfl (newKVCachePriority.recorded calls)
    rw [ToolGapIndex.predict, if_neg (by simp), hdefault]
    rfl
  · rw [h.index, ToolGapIndex.predict_recordAll _ rfl htool hrun, Sim.estimate]
    have hindex : (newKVCachePriority : KVCachePriority K).index.alpha = defaultGapAlpha := halpha
    rw [hindex]
    rfl

theorem Reaches.leaseTtl_eq_some (h : Reaches calls p)
    (hrun : FinalRun defaultGapIndexCapacity tool (newKVCachePriority.recorded calls) gaps)
    {ttl : Duration} :
    p.leaseTtl tool = some ttl ↔ Confident gaps ∧ gapMean gaps ≤ defaultShortGapSeconds ∧
      ttl = round (gapWindow gaps * 1000) * millisecond := by
  unfold leaseTtl
  rw [h.predict hrun, h.confThresh, h.shortGap, h.retainMargin]
  by_cases hne : gaps = []
  · have hprior : gapConfidence (defaultPriorMean : K) defaultPriorVar < defaultConfThreshold :=
      Sim.gapConfidence_defaultPrior_lt
    rw [if_pos hne]
    dsimp only
    rw [if_pos (Or.inl hprior)]
    refine iff_of_false (by simp) ?_
    rintro ⟨⟨hsome, -⟩, -⟩
    exact hsome hne
  · rw [if_neg hne]
    dsimp only
    by_cases hskip : gapConfidence (gapMean gaps) (gapVariance gaps) < defaultConfThreshold ∨
        defaultShortGapSeconds < gapMean gaps
    · rw [if_pos hskip]
      refine iff_of_false (by simp) ?_
      rintro ⟨⟨-, hconf⟩, hshort, -⟩
      exact hskip.elim (not_lt.mpr hconf) (not_lt.mpr hshort)
    · rw [if_neg hskip]
      obtain ⟨hconf, hshort⟩ := not_or.mp hskip
      have hconfident : Confident gaps := ⟨hne, not_lt.mp hconf⟩
      obtain ⟨hnonneg, hle⟩ :=
        gapWindow_bounds hconfident (h.gap_nonneg hrun) (not_lt.mp hshort)
      have hfits : gapWindow gaps ≤ 9000000000 := by
        refine hle.trans ?_
        unfold defaultShortGapSeconds
        norm_num
      have hround := Duration.roundTo_ofFloat hnonneg hfits
      unfold gapWindow at hround
      rw [hround]
      constructor
      · intro httl
        exact ⟨hconfident, not_lt.mp hshort, (Option.some.inj httl).symm⟩
      · rintro ⟨-, -, rfl⟩
        rfl

end Run

/-- A call whose header becomes a lease: one is decided, and no value of the
client stands against it. -/
def Emits (p : KVCachePriority K) (c : Call) (ttl : Duration) : Prop :=
  ∃ headers scope, c.1.headers = some headers ∧
    (p.decide c.1 c.2).1 = some (.lease ttl scope) ∧
    ∀ existing, headers.lookup kvCachePriorityHeader = some existing →
      ¬ keepsClient existing (Directive.lease ttl scope).text

/-- A tool turn whose client does not ask for a lower priority itself. -/
def TakesLease (c : Call) : Prop :=
  c.isToolTurn ∧ ∀ headers existing, c.1.headers = some headers →
    headers.lookup kvCachePriorityHeader = some existing →
    ∀ clientPriority, leadingPriority existing = some clientPriority →
      highPriority < clientPriority

theorem Emits.forwarded {p : KVCachePriority K} {c : Call} {ttl : Duration} (h : Emits p c ttl) :
    ∃ scope, forwarded (p.preRequest c.1 c.2).1 = some (Directive.lease ttl scope).text := by
  obtain ⟨headers, scope, hheaders, hdecide, hdrops⟩ := h
  rcases forwarded_preRequest hheaders hdecide with ⟨existing, hlookup, hkeeps, -⟩ | ⟨-, hset⟩
  · exact absurd hkeeps (hdrops existing hlookup)
  · exact ⟨scope, hset⟩

theorem emits_iff (p : KVCachePriority K) (c : Call) (ttl : Duration) :
    Emits p c ttl ↔ TakesLease c ∧
      (p.preRequest c.1 c.2).2.leaseTtl (lastToolName c.1.body) = some ttl := by
  have hdecide : c.isToolTurn → (p.decide c.1 c.2).1 =
      ((p.preRequest c.1 c.2).2.leaseTtl (lastToolName c.1.body)).map
        fun ttl => .lease ttl c.1.scope := by
    intro hturn
    rw [preRequest_snd, if_pos hturn, decide, hturn.2]
    rfl
  constructor
  · rintro ⟨headers, scope, hheaders, hlease, hdrops⟩
    have hturn : c.isToolTurn := by
      refine ⟨by rw [hheaders]; rfl, ?_⟩
      cases hclass : classify c.1.body with
      | tool => rfl
      | rag => simp [decide, hclass] at hlease
      | oneshot => simp [decide, hclass] at hlease
    refine ⟨⟨hturn, ?_⟩, ?_⟩
    · intro headers' existing hheaders' hlookup clientPriority hclient
      obtain rfl := Option.some.inj (hheaders.symm.trans hheaders')
      by_contra hle
      exact hdrops existing hlookup
        (keepsClient_text.mpr ⟨clientPriority, hclient, not_lt.mp hle⟩)
    · rw [hdecide hturn] at hlease
      obtain ⟨found, hfound, hsame⟩ := Option.map_eq_some_iff.mp hlease
      obtain ⟨rfl, -⟩ := Directive.lease.inj hsame
      exact hfound
  · rintro ⟨⟨hturn, hclient⟩, hlease⟩
    obtain ⟨headers, hheaders⟩ := Option.isSome_iff_exists.mp hturn.1
    refine ⟨headers, c.1.scope, hheaders, by rw [hdecide hturn, hlease]; rfl, ?_⟩
    intro existing hlookup hkeeps
    obtain ⟨clientPriority, hleading, hle⟩ := keepsClient_text.mp hkeeps
    exact absurd hle (not_le.mpr (hclient headers existing hheaders hlookup _ hleading))

/-- Two turns of one session, 0.3 milliseconds apart: the prefix is to be kept
warm for 0.45, which is rounded to nothing. -/
theorem empty_lease :
    let first : Call := (searchTurn "sess1", 0)
    let second : Call := (searchTurn "sess1", 300000)
    Emits ((newKVCachePriority : KVCachePriority ℚ).preRequests [first]) second 0 ∧
      forwarded (((newKVCachePriority : KVCachePriority ℚ).preRequests [first]).preRequest
        second.1 second.2).1 = some "50; ttl=0s; scope=sess1" ∧
      ¬ (0 : Duration) < 0 := by
  intro first second
  refine ⟨⟨(∅ : Headers).insert sessionIdHeader "sess1", "sess1", rfl, ?_, ?_⟩, ?_, lt_irrefl 0⟩
  · decide +kernel
  · intro existing hlookup
    exact absurd hlookup (by decide +kernel +revert)
  · decide +kernel

/-- What a run on a clock that does not go back knows of a call of its own. -/
private theorem reaches_of_split (K : Type) [Scalar K] {calls early late : List Call} {c : Call}
    (hclock : calls.Pairwise fun a b => a.2 ≤ b.2) (hsplit : calls = early ++ c :: late) :
    Reaches (early ++ [c]) (((newKVCachePriority : KVCachePriority K).preRequests
      early).preRequest c.1 c.2).2 := by
  have hearly : (early ++ [c]).Pairwise fun a b => a.2 ≤ b.2 := by
    refine hclock.sublist ?_
    rw [hsplit]
    exact (List.cons_sublist_cons.mpr (List.nil_sublist late)).append_left early
  have hrun : Reaches (early ++ [c])
      ((newKVCachePriority : KVCachePriority K).preRequests (early ++ [c])) := reaches hearly
  rw [preRequests_append] at hrun
  exact hrun

/-- Along every run of the default plugin on a clock that does not go back, each lease
that is emitted is at most twice the short gap long. All of them last for some time
exactly when, on each turn that would take a lease, gaps that are trusted are
noticeable, a condition on the gaps recorded for the tool so far: a window of less than
half a millisecond is rounded to nothing. -/
theorem leases_usable_iff (calls : List Call) (hclock : calls.Pairwise fun a b => a.2 ≤ b.2) :
    (∀ early c late ttl, calls = early ++ c :: late →
      Emits ((newKVCachePriority : KVCachePriority K).preRequests early) c ttl →
      (ttl.seconds : K) ≤ 2 * defaultShortGapSeconds) ∧
    ((∀ early c late ttl, calls = early ++ c :: late →
      Emits ((newKVCachePriority : KVCachePriority K).preRequests early) c ttl →
      0 < ttl ∧ (ttl.seconds : K) ≤ 2 * defaultShortGapSeconds) ↔
    ∀ early c late gaps, calls = early ++ c :: late → TakesLease c →
      FinalRun defaultGapIndexCapacity (lastToolName c.1.body)
        ((newKVCachePriority : KVCachePriority K).recorded (early ++ [c])) gaps →
      Confident gaps → Noticeable gaps) := by
  have hemitted : ∀ early c late ttl, calls = early ++ c :: late →
      Emits ((newKVCachePriority : KVCachePriority K).preRequests early) c ttl →
      TakesLease c ∧ (ttl.seconds : K) ≤ 2 * defaultShortGapSeconds ∧ ∃ gaps,
        FinalRun defaultGapIndexCapacity (lastToolName c.1.body)
          ((newKVCachePriority : KVCachePriority K).recorded (early ++ [c])) gaps ∧
        Confident gaps ∧ (0 < ttl ↔ Noticeable gaps) := by
    intro early c late ttl hsplit hemits
    have hreach := reaches_of_split K hclock hsplit
    obtain ⟨htakes, hlease⟩ := (emits_iff _ c ttl).mp hemits
    obtain ⟨gaps, hrun⟩ := OrderedDict.exists_finalRun defaultGapIndexCapacity
      (lastToolName c.1.body) ((newKVCachePriority : KVCachePriority K).recorded (early ++ [c]))
    obtain ⟨hconfident, hshort, rfl⟩ := (hreach.leaseTtl_eq_some hrun).mp hlease
    obtain ⟨hbound, hpos⟩ := lease_bounds hconfident (hreach.gap_nonneg hrun) hshort
    exact ⟨htakes, hbound, gaps, hrun, hconfident, hpos⟩
  refine ⟨?_, ?_, ?_⟩
  · intro early c late ttl hsplit hemits
    exact (hemitted early c late ttl hsplit hemits).2.1
  · intro husable early c late gaps hsplit htakes hrun hconfident
    have hreach := reaches_of_split K hclock hsplit
    by_contra hfaint
    have hshort : gapMean gaps ≤ defaultShortGapSeconds := by
      have hmean : gapMean gaps < 1 / 3000 := not_le.mp fun hle => hfaint (Or.inl hle)
      unfold defaultShortGapSeconds
      linarith
    have hlease := (hreach.leaseTtl_eq_some hrun).mpr ⟨hconfident, hshort, rfl⟩
    obtain ⟨hpos, -⟩ := husable early c late _ hsplit ((emits_iff _ c _).mpr ⟨htakes, hlease⟩)
    exact hfaint ((lease_bounds hconfident (hreach.gap_nonneg hrun) hshort).2.mp hpos)
  · intro hnoticeable early c late ttl hsplit hemits
    obtain ⟨htakes, hbound, gaps, hrun, hconfident, hpos⟩ :=
      hemitted early c late ttl hsplit hemits
    exact ⟨hpos.mpr (hnoticeable early c late gaps hsplit htakes hrun hconfident), hbound⟩

/-- Two turns of one session, two seconds apart. -/
theorem leases_usable_iff_two_seconds :
    let first : Call := (searchTurn "sess1", 0)
    let second : Call := (searchTurn "sess1", 2000000000)
    Emits ((newKVCachePriority : KVCachePriority ℚ).preRequests [first]) second 3000000000 ∧
      (Duration.seconds 3000000000 : ℚ) ≤ 2 * defaultShortGapSeconds := by
  intro first second
  have hemits : Emits ((newKVCachePriority : KVCachePriority ℚ).preRequests [first]) second
      3000000000 := by
    refine ⟨(∅ : Headers).insert sessionIdHeader "sess1", "sess1", rfl, by decide +kernel, ?_⟩
    intro existing hlookup
    exact absurd hlookup (by decide +kernel +revert)
  have hclock : [first, second].Pairwise fun a b => a.2 ≤ b.2 := by simp [first, second]
  exact ⟨hemits, (leases_usable_iff [first, second] hclock).1 [first] second [] _ rfl hemits⟩

end KVCachePriority

end SchedLm.Gateway
