import SchedLm.Gateway.Ceiling

/-!
Many `PreRequest` calls at once. The index and the session table each have a
lock, and the clock has none, so one call of `decide` is four atomic steps, and
between any two of them other calls take theirs. A schedule is any list of
steps; a step whose turn has not come does nothing.
-/

namespace SchedLm.Gateway

variable {K : Type} [Scalar K]

structure KVCachePriorityParams (K : Type) [Scalar K] where
  shortGapSeconds : Option K := none
  confThreshold : Option K := none
  retainMargin : Option K := none

def kvCachePriorityFactory (params : KVCachePriorityParams K) : KVCachePriority K :=
  let p : KVCachePriority K := newKVCachePriority
  { p with
    shortGap := params.shortGapSeconds.getD p.shortGap
    confThresh := params.confThreshold.getD p.confThresh
    retainMargin := params.retainMargin.getD p.retainMargin }

inductive Phase (K : Type) [Scalar K] where
  | waiting
  | timed (now : Time)
  | observed (gap : Option K)
  | learned
  | decided (directive : Option Directive)

/-- One step of the schedule: time passes, or a call reads the clock, observes
its turn, records the gap or predicts. -/
inductive Event where
  | tick (elapsed : ℕ)
  | start (call : ℕ)
  | observe (call : ℕ)
  | record (call : ℕ)
  | predict (call : ℕ)
  deriving DecidableEq

/-- The plugin among its calls: the clock they all read, the tables they share, how far
each call has come, and a log of the turns observed and the gaps recorded so far. -/
structure System (K : Type) [Scalar K] where
  clock : Time
  plugin : KVCachePriority K
  phase : ℕ → Phase K
  observations : List (String × Time)
  recorded : List K

def InferenceRequest.scope (request : InferenceRequest) : String :=
  conversationKey (request.headers.getD ∅) request.body

namespace System

def begin (params : KVCachePriorityParams K) (clock : Time) : System K where
  clock := clock
  plugin := kvCachePriorityFactory params
  phase := fun _ => .waiting
  observations := []
  recorded := []

def setPhase (s : System K) (call : ℕ) (phase : Phase K) : System K :=
  { s with phase := Function.update s.phase call phase }

/-- `ObserveGap` under its lock. -/
def observe (s : System K) (call : ℕ) (request : InferenceRequest) (now : Time) : System K :=
  let (gap, sessions) :=
    s.plugin.sessions.observeGap request.scope (lastToolName request.body) now
  { s.setPhase call (.observed gap) with
    plugin := { s.plugin with sessions := sessions }
    observations :=
      if request.scope = "" then s.observations else (request.scope, now) :: s.observations }

/-- `Record` under its lock. -/
def record (s : System K) (call : ℕ) (request : InferenceRequest) (gap : K) : System K :=
  { s.setPhase call .learned with
    plugin := { s.plugin with
      index := s.plugin.index.record (lastToolName request.body) gap }
    recorded := gap :: s.recorded }

/-- `Predict` under its lock, and what is decided from it. -/
def predict (s : System K) (call : ℕ) (request : InferenceRequest) : System K :=
  s.setPhase call (.decided
    ((s.plugin.leaseTtl (lastToolName request.body)).map fun ttl => .lease ttl request.scope))

/-- The call up to its reading of the clock. A request without headers is left
alone, and one that is no tool turn is decided without a look at the tables. -/
def start (s : System K) (call : ℕ) (request : InferenceRequest) : System K :=
  match request.headers with
  | none => s.setPhase call (.decided none)
  | some _ =>
    match classify request.body with
    | .oneshot => s.setPhase call (.decided (some .evictFirst))
    | .rag => s.setPhase call (.decided none)
    | .tool => s.setPhase call (.timed s.clock)

def step (requests : ℕ → InferenceRequest) (s : System K) : Event → System K
  | .tick elapsed => { s with clock := s.clock + elapsed }
  | .start call =>
    match s.phase call with
    | .waiting => s.start call (requests call)
    | _ => s
  | .observe call =>
    match s.phase call with
    | .timed now => s.observe call (requests call) now
    | _ => s
  | .record call =>
    match s.phase call with
    | .observed (some gap) => s.record call (requests call) gap
    | .observed none => s.setPhase call .learned
    | _ => s
  | .predict call =>
    match s.phase call with
    | .learned => s.predict call (requests call)
    | _ => s

def run (requests : ℕ → InferenceRequest) (s : System K) (schedule : List Event) : System K :=
  schedule.foldl (step requests) s

variable {requests : ℕ → InferenceRequest} {s : System K}

theorem run_append (first second : List Event) :
    run requests s (first ++ second) = run requests (run requests s first) second :=
  List.foldl_append

theorem run_append_singleton (schedule : List Event) (e : Event) :
    run requests s (schedule ++ [e]) = step requests (run requests s schedule) e :=
  run_append schedule [e]

/-- A call that is left alone is `PreRequest`: it learns the same and decides
the same. -/
theorem run_alone {call : ℕ} (hwaiting : s.phase call = .waiting) :
    let s' := run requests s [.start call, .observe call, .record call, .predict call]
    s'.plugin = (s.plugin.preRequest (requests call) s.clock).2 ∧
      s'.phase call = .decided ((requests call).headers.bind fun _ =>
        (s.plugin.decide (requests call) s.clock).1) := by
  cases hheaders : (requests call).headers with
  | none =>
    simp [run, step, hwaiting, start, setPhase, hheaders, KVCachePriority.preRequest]
  | some headers =>
    rw [KVCachePriority.preRequest_snd_of_headers s.plugin s.clock hheaders]
    unfold run KVCachePriority.decide
    simp only [List.foldl_cons, List.foldl_nil, step, hwaiting, start, hheaders, Option.bind_some]
    cases hclass : classify (requests call).body with
    | oneshot => simp [setPhase]
    | rag => simp [setPhase]
    | tool =>
      simp only [setPhase, Function.update_self, observe, KVCachePriority.learn,
        InferenceRequest.scope, hheaders]
      cases hobserved : (s.plugin.sessions.observeGap
          (conversationKey ((some headers).getD ∅) (requests call).body)
          (lastToolName (requests call).body) s.clock : Option K × SessionTracker) with
      | mk gap sessions =>
        cases gap with
        | none => simp [predict, setPhase, InferenceRequest.scope, hheaders]
        | some gap => simp [record, predict, setPhase, InferenceRequest.scope, hheaders]

/-- The tables stay as they are, and no call has a gap it did not have. -/
structure Quiet (s s' : System K) : Prop where
  plugin : s'.plugin = s.plugin
  observations : s'.observations = s.observations
  recorded : s'.recorded = s.recorded
  observed : ∀ call gap, s'.phase call = .observed (some gap) →
    s.phase call = .observed (some gap)

theorem Quiet.refl (s : System K) : Quiet s s := ⟨rfl, rfl, rfl, fun _ _ h => h⟩

theorem quiet_setPhase (s : System K) (call : ℕ) {phase : Phase K}
    (hphase : ∀ gap, phase ≠ .observed (some gap)) : Quiet s (s.setPhase call phase) where
  plugin := rfl
  observations := rfl
  recorded := rfl
  observed := by
    intro other gap hother
    rcases eq_or_ne other call with rfl | hne
    · exact absurd ((Function.update_self ..).symm.trans hother) (hphase gap)
    · exact (Function.update_of_ne hne ..).symm.trans hother

theorem quiet_start (s : System K) (call : ℕ) (request : InferenceRequest) :
    Quiet s (s.start call request) := by
  unfold start
  cases request.headers with
  | none => exact quiet_setPhase s call fun _ h => nomatch h
  | some headers =>
    cases classify request.body <;> exact quiet_setPhase s call fun _ h => nomatch h

/-- What a step can do: a call observes its turn at the time it has read, or
records the gap it has observed, or the step is quiet. -/
theorem step_cases (requests : ℕ → InferenceRequest) (s : System K) (e : Event) :
    (∃ call now, e = .observe call ∧ s.phase call = .timed now ∧
      step requests s e = s.observe call (requests call) now) ∨
    (∃ call gap, s.phase call = .observed (some gap) ∧
      step requests s e = s.record call (requests call) gap) ∨
    Quiet s (step requests s e) := by
  cases e with
  | tick elapsed => exact Or.inr (Or.inr ⟨rfl, rfl, rfl, fun _ _ h => h⟩)
  | start call =>
    apply Or.inr
    apply Or.inr
    cases hphase : s.phase call with
    | waiting =>
      simp only [step, hphase]
      exact quiet_start s call (requests call)
    | _ =>
      simp only [step, hphase]
      exact Quiet.refl s
  | observe call =>
    cases hphase : s.phase call with
    | timed now => exact Or.inl ⟨call, now, rfl, hphase, by simp only [step, hphase]⟩
    | _ =>
      simp only [step, hphase]
      exact Or.inr (Or.inr (Quiet.refl s))
  | record call =>
    cases hphase : s.phase call with
    | observed gap =>
      cases gap with
      | some gap => exact Or.inr (Or.inl ⟨call, gap, hphase, by simp only [step, hphase]⟩)
      | none =>
        simp only [step, hphase]
        exact Or.inr (Or.inr (quiet_setPhase s call fun _ h => nomatch h))
    | _ =>
      simp only [step, hphase]
      exact Or.inr (Or.inr (Quiet.refl s))
  | predict call =>
    apply Or.inr
    apply Or.inr
    cases hphase : s.phase call with
    | learned =>
      simp only [step, hphase]
      exact quiet_setPhase s call fun _ h => nomatch h
    | _ =>
      simp only [step, hphase]
      exact Quiet.refl s

theorem sessions_observe (s : System K) (call : ℕ) (request : InferenceRequest) (now : Time) :
    (s.observe call request now).plugin.sessions =
      if request.scope = "" then s.plugin.sessions
      else s.plugin.sessions.touch request.scope now :=
  SessionTracker.observeGap_snd

theorem phase_observe (s : System K) (call : ℕ) (request : InferenceRequest) (now : Time) :
    (s.observe call request now).phase = Function.update s.phase call (.observed
      (s.plugin.sessions.observeGap request.scope (lastToolName request.body) now).1) := rfl

theorem valid_step (h : s.plugin.sessions.Valid) (e : Event) :
    (step requests s e).plugin.sessions.Valid := by
  rcases step_cases requests s e with
    ⟨call, now, -, -, hstep⟩ | ⟨call, gap, -, hstep⟩ | hquiet
  · rw [hstep, sessions_observe]
    split_ifs
    · exact h
    · exact h.touch _ now
  · rw [hstep]
    exact h
  · rw [hquiet.plugin]
    exact h

/-- The observation a call makes is no older than the earlier ones of its conversation.
Other events are on time whenever they come. -/
def OnTime (requests : ℕ → InferenceRequest) (s : System K) : Event → Prop
  | .observe call => ∀ now, s.phase call = .timed now →
      ∀ earlier, ((requests call).scope, earlier) ∈ s.observations → earlier ≤ now
  | _ => True

/-- What holds as long as every observation is on time: the table's last-seen time of a
conversation is the latest of those observed for it, and every gap that was measured or
recorded is at least zero. -/
structure Ordered (s : System K) : Prop where
  valid : s.plugin.sessions.Valid
  seen : ∀ key time, s.plugin.sessions.lastSeen key = some time → (key, time) ∈ s.observations
  latest : ∀ key time, s.plugin.sessions.lastSeen key = some time →
    ∀ earlier, (key, earlier) ∈ s.observations → earlier ≤ time
  observed : ∀ call gap, s.phase call = .observed (some gap) → 0 ≤ gap
  recorded : ∀ gap ∈ s.recorded, 0 ≤ gap
  index : s.plugin.index.NonnegMeans

theorem ordered_begin (params : KVCachePriorityParams K) (clock : Time) :
    (begin params clock).Ordered where
  valid := SessionTracker.valid_newSessionTracker _
  seen := by
    intro key time hseen
    cases hseen
  latest := by
    intro key time hseen
    cases hseen
  observed := by
    intro call gap hphase
    cases hphase
  recorded := by
    intro gap hgap
    cases hgap
  index := ToolGapIndex.nonnegMeans_newToolGapIndex _ _ _

theorem seconds_sub_nonneg {now prev : Time} (hle : prev ≤ now) :
    (0 : K) ≤ (Time.sub now prev).seconds := by
  have hsub : 0 ≤ Time.sub now prev := by
    unfold Time.sub
    have hmax : 0 ≤ maxDuration := by decide
    exact le_max_of_le_right (le_min (sub_nonneg.mpr hle) hmax)
  have hcast : (0 : K) ≤ ((Time.sub now prev : ℤ) : K) := Int.cast_nonneg hsub
  exact div_nonneg hcast (by norm_num)

/-- An observation on time keeps the table ordered, and its gap is no less
than zero. -/
theorem Ordered.observe (h : s.Ordered) {call : ℕ} {request : InferenceRequest} {now : Time}
    (hontime : ∀ earlier, (request.scope, earlier) ∈ s.observations → earlier ≤ now) :
    (s.observe call request now).Ordered where
  valid := by
    rw [sessions_observe]
    split_ifs
    · exact h.valid
    · exact h.valid.touch _ now
  seen := by
    intro key time hseen
    rw [sessions_observe] at hseen
    unfold System.observe
    dsimp only
    split_ifs at hseen ⊢
    · exact h.seen key time hseen
    · rcases h.valid.lastSeen_touch hseen with ⟨rfl, rfl⟩ | ⟨-, hbefore⟩
      · exact List.mem_cons_self
      · exact List.mem_cons_of_mem _ (h.seen key time hbefore)
  latest := by
    intro key time hseen earlier hearlier
    rw [sessions_observe] at hseen
    unfold System.observe at hearlier
    dsimp only at hearlier
    split_ifs at hseen hearlier
    · exact h.latest key time hseen earlier hearlier
    · rcases h.valid.lastSeen_touch hseen with ⟨rfl, rfl⟩ | ⟨hne, hbefore⟩
      · rcases List.mem_cons.mp hearlier with heq | hmem
        · exact (Prod.mk.inj heq).2.le
        · exact hontime earlier hmem
      · rcases List.mem_cons.mp hearlier with heq | hmem
        · exact absurd (Prod.mk.inj heq).1 hne
        · exact h.latest key time hbefore earlier hmem
  observed := by
    intro other gap hphase
    rw [phase_observe] at hphase
    rcases eq_or_ne other call with rfl | hne
    · rw [Function.update_self, Phase.observed.injEq] at hphase
      obtain ⟨-, -, prev, hprev, rfl⟩ := SessionTracker.observeGap_fst_eq_some.mp hphase
      exact seconds_sub_nonneg (hontime prev (h.seen _ _ hprev))
    · rw [Function.update_of_ne hne] at hphase
      exact h.observed other gap hphase
  recorded := h.recorded
  index := h.index

/-- A step that is on time keeps the order: an observation is the latest of its
conversation, and the gap it measures is no less than zero. -/
theorem Ordered.step (h : s.Ordered) {e : Event} (hontime : s.OnTime requests e) :
    (s.step requests e).Ordered := by
  rcases step_cases requests s e with
    ⟨call, now, rfl, hphase, hstep⟩ | ⟨call, gap, hphase, hstep⟩ | hquiet
  · rw [hstep]
    exact h.observe (hontime now hphase)
  · rw [hstep]
    have hgap := h.observed call gap hphase
    refine ⟨h.valid, h.seen, h.latest, ?_, ?_, h.index.record _ hgap⟩
    · intro other gap' hother
      rcases eq_or_ne other call with rfl | hne
      · cases (Function.update_self ..).symm.trans hother
      · exact h.observed other gap' ((Function.update_of_ne hne ..).symm.trans hother)
    · intro gap' hmem
      rcases List.mem_cons.mp hmem with rfl | hmem
      · exact hgap
      · exact h.recorded gap' hmem
  · obtain ⟨hplugin, hobservations, hrecorded, hobserved⟩ := hquiet
    refine ⟨?_, ?_, ?_, ?_, ?_, ?_⟩
    · rw [hplugin]
      exact h.valid
    · rw [hplugin, hobservations]
      exact h.seen
    · rw [hplugin, hobservations]
      exact h.latest
    · intro call gap hcall
      exact h.observed call gap (hobserved call gap hcall)
    · rw [hrecorded]
      exact h.recorded
    · rw [hplugin]
      exact h.index

/-- Every observation of a schedule is on time: the calls of one conversation
reach the table in the order in which they have read the clock. -/
def InOrder (requests : ℕ → InferenceRequest) (s : System K) (schedule : List Event) : Prop :=
  ∀ early e rest, schedule = early ++ e :: rest → (run requests s early).OnTime requests e

/-- What is learned along a schedule makes sense: every gap recorded is at least
zero, a conversation's last-seen time never moves backwards, and every learned
mean is at least zero. -/
structure Forward (requests : ℕ → InferenceRequest) (s : System K) (schedule : List Event) :
    Prop where
  gaps : ∀ gap ∈ (run requests s schedule).recorded, 0 ≤ gap
  lastSeen : ∀ early later rest, schedule = early ++ later ++ rest → ∀ key before after,
    (run requests s early).plugin.sessions.lastSeen key = some before →
    (run requests s (early ++ later)).plugin.sessions.lastSeen key = some after →
    before ≤ after
  means : ∀ early rest, schedule = early ++ rest → ∀ tool stat,
    (run requests s early).plugin.index.learned tool = some stat → 0 ≤ stat.mean

/-- Along a schedule in order the plugin stays ordered, by induction on its events. -/
theorem Ordered.run (h : s.Ordered) {schedule : List Event}
    (hinOrder : InOrder requests s schedule) : (s.run requests schedule).Ordered := by
  induction schedule using List.reverseRecOn with
  | nil => exact h
  | append_singleton schedule e ih =>
    rw [run_append_singleton]
    apply Ordered.step
    · apply ih
      intro early other rest hsplit
      apply hinOrder early other (rest ++ [e])
      rw [hsplit, List.append_assoc, List.cons_append]
    · exact hinOrder schedule e [] rfl

theorem InOrder.of_append {first second : List Event}
    (h : InOrder requests s (first ++ second)) : InOrder requests s first := by
  intro early e rest hsplit
  apply h early e (rest ++ second)
  rw [hsplit, List.append_assoc, List.cons_append]

theorem mem_observations_run {observation : String × Time} (schedule : List Event)
    (h : observation ∈ s.observations) :
    observation ∈ (s.run requests schedule).observations := by
  induction schedule generalizing s with
  | nil => exact h
  | cons e rest ih =>
    apply ih
    rcases step_cases requests s e with
      ⟨call, now, -, -, hstep⟩ | ⟨call, gap, -, hstep⟩ | hquiet
    · rw [hstep]
      unfold System.observe
      dsimp only
      split_ifs
      · exact h
      · exact List.mem_cons_of_mem _ h
    · rw [hstep]
      exact h
    · rw [hquiet.observations]
      exact h

theorem stored_of_observed (hvalid : s.plugin.sessions.Valid) {schedule : List Event}
    {key : String} {time : Time} (h : (key, time) ∈ (s.run requests schedule).observations) :
    (key, time) ∈ s.observations ∨ key ≠ "" ∧ ∃ early rest, schedule = early ++ rest ∧
      (s.run requests early).plugin.sessions.lastSeen key = some time := by
  induction schedule generalizing s with
  | nil => exact Or.inl h
  | cons e rest ih =>
    rcases ih (valid_step hvalid e) h with hmem | ⟨hname, early, rest, rfl, hstored⟩
    · rcases step_cases requests s e with
        ⟨call, now, -, -, hstep⟩ | ⟨call, gap, -, hstep⟩ | hquiet
      · have hsessions := sessions_observe s call (requests call) now
        rw [hstep] at hmem
        unfold System.observe at hmem
        dsimp only at hmem
        split_ifs at hmem hsessions with hscope
        · exact Or.inl hmem
        · rcases List.mem_cons.mp hmem with heq | hmem
          · obtain ⟨rfl, rfl⟩ := Prod.mk.inj heq
            refine Or.inr ⟨hscope, [e], rest, rfl, ?_⟩
            change (step requests s e).plugin.sessions.lastSeen _ = _
            rw [hstep, hsessions]
            exact hvalid.lastSeen_touch_self _ _
          · exact Or.inl hmem
      · rw [hstep] at hmem
        exact Or.inl hmem
      · rw [hquiet.observations] at hmem
        exact Or.inl hmem
    · exact Or.inr ⟨hname, e :: early, rest, rfl, hstored⟩

theorem valid_run (h : s.plugin.sessions.Valid) (schedule : List Event) :
    (s.run requests schedule).plugin.sessions.Valid := by
  induction schedule generalizing s with
  | nil => exact h
  | cons e rest ih => exact ih (valid_step h e)

/-- Two turns of one session: the first call has read the clock when the
second does so and goes ahead of it. -/
def overtaking : List Event :=
  [.start 0, .tick 1000000000, .start 1, .observe 1, .record 1, .predict 1, .observe 0, .record 0]

def sessionRun (schedule : List Event) : System ℚ :=
  run (fun _ => KVCachePriority.searchTurn "sess1") (begin {} 0) schedule

/-- A gap of minus one second is recorded, the session was last seen a second
earlier than before, and the tool is expected back in the past. -/
theorem negative_gap_recorded :
    (sessionRun (overtaking.take 6)).plugin.sessions.lastSeen "sess1" = some 1000000000 ∧
      (sessionRun overtaking).plugin.sessions.lastSeen "sess1" = some 0 ∧
      (sessionRun overtaking).recorded = [-1] ∧
      (sessionRun overtaking).plugin.index.predict "search" = (-1, 0) ∧
      ¬ Forward (fun _ => KVCachePriority.searchTurn "sess1") (begin {} 0 : System ℚ)
        overtaking := by
  have hrecorded : (sessionRun overtaking).recorded = [-1] := by decide +kernel
  refine ⟨by decide +kernel, by decide +kernel, hrecorded, by decide +kernel, ?_⟩
  intro hforward
  have hgap := hforward.gaps (-1) (by
    change -1 ∈ (sessionRun overtaking).recorded
    rw [hrecorded]
    exact List.mem_singleton_self _)
  norm_num at hgap

/-- Calls of `PreRequest` may overlap in any number and interleave in any way between
the sections they hold a lock for, on a clock that never goes back. The plugin learns
forward exactly along the schedules in which the calls of one conversation reach the
session table in the order in which they have read the clock. -/
theorem forward_iff_inOrder (params : KVCachePriorityParams K) (clock : Time)
    (requests : ℕ → InferenceRequest) (schedule : List Event) :
    Forward requests (begin params clock) schedule ↔
      InOrder requests (begin params clock) schedule := by
  have hvalid : (begin params clock).plugin.sessions.Valid :=
    (ordered_begin params clock).valid
  constructor
  · rintro ⟨-, hforward, -⟩ early e rest hsplit
    cases e with
    | observe call =>
      intro now hphase earlier hearlier
      rcases stored_of_observed hvalid hearlier with hmem | ⟨hname, first, second, rfl, hstored⟩
      · cases hmem
      · -- Right after the step the table has the time the call has read.
        apply hforward first (second ++ [.observe call]) rest _ _ earlier now hstored
        · have hstep : step requests ((begin params clock).run requests (first ++ second))
              (.observe call) =
                ((begin params clock).run requests (first ++ second)).observe call
                  (requests call) now := by
            simp only [step, hphase]
          rw [← List.append_assoc, run_append_singleton, hstep, sessions_observe, if_neg hname]
          exact (valid_run hvalid _).lastSeen_touch_self _ now
        · rw [hsplit]
          simp
    | _ => exact True.intro
  · intro h
    have hordered : ∀ early rest, schedule = early ++ rest →
        ((begin params clock).run requests early).Ordered := by
      intro early rest hsplit
      rw [hsplit] at h
      exact (ordered_begin params clock).run h.of_append
    refine ⟨?_, ?_, ?_⟩
    · exact (hordered schedule [] (List.append_nil _).symm).recorded
    · intro early later rest hsplit key before after hbefore hafter
      have hearly := hordered early (later ++ rest) (by rw [hsplit, List.append_assoc])
      have hlogged : (key, before) ∈
          ((begin params clock).run requests (early ++ later)).observations := by
        rw [run_append]
        exact mem_observations_run later (hearly.seen key before hbefore)
      exact (hordered (early ++ later) rest hsplit).latest key after hafter before hlogged
    · intro early rest hsplit
      exact (hordered early rest hsplit).index.means

end System

end SchedLm.Gateway
