import SchedLm.Bench.ReplaySafety

/-!
The replay comes to its end. Every step but the passing of time and one more line
of an answer uses up a part of the work there is; and as long as there is a permit
to be had, some task can take its next step.
-/

namespace SchedLm.Bench

open Sim Semaphore

variable {K : Type}

/-- Segments a task has before it, lines apart; the whole session of `turns`
turns has `4 * turns + 4`. -/
def Stage.rank (turns : ℕ) : Stage K → ℕ
  | .created => 4 * turns + 4
  | .waiting => 4 * turns + 3
  | .granted => 4 * turns + 2
  | .sleeping _ _ _ left => 4 * left.length + 5
  | .chatting _ _ chat left => chat.rank + 4 * left.length + 1
  | .closing => 1
  | .finished => 0

/-- Neither the clock nor a line that is read. -/
def ReplayEvent.counts : ReplayEvent K → Bool
  | .tick _ => false
  | .run _ => true
  | .deliver _ d => d.counts

namespace Replay

def rank (sessions : List (Conversation K)) (s : Replay K) : ℕ :=
  ∑ i ∈ Finset.range sessions.length,
    (s.task i).stage.rank ((sessions[i]?.map fun c => c.items.length).getD 0)

theorem rank_setTask {sessions : List (Conversation K)} {i : ℕ} {c : Conversation K}
    (hc : sessions[i]? = some c) (s : Replay K) (t : Task K) :
    (s.setTask i t).rank sessions + (s.task i).stage.rank c.items.length =
      s.rank sessions + t.stage.rank c.items.length := by
  have hi : i ∈ Finset.range sessions.length :=
    Finset.mem_range.mpr (List.getElem?_eq_some_iff.mp hc).1
  have hothers : ∑ j ∈ (Finset.range sessions.length).erase i, ((s.setTask i t).task j).stage.rank
        ((sessions[j]?.map fun c => c.items.length).getD 0) =
      ∑ j ∈ (Finset.range sessions.length).erase i, (s.task j).stage.rank
        ((sessions[j]?.map fun c => c.items.length).getD 0) :=
    Finset.sum_congr rfl fun j hj => by rw [task_setTask, if_neg (Finset.ne_of_mem_erase hj)]
  have hself : (s.setTask i t).task i = t := by rw [task_setTask, if_pos rfl]
  unfold rank
  rw [← Finset.add_sum_erase _ _ hi, ← Finset.add_sum_erase _ _ hi, hothers, hself, hc]
  simp only [Option.map_some, Option.getD_some]
  omega

variable [Scalar K] {o : ReplayOptions} {sessions : List (Conversation K)} {s s' : Replay K}

omit [Scalar K] in
theorem rank_setTask_le {k i : ℕ} {c : Conversation K} (hc : sessions[i]? = some c) {t : Task K}
    (h : t.stage.rank c.items.length + k ≤ (s.task i).stage.rank c.items.length) :
    (s.setTask i t).rank sessions + k ≤ s.rank sessions := by
  have hset := rank_setTask hc s t
  omega

theorem rank_onward_le (now start base : K) (turns : ℕ) (left : List (GeneratedTurn K)) :
    (onward o now start base left).rank turns ≤ 4 * left.length + 1 := by
  cases left with
  | nil => exact le_rfl
  | cons turn rest =>
    unfold onward
    dsimp only
    split_ifs
    · change 4 * rest.length + 5 ≤ 4 * (rest.length + 1) + 1
      omega
    · change 3 + 4 * rest.length + 1 ≤ 4 * (rest.length + 1) + 1
      omega

/-- What a step does to the work that is left: none makes it more, and each one that
counts makes it less. -/
theorem rank_step {capacity : ℕ} {e : ReplayEvent K} (hstep : Step o sessions s e s')
    (hbalanced : Balanced capacity (Finset.range sessions.length) s.place s.sem) :
    s'.rank sessions + e.counts.toNat ≤ s.rank sessions := by
  cases hstep with
  | tick helapsed => exact le_rfl
  | @admitted i c sem hc hstage hsem =>
    apply rank_setTask_le (s := { s with sem := sem }) hc
    have honward := rank_onward_le (o := o) s.now s.now c.base c.items.length c.items
    change _ ≤ (s.task i).stage.rank _
    rw [hstage]
    change _ + 1 ≤ 4 * c.items.length + 4
    dsimp only
    omega
  | @queued i c sem hc hstage hsem =>
    apply rank_setTask_le (s := { s with sem := sem }) hc
    change _ ≤ (s.task i).stage.rank _
    rw [hstage]
    exact le_rfl
  | @entered i c hc hstage =>
    apply rank_setTask_le hc
    have honward := rank_onward_le (o := o) s.now s.now c.base c.items.length c.items
    rw [hstage]
    change _ + 1 ≤ 4 * c.items.length + 2
    dsimp only
    omega
  | @woken i c start deadline turn left hc hstage hdue =>
    apply rank_setTask_le hc
    rw [hstage]
    change 3 + 4 * left.length + 1 + 1 ≤ 4 * left.length + 5
    omega
  | @departed i c hc hstage =>
    unfold leave
    split
    next sem hsem =>
      apply rank_setTask_le (s := { s with sem := sem }) hc
      change _ ≤ (s.task i).stage.rank _
      rw [hstage]
      exact le_rfl
    next sem j hsem =>
      obtain ⟨hqueued, -⟩ := hbalanced.handOver (congrArg Stage.place hstage) hsem
      obtain ⟨c', hc'⟩ := exists_session (hbalanced.known j (by rw [hqueued]; exact nofun))
      have hwaiting := stage_of_queued hqueued
      have hne : j ≠ i := by
        rintro rfl
        cases hwaiting.symm.trans hstage
      have hfirst : ({ s with sem := sem }.setStage i .finished).rank sessions + 1 ≤
          s.rank sessions := by
        apply rank_setTask_le (s := { s with sem := sem }) hc
        change _ ≤ (s.task i).stage.rank _
        rw [hstage]
        exact le_rfl
      have hsecond := rank_setTask_le (k := 1) (t := { s.task j with stage := .granted })
        (s := { s with sem := sem }.setStage i .finished) hc' (by
          rw [setStage, task_setTask, if_neg hne]
          change _ ≤ (s.task j).stage.rank _
          rw [hwaiting]
          exact le_rfl)
      have hset : (({ s with sem := sem }.setStage i .finished).setStage j .granted) =
          ({ s with sem := sem }.setStage i .finished).setTask j
            { s.task j with stage := .granted } := by
        unfold setStage
        rw [task_setTask, if_neg hne]
      rw [hset]
      change _ + 1 ≤ _
      omega
  | @heard i c start post chat chat' left d new hc hstage hresume hmore =>
    have hresumed := Chat.rank_resume hresume
    apply rank_setTask_le (s := s.share new) hc
    change _ ≤ (s.task i).stage.rank _
    rw [hstage]
    change chat'.rank + 4 * left.length + 1 + d.counts.toNat ≤ chat.rank + 4 * left.length + 1
    omega
  | @answered i c start post chat answer left d new hc hstage hresume =>
    have hresumed := Chat.rank_resume hresume
    have honward := rank_onward_le (o := o) s.now start c.base c.items.length left
    apply rank_setTask_le (s := s.share new) hc
    change _ ≤ (s.task i).stage.rank _
    rw [hstage]
    change _ + d.counts.toNat ≤ chat.rank + 4 * left.length + 1
    dsimp only
    omega

/-- What a run does to the work that is left, so that no run has more segments that
count than there was work at its start. -/
theorem rank_run {capacity : ℕ} {events : List (ReplayEvent K)}
    (hinv : Invariant o sessions capacity s) (hrun : s.run o sessions events = some s') :
    s'.rank sessions + (events.filter ReplayEvent.counts).length ≤ s.rank sessions := by
  induction events generalizing s with
  | nil =>
    obtain rfl := Option.some.inj hrun
    exact le_rfl
  | cons e rest ih =>
    obtain ⟨mid, hmid, hrest⟩ := Option.bind_eq_some_iff.mp hrun
    have hfirst := rank_step (step_cases hmid) hinv.balanced
    have hlater := ih (invariant_step hinv hmid) hrest
    rw [List.filter_cons]
    split_ifs with hcounts
    · rw [hcounts, Bool.toNat_true] at hfirst
      rw [List.length_cons]
      omega
    · omega

omit [Scalar K] in
private theorem sum_range_getElem? (xs : List (Conversation K)) :
    ∑ i ∈ Finset.range xs.length, (xs[i]?.map fun c => c.items.length).getD 0 =
      (xs.flatMap Grouping.Group.items).length := by
  induction xs with
  | nil => rfl
  | cons c rest ih =>
    rw [List.length_cons, Finset.sum_range_succ', List.flatMap_cons, List.length_append, ← ih]
    simp only [List.getElem?_cons_succ, List.getElem?_cons_zero, Option.map_some, Option.getD_some]
    exact Nat.add_comm _ _

omit [Scalar K] in
theorem rank_begin {concurrency : ℤ} {now : K} (hbegin : begin concurrency now = .ok s) :
    s.rank sessions =
      4 * ((sessions.flatMap Grouping.Group.items).length + sessions.length) := by
  unfold begin at hbegin
  split_ifs at hbegin with hneg
  obtain rfl := Except.ok.inj hbegin
  have hstages : ∀ turns, (Stage.created : Stage K).rank turns = 4 * turns + 4 := fun _ => rfl
  unfold rank
  simp only [hstages]
  rw [Finset.sum_add_distrib, ← Finset.mul_sum, sum_range_getElem?, Finset.sum_const,
    Finset.card_range, smul_eq_mul]
  omega

end Replay

/-- In every run of a replay, whatever is answered and when, four segments a turn and
four a session are all there is besides the passing of time and the lines of the
answers. -/
theorem replay_bounded [Scalar K] {o : ReplayOptions} {requests : List (GeneratedTurn K)}
    {concurrency : ℤ} {now : K} {s₀ s : Replay K} {events : List (ReplayEvent K)}
    (hbegin : Replay.begin concurrency now = .ok s₀)
    (hrun : s₀.run o (bySession requests) events = some s) :
    (events.filter ReplayEvent.counts).length ≤
      4 * (requests.length + (bySession requests).length) := by
  have hrank := Replay.rank_run (Replay.invariant_begin hbegin) hrun
  rw [Replay.rank_begin hbegin, (perm_flatMap_bySession requests).length_eq] at hrank
  omega

/-- Three turns in two sessions. -/
theorem replay_bounded_two :
    let requests : List (GeneratedTurn ℚ) := [bareTurn 7 1 3, bareTurn 8 0 0, bareTurn 7 0 1]
    let o : ReplayOptions := ⟨"http://gateway", "prefix-cache", none⟩
    let events : List (ReplayEvent ℚ) := [.run 0, .tick 1, .run 1]
    ∃ s₀ s : Replay ℚ, Replay.begin 1 0 = .ok s₀ ∧
      s₀.run o (bySession requests) events = some s ∧
      (events.filter ReplayEvent.counts).length ≤
        4 * (requests.length + (bySession requests).length) := by
  intro requests o events
  have hruns : ((⟨0, ⟨1, []⟩, {}, fun _ => {}⟩ : Replay ℚ).run o (bySession requests)
      events).isSome = true := by decide +kernel
  obtain ⟨s, hrun⟩ := Option.isSome_iff_exists.mp hruns
  have hbegin : Replay.begin 1 (0 : ℚ) = .ok ⟨0, ⟨1, []⟩, {}, fun _ => {}⟩ := rfl
  exact ⟨_, s, hbegin, hrun, replay_bounded hbegin hrun⟩

namespace Replay

variable [Scalar K] {o : ReplayOptions} {sessions : List (Conversation K)} {s s' : Replay K}

/-- Some events lead on to a state with less work left. -/
def Advances (o : ReplayOptions) (sessions : List (Conversation K)) (s : Replay K) : Prop :=
  ∃ events s', s.run o sessions events = some s' ∧ s'.rank sessions < s.rank sessions

theorem Advances.of_step {capacity : ℕ} {e : ReplayEvent K}
    (hinv : Invariant o sessions capacity s) (hstep : s.step o sessions e = some s')
    (hcounts : e.counts = true) : Advances o sessions s := by
  have hrun : s.run o sessions [e] = some s' := by
    unfold run
    rw [List.foldlM_cons, hstep]
    rfl
  have hrank := rank_step (step_cases hstep) hinv.balanced
  rw [hcounts] at hrank
  exact ⟨[e], s', hrun, hrank⟩

theorem exists_hear (i : ℕ) (c : Conversation K) (start : K) (post : Post K) {chat : Chat K}
    (left : List (GeneratedTurn K)) (h : ∀ answer, chat ≠ .returned answer) :
    ∃ d s', d.counts = true ∧ s.hear o i c start post chat left d = some s' := by
  obtain ⟨d, chat', new, hcounts, hresume⟩ := Chat.exists_resume post.start s.now h
  refine ⟨d, ?_⟩
  unfold hear
  rw [hresume]
  cases chat' with
  | returned answer => exact ⟨_, hcounts, rfl⟩
  | _ => exact ⟨_, hcounts, rfl⟩

/-- A task with a permit, or one that has not run yet, can go on. -/
theorem advances_of_ready {capacity i : ℕ} {c : Conversation K}
    (hinv : Invariant o sessions capacity s) (hc : sessions[i]? = some c)
    (hqueued : s.place i ≠ .queued) (hleft : (s.task i).stage ≠ .finished) :
    Advances o sessions s := by
  cases hstage : (s.task i).stage with
  | created =>
    cases hsem : s.sem.acquire i with
    | mk sem admitted =>
      have hstep : ∃ s', s.step o sessions (.run i) = some s' := by
        simp only [step, hc, hstage, hsem]
        cases admitted <;> exact ⟨_, rfl⟩
      obtain ⟨s', hstep⟩ := hstep
      exact Advances.of_step hinv hstep rfl
  | waiting => exact absurd (congrArg Stage.place hstage) hqueued
  | granted =>
    have hstep : s.step o sessions (.run i) = some (s.enter o i c) := by
      simp only [step, hc, hstage]
    exact Advances.of_step hinv hstep rfl
  | sleeping start deadline turn left =>
    -- the alarm goes off once the clock has got there
    let later : Replay K := { s with now := s.now + max 0 (deadline - s.now) }
    have htick : s.step o sessions (.tick (max 0 (deadline - s.now))) = some later :=
      if_pos (le_max_left _ _)
    have hdue : deadline ≤ later.now := by
      have hmax := le_max_right 0 (deadline - s.now)
      change deadline ≤ s.now + max 0 (deadline - s.now)
      linarith
    have hlater : (later.task i).stage = .sleeping start deadline turn left := hstage
    have hstep : later.step o sessions (.run i) = some
        (later.setStage i (.chatting start ⟨turn, o.request turn, later.now⟩ .posting left)) := by
      simp only [step, hc, hlater, if_pos hdue]
    obtain ⟨events, s', hrun, hrank⟩ := Advances.of_step (invariant_step hinv htick) hstep rfl
    refine ⟨.tick (max 0 (deadline - s.now)) :: events, s', ?_, hrank⟩
    unfold run
    rw [List.foldlM_cons, htick]
    exact hrun
  | chatting start post chat left =>
    have hstands := hinv.standing i c hc
    rw [hstage] at hstands
    obtain ⟨d, s', hcounts, hhear⟩ :=
      exists_hear (s := s) (o := o) i c start post left hstands.2.2
    have hstep : s.step o sessions (.deliver i d) = some s' := by
      simp only [step, hc, hstage, hhear]
    exact Advances.of_step hinv hstep hcounts
  | closing =>
    have hstep : s.step o sessions (.run i) = some (s.leave i) := by
      simp only [step, hc, hstage]
    exact Advances.of_step hinv hstep rfl
  | finished => exact absurd hstage hleft

/-- As long as there are permits and a session that has not finished, somebody can go
on. If that session is in the queue, it is one of those inside. -/
theorem advances {capacity i : ℕ} (hinv : Invariant o sessions capacity s)
    (hcapacity : 0 < capacity) (hi : i < sessions.length)
    (hleft : (s.task i).stage ≠ .finished) : Advances o sessions s := by
  by_cases hqueued : s.place i = .queued
  · obtain ⟨j, hj, hinside⟩ := hinv.balanced.exists_inside hcapacity hqueued
    obtain ⟨c, hc⟩ := exists_session hj
    apply advances_of_ready hinv hc
    · rw [hinside]
      exact nofun
    · intro hfinished
      cases hinside.symm.trans (congrArg Stage.place hfinished)
  · obtain ⟨c, hc⟩ := exists_session (Finset.mem_range.mpr hi)
    exact advances_of_ready hinv hc hqueued hleft

theorem run_append {first second : List (ReplayEvent K)} {mid : Replay K}
    (hfirst : s.run o sessions first = some mid) (hsecond : mid.run o sessions second = some s') :
    s.run o sessions (first ++ second) = some s' := by
  unfold run at *
  rw [List.foldlM_append, hfirst]
  exact hsecond

/-- From every state with the invariant all sessions can be brought to their end, by
induction on the work that is left. -/
theorem exists_finish {capacity : ℕ} (hinv : Invariant o sessions capacity s)
    (hcapacity : 0 < capacity) :
    ∃ events s', s.run o sessions events = some s' ∧
      ∀ i < sessions.length, (s'.task i).stage = .finished := by
  induction hwork : s.rank sessions using Nat.strong_induction_on generalizing s with
  | h work ih =>
    by_cases hall : ∀ i < sessions.length, (s.task i).stage = .finished
    · exact ⟨[], s, rfl, hall⟩
    · simp only [not_forall] at hall
      obtain ⟨i, hi, hleft⟩ := hall
      obtain ⟨first, mid, hfirst, hless⟩ := advances hinv hcapacity hi hleft
      obtain ⟨second, last, hsecond, hlast⟩ :=
        ih _ (hwork ▸ hless) (invariant_run hinv hfirst) rfl
      exact ⟨first ++ second, last, run_append hfirst hsecond, hlast⟩

theorem place_ne_inside (hinv : Invariant o sessions 0 s) (i : ℕ) : s.place i ≠ .inside := by
  intro hinside
  have hi := hinv.balanced.known i (by rw [hinside]; exact nofun)
  have hmem : i ∈ (Finset.range sessions.length).filter fun i => s.place i = .inside :=
    Finset.mem_filter.mpr ⟨hi, hinside⟩
  have hpos := Finset.card_pos.mpr ⟨i, hmem⟩
  have hnone := hinv.balanced.card_inside_le
  omega

theorem ne_finished_step {e : ReplayEvent K} (hinv : Invariant o sessions 0 s)
    (h : ∀ i, (s.task i).stage ≠ .finished) (hstep : s.step o sessions e = some s') :
    ∀ i, (s'.task i).stage ≠ .finished := by
  have houtside := place_ne_inside hinv
  have houtside' := place_ne_inside (invariant_step hinv hstep)
  have hbusy : ∀ {i stage}, (s.task i).stage = stage → stage.place ≠ .inside :=
    fun hstage hinside => houtside _ ((congrArg Stage.place hstage).trans hinside)
  cases step_cases hstep with
  | tick helapsed => exact h
  | @admitted i c sem hc hstage hsem =>
    refine absurd ?_ (houtside' i)
    rw [enter, setStage, place_setTask, Function.update_self, place_onward]
  | @queued i c sem hc hstage hsem =>
    intro j
    rw [setStage, task_setTask]
    split_ifs
    · intro hsame
      cases hsame
    · exact h j
  | entered hc hstage => exact absurd rfl (hbusy hstage)
  | woken hc hstage hdue => exact absurd rfl (hbusy hstage)
  | departed hc hstage => exact absurd rfl (hbusy hstage)
  | heard hc hstage hresume hmore => exact absurd rfl (hbusy hstage)
  | answered hc hstage hresume => exact absurd rfl (hbusy hstage)

omit [Scalar K] in
theorem ne_finished_begin {concurrency : ℤ} {now : K} (hbegin : begin concurrency now = .ok s) :
    ∀ i, (s.task i).stage ≠ .finished := by
  unfold begin at hbegin
  split_ifs at hbegin with hneg
  obtain rfl := Except.ok.inj hbegin
  exact fun _ => nofun

theorem ne_finished_run {events : List (ReplayEvent K)} (hinv : Invariant o sessions 0 s)
    (h : ∀ i, (s.task i).stage ≠ .finished) (hrun : s.run o sessions events = some s') :
    ∀ i, (s'.task i).stage ≠ .finished := by
  induction events generalizing s with
  | nil =>
    obtain rfl := Option.some.inj hrun
    exact h
  | cons e rest ih =>
    obtain ⟨mid, hmid, hrest⟩ := Option.bind_eq_some_iff.mp hrun
    exact ih (invariant_step hinv hmid) (ne_finished_step hinv h hmid) hrest

theorem posts_eq_nil_of_outside {capacity i : ℕ} {c : Conversation K}
    (hinv : Invariant o sessions capacity s) (hc : sessions[i]? = some c)
    (houtside : s.place i ≠ .inside) (hleft : (s.task i).stage ≠ .finished) :
    (s.task i).posts = [] := by
  have hstands := hinv.standing i c hc
  have hplace : (s.task i).stage.place ≠ .inside := houtside
  unfold Task.posts
  cases hstage : (s.task i).stage with
  | created | waiting =>
    rw [hstage] at hstands
    have hpast : (s.task i).past = [] := hstands
    rw [hpast]
    rfl
  | finished => exact absurd hstage hleft
  | _ =>
    rw [hstage] at hplace
    exact absurd rfl hplace

theorem turns_of_finished {capacity : ℕ} (hinv : Invariant o sessions capacity s)
    (hfinished : ∀ i < sessions.length, (s.task i).stage = .finished) :
    ((List.range sessions.length).flatMap fun i =>
      (s.task i).past.map fun x => x.post.turn) = sessions.flatMap Grouping.Group.items := by
  have hitems : ∀ i ∈ List.range sessions.length,
      (s.task i).past.map (fun x => x.post.turn) =
        ((sessions[i]?.map Grouping.Group.items).getD []) := by
    intro i hi
    have hlt := List.mem_range.mp hi
    have hc := List.getElem?_eq_getElem hlt
    have hstands := hinv.standing i _ hc
    rw [hfinished i hlt] at hstands
    obtain ⟨start, hkept⟩ := hstands
    have hturns := hkept.turns
    rw [List.append_nil, List.append_nil, List.map_map] at hturns
    rw [hc]
    exact hturns
  rw [List.flatMap_congr hitems]
  have hrange : (List.range sessions.length).map (fun i => (sessions[i]?.map
      Grouping.Group.items).getD []) = sessions.map Grouping.Group.items := by
    apply List.ext_getElem
    · simp
    · intro i hi hi'
      have hlt : i < sessions.length := by simpa using hi
      simp [List.getElem?_eq_getElem hlt]
  rw [List.flatMap_def, List.flatMap_def, hrange]

end Replay

theorem bySession_ne_nil {requests : List (GeneratedTurn K)} (h : requests ≠ []) :
    bySession requests ≠ [] := by
  intro hnil
  have hperm := perm_flatMap_bySession requests
  rw [hnil] at hperm
  exact h (List.nil_perm.mp hperm)

/-- Wherever a replay has got to, it can still be brought to its end, with every request
sent exactly once, if and only if there is a permit at all or nothing to send. Without a
permit no request is sent and no session finishes, in any run. -/
theorem replay_finishes_iff [Scalar K] {o : ReplayOptions} {requests : List (GeneratedTurn K)}
    {concurrency : ℤ} {now : K} {s₀ s : Replay K} {events : List (ReplayEvent K)}
    (hbegin : Replay.begin concurrency now = .ok s₀)
    (hrun : s₀.run o (bySession requests) events = some s) :
    ((∃ more s', s.run o (bySession requests) more = some s' ∧
      (∀ i < (bySession requests).length, (s'.task i).stage = .finished) ∧
      ((List.range (bySession requests).length).flatMap fun i =>
        (s'.task i).past.map fun x => x.post.turn).Perm requests) ↔
      0 < concurrency ∨ requests = []) ∧
    (concurrency = 0 → ∀ i < (bySession requests).length,
      (s.task i).posts = [] ∧ (s.task i).stage ≠ .finished) := by
  have hbase : Replay.Invariant o (bySession requests) concurrency.toNat s₀ :=
    Replay.invariant_begin hbegin
  have hinv := Replay.invariant_run hbase hrun
  have hfresh := Replay.ne_finished_begin hbegin
  refine ⟨⟨?_, ?_⟩, ?_⟩
  · rintro ⟨more, s', hmore, hfinished, -⟩
    by_contra hstuck
    obtain ⟨hnone, hsome⟩ := not_or.mp hstuck
    have hzero : concurrency.toNat = 0 := by omega
    rw [hzero] at hbase hinv
    have hsessions := List.length_pos_of_ne_nil (bySession_ne_nil hsome)
    exact Replay.ne_finished_run hinv (Replay.ne_finished_run hbase hfresh hrun) hmore 0
      (hfinished 0 hsessions)
  · intro hgoes
    have hfinish : ∃ more s', s.run o (bySession requests) more = some s' ∧
        ∀ i < (bySession requests).length, (s'.task i).stage = .finished := by
      rcases hgoes with hpos | rfl
      · exact Replay.exists_finish hinv (by omega)
      · exact ⟨[], s, rfl, fun i hi => absurd hi (Nat.not_lt_zero i)⟩
    obtain ⟨more, s', hmore, hfinished⟩ := hfinish
    refine ⟨more, s', hmore, hfinished, ?_⟩
    rw [Replay.turns_of_finished (Replay.invariant_run hinv hmore) hfinished]
    exact perm_flatMap_bySession requests
  · rintro rfl i hi
    have hleft := Replay.ne_finished_run hbase hfresh hrun i
    exact ⟨Replay.posts_eq_nil_of_outside hinv (List.getElem?_eq_getElem hi)
      (Replay.place_ne_inside hinv i) hleft, hleft⟩

/-- Two sessions and one permit, with one of them waiting for it, and the same
two without a permit. -/
theorem replay_finishes_two :
    let requests : List (GeneratedTurn ℚ) := [bareTurn 7 1 3, bareTurn 8 0 0, bareTurn 7 0 1]
    let o : ReplayOptions := ⟨"http://gateway", "prefix-cache", none⟩
    (∃ s₀ s : Replay ℚ, Replay.begin 1 0 = .ok s₀ ∧
      s₀.run o (bySession requests) [.run 0, .run 1] = some s ∧
      ∃ more s', s.run o (bySession requests) more = some s' ∧
        (∀ i < (bySession requests).length, (s'.task i).stage = .finished) ∧
        ((List.range (bySession requests).length).flatMap fun i =>
          (s'.task i).past.map fun x => x.post.turn).Perm requests) ∧
    ∃ s₀ s : Replay ℚ, Replay.begin 0 0 = .ok s₀ ∧
      s₀.run o (bySession requests) [.run 0, .run 1] = some s ∧
      ∀ i < (bySession requests).length,
        (s.task i).posts = [] ∧ (s.task i).stage ≠ .finished := by
  intro requests o
  constructor
  · have hruns : ((⟨0, ⟨1, []⟩, {}, fun _ => {}⟩ : Replay ℚ).run o (bySession requests)
        [.run 0, .run 1]).isSome = true := by decide +kernel
    obtain ⟨s, hrun⟩ := Option.isSome_iff_exists.mp hruns
    have hbegin : Replay.begin 1 (0 : ℚ) = .ok ⟨0, ⟨1, []⟩, {}, fun _ => {}⟩ := rfl
    exact ⟨_, s, hbegin, hrun, (replay_finishes_iff hbegin hrun).1.mpr (Or.inl one_pos)⟩
  · have hruns : ((⟨0, ⟨0, []⟩, {}, fun _ => {}⟩ : Replay ℚ).run o (bySession requests)
        [.run 0, .run 1]).isSome = true := by decide +kernel
    obtain ⟨s, hrun⟩ := Option.isSome_iff_exists.mp hruns
    have hbegin : Replay.begin 0 (0 : ℚ) = .ok ⟨0, ⟨0, []⟩, {}, fun _ => {}⟩ := rfl
    exact ⟨_, s, hbegin, hrun, (replay_finishes_iff hbegin hrun).2 rfl⟩

end SchedLm.Bench
