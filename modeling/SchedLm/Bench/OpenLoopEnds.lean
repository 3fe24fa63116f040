import SchedLm.Bench.OpenLoopSafety

/-!
The open-loop driver comes to its end: every step but the passing of time and one
more line of an answer uses up a part of the work there is, and there is a next
step as long as there are permits.
-/

namespace SchedLm.Bench

open Semaphore

variable {K : Type}

/-- The steps before a task ends, and those of the producer that lead to it. -/
def Job.rank : Job K → ℕ
  | .unsent => 6
  | .created => 4
  | .chatting _ chat => chat.rank
  | .answered .. => 0

def Producer.rank : Producer K → ℕ
  | .sleeping .. | .gathering => 1
  | .waiting _ | .granted _ | .finished => 0

/-- Neither the clock nor a line that is read. -/
def TrafficEvent.counts : TrafficEvent K → Bool
  | .tick _ => false
  | .produce | .post .. => true
  | .deliver _ d => d.counts

namespace OpenLoop

def jobsRank (o : TrafficOptions K) (s : OpenLoop K) : ℕ :=
  ∑ i ∈ Finset.range o.total, (s.job i).rank

def rank (o : TrafficOptions K) (s : OpenLoop K) : ℕ := s.jobsRank o + s.producer.rank

theorem jobsRank_setJob {o : TrafficOptions K} {i : ℕ} (hi : i < o.total) (s : OpenLoop K)
    (job : Job K) : (s.setJob i job).jobsRank o + (s.job i).rank = s.jobsRank o + job.rank := by
  have hmem : i ∈ Finset.range o.total := Finset.mem_range.mpr hi
  have hothers : ∑ j ∈ (Finset.range o.total).erase i, ((s.setJob i job).job j).rank =
      ∑ j ∈ (Finset.range o.total).erase i, (s.job j).rank :=
    Finset.sum_congr rfl fun j hj => by rw [job_setJob, if_neg (Finset.ne_of_mem_erase hj)]
  have hself : (s.setJob i job).job i = job := by rw [job_setJob, if_pos rfl]
  unfold jobsRank
  rw [← Finset.add_sum_erase _ _ hmem, ← Finset.add_sum_erase _ _ hmem, hothers, hself]
  omega

variable [Scalar K] {o : TrafficOptions K} {s s' : OpenLoop K} {capacity : ℕ}

omit [Scalar K] in
/-- The task of a request that was not sent is there, or the producer queues. -/
theorem rank_acquire {i : ℕ} {next : OpenLoop K → OpenLoop K} (hi : i < o.total)
    (hunsent : s.job i = .unsent)
    (hnext : ∀ sem, ((next ({ s with sem := sem }.setJob i .created)).rank o ≤
      ({ s with sem := sem }.setJob i .created).jobsRank o + 1)) :
    (acquire next s i).rank o ≤ s.jobsRank o := by
  unfold acquire
  split
  next sem hsem =>
    have hset := jobsRank_setJob hi { s with sem := sem } .created
    have hjobs : jobsRank o { s with sem := sem } = s.jobsRank o := rfl
    have hrest := hnext sem
    change _ + (s.job i).rank = _ + 4 at hset
    rw [hunsent, hjobs] at hset
    change _ + 6 = _ + 4 at hset
    omega
  next sem hsem => exact le_rfl

/-- By induction on the requests to go. -/
theorem rank_dispatch {left i : ℕ} (hleft : i + left = o.total)
    (hunsent : ∀ j, i ≤ j → s.job j = .unsent) :
    (dispatch o left i s).rank o ≤ s.jobsRank o + 1 := by
  induction left generalizing i s with
  | zero =>
    unfold dispatch gather
    split_ifs
    · exact Nat.le_succ _
    · exact le_rfl
  | succ left ih =>
    unfold dispatch
    dsimp only
    split_ifs
    · exact le_rfl
    · refine (rank_acquire (by omega) (hunsent i le_rfl) fun sem => ?_).trans (Nat.le_succ _)
      apply ih (by omega)
      intro j hj
      rw [job_setJob, if_neg (by omega)]
      exact hunsent j (by omega)

theorem rank_begin {concurrency : ℤ} {now : K} (h : begin o concurrency now = .ok s) :
    s.rank o ≤ 6 * o.total + 1 := by
  unfold begin at h
  split_ifs at h with hneg
  obtain rfl := Except.ok.inj h
  refine (rank_dispatch (Nat.zero_add _) fun _ _ => rfl).trans (Nat.succ_le_succ (le_of_eq ?_))
  unfold jobsRank
  dsimp only [Job.rank]
  rw [Finset.sum_const, Finset.card_range, smul_eq_mul, Nat.mul_comm]

omit [Scalar K] in
theorem rank_setJob_le {k i : ℕ} {job : Job K} {new : List (Effect K)} (hi : i < o.total)
    (h : job.rank + k ≤ (s.job i).rank) :
    ((s.share new).setJob i job).rank o + k ≤ s.rank o := by
  have hset := jobsRank_setJob hi (s.share new) job
  have hjobs : (s.share new).jobsRank o = s.jobsRank o := rfl
  change _ + (s.job i).rank = _ at hset
  change ((s.share new).setJob i job).jobsRank o + s.producer.rank + k ≤
    s.jobsRank o + s.producer.rank
  omega

omit [Scalar K] in
theorem rank_release (hwaiting : ∀ i, s.sem.release.2 = some i → s.producer = .waiting i) :
    s.release.rank o = s.rank o := by
  unfold release
  split
  next sem hsem => rfl
  next sem i hsem =>
    have hproducer := hwaiting i (by rw [hsem])
    change jobsRank o s + 0 = jobsRank o s + s.producer.rank
    rw [hproducer]
    rfl

/-- What a step does to the work that is left: none makes it more, and each one that
counts makes it less. -/
theorem rank_step {e : TrafficEvent K} (hstep : Step o s e s') (hinv : Invariant o capacity s) :
    s'.rank o + e.counts.toNat ≤ s.rank o := by
  have hproducing := hinv.producing
  have hunsent : ∀ j, s.producer.next o.total ≤ j → s.job j = .unsent :=
    fun j hj => (hinv.sent.unsent j).mpr hj
  have hsent : ∀ {i job}, s.job i = job → job ≠ .unsent → i < o.total := by
    rintro i job rfl hne
    exact (hinv.lt_next hne).trans_le hinv.next_le
  cases hstep with
  | tick helapsed => exact le_rfl
  | @woken deadline i hproducer hdue =>
    rw [hproducer] at hproducing hunsent
    have hacquired : (acquire (dispatch o (o.total - (i + 1)) (i + 1)) s i).rank o ≤
        s.jobsRank o := by
      refine rank_acquire hproducing.1 (hunsent i le_rfl) fun sem => ?_
      apply rank_dispatch (by have hi := hproducing.1; omega)
      intro j hj
      rw [job_setJob, if_neg (by omega)]
      exact hunsent j (Nat.le_of_succ_le hj)
    have hrank : s.rank o = s.jobsRank o + 1 := by rw [rank, hproducer]; rfl
    change _ + 1 ≤ _
    omega
  | @entered i hproducer =>
    rw [hproducer] at hproducing hunsent
    have hi := hproducing.1
    have hdispatched : (dispatch o (o.total - (i + 1)) (i + 1) (s.setJob i .created)).rank o ≤
        (s.setJob i .created).jobsRank o + 1 := by
      apply rank_dispatch (by omega)
      intro j hj
      rw [job_setJob, if_neg (by omega)]
      exact hunsent j (Nat.le_of_succ_le hj)
    have hset := jobsRank_setJob hi s .created
    rw [hunsent i le_rfl] at hset
    change _ + 6 = _ + 4 at hset
    have hrank : s.rank o = s.jobsRank o + 0 := by rw [rank, hproducer]; rfl
    change _ + 1 ≤ _
    omega
  | gathered hproducer hall =>
    change s.jobsRank o + 0 + 1 ≤ s.jobsRank o + s.producer.rank
    rw [hproducer]
    exact le_rfl
  | @posted i prompt hjob hprompt =>
    have hi := hsent hjob (fun hsame => by cases hsame)
    have hrank : (Job.chatting ⟨prompt, o.request prompt, s.now⟩ .posting : Job K).rank + 1 ≤
        (s.job i).rank := by
      rw [hjob]
      exact le_rfl
    have hset : ((s.share []).setJob i _).rank o + 1 ≤ s.rank o := rank_setJob_le hi hrank
    exact hset
  | @heard i call chat chat' d new hjob hresume hmore =>
    have hi := hsent hjob (fun hsame => by cases hsame)
    apply rank_setJob_le hi
    rw [hjob]
    exact Chat.rank_resume hresume
  | @answered i call chat answer d new hjob hresume =>
    have hi := hsent hjob (fun hsame => by cases hsame)
    rw [rank_release]
    · apply rank_setJob_le hi
      rw [hjob]
      exact Chat.rank_resume hresume
    · intro j hj
      have hinside : s.place i = .inside := by
        rw [hinv.place_eq (by rw [hjob]; exact fun hsame => by cases hsame), hjob]
        rfl
      obtain ⟨hqueued, -⟩ := hinv.balanced.handOver hinside (Prod.ext rfl hj)
      exact producer_of_queued (s := s) hqueued

/-- What a run does to the work that is left, so that no run has more steps that count
than there was work at its start. -/
theorem rank_run {events : List (TrafficEvent K)} (hinv : Invariant o capacity s)
    (hrun : s.run o events = some s') :
    s'.rank o + (events.filter TrafficEvent.counts).length ≤ s.rank o := by
  induction events generalizing s with
  | nil =>
    obtain rfl := Option.some.inj hrun
    exact le_rfl
  | cons e rest ih =>
    obtain ⟨mid, hmid, hrest⟩ := Option.bind_eq_some_iff.mp hrun
    have hfirst := rank_step (step_cases hmid) hinv
    have hlater := ih (invariant_step hinv hmid) hrest
    rw [List.filter_cons]
    split_ifs with hcounts
    · rw [hcounts, Bool.toNat_true] at hfirst
      rw [List.length_cons]
      omega
    · omega

def Advances (o : TrafficOptions K) (s : OpenLoop K) : Prop :=
  ∃ events s', s.run o events = some s' ∧ s'.rank o < s.rank o

theorem Advances.of_step {e : TrafficEvent K} (hinv : Invariant o capacity s)
    (hstep : s.step o e = some s') (hcounts : e.counts = true) : Advances o s := by
  have hrun : s.run o [e] = some s' := by
    unfold run
    rw [List.foldlM_cons, hstep]
    rfl
  have hrank := rank_step (step_cases hstep) hinv
  rw [hcounts] at hrank
  exact ⟨[e], s', hrun, hrank⟩

theorem exists_hear (s : OpenLoop K) (i : ℕ) (call : TrafficCall K) {chat : Chat K}
    (h : ∀ answer, chat ≠ .returned answer) :
    ∃ d s', d.counts = true ∧ s.hear i call chat d = some s' := by
  obtain ⟨d, chat', new, hcounts, hresume⟩ := Chat.exists_resume call.start s.now h
  refine ⟨d, ?_⟩
  unfold hear
  rw [hresume]
  cases chat' with
  | returned answer => exact ⟨_, hcounts, rfl⟩
  | _ => exact ⟨_, hcounts, rfl⟩

theorem advances_of_inside {i : ℕ} (hinv : Invariant o capacity s)
    (hinside : (s.job i).place = .inside) : Advances o s := by
  cases hjob : s.job i with
  | unsent =>
    rw [hjob] at hinside
    cases hinside
  | created =>
    have hprompt : "What is the capital of Japan?" ∈ trafficPrompts := by decide
    have hstep : ∃ s', s.step o (.post i "What is the capital of Japan?") = some s' := by
      simp only [step, hjob, if_pos hprompt]
      exact ⟨_, rfl⟩
    obtain ⟨s', hstep⟩ := hstep
    exact Advances.of_step hinv hstep rfl
  | chatting call chat =>
    have hkept := hinv.sent.kept i
    rw [hjob] at hkept
    obtain ⟨d, s', hcounts, hhear⟩ := exists_hear s i call hkept.2.2
    have hstep : s.step o (.deliver i d) = some s' := by
      simp only [step, hjob, hhear]
    exact Advances.of_step hinv hstep hcounts
  | answered call answer =>
    rw [hjob] at hinside
    cases hinside

/-- As long as there are permits, or nothing to use them for, somebody can go on: the
producer, or a task that is in flight. -/
theorem advances (hinv : Invariant o capacity s) (hcapacity : 0 < capacity ∨ o.total = 0)
    (hleft : s.producer ≠ .finished) : Advances o s := by
  have hproducing := hinv.producing
  cases hproducer : s.producer with
  | sleeping deadline i =>
    -- the alarm goes off once the clock has got there
    let later : OpenLoop K := { s with now := s.now + max 0 (deadline - s.now) }
    have htick : s.step o (.tick (max 0 (deadline - s.now))) = some later :=
      if_pos (le_max_left _ _)
    have hdue : deadline ≤ later.now := by
      have hmax := le_max_right 0 (deadline - s.now)
      change deadline ≤ s.now + max 0 (deadline - s.now)
      linarith
    have hlater : later.producer = .sleeping deadline i := hproducer
    have hstep : ∃ s', later.step o .produce = some s' := by
      simp only [step, produce, hlater, if_pos hdue]
      exact ⟨_, rfl⟩
    obtain ⟨s', hstep⟩ := hstep
    obtain ⟨events, last, hrun, hrank⟩ := Advances.of_step (invariant_step hinv htick) hstep rfl
    refine ⟨.tick (max 0 (deadline - s.now)) :: events, last, ?_, hrank⟩
    unfold run
    rw [List.foldlM_cons, htick]
    exact hrun
  | waiting i =>
    rw [hproducer] at hproducing
    have hpos : 0 < capacity := by
      have hi := hproducing.1
      omega
    have hplace := place_of_waiting hproducer
    have hqueued : s.place i = .queued := by rw [hplace, Function.update_self]
    obtain ⟨j, -, hinside⟩ := hinv.balanced.exists_inside hpos hqueued
    have hne : j ≠ i := by
      rintro rfl
      cases hqueued.symm.trans hinside
    rw [hplace, Function.update_of_ne hne] at hinside
    exact advances_of_inside hinv hinside
  | granted i =>
    have hstep : ∃ s', s.step o .produce = some s' := by
      simp only [step, produce, hproducer]
      exact ⟨_, rfl⟩
    obtain ⟨s', hstep⟩ := hstep
    exact Advances.of_step hinv hstep rfl
  | gathering =>
    by_cases hall : s.allAnswered o = true
    · have hstep : ∃ s', s.step o .produce = some s' := by
        simp only [step, produce, hproducer, if_pos hall]
        exact ⟨_, rfl⟩
      obtain ⟨s', hstep⟩ := hstep
      exact Advances.of_step hinv hstep rfl
    · unfold allAnswered at hall
      rw [List.all_eq_true] at hall
      simp only [not_forall] at hall
      obtain ⟨i, hi, hjob⟩ := hall
      apply advances_of_inside (i := i) hinv
      cases hcase : s.job i with
      | unsent =>
        have hle := (hinv.sent.unsent i).mp hcase
        rw [hproducer] at hle
        exact absurd (List.mem_range.mp hi) (not_lt.mpr hle)
      | answered call answer =>
        rw [hcase] at hjob
        exact absurd rfl hjob
      | _ => rfl
  | finished => exact absurd hproducer hleft

theorem run_append {first second : List (TrafficEvent K)} {mid : OpenLoop K}
    (hfirst : s.run o first = some mid) (hsecond : mid.run o second = some s') :
    s.run o (first ++ second) = some s' := by
  unfold run at *
  rw [List.foldlM_append, hfirst]
  exact hsecond

/-- From every state with the invariant the driver can be brought to its end, by
induction on the work that is left. -/
theorem exists_finish (hinv : Invariant o capacity s) (hcapacity : 0 < capacity ∨ o.total = 0) :
    ∃ events s', s.run o events = some s' ∧ s'.producer = .finished := by
  induction hwork : s.rank o using Nat.strong_induction_on generalizing s with
  | h work ih =>
    by_cases hfinished : s.producer = .finished
    · exact ⟨[], s, rfl, hfinished⟩
    · obtain ⟨first, mid, hfirst, hless⟩ := advances hinv hcapacity hfinished
      obtain ⟨second, last, hsecond, hlast⟩ :=
        ih _ (hwork ▸ hless) (invariant_run hinv hfirst) rfl
      exact ⟨first ++ second, last, run_append hfirst hsecond, hlast⟩

/-- The producer asks for a permit at once, and there is none. -/
theorem waiting_begin {now : K} (h : begin o 0 now = .ok s) (htotal : 0 < o.total) :
    s.producer = .waiting 0 := by
  unfold begin at h
  rw [if_neg (lt_irrefl _)] at h
  obtain rfl := Except.ok.inj h
  obtain ⟨n, hn⟩ := Nat.exists_eq_add_of_lt htotal
  rw [hn, Nat.zero_add]
  unfold dispatch
  dsimp only
  rw [if_neg]
  · rfl
  · rintro ⟨-, hdelay⟩
    unfold due at hdelay
    rw [Nat.cast_zero, zero_div, add_zero, sub_self] at hdelay
    exact lt_irrefl _ hdelay

/-- While the producer waits for its first permit, no request has been sent. -/
theorem unsent_of_waiting (hinv : Invariant o capacity s) (hwaiting : s.producer = .waiting 0)
    (i : ℕ) : s.job i = .unsent := by
  apply (hinv.sent.unsent i).mpr
  rw [hwaiting]
  exact Nat.zero_le i

/-- A producer that waits with no request sent waits for nobody: there is no task that
could give a permit back, and so it waits in every later state. -/
theorem waiting_step {e : TrafficEvent K} (hinv : Invariant o capacity s)
    (hwaiting : s.producer = .waiting 0) (hstep : Step o s e s') : s'.producer = .waiting 0 := by
  have hunsent := unsent_of_waiting hinv hwaiting
  cases hstep with
  | tick helapsed => exact hwaiting
  | woken hproducer hdue => cases hwaiting.symm.trans hproducer
  | entered hproducer => cases hwaiting.symm.trans hproducer
  | gathered hproducer hall => cases hwaiting.symm.trans hproducer
  | posted hjob hprompt => cases (hunsent _).symm.trans hjob
  | heard hjob hresume hmore => cases (hunsent _).symm.trans hjob
  | answered hjob hresume => cases (hunsent _).symm.trans hjob

theorem waiting_run {events : List (TrafficEvent K)} (hinv : Invariant o capacity s)
    (hwaiting : s.producer = .waiting 0) (hrun : s.run o events = some s') :
    s'.producer = .waiting 0 := by
  induction events generalizing s with
  | nil =>
    obtain rfl := Option.some.inj hrun
    exact hwaiting
  | cons e rest ih =>
    obtain ⟨mid, hmid, hrest⟩ := Option.bind_eq_some_iff.mp hrun
    exact ih (invariant_step hinv hmid) (waiting_step hinv hwaiting (step_cases hmid)) hrest

end OpenLoop

section

variable [Scalar K] {o : TrafficOptions K} {concurrency : ℤ} {now : K} {s₀ s : OpenLoop K}
  {events : List (TrafficEvent K)}

/-- In every run of the driver, whatever is answered and when, six steps for each
request and one for the end are all there is besides the passing of time and the lines
of the answers. A negative number of requests counts as none. -/
theorem traffic_bounded (hbegin : OpenLoop.begin o concurrency now = .ok s₀)
    (hrun : s₀.run o events = some s) :
    (events.filter TrafficEvent.counts).length ≤ 6 * o.numRequests.toNat + 1 := by
  have hrank := OpenLoop.rank_run (OpenLoop.invariant_begin hbegin) hrun
  have hstart := OpenLoop.rank_begin hbegin
  unfold TrafficOptions.total at hstart
  omega

/-- Three requests, two a second, and one permit. -/
theorem traffic_bounded_three :
    let o : TrafficOptions ℚ := ⟨"http://gateway", 3, "prefix-cache", 2, none, ""⟩
    let events : List (TrafficEvent ℚ) := [.tick 1, .produce]
    ∃ s₀ s : OpenLoop ℚ, OpenLoop.begin o 1 0 = .ok s₀ ∧ s₀.run o events = some s ∧
      (events.filter TrafficEvent.counts).length ≤ 6 * 3 + 1 := by
  intro o events
  let s₀ := OpenLoop.dispatch o 3 0 ⟨0, 0, ⟨1, []⟩, {}, .gathering, fun _ => .unsent⟩
  have hbegin : OpenLoop.begin o 1 0 = .ok s₀ := rfl
  have hruns : (s₀.run o events).isSome = true := by decide +kernel
  obtain ⟨s, hrun⟩ := Option.isSome_iff_exists.mp hruns
  exact ⟨s₀, s, hbegin, hrun, traffic_bounded hbegin hrun⟩

/-- Wherever the driver has got to, it can still be brought to its end if and only if
there is a permit at all, or nothing to send. Otherwise it waits for the permit of its
first request, with nothing sent, in every state of every run. -/
theorem traffic_finishes_iff (hbegin : OpenLoop.begin o concurrency now = .ok s₀)
    (hrun : s₀.run o events = some s) :
    ((∃ more s', s.run o more = some s' ∧ s'.producer = .finished) ↔
      0 < concurrency ∨ o.numRequests ≤ 0) ∧
    (concurrency = 0 → 0 < o.numRequests →
      s.producer = .waiting 0 ∧ ∀ i, s.job i = .unsent) := by
  have hbase := OpenLoop.invariant_begin hbegin
  have hinv := OpenLoop.invariant_run hbase hrun
  have hstuck : concurrency = 0 → 0 < o.numRequests → s.producer = .waiting 0 := by
    rintro rfl hsome
    have htotal : 0 < o.total := by
      unfold TrafficOptions.total
      omega
    exact OpenLoop.waiting_run hbase (OpenLoop.waiting_begin hbegin htotal) hrun
  refine ⟨⟨?_, ?_⟩, ?_⟩
  · rintro ⟨more, s', hmore, hfinished⟩
    by_contra hneither
    obtain ⟨hnone, hsome⟩ := not_or.mp hneither
    have hzero : concurrency = 0 := by
      unfold OpenLoop.begin at hbegin
      split_ifs at hbegin with hneg
      omega
    have hwaiting := OpenLoop.waiting_run hinv (hstuck hzero (by omega)) hmore
    cases hwaiting.symm.trans hfinished
  · intro hgoes
    apply OpenLoop.exists_finish hinv
    unfold TrafficOptions.total
    omega
  · intro hzero hsome
    have hwaiting := hstuck hzero hsome
    exact ⟨hwaiting, OpenLoop.unsent_of_waiting hinv hwaiting⟩

/-- The second of three requests waits for the permit of the first, and all three
for one that is never there. -/
theorem traffic_finishes_three :
    let o : TrafficOptions ℚ := ⟨"http://gateway", 3, "prefix-cache", 2, none, ""⟩
    (∃ s₀ s : OpenLoop ℚ, OpenLoop.begin o 1 0 = .ok s₀ ∧
      s₀.run o [.tick 1, .produce] = some s ∧
      ∃ more s', s.run o more = some s' ∧ s'.producer = .finished) ∧
    ∃ s₀ s : OpenLoop ℚ, OpenLoop.begin o 0 0 = .ok s₀ ∧ s₀.run o [.tick 1] = some s ∧
      s.producer = .waiting 0 ∧ ∀ i, s.job i = .unsent := by
  intro o
  constructor
  · let s₀ := OpenLoop.dispatch o 3 0 ⟨0, 0, ⟨1, []⟩, {}, .gathering, fun _ => .unsent⟩
    have hbegin : OpenLoop.begin o 1 0 = .ok s₀ := rfl
    have hruns : (s₀.run o [.tick 1, .produce]).isSome = true := by decide +kernel
    obtain ⟨s, hrun⟩ := Option.isSome_iff_exists.mp hruns
    exact ⟨s₀, s, hbegin, hrun, (traffic_finishes_iff hbegin hrun).1.mpr (Or.inl one_pos)⟩
  · let s₀ := OpenLoop.dispatch o 3 0 ⟨0, 0, ⟨0, []⟩, {}, .gathering, fun _ => .unsent⟩
    have hbegin : OpenLoop.begin o 0 0 = .ok s₀ := rfl
    have hruns : (s₀.run o [.tick 1]).isSome = true := by decide +kernel
    obtain ⟨s, hrun⟩ := Option.isSome_iff_exists.mp hruns
    exact ⟨s₀, s, hbegin, hrun, (traffic_finishes_iff hbegin hrun).2 rfl (by decide)⟩

end

end SchedLm.Bench
