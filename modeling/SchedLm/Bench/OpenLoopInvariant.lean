import SchedLm.Bench.OpenLoop

/-!
What every reachable state of the open-loop driver satisfies: the permits are
balanced between the tasks and the producer, the requests sent are the first so
many, each at its time or later, and the result is what they have done.
-/

namespace SchedLm.Bench

open Semaphore

variable {K : Type}

def Job.place : Job K → Place
  | .unsent | .answered .. => .outside
  | .created | .chatting .. => .inside

def Producer.next (total : ℕ) : Producer K → ℕ
  | .sleeping _ i | .waiting i | .granted i => i
  | .gathering | .finished => total

/-- The producer queues for the request it is at, and holds its permit until the
task is there. -/
def Producer.over (p : Producer K) (places : ℕ → Place) : ℕ → Place :=
  match p with
  | .waiting i => Function.update places i .queued
  | .granted i => Function.update places i .inside
  | _ => places

theorem Producer.over_update {p : Producer K} {i total : ℕ} (hi : i < p.next total)
    (places : ℕ → Place) (q : Place) :
    p.over (Function.update places i q) = Function.update (p.over places) i q := by
  cases p with
  | waiting j =>
    have hne : i ≠ j := Nat.ne_of_lt hi
    exact Function.update_comm hne _ _ _
  | granted j =>
    have hne : i ≠ j := Nat.ne_of_lt hi
    exact Function.update_comm hne _ _ _
  | _ => rfl

theorem Producer.over_of_lt {p : Producer K} {i total : ℕ} (hi : i < p.next total)
    (places : ℕ → Place) : p.over places i = places i := by
  cases p with
  | waiting j => exact Function.update_of_ne (Nat.ne_of_lt hi) _ _
  | granted j => exact Function.update_of_ne (Nat.ne_of_lt hi) _ _
  | _ => rfl

namespace OpenLoop

def places (s : OpenLoop K) (i : ℕ) : Place := (s.job i).place

def place (s : OpenLoop K) : ℕ → Place := s.producer.over s.places

theorem job_setJob (s : OpenLoop K) (i : ℕ) (job : Job K) (j : ℕ) :
    (s.setJob i job).job j = if j = i then job else s.job j := Function.update_apply ..

theorem places_setJob (s : OpenLoop K) (i : ℕ) (job : Job K) :
    (s.setJob i job).places = Function.update s.places i job.place := by
  funext j
  unfold places
  rw [job_setJob, Function.update_apply]
  split_ifs <;> rfl

theorem place_setJob {s : OpenLoop K} {i total : ℕ} (hi : i < s.producer.next total)
    (job : Job K) : (s.setJob i job).place = Function.update s.place i job.place := by
  unfold place
  rw [places_setJob]
  exact Producer.over_update hi _ _

variable [Scalar K] {o : TrafficOptions K} {s s' : OpenLoop K}

/-- What a step can do, one constructor for each way the driver goes on from one wait to
the next. It is read off `step` once, and the invariant and the bound on the steps
follow case by case. -/
inductive Step (o : TrafficOptions K) (s : OpenLoop K) : TrafficEvent K → OpenLoop K → Prop where
  | tick {elapsed : K} (h : 0 ≤ elapsed) :
      Step o s (.tick elapsed) { s with now := s.now + elapsed }
  | woken {deadline : K} {i : ℕ} (hproducer : s.producer = .sleeping deadline i)
      (hdue : deadline ≤ s.now) :
      Step o s .produce (acquire (dispatch o (o.total - (i + 1)) (i + 1)) s i)
  | entered {i : ℕ} (hproducer : s.producer = .granted i) :
      Step o s .produce (dispatch o (o.total - (i + 1)) (i + 1) (s.setJob i .created))
  | gathered (hproducer : s.producer = .gathering) (hall : s.allAnswered o = true) :
      Step o s .produce { s with producer := .finished }
  | posted {i : ℕ} {prompt : String} (hjob : s.job i = .created)
      (hprompt : prompt ∈ trafficPrompts) :
      Step o s (.post i prompt) (s.setJob i (.chatting ⟨prompt, o.request prompt, s.now⟩ .posting))
  | heard {i : ℕ} {call : TrafficCall K} {chat chat' : Chat K} {d : Delivery}
      {new : List (Effect K)} (hjob : s.job i = .chatting call chat)
      (hresume : chat.resume call.start s.now d = some (chat', new))
      (hmore : ∀ answer, chat' ≠ .returned answer) :
      Step o s (.deliver i d) ((s.share new).setJob i (.chatting call chat'))
  | answered {i : ℕ} {call : TrafficCall K} {chat : Chat K} {answer : Behaviour K} {d : Delivery}
      {new : List (Effect K)} (hjob : s.job i = .chatting call chat)
      (hresume : chat.resume call.start s.now d = some (.returned answer, new)) :
      Step o s (.deliver i d) (((s.share new).setJob i (.answered call answer)).release)

theorem step_cases {e : TrafficEvent K} (h : s.step o e = some s') : Step o s e s' := by
  cases e with
  | tick elapsed =>
    simp only [step] at h
    split_ifs at h with helapsed
    obtain rfl := Option.some.inj h
    exact .tick helapsed
  | produce =>
    simp only [step, produce] at h
    split at h
    next deadline i hproducer =>
      split_ifs at h with hdue
      obtain rfl := Option.some.inj h
      exact .woken hproducer hdue
    next i hproducer =>
      obtain rfl := Option.some.inj h
      exact .entered hproducer
    next hproducer =>
      split_ifs at h with hall
      obtain rfl := Option.some.inj h
      exact .gathered hproducer hall
    next => cases h
  | post i prompt =>
    simp only [step] at h
    split at h
    next hjob =>
      split_ifs at h with hprompt
      obtain rfl := Option.some.inj h
      exact .posted hjob hprompt
    next => cases h
  | deliver i d =>
    simp only [step] at h
    split at h
    next call chat hjob =>
      unfold hear at h
      split at h
      next => cases h
      next answer new hresume =>
        obtain rfl := Option.some.inj h
        exact .answered hjob hresume
      next chat' new hmore hresume =>
        obtain rfl := Option.some.inj h
        exact .heard hjob hresume hmore
    next => cases h

end OpenLoop

section

variable [Scalar K] (o : TrafficOptions K)

/-- What was posted: a prompt of the list, and not ahead of its time. -/
structure TrafficCall.Kept (due now : K) (call : TrafficCall K) : Prop where
  prompt : call.prompt ∈ trafficPrompts
  request : call.request = o.request call.prompt
  onTime : 0 < o.qps → due ≤ call.start
  posted : call.start ≤ now

def Job.Kept (due now : K) : Job K → Prop
  | .unsent => True
  | .created => 0 < o.qps → due ≤ now
  | .chatting call chat =>
    call.Kept o due now ∧ chat.Faithful call.start ∧ ∀ answer, chat ≠ .returned answer
  | .answered call _ => call.Kept o due now

variable {o}

theorem Job.Kept.later {due now now' : K} {job : Job K} (h : job.Kept o due now)
    (hnow : now ≤ now') : job.Kept o due now' := by
  cases job with
  | unsent => exact h
  | created => exact fun hqps => (h hqps).trans hnow
  | chatting call chat =>
    obtain ⟨hcall, hchat⟩ := h
    exact ⟨{ hcall with posted := hcall.posted.trans hnow }, hchat⟩
  | answered call answer => exact { h with posted := h.posted.trans hnow }

def Job.made : Job K → List (Effect K)
  | .unsent | .created => []
  | .chatting call chat => chat.made call.start
  | .answered call answer => answer.effects call.start

end

namespace OpenLoop

variable [Scalar K] {o : TrafficOptions K} {s s' : OpenLoop K} {capacity : ℕ}

/-- The producer sleeps until its request is due and no longer, and asks for a
permit no sooner. -/
def Producing (o : TrafficOptions K) (s : OpenLoop K) : Producer K → Prop
  | .sleeping deadline i => i < o.total ∧ 0 < o.qps ∧ deadline = s.due o i
  | .waiting i | .granted i => i < o.total ∧ (0 < o.qps → s.due o i ≤ s.now)
  | .gathering => True
  | .finished => s.allAnswered o = true

/-- The first `next` requests are the ones that were sent, each as it should be,
and the result is what they have done, in whatever order. -/
structure Sent (o : TrafficOptions K) (next : ℕ) (s : OpenLoop K) : Prop where
  unsent : ∀ i, s.job i = .unsent ↔ next ≤ i
  kept : ∀ i, (s.job i).Kept o (s.due o i) s.now
  shared : Interleave.Done Effect.apply BenchmarkResult.Agrees {} (Finset.range o.total)
    (fun i => (s.job i).made) s.result

/-- What holds inside the loop, at request `i`, where the producer holds no place in the
queue and no permit. -/
structure Looping (o : TrafficOptions K) (capacity i : ℕ) (s : OpenLoop K) : Prop where
  balanced : Balanced capacity (Finset.range o.total) s.places s.sem
  sent : Sent o i s

/-- What holds between any two steps of the driver: the permits are accounted for, the
requests sent are the first so many, and the producer is at the next one. -/
structure Invariant (o : TrafficOptions K) (capacity : ℕ) (s : OpenLoop K) : Prop where
  balanced : Balanced capacity (Finset.range o.total) s.place s.sem
  sent : Sent o (s.producer.next o.total) s
  producing : Producing o s s.producer

theorem Sent.setJob {next next' i : ℕ} {job : Job K} {new : List (Effect K)}
    (h : Sent o next s) (htotal : i < o.total) (hi : i < next')
    (hothers : ∀ j, j ≠ i → (next ≤ j ↔ next' ≤ j)) (hjob : job ≠ .unsent)
    (hkept : job.Kept o (s.due o i) s.now) (hmade : job.made = (s.job i).made ++ new) :
    Sent o next' ((s.share new).setJob i job) := by
  refine ⟨fun j => ?_, fun j => ?_,
    commuting_apply.done_step h.shared (Finset.mem_range.mpr htotal) ?_ fun j _ hji => ?_⟩
  · rw [job_setJob]
    split_ifs with hji
    · subst hji
      exact iff_of_false hjob (not_le.mpr hi)
    · exact (h.unsent j).trans (hothers j hji)
  · rw [job_setJob]
    split_ifs with hji
    · subst hji
      exact hkept
    · exact h.kept j
  · rw [job_setJob, if_pos rfl]
    exact hmade
  · rw [job_setJob, if_neg hji]
    rfl

theorem Looping.invariant {i : ℕ} {p : Producer K} (h : Looping o capacity i s)
    (hnext : p.next o.total = i) (hover : p.over s.places = s.places)
    (hproducing : Producing o s p) : Invariant o capacity { s with producer := p } := by
  refine ⟨?_, ⟨fun j => ?_, h.sent.kept, h.sent.shared⟩, ?_⟩
  · change Balanced capacity _ (p.over s.places) s.sem
    rw [hover]
    exact h.balanced
  · change _ ↔ p.next o.total ≤ j
    rw [hnext]
    exact h.sent.unsent j
  · cases p with
    | _ => exact hproducing

theorem Sent.created {i : ℕ} (h : Sent o i s) (htotal : i < o.total)
    (hdue : 0 < o.qps → s.due o i ≤ s.now) : Sent o (i + 1) (s.setJob i .created) := by
  have hmade : Job.made .created = (s.job i).made ++ [] := by
    rw [(h.unsent i).mpr le_rfl]
    rfl
  have hcreated : (Job.created : Job K) ≠ .unsent := fun hsame => by cases hsame
  exact h.setJob htotal (Nat.lt_succ_self i) (fun j hji => by omega) hcreated hdue hmade

theorem invariant_acquire {i : ℕ} {next : OpenLoop K → OpenLoop K} (h : Looping o capacity i s)
    (htotal : i < o.total) (hdue : 0 < o.qps → s.due o i ≤ s.now)
    (hnext : ∀ t, Looping o capacity (i + 1) t → Invariant o capacity (next t)) :
    Invariant o capacity (acquire next s i) := by
  have houtside : s.places i = .outside := by
    unfold places
    rw [(h.sent.unsent i).mpr le_rfl]
    rfl
  unfold acquire
  split
  next sem hsem =>
    apply hnext
    refine ⟨?_, Sent.created (s := { s with sem := sem })
      ⟨h.sent.unsent, h.sent.kept, h.sent.shared⟩ htotal hdue⟩
    rw [places_setJob]
    exact h.balanced.acquire (Finset.mem_range.mpr htotal) houtside hsem
  next sem hsem =>
    exact ⟨h.balanced.enqueue (Finset.mem_range.mpr htotal) houtside hsem,
      ⟨h.sent.unsent, h.sent.kept, h.sent.shared⟩, htotal, hdue⟩

/-- By induction on the requests to go. -/
theorem invariant_dispatch {left i : ℕ} (hleft : i + left = o.total)
    (h : Looping o capacity i s) : Invariant o capacity (dispatch o left i s) := by
  induction left generalizing i s with
  | zero =>
    obtain rfl : i = o.total := hleft
    unfold dispatch gather
    split_ifs with hnone
    · refine h.invariant rfl rfl ?_
      change s.allAnswered o = true
      unfold allAnswered
      rw [hnone]
      rfl
    · exact h.invariant rfl rfl True.intro
  | succ left ih =>
    have htotal : i < o.total := by omega
    unfold dispatch
    dsimp only
    split_ifs with hdelay
    · have hdeadline : s.now + (s.due o i - s.now) = s.due o i := add_sub_cancel ..
      exact h.invariant rfl rfl ⟨htotal, hdelay.1, hdeadline⟩
    · apply invariant_acquire h htotal
      · intro hqps
        have hlate : ¬ 0 < s.due o i - s.now := fun hpos => hdelay ⟨hqps, hpos⟩
        linarith
      · intro t ht
        exact ih (by omega) ht

theorem invariant_begin {concurrency : ℤ} {now : K} (h : begin o concurrency now = .ok s) :
    Invariant o concurrency.toNat s := by
  unfold begin at h
  split_ifs at h with hneg
  obtain rfl := Except.ok.inj h
  apply invariant_dispatch (Nat.zero_add _)
  refine ⟨Balanced.start _ _, fun i => ?_, fun i => True.intro,
    commuting_apply.done_start fun i _ => rfl⟩
  exact iff_of_true rfl (Nat.zero_le i)

theorem Invariant.lt_next (h : Invariant o capacity s) {i : ℕ} (hjob : s.job i ≠ .unsent) :
    i < s.producer.next o.total :=
  not_le.mp fun hle => hjob ((h.sent.unsent i).mpr hle)

theorem Invariant.next_le (h : Invariant o capacity s) : s.producer.next o.total ≤ o.total := by
  have hproducing := h.producing
  cases hproducer : s.producer with
  | sleeping deadline i =>
    rw [hproducer] at hproducing
    exact hproducing.1.le
  | waiting i =>
    rw [hproducer] at hproducing
    exact hproducing.1.le
  | granted i =>
    rw [hproducer] at hproducing
    exact hproducing.1.le
  | gathering => exact le_rfl
  | finished => exact le_rfl

theorem Invariant.place_eq (h : Invariant o capacity s) {i : ℕ} (hjob : s.job i ≠ .unsent) :
    s.place i = (s.job i).place := Producer.over_of_lt (h.lt_next hjob) _

theorem Producing.setJob {i : ℕ} {job : Job K} {new : List (Effect K)} {p : Producer K}
    (h : Producing o s p) (hunfinished : p ≠ .finished) :
    Producing o ((s.share new).setJob i job) p := by
  cases p with
  | finished => exact absurd rfl hunfinished
  | _ => exact h

theorem Invariant.ne_finished (h : Invariant o capacity s) {i : ℕ} (hjob : s.job i ≠ .unsent)
    (hanswered : ∀ call answer, s.job i ≠ .answered call answer) : s.producer ≠ .finished := by
  intro hfinished
  have hproducing := h.producing
  have hlt := (h.lt_next hjob).trans_le h.next_le
  rw [hfinished] at hproducing
  have hall := List.all_eq_true.mp hproducing i (List.mem_range.mpr hlt)
  split at hall
  next call answer hsome => exact hanswered call answer hsome
  next => cases hall

theorem Invariant.setJob (h : Invariant o capacity s) {i : ℕ} {job : Job K}
    {new : List (Effect K)} (hjob : s.job i ≠ .unsent) (hbefore : (s.job i).place = .inside)
    (hafter : job.place = .inside) (hkept : job.Kept o (s.due o i) s.now)
    (hmade : job.made = (s.job i).made ++ new) :
    Invariant o capacity ((s.share new).setJob i job) := by
  have hlt := h.lt_next hjob
  have hplace : ((s.share new).setJob i job).place = s.place := by
    rw [place_setJob (s := s.share new) hlt, hafter, ← hbefore, ← h.place_eq hjob]
    exact Function.update_eq_self _ _
  refine ⟨?_, ?_, h.producing.setJob ?_⟩
  · rw [hplace]
    exact h.balanced
  · refine h.sent.setJob (hlt.trans_le h.next_le) hlt (fun _ _ => Iff.rfl) ?_ hkept hmade
    rintro rfl
    cases hafter
  · apply h.ne_finished hjob
    intro call answer hanswered
    rw [hanswered] at hbefore
    cases hbefore

omit [Scalar K] in
theorem place_of_waiting {i : ℕ} (h : s.producer = .waiting i) :
    s.place = Function.update s.places i .queued := by
  unfold place
  rw [h]
  rfl

omit [Scalar K] in
theorem producer_of_queued {i : ℕ} (h : s.place i = .queued) : s.producer = .waiting i := by
  have hplaces : s.places i ≠ .queued := by
    unfold places
    cases s.job i with
    | _ => exact fun hsame => by cases hsame
  unfold place at h
  cases hproducer : s.producer with
  | waiting j =>
    rw [hproducer] at h
    rcases eq_or_ne i j with rfl | hne
    · rfl
    · exact absurd ((Function.update_of_ne hne _ _).symm.trans h) hplaces
  | granted j =>
    rw [hproducer] at h
    change Function.update s.places j .inside i = .queued at h
    rcases eq_or_ne i j with rfl | hne
    · rw [Function.update_self] at h
      cases h
    · exact absurd ((Function.update_of_ne hne _ _).symm.trans h) hplaces
  | _ =>
    rw [hproducer] at h
    exact absurd h hplaces

/-- A task ends, and its permit goes to the producer if that waits for one. -/
theorem Invariant.answered (h : Invariant o capacity s) {i : ℕ} {call : TrafficCall K}
    {chat : Chat K} {answer : Behaviour K} {new : List (Effect K)}
    (hjob : s.job i = .chatting call chat)
    (hmade : answer.effects call.start = chat.made call.start ++ new) :
    Invariant o capacity (((s.share new).setJob i (.answered call answer)).release) := by
  have hunsent : s.job i ≠ .unsent := by
    rw [hjob]
    exact fun hsame => by cases hsame
  have hlt := h.lt_next hunsent
  have hinside : s.place i = .inside := by rw [h.place_eq hunsent, hjob]; rfl
  have hplace : ((s.share new).setJob i (.answered call answer)).place =
      Function.update s.place i .outside := place_setJob (s := s.share new) hlt _
  have hkept := h.sent.kept i
  rw [hjob] at hkept
  have hsent : Sent o (s.producer.next o.total)
      ((s.share new).setJob i (.answered call answer)) := by
    refine h.sent.setJob (hlt.trans_le h.next_le) hlt (fun _ _ => Iff.rfl) ?_ hkept.1 ?_
    · exact fun hsame => by cases hsame
    · rw [hjob]
      exact hmade
  unfold release
  split
  next sem hsem =>
    refine ⟨?_, ⟨hsent.unsent, hsent.kept, hsent.shared⟩, ?_⟩
    · change Balanced capacity _ ((s.share new).setJob i (.answered call answer)).place sem
      rw [hplace]
      exact h.balanced.release hinside hsem
    · refine h.producing.setJob (h.ne_finished hunsent ?_)
      intro call' answer' hanswered
      cases hjob.symm.trans hanswered
  next sem j hsem =>
    obtain ⟨hqueued, hbalanced⟩ := h.balanced.handOver hinside hsem
    have hwaiting := producer_of_queued hqueued
    have hproducing := h.producing
    rw [hwaiting] at hproducing hsent
    refine ⟨?_, ⟨hsent.unsent, hsent.kept, hsent.shared⟩, hproducing⟩
    have hplaces : Function.update (Function.update s.place i .outside) j .inside =
        Function.update ((s.share new).setJob i (.answered call answer)).places j .inside := by
      rw [← hplace]
      change Function.update (s.producer.over _) j .inside = _
      rw [hwaiting]
      exact Function.update_idem ..
    rw [hplaces] at hbalanced
    exact hbalanced

/-- Every step keeps the invariant. The loop of the producer is gone through inside one
step, from one wait to the next. -/
theorem invariant_step {e : TrafficEvent K} (h : Invariant o capacity s)
    (hstep : s.step o e = some s') : Invariant o capacity s' := by
  cases step_cases hstep with
  | @tick elapsed helapsed =>
    have hnow : s.now ≤ s.now + elapsed := le_add_of_nonneg_right helapsed
    refine ⟨h.balanced, ⟨h.sent.unsent, fun i => (h.sent.kept i).later hnow, h.sent.shared⟩, ?_⟩
    have hproducing := h.producing
    change Producing o _ s.producer
    cases hproducer : s.producer with
    | waiting i =>
      rw [hproducer] at hproducing
      exact ⟨hproducing.1, fun hqps => (hproducing.2 hqps).trans hnow⟩
    | granted i =>
      rw [hproducer] at hproducing
      exact ⟨hproducing.1, fun hqps => (hproducing.2 hqps).trans hnow⟩
    | _ =>
      rw [hproducer] at hproducing
      exact hproducing
  | @woken deadline i hproducer hdue =>
    obtain ⟨hbalanced, hsent, hproducing⟩ := h
    unfold place at hbalanced
    rw [hproducer] at hbalanced hsent hproducing
    obtain ⟨htotal, hqps, rfl⟩ := hproducing
    apply invariant_acquire ⟨hbalanced, hsent⟩ htotal (fun _ => hdue)
    intro t ht
    exact invariant_dispatch (by omega) ht
  | @entered i hproducer =>
    obtain ⟨hbalanced, hsent, hproducing⟩ := h
    unfold place at hbalanced
    rw [hproducer] at hbalanced hsent hproducing
    obtain ⟨htotal, hdue⟩ := hproducing
    apply invariant_dispatch (by omega)
    refine ⟨?_, hsent.created htotal hdue⟩
    rw [places_setJob]
    exact hbalanced
  | gathered hproducer hall =>
    obtain ⟨hbalanced, hsent, -⟩ := h
    unfold place at hbalanced
    rw [hproducer] at hbalanced hsent
    exact ⟨hbalanced, ⟨hsent.unsent, hsent.kept, hsent.shared⟩, hall⟩
  | @posted i prompt hjob hprompt =>
    have hkept := h.sent.kept i
    rw [hjob] at hkept
    let call : TrafficCall K := ⟨prompt, o.request prompt, s.now⟩
    have hmade : (Job.chatting call .posting).made = (s.job i).made ++ [] := by
      rw [hjob]
      rfl
    apply h.setJob _ _ rfl _ hmade
    · rw [hjob]
      exact fun hsame => by cases hsame
    · rw [hjob]
      rfl
    · exact ⟨⟨hprompt, rfl, hkept, le_rfl⟩, True.intro, fun answer hsame => by cases hsame⟩
  | @heard i call chat chat' d new hjob hresume hmore =>
    have hkept := h.sent.kept i
    rw [hjob] at hkept
    obtain ⟨hcall, hchat, -⟩ := hkept
    obtain ⟨hfaithful, hmade⟩ := Chat.resume_spec hchat hresume
    apply h.setJob
    · rw [hjob]
      exact fun hsame => by cases hsame
    · rw [hjob]
      rfl
    · rfl
    · exact ⟨hcall, hfaithful, hmore⟩
    · rw [hjob]
      exact hmade
  | @answered i call chat answer d new hjob hresume =>
    have hkept := h.sent.kept i
    rw [hjob] at hkept
    exact h.answered hjob (Chat.resume_spec hkept.2.1 hresume).2

theorem invariant_run {events : List (TrafficEvent K)} (h : Invariant o capacity s)
    (hrun : s.run o events = some s') : Invariant o capacity s' := by
  induction events generalizing s with
  | nil =>
    obtain rfl := Option.some.inj hrun
    exact h
  | cons e rest ih =>
    obtain ⟨mid, hmid, hrest⟩ := Option.bind_eq_some_iff.mp hrun
    exact ih (invariant_step h hmid) hrest

end OpenLoop

end SchedLm.Bench
