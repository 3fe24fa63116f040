import SchedLm.Bench.OpenLoopInvariant
import SchedLm.Bench.ReplaySafety

/-!
What the open-loop driver promises: the requests go out in order, each when it is
due and not before, unless as many are in flight as there may be; and what comes
back counts every request once.
-/

namespace SchedLm.Bench

open Semaphore

variable {K : Type}

def Job.call? : Job K → Option (TrafficCall K)
  | .unsent | .created => none
  | .chatting call _ | .answered call _ => some call

def Job.exchange? : Job K → Option (TrafficCall K × Behaviour K)
  | .answered call answer => some (call, answer)
  | _ => none

namespace OpenLoop

/-- The tasks that have been created and have not ended. -/
def inFlight (o : TrafficOptions K) (s : OpenLoop K) : ℕ :=
  ((Finset.range o.total).filter fun i => (s.job i).place = .inside).card

def exchanges (o : TrafficOptions K) (s : OpenLoop K) : List (TrafficCall K × Behaviour K) :=
  (List.range o.total).filterMap fun i => (s.job i).exchange?

variable [Scalar K] {o : TrafficOptions K} {s s' : OpenLoop K} {capacity : ℕ}

omit [Scalar K] in
theorem start_acquire {next : OpenLoop K → OpenLoop K} (hnext : ∀ t, (next t).start = t.start)
    (s : OpenLoop K) (i : ℕ) : (acquire next s i).start = s.start := by
  unfold acquire
  split
  next sem hsem => exact hnext _
  next sem hsem => rfl

theorem start_dispatch (left i : ℕ) (s : OpenLoop K) : (dispatch o left i s).start = s.start := by
  induction left generalizing i s with
  | zero => rfl
  | succ left ih =>
    unfold dispatch
    dsimp only
    split_ifs
    · rfl
    · exact start_acquire (ih (i + 1)) s i

theorem start_step {e : TrafficEvent K} (hstep : Step o s e s') : s'.start = s.start := by
  cases hstep with
  | woken hproducer hdue => exact start_acquire (start_dispatch _ _) _ _
  | entered hproducer => exact start_dispatch ..
  | answered hjob hresume =>
    unfold release
    split
    · rfl
    · rfl
  | _ => rfl

theorem start_run {events : List (TrafficEvent K)} (hrun : s.run o events = some s') :
    s'.start = s.start := by
  induction events generalizing s with
  | nil =>
    obtain rfl := Option.some.inj hrun
    rfl
  | cons e rest ih =>
    obtain ⟨mid, hmid, hrest⟩ := Option.bind_eq_some_iff.mp hrun
    exact (ih hrest).trans (start_step (step_cases hmid))

theorem start_begin {concurrency : ℤ} {now : K} (h : begin o concurrency now = .ok s) :
    s.start = now := by
  unfold begin at h
  split_ifs at h with hneg
  obtain rfl := Except.ok.inj h
  exact start_dispatch ..

theorem Invariant.inFlight_le (h : Invariant o capacity s) : s.inFlight o ≤ capacity := by
  refine le_trans (Finset.card_le_card fun i hi => ?_) h.balanced.card_inside_le
  obtain ⟨hmem, hinside⟩ := Finset.mem_filter.mp hi
  have hunsent : s.job i ≠ .unsent := by
    intro hsame
    rw [hsame] at hinside
    cases hinside
  exact Finset.mem_filter.mpr ⟨hmem, (h.place_eq hunsent).trans hinside⟩

/-- The producer waits for a permit while all of them are out. -/
theorem Invariant.inFlight_of_waiting (h : Invariant o capacity s) {i : ℕ}
    (hwaiting : s.producer = .waiting i) : s.inFlight o = capacity := by
  have hplace := place_of_waiting hwaiting
  have hqueued : s.place i = .queued := by rw [hplace, Function.update_self]
  have hzero := h.balanced.queuing (List.ne_nil_of_mem ((h.balanced.queued i).mpr hqueued))
  have hpermits := h.balanced.permits
  rw [hzero, Nat.zero_add] at hpermits
  rw [← hpermits]
  refine congrArg Finset.card (Finset.filter_congr fun j _ => ?_)
  rw [hplace]
  rcases eq_or_ne j i with rfl | hne
  · have hunsent : s.job j = .unsent := by
      apply (h.sent.unsent j).mpr
      rw [hwaiting]
      exact le_rfl
    rw [Function.update_self, hunsent]
    exact iff_of_false (fun hsame => by cases hsame) (fun hsame => by cases hsame)
  · rw [Function.update_of_ne hne]
    rfl

theorem Invariant.kept_of_call (h : Invariant o capacity s) {i : ℕ} {call : TrafficCall K}
    (hcall : (s.job i).call? = some call) : call.Kept o (s.due o i) s.now := by
  have hkept := h.sent.kept i
  cases hjob : s.job i with
  | unsent =>
    rw [hjob] at hcall
    cases hcall
  | created =>
    rw [hjob] at hcall
    cases hcall
  | chatting call' chat =>
    rw [hjob] at hcall hkept
    obtain rfl := Option.some.inj hcall
    exact hkept.1
  | answered call' answer =>
    rw [hjob] at hcall hkept
    obtain rfl := Option.some.inj hcall
    exact hkept

end OpenLoop

section

variable [Scalar K] {o : TrafficOptions K}

/-- At every moment of every run no more tasks are in flight than there may be, and the
requests sent are the first so many, each with a prompt of the list and none before it
is due. The producer sleeps until exactly that time, and waits for a permit only while
every permit is with a task. -/
theorem traffic_paced {concurrency : ℤ} {now : K} {s₀ s : OpenLoop K}
    {events : List (TrafficEvent K)} (hbegin : OpenLoop.begin o concurrency now = .ok s₀)
    (hrun : s₀.run o events = some s) :
    (s.inFlight o : ℤ) ≤ concurrency ∧
      ∃ sent ≤ o.total, (∀ i, s.job i ≠ .unsent ↔ i < sent) ∧
        (∀ i call, (s.job i).call? = some call →
          call.prompt ∈ trafficPrompts ∧ call.request = o.request call.prompt ∧
            (0 < o.qps → now + i / o.qps ≤ call.start)) ∧
        (∀ deadline i, s.producer = .sleeping deadline i →
          i = sent ∧ deadline = now + i / o.qps) ∧
        ∀ i, s.producer = .waiting i → i = sent ∧ (s.inFlight o : ℤ) = concurrency := by
  have hinv := OpenLoop.invariant_run (OpenLoop.invariant_begin hbegin) hrun
  have hstart : s.start = now :=
    (OpenLoop.start_run hrun).trans (OpenLoop.start_begin hbegin)
  have hnonneg : 0 ≤ concurrency := by
    unfold OpenLoop.begin at hbegin
    split_ifs at hbegin with hneg
    exact not_lt.mp hneg
  have hproducing := hinv.producing
  subst hstart
  refine ⟨?_, s.producer.next o.total, hinv.next_le, fun i => ?_, fun i call hcall => ?_,
    fun deadline i hsleeping => ?_, fun i hwaiting => ?_⟩
  · have hle := hinv.inFlight_le
    omega
  · rw [Ne, hinv.sent.unsent, not_le]
  · have hkept := hinv.kept_of_call hcall
    exact ⟨hkept.prompt, hkept.request, hkept.onTime⟩
  · rw [hsleeping] at hproducing ⊢
    exact ⟨rfl, hproducing.2.2⟩
  · have hall := hinv.inFlight_of_waiting hwaiting
    rw [hwaiting]
    exact ⟨rfl, by omega⟩

/-- Two requests a second and one permit: the second request waits for it. -/
theorem traffic_paced_three :
    let o : TrafficOptions ℚ := ⟨"http://gateway", 3, "prefix-cache", 2, none, ""⟩
    ∃ s₀ s : OpenLoop ℚ, OpenLoop.begin o 1 0 = .ok s₀ ∧
      s₀.run o [.tick 1, .produce] = some s ∧ s.producer = .waiting 1 ∧
      (s.inFlight o : ℤ) = 1 := by
  intro o
  let s₀ := OpenLoop.dispatch o 3 0 ⟨0, 0, ⟨1, []⟩, {}, .gathering, fun _ => .unsent⟩
  have hbegin : OpenLoop.begin o 1 0 = .ok s₀ := rfl
  have hruns : (s₀.run o [.tick 1, .produce]).any
      (fun s => s.producer = .waiting 1) = true := by decide +kernel
  obtain ⟨s, hrun, hwaits⟩ := (Option.any_eq_true _ _).mp hruns
  have hwaiting : s.producer = .waiting 1 := of_decide_eq_true hwaits
  obtain ⟨-, sent, -, -, -, -, hfull⟩ := traffic_paced hbegin hrun
  exact ⟨s₀, s, hbegin, hrun, hwaiting, (hfull 1 hwaiting).2⟩

variable (o) in
def TrafficOptions.send (r : BenchmarkResult K) (x : TrafficCall K × Behaviour K) :
    BenchmarkResult K :=
  streamChat (fun _ => x.2) o.url o.route (o.messages x.1.prompt) r x.1.start 50 o.kvPriority none

theorem foldl_send (order : List (TrafficCall K × Behaviour K)) (r : BenchmarkResult K) :
    order.foldl o.send r =
      (order.flatMap fun x => x.2.effects x.1.start).foldl Effect.apply r := by
  rw [List.foldl_flatMap]
  exact List.foldl_ext _ _ r fun r x _ => streamChat_eq_foldl x.2 _ _ _ r _ _ _ _

namespace OpenLoop

variable {s : OpenLoop K} {capacity : ℕ}

theorem Invariant.answered_of_finished (h : Invariant o capacity s)
    (hfinished : s.producer = .finished) {i : ℕ} (hi : i < o.total) :
    ∃ call answer, s.job i = .answered call answer := by
  have hall := h.producing
  rw [hfinished] at hall
  have hjob := List.all_eq_true.mp hall i (List.mem_range.mpr hi)
  split at hjob
  next call answer hsome => exact ⟨call, answer, hsome⟩
  next => cases hjob

theorem length_exchanges (h : Invariant o capacity s) (hfinished : s.producer = .finished) :
    (s.exchanges o).length = o.total := by
  unfold exchanges
  rw [List.length_filterMap_eq_countP, List.countP_eq_length.mpr, List.length_range]
  intro i hi
  obtain ⟨call, answer, hjob⟩ := h.answered_of_finished hfinished (List.mem_range.mp hi)
  rw [hjob]
  rfl

theorem flatMap_exchanges (h : Invariant o capacity s) (hfinished : s.producer = .finished) :
    ((s.exchanges o).flatMap fun x => x.2.effects x.1.start) =
      (List.range o.total).flatMap fun i => (s.job i).made := by
  unfold exchanges
  rw [List.filterMap_eq_flatMap_toList, List.flatMap_assoc]
  refine List.flatMap_congr fun i hi => ?_
  obtain ⟨call, answer, hjob⟩ := h.answered_of_finished hfinished (List.mem_range.mp hi)
  rw [hjob]
  exact List.flatMap_singleton _ _

end OpenLoop

/-- What `run_traffic` returns is the result of as many requests as it was asked for, as
if they had been made one after the other, in any order, up to the order of the
latencies. If the answers are clean, it counts every request once. -/
theorem traffic_agrees {concurrency : ℤ} {now : K} {s₀ s : OpenLoop K}
    {events : List (TrafficEvent K)} (hbegin : OpenLoop.begin o concurrency now = .ok s₀)
    (hrun : s₀.run o events = some s) (hfinished : s.producer = .finished)
    {order : List (TrafficCall K × Behaviour K)} (horder : order.Perm (s.exchanges o)) :
    order.length = o.numRequests.toNat ∧ s.result.Agrees (order.foldl o.send {}) ∧
      s.result.errors = s.result.tally ∧
      ((∀ x ∈ order, x.2.Clean) →
        s.result.successes + s.result.errors = o.numRequests.toNat ∧
        s.result.ttfts.length = s.result.successes ∧
        s.result.e2eLatencies.length = s.result.successes) := by
  have hinv := OpenLoop.invariant_run (OpenLoop.invariant_begin hbegin) hrun
  have hlength : order.length = o.numRequests.toNat :=
    horder.length_eq.trans (OpenLoop.length_exchanges hinv hfinished)
  have hagrees : s.result.Agrees (order.foldl o.send {}) := by
    rw [foldl_send]
    apply Interleave.Done.foldl hinv.sent.shared
    rw [← OpenLoop.flatMap_exchanges hinv hfinished]
    exact horder.flatMap_right _
  refine ⟨hlength, hagrees, ?_, fun hclean => ?_⟩
  · rw [hagrees.errors, hagrees.tally, foldl_send]
    exact tallied_foldl_apply _ rfl
  · have hcounted : Counted order.length (order.foldl o.send {}) := by
      rw [← Nat.zero_add order.length, foldl_send]
      exact Counted.foldl hclean ⟨rfl, rfl, rfl⟩
    rw [hagrees.successes, hagrees.errors, hagrees.ttfts.length_eq,
      hagrees.e2eLatencies.length_eq, ← hlength]
    exact ⟨hcounted.requests, hcounted.ttfts, hcounted.e2eLatencies⟩

/-- Two requests, one of them refused and one shed. -/
theorem traffic_agrees_two :
    let o : TrafficOptions ℚ := ⟨"http://gateway", 2, "prefix-cache", 0, none, ""⟩
    ∃ s₀ s : OpenLoop ℚ, OpenLoop.begin o 2 0 = .ok s₀ ∧
      s₀.run o [.post 1 "What is the capital of Japan?",
        .post 0 "What is the capital of Japan?", .deliver 1 (.refused .payload),
        .deliver 0 (.responded 503), .deliver 0 (.released none), .produce] = some s ∧
      s.result.Agrees ((s.exchanges o).foldl o.send {}) ∧ (s.exchanges o).length = 2 := by
  intro o
  let s₀ := OpenLoop.dispatch o 2 0 ⟨0, 0, ⟨2, []⟩, {}, .gathering, fun _ => .unsent⟩
  have hbegin : OpenLoop.begin o 2 0 = .ok s₀ := rfl
  have hruns : (s₀.run o [.post 1 "What is the capital of Japan?",
      .post 0 "What is the capital of Japan?", .deliver 1 (.refused .payload),
      .deliver 0 (.responded 503), .deliver 0 (.released none), .produce]).any
        (fun s => s.producer = .finished) = true := by decide +kernel
  obtain ⟨s, hrun, hends⟩ := (Option.any_eq_true _ _).mp hruns
  have hfinished : s.producer = .finished := of_decide_eq_true hends
  obtain ⟨hlength, hagrees, -⟩ := traffic_agrees hbegin hrun hfinished (List.Perm.refl _)
  exact ⟨s₀, s, hbegin, hrun, hagrees, hlength⟩

end

end SchedLm.Bench
