import SchedLm.Bench.ReplayInvariant
import SchedLm.Sim.SessionOrder

/-!
What the replay promises, whatever order its tasks run in: never more sessions at
once than it was told, each session's turns one by one and on time, and in the
end the result of the same requests made one after the other.
-/

namespace SchedLm.Bench

open Sim Runs

variable {K : Type}

theorem exists_sessionId_of_mem_bySession {requests : List (GeneratedTurn K)}
    {c : Conversation K} (hc : c ∈ bySession requests) :
    ∃ sid, c.items = (requests.filter fun r => r.sessionId = sid).mergeSort
      fun a b => a.turnIdx ≤ b.turnIdx := by
  obtain ⟨entry, hentry, rfl⟩ := List.mem_map.mp hc
  have hitems := Grouping.items_lookup_group GeneratedTurn.sessionId requests entry.1
  have hlookup : (Grouping.group GeneratedTurn.sessionId requests).lookup entry.1 =
      some entry.2 := AList.mem_lookup_iff.mpr hentry
  rw [hlookup] at hitems
  change entry.2.items = _ at hitems
  refine ⟨entry.1, ?_⟩
  rw [← hitems]
  rfl

theorem perm_flatMap_bySession (requests : List (GeneratedTurn K)) :
    ((bySession requests).flatMap Grouping.Group.items).Perm requests := by
  have hgroups := Grouping.perm_items_group GeneratedTurn.sessionId requests
  apply List.Perm.trans _ hgroups
  unfold bySession
  rw [List.flatMap_map]
  exact List.Perm.flatMap_left _ fun entry _ => List.mergeSort_perm _ _

theorem bySession_of_pairwise {requests : List (GeneratedTurn K)}
    (h : ∀ entry ∈ (Grouping.group GeneratedTurn.sessionId requests).entries,
      entry.2.items.Pairwise fun a b => a.turnIdx ≤ b.turnIdx) :
    bySession requests =
      (Grouping.group GeneratedTurn.sessionId requests).entries.map Sigma.snd := by
  apply List.map_congr_left
  rintro ⟨sid, items, nonempty⟩ hentry
  have hsorted : items.mergeSort (fun a b => a.turnIdx ≤ b.turnIdx) = items :=
    List.mergeSort_of_pairwise ((h _ hentry).imp fun hle => decide_eq_true hle)
  exact Grouping.Group.mk.injEq .. ▸ hsorted

/-- What a session has sent: an initial part of its turns, each after the answer
to the one before, and each no earlier after the first than it arrives after it. -/
structure InOrder [Scalar K] (o : ReplayOptions) (c : Conversation K) (t : Task K) : Prop where
  sent : List.IsPrefix (t.posts.map Post.turn) c.items
  requests : ∀ p ∈ t.posts, p.request = o.request p.turn
  onTime : ∀ first ∈ t.posts.head?, ∀ p ∈ t.posts,
    first.start + (p.turn.arrival - first.turn.arrival) ≤ p.start
  serial : t.past.Pairwise fun x y => x.finished ≤ y.post.start
  current : ∀ x ∈ t.past, ∀ p ∈ t.stage.posts, x.finished ≤ p.start

section

variable [Scalar K] {o : ReplayOptions} {c : Conversation K}

theorem Replay.Kept.inOrder {start now : K} {t : Task K} {left : List (GeneratedTurn K)}
    (h : Replay.Kept o c start now t.past t.stage.posts left) : InOrder o c t := by
  refine ⟨⟨left, h.turns⟩, h.requests, fun first hfirst p hp => ?_, h.serial, h.current⟩
  have hbase : first.turn.arrival = c.base := by
    obtain ⟨rest, hposts⟩ : ∃ rest, t.posts = first :: rest :=
      ⟨_, List.eq_cons_of_mem_head? hfirst⟩
    have hitems := h.turns
    change t.posts.map Post.turn ++ left = c.items at hitems
    rw [hposts] at hitems
    obtain ⟨items, nonempty⟩ := c
    obtain rfl : _ = items := hitems
    rfl
  rw [h.opened first hfirst, hbase]
  exact h.onTime p hp

theorem inOrder_of_posts_eq_nil {t : Task K} (hpast : t.past = []) (hout : t.stage.posts = []) :
    InOrder o c t := by
  have hnone : t.posts = [] := by
    unfold Task.posts
    rw [hpast, hout]
    rfl
  refine ⟨?_, ?_, ?_, ?_, ?_⟩
  · rw [hnone]
    exact List.nil_prefix
  · rw [hnone]
    exact fun _ hp => nomatch hp
  · rw [hnone]
    exact fun _ hfirst => nomatch hfirst
  · rw [hpast]
    exact List.Pairwise.nil
  · rw [hpast]
    exact fun _ hx => nomatch hx

theorem Replay.Standing.inOrder {now : K} {t : Task K}
    (h : Replay.Standing o c now t.past t.stage) : InOrder o c t := by
  obtain ⟨stage, past⟩ := t
  cases stage with
  | created => exact inOrder_of_posts_eq_nil h rfl
  | waiting => exact inOrder_of_posts_eq_nil h rfl
  | granted => exact inOrder_of_posts_eq_nil h rfl
  | sleeping start deadline turn left => exact Kept.inOrder (t := ⟨_, past⟩) h.1
  | chatting start post chat left => exact Kept.inOrder (t := ⟨_, past⟩) h.1
  | closing =>
    obtain ⟨start, hkept⟩ := h
    exact Kept.inOrder (t := ⟨_, past⟩) hkept
  | finished =>
    obtain ⟨start, hkept⟩ := h
    exact Kept.inOrder (t := ⟨_, past⟩) hkept

/-- At every moment of every replay, whatever the requests, the schedule and the
answers, no more sessions are under way than there are permits, and each has sent an
initial part of its turns, one at a time, each after the answer to the one before and
none ahead of its time. -/
theorem replay_in_order {requests : List (GeneratedTurn K)} {concurrency : ℤ} {now : K}
    {s₀ s : Replay K} {events : List (ReplayEvent K)}
    (hbegin : Replay.begin concurrency now = .ok s₀)
    (hrun : s₀.run o (bySession requests) events = some s) :
    (((Finset.range (bySession requests).length).filter fun i => s.place i = .inside).card : ℤ) ≤
        concurrency ∧
      ∀ i c, (bySession requests)[i]? = some c → InOrder o c (s.task i) := by
  have hinv := Replay.invariant_run (Replay.invariant_begin hbegin) hrun
  refine ⟨?_, fun i c hc => (hinv.standing i c hc).inOrder⟩
  have hcard := hinv.balanced.card_inside_le
  unfold Replay.begin at hbegin
  split_ifs at hbegin with hneg
  omega

def bareTurn (sessionId turnIdx : ℤ) (arrival : K) : GeneratedTurn K where
  sessionId := sessionId
  turnIdx := turnIdx
  arrival := arrival
  tokens := []
  blockHashes := []
  genTokens := 0
  messages := []

/-- Two sessions and one permit. -/
theorem replay_in_order_two :
    let requests : List (GeneratedTurn ℚ) := [bareTurn 7 1 3, bareTurn 8 0 0, bareTurn 7 0 1]
    let o : ReplayOptions := ⟨"http://gateway", "prefix-cache", none⟩
    ∃ s₀ s : Replay ℚ, Replay.begin 1 0 = .ok s₀ ∧
      s₀.run o (bySession requests) [.run 0, .run 1] = some s ∧
      (((Finset.range (bySession requests).length).filter
        fun i => s.place i = .inside).card : ℤ) ≤ 1 ∧
      ∀ i c, (bySession requests)[i]? = some c → InOrder o c (s.task i) := by
  intro requests o
  have hruns : ((⟨0, ⟨1, []⟩, {}, fun _ => {}⟩ : Replay ℚ).run o (bySession requests)
      [.run 0, .run 1]).isSome = true := by decide +kernel
  obtain ⟨s, hrun⟩ := Option.isSome_iff_exists.mp hruns
  have hbegin : Replay.begin 1 (0 : ℚ) = .ok ⟨0, ⟨1, []⟩, {}, fun _ => {}⟩ := rfl
  obtain ⟨hbound, horder⟩ := replay_in_order hbegin hrun
  exact ⟨_, s, rfl, hrun, hbound, horder⟩

end

section

variable [Scalar K] (o : ReplayOptions)

def Exchange.replay (r : BenchmarkResult K) (x : Exchange K) : BenchmarkResult K :=
  streamChat (fun _ => x.answer) o.url o.route x.post.turn.messages r x.post.start 50
    o.kvPriority (some x.post.turn.sessionId)

variable {o}

theorem Exchange.replay_eq_foldl (r : BenchmarkResult K) (x : Exchange K) :
    x.replay o r = x.effects.foldl Effect.apply r :=
  streamChat_eq_foldl x.answer _ _ _ r _ _ _ _

theorem foldl_replay (order : List (Exchange K)) (r : BenchmarkResult K) :
    order.foldl (Exchange.replay o) r = (order.flatMap Exchange.effects).foldl Effect.apply r := by
  rw [List.foldl_flatMap]
  exact List.foldl_ext _ _ r fun r x _ => x.replay_eq_foldl r

omit [Scalar K] in
theorem exists_handled (e : ClientError) :
    ∃ reason, handled (some e) = [Effect.error (K := K) reason] := by
  cases e with
  | payload => exact ⟨_, rfl⟩
  | other typeName => exact ⟨_, rfl⟩

theorem effects_eq_of_block {start : K} {status : ℤ} {lines : List (Line K)}
    {ending : Except ClientError K} {done : List (Effect K)} {raised : Option ClientError}
    (h : blockEffects start status lines ending = (done, raised)) (release : Option ClientError) :
    (Behaviour.answers status lines ending release).effects start =
      done ++ handled (release <|> raised) := by
  unfold Behaviour.effects
  dsimp only
  rw [h]

/-- A clean answer is one failure, or a first token and a success. -/
theorem Behaviour.Clean.effects {answer : Behaviour K} (h : answer.Clean) (start : K) :
    (∃ reason, answer.effects start = [.error reason]) ∨
      ∃ ttft e2e, answer.effects start = [.firstToken ttft, .success e2e] := by
  cases answer with
  | unreachable e => exact Or.inl (exists_handled e)
  | answers status lines ending release =>
    dsimp only [Behaviour.Clean] at h
    by_cases hstatus : status ≠ 200
    · rw [if_pos hstatus] at h
      subst h
      have hblock : blockEffects start status lines ending =
          ([.error (statusReason status)], none) := if_pos hstatus
      exact Or.inl ⟨_, effects_eq_of_block hblock none⟩
    rw [if_neg hstatus] at h
    by_cases herror : lines.any Line.isError = true
    · rw [if_pos herror] at h
      obtain ⟨rfl, hempty⟩ := h
      have hnone : newTtft start none lines = none := firstChunk_eq_none.mpr hempty
      have hblock : blockEffects start status lines ending =
          ([.error "in-stream error"], none) := by
        simp only [blockEffects, if_neg hstatus, if_pos herror, hnone]
        rfl
      exact Or.inl ⟨_, effects_eq_of_block hblock none⟩
    rw [if_neg herror] at h
    have hfirst := newTtft_of_quiet start (Bool.eq_false_of_not_eq_true herror)
    cases ending with
    | error e =>
      have hblock : blockEffects start status lines (.error e) = ([], some e) := by
        simp only [blockEffects, if_neg hstatus, if_neg herror, hfirst, firstChunk_eq_none.mpr h]
        rfl
      obtain ⟨last, hlast⟩ : ∃ last, (release <|> some e) = some last := by
        cases release with
        | none => exact ⟨e, rfl⟩
        | some e' => exact ⟨e', rfl⟩
      rw [effects_eq_of_block hblock, hlast]
      exact Or.inl (exists_handled last)
    | ok finished =>
      obtain ⟨rfl, line, hline, hbytes⟩ := h
      obtain ⟨ttft, hsome⟩ : ∃ ttft, firstChunk start lines = some ttft := by
        apply Option.ne_none_iff_exists'.mp
        intro hnone
        exact hbytes (firstChunk_eq_none.mp hnone line hline)
      have hblock : blockEffects start status lines (.ok finished) =
          ([.firstToken ttft, .success (finished - start)], none) := by
        simp only [blockEffects, if_neg hstatus, if_neg herror, hfirst, hsome]
        rfl
      exact Or.inr ⟨ttft, finished - start, effects_eq_of_block hblock none⟩

/-- What is counted goes with what is measured: so many requests in all, and one entry
in either list for each success. -/
structure Counted (count : ℕ) (r : BenchmarkResult K) : Prop where
  requests : r.successes + r.errors = count
  ttfts : r.ttfts.length = r.successes
  e2eLatencies : r.e2eLatencies.length = r.successes

theorem Counted.effects {count : ℕ} {r : BenchmarkResult K} (h : Counted count r)
    {answer : Behaviour K} (hclean : answer.Clean) (start : K) :
    Counted (count + 1) ((answer.effects start).foldl Effect.apply r) := by
  obtain ⟨hrequests, httfts, he2e⟩ := h
  rcases hclean.effects start with ⟨reason, heffects⟩ | ⟨ttft, e2e, heffects⟩
  · rw [heffects]
    exact ⟨by rw [← hrequests]; rfl, httfts, he2e⟩
  · rw [heffects]
    refine ⟨?_, ?_, ?_⟩
    · change r.successes + 1 + r.errors = count + 1
      omega
    · exact (List.length_append ..).trans (congrArg (· + 1) httfts)
    · exact (List.length_append ..).trans (congrArg (· + 1) he2e)

theorem Counted.foldl {ι : Type} {answer : ι → Behaviour K} {start : ι → K} {xs : List ι}
    (hclean : ∀ x ∈ xs, (answer x).Clean) {count : ℕ} {r : BenchmarkResult K}
    (h : Counted count r) :
    Counted (count + xs.length)
      ((xs.flatMap fun x => (answer x).effects (start x)).foldl Effect.apply r) := by
  induction xs generalizing count r with
  | nil => exact h
  | cons x rest ih =>
    have hfirst := h.effects (hclean x List.mem_cons_self) (start x)
    have hrest := ih (fun y hy => hclean y (List.mem_cons_of_mem x hy)) hfirst
    rw [List.flatMap_cons, List.foldl_append, List.length_cons, Nat.add_comm rest.length,
      ← Nat.add_assoc]
    exact hrest

omit [Scalar K] in
theorem tallied_foldl_apply (es : List (Effect K)) {r : BenchmarkResult K}
    (h : r.errors = r.tally) :
    (es.foldl Effect.apply r).errors = (es.foldl Effect.apply r).tally := by
  induction es generalizing r with
  | nil => exact h
  | cons e rest ih =>
    apply ih
    cases e with
    | error reason =>
      change r.errors + 1 = (r.recordError reason).tally
      rw [BenchmarkResult.tally_recordError, h]
    | firstToken ttft => exact h
    | success e2e => exact h

omit [Scalar K] in
theorem BenchmarkResult.Agrees.tally {r r' : BenchmarkResult K} (h : r.Agrees r') :
    r.tally = r'.tally := by
  have hkeys : ∀ reason, reason ∈ r.errorReasons ∨ reason ∈ r'.errorReasons →
      reason ∈ r.errorReasons.keys.toFinset ∪ r'.errorReasons.keys.toFinset := by
    intro reason hreason
    simpa only [Finset.mem_union, List.mem_toFinset, AList.mem_keys] using hreason
  unfold BenchmarkResult.tally
  rw [OrderedDict.total_eq_sum_lookup _ fun reason hreason => hkeys reason (Or.inl hreason),
    OrderedDict.total_eq_sum_lookup _ fun reason hreason => hkeys reason (Or.inr hreason)]
  exact Finset.sum_congr rfl fun reason _ => by rw [h.reasons]

/-- In every state of every replay in which no request is out, the result is the one of
the same requests made one after the other, in any order, up to the order of the
latencies; so the schedule does not show in what is measured. The tally of reasons is
that of the errors, and if the answers are clean, every request is counted once. -/
theorem replay_agrees {requests : List (GeneratedTurn K)} {concurrency : ℤ} {now : K}
    {s₀ s : Replay K} {events : List (ReplayEvent K)}
    (hbegin : Replay.begin concurrency now = .ok s₀)
    (hrun : s₀.run o (bySession requests) events = some s)
    (hquiet : ∀ i < (bySession requests).length, (s.task i).stage.posts = [])
    {order : List (Exchange K)}
    (horder : order.Perm ((List.range (bySession requests).length).flatMap
      fun i => (s.task i).past)) :
    s.result.Agrees (order.foldl (Exchange.replay o) {}) ∧
      s.result.errors = s.result.tally ∧
      ((∀ x ∈ order, x.answer.Clean) →
        s.result.successes + s.result.errors = order.length ∧
        s.result.ttfts.length = s.result.successes ∧
        s.result.e2eLatencies.length = s.result.successes) := by
  have hinv := Replay.invariant_run (Replay.invariant_begin hbegin) hrun
  have hmade : ∀ i < (bySession requests).length,
      (s.task i).made = (s.task i).past.flatMap Exchange.effects := by
    intro i hi
    have hnone : (s.task i).stage.made = [] := by
      have hposts := hquiet i hi
      cases hstage : (s.task i).stage with
      | chatting start post chat left =>
        rw [hstage] at hposts
        cases hposts
      | _ => rfl
    rw [Task.made, hnone, List.append_nil]
  have hall : (order.flatMap Exchange.effects).Perm
      ((List.range (bySession requests).length).flatMap fun i => (s.task i).made) := by
    have hperm := horder.flatMap_right Exchange.effects
    rw [List.flatMap_assoc] at hperm
    rwa [List.flatMap_congr fun i hi => hmade i (List.mem_range.mp hi)]
  have hagrees : s.result.Agrees (order.foldl (Exchange.replay o) {}) := by
    rw [foldl_replay]
    exact Interleave.Done.foldl hinv.shared hall
  refine ⟨hagrees, ?_, fun hclean => ?_⟩
  · rw [hagrees.errors, hagrees.tally, foldl_replay]
    exact tallied_foldl_apply _ rfl
  · have hcounted : Counted order.length (order.foldl (Exchange.replay o) {}) := by
      rw [← Nat.zero_add order.length, foldl_replay]
      exact Counted.foldl hclean ⟨rfl, rfl, rfl⟩
    rw [hagrees.successes, hagrees.errors, hagrees.ttfts.length_eq,
      hagrees.e2eLatencies.length_eq]
    exact ⟨hcounted.requests, hcounted.ttfts, hcounted.e2eLatencies⟩

/-- Two sessions at once: one is answered line by line, and the other refused
in between. -/
theorem replay_agrees_two :
    let requests : List (GeneratedTurn ℚ) := [bareTurn 7 0 0, bareTurn 8 0 0]
    let o : ReplayOptions := ⟨"http://gateway", "prefix-cache", none⟩
    let events : List (ReplayEvent ℚ) := [.run 0, .run 1, .tick 1, .deliver 0 (.responded 200),
      .deliver 0 (.line [1]), .deliver 1 (.refused .payload), .tick 1, .deliver 0 .ended, .run 1,
      .deliver 0 (.released none)]
    ∃ s₀ s : Replay ℚ, Replay.begin 2 0 = .ok s₀ ∧ s₀.run o (bySession requests) events = some s ∧
      s.result.ttfts = [1] ∧ s.result.e2eLatencies = [2] ∧ s.result.errors = 1 ∧
      s.result.Agrees (((s.task 1).past ++ (s.task 0).past).foldl (Exchange.replay o) {}) ∧
      s.result.errors = s.result.tally := by
  intro requests o events
  have hsessions : bySession requests =
      (Grouping.group GeneratedTurn.sessionId requests).entries.map Sigma.snd := by
    apply bySession_of_pairwise
    decide +kernel
  have hruns : ((⟨0, ⟨2, []⟩, {}, fun _ => {}⟩ : Replay ℚ).run o
      ((Grouping.group GeneratedTurn.sessionId requests).entries.map Sigma.snd) events).any
        (fun s => (s.task 0).stage.posts.isEmpty && (s.task 1).stage.posts.isEmpty &&
          (s.result.ttfts, s.result.e2eLatencies, s.result.errors) == ([1], [2], 1)) = true := by
    decide +kernel
  obtain ⟨s, hrun, hends⟩ := (Option.any_eq_true _ _).mp hruns
  simp only [Bool.and_eq_true, beq_iff_eq, Prod.mk.injEq, List.isEmpty_iff] at hends
  obtain ⟨⟨hfirst, hsecond⟩, httfts, he2e, herrors⟩ := hends
  rw [← hsessions] at hrun
  have htwo : (bySession requests).length = 2 := by
    rw [hsessions]
    decide +kernel
  have hquiet : ∀ i < (bySession requests).length, (s.task i).stage.posts = [] := by
    intro i hi
    obtain rfl | rfl : i = 0 ∨ i = 1 := by omega
    · exact hfirst
    · exact hsecond
  have horder : ((s.task 1).past ++ (s.task 0).past).Perm
      ((List.range (bySession requests).length).flatMap fun i => (s.task i).past) := by
    rw [htwo]
    exact List.perm_append_comm.trans (by simp [List.range_succ])
  have hbegin : Replay.begin 2 (0 : ℚ) = .ok ⟨0, ⟨2, []⟩, {}, fun _ => {}⟩ := rfl
  obtain ⟨hagrees, htally, -⟩ := replay_agrees hbegin hrun hquiet horder
  exact ⟨_, s, rfl, hrun, httfts, he2e, herrors, hagrees, htally⟩

theorem orderly_of_mem_bySession {count : ℤ → ℕ} {requests : List (GeneratedTurn K)}
    (h : InTurn count requests) {c : Conversation K} (hc : c ∈ bySession requests) :
    ∃ n, Orderly n c.items := by
  obtain ⟨sid, hitems⟩ := exists_sessionId_of_mem_bySession hc
  have horderly := h sid
  have hindices : (requests.filter fun r => r.sessionId = sid).Pairwise
      fun a b => a.turnIdx ≤ b.turnIdx := by
    rw [← List.pairwise_map (R := (· ≤ ·)), horderly.turnIdx, List.pairwise_map]
    exact List.pairwise_lt_range.imp fun hlt => by exact_mod_cast hlt.le
  rw [List.mergeSort_of_pairwise (hindices.imp fun hle => decide_eq_true hle)] at hitems
  exact ⟨count sid, hitems ▸ horderly⟩

theorem orderly_of_isPrefix {n : ℕ} {turns part : List (GeneratedTurn K)} (h : Orderly n turns)
    (hpart : List.IsPrefix part turns) : Orderly part.length part := by
  refine ⟨?_, h.continues.sublist hpart.sublist⟩
  have hlength : turns.length = n := by
    have hmap := congrArg List.length h.turnIdx
    simpa using hmap
  rw [List.prefix_iff_eq_take.mp hpart, List.map_take, h.turnIdx, ← List.map_take,
    List.take_range, List.length_take]
  congr 2
  have hle := hpart.length_le
  omega

private def presorted (requests : List (GeneratedTurn ℚ)) : List (GeneratedTurn ℚ) :=
  if requests.Pairwise fun a b => a.before b = true then requests
  else requests.mergeSort GeneratedTurn.before

private theorem mergeSort_eq_presorted (requests : List (GeneratedTurn ℚ)) :
    requests.mergeSort GeneratedTurn.before = presorted requests := by
  unfold presorted
  split_ifs with hsorted
  · exact List.mergeSort_of_pairwise hsorted
  · rfl

/-- A generated stream replayed live, however it was drawn and whatever the schedule:
each session sends its turns from the first on, and each turn goes out after the answers
to all before it and starts with everything they had, so its prefix has been through the
backend already. No gap of the stream may be negative, and its tool sessions and queries
must fit in their ranges of ids. -/
theorem replay_continues {env : Surroundings K} {params : MixedParams K}
    (hparams : params.toSessionParams.Forward) {numSessions turns : ℤ}
    (hsessions : toolSessions numSessions params.mixture ≤ 1000000)
    (hqueries : ragQueries (numSessions * turns) params.mixture ≤ 1000000) {qps : K}
    {vocab vocab' : Vocab} {requests : List (GeneratedTurn K)}
    (hgenerated : generateMixed env numSessions turns qps params vocab = .ok (requests, vocab'))
    {concurrency : ℤ} {now : K} {s₀ s : Replay K} {events : List (ReplayEvent K)}
    (hbegin : Replay.begin concurrency now = .ok s₀)
    (hrun : s₀.run o (bySession requests) events = some s)
    {i : ℕ} {c : Conversation K} (hc : (bySession requests)[i]? = some c) :
    (s.task i).posts.map (fun p => p.turn.turnIdx) =
        (List.range (s.task i).posts.length).map Nat.cast ∧
      (s.task i).past.Pairwise (fun x y =>
        x.finished ≤ y.post.start ∧ y.post.turn.Continues x.post.turn) ∧
      ∀ x ∈ (s.task i).past, ∀ p ∈ (s.task i).stage.posts,
        x.finished ≤ p.start ∧ p.turn.Continues x.post.turn := by
  have hinv := Replay.invariant_run (Replay.invariant_begin hbegin) hrun
  have horder := (hinv.standing i c hc).inOrder
  obtain ⟨-, hinTurn⟩ :=
    (returns_inTurn_generateMixed hparams hsessions hqueries qps).of_run hgenerated
  obtain ⟨n, horderly⟩ := orderly_of_mem_bySession hinTurn (List.mem_of_getElem? hc)
  obtain ⟨hindices, hcontinues⟩ := orderly_of_isPrefix horderly horder.sent
  rw [List.map_map, List.length_map] at hindices
  rw [List.pairwise_map, Task.posts, List.pairwise_append, List.pairwise_map] at hcontinues
  obtain ⟨hpast, -, hout⟩ := hcontinues
  refine ⟨hindices, horder.serial.and hpast, fun x hx p hp => ⟨horder.current x hx p hp, ?_⟩⟩
  exact hout x.post (List.mem_map_of_mem hx) p hp

/-- Two sessions of two turns: one's first turn is answered while the other's is
refused, and its second goes out in its time. -/
theorem replay_continues_two :
    let o : ReplayOptions := ⟨"http://gateway", "prefix-cache", none⟩
    let events : List (ReplayEvent ℚ) := [.run 0, .run 1, .tick 1, .deliver 0 (.responded 200),
      .deliver 1 (.refused .payload), .deliver 0 (.line [1]), .deliver 0 .ended,
      .deliver 0 (.released none), .tick 2, .run 0]
    ∃ requests vocab, generateMixed unvaried 2 2 (1 / 4) {} (importedVocab unvaried) =
        .ok (requests, vocab) ∧
      ∃ s₀ s : Replay ℚ, Replay.begin 2 0 = .ok s₀ ∧
        s₀.run o (bySession requests) events = some s ∧
        (s.task 0).past.length = 1 ∧ (s.task 0).posts.map (fun p => p.turn.turnIdx) = [0, 1] ∧
        ∀ x ∈ (s.task 0).past, ∀ p ∈ (s.task 0).stage.posts,
          x.finished ≤ p.start ∧ p.turn.Continues x.post.turn := by
  intro o events
  have hruns : (generateMixed unvaried 2 2 (1 / 4) {} (importedVocab unvaried)).toOption.any
      (fun generated =>
        let sessions := (Grouping.group GeneratedTurn.sessionId generated.1).entries
        decide (∀ entry ∈ sessions, entry.2.items.Pairwise fun a b => a.turnIdx ≤ b.turnIdx) &&
          ((⟨0, ⟨2, []⟩, {}, fun _ => {}⟩ : Replay ℚ).run o (sessions.map Sigma.snd) events).any
            fun s => (sessions.length, (s.task 0).past.length, (s.task 0).posts.length) ==
              (2, 1, 2)) = true := by
    simp only [generateMixed, generateSessions, mergeSort_eq_presorted]
    decide +kernel
  obtain ⟨⟨requests, vocab⟩, hgenerated, hreplayed⟩ := (Option.any_eq_true _ _).mp hruns
  obtain ⟨hinOrder, hreplayed⟩ := Bool.and_eq_true_iff.mp hreplayed
  obtain ⟨s, hrun, hends⟩ := (Option.any_eq_true _ _).mp hreplayed
  simp only [beq_iff_eq, Prod.mk.injEq] at hends
  obtain ⟨hcount, hpast, hposts⟩ := hends
  have hsessions := bySession_of_pairwise (of_decide_eq_true hinOrder)
  rw [← hsessions] at hrun
  have hforward : ({} : MixedParams ℚ).toSessionParams.Forward :=
    ⟨by decide +kernel, by decide +kernel, by decide +kernel⟩
  have hbegin : Replay.begin 2 (0 : ℚ) = .ok ⟨0, ⟨2, []⟩, {}, fun _ => {}⟩ := rfl
  have hlength : 0 < (bySession requests).length := by
    rw [hsessions, List.length_map, hcount]
    decide
  have hfirst := List.getElem?_eq_getElem hlength
  have hreturned : generateMixed unvaried 2 2 (1 / 4) {} (importedVocab unvaried) =
      .ok (requests, vocab) := eq_ok_of_toOption hgenerated
  obtain ⟨hindices, -, hcontinues⟩ := replay_continues hforward (by decide +kernel)
    (by decide +kernel) hreturned hbegin hrun hfirst
  rw [hposts] at hindices
  exact ⟨requests, vocab, hreturned, _, s, hbegin, hrun, hpast, hindices, hcontinues⟩

end

end SchedLm.Bench
