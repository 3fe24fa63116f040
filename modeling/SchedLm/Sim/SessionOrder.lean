import SchedLm.Library.StableSort
import SchedLm.Sim.PrefixMatch
import SchedLm.Sim.RequestCounts

/-!
The order of the generated stream. Arrivals never run backwards, a session's turns
come in turn, and each turn starts with everything the turn before it had, so its
cached blocks are matched again.
-/

namespace SchedLm.Sim

open Runs

variable {K : Type} [Scalar K] {env : Surroundings K}

structure SessionParams.Forward (params : SessionParams K) : Prop where
  thinkTime : 0 ≤ params.thinkTime
  nominalTurnSeconds : 0 ≤ params.nominalTurnSeconds
  successLatency : ∀ tool ∈ params.tools.getD defaultTools, 0 ≤ tool.successLatency

structure History.Extends (later earlier : History K) : Prop where
  arrival : earlier.arrival ≤ later.arrival
  tokens : List.IsPrefix earlier.tokens later.tokens
  messages : List.IsPrefix earlier.messages later.messages

theorem History.Extends.refl (s : History K) : s.Extends s :=
  ⟨le_rfl, List.prefix_rfl, List.prefix_rfl⟩

theorem History.Extends.trans {s s' s'' : History K} (h : s'.Extends s) (h' : s''.Extends s') :
    s''.Extends s :=
  ⟨h.arrival.trans h'.arrival, h.tokens.trans h'.tokens, h.messages.trans h'.messages⟩

def GeneratedTurn.history (r : GeneratedTurn K) : History K where
  arrival := r.arrival
  tokens := r.tokens
  messages := r.messages

/-- A turn starts with everything an earlier one had, message by message and block by
block. -/
structure GeneratedTurn.Continues (later earlier : GeneratedTurn K) : Prop where
  history : later.history.Extends earlier.history
  blockHashes : List.IsPrefix earlier.blockHashes later.blockHashes

section Session

variable {params : SessionParams K} {tool : Option (Tool K)} {sid : ℕ}

theorem returns_later_callTool (hparams : params.Forward)
    (htool : ∀ t, tool = some t → 0 ≤ t.successLatency) (turnIdx : ℕ) (arrival : K) :
    Returns (callTool params tool sid turnIdx arrival : Gen env _)
      fun called => arrival ≤ called.2.2 := by
  cases tool with
  | none =>
    apply returns_andThen
    intro result
    apply returns_pure
    exact le_add_of_nonneg_right (add_nonneg hparams.thinkTime hparams.nominalTurnSeconds)
  | some t =>
    apply returns_andThen
    intro u
    split_ifs
    · apply returns_pure
      have hretry : (0 : K) ≤ defaultRetryGap := by
        unfold defaultRetryGap
        positivity
      exact le_add_of_nonneg_right hretry
    · apply returns_andThen
      intro result
      apply returns_pure
      exact le_add_of_nonneg_right (add_nonneg hparams.thinkTime (htool t rfl))

theorem returns_extends_startTurn (hparams : params.Forward)
    (htool : ∀ t, tool = some t → 0 ≤ t.successLatency) (turnIdx : ℕ) (s : History K) :
    Returns (startTurn params tool sid turnIdx s : Gen env _)
      fun started => started.2.Extends s := by
  unfold startTurn
  split_ifs
  · apply (returns_later_callTool hparams htool turnIdx s.arrival).bind
    intro called hlater
    apply returns_andThen
    intro ids
    exact returns_pure ⟨hlater, List.prefix_append _ _, List.prefix_append _ _⟩
  · exact returns_pure (.refl s)

omit [Scalar K] in
theorem returns_blocks (tokens : List Token) (blockSize : ℤ) :
    Returns (Gen.blocks tokens blockSize : Gen env (List BlockHash))
      fun blockHashes => blockHashes = hashBlocks env.hash tokens blockSize.toNat := by
  unfold Gen.blocks
  split_ifs
  · exact returns_throw _ _
  · exact returns_pure rfl

/-- What one turn of a session looks like from the history before it. -/
structure TurnOf (env : Surroundings K) (blockSize : ℤ) (sid : ℕ) (s : History K)
    (r : GeneratedTurn K) : Prop where
  sessionId : r.sessionId = sid
  history : r.history.Extends s
  blockHashes : r.blockHashes = hashBlocks env.hash r.tokens blockSize.toNat

theorem TurnOf.continues {blockSize : ℤ} {s : History K} {r r' : GeneratedTurn K}
    (hr : TurnOf env blockSize sid s r) (hr' : TurnOf env blockSize sid r.history r') :
    r'.Continues r := by
  refine ⟨hr'.history, ?_⟩
  rw [hr.blockHashes, hr'.blockHashes]
  exact hashBlocks_isPrefix _ hr'.history.tokens

/-- One turn goes on from the history before it, and leaves its own for the next turn of
the session to start from. -/
theorem returns_turnOf_sessionTurn (hparams : params.Forward)
    (htool : ∀ t, tool = some t → 0 ≤ t.successLatency) (turnIdx : ℕ) (s : History K) :
    Returns (sessionTurn params tool sid turnIdx s : Gen env _)
      fun next => TurnOf env params.blockSize sid s next.1 ∧ next.1.turnIdx = turnIdx ∧
        next.1.history = next.2 := by
  apply (returns_extends_startTurn hparams htool turnIdx s).bind
  rintro ⟨toolName, s'⟩ hextends
  apply returns_andThen
  intro genTokens
  apply (returns_blocks s'.tokens params.blockSize).bind
  intro blockHashes hblocks
  exact returns_pure ⟨⟨rfl, hextends, hblocks⟩, rfl, rfl⟩

/-- Turns of one session: as many as there should be, numbered in order, each with
everything the ones before it had. -/
structure Orderly (count : ℕ) (turns : List (GeneratedTurn K)) : Prop where
  turnIdx : turns.map GeneratedTurn.turnIdx = (List.range count).map Nat.cast
  continues : turns.Pairwise fun earlier later => later.Continues earlier

/-- The turns from an index on. The induction is on the turns left; each starts
from the history the one before it has left. -/
theorem returns_turnOf_sessionTurns (hparams : params.Forward)
    (htool : ∀ t, tool = some t → 0 ≤ t.successLatency) (indices : List ℕ) (s : History K) :
    Returns (sessionTurns params tool sid indices s : Gen env _)
      fun turns => turns.map GeneratedTurn.turnIdx = indices.map Nat.cast ∧
        turns.Pairwise (fun earlier later => later.Continues earlier) ∧
        ∀ r ∈ turns, TurnOf env params.blockSize sid s r := by
  induction indices generalizing s with
  | nil => exact returns_pure ⟨rfl, List.Pairwise.nil, fun r hr => (nomatch hr)⟩
  | cons turnIdx rest ih =>
    apply (returns_turnOf_sessionTurn hparams htool turnIdx s).bind
    rintro ⟨turn, s'⟩ ⟨hturn, hindex, hleft⟩
    apply (ih s').bind
    change turn.history = s' at hleft
    subst hleft
    intro turns ⟨hindices, hpairwise, hturns⟩
    apply returns_pure
    refine ⟨?_, ?_, ?_⟩
    · rw [List.map_cons, List.map_cons, hindices, hindex]
    · exact List.Pairwise.cons (fun r hr => hturn.continues (hturns r hr)) hpairwise
    · refine List.forall_mem_cons.mpr ⟨hturn, fun r hr => ?_⟩
      have hlater := hturns r hr
      exact ⟨hlater.sessionId, hturn.history.trans hlater.history, hlater.blockHashes⟩

theorem returns_sessionTool_nonneg (hparams : params.Forward) :
    Returns (sessionTool params : Gen env _)
      fun tool => ∀ t, tool = some t → 0 ≤ t.successLatency := by
  unfold sessionTool
  split_ifs
  · apply Returns.map
    apply (Gen.returns_choice (params.tools.getD defaultTools)).weaken
    intro t ht t' heq
    obtain rfl := Option.some.inj heq
    exact hparams.successLatency t ht
  · exact returns_pure fun t ht => (nomatch ht)

theorem returns_orderly_session (hparams : params.Forward) (turns : ℤ) (start : K) :
    Returns (session params sid turns start : Gen env _)
      fun requests => Orderly turns.toNat requests ∧ ∀ r ∈ requests, r.sessionId = sid := by
  apply returns_andThen
  intro user0
  apply (returns_sessionTool_nonneg hparams).bind
  intro tool htool
  apply returns_andThen
  intro ids
  apply (returns_turnOf_sessionTurns hparams htool _ _).weaken
  intro requests ⟨hindices, hpairwise, hturns⟩
  exact ⟨⟨hindices, hpairwise⟩, fun r hr => (hturns r hr).sessionId⟩

end Session

def GeneratedTurn.key (r : GeneratedTurn K) : K ×ₗ ℤ ×ₗ ℤ :=
  toLex (r.arrival, toLex (r.sessionId, r.turnIdx))

theorem GeneratedTurn.before_iff (a b : GeneratedTurn K) :
    a.before b = true ↔ a.key ≤ b.key := by
  simp only [before, key, Prod.Lex.toLex_le_toLex, decide_eq_true_eq]

namespace Orderly

variable {turns : List (GeneratedTurn K)} {count : ℕ}

theorem nil : Orderly 0 ([] : List (GeneratedTurn K)) := ⟨rfl, List.Pairwise.nil⟩

theorem eq_nil (h : Orderly 0 turns) : turns = [] := List.map_eq_nil_iff.mp h.turnIdx

theorem singleton {r : GeneratedTurn K} (h : r.turnIdx = 0) : Orderly 1 [r] :=
  ⟨congrArg (fun i => [i]) h, List.pairwise_singleton _ _⟩

theorem pairwise_key {sid : ℤ} (h : Orderly count turns) (hsid : ∀ r ∈ turns, r.sessionId = sid) :
    turns.Pairwise fun a b => a.key ≤ b.key := by
  have hindices : (turns.map GeneratedTurn.turnIdx).Pairwise (· < ·) := by
    rw [h.turnIdx, List.pairwise_map]
    exact List.pairwise_lt_range.imp fun hlt => Nat.cast_lt.mpr hlt
  apply (h.continues.and (List.pairwise_map.mp hindices)).imp_of_mem
  intro a b ha hb ⟨hcontinues, hindex⟩
  rw [GeneratedTurn.key, GeneratedTurn.key, hsid a ha, hsid b hb]
  exact Prod.Lex.toLex_mono ⟨hcontinues.history.arrival, Prod.Lex.toLex_mono ⟨le_rfl, hindex.le⟩⟩

end Orderly

/-- Taken out of the stream, each session has its turns in order, and as many of them as
`count` says. -/
def InTurn (count : ℤ → ℕ) (requests : List (GeneratedTurn K)) : Prop :=
  ∀ sid, Orderly (count sid) (requests.filter fun r => r.sessionId = sid)

namespace InTurn

variable {count count' : ℤ → ℕ} {requests requests' : List (GeneratedTurn K)}

theorem nil : InTurn (fun _ => 0) ([] : List (GeneratedTurn K)) := fun _ => Orderly.nil

theorem append (h : InTurn count requests) (h' : InTurn count' requests')
    (hapart : ∀ sid, count sid = 0 ∨ count' sid = 0) :
    InTurn (fun sid => count sid + count' sid) (requests ++ requests') := by
  intro sid
  have hsid := h sid
  have hsid' := h' sid
  rw [List.filter_append]
  dsimp only
  rcases hapart sid with hzero | hzero
  · rw [hzero] at hsid
    rwa [hsid.eq_nil, List.nil_append, hzero, Nat.zero_add]
  · rw [hzero] at hsid'
    rwa [hsid'.eq_nil, List.append_nil, hzero, Nat.add_zero]

/-- Sorting by arrival keeps the turns of each session in order. -/
theorem mergeSort (h : InTurn count requests) :
    InTurn count (requests.mergeSort GeneratedTurn.before) := by
  intro sid
  have hpart := (h sid).pairwise_key fun r hr => of_decide_eq_true (List.mem_filter.mp hr).2
  rw [StableSort.filter_mergeSort GeneratedTurn.before_iff hpart]
  exact h sid

end InTurn

/-- So many sessions of so many turns, numbered from here on. -/
def spread (base : ℤ) (sessions turns : ℕ) (sid : ℤ) : ℕ :=
  if base ≤ sid ∧ sid < base + sessions then turns else 0

theorem spread_zero (base : ℤ) (turns : ℕ) : spread base 0 turns = fun _ => 0 := by
  funext sid
  unfold spread
  rw [if_neg (by push_cast; omega)]

theorem spread_apart {base base' : ℤ} {sessions : ℕ} (h : base + sessions ≤ base')
    (sessions' turns turns' : ℕ) (sid : ℤ) :
    spread base sessions turns sid = 0 ∨ spread base' sessions' turns' sid = 0 := by
  unfold spread
  split_ifs <;> omega

theorem InTurn.cons {base : ℤ} {sessions turns : ℕ} {first others : List (GeneratedTurn K)}
    (hfirst : Orderly turns first) (hsid : ∀ r ∈ first, r.sessionId = base)
    (hothers : InTurn (spread (base + 1) sessions turns) others) :
    InTurn (spread base (sessions + 1) turns) (first ++ others) := by
  have hself : InTurn (fun sid => if sid = base then turns else 0) first := by
    intro sid
    dsimp only
    split_ifs with heq
    · subst heq
      rwa [List.filter_eq_self.mpr fun r hr => decide_eq_true (hsid r hr)]
    · have hnone : first.filter (fun r => r.sessionId = sid) = [] := by
        apply List.filter_eq_nil_iff.mpr
        intro r hr hmem
        exact heq ((of_decide_eq_true hmem).symm.trans (hsid r hr))
      rw [hnone]
      exact Orderly.nil
  have happart : ∀ sid, (if sid = base then turns else 0) = 0 ∨
      spread (base + 1) sessions turns sid = 0 := by
    intro sid
    unfold spread
    split_ifs <;> omega
  have hcount : spread base (sessions + 1) turns = fun sid =>
      (if sid = base then turns else 0) + spread (base + 1) sessions turns sid := by
    funext sid
    unfold spread
    push_cast
    split_ifs <;> omega
  rw [hcount]
  exact hself.append hothers happart

section Streams

variable {params : SessionParams K}

theorem returns_inTurn_sessions (hparams : params.Forward) (sessionRate : K) (turns : ℤ)
    (first n : ℕ) (start : K) :
    Returns (sessions params sessionRate turns (List.range' first n) start : Gen env _)
      (InTurn (spread first n turns.toNat)) := by
  induction n generalizing first start with
  | zero =>
    rw [spread_zero]
    exact returns_pure InTurn.nil
  | succ n ih =>
    apply returns_andThen
    intro gap
    apply (returns_orderly_session hparams turns (start + gap)).bind
    intro turnsOfFirst ⟨hfirst, hsid⟩
    apply (ih (first + 1) (start + gap)).bind
    intro others hothers
    apply returns_pure
    exact InTurn.cons hfirst hsid (by exact_mod_cast hothers)

/-- Requests without a session each open one of their own. -/
theorem returns_inTurn_arrivals {make : ℕ → K → Gen env (GeneratedTurn K)} {base : ℤ}
    (hmake : ∀ i arrival, Returns (make i arrival)
      fun r => r.sessionId = base + i ∧ r.turnIdx = 0)
    (rate burstCv : K) (first n : ℕ) (arrival : K) :
    Returns (arrivals rate burstCv make (List.range' first n) arrival)
      (InTurn (spread (base + first) n 1)) := by
  induction n generalizing first arrival with
  | zero =>
    rw [spread_zero]
    exact returns_pure InTurn.nil
  | succ n ih =>
    apply returns_andThen
    intro gap
    apply (hmake first (arrival + gap)).bind
    intro r ⟨hsid, hindex⟩
    apply (ih (first + 1) (arrival + gap)).bind
    intro others hothers
    apply returns_pure
    have hcast : base + ((first + 1 : ℕ) : ℤ) = base + first + 1 := by
      push_cast
      ring
    rw [hcast] at hothers
    exact InTurn.cons (Orderly.singleton hindex) (List.forall_mem_singleton.mpr hsid) hothers

theorem returns_inTurn_generateSessions (hparams : params.Forward) (numSessions turns : ℤ)
    (qps : K) :
    Returns (generateSessions env numSessions turns qps params)
      (InTurn (spread 0 numSessions.toNat turns.toNat)) := by
  have hstream := @returns_inTurn_sessions K _ env _ hparams
    (positiveRate (qps / (max turns 1 : ℤ))) turns 0 numSessions.toNat 0
  rw [← List.range_eq_range'] at hstream
  apply (Gen.returns_withSeed hstream).bind
  intro requests hrequests
  exact returns_pure hrequests.mergeSort

/-- The single requests of a class, numbered from its first id on. -/
theorem returns_inTurn_singles {make : ℕ → K → Gen env (GeneratedTurn K)} {base : ℤ}
    (hmake : ∀ i arrival, Returns (make i arrival)
      fun r => r.sessionId = base + i ∧ r.turnIdx = 0)
    (seed : Seed) (rate burstCv : K) (n : ℕ) :
    Returns (Gen.withSeed seed (arrivals rate burstCv make (List.range n) 0))
      (InTurn (spread base n 1)) := by
  have hstream := returns_inTurn_arrivals hmake rate burstCv 0 n 0
  rw [← List.range_eq_range', Nat.cast_zero, add_zero] at hstream
  exact Gen.returns_withSeed hstream

theorem returns_inTurn_ifAny {fraction : K} {base : ℤ} {n turns : ℕ}
    {requests : StateT Vocab (Except WorkloadError) (List (GeneratedTurn K))}
    (h : Returns requests (InTurn (spread base n turns))) :
    Returns (ifAny fraction requests) (InTurn (spread base (ifPart fraction n) turns)) := by
  unfold ifAny ifPart
  split_ifs
  · exact h
  · rw [spread_zero]
    exact returns_pure InTurn.nil

end Streams

def toolSessions (numSessions : ℤ) (mix : Dict String K) : ℕ :=
  let toolFrac := (mix.lookup "tool").getD 0
  ifPart toolFrac (share numSessions toolFrac).toNat

def ragQueries (total : ℤ) (mix : Dict String K) : ℕ :=
  let ragFrac := (mix.lookup "rag").getD 0
  ifPart ragFrac (share total ragFrac).toNat

def oneshots (total : ℤ) (mix : Dict String K) : ℕ :=
  let oneshotFrac := (mix.lookup "oneshot").getD 0
  ifPart oneshotFrac (share total oneshotFrac).toNat

def turnsOf (numSessions turns : ℤ) (mix : Dict String K) (sid : ℤ) : ℕ :=
  spread 0 (toolSessions numSessions mix) turns.toNat sid +
    spread ragSidBase (ragQueries (numSessions * turns) mix) 1 sid +
    spread oneshotSidBase (oneshots (numSessions * turns) mix) 1 sid

section Mixed

variable {params : MixedParams K}

theorem returns_sid_ragQuery (docTexts : List String) (weights : List K) (i : ℕ) (arrival : K) :
    Returns (ragQuery params docTexts weights i arrival : Gen env _)
      fun r => r.sessionId = ragSidBase + i ∧ r.turnIdx = 0 := by
  apply returns_andThen
  intro doc
  apply returns_andThen
  intro ids
  apply returns_andThen
  intro blockHashes
  apply returns_andThen
  intro genTokens
  exact returns_pure ⟨rfl, rfl⟩

theorem returns_sid_oneshot (i : ℕ) (arrival : K) :
    Returns (oneshot params i arrival : Gen env _)
      fun r => r.sessionId = oneshotSidBase + i ∧ r.turnIdx = 0 := by
  apply returns_andThen
  intro tokens
  apply returns_andThen
  intro blockHashes
  apply returns_andThen
  intro genTokens
  exact returns_pure ⟨rfl, rfl⟩

/-- The three classes keep to their ranges of ids, so the merged stream still has
every session in order. -/
theorem returns_inTurn_generateMixed (hparams : params.toSessionParams.Forward)
    {numSessions turns : ℤ} (hsessions : toolSessions numSessions params.mixture ≤ 1000000)
    (hqueries : ragQueries (numSessions * turns) params.mixture ≤ 1000000) (qps : K) :
    Returns (generateMixed env numSessions turns qps params) fun requests =>
      requests.Pairwise (fun a b => a.key ≤ b.key) ∧
        InTurn (turnsOf numSessions turns params.mixture) requests := by
  apply returns_andThen
  intro _
  apply (returns_inTurn_ifAny (returns_inTurn_generateSessions hparams _ turns _)).bind
  intro tool htool
  apply (returns_inTurn_ifAny (returns_inTurn_singles (returns_sid_ragQuery _ _) _ _ _ _)).bind
  intro rag hrag
  apply (returns_inTurn_ifAny (returns_inTurn_singles returns_sid_oneshot _ _ _ _)).bind
  intro oneshots honeshots
  apply returns_pure
  refine ⟨StableSort.pairwise_mergeSort GeneratedTurn.before_iff _, InTurn.mergeSort ?_⟩
  have hrag_base : (0 : ℤ) + toolSessions numSessions params.mixture ≤ ragSidBase := by
    unfold ragSidBase
    omega
  have honeshot_base :
      ragSidBase + ragQueries (numSessions * turns) params.mixture ≤ oneshotSidBase := by
    unfold ragSidBase oneshotSidBase
    omega
  apply (htool.append hrag (spread_apart hrag_base _ _ _)).append honeshots
  intro sid
  rcases spread_apart honeshot_base _ 1 1 sid with hnone | hnone
  · rcases spread_apart (hrag_base.trans (by decide : ragSidBase ≤ oneshotSidBase)) _
      turns.toNat 1 sid with hnone' | hnone'
    · exact .inl (Nat.add_eq_zero_iff.mpr ⟨hnone', hnone⟩)
    · exact .inr hnone'
  · exact .inr hnone

/-- Whatever is drawn, as long as no gap is negative and the sessions and queries fit in
their ranges of ids: the stream is sorted by arrival, each session has all its turns
once and in turn, and each turn starts with what the ones before it had. As far as the
blocks of those are still cached on a node, it finds them there. -/
theorem generateMixed_in_order (hparams : params.toSessionParams.Forward)
    {numSessions turns : ℤ} (hsessions : toolSessions numSessions params.mixture ≤ 1000000)
    (hqueries : ragQueries (numSessions * turns) params.mixture ≤ 1000000) (qps : K)
    {vocab vocab' : Vocab} {requests : List (GeneratedTurn K)}
    (hrun : generateMixed env numSessions turns qps params vocab = .ok (requests, vocab')) :
    requests.Pairwise (fun a b => a.arrival ≤ b.arrival) ∧
    ∀ sid, let ofSession := requests.filter fun r => r.sessionId = sid
      Orderly (turnsOf numSessions turns params.mixture sid) ofSession ∧
      ofSession.Pairwise fun earlier later => ∀ (n : Node K) (held : List BlockHash),
        List.IsPrefix held earlier.blockHashes → (∀ h ∈ held, h ∈ n.cache) →
          held.length ≤ n.matched later.blockHashes := by
  obtain ⟨hsorted, hinTurn⟩ :=
    (returns_inTurn_generateMixed hparams hsessions hqueries qps).of_run hrun
  refine ⟨hsorted.imp fun hkey => ?_, fun sid => ⟨hinTurn sid, ?_⟩⟩
  · rcases (Prod.Lex.toLex_le_toLex.mp hkey) with hlt | ⟨heq, -⟩
    · exact hlt.le
    · exact heq.le
  · apply (hinTurn sid).continues.imp
    intro earlier later hcontinues n held hheld hcached
    exact length_le_matchedPrefix (hheld.trans hcontinues.blockHashes)
      fun h hh => decide_eq_true (hcached h hh)

/-- Two turns of a session, a query and a one-shot. -/
theorem generateMixed_in_order_four :
    let params : MixedParams ℚ := { mix := some (AList.insert "tool" (1 / 2)
      (AList.insert "rag" (1 / 4) (AList.insert "oneshot" (1 / 4) ∅))) }
    ∃ requests vocab, requests.length = 4 ∧
      generateMixed unvaried 2 2 1 params (importedVocab unvaried) = .ok (requests, vocab) ∧
      requests.Pairwise (fun a b => a.arrival ≤ b.arrival) ∧
      Orderly 2 (requests.filter fun r => r.sessionId = 0) := by
  intro params
  have hreturns : (generateMixed unvaried 2 2 1 params
      (importedVocab unvaried)).toOption.isSome = true := by decide +kernel
  obtain ⟨⟨requests, vocab⟩, hrun⟩ := exists_eq_ok hreturns
  have hforward : params.toSessionParams.Forward :=
    ⟨by decide +kernel, by decide +kernel, by decide +kernel⟩
  obtain ⟨hsorted, hsessions⟩ := generateMixed_in_order hforward (by decide +kernel)
    (by decide +kernel) 1 hrun
  have hcount := (returns_length_generateMixed 2 2 1 params).of_run hrun
  have hturns : turnsOf 2 2 params.mixture 0 = 2 := by decide +kernel
  have hopener := (hsessions 0).1
  rw [hturns] at hopener
  exact ⟨requests, vocab, hcount.trans (by decide +kernel), hrun, hsorted, hopener⟩

end Mixed

end SchedLm.Sim
