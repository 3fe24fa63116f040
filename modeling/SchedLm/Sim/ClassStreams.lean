import SchedLm.Library.Relabel
import SchedLm.Sim.PrefixMatch
import SchedLm.Sim.SessionOrder

/-!
The classes of a mix do not touch each other. Each draws from a generator of its
own, so taken out of the mixed stream it is the stream it would be alone, up to
the ids that the words of the others take; and the tool sessions, which come
first, are the same to the last token.
-/

namespace SchedLm.Sim

open Runs

def Kind.className : Kind → String
  | .tool => "tool"
  | .rag => "rag"
  | .oneshot => "oneshot"

variable {K : Type} {env : Surroundings K}

def SameRng (s s' : Draws env) : Prop := s.rng = s'.rng

/-- Computations that return related values from the same random state. -/
abbrev Gen.Alike {α β : Type} (x : Gen env α) (y : Gen env β) (R : α → β → Prop) : Prop :=
  Tracks SameRng x y R

namespace Gen

theorem alike_draw {α : Type} (f : env.Rng → α × env.Rng) :
    Gen.Alike (Gen.draw f) (Gen.draw f) Eq := by
  constructor
  intro s s' h
  have hrng : s.rng = s'.rng := h
  refine .ok ⟨?_, ?_⟩
  · change (f s.rng).1 = (f s'.rng).1
    rw [hrng]
  · change (f s.rng).2 = (f s'.rng).2
    rw [hrng]

theorem alike_choice {α : Type} (xs : List α) :
    Gen.Alike (Gen.choice xs : Gen env α) (Gen.choice xs) Eq := by
  cases xs with
  | nil => exact tracks_throw _ _
  | cons first rest =>
    apply (alike_draw fun rng => env.choice rng rest.length).bind
    rintro i _ rfl
    exact tracks_pure rfl

theorem alike_weightedChoice {α : Type} (xs : List α) (weights : List K) :
    Gen.Alike (Gen.weightedChoice xs weights : Gen env α) (Gen.weightedChoice xs weights) Eq := by
  cases weights with
  | nil => exact tracks_throw _ _
  | cons first rest =>
    apply (alike_draw fun rng => env.weighted rng first rest).bind
    rintro i _ rfl
    cases xs[i.val]? with
    | none => exact tracks_throw _ _
    | some x => exact tracks_pure rfl

/-- A text has as many tokens over one vocabulary as over another. -/
theorem length_tokenizeWords (vocab : Vocab) (words : List (List Char)) :
    (tokenizeWords vocab words).1.length = words.length := by
  induction words generalizing vocab with
  | nil => rfl
  | cons word rest ih => exact congrArg (· + 1) (ih _)

theorem alike_ids (text : String) :
    Gen.Alike (Gen.ids text : Gen env (List Token)) (Gen.ids text)
      fun ids ids' => ids.length = ids'.length := by
  constructor
  intro s s' h
  refine .ok ⟨?_, h⟩
  change (tokenizeWords s.vocab _).1.length = (tokenizeWords s'.vocab _).1.length
  rw [length_tokenizeWords, length_tokenizeWords]

theorem length_hashBlocks (hash : BlockHash × List Token → BlockHash) (tokens : List Token)
    (blockSize : ℕ) : (hashBlocks hash tokens blockSize).length = tokens.length / blockSize := by
  rw [hashBlocks_eq_chain, HashChain.chain_eq_map_inits]
  simp

theorem alike_blocks {tokens tokens' : List Token} (h : tokens.length = tokens'.length)
    (blockSize : ℤ) :
    Gen.Alike (Gen.blocks tokens blockSize : Gen env (List BlockHash))
      (Gen.blocks tokens' blockSize) fun blocks blocks' => blocks.length = blocks'.length := by
  unfold Gen.blocks
  split_ifs
  · exact tracks_throw _ _
  · apply tracks_pure
    rw [length_hashBlocks, length_hashBlocks, h]

/-- With a seed of its own a class starts from the same random state wherever it
stands in the mix. -/
theorem alike_withSeed {α : Type} {x : Gen env α} {R : α → α → Prop}
    (h : Gen.Alike x x R) (seed : Seed) :
    Tracks (fun _ _ : Vocab => True) (Gen.withSeed seed x) (Gen.withSeed seed x) R := by
  constructor
  intro vocab vocab' _
  have hrun : Related _ (x { rng := env.seeded seed, vocab := vocab })
      (x { rng := env.seeded seed, vocab := vocab' }) := h.of_run rfl
  exact hrun.bind fun a b hab => .ok ⟨hab.1, True.intro⟩

end Gen

variable [Scalar K]

theorem alike_successResult (deterministicToolProb : K) (tag : String) (n : ℤ) :
    Gen.Alike (successResult deterministicToolProb tag n : Gen env String)
      (successResult deterministicToolProb tag n) Eq := by
  apply (Gen.alike_draw env.random).bind
  rintro u _ rfl
  split_ifs
  · exact Gen.alike_choice _
  · exact tracks_pure rfl

theorem alike_arrivalGap (rate burstCv : K) :
    Gen.Alike (arrivalGap rate burstCv : Gen env K) (arrivalGap rate burstCv) Eq := by
  unfold arrivalGap
  split_ifs
  · exact Gen.alike_draw _
  · exact tracks_throw _ _
  · dsimp only
    split_ifs
    · exact tracks_throw _ _
    · exact Gen.alike_draw _

theorem alike_genTokensDraw (genTokensMean : ℤ) :
    Gen.Alike (genTokensDraw genTokensMean : Gen env ℤ) (genTokensDraw genTokensMean) Eq := by
  apply (Gen.alike_draw _).bind
  rintro g _ rfl
  exact tracks_pure rfl

theorem alike_callTool (params : SessionParams K) (tool : Option (Tool K)) (sid turnIdx : ℕ)
    (arrival : K) :
    Gen.Alike (callTool params tool sid turnIdx arrival : Gen env (Option String × String × K))
      (callTool params tool sid turnIdx arrival) Eq := by
  cases tool with
  | none =>
    apply (alike_successResult _ _ _).bind
    rintro result _ rfl
    exact tracks_pure rfl
  | some tool =>
    apply (Gen.alike_draw env.random).bind
    rintro u _ rfl
    split_ifs
    · exact tracks_pure rfl
    · apply (alike_successResult _ _ _).bind
      rintro result _ rfl
      exact tracks_pure rfl

structure History.Same (s s' : History K) : Prop where
  arrival : s.arrival = s'.arrival
  tokens : s.tokens.length = s'.tokens.length
  messages : s.messages = s'.messages

/-- Turns that are the same but for the ids of their words, and with them the
hashes of their blocks. -/
structure GeneratedTurn.Same (r r' : GeneratedTurn K) : Prop where
  sessionId : r.sessionId = r'.sessionId
  turnIdx : r.turnIdx = r'.turnIdx
  arrival : r.arrival = r'.arrival
  tokens : r.tokens.length = r'.tokens.length
  blockHashes : r.blockHashes.length = r'.blockHashes.length
  genTokens : r.genTokens = r'.genTokens
  messages : r.messages = r'.messages
  kind : r.kind = r'.kind
  conversationId : r.conversationId = r'.conversationId
  toolName : r.toolName = r'.toolName

section Sessions

variable {params : SessionParams K} {tool : Option (Tool K)} {sid : ℕ}

theorem alike_startTurn {s s' : History K} (h : s.Same s') (turnIdx : ℕ) :
    Gen.Alike (startTurn params tool sid turnIdx s : Gen env _)
      (startTurn params tool sid turnIdx s') fun a b => a.1 = b.1 ∧ a.2.Same b.2 := by
  unfold startTurn
  split_ifs
  · unfold extendHistory
    rw [h.arrival]
    apply (alike_callTool params tool sid turnIdx s'.arrival).bind
    rintro ⟨toolName, toolResult, arrival⟩ _ rfl
    apply (Gen.alike_ids _).bind
    intro ids ids' hids
    apply tracks_pure
    refine ⟨rfl, rfl, ?_, ?_⟩
    · change (s.tokens ++ ids).length = (s'.tokens ++ ids').length
      rw [List.length_append, List.length_append, h.tokens, hids]
    · change s.messages ++ _ = s'.messages ++ _
      rw [h.messages]
  · exact tracks_pure ⟨rfl, h⟩

theorem alike_sessionTurn {s s' : History K} (h : s.Same s') (turnIdx : ℕ) :
    Gen.Alike (sessionTurn params tool sid turnIdx s : Gen env _)
      (sessionTurn params tool sid turnIdx s') fun a b => a.1.Same b.1 ∧ a.2.Same b.2 := by
  apply (alike_startTurn h turnIdx).bind
  rintro ⟨toolName, s⟩ ⟨_, s'⟩ ⟨rfl, hs⟩
  apply (alike_genTokensDraw params.genTokensMean).bind
  rintro genTokens _ rfl
  apply (Gen.alike_blocks hs.tokens params.blockSize).bind
  intro blocks blocks' hblocks
  exact tracks_pure
    ⟨⟨rfl, rfl, hs.arrival, hs.tokens, hblocks, rfl, hs.messages, rfl, rfl, rfl⟩, hs⟩

theorem alike_sessionTurns (indices : List ℕ) {s s' : History K} (h : s.Same s') :
    Gen.Alike (sessionTurns params tool sid indices s : Gen env _)
      (sessionTurns params tool sid indices s') (List.Forall₂ GeneratedTurn.Same) := by
  induction indices generalizing s s' with
  | nil => exact tracks_pure .nil
  | cons turnIdx rest ih =>
    apply (alike_sessionTurn h turnIdx).bind
    intro first first' hfirst
    apply (ih hfirst.2).bind
    intro turns turns' hturns
    exact tracks_pure (.cons hfirst.1 hturns)

theorem alike_session (turns : ℤ) (start : K) :
    Gen.Alike (session params sid turns start : Gen env _) (session params sid turns start)
      (List.Forall₂ GeneratedTurn.Same) := by
  apply (Gen.alike_choice userPrompts).bind
  rintro user0 _ rfl
  have htool : Gen.Alike (sessionTool params : Gen env (Option (Tool K))) (sessionTool params)
      Eq := by
    unfold sessionTool
    split_ifs
    · rw [map_eq_pure_bind]
      apply (Gen.alike_choice _).bind
      rintro tool _ rfl
      exact tracks_pure rfl
    · exact tracks_pure rfl
  apply htool.bind
  rintro tool _ rfl
  apply (Gen.alike_ids user0).bind
  intro ids ids' hids
  refine alike_sessionTurns _ ⟨rfl, ?_, rfl⟩
  change (systemTokens env ++ ids).length = (systemTokens env ++ ids').length
  rw [List.length_append, List.length_append, hids]

theorem alike_sessions (sessionRate : K) (turns : ℤ) (sids : List ℕ) (start : K) :
    Gen.Alike (sessions params sessionRate turns sids start : Gen env _)
      (sessions params sessionRate turns sids start) (List.Forall₂ GeneratedTurn.Same) := by
  induction sids generalizing start with
  | nil => exact tracks_pure .nil
  | cons sid rest ih =>
    apply (alike_arrivalGap sessionRate params.burstCv).bind
    rintro gap _ rfl
    apply (alike_session turns (start + gap)).bind
    intro first first' hfirst
    apply (ih (start + gap)).bind
    intro others others' hothers
    exact tracks_pure (List.rel_append hfirst hothers)

end Sessions

section Singles

variable {params : MixedParams K}

theorem alike_ragQuery (docTexts : List String) (weights : List K) (i : ℕ) (arrival : K) :
    Gen.Alike (ragQuery params docTexts weights i arrival : Gen env _)
      (ragQuery params docTexts weights i arrival) GeneratedTurn.Same := by
  apply (Gen.alike_weightedChoice docTexts weights).bind
  rintro doc _ rfl
  apply (Gen.alike_ids _).bind
  intro ids ids' hids
  have htokens : (systemTokens env ++ ids).length = (systemTokens env ++ ids').length := by
    rw [List.length_append, List.length_append, hids]
  apply (Gen.alike_blocks htokens params.blockSize).bind
  intro blocks blocks' hblocks
  apply (alike_genTokensDraw params.genTokensMean).bind
  rintro genTokens _ rfl
  exact tracks_pure ⟨rfl, rfl, rfl, htokens, hblocks, rfl, rfl, rfl, rfl, rfl⟩

theorem alike_oneshot (i : ℕ) (arrival : K) :
    Gen.Alike (oneshot params i arrival : Gen env _) (oneshot params i arrival)
      GeneratedTurn.Same := by
  apply (Gen.alike_ids _).bind
  intro tokens tokens' htokens
  apply (Gen.alike_blocks htokens params.blockSize).bind
  intro blocks blocks' hblocks
  apply (alike_genTokensDraw params.genTokensMean).bind
  rintro genTokens _ rfl
  exact tracks_pure ⟨rfl, rfl, rfl, htokens, hblocks, rfl, rfl, rfl, rfl, rfl⟩

theorem alike_arrivals {make : ℕ → K → Gen env (GeneratedTurn K)}
    (hmake : ∀ i arrival, Gen.Alike (make i arrival) (make i arrival) GeneratedTurn.Same)
    (rate burstCv : K) (indices : List ℕ) (arrival : K) :
    Gen.Alike (arrivals rate burstCv make indices arrival)
      (arrivals rate burstCv make indices arrival) (List.Forall₂ GeneratedTurn.Same) := by
  induction indices generalizing arrival with
  | nil => exact tracks_pure .nil
  | cons i rest ih =>
    apply (alike_arrivalGap rate burstCv).bind
    rintro gap _ rfl
    apply (hmake i (arrival + gap)).bind
    intro first first' hfirst
    apply (ih (arrival + gap)).bind
    intro others others' hothers
    exact tracks_pure (.cons hfirst hothers)

end Singles

def MixedParams.fraction (params : MixedParams K) (kind : Kind) : K :=
  (params.mixture.lookup kind.className).getD 0

def MixedParams.only (params : MixedParams K) (kind : Kind) : MixedParams K :=
  { params with mix := some ((∅ : Dict String K).insert kind.className (params.fraction kind)) }

def classRequests (env : Surroundings K) (numSessions turns : ℤ) (qps : K)
    (params : MixedParams K) (kind : Kind) (fraction : K) :
    StateT Vocab (Except WorkloadError) (List (GeneratedTurn K)) :=
  match kind with
  | .tool => generateSessions env (share numSessions fraction) turns (qps * fraction)
      params.toSessionParams
  | .rag => ragRequests env params (numSessions * turns) qps fraction
  | .oneshot => oneshotRequests env params (numSessions * turns) qps fraction

theorem GeneratedTurn.Same.before_eq {a a' b b' : GeneratedTurn K} (h : a.Same a')
    (h' : b.Same b') : a.before b = a'.before b' := by
  unfold before
  rw [h.arrival, h.sessionId, h.turnIdx, h'.arrival, h'.sessionId, h'.turnIdx]

theorem tracks_classRequests (numSessions turns : ℤ) (qps : K) (params : MixedParams K)
    (kind : Kind) (fraction : K) :
    Tracks (fun _ _ : Vocab => True)
      (classRequests env numSessions turns qps params kind fraction)
      (classRequests env numSessions turns qps params kind fraction)
      (List.Forall₂ GeneratedTurn.Same) := by
  cases kind with
  | tool =>
    apply (Gen.alike_withSeed (alike_sessions _ turns _ 0) _).bind
    intro requests requests' hrequests
    exact tracks_pure (Couple.forall₂_mergeSort (fun h h' => h.before_eq h') hrequests)
  | rag => exact Gen.alike_withSeed (alike_arrivals (alike_ragQuery _ _) _ _ _ 0) _
  | oneshot => exact Gen.alike_withSeed (alike_arrivals alike_oneshot _ _ _ 0) _

theorem returns_kind_sessionTurns (params : SessionParams K) (tool : Option (Tool K)) (sid : ℕ)
    (indices : List ℕ) (s : History K) :
    Returns (sessionTurns params tool sid indices s : Gen env _)
      fun turns => ∀ r ∈ turns, r.kind = .tool := by
  induction indices generalizing s with
  | nil => exact returns_pure (List.forall_mem_nil _)
  | cons turnIdx rest ih =>
    have hfirst : Returns (sessionTurn params tool sid turnIdx s : Gen env _)
        fun turn => turn.1.kind = .tool := by
      apply returns_andThen
      intro started
      apply returns_andThen
      intro genTokens
      apply returns_andThen
      intro blocks
      exact returns_pure rfl
    apply hfirst.bind
    intro first hfirst
    apply (ih first.2).bind
    intro turns hturns
    exact returns_pure (List.forall_mem_cons.mpr ⟨hfirst, hturns⟩)

theorem returns_kind_sessions (params : SessionParams K) (sessionRate : K) (turns : ℤ)
    (sids : List ℕ) (start : K) :
    Returns (sessions params sessionRate turns sids start : Gen env _)
      fun requests => ∀ r ∈ requests, r.kind = .tool := by
  induction sids generalizing start with
  | nil => exact returns_pure (List.forall_mem_nil _)
  | cons sid rest ih =>
    apply returns_andThen
    intro gap
    have hsession : Returns (session params sid turns (start + gap) : Gen env _)
        fun requests => ∀ r ∈ requests, r.kind = .tool := by
      apply returns_andThen
      intro user0
      apply returns_andThen
      intro tool
      apply returns_andThen
      intro ids
      exact returns_kind_sessionTurns params tool sid _ _
    apply hsession.bind
    intro first hfirst
    apply (ih (start + gap)).bind
    intro others hothers
    exact returns_pure (List.forall_mem_append.mpr ⟨hfirst, hothers⟩)

theorem returns_kind_arrivals {make : ℕ → K → Gen env (GeneratedTurn K)} {kind : Kind}
    (hmake : ∀ i arrival, Returns (make i arrival) fun r => r.kind = kind) (rate burstCv : K)
    (indices : List ℕ) (arrival : K) :
    Returns (arrivals rate burstCv make indices arrival)
      fun requests => ∀ r ∈ requests, r.kind = kind := by
  induction indices generalizing arrival with
  | nil => exact returns_pure (List.forall_mem_nil _)
  | cons i rest ih =>
    apply returns_andThen
    intro gap
    apply (hmake i (arrival + gap)).bind
    intro first hfirst
    apply (ih (arrival + gap)).bind
    intro others hothers
    exact returns_pure (List.forall_mem_cons.mpr ⟨hfirst, hothers⟩)

theorem returns_kind_classRequests (numSessions turns : ℤ) (qps : K) (params : MixedParams K)
    (kind : Kind) (fraction : K) :
    Returns (classRequests env numSessions turns qps params kind fraction)
      fun requests => ∀ r ∈ requests, r.kind = kind := by
  cases kind with
  | tool =>
    apply (Gen.returns_withSeed (returns_kind_sessions _ _ turns _ 0)).bind
    intro requests hrequests
    apply returns_pure
    intro r hr
    exact hrequests r (List.mem_mergeSort.mp hr)
  | rag =>
    apply Gen.returns_withSeed (returns_kind_arrivals (fun i arrival => ?_) _ _ _ 0)
    apply returns_andThen
    intro doc
    apply returns_andThen
    intro ids
    apply returns_andThen
    intro blocks
    apply returns_andThen
    intro genTokens
    exact returns_pure rfl
  | oneshot =>
    apply Gen.returns_withSeed (returns_kind_arrivals (fun i arrival => ?_) _ _ _ 0)
    apply returns_andThen
    intro tokens
    apply returns_andThen
    intro blocks
    apply returns_andThen
    intro genTokens
    exact returns_pure rfl

/-- A class's stream, as far as the class has a part in the mix. -/
def classPart (env : Surroundings K) (numSessions turns : ℤ) (qps : K) (params : MixedParams K)
    (kind : Kind) : StateT Vocab (Except WorkloadError) (List (GeneratedTurn K)) :=
  ifAny (params.fraction kind)
    (classRequests env numSessions turns qps params kind (params.fraction kind))

section Mixed

variable {numSessions turns : ℤ} {qps : K} {params : MixedParams K}

theorem tracks_classPart (kind : Kind) :
    Tracks (fun _ _ : Vocab => True) (classPart env numSessions turns qps params kind)
      (classPart env numSessions turns qps params kind) (List.Forall₂ GeneratedTurn.Same) := by
  unfold classPart ifAny
  split_ifs
  · exact tracks_classRequests numSessions turns qps params kind _
  · exact tracks_pure .nil

theorem returns_kind_classPart (kind : Kind) :
    Returns (classPart env numSessions turns qps params kind)
      fun requests => ∀ r ∈ requests, r.kind = kind := by
  unfold classPart ifAny
  split_ifs
  · exact returns_kind_classRequests numSessions turns qps params kind _
  · exact returns_pure (List.forall_mem_nil _)

/-- A mixed stream is its three parts, generated one after the other and sorted. -/
theorem generateMixed_eq_ok {vocab vocab' : Vocab} {requests : List (GeneratedTurn K)}
    (h : generateMixed env numSessions turns qps params vocab = .ok (requests, vocab')) :
    ∃ tool rag oneshots vocab₁ vocab₂,
      classPart env numSessions turns qps params .tool vocab = .ok (tool, vocab₁) ∧
      classPart env numSessions turns qps params .rag vocab₁ = .ok (rag, vocab₂) ∧
      classPart env numSessions turns qps params .oneshot vocab₂ = .ok (oneshots, vocab') ∧
      requests = (tool ++ rag ++ oneshots).mergeSort GeneratedTurn.before := by
  obtain ⟨⟨_, vocab₀⟩, hcheck, h⟩ := bind_eq_ok.mp h
  obtain ⟨⟨tool, vocab₁⟩, htool, h⟩ := bind_eq_ok.mp h
  obtain ⟨⟨rag, vocab₂⟩, hrag, h⟩ := bind_eq_ok.mp h
  obtain ⟨⟨oneshots, vocab₃⟩, honeshots, h⟩ := bind_eq_ok.mp h
  obtain ⟨rfl, rfl⟩ := Prod.mk.inj (Except.ok.inj h)
  have hsame : vocab = vocab₀ := by
    unfold checkMix at hcheck
    split_ifs at hcheck
    · exact (Prod.mk.inj (Except.ok.inj hcheck)).2
    · cases hcheck
  rw [← hsame] at htool
  exact ⟨tool, rag, oneshots, vocab₁, vocab₂, htool, hrag, honeshots, rfl⟩

theorem Kind.className_injective : Function.Injective Kind.className := by
  intro kind kind' h
  cases kind <;> cases kind' <;> first | rfl | exact absurd h (by decide)

theorem MixedParams.mixture_only (kind : Kind) : (params.only kind).mixture =
    (∅ : Dict String K).insert kind.className (params.fraction kind) := by
  have hkeys : ((∅ : Dict String K).insert kind.className (params.fraction kind)).keys ≠ [] :=
    List.cons_ne_nil _ _
  unfold mixture only
  exact if_neg hkeys

theorem MixedParams.fraction_only (kind kind' : Kind) :
    (params.only kind).fraction kind' = if kind' = kind then params.fraction kind else 0 := by
  rw [fraction, mixture_only]
  split_ifs with hkind
  · rw [hkind, AList.lookup_insert]
    rfl
  · rw [AList.lookup_insert_ne fun hname => hkind (Kind.className_injective hname)]
    rfl

theorem classPart_only (kind kind' : Kind) :
    classPart env numSessions turns qps (params.only kind) kind' =
      if kind' = kind then classPart env numSessions turns qps params kind else pure [] := by
  unfold classPart
  rw [MixedParams.fraction_only]
  split_ifs with hkind
  · rw [hkind]
    cases kind <;> rfl
  · exact if_neg (lt_irrefl 0)

theorem generateMixed_only (kind : Kind) (vocab : Vocab) :
    generateMixed env numSessions turns qps (params.only kind) vocab =
      (classPart env numSessions turns qps params kind vocab).map
        fun part => (part.1.mergeSort GeneratedTurn.before, part.2) := by
  have hcheck : checkMix (params.only kind).mixture = pure () := by
    rw [MixedParams.mixture_only]
    unfold checkMix
    rw [AList.keys_insert]
    cases kind <;> rfl
  change (do
    checkMix (params.only kind).mixture
    let tool ← classPart env numSessions turns qps (params.only kind) .tool
    let rag ← classPart env numSessions turns qps (params.only kind) .rag
    let oneshots ← classPart env numSessions turns qps (params.only kind) .oneshot
    return (tool ++ rag ++ oneshots).mergeSort GeneratedTurn.before :
      StateT Vocab (Except WorkloadError) _) vocab = _
  have hsorted : ∀ part : StateT Vocab (Except WorkloadError) (List (GeneratedTurn K)),
      (part >>= fun requests => pure (requests.mergeSort GeneratedTurn.before)) vocab =
        (part vocab).map fun part => (part.1.mergeSort GeneratedTurn.before, part.2) := by
    intro part
    change (part vocab >>= _) = _
    cases part vocab <;> rfl
  rw [hcheck, pure_bind, classPart_only, classPart_only, classPart_only, ← hsorted]
  cases kind with
  | tool =>
    rw [if_pos rfl, if_neg (by decide), if_neg (by decide)]
    simp only [pure_bind, List.append_nil]
  | rag =>
    rw [if_pos rfl, if_neg (by decide), if_neg (by decide)]
    simp only [pure_bind, List.append_nil, List.nil_append]
  | oneshot =>
    rw [if_pos rfl, if_neg (by decide), if_neg (by decide)]
    simp only [pure_bind, List.append_nil, List.nil_append]

omit [Scalar K] in
theorem filter_kind {part : List (GeneratedTurn K)} {own : Kind}
    (h : ∀ r ∈ part, r.kind = own) (kind : Kind) :
    (part.filter fun r => r.kind = kind) = if own = kind then part else [] := by
  split_ifs with hown
  · exact List.filter_eq_self.mpr fun r hr => decide_eq_true ((h r hr).trans hown)
  · refine List.filter_eq_nil_iff.mpr fun r hr hkind => hown ?_
    exact (h r hr).symm.trans (of_decide_eq_true hkind)

/-- Taken out of a mixed stream, a class is the stream that it would be alone in the
mix, over any vocabulary, up to the ids of the words and with them the hashes: its
turns, times and messages do not depend on the other classes. The tool sessions, which
come first, are the same in every way over the same vocabulary. -/
theorem class_streams_independent {vocab vocab' : Vocab} {requests : List (GeneratedTurn K)}
    (hrun : generateMixed env numSessions turns qps params vocab = .ok (requests, vocab')) :
    (∀ kind other, ∃ alone after,
      generateMixed env numSessions turns qps (params.only kind) other = .ok (alone, after) ∧
        List.Forall₂ GeneratedTurn.Same (requests.filter fun r => r.kind = kind) alone) ∧
    ∃ after, generateMixed env numSessions turns qps (params.only .tool) vocab =
      .ok (requests.filter (fun r => r.kind = .tool), after) := by
  obtain ⟨tool, rag, oneshots, vocab₁, vocab₂, htool, hrag, honeshots, rfl⟩ :=
    generateMixed_eq_ok hrun
  have hfilter : ∀ kind, ((tool ++ rag ++ oneshots).mergeSort GeneratedTurn.before).filter
      (fun r => r.kind = kind) = ((if Kind.tool = kind then tool else []) ++
        (if Kind.rag = kind then rag else []) ++
        if Kind.oneshot = kind then oneshots else []).mergeSort GeneratedTurn.before := by
    intro kind
    rw [StableSort.filter_mergeSort_comm GeneratedTurn.before_iff, List.filter_append,
      List.filter_append, filter_kind ((returns_kind_classPart .tool).of_run htool),
      filter_kind ((returns_kind_classPart .rag).of_run hrag),
      filter_kind ((returns_kind_classPart .oneshot).of_run honeshots)]
  have halone : ∀ kind before part after other,
      classPart env numSessions turns qps params kind before = .ok (part, after) →
      ∃ alone after', generateMixed env numSessions turns qps (params.only kind) other =
          .ok (alone, after') ∧
        List.Forall₂ GeneratedTurn.Same (part.mergeSort GeneratedTurn.before) alone := by
    intro kind before part after other hpart
    have htracks : Related _ (classPart env numSessions turns qps params kind before)
        (classPart env numSessions turns qps params kind other) :=
      (tracks_classPart kind).of_run True.intro
    rw [hpart] at htracks
    obtain ⟨⟨part', after'⟩, hpart', hsame, -⟩ := htracks.exists_of_ok
    refine ⟨part'.mergeSort GeneratedTurn.before, after', ?_, ?_⟩
    · rw [generateMixed_only, hpart']
      rfl
    · exact Couple.forall₂_mergeSort (fun h h' => h.before_eq h') hsame
  constructor
  · intro kind other
    rw [hfilter]
    cases kind with
    | tool => simpa using halone .tool _ _ _ other htool
    | rag => simpa using halone .rag _ _ _ other hrag
    | oneshot => simpa using halone .oneshot _ _ _ other honeshots
  · refine ⟨vocab₁, ?_⟩
    rw [hfilter, generateMixed_only, htool]
    simp [Except.map]

/-- In two turns of a session, a query and a one-shot, each class is as it would
be alone. -/
theorem class_streams_independent_four :
    let params : MixedParams ℚ := { mix := some (AList.insert "tool" (1 / 2)
      (AList.insert "rag" (1 / 4) (AList.insert "oneshot" (1 / 4) ∅))) }
    ∃ requests vocab, requests.length = 4 ∧
      generateMixed unvaried 2 2 1 params (importedVocab unvaried) = .ok (requests, vocab) ∧
      ∃ alone after, generateMixed unvaried 2 2 1 (params.only .rag) ∅ = .ok (alone, after) ∧
        List.Forall₂ GeneratedTurn.Same (requests.filter fun r => r.kind = .rag) alone := by
  intro params
  have hreturns : (generateMixed unvaried 2 2 1 params
      (importedVocab unvaried)).toOption.isSome = true := by decide +kernel
  obtain ⟨⟨requests, vocab⟩, hrun⟩ := exists_eq_ok hreturns
  refine ⟨requests, vocab, ?_, hrun, (class_streams_independent hrun).1 .rag ∅⟩
  exact ((returns_length_generateMixed 2 2 1 params).of_run hrun).trans (by decide +kernel)

theorem returns_sorted_generateSessions (numSessions turns : ℤ) (qps : K)
    (params : SessionParams K) :
    Returns (generateSessions env numSessions turns qps params)
      fun requests => requests.mergeSort GeneratedTurn.before = requests := by
  apply returns_andThen
  intro requests
  apply returns_pure
  apply List.mergeSort_of_pairwise
  exact (StableSort.pairwise_mergeSort GeneratedTurn.before_iff requests).imp
    fun h => (GeneratedTurn.before_iff _ _).mpr h

/-- A mix of tool sessions alone, which is also the mix when none is given, makes the
stream that `generate_sessions` makes, for all arguments and draws, and fails where it
does. -/
theorem tool_mix_is_sessions (params : MixedParams K) (numSessions turns : ℤ) (qps : K) :
    generateMixed env numSessions turns qps { params with mix := none } =
        generateSessions env numSessions turns qps params.toSessionParams ∧
      generateMixed env numSessions turns qps { params with mix := some ∅ } =
        generateSessions env numSessions turns qps params.toSessionParams ∧
      generateMixed env numSessions turns qps
          { params with mix := some ((∅ : Dict String K).insert "tool" 1) } =
        generateSessions env numSessions turns qps params.toSessionParams := by
  have hsessions : ∀ params' : MixedParams K,
      params'.toSessionParams = params.toSessionParams →
      params'.mixture = (∅ : Dict String K).insert "tool" 1 →
      generateMixed env numSessions turns qps params' =
        generateSessions env numSessions turns qps params.toSessionParams := by
    intro params' hparams hmixture
    funext vocab
    have honly : generateMixed env numSessions turns qps params' =
        generateMixed env numSessions turns qps (params'.only .tool) := by
      have hsame : (params'.only .tool).mixture = params'.mixture := by
        rw [MixedParams.mixture_only, MixedParams.fraction, hmixture]
        rfl
      unfold generateMixed
      rw [hsame]
      rfl
    have hpart : classPart env numSessions turns qps params' .tool =
        generateSessions env numSessions turns qps params.toSessionParams := by
      have hone : params'.fraction .tool = 1 := by
        rw [MixedParams.fraction, hmixture]
        rfl
      have hshare : share numSessions (1 : K) = numSessions := by
        rw [share, mul_one, Scalar.roundHalfEven_intCast]
      unfold classPart classRequests
      rw [hone]
      dsimp only
      rw [hshare, mul_one, hparams]
      exact if_pos zero_lt_one
    rw [honly, generateMixed_only, hpart]
    cases hstream : generateSessions env numSessions turns qps params.toSessionParams vocab with
    | error e => rfl
    | ok stream =>
      have hsorted := (returns_sorted_generateSessions numSessions turns qps
        params.toSessionParams).of_run hstream
      change Except.ok (stream.1.mergeSort GeneratedTurn.before, stream.2) = _
      rw [hsorted]
  exact ⟨hsessions _ rfl rfl, hsessions _ rfl rfl, hsessions _ rfl rfl⟩

end Mixed

end SchedLm.Sim
