import SchedLm.Sim.RequestCounts
import SchedLm.Sim.Vocabulary

/-!
A generated request says the same in both its forms. Tokens and messages are
grown side by side through different code; under the vocabulary of the time, and
every later one, the tokens are the ids of the words of the messages.
-/

namespace SchedLm.Sim

open Runs Vocab

variable {K : Type} {env : Surroundings K}

def promptWords (messages : List ChatMessage) : List (List Char) :=
  messages.flatMap fun m => splitWords m.content

theorem promptWords_append (messages messages' : List ChatMessage) :
    promptWords (messages ++ messages') = promptWords messages ++ promptWords messages' :=
  List.flatMap_append

/-- The tokens of a request are the ids of the words of its messages, and its
blocks are those of its tokens. -/
structure FormsAgree (env : Surroundings K) (vocab : Vocab) (blockSize : ℤ)
    (r : GeneratedTurn K) : Prop where
  tokens : Spells vocab r.tokens (promptWords r.messages)
  blocks : r.blockHashes = hashBlocks env.hash r.tokens blockSize.toNat

def History.Spelled (vocab : Vocab) (s : History K) : Prop :=
  Spells vocab s.tokens (promptWords s.messages)

section Steps

theorem settles_choice {α : Type} (xs : List α) :
    Settles Draws.vocab (Gen.choice xs : Gen env α) fun _ _ => True := by
  cases xs with
  | nil => exact settles_throw _ _
  | cons first rest => exact (Gen.settles_draw _).andThen fun _ => settles_pure fun _ => trivial

theorem settles_weightedChoice {α : Type} (xs : List α) (weights : List K) :
    Settles Draws.vocab (Gen.weightedChoice xs weights : Gen env α) fun _ _ => True := by
  cases weights with
  | nil => exact settles_throw _ _
  | cons first rest =>
    apply (Gen.settles_draw _).andThen
    intro i
    cases hx : xs[i.val]? with
    | none => exact settles_throw _ _
    | some x => exact settles_pure fun _ => trivial

theorem settles_blocks (tokens : List Token) (blockSize : ℤ) :
    Settles Draws.vocab (Gen.blocks tokens blockSize : Gen env (List BlockHash))
      fun blockHashes _ => blockHashes = hashBlocks env.hash tokens blockSize.toNat := by
  unfold Gen.blocks
  split_ifs
  · exact settles_throw _ _
  · exact settles_pure fun _ => rfl

end Steps

variable [Scalar K]

theorem settles_arrivalGap (rate burstCv : K) :
    Settles Draws.vocab (arrivalGap rate burstCv : Gen env K) fun _ _ => True := by
  unfold arrivalGap
  dsimp only
  split_ifs
  · exact Gen.settles_draw _
  · exact settles_throw _ _
  · exact settles_throw _ _
  · exact Gen.settles_draw _

theorem settles_genTokensDraw (genTokensMean : ℤ) :
    Settles Draws.vocab (genTokensDraw genTokensMean : Gen env ℤ) fun _ _ => True :=
  (Gen.settles_draw _).andThen fun _ => settles_pure fun _ => trivial

theorem settles_successResult (deterministicToolProb : K) (tag : String) (n : ℤ) :
    Settles Draws.vocab (successResult deterministicToolProb tag n : Gen env String)
      fun _ _ => True := by
  apply (Gen.settles_draw _).andThen
  intro u
  split_ifs
  · exact settles_choice _
  · exact settles_pure fun _ => trivial

theorem settles_callTool (params : SessionParams K) (tool : Option (Tool K)) (sid turnIdx : ℕ)
    (arrival : K) :
    Settles Draws.vocab (callTool params tool sid turnIdx arrival : Gen env _)
      fun _ _ => True := by
  cases tool with
  | none => exact (settles_successResult _ _ _).andThen fun _ => settles_pure fun _ => trivial
  | some tool =>
    apply (Gen.settles_draw _).andThen
    intro u
    split_ifs
    · exact settles_pure fun _ => trivial
    · exact (settles_successResult _ _ _).andThen fun _ => settles_pure fun _ => trivial

theorem settles_sessionTool (params : SessionParams K) :
    Settles Draws.vocab (sessionTool params : Gen env (Option (Tool K))) fun _ _ => True := by
  unfold sessionTool
  split_ifs
  · exact (settles_choice _).map
  · exact settles_pure fun _ => trivial

/-- The messages a turn adds hold the words of its segment. -/
theorem promptWords_turnMessages (sid turnIdx : ℕ) (toolName : Option String)
    (assistant toolResult nextUser : String) :
    promptWords (turnMessages sid turnIdx toolName assistant toolResult nextUser) =
      splitWords (assistant ++ " " ++ toolResult ++ " " ++ nextUser) := by
  rw [splitWords_append_space, splitWords_append_space, List.append_assoc]
  simp [promptWords, turnMessages]

theorem settles_startTurn (params : SessionParams K) (tool : Option (Tool K)) (sid turnIdx : ℕ)
    (s : History K) :
    Settles Draws.vocab (startTurn params tool sid turnIdx s : Gen env _)
      fun started vocab => s.Spelled vocab → started.2.Spelled vocab := by
  unfold startTurn
  split_ifs
  · apply (settles_callTool params tool sid turnIdx s.arrival).andThen
    rintro ⟨toolName, toolResult, arrival⟩
    apply (Gen.settles_ids _).bind
    intro ids
    apply settles_pure
    intro vocab hids hs
    unfold History.Spelled
    dsimp only
    rw [promptWords_append, promptWords_turnMessages]
    exact hs.append hids
  · exact settles_pure fun _ h => h

theorem settles_sessionTurn (params : SessionParams K) (tool : Option (Tool K)) (sid turnIdx : ℕ)
    (s : History K) :
    Settles Draws.vocab (sessionTurn params tool sid turnIdx s : Gen env _)
      fun next vocab => s.Spelled vocab →
        FormsAgree env vocab params.blockSize next.1 ∧ next.2.Spelled vocab := by
  apply (settles_startTurn params tool sid turnIdx s).bind
  rintro ⟨toolName, s'⟩
  apply (settles_genTokensDraw params.genTokensMean).andThen
  intro genTokens
  apply (settles_blocks s'.tokens params.blockSize).bind
  intro blockHashes
  apply settles_pure
  intro vocab hblocks hstarted hs
  exact ⟨⟨hstarted hs, hblocks⟩, hstarted hs⟩

theorem settles_sessionTurns (params : SessionParams K) (tool : Option (Tool K)) (sid : ℕ)
    (indices : List ℕ) (s : History K) :
    Settles Draws.vocab (sessionTurns params tool sid indices s : Gen env _)
      fun turns vocab => s.Spelled vocab →
        ∀ r ∈ turns, FormsAgree env vocab params.blockSize r := by
  induction indices generalizing s with
  | nil => exact settles_pure fun _ _ r hr => (nomatch hr)
  | cons turnIdx rest ih =>
    apply (settles_sessionTurn params tool sid turnIdx s).bind
    rintro ⟨turn, s'⟩
    apply (ih s').bind
    intro turns
    apply settles_pure
    intro vocab hrest hfirst hs
    obtain ⟨hturn, hs'⟩ := hfirst hs
    exact List.forall_mem_cons.mpr ⟨hturn, hrest hs'⟩

omit [Scalar K] in
/-- The shared prompt and a user message, as tokens and as messages. -/
theorem spells_opening {vocab : Vocab} (hlater : importedVocab env ≤ vocab) {user : String}
    {ids : List Token} (hids : Spells vocab ids (splitWords user)) :
    Spells vocab (systemTokens env ++ ids)
      (promptWords [{ role := "system", content := env.systemPrompt },
        { role := "user", content := user }]) := by
  have hwords : promptWords [{ role := "system", content := env.systemPrompt },
      { role := "user", content := user }] = splitWords env.systemPrompt ++ splitWords user := by
    simp [promptWords]
  rw [hwords]
  exact (spells_systemTokens env hlater).append hids

/-- Every request in a list says the same in both forms, once the module has been
imported. -/
def AllAgree (env : Surroundings K) (blockSize : ℤ) (requests : List (GeneratedTurn K))
    (vocab : Vocab) : Prop :=
  importedVocab env ≤ vocab → ∀ r ∈ requests, FormsAgree env vocab blockSize r

omit [Scalar K] in
theorem AllAgree.append {blockSize : ℤ} {requests requests' : List (GeneratedTurn K)}
    {vocab : Vocab} (h : AllAgree env blockSize requests vocab)
    (h' : AllAgree env blockSize requests' vocab) :
    AllAgree env blockSize (requests ++ requests') vocab :=
  fun hlater => List.forall_mem_append.mpr ⟨h hlater, h' hlater⟩

theorem settles_session (params : SessionParams K) (sid : ℕ) (turns : ℤ) (start : K) :
    Settles Draws.vocab (session params sid turns start : Gen env _)
      (AllAgree env params.blockSize) := by
  apply (settles_choice userPrompts).andThen
  intro user0
  apply (settles_sessionTool params).andThen
  intro tool
  apply (Gen.settles_ids user0).bind
  intro ids
  apply (settles_sessionTurns params tool sid _ _).weaken
  intro requests vocab hrequests hids hlater
  exact hrequests (spells_opening hlater hids)

theorem settles_sessions (params : SessionParams K) (sessionRate : K) (turns : ℤ) (sids : List ℕ)
    (start : K) :
    Settles Draws.vocab (sessions params sessionRate turns sids start : Gen env _)
      (AllAgree env params.blockSize) := by
  induction sids generalizing start with
  | nil => exact settles_pure fun _ _ r hr => (nomatch hr)
  | cons sid rest ih =>
    apply (settles_arrivalGap sessionRate params.burstCv).andThen
    intro gap
    apply (settles_session params sid turns (start + gap)).bind
    intro first
    apply (ih (start + gap)).bind
    intro others
    exact settles_pure fun _ hothers hfirst => hfirst.append hothers

variable {params : MixedParams K}

theorem settles_ragQuery (docTexts : List String) (weights : List K) (i : ℕ) (arrival : K) :
    Settles Draws.vocab (ragQuery params docTexts weights i arrival : Gen env _)
      fun r => AllAgree env params.blockSize [r] := by
  apply (settles_weightedChoice docTexts weights).andThen
  intro doc
  apply (Gen.settles_ids _).bind
  intro ids
  apply (settles_blocks _ params.blockSize).bind
  intro blockHashes
  apply (settles_genTokensDraw params.genTokensMean).andThen
  intro genTokens
  apply settles_pure
  intro vocab hblocks hids hlater
  exact List.forall_mem_singleton.mpr ⟨spells_opening hlater hids, hblocks⟩

theorem settles_oneshot (i : ℕ) (arrival : K) :
    Settles Draws.vocab (oneshot params i arrival : Gen env _)
      fun r => AllAgree env params.blockSize [r] := by
  apply (Gen.settles_ids _).bind
  intro ids
  apply (settles_blocks _ params.blockSize).bind
  intro blockHashes
  apply (settles_genTokensDraw params.genTokensMean).andThen
  intro genTokens
  apply settles_pure
  intro vocab hblocks hids _
  refine List.forall_mem_singleton.mpr ⟨?_, hblocks⟩
  simpa [promptWords] using hids

theorem settles_arrivals {make : ℕ → K → Gen env (GeneratedTurn K)} {blockSize : ℤ}
    (hmake : ∀ i arrival, Settles Draws.vocab (make i arrival)
      fun r => AllAgree env blockSize [r]) (rate burstCv : K) (indices : List ℕ) (arrival : K) :
    Settles Draws.vocab (arrivals rate burstCv make indices arrival)
      (AllAgree env blockSize) := by
  induction indices generalizing arrival with
  | nil => exact settles_pure fun _ _ r hr => (nomatch hr)
  | cons i rest ih =>
    apply (settles_arrivalGap rate burstCv).andThen
    intro gap
    apply (hmake i (arrival + gap)).bind
    intro first
    apply (ih (arrival + gap)).bind
    intro others
    exact settles_pure fun _ hothers hfirst => hfirst.append hothers

theorem settles_ifAny {fraction : K}
    {requests : StateT Vocab (Except WorkloadError) (List (GeneratedTurn K))} {blockSize : ℤ}
    (h : Settles id requests (AllAgree env blockSize)) :
    Settles id (ifAny fraction requests) (AllAgree env blockSize) := by
  unfold ifAny
  split_ifs
  · exact h
  · exact settles_pure fun _ _ r hr => (nomatch hr)

/-- Every request of a generated stream says the same in both forms, under the
vocabulary it was made with and under every later one. -/
theorem settles_generateMixed (numSessions turns : ℤ) (qps : K) :
    Settles id (generateMixed env numSessions turns qps params)
      (AllAgree env params.blockSize) := by
  have hsorted : ∀ {requests : List (GeneratedTurn K)} {vocab : Vocab},
      AllAgree env params.blockSize requests vocab →
        AllAgree env params.blockSize (requests.mergeSort GeneratedTurn.before) vocab :=
    fun h hlater r hr => h hlater r (List.mem_mergeSort.mp hr)
  have hcheck : Settles id (checkMix params.mixture) fun _ _ => True := by
    unfold checkMix
    dsimp only
    split_ifs
    · exact settles_pure fun _ => trivial
    · exact settles_throw _ _
  have hsessions : ∀ n rate, Settles id (generateSessions env n turns rate params.toSessionParams)
      (AllAgree env params.blockSize) := by
    intro n rate
    apply (Gen.settles_withSeed (settles_sessions params.toSessionParams _ turns _ 0)).bind
    intro requests
    exact settles_pure fun _ h => hsorted h
  apply hcheck.andThen
  intro _
  apply (settles_ifAny (hsessions _ _)).bind
  intro tool
  apply (settles_ifAny (Gen.settles_withSeed
    (settles_arrivals (settles_ragQuery _ _) _ _ _ 0))).bind
  intro rag
  apply (settles_ifAny (Gen.settles_withSeed (settles_arrivals settles_oneshot _ _ _ 0))).bind
  intro oneshots
  apply settles_pure
  intro vocab honeshots hrag htool
  exact hsorted ((htool.append hrag).append honeshots)

/-- A call of `generateMixed` that has returned, and the vocabulary it left. -/
structure MixedCall (K : Type) [Scalar K] where
  params : MixedParams K
  requests : List (GeneratedTurn K)
  vocab : Vocab

/-- The calls of a process so far, and the vocabulary it has come to. A call that
raises leaves the words numbered that it had got to, whichever they are. -/
inductive Process (env : Surroundings K) : List (MixedCall K) → Vocab → Prop where
  | imported : Process env [] (importedVocab env)
  | returned {calls : List (MixedCall K)} {vocab vocab' : Vocab} (before : Process env calls vocab)
      (numSessions turns : ℤ) (qps : K) (params : MixedParams K)
      {requests : List (GeneratedTurn K)}
      (hrun : generateMixed env numSessions turns qps params vocab = .ok (requests, vocab')) :
      Process env (calls ++ [{ params, requests, vocab := vocab' }]) vocab'
  | raised {calls : List (MixedCall K)} {vocab : Vocab} (before : Process env calls vocab)
      (words : List (List Char)) : Process env calls (tokenizeWords vocab words).2

omit [Scalar K] in
theorem FormsAgree.later {vocab vocab' : Vocab} {blockSize : ℤ} {r : GeneratedTurn K}
    (h : FormsAgree env vocab blockSize r) (hle : vocab ≤ vocab') :
    FormsAgree env vocab' blockSize r :=
  ⟨h.tokens.later hle, h.blocks⟩

theorem Process.importedVocab_le {calls : List (MixedCall K)} {vocab : Vocab}
    (h : Process env calls vocab) : importedVocab env ≤ vocab := by
  induction h with
  | imported => exact le_rfl
  | returned _ numSessions turns qps params hrun ih =>
    exact ih.trans ((settles_generateMixed numSessions turns qps).of_run hrun).1
  | raised _ words ih => exact ih.trans (tokenizeWords_spec _ words).1

/-- Whatever a process has generated, in any number of calls of which any may have
raised, its vocabulary has one word for each id and every id that any call has left; and
under it the two forms of every request, messages and tokens, say the same, and its
blocks are the hashes of its tokens. -/
theorem process_forms_agree {calls : List (MixedCall K)} {vocab : Vocab}
    (h : Process env calls vocab) :
    (∀ word word' tid, vocab.lookup word = some tid → vocab.lookup word' = some tid →
      word = word') ∧
    ∀ call ∈ calls,
      (∀ word tid, call.vocab.lookup word = some tid → vocab.lookup word = some tid) ∧
      ∀ r ∈ call.requests, FormsAgree env vocab call.params.blockSize r := by
  have hnumbered : vocab.Numbered := h.importedVocab_le.numbered (numbered_importedVocab env)
  refine ⟨fun _ _ _ h h' => hnumbered.injective h h', ?_⟩
  have hcalls : ∀ call ∈ calls, call.vocab ≤ vocab ∧
      ∀ r ∈ call.requests, FormsAgree env vocab call.params.blockSize r := by
    clear hnumbered
    induction h with
    | imported => exact fun call hcall => (nomatch hcall)
    | returned before numSessions turns qps params hrun ih =>
      obtain ⟨hgrows, hagree⟩ := (settles_generateMixed numSessions turns qps).of_run hrun
      refine List.forall_mem_append.mpr ⟨fun call hcall => ?_, List.forall_mem_singleton.mpr ?_⟩
      · obtain ⟨hle, hforms⟩ := ih call hcall
        exact ⟨hle.trans hgrows, fun r hr => (hforms r hr).later hgrows⟩
      · exact ⟨le_rfl, hagree _ le_rfl (before.importedVocab_le.trans hgrows)⟩
    | @raised calls vocab before words ih =>
      have hgrows := (tokenizeWords_spec vocab words).1
      intro call hcall
      obtain ⟨hle, hforms⟩ := ih call hcall
      exact ⟨hle.trans hgrows, fun r hr => (hforms r hr).later hgrows⟩
  exact fun call hcall => ⟨fun _ _ h => (hcalls call hcall).1.keeps h, (hcalls call hcall).2⟩

/-- A call that returns with a session, a query and a one-shot, and one that
raises after it. -/
theorem process_forms_agree_two :
    let params : MixedParams ℚ := { mix := some (AList.insert "tool" (1 / 2)
      (AList.insert "rag" (1 / 4) (AList.insert "oneshot" (1 / 4) ∅))) }
    let further : List (List Char) := [['o', 'n', 'e', '_', '9', '_', 'w', '0']]
    ∃ requests vocab, requests.length = 4 ∧
      generateMixed unvaried 2 2 1 params (importedVocab unvaried) = .ok (requests, vocab) ∧
      ∀ r ∈ requests, FormsAgree unvaried (tokenizeWords vocab further).2 16 r := by
  intro params further
  have hreturns : (generateMixed unvaried 2 2 1 params
      (importedVocab unvaried)).toOption.isSome = true := by decide +kernel
  obtain ⟨⟨requests, vocab⟩, hrun⟩ := exists_eq_ok hreturns
  have hprocess : Process unvaried [{ params, requests, vocab }]
      (tokenizeWords vocab further).2 := .raised (.returned .imported 2 2 1 params hrun) further
  have hcount := (returns_length_generateMixed 2 2 1 params).of_run hrun
  obtain ⟨-, hcalls⟩ := process_forms_agree hprocess
  refine ⟨requests, vocab, hcount.trans ?_, hrun, (hcalls _ List.mem_cons_self).2⟩
  decide +kernel

end SchedLm.Sim
