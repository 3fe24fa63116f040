import SchedLm.Library.Returns
import SchedLm.Sim.Generator

/-!
What the generated turns look like, whatever is drawn: a session opener, a tool
turn past it, a retrieval query or a one-shot.
-/

namespace SchedLm.Sim

open Runs

namespace Gen

variable {K : Type} {env : Surroundings K}

theorem returns_choice {α : Type} (xs : List α) :
    Returns (Gen.choice xs : Gen env α) fun x => x ∈ xs := by
  cases xs with
  | nil => exact returns_throw _ _
  | cons first rest =>
    apply returns_andThen
    intro i
    exact returns_pure (List.get_mem (first :: rest) i)

theorem returns_weightedChoice {α : Type} (xs : List α) (weights : List K) :
    Returns (Gen.weightedChoice xs weights : Gen env α) fun x => x ∈ xs := by
  cases weights with
  | nil => exact returns_throw _ _
  | cons first rest =>
    apply returns_andThen
    intro i
    cases hx : xs[i.val]? with
    | none => exact returns_throw _ _
    | some x => exact returns_pure (List.mem_of_getElem? hx)

/-- A seed of its own does not matter for what holds of every draw. -/
theorem returns_withSeed {α : Type} {seed : Seed} {x : Gen env α} {post : α → Prop}
    (h : Returns x post) : Returns (Gen.withSeed seed x) post := by
  constructor
  intro vocab a vocab' hrun
  obtain ⟨⟨value, s⟩, hx, hvalue⟩ := bind_eq_ok.mp hrun
  obtain ⟨rfl, -⟩ := Prod.mk.inj (Except.ok.inj hvalue)
  exact h.of_run hx

end Gen

variable {K : Type} [Scalar K] {env : Surroundings K}

def openingMessages (env : Surroundings K) (user0 : String) : List ChatMessage :=
  [{ role := "system", content := env.systemPrompt }, { role := "user", content := user0 }]

def queryText (params : MixedParams K) (d i : ℕ) : String :=
  uniqueWords s!"rag_d{d}" params.ragDocTokens ++ " " ++
    uniqueWords s!"rag_q{i}" params.ragQuestionTokens

inductive Shape (env : Surroundings K) (params : MixedParams K) (r : GeneratedTurn K) : Prop where
  | opener (hkind : r.kind = .tool) (hname : r.toolName = none) (user0 : String)
      (huser : user0 ∈ userPrompts) (hmessages : r.messages = openingMessages env user0)
  | toolTurn (hkind : r.kind = .tool) (before : List ChatMessage) (sid turnIdx : ℕ)
      (assistant toolResult nextUser : String)
      (hmessages : r.messages =
        before ++ turnMessages sid turnIdx r.toolName assistant toolResult nextUser)
      (hname : ∀ name, r.toolName = some name →
        ∃ tool ∈ params.tools.getD defaultTools, tool.name = name)
      (hnone : r.toolName = none → ∀ m ∈ r.messages, m.toolCalls = [])
  | query (hkind : r.kind = .rag) (hname : r.toolName = none) (d i : ℕ)
      (hmessages : r.messages = openingMessages env (queryText params d i))
  | oneshot (hkind : r.kind = .oneshot) (hname : r.toolName = none) (text : String)
      (hmessages : r.messages = [{ role := "user", content := text }])

section Sessions

variable {params : MixedParams K} {tool : Option (Tool K)} {sid : ℕ}

theorem returns_callTool (turnIdx : ℕ) (arrival : K) :
    Returns (callTool params.toSessionParams tool sid turnIdx arrival : Gen env _)
      fun called => called.1 = tool.map Tool.name := by
  cases tool with
  | none => exact returns_andThen fun _ => returns_pure rfl
  | some tool =>
    apply returns_andThen
    intro u
    split_ifs
    · exact returns_pure rfl
    · exact returns_andThen fun _ => returns_pure rfl

theorem returns_extendHistory (turnIdx : ℕ) (s : History K) :
    Returns (extendHistory params.toSessionParams tool sid turnIdx s : Gen env _)
      fun extended => extended.1 = tool.map Tool.name ∧ ∃ assistant toolResult nextUser,
        extended.2.messages =
          s.messages ++ turnMessages sid turnIdx extended.1 assistant toolResult nextUser := by
  apply (returns_callTool turnIdx s.arrival).bind
  intro called hname
  exact returns_andThen fun _ => returns_pure ⟨hname, _, _, _, rfl⟩

/-- A session's tool is of the catalogue, and without one no message has calls. -/
structure Session (params : MixedParams K) (tool : Option (Tool K)) (s : History K) : Prop where
  catalogue : ∀ t, tool = some t → t ∈ params.tools.getD defaultTools
  noCalls : tool = none → ∀ m ∈ s.messages, m.toolCalls = []

theorem returns_sessionTurn {turnIdx : ℕ} {s : History K} (hs : Session params tool s)
    (hstart : turnIdx = 0 → ∃ user0 ∈ userPrompts, s.messages = openingMessages env user0) :
    Returns (sessionTurn params.toSessionParams tool sid turnIdx s : Gen env _)
      fun next => Shape env params next.1 ∧ Session params tool next.2 := by
  have hstarted : Returns (startTurn params.toSessionParams tool sid turnIdx s : Gen env _)
      fun extended => Session params tool extended.2 ∧ ∀ r : GeneratedTurn K, r.kind = .tool →
        r.toolName = extended.1 → r.messages = extended.2.messages → Shape env params r := by
    unfold startTurn
    split_ifs with hlater
    · apply (returns_extendHistory turnIdx s).weaken
      rintro ⟨toolName, s'⟩ ⟨hname, assistant, toolResult, nextUser, hmessages⟩
      have hquiet : toolName = none → ∀ m ∈ s'.messages, m.toolCalls = [] := by
        rintro rfl m hm
        have htool : tool = none := Option.map_eq_none_iff.mp hname.symm
        rw [hmessages] at hm
        rcases List.mem_append.mp hm with hm | hm
        · exact hs.noCalls htool m hm
        · fin_cases hm <;> rfl
      refine ⟨⟨hs.catalogue, ?_⟩, ?_⟩
      · rintro rfl
        exact hquiet hname
      · intro r hkind hshown hsame
        apply Shape.toolTurn hkind s.messages sid turnIdx assistant toolResult nextUser
        · rw [hsame, hmessages, hshown]
        · intro name hsome
          rw [hshown, hname] at hsome
          obtain ⟨t, ht, hshow⟩ := Option.map_eq_some_iff.mp hsome
          exact ⟨t, hs.catalogue t ht, hshow⟩
        · rw [hshown, hsame]
          exact hquiet
    · apply returns_pure
      obtain ⟨user0, huser, hmessages⟩ := hstart (by omega)
      refine ⟨hs, ?_⟩
      intro r hkind hshown hsame
      exact Shape.opener hkind hshown user0 huser (hsame.trans hmessages)
  apply hstarted.bind
  rintro ⟨toolName, s'⟩ ⟨hsession, hshape⟩
  apply returns_andThen
  intro genTokens
  apply returns_andThen
  intro blockHashes
  exact returns_pure ⟨hshape _ rfl rfl rfl, hsession⟩

/-- Every turn of a session that has the openers' messages first. -/
theorem returns_sessionTurns {indices : List ℕ} {s : History K} (hs : Session params tool s)
    (hlater : ∀ turnIdx ∈ indices, 0 < turnIdx) :
    Returns (sessionTurns params.toSessionParams tool sid indices s : Gen env _)
      fun turns => ∀ r ∈ turns, Shape env params r := by
  induction indices generalizing s with
  | nil => exact returns_pure fun r hr => (nomatch hr)
  | cons turnIdx rest ih =>
    have hfirst := hlater turnIdx List.mem_cons_self
    apply (returns_sessionTurn hs fun hzero => absurd hzero hfirst.ne').bind
    rintro ⟨turn, s'⟩ ⟨hshape, hs'⟩
    apply (ih hs' fun i hi => hlater i (List.mem_cons_of_mem _ hi)).bind
    intro turns hturns
    apply returns_pure
    exact List.forall_mem_cons.mpr ⟨hshape, hturns⟩

theorem returns_sessionTool :
    Returns (sessionTool params.toSessionParams : Gen env _)
      fun tool => ∀ t, tool = some t → t ∈ params.tools.getD defaultTools := by
  unfold sessionTool
  split_ifs
  · apply Returns.map
    apply (Gen.returns_choice (params.tools.getD defaultTools)).weaken
    intro t ht t' heq
    obtain rfl := Option.some.inj heq
    exact ht
  · exact returns_pure fun t ht => (nomatch ht)

theorem returns_session (turns : ℤ) (start : K) :
    Returns (session params.toSessionParams sid turns start : Gen env _)
      fun turns => ∀ r ∈ turns, Shape env params r := by
  apply (Gen.returns_choice userPrompts).bind
  intro user0 huser
  apply returns_sessionTool.bind
  intro tool htool
  apply returns_andThen
  intro ids
  have hs : Session params tool
      { arrival := start
        tokens := systemTokens env ++ ids
        messages := openingMessages env user0 } := by
    refine ⟨htool, ?_⟩
    intro _ m hm
    fin_cases hm <;> rfl
  cases turns.toNat with
  | zero => exact returns_pure fun r hr => (nomatch hr)
  | succ n =>
    -- The opener is the first turn, and the only one without a tool message.
    rw [List.range_succ_eq_map]
    apply (returns_sessionTurn hs fun _ => ⟨user0, huser, rfl⟩).bind
    rintro ⟨turn, s'⟩ ⟨hshape, hs'⟩
    have hlater : ∀ turnIdx ∈ (List.range n).map Nat.succ, 0 < turnIdx := by
      intro turnIdx hmem
      obtain ⟨i, -, rfl⟩ := List.mem_map.mp hmem
      exact Nat.succ_pos i
    apply (returns_sessionTurns hs' hlater).bind
    intro turns hturns
    apply returns_pure
    exact List.forall_mem_cons.mpr ⟨hshape, hturns⟩

theorem returns_sessions (sessionRate : K) (turns : ℤ) (sids : List ℕ) (start : K) :
    Returns (sessions params.toSessionParams sessionRate turns sids start : Gen env _)
      fun turns => ∀ r ∈ turns, Shape env params r := by
  induction sids generalizing start with
  | nil => exact returns_pure fun r hr => (nomatch hr)
  | cons sid rest ih =>
    apply returns_andThen
    intro gap
    apply (returns_session turns (start + gap)).bind
    intro first hfirst
    apply (ih (start + gap)).bind
    intro others hothers
    apply returns_pure
    exact List.forall_mem_append.mpr ⟨hfirst, hothers⟩

end Sessions

variable {params : MixedParams K}

theorem returns_ragQuery {weights : List K} (i : ℕ) (arrival : K) :
    Returns (ragQuery params ((List.range params.ragDocs.toNat).map fun d =>
        uniqueWords s!"rag_d{d}" params.ragDocTokens) weights i arrival : Gen env _)
      (Shape env params) := by
  apply (Gen.returns_weightedChoice _ weights).bind
  intro doc hdoc
  obtain ⟨d, -, rfl⟩ := List.mem_map.mp hdoc
  apply returns_andThen
  intro ids
  apply returns_andThen
  intro blockHashes
  apply returns_andThen
  intro genTokens
  exact returns_pure (.query rfl rfl d i rfl)

theorem returns_oneshot (i : ℕ) (arrival : K) :
    Returns (oneshot params i arrival : Gen env _) (Shape env params) := by
  apply returns_andThen
  intro tokens
  apply returns_andThen
  intro blockHashes
  apply returns_andThen
  intro genTokens
  exact returns_pure (.oneshot rfl rfl _ rfl)

theorem returns_arrivals {make : ℕ → K → Gen env (GeneratedTurn K)}
    (hmake : ∀ i arrival, Returns (make i arrival) (Shape env params)) (rate burstCv : K)
    (indices : List ℕ) (arrival : K) :
    Returns (arrivals rate burstCv make indices arrival)
      fun turns => ∀ r ∈ turns, Shape env params r := by
  induction indices generalizing arrival with
  | nil => exact returns_pure fun r hr => (nomatch hr)
  | cons i rest ih =>
    apply returns_andThen
    intro gap
    apply (hmake i (arrival + gap)).bind
    intro first hfirst
    apply (ih (arrival + gap)).bind
    intro others hothers
    apply returns_pure
    exact List.forall_mem_cons.mpr ⟨hfirst, hothers⟩

theorem returns_ifAny {fraction : K}
    {requests : StateT Vocab (Except WorkloadError) (List (GeneratedTurn K))}
    (h : Returns requests fun turns => ∀ r ∈ turns, Shape env params r) :
    Returns (ifAny fraction requests) fun turns => ∀ r ∈ turns, Shape env params r := by
  unfold ifAny
  split_ifs
  · exact h
  · exact returns_pure fun r hr => (nomatch hr)

/-- Every turn of a generated stream has one of the four shapes, whatever is drawn and
whatever words the process has numbered before. -/
theorem returns_generateMixed (numSessions turns : ℤ) (qps : K) :
    Returns (generateMixed env numSessions turns qps params)
      fun turns => ∀ r ∈ turns, Shape env params r := by
  have hsessions : ∀ n rate, Returns (generateSessions env n turns rate params.toSessionParams)
      fun turns => ∀ r ∈ turns, Shape env params r := by
    intro n rate
    apply (Gen.returns_withSeed (returns_sessions _ turns _ 0)).bind
    intro requests hrequests
    apply returns_pure
    intro r hr
    exact hrequests r (List.mem_mergeSort.mp hr)
  apply returns_andThen
  intro _
  apply (returns_ifAny (hsessions _ _)).bind
  intro tool htool
  apply (returns_ifAny (Gen.returns_withSeed (returns_arrivals returns_ragQuery _ _ _ 0))).bind
  intro rag hrag
  apply (returns_ifAny (Gen.returns_withSeed (returns_arrivals returns_oneshot _ _ _ 0))).bind
  intro oneshots honeshots
  have hall : ∀ r ∈ tool ++ rag ++ oneshots, Shape env params r :=
    List.forall_mem_append.mpr ⟨List.forall_mem_append.mpr ⟨htool, hrag⟩, honeshots⟩
  apply returns_pure
  intro r hr
  exact hall r (List.mem_mergeSort.mp hr)

end SchedLm.Sim
