import SchedLm.Gateway.Refinement
import SchedLm.Sim.GeneratedTurns

/-!
The signals of the generated workload, offline and live. The simulator's policies
see a turn through its view, the plugin through the messages it is sent as; both
must read off them the class the generator meant and the tool it named.
-/

namespace SchedLm.Gateway

open Sim (GeneratedTurn ChatMessage MixedParams Shape Surroundings openingMessages queryText
  splitWords splitWords_append_space turnMessages uniqueWords)

variable {K : Type}

def receivedCall (call : Sim.ToolCall) : Any :=
  .object [("id", .text call.id), ("type", .text "function"),
    ("function", .object [("name", .text call.name), ("arguments", .text call.arguments)])]

def received (m : ChatMessage) : Message where
  role := m.role
  content := m.content
  toolCalls := m.toolCalls.map receivedCall

def sent (r : GeneratedTurn K) : Option InferenceRequestBody :=
  chatBody (r.messages.map received) []

/-- Offline and live, a turn shows its class and its tool: the class that
`generate_mixed` made it for, and the tool name it carries, or the empty one. -/
structure SameSignals (r : GeneratedTurn K) : Prop where
  offline : Sim.classify (Sim.requestView r.request) = r.kind
  live : (classify (sent r)).kind = r.kind
  tool : lastToolName (sent r) = r.toolName.getD ""

theorem splitWords_word {word : String} (hne : word ≠ "")
    (hword : ∀ c ∈ word.toList, Sim.isSpace c = false) : splitWords word = [word.toList] := by
  have hlist : word.toList ≠ [] := fun h => hne (String.toList_eq_nil_iff.mp h)
  rw [splitWords, List.splitOnP_eq_singleton hword]
  simp [hlist]

theorem length_splitWords_intercalate {words : List String}
    (h : ∀ word ∈ words, word ≠ "" ∧ ∀ c ∈ word.toList, Sim.isSpace c = false) :
    (splitWords (String.intercalate " " words)).length = words.length := by
  induction words with
  | nil => rfl
  | cons word rest ih =>
    obtain ⟨hne, hword⟩ := h word List.mem_cons_self
    rcases eq_or_ne rest [] with rfl | hrest
    · rw [String.intercalate_singleton, splitWords_word hne hword]
      rfl
    · rw [String.intercalate_cons_of_ne_nil hrest, splitWords_append_space,
        splitWords_word hne hword, List.length_append,
        ih fun other hother => h other (List.mem_cons_of_mem word hother)]
      simp [Nat.add_comm]

theorem isSpace_of_isDigit {c : Char} (hc : c.isDigit = true) : Sim.isSpace c = false := by
  have hrange : 48 ≤ c.toNat ∧ c.toNat ≤ 57 := Char.isDigit_iff_toNat.mp hc
  have hval : c.val.toNat = c.toNat := rfl
  unfold Sim.isSpace
  simp only [decide_eq_false_iff_not, UInt32.le_iff_toNat_le, ← UInt32.toNat_inj, hval]
  simp only [UInt32.reduceToNat]
  omega

def IsTag (tag : String) : Prop := tag ≠ "" ∧ ∀ c ∈ tag.toList, Sim.isSpace c = false

theorem IsTag.append_toString {tag : String} (htag : IsTag tag) (n : ℕ) :
    IsTag (tag ++ toString n) := by
  constructor
  · intro h
    exact htag.1 (String.append_eq_empty_iff.mp h).1
  · intro c hc
    rw [String.toList_append, List.mem_append] at hc
    rcases hc with hc | hc
    · exact htag.2 c hc
    · have hdigits : (toString n).toList = Nat.toDigits 10 n := by simp
      rw [hdigits] at hc
      exact isSpace_of_isDigit (Nat.isDigit_of_mem_toDigits (by decide) (by decide) hc)

theorem utf8ByteSize_intercalate {words : List String} {size : ℕ}
    (h : ∀ word ∈ words, size ≤ word.utf8ByteSize) :
    size * words.length ≤ (String.intercalate " " words).utf8ByteSize := by
  induction words with
  | nil => simp
  | cons word rest ih =>
    have hword := h word List.mem_cons_self
    have hothers := ih fun other hother => h other (List.mem_cons_of_mem word hother)
    rcases eq_or_ne rest [] with rfl | hrest
    · simpa using hword
    · rw [String.intercalate_cons_of_ne_nil hrest, String.utf8ByteSize_append,
        String.utf8ByteSize_append, List.length_cons, Nat.mul_succ]
      omega

theorem uniqueWords_size {tag : String} (htag : IsTag tag) (n : ℤ) :
    (splitWords (uniqueWords tag n)).length = n.toNat ∧
      4 * n.toNat ≤ (uniqueWords tag n).utf8ByteSize := by
  have hwordTag : IsTag (tag ++ "_w") := by
    constructor
    · intro h
      exact htag.1 (String.append_eq_empty_iff.mp h).1
    · intro c hc
      rw [String.toList_append, List.mem_append] at hc
      rcases hc with hc | hc
      · exact htag.2 c hc
      · fin_cases hc <;> decide
  have hwords : ∀ word ∈ (List.range n.toNat).map (fun j => tag ++ "_w" ++ toString j),
      IsTag word ∧ 4 ≤ word.utf8ByteSize := by
    intro word hword
    obtain ⟨j, -, rfl⟩ := List.mem_map.mp hword
    refine ⟨hwordTag.append_toString j, ?_⟩
    have htagSize : tag.utf8ByteSize ≠ 0 := fun h => htag.1 (String.utf8ByteSize_eq_zero_iff.mp h)
    have hnumber : (toString j).utf8ByteSize ≠ 0 := by
      intro h
      have hnil := congrArg String.toList (String.utf8ByteSize_eq_zero_iff.mp h)
      simp at hnil
    have hmark : "_w".utf8ByteSize = 2 := by decide
    rw [String.utf8ByteSize_append, String.utf8ByteSize_append, hmark]
    omega
  have hlength :
      ((List.range n.toNat).map fun j => tag ++ "_w" ++ toString j).length = n.toNat := by
    simp
  constructor
  · exact (length_splitWords_intercalate fun word hword => (hwords word hword).1).trans hlength
  · have hsize := utf8ByteSize_intercalate fun word hword => (hwords word hword).2
    rw [hlength] at hsize
    exact hsize

variable {env : Surroundings K} {r : GeneratedTurn K}

/-- A system message and a user message: the size of the latter decides, in words
offline and in bytes live. -/
theorem signals_openingMessages {user : String}
    (hmessages : r.messages = openingMessages env user) :
    Sim.classify (Sim.requestView r.request) =
        (if 128 ≤ (splitWords user).length then .rag else .tool) ∧
      (classify (sent r)).kind = (if 512 ≤ user.utf8ByteSize then .rag else .tool) ∧
      lastToolName (sent r) = "" := by
  refine ⟨?_, ?_, ?_⟩
  · simp [Sim.classify, Sim.requestView, GeneratedTurn.request, hmessages, openingMessages,
      ChatMessage.plain, Sim.ragUserTokens]
  · unfold classify sent
    simp only [hmessages, openingMessages]
    by_cases hsize : 512 ≤ user.utf8ByteSize <;>
      simp [chatBody, received, ragUserChars, hsize, Class.kind]
  · simp [lastToolName, sent, hmessages, openingMessages, chatBody, received]

theorem functionName_receivedCall {call : Sim.ToolCall} (hname : call.name ≠ "") :
    functionName (receivedCall call) = some call.name :=
  if_pos hname

theorem lastToolName_of_noCalls (hcalls : ∀ m ∈ r.messages, m.toolCalls = []) :
    lastToolName (sent r) = "" := by
  have hfind : (r.messages.map received).reverse.find?
      (fun m => m.role == "assistant" && !m.toolCalls.isEmpty) = none := by
    rw [List.find?_eq_none]
    intro m hm
    obtain ⟨generated, hmem, rfl⟩ := List.mem_map.mp (List.mem_reverse.mp hm)
    simp [received, hcalls generated hmem]
  simp only [lastToolName, sent, chatBody, Option.bind_some, hfind]

theorem signals_toolTurn {before : List ChatMessage} {sid turnIdx : ℕ}
    {assistant toolResult nextUser : String} (hkind : r.kind = .tool)
    (hmessages : r.messages =
      before ++ turnMessages sid turnIdx r.toolName assistant toolResult nextUser)
    (hname : ∀ name, r.toolName = some name → name ≠ "")
    (hnone : r.toolName = none → ∀ m ∈ r.messages, m.toolCalls = []) : SameSignals r where
  offline := by
    simp [Sim.classify, Sim.requestView, GeneratedTurn.request, hmessages, turnMessages,
      ChatMessage.plain, hkind]
  live := by
    simp [classify, sent, hmessages, turnMessages, chatBody, received, hkind, Class.kind]
  tool := by
    cases htool : r.toolName with
    | none => exact lastToolName_of_noCalls (hnone htool)
    | some name =>
      simp [lastToolName, sent, hmessages, turnMessages, chatBody, received, htool,
        functionName_receivedCall, hname name htool]

theorem signals_oneshot {text : String} (hkind : r.kind = .oneshot) (hname : r.toolName = none)
    (hmessages : r.messages = [{ role := "user", content := text }]) : SameSignals r where
  offline := by
    simp [Sim.classify, Sim.requestView, GeneratedTurn.request, hmessages, ChatMessage.plain,
      hkind]
  live := by simp [classify, sent, hmessages, chatBody, received, hkind, Class.kind]
  tool := by simp [lastToolName, sent, hmessages, chatBody, received, hname]

theorem userPrompts_short {user0 : String} (huser : user0 ∈ Sim.userPrompts) :
    (splitWords user0).length < 128 ∧ user0.utf8ByteSize < 512 := by
  have hall : ∀ user0 ∈ Sim.userPrompts,
      (splitWords user0).length < 128 ∧ user0.utf8ByteSize < 512 := by decide +kernel
  exact hall user0 huser

section

variable [Scalar K]

theorem queryText_size (params : MixedParams K) (d i : ℕ) :
    (params.ragDocTokens.toNat + params.ragQuestionTokens.toNat =
        (splitWords (queryText params d i)).length) ∧
      4 * (params.ragDocTokens.toNat + params.ragQuestionTokens.toNat) ≤
        (queryText params d i).utf8ByteSize := by
  have hdocTag : IsTag "rag_d" := ⟨by decide, fun c hc => by fin_cases hc <;> decide⟩
  have hquestionTag : IsTag "rag_q" := ⟨by decide, fun c hc => by fin_cases hc <;> decide⟩
  have hdoc : IsTag s!"rag_d{d}" := hdocTag.append_toString d
  have hquestion : IsTag s!"rag_q{i}" := hquestionTag.append_toString i
  obtain ⟨hdocWords, hdocBytes⟩ := uniqueWords_size hdoc params.ragDocTokens
  obtain ⟨hquestionWords, hquestionBytes⟩ := uniqueWords_size hquestion params.ragQuestionTokens
  unfold queryText
  rw [splitWords_append_space, List.length_append, hdocWords, hquestionWords,
    String.utf8ByteSize_append, String.utf8ByteSize_append]
  constructor
  · rfl
  · omega

/-- A turn of any of the four shapes shows its class and its tool on both sides. Only
for a query does the size of its text matter. -/
theorem sameSignals_of_shape {env : Surroundings K} {params : MixedParams K}
    {r : GeneratedTurn K}
    (hnames : ∀ tool ∈ params.tools.getD Sim.defaultTools, tool.name ≠ "")
    (htokens : 128 ≤ params.ragDocTokens + params.ragQuestionTokens)
    (h : Shape env params r) : SameSignals r := by
  cases h with
  | opener hkind hname user0 huser hmessages =>
    obtain ⟨hwords, hbytes⟩ := userPrompts_short huser
    obtain ⟨hoffline, hlive, htool⟩ := signals_openingMessages hmessages
    refine ⟨?_, ?_, ?_⟩
    · rw [hoffline, if_neg (not_le.mpr hwords), hkind]
    · rw [hlive, if_neg (not_le.mpr hbytes), hkind]
    · rw [htool, hname]
      rfl
  | toolTurn hkind before sid turnIdx assistant toolResult nextUser hmessages hname hnone =>
    apply signals_toolTurn hkind hmessages _ hnone
    intro name hsome
    obtain ⟨tool, htool, rfl⟩ := hname name hsome
    exact hnames tool htool
  | query hkind hname d i hmessages =>
    obtain ⟨hwords, hbytes⟩ := queryText_size params d i
    obtain ⟨hoffline, hlive, htool⟩ := signals_openingMessages hmessages
    have hcount : 128 ≤ params.ragDocTokens.toNat + params.ragQuestionTokens.toNat := by omega
    refine ⟨?_, ?_, ?_⟩
    · rw [hoffline, if_pos (hcount.trans_eq hwords), hkind]
    · rw [hlive, if_pos (by omega), hkind]
    · rw [htool, hname]
      rfl
  | oneshot hkind hname text hmessages => exact signals_oneshot hkind hname hmessages

/-- Every request of every generated stream shows its class and its tool, offline and
live: whatever is drawn, for any mix, tools and numbers, as long as tools are named and
a query has 128 tokens or more. Offline, words are counted; live, bytes. -/
theorem generateMixed_sameSignals (env : Surroundings K) (numSessions turns : ℤ) (qps : K)
    (params : MixedParams K)
    (hnames : ∀ tool ∈ params.tools.getD Sim.defaultTools, tool.name ≠ "")
    (htokens : 128 ≤ params.ragDocTokens + params.ragQuestionTokens) (vocab vocab' : Sim.Vocab)
    (requests : List (GeneratedTurn K))
    (hstream : Sim.generateMixed env numSessions turns qps params vocab = .ok (requests, vocab')) :
    ∀ r ∈ requests, SameSignals r := by
  intro r hr
  apply sameSignals_of_shape hnames htokens
  exact (Sim.returns_generateMixed numSessions turns qps).of_run hstream r hr

end

def steady : Surroundings ℚ where
  Rng := Unit
  seeded := fun _ => ()
  random := fun _ => (0, ())
  choice := fun _ _ => (0, ())
  weighted := fun _ _ _ => (0, ())
  expovariate := fun _ _ => (1, ())
  gammavariate := fun _ _ _ => (1, ())
  gauss := fun _ mean _ => (mean, ())
  power := fun _ _ => 1
  hash := fun _ => 0
  systemPrompt := "You are Aria."

def thirds : MixedParams ℚ where
  toolReliability := true
  mix := some ((((∅ : Dict String ℚ).insert "tool" (1 / 3)).insert "rag" (1 / 3)).insert
    "oneshot" (1 / 3))

/-- What a fresh process generates of three sessions of two turns, and the
vocabulary after. -/
def sampleStream : List (GeneratedTurn ℚ) × Sim.Vocab :=
  ((Sim.generateMixed steady 3 2 1 thirds (Sim.importedVocab steady)).toOption).getD ([], ∅)

theorem generateMixed_sampleStream :
    Sim.generateMixed steady 3 2 1 thirds (Sim.importedVocab steady) =
      .ok (sampleStream.1, sampleStream.2) := by
  have hok : (Sim.generateMixed steady 3 2 1 thirds
      (Sim.importedVocab steady)).toOption.isSome = true := by decide +kernel
  unfold sampleStream
  cases h : Sim.generateMixed steady 3 2 1 thirds (Sim.importedVocab steady) with
  | error e =>
    rw [h] at hok
    cases hok
  | ok stream => rfl

theorem generateMixed_sameSignals_thirds :
    Sim.generateMixed steady 3 2 1 thirds (Sim.importedVocab steady) =
        .ok (sampleStream.1, sampleStream.2) ∧
      ∀ r ∈ sampleStream.1, SameSignals r :=
  ⟨generateMixed_sampleStream,
    generateMixed_sameSignals steady 3 2 1 thirds (by decide) (by decide)
      (Sim.importedVocab steady) sampleStream.2 sampleStream.1 generateMixed_sampleStream⟩

end SchedLm.Gateway
