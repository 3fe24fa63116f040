import SchedLm.Library.OrderedDict
import SchedLm.Library.Scalar
import SchedLm.Sim.Workload

/-!
The workload generator: tool-calling sessions, retrieval queries and one-shots,
merged into one arrival stream. Every random draw is a parameter, and so are
floating-point powers, the built-in `hash` and the text of the system prompt.
-/

namespace SchedLm.Sim

inductive Seed where
  | number (seed : ℤ)
  | text (seed : String)

/-- What the generator takes from its surroundings. A draw looks at the state of
the random number generator and moves it on. -/
structure Surroundings (K : Type) where
  Rng : Type
  seeded : Seed → Rng
  random : Rng → K × Rng
  choice : Rng → (others : ℕ) → Fin (others + 1) × Rng
  weighted : Rng → K → (others : List K) → Fin (others.length + 1) × Rng
  expovariate : Rng → K → K × Rng
  gammavariate : Rng → K → K → K × Rng
  gauss : Rng → K → K → K × Rng
  power : K → K → K
  hash : BlockHash × List Token → BlockHash
  systemPrompt : String

inductive WorkloadError where
  | unknownClasses (names : List String)
  | indexError
  | zeroDivision
  deriving DecidableEq, Repr

structure Tool (K : Type) where
  name : String
  failProb : K
  successLatency : K

structure ToolCall where
  id : String
  name : String
  arguments : String := "\x7b\x7d"
  deriving DecidableEq, Repr

/-- A message as it goes over the wire. A key that is not there is an empty list,
or `none`. -/
structure ChatMessage where
  role : String
  content : String
  toolCalls : List ToolCall := []
  toolCallId : Option String := none
  deriving DecidableEq, Repr

def ChatMessage.plain (m : ChatMessage) : Message where
  role := m.role
  content := m.content

structure GeneratedTurn (K : Type) where
  sessionId : ℤ
  turnIdx : ℤ
  arrival : K
  tokens : List Token
  blockHashes : List BlockHash
  genTokens : ℤ
  messages : List ChatMessage
  kind : Kind := .tool
  conversationId : Option ℤ := none
  toolName : Option String := none

def GeneratedTurn.request {K : Type} (r : GeneratedTurn K) : TurnRequest K where
  arrival := r.arrival
  tokens := r.tokens
  blockHashes := r.blockHashes
  genTokens := r.genTokens
  messages := r.messages.map ChatMessage.plain
  kind := r.kind
  conversationId := r.conversationId
  toolName := r.toolName

abbrev Vocab := Dict (List Char) Token

def tokenizeWord (vocab : Vocab) (word : List Char) : Token × Vocab :=
  match vocab.lookup word with
  | some tid => (tid, vocab)
  | none => (vocab.keys.length, vocab.insert word vocab.keys.length)

def tokenizeWords (vocab : Vocab) : List (List Char) → List Token × Vocab
  | [] => ([], vocab)
  | word :: rest =>
    let (tid, vocab) := tokenizeWord vocab word
    let (ids, vocab) := tokenizeWords vocab rest
    (tid :: ids, vocab)

def tokenize (vocab : Vocab) (text : String) : List Token × Vocab :=
  tokenizeWords vocab (splitWords text)

structure Draws {K : Type} (env : Surroundings K) where
  rng : env.Rng
  vocab : Vocab

abbrev Gen {K : Type} (env : Surroundings K) := StateT (Draws env) (Except WorkloadError)

namespace Gen

variable {K : Type} {env : Surroundings K}

def draw {α : Type} (f : env.Rng → α × env.Rng) : Gen env α := do
  let s ← get
  let (value, rng) := f s.rng
  set { s with rng := rng }
  return value

def choice {α : Type} : List α → Gen env α
  | [] => throw .indexError
  | first :: rest => do
    let i ← draw fun rng => env.choice rng rest.length
    return (first :: rest).get i

/-- `rng.choices(xs, weights=weights)[0]`, of as many weights as elements. -/
def weightedChoice {α : Type} (xs : List α) : List K → Gen env α
  | [] => throw .indexError
  | first :: rest => do
    let i ← draw fun rng => env.weighted rng first rest
    match xs[i.val]? with
    | none => throw .indexError
    | some x => return x

def ids (text : String) : Gen env (List Token) := do
  let s ← get
  let tokenized := tokenize s.vocab text
  set { s with vocab := tokenized.2 }
  return tokenized.1

def blocks (tokens : List Token) (blockSize : ℤ) : Gen env (List BlockHash) :=
  if blockSize = 0 then throw .zeroDivision
  else return hashBlocks env.hash tokens blockSize.toNat

end Gen

/-- The tokens of the system prompt; the first that the vocabulary has seen. -/
def systemTokens {K : Type} (env : Surroundings K) : List Token := (tokenize ∅ env.systemPrompt).1

def importedVocab {K : Type} (env : Surroundings K) : Vocab := (tokenize ∅ env.systemPrompt).2

def userPrompts : List String := [
  "where is my shipment right now",
  "why was I charged twice this month",
  "reschedule the pickup for tomorrow",
  "which carrier handles the Berlin route",
  "generate an api key for the sandbox"]

def cannedToolResults : List String := [
  "policy document freight billing terms net thirty standard tariff schedule",
  "carrier directory north south routes service levels transit windows",
  "sandbox environment base url rate limits authentication scopes"]

def uniqueWords (tag : String) (n : ℤ) : String :=
  String.intercalate " " ((List.range n.toNat).map fun j => tag ++ "_w" ++ toString j)

/-- `int(x)`. -/
def truncate {K : Type} [Scalar K] (x : K) : ℤ := if 0 ≤ x then ⌊x⌋ else ⌈x⌉

section

variable {K : Type} [Scalar K]

def defaultTools : List (Tool K) := [
  { name := "lookup_policy", failProb := 2 / 100, successLatency := 2 / 10 },
  { name := "db_query", failProb := 25 / 100, successLatency := 3 / 2 },
  { name := "curl_page", failProb := 5 / 100, successLatency := 6 },
  { name := "run_tests", failProb := 6 / 10, successLatency := 8 }]

def defaultRetryGap : K := 2 / 10

structure SessionParams (K : Type) [Scalar K] where
  toolResultTokens : ℤ := 64
  thinkTime : K := 2
  burstCv : K := 1
  deterministicToolProb : K := 3 / 10
  genTokensMean : ℤ := 48
  blockSize : ℤ := defaultBlockSize
  nominalTurnSeconds : K := 1 / 2
  toolReliability : Bool := false
  tools : Option (List (Tool K)) := none
  seed : ℤ := 0

variable {env : Surroundings K}

def successResult (deterministicToolProb : K) (tag : String) (n : ℤ) : Gen env String := do
  let u ← Gen.draw env.random
  if u < deterministicToolProb then Gen.choice cannedToolResults else return uniqueWords tag n

def arrivalGap (rate burstCv : K) : Gen env K := do
  if burstCv = 1 then Gen.draw fun rng => env.expovariate rng rate
  else if burstCv * burstCv = 0 then throw .zeroDivision
  else
    let shape := 1 / (burstCv * burstCv)
    if rate * shape = 0 then throw .zeroDivision
    else Gen.draw fun rng => env.gammavariate rng shape (1 / (rate * shape))

/-- `max(1, int(rng.gauss(mean, mean * 0.2)))`. -/
def genTokensDraw (genTokensMean : ℤ) : Gen env ℤ := do
  let g ← Gen.draw fun rng => env.gauss rng genTokensMean (genTokensMean * (2 / 10))
  return max 1 (truncate g)

structure History (K : Type) where
  arrival : K
  tokens : List Token
  messages : List ChatMessage

/-- What the session's tool returns on a turn: the name the turn shows, the
result, and when the next request is there. -/
def callTool (params : SessionParams K) (tool : Option (Tool K)) (sid turnIdx : ℕ) (arrival : K) :
    Gen env (Option String × String × K) := do
  let successTag := s!"s{sid}_t{turnIdx}_r"
  match tool with
  | none =>
    let result ← successResult params.deterministicToolProb successTag params.toolResultTokens
    return (none, result, arrival + (params.thinkTime + params.nominalTurnSeconds))
  | some tool =>
    let u ← Gen.draw env.random
    if u < tool.failProb then
      return (some tool.name, uniqueWords s!"s{sid}_t{turnIdx}_err" 3, arrival + defaultRetryGap)
    else
      let result ← successResult params.deterministicToolProb successTag params.toolResultTokens
      return (some tool.name, result, arrival + (params.thinkTime + tool.successLatency))

/-- The three messages a turn adds: the reply with its tool call, the result, and
the next user message. -/
def turnMessages (sid turnIdx : ℕ) (toolName : Option String)
    (assistant toolResult nextUser : String) : List ChatMessage :=
  let callId := s!"call_s{sid}_t{turnIdx}"
  [{ role := "assistant"
     content := assistant
     toolCalls := toolName.toList.map fun name => { id := callId, name := name } },
   { role := "tool", content := toolResult, toolCallId := toolName.map fun _ => callId },
   { role := "user", content := nextUser }]

/-- The history a turn past the first starts from, and the tool name it shows. -/
def extendHistory (params : SessionParams K) (tool : Option (Tool K)) (sid turnIdx : ℕ)
    (s : History K) : Gen env (Option String × History K) := do
  let assistant := uniqueWords s!"s{sid}_t{turnIdx}_a" params.genTokensMean
  let (toolName, toolResult, arrival) ← callTool params tool sid turnIdx s.arrival
  let nextUser := uniqueWords s!"s{sid}_t{turnIdx}_u" 6
  let ids ← Gen.ids (assistant ++ " " ++ toolResult ++ " " ++ nextUser)
  return (toolName,
    { arrival := arrival
      tokens := s.tokens ++ ids
      messages := s.messages ++ turnMessages sid turnIdx toolName assistant toolResult nextUser })

/-- The tool name a turn shows and the history it starts from. -/
def startTurn (params : SessionParams K) (tool : Option (Tool K)) (sid turnIdx : ℕ)
    (s : History K) : Gen env (Option String × History K) :=
  if 0 < turnIdx then extendHistory params tool sid turnIdx s else return (none, s)

def sessionTurn (params : SessionParams K) (tool : Option (Tool K)) (sid turnIdx : ℕ)
    (s : History K) : Gen env (GeneratedTurn K × History K) := do
  let (toolName, s) ← startTurn params tool sid turnIdx s
  let genTokens ← genTokensDraw params.genTokensMean
  let blockHashes ← Gen.blocks s.tokens params.blockSize
  return (
    { sessionId := sid
      turnIdx := turnIdx
      arrival := s.arrival
      tokens := s.tokens
      blockHashes := blockHashes
      genTokens := genTokens
      messages := s.messages
      conversationId := some sid
      toolName := toolName }, s)

def sessionTurns (params : SessionParams K) (tool : Option (Tool K)) (sid : ℕ) :
    List ℕ → History K → Gen env (List (GeneratedTurn K))
  | [], _ => return []
  | turnIdx :: rest, s => do
    let (turn, s) ← sessionTurn params tool sid turnIdx s
    let turns ← sessionTurns params tool sid rest s
    return turn :: turns

/-- A session sticks to one tool, when tools are modelled. -/
def sessionTool (params : SessionParams K) : Gen env (Option (Tool K)) :=
  if params.toolReliability then some <$> Gen.choice (params.tools.getD defaultTools)
  else return none

def session (params : SessionParams K) (sid : ℕ) (turns : ℤ) (start : K) :
    Gen env (List (GeneratedTurn K)) := do
  let user0 ← Gen.choice userPrompts
  let tool ← sessionTool params
  let ids ← Gen.ids user0
  sessionTurns params tool sid (List.range turns.toNat)
    { arrival := start
      tokens := systemTokens env ++ ids
      messages := [{ role := "system", content := env.systemPrompt },
        { role := "user", content := user0 }] }

def sessions (params : SessionParams K) (sessionRate : K) (turns : ℤ) :
    List ℕ → K → Gen env (List (GeneratedTurn K))
  | [], _ => return []
  | sid :: rest, sessionStart => do
    let gap ← arrivalGap sessionRate params.burstCv
    let first ← session params sid turns (sessionStart + gap)
    let others ← sessions params sessionRate turns rest (sessionStart + gap)
    return first ++ others

/-- The order of the stream: by arrival, then session, then turn. -/
def GeneratedTurn.before (a b : GeneratedTurn K) : Bool :=
  a.arrival < b.arrival ∨ (a.arrival = b.arrival ∧
    (a.sessionId < b.sessionId ∨ (a.sessionId = b.sessionId ∧ a.turnIdx ≤ b.turnIdx)))

def Gen.withSeed {α : Type} (seed : Seed) (x : Gen env α) : StateT Vocab (Except WorkloadError) α :=
  fun vocab => do
    let (value, s) ← x { rng := env.seeded seed, vocab := vocab }
    return (value, s.vocab)

/-- A rate that is never zero. -/
def positiveRate (rate : K) : K := max rate (1 / 1000000000)

def generateSessions (env : Surroundings K) (numSessions turns : ℤ) (qps : K)
    (params : SessionParams K) : StateT Vocab (Except WorkloadError) (List (GeneratedTurn K)) := do
  let sessionRate := positiveRate (qps / (max turns 1 : ℤ))
  let requests ← Gen.withSeed (.number params.seed)
    (sessions params sessionRate turns (List.range numSessions.toNat) 0 : Gen env _)
  return requests.mergeSort GeneratedTurn.before

structure MixedParams (K : Type) [Scalar K] extends SessionParams K where
  mix : Option (Dict String K) := none
  ragDocs : ℤ := 16
  ragDocTokens : ℤ := 1024
  ragZipf : K := 11 / 10
  ragQuestionTokens : ℤ := 16
  oneshotTokens : ℤ := 32

def ragSidBase : ℤ := 1000000

def oneshotSidBase : ℤ := 2000000

def ragQuery (params : MixedParams K) (docTexts : List String) (weights : List K) (i : ℕ)
    (arrival : K) : Gen env (GeneratedTurn K) := do
  let doc ← Gen.weightedChoice docTexts weights
  let user := doc ++ " " ++ uniqueWords s!"rag_q{i}" params.ragQuestionTokens
  let ids ← Gen.ids user
  let tokens := systemTokens env ++ ids
  let blockHashes ← Gen.blocks tokens params.blockSize
  let genTokens ← genTokensDraw params.genTokensMean
  return {
    sessionId := ragSidBase + i
    turnIdx := 0
    arrival := arrival
    tokens := tokens
    blockHashes := blockHashes
    genTokens := genTokens
    messages := [{ role := "system", content := env.systemPrompt },
      { role := "user", content := user }]
    kind := .rag
    conversationId := some (ragSidBase + i) }

/-- A lone user message of words that no other request has. -/
def oneshot (params : MixedParams K) (i : ℕ) (arrival : K) : Gen env (GeneratedTurn K) := do
  let text := uniqueWords s!"one_{i}" params.oneshotTokens
  let tokens ← Gen.ids text
  let blockHashes ← Gen.blocks tokens params.blockSize
  let genTokens ← genTokensDraw params.genTokensMean
  return {
    sessionId := oneshotSidBase + i
    turnIdx := 0
    arrival := arrival
    tokens := tokens
    blockHashes := blockHashes
    genTokens := genTokens
    messages := [{ role := "user", content := text }]
    kind := .oneshot
    conversationId := some (oneshotSidBase + i) }

def arrivals (rate burstCv : K) (make : ℕ → K → Gen env (GeneratedTurn K)) :
    List ℕ → K → Gen env (List (GeneratedTurn K))
  | [], _ => return []
  | i :: rest, arrival => do
    let gap ← arrivalGap rate burstCv
    let first ← make i (arrival + gap)
    let others ← arrivals rate burstCv make rest (arrival + gap)
    return first :: others

def MixedParams.mixture (params : MixedParams K) : Dict String K :=
  match params.mix with
  | some mix => if mix.keys = [] then (∅ : Dict String K).insert "tool" 1 else mix
  | none => (∅ : Dict String K).insert "tool" 1

def share (total : ℤ) (fraction : K) : ℤ := Scalar.roundHalfEven ((total : K) * fraction)

def ragRequests (env : Surroundings K) (params : MixedParams K) (total : ℤ) (qps fraction : K) :
    StateT Vocab (Except WorkloadError) (List (GeneratedTurn K)) :=
  let docTexts := (List.range params.ragDocs.toNat).map fun d =>
    uniqueWords s!"rag_d{d}" params.ragDocTokens
  let weights := (List.range params.ragDocs.toNat).map fun d =>
    1 / env.power (d + 1 : ℕ) params.ragZipf
  Gen.withSeed (.text s!"{params.seed}:rag")
    (arrivals (positiveRate (qps * fraction)) params.burstCv (ragQuery params docTexts weights)
      (List.range (share total fraction).toNat) 0 : Gen env _)

def oneshotRequests (env : Surroundings K) (params : MixedParams K) (total : ℤ) (qps fraction : K) :
    StateT Vocab (Except WorkloadError) (List (GeneratedTurn K)) :=
  Gen.withSeed (.text s!"{params.seed}:oneshot")
    (arrivals (positiveRate (qps * fraction)) params.burstCv (oneshot params)
      (List.range (share total fraction).toNat) 0 : Gen env _)

def checkMix (mix : Dict String K) : StateT Vocab (Except WorkloadError) Unit :=
  let unknown := mix.keys.filter fun name => name ∉ ["tool", "rag", "oneshot"]
  if unknown = [] then return ()
  else throw (.unknownClasses (unknown.mergeSort fun a b => a ≤ b))

def ifAny (fraction : K) (requests : StateT Vocab (Except WorkloadError) (List (GeneratedTurn K))) :
    StateT Vocab (Except WorkloadError) (List (GeneratedTurn K)) :=
  if 0 < fraction then requests else return []

/-- `generate_mixed`, over the vocabulary of the process. -/
def generateMixed (env : Surroundings K) (numSessions turns : ℤ) (qps : K)
    (params : MixedParams K) : StateT Vocab (Except WorkloadError) (List (GeneratedTurn K)) := do
  let mix := params.mixture
  checkMix mix
  let totalBudget := numSessions * turns
  let toolFrac := (mix.lookup "tool").getD 0
  let tool ← ifAny toolFrac (generateSessions env (share numSessions toolFrac) turns
    (qps * toolFrac) params.toSessionParams)
  let ragFrac := (mix.lookup "rag").getD 0
  let rag ← ifAny ragFrac (ragRequests env params totalBudget qps ragFrac)
  let oneshotFrac := (mix.lookup "oneshot").getD 0
  let oneshots ← ifAny oneshotFrac (oneshotRequests env params totalBudget qps oneshotFrac)
  return (tool ++ rag ++ oneshots).mergeSort GeneratedTurn.before

end

/-- Surroundings without chance: every draw gives its mean or its first choice. -/
def unvaried : Surroundings ℚ where
  Rng := Unit
  seeded := fun _ => ()
  random := fun _ => (1 / 2, ())
  choice := fun _ others => (⟨0, Nat.succ_pos others⟩, ())
  weighted := fun _ _ others => (⟨0, Nat.succ_pos others.length⟩, ())
  expovariate := fun _ rate => (1 / rate, ())
  gammavariate := fun _ shape scale => (shape * scale, ())
  gauss := fun _ mean _ => (mean, ())
  power := fun base _ => base
  hash := fun key => key.1 + key.2.sum + 1
  systemPrompt := "You are Aria, a support agent."

end SchedLm.Sim
