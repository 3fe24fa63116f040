import SchedLm.Library.Fnv
import SchedLm.Library.OrderedDict

/-!
What the gateway reads off a request: its workload class, its most recent tool
call, and the identity of the conversation it belongs to.
-/

namespace SchedLm.Gateway

inductive Class where
  | tool
  | rag
  | oneshot
  deriving DecidableEq, Repr

/-- A value of type `any` as far as it is inspected: maps, strings, the rest. -/
inductive Any where
  | object (fields : List (String × Any))
  | text (s : String)
  | other

namespace Any

def object? : Any → Option (List (String × Any))
  | object fields => some fields
  | _ => none

def string? : Any → Option String
  | text s => some s
  | _ => none

end Any

/-- A chat message; `content` is what `Content.PlainText()` returns. -/
structure Message where
  role : String
  content : String := ""
  toolCalls : List Any := []

structure ChatCompletionsRequest where
  messages : List Message
  tools : List Any := []

structure InferenceRequestBody where
  chatCompletions : Option ChatCompletionsRequest

def chatBody (messages : List Message) (tools : List Any) : Option InferenceRequestBody :=
  some { chatCompletions := some { messages := messages, tools := tools } }

def userMessage (text : String) : Message := { role := "user", content := text }

abbrev Headers := Dict String String

structure InferenceRequest where
  body : Option InferenceRequestBody
  headers : Option Headers := some ∅

/-- The byte length from which a user message counts as a retrieved document. -/
def ragUserChars : ℕ := 512

def unknownTool : String := "unknown-tool"

def classify (body : Option InferenceRequestBody) : Class :=
  match body.bind InferenceRequestBody.chatCompletions with
  | none => .oneshot
  | some chat =>
    if chat.messages.any fun m => m.role == "tool" then .tool
    else if 0 < chat.tools.length then .tool
    else if chat.messages.length ≤ 1 then .oneshot
    else if chat.messages.getLast?.any fun m => ragUserChars ≤ m.content.utf8ByteSize then .rag
    else .tool

/-- `call["function"]["name"]`, when it is there and not empty. -/
def functionName (call : Any) : Option String := do
  let fields ← call.object?
  let fn ← (← fields.lookup "function").object?
  let name ← (← fn.lookup "name").string?
  if name ≠ "" then some name else none

/-- The last call of the newest assistant message with tool calls. -/
def lastToolName (body : Option InferenceRequestBody) : String :=
  match body.bind InferenceRequestBody.chatCompletions with
  | none => ""
  | some chat =>
    match chat.messages.reverse.find? fun m => m.role == "assistant" && !m.toolCalls.isEmpty with
    | none => ""
    | some m => (m.toolCalls.getLast?.bind functionName).getD unknownTool

def sessionIdHeader : String := "x-session-id"

def writeMessage (hash : UInt64) (m : Message) : UInt64 :=
  let hash := Fnv.write hash (Fnv.bytesOf m.role)
  let hash := Fnv.write hash [0]
  let hash := Fnv.write hash (Fnv.bytesOf m.content)
  Fnv.write hash [0]

/-- The loop over the messages, with `remaining` messages left to write. -/
def hashOpening (remaining : ℕ) (hash : UInt64) : List Message → UInt64
  | [] => hash
  | m :: rest =>
    if m.role ≠ "system" ∧ m.role ≠ "user" then hashOpening remaining hash rest
    else if remaining - 1 = 0 then writeMessage hash m
    else hashOpening (remaining - 1) (writeMessage hash m) rest

/-- The client's session header when it is not empty, else a hash of the
conversation's opening messages. -/
def conversationKey (headers : Headers) (body : Option InferenceRequestBody) : String :=
  let id := (headers.lookup sessionIdHeader).getD ""
  if id ≠ "" then id
  else
    match body.bind InferenceRequestBody.chatCompletions with
    | none => ""
    | some chat =>
      if chat.messages.length = 0 then ""
      else Fnv.formatUint (hashOpening 2 Fnv.offset chat.messages)

end SchedLm.Gateway
