import SchedLm.Bench.Chat
import SchedLm.Library.Semaphore

/-!
The open-loop driver: one coroutine dispatches the requests, paced to a rate and
held up by a semaphore only, and each request runs in a task of its own that
gives its permit back when it ends. As in the replay, whose turn it is and what
the backend answers is anybody's choice, as far as the transport fails with an
`aiohttp.ClientError` only, and the clock stands still while a coroutine runs.
-/

namespace SchedLm.Bench

open Sim Semaphore

variable {K : Type}

def trafficPrompts : List String := [
  "Write a short poem about the ocean.",
  "Explain quantum computing in simple terms.",
  "Translate 'hello world' to French and Spanish.",
  "What is the capital of Japan?",
  "Write a Python script to reverse a string."]

/-- The arguments of `run_traffic` but for the bound on tasks, and the system
prompt. -/
structure TrafficOptions (K : Type) where
  url : String
  numRequests : ℤ
  route : String
  qps : K
  kvPriority : Option String := none
  systemPrompt : String

def TrafficOptions.messages (o : TrafficOptions K) (prompt : String) : List ChatMessage :=
  [{ role := "system", content := o.systemPrompt }, { role := "user", content := prompt }]

def TrafficOptions.request (o : TrafficOptions K) (prompt : String) : ChatRequest :=
  chatRequest o.url o.route (o.messages prompt) 50 o.kvPriority none

/-- `range(num_requests)` is empty when the number is negative. -/
def TrafficOptions.total (o : TrafficOptions K) : ℕ := o.numRequests.toNat

structure TrafficCall (K : Type) where
  prompt : String
  request : ChatRequest
  start : K

/-- Where the task of one request is: not there yet, created, waiting for its
answer, or through with it. -/
inductive Job (K : Type) where
  | unsent
  | created
  | chatting (call : TrafficCall K) (chat : Chat K)
  | answered (call : TrafficCall K) (answer : Behaviour K)

/-- Where `run_traffic` waits: for the time of request `i`, for a permit, to run
with the permit it was handed, or for all tasks. -/
inductive Producer (K : Type) where
  | sleeping (deadline : K) (i : ℕ)
  | waiting (i : ℕ)
  | granted (i : ℕ)
  | gathering
  | finished
  deriving DecidableEq

structure OpenLoop (K : Type) where
  start : K
  now : K
  sem : Semaphore ℕ
  result : BenchmarkResult K
  producer : Producer K
  job : ℕ → Job K

/-- Time passes, the producer goes on, a task runs for the first time and draws
its prompt, or the transport hands something to its request. -/
inductive TrafficEvent (K : Type) where
  | tick (elapsed : K)
  | produce
  | post (i : ℕ) (prompt : String)
  | deliver (i : ℕ) (d : Delivery)

namespace OpenLoop

def setJob (s : OpenLoop K) (i : ℕ) (job : Job K) : OpenLoop K :=
  { s with job := Function.update s.job i job }

def share (s : OpenLoop K) (new : List (Effect K)) : OpenLoop K :=
  { s with result := new.foldl Effect.apply s.result }

/-- The `finally` of `_bounded_request`. A producer that waits is woken with the
permit. -/
def release (s : OpenLoop K) : OpenLoop K :=
  match s.sem.release with
  | (sem, none) => { s with sem := sem }
  | (sem, some i) => { s with sem := sem, producer := .granted i }

/-- `gather` waits for nothing when there is no task. -/
def gather (s : OpenLoop K) (i : ℕ) : OpenLoop K :=
  { s with producer := if i = 0 then .finished else .gathering }

section

variable [Scalar K] (o : TrafficOptions K)

def due (s : OpenLoop K) (i : ℕ) : K := s.start + i / o.qps

/-- From the acquisition for request `i` to the next wait; `next` is the rest of
the loop. -/
def acquire (next : OpenLoop K → OpenLoop K) (s : OpenLoop K) (i : ℕ) : OpenLoop K :=
  match s.sem.acquire i with
  | (sem, true) => next ({ s with sem := sem }.setJob i .created)
  | (sem, false) => { s with sem := sem, producer := .waiting i }

/-- The loop from request `i` on, with `left` requests to go. -/
def dispatch : ℕ → ℕ → OpenLoop K → OpenLoop K
  | 0, i, s => s.gather i
  | left + 1, i, s =>
    let delay := s.due o i - s.now
    if 0 < o.qps ∧ 0 < delay then { s with producer := .sleeping (s.now + delay) i }
    else acquire (dispatch left (i + 1)) s i

/-- `asyncio.Semaphore` takes no negative number. -/
def begin (concurrency : ℤ) (now : K) : Except String (OpenLoop K) :=
  if concurrency < 0 then .error "Semaphore initial value must be >= 0"
  else .ok (dispatch o o.total 0
    ⟨now, now, ⟨concurrency.toNat, []⟩, {}, .gathering, fun _ => .unsent⟩)

def allAnswered (s : OpenLoop K) : Bool :=
  (List.range o.total).all fun i =>
    match s.job i with
    | .answered .. => true
    | _ => false

def produce (s : OpenLoop K) : Option (OpenLoop K) :=
  match s.producer with
  | .sleeping deadline i =>
    if deadline ≤ s.now then some (acquire (dispatch o (o.total - (i + 1)) (i + 1)) s i) else none
  | .granted i => some (dispatch o (o.total - (i + 1)) (i + 1) (s.setJob i .created))
  | .gathering => if s.allAnswered o then some { s with producer := .finished } else none
  | _ => none

def hear (s : OpenLoop K) (i : ℕ) (call : TrafficCall K) (chat : Chat K) (d : Delivery) :
    Option (OpenLoop K) :=
  match chat.resume call.start s.now d with
  | none => none
  | some (.returned answer, new) => some (((s.share new).setJob i (.answered call answer)).release)
  | some (chat, new) => some ((s.share new).setJob i (.chatting call chat))

def step (s : OpenLoop K) : TrafficEvent K → Option (OpenLoop K)
  | .tick elapsed => if 0 ≤ elapsed then some { s with now := s.now + elapsed } else none
  | .produce => s.produce o
  | .post i prompt =>
    match s.job i with
    | .created =>
      if prompt ∈ trafficPrompts then
        some (s.setJob i (.chatting ⟨prompt, o.request prompt, s.now⟩ .posting))
      else none
    | _ => none
  | .deliver i d =>
    match s.job i with
    | .chatting call chat => s.hear i call chat d
    | _ => none

def run (s : OpenLoop K) (events : List (TrafficEvent K)) : Option (OpenLoop K) :=
  events.foldlM (step o) s

end

end OpenLoop

end SchedLm.Bench
