import SchedLm.Bench.Chat
import SchedLm.Library.Grouping
import SchedLm.Library.Semaphore

/-!
The live replay: one task per session, a semaphore that bounds how many of them
run, and one result for all. The event loop runs one task at a time, from one
wait to the next; which of them, when, and what the backend answers is anybody's
choice. The clock stands still while a task runs. The transport fails with an
`aiohttp.ClientError` only: nothing catches an `asyncio.TimeoutError`, so it would
end the whole replay.
-/

namespace SchedLm.Bench

open Sim

variable {K : Type}

/-- The turns of one session. There is none without a turn. -/
abbrev Conversation (K : Type) := Grouping.Group (GeneratedTurn K)

def Conversation.sorted (c : Conversation K) : Conversation K where
  items := c.items.mergeSort fun a b => a.turnIdx ≤ b.turnIdx
  nonempty := by
    rw [Ne, ← List.length_eq_zero_iff, List.length_mergeSort, List.length_eq_zero_iff]
    exact c.nonempty

def Conversation.base (c : Conversation K) : K := (c.items.head c.nonempty).arrival

def bySession (requests : List (GeneratedTurn K)) : List (Conversation K) :=
  (Grouping.group GeneratedTurn.sessionId requests).entries.map fun entry =>
    Conversation.sorted entry.2

structure ReplayOptions where
  url : String
  route : String
  kvPriority : Option String := none

def ReplayOptions.request (o : ReplayOptions) (turn : GeneratedTurn K) : ChatRequest :=
  chatRequest o.url o.route turn.messages 50 o.kvPriority (some turn.sessionId)

structure Post (K : Type) where
  turn : GeneratedTurn K
  request : ChatRequest
  start : K

structure Exchange (K : Type) where
  post : Post K
  answer : Behaviour K
  finished : K

/-- Where the task of a session waits: to run at all, for a permit, to run with
the permit it was handed, for its next turn, for an answer, or for its HTTP
session to close. -/
inductive Stage (K : Type) where
  | created
  | waiting
  | granted
  | sleeping (start deadline : K) (turn : GeneratedTurn K) (left : List (GeneratedTurn K))
  | chatting (start : K) (post : Post K) (chat : Chat K) (left : List (GeneratedTurn K))
  | closing
  | finished

structure Task (K : Type) where
  stage : Stage K := .created
  past : List (Exchange K) := []

structure Replay (K : Type) where
  now : K
  sem : Semaphore ℕ
  result : BenchmarkResult K
  task : ℕ → Task K

/-- Time passes, a task goes on, or the transport hands something to its request. -/
inductive ReplayEvent (K : Type) where
  | tick (elapsed : K)
  | run (i : ℕ)
  | deliver (i : ℕ) (d : Delivery)

namespace Replay

/-- `asyncio.Semaphore` takes no negative number. -/
def begin (concurrency : ℤ) (now : K) : Except String (Replay K) :=
  if concurrency < 0 then .error "Semaphore initial value must be >= 0"
  else .ok ⟨now, ⟨concurrency.toNat, []⟩, {}, fun _ => {}⟩

def setTask (s : Replay K) (i : ℕ) (task : Task K) : Replay K :=
  { s with task := Function.update s.task i task }

def setStage (s : Replay K) (i : ℕ) (stage : Stage K) : Replay K :=
  s.setTask i { s.task i with stage := stage }

def share (s : Replay K) (new : List (Effect K)) : Replay K :=
  { s with result := new.foldl Effect.apply s.result }

def leave (s : Replay K) (i : ℕ) : Replay K :=
  match s.sem.release with
  | (sem, none) => { s with sem := sem }.setStage i .finished
  | (sem, some j) => ({ s with sem := sem }.setStage i .finished).setStage j .granted

variable [Scalar K] (o : ReplayOptions)

def onward (now start base : K) : List (GeneratedTurn K) → Stage K
  | [] => .closing
  | turn :: left =>
    let delay := (turn.arrival - base) - (now - start)
    if 0 < delay then .sleeping start (now + delay) turn left
    else .chatting start ⟨turn, o.request turn, now⟩ .posting left

/-- `run_one` with its permit. -/
def enter (s : Replay K) (i : ℕ) (c : Conversation K) : Replay K :=
  s.setStage i (onward o s.now s.now c.base c.items)

/-- The request of a task goes on, and the task with it if it has its answer. -/
def hear (s : Replay K) (i : ℕ) (c : Conversation K) (start : K) (post : Post K) (chat : Chat K)
    (left : List (GeneratedTurn K)) (d : Delivery) : Option (Replay K) :=
  match chat.resume post.start s.now d with
  | none => none
  | some (.returned answer, new) =>
    some ((s.share new).setTask i {
      stage := onward o s.now start c.base left
      past := (s.task i).past ++ [Exchange.mk post answer s.now] })
  | some (chat, new) =>
    some ((s.share new).setStage i
      (.chatting start post chat left))

def step (sessions : List (Conversation K)) (s : Replay K) : ReplayEvent K → Option (Replay K)
  | .tick elapsed => if 0 ≤ elapsed then some { s with now := s.now + elapsed } else none
  | .run i =>
    match sessions[i]? with
    | none => none
    | some c =>
      match (s.task i).stage with
      | .created =>
        match s.sem.acquire i with
        | (sem, true) => some ({ s with sem := sem }.enter o i c)
        | (sem, false) => some ({ s with sem := sem }.setStage i .waiting)
      | .granted => some (s.enter o i c)
      | .sleeping start deadline turn left =>
        if deadline ≤ s.now then
          some (s.setStage i (.chatting start ⟨turn, o.request turn, s.now⟩ .posting left))
        else none
      | .closing => some (s.leave i)
      | _ => none
  | .deliver i d =>
    match sessions[i]? with
    | none => none
    | some c =>
      match (s.task i).stage with
      | .chatting start post chat left => s.hear o i c start post chat left d
      | _ => none

def run (sessions : List (Conversation K)) (s : Replay K) (events : List (ReplayEvent K)) :
    Option (Replay K) :=
  events.foldlM (step o sessions) s

end Replay

end SchedLm.Bench
