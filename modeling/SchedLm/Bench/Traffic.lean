import Mathlib.Data.List.TakeWhile
import SchedLm.Library.OrderedDict
import SchedLm.Sim.Generator

/-!
One live request of the benchmark client: what is posted, how the streamed
answer is read line by line, and what a run keeps of it. The backend, the
transport and the clock are in the `Behaviour` of the answer.
-/

namespace SchedLm.Bench

open Sim

variable {K : Type}

structure BenchmarkResult (K : Type) where
  ttfts : List K := []
  e2eLatencies : List K := []
  successes : ℕ := 0
  errors : ℕ := 0
  errorReasons : OrderedDict String ℕ := ∅

def BenchmarkResult.recordError (r : BenchmarkResult K) (reason : String) : BenchmarkResult K :=
  { r with
    errors := r.errors + 1
    errorReasons := OrderedDict.setItem r.errorReasons reason
      ((r.errorReasons.lookup reason).getD 0 + 1) }

def BenchmarkResult.tally (r : BenchmarkResult K) : ℕ :=
  OrderedDict.total (fun n => n) r.errorReasons

def routeHeader : String := "x-llmd-route"

def kvCachePriorityHeader : String := "x-kv-cache-priority"

def sessionHeader : String := "x-session-id"

structure ChatRequest where
  url : String
  model : String := "Qwen/Qwen2-0.5B"
  messages : List ChatMessage
  stream : Bool := true
  maxTokens : ℤ
  headers : List (String × String)

def chatRequest (url route : String) (messages : List ChatMessage) (maxTokens : ℤ)
    (kvPriority : Option String) (sessionId : Option ℤ) : ChatRequest where
  url := url
  messages := messages
  maxTokens := maxTokens
  headers := [(routeHeader, route)] ++
    (kvPriority.map fun value => (kvCachePriorityHeader, value)).toList ++
    (sessionId.map fun sid => (sessionHeader, toString sid)).toList

/-- An `aiohttp.ClientError`: a body that was cut off, or another by the name of
its type. -/
inductive ClientError where
  | payload
  | other (typeName : String)
  deriving DecidableEq, Repr

structure Line (K : Type) where
  bytes : List UInt8
  now : K

/-- What comes of a posted request: an error before there is a response, or a
response with a status and the lines of its body. The body ends, with the clock
at that time, or breaks off. Letting go of the response may raise as well. -/
inductive Behaviour (K : Type) where
  | unreachable (e : ClientError)
  | answers (status : ℤ) (lines : List (Line K)) (ending : Except ClientError K)
      (release : Option ClientError)

/-- `data: {"error"`, in bytes. -/
def errorMarker : List UInt8 :=
  [0x64, 0x61, 0x74, 0x61, 0x3a, 0x20, 0x7b, 0x22, 0x65, 0x72, 0x72, 0x6f, 0x72, 0x22]

def Line.isError (line : Line K) : Bool := errorMarker.isPrefixOf line.bytes

section

variable [Sub K]

/-- The loop over the body: the first line that is not empty gives the time to
first token, and an error object ends the loop. Whether it got to the end. -/
def readLines (start : K) :
    Option K → List (Line K) → BenchmarkResult K → BenchmarkResult K × Bool
  | _, [], r => (r, true)
  | ttft, line :: rest, r =>
    if line.isError then (r.recordError "in-stream error", false)
    else if line.bytes ≠ [] ∧ ttft.isNone then
      readLines start (some (line.now - start)) rest
        { r with ttfts := r.ttfts ++ [line.now - start] }
    else readLines start ttft rest r

/-- The body of the `async with` block, and what it raises. -/
def readResponse (start : K) (status : ℤ) (lines : List (Line K)) (ending : Except ClientError K)
    (r : BenchmarkResult K) : BenchmarkResult K × Option ClientError :=
  if status ≠ 200 then
    (r.recordError (if status = 503 then "load shed (503)" else s!"http {status}"), none)
  else
    match readLines start none lines r with
    | (r, false) => (r, none)
    | (r, true) =>
      match ending with
      | .error e => (r, some e)
      | .ok finished =>
        ({ r with
          e2eLatencies := r.e2eLatencies ++ [finished - start]
          successes := r.successes + 1 }, none)

/-- The two `except` clauses. -/
def handleError (r : BenchmarkResult K) : Option ClientError → BenchmarkResult K
  | none => r
  | some .payload => r.recordError "load shed (stream reset)"
  | some (.other typeName) => r.recordError s!"transport ({typeName})"

/-- `_stream_chat`. An error on release takes the place of one from the block. -/
def streamChat (post : ChatRequest → Behaviour K) (url route : String)
    (messages : List ChatMessage) (r : BenchmarkResult K) (start : K) (maxTokens : ℤ := 50)
    (kvPriority : Option String := none) (sessionId : Option ℤ := none) : BenchmarkResult K :=
  match post (chatRequest url route messages maxTokens kvPriority sessionId) with
  | .unreachable e => handleError r (some e)
  | .answers status lines ending release =>
    let (r, raised) := readResponse start status lines ending r
    handleError r (release <|> raised)

end

namespace BenchmarkResult

@[simp] theorem tally_recordError (r : BenchmarkResult K) (reason : String) :
    (r.recordError reason).tally = r.tally + 1 := by
  apply OrderedDict.total_setItem
  cases r.errorReasons.lookup reason <;> rfl

/-- One request is counted once, the tally of reasons stays that of the errors,
and the two lists grow by one entry each on success and not at all on error. -/
structure Accounted (r r' : BenchmarkResult K) : Prop where
  counted : r'.successes + r'.errors = r.successes + r.errors + 1
  tallied : r.errors = r.tally → r'.errors = r'.tally
  failed : r.errors < r'.errors → r'.ttfts = r.ttfts ∧ r'.e2eLatencies = r.e2eLatencies
  served : r.successes < r'.successes →
    (∃ ttft, r'.ttfts = r.ttfts ++ [ttft]) ∧ ∃ e2e, r'.e2eLatencies = r.e2eLatencies ++ [e2e]

def addTtft (r : BenchmarkResult K) (ttft : Option K) : BenchmarkResult K :=
  { r with ttfts := r.ttfts ++ ttft.toList }

/-- A failure is accounted for when no first token came before it; after one, the list
of first tokens has an entry too many. -/
theorem accounted_recordError (r : BenchmarkResult K) (ttft : Option K) (reason : String) :
    Accounted r ((r.addTtft ttft).recordError reason) ↔ ttft = none := by
  constructor
  · intro h
    obtain ⟨hsame, -⟩ := h.failed (Nat.lt_succ_self _)
    have hnone : ttft.toList = [] := List.append_right_eq_self.mp hsame
    exact Option.toList_eq_nil_iff.mp hnone
  · rintro rfl
    refine ⟨?_, fun htally => ?_, fun _ => ?_, fun hless => ?_⟩
    · simp [recordError, addTtft, add_assoc]
    · rw [tally_recordError]
      exact congrArg (· + 1) htally
    · exact ⟨List.append_nil _, rfl⟩
    · exact absurd hless (lt_irrefl _)

theorem accounted_success (r : BenchmarkResult K) (ttft : Option K) (e2e : K) :
    Accounted r { r.addTtft ttft with
      e2eLatencies := r.e2eLatencies ++ [e2e]
      successes := r.successes + 1 } ↔ ttft ≠ none := by
  constructor
  · rintro h rfl
    obtain ⟨⟨t, ht⟩, -⟩ := h.served (Nat.lt_succ_self _)
    simp [addTtft] at ht
  · intro hsome
    obtain ⟨t, rfl⟩ := Option.ne_none_iff_exists'.mp hsome
    refine ⟨by simp [addTtft]; omega, fun htally => htally, fun hless => ?_, fun _ => ?_⟩
    · exact absurd hless (lt_irrefl _)
    · exact ⟨⟨t, rfl⟩, ⟨e2e, rfl⟩⟩

theorem not_accounted {r r' : BenchmarkResult K}
    (h : r.successes + r.errors + 1 < r'.successes + r'.errors) : ¬Accounted r r' :=
  fun hr => h.ne' hr.counted

end BenchmarkResult

open BenchmarkResult

variable [Sub K]

def heard (lines : List (Line K)) : List (Line K) := lines.takeWhile fun line => !line.isError

def firstChunk (start : K) (lines : List (Line K)) : Option K :=
  (lines.find? fun line => line.bytes ≠ []).map fun line => line.now - start

theorem firstChunk_eq_none {start : K} {lines : List (Line K)} :
    firstChunk start lines = none ↔ ∀ line ∈ lines, line.bytes = [] := by
  simp [firstChunk]

/-- What the loop adds to the list: the first chunk it hears, if it has none. -/
def newTtft (start : K) (ttft : Option K) (lines : List (Line K)) : Option K :=
  if ttft.isNone then firstChunk start (heard lines) else none

/-- The loop keeps the time of the first chunk, and stops at an error object. -/
theorem readLines_eq (start : K) (ttft : Option K) (lines : List (Line K))
    (r : BenchmarkResult K) :
    readLines start ttft lines r =
      if lines.any Line.isError then
        ((r.addTtft (newTtft start ttft lines)).recordError "in-stream error", false)
      else (r.addTtft (newTtft start ttft lines), true) := by
  induction lines generalizing ttft r with
  | nil => cases ttft <;> simp [readLines, newTtft, heard, firstChunk, addTtft]
  | cons line rest ih =>
    unfold readLines
    by_cases herror : line.isError = true
    · rw [if_pos herror]
      simp [newTtft, heard, herror, firstChunk, addTtft]
    · have hheard : heard (line :: rest) = line :: heard rest :=
        List.takeWhile_cons_of_pos (by simp [herror])
      have hany : (line :: rest).any Line.isError = rest.any Line.isError := by simp [herror]
      rw [if_neg herror, hany]
      by_cases hfirst : line.bytes ≠ [] ∧ ttft.isNone = true
      · obtain ⟨hbytes, hnone⟩ := hfirst
        have hadd : r.addTtft (newTtft start ttft (line :: rest)) =
            BenchmarkResult.addTtft { r with ttfts := r.ttfts ++ [line.now - start] }
              (newTtft start (some (line.now - start)) rest) := by
          simp [newTtft, hnone, hheard, firstChunk, hbytes, addTtft]
        rw [if_pos ⟨hbytes, hnone⟩, ih, hadd]
      · have hsame : newTtft start ttft (line :: rest) = newTtft start ttft rest := by
          unfold newTtft
          split_ifs with hnone
          · have hempty : line.bytes = [] := by
              by_contra hbytes
              exact hfirst ⟨hbytes, hnone⟩
            simp [hheard, firstChunk, hempty]
          · rfl
        rw [if_neg hfirst, ih, hsame]

/-- The answers that a request accounts for: none at all; a refusal; one that
fails before its first chunk; or one that ends after a chunk. Letting go of the
response raises nothing, unless it takes the place of an error that is there. -/
def Behaviour.Clean : Behaviour K → Prop
  | .unreachable _ => True
  | .answers status lines ending release =>
    if status ≠ 200 then release = none
    else if lines.any Line.isError then
      release = none ∧ ∀ line ∈ heard lines, line.bytes = []
    else
      match ending with
      | .error _ => ∀ line ∈ lines, line.bytes = []
      | .ok _ => release = none ∧ ∃ line ∈ lines, line.bytes ≠ []

omit [Sub K] in
theorem exists_handleError (r : BenchmarkResult K) (e : ClientError) :
    ∃ reason, handleError r (some e) = r.recordError reason := by
  cases e with
  | payload => exact ⟨_, rfl⟩
  | other typeName => exact ⟨_, rfl⟩

omit [Sub K] in
/-- An error that has been counted stands alone when none is raised on release. -/
theorem accounted_release (r : BenchmarkResult K) (ttft : Option K) (reason : String)
    (release : Option ClientError) :
    Accounted r (handleError ((r.addTtft ttft).recordError reason) release) ↔
      release = none ∧ ttft = none := by
  cases release with
  | none => simp only [handleError, accounted_recordError, true_and]
  | some e =>
    obtain ⟨another, hanother⟩ := exists_handleError ((r.addTtft ttft).recordError reason) e
    rw [hanother]
    have htwice : ¬Accounted r (((r.addTtft ttft).recordError reason).recordError another) := by
      apply not_accounted
      simp only [recordError, addTtft]
      omega
    simp [htwice]

private theorem forall_empty_iff (start : K) {lines : List (Line K)}
    (hquiet : lines.any Line.isError = false) :
    newTtft start none lines = none ↔ ∀ line ∈ lines, line.bytes = [] := by
  have hall : heard lines = lines :=
    List.takeWhile_eq_self_iff.mpr fun line hline => by
      rw [List.any_eq_false] at hquiet
      simpa using hquiet line hline
  have hfirst : newTtft start none lines = firstChunk start lines := by
    rw [newTtft, hall]
    rfl
  rw [hfirst, firstChunk_eq_none]

/-- A body that breaks off: whichever error is handled, it is the only one. -/
theorem accounted_brokenOff (r : BenchmarkResult K) (start : K) {lines : List (Line K)}
    (hquiet : lines.any Line.isError = false) (release : Option ClientError) (e : ClientError) :
    Accounted r (handleError (r.addTtft (newTtft start none lines)) (release <|> some e)) ↔
      ∀ line ∈ lines, line.bytes = [] := by
  obtain ⟨last, hlast⟩ : ∃ last, (release <|> some e) = some last := by
    cases release with
    | none => exact ⟨e, rfl⟩
    | some e' => exact ⟨e', rfl⟩
  obtain ⟨reason, hreason⟩ := exists_handleError (r.addTtft (newTtft start none lines)) last
  rw [hlast, hreason, accounted_recordError, forall_empty_iff start hquiet]

/-- A body that ends: a success with its first chunk, unless an error on release
makes it a failure as well. -/
theorem accounted_ended (r : BenchmarkResult K) (start finished : K) {lines : List (Line K)}
    (hquiet : lines.any Line.isError = false) (release : Option ClientError) :
    Accounted r (handleError
      { r.addTtft (newTtft start none lines) with
        e2eLatencies := r.e2eLatencies ++ [finished - start]
        successes := r.successes + 1 } release) ↔
      release = none ∧ ∃ line ∈ lines, line.bytes ≠ [] := by
  cases release with
  | none =>
    have hchunk : newTtft start none lines ≠ none ↔ ∃ line ∈ lines, line.bytes ≠ [] := by
      rw [Ne, forall_empty_iff start hquiet]
      simp only [not_forall, exists_prop]
    rw [← hchunk, and_iff_right rfl]
    exact accounted_success r _ (finished - start)
  | some e =>
    obtain ⟨reason, hreason⟩ := exists_handleError
      { r.addTtft (newTtft start none lines) with
        e2eLatencies := r.e2eLatencies ++ [finished - start]
        successes := r.successes + 1 } e
    rw [hreason]
    apply iff_of_false
    · apply not_accounted
      simp only [recordError, addTtft]
      omega
    · rintro ⟨hnone, -⟩
      cases hnone

/-- A request is accounted for, whatever has been measured before, exactly when its
answer is clean. The answers are all there can be as far as the transport fails with an
`aiohttp.ClientError` only, before there is a response, in its body or on its release.
-/
theorem streamChat_accounted_iff (post : ChatRequest → Behaviour K) (url route : String)
    (messages : List Sim.ChatMessage) (r : BenchmarkResult K) (start : K) (maxTokens : ℤ)
    (kvPriority : Option String) (sessionId : Option ℤ) :
    Accounted r (streamChat post url route messages r start maxTokens kvPriority sessionId) ↔
      (post (chatRequest url route messages maxTokens kvPriority sessionId)).Clean := by
  have hempty : r.addTtft none = r := by
    unfold addTtft
    rw [Option.toList_none, List.append_nil]
  have hrelease : ∀ release : Option ClientError, (release <|> none) = release := by
    intro release
    cases release <;> rfl
  unfold streamChat
  cases post (chatRequest url route messages maxTokens kvPriority sessionId) with
  | unreachable e =>
    obtain ⟨reason, hreason⟩ := exists_handleError r e
    have haccounted := (accounted_recordError r none reason).mpr rfl
    rw [hempty] at haccounted
    dsimp only [Behaviour.Clean]
    rw [hreason]
    exact iff_true_intro haccounted
  | answers status lines ending release =>
    dsimp only [Behaviour.Clean]
    unfold readResponse
    by_cases hstatus : status ≠ 200
    · have haccounted := accounted_release r none
        (if status = 503 then "load shed (503)" else s!"http {status}") release
      rw [hempty] at haccounted
      rw [if_pos hstatus, if_pos hstatus]
      dsimp only
      rw [hrelease, haccounted, and_iff_left rfl]
    · rw [if_neg hstatus, if_neg hstatus, readLines_eq]
      by_cases herror : lines.any Line.isError = true
      · have hnone : newTtft start none lines = none ↔ ∀ line ∈ heard lines, line.bytes = [] :=
          firstChunk_eq_none
        rw [if_pos herror, if_pos herror]
        dsimp only
        rw [hrelease, accounted_release, hnone]
      · have hquiet : lines.any Line.isError = false := by simpa using herror
        rw [if_neg herror, if_neg herror]
        cases ending with
        | error e => exact accounted_brokenOff r start hquiet release e
        | ok finished =>
          dsimp only
          rw [hrelease]
          exact accounted_ended r start finished hquiet release

/-- A chunk, and then an error object in the stream: the failed request has left
a time to first token. -/
theorem streamChat_trace :
    ¬Accounted ({} : BenchmarkResult ℚ) (streamChat
      (fun _ => .answers 200 [⟨[0x64, 0x61, 0x74, 0x61, 0x3a, 0x0a], 1⟩, ⟨errorMarker, 2⟩]
        (.ok 2) none)
      "http://gateway" "round-robin" [] {} 0) := by
  intro h
  obtain ⟨httfts, -⟩ := h.failed (by decide)
  exact absurd httfts (by decide)

end SchedLm.Bench
