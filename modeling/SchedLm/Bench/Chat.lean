import SchedLm.Bench.Traffic
import SchedLm.Library.Interleave

/-!
`_stream_chat` as the event loop sees it: a coroutine that waits for the
transport, and between two waits does something to the result that all requests
share. Left alone it is `streamChat`; among others, it does the same things.
-/

namespace SchedLm.Bench

open BenchmarkResult

variable {K : Type}

inductive Effect (K : Type) where
  | error (reason : String)
  | firstToken (ttft : K)
  | success (e2e : K)

def Effect.apply (r : BenchmarkResult K) : Effect K → BenchmarkResult K
  | .error reason => r.recordError reason
  | .firstToken ttft => { r with ttfts := r.ttfts ++ [ttft] }
  | .success e2e =>
    { r with e2eLatencies := r.e2eLatencies ++ [e2e], successes := r.successes + 1 }

/-- What a waiting request is handed by the transport. -/
inductive Delivery where
  | refused (e : ClientError)
  | responded (status : ℤ)
  | line (bytes : List UInt8)
  | ended
  | brokenOff (e : ClientError)
  | released (raised : Option ClientError)

/-- Where `_stream_chat` waits: for the response, for a line of its body, or for
the response to be let go of, with what it has read by then. A request that has
returned knows the whole answer it was given. -/
inductive Chat (K : Type) where
  | posting
  | reading (ttft : Option K) (heard : List (Line K))
  | leaving (raised : Option ClientError) (status : ℤ) (heard : List (Line K))
      (ending : Except ClientError K)
  | returned (answer : Behaviour K)

def handled : Option ClientError → List (Effect K)
  | none => []
  | some .payload => [.error "load shed (stream reset)"]
  | some (.other typeName) => [.error s!"transport ({typeName})"]

def statusReason (status : ℤ) : String :=
  if status = 503 then "load shed (503)" else s!"http {status}"

section

variable [Sub K]

/-- From one wait to the next, with the clock at the time. -/
def Chat.resume (start now : K) : Chat K → Delivery → Option (Chat K × List (Effect K))
  | .posting, .refused e => some (.returned (.unreachable e), handled (some e))
  | .posting, .responded status =>
    if status ≠ 200 then some (.leaving none status [] (.ok now), [.error (statusReason status)])
    else some (.reading none [], [])
  | .reading ttft heard, .line bytes =>
    let line : Line K := ⟨bytes, now⟩
    if line.isError then
      some (.leaving none 200 (heard ++ [line]) (.ok now), [.error "in-stream error"])
    else if bytes ≠ [] ∧ ttft.isNone then
      some (.reading (some (now - start)) (heard ++ [line]), [.firstToken (now - start)])
    else some (.reading ttft (heard ++ [line]), [])
  | .reading _ heard, .ended =>
    some (.leaving none 200 heard (.ok now), [.success (now - start)])
  | .reading _ heard, .brokenOff e => some (.leaving (some e) 200 heard (.error e), [])
  | .leaving raised status heard ending, .released release =>
    some (.returned (.answers status heard ending release), handled (release <|> raised))
  | _, _ => none

/-- What is done in the `async with` block, and what it raises. -/
def blockEffects (start : K) (status : ℤ) (lines : List (Line K))
    (ending : Except ClientError K) : List (Effect K) × Option ClientError :=
  if status ≠ 200 then ([.error (statusReason status)], none)
  else
    let first := (newTtft start none lines).toList.map Effect.firstToken
    if lines.any Line.isError then (first ++ [.error "in-stream error"], none)
    else
      match ending with
      | .error e => (first, some e)
      | .ok finished => (first ++ [.success (finished - start)], none)

def Behaviour.effects (start : K) : Behaviour K → List (Effect K)
  | .unreachable e => handled (some e)
  | .answers status lines ending release =>
    let (done, raised) := blockEffects start status lines ending
    done ++ handled (release <|> raised)

def Chat.made (start : K) : Chat K → List (Effect K)
  | .posting => []
  | .reading ttft _ => ttft.toList.map Effect.firstToken
  | .leaving _ status heard ending => (blockEffects start status heard ending).1
  | .returned answer => answer.effects start

/-- What a request knows while it waits is what it has heard. -/
def Chat.Faithful (start : K) : Chat K → Prop
  | .posting | .returned _ => True
  | .reading ttft heard => heard.any Line.isError = false ∧ ttft = newTtft start none heard
  | .leaving raised status heard ending => raised = (blockEffects start status heard ending).2

omit [Sub K] in
theorem foldl_handled (r : BenchmarkResult K) (e : Option ClientError) :
    (handled e).foldl Effect.apply r = handleError r e := by
  rcases e with _ | (_ | _) <;> rfl

omit [Sub K] in
private theorem foldl_firstToken (r : BenchmarkResult K) (ttft : Option K) :
    (ttft.toList.map Effect.firstToken).foldl Effect.apply r = r.addTtft ttft := by
  cases ttft with
  | none => simp [addTtft]
  | some t => rfl

private theorem foldl_blockEffects (start : K) (status : ℤ) (lines : List (Line K))
    (ending : Except ClientError K) (r : BenchmarkResult K) :
    readResponse start status lines ending r =
      ((blockEffects start status lines ending).1.foldl Effect.apply r,
        (blockEffects start status lines ending).2) := by
  unfold readResponse blockEffects
  by_cases hstatus : status ≠ 200
  · rw [if_pos hstatus, if_pos hstatus]
    rfl
  · rw [if_neg hstatus, if_neg hstatus, readLines_eq]
    dsimp only
    split_ifs with herror
    · rw [List.foldl_append, foldl_firstToken]
      rfl
    · cases ending with
      | error e => rw [foldl_firstToken]
      | ok finished =>
        rw [List.foldl_append, foldl_firstToken]
        rfl

/-- The effects of an answer are what `streamChat` makes of it. -/
theorem streamChat_eq_foldl (answer : Behaviour K) (url route : String)
    (messages : List Sim.ChatMessage) (r : BenchmarkResult K) (start : K) (maxTokens : ℤ)
    (kvPriority : Option String) (sessionId : Option ℤ) :
    streamChat (fun _ => answer) url route messages r start maxTokens kvPriority sessionId =
      (answer.effects start).foldl Effect.apply r := by
  unfold streamChat Behaviour.effects
  cases answer with
  | unreachable e => exact (foldl_handled r (some e)).symm
  | answers status lines ending release =>
    dsimp only
    rw [foldl_blockEffects, List.foldl_append, foldl_handled]

omit [Sub K] in
private theorem forall_quiet {heard : List (Line K)} (hquiet : heard.any Line.isError = false) :
    ∀ line ∈ heard, (!line.isError) = true := by
  intro line hline
  rw [List.any_eq_false] at hquiet
  simpa using hquiet line hline

/-- Nothing is cut off what has been heard without an error. -/
theorem newTtft_of_quiet (start : K) {heard : List (Line K)}
    (hquiet : heard.any Line.isError = false) :
    newTtft start none heard = firstChunk start heard := by
  have hself : Bench.heard heard = heard :=
    List.takeWhile_eq_self_iff.mpr (forall_quiet hquiet)
  simp only [newTtft, Option.isNone_none, if_true, hself]

private theorem newTtft_append_error (start : K) {heard : List (Line K)}
    (hquiet : heard.any Line.isError = false) {line : Line K} (herror : line.isError = true) :
    newTtft start none (heard ++ [line]) = firstChunk start heard := by
  have hcut : Bench.heard (heard ++ [line]) = heard := by
    unfold Bench.heard
    rw [List.takeWhile_append_of_pos (forall_quiet hquiet)]
    simp [herror]
  simp only [newTtft, Option.isNone_none, if_true, hcut]

private theorem firstChunk_append (start : K) (heard : List (Line K)) (line : Line K) :
    firstChunk start (heard ++ [line]) =
      (firstChunk start heard <|> if line.bytes ≠ [] then some (line.now - start) else none) := by
  unfold firstChunk
  rw [List.find?_append]
  cases List.find? (fun line : Line K => line.bytes ≠ []) heard with
  | some first => rfl
  | none => by_cases hbytes : line.bytes = [] <;> simp [hbytes]

private theorem resume_line {start now : K} {chat' : Chat K} {ttft : Option K}
    {heard : List (Line K)} {bytes : List UInt8} {new : List (Effect K)}
    (hfaithful : (Chat.reading ttft heard).Faithful start)
    (hresume : (Chat.reading ttft heard).resume start now (.line bytes) = some (chat', new)) :
    chat'.Faithful start ∧
      chat'.made start = (Chat.reading ttft heard).made start ++ new := by
  obtain ⟨hquiet, hfirst⟩ := hfaithful
  rw [newTtft_of_quiet start hquiet] at hfirst
  subst hfirst
  unfold Chat.resume at hresume
  dsimp only at hresume
  by_cases herror : (⟨bytes, now⟩ : Line K).isError = true
  · have hany : (heard ++ [(⟨bytes, now⟩ : Line K)]).any Line.isError = true := by simp [herror]
    rw [if_pos herror] at hresume
    obtain ⟨rfl, rfl⟩ := Prod.mk.inj (Option.some.inj hresume)
    simp only [Chat.Faithful, Chat.made, blockEffects, ne_eq, not_true_eq_false, if_false, hany,
      if_true, newTtft_append_error start hquiet herror, true_and]
  · have hany : (heard ++ [(⟨bytes, now⟩ : Line K)]).any Line.isError = false := by
      simp [herror, hquiet]
    rw [if_neg herror] at hresume
    split_ifs at hresume with hbytes
    · obtain ⟨rfl, rfl⟩ := Prod.mk.inj (Option.some.inj hresume)
      have hnone := Option.isNone_iff_eq_none.mp hbytes.2
      simp [Chat.Faithful, Chat.made, hany, newTtft_of_quiet start hany, firstChunk_append,
        hnone, hbytes.1]
    · obtain ⟨rfl, rfl⟩ := Prod.mk.inj (Option.some.inj hresume)
      have hsame : firstChunk start (heard ++ [(⟨bytes, now⟩ : Line K)]) =
          firstChunk start heard := by
        rw [firstChunk_append]
        cases hchunk : firstChunk start heard with
        | some t => rfl
        | none =>
          have hempty : bytes = [] := by
            by_contra hne
            exact hbytes ⟨hne, by rw [hchunk]; rfl⟩
          simp [hempty]
      simp [Chat.Faithful, Chat.made, hany, newTtft_of_quiet start hany, hsame]

/-- From one wait to the next, a request does to the shared result what its answer so
far adds, and it still knows just what it has heard. -/
theorem Chat.resume_spec {start now : K} {chat chat' : Chat K} {d : Delivery}
    {new : List (Effect K)} (hfaithful : chat.Faithful start)
    (hresume : chat.resume start now d = some (chat', new)) :
    chat'.Faithful start ∧ chat'.made start = chat.made start ++ new := by
  cases chat with
  | posting =>
    cases d with
    | refused e =>
      obtain ⟨rfl, rfl⟩ := Prod.mk.inj (Option.some.inj hresume)
      exact ⟨True.intro, rfl⟩
    | responded status =>
      unfold Chat.resume at hresume
      dsimp only at hresume
      split_ifs at hresume with hstatus
      · obtain ⟨rfl, rfl⟩ := Prod.mk.inj (Option.some.inj hresume)
        simp [Chat.Faithful, Chat.made, blockEffects, hstatus]
      · obtain ⟨rfl, rfl⟩ := Prod.mk.inj (Option.some.inj hresume)
        exact ⟨⟨rfl, rfl⟩, rfl⟩
    | _ => cases hresume
  | reading ttft heard =>
    cases d with
    | line bytes => exact resume_line hfaithful hresume
    | ended =>
      obtain ⟨rfl, rfl⟩ := Prod.mk.inj (Option.some.inj hresume)
      simp [Chat.Faithful, Chat.made, blockEffects, hfaithful.1, hfaithful.2]
    | brokenOff e =>
      obtain ⟨rfl, rfl⟩ := Prod.mk.inj (Option.some.inj hresume)
      simp [Chat.Faithful, Chat.made, blockEffects, hfaithful.1, hfaithful.2]
    | _ => cases hresume
  | leaving raised status heard ending =>
    cases d with
    | released release =>
      obtain ⟨rfl, rfl⟩ := Prod.mk.inj (Option.some.inj hresume)
      change raised = (blockEffects start status heard ending).2 at hfaithful
      subst hfaithful
      exact ⟨True.intro, rfl⟩
    | _ => cases hresume
  | returned answer => cases d <;> cases hresume

def Chat.rank : Chat K → ℕ
  | .posting => 3
  | .reading .. => 2
  | .leaving .. => 1
  | .returned _ => 0

/-- A line that is read brings a request no nearer to its end. -/
def Delivery.counts : Delivery → Bool
  | .line _ => false
  | _ => true

theorem Chat.rank_resume {start now : K} {chat chat' : Chat K} {d : Delivery}
    {new : List (Effect K)} (h : chat.resume start now d = some (chat', new)) :
    chat'.rank + d.counts.toNat ≤ chat.rank := by
  unfold Chat.resume at h
  dsimp only at h
  split at h
  next e =>
    obtain ⟨rfl, -⟩ := Prod.mk.inj (Option.some.inj h)
    simp [Chat.rank, Delivery.counts]
  next status =>
    split_ifs at h with hstatus
    · obtain ⟨rfl, -⟩ := Prod.mk.inj (Option.some.inj h)
      simp [Chat.rank, Delivery.counts]
    · obtain ⟨rfl, -⟩ := Prod.mk.inj (Option.some.inj h)
      simp [Chat.rank, Delivery.counts]
  next ttft heard bytes =>
    split_ifs at h with herror hbytes
    · obtain ⟨rfl, -⟩ := Prod.mk.inj (Option.some.inj h)
      simp [Chat.rank, Delivery.counts]
    · obtain ⟨rfl, -⟩ := Prod.mk.inj (Option.some.inj h)
      simp [Chat.rank, Delivery.counts]
    · obtain ⟨rfl, -⟩ := Prod.mk.inj (Option.some.inj h)
      simp [Chat.rank, Delivery.counts]
  next ttft heard =>
    obtain ⟨rfl, -⟩ := Prod.mk.inj (Option.some.inj h)
    simp [Chat.rank, Delivery.counts]
  next ttft heard e =>
    obtain ⟨rfl, -⟩ := Prod.mk.inj (Option.some.inj h)
    simp [Chat.rank, Delivery.counts]
  next raised status heard ending release =>
    obtain ⟨rfl, -⟩ := Prod.mk.inj (Option.some.inj h)
    simp [Chat.rank, Delivery.counts]
  next => cases h

theorem Chat.exists_resume (start now : K) {chat : Chat K} (h : ∀ answer, chat ≠ .returned answer) :
    ∃ d chat' new, d.counts = true ∧ chat.resume start now d = some (chat', new) := by
  cases chat with
  | posting => exact ⟨.refused .payload, _, _, rfl, rfl⟩
  | reading ttft heard => exact ⟨.ended, _, _, rfl, rfl⟩
  | leaving raised status heard ending => exact ⟨.released none, _, _, rfl, rfl⟩
  | returned answer => exact absurd rfl (h answer)

end

/-- The same result but for the order in which the latencies came in. -/
structure BenchmarkResult.Agrees (r r' : BenchmarkResult K) : Prop where
  ttfts : r.ttfts.Perm r'.ttfts
  e2eLatencies : r.e2eLatencies.Perm r'.e2eLatencies
  successes : r.successes = r'.successes
  errors : r.errors = r'.errors
  reasons : ∀ reason, r.errorReasons.lookup reason = r'.errorReasons.lookup reason

namespace BenchmarkResult.Agrees

theorem refl (r : BenchmarkResult K) : r.Agrees r :=
  ⟨List.Perm.refl _, List.Perm.refl _, rfl, rfl, fun _ => rfl⟩

theorem symm {r r' : BenchmarkResult K} (h : r.Agrees r') : r'.Agrees r :=
  ⟨h.ttfts.symm, h.e2eLatencies.symm, h.successes.symm, h.errors.symm,
    fun reason => (h.reasons reason).symm⟩

theorem trans {r r' r'' : BenchmarkResult K} (h : r.Agrees r') (h' : r'.Agrees r'') :
    r.Agrees r'' :=
  ⟨h.ttfts.trans h'.ttfts, h.e2eLatencies.trans h'.e2eLatencies,
    h.successes.trans h'.successes, h.errors.trans h'.errors,
    fun reason => (h.reasons reason).trans (h'.reasons reason)⟩

theorem recordError {r r' : BenchmarkResult K} (h : r.Agrees r') (reason : String) :
    (r.recordError reason).Agrees (r'.recordError reason) := by
  refine ⟨h.ttfts, h.e2eLatencies, h.successes, congrArg (· + 1) h.errors, fun other => ?_⟩
  unfold BenchmarkResult.recordError
  dsimp only
  rcases eq_or_ne other reason with rfl | hne
  · rw [OrderedDict.lookup_setItem, OrderedDict.lookup_setItem, h.reasons]
  · rw [OrderedDict.lookup_setItem_ne hne, OrderedDict.lookup_setItem_ne hne, h.reasons]

theorem recordError_swap (r : BenchmarkResult K) (first second : String) :
    ((r.recordError first).recordError second).Agrees
      ((r.recordError second).recordError first) := by
  refine ⟨List.Perm.refl _, List.Perm.refl _, rfl, rfl, fun other => ?_⟩
  unfold BenchmarkResult.recordError
  dsimp only
  rcases eq_or_ne first second with rfl | hne
  · rfl
  · rcases eq_or_ne other first with rfl | hfirst
    · rw [OrderedDict.lookup_setItem_ne hne, OrderedDict.lookup_setItem,
        OrderedDict.lookup_setItem, OrderedDict.lookup_setItem_ne hne]
    · rw [OrderedDict.lookup_setItem_ne hfirst]
      rcases eq_or_ne other second with rfl | hsecond
      · rw [OrderedDict.lookup_setItem, OrderedDict.lookup_setItem,
          OrderedDict.lookup_setItem_ne hfirst]
      · rw [OrderedDict.lookup_setItem_ne hsecond, OrderedDict.lookup_setItem_ne hfirst,
          OrderedDict.lookup_setItem_ne hsecond]

end BenchmarkResult.Agrees

theorem Effect.apply_congr {r r' : BenchmarkResult K} (e : Effect K) (h : r.Agrees r') :
    (e.apply r).Agrees (e.apply r') := by
  cases e with
  | error reason => exact h.recordError reason
  | firstToken ttft => exact { h with ttfts := h.ttfts.append_right [ttft] }
  | success e2e =>
    exact { h with
      e2eLatencies := h.e2eLatencies.append_right [e2e]
      successes := congrArg (· + 1) h.successes }

private theorem append_swap (xs : List K) (a b : K) :
    (xs ++ [a] ++ [b]).Perm (xs ++ [b] ++ [a]) := by
  rw [List.append_assoc, List.append_assoc]
  exact (List.Perm.swap b a []).append_left xs

theorem Effect.apply_swap (r : BenchmarkResult K) (a b : Effect K) :
    (b.apply (a.apply r)).Agrees (a.apply (b.apply r)) := by
  cases a with
  | error first =>
    cases b with
    | error second => exact .recordError_swap r first second
    | firstToken ttft => exact .refl _
    | success e2e => exact .refl _
  | firstToken ttft =>
    cases b with
    | error reason => exact .refl _
    | firstToken ttft' => exact { Agrees.refl _ with ttfts := append_swap r.ttfts ttft ttft' }
    | success e2e => exact .refl _
  | success e2e =>
    cases b with
    | error reason => exact .refl _
    | firstToken ttft => exact .refl _
    | success e2e' =>
      exact { Agrees.refl _ with e2eLatencies := append_swap r.e2eLatencies e2e e2e' }

/-- What requests do to the result they share can be done in any order, up to the order
of the latencies. -/
theorem commuting_apply :
    Interleave.Commuting (@Effect.apply K) BenchmarkResult.Agrees where
  equivalence := ⟨.refl, .symm, .trans⟩
  congr := fun e h => e.apply_congr h
  swap := Effect.apply_swap

end SchedLm.Bench
