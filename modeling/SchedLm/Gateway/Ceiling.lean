import SchedLm.Gateway.SessionScope

/-!
The router as a ceiling. `PreRequest` settles precedence between its own
directive and a client's by their leading priorities; what a directive is worth
at an instant also depends on how long it lives. The backend that applies the
directives is taken at the word of the documented grammar: a malformed one is
ignored, a passed one is unmarked, and one without a time to live has whatever
lifetime the backend gives it.
-/

namespace SchedLm.Gateway

variable {K : Type} [Scalar K]

def kvCachePriorityHeader : String := "x-kv-cache-priority"

/-- Whether `PreRequest` leaves a client's header value as it is. -/
def keepsClient (existing directive : String) : Prop :=
  ∃ clientPriority, leadingPriority existing = some clientPriority ∧
    clientPriority ≤ priorityOf directive

instance (existing directive : String) : Decidable (keepsClient existing directive) :=
  match h : leadingPriority existing with
  | none => isFalse (by
      rintro ⟨clientPriority, hsome, -⟩
      rw [h] at hsome
      cases hsome)
  | some clientPriority =>
    if hle : clientPriority ≤ priorityOf directive then isTrue ⟨clientPriority, h, hle⟩
    else isFalse (by
      rintro ⟨other, hsome, hother⟩
      obtain rfl : clientPriority = other := Option.some.inj (h.symm.trans hsome)
      exact hle hother)

namespace KVCachePriority

/-- `PreRequest`: the request as it is forwarded, and what the plugin has
learned. -/
def preRequest (p : KVCachePriority K) (request : InferenceRequest) (now : Time) :
    InferenceRequest × KVCachePriority K :=
  match request.headers with
  | none => (request, p)
  | some headers =>
    match p.decide request now with
    | (none, p) => (request, p)
    | (some d, p) =>
      match headers.lookup kvCachePriorityHeader with
      | some existing =>
        if keepsClient existing d.text then (request, p)
        else ({ request with headers := headers.insert kvCachePriorityHeader d.text }, p)
      | none => ({ request with headers := headers.insert kvCachePriorityHeader d.text }, p)

end KVCachePriority

/-- What a header value asks for: a priority and perhaps a time to live. -/
structure Meaning where
  priority : ℤ
  ttl : Option Duration
  deriving DecidableEq

/-- The meaning of a header value by the documented grammar, in which a time to
live is given at most once. -/
def meaning (value : String) : Option Meaning := do
  let (priority, attributes) ← parseFields value
  match valuesOf "ttl" attributes with
  | [] => return { priority, ttl := none }
  | [text] => do
    let ttl ← parseDuration text
    return { priority, ttl := some ttl }
  | _ => none

def Directive.meaning : Directive → Meaning
  | .evictFirst => { priority := evictFirstPriority, ttl := none }
  | .lease ttl _ => { priority := highPriority, ttl := some ttl }

/-- Ranks in order: evict-first, unmarked, the priorities from 0 to 100. -/
def evictFirstRank : ℤ := -2

def unmarkedRank : ℤ := -1

/-- How long a directive lives, `none` being without end; `unstated` is the
lifetime the backend gives one that does not say. -/
def Meaning.lifetime (unstated : Option ℤ) (m : Meaning) : Option ℤ := m.ttl.or unstated

/-- Whether a lifetime is over so many nanoseconds after receipt. -/
def passed (lifetime : Option ℤ) (elapsed : ℤ) : Bool := lifetime.any fun life => life ≤ elapsed

/-- The effective rank of a directive so many nanoseconds after its receipt. -/
def Meaning.rankAt (unstated : Option ℤ) (m : Meaning) (elapsed : ℤ) : ℤ :=
  if passed (m.lifetime unstated) elapsed then unmarkedRank
  else if m.priority < 0 then evictFirstRank
  else min m.priority 100

/-- The effective rank of a header value; a malformed one marks nothing. -/
def rankOf (unstated : Option ℤ) (value : Option String) (elapsed : ℤ) : ℤ :=
  match value.bind meaning with
  | some m => m.rankAt unstated elapsed
  | none => unmarkedRank

def forwarded (request : InferenceRequest) : Option String :=
  request.headers.bind fun headers => headers.lookup kvCachePriorityHeader

/-- From receipt on, the first lifetime is over when the second is. Without a second one
there is nothing to ask for, and a lifetime that is over from the start counts as one of
zero. -/
def EndsBy (first second : Option ℤ) : Prop :=
  ∀ end₂, second = some end₂ → ∃ end₁, first = some end₁ ∧ end₁ ≤ max end₂ 0

/-- When a client's directive of no higher priority stays under the router's:
an evict-first one under an evict-first one lives at least as long, and a
marked one lives no longer. -/
def Meaning.StaysUnder (unstated : Option ℤ) (client router : Meaning) : Prop :=
  (client.priority < 0 ∧ (0 ≤ router.priority ∨
    EndsBy (router.lifetime unstated) (client.lifetime unstated))) ∨
  (0 ≤ client.priority ∧ EndsBy (client.lifetime unstated) (router.lifetime unstated))

/-- When a client's value, once kept, stays under the router's decision. A malformed one
marks nothing from the start, so it ranks above an evict-first decision as long as that
lives, and above no other. -/
def KeptStaysUnder (unstated : Option ℤ) (value : String) (router : Meaning) : Prop :=
  match meaning value with
  | some client => client.StaysUnder unstated router
  | none => 0 ≤ router.priority ∨ EndsBy (router.lifetime unstated) (some 0)

theorem endsBy_iff {first second : Option ℤ} :
    EndsBy first second ↔
      ∀ elapsed, 0 ≤ elapsed → passed second elapsed = true → passed first elapsed = true := by
  unfold EndsBy passed
  constructor
  · intro h elapsed hpos hsecond
    cases second with
    | none => cases hsecond
    | some end₂ =>
      obtain ⟨end₁, rfl, hle⟩ := h end₂ rfl
      simp only [Option.any_some, decide_eq_true_eq] at hsecond ⊢
      exact hle.trans (max_le hsecond hpos)
  · rintro h end₂ rfl
    have hpassed := h (max end₂ 0) (le_max_right _ _) (by simp)
    cases first with
    | none => cases hpassed
    | some end₁ => exact ⟨end₁, rfl, by simpa using hpassed⟩

theorem rankAt_le_rankAt_iff {unstated : Option ℤ} {client router : Meaning}
    (hle : client.priority ≤ router.priority) (elapsed : ℤ) :
    client.rankAt unstated elapsed ≤ router.rankAt unstated elapsed ↔
      (client.priority < 0 ∧ (0 ≤ router.priority ∨
        (passed (client.lifetime unstated) elapsed = true →
          passed (router.lifetime unstated) elapsed = true))) ∨
      (0 ≤ client.priority ∧ (passed (router.lifetime unstated) elapsed = true →
        passed (client.lifetime unstated) elapsed = true)) := by
  unfold Meaning.rankAt unmarkedRank evictFirstRank
  generalize passed (client.lifetime unstated) elapsed = clientPassed
  generalize passed (router.lifetime unstated) elapsed = routerPassed
  cases clientPassed with
  | true =>
    cases routerPassed with
    | true => simp [lt_or_ge]
    | false =>
      simp only [if_true, Bool.false_eq_true, if_false, forall_const, or_false, false_implies,
        and_true]
      split_ifs <;> omega
  | false =>
    cases routerPassed with
    | true =>
      simp only [if_true, Bool.false_eq_true, if_false, forall_const, false_implies, or_true,
        and_true, and_false, or_false]
      split_ifs <;> omega
    | false =>
      simp only [Bool.false_eq_true, if_false, false_implies, or_true, and_true]
      split_ifs <;> omega

/-- Below an unmarked block there is only a live evict-first one, so everything else
ranks no lower than a block without a mark. -/
theorem unmarkedRank_le_rankAt_iff {unstated : Option ℤ} {m : Meaning} (elapsed : ℤ) :
    unmarkedRank ≤ m.rankAt unstated elapsed ↔
      0 ≤ m.priority ∨ passed (m.lifetime unstated) elapsed = true := by
  unfold Meaning.rankAt unmarkedRank evictFirstRank
  generalize passed (m.lifetime unstated) elapsed = hasPassed
  cases hasPassed with
  | true => simp
  | false =>
    simp only [Bool.false_eq_true, if_false, or_false]
    split_ifs <;> omega

/-- The exact condition for a directive of no higher priority to have no higher
rank at any instant. -/
theorem rankAt_le_iff {unstated : Option ℤ} {client router : Meaning}
    (hle : client.priority ≤ router.priority) :
    (∀ elapsed, 0 ≤ elapsed →
      client.rankAt unstated elapsed ≤ router.rankAt unstated elapsed) ↔
      client.StaysUnder unstated router := by
  unfold Meaning.StaysUnder
  rw [endsBy_iff, endsBy_iff]
  constructor
  · intro h
    rcases lt_or_ge client.priority 0 with hclient | hclient
    · refine Or.inl ⟨hclient, ?_⟩
      rcases lt_or_ge router.priority 0 with hrouter | hrouter
      · refine Or.inr fun elapsed hpos => ?_
        rcases (rankAt_le_rankAt_iff hle elapsed).mp (h elapsed hpos) with
          ⟨-, hmarked | hends⟩ | ⟨hmarked, -⟩
        · omega
        · exact hends
        · omega
      · exact Or.inl hrouter
    · refine Or.inr ⟨hclient, fun elapsed hpos => ?_⟩
      rcases (rankAt_le_rankAt_iff hle elapsed).mp (h elapsed hpos) with ⟨hneg, -⟩ | ⟨-, hends⟩
      · omega
      · exact hends
  · intro h elapsed hpos
    apply (rankAt_le_rankAt_iff hle elapsed).mpr
    rcases h with ⟨hclient, hmarked | hends⟩ | ⟨hclient, hends⟩
    · exact Or.inl ⟨hclient, Or.inl hmarked⟩
    · exact Or.inl ⟨hclient, Or.inr (hends elapsed hpos)⟩
    · exact Or.inr ⟨hclient, hends elapsed hpos⟩

/-- The header of the router's own directive means what was decided, or is
malformed by what stands in its scope. -/
theorem meaning_text (d : Directive) :
    meaning d.text = some d.meaning ∨
      meaning d.text = none ∧ ∃ ttl scope, d = .lease ttl scope := by
  cases d with
  | evictFirst => exact Or.inl (by decide +kernel)
  | lease ttl scope =>
    have hone : (do
        let ttl ← parseDuration ttl.string.toList
        return ({ priority := highPriority, ttl := some ttl } : Meaning)) =
          some (Directive.lease ttl scope).meaning := by
      rw [parseDuration_string]
      rfl
    unfold meaning
    by_cases hscope : scope = ""
    · subst hscope
      rw [parseFields_lease_unscoped]
      exact Or.inl hone
    · rw [parseFields_lease ttl hscope]
      cases ((" scope=".toList ++ scope.toList).splitOn ';').mapM parseAttribute with
      | none => exact Or.inr ⟨rfl, ttl, scope, rfl⟩
      | some scopes =>
        have hvalues : valuesOf "ttl" (("ttl".toList, ttl.string.toList) :: scopes) =
            ttl.string.toList :: valuesOf "ttl" scopes := rfl
        simp only [Option.map_some, Option.bind_eq_bind, Option.bind_some, hvalues]
        cases valuesOf "ttl" scopes with
        | nil => exact Or.inl hone
        | cons another more => exact Or.inr ⟨rfl, ttl, scope, rfl⟩

theorem rankOf_text_le (unstated : Option ℤ) (d : Directive) (elapsed : ℤ) :
    rankOf unstated (some d.text) elapsed ≤ d.meaning.rankAt unstated elapsed := by
  unfold rankOf
  rw [Option.bind_some]
  rcases meaning_text d with hmeaning | ⟨hmeaning, ttl, scope, rfl⟩
  · rw [hmeaning]
  · rw [hmeaning]
    exact (unmarkedRank_le_rankAt_iff elapsed).mpr (Or.inl (by decide : (0 : ℤ) ≤ highPriority))

theorem leadingPriority_of_meaning {value : String} {m : Meaning} (h : meaning value = some m) :
    leadingPriority value = some m.priority := by
  unfold meaning at h
  simp only [Option.bind_eq_bind, Option.bind_eq_some_iff] at h
  obtain ⟨⟨priority, attributes⟩, hparse, h⟩ := h
  have hpriority : m.priority = priority := by
    dsimp only at h
    split at h
    · obtain rfl := Option.some.inj h
      rfl
    · rw [Option.bind_eq_some_iff] at h
      obtain ⟨ttl, -, h⟩ := h
      obtain rfl := Option.some.inj h
      rfl
    · cases h
  rw [hpriority]
  exact leadingPriority_of_parseFields hparse

/-- A value that is kept stays under the decision at all times exactly when its
meaning does. -/
theorem rankOf_le_iff {unstated : Option ℤ} {value : String} {clientPriority : ℤ}
    {router : Meaning} (hleading : leadingPriority value = some clientPriority)
    (hle : clientPriority ≤ router.priority) :
    (∀ elapsed, 0 ≤ elapsed →
      rankOf unstated (some value) elapsed ≤ router.rankAt unstated elapsed) ↔
      KeptStaysUnder unstated value router := by
  unfold rankOf KeptStaysUnder
  rw [Option.bind_some]
  cases hmeaning : meaning value with
  | some client =>
    have hclient := leadingPriority_of_meaning hmeaning
    obtain rfl : clientPriority = client.priority :=
      Option.some.inj (hleading.symm.trans hclient)
    exact rankAt_le_iff hle
  | none =>
    simp only [unmarkedRank_le_rankAt_iff, endsBy_iff]
    constructor
    · intro h
      rcases lt_or_ge router.priority 0 with hrouter | hrouter
      · refine Or.inr fun elapsed hpos _ => ?_
        rcases h elapsed hpos with hmarked | hpassed
        · omega
        · exact hpassed
      · exact Or.inl hrouter
    · rintro (hmarked | hends) elapsed hpos
      · exact Or.inl hmarked
      · exact Or.inr (hends elapsed hpos (by simpa [passed] using hpos))

/-- A header value is kept exactly when its leading priority is no higher. -/
theorem keepsClient_text {existing : String} {d : Directive} :
    keepsClient existing d.text ↔
      ∃ clientPriority, leadingPriority existing = some clientPriority ∧
        clientPriority ≤ d.priority := by
  unfold keepsClient
  rw [priorityOf_text]

namespace KVCachePriority

variable {p : KVCachePriority K} {request : InferenceRequest} {now : Time} {headers : Headers}
  {d : Directive}

/-- All that `PreRequest` does to a request with headers: it goes on as it came,
without a hint or with a client's value that is kept, or the directive is set. -/
theorem preRequest_cases (p : KVCachePriority K) (now : Time)
    (hheaders : request.headers = some headers) :
    ((p.preRequest request now).1 = request ∧
      ∀ d, (p.decide request now).1 = some d →
        ∃ existing, headers.lookup kvCachePriorityHeader = some existing ∧
          keepsClient existing d.text) ∨
    ∃ d, (p.decide request now).1 = some d ∧
      (∀ existing, headers.lookup kvCachePriorityHeader = some existing →
        ¬ keepsClient existing d.text) ∧
      (p.preRequest request now).1 =
        { request with headers := some (headers.insert kvCachePriorityHeader d.text) } := by
  unfold preRequest
  cases hdecision : p.decide request now with
  | mk decision learned =>
    simp only [hheaders]
    cases decision with
    | none => exact Or.inl ⟨rfl, by simp⟩
    | some d =>
      cases hlookup : headers.lookup kvCachePriorityHeader with
      | none => exact Or.inr ⟨d, rfl, by simp, rfl⟩
      | some existing =>
        dsimp only
        by_cases hkeeps : keepsClient existing d.text
        · rw [if_pos hkeeps]
          refine Or.inl ⟨rfl, fun d' hd' => ⟨existing, rfl, ?_⟩⟩
          exact Option.some.inj hd' ▸ hkeeps
        · rw [if_neg hkeeps]
          refine Or.inr ⟨d, rfl, fun other hother => ?_, rfl⟩
          exact Option.some.inj hother ▸ hkeeps

theorem preRequest_snd_of_headers (p : KVCachePriority K) (now : Time)
    (hheaders : request.headers = some headers) :
    (p.preRequest request now).2 = (p.decide request now).2 := by
  unfold preRequest
  cases hdecision : p.decide request now with
  | mk decision learned =>
    simp only [hheaders]
    cases decision with
    | none => rfl
    | some d =>
      cases headers.lookup kvCachePriorityHeader with
      | none => rfl
      | some existing =>
        dsimp only
        split_ifs <;> rfl

/-- The header that is forwarded: the client's when it is kept, else the
router's. -/
theorem forwarded_preRequest (hheaders : request.headers = some headers)
    (hdecide : (p.decide request now).1 = some d) :
    (∃ existing, headers.lookup kvCachePriorityHeader = some existing ∧
      keepsClient existing d.text ∧
      forwarded (p.preRequest request now).1 = some existing) ∨
    ((∀ existing, headers.lookup kvCachePriorityHeader = some existing →
        ¬ keepsClient existing d.text) ∧
      forwarded (p.preRequest request now).1 = some d.text) := by
  rcases preRequest_cases p now hheaders with ⟨hsame, hkept⟩ | ⟨d', hd', hdrops, hset⟩
  · obtain ⟨existing, hlookup, hkeeps⟩ := hkept d hdecide
    refine Or.inl ⟨existing, hlookup, hkeeps, ?_⟩
    rw [hsame, forwarded, hheaders, Option.bind_some, hlookup]
  · obtain rfl : d' = d := Option.some.inj (hd'.symm.trans hdecide)
    refine Or.inr ⟨hdrops, ?_⟩
    rw [hset, forwarded, Option.bind_some, AList.lookup_insert]

def clientTurn (value : String) : InferenceRequest :=
  { searchTurn "sess1" with
    headers := ((∅ : Headers).insert sessionIdHeader "sess1").insert kvCachePriorityHeader value }

/-- A client that asks for the router's priority, for longer, has it when the
router's lease is over. -/
theorem longer_lease_passes :
    ((seenOnce "sess1").decide (clientTurn "50; ttl=1h") 2000000000).1 =
        some (.lease 3000000000 "sess1") ∧
      forwarded ((seenOnce "sess1").preRequest (clientTurn "50; ttl=1h") 2000000000).1 =
        some "50; ttl=1h" ∧
      ¬ rankOf none (forwarded ((seenOnce "sess1").preRequest (clientTurn "50; ttl=1h")
          2000000000).1) 4000000000 ≤
        (Directive.lease 3000000000 "sess1").meaning.rankAt none 4000000000 := by
  decide +kernel

/-- In any state of the plugin and at every moment from receipt on, the forwarded
directive never ranks above the router's decision exactly when a client's value whose
leading priority is no higher stays under that decision. `unstated` is the lifetime the
backend gives to a directive that does not state one, none being without end. -/
theorem ceiling_iff (unstated : Option ℤ) (p : KVCachePriority K) (request : InferenceRequest)
    (now : Time) {headers : Headers} (hheaders : request.headers = some headers) {d : Directive}
    (hdecide : (p.decide request now).1 = some d) :
    (∀ elapsed, 0 ≤ elapsed →
      rankOf unstated (forwarded (p.preRequest request now).1) elapsed ≤
        d.meaning.rankAt unstated elapsed) ↔
      ∀ value clientPriority, headers.lookup kvCachePriorityHeader = some value →
        leadingPriority value = some clientPriority → clientPriority ≤ d.priority →
        KeptStaysUnder unstated value d.meaning := by
  have hpriority : d.meaning.priority = d.priority := by cases d <;> rfl
  rcases forwarded_preRequest hheaders hdecide with
    ⟨existing, hlookup, hkeeps, hforwarded⟩ | ⟨hdrops, hforwarded⟩
  · obtain ⟨clientPriority, hleading, hle⟩ := keepsClient_text.mp hkeeps
    rw [hforwarded, rankOf_le_iff hleading (hpriority ▸ hle)]
    constructor
    · intro hstays value other hvalue _ _
      obtain rfl := Option.some.inj (hlookup.symm.trans hvalue)
      exact hstays
    · intro h
      exact h existing clientPriority hlookup hleading hle
  · rw [hforwarded]
    refine iff_of_true (fun elapsed _ => rankOf_text_le unstated d elapsed) ?_
    intro value clientPriority hvalue hleading hle
    exact absurd (keepsClient_text.mpr ⟨clientPriority, hleading, hle⟩) (hdrops value hvalue)

/-- A client that asks for less, and not for as long. -/
theorem ceiling_iff_less :
    (∀ elapsed, 0 ≤ elapsed →
      rankOf none (forwarded ((seenOnce "sess1").preRequest (clientTurn "10; ttl=1s")
          2000000000).1) elapsed ≤
        (Directive.lease 3000000000 "sess1").meaning.rankAt none elapsed) ↔
      ∀ value clientPriority,
        (((∅ : Headers).insert sessionIdHeader "sess1").insert kvCachePriorityHeader
          "10; ttl=1s").lookup kvCachePriorityHeader = some value →
        leadingPriority value = some clientPriority →
        clientPriority ≤ (Directive.lease 3000000000 "sess1").priority →
        KeptStaysUnder none value (Directive.lease 3000000000 "sess1").meaning :=
  ceiling_iff none (seenOnce "sess1") (clientTurn "10; ttl=1s") 2000000000 rfl
    (by decide +kernel)

end KVCachePriority

end SchedLm.Gateway
