import SchedLm.Gateway.Ceiling

/-!
Precedence as a minimum. Whatever a client sends, the header that is forwarded
asks for the smaller of the two priorities, the client's own text stands exactly
when it asks for no more, and no other header is touched.
-/

namespace SchedLm.Gateway

variable {K : Type} [Scalar K]

/-- What becomes of the headers of a request under a decision. -/
structure HeaderPrecedence (decision : Option Directive) (before after : Headers) : Prop where
  frame : ∀ name, name ≠ kvCachePriorityHeader → after.lookup name = before.lookup name
  noHint : decision = none →
    after.lookup kvCachePriorityHeader = before.lookup kvCachePriorityHeader
  router : ∀ d, decision = some d →
    (∀ existing, before.lookup kvCachePriorityHeader = some existing →
      leadingPriority existing = none) →
    after.lookup kvCachePriorityHeader = some d.text
  minimum : ∀ d existing client, decision = some d →
    before.lookup kvCachePriorityHeader = some existing →
    leadingPriority existing = some client →
    ∃ value ownPriority, after.lookup kvCachePriorityHeader = some value ∧
      leadingPriority d.text = some ownPriority ∧
      leadingPriority value = some (min client ownPriority) ∧
      (value = existing ↔ client ≤ ownPriority)

namespace HeaderPrecedence

variable {decision : Option Directive} {headers : Headers} {d : Directive}

theorem kept (hkept : ∀ d, decision = some d →
    ∃ existing, headers.lookup kvCachePriorityHeader = some existing ∧
      keepsClient existing d.text) :
    HeaderPrecedence decision headers headers := by
  refine ⟨fun _ _ => rfl, fun _ => rfl, ?_, ?_⟩
  · intro d hd hunparsed
    obtain ⟨existing, hlookup, hkeeps⟩ := hkept d hd
    obtain ⟨client, hclient, -⟩ := keepsClient_text.mp hkeeps
    rw [hunparsed existing hlookup] at hclient
    cases hclient
  · intro d existing client hd hlookup hclient
    obtain ⟨existing', hlookup', hkeeps⟩ := hkept d hd
    obtain rfl := Option.some.inj (hlookup.symm.trans hlookup')
    obtain ⟨client', hclient', hle⟩ := keepsClient_text.mp hkeeps
    obtain rfl := Option.some.inj (hclient.symm.trans hclient')
    refine ⟨existing, d.priority, hlookup, leadingPriority_text d, ?_, iff_of_true rfl hle⟩
    rw [min_eq_left hle]
    exact hclient

theorem replaced (hdrops : ∀ existing, headers.lookup kvCachePriorityHeader = some existing →
    ¬ keepsClient existing d.text) :
    HeaderPrecedence (some d) headers (headers.insert kvCachePriorityHeader d.text) := by
  refine ⟨fun name hname => AList.lookup_insert_ne hname, by simp, ?_, ?_⟩
  · intro d' hd' _
    rw [AList.lookup_insert, Option.some.inj hd']
  · intro d' existing client hd' hlookup hclient
    obtain rfl := Option.some.inj hd'
    have hlt : d.priority < client := by
      by_contra hle
      exact hdrops existing hlookup (keepsClient_text.mpr ⟨client, hclient, not_lt.mp hle⟩)
    refine ⟨d.text, d.priority, AList.lookup_insert .., leadingPriority_text d, ?_, ?_⟩
    · rw [min_eq_right hlt.le]
      exact leadingPriority_text d
    · refine iff_of_false (fun hsame => ?_) (not_le.mpr hlt)
      rw [← hsame, leadingPriority_text, Option.some.injEq] at hclient
      exact hlt.ne hclient

end HeaderPrecedence

namespace KVCachePriority

/-- `PreRequest` on a request with headers, in any state of the plugin, changes one
header at most. Without a decision the request goes on as it came; with one, a client's
value stays when its leading priority is no higher, and the router's directive replaces
everything else, malformed values included. -/
theorem header_precedence (p : KVCachePriority K) (request : InferenceRequest) (now : Time)
    {headers : Headers} (hheaders : request.headers = some headers) :
    ∃ after, (p.preRequest request now).1 = { request with headers := some after } ∧
      HeaderPrecedence (p.decide request now).1 headers after := by
  rcases preRequest_cases p now hheaders with ⟨hsame, hkept⟩ | ⟨d, hd, hdrops, hset⟩
  · exact ⟨headers, by rw [hsame, ← hheaders], .kept hkept⟩
  · exact ⟨_, hset, hd ▸ .replaced hdrops⟩

/-- A client that asks to be pinned, on a confident tool turn. -/
theorem header_precedence_pinned :
    ∃ after value, ((seenOnce "sess1").preRequest (clientTurn "+100 ; scope=x")
        2000000000).1 = { clientTurn "+100 ; scope=x" with headers := some after } ∧
      after.lookup kvCachePriorityHeader = some value ∧
      leadingPriority value = some 50 ∧ value ≠ "+100 ; scope=x" ∧
      after.lookup sessionIdHeader = some "sess1" := by
  have hdecide : ((seenOnce "sess1").decide (clientTurn "+100 ; scope=x") 2000000000).1 =
      some (.lease 3000000000 "sess1") := by decide +kernel
  have hclient : leadingPriority "+100 ; scope=x" = some 100 := by decide +kernel
  obtain ⟨after, hafter, hprecedence⟩ := header_precedence (seenOnce "sess1")
    (clientTurn "+100 ; scope=x") 2000000000 rfl
  obtain ⟨value, ownPriority, hvalue, hown, hmin, hsame⟩ :=
    hprecedence.minimum _ "+100 ; scope=x" 100 hdecide (AList.lookup_insert ..) hclient
  obtain rfl : Directive.priority (.lease 3000000000 "sess1") = ownPriority :=
    Option.some.inj ((leadingPriority_text _).symm.trans hown)
  refine ⟨after, value, hafter, hvalue, hmin, fun h => absurd (hsame.mp h) (by decide), ?_⟩
  rw [hprecedence.frame sessionIdHeader (by decide)]
  decide +kernel

end KVCachePriority

end SchedLm.Gateway
