import SchedLm.Gateway.Wire

/-!
What the backend reads of a lease whose scope a client has chosen. The session
id is written into the header as it is, so it comes back as it was sent exactly
when it holds no field separator and does not end in a space.
-/

namespace SchedLm.Gateway

variable {K : Type} [Scalar K]

/-- Reading the header gives one priority, one time to live and one scope. -/
def Carries (value : String) (priority : ℤ) (ttl : Duration) (scope : String) : Prop :=
  ∃ attributes, parseFields value = some (priority, attributes) ∧
    (valuesOf "ttl" attributes).map parseDuration = [some ttl] ∧
    valuesOf "scope" attributes = [scope.toList]

/-- A session id that can stand in a header field: the reader of the header cuts its
fields at semicolons and trims their ends. -/
def FitsField (id : String) : Prop :=
  ';' ∉ id.toList ∧ ∀ c, id.toList.getLast? = some c → isSpace c = false

private theorem exists_of_mem_mapM {α β : Type} {f : α → Option β} {xs : List α} {ys : List β}
    (h : xs.mapM f = some ys) {y : β} (hy : y ∈ ys) : ∃ x ∈ xs, f x = some y := by
  induction xs generalizing ys with
  | nil =>
    obtain rfl : [] = ys := Option.some.inj h
    cases hy
  | cons x rest ih =>
    rw [List.mapM_cons, Option.bind_eq_bind, Option.bind_eq_some_iff] at h
    obtain ⟨first, hfirst, h⟩ := h
    rw [Option.bind_eq_bind, Option.bind_eq_some_iff] at h
    obtain ⟨others, hothers, h⟩ := h
    obtain rfl : first :: others = ys := Option.some.inj h
    rcases List.mem_cons.mp hy with rfl | hy
    · exact ⟨x, List.mem_cons_self, hfirst⟩
    · obtain ⟨z, hz, hfz⟩ := ih hothers hy
      exact ⟨z, List.mem_cons_of_mem x hz, hfz⟩

theorem notMem_of_parseFields {value : String} {priority : ℤ}
    {attributes : List (List Char × List Char)}
    (h : parseFields value = some (priority, attributes)) {key text : List Char}
    (hmem : (key, text) ∈ attributes) : ';' ∉ text := by
  unfold parseFields at h
  cases hsplit : value.toList.splitOn ';' with
  | nil => exact absurd hsplit (List.splitOn_ne_nil ';' value.toList)
  | cons head fields =>
    simp only [hsplit, Option.bind_eq_bind, Option.bind_eq_some_iff] at h
    obtain ⟨_, -, found, hfound, h⟩ := h
    obtain ⟨-, rfl⟩ := Prod.mk.inj (Option.some.inj h)
    obtain ⟨field, hfield, hattribute⟩ := exists_of_mem_mapM hfound hmem
    have hnosep : ';' ∉ field :=
      Text.notMem_of_mem_splitOn (by rw [hsplit]; exact List.mem_cons_of_mem head hfield)
    unfold parseAttribute at hattribute
    split at hattribute
    · rename_i before after hcut
      obtain ⟨-, rfl⟩ := Prod.mk.inj (Option.some.inj hattribute)
      exact fun hin => hnosep (Text.mem_of_mem_trim (Text.mem_of_mem_cut hcut hin))
    · cases hattribute

/-- A scope that fits in a field is one attribute, less the spaces at its end. -/
theorem parseFields_lease_of_fits (ttl : Duration) {scope : String} (hscope : scope ≠ "")
    (hnosep : ';' ∉ scope.toList) :
    parseFields (Directive.lease ttl scope).text =
      some (highPriority, [("ttl".toList, ttl.string.toList),
        ("scope".toList, scope.toList.rdropWhile isSpace)]) := by
  have hfield : ';' ∉ " scope=".toList ++ scope.toList := by
    rw [List.mem_append, not_or]
    exact ⟨by decide, hnosep⟩
  have hattribute : parseAttribute (" scope=".toList ++ scope.toList) =
      some ("scope".toList, scope.toList.rdropWhile isSpace) :=
    parseAttribute_append (by decide : isSpace 's' = false)
      (by decide : '=' ∉ ['s', 'c', 'o', 'p', 'e']) scope.toList
  rw [parseFields_lease ttl hscope, List.splitOn_eq_singleton hfield, List.mapM_cons, hattribute]
  rfl

theorem mem_valuesOf {key : String} {attributes : List (List Char × List Char)}
    {text : List Char} : text ∈ valuesOf key attributes ↔ (key.toList, text) ∈ attributes := by
  unfold valuesOf
  rw [List.mem_map]
  constructor
  · rintro ⟨⟨found, _⟩, hmem, rfl⟩
    obtain ⟨hmem, hkey⟩ := List.mem_filter.mp hmem
    obtain rfl : found = key.toList := of_decide_eq_true hkey
    exact hmem
  · intro hmem
    exact ⟨(key.toList, text), List.mem_filter.mpr ⟨hmem, by simp⟩, rfl⟩

/-- The lease comes back with its scope exactly when the scope fits in a field. -/
theorem carries_lease_iff (ttl : Duration) {scope : String} (hscope : scope ≠ "") :
    Carries (Directive.lease ttl scope).text highPriority ttl scope ↔ FitsField scope := by
  have hend : scope.toList.rdropWhile isSpace = scope.toList ↔
      ∀ c, scope.toList.getLast? = some c → isSpace c = false := by
    rw [List.rdropWhile_eq_self_iff]
    constructor
    · intro h c hc
      have hne : scope.toList ≠ [] := by
        intro hnil
        rw [hnil] at hc
        cases hc
      obtain rfl := Option.some.inj ((List.getLast?_eq_some_getLast hne).symm.trans hc)
      simpa using h hne
    · intro h hne
      simp [h _ (List.getLast?_eq_some_getLast hne)]
  by_cases hnosep : ';' ∈ scope.toList
  · refine iff_of_false ?_ fun h => h.1 hnosep
    rintro ⟨attributes, hparse, -, hscopes⟩
    have hmem : scope.toList ∈ valuesOf "scope" attributes := by simp [hscopes]
    exact notMem_of_parseFields hparse (mem_valuesOf.mp hmem) hnosep
  · have hparse := parseFields_lease_of_fits ttl hscope hnosep
    have hvalues : ∀ text,
        valuesOf "ttl" [("ttl".toList, ttl.string.toList), ("scope".toList, text)] =
          [ttl.string.toList] ∧
        valuesOf "scope" [("ttl".toList, ttl.string.toList), ("scope".toList, text)] = [text] :=
      fun _ => ⟨rfl, rfl⟩
    constructor
    · rintro ⟨attributes, hparse', -, hscopes⟩
      rw [hparse] at hparse'
      obtain ⟨-, rfl⟩ := Prod.mk.inj (Option.some.inj hparse')
      rw [(hvalues _).2] at hscopes
      exact ⟨hnosep, hend.mp (List.cons.inj hscopes).1⟩
    · rintro ⟨-, hlast⟩
      refine ⟨_, hparse, ?_, ?_⟩
      · rw [(hvalues _).1, List.map_singleton, parseDuration_string]
      · rw [(hvalues _).2, hend.mpr hlast]

namespace KVCachePriority

/-- A tool turn's directive, in a conversation the client has named, is the
lease that is computed for its tool, under that name. -/
theorem decide_eq_lease {p : KVCachePriority K} {request : InferenceRequest} {now : Time}
    {headers : Headers} (hheaders : request.headers = some headers) {id : String}
    (hid : headers.lookup sessionIdHeader = some id) (hne : id ≠ "") {d : Directive}
    (hdecide : (p.decide request now).1 = some d) (hhigh : d.priority = highPriority) :
    ∃ ttl, d = .lease ttl id ∧ (p.learn id (lastToolName request.body) now).leaseTtl
      (lastToolName request.body) = some ttl := by
  have hkey : conversationKey (request.headers.getD ∅) request.body = id := by
    simp [conversationKey, hheaders, hid, hne]
  unfold decide at hdecide
  split at hdecide
  · obtain rfl : Directive.evictFirst = d := Option.some.inj hdecide
    exact absurd hhigh (by decide)
  · cases hdecide
  · dsimp only at hdecide
    rw [hkey, Option.map_eq_some_iff] at hdecide
    obtain ⟨ttl, httl, rfl⟩ := hdecide
    exact ⟨ttl, rfl, httl⟩

def searchTurn (id : String) : InferenceRequest where
  body := chatBody [userMessage "hi",
    { role := "assistant",
      toolCalls := [.object [("function", .object [("name", .text "search")])]] },
    { role := "tool", content := "result" }] []
  headers := (∅ : Headers).insert sessionIdHeader id

def seenOnce (id : String) : KVCachePriority ℚ :=
  (newKVCachePriority.decide (searchTurn id) 0).2

/-- A session id that brings its own time to live: the header has two. -/
theorem session_id_adds_ttl :
    ((seenOnce "a; ttl=1h").decide (searchTurn "a; ttl=1h") 2000000000).1 =
        some (.lease 3000000000 "a; ttl=1h") ∧
      (Directive.lease 3000000000 "a; ttl=1h").text = "50; ttl=3s; scope=a; ttl=1h" ∧
      parseFields "50; ttl=3s; scope=a; ttl=1h" =
        some (50, [("ttl".toList, "3s".toList), ("scope".toList, "a".toList),
          ("ttl".toList, "1h".toList)]) ∧
      ¬ Carries (Directive.lease 3000000000 "a; ttl=1h").text highPriority 3000000000
        "a; ttl=1h" := by
  refine ⟨by decide +kernel, by decide +kernel, by decide +kernel, ?_⟩
  intro hcarries
  have hfits := (carries_lease_iff 3000000000 (by decide)).mp hcarries
  exact absurd hfits.1 (by decide)

/-- The lease of a conversation that the client has named, in any state of the plugin,
reads back as it was decided, with one priority, one time to live and one scope, exactly
when the session id fits in a header field: no semicolon in it, and no space at its end.
-/
theorem directive_carries_session_id_iff (p : KVCachePriority K) (request : InferenceRequest)
    (now : Time) {headers : Headers} (hheaders : request.headers = some headers) {id : String}
    (hid : headers.lookup sessionIdHeader = some id) (hne : id ≠ "") {d : Directive}
    (hdecide : (p.decide request now).1 = some d) (hhigh : d.priority = highPriority) :
    ∃ ttl, d = .lease ttl id ∧
      (p.learn id (lastToolName request.body) now).leaseTtl (lastToolName request.body) =
        some ttl ∧
      (Carries d.text highPriority ttl id ↔ FitsField id) := by
  obtain ⟨ttl, rfl, httl⟩ := decide_eq_lease hheaders hid hne hdecide hhigh
  exact ⟨ttl, rfl, httl, carries_lease_iff ttl hne⟩

/-- A session id of letters and digits. -/
theorem directive_carries_session_id_iff_sess1 :
    ∃ ttl, Directive.lease 3000000000 "sess1" = .lease ttl "sess1" ∧
      ((seenOnce "sess1").learn "sess1" (lastToolName (searchTurn "sess1").body)
        2000000000).leaseTtl (lastToolName (searchTurn "sess1").body) = some ttl ∧
      (Carries (Directive.lease 3000000000 "sess1").text highPriority ttl "sess1" ↔
        FitsField "sess1") :=
  directive_carries_session_id_iff (seenOnce "sess1") (searchTurn "sess1") 2000000000 rfl
    (AList.lookup_insert _) (by decide) (by decide +kernel) rfl

end KVCachePriority

end SchedLm.Gateway
