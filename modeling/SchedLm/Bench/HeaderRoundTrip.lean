import SchedLm.Bench.KvPriority
import SchedLm.Gateway.Precedence

/-!
From the command line to the backend. The header that the three options make
reads back as they were given, up to a scope that does not fit in a field, and
goes through the gateway unless the plugin asks for less.
-/

namespace SchedLm.Bench

open Pattern Gateway Gateway.KVCachePriority

private theorem toList_toString_nat (n : ℕ) : (toString n).toList = Nat.toDigits 10 n := by
  rw [Nat.toString_eq_ofList_toDigits, String.toList_ofList]

/-- A numeral is its digits, behind a minus sign if there is one. -/
theorem toList_toString_int (n : ℤ) :
    (toString n).toList = (if n < 0 then ['-'] else []) ++ Nat.toDigits 10 n.natAbs := by
  cases n with
  | ofNat n => exact toList_toString_nat n
  | negSucc n =>
    have htext : toString (Int.negSucc n) = "-" ++ toString (n + 1) := rfl
    rw [htext, String.toList_append, toList_toString_nat, if_pos (Int.negSucc_lt_zero n)]
    rfl

theorem isSpace_of_isDigit {c : Char} (hc : c.isDigit = true) : isSpace c = false := by
  have hrange : 48 ≤ c.toNat ∧ c.toNat ≤ 57 := Char.isDigit_iff_toNat.mp hc
  unfold isSpace
  simp only [decide_eq_false_iff_not]
  omega

theorem letter_of_mem_numeral {n : ℤ} {c : Char} (hc : c ∈ (toString n).toList) :
    isSpace c = false ∧ c ≠ ';' := by
  rw [toList_toString_int, List.mem_append] at hc
  rcases hc with hsign | hdigit
  · split_ifs at hsign
    · rw [List.mem_singleton.mp hsign]
      decide
    · cases hsign
  · have hdigit := Text.isDigit_of_mem_toDigits hdigit
    refine ⟨isSpace_of_isDigit hdigit, ?_⟩
    rintro rfl
    exact absurd hdigit (by decide)

theorem trimSpace_eq_self {s : List Char} (h : ∀ c ∈ s, isSpace c = false) :
    trimSpace s = s := by
  cases s with
  | nil => rfl
  | cons c rest =>
    unfold trimSpace
    rw [Text.trim_cons (h c List.mem_cons_self), List.rdropWhile_eq_self_iff]
    intro hne
    simp [h _ (List.getLast_mem hne)]

theorem splitSign_of_isDigit {c : Char} (hc : c.isDigit = true) (rest : List Char) :
    splitSign (c :: rest) = (false, c :: rest) := by
  unfold splitSign
  split
  · rename_i heq
    obtain ⟨rfl, -⟩ := List.cons.inj heq
    exact absurd hc (by decide)
  · rename_i heq
    obtain ⟨rfl, -⟩ := List.cons.inj heq
    exact absurd hc (by decide)
  · rfl

theorem atoi_numeral {n : ℤ} (hlow : -2 ^ 63 ≤ n) (hhigh : n < 2 ^ 63) :
    atoi (toString n).toList = some n := by
  have hdigits : ∀ m : ℕ, (Nat.toDigits 10 m).all Char.isDigit = true := fun m =>
    List.all_eq_true.mpr fun _ hc => Text.isDigit_of_mem_toDigits hc
  have hne : ∀ m : ℕ, Nat.toDigits 10 m ≠ [] := fun m => Nat.toDigits_ne_nil
  have hsign : splitSign (toString n).toList = (decide (n < 0), Nat.toDigits 10 n.natAbs) := by
    rw [toList_toString_int]
    by_cases hneg : n < 0
    · rw [if_pos hneg, decide_eq_true hneg]
      rfl
    · rw [if_neg hneg, decide_eq_false hneg, List.nil_append]
      obtain ⟨c, rest, hcons⟩ := List.exists_cons_of_ne_nil (hne n.natAbs)
      have hdigit : c.isDigit = true :=
        Text.isDigit_of_mem_toDigits (hcons ▸ List.mem_cons_self : c ∈ Nat.toDigits 10 n.natAbs)
      rw [hcons, splitSign_of_isDigit hdigit]
  have hvalue : (if decide (n < 0) = true then -(n.natAbs : ℤ) else n.natAbs) = n := by
    by_cases hneg : n < 0
    · rw [if_pos (decide_eq_true hneg)]
      omega
    · rw [if_neg (by simpa using hneg)]
      omega
  unfold atoi
  rw [hsign]
  dsimp only
  rw [if_neg (by simp [hne, hdigits]), Text.digitsValue_toDigits, hvalue, if_pos ⟨hlow, hhigh⟩]

def field (key : String) (text : String) : List Char :=
  ' ' :: (key.toList ++ '=' :: text.toList)

def headerFields (priority : ℤ) (ttl scope : Option String) : List (List Char) :=
  (toString priority).toList ::
    ((given ttl).toList.map (field "ttl") ++ (given scope).toList.map (field "scope"))

theorem kvPriorityHeader_eq_ok {priority : ℤ} {ttl scope : Option String} {value : String}
    (h : kvPriorityHeader (some priority) ttl scope = .ok (some value)) :
    value.toList = [';'].intercalate (headerFields priority ttl scope) ∧
      ∀ text, given ttl = some text → matchesLine '\n' goDurationRe text.toList = true := by
  refine ⟨?_, ((exists_header_iff (some priority) ttl scope).mp ⟨value, h⟩).2⟩
  have hjoined : ∀ key text : String, toString key ++ toString text = key ++ text :=
    fun _ _ => rfl
  have hprinted : value = toString priority ++
      ((given ttl).elim "" ("; ttl=" ++ ·) ++ (given scope).elim "" ("; scope=" ++ ·)) := by
    unfold kvPriorityHeader at h
    generalize given ttl = lease at h ⊢
    generalize given scope = owner at h ⊢
    cases lease with
    | none =>
      obtain rfl := Option.some.inj (Except.ok.inj h)
      cases owner <;> simp [hjoined]
    | some text =>
      dsimp only at h
      split_ifs at h
      · obtain rfl := Option.some.inj (Except.ok.inj h)
        cases owner <;> simp [hjoined, String.append_assoc]
      · cases h
  rw [hprinted]
  unfold headerFields
  cases given ttl with
  | none =>
    cases given scope with
    | none => simp
    | some id => simp [field]
  | some text =>
    cases given scope with
    | none => simp [field]
    | some id => simp [field]

theorem notMem_of_matchesLine {text : List Char}
    (h : matchesLine '\n' goDurationRe text = true) : ';' ∉ text := by
  have hterm : ∀ term ∈ looseNumber * goUnit, ';' ∉ term := by
    intro term hterm hmem
    obtain ⟨number, ⟨-, hnumber⟩, unit, hunit, rfl⟩ := Language.mem_mul.mp hterm
    rcases List.mem_append.mp hmem with hmem | hmem
    · rcases hnumber ';' hmem with hdigit | hpoint
      · rw [Decimal.mem_digits_iff] at hdigit
        exact absurd hdigit (by decide)
      · exact absurd hpoint (by decide)
    · have hnone : (units.all fun unit => ';' ∉ unit) = true := by decide
      exact of_decide_eq_true (List.all_eq_true.mp hnone unit hunit) hmem
  obtain ⟨line, hline, htext⟩ := matchesLine_iff.mp h
  have hnosep : ';' ∉ line := by
    unfold goDurationRe at hline
    rw [RegularExpression.matches'_mul, RegularExpression.matches'_star] at hline
    obtain ⟨first, hfirst, others, hothers, rfl⟩ := Language.mem_mul.mp hline
    obtain ⟨rest, rfl, hrest⟩ := Language.mem_kstar.mp hothers
    intro hmem
    rcases List.mem_append.mp hmem with hmem | hmem
    · exact hterm first (looseTerm_of_firstTermRe hfirst) hmem
    · obtain ⟨term, hin, hmem⟩ := List.mem_flatten.mp hmem
      exact hterm term (looseTerm_of_laterTermRe (hrest term hin)) hmem
  rcases htext with rfl | rfl
  · exact hnosep
  · simpa using hnosep

/-- What the backend is to read: the priority, and each option that is given,
once and as it was given; a line end behind the lease is not part of it. -/
def ReadsBack (value : String) (priority : ℤ) (ttl scope : Option String) : Prop :=
  ∃ attributes, parseFields value = some (priority, attributes) ∧
    valuesOf "ttl" attributes =
      (given ttl).toList.map (fun text => text.toList.rdropWhile isSpace) ∧
    valuesOf "scope" attributes = (given scope).toList.map String.toList

section Header

variable {priority : ℤ} {ttl scope : Option String} {value : String}

theorem leadingPriority_header (hlow : -2 ^ 63 ≤ priority) (hhigh : priority < 2 ^ 63)
    (h : kvPriorityHeader (some priority) ttl scope = .ok (some value)) :
    leadingPriority value = some priority := by
  have hletters : ∀ c ∈ (toString priority).toList, isSpace c = false ∧ c ≠ ';' :=
    fun _ => letter_of_mem_numeral
  have hnosep : ';' ∉ (toString priority).toList := fun hmem => (hletters _ hmem).2 rfl
  have hcut : (Text.cut ';' value.toList).1 = (toString priority).toList := by
    rw [(kvPriorityHeader_eq_ok h).1]
    unfold headerFields
    cases (given ttl).toList.map (field "ttl") ++ (given scope).toList.map (field "scope") with
    | nil => rw [List.intercalate_singleton, Text.cut_of_notMem hnosep]
    | cons first rest =>
      rw [List.intercalate_cons_cons, List.append_assoc, List.singleton_append,
        Text.cut_append hnosep]
  unfold leadingPriority
  rw [hcut, trimSpace_eq_self fun c hc => (hletters c hc).1, atoi_numeral hlow hhigh]

def readField (key : String) (text : String) : List Char × List Char :=
  (key.toList, text.toList.rdropWhile isSpace)

theorem parseFields_header (hlow : -2 ^ 63 ≤ priority) (hhigh : priority < 2 ^ 63)
    (h : kvPriorityHeader (some priority) ttl scope = .ok (some value))
    (hscope : ∀ id, given scope = some id → ';' ∉ id.toList) :
    parseFields value = some (priority, (given ttl).toList.map (readField "ttl") ++
      (given scope).toList.map (readField "scope")) := by
  obtain ⟨htext, hmatches⟩ := kvPriorityHeader_eq_ok h
  have hletters : ∀ c ∈ (toString priority).toList, isSpace c = false ∧ c ≠ ';' :=
    fun _ => letter_of_mem_numeral
  have hfields : ∀ f ∈ headerFields priority ttl scope, ';' ∉ f := by
    intro f hf
    rcases List.mem_cons.mp hf with rfl | hf
    · exact fun hmem => (hletters _ hmem).2 rfl
    · rcases List.mem_append.mp hf with hf | hf
      · obtain ⟨text, hgiven, rfl⟩ := List.mem_map.mp hf
        have hnosep := notMem_of_matchesLine (hmatches text (Option.mem_toList.mp hgiven))
        simpa [field] using hnosep
      · obtain ⟨id, hgiven, rfl⟩ := List.mem_map.mp hf
        simpa [field] using hscope id (Option.mem_toList.mp hgiven)
  have hsplit : value.toList.splitOn ';' = headerFields priority ttl scope := by
    rw [htext]
    exact List.splitOn_intercalate ';' hfields (List.cons_ne_nil _ _)
  have hnumeral : atoi (trimSpace (toString priority).toList) = some priority := by
    rw [trimSpace_eq_self fun c hc => (hletters c hc).1, atoi_numeral hlow hhigh]
  have hlease : ∀ text : String,
      parseAttribute (field "ttl" text) = some (readField "ttl" text) := fun text =>
    parseAttribute_append (by decide : isSpace 't' = false) (by decide : '=' ∉ ['t', 't', 'l'])
      text.toList
  have howner : ∀ id : String,
      parseAttribute (field "scope" id) = some (readField "scope" id) := fun id =>
    parseAttribute_append (by decide : isSpace 's' = false)
      (by decide : '=' ∉ ['s', 'c', 'o', 'p', 'e']) id.toList
  unfold parseFields
  rw [hsplit]
  unfold headerFields
  dsimp only
  rw [hnumeral]
  cases given ttl with
  | none =>
    cases given scope with
    | none => rfl
    | some id => simp [howner]
  | some text =>
    cases given scope with
    | none => simp [hlease]
    | some id => simp [hlease, howner]

theorem rdropWhile_isSpace_iff {s : List Char} :
    s.rdropWhile isSpace = s ↔ ∀ c, s.getLast? = some c → isSpace c = false := by
  rw [List.rdropWhile_eq_self_iff]
  constructor
  · intro h c hc
    obtain ⟨hne, rfl⟩ := List.mem_getLast?_eq_getLast hc
    simpa using h hne
  · intro h hne
    simp [h _ (List.getLast?_eq_some_getLast hne)]

/-- The options read back as they were given exactly when the scope fits in a field. -/
theorem readsBack_iff (hlow : -2 ^ 63 ≤ priority) (hhigh : priority < 2 ^ 63)
    (h : kvPriorityHeader (some priority) ttl scope = .ok (some value)) :
    ReadsBack value priority ttl scope ↔ ∀ id, given scope = some id → FitsField id := by
  by_cases hnosep : ∀ id, given scope = some id → ';' ∉ id.toList
  · have hparse := parseFields_header hlow hhigh h hnosep
    have hvalues : valuesOf "ttl" ((given ttl).toList.map (readField "ttl") ++
            (given scope).toList.map (readField "scope")) =
          (given ttl).toList.map (fun text => text.toList.rdropWhile isSpace) ∧
        valuesOf "scope" ((given ttl).toList.map (readField "ttl") ++
            (given scope).toList.map (readField "scope")) =
          (given scope).toList.map fun id => id.toList.rdropWhile isSpace := by
      cases given ttl <;> cases given scope <;> exact ⟨rfl, rfl⟩
    constructor
    · rintro ⟨attributes, hparse', -, hscopes⟩ id hgiven
      rw [hparse] at hparse'
      obtain ⟨-, rfl⟩ := Prod.mk.inj (Option.some.inj hparse')
      rw [hvalues.2, hgiven] at hscopes
      exact ⟨hnosep id hgiven, rdropWhile_isSpace_iff.mp (List.cons.inj hscopes).1⟩
    · intro hfits
      refine ⟨_, hparse, hvalues.1, ?_⟩
      rw [hvalues.2]
      apply List.map_congr_left
      intro id hgiven
      exact rdropWhile_isSpace_iff.mpr (hfits id (Option.mem_toList.mp hgiven)).2
  · simp only [not_forall, not_not] at hnosep
    obtain ⟨id, hgiven, hsep⟩ := hnosep
    refine iff_of_false ?_ fun hfits => (hfits id hgiven).1 hsep
    rintro ⟨attributes, hparse, -, hscopes⟩
    have hmem : id.toList ∈ valuesOf "scope" attributes := by simp [hscopes, hgiven]
    exact notMem_of_parseFields hparse (mem_valuesOf.mp hmem) hsep

end Header

/-- The three options on their way to the backend, for a priority within 64 bits: they
read back as they were given exactly when the scope fits in a field, and behind the
gateway, in any state of the plugin, the request asks for the smaller of the two
priorities, with the client's own header as long as the plugin asks for no less. -/
theorem kv_options_reach_backend {K : Type} [Scalar K] {priority : ℤ}
    (hlow : -2 ^ 63 ≤ priority) (hhigh : priority < 2 ^ 63) {ttl scope : Option String}
    {value : String} (hvalue : kvPriorityHeader (some priority) ttl scope = .ok (some value))
    (p : KVCachePriority K) {request : InferenceRequest} (hsent : forwarded request = some value)
    (now : Time) :
    (ReadsBack value priority ttl scope ↔ ∀ id, given scope = some id → FitsField id) ∧
      ∃ arrived, forwarded (p.preRequest request now).1 = some arrived ∧
        leadingPriority arrived = some (((p.decide request now).1.map Directive.priority).elim
          priority (min priority)) ∧
        (arrived = value ↔
          ∀ d, (p.decide request now).1 = some d → priority ≤ d.priority) := by
  have hclient := leadingPriority_header hlow hhigh hvalue
  obtain ⟨headers, hheaders, hlookup⟩ := Option.bind_eq_some_iff.mp hsent
  refine ⟨readsBack_iff hlow hhigh hvalue, ?_⟩
  rcases p.preRequest_cases now hheaders with ⟨hsame, hkept⟩ | ⟨d, hd, hdrops, hset⟩
  · have hasks : ∀ d, (p.decide request now).1 = some d → priority ≤ d.priority := by
      intro d hd
      obtain ⟨existing, hexisting, hkeeps⟩ := hkept d hd
      obtain rfl := Option.some.inj (hlookup.symm.trans hexisting)
      obtain ⟨client, hleads, hle⟩ := keepsClient_text.mp hkeeps
      obtain rfl := Option.some.inj (hclient.symm.trans hleads)
      exact hle
    refine ⟨value, by rw [hsame, hsent], ?_, iff_of_true rfl hasks⟩
    cases hdecide : (p.decide request now).1 with
    | none => exact hclient
    | some d =>
      rw [hclient, Option.map_some, Option.elim_some, min_eq_left (hasks d hdecide)]
  · have hlt : d.priority < priority := by
      by_contra hle
      exact hdrops value hlookup (keepsClient_text.mpr ⟨priority, hclient, not_lt.mp hle⟩)
    refine ⟨d.text, by rw [hset, forwarded, Option.bind_some, AList.lookup_insert], ?_, ?_⟩
    · rw [hd, leadingPriority_text, Option.map_some, Option.elim_some, min_eq_right hlt.le]
    · refine iff_of_false (fun hsame => ?_) fun hasks => not_le.mpr hlt (hasks d hd)
      rw [← hsame, leadingPriority_text] at hclient
      exact hlt.ne (Option.some.inj hclient)

/-- Asking to be pinned, on a turn for which the plugin asks for a lease. -/
theorem kv_options_reach_backend_pinned :
    ReadsBack "100; ttl=3s; scope=a" 100 (some "3s") (some "a") ∧
      ∃ arrived, forwarded ((seenOnce "sess1").preRequest (clientTurn "100; ttl=3s; scope=a")
          2000000000).1 = some arrived ∧
        leadingPriority arrived = some 50 ∧ arrived ≠ "100; ttl=3s; scope=a" := by
  have hdecide : ((seenOnce "sess1").decide (clientTurn "100; ttl=3s; scope=a") 2000000000).1 =
      some (.lease 3000000000 "sess1") := by decide +kernel
  have hvalue : kvPriorityHeader (some 100) (some "3s") (some "a") =
      .ok (some "100; ttl=3s; scope=a") := by decide +kernel
  have hsent : forwarded (clientTurn "100; ttl=3s; scope=a") = some "100; ttl=3s; scope=a" := by
    decide +kernel
  obtain ⟨hreads, arrived, harrived, hleads, hsame⟩ := kv_options_reach_backend (by norm_num)
    (by norm_num) hvalue (seenOnce "sess1") hsent 2000000000
  refine ⟨hreads.mpr fun id hid => ?_, arrived, harrived, ?_, fun heq => ?_⟩
  · obtain rfl : "a" = id := Option.some.inj hid
    exact ⟨by decide, by simp [isSpace]⟩
  · rw [hleads, hdecide]
    rfl
  · exact absurd (hsame.mp heq _ hdecide) (by decide)

end SchedLm.Bench
