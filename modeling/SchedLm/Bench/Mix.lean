import SchedLm.Library.FloatText
import SchedLm.Sim.RequestCounts

/-!
The `--mix` option, and what the mixes it lets through yield. The check looks at
the names and at the sum of the fractions, not at each of them.
-/

namespace SchedLm.Bench

open Runs Sim

def float {K : Type} [Field K] (text : List Char) : Option (FloatValue K) :=
  FloatText.parse (Text.trim isSpace text)

/-- `part.partition("=")`, without the space around the name. -/
def nameAndFrac (part : List Char) : String × List Char :=
  let (name, frac) := Text.cut '=' part
  (String.ofList (Text.trim isSpace name), frac.getD [])

def parts (value : String) : List (String × List Char) :=
  (value.toList.splitOn ',').map nameAndFrac

/-- `click.BadParameter`, by what it says. -/
inductive BadParameter (K : Type) where
  | expectedFracs (value : String)
  | unknownClasses (names : List String)
  | notSumOne (total : FloatValue K)
  deriving DecidableEq, Repr

section

variable {K : Type} [Scalar K]

def assign (mix : OrderedDict String (FloatValue K)) (part : String × List Char) :
    Option (OrderedDict String (FloatValue K)) := do
  let frac ← float part.2
  return mix.setItem part.1 frac

def fracSum (mix : OrderedDict String (FloatValue K)) : FloatValue K :=
  FloatValue.sum (mix.entries.map fun entry => entry.2)

def parseMix (value : String) :
    Except (BadParameter K) (OrderedDict String (FloatValue K)) :=
  match (parts value).foldlM assign ∅ with
  | none => throw (.expectedFracs value)
  | some mix =>
    let unknown := mix.keys.filter fun name => name ∉ ["tool", "rag", "oneshot"]
    if unknown ≠ [] then throw (.unknownClasses (unknown.mergeSort fun a b => a ≤ b))
    else if (fracSum mix).fartherThan (1 / 1000000) 1 then throw (.notSumOne (fracSum mix))
    else return mix

def lastFrac (parts : List (String × List Char)) (name : String) : Option (List Char) :=
  (parts.reverse.find? fun part => part.1 = name).map Prod.snd

/-- What an accepted mix is to be: of fractions from zero to one, whose requests
add up to the budget but for the rounding of the classes and the tolerance of the
sum. -/
def Budgeted (mix : OrderedDict String (FloatValue K)) : Prop :=
  ∃ fractions : Dict String K, mix = OrderedDict.mapValues .finite fractions ∧
    (∀ name fraction, fractions.lookup name = some fraction → 0 ≤ fraction ∧ fraction ≤ 1) ∧
    ∀ (env : Surroundings K) (numSessions turns : ℤ) (qps : K) (params : MixedParams K)
      (vocab vocab' : Vocab) (requests : List (GeneratedTurn K)), 0 ≤ numSessions → 0 ≤ turns →
      generateMixed env numSessions turns qps { params with mix := some fractions } vocab =
        .ok (requests, vocab') →
      |(requests.length : K) - (numSessions * turns : ℤ)| ≤
        turns / 2 + 1 + 1 / 1000000 * (numSessions * turns : ℤ)

theorem lastFrac_append_singleton (front : List (String × List Char))
    (part : String × List Char) (name : String) :
    lastFrac (front ++ [part]) name =
      if part.1 = name then some part.2 else lastFrac front name := by
  unfold lastFrac
  rw [List.reverse_append, List.reverse_singleton, List.singleton_append, List.find?_cons]
  split_ifs with hname
  · simp [hname]
  · simp [hname]

theorem mem_of_lastFrac {parts : List (String × List Char)} {name : String} {text : List Char}
    (h : lastFrac parts name = some text) : (name, text) ∈ parts := by
  obtain ⟨part, hfind, rfl⟩ := Option.map_eq_some_iff.mp h
  have hname : part.1 = name := by simpa using List.find?_some hfind
  subst hname
  exact List.mem_reverse.mp (List.mem_of_find?_eq_some hfind)

/-- Each name has the last of its fractions. The induction adds parts at the end. -/
theorem lookup_of_foldlM_assign {parts : List (String × List Char)}
    {mix : OrderedDict String (FloatValue K)} (h : parts.foldlM assign ∅ = some mix)
    (name : String) :
    (lastFrac parts name).map float = (mix.lookup name).map some := by
  induction parts using List.reverseRecOn generalizing mix with
  | nil =>
    obtain rfl := Option.some.inj h
    rfl
  | append_singleton front part ih =>
    rw [List.foldlM_append] at h
    obtain ⟨mix', hfront, hlast⟩ := Option.bind_eq_some_iff.mp h
    obtain ⟨mix'', hassign, hend⟩ := Option.bind_eq_some_iff.mp hlast
    obtain rfl := Option.some.inj hend
    obtain ⟨frac, hfrac, hset⟩ := Option.bind_eq_some_iff.mp hassign
    obtain rfl := Option.some.inj hset
    rw [lastFrac_append_singleton]
    split_ifs with hname
    · subst hname
      rw [OrderedDict.lookup_setItem, Option.map_some, Option.map_some, hfrac]
    · rw [OrderedDict.lookup_setItem_ne (Ne.symm hname)]
      exact ih hfront

theorem parseMix_ok {value : String} {mix : OrderedDict String (FloatValue K)}
    (h : parseMix value = .ok mix) :
    (parts value).foldlM assign ∅ = some mix ∧
      (∀ name ∈ mix, name ∈ ({"tool", "rag", "oneshot"} : Finset String)) ∧
      (fracSum mix).fartherThan (1 / 1000000) 1 = false := by
  unfold parseMix at h
  cases hfold : (parts value).foldlM (assign (K := K)) ∅ with
  | none =>
    rw [hfold] at h
    cases h
  | some mix' =>
    rw [hfold] at h
    dsimp only at h
    split_ifs at h with hunknown hsum
    obtain rfl := Except.ok.inj h
    refine ⟨rfl, ?_, by simpa using hsum⟩
    intro name hname
    rw [not_not, List.filter_eq_nil_iff] at hunknown
    have hin := hunknown name (AList.mem_keys.mp hname)
    rw [decide_eq_true_eq, not_not] at hin
    simpa using hin

theorem fracSum_mapValues (fractions : Dict String K) :
    fracSum (OrderedDict.mapValues .finite fractions) =
      .finite (OrderedDict.total id fractions) := by
  have hvalues : (OrderedDict.mapValues FloatValue.finite fractions).entries.map
      (fun entry => entry.2) = (fractions.entries.map fun entry => id entry.2).map .finite := by
    rw [List.map_map]
    exact List.map_map
  rw [fracSum, hvalues, FloatValue.sum_map_finite]
  rfl

/-- The sum the check looks at is that of the three classes, near to one. -/
theorem abs_classes_sub_one_le {value : String} {fractions : Dict String K}
    (haccepted : parseMix value = .ok (OrderedDict.mapValues .finite fractions)) :
    |(fractions.lookup "tool").getD 0 + (fractions.lookup "rag").getD 0 +
      (fractions.lookup "oneshot").getD 0 - 1| ≤ 1 / 1000000 := by
  obtain ⟨-, hknown, hsum⟩ := parseMix_ok haccepted
  have hclasses : ∀ name ∈ fractions, name ∈ ({"tool", "rag", "oneshot"} : Finset String) := by
    intro name hname
    apply hknown
    rw [← AList.lookup_isSome, OrderedDict.lookup_mapValues, Option.isSome_map]
    exact AList.lookup_isSome.mpr hname
  have htotal : OrderedDict.total id fractions = (fractions.lookup "tool").getD 0 +
      (fractions.lookup "rag").getD 0 + (fractions.lookup "oneshot").getD 0 := by
    rw [OrderedDict.total_eq_sum_lookup id hclasses]
    simp [add_assoc]
  rw [fracSum_mapValues] at hsum
  simpa [FloatValue.fartherThan, htotal] using hsum

/-- An accepted mix is not empty, so it is the one the generator takes, and the default
is not. -/
theorem mixture_of_accepted {value : String} {fractions : Dict String K}
    (haccepted : parseMix value = .ok (OrderedDict.mapValues .finite fractions))
    (params : MixedParams K) :
    ({ params with mix := some fractions } : MixedParams K).mixture = fractions := by
  have hkeys : fractions.keys ≠ [] := by
    intro hempty
    have hnone : ∀ name, fractions.lookup name = none := by
      intro name
      rw [AList.lookup_eq_none, AList.mem_keys, hempty]
      exact List.not_mem_nil
    have hsum := abs_classes_sub_one_le haccepted
    rw [hnone, hnone, hnone] at hsum
    norm_num at hsum
  exact if_neg hkeys

/-- A mix of numbers from zero to one that the check lets through keeps to the
budget. -/
theorem budgeted_of_finite {value : String} {fractions : Dict String K}
    (haccepted : parseMix value = .ok (OrderedDict.mapValues .finite fractions))
    (hunit : ∀ name fraction, fractions.lookup name = some fraction →
      0 ≤ fraction ∧ fraction ≤ 1) :
    Budgeted (OrderedDict.mapValues .finite fractions) := by
  refine ⟨fractions, rfl, hunit, ?_⟩
  intro env numSessions turns qps params vocab vocab' requests hsessions hturns hrun
  have hlength := (returns_length_generateMixed numSessions turns qps
    { params with mix := some fractions }).of_run hrun
  have hcount := abs_requestCount_sub_le hsessions hturns
    fun name fraction hlookup => (hunit name fraction hlookup).1
  have hsum := abs_classes_sub_one_le haccepted
  have hbudget : (0 : K) ≤ (numSessions * turns : ℤ) :=
    Int.cast_nonneg (mul_nonneg hsessions hturns)
  rw [hlength, mixture_of_accepted haccepted]
  generalize ((numSessions * turns : ℤ) : K) = budget at *
  generalize (fractions.lookup "tool").getD 0 + (fractions.lookup "rag").getD 0 +
    (fractions.lookup "oneshot").getD 0 = total at *
  calc |(requestCount numSessions turns fractions : K) - budget|
      = |(requestCount numSessions turns fractions - budget * total) + budget * (total - 1)| := by
        congr 1
        ring
    _ ≤ |requestCount numSessions turns fractions - budget * total| + |budget * (total - 1)| :=
        abs_add_le _ _
    _ ≤ turns / 2 + 1 + budget * (1 / 1000000) := by
        rw [abs_mul, abs_of_nonneg hbudget]
        gcongr
    _ = turns / 2 + 1 + 1 / 1000000 * budget := by ring

/-- A mix that is let through yields the budget, in every stream made of it, exactly
when the last fraction of each name is a number from zero to one: no minus, no excess
that another fraction makes up for or the tolerance covers, and neither `nan` nor an
infinity. Only names and the sum are checked. -/
theorem parseMix_budgeted_iff {value : String} {mix : OrderedDict String (FloatValue K)}
    (haccepted : parseMix value = .ok mix) :
    Budgeted mix ↔ ∀ name text, lastFrac (parts value) name = some text →
      ∃ fraction : K, float text = some (.finite fraction) ∧ 0 ≤ fraction ∧ fraction ≤ 1 := by
  have hfold := (parseMix_ok haccepted).1
  constructor
  · rintro ⟨fractions, rfl, hunit, -⟩ name text htext
    have hread := lookup_of_foldlM_assign hfold name
    rw [htext, Option.map_some, OrderedDict.lookup_mapValues] at hread
    obtain ⟨frac, hfrac, hfloat⟩ := Option.map_eq_some_iff.mp hread.symm
    obtain ⟨fraction, hfraction, rfl⟩ := Option.map_eq_some_iff.mp hfrac
    exact ⟨fraction, hfloat.symm, hunit name fraction hfraction⟩
  · intro hlast
    -- every value is the last of its name, so it is a number
    have hvalue : ∀ name frac, mix.lookup name = some frac →
        ∃ fraction : K, frac = .finite fraction ∧ 0 ≤ fraction ∧ fraction ≤ 1 := by
      intro name frac hlookup
      have hread := lookup_of_foldlM_assign hfold name
      rw [hlookup, Option.map_some] at hread
      obtain ⟨text, htext, hfloat⟩ := Option.map_eq_some_iff.mp hread
      obtain ⟨fraction, hfinite, hunit⟩ := hlast name text htext
      exact ⟨fraction, Option.some.inj (hfloat.symm.trans hfinite), hunit⟩
    obtain ⟨fractions, rfl⟩ := OrderedDict.exists_mapValues FloatValue.finite
      fun entry hentry => (hvalue entry.1 entry.2 (AList.mem_lookup_iff.mpr hentry)).imp
        fun _ h => h.1
    apply budgeted_of_finite haccepted
    intro name fraction hlookup
    have hmapped : (OrderedDict.mapValues FloatValue.finite fractions).lookup name =
        some (.finite fraction) := by
      rw [OrderedDict.lookup_mapValues, hlookup]
      rfl
    obtain ⟨fraction', heq, hunit⟩ := hvalue name _ hmapped
    obtain rfl := FloatValue.finite.inj heq
    exact hunit

end

/-- The example of the help text, with an earlier fraction that a later one
replaces. -/
theorem parseMix_budgeted_iff_three :
    ∃ mix : OrderedDict String (FloatValue ℚ),
      parseMix "rag=7, tool=0.5,rag=.3,oneshot=2e-1" = .ok mix ∧ Budgeted mix := by
  have haccepted : (parseMix "rag=7, tool=0.5,rag=.3,oneshot=2e-1" :
      Except (BadParameter ℚ) _).toOption.isSome = true := by decide +kernel
  obtain ⟨mix, hmix⟩ := exists_eq_ok haccepted
  refine ⟨mix, hmix, (parseMix_budgeted_iff hmix).mpr ?_⟩
  intro name text htext
  have hparts : parts "rag=7, tool=0.5,rag=.3,oneshot=2e-1" =
      [("rag", ['7']), ("tool", ['0', '.', '5']), ("rag", ['.', '3']),
        ("oneshot", ['2', 'e', '-', '1'])] := by
    decide +kernel
  rw [hparts] at htext
  have hmem := mem_of_lastFrac htext
  simp only [List.mem_cons, Prod.mk.injEq, List.not_mem_nil, or_false] at hmem
  rcases hmem with ⟨rfl, rfl⟩ | ⟨rfl, rfl⟩ | ⟨rfl, rfl⟩ | ⟨rfl, rfl⟩
  · exact absurd htext (by decide +kernel)
  · exact ⟨1 / 2, by decide +kernel, by norm_num, by norm_num⟩
  · exact ⟨3 / 10, by decide +kernel, by norm_num, by norm_num⟩
  · exact ⟨1 / 5, by decide +kernel, by norm_num, by norm_num⟩

/-- A fraction above one that a negative one makes up for: four requests are asked
for, and eight are made. -/
theorem not_budgeted_negative :
    ∃ (mix : OrderedDict String (FloatValue ℚ)) (fractions : Dict String ℚ)
      (requests : List (GeneratedTurn ℚ)) (vocab : Vocab),
      parseMix "tool=2,rag=-1" = .ok mix ∧ mix = OrderedDict.mapValues .finite fractions ∧
      fractions.lookup "tool" = some 2 ∧ fractions.lookup "rag" = some (-1) ∧
      generateMixed unvaried 4 1 1 { mix := some fractions } (importedVocab unvaried) =
        .ok (requests, vocab) ∧ requests.length = 8 ∧ ¬Budgeted mix := by
  let fractions : OrderedDict String ℚ :=
    (OrderedDict.setItem ∅ "tool" 2).setItem "rag" (-1)
  have hentries : (parseMix "tool=2,rag=-1" :
      Except (BadParameter ℚ) _).toOption.map AList.entries =
        some (OrderedDict.mapValues .finite fractions).entries := by decide +kernel
  have hreturns : (generateMixed unvaried 4 1 1 { mix := some fractions }
      (importedVocab unvaried)).toOption.isSome = true := by decide +kernel
  have htool : fractions.lookup "tool" = some 2 := by decide +kernel
  obtain ⟨mix, haccepted, hmix⟩ : ∃ mix, (parseMix "tool=2,rag=-1" :
      Except (BadParameter ℚ) _) = .ok mix ∧ mix = OrderedDict.mapValues .finite fractions := by
    cases haccepted : (parseMix "tool=2,rag=-1" : Except (BadParameter ℚ) _) with
    | error e =>
      rw [haccepted] at hentries
      cases hentries
    | ok mix =>
      rw [haccepted] at hentries
      exact ⟨mix, rfl, AList.ext (Option.some.inj hentries)⟩
  obtain ⟨⟨requests, vocab⟩, hrun⟩ := exists_eq_ok hreturns
  have hlength := (returns_length_generateMixed 4 1 1 { mix := some fractions }).of_run hrun
  have height : requests.length = 8 := hlength.trans (by decide +kernel)
  refine ⟨mix, fractions, requests, vocab, haccepted, hmix, htool, by decide +kernel, hrun, height,
    ?_⟩
  rintro ⟨fractions', hsame, hunit, -⟩
  have hlookup := congrArg (AList.lookup "tool") (hmix.symm.trans hsame)
  rw [OrderedDict.lookup_mapValues, OrderedDict.lookup_mapValues, htool] at hlookup
  obtain ⟨two, htwo, heq⟩ := Option.map_eq_some_iff.mp hlookup.symm
  obtain rfl := FloatValue.finite.inj heq
  exact absurd (hunit "tool" 2 htwo).2 (by norm_num)

end SchedLm.Bench
