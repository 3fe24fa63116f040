import SchedLm.Gateway.Classify

/-!
The scheduling profile handler, and the loop it is driven by: the framework
asks for profiles, runs them, adds their results, and asks again until no
profile is picked. The handler chooses by request class and does not read the
results, so it picks the same kind of profile in every round.
-/

namespace SchedLm.Gateway

variable {Profile Result : Type}

def selectFirst (profiles : Dict String Profile) : List String → Dict String Profile
  | [] => ∅
  | name :: rest =>
    match profiles.lookup name with
    | some profile => AList.singleton name profile
    | none => selectFirst profiles rest

def preferredProfiles : Class → List String
  | .tool => ["prefix-affinity", "tool-affinity"]
  | .rag => ["rag-affinity", "prefix-affinity"]
  | .oneshot => ["round-robin"]

/-- `Pick`. The results gathered so far are passed and not read; `order` is the
order in which this call walks the profile map. -/
def pick (request : InferenceRequest) (profiles : Dict String Profile)
    (_profileResults : Dict String (Option Result)) (order : List String) :
    Dict String Profile :=
  let selected := selectFirst profiles (preferredProfiles (classify request.body))
  if selected.keys.length = 0 then selectFirst profiles order else selected

/-- What the handler does not control: the walk over the profile map in each
round, and what running a profile gives. -/
structure Schedule (Profile Result : Type) where
  order : ℕ → List String
  run : ℕ → String → Profile → Option Result

/-- Go walks a map in any order, and over each key once. -/
def Schedule.Walks (schedule : Schedule Profile Result) (profiles : Dict String Profile) : Prop :=
  ∀ round, (schedule.order round).Perm profiles.keys

/-- The results gathered before a round: every profile picked earlier has been
run, and its result stands under its name. -/
def gathered (request : InferenceRequest) (profiles : Dict String Profile)
    (schedule : Schedule Profile Result) : ℕ → Dict String (Option Result)
  | 0 => ∅
  | round + 1 =>
    let results := gathered request profiles schedule round
    (pick request profiles results (schedule.order round)).foldl
      (fun results name profile => results.insert name (schedule.run round name profile)) results

/-- The loop ends at the first round in which nothing is picked. Each round sees the
results gathered in those before it. -/
def Stops (request : InferenceRequest) (profiles : Dict String Profile)
    (schedule : Schedule Profile Result) : Prop :=
  ∃ round, (pick request profiles (gathered request profiles schedule round)
    (schedule.order round)).keys = []

/-- Selecting gives nothing, or one profile under its own name. -/
theorem selectFirst_cases (profiles : Dict String Profile) (names : List String) :
    (selectFirst profiles names = ∅ ∧ ∀ name ∈ names, name ∉ profiles) ∨
      ∃ name ∈ names, ∃ profile, profiles.lookup name = some profile ∧
        selectFirst profiles names = AList.singleton name profile := by
  induction names with
  | nil => exact Or.inl ⟨rfl, by simp⟩
  | cons first rest ih =>
    unfold selectFirst
    cases hfirst : profiles.lookup first with
    | some profile => exact Or.inr ⟨first, List.mem_cons_self, profile, hfirst, rfl⟩
    | none =>
      have habsent : first ∉ profiles := AList.lookup_eq_none.mp hfirst
      rcases ih with ⟨hempty, hrest⟩ | ⟨name, hname, profile, hlookup, hselect⟩
      · refine Or.inl ⟨hempty, fun name hname => ?_⟩
        rcases List.mem_cons.mp hname with rfl | hname
        · exact habsent
        · exact hrest name hname
      · exact Or.inr ⟨name, List.mem_cons_of_mem first hname, profile, hlookup, hselect⟩

/-- Whatever has been gathered, one profile of the map is picked: a preferred one, or
the first that the walk comes to. -/
theorem pick_eq_singleton (request : InferenceRequest) {profiles : Dict String Profile}
    (hne : profiles.keys ≠ []) (results : Dict String (Option Result)) {order : List String}
    (horder : order.Perm profiles.keys) :
    ∃ name profile, profiles.lookup name = some profile ∧
      pick request profiles results order = AList.singleton name profile := by
  unfold pick
  rcases selectFirst_cases profiles (preferredProfiles (classify request.body)) with
    ⟨hempty, -⟩ | ⟨name, -, profile, hlookup, hselect⟩
  · rw [hempty]
    obtain ⟨name, hname⟩ := List.exists_mem_of_ne_nil _ hne
    rcases selectFirst_cases profiles order with
      ⟨-, habsent⟩ | ⟨name, -, profile, hlookup, hselect⟩
    · exact absurd (AList.mem_keys.mpr hname) (habsent name (horder.mem_iff.mpr hname))
    · exact ⟨name, profile, hlookup, hselect⟩
  · rw [hselect]
    exact ⟨name, profile, hlookup, rfl⟩

theorem keys_pick_ne_nil (request : InferenceRequest) {profiles : Dict String Profile}
    (hne : profiles.keys ≠ []) (results : Dict String (Option Result)) {order : List String}
    (horder : order.Perm profiles.keys) : (pick request profiles results order).keys ≠ [] := by
  obtain ⟨name, profile, -, hpick⟩ := pick_eq_singleton request hne results horder
  rw [hpick, AList.keys_singleton]
  exact List.cons_ne_nil name []

def oneProfile : Dict String Unit := AList.singleton "round-robin" ()

def alwaysRuns : Schedule Unit Unit where
  order := fun _ => ["round-robin"]
  run := fun _ _ _ => some ()

/-- One profile, which succeeds in every round: for a one-shot no round is the last,
though the result is there from the second round on. -/
theorem picked_again :
    oneProfile.keys ≠ [] ∧ alwaysRuns.Walks oneProfile ∧
      ¬ Stops { body := none } oneProfile alwaysRuns := by
  have hne : oneProfile.keys ≠ [] := by decide
  refine ⟨hne, fun _ => List.Perm.refl _, ?_⟩
  rintro ⟨round, hstop⟩
  exact keys_pick_ne_nil { body := none } hne _ (List.Perm.refl _) hstop

/-- The scheduling loop never ends, for any request, any profiles as long as there is
one, any order in which the map is walked in each round, and any results of the profiles
that are run: `pick` does not look at the results gathered so far. -/
theorem never_stops (request : InferenceRequest) (profiles : Dict String Profile)
    (hne : profiles.keys ≠ []) (schedule : Schedule Profile Result)
    (hwalks : schedule.Walks profiles) : ¬ Stops request profiles schedule := by
  rintro ⟨round, hstop⟩
  exact keys_pick_ne_nil request hne (gathered request profiles schedule round)
    (hwalks round) hstop

/-- Three profiles, one of them for tool turns; the map is walked from another
end in every other round, and what is run fails in between. -/
def threeProfiles : Dict String Unit :=
  ((AList.singleton "default" ()).insert "prefix-affinity" ()).insert "spare" ()

def failsBetween : Schedule Unit Unit where
  order := fun round =>
    if round % 2 = 0 then threeProfiles.keys else threeProfiles.keys.reverse
  run := fun round _ _ => if round % 2 = 0 then some () else none

/-- A tool turn picks its profile again and again, and a one-shot, for which none
of the three is meant, whichever comes first. -/
theorem never_stops_three :
    ¬ Stops { body := chatBody [{ role := "tool" }] [] } threeProfiles failsBetween ∧
      ¬ Stops { body := none } threeProfiles failsBetween := by
  have hne : threeProfiles.keys ≠ [] := by decide
  have hwalks : failsBetween.Walks threeProfiles := by
    intro round
    unfold failsBetween
    dsimp only
    split_ifs
    · exact List.Perm.refl _
    · exact List.reverse_perm _
  exact ⟨never_stops _ threeProfiles hne failsBetween hwalks,
    never_stops _ threeProfiles hne failsBetween hwalks⟩

end SchedLm.Gateway
