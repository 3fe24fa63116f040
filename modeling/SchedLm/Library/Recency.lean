import Mathlib.Data.List.Dedup
import Mathlib.Data.List.DropRight
import SchedLm.Library.OrderedDict

/-!
A bounded table in order of use, as a function of its whole history. Each input
is folded into its key's value and makes the key the newest; the table keeps the
newest keys. A key is in the table exactly when fewer other keys than the
table has room for have been used since it was used last, so what its value has
folded are the inputs since the last time it fell out.
-/

namespace OrderedDict

variable {α β γ : Type} [DecidableEq α]

/-- Fold an input into its key's value, as the newest entry. -/
def update (capacity : ℕ) (fold : Option β → γ → β) (d : OrderedDict α β) (input : α × γ) :
    OrderedDict α β :=
  (d.pushEnd input.1 (fold (d.lookup input.1) input.2)).popWhileOver capacity

def updateAll (capacity : ℕ) (fold : Option β → γ → β) (history : List (α × γ)) :
    OrderedDict α β :=
  history.foldl (update capacity fold) ∅

abbrev keysOf (history : List (α × γ)) : List α := history.map Prod.fst

private theorem take_erase (key : α) (keys : List α) (n : ℕ) :
    ((keys.take (n + 1)).erase key).take n = (keys.erase key).take n := by
  induction keys generalizing n with
  | nil => simp
  | cons first rest ih =>
    rw [List.take_succ_cons]
    rcases eq_or_ne first key with rfl | hne
    · rw [List.erase_cons_head, List.erase_cons_head, List.take_take, min_self]
    · rw [List.erase_cons_tail (by simpa using hne), List.erase_cons_tail (by simpa using hne)]
      cases n with
      | zero => simp
      | succ n => rw [List.take_succ_cons, List.take_succ_cons, ih]

private theorem reverse_erase {keys : List α} (hnodup : keys.Nodup) (key : α) :
    (keys.erase key).reverse = keys.reverse.erase key := by
  rw [hnodup.erase_eq_filter, (List.nodup_reverse.mpr hnodup).erase_eq_filter,
    List.filter_reverse]

/-- Only the newest keys matter for the newest keys after a use. -/
private theorem rtake_use (key : α) {keys : List α} (hnodup : keys.Nodup) (capacity : ℕ) :
    ((keys.rtake capacity).erase key ++ [key]).rtake capacity =
      (keys.erase key ++ [key]).rtake capacity := by
  cases capacity with
  | zero => simp
  | succ n =>
    have hnewest : (keys.rtake (n + 1)).Nodup := hnodup.sublist (List.drop_sublist _ _)
    have hreverse : (keys.rtake (n + 1)).reverse = keys.reverse.take (n + 1) := by
      rw [List.rtake_eq_reverse_take_reverse, List.reverse_reverse]
    rw [List.rtake_concat_succ, List.rtake_concat_succ, List.rtake_eq_reverse_take_reverse,
      List.rtake_eq_reverse_take_reverse (keys.erase key), reverse_erase hnewest,
      reverse_erase hnodup, hreverse, take_erase]

/-- The distinct keys in order of their last use, after one more use. -/
theorem dedup_append_singleton (keys : List α) (key : α) :
    (keys ++ [key]).dedup = keys.dedup.erase key ++ [key] := by
  induction keys with
  | nil => simp
  | cons first rest ih =>
    rw [List.cons_append]
    by_cases hrest : first ∈ rest
    · rw [List.dedup_cons_of_mem (List.mem_append_left _ hrest), List.dedup_cons_of_mem hrest, ih]
    · rw [List.dedup_cons_of_notMem hrest]
      rcases eq_or_ne first key with rfl | hne
      · have habsent : first ∉ rest.dedup := fun h => hrest (List.mem_dedup.mp h)
        rw [List.dedup_cons_of_mem (List.mem_append_right _ (List.mem_singleton_self first)), ih,
          List.erase_cons_head, List.erase_of_not_mem habsent]
      · have hnew : first ∉ rest ++ [key] := by
          rw [List.mem_append, List.mem_singleton]
          exact not_or.mpr ⟨hrest, hne⟩
        rw [List.dedup_cons_of_notMem hnew, ih, List.erase_cons_tail (by simpa using hne),
          List.cons_append]

/-- The newest keys of a history of uses, in order of their last use. -/
def newest (capacity : ℕ) (uses : List α) : List α := uses.dedup.rtake capacity

theorem nodup_newest (capacity : ℕ) (uses : List α) : (newest capacity uses).Nodup :=
  (List.nodup_dedup uses).sublist (List.drop_sublist _ _)

theorem newest_concat (capacity : ℕ) (uses : List α) (key : α) :
    newest capacity (uses ++ [key]) =
      ((newest capacity uses).erase key ++ [key]).rtake capacity := by
  rw [newest, dedup_append_singleton, newest, rtake_use key (List.nodup_dedup uses)]

/-- Forgetting all but the newest keys does not show in what is newest later. -/
theorem newest_append (capacity : ℕ) (uses batch : List α) :
    newest capacity (newest capacity uses ++ batch) = newest capacity (uses ++ batch) := by
  induction batch using List.reverseRecOn with
  | nil =>
    rw [List.append_nil, List.append_nil, newest, (nodup_newest capacity uses).dedup, newest,
      List.rtake, List.rtake, List.length_drop, List.drop_drop]
    congr 1
    omega
  | append_singleton batch key ih =>
    rw [← List.append_assoc, ← List.append_assoc, newest_concat, ih, newest_concat]

theorem newest_subset {capacity capacity' : ℕ} (h : capacity ≤ capacity') (uses : List α) :
    newest capacity uses ⊆ newest capacity' uses :=
  List.drop_subset_drop_left uses.dedup (Nat.sub_le_sub_left h _)

private theorem exists_older (uses : List α) {batch : List α} (hnodup : batch.Nodup) :
    ∃ older, (uses ++ batch).dedup = older ++ batch := by
  obtain ⟨older, holder⟩ := List.suffix_union_right uses batch
  refine ⟨older, ?_⟩
  rw [List.dedup_append, hnodup.dedup, holder]

theorem subset_newest_append (uses : List α) {batch : List α} (hnodup : batch.Nodup)
    {capacity : ℕ} (hfits : batch.length ≤ capacity) :
    batch ⊆ newest capacity (uses ++ batch) := by
  obtain ⟨older, holder⟩ := exists_older uses hnodup
  have hlong : (older ++ batch).length - capacity ≤ older.length := by
    rw [List.length_append]
    omega
  rw [newest, holder, List.rtake, List.drop_append_of_le_length hlong]
  exact List.subset_append_right _ _

/-- Of a batch of distinct keys that does not fit, the end is kept. -/
theorem newest_append_of_le (uses : List α) {batch : List α} (hnodup : batch.Nodup)
    {capacity : ℕ} (hlong : capacity ≤ batch.length) :
    newest capacity (uses ++ batch) = batch.rtake capacity := by
  obtain ⟨older, holder⟩ := exists_older uses hnodup
  have hsplit : (older ++ batch).length - capacity =
      older.length + (batch.length - capacity) := by
    rw [List.length_append]
    omega
  rw [newest, holder, List.rtake, hsplit, List.drop_length_add_append]
  rfl

variable {capacity : ℕ} {fold : Option β → γ → β}

theorem updateAll_append_singleton (history : List (α × γ)) (input : α × γ) :
    updateAll capacity fold (history ++ [input]) =
      update capacity fold (updateAll capacity fold history) input := by
  rw [updateAll, List.foldl_append]
  rfl

/-- After any uses the table has the newest keys, in order of their last use, whatever
it keeps of the inputs. -/
theorem keys_updateAll (history : List (α × γ)) :
    (updateAll capacity fold history).keys = newest capacity (keysOf history) := by
  induction history using List.reverseRecOn with
  | nil => simp [updateAll, newest]
  | append_singleton history input ih =>
    have hkeys : keysOf (history ++ [input]) = keysOf history ++ [input.1] := List.map_append
    rw [updateAll_append_singleton, update, keys_popWhileOver, keys_pushEnd, ih, hkeys,
      newest_concat]
    rfl

theorem len_updateAll_le (history : List (α × γ)) :
    (updateAll capacity fold history).len ≤ capacity := by
  rw [len, keys_updateAll, newest, List.rtake, List.length_drop]
  omega

private theorem dedup_append_cons {keys : List α} {key : α} (hlast : key ∉ keys)
    (early : List α) : ∃ older, (early ++ key :: keys).dedup = older ++ key :: keys.dedup := by
  induction early with
  | nil => exact ⟨[], List.dedup_cons_of_notMem hlast⟩
  | cons first rest ih =>
    obtain ⟨older, holder⟩ := ih
    rw [List.cons_append]
    by_cases hmem : first ∈ rest ++ key :: keys
    · exact ⟨older, by rw [List.dedup_cons_of_mem hmem, holder]⟩
    · exact ⟨first :: older, by rw [List.dedup_cons_of_notMem hmem, holder, List.cons_append]⟩

/-- A key is kept after its last use exactly while there is room for the other keys used
since, each counted once. -/
theorem mem_updateAll_iff {early late : List (α × γ)} {key : α} (input : γ)
    (hlast : key ∉ keysOf late) :
    key ∈ updateAll capacity fold (early ++ (key, input) :: late) ↔
      (keysOf late).dedup.length < capacity := by
  obtain ⟨older, holder⟩ := dedup_append_cons hlast (keysOf early)
  rw [AList.mem_keys, keys_updateAll, newest, keysOf, List.map_append, List.map_cons, holder,
    List.rtake]
  have hlength : (older ++ key :: (keysOf late).dedup).length =
      older.length + ((keysOf late).dedup.length + 1) := by
    rw [List.length_append, List.length_cons]
  rw [hlength]
  constructor
  · intro hmem
    by_contra hfar
    have hsplit : older.length + ((keysOf late).dedup.length + 1) - capacity =
        older.length + ((keysOf late).dedup.length - capacity + 1) := by omega
    rw [hsplit, List.drop_length_add_append, List.drop_succ_cons] at hmem
    exact hlast (List.mem_dedup.mp (List.mem_of_mem_drop hmem))
  · intro hnear
    rw [List.drop_append_of_le_length (by omega)]
    exact List.mem_append_right _ List.mem_cons_self

theorem lookup_updateAll_of_last {early late : List (α × γ)} {key : α} {value : β}
    (hlast : key ∉ keysOf late)
    (h : (updateAll capacity fold (early ++ late)).lookup key = some value) :
    (updateAll capacity fold early).lookup key = some value := by
  induction late using List.reverseRecOn with
  | nil => simpa using h
  | append_singleton late input ih =>
    rw [keysOf, List.map_append, List.mem_append, not_or, List.map_singleton,
      List.mem_singleton] at hlast
    rw [← List.append_assoc, updateAll_append_singleton] at h
    rcases lookup_of_popWhileOver_pushEnd h with ⟨rfl, -⟩ | ⟨-, holder⟩
    · exact absurd rfl hlast.2
    · exact ih hlast.1 holder

/-- The value of a key by its last use: what that use has made of it, or
nothing when too many other keys have been used since. -/
theorem lookup_updateAll {early late : List (α × γ)} {key : α} (input : γ)
    (hlast : key ∉ keysOf late) :
    (updateAll capacity fold (early ++ (key, input) :: late)).lookup key =
      if (keysOf late).dedup.length < capacity then
        some (fold ((updateAll capacity fold early).lookup key) input)
      else none := by
  have hmem : key ∈ updateAll capacity fold (early ++ (key, input) :: late) ↔ _ :=
    mem_updateAll_iff input hlast
  split_ifs with hnear
  · obtain ⟨value, hvalue⟩ := Option.isSome_iff_exists.mp
      (AList.lookup_isSome.mpr (hmem.mpr hnear))
    have hstored : (updateAll capacity fold (early ++ [(key, input)])).lookup key = some value := by
      apply lookup_updateAll_of_last hlast
      rw [List.append_assoc, List.singleton_append]
      exact hvalue
    rw [updateAll_append_singleton] at hstored
    have hpushed := lookup_of_popWhileOver hstored
    rw [lookup_pushEnd] at hpushed
    rw [hvalue, hpushed]
  · exact AList.lookup_eq_none.mpr fun h => hnear (hmem.mp h)

theorem lookup_updateAll_of_absent {history : List (α × γ)} {key : α}
    (habsent : key ∉ keysOf history) : (updateAll capacity fold history).lookup key = none := by
  rw [AList.lookup_eq_none, AList.mem_keys, keys_updateAll]
  intro hmem
  exact habsent (List.mem_dedup.mp (List.mem_of_mem_drop hmem))

omit [DecidableEq α] in
theorem exists_last {history : List (α × γ)} {key : α} (h : key ∈ keysOf history) :
    ∃ early input late, history = early ++ (key, input) :: late ∧ key ∉ keysOf late := by
  classical
  induction history with
  | nil => cases h
  | cons first rest ih =>
    by_cases hrest : key ∈ keysOf rest
    · obtain ⟨early, input, late, rfl, hlast⟩ := ih hrest
      exact ⟨first :: early, input, late, rfl, hlast⟩
    · obtain ⟨used, input⟩ := first
      rcases List.mem_cons.mp h with rfl | hmem
      · exact ⟨[], input, rest, rfl, hrest⟩
      · exact absurd hmem hrest

/-- The key was used last with this input, and there is room for the other keys
used since. -/
def UsedWithin (capacity : ℕ) (history : List (α × γ)) (key : α) (input : γ) : Prop :=
  ∃ early late, history = early ++ (key, input) :: late ∧ key ∉ keysOf late ∧
    (keysOf late).dedup.length < capacity

/-- A table that stores its inputs has a key's last one while there is room. -/
theorem lookup_stored_iff {history : List (α × β)} {key : α} {value : β} :
    (updateAll capacity (fun _ input => input) history).lookup key = some value ↔
      UsedWithin capacity history key value := by
  constructor
  · intro h
    by_cases hused : key ∈ keysOf history
    · obtain ⟨early, input, late, rfl, hlast⟩ := exists_last hused
      rw [lookup_updateAll input hlast] at h
      split_ifs at h with hnear
      obtain rfl := Option.some.inj h
      exact ⟨early, late, rfl, hlast, hnear⟩
    · rw [lookup_updateAll_of_absent hused] at h
      cases h
  · rintro ⟨early, late, rfl, hlast, hnear⟩
    rw [lookup_updateAll value hlast, if_pos hnear]

/-- Tables with other names for the keys and the inputs stay in step. -/
theorem lookup_stored_map {α' β' : Type} [DecidableEq α'] {rename : α → α'}
    (hinjective : Function.Injective rename) (f : β → β') (history : List (α × β)) (key : α) :
    (updateAll capacity (fun _ input => input) (history.map (Prod.map rename f))).lookup
        (rename key) =
      ((updateAll capacity (fun _ input => input) history).lookup key).map f := by
  have hkeys : ∀ uses : List (α × β),
      keysOf (uses.map (Prod.map rename f)) = (keysOf uses).map rename := by
    intro uses
    rw [keysOf, List.map_map, keysOf, List.map_map]
    rfl
  by_cases hused : key ∈ keysOf history
  · obtain ⟨early, input, late, rfl, hlast⟩ := exists_last hused
    have hlast' : rename key ∉ keysOf (late.map (Prod.map rename f)) := by
      rw [hkeys, List.mem_map_of_injective hinjective]
      exact hlast
    rw [List.map_append, List.map_cons]
    change (updateAll capacity _ (_ ++ (rename key, f input) :: _)).lookup _ = _
    rw [lookup_updateAll _ hlast', lookup_updateAll _ hlast, hkeys,
      List.dedup_map_of_injective hinjective, List.length_map]
    split_ifs <;> rfl
  · have hused' : rename key ∉ keysOf (history.map (Prod.map rename f)) := by
      rw [hkeys, List.mem_map_of_injective hinjective]
      exact hused
    rw [lookup_updateAll_of_absent hused', lookup_updateAll_of_absent hused]
    rfl

/-- The inputs of a key in the longest final run of its uses in which each, and
the present, has room for the other keys used since the one before. -/
inductive FinalRun (capacity : ℕ) (key : α) : List (α × γ) → List γ → Prop where
  | unused {history : List (α × γ)} (habsent : key ∉ keysOf history) :
      FinalRun capacity key history []
  | lost {early late : List (α × γ)} {input : γ} (hlast : key ∉ keysOf late)
      (hfar : capacity ≤ (keysOf late).dedup.length) :
      FinalRun capacity key (early ++ (key, input) :: late) []
  | next {early late : List (α × γ)} {inputs : List γ} {input : γ}
      (hrun : FinalRun capacity key early inputs) (hlast : key ∉ keysOf late)
      (hnear : (keysOf late).dedup.length < capacity) :
      FinalRun capacity key (early ++ (key, input) :: late) (inputs ++ [input])

theorem exists_finalRun (capacity : ℕ) (key : α) (history : List (α × γ)) :
    ∃ inputs, FinalRun capacity key history inputs := by
  by_cases hused : key ∈ keysOf history
  · obtain ⟨early, input, late, hhistory, hlast⟩ := exists_last hused
    have hshorter : early.length < history.length := by
      rw [hhistory, List.length_append, List.length_cons]
      omega
    obtain ⟨inputs, hrun⟩ := exists_finalRun capacity key early
    subst hhistory
    rcases lt_or_ge (keysOf late).dedup.length capacity with hnear | hfar
    · exact ⟨_, .next hrun hlast hnear⟩
    · exact ⟨_, .lost hlast hfar⟩
  · exact ⟨[], .unused hused⟩
termination_by history.length

theorem FinalRun.mem {key : α} {history : List (α × γ)} {inputs : List γ}
    (h : FinalRun capacity key history inputs) :
    ∀ input ∈ inputs, (key, input) ∈ history := by
  induction h with
  | unused => simp
  | lost => simp
  | next hrun hlast hnear ih =>
    intro input hinput
    rcases List.mem_append.mp hinput with hearly | hnow
    · exact List.mem_append_left _ (ih input hearly)
    · rw [List.mem_singleton.mp hnow]
      exact List.mem_append_right _ List.mem_cons_self

/-- What the table has folded for a key are the inputs of its final run. -/
theorem FinalRun.lookup_eq {key : α} {history : List (α × γ)} {inputs : List γ}
    (h : FinalRun capacity key history inputs) :
    (updateAll capacity fold history).lookup key =
      inputs.foldl (fun value input => some (fold value input)) none := by
  induction h with
  | unused habsent => exact lookup_updateAll_of_absent habsent
  | lost hlast hfar =>
    rw [lookup_updateAll _ hlast, if_neg (not_lt.mpr hfar)]
    rfl
  | next hrun hlast hnear ih =>
    rw [lookup_updateAll _ hlast, if_pos hnear, ih, List.foldl_append]
    rfl

theorem FinalRun.unique {key : α} {history : List (α × γ)} {first second : List γ}
    (hfirst : FinalRun capacity key history first)
    (hsecond : FinalRun capacity key history second) : first = second := by
  -- A table that lists its inputs tells the runs apart.
  let listed : Option (List γ) → γ → List γ := fun inputs input => inputs.getD [] ++ [input]
  have hlisted : ∀ inputs : List γ,
      (inputs.foldl (fun value input => some (listed value input)) none).getD [] = inputs := by
    intro inputs
    induction inputs using List.reverseRecOn with
    | nil => rfl
    | append_singleton inputs input ih =>
      rw [List.foldl_append]
      exact congrArg (· ++ [input]) ih
  rw [← hlisted first, ← hlisted second, ← hfirst.lookup_eq, ← hsecond.lookup_eq]

end OrderedDict
