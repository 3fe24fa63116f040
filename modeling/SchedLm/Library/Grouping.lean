import SchedLm.Library.OrderedDict

/-!
A list taken apart by a key, the groups in the order in which their keys came
first and each in the order of the list. No group is empty.
-/

namespace Grouping

variable {α κ : Type}

structure Group (α : Type) where
  items : List α
  nonempty : items ≠ []

namespace Group

def single (x : α) : Group α := ⟨[x], List.cons_ne_nil x []⟩

def append (g : Group α) (x : α) : Group α :=
  ⟨g.items ++ [x], List.append_ne_nil_of_right_ne_nil g.items (List.cons_ne_nil x [])⟩

end Group

variable [DecidableEq κ] (key : α → κ)

/-- `groups[key(x)].append(x)`, of a dictionary that makes up missing lists. -/
def add (d : OrderedDict κ (Group α)) (x : α) : OrderedDict κ (Group α) :=
  OrderedDict.setItem d (key x)
    (match d.lookup (key x) with
    | some g => g.append x
    | none => .single x)

def group (xs : List α) : OrderedDict κ (Group α) := xs.foldl (add key) ∅

theorem group_append_singleton (xs : List α) (x : α) :
    group key (xs ++ [x]) = add key (group key xs) x := by
  unfold group
  rw [List.foldl_append]
  rfl

theorem items_lookup_group (xs : List α) (k : κ) :
    (((group key xs).lookup k).map Group.items).getD [] = xs.filter fun x => key x = k := by
  induction xs using List.reverseRecOn with
  | nil => rfl
  | append_singleton rest x ih =>
    rw [group_append_singleton, List.filter_append, add]
    rcases eq_or_ne k (key x) with rfl | hne
    · have hself : [x].filter (fun y => key y = key x) = [x] := by simp
      rw [OrderedDict.lookup_setItem, Option.map_some, Option.getD_some, hself, ← ih]
      cases (group key rest).lookup (key x) <;> rfl
    · have hnone : [x].filter (fun y => key y = k) = [] := by simp [hne.symm]
      rw [OrderedDict.lookup_setItem_ne hne, ih, hnone, List.append_nil]

theorem mem_group {xs : List α} {k : κ} : k ∈ group key xs ↔ ∃ x ∈ xs, key x = k := by
  have hitems := items_lookup_group key xs k
  rw [← AList.lookup_isSome]
  cases hlookup : (group key xs).lookup k with
  | none =>
    rw [hlookup] at hitems
    have hnone := List.filter_eq_nil_iff.mp hitems.symm
    simpa using hnone
  | some g =>
    rw [hlookup] at hitems
    obtain ⟨x, hx⟩ := List.exists_mem_of_ne_nil _ g.nonempty
    have hmem : x ∈ xs.filter fun x => key x = k := hitems ▸ hx
    simp only [Option.isSome_some, true_iff]
    exact ⟨x, (List.mem_filter.mp hmem).1, of_decide_eq_true (List.mem_filter.mp hmem).2⟩

theorem items_group (xs : List α) :
    (group key xs).entries.map (fun entry => entry.2.items) =
      (group key xs).keys.map fun k => xs.filter fun x => key x = k := by
  rw [AList.keys, List.keys, List.map_map]
  apply List.map_congr_left
  intro entry hentry
  have hlookup : (group key xs).lookup entry.1 = some entry.2 := AList.mem_lookup_iff.mpr hentry
  have hitems := items_lookup_group key xs entry.1
  rw [hlookup] at hitems
  exact hitems

/-- Parts of a list by keys it has all of, put together again. -/
theorem perm_flatMap_filter {keys : List κ} (hnodup : keys.Nodup) {xs : List α}
    (hkeys : ∀ x ∈ xs, key x ∈ keys) :
    (keys.flatMap fun k => xs.filter fun x => key x = k).Perm xs := by
  induction keys generalizing xs with
  | nil =>
    obtain rfl : xs = [] := List.eq_nil_iff_forall_not_mem.mpr fun x hx => nomatch hkeys x hx
    exact List.Perm.refl _
  | cons k rest ih =>
    obtain ⟨hfresh, hrest⟩ := List.nodup_cons.mp hnodup
    have hothers : (rest.flatMap fun k' => xs.filter fun x => key x = k') =
        rest.flatMap fun k' => (xs.filter fun x => !decide (key x = k)).filter
          fun x => key x = k' := by
      apply List.flatMap_congr
      intro k' hk'
      rw [List.filter_filter]
      apply List.filter_congr
      intro x _
      have hne : k' ≠ k := fun heq => hfresh (heq ▸ hk')
      by_cases hx : key x = k' <;> simp [hx, hne]
    have hleft : ∀ x ∈ xs.filter (fun x => !decide (key x = k)), key x ∈ rest := by
      intro x hx
      obtain ⟨hmem, hother⟩ := List.mem_filter.mp hx
      rcases List.mem_cons.mp (hkeys x hmem) with heq | hin
      · simp [heq] at hother
      · exact hin
    have htail := ih hrest hleft
    rw [List.flatMap_cons, hothers]
    exact (htail.append_left _).trans (List.filter_append_perm _ xs)

theorem perm_items_group (xs : List α) :
    ((group key xs).entries.flatMap fun entry => entry.2.items).Perm xs := by
  have hgroups := congrArg List.flatten (items_group key xs)
  rw [← List.flatMap_def, ← List.flatMap_def] at hgroups
  rw [hgroups]
  apply perm_flatMap_filter key (group key xs).keys_nodup
  intro x hx
  exact AList.mem_keys.mp ((mem_group key).mpr ⟨x, hx, rfl⟩)

end Grouping
