import Mathlib.Data.List.Forall2
import SchedLm.Library.OrderedDict

/-!
Dictionaries under new names. Two dictionaries are alike when they list related
values under related keys, in the same places; when a key is related to one key
at most, in both directions, every operation on them keeps them alike. Also
couples of related values, so that two related lists can be traversed as one.
-/

theorem biUnique_eq {α : Type} : Relator.BiUnique (Eq : α → α → Prop) :=
  ⟨fun _ _ _ h h' => h.trans h'.symm, fun _ _ _ h h' => h.symm.trans h'⟩

structure Couple {α β : Type} (R : α → β → Prop) where
  left : α
  right : β
  related : R left right

namespace Couple

variable {α β : Type} {R : α → β → Prop}

/-- Lists related place by place are the two sides of a list of couples. -/
theorem exists_of_forall₂ {xs : List α} {ys : List β} (h : List.Forall₂ R xs ys) :
    ∃ couples : List (Couple R), couples.map left = xs ∧ couples.map right = ys := by
  induction h with
  | nil => exact ⟨[], rfl, rfl⟩
  | cons hxy _ ih =>
    obtain ⟨couples, rfl, rfl⟩ := ih
    exact ⟨⟨_, _, hxy⟩ :: couples, rfl, rfl⟩

theorem forall₂ (couples : List (Couple R)) :
    List.Forall₂ R (couples.map left) (couples.map right) := by
  rw [List.forall₂_map_left_iff, List.forall₂_map_right_iff, List.forall₂_same]
  exact fun c _ => c.related

/-- Sorting by orders that agree on related values keeps the lists related. -/
theorem forall₂_mergeSort {le : α → α → Bool} {le' : β → β → Bool}
    (hle : ∀ {a a' b b'}, R a a' → R b b' → le a b = le' a' b') {xs : List α} {ys : List β}
    (h : List.Forall₂ R xs ys) : List.Forall₂ R (xs.mergeSort le) (ys.mergeSort le') := by
  obtain ⟨couples, rfl, rfl⟩ := exists_of_forall₂ h
  have hleft : ((couples.mergeSort fun c d => le c.left d.left).map left) =
      (couples.map left).mergeSort le := List.map_mergeSort fun _ _ _ _ => rfl
  have hright : ((couples.mergeSort fun c d => le c.left d.left).map right) =
      (couples.map right).mergeSort le' :=
    List.map_mergeSort fun c _ d _ => hle c.related d.related
  rw [← hleft, ← hright]
  exact forall₂ _

end Couple

namespace OrderedDict

variable {α α' β β' : Type} {key : α → α' → Prop} {value : β → β' → Prop}

/-- Related values under related keys, place by place, so that the order of the two
dictionaries corresponds as well. -/
def Alike (key : α → α' → Prop) (value : β → β' → Prop) (d : OrderedDict α β)
    (d' : OrderedDict α' β') : Prop :=
  List.Forall₂ (fun entry entry' => key entry.1 entry'.1 ∧ value entry.2 entry'.2)
    d.entries d'.entries

namespace Alike

theorem empty : Alike key value (∅ : OrderedDict α β) (∅ : OrderedDict α' β') :=
  List.Forall₂.nil

variable {d : OrderedDict α β} {d' : OrderedDict α' β'} (h : Alike key value d d')

include h

theorem keys : List.Forall₂ key d.keys d'.keys := by
  unfold AList.keys List.keys
  rw [List.forall₂_map_left_iff, List.forall₂_map_right_iff]
  exact h.imp fun _ _ hentry => hentry.1

theorem len : d'.len = d.len := h.keys.length_eq.symm

theorem popWhileOver (capacity : ℕ) :
    Alike key value (d.popWhileOver capacity) (d'.popWhileOver capacity) := by
  change List.Forall₂ _ (dropOldest capacity d.entries) (dropOldest capacity d'.entries)
  rw [dropOldest_eq_drop, dropOldest_eq_drop, h.length_eq]
  exact List.forall₂_drop _ h

variable [DecidableEq α] [DecidableEq α'] (hkey : Relator.BiUnique key) {a : α} {a' : α'}
  (ha : key a a')

include hkey ha

theorem lookup : Option.Rel value (d.lookup a) (d'.lookup a') := by
  change Option.Rel value (d.entries.dlookup a) (d'.entries.dlookup a')
  unfold Alike at h
  generalize d.entries = entries at h ⊢
  generalize d'.entries = entries' at h ⊢
  induction h with
  | nil => exact .none
  | @cons entry entry' rest rest' hentry _ ih =>
    have heq : a = entry.1 ↔ a' = entry'.1 := Relator.rel_eq hkey ha hentry.1
    by_cases hhere : a = entry.1
    · obtain ⟨first, stored⟩ := entry
      obtain ⟨first', stored'⟩ := entry'
      obtain rfl := heq.mp hhere
      obtain rfl := hhere
      rw [List.dlookup_cons_eq, List.dlookup_cons_eq]
      exact .some hentry.2
    · rw [List.dlookup_cons_ne rest entry hhere,
        List.dlookup_cons_ne rest' entry' fun h => hhere (heq.mpr h)]
      exact ih

omit [DecidableEq α] [DecidableEq α'] in
theorem mem_iff : a ∈ d ↔ a' ∈ d' := by
  classical
  have hlookup := h.lookup hkey ha
  rw [← AList.lookup_isSome, ← AList.lookup_isSome]
  generalize d.lookup a = found at hlookup ⊢
  generalize d'.lookup a' = found' at hlookup ⊢
  cases hlookup <;> rfl

private theorem kerase : List.Forall₂ (fun entry entry' => key entry.1 entry'.1 ∧
    value entry.2 entry'.2) (d.entries.kerase a) (d'.entries.kerase a') := by
  unfold Alike at h
  generalize d.entries = entries at h ⊢
  generalize d'.entries = entries' at h ⊢
  induction h with
  | nil => exact .nil
  | @cons entry entry' rest rest' hentry hrest ih =>
    have heq : a = entry.1 ↔ a' = entry'.1 := Relator.rel_eq hkey ha hentry.1
    by_cases hhere : a = entry.1
    · rw [List.kerase_cons_eq hhere, List.kerase_cons_eq (heq.mp hhere)]
      exact hrest
    · rw [List.kerase_cons_ne hhere, List.kerase_cons_ne fun h => hhere (heq.mpr h)]
      exact .cons hentry ih

theorem erase : Alike key value (d.erase a) (d'.erase a') := h.kerase hkey ha

variable {b : β} {b' : β'} (hb : value b b')

include hb

theorem insert : Alike key value (d.insert a b) (d'.insert a' b') :=
  .cons ⟨ha, hb⟩ (h.kerase hkey ha)

theorem pushEnd : Alike key value (d.pushEnd a b) (d'.pushEnd a' b') :=
  List.rel_append (h.kerase hkey ha) (.cons ⟨ha, hb⟩ .nil)

end Alike

end OrderedDict
