import Mathlib.Tactic

/-!
Sorting by a key. The sort is stable, so a part of the list that is in order
already comes out as it went in.
-/

namespace StableSort

variable {α κ : Type} [LinearOrder κ] {le : α → α → Bool} {key : α → κ}

theorem le_trans_of_key (hle : ∀ a b, le a b = true ↔ key a ≤ key b) (a b c : α)
    (hab : le a b = true) (hbc : le b c = true) : le a c = true := by
  rw [hle] at hab hbc ⊢
  exact hab.trans hbc

theorem le_total_of_key (hle : ∀ a b, le a b = true ↔ key a ≤ key b) (a b : α) :
    (le a b || le b a) = true := by
  rw [Bool.or_eq_true, hle, hle]
  exact le_total (key a) (key b)

theorem pairwise_mergeSort (hle : ∀ a b, le a b = true ↔ key a ≤ key b) (xs : List α) :
    (xs.mergeSort le).Pairwise fun a b => key a ≤ key b := by
  have hsorted := List.pairwise_mergeSort (le_trans_of_key hle) (le_total_of_key hle) xs
  exact hsorted.imp fun h => (hle _ _).mp h

/-- A part that is in order already stays as it is. -/
theorem filter_mergeSort (hle : ∀ a b, le a b = true ↔ key a ≤ key b) {xs : List α}
    {p : α → Bool} (hpart : (xs.filter p).Pairwise fun a b => key a ≤ key b) :
    (xs.mergeSort le).filter p = xs.filter p := by
  have hsorted : (xs.filter p).Pairwise fun a b => le a b = true :=
    hpart.imp fun h => (hle _ _).mpr h
  have hsublist : List.Sublist (xs.filter p) (xs.mergeSort le) :=
    List.sublist_mergeSort (le_trans_of_key hle) (le_total_of_key hle) hsorted
      List.filter_sublist
  have hkept := hsublist.filter p
  rw [List.filter_filter, funext fun x => Bool.and_self (p x)] at hkept
  have hlength := ((List.mergeSort_perm xs le).filter p).length_eq
  exact (hkept.eq_of_length hlength.symm).symm

/-- Two sorted lists with the same elements under each key, in the same order,
are one list. -/
theorem eq_of_filter_key {xs ys : List α} (hxs : xs.Pairwise fun a b => key a ≤ key b)
    (hys : ys.Pairwise fun a b => key a ≤ key b)
    (hsame : ∀ k, (xs.filter fun a => key a = k) = ys.filter fun a => key a = k) : xs = ys := by
  induction xs generalizing ys with
  | nil =>
    cases ys with
    | nil => rfl
    | cons y ys =>
      have hy := hsame (key y)
      simp at hy
  | cons x xs ih =>
    cases ys with
    | nil =>
      have hx := hsame (key x)
      simp at hx
    | cons y ys =>
      obtain ⟨hfirst, hrest⟩ := List.pairwise_cons.mp hxs
      obtain ⟨hfirst', hrest'⟩ := List.pairwise_cons.mp hys
      have hle : key y ≤ key x := by
        have hmem : x ∈ (y :: ys).filter fun a => key a = key x := by
          rw [← hsame]
          simp
        rcases List.mem_cons.mp (List.mem_filter.mp hmem).1 with rfl | hmem
        · exact le_rfl
        · exact hfirst' x hmem
      have hle' : key x ≤ key y := by
        have hmem : y ∈ (x :: xs).filter fun a => key a = key y := by
          rw [hsame]
          simp
        rcases List.mem_cons.mp (List.mem_filter.mp hmem).1 with rfl | hmem
        · exact le_rfl
        · exact hfirst y hmem
      have hkey : key x = key y := le_antisymm hle' hle
      have hhead := hsame (key x)
      rw [List.filter_cons_of_pos (by simp), List.filter_cons_of_pos (by simp [hkey])] at hhead
      obtain rfl := (List.cons.inj hhead).1
      refine congrArg (x :: ·) (ih hrest hrest' fun k => ?_)
      have hk := hsame k
      by_cases hx : key x = k
      · rw [List.filter_cons_of_pos (by simp [hx]), List.filter_cons_of_pos (by simp [hx])] at hk
        exact (List.cons.inj hk).2
      · rwa [List.filter_cons_of_neg (by simp [hx]), List.filter_cons_of_neg (by simp [hx])] at hk

theorem filter_key_mergeSort (hle : ∀ a b, le a b = true ↔ key a ≤ key b) (xs : List α) (k : κ) :
    ((xs.mergeSort le).filter fun a => key a = k) = xs.filter fun a => key a = k := by
  apply filter_mergeSort hle
  apply List.pairwise_of_forall_mem_list
  intro a ha b hb
  rw [of_decide_eq_true (List.mem_filter.mp ha).2, of_decide_eq_true (List.mem_filter.mp hb).2]

/-- Sorting a part is taking that part out of the sorted list, since elements of one key
keep their order in both. -/
theorem filter_mergeSort_comm (hle : ∀ a b, le a b = true ↔ key a ≤ key b) (xs : List α)
    (p : α → Bool) : (xs.mergeSort le).filter p = (xs.filter p).mergeSort le := by
  refine eq_of_filter_key ((pairwise_mergeSort hle xs).filter p)
    (pairwise_mergeSort hle _) fun k => ?_
  rw [List.filter_comm, filter_key_mergeSort hle, filter_key_mergeSort hle, List.filter_comm]

end StableSort
