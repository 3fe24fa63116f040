import Mathlib.Tactic

/-!
Binary search for the insertion point after equal elements. On a sorted list
the position returned splits the list at the last element not above `x`.
-/

namespace Bisect

variable {α : Type} [LinearOrder α]

/-- One run of the search loop between `lo` and `hi`, for at most `fuel` turns. -/
def search (xs : List α) (x : α) : ℕ → ℕ → ℕ → ℕ
  | 0, lo, _ => lo
  | fuel + 1, lo, hi =>
    if lo < hi then
      let mid := (lo + hi) / 2
      match xs[mid]? with
      | some y => if x < y then search xs x fuel lo mid else search xs x fuel (mid + 1) hi
      | none => lo
    else lo

def bisectRight (xs : List α) (x : α) : ℕ := search xs x xs.length 0 xs.length

/-- Everything before `pos` is at most `x`, everything from `pos` on is above it. -/
structure SplitsAt (xs : List α) (x : α) (lo hi : ℕ) : Prop where
  le_of_lt : ∀ i y, i < lo → xs[i]? = some y → y ≤ x
  lt_of_le : ∀ i y, hi ≤ i → xs[i]? = some y → x < y

/-- The loop narrows a window that contains the split point, so with enough
turns it stops exactly there. -/
theorem search_splitsAt (xs : List α) (x : α) (hsorted : xs.Pairwise (· ≤ ·))
    (fuel lo hi : ℕ) (hfuel : hi - lo ≤ fuel) (hlo : lo ≤ hi) (hhi : hi ≤ xs.length)
    (hsplit : SplitsAt xs x lo hi) :
    SplitsAt xs x (search xs x fuel lo hi) (search xs x fuel lo hi) := by
  induction fuel generalizing lo hi with
  | zero =>
    have heq : lo = hi := by omega
    subst heq
    exact hsplit
  | succ fuel ih =>
    unfold search
    split_ifs with hlt
    · have hmid : (lo + hi) / 2 < xs.length := by omega
      simp only [List.getElem?_eq_getElem hmid]
      split_ifs with hx
      · apply ih <;> try omega
        refine ⟨hsplit.le_of_lt, fun i y hi' hy => ?_⟩
        obtain ⟨hlen, rfl⟩ := List.getElem?_eq_some_iff.mp hy
        rcases Nat.eq_or_lt_of_le hi' with rfl | hlt'
        · exact hx
        · exact hx.trans_le (List.pairwise_iff_getElem.mp hsorted _ _ hmid hlen hlt')
      · apply ih <;> try omega
        refine ⟨fun i y hi' hy => ?_, hsplit.lt_of_le⟩
        obtain ⟨hlen, rfl⟩ := List.getElem?_eq_some_iff.mp hy
        have hle : xs[(lo + hi) / 2] ≤ x := not_lt.mp hx
        rcases Nat.eq_or_lt_of_le (Nat.lt_succ_iff.mp hi') with rfl | hlt'
        · exact hle
        · exact (List.pairwise_iff_getElem.mp hsorted _ _ hlen hmid hlt').trans hle
    · have heq : lo = hi := by omega
      subst heq
      exact hsplit

theorem bisectRight_splitsAt (xs : List α) (x : α) (hsorted : xs.Pairwise (· ≤ ·)) :
    SplitsAt xs x (bisectRight xs x) (bisectRight xs x) := by
  apply search_splitsAt xs x hsorted <;> try omega
  exact ⟨fun i y hi _ => by omega, fun i y hi hy => by
    obtain ⟨hlen, _⟩ := List.getElem?_eq_some_iff.mp hy
    omega⟩

/-- Reading a sorted list at the insertion point gives its first element above
`x`, or nothing when there is none. -/
theorem getElem?_bisectRight (xs : List α) (x : α) (hsorted : xs.Pairwise (· ≤ ·)) :
    xs[bisectRight xs x]? = xs.find? (fun y => x < y) := by
  have hsplit := bisectRight_splitsAt xs x hsorted
  cases hget : xs[bisectRight xs x]? with
  | none =>
    symm
    rw [List.find?_eq_none]
    intro y hy
    obtain ⟨i, hi, rfl⟩ := List.getElem_of_mem hy
    have hpos : i < bisectRight xs x := by
      have := List.getElem?_eq_none_iff.mp hget
      omega
    simpa using hsplit.le_of_lt i _ hpos (List.getElem?_eq_getElem hi)
  | some y =>
    symm
    obtain ⟨hlen, rfl⟩ := List.getElem?_eq_some_iff.mp hget
    rw [List.find?_eq_some_iff_getElem]
    refine ⟨by simpa using hsplit.lt_of_le _ _ le_rfl hget, _, hlen, rfl, ?_⟩
    intro j hj
    simpa using hsplit.le_of_lt j _ hj (List.getElem?_eq_getElem (by omega))

end Bisect
