import Mathlib.Data.List.MinMax
import Mathlib.Data.Prod.Lex
import Mathlib.Tactic

/-!
Dropping the lowest-ranked elements of a list in one go, and its agreement with
the greedy procedure that drops one minimum at a time. Ranks are compared
globally, by counting how many elements lie below; the elements kept stay in
list order.
-/

namespace RankedEviction

variable {α κ : Type} [LinearOrder κ]

def below (rank : α → κ) (xs : List α) (a : α) : ℕ :=
  xs.countP fun b => rank b < rank a

def dropLowest (rank : α → κ) (n : ℕ) (xs : List α) : List α :=
  xs.filter fun a => n ≤ below rank xs a

def lowest (rank : α → κ) (n : ℕ) (xs : List α) : List α :=
  xs.filter fun a => below rank xs a < n

@[simp] theorem dropLowest_zero (rank : α → κ) (xs : List α) :
    dropLowest rank 0 xs = xs := by
  simp [dropLowest]

@[simp] theorem lowest_zero (rank : α → κ) (xs : List α) : lowest rank 0 xs = [] := by
  simp [lowest]

theorem dropLowest_sublist (rank : α → κ) (n : ℕ) (xs : List α) :
    (dropLowest rank n xs).Sublist xs :=
  List.filter_sublist

theorem below_congr {κ' : Type} [LinearOrder κ'] {rank : α → κ} {rank' : α → κ'}
    {xs : List α} {a : α} (h : ∀ b ∈ xs, rank b < rank a ↔ rank' b < rank' a) :
    below rank xs a = below rank' xs a := by
  unfold below
  apply List.countP_congr
  intro b hb
  simpa using h b hb

theorem dropLowest_congr {κ' : Type} [LinearOrder κ'] {rank : α → κ} {rank' : α → κ'}
    {n : ℕ} {xs : List α}
    (h : ∀ a ∈ xs, ∀ b ∈ xs, rank b < rank a ↔ rank' b < rank' a) :
    dropLowest rank n xs = dropLowest rank' n xs := by
  unfold dropLowest
  apply List.filter_congr
  intro a ha
  rw [below_congr fun b hb => h a ha b hb]

theorem lowest_congr {κ' : Type} [LinearOrder κ'] {rank : α → κ} {rank' : α → κ'}
    {n : ℕ} {xs : List α}
    (h : ∀ a ∈ xs, ∀ b ∈ xs, rank b < rank a ↔ rank' b < rank' a) :
    lowest rank n xs = lowest rank' n xs := by
  unfold lowest
  apply List.filter_congr
  intro a ha
  rw [below_congr fun b hb => h a ha b hb]

/-- Ranking commutes with an order-preserving relabelling of the elements. -/
theorem dropLowest_map {β : Type} (f : β → α) (rank : α → κ) (n : ℕ) (xs : List β) :
    dropLowest rank n (xs.map f) = (dropLowest (rank ∘ f) n xs).map f := by
  simp only [dropLowest, below, List.filter_map, List.countP_map]
  rfl

theorem lowest_map {β : Type} (f : β → α) (rank : α → κ) (n : ℕ) (xs : List β) :
    lowest rank n (xs.map f) = (lowest (rank ∘ f) n xs).map f := by
  simp only [lowest, below, List.filter_map, List.countP_map]
  rfl

section UpperPart

/-- Elements outside an upper part all count below every element inside it. -/
private theorem below_filter {rank : α → κ} {xs : List α} {p : α → Bool}
    (hlow : ∀ a ∈ xs, ∀ b ∈ xs, p a = false → p b = true → rank a < rank b)
    {b : α} (hb : b ∈ xs) (hpb : p b = true) :
    below rank xs b = below rank (xs.filter p) b + xs.countP fun a => !p a := by
  unfold below
  rw [List.countP_eq_countP_filter_add xs _ p]
  congr 1
  rw [List.countP_filter]
  apply List.countP_congr
  intro a ha
  cases hpa : p a with
  | false => simpa using hlow a ha b hb hpa hpb
  | true => simp

/-- When `p` holds on an upper part of the ranking, the elements outside it are
dropped first and the part inside sees only the excess they leave. -/
theorem filter_dropLowest {rank : α → κ} {xs : List α} {p : α → Bool} (n : ℕ)
    (hlow : ∀ a ∈ xs, ∀ b ∈ xs, p a = false → p b = true → rank a < rank b) :
    (dropLowest rank n xs).filter p =
      dropLowest rank (n - xs.countP fun a => !p a) (xs.filter p) := by
  simp only [dropLowest, List.filter_filter]
  apply List.filter_congr
  intro b hb
  cases hpb : p b with
  | false => simp
  | true =>
    rw [below_filter hlow hb hpb]
    simp

theorem filter_lowest {rank : α → κ} {xs : List α} {p : α → Bool} (n : ℕ)
    (hlow : ∀ a ∈ xs, ∀ b ∈ xs, p a = false → p b = true → rank a < rank b) :
    (lowest rank n xs).filter p =
      lowest rank (n - xs.countP fun a => !p a) (xs.filter p) := by
  simp only [lowest, List.filter_filter]
  apply List.filter_congr
  intro b hb
  cases hpb : p b with
  | false => simp
  | true =>
    rw [below_filter hlow hb hpb]
    simp only [Bool.true_and, Bool.and_true, decide_eq_decide]
    omega

end UpperPart

section Greedy

variable [DecidableEq α]

/-- `m` is the one element of `xs` with the least rank. -/
structure IsLowest (rank : α → κ) (xs : List α) (m : α) : Prop where
  mem : m ∈ xs
  lt_of_ne : ∀ a ∈ xs, a ≠ m → rank m < rank a

omit [DecidableEq α] in
theorem IsLowest.congr {rank rank' : α → κ} {xs : List α} {m : α} (hm : IsLowest rank xs m)
    (h : ∀ a ∈ xs, rank a = rank' a) : IsLowest rank' xs m := by
  refine ⟨hm.mem, fun a ha hne => ?_⟩
  rw [← h m hm.mem, ← h a ha]
  exact hm.lt_of_ne a ha hne

omit [DecidableEq α] in
theorem IsLowest.below_eq_zero {rank : α → κ} {xs : List α} {m : α}
    (hm : IsLowest rank xs m) : below rank xs m = 0 := by
  unfold below
  rw [List.countP_eq_zero]
  intro a ha
  rcases eq_or_ne a m with rfl | hne
  · simp
  · simpa using (hm.lt_of_ne a ha hne).le

/-- Erasing the lowest element takes exactly one from every other count. -/
theorem IsLowest.below_erase {rank : α → κ} {xs : List α} {m : α}
    (hm : IsLowest rank xs m) {a : α} (ha : a ∈ xs) (hne : a ≠ m) :
    below rank xs a = below rank (xs.erase m) a + 1 := by
  have hlt : rank m < rank a := hm.lt_of_ne a ha hne
  have hpos : 0 < xs.countP fun b => decide (rank b < rank a) :=
    List.countP_pos_iff.mpr ⟨m, hm.mem, by simpa using hlt⟩
  unfold below
  rw [List.countP_erase, if_pos ⟨hm.mem, by simpa using hlt⟩]
  omega

/-- One greedy step: to drop the `n + 1` lowest is to drop the minimum, then the `n`
lowest of the rest. -/
theorem IsLowest.dropLowest_succ {rank : α → κ} {xs : List α} {m : α}
    (hm : IsLowest rank xs m) (hnodup : xs.Nodup) (n : ℕ) :
    dropLowest rank (n + 1) xs = dropLowest rank n (xs.erase m) := by
  unfold dropLowest
  rw [hnodup.erase_eq_filter, List.filter_filter, ← hnodup.erase_eq_filter]
  apply List.filter_congr
  intro a ha
  rcases eq_or_ne a m with rfl | hne
  · simp [hm.below_eq_zero]
  · simp [hm.below_erase ha hne, hne]

theorem IsLowest.lowest_succ {rank : α → κ} {xs : List α} {m : α}
    (hm : IsLowest rank xs m) (hnodup : xs.Nodup) (n : ℕ) :
    (lowest rank (n + 1) xs).Perm (m :: lowest rank n (xs.erase m)) := by
  have hperm : xs.Perm (m :: xs.erase m) := List.perm_cons_erase hm.mem
  refine (hperm.filter _).trans ?_
  rw [List.filter_cons_of_pos (by simp [hm.below_eq_zero])]
  refine List.Perm.of_eq (congrArg (m :: ·) ?_)
  apply List.filter_congr
  intro a ha
  have hne : a ≠ m := (hnodup.mem_erase_iff.mp ha).1
  simp [hm.below_erase (List.mem_of_mem_erase ha) hne]

omit [DecidableEq α] in
/-- A non-empty list whose elements have different ranks has a lowest one. -/
theorem exists_isLowest {rank : α → κ} {xs : List α} (hne : xs ≠ [])
    (hinj : ∀ a ∈ xs, ∀ b ∈ xs, rank a = rank b → a = b) :
    ∃ m, IsLowest rank xs m := by
  obtain ⟨m, hm⟩ := Option.ne_none_iff_exists'.mp
    (mt List.argmin_eq_none.mp hne : xs.argmin rank ≠ none)
  have hmem : m ∈ xs := List.argmin_mem hm
  refine ⟨m, hmem, fun a ha hne => ?_⟩
  exact lt_of_le_of_ne (List.le_of_mem_argmin ha hm) fun h => hne (hinj a ha m hmem h.symm)

/-- One more drop: the lowest of what `n` drops have left. -/
theorem IsLowest.dropLowest_next {rank : α → κ} {xs : List α} {n : ℕ} {m : α}
    (hm : IsLowest rank (dropLowest rank n xs) m) (hnodup : xs.Nodup)
    (hinj : ∀ a ∈ xs, ∀ b ∈ xs, rank a = rank b → a = b) :
    dropLowest rank (n + 1) xs = (dropLowest rank n xs).erase m ∧
      (lowest rank (n + 1) xs).Perm (m :: lowest rank n xs) := by
  induction n generalizing xs with
  | zero =>
    rw [dropLowest_zero] at hm ⊢
    have hlowest := hm.lowest_succ hnodup 0
    rw [lowest_zero] at hlowest ⊢
    exact ⟨(hm.dropLowest_succ hnodup 0).trans (dropLowest_zero rank _), hlowest⟩
  | succ n ih =>
    have hne : xs ≠ [] := List.ne_nil_of_mem ((dropLowest_sublist rank _ xs).subset hm.mem)
    obtain ⟨first, hfirst⟩ := exists_isLowest hne hinj
    rw [hfirst.dropLowest_succ hnodup] at hm
    obtain ⟨hdrop, hperm⟩ := ih hm (hnodup.erase first) fun a ha b hb =>
      hinj a (List.mem_of_mem_erase ha) b (List.mem_of_mem_erase hb)
    constructor
    · rw [hfirst.dropLowest_succ hnodup, hfirst.dropLowest_succ hnodup, hdrop]
    · have hswap : (first :: m :: lowest rank n (xs.erase first)).Perm
          (m :: lowest rank (n + 1) xs) :=
        (List.Perm.swap m first _).trans ((hfirst.lowest_succ hnodup n).cons m).symm
      exact (hfirst.lowest_succ hnodup (n + 1)).trans ((hperm.cons first).trans hswap)

/-- Exactly `n` elements are dropped, or all of them when there are fewer. -/
theorem length_lowest {rank : α → κ} {xs : List α} (n : ℕ) (hnodup : xs.Nodup)
    (hinj : ∀ a ∈ xs, ∀ b ∈ xs, rank a = rank b → a = b) :
    (lowest rank n xs).length = min n xs.length := by
  induction n generalizing xs with
  | zero => simp
  | succ n ih =>
    rcases eq_or_ne xs [] with rfl | hne
    · simp [lowest]
    · obtain ⟨m, hm⟩ := exists_isLowest hne hinj
      have herase := ih (hnodup.erase m) fun a ha b hb =>
        hinj a (List.mem_of_mem_erase ha) b (List.mem_of_mem_erase hb)
      have hpos : 0 < xs.length := List.length_pos_of_mem hm.mem
      rw [(hm.lowest_succ hnodup n).length_eq, List.length_cons, herase,
        List.length_erase_of_mem hm.mem]
      omega

theorem length_dropLowest {rank : α → κ} {xs : List α} (n : ℕ) (hnodup : xs.Nodup)
    (hinj : ∀ a ∈ xs, ∀ b ∈ xs, rank a = rank b → a = b) :
    (dropLowest rank n xs).length = xs.length - n := by
  have hsplit : xs.length = (dropLowest rank n xs).length + (lowest rank n xs).length := by
    rw [dropLowest, lowest, ← List.countP_eq_length_filter, ← List.countP_eq_length_filter,
      List.length_eq_countP_add_countP fun a => decide (n ≤ below rank xs a)]
    congr 2
    funext a
    simp
  have hlowest := length_lowest n hnodup hinj
  omega

end Greedy

section Positions

variable [DecidableEq α]

def keyed (key : α → κ) (pos : α → ℕ) (a : α) : κ ×ₗ ℕ := toLex (key a, pos a)

theorem pairwise_idxOf {xs : List α} (hnodup : xs.Nodup) :
    xs.Pairwise fun a b => xs.idxOf a < xs.idxOf b := by
  rw [List.pairwise_iff_getElem]
  intro i j hi hj hij
  rwa [hnodup.idxOf_getElem, hnodup.idxOf_getElem]

omit [LinearOrder κ] [DecidableEq α] in
/-- Ranks broken by a position that grows along the list are all different. -/
theorem keyed_injOn {key : α → κ} {pos : α → ℕ} {xs : List α}
    (hpos : xs.Pairwise fun a b => pos a < pos b) :
    ∀ a ∈ xs, ∀ b ∈ xs, keyed key pos a = keyed key pos b → a = b := by
  intro a ha b hb hrank
  have hsame : pos a = pos b := congrArg (fun r => (ofLex r).2) hrank
  have hdistinct : (xs.map pos).Nodup := List.pairwise_map.mpr (hpos.imp fun h => h.ne)
  exact List.inj_on_of_nodup_map hdistinct ha hb hsame

/-- Positions in a list are ordered as any position that grows along it. -/
theorem idxOf_lt_idxOf_iff {pos : α → ℕ} {xs : List α}
    (hpos : xs.Pairwise fun a b => pos a < pos b) {a b : α} (ha : a ∈ xs) (hb : b ∈ xs) :
    xs.idxOf a < xs.idxOf b ↔ pos a < pos b := by
  have hmono : ∀ a ∈ xs, ∀ b ∈ xs, xs.idxOf a < xs.idxOf b → pos a < pos b := by
    intro a ha b hb hlt
    simpa using List.pairwise_iff_getElem.mp hpos _ _
      (List.idxOf_lt_length_iff.mpr ha) (List.idxOf_lt_length_iff.mpr hb) hlt
  refine ⟨hmono a ha b hb, fun hlt => ?_⟩
  rcases lt_trichotomy (xs.idxOf a) (xs.idxOf b) with h | h | h
  · exact h
  · rw [(List.idxOf_inj ha).mp h] at hlt
    exact absurd hlt (lt_irrefl _)
  · exact absurd (hmono b hb a ha h) hlt.asymm

/-- The first element with the least key is the lowest one when ties are broken
by a position that grows along the list. -/
theorem isLowest_of_argmin {key : α → κ} {pos : α → ℕ} {xs : List α} {m : α}
    (hpos : xs.Pairwise fun a b => pos a < pos b) (hm : m ∈ xs.argmin key) :
    IsLowest (keyed key pos) xs m := by
  obtain ⟨hmem, hle, hfirst⟩ := List.mem_argmin_iff.mp hm
  refine ⟨hmem, fun a ha hne => ?_⟩
  rw [keyed, keyed, Prod.Lex.toLex_lt_toLex]
  rcases (hle a ha).lt_or_eq with hlt | heq
  · exact Or.inl hlt
  · refine Or.inr ⟨heq, ?_⟩
    have hidx : xs.idxOf m ≤ xs.idxOf a := hfirst a ha heq.ge
    have hlt : xs.idxOf m < xs.idxOf a := by
      refine lt_of_le_of_ne hidx fun h => hne ?_
      exact ((List.idxOf_inj hmem).mp h).symm
    exact (idxOf_lt_idxOf_iff hpos hmem ha).mp hlt

omit [DecidableEq α] in
theorem argmin_eq_head? {key : α → κ} {xs : List α} {c : κ}
    (hconst : ∀ a ∈ xs, key a = c) : xs.argmin key = xs.head? := by
  induction xs using List.reverseRecOn with
  | nil => rfl
  | append_singleton xs a ih =>
    have hrest : ∀ b ∈ xs, key b = c := fun b hb => hconst b (by simp [hb])
    rw [List.argmin_concat, ih hrest]
    cases hhead : xs.head? with
    | none => simp [List.head?_eq_none_iff.mp hhead]
    | some b =>
      have hb : b ∈ xs := List.mem_of_mem_head? hhead
      simp [hrest b hb, hconst a (by simp), List.head?_append, hhead]

end Positions

end RankedEviction
