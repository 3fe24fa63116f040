import Mathlib.Tactic

/-!
What several tasks do to a state they share, when the order in which they do it
does not matter up to some equivalence of states.
-/

namespace Interleave

variable {σ ε ι : Type}

/-- Doing things in another order leads to an equivalent state, and equivalent
states stay equivalent. -/
structure Commuting (apply : σ → ε → σ) (R : σ → σ → Prop) : Prop where
  equivalence : Equivalence R
  congr : ∀ {s t} e, R s t → R (apply s e) (apply t e)
  swap : ∀ s a b, R (apply (apply s a) b) (apply (apply s b) a)

namespace Commuting

variable {apply : σ → ε → σ} {R : σ → σ → Prop}

theorem foldl_congr (h : Commuting apply R) (es : List ε) {s t : σ} (hst : R s t) :
    R (es.foldl apply s) (es.foldl apply t) := by
  induction es generalizing s t with
  | nil => exact hst
  | cons e rest ih => exact ih (h.congr e hst)

/-- Done in another order, the same things lead to an equivalent state. -/
theorem foldl_perm (h : Commuting apply R) {es es' : List ε} (hperm : es.Perm es') (s : σ) :
    R (es.foldl apply s) (es'.foldl apply s) := by
  induction hperm generalizing s with
  | nil => exact h.equivalence.refl s
  | cons e _ ih => exact ih (apply s e)
  | swap a b rest => exact h.foldl_congr rest (h.swap s b a)
  | trans _ _ ih ih' => exact h.equivalence.trans (ih s) (ih' s)

end Commuting

/-- The state is what the tasks have done to the start, in whatever order. -/
def Done (apply : σ → ε → σ) (R : σ → σ → Prop) (start : σ) (tasks : Finset ι)
    (made : ι → List ε) (s : σ) : Prop :=
  ∀ es : List ε, (es : Multiset ε) = ∑ i ∈ tasks, (made i : Multiset ε) →
    R s (es.foldl apply start)

variable {apply : σ → ε → σ} {R : σ → σ → Prop} {start s : σ} {tasks : Finset ι}
  {made made' : ι → List ε}

theorem Commuting.done_start (h : Commuting apply R) (hmade : ∀ i ∈ tasks, made i = []) :
    Done apply R start tasks made start := by
  intro es hes
  have hzero : ∑ i ∈ tasks, (made i : Multiset ε) = 0 :=
    Finset.sum_eq_zero fun i hi => by rw [hmade i hi, Multiset.coe_nil]
  rw [hzero, Multiset.coe_eq_zero] at hes
  rw [hes]
  exact h.equivalence.refl start

theorem Commuting.done_step [DecidableEq ι] (h : Commuting apply R)
    (hdone : Done apply R start tasks made s) {i : ι} (hi : i ∈ tasks) {new : List ε}
    (hnew : made' i = made i ++ new) (hothers : ∀ j ∈ tasks, j ≠ i → made' j = made j) :
    Done apply R start tasks made' (new.foldl apply s) := by
  intro es hes
  obtain ⟨before, hbefore⟩ : ∃ before : List ε,
      (before : Multiset ε) = ∑ j ∈ tasks, (made j : Multiset ε) := Quot.exists_rep _
  have hsum : ∑ j ∈ tasks, (made' j : Multiset ε) =
      ∑ j ∈ tasks, (made j : Multiset ε) + (new : Multiset ε) := by
    have hrest : ∑ j ∈ tasks.erase i, (made' j : Multiset ε) =
        ∑ j ∈ tasks.erase i, (made j : Multiset ε) :=
      Finset.sum_congr rfl fun j hj => by
        rw [hothers j (Finset.mem_of_mem_erase hj) (Finset.ne_of_mem_erase hj)]
    rw [← Finset.add_sum_erase tasks _ hi, ← Finset.add_sum_erase tasks _ hi, hrest, hnew,
      ← Multiset.coe_add, add_right_comm]
  have hperm : (before ++ new).Perm es := by
    apply Multiset.coe_eq_coe.mp
    rw [hes, hsum, ← Multiset.coe_add]
    exact congrArg (· + _) hbefore
  have hstep := h.foldl_congr new (hdone before hbefore)
  rw [← List.foldl_append] at hstep
  exact h.equivalence.trans hstep (h.foldl_perm hperm start)

theorem Done.congr (hdone : Done apply R start tasks made s)
    (hmade : ∀ i ∈ tasks, made' i = made i) : Done apply R start tasks made' s := by
  intro es hes
  apply hdone es
  rw [hes]
  exact Finset.sum_congr rfl fun i hi => by rw [hmade i hi]

theorem sum_coe_range (f : ℕ → List ε) (n : ℕ) :
    ∑ i ∈ Finset.range n, (f i : Multiset ε) = ((List.range n).flatMap f : List ε) := by
  induction n with
  | zero => rfl
  | succ n ih =>
    rw [Finset.sum_range_succ, ih, List.range_succ, List.flatMap_append, List.flatMap_singleton,
      Multiset.coe_add]

theorem Done.foldl {n : ℕ} {made : ℕ → List ε}
    (hdone : Done apply R start (Finset.range n) made s) {es : List ε}
    (hes : es.Perm ((List.range n).flatMap made)) : R s (es.foldl apply start) := by
  apply hdone es
  rw [sum_coe_range]
  exact Multiset.coe_eq_coe.mpr hes

end Interleave
