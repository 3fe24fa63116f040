import Mathlib.Algebra.BigOperators.Ring.Finset
import Mathlib.Algebra.Order.BigOperators.Group.Finset
import Mathlib.Tactic

/-!
Exponentially weighted averages. The first of `n` values weighs
`(1 - alpha) ^ (n - 1)` and a later one `alpha` times a power of `1 - alpha` for
each value after it, which makes a distribution. Its mean and its variance can
be kept online, one value at a time.
-/

namespace Ewma

variable {K : Type} [Field K]

/-- The weight of the value with this place among `n`, counted from zero. -/
def weight (alpha : K) (n place : ℕ) : K :=
  if place = 0 then (1 - alpha) ^ (n - 1) else alpha * (1 - alpha) ^ (n - 1 - place)

def average (alpha : K) (f : K → K) (values : List K) : K :=
  ∑ place ∈ Finset.range values.length,
    weight alpha values.length place * f (values.getD place 0)

def mean (alpha : K) (values : List K) : K := average alpha id values

def variance (alpha : K) (values : List K) : K :=
  average alpha (fun value => (value - mean alpha values) ^ 2) values

def step (alpha : K) : Option (K × K) → K → K × K
  | none, value => (value, 0)
  | some (mean, var), value =>
    let delta := value - mean
    (mean + alpha * delta, (1 - alpha) * (var + alpha * delta * delta))

variable {alpha : K} {f : K → K} {values : List K}

theorem weight_succ {n place : ℕ} (hplace : place < n) :
    weight alpha (n + 1) place = (1 - alpha) * weight alpha n place := by
  obtain ⟨m, rfl⟩ : ∃ m, n = m + 1 := ⟨n - 1, by omega⟩
  unfold weight
  split_ifs with hfirst
  · rw [Nat.add_sub_cancel, Nat.add_sub_cancel, pow_succ']
  · have hexponent : m + 1 + 1 - 1 - place = m + 1 - 1 - place + 1 := by omega
    rw [hexponent, pow_succ']
    ring

theorem weight_last {n : ℕ} (hn : n ≠ 0) : weight alpha (n + 1) n = alpha := by
  rw [weight, if_neg hn, Nat.add_sub_cancel, Nat.sub_self, pow_zero, mul_one]

theorem average_singleton (value : K) : average alpha f [value] = f value := by
  simp [average, weight]

/-- The last value weighs `alpha`, and the average of the others the rest. -/
theorem average_append_singleton (hne : values ≠ []) (value : K) :
    average alpha f (values ++ [value]) =
      (1 - alpha) * average alpha f values + alpha * f value := by
  have hlength : values.length ≠ 0 := fun h => hne (List.length_eq_zero_iff.mp h)
  have hlast : (values ++ [value]).getD values.length 0 = value := by simp
  have hothers : ∀ place ∈ Finset.range values.length,
      weight alpha (values.length + 1) place * f ((values ++ [value]).getD place 0) =
        (1 - alpha) * (weight alpha values.length place * f (values.getD place 0)) := by
    intro place hplace
    have hlt := Finset.mem_range.mp hplace
    have hkept : (values ++ [value]).getD place 0 = values.getD place 0 := by
      simp only [List.getD_eq_getElem?_getD, List.getElem?_append_left hlt]
    rw [weight_succ hlt, hkept]
    ring
  unfold average
  rw [List.length_append, List.length_singleton, Finset.sum_range_succ, hlast,
    weight_last hlength, Finset.sum_congr rfl hothers, ← Finset.mul_sum]

theorem average_linear (a b : K) (g : K → K) :
    average alpha (fun value => a * f value + b * g value) values =
      a * average alpha f values + b * average alpha g values := by
  unfold average
  rw [Finset.mul_sum, Finset.mul_sum, ← Finset.sum_add_distrib]
  apply Finset.sum_congr rfl
  intro place _
  ring

/-- The weights add up to one. -/
theorem average_const (hne : values ≠ []) (c : K) :
    average alpha (fun _ => c) values = c := by
  induction values using List.reverseRecOn with
  | nil => exact absurd rfl hne
  | append_singleton values value ih =>
    rcases eq_or_ne values [] with rfl | hvalues
    · exact average_singleton value
    · rw [average_append_singleton hvalues, ih hvalues]
      ring

theorem mean_append_singleton (hne : values ≠ []) (value : K) :
    mean alpha (values ++ [value]) = (1 - alpha) * mean alpha values + alpha * value :=
  average_append_singleton hne value

/-- The variance is the mean of the squares less the square of the mean. -/
theorem variance_eq (hne : values ≠ []) :
    variance alpha values =
      average alpha (fun value => value ^ 2) values - mean alpha values ^ 2 := by
  have hsquare : (fun value : K => (value - mean alpha values) ^ 2) = fun value =>
      1 * value ^ 2 + 1 * ((-2 * mean alpha values) * value + mean alpha values ^ 2 * 1) := by
    funext value
    ring
  have hone : average alpha (fun _ : K => (1 : K)) values = 1 := average_const hne 1
  have hmean : average alpha (fun value => value) values = mean alpha values := rfl
  rw [variance, hsquare, average_linear, average_linear, hone, hmean]
  ring

/-- The running mean and variance, updated value by value, are the mean and the variance
of the weighted distribution of all values so far. -/
theorem foldl_step (hne : values ≠ []) :
    values.foldl (fun s value => some (step alpha s value)) none =
      some (mean alpha values, variance alpha values) := by
  induction values using List.reverseRecOn with
  | nil => exact absurd rfl hne
  | append_singleton values value ih =>
    rw [List.foldl_append]
    rcases eq_or_ne values [] with rfl | hvalues
    · have hmean : mean alpha [value] = value := average_singleton value
      have hvariance : variance alpha [value] = 0 := by
        rw [variance, average_singleton, hmean, sub_self, zero_pow two_ne_zero]
      rw [List.nil_append, hmean, hvariance]
      rfl
    · rw [ih hvalues, mean_append_singleton hvalues, variance_eq hne, variance_eq hvalues,
        average_append_singleton hvalues, mean_append_singleton hvalues]
      simp only [List.foldl_cons, List.foldl_nil, step, Option.some.injEq, Prod.mk.injEq]
      constructor <;> ring

/-- A state that starts from its first value and then steps as the running mean
and variance do has those of the distribution. -/
theorem foldl_kept {σ : Type} {fold : Option σ → K → σ} (estimate : σ → K × K)
    (Started : σ → Prop)
    (hfirst : ∀ value, Started (fold none value) ∧
      estimate (fold none value) = step alpha none value)
    (hnext : ∀ s value, Started s → Started (fold (some s) value) ∧
      estimate (fold (some s) value) = step alpha (some (estimate s)) value)
    (hne : values ≠ []) :
    (values.foldl (fun s value => some (fold s value)) none).map estimate =
      some (mean alpha values, variance alpha values) := by
  have hkept : ∀ values : List K,
      (∀ s, values.foldl (fun s value => some (fold s value)) none = some s → Started s) ∧
      (values.foldl (fun s value => some (fold s value)) none).map estimate =
        values.foldl (fun s value => some (step alpha s value)) none := by
    intro values
    induction values using List.reverseRecOn with
    | nil => exact ⟨fun _ hs => (nomatch hs), rfl⟩
    | append_singleton values value ih =>
      obtain ⟨hstarted, hestimate⟩ := ih
      rw [List.foldl_append, List.foldl_append, ← hestimate]
      cases hs : values.foldl (fun s value => some (fold s value)) none with
      | none =>
        obtain ⟨hstart, hvalue⟩ := hfirst value
        exact ⟨fun s heq => Option.some.inj heq ▸ hstart, congrArg some hvalue⟩
      | some s =>
        obtain ⟨hstart, hvalue⟩ := hnext s value (hstarted s hs)
        exact ⟨fun s' heq => Option.some.inj heq ▸ hstart, congrArg some hvalue⟩
  rw [(hkept values).2, foldl_step hne]

section Order

variable [LinearOrder K] [IsStrictOrderedRing K]

theorem weight_nonneg (halpha : 0 ≤ alpha) (hone : alpha ≤ 1) (n place : ℕ) :
    0 ≤ weight alpha n place := by
  have hrest : 0 ≤ 1 - alpha := sub_nonneg.mpr hone
  unfold weight
  split_ifs <;> positivity

theorem variance_nonneg (halpha : 0 ≤ alpha) (hone : alpha ≤ 1) (values : List K) :
    0 ≤ variance alpha values := by
  unfold variance average
  apply Finset.sum_nonneg
  intro place _
  exact mul_nonneg (weight_nonneg halpha hone _ place) (sq_nonneg _)

theorem mean_mem_of_forall (halpha : 0 ≤ alpha) (hone : alpha ≤ 1) (hne : values ≠ [])
    {low high : K} (h : ∀ value ∈ values, low ≤ value ∧ value ≤ high) :
    low ≤ mean alpha values ∧ mean alpha values ≤ high := by
  have hrest : 0 ≤ 1 - alpha := sub_nonneg.mpr hone
  induction values using List.reverseRecOn with
  | nil => exact absurd rfl hne
  | append_singleton values value ih =>
    obtain ⟨hlow, hhigh⟩ := h value (List.mem_append_right _ (List.mem_singleton_self value))
    rcases eq_or_ne values [] with rfl | hvalues
    · have hmean : mean alpha [value] = value := average_singleton value
      rw [List.nil_append, hmean]
      exact ⟨hlow, hhigh⟩
    · obtain ⟨hlow', hhigh'⟩ :=
        ih hvalues fun other hother => h other (List.mem_append_left _ hother)
      rw [mean_append_singleton hvalues]
      constructor
      · calc low = (1 - alpha) * low + alpha * low := by ring
          _ ≤ (1 - alpha) * mean alpha values + alpha * value := by gcongr
      · calc (1 - alpha) * mean alpha values + alpha * value
            ≤ (1 - alpha) * high + alpha * high := by gcongr
          _ = high := by ring

theorem mean_between (halpha : 0 ≤ alpha) (hone : alpha ≤ 1) (hne : values ≠ []) :
    ∃ smallest ∈ values, ∃ largest ∈ values,
      (∀ value ∈ values, smallest ≤ value ∧ value ≤ largest) ∧
      smallest ≤ mean alpha values ∧ mean alpha values ≤ largest := by
  have hnonempty : values.toFinset.Nonempty := by
    rw [List.toFinset_nonempty_iff]
    exact hne
  obtain ⟨smallest, hsmallest, hmin⟩ := values.toFinset.exists_min_image id hnonempty
  obtain ⟨largest, hlargest, hmax⟩ := values.toFinset.exists_max_image id hnonempty
  have hbounds : ∀ value ∈ values, smallest ≤ value ∧ value ≤ largest := fun value hvalue =>
    ⟨hmin value (List.mem_toFinset.mpr hvalue), hmax value (List.mem_toFinset.mpr hvalue)⟩
  exact ⟨smallest, List.mem_toFinset.mp hsmallest, largest, List.mem_toFinset.mp hlargest,
    hbounds, mean_mem_of_forall halpha hone hne hbounds⟩

end Order

end Ewma
