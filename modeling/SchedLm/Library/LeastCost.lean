import Mathlib.Data.List.MinMax
import Mathlib.Data.Prod.Lex
import Mathlib.Tactic

/-!
Choosing by least cost, ties settled by a second key. A choice made on costs
that are off by at most `ε` is worse than the best by at most `2 * ε`; and when
each cost is a load shared by a group plus a cost of its own, the choice under
one load says what it would have been under another.
-/

namespace LeastCost

/-- `x` has the least key of all candidates, of which there may be infinitely many. -/
structure Least {ι κ : Type} [LinearOrder κ] (candidate : ι → Prop) (key : ι → κ) (x : ι) :
    Prop where
  mem : candidate x
  le : ∀ y, candidate y → key x ≤ key y

section Lists

variable {α β γ : Type} [LinearOrder γ]

private theorem foldl_argAux_map (g : α → β) (r : β → β → Prop) [DecidableRel r]
    (xs : List α) (best : Option α) :
    (xs.map g).foldl (List.argAux r) (best.map g) =
      (xs.foldl (List.argAux fun a b => r (g a) (g b)) best).map g := by
  induction xs generalizing best with
  | nil => rfl
  | cons x rest ih =>
    have hstep : List.argAux r (best.map g) (g x) =
        (List.argAux (fun a b => r (g a) (g b)) best x).map g := by
      cases best with
      | none => rfl
      | some b =>
        simp only [List.argAux, Option.map_some]
        split_ifs <;> rfl
    rw [List.map_cons, List.foldl_cons, List.foldl_cons, hstep, ih]

/-- Choosing the best image is choosing the element with the best image. -/
theorem argmax_map (g : α → β) (f : β → γ) (xs : List α) :
    (xs.map g).argmax f = (xs.argmax fun x => f (g x)).map g :=
  foldl_argAux_map g (fun b c => f c < f b) xs none

theorem argmin_map (g : α → β) (f : β → γ) (xs : List α) :
    (xs.map g).argmin f = (xs.argmin fun x => f (g x)).map g :=
  foldl_argAux_map g (fun b c => f b < f c) xs none

theorem exists_argmin (f : α → γ) {xs : List α} {x : α} (hx : x ∈ xs) :
    ∃ best, xs.argmin f = some best := by
  cases h : xs.argmin f with
  | none =>
    rw [List.argmin_eq_none.mp h] at hx
    cases hx
  | some best => exact ⟨best, rfl⟩

theorem least_of_argmin {f : α → γ} {xs : List α} {x : α} (h : xs.argmin f = some x) :
    Least (· ∈ xs) f x :=
  ⟨List.argmin_mem h, fun _ hy => List.le_of_mem_argmin hy h⟩

end Lists

section Keys

variable {ι κ : Type} [LinearOrder κ] {candidate : ι → Prop} {key : ι → κ} {x y : ι}

theorem least_congr {key' : ι → κ} (h : ∀ y, candidate y → key y = key' y) :
    Least candidate key x ↔ Least candidate key' x := by
  constructor
  · intro hx
    refine ⟨hx.mem, ?_⟩
    intro y hy
    rw [← h x hx.mem, ← h y hy]
    exact hx.le y hy
  · intro hx
    refine ⟨hx.mem, ?_⟩
    intro y hy
    rw [h x hx.mem, h y hy]
    exact hx.le y hy

end Keys

variable {K τ ι G : Type} [Field K] [LinearOrder K] [IsStrictOrderedRing K] [LinearOrder τ]
  {candidate : ι → Prop} {x y : ι}

omit [Field K] [IsStrictOrderedRing K] in
theorem Least.cost_le {cost : ι → K} {tie : ι → τ}
    (h : Least candidate (fun y => toLex (cost y, tie y)) x) (hy : candidate y) :
    cost x ≤ cost y := by
  have hle := h.le y hy
  rw [Prod.Lex.toLex_le_toLex] at hle
  rcases hle with hlt | ⟨heq, -⟩
  · exact hlt.le
  · exact heq.le

/-- A choice made on approximate costs is nearly the best: it loses at most the error on
either side, its own and that of the candidate it should have taken. -/
theorem Least.cost_le_of_close {cost approx : ι → K} {tie : ι → τ} {ε : K}
    (h : Least candidate (fun y => toLex (approx y, tie y)) x)
    (hclose : ∀ y, candidate y → |approx y - cost y| ≤ ε) (hy : candidate y) :
    cost x ≤ cost y + 2 * ε := by
  have happrox : approx x ≤ approx y := h.cost_le hy
  have hx := abs_le.mp (hclose x h.mem)
  have hy := abs_le.mp (hclose y hy)
  linarith

section Loads

variable [DecidableEq G] (group : ι → G) (cost : ι → K) (tie : ι → τ) (load : G → K)

def loadedKey (y : ι) : K ×ₗ τ := toLex (load (group y) + cost y, tie y)

def keepOnly (g : G) : G → K := Function.update 0 g (load g)

variable {group cost tie load}

omit [DecidableEq G] in
/-- A choice made on approximate loads, one to each group of candidates, is nearly the
best by true loads: it loses at most the error on either side. -/
theorem Least.cost_le_of_close_loads (load : G → K) {approx : G → K} {ε : K}
    (h : Least candidate (loadedKey group cost tie approx) x)
    (hclose : ∀ y, candidate y → |approx (group y) - load (group y)| ≤ ε) (hy : candidate y) :
    load (group x) + cost x ≤ load (group y) + cost y + 2 * ε := by
  have hsum : ∀ y, candidate y →
      |approx (group y) + cost y - (load (group y) + cost y)| ≤ ε := by
    intro y hy
    rw [add_sub_add_right_eq_sub]
    exact hclose y hy
  exact Least.cost_le_of_close h hsum hy

omit [DecidableEq G] in
theorem loadedKey_le_iff_of_group {load' : G → K} (hgroup : group y = group x) :
    loadedKey group cost tie load x ≤ loadedKey group cost tie load y ↔
      loadedKey group cost tie load' x ≤ loadedKey group cost tie load' y := by
  simp only [loadedKey, Prod.Lex.toLex_le_toLex, hgroup, add_lt_add_iff_left, add_right_inj]

omit [LinearOrder K] [IsStrictOrderedRing K] [LinearOrder τ] in
theorem loadedKey_keepOnly_self :
    loadedKey group cost tie (keepOnly load (group x)) x = loadedKey group cost tie load x := by
  rw [loadedKey, keepOnly, Function.update_self, loadedKey]

omit [LinearOrder K] [IsStrictOrderedRing K] [LinearOrder τ] in
theorem loadedKey_keepOnly_other (hgroup : group y ≠ group x) :
    loadedKey group cost tie (keepOnly load (group x)) y = loadedKey group cost tie 0 y := by
  rw [loadedKey, keepOnly, Function.update_of_ne hgroup, loadedKey]

omit [DecidableEq G] in
theorem loadedKey_zero_le (hload : 0 ≤ load (group x)) :
    loadedKey group cost tie 0 x ≤ loadedKey group cost tie load x := by
  simp only [loadedKey, Prod.Lex.toLex_le_toLex, Pi.zero_apply, zero_add, le_refl, and_true]
  exact (le_add_of_nonneg_left hload).lt_or_eq

/-- A choice survives the emptying of the other groups when it stays at or below
all they have to offer then. -/
theorem least_keepOnly_iff (h : Least candidate (loadedKey group cost tie load) x) :
    Least candidate (loadedKey group cost tie (keepOnly load (group x))) x ↔
      ∀ y, candidate y → group y ≠ group x →
        loadedKey group cost tie load x ≤ loadedKey group cost tie 0 y := by
  constructor
  · intro hown y hy hother
    rw [← loadedKey_keepOnly_self, ← loadedKey_keepOnly_other hother]
    exact hown.le y hy
  · intro hbelow
    refine ⟨h.mem, ?_⟩
    intro y hy
    rcases eq_or_ne (group y) (group x) with hgroup | hother
    · exact (loadedKey_le_iff_of_group hgroup).mp (h.le y hy)
    · rw [loadedKey_keepOnly_self, loadedKey_keepOnly_other hother]
      exact hbelow y hy hother

omit [DecidableEq G] in
/-- A choice survives the emptying of all groups when, emptied too, it stays at
or below what the others offer then. -/
theorem least_zero_iff (h : Least candidate (loadedKey group cost tie load) x) :
    Least candidate (loadedKey group cost tie 0) x ↔
      ∀ y, candidate y → group y ≠ group x →
        loadedKey group cost tie 0 x ≤ loadedKey group cost tie 0 y := by
  constructor
  · intro hidle y hy _
    exact hidle.le y hy
  · intro hbelow
    refine ⟨h.mem, ?_⟩
    intro y hy
    rcases eq_or_ne (group y) (group x) with hgroup | hother
    · exact (loadedKey_le_iff_of_group hgroup).mp (h.le y hy)
    · exact hbelow y hy hother

/-- A choice that survives the emptying of the other groups survives the
emptying of its own as well. -/
theorem Least.zero_of_keepOnly (h : Least candidate (loadedKey group cost tie load) x)
    (hload : 0 ≤ load (group x))
    (hown : Least candidate (loadedKey group cost tie (keepOnly load (group x))) x) :
    Least candidate (loadedKey group cost tie 0) x := by
  rw [least_zero_iff h]
  intro y hy hother
  exact (loadedKey_zero_le hload).trans ((least_keepOnly_iff h).mp hown y hy hother)

end Loads

end LeastCost
