import Mathlib.Tactic

/-!
Choosing by a weighted sum of a gain and a cost, the cost normalized between its
extremes so that the least has weight one and the greatest weight none. Whatever
the extremes are, a best choice is never worse than another in both respects,
and falls behind in gain by no more than the ratio of the weights.
-/

namespace WeightedSum

variable {K : Type} [Field K] [LinearOrder K]

/-- A cost between two extremes, turned around and scaled to the unit interval.
Without a spread all costs count as the least. -/
def normalized (lo hi cost : K) : K := if hi = lo then 1 else 1 - (cost - lo) / (hi - lo)

section Normalized

variable [IsStrictOrderedRing K] {lo hi cost cost' : K}

theorem normalized_nonneg (hlo : lo ≤ cost) (hhi : cost ≤ hi) : 0 ≤ normalized lo hi cost := by
  unfold normalized
  split_ifs with hsame
  · exact zero_le_one
  · have hspread : 0 < hi - lo := sub_pos.mpr (lt_of_le_of_ne (hlo.trans hhi) (Ne.symm hsame))
    rw [sub_nonneg, div_le_one hspread]
    linarith

theorem normalized_le_one (hlo : lo ≤ cost) (hhi : cost ≤ hi) : normalized lo hi cost ≤ 1 := by
  unfold normalized
  split_ifs
  · exact le_rfl
  · have hpart : 0 ≤ (cost - lo) / (hi - lo) :=
      div_nonneg (sub_nonneg.mpr hlo) (sub_nonneg.mpr (hlo.trans hhi))
    linarith

/-- A lower cost counts for more, as soon as there is a spread. -/
theorem normalized_lt (hlo : lo ≤ cost) (hlt : cost < cost') (hhi : cost' ≤ hi) :
    normalized lo hi cost' < normalized lo hi cost := by
  have hspread : lo < hi := hlo.trans_lt (hlt.trans_le hhi)
  have hpart : (cost - lo) / (hi - lo) < (cost' - lo) / (hi - lo) :=
    div_lt_div_of_pos_right (sub_lt_sub_right hlt lo) (sub_pos.mpr hspread)
  unfold normalized
  rw [if_neg hspread.ne', if_neg hspread.ne']
  linarith

end Normalized

section Dominates

variable {ι γ δ κ : Type} [Preorder γ] [Preorder δ] [Preorder κ]

/-- At least as much gain at no more cost, and one of the two strictly so. Nothing
dominates itself. -/
def Dominates (gain : ι → γ) (cost : ι → κ) (y x : ι) : Prop :=
  gain x ≤ gain y ∧ cost y ≤ cost x ∧ (gain x < gain y ∨ cost y < cost x)

/-- Domination does not depend on the unit of the gains. -/
theorem Dominates.rescale {gain : ι → γ} {cost : ι → κ} {y x : ι}
    (h : Dominates gain cost y x) {f : γ → δ} (hf : Monotone f)
    (hstrict : gain x < gain y → f (gain x) < f (gain y)) :
    Dominates (fun i => f (gain i)) cost y x :=
  ⟨hf h.1, h.2.1, h.2.2.imp_left hstrict⟩

end Dominates

variable {ι : Type} [IsStrictOrderedRing K] {gain cost : ι → K} {lo hi a b : K} {x y : ι}

theorem not_dominates (ha : 0 < a) (hb : 0 < b) (hy : lo ≤ cost y) (hx : cost x ≤ hi)
    (hbest : a * gain y + b * normalized lo hi (cost y) ≤
      a * gain x + b * normalized lo hi (cost x)) : ¬ Dominates gain cost y x := by
  rintro ⟨hgain, hcost, hstrict⟩
  have hgains : a * gain x ≤ a * gain y := mul_le_mul_of_nonneg_left hgain ha.le
  rcases hcost.lt_or_eq with hless | hsame
  · have hloads := mul_lt_mul_of_pos_left (normalized_lt hy hless hx) hb
    linarith
  · have hmore : gain x < gain y := hstrict.resolve_right (not_lt.mpr hsame.ge)
    have hgains' := mul_lt_mul_of_pos_left hmore ha
    rw [hsame] at hbest
    linarith

/-- A best sum falls behind in gain by at most the ratio of the weights. -/
theorem gain_le (ha : 0 < a) (hb : 0 < b) (hy : lo ≤ cost y ∧ cost y ≤ hi)
    (hx : lo ≤ cost x ∧ cost x ≤ hi)
    (hbest : a * gain y + b * normalized lo hi (cost y) ≤
      a * gain x + b * normalized lo hi (cost x)) : gain y ≤ gain x + b / a := by
  have hnone := mul_nonneg hb.le (normalized_nonneg hy.1 hy.2)
  have hall := mul_le_mul_of_nonneg_left (normalized_le_one hx.1 hx.2) hb.le
  have hscaled : a * gain y ≤ a * (gain x + b / a) := by
    rw [mul_add, mul_div_cancel₀ b ha.ne']
    linarith
  exact le_of_mul_le_mul_left hscaled ha

end WeightedSum
