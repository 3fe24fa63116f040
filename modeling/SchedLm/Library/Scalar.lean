import Mathlib.Algebra.Order.Round
import Mathlib.Analysis.Real.Sqrt
import Mathlib.Data.Nat.Sqrt
import Mathlib.Data.Rat.Floor
import Mathlib.Tactic

/-!
Exact scalars in place of floating-point numbers. A `Scalar` is a linearly
ordered field with a floor and a square root that never exceeds the true root.
The rationals are the instance programs are run on; the reals are the instance
with the exact root. Rounding of the field operations themselves is outside
this abstraction.
-/

class Scalar (K : Type) extends Field K, LinearOrder K, IsStrictOrderedRing K,
    FloorRing K where
  sqrt : K → K
  sqrt_nonneg : ∀ x, 0 ≤ sqrt x
  sqrt_le_of_le_mul_self : ∀ {x y : K}, 0 ≤ y → x ≤ y * y → sqrt x ≤ y

namespace Scalar

-- Named evidence for the numerals that the constants of several modules share,
-- so that equal constants are the same term wherever they are written.

instance atLeastTwo_two : Nat.AtLeastTwo 2 := ⟨le_rfl⟩

instance atLeastTwo_three : Nat.AtLeastTwo 3 := ⟨by norm_num⟩

instance atLeastTwo_five : Nat.AtLeastTwo 5 := ⟨by norm_num⟩

instance atLeastTwo_ten : Nat.AtLeastTwo 10 := ⟨by norm_num⟩

instance atLeastTwo_sixteen : Nat.AtLeastTwo 16 := ⟨by norm_num⟩

instance atLeastTwo_hundred : Nat.AtLeastTwo 100 := ⟨by norm_num⟩

instance atLeastTwo_billion : Nat.AtLeastTwo 1000000000 := ⟨by norm_num⟩

section Rounding

variable {K : Type} [Scalar K]

/-- Nearest integer, with ties going to the even neighbour. -/
def roundHalfEven (x : K) : ℤ :=
  let below := ⌊x⌋
  let part := x - below
  if part < 1 / 2 then below
  else if 1 / 2 < part then below + 1
  else if below % 2 = 0 then below else below + 1

theorem roundHalfEven_intCast (n : ℤ) : roundHalfEven (n : K) = n := by
  unfold roundHalfEven
  dsimp only
  rw [Int.floor_intCast, sub_self, if_pos (by norm_num)]

theorem roundHalfEven_nonneg {x : K} (hx : 0 ≤ x) : 0 ≤ roundHalfEven x := by
  have hfloor : 0 ≤ ⌊x⌋ := Int.floor_nonneg.mpr hx
  unfold roundHalfEven
  dsimp only
  split_ifs <;> omega

theorem abs_roundHalfEven_sub_le (x : K) : |(roundHalfEven x : K) - x| ≤ 1 / 2 := by
  have hlow := Int.floor_le x
  have hhigh := Int.lt_floor_add_one x
  unfold roundHalfEven
  dsimp only
  rw [abs_le]
  split_ifs with hbelow habove
  · constructor <;> linarith
  · push_cast
    constructor <;> linarith
  · constructor <;> linarith
  · push_cast
    constructor <;> linarith

end Rounding

def ratSqrt (x : ℚ) : ℚ :=
  (Nat.sqrt ⌊x * 10 ^ 30⌋.toNat : ℚ) / 10 ^ 15

theorem ratSqrt_nonneg (x : ℚ) : 0 ≤ ratSqrt x := by
  unfold ratSqrt
  positivity

theorem ratSqrt_le_of_le_mul_self {x y : ℚ} (hy : 0 ≤ y) (hxy : x ≤ y * y) :
    ratSqrt x ≤ y := by
  have hscaled : x * 10 ^ 30 ≤ (y * 10 ^ 15) * (y * 10 ^ 15) := by
    linarith [mul_le_mul_of_nonneg_right hxy (by positivity : (0 : ℚ) ≤ 10 ^ 30)]
  have hfloor : ((⌊x * 10 ^ 30⌋.toNat : ℕ) : ℚ) ≤ (y * 10 ^ 15) * (y * 10 ^ 15) := by
    rcases le_total 0 ⌊x * 10 ^ 30⌋ with hpos | hneg
    · have hcast : ((⌊x * 10 ^ 30⌋.toNat : ℕ) : ℚ) = ((⌊x * 10 ^ 30⌋ : ℤ) : ℚ) := by
        exact_mod_cast Int.toNat_of_nonneg hpos
      rw [hcast]
      exact (Int.floor_le _).trans hscaled
    · rw [Int.toNat_of_nonpos hneg]
      simpa using mul_self_nonneg (y * 10 ^ 15)
  have hroot : (Nat.sqrt ⌊x * 10 ^ 30⌋.toNat : ℚ) *
      (Nat.sqrt ⌊x * 10 ^ 30⌋.toNat : ℚ) ≤ (y * 10 ^ 15) * (y * 10 ^ 15) := by
    refine le_trans ?_ hfloor
    exact_mod_cast Nat.sqrt_le _
  have hle : (Nat.sqrt ⌊x * 10 ^ 30⌋.toNat : ℚ) ≤ y * 10 ^ 15 :=
    (mul_self_le_mul_self_iff (by positivity) (by positivity)).mpr hroot
  unfold ratSqrt
  rw [div_le_iff₀ (by positivity)]
  exact hle

instance : Scalar ℚ where
  sqrt := ratSqrt
  sqrt_nonneg := ratSqrt_nonneg
  sqrt_le_of_le_mul_self := ratSqrt_le_of_le_mul_self

noncomputable instance : Scalar ℝ where
  sqrt := Real.sqrt
  sqrt_nonneg := Real.sqrt_nonneg
  sqrt_le_of_le_mul_self := fun hy hxy => by
    exact Real.sqrt_le_iff.mpr ⟨hy, by simpa [sq] using hxy⟩

end Scalar
