import SchedLm.Library.Scalar

/-!
Times and durations as the gateway's clock has them: both count nanoseconds, a
duration has 64 bits, and the difference of two times saturates.
-/

namespace SchedLm.Gateway

abbrev Time := ℤ

abbrev Duration := ℤ

def minDuration : Duration := -2 ^ 63

def maxDuration : Duration := 2 ^ 63 - 1

def millisecond : Duration := 1000000

def Time.sub (t u : Time) : Duration := max minDuration (min (t - u) maxDuration)

theorem Time.sub_eq {t u : Time} (hle : u ≤ t) (hfits : t - u ≤ maxDuration) :
    Time.sub t u = t - u := by
  unfold sub
  have hlow : minDuration ≤ 0 := by decide
  rw [min_eq_left hfits, max_eq_right (hlow.trans (sub_nonneg.mpr hle))]

namespace Duration

variable {K : Type} [Scalar K]

def seconds (d : Duration) : K := (d : K) / 1000000000

/-- `time.Duration(x)` of a floating-point number of nanoseconds. -/
def ofFloat (x : K) : Duration := if 0 ≤ x then ⌊x⌋ else ⌈x⌉

/-- `d.Round(m)`: to the nearest multiple, halfway cases away from zero. -/
def roundTo (d m : Duration) : Duration :=
  if m ≤ 0 then d
  else
    let r := Int.tmod d m
    if d < 0 then
      let r := -r
      if r + r < m then d + r else max (d - m + r) minDuration
    else if r + r < m then d - r
    else min (d + m - r) maxDuration

/-- `fmtFrac`, the digits: trailing zeros are left out. -/
def fracDigits : ℕ → ℕ → List Char → List Char × ℕ
  | 0, v, text => (text, v)
  | prec + 1, v, text =>
    let digit := v % 10
    let text := if text = [] ∧ digit = 0 then text else digit.digitChar :: text
    fracDigits prec (v / 10) text

/-- `fmtFrac`: the fraction of `v / 10 ^ prec`, and its whole part. -/
def fmtFrac (v prec : ℕ) : String × ℕ :=
  let (digits, v) := fracDigits prec v []
  (if digits = [] then "" else "." ++ String.ofList digits, v)

def string (d : Duration) : String :=
  let u := d.natAbs
  let text :=
    if u < 1000000000 then
      if u = 0 then "0s"
      else if u < 1000 then toString u ++ "ns"
      else if u < 1000000 then
        let (frac, u) := fmtFrac u 3
        toString u ++ frac ++ "µs"
      else
        let (frac, u) := fmtFrac u 6
        toString u ++ frac ++ "ms"
    else
      let (frac, u) := fmtFrac u 9
      let seconds := toString (u % 60) ++ frac ++ "s"
      let u := u / 60
      if u = 0 then seconds
      else
        let minutes := toString (u % 60) ++ "m" ++ seconds
        let u := u / 60
        if u = 0 then minutes else toString u ++ "h" ++ minutes
  if d < 0 then "-" ++ text else text

private theorem roundTo_millisecond {d : ℤ} (hd : 0 ≤ d) (hfits : d ≤ 9000000000000000000) :
    roundTo d millisecond = (d + 500000) / 1000000 * 1000000 := by
  have hmod : Int.tmod d 1000000 = d % 1000000 := Int.tmod_eq_emod_of_nonneg hd
  unfold roundTo millisecond maxDuration
  simp only [hmod, if_neg (not_lt.mpr hd)]
  rw [if_neg (by norm_num)]
  split_ifs with hhalf
  · have hdown : d - d % 1000000 = (d + 500000) / 1000000 * 1000000 := by omega
    exact hdown
  · have hup : min (d + 1000000 - d % 1000000) (2 ^ 63 - 1) =
        (d + 500000) / 1000000 * 1000000 := by omega
    exact hup

/-- Cutting a non-negative number of seconds to nanoseconds first does not
change how it rounds to milliseconds. -/
theorem roundTo_ofFloat {x : K} (hx : 0 ≤ x) (hfits : x ≤ 9000000000) :
    roundTo (ofFloat (x * 1000000000)) millisecond = round (x * 1000) * 1000000 := by
  have hscaled : 0 ≤ x * 1000000000 := by positivity
  have hpos : (0 : ℤ) ≤ ⌊x * 1000000000⌋ := Int.floor_nonneg.mpr hscaled
  have hle : ⌊x * 1000000000⌋ ≤ 9000000000000000000 := by
    rw [Int.floor_le_iff]
    push_cast
    linarith
  rw [ofFloat, if_pos hscaled, roundTo_millisecond hpos hle, round_eq]
  congr 1
  calc (⌊x * 1000000000⌋ + 500000) / 1000000
      = ⌊x * 1000000000 + ((500000 : ℤ) : K)⌋ / 1000000 := by rw [Int.floor_add_intCast]
    _ = ⌊(x * 1000 + 1 / 2) * ((1000000 : ℤ) : K)⌋ / 1000000 := by
        congr 2
        push_cast
        ring
    _ = ⌊x * 1000 + 1 / 2⌋ := Int.mul_cast_floor_div_cancel_of_pos (by norm_num) _

end Duration

end SchedLm.Gateway
