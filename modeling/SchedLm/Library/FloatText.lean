import SchedLm.Library.Decimal
import SchedLm.Library.Scalar
import SchedLm.Library.Text

/-!
Floating-point values and how they are written. The finite ones are exact here;
beside them there are the infinities and what is not a number.
-/

inductive FloatValue (K : Type) where
  | finite (x : K)
  | infinite (negative : Bool)
  | nan
  deriving DecidableEq, Repr

namespace FloatValue

variable {K : Type} [Field K]

def neg : FloatValue K → FloatValue K
  | .finite x => .finite (-x)
  | .infinite negative => .infinite !negative
  | .nan => .nan

/-- Opposite infinities cancel to what is not a number. -/
def add : FloatValue K → FloatValue K → FloatValue K
  | .finite x, .finite y => .finite (x + y)
  | .finite _, y => y
  | x, .finite _ => x
  | .infinite negative, .infinite negative' =>
    if negative = negative' then .infinite negative else .nan
  | _, _ => .nan

def sum (values : List (FloatValue K)) : FloatValue K := values.foldl add (.finite 0)

/-- `abs(x - center) > bound`. Nothing is greater for what is not a number. -/
def fartherThan [LinearOrder K] (bound center : K) : FloatValue K → Bool
  | .finite x => bound < |x - center|
  | .infinite _ => true
  | .nan => false

theorem sum_map_finite (xs : List K) : sum (xs.map finite) = finite xs.sum := by
  have hfrom : ∀ (xs : List K) (start : K),
      (xs.map finite).foldl add (.finite start) = .finite (start + xs.sum) := by
    intro xs
    induction xs with
    | nil => simp
    | cons x rest ih =>
      intro start
      rw [List.map_cons, List.foldl_cons, List.sum_cons, ← add_assoc]
      exact ih (start + x)
  rw [sum, hfrom, zero_add]

end FloatValue

namespace FloatText

def digitPart (text : List Char) : Option (List ℕ) := do
  let runs ← (text.splitOn '_').mapM fun run =>
    if run = [] then none else run.mapM Decimal.value
  return runs.flatten

/-- `[digitpart] "." digitpart | digitpart ["."]`: the digits, and how many of them
are behind the point. -/
def number (text : List Char) : Option (List ℕ × ℕ) :=
  match Text.cut '.' text with
  | (whole, none) | (whole, some []) => do
    let digits ← digitPart whole
    return (digits, 0)
  | ([], some part) => do
    let digits ← digitPart part
    return (digits, digits.length)
  | (whole, some part) => do
    let digits ← digitPart whole
    let digits' ← digitPart part
    return (digits ++ digits', digits'.length)

def signed : List Char → Bool × List Char
  | '-' :: rest => (true, rest)
  | '+' :: rest => (false, rest)
  | text => (false, text)

def exponent (text : List Char) : Option ℤ := do
  let (negative, rest) := signed text
  let digits ← digitPart rest
  let size : ℤ := Nat.ofDigits 10 digits.reverse
  return if negative then -size else size

section

variable {K : Type} [Field K]

/-- `number [("e" | "E") [sign] digitpart]`, in small letters. -/
def floatNumber (text : List Char) : Option K := do
  let (mantissa, power) := Text.cut 'e' text
  let (digits, behind) ← number mantissa
  let power ← match power with
    | none => some 0
    | some power => exponent power
  return (Nat.ofDigits 10 digits.reverse : ℕ) * (10 : K) ^ (power - behind)

def magnitude (text : List Char) : Option (FloatValue K) :=
  if text = ['i', 'n', 'f'] ∨ text = ['i', 'n', 'f', 'i', 'n', 'i', 't', 'y'] then
    some (.infinite false)
  else if text = ['n', 'a', 'n'] then some .nan
  else (floatNumber text).map .finite

/-- What a text stands for, if it has no space around it. -/
def parse (text : List Char) : Option (FloatValue K) :=
  let (negative, rest) := signed text
  (magnitude (rest.map Char.toLower)).map fun x => if negative then x.neg else x

end

example : parse "-1_2.50E-1".toList = some (.finite (-5 / 4 : ℚ)) ∧
    parse ".5".toList = some (.finite (1 / 2 : ℚ)) ∧
    parse "+\u0663.".toList = some (.finite (3 : ℚ)) ∧
    parse "-Infinity".toList = some (.infinite true : FloatValue ℚ) ∧
    parse "1__0".toList = (none : Option (FloatValue ℚ)) ∧
    parse ".".toList = (none : Option (FloatValue ℚ)) := by
  decide +kernel

end FloatText
