import SchedLm.Gateway.Clock
import SchedLm.Library.Text

/-!
Reading a duration back from its text: a sign, then numbers with units, each
with an optional fraction, added up. The value is exact and has no bound.
Every duration is read back from what `string` prints for it.
-/

namespace SchedLm.Gateway

/-- Nanoseconds in a unit; the micro sign has two spellings. -/
def unitNanos (unit : List Char) : Option ℕ :=
  if unit = ['n', 's'] then some 1
  else if unit = ['u', 's'] ∨ unit = ['\u00b5', 's'] ∨ unit = ['\u03bc', 's'] then some 1000
  else if unit = ['m', 's'] then some 1000000
  else if unit = ['s'] then some 1000000000
  else if unit = ['m'] then some 60000000000
  else if unit = ['h'] then some 3600000000000
  else none

/-- The characters that end a unit: those a number can start with. -/
def startsNumber (c : Char) : Bool := c == '.' || c.isDigit

/-- The digits of a fraction, if one comes next, and the text after it. -/
def fraction : List Char → List Char × List Char
  | '.' :: s => (s.takeWhile Char.isDigit, s.dropWhile Char.isDigit)
  | s => ([], s)

/-- One number with its unit, in nanoseconds, and the text after it. -/
def durationTerm (s : List Char) : Option (ℕ × List Char) :=
  let whole := s.takeWhile Char.isDigit
  let (frac, s) := fraction (s.dropWhile Char.isDigit)
  if whole = [] ∧ frac = [] then none
  else do
    let unit ← unitNanos (s.takeWhile fun c => !startsNumber c)
    return (Text.digitsValue whole * unit + Text.digitsValue frac * unit / 10 ^ frac.length,
      s.dropWhile fun c => !startsNumber c)

/-- All the terms of a text, added up. A term is never empty, so the length of
the text is enough fuel. -/
def durationTerms : ℕ → List Char → Option ℕ
  | _, [] => some 0
  | 0, _ => none
  | fuel + 1, s => do
    let (first, rest) ← durationTerm s
    let others ← durationTerms fuel rest
    return first + others

def parseUnsigned (s : List Char) : Option ℕ :=
  if s = ['0'] then some 0 else if s = [] then none else durationTerms s.length s

/-- `time.ParseDuration`, without its overflow checks. -/
def parseDuration (s : List Char) : Option Duration :=
  match s with
  | '-' :: rest => (parseUnsigned rest).map fun u : ℕ => -(u : ℤ)
  | '+' :: rest => (parseUnsigned rest).map fun u : ℕ => (u : ℤ)
  | s => (parseUnsigned s).map fun u : ℕ => (u : ℤ)

example : parseDuration "1h2m3.5s".toList = some 3723500000000 := by decide +kernel

section Fraction

/-- What the digit loop has printed: the low digits of the number in front of
the text so far, except that trailing zeros are left out. -/
theorem fracDigits_spec (prec v : ℕ) (text : List Char) :
    (Duration.fracDigits prec v text).2 = v / 10 ^ prec ∧
      ((∀ c ∈ text, c.isDigit = true) →
        ∀ c ∈ (Duration.fracDigits prec v text).1, c.isDigit = true) ∧
      Text.digitsValue (Duration.fracDigits prec v text).1 * 10 ^ (prec + text.length) =
        (v % 10 ^ prec * 10 ^ text.length + Text.digitsValue text) *
          10 ^ (Duration.fracDigits prec v text).1.length := by
  induction prec generalizing v text with
  | zero =>
    refine ⟨by simp [Duration.fracDigits], fun h => h, ?_⟩
    simp [Duration.fracDigits, Nat.mod_one]
  | succ prec ih =>
    have hdiv : v / 10 / 10 ^ prec = v / 10 ^ (prec + 1) := by
      rw [Nat.div_div_eq_div_mul, pow_succ']
    have hmod : v % 10 ^ (prec + 1) = v / 10 % 10 ^ prec * 10 + v % 10 := by
      rw [pow_succ', Nat.mod_mul]
      ring
    unfold Duration.fracDigits
    dsimp only
    split_ifs with hzero
    · obtain ⟨rfl, hdigit⟩ := hzero
      obtain ⟨hrest, hdigits, hvalue⟩ := ih (v / 10) []
      refine ⟨hrest.trans hdiv, hdigits, ?_⟩
      rw [hmod, hdigit]
      simp only [List.length_nil, add_zero, pow_zero, mul_one, Text.digitsValue_nil] at hvalue ⊢
      calc _ = Text.digitsValue (Duration.fracDigits prec (v / 10) []).1 * 10 ^ prec * 10 := by
            rw [pow_succ, mul_assoc]
        _ = _ := by
            rw [hvalue]
            ring
    · obtain ⟨hrest, hdigits, hvalue⟩ := ih (v / 10) ((v % 10).digitChar :: text)
      have hten : v % 10 < 10 := Nat.mod_lt v (by decide)
      refine ⟨hrest.trans hdiv, fun htext => hdigits ?_, ?_⟩
      · intro c hc
        rcases List.mem_cons.mp hc with rfl | hc
        · simp [Nat.isDigit_digitChar, hten]
        · exact htext c hc
      · rw [hmod]
        rw [Text.digitsValue_cons_digitChar hten, List.length_cons] at hvalue
        calc _ = Text.digitsValue (Duration.fracDigits prec (v / 10)
                ((v % 10).digitChar :: text)).1 * 10 ^ (prec + (text.length + 1)) := by
              rw [Nat.add_right_comm, Nat.add_assoc]
          _ = _ := by
              rw [hvalue]
              ring

def fracText (digits : List Char) : List Char :=
  if digits = [] then [] else '.' :: digits

/-- `fmtFrac` splits a number into its whole part and the digits of the rest. -/
theorem fmtFrac_spec (v prec : ℕ) :
    ∃ digits, (Duration.fmtFrac v prec).1.toList = fracText digits ∧
      (∀ c ∈ digits, c.isDigit = true) ∧ (Duration.fmtFrac v prec).2 = v / 10 ^ prec ∧
      Text.digitsValue digits * 10 ^ prec / 10 ^ digits.length = v % 10 ^ prec := by
  obtain ⟨hrest, hdigits, hvalue⟩ := fracDigits_spec prec v []
  refine ⟨(Duration.fracDigits prec v []).1, ?_, hdigits (by simp), hrest, ?_⟩
  · unfold Duration.fmtFrac fracText
    dsimp only
    split_ifs
    · rfl
    · simp
  · rw [List.length_nil, Text.digitsValue_nil, add_zero, pow_zero, mul_one, add_zero] at hvalue
    rw [hvalue, Nat.mul_div_cancel _ (by positivity)]

end Fraction

section Terms

structure IsUnit (unit : List Char) (nanos : ℕ) : Prop where
  nanos : unitNanos unit = some nanos
  letters : ∀ c ∈ unit, startsNumber c = false
  ne_nil : unit ≠ []

theorem durationTerms_of_term {fuel : ℕ} {s rest : List Char} {first others : ℕ} (hs : s ≠ [])
    (hterm : durationTerm s = some (first, rest))
    (hothers : durationTerms fuel rest = some others) :
    durationTerms (fuel + 1) s = some (first + others) := by
  obtain ⟨c, s, rfl⟩ := List.exists_cons_of_ne_nil hs
  change (do
    let (first, rest) ← durationTerm (c :: s)
    let others ← durationTerms fuel rest
    return first + others) = _
  rw [hterm]
  change (do
    let others ← durationTerms fuel rest
    return first + others) = _
  rw [hothers]
  rfl

/-- Text that is over, or goes on with a number. -/
def NextNumber (rest : List Char) : Prop := ∀ c, rest.head? = some c → startsNumber c = true

theorem IsUnit.span {unit : List Char} {nanos : ℕ} (h : IsUnit unit nanos) {rest : List Char}
    (hrest : NextNumber rest) :
    (unit ++ rest).takeWhile (fun c => !startsNumber c) = unit ∧
      (unit ++ rest).dropWhile (fun c => !startsNumber c) = rest := by
  have hletters : ∀ c ∈ unit, (!startsNumber c) = true := by
    intro c hc
    rw [h.letters c hc]
    rfl
  rw [List.takeWhile_append_of_pos hletters, List.dropWhile_append_of_pos hletters]
  cases rest with
  | nil => simp
  | cons c rest =>
    have hc : startsNumber c = true := hrest c rfl
    simp [hc]

theorem isDigit_of_letter {c : Char} (hc : startsNumber c = false) : c.isDigit = false := by
  unfold startsNumber at hc
  exact (Bool.or_eq_false_iff.mp hc).2

theorem fraction_append {digits : List Char} (hdigits : ∀ c ∈ digits, c.isDigit = true)
    {letter : Char} (hletter : startsNumber letter = false) (rest : List Char) :
    fraction (fracText digits ++ letter :: rest) = (digits, letter :: rest) := by
  unfold fracText
  split_ifs with hnone
  · subst hnone
    rw [List.nil_append]
    unfold fraction
    split
    · rename_i heq
      obtain ⟨rfl, -⟩ := List.cons.inj heq
      exact absurd hletter (by decide)
    · rfl
  · change (((digits ++ letter :: rest).takeWhile Char.isDigit),
      ((digits ++ letter :: rest).dropWhile Char.isDigit)) = _
    rw [Text.takeWhile_isDigit hdigits (isDigit_of_letter hletter),
      Text.dropWhile_isDigit hdigits (isDigit_of_letter hletter)]

theorem durationTerm_append {unit : List Char} {nanos : ℕ} (hunit : IsUnit unit nanos) (n : ℕ)
    {digits : List Char} (hdigits : ∀ c ∈ digits, c.isDigit = true) {rest : List Char}
    (hrest : NextNumber rest) :
    durationTerm (Nat.toDigits 10 n ++ (fracText digits ++ (unit ++ rest))) =
      some (n * nanos + Text.digitsValue digits * nanos / 10 ^ digits.length, rest) := by
  obtain ⟨letter, letters, hfirst⟩ := List.exists_cons_of_ne_nil hunit.ne_nil
  have hletter : startsNumber letter = false := hunit.letters letter (by simp [hfirst])
  have hwhole : ∀ c ∈ Nat.toDigits 10 n, c.isDigit = true := fun c => Text.isDigit_of_mem_toDigits
  -- whatever comes after the whole number, it is no digit
  obtain ⟨next, after, hnext, hnodigit⟩ : ∃ next after,
      fracText digits ++ (unit ++ rest) = next :: after ∧ next.isDigit = false := by
    unfold fracText
    split_ifs
    · exact ⟨letter, letters ++ rest, by simp [hfirst], isDigit_of_letter hletter⟩
    · exact ⟨'.', digits ++ (unit ++ rest), by simp, by decide⟩
  have hfraction : fraction (next :: after) = (digits, unit ++ rest) := by
    rw [← hnext, hfirst]
    exact fraction_append hdigits hletter (letters ++ rest)
  obtain ⟨htake, hdrop⟩ := hunit.span hrest
  unfold durationTerm
  rw [hnext, Text.takeWhile_isDigit hwhole hnodigit, Text.dropWhile_isDigit hwhole hnodigit,
    hfraction]
  dsimp only
  rw [if_neg fun h => Nat.toDigits_ne_nil h.1, htake, hdrop, hunit.nanos, Text.digitsValue_toDigits]
  rfl

/-- Text that is read as so many nanoseconds, and is what `string` prints: it
starts with a digit, ends in seconds, and holds none of the characters that
matter to the header around it. -/
structure Renders (text : List Char) (nanos : ℕ) : Prop where
  terms : ∀ fuel, text.length ≤ fuel → durationTerms fuel text = some nanos
  starts : ∃ c rest, text = c :: rest ∧ c.isDigit = true
  seconds : 's' ∈ text
  letters : ∀ c ∈ text, c.isDigit = true ∨ c ∈ ['.', 'n', '\u00b5', 'm', 's', 'h']

theorem Renders.parseUnsigned {text : List Char} {nanos : ℕ} (h : Renders text nanos) :
    parseUnsigned text = some nanos := by
  have hzero : text ≠ ['0'] := by
    rintro rfl
    exact absurd h.seconds (by decide)
  have hne : text ≠ [] := List.ne_nil_of_mem h.seconds
  rw [Gateway.parseUnsigned, if_neg hzero, if_neg hne]
  exact h.terms text.length le_rfl

abbrev UnitLetters (unit : List Char) : Prop := ∀ c ∈ unit, c ∈ ['n', '\u00b5', 'm', 's', 'h']

private theorem renders_append {unit : List Char} {nanos : ℕ} (hunit : IsUnit unit nanos)
    (hletters : UnitLetters unit) (n : ℕ) {digits : List Char}
    (hdigits : ∀ c ∈ digits, c.isDigit = true) {rest : List Char} {others : ℕ}
    (hnext : NextNumber rest)
    (hterms : ∀ fuel, rest.length ≤ fuel → durationTerms fuel rest = some others)
    (hrest : ∀ c ∈ rest, c.isDigit = true ∨ c ∈ ['.', 'n', '\u00b5', 'm', 's', 'h'])
    (hseconds : 's' ∈ unit ++ rest) :
    Renders (Nat.toDigits 10 n ++ (fracText digits ++ (unit ++ rest)))
      (n * nanos + Text.digitsValue digits * nanos / 10 ^ digits.length + others) := by
  have hwhole : ∀ c ∈ Nat.toDigits 10 n, c.isDigit = true := fun c => Text.isDigit_of_mem_toDigits
  obtain ⟨first, more, hfirst⟩ := List.exists_cons_of_ne_nil
    (Nat.toDigits_ne_nil : Nat.toDigits 10 n ≠ [])
  refine ⟨?_, ⟨first, more ++ (fracText digits ++ (unit ++ rest)), ?_, ?_⟩, ?_, ?_⟩
  · intro fuel hfuel
    simp only [List.length_append, hfirst, List.length_cons] at hfuel
    obtain ⟨fuel, rfl⟩ : ∃ less, fuel = less + 1 := ⟨fuel - 1, by omega⟩
    exact durationTerms_of_term (List.append_ne_nil_of_left_ne_nil Nat.toDigits_ne_nil _)
      (durationTerm_append hunit n hdigits hnext) (hterms fuel (by omega))
  · rw [hfirst, List.cons_append]
  · exact hwhole first (by simp [hfirst])
  · exact List.mem_append_right _ (List.mem_append_right _ hseconds)
  · intro c hc
    rcases List.mem_append.mp hc with hc | hc
    · exact Or.inl (hwhole c hc)
    · rcases List.mem_append.mp hc with hc | hc
      · unfold fracText at hc
        split_ifs at hc
        · cases hc
        · rcases List.mem_cons.mp hc with rfl | hc
          · exact Or.inr (by simp)
          · exact Or.inl (hdigits c hc)
      · rcases List.mem_append.mp hc with hc | hc
        · exact Or.inr (List.mem_cons_of_mem _ (hletters c hc))
        · exact hrest c hc

theorem renders_last {unit : List Char} {nanos : ℕ} (hunit : IsUnit unit nanos)
    (hletters : UnitLetters unit) (hseconds : 's' ∈ unit) (n : ℕ) {digits : List Char}
    (hdigits : ∀ c ∈ digits, c.isDigit = true) :
    Renders (Nat.toDigits 10 n ++ (fracText digits ++ unit))
      (n * nanos + Text.digitsValue digits * nanos / 10 ^ digits.length) := by
  have hend : Renders (Nat.toDigits 10 n ++ (fracText digits ++ (unit ++ [])))
      (n * nanos + Text.digitsValue digits * nanos / 10 ^ digits.length + 0) := by
    apply renders_append hunit hletters n hdigits
    · intro c hc
      cases hc
    · intro fuel _
      cases fuel <;> rfl
    · simp
    · simpa using hseconds
  simpa using hend

theorem Renders.cons {unit rest : List Char} {nanos others : ℕ} (h : Renders rest others)
    (hunit : IsUnit unit nanos) (hletters : UnitLetters unit) (n : ℕ) :
    Renders (Nat.toDigits 10 n ++ (unit ++ rest)) (n * nanos + others) := by
  obtain ⟨c, more, hstart, hdigit⟩ := h.starts
  have hnext : NextNumber rest := by
    intro head hhead
    rw [hstart] at hhead
    obtain rfl : c = head := Option.some.inj hhead
    simp [startsNumber, hdigit]
  have hall : Renders (Nat.toDigits 10 n ++ (fracText [] ++ (unit ++ rest)))
      (n * nanos + Text.digitsValue [] * nanos / 10 ^ ([] : List Char).length + others) :=
    renders_append hunit hletters n (by simp) hnext h.terms h.letters
      (List.mem_append_right unit h.seconds)
  simpa [fracText] using hall

theorem isUnit_ns : IsUnit "ns".toList 1 := ⟨by decide, by simp [startsNumber], by decide⟩

theorem isUnit_micros : IsUnit "µs".toList (10 ^ 3) :=
  ⟨by decide, by simp [startsNumber], by decide⟩

theorem isUnit_ms : IsUnit "ms".toList (10 ^ 6) := ⟨by decide, by simp [startsNumber], by decide⟩

theorem isUnit_s : IsUnit "s".toList (10 ^ 9) := ⟨by decide, by simp [startsNumber], by decide⟩

theorem isUnit_m : IsUnit "m".toList 60000000000 :=
  ⟨by decide, by simp [startsNumber], by decide⟩

theorem isUnit_h : IsUnit "h".toList 3600000000000 :=
  ⟨by decide, by simp [startsNumber], by decide⟩

end Terms

private theorem toList_toString (n : ℕ) : (toString n).toList = Nat.toDigits 10 n := by
  rw [Nat.toString_eq_ofList_toDigits, String.toList_ofList]

/-- A number with the fraction `fmtFrac` prints, in a unit of `10 ^ prec`
nanoseconds. -/
private theorem renders_fmtFrac {unit : String} {prec : ℕ}
    (hunit : IsUnit unit.toList (10 ^ prec)) (hletters : UnitLetters unit.toList)
    (hseconds : 's' ∈ unit.toList) (n v : ℕ) :
    Renders (toString n ++ (Duration.fmtFrac v prec).1 ++ unit).toList
      (n * 10 ^ prec + v % 10 ^ prec) := by
  obtain ⟨digits, htext, hdigits, -, hvalue⟩ := fmtFrac_spec v prec
  have hlast := renders_last hunit hletters hseconds n hdigits
  rw [hvalue] at hlast
  rw [String.toList_append, String.toList_append, toList_toString, htext, List.append_assoc]
  exact hlast

private theorem renders_cons {unit text : String} {nanos others : ℕ}
    (h : Renders text.toList others) (hunit : IsUnit unit.toList nanos)
    (hletters : UnitLetters unit.toList) (n : ℕ) :
    Renders (toString n ++ unit ++ text).toList (n * nanos + others) := by
  rw [String.toList_append, String.toList_append, toList_toString, List.append_assoc]
  exact h.cons hunit hletters n

private theorem renders_whole {unit : String} {nanos : ℕ} (hunit : IsUnit unit.toList nanos)
    (hletters : UnitLetters unit.toList) (hseconds : 's' ∈ unit.toList) (n : ℕ) :
    Renders (toString n ++ unit).toList (n * nanos) := by
  have hlast : Renders (Nat.toDigits 10 n ++ (fracText [] ++ unit.toList))
      (n * nanos + Text.digitsValue [] * nanos / 10 ^ ([] : List Char).length) :=
    renders_last hunit hletters hseconds n (by simp)
  rw [String.toList_append, toList_toString]
  simpa [fracText] using hlast

/-- Every duration prints as text that is read as its magnitude, behind a sign when it
is negative, and that has nothing in it the header around it could trip over. -/
theorem string_renders (d : Duration) :
    ∃ text : String, Renders text.toList d.natAbs ∧
      d.string = if d < 0 then "-" ++ text else text := by
  refine ⟨_, ?_, rfl⟩
  have hwhole : ∀ v prec, (Duration.fmtFrac v prec).2 = v / 10 ^ prec := by
    intro v prec
    obtain ⟨-, -, -, hrest, -⟩ := fmtFrac_spec v prec
    exact hrest
  generalize d.natAbs = u
  dsimp only
  simp only [hwhole]
  -- the text in seconds and in minutes, whatever larger units stand before it
  have hseconds := renders_fmtFrac isUnit_s (by simp [UnitLetters]) (by decide) (u / 10 ^ 9 % 60) u
  have hminutes := renders_cons hseconds isUnit_m (by simp [UnitLetters]) (u / 10 ^ 9 / 60 % 60)
  split_ifs with hsmall hzero hnano hmicro hminute hhour
  · subst hzero
    exact renders_whole isUnit_s (by simp [UnitLetters]) (by decide) 0
  · have hnanos := renders_whole isUnit_ns (by simp [UnitLetters]) (by decide) u
    rwa [mul_one] at hnanos
  · have hmicros :=
      renders_fmtFrac isUnit_micros (by simp [UnitLetters]) (by decide) (u / 10 ^ 3) u
    rwa [Nat.div_add_mod'] at hmicros
  · have hmillis := renders_fmtFrac isUnit_ms (by simp [UnitLetters]) (by decide) (u / 10 ^ 6) u
    rwa [Nat.div_add_mod'] at hmillis
  · have hvalue : u / 10 ^ 9 % 60 * 10 ^ 9 + u % 10 ^ 9 = u := by omega
    rwa [hvalue] at hseconds
  · have hvalue : u / 10 ^ 9 / 60 % 60 * 60000000000 +
        (u / 10 ^ 9 % 60 * 10 ^ 9 + u % 10 ^ 9) = u := by omega
    rwa [hvalue] at hminutes
  · have hhours := renders_cons hminutes isUnit_h (by simp [UnitLetters]) (u / 10 ^ 9 / 60 / 60)
    have hvalue : u / 10 ^ 9 / 60 / 60 * 3600000000000 + (u / 10 ^ 9 / 60 % 60 * 60000000000 +
        (u / 10 ^ 9 % 60 * 10 ^ 9 + u % 10 ^ 9)) = u := by omega
    rwa [hvalue] at hhours

/-- Reading back what was printed: every duration prints as text that parses to it,
negative ones and zero included. -/
theorem parseDuration_string (d : Duration) : parseDuration d.string.toList = some d := by
  obtain ⟨text, hrenders, hstring⟩ := string_renders d
  have hparse := hrenders.parseUnsigned
  rw [hstring]
  split_ifs with hneg
  · have hdash : "-".toList = ['-'] := by decide
    rw [String.toList_append, hdash]
    change (parseUnsigned text.toList).map (fun u : ℕ => -(u : ℤ)) = _
    rw [hparse, Option.map_some, Int.ofNat_natAbs_of_nonpos (le_of_lt hneg), neg_neg]
  · obtain ⟨c, rest, hstart, hdigit⟩ := hrenders.starts
    rw [hstart] at hparse ⊢
    unfold parseDuration
    split
    · rename_i heq
      obtain ⟨rfl, -⟩ := List.cons.inj heq
      exact absurd hdigit (by decide)
    · rename_i heq
      obtain ⟨rfl, -⟩ := List.cons.inj heq
      exact absurd hdigit (by decide)
    · rw [hparse, Option.map_some, Int.natAbs_of_nonneg (not_lt.mp hneg)]

/-- Printed durations are made of digits, unit letters, points and signs. -/
theorem letters_string (d : Duration) {c : Char} (hc : c ∈ d.string.toList) :
    c.isDigit = true ∨ c ∈ ['-', '.', 'n', '\u00b5', 'm', 's', 'h'] := by
  obtain ⟨text, hrenders, hstring⟩ := string_renders d
  rw [hstring] at hc
  have htext : ∀ c ∈ text.toList, c.isDigit = true ∨
      c ∈ ['-', '.', 'n', '\u00b5', 'm', 's', 'h'] := fun c hc =>
    (hrenders.letters c hc).imp_right (List.mem_cons_of_mem _)
  split_ifs at hc
  · rw [String.toList_append, List.mem_append] at hc
    rcases hc with hc | hc
    · exact Or.inr (List.mem_cons.mpr (Or.inl (by simpa using hc)))
    · exact htext c hc
  · exact htext c hc

end SchedLm.Gateway
