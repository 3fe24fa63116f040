import SchedLm.Gateway.DurationText
import SchedLm.Library.Decimal
import SchedLm.Library.Pattern

/-!
The priority header that the command line builds, and what its check of the
lease lets through. The check is a regular expression; what is to be accepted
are the durations of Go.
-/

namespace SchedLm.Bench

open Pattern Gateway

def units : List (List Char) :=
  [['n', 's'], ['u', 's'], ['\u00b5', 's'], ['m', 's'], ['s'], ['m'], ['h']]

def numberChars : List Char := ['0', '1', '2', '3', '4', '5', '6', '7', '8', '9', '.']

/-- `\d+(\.\d+)?` and a unit. -/
def firstTermRe : RegularExpression Char :=
  oneOrMore (oneOf Decimal.digits) *
    optional (literal ['.'] * oneOrMore (oneOf Decimal.digits)) * anyWord units

/-- `[0-9.]+` and a unit. -/
def laterTermRe : RegularExpression Char := oneOrMore (oneOf numberChars) * anyWord units

def goDurationRe : RegularExpression Char := firstTermRe * laterTermRe.star

/-- `click.UsageError`, by what it says. -/
inductive UsageError where
  | requirePriority
  | notDuration (ttl : String)
  deriving DecidableEq, Repr

/-- An option that is there and not the empty string. -/
def given (option : Option String) : Option String := option.filter (· ≠ "")

def kvPriorityHeader (priority : Option ℤ) (ttl scope : Option String) :
    Except UsageError (Option String) := do
  match priority with
  | none =>
    if (given ttl).isSome ∨ (given scope).isSome then throw .requirePriority
    return none
  | some priority =>
    match given ttl with
    | none => pure ()
    | some ttl =>
      if ¬matchesLine '\n' goDurationRe ttl.toList then throw (.notDuration ttl)
    let value := toString priority
    let value := match given ttl with
      | none => value
      | some ttl => value ++ s!"; ttl={ttl}"
    let value := match given scope with
      | none => value
      | some scope => value ++ s!"; scope={scope}"
    return some value

example : kvPriorityHeader (some 50) (some "3s") (some "a") =
    .ok (some "50; ttl=3s; scope=a") := by
  decide +kernel

/-- A decimal number of ASCII digits, with at most one point and some digit. -/
def goNumber : Language Char :=
  {number | (∀ c ∈ number, startsNumber c = true) ∧ (∃ c ∈ number, c.isDigit = true) ∧
    number.count '.' ≤ 1}

def goUnit : Language Char := {unit | unit ∈ units}

def goTerm : Language Char := goNumber * goUnit

def goDuration : Language Char := goTerm * KStar.kstar goTerm

/-- The maximal runs of ASCII digits and points in a text. -/
def runs (text : List Char) : List (List Char) :=
  (text.splitOnP fun c => !startsNumber c).filter fun run => !run.isEmpty

/-- No line end, no digits of other scripts, and in every run of digits and
points a digit and at most one point. -/
structure Plain (text : List Char) : Prop where
  noNewline : '\n' ∉ text
  ascii : ∀ c ∈ text, c ∈ Decimal.digits → c.isDigit = true
  numbers : ∀ run ∈ runs text, (∃ c ∈ run, c.isDigit = true) ∧ run.count '.' ≤ 1

/-- What the check takes for a number: decimal digits of any script, and points. -/
def looseNumber : Language Char :=
  {number | number ≠ [] ∧ ∀ c ∈ number, c ∈ Decimal.digits ∨ c = '.'}

theorem mem_mul_kstar {terms : Language Char} {text : List Char} :
    text ∈ terms * KStar.kstar terms ↔
      ∃ list : List (List Char), list ≠ [] ∧ text = list.flatten ∧ ∀ term ∈ list, term ∈ terms := by
  rw [Language.mem_mul]
  constructor
  · rintro ⟨first, hfirst, others, hothers, rfl⟩
    obtain ⟨rest, rfl, hrest⟩ := Language.mem_kstar.mp hothers
    exact ⟨first :: rest, by simp, rfl, List.forall_mem_cons.mpr ⟨hfirst, hrest⟩⟩
  · rintro ⟨list, hne, rfl, hall⟩
    obtain ⟨first, rest, rfl⟩ := List.exists_cons_of_ne_nil hne
    obtain ⟨hfirst, hrest⟩ := List.forall_mem_cons.mp hall
    exact ⟨first, hfirst, rest.flatten, Language.join_mem_kstar hrest, rfl⟩

theorem looseNumber_of_digits {number : List Char}
    (h : number ∈ (oneOrMore (oneOf Decimal.digits)).matches') : number ∈ looseNumber := by
  obtain ⟨hne, hall⟩ := mem_oneOrMore_oneOf.mp h
  exact ⟨hne, fun c hc => Or.inl (hall c hc)⟩

theorem looseTerm_of_firstTermRe {term : List Char} (hterm : term ∈ firstTermRe.matches') :
    term ∈ looseNumber * goUnit := by
  unfold firstTermRe at hterm
  rw [RegularExpression.matches'_mul, RegularExpression.matches'_mul] at hterm
  obtain ⟨number, hnumber, unit, hunit, rfl⟩ := Language.mem_mul.mp hterm
  obtain ⟨whole, hwhole, fraction, hfraction, rfl⟩ := Language.mem_mul.mp hnumber
  refine Language.append_mem_mul ?_ (mem_anyWord.mp hunit)
  obtain ⟨hne, hall⟩ := looseNumber_of_digits hwhole
  refine ⟨List.append_ne_nil_of_left_ne_nil hne _, fun c hc => ?_⟩
  rcases List.mem_append.mp hc with hc | hc
  · exact hall c hc
  · rcases mem_optional.mp hfraction with hsome | rfl
    · rw [RegularExpression.matches'_mul] at hsome
      obtain ⟨point, hpoint, digits, hdigits, rfl⟩ := Language.mem_mul.mp hsome
      obtain rfl := mem_literal.mp hpoint
      rcases List.mem_cons.mp hc with rfl | hc
      · exact Or.inr rfl
      · exact (looseNumber_of_digits hdigits).2 c hc
    · cases hc

theorem looseTerm_of_laterTermRe {term : List Char} (hterm : term ∈ laterTermRe.matches') :
    term ∈ looseNumber * goUnit := by
  unfold laterTermRe at hterm
  rw [RegularExpression.matches'_mul] at hterm
  obtain ⟨number, hnumber, unit, hunit, rfl⟩ := Language.mem_mul.mp hterm
  obtain ⟨hne, hall⟩ := mem_oneOrMore_oneOf.mp hnumber
  refine Language.append_mem_mul ⟨hne, fun c hc => ?_⟩ (mem_anyWord.mp hunit)
  have hclass : (numberChars.all fun c =>
      (∃ start ∈ Decimal.zeros, start ≤ c.toNat ∧ c.toNat < start + 10) ∨ c = '.') = true := by
    decide
  rw [Decimal.mem_digits_iff]
  exact of_decide_eq_true (List.all_eq_true.mp hclass c (hall c hc))

theorem exists_isUnit {unit : List Char} (hunit : unit ∈ units) : ∃ nanos, IsUnit unit nanos := by
  fin_cases hunit
  · exact ⟨_, isUnit_ns⟩
  · exact ⟨1000, by decide, by simp [startsNumber], by decide⟩
  · exact ⟨_, isUnit_micros⟩
  · exact ⟨_, isUnit_ms⟩
  · exact ⟨_, isUnit_s⟩
  · exact ⟨_, isUnit_m⟩
  · exact ⟨_, isUnit_h⟩

theorem goNumber_cases {number : List Char} (h : number ∈ goNumber) :
    ∃ whole, (∀ c ∈ whole, c.isDigit = true) ∧ ((whole ≠ [] ∧ number = whole) ∨
      ∃ digits, (∀ c ∈ digits, c.isDigit = true) ∧ (whole ≠ [] ∨ digits ≠ []) ∧
        number = whole ++ '.' :: digits) := by
  obtain ⟨hall, ⟨d, hd, hdigit⟩, hpoint⟩ := h
  have hnopoint : ∀ part : List Char, part ⊆ number → '.' ∉ part →
      ∀ c ∈ part, c.isDigit = true := by
    intro part hpart hnone c hc
    rcases Bool.or_eq_true_iff.mp (hall c (hpart hc)) with hpoint | hdigit
    · rw [beq_iff_eq.mp hpoint] at hc
      exact absurd hc hnone
    · exact hdigit
  by_cases hmem : '.' ∈ number
  · obtain ⟨whole, digits, rfl, hwhole⟩ := List.eq_append_cons_of_mem hmem
    have hdigits : '.' ∉ digits := by
      rw [List.count_append, List.count_cons_self, List.count_eq_zero_of_not_mem hwhole] at hpoint
      exact List.count_eq_zero.mp (by omega)
    have hwhole_digits := hnopoint whole (List.subset_append_left _ _) hwhole
    refine ⟨whole, hwhole_digits, Or.inr ⟨digits, ?_, ?_, rfl⟩⟩
    · exact hnopoint digits (fun c hc => by simp [hc]) hdigits
    · rcases List.mem_append.mp hd with hin | hin
      · exact Or.inl (List.ne_nil_of_mem hin)
      · rcases List.mem_cons.mp hin with rfl | hin
        · exact absurd hdigit (by decide)
        · exact Or.inr (List.ne_nil_of_mem hin)
  · refine ⟨number, hnopoint number (List.Subset.refl _) hmem, Or.inl ⟨?_, rfl⟩⟩
    exact List.ne_nil_of_mem hd

theorem exists_durationTerm {number unit : List Char} (hnumber : number ∈ goNumber)
    (hunit : unit ∈ units) {rest : List Char} (hrest : NextNumber rest) :
    ∃ nanos, durationTerm (number ++ unit ++ rest) = some (nanos, rest) := by
  obtain ⟨nanos, hunit⟩ := exists_isUnit hunit
  obtain ⟨htake, hdrop⟩ := hunit.span hrest
  obtain ⟨letter, letters, rfl⟩ := List.exists_cons_of_ne_nil hunit.ne_nil
  have hletter : startsNumber letter = false := hunit.letters letter List.mem_cons_self
  have hnodigit : letter.isDigit = false := isDigit_of_letter hletter
  obtain ⟨whole, hwhole, ⟨hne, rfl⟩ | ⟨digits, hdigits, hsome, rfl⟩⟩ := goNumber_cases hnumber
  · have hfraction : fraction (letter :: (letters ++ rest)) = ([], letter :: (letters ++ rest)) :=
      fraction_append (List.forall_mem_nil _) hletter (letters ++ rest)
    unfold durationTerm
    rw [List.append_assoc, List.cons_append, Text.takeWhile_isDigit hwhole hnodigit,
      Text.dropWhile_isDigit hwhole hnodigit, hfraction]
    dsimp only
    rw [if_neg fun h => hne h.1, ← List.cons_append, htake, hdrop, hunit.nanos]
    exact ⟨_, rfl⟩
  · have hfraction : fraction ('.' :: (digits ++ letter :: (letters ++ rest))) =
        (digits, letter :: (letters ++ rest)) := by
      change (_, _) = _
      rw [Text.takeWhile_isDigit hdigits hnodigit, Text.dropWhile_isDigit hdigits hnodigit]
    unfold durationTerm
    rw [List.append_assoc, List.append_assoc, List.cons_append, List.cons_append,
      Text.takeWhile_isDigit hwhole (by decide), Text.dropWhile_isDigit hwhole (by decide),
      hfraction]
    dsimp only
    rw [if_neg fun h => hsome.elim (fun hne => hne h.1) fun hne => hne h.2, ← List.cons_append,
      htake, hdrop, hunit.nanos]
    exact ⟨_, rfl⟩

theorem nextNumber_flatten {terms : List (List Char)} (hterms : ∀ term ∈ terms, term ∈ goTerm) :
    NextNumber terms.flatten := by
  intro c hc
  cases terms with
  | nil => cases hc
  | cons term rest =>
    obtain ⟨number, ⟨hall, ⟨d, hd, -⟩, -⟩, unit, -, rfl⟩ :=
      Language.mem_mul.mp (hterms term List.mem_cons_self)
    obtain ⟨first, others, rfl⟩ := List.exists_cons_of_ne_nil (List.ne_nil_of_mem hd)
    obtain rfl : first = c := Option.some.inj hc
    exact hall first List.mem_cons_self

/-- Terms are read one after the other. The induction is on the terms; each takes
at least one character off what is left to read. -/
theorem exists_durationTerms {terms : List (List Char)} (hterms : ∀ term ∈ terms, term ∈ goTerm)
    {fuel : ℕ} (hfuel : terms.flatten.length ≤ fuel) :
    ∃ nanos, durationTerms fuel terms.flatten = some nanos := by
  induction terms generalizing fuel with
  | nil => cases fuel <;> exact ⟨0, rfl⟩
  | cons term rest ih =>
    obtain ⟨hterm, hrest⟩ := List.forall_mem_cons.mp hterms
    obtain ⟨number, hnumber, unit, hunit, rfl⟩ := Language.mem_mul.mp hterm
    obtain ⟨nanos, hfirst⟩ := exists_durationTerm hnumber hunit (nextNumber_flatten hrest)
    obtain ⟨-, ⟨d, hd, -⟩, -⟩ := hnumber
    have hpos := List.length_pos_of_mem hd
    simp only [List.flatten_cons, List.length_append] at hfuel
    obtain ⟨less, rfl⟩ : ∃ less, fuel = less + 1 := ⟨fuel - 1, by omega⟩
    have hless : rest.flatten.length ≤ less := by omega
    obtain ⟨others, hothers⟩ := ih hrest hless
    refine ⟨nanos + others, durationTerms_of_term ?_ hfirst hothers⟩
    exact List.append_ne_nil_of_left_ne_nil
      (List.append_ne_nil_of_left_ne_nil (List.ne_nil_of_mem hd) _) _

theorem parseDuration_of_mem_goDuration {text : List Char} (h : text ∈ goDuration) :
    ∃ d, parseDuration text = some d := by
  obtain ⟨terms, hne, rfl, hterms⟩ := mem_mul_kstar.mp h
  have hunsigned : ∃ nanos, parseUnsigned terms.flatten = some nanos := by
    unfold parseUnsigned
    split_ifs with hzero hnil
    · exact ⟨0, rfl⟩
    · obtain ⟨term, rest, rfl⟩ := List.exists_cons_of_ne_nil hne
      obtain ⟨number, ⟨-, ⟨d, hd, -⟩, -⟩, unit, -, rfl⟩ :=
        Language.mem_mul.mp (hterms term List.mem_cons_self)
      have hmem : d ∈ ((number ++ unit) :: rest).flatten := by simp [hd]
      exact absurd hnil (List.ne_nil_of_mem hmem)
    · exact exists_durationTerms hterms le_rfl
  obtain ⟨nanos, hnanos⟩ := hunsigned
  have hfirst := nextNumber_flatten hterms
  -- what starts with a digit or a point has no sign
  unfold parseDuration
  split
  · rename_i heq
    rw [heq] at hfirst
    exact absurd (hfirst '-' rfl) (by decide)
  · rename_i heq
    rw [heq] at hfirst
    exact absurd (hfirst '+' rfl) (by decide)
  · rw [hnanos]
    exact ⟨_, rfl⟩

/-- A header is returned when there is a priority, and the ttl passes the check
if there is one. -/
theorem exists_header_iff (priority : Option ℤ) (ttl scope : Option String) :
    (∃ header, kvPriorityHeader priority ttl scope = .ok (some header)) ↔
      priority ≠ none ∧ ∀ text, given ttl = some text →
        matchesLine '\n' goDurationRe text.toList = true := by
  unfold kvPriorityHeader
  cases priority with
  | none =>
    dsimp only
    split_ifs
    · exact iff_of_false (fun ⟨_, h⟩ => by cases h) fun h => h.1 rfl
    · exact iff_of_false (fun ⟨_, h⟩ => by cases h) fun h => h.1 rfl
  | some priority =>
    cases hgiven : given ttl with
    | none => exact iff_of_true ⟨_, rfl⟩ ⟨by simp, by simp⟩
    | some text =>
      dsimp only
      split_ifs with hmatch
      · refine iff_of_true ⟨_, rfl⟩ ⟨by simp, ?_⟩
        rintro _ ⟨⟩
        exact hmatch
      · exact iff_of_false (fun ⟨_, h⟩ => by cases h) fun h => hmatch (h.2 text rfl)

end SchedLm.Bench
