import Mathlib.Computability.RegularExpressions
import Mathlib.Tactic

/-!
Regular expressions as they are written in programs: character classes, literal
words, choices of words and repetitions, over Mathlib's regular expressions, and
what each of them matches.
-/

namespace Pattern

open RegularExpression

variable {α : Type}

def oneOf (chars : List α) : RegularExpression α := (chars.map RegularExpression.char).sum

def literal (word : List α) : RegularExpression α := (word.map RegularExpression.char).prod

def anyWord (words : List (List α)) : RegularExpression α := (words.map literal).sum

def oneOrMore (p : RegularExpression α) : RegularExpression α := p * p.star

def optional (p : RegularExpression α) : RegularExpression α := p + 1

/-- Whether the pattern matches the whole text, or all of it but one last line
end: what `$` means behind a pattern that starts with `^`. -/
def matchesLine [DecidableEq α] (newline : α) (p : RegularExpression α) (text : List α) : Bool :=
  p.rmatch text || (text.getLast? == some newline && p.rmatch text.dropLast)

theorem mem_oneOf {chars : List α} {w : List α} :
    w ∈ (oneOf chars).matches' ↔ ∃ c ∈ chars, w = [c] := by
  unfold oneOf
  induction chars with
  | nil => simp [Language.notMem_zero]
  | cons c rest ih =>
    have hfirst : w ∈ ({[c]} : Language α) ↔ w = [c] := Iff.rfl
    rw [List.map_cons, List.sum_cons, matches'_add, Language.mem_add, ih, matches'_char, hfirst]
    simp

theorem mem_literal {word w : List α} : w ∈ (literal word).matches' ↔ w = word := by
  unfold literal
  induction word generalizing w with
  | nil => simp [Language.mem_one]
  | cons c rest ih =>
    rw [List.map_cons, List.prod_cons, matches'_mul, Language.mem_mul, matches'_char]
    constructor
    · rintro ⟨first, rfl, others, hothers, rfl⟩
      rw [ih.mp hothers]
      rfl
    · rintro rfl
      exact ⟨[c], rfl, rest, ih.mpr rfl, rfl⟩

theorem mem_anyWord {words : List (List α)} {w : List α} :
    w ∈ (anyWord words).matches' ↔ w ∈ words := by
  unfold anyWord
  induction words with
  | nil => simp [Language.notMem_zero]
  | cons word rest ih =>
    rw [List.map_cons, List.sum_cons, matches'_add, Language.mem_add, ih, mem_literal,
      List.mem_cons]

/-- A class, repeated: a text of its characters that is not empty. -/
theorem mem_oneOrMore_oneOf {chars : List α} {w : List α} :
    w ∈ (oneOrMore (oneOf chars)).matches' ↔ w ≠ [] ∧ ∀ c ∈ w, c ∈ chars := by
  unfold oneOrMore
  rw [matches'_mul, Language.mem_mul, matches'_star]
  constructor
  · rintro ⟨first, hfirst, others, hothers, rfl⟩
    obtain ⟨c, hc, rfl⟩ := mem_oneOf.mp hfirst
    obtain ⟨words, rfl, hwords⟩ := Language.mem_kstar.mp hothers
    refine ⟨by simp, ?_⟩
    intro d hd
    rcases List.mem_cons.mp hd with rfl | hd
    · exact hc
    · obtain ⟨word, hword, hd⟩ := List.mem_flatten.mp hd
      obtain ⟨e, he, rfl⟩ := mem_oneOf.mp (hwords word hword)
      obtain rfl := List.mem_singleton.mp hd
      exact he
  · rintro ⟨hne, hall⟩
    obtain ⟨c, rest, rfl⟩ := List.exists_cons_of_ne_nil hne
    refine ⟨[c], mem_oneOf.mpr ⟨c, hall c List.mem_cons_self, rfl⟩, rest, ?_, rfl⟩
    refine Language.mem_kstar.mpr ⟨rest.map fun d => [d], ?_, ?_⟩
    · rw [← List.flatMap_def, List.flatMap_singleton']
    · intro word hword
      obtain ⟨d, hd, rfl⟩ := List.mem_map.mp hword
      exact mem_oneOf.mpr ⟨d, hall d (List.mem_cons_of_mem c hd), rfl⟩

theorem mem_optional {p : RegularExpression α} {w : List α} :
    w ∈ (optional p).matches' ↔ w ∈ p.matches' ∨ w = [] := by
  unfold optional
  rw [matches'_add, Language.mem_add, matches'_epsilon, Language.mem_one]

theorem matchesLine_iff [DecidableEq α] {newline : α} {p : RegularExpression α} {text : List α} :
    matchesLine newline p text = true ↔
      ∃ line, line ∈ p.matches' ∧ (text = line ∨ text = line ++ [newline]) := by
  unfold matchesLine
  rw [Bool.or_eq_true, Bool.and_eq_true, rmatch_iff_matches', rmatch_iff_matches', beq_iff_eq]
  constructor
  · rintro (hwhole | ⟨hlast, hline⟩)
    · exact ⟨text, hwhole, Or.inl rfl⟩
    · refine ⟨text.dropLast, hline, Or.inr ?_⟩
      exact (List.dropLast_append_getLast? newline hlast).symm
  · rintro ⟨line, hline, rfl | rfl⟩
    · exact Or.inl hline
    · exact Or.inr (by simpa using hline)

end Pattern
