import Mathlib.Data.List.DropRight
import Mathlib.Tactic

/-!
Text as lists of characters: trimming, cutting at a separator, and decimal
numerals in front of other text.
-/

namespace Text

def trim (space : Char → Bool) (s : List Char) : List Char :=
  (s.dropWhile space).rdropWhile space

/-- The text before the first separator, and the text after it if there is one. -/
def cut (sep : Char) : List Char → List Char × Option (List Char)
  | [] => ([], none)
  | c :: rest =>
    if c = sep then ([], some rest)
    else
      let (before, after) := cut sep rest
      (c :: before, after)

def digitsValue (digits : List Char) : ℕ := Nat.ofDigitChars 10 digits 0

section Trim

variable {space : Char → Bool}

theorem trim_cons_space {c : Char} (hc : space c = true) (s : List Char) :
    trim space (c :: s) = trim space s := by
  unfold trim
  rw [List.dropWhile_cons_of_pos hc]

theorem trim_cons {c : Char} (hc : space c = false) (s : List Char) :
    trim space (c :: s) = (c :: s).rdropWhile space := by
  unfold trim
  rw [List.dropWhile_cons_of_neg (by simp [hc])]

theorem mem_of_mem_trim {s : List Char} {c : Char} (hc : c ∈ trim space s) : c ∈ s :=
  (List.dropWhile_sublist space).subset ((List.rdropWhile_prefix space _).subset hc)

/-- Nothing is trimmed off behind a character that is no space. -/
theorem rdropWhile_append_singleton_append {c : Char} (hc : space c = false)
    (before after : List Char) :
    (before ++ c :: after).rdropWhile space = before ++ c :: after.rdropWhile space := by
  induction after using List.reverseRecOn with
  | nil =>
    rw [List.rdropWhile_nil]
    exact List.rdropWhile_concat_neg _ _ _ (by simp [hc])
  | append_singleton after last ih =>
    rw [← List.cons_append, ← List.append_assoc, List.rdropWhile_concat, List.rdropWhile_concat]
    split_ifs
    · exact ih
    · simp

end Trim

section Cut

variable {sep : Char}

theorem cut_append {before : List Char} (hbefore : sep ∉ before) (after : List Char) :
    cut sep (before ++ sep :: after) = (before, some after) := by
  induction before with
  | nil => simp [cut]
  | cons c rest ih =>
    rw [List.mem_cons, not_or] at hbefore
    rw [List.cons_append, cut, if_neg (Ne.symm hbefore.1), ih hbefore.2]

theorem cut_of_notMem {s : List Char} (hs : sep ∉ s) : cut sep s = (s, none) := by
  induction s with
  | nil => rfl
  | cons c rest ih =>
    rw [List.mem_cons, not_or] at hs
    rw [cut, if_neg (Ne.symm hs.1), ih hs.2]

theorem splitOn_eq_cut (sep : Char) (s : List Char) :
    ∃ fields, s.splitOn sep = (cut sep s).1 :: fields := by
  by_cases hsep : sep ∈ s
  · obtain ⟨before, after, rfl, hbefore⟩ := List.eq_append_cons_of_mem hsep
    rw [cut_append hbefore, List.splitOn_append_cons_self_of_not_mem hbefore]
    exact ⟨_, rfl⟩
  · rw [cut_of_notMem hsep, List.splitOn_eq_singleton hsep]
    exact ⟨[], rfl⟩

theorem notMem_of_mem_splitOn {s field : List Char} (h : field ∈ s.splitOn sep) :
    sep ∉ field := by
  induction s generalizing field with
  | nil =>
    rw [List.splitOn_nil, List.mem_singleton] at h
    rw [h]
    exact List.not_mem_nil
  | cons c rest ih =>
    rw [List.splitOn_cons_eq_if_modifyHead] at h
    split_ifs at h with hc
    · rcases List.mem_cons.mp h with rfl | h
      · exact List.not_mem_nil
      · exact ih h
    · cases hrest : rest.splitOn sep with
      | nil => exact absurd hrest (List.splitOn_ne_nil sep rest)
      | cons first others =>
        rw [hrest] at h
        rcases List.mem_cons.mp h with rfl | h
        · rw [List.mem_cons, not_or]
          exact ⟨fun heq => hc (by simp [heq]), ih (by simp [hrest])⟩
        · exact ih (by simp [hrest, h])

theorem mem_of_mem_cut {s before after : List Char} (h : cut sep s = (before, some after))
    {c : Char} (hc : c ∈ after) : c ∈ s := by
  induction s generalizing before with
  | nil => cases h
  | cons first rest ih =>
    rw [cut] at h
    split_ifs at h with hsep
    · obtain ⟨-, hafter⟩ := Prod.mk.inj h
      obtain rfl : rest = after := Option.some.inj hafter
      exact List.mem_cons_of_mem first hc
    · obtain ⟨-, hafter⟩ := Prod.mk.inj h
      exact List.mem_cons_of_mem first (ih (Prod.ext rfl hafter))

end Cut

section Digits

theorem isDigit_of_mem_toDigits {n : ℕ} {c : Char} (hc : c ∈ Nat.toDigits 10 n) :
    c.isDigit = true :=
  Nat.isDigit_of_mem_toDigits (by decide) (by decide) hc

@[simp] theorem digitsValue_nil : digitsValue [] = 0 := rfl

theorem digitsValue_toDigits (n : ℕ) : digitsValue (Nat.toDigits 10 n) = n :=
  Nat.ofDigitChars_ten_toDigits

theorem digitsValue_cons_digitChar {digit : ℕ} (hdigit : digit < 10) (rest : List Char) :
    digitsValue (digit.digitChar :: rest) = digit * 10 ^ rest.length + digitsValue rest := by
  unfold digitsValue
  rw [Nat.ofDigitChars_cons_digitChar_of_lt_ten hdigit, Nat.ofDigitChars_eq_ofDigitChars_zero]
  ring

theorem takeWhile_isDigit {digits : List Char} (hdigits : ∀ c ∈ digits, c.isDigit = true)
    {c : Char} (hc : c.isDigit = false) (rest : List Char) :
    (digits ++ c :: rest).takeWhile Char.isDigit = digits := by
  rw [List.takeWhile_append_of_pos hdigits, List.takeWhile_cons_of_neg (by simp [hc]),
    List.append_nil]

theorem dropWhile_isDigit {digits : List Char} (hdigits : ∀ c ∈ digits, c.isDigit = true)
    {c : Char} (hc : c.isDigit = false) (rest : List Char) :
    (digits ++ c :: rest).dropWhile Char.isDigit = c :: rest := by
  rw [List.dropWhile_append_of_pos hdigits, List.dropWhile_cons_of_neg (by simp [hc])]

end Digits

end Text
