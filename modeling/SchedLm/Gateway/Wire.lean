import SchedLm.Gateway.DurationText
import SchedLm.Gateway.PreRequest

/-!
The header a directive travels in. The backend reads flat fields separated by
semicolons and trimmed: the priority first, then `key=value` attributes. The
plugin itself reads the leading priority only.
-/

namespace SchedLm.Gateway

/-- `unicode.IsSpace`. -/
def isSpace (c : Char) : Bool :=
  let code := c.toNat
  (9 ≤ code ∧ code ≤ 13) ∨ code = 0x20 ∨ code = 0x85 ∨ code = 0xa0 ∨ code = 0x1680 ∨
    (0x2000 ≤ code ∧ code ≤ 0x200a) ∨ code = 0x2028 ∨ code = 0x2029 ∨ code = 0x202f ∨
    code = 0x205f ∨ code = 0x3000

def trimSpace (s : List Char) : List Char := Text.trim isSpace s

/-- The digits of a numeral behind its sign, and whether the sign is a minus. -/
def splitSign : List Char → Bool × List Char
  | '-' :: digits => (true, digits)
  | '+' :: digits => (false, digits)
  | digits => (false, digits)

/-- `strconv.Atoi`: decimal digits with an optional sign, within 64 bits. -/
def atoi (s : List Char) : Option ℤ :=
  let (negative, digits) := splitSign s
  if digits = [] ∨ ¬ digits.all Char.isDigit then none
  else
    let magnitude : ℤ := Text.digitsValue digits
    let value := if negative then -magnitude else magnitude
    if -2 ^ 63 ≤ value ∧ value < 2 ^ 63 then some value else none

def leadingPriority (value : String) : Option ℤ :=
  atoi (trimSpace (Text.cut ';' value.toList).1)

def priorityOf (directive : String) : ℤ := (leadingPriority directive).getD 0

def parseAttribute (field : List Char) : Option (List Char × List Char) :=
  match Text.cut '=' (trimSpace field) with
  | (key, some value) => some (key, value)
  | (_, none) => none

/-- A header value as the documented grammar reads it: the priority, and the
attributes in order. -/
def parseFields (value : String) : Option (ℤ × List (List Char × List Char)) :=
  match value.toList.splitOn ';' with
  | [] => none
  | head :: fields => do
    let priority ← atoi (trimSpace head)
    let attributes ← fields.mapM parseAttribute
    return (priority, attributes)

def valuesOf (key : String) (attributes : List (List Char × List Char)) : List (List Char) :=
  (attributes.filter fun a => a.1 = key.toList).map Prod.snd

example : parseFields "50; ttl=3s; scope=sess1" =
    some (50, [("ttl".toList, "3s".toList), ("scope".toList, "sess1".toList)]) := by
  decide +kernel

theorem letter_of_mem_string {d : Duration} {c : Char} (hc : c ∈ d.string.toList) :
    isSpace c = false ∧ c ≠ ';' := by
  rcases letters_string d hc with hdigit | hletter
  · have hrange : 48 ≤ c.toNat ∧ c.toNat ≤ 57 := Char.isDigit_iff_toNat.mp hdigit
    constructor
    · unfold isSpace
      simp only [decide_eq_false_iff_not]
      omega
    · rintro rfl
      exact absurd hrange.2 (by decide)
  · fin_cases hletter <;> decide

/-- A field behind its separator and a space; only its end can be trimmed. -/
theorem parseAttribute_append {first : Char} (hfirst : isSpace first = false)
    {key : List Char} (hkey : '=' ∉ first :: key) (value : List Char) :
    parseAttribute (' ' :: (first :: key ++ '=' :: value)) =
      some (first :: key, value.rdropWhile isSpace) := by
  have htrim : trimSpace (' ' :: (first :: key ++ '=' :: value)) =
      first :: key ++ '=' :: value.rdropWhile isSpace := by
    unfold trimSpace
    rw [Text.trim_cons_space (by decide), List.cons_append, Text.trim_cons hfirst,
      ← List.cons_append, Text.rdropWhile_append_singleton_append (by decide)]
  unfold parseAttribute
  rw [htrim, Text.cut_append hkey]

theorem rdropWhile_isSpace_string (d : Duration) :
    d.string.toList.rdropWhile isSpace = d.string.toList := by
  rw [List.rdropWhile_eq_self_iff]
  intro hne
  simp [(letter_of_mem_string (List.getLast_mem hne)).1]

/-- The text of a lease: the priority, the time to live, and the scope if there
is one. -/
theorem text_lease (ttl : Duration) (scope : String) :
    (Directive.lease ttl scope).text.toList = ['5', '0'] ++ ';' ::
      (" ttl=".toList ++ ttl.string.toList ++
        if scope = "" then [] else ';' :: (" scope=".toList ++ scope.toList)) := by
  have hfifty : (toString highPriority).toList = ['5', '0'] := by decide
  unfold Directive.text
  dsimp only
  by_cases hscope : scope = ""
  · rw [if_neg (by simp [hscope]), if_pos hscope]
    simp only [String.toList_append, hfifty]
    simp
  · rw [if_pos hscope, if_neg hscope]
    simp only [String.toList_append, hfifty]
    simp

private theorem atoi_fifty : atoi (trimSpace ['5', '0']) = some highPriority := by decide

private theorem ttlField_noSeparator (ttl : Duration) :
    ';' ∉ " ttl=".toList ++ ttl.string.toList := by
  rw [List.mem_append, not_or]
  exact ⟨by decide, fun hc => (letter_of_mem_string hc).2 rfl⟩

private theorem parseAttribute_ttl (ttl : Duration) :
    parseAttribute (" ttl=".toList ++ ttl.string.toList) =
      some ("ttl".toList, ttl.string.toList) := by
  have h := parseAttribute_append (by decide : isSpace 't' = false)
    (by decide : '=' ∉ ['t', 't', 'l']) ttl.string.toList
  rw [rdropWhile_isSpace_string] at h
  exact h

/-- The header of a lease with a scope: the priority and the time to live come
first, and the fields the scope makes come after them. -/
theorem parseFields_lease (ttl : Duration) {scope : String} (hscope : scope ≠ "") :
    parseFields (Directive.lease ttl scope).text =
      (((" scope=".toList ++ scope.toList).splitOn ';').mapM parseAttribute).map fun scopes =>
        (highPriority, ("ttl".toList, ttl.string.toList) :: scopes) := by
  unfold parseFields
  rw [text_lease, if_neg hscope, List.splitOn_append_cons_self_of_not_mem (by decide),
    List.splitOn_append_cons_self_of_not_mem (ttlField_noSeparator ttl)]
  dsimp only
  rw [atoi_fifty, List.mapM_cons, parseAttribute_ttl]
  cases ((" scope=".toList ++ scope.toList).splitOn ';').mapM parseAttribute <;> rfl

theorem parseFields_lease_unscoped (ttl : Duration) :
    parseFields (Directive.lease ttl "").text =
      some (highPriority, [("ttl".toList, ttl.string.toList)]) := by
  unfold parseFields
  rw [text_lease, if_pos rfl, List.append_nil,
    List.splitOn_append_cons_self_of_not_mem (by decide),
    List.splitOn_eq_singleton (ttlField_noSeparator ttl)]
  dsimp only
  rw [atoi_fifty, List.mapM_cons, parseAttribute_ttl]
  rfl

theorem leadingPriority_text (d : Directive) : leadingPriority d.text = some d.priority := by
  cases d with
  | evictFirst => decide +kernel
  | lease ttl scope =>
    unfold leadingPriority
    rw [text_lease, Text.cut_append (by decide), atoi_fifty]
    rfl

theorem priorityOf_text (d : Directive) : priorityOf d.text = d.priority := by
  rw [priorityOf, leadingPriority_text]
  rfl

theorem leadingPriority_of_parseFields {value : String} {priority : ℤ}
    {attributes : List (List Char × List Char)}
    (h : parseFields value = some (priority, attributes)) :
    leadingPriority value = some priority := by
  obtain ⟨fields, hsplit⟩ := Text.splitOn_eq_cut ';' value.toList
  unfold parseFields at h
  simp only [hsplit, Option.bind_eq_bind, Option.bind_eq_some_iff] at h
  obtain ⟨found, hfound, _, -, h⟩ := h
  obtain ⟨rfl, -⟩ := Prod.mk.inj (Option.some.inj h)
  exact hfound

end SchedLm.Gateway
