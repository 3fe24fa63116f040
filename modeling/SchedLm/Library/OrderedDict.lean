import Mathlib.Data.List.AList
import Mathlib.Tactic

/-!
Dictionaries with unique keys, in two readings of Mathlib's `AList`. A `Dict`
is read through `lookup` only. An `OrderedDict` is also read front to back:
assigning to a present key keeps its place, assigning to an absent key appends
it, and `popFirst` drops the oldest entry.
-/

abbrev Dict (α β : Type) := AList fun _ : α => β

abbrev OrderedDict (α β : Type) := AList fun _ : α => β

namespace OrderedDict

variable {α β : Type} [DecidableEq α]

def pushEnd (d : OrderedDict α β) (key : α) (value : β) : OrderedDict α β :=
  ⟨d.entries.kerase key ++ [⟨key, value⟩], by
    rw [List.NodupKeys, List.keys_append, List.nodup_append]
    refine ⟨d.nodupKeys.kerase key, by simp, ?_⟩
    intro a ha b hb hab
    simp only [List.keys_cons, List.keys_nil, List.mem_singleton] at hb
    subst hab hb
    exact List.notMem_keys_kerase _ d.nodupKeys ha⟩

/-- `d[key] = value`. -/
def setItem (d : OrderedDict α β) (key : α) (value : β) : OrderedDict α β :=
  if key ∈ d then d.replace key value else d.pushEnd key value

def moveToEnd (d : OrderedDict α β) (key : α) : OrderedDict α β :=
  match d.lookup key with
  | some value => d.pushEnd key value
  | none => d

def popFirst (d : OrderedDict α β) : OrderedDict α β :=
  ⟨d.entries.tail, d.nodupKeys.sublist (List.tail_sublist _)⟩

def len (d : OrderedDict α β) : ℕ := d.keys.length

def dropOldest {γ : Type} (capacity : ℕ) : List γ → List γ
  | [] => []
  | entry :: rest =>
    if capacity < (entry :: rest).length then dropOldest capacity rest else entry :: rest

theorem dropOldest_eq_drop {γ : Type} (capacity : ℕ) (entries : List γ) :
    dropOldest capacity entries = entries.drop (entries.length - capacity) := by
  induction entries with
  | nil => simp [dropOldest]
  | cons entry rest ih =>
    unfold dropOldest
    split_ifs with h
    · have hlen : (entry :: rest).length - capacity = rest.length - capacity + 1 := by
        simp only [List.length_cons] at h ⊢
        omega
      rw [ih, hlen, List.drop_succ_cons]
    · rw [Nat.sub_eq_zero_of_le (by omega), List.drop_zero]

def popWhileOver (d : OrderedDict α β) (capacity : ℕ) : OrderedDict α β :=
  ⟨dropOldest capacity d.entries, d.nodupKeys.sublist (by
    rw [dropOldest_eq_drop]
    exact List.drop_sublist _ _)⟩

@[simp] theorem keys_pushEnd (d : OrderedDict α β) (key : α) (value : β) :
    (d.pushEnd key value).keys = d.keys.erase key ++ [key] := by
  simp [pushEnd, AList.keys, List.keys_append, List.keys_kerase]

theorem mem_pushEnd {d : OrderedDict α β} {key other : α} {value : β} :
    other ∈ d.pushEnd key value ↔ other = key ∨ other ∈ d := by
  rw [AList.mem_keys, keys_pushEnd, List.mem_append, List.mem_singleton,
    d.keys_nodup.mem_erase_iff, AList.mem_keys]
  tauto

@[simp] theorem lookup_pushEnd (d : OrderedDict α β) (key : α) (value : β) :
    (d.pushEnd key value).lookup key = some value := by
  simp [pushEnd, AList.lookup, List.dlookup_append,
    List.dlookup_kerase _ d.nodupKeys]

theorem lookup_pushEnd_ne {d : OrderedDict α β} {key other : α} {value : β}
    (h : other ≠ key) : (d.pushEnd key value).lookup other = d.lookup other := by
  simp [pushEnd, AList.lookup, List.dlookup_append, List.dlookup_kerase_ne h,
    List.dlookup_cons_ne ([] : List (Sigma fun _ : α => β)) ⟨key, value⟩ h]

/-- Popping a key and assigning it again puts it at the newest end. -/
@[simp] theorem setItem_erase (d : OrderedDict α β) (key : α) (value : β) :
    setItem (d.erase key) key value = d.pushEnd key value := by
  have habsent : key ∉ d.erase key := by simp [AList.mem_erase]
  rw [setItem, if_neg habsent]
  apply AList.ext
  change (d.entries.kerase key).kerase key ++ _ = d.entries.kerase key ++ _
  rw [List.kerase_of_notMem_keys (List.notMem_keys_kerase key d.nodupKeys)]

theorem pushEnd_pushEnd (d : OrderedDict α β) (key : α) (first second : β) :
    (d.pushEnd key first).pushEnd key second = d.pushEnd key second := by
  apply AList.ext
  simp [pushEnd, List.kerase_append_right
    (List.notMem_keys_kerase key d.nodupKeys)]

theorem kreplace_cons (key : α) (value : β) (entry : Sigma fun _ : α => β)
    (rest : List (Sigma fun _ : α => β)) :
    (entry :: rest).kreplace key value =
      if key = entry.1 then ⟨key, value⟩ :: rest
      else entry :: rest.kreplace key value := by
  split_ifs with h
  · exact List.lookmap_cons_some _ rest (by simp [h])
  · exact List.lookmap_cons_none _ rest (by simp [h])

private theorem kerase_kreplace (key : α) (value : β)
    (entries : List (Sigma fun _ : α => β)) :
    (entries.kreplace key value).kerase key = entries.kerase key := by
  induction entries with
  | nil => rfl
  | cons entry rest ih =>
    rw [kreplace_cons]
    split_ifs with h
    · simp [List.kerase_cons_eq, h]
    · rw [List.kerase_cons_ne h, List.kerase_cons_ne h, ih]

private theorem dlookup_kreplace (key : α) (value : β)
    (entries : List (Sigma fun _ : α => β)) (hmem : key ∈ entries.keys) :
    (entries.kreplace key value).dlookup key = some value := by
  induction entries with
  | nil => simp at hmem
  | cons entry rest ih =>
    rw [kreplace_cons]
    split_ifs with h
    · exact List.dlookup_cons_eq rest key value
    · rw [List.dlookup_cons_ne (rest.kreplace key value) entry h]
      exact ih (by simpa [h] using hmem)

private theorem dlookup_kreplace_ne (key : α) (value : β) {other : α} (hne : other ≠ key)
    (entries : List (Sigma fun _ : α => β)) :
    (entries.kreplace key value).dlookup other = entries.dlookup other := by
  induction entries with
  | nil => rfl
  | cons entry rest ih =>
    rw [kreplace_cons]
    split_ifs with h
    · subst h
      rw [List.dlookup_cons_ne rest ⟨entry.1, value⟩ hne, List.dlookup_cons_ne rest entry hne]
    · rcases eq_or_ne other entry.1 with rfl | hother
      · obtain ⟨first, stored⟩ := entry
        rw [List.dlookup_cons_eq, List.dlookup_cons_eq]
      · rw [List.dlookup_cons_ne _ entry hother, List.dlookup_cons_ne _ entry hother, ih]

private theorem kreplace_append_right {key : α} (value : β)
    {front : List (Sigma fun _ : α => β)} (hfront : key ∉ front.keys)
    (entries : List (Sigma fun _ : α => β)) :
    (front ++ entries).kreplace key value = front ++ entries.kreplace key value := by
  induction front with
  | nil => rfl
  | cons entry rest ih =>
    rw [List.keys_cons, List.mem_cons, not_or] at hfront
    rw [List.cons_append, kreplace_cons, if_neg hfront.1, ih hfront.2, List.cons_append]

@[simp] theorem setItem_pushEnd (d : OrderedDict α β) (key : α) (first second : β) :
    (d.pushEnd key first).setItem key second = d.pushEnd key second := by
  rw [setItem, if_pos (mem_pushEnd.mpr (Or.inl rfl))]
  apply AList.ext
  change (d.entries.kerase key ++ [(⟨key, first⟩ : Sigma fun _ : α => β)]).kreplace key second = _
  rw [kreplace_append_right second (List.notMem_keys_kerase key d.nodupKeys), kreplace_cons,
    if_pos rfl]
  rfl

@[simp] theorem lookup_setItem (d : OrderedDict α β) (key : α) (value : β) :
    (d.setItem key value).lookup key = some value := by
  unfold setItem
  split_ifs with hmem
  · exact dlookup_kreplace key value d.entries hmem
  · exact lookup_pushEnd d key value

theorem lookup_setItem_ne {d : OrderedDict α β} {key other : α} {value : β}
    (h : other ≠ key) : (d.setItem key value).lookup other = d.lookup other := by
  unfold setItem
  split_ifs with hmem
  · exact dlookup_kreplace_ne key value h d.entries
  · exact lookup_pushEnd_ne h

/-- Assigning and then moving to the end is the same as popping first. -/
@[simp] theorem moveToEnd_setItem (d : OrderedDict α β) (key : α) (value : β) :
    (d.setItem key value).moveToEnd key = d.pushEnd key value := by
  unfold setItem
  split_ifs with hmem
  · have hlookup : (d.replace key value).lookup key = some value :=
      dlookup_kreplace key value d.entries hmem
    simp only [moveToEnd, hlookup]
    apply AList.ext
    simp [pushEnd, AList.replace, kerase_kreplace]
  · simp only [moveToEnd, lookup_pushEnd, pushEnd_pushEnd]

omit [DecidableEq α] in
@[simp] theorem keys_popFirst (d : OrderedDict α β) :
    d.popFirst.keys = d.keys.tail := by
  simp [popFirst, AList.keys, List.keys]

omit [DecidableEq α] in
@[simp] theorem keys_popWhileOver (d : OrderedDict α β) (capacity : ℕ) :
    (d.popWhileOver capacity).keys = d.keys.drop (d.keys.length - capacity) := by
  simp [popWhileOver, AList.keys, List.keys, dropOldest_eq_drop, List.map_drop]

omit [DecidableEq α] in
theorem popWhileOver_of_le {d : OrderedDict α β} {capacity : ℕ} (h : d.len ≤ capacity) :
    d.popWhileOver capacity = d := by
  apply AList.ext
  have hlen : d.entries.length ≤ capacity := by simpa [len, AList.keys, List.keys] using h
  change dropOldest capacity d.entries = d.entries
  rw [dropOldest_eq_drop, Nat.sub_eq_zero_of_le hlen, List.drop_zero]

omit [DecidableEq α] in
theorem popWhileOver_of_lt {d : OrderedDict α β} {capacity : ℕ} (h : capacity < d.len) :
    d.popWhileOver capacity = d.popFirst.popWhileOver capacity := by
  apply AList.ext
  have hlen : capacity < d.entries.length := by simpa [len, AList.keys, List.keys] using h
  change dropOldest capacity d.entries = dropOldest capacity d.entries.tail
  cases hentries : d.entries with
  | nil => rfl
  | cons entry rest =>
    rw [hentries] at hlen
    rw [dropOldest, if_pos hlen, List.tail_cons]

theorem lookup_of_popWhileOver {d : OrderedDict α β} {capacity : ℕ} {key : α} {value : β}
    (h : (d.popWhileOver capacity).lookup key = some value) : d.lookup key = some value := by
  rw [← Option.mem_def, AList.mem_lookup_iff] at h ⊢
  have hdrop : (d.popWhileOver capacity).entries =
      d.entries.drop (d.entries.length - capacity) := dropOldest_eq_drop capacity d.entries
  rw [hdrop] at h
  exact List.mem_of_mem_drop h

/-- What is stored after an assignment is assigned, or was stored before. -/
theorem lookup_of_popWhileOver_pushEnd {d : OrderedDict α β} {capacity : ℕ} {key other : α}
    {value stored : β}
    (h : ((d.pushEnd key value).popWhileOver capacity).lookup other = some stored) :
    (other = key ∧ stored = value) ∨ (other ≠ key ∧ d.lookup other = some stored) := by
  have hpushed := lookup_of_popWhileOver h
  rcases eq_or_ne other key with rfl | hne
  · rw [lookup_pushEnd, Option.some.injEq] at hpushed
    exact Or.inl ⟨rfl, hpushed.symm⟩
  · rw [lookup_pushEnd_ne hne] at hpushed
    exact Or.inr ⟨hne, hpushed⟩

theorem lookup_popWhileOver_pushEnd (d : OrderedDict α β) (key : α) (value : β)
    {capacity : ℕ} (hcap : 0 < capacity) :
    ((d.pushEnd key value).popWhileOver capacity).lookup key = some value := by
  rw [← Option.mem_def, AList.mem_lookup_iff]
  have hdrop : ((d.pushEnd key value).popWhileOver capacity).entries =
      (d.pushEnd key value).entries.drop ((d.pushEnd key value).entries.length - capacity) :=
    dropOldest_eq_drop capacity _
  have hpush : (d.pushEnd key value).entries =
      d.entries.kerase key ++ [(⟨key, value⟩ : Sigma fun _ : α => β)] := rfl
  rw [hdrop, hpush, List.drop_append_of_le_length (by simp; omega)]
  exact List.mem_append_right _ (List.mem_singleton_self _)

def onValue {γ : Type} (f : β → γ) (entry : Sigma fun _ : α => β) : Sigma fun _ : α => γ :=
  ⟨entry.1, f entry.2⟩

def mapValues {γ : Type} (f : β → γ) (d : OrderedDict α β) : OrderedDict α γ :=
  ⟨d.entries.map (onValue f), by
    have hkeys : (d.entries.map (onValue f)).keys = d.entries.keys := by
      rw [List.keys, List.map_map]
      rfl
    rw [List.NodupKeys, hkeys]
    exact d.nodupKeys⟩

section MapValues

variable {γ : Type} (f : β → γ)

private theorem kerase_map_onValue (key : α) (entries : List (Sigma fun _ : α => β)) :
    (entries.map (onValue f)).kerase key = (entries.kerase key).map (onValue f) := by
  induction entries with
  | nil => rfl
  | cons entry rest ih =>
    have hkey : (onValue f entry).1 = entry.1 := rfl
    by_cases h : key = entry.1
    · rw [List.map_cons, List.kerase_cons_eq h, List.kerase_cons_eq (h.trans hkey.symm)]
    · rw [List.map_cons, List.kerase_cons_ne h, List.kerase_cons_ne (hkey ▸ h), ih, List.map_cons]

@[simp] theorem lookup_mapValues (d : OrderedDict α β) (key : α) :
    (d.mapValues f).lookup key = (d.lookup key).map f := by
  ext value
  rw [← Option.mem_def, AList.mem_lookup_iff, Option.map_eq_some_iff]
  change _ ∈ d.entries.map (onValue f) ↔ _
  rw [List.mem_map]
  constructor
  · rintro ⟨⟨key', stored⟩, hmem, heq⟩
    obtain ⟨rfl, rfl⟩ : key' = key ∧ f stored = value := by simpa [onValue] using heq
    exact ⟨stored, AList.mem_lookup_iff.mpr hmem, rfl⟩
  · rintro ⟨stored, hstored, rfl⟩
    exact ⟨⟨key, stored⟩, AList.mem_lookup_iff.mp hstored, rfl⟩

@[simp] theorem mapValues_pushEnd (d : OrderedDict α β) (key : α) (value : β) :
    (d.pushEnd key value).mapValues f = (d.mapValues f).pushEnd key (f value) := by
  apply AList.ext
  change (d.entries.kerase key ++ [(⟨key, value⟩ : Sigma fun _ : α => β)]).map (onValue f) =
    (d.entries.map (onValue f)).kerase key ++ [onValue f ⟨key, value⟩]
  rw [kerase_map_onValue, List.map_append]
  rfl

omit [DecidableEq α] in
@[simp] theorem mapValues_popWhileOver (d : OrderedDict α β) (capacity : ℕ) :
    (d.popWhileOver capacity).mapValues f = (d.mapValues f).popWhileOver capacity := by
  apply AList.ext
  change (dropOldest capacity d.entries).map (onValue f) =
    dropOldest capacity (d.entries.map (onValue f))
  rw [dropOldest_eq_drop, dropOldest_eq_drop, List.map_drop, List.length_map]

omit [DecidableEq α] in
theorem exists_mapValues {d : OrderedDict α γ}
    (hvalues : ∀ entry ∈ d.entries, ∃ value, entry.2 = f value) :
    ∃ e : OrderedDict α β, d = e.mapValues f := by
  have hentries : ∀ entries : List (Sigma fun _ : α => γ),
      (∀ entry ∈ entries, ∃ value, entry.2 = f value) →
        ∃ originals : List (Sigma fun _ : α => β), entries = originals.map (onValue f) := by
    intro entries hall
    induction entries with
    | nil => exact ⟨[], rfl⟩
    | cons entry rest ih =>
      obtain ⟨value, hvalue⟩ := hall entry List.mem_cons_self
      obtain ⟨originals, horiginals⟩ := ih fun other h => hall other (List.mem_cons_of_mem _ h)
      refine ⟨⟨entry.1, value⟩ :: originals, ?_⟩
      rw [List.map_cons, ← horiginals, onValue, ← hvalue]
  obtain ⟨originals, horiginals⟩ := hentries d.entries hvalues
  have hkeys : originals.keys = d.entries.keys := by
    rw [horiginals, List.keys, List.keys, List.map_map]
    rfl
  refine ⟨⟨originals, ?_⟩, AList.ext horiginals⟩
  rw [List.NodupKeys, hkeys]
  exact d.nodupKeys

end MapValues

section Total

variable {M : Type} [AddCommMonoid M] (f : β → M)

def total (d : OrderedDict α β) : M := (d.entries.map fun entry => f entry.2).sum

private theorem sum_kreplace {key : α} {value stored : β} {m : M}
    (hvalue : f value = f stored + m) (entries : List (Sigma fun _ : α => β))
    (hstored : entries.dlookup key = some stored) :
    ((entries.kreplace key value).map fun entry => f entry.2).sum =
      (entries.map fun entry => f entry.2).sum + m := by
  induction entries with
  | nil => cases hstored
  | cons entry rest ih =>
    rw [kreplace_cons]
    split_ifs with h
    · subst h
      rw [List.dlookup_cons_eq, Option.some.injEq] at hstored
      rw [List.map_cons, List.map_cons, List.sum_cons, List.sum_cons, hstored, hvalue]
      exact add_right_comm _ _ _
    · rw [List.dlookup_cons_ne rest entry h] at hstored
      rw [List.map_cons, List.map_cons, List.sum_cons, List.sum_cons, ih hstored, add_assoc]

/-- Assigning a value that measures more than the one it replaces adds the
difference. -/
theorem total_setItem {d : OrderedDict α β} {key : α} {value : β} {m : M}
    (hvalue : f value = ((d.lookup key).map f).getD 0 + m) :
    total f (d.setItem key value) = total f d + m := by
  unfold setItem
  split_ifs with hmem
  · obtain ⟨stored, hstored⟩ := Option.isSome_iff_exists.mp (AList.lookup_isSome.mpr hmem)
    rw [hstored] at hvalue
    exact sum_kreplace f hvalue d.entries hstored
  · rw [AList.lookup_eq_none.mpr hmem] at hvalue
    have hentries : (d.pushEnd key value).entries =
        d.entries ++ [(⟨key, value⟩ : Sigma fun _ : α => β)] := by
      change d.entries.kerase key ++ _ = _
      rw [List.kerase_of_notMem_keys hmem]
    rw [total, total, hentries, List.map_append, List.sum_append, List.map_singleton,
      List.sum_singleton, hvalue]
    exact congrArg _ (zero_add m)

/-- The sum over any keys that are all of the dictionary's or more. -/
theorem total_eq_sum_lookup {d : OrderedDict α β} {keys : Finset α}
    (hkeys : ∀ key ∈ d, key ∈ keys) :
    total f d = ∑ key ∈ keys, ((d.lookup key).map f).getD 0 := by
  have hentries : d.entries.map (fun entry => f entry.2) =
      d.keys.map fun key => ((d.lookup key).map f).getD 0 := by
    rw [AList.keys, List.keys, List.map_map]
    apply List.map_congr_left
    intro entry hentry
    have hlookup : d.lookup entry.1 = some entry.2 := AList.mem_lookup_iff.mpr hentry
    rw [Function.comp_apply, hlookup]
    rfl
  have hsubset : d.keys.toFinset ⊆ keys := by
    intro key hkey
    exact hkeys key (AList.mem_keys.mpr (List.mem_toFinset.mp hkey))
  rw [total, hentries, ← List.sum_toFinset _ d.keys_nodup]
  apply Finset.sum_subset hsubset
  intro key _ habsent
  have hnone : d.lookup key = none :=
    AList.lookup_eq_none.mpr fun hmem => habsent (List.mem_toFinset.mpr (AList.mem_keys.mp hmem))
  rw [hnone]
  rfl

/-- Measures that agree on the values of the dictionary add up to the same. -/
theorem total_congr {f g : β → M} {d : OrderedDict α β}
    (h : ∀ key value, d.lookup key = some value → f value = g value) :
    total f d = total g d := by
  unfold total
  congr 1
  apply List.map_congr_left
  intro entry hentry
  exact h entry.1 entry.2 (AList.mem_lookup_iff.mpr hentry)

omit [DecidableEq α] in
theorem total_comp {N : Type} [AddCommMonoid N] (translate : M →+ N) (d : OrderedDict α β) :
    total (fun value => translate (f value)) d = translate (total f d) := by
  unfold total
  rw [map_list_sum, List.map_map]
  rfl

end Total

omit [DecidableEq α] in
theorem ext_keys {d e : OrderedDict α Unit} (h : d.keys = e.keys) : d = e := by
  have hentries : ∀ entries : List (Sigma fun _ : α => Unit),
      entries = (entries.map Sigma.fst).map fun key => ⟨key, ()⟩ := by
    intro entries
    induction entries with
    | nil => rfl
    | cons entry rest ih => rw [List.map_cons, List.map_cons, ← ih]
  apply AList.ext
  rw [hentries d.entries, hentries e.entries]
  exact congrArg _ h

end OrderedDict
