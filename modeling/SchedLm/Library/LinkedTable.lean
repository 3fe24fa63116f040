import SchedLm.Library.OrderedDict

/-!
A hash map into a doubly linked list: the map sends a key to an element of the
list, the list keeps the elements from the least to the most recently used.
Elements are names handed out once each. Such a table represents an ordered
dictionary, and its operations are the dictionary's.
-/

structure LinkedTable (κ ν : Type) where
  index : Dict κ ℕ := ∅
  order : OrderedDict ℕ (κ × ν) := ∅
  fresh : ℕ := 0

namespace LinkedTable

variable {κ ν : Type} [DecidableEq κ]

omit [DecidableEq κ] in
def len (t : LinkedTable κ ν) : ℕ := t.order.len

def value? (t : LinkedTable κ ν) (elem : ℕ) : Option ν :=
  (t.order.lookup elem).map Prod.snd

def pushBack (t : LinkedTable κ ν) (key : κ) (value : ν) : ℕ × LinkedTable κ ν :=
  (t.fresh,
    { index := t.index.insert key t.fresh
      order := t.order.pushEnd t.fresh (key, value)
      fresh := t.fresh + 1 })

def moveToBack (t : LinkedTable κ ν) (elem : ℕ) : LinkedTable κ ν :=
  { t with order := t.order.moveToEnd elem }

def setValue (t : LinkedTable κ ν) (elem : ℕ) (value : ν) : LinkedTable κ ν :=
  match t.order.lookup elem with
  | some (key, _) => { t with order := t.order.setItem elem (key, value) }
  | none => t

def removeFront (t : LinkedTable κ ν) : LinkedTable κ ν :=
  match t.order.entries with
  | [] => t
  | ⟨_, key, _⟩ :: _ => { t with index := t.index.erase key, order := t.order.popFirst }

/-- `for order.Len() > capacity`, with the length as fuel. -/
def evictLoop (capacity : ℕ) : ℕ → LinkedTable κ ν → LinkedTable κ ν
  | 0, t => t
  | fuel + 1, t =>
    if capacity < t.len then evictLoop capacity fuel t.removeFront else t

def evictOver (t : LinkedTable κ ν) (capacity : ℕ) : LinkedTable κ ν :=
  evictLoop capacity t.len t

omit [DecidableEq κ] in
@[simp] theorem index_setValue (t : LinkedTable κ ν) (elem : ℕ) (value : ν) :
    (t.setValue elem value).index = t.index := by
  unfold setValue
  split <;> rfl

def entryOf (element : Sigma fun _ : ℕ => κ × ν) : Sigma fun _ : κ => ν :=
  ⟨element.2.1, element.2.2⟩

structure Represents (t : LinkedTable κ ν) (d : OrderedDict κ ν) : Prop where
  entries : d.entries = t.order.entries.map entryOf
  index : ∀ key elem, t.index.lookup key = some elem ↔
    ∃ value, t.order.lookup elem = some (key, value)
  fresh : ∀ elem ∈ t.order, elem < t.fresh

theorem represents_empty : Represents ({} : LinkedTable κ ν) ∅ := by
  refine ⟨rfl, ?_, ?_⟩ <;> simp

section Elements

variable {elements : List (Sigma fun _ : ℕ => κ × ν)} {elem : ℕ} {key : κ} {value : ν}

omit [DecidableEq κ] in
private theorem ne_of_mem_rest {first : Sigma fun _ : ℕ => κ × ν}
    (hkeys : ((first :: elements).map entryOf).NodupKeys)
    (helems : (first :: elements).NodupKeys) (hmem : ⟨elem, key, value⟩ ∈ elements) :
    elem ≠ first.1 ∧ key ≠ (entryOf first).1 := by
  rw [List.map_cons, List.nodupKeys_cons] at hkeys
  rw [List.nodupKeys_cons] at helems
  constructor
  · intro heq
    exact helems.1 (heq ▸ List.mem_keys_of_mem hmem)
  · intro heq
    exact hkeys.1 (heq ▸ List.mem_keys_of_mem (List.mem_map_of_mem hmem))

private theorem map_kerase (hkeys : (elements.map entryOf).NodupKeys)
    (helems : elements.NodupKeys) (hmem : ⟨elem, key, value⟩ ∈ elements) :
    (elements.kerase elem).map entryOf = (elements.map entryOf).kerase key := by
  induction elements with
  | nil => simp at hmem
  | cons first rest ih =>
    rcases List.mem_cons.mp hmem with rfl | hrest
    · have hleft : (⟨elem, key, value⟩ :: rest).kerase elem = rest := List.kerase_cons_eq rfl
      have hright : (entryOf ⟨elem, key, value⟩ :: rest.map entryOf).kerase key =
          rest.map entryOf := List.kerase_cons_eq rfl
      rw [hleft, List.map_cons, hright]
    · obtain ⟨helem, hkey⟩ := ne_of_mem_rest hkeys helems hrest
      rw [List.kerase_cons_ne helem, List.map_cons, List.map_cons, List.kerase_cons_ne hkey,
        ih (List.nodupKeys_cons.mp hkeys).2 (List.nodupKeys_cons.mp helems).2 hrest]

private theorem map_kreplace (hkeys : (elements.map entryOf).NodupKeys)
    (helems : elements.NodupKeys) (hmem : ⟨elem, key, value⟩ ∈ elements) (next : ν) :
    (elements.kreplace elem (key, next)).map entryOf =
      (elements.map entryOf).kreplace key next := by
  induction elements with
  | nil => simp at hmem
  | cons first rest ih =>
    rw [List.map_cons, OrderedDict.kreplace_cons, OrderedDict.kreplace_cons]
    rcases List.mem_cons.mp hmem with rfl | hrest
    · rw [if_pos rfl, if_pos (show key = (entryOf ⟨elem, key, value⟩).1 from rfl)]
      rfl
    · obtain ⟨helem, hkey⟩ := ne_of_mem_rest hkeys helems hrest
      rw [if_neg helem, if_neg hkey, List.map_cons,
        ih (List.nodupKeys_cons.mp hkeys).2 (List.nodupKeys_cons.mp helems).2 hrest]

end Elements

namespace Represents

variable {t : LinkedTable κ ν} {d : OrderedDict κ ν}

theorem lookup_iff (h : Represents t d) {key : κ} {value : ν} :
    d.lookup key = some value ↔ ∃ elem, t.order.lookup elem = some (key, value) := by
  rw [← Option.mem_def, AList.mem_lookup_iff, h.entries, List.mem_map]
  constructor
  · rintro ⟨⟨elem, held⟩, hmem, heq⟩
    obtain ⟨rfl, rfl⟩ : held.1 = key ∧ held.2 = value := by simpa [entryOf] using heq
    exact ⟨elem, AList.mem_lookup_iff.mpr hmem⟩
  · rintro ⟨elem, helem⟩
    exact ⟨⟨elem, key, value⟩, AList.mem_lookup_iff.mp helem, rfl⟩

theorem index_eq_none (h : Represents t d) {key : κ} :
    t.index.lookup key = none ↔ d.lookup key = none := by
  rw [Option.eq_none_iff_forall_ne_some, Option.eq_none_iff_forall_ne_some]
  constructor
  · intro hnone value hvalue
    obtain ⟨elem, helem⟩ := h.lookup_iff.mp hvalue
    exact hnone elem ((h.index key elem).mpr ⟨value, helem⟩)
  · intro hnone elem helem
    obtain ⟨value, hvalue⟩ := (h.index key elem).mp helem
    exact hnone value (h.lookup_iff.mpr ⟨elem, hvalue⟩)

theorem value?_eq (h : Represents t d) {key : κ} {elem : ℕ}
    (hindex : t.index.lookup key = some elem) : t.value? elem = d.lookup key := by
  obtain ⟨value, hvalue⟩ := (h.index key elem).mp hindex
  rw [h.lookup_iff.mpr ⟨elem, hvalue⟩, value?, hvalue]
  rfl

theorem lookup_eq (h : Represents t d) (key : κ) :
    (t.index.lookup key).bind t.value? = d.lookup key := by
  cases hindex : t.index.lookup key with
  | none => exact (h.index_eq_none.mp hindex).symm
  | some elem => exact h.value?_eq hindex

theorem elem_unique (h : Represents t d) {key : κ} {elem other : ℕ} {value value' : ν}
    (helem : t.order.lookup elem = some (key, value))
    (hother : t.order.lookup other = some (key, value')) : other = elem := by
  have hindex := (h.index key elem).mpr ⟨value, helem⟩
  rw [(h.index key other).mpr ⟨value', hother⟩, Option.some.injEq] at hindex
  exact hindex

theorem len_eq (h : Represents t d) : t.len = d.len := by
  simp [len, OrderedDict.len, AList.keys, List.keys, h.entries]

theorem length_keys_index_le (h : Represents t d) : t.index.keys.length ≤ d.len := by
  have hsubset : t.index.keys ⊆ d.keys := by
    intro key hkey
    by_contra habsent
    have hnone : d.lookup key = none := AList.lookup_eq_none.mpr habsent
    exact AList.lookup_eq_none.mp (h.index_eq_none.mpr hnone) hkey
  exact (t.index.keys_nodup.subperm hsubset).length_le

theorem pushBack (h : Represents t d) {key : κ} (habsent : d.lookup key = none) (value : ν) :
    Represents (t.pushBack key value).2 (d.pushEnd key value) ∧
      (t.pushBack key value).2.index.lookup key = some (t.pushBack key value).1 := by
  have hnew : t.fresh ∉ t.order := fun hmem => lt_irrefl _ (h.fresh t.fresh hmem)
  refine ⟨⟨?_, fun other elem => ?_, fun elem hmem => ?_⟩, AList.lookup_insert _⟩
  · have hkey : key ∉ d.entries.keys := AList.lookup_eq_none.mp habsent
    change d.entries.kerase key ++ [(⟨key, value⟩ : Sigma fun _ : κ => ν)] =
      (t.order.entries.kerase t.fresh ++
        [(⟨t.fresh, key, value⟩ : Sigma fun _ : ℕ => κ × ν)]).map entryOf
    rw [List.kerase_of_notMem_keys hkey, List.kerase_of_notMem_keys hnew, h.entries,
      List.map_append]
    rfl
  · change (t.index.insert key t.fresh).lookup other = some elem ↔
      ∃ held, (t.order.pushEnd t.fresh (key, value)).lookup elem = some (other, held)
    rcases eq_or_ne elem t.fresh with rfl | hne
    · rw [OrderedDict.lookup_pushEnd]
      rcases eq_or_ne other key with rfl | hother
      · simp
      · rw [AList.lookup_insert_ne hother]
        have hfresh : t.index.lookup other ≠ some t.fresh := by
          intro hindex
          obtain ⟨held, hheld⟩ := (h.index other t.fresh).mp hindex
          exact hnew (AList.lookup_isSome.mp (by rw [hheld]; rfl))
        simp [hfresh, Ne.symm hother]
    · rw [OrderedDict.lookup_pushEnd_ne hne, ← h.index]
      rcases eq_or_ne other key with rfl | hother
      · simp [h.index_eq_none.mpr habsent, Ne.symm hne]
      · rw [AList.lookup_insert_ne hother]
  · change elem < t.fresh + 1
    rcases OrderedDict.mem_pushEnd.mp hmem with rfl | hold
    · exact Nat.lt_succ_self _
    · exact Nat.lt_succ_of_lt (h.fresh elem hold)

theorem moveToBack (h : Represents t d) {key : κ} {elem : ℕ}
    (hindex : t.index.lookup key = some elem) :
    Represents (t.moveToBack elem) (d.moveToEnd key) := by
  obtain ⟨value, helem⟩ := (h.index key elem).mp hindex
  have hvalue := h.lookup_iff.mpr ⟨elem, helem⟩
  have hmem : ⟨elem, key, value⟩ ∈ t.order.entries := AList.mem_lookup_iff.mp helem
  have horder : (t.moveToBack elem).order = t.order.pushEnd elem (key, value) := by
    simp only [LinkedTable.moveToBack, OrderedDict.moveToEnd, helem]
  have hdict : d.moveToEnd key = d.pushEnd key value := by
    simp only [OrderedDict.moveToEnd, hvalue]
  refine ⟨?_, fun other elem' => ?_, fun elem' hmem' => ?_⟩
  · have hkeys := d.nodupKeys
    rw [h.entries] at hkeys
    rw [hdict, horder]
    change d.entries.kerase key ++ [(⟨key, value⟩ : Sigma fun _ : κ => ν)] =
      (t.order.entries.kerase elem ++
        [(⟨elem, key, value⟩ : Sigma fun _ : ℕ => κ × ν)]).map entryOf
    rw [h.entries, List.map_append, map_kerase hkeys t.order.nodupKeys hmem]
    rfl
  · rw [horder]
    change t.index.lookup other = some elem' ↔ _
    rw [h.index]
    rcases eq_or_ne elem' elem with rfl | hne
    · rw [OrderedDict.lookup_pushEnd, helem]
    · rw [OrderedDict.lookup_pushEnd_ne hne]
  · rw [horder] at hmem'
    change elem' < t.fresh
    rcases OrderedDict.mem_pushEnd.mp hmem' with rfl | hold
    · exact h.fresh elem' (AList.lookup_isSome.mp (by rw [helem]; rfl))
    · exact h.fresh elem' hold

theorem setValue (h : Represents t d) {key : κ} {elem : ℕ}
    (hindex : t.index.lookup key = some elem) (next : ν) :
    Represents (t.setValue elem next) (d.setItem key next) := by
  obtain ⟨value, helem⟩ := (h.index key elem).mp hindex
  have hvalue := h.lookup_iff.mpr ⟨elem, helem⟩
  have hmem : ⟨elem, key, value⟩ ∈ t.order.entries := AList.mem_lookup_iff.mp helem
  have hin : elem ∈ t.order := AList.lookup_isSome.mp (by rw [helem]; rfl)
  have hkey : key ∈ d := AList.lookup_isSome.mp (by rw [hvalue]; rfl)
  have hset : t.setValue elem next =
      { t with order := t.order.setItem elem (key, next) } := by
    simp only [LinkedTable.setValue, helem]
  rw [hset]
  refine ⟨?_, fun other elem' => ?_, fun elem' hmem' => ?_⟩
  · have hkeys := d.nodupKeys
    rw [h.entries] at hkeys
    rw [OrderedDict.setItem, OrderedDict.setItem, if_pos hkey, if_pos hin]
    change d.entries.kreplace key next =
      (t.order.entries.kreplace elem (key, next)).map entryOf
    rw [map_kreplace hkeys t.order.nodupKeys hmem, h.entries]
  · change t.index.lookup other = some elem' ↔
      ∃ held, (t.order.setItem elem (key, next)).lookup elem' = some (other, held)
    rw [h.index]
    rcases eq_or_ne elem' elem with rfl | hne
    · simp [helem]
    · rw [OrderedDict.lookup_setItem_ne hne]
  · change elem' < t.fresh
    rw [OrderedDict.setItem, if_pos hin, AList.mem_replace] at hmem'
    exact h.fresh elem' hmem'

theorem removeFront (h : Represents t d) : Represents t.removeFront d.popFirst := by
  unfold LinkedTable.removeFront
  split
  · next hempty =>
    have hd : d.popFirst = d := by
      apply AList.ext
      change d.entries.tail = d.entries
      rw [h.entries, hempty]
      rfl
    rw [hd]
    exact h
  · next elem key value rest hfront =>
    have hmem : ⟨elem, key, value⟩ ∈ t.order.entries := by
      rw [hfront]
      exact List.mem_cons_self
    have helem := AList.mem_lookup_iff.mpr hmem
    have hpop : t.order.popFirst = t.order.erase elem := by
      apply AList.ext
      have hrest : ((⟨elem, key, value⟩ : Sigma fun _ : ℕ => κ × ν) :: rest).kerase elem = rest :=
        List.kerase_cons_eq rfl
      change t.order.entries.tail = t.order.entries.kerase elem
      rw [hfront, hrest, List.tail_cons]
    refine ⟨?_, fun other elem' => ?_, fun elem' hmem' => ?_⟩
    · change d.entries.tail = t.order.entries.tail.map entryOf
      rw [h.entries, List.map_tail]
    · change (t.index.erase key).lookup other = some elem' ↔
        ∃ held, t.order.popFirst.lookup elem' = some (other, held)
      rw [hpop]
      rcases eq_or_ne elem' elem with rfl | hne
      · rcases eq_or_ne other key with rfl | hother
        · simp
        · rw [AList.lookup_erase_ne hother, h.index, helem]
          simp [Ne.symm hother]
      · rw [AList.lookup_erase_ne hne]
        rcases eq_or_ne other key with rfl | hother
        · rw [AList.lookup_erase]
          refine iff_of_false (by simp) ?_
          rintro ⟨held, hheld⟩
          exact hne (h.elem_unique helem hheld)
        · rw [AList.lookup_erase_ne hother, h.index]
    · change elem' < t.fresh
      rw [hpop, AList.mem_erase] at hmem'
      exact h.fresh elem' hmem'.2

private theorem evictLoop {capacity : ℕ} (fuel : ℕ) (h : Represents t d)
    (hfuel : d.len ≤ fuel) :
    Represents (LinkedTable.evictLoop capacity fuel t) (d.popWhileOver capacity) := by
  induction fuel generalizing t d with
  | zero =>
    rw [OrderedDict.popWhileOver_of_le (by omega)]
    exact h
  | succ fuel ih =>
    unfold LinkedTable.evictLoop
    rw [h.len_eq]
    split_ifs with hover
    · rw [OrderedDict.popWhileOver_of_lt hover]
      apply ih h.removeFront
      simp only [OrderedDict.len, OrderedDict.keys_popFirst, List.length_tail] at hfuel ⊢
      omega
    · rw [OrderedDict.popWhileOver_of_le (by omega)]
      exact h

theorem evictOver (h : Represents t d) (capacity : ℕ) :
    Represents (t.evictOver capacity) (d.popWhileOver capacity) :=
  h.evictLoop t.len h.len_eq.ge

end Represents

end LinkedTable
