import SchedLm.Gateway.Clock
import SchedLm.Library.LinkedTable

/-!
The gateway's session tracker: when each conversation was last seen, in a
bounded table with the least recently seen conversation in front.
-/

namespace SchedLm.Gateway

variable {K : Type} [Scalar K]

def gapTrackerCapacity : ℕ := 8192

structure SessionTracker where
  capacity : ℕ
  seen : LinkedTable String Time

def newSessionTracker (capacity : ℤ) : SessionTracker where
  capacity := if capacity ≤ 0 then gapTrackerCapacity else capacity.toNat
  seen := {}

namespace SessionTracker

def lastSeen (t : SessionTracker) (conversationKey : String) : Option Time :=
  (t.seen.index.lookup conversationKey).bind t.seen.value?

def touch (t : SessionTracker) (conversationKey : String) (now : Time) : SessionTracker :=
  let seen :=
    match t.seen.index.lookup conversationKey with
    | some elem => (t.seen.setValue elem now).moveToBack elem
    | none => (t.seen.pushBack conversationKey now).2
  { t with seen := seen.evictOver t.capacity }

/-- The realized gap in seconds since the conversation's previous turn, when
there is one and a tool to attribute it to. -/
def observeGap (t : SessionTracker) (conversationKey tool : String) (now : Time) :
    Option K × SessionTracker :=
  if conversationKey = "" then (none, t)
  else
    let prev := t.lastSeen conversationKey
    let t := t.touch conversationKey now
    match prev with
    | none => (none, t)
    | some prev =>
      if tool = "" then (none, t) else (some (Time.sub now prev).seconds, t)

variable {t : SessionTracker} {d : OrderedDict String Time}

theorem touch_represents (h : t.seen.Represents d) (conversationKey : String) (now : Time) :
    (t.touch conversationKey now).seen.Represents
      ((OrderedDict.pushEnd d conversationKey now).popWhileOver t.capacity) := by
  unfold touch
  cases hindex : t.seen.index.lookup conversationKey with
  | none =>
    obtain ⟨hpushed, -⟩ := h.pushBack (h.index_eq_none.mp hindex) now
    exact hpushed.evictOver t.capacity
  | some elem =>
    have hset := h.setValue hindex now
    have hsame : (t.seen.setValue elem now).index.lookup conversationKey = some elem := by
      rw [LinkedTable.index_setValue]
      exact hindex
    have hmoved := hset.moveToBack hsame
    rw [OrderedDict.moveToEnd_setItem] at hmoved
    exact hmoved.evictOver t.capacity

/-- A gap is learnt from a conversation's earlier turn and a tool. -/
theorem observeGap_fst_eq_some {conversationKey tool : String} {now : Time} {gap : K} :
    (t.observeGap conversationKey tool now).1 = some gap ↔
      conversationKey ≠ "" ∧ tool ≠ "" ∧ ∃ prev, t.lastSeen conversationKey = some prev ∧
        gap = (Time.sub now prev).seconds := by
  unfold observeGap
  by_cases hkey : conversationKey = ""
  · simp [hkey]
  · rw [if_neg hkey]
    cases hprev : t.lastSeen conversationKey with
    | none => simp
    | some prev =>
      by_cases htool : tool = ""
      · simp [htool]
      · simp [hkey, htool, eq_comm]

theorem observeGap_snd {conversationKey tool : String} {now : Time} :
    (t.observeGap conversationKey tool now : Option K × SessionTracker).2 =
      if conversationKey = "" then t else t.touch conversationKey now := by
  unfold observeGap
  by_cases hkey : conversationKey = ""
  · rw [if_pos hkey, if_pos hkey]
  · rw [if_neg hkey, if_neg hkey]
    cases t.lastSeen conversationKey with
    | none => rfl
    | some prev => by_cases htool : tool = "" <;> simp [htool]

/-- A tracker whose list and map are one table, with room for a conversation. -/
structure Valid (t : SessionTracker) : Prop where
  capacity_pos : 0 < t.capacity
  represents : ∃ d, t.seen.Represents d

theorem valid_newSessionTracker (capacity : ℤ) : (newSessionTracker capacity).Valid where
  capacity_pos := by
    unfold newSessionTracker
    dsimp only
    split_ifs with hcap
    · decide
    · omega
  represents := ⟨∅, LinkedTable.represents_empty⟩

theorem Valid.touch (h : t.Valid) (conversationKey : String) (now : Time) :
    (t.touch conversationKey now).Valid := by
  obtain ⟨hcap, d, hd⟩ := h
  exact ⟨hcap, _, touch_represents hd conversationKey now⟩

theorem lastSeen_eq (h : t.seen.Represents d) (conversationKey : String) :
    t.lastSeen conversationKey = d.lookup conversationKey := h.lookup_eq conversationKey

theorem Valid.lastSeen_touch_self (h : t.Valid) (conversationKey : String) (now : Time) :
    (t.touch conversationKey now).lastSeen conversationKey = some now := by
  obtain ⟨hcap, d, hd⟩ := h
  rw [lastSeen_eq (touch_represents hd conversationKey now)]
  exact OrderedDict.lookup_popWhileOver_pushEnd d conversationKey now hcap

/-- What is stored after a turn is that turn, or was stored before. -/
theorem Valid.lastSeen_touch (h : t.Valid) {conversationKey other : String} {now time : Time}
    (hstored : (t.touch conversationKey now).lastSeen other = some time) :
    (other = conversationKey ∧ time = now) ∨
      (other ≠ conversationKey ∧ t.lastSeen other = some time) := by
  obtain ⟨-, d, hd⟩ := h
  rw [lastSeen_eq (touch_represents hd conversationKey now)] at hstored
  rw [lastSeen_eq hd]
  exact OrderedDict.lookup_of_popWhileOver_pushEnd hstored

end SessionTracker

end SchedLm.Gateway
