import SchedLm.Library.Bisect
import SchedLm.Library.OrderedDict
import SchedLm.Library.Scalar
import SchedLm.Sim.Blocks

/-!
A simulated inference node: a KV-block cache ordered by recency, retention
directives on resident blocks, and a single-server queue. `BeladyNode` differs
from `Node` only in victim selection, so both are one structure with an
`Eviction` field.
-/

namespace SchedLm.Sim

def evictFirst : ℤ := -1

def high : ℤ := 50

def pinned : ℤ := 100

def minPriority : ℤ := evictFirst

def maxPriority : ℤ := pinned

def clampPriority (priority : ℤ) : ℤ :=
  max minPriority (min maxPriority priority)

/-- Which `_pick_victim` a node runs. -/
inductive Eviction where
  | lru
  | belady (futureUses : Dict BlockHash (List ℕ))

structure Node (K : Type) where
  nodeId : ℕ
  busyUntil : K
  cache : OrderedDict BlockHash Unit
  priority : Dict BlockHash ℤ
  expiry : Dict BlockHash (WithTop K)
  pinnedEvictions : ℕ
  atIndex : ℕ
  cacheCapacity : ℤ
  eviction : Eviction

structure AdmitCall (K : Type) [Zero K] where
  now : K
  serviceTime : K
  reqBlocks : List BlockHash
  retainUntil : WithTop K := ((0 : K) : WithTop K)
  atIndex : ℕ := 0
  priority : Option ℤ := none

/-- The loop state of the base node's victim scan: the first block seen in each
bucket, and for the marked bucket the best key with it. -/
structure Buckets (K : Type) where
  evictFirst : Option BlockHash := none
  unmarked : Option BlockHash := none
  marked : Option BlockHash := none
  markedKey : Option (ℤ ×ₗ WithTop K) := none

namespace Node

variable {K : Type}

/-- The two ways to build a node: `Node(id, c)` and `BeladyNode(id, c, uses)`. -/
def init [Zero K] (nodeId : ℕ) (cacheBlocks : ℤ) (eviction : Eviction := .lru) : Node K where
  nodeId := nodeId
  busyUntil := 0
  cache := ∅
  priority := ∅
  expiry := ∅
  pinnedEvictions := 0
  atIndex := 0
  cacheCapacity := cacheBlocks
  eviction := eviction

def matched (n : Node K) (reqBlocks : List BlockHash) : ℕ :=
  matchedPrefix reqBlocks fun h => decide (h ∈ n.cache)

variable [Scalar K]

def wait (n : Node K) (now : K) : K := max 0 (n.busyUntil - now)

/-- Resolve `admit` arguments into a stored mark; `(none, _)` clears it. -/
def directive (now : K) (retainUntil : WithTop K) (priority : Option ℤ) :
    Option ℤ × WithTop K :=
  match priority with
  | none =>
    if (now : WithTop K) < retainUntil then (some high, retainUntil)
    else (none, ((0 : K) : WithTop K))
  | some prio =>
    let expiry := if (now : WithTop K) < retainUntil then retainUntil else ⊤
    (some (clampPriority prio), expiry)

/-- One turn of the insertion loop: the block becomes most recently used and
its mark is overwritten or cleared. -/
def stamp (prio : Option ℤ) (expiry : WithTop K) (n : Node K) (h : BlockHash) : Node K :=
  let cache := OrderedDict.setItem (n.cache.erase h) h ()
  match prio with
  | none => { n with
      cache := cache, priority := n.priority.erase h, expiry := n.expiry.erase h }
  | some p => { n with
      cache := cache, priority := n.priority.insert h p, expiry := n.expiry.insert h expiry }

def scanBlock (n : Node K) (now : K) (b : Buckets K) (h : BlockHash) : Buckets K :=
  let expiry := (n.expiry.lookup h).getD ((0 : K) : WithTop K)
  match n.priority.lookup h with
  | none => if b.unmarked.isNone then { b with unmarked := some h } else b
  | some prio =>
    if expiry ≤ (now : WithTop K) then
      if b.unmarked.isNone then { b with unmarked := some h } else b
    else if prio < 0 then
      if b.evictFirst.isNone then { b with evictFirst := some h } else b
    else
      let key := toLex (prio, expiry)
      match b.markedKey with
      | none => { b with markedKey := some key, marked := some h }
      | some best =>
        if key < best then { b with markedKey := some key, marked := some h } else b

/-- The full scan, and the choice of the lowest non-empty bucket. Sacrificing a
pin counts as pressure. -/
def scanVictim (n : Node K) (now : K) : Option BlockHash × Node K :=
  let b := n.cache.keys.foldl (n.scanBlock now) {}
  match b.evictFirst, b.unmarked, b.marked with
  | some h, _, _ => (some h, n)
  | none, some h, _ => (some h, n)
  | none, none, some h => (some h, { n with pinnedEvictions := n.pinnedEvictions + 1 })
  | none, none, none => (none, n)

/-- Request index of the next access to a block; `none` is infinity. -/
def nextUse (futureUses : Dict BlockHash (List ℕ)) (atIndex : ℕ) (h : BlockHash) :
    Option ℕ :=
  match futureUses.lookup h with
  | none => none
  | some uses =>
    let pos := Bisect.bisectRight uses atIndex
    if uses.length ≤ pos then none else uses[pos]?

/-- The lookahead scan: stop at the first block never used again, otherwise
keep the first block whose next use is furthest. -/
def furthestNext (next : BlockHash → Option ℕ) (victim : Option BlockHash)
    (victimNext : ℤ) : List BlockHash → Option BlockHash
  | [] => victim
  | h :: rest =>
    match next h with
    | none => some h
    | some nu =>
      if (nu : ℤ) > victimNext then furthestNext next (some h) nu rest
      else furthestNext next victim victimNext rest

/-- Victim selection. The base node takes the oldest block when no block
carries a directive. -/
def pickVictim (n : Node K) (now : K) : Option BlockHash × Node K :=
  match n.eviction with
  | .lru =>
    if n.priority.keys.isEmpty then (n.cache.keys.head?, n) else n.scanVictim now
  | .belady futureUses =>
    (furthestNext (nextUse futureUses n.atIndex) none (-1) n.cache.keys, n)

def evictOne (n : Node K) (now : K) : Node K :=
  match n.pickVictim now with
  | (none, n) => n
  | (some victim, n) => { n with
      cache := n.cache.erase victim
      priority := n.priority.erase victim
      expiry := n.expiry.erase victim }

/-- `while len(cache) > capacity: evict_one(now)`, for at most `fuel` turns;
`none` when the loop has not stopped by then. -/
def evictWhile (now : K) : ℕ → Node K → Option (Node K)
  | fuel, n =>
    if n.cacheCapacity < n.cache.len then
      match fuel with
      | 0 => none
      | fuel + 1 => evictWhile now fuel (n.evictOne now)
    else some n

/-- The first half of `admit`: advance the queue, and make the request's blocks most
recently used under its directive. Capacity is not looked at yet. -/
def insertBlocks (n : Node K) (call : AdmitCall K) : Node K :=
  let start := max call.now n.busyUntil
  let n := { n with atIndex := call.atIndex, busyUntil := start + call.serviceTime }
  let mark := directive call.now call.retainUntil call.priority
  call.reqBlocks.foldl (stamp mark.1 mark.2) n

/-- `admit` in the source. Each turn of the eviction loop removes a block while there is one,
so a loop that outlasts the cache never stops and the result is `none`. -/
def admitRequest (n : Node K) (call : AdmitCall K) : Option (Node K) :=
  let n := n.insertBlocks call
  n.evictWhile call.now n.cache.len

def admitAll (n : Node K) (calls : List (AdmitCall K)) : Option (Node K) :=
  calls.foldlM admitRequest n

omit [Scalar K] in
@[simp] theorem keys_stamp (prio : Option ℤ) (expiry : WithTop K) (n : Node K)
    (h : BlockHash) : (stamp prio expiry n h).cache.keys = n.cache.keys.erase h ++ [h] := by
  cases prio <;> simp [stamp]

theorem insertBlocks_frame (n : Node K) (call : AdmitCall K) :
    n.insertBlocks call = { n with
      atIndex := call.atIndex
      busyUntil := max call.now n.busyUntil + call.serviceTime
      cache := (n.insertBlocks call).cache
      priority := (n.insertBlocks call).priority
      expiry := (n.insertBlocks call).expiry } := by
  unfold insertBlocks
  generalize directive call.now call.retainUntil call.priority = mark
  induction call.reqBlocks using List.reverseRecOn with
  | nil => rfl
  | append_singleton hs h ih =>
    simp only [List.foldl_append, List.foldl_cons, List.foldl_nil]
    generalize hn : List.foldl _ _ hs = n' at ih ⊢
    cases mark.1 <;> (simp only [stamp]; rw [ih])

omit [Scalar K] in
private theorem mem_foldl_stamp (prio : Option ℤ) (expiry : WithTop K)
    (reqBlocks : List BlockHash) (n : Node K) (h : BlockHash) :
    h ∈ (reqBlocks.foldl (stamp prio expiry) n).cache ↔ h ∈ reqBlocks ∨ h ∈ n.cache := by
  induction reqBlocks generalizing n with
  | nil => simp
  | cons b rest ih =>
    have hstamp : h ∈ (stamp prio expiry n b).cache ↔ h = b ∨ h ∈ n.cache := by
      rw [AList.mem_keys, keys_stamp, List.mem_append, List.mem_singleton,
        n.cache.keys_nodup.mem_erase_iff, AList.mem_keys]
      tauto
    rw [List.foldl_cons, ih, hstamp, List.mem_cons]
    tauto

theorem mem_insertBlocks {n : Node K} {call : AdmitCall K} {h : BlockHash} :
    h ∈ (n.insertBlocks call).cache ↔ h ∈ call.reqBlocks ∨ h ∈ n.cache :=
  mem_foldl_stamp _ _ _ _ _

/-- Two states of one server that differ at most in what is cached. -/
structure SameServer (n n' : Node K) : Prop where
  nodeId : n'.nodeId = n.nodeId
  busyUntil : n'.busyUntil = n.busyUntil
  atIndex : n'.atIndex = n.atIndex
  cacheCapacity : n'.cacheCapacity = n.cacheCapacity
  eviction : n'.eviction = n.eviction

omit [Scalar K] in
theorem SameServer.refl (n : Node K) : SameServer n n := ⟨rfl, rfl, rfl, rfl, rfl⟩

omit [Scalar K] in
theorem SameServer.trans {a b c : Node K} (hab : SameServer a b) (hbc : SameServer b c) :
    SameServer a c :=
  ⟨hbc.nodeId.trans hab.nodeId, hbc.busyUntil.trans hab.busyUntil,
    hbc.atIndex.trans hab.atIndex, hbc.cacheCapacity.trans hab.cacheCapacity,
    hbc.eviction.trans hab.eviction⟩

theorem pickVictim_after (n : Node K) (now : K) :
    ∃ pressure : ℕ, (n.pickVictim now).2 =
      { n with pinnedEvictions := n.pinnedEvictions + pressure } := by
  unfold pickVictim
  split
  · split_ifs
    · exact ⟨0, rfl⟩
    · unfold scanVictim
      dsimp only
      split
      · exact ⟨0, rfl⟩
      · exact ⟨0, rfl⟩
      · exact ⟨1, rfl⟩
      · exact ⟨0, rfl⟩
  · exact ⟨0, rfl⟩

/-- All that one eviction can do: it drops the picked block, if there is one,
from the three tables, and may count it as pressure. -/
theorem evictOne_cases (n : Node K) (now : K) :
    ∃ pressure : ℕ,
      ((n.pickVictim now).1 = none ∧
        n.evictOne now = { n with pinnedEvictions := n.pinnedEvictions + pressure }) ∨
      ∃ victim, (n.pickVictim now).1 = some victim ∧ n.evictOne now = { n with
        cache := n.cache.erase victim
        priority := n.priority.erase victim
        expiry := n.expiry.erase victim
        pinnedEvictions := n.pinnedEvictions + pressure } := by
  obtain ⟨pressure, hafter⟩ := n.pickVictim_after now
  refine ⟨pressure, ?_⟩
  unfold evictOne
  cases hpick : n.pickVictim now with
  | mk found after =>
    rw [hpick] at hafter
    obtain rfl : after = { n with pinnedEvictions := n.pinnedEvictions + pressure } := hafter
    cases found with
    | none => exact Or.inl ⟨rfl, rfl⟩
    | some victim => exact Or.inr ⟨victim, rfl, rfl⟩

theorem evictOne_sameServer (n : Node K) (now : K) : SameServer n (n.evictOne now) := by
  obtain ⟨pressure, ⟨-, heq⟩ | ⟨victim, -, heq⟩⟩ := n.evictOne_cases now
  · rw [heq]
    exact ⟨rfl, rfl, rfl, rfl, rfl⟩
  · rw [heq]
    exact ⟨rfl, rfl, rfl, rfl, rfl⟩

/-- What every eviction preserves holds when the loop has stopped. -/
theorem evictWhile_preserves {now : K} (P : Node K → Prop) (hstep : ∀ m, P m → P (m.evictOne now))
    {fuel : ℕ} {n n' : Node K} (hn : P n) (hrun : n.evictWhile now fuel = some n') : P n' := by
  induction fuel generalizing n with
  | zero =>
    unfold evictWhile at hrun
    split_ifs at hrun
    exact Option.some.inj hrun ▸ hn
  | succ fuel ih =>
    unfold evictWhile at hrun
    split_ifs at hrun
    · exact ih (hstep n hn) hrun
    · exact Option.some.inj hrun ▸ hn

theorem evictWhile_sameServer {now : K} {fuel : ℕ} {n n' : Node K}
    (h : n.evictWhile now fuel = some n') : SameServer n n' :=
  evictWhile_preserves (SameServer n) (fun m hm => hm.trans (m.evictOne_sameServer now))
    (SameServer.refl n) h

/-- The loop rule: when each eviction over capacity keeps the invariant and
drops one block, the loop stops with the invariant and as many blocks as fit. -/
theorem evictWhile_rule {now : K} (Inv : Node K → Prop)
    (hstep : ∀ m, Inv m → m.cacheCapacity < m.cache.len → m.cache.keys ≠ [] →
      Inv (m.evictOne now) ∧ (m.evictOne now).cache.len + 1 = m.cache.len)
    {fuel : ℕ} {n : Node K} (hn : Inv n) (hcap : 0 ≤ n.cacheCapacity)
    (hfuel : n.cache.len ≤ fuel) :
    ∃ n', n.evictWhile now fuel = some n' ∧ Inv n' ∧
      n'.cache.len = min n.cache.len n.cacheCapacity.toNat := by
  induction fuel generalizing n with
  | zero =>
    refine ⟨n, ?_, hn, by omega⟩
    unfold evictWhile
    rw [if_neg (by omega)]
  | succ fuel ih =>
    by_cases hover : n.cacheCapacity < n.cache.len
    · have hne : n.cache.keys ≠ [] := by
        intro hnil
        have hlen : n.cache.len = 0 := by simp [OrderedDict.len, hnil]
        omega
      obtain ⟨hinv, hlen⟩ := hstep n hn hover hne
      have hsame := (n.evictOne_sameServer now).cacheCapacity
      obtain ⟨n', hrun, hinv', hfit⟩ := ih hinv (by rw [hsame]; exact hcap) (by omega)
      refine ⟨n', ?_, hinv', ?_⟩
      · unfold evictWhile
        rw [if_pos hover]
        exact hrun
      · rw [hfit, hsame]
        omega
    · refine ⟨n, ?_, hn, by omega⟩
      unfold evictWhile
      rw [if_neg hover]

/-- A request advances the queue by its service time; identity, capacity and
eviction strategy stay. -/
theorem admitRequest_sameServer {n n' : Node K} {call : AdmitCall K}
    (h : n.admitRequest call = some n') :
    SameServer { n with
      atIndex := call.atIndex
      busyUntil := max call.now n.busyUntil + call.serviceTime } n' := by
  have hevict := evictWhile_sameServer h
  rw [insertBlocks_frame] at hevict
  exact ⟨hevict.1, hevict.2, hevict.3, hevict.4, hevict.5⟩

end Node

end SchedLm.Sim
