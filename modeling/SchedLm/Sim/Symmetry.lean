import SchedLm.Sim.Alike
import SchedLm.Sim.EngineRun

/-!
Symmetries of the simulator. Block hashes and conversation ids are compared for
equality only, and times only with one another. So a stream whose blocks and
conversations are renamed one to one, and whose arrivals are all moved by the
same amount, is served exactly like the original.
-/

namespace SchedLm.Sim

open Runs

variable {K : Type} [Scalar K]

/-- Which new name goes with which old one, for blocks and for conversations, and how
far the clock is moved. Names go together one to one, but not every name has a partner.
-/
structure Symmetry (K : Type) where
  block : BlockHash → BlockHash → Prop
  block_biUnique : Relator.BiUnique block
  conversation : ℤ → ℤ → Prop
  conversation_biUnique : Relator.BiUnique conversation
  shift : K

/-- The longest cached run keeps its length under new names. -/
theorem matchedPrefix_renamed {name : BlockHash → BlockHash → Prop}
    {blocks blocks' : List BlockHash}
    (hblocks : List.Forall₂ name blocks blocks') {cached cached' : BlockHash → Bool}
    (hcached : ∀ h h', name h h' → cached' h' = cached h) :
    matchedPrefix blocks' cached' = matchedPrefix blocks cached := by
  induction hblocks with
  | nil => rfl
  | cons hname _ ih => rw [matchedPrefix, matchedPrefix, hcached _ _ hname, ih]

namespace Symmetry

variable (σ : Symmetry K)

/-- A time of the future is moved along; no time at all stays zero. -/
def Until (t t' : WithTop K) : Prop :=
  t' = t + (σ.shift : WithTop K) ∨ t = ((0 : K) : WithTop K) ∧ t' = ((0 : K) : WithTop K)

/-- One moment on both clocks. When they differ, neither is before zero, where
unused queues and absent directives stand. -/
structure Clock (now now' : K) : Prop where
  shift : now' = now + σ.shift
  started : σ.shift = 0 ∨ 0 ≤ now ∧ 0 ≤ now'

/-- Both nodes evict by recency, or both by the same uses under new names. -/
inductive SameEviction : Eviction → Eviction → Prop where
  | lru : SameEviction .lru .lru
  | belady {uses uses' : Dict BlockHash (List ℕ)} (h : OrderedDict.Alike σ.block Eq uses uses') :
    SameEviction (.belady uses) (.belady uses')

/-- One node under the symmetry, with its tables renamed entry by entry and its times
moved along. A queue that was never used is still at zero on both sides. -/
structure SameNode (n n' : Node K) : Prop where
  nodeId : n'.nodeId = n.nodeId
  busyUntil : n'.busyUntil = n.busyUntil + σ.shift ∨ n.busyUntil = 0 ∧ n'.busyUntil = 0
  cache : OrderedDict.Alike σ.block Eq n.cache n'.cache
  priority : OrderedDict.Alike σ.block Eq n.priority n'.priority
  expiry : OrderedDict.Alike σ.block (fun t t' => t' = t + (σ.shift : WithTop K)) n.expiry n'.expiry
  pinnedEvictions : n'.pinnedEvictions = n.pinnedEvictions
  atIndex : n'.atIndex = n.atIndex
  cacheCapacity : n'.cacheCapacity = n.cacheCapacity
  eviction : σ.SameEviction n.eviction n'.eviction

structure SameCall (call call' : AdmitCall K) : Prop where
  now : σ.Clock call.now call'.now
  serviceTime : call'.serviceTime = call.serviceTime
  reqBlocks : List.Forall₂ σ.block call.reqBlocks call'.reqBlocks
  retainUntil : σ.Until call.retainUntil call'.retainUntil
  atIndex : call'.atIndex = call.atIndex
  priority : call'.priority = call.priority

/-- One request under the symmetry. Its tokens are not looked at. -/
structure SameRequest (req req' : TurnRequest K) : Prop where
  arrival : σ.Clock req.arrival req'.arrival
  blockHashes : List.Forall₂ σ.block req.blockHashes req'.blockHashes
  genTokens : req'.genTokens = req.genTokens
  messages : req'.messages = req.messages
  kind : req'.kind = req.kind
  conversationId : Option.Rel σ.conversation req.conversationId req'.conversationId
  toolName : req'.toolName = req.toolName

end Symmetry

namespace Symmetry

variable {σ : Symmetry K}

section Time

variable {now now' : K} (hnow : σ.Clock now now')

include hnow

theorem Clock.coe : (now' : WithTop K) = (now : WithTop K) + (σ.shift : WithTop K) := by
  rw [hnow.shift, WithTop.coe_add]

/-- A moment is in the future of the one clock when it is in the other's. -/
theorem Until.lt_iff {t t' : WithTop K} (h : σ.Until t t') :
    (now' : WithTop K) < t' ↔ (now : WithTop K) < t := by
  rcases h with rfl | ⟨rfl, rfl⟩
  · rw [hnow.coe]
    exact WithTop.add_lt_add_iff_right WithTop.coe_ne_top
  · rw [WithTop.coe_lt_coe, WithTop.coe_lt_coe]
    rcases hnow.started with hzero | ⟨hnonneg, hnonneg'⟩
    · rw [hnow.shift, hzero, add_zero]
    · exact iff_of_false hnonneg'.not_gt hnonneg.not_gt

theorem Until.moved {t t' : WithTop K} (h : σ.Until t t') (hlive : (now : WithTop K) < t) :
    t' = t + (σ.shift : WithTop K) := by
  rcases h with hmoved | ⟨rfl, rfl⟩
  · exact hmoved
  · rcases hnow.started with hzero | ⟨hnonneg, -⟩
    · rw [hzero, WithTop.coe_zero, add_zero]
    · exact absurd (WithTop.coe_lt_coe.mp hlive) hnonneg.not_gt

theorem SameNode.wait {n n' : Node K} (hn : σ.SameNode n n') : n'.wait now' = n.wait now := by
  unfold Node.wait
  rcases hn.busyUntil with hbusy | ⟨hbusy, hbusy'⟩
  · rw [hbusy, hnow.shift, add_sub_add_right_eq_sub]
  · rw [hbusy, hbusy']
    rcases hnow.started with hzero | ⟨hnonneg, hnonneg'⟩
    · rw [hnow.shift, hzero, add_zero]
    · rw [max_eq_left (sub_nonpos.mpr hnonneg'), max_eq_left (sub_nonpos.mpr hnonneg)]

theorem SameNode.start {n n' : Node K} (hn : σ.SameNode n n') :
    max now' n'.busyUntil = max now n.busyUntil + σ.shift := by
  rcases hn.busyUntil with hbusy | ⟨hbusy, hbusy'⟩
  · rw [hbusy, hnow.shift, max_add_add_right]
  · rw [hbusy, hbusy']
    rcases hnow.started with hzero | ⟨hnonneg, hnonneg'⟩
    · rw [hnow.shift, hzero, add_zero, add_zero]
    · rw [max_eq_left hnonneg, max_eq_left hnonneg', hnow.shift]

theorem SameNode.alike {n n' : Node K} (hn : σ.SameNode n n') {blocks blocks' : List BlockHash}
    (hblocks : List.Forall₂ σ.block blocks blocks') : n.Matching blocks blocks' now now' n' := by
  refine ⟨hn.nodeId, hn.wait hnow, matchedPrefix_renamed hblocks ?_⟩
  intro h h' hname
  rw [decide_eq_decide, hn.cache.mem_iff σ.block_biUnique hname]

end Time

section Insert

theorem directive_same {now now' : K} (hnow : σ.Clock now now') {t t' : WithTop K}
    (ht : σ.Until t t') (priority : Option ℤ) :
    (Node.directive now' t' priority).1 = (Node.directive now t priority).1 ∧
      ((Node.directive now t priority).1 ≠ none → (Node.directive now' t' priority).2 =
        (Node.directive now t priority).2 + (σ.shift : WithTop K)) := by
  have hlt := ht.lt_iff hnow
  unfold Node.directive
  cases priority with
  | none =>
    simp only [hlt]
    split_ifs with h
    · exact ⟨rfl, fun _ => ht.moved hnow h⟩
    · exact ⟨rfl, fun h => absurd rfl h⟩
  | some prio =>
    simp only [hlt]
    split_ifs with h
    · exact ⟨trivial, fun _ => ht.moved hnow h⟩
    · exact ⟨trivial, fun _ => (top_add _).symm⟩

theorem SameNode.stamp {prio : Option ℤ} {t t' : WithTop K}
    (ht : prio ≠ none → t' = t + (σ.shift : WithTop K)) {n n' : Node K} (hn : σ.SameNode n n')
    {h h' : BlockHash} (hname : σ.block h h') :
    σ.SameNode (Node.stamp prio t n h) (Node.stamp prio t' n' h') := by
  have hcache : OrderedDict.Alike σ.block Eq (OrderedDict.setItem (n.cache.erase h) h ())
      (OrderedDict.setItem (n'.cache.erase h') h' ()) := by
    rw [OrderedDict.setItem_erase, OrderedDict.setItem_erase]
    exact hn.cache.pushEnd σ.block_biUnique hname rfl
  cases prio with
  | none => exact { hn with
      cache := hcache
      priority := hn.priority.erase σ.block_biUnique hname
      expiry := hn.expiry.erase σ.block_biUnique hname }
  | some p => exact { hn with
      cache := hcache
      priority := hn.priority.insert σ.block_biUnique hname rfl
      expiry := hn.expiry.insert σ.block_biUnique hname (ht (Option.some_ne_none p)) }

theorem SameNode.insertBlocks {n n' : Node K} (hn : σ.SameNode n n') {call call' : AdmitCall K}
    (hcall : σ.SameCall call call') : σ.SameNode (n.insertBlocks call) (n'.insertBlocks call') := by
  obtain ⟨hprio, hexpiry⟩ := directive_same hcall.now hcall.retainUntil call.priority
  unfold Node.insertBlocks
  dsimp only
  rw [hcall.priority, hprio]
  refine List.rel_foldl (R := σ.block) (P := σ.SameNode) ?_ ?_ hcall.reqBlocks
  · intro m m' hm h h' hname
    exact hm.stamp hexpiry hname
  · exact { hn with
      atIndex := hcall.atIndex
      busyUntil := Or.inl (by
        dsimp only
        rw [hn.start hcall.now, hcall.serviceTime]
        ring) }

end Insert

section Evict

variable (σ) in
/-- The loop state of the victim scan under new names, its best key moved
along. -/
structure SameBuckets (b b' : Buckets K) : Prop where
  evictFirst : Option.Rel σ.block b.evictFirst b'.evictFirst
  unmarked : Option.Rel σ.block b.unmarked b'.unmarked
  marked : Option.Rel σ.block b.marked b'.marked
  markedKey : Option.Rel (fun k k' => k' = toLex ((ofLex k).1, (ofLex k).2 +
    (σ.shift : WithTop K))) b.markedKey b'.markedKey

omit [Scalar K] in
private theorem isNone_eq {α β : Type} {R : α → β → Prop} {x : Option α} {y : Option β}
    (h : Option.Rel R x y) : y.isNone = x.isNone := by
  cases h <;> rfl

private theorem key_lt_iff (p q : ℤ) (t u : WithTop K) :
    toLex (p, t + (σ.shift : WithTop K)) < toLex (q, u + (σ.shift : WithTop K)) ↔
      toLex (p, t) < toLex (q, u) := by
  rw [Prod.Lex.toLex_lt_toLex, Prod.Lex.toLex_lt_toLex]
  dsimp only
  rw [WithTop.add_lt_add_iff_right WithTop.coe_ne_top]

variable {n n' : Node K} (hn : σ.SameNode n n') {now now' : K} (hnow : σ.Clock now now')

include hn

include hnow in
theorem SameNode.scanBlock {b b' : Buckets K} (hb : σ.SameBuckets b b') {h h' : BlockHash}
    (hname : σ.block h h') : σ.SameBuckets (n.scanBlock now b h) (n'.scanBlock now' b' h') := by
  have hprio := hn.priority.lookup σ.block_biUnique hname
  have hexpiry := hn.expiry.lookup σ.block_biUnique hname
  have hfirst : σ.SameBuckets
      (if b.unmarked.isNone then { b with unmarked := some h } else b)
      (if b'.unmarked.isNone then { b' with unmarked := some h' } else b') := by
    rw [isNone_eq hb.unmarked]
    split_ifs
    · exact { hb with unmarked := .some hname }
    · exact hb
  have huntil : σ.Until ((n.expiry.lookup h).getD ((0 : K) : WithTop K))
      ((n'.expiry.lookup h').getD ((0 : K) : WithTop K)) := by
    generalize n.expiry.lookup h = found at hexpiry ⊢
    generalize n'.expiry.lookup h' = found' at hexpiry ⊢
    cases hexpiry with
    | none => exact Or.inr ⟨rfl, rfl⟩
    | some hmoved => exact Or.inl hmoved
  unfold Node.scanBlock
  dsimp only
  generalize n.priority.lookup h = prio at hprio ⊢
  generalize n'.priority.lookup h' = prio' at hprio ⊢
  generalize (n.expiry.lookup h).getD ((0 : K) : WithTop K) = t at huntil ⊢
  generalize (n'.expiry.lookup h').getD ((0 : K) : WithTop K) = t' at huntil ⊢
  cases hprio with
  | none => exact hfirst
  | @some prio _ heq =>
    subst heq
    dsimp only
    by_cases hlive : (now : WithTop K) < t
    · have hlive' := (huntil.lt_iff hnow).mpr hlive
      rw [if_neg hlive.not_ge, if_neg hlive'.not_ge]
      obtain rfl : t' = t + (σ.shift : WithTop K) := huntil.moved hnow hlive
      by_cases hshed : prio < 0
      · rw [if_pos hshed, if_pos hshed, isNone_eq hb.evictFirst]
        split_ifs
        · exact { hb with evictFirst := .some hname }
        · exact hb
      · rw [if_neg hshed, if_neg hshed]
        obtain ⟨first, free, marked, key⟩ := b
        obtain ⟨first', free', marked', key'⟩ := b'
        have hkey := hb.markedKey
        dsimp only at hkey
        cases hkey with
        | none => exact { hb with marked := .some hname, markedKey := .some rfl }
        | @some key key' hmoved =>
          have hlt : toLex (prio, t + (σ.shift : WithTop K)) < key' ↔ toLex (prio, t) < key := by
            rw [hmoved]
            exact key_lt_iff prio (ofLex key).1 t (ofLex key).2
          dsimp only
          by_cases hbetter : toLex (prio, t) < key
          · rw [if_pos hbetter, if_pos (hlt.mpr hbetter)]
            exact { hb with marked := .some hname, markedKey := .some rfl }
          · rw [if_neg hbetter, if_neg fun h => hbetter (hlt.mp h)]
            exact hb
    · have hlive' := fun h => hlive ((huntil.lt_iff hnow).mp h)
      rw [if_pos (not_lt.mp hlive), if_pos (not_lt.mp hlive')]
      exact hfirst

/-- What one pick under the symmetry gives: the same victim under its new name. -/
def SamePick (pick pick' : Option BlockHash × Node K) : Prop :=
  Option.Rel σ.block pick.1 pick'.1 ∧ σ.SameNode pick.2 pick'.2

include hnow in
theorem SameNode.scanVictim : σ.SamePick (n.scanVictim now) (n'.scanVictim now') := by
  have hbuckets : σ.SameBuckets (n.cache.keys.foldl (n.scanBlock now) {})
      (n'.cache.keys.foldl (n'.scanBlock now') {}) :=
    List.rel_foldl (R := σ.block) (P := σ.SameBuckets)
      (fun _ _ hb _ _ hname => hn.scanBlock hnow hb hname) ⟨.none, .none, .none, .none⟩
      hn.cache.keys
  unfold Node.scanVictim
  dsimp only
  generalize n.cache.keys.foldl (n.scanBlock now) {} = b at hbuckets ⊢
  generalize n'.cache.keys.foldl (n'.scanBlock now') {} = b' at hbuckets ⊢
  obtain ⟨first, free, marked, key⟩ := b
  obtain ⟨first', free', marked', key'⟩ := b'
  obtain ⟨hfirst, hfree, hmarked, -⟩ := hbuckets
  dsimp only at hfirst hfree hmarked
  cases hfirst with
  | some hname => exact ⟨.some hname, hn⟩
  | none =>
    cases hfree with
    | some hname => exact ⟨.some hname, hn⟩
    | none =>
      cases hmarked with
      | some hname =>
        exact ⟨.some hname, { hn with pinnedEvictions := congrArg (· + 1) hn.pinnedEvictions }⟩
      | none => exact ⟨.none, hn⟩

omit hn [Scalar K] in
/-- The lookahead scan asks each block for its next use only. -/
theorem furthestNext_same {next next' : BlockHash → Option ℕ}
    (hnext : ∀ h h', σ.block h h' → next' h' = next h) {blocks blocks' : List BlockHash}
    (hblocks : List.Forall₂ σ.block blocks blocks') {victim victim' : Option BlockHash}
    (hvictim : Option.Rel σ.block victim victim') (victimNext : ℤ) :
    Option.Rel σ.block (Node.furthestNext next victim victimNext blocks)
      (Node.furthestNext next' victim' victimNext blocks') := by
  induction hblocks generalizing victim victim' victimNext with
  | nil => exact hvictim
  | @cons h h' rest rest' hname _ ih =>
    unfold Node.furthestNext
    rw [hnext h h' hname]
    cases next h with
    | none => exact .some hname
    | some nu =>
      dsimp only
      split_ifs
      · exact ih (.some hname) _
      · exact ih hvictim _

omit hn [Scalar K] in
theorem nextUse_same {uses uses' : Dict BlockHash (List ℕ)}
    (huses : OrderedDict.Alike σ.block Eq uses uses') (atIndex : ℕ) {h h' : BlockHash}
    (hname : σ.block h h') : Node.nextUse uses' atIndex h' = Node.nextUse uses atIndex h := by
  have hlookup := huses.lookup σ.block_biUnique hname
  unfold Node.nextUse
  generalize uses.lookup h = found at hlookup ⊢
  generalize uses'.lookup h' = found' at hlookup ⊢
  cases hlookup with
  | none => rfl
  | some heq => rw [heq]

include hnow in
theorem SameNode.pickVictim : σ.SamePick (n.pickVictim now) (n'.pickVictim now') := by
  have heviction := hn.eviction
  unfold Node.pickVictim
  generalize n.eviction = eviction at heviction ⊢
  generalize n'.eviction = eviction' at heviction ⊢
  cases heviction with
  | lru =>
    have hempty : n'.priority.keys.isEmpty = n.priority.keys.isEmpty := by
      rw [Bool.eq_iff_iff, List.isEmpty_iff_length_eq_zero, List.isEmpty_iff_length_eq_zero,
        hn.priority.keys.length_eq]
    have holdest : Option.Rel σ.block n.cache.keys.head? n'.cache.keys.head? := by
      have hkeys := hn.cache.keys
      generalize n.cache.keys = keys at hkeys ⊢
      generalize n'.cache.keys = keys' at hkeys ⊢
      cases hkeys with
      | nil => exact .none
      | cons hname _ => exact .some hname
    dsimp only
    rw [hempty]
    split_ifs
    · exact ⟨holdest, hn⟩
    · exact hn.scanVictim hnow
  | belady huses =>
    refine ⟨?_, hn⟩
    dsimp only
    rw [hn.atIndex]
    exact furthestNext_same (fun _ _ hname => nextUse_same huses _ hname) hn.cache.keys .none _

include hnow in
theorem SameNode.evictOne : σ.SameNode (n.evictOne now) (n'.evictOne now') := by
  obtain ⟨hvictim, hafter⟩ := hn.pickVictim hnow
  unfold Node.evictOne
  generalize n.pickVictim now = pick at hvictim hafter ⊢
  generalize n'.pickVictim now' = pick' at hvictim hafter ⊢
  obtain ⟨victim, after⟩ := pick
  obtain ⟨victim', after'⟩ := pick'
  dsimp only at hvictim hafter
  cases hvictim with
  | none => exact hafter
  | some hname => exact { hafter with
      cache := hafter.cache.erase σ.block_biUnique hname
      priority := hafter.priority.erase σ.block_biUnique hname
      expiry := hafter.expiry.erase σ.block_biUnique hname }

omit hn in
include hnow in
theorem evictWhile_same {n n' : Node K} (hn : σ.SameNode n n') (fuel : ℕ) :
    Option.Rel σ.SameNode (n.evictWhile now fuel) (n'.evictWhile now' fuel) := by
  induction fuel generalizing n n' with
  | zero =>
    unfold Node.evictWhile
    rw [hn.cacheCapacity, hn.cache.len]
    split_ifs
    · exact .none
    · exact .some hn
  | succ fuel ih =>
    unfold Node.evictWhile
    rw [hn.cacheCapacity, hn.cache.len]
    split_ifs
    · exact ih (hn.evictOne hnow)
    · exact .some hn

/-- Serving a request under the symmetry: the two nodes evict corresponding blocks and
end up corresponding, or neither of them gets through. -/
theorem SameNode.admitRequest {call call' : AdmitCall K} (hcall : σ.SameCall call call') :
    Option.Rel σ.SameNode (n.admitRequest call) (n'.admitRequest call') := by
  have hinserted := hn.insertBlocks hcall
  unfold Node.admitRequest
  dsimp only
  rw [hinserted.cache.len]
  exact evictWhile_same hcall.now hinserted _

end Evict

end Symmetry

end SchedLm.Sim
