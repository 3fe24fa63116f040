import SchedLm.Library.Paging
import SchedLm.Sim.Engine
import SchedLm.Sim.Eviction

/-!
Lookahead eviction. The table of future uses answers when a block is next
requested, the victim scan finds a block whose next use is furthest, and so one
node fed a whole stream is an optimal pager. Both eviction strategies share the
shape of the loop; they differ in what is known about the victim.
-/

namespace SchedLm.Sim

open Paging

variable {K : Type}

section FutureUses

/-- The positions, from `start` on, of the requests that use a block, once for
each time a request lists it. -/
def usesOf (h : BlockHash) : ℕ → List (TurnRequest K) → List ℕ
  | _, [] => []
  | start, req :: rest =>
    List.replicate (req.blockHashes.count h) start ++ usesOf h (start + 1) rest

private theorem lookup_foldl_recordUse (idx : ℕ) (h : BlockHash) (blocks : List BlockHash)
    (uses : Dict BlockHash (List ℕ)) :
    ((blocks.foldl (recordUse idx) uses).lookup h).getD [] =
      (uses.lookup h).getD [] ++ List.replicate (blocks.count h) idx := by
  induction blocks generalizing uses with
  | nil => simp
  | cons b rest ih =>
    rw [List.foldl_cons, ih]
    rcases eq_or_ne h b with rfl | hne
    · simp [recordUse, List.replicate_succ]
    · simp [recordUse, AList.lookup_insert_ne hne, List.count_cons_of_ne hne.symm]

/-- The engine's table lists exactly the positions of a block's uses, in order and once
for each time a request lists it. -/
theorem lookup_buildFutureUses (requests : List (TurnRequest K)) (h : BlockHash) :
    ((buildFutureUses requests).lookup h).getD [] = usesOf h 0 requests := by
  have hgo : ∀ (rest : List (TurnRequest K)) (start : ℕ) (uses : Dict BlockHash (List ℕ)),
      (((rest.zipIdx start).foldl
        (fun uses entry => entry.1.blockHashes.foldl (recordUse entry.2) uses) uses).lookup
          h).getD [] = (uses.lookup h).getD [] ++ usesOf h start rest := by
    intro rest
    induction rest with
    | nil => simp [usesOf]
    | cons req rest ih =>
      intro start uses
      rw [List.zipIdx_cons, List.foldl_cons, ih, lookup_foldl_recordUse, usesOf,
        List.append_assoc]
  have hall := hgo requests 0 ∅
  simpa [buildFutureUses] using hall

theorem mem_usesOf {h : BlockHash} {start i : ℕ} {requests : List (TurnRequest K)} :
    i ∈ usesOf h start requests ↔
      start ≤ i ∧ ∃ req, requests[i - start]? = some req ∧ h ∈ req.blockHashes := by
  induction requests generalizing start with
  | nil => simp [usesOf]
  | cons req rest ih =>
    rw [usesOf, List.mem_append, List.mem_replicate, ih, Ne, List.count_eq_zero,
      not_not]
    constructor
    · rintro (⟨hmem, rfl⟩ | ⟨hle, hrest⟩)
      · exact ⟨le_rfl, req, by simp, hmem⟩
      · refine ⟨by omega, ?_⟩
        rwa [show i - start = i - (start + 1) + 1 by omega, List.getElem?_cons_succ]
    · rintro ⟨hle, hreq⟩
      rcases hle.eq_or_lt with rfl | hlt
      · rw [Nat.sub_self] at hreq
        obtain ⟨_, ⟨⟩, hmem⟩ := hreq
        exact Or.inl ⟨hmem, rfl⟩
      · rw [show i - start = i - (start + 1) + 1 by omega, List.getElem?_cons_succ] at hreq
        exact Or.inr ⟨hlt, hreq⟩

theorem pairwise_usesOf (h : BlockHash) (start : ℕ) (requests : List (TurnRequest K)) :
    (usesOf h start requests).Pairwise (· ≤ ·) := by
  induction requests generalizing start with
  | nil => exact List.Pairwise.nil
  | cons req rest ih =>
    rw [usesOf, List.pairwise_append]
    refine ⟨List.pairwise_replicate.mpr (Or.inr le_rfl), ih (start + 1), ?_⟩
    intro a ha b hb
    obtain ⟨-, rfl⟩ := List.mem_replicate.mp ha
    have hb := (mem_usesOf.mp hb).1
    omega

def blocksAt (requests : List (TurnRequest K)) (i : ℕ) : Finset BlockHash :=
  ((requests[i]?.map TurnRequest.blockHashes).getD []).toFinset

theorem mem_blocksAt {requests : List (TurnRequest K)} {i : ℕ} {h : BlockHash} :
    h ∈ blocksAt requests i ↔ ∃ req, requests[i]? = some req ∧ h ∈ req.blockHashes := by
  unfold blocksAt
  cases requests[i]? <;> simp

/-- The next use the node computes is the first request after `i` that lists
the block. -/
theorem usedBetween_iff_nextUse {requests : List (TurnRequest K)} {i d : ℕ} {h : BlockHash} :
    UsedBetween (blocksAt requests) (i + 1) d h ↔
      ∃ nu, Node.nextUse (buildFutureUses requests) i h = some nu ∧ nu < d := by
  have hfind : Node.nextUse (buildFutureUses requests) i h =
      (usesOf h 0 requests).find? (fun y => i < y) := by
    rw [← Bisect.getElem?_bisectRight _ _ (pairwise_usesOf h 0 requests),
      ← lookup_buildFutureUses]
    unfold Node.nextUse
    cases (buildFutureUses requests).lookup h with
    | none => rfl
    | some uses =>
      simp only [Option.getD_some]
      split_ifs with hlen
      · exact (List.getElem?_eq_none hlen).symm
      · rfl
  have hmem : ∀ j, j ∈ usesOf h 0 requests ↔ h ∈ blocksAt requests j := by
    intro j
    rw [mem_usesOf, mem_blocksAt, Nat.sub_zero]
    simp
  rw [hfind]
  constructor
  · rintro ⟨j, hij, hjd, hj⟩
    cases hfirst : (usesOf h 0 requests).find? (fun y => i < y) with
    | none =>
      have hnone := List.find?_eq_none.mp hfirst j ((hmem j).mpr hj)
      simp only [decide_eq_true_eq] at hnone
      omega
    | some nu =>
      refine ⟨nu, rfl, ?_⟩
      obtain ⟨-, before, after, hsplit, hbefore⟩ := List.find?_eq_some_iff_append.mp hfirst
      have hsorted := pairwise_usesOf h 0 requests
      have hj' := (hmem j).mpr hj
      rw [hsplit] at hsorted hj'
      rcases List.mem_append.mp hj' with hin | hin
      · have hlow := hbefore j hin
        simp only [Bool.not_eq_true', decide_eq_false_iff_not] at hlow
        omega
      · rcases List.mem_cons.mp hin with rfl | hin
        · exact hjd
        · have hle := (List.pairwise_cons.mp (List.pairwise_append.mp hsorted).2.1).1 j hin
          omega
  · rintro ⟨nu, hfirst, hlt⟩
    refine ⟨nu, ?_, hlt, (hmem nu).mp (List.mem_of_find?_eq_some hfirst)⟩
    have hnu := List.find?_some hfirst
    simpa using hnu

end FutureUses

namespace Node

def NoLater (next : BlockHash → Option ℕ) (a b : BlockHash) : Prop :=
  ∀ nb, next b = some nb → ∃ na ≤ nb, next a = some na

theorem NoLater.trans {next : BlockHash → Option ℕ} {a b c : BlockHash}
    (hab : NoLater next a b) (hbc : NoLater next b c) : NoLater next a c := by
  intro nc hc
  obtain ⟨nb, hle, hb⟩ := hbc nc hc
  obtain ⟨na, hle', ha⟩ := hab nb hb
  exact ⟨na, hle'.trans hle, ha⟩

/-- What the lookahead scan carries: nothing yet, or a block and its next use. -/
def ScanState (next : BlockHash → Option ℕ) (victim : Option BlockHash) (victimNext : ℤ) :
    Prop :=
  (victim = none ∧ victimNext = -1) ∨
    ∃ v nv, victim = some v ∧ next v = some nv ∧ victimNext = (nv : ℤ)

/-- The scan returns a block no block seen is used later than, and returns
nothing only when there was none. -/
theorem furthestNext_spec (next : BlockHash → Option ℕ) (blocks : List BlockHash)
    (victim : Option BlockHash) (victimNext : ℤ) (hstate : ScanState next victim victimNext) :
    (furthestNext next victim victimNext blocks = none → blocks = [] ∧ victim = none) ∧
    ∀ r, furthestNext next victim victimNext blocks = some r →
      (r ∈ blocks ∨ victim = some r) ∧ (∀ x ∈ blocks, NoLater next x r) ∧
        ∀ v, victim = some v → NoLater next v r := by
  induction blocks generalizing victim victimNext with
  | nil =>
    refine ⟨fun h => ⟨rfl, h⟩, fun r h => ⟨Or.inr h, by simp, ?_⟩⟩
    rintro v hv nb hb
    obtain rfl : v = r := Option.some.inj (hv.symm.trans h)
    exact ⟨nb, le_rfl, hb⟩
  | cons h rest ih =>
    rw [furthestNext]
    cases hnext : next h with
    | none =>
      refine ⟨fun hnone => by simp at hnone, ?_⟩
      rintro r ⟨⟩
      have hnever : ∀ x, NoLater next x h := fun x nb hb => by
        rw [hnext] at hb
        cases hb
      exact ⟨Or.inl List.mem_cons_self, fun x _ => hnever x, fun v _ => hnever v⟩
    | some nu =>
      dsimp only
      split_ifs with hfurther
      · obtain ⟨hnone, hspec⟩ := ih (some h) nu (Or.inr ⟨h, nu, rfl, hnext, rfl⟩)
        refine ⟨fun heq => by simpa using (hnone heq).2, fun r hr => ?_⟩
        obtain ⟨hmem, hrest, hself⟩ := hspec r hr
        have hhead : NoLater next h r := hself h rfl
        refine ⟨?_, ?_, ?_⟩
        · rcases hmem with hmem | heq
          · exact Or.inl (List.mem_cons_of_mem h hmem)
          · exact Or.inl (by simp [Option.some.inj heq])
        · intro x hx
          rcases List.mem_cons.mp hx with rfl | hx
          · exact hhead
          · exact hrest x hx
        · intro v hv
          rcases hstate with ⟨hvictim, -⟩ | ⟨w, nw, hw, hwnext, rfl⟩
          · rw [hvictim] at hv
            cases hv
          · obtain rfl : w = v := Option.some.inj (hw.symm.trans hv)
            refine NoLater.trans (fun nb hb => ?_) hhead
            rw [hnext, Option.some.injEq] at hb
            exact ⟨nw, by omega, hwnext⟩
      · obtain ⟨v, nv, hv, hvnext, hvictim⟩ :
            ∃ v nv, victim = some v ∧ next v = some nv ∧ victimNext = (nv : ℤ) := by
          rcases hstate with ⟨-, hstart⟩ | hfound
          · omega
          · exact hfound
        obtain ⟨hnone, hspec⟩ := ih victim victimNext (Or.inr ⟨v, nv, hv, hvnext, hvictim⟩)
        refine ⟨fun heq => ?_, fun r hr => ?_⟩
        · rw [(hnone heq).2] at hv
          cases hv
        · obtain ⟨hmem, hrest, hself⟩ := hspec r hr
          refine ⟨hmem.imp_left (List.mem_cons_of_mem h), ?_, hself⟩
          intro x hx
          rcases List.mem_cons.mp hx with rfl | hx
          · refine NoLater.trans (fun nb hb => ?_) (hself v hv)
            rw [hvnext, Option.some.injEq] at hb
            exact ⟨nu, by omega, hnext⟩
          · exact hrest x hx

variable [Scalar K]

theorem pickVictim_resident (n : Node K) (now : K) (hne : n.cache.keys ≠ []) :
    ∃ h ∈ n.cache.keys, (n.pickVictim now).1 = some h ∧
      ∀ uses, n.eviction = .belady uses →
        ∀ x ∈ n.cache.keys, NoLater (nextUse uses n.atIndex) x h := by
  cases hevict : n.eviction with
  | lru =>
    rw [pickVictim_lru n now hevict, scanVictim_eq]
    obtain ⟨m, hm⟩ := Option.ne_none_iff_exists'.mp
      (mt List.argmin_eq_none.mp hne : n.cache.keys.argmin (n.blockKey now) ≠ none)
    rw [hm]
    exact ⟨m, List.argmin_mem hm, rfl, fun uses h => by cases h⟩
  | belady uses =>
    obtain ⟨hnone, hspec⟩ := furthestNext_spec (nextUse uses n.atIndex) n.cache.keys none (-1)
      (Or.inl ⟨rfl, rfl⟩)
    unfold pickVictim
    rw [hevict]
    cases hscan : furthestNext (nextUse uses n.atIndex) none (-1) n.cache.keys with
    | none => exact absurd (hnone hscan).1 hne
    | some h =>
      obtain ⟨hmem, hall, -⟩ := hspec h hscan
      refine ⟨h, by simpa using hmem, hscan, ?_⟩
      rintro uses' ⟨⟩
      exact hall

/-- One eviction drops one resident from the three tables, and may count it as
pressure; under lookahead nothing left is next used later than it. -/
theorem evictOne_eq (n : Node K) (now : K) (hne : n.cache.keys ≠ []) :
    ∃ victim ∈ n.cache.keys, ∃ pressure : ℕ, n.evictOne now = { n with
        cache := n.cache.erase victim
        priority := n.priority.erase victim
        expiry := n.expiry.erase victim
        pinnedEvictions := n.pinnedEvictions + pressure } ∧
      ∀ uses, n.eviction = .belady uses → ∀ h ∈ n.cache.keys,
        NoLater (nextUse uses n.atIndex) h victim := by
  obtain ⟨victim, hmem, hpick, hfurthest⟩ := n.pickVictim_resident now hne
  obtain ⟨pressure, ⟨hnone, -⟩ | ⟨found, hfound, heq⟩⟩ := n.evictOne_cases now
  · rw [hpick] at hnone
    cases hnone
  · obtain rfl : victim = found := Option.some.inj (hpick.symm.trans hfound)
    exact ⟨victim, hmem, pressure, heq, hfurthest⟩

theorem len_evictOne (n : Node K) (now : K) (hne : n.cache.keys ≠ []) :
    (n.evictOne now).cache.len + 1 = n.cache.len := by
  obtain ⟨victim, hmem, pressure, heq, -⟩ := n.evictOne_eq now hne
  rw [heq, OrderedDict.len, OrderedDict.len, AList.keys_erase, List.length_erase_of_mem hmem]
  exact Nat.sub_add_cancel (List.length_pos_of_mem hmem)

/-- What the eviction loop has made of a node: residents only are left, and under
lookahead none of them is next used later than one that is gone. -/
structure Kept (n m : Node K) : Prop where
  same : SameServer n m
  sub : m.cache.keys ⊆ n.cache.keys
  order : ∀ uses, n.eviction = .belady uses → ∀ dropped ∈ n.cache.keys,
    dropped ∉ m.cache.keys → ∀ kept ∈ m.cache.keys, NoLater (nextUse uses n.atIndex) kept dropped

theorem Kept.evictOne {n m : Node K} (h : Kept n m) (now : K) (hne : m.cache.keys ≠ []) :
    Kept n (m.evictOne now) ∧ (m.evictOne now).cache.len + 1 = m.cache.len := by
  obtain ⟨victim, -, pressure, heq, hfurthest⟩ := m.evictOne_eq now hne
  have hkeys : (m.evictOne now).cache.keys = m.cache.keys.erase victim := by
    rw [heq, AList.keys_erase]
  have hback : (m.evictOne now).cache.keys ⊆ m.cache.keys := by
    rw [hkeys]
    exact List.erase_subset
  refine ⟨⟨h.same.trans (m.evictOne_sameServer now), fun b hb => h.sub (hback hb), ?_⟩,
    m.len_evictOne now hne⟩
  intro uses huses dropped hin hout kept hkept
  by_cases hthere : dropped ∈ m.cache.keys
  · -- the block that leaves now is the one the lookahead picked
    obtain rfl : dropped = victim := by
      by_contra hother
      exact hout (hkeys ▸ (List.mem_erase_of_ne hother).mpr hthere)
    have hlast := hfurthest uses (h.same.eviction.trans huses) kept (hback hkept)
    rwa [h.same.atIndex] at hlast
  · exact h.order uses huses dropped hin hthere kept (hback hkept)

/-- The eviction loop stops, keeps residents only and as many as fit; under
lookahead nothing kept is next used later than something dropped. -/
theorem evictWhile_fits (now : K) (fuel : ℕ) (n : Node K) (hcap : 0 ≤ n.cacheCapacity)
    (hfuel : n.cache.len ≤ fuel) :
    ∃ n', n.evictWhile now fuel = some n' ∧ Kept n n' ∧
      n'.cache.len = min n.cache.len n.cacheCapacity.toNat := by
  apply evictWhile_rule (Kept n) (fun m hm _ hne => hm.evictOne now hne) _ hcap hfuel
  exact ⟨SameServer.refl n, fun _ h => h, fun _ _ _ hin hout => absurd hin hout⟩

theorem admitRequest_fits (n : Node K) (call : AdmitCall K) (hcap : 0 ≤ n.cacheCapacity) :
    ∃ n', n.admitRequest call = some n' ∧
      (∀ h ∈ n'.cache, h ∈ call.reqBlocks ∨ h ∈ n.cache) ∧
      n'.cache.len ≤ n.cacheCapacity.toNat ∧
      ∀ dropped, dropped ∈ call.reqBlocks ∨ dropped ∈ n.cache → dropped ∉ n'.cache →
        n.cacheCapacity.toNat ≤ n'.cache.len ∧
        ∀ uses, n.eviction = .belady uses → ∀ kept ∈ n'.cache,
          NoLater (nextUse uses call.atIndex) kept dropped := by
  have hframe := n.insertBlocks_frame call
  have hcap' : (n.insertBlocks call).cacheCapacity = n.cacheCapacity := by rw [hframe]
  have hindex : (n.insertBlocks call).atIndex = call.atIndex := by rw [hframe]
  have hevict : (n.insertBlocks call).eviction = n.eviction := by rw [hframe]
  obtain ⟨n', hrun, ⟨-, hsub, horder⟩, hfit⟩ := evictWhile_fits call.now
    (n.insertBlocks call).cache.len (n.insertBlocks call) (by rw [hcap']; exact hcap) le_rfl
  rw [hcap'] at hfit
  refine ⟨n', hrun, ?_, by omega, ?_⟩
  · intro h hh
    exact mem_insertBlocks.mp (AList.mem_keys.mpr (hsub (AList.mem_keys.mp hh)))
  · intro dropped hin hout
    have hin' : dropped ∈ (n.insertBlocks call).cache.keys :=
      AList.mem_keys.mp (mem_insertBlocks.mpr hin)
    refine ⟨?_, fun uses huses kept hkept => ?_⟩
    · by_contra hroom
      -- a loop that ends below the capacity dropped nothing
      have hall : n'.cache.keys.Subperm (n.insertBlocks call).cache.keys :=
        n'.cache.keys_nodup.subperm hsub
      have hlen : (n.insertBlocks call).cache.keys.length ≤ n'.cache.keys.length := by
        unfold OrderedDict.len at hfit hroom
        omega
      have hperm := hall.perm_of_length_le hlen
      exact hout (AList.mem_keys.mpr (hperm.mem_iff.mpr hin'))
    · rw [← hindex]
      exact horder uses (hevict.trans huses) dropped hin' hout kept hkept

/-- The calls that feed a stream to one node: each request at its own position,
with any times and directives. -/
def streamCalls (requests : List (TurnRequest K)) (args : ℕ → AdmitCall K) :
    List (AdmitCall K) :=
  requests.mapIdx fun i req => { args i with reqBlocks := req.blockHashes, atIndex := i }

/-- What is resident just before the call at a position, read as the cache contents of a
replacement rule. -/
def cachesOf (n : Node K) (calls : List (AdmitCall K)) (i : ℕ) : Finset BlockHash :=
  match n.admitAll (calls.take i) with
  | some n' => n'.cache.keys.toFinset
  | none => ∅

/-- A node with room for no fewer than zero blocks serves every sequence. -/
theorem exists_admitAll_take {n : Node K} (calls : List (AdmitCall K))
    (hcap : 0 ≤ n.cacheCapacity) {i : ℕ} (hi : i ≤ calls.length) :
    ∃ n', n.admitAll (calls.take i) = some n' ∧ n'.cacheCapacity = n.cacheCapacity ∧
      n'.eviction = n.eviction := by
  induction i with
  | zero => exact ⟨n, by simp [admitAll], rfl, rfl⟩
  | succ i ih =>
    obtain ⟨before, hbefore, hcap', hevict⟩ := ih (by omega)
    obtain ⟨next, hnext, -⟩ := before.admitRequest_fits calls[i] (by rw [hcap']; exact hcap)
    have hsame := admitRequest_sameServer hnext
    refine ⟨next, ?_, hsame.cacheCapacity.trans hcap', hsame.eviction.trans hevict⟩
    rw [admitAll, List.take_succ_eq_append_getElem (by omega), List.foldlM_append]
    rw [admitAll] at hbefore
    simp [hbefore, hnext]

/-- One position of a stream: only residents and requested blocks are kept, no
more than fit, none is dropped while there is room, and under lookahead none
kept is next used later than one dropped. -/
theorem cachesOf_step (n : Node K) (requests : List (TurnRequest K)) (args : ℕ → AdmitCall K)
    (hcap : 0 ≤ n.cacheCapacity) {i : ℕ} (hi : i < requests.length) :
    let caches := cachesOf n (streamCalls requests args)
    caches (i + 1) ⊆ caches i ∪ blocksAt requests i ∧
    (caches (i + 1)).card ≤ n.cacheCapacity.toNat ∧
    ∀ dropped ∈ caches i ∪ blocksAt requests i, dropped ∉ caches (i + 1) →
      n.cacheCapacity.toNat ≤ (caches (i + 1)).card ∧
      ∀ uses, n.eviction = .belady uses → ∀ kept ∈ caches (i + 1),
        NoLater (nextUse uses i) kept dropped := by
  intro caches
  have hlen : (streamCalls requests args).length = requests.length := by simp [streamCalls]
  have hcall : (streamCalls requests args)[i]? =
      some { args i with reqBlocks := requests[i].blockHashes, atIndex := i } := by
    simp [streamCalls, hi]
  obtain ⟨before, hbefore, hcap', hevict⟩ :=
    exists_admitAll_take (streamCalls requests args) hcap (show i ≤ _ by omega)
  obtain ⟨after, hadmitted, hkeep, hfit, hlost⟩ := before.admitRequest_fits
    { args i with reqBlocks := requests[i].blockHashes, atIndex := i } (by rw [hcap']; exact hcap)
  have hafter : n.admitAll ((streamCalls requests args).take (i + 1)) = some after := by
    rw [admitAll, List.take_add_one, hcall, Option.toList_some, List.foldlM_append]
    rw [admitAll] at hbefore
    simp [hbefore, hadmitted]
  have hb : ∀ h, h ∈ caches i ↔ h ∈ before.cache := by
    intro h
    simp [caches, cachesOf, hbefore, AList.mem_keys]
  have ha : ∀ h, h ∈ caches (i + 1) ↔ h ∈ after.cache := by
    intro h
    simp [caches, cachesOf, hafter, AList.mem_keys]
  have hcard : (caches (i + 1)).card = after.cache.len := by
    simp [caches, cachesOf, hafter, OrderedDict.len,
      List.toFinset_card_of_nodup after.cache.keys_nodup]
  have hreq : ∀ h, h ∈ requests[i].blockHashes ↔ h ∈ blocksAt requests i := by
    intro h
    rw [mem_blocksAt, List.getElem?_eq_getElem hi]
    simp
  rw [hcap'] at hfit hlost
  refine ⟨?_, by rw [hcard]; exact hfit, ?_⟩
  · intro h hh
    rw [Finset.mem_union, hb, ← hreq]
    exact (hkeep h ((ha h).mp hh)).symm
  · intro dropped hin hout
    rw [Finset.mem_union, hb, ← hreq] at hin
    obtain ⟨hfull, horder⟩ := hlost dropped hin.symm fun h => hout ((ha dropped).mpr h)
    refine ⟨by rw [hcard]; exact hfull, fun uses huses kept hkept => ?_⟩
    exact horder uses (hevict.trans huses) kept ((ha kept).mp hkept)

/-- A fresh node fed a stream is a replacement rule, whatever its strategy. -/
theorem replacement_cachesOf (requests : List (TurnRequest K)) (args : ℕ → AdmitCall K)
    (nodeId : ℕ) {capacity : ℤ} (hcap : 0 ≤ capacity) (eviction : Eviction) :
    Replacement (blocksAt requests) capacity.toNat requests.length
      (cachesOf (init nodeId capacity eviction) (streamCalls requests args)) := by
  refine ⟨by simp [cachesOf, admitAll, init], fun i hi => ?_, fun i hi => ?_⟩
  · exact (cachesOf_step (init nodeId capacity eviction) requests args hcap hi).1
  · exact (cachesOf_step (init nodeId capacity eviction) requests args hcap hi).2.1

/-- A lookahead node built from the stream drops the furthest blocks first. -/
theorem furthestFirst_cachesOf (requests : List (TurnRequest K)) (args : ℕ → AdmitCall K)
    (nodeId : ℕ) {capacity : ℤ} (hcap : 0 ≤ capacity) :
    FurthestFirst (blocksAt requests) capacity.toNat requests.length
      (cachesOf (init nodeId capacity (.belady (buildFutureUses requests)))
        (streamCalls requests args)) := by
  have hrule := replacement_cachesOf requests args nodeId hcap
    (.belady (buildFutureUses requests))
  refine ⟨hrule.start, hrule.keeps, ?_, ?_⟩
  · intro i hi dropped hin hout
    obtain ⟨-, -, hlost⟩ := cachesOf_step (init nodeId capacity
      (.belady (buildFutureUses requests))) requests args hcap hi
    exact (hlost dropped hin hout).1
  · intro i hi dropped hin hout kept hkept d hused
    obtain ⟨-, -, hlost⟩ := cachesOf_step (init nodeId capacity
      (.belady (buildFutureUses requests))) requests args hcap hi
    obtain ⟨nb, hb, hlt⟩ := usedBetween_iff_nextUse.mp hused
    obtain ⟨na, hle, ha⟩ := (hlost dropped hin hout).2 _ rfl kept hkept nb hb
    exact usedBetween_iff_nextUse.mpr ⟨na, ha, by omega⟩

/-- One lookahead node fed the stream its table of uses was built from serves it to the
end. Counted over the whole stream, no replacement rule of the same capacity finds more
requested blocks resident, whatever it knows, and neither does a base node under any
directives and times. -/
theorem belady_hits_optimal (requests : List (TurnRequest K)) (nodeId : ℕ) (capacity : ℤ)
    (hcap : 0 ≤ capacity) (args : ℕ → AdmitCall K) :
    let belady : Node K := init nodeId capacity (.belady (buildFutureUses requests))
    let best := hits (blocksAt requests) (cachesOf belady (streamCalls requests args))
      requests.length
    (∃ n, belady.admitAll (streamCalls requests args) = some n) ∧
    (∀ caches, Replacement (blocksAt requests) capacity.toNat requests.length caches →
      hits (blocksAt requests) caches requests.length ≤ best) ∧
    ∀ (baseId : ℕ) (directives : ℕ → AdmitCall K),
      hits (blocksAt requests)
        (cachesOf (init baseId capacity) (streamCalls requests directives))
        requests.length ≤ best := by
  have hbest := furthestFirst_cachesOf requests args nodeId hcap
  refine ⟨?_, fun caches hother => hbest.hits_le hother, fun baseId directives => ?_⟩
  · have hcapacity : 0 ≤ (init nodeId capacity (.belady (buildFutureUses requests)) :
        Node K).cacheCapacity := hcap
    obtain ⟨n, hn, -, -⟩ := exists_admitAll_take (streamCalls requests args) hcapacity le_rfl
    rw [List.take_length] at hn
    exact ⟨n, hn⟩
  · exact hbest.hits_le (replacement_cachesOf requests directives baseId hcap .lru)

/-- Two blocks take turns in a cache of one. -/
theorem belady_hits_optimal_three :
    let requests : List (TurnRequest ℚ) :=
      [{ arrival := 0, tokens := [], blockHashes := [7], genTokens := 1 },
        { arrival := 1, tokens := [], blockHashes := [8], genTokens := 1 },
        { arrival := 2, tokens := [], blockHashes := [7], genTokens := 1 }]
    let args : ℕ → AdmitCall ℚ := fun i => { now := i, serviceTime := 1, reqBlocks := [] }
    hits (blocksAt requests) (cachesOf (init 0 1) (streamCalls requests args)) 3 ≤
      hits (blocksAt requests) (cachesOf (init 0 1 (.belady (buildFutureUses requests)))
        (streamCalls requests args)) 3 := by
  intro requests args
  exact (belady_hits_optimal requests 0 1 (by decide) args).2.2 0 args

end Node

end SchedLm.Sim
