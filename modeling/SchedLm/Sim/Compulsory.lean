import SchedLm.Sim.EngineReturns
import SchedLm.Sim.Invariance
import SchedLm.Sim.NoPressure

/-!
Compulsory misses. A block cannot be reused before a request has brought it in,
so no policy, eviction strategy or cluster reuses more than all blocks but the
first of each kind. A single node with room for the whole stream reuses exactly
these.
-/

namespace SchedLm.Sim

open HashChain Runs

/-- A prefix that is cached spares none of the blocks that are asked for the
first time. -/
theorem matchedPrefix_add_fresh_le {cached : BlockHash → Bool} {seen : Finset BlockHash}
    (hseen : ∀ h, cached h = true → h ∈ seen) (blocks : List BlockHash) :
    matchedPrefix blocks cached + (blocks.toFinset \ seen).card ≤ blocks.length := by
  induction blocks with
  | nil => simp [matchedPrefix]
  | cons h rest ih =>
    by_cases hcached : cached h = true
    · have hold : (h :: rest).toFinset \ seen = rest.toFinset \ seen := by
        rw [List.toFinset_cons, Finset.insert_sdiff_of_mem _ (hseen h hcached)]
      rw [matchedPrefix, if_pos hcached, hold, List.length_cons]
      omega
    · have hfresh : ((h :: rest).toFinset \ seen).card ≤ (h :: rest).length :=
        (Finset.card_le_card Finset.sdiff_subset).trans (List.toFinset_card_le _)
      rw [matchedPrefix, if_neg hcached]
      omega

/-- When every block seen before comes after such blocks only, the cached prefix is all
that was seen before: the fresh blocks are the rest of the request. -/
theorem matchedPrefix_add_fresh {cached : BlockHash → Bool} {seen : Finset BlockHash}
    (hseen : ∀ h, cached h = true ↔ h ∈ seen) {blocks : List BlockHash} (hnodup : blocks.Nodup)
    (hclosed : blocks.Pairwise fun a b => b ∈ seen → a ∈ seen) :
    matchedPrefix blocks cached + (blocks.toFinset \ seen).card = blocks.length := by
  induction blocks with
  | nil => simp [matchedPrefix]
  | cons h rest ih =>
    obtain ⟨hafter, hrest⟩ := List.pairwise_cons.mp hclosed
    by_cases hold : h ∈ seen
    · have hsame : (h :: rest).toFinset \ seen = rest.toFinset \ seen := by
        rw [List.toFinset_cons, Finset.insert_sdiff_of_mem _ hold]
      rw [matchedPrefix, if_pos ((hseen h).mpr hold), hsame, List.length_cons,
        ← ih (List.nodup_cons.mp hnodup).2 hrest]
      omega
    · have hfresh : Disjoint (h :: rest).toFinset seen := by
        rw [Finset.disjoint_left]
        intro b hb hmem
        rcases List.mem_cons.mp (List.mem_toFinset.mp hb) with rfl | hb
        · exact hold hmem
        · exact hold (hafter b hb hmem)
      rw [matchedPrefix, if_neg fun h' => hold ((hseen h).mp h'), hfresh.sdiff_eq_left, zero_add,
        List.toFinset_card_of_nodup hnodup]

variable {K : Type} [Scalar K]

theorem Node.mem_of_admitRequest {n n' : Node K} {call : AdmitCall K}
    (h : n.admitRequest call = some n') {b : BlockHash} (hb : b ∈ n'.cache) :
    b ∈ call.reqBlocks ∨ b ∈ n.cache := by
  refine evictWhile_preserves (fun m => ∀ b ∈ m.cache, b ∈ call.reqBlocks ∨ b ∈ n.cache) ?_ ?_ h b
    hb
  · intro m hm b hb
    obtain ⟨_, ⟨-, heq⟩ | ⟨victim, -, heq⟩⟩ := m.evictOne_cases call.now
    · rw [heq] at hb
      exact hm b hb
    · rw [heq] at hb
      exact hm b (AList.mem_erase.mp hb).2
  · exact fun b hb => mem_insertBlocks.mp hb

def seenBlocks (requests : List (TurnRequest K)) (k : ℕ) : Finset BlockHash :=
  ((requests.take k).flatMap TurnRequest.blockHashes).toFinset

def distinctBlocks (requests : List (TurnRequest K)) : ℕ :=
  (requests.flatMap TurnRequest.blockHashes).toFinset.card

section Seen

variable {requests : List (TurnRequest K)} {k : ℕ} {req : TurnRequest K}

omit [Scalar K]

theorem mem_seenBlocks {b : BlockHash} :
    b ∈ seenBlocks requests k ↔ ∃ req ∈ requests.take k, b ∈ req.blockHashes := by
  rw [seenBlocks, List.mem_toFinset, List.mem_flatMap]

theorem seenBlocks_succ (hreq : requests[k]? = some req) :
    seenBlocks requests (k + 1) = seenBlocks requests k ∪ req.blockHashes.toFinset := by
  unfold seenBlocks
  rw [List.take_add_one, hreq, Option.toList_some, List.flatMap_append, List.toFinset_append,
    List.flatMap_singleton]

theorem card_seenBlocks_succ (hreq : requests[k]? = some req) :
    (seenBlocks requests (k + 1)).card =
      (seenBlocks requests k).card + (req.blockHashes.toFinset \ seenBlocks requests k).card := by
  rw [seenBlocks_succ hreq, ← Finset.union_sdiff_self_eq_union,
    Finset.card_union_of_disjoint Finset.disjoint_sdiff]

theorem card_seenBlocks_length :
    (seenBlocks requests requests.length).card = distinctBlocks requests := by
  rw [seenBlocks, List.take_length, distinctBlocks]

end Seen

/-- What a placement finds resident is matched by its node or by the hot one. -/
theorem Turn.resident_eq_or {σ : Type} (t : Turn K σ) (req : TurnRequest K) :
    t.resident req = t.node.matched req.blockHashes ∨
      t.resident req = t.hot.matched req.blockHashes := by
  unfold Turn.resident residentBlocks
  dsimp only
  split_ifs <;> omega

section Bound

variable {requests : List (TurnRequest K)} {policy : Policy K} {numNodes : ℕ} {cacheBlocks : ℤ}
  {params : CostParams K} {belady : Bool} {k : ℕ} {s : SimState K policy.State}

/-- After `k` requests every cached block was asked for before, and each different block
that was has been missed at least once. -/
structure Compulsory (requests : List (TurnRequest K)) (k : ℕ) (s : SimState K policy.State) :
    Prop where
  cached : ∀ n ∈ s.nodes, ∀ b ∈ n.cache, b ∈ seenBlocks requests k
  reused : s.result.reusedBlocks + (seenBlocks requests k).card ≤ s.result.totalBlocks

/-- One request misses at least the blocks it is the first to ask for, since no node and
no transfer can provide them. -/
theorem Compulsory.step (h : Compulsory requests k s) {req : TurnRequest K}
    (hreq : requests[k]? = some req) {s' : SimState K policy.State}
    (hstep : simStep policy params s req = .ok s') : Compulsory requests (k + 1) s' := by
  obtain ⟨t, node, hroute, hadmitted, rfl⟩ := simStep_eq_ok hstep
  have hrouted := routeTurn_eq_ok hroute
  have hfresh : ∀ n ∈ s.nodes, n.matched req.blockHashes +
      (req.blockHashes.toFinset \ seenBlocks requests k).card ≤ req.blockHashes.length := by
    intro n hn
    exact matchedPrefix_add_fresh_le (fun b hb => h.cached n hn b (of_decide_eq_true hb)) _
  have hnode := hfresh t.node (List.mem_of_getElem? hrouted.node)
  have hhot := hfresh t.hot (hotNode_mem hrouted.hot)
  constructor
  · refine forall_mem_set ?_ _ ?_
    · intro n hn b hb
      rw [seenBlocks_succ hreq]
      exact Finset.mem_union_left _ (h.cached n hn b hb)
    · intro b hb
      rw [seenBlocks_succ hreq]
      rcases Node.mem_of_admitRequest hadmitted hb with hnew | hold
      · exact Finset.mem_union_right _ (List.mem_toFinset.mpr hnew)
      · exact Finset.mem_union_left _ (h.cached t.node (List.mem_of_getElem? hrouted.node) b hold)
  · have hreused := h.reused
    rw [card_seenBlocks_succ hreq, SimResult.recordGap_frame]
    dsimp only [SimResult.recordTurn]
    rcases t.resident_eq_or req with hresident | hresident <;> omega

/-- Every finished run, under any policy, eviction strategy, capacity and number of
nodes, pays for each different block of the stream at least once: what is reused are
later uses. -/
theorem reuse_spares_first_uses {result : SimResult K}
    (hrun : runSimulation requests policy numNodes cacheBlocks params belady = .ok result) :
    result.reusedBlocks + distinctBlocks requests ≤ result.totalBlocks := by
  unfold runSimulation at hrun
  obtain ⟨s, hs, hresult⟩ := bind_eq_ok.mp hrun
  obtain rfl := Except.ok.inj hresult
  have hinv : Compulsory requests requests.length s := by
    refine simAfter_induction (Compulsory requests) ⟨?_, ?_⟩ ?_ le_rfl hs
    · intro n hn b hb
      obtain ⟨i, -, rfl⟩ := List.mem_map.mp hn
      exact absurd hb (AList.notMem_empty b)
    · simp [simStart, seenBlocks]
    · intro k s req s' hreq _ h hstep
      exact h.step hreq hstep
  rw [← card_seenBlocks_length]
  exact hinv.reused

/-- Two requests for two blocks each, three different ones in all, on two
nodes. -/
theorem reuse_spares_first_uses_shared :
    ∃ result, runSimulation sharedPrefix roundRobin 2 3 {} = .ok result ∧
      result.reusedBlocks + 3 ≤ result.totalBlocks := by
  have hreturns : ∃ result, runSimulation sharedPrefix roundRobin 2 3 {} = .ok result :=
    runSimulation_returns (roundRobin_answers (by decide)) (by decide) (by decide) (by norm_num)
  obtain ⟨result, hrun⟩ := hreturns
  have hdistinct : distinctBlocks sharedPrefix = 3 := by decide
  have hbound := reuse_spares_first_uses hrun
  rw [hdistinct] at hbound
  exact ⟨result, hrun, hbound⟩

end Bound

section SingleNode

variable {hash : BlockHash × List Token → BlockHash} {blockSize : ℕ}
  {requests : List (TurnRequest K)} (hfree : CollisionFree hash blockSize requests)
  {req : TurnRequest K} (hreq : req ∈ requests)

include hfree hreq

omit [Scalar K] in
/-- The block hashes of a prompt differ from one another, and a prompt that has
one of them has all before it. -/
theorem pairwise_hashBlocks {other : TurnRequest K} (hother : other ∈ requests) :
    (hashBlocks hash req.tokens blockSize).Pairwise fun a b => a ≠ b ∧
      (b ∈ hashBlocks hash other.tokens blockSize →
        a ∈ hashBlocks hash other.tokens blockSize) := by
  rw [hashBlocks_eq_chain, hashBlocks_eq_chain]
  exact pairwise_chain hfree (fun _ hpart => ⟨req, hreq, hpart⟩)
    fun _ hpart => ⟨other, hother, hpart⟩

omit [Scalar K] in
theorem nodup_hashBlocks : (hashBlocks hash req.tokens blockSize).Nodup :=
  (pairwise_hashBlocks hfree hreq hreq).imp fun h => h.1

omit [Scalar K] in
theorem closed_seenBlocks (k : ℕ) :
    (hashBlocks hash req.tokens blockSize).Pairwise fun a b =>
      b ∈ seenBlocks (requests.map (TurnRequest.hashed hash blockSize)) k →
        a ∈ seenBlocks (requests.map (TurnRequest.hashed hash blockSize)) k := by
  rw [List.pairwise_iff_forall_sublist]
  intro a b hsub hb
  rw [mem_seenBlocks] at hb ⊢
  obtain ⟨earlier, hearlier, hb⟩ := hb
  obtain ⟨other, hother, rfl⟩ := List.mem_map.mp (List.mem_of_mem_take hearlier)
  have hpair := List.pairwise_iff_forall_sublist.mp (pairwise_hashBlocks hfree hreq hother) hsub
  exact ⟨_, hearlier, hpair.2 hb⟩

end SingleNode

section Kept

variable {hash : BlockHash × List Token → BlockHash} {blockSize : ℕ}
  {requests : List (TurnRequest K)} {policy : Policy K} {cacheBlocks : ℤ}
  {params : CostParams K} {belady : Bool} {k : ℕ} {s : SimState K policy.State}

/-- The only node holds all that was asked for, and each different block has
been missed exactly once. -/
structure KeepsAll (requests : List (TurnRequest K)) (k : ℕ) (s : SimState K policy.State) :
    Prop where
  node : ∃ n, s.nodes = [n] ∧
    n.Roomy (requests.flatMap TurnRequest.blockHashes).toFinset ∧
      ∀ b, b ∈ n.cache ↔ b ∈ seenBlocks requests k
  reused : s.result.reusedBlocks + (seenBlocks requests k).card = s.result.totalBlocks

theorem KeepsAll.step (hfree : CollisionFree hash blockSize requests)
    (h : KeepsAll (requests.map (TurnRequest.hashed hash blockSize)) k s) {req : TurnRequest K}
    (hreq : (requests.map (TurnRequest.hashed hash blockSize))[k]? = some req)
    {s' : SimState K policy.State} (hstep : simStep policy params s req = .ok s') :
    KeepsAll (requests.map (TurnRequest.hashed hash blockSize)) (k + 1) s' := by
  obtain ⟨⟨n, hnodes, hroomy, hcached⟩, hreused⟩ := h
  obtain ⟨t, node, hroute, hadmitted, rfl⟩ := simStep_eq_ok hstep
  have hrouted := routeTurn_eq_ok hroute
  have hchosen := hrouted.node
  have hhot := hotNode_mem hrouted.hot
  rw [hnodes] at hchosen hhot
  obtain ⟨hlt, hnode⟩ := List.getElem?_eq_some_iff.mp hchosen
  have hid : t.chosen.nodeId = 0 := Nat.lt_one_iff.mp hlt
  obtain rfl : n = t.node := by simpa [hid] using hnode
  obtain ⟨source, hsource, rfl⟩ := List.mem_map.mp (List.mem_of_getElem? hreq)
  -- nothing is evicted, so the node now holds the new blocks as well
  have hblocks : ∀ b ∈ (t.admitCall params s.idx (source.hashed hash blockSize)).reqBlocks,
      b ∈ ((requests.map (TurnRequest.hashed hash blockSize)).flatMap
        TurnRequest.blockHashes).toFinset := by
    intro b hb
    exact List.mem_toFinset.mpr (List.mem_flatMap.mpr ⟨_, List.mem_of_getElem? hreq, hb⟩)
  obtain ⟨hserved, hroomy'⟩ := hroomy.admitRequest hblocks
  obtain rfl := Option.some.inj (hserved.symm.trans hadmitted)
  have hmatched : t.node.matched (source.hashed hash blockSize).blockHashes +
      ((source.hashed hash blockSize).blockHashes.toFinset \
        seenBlocks (requests.map (TurnRequest.hashed hash blockSize)) k).card =
          (source.hashed hash blockSize).blockHashes.length := by
    apply matchedPrefix_add_fresh
    · intro b
      rw [decide_eq_true_iff, hcached]
    · exact nodup_hashBlocks hfree hsource
    · exact closed_seenBlocks hfree hsource k
  have hresident : t.resident (source.hashed hash blockSize) =
      t.node.matched (source.hashed hash blockSize).blockHashes := by
    rcases t.resident_eq_or (source.hashed hash blockSize) with hown | hother
    · exact hown
    · rwa [List.mem_singleton.mp hhot] at hother
  constructor
  · refine ⟨_, ?_, hroomy', ?_⟩
    · change s.nodes.set t.chosen.nodeId _ = _
      rw [hnodes, hid, List.set_cons_zero]
    · intro b
      rw [Node.mem_insertBlocks, seenBlocks_succ hreq, Finset.mem_union, hcached, List.mem_toFinset]
      exact Or.comm
  · rw [card_seenBlocks_succ hreq, SimResult.recordGap_frame]
    dsimp only [SimResult.recordTurn]
    rw [hresident]
    omega

/-- A single node with room for all blocks of the stream misses each different block
once and reuses every later use, under any policy: the bound that holds for every run is
reached. The hash has no collision along the stream. -/
theorem single_node_reuses_all_later_uses (hfree : CollisionFree hash blockSize requests)
    (hroom : (distinctBlocks (requests.map (TurnRequest.hashed hash blockSize)) : ℤ) ≤ cacheBlocks)
    {result : SimResult K}
    (hrun : runSimulation (requests.map (TurnRequest.hashed hash blockSize)) policy 1 cacheBlocks
      params belady = .ok result) :
    result.reusedBlocks + distinctBlocks (requests.map (TurnRequest.hashed hash blockSize)) =
      result.totalBlocks := by
  unfold runSimulation at hrun
  obtain ⟨s, hs, hresult⟩ := bind_eq_ok.mp hrun
  obtain rfl := Except.ok.inj hresult
  have hstart : KeepsAll (requests.map (TurnRequest.hashed hash blockSize)) 0
      (simStart (requests.map (TurnRequest.hashed hash blockSize)) policy 1 cacheBlocks
        belady) := by
    refine ⟨⟨Node.init 0 cacheBlocks (evictionOf _ belady), rfl, ⟨hroom, ?_, rfl⟩, ?_⟩, ?_⟩
    · exact fun b hb => absurd hb (AList.notMem_empty b)
    · intro b
      simp [Node.init, seenBlocks]
    · simp [simStart, seenBlocks]
  have hinv := simAfter_induction (KeepsAll (requests.map (TurnRequest.hashed hash blockSize)))
    hstart (fun _ _ _ _ hreq _ h hstep => h.step hfree hreq hstep) le_rfl hs
  rw [← card_seenBlocks_length]
  exact hinv.reused

/-- Of the four blocks of two prompts that share one, that one is reused. -/
theorem single_node_reuses_all_later_uses_shared :
    ∃ result, runSimulation (sharedBlock.map (TurnRequest.hashed Node.negEncode 2)) roundRobin 1 4
        {} = .ok result ∧ result.reusedBlocks + 3 = result.totalBlocks := by
  have hreturns : ∃ result, runSimulation (sharedBlock.map (TurnRequest.hashed Node.negEncode 2))
      roundRobin 1 4 {} = .ok result :=
    runSimulation_returns (roundRobin_answers (by decide)) (by decide) (by decide) (by norm_num)
  obtain ⟨result, hrun⟩ := hreturns
  have hdistinct : distinctBlocks (sharedBlock.map (TurnRequest.hashed Node.negEncode 2)) = 3 := by
    decide +kernel
  have hfree := collisionFree_of_injective Node.negEncode_injective Node.negEncode_ne_root 2
    sharedBlock
  have hexact := single_node_reuses_all_later_uses hfree (by rw [hdistinct]; decide) hrun
  rw [hdistinct] at hexact
  exact ⟨result, hrun, hexact⟩

end Kept

end SchedLm.Sim
