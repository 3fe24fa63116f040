import SchedLm.Library.Recency
import SchedLm.Sim.Ledger
import SchedLm.Sim.PrefixMatch
import SchedLm.Sim.RouterIndexSync

/-!
The stack property of caches without directives. Such a cache holds the newest
blocks of all it has ever been given, whatever it has dropped on the way. So a
larger one holds what a smaller one holds, and of a request longer than the
cache it is the end that stays.
-/

namespace SchedLm.Sim

open OrderedDict

variable {K : Type} [Scalar K]

structure AdmitCall.DirectiveFree (call : AdmitCall K) : Prop where
  priority : call.priority = none
  lease : call.retainUntil ≤ (call.now : WithTop K)

/-- A base node without marks, with room for `capacity` blocks. Without directives it
stays one. -/
structure Node.Plain (capacity : ℕ) (n : Node K) : Prop where
  lru : n.eviction = .lru
  unmarked : n.priority = ∅
  cacheCapacity : n.cacheCapacity = capacity

theorem RouterIndex.keys_touchAll (held : OrderedDict BlockHash Unit)
    (reqBlocks : List BlockHash) :
    (touchAll held reqBlocks).keys = (held.keys ++ reqBlocks).dedup := by
  induction reqBlocks using List.reverseRecOn with
  | nil => rw [List.append_nil, held.keys_nodup.dedup]; rfl
  | append_singleton reqBlocks h ih =>
    have hlast : touchAll held (reqBlocks ++ [h]) =
        OrderedDict.setItem ((touchAll held reqBlocks).erase h) h () := List.foldl_concat ..
    rw [hlast, setItem_erase, keys_pushEnd, ih, ← List.append_assoc, dedup_append_singleton]

/-- Recording a request keeps the newest blocks of what was held and what comes. -/
theorem RouterIndex.keys_record (held : OrderedDict BlockHash Unit)
    (reqBlocks : List BlockHash) (capacity : ℕ) :
    (OrderedDict.popWhileOver (touchAll held reqBlocks) capacity).keys =
      newest capacity (held.keys ++ reqBlocks) := by
  rw [keys_popWhileOver, keys_touchAll]
  rfl

theorem Node.Plain.init (nodeId capacity : ℕ) :
    (Node.init nodeId capacity : Node K).Plain capacity :=
  ⟨rfl, rfl, rfl⟩

omit [Scalar K] in
theorem Node.keys_init [Zero K] (nodeId capacity : ℕ) :
    (Node.init nodeId capacity : Node K).cache.keys = newest capacity [] :=
  (List.drop_nil ..).symm

/-- Admitting a request without a directive keeps the newest blocks of what was held and
what comes, and leaves the node plain. -/
theorem Node.Plain.admitRequest {n : Node K} {capacity : ℕ} (h : n.Plain capacity)
    {call : AdmitCall K} (hfree : call.DirectiveFree) :
    ∃ n', n.admitRequest call = some n' ∧ n'.Plain capacity ∧
      n'.cache.keys = newest capacity (n.cache.keys ++ call.reqBlocks) := by
  obtain ⟨n', hadmitted, hunmarked, hcache⟩ := Node.admitRequest_unmarked call h.lru h.unmarked
    h.cacheCapacity hfree.priority hfree.lease
  have hsame := Node.admitRequest_sameServer hadmitted
  refine ⟨n', hadmitted, ⟨hsame.eviction.trans h.lru, hunmarked,
    hsame.cacheCapacity.trans h.cacheCapacity⟩, ?_⟩
  rw [hcache, RouterIndex.keys_record]

omit [Scalar K] in
theorem Node.matched_of_subset {n : Node K} {reqBlocks : List BlockHash}
    (h : reqBlocks ⊆ n.cache.keys) : n.matched reqBlocks = reqBlocks.length := by
  refine le_antisymm (matchedPrefix_le_length _ _) (le_matchedPrefix_iff.mpr ?_)
  intro i hi
  exact ⟨reqBlocks[i], List.getElem?_eq_getElem hi,
    decide_eq_true (AList.mem_keys.mpr (h (List.getElem_mem hi)))⟩

omit [Scalar K] in
theorem Node.matched_of_head_notMem {n : Node K} {reqBlocks : List BlockHash}
    (h : ∀ b ∈ reqBlocks.head?, b ∉ n.cache.keys) : n.matched reqBlocks = 0 := by
  cases reqBlocks with
  | nil => rfl
  | cons b rest => exact if_neg fun hmem => h b rfl (AList.mem_keys.mp (of_decide_eq_true hmem))

/-- A plain LRU node, whatever it holds, that serves a request of distinct blocks
without a directive keeps all of it if it fits. Of a longer one it keeps the end, as
many blocks as it has room for, which no prefix match can use. -/
theorem served_prefix_kept {n : Node K} {capacity : ℕ} (hplain : n.Plain capacity)
    {call : AdmitCall K} (hfree : call.DirectiveFree) (hnodup : call.reqBlocks.Nodup) :
    ∃ n', n.admitRequest call = some n' ∧
      n'.matched call.reqBlocks =
        (if call.reqBlocks.length ≤ capacity then call.reqBlocks.length else 0) ∧
      (capacity ≤ call.reqBlocks.length →
        n'.cache.keys = call.reqBlocks.drop (call.reqBlocks.length - capacity)) := by
  obtain ⟨n', hadmitted, -, hkeys⟩ := hplain.admitRequest hfree
  refine ⟨n', hadmitted, ?_, fun hlong => hkeys.trans (newest_append_of_le _ hnodup hlong)⟩
  split_ifs with hfits
  · apply Node.matched_of_subset
    rw [hkeys]
    exact subset_newest_append _ hnodup hfits
  · apply Node.matched_of_head_notMem
    intro b hb hmem
    rw [hkeys, newest_append_of_le _ hnodup (by omega)] at hmem
    obtain ⟨rest, hrest⟩ : ∃ rest, call.reqBlocks = b :: rest :=
      List.head?_eq_some_iff.mp hb
    have hdropped : (b :: rest).length - capacity = rest.length - capacity + 1 := by
      rw [hrest] at hfits
      simp only [List.length_cons] at hfits ⊢
      omega
    -- the first block is dropped, and does not come again
    rw [hrest, List.rtake, hdropped, List.drop_succ_cons] at hmem
    exact (List.nodup_cons.mp (hrest ▸ hnodup)).1 (List.mem_of_mem_drop hmem)

/-- A request longer than the cache leaves none of its leading blocks. -/
theorem longer_request_lost :
    let n : Node ℚ := Node.init 0 2
    let call : AdmitCall ℚ := { now := 0, serviceTime := 1, reqBlocks := [1, 2, 3] }
    n.Plain 2 ∧ call.DirectiveFree ∧ call.reqBlocks.Nodup ∧
      ∃ n', n.admitRequest call = some n' ∧
        n'.matched call.reqBlocks ≠ min call.reqBlocks.length 2 := by
  intro n call
  refine ⟨Node.Plain.init 0 2, ⟨rfl, le_rfl⟩, by decide, ?_⟩
  have hmatched : (n.admitRequest call).map (fun n' => n'.matched call.reqBlocks) = some 0 := by
    decide +kernel
  obtain ⟨n', hadmitted, hzero⟩ := Option.map_eq_some_iff.mp hmatched
  exact ⟨n', hadmitted, by rw [hzero]; decide⟩

/-- A full node of two makes room for a request of two, and of one of three keeps
the last two blocks only. -/
theorem served_prefix_kept_warm :
    ∃ n, (Node.init 0 2 : Node ℚ).admitRequest
        { now := 0, serviceTime := 1, reqBlocks := [8, 9] } = some n ∧
      (∃ n', n.admitRequest { now := 1, serviceTime := 1, reqBlocks := [9, 1] } = some n' ∧
        n'.matched [9, 1] = 2) ∧
      ∃ n', n.admitRequest { now := 1, serviceTime := 1, reqBlocks := [9, 1, 2] } = some n' ∧
        n'.matched [9, 1, 2] = 0 ∧ n'.cache.keys = [1, 2] := by
  have hfree : ∀ (now : ℚ) (reqBlocks : List BlockHash), 0 ≤ now →
      ({ now := now, serviceTime := 1, reqBlocks := reqBlocks } : AdmitCall ℚ).DirectiveFree :=
    fun now _ hnow => ⟨rfl, WithTop.coe_le_coe.mpr hnow⟩
  obtain ⟨n, hwarm, hplain, -⟩ := (Node.Plain.init 0 2).admitRequest (hfree 0 [8, 9] le_rfl)
  obtain ⟨n', hadmitted, hmatched, -⟩ :=
    served_prefix_kept hplain (hfree 1 [9, 1] zero_le_one) (by decide)
  obtain ⟨n'', hadmitted', hmatched', hend⟩ :=
    served_prefix_kept hplain (hfree 1 [9, 1, 2] zero_le_one) (by decide)
  exact ⟨n, hwarm, ⟨n', hadmitted, hmatched⟩, n'', hadmitted', hmatched', hend (by decide)⟩

def sentTo (nodeId : ℕ) (sent : List (ℕ × List BlockHash)) : List BlockHash :=
  (sent.filter fun s => s.1 = nodeId).flatMap Prod.snd

theorem sentTo_concat (nodeId target : ℕ) (sent : List (ℕ × List BlockHash))
    (reqBlocks : List BlockHash) :
    sentTo nodeId (sent ++ [(target, reqBlocks)]) =
      sentTo nodeId sent ++ if target = nodeId then reqBlocks else [] := by
  rw [sentTo, List.filter_append, List.flatMap_append]
  split_ifs with htarget
  · simp [htarget, sentTo]
  · simp [htarget, sentTo]

/-- A plain node is the newest blocks of all it was given, before and now. The induction
is on the calls. -/
theorem Node.Plain.admitAll {n : Node K} {capacity : ℕ} (h : n.Plain capacity)
    {uses : List BlockHash} (hkeys : n.cache.keys = newest capacity uses)
    {calls : List (AdmitCall K)} (hfree : ∀ call ∈ calls, call.DirectiveFree) :
    ∃ n', n.admitAll calls = some n' ∧ n'.Plain capacity ∧
      n'.cache.keys = newest capacity (uses ++ calls.flatMap AdmitCall.reqBlocks) := by
  induction calls generalizing n uses with
  | nil => exact ⟨n, rfl, h, by rw [hkeys, List.flatMap_nil, List.append_nil]⟩
  | cons call rest ih =>
    obtain ⟨next, hadmitted, hplain, hnext⟩ := h.admitRequest (hfree call List.mem_cons_self)
    rw [hkeys, newest_append] at hnext
    obtain ⟨n', hrest, hplain', hkeys'⟩ :=
      ih hplain hnext fun c hc => hfree c (List.mem_cons_of_mem call hc)
    refine ⟨n', ?_, hplain', ?_⟩
    · rw [Node.admitAll, List.foldlM_cons, hadmitted]
      exact hrest
    · rw [hkeys', List.flatMap_cons, List.append_assoc]

namespace RouterIndex

def recordAll (index : RouterIndex) (sent : List (ℕ × List BlockHash)) :
    Except SimError RouterIndex :=
  sent.foldlM (fun index s => index.record s.1 s.2) index

/-- An index that holds the newest blocks of what was sent to each node. -/
structure Remembers (numNodes capacity : ℕ) (sent : List (ℕ × List BlockHash))
    (index : RouterIndex) : Prop where
  room : index.capacity = capacity
  length : index.blocks.length = numNodes
  keys : ∀ i held, index.blocks[i]? = some held →
    held.keys = newest capacity (sentTo i sent)

variable {numNodes capacity : ℕ} {sent : List (ℕ × List BlockHash)} {index : RouterIndex}

theorem Remembers.init (numNodes capacity : ℕ) :
    Remembers numNodes capacity [] (RouterIndex.init numNodes capacity) := by
  refine ⟨rfl, List.length_replicate, ?_⟩
  intro i held hheld
  obtain ⟨-, rfl⟩ := List.mem_replicate.mp (List.mem_of_getElem? hheld)
  exact (List.drop_nil ..).symm

theorem Remembers.record (h : Remembers numNodes capacity sent index) {nodeId : ℕ}
    (hnode : nodeId < numNodes) (reqBlocks : List BlockHash) :
    ∃ index', index.record nodeId reqBlocks = .ok index' ∧
      Remembers numNodes capacity (sent ++ [(nodeId, reqBlocks)]) index' := by
  obtain ⟨held, hheld⟩ : ∃ held, index.blocks[nodeId]? = some held :=
    ⟨_, List.getElem?_eq_getElem (h.length ▸ hnode)⟩
  have hrecorded : index.record nodeId reqBlocks = .ok { index with
      blocks := index.blocks.set nodeId
        (OrderedDict.popWhileOver (touchAll held reqBlocks) index.capacity) } := by
    simp only [RouterIndex.record, hheld]
  refine ⟨_, hrecorded, h.room, ?_, ?_⟩
  · exact List.length_set.trans h.length
  · intro i held' hheld'
    rw [sentTo_concat]
    rw [List.getElem?_set] at hheld'
    split_ifs at hheld' with htarget
    · obtain ⟨-, rfl⟩ := hheld'
      rw [if_pos htarget, keys_record, h.keys nodeId held hheld, h.room, newest_append,
        htarget]
    · rw [if_neg htarget, List.append_nil]
      exact h.keys i held' hheld'

theorem Remembers.recordAll (h : Remembers numNodes capacity sent index)
    {more : List (ℕ × List BlockHash)} (hnodes : ∀ s ∈ more, s.1 < numNodes) :
    ∃ index', index.recordAll more = .ok index' ∧
      Remembers numNodes capacity (sent ++ more) index' := by
  induction more generalizing sent index with
  | nil => exact ⟨index, rfl, by rwa [List.append_nil]⟩
  | cons s rest ih =>
    obtain ⟨next, hrecorded, hnext⟩ := h.record (hnodes s List.mem_cons_self) s.2
    obtain ⟨index', hrest, hindex'⟩ :=
      ih hnext fun s' hs' => hnodes s' (List.mem_cons_of_mem s hs')
    refine ⟨index', ?_, by rwa [List.append_assoc] at hindex'⟩
    rw [RouterIndex.recordAll, List.foldlM_cons, hrecorded]
    exact hrest

end RouterIndex

def callsOf (nodeId : ℕ) (calls : List (ℕ × AdmitCall K)) : List (AdmitCall K) :=
  (calls.filter fun c => c.1 = nodeId).map Prod.snd

def AdmitCall.recorded (c : ℕ × AdmitCall K) : ℕ × List BlockHash := (c.1, c.2.reqBlocks)

theorem flatMap_callsOf (nodeId : ℕ) (calls : List (ℕ × AdmitCall K)) :
    (callsOf nodeId calls).flatMap AdmitCall.reqBlocks =
      sentTo nodeId (calls.map AdmitCall.recorded) := by
  rw [callsOf, sentTo, List.flatMap_map, List.filter_map, List.flatMap_map]
  rfl

omit [Scalar K] in
theorem Node.matched_le_of_subset {n : Node K} {held : OrderedDict BlockHash Unit}
    (h : n.cache.keys ⊆ held.keys) (reqBlocks : List BlockHash) :
    n.matched reqBlocks ≤ matchedPrefix reqBlocks fun b => decide (b ∈ held) := by
  apply matchedPrefix_mono
  intro b hb
  exact decide_eq_true (AList.mem_keys.mpr (h (AList.mem_keys.mp (of_decide_eq_true hb))))

/-- An index with the room of the nodes or more, fed what the nodes are fed,
underestimates the matched prefix on none of them. -/
theorem index_never_underestimates {capacity indexCapacity : ℕ} (hle : capacity ≤ indexCapacity)
    {numNodes : ℕ} {calls : List (ℕ × AdmitCall K)}
    (hcalls : ∀ c ∈ calls, c.1 < numNodes ∧ c.2.DirectiveFree) :
    ∃ index, (RouterIndex.init numNodes indexCapacity).recordAll
        (calls.map AdmitCall.recorded) = .ok index ∧
      ∀ i < numNodes, ∃ n, (Node.init i capacity : Node K).admitAll (callsOf i calls) = some n ∧
        ∀ reqBlocks, ∃ hits, index.matched i reqBlocks = .ok hits ∧ n.matched reqBlocks ≤ hits := by
  have hnodes : ∀ s ∈ calls.map AdmitCall.recorded, s.1 < numNodes := by
    intro s hs
    obtain ⟨c, hc, rfl⟩ := List.mem_map.mp hs
    exact (hcalls c hc).1
  obtain ⟨index, hrecorded, hindex⟩ :=
    (RouterIndex.Remembers.init numNodes indexCapacity).recordAll hnodes
  refine ⟨index, hrecorded, fun i hi => ?_⟩
  have hfree : ∀ call ∈ callsOf i calls, call.DirectiveFree := by
    intro call hcall
    obtain ⟨c, hc, rfl⟩ := List.mem_map.mp hcall
    exact (hcalls c (List.mem_of_mem_filter hc)).2
  obtain ⟨n, hadmitted, -, hkeys⟩ :=
    (Node.Plain.init i capacity).admitAll (Node.keys_init i capacity) hfree
  obtain ⟨held, hheld⟩ : ∃ held, index.blocks[i]? = some held :=
    ⟨_, List.getElem?_eq_getElem (hindex.length ▸ hi)⟩
  refine ⟨n, hadmitted, fun reqBlocks => ⟨_, by simp only [RouterIndex.matched, hheld]; rfl, ?_⟩⟩
  apply Node.matched_le_of_subset
  rw [hkeys, hindex.keys i held hheld, List.nil_append, List.nil_append, flatMap_callsOf]
  exact newest_subset hle _

def roundRobinSends (numNodes : ℕ) (requests : List (TurnRequest K)) :
    List (ℕ × List BlockHash) :=
  requests.zipIdx.map fun e => (e.2 % numNodes, e.1.blockHashes)

omit [Scalar K] in
theorem roundRobinSends_take_succ {numNodes k : ℕ} {requests : List (TurnRequest K)}
    {req : TurnRequest K} (hreq : requests[k]? = some req) :
    roundRobinSends numNodes (requests.take (k + 1)) =
      roundRobinSends numNodes (requests.take k) ++ [(k % numNodes, req.blockHashes)] := by
  obtain ⟨hlt, -⟩ := List.getElem?_eq_some_iff.mp hreq
  have hlength : (requests.take k).length = k := by
    rw [List.length_take]
    omega
  rw [List.take_add_one, hreq, roundRobinSends, List.zipIdx_append, List.map_append, hlength,
    Nat.zero_add]
  rfl

theorem roundRobin_eq_ok {next : ℕ} {req : RequestView} {nodes : List (Node K)} {now : K}
    {params : CostParams K} {state : ℕ} {place : Placement K}
    (h : (roundRobin : Policy K).call next req nodes now params = .ok (state, place)) :
    state = next + 1 ∧ ∃ node hot cost, nodes[next % nodes.length]? = some node ∧
      Predicted req.blocks node now params hot false cost place := by
  unfold roundRobin at h
  dsimp only at h
  split_ifs at h
  · cases h
  · cases hnode : nodes[next % nodes.length]? with
    | none =>
      rw [hnode] at h
      cases h
    | some node =>
      simp only [hnode, Runs.bind_eq_ok] at h
      obtain ⟨hot, -, placed, hplaced, h⟩ := h
      cases h
      obtain ⟨cost, hpredicted⟩ := predict_eq_ok hplaced
      exact ⟨rfl, node, hot, cost, rfl, hpredicted⟩

section RoundRobin

variable {requests : List (TurnRequest K)} {numNodes capacity : ℕ} {params : CostParams K}

/-- The state of a round-robin run after `k` requests: each node holds the newest
blocks of the requests it was sent. -/
structure RoundRobinState (requests : List (TurnRequest K)) (numNodes capacity k : ℕ)
    (s : SimState K (roundRobin : Policy K).State) : Prop where
  next : s.policy = k
  plain : ∀ n ∈ s.nodes, n.Plain capacity
  keys : ∀ (i : ℕ) (n : Node K), s.nodes[i]? = some n →
    n.cache.keys = newest capacity (sentTo i (roundRobinSends numNodes (requests.take k)))

variable {k : ℕ} {s : SimState K (roundRobin : Policy K).State} {req : TurnRequest K}
  {t : Turn K (roundRobin : Policy K).State}

/-- A turn of a round-robin run serves the next node in place, without a mark. -/
structure RoundRobinTurn (numNodes k : ℕ) (req : TurnRequest K)
    (t : Turn K (roundRobin : Policy K).State) : Prop where
  next : t.policy = k + 1
  nodeId : t.chosen.nodeId = k % numNodes
  transfer : t.chosen.transfer = false
  priority : t.chosen.priority = none
  retainUntil : t.chosen.retainUntil = ((0 : K) : WithTop K)

theorem RoundRobinState.turn (hs : RoundRobinState requests numNodes capacity k s)
    (h : Visits requests roundRobin numNodes capacity params false k s req t) :
    RoundRobinTurn numNodes k req t := by
  have hcall := h.routed.call
  rw [hs.next] at hcall
  obtain ⟨hnext, node, hot, cost, hnode, hp⟩ := roundRobin_eq_ok hcall
  rw [h.cluster.2.length] at hnode
  exact ⟨hnext, hp.nodeId.trans (h.cluster.2.nodeId _ node hnode), hp.transfer, hp.priority,
    hp.retainUntil⟩

theorem RoundRobinState.start :
    RoundRobinState requests numNodes capacity 0
      (simStart requests (roundRobin : Policy K) numNodes capacity false) := by
  have hfresh : ∀ (i : ℕ) (n : Node K),
      (simStart requests (roundRobin : Policy K) numNodes capacity false).nodes[i]? = some n →
      n = Node.init i capacity := by
    intro i n hn
    rw [simStart, List.getElem?_map, Option.map_eq_some_iff] at hn
    obtain ⟨j, hj, rfl⟩ := hn
    obtain ⟨-, rfl⟩ := List.getElem?_eq_some_iff.mp hj
    rw [List.getElem_range]
    rfl
  refine ⟨rfl, ?_, ?_⟩
  · intro n hn
    obtain ⟨i, hi⟩ := List.getElem?_of_mem hn
    rw [hfresh i n hi]
    exact Node.Plain.init i capacity
  · intro i n hn
    rw [hfresh i n hn]
    exact Node.keys_init i capacity

theorem RoundRobinState.after (hs : RoundRobinState requests numNodes capacity k s)
    (h : Visits requests roundRobin numNodes capacity params false k s req t)
    (harrival : 0 ≤ req.arrival) {s' : SimState K (roundRobin : Policy K).State}
    (hnext : simAfter requests roundRobin numNodes capacity params false (k + 1) = .ok s') :
    RoundRobinState requests numNodes capacity (k + 1) s' := by
  have ht := hs.turn h
  have hfree : (t.admitCall params s.idx req).DirectiveFree := by
    refine ⟨ht.priority, ?_⟩
    change t.chosen.retainUntil ≤ (req.arrival : WithTop K)
    rw [ht.retainUntil]
    exact_mod_cast harrival
  have hserved : s.nodes[k % numNodes]? = some t.node := ht.nodeId ▸ h.routed.node
  obtain ⟨node, hadmitted, hplain, hkeys⟩ :=
    (hs.plain t.node (List.mem_of_getElem? hserved)).admitRequest hfree
  obtain ⟨node', hadmitted', rfl⟩ := h.after hnext
  obtain rfl : node = node' := Option.some.inj (hadmitted.symm.trans hadmitted')
  refine ⟨ht.next, Runs.forall_mem_set hs.plain _ hplain, ?_⟩
  intro i n hn
  rw [roundRobinSends_take_succ h.request, sentTo_concat]
  rw [ht.nodeId, List.getElem?_set] at hn
  split_ifs at hn with htarget
  · obtain ⟨-, rfl⟩ := hn
    rw [if_pos htarget, hkeys, hs.keys _ t.node hserved, newest_append, htarget]
    rfl
  · rw [if_neg htarget, List.append_nil]
    exact hs.keys i n hn

theorem roundRobinState (harrivals : ∀ req ∈ requests, 0 ≤ req.arrival)
    (hk : k ≤ requests.length)
    (hrun : simAfter requests roundRobin numNodes capacity params false k = .ok s) :
    RoundRobinState requests numNodes capacity k s := by
  induction k generalizing s with
  | zero =>
    obtain rfl := Except.ok.inj hrun
    exact RoundRobinState.start
  | succ k ih =>
    obtain ⟨before, req, t, hvisit, -⟩ := Visits.exists_of_lt (Nat.lt_succ_self k) hk hrun
    exact (ih (Nat.le_of_succ_le hk) hvisit.state).after hvisit
      (harrivals req (List.mem_of_getElem? hvisit.request)) hrun

theorem RoundRobinTurn.resident (h : RoundRobinTurn numNodes k req t) :
    t.resident req = t.node.matched req.blockHashes := by
  rw [Turn.resident, residentBlocks, h.transfer]
  exact add_zero _

/-- More cache on every node never loses a hit: after each number of requests the larger
run has reused no fewer blocks, since round-robin sends the requests to the same nodes
in both. -/
theorem reusedBlocks_mono {capacity' : ℕ} (hle : capacity ≤ capacity')
    (harrivals : ∀ req ∈ requests, 0 ≤ req.arrival) (hk : k ≤ requests.length)
    (hrun : simAfter requests roundRobin numNodes capacity params false k = .ok s)
    {s' : SimState K (roundRobin : Policy K).State}
    (hrun' : simAfter requests roundRobin numNodes capacity' params false k = .ok s') :
    s.result.reusedBlocks ≤ s'.result.reusedBlocks := by
  induction k generalizing s s' with
  | zero =>
    obtain rfl := Except.ok.inj hrun
    obtain rfl := Except.ok.inj hrun'
    exact le_rfl
  | succ k ih =>
    obtain ⟨b, req, t, hvisit, -⟩ := Visits.exists_of_lt (Nat.lt_succ_self k) hk hrun
    obtain ⟨b', req', t', hvisit', -⟩ := Visits.exists_of_lt (Nat.lt_succ_self k) hk hrun'
    obtain rfl : req = req' := Option.some.inj (hvisit.request.symm.trans hvisit'.request)
    have hlt : k ≤ requests.length := Nat.le_of_succ_le hk
    have hstate := roundRobinState harrivals hlt hvisit.state
    have hstate' := roundRobinState harrivals hlt hvisit'.state
    have ht := hstate.turn hvisit
    have ht' := hstate'.turn hvisit'
    have hmatched : t.node.matched req.blockHashes ≤ t'.node.matched req.blockHashes := by
      apply Node.matched_le_of_subset
      rw [hstate.keys _ t.node (ht.nodeId ▸ hvisit.routed.node),
        hstate'.keys _ t'.node (ht'.nodeId ▸ hvisit'.routed.node)]
      exact newest_subset hle _
    rw [hvisit.reusedBlocks hrun, hvisit'.reusedBlocks hrun', ht.resident, ht'.resident]
    exact add_le_add (ih hlt hvisit.state hvisit'.state) (by exact_mod_cast hmatched)

end RoundRobin

/-- Directive-free caches are stacks. After any requests a node, and each list of a
router index, is the newest blocks of all it has been given, in order of last use; an
index with the room of the nodes or more underestimates the matched prefix on none of
them; and a round-robin run over any stream reuses no fewer blocks when every node is
given a larger cache. -/
theorem lru_stack_property (capacity : ℕ) :
    (∀ (nodeId : ℕ) (calls : List (AdmitCall K)), (∀ call ∈ calls, call.DirectiveFree) →
      ∃ n, (Node.init nodeId capacity : Node K).admitAll calls = some n ∧
        n.cache.keys = newest capacity (calls.flatMap AdmitCall.reqBlocks)) ∧
    (∀ (numNodes : ℕ) (sent : List (ℕ × List BlockHash)), (∀ s ∈ sent, s.1 < numNodes) →
      ∃ index, (RouterIndex.init numNodes capacity).recordAll sent = .ok index ∧
        ∀ i < numNodes, ∃ held, index.blocks[i]? = some held ∧
          held.keys = newest capacity (sentTo i sent)) ∧
    (∀ indexCapacity ≥ capacity, ∀ (numNodes : ℕ) (calls : List (ℕ × AdmitCall K)),
      (∀ c ∈ calls, c.1 < numNodes ∧ c.2.DirectiveFree) →
      ∃ index, (RouterIndex.init numNodes indexCapacity).recordAll
          (calls.map AdmitCall.recorded) = .ok index ∧
        ∀ i < numNodes, ∃ n,
          (Node.init i capacity : Node K).admitAll (callsOf i calls) = some n ∧
          ∀ reqBlocks, ∃ hits, index.matched i reqBlocks = .ok hits ∧
            n.matched reqBlocks ≤ hits) ∧
    (∀ capacity' ≥ capacity, ∀ (requests : List (TurnRequest K)) (numNodes : ℕ)
      (params : CostParams K) (result result' : SimResult K),
      (∀ req ∈ requests, 0 ≤ req.arrival) →
      runSimulation requests roundRobin numNodes capacity params = .ok result →
      runSimulation requests roundRobin numNodes capacity' params = .ok result' →
      result.reusedBlocks ≤ result'.reusedBlocks) := by
  refine ⟨?_, ?_, ?_, ?_⟩
  · intro nodeId calls hfree
    obtain ⟨n, hadmitted, -, hkeys⟩ :=
      (Node.Plain.init nodeId capacity).admitAll (Node.keys_init nodeId capacity) hfree
    exact ⟨n, hadmitted, hkeys⟩
  · intro numNodes sent hnodes
    obtain ⟨index, hrecorded, hindex⟩ :=
      (RouterIndex.Remembers.init numNodes capacity).recordAll hnodes
    refine ⟨index, hrecorded, fun i hi => ?_⟩
    have hheld := List.getElem?_eq_getElem (hindex.length.symm ▸ hi : i < index.blocks.length)
    exact ⟨_, hheld, hindex.keys i _ hheld⟩
  · exact fun indexCapacity hle numNodes calls hcalls => index_never_underestimates hle hcalls
  · intro capacity' hle requests numNodes params result result' harrivals hrun hrun'
    rw [runSimulation, Runs.bind_eq_ok] at hrun hrun'
    obtain ⟨final, hfinal, hresult⟩ := hrun
    obtain ⟨final', hfinal', hresult'⟩ := hrun'
    cases hresult
    cases hresult'
    exact reusedBlocks_mono hle harrivals le_rfl hfinal hfinal'

/-- A request of two blocks on a node of one, and two requests on one node of one
and of two blocks. -/
theorem lru_stack_property_one_two :
    (∃ n, (Node.init 0 1 : Node ℚ).admitAll
        [{ now := 0, serviceTime := 1, reqBlocks := [1, 2] }] = some n ∧
      n.cache.keys = [2]) ∧
    ∃ result result', runSimulation turnAndOneshot roundRobin 1 (1 : ℕ) {} = .ok result ∧
      runSimulation turnAndOneshot roundRobin 1 (2 : ℕ) {} = .ok result' ∧
      result.reusedBlocks ≤ result'.reusedBlocks := by
  have hone := @lru_stack_property ℚ _ 1
  have hreturns : ∀ capacity : ℕ, ∃ result,
      runSimulation turnAndOneshot roundRobin 1 capacity {} = .ok result := fun capacity =>
    runSimulation_returns (roundRobin_answers one_pos) one_pos (by positivity) (by norm_num)
  obtain ⟨result, hresult⟩ := hreturns 1
  obtain ⟨result', hresult'⟩ := hreturns 2
  refine ⟨?_, result, result', hresult, hresult', ?_⟩
  · obtain ⟨n, hadmitted, hkeys⟩ := hone.1 0 [{ now := 0, serviceTime := 1, reqBlocks := [1, 2] }]
      (by
        intro call hcall
        rw [List.mem_singleton.mp hcall]
        exact ⟨rfl, le_rfl⟩)
    exact ⟨n, hadmitted, hkeys.trans (by decide)⟩
  · exact hone.2.2.2 2 one_le_two turnAndOneshot 1 {} result result'
      (by simp [turnAndOneshot]) hresult hresult'

end SchedLm.Sim
