import SchedLm.Sim.PrefixMatch
import SchedLm.Sim.SymmetricRuns

/-!
What the metrics do not depend on: the values of the block hashes, as long as
no two blocks of the stream collide, the origin of time, and the numbers that
the sessions go by.
-/

namespace SchedLm.Sim

open HashChain

variable {K : Type} [Scalar K]

def TurnRequest.hashed (hash : BlockHash × List Token → BlockHash) (blockSize : ℕ)
    (req : TurnRequest K) : TurnRequest K :=
  { req with blockHashes := hashBlocks hash req.tokens blockSize }

/-- The sequences of whole blocks that some prompt of the stream starts with;
each block hash of the stream is the digest of one. -/
def leadingBlocks (blockSize : ℕ) (requests : List (TurnRequest K)) : Set (List (List Token)) :=
  {blocks | ∃ req ∈ requests,
    blocks ∈ (pieces blockSize (req.tokens.length / blockSize) req.tokens).inits.tail}

/-- The hash function tells the blocks of the stream apart, each named by all the tokens
up to its end. Elsewhere it may have collisions. -/
def CollisionFree (hash : BlockHash × List Token → BlockHash) (blockSize : ℕ)
    (requests : List (TurnRequest K)) : Prop :=
  Set.InjOn (digest hash root) (leadingBlocks blockSize requests)

omit [Scalar K] in
theorem collisionFree_of_injective {hash : BlockHash × List Token → BlockHash}
    (hinj : Function.Injective hash) (hroot : ∀ p, hash p ≠ root) (blockSize : ℕ)
    (requests : List (TurnRequest K)) : CollisionFree hash blockSize requests :=
  (digest_injective hinj hroot).injOn

/-- Renaming each block from its digest under the one function to its digest
under the other. -/
def rehashing {hash hash' : BlockHash × List Token → BlockHash} {blockSize : ℕ}
    {requests : List (TurnRequest K)} (hfree : CollisionFree hash blockSize requests)
    (hfree' : CollisionFree hash' blockSize requests) : Symmetry K where
  block h h' := ∃ blocks ∈ leadingBlocks blockSize requests,
    h = digest hash root blocks ∧ h' = digest hash' root blocks
  block_biUnique := by
    constructor
    · rintro _ _ _ ⟨blocks, hmem, rfl, rfl⟩ ⟨blocks', hmem', rfl, heq⟩
      rw [hfree' hmem hmem' heq]
    · rintro _ _ _ ⟨blocks, hmem, rfl, rfl⟩ ⟨blocks', hmem', heq, rfl⟩
      rw [hfree hmem hmem' heq]
  conversation := Eq
  conversation_biUnique := biUnique_eq
  shift := 0

/-- Both functions hash a prompt of the stream to digests of the same blocks. -/
theorem forall₂_hashBlocks {hash hash' : BlockHash × List Token → BlockHash} {blockSize : ℕ}
    {requests : List (TurnRequest K)} (hfree : CollisionFree hash blockSize requests)
    (hfree' : CollisionFree hash' blockSize requests) {req : TurnRequest K}
    (hreq : req ∈ requests) :
    List.Forall₂ (rehashing hfree hfree').block (hashBlocks hash req.tokens blockSize)
      (hashBlocks hash' req.tokens blockSize) := by
  rw [hashBlocks_eq_chain, hashBlocks_eq_chain, chain_eq_map_inits, chain_eq_map_inits,
    List.forall₂_map_left_iff, List.forall₂_map_right_iff, List.forall₂_same]
  intro blocks hblocks
  exact ⟨blocks, ⟨req, hreq, hblocks⟩, rfl, rfl⟩

/-- Which hash function the blocks are named by does not show in any metric of any
policy that `build_policy` knows, on any cluster, when neither function has a collision
along the stream. The results are compared whole. -/
theorem metrics_hash_independent {hash hash' : BlockHash × List Token → BlockHash}
    {blockSize : ℕ} {requests : List (TurnRequest K)}
    (hfree : CollisionFree hash blockSize requests)
    (hfree' : CollisionFree hash' blockSize requests) {name : String} {retainMargin : K}
    {policy : Policy K} (hpolicy : buildPolicy name retainMargin = .ok policy) (numNodes : ℕ)
    (cacheBlocks : ℤ) (params : CostParams K) (belady : Bool) :
    runSimulation (requests.map (TurnRequest.hashed hash blockSize)) policy numNodes cacheBlocks
        params belady =
      runSimulation (requests.map (TurnRequest.hashed hash' blockSize)) policy numNodes
        cacheBlocks params belady := by
  obtain ⟨memory, hsame⟩ := Symmetry.buildPolicy_samePolicy (rehashing hfree hfree') hpolicy
  symm
  apply Symmetry.runSimulation_same hsame
  rw [List.forall₂_map_left_iff, List.forall₂_map_right_iff, List.forall₂_same]
  intro req hreq
  refine ⟨⟨(add_zero _).symm, Or.inl rfl⟩, forall₂_hashBlocks hfree hfree' hreq, rfl, rfl, rfl, ?_,
    rfl⟩
  change Option.Rel Eq req.conversationId req.conversationId
  cases req.conversationId with
  | none => exact .none
  | some conversation => exact .some rfl

def sharedBlock : List (TurnRequest ℚ) :=
  [{ arrival := 0, tokens := [1, 2, 3, 4], blockHashes := [], genTokens := 10,
     messages := [⟨"user", "hi"⟩], kind := .oneshot },
   { arrival := 1, tokens := [1, 2, 5, 6], blockHashes := [], genTokens := 10,
     messages := [⟨"user", "hi"⟩, ⟨"tool", "ok"⟩], conversationId := some 0 }]

/-- Two stand-ins for the built-in hash that agree on no block. -/
theorem metrics_hash_independent_shared :
    runSimulation (sharedBlock.map (TurnRequest.hashed Node.negEncode 2))
        (ClassAwareReliability.policy {}) 2 1 {} =
      runSimulation (sharedBlock.map (TurnRequest.hashed (fun p => Node.negEncode p - 1) 2))
        (ClassAwareReliability.policy {}) 2 1 {} := by
  have hinj : Function.Injective fun p => Node.negEncode p - 1 := by
    intro p q h
    exact Node.negEncode_injective (sub_left_injective h)
  have hroot : ∀ p, Node.negEncode p - 1 ≠ root := by
    intro p h
    have hvalue : -(Encodable.encode p : ℤ) - 1 - 1 = 1469598103934665603 := h
    omega
  exact metrics_hash_independent
    (collisionFree_of_injective Node.negEncode_injective Node.negEncode_ne_root 2 sharedBlock)
    (collisionFree_of_injective hinj hroot 2 sharedBlock)
    (rfl : buildPolicy "class-aware-reliability" = .ok _) 2 1 {} false

/-- Moving every arrival by the same amount and renumbering the sessions. -/
def TurnRequest.moved (shift : K) (rename : ℤ → ℤ) (req : TurnRequest K) : TurnRequest K :=
  { req with
    arrival := req.arrival + shift
    conversationId := req.conversationId.map rename }

def sessionsOf (requests : List (TurnRequest K)) : Set ℤ :=
  {conversation | ∃ req ∈ requests, req.conversationId = some conversation}

/-- Renumbering the sessions of a stream and starting the clock elsewhere. -/
def moving (shift : K) {rename : ℤ → ℤ} {requests : List (TurnRequest K)}
    (hrename : Set.InjOn rename (sessionsOf requests)) : Symmetry K where
  block := Eq
  block_biUnique := biUnique_eq
  conversation c c' := c ∈ sessionsOf requests ∧ c' = rename c
  conversation_biUnique := by
    constructor
    · rintro c d _ ⟨hc, rfl⟩ ⟨hd, heq⟩
      exact hrename hc hd heq
    · rintro _ _ _ ⟨-, rfl⟩ ⟨-, rfl⟩
      rfl
  shift := shift

/-- The origin of time and the numbers of the sessions do not show in any metric of any
policy that `build_policy` knows, on any cluster, as long as different sessions have
different numbers and no arrival is before time zero. -/
theorem metrics_time_and_names_independent {requests : List (TurnRequest K)} (shift : K)
    {rename : ℤ → ℤ} (hrename : Set.InjOn rename (sessionsOf requests))
    (hstarted : ∀ req ∈ requests, 0 ≤ req.arrival ∧ 0 ≤ req.arrival + shift) {name : String}
    {retainMargin : K} {policy : Policy K}
    (hpolicy : buildPolicy name retainMargin = .ok policy) (numNodes : ℕ) (cacheBlocks : ℤ)
    (params : CostParams K) (belady : Bool) :
    runSimulation (requests.map (TurnRequest.moved shift rename)) policy numNodes cacheBlocks
        params belady =
      runSimulation requests policy numNodes cacheBlocks params belady := by
  obtain ⟨memory, hsame⟩ := Symmetry.buildPolicy_samePolicy (moving shift hrename) hpolicy
  apply Symmetry.runSimulation_same hsame
  rw [List.forall₂_map_right_iff, List.forall₂_same]
  intro req hreq
  refine ⟨⟨rfl, Or.inr (hstarted req hreq)⟩, ?_, rfl, rfl, rfl, ?_, rfl⟩
  · exact List.forall₂_same.mpr fun _ _ => rfl
  · change Option.Rel _ req.conversationId (req.conversationId.map rename)
    cases hid : req.conversationId with
    | none => exact .none
    | some conversation => exact .some ⟨⟨req, hreq, hid⟩, rfl⟩

/-- Two sessions of which one asks twice, a hundred seconds later and under new
numbers. -/
def twoSessions : List (TurnRequest ℚ) :=
  [{ arrival := 0, tokens := [], blockHashes := [3, 4], genTokens := 10, conversationId := some 0,
     toolName := some "db_query" },
   { arrival := 1, tokens := [], blockHashes := [5], genTokens := 10, conversationId := some 1 },
   { arrival := 2, tokens := [], blockHashes := [3, 4, 6], genTokens := 10,
     conversationId := some 0, toolName := some "db_query" }]

theorem metrics_time_and_names_independent_two :
    runSimulation (twoSessions.map (TurnRequest.moved 100 fun c => 7 - c))
        (ClassAwareReliability.policy {}) 2 2 {} =
      runSimulation twoSessions (ClassAwareReliability.policy {}) 2 2 {} := by
  refine metrics_time_and_names_independent 100 (fun c _ d _ h => ?_) ?_
    (rfl : buildPolicy "class-aware-reliability" = .ok _) 2 2 {} false
  · have hsub : 7 - c = 7 - d := h
    omega
  · intro req hreq
    simp only [twoSessions, List.mem_cons, List.not_mem_nil, or_false] at hreq
    rcases hreq with rfl | rfl | rfl <;> norm_num

end SchedLm.Sim
