import SchedLm.Library.HashChain
import SchedLm.Sim.Node

/-!
What a cache hit means for the token sequences behind the blocks. With a hash
that has no collisions, the run of cached leading blocks of a query is the
longest prefix it shares with an admitted sequence, counted in whole blocks.
-/

namespace SchedLm.Sim

open HashChain

section Blocks

variable {hash : BlockHash × List Token → BlockHash}

private theorem hashBlocks_go (tokens : List Token) (blockSize left i : ℕ)
    (parent : BlockHash) :
    hashBlocks.go hash tokens blockSize left i parent =
      chain hash parent (pieces blockSize left (tokens.drop (i * blockSize))) := by
  induction left generalizing i parent with
  | zero => rfl
  | succ left ih =>
    rw [hashBlocks.go, pieces_succ, chain, ih, List.drop_drop, Nat.succ_mul]

theorem hashBlocks_eq_chain (tokens : List Token) (blockSize : ℕ) :
    hashBlocks hash tokens blockSize =
      chain hash root (pieces blockSize (tokens.length / blockSize) tokens) := by
  rw [hashBlocks, hashBlocks_go, Nat.zero_mul, List.drop_zero]

theorem hashBlocks_isPrefix {tokens tokens' : List Token} (blockSize : ℕ)
    (h : List.IsPrefix tokens tokens') :
    List.IsPrefix (hashBlocks hash tokens blockSize) (hashBlocks hash tokens' blockSize) := by
  rw [hashBlocks_eq_chain, hashBlocks_eq_chain]
  exact chain_isPrefix hash root (pieces_isPrefix h)

/-- The leading run is at least `n` long when its first `n` blocks are cached. -/
theorem le_matchedPrefix_iff {reqBlocks : List BlockHash} {cached : BlockHash → Bool}
    {n : ℕ} :
    n ≤ matchedPrefix reqBlocks cached ↔
      ∀ i < n, ∃ h, reqBlocks[i]? = some h ∧ cached h = true := by
  induction reqBlocks generalizing n with
  | nil =>
    constructor
    · intro hn i hi
      simp only [matchedPrefix] at hn
      omega
    · intro hall
      cases n with
      | zero => exact Nat.zero_le _
      | succ n => simpa using hall 0 (Nat.succ_pos n)
  | cons h rest ih =>
    cases n with
    | zero => simp
    | succ n =>
      unfold matchedPrefix
      split_ifs with hcached
      · rw [Nat.succ_le_succ_iff, ih]
        constructor
        · intro hall i hi
          cases i with
          | zero => exact ⟨h, rfl, hcached⟩
          | succ i => exact hall i (Nat.lt_of_succ_lt_succ hi)
        · intro hall i hi
          exact hall (i + 1) (Nat.succ_lt_succ hi)
      · constructor
        · intro hn
          omega
        · intro hall
          obtain ⟨b, hb, hhit⟩ := hall 0 (Nat.succ_pos n)
          simp only [List.getElem?_cons_zero, Option.some.injEq] at hb
          exact absurd (hb ▸ hhit) hcached

theorem length_le_matchedPrefix {blocks reqBlocks : List BlockHash} {cached : BlockHash → Bool}
    (hstart : List.IsPrefix blocks reqBlocks) (hcached : ∀ h ∈ blocks, cached h = true) :
    blocks.length ≤ matchedPrefix reqBlocks cached := by
  apply le_matchedPrefix_iff.mpr
  intro i hi
  exact ⟨blocks[i], List.prefix_iff_getElem?.mp hstart i hi, hcached _ (List.getElem_mem hi)⟩

end Blocks

private theorem le_foldr_max_iff {values : List ℕ} {n : ℕ} (hpos : 0 < n) :
    n ≤ values.foldr max 0 ↔ ∃ v ∈ values, n ≤ v := by
  induction values with
  | nil => simp; omega
  | cons v rest ih => simp [ih]

namespace Node

variable {K : Type} [Scalar K]

/-- Every `admit` of the sequence leaves the cache within its capacity before
anything is evicted. -/
def NeverExceeds (n : Node K) (calls : List (AdmitCall K)) : Prop :=
  ∀ before call after, calls = before ++ call :: after →
    ∀ n', n.admitAll before = some n' →
      ((n'.insertBlocks call).cache.len : ℤ) ≤ n'.cacheCapacity

theorem admitRequest_of_fits {n : Node K} {call : AdmitCall K}
    (hfits : ((n.insertBlocks call).cache.len : ℤ) ≤ n.cacheCapacity) :
    n.admitRequest call = some (n.insertBlocks call) := by
  have hcap : (n.insertBlocks call).cacheCapacity = n.cacheCapacity := by
    rw [insertBlocks_frame]
  unfold admitRequest evictWhile
  rw [if_neg (by rw [hcap]; omega)]

/-- A node that never overflows holds every block it was ever asked for. -/
theorem mem_admitAll_of_neverExceeds {n : Node K} {calls : List (AdmitCall K)}
    (hfits : n.NeverExceeds calls) :
    ∃ n', n.admitAll calls = some n' ∧
      ∀ h, h ∈ n'.cache ↔ (∃ call ∈ calls, h ∈ call.reqBlocks) ∨ h ∈ n.cache := by
  induction calls generalizing n with
  | nil => exact ⟨n, rfl, by simp⟩
  | cons call rest ih =>
    have hstep := admitRequest_of_fits (hfits [] call rest rfl n rfl)
    have hrest : (n.insertBlocks call).NeverExceeds rest := by
      intro before next after hsplit n' hrun
      refine hfits (call :: before) next after (by rw [hsplit]; rfl) n' ?_
      simpa [admitAll, List.foldlM_cons, hstep] using hrun
    obtain ⟨n', hrun, hmem⟩ := ih hrest
    refine ⟨n', by simpa [admitAll, List.foldlM_cons, hstep] using hrun, ?_⟩
    intro h
    rw [hmem, mem_insertBlocks, List.exists_mem_cons_iff]
    exact or_left_comm.trans or_assoc.symm

/-- `admit` calls for token sequences: each call's blocks are those of its
sequence, its times and directive are its own. -/
def tokenCalls (hash : BlockHash × List Token → BlockHash) (blockSize : ℕ)
    (admits : List (List Token × AdmitCall K)) : List (AdmitCall K) :=
  admits.map fun a => { a.2 with reqBlocks := hashBlocks hash a.1 blockSize }

/-- The matched prefix of a query is the longest prefix it shares with any admitted
sequence, in whole blocks: for every block size, every sequence of admits that never
exceeds the cache, with any directives, and every hash function that is injective and
never gives the seed. -/
theorem matched_eq_longest_common_prefix {hash : BlockHash × List Token → BlockHash}
    (hinj : Function.Injective hash) (hroot : ∀ p, hash p ≠ root) {blockSize : ℕ}
    (hsize : 1 ≤ blockSize) (nodeId : ℕ) (cacheBlocks : ℤ) (eviction : Eviction)
    (admits : List (List Token × AdmitCall K))
    (hfits : (init nodeId cacheBlocks eviction).NeverExceeds
      (tokenCalls hash blockSize admits))
    (query : List Token) :
    ∃ n, (init nodeId cacheBlocks eviction).admitAll (tokenCalls hash blockSize admits) =
        some n ∧
      n.matched (hashBlocks hash query blockSize) =
        (admits.map fun a => lcp a.1 query / blockSize).foldr max 0 := by
  obtain ⟨n, hrun, hmem⟩ := mem_admitAll_of_neverExceeds hfits
  refine ⟨n, hrun, ?_⟩
  let whole := fun tokens : List Token =>
    pieces blockSize (tokens.length / blockSize) tokens
  -- the digest of the first `k` query blocks is cached exactly when an admitted
  -- sequence shares them
  have hcached : ∀ k, 0 < k → k ≤ (whole query).length →
      (digest hash root ((whole query).take k) ∈ n.cache ↔
        ∃ a ∈ admits, k ≤ lcp a.1 query / blockSize) := by
    intro k hpos hk
    have hblocks : digest hash root ((whole query).take k) ∈ n.cache ↔
        ∃ a ∈ admits, digest hash root ((whole query).take k) ∈
          chain hash root (whole a.1) := by
      rw [hmem]
      simp [tokenCalls, init, hashBlocks_eq_chain, whole]
    rw [hblocks]
    refine exists_congr fun a => and_congr_right fun _ => ?_
    rw [digest_take_mem_chain hinj hroot hpos hk, ← lcp_pieces hsize, le_lcp_iff]
    tauto
  apply eq_of_forall_le_iff
  intro k
  cases k with
  | zero => simp
  | succ k =>
    rw [matched, le_matchedPrefix_iff, le_foldr_max_iff (Nat.succ_pos k),
      hashBlocks_eq_chain]
    simp only [getElem?_chain, decide_eq_true_eq, List.mem_map, exists_exists_and_eq_and]
    constructor
    · intro hall
      obtain ⟨h, hget, hin⟩ := hall k (Nat.lt_succ_self k)
      split_ifs at hget with hlt
      rw [Option.some.injEq] at hget
      exact (hcached (k + 1) (Nat.succ_pos k) hlt).mp (hget ▸ hin)
    · rintro ⟨a, ha, hle⟩ i hi
      have hlen : k + 1 ≤ (whole query).length := by
        rw [← lcp_pieces hsize, le_lcp_iff] at hle
        exact hle.2.1
      rw [if_pos (show i < (whole query).length by omega)]
      exact ⟨_, rfl, (hcached (i + 1) (Nat.succ_pos i) (by omega)).mpr
        ⟨a, ha, le_trans hi hle⟩⟩

/-- An injective stand-in for the built-in hash. Its values are negative, so none
is the root. -/
def negEncode (p : BlockHash × List Token) : BlockHash := -(Encodable.encode p : ℤ) - 1

theorem negEncode_injective : Function.Injective negEncode := by
  intro p q h
  have hint : -(Encodable.encode p : ℤ) - 1 = -(Encodable.encode q : ℤ) - 1 := h
  exact Encodable.encode_injective (by omega)

theorem negEncode_ne_root (p : BlockHash × List Token) : negEncode p ≠ root := by
  change -(Encodable.encode p : ℤ) - 1 ≠ 1469598103934665603
  omega

/-- Of two admitted sequences one shares no block of two tokens with the query,
and the other shares two of its three. -/
theorem matched_eq_longest_common_prefix_two :
    ∃ n, (init 0 4 : Node ℚ).admitAll (tokenCalls negEncode 2
        [([1, 5, 3], { now := 0, serviceTime := 0, reqBlocks := [] }),
          ([1, 2, 3, 4], { now := 1, serviceTime := 0, reqBlocks := [] })]) = some n ∧
      n.matched (hashBlocks negEncode [1, 2, 3, 4, 5, 6] 2) = 2 := by
  refine matched_eq_longest_common_prefix negEncode_injective negEncode_ne_root (by decide)
    0 4 .lru _ ?_ [1, 2, 3, 4, 5, 6]
  intro before call after hsplit n hrun
  obtain _ | ⟨first, _ | ⟨second, rest⟩⟩ := before
  · obtain ⟨rfl, -⟩ := List.cons.inj hsplit
    obtain rfl := Option.some.inj hrun
    decide +kernel
  · obtain ⟨rfl, hrest⟩ := List.cons.inj hsplit
    obtain ⟨rfl, -⟩ := List.cons.inj hrest
    have hfits : ((init 0 4 : Node ℚ).admitAll (tokenCalls negEncode 2
        [([1, 5, 3], { now := 0, serviceTime := 0, reqBlocks := [] })])).all (fun n =>
      decide (((n.insertBlocks
        { now := 1
          serviceTime := 0
          reqBlocks := hashBlocks negEncode [1, 2, 3, 4] 2 }).cache.len : ℤ) ≤
        n.cacheCapacity)) = true := by
      decide +kernel
    exact of_decide_eq_true ((Option.all_eq_true _ _).mp hfits n hrun)
  · simp [tokenCalls] at hsplit

end Node

end SchedLm.Sim
