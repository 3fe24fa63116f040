import SchedLm.Library.RankedEviction
import SchedLm.Sim.Node

/-!
The reference eviction model and its refinement by `Node.admitRequest`. The
reference keeps each resident block with its mark in recency order, ranks all of
them at once and drops the lowest-ranked excess; the node picks one victim at a
time with a three-bucket scan.
-/

namespace SchedLm.Sim

open RankedEviction

variable {K : Type} [Scalar K]

abbrev Mark (K : Type) := ℤ × WithTop K

/-- Effective class of a block at `now`, with the order inside the class:
live evict-first, then unmarked or expired, then live marks by priority and
expiry. -/
def effectiveKey (now : K) : Option (Mark K) → ℕ ×ₗ ℤ ×ₗ WithTop K
  | none => toLex (1, toLex (0, 0))
  | some (prio, expiry) =>
    if expiry ≤ (now : WithTop K) then toLex (1, toLex (0, 0))
    else if prio < 0 then toLex (0, toLex (0, 0))
    else toLex (2, toLex (prio, expiry))

def isPinned (now : K) : Option (Mark K) → Bool
  | none => false
  | some (prio, expiry) => decide ((now : WithTop K) < expiry) && decide (0 ≤ prio)

/-- Resident blocks with their marks, oldest first, and the pressure counter. -/
@[ext]
structure RefCache (K : Type) where
  resident : List (BlockHash × Option (Mark K))
  pinnedEvictions : ℕ

namespace RefCache

def touch (mark : Option (Mark K)) (resident : List (BlockHash × Option (Mark K)))
    (h : BlockHash) : List (BlockHash × Option (Mark K)) :=
  resident.filter (fun entry => entry.1 ≠ h) ++ [(h, mark)]

def rank (now : K) (resident : List (BlockHash × Option (Mark K))) :
    BlockHash × Option (Mark K) → (ℕ ×ₗ ℤ ×ₗ WithTop K) ×ₗ ℕ :=
  keyed (fun entry => effectiveKey now entry.2)
    (fun entry => (resident.map Prod.fst).idxOf entry.1)

theorem rank_injective (now : K) {resident : List (BlockHash × Option (Mark K))}
    (hdistinct : (resident.map Prod.fst).Nodup) :
    ∀ a ∈ resident, ∀ b ∈ resident, rank now resident a = rank now resident b → a = b := by
  intro a ha b hb hrank
  have hpos := congrArg (fun r => (ofLex r).2) hrank
  simp only [rank, keyed, ofLex_toLex] at hpos
  exact List.inj_on_of_nodup_map hdistinct ha hb
    ((List.idxOf_inj (List.mem_map_of_mem ha)).mp hpos)

def markOf (call : AdmitCall K) : Option (Mark K) :=
  match Node.directive call.now call.retainUntil call.priority with
  | (none, _) => none
  | (some prio, expiry) => some (prio, expiry)

/-- One request: touch its blocks, then drop the lowest-ranked excess, all at once where
the node drops one block after the other. -/
def serve (capacity : ℕ) (call : AdmitCall K) (c : RefCache K) : RefCache K :=
  let moved := call.reqBlocks.foldl (touch (markOf call)) c.resident
  let excess := moved.length - capacity
  { resident := dropLowest (rank call.now moved) excess moved
    pinnedEvictions := c.pinnedEvictions +
      (lowest (rank call.now moved) excess moved).countP
        fun entry => isPinned call.now entry.2 }

end RefCache

namespace Node

/-- The mark the node's tables hold for a block, as the victim scan reads it. -/
def mark (n : Node K) (h : BlockHash) : Option (Mark K) :=
  (n.priority.lookup h).map fun prio => (prio, (n.expiry.lookup h).getD 0)

def view (n : Node K) : RefCache K where
  resident := n.cache.keys.map fun h => (h, n.mark h)
  pinnedEvictions := n.pinnedEvictions

theorem mark_stamp (prio : Option ℤ) (expiry : WithTop K) (n : Node K) (h : BlockHash) :
    (stamp prio expiry n h).mark h = prio.map fun p => (p, expiry) := by
  cases prio with
  | none => simp [stamp, mark]
  | some p => simp [stamp, mark]

theorem mark_stamp_ne (prio : Option ℤ) (expiry : WithTop K) (n : Node K)
    {h other : BlockHash} (hne : other ≠ h) :
    (stamp prio expiry n h).mark other = n.mark other := by
  cases prio with
  | none => simp [stamp, mark, AList.lookup_erase_ne hne]
  | some p => simp [stamp, mark, AList.lookup_insert_ne hne]

theorem resident_stamp (prio : Option ℤ) (expiry : WithTop K) (n : Node K)
    (h : BlockHash) :
    (stamp prio expiry n h).view.resident =
      RefCache.touch (prio.map fun p => (p, expiry)) n.view.resident h := by
  have hold : (n.cache.keys.erase h).map (fun b => (b, (stamp prio expiry n h).mark b)) =
      (n.cache.keys.map fun b => (b, n.mark b)).filter fun entry => entry.1 ≠ h := by
    rw [n.cache.keys_nodup.erase_eq_filter, List.filter_map]
    have hpred : (fun b => b != h) =
        (fun entry : BlockHash × Option (Mark K) => decide (entry.1 ≠ h)) ∘
          fun b => (b, n.mark b) := by
      funext b
      simp [bne, beq_eq_decide]
    rw [hpred]
    apply List.map_congr_left
    intro b hb
    have hne : b ≠ h := by simpa using (List.mem_filter.mp hb).2
    rw [mark_stamp_ne prio expiry n hne]
  simp only [view, keys_stamp, List.map_append, RefCache.touch, hold, List.map_cons,
    List.map_nil, mark_stamp]

def blockKey (n : Node K) (now : K) (h : BlockHash) : ℕ ×ₗ ℤ ×ₗ WithTop K :=
  effectiveKey now (n.mark h)

/-- What one turn of the scan does, by the class of the block it reads: live
evict-first, unmarked or run out, or a live mark. -/
theorem scanBlock_cases (n : Node K) (now : K) (b : Buckets K) (h : BlockHash) :
    (n.blockKey now h = toLex (1, toLex (0, 0)) ∧ isPinned now (n.mark h) = false ∧
      n.scanBlock now b h =
        if b.unmarked.isNone then { b with unmarked := some h } else b) ∨
    (n.blockKey now h = toLex (0, toLex (0, 0)) ∧ isPinned now (n.mark h) = false ∧
      n.scanBlock now b h =
        if b.evictFirst.isNone then { b with evictFirst := some h } else b) ∨
    (∃ key, n.blockKey now h = toLex (2, key) ∧ isPinned now (n.mark h) = true ∧
      n.scanBlock now b h =
        match b.markedKey with
        | none => { b with markedKey := some key, marked := some h }
        | some best =>
          if key < best then { b with markedKey := some key, marked := some h } else b) := by
  cases hprio : n.priority.lookup h with
  | none => exact Or.inl (by simp [blockKey, mark, effectiveKey, isPinned, scanBlock, hprio])
  | some prio =>
    by_cases hexp : (n.expiry.lookup h).getD 0 ≤ (now : WithTop K)
    · refine Or.inl ?_
      simp [blockKey, mark, effectiveKey, isPinned, scanBlock, hprio, hexp, not_lt.mpr hexp]
    · by_cases hneg : prio < 0
      · refine Or.inr (Or.inl ?_)
        simp [blockKey, mark, effectiveKey, isPinned, scanBlock, hprio, hexp, hneg]
      · refine Or.inr (Or.inr ⟨toLex (prio, (n.expiry.lookup h).getD 0), ?_⟩)
        cases hmarked : b.markedKey with
        | none =>
          simp [blockKey, mark, effectiveKey, isPinned, scanBlock, hprio, hexp, hneg, hmarked,
            not_le.mp hexp, not_lt.mp hneg]
        | some best =>
          simp [blockKey, mark, effectiveKey, isPinned, scanBlock, hprio, hexp, hneg, hmarked,
            not_le.mp hexp, not_lt.mp hneg]

def bucketVictim (b : Buckets K) : Option BlockHash :=
  b.evictFirst.or (b.unmarked.or b.marked)

/-- After scanning `seen`, the buckets hold blocks of their class and the victim
is the first block of `seen` with the least key. -/
structure ScanInv (n : Node K) (now : K) (seen : List BlockHash) (b : Buckets K) : Prop where
  evictFirst_key : ∀ h, b.evictFirst = some h → n.blockKey now h = toLex (0, toLex (0, 0))
  unmarked_key : ∀ h, b.unmarked = some h → n.blockKey now h = toLex (1, toLex (0, 0))
  marked_key : b.marked.map (n.blockKey now) = b.markedKey.map fun key => toLex (2, key)
  victim : bucketVictim b = seen.argmin (n.blockKey now)

section ScanStep

variable {n : Node K} {now : K} {seen : List BlockHash} {b : Buckets K} {h : BlockHash}

private theorem ScanInv.argmin_concat (inv : ScanInv n now seen b) (h : BlockHash) :
    (seen ++ [h]).argmin (n.blockKey now) =
      Option.casesOn (bucketVictim b) (some h) fun c =>
        if n.blockKey now h < n.blockKey now c then some h else some c := by
  rw [List.argmin_concat, ← inv.victim]

private theorem ScanInv.exists_key (inv : ScanInv n now seen b) {c : BlockHash}
    (hm : b.marked = some c) : ∃ key, n.blockKey now c = toLex (2, key) := by
  have hmk := inv.marked_key
  cases hb : b.markedKey with
  | none => simp [hm, hb] at hmk
  | some key => exact ⟨key, by simpa [hm, hb] using hmk⟩

/-- A pinned block competes only when the two lower buckets are empty. -/
private theorem ScanInv.victim_of_pinned (inv : ScanInv n now seen b)
    {key : ℤ ×ₗ WithTop K} (hkey : n.blockKey now h = toLex (2, key)) {marked : Option BlockHash}
    (hmarked : b.evictFirst = none → b.unmarked = none →
      marked = (seen ++ [h]).argmin (n.blockKey now)) :
    b.evictFirst.or (b.unmarked.or marked) = (seen ++ [h]).argmin (n.blockKey now) := by
  cases he : b.evictFirst with
  | some e =>
    rw [inv.argmin_concat]
    simp [bucketVictim, he, hkey, inv.evictFirst_key e he, Prod.Lex.toLex_lt_toLex]
  | none =>
    cases hu : b.unmarked with
    | some c =>
      rw [inv.argmin_concat]
      simp [bucketVictim, he, hu, hkey, inv.unmarked_key c hu, Prod.Lex.toLex_lt_toLex]
    | none => simpa using hmarked he hu

/-- A block that is not pinned is below everything in the pinned bucket. -/
private theorem ScanInv.argmin_of_marked (inv : ScanInv n now seen b)
    (he : b.evictFirst = none) (hu : b.unmarked = none)
    (hlow : ∀ key, n.blockKey now h < toLex (2, key)) :
    (seen ++ [h]).argmin (n.blockKey now) = some h := by
  rw [inv.argmin_concat]
  cases hm : b.marked with
  | none => simp [bucketVictim, hu, he, hm]
  | some c =>
    obtain ⟨key, hc⟩ := inv.exists_key hm
    simp [bucketVictim, hu, he, hm, hc, hlow]

theorem ScanInv.step (inv : ScanInv n now seen b) (h : BlockHash) :
    ScanInv n now (seen ++ [h]) (n.scanBlock now b h) := by
  have hargmin := inv.argmin_concat h
  have hev := inv.evictFirst_key
  have hun := inv.unmarked_key
  have hmk := inv.marked_key
  rcases scanBlock_cases n now b h with ⟨hkey, -, hscan⟩ | ⟨hkey, -, hscan⟩ |
    ⟨key, hkey, -, hscan⟩
  · -- an unmarked or expired block matters only when no bucket at or below it is filled
    rw [hscan]
    cases hu : b.unmarked with
    | some c =>
      refine ⟨hev, by simpa [hu] using hun, hmk, ?_⟩
      rw [hargmin]
      cases he : b.evictFirst with
      | some e => simp [bucketVictim, hu, he, hkey, hev e he, Prod.Lex.toLex_lt_toLex]
      | none => simp [bucketVictim, hu, he, hkey, hun c hu]
    | none =>
      refine ⟨hev, by simpa using hkey, hmk, ?_⟩
      cases he : b.evictFirst with
      | some e =>
        rw [hargmin]
        simp [bucketVictim, hu, he, hkey, hev e he, Prod.Lex.toLex_lt_toLex]
      | none =>
        rw [inv.argmin_of_marked he hu fun key => by simp [hkey, Prod.Lex.toLex_lt_toLex]]
        simp [bucketVictim]
  · -- an evict-first block is below everything except an earlier evict-first block
    rw [hscan]
    cases he : b.evictFirst with
    | some e =>
      refine ⟨by simpa [he] using hev, hun, hmk, ?_⟩
      rw [hargmin]
      simp [bucketVictim, he, hkey, hev e he]
    | none =>
      refine ⟨by simpa using hkey, hun, hmk, ?_⟩
      cases hu : b.unmarked with
      | some c =>
        rw [hargmin]
        simp [bucketVictim, hu, he, hkey, hun c hu, Prod.Lex.toLex_lt_toLex]
      | none =>
        rw [inv.argmin_of_marked he hu fun key => by simp [hkey, Prod.Lex.toLex_lt_toLex]]
        simp [bucketVictim]
  · -- a pinned block competes only with earlier pinned blocks
    rw [hscan]
    cases hb : b.markedKey with
    | none =>
      have hm : b.marked = none := by simpa [hb] using hmk
      refine ⟨hev, hun, by simp [hkey], ?_⟩
      apply inv.victim_of_pinned hkey
      intro he hu
      rw [hargmin]
      simp [bucketVictim, hu, he, hm]
    | some best =>
      obtain ⟨c, hm, hc⟩ : ∃ c, b.marked = some c ∧ n.blockKey now c = toLex (2, best) := by
        simpa [hb] using hmk
      by_cases hlt : key < best
      · simp only [hlt, if_true]
        refine ⟨hev, hun, by simp [hkey], ?_⟩
        apply inv.victim_of_pinned hkey
        intro he hu
        rw [hargmin]
        simp [bucketVictim, hu, he, hm, hkey, hc, hlt, Prod.Lex.toLex_lt_toLex]
      · simp only [hlt, if_false]
        refine ⟨hev, hun, by simp [hm, hb, hc], ?_⟩
        apply inv.victim_of_pinned hkey
        intro he hu
        rw [hargmin]
        simp [bucketVictim, hu, he, hm, hkey, hc, hlt, Prod.Lex.toLex_lt_toLex]

end ScanStep

theorem scan_inv (n : Node K) (now : K) (seen : List BlockHash) :
    ScanInv n now seen (seen.foldl (n.scanBlock now) {}) := by
  induction seen using List.reverseRecOn with
  | nil => exact ⟨by simp, by simp, by simp, by simp [bucketVictim]⟩
  | append_singleton seen h ih =>
    rw [List.foldl_append]
    exact ih.step h

theorem isPinned_iff_blockKey (n : Node K) (now : K) (h : BlockHash) :
    isPinned now (n.mark h) = true ↔ ∃ key, n.blockKey now h = toLex (2, key) := by
  rcases scanBlock_cases n now {} h with ⟨hkey, hpin, -⟩ | ⟨hkey, hpin, -⟩ | ⟨key, hkey, hpin, -⟩
  · simp [hkey, hpin]
  · simp [hkey, hpin]
  · simp [hkey, hpin]

/-- The full scan gives up the first block with the least effective key and
counts it when it is pinned. -/
theorem scanVictim_eq (n : Node K) (now : K) :
    n.scanVictim now = (n.cache.keys.argmin (n.blockKey now), { n with
      pinnedEvictions := n.pinnedEvictions +
        (n.cache.keys.argmin (n.blockKey now)).elim 0
          fun h => if isPinned now (n.mark h) then 1 else 0 }) := by
  obtain ⟨hev, hun, hmk, hvic⟩ := scan_inv n now n.cache.keys
  rw [← hvic]
  unfold scanVictim
  cases he : (n.cache.keys.foldl (n.scanBlock now) {}).evictFirst with
  | some h =>
    have hpin : isPinned now (n.mark h) = false := by
      rw [← Bool.not_eq_true, isPinned_iff_blockKey, hev h he]
      simp
    simp [bucketVictim, he, hpin]
  | none =>
    cases hu : (n.cache.keys.foldl (n.scanBlock now) {}).unmarked with
    | some h =>
      have hpin : isPinned now (n.mark h) = false := by
        rw [← Bool.not_eq_true, isPinned_iff_blockKey, hun h hu]
        simp
      simp [bucketVictim, he, hu, hpin]
    | none =>
      cases hm : (n.cache.keys.foldl (n.scanBlock now) {}).marked with
      | some h =>
        have hpin : isPinned now (n.mark h) = true := by
          rw [isPinned_iff_blockKey]
          rw [hm] at hmk
          cases hb : (n.cache.keys.foldl (n.scanBlock now) {}).markedKey with
          | none => simp [hb] at hmk
          | some best => exact ⟨best, by simpa [hb] using hmk⟩
        simp [bucketVictim, he, hu, hm, hpin]
      | none => simp [bucketVictim, he, hu, hm]

/-- With no directive on any block the scan also takes the oldest block. -/
theorem scanVictim_of_no_directives (n : Node K) (now : K) (hempty : n.priority.keys = []) :
    n.scanVictim now = (n.cache.keys.head?, n) := by
  have hmark : ∀ h, n.mark h = none := by
    intro h
    have hlookup : n.priority.lookup h = none := by
      rw [AList.lookup_eq_none, AList.mem_keys, hempty]
      simp
    simp [mark, hlookup]
  have hargmin : n.cache.keys.argmin (n.blockKey now) = n.cache.keys.head? := by
    exact argmin_eq_head? fun h _ => by rw [blockKey, hmark, effectiveKey]
  rw [scanVictim_eq, hargmin]
  cases n.cache.keys.head? <;> simp [hmark, isPinned]

/-- The short cut of the base node agrees with the full scan: without a directive all
blocks are of one class, and the scan takes the oldest as well. -/
theorem pickVictim_lru (n : Node K) (now : K) (hlru : n.eviction = .lru) :
    n.pickVictim now = n.scanVictim now := by
  unfold pickVictim
  rw [hlru]
  simp only
  split_ifs with hempty
  · rw [scanVictim_of_no_directives n now (by simpa using hempty)]
  · rfl

/-- One eviction of the base node: the first block with the least key leaves
the cache and the tables, and is counted when it is pinned. -/
theorem evictOne_lru {n : Node K} (now : K) {m : BlockHash} (hlru : n.eviction = .lru)
    (hm : m ∈ n.cache.keys.argmin (n.blockKey now)) :
    n.evictOne now = { n with
      cache := n.cache.erase m
      priority := n.priority.erase m
      expiry := n.expiry.erase m
      pinnedEvictions := n.pinnedEvictions + if isPinned now (n.mark m) then 1 else 0 } := by
  unfold evictOne
  rw [pickVictim_lru n now hlru, scanVictim_eq, Option.mem_def.mp hm]
  rfl

theorem mark_evictOne {n : Node K} (now : K) {m h : BlockHash} (hlru : n.eviction = .lru)
    (hm : m ∈ n.cache.keys.argmin (n.blockKey now)) (hne : h ≠ m) :
    (n.evictOne now).mark h = n.mark h := by
  rw [evictOne_lru now hlru hm]
  simp [mark, AList.lookup_erase_ne hne]

/-- What the eviction loop has made of a base node: the lowest-ranked blocks are
gone, counted when they are pinned. `pos` is any position that grows along the
cache, so that ranks do not change as blocks leave. -/
structure LowestGone (now : K) (pos : BlockHash → ℕ) (n m : Node K) : Prop where
  lru : m.eviction = .lru
  le : m.cache.len ≤ n.cache.len
  keys : m.cache.keys = dropLowest (keyed (n.blockKey now) pos)
    (n.cache.len - m.cache.len) n.cache.keys
  marks : ∀ h ∈ m.cache.keys, m.mark h = n.mark h
  counted : m.pinnedEvictions = n.pinnedEvictions +
    (lowest (keyed (n.blockKey now) pos) (n.cache.len - m.cache.len) n.cache.keys).countP
      fun h => isPinned now (n.mark h)

theorem LowestGone.evictOne {now : K} {pos : BlockHash → ℕ} {n m : Node K}
    (h : LowestGone now pos n m) (hpos : n.cache.keys.Pairwise fun a b => pos a < pos b)
    (hne : m.cache.keys ≠ []) :
    LowestGone now pos n (m.evictOne now) ∧ (m.evictOne now).cache.len + 1 = m.cache.len := by
  obtain ⟨victim, hvictim⟩ := Option.ne_none_iff_exists'.mp
    (mt List.argmin_eq_none.mp hne : m.cache.keys.argmin (m.blockKey now) ≠ none)
  have hmem : victim ∈ m.cache.keys := List.argmin_mem hvictim
  have hstep := evictOne_lru now h.lru hvictim
  have hkeys : (m.evictOne now).cache.keys = m.cache.keys.erase victim := by
    rw [hstep, AList.keys_erase]
  have hlen : (m.evictOne now).cache.len + 1 = m.cache.len := by
    unfold OrderedDict.len
    rw [hkeys, List.length_erase_of_mem hmem]
    exact Nat.sub_add_cancel (List.length_pos_of_mem hmem)
  have hle := h.le
  have hgone : n.cache.len - (m.evictOne now).cache.len = n.cache.len - m.cache.len + 1 := by
    omega
  -- the victim is the next in rank of the node the loop started from
  have hsub : m.cache.keys.Sublist n.cache.keys := h.keys ▸ dropLowest_sublist _ _ _
  have hkey : ∀ a ∈ m.cache.keys, m.blockKey now a = n.blockKey now a := by
    intro a ha
    rw [blockKey, blockKey, h.marks a ha]
  have hlow : IsLowest (keyed (n.blockKey now) pos) m.cache.keys victim :=
    (isLowest_of_argmin (hpos.sublist hsub) hvictim).congr fun a ha => by
      rw [keyed, keyed, hkey a ha]
  rw [h.keys] at hlow
  obtain ⟨hdrop, hperm⟩ := hlow.dropLowest_next n.cache.keys_nodup (keyed_injOn hpos)
  refine ⟨⟨?_, by omega, ?_, ?_, ?_⟩, hlen⟩
  · exact (m.evictOne_sameServer now).eviction.trans h.lru
  · rw [hgone, hdrop, hkeys, ← h.keys]
  · intro b hb
    rw [hkeys] at hb
    rw [mark_evictOne now h.lru hvictim (m.cache.keys_nodup.mem_erase_iff.mp hb).1,
      h.marks b (List.mem_of_mem_erase hb)]
  · have hone : (m.evictOne now).pinnedEvictions =
        m.pinnedEvictions + if isPinned now (m.mark victim) then 1 else 0 := by rw [hstep]
    rw [hgone, hperm.countP_eq, List.countP_cons, hone, h.counted, h.marks victim hmem,
      Nat.add_assoc]

/-- The eviction loop of the base node, one victim at a time, drops the lowest-ranked
excess at once. The induction is on the fuel, and ranks do not change as blocks leave.
-/
theorem evictWhile_lru (now : K) (pos : BlockHash → ℕ) (fuel : ℕ) (n : Node K)
    (hlru : n.eviction = .lru) (hcap : 0 ≤ n.cacheCapacity) (hfuel : n.cache.len ≤ fuel)
    (hpos : n.cache.keys.Pairwise fun a b => pos a < pos b) :
    ∃ n', n.evictWhile now fuel = some n' ∧
      n'.cache.keys = dropLowest (keyed (n.blockKey now) pos)
        (n.cache.len - n.cacheCapacity.toNat) n.cache.keys ∧
      (∀ h ∈ n'.cache.keys, n'.mark h = n.mark h) ∧
      n'.pinnedEvictions = n.pinnedEvictions +
        (lowest (keyed (n.blockKey now) pos)
          (n.cache.len - n.cacheCapacity.toNat) n.cache.keys).countP
            fun h => isPinned now (n.mark h) := by
  have hstart : LowestGone now pos n n := by
    refine ⟨hlru, le_rfl, ?_, fun h _ => rfl, ?_⟩
    · rw [Nat.sub_self, dropLowest_zero]
    · rw [Nat.sub_self, lowest_zero, List.countP_nil, Nat.add_zero]
  obtain ⟨n', hrun, hleft, hfit⟩ := evictWhile_rule (LowestGone now pos n)
    (fun m hm _ hne => hm.evictOne hpos hne) hstart hcap hfuel
  have hgone : n.cache.len - n'.cache.len = n.cache.len - n.cacheCapacity.toNat := by
    rw [hfit]
    omega
  have hkeys := hleft.keys
  have hcounted := hleft.counted
  rw [hgone] at hkeys hcounted
  exact ⟨n', hrun, hkeys, hleft.marks, hcounted⟩

/-- The insertion loop moves the request's blocks to the recent end and stamps
or clears their marks. -/
theorem resident_insertBlocks (n : Node K) (call : AdmitCall K) :
    (n.insertBlocks call).view.resident =
      call.reqBlocks.foldl (RefCache.touch (RefCache.markOf call)) n.view.resident := by
  have hmark : RefCache.markOf call =
      (directive call.now call.retainUntil call.priority).1.map
        fun p => (p, (directive call.now call.retainUntil call.priority).2) := by
    unfold RefCache.markOf
    cases h : directive call.now call.retainUntil call.priority with
    | mk prio expiry => cases prio <;> rfl
  unfold insertBlocks
  rw [hmark]
  generalize directive call.now call.retainUntil call.priority = mark
  induction call.reqBlocks using List.reverseRecOn with
  | nil => rfl
  | append_singleton hs h ih =>
    simp only [List.foldl_append, List.foldl_cons, List.foldl_nil]
    rw [resident_stamp, ih]

@[simp] theorem blocks_view (n : Node K) :
    n.view.resident.map Prod.fst = n.cache.keys := by
  simp [view, Function.comp_def]

/-- One `admit` call of the base node is one step of the reference model, and always
gets through. -/
theorem admitRequest_view (n : Node K) (call : AdmitCall K) (hlru : n.eviction = .lru)
    (hcap : 0 ≤ n.cacheCapacity) :
    ∃ n', n.admitRequest call = some n' ∧
      n'.view = RefCache.serve n.cacheCapacity.toNat call n.view := by
  have hframe := n.insertBlocks_frame call
  have hres := n.resident_insertBlocks call
  generalize hi : n.insertBlocks call = i at hframe hres
  have hlru' : i.eviction = .lru := by rw [hframe]; exact hlru
  have hcap' : i.cacheCapacity = n.cacheCapacity := by rw [hframe]
  have hpin : i.pinnedEvictions = n.pinnedEvictions := by rw [hframe]
  obtain ⟨n', hrun, hkeys, hmarks, hcount⟩ := evictWhile_lru call.now i.cache.keys.idxOf
    i.cache.len i hlru' (by rw [hcap']; exact hcap) le_rfl (pairwise_idxOf i.cache.keys_nodup)
  refine ⟨n', by unfold admitRequest; rw [hi]; exact hrun, ?_⟩
  have hrank : keyed (i.blockKey call.now) i.cache.keys.idxOf =
      RefCache.rank call.now i.view.resident ∘ fun h => (h, i.mark h) := by
    funext h
    simp only [RefCache.rank, blocks_view]
    rfl
  have hlen : i.cache.len = i.view.resident.length := by simp [view, OrderedDict.len]
  rw [RefCache.serve, ← hres]
  rw [hcap', hrank, hlen] at hkeys hcount
  have hresident : n'.view.resident =
      dropLowest (RefCache.rank call.now i.view.resident)
        (i.view.resident.length - n.cacheCapacity.toNat) i.view.resident := by
    have hmap : n'.view.resident = n'.cache.keys.map fun h => (h, i.mark h) :=
      List.map_congr_left fun h hh => by rw [hmarks h hh]
    rw [hmap, hkeys, ← dropLowest_map]
    rfl
  have hpinned : n'.view.pinnedEvictions = n.view.pinnedEvictions +
      (lowest (RefCache.rank call.now i.view.resident)
        (i.view.resident.length - n.cacheCapacity.toNat) i.view.resident).countP
          fun entry => isPinned call.now entry.2 := by
    have hview : i.view.resident = i.cache.keys.map fun h => (h, i.mark h) := rfl
    have hlow := lowest_map (fun h => (h, i.mark h)) (RefCache.rank call.now i.view.resident)
      (i.view.resident.length - n.cacheCapacity.toNat) i.cache.keys
    rw [← hview] at hlow
    rw [hlow, List.countP_map]
    exact hcount.trans (by rw [hpin]; rfl)
  exact RefCache.ext hresident hpinned

/-- Over one `admit` call, on any base node with room for no fewer than zero blocks,
whatever it holds and however it is marked, the node behaves as the reference model: it
keeps the same blocks with the same marks in the same order, and counts the same pinned
evictions. What the model drops is exactly the excess over the capacity, lowest rank
first, and the short cut taken without directives is the full scan. -/
theorem admitRequest_eq_reference (n : Node K) (call : AdmitCall K)
    (hlru : n.eviction = .lru) (hcap : 0 ≤ n.cacheCapacity) :
    (∃ n', n.admitRequest call = some n' ∧
      n'.view = RefCache.serve n.cacheCapacity.toNat call n.view) ∧
    (let moved := call.reqBlocks.foldl (RefCache.touch (RefCache.markOf call))
      n.view.resident
     (lowest (RefCache.rank call.now moved) (moved.length - n.cacheCapacity.toNat)
        moved).length = moved.length - n.cacheCapacity.toNat) ∧
    (∀ now, n.priority.keys = [] → n.scanVictim now = (n.cache.keys.head?, n)) := by
  refine ⟨n.admitRequest_view call hlru hcap, ?_, fun now => n.scanVictim_of_no_directives now⟩
  simp only
  rw [← n.resident_insertBlocks call]
  have hdistinct : ((n.insertBlocks call).view.resident.map Prod.fst).Nodup := by
    rw [blocks_view]
    exact AList.keys_nodup _
  rw [length_lowest _ (List.Nodup.of_map _ hdistinct) (RefCache.rank_injective _ hdistinct)]
  omega

/-- A full node of three: a live lease, one that has run out by now, and a block
that is to go first. -/
def threeMarks : Node ℚ :=
  (((init 0 3).stamp (some pinned) ((10 : ℚ) : WithTop ℚ) 1).stamp (some high)
    ((1 : ℚ) : WithTop ℚ) 2).stamp (some evictFirst) ⊤ 3

/-- Two new blocks push out the one that is to go first and the one whose lease
has run out. -/
theorem admitRequest_eq_reference_marked :
    ∃ n', threeMarks.admitRequest { now := 5, serviceTime := 1, reqBlocks := [4, 5] } =
        some n' ∧
      n'.view = RefCache.serve 3 { now := (5 : ℚ), serviceTime := 1, reqBlocks := [4, 5] }
        threeMarks.view ∧
      n'.cache.keys = [1, 4, 5] := by
  obtain ⟨⟨n', hadmitted, hview⟩, -⟩ := admitRequest_eq_reference threeMarks
    { now := 5, serviceTime := 1, reqBlocks := [4, 5] } rfl (by decide)
  have hkeys : (threeMarks.admitRequest { now := 5, serviceTime := 1, reqBlocks := [4, 5] }).map
      (fun n => n.cache.keys) = some [1, 4, 5] := by decide +kernel
  rw [hadmitted] at hkeys
  exact ⟨n', hadmitted, hview, Option.some.inj hkeys⟩

end Node

end SchedLm.Sim
