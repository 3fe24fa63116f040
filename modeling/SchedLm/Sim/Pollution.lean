import SchedLm.Sim.Eviction

/-!
Evict-first traffic is invisible to the rest of a cache. In the reference model
the blocks that are not evict-first evolve on their own: `serve` commutes with
forgetting every evict-first resident. A request whose blocks are all evict-first
and foreign to the rest therefore changes nothing outside its own bucket.
-/

namespace SchedLm.Sim

open RankedEviction

variable {K : Type}

def isEvictFirst : Option (Mark K) → Bool
  | none => false
  | some (prio, _) => decide (prio < 0)

namespace RefCache

/-- The residents that are not evict-first, in recency order. -/
def others (resident : List (BlockHash × Option (Mark K))) :
    List (BlockHash × Option (Mark K)) :=
  resident.filter fun entry => !isEvictFirst entry.2

/-- Every evict-first mark is persistent. -/
def Persistent (resident : List (BlockHash × Option (Mark K))) : Prop :=
  ∀ h prio expiry, (h, some (prio, expiry)) ∈ resident → prio < 0 → expiry = ⊤

def Distinct (resident : List (BlockHash × Option (Mark K))) : Prop :=
  (resident.map Prod.fst).Nodup

theorem mem_touch {mark : Option (Mark K)} {resident : List (BlockHash × Option (Mark K))}
    {h : BlockHash} {entry : BlockHash × Option (Mark K)} :
    entry ∈ touch mark resident h ↔ entry ∈ resident ∧ entry.1 ≠ h ∨ entry = (h, mark) := by
  simp [touch]

theorem touch_distinct {mark : Option (Mark K)}
    {resident : List (BlockHash × Option (Mark K))} {h : BlockHash}
    (hdistinct : Distinct resident) : Distinct (touch mark resident h) := by
  unfold Distinct touch at *
  rw [List.map_append, List.nodup_append]
  refine ⟨hdistinct.sublist (List.filter_sublist.map _), by simp, ?_⟩
  intro a ha b hb hab
  simp only [List.map_cons, List.map_nil, List.mem_singleton] at hb
  subst hab hb
  obtain ⟨entry, hentry, heq⟩ := List.mem_map.mp ha
  have hne := (List.mem_filter.mp hentry).2
  simp [heq] at hne

/-- Touching a block and then forgetting the evict-first residents depends only
on what is not evict-first. -/
theorem others_touch (mark : Option (Mark K))
    (resident : List (BlockHash × Option (Mark K))) (h : BlockHash) :
    others (touch mark resident h) = others (touch mark (others resident) h) := by
  simp only [others, touch, List.filter_append, List.filter_filter]
  congr 1
  apply List.filter_congr
  intro entry _
  cases isEvictFirst entry.2 <;> simp

theorem others_foldl_touch (mark : Option (Mark K)) (blocks : List BlockHash)
    {left right : List (BlockHash × Option (Mark K))} (hsame : others left = others right) :
    others (blocks.foldl (touch mark) left) = others (blocks.foldl (touch mark) right) := by
  induction blocks generalizing left right with
  | nil => exact hsame
  | cons h rest ih =>
    apply ih
    rw [others_touch, hsame, ← others_touch]

/-- Touching foreign blocks with an evict-first mark leaves the others alone. -/
theorem others_foldl_touch_foreign {mark : Option (Mark K)} (hmark : isEvictFirst mark = true)
    (blocks : List BlockHash) (resident : List (BlockHash × Option (Mark K)))
    (hforeign : ∀ entry ∈ others resident, entry.1 ∉ blocks) :
    others (blocks.foldl (touch mark) resident) = others resident := by
  induction blocks generalizing resident with
  | nil => rfl
  | cons h rest ih =>
    have htouch : others (touch mark resident h) = others resident := by
      simp only [others, touch, List.filter_append, List.filter_filter]
      rw [List.filter_singleton, hmark]
      simp only [Bool.not_true, cond_false, List.append_nil]
      apply List.filter_congr
      intro entry hentry
      cases hev : isEvictFirst entry.2 with
      | true => simp
      | false =>
        have hmem : entry ∈ others resident := by
          simp [others, hentry, hev]
        have hne : entry.1 ≠ h := fun heq => hforeign entry hmem (by simp [heq])
        simp [hne]
    rw [List.foldl_cons, ih, htouch]
    intro entry hentry
    rw [htouch] at hentry
    exact fun hin => hforeign entry hentry (List.mem_cons_of_mem h hin)

theorem Persistent.touch {mark : Option (Mark K)}
    {resident : List (BlockHash × Option (Mark K))} (hpers : Persistent resident)
    (hmark : ∀ prio expiry, mark = some (prio, expiry) → prio < 0 → expiry = ⊤)
    (h : BlockHash) : Persistent (touch mark resident h) := by
  intro b prio expiry hmem hneg
  rcases mem_touch.mp hmem with ⟨hold, -⟩ | hnew
  · exact hpers b prio expiry hold hneg
  · simp only [Prod.mk.injEq] at hnew
    exact hmark prio expiry hnew.2.symm hneg

theorem Persistent.foldl_touch {mark : Option (Mark K)} (blocks : List BlockHash)
    {resident : List (BlockHash × Option (Mark K))} (hpers : Persistent resident)
    (hmark : ∀ prio expiry, mark = some (prio, expiry) → prio < 0 → expiry = ⊤) :
    Persistent (blocks.foldl (RefCache.touch mark) resident) := by
  induction blocks generalizing resident with
  | nil => exact hpers
  | cons h rest ih => exact ih (hpers.touch hmark h)

theorem Distinct.foldl_touch {mark : Option (Mark K)} (blocks : List BlockHash)
    {resident : List (BlockHash × Option (Mark K))} (hdistinct : Distinct resident) :
    Distinct (blocks.foldl (RefCache.touch mark) resident) := by
  induction blocks generalizing resident with
  | nil => exact hdistinct
  | cons h rest ih => exact ih (touch_distinct hdistinct)

variable [Scalar K]

/-- A persistent evict-first block has a lower effective class than any block
that is not evict-first. -/
theorem effectiveKey_lt_of_evictFirst (now : K) {low up : Option (Mark K)}
    (hpers : ∀ prio expiry, low = some (prio, expiry) → prio < 0 → expiry = ⊤)
    (hlow : isEvictFirst low = true) (hup : isEvictFirst up = false) :
    effectiveKey now low < effectiveKey now up := by
  have hzero : effectiveKey now low = toLex (0, toLex (0, 0)) := by
    cases low with
    | none => simp [isEvictFirst] at hlow
    | some mark =>
      obtain ⟨prio, expiry⟩ := mark
      have hneg : prio < 0 := by simpa [isEvictFirst] using hlow
      rw [hpers prio expiry rfl hneg]
      simp [effectiveKey, hneg]
  rw [hzero]
  cases up with
  | none => simp [effectiveKey, Prod.Lex.toLex_lt_toLex]
  | some mark =>
    obtain ⟨prio, expiry⟩ := mark
    have hpos : ¬ prio < 0 := by simpa [isEvictFirst] using hup
    simp only [effectiveKey, hpos, if_false]
    split_ifs <;> simp [Prod.Lex.toLex_lt_toLex]

/-- Ranks among the others are the same inside the whole cache and on their own. -/
theorem rank_others (now : K) {resident : List (BlockHash × Option (Mark K))}
    (hdistinct : Distinct resident) :
    ∀ a ∈ others resident, ∀ b ∈ others resident,
      rank now resident b < rank now resident a ↔
        rank now (others resident) b < rank now (others resident) a := by
  intro a ha b hb
  have hsub : ((others resident).map Prod.fst).Sublist (resident.map Prod.fst) :=
    List.filter_sublist.map _
  have hidx := idxOf_lt_idxOf_iff ((pairwise_idxOf hdistinct).sublist hsub)
    (List.mem_map_of_mem hb) (List.mem_map_of_mem ha)
  simp only [rank, keyed, Prod.Lex.toLex_lt_toLex, hidx]

/-- Eviction seen from outside the evict-first bucket: the others lose exactly
their own excess over the capacity, and only they can count as pressure. -/
theorem others_evict (now : K) (capacity : ℕ)
    {moved : List (BlockHash × Option (Mark K))} (hdistinct : Distinct moved)
    (hpers : Persistent moved) :
    others (dropLowest (rank now moved) (moved.length - capacity) moved) =
      dropLowest (rank now (others moved)) ((others moved).length - capacity)
        (others moved) ∧
    (lowest (rank now moved) (moved.length - capacity) moved).countP
        (fun entry => isPinned now entry.2) =
      (lowest (rank now (others moved)) ((others moved).length - capacity)
        (others moved)).countP fun entry => isPinned now entry.2 := by
  have hlow : ∀ a ∈ moved, ∀ b ∈ moved, (!isEvictFirst a.2) = false →
      (!isEvictFirst b.2) = true → rank now moved a < rank now moved b := by
    intro a ha b _ hea heb
    have hkey : effectiveKey now a.2 < effectiveKey now b.2 :=
      effectiveKey_lt_of_evictFirst now
        (fun prio expiry hmark => hpers a.1 prio expiry (by rw [← hmark]; exact ha))
        (by simpa using hea) (by simpa using heb)
    exact Prod.Lex.toLex_lt_toLex.mpr (Or.inl hkey)
  have hexcess : (moved.length - capacity) - moved.countP (fun a => !!isEvictFirst a.2) =
      (others moved).length - capacity := by
    have hsplit : moved.length = moved.countP (fun a => isEvictFirst a.2) +
        (others moved).length := by
      rw [others, ← List.countP_eq_length_filter, List.length_eq_countP_add_countP]
      congr 2
      funext a
      simp
    simp only [Bool.not_not]
    omega
  constructor
  · have hdrop := filter_dropLowest (moved.length - capacity) hlow
    rw [hexcess] at hdrop
    exact hdrop.trans (dropLowest_congr (rank_others now hdistinct))
  · have hlowest := filter_lowest (moved.length - capacity) hlow
    rw [hexcess] at hlowest
    have hsame : (lowest (rank now moved) (moved.length - capacity) moved).filter
        (fun a => !isEvictFirst a.2) =
        lowest (rank now (others moved)) ((others moved).length - capacity) (others moved) :=
      hlowest.trans (lowest_congr (rank_others now hdistinct))
    rw [← hsame, List.countP_filter]
    apply List.countP_congr
    intro entry _
    cases hmark : entry.2 with
    | none => simp [isPinned]
    | some mark =>
      obtain ⟨prio, expiry⟩ := mark
      simp only [isPinned, isEvictFirst, Bool.and_eq_true, decide_eq_true_eq,
        Bool.not_eq_true', decide_eq_false_iff_not, not_lt]
      tauto

omit [Scalar K] in
theorem Distinct.others {resident : List (BlockHash × Option (Mark K))}
    (hdistinct : Distinct resident) : Distinct (others resident) :=
  List.Nodup.sublist (List.filter_sublist.map _) hdistinct

/-- A cache state in which evict-first marks are persistent, no block is
resident twice, the others fit the capacity, and none of them is in `extra`. -/
structure Sound (capacity : ℕ) (extra : BlockHash → Prop) (c : RefCache K) : Prop where
  distinct : Distinct c.resident
  persistent : Persistent c.resident
  fits : (others c.resident).length ≤ capacity
  foreign : ∀ entry ∈ others c.resident, ¬ extra entry.1

/-- What a call may not do: leave an evict-first mark that expires. -/
def PersistentCall (call : AdmitCall K) : Prop :=
  ∀ prio, call.priority = some prio → prio < 0 →
    call.retainUntil ≤ (call.now : WithTop K)

theorem markOf_persistent {call : AdmitCall K} (hcall : PersistentCall call) :
    ∀ prio expiry, markOf call = some (prio, expiry) → prio < 0 → expiry = ⊤ := by
  intro prio expiry hmark hneg
  unfold markOf Node.directive at hmark
  cases hp : call.priority with
  | none =>
    rw [hp] at hmark
    by_cases hlease : (call.now : WithTop K) < call.retainUntil
    · simp only [hlease, if_true, Option.some.injEq, Prod.mk.injEq] at hmark
      rw [← hmark.1] at hneg
      exact absurd hneg (by decide)
    · simp [hlease] at hmark
  | some p =>
    rw [hp] at hmark
    simp only [Option.some.injEq, Prod.mk.injEq] at hmark
    have hpneg : p < 0 := by
      by_contra hge
      have : 0 ≤ clampPriority p := le_max_of_le_right (le_min (by decide) (not_lt.mp hge))
      rw [hmark.1] at this
      exact absurd hneg (not_lt.mpr this)
    rw [← hmark.2, if_neg (not_lt.mpr (hcall p hp hpneg))]

/-- The part of `serve` that is not evict-first, computed from the part of the
cache that is not evict-first. -/
theorem serve_others {capacity : ℕ} {extra : BlockHash → Prop} {call : AdmitCall K}
    {c : RefCache K} (hsound : Sound capacity extra c) (hcall : PersistentCall call) :
    let moved := others (call.reqBlocks.foldl (touch (markOf call)) (others c.resident))
    others (serve capacity call c).resident =
      dropLowest (rank call.now moved) (moved.length - capacity) moved ∧
    (serve capacity call c).pinnedEvictions = c.pinnedEvictions +
      (lowest (rank call.now moved) (moved.length - capacity) moved).countP
        fun entry => isPinned call.now entry.2 := by
  have hmoved := others_foldl_touch (markOf call) call.reqBlocks
    (show others c.resident = others (others c.resident) by simp [others])
  obtain ⟨hdrop, hcount⟩ := others_evict call.now capacity
    (hsound.distinct.foldl_touch call.reqBlocks)
    (hsound.persistent.foldl_touch call.reqBlocks (markOf_persistent hcall))
  rw [hmoved] at hdrop hcount
  exact ⟨hdrop, congrArg (c.pinnedEvictions + ·) hcount⟩

omit [Scalar K] in
theorem mem_foldl_touch {mark : Option (Mark K)} {blocks : List BlockHash}
    {resident : List (BlockHash × Option (Mark K))} {entry : BlockHash × Option (Mark K)}
    (hmem : entry ∈ blocks.foldl (touch mark) resident) :
    entry ∈ resident ∨ entry.1 ∈ blocks ∧ entry.2 = mark := by
  induction blocks generalizing resident with
  | nil => exact Or.inl hmem
  | cons h rest ih =>
    rcases ih hmem with hold | ⟨hin, hmark⟩
    · rcases mem_touch.mp hold with ⟨hold, -⟩ | rfl
      · exact Or.inl hold
      · exact Or.inr ⟨List.mem_cons_self, rfl⟩
    · exact Or.inr ⟨List.mem_cons_of_mem h hin, hmark⟩

/-- A call keeps the cache sound when it touches extra blocks only to mark them
evict-first. -/
theorem Sound.serve {capacity : ℕ} {extra : BlockHash → Prop} {call : AdmitCall K}
    {c : RefCache K} (hsound : Sound capacity extra c) (hcall : PersistentCall call)
    (hextra : ∀ h ∈ call.reqBlocks, extra h → isEvictFirst (markOf call) = true) :
    Sound capacity extra (serve capacity call c) := by
  have hsub : (RefCache.serve capacity call c).resident.Sublist
      (call.reqBlocks.foldl (touch (markOf call)) c.resident) := dropLowest_sublist _ _ _
  have hdistinct : Distinct (call.reqBlocks.foldl (touch (markOf call)) c.resident) :=
    hsound.distinct.foldl_touch call.reqBlocks
  have hmoved : Distinct
      (others (call.reqBlocks.foldl (touch (markOf call)) (others c.resident))) :=
    (hsound.distinct.others.foldl_touch call.reqBlocks).others
  have hpers := hsound.persistent.foldl_touch call.reqBlocks (markOf_persistent hcall)
  refine ⟨hdistinct.sublist (hsub.map _), fun h prio expiry hmem =>
    hpers h prio expiry (hsub.subset hmem), ?_, ?_⟩
  · rw [(serve_others hsound hcall).1,
      length_dropLowest _ (List.Nodup.of_map _ hmoved) (rank_injective _ hmoved)]
    omega
  · intro entry hentry hin
    obtain ⟨hmem, hother⟩ := List.mem_filter.mp hentry
    rcases mem_foldl_touch (hsub.subset hmem) with hold | ⟨hblock, hmark⟩
    · exact hsound.foreign entry (List.mem_filter.mpr ⟨hold, hother⟩) hin
    · rw [hmark, hextra entry.1 hblock hin] at hother
      simp at hother

/-- Caches that agree outside their evict-first buckets still agree after the
same call. -/
theorem serve_congr {capacity : ℕ} {extra : BlockHash → Prop} {call : AdmitCall K}
    {full base : RefCache K} (hfull : Sound capacity extra full)
    (hbase : Sound capacity extra base) (hcall : PersistentCall call)
    (hothers : others full.resident = others base.resident)
    (hpinned : full.pinnedEvictions = base.pinnedEvictions) :
    others (serve capacity call full).resident =
      others (serve capacity call base).resident ∧
    (serve capacity call full).pinnedEvictions =
      (serve capacity call base).pinnedEvictions := by
  obtain ⟨hres, hpin⟩ := serve_others hfull hcall
  obtain ⟨hres', hpin'⟩ := serve_others hbase hcall
  rw [hres, hres', hpin, hpin', hothers, hpinned]
  exact ⟨rfl, rfl⟩

/-- An evict-first call on extra blocks leaves the others and the pressure
counter as they were. -/
theorem serve_extra {capacity : ℕ} {extra : BlockHash → Prop} {call : AdmitCall K}
    {c : RefCache K} (hsound : Sound capacity extra c) (hcall : PersistentCall call)
    (hmark : isEvictFirst (markOf call) = true) (hblocks : ∀ h ∈ call.reqBlocks, extra h) :
    others (serve capacity call c).resident = others c.resident ∧
    (serve capacity call c).pinnedEvictions = c.pinnedEvictions := by
  have hidem : others (others c.resident) = others c.resident := by simp [others]
  have hmoved : others (call.reqBlocks.foldl (touch (markOf call)) (others c.resident)) =
      others c.resident := by
    rw [others_foldl_touch_foreign hmark, hidem]
    intro entry hentry hin
    rw [hidem] at hentry
    exact hsound.foreign entry hentry (hblocks entry.1 hin)
  obtain ⟨hres, hpin⟩ := serve_others hsound hcall
  have hexcess : (others c.resident).length - capacity = 0 := Nat.sub_eq_zero_of_le hsound.fits
  rw [hmoved, hexcess] at hres hpin
  exact ⟨by simpa using hres, by simpa using hpin⟩

end RefCache

namespace Node

open RefCache

variable [Scalar K]

def originals (calls : List (Bool × AdmitCall K)) : List (AdmitCall K) :=
  (calls.filter fun call => !call.1).map Prod.snd

/-- Two base nodes of one capacity that agree outside their evict-first buckets: the one
that is given the inserted calls as well, and the one that is not. -/
structure Alike (capacity : ℕ) (extra : BlockHash → Prop) (full base : Node K) : Prop where
  full_lru : full.eviction = .lru
  base_lru : base.eviction = .lru
  full_capacity : full.cacheCapacity = capacity
  base_capacity : base.cacheCapacity = capacity
  full_sound : Sound capacity extra full.view
  base_sound : Sound capacity extra base.view
  others : others full.view.resident = RefCache.others base.view.resident
  pinned : full.pinnedEvictions = base.pinnedEvictions

/-- One call on a base node, through the reference model. -/
theorem admitRequest_serve {capacity : ℕ} {n : Node K} (call : AdmitCall K)
    (hlru : n.eviction = .lru) (hcap : n.cacheCapacity = capacity) :
    ∃ n', n.admitRequest call = some n' ∧ n'.eviction = .lru ∧
      n'.cacheCapacity = capacity ∧ n'.view = serve capacity call n.view := by
  obtain ⟨n', hrun, hview⟩ := n.admitRequest_view call hlru (by omega)
  have hserver := admitRequest_sameServer hrun
  refine ⟨n', hrun, hserver.eviction.trans hlru, hserver.cacheCapacity.trans hcap, ?_⟩
  rw [hview, hcap]
  rfl

/-- A call of the original sequence, made on both nodes, keeps them alike. -/
theorem Alike.original {capacity : ℕ} {extra : BlockHash → Prop} {full base : Node K}
    (halike : Alike capacity extra full base) {call : AdmitCall K}
    (hcall : PersistentCall call) (hblocks : ∀ h ∈ call.reqBlocks, ¬ extra h) :
    ∃ full' base', full.admitRequest call = some full' ∧
      base.admitRequest call = some base' ∧ Alike capacity extra full' base' := by
  obtain ⟨full', hrun, hlru, hcap, hview⟩ :=
    admitRequest_serve call halike.full_lru halike.full_capacity
  obtain ⟨base', hrun', hlru', hcap', hview'⟩ :=
    admitRequest_serve call halike.base_lru halike.base_capacity
  obtain ⟨hothers, hpinned⟩ := serve_congr halike.full_sound halike.base_sound hcall
    halike.others halike.pinned
  have hextra : ∀ h ∈ call.reqBlocks, extra h → isEvictFirst (markOf call) = true :=
    fun h hh hin => absurd hin (hblocks h hh)
  refine ⟨full', base', hrun, hrun', hlru, hlru', hcap, hcap', ?_, ?_, ?_, ?_⟩
  · exact hview ▸ halike.full_sound.serve hcall hextra
  · exact hview' ▸ halike.base_sound.serve hcall hextra
  · rw [hview, hview', hothers]
  · exact (congrArg RefCache.pinnedEvictions hview).trans
      (hpinned.trans (congrArg RefCache.pinnedEvictions hview').symm)

/-- An inserted evict-first call, made on the full node only, keeps them alike. -/
theorem Alike.inserted {capacity : ℕ} {extra : BlockHash → Prop} {full base : Node K}
    (halike : Alike capacity extra full base) {call : AdmitCall K}
    (hcall : PersistentCall call) (hprio : call.priority = some evictFirst)
    (hblocks : ∀ h ∈ call.reqBlocks, extra h) :
    ∃ full', full.admitRequest call = some full' ∧ Alike capacity extra full' base := by
  obtain ⟨full', hrun, hlru, hcap, hview⟩ :=
    admitRequest_serve call halike.full_lru halike.full_capacity
  have hmark : isEvictFirst (markOf call) = true := by
    simp [markOf, directive, hprio, isEvictFirst, clampPriority, evictFirst, minPriority,
      maxPriority]
  obtain ⟨hothers, hpinned⟩ := serve_extra halike.full_sound hcall hmark hblocks
  refine ⟨full', hrun, hlru, halike.base_lru, hcap, halike.base_capacity, ?_,
    halike.base_sound, ?_, ?_⟩
  · exact hview ▸ halike.full_sound.serve hcall fun _ _ _ => hmark
  · rw [hview, hothers, halike.others]
  · exact (congrArg RefCache.pinnedEvictions hview).trans (hpinned.trans halike.pinned)

/-- The run with the inserted calls and the run without them stay alike, by induction on
the merged sequence: an original call goes to both nodes, an inserted one to the full
node only. -/
theorem Alike.run {capacity : ℕ} {extra : BlockHash → Prop}
    (calls : List (Bool × AdmitCall K)) {full base : Node K}
    (halike : Alike capacity extra full base)
    (hcalls : ∀ call ∈ calls, PersistentCall call.2)
    (hinserted : ∀ call ∈ calls, call.1 = true →
      call.2.priority = some evictFirst ∧ ∀ h ∈ call.2.reqBlocks, extra h)
    (horiginal : ∀ call ∈ calls, call.1 = false → ∀ h ∈ call.2.reqBlocks, ¬ extra h) :
    ∃ full' base', full.admitAll (calls.map Prod.snd) = some full' ∧
      base.admitAll (originals calls) = some base' ∧ Alike capacity extra full' base' := by
  induction calls generalizing full base with
  | nil => exact ⟨full, base, rfl, rfl, halike⟩
  | cons call rest ih =>
    obtain ⟨inserted, call⟩ := call
    have hcall := hcalls _ List.mem_cons_self
    have hrest : ∀ {full base : Node K}, Alike capacity extra full base →
        ∃ full' base', full.admitAll (rest.map Prod.snd) = some full' ∧
          base.admitAll (originals rest) = some base' ∧ Alike capacity extra full' base' :=
      fun h => ih h (fun c hc => hcalls c (List.mem_cons_of_mem _ hc))
        (fun c hc => hinserted c (List.mem_cons_of_mem _ hc))
        (fun c hc => horiginal c (List.mem_cons_of_mem _ hc))
    cases inserted with
    | true =>
      obtain ⟨hprio, hblocks⟩ := hinserted _ List.mem_cons_self rfl
      obtain ⟨next, hrun, hnext⟩ := halike.inserted hcall hprio hblocks
      obtain ⟨full', base', hfull, hbase, hend⟩ := hrest hnext
      refine ⟨full', base', ?_, ?_, hend⟩
      · simpa [admitAll, hrun] using hfull
      · simpa [originals] using hbase
    | false =>
      have hblocks := horiginal _ List.mem_cons_self rfl
      obtain ⟨next, next', hrun, hrun', hnext⟩ := halike.original hcall hblocks
      obtain ⟨full', base', hfull, hbase, hend⟩ := hrest hnext
      refine ⟨full', base', ?_, ?_, hend⟩
      · simpa [admitAll, hrun] using hfull
      · simpa [admitAll, originals, hrun'] using hbase

/-- Persistent evict-first requests on blocks of their own may be inserted anywhere in a
sequence of requests to a fresh base node. After every call, of either kind, the
residents that are not evict-first are the ones there would be without them, in the same
order and with the same marks, and so is the pressure counter. No request, of either
kind, may mark evict-first with an end. -/
theorem evictFirst_requests_leave_no_trace (nodeId : ℕ) (capacity : ℤ) (hcap : 0 ≤ capacity)
    (calls : List (Bool × AdmitCall K))
    (hcalls : ∀ call ∈ calls, PersistentCall call.2)
    (hinserted : ∀ call ∈ calls, call.1 = true → call.2.priority = some evictFirst ∧
      ∀ h ∈ call.2.reqBlocks, ∀ other ∈ calls, other.1 = false → h ∉ other.2.reqBlocks)
    (k : ℕ) :
    ∃ full base, (init nodeId capacity : Node K).admitAll ((calls.take k).map Prod.snd) =
        some full ∧
      (init nodeId capacity : Node K).admitAll (originals (calls.take k)) = some base ∧
      others full.view.resident = others base.view.resident ∧
      full.pinnedEvictions = base.pinnedEvictions := by
  have hstart : Sound capacity.toNat
      (fun h => ∀ other ∈ calls, other.1 = false → h ∉ other.2.reqBlocks)
      (init nodeId capacity : Node K).view := by
    refine ⟨?_, ?_, ?_, ?_⟩ <;> simp [init, view, Distinct, Persistent, others]
  have hcapacity : (init nodeId capacity : Node K).cacheCapacity = (capacity.toNat : ℤ) :=
    (Int.toNat_of_nonneg hcap).symm
  have halike : Alike capacity.toNat _ (init nodeId capacity) (init nodeId capacity) :=
    ⟨rfl, rfl, hcapacity, hcapacity, hstart, hstart, rfl, rfl⟩
  obtain ⟨full, base, hfull, hbase, hend⟩ := halike.run (calls.take k)
    (fun call hc => hcalls call (List.mem_of_mem_take hc))
    (fun call hc => hinserted call (List.mem_of_mem_take hc))
    (fun call hc horig h hh hin => hin call (List.mem_of_mem_take hc) horig hh)
  exact ⟨full, base, hfull, hbase, hend.others, hend.pinned⟩

/-- One inserted request on a node of two blocks that is already full. -/
theorem evictFirst_requests_leave_no_trace_one :
    ∃ full base, (init 0 2 : Node ℚ).admitAll
        [{ now := 0, serviceTime := 1, reqBlocks := [1, 2] },
          { now := 1, serviceTime := 1, reqBlocks := [9], priority := some evictFirst }] =
        some full ∧
      (init 0 2 : Node ℚ).admitAll [{ now := 0, serviceTime := 1, reqBlocks := [1, 2] }] =
        some base ∧
      others full.view.resident = others base.view.resident ∧
      full.pinnedEvictions = base.pinnedEvictions :=
  evictFirst_requests_leave_no_trace 0 2 (by decide)
    [(false, { now := (0 : ℚ), serviceTime := 1, reqBlocks := [1, 2] }),
      (true, { now := 1, serviceTime := 1, reqBlocks := [9], priority := some evictFirst })]
    (by simp [PersistentCall, zero_le_one]) (by simp) 2

end Node

end SchedLm.Sim
