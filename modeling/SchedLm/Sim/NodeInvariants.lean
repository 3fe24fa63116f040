import SchedLm.Sim.Belady

/-!
What holds of a node after any sequence of requests: the cache fits, the two
tables of marks name the same resident blocks, priorities are in range, and
the queue tail and the pressure counter never go back. Insertion and eviction
each keep this, whichever strategy picks the victims.
-/

namespace SchedLm.Sim.Node

variable {K : Type} [Scalar K]

/-- The mark tables agree with each other and with the cache: a block is in both or in
neither, only residents are marked, and priorities are in range. -/
structure MarksConsistent (n : Node K) : Prop where
  sameKeys : ∀ h, h ∈ n.priority ↔ h ∈ n.expiry
  resident : ∀ h ∈ n.priority, h ∈ n.cache
  inRange : ∀ h prio, n.priority.lookup h = some prio → -1 ≤ prio ∧ prio ≤ 100

/-- The state invariant of a node: no more blocks than fit, none of them twice, and mark
tables that agree. -/
structure Consistent (n : Node K) : Prop where
  fits : (n.cache.len : ℤ) ≤ n.cacheCapacity
  distinct : n.cache.keys.Nodup
  marks : n.MarksConsistent

/-- A later state of a node: the queue tail and the pressure counter are not
taken back, and the capacity is the same. -/
structure Advances (n n' : Node K) : Prop where
  busyUntil : n.busyUntil ≤ n'.busyUntil
  pinnedEvictions : n.pinnedEvictions ≤ n'.pinnedEvictions
  cacheCapacity : n'.cacheCapacity = n.cacheCapacity

theorem Advances.refl (n : Node K) : Advances n n := ⟨le_rfl, le_rfl, rfl⟩

theorem Advances.trans {a b c : Node K} (hab : Advances a b) (hbc : Advances b c) :
    Advances a c :=
  ⟨hab.busyUntil.trans hbc.busyUntil, hab.pinnedEvictions.trans hbc.pinnedEvictions,
    hbc.cacheCapacity.trans hab.cacheCapacity⟩

theorem clampPriority_inRange (priority : ℤ) :
    -1 ≤ clampPriority priority ∧ clampPriority priority ≤ 100 := by
  unfold clampPriority minPriority maxPriority evictFirst pinned
  omega

theorem directive_inRange {now : K} {retainUntil : WithTop K} {priority : Option ℤ} {prio : ℤ}
    (h : (directive now retainUntil priority).1 = some prio) : -1 ≤ prio ∧ prio ≤ 100 := by
  cases priority with
  | none =>
    rw [directive] at h
    split_ifs at h
    obtain rfl : high = prio := Option.some.inj h
    decide
  | some asked =>
    obtain rfl : clampPriority asked = prio := Option.some.inj h
    exact clampPriority_inRange asked

omit [Scalar K] in
/-- Stamping a block keeps the tables in step: it becomes resident, and is
entered into both or dropped from both. -/
theorem MarksConsistent.stamp {n : Node K} (hn : n.MarksConsistent) {prio : Option ℤ}
    {expiry : WithTop K} (hprio : ∀ p, prio = some p → -1 ≤ p ∧ p ≤ 100) (h : BlockHash) :
    (stamp prio expiry n h).MarksConsistent := by
  have hcache : ∀ b, b ∈ (Node.stamp prio expiry n h).cache ↔ b = h ∨ b ∈ n.cache := by
    intro b
    rw [AList.mem_keys, keys_stamp, List.mem_append, List.mem_singleton,
      n.cache.keys_nodup.mem_erase_iff, AList.mem_keys]
    tauto
  cases prio with
  | none =>
    refine ⟨fun b => ?_, fun b hb => ?_, fun b p hp => ?_⟩
    · change b ∈ n.priority.erase h ↔ b ∈ n.expiry.erase h
      rw [AList.mem_erase, AList.mem_erase, hn.sameKeys]
    · obtain ⟨-, hb⟩ := AList.mem_erase.mp hb
      exact (hcache b).mpr (Or.inr (hn.resident b hb))
    · change (n.priority.erase h).lookup b = some p at hp
      rcases eq_or_ne b h with rfl | hne
      · rw [AList.lookup_erase] at hp
        cases hp
      · rw [AList.lookup_erase_ne hne] at hp
        exact hn.inRange b p hp
  | some marked =>
    refine ⟨fun b => ?_, fun b hb => ?_, fun b p hp => ?_⟩
    · change b ∈ n.priority.insert h marked ↔ b ∈ n.expiry.insert h expiry
      rw [AList.mem_insert, AList.mem_insert, hn.sameKeys]
    · apply (hcache b).mpr
      exact (AList.mem_insert _).mp hb |>.imp_right (hn.resident b)
    · change (n.priority.insert h marked).lookup b = some p at hp
      rcases eq_or_ne b h with rfl | hne
      · rw [AList.lookup_insert] at hp
        exact hprio p hp
      · rw [AList.lookup_insert_ne hne] at hp
        exact hn.inRange b p hp

theorem MarksConsistent.insertBlocks {n : Node K} (hn : n.MarksConsistent) (call : AdmitCall K) :
    (n.insertBlocks call).MarksConsistent := by
  unfold Node.insertBlocks
  have hstart : ({ n with
      atIndex := call.atIndex
      busyUntil := max call.now n.busyUntil + call.serviceTime } : Node K).MarksConsistent :=
    ⟨hn.1, hn.2, hn.3⟩
  induction call.reqBlocks using List.reverseRecOn with
  | nil => exact hstart
  | append_singleton hs h ih =>
    simp only [List.foldl_append, List.foldl_cons, List.foldl_nil]
    exact MarksConsistent.stamp ih (fun p hp => directive_inRange hp) h

theorem MarksConsistent.evictOne {n : Node K} (hn : n.MarksConsistent) (now : K)
    (hne : n.cache.keys ≠ []) : (n.evictOne now).MarksConsistent := by
  obtain ⟨victim, -, pressure, heq, -⟩ := n.evictOne_eq now hne
  rw [heq]
  refine ⟨fun b => ?_, fun b hb => ?_, fun b p hp => ?_⟩
  · change b ∈ n.priority.erase victim ↔ b ∈ n.expiry.erase victim
    rw [AList.mem_erase, AList.mem_erase, hn.sameKeys]
  · obtain ⟨hother, hb⟩ := AList.mem_erase.mp hb
    exact AList.mem_erase.mpr ⟨hother, hn.resident b hb⟩
  · change (n.priority.erase victim).lookup b = some p at hp
    rcases eq_or_ne b victim with rfl | hother
    · rw [AList.lookup_erase] at hp
      cases hp
    · rw [AList.lookup_erase_ne hother] at hp
      exact hn.inRange b p hp

theorem advances_evictOne (n : Node K) (now : K) (hne : n.cache.keys ≠ []) :
    Advances n (n.evictOne now) := by
  obtain ⟨victim, -, pressure, heq, -⟩ := n.evictOne_eq now hne
  rw [heq]
  exact ⟨le_rfl, Nat.le_add_right _ _, rfl⟩

/-- Starting service after the queue tail moves the tail forward. -/
theorem advances_insertBlocks (n : Node K) {call : AdmitCall K} (hservice : 0 ≤ call.serviceTime) :
    Advances n (n.insertBlocks call) := by
  rw [insertBlocks_frame]
  refine ⟨?_, le_rfl, rfl⟩
  calc n.busyUntil ≤ max call.now n.busyUntil := le_max_right _ _
    _ ≤ max call.now n.busyUntil + call.serviceTime := le_add_of_nonneg_right hservice

/-- One request: from a consistent state the node answers, in a consistent state that
has moved on. -/
theorem Consistent.admitRequest {n : Node K} (hn : n.Consistent) {call : AdmitCall K}
    (hservice : 0 ≤ call.serviceTime) :
    ∃ n', n.admitRequest call = some n' ∧ n'.Consistent ∧ Advances n n' := by
  have hcap : 0 ≤ n.cacheCapacity := (Int.natCast_nonneg _).trans hn.fits
  have hcap' : (n.insertBlocks call).cacheCapacity = n.cacheCapacity := by
    rw [insertBlocks_frame]
  obtain ⟨n', hrun, ⟨hmarks, hadvances⟩, hfit⟩ := evictWhile_rule
    (fun m => m.MarksConsistent ∧ Advances n m)
    (fun m hm _ hne => ⟨⟨hm.1.evictOne call.now hne, hm.2.trans (m.advances_evictOne _ hne)⟩,
      m.len_evictOne call.now hne⟩)
    ⟨hn.marks.insertBlocks call, n.advances_insertBlocks hservice⟩ (hcap'.symm ▸ hcap) le_rfl
  refine ⟨n', hrun, ⟨?_, n'.cache.keys_nodup, hmarks⟩, hadvances⟩
  rw [hadvances.cacheCapacity, hfit, hcap']
  omega

theorem consistent_init (nodeId : ℕ) {cacheBlocks : ℤ} (hcap : 0 ≤ cacheBlocks)
    (eviction : Eviction) : (init nodeId cacheBlocks eviction : Node K).Consistent := by
  refine ⟨?_, List.nodup_nil, ⟨fun b => ?_, fun b hb => ?_, fun b p hp => ?_⟩⟩
  · exact hcap
  · exact Iff.rfl
  · exact absurd hb (AList.notMem_empty b)
  · simp [init] at hp

/-- From a consistent state every sequence of requests is served, and leads to
a consistent state that has moved on. -/
theorem Consistent.admitAll {n : Node K} (hn : n.Consistent) {calls : List (AdmitCall K)}
    (hservice : ∀ call ∈ calls, 0 ≤ call.serviceTime) :
    ∃ n', n.admitAll calls = some n' ∧ n'.Consistent ∧ Advances n n' := by
  induction calls generalizing n with
  | nil => exact ⟨n, rfl, hn, Advances.refl n⟩
  | cons call rest ih =>
    obtain ⟨m, hcall, hm, hfirst⟩ := hn.admitRequest (hservice call List.mem_cons_self)
    obtain ⟨n', hrest, hn', hlater⟩ := ih hm fun c hc => hservice c (List.mem_cons_of_mem call hc)
    refine ⟨n', ?_, hn', hfirst.trans hlater⟩
    rw [Node.admitAll, List.foldlM_cons, hcall]
    exact hrest

/-- Every state a fresh node reaches is consistent: its mark tables agree with each
other and with its cache, no block is resident twice, and no more blocks than fit. This
holds under either eviction strategy, for any table of future uses, any directives and
any service times that are not negative; and a later state has moved on from an earlier
one, with the queue tail and the pressure counter never taken back. -/
theorem reachable_consistent (nodeId : ℕ) (cacheBlocks : ℤ) (eviction : Eviction)
    (earlier later : List (AdmitCall K)) (hcap : 0 ≤ cacheBlocks)
    (hservice : ∀ call ∈ earlier ++ later, 0 ≤ call.serviceTime) :
    ∃ m n : Node K, (init nodeId cacheBlocks eviction).admitAll earlier = some m ∧
      (init nodeId cacheBlocks eviction).admitAll (earlier ++ later) = some n ∧
      m.cacheCapacity = cacheBlocks ∧ m.Consistent ∧ n.Consistent ∧ Advances m n := by
  obtain ⟨m, hearlier, hm, hfresh⟩ := (consistent_init nodeId hcap eviction).admitAll
    fun call hcall => hservice call (List.mem_append_left later hcall)
  obtain ⟨n, hlater, hn, hadvances⟩ := hm.admitAll
    fun call hcall => hservice call (List.mem_append_right earlier hcall)
  refine ⟨m, n, hearlier, ?_, hfresh.cacheCapacity, hm, hn, hadvances⟩
  unfold Node.admitAll at hearlier hlater ⊢
  rw [List.foldlM_append, hearlier]
  exact hlater

/-- Two turns on a lookahead node with one slot; the second pins a block that
the first had marked for early eviction. -/
theorem reachable_consistent_repinned :
    let uses : Dict BlockHash (List ℕ) := AList.insert 1 [0, 1] (AList.insert 2 [0] ∅)
    let earlier : List (AdmitCall ℚ) :=
      [{ now := 0, serviceTime := 1, reqBlocks := [1, 2, 1], priority := some (-7) }]
    let later : List (AdmitCall ℚ) :=
      [{ now := 1 / 2, serviceTime := 0, reqBlocks := [1], retainUntil := ((3 : ℚ) : WithTop ℚ),
         atIndex := 1, priority := some 400 }]
    ∃ m n : Node ℚ, (init 0 1 (.belady uses)).admitAll earlier = some m ∧
      (init 0 1 (.belady uses)).admitAll (earlier ++ later) = some n ∧
      m.cacheCapacity = 1 ∧ m.Consistent ∧ n.Consistent ∧ Advances m n :=
  reachable_consistent 0 1 _ _ _ (by decide) (by simp)

end SchedLm.Sim.Node
