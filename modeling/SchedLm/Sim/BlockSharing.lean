import SchedLm.Sim.NodeInvariants

/-!
Blocks shared between requests. A node keeps one mark a block, and each request
that covers the block writes it anew: what counts at any instant is the
directive of the latest request covering the block, not the strongest one.
-/

namespace SchedLm.Sim

variable {K : Type} [Scalar K]

/-- The priority a mark stands for at an instant; a passed lease collapses to
unmarked. -/
def effectivePriority (now : K) : Option (Mark K) → Option ℤ
  | none => none
  | some (prio, expiry) => if expiry ≤ (now : WithTop K) then none else some prio

def covering (h : BlockHash) (calls : List (AdmitCall K)) : List (AdmitCall K) :=
  calls.filter fun call => h ∈ call.reqBlocks

/-- The priorities of the directives on a block that are live at an instant. -/
def liveDirectives (now : K) (calls : List (AdmitCall K)) (h : BlockHash) : List ℤ :=
  (covering h calls).filterMap fun call => effectivePriority now (RefCache.markOf call)

theorem covering_append_singleton (h : BlockHash) (calls : List (AdmitCall K))
    (call : AdmitCall K) :
    covering h (calls ++ [call]) =
      if h ∈ call.reqBlocks then covering h calls ++ [call] else covering h calls := by
  unfold covering
  rw [List.filter_append, List.filter_singleton]
  split_ifs with hmem
  · simp [hmem]
  · simp [hmem]

namespace Node

def effectivePriority (n : Node K) (now : K) (h : BlockHash) : Option ℤ :=
  Sim.effectivePriority now (n.mark h)

theorem mark_foldl_stamp (prio : Option ℤ) (expiry : WithTop K)
    (reqBlocks : List BlockHash) (n : Node K) (h : BlockHash) :
    (reqBlocks.foldl (stamp prio expiry) n).mark h =
      if h ∈ reqBlocks then prio.map fun p => (p, expiry) else n.mark h := by
  induction reqBlocks using List.reverseRecOn with
  | nil => rfl
  | append_singleton rest b ih =>
    rw [List.foldl_append, List.foldl_cons, List.foldl_nil]
    rcases eq_or_ne h b with rfl | hne
    · rw [mark_stamp, if_pos (List.mem_append_right rest (List.mem_singleton_self h))]
    · rw [mark_stamp_ne prio expiry _ hne, ih]
      simp [hne]

/-- The insertion writes the request's directive on its blocks, over whatever
was there. -/
theorem mark_insertBlocks (n : Node K) (call : AdmitCall K) (h : BlockHash) :
    (n.insertBlocks call).mark h =
      if h ∈ call.reqBlocks then RefCache.markOf call else n.mark h := by
  unfold insertBlocks
  rw [mark_foldl_stamp]
  unfold RefCache.markOf
  rcases directive call.now call.retainUntil call.priority with ⟨_ | prio, expiry⟩ <;> rfl

/-- Evictions take blocks away and leave the marks of the others. -/
theorem mark_evictWhile {now : K} {fuel : ℕ} {n n' : Node K}
    (hrun : n.evictWhile now fuel = some n') {h : BlockHash} (hh : h ∈ n'.cache) :
    h ∈ n.cache ∧ n'.mark h = n.mark h := by
  refine evictWhile_preserves (fun m => h ∈ m.cache → h ∈ n.cache ∧ m.mark h = n.mark h) ?_
    (fun hn => ⟨hn, rfl⟩) hrun hh
  intro m hm hleft
  obtain ⟨pressure, ⟨-, heq⟩ | ⟨victim, -, heq⟩⟩ := m.evictOne_cases now
  · rw [heq] at hleft ⊢
    exact hm hleft
  · rw [heq] at hleft ⊢
    obtain ⟨hne, hthere⟩ := AList.mem_erase.mp hleft
    obtain ⟨hin, hmark⟩ := hm hthere
    refine ⟨hin, Eq.trans ?_ hmark⟩
    unfold mark
    rw [AList.lookup_erase_ne hne, AList.lookup_erase_ne hne]

/-- A resident block carries the mark of the latest request that covers it, by induction
on the requests from the last one on. -/
theorem mark_admitAll {nodeId : ℕ} {cacheBlocks : ℤ} {eviction : Eviction}
    {calls : List (AdmitCall K)} {n : Node K}
    (hrun : (init nodeId cacheBlocks eviction).admitAll calls = some n) {h : BlockHash}
    (hh : h ∈ n.cache) :
    ∃ call, (covering h calls).getLast? = some call ∧ n.mark h = RefCache.markOf call := by
  induction calls using List.reverseRecOn generalizing n with
  | nil =>
    obtain rfl : init nodeId cacheBlocks eviction = n := Option.some.inj hrun
    exact absurd hh (AList.notMem_empty h)
  | append_singleton calls call ih =>
    unfold admitAll at hrun
    rw [List.foldlM_append, Option.bind_eq_bind, Option.bind_eq_some_iff] at hrun
    obtain ⟨before, hbefore, hlast⟩ := hrun
    have hadmitted : before.admitRequest call = some n := by simpa using hlast
    obtain ⟨hinserted, hmark⟩ := mark_evictWhile hadmitted hh
    rw [hmark, mark_insertBlocks, covering_append_singleton]
    split_ifs with hcovers
    · exact ⟨call, List.getLast?_concat, rfl⟩
    · exact ih hbefore ((mem_insertBlocks.mp hinserted).resolve_left hcovers)

/-- A node with room for no less than nothing serves every sequence. -/
theorem exists_admitAll {n : Node K} (hcap : 0 ≤ n.cacheCapacity) (calls : List (AdmitCall K)) :
    ∃ n', n.admitAll calls = some n' := by
  induction calls generalizing n with
  | nil => exact ⟨n, rfl⟩
  | cons call rest ih =>
    obtain ⟨m, hcall, -⟩ := n.admitRequest_fits call hcap
    obtain ⟨n', hrest⟩ := ih ((admitRequest_sameServer hcall).cacheCapacity.symm ▸ hcap)
    refine ⟨n', ?_⟩
    rw [admitAll, List.foldlM_cons, hcall]
    exact hrest

/-- What it would be for a shared block to carry the strongest live directive on it. -/
def CarriesStrongest (n : Node K) (calls : List (AdmitCall K)) (now : K) (h : BlockHash) :
    Prop :=
  n.effectivePriority now h = (liveDirectives now calls h).max?

/-- A leased block touched again without a directive, well within its lease. -/
def leasedThenTouched : List (AdmitCall ℚ) :=
  [{ now := 0, serviceTime := 1, reqBlocks := [1], retainUntil := ((10 : ℚ) : WithTop ℚ) },
   { now := 1, serviceTime := 1, reqBlocks := [1] }]

/-- The lease is still live and covers the resident block, and the block is
unmarked all the same. -/
theorem strongest_is_overwritten :
    ∃ n : Node ℚ, (init 0 2).admitAll leasedThenTouched = some n ∧ 1 ∈ n.cache ∧
      liveDirectives 1 leasedThenTouched 1 = [high] ∧
      n.effectivePriority 1 1 = none ∧ ¬ n.CarriesStrongest leasedThenTouched 1 1 := by
  refine ⟨_, rfl, by decide +kernel, by decide +kernel, by decide +kernel, ?_⟩
  unfold CarriesStrongest
  decide +kernel

/-- After every run of a fresh node, at every instant, a resident block has the
effective priority of the directive of the latest request that covers it: a shared block
carries neither the strongest nor the longest of its directives, but the last. Every run
gets through when the capacity is not negative. -/
theorem effective_priority_is_latest (nodeId : ℕ) (cacheBlocks : ℤ) (eviction : Eviction)
    (calls : List (AdmitCall K)) :
    (0 ≤ cacheBlocks →
      ∃ n, (init nodeId cacheBlocks eviction).admitAll calls = some n) ∧
    ∀ n, (init nodeId cacheBlocks eviction).admitAll calls = some n → ∀ h ∈ n.cache,
      ∃ latest, (covering h calls).getLast? = some latest ∧ ∀ now,
        n.effectivePriority now h = Sim.effectivePriority now (RefCache.markOf latest) := by
  refine ⟨fun hcap => exists_admitAll hcap calls, ?_⟩
  intro n hrun h hh
  obtain ⟨latest, hlatest, hmark⟩ := mark_admitAll hrun hh
  refine ⟨latest, hlatest, fun now => ?_⟩
  rw [effectivePriority, hmark]

/-- The block touched without a directive is unmarked, like its latest request. -/
theorem effective_priority_is_latest_touched :
    ∃ n : Node ℚ, (init 0 2).admitAll leasedThenTouched = some n ∧
      ∃ latest, (covering 1 leasedThenTouched).getLast? = some latest ∧ ∀ now,
        n.effectivePriority now 1 = Sim.effectivePriority now (RefCache.markOf latest) := by
  obtain ⟨hserved, hlatest⟩ := effective_priority_is_latest 0 2 .lru leasedThenTouched
  obtain ⟨n, hrun⟩ := hserved (by decide)
  have hresident : ((init 0 2 : Node ℚ).admitAll leasedThenTouched).map
      (fun n => decide (1 ∈ n.cache)) = some true := by decide +kernel
  rw [hrun] at hresident
  exact ⟨n, hrun, hlatest n hrun 1 (of_decide_eq_true (Option.some.inj hresident))⟩

end Node

end SchedLm.Sim
