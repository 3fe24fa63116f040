import SchedLm.Sim.Candidates
import SchedLm.Sim.Policies

/-!
What coarse load signals cost. A router that sees waits in whole nominal
services chooses by costs that are off by at most half a service, so its choice
is at most one service worse than the oracle's.
-/

namespace SchedLm.Sim

open LeastCost Runs

variable {K : Type} [Scalar K]

section Waits

variable {params : CostParams K} {node : Node K} {now : K}

theorem abs_quantizedWait_sub_le (hpos : 0 < nominalService params) :
    |quantizedWait node now params - node.wait now| ≤ nominalService params / 2 := by
  have hround := Scalar.abs_roundHalfEven_sub_le (node.wait now / nominalService params)
  unfold quantizedWait
  dsimp only
  rw [if_pos hpos]
  have hscale : (Scalar.roundHalfEven (node.wait now / nominalService params) : K) *
        nominalService params - node.wait now =
      ((Scalar.roundHalfEven (node.wait now / nominalService params) : K) -
        node.wait now / nominalService params) * nominalService params := by
    rw [sub_mul, div_mul_cancel₀ _ hpos.ne']
  rw [hscale, abs_mul, abs_of_pos hpos]
  have hle := mul_le_mul_of_nonneg_right hround hpos.le
  linarith

theorem quantizedWait_eq_wait (hpos : 0 < nominalService params) {services : ℤ}
    (h : node.wait now = services * nominalService params) :
    quantizedWait node now params = node.wait now := by
  unfold quantizedWait
  dsimp only
  rw [if_pos hpos, h, mul_div_cancel_right₀ _ hpos.ne', Scalar.roundHalfEven_intCast]

end Waits

section Scan

variable {req : RequestView} {nodes : List (Node K)} {now : K} {params : CostParams K}
  {hot : Node K}

def scoredPlacement (req : RequestView) (now : K) (params : CostParams K) (hot : Node K)
    (c : Node K × Bool) : Placement K :=
  { predicted req.blocks c.1 now params hot c.2 with
    ttft := (predicted req.blocks c.1 now params hot c.2).ttft - c.1.wait now +
      quantizedWait c.1 now params }

theorem key_scoredPlacement (c : Node K × Bool) :
    (scoredPlacement req now params hot c).key =
      waitingKey req.blocks params hot (fun n => quantizedWait n now params) c := by
  unfold scoredPlacement Placement.key predicted
  simp only [waitingKey, loadedKey]
  congr 2
  ring

/-- The invariant of the `transfer_aware` loop, after a part of the candidates: the best
so far is the least of those it has scored, and there is none only if it has scored
none. -/
structure Scanned (req : RequestView) (now : K) (params : CostParams K) (hot : Node K)
    (seen : List (Node K × Bool)) (best : Option (Placement K)) : Prop where
  unscored : best = none → ∀ c ∈ seen, ¬ Enumerated true hot c.1 c.2
  scored : ∀ p, best = some p → ∃ c, p = scoredPlacement req now params hot c ∧
    Least (fun d => d ∈ seen ∧ Enumerated true hot d.1 d.2)
      (fun d => (scoredPlacement req now params hot d).key) c

omit [Scalar K] in
theorem enumerated_iff {node : Node K} {transfer : Bool} :
    Enumerated true hot node transfer ↔ ¬ (transfer = true ∧ node.nodeId = hot.nodeId) := by
  unfold Enumerated
  cases transfer <;> simp

theorem Scanned.start : Scanned req now params hot [] none :=
  ⟨fun _ c hc => absurd hc List.not_mem_nil, fun p hp => by cases hp⟩

private theorem Scanned.skip {seen : List (Node K × Bool)} {best : Option (Placement K)}
    (h : Scanned req now params hot seen best) {c : Node K × Bool}
    (hskip : ¬ Enumerated true hot c.1 c.2) :
    Scanned req now params hot (seen ++ [c]) best := by
  have hmem : ∀ d, d ∈ seen ++ [c] → Enumerated true hot d.1 d.2 → d ∈ seen := by
    intro d hd henum
    rcases List.mem_append.mp hd with hd | hd
    · exact hd
    · rw [List.mem_singleton.mp hd] at henum
      exact absurd henum hskip
  refine ⟨?_, ?_⟩
  · intro hbest d hd henum
    exact h.unscored hbest d (hmem d hd henum) henum
  · intro p hp
    obtain ⟨d, hd, hleast⟩ := h.scored p hp
    refine ⟨d, hd, ⟨List.mem_append_left _ hleast.mem.1, hleast.mem.2⟩, ?_⟩
    intro e he
    exact hleast.le e ⟨hmem e he.1 he.2, he.2⟩

/-- A best so far that the new candidate and the earlier ones do not beat. -/
private theorem Scanned.keep {seen : List (Node K × Bool)} {c d : Node K × Bool}
    (hd : d ∈ seen ++ [c]) (henum : Enumerated true hot d.1 d.2)
    (hnew : (scoredPlacement req now params hot d).key ≤
      (scoredPlacement req now params hot c).key)
    (hseen : ∀ e ∈ seen, Enumerated true hot e.1 e.2 →
      (scoredPlacement req now params hot d).key ≤ (scoredPlacement req now params hot e).key) :
    Scanned req now params hot (seen ++ [c]) (some (scoredPlacement req now params hot d)) := by
  refine ⟨fun hnone => absurd hnone (Option.some_ne_none _), ?_⟩
  rintro _ hp
  obtain rfl := Option.some.inj hp
  refine ⟨d, rfl, ⟨hd, henum⟩, ?_⟩
  rintro e ⟨he, henumE⟩
  rcases List.mem_append.mp he with he | he
  · exact hseen e he henumE
  · rw [List.mem_singleton.mp he]
    exact hnew

theorem scoreCandidate_none {c : Node K × Bool} (hprice : ∀ blocks, params.CanPrice blocks)
    (henum : Enumerated true hot c.1 c.2) :
    scoreCandidate req now params hot none c =
      .ok (some (scoredPlacement req now params hot c)) := by
  have hpredict : predict req.blocks c.1 now params hot c.2 =
      .ok (predicted req.blocks c.1 now params hot c.2) :=
    predict_eq_ok_iff.mpr ⟨hprice _, rfl⟩
  unfold scoreCandidate
  dsimp only
  rw [if_neg (enumerated_iff.mp henum), hpredict]
  rfl

theorem scoreCandidate_some {c : Node K × Bool} (hprice : ∀ blocks, params.CanPrice blocks)
    (henum : Enumerated true hot c.1 c.2) (q : Placement K) :
    scoreCandidate req now params hot (some q) c =
      .ok (some (if (scoredPlacement req now params hot c).key < q.key
        then scoredPlacement req now params hot c else q)) := by
  have hpredict : predict req.blocks c.1 now params hot c.2 =
      .ok (predicted req.blocks c.1 now params hot c.2) :=
    predict_eq_ok_iff.mpr ⟨hprice _, rfl⟩
  unfold scoreCandidate
  dsimp only
  rw [if_neg (enumerated_iff.mp henum), hpredict]
  rfl

theorem Scanned.step {seen : List (Node K × Bool)} {best : Option (Placement K)}
    (h : Scanned req now params hot seen best) (hprice : ∀ blocks, params.CanPrice blocks)
    (c : Node K × Bool) :
    ∃ best', scoreCandidate req now params hot best c = .ok best' ∧
      Scanned req now params hot (seen ++ [c]) best' := by
  have hlast : c ∈ seen ++ [c] := List.mem_append_right _ (List.mem_singleton_self c)
  by_cases henum : Enumerated true hot c.1 c.2
  · cases hbest : best with
    | none =>
      refine ⟨_, scoreCandidate_none hprice henum, .keep hlast henum le_rfl ?_⟩
      intro e he henumE
      exact absurd henumE (h.unscored hbest e he)
    | some q =>
      obtain ⟨d, hd, hleast⟩ := h.scored q hbest
      refine ⟨_, scoreCandidate_some hprice henum q, ?_⟩
      split_ifs with hlt
      · refine .keep hlast henum le_rfl ?_
        intro e he henumE
        rw [hd] at hlt
        exact hlt.le.trans (hleast.le e ⟨he, henumE⟩)
      · rw [hd] at hlt ⊢
        refine .keep (List.mem_append_left _ hleast.mem.1) hleast.mem.2 (not_lt.mp hlt) ?_
        intro e he henumE
        exact hleast.le e ⟨he, henumE⟩
  · refine ⟨best, ?_, h.skip henum⟩
    unfold scoreCandidate
    dsimp only
    rw [if_pos (not_not.mp (mt enumerated_iff.mpr henum))]
    rfl

/-- The whole loop keeps the invariant, by induction on the candidates that are left. -/
theorem Scanned.run {seen : List (Node K × Bool)} {best : Option (Placement K)}
    (h : Scanned req now params hot seen best) (hprice : ∀ blocks, params.CanPrice blocks)
    (candidates : List (Node K × Bool)) :
    ∃ best', candidates.foldlM (scoreCandidate req now params hot) best = .ok best' ∧
      Scanned req now params hot (seen ++ candidates) best' := by
  induction candidates generalizing seen best with
  | nil => exact ⟨best, rfl, by rwa [List.append_nil]⟩
  | cons c rest ih =>
    obtain ⟨next, hnext, hscanned⟩ := h.step hprice c
    obtain ⟨best', hrest, hend⟩ := ih hscanned
    refine ⟨best', ?_, ?_⟩
    · rw [List.foldlM_cons, hnext]
      exact hrest
    · rwa [List.append_assoc, List.singleton_append] at hend

/-- The router's choice is the least candidate under the waits it sees. -/
theorem transferAware_returns (now : K) (hprice : ∀ blocks, params.CanPrice blocks)
    (hhot : hotNode req.blocks nodes = .ok hot) :
    ∃ c, transferAware req nodes now params = .ok (scoredPlacement req now params hot c) ∧
      Least (Candidate nodes true hot)
        (waitingKey req.blocks params hot fun n => quantizedWait n now params) c := by
  have hmem : ∀ c : Node K × Bool,
      c ∈ nodes.flatMap (fun node => [(node, false), (node, true)]) ↔ c.1 ∈ nodes := by
    rintro ⟨node, transfer⟩
    cases transfer <;> simp
  have hstart : Scanned req now params hot [] none := Scanned.start
  obtain ⟨best, hrun, hscanned⟩ := hstart.run hprice
    (nodes.flatMap fun node => [(node, false), (node, true)])
  rw [List.nil_append] at hscanned
  unfold transferAware
  cases best with
  | none =>
    exact absurd (Or.inl rfl)
      (hscanned.unscored rfl (hot, false) ((hmem _).mpr (hotNode_eq_ok hhot).1))
  | some p =>
    obtain ⟨c, rfl, hleast⟩ := hscanned.scored p rfl
    refine ⟨c, ?_, ⟨(hmem c).mp hleast.mem.1, hleast.mem.2⟩, ?_⟩
    · rw [bind_eq_ok]
      refine ⟨hot, hhot, ?_⟩
      rw [bind_eq_ok]
      exact ⟨_, hrun, rfl⟩
    · intro d hd
      rw [← key_scoredPlacement c, ← key_scoredPlacement d]
      exact hleast.le d ⟨(hmem d).mpr hd.1, hd.2⟩

end Scan

/-- The TTFT a placement has on the true state. -/
def Realizes (reqBlocks : List BlockHash) (nodes : List (Node K)) (now : K)
    (params : CostParams K) (place : Placement K) (ttft : K) : Prop :=
  ∃ hot node p, hotNode reqBlocks nodes = .ok hot ∧ node ∈ nodes ∧ node.nodeId = place.nodeId ∧
    predict reqBlocks node now params hot place.transfer = .ok p ∧ p.ttft = ttft

section Bounds

variable {req : RequestView} {nodes : List (Node K)} {now : K} {params : CostParams K}
  {hot : Node K}

/-- No placement prefills less than the blocks no node holds. -/
theorem le_idleTtft (hparams : params.Valid) {node : Node K}
    (h : node.matched req.blocks ≤ hot.matched req.blocks) (transfer : Bool) :
    idleTtft req.blocks params hot hot false ≤ idleTtft req.blocks params hot node transfer := by
  have hb := hparams.linkPerBlock_nonneg
  have hcast : (node.matched req.blocks : K) ≤ hot.matched req.blocks := Nat.cast_le.mpr h
  have hprefill := mul_le_mul_of_nonneg_right
    (sub_le_sub_left hcast (req.blocks.length : K)) hparams.prefillPerBlock_nonneg
  have hinPlace : idleTtft req.blocks params hot hot false ≤
      idleTtft req.blocks params hot node false := by
    rw [idleTtft_inPlace, idleTtft_inPlace]
    linarith
  cases transfer with
  | false => exact hinPlace
  | true =>
    rcases le_or_gt (hot.matched req.blocks) (node.matched req.blocks) with hnone | hsome
    · rw [idleTtft_seeded_of_le hnone]
      exact hinPlace
    · rw [idleTtft_seeded hsome, idleTtft_inPlace]
      have hlink := mul_nonneg (sub_nonneg.mpr hcast) hb
      have hlat := hparams.linkLatency
      linarith

/-- The router's choice against any other candidate, by true waits, when the waits it
sees are off by at most `ε`. No error at all makes it the oracle's choice in cost. -/
private theorem transferAware_near (now : K) (hparams : params.Valid)
    (hhot : hotNode req.blocks nodes = .ok hot) :
    ∃ c, Candidate nodes true hot c ∧
      transferAware req nodes now params = .ok (scoredPlacement req now params hot c) ∧
      ∀ ε, (∀ n ∈ nodes, |quantizedWait n now params - n.wait now| ≤ ε) →
        ∀ d, Candidate nodes true hot d →
          (predicted req.blocks c.1 now params hot c.2).ttft ≤
            (predicted req.blocks d.1 now params hot d.2).ttft + 2 * ε := by
  obtain ⟨c, hc, hleast⟩ := transferAware_returns now hparams.canPrice hhot
  refine ⟨c, hleast.mem, hc, ?_⟩
  intro ε hclose d hd
  exact hleast.cost_le_of_close_loads (fun n => n.wait now) (fun e he => hclose e.1 he.1) hd

/-- Sending a request to the hot node while its queue looks short enough: what it waits
there is at most the depth and the rounding, and it prefills the least. -/
private theorem affinity_near (now : K) (hparams : params.Valid)
    (hpos : 0 < nominalService params) (hhot : hotNode req.blocks nodes = .ok hot)
    (hshort : quantizedWait hot now params ≤
      (defaultSaturationDepth : K) * nominalService params)
    {d : Node K × Bool} (hd : Candidate nodes true hot d) :
    (predicted req.blocks hot now params hot false).ttft ≤
      (predicted req.blocks d.1 now params hot d.2).ttft +
        ((defaultSaturationDepth : K) + 1 / 2) * nominalService params := by
  have hclose : |quantizedWait hot now params - hot.wait now| ≤ nominalService params / 2 :=
    abs_quantizedWait_sub_le hpos
  have hwait := (abs_le.mp hclose).1
  have hidle : idleTtft req.blocks params hot hot false ≤
      idleTtft req.blocks params hot d.1 d.2 :=
    le_idleTtft hparams (matched_le_hot hhot hd.1) d.2
  have hqueue : 0 ≤ d.1.wait now := le_max_left _ _
  change hot.wait now + idleTtft req.blocks params hot hot false ≤
    d.1.wait now + idleTtft req.blocks params hot d.1 d.2 + _
  linarith

theorem classAware_rag (hrag : classify req = .rag)
    (hhot : hotNode req.blocks nodes = .ok hot) :
    classAware req nodes now params =
      if 0 < hot.matched req.blocks ∧ quantizedWait hot now params ≤
          (defaultSaturationDepth : K) * nominalService params then
        predict req.blocks hot now params hot false
      else transferAware req nodes now params := by
  unfold classAware
  rw [hrag, hhot]
  rfl

/-- What routing loses by coarse load signals, in any state of a cluster with a node and
under all valid costs with a nominal service that takes time. `transfer_aware` realizes
at most one nominal service more than the oracle, and as little as the oracle when all
waits are whole services; `class_aware`, for a request classified RAG, at most half a
service more than the saturation depth. Both answer, and are measured on the true
queues. -/
theorem coarse_signals_cost (req : RequestView) (nodes : List (Node K)) (now : K)
    (params : CostParams K) (hparams : params.Valid) (hpos : 0 < nominalService params)
    (hne : nodes ≠ []) :
    ∃ best, bestPlacement req.blocks nodes now params = .ok best ∧
      (∃ place ttft, transferAware req nodes now params = .ok place ∧
        Realizes req.blocks nodes now params place ttft ∧
        ttft ≤ best.ttft + nominalService params ∧
        ((∀ n ∈ nodes, ∃ services : ℤ, n.wait now = services * nominalService params) →
          ttft = best.ttft)) ∧
      (classify req = .rag → ∃ place ttft, classAware req nodes now params = .ok place ∧
        Realizes req.blocks nodes now params place ttft ∧
        ttft ≤ best.ttft + ((defaultSaturationDepth : K) + 1 / 2) * nominalService params) := by
  obtain ⟨hot, hhot⟩ := exists_hotNode req.blocks hne
  obtain ⟨best, hbest⟩ : ∃ best, bestPlacement req.blocks nodes now params = .ok best :=
    exists_bestPlacement hhot fun _ _ => hparams.canPrice _
  obtain ⟨hot', d, hd, rfl⟩ := exists_best hbest
  obtain rfl := Except.ok.inj (hhot.symm.trans hd.isHot)
  obtain ⟨c, hc, hplace, hnear⟩ := transferAware_near now hparams hhot
  have hpredict : ∀ n transfer, predict req.blocks n now params hot transfer =
      .ok (predicted req.blocks n now params hot transfer) :=
    fun n transfer => predict_eq_ok_iff.mpr ⟨hparams.canPrice _, rfl⟩
  have hrealizes : Realizes req.blocks nodes now params (scoredPlacement req now params hot c)
      (predicted req.blocks c.1 now params hot c.2).ttft :=
    ⟨hot, c.1, _, hhot, hc.1, rfl, hpredict c.1 c.2, rfl⟩
  have hbound : (predicted req.blocks c.1 now params hot c.2).ttft ≤
      (predicted req.blocks d.1 now params hot d.2).ttft + nominalService params := by
    have hhalf := hnear _ (fun n _ => abs_quantizedWait_sub_le hpos) d hd.least.mem
    rwa [mul_div_cancel₀ _ (two_ne_zero : (2 : K) ≠ 0)] at hhalf
  refine ⟨_, hbest, ⟨_, _, hplace, hrealizes, hbound, ?_⟩, ?_⟩
  · intro hwhole
    have hexact : ∀ n ∈ nodes, |quantizedWait n now params - n.wait now| ≤ 0 := by
      intro n hn
      obtain ⟨services, hservices⟩ := hwhole n hn
      rw [quantizedWait_eq_wait hpos hservices, sub_self, abs_zero]
    have hle := hnear 0 hexact d hd.least.mem
    rw [mul_zero, add_zero] at hle
    exact hle.antisymm (hd.least.cost_le hc)
  · intro hrag
    rw [classAware_rag hrag hhot]
    split_ifs with haffine
    · exact ⟨_, _, hpredict hot false, ⟨hot, hot, _, hhot, (hotNode_eq_ok hhot).1, rfl,
        hpredict hot false, rfl⟩, affinity_near now hparams hpos hhot haffine.2 hd.least.mem⟩
    · have hdepth : (defaultSaturationDepth : K) = 8 := by norm_num [defaultSaturationDepth]
      refine ⟨_, _, hplace, hrealizes, hbound.trans ?_⟩
      rw [hdepth]
      linarith

end Bounds

def documentQuestion : RequestView :=
  { blocks := [1, 2], numMessages := 2, lastMessageTokens := 200 }

/-- Half the document is cached on a node that is three seconds deep in queue. -/
theorem coarse_signals_cost_document : ∃ best,
    bestPlacement [1, 2] [holding 0 3 [1], holding 1 0 []] (0 : ℚ) {} = .ok best ∧
    ∃ place ttft,
      classAware documentQuestion [holding 0 3 [1], holding 1 0 []] 0 {} = .ok place ∧
      Realizes [1, 2] [holding 0 3 [1], holding 1 0 []] 0 {} place ttft ∧
      ttft ≤ best.ttft + ((defaultSaturationDepth : ℚ) + 1 / 2) * nominalService {} := by
  obtain ⟨best, hbest, -, hrag⟩ := coarse_signals_cost documentQuestion
    [holding 0 3 [1], holding 1 0 []] (0 : ℚ) {} CostParams.valid_default
    (by norm_num [nominalService]) (List.cons_ne_nil _ _)
  exact ⟨best, hbest, hrag rfl⟩

end SchedLm.Sim
