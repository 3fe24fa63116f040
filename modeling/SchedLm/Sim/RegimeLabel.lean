import SchedLm.Sim.Candidates

/-!
What the regime label of a placement depends on. The label should say what is
cached and what is moved; `predict` compares the node with the hot one, and
which node is hot among equally long prefixes is a matter of ids.
-/

namespace SchedLm.Sim

open Runs

variable {K : Type} [Scalar K]

/-- No node has a longer cached prefix. -/
def IsLongest (reqBlocks : List BlockHash) (nodes : List (Node K)) (node : Node K) : Prop :=
  ∀ n ∈ nodes, n.matched reqBlocks ≤ node.matched reqBlocks

/-- The label a placement should have by what is cached and moved. -/
structure LabelledByCache (reqBlocks : List BlockHash) (nodes : List (Node K))
    (node : Node K) (moved : ℤ) (regime : Regime) : Prop where
  transfer : regime = .transfer ↔ 0 < moved
  wait : regime = .wait ↔
    ¬ 0 < moved ∧ 0 < node.matched reqBlocks ∧ IsLongest reqBlocks nodes node
  recompute : regime = .recompute ↔
    ¬ 0 < moved ∧ ¬ (0 < node.matched reqBlocks ∧ IsLongest reqBlocks nodes node)

def Node.renumber (f : ℕ → ℕ) (n : Node K) : Node K := { n with nodeId := f n.nodeId }

omit [Scalar K] in
@[simp] theorem Node.matched_renumber (f : ℕ → ℕ) (n : Node K) (reqBlocks : List BlockHash) :
    (n.renumber f).matched reqBlocks = n.matched reqBlocks := rfl

/-- A placement's label says what is cached and moved, and stays what it is when
the nodes are renumbered. -/
structure LabelOfCache (reqBlocks : List BlockHash) (nodes : List (Node K)) (now : K)
    (params : CostParams K) (node : Node K) (transfer : Bool) : Prop where
  label : ∀ hot p, hotNode reqBlocks nodes = .ok hot →
    predict reqBlocks node now params hot transfer = .ok p →
    LabelledByCache reqBlocks nodes node (movedBlocks reqBlocks node hot transfer) p.regime
  renumbered : ∀ f : ℕ → ℕ, f.Injective → ∀ hot hot' p p',
    hotNode reqBlocks nodes = .ok hot →
    hotNode reqBlocks (nodes.map (Node.renumber f)) = .ok hot' →
    predict reqBlocks node now params hot transfer = .ok p →
    predict reqBlocks (node.renumber f) now params hot' transfer = .ok p' →
    p'.regime = p.regime

/-- A node shares the longest, non-empty prefix with another one, so that only their ids
say which of them is hot. -/
def SharesLongest (reqBlocks : List BlockHash) (nodes : List (Node K)) (node : Node K) : Prop :=
  0 < node.matched reqBlocks ∧ IsLongest reqBlocks nodes node ∧
    ∃ other ∈ nodes, other.nodeId ≠ node.nodeId ∧
      other.matched reqBlocks = node.matched reqBlocks

section Label

variable {reqBlocks : List BlockHash} {nodes : List (Node K)} {now : K} {params : CostParams K}
  {node hot : Node K} {transfer : Bool}

omit [Scalar K] in
theorem LabelledByCache.unique {moved : ℤ} {regime regime' : Regime}
    (h : LabelledByCache reqBlocks nodes node moved regime)
    (h' : LabelledByCache reqBlocks nodes node moved regime') : regime = regime' := by
  cases regime with
  | wait => exact (h'.wait.mpr (h.wait.mp rfl)).symm
  | transfer => exact (h'.transfer.mpr (h.transfer.mp rfl)).symm
  | recompute => exact (h'.recompute.mpr (h.recompute.mp rfl)).symm

omit [Scalar K] in
/-- What is moved depends on the longest prefix, not on who holds it. -/
theorem movedBlocks_pos_iff :
    0 < movedBlocks reqBlocks node hot transfer ↔
      transfer = true ∧ node.matched reqBlocks < hot.matched reqBlocks := by
  unfold movedBlocks
  cases transfer with
  | false => simp
  | true =>
    simp only [if_true, lt_max_iff, lt_irrefl, false_or, true_and]
    omega

omit [Scalar K] in
/-- The hot node's prefix is the longest, so a node has the longest one when it
matches as much. -/
theorem isLongest_iff (hhot : hotNode reqBlocks nodes = .ok hot) :
    IsLongest reqBlocks nodes node ↔ hot.matched reqBlocks ≤ node.matched reqBlocks :=
  ⟨fun h => h hot (hotNode_eq_ok hhot).1, fun h _ hn => (matched_le_hot hhot hn).trans h⟩

omit [Scalar K] in
/-- The label is right when no other node has as long a prefix. -/
theorem labelledByCache_of_not_sharesLongest (hids : DistinctIds nodes) (hnode : node ∈ nodes)
    (hhot : hotNode reqBlocks nodes = .ok hot) (h : ¬ SharesLongest reqBlocks nodes node) :
    LabelledByCache reqBlocks nodes node (movedBlocks reqBlocks node hot transfer)
      (regimeOf reqBlocks hot node transfer) := by
  have hmem := (hotNode_eq_ok hhot).1
  -- Being the hot node is having the longest prefix, when it is not empty.
  have hself : node.nodeId = hot.nodeId ∧ 0 < node.matched reqBlocks ↔
      0 < node.matched reqBlocks ∧ IsLongest reqBlocks nodes node := by
    constructor
    · rintro ⟨hid, hpos⟩
      obtain rfl := hids.eq_of_nodeId_eq hnode hmem hid
      exact ⟨hpos, (isLongest_iff hhot).mpr le_rfl⟩
    · rintro ⟨hpos, hlong⟩
      refine ⟨?_, hpos⟩
      by_contra hid
      exact h ⟨hpos, hlong, hot, hmem, Ne.symm hid,
        (hlong hot hmem).antisymm (matched_le_hot hhot hnode)⟩
  unfold regimeOf
  split_ifs with hmoved hwait
  · exact ⟨by simp [hmoved], by simp [hmoved], by simp [hmoved]⟩
  · have hlong := hself.mp hwait
    exact ⟨by simp [hmoved], by simp [hmoved, hlong], by simp [hmoved, hlong]⟩
  · have hlong : ¬ (0 < node.matched reqBlocks ∧ IsLongest reqBlocks nodes node) :=
      fun hlong => hwait (hself.mpr hlong)
    exact ⟨by simp [hmoved], by simpa [hmoved] using hlong, by simp [hmoved, hlong]⟩

omit [Scalar K] in
theorem distinctIds_renumber (hids : DistinctIds nodes) {f : ℕ → ℕ} (hf : f.Injective) :
    DistinctIds (nodes.map (Node.renumber f)) := by
  have hmap : (nodes.map (Node.renumber f)).map Node.nodeId =
      (nodes.map Node.nodeId).map f := by
    rw [List.map_map, List.map_map]
    rfl
  unfold DistinctIds
  rw [hmap]
  exact hids.map hf

omit [Scalar K] in
/-- Renumbering changes which node is hot, not how long its prefix is. -/
theorem matched_hot_renumber {f : ℕ → ℕ} {hot' : Node K}
    (hhot : hotNode reqBlocks nodes = .ok hot)
    (hhot' : hotNode reqBlocks (nodes.map (Node.renumber f)) = .ok hot') :
    hot'.matched reqBlocks = hot.matched reqBlocks := by
  apply le_antisymm
  · obtain ⟨n, hn, rfl⟩ := List.mem_map.mp (hotNode_eq_ok hhot').1
    rw [Node.matched_renumber]
    exact matched_le_hot hhot hn
  · rw [← Node.matched_renumber f hot]
    exact matched_le_hot hhot' (List.mem_map_of_mem (hotNode_eq_ok hhot).1)

omit [Scalar K] in
theorem sharesLongest_of_renumber {f : ℕ → ℕ}
    (h : SharesLongest reqBlocks (nodes.map (Node.renumber f)) (node.renumber f)) :
    SharesLongest reqBlocks nodes node := by
  obtain ⟨hpos, hlong, other', hother', hne, hsame⟩ := h
  obtain ⟨other, hother, rfl⟩ := List.mem_map.mp hother'
  refine ⟨hpos, ?_, other, hother, ?_, hsame⟩
  · intro n hn
    exact hlong (n.renumber f) (List.mem_map_of_mem hn)
  · intro hid
    exact hne (congrArg f hid)

omit [Scalar K] in
theorem labelledByCache_renumber {f : ℕ → ℕ} {moved : ℤ} {regime : Regime}
    (h : LabelledByCache reqBlocks (nodes.map (Node.renumber f)) (node.renumber f) moved regime) :
    LabelledByCache reqBlocks nodes node moved regime := by
  have hlong : IsLongest reqBlocks (nodes.map (Node.renumber f)) (node.renumber f) ↔
      IsLongest reqBlocks nodes node := by
    unfold IsLongest
    simp only [List.forall_mem_map]
    rfl
  refine ⟨h.transfer, ?_, ?_⟩
  · rw [← hlong]
    exact h.wait
  · rw [← hlong]
    exact h.recompute

omit [Scalar K] in
/-- Of the nodes with the longest prefix, the hot one has the lowest id. -/
theorem nodeId_hot_le (hhot : hotNode reqBlocks nodes = .ok hot) {n : Node K} (hn : n ∈ nodes)
    (hsame : n.matched reqBlocks = hot.matched reqBlocks) : hot.nodeId ≤ n.nodeId := by
  have hle := (hotNode_eq_ok hhot).2 n hn
  rw [hotKey, hotKey, Prod.Lex.toLex_le_toLex] at hle
  rcases hle with hlt | ⟨-, hid⟩
  · exact absurd hsame hlt.ne
  · exact OrderDual.toDual_le_toDual.mp hid

/-- Swapping ids with another node of the longest prefix takes the label from
the hot one. -/
private theorem not_labelOfCache_hot (hhot : hotNode reqBlocks nodes = .ok node)
    (hpos : 0 < node.matched reqBlocks) {other : Node K} (hother : other ∈ nodes)
    (hne : other.nodeId ≠ node.nodeId)
    (hsame : other.matched reqBlocks = node.matched reqBlocks) :
    ¬ LabelOfCache reqBlocks nodes now params node transfer := by
  intro h
  have hlower := lt_of_le_of_ne (nodeId_hot_le hhot hother hsame) hne.symm
  let swap := Equiv.swap node.nodeId other.nodeId
  have hleft : swap node.nodeId = other.nodeId := Equiv.swap_apply_left _ _
  have hright : swap other.nodeId = node.nodeId := Equiv.swap_apply_right _ _
  have hnonempty : nodes.map (Node.renumber swap) ≠ [] :=
    List.ne_nil_of_mem (List.mem_map_of_mem hother)
  obtain ⟨hot', hhot'⟩ := exists_hotNode reqBlocks hnonempty
  have hmatched := matched_hot_renumber hhot hhot'
  -- The other node is below it now, so the hot node is another one.
  have hcold : (node.renumber swap).nodeId ≠ hot'.nodeId := by
    have hle := nodeId_hot_le hhot' (List.mem_map_of_mem hother) (hsame.trans hmatched.symm)
    change swap node.nodeId ≠ hot'.nodeId
    change hot'.nodeId ≤ swap other.nodeId at hle
    omega
  have hstill : ¬ 0 < movedBlocks reqBlocks node node transfer := by
    rw [movedBlocks_self]
    exact lt_irrefl 0
  have hstill' : ¬ 0 < movedBlocks reqBlocks (node.renumber swap) hot' transfer := by
    rw [movedBlocks_pos_iff, hmatched]
    exact fun hlt => lt_irrefl _ hlt.2
  have hregime := h.renumbered swap swap.injective node hot' _ _ hhot hhot'
    (predict_eq_ok_iff.mpr ⟨fun hlt => absurd hlt hstill, rfl⟩)
    (predict_eq_ok_iff.mpr ⟨fun hlt => absurd hlt hstill', rfl⟩)
  rw [predicted, predicted, regimeOf, regimeOf, if_neg hstill',
    if_neg fun hand => hcold hand.1, if_neg hstill, if_pos ⟨rfl, hpos⟩] at hregime
  cases hregime

end Label

def samePrompt : List (Node ℚ) :=
  [holding 0 0 [1], holding 1 0 [1]]

def secondPrompt : Node ℚ := holding 1 0 [1]

/-- Serving the request on the second node reuses the whole prompt in place and
is labelled a recomputation; under swapped ids it is labelled waiting. -/
theorem label_depends_on_ids :
    (hotNode [1] samePrompt >>= fun hot => predict [1] secondPrompt 0 {} hot false).map
      Placement.regime = .ok .recompute ∧
    (hotNode [1] (samePrompt.map (Node.renumber (1 - ·))) >>= fun hot =>
      predict [1] (secondPrompt.renumber (1 - ·)) 0 {} hot false).map
        Placement.regime = .ok .wait ∧
    secondPrompt ∈ samePrompt ∧ ¬ LabelOfCache [1] samePrompt 0 {} secondPrompt false := by
  have hrecompute : (hotNode [1] samePrompt >>= fun hot =>
      predict [1] secondPrompt 0 {} hot false).map Placement.regime = .ok .recompute := by
    decide +kernel
  have hmem : secondPrompt ∈ samePrompt := List.mem_cons_of_mem _ List.mem_cons_self
  have hlong : IsLongest [1] samePrompt secondPrompt := by
    intro n hn
    rcases List.mem_cons.mp hn with rfl | hn
    · exact le_rfl
    · rw [List.mem_singleton.mp hn]
      exact le_rfl
  refine ⟨hrecompute, by decide +kernel, hmem, ?_⟩
  intro h
  obtain ⟨p, hp, hregime⟩ := map_eq_ok.mp hrecompute
  obtain ⟨hot, hhot, hp⟩ := bind_eq_ok.mp hp
  have hwait := (h.label hot p hhot hp).wait.mpr ⟨by simp [movedBlocks], by decide, hlong⟩
  rw [hregime] at hwait
  cases hwait

/-- The label of a placement says what is cached and moved, and stays under every
renumbering of the nodes, exactly when the node shares the longest prefix with no other:
for every placement on every node of a cluster with distinct ids. -/
theorem labelOfCache_iff {reqBlocks : List BlockHash} {nodes : List (Node K)} {now : K}
    {params : CostParams K} {node : Node K} {transfer : Bool} (hids : DistinctIds nodes)
    (hnode : node ∈ nodes) :
    LabelOfCache reqBlocks nodes now params node transfer ↔
      ¬ SharesLongest reqBlocks nodes node := by
  constructor
  · rintro h ⟨hpos, hlong, other, hother, hne, hsame⟩
    obtain ⟨hot, hhot⟩ := exists_hotNode reqBlocks (List.ne_nil_of_mem hnode)
    have hmoved : ¬ 0 < movedBlocks reqBlocks node hot transfer := by
      rw [movedBlocks_pos_iff]
      exact fun hlt => absurd hlt.2 (not_lt.mpr (hlong hot (hotNode_eq_ok hhot).1))
    by_cases hself : node.nodeId = hot.nodeId
    · obtain rfl := hids.eq_of_nodeId_eq hnode (hotNode_eq_ok hhot).1 hself
      exact not_labelOfCache_hot hhot hpos hother hne hsame h
    · have hp := h.label hot _ hhot (predict_eq_ok_iff.mpr ⟨fun hlt => absurd hlt hmoved, rfl⟩)
      have hwait := hp.wait.mpr ⟨hmoved, hpos, hlong⟩
      rw [predicted, regimeOf, if_neg hmoved, if_neg fun hand => hself hand.1] at hwait
      cases hwait
  · intro hshares
    refine ⟨?_, ?_⟩
    · intro hot p hhot hp
      obtain ⟨-, rfl⟩ := predict_eq_ok_iff.mp hp
      exact labelledByCache_of_not_sharesLongest hids hnode hhot hshares
    · intro f hf hot hot' p p' hhot hhot' hp hp'
      obtain ⟨-, rfl⟩ := predict_eq_ok_iff.mp hp
      obtain ⟨-, rfl⟩ := predict_eq_ok_iff.mp hp'
      have hlabel : LabelledByCache reqBlocks nodes node (movedBlocks reqBlocks node hot transfer)
          (regimeOf reqBlocks hot node transfer) :=
        labelledByCache_of_not_sharesLongest hids hnode hhot hshares
      have hlabel' : LabelledByCache reqBlocks nodes node
          (movedBlocks reqBlocks (node.renumber f) hot' transfer)
          (regimeOf reqBlocks hot' (node.renumber f) transfer) :=
        labelledByCache_renumber (labelledByCache_of_not_sharesLongest
          (distinctIds_renumber hids hf) (List.mem_map_of_mem hnode) hhot'
          (mt sharesLongest_of_renumber hshares))
      have hmoved : movedBlocks reqBlocks (node.renumber f) hot' transfer =
          movedBlocks reqBlocks node hot transfer := by
        unfold movedBlocks
        rw [matched_hot_renumber hhot hhot']
        rfl
      rw [hmoved] at hlabel'
      exact hlabel'.unique hlabel

/-- One node holds more of the prompt than the other: under any ids it is labelled
by what it holds. -/
theorem labelOfCache_iff_two :
    LabelOfCache [1, 2] [holding 0 0 [1], holding 1 0 [1, 2]] 0 {} (holding 1 (0 : ℚ) [1, 2])
      false := by
  refine (labelOfCache_iff (by unfold DistinctIds; decide) (by simp)).mpr ?_
  rintro ⟨-, -, other, hother, hne, hsame⟩
  rcases List.mem_pair.mp hother with rfl | rfl
  · exact absurd hsame (by decide)
  · exact hne rfl

end SchedLm.Sim
